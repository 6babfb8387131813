import BluePods.Validate
import BluePods.Views

/-! Which vertex of an equivocating designated producer is certified. A view
certifies the lowest-hash sibling that a quorum cites in it, so two views agree
whenever every set of citing vertices that certifies a sibling also certifies the
lowest one the whole universe certifies. -/

namespace BluePods

namespace Store

/-- The vertices of a store that satisfy a test. -/
def restrict (s : Store) (keep : Vertex → Bool) : Store :=
  { s with
    vertices := s.vertices.filter keep
    nodup := s.nodup.sublist (List.filter_sublist.map _) }

variable {s : Store} {keep : Vertex → Bool}

theorem mem_restrict {v : Vertex} :
    v ∈ (s.restrict keep).vertices ↔ v ∈ s.vertices ∧ keep v = true :=
  List.mem_filter

/-- `p` has a vertex of the round among those kept that cites `v`. -/
def citerAmong (s : Store) (keep : Vertex → Bool) (round : Nat) (v p : Hash) : Bool :=
  s.vertices.any fun x =>
    keep x && decide (x.round = round ∧ x.producer = p ∧ v ∈ x.parentHashes)

variable {P v : Hash} {U : Store} {N : Nat}

theorem citerAmong_iff {r : Nat} {p : Hash} :
    s.citerAmong keep r v p = true ↔
      ∃ x ∈ s.vertices, keep x = true ∧ x.round = r ∧ x.producer = p ∧ v ∈ x.parentHashes := by
  simp [citerAmong]

/-- Cited vertices lie in earlier rounds. -/
def ParentsBelow (s : Store) : Prop :=
  ∀ v ∈ s.vertices, ∀ w ∈ s.vertices, w.hash ∈ v.parentHashes → w.round < v.round

instance (s : Store) : Decidable s.ParentsBelow :=
  inferInstanceAs (Decidable (∀ v ∈ s.vertices, ∀ w ∈ s.vertices, _ → _))

/-- Everything up to round `N` and the chosen vertices of round `N + 1`. -/
def cutAbove (s : Store) (N : Nat) (keep : Vertex → Bool) : Store :=
  s.restrict fun v => decide (v.round ≤ N) || decide (v.round = N + 1) && keep v

theorem isView_self (hc : U.Closed) : U.universe.IsView U :=
  ⟨fun _ h => h, hc⟩

theorem isView_cutAbove (hc : U.Closed) (hbelow : U.ParentsBelow) (N : Nat) (keep : Vertex → Bool) :
    U.universe.IsView (U.cutAbove N keep) where
  subset v hv := (mem_restrict.1 hv).1
  closed v hv p hp := by
    obtain ⟨hvU, hvk⟩ := mem_restrict.1 hv
    obtain ⟨w, hw, rfl⟩ := hc v hvU p hp
    have hlt := hbelow v hvU w hw hp
    have hround : v.round ≤ N + 1 := by
      simp only [Bool.or_eq_true, Bool.and_eq_true, decide_eq_true_eq] at hvk
      omega
    exact ⟨w, mem_restrict.2 ⟨hw, by
      rw [Bool.or_eq_true, decide_eq_true_eq]
      exact .inl (by omega)⟩, rfl⟩

theorem citer_cutAbove (U : Store) (N : Nat) (keep : Vertex → Bool) (v p : Hash) :
    (U.cutAbove N keep).citer (N + 1) v p = U.citerAmong keep (N + 1) v p := by
  rw [Bool.eq_iff_iff, citer_iff, citerAmong_iff]
  constructor
  · rintro ⟨x, hx, hr, hp, hcite⟩
    obtain ⟨hxU, hk⟩ := mem_restrict.1 hx
    refine ⟨x, hxU, ?_, hr, hp, hcite⟩
    simpa [hr] using hk
  · rintro ⟨x, hxU, hk, hr, hp, hcite⟩
    exact ⟨x, mem_restrict.2 ⟨hxU, by simp [hr, hk]⟩, hr, hp, hcite⟩

theorem isCandidate_cutAbove {h : Hash} :
    (U.cutAbove N keep).IsCandidate N P h ↔ U.IsCandidate N P h := by
  constructor
  · rintro ⟨v, hv, hr, hp, hh⟩
    exact ⟨v, (mem_restrict.1 hv).1, hr, hp, hh⟩
  · rintro ⟨v, hv, hr, hp, hh⟩
    exact ⟨v, mem_restrict.2 ⟨hv, by simp [hr]⟩, hr, hp, hh⟩

end Store

namespace DAG

/-- All views of a universe that certify the round certify the same vertex. -/
def UniqueCertification (cr : Crypto) (d : DAG) (U : Store) (N : Nat) : Prop :=
  ∀ A B v w, U.universe.IsView A → U.universe.IsView B →
    (d.withStore A).directAnchorVerdict cr N = .certified v →
    (d.withStore B).directAnchorVerdict cr N = .certified w → v = w

/-- `m` is the lowest of the producer's vertices that the next round of the universe
cites by a quorum. -/
def LowestCertifiable (d : DAG) (set : ValidatorSet) (U : Store) (N : Nat) (P m : Hash) : Prop :=
  U.IsCandidate N P m ∧ d.Quorum set (U.citer (N + 1) m) ∧
    ∀ w, U.IsCandidate N P w → d.Quorum set (U.citer (N + 1) w) → m ≤ w

/-- Next-round vertices that carry a quorum for some vertex of the producer carry one
for the lowest certifiable vertex too. -/
def SiblingsRally (d : DAG) (set : ValidatorSet) (U : Store) (N : Nat) (P : Hash) : Prop :=
  ∀ m, d.LowestCertifiable set U N P m → ∀ w keep, U.IsCandidate N P w →
    d.Quorum set (U.citerAmong keep (N + 1) w) → d.Quorum set (U.citerAmong keep (N + 1) m)

/-- A view's certified vertex is the universe's lowest certifiable one when siblings
rally. -/
private theorem certified_eq_lowest {cr : Crypto} {d : DAG} {A : Store} {set : ValidatorSet}
    (hres : d.Resolves cr N P set) (hrally : d.SiblingsRally set U N P) (hA : U.universe.IsView A)
    (hv : (d.withStore A).directAnchorVerdict cr N = .certified v) :
    d.LowestCertifiable set U N P v := by
  obtain ⟨hcand, hq, hleast⟩ := ((hres.withStore A).certified_iff v).1 hv
  have hcandU : ∀ {c}, A.IsCandidate N P c → U.IsCandidate N P c := by
    rintro c ⟨x, hx, hr, hp, hh⟩
    exact ⟨x, hA.subset x hx, hr, hp, hh⟩
  have hcite : ∀ c p, A.citer (N + 1) c p = true → U.citer (N + 1) c p = true := by
    intro c p hcp
    obtain ⟨x, hx, hrest⟩ := Store.citer_iff.1 hcp
    exact Store.citer_iff.2 ⟨x, hA.subset x hx, hrest⟩
  -- The view's own next-round vertices are one way to choose vertices of the universe.
  have hamong : ∀ c, U.citerAmong (fun x => decide (x ∈ A.vertices)) (N + 1) c =
      A.citer (N + 1) c := by
    intro c
    funext p
    rw [Bool.eq_iff_iff, Store.citerAmong_iff, Store.citer_iff]
    constructor
    · rintro ⟨x, -, hx, hrest⟩
      exact ⟨x, by simpa using hx, hrest⟩
    · rintro ⟨x, hx, hrest⟩
      exact ⟨x, hA.subset x hx, by simpa using hx, hrest⟩
  obtain ⟨m, hm⟩ := (hres.withStore U).exists_certified (hcandU hcand) (hq.mono (hcite v))
  have hlow : d.LowestCertifiable set U N P m := ((hres.withStore U).certified_iff m).1 hm
  have hqm : d.Quorum set (A.citer (N + 1) m) := by
    rw [← hamong]
    exact hrally m hlow v _ (hcandU hcand) (by rw [hamong]; exact hq)
  obtain ⟨k, hk⟩ := hqm.exists_member
  obtain ⟨x, hx, -, -, hcx⟩ := Store.citer_iff.1 hk
  have hmA : A.IsCandidate N P m := by
    obtain ⟨y, hy, hr, hp, rfl⟩ := hlow.1
    exact ⟨y, hA.mem_of_cites hx hy hcx, hr, hp, rfl⟩
  obtain rfl : v = m :=
    le_antisymm (hleast m hmA hqm) (hlow.2.2 v (hcandU hcand) (hq.mono (hcite v)))
  exact hlow

/-- Views of a universe certify one vertex exactly when the citing vertices rally to
the lowest certifiable sibling. -/
theorem uniqueCertification_iff_siblingsRally (cr : Crypto) (d : DAG) (U : Store) (N : Nat)
    (P : Hash) (set : ValidatorSet) (hres : d.Resolves cr N P set) (hclosed : U.Closed)
    (hbelow : U.ParentsBelow) : d.UniqueCertification cr U N ↔ d.SiblingsRally set U N P := by
  constructor
  · intro huniq m hlow w keep hw hq
    have hm : (d.withStore U).directAnchorVerdict cr N = .certified m :=
      ((hres.withStore U).certified_iff m).2 hlow
    have hcite : ∀ c, (U.cutAbove N keep).citer (N + 1) c = U.citerAmong keep (N + 1) c :=
      fun c => funext fun p => U.citer_cutAbove N keep c p
    -- The cut that keeps just the chosen vertices certifies something, so it certifies `m`.
    obtain ⟨b, hb⟩ := (hres.withStore (U.cutAbove N keep)).exists_certified
      (Store.isCandidate_cutAbove.2 hw) (by
        change d.Quorum set ((U.cutAbove N keep).citer (N + 1) w)
        rw [hcite]
        exact hq)
    obtain rfl : m = b := huniq _ _ m b (Store.isView_self hclosed)
      (Store.isView_cutAbove hclosed hbelow N keep) hm hb
    have hqb := (((hres.withStore (U.cutAbove N keep)).certified_iff m).1 hb).2.1
    change d.Quorum set ((U.cutAbove N keep).citer (N + 1) m) at hqb
    rwa [hcite] at hqb
  · intro hrally A B v w hA hB hv hw
    obtain ⟨hcv, hqv, hlv⟩ := certified_eq_lowest hres hrally hA hv
    obtain ⟨hcw, hqw, hlw⟩ := certified_eq_lowest hres hrally hB hw
    exact le_antisymm (hlv w hcw hqw) (hlw v hcv hqv)

theorem uniqueCertification_iff_siblingsRally_committee :
    (committeeDag certifiedStore).UniqueCertification committeeCrypto certifiedStore 0 ↔
      (committeeDag certifiedStore).SiblingsRally committee certifiedStore 0 (idOf 3) :=
  uniqueCertification_iff_siblingsRally committeeCrypto (committeeDag certifiedStore)
    certifiedStore 0 (idOf 3) committee ⟨by decide, by decide +kernel, rfl⟩ (by decide +kernel)
    (by decide +kernel)

end DAG

/-! ## Two siblings certified

The designated member 3 of round 0 makes the vertices 3 and 5. Members 1 and 2 store
both before they produce, member 4 stores only 5, and member 3 cites only 3. -/

def equivocation : Store where
  vertices := memberRoundZero ++ [memberVertex 5 0 3 []] ++
    [memberVertex 11 1 1 [(1, 1), (2, 2), (3, 3), (4, 4), (5, 3)],
      memberVertex 12 1 2 [(1, 1), (2, 2), (3, 3), (4, 4), (5, 3)],
      memberVertex 14 1 4 [(1, 1), (2, 2), (4, 4), (5, 3)],
      memberVertex 13 1 3 [(1, 1), (2, 2), (3, 3), (4, 4)]]
  nodup := by decide

/-- The view without the vertex of member 3, and the one without that of member 4. -/
def siblingView (missing : Byte) : Store :=
  equivocation.restrict fun v => decide (v.hash ≠ idOf missing)

/-- The vertex's parents are what its producer had stored of the previous round. -/
def MadeFromView (d : DAG) (U : Store) (v : Vertex) : Prop :=
  ∃ L, U.universe.IsView L ∧ v.parentHashes = (d.withStore L).collectParents v.round

/-- Two views of one universe, with a byzantine minority and one vertex per honest
member and round, certify different vertices. -/
theorem equivocation_certifies_two :
    let byz : Hash → Bool := fun p => p = idOf 3
    let d := committeeDag equivocation
    d.roundIsRelaxed 0 = false ∧
      NoSaturation d.votingCapMille committee ∧
      ByzantineMinority d.votingCapMille committee byz ∧
      equivocation.universe.HonestUnique byz ∧
      (∀ m ∈ committee.all, byz m.pubkey = false → ∀ r ∈ [0, 1],
        ∃ v ∈ equivocation.vertices, v.producer = m.pubkey ∧ v.round = r) ∧
      (∀ v ∈ equivocation.vertices, byz v.producer = false → MadeFromView d equivocation v) ∧
      equivocation.universe.IsView (siblingView 13) ∧
      equivocation.universe.IsView (siblingView 14) ∧
      (d.withStore (siblingView 13)).directAnchorVerdict committeeCrypto 0 =
        .certified (idOf 5) ∧
      (d.withStore (siblingView 14)).directAnchorVerdict committeeCrypto 0 =
        .certified (idOf 3) := by
  have hmade : ∀ v ∈ equivocation.vertices, decide (v.producer = idOf 3) = false →
      let L := equivocation.restrict fun w => decide (w.hash ∈ v.parentHashes)
      equivocation.universe.IsView L ∧
        v.parentHashes = ((committeeDag equivocation).withStore L).collectParents v.round := by
    decide +kernel
  exact ⟨by decide, by decide +kernel, by decide +kernel, by decide +kernel,
    by decide +kernel, fun v hv hhon => ⟨_, hmade v hv hhon⟩, by decide +kernel,
    by decide +kernel, by decide +kernel, by decide +kernel⟩

end BluePods
