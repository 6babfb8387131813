import BluePods.Certification
import BluePods.FarAnchor

/-! How long a round stays ruled out by blame. The vertices that blame are fixed, but a
producer stops blaming when a second vertex of its own cites a candidate, and a round
whose designated producer falls silent is ruled out on silence instead. What lasts is
the blame of producers no vertex of the universe turns. -/

namespace BluePods

variable {P p : Hash} {U : Store} {v : Vertex}
open Lib.Quorum Lib.MultiMap

namespace Store

variable {s : Store}

/-- `p` has a vertex of the next round that cites some vertex of `P` at the round. -/
def candidateCiter (s : Store) (round : Nat) (P p : Hash) : Bool :=
  s.vertices.any fun x => decide (x.round = round + 1 ∧ x.producer = p) &&
    x.parentHashes.any fun h => decide (h ∈ s.getByRoundProducer round P)

theorem candidateCiter_iff {round : Nat} :
    s.candidateCiter round P p = true ↔
      ∃ x ∈ s.vertices, x.round = round + 1 ∧ x.producer = p ∧
        ∃ c ∈ x.parentHashes, s.IsCandidate round P c := by
  simp [candidateCiter, mem_getByRoundProducer, IsCandidate, and_assoc]

theorem le_highestRound_iff {n : Nat} (hn : 0 < n) :
    n ≤ s.highestRound ↔ ∃ v ∈ s.vertices, n ≤ v.round := by
  constructor
  · suffices ∀ (l : List Nat) (b : Nat), b < n → n ≤ l.foldl max b → ∃ x ∈ l, n ≤ x by
      intro h
      obtain ⟨x, hx, hle⟩ := this _ 0 hn h
      obtain ⟨v, hv, rfl⟩ := List.mem_map.1 hx
      exact ⟨v, hv, hle⟩
    intro l
    induction l with
    | nil =>
      intro b hb h
      exact absurd h (Nat.not_le.2 hb)
    | cons y ys ih =>
      intro b hb h
      by_cases hy : n ≤ y
      · exact ⟨y, List.mem_cons_self, hy⟩
      · obtain ⟨x, hx, hle⟩ := ih (max b y) (by omega) h
        exact ⟨x, List.mem_cons_of_mem _ hx, hle⟩
  · rintro ⟨v, hv, hle⟩
    exact le_trans hle (le_highestRound hv)

theorem producersInRange_iff {start stop : Nat} :
    s.producersInRange start stop p = true ↔
      ∃ v ∈ s.vertices, start ≤ v.round ∧ v.round ≤ stop ∧ v.producer = p := by
  simp only [producersInRange, List.any_eq_true, List.mem_range, mem_getByRound,
    decide_eq_true_eq]
  constructor
  · rintro ⟨i, hi, h, ⟨v, hv, hr, rfl⟩, hp⟩
    rw [← hr, producerAt_of_mem hv] at hp
    exact ⟨v, hv, by omega, by omega, hp⟩
  · rintro ⟨v, hv, hlo, hhi, rfl⟩
    have hr : start + (v.round - start) = v.round := by omega
    refine ⟨v.round - start, by omega, v.hash, ⟨v, hv, hr.symm, rfl⟩, ?_⟩
    rw [hr, producerAt_of_mem hv]

/-- `P` has no stored vertex from the round up to the end of the silence span. -/
def Unheard (s : Store) (round : Nat) (P : Hash) : Prop :=
  ∀ v ∈ s.vertices, v.producer = P → round ≤ v.round →
    round + 1 + anchorSilenceSpanRounds < v.round

end Store

/-- A view that holds a vertex holds its whole history. -/
theorem Universe.IsView.mem_of_ancestor {B : Store} (hB : U.universe.IsView B) {x : Vertex}
    (hx : x ∈ B.vertices) (hv : v ∈ U.vertices) (h : U.Ancestor x.hash v.hash) :
    v ∈ B.vertices := by
  suffices ∀ b, U.Ancestor x.hash b → ∃ w ∈ B.vertices, w.hash = b by
    obtain ⟨w, hw, hwh⟩ := this v.hash h
    rwa [← U.universe.unique w v (hB.subset w hw) hv hwh]
  intro b hb
  induction hb with
  | refl => exact ⟨x, hx, rfl⟩
  | tail _ hcite ih =>
    obtain ⟨w, hw, rfl⟩ := ih
    obtain ⟨y, hy, hyh, hmem⟩ := hcite
    rw [U.universe.unique y w hy (hB.subset w hw) hyh] at hmem
    exact hB.closed w hw _ hmem

namespace DAG

variable {cr : Crypto} {d : DAG} {N : Nat} {set : ValidatorSet} {A : Store}

/-! ## The impossibility test, read off the store -/

/-- The designated producer counts as dead when it is a holder, was not heard over the
whole span, and something is stored at the span's end. -/
theorem Resolves.dead_iff (hres : d.Resolves cr N P set) :
    d.deadDesignatedProducer cr N = true ↔
      d.store.Unheard N P ∧ (∃ m ∈ set.all, m.pubkey = P) ∧
        ∃ x ∈ d.store.vertices, N + 1 + anchorSilenceSpanRounds ≤ x.round := by
  have hempty : (d.designatedVertexSet N P).isEmpty = true ↔
      ∀ c, ¬ d.store.IsCandidate N P c := by
    rw [List.isEmpty_iff, List.eq_nil_iff_forall_not_mem]
    exact forall_congr' fun c => not_congr (mem_designatedVertexSet d N P c)
  have hsilent : P ∈ d.silentHolders set (N + 1) ↔
      N + 1 + anchorSilenceSpanRounds ≤ d.store.highestRound ∧
        (∃ m ∈ set.all, m.pubkey = P) ∧ ∀ v ∈ d.store.vertices, v.producer = P →
          N + 1 ≤ v.round → N + 1 + anchorSilenceSpanRounds < v.round := by
    simp only [silentHolders]
    split
    · rename_i hlt
      simp only [List.not_mem_nil, false_iff, not_and]
      intro hle
      omega
    · rename_i hge
      simp only [List.mem_map, List.mem_filter, Bool.not_eq_true', Bool.eq_false_iff, Ne,
        Store.producersInRange_iff]
      constructor
      · rintro ⟨m, ⟨hm, hno⟩, rfl⟩
        refine ⟨by omega, ⟨m, hm, rfl⟩, fun v hv hp hlo => ?_⟩
        by_contra hhi
        exact hno ⟨v, hv, hlo, by omega, hp⟩
      · rintro ⟨-, ⟨m, hm, rfl⟩, hno⟩
        refine ⟨m, ⟨hm, ?_⟩, rfl⟩
        rintro ⟨v, hv, hlo, hhi, hp⟩
        have := hno v hv hp hlo
        omega
  have hdead : d.deadDesignatedProducer cr N = true ↔
      (d.designatedVertexSet N P).isEmpty = true ∧ P ∈ d.silentHolders set (N + 1) := by
    simp only [deadDesignatedProducer, hres.producer, hres.holders]
    split <;> simp_all
  rw [hdead, hempty, hsilent, Store.le_highestRound_iff (by omega)]
  constructor
  · rintro ⟨hcand, hdeep, hmem, hspan⟩
    refine ⟨fun v hv hp hlo => ?_, hmem, hdeep⟩
    rcases Nat.eq_or_lt_of_le hlo with heq | hlt
    · exact absurd ⟨v, hv, heq.symm, hp, rfl⟩ (hcand v.hash)
    · exact hspan v hv hp hlt
  · rintro ⟨hun, hmem, hdeep⟩
    refine ⟨?_, hdeep, hmem, fun v hv hp hlo => hun v hv hp (by omega)⟩
    rintro c ⟨v, hv, hr, hp, -⟩
    have := hun v hv hp (by omega)
    omega

/-- Ruled out by blame: the producer is not dead, and the blamers leave no quorum. -/
theorem Resolves.certImpossibility_iff (hres : d.Resolves cr N P set) :
    d.certImpossibility cr N = (true, true) ↔
      d.deadDesignatedProducer cr N = false ∧
        d.certificationRuledOut set (d.tallyCitations N P).blamers = true := by
  simp only [certImpossibility, hres.strict, hres.producer, hres.holders]
  cases d.deadDesignatedProducer cr N with
  | true => simp
  | false =>
    cases d.certificationRuledOut set (d.tallyCitations N P).blamers with
    | true => simp
    | false =>
      simp only [Bool.false_eq_true, if_false, and_false, iff_false]
      split
      · simp
      · split <;> simp

theorem certificationRuledOut_mono (hsat : NoSaturation d.votingCapMille set) {l l' : List Hash}
    (hsub : ∀ p ∈ l, p ∈ l') (h : d.certificationRuledOut set l = true) :
    d.certificationRuledOut set l' = true := by
  rw [certificationRuledOut_iff hsat] at h ⊢
  have hle := stakeOf_mono d.votingCapMille set
    (fun p (hp : decide (p ∈ l) = true) => decide_eq_true (hsub p (of_decide_eq_true hp)))
  omega

/-- Blamers that leave no quorum exclude a certificate: nobody both cites and blames. -/
theorem Resolves.not_certified_of_ruledOut (hres : d.Resolves cr N P set)
    (hsat : NoSaturation d.votingCapMille set)
    (h : d.certificationRuledOut set (d.tallyCitations N P).blamers = true) (v : Hash) :
    d.directAnchorVerdict cr N ≠ .certified v := by
  intro hv
  obtain ⟨hcand, hq, -⟩ := (hres.certified_iff v).1 hv
  have hsup := ((quorum_iff hsat _).1 hq).2
  have hout := ((certificationRuledOut_iff hsat _).1 h).2
  have hshare := stakeOf_add_le_inter d.votingCapMille set (d.store.citer (N + 1) v)
    fun p => decide (p ∈ (d.tallyCitations N P).blamers)
  obtain ⟨p, hp⟩ := @exists_of_stakeOf_pos d.votingCapMille set
    (fun p => d.store.citer (N + 1) v p && decide (p ∈ (d.tallyCitations N P).blamers))
    (by omega)
  rw [Bool.and_eq_true, decide_eq_true_eq, mem_blamers] at hp
  obtain ⟨hcite, -, hnone⟩ := hp
  obtain ⟨x, hx, hr, hpx, hmem⟩ := Store.citer_iff.1 hcite
  exact hnone x hx hr hpx v hcand hmem

/-! ## Blame that lasts -/

/-- The blamers of a view that no vertex of the universe shows citing a candidate. -/
def steadfastBlamers (d : DAG) (U A : Store) (N : Nat) (P : Hash) : List Hash :=
  ((d.withStore A).tallyCitations N P).blamers.filter fun p => !U.candidateCiter N P p

theorem mem_steadfastBlamers :
    p ∈ d.steadfastBlamers U A N P ↔ A.Blamer N P p ∧ U.candidateCiter N P p = false := by
  rw [steadfastBlamers, List.mem_filter, mem_blamers, Bool.not_eq_true']
  rfl

/-- Some vertex at the end of the silence span has a history that, like the view, never
heard the designated holder. -/
def FallsSilent (set : ValidatorSet) (U A : Store) (N : Nat) (P : Hash) : Prop :=
  (∃ m ∈ set.all, m.pubkey = P) ∧ A.Unheard N P ∧
    ∃ x ∈ U.vertices, N + 1 + anchorSilenceSpanRounds ≤ x.round ∧
      ∀ v ∈ U.vertices, U.Ancestor x.hash v.hash → v.producer = P → N ≤ v.round →
        N + 1 + anchorSilenceSpanRounds < v.round

/-- Every view that extends `A` still rules the round out by blame and does not certify
it. -/
def BlameImmutable (cr : Crypto) (d : DAG) (U A : Store) (N : Nat) : Prop :=
  ∀ B, U.universe.IsView B → (∀ v ∈ A.vertices, v ∈ B.vertices) →
    (d.withStore B).certImpossibility cr N = (true, true) ∧
      ∀ v, (d.withStore B).directAnchorVerdict cr N ≠ .certified v

/-- A steadfast blamer blames in every extension. -/
theorem blamer_of_steadfast {B : Store} (hB : U.universe.IsView B)
    (hAB : ∀ v ∈ A.vertices, v ∈ B.vertices) (h : p ∈ d.steadfastBlamers U A N P) :
    B.Blamer N P p := by
  obtain ⟨⟨⟨x, hx, hr, hp⟩, -⟩, hno⟩ := mem_steadfastBlamers.1 h
  refine ⟨⟨x, hAB x hx, hr, hp⟩, ?_⟩
  rintro y hy hyr hyp c ⟨w, hw, hwr, hwp, rfl⟩ hcite
  refine (Bool.eq_false_iff.1 hno) (Store.candidateCiter_iff.2 ?_)
  exact ⟨y, hB.subset y hy, hyr, hyp, w.hash, hcite, w, hB.subset w hw, hwr, hwp, rfl⟩

/-- The extension that costs a view the most blame: everything up to the round, and the
next-round vertices of the universe that cite a candidate. -/
def turnedView (U A : Store) (N : Nat) (P : Hash) : Store :=
  U.restrict fun v => decide (v ∈ A.vertices) || decide (v.round ≤ N) ||
    decide (v.round = N + 1) && v.parentHashes.any fun h => decide (h ∈ U.getByRoundProducer N P)

theorem mem_turnedView :
    v ∈ (turnedView U A N P).vertices ↔ v ∈ U.vertices ∧ (v ∈ A.vertices ∨ v.round ≤ N ∨
      v.round = N + 1 ∧ ∃ c ∈ v.parentHashes, U.IsCandidate N P c) := by
  rw [turnedView, Store.mem_restrict]
  simp [Store.mem_getByRoundProducer, Store.IsCandidate, or_assoc]

theorem isView_turnedView (hclosed : U.Closed) (hbelow : U.ParentsBelow) (hA : U.universe.IsView A)
    (N : Nat) (P : Hash) :
    U.universe.IsView (turnedView U A N P) where
  subset v hv := (mem_turnedView.1 hv).1
  closed v hv p hp := by
    obtain ⟨hvU, hkeep⟩ := mem_turnedView.1 hv
    by_cases hvA : v ∈ A.vertices
    · obtain ⟨w, hw, rfl⟩ := hA.closed v hvA p hp
      exact ⟨w, mem_turnedView.2 ⟨hA.subset w hw, .inl hw⟩, rfl⟩
    · obtain ⟨w, hw, rfl⟩ := hclosed v hvU p hp
      have hlt := hbelow v hvU w hw hp
      have hround : v.round ≤ N + 1 := by
        rcases hkeep with h | h | ⟨h, -⟩
        · exact absurd h hvA
        · omega
        · omega
      exact ⟨w, mem_turnedView.2 ⟨hw, .inr (.inl (by omega))⟩, rfl⟩

theorem steadfast_of_turnedView (h : (turnedView U A N P).Blamer N P p) (hA : U.universe.IsView A) :
    p ∈ d.steadfastBlamers U A N P := by
  obtain ⟨⟨x, hx, hr, hp⟩, hnone⟩ := h
  have hcand : ∀ c, U.IsCandidate N P c → (turnedView U A N P).IsCandidate N P c := by
    rintro c ⟨w, hw, hwr, hwp, rfl⟩
    exact ⟨w, mem_turnedView.2 ⟨hw, .inr (.inl (by omega))⟩, hwr, hwp, rfl⟩
  have hno : ∀ y ∈ U.vertices, y.round = N + 1 → y.producer = p →
      ∀ c ∈ y.parentHashes, ¬ U.IsCandidate N P c := by
    intro y hy hyr hyp c hc hcc
    have hmem : y ∈ (turnedView U A N P).vertices :=
      mem_turnedView.2 ⟨hy, .inr (.inr ⟨hyr, c, hc, hcc⟩)⟩
    exact hnone y hmem hyr hyp c (hcand c hcc) hc
  rw [mem_steadfastBlamers, Bool.eq_false_iff, Ne, Store.candidateCiter_iff]
  refine ⟨⟨?_, ?_⟩, ?_⟩
  · obtain ⟨hxU, hxA | hlow | ⟨-, c, hc, hcc⟩⟩ := mem_turnedView.1 hx
    · exact ⟨x, hxA, hr, hp⟩
    · omega
    · exact absurd hcc (hno x hxU hr hp c hc)
  · rintro y hy hyr hyp c ⟨w, hw, hwr, hwp, rfl⟩ hcite
    exact hno y (hA.subset y hy) hyr hyp w.hash hcite ⟨w, hA.subset w hw, hwr, hwp, rfl⟩
  · rintro ⟨y, hy, hyr, hyp, c, hc, hcc⟩
    exact hno y hy hyr hyp c hc hcc

/-- A view together with the history of one vertex. -/
noncomputable def withHistory (U A : Store) (x : Hash) : Store :=
  U.restrict fun v => @decide (v ∈ A.vertices ∨ U.Ancestor x v.hash) (Classical.propDecidable _)

theorem mem_withHistory {x : Hash} :
    v ∈ (withHistory U A x).vertices ↔ v ∈ U.vertices ∧ (v ∈ A.vertices ∨ U.Ancestor x v.hash) := by
  rw [withHistory, Store.mem_restrict]
  exact and_congr_right fun _ => @decide_eq_true_iff _ (Classical.propDecidable _)

theorem isView_withHistory (hclosed : U.Closed) (hA : U.universe.IsView A) (x : Hash) :
    U.universe.IsView (withHistory U A x) where
  subset v hv := (mem_withHistory.1 hv).1
  closed v hv p hp := by
    obtain ⟨hvU, hvA | hanc⟩ := mem_withHistory.1 hv
    · obtain ⟨w, hw, rfl⟩ := hA.closed v hvA p hp
      exact ⟨w, mem_withHistory.2 ⟨hA.subset w hw, .inl hw⟩, rfl⟩
    · obtain ⟨w, hw, rfl⟩ := hclosed v hvU p hp
      exact ⟨w, mem_withHistory.2 ⟨hw, .inr (hanc.cite hvU hp)⟩, rfl⟩

/-- A round ruled out by blame in a view stays so, and uncertified, in every extension
exactly when the steadfast blamers alone rule it out and the designated producer cannot
fall silent. -/
theorem blameImmutable_iff_steadfast (cr : Crypto) (d : DAG) (U A : Store) (N : Nat) (P : Hash)
    (set : ValidatorSet) (hres : d.Resolves cr N P set) (hsat : NoSaturation d.votingCapMille set)
    (hclosed : U.Closed) (hbelow : U.ParentsBelow) (hA : U.universe.IsView A) :
    d.BlameImmutable cr U A N ↔
      d.certificationRuledOut set (d.steadfastBlamers U A N P) = true ∧
        ¬ FallsSilent set U A N P := by
  constructor
  · intro himm
    constructor
    · obtain ⟨himp, -⟩ := himm _ (isView_turnedView hclosed hbelow hA N P)
        fun v hv => mem_turnedView.2 ⟨hA.subset v hv, .inl hv⟩
      obtain ⟨-, hruled⟩ := ((hres.withStore _).certImpossibility_iff).1 himp
      refine certificationRuledOut_mono hsat (fun p hp => ?_) hruled
      exact steadfast_of_turnedView ((mem_blamers _ N P p).1 hp) hA
    · rintro ⟨hmem, hunheard, x, hx, hdeep, hhist⟩
      obtain ⟨himp, -⟩ := himm _ (isView_withHistory hclosed hA x.hash)
        fun v hv => mem_withHistory.2 ⟨hA.subset v hv, .inl hv⟩
      obtain ⟨halive, -⟩ := ((hres.withStore _).certImpossibility_iff).1 himp
      refine Bool.eq_false_iff.1 halive (((hres.withStore _).dead_iff).2 ⟨?_, hmem, x, ?_, hdeep⟩)
      · intro v hv hp hlo
        obtain ⟨hvU, hvA | hanc⟩ := mem_withHistory.1 hv
        · exact hunheard v hvA hp hlo
        · exact hhist v hvU hanc hp hlo
      · exact mem_withHistory.2 ⟨hx, .inr .refl⟩
  · rintro ⟨hruled, hheard⟩ B hB hAB
    have hblame : (d.withStore B).certificationRuledOut set
        ((d.withStore B).tallyCitations N P).blamers = true :=
      certificationRuledOut_mono hsat
        (fun p hp => (mem_blamers _ N P p).2 (blamer_of_steadfast hB hAB hp)) hruled
    refine ⟨((hres.withStore B).certImpossibility_iff).2 ⟨?_, hblame⟩,
      (hres.withStore B).not_certified_of_ruledOut hsat hblame⟩
    rw [Bool.eq_false_iff, Ne, (hres.withStore B).dead_iff]
    rintro ⟨hunheard, hmem, x, hx, hdeep⟩
    refine hheard ⟨hmem, fun v hv => hunheard v (hAB v hv), x, hB.subset x hx, hdeep, ?_⟩
    intro v hv hanc hp hlo
    exact hunheard v (hB.mem_of_ancestor hx hv hanc) hp hlo

end DAG

/-- Members 1 and 2 make their round-1 vertices without vertex 3, the other two cite it. -/
def blamedRound : Store where
  vertices := memberRoundZero ++
    [memberVertex 11 1 1 [(1, 1), (2, 2), (4, 4)], memberVertex 12 1 2 [(1, 1), (2, 2), (4, 4)],
      memberVertex 13 1 3 [(1, 1), (2, 2), (3, 3)], memberVertex 14 1 4 [(1, 1), (2, 2), (3, 3)]]
  nodup := by decide

theorem blameImmutable_iff_steadfast_committee :
    (committeeDag blamedRound).certImpossibility committeeCrypto 0 = (true, true) ∧
      (committeeDag blamedRound).BlameImmutable committeeCrypto blamedRound blamedRound 0 := by
  refine ⟨by decide +kernel, (DAG.blameImmutable_iff_steadfast committeeCrypto
    (committeeDag blamedRound) blamedRound blamedRound 0 (idOf 3) committee
    ⟨by decide, by decide +kernel, rfl⟩ (by decide +kernel) (by decide +kernel)
    (by decide +kernel) (by decide +kernel)).2 ⟨by decide +kernel, ?_⟩⟩
  rintro ⟨-, hunheard, -⟩
  have h := hunheard (memberVertex 3 0 3 []) (by decide +kernel) rfl (by decide)
  exact absurd h (by decide)

/-! ## Blame withdrawn

Member 4 blames round 0 with one vertex and cites vertex 3 with another. And when
member 3 makes no vertex at all, blame gives way to silence once the span is stored. -/

def turncoat : Store where
  vertices := memberRoundZero ++
    [memberVertex 11 1 1 [(1, 1), (2, 2), (4, 4)], memberVertex 14 1 4 [(1, 1), (2, 2), (4, 4)],
      memberVertex 12 1 2 [(1, 1), (2, 2), (3, 3)], memberVertex 13 1 3 [(1, 1), (2, 2), (3, 3)],
      memberVertex 15 1 4 [(1, 1), (2, 2), (3, 3)]]
  nodup := by decide

/-- The view before the second vertex of member 4 and those of members 2 and 3. -/
def beforeTurn : Store where
  vertices := memberRoundZero ++
    [memberVertex 11 1 1 [(1, 1), (2, 2), (4, 4)], memberVertex 14 1 4 [(1, 1), (2, 2), (4, 4)]]
  nodup := by decide

/-- Rounds 0 and 1 without member 3. -/
def absentAnchor : List Vertex :=
  [1, 2, 4].map (fun n => memberVertex n 0 n []) ++
    [1, 2, 4].map fun n => memberVertex (10 + n) 1 n [(1, 1), (2, 2), (4, 4)]

/-- A chain of member 1 through the silence span. -/
def silentSpan : Store where
  vertices := absentAnchor ++ memberVertex 22 2 1 [(11, 1), (12, 2), (14, 4)] ::
    (List.range 19).map fun i =>
      memberVertex (Fin.ofNat 256 (23 + i)) (i + 3) 1 [(Fin.ofNat 256 (22 + i), 1)]
  nodup := by decide +kernel

def beforeSpan : Store where
  vertices := absentAnchor
  nodup := by decide

/-- With a byzantine minority, a round ruled out by blame is certified in one extension,
and ruled out by silence alone in another. -/
theorem blame_withdrawn :
    let byz : Hash → Bool := fun p => p = idOf 4
    let d := committeeDag turncoat
    d.roundIsRelaxed 0 = false ∧ NoSaturation d.votingCapMille committee ∧
      ByzantineMinority d.votingCapMille committee byz ∧
      turncoat.universe.HonestUnique byz ∧ turncoat.universe.IsView beforeTurn ∧
      turncoat.universe.IsView turncoat ∧
      (d.withStore beforeTurn).certImpossibility committeeCrypto 0 = (true, true) ∧
      d.certImpossibility committeeCrypto 0 ≠ (true, true) ∧
      d.directAnchorVerdict committeeCrypto 0 = .certified (idOf 3) ∧
      silentSpan.universe.HonestUnique byz ∧ silentSpan.universe.IsView beforeSpan ∧
      silentSpan.universe.IsView silentSpan ∧
      (d.withStore beforeSpan).certImpossibility committeeCrypto 0 = (true, true) ∧
      (d.withStore silentSpan).certImpossibility committeeCrypto 0 = (true, false) := by
  decide +kernel

end BluePods
