import BluePods.FarAnchor

/-! When two views decide a strict round alike. A view decides a round by a quorum that
cites a vertex of its designated producer or by one that cites none, and otherwise through
the first vertex further up that a quorum cites, by what its history holds. Two views part
when quorums cite two siblings, or when such a later vertex decides against a quorum of the
other view or against the later vertex of the other view. -/

namespace BluePods

variable {cr : Crypto} {d : DAG} {N : Nat} {u : Vertex} {A B : Store} {P : Hash}
  {set : ValidatorSet} {U : Universe}
open Lib.Quorum Lib.Walk Lib.Sorted

namespace DAG

/-! ## How a round is decided -/

/-- `c` is the lowest vertex of the round's designated producer that a quorum of the next
round cites. -/
def Cited (cr : Crypto) (d : DAG) (r : Nat) (c : Hash) : Prop :=
  ∃ P set, d.Resolves cr r P set ∧ d.store.IsCandidate r P c ∧
    d.Quorum set (d.store.citer (r + 1) c) ∧
    ∀ w, d.store.IsCandidate r P w → d.Quorum set (d.store.citer (r + 1) w) → c ≤ w

/-- No vertex of the round's designated producer is cited by a quorum, and the producers
that cite none are one. -/
def Blamed (cr : Crypto) (d : DAG) (r : Nat) : Prop :=
  ∃ P set, d.Resolves cr r P set ∧
    (∀ w, d.store.IsCandidate r P w → ¬ d.Quorum set (d.store.citer (r + 1) w)) ∧
    d.Quorum set (d.blamerSet r P)

/-- The search from round `N` goes past round `r`: nothing there is cited by a quorum, and
it is blamed or can no longer certify. -/
def Passes (cr : Crypto) (d : DAG) (N r : Nat) : Prop :=
  (∀ c, ¬ d.Cited cr r c) ∧ (d.Blamed cr r ∨ d.scanPastUndecided cr N r = true)

/-- Round `N` is neither certified nor blamed, and `u` of round `r` is the first vertex
further up that a quorum cites. -/
structure Pivot (cr : Crypto) (d : DAG) (N r : Nat) (u : Hash) : Prop where
  above : N < r
  uncited : ∀ c, ¬ d.Cited cr N c
  unblamed : ¬ d.Blamed cr N
  passed : ∀ r', N < r' → r' < r → d.Passes cr N r'
  cited : d.Cited cr r u

/-- `c` is the lowest vertex of the round's designated producer in the uncommitted history
of `u`. -/
def Carries (d : DAG) (N : Nat) (P u c : Hash) : Prop :=
  d.store.IsCandidate N P c ∧ d.store.InHistory u c ∧
    ∀ c', d.store.IsCandidate N P c' → d.store.InHistory u c' → c ≤ c'

theorem certified_iff_cited {r : Nat} {c : Hash} (hstrict : d.roundIsRelaxed r = false) :
    d.directAnchorVerdict cr r = .certified c ↔ d.Cited cr r c := by
  constructor
  · intro h
    obtain ⟨P, set, hres⟩ := exists_resolves hstrict (by rw [h]; simp)
    exact ⟨P, set, hres, (hres.certified_iff c).1 h⟩
  · rintro ⟨P, set, hres, h⟩
    exact (hres.certified_iff c).2 h

theorem blamed_iff_blamed {r : Nat} (hstrict : d.roundIsRelaxed r = false) :
    d.directAnchorVerdict cr r = .blamed ↔ d.Blamed cr r := by
  constructor
  · intro h
    obtain ⟨P, set, hres⟩ := exists_resolves hstrict (by rw [h]; simp)
    exact ⟨P, set, hres, hres.blamed_iff.1 h⟩
  · rintro ⟨P, set, hres, h⟩
    exact hres.blamed_iff.2 h

/-- A round that the search may pass has a designated producer and a stake set. -/
theorem verdict_ne_wait_of_scanPast {r : Nat} (h : d.scanPastUndecided cr N r = true) :
    d.directAnchorVerdict cr r ≠ .wait := by
  intro hwait
  have hnone : d.anchorProducerFor cr r = none ∨
      d.holdersForEpoch (d.commitEpochForRound (r + 1)) = none := by
    unfold directAnchorVerdict at hwait
    split at hwait
    · exact .inl ‹_›
    · split at hwait
      · exact .inr ‹_›
      · unfold verdictFromTally at hwait
        split at hwait
        · simp at hwait
        · split at hwait <;> simp at hwait
  have himp : d.certImpossibility cr r = (false, false) := by
    unfold certImpossibility deadDesignatedProducer
    rcases hnone with hnone | hnone
    · simp [hnone]
    · cases d.anchorProducerFor cr r <;> simp [hnone]
  simp [scanPastUndecided, himp] at h

/-- The search above the queried round decides only through the first cited vertex. -/
private theorem anchorScan_later (hstrict : d.roundIsRelaxed N = false) :
    ∀ n r, N < r → d.anchorScan cr N n r ≠ .wait →
      ∃ r' u, r ≤ r' ∧ d.Cited cr r' u ∧ (∀ q, r ≤ q → q < r' → d.Passes cr N q) ∧
        d.anchorScan cr N n r = d.resolveIndirect cr N u := by
  intro n
  induction n with
  | zero => intro r _ h; simp [anchorScan] at h
  | succ n ih =>
    intro r hr h
    have hne : r ≠ N := by omega
    have hsr := roundIsRelaxed_mono hr.le hstrict
    -- A round that is passed comes before what the rest of the search finds.
    have hpast : d.Passes cr N r → d.anchorScan cr N n (r + 1) ≠ .wait →
        ∃ r' u, r ≤ r' ∧ d.Cited cr r' u ∧ (∀ q, r ≤ q → q < r' → d.Passes cr N q) ∧
          d.anchorScan cr N n (r + 1) = d.resolveIndirect cr N u := by
      intro hpass h
      obtain ⟨r', u, hle, hu, hbetween, heq⟩ := ih (r + 1) (by omega) h
      refine ⟨r', u, by omega, hu, fun q hq hlt => ?_, heq⟩
      rcases Nat.eq_or_lt_of_le hq with rfl | hq
      · exact hpass
      · exact hbetween q hq hlt
    have hnot : ∀ v, d.directAnchorVerdict cr r = v → (∀ c, v ≠ .certified c) →
        ∀ c, ¬ d.Cited cr r c :=
      fun v hv hvc c hc => hvc c (hv.symm.trans ((certified_iff_cited hsr).2 hc))
    rw [anchorScan] at h ⊢
    cases hv : d.directAnchorVerdict cr r with
    | wait => simp [hv] at h
    | certified u =>
      exact ⟨r, u, le_rfl, (certified_iff_cited hsr).1 hv, fun q hq hlt => by omega, by simp [hne]⟩
    | blamed =>
      simp only [hv, hne, if_false] at h ⊢
      exact hpast ⟨hnot _ hv (by simp), .inl ((blamed_iff_blamed hsr).1 hv)⟩ h
    | undecided =>
      simp only [hv, hne, if_false] at h ⊢
      split at h
      · rename_i hpass
        rw [if_pos hpass]
        exact hpast ⟨hnot _ hv (by simp), .inr hpass⟩ h
      · simp at h

/-- The search goes on to the first cited vertex. -/
private theorem anchorScan_of_cited (hstrict : d.roundIsRelaxed N = false) {r : Nat} {u : Hash}
    (hu : d.Cited cr r u) :
    ∀ n q, N < q → q ≤ r → r < q + n → (∀ r', q ≤ r' → r' < r → d.Passes cr N r') →
      d.anchorScan cr N n q = d.resolveIndirect cr N u := by
  intro n
  induction n with
  | zero => intro q _ hle hlt; omega
  | succ n ih =>
    intro q hq hle hlt hbetween
    have hne : q ≠ N := by omega
    have hsq := roundIsRelaxed_mono hq.le hstrict
    rw [anchorScan]
    rcases Nat.eq_or_lt_of_le hle with rfl | hqr
    · simp [(certified_iff_cited hsq).2 hu, hne]
    · obtain ⟨huncited, hpass⟩ := hbetween q le_rfl hqr
      have hrest := ih (q + 1) (by omega) hqr (by omega)
        fun r' hr' => hbetween r' (by omega)
      cases hv : d.directAnchorVerdict cr q with
      | certified c => exact absurd ((certified_iff_cited hsq).1 hv) (huncited c)
      | blamed => simpa [hne] using hrest
      | undecided =>
        rcases hpass with hb | hs
        · simp [(blamed_iff_blamed hsq).2 hb] at hv
        · simpa [hne, hs] using hrest
      | wait =>
        rcases hpass with hb | hs
        · simp [(blamed_iff_blamed hsq).2 hb] at hv
        · exact absurd hv (verdict_ne_wait_of_scanPast hs)

theorem Cited.exists_mem {r : Nat} {u : Hash} (h : d.Cited cr r u) :
    ∃ x ∈ d.store.vertices, x.round = r ∧ x.hash = u := by
  obtain ⟨-, -, -, ⟨x, hx, hr, -, hh⟩, -⟩ := h
  exact ⟨x, hx, hr, hh⟩

theorem Cited.le_highestRound {r : Nat} {u : Hash} (h : d.Cited cr r u) :
    r ≤ d.store.highestRound := by
  obtain ⟨x, hx, rfl, -⟩ := h.exists_mem
  exact Store.le_highestRound hx

/-- The search of a round that is stored starts at this round. -/
theorem anchorStatus_eq (h : N ≤ d.store.highestRound) :
    d.anchorStatus cr N = d.anchorScan cr N (d.store.highestRound - N + 1) N := by
  rw [anchorStatus, Nat.sub_add_comm h]

theorem Resolves.anchorStatus_of_cited (hres : d.Resolves cr N P set) {c : Hash}
    (h : d.Cited cr N c) : d.anchorStatus cr N = .commit c := by
  simp [anchorStatus_eq h.le_highestRound, anchorScan, (certified_iff_cited hres.strict).2 h]

theorem Resolves.anchorStatus_of_blamed (hres : d.Resolves cr N P set)
    (h : d.Blamed cr N) : d.anchorStatus cr N = .skip := by
  have hstored : N ≤ d.store.highestRound := by
    obtain ⟨P', set', -, -, hq⟩ := h
    obtain ⟨p, hp⟩ := hq.exists_member
    obtain ⟨⟨x, hx, hr, -⟩, -⟩ := (blamerSet_iff _ _ _ _).1 hp
    have hle := Store.le_highestRound hx
    omega
  simp [anchorStatus_eq hstored, anchorScan, (blamed_iff_blamed hres.strict).2 h]

theorem Resolves.anchorStatus_of_pivot (hres : d.Resolves cr N P set) {r : Nat} {u : Hash}
    (h : d.Pivot cr N r u) : d.anchorStatus cr N = d.resolveIndirect cr N u := by
  have hle := h.cited.le_highestRound
  have habove := h.above
  have hlater := anchorScan_of_cited hres.strict h.cited (d.store.highestRound - N) (N + 1)
    (by omega) habove (by omega) fun r' hr' => h.passed r' (by omega)
  rw [anchorStatus_eq (by omega), anchorScan]
  cases hv : d.directAnchorVerdict cr N with
  | certified c => exact absurd ((certified_iff_cited hres.strict).1 hv) (h.uncited c)
  | blamed => exact absurd ((blamed_iff_blamed hres.strict).1 hv) h.unblamed
  | undecided => simpa using hlater
  | wait =>
    rw [hres.verdict_eq, verdictFromTally] at hv
    split at hv
    · simp at hv
    · split at hv <;> simp at hv

/-- A decided round is certified, blamed, or decided through its pivot. -/
theorem Resolves.anchorStatus_cases (hres : d.Resolves cr N P set)
    (h : d.anchorStatus cr N ≠ .wait) :
    (∃ c, d.Cited cr N c) ∨ d.Blamed cr N ∨ ∃ r u, d.Pivot cr N r u := by
  by_cases hcited : ∃ c, d.Cited cr N c
  · exact .inl hcited
  by_cases hblamed : d.Blamed cr N
  · exact .inr (.inl hblamed)
  push Not at hcited
  unfold anchorStatus at h
  generalize d.store.highestRound + 1 - N = n at h
  cases n with
  | zero => simp [anchorScan] at h
  | succ n =>
    rw [anchorScan] at h
    cases hv : d.directAnchorVerdict cr N with
    | wait => simp [hv] at h
    | certified c => exact absurd ((certified_iff_cited hres.strict).1 hv) (hcited c)
    | blamed => exact absurd ((blamed_iff_blamed hres.strict).1 hv) hblamed
    | undecided =>
      simp only [hv, if_true] at h
      obtain ⟨r, u, hle, hu, hbetween, -⟩ :=
        anchorScan_later hres.strict n (N + 1) (by omega) h
      exact .inr (.inr ⟨r, u, hle, hcited, hblamed, fun q hq => hbetween q hq, hu⟩)

/-- What a later vertex decides of a strict round on a closed store: the vertex it carries,
or a skip when its history holds none. -/
theorem Resolves.resolveIndirect_cases (hres : d.Resolves cr N P set) (hclosed : d.store.Closed)
    (hu : u ∈ d.store.vertices) :
    (∃ c, d.Carries N P u.hash c ∧ d.resolveIndirect cr N u.hash = .commit c) ∨
      ((∀ c, d.store.IsCandidate N P c → ¬ d.store.InHistory u.hash c) ∧
        d.resolveIndirect cr N u.hash = .skip) := by
  obtain ⟨history, hh⟩ := Store.causalBatch_isSome hclosed hu
  have hmem := Store.mem_causalBatch hh
  simp only [resolveIndirect, hres.producer, hres.strict, hh, Bool.false_and, Bool.and_false,
    Bool.false_eq_true, if_false]
  split
  · rename_i hempty
    refine .inr ⟨fun c hc => ?_, rfl⟩
    have := Store.mem_getByRoundProducer.2 hc
    rw [List.isEmpty_iff.1 hempty] at this
    simp at this
  · rw [decideMembership]
    split
    · rename_i c hc
      obtain ⟨hcand, hin, hleast⟩ :=
        (find?_sorted_eq_some (Store.sorted_getByRoundProducer d.store N P) c).1 hc
      refine .inl ⟨c, ⟨Store.mem_getByRoundProducer.1 hcand, (hmem c).1 (by simpa using hin),
        fun c' hc' hin' => ?_⟩, rfl⟩
      exact hleast c' (Store.mem_getByRoundProducer.2 hc') (by simpa using (hmem c').2 hin')
    · rename_i hnone
      refine .inr ⟨fun c hc hin => ?_, rfl⟩
      exact List.find?_eq_none.1 hnone c (Store.mem_getByRoundProducer.2 hc)
        (by simpa using (hmem c).2 hin)

end DAG

/-! ## One anchor, two stores -/

/-- Two stores stop their causal walks at the same vertices. -/
structure Store.SameBounds (A B : Store) : Prop where
  committed : A.committedVertices = B.committedVertices
  floor : A.commitFloor = B.commitFloor
  floorSet : A.commitFloorSet = B.commitFloorSet

theorem Store.SameBounds.symm (h : A.SameBounds B) : B.SameBounds A :=
  ⟨h.committed.symm, h.floor.symm, h.floorSet.symm⟩

theorem Store.SameBounds.look_eq (h : A.SameBounds B) {x : Vertex} (hA : x ∈ A.vertices)
    (hB : x ∈ B.vertices) : A.look x.hash = B.look x.hash := by
  have hgetA := Store.get_eq_some.2 ⟨hA, rfl⟩
  have hgetB := Store.get_eq_some.2 ⟨hB, rfl⟩
  simp [look, belowCommitFloor, hgetA, hgetB, h.committed, h.floor, h.floorSet]

/-- What the history of a common vertex holds, both stores hold. -/
private theorem mem_both_of_reaches (hA : U.IsView A) (hB : U.IsView B) (huA : u ∈ A.vertices)
    (huB : u ∈ B.vertices) {y : Hash} (h : Reaches A.look u.hash y) :
    ∃ x ∈ A.vertices, x ∈ B.vertices ∧ x.hash = y := by
  refine h.invariant (P := fun y => ∃ x ∈ A.vertices, x ∈ B.vertices ∧ x.hash = y)
    ⟨u, huA, huB, rfl⟩ ?_
  rintro y next z ⟨x, hxA, hxB, rfl⟩ hl hz
  obtain ⟨-, x', hx', hxx, -, rfl⟩ := Store.look_eq_inner.1 hl
  obtain rfl := List.inj_on_of_nodup_map A.nodup hx' hxA hxx
  obtain ⟨w, hw, rfl⟩ := hA.closed x' hxA z hz
  obtain ⟨w', hw', hww⟩ := hB.closed x' hxB w.hash hz
  obtain rfl := U.unique w' w (hB.subset w' hw') (hA.subset w hw) hww
  exact ⟨w', hw, hw', rfl⟩

theorem Universe.inHistory_of_common (hA : U.IsView A) (hB : U.IsView B) (hbounds : A.SameBounds B)
    (huA : u ∈ A.vertices) (huB : u ∈ B.vertices) {c : Hash} (hc : A.IsCandidate N P c)
    (h : A.InHistory u.hash c) : B.IsCandidate N P c ∧ B.InHistory u.hash c := by
  obtain ⟨hreach, next, hlook⟩ := h
  have hlooks : ∀ y, Reaches A.look u.hash y → A.look y = B.look y := by
    intro y hy
    obtain ⟨x, hxA, hxB, rfl⟩ := mem_both_of_reaches hA hB huA huB hy
    exact hbounds.look_eq hxA hxB
  obtain ⟨x, hxA, hxB, rfl⟩ := mem_both_of_reaches hA hB huA huB hreach
  obtain ⟨y, hy, hyr, hyp, hyh⟩ := hc
  obtain rfl := List.inj_on_of_nodup_map A.nodup hy hxA hyh
  exact ⟨⟨y, hxB, hyr, hyp, rfl⟩, hreach.congr hlooks, next, (hlooks _ hreach).symm.trans hlook⟩

theorem DAG.Resolves.resolveIndirect_congr (hres : d.Resolves cr N P set) (hA : U.IsView A)
    (hB : U.IsView B) (hbounds : A.SameBounds B) (huA : u ∈ A.vertices) (huB : u ∈ B.vertices) :
    (d.withStore A).resolveIndirect cr N u.hash = (d.withStore B).resolveIndirect cr N u.hash := by
  have htoB : ∀ c, A.IsCandidate N P c → A.InHistory u.hash c →
      B.IsCandidate N P c ∧ B.InHistory u.hash c :=
    fun c => Universe.inHistory_of_common hA hB hbounds huA huB
  have htoA : ∀ c, B.IsCandidate N P c → B.InHistory u.hash c →
      A.IsCandidate N P c ∧ A.InHistory u.hash c :=
    fun c => Universe.inHistory_of_common hB hA hbounds.symm huB huA
  rcases (hres.withStore A).resolveIndirect_cases hA.closed huA with
    ⟨c, ⟨hc, hin, hleast⟩, hcommit⟩ | ⟨hnone, hskip⟩ <;>
  rcases (hres.withStore B).resolveIndirect_cases hB.closed huB with
    ⟨c', ⟨hc', hin', hleast'⟩, hcommit'⟩ | ⟨hnone', hskip'⟩
  · have hle := hleast c' (htoA c' hc' hin').1 (htoA c' hc' hin').2
    have hge := hleast' c (htoB c hc hin).1 (htoB c hc hin).2
    rw [hcommit, hcommit', le_antisymm hle hge]
  · exact absurd (htoB c hc hin).2 (hnone' c (htoB c hc hin).1)
  · exact absurd (htoA c' hc' hin').2 (hnone c' (htoA c' hc' hin').1)
  · rw [hskip, hskip']

namespace DAG

/-! ## Two views -/

/-- How the view `a` comes to decide round `N` against the view `b`, where `P` is the
designated producer: quorums cite two of its vertices; a quorum cites one that the pivot of
`b` does not carry; a quorum blames it and the pivot of `b` carries one of its vertices; or
the two pivots differ, and only the one of `a` carries some vertex. -/
inductive Fork (cr : Crypto) (a b : DAG) (N : Nat) (P : Hash) : Prop
  | siblings {c c' : Hash} (ha : a.Cited cr N c) (hb : b.Cited cr N c') (hne : c ≠ c')
  | overruled {c u : Hash} {r : Nat} (ha : a.Cited cr N c) (hb : b.Pivot cr N r u)
      (hnot : ¬ b.Carries N P u c)
  | revived {c u : Hash} {r : Nat} (ha : a.Blamed cr N) (hb : b.Pivot cr N r u)
      (hc : b.Carries N P u c)
  | parted {c u u' : Hash} {r r' : Nat} (ha : a.Pivot cr N r u) (hb : b.Pivot cr N r' u')
      (hne : u ≠ u') (hc : a.Carries N P u c) (hnot : ¬ b.Carries N P u' c)

theorem Carries.unique {c c' w : Hash} (h : d.Carries N P w c) (h' : d.Carries N P w c') :
    c = c' :=
  le_antisymm (h.2.2 c' h'.1 h'.2.1) (h'.2.2 c h.1 h.2.1)

/-- A pivot decides what it carries, or a skip. -/
theorem Resolves.pivot_cases (hres : d.Resolves cr N P set) (hclosed : d.store.Closed) {r : Nat}
    {w : Hash} (h : d.Pivot cr N r w) :
    (∃ c, d.Carries N P w c ∧ d.anchorStatus cr N = .commit c) ∨
      ((∀ c, ¬ d.Carries N P w c) ∧ d.anchorStatus cr N = .skip) := by
  obtain ⟨x, hx, -, rfl⟩ := h.cited.exists_mem
  rw [hres.anchorStatus_of_pivot h]
  rcases hres.resolveIndirect_cases hclosed hx with hc | ⟨hnone, hskip⟩
  · exact .inl hc
  · exact .inr ⟨fun c hc => hnone c hc.1 hc.2.1, hskip⟩

/-- Two views that fork decide the round, and differently. -/
theorem Resolves.anchorStatus_ne_of_fork {a b : DAG} (ha : a.Resolves cr N P set)
    (hb : b.Resolves cr N P set) (hca : a.store.Closed) (hcb : b.store.Closed)
    (h : Fork cr a b N P) :
    a.anchorStatus cr N ≠ .wait ∧ b.anchorStatus cr N ≠ .wait ∧
      a.anchorStatus cr N ≠ b.anchorStatus cr N := by
  cases h with
  | siblings hc hc' hne =>
    simp [ha.anchorStatus_of_cited hc, hb.anchorStatus_of_cited hc', hne]
  | @overruled c u r hc hp hnot =>
    rw [ha.anchorStatus_of_cited hc]
    rcases hb.pivot_cases hcb hp with ⟨c', hc', heq⟩ | ⟨-, heq⟩
    · have hne : c ≠ c' := fun h => hnot (h ▸ hc')
      simp [heq, hne]
    · simp [heq]
  | @revived c u r hbl hp hc =>
    rw [ha.anchorStatus_of_blamed hbl]
    rcases hb.pivot_cases hcb hp with ⟨c', -, heq⟩ | ⟨hnone, -⟩
    · simp [heq]
    · exact absurd hc (hnone c)
  | @parted c u u' r r' hp hp' hne hc hnot =>
    rcases ha.pivot_cases hca hp with ⟨c₁, hc₁, heq⟩ | ⟨hnone, -⟩
    · obtain rfl := hc.unique hc₁
      rcases hb.pivot_cases hcb hp' with ⟨c', hc', heq'⟩ | ⟨-, heq'⟩
      · have hcc : c ≠ c' := fun h => hnot (h ▸ hc')
        simp [heq, heq', hcc]
      · simp [heq, heq']
    · exact absurd hc (hnone c)

section

variable {a b : DAG} (ha : a.Resolves cr N P set) (hb : b.Resolves cr N P set)
  (hcb : b.store.Closed) (hnot : ¬ Fork cr a b N P) {c u : Hash} {r : Nat}
  (hp : b.Pivot cr N r u)

include ha hb hcb hnot hp

/-- Where no vertex is overruled, a pivot carries what a quorum cites. -/
theorem Resolves.anchorStatus_eq_of_cited (hc : a.Cited cr N c) :
    a.anchorStatus cr N = b.anchorStatus cr N := by
  rw [ha.anchorStatus_of_cited hc]
  rcases hb.pivot_cases hcb hp with ⟨c', hc', heq⟩ | ⟨hnone, -⟩
  · by_contra hne
    refine hnot (.overruled hc hp fun hcarries => hne ?_)
    rw [heq, hcarries.unique hc']
  · exact absurd (.overruled hc hp (hnone c)) hnot

/-- Where none is revived, a pivot carries nothing past a quorum that blames. -/
theorem Resolves.anchorStatus_eq_of_blamed (hblamed : a.Blamed cr N) :
    a.anchorStatus cr N = b.anchorStatus cr N := by
  rw [ha.anchorStatus_of_blamed hblamed]
  rcases hb.pivot_cases hcb hp with ⟨c, hc, -⟩ | ⟨-, heq⟩
  · exact absurd (.revived hblamed hp hc) hnot
  · exact heq.symm

/-- Where they are not parted, two pivots decide alike. -/
theorem Resolves.anchorStatus_eq_of_pivots (hca : a.store.Closed) (hnot' : ¬ Fork cr b a N P)
    {u' : Hash} {r' : Nat} (hp' : a.Pivot cr N r' u') (hne : u' ≠ u) :
    a.anchorStatus cr N = b.anchorStatus cr N := by
  rcases ha.pivot_cases hca hp' with ⟨c, hc, heq⟩ | ⟨hnone, heq⟩ <;>
  rcases hb.pivot_cases hcb hp with ⟨c', hc', heq'⟩ | ⟨hnone', heq'⟩
  · by_contra hdiffer
    refine hnot (.parted hp' hp hne hc fun hcarries => hdiffer ?_)
    rw [heq, heq', hcarries.unique hc']
  · exact absurd (.parted hp' hp hne hc (hnone' c)) hnot
  · exact absurd (.parted hp hp' hne.symm hc' (hnone c')) hnot'
  · rw [heq, heq']

end

end DAG

def lateVertex : Store where
  vertices := memberRoundZero ++
    [memberVertex 11 1 1 [(1, 1), (2, 2), (3, 3)], memberVertex 12 1 2 [(1, 1), (2, 2), (4, 4)],
      memberVertex 13 1 3 [(1, 1), (2, 2), (3, 3)],
      memberVertex 14 1 4 [(1, 1), (2, 2), (3, 3), (4, 4)],
      memberVertex 21 2 1 [(11, 1), (12, 2), (13, 3)],
      memberVertex 22 2 2 [(11, 1), (12, 2), (13, 3)],
      memberVertex 23 2 3 [(11, 1), (12, 2), (13, 3)]]
  nodup := by decide +kernel

/-- The view that waited for member 4 at round 1. -/
def earlyView : Store where
  vertices := memberRoundZero ++
    [memberVertex 11 1 1 [(1, 1), (2, 2), (3, 3)], memberVertex 13 1 3 [(1, 1), (2, 2), (3, 3)],
      memberVertex 14 1 4 [(1, 1), (2, 2), (3, 3), (4, 4)]]
  nodup := by decide +kernel

/-- The view that went on to round 2 without it. -/
def laterView : Store where
  vertices := memberRoundZero ++
    [memberVertex 11 1 1 [(1, 1), (2, 2), (3, 3)], memberVertex 12 1 2 [(1, 1), (2, 2), (4, 4)],
      memberVertex 13 1 3 [(1, 1), (2, 2), (3, 3)],
      memberVertex 21 2 1 [(11, 1), (12, 2), (13, 3)],
      memberVertex 22 2 2 [(11, 1), (12, 2), (13, 3)],
      memberVertex 23 2 3 [(11, 1), (12, 2), (13, 3)]]
  nodup := by decide +kernel

end BluePods
