import BluePods.Validate
import BluePods.Views

/-! Whether an anchor two or more rounds up carries a certified vertex. It does when
the honest producers of its ancestors in the round that certified the vertex are too
heavy for a quorum without them; one ancestor that cites two thirds makes them so.
A chain of vertices that cite less escapes both, and admission lets it in. -/

namespace BluePods
open Lib.Quorum

namespace Store

/-- The stored vertex `a` cites `b`. -/
def Cites (s : Store) (a b : Hash) : Prop :=
  ∃ x ∈ s.vertices, x.hash = a ∧ b ∈ x.parentHashes

/-- `b` is in the causal history of `a`, `a` itself included. -/
def Ancestor (s : Store) : Hash → Hash → Prop := Relation.ReflTransGen s.Cites

/-- The producers of the previous round's stored vertices that `x` cites. -/
def citedProducer (s : Store) (x : Vertex) (p : Hash) : Bool :=
  s.vertices.any fun y =>
    decide (y.round + 1 = x.round ∧ y.hash ∈ x.parentHashes ∧ y.producer = p)

variable {s : Store} {x : Vertex}

theorem citedProducer_iff {p : Hash} :
    s.citedProducer x p = true ↔
      ∃ y ∈ s.vertices, y.round + 1 = x.round ∧ y.hash ∈ x.parentHashes ∧ y.producer = p := by
  simp [citedProducer]

theorem Ancestor.cite {a : Hash} {b : Hash} (h : s.Ancestor a x.hash) (hx : x ∈ s.vertices)
    (hb : b ∈ x.parentHashes) : s.Ancestor a b :=
  h.tail ⟨x, hx, rfl, hb⟩

end Store

namespace DAG

variable {d : DAG} {byz : Hash → Bool} {N : Nat} {u : Hash} {set : ValidatorSet}
  {sets : Nat → ValidatorSet} {M : Nat}

theorem certificationRuledOut_iff (hsat : NoSaturation d.votingCapMille set) (l : List Hash) :
    d.certificationRuledOut set l = true ↔
      0 < totalStake d.votingCapMille set ∧
        3 * (totalStake d.votingCapMille set -
          stakeOf d.votingCapMille set (fun p => decide (p ∈ l))) <
          2 * totalStake d.votingCapMille set := by
  have hle := stakeOf_le_totalStake d.votingCapMille set fun p => decide (p ∈ l)
  have hs := toNat_cappedStakeOf_fst d.votingCapMille set fun p => decide (p ∈ l)
  have ht := toNat_cappedStakeOf_snd d.votingCapMille set fun p => decide (p ∈ l)
  unfold NoSaturation at hsat
  simp only [certificationRuledOut]
  generalize cappedStakeOf d.votingCapMille set (fun p => decide (p ∈ l)) = r at hs ht ⊢
  have h0 : r.2 = 0 ↔ r.2.toNat = 0 := by
    rw [← UInt64.toNat_inj]
    rfl
  split
  · rename_i hz
    have := h0.1 hz
    simp only [Bool.false_eq_true, false_iff]
    omega
  · rename_i hz
    have hsub : (r.2 - r.1).toNat = r.2.toNat - r.1.toNat :=
      UInt64.toNat_sub_of_le _ _ (by rw [UInt64.le_iff_toNat_le]; omega)
    have hq := quorumReached_iff (s := r.2 - r.1) (t := r.2) (by omega) (by omega)
    have hpos : 0 < r.2.toNat := Nat.pos_of_ne_zero fun h => hz (h0.2 h)
    rw [Bool.not_eq_true', Bool.eq_false_iff, Ne, hq]
    omega

/-- Honest producers with a round-`(N + 1)` vertex in the history of `u` hold so much
weight that the other holders are no quorum. -/
def HeavyAncestry (d : DAG) (set : ValidatorSet) (byz : Hash → Bool) (N : Nat) (u : Hash) :
    Prop :=
  ∃ l : List Hash, d.certificationRuledOut set l = true ∧
    ∀ p ∈ l, byz p = false ∧ ∃ x ∈ d.store.vertices,
      x.round = N + 1 ∧ x.producer = p ∧ d.store.Ancestor u x.hash

/-- `x` cites vertices of producers holding two thirds of the previous round. -/
def QuorumCites (d : DAG) (sets : Nat → ValidatorSet) (x : Vertex) : Prop :=
  d.Quorum (sets (x.round - 1)) (d.store.citedProducer x)

/-- A vertex certified at `N` is in the history of every vertex with heavy ancestry. -/
theorem ancestor_of_heavyAncestry {cr : Crypto} {P v : Hash} (hres : d.Resolves cr N P set)
    (hsat : NoSaturation d.votingCapMille set) (hhonest : d.store.universe.HonestUnique byz)
    (hv : d.directAnchorVerdict cr N = .certified v) (hheavy : d.HeavyAncestry set byz N u) :
    d.store.Ancestor u v := by
  obtain ⟨l, hruled, hl⟩ := hheavy
  obtain ⟨-, hq, -⟩ := (hres.certified_iff v).1 hv
  have hsup := ((quorum_iff hsat _).1 hq).2
  have hout := ((certificationRuledOut_iff hsat l).1 hruled).2
  -- The supporters of `v` and the list outweigh the whole, so they share a producer.
  have hshare := stakeOf_add_le_inter d.votingCapMille set (d.store.citer (N + 1) v)
    fun p => decide (p ∈ l)
  obtain ⟨p, hp⟩ := @exists_of_stakeOf_pos d.votingCapMille set
    (fun p => d.store.citer (N + 1) v p && decide (p ∈ l)) (by omega)
  rw [Bool.and_eq_true, decide_eq_true_eq] at hp
  obtain ⟨y, hy, hyr, hyp, hcite⟩ := Store.citer_iff.1 hp.1
  obtain ⟨hhon, x, hx, hxr, hxp, hanc⟩ := hl p hp.2
  obtain rfl : x = y := hhonest x y hx hy (by rw [hxp]; exact hhon)
    (hxp.trans hyp.symm) (hxr.trans hyr.symm)
  exact hanc.cite hx hcite

/-- The holders of rounds `N + 1` to `M`: no saturation, a byzantine minority, and
honest vertices that cite two thirds of the round below. -/
structure HonestRounds (d : DAG) (sets : Nat → ValidatorSet) (byz : Hash → Bool) (N M : Nat) :
    Prop where
  holders : ∀ r, N + 1 ≤ r → r ≤ M →
    d.holdersForEpoch (d.commitEpochForRound r) = some (sets r)
  noSaturation : ∀ r, N + 1 ≤ r → r ≤ M → NoSaturation d.votingCapMille (sets r)
  minority : ∀ r, N + 1 ≤ r → r ≤ M → ByzantineMinority d.votingCapMille (sets r) byz
  cites : ∀ x ∈ d.store.vertices, byz x.producer = false → N + 2 ≤ x.round → x.round ≤ M →
    d.QuorumCites sets x

/-- Honest producers of what a quorum-citing vertex of round `N + 2` cites weigh more
than a third. -/
private theorem heavyAncestry_of_quorumCites_base (hrounds : d.HonestRounds sets byz N M)
    (hM : N + 2 ≤ M) {y : Vertex} (hy : y ∈ d.store.vertices) (hround : y.round = N + 2)
    (hanc : d.store.Ancestor u y.hash) (hq : d.QuorumCites sets y) :
    d.HeavyAncestry (sets (N + 1)) byz N u := by
  have hsat := hrounds.noSaturation (N + 1) le_rfl (by omega)
  have hmin : 3 * stakeOf _ _ _ < totalStake _ _ := hrounds.minority (N + 1) le_rfl (by omega)
  let cited := d.store.vertices.filter fun z =>
    decide (z.round + 1 = y.round ∧ z.hash ∈ y.parentHashes) && !byz z.producer
  have hmem : ∀ p, p ∈ cited.map (·.producer) ↔
      d.store.citedProducer y p = true ∧ byz p = false := by
    intro p
    simp only [cited, List.mem_map, List.mem_filter, Bool.and_eq_true, decide_eq_true_eq,
      Bool.not_eq_true', Store.citedProducer_iff]
    constructor
    · rintro ⟨z, ⟨hz, ⟨hr, hc⟩, hb⟩, rfl⟩
      exact ⟨⟨z, hz, hr, hc, rfl⟩, hb⟩
    · rintro ⟨⟨z, hz, hr, hc, rfl⟩, hb⟩
      exact ⟨z, ⟨hz, ⟨hr, hc⟩, hb⟩, rfl⟩
  have hprev : y.round - 1 = N + 1 := by omega
  rw [QuorumCites, hprev] at hq
  obtain ⟨hpos, hcited⟩ := (quorum_iff hsat _).1 hq
  -- The cited producers are the honest ones on the list and at most the byzantine.
  have hsplit := stakeOf_split d.votingCapMille (sets (N + 1)) (d.store.citedProducer y) byz
  have hbyz := stakeOf_mono d.votingCapMille (sets (N + 1))
    (p := fun p => d.store.citedProducer y p && byz p) (q := byz)
    fun p h => (Bool.and_eq_true _ _ ▸ h).2
  have hlist := stakeOf_mono d.votingCapMille (sets (N + 1))
    (p := fun p => d.store.citedProducer y p && !byz p)
    (q := fun p => decide (p ∈ cited.map (·.producer))) fun p h => by
      rw [Bool.and_eq_true, Bool.not_eq_true'] at h
      exact decide_eq_true ((hmem p).2 h)
  refine ⟨cited.map (·.producer), (certificationRuledOut_iff hsat _).2 ⟨hpos, by omega⟩, ?_⟩
  · intro p hp
    obtain ⟨hc, hb⟩ := (hmem p).1 hp
    obtain ⟨z, hz, hr, hzc, hzp⟩ := Store.citedProducer_iff.1 hc
    exact ⟨hb, z, hz, by omega, hzp, hanc.cite hy hzc⟩

/-- From a quorum-citing vertex, an honest one of the round below is cited, which
cites a quorum in turn, down to round `N + 2`. -/
private theorem heavyAncestry_of_quorumCites (hrounds : d.HonestRounds sets byz N M) :
    ∀ k y, N + 2 + k ≤ M → y ∈ d.store.vertices → y.round = N + 2 + k →
      d.store.Ancestor u y.hash → d.QuorumCites sets y →
      d.HeavyAncestry (sets (N + 1)) byz N u := by
  intro k
  induction k with
  | zero =>
    intro y hM hy hround hanc hq
    exact heavyAncestry_of_quorumCites_base hrounds hM hy hround hanc hq
  | succ k ih =>
    intro y hM hy hround hanc hq
    have hsat := hrounds.noSaturation (N + 2 + k) (by omega) (by omega)
    have hmin : 3 * stakeOf _ _ _ < totalStake _ _ :=
      hrounds.minority (N + 2 + k) (by omega) (by omega)
    rw [QuorumCites, show y.round - 1 = N + 2 + k by omega] at hq
    obtain ⟨-, hcited⟩ := (quorum_iff hsat _).1 hq
    have hlt : stakeOf d.votingCapMille (sets (N + 2 + k)) byz <
        stakeOf d.votingCapMille (sets (N + 2 + k)) (d.store.citedProducer y) := by omega
    obtain ⟨p, hp, hhon⟩ := exists_of_stakeOf_lt hlt
    obtain ⟨z, hz, hzr, hzc, rfl⟩ := Store.citedProducer_iff.1 hp
    exact ih z (by omega) hz (by omega) (hanc.cite hy hzc)
      (hrounds.cites z hz hhon (by omega) (by omega))

/-- A vertex certified at `N` is in the history of a vertex `u` two or more rounds up,
certified or not, whenever that history is heavy at round `N + 1`; and one vertex of it
above that round citing two thirds makes it heavy. -/
theorem certified_carried_by_far_anchor (cr : Crypto) (d : DAG) (sets : Nat → ValidatorSet)
    (byz : Hash → Bool) (N M : Nat) (u v : Hash) (hstrict : d.roundIsRelaxed N = false)
    (hfar : N + 2 ≤ M) (hrounds : d.HonestRounds sets byz N M)
    (hhonest : d.store.universe.HonestUnique byz) (hv : d.directAnchorVerdict cr N = .certified v) :
    (d.HeavyAncestry (sets (N + 1)) byz N u → d.store.Ancestor u v) ∧
      ((∃ y ∈ d.store.vertices, N + 2 ≤ y.round ∧ y.round ≤ M ∧
          d.store.Ancestor u y.hash ∧ d.QuorumCites sets y) →
        d.HeavyAncestry (sets (N + 1)) byz N u) := by
  obtain ⟨P, hres⟩ := resolves_of_verdict hstrict
    (hrounds.holders (N + 1) le_rfl (by omega)) (by rw [hv]; simp)
  have hsat := hrounds.noSaturation (N + 1) le_rfl (by omega)
  refine ⟨ancestor_of_heavyAncestry hres hsat hhonest hv, ?_⟩
  rintro ⟨y, hy, hlow, hhigh, hanc, hq⟩
  exact heavyAncestry_of_quorumCites hrounds (y.round - (N + 2)) y (by omega) hy (by omega)
    hanc hq

end DAG

/-! ## Anchors of the committee -/

/-- All members cite everything for three rounds. -/
def denseRounds : Store where
  vertices := memberRoundZero ++
    (List.flatten <| [(1 : Nat), 2, 3].map fun r =>
      [(1 : Byte), 2, 3, 4].map fun p =>
        memberVertex (byteOf (10 * r) + p) r p
          ([1, 2, 3, 4].map fun q => (byteOf (10 * (r - 1)) + q, q)))
  nodup := by decide +kernel

instance (d : DAG) (set : ValidatorSet) (q : Hash → Bool) : Decidable (d.Quorum set q) :=
  inferInstanceAs (Decidable (_ = true))

/-- Vertex 24 cites a quorum, so it carries vertex 3. -/
theorem certified_carried_by_far_anchor_committee :
    (committeeDag denseRounds).directAnchorVerdict committeeCrypto 2 = .certified (idOf 24) ∧
      denseRounds.Ancestor (idOf 24) (idOf 3) := by
  have hcites : ∀ x ∈ denseRounds.vertices, 2 ≤ x.round → x.round ≤ 2 →
      (committeeDag denseRounds).Quorum committee (denseRounds.citedProducer x) := by
    decide +kernel
  obtain ⟨y, hy, hround, hhash⟩ :
      ∃ y ∈ denseRounds.vertices, y.round = 2 ∧ y.hash = idOf 24 := by decide +kernel
  obtain ⟨hcarried, hheavy⟩ :=
    DAG.certified_carried_by_far_anchor committeeCrypto (committeeDag denseRounds)
      (fun _ => committee) (fun p => p = idOf 4) 0 2 (idOf 24) (idOf 3) (by decide) (by decide)
      { holders := fun r _ _ => rfl
        noSaturation := fun _ _ _ => by decide +kernel
        minority := fun _ _ _ => by decide +kernel
        cites := fun x hx _ hlow hhigh => hcites x hx hlow hhigh }
      (by decide +kernel) (by decide +kernel)
  have hanc : denseRounds.Ancestor (idOf 24) y.hash := by
    rw [hhash]
    exact .refl
  exact ⟨by decide +kernel, hcarried (hheavy ⟨y, hy, hround.ge, hround.le, hanc,
    hcites y hy hround.ge hround.le⟩)⟩

/-- Member 4 makes a chain of vertices that each cite one vertex and miss vertex 3. -/
def thinChain : Store where
  vertices := memberRoundZero ++
    [memberVertex 11 1 1 [(1, 1), (2, 2), (3, 3)], memberVertex 12 1 2 [(1, 1), (2, 2), (3, 3)],
      memberVertex 13 1 3 [(1, 1), (2, 2), (3, 3)], memberVertex 14 1 4 [(4, 4)],
      memberVertex 21 2 1 [(11, 1), (12, 2), (13, 3)],
      memberVertex 22 2 2 [(11, 1), (12, 2), (13, 3)],
      memberVertex 23 2 3 [(11, 1), (12, 2), (13, 3)], memberVertex 24 2 4 [(14, 4)],
      memberVertex 31 3 1 [(21, 1), (22, 2), (23, 3), (24, 4)],
      memberVertex 32 3 2 [(21, 1), (22, 2), (23, 3), (24, 4)],
      memberVertex 33 3 3 [(21, 1), (22, 2), (23, 3), (24, 4)]]
  nodup := by decide +kernel

/-- Every vertex is admitted, honest ones cite two thirds, vertex 3 is certified at
round 0 and vertex 24 at round 2, and vertex 24 does not carry vertex 3. -/
theorem thinChain_omits_certified :
    let byz : Hash → Bool := fun p => p = idOf 4
    let d := committeeDag thinChain
    d.roundIsRelaxed 0 = false ∧
      NoSaturation d.votingCapMille committee ∧
      ByzantineMinority d.votingCapMille committee byz ∧
      thinChain.universe.HonestUnique byz ∧
      d.Admitted ⟨fun _ => true, fun _ => true⟩ thinChain ∧
      (∀ x ∈ thinChain.vertices, byz x.producer = false → 1 ≤ x.round →
        d.QuorumCites (fun _ => committee) x) ∧
      d.directAnchorVerdict committeeCrypto 0 = .certified (idOf 3) ∧
      d.directAnchorVerdict committeeCrypto 2 = .certified (idOf 24) ∧
      ¬ thinChain.Ancestor (idOf 24) (idOf 3) := by
  have hcites : ∀ x ∈ thinChain.vertices, decide (x.producer = idOf 4) = false → 1 ≤ x.round →
      (committeeDag thinChain).Quorum committee (thinChain.citedProducer x) := by
    decide +kernel
  have hstep : ∀ x ∈ thinChain.vertices, x.hash ∈ [idOf 24, idOf 14, idOf 4] →
      ∀ b ∈ x.parentHashes, b ∈ [idOf 24, idOf 14, idOf 4] := by
    decide +kernel
  have hhist : ∀ b, thinChain.Ancestor (idOf 24) b → b ∈ [idOf 24, idOf 14, idOf 4] := by
    intro b hb
    induction hb with
    | refl => decide
    | tail _ hcite ih =>
      obtain ⟨x, hx, rfl, hb⟩ := hcite
      exact hstep x hx ih _ hb
  exact ⟨by decide, by decide +kernel, by decide +kernel, by decide +kernel,
    by decide +kernel, hcites, by decide +kernel, by decide +kernel,
    fun h => absurd (hhist _ h) (by decide)⟩

end BluePods
