import BluePods.Verdict

/-! Views of one vertex universe. Two nodes hold causally closed parts of the same
set of vertices; honest producers make one vertex per round. A round certified on
one view is never blamed on another. -/

namespace BluePods

variable {U : Universe} {d : DAG} {set : ValidatorSet} {N : Nat}
open Lib.Quorum Lib.Walk

/-- The vertices that exist anywhere: a hash names one vertex. -/
structure Universe where
  mem : Vertex → Prop
  unique : ∀ v w, mem v → mem w → v.hash = w.hash → v = w

namespace Universe

/-- A causally closed store over the universe. -/
structure IsView (U : Universe) (s : Store) : Prop where
  subset : ∀ v ∈ s.vertices, U.mem v
  closed : s.Closed

/-- Producers outside `byz` have at most one vertex per round. -/
def HonestUnique (U : Universe) (byz : Hash → Bool) : Prop :=
  ∀ v w, U.mem v → U.mem w → byz v.producer = false → v.producer = w.producer →
    v.round = w.round → v = w

theorem IsView.mem_of_cites {s : Store} (hs : U.IsView s) {x v : Vertex} (hx : x ∈ s.vertices)
    (hv : U.mem v) (hcite : v.hash ∈ x.parentHashes) : v ∈ s.vertices := by
  obtain ⟨w, hw, hwh⟩ := hs.closed x hx v.hash hcite
  rwa [← U.unique w v (hs.subset w hw) hv hwh]

end Universe

/-- Byzantine producers hold strictly less than a third of the capped weight. -/
def ByzantineMinority (capMille : UInt64) (set : ValidatorSet) (byz : Hash → Bool) : Prop :=
  3 * stakeOf capMille set byz < totalStake capMille set

instance (capMille : UInt64) (set : ValidatorSet) (byz : Hash → Bool) :
    Decidable (ByzantineMinority capMille set byz) := inferInstanceAs (Decidable (_ < _))

/-- Two quorums of one holder set share an honest producer. -/
theorem DAG.Quorum.honest_inter {byz q q' : Hash → Bool} (hsat : NoSaturation d.votingCapMille set)
    (hbyz : ByzantineMinority d.votingCapMille set byz) (hq : d.Quorum set q)
    (hq' : d.Quorum set q') : ∃ p, q p = true ∧ q' p = true ∧ byz p = false := by
  obtain ⟨v, -, hv⟩ :=
    IsQuorum.inter ((DAG.quorum_iff hsat q).1 hq) ((DAG.quorum_iff hsat q').1 hq') hbyz
  exact ⟨v.pubkey, hv⟩

theorem Store.IsCandidate.transfer {A B : Store} {P h : Hash} (hc : A.IsCandidate N P h)
    (hA : U.IsView A) (hB : U.IsView B) {x : Vertex} (hx : x ∈ B.vertices)
    (hcite : h ∈ x.parentHashes) : B.IsCandidate N P h := by
  obtain ⟨v, hv, hr, hp, rfl⟩ := hc
  exact ⟨v, hB.mem_of_cites hx (hA.subset v hv) hcite, hr, hp, rfl⟩

/-- A strict verdict over a known holder set resolved its producer. -/
theorem DAG.resolves_of_verdict {cr : Crypto} (hstrict : d.roundIsRelaxed N = false)
    (hset : d.holdersForEpoch (d.commitEpochForRound (N + 1)) = some set)
    (h : d.directAnchorVerdict cr N ≠ .wait) : ∃ P, d.Resolves cr N P set := by
  obtain ⟨P, set', hres⟩ := exists_resolves hstrict h
  obtain rfl : set' = set := Option.some.inj (hres.holders.symm.trans hset)
  exact ⟨P, hres⟩

/-! ## A committee of four

Four validators of equal stake, with the values BLAKE3 takes on the designation
inputs of the first rounds. The third, second, fourth and fourth member are
designated at rounds 0 to 3. -/

def designationDraws : List Hash :=
  [⟨[158, 1, 51, 44, 20, 241, 205, 218, 57, 59, 202, 134, 90, 57, 176, 219,
      90, 121, 145, 84, 100, 189, 78, 215, 227, 158, 32, 154, 0, 196, 52, 174], by rfl⟩,
   ⟨[177, 188, 155, 36, 183, 193, 82, 59, 177, 37, 41, 3, 205, 76, 50, 204,
      101, 122, 168, 240, 139, 16, 72, 203, 18, 115, 43, 159, 9, 238, 117, 138], by rfl⟩,
   ⟨[87, 7, 135, 242, 228, 103, 17, 39, 184, 124, 168, 179, 88, 8, 214, 127,
      91, 223, 30, 165, 16, 137, 191, 24, 0, 149, 164, 1, 151, 82, 193, 172], by rfl⟩,
   ⟨[103, 99, 72, 185, 5, 119, 186, 112, 185, 204, 61, 27, 93, 71, 205, 31,
      234, 168, 124, 132, 122, 97, 74, 249, 123, 178, 166, 150, 112, 94, 90, 49], by rfl⟩]

def committeeCrypto : Crypto where
  blake3 b :=
    match (List.range 4).find? fun r => b = anchorDomain ++ putUint64LE (UInt64.ofNat r) with
    | some r => designationDraws.getD r zeroHash
    | none => zeroHash
  ed25519Verify _ _ _ := true
  blsVerifyAggregated _ _ _ := true
  blsVerifyPossession _ _ _ := true

def committee : ValidatorSet :=
  ⟨[1, 2, 3, 4].map fun n => { pubkey := idOf n, selfStake := 1 }, by decide⟩

/-- A node over the committee: one holder snapshot, strict from the first round. -/
def committeeDag (s : Store) : DAG where
  store := s
  epochMirror := some { epoch := 0, holders := some committee }
  validators := committee
  votingCapMille := 1000

/-- The vertex `n` of member `p` at a round, citing the given vertices of members. -/
def memberVertex (n : Byte) (round : Nat) (p : Byte) (cited : List (Byte × Byte)) : Vertex where
  hash := idOf n
  round := round
  producer := idOf p
  parents := cited.map fun (h, q) => ⟨idOf h, idOf q⟩

/-- The vertices every member makes at round 0. -/
def memberRoundZero : List Vertex :=
  [1, 2, 3, 4].map fun n => memberVertex n 0 n []

/-- The vertices of a store, as a universe. -/
def Store.universe (s : Store) : Universe where
  mem v := v ∈ s.vertices
  unique _ _ hv hw h := List.inj_on_of_nodup_map s.nodup hv hw h

instance (U s : Store) : Decidable (U.universe.IsView s) :=
  decidable_of_iff ((∀ v ∈ s.vertices, v ∈ U.vertices) ∧ s.Closed)
    ⟨fun h => ⟨h.1, h.2⟩, fun h => ⟨h.subset, h.closed⟩⟩

instance (U : Store) (byz : Hash → Bool) : Decidable (U.universe.HonestUnique byz) :=
  decidable_of_iff (∀ v ∈ U.vertices, ∀ w ∈ U.vertices, byz v.producer = false →
      v.producer = w.producer → v.round = w.round → v = w)
    ⟨fun h v w hv hw => h v hv w hw, fun h v hv w hw => h v w hv hw⟩

/-! ## Certified and blamed are exclusive -/

/-- An honest producer in both quorums has one vertex, which cites the certified
vertex and so brings it into the other view. -/
theorem DAG.Resolves.not_blamed_of_certified {cr : Crypto} {A B : Store} {P v : Hash}
    {byz : Hash → Bool} (hres : d.Resolves cr N P set) (hsat : NoSaturation d.votingCapMille set)
    (hbyz : ByzantineMinority d.votingCapMille set byz) (hhonest : U.HonestUnique byz)
    (hA : U.IsView A) (hB : U.IsView B)
    (hcert : (d.withStore A).directAnchorVerdict cr N = .certified v) :
    (d.withStore B).directAnchorVerdict cr N ≠ .blamed := by
  intro hblame
  obtain ⟨hcand, hsup, -⟩ := ((hres.withStore A).certified_iff v).1 hcert
  obtain ⟨-, hbl⟩ := ((hres.withStore B).blamed_iff).1 hblame
  obtain ⟨p, hp, hp', hhon⟩ := DAG.Quorum.honest_inter hsat hbyz hsup hbl
  obtain ⟨x, hx, hxr, hxp, hcite⟩ := Store.citer_iff.1 hp
  obtain ⟨⟨y, hy, hyr, hyp⟩, hnone⟩ := (DAG.blamerSet_iff _ _ _ _).1 hp'
  obtain rfl : x = y :=
    hhonest x y (hA.subset x hx) (hB.subset y hy) (by rw [hxp]; exact hhon)
      (hxp.trans hyp.symm) (hxr.trans hyr.symm)
  exact hnone x hy hyr hyp v (hcand.transfer hA hB hy hcite) hcite

/-- On two views of one universe a strict round is not certified on one and blamed on
the other. -/
theorem certified_blamed_exclusive (cr : Crypto) (d : DAG) (U : Universe) (A B : Store) (N : Nat)
    (set : ValidatorSet) (byz : Hash → Bool) (v : Hash) (hstrict : d.roundIsRelaxed N = false)
    (hset : d.holdersForEpoch (d.commitEpochForRound (N + 1)) = some set)
    (hsat : NoSaturation d.votingCapMille set) (hbyz : ByzantineMinority d.votingCapMille set byz)
    (hhonest : U.HonestUnique byz) (hA : U.IsView A) (hB : U.IsView B) :
    ¬ ((d.withStore A).directAnchorVerdict cr N = .certified v ∧
        (d.withStore B).directAnchorVerdict cr N = .blamed) := by
  rintro ⟨hcert, hblame⟩
  obtain ⟨P, hres⟩ := DAG.resolves_of_verdict (d := d.withStore A) hstrict hset
    (by rw [hcert]; simp)
  have hres : d.Resolves cr N P set := ⟨hstrict, hres.producer, hset⟩
  exact hres.not_blamed_of_certified hsat hbyz hhonest hA hB hcert hblame

/-- Round 0 certified by three of four members, and a view with only their vertices. -/
def certifiedStore : Store where
  vertices := memberRoundZero ++
    [memberVertex 11 1 1 [(1, 1), (2, 2), (3, 3)], memberVertex 12 1 2 [(1, 1), (2, 2), (3, 3)],
      memberVertex 13 1 3 [(1, 1), (2, 2), (3, 3)]]
  nodup := by decide

theorem certified_blamed_exclusive_committee :
    (committeeDag certifiedStore).directAnchorVerdict committeeCrypto 0 = .certified (idOf 3) ∧
      ¬ ((committeeDag certifiedStore).directAnchorVerdict committeeCrypto 0 =
            .certified (idOf 3) ∧
          (committeeDag certifiedStore).directAnchorVerdict committeeCrypto 0 = .blamed) :=
  ⟨by decide +kernel,
    certified_blamed_exclusive committeeCrypto (committeeDag certifiedStore)
      certifiedStore.universe certifiedStore certifiedStore 0 committee (fun p => p = idOf 4)
      (idOf 3) (by decide) rfl (by decide +kernel) (by decide +kernel) (by decide +kernel)
      (by decide +kernel) (by decide +kernel)⟩

end BluePods
