import BluePods.LightClient
import BluePods.TagHash

/-! What the light client takes a served committee for. The check rebuilds a tree, where a
repeated key is one entry, while the quorum is weighed over the served list: the list is
the committed committee exactly when no key is served twice. -/

namespace BluePods.Client
open Lib.Quorum Lib.SparseTree

/-- One entry for each member, with its capped stake, and the same weights of any set of
attesting producers. -/
def SameCommittee (leaves committed : List ValidatorLeaf) : Prop :=
  (leaves.map fun l => (l.pubkey, l.cappedStake)).Perm
      (committed.map fun l => (l.pubkey, l.cappedStake)) ∧
    ∀ epoch attesting,
      cappedStakeOf ⟨epoch, leaves⟩ attesting = cappedStakeOf ⟨epoch, committed⟩ attesting

/-- The served values start with different keys. -/
def DistinctKeys (resp : GetValidatorTreeResponse) : Prop :=
  (resp.leaves.map (·.take 32)).Nodup

/-- Every string hashed when an answer is checked. -/
def answerInputs (cr : Crypto) (resp : GetValidatorTreeResponse) : List Bytes :=
  combinedBytes resp.anchor.domainRoot resp.anchor.parentRoot resp.anchor.childrenRoot
      resp.anchor.validatorRoot ::
    match decodeValidatorLeaves resp.leaves with
    | .error _ => []
    | .ok leaves => rootInputs cr leaves

/-- Every string hashed for a committed set and an answer: the empty subtrees, the set and
its index root, and the answer. -/
def hashedInputs (cr : Crypto) (domain parent children : Hash)
    (committed : List ValidatorLeaf) (resp : GetValidatorTreeResponse) : List Bytes :=
  defaultInputs cr ++ (rootInputs cr committed ++
    (combinedBytes domain parent children (validatorRootOf cr committed) :: answerInputs cr resp))

section Served

variable {leaves : List ValidatorLeaf} {a : VerifiedAnchor} {cr : Crypto}
  {resp : GetValidatorTreeResponse} {set : ValidatorSet}

theorem keys_of_decodeLeavesFrom {values : List Bytes} (i : Nat)
    (h : decodeLeavesFrom i values = .ok leaves) :
    leaves.map (·.pubkey.val) = values.map (·.take 32) := by
  induction values generalizing i leaves with
  | nil =>
    cases h
    rfl
  | cons v vs ih =>
    rw [decodeLeavesFrom] at h
    cases hv : decodeValidatorLeaf v with
    | none => simp [hv] at h
    | some leaf =>
      cases hrest : decodeLeavesFrom (i + 1) vs with
      | error e =>
        rw [hv, hrest] at h
        cases h
      | ok rest =>
        rw [hv, hrest] at h
        cases h
        rw [List.map_cons, List.map_cons, pubkey_of_decodeValidatorLeaf hv, ih (i + 1) hrest]

theorem nodup_iff_distinctKeys (h : decodeValidatorLeaves resp.leaves = .ok leaves) :
    (leaves.map (·.pubkey)).Nodup ↔ DistinctKeys resp := by
  rw [DistinctKeys, ← keys_of_decodeLeavesFrom 0 h]
  have hmap : leaves.map (·.pubkey.val) = (leaves.map (·.pubkey)).map Subtype.val := by simp
  rw [hmap]
  exact (List.nodup_map_iff Subtype.val_injective).symm

/-- A set taken through a trusted root rebuilds the validator root of an answer whose
components combine to the trusted one. -/
theorem verifyValidatorSet_ok (h : a.verifyValidatorSet cr (some resp) = .ok set) :
    decodeValidatorLeaves resp.leaves = .ok set.leaves ∧
      validatorRootOf cr set.leaves = resp.anchor.validatorRoot ∧
      combinedRoot cr resp.anchor.domainRoot resp.anchor.parentRoot resp.anchor.childrenRoot
        resp.anchor.validatorRoot = a.indexRoot := by
  simp only [VerifiedAnchor.verifyValidatorSet] at h
  split at h
  · cases h
  · split at h
    · cases h
    · rename_i hbind
      simp only [VerifiedAnchor.bind] at hbind
      split at hbind
      · cases hbind
      · split at hbind
        · cases hbind
        · rename_i hcombined
          split at h
          · cases h
          · rename_i leaves hdecode
            split at h
            · cases h
            · rename_i hroot
              cases h
              exact ⟨hdecode, not_not.1 hroot, not_not.1 hcombined⟩

theorem verifyValidatorSet_epoch (h : a.verifyValidatorSet cr (some resp) = .ok set) :
    set.epoch = resp.epoch := by
  simp only [VerifiedAnchor.verifyValidatorSet] at h
  split at h
  · cases h
  split at h
  · cases h
  split at h
  · cases h
  split at h
  · cases h
  · cases h
    rfl

/-- A set taken through a checkpoint came through its index root or rebuilds its hash. -/
theorem authenticate_ok {cp : Checkpoint} (h : cp.authenticate cr (some resp) = .ok set) :
    VerifiedAnchor.verifyValidatorSet cr ⟨0, cp.indexRoot, 0⟩ (some resp) = .ok set ∨
      decodeValidatorLeaves resp.leaves = .ok set.leaves ∧
        validatorRootOf cr set.leaves = cp.validatorSetHash := by
  simp only [Checkpoint.authenticate] at h
  split at h
  · cases h
  · split at h
    · cases h
    · split at h
      · rename_i hstrong
        cases h
        exact .inl hstrong
      · split at h
        · cases h
        · rename_i leaves hdecode
          split at h
          · cases h
          · rename_i hroot
            cases h
            exact .inr ⟨hdecode, not_not.1 hroot⟩

variable {domain parent children : Hash} {committed : List ValidatorLeaf}

theorem rootInputs_subset_hashed (h : decodeValidatorLeaves resp.leaves = .ok leaves) :
    ∀ x ∈ rootInputs cr leaves, x ∈ hashedInputs cr domain parent children committed resp := by
  intro x hx
  apply List.mem_append_right
  apply List.mem_append_right
  apply List.mem_cons_of_mem
  rw [answerInputs, h]
  exact List.mem_cons_of_mem _ hx

/-- A served list that rebuilds the root of the committed set is that set exactly when its
keys are distinct. -/
theorem sameCommittee_iff (hcommitted : (committed.map (·.pubkey)).Nodup)
    (hfree : Tree.CollisionFree cr.blake3 (hashedInputs cr domain parent children committed resp))
    (hdecode : decodeValidatorLeaves resp.leaves = .ok leaves)
    (hroot : validatorRootOf cr leaves = validatorRootOf cr committed) :
    SameCommittee leaves committed ↔ DistinctKeys resp := by
  rw [← nodup_iff_distinctKeys hdecode]
  constructor
  · rintro ⟨hperm, -⟩
    have hkeys := hperm.map Prod.fst
    rw [List.map_map, List.map_map] at hkeys
    exact hkeys.nodup_iff.2 hcommitted
  · intro hnodup
    have hperm : leaves.Perm committed := by
      apply perm_of_validatorRootOf_eq hfree _ (rootInputs_subset_hashed hdecode) _ hnodup
        hcommitted hroot
      · exact fun x hx => List.mem_append_left _ hx
      · exact fun x hx => List.mem_append_right _ (List.mem_append_left _ hx)
    exact ⟨hperm.map _, fun epoch attesting => cappedStakeOf_perm hperm epoch attesting⟩

/-- Through the trusted index root, the served list rebuilds the committed root. -/
theorem root_of_verifyValidatorSet
    (hfree : Tree.CollisionFree cr.blake3 (hashedInputs cr domain parent children committed resp))
    (ha : a.indexRoot = combinedRoot cr domain parent children (validatorRootOf cr committed))
    (h : a.verifyValidatorSet cr (some resp) = .ok set) :
    validatorRootOf cr set.leaves = validatorRootOf cr committed := by
  obtain ⟨-, hroot, hcombined⟩ := verifyValidatorSet_ok h
  rw [hroot]
  apply validator_of_combinedRoot_eq hfree _ _ (hcombined.trans ha)
  · apply List.mem_append_right
    apply List.mem_append_right
    apply List.mem_cons_of_mem
    exact List.mem_cons_self
  · apply List.mem_append_right
    apply List.mem_append_right
    exact List.mem_cons_self

end Served

/-- For a committed set with distinct keys and a hash without collisions among the strings
hashed, a set taken through a trusted index root, or through a checkpoint, is the committed
one exactly when no key is served twice. -/
theorem committee_authentic_iff_distinctKeys (cr : Crypto) (domain parent children : Hash)
    (committed : List ValidatorLeaf) (hcommitted : (committed.map (·.pubkey)).Nodup)
    (resp : GetValidatorTreeResponse)
    (hfree : Tree.CollisionFree cr.blake3 (hashedInputs cr domain parent children committed resp)) :
    (∀ (a : VerifiedAnchor) set,
      a.indexRoot = combinedRoot cr domain parent children (validatorRootOf cr committed) →
      a.verifyValidatorSet cr (some resp) = .ok set →
      (SameCommittee set.leaves committed ↔ DistinctKeys resp)) ∧
    ∀ (cp : Checkpoint) set,
      cp.indexRoot = combinedRoot cr domain parent children (validatorRootOf cr committed) →
      cp.validatorSetHash = validatorRootOf cr committed →
      cp.authenticate cr (some resp) = .ok set →
      (SameCommittee set.leaves committed ↔ DistinctKeys resp) := by
  have hstrong : ∀ (a : VerifiedAnchor) set,
      a.indexRoot = combinedRoot cr domain parent children (validatorRootOf cr committed) →
      a.verifyValidatorSet cr (some resp) = .ok set →
      (SameCommittee set.leaves committed ↔ DistinctKeys resp) := by
    intro a set ha h
    exact sameCommittee_iff hcommitted hfree (verifyValidatorSet_ok h).1
      (root_of_verifyValidatorSet hfree ha h)
  refine ⟨hstrong, ?_⟩
  intro cp set hindex hhash h
  rcases authenticate_ok h with hlink | ⟨hdecode, hroot⟩
  · exact hstrong _ set hindex hlink
  · exact sameCommittee_iff hcommitted hfree hdecode (hroot.trans hhash)

/-! ## A committee of two, served honestly and with one member repeated -/

def firstMember : ValidatorLeaf := ⟨idOf 1, 1, soloBLSKey, 0⟩

/-- Two members of weight one. -/
def pair : List ValidatorLeaf := [firstMember, ⟨idOf 128, 1, soloBLSKey, 0⟩]

/-- The committee with its first member repeated. -/
def padded : List ValidatorLeaf := firstMember :: pair

def servedAs (leaves : List ValidatorLeaf) : GetValidatorTreeResponse where
  anchor := ⟨true, zeroHash, zeroHash, zeroHash, validatorRootOf tagCrypto pair⟩
  found := true
  epoch := 3
  leaves := leaves.map encodeValidatorLeaf

def pairCheckpoint : Checkpoint where
  epoch := 3
  indexRoot := combinedRoot tagCrypto zeroHash zeroHash zeroHash (validatorRootOf tagCrypto pair)
  validatorSetHash := validatorRootOf tagCrypto pair

theorem pair_collisionFree (leaves : List ValidatorLeaf)
    (hleaves : leaves = pair ∨ leaves = padded) :
    Tree.CollisionFree tagCrypto.blake3
      (hashedInputs tagCrypto zeroHash zeroHash zeroHash pair (servedAs leaves)) := by
  apply collisionFree_of_tagged
  · rcases hleaves with rfl | rfl
    · unfold Tree.CollisionFree; decide +kernel
    · unfold Tree.CollisionFree; decide +kernel
  · rcases hleaves with rfl | rfl
    · decide +kernel
    · decide +kernel

theorem committee_authentic_iff_distinctKeys_pair :
    pairCheckpoint.authenticate tagCrypto (some (servedAs pair)) = .ok ⟨3, pair⟩ ∧
      SameCommittee pair pair := by
  have haccept : pairCheckpoint.authenticate tagCrypto (some (servedAs pair)) =
      .ok ⟨3, pair⟩ := by decide +kernel
  have hall := committee_authentic_iff_distinctKeys tagCrypto zeroHash zeroHash zeroHash pair
    (by decide) (servedAs pair) (pair_collisionFree pair (.inl rfl))
  refine ⟨haccept, (hall.2 pairCheckpoint _ ?_ ?_ haccept).2 ?_⟩
  · simp only [pairCheckpoint]
  · simp only [pairCheckpoint]
  · unfold DistinctKeys
    decide +kernel

/-- Served with the first member repeated, the list rebuilds the same root and is taken by
both checks. The first member, half of the committed weight, is then a quorum. -/
theorem repeatedMember_accepted :
    Tree.CollisionFree tagCrypto.blake3
        (hashedInputs tagCrypto zeroHash zeroHash zeroHash pair (servedAs padded)) ∧
      VerifiedAnchor.verifyValidatorSet tagCrypto ⟨9, pairCheckpoint.indexRoot, 3⟩
        (some (servedAs padded)) = .ok ⟨3, padded⟩ ∧
      pairCheckpoint.authenticate tagCrypto (some (servedAs padded)) =
        .ok ⟨3, padded⟩ ∧
      ¬SameCommittee padded pair ∧
      cappedStakeOf ⟨3, pair⟩ (· = idOf 1) = (1, 2) ∧ quorumReached 1 2 = false ∧
      cappedStakeOf ⟨3, padded⟩ (· = idOf 1) = (2, 3) ∧
      quorumReached 2 3 = true := by
  refine ⟨pair_collisionFree _ (.inr rfl), by decide +kernel, by decide +kernel, ?_,
    by decide, by decide, by decide, by decide⟩
  rintro ⟨hperm, -⟩
  exact absurd hperm.length_eq (by decide)

end BluePods.Client
