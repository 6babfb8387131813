import BluePods.Index
import BluePods.Commit

/-! The light client: it holds a checkpoint, takes a validator set from a server when the
set rebuilds a root it trusts, and takes an index root from a server when the set's
capped-stake quorum signed it. -/

namespace BluePods.Client
open Lib.Quorum Lib.SparseTree

/-! ## Answers and what is taken from them -/

/-- The anchoring block of an answer: the four component roots it is proved against. -/
structure ProvedIndexAnchor where
  anchored : Bool
  domainRoot : Hash
  parentRoot : Hash
  childrenRoot : Hash
  validatorRoot : Hash

structure GetValidatorTreeResponse where
  anchor : ProvedIndexAnchor
  found : Bool
  epoch : UInt64
  leaves : List Bytes

structure GetIndexAnchorResponse where
  found : Bool
  frontierRound : UInt64
  indexRoot : Hash
  headers : List Bytes

/-- An epoch's validator leaves, the weights of every quorum of that epoch. -/
structure ValidatorSet where
  epoch : UInt64
  leaves : List ValidatorLeaf
  deriving DecidableEq

/-- An index root with a quorum behind it. -/
structure VerifiedAnchor where
  frontierRound : UInt64
  indexRoot : Hash
  epoch : UInt64
  deriving DecidableEq

/-- The pin a client starts from. -/
structure Checkpoint where
  epoch : UInt64
  indexRoot : Hash
  validatorSetHash : Hash

/-- Why an answer is refused, with the values its message prints. -/
inductive Refusal where
  | noValidatorTree
  | unanchored
  | componentMismatch (combined attested : Hash)
  | undecodableLeaf (i : Nat)
  | rebuiltMismatch (rebuilt pinned : Hash)
  | inValidatorSet (epoch : UInt64) (cause : Refusal)
  | epochNotServed (checkpoint served : UInt64)
  | otherEpoch (checkpoint served : UInt64)
  | noBundle
  | emptyValidatorSet
  | checkpointBehind (frontier epoch : UInt64)
  | shortOfQuorum (frontier atCurrent atNext total : UInt64)
  deriving DecidableEq

/-! ## The validator set -/

/-- The answer's component roots must combine to the trusted root. -/
def VerifiedAnchor.bind (cr : Crypto) (a : VerifiedAnchor) (anchor : ProvedIndexAnchor) :
    Except Refusal Unit :=
  if !anchor.anchored then .error .unanchored
  else
    let combined :=
      combinedRoot cr anchor.domainRoot anchor.parentRoot anchor.childrenRoot anchor.validatorRoot
    if combined ≠ a.indexRoot then .error (.componentMismatch combined a.indexRoot) else .ok ()

/-- The served values from index `i` on. -/
def decodeLeavesFrom : Nat → List Bytes → Except Refusal (List ValidatorLeaf)
  | _, [] => .ok []
  | i, v :: vs =>
    match decodeValidatorLeaf v with
    | none => .error (.undecodableLeaf i)
    | some leaf => (decodeLeavesFrom (i + 1) vs).map (leaf :: ·)

def decodeValidatorLeaves (values : List Bytes) : Except Refusal (List ValidatorLeaf) :=
  decodeLeavesFrom 0 values

/-- A served set is taken when it rebuilds the validator root the trusted root covers. -/
def VerifiedAnchor.verifyValidatorSet (cr : Crypto) (a : VerifiedAnchor) :
    Option GetValidatorTreeResponse → Except Refusal ValidatorSet
  | none => .error .noValidatorTree
  | some resp =>
    if !resp.found then .error .noValidatorTree
    else match a.bind cr resp.anchor with
      | .error cause => .error (.inValidatorSet resp.epoch cause)
      | .ok () => match decodeValidatorLeaves resp.leaves with
        | .error cause => .error (.inValidatorSet resp.epoch cause)
        | .ok leaves =>
          let root := validatorRootOf cr leaves
          if root ≠ resp.anchor.validatorRoot then
            .error (.inValidatorSet resp.epoch (.rebuiltMismatch root resp.anchor.validatorRoot))
          else .ok ⟨resp.epoch, leaves⟩

/-- The set of the checkpoint's epoch, by the pinned index root or else by the pinned hash
of the set. -/
def Checkpoint.authenticate (cr : Crypto) (cp : Checkpoint) :
    Option GetValidatorTreeResponse → Except Refusal ValidatorSet
  | none => .error (.epochNotServed cp.epoch 0)
  | some resp =>
    if !resp.found then .error (.epochNotServed cp.epoch resp.epoch)
    else if resp.epoch ≠ cp.epoch then .error (.otherEpoch cp.epoch resp.epoch)
    else match VerifiedAnchor.verifyValidatorSet cr ⟨0, cp.indexRoot, 0⟩ (some resp) with
      | .ok set => .ok set
      | .error _ => match decodeValidatorLeaves resp.leaves with
        | .error cause => .error (.inValidatorSet resp.epoch cause)
        | .ok leaves =>
          let root := validatorRootOf cr leaves
          if root ≠ cp.validatorSetHash then .error (.rebuiltMismatch root cp.validatorSetHash)
          else .ok ⟨resp.epoch, leaves⟩

/-- The weight of the attesting producers and of the whole set, entry by entry. The
client's saturating arithmetic and quorum test are the chain's. -/
def cappedStakeOf (set : ValidatorSet) (attesting : Hash → Bool) : UInt64 × UInt64 :=
  set.leaves.foldl (fun (attestingStake, totalStake) leaf =>
    (if attesting leaf.pubkey then safeAdd attestingStake leaf.cappedStake else attestingStake,
      safeAdd totalStake leaf.cappedStake)) (0, 0)

/-! ## The anchor quorum -/

/-- One producer's signed claim inside a bundle. -/
structure AnchorHeader where
  producer : Hash
  epoch : UInt64
  frontierRound : UInt64
  indexRoot : Hash

/-- What a producer signs: the digest of its tagged header. -/
def headerIdentity (cr : Crypto) (header : Bytes) : Hash := cr.blake3 (1 :: header)

/-- A record is a 120-byte header and the producer's signature over its identity. -/
def parseAnchorRecord (cr : Crypto) (record : Bytes) : Option AnchorHeader :=
  if record.length ≠ 120 + 64 then none
  else
    let header := record.take 120
    let out : AnchorHeader :=
      { producer := toHash (header.take 32)
        epoch := uint64BE (header.drop 40)
        frontierRound := uint64BE (header.drop 48)
        indexRoot := toHash ((header.drop 56).take 32) }
    if !cr.ed25519Verify out.producer.val (headerIdentity cr header).val (record.drop 120) then none
    else some out

/-- A header backs the bundle's pair and names an epoch of the handoff window. -/
def attestsBundle (header : AnchorHeader) (bundle : GetIndexAnchorResponse)
    (set : ValidatorSet) : Bool :=
  if header.frontierRound ≠ bundle.frontierRound ∨ header.indexRoot ≠ bundle.indexRoot then false
  else header.epoch = set.epoch ∨ header.epoch = set.epoch + 1

/-- One record's producer joins the bucket of the epoch its header names. -/
def countRecord (cr : Crypto) (bundle : GetIndexAnchorResponse) (set : ValidatorSet)
    (buckets : List Hash × List Hash) (record : Bytes) : List Hash × List Hash :=
  match parseAnchorRecord cr record with
  | none => buckets
  | some header =>
    if !attestsBundle header bundle set then buckets
    else if !set.leaves.any (·.pubkey = header.producer) then buckets
    else if header.epoch = set.epoch + 1 then (buckets.1, buckets.2.insert header.producer)
    else (buckets.1.insert header.producer, buckets.2)

/-- The members whose own header attests the bundle, by the epoch the header names. -/
def countedProducers (cr : Crypto) (bundle : GetIndexAnchorResponse) (set : ValidatorSet) :
    List Hash × List Hash :=
  bundle.headers.foldl (countRecord cr bundle set) ([], [])

/-- Some record parses, and all that do name an epoch outside the handoff window. -/
def allHeadersOutsideWindow (cr : Crypto) (bundle : GetIndexAnchorResponse)
    (set : ValidatorSet) : Bool :=
  let parsable := bundle.headers.filterMap (parseAnchorRecord cr)
  !parsable.isEmpty && parsable.all fun header =>
    !(header.epoch = set.epoch ∨ header.epoch = set.epoch + 1 : Bool)

def refusalError (cr : Crypto) (bundle : GetIndexAnchorResponse) (set : ValidatorSet)
    (atCurrentEpoch atNextEpoch : List Hash) : Refusal :=
  if atCurrentEpoch.isEmpty ∧ atNextEpoch.isEmpty ∧ ¬bundle.headers.isEmpty ∧
      allHeadersOutsideWindow cr bundle set then
    .checkpointBehind bundle.frontierRound set.epoch
  else
    let (currentAttesting, total) := cappedStakeOf set (· ∈ atCurrentEpoch)
    let (nextAttesting, _) := cappedStakeOf set (· ∈ atNextEpoch)
    .shortOfQuorum bundle.frontierRound currentAttesting nextAttesting total

/-- The bundle's pair, attributed to the next epoch when the headers naming it are a
quorum by themselves, and to the set's own epoch when all counted headers are one. -/
def verifyAnchor (cr : Crypto) (bundle : Option GetIndexAnchorResponse) (set : ValidatorSet) :
    Except Refusal VerifiedAnchor :=
  match bundle with
  | none => .error .noBundle
  | some bundle =>
    if !bundle.found then .error .noBundle
    else if set.leaves.isEmpty then .error .emptyValidatorSet
    else
      let (atCurrentEpoch, atNextEpoch) := countedProducers cr bundle set
      let next := cappedStakeOf set (· ∈ atNextEpoch)
      let union := cappedStakeOf set fun k => k ∈ atCurrentEpoch ∨ k ∈ atNextEpoch
      if quorumReached next.1 next.2 then
        .ok ⟨bundle.frontierRound, bundle.indexRoot, set.epoch + 1⟩
      else if quorumReached union.1 union.2 then
        .ok ⟨bundle.frontierRound, bundle.indexRoot, set.epoch⟩
      else .error (refusalError cr bundle set atCurrentEpoch atNextEpoch)

/-! ## Weights -/

/-- The exact weight of a list of leaves. -/
def totalWeight (leaves : List ValidatorLeaf) : Nat := total (·.cappedStake.toNat) leaves

theorem toNat_cappedStakeOf (set : ValidatorSet) (attesting : Hash → Bool) :
    (cappedStakeOf set attesting).1.toNat =
        min (totalWeight (set.leaves.filter fun l => attesting l.pubkey)) (2 ^ 64 - 1) ∧
      (cappedStakeOf set attesting).2.toNat = min (totalWeight set.leaves) (2 ^ 64 - 1) := by
  have hpart := toNat_foldl_safeAdd (·.cappedStake) (fun l : ValidatorLeaf => attesting l.pubkey)
    set.leaves 0
  have hwhole := toNat_foldl_safeAdd (·.cappedStake) (fun _ : ValidatorLeaf => true)
    set.leaves 0
  rw [UInt64.toNat_zero, Nat.zero_add] at hpart hwhole
  rw [cappedStakeOf, foldl_weights (·.cappedStake) fun l : ValidatorLeaf => attesting l.pubkey]
  rw [weigh_eq_total_filter] at hpart
  exact ⟨hpart, hwhole⟩

theorem cappedStakeOf_perm {leaves leaves' : List ValidatorLeaf} (h : leaves.Perm leaves')
    (epoch : UInt64) (attesting : Hash → Bool) :
    cappedStakeOf ⟨epoch, leaves⟩ attesting = cappedStakeOf ⟨epoch, leaves'⟩ attesting := by
  obtain ⟨hpart, hwhole⟩ := toNat_cappedStakeOf ⟨epoch, leaves⟩ attesting
  obtain ⟨hpart', hwhole'⟩ := toNat_cappedStakeOf ⟨epoch, leaves'⟩ attesting
  have htotal : ∀ {l l' : List ValidatorLeaf}, l.Perm l' → totalWeight l = totalWeight l' :=
    fun hp => weigh_perm _ _ hp
  rw [htotal (h.filter _), ← hpart'] at hpart
  rw [htotal h, ← hwhole'] at hwhole
  exact Prod.ext (UInt64.toNat_inj.1 hpart) (UInt64.toNat_inj.1 hwhole)

/-- While twice the total fits in 64 bits, what passes the test is a two-thirds quorum. -/
theorem quorum_of_quorumReached {set : ValidatorSet} {attesting : Hash → Bool}
    (hsat : 2 * totalWeight set.leaves < 2 ^ 64)
    (h : quorumReached (cappedStakeOf set attesting).1 (cappedStakeOf set attesting).2 = true) :
    2 * totalWeight set.leaves ≤
      3 * totalWeight (set.leaves.filter fun l => attesting l.pubkey) := by
  obtain ⟨hpart, hwhole⟩ := toNat_cappedStakeOf set attesting
  have h2 : (2 : UInt64).toNat = 2 := rfl
  have h3 : (3 : UInt64).toNat = 3 := rfl
  unfold quorumReached at h
  split at h
  · cases h
  · rw [decide_eq_true_eq, ge_iff_le, UInt64.le_iff_toNat_le, toNat_safeMul, toNat_safeMul, h2,
      h3, hpart, hwhole] at h
    omega

/-! ## What an accepted anchor stands on -/

/-- A key's valid signature on a header that names a frontier, a root and an epoch. -/
def SignsFor (cr : Crypto) (key : Hash) (frontier : UInt64) (root : Hash) (epoch : UInt64) :
    Prop :=
  ∃ header sig : Bytes, header.length = 120 ∧ sig.length = 64 ∧ header.take 32 = key.val ∧
    uint64BE (header.drop 40) = epoch ∧ uint64BE (header.drop 48) = frontier ∧
    (header.drop 56).take 32 = root.val ∧
    cr.ed25519Verify key.val (headerIdentity cr header).val sig = true

/-- Distinct members of at least two thirds of the weight signed for a frontier and a root,
each with one of the given epochs. -/
def Attested (cr : Crypto) (set : ValidatorSet) (frontier : UInt64) (root : Hash)
    (epochs : List UInt64) : Prop :=
  ∃ members : List ValidatorLeaf, members.Sublist set.leaves ∧
    (members.map (·.pubkey)).Nodup ∧ 2 * totalWeight set.leaves ≤ 3 * totalWeight members ∧
    ∀ m ∈ members, ∃ e ∈ epochs, SignsFor cr m.pubkey frontier root e

section Anchor

variable {cr : Crypto} {bundle : GetIndexAnchorResponse} {set : ValidatorSet}

theorem toHash_of_length {b : Bytes} (h : b.length = 32) : (toHash b).val = b := by
  have htake : b.take 32 = b := List.take_of_length_le h.le
  simp [toHash, htake, h]

theorem signsFor_of_parseAnchorRecord {record : Bytes} {header : AnchorHeader}
    (h : parseAnchorRecord cr record = some header) :
    SignsFor cr header.producer header.frontierRound header.indexRoot header.epoch := by
  unfold parseAnchorRecord at h
  split at h
  · cases h
  · rename_i hlen
    rw [not_not] at hlen
    dsimp only at h
    split at h
    · cases h
    · rename_i hsig
      cases h
      have hprod : (toHash ((record.take 120).take 32)).val = (record.take 120).take 32 :=
        toHash_of_length (by simp [hlen])
      have hroot : (toHash (((record.take 120).drop 56).take 32)).val =
          ((record.take 120).drop 56).take 32 := toHash_of_length (by simp [hlen])
      refine ⟨record.take 120, record.drop 120, by simp [hlen], by simp [hlen], hprod.symm, rfl,
        rfl, hroot.symm, ?_⟩
      simpa using hsig

/-- Every producer of a bucket signed the bundle's pair with the bucket's epoch. -/
def BucketsSigned (cr : Crypto) (bundle : GetIndexAnchorResponse) (set : ValidatorSet)
    (buckets : List Hash × List Hash) : Prop :=
  (∀ k ∈ buckets.1, SignsFor cr k bundle.frontierRound bundle.indexRoot set.epoch) ∧
    ∀ k ∈ buckets.2, SignsFor cr k bundle.frontierRound bundle.indexRoot (set.epoch + 1)

theorem BucketsSigned.countRecord {buckets : List Hash × List Hash}
    (h : BucketsSigned cr bundle set buckets) (record : Bytes) :
    BucketsSigned cr bundle set (countRecord cr bundle set buckets record) := by
  unfold Client.countRecord
  cases hparse : parseAnchorRecord cr record with
  | none => exact h
  | some header =>
    have hsigned := signsFor_of_parseAnchorRecord hparse
    dsimp only
    split
    · exact h
    · rename_i hattests
      simp only [attestsBundle, Bool.not_eq_true', Bool.not_eq_false, Bool.if_false_left,
        Bool.and_eq_true, Bool.not_eq_true', decide_eq_false_iff_not, decide_eq_true_eq,
        not_or, not_not, ne_eq] at hattests
      obtain ⟨⟨hfrontier, hroot⟩, hepoch⟩ := hattests
      rw [hfrontier, hroot] at hsigned
      split
      · exact h
      · split
        · rename_i hnext
          rw [hnext] at hsigned
          refine ⟨h.1, ?_⟩
          intro k hk
          rcases List.mem_insert_iff.1 hk with rfl | hk
          · exact hsigned
          · exact h.2 k hk
        · rename_i hnext
          rw [hepoch.resolve_right hnext] at hsigned
          refine ⟨?_, h.2⟩
          intro k hk
          rcases List.mem_insert_iff.1 hk with rfl | hk
          · exact hsigned
          · exact h.1 k hk

theorem bucketsSigned_countedProducers (cr : Crypto) (bundle : GetIndexAnchorResponse)
    (set : ValidatorSet) : BucketsSigned cr bundle set (countedProducers cr bundle set) := by
  suffices ∀ (records : List Bytes) (buckets : List Hash × List Hash),
      BucketsSigned cr bundle set buckets →
      BucketsSigned cr bundle set (records.foldl (countRecord cr bundle set) buckets) from
    this _ _ ⟨by simp, by simp⟩
  intro records
  induction records with
  | nil => intro buckets h; exact h
  | cons record rest ih => intro buckets h; exact ih _ (h.countRecord record)

/-- Producers that pass the quorum test and all signed attest the pair. -/
theorem attested_of_quorumReached {frontier : UInt64} {root : Hash} {epochs : List UInt64}
    (hkeys : (set.leaves.map (·.pubkey)).Nodup) (hsat : 2 * totalWeight set.leaves < 2 ^ 64)
    {attesting : Hash → Bool}
    (hsigned : ∀ k, attesting k = true → ∃ e ∈ epochs, SignsFor cr k frontier root e)
    (h : quorumReached (cappedStakeOf set attesting).1 (cappedStakeOf set attesting).2 = true) :
    Attested cr set frontier root epochs := by
  have hsub : (set.leaves.filter fun l => attesting l.pubkey).Sublist set.leaves :=
    List.filter_sublist
  refine ⟨_, hsub, (hsub.map _).nodup hkeys, quorum_of_quorumReached hsat h, ?_⟩
  intro m hm
  exact hsigned _ (List.mem_filter.1 hm).2

/-- What an anchor that is taken passed: a quorum of the next epoch's headers, or one of all
that count. -/
theorem verifyAnchor_cases {bundle : Option GetIndexAnchorResponse} {a : VerifiedAnchor}
    (h : verifyAnchor cr bundle set = .ok a) :
    ∃ b, bundle = some b ∧ set.leaves ≠ [] ∧ a.frontierRound = b.frontierRound ∧
      a.indexRoot = b.indexRoot ∧
      ((a.epoch = set.epoch + 1 ∧
          quorumReached (cappedStakeOf set (· ∈ (countedProducers cr b set).2)).1
            (cappedStakeOf set (· ∈ (countedProducers cr b set).2)).2 = true) ∨
        (a.epoch = set.epoch ∧
          quorumReached
            (cappedStakeOf set fun k =>
              k ∈ (countedProducers cr b set).1 ∨ k ∈ (countedProducers cr b set).2).1
            (cappedStakeOf set fun k =>
              k ∈ (countedProducers cr b set).1 ∨
                k ∈ (countedProducers cr b set).2).2 = true)) := by
  cases bundle with
  | none => cases h
  | some b =>
    simp only [verifyAnchor] at h
    split at h
    · cases h
    split at h
    · cases h
    rename_i hne
    have hset : set.leaves ≠ [] := by simpa using hne
    split at h
    · rename_i hquorum
      cases h
      exact ⟨b, rfl, hset, rfl, rfl, .inl ⟨rfl, hquorum⟩⟩
    split at h
    · rename_i hquorum
      cases h
      exact ⟨b, rfl, hset, rfl, rfl, .inr ⟨rfl, hquorum⟩⟩
    · cases h

theorem attested_of_next (hkeys : (set.leaves.map (·.pubkey)).Nodup)
    (hsat : 2 * totalWeight set.leaves < 2 ^ 64) {epochs : List UInt64}
    (hepochs : set.epoch + 1 ∈ epochs)
    (h : quorumReached (cappedStakeOf set (· ∈ (countedProducers cr bundle set).2)).1
      (cappedStakeOf set (· ∈ (countedProducers cr bundle set).2)).2 = true) :
    Attested cr set bundle.frontierRound bundle.indexRoot epochs := by
  refine attested_of_quorumReached hkeys hsat ?_ h
  intro k hk
  exact ⟨_, hepochs, (bucketsSigned_countedProducers cr bundle set).2 k (of_decide_eq_true hk)⟩

end Anchor

/-- An anchor is taken only with two thirds of the set's weight behind its frontier and
root, and attributed to the next epoch only with two thirds on headers of that epoch. -/
theorem verifyAnchor_attested (cr : Crypto) (bundle : Option GetIndexAnchorResponse)
    (set : ValidatorSet) (hkeys : (set.leaves.map (·.pubkey)).Nodup)
    (hsat : 2 * totalWeight set.leaves < 2 ^ 64)
    (a : VerifiedAnchor) (h : verifyAnchor cr bundle set = .ok a) :
    Attested cr set a.frontierRound a.indexRoot [set.epoch, set.epoch + 1] ∧
      (a.epoch = set.epoch ∨ a.epoch = set.epoch + 1) ∧
      (a.epoch = set.epoch + 1 →
        Attested cr set a.frontierRound a.indexRoot [set.epoch + 1]) := by
  obtain ⟨b, rfl, -, hfrontier, hroot, ⟨hepoch, hquorum⟩ | ⟨hepoch, hquorum⟩⟩ :=
    verifyAnchor_cases h
  · rw [hfrontier, hroot]
    exact ⟨attested_of_next hkeys hsat (by simp) hquorum, .inr hepoch,
      fun _ => attested_of_next hkeys hsat (by simp) hquorum⟩
  · obtain ⟨hcurrent, hnext⟩ := bucketsSigned_countedProducers cr b set
    rw [hfrontier, hroot]
    refine ⟨?_, .inl hepoch, ?_⟩
    · apply attested_of_quorumReached hkeys hsat _ hquorum
      intro k hk
      rcases of_decide_eq_true hk with hk | hk
      · exact ⟨set.epoch, by simp, hcurrent k hk⟩
      · exact ⟨set.epoch + 1, by simp, hnext k hk⟩
    · intro heq
      -- The two epochs of the window differ, even at the last 64-bit value.
      rw [hepoch] at heq
      exact absurd heq (by simp)

/-- A member's record at a frontier, signed the way the worked network accepts. -/
def soloRecord (key : Hash) (epoch frontier : UInt64) (root : Hash) : Bytes :=
  let header := key.val ++ (putUint64BE 0 ++ (putUint64BE epoch ++ (putUint64BE frontier ++
    (root.val ++ zeroHash.val))))
  header ++ (key.val ++ (headerIdentity soloCrypto header).val)

/-- Three members of weight one. -/
def trio : ValidatorSet where
  epoch := 4
  leaves := [1, 2, 3].map fun k => ⟨idOf k, 1, soloBLSKey, 0⟩

/-- Two members name the next epoch, one of them twice; the third names the current one. -/
def trioBundle : GetIndexAnchorResponse where
  found := true
  frontierRound := 90
  indexRoot := idOf 7
  headers := [soloRecord (idOf 1) 5 90 (idOf 7), soloRecord (idOf 1) 5 90 (idOf 7),
    soloRecord (idOf 2) 5 90 (idOf 7), soloRecord (idOf 3) 4 90 (idOf 7)]

theorem verifyAnchor_attested_trio :
    verifyAnchor soloCrypto (some trioBundle) trio = .ok ⟨90, idOf 7, 5⟩ ∧
      Attested soloCrypto trio 90 (idOf 7) [5] := by
  have h : verifyAnchor soloCrypto (some trioBundle) trio = .ok ⟨90, idOf 7, 5⟩ := by
    decide +kernel
  have hall := verifyAnchor_attested soloCrypto (some trioBundle) trio (by decide)
    (by decide +kernel) ⟨90, idOf 7, 5⟩ h
  exact ⟨h, hall.2.2 rfl⟩

end BluePods.Client
