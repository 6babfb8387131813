import BluePods.Stake
import BluePods.Store

/-! The consensus state the anchor rule reads: holder snapshots by epoch, frozen
eligibility, the commit regime, and the designated producer of a round. -/

namespace BluePods

/-- The holder snapshots published together with the epoch they belong to. -/
structure EpochSnapshot where
  epoch : Nat
  holders : Option ValidatorSet
  prev : Option ValidatorSet := none
  next : Option ValidatorSet := none

/-- The index history a node checks anchors against. -/
structure Indexer where
  committedFrontier : Nat
  rootAt : Nat → Option Hash

/-- The fields of the node's DAG that ordering and validation read. An eligible set
that was never frozen is `none`, and so is a transition that has not started. -/
structure DAG where
  store : Store
  epochMirror : Option EpochSnapshot
  validators : ValidatorSet
  currentEpoch : Nat := 0
  eligibleHolders : Option (List Hash) := none
  prevEligibleHolders : Option (List Hash) := none
  nextEligibleHolders : Option (List Hash) := none
  epochLength : Nat := 0
  votingCapMille : UInt64
  minValidators : Nat := 0
  strictLatched : Bool := false
  strictStartRound : Nat := 0
  currentRound : Nat := 0
  isBootstrap : Bool := false
  transitionRound : Option Nat := none
  graceRounds : Nat := 0
  bufferRounds : Nat := 0
  fullQuorumAchieved : Bool := false
  syncModeActive : Bool := false
  trustedProducers : List Hash := []
  indexer : Option Indexer := none

/-- The same node over another view of the vertices. -/
def DAG.withStore (d : DAG) (s : Store) : DAG := { d with store := s }

namespace DAG

@[simp] theorem withStore_store (d : DAG) (s : Store) : (d.withStore s).store = s := rfl

/-- The epoch whose holders serve a committed round: a boundary round is committed
before the transition, so it still belongs to the epoch it closes. -/
def commitEpochForRound (d : DAG) (round : Nat) : Nat :=
  if d.epochLength = 0 then 0
  else
    let epoch := round / d.epochLength
    if 0 < epoch ∧ round % d.epochLength = 0 then epoch - 1 else epoch

/-- The holder snapshot of an epoch: current, previous, or the forward proxy. -/
def holdersForEpoch (d : DAG) (epoch : Nat) : Option ValidatorSet :=
  match d.epochMirror with
  | none => none
  | some snap =>
    if epoch = snap.epoch then snap.holders
    else if 0 < snap.epoch ∧ epoch = snap.epoch - 1 ∧ snap.prev.isSome then snap.prev
    else if epoch = snap.epoch + 1 then
      match snap.next with
      | some next => some next
      | none => if snap.epoch = 0 then snap.holders else none
    else none

/-- The eligible set frozen with the snapshot `holdersForEpoch` serves. -/
def eligibleForEpoch (d : DAG) (epoch : Nat) : Option (List Hash) :=
  if epoch = d.currentEpoch then d.eligibleHolders
  else if 0 < d.currentEpoch ∧ epoch = d.currentEpoch - 1 then d.prevEligibleHolders
  else if epoch = d.currentEpoch + 1 then
    match d.nextEligibleHolders with
    | some next => some next
    | none => if d.currentEpoch = 0 then d.eligibleHolders else none
  else none

/-- A round decided under the relaxed bootstrap certificate. -/
def roundIsRelaxed (d : DAG) (round : Nat) : Bool :=
  if d.minValidators = 0 then false
  else !d.strictLatched || decide (round < d.strictStartRound)

/-- Strictness starts at one round and holds from there on. -/
theorem roundIsRelaxed_mono {d : DAG} {r r' : Nat} (h : r ≤ r')
    (hr : d.roundIsRelaxed r = false) : d.roundIsRelaxed r' = false := by
  unfold roundIsRelaxed at hr ⊢
  split at hr
  · rename_i h0
    simp [h0]
  · rename_i h0
    simp only [h0, if_false, Bool.or_eq_false_iff, decide_eq_false_iff_not] at hr ⊢
    exact ⟨hr.1, by omega⟩

end DAG

/-- A snapshot's sorted keys restricted to the eligible ones, or all of them while
none is eligible. -/
def eligibleKeys (holders : ValidatorSet) (eligible : Option (List Hash)) : List Hash :=
  let keys := holders.sortedKeys
  let filtered := keys.filter fun k => k ∈ eligible.getD []
  if (eligible.getD []).isEmpty then keys
  else if filtered.isEmpty then keys else filtered

/-- The bytes of `bluepods/anchor/v1`. -/
def anchorDomain : Bytes :=
  [98, 108, 117, 101, 112, 111, 100, 115, 47, 97, 110, 99, 104, 111, 114, 47, 118, 49]

/-- The designated producer of a round, drawn from the eligible holders by the hash
of the round. -/
def DAG.anchorProducerFor (cr : Crypto) (d : DAG) (round : Nat) : Option Hash :=
  let epoch := d.commitEpochForRound round
  match d.holdersForEpoch epoch with
  | none => none
  | some holders =>
    if holders.len = 0 then none
    else
      let keys := eligibleKeys holders (d.eligibleForEpoch epoch)
      let h := cr.blake3 (anchorDomain ++ putUint64LE (UInt64.ofNat round))
      keys[(uint64LE h.val).toNat % keys.length]?

end BluePods
