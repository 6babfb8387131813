import BluePods.Pod

/-! The commit path of one attested transaction: the gates before any charge, fee
deduction, declared operations, ownership, stake handlers, deletion settlement and the
hand-over to the pod. -/

namespace BluePods

/-! ## Fees -/

def registerValidatorFunc : Bytes := ascii "register_validator"
def deregisterValidatorFunc : Bytes := ascii "deregister_validator"
def bondFunc : Bytes := ascii "bond"
def unbondFunc : Bytes := ascii "unbond"
def delegateFunc : Bytes := ascii "delegate"
def undelegateFunc : Bytes := ascii "undelegate"

/-- The transaction calls a function of the system pod. -/
def Node.isSystemFunc (nd : Node) (tx : Transaction) (fn : Bytes) : Bool :=
  tx.pod == nd.systemPod.val && tx.functionName == fn

namespace Ledger

/-- The gas coin is stored, a singleton, and owned by whoever pays. -/
def validateGasCoin (st : Ledger) (tx : Transaction) (gasCoinID : Hash) : Bool :=
  match st.getObject gasCoinID with
  | none => false
  | some o =>
    if o.replication ≠ 0 then false
    else
      match hash32 o.owner, hash32 tx.payer with
      | some owner, some payer => owner = payer
      | _, _ => false

/-- The ledger, the split, the withheld deposit, and whether to go on. -/
structure FeeResult where
  ledger : Ledger
  split : FeeSplit := {}
  withheld : UInt64 := 0
  proceed : Bool

/-- Charge the fee to the gas coin. Only a registration or a deregistration may come
without one. -/
def deductFees (st : Ledger) (nd : Node) (tx : Transaction) (atx : AttestedTransaction) :
    FeeResult :=
  match tx.txGasCoinID with
  | none =>
    { ledger := st
      proceed := nd.isSystemFunc tx registerValidatorFunc ||
        nd.isSystemFunc tx deregisterValidatorFunc }
  | some gasCoinID =>
    if tx.maxGas < nd.feeParams.minGas then { ledger := st, proceed := false }
    else if !st.validateGasCoin tx gasCoinID then { ledger := st, proceed := false }
    else
      let (consumed, storage) :=
        calculateTxFeeSplit nd.computeHolders nd.feeParams st.validators.len tx atx
      let fee := consumed + storage
      if fee = 0 then { ledger := st, proceed := true }
      else
        match st.deductCoinFee gasCoinID fee with
        | .error _ => { ledger := st, proceed := false }
        | .ok (st, deducted, fullyCovered) =>
          if !fullyCovered then
            { ledger := st, split := { total := fee, epoch := deducted }, proceed := false }
          else
            { ledger := st, split := splitFee consumed nd.feeParams, withheld := storage,
              proceed := true }

/-! ## Ownership -/

end Ledger

/-- The owner the wrapper gives a replicated object: its first entry with a positive
replication and that identifier. -/
def attestedReplicatedOwner (atx : AttestedTransaction) (objectID : Hash) : Option Hash :=
  (atx.objects.find? fun o => o.replication ≠ 0 ∧ o.id = objectID.val).bind
    fun o => hash32 o.owner

namespace Ledger

/-- The owner a mutable reference is checked against: the wrapper's, else the local
body's. -/
def mutableRefOwner (st : Ledger) (atx : AttestedTransaction) (objectID : Hash) :
    Option Hash :=
  match attestedReplicatedOwner atx objectID with
  | some owner => some owner
  | none => (st.getObject objectID).bind fun o => hash32 o.owner

/-- A domain reference is accepted here; an object has to be the sender's. -/
def mutableRefOwnedBy (st : Ledger) (atx : AttestedTransaction) (sender : Hash)
    (r : ObjectRef) : Bool :=
  match r.refID with
  | none => !r.domain.isEmpty
  | some id => st.mutableRefOwner atx id = some sender

def validateMutableRefOwnership (st : Ledger) (atx : AttestedTransaction) (tx : Transaction) :
    Bool :=
  if tx.mutableRefs.length = 0 then true
  else
    match hash32 tx.sender with
    | none => false
    | some sender => tx.mutableRefs.all (st.mutableRefOwnedBy atx sender)

/-! ## Registration -/

inductive RegisterError
  | panicked
  | blsPoPInvalid
  deriving DecidableEq

/-- The coin a registration's rewards go to: the designated one, else its gas coin. -/
def rewardCoinFromArgs (tx : Transaction) (args : RegisterArgs) : Option Hash :=
  match hash32 args.rewardCoin with
  | some coin => some coin
  | none => tx.txGasCoinID

/-- Admit the sender to the validator set, if it proves possession of the key it
claims. -/
def handleRegisterValidator (st : Ledger) (nd : Node) (tx : Transaction) :
    Except RegisterError Ledger :=
  if !nd.isSystemFunc tx registerValidatorFunc then .ok st
  else
    match hash32 tx.sender with
    | none => .ok st
    | some pubkey =>
      match decodeRegisterValidatorArgs tx.args with
      | none => .error .panicked
      | some args =>
        match verifiedRegistrationBLSKey nd.crypto pubkey args.blsPubkey args.blsPoP with
        | none => .error .blsPoPInvalid
        | some blsPubkey =>
          let validators := st.validators.add pubkey args.quicAddr blsPubkey
          let isMember := decide (pubkey ∈ st.committedMembers)
          .ok { st with
            validators :=
              match rewardCoinFromArgs tx args with
              | some coin => validators.setRewardCoin pubkey coin
              | none => validators
            committedMembers :=
              if isMember then st.committedMembers else st.committedMembers ++ [pubkey]
            epochAdditions :=
              if !isMember && nd.epochs.epochLength > 0 then st.epochAdditions ++ [pubkey]
              else st.epochAdditions }

def handleDeregisterValidator (st : Ledger) (nd : Node) (tx : Transaction) : Ledger :=
  if !nd.isSystemFunc tx deregisterValidatorFunc then st
  else
    match hash32 tx.sender with
    | none => st
    | some pubkey =>
      if pubkey ∈ st.pendingRemovals then st
      else { st with pendingRemovals := st.pendingRemovals ++ [pubkey] }

end Ledger

/-! ## Stake -/

/-- Sender, coin and amount of a bond or unbond. -/
def parseStakeTx (nd : Node) (tx : Transaction) (fn : Bytes) : Option (Hash × Hash × UInt64) := do
  if !nd.isSystemFunc tx fn then none
  let sender ← hash32 tx.sender
  let coinID ← tx.firstMutableRefID
  if tx.args.length < 8 ∨ uint64LE tx.args = 0 then none
  return (sender, coinID, uint64LE tx.args)

/-- Delegator, coin, validator and amount of a delegation; an undelegation declares no
amount. -/
def parseDelegateTx (nd : Node) (tx : Transaction) (fn : Bytes) (withAmount : Bool) :
    Option (Hash × Hash × Hash × UInt64) := do
  if !nd.isSystemFunc tx fn then none
  let delegator ← hash32 tx.sender
  let coinID ← tx.firstMutableRefID
  if tx.args.length < (if withAmount then 40 else 32) then none
  let validator ← hash32 (tx.args.take 32)
  let amount := if withAmount then uint64LE (tx.args.drop 32) else 0
  if withAmount ∧ amount = 0 then none
  return (delegator, coinID, validator, amount)

/-- The identifier of the one position a delegator has with a validator. -/
def delegationID (cr : Crypto) (delegator validator : Hash) : Hash :=
  cr.blake3 (ascii "bluepods/delegation/v1" ++ delegator.val ++ validator.val)

/-- A stake position. -/
def buildDelegationObject (cr : Crypto) (delegator validator : Hash) (amount : UInt64) :
    Object where
  id := (delegationID cr delegator validator).val
  version := 0
  owner := delegator.val
  replication := 0
  content := validator.val ++ putUint64LE amount

def decodeDelegationContent (content : Bytes) : Option (Hash × UInt64) :=
  if content.length ≠ 40 then none
  else (hash32 (content.take 32)).map fun v => (v, uint64LE (content.drop 32))

namespace Ledger

/-- Move an amount from the coin to the sender's own stake. -/
def handleBond (st : Ledger) (nd : Node) (tx : Transaction) : Option Ledger := do
  let (sender, coinID, amount) ← parseStakeTx nd tx bondFunc
  let current ← st.validators.get sender
  let newStake := safeAdd current.selfStake amount
  if newStake < nd.minStake then none
  let st ← st.strictDebit coinID amount
  return { st with validators := st.validators.setSelfStake sender newStake }

/-- Move an amount from the sender's own stake back to the coin; what stays is zero or
at least the minimum. -/
def handleUnbond (st : Ledger) (nd : Node) (tx : Transaction) : Option Ledger := do
  let (sender, coinID, amount) ← parseStakeTx nd tx unbondFunc
  let current ← st.validators.get sender
  if current.selfStake < amount then none
  let remaining := current.selfStake - amount
  if nd.minStake > 0 ∧ remaining > 0 ∧ remaining < nd.minStake then none
  let st ← (st.creditCoin coinID amount).toOption
  return { st with validators := st.validators.setSelfStake sender remaining }

/-- Move an amount from the coin to a validator's delegated total, and record the
position. -/
def handleDelegate (st : Ledger) (nd : Node) (tx : Transaction) : Option Ledger := do
  let (delegator, coinID, validator, amount) ← parseDelegateTx nd tx delegateFunc true
  let target ← st.validators.get validator
  if target.jailed then none
  let st ← st.strictDebit coinID amount
  let st := st.setObject (buildDelegationObject nd.crypto delegator validator amount)
  return { st with validators := st.validators.addDelegated validator amount }

def readDelegationAmount (st : Ledger) (posID validator : Hash) : Option UInt64 := do
  let o ← st.getObject posID
  let (target, amount) ← decodeDelegationContent o.content
  if target ≠ validator then none else some amount

/-- Destroy a position and credit its amount to the coin. -/
def handleUndelegate (st : Ledger) (nd : Node) (tx : Transaction) : Option Ledger := do
  let (delegator, coinID, validator, _) ← parseDelegateTx nd tx undelegateFunc false
  let posID := delegationID nd.crypto delegator validator
  let amount ← st.readDelegationAmount posID validator
  let st ← (st.creditCoin coinID amount).toOption
  let st := st.deleteObject posID
  return { st with validators := st.validators.subDelegated validator amount }

/-- The four stake handlers in turn; a handler that does not apply leaves the ledger. -/
def handleStake (st : Ledger) (nd : Node) (tx : Transaction) : Ledger :=
  let st := (st.handleBond nd tx).getD st
  let st := (st.handleUnbond nd tx).getD st
  let st := (st.handleDelegate nd tx).getD st
  (st.handleUndelegate nd tx).getD st

/-! ## Declared deletions -/

/-- Settle every declared deletion among the mutable references, or none when one of
them still has children. -/
def settleDeclaredDeletions (st : Ledger) (p : FeeParams) (tx : Transaction) : Option Ledger :=
  let targets := ownedDeletedRefs tx
  if targets.any fun id => st.tracker.childCount id ≠ 0 then none
  else some (targets.foldl (fun st id => (st.settleDeletion p id tx.txGasCoinID).1) st)

/-- This node holds one of the mutable references, or there are none. -/
def shouldExecute (nd : Node) (atx : AttestedTransaction) (tx : Transaction) : Bool :=
  let repMap := buildReplicationMap atx
  tx.mutableRefIDs.any (fun id => nd.isHolder id ((repMap.lookup id).getD 0)) ||
    tx.mutableRefs.length == 0

end Ledger

/-! ## One transaction -/

/-- How a transaction leaves the commit path. -/
inductive Exit
  | nilTx
  | proofFailed
  | authenticityFailed
  | malformedShape
  | expiredSponsorship
  | duplicate
  | versionConflict
  | feeRejected
  | declaredOps (applied : Bool)
  | ownership
  | panicked
  | blsPoPInvalid
  | deleteHasChildren
  | notHolder
  | executed
  | executionError
  deriving DecidableEq

structure Outcome where
  ledger : Ledger
  split : FeeSplit := {}
  exit : Exit

/-- A sponsored transaction carries a bound that has not passed. -/
def sponsoredTxStillValid (nd : Node) (tx : Transaction) (commitRound : Nat) : Bool :=
  if !tx.isSponsored then true
  else if tx.validUntil = 0 then false
  else decide (nd.epochs.commitEpochForRound commitRound ≤ tx.validUntil.toNat)

namespace Ledger

def markCommitted (st : Ledger) (tx : Transaction) : Ledger :=
  match tx.txCommitHash with
  | none => st
  | some h => { st with committedTxs := h :: st.committedTxs }

def wasCommitted (st : Ledger) (tx : Transaction) : Bool :=
  match tx.txCommitHash with
  | none => false
  | some h => h ∈ st.committedTxs

/-- The gates before any charge, up to the version check that raises the versions of the
mutable references. `verdict` is the proof stage's answer for this transaction. -/
def admitTx (st : Ledger) (nd : Node) (atx : AttestedTransaction) (commitRound : Nat)
    (verdict : Option ProofError) : Except Outcome (Transaction × Ledger) :=
  match atx.transaction with
  | none => .error { ledger := st, exit := .nilTx }
  | some tx =>
    if verdict.isSome then .error { ledger := st, exit := .proofFailed }
    else
      match verifyTxAuthenticity nd.crypto nd.unsignedTxBytes tx with
      | .error _ => .error { ledger := st, exit := .authenticityFailed }
      | .ok () =>
        match validateShape tx with
        | .error _ => .error { ledger := st, exit := .malformedShape }
        | .ok () =>
          if !sponsoredTxStillValid nd tx commitRound then
            .error { ledger := st, exit := .expiredSponsorship }
          else if st.wasCommitted tx then .error { ledger := st, exit := .duplicate }
          else
            let st := st.markCommitted tx
            match st.tracker.checkAndUpdate tx with
            | none => .error { ledger := st, exit := .versionConflict }
            | some tracker => .ok (tx, { st with tracker })

/-- Apply the declared operations. The withheld deposit goes to the pool either way. -/
def commitDeclaredOps (st : Ledger) (nd : Node) (tx : Transaction) (commitRound : Nat)
    (split : FeeSplit) (withheld : UInt64) : Outcome :=
  let applied :=
    if tx.txHasPodCall || tx.createdObjectsReplication.length ≠ 0 then none
    else st.handleDeclaredOps nd.feeParams tx
      (UInt64.ofNat (nd.epochs.commitEpochForRound commitRound))
  { ledger := applied.getD st
    split := poolUnlockedStorage split withheld
    exit := .declaredOps applied.isSome }

/-- What follows the fee for a pod call: ownership, registration, stake, deletions, and
the holder check. The early exits return the split as it is. -/
def settleTx (st : Ledger) (nd : Node) (tx : Transaction) (atx : AttestedTransaction)
    (split : FeeSplit) : Except Outcome Ledger :=
  if !st.validateMutableRefOwnership atx tx then
    .error { ledger := st, split, exit := .ownership }
  else
    match st.handleRegisterValidator nd tx with
    | .error .panicked => .error { ledger := st, split, exit := .panicked }
    | .error .blsPoPInvalid => .error { ledger := st, split, exit := .blsPoPInvalid }
    | .ok st =>
      let st := (st.handleDeregisterValidator nd tx).handleStake nd tx
      match st.settleDeclaredDeletions nd.feeParams tx with
      | none => .error { ledger := st, split, exit := .deleteHasChildren }
      | some st =>
        if tx.createdObjectsReplication.length = 0 ∧ !shouldExecute nd atx tx then
          .error { ledger := st, split, exit := .notHolder }
        else .ok st

/-- Run the pod. A failed call has no effect, and its withheld deposit goes to the
pool. -/
def runPod (st : Ledger) (nd : Node) (tx : Transaction) (atx : AttestedTransaction)
    (split : FeeSplit) (withheld : UInt64) : Outcome :=
  match st.execute nd tx atx with
  | .ok st => { ledger := st, split, exit := .executed }
  | .error _ =>
    { ledger := st, split := poolUnlockedStorage split withheld, exit := .executionError }

/-- Everything before the pod call: an exit, or the ledger, the split and the withheld
deposit the pod call starts from. -/
def prepareTx (st : Ledger) (nd : Node) (atx : AttestedTransaction) (commitRound : Nat)
    (verdict : Option ProofError) :
    Except Outcome (Transaction × Ledger × FeeSplit × UInt64) := do
  let (tx, st) ← st.admitTx nd atx commitRound verdict
  let fees := st.deductFees nd tx atx
  if !fees.proceed then
    throw { ledger := fees.ledger, split := fees.split, exit := .feeRejected }
  if tx.operations.length > 0 then
    throw (fees.ledger.commitDeclaredOps nd tx commitRound fees.split fees.withheld)
  let st ← fees.ledger.settleTx nd tx atx fees.split
  return (tx, st, fees.split, fees.withheld)

/-- Commit one attested transaction. -/
def executeTx (st : Ledger) (nd : Node) (atx : AttestedTransaction) (commitRound : Nat)
    (verdict : Option ProofError) : Outcome :=
  match st.prepareTx nd atx commitRound verdict with
  | .error out => out
  | .ok (tx, st, split, withheld) => st.runPod nd tx atx split withheld

end Ledger

/-! ## A worked network

One validator and a second user, each with a coin. The hash is a checksum, a signature
is the key followed by the message, and an aggregated signature starts with the message
and the keys. -/

def soloCrypto : Crypto where
  blake3 b := toHash (putUint64LE (b.foldl (fun acc x => acc * 257 + UInt64.ofNat x.val) 1))
  ed25519Verify key msg sig := sig == key ++ msg
  blsVerifyAggregated sig msg keys := (msg ++ keys.flatten).isPrefixOf sig
  blsVerifyPossession proof _ key := proof == key

def soloBLSKey : BLSKey := ⟨1 :: List.replicate 47 0, by decide⟩

def soloValidators : ValidatorSet :=
  ⟨[{ pubkey := idOf 1, blsPubkey := soloBLSKey, selfStake := 1000 }], by decide⟩

def soloNode (pods : Hash → PodInput → Except Unit (Option PodOutput)) : Node where
  crypto := soloCrypto
  unsignedTxBytes u := u.sender ++ u.pod.val ++ u.functionName ++ u.args ++ u.gasCoin ++
    u.mutableRefs.flatMap fun r => r.id.val
  systemPod := idOf 200
  feeParams := defaultFeeParams
  epochs :=
    { holdersForEpoch := fun _ => some soloValidators
      commitEpochForRound := fun _ => 0
      epochLength := 0
      graceRounds := epochGraceRounds }
  computeHolders := computeHolders soloCrypto soloValidators
  isHolder _ _ := true
  pods := pods

/-- A pod that answers every call with one output. -/
def podReturning (output : PodOutput) : Hash → PodInput → Except Unit (Option PodOutput) :=
  fun _ _ => .ok (some output)

def coinObject (id owner : Hash) (balance : UInt64) : Object where
  id := id.val
  version := 0
  owner := owner.val
  replication := 0
  content := putUint64LE balance

def soloLedger : Ledger where
  objects := (ObjectStore.empty.set (coinObject (idOf 11) (idOf 1) 10000)).set
    (coinObject (idOf 12) (idOf 2) 10000)
  validators := soloValidators
  totalSupply := 21000
  coinsTotal := 20000

/-- Fill in the hash and the signatures the worked network accepts. -/
def signedTx (tx : Transaction) : Transaction :=
  let hash := (bodyHash soloCrypto (soloNode (podReturning {})).unsignedTxBytes tx).val
  { tx with
    hash
    signature := tx.sender ++ hash
    sponsorSignature := tx.feePayer ++ hash }

/-- A transaction of the first user that declares created objects and references a coin. -/
def creatingBody (coin : Hash) (reps : List UInt16) : Transaction :=
  signedTx
    { sender := (idOf 1).val
      pod := (idOf 7).val
      functionName := ascii "create"
      gasCoin := (idOf 11).val
      maxGas := 100
      createdObjectsReplication := reps
      mutableRefs := [{ id := coin.val }] }

def creatingTx (coin : Hash) (reps : List UInt16) : AttestedTransaction where
  transaction := some (creatingBody coin reps)

/-- The validator's proof for an object of replication one. -/
def soloProof (o : Object) : QuorumProof where
  objectID := o.id
  blsSignature := (computeObjectHash soloCrypto o.content o.version o.owner).val ++
    soloBLSKey.val ++ List.replicate 16 0
  signerBitmap := [1]

end BluePods
