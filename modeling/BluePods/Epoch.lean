import BluePods.Round
import BluePods.Settlement

/-! A node's committed state over the rounds: the ledger, the epoch and its frozen holder
sets, the fee and liveness buckets, and what applying a batch and crossing an epoch
boundary does to them. -/

namespace BluePods

/-! ## Frozen holder sets -/

namespace ValidatorSet

def empty : ValidatorSet := ⟨[], List.nodup_nil⟩

/-- Add a validator with its stake; a known one takes over the stake fields. The reward
coin is not carried. -/
def addWithStake (vs : ValidatorSet) (v : ValidatorInfo) : ValidatorSet :=
  if h : v.pubkey ∈ vs.all.map (·.pubkey) then
    vs.modify v.pubkey (fun w =>
      { w with selfStake := v.selfStake, delegatedTotal := v.delegatedTotal, jailed := v.jailed })
      fun _ => rfl
  else
    { all := vs.all ++ [{ v with rewardCoin := zeroHash }]
      nodup := by
        rw [List.map_append, List.nodup_append]
        simpa using ⟨vs.nodup, fun a ha he => h (he ▸ List.mem_map_of_mem ha)⟩ }

end ValidatorSet

/-- A holder set as it is frozen: no member carries a reward coin. -/
structure HolderSet extends ValidatorSet where
  coinless : ∀ v ∈ all, v.rewardCoin = zeroHash
  deriving DecidableEq

namespace HolderSet

def empty : HolderSet := { ValidatorSet.empty with coinless := by simp [ValidatorSet.empty] }

def addWithStake (hs : HolderSet) (v : ValidatorInfo) : HolderSet :=
  { hs.toValidatorSet.addWithStake v with
    coinless := by
      intro w hw
      simp only [ValidatorSet.addWithStake] at hw
      split at hw
      · simp only [ValidatorSet.modify, Lib.Tally.update] at hw
        obtain ⟨u, hu, rfl⟩ := List.mem_map.1 hw
        split <;> exact hs.coinless u hu
      · rcases List.mem_append.1 hw with hw | hw
        · exact hs.coinless w hw
        · rw [List.mem_singleton.1 hw] }

/-- A frozen copy of some validators. -/
def freeze (vals : List ValidatorInfo) : HolderSet := vals.foldl addWithStake empty

end HolderSet

/-! ## The state -/

/-- The epoch counter, the holder sets of three epochs, the members that have produced and
the eligible sets frozen from them, and the strict-regime latch. -/
structure Regime where
  currentEpoch : UInt64 := 0
  epochHolders : Option HolderSet := none
  prevEpochHolders : Option HolderSet := none
  nextEpochHolders : Option HolderSet := none
  producedMembers : List Hash := []
  eligibleHolders : Option (List Hash) := none
  prevEligibleHolders : Option (List Hash) := none
  nextEligibleHolders : Option (List Hash) := none
  strictLatched : Bool := false
  strictStartRound : UInt64 := 0

/-- Rounds produced by each producer. A bucket is created for its first credit. -/
abbrev Counters := {m : Finmap fun _ : Hash => UInt64 // m ≠ ∅}

/-- Fees and liveness of the epochs not yet settled. -/
structure Buckets where
  epochFees : Finmap fun _ : UInt64 => UInt64 := ∅
  epochRoundsProduced : Finmap fun _ : UInt64 => Counters := ∅

/-- The metadata records of the consensus state. -/
inductive MetaKey
  | commitCursor
  | currentEpoch
  | epochHolders
  | prevEpochHolders
  | nextEpochHolders
  | strictStartRound
  | producedMembers
  | eligibleHolders
  | prevEligibleHolders
  | nextEligibleHolders
  | committedMembers
  | liveValidators
  | epochFees
  | epochRoundsProduced
  | epochAdditions
  | pendingRemovals
  deriving DecidableEq

abbrev Meta := MetaKey → Option Bytes

/-- A running node. Objects, tracker, commit marks, domains, supply counters and vertex
flags are written to the store as they change, the rest only with the metadata. The
sharding reads the live validators until the first boundary since the start, and from then
on the holders of the last one. -/
structure Chain where
  ledger : Ledger
  regime : Regime := {}
  buckets : Buckets := {}
  lastCommitted : UInt64 := 0
  issuanceRateMicro : UInt64 := 0
  regimeDirty : Bool := false
  producedDirty : Bool := false
  rendezvous : Option ValidatorSet := none
  committedVertices : List Hash := []
  persisted : Meta := fun _ => none

/-! ## Rounds and epochs -/

def Config.isEpochBoundary (cfg : Config) (round : UInt64) : Bool :=
  if cfg.epochLength = 0 then false
  else if round = 0 then false
  else round % cfg.epochLength == 0

/-- The epoch a round belongs to; a boundary round belongs to the epoch it closes. -/
def Config.commitEpochForRound (cfg : Config) (round : UInt64) : UInt64 :=
  if cfg.epochLength = 0 then 0
  else
    let epoch := round / cfg.epochLength
    if epoch > 0 ∧ round % cfg.epochLength = 0 then epoch - 1 else epoch

/-- The holder set of an epoch: current, previous, or the forward proxy. -/
def Regime.holdersForEpoch (r : Regime) (epoch : Nat) : Option HolderSet :=
  if epoch = r.currentEpoch.toNat then r.epochHolders
  else if 0 < r.currentEpoch.toNat ∧ epoch = r.currentEpoch.toNat - 1 ∧
      r.prevEpochHolders.isSome then
    r.prevEpochHolders
  else if epoch = r.currentEpoch.toNat + 1 then
    match r.nextEpochHolders with
    | some next => some next
    | none => if r.currentEpoch = 0 then r.epochHolders else none
  else none

/-- This node holds every singleton, and the replicated objects it is a holder of. -/
def Config.isHolder (cfg : Config) (vs : ValidatorSet) (id : Hash) (replication : UInt16) : Bool :=
  replication = 0 ∨ cfg.self ∈ computeHolders cfg.crypto vs id replication.toNat

namespace Chain

/-- The set object holders are drawn from. -/
def sharding (c : Chain) : ValidatorSet := c.rendezvous.getD c.ledger.validators

/-- What the commit path is wired with at this state. -/
def node (cfg : Config) (c : Chain) : Node where
  crypto := cfg.crypto
  unsignedTxBytes := cfg.unsignedTxBytes
  systemPod := cfg.systemPod
  feeParams := cfg.feeParams
  epochs :=
    { holdersForEpoch := fun epoch => (c.regime.holdersForEpoch epoch).map (·.toValidatorSet)
      commitEpochForRound := fun round => (cfg.commitEpochForRound (UInt64.ofNat round)).toNat
      epochLength := cfg.epochLength.toNat
      graceRounds := epochGraceRounds }
  currentEpoch := c.regime.currentEpoch
  minStake := cfg.minStake
  computeHolders := computeHolders cfg.crypto c.sharding
  isHolder := cfg.isHolder c.sharding
  pods := cfg.pods

/-- The live validators once a transaction's registration is applied. -/
def registered (cfg : Config) (c : Chain) (atx : AttestedTransaction) : ValidatorSet :=
  match atx.transaction with
  | none => c.ledger.validators
  | some tx =>
    match c.ledger.handleRegisterValidator (c.node cfg) tx with
    | .error _ => c.ledger.validators
    | .ok st => st.validators

/-- What one transaction runs with: its fee is computed before its own registration takes
effect, and what this node holds after. -/
def txNode (cfg : Config) (c : Chain) (atx : AttestedTransaction) : Node :=
  { c.node cfg with isHolder := cfg.isHolder (c.rendezvous.getD (c.registered cfg atx)) }

/-! ## The genesis regime -/

/-- The committed members with their live records, in key order. -/
def freezeGenesisHolders (c : Chain) : HolderSet :=
  HolderSet.freeze ((sortedMemberKeys c.ledger.committedMembers).filterMap fun pubkey =>
    (c.ledger.validators.get pubkey).or (c.regime.epochHolders.bind fun hs => hs.get pubkey))

def committedStakedMemberCount (c : Chain) : Nat :=
  (sortedMemberKeys c.ledger.committedMembers).countP fun pubkey =>
    (c.ledger.validators.get pubkey).any fun v => v.selfStake > 0

/-- Fire the latch: the strict regime starts after the grace and buffer rounds. -/
def latchStrictRegime (c : Chain) (cfg : Config) (atRound : UInt64) : Chain :=
  if c.regime.strictLatched then c
  else
    let start := atRound + cfg.graceRounds + cfg.bufferRounds
    let start := if start < atRound + 1 then atRound + 1 else start
    { c with
      regime := { c.regime with strictStartRound := start, strictLatched := true }
      regimeDirty := true }

/-- Until the latch fires, freeze the holders of the genesis epoch again and see whether
enough members are staked. -/
def refreezeGenesisRegime (c : Chain) (cfg : Config) (atRound : UInt64) : Chain :=
  if c.regime.strictLatched then c
  else
    let c :=
      if c.regime.currentEpoch = 0 then
        { c with
          regime := { c.regime with
            epochHolders := some c.freezeGenesisHolders
            eligibleHolders := some c.regime.producedMembers }
          regimeDirty := true }
      else c
    if cfg.minValidators > 0 ∧ c.committedStakedMemberCount ≥ cfg.minValidators then
      c.latchStrictRegime cfg atRound
    else c

def recordCommittedMember (c : Chain) (cfg : Config) (pubkey : Hash) (atRound : UInt64) :
    Chain :=
  if pubkey ∈ c.ledger.committedMembers then c
  else
    { c with
      ledger := { c.ledger with committedMembers := c.ledger.committedMembers ++ [pubkey] }
      regimeDirty := true }.refreezeGenesisRegime cfg atRound

/-- Seat the founding validator: add it or fill in its address, seed its stake and coin
when it has no stake, and admit it. -/
def seedGenesisValidator (c : Chain) (cfg : Config) (seed : GenesisSeed) : Chain :=
  let validators := c.ledger.validators.add seed.pubkey seed.quic seed.bls
  let validators :=
    if (validators.get seed.pubkey).all fun v => v.selfStake = 0 then
      (validators.setSelfStake seed.pubkey seed.selfStake).setRewardCoin seed.pubkey seed.coinID
    else validators
  { c with ledger := { c.ledger with validators } }.recordCommittedMember cfg seed.pubkey
    c.lastCommitted

end Chain

/-- Seed the genesis coin, the supply counters and the coin's tracker entry. -/
def Ledger.seedGenesisLedger (st : Ledger) (seed : GenesisSeed) : Ledger :=
  let st := ((st.setObject seed.coin).setTotalSupply seed.supply).setCoinsTotal
    (seed.supply - seed.selfStake)
  { st with
    tracker := st.tracker.trackObject seed.coinID seed.coin.version seed.coin.replication
      seed.coin.fees seed.coin.parentKind seed.coin.objectOwner }

/-- Every start of the bootstrap node seats the founder; the ledger is seeded when the
genesis coin is not in the store. -/
def Chain.seedGenesisState (c : Chain) (cfg : Config) (seed : GenesisSeed) : Chain :=
  if (c.ledger.getObject seed.coinID).isSome then c.seedGenesisValidator cfg seed
  else { c with ledger := c.ledger.seedGenesisLedger seed }.seedGenesisValidator cfg seed

/-! ## Applying a batch -/

namespace Ledger

/-- The transaction reaches the stake handlers and its bond is applied. -/
def bondApplied (st : Ledger) (nd : Node) (atx : AttestedTransaction) (commitRound : Nat)
    (verdict : Option ProofError) : Bool :=
  match st.admitTx nd atx commitRound verdict with
  | .error _ => false
  | .ok (tx, st) =>
    let fees := st.deductFees nd tx atx
    if !fees.proceed || tx.operations.length > 0 ||
        !fees.ledger.validateMutableRefOwnership atx tx then false
    else
      match fees.ledger.handleRegisterValidator nd tx with
      | .error _ => false
      | .ok st => ((st.handleDeregisterValidator nd tx).handleBond nd tx).isSome

/-- The transaction's sender became a committed member. -/
def admitsSender (before after : Ledger) (atx : AttestedTransaction) : Bool :=
  (atx.transaction.bind fun tx => hash32 tx.sender).any fun sender =>
    sender ∈ after.committedMembers && sender ∉ before.committedMembers

end Ledger

/-- A vertex of a batch. -/
structure BatchVertex where
  hash : Hash
  round : UInt64
  producer : Hash
  transactions : List AttestedTransaction := []

namespace Buckets

def fees (b : Buckets) (epoch : UInt64) : UInt64 := (b.epochFees.lookup epoch).getD 0

def addFees (b : Buckets) (epoch amount : UInt64) : Buckets :=
  { b with epochFees := b.epochFees.insert epoch (safeAdd (b.fees epoch) amount) }

/-- An epoch's counters, empty before the first credit. -/
def roundsProducedBucket (b : Buckets) (epoch : UInt64) : Finmap fun _ : Hash => UInt64 :=
  match b.epochRoundsProduced.lookup epoch with
  | none => ∅
  | some bucket => bucket.val

/-- The liveness of an epoch, zero for a producer without a credit. -/
def produced (b : Buckets) (epoch : UInt64) (producer : Hash) : UInt64 :=
  ((b.roundsProducedBucket epoch).lookup producer).getD 0

def creditRound (b : Buckets) (epoch : UInt64) (producer : Hash) : Buckets :=
  { b with
    epochRoundsProduced := b.epochRoundsProduced.insert epoch
      ⟨(b.roundsProducedBucket epoch).insert producer (b.produced epoch producer + 1), by
        intro h
        have := congrArg (Finmap.lookup producer) h
        simp at this⟩ }

end Buckets

namespace Chain

/-- Commit one transaction. The source refreezes the genesis regime from within; nothing
between there and the end of the transaction reads or changes what that depends on. -/
def executeTx (cfg : Config) (c : Chain) (atx : AttestedTransaction) (commitRound : UInt64)
    (verdict : Option ProofError) : Chain × FeeSplit :=
  let nd := c.txNode cfg atx
  let out := c.ledger.executeTx nd atx commitRound.toNat verdict
  let c₁ : Chain := { c with ledger := out.ledger }
  let c₂ :=
    if c.ledger.admitsSender out.ledger atx then
      { c₁ with regimeDirty := true }.refreezeGenesisRegime cfg commitRound
    else c₁
  let c₃ :=
    if c.ledger.bondApplied nd atx commitRound.toNat verdict then
      c₂.refreezeGenesisRegime cfg commitRound
    else c₂
  (c₃, out.split)

/-- The transactions of one vertex, and the sum of their epoch fees. -/
def processTransactions (cfg : Config) (commitRound : UInt64) (c : Chain) (p : ProofVerdicts) :
    List AttestedTransaction → Chain × ProofVerdicts × UInt64
  | [] => (c, p, 0)
  | atx :: rest =>
    let (verdict, p) := p.proofVerdict atx
    let (c, split) := c.executeTx cfg atx commitRound verdict
    let (c, p, fees) := processTransactions cfg commitRound c p rest
    (c, p, split.epoch + fees)

def recordProducedMember (c : Chain) (pubkey : Hash) : Chain :=
  if pubkey ∈ c.regime.producedMembers then c
  else
    { c with
      regime := { c.regime with producedMembers := c.regime.producedMembers ++ [pubkey] }
      producedDirty := true }

/-- Where a batch stands: the node, the verdicts not yet used, and the rounds credited. -/
structure BatchState where
  chain : Chain
  verdicts : ProofVerdicts
  credited : List (Hash × UInt64) := []

/-- Apply one vertex. An equivocating producer's round is credited once. -/
def applyVertex (cfg : Config) (commitRound : UInt64) (s : BatchState) (v : BatchVertex) :
    BatchState :=
  let epoch := cfg.commitEpochForRound v.round
  let seen := decide ((v.producer, v.round) ∈ s.credited)
  let c := s.chain
  let c : Chain := if seen then c else { c with buckets := c.buckets.creditRound epoch v.producer }
  let (c, p, fees) := c.processTransactions cfg commitRound s.verdicts v.transactions
  let c : Chain :=
    { c with
      buckets := c.buckets.addFees epoch fees
      committedVertices := v.hash :: c.committedVertices }
  { chain := c.recordProducedMember v.producer
    verdicts := p
    credited := if seen then s.credited else (v.producer, v.round) :: s.credited }

/-- The node once a vertex is credited. -/
def creditVertex (cfg : Config) (s : BatchState) (v : BatchVertex) : Chain :=
  if (v.producer, v.round) ∈ s.credited then s.chain
  else { s.chain with
    buckets := s.chain.buckets.creditRound (cfg.commitEpochForRound v.round) v.producer }

def applyBatch (cfg : Config) (c : Chain) (commitRound : UInt64) (batch : List BatchVertex) :
    Chain :=
  let verdicts := verifyRoundProofs (c.node cfg) commitRound.toNat
    (batch.flatMap (·.transactions))
  (batch.foldl (applyVertex cfg commitRound) { chain := c, verdicts }).chain

/-! ## The boundary -/

/-- Move the rate and mint for the epoch that closed one boundary ago. The ledger, the rate
and the amount minted. -/
def mintDeferred (cfg : Config) (c : Chain) : Ledger × UInt64 × UInt64 :=
  if c.regime.currentEpoch = 0 then (c.ledger, c.issuanceRateMicro, 0)
  else
    let epoch := c.regime.currentEpoch - 1
    let distributable := totalRewardWeight c.ledger.validators (c.buckets.produced epoch) > 0
    c.ledger.runThermostat cfg.thermostat c.issuanceRateMicro distributable

/-- Mint and distribute the rewards of the epoch that closed one boundary ago. -/
def settleDeferredEpoch (cfg : Config) (c : Chain) : Chain :=
  if c.regime.currentEpoch = 0 then c
  else
    let epoch := c.regime.currentEpoch - 1
    let (ledger, rate, issuance) := c.mintDeferred cfg
    let (ledger, leftover) := ledger.distributeEpochRewards cfg (c.buckets.produced epoch)
      (c.buckets.fees epoch) issuance
    let buckets : Buckets :=
      { epochFees := c.buckets.epochFees.erase epoch
        epochRoundsProduced := c.buckets.epochRoundsProduced.erase epoch }
    { c with
      ledger
      issuanceRateMicro := rate
      buckets :=
        if leftover > 0 then buckets.addFees c.regime.currentEpoch leftover else buckets }

end Chain

namespace Ledger

/-- This epoch's additions that the churn limit lets in. -/
def churnLimitedAdditions (st : Ledger) (maxChurn : Nat) : List Hash :=
  if maxChurn = 0 ∨ st.epochAdditions.length ≤ maxChurn then st.epochAdditions
  else (st.epochAdditions.insertionSort (· ≤ ·)).take maxChurn

/-- The committee of the epoch to come: committed members of the live set, without the
additions the churn limit keeps out. -/
def snapshotEpochHolders (st : Ledger) (maxChurn : Nat) : HolderSet :=
  let allowed := st.churnLimitedAdditions maxChurn
  HolderSet.freeze (st.validators.all.filter fun v =>
    (st.committedMembers.isEmpty || decide (v.pubkey ∈ st.committedMembers)) &&
      (decide (v.pubkey ∉ st.epochAdditions) || decide (v.pubkey ∈ allowed)))

end Ledger

namespace Chain

def transitionEpoch (cfg : Config) (c : Chain) : Chain :=
  let c := c.settleDeferredEpoch cfg
  let ledger := (c.ledger.applyPendingRemovals cfg.maxChurnPerEpoch).sweepExpiredDomains
    cfg.feeParams.graceEpochs (c.regime.currentEpoch + 1)
  let holders := ledger.snapshotEpochHolders cfg.maxChurnPerEpoch
  let produced := c.regime.producedMembers
  { c with
    ledger := { ledger with epochAdditions := [] }
    regime :=
      { c.regime with
        currentEpoch := c.regime.currentEpoch + 1
        epochHolders := some holders
        prevEpochHolders :=
          some (c.regime.epochHolders.getD (HolderSet.freeze ledger.validators.all))
        nextEpochHolders := some holders
        eligibleHolders := some produced
        prevEligibleHolders := some (c.regime.eligibleHolders.getD produced)
        nextEligibleHolders := some produced }
    rendezvous := some holders.toValidatorSet }

end Chain

end BluePods
