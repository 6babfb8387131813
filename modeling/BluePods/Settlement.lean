import BluePods.Commit

/-! Settlement of an epoch on the ledger: the issuance controller, the split of an epoch's
pool among the validators and their delegators, the removals of a boundary and its
expired leases. -/

namespace BluePods

/-! ## Construction parameters -/

/-- The issuance controller's parameters, rates in millionths an epoch. All zero is the
controller that is switched off. -/
structure ThermostatParams where
  targetLowMille : UInt64 := 0
  targetHighMille : UInt64 := 0
  floorRateMicro : UInt64 := 0
  ceilingRateMicro : UInt64 := 0
  genesisRateMicro : UInt64 := 0
  stepCapMicro : UInt64 := 0
  autoRestakeMille : UInt64 := 0
  deriving DecidableEq

/-- What genesis seeds: the founding validator, its coin and the supply. -/
structure GenesisSeed where
  pubkey : Hash
  quic : Bytes := []
  bls : BLSKey := zeroBLSKey
  selfStake : UInt64 := 0
  coin : Object
  supply : UInt64 := 0
  deriving DecidableEq

def GenesisSeed.coinID (seed : GenesisSeed) : Hash := seed.coin.objectID

def defaultCommissionBPS : UInt64 := 1000
def milleMax : UInt64 := 1000

/-- What a node is constructed with and keeps. Only the bootstrap node has a founder to
seed: itself. -/
structure Config where
  crypto : Crypto
  unsignedTxBytes : UnsignedTx → Bytes
  systemPod : Hash
  feeParams : FeeParams
  pods : Hash → PodInput → Except Unit (Option PodOutput)
  self : Hash
  minStake : UInt64 := 0
  minValidators : Nat := 0
  epochLength : UInt64 := 0
  maxChurnPerEpoch : Nat := 0
  graceRounds : UInt64 := 20
  bufferRounds : UInt64 := 10
  commissionBPS : UInt64 := defaultCommissionBPS
  thermostat : ThermostatParams := {}
  founder : Option GenesisSeed := none

/-! ## Issuance -/

def totalBonded (vs : ValidatorSet) : UInt64 := rawTotal vs

/-- The staking ratio in per-mille, zero without supply. -/
def stakingRatioMille (bonded supply : UInt64) : UInt64 :=
  if supply = 0 then 0 else safeMul bonded 1000 / supply

def clampRate (rate : UInt64) (p : ThermostatParams) : UInt64 :=
  if rate < p.floorRateMicro then p.floorRateMicro
  else if rate > p.ceilingRateMicro then p.ceilingRateMicro
  else rate

/-- One step of the rate towards the target band, held inside it and clamped. -/
def adjustRate (rate ratioMille : UInt64) (p : ThermostatParams) : UInt64 :=
  if ratioMille ≥ p.targetLowMille ∧ ratioMille ≤ p.targetHighMille then clampRate rate p
  else if ratioMille < p.targetLowMille then clampRate (safeAdd rate p.stepCapMicro) p
  else clampRate (floorSub rate p.stepCapMicro) p

def issuanceFor (rateMicro supply : UInt64) : UInt64 := safeMul rateMicro supply / 1000000

namespace Ledger

/-- Saturates. -/
def addSupply (st : Ledger) (amount : UInt64) : Ledger :=
  st.setTotalSupply (satAdd st.totalSupply amount)

/-- Move the rate by the ratio before the mint, and mint when there is someone to pay. The
ledger, the new rate and the amount. -/
def runThermostat (st : Ledger) (p : ThermostatParams) (rate : UInt64) (distributable : Bool) :
    Ledger × UInt64 × UInt64 :=
  let preMint := st.totalSupply
  let rate := adjustRate rate (stakingRatioMille (totalBonded st.validators) preMint) p
  if !distributable then (st, rate, 0)
  else
    let issuance := issuanceFor rate preMint
    (st.addSupply issuance, rate, issuance)

end Ledger

/-! ## Shares -/

/-- Effective stake times the rounds produced in the settled epoch. -/
def rewardWeight (v : ValidatorInfo) (produced : Hash → UInt64) : UInt64 :=
  safeMul (effectiveStake v) (produced v.pubkey)

def totalRewardWeight (vs : ValidatorSet) (produced : Hash → UInt64) : UInt64 :=
  vs.all.foldl (fun total v => safeAdd total (rewardWeight v produced)) 0

/-- The validator of greatest weight, the lower key among equals, or the zero key. -/
def pickRemainderRecipient (vals : List ValidatorInfo) (produced : Hash → UInt64) : Hash :=
  (vals.foldl (fun (best, bestWeight) v =>
    let w := rewardWeight v produced
    if w = 0 then (best, bestWeight)
    else if w > bestWeight ∨ (w = bestWeight ∧ v.pubkey < best) then (v.pubkey, w)
    else (best, bestWeight)) (zeroHash, (0 : UInt64))).1

structure DelegatorShare where
  delegator : Hash
  amount : UInt64
  deriving DecidableEq

def sumDelegations (dels : List DelegatorShare) : UInt64 :=
  dels.foldl (fun total d => safeAdd total d.amount) 0

/-- A pool in proportion to the amounts, each share truncated. It panics where it divides
by a zero total. -/
def splitProRata (pool delegatedTotal : UInt64) (dels : List DelegatorShare) :
    Option (List DelegatorShare) :=
  if delegatedTotal = 0 ∧ dels.length ≠ 0 then none
  else some (dels.map fun d => { d with amount := safeMul pool d.amount / delegatedTotal })

/-- The validator's own part of a reward and its delegators' parts, unless it panics. -/
def splitValidatorReward (reward selfStake commissionBPS : UInt64) (dels : List DelegatorShare) :
    Option (UInt64 × List DelegatorShare) :=
  let delegatedTotal := sumDelegations dels
  let total := safeAdd selfStake delegatedTotal
  if total = 0 ∨ dels.length = 0 then some (reward, [])
  else
    let selfShare := safeMul reward selfStake / total
    let delegatedPortion := reward - selfShare
    let commission := safeMul delegatedPortion commissionBPS / bpsMax
    (splitProRata (delegatedPortion - commission) delegatedTotal dels).map fun amounts =>
      (reward - sumDelegations amounts, amounts)

/-! ## Stake positions -/

def consensusKeyPrefixes : List Bytes :=
  [ascii "v:", ascii "r:", ascii "m:", ascii "t:", ascii "d:", ascii "objsig:"]

/-- A key the scan for positions takes for an object's. -/
def isObjectKey (key : Bytes) : Bool :=
  key.length == 32 && consensusKeyPrefixes.all fun p => !p.isPrefixOf key

/-- A stored object as a position with a validator: any object of the layout counts. -/
def decodeDelegationPosition (validator : Hash) (o : Object) : Option DelegatorShare :=
  if o.content.length ≠ 40 then none
  else if o.content.take 32 ≠ validator.val then none
  else (hash32 o.owner).map fun delegator => ⟨delegator, uint64LE (o.content.drop 32)⟩

namespace Ledger

/-- The positions with a validator in key order. -/
def delegationsFor (st : Ledger) (validator : Hash) : List DelegatorShare :=
  (st.objects.bodies.keys.insertionSort (· ≤ ·)).filterMap fun id =>
    if isObjectKey id.val then (st.getObject id).bind (decodeDelegationPosition validator)
    else none

/-- Raise a position and the validator's delegated total by a reward. -/
def compoundDelegation (st : Ledger) (cr : Crypto) (delegator validator : Hash)
    (reward : UInt64) : Option Ledger :=
  if reward = 0 then none
  else
    (st.readDelegationAmount (delegationID cr delegator validator) validator).map fun current =>
      let st := st.setObject (buildDelegationObject cr delegator validator (safeAdd current reward))
      { st with validators := st.validators.addDelegated validator reward }

/-- Compound every payout that has a position; the amount compounded. -/
def creditDelegators (st : Ledger) (cr : Crypto) (validator : Hash)
    (payouts : List DelegatorShare) : Ledger × UInt64 :=
  payouts.foldl (fun (st, credited) del =>
    match st.compoundDelegation cr del.delegator validator del.amount with
    | none => (st, credited)
    | some st => (st, credited + del.amount)) (st, 0)

/-- Restake part of a validator's own portion and credit the rest to its reward coin; all
of it is restaked without one. `v` is the record as it was before the distribution. -/
def creditValidatorReward (st : Ledger) (p : ThermostatParams) (v : ValidatorInfo)
    (amount : UInt64) : Ledger × UInt64 :=
  let restakeBy (st : Ledger) (n : UInt64) : Ledger :=
    { st with validators := st.validators.setSelfStake v.pubkey (safeAdd v.selfStake n) }
  if v.rewardCoin = zeroHash then (restakeBy st amount, amount)
  else
    let restake := safeMul amount p.autoRestakeMille / milleMax
    let liquid := amount - restake
    let st := if restake > 0 then restakeBy st restake else st
    match st.creditCoin v.rewardCoin liquid with
    | .error _ => (st, restake)
    | .ok st => (st, restake + liquid)

/-- One validator's share: its delegators' positions, then its own portion. A split that
panics takes the node down with it; the ledger is then as it was. -/
def creditShare (st : Ledger) (cfg : Config) (v : ValidatorInfo) (share : UInt64) :
    Ledger × UInt64 :=
  match splitValidatorReward share v.selfStake cfg.commissionBPS
      (st.delegationsFor v.pubkey) with
  | none => (st, 0)
  | some (own, payouts) =>
    let (st, delegated) := st.creditDelegators cfg.crypto v.pubkey payouts
    let (st, credited) := st.creditValidatorReward cfg.thermostat v own
    (st, delegated + credited)

/-- What is left of the pool goes to the coin of the validator of greatest weight. -/
def creditRemainder (st : Ledger) (top : Hash) (remainder : UInt64) : Ledger × UInt64 :=
  if remainder = 0 then (st, 0)
  else
    match st.validators.get top with
    | none => (st, 0)
    | some info =>
      if info.rewardCoin = zeroHash then (st, 0)
      else
        match st.creditCoin info.rewardCoin remainder with
        | .error _ => (st, 0)
        | .ok st => (st, remainder)

/-- A validator's share of the pool. -/
def rewardShare (pool totalWeight : UInt64) (produced : Hash → UInt64) (v : ValidatorInfo) :
    UInt64 :=
  safeMul pool (rewardWeight v produced) / totalWeight

/-- Credit an epoch's pool in full; what could be credited nowhere is left over. -/
def distributeEpochRewards (st : Ledger) (cfg : Config) (produced : Hash → UInt64)
    (fees issuance : UInt64) : Ledger × UInt64 :=
  let pool := safeAdd fees issuance
  let totalWeight := totalRewardWeight st.validators produced
  if pool = 0 ∨ totalWeight = 0 then (st, pool)
  else
    let vals := st.validators.all
    let top := pickRemainderRecipient vals produced
    let (st, distributed) := vals.foldl (fun (st, distributed) v =>
      let (st, moved) := st.creditShare cfg v (rewardShare pool totalWeight produced v)
      (st, distributed + moved)) (st, (0 : UInt64))
    let (st, remainder) := st.creditRemainder top (pool - distributed)
    (st, pool - (distributed + remainder))

end Ledger

/-! ## Removals -/

namespace ValidatorSet

/-- Take a validator out; the last one moves into its place. -/
def remove (vs : ValidatorSet) (pubkey : Hash) : ValidatorSet :=
  match vs.all.findIdx? (·.pubkey = pubkey), h : vs.all.getLast? with
  | some idx, some last =>
    { all := vs.all.dropLast.set idx last
      nodup := by
        have happ : vs.all = vs.all.dropLast ++ [last] :=
          (List.dropLast_append_getLast? last h).symm
        have hnodup := vs.nodup
        rw [happ, List.map_append, List.nodup_append] at hnodup
        rw [List.map_set]
        exact hnodup.1.set fun hmem => hnodup.2.2 _ hmem _ (by simp) rfl }
  | _, _ => vs

end ValidatorSet

/-- A set of keys in ascending order. -/
def sortedMemberKeys (set : List Hash) : List Hash := set.dedup.insertionSort (· ≤ ·)

namespace Ledger

def hasBondedDelegations (st : Ledger) (pubkey : Hash) : Bool :=
  match st.validators.get pubkey with
  | none => false
  | some info => decide (info.delegatedTotal > 0)

/-- Nothing for an unknown or jailed validator. -/
def releasedSelfStake (v : Option ValidatorInfo) : UInt64 :=
  match v with
  | none => 0
  | some v => if v.jailed then 0 else v.selfStake

/-- Return a departing validator's stake to its reward coin, if that is possible. -/
def returnDeregisteredStake (st : Ledger) (pubkey : Hash) : Option Ledger :=
  let principal := releasedSelfStake (st.validators.get pubkey)
  if principal = 0 then some st
  else
    match st.validators.get pubkey with
    | none => none
    | some info =>
      if info.rewardCoin = zeroHash then none
      else (st.creditCoin info.rewardCoin principal).toOption

/-- The removals in turn, up to the churn limit; a validator with delegations or without a
coin for its stake stays. -/
def removeEach (maxChurn : Nat) : List Hash → Nat → Ledger → Ledger
  | [], _, st => st
  | pubkey :: rest, removed, st =>
    if maxChurn > 0 ∧ removed ≥ maxChurn then st
    else if st.hasBondedDelegations pubkey then removeEach maxChurn rest removed st
    else
      match st.returnDeregisteredStake pubkey with
      | none => removeEach maxChurn rest removed st
      | some st =>
        removeEach maxChurn rest (removed + 1)
          { st with
            validators := st.validators.remove pubkey
            pendingRemovals := st.pendingRemovals.filter (· ≠ pubkey) }

def applyPendingRemovals (st : Ledger) (maxChurn : Nat) : Ledger :=
  removeEach maxChurn (sortedMemberKeys st.pendingRemovals) 0 st

/-! ## Leases -/

/-- Drop every name whose lease has run past its grace window. -/
def sweepExpiredDomains (st : Ledger) (grace newEpoch : UInt64) : Ledger :=
  let names := (st.domains.entries.filter fun e => newEpoch > safeAdd e.2.expiry grace).map (·.1)
  { st with domains := (names.insertionSort (· ≤ ·)).foldl (fun d name => d.erase name) st.domains }

end Ledger

end BluePods
