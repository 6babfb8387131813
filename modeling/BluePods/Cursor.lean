import BluePods.Persist

/-! The commit cursor: what a decided round writes to the metadata, and the node that is
rebuilt from the store. -/

namespace BluePods

/-! ## Metadata -/

namespace Meta

variable {m : Meta} {kvs : List (MetaKey × Bytes)} {k : MetaKey}

/-- One atomic batch. -/
def setBatch (m : Meta) (kvs : List (MetaKey × Bytes)) : Meta :=
  kvs.foldl (fun m kv => Function.update m kv.1 (some kv.2)) m

theorem setBatch_of_notMem (h : k ∉ kvs.map (·.1)) : m.setBatch kvs k = m k := by
  induction kvs generalizing m with
  | nil => rfl
  | cons kv kvs ih =>
    rw [List.map_cons, List.mem_cons, not_or] at h
    show Meta.setBatch (Function.update m kv.1 (some kv.2)) kvs k = m k
    rw [ih h.2, Function.update_of_ne h.1]

theorem setBatch_of_mem {v : Bytes} (hnodup : (kvs.map (·.1)).Nodup) (h : (k, v) ∈ kvs) :
    m.setBatch kvs k = some v := by
  induction kvs generalizing m with
  | nil => cases h
  | cons kv kvs ih =>
    rw [List.map_cons, List.nodup_cons] at hnodup
    show Meta.setBatch (Function.update m kv.1 (some kv.2)) kvs k = some v
    rcases List.mem_cons.1 h with heq | hin
    · subst heq
      rw [setBatch_of_notMem hnodup.1, Function.update_self]
    · exact ih hnodup.2 hin

/-- Absent or malformed reads as nothing. -/
def loadMetaUint64 (m : Meta) (k : MetaKey) : Option UInt64 :=
  match m k with
  | none => none
  | some data => if data.length < 8 then none else some (uint64BE data)

def loadMetaBytes (m : Meta) (k : MetaKey) : Bytes := (m k).getD []

theorem loadMetaUint64_of_eq {n : UInt64} (h : m k = some (putUint64BE n)) :
    m.loadMetaUint64 k = some n := by
  simp only [loadMetaUint64, h, length_putUint64BE, lt_irrefl, if_false, uint64BE_putUint64BE_self]

theorem loadMetaBytes_of_eq {data : Bytes} (h : m k = some data) : m.loadMetaBytes k = data := by
  rw [loadMetaBytes, h, Option.getD_some]

def saveCommitCursorBatch (m : Meta) (round : UInt64) (extra : List (MetaKey × Bytes)) : Meta :=
  m.setBatch ((.commitCursor, putUint64BE round) :: extra)

/-! ### Restoring -/

/-- The latch, and when an epoch was persisted the counter, snapshots and member sets. -/
def loadRegime (m : Meta) : Regime :=
  let latch := m.loadMetaUint64 .strictStartRound
  let r : Regime := { strictLatched := latch.isSome, strictStartRound := latch.getD 0 }
  match m.loadMetaUint64 .currentEpoch with
  | none => r
  | some epoch =>
    { r with
      currentEpoch := epoch
      epochHolders := loadHolderSnapshot (m.loadMetaBytes .epochHolders)
      prevEpochHolders := loadHolderSnapshot (m.loadMetaBytes .prevEpochHolders)
      nextEpochHolders := loadHolderSnapshot (m.loadMetaBytes .nextEpochHolders)
      producedMembers := (decodeMemberSet (m.loadMetaBytes .producedMembers)).getD []
      eligibleHolders := decodeMemberSet (m.loadMetaBytes .eligibleHolders)
      prevEligibleHolders := decodeMemberSet (m.loadMetaBytes .prevEligibleHolders)
      nextEligibleHolders := decodeMemberSet (m.loadMetaBytes .nextEligibleHolders) }

/-- The persisted set; without one, in the genesis epoch, the members of its snapshot. -/
def restoreCommittedMembers (m : Meta) : List Hash :=
  match m.loadMetaUint64 .currentEpoch with
  | none => []
  | some epoch =>
    match decodeMemberSet (m.loadMetaBytes .committedMembers) with
    | some members => members
    | none =>
      if epoch ≠ 0 then []
      else (holderList (loadHolderSnapshot (m.loadMetaBytes .epochHolders))).map (·.pubkey)

def restoreBuckets (m : Meta) : Buckets where
  epochFees := (decodeEpochFees (m.loadMetaBytes .epochFees)).getD ∅
  epochRoundsProduced :=
    (decodePerEpochCounters (m.loadMetaBytes .epochRoundsProduced)).getD ∅

def restoreAdditions (m : Meta) : List Hash :=
  (decodeHashList (m.loadMetaBytes .epochAdditions)).getD []

def restoreRemovals (m : Meta) : List Hash :=
  (decodeMemberSet (m.loadMetaBytes .pendingRemovals)).getD []

def loadLiveValidators (m : Meta) : List ValidatorInfo :=
  match m .liveValidators with
  | none => []
  | some data => if data.length = 0 then [] else decodeLiveValidators data

end Meta

/-! ## Writing -/

namespace Chain

def accumulatorKVs (c : Chain) : List (MetaKey × Bytes) :=
  [(.epochFees, encodeEpochFees c.buckets.epochFees),
   (.epochRoundsProduced, encodePerEpochCounters c.buckets.epochRoundsProduced),
   (.epochAdditions, encodeHashList c.ledger.epochAdditions),
   (.pendingRemovals, encodeMemberSet c.ledger.pendingRemovals)]

/-- The epoch, its snapshots and member sets, the latch once it has fired, and the
accumulators. -/
def epochStateKVs (c : Chain) : List (MetaKey × Bytes) :=
  [(.currentEpoch, putUint64BE c.regime.currentEpoch),
   (.epochHolders, encodeHolderSnapshot c.regime.epochHolders),
   (.prevEpochHolders, encodeHolderSnapshot c.regime.prevEpochHolders),
   (.nextEpochHolders, encodeHolderSnapshot c.regime.nextEpochHolders),
   (.producedMembers, encodeMemberSet c.regime.producedMembers),
   (.eligibleHolders, encodeMemberSet (c.regime.eligibleHolders.getD [])),
   (.prevEligibleHolders, encodeMemberSet (c.regime.prevEligibleHolders.getD [])),
   (.nextEligibleHolders, encodeMemberSet (c.regime.nextEligibleHolders.getD [])),
   (.committedMembers, encodeMemberSet c.ledger.committedMembers)] ++
  (if c.regime.strictLatched then [(.strictStartRound, putUint64BE c.regime.strictStartRound)]
   else []) ++ c.accumulatorKVs

def liveValidatorsKV (c : Chain) : MetaKey × Bytes :=
  (.liveValidators, encodeLiveValidators c.ledger.validators)

/-- Write the whole epoch state with the cursor. -/
def writeEpochState (c : Chain) (live : MetaKey × Bytes) : Chain :=
  { c with
    persisted := c.persisted.saveCommitCursorBatch c.lastCommitted (c.epochStateKVs ++ [live])
    regimeDirty := false
    producedDirty := false }

/-- Write the accumulators with the cursor. -/
def writeAccumulators (c : Chain) (live : MetaKey × Bytes) : Chain :=
  { c with
    persisted := c.persisted.saveCommitCursorBatch c.lastCommitted (c.accumulatorKVs ++ [live]) }

/-- Move the cursor past a decided round. The live set is taken before the boundary's
transition, the rest of the batch after it. -/
def advanceCommitCursor (cfg : Config) (c : Chain) (round : UInt64) : Chain :=
  let c := { c with lastCommitted := round + 1 }
  let live := c.liveValidatorsKV
  if cfg.isEpochBoundary round then (c.transitionEpoch cfg).writeEpochState live
  else if c.regimeDirty || c.producedDirty then c.writeEpochState live
  else c.writeAccumulators live

/-- Decide the next round: apply its batch, which is empty for a skipped round, and move
the cursor. -/
def decideRound (cfg : Config) (c : Chain) (batch : List BatchVertex) : Chain :=
  (c.applyBatch cfg c.lastCommitted batch).advanceCommitCursor cfg c.lastCommitted

end Chain

/-! ## Rebuilding -/

/-- The store: what every commit writes at once, and the metadata. -/
structure Disk where
  objects : ObjectStore := .empty
  tracker : Tracker := ∅
  committedTxs : List Hash := []
  totalSupply : UInt64 := 0
  coinsTotal : UInt64 := 0
  domains : AList fun _ : Bytes => DomainLeaf := ∅
  committedVertices : List Hash := []
  persisted : Meta := fun _ => none

def Chain.disk (c : Chain) : Disk where
  objects := c.ledger.objects
  tracker := c.ledger.tracker
  committedTxs := c.ledger.committedTxs
  totalSupply := c.ledger.totalSupply
  coinsTotal := c.ledger.coinsTotal
  domains := c.ledger.domains
  committedVertices := c.committedVertices
  persisted := c.persisted

/-- The persisted live set, else the bootstrap node's own bare identity. -/
def Config.buildValidatorSet (cfg : Config) (m : Meta) : ValidatorSet :=
  match restoreValidatorSet m.loadLiveValidators with
  | some vs => vs
  | none =>
    match cfg.founder with
    | some seed => ⟨[{ pubkey := seed.pubkey }], by simp⟩
    | none => .empty

/-- The node as it is constructed over a store. The issuance rate starts at the genesis
rate. -/
def Disk.load (cfg : Config) (d : Disk) : Chain where
  ledger :=
    { objects := d.objects
      tracker := d.tracker
      committedTxs := d.committedTxs
      validators := cfg.buildValidatorSet d.persisted
      totalSupply := d.totalSupply
      coinsTotal := d.coinsTotal
      domains := d.domains
      committedMembers := d.persisted.restoreCommittedMembers
      epochAdditions := d.persisted.restoreAdditions
      pendingRemovals := d.persisted.restoreRemovals }
  regime := d.persisted.loadRegime
  buckets := d.persisted.restoreBuckets
  lastCommitted := (d.persisted.loadMetaUint64 .commitCursor).getD 0
  issuanceRateMicro := cfg.thermostat.genesisRateMicro
  committedVertices := d.committedVertices
  persisted := d.persisted

/-- A start over a store: construction, then the bootstrap node's genesis seeding. -/
def Disk.start (cfg : Config) (d : Disk) : Chain :=
  match cfg.founder with
  | none => d.load cfg
  | some seed => (d.load cfg).seedGenesisState cfg seed

def Chain.restart (cfg : Config) (c : Chain) : Chain := c.disk.start cfg

end BluePods
