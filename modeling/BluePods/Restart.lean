import BluePods.Boundary
import BluePods.Cursor
import BluePods.Touch

/-! Restarting a node right after a decided round. What the round wrote gives the epoch
state, the accumulators and the live validators back, as long as every record fits its
width, the founder of a bootstrap node is still seated, and a boundary's settlement moved
no stake: the live set is written as it stood before the boundary. -/

namespace BluePods

open Meta

variable {m : Meta} {v : ValidatorInfo} {cfg : Config} {vs : ValidatorSet}

namespace Chain

/-! ## Records that fit -/

/-- The records of the epoch state fit. -/
structure RegimeFits (c : Chain) : Prop where
  holders : RecordsFit (holderList c.regime.epochHolders)
  prevHolders : RecordsFit (holderList c.regime.prevEpochHolders)
  nextHolders : RecordsFit (holderList c.regime.nextEpochHolders)
  produced : c.regime.producedMembers.length < 2 ^ 32
  eligible : (c.regime.eligibleHolders.getD []).length < 2 ^ 32
  prevEligible : (c.regime.prevEligibleHolders.getD []).length < 2 ^ 32
  nextEligible : (c.regime.nextEligibleHolders.getD []).length < 2 ^ 32
  members : c.ledger.committedMembers.length < 2 ^ 32

/-- The records of the accumulators fit. -/
structure AccumulatorsFit (c : Chain) : Prop where
  fees : c.buckets.epochFees.keys.card < 2 ^ 32
  rounds : c.buckets.epochRoundsProduced.keys.card < 2 ^ 32
  counters : ∀ e b, c.buckets.epochRoundsProduced.lookup e = some b → CountersFit b
  additions : c.ledger.epochAdditions.length < 2 ^ 32
  removals : c.ledger.pendingRemovals.length < 2 ^ 32

/-! ## The epoch state on disk -/

/-- The metadata holds the epoch state: the counter, the holder snapshots, and the member
sets as sets. An absent snapshot and an empty one are the same. -/
structure RegimeSaved (c : Chain) (m : Meta) : Prop where
  epoch : m.loadRegime.currentEpoch = c.regime.currentEpoch
  holders : holderList m.loadRegime.epochHolders = holderList c.regime.epochHolders
  prevHolders : holderList m.loadRegime.prevEpochHolders = holderList c.regime.prevEpochHolders
  nextHolders : holderList m.loadRegime.nextEpochHolders = holderList c.regime.nextEpochHolders
  eligible : ∀ k, k ∈ m.loadRegime.eligibleHolders.getD [] ↔ k ∈ c.regime.eligibleHolders.getD []
  prevEligible : ∀ k, k ∈ m.loadRegime.prevEligibleHolders.getD [] ↔
    k ∈ c.regime.prevEligibleHolders.getD []
  nextEligible : ∀ k, k ∈ m.loadRegime.nextEligibleHolders.getD [] ↔
    k ∈ c.regime.nextEligibleHolders.getD []
  produced : ∀ k, k ∈ m.loadRegime.producedMembers ↔ k ∈ c.regime.producedMembers
  members : ∀ k, k ∈ m.restoreCommittedMembers ↔ k ∈ c.ledger.committedMembers

/-- The metadata holds the accumulators. -/
structure AccumulatorsSaved (c : Chain) (m : Meta) : Prop where
  buckets : m.restoreBuckets = c.buckets
  additions : m.restoreAdditions.Perm c.ledger.epochAdditions
  removals : ∀ k, k ∈ m.restoreRemovals ↔ k ∈ c.ledger.pendingRemovals

/-- With no committed member, the genesis epoch has no holder: a restart takes the members
from its snapshot then. -/
def MembersRecorded (c : Chain) : Prop :=
  c.ledger.committedMembers = [] → c.regime.currentEpoch = 0 →
    holderList c.regime.epochHolders = []

theorem holderList_filter (set : Option HolderSet) :
    holderList (set.filter (·.all ≠ [])) = holderList set := by
  cases set with
  | none => rfl
  | some hs =>
    by_cases h : hs.all = []
    · simp [Option.filter, holderList, h]
    · simp [Option.filter, h]

theorem mem_decodeMemberSet {set : List Hash} (h : set.length < 2 ^ 32) (k : Hash) :
    k ∈ (decodeMemberSet (encodeMemberSet set)).getD [] ↔ k ∈ set := by
  rw [decodeMemberSet_encode h]
  by_cases hnil : set = []
  · rw [if_pos hnil, hnil, Option.getD_none]
  · rw [if_neg hnil, Option.getD_some, mem_sortedMemberKeys]

theorem getD_decodeEpochFees {m : Finmap fun _ : UInt64 => UInt64} (h : m.keys.card < 2 ^ 32) :
    (decodeEpochFees (encodeEpochFees m)).getD ∅ = m := by
  rw [decodeEpochFees_encode h]
  by_cases he : m = ∅
  · rw [if_pos he, he, Option.getD_none]
  · rw [if_neg he, Option.getD_some]

theorem getD_decodePerEpochCounters {m : Finmap fun _ : UInt64 => Counters}
    (h : m.keys.card < 2 ^ 32) (hfit : ∀ e b, m.lookup e = some b → CountersFit b) :
    (decodePerEpochCounters (encodePerEpochCounters m)).getD ∅ = m := by
  rw [decodePerEpochCounters_encode h hfit]
  by_cases he : m = ∅
  · rw [if_pos he, he, Option.getD_none]
  · rw [if_neg he, Option.getD_some]

theorem perm_decodeHashList {l : List Hash} (h : l.length < 2 ^ 32) :
    ((decodeHashList (encodeHashList l)).getD []).Perm l := by
  rw [decodeHashList_encode h]
  by_cases hnil : l = []
  · rw [if_pos hnil, hnil, Option.getD_none]
  · rw [if_neg hnil, Option.getD_some]
    exact List.perm_insertionSort _ _

section Write

variable {c : Chain} {live : MetaKey × Bytes}

section

variable (h : live.1 = .liveValidators)

include h

theorem nodup_epochBatch :
    (((MetaKey.commitCursor, putUint64BE c.lastCommitted) ::
      (c.epochStateKVs ++ [live])).map (·.1)).Nodup := by
  unfold epochStateKVs accumulatorKVs
  cases c.regime.strictLatched <;> simp [h]

theorem nodup_accumulatorBatch :
    (((MetaKey.commitCursor, putUint64BE c.lastCommitted) ::
      (c.accumulatorKVs ++ [live])).map (·.1)).Nodup := by
  simp [accumulatorKVs, h]

theorem writeEpochState_get {k : MetaKey} {v : Bytes}
    (hkv : (k, v) ∈ c.epochStateKVs ∨ (k, v) = live) :
    (c.writeEpochState live).persisted k = some v := by
  apply setBatch_of_mem (nodup_epochBatch h)
  rw [List.mem_cons, List.mem_append, List.mem_singleton]
  exact .inr hkv

theorem writeAccumulators_get {k : MetaKey} {v : Bytes}
    (hkv : (k, v) ∈ c.accumulatorKVs ∨ (k, v) = live) :
    (c.writeAccumulators live).persisted k = some v := by
  apply setBatch_of_mem (nodup_accumulatorBatch h)
  rw [List.mem_cons, List.mem_append, List.mem_singleton]
  exact .inr hkv

end

theorem mem_epochStateKVs_of_accumulator {kv : MetaKey × Bytes} (h : kv ∈ c.accumulatorKVs) :
    kv ∈ c.epochStateKVs :=
  List.mem_append_right _ h

theorem regimeSaved_writeEpochState (hfit : c.RegimeFits) (hmembers : c.MembersRecorded)
    (hlive : live.1 = .liveValidators) : c.RegimeSaved (c.writeEpochState live).persisted := by
  have hget : ∀ {k v}, (k, v) ∈ c.epochStateKVs →
      (c.writeEpochState live).persisted.loadMetaBytes k = v := fun h =>
    loadMetaBytes_of_eq (writeEpochState_get hlive (.inl h))
  have hepoch : (c.writeEpochState live).persisted.loadMetaUint64 .currentEpoch =
      some c.regime.currentEpoch :=
    loadMetaUint64_of_eq (writeEpochState_get hlive (.inl (by simp [epochStateKVs])))
  have hsnap : ∀ {k} {set : Option HolderSet}, (k, encodeHolderSnapshot set) ∈ c.epochStateKVs →
      RecordsFit (holderList set) → holderList (loadHolderSnapshot
        ((c.writeEpochState live).persisted.loadMetaBytes k)) = holderList set := by
    intro k set hkv hset
    rw [hget hkv, loadHolderSnapshot_encode hset, holderList_filter]
  have hkeys : ∀ {k} {set : List Hash}, (k, encodeMemberSet set) ∈ c.epochStateKVs →
      set.length < 2 ^ 32 → ∀ x, x ∈ (decodeMemberSet
        ((c.writeEpochState live).persisted.loadMetaBytes k)).getD [] ↔ x ∈ set := by
    intro k set hkv hset
    rw [hget hkv]
    exact mem_decodeMemberSet hset
  have hholders := hsnap (k := .epochHolders) (by simp [epochStateKVs]) hfit.holders
  refine ⟨?_, ?_, ?_, ?_, ?_, ?_, ?_, ?_, fun k => ?_⟩ <;>
    simp only [loadRegime, restoreCommittedMembers, hepoch]
  · exact hholders
  · exact hsnap (by simp [epochStateKVs]) hfit.prevHolders
  · exact hsnap (by simp [epochStateKVs]) hfit.nextHolders
  · exact hkeys (by simp [epochStateKVs]) hfit.eligible
  · exact hkeys (by simp [epochStateKVs]) hfit.prevEligible
  · exact hkeys (by simp [epochStateKVs]) hfit.nextEligible
  · exact hkeys (by simp [epochStateKVs]) hfit.produced
  · rw [hget (v := encodeMemberSet c.ledger.committedMembers) (by simp [epochStateKVs]),
      decodeMemberSet_encode hfit.members]
    by_cases hnil : c.ledger.committedMembers = []
    · rw [if_pos hnil, hnil]
      simp only [hholders]
      by_cases hzero : c.regime.currentEpoch = 0
      · simp [hzero, hmembers hnil hzero]
      · simp [hzero]
    · rw [if_neg hnil]
      exact mem_sortedMemberKeys

theorem accumulatorsSaved_of_get (hfit : c.AccumulatorsFit)
    (h : ∀ kv ∈ c.accumulatorKVs, m kv.1 = some kv.2) : c.AccumulatorsSaved m := by
  have hget : ∀ {k v}, (k, v) ∈ c.accumulatorKVs → m.loadMetaBytes k = v := fun hkv =>
    loadMetaBytes_of_eq (h _ hkv)
  constructor
  · rw [restoreBuckets, hget (v := encodeEpochFees c.buckets.epochFees)
      (by simp [accumulatorKVs]), hget (v := encodePerEpochCounters c.buckets.epochRoundsProduced)
      (by simp [accumulatorKVs]), getD_decodeEpochFees hfit.fees,
      getD_decodePerEpochCounters hfit.rounds hfit.counters]
  · rw [restoreAdditions, hget (v := encodeHashList c.ledger.epochAdditions)
      (by simp [accumulatorKVs])]
    exact perm_decodeHashList hfit.additions
  · intro k
    rw [restoreRemovals, hget (v := encodeMemberSet c.ledger.pendingRemovals)
      (by simp [accumulatorKVs])]
    exact mem_decodeMemberSet hfit.removals k

theorem buildValidatorSet_of_get (hfit : RecordsFit vs.all)
    (h : m .liveValidators = some (encodeLiveValidators vs))
    (hfounder : ∀ seed, cfg.founder = some seed → vs.all ≠ []) : cfg.buildValidatorSet m = vs := by
  have hlen : ¬ (encodeLiveValidators vs).length = 0 := by
    have := @four_le_length_countedRecords _ encodeLiveValidatorRecord vs.all
    rw [encodeLiveValidators]
    omega
  unfold Config.buildValidatorSet loadLiveValidators
  simp only [h, if_neg hlen, restoreValidatorSet_decode hfit]
  by_cases hnil : vs.all = []
  · rw [if_pos hnil]
    cases hf : cfg.founder with
    | none => exact ValidatorSet.ext_all hnil.symm
    | some seed => exact absurd hnil (hfounder seed hf)
  · rw [if_neg hnil]

end Write

/-! ## Seating the founder again -/

/-- The founder is a committed member and holds stake of its own. -/
def FounderSeated (cfg : Config) (c : Chain) : Prop :=
  ∀ seed, cfg.founder = some seed → seed.pubkey ∈ c.ledger.committedMembers ∧
    ∃ v, c.ledger.validators.get seed.pubkey = some v ∧ v.selfStake ≠ 0

end Chain

/-- Membership and stake of a validator, without its address and BLS key. -/
def ValidatorInfo.stakeRecord (v : ValidatorInfo) : Hash × UInt64 × UInt64 × Bool × Hash :=
  (v.pubkey, v.selfStake, v.delegatedTotal, v.jailed, v.rewardCoin)

namespace ValidatorSet

theorem mem_keys_of_get {pubkey : Hash} (h : vs.get pubkey = some v) :
    pubkey ∈ vs.all.map (·.pubkey) := by
  have hv := List.mem_of_find?_eq_some h
  have hkey : v.pubkey = pubkey := by simpa using List.find?_some h
  exact hkey ▸ List.mem_map_of_mem hv

theorem add_known {pubkey : Hash} (h : vs.get pubkey = some v) (quicAddr : Bytes)
    (blsPubkey : BLSKey) :
    (vs.add pubkey quicAddr blsPubkey).all.map (·.stakeRecord) = vs.all.map (·.stakeRecord) ∧
      ∃ v', (vs.add pubkey quicAddr blsPubkey).get pubkey = some v' ∧
        v'.selfStake = v.selfStake := by
  rw [add, dif_pos (mem_keys_of_get h)]
  constructor
  · simp only [modify, Lib.Tally.update, List.map_map]
    apply List.map_congr_left
    intro w _
    simp only [Function.comp_apply]
    split <;> rfl
  · rw [get_modify, h]
    exact ⟨_, rfl, rfl⟩

end ValidatorSet

namespace Chain

variable {c c' : Chain} {seed : GenesisSeed} {written : Bool}

/-- What a restart compares besides the stakes. -/
structure SameBooks (c c' : Chain) : Prop where
  regime : c'.regime = c.regime
  buckets : c'.buckets = c.buckets
  cursor : c'.lastCommitted = c.lastCommitted
  members : c'.ledger.committedMembers = c.ledger.committedMembers
  additions : c'.ledger.epochAdditions = c.ledger.epochAdditions
  removals : c'.ledger.pendingRemovals = c.ledger.pendingRemovals
  stakes : c'.ledger.validators.all.map (·.stakeRecord) =
    c.ledger.validators.all.map (·.stakeRecord)

section

variable (hmember : seed.pubkey ∈ c.ledger.committedMembers)
  (hv : c.ledger.validators.get seed.pubkey = some v) (hstake : v.selfStake ≠ 0)

include hmember hv hstake

theorem seedGenesisValidator_of_seated : c.SameBooks (c.seedGenesisValidator cfg seed) := by
  obtain ⟨hrecords, v', hv', hself⟩ := ValidatorSet.add_known hv seed.quic seed.bls
  have hkeep : ((c.ledger.validators.add seed.pubkey seed.quic seed.bls).get seed.pubkey).all
      (fun v => decide (v.selfStake = 0)) = false := by
    rw [hv', Option.all_some, hself]
    simpa using hstake
  unfold seedGenesisValidator
  simp only [hkeep, Bool.false_eq_true, if_false, recordCommittedMember, if_pos hmember]
  exact ⟨rfl, rfl, rfl, rfl, rfl, rfl, hrecords⟩

theorem seedGenesisState_of_seated : c.SameBooks (c.seedGenesisState cfg seed) := by
  unfold seedGenesisState
  split
  · exact seedGenesisValidator_of_seated hmember hv hstake
  · have hseeded : { c with ledger := c.ledger.seedGenesisLedger seed }.SameBooks
        ({ c with ledger := c.ledger.seedGenesisLedger seed }.seedGenesisValidator cfg seed) :=
      seedGenesisValidator_of_seated hmember hv hstake
    exact { hseeded with }

end

/-! ## Fitting across a boundary -/

theorem recordsFit_map_coinless {vals : List ValidatorInfo} (h : RecordsFit vals)
    {vals' : List ValidatorInfo} (hsub : vals'.Sublist vals) :
    RecordsFit (vals'.map fun v => { v with rewardCoin := zeroHash }) := by
  constructor
  · rw [List.length_map]
    exact lt_of_le_of_lt hsub.length_le h.1
  · intro w hw
    obtain ⟨v, hv, rfl⟩ := List.mem_map.1 hw
    exact h.2 v (hsub.subset hv)

/-- What a boundary freezes from records that fit, fits. -/
theorem regimeFits_transitionEpoch (h : c.RegimeFits) (hlive : RecordsFit c.ledger.validators.all)
    (hquiet : c.QuietBoundary cfg) : (c.transitionEpoch cfg).RegimeFits := by
  have hvals : (c.boundaryLedger cfg).validators = c.ledger.validators := by
    have := transitionEpoch_validators hquiet
    rwa [transitionEpoch_eq] at this
  have hfreeze : ∀ vals : List ValidatorInfo, vals.Sublist c.ledger.validators.all →
      RecordsFit (HolderSet.freeze vals).all := by
    intro vals hsub
    rw [freeze_all (c.ledger.validators.nodup.sublist (hsub.map _))]
    exact recordsFit_map_coinless hlive hsub
  have hsnap :
      RecordsFit ((c.boundaryLedger cfg).snapshotEpochHolders cfg.maxChurnPerEpoch).all := by
    apply hfreeze
    rw [hvals]
    exact List.filter_sublist
  have hmembers := transitionEpoch_members cfg c
  rw [transitionEpoch_eq] at hmembers ⊢
  constructor
  · exact hsnap
  · show RecordsFit (c.regime.epochHolders.getD
      (HolderSet.freeze (c.boundaryLedger cfg).validators.all)).all
    have hholders := h.holders
    cases hh : c.regime.epochHolders with
    | none =>
      rw [hvals]
      exact hfreeze _ (List.Sublist.refl _)
    | some hs =>
      rw [hh] at hholders
      exact hholders
  · exact hsnap
  · exact h.produced
  · exact h.produced
  · show (c.regime.eligibleHolders.getD c.regime.producedMembers).length < 2 ^ 32
    have heligible := h.eligible
    cases he : c.regime.eligibleHolders with
    | none => exact h.produced
    | some set =>
      rw [he] at heligible
      exact heligible
  · exact h.produced
  · rw [hmembers]
    exact h.members

theorem accumulatorsFit_transitionEpoch (h : c.AccumulatorsFit)
    (hroom : c.buckets.epochFees.keys.card + 1 < 2 ^ 32) :
    (c.transitionEpoch cfg).AccumulatorsFit := by
  obtain ⟨hfees, hkeys, hlookup⟩ := transitionEpoch_buckets cfg c
  constructor
  · exact lt_of_le_of_lt hfees hroom
  · exact lt_of_le_of_lt (Finset.card_le_card hkeys) h.rounds
  · intro e b hb
    exact h.counters e b (hlookup e b hb)
  · rw [transitionEpoch_eq]
    show ([] : List Hash).length < 2 ^ 32
    decide
  · exact lt_of_le_of_lt (length_pendingRemovals_transitionEpoch cfg c) h.removals

/-! ## Reachable nodes -/

/-- The round writes the whole epoch state. -/
def writesEpochState (cfg : Config) (c : Chain) (round : UInt64) : Bool :=
  cfg.isEpochBoundary round || c.regimeDirty || c.producedDirty

/-- The states of a node between two rounds, and whether its epoch state has been on disk
since it was built. A start over any store, fresh or its own, reads it from there; a node
that joined from a snapshot has not written it yet. A node may add a validator to its live
set before any registration is committed. -/
inductive Reachable (cfg : Config) : Bool → Chain → Prop
  | start (d : Disk) : Reachable cfg true (d.start cfg)
  | joined (c : Chain) : Reachable cfg false c
  | addValidator {written : Bool} {c : Chain} (pubkey : Hash) (quicAddr : Bytes) (bls : BLSKey) :
      Reachable cfg written c →
      Reachable cfg written { c with
        ledger := { c.ledger with validators := c.ledger.validators.add pubkey quicAddr bls } }
  | decide {written : Bool} {c : Chain} (batch : List BatchVertex) :
      Reachable cfg written c →
      Reachable cfg (written ||
        (c.applyBatch cfg c.lastCommitted batch).writesEpochState cfg c.lastCommitted)
        (c.decideRound cfg batch)

/-- The keys the epoch state is restored from. -/
def regimeKeys : List MetaKey :=
  [.currentEpoch, .epochHolders, .prevEpochHolders, .nextEpochHolders, .producedMembers,
   .eligibleHolders, .prevEligibleHolders, .nextEligibleHolders, .committedMembers]

theorem RegimeSaved.congr {m' : Meta} (h : c.RegimeSaved m) (hm : ∀ k ∈ regimeKeys, m' k = m k) :
    c.RegimeSaved m' := by
  have hbytes : ∀ k ∈ regimeKeys, m'.loadMetaBytes k = m.loadMetaBytes k := by
    intro k hk
    rw [loadMetaBytes, loadMetaBytes, hm k hk]
  have hepoch : m'.loadMetaUint64 .currentEpoch = m.loadMetaUint64 .currentEpoch := by
    rw [loadMetaUint64, loadMetaUint64, hm .currentEpoch (by decide)]
  have hmembers : m'.restoreCommittedMembers = m.restoreCommittedMembers := by
    rw [restoreCommittedMembers, restoreCommittedMembers, hepoch,
      hbytes .committedMembers (by decide), hbytes .epochHolders (by decide)]
  -- the latch is read from a key of its own and plays no part here
  obtain ⟨latched, start, hload⟩ : ∃ latched start, m'.loadRegime =
      { m.loadRegime with strictLatched := latched, strictStartRound := start } := by
    unfold loadRegime
    rw [hepoch]
    cases m.loadMetaUint64 .currentEpoch with
    | none => exact ⟨_, _, rfl⟩
    | some epoch =>
      dsimp only
      rw [hbytes .epochHolders (by decide), hbytes .prevEpochHolders (by decide),
        hbytes .nextEpochHolders (by decide), hbytes .producedMembers (by decide),
        hbytes .eligibleHolders (by decide), hbytes .prevEligibleHolders (by decide),
        hbytes .nextEligibleHolders (by decide)]
      exact ⟨_, _, rfl⟩
  constructor <;> simp only [hload, hmembers]
  exacts [h.epoch, h.holders, h.prevHolders, h.nextHolders, h.eligible, h.prevEligible,
    h.nextEligible, h.produced, h.members]

theorem regimeSaved_writeAccumulators (h : c.RegimeSaved c.persisted) {vs : ValidatorSet} :
    c.RegimeSaved (c.writeAccumulators (.liveValidators, encodeLiveValidators vs)).persisted := by
  refine h.congr fun k hk => setBatch_of_notMem ?_
  show k ∉ [MetaKey.commitCursor, .epochFees, .epochRoundsProduced, .epochAdditions,
    .pendingRemovals, .liveValidators]
  revert k
  decide

theorem RegimeSaved.of_eq (h : c.RegimeSaved m) (hregime : c'.regime = c.regime)
    (hmembers : c'.ledger.committedMembers = c.ledger.committedMembers) : c'.RegimeSaved m := by
  constructor <;> simp only [hregime, hmembers]
  exacts [h.epoch, h.holders, h.prevHolders, h.nextHolders, h.eligible, h.prevEligible,
    h.nextEligible, h.produced, h.members]

/-- With the dirty flags down, what is on disk is the epoch state, if it fits. -/
def Saved (c : Chain) : Prop :=
  c.regimeDirty = false → c.producedDirty = false → c.RegimeFits → c.MembersRecorded →
    c.RegimeSaved c.persisted

theorem regimeFits_of_eq (h : c'.RegimeFits) (hregime : c'.regime = c.regime)
    (hmembers : c'.ledger.committedMembers = c.ledger.committedMembers) : c.RegimeFits := by
  constructor <;> simp only [← hregime, ← hmembers]
  exacts [h.holders, h.prevHolders, h.nextHolders, h.produced, h.eligible, h.prevEligible,
    h.nextEligible, h.members]

theorem Saved.touches (h : c.Saved) (ht : c.Touches c') : c'.Saved := by
  intro hr hp hfit hmem
  obtain ⟨hr₀, hp₀, hregime, hmembers⟩ := ht.clean hr hp
  have hmem₀ : c.MembersRecorded := by
    unfold MembersRecorded at hmem ⊢
    rwa [hregime, hmembers] at hmem
  rw [ht.persisted]
  exact (h hr₀ hp₀ (regimeFits_of_eq hfit hregime hmembers) hmem₀).of_eq hregime hmembers

theorem touches_seedGenesisState (c : Chain) (cfg : Config) (seed : GenesisSeed) :
    c.Touches (c.seedGenesisState cfg seed) := by
  have hrecord : ∀ (c₀ : Chain) (pubkey : Hash) (round : UInt64),
      c₀.Touches (c₀.recordCommittedMember cfg pubkey round) := by
    intro c₀ pubkey round
    unfold recordCommittedMember
    split
    · exact .refl c₀
    · refine Touches.trans ?_ (touches_refreezeGenesisRegime _ cfg round)
      exact ⟨rfl, rfl, rfl, rfl, by simp, fun h => h⟩
  have hvalidator : ∀ c₀ : Chain, c₀.Touches (c₀.seedGenesisValidator cfg seed) := by
    intro c₀
    unfold seedGenesisValidator
    refine Touches.trans ?_ (hrecord _ seed.pubkey c₀.lastCommitted)
    exact ⟨rfl, rfl, rfl, rfl, fun hr hp => ⟨hr, hp, rfl, rfl⟩, fun h => h⟩
  unfold seedGenesisState
  split
  · exact hvalidator c
  · refine Touches.trans ?_ (hvalidator _)
    exact ⟨rfl, rfl, rfl, rfl, fun hr hp => ⟨hr, hp, rfl, rfl⟩, fun h => h⟩

theorem touches_start (cfg : Config) (d : Disk) : (d.load cfg).Touches (d.start cfg) := by
  unfold Disk.start
  cases cfg.founder with
  | none => exact .refl _
  | some seed => exact touches_seedGenesisState _ cfg seed

/-- A round that writes no epoch state keeps what was saved; one that does saves it. -/
theorem saved_advanceCommitCursor {round : UInt64}
    (h : c.writesEpochState cfg round = false → c.Saved) :
    (c.advanceCommitCursor cfg round).Saved := by
  have hwrite : ∀ (c₀ : Chain) (vs : ValidatorSet),
      (c₀.writeEpochState (.liveValidators, encodeLiveValidators vs)).Saved := by
    intro c₀ vs _ _ hfit hmem
    have hfit₀ : c₀.RegimeFits := regimeFits_of_eq hfit rfl rfl
    have hmem₀ : c₀.MembersRecorded := hmem
    have hsaved : c₀.RegimeSaved
        (c₀.writeEpochState (.liveValidators, encodeLiveValidators vs)).persisted :=
      regimeSaved_writeEpochState hfit₀ hmem₀ rfl
    exact hsaved.of_eq rfl rfl
  unfold advanceCommitCursor
  dsimp only
  split
  · exact hwrite _ _
  · rename_i hboundary
    split
    · exact hwrite _ _
    · rename_i hdirty
      intro hr hp hfit hmem
      have hclean : c.writesEpochState cfg round = false := by
        simp only [writesEpochState, Bool.or_assoc]
        simp only [Bool.not_eq_true] at hboundary hdirty
        rw [hboundary, hdirty]
        rfl
      have hsaved := h hclean hr hp (regimeFits_of_eq hfit rfl rfl) hmem
      have hsaved' : { c with lastCommitted := round + 1 }.RegimeSaved c.persisted :=
        hsaved.of_eq rfl rfl
      exact (regimeSaved_writeAccumulators hsaved').of_eq rfl rfl

/-- A node whose epoch state is on disk has it saved. -/
theorem Reachable.saved (h : Reachable cfg written c) (hw : written = true) : c.Saved := by
  induction h with
  | start d =>
    refine Saved.touches ?_ (touches_start cfg d)
    intro _ _ _ _
    exact ⟨rfl, rfl, rfl, rfl, fun _ => Iff.rfl, fun _ => Iff.rfl, fun _ => Iff.rfl,
      fun _ => Iff.rfl, fun _ => Iff.rfl⟩
  | joined c => cases hw
  | addValidator pubkey quicAddr bls hc ih => exact fun hr hp hfit hmem =>
      (ih hw hr hp (regimeFits_of_eq hfit rfl rfl) hmem).of_eq rfl rfl
  | @decide written c batch hc ih =>
    apply saved_advanceCommitCursor
    intro hclean
    rw [hclean, Bool.or_false] at hw
    exact (ih hw).touches (touches_applyBatch cfg c _ batch)

/-! ## Restart after a round -/

/-- The node that is rebuilt agrees with the one that ran: epoch, cursor, holder and
eligibility snapshots, committed and produced members, fee and liveness accumulators,
additions and removals, and the live validators with their stakes. Sets are compared as
sets, and a snapshot that is absent counts as empty. -/
structure Restored (c r : Chain) : Prop where
  epoch : r.regime.currentEpoch = c.regime.currentEpoch
  cursor : r.lastCommitted = c.lastCommitted
  holders : holderList r.regime.epochHolders = holderList c.regime.epochHolders
  prevHolders : holderList r.regime.prevEpochHolders = holderList c.regime.prevEpochHolders
  nextHolders : holderList r.regime.nextEpochHolders = holderList c.regime.nextEpochHolders
  eligible : ∀ k, k ∈ r.regime.eligibleHolders.getD [] ↔ k ∈ c.regime.eligibleHolders.getD []
  prevEligible : ∀ k, k ∈ r.regime.prevEligibleHolders.getD [] ↔
    k ∈ c.regime.prevEligibleHolders.getD []
  nextEligible : ∀ k, k ∈ r.regime.nextEligibleHolders.getD [] ↔
    k ∈ c.regime.nextEligibleHolders.getD []
  members : ∀ k, k ∈ r.ledger.committedMembers ↔ k ∈ c.ledger.committedMembers
  produced : ∀ k, k ∈ r.regime.producedMembers ↔ k ∈ c.regime.producedMembers
  buckets : r.buckets = c.buckets
  additions : r.ledger.epochAdditions.Perm c.ledger.epochAdditions
  removals : ∀ k, k ∈ r.ledger.pendingRemovals ↔ k ∈ c.ledger.pendingRemovals
  stakes : r.ledger.validators.all.map (·.stakeRecord) =
    c.ledger.validators.all.map (·.stakeRecord)

/-- What a node has to be like when the cursor moves past a round: its records fit, its
founder is seated, its epoch state is or will be on disk, members are recorded, and a
boundary moves no stake. -/
structure Recoverable (cfg : Config) (written : Bool) (c : Chain) (round : UInt64) : Prop where
  regime : c.RegimeFits
  accumulators : c.AccumulatorsFit
  live : RecordsFit c.ledger.validators.all
  founder : c.FounderSeated cfg
  onDisk : written = true ∨ c.writesEpochState cfg round = true
  members : cfg.isEpochBoundary round = false → c.MembersRecorded
  boundary : cfg.isEpochBoundary round = true → c.QuietBoundary cfg ∧
    (c.ledger.committedMembers = [] → c.regime.currentEpoch + 1 ≠ 0) ∧
    c.buckets.epochFees.keys.card + 1 < 2 ^ 32

/-- The store a round leaves behind, and the node as it stands then. -/
structure OnDisk (cfg : Config) (c : Chain) : Prop where
  regime : c.RegimeSaved c.persisted
  accumulators : c.AccumulatorsSaved c.persisted
  cursor : c.persisted.loadMetaUint64 .commitCursor = some c.lastCommitted
  live : cfg.buildValidatorSet c.persisted = c.ledger.validators
  founder : c.FounderSeated cfg

theorem FounderSeated.validators_ne_nil (h : c.FounderSeated cfg) (hs : cfg.founder = some seed) :
    c.ledger.validators.all ≠ [] := by
  obtain ⟨-, v, hv, -⟩ := h seed hs
  exact List.ne_nil_of_mem (List.mem_of_find?_eq_some hv)

theorem onDisk_of_get (hregime : c.RegimeSaved c.persisted) (hacc : c.AccumulatorsFit)
    (hlive : RecordsFit c.ledger.validators.all) (hfounder : c.FounderSeated cfg)
    (hget : ∀ kv ∈ c.accumulatorKVs, c.persisted kv.1 = some kv.2)
    (hcursor : c.persisted .commitCursor = some (putUint64BE c.lastCommitted))
    (hset : c.persisted .liveValidators = some (encodeLiveValidators c.ledger.validators)) :
    c.OnDisk cfg where
  regime := hregime
  accumulators := accumulatorsSaved_of_get hacc hget
  cursor := loadMetaUint64_of_eq hcursor
  live := buildValidatorSet_of_get hlive hset fun _ hs => hfounder.validators_ne_nil hs
  founder := hfounder

theorem AccumulatorsFit.of_eq (h : c.AccumulatorsFit) (hbuckets : c'.buckets = c.buckets)
    (hledger : c'.ledger = c.ledger) : c'.AccumulatorsFit := by
  constructor <;> simp only [hbuckets, hledger]
  exacts [h.fees, h.rounds, h.counters, h.additions, h.removals]

theorem writeEpochState_onDisk (hregime : c.RegimeFits) (hacc : c.AccumulatorsFit)
    (hmem : c.MembersRecorded) (hvs : vs = c.ledger.validators) (hlive : RecordsFit vs.all)
    (hfounder : c.FounderSeated cfg) :
    (c.writeEpochState (.liveValidators, encodeLiveValidators vs)).OnDisk cfg := by
  subst hvs
  refine onDisk_of_get ?_ (hacc.of_eq rfl rfl) hlive hfounder (fun kv hkv => ?_) ?_ ?_
  · exact (regimeSaved_writeEpochState hregime hmem rfl).of_eq rfl rfl
  · exact writeEpochState_get rfl (.inl (mem_epochStateKVs_of_accumulator hkv))
  · exact setBatch_of_mem (nodup_epochBatch rfl) List.mem_cons_self
  · exact writeEpochState_get rfl (.inr rfl)

theorem writeAccumulators_onDisk (hsaved : c.RegimeSaved c.persisted) (hacc : c.AccumulatorsFit)
    (hlive : RecordsFit c.ledger.validators.all) (hfounder : c.FounderSeated cfg) :
    (c.writeAccumulators
      (.liveValidators, encodeLiveValidators c.ledger.validators)).OnDisk cfg := by
  refine onDisk_of_get ?_ (hacc.of_eq rfl rfl) hlive hfounder (fun kv hkv => ?_) ?_ ?_
  · exact (regimeSaved_writeAccumulators hsaved).of_eq rfl rfl
  · exact writeAccumulators_get rfl (.inl hkv)
  · exact setBatch_of_mem (nodup_accumulatorBatch rfl) List.mem_cons_self
  · exact writeAccumulators_get rfl (.inr rfl)

/-- A recoverable node is on disk once the cursor has moved. -/
theorem advanceCommitCursor_onDisk {round : UInt64} (h : c.Recoverable cfg written round)
    (hsaved : written = true → c.Saved) : (c.advanceCommitCursor cfg round).OnDisk cfg := by
  have hclean : ∀ c₀ : Chain, c₀.regime = c.regime → c₀.ledger = c.ledger → c₀.RegimeFits :=
    fun c₀ hr hl => regimeFits_of_eq h.regime hr.symm (by rw [hl])
  unfold advanceCommitCursor
  dsimp only
  split
  · rename_i hboundary
    obtain ⟨hquiet, hepoch, hroom⟩ := h.boundary hboundary
    have hquiet' : ({ c with lastCommitted := round + 1 } : Chain).QuietBoundary cfg :=
      ⟨hquiet.shares, hquiet.coins, hquiet.removals⟩
    have hvals := transitionEpoch_validators hquiet'
    have hmembers := transitionEpoch_members cfg { c with lastCommitted := round + 1 }
    apply writeEpochState_onDisk
    · exact regimeFits_transitionEpoch (hclean _ rfl rfl) h.live hquiet'
    · exact accumulatorsFit_transitionEpoch (h.accumulators.of_eq rfl rfl) hroom
    · intro hnil hzero
      rw [hmembers] at hnil
      rw [transitionEpoch_eq] at hzero
      exact absurd hzero (hepoch hnil)
    · exact hvals.symm
    · exact h.live
    · intro seed hs
      obtain ⟨hmember, v, hv, hstake⟩ := h.founder seed hs
      rw [hmembers, hvals]
      exact ⟨hmember, v, hv, hstake⟩
  · rename_i hboundary
    rw [Bool.not_eq_true] at hboundary
    split
    · exact writeEpochState_onDisk (hclean _ rfl rfl) (h.accumulators.of_eq rfl rfl)
        (h.members hboundary) rfl h.live h.founder
    · rename_i hdirty
      rw [Bool.not_eq_true, Bool.or_eq_false_iff] at hdirty
      have hwritten : written = true := by
        rcases h.onDisk with hw | hw
        · exact hw
        · simp [writesEpochState, hboundary, hdirty.1, hdirty.2] at hw
      have hdisk := hsaved hwritten hdirty.1 hdirty.2 h.regime (h.members hboundary)
      exact @writeAccumulators_onDisk cfg { c with lastCommitted := round + 1 }
        (hdisk.of_eq rfl rfl) (h.accumulators.of_eq rfl rfl) h.live h.founder

theorem restored_of_onDisk (h : c.OnDisk cfg) : c.Restored (c.restart cfg) := by
  have hload : c.Restored (c.disk.load cfg) := by
    refine ⟨h.regime.epoch, ?_, h.regime.holders, h.regime.prevHolders, h.regime.nextHolders,
      h.regime.eligible, h.regime.prevEligible, h.regime.nextEligible, h.regime.members,
      h.regime.produced, h.accumulators.buckets, h.accumulators.additions,
      h.accumulators.removals, ?_⟩
    · show (c.persisted.loadMetaUint64 .commitCursor).getD 0 = c.lastCommitted
      rw [h.cursor, Option.getD_some]
    · show (cfg.buildValidatorSet c.persisted).all.map (·.stakeRecord) = _
      rw [h.live]
  have hsame : (c.disk.load cfg).SameBooks (c.restart cfg) := by
    unfold restart Disk.start
    cases hf : cfg.founder with
    | none => exact ⟨rfl, rfl, rfl, rfl, rfl, rfl, rfl⟩
    | some seed =>
      obtain ⟨hmember, v, hv, hstake⟩ := h.founder seed hf
      apply seedGenesisState_of_seated ((h.regime.members seed.pubkey).2 hmember) _ hstake
      show (cfg.buildValidatorSet c.persisted).get seed.pubkey = some v
      rw [h.live]
      exact hv
  constructor <;> simp only [hsame.regime, hsame.cursor, hsame.members, hsame.buckets,
    hsame.additions, hsame.removals, hsame.stakes]
  exacts [hload.epoch, hload.cursor, hload.holders, hload.prevHolders, hload.nextHolders,
    hload.eligible, hload.prevEligible, hload.nextEligible, hload.members, hload.produced,
    hload.buckets, hload.additions, hload.removals, hload.stakes]

/-- A round that finds a recoverable node leaves it on disk. -/
theorem Reachable.onDisk (hc : Reachable cfg written c) {batch : List BatchVertex}
    (h : (c.applyBatch cfg c.lastCommitted batch).Recoverable cfg written c.lastCommitted) :
    (c.decideRound cfg batch).OnDisk cfg := by
  apply advanceCommitCursor_onDisk h
  intro hw
  exact (hc.saved hw).touches (touches_applyBatch cfg c _ batch)

/-- A restart right after a decided round restores the node, when it is recoverable as the
cursor moves. -/
theorem restart_restores_round {cfg : Config} {written : Bool} {c : Chain}
    (hc : Reachable cfg written c) (batch : List BatchVertex)
    (h : (c.applyBatch cfg c.lastCommitted batch).Recoverable cfg written c.lastCommitted) :
    (c.decideRound cfg batch).Restored ((c.decideRound cfg batch).restart cfg) :=
  restored_of_onDisk (hc.onDisk h)

end Chain

/-- A bootstrap node that closes an epoch every round. -/
def foundedConfig : Config where
  crypto := soloCrypto
  unsignedTxBytes := (soloNode (podReturning {})).unsignedTxBytes
  systemPod := idOf 200
  feeParams := defaultFeeParams
  pods := podReturning {}
  self := idOf 1
  epochLength := 1
  founder := some
    { pubkey := idOf 1
      quic := [49]
      bls := soloBLSKey
      selfStake := 1000
      coin := coinObject (idOf 11) (idOf 1) 20000
      supply := 21000 }

/-- A second validator calls a function of the system pod without arguments. -/
def secondCalls (func : Bytes) : AttestedTransaction where
  transaction := some (signedTx
    { sender := (idOf 2).val
      pod := (idOf 200).val
      functionName := func })

/-- The founder's vertex of a round, in which the second validator registers. -/
def foundedBatch (round : UInt64) (n : Byte) : List BatchVertex :=
  [{ hash := idOf n, round, producer := idOf 1,
     transactions := [secondCalls registerValidatorFunc] }]

/-- Counters that are checked entry by entry fit under every epoch. -/
theorem countersFit_of_entries {m : Finmap fun _ : UInt64 => Counters}
    (h : ∀ s ∈ m.entries, 4 + s.2.val.keys.card * 40 < 2 ^ 32) {e : UInt64} {b : Counters}
    (hb : m.lookup e = some b) : CountersFit b :=
  h ⟨e, b⟩ (Finmap.mem_lookup_iff.1 hb)

namespace Chain

/-- A founder registers a validator in its first round and in the round after it, which
closes the epoch and is restored. -/
theorem restart_restores_founded :
    let c := (({} : Disk).start foundedConfig).decideRound foundedConfig (foundedBatch 0 20)
    (c.decideRound foundedConfig (foundedBatch 1 21)).Restored
      ((c.decideRound foundedConfig (foundedBatch 1 21)).restart foundedConfig) := by
  refine restart_restores_round (.decide _ (.start {})) _ ?_
  constructor
  · constructor <;> decide +kernel
  · refine ⟨by decide +kernel, by decide +kernel, ?_, by decide +kernel, by decide +kernel⟩
    intro e b hb
    exact countersFit_of_entries (by decide +kernel) hb
  · decide +kernel
  · rintro seed hs
    cases hs
    decide +kernel
  · exact .inl rfl
  · intro h
    exact absurd h (by decide +kernel)
  · intro _
    refine ⟨⟨fun h => absurd h (by decide +kernel), fun h => absurd h (by decide +kernel), ?_⟩,
      by decide +kernel, by decide +kernel⟩
    intro k hk
    exact absurd (List.ne_nil_of_mem hk) (by decide +kernel)

/-- A validator that is removed at a boundary is live again after a restart. -/
theorem removed_validator_restarts :
    let c := ((({} : Disk).start foundedConfig).decideRound foundedConfig
      [{ hash := idOf 20, round := 0, producer := idOf 1,
         transactions := [secondCalls registerValidatorFunc,
          secondCalls deregisterValidatorFunc] }]).decideRound foundedConfig []
    (∃ written, Reachable foundedConfig written c) ∧
      c.ledger.validators.all.map (·.pubkey) = [idOf 1] ∧
      (c.restart foundedConfig).ledger.validators.all.map (·.pubkey) = [idOf 1, idOf 2] := by
  refine ⟨⟨_, .decide [] (.decide _ (.start {}))⟩, ?_, ?_⟩ <;> decide +kernel

end Chain

end BluePods
