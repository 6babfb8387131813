import BluePods.Follow
import BluePods.Restart

/-! A restart that goes unnoticed. Over a store that holds the epoch state, the accumulators
and the live validators of a node, the node that is built is alike to it, as long as the
issuance rate, the strict-regime latch and the founder's seat come back as they were. -/

namespace BluePods

/-! ## Snapshots -/

/-- A snapshot that is there has members: an empty one is not told apart from none. -/
def Filled (set : Option HolderSet) : Prop := ∀ hs, set = some hs → hs.all ≠ []

theorem filled_loadHolderSnapshot (data : Bytes) : Filled (loadHolderSnapshot data) := by
  intro hs h
  unfold loadHolderSnapshot at h
  split at h
  · cases h
  · dsimp only at h
    split at h
    · cases h
    · rename_i hlen
      rw [← Option.some.inj h]
      exact List.length_eq_zero_iff.not.1 hlen

theorem eq_of_holderList {a b : Option HolderSet} (ha : Filled a) (hb : Filled b)
    (h : holderList a = holderList b) : a = b := by
  cases a with
  | none =>
    cases b with
    | none => rfl
    | some hs => exact absurd h.symm (hb hs rfl)
  | some hs =>
    cases b with
    | none => exact absurd h (ha hs rfl)
    | some hs' => exact congrArg some (HolderSet.ext_all h)

namespace Meta

theorem loadRegime_latched (m : Meta) :
    m.loadRegime.strictLatched = (m.loadMetaUint64 .strictStartRound).isSome := by
  unfold loadRegime
  dsimp only
  split <;> rfl

theorem filled_loadRegime (m : Meta) :
    Filled m.loadRegime.epochHolders ∧ Filled m.loadRegime.prevEpochHolders ∧
      Filled m.loadRegime.nextEpochHolders := by
  have hnone : Filled none := by
    intro hs h
    cases h
  unfold loadRegime
  dsimp only
  split
  · exact ⟨hnone, hnone, hnone⟩
  · exact ⟨filled_loadHolderSnapshot _, filled_loadHolderSnapshot _, filled_loadHolderSnapshot _⟩

end Meta

namespace Chain

/-! ## The latch on disk -/

/-- A latch on disk has fired, and with the dirty flags down one that has fired is on
disk. -/
structure LatchSaved (c : Chain) : Prop where
  fired : (c.persisted.loadMetaUint64 .strictStartRound).isSome = true →
    c.regime.strictLatched = true
  saved : c.regimeDirty = false → c.producedDirty = false → c.regime.strictLatched = true →
    (c.persisted.loadMetaUint64 .strictStartRound).isSome = true

theorem LatchSaved.touches {c c' : Chain} (h : c.LatchSaved) (ht : c.Touches c') :
    c'.LatchSaved := by
  constructor
  · intro hsome
    rw [ht.persisted] at hsome
    exact ht.latched (h.fired hsome)
  · intro hr hp hl
    obtain ⟨hr₀, hp₀, hregime, -⟩ := ht.clean hr hp
    rw [ht.persisted]
    rw [hregime] at hl
    exact h.saved hr₀ hp₀ hl

theorem latchSaved_start (cfg : Config) (d : Disk) : (d.start cfg).LatchSaved := by
  have hload : (d.load cfg).LatchSaved :=
    ⟨fun h => (Meta.loadRegime_latched d.persisted).trans h,
      fun _ _ h => (Meta.loadRegime_latched d.persisted).symm.trans h⟩
  exact hload.touches (touches_start cfg d)

section

variable {c : Chain} {live : MetaKey × Bytes} (h : c.LatchSaved)

include h

theorem LatchSaved.writeEpochState (hlive : live.1 = .liveValidators) :
    (c.writeEpochState live).LatchSaved := by
  by_cases hl : c.regime.strictLatched = true
  · have hget : (c.writeEpochState live).persisted.loadMetaUint64 .strictStartRound =
        some c.regime.strictStartRound := by
      apply Meta.loadMetaUint64_of_eq
      apply writeEpochState_get hlive
      left
      simp [epochStateKVs, hl]
    exact ⟨fun _ => hl, fun _ _ _ => by rw [hget]; rfl⟩
  · have hget : (c.writeEpochState live).persisted .strictStartRound =
        c.persisted .strictStartRound := by
      apply Meta.setBatch_of_notMem
      simp [epochStateKVs, accumulatorKVs, hl, hlive]
    constructor
    · intro hsome
      rw [Meta.loadMetaUint64, hget] at hsome
      exact h.fired hsome
    · intro _ _ hl'
      exact absurd hl' hl

theorem LatchSaved.writeAccumulators (hlive : live.1 = .liveValidators) :
    (c.writeAccumulators live).LatchSaved := by
  have hget : (c.writeAccumulators live).persisted.loadMetaUint64 .strictStartRound =
      c.persisted.loadMetaUint64 .strictStartRound := by
    unfold Meta.loadMetaUint64
    rw [show (c.writeAccumulators live).persisted .strictStartRound =
      c.persisted .strictStartRound from Meta.setBatch_of_notMem (by simp [accumulatorKVs, hlive])]
  constructor
  · rw [hget]
    exact h.fired
  · rw [hget]
    exact h.saved

theorem LatchSaved.decideRound (cfg : Config) (batch : List BatchVertex) :
    (c.decideRound cfg batch).LatchSaved := by
  have happlied := h.touches (touches_applyBatch cfg c c.lastCommitted batch)
  unfold Chain.decideRound advanceCommitCursor
  dsimp only
  split
  · apply LatchSaved.writeEpochState _ rfl
    rw [transitionEpoch_eq]
    unfold settleDeferredEpoch
    split <;> exact ⟨happlied.fired, happlied.saved⟩
  · split
    · apply LatchSaved.writeEpochState _ rfl
      exact ⟨happlied.fired, happlied.saved⟩
    · apply LatchSaved.writeAccumulators _ rfl
      exact ⟨happlied.fired, happlied.saved⟩

end

theorem decideRound_clean (cfg : Config) (c : Chain) (batch : List BatchVertex) :
    (c.decideRound cfg batch).regimeDirty = false ∧
      (c.decideRound cfg batch).producedDirty = false := by
  unfold decideRound advanceCommitCursor
  dsimp only
  split
  · exact ⟨rfl, rfl⟩
  · split
    · exact ⟨rfl, rfl⟩
    · rename_i hdirty
      rw [Bool.not_eq_true, Bool.or_eq_false_iff] at hdirty
      exact hdirty

/-! ## Starting over a store -/

/-- The node with the objects, tracker, marks, counters and domains of a store. -/
def withStore (c : Chain) (d : Disk) : Chain :=
  { c with
    ledger :=
      { c.ledger with
        objects := d.objects
        tracker := d.tracker
        committedTxs := d.committedTxs
        totalSupply := d.totalSupply
        coinsTotal := d.coinsTotal
        domains := d.domains } }

/-- What a start does not read from the store, or reads only in part, is as a start leaves
it: the issuance rate is moved like the genesis rate, no snapshot is there and empty, and
the founder has its address and its BLS key. -/
structure Resumable (cfg : Config) (c : Chain) : Prop where
  rate : ∀ ratio, adjustRate cfg.thermostat.genesisRateMicro ratio cfg.thermostat =
    adjustRate c.issuanceRateMicro ratio cfg.thermostat
  holders : Filled c.regime.epochHolders
  prevHolders : Filled c.regime.prevEpochHolders
  nextHolders : Filled c.regime.nextEpochHolders
  founder : ∀ seed, cfg.founder = some seed →
    c.ledger.validators.add seed.pubkey seed.quic seed.bls = c.ledger.validators

/-- The genesis coin of a bootstrap node is in the store. -/
def GenesisStored (cfg : Config) (objects : ObjectStore) : Prop :=
  ∀ seed, cfg.founder = some seed → (objects.get seed.coinID).isSome = true

theorem seedGenesisState_eq {c : Chain} {cfg : Config} {seed : GenesisSeed} {v : ValidatorInfo}
    (hcoin : (c.ledger.getObject seed.coinID).isSome = true)
    (hadd : c.ledger.validators.add seed.pubkey seed.quic seed.bls = c.ledger.validators)
    (hmember : seed.pubkey ∈ c.ledger.committedMembers)
    (hv : c.ledger.validators.get seed.pubkey = some v) (hstake : v.selfStake ≠ 0) :
    c.seedGenesisState cfg seed = c := by
  have hkeep : (c.ledger.validators.get seed.pubkey).all (fun v => decide (v.selfStake = 0)) =
      false := by
    rw [hv, Option.all_some]
    simpa using hstake
  unfold seedGenesisState seedGenesisValidator
  rw [if_pos hcoin]
  simp only [hadd, hkeep, Bool.false_eq_true, if_false, recordCommittedMember, if_pos hmember]

section

variable {cfg : Config} {c : Chain} {d : Disk} (h : c.OnDisk cfg) (hd : d.persisted = c.persisted)

include h hd

theorem validators_load : (d.load cfg).ledger.validators = c.ledger.validators := by
  show cfg.buildValidatorSet d.persisted = c.ledger.validators
  rw [hd, h.live]

theorem mem_members_load (k : Hash) :
    k ∈ (d.load cfg).ledger.committedMembers ↔ k ∈ c.ledger.committedMembers := by
  show k ∈ d.persisted.restoreCommittedMembers ↔ _
  rw [hd]
  exact h.regime.members k

/-- What is read from the metadata of another node is alike to it. -/
theorem load_alike (S : Hash → Prop)
    (hlatch : c.persisted.loadRegime.strictLatched = c.regime.strictLatched)
    (hres : c.Resumable cfg) : (c.withStore d).Alike cfg S (d.load cfg) := by
  obtain ⟨hfilled, hfilledPrev, hfilledNext⟩ := Meta.filled_loadRegime c.persisted
  have hmembers := mem_members_load h hd
  refine ⟨⟨(d.load cfg).ledger.book, ?_, fun _ _ => Iff.rfl, hmembers, ?_, ?_⟩, ?_, ?_, hres.rate,
    ?_, ?_, ?_, ?_, ?_⟩
  · show (d.load cfg).ledger = { (d.load cfg).ledger with validators := c.ledger.validators }
    rw [← validators_load h hd]
  · show d.persisted.restoreAdditions.Perm c.ledger.epochAdditions
    rw [hd]
    exact h.accumulators.additions
  · show ∀ k, k ∈ d.persisted.restoreRemovals ↔ k ∈ c.ledger.pendingRemovals
    rw [hd]
    exact h.accumulators.removals
  · show d.persisted.restoreBuckets = c.buckets
    rw [hd, h.accumulators.buckets]
  · show (d.persisted.loadMetaUint64 .commitCursor).getD 0 = c.lastCommitted
    rw [hd, h.cursor, Option.getD_some]
  · show d.persisted.loadRegime.currentEpoch = c.regime.currentEpoch
    rw [hd, h.regime.epoch]
  · show d.persisted.loadRegime.epochHolders = c.regime.epochHolders
    rw [hd]
    exact eq_of_holderList hfilled hres.holders h.regime.holders
  · show d.persisted.loadRegime.prevEpochHolders = c.regime.prevEpochHolders
    rw [hd]
    exact eq_of_holderList hfilledPrev hres.prevHolders h.regime.prevHolders
  · show d.persisted.loadRegime.nextEpochHolders = c.regime.nextEpochHolders
    rw [hd]
    exact eq_of_holderList hfilledNext hres.nextHolders h.regime.nextHolders
  · show d.persisted.loadRegime.strictLatched = c.regime.strictLatched
    rw [hd, hlatch]

/-- The founder's state is all there, so nothing is seeded again. -/
theorem start_eq_load (hres : c.Resumable cfg) (hcoin : GenesisStored cfg d.objects) :
    d.start cfg = d.load cfg := by
  unfold Disk.start
  cases hf : cfg.founder with
  | none => rfl
  | some seed =>
    obtain ⟨hmember, v, hv, hstake⟩ := h.founder seed hf
    refine seedGenesisState_eq (hcoin seed hf) ?_ ((mem_members_load h hd seed.pubkey).2 hmember)
      (v := v) ?_ hstake
    · rw [validators_load h hd]
      exact hres.founder seed hf
    · rw [validators_load h hd]
      exact hv

/-- The node built over a store that holds the metadata of another is alike to it. -/
theorem start_alike (S : Hash → Prop)
    (hlatch : c.persisted.loadRegime.strictLatched = c.regime.strictLatched)
    (hres : c.Resumable cfg) (hcoin : GenesisStored cfg d.objects) :
    (c.withStore d).Alike cfg S (d.start cfg) ∧ (d.start cfg).rendezvous = none := by
  rw [start_eq_load h hd hres hcoin]
  exact ⟨load_alike h hd S hlatch hres, rfl⟩

end

theorem restart_alike {cfg : Config} {c : Chain} (S : Hash → Prop) (h : c.OnDisk cfg)
    (hlatch : c.persisted.loadRegime.strictLatched = c.regime.strictLatched)
    (hres : c.Resumable cfg) (hcoin : GenesisStored cfg c.ledger.objects) :
    c.Alike cfg S (c.restart cfg) ∧ (c.restart cfg).rendezvous = none :=
  @start_alike cfg c c.disk h rfl S hlatch hres hcoin

theorem LatchSaved.loadRegime_eq {c : Chain} (h : c.LatchSaved) (cfg : Config)
    (batch : List BatchVertex) :
    (c.decideRound cfg batch).persisted.loadRegime.strictLatched =
      (c.decideRound cfg batch).regime.strictLatched := by
  obtain ⟨hr, hp⟩ := decideRound_clean cfg c batch
  have hl := h.decideRound cfg batch
  rw [Meta.loadRegime_latched, Bool.eq_iff_iff]
  exact ⟨hl.fired, hl.saved hr hp⟩

end Chain

end BluePods
