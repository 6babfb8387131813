import BluePods.Issuance
import BluePods.Snapshot

/-! A node that joins from a sync snapshot. The snapshot carries the objects, the tracker,
the domains, the counters, the live validators and the regime state, but neither the
commit-once marks nor the sharding of the last boundary. The joiner applies the log like
its source as long as nothing in the log depends on those. -/

namespace BluePods
open Lib.Records Lib.SortedMap

/-! ## The regime blob -/

namespace Chain

/-- The regime state a snapshot carries. -/
def encodeRegimeState (c : Chain) : Bytes :=
  putUint64BE c.regime.currentEpoch ++ (boolByte c.regime.strictLatched ::
    (putUint64BE c.regime.strictStartRound ++
    (lenPrefixed (encodeHolderSnapshot c.regime.epochHolders) ++
    (lenPrefixed (encodeHolderSnapshot c.regime.prevEpochHolders) ++
    (lenPrefixed (encodeHolderSnapshot c.regime.nextEpochHolders) ++
    (lenPrefixed (encodeMemberSet c.regime.producedMembers) ++
    (lenPrefixed (encodeMemberSet (c.regime.eligibleHolders.getD [])) ++
    (lenPrefixed (encodeMemberSet (c.regime.prevEligibleHolders.getD [])) ++
    (lenPrefixed (encodeMemberSet (c.regime.nextEligibleHolders.getD [])) ++
    (lenPrefixed (encodeMemberSet c.ledger.committedMembers) ++
    (lenPrefixed (encodeEpochFees c.buckets.epochFees) ++
    (lenPrefixed (encodePerEpochCounters c.buckets.epochRoundsProduced) ++
    (lenPrefixed (encodeHashList c.ledger.epochAdditions) ++
    lenPrefixed (encodeMemberSet c.ledger.pendingRemovals))))))))))))))

end Chain

/-- One holder snapshot; an empty one reads as absent. -/
def readHolderBlob (data : Bytes) : Option HolderSet × Bytes :=
  let (raw, rest) := readLenPrefixed data
  (loadHolderSnapshot raw, rest)

def readMemberBlob (data : Bytes) : Option (List Hash) × Bytes :=
  let (raw, rest) := readLenPrefixed data
  (decodeMemberSet raw, rest)

namespace Chain

/-- The accumulators of a blob; those it does not carry stay. -/
def readEpochAccumulators (c : Chain) (data : Bytes) : Chain :=
  let (fees, data) := readLenPrefixed data
  let (produced, data) := readLenPrefixed data
  let (additions, data) := readLenPrefixed data
  let (removals, _) := readLenPrefixed data
  { c with
    buckets :=
      { epochFees := (decodeEpochFees fees).getD c.buckets.epochFees
        epochRoundsProduced :=
          (decodePerEpochCounters produced).getD c.buckets.epochRoundsProduced }
    ledger :=
      { c.ledger with
        epochAdditions := (decodeHashList additions).getD c.ledger.epochAdditions
        pendingRemovals := (decodeMemberSet removals).getD c.ledger.pendingRemovals } }

/-- Install a regime blob over whatever the node had. -/
def applyRegimeState (c : Chain) (blob : Bytes) : Chain :=
  if blob.length < 17 then c
  else
    let (epochHolders, rest) := readHolderBlob (blob.drop 17)
    let (prevEpochHolders, rest) := readHolderBlob rest
    let (nextEpochHolders, rest) := readHolderBlob rest
    let (producedMembers, rest) := readMemberBlob rest
    let (eligibleHolders, rest) := readMemberBlob rest
    let (prevEligibleHolders, rest) := readMemberBlob rest
    let (nextEligibleHolders, rest) := readMemberBlob rest
    let (committedMembers, rest) := readMemberBlob rest
    { c with
      regime :=
        { currentEpoch := uint64BE blob
          epochHolders, prevEpochHolders, nextEpochHolders
          producedMembers := producedMembers.getD []
          eligibleHolders, prevEligibleHolders, nextEligibleHolders
          strictLatched := blob.getD 8 0 != 0
          strictStartRound := uint64BE (blob.drop 9) }
      ledger := { c.ledger with committedMembers := committedMembers.getD [] }
      }.readEpochAccumulators rest

end Chain

/-! ## The joiner -/

/-- The objects a snapshot carries: those whose identifier does not look like a consensus
key. -/
def ObjectStore.carried (s : ObjectStore) : ObjectStore :=
  s.bodies.keys.foldl (fun acc id => if isConsensusKey id.val then acc.delete id else acc) s

/-- The cursor of a node as the round it decided last. -/
def lastDecidedRound (cursor : UInt64) : UInt64 := if cursor = 0 then 0 else cursor - 1

/-- The live set from a snapshot's validators, with stakes and reward coins. -/
def buildValidatorSetFromSnapshot (infos : List ValidatorInfo) : ValidatorSet :=
  infos.foldl (fun vs v => (vs.addWithStake v).setRewardCoin v.pubkey v.rewardCoin) .empty

namespace Chain

/-- A node with an empty store that has imported a snapshot of `c`. The order in which a
store lists its keys has no meaning and is kept. -/
def join (c : Chain) : Chain :=
  { ledger :=
      { objects := c.ledger.objects.carried
        tracker := c.ledger.tracker
        validators := buildValidatorSetFromSnapshot
          (decodeValidators (encodeValidators (sortValidatorInfos c.ledger.validators.all)))
        totalSupply := c.ledger.totalSupply
        coinsTotal := c.ledger.coinsTotal
        domains := c.ledger.domains }
    lastCommitted := lastDecidedRound c.lastCommitted + 1
    issuanceRateMicro := c.issuanceRateMicro
    committedVertices := c.committedVertices : Chain }.applyRegimeState c.encodeRegimeState

/-- Apply a log of decided rounds. -/
def run (cfg : Config) (c : Chain) (log : List (List BatchVertex)) : Chain :=
  log.foldl (decideRound cfg) c

end Chain

/-! ## What the blob brings over -/

theorem readHolderBlob_append {set : Option HolderSet} (hfit : RecordsFit (holderList set))
    (hfilled : Filled set) (hlen : (encodeHolderSnapshot set).length < 2 ^ 32) (rest : Bytes) :
    readHolderBlob (lenPrefixed (encodeHolderSnapshot set) ++ rest) = (set, rest) := by
  unfold readHolderBlob
  rw [readLenPrefixed_lenPrefixed hlen]
  dsimp only
  rw [loadHolderSnapshot_encode hfit]
  cases set with
  | none => rfl
  | some hs => simp [Option.filter, hfilled hs rfl]

theorem readMemberBlob_append {set : List Hash}
    (hlen : (encodeMemberSet set).length < 2 ^ 32) (rest : Bytes) :
    readMemberBlob (lenPrefixed (encodeMemberSet set) ++ rest) =
      (decodeMemberSet (encodeMemberSet set), rest) := by
  unfold readMemberBlob
  rw [readLenPrefixed_lenPrefixed hlen]

namespace Chain

/-- The fields of the blob fit their length prefixes. -/
structure BlobFits (c : Chain) : Prop where
  holders : (encodeHolderSnapshot c.regime.epochHolders).length < 2 ^ 32
  prevHolders : (encodeHolderSnapshot c.regime.prevEpochHolders).length < 2 ^ 32
  nextHolders : (encodeHolderSnapshot c.regime.nextEpochHolders).length < 2 ^ 32
  produced : (encodeMemberSet c.regime.producedMembers).length < 2 ^ 32
  eligible : (encodeMemberSet (c.regime.eligibleHolders.getD [])).length < 2 ^ 32
  prevEligible : (encodeMemberSet (c.regime.prevEligibleHolders.getD [])).length < 2 ^ 32
  nextEligible : (encodeMemberSet (c.regime.nextEligibleHolders.getD [])).length < 2 ^ 32
  members : (encodeMemberSet c.ledger.committedMembers).length < 2 ^ 32
  fees : (encodeEpochFees c.buckets.epochFees).length < 2 ^ 32
  rounds : (encodePerEpochCounters c.buckets.epochRoundsProduced).length < 2 ^ 32
  additions : (encodeHashList c.ledger.epochAdditions).length < 2 ^ 32
  removals : (encodeMemberSet c.ledger.pendingRemovals).length < 2 ^ 32

theorem readEpochAccumulators_append {c : Chain} (h : c.BlobFits) (d : Chain) :
    d.readEpochAccumulators
      (lenPrefixed (encodeEpochFees c.buckets.epochFees) ++
      (lenPrefixed (encodePerEpochCounters c.buckets.epochRoundsProduced) ++
      (lenPrefixed (encodeHashList c.ledger.epochAdditions) ++
      lenPrefixed (encodeMemberSet c.ledger.pendingRemovals)))) =
      { d with
        buckets :=
          { epochFees := (decodeEpochFees (encodeEpochFees c.buckets.epochFees)).getD
              d.buckets.epochFees
            epochRoundsProduced := (decodePerEpochCounters (encodePerEpochCounters
              c.buckets.epochRoundsProduced)).getD d.buckets.epochRoundsProduced }
        ledger :=
          { d.ledger with
            epochAdditions := (decodeHashList (encodeHashList c.ledger.epochAdditions)).getD
              d.ledger.epochAdditions
            pendingRemovals := (decodeMemberSet (encodeMemberSet c.ledger.pendingRemovals)).getD
              d.ledger.pendingRemovals } } := by
  have hlast := readLenPrefixed_lenPrefixed h.removals []
  rw [List.append_nil] at hlast
  simp only [readEpochAccumulators, readLenPrefixed_lenPrefixed h.fees,
    readLenPrefixed_lenPrefixed h.rounds, readLenPrefixed_lenPrefixed h.additions, hlast]

theorem regimeHead (epoch start : UInt64) (latched : Bool) (rest : Bytes) :
    let blob := putUint64BE epoch ++ (boolByte latched :: (putUint64BE start ++ rest))
    ¬ blob.length < 17 ∧ uint64BE blob = epoch ∧ (blob.getD 8 0 != 0) = latched ∧
      uint64BE (blob.drop 9) = start ∧ blob.drop 17 = rest := by
  have hjail : (boolByte latched != 0) = latched := by cases latched <;> rfl
  refine ⟨?_, uint64BE_putUint64BE _ _, by simpa [List.getElem?_append] using hjail, ?_, ?_⟩
  · simp only [List.length_append, List.length_cons, length_putUint64BE]
    omega
  · simp [List.drop_append, List.drop_of_length_le, uint64BE_putUint64BE]
  · simp [List.drop_append, List.drop_of_length_le]

theorem applyRegimeState_encode {c : Chain} (hfit : c.RegimeFits) (hblob : c.BlobFits)
    (hholders : Filled c.regime.epochHolders) (hprev : Filled c.regime.prevEpochHolders)
    (hnext : Filled c.regime.nextEpochHolders) (d : Chain) :
    d.applyRegimeState c.encodeRegimeState =
      { d with
        regime :=
          { c.regime with
            producedMembers := (decodeMemberSet (encodeMemberSet c.regime.producedMembers)).getD []
            eligibleHolders := decodeMemberSet (encodeMemberSet (c.regime.eligibleHolders.getD []))
            prevEligibleHolders :=
              decodeMemberSet (encodeMemberSet (c.regime.prevEligibleHolders.getD []))
            nextEligibleHolders :=
              decodeMemberSet (encodeMemberSet (c.regime.nextEligibleHolders.getD [])) }
        buckets :=
          { epochFees := (decodeEpochFees (encodeEpochFees c.buckets.epochFees)).getD
              d.buckets.epochFees
            epochRoundsProduced := (decodePerEpochCounters (encodePerEpochCounters
              c.buckets.epochRoundsProduced)).getD d.buckets.epochRoundsProduced }
        ledger :=
          { d.ledger with
            committedMembers :=
              (decodeMemberSet (encodeMemberSet c.ledger.committedMembers)).getD []
            epochAdditions := (decodeHashList (encodeHashList c.ledger.epochAdditions)).getD
              d.ledger.epochAdditions
            pendingRemovals := (decodeMemberSet (encodeMemberSet c.ledger.pendingRemovals)).getD
              d.ledger.pendingRemovals } } := by
  unfold applyRegimeState encodeRegimeState
  obtain ⟨hlen, hepoch, hlatched, hstart, hrest⟩ := regimeHead c.regime.currentEpoch
    c.regime.strictStartRound c.regime.strictLatched _
  rw [if_neg hlen, hrest, hepoch, hlatched, hstart]
  simp only [readHolderBlob_append hfit.holders hholders hblob.holders,
    readHolderBlob_append hfit.prevHolders hprev hblob.prevHolders,
    readHolderBlob_append hfit.nextHolders hnext hblob.nextHolders,
    readMemberBlob_append hblob.produced, readMemberBlob_append hblob.eligible,
    readMemberBlob_append hblob.prevEligible, readMemberBlob_append hblob.nextEligible,
    readMemberBlob_append hblob.members, readEpochAccumulators_append hblob]

end Chain

/-! ## What the rest of the snapshot brings over -/

theorem ObjectStore.get_carried (s : ObjectStore) (id : Hash) :
    s.carried.get id = if isConsensusKey id.val then none else s.get id := by
  have hfold : ∀ (keys : List Hash) (acc : ObjectStore),
      (keys.foldl (fun acc id => if isConsensusKey id.val then acc.delete id else acc) acc).get id =
        if id ∈ keys ∧ isConsensusKey id.val then none else acc.get id := by
    intro keys
    induction keys with
    | nil => simp
    | cons k keys ih =>
      intro acc
      rw [List.foldl_cons, ih]
      by_cases hk : id = k
      · subst hk
        cases isConsensusKey id.val <;> simp [get_delete]
      · cases isConsensusKey k.val <;> simp [get_delete, hk]
  rw [carried, hfold]
  by_cases hmem : id ∈ s.bodies.keys
  · simp [hmem]
  · have hnone : s.get id = none := AList.lookup_eq_none.2 hmem
    simp [hnone]

/-- An empty store that accepts a snapshot of a store with some objects has the objects that
are carried, whatever their encoding. -/
theorem restoreFrom_carried {cr : Crypto} {source : Db} {cut : Cut} {s : ObjectStore}
    {enc : Object → Bytes} (hsource : ∀ id : Hash, source.get id.val = (s.get id).map enc)
    (h : verifyChecksum cr (createSnapshot cr source cut) = true) (id : Hash) :
    (restoreFrom cr source cut ∅).get id.val = (s.carried.get id).map enc := by
  rw [get_restoreFrom ∅ h, ObjectStore.get_carried, hsource]
  have hnone : Db.get ∅ id.val = none := rfl
  rw [hnone, Option.or_none]
  split <;> rfl

theorem ObjectStore.carried_eq {s : ObjectStore}
    (h : ∀ id ∈ s.bodies.keys, isConsensusKey id.val = false) : s.carried = s := by
  unfold ObjectStore.carried
  generalize s.bodies.keys = keys at h
  induction keys with
  | nil => rfl
  | cons id keys ih =>
    rw [List.foldl_cons, if_neg (by rw [h id List.mem_cons_self]; exact Bool.false_ne_true)]
    exact ih fun id' hid => h id' (List.mem_cons_of_mem _ hid)

theorem buildValidatorSetFromSnapshot_all (vs : ValidatorSet) :
    buildValidatorSetFromSnapshot vs.all = vs :=
  foldl_restore vs

namespace Chain

/-! ## Following the source -/

/-- Until the next boundary no round registers a validator that is not live. -/
def RegistersKnownOnly (cfg : Config) : Chain → List (List BatchVertex) → Prop
  | _, [] => True
  | c, batch :: log =>
    c.RegisterKnown cfg (batchTxs batch) ∧
      (cfg.isEpochBoundary c.lastCommitted = false →
        RegistersKnownOnly cfg (c.decideRound cfg batch) log)

/-- What a snapshot of the node can carry, and a log that does not depend on the rest: its
transactions are not marked yet, and while the joiner draws object holders from the live
validators these are the holders of the source's last boundary. The validators are in the
snapshot's order: a boundary pays in list order, and a coin that is nearly full refuses
whichever share comes last. -/
structure Joinable (cfg : Config) (c : Chain) (log : List (List BatchVertex)) : Prop where
  started : c.lastCommitted ≠ 0
  objects : ∀ id ∈ c.ledger.objects.bodies.keys, isConsensusKey id.val = false
  ascending : c.ledger.validators.all.Pairwise fun v w => v.pubkey ≤ w.pubkey
  addresses : ∀ v ∈ c.ledger.validators.all, v.quicAddr.length < 2 ^ 16
  regime : c.RegimeFits
  accumulators : c.AccumulatorsFit
  blob : c.BlobFits
  holders : Filled c.regime.epochHolders
  prevHolders : Filled c.regime.prevEpochHolders
  nextHolders : Filled c.regime.nextEpochHolders
  shards : ∀ vs, c.rendezvous = some vs →
    vs.keys = c.ledger.validators.keys ∧ c.RegistersKnownOnly cfg log
  unmarked : ∀ batch ∈ log, ∀ atx ∈ batchTxs batch,
    Ledger.MarksIn (fun k => k ∉ c.ledger.committedTxs) atx

section

variable {cfg : Config} {c : Chain} {log : List (List BatchVertex)}

/-- A joiner is alike to its source, up to the marks of the source. -/
theorem Joinable.alike (h : c.Joinable cfg log) :
    c.Alike cfg (fun k => k ∉ c.ledger.committedTxs) c.join ∧ c.join.rendezvous = none := by
  have hvals : buildValidatorSetFromSnapshot
      (decodeValidators (encodeValidators (sortValidatorInfos c.ledger.validators.all))) =
      c.ledger.validators := by
    rw [sortValidatorInfos, List.Pairwise.insertionSort_eq h.ascending,
      decodeValidators_encode h.addresses, buildValidatorSetFromSnapshot_all]
  have hcursor : lastDecidedRound c.lastCommitted + 1 = c.lastCommitted := by
    rw [lastDecidedRound, if_neg h.started]
    exact UInt64.sub_add_cancel _ _
  unfold join
  rw [applyRegimeState_encode h.regime h.blob h.holders h.prevHolders h.nextHolders]
  refine ⟨⟨?_, ?_, hcursor, fun _ => rfl, rfl, rfl, rfl, rfl, rfl⟩, rfl⟩
  · refine ⟨
      { committedMembers := (decodeMemberSet (encodeMemberSet c.ledger.committedMembers)).getD []
        epochAdditions := (decodeHashList (encodeHashList c.ledger.epochAdditions)).getD []
        pendingRemovals := (decodeMemberSet (encodeMemberSet c.ledger.pendingRemovals)).getD [] },
      ?_, ?_, mem_decodeMemberSet h.regime.members, perm_decodeHashList h.accumulators.additions,
      mem_decodeMemberSet h.accumulators.removals⟩
    · dsimp only
      rw [hvals, ObjectStore.carried_eq h.objects]
      rfl
    · intro k hk
      exact ⟨fun hnil => absurd hnil List.not_mem_nil, fun hin => absurd hin hk⟩
  · show ({ epochFees := (decodeEpochFees (encodeEpochFees c.buckets.epochFees)).getD ∅
            epochRoundsProduced := (decodePerEpochCounters
              (encodePerEpochCounters c.buckets.epochRoundsProduced)).getD ∅ } : Buckets) = _
    rw [getD_decodeEpochFees h.accumulators.fees,
      getD_decodePerEpochCounters h.accumulators.rounds h.accumulators.counters]

theorem Alike.run {S : Hash → Prop} {c' : Chain} (h : c.Alike cfg S c')
    (hs : c'.rendezvous = c.rendezvous ∨ c.Drifted c' ∧ c.RegistersKnownOnly cfg log)
    (hS : ∀ batch ∈ log, ∀ atx ∈ batchTxs batch, Ledger.MarksIn S atx) :
    (c.run cfg log).Alike cfg S (c'.run cfg log) := by
  induction log generalizing c c' with
  | nil => exact h
  | cons batch log ih =>
    have hmarks := hS batch List.mem_cons_self
    have hshards : c.SameShards cfg c' (batchTxs batch) := hs.imp_right fun ⟨hd, hk⟩ => ⟨hd, hk.1⟩
    have hrest := hshards
    rw [← List.append_nil (batchTxs batch)] at hrest
    obtain ⟨halike, hafter⟩ := h.decideRound hshards (fun _ => hrest) hmarks
    refine ih halike ?_ fun b hb => hS b (List.mem_cons_of_mem _ hb)
    cases hb : cfg.isEpochBoundary c.lastCommitted with
    | true => exact .inl (h.decideRound_boundary hshards hmarks hb)
    | false =>
      rcases hs with heq | ⟨-, -, hknown⟩
      · left
        rw [decideRound_rendezvous hb, decideRound_rendezvous (by rwa [h.cursor]), heq]
      · exact hafter.imp_right fun ⟨hd, _⟩ => ⟨hd, hknown hb⟩

end

/-- Coins and other objects, tracker entries, stakes, domains and supply counters are the
same. -/
structure SameLedger (c c' : Chain) : Prop where
  objects : c'.ledger.objects = c.ledger.objects
  tracker : c'.ledger.tracker = c.ledger.tracker
  stakes : c'.ledger.validators = c.ledger.validators
  domains : c'.ledger.domains = c.ledger.domains
  totalSupply : c'.ledger.totalSupply = c.ledger.totalSupply
  coinsTotal : c'.ledger.coinsTotal = c.ledger.coinsTotal

/-- A joiner ends where its source ends, over every log that repeats no transaction the
source has marked and registers no new validator before the next boundary. -/
theorem join_follows (cfg : Config) (c : Chain) (log : List (List BatchVertex))
    (h : c.Joinable cfg log) : (c.run cfg log).SameLedger (c.join.run cfg log) := by
  obtain ⟨halike, hnone⟩ := h.alike
  have hshards : c.join.rendezvous = c.rendezvous ∨
      c.Drifted c.join ∧ c.RegistersKnownOnly cfg log := by
    cases hr : c.rendezvous with
    | none =>
      left
      rw [hnone]
    | some vs =>
      right
      obtain ⟨hkeys, hknown⟩ := h.shards vs hr
      exact ⟨⟨hnone, vs, hr, hkeys⟩, hknown⟩
  obtain ⟨b, hb, -⟩ := (halike.run hshards h.unmarked).ledger
  refine ⟨?_, ?_, ?_, ?_, ?_, ?_⟩ <;> rw [hb] <;> rfl

/-- The founder pays for a call that references nothing and declares an object. -/
def founderCall : AttestedTransaction where
  transaction := some (signedTx
    { sender := (idOf 1).val
      pod := (idOf 7).val
      functionName := ascii "create"
      gasCoin := (idOf 11).val
      maxGas := 100
      createdObjectsReplication := [0] })

/-- The founder's vertex of a round with some transactions. -/
def founderRound (hash : Hash) (round : UInt64) (txs : List AttestedTransaction) :
    List BatchVertex :=
  [{ hash, round, producer := idOf 1, transactions := txs }]

/-- A joiner after an empty round applies the founder's call like its source. -/
theorem join_follows_founder :
    let c := (({} : Disk).start foundedConfig).run foundedConfig [[]]
    let log := [founderRound (idOf 21) 1 [founderCall]]
    (c.run foundedConfig log).SameLedger (c.join.run foundedConfig log) := by
  intro c log
  have hfees : c.buckets.epochFees = ∅ := by decide +kernel
  have hrounds : c.buckets.epochRoundsProduced = ∅ := by decide +kernel
  have hregime : c.RegimeFits := by constructor <;> decide +kernel
  have hblob : c.BlobFits := by
    constructor
    case fees =>
      rw [hfees, encodeEpochFees, (toPairs_eq_nil _).2 rfl]
      decide
    case rounds =>
      rw [hrounds, encodePerEpochCounters, (toPairs_eq_nil _).2 rfl]
      decide
    all_goals decide +kernel
  apply join_follows
  constructor
  case regime => exact hregime
  case accumulators =>
    exact emptyBuckets_fit hfees hrounds (by decide +kernel) (by decide +kernel)
  case blob => exact hblob
  case shards =>
    intro vs hvs
    rw [show c.rendezvous = none by decide +kernel] at hvs
    cases hvs
  case unmarked =>
    intro batch _ atx _ tx _ k _
    rw [show c.ledger.committedTxs = [] by decide +kernel]
    exact List.not_mem_nil
  case holders | prevHolders | nextHolders =>
    unfold Filled
    decide +kernel
  all_goals decide +kernel

/-- The joiner has no mark of a call its source has committed, and charges it again. -/
theorem joiner_charges_again :
    let c := (({} : Disk).start foundedConfig).run foundedConfig
      [founderRound (idOf 20) 0 [founderCall]]
    let log := [founderRound (idOf 21) 1 [founderCall]]
    (c.run foundedConfig log).ledger.balanceOf (idOf 11) = some 18875 ∧
      (c.join.run foundedConfig log).ledger.balanceOf (idOf 11) = some 17750 := by
  decide +kernel

end Chain

end BluePods
