import BluePods.Liveness

/-! Crashing in the middle of a round. A round writes its effects to the store one key at a
time, and the accumulators, the live validators and the cursor in one batch at its end. A
node that crashes with that batch unwritten decides the round again without the vertices it
has flagged, and without what they had added to its memory. -/

namespace BluePods

variable {cfg : Config} {round : UInt64} {c : Chain} {ws : List Write} {batch : List BatchVertex}

/-! ## Writes -/

/-- One write to the store. The metadata go in one atomic batch. -/
inductive Write
  | object (o : Object)
  | dropObject (id : Hash)
  | track (id : Hash) (entry : TrackerEntry)
  | untrack (id : Hash)
  | mark (tx : Hash)
  | totalSupply (amount : UInt64)
  | coinsTotal (amount : UInt64)
  | domain (name : Bytes) (leaf : DomainLeaf)
  | dropDomain (name : Bytes)
  | flag (vertex : Hash)
  | metadata (kvs : List (MetaKey × Bytes))

/-- A write of the ledger: neither a vertex flag nor metadata. -/
def Write.isEffect : Write → Bool
  | .flag _ => false
  | .metadata _ => false
  | _ => true

namespace Disk

def write (d : Disk) : Write → Disk
  | .object o => { d with objects := d.objects.set o }
  | .dropObject id => { d with objects := d.objects.delete id }
  | .track id entry => { d with tracker := d.tracker.insert id entry }
  | .untrack id => { d with tracker := d.tracker.erase id }
  | .mark tx => { d with committedTxs := tx :: d.committedTxs }
  | .totalSupply amount => { d with totalSupply := amount }
  | .coinsTotal amount => { d with coinsTotal := amount }
  | .domain name leaf => { d with domains := d.domains.insert name leaf }
  | .dropDomain name => { d with domains := d.domains.erase name }
  | .flag vertex => { d with committedVertices := vertex :: d.committedVertices }
  | .metadata kvs => { d with persisted := d.persisted.setBatch kvs }

def writes (d : Disk) (ws : List Write) : Disk := ws.foldl write d

theorem writes_append (d : Disk) (ws us : List Write) :
    d.writes (ws ++ us) = (d.writes ws).writes us :=
  List.foldl_append

end Disk

/-- Writes of the ledger that lead from one store to another. The order of the single keys
within one transaction or one settlement is left open. -/
structure Effects (d : Disk) (ws : List Write) (d' : Disk) : Prop where
  effect : ∀ w ∈ ws, w.isEffect = true
  result : d.writes ws = d'

namespace Chain

/-! ## The journal of a round -/

/-- The writes of a vertex's transactions. -/
def TxsJournal (cfg : Config) (round : UInt64) :
    Chain → ProofVerdicts → List AttestedTransaction → List Write → Prop
  | _, _, [], ws => ws = []
  | c, p, atx :: rest, ws =>
    let one := c.executeTx cfg atx round (p.proofVerdict atx).1
    ∃ ts us, Effects c.disk ts one.1.disk ∧
      TxsJournal cfg round one.1 (p.proofVerdict atx).2 rest us ∧ ws = ts ++ us

/-- The writes of a batch: every vertex is flagged after its transactions. -/
def BatchJournal (cfg : Config) (round : UInt64) :
    BatchState → List BatchVertex → List Write → Prop
  | _, [], ws => ws = []
  | s, v :: rest, ws =>
    ∃ ts us, TxsJournal cfg round (creditVertex cfg s v) s.verdicts v.transactions ts ∧
      BatchJournal cfg round (applyVertex cfg round s v) rest us ∧ ws = ts ++ .flag v.hash :: us

/-- The batch that moves the cursor past a round: the whole epoch state at a boundary or
when it has changed, else the accumulators. The live set is the one before the boundary. -/
def cursorBatch (cfg : Config) (c : Chain) (round : UInt64) : List (MetaKey × Bytes) :=
  let c := { c with lastCommitted := round + 1 }
  let live := c.liveValidatorsKV
  (.commitCursor, putUint64BE (round + 1)) ::
    (if cfg.isEpochBoundary round then (c.transitionEpoch cfg).epochStateKVs ++ [live]
     else if c.regimeDirty || c.producedDirty then c.epochStateKVs ++ [live]
     else c.accumulatorKVs ++ [live])

/-- The writes of moving the cursor: the boundary's settlement, then the cursor batch. -/
def CursorJournal (cfg : Config) (c : Chain) (round : UInt64) (ws : List Write) : Prop :=
  ∃ es,
    (if cfg.isEpochBoundary round then
      Effects c.disk es ({ c with lastCommitted := round + 1 }.transitionEpoch cfg).disk
     else es = []) ∧
    ws = es ++ [.metadata (c.cursorBatch cfg round)]

/-- The writes of deciding a round. -/
def RoundJournal (cfg : Config) (c : Chain) (batch : List BatchVertex) (ws : List Write) : Prop :=
  ∃ bs us,
    BatchJournal cfg c.lastCommitted
      { chain := c
        verdicts := verifyRoundProofs (c.node cfg) c.lastCommitted.toNat
          (batch.flatMap (·.transactions)) } batch bs ∧
    CursorJournal cfg (c.applyBatch cfg c.lastCommitted batch) c.lastCommitted us ∧ ws = bs ++ us

/-! ### Where a journal leads -/

theorem creditVertex_disk (cfg : Config) (s : BatchState) (v : BatchVertex) :
    (creditVertex cfg s v).disk = s.chain.disk := by
  unfold creditVertex
  split <;> rfl

theorem flagVertex_disk (cfg : Config) (c : Chain) (v : BatchVertex) (fees : UInt64) :
    (c.flagVertex cfg v fees).disk = c.disk.write (.flag v.hash) := by
  unfold flagVertex recordProducedMember
  split <;> rfl

theorem TxsJournal.writes {p : ProofVerdicts} {atxs : List AttestedTransaction}
    (h : TxsJournal cfg round c p atxs ws) :
    c.disk.writes ws = (c.processTransactions cfg round p atxs).1.disk := by
  induction atxs generalizing c p ws with
  | nil =>
    rw [show ws = [] from h]
    rfl
  | cons atx rest ih =>
    obtain ⟨ts, us, hone, hrest, rfl⟩ := h
    rw [Disk.writes_append, hone.result, ih hrest, processTransactions_cons]

theorem BatchJournal.writes {s : BatchState} (h : BatchJournal cfg round s batch ws) :
    s.chain.disk.writes ws = (batch.foldl (applyVertex cfg round) s).chain.disk := by
  induction batch generalizing s ws with
  | nil =>
    rw [show ws = [] from h]
    rfl
  | cons v rest ih =>
    obtain ⟨ts, us, htxs, hrest, rfl⟩ := h
    rw [Disk.writes_append, ← creditVertex_disk cfg s v, htxs.writes, List.foldl_cons, ← ih hrest,
      applyVertex_chain]
    dsimp only
    rw [flagVertex_disk]
    rfl

theorem transitionEpoch_cursor (cfg : Config) (c : Chain) :
    (c.transitionEpoch cfg).lastCommitted = c.lastCommitted := by
  rw [transitionEpoch_eq]
  unfold settleDeferredEpoch
  split <;> rfl

theorem CursorJournal.writes (h : CursorJournal cfg c round ws) :
    c.disk.writes ws = (c.advanceCommitCursor cfg round).disk := by
  obtain ⟨es, hes, rfl⟩ := h
  rw [Disk.writes_append]
  unfold advanceCommitCursor cursorBatch
  dsimp only
  by_cases hboundary : cfg.isEpochBoundary round = true
  · rw [if_pos hboundary] at hes
    rw [hes.result, if_pos hboundary, if_pos hboundary]
    unfold writeEpochState Meta.saveCommitCursorBatch
    rw [transitionEpoch_cursor]
    rfl
  · rw [if_neg hboundary] at hes
    rw [hes, if_neg hboundary, if_neg hboundary]
    split <;> rfl

theorem RoundJournal.writes (h : RoundJournal cfg c batch ws) :
    c.disk.writes ws = (c.decideRound cfg batch).disk := by
  obtain ⟨bs, us, hbatch, hcursor, rfl⟩ := h
  have happlied : c.disk.writes bs = (c.applyBatch cfg c.lastCommitted batch).disk := hbatch.writes
  rw [Disk.writes_append, happlied, hcursor.writes]
  rfl

/-! ## Crash and recovery -/

/-- A node that crashes after some writes is started over the store and decides the round
again, without the vertices that are flagged, unless the cursor has moved past it. -/
def recover (cfg : Config) (c : Chain) (batch : List BatchVertex) (ws : List Write) : Chain :=
  let r := (c.disk.writes ws).start cfg
  if r.lastCommitted = c.lastCommitted then
    r.decideRound cfg (batch.filter fun v => v.hash ∉ r.committedVertices)
  else r

/-- Coins and other objects, tracker, stakes, fee and liveness accumulators and supply
counters are the same. -/
structure SameResult (c c' : Chain) : Prop where
  objects : c'.ledger.objects = c.ledger.objects
  tracker : c'.ledger.tracker = c.ledger.tracker
  stakes : c'.ledger.validators.all.map (·.stakeRecord) =
    c.ledger.validators.all.map (·.stakeRecord)
  buckets : c'.buckets = c.buckets
  totalSupply : c'.ledger.totalSupply = c.ledger.totalSupply
  coinsTotal : c'.ledger.coinsTotal = c.ledger.coinsTotal

theorem Alike.sameResult {S : Hash → Prop} {c' : Chain} (h : c.Alike cfg S c') :
    c.SameResult c' := by
  obtain ⟨b, hb, -⟩ := h.ledger
  refine ⟨?_, ?_, ?_, h.buckets, ?_, ?_⟩ <;> rw [hb] <;> rfl

/-! ### The store of a start -/

theorem refreezeGenesisRegime_disk (c : Chain) (cfg : Config) (round : UInt64) :
    (c.refreezeGenesisRegime cfg round).disk = c.disk := by
  obtain ⟨regime, dirty, heq⟩ := refreezeGenesisRegime_eq c cfg round
  rw [heq]
  rfl

theorem seedGenesisValidator_disk (c : Chain) (cfg : Config) (seed : GenesisSeed) :
    (c.seedGenesisValidator cfg seed).disk = c.disk := by
  unfold seedGenesisValidator recordCommittedMember
  dsimp only
  split
  · rfl
  · rw [refreezeGenesisRegime_disk]
    rfl

theorem start_disk {d : Disk} (h : GenesisStored cfg d.objects) : (d.start cfg).disk = d := by
  unfold Disk.start
  cases hf : cfg.founder with
  | none => rfl
  | some seed =>
    dsimp only
    unfold seedGenesisState
    rw [if_pos (show ((d.load cfg).ledger.getObject seed.coinID).isSome = true from h seed hf),
      seedGenesisValidator_disk]
    rfl

theorem restart_start (cfg : Config) (d : Disk) : (d.start cfg).restart cfg = d.start cfg := by
  unfold restart Disk.start
  cases hf : cfg.founder with
  | none => rfl
  | some seed =>
    dsimp only
    unfold seedGenesisState
    split
    · rename_i hcoin
      rw [seedGenesisValidator_disk]
      exact if_pos hcoin
    · rw [seedGenesisValidator_disk]
      -- the coin that was missing is there now
      refine if_pos ?_
      show ((d.objects.set seed.coin).get seed.coinID).isSome = true
      rw [ObjectStore.get_set, GenesisSeed.coinID, if_pos rfl]
      rfl

/-- What a start takes from the store as it is. -/
theorem start_memory (cfg : Config) (d : Disk) :
    (d.start cfg).buckets = d.persisted.restoreBuckets ∧
      (d.start cfg).lastCommitted = (d.persisted.loadMetaUint64 .commitCursor).getD 0 ∧
      (d.start cfg).committedVertices = d.committedVertices := by
  have hseat : ∀ (c : Chain) (seed : GenesisSeed),
      (c.seedGenesisValidator cfg seed).buckets = c.buckets ∧
        (c.seedGenesisValidator cfg seed).lastCommitted = c.lastCommitted ∧
        (c.seedGenesisValidator cfg seed).committedVertices = c.committedVertices := by
    intro c seed
    unfold seedGenesisValidator recordCommittedMember
    dsimp only
    split
    · exact ⟨rfl, rfl, rfl⟩
    · obtain ⟨regime, dirty, heq⟩ := refreezeGenesisRegime_eq _ cfg c.lastCommitted
      rw [heq]
      exact ⟨rfl, rfl, rfl⟩
  unfold Disk.start
  cases cfg.founder with
  | none => exact ⟨rfl, rfl, rfl⟩
  | some seed =>
    dsimp only
    unfold seedGenesisState
    split
    · exact hseat (d.load cfg) seed
    · exact hseat _ seed

/-! ### What a round adds to the accumulators -/

theorem foldl_produced (cfg : Config) (round : UInt64) (s : BatchState) (batch : List BatchVertex)
    (epoch : UInt64) (producer : Hash) :
    ∃ n ≤ batch.length,
      (batch.foldl (applyVertex cfg round) s).chain.buckets.produced epoch producer =
      s.chain.buckets.produced epoch producer + UInt64.ofNat n := by
  induction batch generalizing s with
  | nil => exact ⟨0, le_rfl, by simp⟩
  | cons v batch ih =>
    obtain ⟨n, hn, heq⟩ := ih (applyVertex cfg round s v)
    rw [List.foldl_cons, heq, applyVertex_produced]
    split
    · refine ⟨n + 1, by simpa using hn, ?_⟩
      rw [UInt64.ofNat_add, UInt64.add_assoc, UInt64.add_comm 1]
      rfl
    · exact ⟨n, by simpa using Nat.le_succ_of_le hn, by simp⟩

theorem applyBatch_buckets_ne (cfg : Config) (c : Chain) (round : UInt64) (hne : batch ≠ [])
    (hlen : batch.length < 2 ^ 64) : (c.applyBatch cfg round batch).buckets ≠ c.buckets := by
  obtain ⟨v, rest, rfl⟩ := List.exists_cons_of_ne_nil hne
  intro heq
  unfold applyBatch at heq
  dsimp only at heq
  rw [List.foldl_cons] at heq
  obtain ⟨n, hn, hcount⟩ := foldl_produced cfg round (applyVertex cfg round
    { chain := c, verdicts := verifyRoundProofs (c.node cfg) round.toNat
        ((v :: rest).flatMap (·.transactions)) } v) rest
      (cfg.commitEpochForRound v.round) v.producer
  rw [heq, applyVertex_produced, if_pos ⟨List.not_mem_nil, rfl, rfl⟩, UInt64.add_assoc] at hcount
  -- the count would have to wrap around
  have hzero : 1 + UInt64.ofNat n = 0 := UInt64.left_eq_add.1 hcount
  have hnat := congrArg UInt64.toNat hzero
  rw [UInt64.toNat_add, UInt64.toNat_ofNat'] at hnat
  rw [List.length_cons] at hlen
  simp at hnat
  omega

theorem foldl_flags (cfg : Config) (round : UInt64) (s : BatchState) (batch : List BatchVertex)
    {h : Hash} (hin : h ∈ s.chain.committedVertices ∨ h ∈ batch.map (·.hash)) :
    h ∈ (batch.foldl (applyVertex cfg round) s).chain.committedVertices := by
  induction batch generalizing s with
  | nil => simpa using hin
  | cons v batch ih =>
    have hflagged : (applyVertex cfg round s v).chain.committedVertices =
        v.hash :: s.chain.committedVertices := by
      show (applyVertex cfg round s v).chain.disk.committedVertices = _
      rw [applyVertex_chain]
      dsimp only
      rw [flagVertex_disk]
      show v.hash :: (processTransactions cfg round _ _ _).1.committedVertices = _
      rw [(processTransactions_frame cfg round _ _ _).2]
      show v.hash :: (creditVertex cfg s v).disk.committedVertices = _
      rw [creditVertex_disk]
      rfl
    rw [List.foldl_cons]
    apply ih
    rw [hflagged, List.mem_cons]
    rw [List.map_cons, List.mem_cons] at hin
    tauto

/-! ### Recovery -/

/-- A restart here goes unnoticed by the round. The node has just started; or it is on disk,
comes back with its latch, rate, snapshots, founder and genesis coin, the holders of the
last boundary are the live validators, and the round registers no other. -/
inductive RestartUnnoticed (cfg : Config) (c : Chain) (batch : List BatchVertex) : Prop
  | started (d : Disk) (eq : c = d.start cfg)
  | saved (disk : c.OnDisk cfg)
      (latch : c.persisted.loadRegime.strictLatched = c.regime.strictLatched)
      (resumable : c.Resumable cfg) (genesis : GenesisStored cfg c.ledger.objects)
      (shards : ∀ vs, c.rendezvous = some vs →
        vs.keys = c.ledger.validators.keys ∧ c.RegisterKnown cfg (batchTxs batch))

section

variable {cfg : Config} {c : Chain} {batch : List BatchVertex}

theorem RestartUnnoticed.alike (h : c.RestartUnnoticed cfg batch) :
    c.Alike cfg (fun _ => True) (c.restart cfg) ∧
      c.SameShards cfg (c.restart cfg) (batchTxs batch) := by
  cases h with
  | started d heq =>
    rw [heq, restart_start]
    exact ⟨.refl cfg _ _, .inl rfl⟩
  | saved hdisk hlatch hres hcoin hshards =>
    obtain ⟨halike, hnone⟩ := restart_alike (fun _ => True) hdisk hlatch hres hcoin
    refine ⟨halike, ?_⟩
    cases hr : c.rendezvous with
    | none =>
      left
      rw [hnone, hr]
    | some vs =>
      right
      obtain ⟨hkeys, hknown⟩ := hshards vs hr
      exact ⟨⟨hnone, vs, hr, hkeys⟩, hknown⟩

/-- The accumulators and the cursor are on disk before the round. -/
theorem RestartUnnoticed.memory (h : c.RestartUnnoticed cfg batch) :
    c.persisted.restoreBuckets = c.buckets ∧
      (c.persisted.loadMetaUint64 .commitCursor).getD 0 = c.lastCommitted := by
  obtain ⟨halike, -⟩ := h.alike
  obtain ⟨hbuckets, hcursor, -⟩ := start_memory cfg c.disk
  exact ⟨hbuckets.symm.trans halike.buckets, hcursor.symm.trans halike.cursor⟩

theorem recover_untouched (h : c.RestartUnnoticed cfg batch)
    (hnew : ∀ v ∈ batch, v.hash ∉ c.committedVertices) (hsame : c.disk.writes ws = c.disk) :
    (c.decideRound cfg batch).SameResult (c.recover cfg batch ws) := by
  obtain ⟨halike, hshards⟩ := h.alike
  obtain ⟨-, -, hflags⟩ := start_memory cfg c.disk
  have hall : (batch.filter fun v => v.hash ∉ (c.restart cfg).committedVertices) = batch := by
    apply List.filter_eq_self.2
    intro v hv
    rw [show (c.restart cfg).committedVertices = c.committedVertices from hflags]
    simpa using hnew v hv
  have hrecover : c.recover cfg batch ws = (c.restart cfg).decideRound cfg batch := by
    unfold recover
    rw [hsame]
    dsimp only
    rw [show c.disk.start cfg = c.restart cfg from rfl, if_pos halike.cursor, hall]
  rw [hrecover]
  have hrest := hshards
  rw [← List.append_nil (batchTxs batch)] at hrest
  exact (halike.decideRound hshards (fun _ => hrest) fun _ _ _ _ _ _ => trivial).1.sameResult

theorem decideRound_cursor (cfg : Config) (c : Chain) (batch : List BatchVertex) :
    (c.decideRound cfg batch).lastCommitted = c.lastCommitted + 1 := by
  unfold decideRound advanceCommitCursor
  dsimp only
  split
  · exact transitionEpoch_cursor cfg _
  · split <;> rfl

/-- A crash after the cursor batch does no harm to a round that is recoverable. -/
theorem recover_complete {written : Bool} (hc : Reachable cfg written c)
    (hrec : (c.applyBatch cfg c.lastCommitted batch).Recoverable cfg written c.lastCommitted)
    (hcoin : GenesisStored cfg (c.decideRound cfg batch).ledger.objects)
    (hdone : c.disk.writes ws = (c.decideRound cfg batch).disk) :
    (c.decideRound cfg batch).SameResult (c.recover cfg batch ws) := by
  have hrestored := restored_of_onDisk (hc.onDisk hrec)
  have hstore : ((c.decideRound cfg batch).restart cfg).disk = (c.decideRound cfg batch).disk :=
    start_disk hcoin
  have hrecover : c.recover cfg batch ws = (c.decideRound cfg batch).restart cfg := by
    unfold recover
    rw [hdone]
    apply if_neg
    show ((c.decideRound cfg batch).restart cfg).lastCommitted ≠ c.lastCommitted
    rw [hrestored.cursor, decideRound_cursor]
    simp
  rw [hrecover]
  exact ⟨congrArg Disk.objects hstore, congrArg Disk.tracker hstore, hrestored.stakes,
    hrestored.buckets, congrArg Disk.totalSupply hstore, congrArg Disk.coinsTotal hstore⟩

theorem decideRound_buckets (hoff : cfg.isEpochBoundary c.lastCommitted = false) :
    (c.decideRound cfg batch).buckets = (c.applyBatch cfg c.lastCommitted batch).buckets := by
  unfold decideRound advanceCommitCursor
  dsimp only
  rw [if_neg (by rw [hoff]; exact Bool.false_ne_true)]
  split <;> rfl

/-- A crash right before the cursor batch loses all that the batch had accumulated. -/
theorem recover_flagged (h : c.RestartUnnoticed cfg batch)
    (hoff : cfg.isEpochBoundary c.lastCommitted = false)
    (hdone : c.disk.writes ws = (c.applyBatch cfg c.lastCommitted batch).disk) :
    (c.recover cfg batch ws).buckets = c.buckets := by
  obtain ⟨hsaved, hcursor⟩ := h.memory
  have hpersisted := (touches_applyBatch cfg c c.lastCommitted batch).persisted
  obtain ⟨hbuckets, hround, hflags⟩ :=
    start_memory cfg (c.applyBatch cfg c.lastCommitted batch).disk
  generalize hr : (c.applyBatch cfg c.lastCommitted batch).disk.start cfg = r
    at hbuckets hround hflags
  have hat : r.lastCommitted = c.lastCommitted := by
    rw [hround]
    refine Eq.trans ?_ hcursor
    exact congrArg (fun m : Meta => (m.loadMetaUint64 .commitCursor).getD 0) hpersisted
  have hnone : (batch.filter fun v => v.hash ∉ r.committedVertices) = [] := by
    apply List.filter_eq_nil_iff.2
    intro v hv
    have hin : v.hash ∈ (c.applyBatch cfg c.lastCommitted batch).disk.committedVertices :=
      foldl_flags cfg c.lastCommitted _ batch (.inr (List.mem_map_of_mem hv))
    rw [← hflags] at hin
    simpa using hin
  have hrecover : c.recover cfg batch ws = r.decideRound cfg [] := by
    unfold recover
    rw [hdone, hr]
    dsimp only
    rw [if_pos hat, hnone]
  rw [hrecover, decideRound_buckets (by rwa [hat]),
    show (r.applyBatch cfg r.lastCommitted []).buckets = r.buckets from rfl, hbuckets, ← hsaved]
  exact congrArg Meta.restoreBuckets hpersisted

/-- A crash is harmless before the first write that changes the store and after the cursor
batch, for a node that a restart brings back. Off an epoch boundary, a crash is harmless at
every write of the round if and only if the round commits no vertex. -/
theorem crash_atomic_iff_nil {written : Bool} (hc : Reachable cfg written c)
    (hbefore : c.RestartUnnoticed cfg batch)
    (hafter : (c.applyBatch cfg c.lastCommitted batch).Recoverable cfg written c.lastCommitted)
    (hcoin : GenesisStored cfg (c.decideRound cfg batch).ledger.objects)
    (hnew : ∀ v ∈ batch, v.hash ∉ c.committedVertices) (hlen : batch.length < 2 ^ 64)
    {ws : List Write} (hj : RoundJournal cfg c batch ws) :
    (∀ p q, ws = p ++ q → c.disk.writes p = c.disk ∨ q = [] →
      (c.decideRound cfg batch).SameResult (c.recover cfg batch p)) ∧
    (cfg.isEpochBoundary c.lastCommitted = false →
      ((∀ p q, ws = p ++ q → (c.decideRound cfg batch).SameResult (c.recover cfg batch p)) ↔
        batch = [])) := by
  have hends : ∀ p q, ws = p ++ q → c.disk.writes p = c.disk ∨ q = [] →
      (c.decideRound cfg batch).SameResult (c.recover cfg batch p) := by
    rintro p q hpq (hsame | rfl)
    · exact recover_untouched hbefore hnew hsame
    · apply recover_complete hc hafter hcoin
      rw [← hj.writes, hpq, List.append_nil]
  refine ⟨hends, fun hoff => ⟨?_, ?_⟩⟩
  · intro hall
    by_contra hne
    obtain ⟨bs, us, hbatch, -, rfl⟩ := hj
    have hlost := recover_flagged hbefore hoff hbatch.writes
    apply applyBatch_buckets_ne cfg c c.lastCommitted hne hlen
    rw [← decideRound_buckets hoff, ← (hall bs us rfl).buckets, hlost]
  · rintro rfl
    -- the cursor batch is the only write
    obtain ⟨bs, us, hbatch, ⟨es, hes, rfl⟩, rfl⟩ := hj
    obtain rfl : bs = [] := hbatch
    rw [if_neg (by rw [hoff]; exact Bool.false_ne_true)] at hes
    subst hes
    intro p q hpq
    cases p with
    | nil => exact hends [] q hpq (.inl rfl)
    | cons w p =>
      refine hends (w :: p) q hpq (.inr ?_)
      have hlength := congrArg List.length hpq
      simp only [List.nil_append, List.cons_append, List.length_cons, List.length_nil,
        List.length_append] at hlength
      exact List.length_eq_zero_iff.1 (by omega)

end

/-- The journal of the founder's first round. -/
def founderJournal : List Write :=
  [.flag (idOf 20),
   .metadata (((({} : Disk).start foundedConfig).applyBatch foundedConfig 0
    [founderVertex]).cursorBatch foundedConfig 0)]

theorem roundJournal_founder :
    RoundJournal foundedConfig (({} : Disk).start foundedConfig) [founderVertex] founderJournal :=
  ⟨[.flag (idOf 20)], _, ⟨[], [], rfl, rfl, rfl⟩,
    ⟨[], by rw [if_neg (by decide +kernel)], rfl⟩, rfl⟩

/-- The founder's first round commits a vertex: its crashes are harmless at both ends, and
not all of them are. -/
theorem crash_atomic_iff_nil_founder :
    let c := ({} : Disk).start foundedConfig
    (∀ p q, founderJournal = p ++ q → c.disk.writes p = c.disk ∨ q = [] →
      (c.decideRound foundedConfig [founderVertex]).SameResult
        (c.recover foundedConfig [founderVertex] p)) ∧
    ¬ ∀ p q, founderJournal = p ++ q →
      (c.decideRound foundedConfig [founderVertex]).SameResult
        (c.recover foundedConfig [founderVertex] p) := by
  have hrec : ((({} : Disk).start foundedConfig).applyBatch foundedConfig
      (({} : Disk).start foundedConfig).lastCommitted [founderVertex]).Recoverable
      foundedConfig true
      (({} : Disk).start foundedConfig).lastCommitted := by
    constructor
    · constructor <;> decide +kernel
    · refine ⟨by decide +kernel, by decide +kernel, ?_, by decide +kernel, by decide +kernel⟩
      intro e b hb
      exact countersFit_of_entries (by decide +kernel) hb
    · decide +kernel
    · rintro seed hs
      cases hs
      exact ⟨by decide +kernel, _, rfl, by decide +kernel⟩
    · exact .inl rfl
    · intro _ hnil
      exact absurd hnil (by decide +kernel)
    · intro h
      exact absurd h (by decide +kernel)
  obtain ⟨hends, hiff⟩ := crash_atomic_iff_nil (.start {}) (.started {} rfl) hrec
    (by rintro seed hs; cases hs; decide +kernel) (by decide +kernel) (by decide +kernel)
    roundJournal_founder
  exact ⟨hends, fun hall => absurd ((hiff (by decide +kernel)).1 hall) (List.cons_ne_nil _ _)⟩

/-- The vertex is flagged and the cursor is not moved: deciding the round again leaves the
producer without its credit. -/
theorem flagged_vertex_loses_credit :
    let c := ({} : Disk).start foundedConfig
    RoundJournal foundedConfig c [founderVertex] founderJournal ∧
      [.flag (idOf 20)] <+: founderJournal ∧
      (c.decideRound foundedConfig [founderVertex]).buckets.produced 0 (idOf 1) = 1 ∧
      (c.recover foundedConfig [founderVertex] [.flag (idOf 20)]).lastCommitted = 1 ∧
      (c.recover foundedConfig [founderVertex] [.flag (idOf 20)]).buckets.produced 0 (idOf 1) = 0 :=
  ⟨roundJournal_founder, ⟨_, rfl⟩, by decide +kernel, by decide +kernel, by decide +kernel⟩

end Chain

end BluePods
