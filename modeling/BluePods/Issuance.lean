import BluePods.Resume

/-! Issuance over a log with restarts. The controller carries its rate from boundary to
boundary in memory only, so a restarted node mints what an uninterrupted one does as long
as every restart finds the rate where a start puts it and the rest of the node on disk. -/

namespace BluePods

/-- A decided round of a log, and whether the node is restarted after it. -/
structure LogRound where
  batch : List BatchVertex := []
  restart : Bool := false

/-- The same round without the restart. -/
def LogRound.uninterrupted (r : LogRound) : LogRound := { r with restart := false }

namespace Chain

/-- The amount a round mints: nothing off a boundary. -/
def mintedAt (cfg : Config) (c : Chain) (batch : List BatchVertex) : UInt64 :=
  if cfg.isEpochBoundary c.lastCommitted then
    ((c.applyBatch cfg c.lastCommitted batch).mintDeferred cfg).2.2
  else 0

def runRound (cfg : Config) (c : Chain) (r : LogRound) : Chain :=
  if r.restart then (c.decideRound cfg r.batch).restart cfg else c.decideRound cfg r.batch

/-- The amounts minted round by round over a log. -/
def minted (cfg : Config) : Chain → List LogRound → List UInt64
  | _, [] => []
  | c, r :: log => c.mintedAt cfg r.batch :: (c.runRound cfg r).minted cfg log

/-! ## Restarts that go unnoticed -/

/-- The round leaves a node that a restart brings back. The sharding of the last boundary
is not read from the store: its holders have to be the live validators. -/
structure SafeRestart (cfg : Config) (c : Chain) (batch : List BatchVertex) : Prop where
  recoverable : (c.applyBatch cfg c.lastCommitted batch).Recoverable cfg true c.lastCommitted
  resumable : (c.decideRound cfg batch).Resumable cfg
  genesis : GenesisStored cfg (c.decideRound cfg batch).ledger.objects
  shards : ∀ vs, (c.decideRound cfg batch).rendezvous = some vs →
    vs.keys = (c.decideRound cfg batch).ledger.validators.keys

/-- The node draws object holders from the live validators where an uninterrupted one draws
them from the holders of the last boundary: from a restart on, until the next boundary. -/
def driftsAfter (cfg : Config) (drifted : Bool) (c : Chain) (r : LogRound) : Bool :=
  (drifted && !cfg.isEpochBoundary c.lastCommitted) ||
    (r.restart && (c.decideRound cfg r.batch).rendezvous.isSome)

/-- Every restart of the log is safe, and none is followed by the registration of a new
validator before the next boundary. -/
def SafeLog (cfg : Config) : Bool → Chain → List LogRound → Prop
  | _, _, [] => True
  | drifted, c, r :: log =>
    (drifted = true → c.RegisterKnown cfg (batchTxs r.batch)) ∧
      (r.restart = true → c.SafeRestart cfg r.batch) ∧
      SafeLog cfg (c.driftsAfter cfg drifted r) (c.runRound cfg r) log

/-- Where an uninterrupted node and one that is restarted now and then stand. -/
structure InStep (cfg : Config) (drifted : Bool) (u r : Chain) : Prop where
  alike : u.Alike cfg (fun _ => True) r
  reachable : Reachable cfg true r
  latch : r.LatchSaved
  shards : r.rendezvous = u.rendezvous ∨ drifted = true ∧ u.Drifted r

section

variable {cfg : Config} {drifted : Bool} {u r : Chain}

section

variable {batch : List BatchVertex} (h : InStep cfg drifted u r)

include h

theorem InStep.sameShards {atxs : List AttestedTransaction}
    (hknown : drifted = true → r.RegisterKnown cfg atxs) : u.SameShards cfg r atxs := by
  rcases h.shards with heq | ⟨hdrift, hd⟩
  · exact .inl heq
  · right
    refine ⟨hd, ?_⟩
    intro atx hmem tx htx hfunc pubkey hsender
    rw [← h.alike.ledger.validators]
    exact hknown hdrift atx hmem tx htx hfunc pubkey hsender

theorem InStep.mintedAt (hknown : drifted = true → r.RegisterKnown cfg (batchTxs batch)) :
    r.mintedAt cfg batch = u.mintedAt cfg batch := by
  have hs := h.sameShards hknown
  rw [← List.append_nil (batchTxs batch)] at hs
  obtain ⟨happlied, -⟩ := h.alike.applyBatch hs (fun _ _ _ _ _ _ => trivial) u.lastCommitted
  obtain ⟨-, hamount, -⟩ := happlied.mintDeferred
  unfold Chain.mintedAt
  rw [h.alike.cursor, hamount]

/-- A round without a restart keeps the nodes in step; a boundary ends the drift. -/
theorem InStep.decideRound (hknown : drifted = true → r.RegisterKnown cfg (batchTxs batch)) :
    InStep cfg (drifted && !cfg.isEpochBoundary r.lastCommitted) (u.decideRound cfg batch)
      (r.decideRound cfg batch) := by
  have hs := h.sameShards hknown
  have hrest := hs
  rw [← List.append_nil (batchTxs batch)] at hrest
  obtain ⟨halike, hshards⟩ := h.alike.decideRound hs (fun _ => hrest) fun _ _ _ _ _ _ => trivial
  refine ⟨halike, .decide batch h.reachable, h.latch.decideRound cfg batch, ?_⟩
  cases hb : cfg.isEpochBoundary r.lastCommitted with
  | true =>
    left
    exact h.alike.decideRound_boundary hs (fun _ _ _ _ _ _ => trivial) (by rwa [← h.alike.cursor])
  | false =>
    rcases h.shards with heq | ⟨hdrift, -⟩
    · left
      rw [decideRound_rendezvous hb, decideRound_rendezvous (by rwa [← h.alike.cursor]), heq]
    · rw [hdrift]
      rcases hshards with heq | ⟨hd, -⟩
      · exact .inl heq
      · exact .inr ⟨rfl, hd⟩

end

theorem InStep.restart {u r : Chain} {batch : List BatchVertex}
    (h : InStep cfg drifted u (r.decideRound cfg batch)) (hr : Reachable cfg true r)
    (hl : r.LatchSaved) (hsafe : r.SafeRestart cfg batch) :
    InStep cfg (drifted || (r.decideRound cfg batch).rendezvous.isSome) u
      ((r.decideRound cfg batch).restart cfg) := by
  obtain ⟨halike, hnone⟩ := restart_alike (fun _ => True) (hr.onDisk hsafe.recoverable)
    (hl.loadRegime_eq cfg batch) hsafe.resumable hsafe.genesis
  refine ⟨h.alike.trans halike, .start _, latchSaved_start cfg _, ?_⟩
  cases hv : (r.decideRound cfg batch).rendezvous with
  | none =>
    rcases h.shards with heq | ⟨hdrift, -, vs, hsome, hkeys⟩
    · left
      rw [hnone, ← heq, hv]
    · right
      exact ⟨by rw [hdrift]; rfl, hnone, vs, hsome, hkeys⟩
  | some vs =>
    right
    refine ⟨by simp, hnone, vs, ?_, ?_⟩
    · rcases h.shards with heq | ⟨-, hn, -⟩
      · rw [← heq, hv]
      · rw [hv] at hn
        cases hn
    · rw [hsafe.shards vs hv, h.alike.ledger.validators]

theorem InStep.runRound (h : InStep cfg drifted u r) {round : LogRound}
    (hknown : drifted = true → r.RegisterKnown cfg (batchTxs round.batch))
    (hsafe : round.restart = true → r.SafeRestart cfg round.batch) :
    InStep cfg (r.driftsAfter cfg drifted round) (u.runRound cfg round.uninterrupted)
      (r.runRound cfg round) := by
  have hround := h.decideRound hknown
  show InStep cfg _ (u.decideRound cfg round.batch) (r.runRound cfg round)
  unfold Chain.runRound driftsAfter
  cases hrestart : round.restart with
  | false =>
    rw [Bool.false_and, Bool.or_false, if_neg Bool.false_ne_true]
    exact hround
  | true =>
    rw [Bool.true_and, if_pos rfl]
    exact hround.restart h.reachable h.latch (hsafe hrestart)

theorem InStep.minted {log : List LogRound} (h : InStep cfg drifted u r)
    (hlog : SafeLog cfg drifted r log) :
    r.minted cfg log = u.minted cfg (log.map LogRound.uninterrupted) := by
  induction log generalizing drifted u r with
  | nil => rfl
  | cons round log ih =>
    obtain ⟨hknown, hsafe, hrest⟩ := hlog
    rw [List.map_cons, Chain.minted, Chain.minted, h.mintedAt hknown,
      ih (h.runRound hknown hsafe) hrest]
    rfl

end

/-- Over a log whose restarts are safe, a node mints at every boundary what the node that
is never restarted mints there. -/
theorem minted_of_safeLog (cfg : Config) (d : Disk) (log : List LogRound)
    (h : SafeLog cfg false (d.start cfg) log) :
    (d.start cfg).minted cfg log = (d.start cfg).minted cfg (log.map LogRound.uninterrupted) := by
  have hstart : InStep cfg false (d.start cfg) (d.start cfg) :=
    ⟨.refl cfg _ _, .start d, latchSaved_start cfg d, .inl rfl⟩
  exact hstart.minted h

/-- Over any log with restarts, every further round keeps the strict regime. -/
theorem strict_regime_never_left (cfg : Config) (d : Disk) (log : List LogRound) (r : LogRound) :
    (log.foldl (runRound cfg) (d.start cfg)).regime.strictLatched ≤
      ((log ++ [r]).foldl (runRound cfg) (d.start cfg)).regime.strictLatched := by
  have hsaved : (log.foldl (runRound cfg) (d.start cfg)).LatchSaved := by
    refine List.foldlRecOn log _ (latchSaved_start cfg d) fun c h r _ => ?_
    unfold runRound
    split
    · exact latchSaved_start cfg _
    · exact h.decideRound cfg r.batch
  rw [List.foldl_concat]
  generalize log.foldl (runRound cfg) (d.start cfg) = c at hsaved ⊢
  intro hl
  have hnext : (c.decideRound cfg r.batch).regime.strictLatched = true := by
    have happlied := (touches_applyBatch cfg c c.lastCommitted r.batch).latched hl
    unfold decideRound advanceCommitCursor
    dsimp only
    split
    · rw [transitionEpoch_eq]
      exact happlied
    · split <;> exact happlied
  unfold runRound
  split
  · exact (touches_start cfg _).latched ((hsaved.loadRegime_eq cfg r.batch).trans hnext)
  · exact hnext

/-- The founder's network with a controller that holds its rate at any staking ratio. -/
def steadyConfig : Config :=
  { foundedConfig with
    thermostat :=
      { targetHighMille := 1000, ceilingRateMicro := 1000000, genesisRateMicro := 100000 } }

/-- The founder's network with a controller that raises its rate while little is staked. -/
def risingConfig : Config :=
  { foundedConfig with
    thermostat :=
      { targetLowMille := 500, targetHighMille := 1000, ceilingRateMicro := 1000000,
        genesisRateMicro := 100000, stepCapMicro := 10000 } }

/-- Two boundaries without a vertex, then one that settles a vertex of the founder. -/
def restartedLog (restart : Bool) : List LogRound :=
  [{}, {}, { restart },
   { batch := [{ hash := idOf 20, round := 2, producer := idOf 1 }] }]

/-- The founder's node after two boundaries. -/
def twoBoundaries (cfg : Config) : Chain :=
  ((({} : Disk).start cfg).decideRound cfg []).decideRound cfg []

theorem reachable_twoBoundaries (cfg : Config) : Reachable cfg true (twoBoundaries cfg) :=
  .decide [] (.decide [] (.start {}))

theorem minted_restartedLog (cfg : Config) :
    (({} : Disk).start cfg).minted cfg (restartedLog true) =
      [(({} : Disk).start cfg).mintedAt cfg [],
       ((({} : Disk).start cfg).decideRound cfg []).mintedAt cfg [],
       (twoBoundaries cfg).mintedAt cfg [],
       (((twoBoundaries cfg).decideRound cfg []).restart cfg).mintedAt cfg
        [{ hash := idOf 20, round := 2, producer := idOf 1 }]] := rfl

theorem safeLog_restartedLog {cfg : Config} (h : (twoBoundaries cfg).SafeRestart cfg []) :
    SafeLog cfg false (({} : Disk).start cfg) (restartedLog true) := by
  have hnone : ∀ c : Chain, c.RegisterKnown cfg [] := by
    intro c atx hatx
    cases hatx
  exact ⟨fun _ => hnone _, nofun, fun _ => hnone _, nofun, fun _ => hnone _, fun _ => h,
    fun _ => hnone _, nofun, trivial⟩

theorem emptyBuckets_fit {c : Chain} (hfees : c.buckets.epochFees = ∅)
    (hrounds : c.buckets.epochRoundsProduced = ∅) (hadd : c.ledger.epochAdditions.length < 2 ^ 32)
    (hrem : c.ledger.pendingRemovals.length < 2 ^ 32) : c.AccumulatorsFit := by
  refine ⟨by rw [hfees]; decide, by rw [hrounds]; decide, ?_, hadd, hrem⟩
  intro e b hb
  rw [hrounds] at hb
  simp at hb

/-- The next boundary finds nothing to pay, so the node can be restarted after it. -/
theorem recoverable_twoBoundaries {cfg : Config} (h : cfg = steadyConfig ∨ cfg = risingConfig) :
    ((twoBoundaries cfg).applyBatch cfg (twoBoundaries cfg).lastCommitted []).Recoverable cfg true
      (twoBoundaries cfg).lastCommitted := by
  have hshares : ∀ v ∈ (twoBoundaries cfg).ledger.validators.all,
      (twoBoundaries cfg).deferredShare cfg v = 0 := by
    rcases h with rfl | rfl <;> decide +kernel
  constructor
  · rcases h with rfl | rfl <;> constructor <;> decide +kernel
  · rcases h with rfl | rfl <;> apply emptyBuckets_fit <;> decide +kernel
  · rcases h with rfl | rfl <;> decide +kernel
  · intro seed hseed
    rcases h with rfl | rfl <;> cases hseed <;> exact ⟨by decide +kernel, _, rfl, by decide +kernel⟩
  · exact .inl rfl
  · intro hoff
    rcases h with rfl | rfl <;> exact absurd hoff (by decide +kernel)
  · intro _
    refine ⟨⟨fun _ v hv => .inl (hshares v hv), fun _ v hv _ _ _ _ => hshares v hv, ?_⟩, ?_, ?_⟩
    · have hnone : (twoBoundaries cfg).ledger.pendingRemovals = [] := by
        rcases h with rfl | rfl <;> decide +kernel
      intro k hk
      rw [show ((twoBoundaries cfg).applyBatch cfg _ []).ledger.pendingRemovals = []
        from hnone] at hk
      cases hk
    · rcases h with rfl | rfl <;> decide +kernel
    · rcases h with rfl | rfl <;> decide +kernel

/-- A controller that holds its rate mints the same with and without the restart. -/
theorem minted_of_safeLog_steady :
    (({} : Disk).start steadyConfig).minted steadyConfig (restartedLog true) = [0, 0, 0, 2100] := by
  have hrate : ((twoBoundaries steadyConfig).decideRound steadyConfig []).issuanceRateMicro =
      100000 := by decide +kernel
  have hsafe : (twoBoundaries steadyConfig).SafeRestart steadyConfig [] := by
    refine ⟨recoverable_twoBoundaries (.inl rfl), ⟨?_, ?_, ?_, ?_, ?_⟩, ?_, ?_⟩
    · intro ratio
      rw [hrate]
      rfl
    · unfold Filled
      decide +kernel
    · unfold Filled
      decide +kernel
    · unfold Filled
      decide +kernel
    · intro seed hseed
      cases hseed
      decide +kernel
    · intro seed hseed
      cases hseed
      decide +kernel
    · decide +kernel
  refine (minted_of_safeLog steadyConfig {} (restartedLog true)
    (safeLog_restartedLog hsafe)).trans ?_
  decide +kernel

/-- The rate that has risen is lost in the restart, and the next mint is smaller. -/
theorem restart_resets_rate :
    let node := ({} : Disk).start risingConfig
    node.minted risingConfig (restartedLog true) = [0, 0, 0, 2310] ∧
      node.minted risingConfig (restartedLog false) = [0, 0, 0, 2520] := by
  have hbuckets := (restored_of_onDisk ((reachable_twoBoundaries risingConfig).onDisk
    (recoverable_twoBoundaries (.inr rfl)))).buckets
  have hlast : (((twoBoundaries risingConfig).decideRound risingConfig []).restart
      risingConfig).mintedAt risingConfig
      [{ hash := idOf 20, round := 2, producer := idOf 1 }] = 2310 := by
    -- the decoder of the buckets does not evaluate, so they are put back by hand
    generalize hr : ((twoBoundaries risingConfig).decideRound risingConfig []).restart
      risingConfig = r at hbuckets ⊢
    rw [show r = { r with
        buckets := ((twoBoundaries risingConfig).decideRound risingConfig []).buckets } from
      by rw [← hbuckets], ← hr]
    decide +kernel
  refine ⟨?_, by decide +kernel⟩
  rw [minted_restartedLog, hlast]
  decide +kernel

end Chain

end BluePods
