import BluePods.Cursor
import BluePods.Shards

/-! Two nodes that apply the same log. Nodes that agree on the ledger, the epoch and its
holder sets, the buckets, the cursor and the issuance rate, and draw object holders from
the same keys, go the same way over every round. What they have produced, what is dirty
and what is on disk plays no part in it. -/

namespace BluePods

open Chain

variable {atx : AttestedTransaction}

/-! ## Ledgers alike -/

namespace Ledger

variable {S : Hash → Prop} {st st' : Ledger}

theorem Alike.validators (h : Alike S st st') : st'.validators = st.validators := by
  obtain ⟨b, rfl, -⟩ := h
  rfl

theorem Alike.members (h : Alike S st st') (k : Hash) :
    k ∈ st'.committedMembers ↔ k ∈ st.committedMembers := by
  obtain ⟨b, rfl, hb⟩ := h
  exact hb.members k

/-- The marks of a transaction are among those that matter. -/
def MarksIn (S : Hash → Prop) (atx : AttestedTransaction) : Prop :=
  ∀ tx, atx.transaction = some tx → ∀ k, tx.txCommitHash = some k → S k

theorem bondApplied_alike (h : Alike S st st') (nd : Node) (commitRound : Nat)
    (verdict : Option ProofError) (hS : MarksIn S atx) :
    st'.bondApplied nd atx commitRound verdict = st.bondApplied nd atx commitRound verdict :=
  (gatesAlike_of_alike h nd atx commitRound verdict hS).bondApplied ⟨_, _, rfl⟩
    fun _ _ hs => hs.charged nd _ atx

theorem admitsSender_alike {before before' after after' : Ledger} (h : Alike S before before')
    (h' : Alike S after after') (atx : AttestedTransaction) :
    before'.admitsSender after' atx = before.admitsSender after atx := by
  unfold admitsSender
  cases atx.transaction.bind fun tx => hash32 tx.sender with
  | none => rfl
  | some sender =>
    simp only [Option.any_some]
    rw [decide_eq_decide.2 (h'.members sender), decide_eq_decide.2 (not_congr (h.members sender))]

theorem churnLimitedAdditions_alike (h : Alike S st st') (maxChurn : Nat) (k : Hash) :
    k ∈ st'.churnLimitedAdditions maxChurn ↔ k ∈ st.churnLimitedAdditions maxChurn := by
  obtain ⟨b, rfl, hb⟩ := h
  have hperm : b.epochAdditions.Perm st.epochAdditions := hb.additions
  unfold churnLimitedAdditions
  rw [withBook_epochAdditions, hperm.length_eq, insertionSort_congr hperm]
  split
  · exact hperm.mem_iff
  · exact Iff.rfl

/-- The committee of the next epoch reads the books as sets. -/
theorem snapshotEpochHolders_alike (h : Alike S st st') (maxChurn : Nat) :
    st'.snapshotEpochHolders maxChurn = st.snapshotEpochHolders maxChurn := by
  have hallowed := churnLimitedAdditions_alike h maxChurn
  have hmembers := h.members
  have hempty : st'.committedMembers.isEmpty = st.committedMembers.isEmpty := by
    rw [Bool.eq_iff_iff, List.isEmpty_iff, List.isEmpty_iff, List.eq_nil_iff_forall_not_mem,
      List.eq_nil_iff_forall_not_mem]
    exact forall_congr' fun k => not_congr (hmembers k)
  have hadditions : ∀ k, k ∈ st'.epochAdditions ↔ k ∈ st.epochAdditions := by
    obtain ⟨b, rfl, hb⟩ := h
    exact fun k => hb.additions.mem_iff
  unfold snapshotEpochHolders
  rw [h.validators]
  dsimp only
  apply congrArg HolderSet.freeze
  apply List.filter_congr
  intro v _
  rw [hempty, decide_eq_decide.2 (hmembers v.pubkey),
    decide_eq_decide.2 (not_congr (hadditions v.pubkey)),
    decide_eq_decide.2 (hallowed v.pubkey)]

end Ledger

namespace Chain

/-! ## Nodes alike -/

/-- The nodes agree on all that the log is applied with, up to how their books are listed;
any staking ratio moves their issuance rates to the same rate. -/
structure Alike (cfg : Config) (S : Hash → Prop) (c c' : Chain) : Prop where
  ledger : Ledger.Alike S c.ledger c'.ledger
  buckets : c'.buckets = c.buckets
  cursor : c'.lastCommitted = c.lastCommitted
  rate : ∀ ratio, adjustRate c'.issuanceRateMicro ratio cfg.thermostat =
    adjustRate c.issuanceRateMicro ratio cfg.thermostat
  epoch : c'.regime.currentEpoch = c.regime.currentEpoch
  holders : c'.regime.epochHolders = c.regime.epochHolders
  prevHolders : c'.regime.prevEpochHolders = c.regime.prevEpochHolders
  nextHolders : c'.regime.nextEpochHolders = c.regime.nextEpochHolders
  latched : c'.regime.strictLatched = c.regime.strictLatched

/-- `c'` was built anew while `c` has crossed a boundary, and the holders of that boundary
are the live validators. -/
def Drifted (c c' : Chain) : Prop :=
  c'.rendezvous = none ∧ ∃ vs, c.rendezvous = some vs ∧ vs.keys = c.ledger.validators.keys

/-- No transaction registers a validator that is not live. -/
def RegisterKnown (cfg : Config) (c : Chain) (atxs : List AttestedTransaction) : Prop :=
  ∀ atx ∈ atxs, ∀ tx, atx.transaction = some tx → c.ledger.RegistersKnown (c.node cfg) tx

/-- The nodes draw object holders from the same keys while they apply the transactions. -/
def SameShards (cfg : Config) (c c' : Chain) (atxs : List AttestedTransaction) : Prop :=
  c'.rendezvous = c.rendezvous ∨ c.Drifted c' ∧ c.RegisterKnown cfg atxs

section Steps

variable {atxs rest : List AttestedTransaction} {s s' : BatchState} {batch : List BatchVertex}
  {S : Hash → Prop} {cfg : Config} {c c' : Chain}

theorem Alike.refl (cfg : Config) (S : Hash → Prop) (c : Chain) : c.Alike cfg S c :=
  ⟨.refl S c.ledger, rfl, rfl, fun _ => rfl, rfl, rfl, rfl, rfl, rfl⟩

theorem Alike.trans {c₁ c₂ c₃ : Chain} (h : c₁.Alike cfg S c₂) (h' : c₂.Alike cfg S c₃) :
    c₁.Alike cfg S c₃ where
  ledger := h.ledger.trans h'.ledger
  buckets := h'.buckets.trans h.buckets
  cursor := h'.cursor.trans h.cursor
  rate ratio := (h'.rate ratio).trans (h.rate ratio)
  epoch := h'.epoch.trans h.epoch
  holders := h'.holders.trans h.holders
  prevHolders := h'.prevHolders.trans h.prevHolders
  nextHolders := h'.nextHolders.trans h.nextHolders
  latched := h'.latched.trans h.latched

theorem Alike.withLedger (h : c.Alike cfg S c') {st st' : Ledger} (hst : Ledger.Alike S st st') :
    ({ c with ledger := st } : Chain).Alike cfg S { c' with ledger := st' } :=
  { h with ledger := hst }

/-! ### The wiring -/

theorem Alike.node (h : c.Alike cfg S c') (hkeys : c'.sharding.keys = c.sharding.keys) :
    c'.node cfg = c.node cfg := by
  unfold Chain.node
  rw [computeHolders_congr cfg.crypto hkeys, cfg.isHolder_congr hkeys]
  have hholders : c'.regime.holdersForEpoch = c.regime.holdersForEpoch := by
    funext epoch
    unfold Regime.holdersForEpoch
    rw [h.epoch, h.holders, h.prevHolders, h.nextHolders]
  rw [hholders, h.epoch]

theorem SameShards.sharding (h : c.Alike cfg S c') (hs : c.SameShards cfg c' atxs) :
    c'.sharding.keys = c.sharding.keys := by
  unfold Chain.sharding
  rw [h.ledger.validators]
  rcases hs with heq | ⟨⟨hnone, vs, hsome, hkeys⟩, -⟩
  · rw [heq]
  · rw [hnone, hsome, Option.getD_none, Option.getD_some, hkeys]

theorem registered_keys
    (h : ∀ tx, atx.transaction = some tx → c.ledger.RegistersKnown (c.node cfg) tx) :
    (c.registered cfg atx).keys = c.ledger.validators.keys := by
  unfold registered
  cases htx : atx.transaction with
  | none => rfl
  | some tx =>
    dsimp only
    cases hreg : c.ledger.handleRegisterValidator (c.node cfg) tx with
    | error e => rfl
    | ok st => exact Ledger.handleRegisterValidator_keys hreg (h tx htx)

theorem Alike.registered (h : c.Alike cfg S c') (hnode : c'.node cfg = c.node cfg)
    (atx : AttestedTransaction) : c'.registered cfg atx = c.registered cfg atx := by
  unfold Chain.registered
  rw [hnode]
  cases atx.transaction with
  | none => exact h.ledger.validators
  | some tx =>
    have hreg := Ledger.handleRegisterValidator_alike h.ledger (c.node cfg) tx
    dsimp only
    generalize c.ledger.handleRegisterValidator (c.node cfg) tx = r at hreg ⊢
    generalize c'.ledger.handleRegisterValidator (c.node cfg) tx = r' at hreg ⊢
    cases hreg with
    | error _ => exact h.ledger.validators
    | ok hst => exact hst.validators

theorem SameShards.txNode (h : c.Alike cfg S c') (hs : c.SameShards cfg c' (atx :: rest)) :
    c'.txNode cfg atx = c.txNode cfg atx := by
  have hnode : c'.node cfg = c.node cfg := h.node (hs.sharding h)
  have hreg := h.registered hnode atx
  unfold Chain.txNode
  rw [hnode, hreg]
  rcases hs with heq | ⟨⟨hnone, vs, hsome, hkeys⟩, hknown⟩
  · rw [heq]
  · have hsame : (c.registered cfg atx).keys = vs.keys := by
      rw [registered_keys (hknown atx List.mem_cons_self), hkeys]
    rw [hnone, hsome, Option.getD_none, Option.getD_some, cfg.isHolder_congr hsame]

/-! ### Transactions -/

section

variable (hmembers : ∀ k, k ∈ c'.ledger.committedMembers ↔ k ∈ c.ledger.committedMembers)
  (hget : ∀ k ∈ c.ledger.committedMembers, c'.ledger.validators.get k = c.ledger.validators.get k)

include hmembers hget

theorem freezeGenesisHolders_congr (hholders : c'.regime.epochHolders = c.regime.epochHolders) :
    c'.freezeGenesisHolders = c.freezeGenesisHolders := by
  unfold freezeGenesisHolders
  rw [sortedMemberKeys_congr hmembers, hholders]
  refine congrArg HolderSet.freeze (List.filterMap_congr fun k hk => ?_)
  rw [hget k (mem_sortedMemberKeys.1 hk)]

theorem committedStakedMemberCount_congr :
    c'.committedStakedMemberCount = c.committedStakedMemberCount := by
  unfold committedStakedMemberCount
  rw [sortedMemberKeys_congr hmembers]
  refine List.countP_congr fun k hk => ?_
  rw [hget k (mem_sortedMemberKeys.1 hk)]

end

/-- Nodes of one regime with the same records of the same members. -/
theorem refreezes_of_regime {T : Chain → Chain → Prop}
    (hregime : ∀ {c c'}, T c c' → c'.regime = c.regime)
    (hmembers : ∀ {c c'}, T c c' → c'.ledger.committedMembers = c.ledger.committedMembers)
    (hget : ∀ {c c'}, T c c' → ∀ k ∈ c.ledger.committedMembers,
      c'.ledger.validators.get k = c.ledger.validators.get k)
    (hwrite : ∀ {c c'} r, T c c' →
      T { c with regime := r, regimeDirty := true } { c' with regime := r, regimeDirty := true }) :
    Refreezes T where
  latched h := by rw [hregime h]
  epoch h := by rw [hregime h]
  count h := committedStakedMemberCount_congr (fun _ => by rw [hmembers h]) (hget h)
  frozen h := by
    unfold frozen
    rw [freezeGenesisHolders_congr (fun _ => by rw [hmembers h]) (hget h) (by rw [hregime h]),
      hregime h]
    exact hwrite _ h
  fired start h := by
    unfold latchedAt
    rw [hregime h]
    exact hwrite _ h

theorem refreezes_alike (cfg : Config) (S : Hash → Prop) : Refreezes (Alike cfg S) where
  latched h := h.latched
  epoch h := h.epoch
  count h := committedStakedMemberCount_congr h.ledger.members fun _ _ => by
    rw [h.ledger.validators]
  frozen h := by
    refine { h with holders := congrArg some ?_ }
    exact freezeGenesisHolders_congr h.ledger.members (fun _ _ => by rw [h.ledger.validators])
      h.holders
  fired _ h := { h with latched := rfl }

/-- A refreeze changes the regime and raises its flag at most. -/
theorem refreezes_regime (c : Chain) : Refreezes fun d d' =>
    d' = d ∧ ∃ regime dirty, d = { c with regime := regime, regimeDirty := dirty } := by
  apply refreezes_of_invariant
  · rintro _ ⟨regime, dirty, rfl⟩
    exact ⟨_, _, rfl⟩
  · rintro _ start ⟨regime, dirty, rfl⟩
    exact ⟨_, _, rfl⟩

theorem refreezeGenesisRegime_eq (c : Chain) (cfg : Config) (round : UInt64) :
    ∃ regime dirty, c.refreezeGenesisRegime cfg round =
      { c with regime := regime, regimeDirty := dirty } :=
  ((refreezes_regime c).refreezeGenesisRegime ⟨rfl, _, _, rfl⟩ cfg round).2

theorem refreezeGenesisRegime_ledger (cfg : Config) (c : Chain) (round : UInt64) :
    (c.refreezeGenesisRegime cfg round).ledger = c.ledger := by
  obtain ⟨regime, dirty, heq⟩ := refreezeGenesisRegime_eq c cfg round
  rw [heq]

section

variable (cfg : Config) (c : Chain) (atx : AttestedTransaction) (round : UInt64)
  (verdict : Option ProofError)

/-- Besides the ledger, a transaction changes what a refreeze does. -/
theorem executeTx_eq :
    ∃ regime dirty, (c.executeTx cfg atx round verdict).1 =
      { c with
        ledger := (c.ledger.executeTx (c.txNode cfg atx) atx round.toNat verdict).ledger
        regime := regime
        regimeDirty := dirty } :=
  ((refreezes_regime { c with ledger :=
    (c.ledger.executeTx (c.txNode cfg atx) atx round.toNat verdict).ledger }).executeTx cfg
      cfg (fun _ => rfl) rfl rfl rfl rfl (fun _ => ⟨rfl, _, _, rfl⟩) ⟨rfl, _, _, rfl⟩).2

theorem executeTx_ledger :
    (c.executeTx cfg atx round verdict).1.ledger =
      (c.ledger.executeTx (c.txNode cfg atx) atx round.toNat verdict).ledger := by
  obtain ⟨regime, dirty, heq⟩ := executeTx_eq cfg c atx round verdict
  rw [heq]

end

theorem Alike.executeTx (h : c.Alike cfg S c') (hs : c.SameShards cfg c' (atx :: rest))
    (hS : Ledger.MarksIn S atx) (round : UInt64) (verdict : Option ProofError) :
    (c.executeTx cfg atx round verdict).1.Alike cfg S (c'.executeTx cfg atx round verdict).1 ∧
      (c'.executeTx cfg atx round verdict).2 = (c.executeTx cfg atx round verdict).2 ∧
      (c.executeTx cfg atx round verdict).1.SameShards cfg
        (c'.executeTx cfg atx round verdict).1 rest := by
  have hnode : c'.txNode cfg atx = c.txNode cfg atx := hs.txNode h
  obtain ⟨hsplit, -, hledger⟩ :=
    Ledger.executeTx_alike h.ledger (c.txNode cfg atx) atx round.toNat verdict hS
  refine ⟨?_, ?_, ?_⟩
  · have hd := h.withLedger hledger
    refine (refreezes_alike cfg S).executeTx cfg cfg (fun _ => rfl) rfl (by rw [hnode])
      (by rw [hnode]; exact Ledger.bondApplied_alike h.ledger _ _ _ hS)
      (Ledger.admitsSender_alike h.ledger hledger atx) (fun _ => hd) { hd with }
  · unfold Chain.executeTx
    rw [hnode]
    exact hsplit
  · have ht := touches_executeTx cfg c atx round verdict
    have ht' := touches_executeTx cfg c' atx round verdict
    rcases hs with heq | ⟨⟨hnone, vs, hsome, hkeys⟩, hknown⟩
    · left
      rw [ht.rendezvous, ht'.rendezvous, heq]
    · right
      have hlive : (c.executeTx cfg atx round verdict).1.ledger.validators.keys =
          c.ledger.validators.keys := by
        rw [executeTx_ledger]
        exact Ledger.executeTx_keys _ _ atx _ verdict (hknown atx List.mem_cons_self)
      refine ⟨⟨by rw [ht'.rendezvous, hnone], vs, by rw [ht.rendezvous, hsome], ?_⟩, ?_⟩
      · rw [hlive, hkeys]
      · intro atx' hmem tx htx hfunc pubkey hsender
        rw [hlive]
        exact hknown atx' (List.mem_cons_of_mem _ hmem) tx htx hfunc pubkey hsender

theorem processTransactions_cons (cfg : Config) (round : UInt64) (c : Chain) (p : ProofVerdicts)
    (atx : AttestedTransaction) (rest : List AttestedTransaction) :
    c.processTransactions cfg round p (atx :: rest) =
      let one := c.executeTx cfg atx round (p.proofVerdict atx).1
      let run := one.1.processTransactions cfg round (p.proofVerdict atx).2 rest
      (run.1, run.2.1, one.2.epoch + run.2.2) := rfl

theorem Alike.processTransactions (h : c.Alike cfg S c') (hs : c.SameShards cfg c' (atxs ++ rest))
    (hS : ∀ atx ∈ atxs, Ledger.MarksIn S atx) (round : UInt64) (p : ProofVerdicts) :
    (c.processTransactions cfg round p atxs).1.Alike cfg S
        (c'.processTransactions cfg round p atxs).1 ∧
      (c'.processTransactions cfg round p atxs).2 = (c.processTransactions cfg round p atxs).2 ∧
      (c.processTransactions cfg round p atxs).1.SameShards cfg
        (c'.processTransactions cfg round p atxs).1 rest := by
  induction atxs generalizing c c' p with
  | nil => exact ⟨h, rfl, hs⟩
  | cons atx atxs ih =>
    obtain ⟨hone, hsplit, hshards⟩ := h.executeTx hs (hS atx List.mem_cons_self) round
      (p.proofVerdict atx).1
    obtain ⟨hall, hresult, hrest⟩ := ih hone hshards (fun a ha => hS a (List.mem_cons_of_mem _ ha))
      (p.proofVerdict atx).2
    refine ⟨hall, ?_, hrest⟩
    rw [processTransactions_cons, processTransactions_cons]
    dsimp only
    rw [hsplit, hresult]

/-! ### Batches -/

/-- Two batches that stand at the same place, on related nodes. -/
structure BatchState.Beside (T : Chain → Chain → Prop) (s s' : BatchState) : Prop where
  chain : T s.chain s'.chain
  verdicts : s'.verdicts = s.verdicts
  credited : s'.credited = s.credited

theorem BatchState.Beside.creditVertex {T : Chain → Chain → Prop} (h : s.Beside T s')
    (cfg : Config) (v : BatchVertex) (hcredit : ∀ epoch, T
      { s.chain with buckets := s.chain.buckets.creditRound epoch v.producer }
      { s'.chain with buckets := s'.chain.buckets.creditRound epoch v.producer }) :
    T (Chain.creditVertex cfg s v) (Chain.creditVertex cfg s' v) := by
  unfold Chain.creditVertex
  rw [h.credited]
  split
  · exact h.chain
  · exact hcredit _

theorem Alike.recordProducedMember (h : c.Alike cfg S c') (pubkey : Hash) :
    (c.recordProducedMember pubkey).Alike cfg S (c'.recordProducedMember pubkey) := by
  have hfree : ∀ d : Chain, d.Alike cfg S (d.recordProducedMember pubkey) := by
    intro d
    unfold Chain.recordProducedMember
    split
    · exact .refl cfg S d
    · exact ⟨.refl S d.ledger, rfl, rfl, fun _ => rfl, rfl, rfl, rfl, rfl, rfl⟩
  have hback : (c.recordProducedMember pubkey).Alike cfg S c := by
    unfold Chain.recordProducedMember
    split
    · exact .refl cfg S c
    · exact ⟨.refl S c.ledger, rfl, rfl, fun _ => rfl, rfl, rfl, rfl, rfl, rfl⟩
  exact (hback.trans h).trans (hfree c')

theorem recordProducedMember_rendezvous (c : Chain) (pubkey : Hash) :
    (c.recordProducedMember pubkey).rendezvous = c.rendezvous :=
  (touches_recordProducedMember c pubkey).rendezvous

theorem recordProducedMember_ledger (c : Chain) (pubkey : Hash) :
    (c.recordProducedMember pubkey).ledger = c.ledger := by
  unfold recordProducedMember
  split <;> rfl

theorem SameShards.of_eq {d d' : Chain} (h : c.SameShards cfg c' atxs)
    (hr : d.rendezvous = c.rendezvous) (hr' : d'.rendezvous = c'.rendezvous)
    (hl : d.ledger = c.ledger) : d.SameShards cfg d' atxs := by
  rcases h with heq | ⟨⟨hnone, vs, hsome, hkeys⟩, hknown⟩
  · left
    rw [hr, hr', heq]
  · right
    refine ⟨⟨by rw [hr', hnone], vs, by rw [hr, hsome], by rw [hl, hkeys]⟩, ?_⟩
    intro atx hmem tx htx hfunc pubkey hsender
    rw [hl]
    exact hknown atx hmem tx htx hfunc pubkey hsender

/-- The node once a vertex with those transactions and fees is flagged. -/
def flagVertex (cfg : Config) (c : Chain) (v : BatchVertex) (fees : UInt64) : Chain :=
  { c with
    buckets := c.buckets.addFees (cfg.commitEpochForRound v.round) fees
    committedVertices := v.hash :: c.committedVertices }.recordProducedMember v.producer

/-- Where a batch stands behind a vertex whose transactions ran so. -/
def BatchState.flagged (s : BatchState) (cfg : Config) (v : BatchVertex)
    (run : Chain × ProofVerdicts × UInt64) : BatchState where
  chain := run.1.flagVertex cfg v run.2.2
  verdicts := run.2.1
  credited := s.credited.insert (v.producer, v.round)

section

variable (cfg round s v)

theorem applyVertex_eq :
    applyVertex cfg round s v = s.flagged cfg v
      ((creditVertex cfg s v).processTransactions cfg round s.verdicts v.transactions) := by
  unfold applyVertex creditVertex BatchState.flagged
  by_cases hseen : (v.producer, v.round) ∈ s.credited
  · rw [List.insert_of_mem hseen]
    simp only [hseen, decide_true, if_true]
    rfl
  · rw [List.insert_of_not_mem hseen]
    simp only [hseen, decide_false, Bool.false_eq_true, if_false]
    rfl

theorem applyVertex_chain :
    (applyVertex cfg round s v).chain =
      let run := (creditVertex cfg s v).processTransactions cfg round s.verdicts v.transactions
      run.1.flagVertex cfg v run.2.2 := by
  rw [applyVertex_eq]
  rfl

end

theorem BatchState.Beside.flagged {T T' : Chain → Chain → Prop} (h : s.Beside T s')
    {v : BatchVertex} {run run' : Chain × ProofVerdicts × UInt64} (hresult : run'.2 = run.2)
    (hflag : T' (run.1.flagVertex cfg v run.2.2) (run'.1.flagVertex cfg v run.2.2)) :
    (s.flagged cfg v run).Beside T' (s'.flagged cfg v run') where
  chain := by
    unfold BatchState.flagged
    rwa [hresult]
  verdicts := congrArg Prod.fst hresult
  credited := by
    unfold BatchState.flagged
    rw [h.credited]

/-- Nodes alike that draw object holders from the same keys over the transactions. -/
def AlikeOver (cfg : Config) (S : Hash → Prop) (atxs : List AttestedTransaction) (c c' : Chain) :
    Prop :=
  c.Alike cfg S c' ∧ c.SameShards cfg c' atxs

theorem applyVertex_alikeOver {v : BatchVertex}
    (h : s.Beside (AlikeOver cfg S (v.transactions ++ rest)) s')
    (hS : ∀ atx ∈ v.transactions, Ledger.MarksIn S atx) (round : UInt64) :
    (applyVertex cfg round s v).Beside (AlikeOver cfg S rest) (applyVertex cfg round s' v) := by
  have hstart := h.creditVertex cfg v fun epoch => by
    obtain ⟨hc, hs⟩ := h.chain
    exact ⟨{ hc with buckets := by rw [hc.buckets] }, hs.of_eq rfl rfl rfl⟩
  obtain ⟨hrun, hresult, hafter⟩ := hstart.1.processTransactions hstart.2 hS round s.verdicts
  rw [applyVertex_eq, applyVertex_eq, h.verdicts]
  refine h.flagged hresult ⟨?_, ?_⟩
  · apply Alike.recordProducedMember
    exact { hrun with buckets := congrArg (fun b : Buckets => b.addFees _ _) hrun.buckets }
  · exact hafter.of_eq (recordProducedMember_rendezvous _ _) (recordProducedMember_rendezvous _ _)
      (recordProducedMember_ledger _ _)

/-- The transactions of a batch in commit order. -/
def batchTxs (batch : List BatchVertex) : List AttestedTransaction := batch.flatMap (·.transactions)

theorem foldl_alikeOver (h : s.Beside (AlikeOver cfg S (batchTxs batch ++ rest)) s')
    (hS : ∀ atx ∈ batchTxs batch, Ledger.MarksIn S atx) (round : UInt64) :
    (batch.foldl (applyVertex cfg round) s).Beside (AlikeOver cfg S rest)
      (batch.foldl (applyVertex cfg round) s') := by
  induction batch generalizing s s' with
  | nil => exact h
  | cons v batch ih =>
    rw [batchTxs, List.flatMap_cons] at hS
    rw [batchTxs, List.flatMap_cons, List.append_assoc] at h
    exact ih (applyVertex_alikeOver h (fun atx ha => hS atx (List.mem_append_left _ ha)) round)
      fun atx ha => hS atx (List.mem_append_right _ ha)

theorem Alike.applyBatch (h : c.Alike cfg S c') (hs : c.SameShards cfg c' (batchTxs batch ++ rest))
    (hS : ∀ atx ∈ batchTxs batch, Ledger.MarksIn S atx) (round : UInt64) :
    (c.applyBatch cfg round batch).Alike cfg S (c'.applyBatch cfg round batch) ∧
      (c.applyBatch cfg round batch).SameShards cfg (c'.applyBatch cfg round batch) rest := by
  have hnode : c'.node cfg = c.node cfg := h.node (hs.sharding h)
  unfold Chain.applyBatch
  rw [hnode]
  refine BatchState.Beside.chain (T := AlikeOver cfg S rest) (foldl_alikeOver ?_ hS round)
  exact ⟨⟨h, hs⟩, rfl, rfl⟩

/-! ### Boundaries -/

/-- The controller reads the rate only to move it. -/
theorem runThermostat_congr {p : ThermostatParams} {rate rate' : UInt64}
    (h : ∀ ratio, adjustRate rate' ratio p = adjustRate rate ratio p) (st : Ledger)
    (distributable : Bool) :
    st.runThermostat p rate' distributable = st.runThermostat p rate distributable := by
  unfold Ledger.runThermostat
  dsimp only
  rw [h]

/-- Nodes alike mint alike, and past the genesis epoch their rates are the same then. -/
theorem Alike.mintDeferred (h : c.Alike cfg S c') :
    Ledger.Alike S (c.mintDeferred cfg).1 (c'.mintDeferred cfg).1 ∧
      (c'.mintDeferred cfg).2.2 = (c.mintDeferred cfg).2.2 ∧
      (c.regime.currentEpoch ≠ 0 → (c'.mintDeferred cfg).2 = (c.mintDeferred cfg).2) := by
  unfold Chain.mintDeferred
  rw [h.epoch, h.buckets, h.ledger.validators]
  dsimp only
  rw [runThermostat_congr h.rate]
  split
  · rename_i hzero
    exact ⟨h.ledger, rfl, fun hne => absurd hzero hne⟩
  · refine ⟨h.ledger.through (fun st => (st.runThermostat cfg.thermostat c.issuanceRateMicro _).1)
      fun st b => congrArg Prod.fst (Ledger.withBook_runThermostat st b _ _ _), ?_⟩
    obtain ⟨b, hb, -⟩ := h.ledger
    rw [hb, Ledger.withBook_runThermostat]
    exact ⟨rfl, fun _ => rfl⟩

theorem settleDeferredEpoch_of_ne {cfg : Config} {c : Chain} (h : c.regime.currentEpoch ≠ 0) :
    c.settleDeferredEpoch cfg =
      let epoch := c.regime.currentEpoch - 1
      let paid := (c.mintDeferred cfg).1.distributeEpochRewards cfg (c.buckets.produced epoch)
        (c.buckets.fees epoch) (c.mintDeferred cfg).2.2
      let buckets : Buckets :=
        { epochFees := c.buckets.epochFees.erase epoch
          epochRoundsProduced := c.buckets.epochRoundsProduced.erase epoch }
      { c with
        ledger := paid.1
        issuanceRateMicro := (c.mintDeferred cfg).2.1
        buckets :=
          if paid.2 > 0 then buckets.addFees c.regime.currentEpoch paid.2 else buckets } := by
  unfold settleDeferredEpoch
  rw [if_neg h]

/-- Two nodes past the genesis epoch that mint and pay alike settle alike. -/
theorem settleDeferredEpoch_rel {R : Ledger → Ledger → Prop} {T : Chain → Chain → Prop}
    (hne : c.regime.currentEpoch ≠ 0) (hepoch : c'.regime.currentEpoch = c.regime.currentEpoch)
    (hbuckets : c'.buckets = c.buckets) (hmint : (c'.mintDeferred cfg).2 = (c.mintDeferred cfg).2)
    (hpaid : ∀ produced fees issuance, Ledger.PaidAlike R
      ((c.mintDeferred cfg).1.distributeEpochRewards cfg produced fees issuance)
      ((c'.mintDeferred cfg).1.distributeEpochRewards cfg produced fees issuance))
    (hmove : ∀ st st' rate buckets, R st st' →
      T { c with ledger := st, issuanceRateMicro := rate, buckets }
        { c' with ledger := st', issuanceRateMicro := rate, buckets }) :
    T (c.settleDeferredEpoch cfg) (c'.settleDeferredEpoch cfg) := by
  rw [settleDeferredEpoch_of_ne hne, settleDeferredEpoch_of_ne (by rwa [hepoch]), hepoch, hbuckets,
    hmint]
  obtain ⟨hst, hleft⟩ := hpaid (c.buckets.produced (c.regime.currentEpoch - 1))
    (c.buckets.fees (c.regime.currentEpoch - 1)) (c.mintDeferred cfg).2.2
  dsimp only
  rw [hleft]
  exact hmove _ _ _ _ hst

namespace Alike

variable (h : c.Alike cfg S c')

include h

theorem settleDeferredEpoch :
    (c.settleDeferredEpoch cfg).Alike cfg S (c'.settleDeferredEpoch cfg) := by
  by_cases hzero : c.regime.currentEpoch = 0
  · unfold Chain.settleDeferredEpoch
    rw [h.epoch, if_pos hzero, if_pos hzero]
    exact h
  · obtain ⟨hledger, -, hrest⟩ := h.mintDeferred
    refine settleDeferredEpoch_rel (R := Ledger.Alike S) hzero h.epoch h.buckets (hrest hzero)
      (fun produced fees issuance => ⟨?_, ?_⟩) fun st st' rate buckets hst =>
        { h with ledger := hst, buckets := rfl, rate := fun _ => rfl }
    · exact hledger.through (fun st => (st.distributeEpochRewards cfg produced fees issuance).1)
        fun st b => congrArg Prod.fst (Ledger.withBook_distributeEpochRewards st b cfg _ _ _)
    · obtain ⟨b, hb, -⟩ := hledger
      rw [hb, Ledger.withBook_distributeEpochRewards]

/-- A boundary on nodes alike: they draw object holders from the same set afterwards. -/
theorem transitionEpoch :
    (c.transitionEpoch cfg).Alike cfg S (c'.transitionEpoch cfg) ∧
      (c'.transitionEpoch cfg).rendezvous = (c.transitionEpoch cfg).rendezvous := by
  have hsettled := h.settleDeferredEpoch
  have hledger : Ledger.Alike S (c.boundaryLedger cfg) (c'.boundaryLedger cfg) := by
    unfold boundaryLedger
    rw [h.epoch]
    exact (hsettled.ledger.applyPendingRemovals cfg.maxChurnPerEpoch).through
      (·.sweepExpiredDomains cfg.feeParams.graceEpochs (c.regime.currentEpoch + 1))
      fun st b => Ledger.withBook_sweepExpiredDomains st b _ _
  have hsnapshot := Ledger.snapshotEpochHolders_alike hledger cfg.maxChurnPerEpoch
  rw [transitionEpoch_eq, transitionEpoch_eq]
  refine ⟨⟨?_, hsettled.buckets, hsettled.cursor, hsettled.rate, ?_, ?_, ?_, ?_, h.latched⟩, ?_⟩
  · obtain ⟨b, hb, hbook⟩ := hledger
    exact ⟨{ b with epochAdditions := [] }, by rw [hb]; rfl, hbook.marks, hbook.members, .refl _,
      hbook.removals⟩
  · exact congrArg (· + 1) h.epoch
  · exact congrArg some hsnapshot
  · show some (c'.regime.epochHolders.getD _) = some (c.regime.epochHolders.getD _)
    rw [h.holders, hledger.validators]
  · exact congrArg some hsnapshot
  · exact congrArg (fun hs : HolderSet => some hs.toValidatorSet) hsnapshot

/-! ### Rounds -/

/-- Writing to disk plays no part. -/
theorem advanceCommitCursor {round : UInt64}
    (hs : cfg.isEpochBoundary round = false → c.SameShards cfg c' rest) :
    (c.advanceCommitCursor cfg round).Alike cfg S (c'.advanceCommitCursor cfg round) ∧
      (c.advanceCommitCursor cfg round).SameShards cfg (c'.advanceCommitCursor cfg round) rest := by
  have hmoved : ({ c with lastCommitted := round + 1 } : Chain).Alike cfg S
      { c' with lastCommitted := round + 1 } :=
    { h with cursor := rfl }
  have hwrite : ∀ {d d' : Chain}, d.Alike cfg S d' → ∀ (m m' : Meta) (r r' p p' : Bool),
      ({ d with persisted := m, regimeDirty := r, producedDirty := p } : Chain).Alike cfg S
        { d' with persisted := m', regimeDirty := r', producedDirty := p' } :=
    fun h _ _ _ _ _ _ => { h with }
  unfold Chain.advanceCommitCursor
  dsimp only
  split
  · obtain ⟨halike, hsame⟩ := hmoved.transitionEpoch
    exact ⟨hwrite halike _ _ false false false false, .inl hsame⟩
  · rename_i hboundary
    rw [Bool.not_eq_true] at hboundary
    have hshards := hs hboundary
    constructor
    · split <;> split <;> exact hwrite hmoved ..
    · split <;> split <;> exact hshards.of_eq rfl rfl rfl

theorem decideRound (hs : c.SameShards cfg c' (batchTxs batch))
    (hrest : cfg.isEpochBoundary c.lastCommitted = false →
      c.SameShards cfg c' (batchTxs batch ++ rest))
    (hS : ∀ atx ∈ batchTxs batch, Ledger.MarksIn S atx) :
    (c.decideRound cfg batch).Alike cfg S (c'.decideRound cfg batch) ∧
      (c.decideRound cfg batch).SameShards cfg (c'.decideRound cfg batch) rest := by
  unfold Chain.decideRound
  rw [h.cursor]
  have happlied : (c.applyBatch cfg c.lastCommitted batch).Alike cfg S
      (c'.applyBatch cfg c.lastCommitted batch) :=
    (@Alike.applyBatch [] batch S cfg c c' h (by rwa [List.append_nil]) hS c.lastCommitted).1
  exact happlied.advanceCommitCursor fun hboundary =>
    (h.applyBatch (hrest hboundary) hS c.lastCommitted).2

theorem decideRound_boundary (hs : c.SameShards cfg c' (batchTxs batch))
    (hS : ∀ atx ∈ batchTxs batch, Ledger.MarksIn S atx)
    (hboundary : cfg.isEpochBoundary c.lastCommitted = true) :
    (c'.decideRound cfg batch).rendezvous = (c.decideRound cfg batch).rendezvous := by
  rw [← List.append_nil (batchTxs batch)] at hs
  obtain ⟨happlied, -⟩ := h.applyBatch hs hS c.lastCommitted
  have hmoved : ({ c.applyBatch cfg c.lastCommitted batch with
      lastCommitted := c.lastCommitted + 1 } : Chain).Alike cfg S
      { c'.applyBatch cfg c.lastCommitted batch with lastCommitted := c.lastCommitted + 1 } :=
    { happlied with cursor := rfl }
  unfold Chain.decideRound Chain.advanceCommitCursor
  rw [h.cursor]
  dsimp only
  rw [if_pos hboundary, if_pos hboundary]
  exact hmoved.transitionEpoch.2

end Alike

/-- Off a boundary the set object holders are drawn from stays. -/
theorem decideRound_rendezvous (hboundary : cfg.isEpochBoundary c.lastCommitted = false) :
    (c.decideRound cfg batch).rendezvous = c.rendezvous := by
  have ht := touches_applyBatch cfg c c.lastCommitted batch
  unfold decideRound advanceCommitCursor
  dsimp only
  rw [if_neg (by rw [hboundary]; exact Bool.false_ne_true)]
  split <;> exact ht.rendezvous

end Steps

end Chain

end BluePods
