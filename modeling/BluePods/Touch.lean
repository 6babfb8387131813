import BluePods.Alike
import BluePods.Stages

/-! What applying a batch does to the epoch state. The regime and the committed members
change only with a dirty flag raised; cursor, metadata, issuance rate and sharding do not
change at all. -/

namespace BluePods

namespace Chain

variable (c : Chain) (cfg : Config) (round : UInt64)

/-- What applying transactions and vertices leaves alone, and what it changes only with a
dirty flag raised. The strict regime is never left. -/
structure Touches (c c' : Chain) : Prop where
  persisted : c'.persisted = c.persisted
  cursor : c'.lastCommitted = c.lastCommitted
  rate : c'.issuanceRateMicro = c.issuanceRateMicro
  rendezvous : c'.rendezvous = c.rendezvous
  clean : c'.regimeDirty = false → c'.producedDirty = false →
    c.regimeDirty = false ∧ c.producedDirty = false ∧ c'.regime = c.regime ∧
      c'.ledger.committedMembers = c.ledger.committedMembers
  latched : c.regime.strictLatched = true → c'.regime.strictLatched = true

theorem Touches.refl : c.Touches c :=
  ⟨rfl, rfl, rfl, rfl, fun h h' => ⟨h, h', rfl, rfl⟩, fun h => h⟩

theorem Touches.trans {c₁ c₂ c₃ : Chain} (h : c₁.Touches c₂) (h' : c₂.Touches c₃) :
    c₁.Touches c₃ where
  persisted := h'.persisted.trans h.persisted
  cursor := h'.cursor.trans h.cursor
  rate := h'.rate.trans h.rate
  rendezvous := h'.rendezvous.trans h.rendezvous
  clean hr hp := by
    obtain ⟨hr₂, hp₂, hregime, hmembers⟩ := h'.clean hr hp
    obtain ⟨hr₁, hp₁, hregime', hmembers'⟩ := h.clean hr₂ hp₂
    exact ⟨hr₁, hp₁, hregime.trans hregime', hmembers.trans hmembers'⟩
  latched hl := h'.latched (h.latched hl)

/-! ## Two nodes abreast -/

/-- The node with the holders of the genesis epoch frozen again. -/
def frozen (c : Chain) : Chain :=
  { c with
    regime := { c.regime with
      epochHolders := some c.freezeGenesisHolders
      eligibleHolders := some c.regime.producedMembers }
    regimeDirty := true }

/-- The node with the latch fired. -/
def latchedAt (c : Chain) (start : UInt64) : Chain :=
  { c with
    regime := { c.regime with strictStartRound := start, strictLatched := true }
    regimeDirty := true }

/-- What a refreeze reads agrees on related nodes, and what it writes keeps them related. -/
structure Refreezes (T : Chain → Chain → Prop) : Prop where
  latched : ∀ {c c'}, T c c' → c'.regime.strictLatched = c.regime.strictLatched
  epoch : ∀ {c c'}, T c c' → c'.regime.currentEpoch = c.regime.currentEpoch
  count : ∀ {c c'}, T c c' → c'.committedStakedMemberCount = c.committedStakedMemberCount
  frozen : ∀ {c c'}, T c c' → T c.frozen c'.frozen
  fired : ∀ {c c'} start, T c c' → T (c.latchedAt start) (c'.latchedAt start)

section Abreast

variable {T : Chain → Chain → Prop} {c c' : Chain} {round : UInt64}

theorem Refreezes.refreezeGenesisRegime (hT : Refreezes T) (h : T c c') (cfg : Config)
    (round : UInt64) :
    T (c.refreezeGenesisRegime cfg round) (c'.refreezeGenesisRegime cfg round) := by
  have hlatch : ∀ {d d' : Chain}, T d d' →
      T (if cfg.minValidators > 0 ∧ d.committedStakedMemberCount ≥ cfg.minValidators then
        d.latchStrictRegime cfg round else d)
      (if cfg.minValidators > 0 ∧ d'.committedStakedMemberCount ≥ cfg.minValidators then
        d'.latchStrictRegime cfg round else d') := by
    intro d d' hd
    rw [hT.count hd]
    split
    · unfold latchStrictRegime
      rw [hT.latched hd]
      split
      · exact hd
      · exact hT.fired _ hd
    · exact hd
  unfold Chain.refreezeGenesisRegime
  rw [hT.latched h]
  split
  · exact h
  · refine hlatch ?_
    rw [hT.epoch h]
    split
    · exact hT.frozen h
    · exact h

/-- A transaction changes the ledger and refreezes. -/
theorem Refreezes.executeTx (hT : Refreezes T) (cfg cfg' : Config)
    (hcfg : ∀ c : Chain, c.refreezeGenesisRegime cfg' = c.refreezeGenesisRegime cfg)
    {atx : AttestedTransaction} {verdict : Option ProofError} {st st' : Ledger}
    (hst : (c.ledger.executeTx (c.txNode cfg atx) atx round.toNat verdict).ledger = st)
    (hst' : (c'.ledger.executeTx (c'.txNode cfg' atx) atx round.toNat verdict).ledger = st')
    (hbond : c'.ledger.bondApplied (c'.txNode cfg' atx) atx round.toNat verdict =
      c.ledger.bondApplied (c.txNode cfg atx) atx round.toNat verdict)
    (hsender : c'.ledger.admitsSender st' atx = c.ledger.admitsSender st atx)
    (hstep : c.ledger.admitsSender st atx = false →
      T { c with ledger := st } { c' with ledger := st' })
    (hdirty : T { c with ledger := st, regimeDirty := true }
      { c' with ledger := st', regimeDirty := true }) :
    T (c.executeTx cfg atx round verdict).1 (c'.executeTx cfg' atx round verdict).1 := by
  have hbonded : ∀ {d d' : Chain}, T d d' → ∀ bond : Bool,
      T (if bond then d.refreezeGenesisRegime cfg round else d)
        (if bond then d'.refreezeGenesisRegime cfg round else d') := by
    intro d d' hd bond
    split
    · exact hT.refreezeGenesisRegime hd cfg round
    · exact hd
  unfold Chain.executeTx
  simp only [hcfg, hst, hst', hbond, hsender]
  refine hbonded ?_ _
  split
  · exact hT.refreezeGenesisRegime hdirty cfg round
  · rename_i hno
    exact hstep (Bool.not_eq_true _ ▸ hno)

end Abreast

/-- What a freeze and a fired latch keep of one node, refreezes and transactions keep. -/
theorem refreezes_of_invariant {P : Chain → Prop} (hfrozen : ∀ c, P c → P c.frozen)
    (hfired : ∀ c start, P c → P (c.latchedAt start)) : Refreezes fun c c' => c' = c ∧ P c where
  latched h := by rw [h.1]
  epoch h := by rw [h.1]
  count h := by rw [h.1]
  frozen h := ⟨by rw [h.1], hfrozen _ h.2⟩
  fired start h := ⟨by rw [h.1], hfired _ start h.2⟩

theorem refreezes_touches : Refreezes fun d d' => d' = d ∧ c.Touches d :=
  refreezes_of_invariant (fun _ h => h.trans ⟨rfl, rfl, rfl, rfl, by simp [frozen], fun h => h⟩)
    fun _ _ h => h.trans ⟨rfl, rfl, rfl, rfl, by simp [latchedAt], fun _ => rfl⟩

theorem touches_refreezeGenesisRegime : c.Touches (c.refreezeGenesisRegime cfg round) :=
  ((refreezes_touches c).refreezeGenesisRegime ⟨rfl, .refl c⟩ cfg round).2

theorem touches_executeTx (c : Chain) (atx : AttestedTransaction) (round : UInt64)
    (verdict : Option ProofError) : c.Touches (c.executeTx cfg atx round verdict).1 := by
  refine ((refreezes_touches c).executeTx cfg cfg (fun _ => rfl) rfl rfl rfl rfl
    (fun hno => ⟨rfl, ?_⟩)
    ⟨rfl, rfl, rfl, rfl, rfl, by simp, fun h => h⟩).2
  refine ⟨rfl, rfl, rfl, rfl, fun hr hp => ⟨hr, hp, rfl, ?_⟩, fun h => h⟩
  rcases c.ledger.executeTx_members (c.txNode cfg atx) atx round.toNat verdict with
    hsame | ⟨tx, pubkey, htx, hsender, hnew, hadd⟩
  · exact hsame
  · simp [Ledger.admitsSender, htx, hsender, hadd, hnew] at hno

theorem touches_processTransactions (c : Chain) (p : ProofVerdicts)
    (atxs : List AttestedTransaction) : c.Touches (c.processTransactions cfg round p atxs).1 := by
  induction atxs generalizing c p with
  | nil => exact .refl c
  | cons atx rest ih =>
    exact (touches_executeTx cfg c atx round _).trans (ih _ _)

theorem touches_recordProducedMember (pubkey : Hash) :
    c.Touches (c.recordProducedMember pubkey) := by
  unfold recordProducedMember
  split
  · exact .refl c
  · exact ⟨rfl, rfl, rfl, rfl, by simp, fun h => h⟩

theorem touches_applyVertex (s : BatchState) (v : BatchVertex) :
    s.chain.Touches (applyVertex cfg round s v).chain := by
  have hcredit : s.chain.Touches (if decide ((v.producer, v.round) ∈ s.credited) then s.chain
      else { s.chain with
        buckets := s.chain.buckets.creditRound (cfg.commitEpochForRound v.round) v.producer }) := by
    split
    · exact .refl _
    · exact ⟨rfl, rfl, rfl, rfl, fun hr hp => ⟨hr, hp, rfl, rfl⟩, fun h => h⟩
  have hbucket : ∀ (c : Chain) (b : Buckets) (done : List Hash),
      c.Touches { c with buckets := b, committedVertices := done } := fun c b done =>
    ⟨rfl, rfl, rfl, rfl, fun hr hp => ⟨hr, hp, rfl, rfl⟩, fun h => h⟩
  exact ((hcredit.trans (touches_processTransactions cfg round _ s.verdicts v.transactions)).trans
    (hbucket _ _ _)).trans (touches_recordProducedMember _ v.producer)

/-- A batch changes the epoch state and the members only with a dirty flag raised. -/
theorem touches_applyBatch (c : Chain) (round : UInt64) (batch : List BatchVertex) :
    c.Touches (c.applyBatch cfg round batch) := by
  have hfold : ∀ s : BatchState, c.Touches s.chain →
      c.Touches (batch.foldl (applyVertex cfg round) s).chain := by
    induction batch with
    | nil => exact fun s h => h
    | cons v batch ih => exact fun s h => ih _ (h.trans (touches_applyVertex cfg round s v))
  exact hfold _ (.refl c)

end Chain

end BluePods
