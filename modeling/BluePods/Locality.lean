import BluePods.Holders
import BluePods.Joiner

/-! Runs of nodes that hold different replicated objects. A boundary reads reward coins and
stake positions; where those are singletons, and every transaction is blind to what the node
stores besides, the nodes go the same way at every step of the log. -/

namespace BluePods

open Ledger

/-! ## Sorted scans -/

/-- A scan in key order finds what it finds, whatever else is among the keys. -/
theorem filterMap_insertionSort_congr {β : Type} {a b : List Hash} (ha : a.Nodup) (hb : b.Nodup)
    {f : Hash → Option β} (h : ∀ id, (f id).isSome → (id ∈ a ↔ id ∈ b)) :
    (a.insertionSort (· ≤ ·)).filterMap f = (b.insertionSort (· ≤ ·)).filterMap f := by
  have hfound : ∀ l : List Hash, l.filterMap f =
      (l.filter fun id => (f id).isSome).filterMap f := by
    intro l
    induction l with
    | nil => rfl
    | cons id l ih =>
      cases hid : f id with
      | none => simp [hid, ih]
      | some x => simp [hid, ih]
  rw [hfound (a.insertionSort _), hfound (b.insertionSort _)]
  congr 1
  apply List.Perm.eq_of_pairwise
  · intro x y _ _ hxy hyx
    exact le_antisymm hxy hyx
  · exact (List.pairwise_insertionSort _ a).filter _
  · exact (List.pairwise_insertionSort _ b).filter _
  · have hperm : ∀ l : List Hash, ((l.insertionSort (· ≤ ·)).filter fun id => (f id).isSome).Perm
        (l.filter fun id => (f id).isSome) := fun l => (List.perm_insertionSort _ l).filter _
    refine ((hperm a).trans ?_).trans (hperm b).symm
    rw [List.perm_ext_iff_of_nodup (ha.filter _) (hb.filter _)]
    intro id
    rw [List.mem_filter, List.mem_filter]
    exact and_congr_left fun hid => h id hid

namespace Ledger

variable {v : ValidatorInfo} {st st' : Ledger}

/-! ## What a boundary reads -/

/-- The validator's reward coin is no replicated object of this node, and none of those has
the layout of a position with it. -/
structure BlindTo (st : Ledger) (v : ValidatorInfo) : Prop where
  coin : v.rewardCoin ≠ zeroHash → st.Plain v.rewardCoin
  positions : ∀ id o, st.getObject id = some o → o.replication ≠ 0 → o.content.length = 40 →
    o.content.take 32 ≠ v.pubkey.val

def BoundaryBlind (st : Ledger) : Prop := ∀ v ∈ st.validators.all, st.BlindTo v

/-- No replicated object is new, and every validator was there with its reward coin. -/
structure Settles (st st' : Ledger) : Prop where
  bodies : ∀ id o, st'.getObject id = some o → o.replication ≠ 0 → st.getObject id = some o
  records : ∀ v ∈ st'.validators.all, ∃ w ∈ st.validators.all,
    w.pubkey = v.pubkey ∧ w.rewardCoin = v.rewardCoin

namespace Settles

theorem of_eq (hobjects : st'.objects = st.objects) (hvalidators : st'.validators = st.validators) :
    Settles st st' where
  bodies id o ho _ := by
    rw [getObject, hobjects] at ho
    exact ho
  records v hv := ⟨v, hvalidators ▸ hv, rfl, rfl⟩

theorem refl (st : Ledger) : Settles st st := of_eq rfl rfl

theorem trans {st₁ st₂ st₃ : Ledger} (h : Settles st₁ st₂) (h' : Settles st₂ st₃) :
    Settles st₁ st₃ where
  bodies id o ho hrep := h.bodies id o (h'.bodies id o ho hrep) hrep
  records v hv := by
    obtain ⟨w, hw, hkey, hcoin⟩ := h'.records v hv
    obtain ⟨u, hu, hkey', hcoin'⟩ := h.records w hw
    exact ⟨u, hu, hkey'.trans hkey, hcoin'.trans hcoin⟩

theorem setObject (st : Ledger) {o : Object} (hrep : o.replication = 0) :
    Settles st (st.setObject o) where
  bodies id o' ho' hrep' := by
    simp only [getObject, Ledger.setObject, ObjectStore.get_set] at ho'
    split_ifs at ho' with hid
    · rw [← Option.some.inj ho'] at hrep'
      exact absurd hrep hrep'
    · exact ho'
  records v hv := ⟨v, hv, rfl, rfl⟩

theorem modify (st : Ledger) (pubkey : Hash) {g : ValidatorInfo → ValidatorInfo}
    (hg : ∀ v, (g v).pubkey = v.pubkey) (hcoin : ∀ v, (g v).rewardCoin = v.rewardCoin) :
    Settles st { st with validators := st.validators.modify pubkey g hg } where
  bodies _ _ ho _ := ho
  records v hv := by
    simp only [ValidatorSet.modify, Lib.Tally.update] at hv
    obtain ⟨w, hw, rfl⟩ := List.mem_map.1 hv
    split
    · exact ⟨w, hw, (hg w).symm, (hcoin w).symm⟩
    · exact ⟨w, hw, rfl, rfl⟩

theorem plain (h : Settles st st') {id : Hash} (hp : st.Plain id) : st'.Plain id := by
  intro o ho
  by_contra hrep
  exact hrep (hp o (h.bodies id o ho hrep))

theorem blindTo (h : Settles st st') (hb : st.BlindTo v) : st'.BlindTo v where
  coin hne := h.plain (hb.coin hne)
  positions id o ho hrep := hb.positions id o (h.bodies id o ho hrep) hrep

theorem boundaryBlind (h : Settles st st') (hb : st.BoundaryBlind) : st'.BoundaryBlind := by
  intro v hv
  obtain ⟨w, hw, hkey, hcoin⟩ := h.records v hv
  have hblind := h.blindTo (hb w hw)
  exact { coin := hcoin ▸ hblind.coin, positions := hkey ▸ hblind.positions }

theorem creditCoin {coin : Hash} {amount : UInt64} (hp : st.Plain coin)
    (h : st.creditCoin coin amount = .ok st') : Settles st st' := by
  rcases creditCoin_ok h with ⟨-, rfl⟩ | ⟨o, balance, ho, -, -, rfl⟩
  · exact refl _
  · have hset : Settles st (st.setObject (o.withBalance (balance + amount))) :=
      setObject st (hp o ho)
    exact hset.trans (of_eq (addCoins_objects ..) (addCoins_validators ..))

theorem setSelfStake (st : Ledger) (pubkey : Hash) (stake : UInt64) :
    Settles st (st.onValidators (·.setSelfStake pubkey stake)) :=
  modify st pubkey (g := fun v => { v with selfStake := stake }) (fun _ => rfl) fun _ => rfl

theorem remove (st : Ledger) (pubkey : Hash) (pending : List Hash) :
    Settles st { st with
      validators := st.validators.remove pubkey
      pendingRemovals := pending } where
  bodies _ _ ho _ := ho
  records v hv := by
    refine ⟨v, ?_, rfl, rfl⟩
    simp only [ValidatorSet.remove] at hv
    split at hv
    · rename_i idx last _ hlast
      rcases List.mem_or_eq_of_mem_set hv with hmem | rfl
      · exact List.mem_of_mem_dropLast hmem
      · exact List.mem_of_getLast? hlast
    · exact hv

end Settles

/-! ## Positions -/

/-- A replicated object does not pass for a position with the validator. -/
theorem BlindTo.not_position (h : st.BlindTo v) {id : Hash} {o : Object}
    (ho : st.getObject id = some o) (hrep : o.replication ≠ 0) :
    decodeDelegationPosition v.pubkey o = none ∧
      ∀ target amount, decodeDelegationContent o.content = some (target, amount) →
        target ≠ v.pubkey := by
  constructor
  · unfold decodeDelegationPosition
    split
    · rfl
    · rename_i hlen
      rw [if_pos (h.positions id o ho hrep (not_not.1 hlen))]
  · intro target amount hdecode htarget
    unfold decodeDelegationContent at hdecode
    split at hdecode
    · cases hdecode
    · rename_i hlen
      obtain ⟨key, hkey, heq⟩ := Option.map_eq_some_iff.1 hdecode
      have hval := hash32_eq_some.1 hkey
      rw [(Prod.mk.inj heq).1, htarget] at hval
      exact h.positions id o ho hrep (not_not.1 hlen) hval

section

variable (h : Shares st st') (hb : st.BlindTo v) (hb' : st'.BlindTo v)

include h hb hb'

theorem Shares.readDelegationAmount_of_blind (posID : Hash) :
    st'.readDelegationAmount posID v.pubkey = st.readDelegationAmount posID v.pubkey := by
  have hnone : ∀ {s : Ledger}, s.BlindTo v → s.single posID = none →
      s.readDelegationAmount posID v.pubkey = none := by
    intro s hs hv
    unfold Ledger.readDelegationAmount
    cases ho : s.getObject posID with
    | none => rfl
    | some o =>
      have hno := (hs.not_position ho (single_eq_none.1 hv o ho)).2
      simp only [Option.bind_eq_bind, Option.bind_some]
      cases hdecode : decodeDelegationContent o.content with
      | none => rfl
      | some p => exact if_pos (hno p.1 p.2 hdecode)
  rcases h.getObject_cases posID with heq | ⟨hv, hv'⟩
  · unfold Ledger.readDelegationAmount
    rw [heq]
  · rw [hnone hb hv, hnone hb' hv']

theorem Shares.delegationsFor : st'.delegationsFor v.pubkey = st.delegationsFor v.pubkey := by
  have hnone : ∀ {s : Ledger} {id : Hash}, s.BlindTo v → s.single id = none →
      (s.getObject id).bind (decodeDelegationPosition v.pubkey) = none := by
    intro s id hs hv
    cases ho : s.getObject id with
    | none => rfl
    | some o => exact (hs.not_position ho (single_eq_none.1 hv o ho)).1
  have hscan : (fun id : Hash => if isObjectKey id.val then
        (st'.getObject id).bind (decodeDelegationPosition v.pubkey) else none) =
      fun id : Hash => if isObjectKey id.val then
        (st.getObject id).bind (decodeDelegationPosition v.pubkey) else none := by
    funext id
    rcases h.getObject_cases id with heq | ⟨hv, hv'⟩
    · rw [heq]
    · rw [hnone hb hv, hnone hb' hv']
  have hkey : ∀ {s : Ledger} {id : Hash}, (if isObjectKey id.val then
      (s.getObject id).bind (decodeDelegationPosition v.pubkey) else none).isSome →
      id ∈ s.objects.bodies.keys := by
    intro s id hid
    split at hid
    · rw [← AList.mem_keys, ← AList.lookup_isSome]
      cases ho : s.getObject id with
      | none => simp [ho] at hid
      | some o => exact Option.isSome_iff_exists.2 ⟨o, ho⟩
    · simp at hid
  unfold Ledger.delegationsFor
  rw [hscan]
  refine filterMap_insertionSort_congr st'.objects.bodies.nodupKeys st.objects.bodies.nodupKeys ?_
  intro id hid
  refine iff_of_true (hkey ?_) (hkey hid)
  rwa [congrFun hscan id]

/-! ## Rewards -/

theorem Shares.compoundDelegation (cr : Crypto) (delegator : Hash) (reward : UInt64) :
    Option.Rel Shares (st.compoundDelegation cr delegator v.pubkey reward)
      (st'.compoundDelegation cr delegator v.pubkey reward) := by
  unfold Ledger.compoundDelegation
  rw [h.readDelegationAmount_of_blind hb hb']
  split
  · exact .none
  · cases st.readDelegationAmount (delegationID cr delegator v.pubkey) v.pubkey with
    | none => exact .none
    | some current =>
      refine .some ?_
      simp only [setObject_validators, h.validators]
      exact (h.setObject _).withValidators _

end

theorem Settles.compoundDelegation {cr : Crypto} {delegator validator : Hash} {reward : UInt64}
    (h : st.compoundDelegation cr delegator validator reward = some st') : Settles st st' := by
  unfold Ledger.compoundDelegation at h
  split at h
  · cases h
  · obtain ⟨current, -, rfl⟩ := Option.map_eq_some_iff.1 h
    have hset : Settles st (st.setObject
        (buildDelegationObject cr delegator validator (safeAdd current reward))) :=
      setObject st rfl
    exact hset.trans (modify _ validator
      (g := fun v => { v with delegatedTotal := v.delegatedTotal + reward })
      (fun _ => rfl) fun _ => rfl)

/-- Ledgers in step since a payout began: neither node is blinded. -/
structure SharesSince (st st' s s' : Ledger) : Prop where
  ledger : Shares s s'
  settles : Settles st s
  settles' : Settles st' s'

theorem SharesSince.creditCoin {s s' : Ledger} (h : SharesSince st st' s s') {coin : Hash}
    (hp : st.Plain coin) (hp' : st'.Plain coin) (amount : UInt64) :
    ResultAlike Eq (SharesSince st st') (s.creditCoin coin amount) (s'.creditCoin coin amount) := by
  have hps := h.settles.plain hp
  have hps' := h.settles'.plain hp'
  have hcredit := h.ledger.creditCoin hps hps' amount
  generalize hr : s.creditCoin coin amount = r at hcredit ⊢
  generalize hr' : s'.creditCoin coin amount = r' at hcredit ⊢
  cases hcredit with
  | error he => exact .error he
  | ok hs =>
    exact .ok ⟨hs, h.settles.trans (.creditCoin hps hr), h.settles'.trans (.creditCoin hps' hr')⟩

theorem payoutsAlike_shares (cr : Crypto) (hb : st.BlindTo v) (hb' : st'.BlindTo v) :
    PayoutsAlike (SharesSince st st') cr v where
  positions s s' h := h.ledger.delegationsFor (h.settles.blindTo hb) (h.settles'.blindTo hb')
  compound s s' h delegator reward := by
    have hrel := h.ledger.compoundDelegation (h.settles.blindTo hb) (h.settles'.blindTo hb') cr
      delegator reward
    generalize hx : s.compoundDelegation cr delegator v.pubkey reward = x at hrel ⊢
    generalize hx' : s'.compoundDelegation cr delegator v.pubkey reward = x' at hrel ⊢
    cases hrel with
    | none => exact .none
    | some ht =>
      exact .some ⟨ht, h.settles.trans (.compoundDelegation hx),
        h.settles'.trans (.compoundDelegation hx')⟩
  restake s s' h stake :=
    ⟨h.ledger.onValidators _, h.settles.trans (.setSelfStake s v.pubkey stake),
      h.settles'.trans (.setSelfStake s' v.pubkey stake)⟩
  credit hcoin s s' h := h.creditCoin (hb.coin hcoin) (hb'.coin hcoin)

theorem Shares.distributeEpochRewards (h : Shares st st') (hb : st.BoundaryBlind)
    (hb' : st'.BoundaryBlind) (cfg : Config) (produced : Hash → UInt64) (fees issuance : UInt64) :
    PaidAlike (SharesSince st st') (st.distributeEpochRewards cfg produced fees issuance)
      (st'.distributeEpochRewards cfg produced fees issuance) := by
  refine distributeEpochRewards_alike ⟨h, .refl st, .refl st'⟩ h.validators (fun v hv =>
    payoutsAlike_shares cfg.crypto (hb v hv) (hb' v (h.validators ▸ hv))) ?_ produced fees issuance
  intro s s' hs top remainder
  refine creditRemainder_alike hs (by rw [hs.ledger.validators]) fun v hv hcoin => ?_
  obtain ⟨w, hw, -, hsame⟩ := hs.settles.records v (List.mem_of_find?_eq_some hv)
  exact hs.creditCoin (hsame ▸ (hb w hw).coin (hsame ▸ hcoin))
    (hsame ▸ (hb' w (h.validators ▸ hw)).coin (hsame ▸ hcoin)) remainder

/-! ## Removals -/

theorem Shares.returnDeregisteredStake (h : Shares st st') (hb : st.BoundaryBlind)
    (hb' : st'.BoundaryBlind) (pubkey : Hash) :
    Option.Rel (SharesSince st st') (st.returnDeregisteredStake pubkey)
      (st'.returnDeregisteredStake pubkey) := by
  have hstart : SharesSince st st' st st' := ⟨h, .refl st, .refl st'⟩
  unfold Ledger.returnDeregisteredStake
  rw [h.validators]
  dsimp only
  split
  · exact .some hstart
  · cases hget : st.validators.get pubkey with
    | none => exact .none
    | some info =>
      dsimp only
      split
      · exact .none
      · rename_i hcoin
        have hmem := List.mem_of_find?_eq_some hget
        have hcredit := hstart.creditCoin ((hb info hmem).coin hcoin)
          ((hb' info (h.validators ▸ hmem)).coin hcoin) (releasedSelfStake (some info))
        generalize st.creditCoin info.rewardCoin _ = r at hcredit ⊢
        generalize st'.creditCoin info.rewardCoin _ = r' at hcredit ⊢
        cases hcredit with
        | error => exact .none
        | ok hs => exact .some hs

theorem Shares.removeEach (maxChurn : Nat) (keys : List Hash) (removed : Nat) (h : Shares st st')
    (hb : st.BoundaryBlind) (hb' : st'.BoundaryBlind) :
    Shares (removeEach maxChurn keys removed st) (removeEach maxChurn keys removed st') := by
  induction keys generalizing st st' removed with
  | nil => exact h
  | cons pubkey keys ih =>
    unfold removeEach
    have hbonded : st'.hasBondedDelegations pubkey = st.hasBondedDelegations pubkey := by
      unfold hasBondedDelegations
      rw [h.validators]
    rw [hbonded]
    split
    · exact h
    · split
      · exact ih removed h hb hb'
      · have hrel := h.returnDeregisteredStake hb hb' pubkey
        generalize st.returnDeregisteredStake pubkey = r at hrel ⊢
        generalize st'.returnDeregisteredStake pubkey = r' at hrel ⊢
        cases hrel with
        | none => exact ih removed h hb hb'
        | @some s s' hs =>
          have hkept := hs.settles.trans
            (.remove s pubkey (s.pendingRemovals.filter (· ≠ pubkey)))
          have hkept' := hs.settles'.trans
            (.remove s' pubkey (s'.pendingRemovals.filter (· ≠ pubkey)))
          refine ih (removed + 1) ?_ (hkept.boundaryBlind hb) (hkept'.boundaryBlind hb')
          exact hs.ledger.through (fun s => { s with
            validators := s.validators.remove pubkey
            pendingRemovals := s.pendingRemovals.filter (· ≠ pubkey) }) fun _ _ => rfl

end Ledger

/-- The thermostat does not look at the bodies. -/
theorem Ledger.runThermostat_withObjects (st : Ledger) (objects : ObjectStore)
    (p : ThermostatParams) (rate : UInt64) (distributable : Bool) :
    (st.withObjects objects).runThermostat p rate distributable =
      ((st.runThermostat p rate distributable).1.withObjects objects,
        (st.runThermostat p rate distributable).2) := by
  cases distributable <;> rfl

/-- The same construction with another key of its own. -/
def Config.as (cfg : Config) (self : Hash) : Config := { cfg with self }

namespace Chain

variable {round : UInt64} {s s' : BatchState}

/-! ## Nodes that share their singletons -/

def withObjects (c : Chain) (objects : ObjectStore) : Chain :=
  { c with ledger := c.ledger.withObjects objects }

/-- The nodes agree on everything but the replicated objects they store. -/
structure Shares (c c' : Chain) : Prop where
  rest : c' = c.withObjects c'.ledger.objects
  singles : ∀ id, c'.ledger.single id = c.ledger.single id

namespace Shares

variable {c c' : Chain}

theorem refl (c : Chain) : c.Shares c := ⟨rfl, fun _ => rfl⟩

section

variable (h : c.Shares c')

include h

theorem ledger : c.ledger.Shares c'.ledger where
  rest := by
    conv_lhs => rw [h.rest]
    rfl
  singles := h.singles

theorem withLedger {st st' : Ledger} (hst : st.Shares st') :
    ({ c with ledger := st } : Chain).Shares { c' with ledger := st' } where
  rest := by
    conv_lhs => rw [h.rest, hst.rest]
    rfl
  singles := hst.singles

theorem buckets : c'.buckets = c.buckets := by
  conv_lhs => rw [h.rest]
  rfl

theorem regime : c'.regime = c.regime := by
  conv_lhs => rw [h.rest]
  rfl

theorem lastCommitted : c'.lastCommitted = c.lastCommitted := by
  conv_lhs => rw [h.rest]
  rfl

/-- Whatever does not look at the bodies goes the same way. -/
theorem through (f : Chain → Chain)
    (hf : ∀ d objects, f (withObjects d objects) = (f d).withObjects objects) :
    (f c).Shares (f c') := by
  have hobjects : ∀ d : Chain, (f d).ledger.objects = d.ledger.objects := by
    intro d
    have hsame : f d = (f d).withObjects d.ledger.objects := hf d d.ledger.objects
    rw [hsame]
    rfl
  constructor
  · rw [hobjects]
    conv_lhs => rw [h.rest, hf]
  · intro id
    rw [single_congr (hobjects c') id, single_congr (hobjects c) id]
    exact h.singles id

theorem withAccounts (rate : UInt64) (b : Buckets) :
    ({ c with issuanceRateMicro := rate, buckets := b } : Chain).Shares
      { c' with issuanceRateMicro := rate, buckets := b } :=
  h.through (fun d => { d with issuanceRateMicro := rate, buckets := b }) fun _ _ => rfl

theorem withRegime (r : Regime) (vs : Option ValidatorSet) :
    ({ c with regime := r, rendezvous := vs } : Chain).Shares
      { c' with regime := r, rendezvous := vs } :=
  h.through (fun d => { d with regime := r, rendezvous := vs }) fun _ _ => rfl

end

end Shares

variable {c c' : Chain} {cfg : Config} {self : Hash}

/-! ## Transactions -/

/-- The same node with another ledger and other metadata. -/
def place (c : Chain) (ledger : Ledger) (persisted : Meta) : Chain := { c with ledger, persisted }

theorem refreezes_shares : Refreezes Shares :=
  refreezes_of_regime Shares.regime (fun h => by rw [h.ledger.rest]; rfl)
    (fun h _ _ => by rw [h.ledger.validators])
    fun r h => h.through (fun d => { d with regime := r, regimeDirty := true }) fun _ _ => rfl

/-- The wiring differs in what the node holds. -/
theorem Shares.txNode (h : c.Shares c') (cfg : Config) (self : Hash) (atx : AttestedTransaction) :
    ∃ f, c'.txNode (cfg.as self) atx = { c.txNode cfg atx with isHolder := f } ∧
      ∀ id, f id 0 = true := by
  obtain ⟨hrest, -⟩ := h
  generalize c'.ledger.objects = objects at hrest
  subst hrest
  exact ⟨_, rfl, fun id => by simp [Config.isHolder]⟩

theorem isHolder_zero (cfg : Config) (c : Chain) (atx : AttestedTransaction) (id : Hash) :
    (c.txNode cfg atx).isHolder id 0 = true := by
  simp [Chain.txNode, Config.isHolder]

/-- The transaction is blind to what the node stores besides the singletons. -/
def BlindTx (cfg : Config) (c : Chain) (atx : AttestedTransaction) (round : UInt64)
    (verdict : Option ProofError) : Prop :=
  c.ledger.BlindTx (c.txNode cfg atx) atx round.toNat verdict

theorem Shares.executeTx (h : c.Shares c') {atx : AttestedTransaction} {verdict : Option ProofError}
    (hb : c.BlindTx cfg atx round verdict) (hb' : c'.BlindTx (cfg.as self) atx round verdict) :
    (c.executeTx cfg atx round verdict).1.Shares (c'.executeTx (cfg.as self) atx round verdict).1 ∧
      (c'.executeTx (cfg.as self) atx round verdict).2 = (c.executeTx cfg atx round verdict).2 := by
  obtain ⟨f, hnode, hall'⟩ := h.txNode cfg self atx
  have hall := isHolder_zero cfg c atx
  unfold BlindTx at hb hb'
  rw [hnode] at hb'
  have hblind' := hb'.holder
  obtain ⟨hsplit, hledger⟩ := h.ledger.executeTx hall hall' round.toNat verdict hb hblind'
  have hbond := h.ledger.bondApplied f round.toNat verdict hb hblind'
  have hsender := h.ledger.admitsSender hledger atx
  have hstep := h.withLedger hledger
  constructor
  · exact refreezes_shares.executeTx cfg (cfg.as self) (fun _ => rfl) rfl (by rw [hnode])
      (by rw [hnode]; exact hbond) hsender (fun _ => hstep)
      (hstep.through (fun d => { d with regimeDirty := true }) fun _ _ => rfl)
  · unfold Chain.executeTx
    rw [hnode]
    exact hsplit

/-! ## Batches -/

/-- The node after each transaction of a list. -/
def txStates (cfg : Config) (round : UInt64) :
    Chain → ProofVerdicts → List AttestedTransaction → List Chain
  | _, _, [] => []
  | c, p, atx :: rest =>
    let c := (c.executeTx cfg atx round (p.proofVerdict atx).1).1
    c :: txStates cfg round c (p.proofVerdict atx).2 rest

/-- Every transaction finds the node blind. -/
def BlindTxs (cfg : Config) (round : UInt64) :
    Chain → ProofVerdicts → List AttestedTransaction → Prop
  | _, _, [] => True
  | c, p, atx :: rest =>
    c.BlindTx cfg atx round (p.proofVerdict atx).1 ∧
      BlindTxs cfg round (c.executeTx cfg atx round (p.proofVerdict atx).1).1
        (p.proofVerdict atx).2 rest

theorem Shares.processTransactions (h : c.Shares c') {p : ProofVerdicts}
    {atxs : List AttestedTransaction} (hb : BlindTxs cfg round c p atxs)
    (hb' : BlindTxs (cfg.as self) round c' p atxs) :
    (c.processTransactions cfg round p atxs).1.Shares
        (c'.processTransactions (cfg.as self) round p atxs).1 ∧
      (c'.processTransactions (cfg.as self) round p atxs).2 =
        (c.processTransactions cfg round p atxs).2 ∧
      List.Forall₂ Shares (txStates cfg round c p atxs)
        (txStates (cfg.as self) round c' p atxs) := by
  induction atxs generalizing c c' p with
  | nil => exact ⟨h, rfl, .nil⟩
  | cons atx atxs ih =>
    obtain ⟨hone, hsplit⟩ := h.executeTx hb.1 hb'.1
    obtain ⟨hall, hresult, hstates⟩ := ih hone hb.2 hb'.2
    refine ⟨hall, ?_, .cons hone hstates⟩
    rw [processTransactions_cons, processTransactions_cons]
    dsimp only
    rw [hsplit, hresult]

/-- The node after each transaction of a batch. -/
def batchStates (cfg : Config) (round : UInt64) : BatchState → List BatchVertex → List Chain
  | _, [] => []
  | s, v :: rest =>
    txStates cfg round (creditVertex cfg s v) s.verdicts v.transactions ++
      batchStates cfg round (applyVertex cfg round s v) rest

def BlindBatch (cfg : Config) (round : UInt64) : BatchState → List BatchVertex → Prop
  | _, [] => True
  | s, v :: rest =>
    BlindTxs cfg round (creditVertex cfg s v) s.verdicts v.transactions ∧
      BlindBatch cfg round (applyVertex cfg round s v) rest

theorem creditVertex_shares (h : s.Beside Shares s') (v : BatchVertex) :
    (creditVertex cfg s v).Shares (creditVertex (cfg.as self) s' v) :=
  h.creditVertex cfg v fun epoch => h.chain.through (fun d => { d with
    buckets := d.buckets.creditRound epoch v.producer }) fun _ _ => rfl

theorem Shares.flagVertex (h : c.Shares c') (v : BatchVertex) (fees : UInt64) :
    (c.flagVertex cfg v fees).Shares (c'.flagVertex (cfg.as self) v fees) := by
  refine h.through (·.flagVertex cfg v fees) fun d objects => ?_
  dsimp only [withObjects, Chain.flagVertex, recordProducedMember]
  split <;> rfl

theorem applyVertex_shares (h : s.Beside Shares s') {v : BatchVertex}
    (hb : BlindTxs cfg round (creditVertex cfg s v) s.verdicts v.transactions)
    (hb' : BlindTxs (cfg.as self) round (creditVertex (cfg.as self) s' v) s'.verdicts
      v.transactions) :
    (applyVertex cfg round s v).Beside Shares (applyVertex (cfg.as self) round s' v) ∧
      List.Forall₂ Shares (txStates cfg round (creditVertex cfg s v) s.verdicts v.transactions)
        (txStates (cfg.as self) round (creditVertex (cfg.as self) s' v) s'.verdicts
          v.transactions) := by
  rw [applyVertex_eq, applyVertex_eq]
  rw [h.verdicts] at hb' ⊢
  obtain ⟨hrun, hresult, hstates⟩ := (creditVertex_shares h v).processTransactions hb hb'
  exact ⟨h.flagged hresult (hrun.flagVertex v _), hstates⟩

theorem foldl_shares (h : s.Beside Shares s') {batch : List BatchVertex}
    (hb : BlindBatch cfg round s batch) (hb' : BlindBatch (cfg.as self) round s' batch) :
    (batch.foldl (applyVertex cfg round) s).Beside Shares
        (batch.foldl (applyVertex (cfg.as self) round) s') ∧
      List.Forall₂ Shares (batchStates cfg round s batch)
        (batchStates (cfg.as self) round s' batch) := by
  induction batch generalizing s s' with
  | nil => exact ⟨h, .nil⟩
  | cons v batch ih =>
    obtain ⟨hone, hstates⟩ := applyVertex_shares h hb.1 hb'.1
    obtain ⟨hall, hrest⟩ := ih hone hb.2 hb'.2
    exact ⟨hall, List.rel_append hstates hrest⟩

/-- Where a batch starts: its proofs are verified against the node as it is. -/
def startBatch (cfg : Config) (c : Chain) (round : UInt64) (batch : List BatchVertex) :
    BatchState :=
  { chain := c
    verdicts := verifyRoundProofs (c.node cfg) round.toNat (batch.flatMap (·.transactions)) }

theorem applyBatch_eq (cfg : Config) (c : Chain) (round : UInt64) (batch : List BatchVertex) :
    c.applyBatch cfg round batch =
      (batch.foldl (applyVertex cfg round) (c.startBatch cfg round batch)).chain := rfl

theorem Shares.startBatch (h : c.Shares c') (cfg : Config) (self : Hash) (round : UInt64)
    (batch : List BatchVertex) :
    (c.startBatch cfg round batch).Beside Shares (c'.startBatch (cfg.as self) round batch) where
  chain := h
  verdicts := by
    obtain ⟨hrest, -⟩ := h
    generalize c'.ledger.objects = objects at hrest
    subst hrest
    rfl
  credited := rfl

/-! ## The boundary -/

theorem Shares.mintDeferred (h : c.Shares c') (cfg : Config) :
    c'.mintDeferred cfg =
      ((c.mintDeferred cfg).1.withObjects c'.ledger.objects, (c.mintDeferred cfg).2) := by
  conv_lhs => rw [h.rest]
  generalize c'.ledger.objects = objects
  unfold Chain.mintDeferred
  by_cases hepoch : c.regime.currentEpoch = 0
  · rw [if_pos hepoch, if_pos (show (c.withObjects objects).regime.currentEpoch = 0 from hepoch)]
    rfl
  · rw [if_neg hepoch, if_neg (show ¬ (c.withObjects objects).regime.currentEpoch = 0 from hepoch)]
    exact runThermostat_withObjects ..

theorem mintDeferred_settles (cfg : Config) (c : Chain) :
    c.ledger.Settles (c.mintDeferred cfg).1 := by
  obtain ⟨supply, heq⟩ := mintDeferred_ledger cfg c
  rw [heq]
  exact .of_eq rfl rfl

theorem distributeEpochRewards_as (st : Ledger) (cfg : Config) (self : Hash)
    (produced : Hash → UInt64) (fees issuance : UInt64) :
    st.distributeEpochRewards (cfg.as self) produced fees issuance =
      st.distributeEpochRewards cfg produced fees issuance := by
  have hshare : ∀ (st : Ledger) v reward,
      st.creditShare (cfg.as self) v reward = st.creditShare cfg v reward := fun _ _ _ => rfl
  unfold distributeEpochRewards
  simp only [hshare]

theorem settleDeferredEpoch_as (c : Chain) (cfg : Config) (self : Hash) :
    c.settleDeferredEpoch (cfg.as self) = c.settleDeferredEpoch cfg := by
  have hmint : c.mintDeferred (cfg.as self) = c.mintDeferred cfg := rfl
  unfold Chain.settleDeferredEpoch
  simp only [hmint, distributeEpochRewards_as]

theorem Shares.settleDeferredEpoch (h : c.Shares c') (cfg : Config) (self : Hash)
    (hb : c.ledger.BoundaryBlind) (hb' : c'.ledger.BoundaryBlind) :
    (c.settleDeferredEpoch cfg).Shares (c'.settleDeferredEpoch (cfg.as self)) ∧
      (c.settleDeferredEpoch cfg).ledger.BoundaryBlind ∧
      (c'.settleDeferredEpoch (cfg.as self)).ledger.BoundaryBlind := by
  rw [settleDeferredEpoch_as]
  by_cases hepoch : c.regime.currentEpoch = 0
  · unfold Chain.settleDeferredEpoch
    rw [h.regime, if_pos hepoch, if_pos hepoch]
    exact ⟨h, hb, hb'⟩
  · have hquiet := (mintDeferred_settles cfg c).boundaryBlind hb
    have hquiet' := (mintDeferred_settles cfg c').boundaryBlind hb'
    obtain ⟨supply, hsupply⟩ := mintDeferred_ledger cfg c
    have hledger : (c.mintDeferred cfg).1.Shares (c'.mintDeferred cfg).1 := by
      rw [h.mintDeferred cfg]
      exact ⟨rfl, fun id => (h.singles id).trans (by rw [hsupply]; rfl)⟩
    exact settleDeferredEpoch_rel (T := fun d d' : Chain => d.Shares d' ∧ d.ledger.BoundaryBlind ∧
        d'.ledger.BoundaryBlind) hepoch (by rw [h.regime]) h.buckets (by rw [h.mintDeferred cfg])
      (hledger.distributeEpochRewards hquiet hquiet' cfg) fun st st' rate buckets hst =>
        ⟨(h.withLedger hst.ledger).withAccounts rate buckets, hst.settles.boundaryBlind hquiet,
          hst.settles'.boundaryBlind hquiet'⟩

theorem transitionEpoch_as (c : Chain) (cfg : Config) (self : Hash) :
    c.transitionEpoch (cfg.as self) = c.transitionEpoch cfg := by
  unfold Chain.transitionEpoch
  rw [settleDeferredEpoch_as]
  rfl

theorem Shares.transitionEpoch (h : c.Shares c') (cfg : Config) (self : Hash)
    (hb : c.ledger.BoundaryBlind) (hb' : c'.ledger.BoundaryBlind) :
    (c.transitionEpoch cfg).Shares (c'.transitionEpoch (cfg.as self)) := by
  obtain ⟨hs, hbs, hbs'⟩ := h.settleDeferredEpoch cfg self hb hb'
  rw [settleDeferredEpoch_as] at hs hbs'
  rw [transitionEpoch_as]
  have hledger : (c.boundaryLedger cfg).Shares (c'.boundaryLedger cfg) := by
    unfold boundaryLedger applyPendingRemovals
    have hpending : (c'.settleDeferredEpoch cfg).ledger.pendingRemovals =
        (c.settleDeferredEpoch cfg).ledger.pendingRemovals := by
      rw [hs.ledger.rest]
      rfl
    rw [hpending, h.regime]
    exact (hs.ledger.removeEach _ _ 0 hbs hbs').through (fun st =>
      st.sweepExpiredDomains cfg.feeParams.graceEpochs (c.regime.currentEpoch + 1)) fun _ _ => rfl
  have hsnapshot : (c'.boundaryLedger cfg).snapshotEpochHolders cfg.maxChurnPerEpoch =
      (c.boundaryLedger cfg).snapshotEpochHolders cfg.maxChurnPerEpoch := by
    rw [hledger.rest]
    rfl
  rw [transitionEpoch_eq, transitionEpoch_eq, h.regime, hsnapshot, hledger.validators]
  have hcleared := hledger.through (fun st => { st with epochAdditions := [] }) fun _ _ => rfl
  exact (hs.withLedger hcleared).withRegime _ _

/-! ## Rounds and runs -/

/-- The node after each transaction of a round, and after the round with its transition. -/
def roundStates (cfg : Config) (c : Chain) (batch : List BatchVertex) : List Chain :=
  batchStates cfg c.lastCommitted (c.startBatch cfg c.lastCommitted batch) batch ++
    [c.decideRound cfg batch]

def BlindRound (cfg : Config) (c : Chain) (batch : List BatchVertex) : Prop :=
  BlindBatch cfg c.lastCommitted (c.startBatch cfg c.lastCommitted batch) batch ∧
    (cfg.isEpochBoundary c.lastCommitted →
      (c.applyBatch cfg c.lastCommitted batch).ledger.BoundaryBlind)

theorem Shares.advanceCommitCursor (h : c.Shares c') (cfg : Config) (self : Hash) (round : UInt64)
    (hb : cfg.isEpochBoundary round → c.ledger.BoundaryBlind)
    (hb' : cfg.isEpochBoundary round → c'.ledger.BoundaryBlind) :
    (c.advanceCommitCursor cfg round).Shares (c'.advanceCommitCursor (cfg.as self) round) := by
  have hmoved : ({ c with lastCommitted := round + 1 } : Chain).Shares
      { c' with lastCommitted := round + 1 } :=
    h.through (fun d => { d with lastCommitted := round + 1 }) fun _ _ => rfl
  have hlive : ({ c' with lastCommitted := round + 1 } : Chain).liveValidatorsKV =
      ({ c with lastCommitted := round + 1 } : Chain).liveValidatorsKV := by
    unfold liveValidatorsKV
    rw [hmoved.ledger.validators]
  have hwrite : ∀ {d d' : Chain} (live : MetaKey × Bytes), d.Shares d' →
      (d.writeEpochState live).Shares (d'.writeEpochState live) :=
    fun live hd => hd.through (·.writeEpochState live) fun _ _ => rfl
  have hdirty : (c'.regimeDirty || c'.producedDirty) = (c.regimeDirty || c.producedDirty) := by
    conv_lhs => rw [h.rest]
    rfl
  unfold Chain.advanceCommitCursor
  change Shares _ (if cfg.isEpochBoundary round then _ else _)
  dsimp only
  rw [hlive, hdirty]
  split
  · rename_i hround
    exact hwrite _ (hmoved.transitionEpoch cfg self (hb hround) (hb' hround))
  · split
    · exact hwrite _ hmoved
    · exact hmoved.through (·.writeAccumulators _) fun _ _ => rfl

theorem Shares.decideRound (h : c.Shares c') {batch : List BatchVertex}
    (hb : c.BlindRound cfg batch) (hb' : c'.BlindRound (cfg.as self) batch) :
    (c.decideRound cfg batch).Shares (c'.decideRound (cfg.as self) batch) ∧
      List.Forall₂ Shares (c.roundStates cfg batch) (c'.roundStates (cfg.as self) batch) := by
  obtain ⟨hbatch, hboundary⟩ := hb
  obtain ⟨hbatch', hboundary'⟩ := hb'
  have hcursor := h.lastCommitted
  unfold roundStates Chain.decideRound at *
  rw [hcursor] at hbatch' hboundary' ⊢
  obtain ⟨hall, hstates⟩ :=
    foldl_shares (h.startBatch cfg self c.lastCommitted batch) hbatch hbatch'
  have happlied : (c.applyBatch cfg c.lastCommitted batch).Shares
      (c'.applyBatch (cfg.as self) c.lastCommitted batch) := by
    rw [applyBatch_eq, applyBatch_eq]
    exact hall.chain
  have hround := happlied.advanceCommitCursor cfg self c.lastCommitted hboundary hboundary'
  exact ⟨hround, List.rel_append hstates (.cons hround .nil)⟩

/-- The node after each transaction and each round of a log. -/
def runStates (cfg : Config) : Chain → List (List BatchVertex) → List Chain
  | _, [] => []
  | c, batch :: log => c.roundStates cfg batch ++ runStates cfg (c.decideRound cfg batch) log

/-- No round of the log depends on the replicated objects the node stores. -/
def BlindRun (cfg : Config) : Chain → List (List BatchVertex) → Prop
  | _, [] => True
  | c, batch :: log => c.BlindRound cfg batch ∧ BlindRun cfg (c.decideRound cfg batch) log

/-- Nodes that agree on everything but the replicated objects they hold and store do so
after every transaction and every round of every log that finds both of them blind. -/
theorem global_state_independent_of_holdings (cfg : Config) (self : Hash) (c c' : Chain)
    (log : List (List BatchVertex)) (h : c.Shares c') (hb : BlindRun cfg c log)
    (hb' : BlindRun (cfg.as self) c' log) :
    List.Forall₂ Shares (runStates cfg c log) (runStates (cfg.as self) c' log) := by
  induction log generalizing c c' with
  | nil => exact .nil
  | cons batch log ih =>
    obtain ⟨hround, hstates⟩ := h.decideRound hb.1 hb'.1
    exact List.rel_append hstates (ih _ _ hround hb.2 hb'.2)

/-- An object of the founder with a balance, of replication one. -/
def heldCoin : Object := { coinObject (idOf 13) (idOf 1) 0 with replication := 1 }

/-- The founded network with that object tracked, on a node that does not store it. -/
def bystander : Chain :=
  let c := ({} : Disk).start foundedConfig
  { c with ledger := { c.ledger with
      tracker := c.ledger.tracker.trackObject (idOf 13) 0 1 0 keyRootKind (idOf 1) } }

/-- The same on its holder. -/
def holder : Chain := { bystander with ledger := bystander.ledger.setObject heldCoin }

theorem holder_shares : holder.Shares bystander where
  rest := rfl
  singles id := by
    have hset : bystander.ledger.Shares holder.ledger :=
      .setReplicated _ (by decide) (by decide +kernel)
    exact (hset.singles id).symm

/-- The founder calls a pod on the replicated object, with its holder's proof. The call
creates nothing, so that it is left to the holders. -/
def heldCall : AttestedTransaction where
  transaction := some (signedTx
    { sender := (idOf 1).val
      pod := (idOf 7).val
      functionName := ascii "touch"
      gasCoin := (idOf 11).val
      maxGas := 100
      mutableRefs := [{ id := (idOf 13).val }] })
  objects := [heldCoin]
  proofs := [soloProof heldCoin]

/-- A call of another pod than the system's moves no stake: a node is blind to it that sees
the owners alike and has nothing where it creates or, left to the holders, writes. -/
theorem blindTx_of_other_pod {c : Chain} {atx : AttestedTransaction} {tx : Transaction}
    {verdict : Option ProofError} (htx : atx.transaction = some tx)
    (hpod : ¬ (tx.pod == cfg.systemPod.val) = true) (howners : c.ledger.OwnersPlain tx atx)
    (hfresh : c.ledger.Fresh (c.txNode cfg atx) tx atx)
    (hsharded : Sharded tx atx → c.ledger.ShardBlind (c.txNode cfg atx) tx atx) :
    c.BlindTx cfg atx round verdict := by
  intro tx' hin
  obtain rfl := Option.some.inj (hin.transaction.symm.trans htx)
  have hother : ∀ fn, ¬ (c.txNode cfg atx).isSystemFunc tx' fn = true :=
    fun fn hfn => hpod (Bool.and_eq_true_iff.1 hfn).1
  exact {
    owners := howners
    stake := {
      unbond := fun _ _ _ hparse => absurd (parseStakeTx_some hparse).1 (hother _)
      undelegate := fun _ _ _ _ hparse =>
        absurd (parseDelegateTx_some hparse).1 (hother _) }
    fresh := hfresh
    unwritten := fun i _ => by
      rintro ⟨_, _, _, _, hparse, -⟩
      exact hother _ (parseDelegateTx_some hparse).1
    sharded := hsharded }

theorem heldCall_blind {c : Chain} {verdict : Option ProofError} (self : Hash)
    (hvacant : c.ledger.single (idOf 13) = none) :
    c.BlindTx (foundedConfig.as self) heldCall round verdict := by
  have hrefs : ∀ id ∈ (heldCall.transaction.get rfl).mutableRefIDs, id = idOf 13 := by
    decide +kernel
  have hpod : ¬ ((heldCall.transaction.get rfl).pod == (idOf 200).val) = true := by decide +kernel
  refine blindTx_of_other_pod rfl hpod (fun id hid hnone => ?_) ?_ fun _ => ?_
  · rw [hrefs id hid] at hnone
    exact absurd hnone (by decide +kernel)
  · constructor <;> exact fun i hi => absurd hi (Nat.not_lt_zero i)
  · refine ⟨fun id hid => ?_, fun id hid => ?_, fun out hout o ho => ?_⟩
    · rw [hrefs id hid]
      exact hvacant
    · cases hid
    · cases hout
      cases ho

/-- A call on the replicated object finds the holder and the bystander blind. Only the holder
runs it and has a body to move to the next version, and the tracker moves on both. -/
theorem global_state_independent_of_holdings_founder :
    let log := [founderRound (idOf 20) 0 [heldCall]]
    let after := holder.run foundedConfig log
    let after' := bystander.run (foundedConfig.as (idOf 2)) log
    List.Forall₂ Shares (runStates foundedConfig holder log)
        (runStates (foundedConfig.as (idOf 2)) bystander log) ∧
      (after.ledger.getObject (idOf 13)).map (·.version) = some 1 ∧
      after'.ledger.getObject (idOf 13) = none ∧
      (after.ledger.tracker.lookup (idOf 13)).map (·.version) = some 1 ∧
      (after'.ledger.tracker.lookup (idOf 13)).map (·.version) = some 1 := by
  intro log after after'
  have hround : ∀ {c : Chain} (self : Hash), c.lastCommitted = 0 →
      c.ledger.single (idOf 13) = none → BlindRun (foundedConfig.as self) c log := by
    intro c self hstart hvacant
    refine ⟨⟨⟨⟨?_, trivial⟩, trivial⟩, ?_⟩, trivial⟩
    · exact heldCall_blind self hvacant
    · rw [hstart]
      exact fun hboundary =>
        absurd hboundary (show ¬ foundedConfig.isEpochBoundary 0 = true by decide)
  refine ⟨?_, by decide +kernel⟩
  exact global_state_independent_of_holdings foundedConfig (idOf 2) holder bystander log
    holder_shares (hround (idOf 1) rfl (by decide +kernel))
    (hround (idOf 2) rfl (by decide +kernel))

/-- The founder unbonds into the replicated object, with its holder's proof. -/
def heldUnbond : AttestedTransaction where
  transaction := some (signedTx
    { sender := (idOf 1).val
      pod := (idOf 200).val
      functionName := unbondFunc
      args := putUint64LE 400
      gasCoin := (idOf 11).val
      maxGas := 100
      mutableRefs := [{ id := (idOf 13).val }] })
  objects := [heldCoin]
  proofs := [soloProof heldCoin]

/-- The holder credits its copy and lowers the stake; the bystander finds no coin and leaves
the stake as it was. -/
theorem unbond_into_held_coin :
    let log := [founderRound (idOf 20) 0 [heldUnbond]]
    let stake (c : Chain) := (c.ledger.validators.get (idOf 1)).map (·.selfStake)
    holder.Shares bystander ∧
      foundedConfig.isHolder holder.sharding (idOf 13) 1 = true ∧
      (foundedConfig.as (idOf 2)).isHolder bystander.sharding (idOf 13) 1 = false ∧
      stake (holder.run foundedConfig log) = some 600 ∧
      stake (bystander.run (foundedConfig.as (idOf 2)) log) = some 1000 := by
  refine ⟨holder_shares, ?_⟩
  decide +kernel

end Chain

end BluePods
