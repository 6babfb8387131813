import BluePods.Shards

/-! Two nodes that hold different replicated objects. Every node stores every singleton;
which of the replicated objects it stores depends on the shards it holds. Where a
transaction or a boundary reads a local body, it has to be a singleton's for the nodes to
go the same way; the conditions here say where that is. -/

namespace BluePods

open ObjectStore

/-! ## Singletons -/

/-- The object under an identifier if it is a singleton. -/
def ObjectStore.single (s : ObjectStore) (id : Hash) : Option Object :=
  (s.get id).filter (·.replication = 0)

namespace Ledger

variable {st : Ledger} {id coin : Hash} {o : Object} {nd : Node} {tx : Transaction}
  {new : Hash → Prop} {atx : AttestedTransaction}

def single (st : Ledger) (id : Hash) : Option Object := st.objects.single id

/-- No replicated object is stored under the identifier. -/
def Plain (st : Ledger) (id : Hash) : Prop :=
  ∀ o, st.getObject id = some o → o.replication = 0

/-- The ledger over another store. -/
def withObjects (st : Ledger) (objects : ObjectStore) : Ledger := { st with objects }

/-- The ledgers agree on everything but the replicated objects they store. -/
structure Shares (st st' : Ledger) : Prop where
  rest : st' = st.withObjects st'.objects
  singles : ∀ id, st'.single id = st.single id

theorem single_eq_of_plain (h : st.Plain id) : st.single id = st.getObject id := by
  unfold single ObjectStore.single
  cases ho : st.objects.get id with
  | none => rw [getObject, ho]; rfl
  | some o =>
    have hrep : o.replication = 0 := h o ho
    simp [getObject, ho, Option.filter, hrep]

theorem single_eq_some : st.single id = some o ↔ st.getObject id = some o ∧ o.replication = 0 := by
  unfold single ObjectStore.single getObject
  rw [Option.filter_eq_some_iff]
  simp

theorem single_eq_none :
    st.single id = none ↔ ∀ o, st.getObject id = some o → o.replication ≠ 0 := by
  unfold single ObjectStore.single getObject
  rw [Option.filter_eq_none_iff]
  simp

theorem single_setObject (st : Ledger) (o : Object) (id : Hash) :
    (st.setObject o).single id =
      if id = o.objectID then (if o.replication = 0 then some o else none) else st.single id := by
  unfold single ObjectStore.single setObject
  rw [get_set]
  by_cases hid : id = o.objectID
  · by_cases hrep : o.replication = 0 <;> simp [hid, hrep, Option.filter]
  · simp [hid]

theorem single_deleteObject (st : Ledger) (id id' : Hash) :
    (st.deleteObject id).single id' = if id' = id then none else st.single id' := by
  unfold single ObjectStore.single deleteObject
  rw [get_delete]
  by_cases hid : id' = id <;> simp [hid]

theorem single_congr {st' : Ledger} (h : st'.objects = st.objects) (id : Hash) :
    st'.single id = st.single id := by
  rw [single, single, h]

variable {st st' : Ledger}

/-! ## What is stored under which identifier -/

/-- The position a delegation paid from a stored singleton is written under. -/
def WritesPosition (st : Ledger) (nd : Node) (tx : Transaction) (id : Hash) : Prop :=
  ∃ delegator coin validator amount,
    parseDelegateTx nd tx delegateFunc true = some (delegator, coin, validator, amount) ∧
      st.single coin ≠ none ∧ delegationID nd.crypto delegator validator = id

/-- Every stored object was stored before with its replication, or is a new singleton. -/
def Keeps (new : Hash → Prop) (st st' : Ledger) : Prop :=
  ∀ id o', st'.getObject id = some o' →
    (∃ o, st.getObject id = some o ∧ o'.replication = o.replication) ∨
      new id ∧ o'.replication = 0

namespace Keeps

variable {new : Hash → Prop}

theorem plain (h : Keeps new st st') (hp : st.Plain id) : st'.Plain id := by
  intro o' ho'
  rcases h id o' ho' with ⟨o, ho, hrep⟩ | ⟨-, hrep⟩
  · rw [hrep]
    exact hp o ho
  · exact hrep

theorem vacant (h : Keeps new st st') (hnew : ¬ new id) (hv : st.single id = none) :
    st'.single id = none := by
  rw [single_eq_none] at hv ⊢
  intro o' ho'
  rcases h id o' ho' with ⟨o, ho, hrep⟩ | ⟨hid, -⟩
  · rw [hrep]
    exact hv o ho
  · exact absurd hid hnew

theorem of_objects (h : st'.objects = st.objects) : Keeps new st st' := by
  intro id o' ho'
  rw [getObject, h] at ho'
  exact .inl ⟨o', ho', rfl⟩

theorem trans {st₁ st₂ st₃ : Ledger} (h : Keeps new st₁ st₂) (h' : Keeps new st₂ st₃) :
    Keeps new st₁ st₃ := by
  intro id o₃ ho₃
  rcases h' id o₃ ho₃ with ⟨o₂, ho₂, hrep⟩ | hnew
  · rw [hrep]
    exact h id o₂ ho₂
  · exact .inr hnew

theorem mono {new' : Hash → Prop} (h : Keeps new st st') (himp : ∀ id, new id → new' id) :
    Keeps new' st st' := by
  intro id o' ho'
  exact (h id o' ho').imp_right fun hnew => ⟨himp id hnew.1, hnew.2⟩

theorem setObject
    (h : (∃ o₀, st.getObject o.objectID = some o₀ ∧ o.replication = o₀.replication) ∨
      new o.objectID ∧ o.replication = 0) : Keeps new st (st.setObject o) := by
  intro id o' ho'
  simp only [getObject, Ledger.setObject, get_set] at ho'
  split_ifs at ho' with hid
  · rw [← Option.some.inj ho', hid]
    exact h
  · exact .inl ⟨o', ho', rfl⟩

theorem setBalance (ho : st.getObject coin = some o) (b : UInt64) :
    Keeps new st (st.setObject (o.withBalance b)) := by
  refine setObject (.inl ⟨o, ?_, rfl⟩)
  rw [Object.objectID_withBalance, objectID_of_get ho]
  exact ho

theorem deleteObject (st : Ledger) (id : Hash) : Keeps new st (st.deleteObject id) := by
  intro id' o ho
  simp only [getObject, Ledger.deleteObject, get_delete] at ho
  split_ifs at ho with hid
  exact .inl ⟨o, ho, rfl⟩

theorem strictDebit {amount : UInt64} (h : st.strictDebit coin amount = some st') :
    Keeps new st st' := by
  obtain ⟨o, balance, ho, -, -, -, rfl⟩ := strictDebit_some h
  exact (setBalance ho _).trans (of_objects (subCoins_objects ..))

theorem creditCoin {amount : UInt64} (h : st.creditCoin coin amount = .ok st') :
    Keeps new st st' := by
  rcases creditCoin_ok h with ⟨-, rfl⟩ | ⟨o, balance, ho, -, -, rfl⟩
  · exact of_objects rfl
  · exact (setBalance ho _).trans (of_objects (addCoins_objects ..))

theorem handleStake (st : Ledger) (nd : Node) (tx : Transaction) :
    Keeps (st.WritesPosition nd tx) st (st.handleStake nd tx) := by
  refine handleStake_rule (of_objects rfl) (fun _ _ _ _ => strictDebit) (fun _ _ _ _ => creditCoin)
    (fun delegator coin validator amount s hparse hd h => h.trans (setObject (.inr ⟨?_, rfl⟩)))
    (fun s id h => h.trans (deleteObject s id)) fun _ _ _ _ h => h.trans (of_objects rfl)
  obtain ⟨o, _, ho, hrep, -⟩ := strictDebit_some hd
  have hsingle : st.single coin ≠ none := by
    rw [single_eq_some.2 ⟨ho, hrep⟩]
    simp
  exact ⟨delegator, coin, validator, amount, hparse, hsingle,
    (objectID_buildDelegationObject ..).symm⟩

theorem of_sameBodies (h : SameBodies tx st st') : Keeps new st st' := by
  intro id o' ho'
  rcases h id with hsame | ⟨-, o, b, ho, hb⟩
  · exact .inl ⟨o', hsame ▸ ho', rfl⟩
  · rw [hb] at ho'
    obtain rfl := Option.some.inj ho'
    exact .inl ⟨o, ho, rfl⟩

theorem deductFees (st : Ledger) (nd : Node) (tx : Transaction) (atx : AttestedTransaction) :
    Keeps new st (st.deductFees nd tx atx).ledger :=
  of_sameBodies (.deductFees st nd tx atx)

theorem settleDeletion (st : Ledger) (p : FeeParams) (id : Hash) (tx : Transaction) :
    Keeps new st (st.settleDeletion p id tx.txGasCoinID).1 :=
  of_sameBodies (.settleDeletion st p id tx)

theorem applyDeclaredOp (st : Ledger) (p : FeeParams) (tx : Transaction) (sender : Hash)
    (epoch : UInt64) (op : DeclaredOp) :
    Keeps new st (Ledger.applyDeclaredOp p tx sender epoch st op) := by
  unfold Ledger.applyDeclaredOp
  split_ifs
  · unfold applyReparent
    simp only
    split
    · exact of_objects rfl
    · rename_i o ho
      refine (@of_objects st _ _ rfl).trans (setObject (.inl ⟨o, ?_, rfl⟩))
      rw [Object.objectID_withOwner, objectID_of_get ho]
      exact ho
  · exact (settleDeletion st p _ tx).trans (deleteObject _ _)
  · rw [applyDomainOp_eq]
    exact of_objects rfl

end Keeps

theorem WritesPosition.congr (hobjects : st'.objects = st.objects)
    (h : st'.WritesPosition nd tx id) : st.WritesPosition nd tx id := by
  obtain ⟨delegator, coin, validator, amount, hparse, hsingle, hid⟩ := h
  rw [single_congr hobjects] at hsingle
  exact ⟨delegator, coin, validator, amount, hparse, hsingle, hid⟩

theorem Keeps.staked (st : Ledger) (nd : Node) (tx : Transaction) :
    Keeps (st.WritesPosition nd tx) st (st.staked nd tx) := by
  have hobjects := st.handleDeregisterValidator_objects nd tx
  exact (of_objects hobjects).trans ((handleStake _ nd tx).mono fun _ => .congr hobjects)

theorem Keeps.settleHandlers {split : FeeSplit} (h : st.settleHandlers nd tx atx split = .ok st') :
    Keeps (st.WritesPosition nd tx) st st' := by
  unfold Ledger.settleHandlers at h
  split at h
  · cases h
  · cases hr : st.handleRegisterValidator nd tx with
    | error e => cases e <;> simp [hr] at h
    | ok s =>
      rw [hr] at h
      dsimp only at h
      split at h
      · cases h
      · rw [← Except.ok.inj h]
        have hobjects := (handleRegisterValidator_ok hr).1
        exact (of_objects hobjects).trans
          (((Keeps.staked s nd tx).mono fun _ => .congr hobjects).trans
            (of_sameBodies (.settleDeletions _ _ _ _)))

/-- The coin that takes stake back, and the position given up for it, are no replicated
objects of this node. -/
structure StakeBlind (st : Ledger) (nd : Node) (tx : Transaction) : Prop where
  unbond : ∀ sender coin amount,
    parseStakeTx nd tx unbondFunc = some (sender, coin, amount) → st.Plain coin
  undelegate : ∀ delegator coin validator amount,
    parseDelegateTx nd tx undelegateFunc false = some (delegator, coin, validator, amount) →
      st.Plain coin ∧ st.Plain (delegationID nd.crypto delegator validator)

theorem StakeBlind.keep (h : st.StakeBlind nd tx) (hk : Keeps new st st') :
    st'.StakeBlind nd tx where
  unbond sender coin amount hparse := hk.plain (h.unbond sender coin amount hparse)
  undelegate delegator coin validator amount hparse :=
    (h.undelegate delegator coin validator amount hparse).imp hk.plain hk.plain

/-- A mutable reference the wrapper shows no owner for is no replicated object of this
node. -/
def OwnersPlain (st : Ledger) (tx : Transaction) (atx : AttestedTransaction) : Prop :=
  ∀ id ∈ tx.mutableRefIDs, attestedReplicatedOwner atx id = none → st.Plain id

theorem OwnersPlain.keep (h : st.OwnersPlain tx atx) (hk : Keeps new st st') :
    st'.OwnersPlain tx atx :=
  fun id hid hnone => hk.plain (h id hid hnone)

/-- What the commit path reads of local bodies before the pod call is no replicated
object. -/
structure SettleBlind (st : Ledger) (nd : Node) (tx : Transaction) (atx : AttestedTransaction) :
    Prop where
  owners : st.OwnersPlain tx atx
  stake : st.StakeBlind nd tx
  gas : ∀ coin, tx.txGasCoinID = some coin → st.Plain coin

theorem SettleBlind.keep (h : st.SettleBlind nd tx atx) (hk : Keeps new st st') :
    st'.SettleBlind nd tx atx where
  owners := h.owners.keep hk
  stake := h.stake.keep hk
  gas coin hcoin := hk.plain (h.gas coin hcoin)

/-! ## Ledgers that share their singletons -/

/-- The same fees, and ledgers that share their singletons. -/
def OutcomeShares (out out' : Outcome) : Prop :=
  out'.split = out.split ∧ Shares out.ledger out'.ledger

namespace Shares

theorem refl (st : Ledger) : Shares st st := ⟨rfl, fun _ => rfl⟩

theorem setReplicated (st : Ledger) (hrep : o.replication ≠ 0)
    (hfree : st.single o.objectID = none) : Shares st (st.setObject o) where
  rest := rfl
  singles id := by
    rw [single_setObject]
    by_cases hid : id = o.objectID
    · rw [if_pos hid, if_neg hrep, hid, hfree]
    · rw [if_neg hid]

theorem deleteReplicated (st : Ledger) (hfree : st.single id = none) :
    Shares st (st.deleteObject id) where
  rest := rfl
  singles id' := by
    rw [single_deleteObject]
    by_cases hid : id' = id
    · rw [if_pos hid, hid, hfree]
    · rw [if_neg hid]

theorem rewriteOwn (hv : st.single id = none) (ho : st.getObject id = some o) {o' : Object}
    (hid : o'.objectID = o.objectID) (hrep : o'.replication = o.replication) :
    Shares st (st.setObject o') := by
  refine .setReplicated st ?_ ?_
  · rw [hrep]
    exact single_eq_none.1 hv o ho
  · rw [hid, objectID_of_get ho]
    exact hv

variable (h : Shares st st')

include h

theorem symm : Shares st' st where
  rest := by
    conv_rhs => rw [h.rest]
    rfl
  singles id := (h.singles id).symm

theorem trans (h' : Shares st' st'') : Shares st st'' where
  rest := by
    conv_lhs => rw [h'.rest, h.rest]
    rfl
  singles id := (h'.singles id).trans (h.singles id)

/-- Whatever does not look at the bodies goes the same way. -/
theorem through (f : Ledger → Ledger)
    (hf : ∀ s objects, f (withObjects s objects) = (f s).withObjects objects) :
    Shares (f st) (f st') := by
  have hobjects : ∀ s : Ledger, (f s).objects = s.objects := by
    intro s
    have hsame : f s = (f s).withObjects s.objects := hf s s.objects
    rw [hsame]
    rfl
  constructor
  · rw [hobjects]
    conv_lhs => rw [h.rest, hf]
  · intro id
    rw [single_congr (hobjects st') id, single_congr (hobjects st) id]
    exact h.singles id

theorem setObject (o : Object) :
    Shares (st.setObject o) (st'.setObject o) where
  rest := by
    conv_lhs => rw [h.rest]
    rfl
  singles id := by
    rw [single_setObject, single_setObject, h.singles]

theorem deleteObject (id : Hash) :
    Shares (st.deleteObject id) (st'.deleteObject id) where
  rest := by
    conv_lhs => rw [h.rest]
    rfl
  singles id' := by
    rw [single_deleteObject, single_deleteObject, h.singles]

/-- Both nodes store the same object under an identifier, or neither a singleton. -/
theorem getObject_cases (id : Hash) :
    st'.getObject id = st.getObject id ∨ st.single id = none ∧ st'.single id = none := by
  cases hs : st.single id with
  | none => exact .inr ⟨rfl, (h.singles id).trans hs⟩
  | some o =>
    have hs' := (h.singles id).trans hs
    exact .inl ((single_eq_some.1 hs').1.trans (single_eq_some.1 hs).1.symm)

theorem getObject_of_plain (hp : st.Plain id) (hp' : st'.Plain id) :
    st'.getObject id = st.getObject id := by
  rw [← single_eq_of_plain hp, ← single_eq_of_plain hp', h.singles]

/-! ## Coins -/

theorem setCoinsTotal (total : UInt64) :
    Shares (st.setCoinsTotal total) (st'.setCoinsTotal total) :=
  h.through (·.setCoinsTotal total) fun _ _ => rfl

theorem coinsTotal : st'.coinsTotal = st.coinsTotal := by
  rw [h.rest]
  rfl

theorem totalSupply : st'.totalSupply = st.totalSupply := by
  rw [h.rest]
  rfl

theorem validators : st'.validators = st.validators := by
  rw [h.rest]
  rfl

theorem tracker : st'.tracker = st.tracker := by
  rw [h.rest]
  rfl

theorem domains : st'.domains = st.domains := by
  rw [h.rest]
  rfl

theorem addCoins (amount : UInt64) : Shares (st.addCoins amount) (st'.addCoins amount) := by
  unfold Ledger.addCoins
  rw [h.coinsTotal]
  exact h.setCoinsTotal _

theorem subCoins (amount : UInt64) : Shares (st.subCoins amount) (st'.subCoins amount) := by
  unfold Ledger.subCoins
  rw [h.coinsTotal]
  exact h.setCoinsTotal _

theorem subSupply (amount : UInt64) : Shares (st.subSupply amount) (st'.subSupply amount) := by
  unfold Ledger.subSupply
  rw [h.totalSupply]
  exact h.through (·.setTotalSupply _) fun _ _ => rfl

theorem withValidators (vs : ValidatorSet) :
    Shares { st with validators := vs } { st' with validators := vs } :=
  h.through (fun s => { s with validators := vs }) fun _ _ => rfl

theorem validateGasCoin (tx : Transaction) (coin : Hash) :
    st'.validateGasCoin tx coin = st.validateGasCoin tx coin := by
  have hreplicated : ∀ s : Ledger, s.single coin = none → s.validateGasCoin tx coin = false := by
    intro s hs
    unfold Ledger.validateGasCoin
    cases ho : s.getObject coin with
    | none => rfl
    | some o => simp [single_eq_none.1 hs o ho]
  rcases h.getObject_cases coin with heq | ⟨hs, hs'⟩
  · unfold Ledger.validateGasCoin
    rw [heq]
  · rw [hreplicated st hs, hreplicated st' hs']

theorem strictDebit (coin : Hash) (amount : UInt64) :
    Option.Rel Shares (st.strictDebit coin amount) (st'.strictDebit coin amount) := by
  have hreplicated : ∀ s : Ledger, s.single coin = none → s.strictDebit coin amount = none := by
    intro s hs
    unfold Ledger.strictDebit
    cases ho : s.getObject coin with
    | none => rfl
    | some o => simp [single_eq_none.1 hs o ho]
  rcases h.getObject_cases coin with heq | ⟨hs, hs'⟩
  · unfold Ledger.strictDebit
    rw [heq]
    cases st.getObject coin with
    | none => exact .none
    | some o =>
      dsimp only
      split
      · exact .none
      · cases o.balance with
        | none => exact .none
        | some balance =>
          dsimp only
          split
          · exact .none
          · exact .some ((h.setObject _).subCoins amount)
  · rw [hreplicated st hs, hreplicated st' hs']
    exact .none

theorem creditCoin (hp : st.Plain coin) (hp' : st'.Plain coin) (amount : UInt64) :
    ResultAlike Eq Shares (st.creditCoin coin amount) (st'.creditCoin coin amount) := by
  unfold Ledger.creditCoin
  rw [h.getObject_of_plain hp hp']
  split
  · exact .ok h
  · cases st.getObject coin with
    | none => exact .error rfl
    | some o =>
      dsimp only
      cases o.balance with
      | none => exact .error rfl
      | some balance =>
        dsimp only
        split
        · exact .error rfl
        · exact .ok ((h.setObject _).addCoins amount)

theorem deductCoinFee (hsame : st'.getObject coin = st.getObject coin) (fee : UInt64) :
    ResultAlike Eq (fun p p' : Ledger × UInt64 × Bool => Shares p.1 p'.1 ∧ p'.2 = p.2)
      (st.deductCoinFee coin fee) (st'.deductCoinFee coin fee) := by
  unfold Ledger.deductCoinFee
  rw [hsame]
  cases st.getObject coin with
  | none => exact .error rfl
  | some o =>
    dsimp only
    cases o.balance with
    | none => exact .error rfl
    | some balance =>
      dsimp only
      split
      · exact .ok ⟨(h.setObject _).subCoins _, rfl⟩
      · exact .ok ⟨(h.setObject _).subCoins _, rfl⟩

theorem deductFees (nd : Node) (tx : Transaction) (atx : AttestedTransaction) :
    FeesAlike Shares (st.deductFees nd tx atx) (st'.deductFees nd tx atx) := by
  refine deductFees_rel ⟨_, _, rfl⟩ h (fun _ => ?_) (h.validateGasCoin tx) fun coin hgas fee => ?_
  · rw [feeParts, feeParts, h.validators]
  · have hgas' := (h.validateGasCoin tx coin).trans hgas
    obtain ⟨o', ho', hrep', -⟩ := validateGasCoin_eq_true.1 hgas'
    rcases h.getObject_cases coin with heq | ⟨-, hs'⟩
    · exact h.deductCoinFee heq fee
    · exact absurd hrep' (single_eq_none.1 hs' o' ho')

/-! ## The gates -/

theorem markCommitted (tx : Transaction) : Shares (st.markCommitted tx) (st'.markCommitted tx) := by
  refine h.through (·.markCommitted tx) fun s objects => ?_
  unfold Ledger.markCommitted
  split <;> rfl

theorem wasCommitted (tx : Transaction) : st'.wasCommitted tx = st.wasCommitted tx := by
  rw [h.rest]
  rfl

theorem gates (nd : Node) (atx : AttestedTransaction) (commitRound : Nat)
    (verdict : Option ProofError) : GatesAlike Shares nd atx commitRound verdict st st' :=
  gatesAlike h (fun tx _ => h.wasCommitted tx) h.markCommitted Shares.tracker
    fun tracker hs => hs.through (fun s => { s with tracker }) fun _ _ => rfl

/-! ## The handlers -/

theorem handleRegisterValidator (nd : Node) (tx : Transaction) :
    ResultAlike Eq Shares (st.handleRegisterValidator nd tx) (st'.handleRegisterValidator nd tx) :=
  handleRegisterValidator_rel h fun pubkey args blsPubkey _ =>
    h.through (·.registered nd tx pubkey args blsPubkey) fun _ _ => rfl

theorem handleDeregisterValidator (nd : Node) (tx : Transaction) :
    Shares (st.handleDeregisterValidator nd tx) (st'.handleDeregisterValidator nd tx) := by
  refine h.through (·.handleDeregisterValidator nd tx) fun s objects => ?_
  unfold Ledger.handleDeregisterValidator
  split
  · rfl
  · cases hash32 tx.sender with
    | none => rfl
    | some pubkey => by_cases hin : pubkey ∈ s.pendingRemovals <;> simp [withObjects, hin]

theorem readDelegationAmount {posID : Hash} (hp : st.Plain posID)
    (hp' : st'.Plain posID) (validator : Hash) :
    st'.readDelegationAmount posID validator = st.readDelegationAmount posID validator := by
  unfold Ledger.readDelegationAmount
  rw [h.getObject_of_plain hp hp']

theorem getD {x x' : Option Ledger} (hx : Option.Rel Shares x x') :
    Shares (x.getD st) (x'.getD st') := by
  cases hx with
  | none => exact h
  | some hs => exact hs

theorem onValidators (f : ValidatorSet → ValidatorSet) :
    Shares (st.onValidators f) (st'.onValidators f) :=
  h.through (·.onValidators f) fun _ _ => rfl

theorem bondsAlike (nd : Node) (tx : Transaction) : BondsAlike Shares nd tx st st' := by
  intro sender coin amount _
  refine ⟨by rw [h.validators], ?_⟩
  exact rel_imp (h.strictDebit coin amount) fun _ _ hs stake => hs.onValidators _

theorem stakesAlike (nd : Node) (tx : Transaction)
    (hb : st.StakeBlind nd tx) (hb' : st'.StakeBlind nd tx) :
    StakesAlike Shares nd tx st st' where
  bond := h.bondsAlike nd tx
  unbond sender coin amount hparse := by
    refine ⟨by rw [h.validators], fun _ _ => ?_⟩
    have hcredit := h.creditCoin (hb.unbond sender coin amount hparse)
      (hb'.unbond sender coin amount hparse) amount
    exact hcredit.imp fun _ _ hs stake => hs.onValidators _
  delegate delegator coin validator amount _ := by
    refine ⟨by rw [h.validators], ?_⟩
    exact rel_imp (h.strictDebit coin amount) fun _ _ hs => (hs.setObject _).onValidators _
  undelegate delegator coin validator a hparse := by
    obtain ⟨hcoin, hposition⟩ := hb.undelegate delegator coin validator a hparse
    obtain ⟨hcoin', hposition'⟩ := hb'.undelegate delegator coin validator a hparse
    refine ⟨h.readDelegationAmount hposition hposition' validator, fun amount => ?_⟩
    exact (h.creditCoin hcoin hcoin' amount).imp fun _ _ hs => (hs.deleteObject _).onValidators _

/-! ## Deletions -/

/-- An operation on the body under an identifier goes the same way where both nodes store
the same, and unnoticed where neither stores a singleton. -/
theorem pointwise (id : Hash) {f : Ledger → Ledger}
    (hsame : st'.getObject id = st.getObject id → Shares (f st) (f st'))
    (hown : ∀ s : Ledger, s.single id = none → Shares s (f s)) : Shares (f st) (f st') := by
  rcases h.getObject_cases id with heq | ⟨hv, hv'⟩
  · exact hsame heq
  · exact (hown st hv).symm.trans (h.trans (hown st' hv'))

theorem withTracker (f : Tracker → Tracker) :
    Shares { st with tracker := f st.tracker } { st' with tracker := f st'.tracker } :=
  h.through (fun s => { s with tracker := f s.tracker }) fun _ _ => rfl

theorem settleDeletion (p : FeeParams) (id : Hash) {gasCoinID : Option Hash}
    (hgas : ∀ coin, gasCoinID = some coin → st.Plain coin ∧ st'.Plain coin) :
    Shares (st.settleDeletion p id gasCoinID).1 (st'.settleDeletion p id gasCoinID).1 := by
  unfold Ledger.settleDeletion
  have hmoved := h.withTracker (·.deleteObject id)
  rw [h.tracker] at hmoved ⊢
  dsimp only
  split
  · exact hmoved
  · cases hcoin : gasCoinID with
    | none => exact hmoved.subSupply _
    | some coin =>
      dsimp only
      split
      · exact hmoved.subSupply _
      · have hcredit := hmoved.creditCoin (hgas coin hcoin).1 (hgas coin hcoin).2
          (bpsShare (st.tracker.getFees id) p.storageRefundBPS)
        generalize Ledger.creditCoin _ coin _ = r at hcredit ⊢
        generalize Ledger.creditCoin _ coin _ = r' at hcredit ⊢
        cases hcredit with
        | error => exact hmoved.subSupply _
        | ok hs => exact hs.subSupply _

theorem settleDeletions (p : FeeParams) (tx : Transaction) (ids : List Hash)
    (hgas : ∀ coin, tx.txGasCoinID = some coin → st.Plain coin ∧ st'.Plain coin) :
    Shares (st.settleDeletions p tx ids) (st'.settleDeletions p tx ids) := by
  unfold Ledger.settleDeletions
  induction ids generalizing st st' with
  | nil => exact h
  | cons id ids ih =>
    refine ih (h.settleDeletion p id hgas) fun coin hcoin => ?_
    obtain ⟨hp, hp'⟩ := hgas coin hcoin
    exact ⟨(@Keeps.settleDeletion (fun _ => False) st p id tx).plain hp,
      (@Keeps.settleDeletion (fun _ => False) st' p id tx).plain hp'⟩

/-! ## Declared operations -/

theorem applyReparent (op : DeclaredOp) : Shares (st.applyReparent op) (st'.applyReparent op) := by
  have hmoved := h.withTracker (·.setParent (toHash op.objectID) op.targetKind (toHash op.target))
  unfold Ledger.applyReparent
  dsimp only
  rw [h.tracker] at hmoved ⊢
  generalize { st with tracker := _ } = moved at hmoved ⊢
  generalize { st' with tracker := _ } = moved' at hmoved ⊢
  rcases hmoved.getObject_cases (toHash op.objectID) with heq | ⟨hv, hv'⟩
  · rw [heq]
    cases moved.getObject (toHash op.objectID) with
    | none => exact hmoved
    | some o => exact hmoved.setObject _
  · refine Shares.trans (.symm (?_ : Shares moved _)) (hmoved.trans ?_)
    · split
      · exact .refl moved
      · exact .rewriteOwn hv ‹_› (Object.objectID_withOwner ..) rfl
    · split
      · exact .refl moved'
      · exact .rewriteOwn hv' ‹_› (Object.objectID_withOwner ..) rfl

theorem applyDomainOp (sender : Hash) (epoch maxTerm : UInt64) (op : DeclaredOp) :
    Shares (st.applyDomainOp sender epoch maxTerm op)
      (st'.applyDomainOp sender epoch maxTerm op) := by
  refine h.through (·.applyDomainOp sender epoch maxTerm op) fun s objects => ?_
  unfold Ledger.applyDomainOp applyDomainRegister applyDomainRenew applyDomainUpdate
    applyDomainTransfer applyDomainDelete rewriteDomainLeaf setDomainLeaf
  repeat' split
  all_goals first | rfl | simp_all [withObjects]

theorem applyDeclaredOp (p : FeeParams) (tx : Transaction) (sender : Hash) (epoch : UInt64)
    (op : DeclaredOp) (hgas : ∀ coin, tx.txGasCoinID = some coin → st.Plain coin ∧ st'.Plain coin) :
    Shares (Ledger.applyDeclaredOp p tx sender epoch st op)
      (Ledger.applyDeclaredOp p tx sender epoch st' op) := by
  unfold Ledger.applyDeclaredOp
  split
  · exact h.applyReparent op
  · split
    · exact (h.settleDeletion p _ hgas).deleteObject _
    · exact h.applyDomainOp sender epoch _ op

theorem applyDeclaredOps (p : FeeParams) (tx : Transaction)
    (sender : Hash) (epoch : UInt64) (ops : List DeclaredOp)
    (hgas : ∀ coin, tx.txGasCoinID = some coin → st.Plain coin ∧ st'.Plain coin) :
    Shares (ops.foldl (Ledger.applyDeclaredOp p tx sender epoch) st)
      (ops.foldl (Ledger.applyDeclaredOp p tx sender epoch) st') := by
  induction ops generalizing st st' with
  | nil => exact h
  | cons op ops ih =>
    refine ih (h.applyDeclaredOp p tx sender epoch op hgas) fun coin hcoin => ?_
    obtain ⟨hp, hp'⟩ := hgas coin hcoin
    exact ⟨(@Keeps.applyDeclaredOp (fun _ => False) st p tx sender epoch op).plain hp,
      (@Keeps.applyDeclaredOp (fun _ => False) st' p tx sender epoch op).plain hp'⟩

theorem commitDeclaredOps (nd : Node) (tx : Transaction)
    (commitRound : Nat) (split : FeeSplit) (withheld : UInt64)
    (hgas : ∀ coin, tx.txGasCoinID = some coin → st.Plain coin ∧ st'.Plain coin) :
    OutcomeShares (st.commitDeclaredOps nd tx commitRound split withheld)
      (st'.commitDeclaredOps nd tx commitRound split withheld) := by
  refine ⟨rfl, ?_⟩
  unfold Ledger.commitDeclaredOps
  dsimp only
  split
  · exact h
  · refine h.getD ?_
    unfold handleDeclaredOps
    rw [h.tracker, h.domains]
    cases hash32 tx.sender with
    | none => exact .none
    | some sender =>
      simp only [Option.bind_eq_bind, Option.bind_some]
      split
      · exact .none
      · cases tx.operations.foldlM (fun (view : StagedView) op =>
            view.validate sender op tx.mutableRefIDs) _ with
        | none => exact .none
        | some _ => exact .some (h.applyDeclaredOps _ tx sender _ tx.operations hgas)

/-! ## Settlement -/

theorem validateMutableRefOwnership (ho : st.OwnersPlain tx atx) (ho' : st'.OwnersPlain tx atx) :
    st'.validateMutableRefOwnership atx tx = st.validateMutableRefOwnership atx tx := by
  have howner : ∀ id ∈ tx.mutableRefIDs, st'.mutableRefOwner atx id =
      st.mutableRefOwner atx id := by
    intro id hid
    unfold mutableRefOwner
    cases hatt : attestedReplicatedOwner atx id with
    | some owner => rfl
    | none =>
      dsimp only
      rw [h.getObject_of_plain (ho id hid hatt) (ho' id hid hatt)]
  unfold Ledger.validateMutableRefOwnership
  split
  · rfl
  · cases hash32 tx.sender with
    | none => rfl
    | some sender =>
      dsimp only
      rw [Bool.eq_iff_iff, List.all_eq_true, List.all_eq_true]
      refine forall₂_congr fun r hr => ?_
      unfold mutableRefOwnedBy
      cases hid : r.refID with
      | none => rfl
      | some id =>
        dsimp only
        rw [howner id (List.mem_filterMap.2 ⟨r, hr, hid⟩)]

theorem staked (nd : Node) (tx : Transaction) (hb : st.StakeBlind nd tx)
    (hb' : st'.StakeBlind nd tx) : Shares (st.staked nd tx) (st'.staked nd tx) := by
  have hderegistered := h.handleDeregisterValidator nd tx
  exact (hderegistered.stakesAlike nd tx
    (hb.keep (@Keeps.of_objects _ _ (fun _ => False) (handleDeregisterValidator_objects ..)))
    (hb'.keep (@Keeps.of_objects _ _ (fun _ => False)
      (handleDeregisterValidator_objects ..)))).handleStake hderegistered

theorem handlersAlike (nd : Node) (tx : Transaction)
    (atx : AttestedTransaction) (hb : st.SettleBlind nd tx atx) (hb' : st'.SettleBlind nd tx atx) :
    HandlersAlike Shares nd tx atx st st' where
  owners := h.validateMutableRefOwnership hb.owners hb'.owners
  register := h.handleRegisterValidator nd tx
  behind {s s'} hr hr' hs := by
    have hbond := ((hs.handleDeregisterValidator nd tx).bondsAlike nd tx).handleBond
    have hbs := hb.keep (@Keeps.of_objects _ _ (fun _ => False) (handleRegisterValidator_ok hr).1)
    have hbs' := hb'.keep
      (@Keeps.of_objects _ _ (fun _ => False) (handleRegisterValidator_ok hr').1)
    have hstaked := hs.staked nd tx hbs.stake hbs'.stake
    refine ⟨?_, hstaked, hstaked.settleDeletions _ tx _ fun coin hcoin => ?_⟩
    · generalize Ledger.handleBond _ nd tx = x at hbond ⊢
      generalize Ledger.handleBond _ nd tx = x' at hbond ⊢
      cases hbond with
      | none => rfl
      | some => rfl
    · exact ⟨(Keeps.staked s nd tx).plain (hbs.gas coin hcoin),
        (Keeps.staked s' nd tx).plain (hbs'.gas coin hcoin)⟩

end Shares

end Ledger

end BluePods
