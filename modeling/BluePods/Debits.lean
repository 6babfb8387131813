import BluePods.Steps

/-! Which balances go down before the pod call. Only the fee and the stake handlers take
from a coin; every other step leaves or raises what is stored. -/

namespace BluePods
namespace Ledger

variable {st st' : Ledger} {o : Object} {c coin : Hash} {b amount : UInt64} {p : FeeParams}
  {tx : Transaction} {nd : Node} {atx : AttestedTransaction} {fn : Bytes}

/-! ## Balances -/

def balanceOf (st : Ledger) (id : Hash) : Option UInt64 := (st.getObject id).bind Object.balance

theorem balanceOf_of_get {id : Hash} (h : st.getObject id = some o) :
    st.balanceOf id = o.balance := by
  simp [balanceOf, h]

theorem balanceOf_congr (h : st'.objects = st.objects) : st'.balanceOf = st.balanceOf := by
  funext id
  simp only [balanceOf, getObject, h]

theorem balanceOf_withValidators (st : Ledger) (vs : ValidatorSet) :
    balanceOf { st with validators := vs } = st.balanceOf := rfl

theorem balanceOf_setObject (st : Ledger) (o : Object) (id : Hash) :
    (st.setObject o).balanceOf id = if id = o.objectID then o.balance else st.balanceOf id := by
  simp only [balanceOf, getObject, setObject, ObjectStore.get_set]
  split <;> rfl

theorem balanceOf_setBalance (h : st.getObject coin = some o) (b : UInt64) (id : Hash) :
    (st.setObject (o.withBalance b)).balanceOf id =
      if id = coin then some b else st.balanceOf id := by
  have hid : o.objectID = coin := ObjectStore.objectID_of_get h
  simp [balanceOf_setObject, hid]

/-! ## Only the gas coin's balance -/

/-- The bodies are as they were, up to the balance of the gas coin. -/
def SameBodies (tx : Transaction) (st st' : Ledger) : Prop :=
  ∀ id, st'.getObject id = st.getObject id ∨
    tx.txGasCoinID = some id ∧
      ∃ o b, st.getObject id = some o ∧ st'.getObject id = some (o.withBalance b)

theorem Object.withBalance_withBalance (o : Object) (b b' : UInt64) :
    (o.withBalance b).withBalance b' = o.withBalance b' := by
  simp [Object.withBalance]

namespace SameBodies

variable {tx : Transaction} {st st' st'' : Ledger}

theorem of_objects (h : st'.objects = st.objects) : SameBodies tx st st' := by
  intro id
  left
  rw [getObject, getObject, h]

theorem trans (h : SameBodies tx st st') (h' : SameBodies tx st' st'') : SameBodies tx st st'' := by
  intro id
  rcases h id with hsame | ⟨hgas, o, b, ho, ho'⟩
  · rcases h' id with hsame' | ⟨hgas, o, b, ho, ho'⟩
    · exact .inl (hsame'.trans hsame)
    · exact .inr ⟨hgas, o, b, hsame ▸ ho, ho'⟩
  · rcases h' id with hsame' | ⟨-, o', b', ho₁, ho₂⟩
    · exact .inr ⟨hgas, o, b, ho, hsame'.trans ho'⟩
    · rw [ho'] at ho₁
      obtain rfl := Option.some.inj ho₁
      exact .inr ⟨hgas, o, b', ho, by rw [ho₂, Object.withBalance_withBalance]⟩

theorem setBalance {o : Object} (hgas : tx.txGasCoinID = some coin)
    (ho : st.getObject coin = some o) (b : UInt64) :
    SameBodies tx st (st.setObject (o.withBalance b)) := by
  intro id
  rw [getObject_setBalance ho]
  by_cases hid : id = coin
  · exact .inr ⟨hid ▸ hgas, o, b, hid ▸ ho, if_pos hid⟩
  · exact .inl (if_neg hid)

theorem creditCoin (hgas : tx.txGasCoinID = some coin) (h : st.creditCoin coin amount = .ok st') :
    SameBodies tx st st' := by
  rcases creditCoin_ok h with ⟨-, rfl⟩ | ⟨o, balance, ho, -, -, rfl⟩
  · exact of_objects rfl
  · exact (setBalance hgas ho _).trans (of_objects (addCoins_objects ..))

theorem deductFees (st : Ledger) (nd : Node) (tx : Transaction) (atx : AttestedTransaction) :
    SameBodies tx st (st.deductFees nd tx atx).ledger := by
  intro id
  rcases st.getObject_deductFees nd tx atx with hsame | ⟨coin, o, balance, taken, hgas, -, hget⟩
  · exact .inl (hsame id)
  · rw [hget]
    by_cases hid : id = coin
    · exact .inr ⟨hid ▸ hgas.declared, o, _, hid ▸ hgas.stored, if_pos hid⟩
    · exact .inl (if_neg hid)

theorem settleDeletion (st : Ledger) (p : FeeParams) (id : Hash) (tx : Transaction) :
    SameBodies tx st (st.settleDeletion p id tx.txGasCoinID).1 := by
  rcases st.settleDeletion_cases p id tx.txGasCoinID with
    ⟨-, heq⟩ | heq | ⟨coin, st₁, hcoin, hcredit, heq⟩
  · rw [heq]
    exact of_objects rfl
  · rw [heq]
    exact of_objects (subSupply_objects ..)
  · rw [heq]
    have hcredited := creditCoin hcoin hcredit
    exact SameBodies.trans hcredited (of_objects (subSupply_objects ..))

theorem settleDeletions (st : Ledger) (p : FeeParams) (tx : Transaction) (ids : List Hash) :
    SameBodies tx st (st.settleDeletions p tx ids) := by
  unfold Ledger.settleDeletions
  induction ids generalizing st with
  | nil => exact of_objects rfl
  | cons id ids ih => exact (settleDeletion st p id tx).trans (ih _)

theorem balanceOf_eq {id : Hash} (h : SameBodies tx st st') (hgas : tx.txGasCoinID ≠ some id) :
    st'.balanceOf id = st.balanceOf id := by
  rcases h id with heq | ⟨hgas', -⟩
  · rw [balanceOf, balanceOf, heq]
  · exact absurd hgas' hgas

end SameBodies

/-! ## No debit -/

/-- No balance of the second ledger is below, or missing from, the first. -/
def NoDebit (st st' : Ledger) : Prop :=
  ∀ id b', st'.balanceOf id = some b' → ∃ b, st.balanceOf id = some b ∧ b ≤ b'

namespace NoDebit

variable {st st' st'' : Ledger}

theorem refl (st : Ledger) : NoDebit st st := fun _ b' h => ⟨b', h, UInt64.le_refl b'⟩

theorem trans (h : NoDebit st st') (h' : NoDebit st' st'') : NoDebit st st'' := by
  intro id b'' hb''
  obtain ⟨b', hb', hle'⟩ := h' id b'' hb''
  obtain ⟨b, hb, hle⟩ := h id b' hb'
  exact ⟨b, hb, UInt64.le_trans hle hle'⟩

theorem of_objects (h : st'.objects = st.objects) : NoDebit st st' := by
  intro id b' hb'
  exact ⟨b', balanceOf_congr h ▸ hb', UInt64.le_refl b'⟩

theorem of_setObject (h : o.balance = st.balanceOf o.objectID) : NoDebit st (st.setObject o) := by
  intro id b' hb'
  rw [balanceOf_setObject] at hb'
  split_ifs at hb' with hid
  · exact ⟨b', hid ▸ h ▸ hb', UInt64.le_refl b'⟩
  · exact ⟨b', hb', UInt64.le_refl b'⟩

theorem deleteObject (st : Ledger) (id : Hash) : NoDebit st (st.deleteObject id) := by
  intro id' b' hb'
  simp only [balanceOf, getObject, Ledger.deleteObject, ObjectStore.get_delete] at hb'
  split_ifs at hb' with hid
  · simp at hb'
  · exact ⟨b', hb', UInt64.le_refl b'⟩

theorem creditCoin (h : st.creditCoin coin amount = .ok st') : NoDebit st st' := by
  rcases creditCoin_ok h with ⟨-, rfl⟩ | ⟨o, balance, ho, hb, hle, rfl⟩
  · exact refl _
  · intro id b' hb'
    rw [balanceOf_congr (addCoins_objects ..), balanceOf_setBalance ho] at hb'
    split_ifs at hb' with hid
    · obtain rfl := Option.some.inj hb'
      exact ⟨balance, by rw [hid, balanceOf_of_get ho, hb], hle⟩
    · exact ⟨b', hb', UInt64.le_refl b'⟩

theorem settleDeletion (p : FeeParams) (objID : Hash) (gasCoinID : Option Hash) :
    NoDebit st (st.settleDeletion p objID gasCoinID).1 := by
  rcases st.settleDeletion_cases p objID gasCoinID with
    ⟨-, heq⟩ | heq | ⟨coin, st₁, -, hcredit, heq⟩
  · rw [heq]
    exact of_objects rfl
  · rw [heq]
    exact of_objects (by simp)
  · rw [heq]
    have hmoved : NoDebit st { st with tracker := st.tracker.deleteObject objID } :=
      of_objects rfl
    exact (hmoved.trans (creditCoin hcredit)).trans (of_objects (subSupply_objects ..))

theorem settleDeletions (p : FeeParams) (tx : Transaction) (ids : List Hash) :
    NoDebit st (st.settleDeletions p tx ids) := by
  unfold Ledger.settleDeletions
  induction ids generalizing st with
  | nil => exact refl st
  | cons id ids ih => exact (settleDeletion p id _).trans ih

theorem applyDeclaredOp (p : FeeParams) (tx : Transaction) (sender : Hash) (epoch : UInt64)
    (op : DeclaredOp) : NoDebit st (Ledger.applyDeclaredOp p tx sender epoch st op) := by
  unfold Ledger.applyDeclaredOp
  split_ifs
  · unfold applyReparent
    simp only
    split
    · exact of_objects rfl
    · rename_i o ho
      have hid := ObjectStore.objectID_of_get ho
      refine (@of_objects st _ rfl).trans (of_setObject ?_)
      rw [Object.objectID_withOwner, hid, balanceOf_of_get ho]
      rfl
  · exact (settleDeletion p _ _).trans (deleteObject _ _)
  · rw [applyDomainOp_eq]
    exact of_objects rfl

theorem handleDeclaredOps {epoch : UInt64} (hops : st.handleDeclaredOps p tx epoch = some st') :
    NoDebit st st' := by
  simp [Ledger.handleDeclaredOps, Option.bind_eq_some_iff, -Subtype.exists] at hops
  obtain ⟨sender, -, -, -, -, rfl⟩ := hops
  induction tx.operations generalizing st with
  | nil => exact refl st
  | cons op ops ih => exact (applyDeclaredOp p tx sender epoch op).trans ih

end NoDebit

/-! ## The fee stage -/

def totalFee (st : Ledger) (nd : Node) (tx : Transaction) (atx : AttestedTransaction) : UInt64 :=
  (st.feeParts nd tx atx).1 + (st.feeParts nd tx atx).2

/-- The gas coin is the payer's, declares enough gas, and covers the fee. -/
def FeeClears (st : Ledger) (nd : Node) (tx : Transaction) (atx : AttestedTransaction) : Prop :=
  ∃ coin, tx.txGasCoinID = some coin ∧ nd.feeParams.minGas ≤ tx.maxGas ∧
    st.validateGasCoin tx coin = true ∧
    (st.totalFee nd tx atx = 0 ∨
      ∃ balance, st.balanceOf coin = some balance ∧ st.totalFee nd tx atx ≤ balance)

/-- What a coin holds once the fee is off. -/
def spendable (st : Ledger) (nd : Node) (tx : Transaction) (atx : AttestedTransaction)
    (id : Hash) : Option UInt64 :=
  if tx.txGasCoinID = some id then (st.balanceOf id).map (· - st.totalFee nd tx atx)
  else st.balanceOf id

theorem deductFees_of_feeClears (h : st.FeeClears nd tx atx) :
    (st.deductFees nd tx atx).proceed = true ∧
      (st.deductFees nd tx atx).ledger.balanceOf = st.spendable nd tx atx := by
  obtain ⟨coin, hcoin, hmin, hvalid, hpays⟩ := h
  have hlt : ¬ tx.maxGas < nd.feeParams.minGas := UInt64.not_lt.2 hmin
  obtain ⟨o, ho, -⟩ := validateGasCoin_eq_true.1 hvalid
  by_cases hzero : st.totalFee nd tx atx = 0
  · have hspend : st.spendable nd tx atx = st.balanceOf := by
      funext id
      simp [spendable, hzero]
    have hfee : st.deductFees nd tx atx = { ledger := st, proceed := true } := by
      simp only [totalFee, feeParts] at hzero
      simp [deductFees, hcoin, hlt, hvalid, hzero]
    rw [hfee, hspend]
    exact ⟨rfl, rfl⟩
  · obtain ⟨balance, hb, hle⟩ := hpays.resolve_left hzero
    have hdeduct := deductCoinFee_of_le ho (balanceOf_of_get ho ▸ hb) hle
    have hledger : (st.deductFees nd tx atx).proceed = true ∧
        (st.deductFees nd tx atx).ledger =
          (st.setObject (o.withBalance (balance - st.totalFee nd tx atx))).subCoins
            (st.totalFee nd tx atx) := by
      simp only [totalFee, feeParts] at hzero hdeduct ⊢
      simp [deductFees, hcoin, hlt, hvalid, hzero, hdeduct]
    refine ⟨hledger.1, ?_⟩
    rw [hledger.2, balanceOf_congr (subCoins_objects ..)]
    funext id
    rw [balanceOf_setBalance ho]
    by_cases hid : id = coin
    · simp [spendable, hcoin, hid, hb]
    · simp [spendable, hcoin, hid, Ne.symm hid]

/-- A registration or deregistration that names no gas coin is free. -/
def FeeExempt (nd : Node) (tx : Transaction) : Prop :=
  tx.txGasCoinID = none ∧ (nd.isSystemFunc tx registerValidatorFunc = true ∨
    nd.isSystemFunc tx deregisterValidatorFunc = true)

/-- A transaction goes past the fee stage exactly when its fee clears or it is free. -/
theorem proceed_iff : (st.deductFees nd tx atx).proceed = true ↔
    st.FeeClears nd tx atx ∨ FeeExempt nd tx := by
  constructor
  · intro hp
    unfold deductFees at hp
    cases hcoin : tx.txGasCoinID with
    | none =>
      simp only [hcoin, Bool.or_eq_true] at hp
      exact .inr ⟨hcoin, hp⟩
    | some coin =>
      left
      simp only [hcoin] at hp
      split_ifs at hp with hmin hvalid hzero
      · exact ⟨coin, hcoin, UInt64.not_lt.1 hmin, by simpa using hvalid, .inl hzero⟩
      · refine ⟨coin, hcoin, UInt64.not_lt.1 hmin, by simpa using hvalid, .inr ?_⟩
        split at hp
        · simp at hp
        · rename_i st' taken full hdeduct
          obtain ⟨o, balance, ho, hb, hle, -, hfull⟩ := deductCoinFee_ok hdeduct
          cases full with
          | false => simp at hp
          | true =>
            have htaken : taken = st.totalFee nd tx atx := hfull rfl
            exact ⟨balance, by rw [balanceOf_of_get ho, hb], htaken ▸ hle⟩
  · rintro (h | ⟨hcoin, hfree⟩)
    · exact (deductFees_of_feeClears h).1
    · unfold deductFees
      rw [hcoin]
      exact Bool.or_eq_true_iff.2 hfree

/-- A system call that registers nobody goes past the fee stage exactly when its fee
clears. -/
theorem proceed_iff_feeClears (hfn : nd.isSystemFunc tx fn = true)
    (hreg : fn ≠ registerValidatorFunc) (hdereg : fn ≠ deregisterValidatorFunc) :
    (st.deductFees nd tx atx).proceed = true ↔ st.FeeClears nd tx atx := by
  refine proceed_iff.trans (or_iff_left ?_)
  rintro ⟨-, hfree | hfree⟩
  · exact hreg (isSystemFunc_unique hfn hfree)
  · exact hdereg (isSystemFunc_unique hfn hfree)

/-! ## Stake -/

/-- A coin the stake handlers can take an amount from, given what each coin has left. -/
structure CanDebit (st : Ledger) (left : Hash → Option UInt64) (coin : Hash) (amount : UInt64) :
    Prop where
  singleton : ∃ o, st.getObject coin = some o ∧ o.replication = 0
  covers : ∃ balance, left coin = some balance ∧ amount ≤ balance

/-- The ways a stake handler lowers the balance `b` stored at `c`: a bond or a delegation
out of the coin, or the position of a delegation written over it. -/
inductive StakeTakes (st : Ledger) (nd : Node) (tx : Transaction) (left : Hash → Option UInt64)
    (c : Hash) (b : UInt64) : Prop
  | bond {sender : Hash} {amount : UInt64} {v : ValidatorInfo}
      (parse : parseStakeTx nd tx bondFunc = some (sender, c, amount))
      (validator : st.validators.get sender = some v)
      (minStake : nd.minStake ≤ safeAdd v.selfStake amount)
      (debit : st.CanDebit left c amount)
  | delegate {delegator validator : Hash} {amount : UInt64} {v : ValidatorInfo}
      (parse : parseDelegateTx nd tx delegateFunc true = some (delegator, c, validator, amount))
      (target : st.validators.get validator = some v)
      (free : v.jailed = false)
      (debit : st.CanDebit left c amount)
      (apart : c ≠ delegationID nd.crypto delegator validator)
  | overwrite {delegator coin validator : Hash} {amount : UInt64} {v : ValidatorInfo}
      (parse : parseDelegateTx nd tx delegateFunc true = some (delegator, coin, validator, amount))
      (target : st.validators.get validator = some v)
      (free : v.jailed = false)
      (debit : st.CanDebit left coin amount)
      (slot : c = delegationID nd.crypto delegator validator)
      (lower : uint64LE validator.val < b)

theorem StakeTakes.congr {left left' : Hash → Option UInt64} (h : st.StakeTakes nd tx left c b)
    (hvalidators : st'.validators = st.validators) (hleft : left' = left)
    (hsingle : ∀ coin o, st.getObject coin = some o → o.replication = 0 →
      ∃ o', st'.getObject coin = some o' ∧ o'.replication = 0) :
    st'.StakeTakes nd tx left' c b := by
  have hdebit : ∀ {coin amount}, st.CanDebit left coin amount →
      st'.CanDebit left' coin amount := by
    rintro coin amount ⟨⟨o, ho, hrep⟩, hcovers⟩
    exact ⟨hsingle coin o ho hrep, hleft ▸ hcovers⟩
  cases h with
  | bond parse validator minStake debit =>
    exact .bond parse (hvalidators ▸ validator) minStake (hdebit debit)
  | delegate parse target free debit apart =>
    exact .delegate parse (hvalidators ▸ target) free (hdebit debit) apart
  | overwrite parse target free debit slot lower =>
    exact .overwrite parse (hvalidators ▸ target) free (hdebit debit) slot lower

theorem objectID_buildDelegationObject (cr : Crypto) (delegator validator : Hash)
    (amount : UInt64) : (buildDelegationObject cr delegator validator amount).objectID =
      delegationID cr delegator validator := by
  simp [Object.objectID, hashOrZero, buildDelegationObject]

/-- Read as a coin, a position holds the first bytes of its validator's key. -/
theorem balance_buildDelegationObject (cr : Crypto) (delegator validator : Hash)
    (amount : UInt64) : (buildDelegationObject cr delegator validator amount).balance =
      some (uint64LE validator.val) := by
  have hlen := validator.property
  simp [Object.balance, buildDelegationObject, uint64LE, List.take_append, hlen]

theorem CanDebit.of_strictDebit (h : st.strictDebit coin amount = some st') :
    st.CanDebit st.balanceOf coin amount ∧ ∃ balance, st.balanceOf coin = some balance ∧
      ∀ id, st'.balanceOf id = if id = coin then some (balance - amount) else st.balanceOf id := by
  obtain ⟨o, balance, ho, hrep, hb, hle, rfl⟩ := strictDebit_some h
  have hbal : st.balanceOf coin = some balance := by rw [balanceOf_of_get ho, hb]
  refine ⟨⟨⟨o, ho, hrep⟩, balance, hbal, hle⟩, balance, hbal, fun id => ?_⟩
  rw [balanceOf_congr (subCoins_objects ..), balanceOf_setBalance ho]

theorem CanDebit.strictDebit (h : st.CanDebit st.balanceOf coin amount) :
    ∃ st', st.strictDebit coin amount = some st' := by
  obtain ⟨⟨o, ho, hrep⟩, balance, hb, hle⟩ := h
  rw [balanceOf_of_get ho] at hb
  exact ⟨_, strictDebit_of_le ho hrep hb hle⟩

theorem StakeTakes.of_lower {b' : UInt64} (hb : st.balanceOf c = some b)
    (hb' : (st.handleStake nd tx).balanceOf c = some b') (hlt : b' < b) :
    st.StakeTakes nd tx st.balanceOf c b := by
  rcases handleStake_cases st nd tx with heq | hstep
  · rw [heq, hb] at hb'
    obtain rfl := Option.some.inj hb'
    exact absurd hlt (UInt64.lt_irrefl _)
  generalize st.handleStake nd tx = st' at hstep hb'
  have hsame : st.balanceOf c = some b' → False := by
    intro heq
    obtain rfl := Option.some.inj (hb.symm.trans heq)
    exact absurd hlt (UInt64.lt_irrefl _)
  have hno : NoDebit st st' → False := by
    intro hnd
    obtain ⟨b₀, hb₀, hle⟩ := hnd c b' hb'
    rw [hb] at hb₀
    obtain rfl := Option.some.inj hb₀
    exact absurd hlt (UInt64.not_lt.2 hle)
  cases hstep with
  | bond h =>
    obtain ⟨sender, coin, amount, v, st₁, hparse, hv, hmin, hd, rfl⟩ := handleBond_some h
    obtain ⟨hcan, balance, -, hbal⟩ := CanDebit.of_strictDebit hd
    have hdebited : st₁.balanceOf c = some b' := hb'
    rw [hbal] at hdebited
    split_ifs at hdebited with hc
    · exact .bond (hc ▸ hparse) hv hmin (hc ▸ hcan)
    · exact (hsame hdebited).elim
  | unbond h =>
    obtain ⟨_, _, _, _, st₁, -, -, -, hc, rfl⟩ := handleUnbond_some h
    exact (hno ((NoDebit.creditCoin hc).trans (.of_objects rfl))).elim
  | delegate h =>
    obtain ⟨delegator, coin, validator, amount, v, st₁, hparse, hv, hfree, hd, rfl⟩ :=
      handleDelegate_some h
    obtain ⟨hcan, balance, -, hbal⟩ := CanDebit.of_strictDebit hd
    have hset : (st₁.setObject (buildDelegationObject nd.crypto delegator validator
        amount)).balanceOf c = some b' := hb'
    rw [balanceOf_setObject, objectID_buildDelegationObject, balance_buildDelegationObject,
      hbal] at hset
    split_ifs at hset with hslot hc
    · exact .overwrite hparse hv hfree hcan hslot (Option.some.inj hset ▸ hlt)
    · exact .delegate (hc ▸ hparse) hv hfree (hc ▸ hcan) hslot
    · exact (hsame hset).elim
  | undelegate h =>
    obtain ⟨_, _, _, _, _, st₁, -, -, hc, rfl⟩ := handleUndelegate_some h
    exact (hno (((NoDebit.creditCoin hc).trans (.deleteObject _ _)).trans
      (.of_objects rfl))).elim

theorem parseStakeTx_amount {sender : Hash}
    (h : parseStakeTx nd tx fn = some (sender, coin, amount)) : 0 < amount := by
  simp [parseStakeTx, Option.bind_eq_some_iff, -Subtype.exists] at h
  obtain ⟨-, -, -, ⟨-, hne⟩, rfl⟩ := h
  exact UInt64.pos_iff_ne_zero.2 hne

theorem parseDelegateTx_amount {delegator validator : Hash}
    (h : parseDelegateTx nd tx fn true = some (delegator, coin, validator, amount)) :
    0 < amount := by
  simp [parseDelegateTx, Option.bind_eq_some_iff, -Subtype.exists] at h
  obtain ⟨-, -, -, -, -, hne, rfl⟩ := h
  exact UInt64.pos_iff_ne_zero.2 hne

theorem handleDelegate_of {st₁ : Ledger} {delegator validator : Hash} {v : ValidatorInfo}
    (parse : parseDelegateTx nd tx delegateFunc true = some (delegator, coin, validator, amount))
    (target : st.validators.get validator = some v) (free : v.jailed = false)
    (hd : st.strictDebit coin amount = some st₁) :
    st.handleDelegate nd tx =
      some { st₁.setObject (buildDelegationObject nd.crypto delegator validator amount) with
        validators := st₁.validators.addDelegated validator amount } := by
  simp [handleDelegate, parse, target, free, hd]

theorem StakeTakes.lower (hb : st.balanceOf c = some b) (h : st.StakeTakes nd tx st.balanceOf c b) :
    ∃ st' b', StakeStep st nd tx st' ∧ st'.balanceOf c = some b' ∧ b' < b := by
  have htaken : ∀ {amount st₁}, 0 < amount → st.strictDebit c amount = some st₁ →
      ∃ b', st₁.balanceOf c = some b' ∧ b' < b := by
    intro amount st₁ hpos hd
    obtain ⟨⟨-, _, hc, hle⟩, balance, hbalance, hbal⟩ := CanDebit.of_strictDebit hd
    obtain rfl := Option.some.inj (hb.symm.trans hbalance)
    obtain rfl := Option.some.inj (hb.symm.trans hc)
    refine ⟨b - amount, by rw [hbal, if_pos rfl], ?_⟩
    rw [UInt64.lt_iff_toNat_lt, UInt64.toNat_sub_of_le _ _ hle]
    have := UInt64.le_iff_toNat_le.1 hle
    have := UInt64.lt_iff_toNat_lt.1 hpos
    simp only [UInt64.toNat_zero] at this
    omega
  cases h with
  | @bond sender amount v parse validator minStake debit =>
    obtain ⟨st₁, hd⟩ := debit.strictDebit
    have hbond : st.handleBond nd tx = some { st₁ with
        validators := st₁.validators.setSelfStake sender (safeAdd v.selfStake amount) } := by
      simp [handleBond, parse, validator, UInt64.not_lt.2 minStake, hd]
    obtain ⟨b', hb', hlt⟩ := htaken (parseStakeTx_amount parse) hd
    exact ⟨_, b', .bond hbond, hb', hlt⟩
  | @delegate delegator validator amount v parse target free debit apart =>
    obtain ⟨st₁, hd⟩ := debit.strictDebit
    have hdelegate := handleDelegate_of parse target free hd
    obtain ⟨b', hb', hlt⟩ := htaken (parseDelegateTx_amount parse) hd
    refine ⟨_, b', .delegate hdelegate, ?_, hlt⟩
    rw [balanceOf_withValidators, balanceOf_setObject, objectID_buildDelegationObject,
      if_neg apart, hb']
  | @overwrite delegator coin validator amount v parse target free debit slot lower =>
    obtain ⟨st₁, hd⟩ := debit.strictDebit
    refine ⟨_, uint64LE validator.val, .delegate (handleDelegate_of parse target free hd), ?_,
      lower⟩
    rw [balanceOf_withValidators, balanceOf_setObject, objectID_buildDelegationObject,
      if_pos slot, balance_buildDelegationObject]

/-! ## The settlement stage -/

/-- The ledger the settlement stage ends with. -/
def settled (st : Ledger) (nd : Node) (tx : Transaction) (atx : AttestedTransaction)
    (split : FeeSplit) : Ledger :=
  match st.settleTx nd tx atx split with
  | .error out => out.ledger
  | .ok st => st

theorem settled_cases (st : Ledger) (nd : Node) (tx : Transaction) (atx : AttestedTransaction)
    (split : FeeSplit) :
    (st.settled nd tx atx split = st ∧
        (st.validateMutableRefOwnership atx tx = false ∨
          nd.isSystemFunc tx registerValidatorFunc = true)) ∨
      st.validateMutableRefOwnership atx tx = true ∧
        ∃ st₁, st.handleRegisterValidator nd tx = .ok st₁ ∧
          (st.settled nd tx atx split = st₁.staked nd tx ∨
            st.settled nd tx atx split = (st₁.staked nd tx).settleDeletions nd.feeParams tx
              (ownedDeletedRefs tx)) := by
  unfold settled
  rcases st.settleTx_cases nd tx atx split with
    ⟨hown, heq⟩ | ⟨hown, ⟨hpanic, heq⟩ | ⟨hun, heq⟩ | ⟨st₁, hreg, hun, hrest⟩⟩
  · exact .inl ⟨by rw [heq], .inl hown⟩
  · refine .inl ⟨by rw [heq], .inr ?_⟩
    by_contra hother
    simp [handleRegisterValidator, Bool.eq_false_iff.2 hother] at hpanic
  · refine .inl ⟨by rw [heq], .inr ?_⟩
    simp only [unprovenRegistration, Bool.and_eq_true] at hun
    exact hun.1
  · refine .inr ⟨hown, st₁, hreg, ?_⟩
    rcases hrest with ⟨-, heq⟩ | ⟨-, ⟨-, heq⟩ | heq⟩
    · exact .inl (by rw [heq])
    · exact .inr (by rw [heq])
    · exact .inr (by rw [heq])

theorem balanceOf_handleDeregisterValidator (st : Ledger) (nd : Node) (tx : Transaction) :
    (st.handleDeregisterValidator nd tx).balanceOf = st.balanceOf := by
  rw [handleDeregisterValidator_eq]
  rfl

/-- The stake handlers see the ledger of the fee stage up to the pending removals. -/
theorem StakeTakes.deregister : (st.handleDeregisterValidator nd tx).StakeTakes nd tx
        (st.handleDeregisterValidator nd tx).balanceOf c b ↔
      st.StakeTakes nd tx st.balanceOf c b := by
  rw [handleDeregisterValidator_eq]
  constructor
  · exact fun h => h.congr rfl rfl fun coin o ho hrep => ⟨o, ho, hrep⟩
  · exact fun h => h.congr rfl rfl fun coin o ho hrep => ⟨o, ho, hrep⟩

theorem stakeTakes_of_settled {split : FeeSplit} {b' : UInt64} (hb : st.balanceOf c = some b)
    (hb' : (st.settled nd tx atx split).balanceOf c = some b') (hlt : b' < b) :
    st.validateMutableRefOwnership atx tx = true ∧ st.StakeTakes nd tx st.balanceOf c b := by
  have hsame : st.balanceOf c = some b' → False := by
    intro heq
    obtain rfl := Option.some.inj (hb.symm.trans heq)
    exact absurd hlt (UInt64.lt_irrefl _)
  rcases st.settled_cases nd tx atx split with ⟨heq, -⟩ | ⟨hown, st₁, hreg, hset⟩
  · exact (hsame (heq ▸ hb')).elim
  refine ⟨hown, ?_⟩
  obtain ⟨hobjects, -, -, -, -, hst₁⟩ := handleRegisterValidator_ok hreg
  have hafter : NoDebit (st₁.staked nd tx) (st.settled nd tx atx split) := by
    rcases hset with heq | heq
    · exact heq ▸ NoDebit.refl _
    · exact heq ▸ NoDebit.settleDeletions _ _ _
  obtain ⟨b₂, hb₂, hle⟩ := hafter c b' hb'
  have hb₁ : (st₁.handleDeregisterValidator nd tx).balanceOf c = some b := by
    rw [balanceOf_handleDeregisterValidator, balanceOf_congr hobjects, hb]
  have htakes := StakeTakes.of_lower hb₁ hb₂ (UInt64.lt_of_le_of_lt hle hlt)
  obtain ⟨st', b₃, hstep, -⟩ := htakes.lower hb₁
  -- A transaction that moves stake registers nobody.
  obtain rfl := hst₁ hstep.not_register
  exact StakeTakes.deregister.1 htakes

theorem StakeTakes.settled {split : FeeSplit} (h : st.StakeTakes nd tx st.balanceOf c b)
    (hb : st.balanceOf c = some b) (hgas : tx.txGasCoinID ≠ some c)
    (hown : st.validateMutableRefOwnership atx tx = true) :
    ∃ b', (st.settled nd tx atx split).balanceOf c = some b' ∧ b' < b := by
  have hb₁ : (st.handleDeregisterValidator nd tx).balanceOf c = some b := by
    rw [balanceOf_handleDeregisterValidator, hb]
  obtain ⟨st', b', hstep, hb', hlt⟩ := (StakeTakes.deregister.2 h).lower hb₁
  refine ⟨b', ?_, hlt⟩
  rcases st.settled_cases nd tx atx split with ⟨-, hno | hreg⟩ | ⟨-, st₁, hreg, hset⟩
  · simp [hown] at hno
  · simp [hstep.not_register] at hreg
  · obtain rfl := (handleRegisterValidator_ok hreg).2.2.2.2.2 hstep.not_register
    have hstaked : st₁.staked nd tx = st' := hstep.handleStake_eq
    rcases hset with heq | heq
    · rw [heq, hstaked, hb']
    · rw [heq, SameBodies.balanceOf_eq (.settleDeletions _ _ _ _) hgas, hstaked, hb']

/-! ## The whole transaction -/

/-- The ledger a transaction leaves before a pod runs. -/
def prepared (st : Ledger) (nd : Node) (atx : AttestedTransaction) (commitRound : Nat)
    (verdict : Option ProofError) : Ledger :=
  match st.prepareTx nd atx commitRound verdict with
  | .error out => out.ledger
  | .ok (_, st, _, _) => st

theorem prepared_cases (st : Ledger) (nd : Node) (atx : AttestedTransaction)
    (commitRound : Nat) (verdict : Option ProofError) :
    ((st.prepared nd atx commitRound verdict).objects = st.objects ∧
        ∀ tx, ¬ st.Admits nd atx commitRound verdict tx) ∨
      ∃ tx, st.Admits nd atx commitRound verdict tx ∧
        let fees := (st.admitted tx).deductFees nd tx atx
        (NoDebit fees.ledger (st.prepared nd atx commitRound verdict) ∧
            (fees.proceed = false ∨ tx.operations ≠ [])) ∨
          (fees.proceed = true ∧ tx.operations = [] ∧
            st.prepared nd atx commitRound verdict =
              fees.ledger.settled nd tx atx fees.split) := by
  unfold prepared
  rcases st.prepareTx_cases nd atx commitRound verdict with
    ⟨marks, exit, -, heq, hno⟩ | ⟨tx, hadm, hstages⟩
  · exact .inl ⟨by rw [heq], hno⟩
  refine .inr ⟨tx, hadm, ?_⟩
  rcases hstages with ⟨hproceed, heq⟩ | ⟨-, hops, heq⟩ | ⟨hproceed, hops, heq⟩
  · exact .inl ⟨by rw [heq]; exact .refl _, .inl hproceed⟩
  · refine .inl ⟨?_, .inr hops⟩
    simp only [heq, commitDeclaredOps]
    split_ifs
    · exact .refl _
    · cases happly : (st.feeStage nd tx atx).ledger.handleDeclaredOps
          nd.feeParams tx (UInt64.ofNat (nd.epochs.commitEpochForRound commitRound)) with
      | none => exact .refl _
      | some st' => exact .handleDeclaredOps happly
  · refine .inr ⟨hproceed, hops, ?_⟩
    simp only [heq, settled]
    cases (st.feeStage nd tx atx).ledger.settleTx nd tx atx
      (st.feeStage nd tx atx).split <;> rfl

theorem balanceOf_admitted (st : Ledger) (tx : Transaction) :
    (st.admitted tx).balanceOf = st.balanceOf := balanceOf_congr (admitted_objects ..)

theorem totalFee_admitted (st : Ledger) (nd : Node) (tx : Transaction) (atx : AttestedTransaction) :
    (st.admitted tx).totalFee nd tx atx = st.totalFee nd tx atx := by
  simp [totalFee, feeParts]

theorem feeClears_admitted : (st.admitted tx).FeeClears nd tx atx ↔ st.FeeClears nd tx atx := by
  have hvalid : ∀ coin, (st.admitted tx).validateGasCoin tx coin = st.validateGasCoin tx coin := by
    simp [validateGasCoin, getObject]
  simp only [FeeClears, hvalid, balanceOf_admitted, totalFee_admitted]

theorem spendable_admitted (st : Ledger) (nd : Node) (tx : Transaction)
    (atx : AttestedTransaction) :
    (st.admitted tx).spendable nd tx atx = st.spendable nd tx atx := by
  funext id
  simp only [spendable, balanceOf_admitted, totalFee_admitted]

/-- After a fee that clears, the stake handlers have the ledger from before the
transaction with the fee off the gas coin. -/
theorem stakeTakes_deductFees (h : st.FeeClears nd tx atx) :
    let charged := (st.feeStage nd tx atx).ledger
    charged.StakeTakes nd tx charged.balanceOf c b ↔
      st.StakeTakes nd tx (st.spendable nd tx atx) c b := by
  have hvalidators : (st.feeStage nd tx atx).ledger.validators =
      st.validators := by
    rw [((st.admitted tx).deductFees_frame nd tx atx).2, admitted_validators]
  have hbalance : (st.feeStage nd tx atx).ledger.balanceOf =
      st.spendable nd tx atx := by
    rw [(deductFees_of_feeClears (feeClears_admitted.2 h)).2, spendable_admitted]
  have hget : ∀ id, (st.admitted tx).getObject id = st.getObject id := by
    simp [getObject]
  constructor
  · refine fun htakes => htakes.congr hvalidators.symm hbalance.symm fun coin o ho hrep => ?_
    rcases (st.admitted tx).getObject_deductFees nd tx atx with
      hsame | ⟨gas, g, balance, taken, hgas, -, hcharged⟩
    · exact ⟨o, by rw [← hget, ← hsame, ho], hrep⟩
    · rw [hcharged] at ho
      split_ifs at ho with hid
      · exact ⟨g, by rw [hid, ← hget, hgas.stored], hgas.singleton⟩
      · exact ⟨o, by rw [← hget, ho], hrep⟩
  · refine fun htakes => htakes.congr hvalidators hbalance fun coin o ho hrep => ?_
    rcases (st.admitted tx).getObject_deductFees nd tx atx with
      hsame | ⟨gas, g, balance, taken, hgas, -, hcharged⟩
    · exact ⟨o, by rw [hsame, hget, ho], hrep⟩
    · by_cases hid : coin = gas
      · exact ⟨g.withBalance (balance - taken), by rw [hcharged, if_pos hid], hgas.singleton⟩
      · exact ⟨o, by rw [hcharged, if_neg hid, hget, ho], hrep⟩

end Ledger

end BluePods
