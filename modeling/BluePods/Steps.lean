import BluePods.Commit

/-! What each step of the commit path can do, stated once. The results on debits, supply
and attested copies are read off these. -/

namespace BluePods
namespace Ledger

variable {st st' : Ledger} {coin : Hash} {o : Object} {amount : UInt64} {tx : Transaction}
  {atx : AttestedTransaction} {nd : Node} {fn : Bytes}

/-! ## Coins -/

theorem getObject_setBalance (h : st.getObject coin = some o) (b : UInt64) (id : Hash) :
    (st.setObject (o.withBalance b)).getObject id =
      if id = coin then some (o.withBalance b) else st.getObject id := by
  have hid := ObjectStore.objectID_of_get h
  simp only [getObject, setObject, ObjectStore.get_set, Object.objectID_withBalance, hid]

variable {fee balance : UInt64} {commitRound : Nat} {verdict : Option ProofError} {id : Hash}

theorem deductCoinFee_ok {taken : UInt64} {full : Bool}
    (h : st.deductCoinFee coin fee = .ok (st', taken, full)) :
    ∃ o balance, st.getObject coin = some o ∧ o.balance = some balance ∧ taken ≤ balance ∧
      st' = (st.setObject (o.withBalance (balance - taken))).subCoins taken ∧
      (full = true → taken = fee) := by
  unfold deductCoinFee at h
  split at h
  · simp at h
  · rename_i o ho
    split at h
    · simp at h
    · rename_i balance hb
      split at h
      · rename_i hle
        simp only [Except.ok.injEq, Prod.mk.injEq] at h
        obtain ⟨rfl, rfl, rfl⟩ := h
        exact ⟨o, balance, ho, hb, hle, rfl, fun _ => rfl⟩
      · simp only [Except.ok.injEq, Prod.mk.injEq] at h
        obtain ⟨rfl, rfl, rfl⟩ := h
        exact ⟨o, balance, ho, hb, UInt64.le_refl _, by simp, by simp⟩

theorem deductCoinFee_of_le (ho : st.getObject coin = some o) (hb : o.balance = some balance)
    (h : fee ≤ balance) :
    st.deductCoinFee coin fee =
      .ok ((st.setObject (o.withBalance (balance - fee))).subCoins fee, fee, true) := by
  simp [deductCoinFee, ho, hb, h]

theorem creditCoin_ok (h : st.creditCoin coin amount = .ok st') :
    amount = 0 ∧ st' = st ∨
      ∃ o balance, st.getObject coin = some o ∧ o.balance = some balance ∧
        balance ≤ balance + amount ∧
        st' = (st.setObject (o.withBalance (balance + amount))).addCoins amount := by
  unfold creditCoin at h
  split at h
  · rename_i h0
    exact .inl ⟨h0, (Except.ok.inj h).symm⟩
  · split at h
    · simp at h
    · rename_i o ho
      split at h
      · simp at h
      · rename_i balance hb
        split at h
        · simp at h
        · rename_i hle
          exact .inr ⟨o, balance, ho, hb, UInt64.not_lt.1 hle, (Except.ok.inj h).symm⟩

theorem strictDebit_some (h : st.strictDebit coin amount = some st') :
    ∃ o balance, st.getObject coin = some o ∧ o.replication = 0 ∧ o.balance = some balance ∧
      amount ≤ balance ∧
      st' = (st.setObject (o.withBalance (balance - amount))).subCoins amount := by
  unfold strictDebit at h
  split at h
  · simp at h
  · rename_i o ho
    split at h
    · simp at h
    · rename_i hrep
      split at h
      · simp at h
      · rename_i balance hb
        split at h
        · simp at h
        · rename_i hle
          exact ⟨o, balance, ho, by simpa using hrep, hb, UInt64.not_lt.1 hle,
            (Option.some.inj h).symm⟩

theorem strictDebit_validators (h : st.strictDebit coin amount = some st') :
    st'.validators = st.validators := by
  obtain ⟨o, balance, -, -, -, -, rfl⟩ := strictDebit_some h
  simp

theorem strictDebit_of_le (ho : st.getObject coin = some o) (hrep : o.replication = 0)
    (hb : o.balance = some balance) (h : amount ≤ balance) :
    st.strictDebit coin amount =
      some ((st.setObject (o.withBalance (balance - amount))).subCoins amount) := by
  simp [strictDebit, ho, hrep, hb, UInt64.not_lt.2 h]

/-! ## Fees -/

/-- The gas coin of a transaction that may be charged. -/
structure GasCoin (st : Ledger) (nd : Node) (tx : Transaction) (coin : Hash) (o : Object)
    (balance : UInt64) : Prop where
  declared : tx.txGasCoinID = some coin
  minGas : nd.feeParams.minGas ≤ tx.maxGas
  stored : st.getObject coin = some o
  singleton : o.replication = 0
  owner : ∃ payer, hash32 tx.payer = some payer ∧ hash32 o.owner = some payer
  balance : o.balance = some balance

theorem validateGasCoin_eq_true :
    st.validateGasCoin tx coin = true ↔
      ∃ o, st.getObject coin = some o ∧ o.replication = 0 ∧
        ∃ payer, hash32 tx.payer = some payer ∧ hash32 o.owner = some payer := by
  unfold validateGasCoin
  cases ho : st.getObject coin with
  | none => simp
  | some o =>
    by_cases hrep : o.replication = 0
    · cases how : hash32 o.owner <;> cases hp : hash32 tx.payer <;>
        simp [hrep, how]
    · simp [hrep]

/-- The fee of a transaction against this ledger's validator count: the pooled part and
the withheld deposit. -/
def feeParts (st : Ledger) (nd : Node) (tx : Transaction) (atx : AttestedTransaction) :
    UInt64 × UInt64 :=
  calculateTxFeeSplit nd.computeHolders nd.feeParams st.validators.len tx atx

section

variable (st : Ledger) (nd : Node) (tx : Transaction) (atx : AttestedTransaction)

theorem toNat_feeParts_add :
    ((st.feeParts nd tx atx).1 + (st.feeParts nd tx atx).2).toNat =
      (st.feeParts nd tx atx).1.toNat + (st.feeParts nd tx atx).2.toNat := by
  have h := calculateTxFeeSplit_add nd.computeHolders nd.feeParams st.validators.len tx atx
  have hlt := (calculateTxFee nd.computeHolders nd.feeParams st.validators.len tx atx).toNat_lt
  rw [UInt64.toNat_add, Nat.mod_eq_of_lt]
  simp only [feeParts]
  omega

/-- The three ways out of the fee stage: nothing is touched, the fee is paid in full, or
the coin is drained and the transaction rejected. -/
theorem deductFees_cases :
    (∃ proceed, st.deductFees nd tx atx = { ledger := st, proceed }) ∨
      ∃ coin o balance taken, st.GasCoin nd tx coin o balance ∧ taken ≤ balance ∧
        let ledger := (st.setObject (o.withBalance (balance - taken))).subCoins taken
        (taken = (st.feeParts nd tx atx).1 + (st.feeParts nd tx atx).2 ∧
            st.deductFees nd tx atx =
              { ledger, split := splitFee (st.feeParts nd tx atx).1 nd.feeParams,
                withheld := (st.feeParts nd tx atx).2, proceed := true }) ∨
          ∃ total, st.deductFees nd tx atx =
            { ledger, split := { total, epoch := taken }, proceed := false } := by
  unfold deductFees
  cases hcoin : tx.txGasCoinID with
  | none => exact .inl ⟨_, rfl⟩
  | some coin =>
    simp only
    by_cases hmin : tx.maxGas < nd.feeParams.minGas
    · exact .inl ⟨false, by simp [hmin]⟩
    by_cases hgas : st.validateGasCoin tx coin = true
    swap
    · exact .inl ⟨false, by simp [hmin, hgas]⟩
    obtain ⟨o, ho, hrep, howner⟩ := validateGasCoin_eq_true.1 hgas
    simp only [hmin, hgas, if_false, Bool.not_true, Bool.false_eq_true]
    split
    · exact .inl ⟨true, rfl⟩
    · split
      · exact .inl ⟨false, rfl⟩
      · rename_i st' taken full hded
        obtain ⟨o', balance, ho', hb, hle, rfl, hfull⟩ := deductCoinFee_ok hded
        obtain rfl : o = o' := by simpa using ho.symm.trans ho'
        refine .inr ⟨coin, o, balance, taken,
          ⟨hcoin, UInt64.not_lt.1 hmin, ho, hrep, howner, hb⟩, hle, ?_⟩
        cases full with
        | true => exact .inl ⟨hfull rfl, rfl⟩
        | false => exact .inr ⟨_, rfl⟩

theorem deductFees_ledger :
    (st.deductFees nd tx atx).ledger = st ∨
      ∃ coin o balance taken, st.GasCoin nd tx coin o balance ∧ taken ≤ balance ∧
        (st.deductFees nd tx atx).ledger =
          (st.setObject (o.withBalance (balance - taken))).subCoins taken := by
  rcases st.deductFees_cases nd tx atx with
    ⟨proceed, heq⟩ | ⟨coin, o, balance, taken, hgas, hle, ⟨-, heq⟩ | ⟨total, heq⟩⟩
  · exact .inl (by rw [heq])
  · exact .inr ⟨coin, o, balance, taken, hgas, hle, by rw [heq]⟩
  · exact .inr ⟨coin, o, balance, taken, hgas, hle, by rw [heq]⟩

theorem getObject_deductFees :
    (∀ id, (st.deductFees nd tx atx).ledger.getObject id = st.getObject id) ∨
      ∃ coin o balance taken, st.GasCoin nd tx coin o balance ∧ taken ≤ balance ∧
        ∀ id, (st.deductFees nd tx atx).ledger.getObject id =
          if id = coin then some (o.withBalance (balance - taken)) else st.getObject id := by
  rcases st.deductFees_ledger nd tx atx with heq | ⟨coin, o, balance, taken, hgas, hle, heq⟩
  · exact .inl fun id => by rw [heq]
  · exact .inr ⟨coin, o, balance, taken, hgas, hle, fun id => by
      rw [heq, ← getObject_setBalance hgas.stored]; simp [getObject]⟩

theorem deductFees_domains : (st.deductFees nd tx atx).ledger.domains = st.domains := by
  rcases st.deductFees_ledger nd tx atx with heq | ⟨_, _, _, _, -, -, heq⟩
  · rw [heq]
  · rw [heq]
    rfl

theorem deductFees_frame :
    (st.deductFees nd tx atx).ledger.tracker = st.tracker ∧
      (st.deductFees nd tx atx).ledger.validators = st.validators := by
  rcases st.deductFees_ledger nd tx atx with heq | ⟨_, _, _, _, -, -, heq⟩ <;> simp [heq]

end

/-- The ownership check reads the ledger through the owners it finds. -/
theorem validateMutableRefOwnership_congr (tx : Transaction)
    (h : ∀ id, st'.mutableRefOwner atx id = st.mutableRefOwner atx id) :
    st'.validateMutableRefOwnership atx tx = st.validateMutableRefOwnership atx tx := by
  have href : st'.mutableRefOwnedBy atx = st.mutableRefOwnedBy atx := by
    funext sender r
    simp only [mutableRefOwnedBy, h]
  simp only [validateMutableRefOwnership, href]


/-- Ownership does not depend on balances. -/
theorem validateMutableRefOwnership_deductFees (st : Ledger) (nd : Node) (tx : Transaction)
    (atx : AttestedTransaction) :
    (st.deductFees nd tx atx).ledger.validateMutableRefOwnership atx tx =
      st.validateMutableRefOwnership atx tx := by
  refine validateMutableRefOwnership_congr tx fun id => ?_
  unfold mutableRefOwner
  rcases st.getObject_deductFees nd tx atx with hsame | ⟨coin, o, balance, taken, hgas, -, hget⟩
  · rw [hsame]
  · rw [hget]
    by_cases hid : id = coin
    · simp [hid, hgas.stored]
    · simp [hid]

/-! ## Stake handlers -/

private theorem toOption_eq_some {ε α : Type*} {x : Except ε α} {a : α} :
    x.toOption = some a ↔ x = .ok a := by
  cases x <;> simp [Except.toOption]

theorem handleBond_some (h : st.handleBond nd tx = some st') :
    ∃ sender coin amount v st₁, parseStakeTx nd tx bondFunc = some (sender, coin, amount) ∧
      st.validators.get sender = some v ∧ nd.minStake ≤ safeAdd v.selfStake amount ∧
      st.strictDebit coin amount = some st₁ ∧
      st' = { st₁ with
        validators := st₁.validators.setSelfStake sender (safeAdd v.selfStake amount) } := by
  simp [handleBond, Option.bind_eq_some_iff, -Subtype.exists, -Prod.exists] at h
  obtain ⟨⟨sender, coin, amount⟩, hparse, v, hv, hmin, st₁, hst₁, rfl⟩ := h
  exact ⟨sender, coin, amount, v, st₁, hparse, hv, hmin, hst₁, rfl⟩

theorem handleUnbond_some (h : st.handleUnbond nd tx = some st') :
    ∃ sender coin amount v st₁, parseStakeTx nd tx unbondFunc = some (sender, coin, amount) ∧
      st.validators.get sender = some v ∧ amount ≤ v.selfStake ∧
      st.creditCoin coin amount = .ok st₁ ∧
      st' = { st₁ with
        validators := st₁.validators.setSelfStake sender (v.selfStake - amount) } := by
  simp [handleUnbond, Option.bind_eq_some_iff, toOption_eq_some, -Subtype.exists,
    -Prod.exists] at h
  obtain ⟨⟨sender, coin, amount⟩, hparse, v, hv, hle, -, st₁, hst₁, rfl⟩ := h
  exact ⟨sender, coin, amount, v, st₁, hparse, hv, hle, hst₁, rfl⟩

theorem handleDelegate_some (h : st.handleDelegate nd tx = some st') :
    ∃ delegator coin validator amount v st₁,
      parseDelegateTx nd tx delegateFunc true = some (delegator, coin, validator, amount) ∧
      st.validators.get validator = some v ∧ v.jailed = false ∧
      st.strictDebit coin amount = some st₁ ∧
      st' = { st₁.setObject (buildDelegationObject nd.crypto delegator validator amount) with
        validators := st₁.validators.addDelegated validator amount } := by
  simp [handleDelegate, Option.bind_eq_some_iff, -Subtype.exists, -Prod.exists] at h
  obtain ⟨⟨delegator, coin, validator, amount⟩, hparse, v, hv, hfree, st₁, hst₁, rfl⟩ := h
  exact ⟨delegator, coin, validator, amount, v, st₁, hparse, hv, hfree, hst₁, rfl⟩

theorem handleUndelegate_some (h : st.handleUndelegate nd tx = some st') :
    ∃ delegator coin validator a amount st₁,
      parseDelegateTx nd tx undelegateFunc false = some (delegator, coin, validator, a) ∧
      st.readDelegationAmount (delegationID nd.crypto delegator validator) validator =
        some amount ∧
      st.creditCoin coin amount = .ok st₁ ∧
      st' = { st₁.deleteObject (delegationID nd.crypto delegator validator) with
        validators := st₁.validators.subDelegated validator amount } := by
  simp [handleUndelegate, Option.bind_eq_some_iff, toOption_eq_some,
    -Subtype.exists, -Prod.exists] at h
  obtain ⟨⟨delegator, coin, validator, a⟩, hparse, amount, hamount, st₁, hst₁, rfl⟩ := h
  exact ⟨delegator, coin, validator, a, amount, st₁, hparse, hamount, hst₁, rfl⟩

theorem parseStakeTx_some {sender : Hash}
    (h : parseStakeTx nd tx fn = some (sender, coin, amount)) :
    nd.isSystemFunc tx fn = true ∧ hash32 tx.sender = some sender ∧
      tx.firstMutableRefID = some coin := by
  simp [parseStakeTx, Option.bind_eq_some_iff, -Subtype.exists] at h
  obtain ⟨hfn, hs, hc, -⟩ := h
  exact ⟨hfn, hs, hc⟩

theorem parseDelegateTx_some {withAmount : Bool} {delegator validator : Hash}
    (h : parseDelegateTx nd tx fn withAmount = some (delegator, coin, validator, amount)) :
    nd.isSystemFunc tx fn = true ∧ hash32 tx.sender = some delegator ∧
      tx.firstMutableRefID = some coin := by
  simp [parseDelegateTx, Option.bind_eq_some_iff, -Subtype.exists] at h
  obtain ⟨hfn, hs, hc, -⟩ := h
  exact ⟨hfn, hs, hc⟩

theorem isSystemFunc_unique {fn' : Bytes} (h : nd.isSystemFunc tx fn = true)
    (h' : nd.isSystemFunc tx fn' = true) : fn = fn' := by
  simp only [Node.isSystemFunc, Bool.and_eq_true, beq_iff_eq] at h h'
  exact h.2.symm.trans h'.2

/-- The function a stake handler that applies was called by. -/
inductive StakeStep (st : Ledger) (nd : Node) (tx : Transaction) (st' : Ledger) : Prop
  | bond (h : st.handleBond nd tx = some st')
  | unbond (h : st.handleUnbond nd tx = some st')
  | delegate (h : st.handleDelegate nd tx = some st')
  | undelegate (h : st.handleUndelegate nd tx = some st')

theorem handleBond_func (h : st.handleBond nd tx = some st') :
    nd.isSystemFunc tx bondFunc = true := by
  obtain ⟨_, _, _, _, _, hparse, -⟩ := handleBond_some h
  exact (parseStakeTx_some hparse).1

theorem handleUnbond_func (h : st.handleUnbond nd tx = some st') :
    nd.isSystemFunc tx unbondFunc = true := by
  obtain ⟨_, _, _, _, _, hparse, -⟩ := handleUnbond_some h
  exact (parseStakeTx_some hparse).1

theorem handleDelegate_func (h : st.handleDelegate nd tx = some st') :
    nd.isSystemFunc tx delegateFunc = true := by
  obtain ⟨_, _, _, _, _, _, hparse, -⟩ := handleDelegate_some h
  exact (parseDelegateTx_some hparse).1

theorem handleUndelegate_func (h : st.handleUndelegate nd tx = some st') :
    nd.isSystemFunc tx undelegateFunc = true := by
  obtain ⟨_, _, _, _, _, _, hparse, -⟩ := handleUndelegate_some h
  exact (parseDelegateTx_some hparse).1

/-- A handler does nothing for a transaction that calls another function. -/
theorem eq_none_of_other {handle : Option Ledger} {own other : Bytes}
    (hown : ∀ st', handle = some st' → nd.isSystemFunc tx own = true)
    (hother : nd.isSystemFunc tx other = true) (hne : own ≠ other) : handle = none := by
  cases h : handle with
  | none => rfl
  | some st' => exact absurd (isSystemFunc_unique (hown st' h) hother) hne

/-- The handler that applies is the only one that does anything. -/
theorem StakeStep.handleStake_eq (h : StakeStep st nd tx st') : st.handleStake nd tx = st' := by
  simp only [handleStake]
  cases h with
  | bond h =>
    have hf := handleBond_func h
    rw [h, Option.getD_some, eq_none_of_other (fun _ => handleUnbond_func) hf (by decide),
      Option.getD_none, eq_none_of_other (fun _ => handleDelegate_func) hf (by decide),
      Option.getD_none, eq_none_of_other (fun _ => handleUndelegate_func) hf (by decide),
      Option.getD_none]
  | unbond h =>
    have hf := handleUnbond_func h
    rw [eq_none_of_other (fun _ => handleBond_func) hf (by decide), Option.getD_none, h,
      Option.getD_some, eq_none_of_other (fun _ => handleDelegate_func) hf (by decide),
      Option.getD_none, eq_none_of_other (fun _ => handleUndelegate_func) hf (by decide),
      Option.getD_none]
  | delegate h =>
    have hf := handleDelegate_func h
    rw [eq_none_of_other (fun _ => handleBond_func) hf (by decide), Option.getD_none,
      eq_none_of_other (fun _ => handleUnbond_func) hf (by decide), Option.getD_none, h,
      Option.getD_some, eq_none_of_other (fun _ => handleUndelegate_func) hf (by decide),
      Option.getD_none]
  | undelegate h =>
    have hf := handleUndelegate_func h
    rw [eq_none_of_other (fun _ => handleBond_func) hf (by decide), Option.getD_none,
      eq_none_of_other (fun _ => handleUnbond_func) hf (by decide), Option.getD_none,
      eq_none_of_other (fun _ => handleDelegate_func) hf (by decide), Option.getD_none, h,
      Option.getD_some]

/-- At most one handler applies. -/
theorem handleStake_cases (st : Ledger) (nd : Node) (tx : Transaction) :
    st.handleStake nd tx = st ∨ StakeStep st nd tx (st.handleStake nd tx) := by
  by_cases hstep : ∃ st', StakeStep st nd tx st'
  · obtain ⟨st', hstep⟩ := hstep
    rw [hstep.handleStake_eq]
    exact .inr hstep
  · -- No handler applies, so each leaves the ledger to the next.
    have hnone : ∀ {handle : Option Ledger}, (∀ st', handle = some st' → StakeStep st nd tx st') →
        handle.getD st = st := by
      intro handle hhandle
      cases h : handle with
      | none => rfl
      | some st' => exact absurd ⟨st', hhandle st' h⟩ hstep
    left
    simp only [handleStake]
    rw [hnone fun _ => .bond, hnone fun _ => .unbond, hnone fun _ => .delegate,
      hnone fun _ => .undelegate]

/-- What the stake handlers keep: a debit or credit of the first mutable reference keeps it,
and so do the writes of a position and of a stake. -/
theorem handleStake_rule {P : Ledger → Prop} (hst : P st)
    (hdebit : ∀ coin amount s, tx.firstMutableRefID = some coin →
      st.strictDebit coin amount = some s → P s)
    (hcredit : ∀ coin amount s, tx.firstMutableRefID = some coin →
      st.creditCoin coin amount = .ok s → P s)
    (hset : ∀ delegator coin validator amount s,
      parseDelegateTx nd tx delegateFunc true = some (delegator, coin, validator, amount) →
      st.strictDebit coin amount = some s → P s →
      P (s.setObject (buildDelegationObject nd.crypto delegator validator amount)))
    (hdelete : ∀ s id, P s → P (s.deleteObject id))
    (hstake : ∀ s pubkey g hg, P s →
      P { s with validators := s.validators.modify pubkey g hg }) :
    P (st.handleStake nd tx) := by
  rcases handleStake_cases st nd tx with heq | hstep
  · rwa [heq]
  · generalize st.handleStake nd tx = st' at hstep ⊢
    cases hstep with
    | bond h =>
      obtain ⟨_, coin, amount, _, s, hparse, -, -, hd, rfl⟩ := handleBond_some h
      exact hstake s _ _ _ (hdebit coin amount s (parseStakeTx_some hparse).2.2 hd)
    | unbond h =>
      obtain ⟨_, coin, amount, _, s, hparse, -, -, hc, rfl⟩ := handleUnbond_some h
      exact hstake s _ _ _ (hcredit coin amount s (parseStakeTx_some hparse).2.2 hc)
    | delegate h =>
      obtain ⟨_, coin, _, amount, _, s, hparse, -, -, hd, rfl⟩ := handleDelegate_some h
      have hdebited := hdebit coin amount s (parseDelegateTx_some hparse).2.2 hd
      exact hstake _ _ _ _ (hset _ coin _ amount s hparse hd hdebited)
    | undelegate h =>
      obtain ⟨_, coin, _, _, amount, s, hparse, -, hc, rfl⟩ := handleUndelegate_some h
      have hcredited := hcredit coin amount s (parseDelegateTx_some hparse).2.2 hc
      exact hstake _ _ _ _ (hdelete s _ hcredited)

theorem handleStake_frame (st : Ledger) (nd : Node) (tx : Transaction) :
    (st.handleStake nd tx).tracker = st.tracker ∧ (st.handleStake nd tx).domains = st.domains := by
  refine handleStake_rule (P := fun s => s.tracker = st.tracker ∧ s.domains = st.domains)
    ⟨rfl, rfl⟩ ?_ ?_ (fun _ _ _ _ _ _ _ h => h) (fun _ _ h => h) fun _ _ _ _ h => h
  · intro coin amount s _ h
    obtain ⟨o, balance, -, -, -, -, rfl⟩ := strictDebit_some h
    exact ⟨rfl, rfl⟩
  · intro coin amount s _ h
    rcases creditCoin_ok h with ⟨-, rfl⟩ | ⟨o, balance, -, -, -, rfl⟩ <;> exact ⟨rfl, rfl⟩

theorem handleStake_tracker (st : Ledger) (nd : Node) (tx : Transaction) :
    (st.handleStake nd tx).tracker = st.tracker :=
  (st.handleStake_frame nd tx).1

/-! ## Names -/

theorem applyDomainOp_eq (st : Ledger) (sender : Hash) (epoch maxTerm : UInt64) (op : DeclaredOp) :
    st.applyDomainOp sender epoch maxTerm op =
      { st with domains := (st.applyDomainOp sender epoch maxTerm op).domains } := by
  unfold applyDomainOp applyDomainRegister applyDomainRenew applyDomainUpdate
    applyDomainTransfer applyDomainDelete rewriteDomainLeaf setDomainLeaf
  repeat' split
  all_goals rfl

/-! ## Deletions -/

/-- A settled deletion burns the deposit, or refunds a share to the gas coin and burns
the rest. -/
theorem settleDeletion_cases (st : Ledger) (p : FeeParams) (objID : Hash)
    (gasCoinID : Option Hash) :
    let deposit := st.tracker.getFees objID
    let refund := bpsShare deposit p.storageRefundBPS
    let moved := { st with tracker := st.tracker.deleteObject objID }
    deposit = 0 ∧ (st.settleDeletion p objID gasCoinID).1 = moved ∨
      (st.settleDeletion p objID gasCoinID).1 = moved.subSupply deposit ∨
      ∃ coin st₁, gasCoinID = some coin ∧ moved.creditCoin coin refund = .ok st₁ ∧
        (st.settleDeletion p objID gasCoinID).1 = st₁.subSupply (deposit - refund) := by
  unfold settleDeletion
  simp only
  split
  · rename_i hzero
    exact .inl ⟨hzero, rfl⟩
  · refine .inr ?_
    split
    · exact .inl rfl
    · rename_i coin
      split
      · exact .inl rfl
      · split
        · exact .inl rfl
        · rename_i st₁ hcredit
          exact .inr ⟨coin, st₁, rfl, hcredit, rfl⟩

theorem settleDeletion_frame (st : Ledger) (p : FeeParams) (id : Hash) (gasCoinID : Option Hash) :
    (st.settleDeletion p id gasCoinID).1.tracker = st.tracker.deleteObject id ∧
      (st.settleDeletion p id gasCoinID).1.domains = st.domains := by
  rcases st.settleDeletion_cases p id gasCoinID with ⟨-, h⟩ | h | ⟨coin, st₁, -, hcredit, h⟩
  · rw [h]
    exact ⟨rfl, rfl⟩
  · rw [h]
    exact ⟨rfl, rfl⟩
  · rw [h]
    rcases creditCoin_ok hcredit with ⟨-, rfl⟩ | ⟨o, balance, -, -, -, rfl⟩
    · exact ⟨rfl, rfl⟩
    · exact ⟨rfl, rfl⟩

/-! ## Registration -/

/-- The registration claims a key it does not prove. -/
def unprovenRegistration (nd : Node) (tx : Transaction) : Bool :=
  nd.isSystemFunc tx registerValidatorFunc &&
    match hash32 tx.sender, decodeRegisterValidatorArgs tx.args with
    | some pubkey, some args =>
      (verifiedRegistrationBLSKey nd.crypto pubkey args.blsPubkey args.blsPoP).isNone
    | _, _ => false

theorem handleRegisterValidator_blsPoPInvalid :
    st.handleRegisterValidator nd tx = .error .blsPoPInvalid ↔
      unprovenRegistration nd tx = true := by
  unfold handleRegisterValidator unprovenRegistration
  cases nd.isSystemFunc tx registerValidatorFunc with
  | false => simp
  | true =>
    cases hash32 tx.sender with
    | none => simp
    | some pubkey =>
      cases decodeRegisterValidatorArgs tx.args with
      | none => simp
      | some args =>
        cases h : verifiedRegistrationBLSKey nd.crypto pubkey args.blsPubkey args.blsPoP <;>
          simp [h]

/-- What a registration that goes through writes. -/
def registered (st : Ledger) (nd : Node) (tx : Transaction) (pubkey : Hash)
    (args : RegisterArgs) (blsPubkey : BLSKey) : Ledger :=
  { st with
    validators :=
      match rewardCoinFromArgs tx args with
      | some coin => (st.validators.add pubkey args.quicAddr blsPubkey).setRewardCoin pubkey coin
      | none => st.validators.add pubkey args.quicAddr blsPubkey
    committedMembers :=
      if decide (pubkey ∈ st.committedMembers) then st.committedMembers
      else st.committedMembers ++ [pubkey]
    epochAdditions :=
      if !decide (pubkey ∈ st.committedMembers) && nd.epochs.epochLength > 0 then
        st.epochAdditions ++ [pubkey]
      else st.epochAdditions }

/-- The sender registers with these arguments, under a key it proves. -/
structure Registers (nd : Node) (tx : Transaction) (pubkey : Hash) (args : RegisterArgs)
    (blsPubkey : BLSKey) : Prop where
  call : nd.isSystemFunc tx registerValidatorFunc = true
  sender : hash32 tx.sender = some pubkey
  decoded : decodeRegisterValidatorArgs tx.args = some args
  proven : verifiedRegistrationBLSKey nd.crypto pubkey args.blsPubkey args.blsPoP = some blsPubkey

theorem Registers.handle {pubkey : Hash} {args : RegisterArgs} {blsPubkey : BLSKey}
    (h : Registers nd tx pubkey args blsPubkey) (st : Ledger) :
    st.handleRegisterValidator nd tx = .ok (st.registered nd tx pubkey args blsPubkey) := by
  simp only [handleRegisterValidator, h.call, h.sender, h.decoded, h.proven]
  rfl

/-- Whether a registration is idle, refused or carried out is up to the transaction. -/
theorem handleRegisterValidator_cases (nd : Node) (tx : Transaction) :
    (∀ st : Ledger, st.handleRegisterValidator nd tx = .ok st) ∨
      (∃ e, ∀ st : Ledger, st.handleRegisterValidator nd tx = .error e) ∨
      ∃ pubkey args blsPubkey, Registers nd tx pubkey args blsPubkey := by
  unfold handleRegisterValidator
  cases call : nd.isSystemFunc tx registerValidatorFunc with
  | false => exact .inl fun st => rfl
  | true =>
    cases sender : hash32 tx.sender with
    | none => exact .inl fun st => rfl
    | some pubkey =>
      cases decoded : decodeRegisterValidatorArgs tx.args with
      | none => exact .inr (.inl ⟨.panicked, fun st => rfl⟩)
      | some args =>
        cases proven : verifiedRegistrationBLSKey nd.crypto pubkey args.blsPubkey args.blsPoP with
        | none => exact .inr (.inl ⟨.blsPoPInvalid, fun st => by simp [proven]⟩)
        | some bls => exact .inr (.inr ⟨pubkey, args, bls, call, sender, decoded, proven⟩)

section

variable (h : st.handleRegisterValidator nd tx = .ok st')

include h

theorem handleRegisterValidator_inv :
    st' = st ∨ ∃ pubkey args blsPubkey, Registers nd tx pubkey args blsPubkey ∧
      st' = st.registered nd tx pubkey args blsPubkey := by
  rcases handleRegisterValidator_cases nd tx with hidle | ⟨e, herr⟩ | ⟨pubkey, args, bls, hr⟩
  · rw [hidle] at h
    exact .inl (Except.ok.inj h).symm
  · rw [herr] at h
    cases h
  · rw [hr.handle] at h
    exact .inr ⟨pubkey, args, bls, hr, (Except.ok.inj h).symm⟩

theorem handleRegisterValidator_ok :
    st'.objects = st.objects ∧ st'.tracker = st.tracker ∧ st'.totalSupply = st.totalSupply ∧
      st'.coinsTotal = st.coinsTotal ∧ st'.validators.bonded = st.validators.bonded ∧
      (nd.isSystemFunc tx registerValidatorFunc = false → st' = st) := by
  rcases handleRegisterValidator_inv h with rfl | ⟨pubkey, args, bls, hr, rfl⟩
  · simp
  · refine ⟨rfl, rfl, rfl, rfl, ?_, fun hno => absurd hr.call (by simp [hno])⟩
    unfold registered
    dsimp only
    split
    · rw [ValidatorSet.bonded_setRewardCoin, ValidatorSet.bonded_add]
    · rw [ValidatorSet.bonded_add]

theorem handleRegisterValidator_domains : st'.domains = st.domains := by
  rcases handleRegisterValidator_inv h with rfl | ⟨_, _, _, -, rfl⟩ <;> rfl

end

theorem StakeStep.not_calls (h : StakeStep st nd tx st')
    (hfn : fn ∉ [bondFunc, unbondFunc, delegateFunc, undelegateFunc]) :
    nd.isSystemFunc tx fn = false := by
  rw [Bool.eq_false_iff]
  intro hcall
  simp only [List.mem_cons, not_or] at hfn
  cases h with
  | bond h => exact hfn.1 (isSystemFunc_unique hcall (handleBond_func h))
  | unbond h => exact hfn.2.1 (isSystemFunc_unique hcall (handleUnbond_func h))
  | delegate h => exact hfn.2.2.1 (isSystemFunc_unique hcall (handleDelegate_func h))
  | undelegate h => exact hfn.2.2.2.1 (isSystemFunc_unique hcall (handleUndelegate_func h))

theorem StakeStep.not_register (h : StakeStep st nd tx st') :
    nd.isSystemFunc tx registerValidatorFunc = false :=
  h.not_calls (by decide)

theorem handleDeregisterValidator_eq (st : Ledger) (nd : Node) (tx : Transaction) :
    st.handleDeregisterValidator nd tx =
      { st with pendingRemovals := (st.handleDeregisterValidator nd tx).pendingRemovals } := by
  unfold handleDeregisterValidator
  repeat' split
  all_goals rfl

theorem handleDeregisterValidator_objects (st : Ledger) (nd : Node) (tx : Transaction) :
    (st.handleDeregisterValidator nd tx).objects = st.objects := by
  rw [handleDeregisterValidator_eq]

/-! ## Admission -/

/-- The transaction passes every gate before the fee. -/
structure Admits (st : Ledger) (nd : Node) (atx : AttestedTransaction) (commitRound : Nat)
    (verdict : Option ProofError) (tx : Transaction) : Prop where
  transaction : atx.transaction = some tx
  proofs : verdict = none
  authentic : verifyTxAuthenticity nd.crypto nd.unsignedTxBytes tx = .ok ()
  shape : validateShape tx = .ok ()
  sponsor : sponsoredTxStillValid nd tx commitRound = true
  fresh : st.wasCommitted tx = false
  versions : st.tracker.checkVersions tx = true

theorem Admits.not_txHasPodCall (h : st.Admits nd atx commitRound verdict tx)
    (hops : tx.operations ≠ []) : ¬ tx.txHasPodCall = true := by
  intro hpod
  have hshape := h.shape
  rw [validateShape, if_neg (mt List.length_eq_zero_iff.1 hops), if_pos hpod] at hshape
  cases hshape

/-- The ledger behind the gates: the hash is marked and the versions are raised. -/
def admitted (st : Ledger) (tx : Transaction) : Ledger :=
  { st.markCommitted tx with tracker := st.tracker.incrementMutableObjects tx }

/-- The fee stage of an admitted transaction. -/
abbrev feeStage (st : Ledger) (nd : Node) (tx : Transaction) (atx : AttestedTransaction) :
    FeeResult :=
  (st.admitted tx).deductFees nd tx atx

theorem markCommitted_eq (st : Ledger) (tx : Transaction) :
    st.markCommitted tx = { st with committedTxs := (st.markCommitted tx).committedTxs } := by
  unfold markCommitted
  split <;> rfl

theorem admitted_eq (st : Ledger) (tx : Transaction) :
    st.admitted tx = { st with
      committedTxs := (st.markCommitted tx).committedTxs
      tracker := st.tracker.incrementMutableObjects tx } := by
  rw [admitted, markCommitted_eq]

@[simp] theorem admitted_objects (st : Ledger) (tx : Transaction) :
    (st.admitted tx).objects = st.objects := by
  rw [admitted_eq]

@[simp] theorem admitted_domains (st : Ledger) (tx : Transaction) :
    (st.admitted tx).domains = st.domains := by
  rw [admitted_eq]

@[simp] theorem admitted_validators (st : Ledger) (tx : Transaction) :
    (st.admitted tx).validators = st.validators := by
  rw [admitted_eq]

@[simp] theorem admitted_coinsTotal (st : Ledger) (tx : Transaction) :
    (st.admitted tx).coinsTotal = st.coinsTotal := by
  rw [admitted_eq]

@[simp] theorem admitted_totalSupply (st : Ledger) (tx : Transaction) :
    (st.admitted tx).totalSupply = st.totalSupply := by
  rw [admitted_eq]

@[simp] theorem admitted_tracker (st : Ledger) (tx : Transaction) :
    (st.admitted tx).tracker = st.tracker.incrementMutableObjects tx := rfl

/-- Neither the gates nor the fee change what the ownership check finds. -/
theorem validateMutableRefOwnership_charged (st : Ledger) (nd : Node) (tx : Transaction)
    (atx : AttestedTransaction) :
    (st.feeStage nd tx atx).ledger.validateMutableRefOwnership atx tx =
      st.validateMutableRefOwnership atx tx := by
  rw [validateMutableRefOwnership_deductFees]
  refine validateMutableRefOwnership_congr tx fun id => ?_
  simp [mutableRefOwner, getObject]

/-- The gates either reject without a charge, or admit. -/
theorem admitTx_cases (st : Ledger) (nd : Node) (atx : AttestedTransaction) (commitRound : Nat)
    (verdict : Option ProofError) :
    (∃ marks exit, exit ≠ .executed ∧ st.admitTx nd atx commitRound verdict =
        .error { ledger := { st with committedTxs := marks }, exit } ∧
        ∀ tx, ¬ st.Admits nd atx commitRound verdict tx) ∨
      ∃ tx, st.Admits nd atx commitRound verdict tx ∧
        st.admitTx nd atx commitRound verdict = .ok (tx, st.admitted tx) := by
  unfold admitTx
  cases htx : atx.transaction with
  | none =>
    exact .inl ⟨st.committedTxs, .nilTx, by decide, rfl, fun tx h => by
      simpa [htx] using h.transaction⟩
  | some tx =>
    simp only
    cases verdict with
    | some e =>
      exact .inl ⟨st.committedTxs, .proofFailed, by decide, rfl, fun _ h => by
        simpa using h.proofs⟩
    | none =>
      have hsame : ∀ {tx'}, st.Admits nd atx commitRound none tx' → tx' = tx := fun h => by
        simpa [htx] using h.transaction.symm
      simp only [Option.isSome_none, Bool.false_eq_true, if_false]
      cases hauth : verifyTxAuthenticity nd.crypto nd.unsignedTxBytes tx with
      | error e =>
        exact .inl ⟨st.committedTxs, .authenticityFailed, by decide, rfl, fun _ h => by
          obtain rfl := hsame h; simpa [hauth] using h.authentic⟩
      | ok _ =>
        cases hshape : validateShape tx with
        | error e =>
          exact .inl ⟨st.committedTxs, .malformedShape, by decide, rfl, fun _ h => by
            obtain rfl := hsame h; simpa [hshape] using h.shape⟩
        | ok _ =>
          cases hsp : sponsoredTxStillValid nd tx commitRound with
          | false =>
            exact .inl ⟨st.committedTxs, .expiredSponsorship, by decide, rfl, fun _ h => by
              obtain rfl := hsame h; simpa [hsp] using h.sponsor⟩
          | true =>
            cases hfresh : st.wasCommitted tx with
            | true =>
              exact .inl ⟨st.committedTxs, .duplicate, by decide, rfl, fun _ h => by
                obtain rfl := hsame h; simpa [hfresh] using h.fresh⟩
            | false =>
              have hmark := markCommitted_eq st tx
              have htracker : (st.markCommitted tx).tracker = st.tracker := by rw [hmark]
              simp only [Bool.not_true, Bool.false_eq_true, if_false, htracker,
                Tracker.checkAndUpdate]
              cases hv : st.tracker.checkVersions tx with
              | false =>
                exact .inl ⟨_, .versionConflict, by decide, by rw [← hmark]; rfl, fun _ h => by
                  obtain rfl := hsame h; simpa [hv] using h.versions⟩
              | true =>
                exact .inr ⟨tx, ⟨htx, rfl, hauth, hshape, hsp, hfresh, hv⟩, rfl⟩

/-! ## Settlement -/

/-- A declared deletion names an object that still has children. -/
def deletesParent (st : Ledger) (tx : Transaction) : Bool :=
  (ownedDeletedRefs tx).any fun id => st.tracker.childCount id ≠ 0

theorem deletesParent_eq_false :
    st.deletesParent tx = false ↔ ∀ id ∈ ownedDeletedRefs tx, st.tracker.childCount id = 0 := by
  simp [deletesParent]

theorem mem_foldl_once {l acc : List Hash}
    (h : id ∈ l.foldl (fun targets id => if id ∈ targets then targets else targets ++ [id]) acc) :
    id ∈ l ∨ id ∈ acc := by
  induction l generalizing acc with
  | nil => exact .inr h
  | cons x rest ih =>
    rcases ih h with hrest | hacc
    · exact .inl (List.mem_cons_of_mem _ hrest)
    · dsimp only at hacc
      split at hacc
      · exact .inr hacc
      · rcases List.mem_append.1 hacc with hacc | hx
        · exact .inr hacc
        · exact .inl (List.mem_singleton.1 hx ▸ List.mem_cons_self)

theorem mutableRefIDs_of_ownedDeletedRefs (h : id ∈ ownedDeletedRefs tx) : id ∈ tx.mutableRefIDs :=
  List.mem_of_mem_filter ((mem_foldl_once h).resolve_right List.not_mem_nil)

/-- Settle a list of deletions in order. -/
def settleDeletions (st : Ledger) (p : FeeParams) (tx : Transaction) (ids : List Hash) : Ledger :=
  ids.foldl (fun st id => (st.settleDeletion p id tx.txGasCoinID).1) st

theorem settleDeletions_frame (st : Ledger) (p : FeeParams) (tx : Transaction) (ids : List Hash) :
    (st.settleDeletions p tx ids).tracker = ids.foldl Tracker.deleteObject st.tracker ∧
      (st.settleDeletions p tx ids).domains = st.domains := by
  unfold settleDeletions
  induction ids generalizing st with
  | nil => exact ⟨rfl, rfl⟩
  | cons id ids ih =>
    obtain ⟨htracker, hdomains⟩ := st.settleDeletion_frame p id tx.txGasCoinID
    obtain ⟨htracker', hdomains'⟩ := ih (st.settleDeletion p id tx.txGasCoinID).1
    exact ⟨by rw [List.foldl_cons, htracker', htracker, List.foldl_cons],
      by rw [List.foldl_cons, hdomains', hdomains]⟩

/-- The ledger behind the registration and stake handlers. -/
def staked (st : Ledger) (nd : Node) (tx : Transaction) : Ledger :=
  (st.handleDeregisterValidator nd tx).handleStake nd tx

section

variable (st : Ledger) (nd : Node) (tx : Transaction)

theorem staked_tracker : (st.staked nd tx).tracker = st.tracker := by
  rw [staked, handleStake_tracker, handleDeregisterValidator_eq]

theorem staked_domains : (st.staked nd tx).domains = st.domains := by
  rw [staked, (handleStake_frame _ nd tx).2, handleDeregisterValidator_eq]

/-- The ways out of the settlement stage, in the order of its checks. -/
theorem settleTx_cases (atx : AttestedTransaction) (split : FeeSplit) :
    (st.validateMutableRefOwnership atx tx = false ∧
        st.settleTx nd tx atx split = .error { ledger := st, split, exit := .ownership }) ∨
      st.validateMutableRefOwnership atx tx = true ∧
        ((st.handleRegisterValidator nd tx = .error .panicked ∧
            st.settleTx nd tx atx split = .error { ledger := st, split, exit := .panicked }) ∨
          (unprovenRegistration nd tx = true ∧
            st.settleTx nd tx atx split =
              .error { ledger := st, split, exit := .blsPoPInvalid }) ∨
          ∃ st₁, st.handleRegisterValidator nd tx = .ok st₁ ∧
            unprovenRegistration nd tx = false ∧
            let st₂ := st₁.staked nd tx
            let st₃ := st₂.settleDeletions nd.feeParams tx (ownedDeletedRefs tx)
            (st₂.deletesParent tx = true ∧ st.settleTx nd tx atx split =
                .error { ledger := st₂, split, exit := .deleteHasChildren }) ∨
              st₂.deletesParent tx = false ∧
                ((tx.createdObjectsReplication = [] ∧ st.settleTx nd tx atx split =
                    .error { ledger := st₃, split, exit := .notHolder }) ∨
                  st.settleTx nd tx atx split = .ok st₃)) := by
  unfold settleTx
  cases hown : st.validateMutableRefOwnership atx tx with
  | false => exact .inl ⟨rfl, rfl⟩
  | true =>
    refine .inr ⟨rfl, ?_⟩
    simp only [Bool.not_true, Bool.false_eq_true, if_false]
    have hunproven := @handleRegisterValidator_blsPoPInvalid st tx nd
    cases hreg : st.handleRegisterValidator nd tx with
    | error e =>
      cases e with
      | panicked => exact .inl ⟨rfl, rfl⟩
      | blsPoPInvalid => exact .inr (.inl ⟨hunproven.1 hreg, rfl⟩)
    | ok st₁ =>
      refine .inr (.inr ⟨st₁, rfl, ?_, ?_⟩)
      · rw [Bool.eq_false_iff]
        intro hc
        simpa [hreg] using hunproven.2 hc
      · simp only [settleDeclaredDeletions, staked]
        cases hdel : deletesParent ((st₁.handleDeregisterValidator nd tx).handleStake nd tx) tx with
        | true =>
          refine .inl ⟨rfl, ?_⟩
          rw [deletesParent] at hdel
          rw [if_pos hdel]
        | false =>
          refine .inr ⟨rfl, ?_⟩
          rw [deletesParent] at hdel
          simp only [hdel, Bool.false_eq_true, if_false]
          split
          · rename_i hskip
            exact .inl ⟨List.length_eq_zero_iff.1 hskip.1, rfl⟩
          · exact .inr rfl

end

/-- The checks between the fee and the pod call let the transaction pass. -/
structure Clears (st : Ledger) (nd : Node) (atx : AttestedTransaction) (tx : Transaction) :
    Prop where
  owned : st.validateMutableRefOwnership atx tx = true
  registers : ∃ st', st.handleRegisterValidator nd tx = .ok st'
  childless : ∀ id ∈ ownedDeletedRefs tx, st.tracker.childCount id = 0

/-- Behind these checks a call that is run here comes to its pod. -/
theorem settleTx_of_clears {st : Ledger} {nd : Node} {atx : AttestedTransaction} {tx : Transaction}
    (h : st.Clears nd atx tx)
    (hruns : tx.createdObjectsReplication ≠ [] ∨ shouldExecute nd atx tx = true)
    (split : FeeSplit) : ∃ st₁, st.settleTx nd tx atx split = .ok st₁ := by
  obtain ⟨howned, ⟨st₁, hreg⟩, hchildless⟩ := h
  have hdel : ((ownedDeletedRefs tx).any fun id =>
      ((st₁.handleDeregisterValidator nd tx).handleStake nd tx).tracker.childCount id ≠ 0) =
      false := by
    refine deletesParent_eq_false.2 fun id hid => ?_
    rw [show ((st₁.handleDeregisterValidator nd tx).handleStake nd tx).tracker = st.tracker from
      (st₁.staked_tracker nd tx).trans (handleRegisterValidator_ok hreg).2.1]
    exact hchildless id hid
  have hskip : ¬ (tx.createdObjectsReplication.length = 0 ∧ !shouldExecute nd atx tx) := by
    rintro ⟨hnone, hother⟩
    rcases hruns with hsome | hrun
    · exact hsome (List.length_eq_zero_iff.1 hnone)
    · simp [hrun] at hother
  refine ⟨((st₁.handleDeregisterValidator nd tx).handleStake nd tx).settleDeletions nd.feeParams tx
    (ownedDeletedRefs tx), ?_⟩
  unfold settleTx settleDeclaredDeletions
  rw [howned, hreg]
  simp only [Bool.not_true, Bool.false_eq_true, if_false, hdel]
  rw [if_neg hskip]
  rfl

/-- The gates and the fee do not decide what these checks find. -/
theorem clears_feeStage (st : Ledger) (nd : Node) (tx : Transaction) (atx : AttestedTransaction) :
    (st.feeStage nd tx atx).ledger.Clears nd atx tx ↔ st.Clears nd atx tx := by
  have hregisters : ∀ st st' : Ledger, (∃ s, st.handleRegisterValidator nd tx = .ok s) →
      ∃ s, st'.handleRegisterValidator nd tx = .ok s := by
    rintro st st' ⟨s, hs⟩
    rcases handleRegisterValidator_cases nd tx with h | ⟨e, h⟩ | ⟨_, _, _, h⟩
    · exact ⟨st', h st'⟩
    · rw [h] at hs
      cases hs
    · exact ⟨_, h.handle st'⟩
  have hcounts : ∀ id, (st.feeStage nd tx atx).ledger.tracker.childCount id =
      st.tracker.childCount id := by
    intro id
    rw [((st.admitted tx).deductFees_frame nd tx atx).1, admitted_tracker,
      Tracker.childCount_incrementMutableObjects]
  have howned := st.validateMutableRefOwnership_charged nd tx atx
  constructor
  · rintro ⟨h, hreg, hchildless⟩
    exact ⟨howned ▸ h, hregisters _ _ hreg, fun id hid => hcounts id ▸ hchildless id hid⟩
  · rintro ⟨h, hreg, hchildless⟩
    exact ⟨howned.trans h, hregisters _ _ hreg,
      fun id hid => (hcounts id).trans (hchildless id hid)⟩

/-- The ways to the pod call: rejected at the gates, rejected at the fee, declared
operations, or the settlement stage. -/
theorem prepareTx_cases (st : Ledger) (nd : Node) (atx : AttestedTransaction)
    (commitRound : Nat) (verdict : Option ProofError) :
    (∃ marks exit, exit ≠ .executed ∧ st.prepareTx nd atx commitRound verdict =
        .error { ledger := { st with committedTxs := marks }, exit } ∧
        ∀ tx, ¬ st.Admits nd atx commitRound verdict tx) ∨
      ∃ tx, st.Admits nd atx commitRound verdict tx ∧
        let fees := (st.admitted tx).deductFees nd tx atx
        (fees.proceed = false ∧ st.prepareTx nd atx commitRound verdict =
            .error { ledger := fees.ledger, split := fees.split, exit := .feeRejected }) ∨
          (fees.proceed = true ∧ tx.operations ≠ [] ∧
            st.prepareTx nd atx commitRound verdict = .error (fees.ledger.commitDeclaredOps nd
              tx commitRound fees.split fees.withheld)) ∨
          (fees.proceed = true ∧ tx.operations = [] ∧
            st.prepareTx nd atx commitRound verdict =
              (fees.ledger.settleTx nd tx atx fees.split).map fun st₃ =>
                (tx, st₃, fees.split, fees.withheld)) := by
  rcases st.admitTx_cases nd atx commitRound verdict with
    ⟨marks, exit, hexit, herr, hno⟩ | ⟨tx, hadm, hok⟩
  · exact .inl ⟨marks, exit, hexit, by simp [prepareTx, herr, bind, Except.bind], hno⟩
  · refine .inr ⟨tx, hadm, ?_⟩
    simp only [prepareTx, hok, bind, Except.bind]
    cases hproceed : (st.feeStage nd tx atx).proceed with
    | false => exact .inl ⟨rfl, rfl⟩
    | true =>
      refine .inr ?_
      cases hops : tx.operations with
      | cons op ops => exact .inl ⟨rfl, by simp, rfl⟩
      | nil =>
        refine .inr ⟨rfl, rfl, ?_⟩
        simp only [Bool.not_true, Bool.false_eq_true, if_false, List.length_nil, gt_iff_lt,
          Nat.lt_irrefl]
        cases (st.feeStage nd tx atx).ledger.settleTx nd tx atx
          (st.feeStage nd tx atx).split <;> rfl

/-- How a mapped result comes about. -/
theorem eq_map_cases {ε α β : Type} {x : Except ε α} {y : Except ε β} {f : α → β}
    (h : y = x.map f) : (∃ e, x = .error e ∧ y = .error e) ∨ ∃ a, x = .ok a ∧ y = .ok (f a) := by
  cases x with
  | error e => exact .inl ⟨e, rfl, h⟩
  | ok a => exact .inr ⟨a, rfl, h⟩

theorem admits_of_prepareTx {st₃ : Ledger} {split : FeeSplit} {withheld : UInt64}
    (h : st.prepareTx nd atx commitRound verdict = .ok (tx, st₃, split, withheld)) :
    st.Admits nd atx commitRound verdict tx := by
  rcases st.prepareTx_cases nd atx commitRound verdict with
    ⟨marks, exit, -, heq, -⟩ | ⟨tx', hadm, ⟨-, heq⟩ | ⟨-, -, heq⟩ | ⟨-, -, heq⟩⟩
  · simp [heq] at h
  · simp [heq] at h
  · simp [heq] at h
  · rcases eq_map_cases heq with ⟨out, -, heq⟩ | ⟨st', -, heq⟩
    · simp [heq] at h
    · simp only [heq, Except.ok.injEq, Prod.mk.injEq] at h
      exact h.1 ▸ hadm

/-! ## The pod call -/

/-- A ledger that differs in bodies and tracker only. -/
def OnlyBodies (st st' : Ledger) : Prop :=
  st' = { st with objects := st'.objects, tracker := st'.tracker }

namespace OnlyBodies

variable {st st' st'' : Ledger}

theorem trans (h : st.OnlyBodies st') (h' : st'.OnlyBodies st'') : st.OnlyBodies st'' := by
  unfold OnlyBodies at h h' ⊢
  rw [h] at h'
  exact h'

theorem foldl {α : Type} {f : Ledger → α → Ledger} (h : ∀ (st : Ledger) a, st.OnlyBodies (f st a))
    (l : List α) (st : Ledger) : st.OnlyBodies (l.foldl f st) := by
  induction l generalizing st with
  | nil => rfl
  | cons a l ih => exact (h st a).trans (ih (f st a))

theorem validators (h : st.OnlyBodies st') : st'.validators = st.validators := by rw [h]

theorem domains (h : st.OnlyBodies st') : st'.domains = st.domains := by rw [h]

end OnlyBodies

theorem applyUpdatedObjects_onlyBodies (st : Ledger) (out : PodOutput) :
    st.OnlyBodies (st.applyUpdatedObjects out) := by
  refine .foldl ?_ out.updatedObjects st
  intro st o
  rfl

/-- A pod call writes bodies and tracks what it creates. -/
theorem execute_onlyBodies (h : st.execute nd tx atx = .ok st') : st.OnlyBodies st' := by
  have hcreated : ∀ (st : Ledger) (created : Object × Nat),
      st.OnlyBodies (applyCreatedObject nd tx st created) := by
    intro st created
    simp only [applyCreatedObject]
    split <;> rfl
  have hdeleted : ∀ (st : Ledger) (id : Hash),
      st.OnlyBodies (deleteHeldContent (hashOrZero tx.sender) st id) := by
    intro st id
    unfold deleteHeldContent
    repeat' split
    all_goals rfl
  have hversion : ∀ (st : Ledger) (r : ObjectRef), st.OnlyBodies (ensureMutableVersion st r) := by
    intro st r
    unfold ensureMutableVersion
    repeat' split
    all_goals rfl
  unfold execute at h
  split at h
  · cases h
  · rename_i out _
    cases hout : st.processOutput nd out tx (st.podObjects tx atx) with
    | error e =>
      rw [hout] at h
      cases h
    | ok st₁ =>
      rw [hout] at h
      rw [← Except.ok.inj h]
      refine .trans ?_ (.foldl hversion _ _)
      unfold processOutput at hout
      split at hout
      · rw [← Except.ok.inj hout]
        rfl
      · split at hout
        · cases hout
        · split at hout
          · cases hout
          · rw [← Except.ok.inj hout]
            exact ((st.applyUpdatedObjects_onlyBodies _).trans (.foldl hcreated _ _)).trans
              (.foldl hdeleted _ _)

end Ledger
end BluePods
