import BluePods.Steps

/-! The supply identity. What coins, stakes and deposits hold, together with what is
outside the ledger (fees in flight and a withheld deposit), is the total supply. Each
step of the commit path keeps the sum, up to what it takes past a counter that stops at
zero; the question is where the outside part ends. -/

namespace BluePods
open Lib.Tally ValidatorSet

/-- A delegated total falls by what it holds at most, and one of a validator that is gone not
at all. -/
theorem ValidatorSet.bonded_subDelegated (vs : ValidatorSet) (validator : Hash) (amount : UInt64) :
    (vs.subDelegated validator amount).bonded + amount.toNat =
        vs.bonded + (amount.toNat - (vs.get validator).elim 0 (·.delegatedTotal.toNat)) ∧
      (vs.get validator).elim 0 (·.delegatedTotal.toNat) ≤ vs.bonded := by
  cases hv : vs.get validator with
  | none =>
    have hsame : ∀ g, update (·.pubkey) vs.all validator g = vs.all :=
      fun g => update_eq_self fun w hw hkey =>
        absurd hkey (by simpa using List.find?_eq_none.1 hv w hw)
    simp [subDelegated, ValidatorSet.modify, bonded, hsame]
  | some v =>
    have hbonded := le_bonded hv
    have hmod := @ValidatorSet.bonded_modify
      (fun w => { w with delegatedTotal := floorSub w.delegatedTotal amount }) vs validator v
      (fun _ => rfl) hv
    simp only [subDelegated, toNat_floorSub, Option.elim_some] at hmod ⊢
    omega

namespace Ledger

variable {st st' : Ledger} {amount balance : UInt64} {coin : Hash} {o : Object} {x e : Nat}
  {nd : Node} {tx : Transaction}

/-- Coins, bonded stake and locked deposits. -/
def held (st : Ledger) : Nat :=
  st.coinsTotal.toNat + st.validators.bonded + st.tracker.deposits

/-- The supply identity with an amount outside the ledger. -/
def Accounts (st : Ledger) (outside : Nat) : Prop := st.held + outside = st.totalSupply.toNat

instance (st : Ledger) (outside : Nat) : Decidable (st.Accounts outside) :=
  inferInstanceAs (Decidable (_ = _))

/-- The books in the middle of a transaction: one amount is outside, and one is held or
outside that no counter had. Nothing overflows, and the supply covers the deposits. -/
structure Books (st : Ledger) (outside uncounted : Nat) : Prop where
  sum : st.held + outside = st.totalSupply.toNat + uncounted
  room : st.totalSupply.toNat + uncounted < 2 ^ 64
  deposits : st.tracker.deposits ≤ st.totalSupply.toNat

theorem Accounts.books (h : st.Accounts x) : st.Books x 0 := by
  have := st.totalSupply.toNat_lt
  refine ⟨h, this, ?_⟩
  simp only [Accounts, held] at h
  omega

/-! ## Counters -/

theorem toNat_subCoins (st : Ledger) (amount : UInt64) :
    (st.subCoins amount).coinsTotal.toNat = st.coinsTotal.toNat - amount.toNat :=
  toNat_floorSub ..

theorem toNat_addCoins (st : Ledger) (amount : UInt64) :
    (st.addCoins amount).coinsTotal.toNat = min (st.coinsTotal.toNat + amount.toNat) (2 ^ 64 - 1) :=
  toNat_satAdd ..

theorem toNat_subSupply (st : Ledger) (amount : UInt64) :
    (st.subSupply amount).totalSupply.toNat = st.totalSupply.toNat - amount.toNat :=
  toNat_floorSub ..

theorem held_addCoins (h : st.coinsTotal.toNat + amount.toNat < 2 ^ 64) :
    (st.addCoins amount).held = st.held + amount.toNat := by
  simp only [held, toNat_addCoins, addCoins_validators, addCoins_tracker]
  omega

theorem creditCoin_books (h : st.creditCoin coin amount = .ok st')
    (hlt : st.coinsTotal.toNat + amount.toNat < 2 ^ 64) :
    st'.held = st.held + amount.toNat ∧ st'.totalSupply = st.totalSupply ∧
      st'.validators = st.validators ∧ st'.tracker = st.tracker := by
  rcases creditCoin_ok h with ⟨rfl, rfl⟩ | ⟨o, balance, -, -, -, rfl⟩
  · simp
  · exact ⟨@held_addCoins (st.setObject (o.withBalance (balance + amount))) amount hlt, by simp⟩

/-- Replacing the validator set moves what is held by the change of the bonded stake. -/
theorem held_withValidators (st : Ledger) (vs : ValidatorSet) :
    held { st with validators := vs } + st.validators.bonded = st.held + vs.bonded := by
  simp only [held]
  omega

namespace Books

theorem counters (h : st.Books x e) :
    st.coinsTotal.toNat + st.validators.bonded + x ≤ st.totalSupply.toNat + e := by
  have := h.sum
  simp only [held] at this
  omega

/-- A debit moves its amount outside, and what `coins_total` does not have is uncounted. -/
theorem debit (h : st.Books x e) (o : Object)
    (hroom : st.totalSupply.toNat + (e + (amount.toNat - st.coinsTotal.toNat)) < 2 ^ 64) :
    ((st.setObject o).subCoins amount).Books (x + amount.toNat)
      (e + (amount.toNat - st.coinsTotal.toNat)) := by
  refine ⟨?_, by simpa using hroom, by simpa using h.deposits⟩
  have := h.sum
  simp only [held, toNat_subCoins, subCoins_validators, subCoins_tracker, subCoins_totalSupply,
    setObject_coinsTotal, setObject_validators, setObject_tracker, setObject_totalSupply] at this ⊢
  omega

theorem credit (h : st.Books (x + amount.toNat) e) (hc : st.creditCoin coin amount = .ok st') :
    st'.Books x e := by
  have hlt := h.counters
  have hroom := h.room
  obtain ⟨hheld, hsupply, -, htracker⟩ := creditCoin_books hc (by omega)
  refine ⟨?_, hsupply ▸ hroom, htracker ▸ hsupply ▸ h.deposits⟩
  rw [hheld, hsupply, ← h.sum]
  omega

/-- Amounts that enter and leave the bonded stake. -/
theorem restake {vs : ValidatorSet} (inn out : Nat) (hroom : st.totalSupply.toNat + e < 2 ^ 64)
    (hdeposits : st.tracker.deposits ≤ st.totalSupply.toNat)
    (h : st.held + x + out = st.totalSupply.toNat + e + inn)
    (hvs : vs.bonded + inn = st.validators.bonded + out) :
    Books { st with validators := vs } x e := by
  refine ⟨?_, hroom, hdeposits⟩
  have := st.held_withValidators vs
  dsimp only
  omega

end Books

/-! ## Fees -/

/-- The balance stored under an identifier, zero where there is none. -/
def holding (st : Ledger) (id : Hash) : Nat :=
  ((st.getObject id).bind Object.balance).elim 0 UInt64.toNat

/-- The whole fee, and what of it the fee stage takes: nothing without a gas coin that may
be charged, else as much as the coin has. -/
def wholeFee (st : Ledger) (nd : Node) (tx : Transaction) (atx : AttestedTransaction) : Nat :=
  (st.feeParts nd tx atx).1.toNat + (st.feeParts nd tx atx).2.toNat

def feeTaken (st : Ledger) (nd : Node) (tx : Transaction) (atx : AttestedTransaction) : Nat :=
  tx.txGasCoinID.elim 0 fun coin =>
    if tx.maxGas < nd.feeParams.minGas ∨ st.validateGasCoin tx coin = false then 0
    else min (st.wholeFee nd tx atx) (st.holding coin)

/-- The deposit is withheld from a coin that pays the whole fee. -/
def lockedDeposit (st : Ledger) (nd : Node) (tx : Transaction) (atx : AttestedTransaction) : Nat :=
  if st.feeTaken nd tx atx = st.wholeFee nd tx atx then (st.feeParts nd tx atx).2.toNat else 0

theorem deductFees_taken (st : Ledger) (tx : Transaction) (atx : AttestedTransaction)
    (hp : nd.feeParams.WellFormed) : let r := st.deductFees nd tx atx
    r.split.epoch.toNat + r.split.burned.toNat + r.withheld.toNat = st.feeTaken nd tx atx ∧
      r.withheld.toNat = st.lockedDeposit nd tx atx ∧
      (r.ledger = st ∧ st.feeTaken nd tx atx = 0 ∨
        ∃ o taken, r.ledger = (st.setObject o).subCoins taken ∧
          taken.toNat = st.feeTaken nd tx atx) := by
  have hadd := st.toNat_feeParts_add nd tx atx
  have hsplit := splitFee_add (st.feeParts nd tx atx).1 hp
  -- Nothing is charged, whether the transaction goes on or not.
  have hfree : ∀ proceed, st.feeTaken nd tx atx = 0 →
      let r : FeeResult := { ledger := st, proceed }
      r.split.epoch.toNat + r.split.burned.toNat + r.withheld.toNat = st.feeTaken nd tx atx ∧
        r.withheld.toNat = st.lockedDeposit nd tx atx ∧
        (r.ledger = st ∧ st.feeTaken nd tx atx = 0 ∨
          ∃ o taken, r.ledger = (st.setObject o).subCoins taken ∧
            taken.toNat = st.feeTaken nd tx atx) := by
    intro proceed hzero
    refine ⟨by simp [hzero], ?_, .inl ⟨rfl, hzero⟩⟩
    simp only [lockedDeposit, hzero, wholeFee, UInt64.toNat_zero]
    split <;> omega
  unfold deductFees
  cases hcoin : tx.txGasCoinID with
  | none => exact hfree _ (by simp [feeTaken, hcoin])
  | some coin =>
    simp only
    split_ifs with hmin hvalid hzero
    · exact hfree _ (by simp [feeTaken, hcoin, hmin])
    · exact hfree _ (by simp [feeTaken, hcoin, by simpa using hvalid])
    · refine hfree _ ?_
      simp only [feeParts] at hadd
      rw [hzero, UInt64.toNat_zero] at hadd
      simp [feeTaken, hcoin, wholeFee, feeParts, ← hadd]
    · have htaken : st.feeTaken nd tx atx = min (st.wholeFee nd tx atx) (st.holding coin) := by
        simp [feeTaken, hcoin, hmin, by simpa using hvalid]
      obtain ⟨o, ho, -⟩ := validateGasCoin_eq_true.1 (by simpa using hvalid)
      simp only [feeParts] at hadd hsplit
      simp only [deductCoinFee, ho]
      cases hb : o.balance with
      | none => exact hfree _ (by rw [htaken]; simp [holding, ho, hb])
      | some balance =>
        rw [show st.holding coin = balance.toNat by simp [holding, ho, hb]] at htaken
        simp only [wholeFee, feeParts, ← hadd] at htaken
        by_cases hcovers : (st.feeParts nd tx atx).1 + (st.feeParts nd tx atx).2 ≤ balance <;>
          rw [feeParts] at hcovers
        · rw [Nat.min_eq_left (UInt64.le_iff_toNat_le.1 hcovers)] at htaken
          simp only [ge_iff_le, hcovers, if_true, Bool.not_true, Bool.false_eq_true, if_false]
          refine ⟨?_, ?_, .inr ⟨_, _, rfl, htaken.symm⟩⟩
          · rw [htaken, hadd, ← hsplit]
            omega
          · exact (if_pos (htaken.trans hadd)).symm
        · have hlt := UInt64.lt_iff_toNat_lt.1 (UInt64.not_le.1 hcovers)
          rw [Nat.min_eq_right (Nat.le_of_lt hlt)] at htaken
          simp only [ge_iff_le, hcovers, if_false, Bool.not_false, if_true]
          refine ⟨by simp [htaken], ?_, .inr ⟨_, _, rfl, htaken.symm⟩⟩
          rw [lockedDeposit, if_neg]
          · rfl
          · simp only [wholeFee, feeParts, ← hadd]
            omega

/-- After the fee stage the outside part has grown by the split and the withheld
deposit, and what the fee takes past `coins_total` is uncounted. -/
theorem Books.deductFees (hp : nd.feeParams.WellFormed) (atx : AttestedTransaction)
    (h : st.Books x 0)
    (hroom : st.totalSupply.toNat + (st.feeTaken nd tx atx - st.coinsTotal.toNat) < 2 ^ 64) :
    let r := st.deductFees nd tx atx
    r.ledger.Books (x + r.split.epoch.toNat + r.split.burned.toNat + r.withheld.toNat)
        (st.feeTaken nd tx atx - st.coinsTotal.toNat) ∧
      r.ledger.totalSupply = st.totalSupply := by
  obtain ⟨hsum, -, hledger⟩ := st.deductFees_taken tx atx hp
  generalize st.deductFees nd tx atx = r at hsum hledger ⊢
  have hout : x + r.split.epoch.toNat + r.split.burned.toNat + r.withheld.toNat =
      x + st.feeTaken nd tx atx := by omega
  dsimp only
  rw [hout]
  rcases hledger with ⟨heq, hzero⟩ | ⟨o, taken, heq, htaken⟩
  · rw [heq, hzero, Nat.zero_sub]
    exact ⟨h, rfl⟩
  · rw [← htaken] at hroom ⊢
    rw [heq, ← Nat.zero_add (_ - _)]
    exact ⟨h.debit o (by rwa [Nat.zero_add]), by simp⟩

/-! ## Stake -/

/-- What a bond or a delegation that goes through takes from its coin. -/
def stakeDebit (st : Ledger) (nd : Node) (tx : Transaction) : Nat :=
  (((st.handleBond nd tx).bind fun _ => parseStakeTx nd tx bondFunc).elim 0 (·.2.2.toNat)) +
    ((st.handleDelegate nd tx).bind fun _ => parseDelegateTx nd tx delegateFunc true).elim 0
      (·.2.2.2.toNat)

/-- What an undelegation that goes through pays out past the validator's delegated total. -/
def positionExcess (st : Ledger) (nd : Node) (tx : Transaction) : Nat :=
  ((st.handleUndelegate nd tx).bind fun _ => parseDelegateTx nd tx undelegateFunc false).elim 0
    fun (delegator, _, validator, _) =>
      (st.readDelegationAmount (delegationID nd.crypto delegator validator) validator).elim 0
          UInt64.toNat -
        (st.validators.get validator).elim 0 (·.delegatedTotal.toNat)

namespace Books

theorem strictDebit (h : st.Books x e) (hd : st.strictDebit coin amount = some st')
    (hroom : st.totalSupply.toNat + (e + (amount.toNat - st.coinsTotal.toNat)) < 2 ^ 64) :
    st'.Books (x + amount.toNat) (e + (amount.toNat - st.coinsTotal.toNat)) ∧
      st'.validators = st.validators := by
  obtain ⟨o, balance, -, -, -, -, rfl⟩ := strictDebit_some hd
  exact ⟨h.debit _ hroom, by simp⟩

theorem handleUnbond (h : st.Books x e) (hu : st.handleUnbond nd tx = some st') :
    st'.Books x (e + (st.stakeDebit nd tx - st.coinsTotal.toNat) + st.positionExcess nd tx) := by
  have hf := handleUnbond_func hu
  obtain ⟨sender, coin, amount, v, st₁, -, hv, hle, hc, rfl⟩ := handleUnbond_some hu
  have hmoved : st.stakeDebit nd tx = 0 ∧ st.positionExcess nd tx = 0 := by
    simp [stakeDebit, positionExcess,
      eq_none_of_other (fun _ => handleBond_func) hf (by decide),
      eq_none_of_other (fun _ => handleDelegate_func) hf (by decide),
      eq_none_of_other (fun _ => handleUndelegate_func) hf (by decide)]
  rw [hmoved.1, hmoved.2, Nat.zero_sub, Nat.add_zero]
  have hlt := h.counters
  have hroom₀ := h.room
  have hbonded := le_bonded hv
  have hle' := UInt64.le_iff_toNat_le.1 hle
  obtain ⟨hheld, hsupply, hvs, htracker⟩ := creditCoin_books hc (by omega)
  have hstake : (v.selfStake - amount).toNat = v.selfStake.toNat - amount.toNat :=
    UInt64.toNat_sub_of_le _ _ hle
  have hmod := @ValidatorSet.bonded_modify
    (fun w => { w with selfStake := v.selfStake - amount }) st.validators sender v
    (fun _ => rfl) hv
  rw [hvs]
  refine restake amount.toNat 0 (hsupply ▸ hroom₀) (htracker ▸ hsupply ▸ h.deposits) ?_ ?_
  · rw [hheld, hsupply, ← h.sum]
    omega
  · simp only [setSelfStake, hstake, hvs] at hmod ⊢
    omega

section

variable (h : st.Books x e)
  (hroom : st.totalSupply.toNat + (e + (st.stakeDebit nd tx - st.coinsTotal.toNat) +
    st.positionExcess nd tx) < 2 ^ 64)

include h hroom

theorem handleBond (hb : st.handleBond nd tx = some st') :
    st'.Books x (e + (st.stakeDebit nd tx - st.coinsTotal.toNat) + st.positionExcess nd tx) := by
  have hf := handleBond_func hb
  obtain ⟨sender, coin, amount, v, st₁, hparse, hv, -, hd, rfl⟩ := handleBond_some hb
  have hmoved : st.stakeDebit nd tx = amount.toNat ∧ st.positionExcess nd tx = 0 := by
    simp [stakeDebit, positionExcess, hb, hparse,
      eq_none_of_other (fun _ => handleDelegate_func) hf (by decide),
      eq_none_of_other (fun _ => handleUndelegate_func) hf (by decide)]
  rw [hmoved.1, hmoved.2, Nat.add_zero] at hroom ⊢
  obtain ⟨h₁, hvs⟩ := h.strictDebit hd hroom
  rw [← hvs] at hv
  have hlt := h₁.counters
  have hroom₁ := h₁.room
  have hbonded := le_bonded hv
  have hstake : (safeAdd v.selfStake amount).toNat = v.selfStake.toNat + amount.toNat := by
    rw [toNat_safeAdd]
    omega
  have hmod := @ValidatorSet.bonded_modify
    (fun w => { w with selfStake := safeAdd v.selfStake amount }) st₁.validators sender v
    (fun _ => rfl) hv
  refine restake 0 amount.toNat h₁.room h₁.deposits ?_ ?_
  · rw [Nat.add_zero, ← h₁.sum, Nat.add_assoc]
  · simp only [setSelfStake, hstake] at hmod ⊢
    omega

theorem handleDelegate (hd : st.handleDelegate nd tx = some st') :
    st'.Books x (e + (st.stakeDebit nd tx - st.coinsTotal.toNat) + st.positionExcess nd tx) := by
  have hf := handleDelegate_func hd
  obtain ⟨delegator, coin, validator, amount, v, st₁, hparse, hv, -, hdebit, rfl⟩ :=
    handleDelegate_some hd
  have hmoved : st.stakeDebit nd tx = amount.toNat ∧ st.positionExcess nd tx = 0 := by
    simp [stakeDebit, positionExcess, hd, hparse,
      eq_none_of_other (fun _ => handleBond_func) hf (by decide),
      eq_none_of_other (fun _ => handleUndelegate_func) hf (by decide)]
  rw [hmoved.1, hmoved.2, Nat.add_zero] at hroom ⊢
  obtain ⟨h₁, hvs⟩ := h.strictDebit hdebit hroom
  rw [← hvs] at hv
  have hlt := h₁.counters
  have hroom₁ := h₁.room
  have hbonded := le_bonded hv
  have hstake : (v.delegatedTotal + amount).toNat = v.delegatedTotal.toNat + amount.toNat := by
    rw [UInt64.toNat_add, Nat.mod_eq_of_lt (by omega)]
  have hmod := @ValidatorSet.bonded_modify
    (fun w => { w with delegatedTotal := w.delegatedTotal + amount }) st₁.validators validator v
    (fun _ => rfl) hv
  refine @restake (st₁.setObject _) x _ _ 0 amount.toNat h₁.room h₁.deposits ?_ ?_
  · rw [Nat.add_zero, setObject_totalSupply, ← h₁.sum, Nat.add_assoc]
    rfl
  · simp only [addDelegated, hstake, setObject_validators] at hmod ⊢
    omega

theorem handleUndelegate (hu : st.handleUndelegate nd tx = some st') :
    st'.Books x (e + (st.stakeDebit nd tx - st.coinsTotal.toNat) + st.positionExcess nd tx) := by
  have hf := handleUndelegate_func hu
  obtain ⟨delegator, coin, validator, a, amount, st₁, hparse, hamount, hc, rfl⟩ :=
    handleUndelegate_some hu
  have hmoved : st.stakeDebit nd tx = 0 ∧ st.positionExcess nd tx =
      amount.toNat - (st.validators.get validator).elim 0 (·.delegatedTotal.toNat) := by
    simp [stakeDebit, positionExcess, hu, hparse, hamount,
      eq_none_of_other (fun _ => handleBond_func) hf (by decide),
      eq_none_of_other (fun _ => handleDelegate_func) hf (by decide)]
  rw [hmoved.1, hmoved.2, Nat.zero_sub, Nat.add_zero] at hroom ⊢
  have hlt := h.counters
  have hmod := st.validators.bonded_subDelegated validator amount
  obtain ⟨hheld, hsupply, hvs, htracker⟩ := creditCoin_books hc (by omega)
  rw [hvs]
  refine @restake (st₁.deleteObject _) x _ _ amount.toNat
    (amount.toNat - (st.validators.get validator).elim 0 (·.delegatedTotal.toNat))
    (hsupply ▸ hroom) (htracker ▸ hsupply ▸ h.deposits) ?_ ?_
  · rw [deleteObject_totalSupply, hsupply, show (st₁.deleteObject _).held = st₁.held from rfl,
      hheld]
    have := h.sum
    omega
  · rw [deleteObject_validators, hvs]
    exact hmod.1

/-- A stake handler keeps the books up to what it takes past `coins_total` or pays past a
delegated total. -/
theorem stakeStep (hs : StakeStep st nd tx st') :
    st'.Books x (e + (st.stakeDebit nd tx - st.coinsTotal.toNat) + st.positionExcess nd tx) := by
  cases hs with
  | bond hb => exact h.handleBond hroom hb
  | unbond hu => exact h.handleUnbond hu
  | delegate hd => exact h.handleDelegate hroom hd
  | undelegate hu => exact h.handleUndelegate hroom hu

end

end Books

theorem readDelegationAmount_some {posID validator : Hash}
    (h : st.readDelegationAmount posID validator = some amount) :
    ∃ o, st.getObject posID = some o ∧ o.content.length = 40 ∧
      amount = uint64LE (o.content.drop 32) := by
  simp [readDelegationAmount, decodeDelegationContent, Option.bind_eq_some_iff,
    -Subtype.exists] at h
  obtain ⟨o, ho, hlen, -, rfl⟩ := h
  exact ⟨o, ho, hlen, rfl⟩

theorem content_withBalance (h : o.balance = some balance) (b : UInt64) :
    (o.withBalance b).content.length = o.content.length ∧
      (o.withBalance b).content.drop 32 = o.content.drop 32 := by
  have hlen : 8 ≤ o.content.length := by
    by_contra hlt
    simp [Object.balance, Nat.lt_of_not_le hlt] at h
  constructor
  · simp only [Object.withBalance, List.length_append, length_putUint64LE, List.length_drop]
    omega
  · rw [Object.withBalance, List.drop_append]
    simp [List.drop_drop]

end Ledger
end BluePods
