import BluePods.Epoch
import BluePods.Steps

/-! Two ledgers abreast. Where what a computation reads agrees and each thing it writes keeps
the ledgers related, it fails on both or leaves them related: the gates, the stake handlers
and the payouts of an epoch, for any relation of ledgers. -/

namespace BluePods

open Ledger

/-! ## Results that go the same way -/

/-- Both computations fail alike, or both succeed alike. -/
inductive ResultAlike {ε α : Type} (R : ε → ε → Prop) (Q : α → α → Prop) :
    Except ε α → Except ε α → Prop
  | error {e e' : ε} : R e e' → ResultAlike R Q (.error e) (.error e')
  | ok {a a' : α} : Q a a' → ResultAlike R Q (.ok a) (.ok a')

section Results

variable {ε α β : Type} {R : ε → ε → Prop} {Q : α → α → Prop}

theorem ResultAlike.toOption {x y : Except ε α} (h : ResultAlike R Q x y) :
    Option.Rel Q x.toOption y.toOption := by
  cases h with
  | error => exact .none
  | ok ha => exact .some ha

variable {Q' : α → α → Prop} {x' : Option α}

theorem ResultAlike.imp {x y : Except ε α} (h : ResultAlike R Q x y) (hQ : ∀ a a', Q a a' → Q' a a')
    : ResultAlike R Q' x y := by
  cases h with
  | error he => exact .error he
  | ok ha => exact .ok (hQ _ _ ha)

theorem resultAlike_map (f : α → α) (x : Except ε α) :
    ResultAlike Eq (fun a a' => a' = f a) x (x.map f) := by
  cases x with
  | error e => exact .error rfl
  | ok a => exact .ok rfl

theorem eq_map_of_rel {f : α → α} {x : Option α} (h : Option.Rel (fun a a' => a' = f a) x x') :
    x' = x.map f := by
  cases h with
  | none => rfl
  | some h => rw [h, Option.map_some]

section

variable {x : Option α} (h : Option.Rel Q x x')

include h

theorem rel_imp (hQ : ∀ a a', Q a a' → Q' a a') : Option.Rel Q' x x' := by
  cases h with
  | none => exact .none
  | some ha => exact .some (hQ _ _ ha)

theorem rel_bind {P : β → β → Prop} {f g : α → Option β}
    (hf : ∀ a a', Q a a' → Option.Rel P (f a) (g a')) : Option.Rel P (x.bind f) (x'.bind g) := by
  cases h with
  | none => exact .none
  | some ha => exact hf _ _ ha

theorem exists_of_rel {a : α} (hx : x = some a) : ∃ a', x' = some a' ∧ Q a a' := by
  subst hx
  cases h with
  | some ha => exact ⟨_, rfl, ha⟩

theorem exists_of_rel_right {a' : α} (hx : x' = some a') : ∃ a, x = some a ∧ Q a a' := by
  subst hx
  cases h with
  | some ha => exact ⟨_, rfl, ha⟩

end

end Results

namespace Ledger

variable {R : Ledger → Ledger → Prop} {st st' : Ledger} {nd nd' : Node} {tx : Transaction}
  {atx : AttestedTransaction} {commitRound : Nat} {verdict : Option ProofError}

/-- Nodes that differ in how they draw holders and in what they hold. -/
def SameButHolders (nd nd' : Node) : Prop :=
  ∃ computeHolders isHolder, nd' = { nd with computeHolders, isHolder }

def onValidators (st : Ledger) (f : ValidatorSet → ValidatorSet) : Ledger :=
  { st with validators := f st.validators }

/-! ## The gates -/

/-- Outcomes with the same fees and the same exit, and ledgers related. -/
structure OutcomeAlike (R : Ledger → Ledger → Prop) (out out' : Outcome) : Prop where
  split : out'.split = out.split
  exit : out'.exit = out.exit
  ledger : R out.ledger out'.ledger

theorem SameButHolders.admitTx (h : SameButHolders nd nd') :
    st.admitTx nd' atx commitRound verdict = st.admitTx nd atx commitRound verdict := by
  obtain ⟨_, _, rfl⟩ := h
  rfl

/-- The gates stop the transaction on both ledgers, or let it through on both. -/
inductive GatesAlike (R : Ledger → Ledger → Prop) (nd : Node) (atx : AttestedTransaction)
    (commitRound : Nat) (verdict : Option ProofError) (st st' : Ledger) : Prop
  | stopped {out out' : Outcome} (left : st.admitTx nd atx commitRound verdict = .error out)
      (right : st'.admitTx nd atx commitRound verdict = .error out')
      (alike : OutcomeAlike R out out')
  | admitted {tx : Transaction} (admits : st.Admits nd atx commitRound verdict tx)
      (admits' : st'.Admits nd atx commitRound verdict tx)
      (left : st.admitTx nd atx commitRound verdict = .ok (tx, st.admitted tx))
      (right : st'.admitTx nd atx commitRound verdict = .ok (tx, st'.admitted tx))
      (alike : R (st.admitted tx) (st'.admitted tx))

section Gates

variable (h : R st st')
  (hcommitted : ∀ tx, atx.transaction = some tx → st'.wasCommitted tx = st.wasCommitted tx)
  (hmark : ∀ tx, R (st.markCommitted tx) (st'.markCommitted tx))
  (htracker : ∀ {s s'}, R s s' → s'.tracker = s.tracker)
  (hset : ∀ {s s'} tracker, R s s' → R { s with tracker } { s' with tracker })

include h hcommitted hmark htracker hset

/-- A gate reads the marks and the tracker. -/
theorem admitTx_rel :
    ResultAlike (OutcomeAlike R) (fun p p' : Transaction × Ledger => p'.1 = p.1 ∧ R p.2 p'.2)
      (st.admitTx nd atx commitRound verdict) (st'.admitTx nd atx commitRound verdict) := by
  unfold admitTx
  cases htx : atx.transaction with
  | none => exact .error ⟨rfl, rfl, h⟩
  | some tx =>
    dsimp only
    rw [hcommitted tx htx, htracker (hmark tx)]
    split
    · exact .error ⟨rfl, rfl, h⟩
    · cases verifyTxAuthenticity nd.crypto nd.unsignedTxBytes tx with
      | error e => exact .error ⟨rfl, rfl, h⟩
      | ok _ =>
        cases validateShape tx with
        | error e => exact .error ⟨rfl, rfl, h⟩
        | ok _ =>
          dsimp only
          split
          · exact .error ⟨rfl, rfl, h⟩
          · split
            · exact .error ⟨rfl, rfl, h⟩
            · cases (st.markCommitted tx).tracker.checkAndUpdate tx with
              | none => exact .error ⟨rfl, rfl, hmark tx⟩
              | some tracker => exact .ok ⟨rfl, hset tracker (hmark tx)⟩

theorem gatesAlike : GatesAlike R nd atx commitRound verdict st st' := by
  have hadm := @admitTx_rel R st st' nd atx commitRound verdict h hcommitted hmark htracker hset
  rcases st.admitTx_cases nd atx commitRound verdict with ⟨_, _, -, herr, -⟩ | ⟨tx, hin, hok⟩
  · rw [herr] at hadm
    generalize hr : st'.admitTx nd atx commitRound verdict = r' at hadm
    cases hadm with
    | error hout => exact .stopped herr hr hout
  · rcases st'.admitTx_cases nd atx commitRound verdict with ⟨_, _, -, herr', -⟩ | ⟨tx', hin', hok'⟩
    · rw [hok, herr'] at hadm
      cases hadm
    · obtain rfl : tx' = tx := Option.some.inj (hin'.transaction.symm.trans hin.transaction)
      rw [hok, hok'] at hadm
      cases hadm with
      | ok hp => exact .admitted hin hin' hok hok' hp.2

end Gates

/-! ## Fees and registration -/

/-- The same fees, and ledgers related. -/
structure FeesAlike (R : Ledger → Ledger → Prop) (fees fees' : FeeResult) : Prop where
  ledger : R fees.ledger fees'.ledger
  split : fees'.split = fees.split
  withheld : fees'.withheld = fees.withheld
  proceed : fees'.proceed = fees.proceed

theorem deductFees_rel (hnd : SameButHolders nd nd') (h : R st st')
    (hparts : tx.txGasCoinID ≠ none → st'.feeParts nd' tx atx = st.feeParts nd tx atx)
    (hvalid : ∀ coin, st'.validateGasCoin tx coin = st.validateGasCoin tx coin)
    (hdeduct : ∀ coin, st.validateGasCoin tx coin = true → ∀ fee,
      ResultAlike Eq (fun p p' => R p.1 p'.1 ∧ p'.2 = p.2) (st.deductCoinFee coin fee)
        (st'.deductCoinFee coin fee)) :
    FeesAlike R (st.deductFees nd tx atx) (st'.deductFees nd' tx atx) := by
  obtain ⟨_, _, rfl⟩ := hnd
  unfold deductFees
  cases hcoin : tx.txGasCoinID with
  | none => exact ⟨h, rfl, rfl, rfl⟩
  | some coin =>
    have hpair := hparts (by simp [hcoin])
    unfold feeParts at hpair
    dsimp only at hpair ⊢
    rw [hvalid, hpair]
    generalize calculateTxFeeSplit nd.computeHolders nd.feeParams st.validators.len tx atx = parts
    split
    · exact ⟨h, rfl, rfl, rfl⟩
    · split
      · exact ⟨h, rfl, rfl, rfl⟩
      · rename_i hgas
        split
        · exact ⟨h, rfl, rfl, rfl⟩
        · have hded := hdeduct coin (by simpa using hgas) (parts.1 + parts.2)
          generalize st.deductCoinFee coin _ = r at hded ⊢
          generalize st'.deductCoinFee coin _ = r' at hded ⊢
          cases hded with
          | error => exact ⟨h, rfl, rfl, rfl⟩
          | @ok p p' hp =>
            obtain ⟨s, deducted, covered⟩ := p
            obtain ⟨s', deducted', covered'⟩ := p'
            obtain ⟨hs, heq⟩ := hp
            obtain ⟨rfl, rfl⟩ := Prod.mk.inj heq
            cases covered' <;> exact ⟨hs, rfl, rfl, rfl⟩

theorem handleRegisterValidator_rel (h : R st st')
    (hreg : ∀ pubkey args blsPubkey, Registers nd tx pubkey args blsPubkey →
      R (st.registered nd tx pubkey args blsPubkey) (st'.registered nd tx pubkey args blsPubkey)) :
    ResultAlike Eq R (st.handleRegisterValidator nd tx) (st'.handleRegisterValidator nd tx) := by
  rcases handleRegisterValidator_cases nd tx with hidle | ⟨e, herr⟩ | ⟨pubkey, args, bls, hr⟩
  · rw [hidle, hidle]
    exact .ok h
  · rw [herr, herr]
    exact .error rfl
  · rw [hr.handle, hr.handle]
    exact .ok (hreg pubkey args bls hr)

/-! ## Stake -/

/-- What a bond reads agrees, and what it writes keeps the ledgers related. -/
def BondsAlike (R : Ledger → Ledger → Prop) (nd : Node) (tx : Transaction) (st st' : Ledger) :
    Prop :=
  ∀ sender coin amount, parseStakeTx nd tx bondFunc = some (sender, coin, amount) →
    st'.validators.get sender = st.validators.get sender ∧
      Option.Rel (fun s s' => ∀ stake, R (s.onValidators (·.setSelfStake sender stake))
        (s'.onValidators (·.setSelfStake sender stake)))
        (st.strictDebit coin amount) (st'.strictDebit coin amount)

/-- The same of every stake transaction. An unbonding validator is looked at only if it has
the amount. -/
structure StakesAlike (R : Ledger → Ledger → Prop) (nd : Node) (tx : Transaction)
    (st st' : Ledger) : Prop where
  bond : BondsAlike R nd tx st st'
  unbond : ∀ sender coin amount, parseStakeTx nd tx unbondFunc = some (sender, coin, amount) →
    (st'.validators.get sender).filter (amount ≤ ·.selfStake) =
        (st.validators.get sender).filter (amount ≤ ·.selfStake) ∧
      ∀ v, st.validators.get sender = some v →
        ResultAlike Eq (fun s s' => ∀ stake, R (s.onValidators (·.setSelfStake sender stake))
          (s'.onValidators (·.setSelfStake sender stake)))
          (st.creditCoin coin amount) (st'.creditCoin coin amount)
  delegate : ∀ delegator coin validator amount,
    parseDelegateTx nd tx delegateFunc true = some (delegator, coin, validator, amount) →
    st'.validators.get validator = st.validators.get validator ∧
      Option.Rel (fun s s' =>
        let position := buildDelegationObject nd.crypto delegator validator amount
        R ((s.setObject position).onValidators (·.addDelegated validator amount))
          ((s'.setObject position).onValidators (·.addDelegated validator amount)))
        (st.strictDebit coin amount) (st'.strictDebit coin amount)
  undelegate : ∀ delegator coin validator a,
    parseDelegateTx nd tx undelegateFunc false = some (delegator, coin, validator, a) →
    let position := delegationID nd.crypto delegator validator
    st'.readDelegationAmount position validator = st.readDelegationAmount position validator ∧
      ∀ amount, ResultAlike Eq (fun s s' =>
        R ((s.deleteObject position).onValidators (·.subDelegated validator amount))
          ((s'.deleteObject position).onValidators (·.subDelegated validator amount)))
        (st.creditCoin coin amount) (st'.creditCoin coin amount)

theorem BondsAlike.handleBond (h : BondsAlike R nd tx st st') :
    Option.Rel R (st.handleBond nd tx) (st'.handleBond nd tx) := by
  unfold Ledger.handleBond
  cases hparse : parseStakeTx nd tx bondFunc with
  | none => exact .none
  | some p =>
    obtain ⟨sender, coin, amount⟩ := p
    obtain ⟨hget, hdebit⟩ := h sender coin amount hparse
    simp only [Option.bind_eq_bind, Option.bind_some, hget]
    cases st.validators.get sender with
    | none => exact .none
    | some v =>
      simp only [Option.bind_some]
      split
      · exact .none
      · exact rel_bind hdebit fun _ _ hs => .some (hs _)

namespace StakesAlike

variable (h : StakesAlike R nd tx st st')

include h

theorem handleUnbond : Option.Rel R (st.handleUnbond nd tx) (st'.handleUnbond nd tx) := by
  unfold Ledger.handleUnbond
  cases hparse : parseStakeTx nd tx unbondFunc with
  | none => exact .none
  | some p =>
    obtain ⟨sender, coin, amount⟩ := p
    obtain ⟨hget, hcredit⟩ := h.unbond sender coin amount hparse
    -- A record without the amount ends the handler as a missing one does.
    have hbind : ∀ (x : Option ValidatorInfo) (f : ValidatorInfo → Option Ledger),
        (∀ v, v.selfStake < amount → f v = none) →
        x.bind f = (x.filter (amount ≤ ·.selfStake)).bind f := by
      intro x f hf
      cases x with
      | none => rfl
      | some v =>
        by_cases hv : amount ≤ v.selfStake
        · simp [Option.filter, hv]
        · simpa [Option.filter, hv] using hf v (UInt64.not_le.1 hv)
    simp only [Option.bind_eq_bind, Option.bind_some]
    rw [hbind (st'.validators.get sender) _ fun v hv => by simp [hv],
      hbind (st.validators.get sender) _ fun v hv => by simp [hv], hget]
    cases hfound : (st.validators.get sender).filter (amount ≤ ·.selfStake) with
    | none => exact .none
    | some v =>
      have hcredit := hcredit v (Option.filter_eq_some_iff.1 hfound).1
      simp only [Option.bind_some]
      split
      · exact .none
      · split
        · exact .none
        · exact rel_bind hcredit.toOption fun _ _ hs => .some (hs _)

theorem handleDelegate : Option.Rel R (st.handleDelegate nd tx) (st'.handleDelegate nd tx) := by
  unfold Ledger.handleDelegate
  cases hparse : parseDelegateTx nd tx delegateFunc true with
  | none => exact .none
  | some p =>
    obtain ⟨delegator, coin, validator, amount⟩ := p
    obtain ⟨hget, hdebit⟩ := h.delegate delegator coin validator amount hparse
    simp only [Option.bind_eq_bind, Option.bind_some, hget]
    cases st.validators.get validator with
    | none => exact .none
    | some v =>
      simp only [Option.bind_some]
      split
      · exact .none
      · exact rel_bind hdebit fun _ _ hs => .some hs

theorem handleUndelegate :
    Option.Rel R (st.handleUndelegate nd tx) (st'.handleUndelegate nd tx) := by
  unfold Ledger.handleUndelegate
  cases hparse : parseDelegateTx nd tx undelegateFunc false with
  | none => exact .none
  | some p =>
    obtain ⟨delegator, coin, validator, a⟩ := p
    obtain ⟨hread, hcredit⟩ := h.undelegate delegator coin validator a hparse
    simp only [Option.bind_eq_bind, Option.bind_some, hread]
    cases st.readDelegationAmount (delegationID nd.crypto delegator validator) validator with
    | none => exact .none
    | some amount =>
      simp only [Option.bind_some]
      exact rel_bind (hcredit amount).toOption fun _ _ hs => .some hs

/-- At most one handler applies, and it applies to both ledgers as they are. -/
theorem handleStake (hst : R st st') : R (st.handleStake nd tx) (st'.handleStake nd tx) := by
  have hleft : ∀ {s}, StakeStep st nd tx s → ∃ s', StakeStep st' nd tx s' ∧ R s s' := by
    intro s hs
    cases hs with
    | bond hs => exact (exists_of_rel h.bond.handleBond hs).imp fun _ => .imp_left .bond
    | unbond hs => exact (exists_of_rel h.handleUnbond hs).imp fun _ => .imp_left .unbond
    | delegate hs => exact (exists_of_rel h.handleDelegate hs).imp fun _ => .imp_left .delegate
    | undelegate hs =>
      exact (exists_of_rel h.handleUndelegate hs).imp fun _ => .imp_left .undelegate
  have hright : ∀ {s'}, StakeStep st' nd tx s' → ∃ s, StakeStep st nd tx s := by
    intro s' hs
    cases hs with
    | bond hs => exact (exists_of_rel_right h.bond.handleBond hs).imp fun _ hs => .bond hs.1
    | unbond hs => exact (exists_of_rel_right h.handleUnbond hs).imp fun _ hs => .unbond hs.1
    | delegate hs =>
      exact (exists_of_rel_right h.handleDelegate hs).imp fun _ hs => .delegate hs.1
    | undelegate hs =>
      exact (exists_of_rel_right h.handleUndelegate hs).imp fun _ hs => .undelegate hs.1
  rcases handleStake_cases st nd tx with hnone | hstep
  · rcases handleStake_cases st' nd tx with hnone' | hstep'
    · rw [hnone, hnone']
      exact hst
    · obtain ⟨s, hs⟩ := hright hstep'
      obtain ⟨s', hs', hR⟩ := hleft hs
      rw [hs.handleStake_eq, hs'.handleStake_eq]
      exact hR
  · obtain ⟨s', hs', hR⟩ := hleft hstep
    rw [hs'.handleStake_eq]
    exact hR

end StakesAlike

/-! ## One transaction -/

/-- The settlement stage up to the check whether this node holds what the call writes. -/
def settleHandlers (st : Ledger) (nd : Node) (tx : Transaction) (atx : AttestedTransaction)
    (split : FeeSplit) : Except Outcome Ledger :=
  if !st.validateMutableRefOwnership atx tx then
    .error { ledger := st, split, exit := .ownership }
  else
    match st.handleRegisterValidator nd tx with
    | .error .panicked => .error { ledger := st, split, exit := .panicked }
    | .error .blsPoPInvalid => .error { ledger := st, split, exit := .blsPoPInvalid }
    | .ok st =>
      let st := st.staked nd tx
      if st.deletesParent tx then .error { ledger := st, split, exit := .deleteHasChildren }
      else .ok (st.settleDeletions nd.feeParams tx (ownedDeletedRefs tx))

/-- The node leaves the call to the holders of what it writes. -/
def leavesToHolders (nd : Node) (tx : Transaction) (atx : AttestedTransaction) : Prop :=
  tx.createdObjectsReplication.length = 0 ∧ !shouldExecute nd atx tx

instance (nd : Node) (tx : Transaction) (atx : AttestedTransaction) :
    Decidable (leavesToHolders nd tx atx) :=
  inferInstanceAs (Decidable (_ ∧ _))

theorem settleTx_eq (st : Ledger) (nd : Node) (tx : Transaction) (atx : AttestedTransaction)
    (split : FeeSplit) :
    st.settleTx nd tx atx split =
      match st.settleHandlers nd tx atx split with
      | .error out => .error out
      | .ok s =>
        if leavesToHolders nd tx atx then .error { ledger := s, split, exit := .notHolder }
        else .ok s := by
  unfold settleTx settleHandlers settleDeclaredDeletions leavesToHolders
  split
  · rfl
  · cases st.handleRegisterValidator nd tx with
    | error e => cases e <;> rfl
    | ok s =>
      dsimp only
      cases hdel : (s.staked nd tx).deletesParent tx with
      | true =>
        unfold deletesParent staked at hdel
        rw [if_pos hdel]
        rfl
      | false =>
        unfold deletesParent staked at hdel
        rw [if_neg (ne_true_of_eq_false hdel)]
        rfl

/-- The pod call, or leaving it to the holders. -/
def finishTx (st : Ledger) (nd : Node) (tx : Transaction) (atx : AttestedTransaction)
    (split : FeeSplit) (withheld : UInt64) : Outcome :=
  if leavesToHolders nd tx atx then { ledger := st, split, exit := .notHolder }
  else st.runPod nd tx atx split withheld

/-- What follows the fees. -/
def commitCharged (fees : FeeResult) (nd : Node) (tx : Transaction) (atx : AttestedTransaction)
    (commitRound : Nat) : Outcome :=
  if !fees.proceed then { ledger := fees.ledger, split := fees.split, exit := .feeRejected }
  else if tx.operations.length > 0 then
    fees.ledger.commitDeclaredOps nd tx commitRound fees.split fees.withheld
  else
    match fees.ledger.settleHandlers nd tx atx fees.split with
    | .error out => out
    | .ok s => s.finishTx nd tx atx fees.split fees.withheld

theorem executeTx_eq (st : Ledger) (nd : Node) (atx : AttestedTransaction) (commitRound : Nat)
    (verdict : Option ProofError) :
    st.executeTx nd atx commitRound verdict =
      match st.admitTx nd atx commitRound verdict with
      | .error out => out
      | .ok (tx, s) => commitCharged (s.deductFees nd tx atx) nd tx atx commitRound := by
  unfold executeTx prepareTx
  cases st.admitTx nd atx commitRound verdict with
  | error out => rfl
  | ok p =>
    obtain ⟨tx, s⟩ := p
    simp only [bind, Except.bind, commitCharged]
    cases (s.deductFees nd tx atx).proceed with
    | false => rfl
    | true =>
      simp only [Bool.not_true, Bool.false_eq_true, if_false]
      by_cases hops : tx.operations.length > 0
      · rw [if_pos hops, if_pos hops]
        rfl
      · rw [if_neg hops, if_neg hops, settleTx_eq]
        cases (s.deductFees nd tx atx).ledger.settleHandlers nd tx atx _ with
        | error out => rfl
        | ok s =>
          unfold finishTx
          dsimp only
          by_cases hleave : leavesToHolders nd tx atx
          · rw [if_pos hleave, if_pos hleave]
          · rw [if_neg hleave, if_neg hleave]
            rfl

/-- What the handlers read agrees, and what they write keeps the ledgers related. -/
structure HandlersAlike (R : Ledger → Ledger → Prop) (nd : Node) (tx : Transaction)
    (atx : AttestedTransaction) (st st' : Ledger) : Prop where
  owners : st'.validateMutableRefOwnership atx tx = st.validateMutableRefOwnership atx tx
  register : ResultAlike Eq R (st.handleRegisterValidator nd tx) (st'.handleRegisterValidator nd tx)
  behind : ∀ {s s'}, st.handleRegisterValidator nd tx = .ok s →
    st'.handleRegisterValidator nd tx = .ok s' → R s s' →
    ((s'.handleDeregisterValidator nd tx).handleBond nd tx).isSome =
        ((s.handleDeregisterValidator nd tx).handleBond nd tx).isSome ∧
      R (s.staked nd tx) (s'.staked nd tx) ∧
      R ((s.staked nd tx).settleDeletions nd.feeParams tx (ownedDeletedRefs tx))
        ((s'.staked nd tx).settleDeletions nd.feeParams tx (ownedDeletedRefs tx))

/-- So for the stages between the fees and the pod call. -/
structure ChargedAlike (R : Ledger → Ledger → Prop) (nd : Node) (tx : Transaction)
    (atx : AttestedTransaction) (fees fees' : FeeResult) : Prop extends FeesAlike R fees fees' where
  handlers : fees.proceed = true → HandlersAlike R nd tx atx fees.ledger fees'.ledger

section Walk

variable {fees fees' : FeeResult} {O : Outcome → Outcome → Prop}

theorem HandlersAlike.settleHandlers (h : HandlersAlike R nd tx atx st st') (hst : R st st')
    (htracker : ∀ {s s'}, R s s' → s'.tracker = s.tracker) (split : FeeSplit) :
    ResultAlike (OutcomeAlike R) R (st.settleHandlers nd tx atx split)
      (st'.settleHandlers nd tx atx split) := by
  unfold Ledger.settleHandlers
  rw [h.owners]
  split
  · exact .error ⟨rfl, rfl, hst⟩
  · have hreg := h.register
    generalize hr : st.handleRegisterValidator nd tx = r at hreg ⊢
    generalize hr' : st'.handleRegisterValidator nd tx = r' at hreg ⊢
    cases hreg with
    | @error e e' heq =>
      subst heq
      cases e with
      | panicked | blsPoPInvalid => exact .error ⟨rfl, rfl, hst⟩
    | ok hs =>
      obtain ⟨-, hstaked, hsettled⟩ := h.behind hr hr' hs
      dsimp only
      unfold deletesParent
      rw [htracker hstaked]
      split
      · exact .error ⟨rfl, rfl, hstaked⟩
      · exact .ok hsettled

theorem ChargedAlike.commit (h : ChargedAlike R nd tx atx fees fees') (hnd : SameButHolders nd nd')
    (htracker : ∀ {s s'}, R s s' → s'.tracker = s.tracker)
    (hO : ∀ {out out'}, OutcomeAlike R out out' → O out out')
    (hops : fees.proceed = true → ∀ split withheld,
      O (fees.ledger.commitDeclaredOps nd tx commitRound split withheld)
        (fees'.ledger.commitDeclaredOps nd tx commitRound split withheld))
    (hfinish : ∀ {s s'}, R s s' → fees.ledger.settleHandlers nd tx atx fees.split = .ok s →
      fees'.ledger.settleHandlers nd tx atx fees.split = .ok s' →
      O (s.finishTx nd tx atx fees.split fees.withheld)
        (s'.finishTx nd' tx atx fees.split fees.withheld)) :
    O (commitCharged fees nd tx atx commitRound) (commitCharged fees' nd' tx atx commitRound) := by
  obtain ⟨holders, f, rfl⟩ := hnd
  obtain ⟨⟨hledger, hsplit, hwithheld, hproceed⟩, hhandlers⟩ := h
  unfold commitCharged
  rw [hsplit, hwithheld, hproceed]
  cases hgo : fees.proceed with
  | false => exact hO ⟨rfl, rfl, hledger⟩
  | true =>
    simp only [Bool.not_true, Bool.false_eq_true, if_false]
    split
    · exact hops hgo _ _
    · have hsettled := (hhandlers hgo).settleHandlers hledger htracker fees.split
      generalize hr : fees.ledger.settleHandlers nd tx atx _ = r at hsettled ⊢
      generalize hr' : fees'.ledger.settleHandlers nd tx atx fees.split = r' at hsettled
      rw [show fees'.ledger.settleHandlers { nd with computeHolders := holders, isHolder := f } tx
        atx fees.split = r' from hr']
      cases hsettled with
      | error hout => exact hO hout
      | ok hs => exact hfinish hs hr hr'

namespace GatesAlike

variable (h : GatesAlike R nd atx commitRound verdict st st') (hnd : SameButHolders nd nd')

include h hnd

theorem executeTx (hO : ∀ {out out'}, OutcomeAlike R out out' → O out out')
    (hcommit : ∀ {tx}, st.Admits nd atx commitRound verdict tx →
      st'.Admits nd atx commitRound verdict tx → R (st.admitted tx) (st'.admitted tx) →
      O (commitCharged (st.feeStage nd tx atx) nd tx atx commitRound)
        (commitCharged ((st'.admitted tx).deductFees nd' tx atx) nd' tx atx commitRound)) :
    O (st.executeTx nd atx commitRound verdict) (st'.executeTx nd' atx commitRound verdict) := by
  rw [executeTx_eq, executeTx_eq, hnd.admitTx]
  cases h with
  | stopped left right alike =>
    rw [left, right]
    exact hO alike
  | admitted admits admits' left right alike =>
    rw [left, right]
    exact hcommit admits admits' alike

theorem bondApplied (hcharged : ∀ {tx}, st.Admits nd atx commitRound verdict tx →
      st'.Admits nd atx commitRound verdict tx → R (st.admitted tx) (st'.admitted tx) →
      ChargedAlike R nd tx atx (st.feeStage nd tx atx)
        ((st'.admitted tx).deductFees nd' tx atx)) :
    st'.bondApplied nd' atx commitRound verdict = st.bondApplied nd atx commitRound verdict := by
  unfold Ledger.bondApplied
  rw [hnd.admitTx]
  cases h with
  | stopped left right => rw [left, right]
  | admitted admits admits' left right alike =>
    rw [left, right]
    obtain ⟨⟨-, -, -, hproceed⟩, hhandlers⟩ := hcharged admits admits' alike
    dsimp only
    rw [hproceed]
    cases hgo : (deductFees _ nd _ atx).proceed with
    | false => rfl
    | true =>
      obtain ⟨howners, hreg, hbehind⟩ := hhandlers hgo
      rw [howners]
      split
      · rfl
      · obtain ⟨holders, f, rfl⟩ := hnd
        generalize hr : handleRegisterValidator _ nd _ = r at hreg ⊢
        generalize hr' : handleRegisterValidator _ nd _ = r' at hreg
        rw [show handleRegisterValidator _ { nd with computeHolders := holders, isHolder := f } _ =
          r' from hr']
        cases hreg with
        | error => rfl
        | ok hs => exact (hbehind hr hr' hs).1

end GatesAlike

end Walk

/-! ## Payouts -/

/-- The same amount paid, and ledgers related. -/
def PaidAlike (R : Ledger → Ledger → Prop) (p p' : Ledger × UInt64) : Prop :=
  R p.1 p'.1 ∧ p'.2 = p.2

/-- What paying a validator and its delegators reads and writes keeps ledgers related. -/
structure PayoutsAlike (R : Ledger → Ledger → Prop) (cr : Crypto) (v : ValidatorInfo) : Prop where
  positions : ∀ s s', R s s' → s'.delegationsFor v.pubkey = s.delegationsFor v.pubkey
  compound : ∀ s s', R s s' → ∀ delegator reward,
    Option.Rel R (s.compoundDelegation cr delegator v.pubkey reward)
      (s'.compoundDelegation cr delegator v.pubkey reward)
  restake : ∀ s s', R s s' → ∀ stake, R (s.onValidators (·.setSelfStake v.pubkey stake))
    (s'.onValidators (·.setSelfStake v.pubkey stake))
  credit : v.rewardCoin ≠ zeroHash → ∀ s s', R s s' → ∀ amount,
    ResultAlike Eq R (s.creditCoin v.rewardCoin amount) (s'.creditCoin v.rewardCoin amount)

namespace PayoutsAlike

variable {cr : Crypto} {v : ValidatorInfo}

theorem creditDelegators (h : PayoutsAlike R cr v) (hst : R st st')
    (payouts : List DelegatorShare) :
    PaidAlike R (st.creditDelegators cr v.pubkey payouts)
      (st'.creditDelegators cr v.pubkey payouts) := by
  unfold Ledger.creditDelegators
  generalize (0 : UInt64) = credited
  induction payouts generalizing st st' credited with
  | nil => exact ⟨hst, rfl⟩
  | cons del payouts ih =>
    have hone := h.compound st st' hst del.delegator del.amount
    rw [List.foldl_cons, List.foldl_cons]
    dsimp only
    generalize st.compoundDelegation cr del.delegator v.pubkey del.amount = r at hone ⊢
    generalize st'.compoundDelegation cr del.delegator v.pubkey del.amount = r' at hone ⊢
    cases hone with
    | none => exact ih hst credited
    | some hs => exact ih hs (credited + del.amount)

theorem creditValidatorReward (h : PayoutsAlike R cr v) (hst : R st st') (p : ThermostatParams)
    (amount : UInt64) :
    PaidAlike R (st.creditValidatorReward p v amount) (st'.creditValidatorReward p v amount) := by
  unfold Ledger.creditValidatorReward
  dsimp only
  split
  · exact ⟨h.restake st st' hst _, rfl⟩
  · rename_i hcoin
    generalize safeMul amount p.autoRestakeMille / milleMax = restake
    have hfirst : R
        (if restake > 0 then
          { st with validators :=
            st.validators.setSelfStake v.pubkey (safeAdd v.selfStake restake) }
        else st)
        (if restake > 0 then
          { st' with
            validators := st'.validators.setSelfStake v.pubkey (safeAdd v.selfStake restake) }
        else st') := by
      split
      · exact h.restake st st' hst _
      · exact hst
    generalize (if restake > 0 then _ else st) = s at hfirst ⊢
    generalize (if restake > 0 then _ else st') = s' at hfirst ⊢
    have hcredit := h.credit hcoin s s' hfirst (amount - restake)
    generalize s.creditCoin v.rewardCoin (amount - restake) = r at hcredit ⊢
    generalize s'.creditCoin v.rewardCoin (amount - restake) = r' at hcredit ⊢
    cases hcredit with
    | error => exact ⟨hfirst, rfl⟩
    | ok hs => exact ⟨hs, rfl⟩

variable {cfg : Config} {top : Hash} {remainder : UInt64}

theorem creditShare (h : PayoutsAlike R cfg.crypto v) (hst : R st st') (share : UInt64) :
    PaidAlike R (st.creditShare cfg v share) (st'.creditShare cfg v share) := by
  unfold Ledger.creditShare
  rw [h.positions st st' hst]
  generalize splitValidatorReward share v.selfStake cfg.commissionBPS
    (st.delegationsFor v.pubkey) = parts
  obtain _ | ⟨own, payouts⟩ := parts
  · exact ⟨hst, rfl⟩
  obtain ⟨hdel, hamount⟩ := h.creditDelegators hst payouts
  obtain ⟨hown, hcredited⟩ := h.creditValidatorReward hdel cfg.thermostat own
  exact ⟨hown, by dsimp only; rw [hamount, hcredited]⟩

end PayoutsAlike

theorem creditShares_alike {vals : List ValidatorInfo} (h : ∀ v ∈ vals, PayoutsAlike R cfg.crypto v)
    (hst : R st st') (share : ValidatorInfo → UInt64) (distributed : UInt64) :
    PaidAlike R
      (vals.foldl (fun (st, distributed) v =>
        let (st, moved) := st.creditShare cfg v (share v)
        (st, distributed + moved)) (st, distributed))
      (vals.foldl (fun (st, distributed) v =>
        let (st, moved) := st.creditShare cfg v (share v)
        (st, distributed + moved)) (st', distributed)) := by
  induction vals generalizing st st' distributed with
  | nil => exact ⟨hst, rfl⟩
  | cons v vals ih =>
    obtain ⟨hone, hmoved⟩ := (h v List.mem_cons_self).creditShare hst (share v)
    rw [List.foldl_cons, List.foldl_cons]
    dsimp only
    rw [hmoved]
    exact ih (fun w hw => h w (List.mem_cons_of_mem v hw)) hone _

theorem creditRemainder_of_ok {s : Ledger} {v : ValidatorInfo}
    (hget : st.validators.get top = some v) (hcoin : v.rewardCoin ≠ zeroHash) (hrem : remainder ≠ 0)
    (hpaid : st.creditCoin v.rewardCoin remainder = .ok s) :
    st.creditRemainder top remainder = (s, remainder) := by
  simp [creditRemainder, hrem, hget, hcoin, hpaid]

theorem creditRemainder_of_error
    (h : ∀ v, st.validators.get top = some v → v.rewardCoin ≠ zeroHash → ∃ e, st.creditCoin
      v.rewardCoin remainder = .error e) : st.creditRemainder top remainder = (st, 0) := by
  unfold creditRemainder
  split
  · rfl
  · cases hget : st.validators.get top with
    | none => rfl
    | some v =>
      by_cases hcoin : v.rewardCoin = zeroHash
      · simp [hcoin]
      · obtain ⟨e, he⟩ := h v hget hcoin
        simp [hcoin, he]

/-- The remainder goes to a validator with a reward coin. -/
theorem creditRemainder_alike (hst : R st st')
    (hget : (st'.validators.get top).filter (·.rewardCoin ≠ zeroHash) = (st.validators.get
      top).filter (·.rewardCoin ≠ zeroHash))
    (hcredit : ∀ v, st.validators.get top = some v → v.rewardCoin ≠ zeroHash → ResultAlike Eq R
      (st.creditCoin v.rewardCoin remainder) (st'.creditCoin v.rewardCoin remainder)) :
    PaidAlike R (st.creditRemainder top remainder) (st'.creditRemainder top remainder) := by
  have hnone : ∀ {s : Ledger}, (s.validators.get top).filter (·.rewardCoin ≠ zeroHash) = none →
      s.creditRemainder top remainder = (s, 0) := fun hs => creditRemainder_of_error
    fun v hv hcoin => absurd (Option.filter_eq_none_iff.1 hs v hv) (by simpa using hcoin)
  by_cases hrem : remainder = 0
  · subst hrem
    exact ⟨hst, rfl⟩
  · cases hfound : (st.validators.get top).filter (·.rewardCoin ≠ zeroHash) with
    | none =>
      rw [hnone hfound, hnone (hget.trans hfound)]
      exact ⟨hst, rfl⟩
    | some v =>
      obtain ⟨hv, hcoin⟩ := Option.filter_eq_some_iff.1 hfound
      obtain ⟨hv', -⟩ := Option.filter_eq_some_iff.1 (hget.trans hfound)
      have hcoin : v.rewardCoin ≠ zeroHash := by simpa using hcoin
      have hpaid := hcredit v hv hcoin
      generalize hr : st.creditCoin v.rewardCoin remainder = r at hpaid
      generalize hr' : st'.creditCoin v.rewardCoin remainder = r' at hpaid
      cases hpaid with
      | error =>
        rw [creditRemainder_of_error fun w hw _ => Option.some.inj (hv.symm.trans hw) ▸ ⟨_, hr⟩,
          creditRemainder_of_error fun w hw _ => Option.some.inj (hv'.symm.trans hw) ▸ ⟨_, hr'⟩]
        exact ⟨hst, rfl⟩
      | ok hs =>
        rw [creditRemainder_of_ok hv hcoin hrem hr, creditRemainder_of_ok hv' hcoin hrem hr']
        exact ⟨hs, rfl⟩

theorem distributeEpochRewards_alike (hst : R st st') (hvalidators : st'.validators = st.validators)
    (hpay : ∀ v ∈ st.validators.all, PayoutsAlike R cfg.crypto v)
    (hremainder : ∀ {s s'}, R s s' → ∀ top remainder, PaidAlike R (s.creditRemainder top remainder)
      (s'.creditRemainder top remainder)) (produced : Hash → UInt64) (fees issuance : UInt64) :
    PaidAlike R (st.distributeEpochRewards cfg produced fees issuance)
      (st'.distributeEpochRewards cfg produced fees issuance) := by
  unfold distributeEpochRewards
  rw [hvalidators]
  dsimp only
  split
  · exact ⟨hst, rfl⟩
  · have hshares := creditShares_alike hpay hst
      (rewardShare (safeAdd fees issuance) (totalRewardWeight st.validators produced) produced) 0
    generalize List.foldl _ (st, (0 : UInt64)) st.validators.all = p at hshares ⊢
    generalize List.foldl _ (st', (0 : UInt64)) st.validators.all = p' at hshares ⊢
    obtain ⟨hledger, hamount⟩ := hshares
    rw [hamount]
    obtain ⟨hrest, hleft⟩ := hremainder hledger (pickRemainderRecipient st.validators.all produced)
      (safeAdd fees issuance - p.2)
    exact ⟨hrest, by rw [hleft]⟩

end Ledger

end BluePods
