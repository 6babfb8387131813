import BluePods.Hierarchy
import BluePods.Shards

/-! What a transaction that is reported as failed leaves behind. The registration and
stake handlers and the settlement of declared deletions run before the pod is called, and
nothing undoes them when the deletion check or the pod turns the transaction down. -/

namespace BluePods

variable {id coin : Hash} {amount : UInt64}

/-- The ways out that report a failure. An absent transaction and a duplicate report
nothing, and a panic does not return. -/
def Exit.failed : Exit → Bool
  | .nilTx | .duplicate | .panicked | .notHolder | .executed => false
  | .declaredOps applied => !applied
  | _ => true

/-- What a version bump keeps of an entry. -/
def TrackerEntry.unversioned (e : TrackerEntry) : TrackerEntry := { e with version := 0 }

namespace Ledger

/-! ## Only the fee -/

/-- The second ledger differs from the first at most in the balance of the gas coin, the
versions of the mutable references and the mark of the transaction. The coin counter
follows the balance. -/
structure OnlyCharged (tx : Transaction) (st st' : Ledger) : Prop where
  validators : st'.validators = st.validators
  members : st'.committedMembers = st.committedMembers
  additions : st'.epochAdditions = st.epochAdditions
  removals : st'.pendingRemovals = st.pendingRemovals
  domains : st'.domains = st.domains
  supply : st'.totalSupply = st.totalSupply
  marks : ∀ k, tx.txCommitHash ≠ some k → (k ∈ st'.committedTxs ↔ k ∈ st.committedTxs)
  bodies : SameBodies tx st st'
  others : ∀ id, id ∉ tx.mutableRefIDs → st'.tracker.lookup id = st.tracker.lookup id
  entries : ∀ id, (st'.tracker.entry id).unversioned = (st.tracker.entry id).unversioned
  tracked : ∀ id, (st.tracker.lookup id).isSome → (st'.tracker.lookup id).isSome

/-! ## The tracker -/

end Ledger

namespace Tracker

variable {ot : Tracker}

theorem lookup_incrementMutableObjects (ot : Tracker) (tx : Transaction)
    (h : id ∉ tx.mutableRefIDs) : (ot.incrementMutableObjects tx).lookup id = ot.lookup id := by
  unfold incrementMutableObjects
  revert h
  induction tx.mutableRefIDs generalizing ot with
  | nil => exact fun _ => rfl
  | cons x ids ih =>
    intro h
    rw [List.foldl_cons, ih _ (List.not_mem_of_not_mem_cons h), bumpVersion_eq,
      AList.lookup_insert_ne (List.ne_of_not_mem_cons h)]

theorem isSome_incrementMutableObjects (ot : Tracker) (tx : Transaction)
    (h : (ot.lookup id).isSome) : ((ot.incrementMutableObjects tx).lookup id).isSome := by
  unfold incrementMutableObjects
  induction tx.mutableRefIDs generalizing ot with
  | nil => exact h
  | cons x ids ih =>
    refine ih _ ?_
    rw [bumpVersion_eq]
    by_cases hid : id = x
    · rw [hid, AList.lookup_insert]
      rfl
    · rwa [AList.lookup_insert_ne hid]

/-- An entry with nothing in it but a version. -/
def Blank (ot : Tracker) (id : Hash) : Prop := (ot.entry id).unversioned = {}

theorem unversioned_incrementMutableObjects (ot : Tracker) (tx : Transaction) (id : Hash) :
    ((ot.incrementMutableObjects tx).entry id).unversioned = (ot.entry id).unversioned :=
  entry_incrementMutableObjects TrackerEntry.unversioned (fun _ _ => rfl) ot tx id

theorem Blank.of_untracked {tx : Transaction} (h : ot.lookup id = none) :
    (ot.incrementMutableObjects tx).Blank id := by
  rw [Blank, unversioned_incrementMutableObjects, entry, h]
  rfl

theorem Blank.getFees (h : ot.Blank id) : ot.getFees id = 0 :=
  congrArg TrackerEntry.fees h

/-- Nobody counts a blank entry as a child. -/
theorem Blank.deleteObject (h : ot.Blank id) : ot.deleteObject id = ot.erase id := by
  have hkind : (ot.entry id).parentKind = keyRootKind := congrArg TrackerEntry.parentKind h
  unfold Tracker.deleteObject getParent
  unfold entry at hkind
  cases hlookup : ot.lookup id with
  | none => rfl
  | some e =>
    rw [hlookup] at hkind
    have hkey : e.parentKind = keyRootKind := hkind
    simp [adjustChildCount, hkey, keyRootKind, objectParentKind]

theorem Blank.erase {id' : Hash} (h : ot.Blank id) : Tracker.Blank (ot.erase id') id := by
  unfold Blank entry at *
  by_cases hid : id = id'
  · rw [hid, show (AList.erase id' ot).lookup id' = none from AList.lookup_erase ..]
    rfl
  · rwa [show (AList.erase id' ot).lookup id = ot.lookup id from AList.lookup_erase_ne hid]

end Tracker

namespace Ledger

variable {st : Ledger}

/-- Deleting what has only a version leaves a gap in the tracker and nothing else. -/
theorem settleDeletions_blank (st : Ledger) (p : FeeParams) (tx : Transaction) {ids : List Hash}
    (h : ∀ id ∈ ids, st.tracker.Blank id) :
    st.settleDeletions p tx ids =
      { st with tracker := ids.foldl (fun ot id => ot.erase id) st.tracker } := by
  unfold settleDeletions
  induction ids generalizing st with
  | nil => rfl
  | cons id ids ih =>
    have hblank := h id List.mem_cons_self
    have hstep : (st.settleDeletion p id tx.txGasCoinID).1 =
        { st with tracker := st.tracker.erase id } := by
      simp only [settleDeletion, hblank.getFees, if_true, hblank.deleteObject]
    rw [List.foldl_cons, hstep, ih]
    · rfl
    · exact fun x hx => (h x (List.mem_cons_of_mem _ hx)).erase

/-! ## The stages before the handlers -/

namespace OnlyCharged

variable {tx : Transaction} {st st' st'' : Ledger}

theorem trans (h : OnlyCharged tx st st') (h' : OnlyCharged tx st' st'') :
    OnlyCharged tx st st'' where
  validators := h'.validators.trans h.validators
  members := h'.members.trans h.members
  additions := h'.additions.trans h.additions
  removals := h'.removals.trans h.removals
  domains := h'.domains.trans h.domains
  supply := h'.supply.trans h.supply
  marks k hk := (h'.marks k hk).trans (h.marks k hk)
  bodies := h.bodies.trans h'.bodies
  others id hid := (h'.others id hid).trans (h.others id hid)
  entries id := (h'.entries id).trans (h.entries id)
  tracked id hid := h'.tracked id (h.tracked id hid)

theorem of_parts {objects : ObjectStore} {coins : UInt64} {marks : List Hash} {tracker : Tracker}
    (hbodies : SameBodies tx st { st with objects })
    (hmarks : ∀ k, tx.txCommitHash ≠ some k → (k ∈ marks ↔ k ∈ st.committedTxs))
    (hothers : ∀ id, id ∉ tx.mutableRefIDs → tracker.lookup id = st.tracker.lookup id)
    (hentries : ∀ id, (tracker.entry id).unversioned = (st.tracker.entry id).unversioned)
    (htracked : ∀ id, (st.tracker.lookup id).isSome → (tracker.lookup id).isSome) :
    OnlyCharged tx st { st with objects, coinsTotal := coins, committedTxs := marks, tracker } :=
  ⟨rfl, rfl, rfl, rfl, rfl, rfl, hmarks, hbodies, hothers, hentries, htracked⟩

theorem of_bodies {objects : ObjectStore} {coins : UInt64}
    (h : SameBodies tx st { st with objects, coinsTotal := coins }) :
    OnlyCharged tx st { st with objects, coinsTotal := coins } :=
  of_parts h (fun _ _ => Iff.rfl) (fun _ _ => rfl) (fun _ => rfl) fun _ h => h

theorem refl (tx : Transaction) (st : Ledger) : OnlyCharged tx st st :=
  of_bodies (SameBodies.of_objects rfl)

theorem mem_marks_iff {k : Hash} (hk : tx.txCommitHash ≠ some k) :
    k ∈ (st.markCommitted tx).committedTxs ↔ k ∈ st.committedTxs := by
  rw [mem_markCommitted]
  exact or_iff_left hk

theorem markCommitted (st : Ledger) (tx : Transaction) :
    OnlyCharged tx st (st.markCommitted tx) := by
  rw [markCommitted_eq]
  exact of_parts (.of_objects rfl) (fun _ => mem_marks_iff) (fun _ _ => rfl) (fun _ => rfl)
    fun _ h => h

theorem admitted (st : Ledger) (tx : Transaction) : OnlyCharged tx st (st.admitted tx) := by
  rw [admitted_eq]
  exact of_parts (.of_objects rfl) (fun _ => mem_marks_iff)
    (fun id hid => st.tracker.lookup_incrementMutableObjects tx hid)
    (st.tracker.unversioned_incrementMutableObjects tx)
    fun id hid => st.tracker.isSome_incrementMutableObjects tx hid

theorem deductFees (st : Ledger) (nd : Node) (tx : Transaction) (atx : AttestedTransaction) :
    OnlyCharged tx st (st.deductFees nd tx atx).ledger := by
  have hbodies := SameBodies.deductFees st nd tx atx
  rcases st.deductFees_ledger nd tx atx with heq | ⟨_, _, _, _, -, -, heq⟩
  · rw [heq]
    exact refl tx st
  · rw [heq] at hbodies ⊢
    exact of_bodies hbodies

theorem of_admitTx {nd : Node} {atx : AttestedTransaction} {commitRound : Nat}
    {verdict : Option ProofError} {out : Outcome} (htx : atx.transaction = some tx)
    (h : st.admitTx nd atx commitRound verdict = .error out) : OnlyCharged tx st out.ledger := by
  by_cases hpass : ∃ tx, PassesGates nd atx commitRound verdict tx
  · obtain ⟨tx', hgates⟩ := hpass
    obtain rfl : tx' = tx := Option.some.inj (hgates.transaction.symm.trans htx)
    rw [admitTx_of_passesGates hgates] at h
    split at h
    · obtain rfl := Except.error.inj h
      exact refl tx' st
    · split at h
      · obtain rfl := Except.error.inj h
        exact markCommitted st tx'
      · cases h
  · obtain ⟨exit, -, herr⟩ := @admitTx_of_not_passesGates st nd atx commitRound verdict
      fun tx hgates => hpass ⟨tx, hgates⟩
    rw [h] at herr
    rw [Except.error.inj herr]
    exact refl tx st

end OnlyCharged

/-- The ledger the handlers start from: the gates passed and the fee taken. -/
def charged (st : Ledger) (nd : Node) (tx : Transaction) (atx : AttestedTransaction) : Ledger :=
  ((st.admitted tx).deductFees nd tx atx).ledger

theorem onlyCharged_charged (st : Ledger) (nd : Node) (tx : Transaction)
    (atx : AttestedTransaction) : OnlyCharged tx st (st.charged nd tx atx) :=
  (OnlyCharged.admitted st tx).trans (.deductFees _ nd tx atx)

/-! ## The handlers -/

/-- The transaction gets as far as the handlers: it passes the gates, pays its fee, is a
call, owns what it changes and proves the key it registers. -/
structure ReachesHandlers (st : Ledger) (nd : Node) (atx : AttestedTransaction)
    (commitRound : Nat) (verdict : Option ProofError) (tx : Transaction) : Prop where
  admits : st.Admits nd atx commitRound verdict tx
  pays : ((st.admitted tx).deductFees nd tx atx).proceed = true
  call : tx.operations = []
  owns : st.validateMutableRefOwnership atx tx = true
  proves : unprovenRegistration nd tx = false

/-- A coin that an amount can be added to. -/
def CanCredit (st : Ledger) (coin : Hash) (amount : UInt64) : Prop :=
  amount = 0 ∨ ∃ balance, st.balanceOf coin = some balance ∧ balance ≤ balance + amount

/-- The validator set a registration asks for. -/
def registeredSet (vs : ValidatorSet) (tx : Transaction) (args : RegisterArgs) (pubkey : Hash)
    (blsPubkey : BLSKey) : ValidatorSet :=
  match rewardCoinFromArgs tx args with
  | some coin => (vs.add pubkey args.quicAddr blsPubkey).setRewardCoin pubkey coin
  | none => vs.add pubkey args.quicAddr blsPubkey

/-- What the handlers and the settlement behind them change. A registration or a
deregistration asks for something new; a stake function is called with all it checks in
order; or a tracked object is deleted and none of the deleted ones has children. A bond
out of the gas coin to a stake that cannot rise is the one stake movement that leaves
nothing but a balance. -/
inductive Moves (st : Ledger) (nd : Node) (tx : Transaction) (atx : AttestedTransaction) : Prop
  | register {pubkey : Hash} {args : RegisterArgs} {blsPubkey : BLSKey}
      (call : nd.isSystemFunc tx registerValidatorFunc = true)
      (sender : hash32 tx.sender = some pubkey)
      (decoded : decodeRegisterValidatorArgs tx.args = some args)
      (proven : verifiedRegistrationBLSKey nd.crypto pubkey args.blsPubkey args.blsPoP =
        some blsPubkey)
      (new : pubkey ∉ st.committedMembers ∨
        registeredSet st.validators tx args pubkey blsPubkey ≠ st.validators)
  | deregister {pubkey : Hash}
      (call : nd.isSystemFunc tx deregisterValidatorFunc = true)
      (sender : hash32 tx.sender = some pubkey)
      (new : pubkey ∉ st.pendingRemovals)
  | bond {sender coin : Hash} {amount : UInt64} {v : ValidatorInfo}
      (parse : parseStakeTx nd tx bondFunc = some (sender, coin, amount))
      (validator : st.validators.get sender = some v)
      (minStake : nd.minStake ≤ safeAdd v.selfStake amount)
      (debit : (st.charged nd tx atx).CanDebit (st.charged nd tx atx).balanceOf coin amount)
      (new : safeAdd v.selfStake amount ≠ v.selfStake ∨ tx.txGasCoinID ≠ some coin)
  | unbond {sender coin : Hash} {amount : UInt64} {v : ValidatorInfo}
      (parse : parseStakeTx nd tx unbondFunc = some (sender, coin, amount))
      (validator : st.validators.get sender = some v)
      (covers : amount ≤ v.selfStake)
      (minStake : ¬ (nd.minStake > 0 ∧ v.selfStake - amount > 0 ∧
        v.selfStake - amount < nd.minStake))
      (credit : (st.charged nd tx atx).CanCredit coin amount)
  | delegate {delegator coin validator : Hash} {amount : UInt64} {v : ValidatorInfo}
      (parse : parseDelegateTx nd tx delegateFunc true = some (delegator, coin, validator, amount))
      (target : st.validators.get validator = some v)
      (free : v.jailed = false)
      (debit : (st.charged nd tx atx).CanDebit (st.charged nd tx atx).balanceOf coin amount)
  | undelegate {delegator coin validator : Hash} {a amount : UInt64}
      (parse : parseDelegateTx nd tx undelegateFunc false = some (delegator, coin, validator, a))
      (position : (st.charged nd tx atx).readDelegationAmount
        (delegationID nd.crypto delegator validator) validator = some amount)
      (credit : (st.charged nd tx atx).CanCredit coin amount)
  | deletion {id : Hash} (declared : id ∈ ownedDeletedRefs tx)
      (tracked : (st.tracker.lookup id).isSome)
      (childless : ∀ id ∈ ownedDeletedRefs tx, st.tracker.childCount id = 0)

/-! ## What a handler that applies writes -/

section Handlers

variable {st' : Ledger} {pubkey : Hash} {v : ValidatorInfo} {st st₁ : Ledger} {nd : Node}
  {tx : Transaction}

theorem CanCredit.creditCoin (h : st.CanCredit coin amount) :
    ∃ st', st.creditCoin coin amount = .ok st' := by
  rcases h with rfl | ⟨balance, hb, hle⟩
  · exact ⟨st, rfl⟩
  · cases ho : st.getObject coin with
    | none =>
      rw [balanceOf, ho] at hb
      cases hb
    | some o =>
      rw [balanceOf_of_get ho] at hb
      unfold Ledger.creditCoin
      simp only [ho, hb, UInt64.not_lt.2 hle, if_false]
      split <;> exact ⟨_, rfl⟩

theorem CanCredit.of_creditCoin (h : st.creditCoin coin amount = .ok st') :
    st.CanCredit coin amount := by
  rcases creditCoin_ok h with ⟨hzero, -⟩ | ⟨o, balance, ho, hb, hle, -⟩
  · exact .inl hzero
  · exact .inr ⟨balance, by rw [balanceOf_of_get ho, hb], hle⟩

theorem handleRegisterValidator_of {args : RegisterArgs} {blsPubkey : BLSKey}
    (hr : Registers nd tx pubkey args blsPubkey) (h : st.handleRegisterValidator nd tx = .ok st₁) :
    st₁.validators = registeredSet st.validators tx args pubkey blsPubkey ∧
      pubkey ∈ st₁.committedMembers ∧
      (pubkey ∈ st.committedMembers →
        st₁ = { st with validators := registeredSet st.validators tx args pubkey blsPubkey }) := by
  rw [hr.handle] at h
  obtain rfl := Except.ok.inj h
  refine ⟨rfl, ?_, fun hmember => ?_⟩
  · by_cases hmember : pubkey ∈ st.committedMembers <;> simp [registered, hmember]
  · simp only [registered, hmember, decide_true, if_true, Bool.not_true, Bool.false_and,
      Bool.false_eq_true, if_false]
    rfl

/-- A registration of nobody, or of somebody who is registered like that. -/
theorem handleRegisterValidator_idle (h : st.handleRegisterValidator nd tx = .ok st₁)
    (hidle : ∀ pubkey args blsPubkey, Registers nd tx pubkey args blsPubkey →
      pubkey ∈ st.committedMembers ∧
        registeredSet st.validators tx args pubkey blsPubkey = st.validators) : st₁ = st := by
  rcases handleRegisterValidator_inv h with rfl | ⟨pubkey, args, bls, hr, -⟩
  · rfl
  · obtain ⟨hmember, hset⟩ := hidle pubkey args bls hr
    rw [(handleRegisterValidator_of hr h).2.2 hmember, hset]

theorem handleStake_of_call {fn : Bytes} (h : nd.isSystemFunc tx fn = true)
    (hfn : fn ∉ [bondFunc, unbondFunc, delegateFunc, undelegateFunc]) (st : Ledger) :
    st.handleStake nd tx = st := by
  rcases st.handleStake_cases nd tx with heq | hstep
  · exact heq
  · rw [hstep.not_calls hfn] at h
    cases h

theorem handleDeregisterValidator_of_not (h : nd.isSystemFunc tx deregisterValidatorFunc = false)
    (st : Ledger) : st.handleDeregisterValidator nd tx = st := by
  simp [handleDeregisterValidator, h]

/-- A transaction that registers moves no stake and removes nobody. -/
theorem staked_of_register (h : nd.isSystemFunc tx registerValidatorFunc = true) (st : Ledger) :
    st.staked nd tx = st := by
  have hother : nd.isSystemFunc tx deregisterValidatorFunc = false := by
    rw [Bool.eq_false_iff]
    exact fun hcall => absurd (isSystemFunc_unique h hcall) (by decide)
  rw [staked, handleDeregisterValidator_of_not hother, handleStake_of_call h (by decide)]

theorem StakeStep.staked_eq (h : StakeStep st nd tx st') : st.staked nd tx = st' := by
  rw [staked, handleDeregisterValidator_of_not (h.not_calls (by decide)), h.handleStake_eq]

theorem handleUnbond_minStake {sender : Hash}
    (hparse : parseStakeTx nd tx unbondFunc = some (sender, coin, amount))
    (hv : st.validators.get sender = some v) (h : st.handleUnbond nd tx = some st₁) :
    ¬ (nd.minStake > 0 ∧ v.selfStake - amount > 0 ∧ v.selfStake - amount < nd.minStake) := by
  intro hlow
  simp [handleUnbond, hparse, hv, hlow] at h

/-- A stake step that pays out of the gas coin into a stake that cannot rise. -/
theorem OnlyCharged.bond {sender : Hash} (hv : st.validators.get sender = some v)
    (hd : st.strictDebit coin amount = some st') (hrise : safeAdd v.selfStake amount = v.selfStake)
    (hgas : tx.txGasCoinID = some coin) :
    OnlyCharged tx st { st' with
      validators := st'.validators.setSelfStake sender (safeAdd v.selfStake amount) } := by
  obtain ⟨o, balance, ho, -, -, -, rfl⟩ := strictDebit_some hd
  have hsame : st.validators.setSelfStake sender (safeAdd v.selfStake amount) = st.validators := by
    rw [hrise]
    exact ValidatorSet.modify_eq_self hv rfl
  have hbodies := SameBodies.setBalance hgas ho (balance - amount)
  simp only [subCoins_validators, setObject_validators, hsame]
  exact of_bodies hbodies

variable {atx : AttestedTransaction}

/-- Handlers that find nothing new to do leave the charge. -/
theorem OnlyCharged.of_not_moves (h : ¬ st.Moves nd tx atx)
    (hreg : (st.charged nd tx atx).handleRegisterValidator nd tx = .ok st₁) :
    OnlyCharged tx st (st₁.staked nd tx) := by
  have hcharged := st.onlyCharged_charged nd tx atx
  have hidle : st₁ = st.charged nd tx atx := by
    refine handleRegisterValidator_idle hreg fun pubkey args blsPubkey hr => ?_
    rw [hcharged.members, hcharged.validators]
    by_contra hnew
    refine h (.register hr.call hr.sender hr.decoded hr.proven ?_)
    by_cases hmember : pubkey ∈ st.committedMembers
    · exact .inr fun hset => hnew ⟨hmember, hset⟩
    · exact .inl hmember
  obtain rfl := hidle
  have hderegister : (st.charged nd tx atx).handleDeregisterValidator nd tx =
      st.charged nd tx atx := by
    cases call : nd.isSystemFunc tx deregisterValidatorFunc with
    | false => exact handleDeregisterValidator_of_not call _
    | true =>
      cases sender : hash32 tx.sender with
      | none => simp [handleDeregisterValidator, sender]
      | some pubkey =>
        have hpending : pubkey ∈ (st.charged nd tx atx).pendingRemovals := by
          rw [hcharged.removals]
          by_contra hnew
          exact h (.deregister call sender hnew)
        simp [handleDeregisterValidator, sender, hpending]
  rw [staked, hderegister]
  rcases (st.charged nd tx atx).handleStake_cases nd tx with heq | hstep
  · rw [heq]
    exact hcharged
  · generalize (st.charged nd tx atx).handleStake nd tx = st' at hstep ⊢
    cases hstep with
    | bond hbond =>
      obtain ⟨sender, coin, amount, v, st₂, hparse, hv, hmin, hd, rfl⟩ := handleBond_some hbond
      have hv' := hv
      rw [hcharged.validators] at hv'
      have hcan := (CanDebit.of_strictDebit hd).1
      have hpinned : safeAdd v.selfStake amount = v.selfStake ∧ tx.txGasCoinID = some coin := by
        by_contra hnew
        refine h (.bond hparse hv' hmin hcan ?_)
        exact not_and_or.1 hnew
      exact hcharged.trans (.bond hv hd hpinned.1 hpinned.2)
    | unbond hunbond =>
      obtain ⟨sender, coin, amount, v, st₂, hparse, hv, hle, hc, rfl⟩ := handleUnbond_some hunbond
      have hmin := handleUnbond_minStake hparse hv hunbond
      rw [hcharged.validators] at hv
      exact absurd (.unbond hparse hv hle hmin (.of_creditCoin hc)) h
    | delegate hdelegate =>
      obtain ⟨delegator, coin, validator, amount, v, st₂, hparse, hv, hfree, hd, rfl⟩ :=
        handleDelegate_some hdelegate
      rw [hcharged.validators] at hv
      exact absurd (.delegate hparse hv hfree (CanDebit.of_strictDebit hd).1) h
    | undelegate hundelegate =>
      obtain ⟨delegator, coin, validator, a, amount, st₂, hparse, hposition, hc, rfl⟩ :=
        handleUndelegate_some hundelegate
      exact absurd (.undelegate hparse hposition (.of_creditCoin hc)) h

/-! ## What the handlers change stays -/

/-- The parts of a ledger that the settlement of deletions leaves, and a charge too. -/
structure Undisturbed (tx : Transaction) (st st' : Ledger) : Prop where
  validators : st'.validators = st.validators
  members : st'.committedMembers = st.committedMembers
  removals : st'.pendingRemovals = st.pendingRemovals
  bodies : SameBodies tx st st'

theorem OnlyCharged.undisturbed (h : OnlyCharged tx st st') : Undisturbed tx st st' :=
  ⟨h.validators, h.members, h.removals, h.bodies⟩

theorem undisturbed_settleDeletions (st : Ledger) (p : FeeParams) (tx : Transaction)
    (ids : List Hash) : Undisturbed tx st (st.settleDeletions p tx ids) where
  validators := settleDeletions_validators st p tx ids
  members := congrArg Book.committedMembers (book_settleDeletions st p tx ids)
  removals := congrArg Book.pendingRemovals (book_settleDeletions st p tx ids)
  bodies := .settleDeletions st p tx ids

theorem SameBodies.get_eq_none (h : SameBodies tx st st') :
    st'.getObject id = none ↔ st.getObject id = none := by
  rcases h id with heq | ⟨-, o, b, ho, ho'⟩
  · rw [heq]
  · rw [ho, ho']
    simp

theorem sub_ne_self {a b : UInt64} (hb : 0 < b) : a - b ≠ a := by
  intro h
  have hzero : b = 0 := by simpa using h
  exact absurd hzero (UInt64.pos_iff_ne_zero.1 hb)

theorem setSelfStake_ne {vs : ValidatorSet} {stake : UInt64} (hv : vs.get pubkey = some v)
    (hne : stake ≠ v.selfStake) : vs.setSelfStake pubkey stake ≠ vs := by
  intro heq
  have hget := congrArg (fun vs => (ValidatorSet.get vs pubkey).map (·.selfStake)) heq
  simp only [ValidatorSet.setSelfStake, ValidatorSet.get_modify, hv, Option.map_some,
    Option.some.injEq] at hget
  exact hne hget

theorem addDelegated_ne {vs : ValidatorSet} (hv : vs.get pubkey = some v) (hpos : 0 < amount) :
    vs.addDelegated pubkey amount ≠ vs := by
  intro heq
  have hget := congrArg (fun vs => (ValidatorSet.get vs pubkey).map (·.delegatedTotal)) heq
  simp only [ValidatorSet.addDelegated, ValidatorSet.get_modify, hv, Option.map_some,
    Option.some.injEq] at hget
  have hzero : amount = 0 := by simpa using hget
  exact absurd hzero (UInt64.pos_iff_ne_zero.1 hpos)

/-- What a handler changed is not undone by what comes after it. -/
theorem Moves.not_undisturbed {final : Ledger} (h : st.Moves nd tx atx)
    (hkeep : ∀ id ∈ ownedDeletedRefs tx, (st.tracker.lookup id).isSome →
      (∀ id ∈ ownedDeletedRefs tx, st.tracker.childCount id = 0) → False)
    (hreg : (st.charged nd tx atx).handleRegisterValidator nd tx = .ok st₁)
    (hfinal : Undisturbed tx (st₁.staked nd tx) final) : ¬ Undisturbed tx st final := by
  intro hsame
  have hcharged := (st.onlyCharged_charged nd tx atx).undisturbed
  -- A stake step starts from the charged ledger.
  have hstepped : ∀ {st'}, StakeStep (st.charged nd tx atx) nd tx st' →
      st₁.staked nd tx = st' := by
    intro st' hstep
    obtain rfl := (handleRegisterValidator_ok hreg).2.2.2.2.2 hstep.not_register
    exact hstep.staked_eq
  have hvalidators : (st₁.staked nd tx).validators = st.validators :=
    hfinal.validators.symm.trans hsame.validators
  cases h with
  | @register pubkey args blsPubkey call sender decoded proven new =>
    obtain ⟨hset, hmember, -⟩ := handleRegisterValidator_of ⟨call, sender, decoded, proven⟩ hreg
    rw [staked_of_register call, hset, hcharged.validators] at hvalidators
    rcases new with hnew | hnew
    · rw [← hsame.members, hfinal.members, staked_of_register call] at hnew
      exact hnew hmember
    · exact hnew hvalidators
  | @deregister pubkey call sender new =>
    have hother : nd.isSystemFunc tx registerValidatorFunc = false := by
      rw [Bool.eq_false_iff]
      exact fun hcall => absurd (isSystemFunc_unique call hcall) (by decide)
    obtain rfl := (handleRegisterValidator_ok hreg).2.2.2.2.2 hother
    have hpending : pubkey ∈ ((st.charged nd tx atx).staked nd tx).pendingRemovals := by
      rw [staked, handleStake_of_call call (by decide), handleDeregisterValidator]
      simp only [call, sender, Bool.not_true, Bool.false_eq_true, if_false]
      split
      · assumption
      · simp
    rw [← hfinal.removals, hsame.removals] at hpending
    exact new hpending
  | @bond sender coin amount v parse validator minStake debit new =>
    obtain ⟨st₂, hd⟩ := debit.strictDebit
    have hv := validator
    rw [← hcharged.validators] at hv
    have hbond : (st.charged nd tx atx).handleBond nd tx = some { st₂ with
        validators := st₂.validators.setSelfStake sender (safeAdd v.selfStake amount) } := by
      simp [handleBond, parse, hv, UInt64.not_lt.2 minStake, hd]
    have hstaked := hstepped (.bond hbond)
    rcases new with hrise | hgas
    · rw [hstaked] at hvalidators
      simp only [strictDebit_validators hd, hcharged.validators] at hvalidators
      exact setSelfStake_ne validator hrise hvalidators
    · obtain ⟨-, balance, hb, hdebited⟩ := CanDebit.of_strictDebit hd
      have hlower : (st₁.staked nd tx).balanceOf coin = some (balance - amount) := by
        rw [hstaked, balanceOf_withValidators, hdebited, if_pos rfl]
      rw [← hfinal.bodies.balanceOf_eq hgas, hsame.bodies.balanceOf_eq hgas,
        ← hcharged.bodies.balanceOf_eq hgas, hb, Option.some.injEq] at hlower
      exact sub_ne_self (parseStakeTx_amount parse) hlower.symm
  | @unbond sender coin amount v parse validator covers minStake credit =>
    obtain ⟨st₂, hc⟩ := credit.creditCoin
    have hv := validator
    rw [← hcharged.validators] at hv
    have hunbond : (st.charged nd tx atx).handleUnbond nd tx = some { st₂ with
        validators := st₂.validators.setSelfStake sender (v.selfStake - amount) } := by
      simp [handleUnbond, parse, hv, UInt64.not_lt.2 covers, minStake, hc, Except.toOption]
    rw [hstepped (.unbond hunbond)] at hvalidators
    simp only [(creditCoin_frame hc).1, hcharged.validators] at hvalidators
    exact setSelfStake_ne validator (sub_ne_self (parseStakeTx_amount parse)) hvalidators
  | @delegate delegator coin validator amount v parse target free debit =>
    obtain ⟨st₂, hd⟩ := debit.strictDebit
    have hv := target
    rw [← hcharged.validators] at hv
    rw [hstepped (.delegate (handleDelegate_of parse hv free hd))] at hvalidators
    simp only [strictDebit_validators hd, hcharged.validators] at hvalidators
    exact addDelegated_ne target (parseDelegateTx_amount parse) hvalidators
  | @undelegate delegator coin validator a amount parse position credit =>
    obtain ⟨st₂, hc⟩ := credit.creditCoin
    have hundelegate : (st.charged nd tx atx).handleUndelegate nd tx =
        some { st₂.deleteObject (delegationID nd.crypto delegator validator) with
          validators := st₂.validators.subDelegated validator amount } := by
      simp [handleUndelegate, parse, position, hc, Except.toOption]
    have hgone : (st₁.staked nd tx).getObject (delegationID nd.crypto delegator validator) =
        none := by
      rw [hstepped (.undelegate hundelegate)]
      exact (ObjectStore.get_delete ..).trans (if_pos rfl)
    rw [← hfinal.bodies.get_eq_none, hsame.bodies.get_eq_none,
      ← hcharged.bodies.get_eq_none] at hgone
    simp [readDelegationAmount, hgone] at position
  | @deletion id declared tracked childless => exact hkeep id declared tracked childless

/-! ## The whole transaction -/

theorem staked_tracker_of_register
    (hreg : (st.charged nd tx atx).handleRegisterValidator nd tx = .ok st₁) :
    (st₁.staked nd tx).tracker = st.tracker.incrementMutableObjects tx := by
  rw [staked_tracker]
  exact (handleRegisterValidator_ok hreg).2.1.trans
    (((st.admitted tx).deductFees_frame nd tx atx).1.trans (admitted_tracker st tx))

theorem deletesParent_staked
    (hreg : (st.charged nd tx atx).handleRegisterValidator nd tx = .ok st₁) :
    (st₁.staked nd tx).deletesParent tx = st.deletesParent tx := by
  unfold deletesParent
  rw [staked_tracker_of_register hreg]
  simp only [Tracker.childCount_incrementMutableObjects]

end Handlers

/-- Where a failed transaction ends: before the handlers with a charge at most, or behind
them, with the declared deletions settled unless one of them has children. -/
theorem executeTx_failed (st : Ledger) (nd : Node) (atx : AttestedTransaction)
    (commitRound : Nat) (verdict : Option ProofError)
    (hfail : (st.executeTx nd atx commitRound verdict).exit.failed = true) :
    ∃ tx, atx.transaction = some tx ∧
      let final := (st.executeTx nd atx commitRound verdict).ledger
      ((∀ tx', ¬ st.ReachesHandlers nd atx commitRound verdict tx') ∧ OnlyCharged tx st final ∨
        st.ReachesHandlers nd atx commitRound verdict tx ∧
          ∃ st₁, (st.charged nd tx atx).handleRegisterValidator nd tx = .ok st₁ ∧
            (st.deletesParent tx = true ∧ final = st₁.staked nd tx ∨
              st.deletesParent tx = false ∧ final =
                (st₁.staked nd tx).settleDeletions nd.feeParams tx (ownedDeletedRefs tx))) := by
  rcases st.admitTx_cases nd atx commitRound verdict with
    ⟨marks, exit, -, herr, hno⟩ | ⟨tx, hadmits, hok⟩
  · have hout : st.executeTx nd atx commitRound verdict =
        { ledger := { st with committedTxs := marks }, exit } := by
      simp [executeTx, prepareTx, herr, bind, Except.bind]
    rw [hout] at hfail ⊢
    cases htx : atx.transaction with
    | none =>
      simp only [admitTx, htx, Except.error.injEq, Outcome.mk.injEq] at herr
      obtain ⟨-, -, rfl⟩ := herr
      cases hfail
    | some tx =>
      exact ⟨tx, rfl, .inl ⟨fun tx' hreach => hno tx' hreach.admits, .of_admitTx htx herr⟩⟩
  refine ⟨tx, hadmits.transaction, ?_⟩
  have hcharged := st.onlyCharged_charged nd tx atx
  have hunique : ∀ {tx'}, st.ReachesHandlers nd atx commitRound verdict tx' → tx' = tx :=
    fun h => Option.some.inj (h.admits.transaction.symm.trans hadmits.transaction)
  rcases st.prepareTx_cases nd atx commitRound verdict with
    ⟨_, _, -, -, hno⟩ | ⟨tx', hadmits', hstages⟩
  · exact absurd hadmits (hno tx)
  obtain rfl : tx' = tx :=
    Option.some.inj (hadmits'.transaction.symm.trans hadmits.transaction)
  rcases hstages with ⟨hpays, heq⟩ | ⟨-, hops, heq⟩ | ⟨hpays, hcall, heq⟩
  · simp only [executeTx, heq]
    refine .inl ⟨fun tx' hreach => ?_, hcharged⟩
    obtain rfl := hunique hreach
    rw [hreach.pays] at hpays
    cases hpays
  · simp only [executeTx, heq] at hfail ⊢
    refine .inl ⟨fun tx' hreach => ?_, ?_⟩
    · obtain rfl := hunique hreach
      exact hops hreach.call
    · simp only [commitDeclaredOps, Exit.failed, Bool.not_eq_true', Option.isSome_eq_false_iff,
        Option.isNone_iff_eq_none] at hfail ⊢
      rw [hfail]
      exact hcharged
  · have hown := st.validateMutableRefOwnership_charged nd tx' atx
    rcases settleTx_cases (st.feeStage nd tx' atx).ledger nd tx' atx
        (st.feeStage nd tx' atx).split with
      ⟨hnot, hset⟩ | ⟨howns, ⟨-, hset⟩ | ⟨hun, hset⟩ | ⟨st₁, hreg, hproves, hrest⟩⟩
    · simp only [executeTx, heq, hset, Except.map]
      refine .inl ⟨fun tx hreach => ?_, hcharged⟩
      obtain rfl := hunique hreach
      rw [hown, hreach.owns] at hnot
      cases hnot
    · simp only [executeTx, heq, hset, Except.map] at hfail
      cases hfail
    · simp only [executeTx, heq, hset, Except.map]
      refine .inl ⟨fun tx hreach => ?_, hcharged⟩
      obtain rfl := hunique hreach
      rw [hreach.proves] at hun
      cases hun
    · have hreach : st.ReachesHandlers nd atx commitRound verdict tx' :=
        ⟨hadmits, hpays, hcall, hown ▸ howns, hproves⟩
      refine .inr ⟨hreach, st₁, hreg, ?_⟩
      have hdeletes := deletesParent_staked hreg
      rcases hrest with ⟨hparent, hset⟩ | ⟨hparent, ⟨-, hset⟩ | hset⟩
      · simp only [executeTx, heq, hset, Except.map]
        exact .inl ⟨hdeletes ▸ hparent, trivial⟩
      · simp only [executeTx, heq, hset, Except.map] at hfail
        cases hfail
      · refine .inr ⟨hdeletes ▸ hparent, ?_⟩
        simp only [executeTx, heq, hset, Except.map, runPod] at hfail ⊢
        split
        · rename_i hexec
          rw [hexec] at hfail
          cases hfail
        · rfl

theorem OnlyCharged.settleDeletions {handled : Ledger} {tx : Transaction} (p : FeeParams)
    (h : OnlyCharged tx st handled)
    (htracker : handled.tracker = st.tracker.incrementMutableObjects tx)
    (huntracked : ∀ id ∈ ownedDeletedRefs tx, st.tracker.lookup id = none) :
    OnlyCharged tx st (handled.settleDeletions p tx (ownedDeletedRefs tx)) := by
  have hblank : ∀ id ∈ ownedDeletedRefs tx, handled.tracker.Blank id := by
    intro id hid
    rw [htracker]
    exact .of_untracked (huntracked id hid)
  rw [settleDeletions_blank handled p tx hblank]
  have hlookup := Lib.Tally.lookup_foldl_erase (ownedDeletedRefs tx) handled.tracker
  generalize (ownedDeletedRefs tx).foldl (fun ot x => ot.erase x) handled.tracker = erased
    at hlookup ⊢
  exact
    { h with
      others := by
        intro id hid
        have hnot : id ∉ ownedDeletedRefs tx := fun hmem =>
          hid (mutableRefIDs_of_ownedDeletedRefs hmem)
        rw [hlookup, if_neg hnot]
        exact h.others id hid
      entries := by
        intro id
        by_cases hmem : id ∈ ownedDeletedRefs tx
        · rw [Tracker.entry, Tracker.entry, hlookup, if_pos hmem, huntracked id hmem]
        · have hentry := h.entries id
          rw [Tracker.entry] at hentry
          rw [Tracker.entry, hlookup, if_neg hmem]
          exact hentry
      tracked := by
        intro id hid
        have hnot : id ∉ ownedDeletedRefs tx := by
          intro hmem
          rw [huntracked id hmem] at hid
          cases hid
        rw [hlookup, if_neg hnot]
        exact h.tracked id hid }

/-- A failed transaction costs its fee and nothing else, if and only if it stops short of
the handlers or the handlers find nothing to change. -/
theorem failed_only_charged_iff (st : Ledger) (nd : Node) (atx : AttestedTransaction)
    (commitRound : Nat) (verdict : Option ProofError) {tx : Transaction}
    (htx : atx.transaction = some tx)
    (hfail : (st.executeTx nd atx commitRound verdict).exit.failed = true) :
    OnlyCharged tx st (st.executeTx nd atx commitRound verdict).ledger ↔
      ¬ (st.ReachesHandlers nd atx commitRound verdict tx ∧ st.Moves nd tx atx) := by
  obtain ⟨tx', htx', hends⟩ := st.executeTx_failed nd atx commitRound verdict hfail
  obtain rfl : tx' = tx := Option.some.inj (htx'.symm.trans htx)
  rcases hends with ⟨hno, hcharged⟩ | ⟨hreach, st₁, hreg, hfinal⟩
  · exact ⟨fun _ h => hno tx' h.1, fun _ => hcharged⟩
  have hstaked : (st₁.staked nd tx').tracker = _ :=
    staked_tracker_of_register hreg
  constructor
  · rintro honly ⟨-, hmoves⟩
    rcases hfinal with ⟨hparent, heq⟩ | ⟨hparent, heq⟩
    · refine hmoves.not_undisturbed ?_ hreg ?_ honly.undisturbed
      · intro id _ _ hchildless
        rw [deletesParent_eq_false.2 hchildless] at hparent
        cases hparent
      · rw [heq]
        exact ⟨rfl, rfl, rfl, .of_objects rfl⟩
    · refine hmoves.not_undisturbed ?_ hreg ?_ honly.undisturbed
      · intro id hdeclared htracked _
        have hkept : (Tracker.getParent _ id).isSome :=
          Option.isSome_map.trans (honly.tracked id htracked)
        rw [heq, (settleDeletions_frame _ _ _ _).1, Tracker.getParent_foldl_deleteObject,
          if_pos hdeclared] at hkept
        cases hkept
      · rw [heq]
        exact undisturbed_settleDeletions ..
  · intro hnot
    have hmoves : ¬ st.Moves nd tx' atx := fun h => hnot ⟨hreach, h⟩
    have hhandled := OnlyCharged.of_not_moves hmoves hreg
    rcases hfinal with ⟨-, heq⟩ | ⟨hparent, heq⟩
    · rw [heq]
      exact hhandled
    · rw [heq]
      refine hhandled.settleDeletions _ hstaked fun id hid => ?_
      by_contra htracked
      exact hmoves (.deletion hid (Option.isSome_iff_ne_none.2 htracked)
        (deletesParent_eq_false.1 hparent))

end Ledger

theorem failed_only_charged_iff_solo :
    let nd := soloNode (podReturning { error := 1 })
    let tx := creatingBody (idOf 11) []
    let out := soloLedger.executeTx nd (creatingTx (idOf 11) []) 0 none
    out.exit.failed = true ∧ soloLedger.OnlyCharged tx out.ledger := by
  have hfail : (soloLedger.executeTx (soloNode (podReturning { error := 1 }))
      (creatingTx (idOf 11) []) 0 none).exit.failed = true := by
    decide +kernel
  refine ⟨hfail, (Ledger.failed_only_charged_iff soloLedger _ _ 0 none rfl hfail).2 ?_⟩
  rintro ⟨-, hmoves⟩
  cases hmoves with
  | register call | deregister call => exact absurd call (by decide)
  | bond parse | unbond parse => exact absurd (Ledger.parseStakeTx_some parse).1 (by decide)
  | delegate parse | undelegate parse =>
    exact absurd (Ledger.parseDelegateTx_some parse).1 (by decide)
  | deletion declared =>
    have hnone : ownedDeletedRefs (creatingBody (idOf 11) []) = [] := by decide +kernel
    rw [hnone] at declared
    cases declared

/-- A pod that asks for eight argument bytes. -/
def eightBytePod : Hash → PodInput → Except Unit (Option PodOutput) :=
  fun _ input => .ok (some { error := if input.transaction.args.length = 8 then 0 else 1 })

/-- A bond of the first user, with more argument bytes behind the amount. -/
def bondingTx (amount : UInt64) (rest : Bytes) : Transaction :=
  signedTx
    { sender := (idOf 1).val
      pod := (idOf 200).val
      functionName := bondFunc
      args := putUint64LE amount ++ rest
      gasCoin := (idOf 11).val
      maxGas := 100
      mutableRefs := [{ id := (idOf 11).val }] }

/-- A call of the first user that declares its own coin deleted. -/
def droppingTx : Transaction :=
  signedTx
    { sender := (idOf 1).val
      pod := (idOf 7).val
      functionName := ascii "drop"
      gasCoin := (idOf 11).val
      maxGas := 100
      mutableRefs := [{ id := (idOf 11).val }]
      deletedObjects := (idOf 11).val }

/-- A bond with a byte too many moves the stake before the pod turns it down, and a
deletion is settled in a call that then fails. -/
theorem failed_bond_moves_stake :
    let bonded := soloLedger.executeTx (soloNode eightBytePod)
      { transaction := some (bondingTx 500 [0]) } 0 none
    let tracking : Ledger :=
      { soloLedger with tracker := (∅ : Tracker).insert (idOf 11) { fees := 1000 } }
    let dropped := tracking.executeTx (soloNode (podReturning { error := 1 }))
      { transaction := some droppingTx } 0 none
    bonded.exit = .executionError ∧
      (soloLedger.validators.get (idOf 1)).map (·.selfStake) = some 1000 ∧
      (bonded.ledger.validators.get (idOf 1)).map (·.selfStake) = some 1500 ∧
      dropped.exit = .executionError ∧ tracking.tracker.getFees (idOf 11) = 1000 ∧
      dropped.ledger.tracker.lookup (idOf 11) = none ∧
      tracking.totalSupply = 21000 ∧ dropped.ledger.totalSupply = 20950 := by
  decide +kernel

end BluePods
