import BluePods.Holders

/-! A node that adds its own key to its live set before the registration commits. The extra
validator has no stake, no delegations and no reward coin. A transaction that is priced
alike over both sets and touches the extra validator with nothing but its registration
leaves the two ledgers one such addition apart. -/

namespace BluePods

open ValidatorSet

/-! ## A set with one more validator -/

/-- What a node adds itself with. -/
structure SelfAdd where
  pubkey : Hash
  quicAddr : Bytes := []
  blsPubkey : BLSKey := zeroBLSKey

/-- The record of a validator that was only added. -/
def SelfAdd.info (a : SelfAdd) : ValidatorInfo where
  pubkey := a.pubkey
  quicAddr := a.quicAddr
  blsPubkey := a.blsPubkey

namespace ValidatorSet

def selfAdd (vs : ValidatorSet) (a : SelfAdd) : ValidatorSet :=
  vs.add a.pubkey a.quicAddr a.blsPubkey

variable {vs : ValidatorSet} {a : SelfAdd} {pubkey : Hash}

theorem all_selfAdd (h : a.pubkey ∉ vs.keys) : (vs.selfAdd a).all = vs.all ++ [a.info] := by
  unfold keys at h
  rw [selfAdd, add, dif_neg h]
  rfl

theorem keys_selfAdd (h : a.pubkey ∉ vs.keys) : (vs.selfAdd a).keys = vs.keys ++ [a.pubkey] := by
  rw [keys, all_selfAdd h, List.map_append]
  rfl

theorem get_selfAdd_of_ne (h : a.pubkey ∉ vs.keys) (hne : pubkey ≠ a.pubkey) :
    (vs.selfAdd a).get pubkey = vs.get pubkey := by
  rw [get, all_selfAdd h, List.find?_append]
  simp [get, SelfAdd.info, hne.symm]

theorem get_eq_none (h : pubkey ∉ vs.keys) : vs.get pubkey = none := by
  rw [get, List.find?_eq_none]
  intro v hv
  simpa using fun he : v.pubkey = pubkey => h (he ▸ List.mem_map_of_mem hv)

theorem get_selfAdd_self (h : a.pubkey ∉ vs.keys) : (vs.selfAdd a).get a.pubkey = some a.info := by
  have hnone := get_eq_none h
  rw [get] at hnone
  rw [get, all_selfAdd h, List.find?_append, hnone]
  simp [SelfAdd.info]

variable {g : ValidatorInfo → ValidatorInfo} {hg : ∀ v, (g v).pubkey = v.pubkey}

theorem modify_of_notMem (h : pubkey ∉ vs.keys) : vs.modify pubkey g hg = vs :=
  ext_all (Lib.Tally.update_eq_self fun _ hv hk => absurd (hk ▸ List.mem_map_of_mem hv) h)

/-- Rewriting commutes with the addition when it leaves the extra validator alone. -/
theorem modify_selfAdd (h : a.pubkey ∉ vs.keys) (hself : pubkey = a.pubkey → g a.info = a.info) :
    (vs.selfAdd a).modify pubkey g hg = (vs.modify pubkey g hg).selfAdd a := by
  by_cases hkey : pubkey = a.pubkey
  · rw [hkey, modify_eq_self (get_selfAdd_self h) (hself hkey), modify_of_notMem h]
  · have h' : a.pubkey ∉ (vs.modify pubkey g hg).keys := by rwa [keys_modify]
    apply ext_all
    rw [all_selfAdd h', modify, modify]
    simp only [Lib.Tally.update, all_selfAdd h, List.map_append, List.map_cons, List.map_nil]
    rw [if_neg (show ¬ a.info.pubkey = pubkey from fun he => hkey he.symm)]

theorem selfAdd_selfAdd (h : a.pubkey ∉ vs.keys) : (vs.selfAdd a).selfAdd a = vs.selfAdd a := by
  have hmem : a.pubkey ∈ (vs.selfAdd a).all.map (·.pubkey) := by
    change a.pubkey ∈ (vs.selfAdd a).keys
    simp [keys_selfAdd h]
  conv_lhs => rw [selfAdd, add, dif_pos hmem]
  exact modify_eq_self (get_selfAdd_self h) (by simp [SelfAdd.info])

end ValidatorSet

/-! ## The addition -/

/-- The key is neither live nor a committed member. -/
structure SelfAdd.Pending (a : SelfAdd) (st : Ledger) : Prop where
  notLive : a.pubkey ∉ st.validators.keys
  notMember : a.pubkey ∉ st.committedMembers

theorem SelfAdd.Pending.congr {a : SelfAdd} {st st' : Ledger} (h : a.Pending st)
    (hkeys : st'.validators.keys = st.validators.keys)
    (hmembers : st'.committedMembers = st.committedMembers) : a.Pending st' :=
  ⟨hkeys ▸ h.notLive, hmembers ▸ h.notMember⟩

namespace Ledger

def selfAdd (st : Ledger) (a : SelfAdd) : Ledger :=
  { st with validators := st.validators.selfAdd a }

/-- The second ledger is the first one, or the first one with the addition and over the keys
a transaction started with. -/
def Leads (a : SelfAdd) (keys : List Hash) (st st' : Ledger) : Prop :=
  st' = st ∨ a.Pending st ∧ st.validators.keys = keys ∧ st' = st.selfAdd a

theorem selfAdd_of_withFrame {R : Type} (st : Ledger) (a : SelfAdd) (f : Ledger → R)
    (onLedger : (Ledger → Ledger) → R → R)
    (hcomp : ∀ g h r, onLedger g (onLedger h r) = onLedger (fun st => g (h st)) r)
    (hf : ∀ st fr, f (st.withFrame fr) = onLedger (·.withFrame fr) (f st)) :
    f (st.selfAdd a) = onLedger (·.selfAdd a) (f st) :=
  @reframe_of_withFrame st _ f onLedger hcomp
    (fun fr => { fr with validators := fr.validators.selfAdd a }) (hf ..) (hf ..)

variable {a : SelfAdd} {keys : List Hash} {st st' : Ledger}

/-- The ledgers agree on whatever is kept apart from the validators. -/
theorem Leads.field {α : Type} (h : Leads a keys st st') (f : Ledger → α)
    (hf : ∀ st vs, f { st with validators := vs } = f st) : f st' = f st := by
  rcases h with rfl | ⟨-, -, rfl⟩
  · rfl
  · exact hf st _

theorem Leads.tracker (h : Leads a keys st st') : st'.tracker = st.tracker :=
  h.field Ledger.tracker fun _ _ => rfl

/-- What works in any frame keeps the ledgers one addition apart. -/
theorem Leads.through (h : Leads a keys st st') (f : Ledger → Ledger)
    (hf : ∀ st fr, f (st.withFrame fr) = (f st).withFrame fr) : Leads a keys (f st) (f st') := by
  rcases h with rfl | ⟨hp, rfl, rfl⟩
  · exact .inl rfl
  · have hframe := frame_of_withFrame st f hf
    have hkeys := congrArg (fun fr : Frame => fr.validators.keys) hframe
    have hmembers := congrArg (fun fr : Frame => fr.committedMembers) hframe
    refine .inr ⟨hp.congr hkeys hmembers, hkeys, ?_⟩
    exact selfAdd_of_withFrame st a f (fun g st => g st) (fun _ _ _ => rfl) hf

theorem selfAdd_creditCoin (st : Ledger) (id : Hash) (amount : UInt64) :
    (st.selfAdd a).creditCoin id amount = (st.creditCoin id amount).map (·.selfAdd a) :=
  selfAdd_of_withFrame st a (·.creditCoin id amount) Except.map (fun _ _ r => by cases r <;> rfl)
    fun st fr => withFrame_creditCoin st fr id amount

theorem selfAdd_strictDebit (st : Ledger) (id : Hash) (amount : UInt64) :
    (st.selfAdd a).strictDebit id amount = (st.strictDebit id amount).map (·.selfAdd a) :=
  selfAdd_of_withFrame st a (·.strictDebit id amount) Option.map (fun _ _ r => by cases r <;> rfl)
    fun st fr => withFrame_strictDebit st fr id amount

/-! ## Fees -/

variable {nd : Node} {tx : Transaction} {atx : AttestedTransaction}
  {holders : Hash → Nat → List Hash}

theorem selfAdd_deductFees (hparts : tx.txGasCoinID ≠ none →
      (st.selfAdd a).feeParts { nd with computeHolders := holders } tx atx =
        st.feeParts nd tx atx) :
    FeesAlike (fun s s' => s' = s.selfAdd a) (st.deductFees nd tx atx)
      ((st.selfAdd a).deductFees { nd with computeHolders := holders } tx atx) := by
  refine deductFees_rel ⟨_, _, rfl⟩ rfl hparts (fun _ => rfl) fun coin _ fee => ?_
  rw [selfAdd_of_withFrame st a (·.deductCoinFee coin fee)
    (fun g r => r.map fun r => (g r.1, r.2)) (fun _ _ r => by cases r <;> rfl)
    fun st fr => withFrame_deductCoinFee st fr coin fee]
  exact (resultAlike_map _ _).imp fun _ _ h => h ▸ ⟨rfl, rfl⟩

/-! ## Registration and stake -/

/-- The transaction registers a live validator, or the added one as it was added. -/
def RegistersAdded (a : SelfAdd) (st : Ledger) (nd : Node) (tx : Transaction) : Prop :=
  nd.isSystemFunc tx registerValidatorFunc = true → ∀ pubkey args blsPubkey,
    hash32 tx.sender = some pubkey → decodeRegisterValidatorArgs tx.args = some args →
    verifiedRegistrationBLSKey nd.crypto pubkey args.blsPubkey args.blsPoP = some blsPubkey →
    pubkey ∈ st.validators.keys ∨
      pubkey = a.pubkey ∧ args.quicAddr = a.quicAddr ∧ blsPubkey = a.blsPubkey

theorem selfAdd_add {pubkey : Hash} (hp : a.pubkey ∉ st.validators.keys)
    (hin : pubkey ∈ st.validators.keys) (quicAddr : Bytes) (blsPubkey : BLSKey) :
    (st.validators.selfAdd a).add pubkey quicAddr blsPubkey =
      (st.validators.add pubkey quicAddr blsPubkey).selfAdd a := by
  have hne : pubkey ≠ a.pubkey := fun he => hp (he ▸ hin)
  have hin' : pubkey ∈ (st.validators.selfAdd a).keys := by
    rw [keys_selfAdd hp]
    exact List.mem_append_left _ hin
  unfold keys at hin hin'
  conv_lhs => rw [add, dif_pos hin']
  conv_rhs => rw [add, dif_pos hin]
  exact modify_selfAdd hp fun he => absurd he hne

theorem handleRegisterValidator_leads (hp : a.Pending st) (hreg : RegistersAdded a st nd tx) :
    ResultAlike Eq (Leads a st.validators.keys) (st.handleRegisterValidator nd tx)
      ((st.selfAdd a).handleRegisterValidator nd tx) := by
  refine handleRegisterValidator_rel (.inr ⟨hp, rfl, rfl⟩)
    fun pubkey args blsPubkey hr => ?_
  unfold registered
  rcases hreg hr.call pubkey args blsPubkey hr.sender hr.decoded hr.proven with
    hin | ⟨rfl, hquic, rfl⟩
  · have hne : pubkey ≠ a.pubkey := fun he => hp.notLive (he ▸ hin)
    have hkeys := keys_add_known hin args.quicAddr blsPubkey
    have hset := selfAdd_add hp.notLive hin args.quicAddr blsPubkey
    have hmember : a.pubkey ∉ (if decide (pubkey ∈ st.committedMembers) then
        st.committedMembers else st.committedMembers ++ [pubkey]) := by
      split
      · exact hp.notMember
      · simpa using ⟨hp.notMember, hne.symm⟩
    cases rewardCoinFromArgs tx args with
    | none =>
      refine .inr ⟨⟨fun hlive => hp.notLive (hkeys ▸ hlive), hmember⟩, hkeys, ?_⟩
      simp only [selfAdd, hset]
      rfl
    | some coin =>
      have hkeys' := (keys_setRewardCoin
        (st.validators.add pubkey args.quicAddr blsPubkey) pubkey coin).trans hkeys
      have hcoin : ((st.validators.add pubkey args.quicAddr blsPubkey).selfAdd a).setRewardCoin
          pubkey coin = ((st.validators.add pubkey args.quicAddr blsPubkey).setRewardCoin
          pubkey coin).selfAdd a :=
        modify_selfAdd (by rw [hkeys]; exact hp.notLive) fun he => absurd he hne
      refine .inr ⟨⟨fun hlive => hp.notLive (hkeys' ▸ hlive), hmember⟩, hkeys', ?_⟩
      simp only [selfAdd, hset, hcoin]
      rfl
  · -- The registration finds the validator as it adds it.
    have hset : (st.validators.selfAdd a).add a.pubkey args.quicAddr a.blsPubkey =
        st.validators.add a.pubkey args.quicAddr a.blsPubkey := by
      rw [hquic]
      exact selfAdd_selfAdd hp.notLive
    left
    simp only [selfAdd, hset]
    rfl

theorem selfAdd_handleDeregisterValidator (st : Ledger) (nd : Node) (tx : Transaction) :
    (st.selfAdd a).handleDeregisterValidator nd tx =
      (st.handleDeregisterValidator nd tx).selfAdd a := by
  unfold handleDeregisterValidator
  split
  · rfl
  · cases hash32 tx.sender with
    | none => rfl
    | some pubkey =>
      by_cases hin : pubkey ∈ st.pendingRemovals
      · simp only [if_pos hin, if_pos (show pubkey ∈ (st.selfAdd a).pendingRemovals from hin)]
      · simp only [if_neg hin, if_neg (show pubkey ∉ (st.selfAdd a).pendingRemovals from hin)]
        rfl

/-- The transaction neither bonds as the added validator nor delegates to it. -/
structure StakesOthers (a : SelfAdd) (nd : Node) (tx : Transaction) : Prop where
  bond : ∀ sender coin amount, parseStakeTx nd tx bondFunc = some (sender, coin, amount) →
    sender ≠ a.pubkey
  delegate : ∀ delegator coin validator amount,
    parseDelegateTx nd tx delegateFunc true = some (delegator, coin, validator, amount) →
    validator ≠ a.pubkey

theorem selfAdd_modify {pubkey : Hash} {g : ValidatorInfo → ValidatorInfo}
    {hg : ∀ v, (g v).pubkey = v.pubkey} (hp : a.pubkey ∉ st.validators.keys)
    (hself : pubkey = a.pubkey → g a.info = a.info) :
    ({ st.selfAdd a with validators := (st.selfAdd a).validators.modify pubkey g hg } : Ledger) =
      ({ st with validators := st.validators.modify pubkey g hg } : Ledger).selfAdd a :=
  congrArg (fun vs => ({ st with validators := vs } : Ledger))
    (modify_selfAdd hp hself)

/-- The added validator has neither stake to take an amount from nor delegations. -/
theorem stakesAlike_selfAdd (hp : a.pubkey ∉ st.validators.keys) (hs : StakesOthers a nd tx) :
    StakesAlike (fun s s' => s' = s.selfAdd a) nd tx st (st.selfAdd a) where
  bond sender coin amount hparse := by
    have hne := hs.bond sender coin amount hparse
    refine ⟨get_selfAdd_of_ne hp hne, ?_⟩
    rw [selfAdd_strictDebit]
    cases hdebit : st.strictDebit coin amount with
    | none => exact .none
    | some s =>
      rw [← strictDebit_validators hdebit] at hp
      exact .some fun _ => selfAdd_modify hp fun he => absurd he hne
  unbond sender coin amount hparse := by
    have hpos := parseStakeTx_amount hparse
    constructor
    · by_cases hkey : sender = a.pubkey
      · rw [hkey, get_eq_none hp,
          show (st.selfAdd a).validators.get a.pubkey = some a.info from
            get_selfAdd_self hp]
        simpa [SelfAdd.info, Option.filter] using UInt64.pos_iff_ne_zero.1 hpos
      · rw [show (st.selfAdd a).validators.get sender = st.validators.get sender from
          get_selfAdd_of_ne hp hkey]
    · intro v hv
      have hne : sender ≠ a.pubkey := fun he => by
        rw [he, get_eq_none hp] at hv
        cases hv
      rw [selfAdd_creditCoin]
      cases hcredit : st.creditCoin coin amount with
      | error e => exact .error rfl
      | ok s =>
        rw [← (creditCoin_frame hcredit).1] at hp
        exact .ok fun _ => selfAdd_modify hp fun he => absurd he hne
  delegate delegator coin validator amount hparse := by
    have hne := hs.delegate delegator coin validator amount hparse
    refine ⟨get_selfAdd_of_ne hp hne, ?_⟩
    rw [selfAdd_strictDebit]
    cases hdebit : st.strictDebit coin amount with
    | none => exact .none
    | some s =>
      rw [← strictDebit_validators hdebit] at hp
      exact .some (@selfAdd_modify a (s.setObject (buildDelegationObject nd.crypto delegator
        validator amount)) _ _ _ hp fun he => absurd he hne)
  undelegate delegator coin validator _ _ := by
    refine ⟨rfl, fun amount => ?_⟩
    rw [selfAdd_creditCoin]
    cases hcredit : st.creditCoin coin amount with
    | error e => exact .error rfl
    | ok s =>
      rw [← (creditCoin_frame hcredit).1] at hp
      exact .ok (@selfAdd_modify a (s.deleteObject (delegationID nd.crypto delegator validator))
        _ _ _ hp fun _ => by simp [SelfAdd.info, floorSub])

theorem Leads.staked (h : Leads a keys st st') (hs : StakesOthers a nd tx) :
    Leads a keys (st.staked nd tx) (st'.staked nd tx) := by
  rcases h with rfl | ⟨hp, rfl, rfl⟩
  · exact .inl rfl
  · have hderegister := st.handleDeregisterValidator_eq nd tx
    have hp' : a.pubkey ∉ (st.handleDeregisterValidator nd tx).validators.keys := by
      rw [hderegister]
      exact hp.notLive
    have hkeys := staked_keys st nd tx
    refine .inr ⟨hp.congr hkeys ?_, hkeys, ?_⟩
    · have hbook := congrArg Book.committedMembers
        (book_handleStake (st.handleDeregisterValidator nd tx) nd tx)
      exact hbook.trans (by rw [hderegister]; rfl)
    · unfold Ledger.staked
      rw [selfAdd_handleDeregisterValidator]
      exact (stakesAlike_selfAdd hp' hs).handleStake rfl

/-! ## Pods -/

/-- The objects the pod may create are stamped alike. -/
def StampsAlike (a : SelfAdd) (st : Ledger) (nd : Node) (tx : Transaction) : Prop :=
  ∀ input out, nd.pods (hashOrZero tx.pod) input = .ok (some out) → ∀ o ∈ out.createdObjects,
    (st.selfAdd a).stampedDeposit nd tx o = st.stampedDeposit nd tx o

theorem stampedDeposit_congr {s : Ledger} (h : s.validators.keys = st.validators.keys) (nd : Node)
    (tx : Transaction) (o : Object) : s.stampedDeposit nd tx o = st.stampedDeposit nd tx o := by
  have hlen : s.validators.len = st.validators.len := by
    have := congrArg List.length h
    rwa [keys, keys, List.length_map, List.length_map] at this
  rw [stampedDeposit, stampedDeposit, hlen]

theorem StampsAlike.congr {s : Ledger} (h : StampsAlike a st nd tx)
    (hp : a.pubkey ∉ st.validators.keys) (hkeys : s.validators.keys = st.validators.keys) :
    StampsAlike a s nd tx := by
  intro input out hout o ho
  have hadded : (s.selfAdd a).validators.keys = (st.selfAdd a).validators.keys := by
    change (s.validators.selfAdd a).keys = (st.validators.selfAdd a).keys
    rw [keys_selfAdd hp, keys_selfAdd (hkeys ▸ hp), hkeys]
  rw [stampedDeposit_congr hadded, stampedDeposit_congr hkeys]
  exact h input out hout o ho

theorem selfAdd_execute (h : StampsAlike a st nd tx) :
    (st.selfAdd a).execute nd tx atx = (st.execute nd tx atx).map (·.selfAdd a) :=
  @reframe_of_withFrame st _ (·.execute nd tx atx) Except.map (fun _ _ r => by cases r <;> rfl)
    (fun fr => { fr with validators := fr.validators.selfAdd a })
    (withFrame_execute _ _ fun _ _ _ _ _ => rfl) (withFrame_execute _ _ h)

/-! ## One transaction -/

theorem finishTx_leads (h : Leads a keys st st') (hst : st.validators.keys = keys →
      a.Pending st → StampsAlike a st nd tx) (split : FeeSplit) (withheld : UInt64) :
    OutcomeAlike (Leads a keys) (st.finishTx nd tx atx split withheld)
      (st'.finishTx nd tx atx split withheld) := by
  unfold finishTx
  split
  · exact ⟨rfl, rfl, h⟩
  · rcases h with rfl | ⟨hp, rfl, rfl⟩
    · exact ⟨rfl, rfl, .inl rfl⟩
    · unfold runPod
      rw [selfAdd_execute (hst rfl hp)]
      cases hexec : st.execute nd tx atx with
      | error e => exact ⟨rfl, rfl, .inr ⟨hp, rfl, rfl⟩⟩
      | ok s =>
        have hkeys : s.validators.keys = st.validators.keys := by
          rw [(execute_onlyBodies hexec).validators]
        have hrun := book_runPod st nd tx atx split withheld
        rw [runPod, hexec] at hrun
        exact ⟨rfl, rfl, .inr ⟨hp.congr hkeys (congrArg Book.committedMembers hrun), hkeys, rfl⟩⟩

/-- What a transaction may do while one ledger has the addition and the other has not. -/
structure Neutral (a : SelfAdd) (st : Ledger) (nd : Node) (holders : Hash → Nat → List Hash)
    (tx : Transaction) (atx : AttestedTransaction) : Prop where
  fees : tx.txGasCoinID ≠ none →
    (st.selfAdd a).feeParts { nd with computeHolders := holders } tx atx = st.feeParts nd tx atx
  deposits : StampsAlike a st nd tx
  registers : RegistersAdded a st nd tx
  stakes : StakesOthers a nd tx

section

variable (hn : nd.feeParams.Covers st.validators.len)
  (hm : nd.feeParams.Covers (st.selfAdd a).validators.len)

include hn hm

/-- Over singletons the addition does not show in the fee. -/
theorem feeParts_selfAdd (h : Singletons tx atx) :
    (st.selfAdd a).feeParts { nd with computeHolders := holders } tx atx = st.feeParts nd tx atx :=
  calculateTxFeeSplit_of_singletons h hm hn

/-- Nor does it in the stamps of a pod that creates singletons. -/
theorem stampsAlike_of_singletons
    (h : ∀ input out, nd.pods (hashOrZero tx.pod) input = .ok (some out) →
      ∀ o ∈ out.createdObjects, o.replication = 0) : StampsAlike a st nd tx := by
  intro input out hout o ho
  unfold stampedDeposit
  rw [h input out hout o ho, computeStorageDeposit_eq, computeStorageDeposit_eq,
    storageDeposit_singleton hn, storageDeposit_singleton hm]

end

theorem Neutral.congr {s : Ledger} (h : Neutral a st nd holders tx atx)
    (hp : a.pubkey ∉ st.validators.keys) (hvalidators : s.validators = st.validators) :
    Neutral a s nd holders tx atx where
  fees hgas := by
    have hfees := h.fees hgas
    simp only [feeParts, selfAdd] at hfees ⊢
    rw [hvalidators]
    exact hfees
  deposits := h.deposits.congr hp (by rw [hvalidators])
  registers hfunc pubkey args blsPubkey hsender hargs hbls := by
    rw [hvalidators]
    exact h.registers hfunc pubkey args blsPubkey hsender hargs hbls
  stakes := h.stakes

theorem Neutral.charged (hn : Neutral a st nd holders tx atx) (hp : a.Pending st) :
    ChargedAlike (Leads a st.validators.keys) nd tx atx (st.deductFees nd tx atx)
      ((st.selfAdd a).deductFees { nd with computeHolders := holders } tx atx) := by
  have hvalidators := (deductFees_frame st nd tx atx).2
  have hkeys : (st.deductFees nd tx atx).ledger.validators.keys = st.validators.keys := by
    rw [hvalidators]
  have hp' := hp.congr hkeys (congrArg Book.committedMembers (book_deductFees st nd tx atx))
  have hn' := hn.congr hp.notLive hvalidators
  obtain ⟨hledger, hsplit, hwithheld, hproceed⟩ := selfAdd_deductFees hn.fees
  refine ⟨⟨.inr ⟨hp', hkeys, hledger⟩, hsplit, hwithheld, hproceed⟩, fun _ => ?_⟩
  rw [hledger, ← hkeys]
  generalize (st.deductFees nd tx atx).ledger = s at hp' hn' ⊢
  refine ⟨rfl, handleRegisterValidator_leads hp' hn'.registers, fun {t _} _ _ hs => ⟨?_, ?_⟩⟩
  · rcases hs with rfl | ⟨hps, -, rfl⟩
    · rfl
    · have hps' : a.pubkey ∉ (t.handleDeregisterValidator nd tx).validators.keys := by
        rw [handleDeregisterValidator_eq]
        exact hps.notLive
      rw [selfAdd_handleDeregisterValidator,
        eq_map_of_rel (stakesAlike_selfAdd hps' hn'.stakes).bond.handleBond, Option.isSome_map]
  · have hstaked := hs.staked hn'.stakes
    exact ⟨hstaked, hstaked.through (·.settleDeletions nd.feeParams tx (ownedDeletedRefs tx))
      fun st fr => withFrame_settleDeletions st fr nd.feeParams tx _⟩

/-- Declared operations work in any frame. -/
theorem Leads.commitDeclaredOps (h : Leads a keys st st') (commitRound : Nat) (split : FeeSplit)
    (withheld : UInt64) :
    OutcomeAlike (Leads a keys) (st.commitDeclaredOps nd tx commitRound split withheld)
      (st'.commitDeclaredOps nd tx commitRound split withheld) := by
  have hledger :=
    h.through (fun st => (st.commitDeclaredOps nd tx commitRound split withheld).ledger)
    fun st fr => congrArg Outcome.ledger
      (withFrame_commitDeclaredOps st fr nd tx commitRound split withheld)
  rcases h with rfl | ⟨-, -, rfl⟩
  · exact ⟨rfl, rfl, hledger⟩
  · have hcommute :=
      selfAdd_of_withFrame st a (·.commitDeclaredOps nd tx commitRound split withheld)
      (fun g out => { out with ledger := g out.ledger }) (fun _ _ _ => rfl)
      fun st fr => withFrame_commitDeclaredOps st fr nd tx commitRound split withheld
    have hsplit := congrArg Outcome.split hcommute
    have hexit := congrArg Outcome.exit hcommute
    exact ⟨hsplit, hexit, hledger⟩

theorem selfAdd_admitted (st : Ledger) (tx : Transaction) :
    (st.selfAdd a).admitted tx = (st.admitted tx).selfAdd a := by
  unfold admitted markCommitted
  cases tx.txCommitHash <;> rfl

section

variable (hp : a.Pending st)

include hp

theorem pending_admitted (tx : Transaction) : a.Pending (st.admitted tx) := by
  exact hp.congr (by rw [admitted_validators]) (by rw [admitted_eq])

theorem neutral_charged (hn : Neutral a st nd holders tx atx) :
    ChargedAlike (Leads a st.validators.keys) nd tx atx (st.feeStage nd tx atx)
      (((st.selfAdd a).admitted tx).deductFees { nd with computeHolders := holders } tx atx) := by
  have hcharged :=
    (hn.congr hp.notLive (st.admitted_validators tx)).charged (pending_admitted hp tx)
  rwa [admitted_validators, ← selfAdd_admitted] at hcharged

theorem gates_leads (commitRound : Nat) (verdict : Option ProofError) :
    GatesAlike (Leads a st.validators.keys) nd atx commitRound verdict st (st.selfAdd a) := by
  refine gatesAlike (.inr ⟨hp, rfl, rfl⟩) (fun _ _ => rfl) (fun tx => ?_)
    Leads.tracker ?_
  · unfold markCommitted
    cases tx.txCommitHash with
    | none => exact .inr ⟨hp, rfl, rfl⟩
    | some k => exact .inr ⟨⟨hp.notLive, hp.notMember⟩, rfl, rfl⟩
  · rintro s s' tracker (rfl | ⟨hs, hkeys, rfl⟩)
    · exact .inl rfl
    · exact .inr ⟨⟨hs.notLive, hs.notMember⟩, hkeys, rfl⟩

/-- One transaction leaves the ledgers one addition apart, or the same once it registers the
added validator. -/
theorem executeTx_leads (commitRound : Nat) (verdict : Option ProofError)
    (hn : ∀ tx, st.Admits nd atx commitRound verdict tx → Neutral a st nd holders tx atx) :
    OutcomeAlike (Leads a st.validators.keys) (st.executeTx nd atx commitRound verdict)
      ((st.selfAdd a).executeTx { nd with computeHolders := holders } atx commitRound verdict) := by
  refine (gates_leads hp commitRound verdict).executeTx ⟨_, _, rfl⟩ id fun {tx} hin _ _ => ?_
  have hcharged := neutral_charged hp (hn tx hin)
  refine hcharged.commit ⟨_, _, rfl⟩ Leads.tracker id
    (fun _ split withheld => hcharged.ledger.commitDeclaredOps commitRound split withheld) ?_
  intro s s' hs _ _
  exact finishTx_leads hs (fun hk _ => (hn tx hin).deposits.congr hp.notLive hk) _ _

theorem selfAdd_bondApplied (commitRound : Nat) (verdict : Option ProofError)
    (hn : ∀ tx, st.Admits nd atx commitRound verdict tx → Neutral a st nd holders tx atx) :
    (st.selfAdd a).bondApplied { nd with computeHolders := holders } atx commitRound verdict =
      st.bondApplied nd atx commitRound verdict :=
  (gates_leads hp commitRound verdict).bondApplied ⟨_, _, rfl⟩ fun hin _ _ =>
    neutral_charged hp (hn _ hin)

end

end Ledger

end BluePods
