import BluePods.Abreast

/-! The books of the ledger: commit marks, committed members, and the additions and
removals of the epoch. A ledger's frame is its books and its live validator set. The stages
that touch only coins, tracker and domains give the same result in any frame; the other
stages of the commit path and of the settlement that neither look a mark up nor change a
book give the same result under any books. -/

namespace BluePods

/-! ## Books -/

structure Book where
  committedTxs : List Hash := []
  committedMembers : List Hash := []
  epochAdditions : List Hash := []
  pendingRemovals : List Hash := []

namespace Ledger

def book (st : Ledger) : Book where
  committedTxs := st.committedTxs
  committedMembers := st.committedMembers
  epochAdditions := st.epochAdditions
  pendingRemovals := st.pendingRemovals

/-- The same ledger under other books. -/
def withBook (st : Ledger) (b : Book) : Ledger :=
  { st with
    committedTxs := b.committedTxs
    committedMembers := b.committedMembers
    epochAdditions := b.epochAdditions
    pendingRemovals := b.pendingRemovals }

section Fields

variable (st : Ledger) (b : Book)

@[simp] theorem withBook_book : st.withBook st.book = st := rfl
@[simp] theorem book_withBook : (st.withBook b).book = b := rfl
@[simp] theorem withBook_validators : (st.withBook b).validators = st.validators := rfl
@[simp] theorem withBook_epochAdditions : (st.withBook b).epochAdditions = b.epochAdditions := rfl
@[simp] theorem withBook_pendingRemovals :
    (st.withBook b).pendingRemovals = b.pendingRemovals := rfl

/-- A function that passes the books through leaves them as they are. -/
theorem book_of_withBook (f : Ledger → Ledger) (h : ∀ st b, f (st.withBook b) = (f st).withBook b) :
    (f st).book = st.book := by
  have := h st st.book
  rw [withBook_book] at this
  rw [this, book_withBook]

end Fields

end Ledger

/-! ## Frames -/

/-- The part of a ledger that no coin, tracker entry or domain is written from. -/
structure Frame extends Book where
  validators : ValidatorSet

namespace Ledger

def frame (st : Ledger) : Frame where
  toBook := st.book
  validators := st.validators

/-- The same ledger in another frame. -/
def withFrame (st : Ledger) (fr : Frame) : Ledger :=
  { st.withBook fr.toBook with validators := fr.validators }

section FrameFields

variable (st : Ledger) (fr : Frame)

@[simp] theorem withFrame_frame : st.withFrame st.frame = st := rfl
@[simp] theorem withFrame_tracker : (st.withFrame fr).tracker = st.tracker := rfl
@[simp] theorem withFrame_domains : (st.withFrame fr).domains = st.domains := rfl
@[simp] theorem withFrame_getObject (id : Hash) :
    (st.withFrame fr).getObject id = st.getObject id := rfl

variable {R : Type} (f : Ledger → R) (onLedger : (Ledger → Ledger) → R → R)

section

variable (hcomp : ∀ g h r, onLedger g (onLedger h r) = onLedger (fun st => g (h st)) r)

include hcomp

/-- A function that works in the ledger's own frame and in a rewritten one commutes with the
rewriting. `onLedger` rewrites the ledger inside a result. -/
theorem reframe_of_withFrame {φ : Frame → Frame}
    (hself : f (st.withFrame st.frame) = onLedger (·.withFrame st.frame) (f st))
    (hφ : f (st.withFrame (φ st.frame)) = onLedger (·.withFrame (φ st.frame)) (f st)) :
    f (st.withFrame (φ st.frame)) = onLedger (fun s => s.withFrame (φ s.frame)) (f st) := by
  rw [withFrame_frame] at hself
  calc f (st.withFrame (φ st.frame))
      = onLedger (·.withFrame (φ st.frame)) (f st) := hφ
    _ = onLedger (fun s => s.withFrame (φ s.frame)) (onLedger (·.withFrame st.frame) (f st)) := by
        rw [hcomp]; rfl
    _ = onLedger (fun s => s.withFrame (φ s.frame)) (f st) := by rw [← hself]

theorem withBook_of_withFrame (hf : ∀ st fr, f (st.withFrame fr) = onLedger (·.withFrame fr) (f st))
    (b : Book) : f (st.withBook b) = onLedger (·.withBook b) (f st) :=
  @reframe_of_withFrame st _ f onLedger hcomp (fun fr => { fr with toBook := b }) (hf ..) (hf ..)

end

/-- A function that works in any frame leaves it as it is. -/
theorem frame_of_withFrame (f : Ledger → Ledger)
    (hf : ∀ st fr, f (st.withFrame fr) = (f st).withFrame fr) : (f st).frame = st.frame := by
  have hself := hf st st.frame
  rw [withFrame_frame] at hself
  rw [hself]
  rfl

end FrameFields

/-! ## Functions that work in any frame -/

section AnyFrame

variable (st : Ledger) (fr : Frame) (p : FeeParams) (id : Hash) (tx : Transaction) (amount : UInt64)
  (sender : Hash)

theorem foldl_withFrame {α : Type} {f : Ledger → α → Ledger}
    (h : ∀ st a, f (st.withFrame fr) a = (f st a).withFrame fr) (l : List α) :
    l.foldl f (st.withFrame fr) = (l.foldl f st).withFrame fr :=
  List.foldl_hom (fun st : Ledger => st.withFrame fr) h

/-! ### Coins -/

theorem withFrame_creditCoin :
    (st.withFrame fr).creditCoin id amount = (st.creditCoin id amount).map (·.withFrame fr) := by
  unfold creditCoin
  rw [withFrame_getObject]
  split
  · rfl
  · cases st.getObject id with
    | none => rfl
    | some o =>
      dsimp only
      cases o.balance with
      | none => rfl
      | some balance =>
        dsimp only
        split <;> rfl

theorem withFrame_strictDebit :
    (st.withFrame fr).strictDebit id amount = (st.strictDebit id amount).map (·.withFrame fr) := by
  unfold strictDebit
  rw [withFrame_getObject]
  cases st.getObject id with
  | none => rfl
  | some o =>
    dsimp only
    split
    · rfl
    · cases o.balance with
      | none => rfl
      | some balance =>
        dsimp only
        split <;> rfl

theorem withFrame_deductCoinFee (fee : UInt64) :
    (st.withFrame fr).deductCoinFee id fee =
      (st.deductCoinFee id fee).map fun r => (r.1.withFrame fr, r.2) := by
  unfold deductCoinFee
  rw [withFrame_getObject]
  cases st.getObject id with
  | none => rfl
  | some o =>
    dsimp only
    cases o.balance with
    | none => rfl
    | some balance =>
      dsimp only
      split <;> rfl

/-! ### Declared operations and deletions -/

theorem withFrame_settleDeletion (gasCoinID : Option Hash) :
    (st.withFrame fr).settleDeletion p id gasCoinID =
      ((st.settleDeletion p id gasCoinID).1.withFrame fr,
        (st.settleDeletion p id gasCoinID).2) := by
  unfold settleDeletion
  dsimp only
  rw [withFrame_tracker,
    show ({ st.withFrame fr with tracker := st.tracker.deleteObject id } : Ledger) =
    ({ st with tracker := st.tracker.deleteObject id } : Ledger).withFrame fr from rfl]
  split
  · rfl
  · cases gasCoinID with
    | none => rfl
    | some coin =>
      dsimp only
      rw [withFrame_creditCoin]
      split
      · rfl
      · cases ({ st with tracker := st.tracker.deleteObject id } : Ledger).creditCoin coin
          (bpsShare (st.tracker.getFees id) p.storageRefundBPS) <;> rfl

theorem withFrame_settleDeletions (ids : List Hash) :
    (st.withFrame fr).settleDeletions p tx ids = (st.settleDeletions p tx ids).withFrame fr := by
  apply foldl_withFrame
  intro st id
  rw [withFrame_settleDeletion]

theorem withFrame_applyReparent (op : DeclaredOp) :
    (st.withFrame fr).applyReparent op = (st.applyReparent op).withFrame fr := by
  unfold applyReparent
  dsimp only
  rw [withFrame_tracker]
  cases h : st.getObject (toHash op.objectID) with
  | none => simp only [show ∀ ot, getObject { st.withFrame fr with tracker := ot }
      (toHash op.objectID) = none from fun _ => h, show ∀ ot, getObject { st with tracker := ot }
      (toHash op.objectID) = none from fun _ => h]; rfl
  | some o => simp only [show ∀ ot, getObject { st.withFrame fr with tracker := ot }
      (toHash op.objectID) = some o from fun _ => h, show ∀ ot, getObject { st with tracker := ot }
      (toHash op.objectID) = some o from fun _ => h]; rfl

theorem withFrame_rewriteDomainLeaf (name : Bytes) (change : DomainLeaf → Option DomainLeaf) :
    (st.withFrame fr).rewriteDomainLeaf name change =
      (st.rewriteDomainLeaf name change).withFrame fr := by
  unfold rewriteDomainLeaf
  rw [withFrame_domains]
  cases (st.domains.lookup name).bind change <;> rfl

theorem withFrame_applyDomainOp (epoch maxTerm : UInt64) (op : DeclaredOp) :
    (st.withFrame fr).applyDomainOp sender epoch maxTerm op =
      (st.applyDomainOp sender epoch maxTerm op).withFrame fr := by
  unfold applyDomainOp
  split
  · unfold applyDomainRegister
    cases domainExpiry 0 epoch op.termEpochs maxTerm <;> rfl
  · split
    · exact withFrame_rewriteDomainLeaf st fr op.name _
    · split
      · exact withFrame_rewriteDomainLeaf st fr op.name _
      · split
        · exact withFrame_rewriteDomainLeaf st fr op.name _
        · split <;> rfl

theorem withFrame_applyDeclaredOp (epoch : UInt64) (op : DeclaredOp) :
    applyDeclaredOp p tx sender epoch (st.withFrame fr) op =
      (applyDeclaredOp p tx sender epoch st op).withFrame fr := by
  unfold applyDeclaredOp
  split
  · exact withFrame_applyReparent st fr op
  · split
    · unfold applyDelete
      dsimp only
      rw [withFrame_settleDeletion]
      rfl
    · exact withFrame_applyDomainOp st fr sender epoch p.maxTermEpochs op

theorem withFrame_handleDeclaredOps (epoch : UInt64) :
    (st.withFrame fr).handleDeclaredOps p tx epoch =
      (st.handleDeclaredOps p tx epoch).map (·.withFrame fr) := by
  simp only [handleDeclaredOps, withFrame_tracker, withFrame_domains, Option.bind_eq_bind]
  cases hash32 tx.sender with
  | none => rfl
  | some sender =>
    simp only [Option.bind_some]
    split
    · rfl
    · simp only [foldl_withFrame st fr fun st op =>
        withFrame_applyDeclaredOp st fr p tx sender epoch op]
      cases tx.operations.foldlM (fun view op => view.validate sender op tx.mutableRefIDs)
        ({ ot := st.tracker, ds := st.domains, epoch, maxTerm := p.maxTermEpochs } :
          StagedView) <;> rfl

end AnyFrame

end Ledger

/-- An outcome in another frame. -/
def Outcome.withFrame (out : Outcome) (fr : Frame) : Outcome :=
  { out with ledger := out.ledger.withFrame fr }

namespace Ledger

section AnyFrameOutput

variable (st : Ledger) (fr : Frame)

theorem withFrame_commitDeclaredOps (nd : Node) (tx : Transaction) (commitRound : Nat)
    (split : FeeSplit) (withheld : UInt64) :
    (st.withFrame fr).commitDeclaredOps nd tx commitRound split withheld =
      (st.commitDeclaredOps nd tx commitRound split withheld).withFrame fr := by
  unfold commitDeclaredOps
  rw [withFrame_handleDeclaredOps]
  dsimp only
  split
  · rfl
  · cases st.handleDeclaredOps nd.feeParams tx
      (UInt64.ofNat (nd.epochs.commitEpochForRound commitRound)) <;> rfl

theorem withFrame_deleteHeldContent (sender id : Hash) :
    deleteHeldContent sender (st.withFrame fr) id =
      (deleteHeldContent sender st id).withFrame fr := by
  unfold deleteHeldContent
  rw [withFrame_getObject]
  cases st.getObject id with
  | none => rfl
  | some o =>
    dsimp only
    split <;> rfl

theorem withFrame_ensureMutableVersion (r : ObjectRef) :
    (st.withFrame fr).ensureMutableVersion r = (st.ensureMutableVersion r).withFrame fr := by
  unfold ensureMutableVersion
  cases r.refID with
  | none => rfl
  | some id =>
    dsimp only
    rw [withFrame_getObject]
    cases st.getObject id with
    | none => rfl
    | some o =>
      dsimp only
      split <;> rfl

/-! ### Pods -/

variable {nd : Node} {tx : Transaction}

theorem withFrame_applyCreatedObject {created : Object × Nat}
    (h : (st.withFrame fr).stampedDeposit nd tx created.1 = st.stampedDeposit nd tx created.1) :
    applyCreatedObject nd tx (st.withFrame fr) created =
      (applyCreatedObject nd tx st created).withFrame fr := by
  unfold applyCreatedObject
  dsimp only
  rw [h]
  split <;> rfl

/-- Creating an object leaves the size of the validator set, and so the stamps, as they are. -/
theorem withFrame_foldl_applyCreatedObject {l : List (Object × Nat)} (h : ∀ created ∈ l,
      (st.withFrame fr).stampedDeposit nd tx created.1 = st.stampedDeposit nd tx created.1) :
    l.foldl (applyCreatedObject nd tx) (st.withFrame fr) =
      (l.foldl (applyCreatedObject nd tx) st).withFrame fr := by
  induction l generalizing st with
  | nil => rfl
  | cons created l ih =>
    have hkept : (applyCreatedObject nd tx st created).validators = st.validators := by
      unfold applyCreatedObject
      dsimp only
      split <;> rfl
    rw [List.foldl_cons, withFrame_applyCreatedObject st fr (h _ List.mem_cons_self), ih,
      List.foldl_cons]
    intro other hother
    have hstamp := h other (List.mem_cons_of_mem _ hother)
    unfold stampedDeposit at hstamp ⊢
    rw [hkept]
    exact hstamp

theorem withFrame_processOutput {out : Option PodOutput} (inputs : List Object)
    (h : ∀ o, out = some o → ∀ created ∈ o.createdObjects,
      (st.withFrame fr).stampedDeposit nd tx created = st.stampedDeposit nd tx created) :
    (st.withFrame fr).processOutput nd out tx inputs =
      (st.processOutput nd out tx inputs).map (·.withFrame fr) := by
  unfold processOutput
  cases out with
  | none => rfl
  | some out =>
    have hupdate : (st.withFrame fr).applyUpdatedObjects out =
        (st.applyUpdatedObjects out).withFrame fr := foldl_withFrame st fr (fun _ _ => rfl) _
    have hcreate : ((st.applyUpdatedObjects out).withFrame fr).applyCreatedObjects nd out tx =
        ((st.applyUpdatedObjects out).applyCreatedObjects nd out tx).withFrame fr := by
      refine withFrame_foldl_applyCreatedObject _ fr fun created hc => ?_
      have hstamp := h out rfl created.1 (List.fst_mem_of_mem_zipIdx hc)
      unfold stampedDeposit at hstamp ⊢
      rw [(st.applyUpdatedObjects_onlyBodies out).validators]
      exact hstamp
    have hdelete : ∀ s : Ledger, (s.withFrame fr).applyDeletedObjects tx =
        (s.applyDeletedObjects tx).withFrame fr := fun s =>
      foldl_withFrame s fr (fun st id => withFrame_deleteHeldContent st fr _ id) _
    dsimp only
    rw [show (st.withFrame fr).validateOutput nd out tx inputs = st.validateOutput nd out tx inputs
      from rfl, hupdate, hcreate, hdelete]
    split
    · rfl
    · cases st.validateOutput nd out tx inputs <;> rfl

/-- A pod runs alike in any frame in which its objects are stamped alike. -/
theorem withFrame_execute {atx : AttestedTransaction} (h : ∀ input out,
      nd.pods (hashOrZero tx.pod) input = .ok (some out) → ∀ o ∈ out.createdObjects,
        (st.withFrame fr).stampedDeposit nd tx o = st.stampedDeposit nd tx o) :
    (st.withFrame fr).execute nd tx atx = (st.execute nd tx atx).map (·.withFrame fr) := by
  unfold execute
  rw [show (st.withFrame fr).podInput tx atx = st.podInput tx atx from rfl,
    show (st.withFrame fr).podObjects tx atx = st.podObjects tx atx from rfl]
  cases hpod : nd.pods (hashOrZero tx.pod) (st.podInput tx atx) with
  | error e => rfl
  | ok out =>
    dsimp only
    rw [withFrame_processOutput st fr _ fun o ho => h _ o (ho ▸ hpod)]
    cases st.processOutput nd out tx (st.podObjects tx atx) with
    | error e => rfl
    | ok s =>
      exact congrArg Except.ok
        (foldl_withFrame s fr (fun st r => withFrame_ensureMutableVersion st fr r) _)

end AnyFrameOutput

/-! ## Functions that pass the books through -/

section Through

variable (st : Ledger) (b : Book) (nd : Node) (id : Hash) (amount : UInt64) (p : FeeParams)

/-! ### Stages that work in any frame -/

theorem withBook_creditCoin :
    (st.withBook b).creditCoin id amount = (st.creditCoin id amount).map (·.withBook b) :=
  withBook_of_withFrame st (·.creditCoin id amount) Except.map (fun _ _ r => by cases r <;> rfl)
    (fun st fr => withFrame_creditCoin st fr id amount) b

theorem withBook_strictDebit :
    (st.withBook b).strictDebit id amount = (st.strictDebit id amount).map (·.withBook b) :=
  withBook_of_withFrame st (·.strictDebit id amount) Option.map (fun _ _ r => by cases r <;> rfl)
    (fun st fr => withFrame_strictDebit st fr id amount) b

theorem withBook_deductCoinFee (fee : UInt64) :
    (st.withBook b).deductCoinFee id fee =
      (st.deductCoinFee id fee).map fun r => (r.1.withBook b, r.2) :=
  withBook_of_withFrame st (·.deductCoinFee id fee)
    (fun g r => r.map fun r => (g r.1, r.2)) (fun _ _ r => by cases r <;> rfl)
    (fun st fr => withFrame_deductCoinFee st fr id fee) b

theorem withBook_settleDeletions (tx : Transaction) (ids : List Hash) :
    (st.withBook b).settleDeletions p tx ids = (st.settleDeletions p tx ids).withBook b :=
  withBook_of_withFrame st (·.settleDeletions p tx ids) (fun g st => g st) (fun _ _ _ => rfl)
    (fun st fr => withFrame_settleDeletions st fr p tx ids) b

/-! ### Fees -/

section

variable (tx)

theorem feesAlike_withBook (atx : AttestedTransaction) :
    FeesAlike (fun s s' => s' = s.withBook b) (st.deductFees nd tx atx)
      ((st.withBook b).deductFees nd tx atx) := by
  refine deductFees_rel ⟨_, _, rfl⟩ rfl (fun _ => rfl) (fun _ => rfl) fun coin _ fee => ?_
  rw [withBook_deductCoinFee]
  exact (resultAlike_map _ _).imp fun _ _ h => h ▸ ⟨rfl, rfl⟩

/-! ### Stake -/

theorem stakesAlike_withBook :
    StakesAlike (fun s s' => s' = s.withBook b) nd tx st (st.withBook b) where
  bond sender coin amount _ := by
    refine ⟨rfl, ?_⟩
    rw [withBook_strictDebit]
    cases st.strictDebit coin amount with
    | none => exact .none
    | some s => exact .some fun _ => rfl
  unbond sender coin amount _ := by
    refine ⟨rfl, fun _ _ => ?_⟩
    rw [withBook_creditCoin]
    cases st.creditCoin coin amount with
    | error e => exact .error rfl
    | ok s => exact .ok fun _ => rfl
  delegate delegator coin validator amount _ := by
    refine ⟨rfl, ?_⟩
    rw [withBook_strictDebit]
    cases st.strictDebit coin amount with
    | none => exact .none
    | some s => exact .some rfl
  undelegate delegator coin validator a _ := by
    refine ⟨rfl, fun amount => ?_⟩
    rw [withBook_creditCoin]
    cases st.creditCoin coin amount with
    | error e => exact .error rfl
    | ok s => exact .ok rfl

theorem withBook_handleBond :
    (st.withBook b).handleBond nd tx = (st.handleBond nd tx).map (·.withBook b) :=
  eq_map_of_rel (stakesAlike_withBook st b nd tx).bond.handleBond

theorem withBook_handleStake :
    (st.withBook b).handleStake nd tx = (st.handleStake nd tx).withBook b :=
  (stakesAlike_withBook st b nd tx).handleStake rfl

end

theorem withBook_execute (tx : Transaction) (atx : AttestedTransaction) :
    (st.withBook b).execute nd tx atx = (st.execute nd tx atx).map (·.withBook b) :=
  @reframe_of_withFrame st _ (·.execute nd tx atx) Except.map (fun _ _ r => by cases r <;> rfl)
    (fun fr => { fr with toBook := b }) (withFrame_execute _ _ fun _ _ _ _ _ => rfl)
    (withFrame_execute _ _ fun _ _ _ _ _ => rfl)

end Through

end Ledger

/-! ## Outcomes -/

/-- An outcome under other books. -/
def Outcome.withBook (out : Outcome) (b : Book) : Outcome :=
  { out with ledger := out.ledger.withBook b }

namespace Ledger

variable (st : Ledger) (b : Book) (nd : Node) (cr : Crypto)

section

variable (tx) (atx : AttestedTransaction) (split withheld)

theorem withBook_runPod :
    (st.withBook b).runPod nd tx atx split withheld =
      (st.runPod nd tx atx split withheld).withBook b := by
  unfold runPod
  rw [withBook_execute]
  cases st.execute nd tx atx <;> rfl

theorem withBook_finishTx :
    (st.withBook b).finishTx nd tx atx split withheld =
      (st.finishTx nd tx atx split withheld).withBook b := by
  unfold finishTx
  split
  · rfl
  · exact withBook_runPod st b nd tx atx split withheld

end

theorem withBook_commitDeclaredOps (tx : Transaction) (commitRound : Nat) (split : FeeSplit)
    (withheld : UInt64) :
    (st.withBook b).commitDeclaredOps nd tx commitRound split withheld =
      (st.commitDeclaredOps nd tx commitRound split withheld).withBook b :=
  withBook_of_withFrame st (·.commitDeclaredOps nd tx commitRound split withheld)
    (fun g out => { out with ledger := g out.ledger })
    (fun _ _ _ => rfl)
    (fun st fr => withFrame_commitDeclaredOps st fr nd tx commitRound split withheld) b

/-! ### What stays in the books -/

theorem book_deductFees (tx : Transaction) (atx : AttestedTransaction) :
    (st.deductFees nd tx atx).ledger.book = st.book :=
  st.book_of_withBook (fun st => (st.deductFees nd tx atx).ledger) fun st b =>
    (feesAlike_withBook st b nd tx atx).ledger

theorem book_handleStake (tx : Transaction) : (st.handleStake nd tx).book = st.book :=
  st.book_of_withBook (·.handleStake nd tx) fun st b => withBook_handleStake st b nd tx

theorem book_settleDeletions (p : FeeParams) (tx : Transaction) (ids : List Hash) :
    (st.settleDeletions p tx ids).book = st.book :=
  st.book_of_withBook (·.settleDeletions p tx ids) fun st b =>
    withBook_settleDeletions st b p tx ids

theorem book_commitDeclaredOps (tx : Transaction) (commitRound : Nat) (split : FeeSplit)
    (withheld : UInt64) :
    (st.commitDeclaredOps nd tx commitRound split withheld).ledger.book = st.book :=
  st.book_of_withBook (fun st => (st.commitDeclaredOps nd tx commitRound split withheld).ledger)
    fun st b => congrArg Outcome.ledger
      (withBook_commitDeclaredOps st b nd tx commitRound split withheld)

theorem book_runPod (tx : Transaction) (atx : AttestedTransaction) (split : FeeSplit)
    (withheld : UInt64) : (st.runPod nd tx atx split withheld).ledger.book = st.book :=
  st.book_of_withBook (fun st => (st.runPod nd tx atx split withheld).ledger) fun st b =>
    congrArg Outcome.ledger (withBook_runPod st b nd tx atx split withheld)

/-! ### Settlement -/

theorem withBook_compoundDelegation (delegator validator : Hash) (reward : UInt64) :
    (st.withBook b).compoundDelegation cr delegator validator reward =
      (st.compoundDelegation cr delegator validator reward).map (·.withBook b) := by
  unfold compoundDelegation
  rw [show (st.withBook b).readDelegationAmount (delegationID cr delegator validator) validator =
    st.readDelegationAmount (delegationID cr delegator validator) validator from rfl]
  split
  · rfl
  · cases st.readDelegationAmount (delegationID cr delegator validator) validator <;> rfl

theorem payoutsAlike_withBook (v : ValidatorInfo) :
    PayoutsAlike (fun s s' => s' = s.withBook b) cr v where
  positions := by
    rintro s _ rfl
    rfl
  compound := by
    rintro s _ rfl delegator reward
    rw [withBook_compoundDelegation]
    cases s.compoundDelegation cr delegator v.pubkey reward with
    | none => exact .none
    | some t => exact .some rfl
  restake := by
    rintro s _ rfl stake
    rfl
  credit _ := by
    rintro s _ rfl amount
    rw [withBook_creditCoin]
    exact resultAlike_map _ _

theorem withBook_distributeEpochRewards (cfg : Config) (produced : Hash → UInt64)
    (fees issuance : UInt64) :
    (st.withBook b).distributeEpochRewards cfg produced fees issuance =
      ((st.distributeEpochRewards cfg produced fees issuance).1.withBook b,
        (st.distributeEpochRewards cfg produced fees issuance).2) := by
  have hpaid : PaidAlike (fun s s' => s' = s.withBook b)
      (st.distributeEpochRewards cfg produced fees issuance)
      ((st.withBook b).distributeEpochRewards cfg produced fees issuance) := by
    refine distributeEpochRewards_alike (R := fun s s' => s' = s.withBook b) rfl rfl
      (fun v _ => payoutsAlike_withBook b cfg.crypto v) ?_ produced fees issuance
    rintro s _ rfl top remainder
    refine creditRemainder_alike rfl rfl fun v _ _ => ?_
    rw [withBook_creditCoin]
    exact resultAlike_map _ _
  exact Prod.ext hpaid.1 hpaid.2

theorem withBook_runThermostat (p : ThermostatParams) (rate : UInt64) (distributable : Bool) :
    (st.withBook b).runThermostat p rate distributable =
      ((st.runThermostat p rate distributable).1.withBook b,
        (st.runThermostat p rate distributable).2) := by
  unfold runThermostat
  cases distributable <;> rfl

theorem withBook_returnDeregisteredStake (pubkey : Hash) :
    (st.withBook b).returnDeregisteredStake pubkey =
      (st.returnDeregisteredStake pubkey).map (·.withBook b) := by
  unfold returnDeregisteredStake
  rw [withBook_validators]
  dsimp only
  split
  · rfl
  · cases st.validators.get pubkey with
    | none => rfl
    | some info =>
      dsimp only
      rw [withBook_creditCoin]
      split
      · rfl
      · cases st.creditCoin info.rewardCoin (releasedSelfStake (some info)) <;> rfl

theorem withBook_sweepExpiredDomains (grace newEpoch : UInt64) :
    (st.withBook b).sweepExpiredDomains grace newEpoch =
      (st.sweepExpiredDomains grace newEpoch).withBook b := rfl

end Ledger

end BluePods
