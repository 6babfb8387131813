import BluePods.Coverage
import BluePods.Tracking

/-! What a transaction does to the tracker entries of objects that are none of its
sender's. The versions of all mutable references are raised before anybody asks whose they
are, so a reference is enough to change an entry, or to make one. -/

namespace BluePods

variable {x : Hash}
open Lib.Forest Tracker

namespace Tracker

/-- What the tracker records of an object, apart from the count of its children. -/
def record (ot : Tracker) (id : Hash) : Option TrackerEntry :=
  (ot.lookup id).map fun e => { e with childCount := 0 }

variable (ot : Tracker) (id parent : Hash) (kind : Byte)

theorem record_eq_none : ot.record x = none ↔ ot.getParent x = none := by
  simp [record, getParent]

theorem getVersion_eq (x : Hash) : ot.getVersion x = ((ot.record x).map (·.version)).getD 0 := by
  cases h : ot.lookup x <;> simp [getVersion, entry, record, h]

theorem record_adjustChildCount (change : UInt32 → UInt32) (x : Hash) :
    (ot.adjustChildCount kind parent change).record x = ot.record x := by
  unfold adjustChildCount
  split
  · rfl
  · cases he : ot.lookup parent with
    | none => rfl
    | some e =>
      by_cases hx : x = parent
      · subst hx
        simp [record, he]
      · simp [record, AList.lookup_insert_ne hx]

theorem record_trackObject (version : UInt64) (replication : UInt16) (fees : UInt64) (x : Hash) :
    (ot.trackObject id version replication fees kind parent).record x =
      if x = id then some { version, replication, fees, parentKind := kind, parent }
      else ot.record x := by
  have hwritten : ∀ e : TrackerEntry, record (ot.insert id e) x =
      if x = id then some { e with childCount := 0 } else ot.record x := by
    intro e
    by_cases hx : x = id
    · subst hx
      simp [record]
    · simp [record, AList.lookup_insert_ne hx, hx]
  unfold trackObject rebindChildCount
  dsimp only
  split
  · rw [record_adjustChildCount, hwritten]
  · split
    · rw [hwritten]
    · rw [record_adjustChildCount, record_adjustChildCount, hwritten]

theorem record_deleteObject_of_ne (hx : x ≠ id) : (ot.deleteObject id).record x = ot.record x := by
  have herase : record (ot.erase id) x = ot.record x := by
    simp [record, AList.lookup_erase_ne hx]
  unfold deleteObject
  split
  · exact herase
  · rw [record_adjustChildCount, herase]

theorem record_foldl_deleteObject {ids : List Hash} (hx : x ∉ ids) :
    (ids.foldl deleteObject ot).record x = ot.record x := by
  induction ids generalizing ot with
  | nil => rfl
  | cons id ids ih =>
    rw [List.mem_cons, not_or] at hx
    rw [List.foldl_cons, ih _ hx.2, record_deleteObject_of_ne _ _ hx.1]

theorem getVersion_setParent (x : Hash) :
    (ot.setParent id kind parent).getVersion x = ot.getVersion x := by
  rw [setParent, getVersion_eq, record_trackObject]
  by_cases hx : x = id
  · simp [hx]
  · rw [if_neg hx, ← getVersion_eq]

/-! ## Raised versions -/

theorem record_incrementMutableObjects {tx : Transaction} (hx : x ∉ tx.mutableRefIDs) :
    (ot.incrementMutableObjects tx).record x = ot.record x := by
  unfold incrementMutableObjects
  generalize tx.mutableRefIDs = ids at hx ⊢
  induction ids generalizing ot with
  | nil => rfl
  | cons id ids ih =>
    rw [List.mem_cons, not_or] at hx
    rw [List.foldl_cons, ih _ hx.2, bumpVersion, record_trackObject, if_neg hx.1]

/-- Every reference to an object raises its version by one. -/
theorem getVersion_incrementMutableObjects (tx : Transaction) (x : Hash) :
    (ot.incrementMutableObjects tx).getVersion x =
      ot.getVersion x + UInt64.ofNat (tx.mutableRefIDs.count x) := by
  unfold incrementMutableObjects
  induction tx.mutableRefIDs generalizing ot with
  | nil => simp
  | cons id ids ih =>
    rw [List.foldl_cons, ih, getVersion, entry_bumpVersion]
    by_cases hx : x = id
    · rw [if_pos hx, hx, List.count_cons_self, Nat.add_comm, UInt64.ofNat_add, ← UInt64.add_assoc]
      rfl
    · rw [if_neg hx, List.count_cons_of_ne (Ne.symm hx)]
      rfl

/-- The references of one transaction are too few to bring a version around. -/
theorem getVersion_incrementMutableObjects_ne (ot : Tracker) {tx : Transaction} {x : Hash}
    (hlen : tx.mutableRefs.length < 2 ^ 32) (hx : x ∈ tx.mutableRefIDs) :
    (ot.incrementMutableObjects tx).getVersion x ≠ ot.getVersion x := by
  rw [getVersion_incrementMutableObjects]
  have hpos := List.count_pos_iff.2 hx
  have hle : tx.mutableRefIDs.count x ≤ tx.mutableRefs.length :=
    (List.count_le_length).trans (List.length_filterMap_le ..)
  intro heq
  have hnat := congrArg UInt64.toNat heq
  have hv := (ot.getVersion x).toNat_lt
  rw [UInt64.toNat_add, UInt64.toNat_ofNat', Nat.mod_eq_of_lt (by omega : _ < 2 ^ 64)] at hnat
  omega

/-- A referenced object is tracked behind the gates, whether or not it was before: a new
entry hangs from the zero key. -/
theorem getParent_incrementMutableObjects (tx : Transaction) (x : Hash) :
    (ot.incrementMutableObjects tx).getParent x =
      if x ∈ tx.mutableRefIDs then some ((ot.getParent x).getD (keyRootKind, zeroHash))
      else ot.getParent x := by
  unfold incrementMutableObjects
  induction tx.mutableRefIDs generalizing ot with
  | nil => simp
  | cons id ids ih =>
    rw [List.foldl_cons, ih, getParent_bumpVersion]
    by_cases hx : x = id
    · subst hx
      by_cases hmem : x ∈ ids <;> simp [hmem]
    · by_cases hmem : x ∈ ids <;> simp [hmem, hx]

end Tracker

/-! ## Declared operations -/

namespace Ledger

variable {st st' : Ledger} {p : FeeParams} {tx : Transaction} {epoch : UInt64}

/-- The three things an accepted operation does to the tracker. -/
theorem applyDeclaredOp_tracker {t t' : StagedView} {sender : Hash} {refs : List Hash}
    {op : DeclaredOp} (hs : t.Stages sender refs op t') (p : FeeParams) (tx : Transaction)
    (epoch : UInt64) (u : Ledger) :
    (∃ id ∈ refs, ∃ kind parent, t.controls sender id = true ∧
        (kind = keyRootKind ∨ kind = objectParentKind) ∧
        (kind = objectParentKind → t.controls sender parent = true) ∧
        (applyDeclaredOp p tx sender epoch u op).tracker = u.tracker.setParent id kind parent) ∨
      (∃ id ∈ refs, t.controls sender id = true ∧ t.childCount id = 0 ∧
        (applyDeclaredOp p tx sender epoch u op).tracker = u.tracker.deleteObject id) ∨
      (applyDeclaredOp p tx sender epoch u op).tracker = u.tracker := by
  have hname : op.kind ≠ reparentOp → op.kind ≠ deleteOp →
      (applyDeclaredOp p tx sender epoch u op).tracker = u.tracker := by
    intro hr hd
    rw [applyDeclaredOp, if_neg hr, if_neg hd, applyDomainOp_tracker]
  cases hs with
  | reparent hkind hobject href hown hinto htargets hownTarget =>
    refine .inl ⟨_, href, op.targetKind, _, hown, htargets, hownTarget, ?_⟩
    rw [applyDeclaredOp, if_pos hkind, applyReparent_tracker, toHash_of_hash32 hobject,
      toHash_of_hash32 hinto]
  | delete hkind hobject href hown hchildless =>
    have hnot : op.kind ≠ reparentOp := by rw [hkind]; decide
    refine .inr (.inl ⟨_, href, hown, hchildless, ?_⟩)
    rw [applyDeclaredOp, if_neg hnot, if_pos hkind, applyDelete_tracker, toHash_of_hash32 hobject]
  | register hkind | renew hkind | update hkind | transfer hkind | remove hkind =>
    exact .inr (.inr (hname (by rw [hkind]; decide) (by rw [hkind]; decide)))

section

variable (h : st.handleDeclaredOps p tx epoch = some st')

include h

/-- A property of the tracker that re-hanging and deleting referenced, controlled objects
keep. -/
theorem handleDeclaredOps_rule {Q : Tracker → Prop} (hstart : Q st.tracker)
    (hmove : ∀ ot id kind parent, id ∈ tx.mutableRefIDs → ot.getParent id ≠ none → Q ot →
      Q (ot.setParent id kind parent))
    (hdelete : ∀ ot id, id ∈ tx.mutableRefIDs → ot.getParent id ≠ none → Q ot →
      Q (ot.deleteObject id)) :
    Q st'.tracker := by
  obtain ⟨view, sender, -, -, hfold, rfl, -⟩ := handleDeclaredOps_some h
  refine (@accepted_rule _ _ _ _ _ _ _ tx (fun _ u => Q u.tracker)
    (.start st epoch p.maxTermEpochs) rfl hfold hstart ?_).2.1
  intro t t' u op hshows hepoch _ _ hs hq
  have htracked : ∀ {id}, t.controls sender id = true → u.tracker.getParent id ≠ none := by
    intro id hown
    rw [hshows.parents]
    exact (StagedView.parent_of_controls hown).1
  rcases applyDeclaredOp_tracker hs p tx epoch u with
    ⟨id, href, kind, parent, hown, -, -, heq⟩ | ⟨id, href, hown, -, heq⟩ | heq
  · rw [heq]
    exact hmove _ _ _ _ href (htracked hown) hq
  · rw [heq]
    exact hdelete _ _ href (htracked hown) hq
  · rwa [heq]

theorem handleDeclaredOps_record (hx : x ∉ tx.mutableRefIDs) :
    st'.tracker.record x = st.tracker.record x := by
  refine handleDeclaredOps_rule (Q := fun ot => ot.record x = st.tracker.record x) h rfl ?_ ?_
  · intro ot id kind parent href _ hq
    rw [setParent, record_trackObject, if_neg (by rintro rfl; exact hx href), hq]
  · intro ot id href _ hq
    rw [record_deleteObject_of_ne _ _ (by rintro rfl; exact hx href), hq]

theorem handleDeclaredOps_version (x : Hash) :
    st'.tracker.getParent x = none ∨ st'.tracker.getVersion x = st.tracker.getVersion x := by
  refine handleDeclaredOps_rule (Q := fun ot => ot.getParent x = none ∨
    ot.getVersion x = st.tracker.getVersion x) h (.inr rfl) ?_ ?_
  · intro ot id kind parent _ htracked hq
    rw [getVersion_setParent, getParent_setParent]
    refine hq.imp_left fun hnone => ?_
    rw [if_neg (by rintro rfl; exact htracked hnone), hnone]
  · intro ot id _ _ hq
    by_cases hx : x = id
    · exact .inl (by rw [getParent_deleteObject, if_pos hx])
    · rw [getParent_deleteObject, if_neg hx, getVersion_eq,
        record_deleteObject_of_ne _ _ hx, ← getVersion_eq]
      exact hq

end

/-! ## Whole transactions -/

/-- The sender owns the object or controls it through the hierarchy. -/
def HeldBySender (st : Ledger) (nd : Node) (atx : AttestedTransaction) (commitRound : Nat)
    (tx : Transaction) (id : Hash) : Prop :=
  ∃ sender, hash32 tx.sender = some sender ∧
    (st.OwnedBy nd atx commitRound id sender ∨ st.tracker.controllerOf id = some sender)

/-- The transaction runs its pod, and the output creates an object under this
identifier. -/
def Creates (st : Ledger) (nd : Node) (atx : AttestedTransaction) (commitRound : Nat)
    (verdict : Option ProofError) (id : Hash) : Prop :=
  (st.executeTx nd atx commitRound verdict).exit = .executed ∧
    ∃ tx st₁ split withheld out,
      st.prepareTx nd atx commitRound verdict = .ok (tx, st₁, split, withheld) ∧
      nd.pods (hashOrZero tx.pod) (st₁.podInput tx atx) = .ok (some out) ∧
      ∃ i < out.createdObjects.length, id = computeObjectID nd.crypto (hashOrZero tx.hash) i

/-- The reference leaves nothing behind: the object was tracked nowhere, and the
transaction gets to the settlement of its declared deletions, where its new entry goes. -/
structure Vanishes (st : Ledger) (nd : Node) (atx : AttestedTransaction) (tx : Transaction)
    (id : Hash) : Prop where
  untracked : st.tracker.record id = none
  declared : id ∈ ownedDeletedRefs tx
  pays : (st.feeStage nd tx atx).proceed = true
  call : tx.operations = []
  clears : st.Clears nd atx tx

variable {nd : Node} {atx : AttestedTransaction} {commitRound : Nat} {verdict : Option ProofError}

theorem record_trackCreated {deposit : Object → UInt64} {created : List (Object × Nat)}
    (hx : ∀ c ∈ created, x ≠ computeObjectID nd.crypto (hashOrZero tx.hash) c.2) (ot : Tracker) :
    (created.foldl (trackCreated nd tx deposit) ot).record x = ot.record x := by
  induction created generalizing ot with
  | nil => rfl
  | cons c created ih =>
    rw [List.foldl_cons, ih fun c' hc' => hx c' (List.mem_cons_of_mem _ hc'), trackCreated,
      record_trackObject, if_neg (hx c List.mem_cons_self)]

theorem not_created {st₁ : Ledger} {split : FeeSplit} {withheld : UInt64} {out : PodOutput}
    (hnew : ¬ st.Creates nd atx commitRound verdict x)
    (hexecuted : (st.executeTx nd atx commitRound verdict).exit = .executed)
    (hprepared : st.prepareTx nd atx commitRound verdict = .ok (tx, st₁, split, withheld))
    (hpod : nd.pods (hashOrZero tx.pod) (st₁.podInput tx atx) = .ok (some out)) :
    ∀ c ∈ out.createdObjects.zipIdx, x ≠ computeObjectID nd.crypto (hashOrZero tx.hash) c.2 := by
  rintro ⟨o, i⟩ hc rfl
  obtain ⟨-, hi, -⟩ := List.mem_zipIdx hc
  exact hnew ⟨hexecuted, tx, st₁, _, _, out, hprepared, hpod, i, by simpa using hi, rfl⟩

theorem record_trackerSettled (st : Ledger) (tx : Transaction) (x : Hash) :
    (st.trackerSettled tx).record x = if x ∈ ownedDeletedRefs tx then none
      else (st.tracker.incrementMutableObjects tx).record x := by
  unfold trackerSettled
  split
  · rename_i hx
    rw [record_eq_none, getParent_foldl_deleteObject, if_pos hx]
  · rename_i hx
    exact record_foldl_deleteObject _ hx

theorem executeTx_record
    (href : ∀ tx, st.Admits nd atx commitRound verdict tx → x ∉ tx.mutableRefIDs)
    (hnew : ¬ st.Creates nd atx commitRound verdict x) :
    (st.executeTx nd atx commitRound verdict).ledger.tracker.record x = st.tracker.record x := by
  have hsettled : ∀ {tx}, x ∉ tx.mutableRefIDs →
      (st.trackerSettled tx).record x = st.tracker.record x := by
    intro tx hx
    rw [record_trackerSettled, if_neg fun hmem => hx (mutableRefIDs_of_ownedDeletedRefs hmem),
      record_incrementMutableObjects _ hx]
  have hstep := st.executeTx_tracker nd atx commitRound verdict
  generalize (st.executeTx nd atx commitRound verdict).ledger.tracker = ot at hstep ⊢
  cases hstep with
  | kept => rfl
  | bumped hadmits => exact record_incrementMutableObjects _ (href _ hadmits)
  | operated hadmits _ htracker haccepted =>
    rw [handleDeclaredOps_record haccepted (href _ hadmits), htracker,
      record_incrementMutableObjects _ (href _ hadmits)]
  | deleted hadmits => exact hsettled (href _ hadmits)
  | created hadmits _ _ _ hprepared hexecuted _ _ hpod =>
    rw [record_trackCreated (not_created hnew hexecuted hprepared hpod),
      hsettled (href _ hadmits)]

/-- Behind the gates a reference raises a version, and its object's record is as before
only if that goes with a declared deletion. -/
theorem executeTx_record_eq_iff (hadmits : st.Admits nd atx commitRound verdict tx)
    (hlen : tx.mutableRefs.length < 2 ^ 32) (hx : x ∈ tx.mutableRefIDs)
    (hnew : ¬ st.Creates nd atx commitRound verdict x) :
    (st.executeTx nd atx commitRound verdict).ledger.tracker.record x = st.tracker.record x ↔
      st.Vanishes nd atx tx x := by
  have hversion := st.tracker.getVersion_incrementMutableObjects_ne hlen hx
  have hraised : (st.tracker.incrementMutableObjects tx).record x ≠ st.tracker.record x :=
    fun heq => hversion (by rw [getVersion_eq, heq, ← getVersion_eq])
  have hsettled : (st.feeStage nd tx atx).proceed = true → tx.operations = [] →
      st.Clears nd atx tx →
      ((st.trackerSettled tx).record x = st.tracker.record x ↔ st.Vanishes nd atx tx x) := by
    intro hproceed hcall hclears
    rw [record_trackerSettled]
    split
    · rename_i hdel
      exact ⟨fun h => ⟨h.symm, hdel, hproceed, hcall, hclears⟩, fun h => h.untracked.symm⟩
    · rename_i hdel
      exact iff_of_false hraised fun h => hdel h.declared
  have hstep := st.executeTx_tracker nd atx commitRound verdict
  generalize (st.executeTx nd atx commitRound verdict).ledger.tracker = ot at hstep ⊢
  have hsame : ∀ {tx'}, st.Admits nd atx commitRound verdict tx' → tx' = tx := fun h =>
    Option.some.inj (h.transaction.symm.trans hadmits.transaction)
  cases hstep with
  | kept hno => exact absurd hadmits (hno tx)
  | bumped hadmits' hearly =>
    obtain rfl := hsame hadmits'
    exact iff_of_false hraised fun h => hearly h.pays h.call h.clears
  | @operated _ st₁ st' hadmits' hops htracker haccepted =>
    obtain rfl := hsame hadmits'
    refine iff_of_false (fun heq => ?_) fun h => hops h.call
    rcases handleDeclaredOps_version haccepted x with hgone | hkept
    · -- only what the sender controls is deleted, and a new entry hangs from the zero key
      have hbefore : st.tracker.getParent x = none := by
        rw [← record_eq_none, ← heq, record_eq_none, hgone]
      obtain ⟨_, sender, hsender, hzero, -⟩ := handleDeclaredOps_some haccepted
      have hparent : st₁.tracker.getParent x = some (keyRootKind, zeroHash) := by
        rw [htracker, getParent_incrementMutableObjects, if_pos hx, hbefore]
        rfl
      have hspared := ((handleDeclaredOps_spares haccepted hsender).1 x zeroHash 1
        (.root (edges_of_key hparent)) hzero.symm).1
      simp [hspared, hparent] at hgone
    · rw [htracker] at hkept
      rw [← hkept, getVersion_eq, heq, ← getVersion_eq] at hversion
      exact hversion rfl
  | deleted hadmits' hproceed hcall hclears =>
    obtain rfl := hsame hadmits'
    exact hsettled hproceed hcall hclears
  | created hadmits' hproceed hcall hclears hprepared hexecuted _ _ hpod =>
    obtain rfl := hsame hadmits'
    rw [record_trackCreated (not_created hnew hexecuted hprepared hpod)]
    exact hsettled hproceed hcall hclears

/-- A transaction leaves the records of all objects that are not its sender's and that it
does not create, exactly when it is turned away at the gates or references none of them
mutably, but to delete an entry that only the reference made. -/
theorem executeTx_spares_foreign_records_iff (st : Ledger) (nd : Node) (atx : AttestedTransaction)
    (commitRound : Nat) (verdict : Option ProofError)
    (hwire : ∀ tx, atx.transaction = some tx → tx.mutableRefs.length < 2 ^ 32) :
    (∀ tx id, atx.transaction = some tx → ¬ st.HeldBySender nd atx commitRound tx id →
        ¬ st.Creates nd atx commitRound verdict id →
        (st.executeTx nd atx commitRound verdict).ledger.tracker.record id =
          st.tracker.record id) ↔
      ∀ tx id, st.Admits nd atx commitRound verdict tx →
        ¬ st.HeldBySender nd atx commitRound tx id → ¬ st.Creates nd atx commitRound verdict id →
        id ∈ tx.mutableRefIDs → st.Vanishes nd atx tx id := by
  constructor
  · intro hspares tx id hadmits hforeign hnew hid
    exact (executeTx_record_eq_iff hadmits (hwire tx hadmits.transaction) hid hnew).1
      (hspares tx id hadmits.transaction hforeign hnew)
  · intro hvanish tx id htx hforeign hnew
    by_cases href : ∃ tx', st.Admits nd atx commitRound verdict tx' ∧ id ∈ tx'.mutableRefIDs
    · obtain ⟨tx', hadmits, hid⟩ := href
      obtain rfl := Option.some.inj (htx.symm.trans hadmits.transaction)
      exact (executeTx_record_eq_iff hadmits (hwire tx htx) hid hnew).2
        (hvanish tx id hadmits hforeign hnew hid)
    · exact executeTx_record (fun tx' hadmits hid => href ⟨tx', hadmits, hid⟩) hnew

end Ledger

/-- A transaction of the first user over its own coin touches nobody else's records. -/
theorem executeTx_spares_foreign_records_iff_ownCoin :
    let nd := soloNode (podReturning {})
    ∀ tx id, (creatingTx (idOf 11) []).transaction = some tx →
      ¬ soloLedger.HeldBySender nd (creatingTx (idOf 11) []) 0 tx id →
      ¬ soloLedger.Creates nd (creatingTx (idOf 11) []) 0 none id →
      (soloLedger.executeTx nd (creatingTx (idOf 11) []) 0 none).ledger.tracker.record id =
        soloLedger.tracker.record id := by
  refine (soloLedger.executeTx_spares_foreign_records_iff _ _ 0 none fun tx htx => ?_).2
    fun tx id hadmits hforeign _ hid => absurd ⟨idOf 1, ?_, .inl (.inl ?_)⟩ hforeign
  · rw [← Option.some.inj htx]
    decide
  · rw [← Option.some.inj hadmits.transaction]
    decide
  · rw [← Option.some.inj hadmits.transaction] at hid
    rw [List.mem_singleton.1 hid]
    decide +kernel

/-- The second user's coin is tracked under its key. -/
def guardedLedger : Ledger :=
  { soloLedger with tracker := (∅ : Tracker).trackObject (idOf 12) 3 0 0 keyRootKind (idOf 2) }

/-- The first user references the second user's coin and an identifier nobody uses, and
offers no gas coin. -/
def meddlingBody : Transaction :=
  signedTx
    { sender := (idOf 1).val
      pod := (idOf 7).val
      functionName := ascii "noop"
      mutableRefs := [{ id := (idOf 12).val, version := 3 }, { id := (idOf 99).val }] }

def meddlingTx : AttestedTransaction where
  transaction := some meddlingBody

theorem meddlingTx_not_held {id : Hash}
    (hstored : ((guardedLedger.getObject id).bind fun o => hash32 o.owner) ≠ some (idOf 1))
    (hcontrol : guardedLedger.tracker.controllerOf id ≠ some (idOf 1)) (nd : Node) :
    ¬ guardedLedger.HeldBySender nd meddlingTx 0 meddlingBody id := by
  rintro ⟨sender, hsender, hheld⟩
  obtain rfl : idOf 1 = sender := Option.some.inj ((by decide : hash32 meddlingBody.sender =
    some (idOf 1)).symm.trans hsender)
  rcases hheld with (h | ⟨i, o, ho, -⟩) | h
  · exact hstored h
  · simp [meddlingTx] at ho
  · exact hcontrol h

/-- The transaction is turned away for its fee and pays nothing. The coin's version has
gone up all the same, and the unused identifier has an entry. -/
theorem meddlingTx_changes_foreign_records :
    let nd := soloNode (podReturning {})
    let out := guardedLedger.executeTx nd meddlingTx 0 (verify nd.crypto nd.epochs 0 meddlingTx)
    ¬ guardedLedger.HeldBySender nd meddlingTx 0 meddlingBody (idOf 12) ∧
      ¬ guardedLedger.HeldBySender nd meddlingTx 0 meddlingBody (idOf 99) ∧
      out.exit = .feeRejected ∧
      (guardedLedger.tracker.record (idOf 12)).map (·.version) = some 3 ∧
      (out.ledger.tracker.record (idOf 12)).map (·.version) = some 4 ∧
      guardedLedger.tracker.record (idOf 99) = none ∧
      (out.ledger.tracker.record (idOf 99)).map (·.version) = some 1 := by
  refine ⟨meddlingTx_not_held (by decide +kernel) (by decide +kernel) _,
    meddlingTx_not_held (by decide +kernel) (by decide +kernel) _, ?_⟩
  decide +kernel

end BluePods
