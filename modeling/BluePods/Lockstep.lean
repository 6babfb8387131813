import BluePods.Failure
import BluePods.Holders
import BluePods.Interference
import BluePods.Writes

/-! Stored bodies against tracker entries. A body carries its version, its owner and the
kind of its parent; the tracker keeps the same three of every object. Every stage of a
transaction is stated by what it does to the two sides: most leave them or drop one, and
what the version check raises is brought along by the operations or by the pod call. -/

namespace BluePods

open Tracker

variable {tx : Transaction}

/-! ## Stamps -/

/-- Version, parent reference and kind of the parent. -/
structure Stamp where
  version : UInt64
  parent : Bytes
  kind : Byte
  deriving DecidableEq

def Object.stamp (o : Object) : Stamp := ⟨o.version, o.owner, o.parentKind⟩

def TrackerEntry.stamp (e : TrackerEntry) : Stamp := ⟨e.version, e.parent.val, e.parentKind⟩

namespace Tracker

variable (ot : Tracker) (id parent : Hash) (kind : Byte)

def stampOf : Option Stamp := (ot.lookup id).map TrackerEntry.stamp

theorem stampOf_eq_record (x : Hash) : ot.stampOf x = (ot.record x).map TrackerEntry.stamp := by
  unfold stampOf record
  cases ot.lookup x <;> rfl

theorem stampOf_eq_edge (x : Hash) :
    ot.stampOf x = (ot.getParent x).map fun edge => ⟨ot.getVersion x, edge.2.val, edge.1⟩ := by
  unfold stampOf getParent getVersion entry
  cases ot.lookup x <;> rfl

theorem stampOf_trackObject (version : UInt64) (replication : UInt16) (fees : UInt64) (x : Hash) :
    (ot.trackObject id version replication fees kind parent).stampOf x =
      if x = id then some ⟨version, parent.val, kind⟩ else ot.stampOf x := by
  rw [stampOf_eq_record, record_trackObject, stampOf_eq_record]
  split <;> rfl

theorem stampOf_setParent (x : Hash) :
    (ot.setParent id kind parent).stampOf x =
      if x = id then some ⟨ot.getVersion id, parent.val, kind⟩ else ot.stampOf x :=
  stampOf_trackObject ..

theorem stampOf_deleteObject (x : Hash) :
    (ot.deleteObject id).stampOf x = if x = id then none else ot.stampOf x := by
  by_cases hx : x = id
  · rw [if_pos hx, stampOf_eq_edge, getParent_deleteObject, if_pos hx]
    rfl
  · rw [if_neg hx, stampOf_eq_record, record_deleteObject_of_ne _ _ hx, stampOf_eq_record]

variable {x : Hash}

theorem stampOf_incrementMutableObjects (hx : x ∉ tx.mutableRefIDs) :
    (ot.incrementMutableObjects tx).stampOf x = ot.stampOf x := by
  rw [stampOf_eq_record, record_incrementMutableObjects ot hx, stampOf_eq_record]

theorem stampOf_incrementMutableObjects_of_count {s : Stamp} (h : ot.stampOf x = some s)
    (hcount : tx.mutableRefIDs.count x = 1) :
    (ot.incrementMutableObjects tx).stampOf x = some { s with version := s.version + 1 } := by
  have href : x ∈ tx.mutableRefIDs := List.count_pos_iff.1 (by rw [hcount]; decide)
  rw [stampOf_eq_edge] at h
  obtain ⟨edge, hedge, rfl⟩ := Option.map_eq_some_iff.1 h
  rw [stampOf_eq_edge, getParent_incrementMutableObjects, if_pos href, hedge,
    getVersion_incrementMutableObjects, hcount]
  rfl

end Tracker

namespace Ledger

variable {st : Ledger} {p : FeeParams} {nd : Node} {slot : Hash → Prop}

/-- The stored body's stamp. -/
def bodyStamp (st : Ledger) (id : Hash) : Option Stamp := (st.getObject id).map Object.stamp

/-- Body and entry agree, where both are there. -/
def InStepAt (st : Ledger) (id : Hash) : Prop :=
  ∀ s t, st.bodyStamp id = some s → st.tracker.stampOf id = some t → s = t

/-- Every stored and tracked body has the entry's version, parent and kind. -/
def Lockstep (st : Ledger) : Prop :=
  ∀ id o e, st.getObject id = some o → st.tracker.lookup id = some e →
    o.version = e.version ∧ o.owner = e.parent.val ∧ o.parentKind = e.parentKind

theorem lockstep_iff : st.Lockstep ↔ ∀ id, st.InStepAt id := by
  constructor
  · intro h id s t hs ht
    obtain ⟨o, ho, rfl⟩ := Option.map_eq_some_iff.1 hs
    obtain ⟨e, he, rfl⟩ := Option.map_eq_some_iff.1 ht
    obtain ⟨hversion, howner, hkind⟩ := h id o e ho he
    rw [Object.stamp, hversion, howner, hkind, TrackerEntry.stamp]
  · intro h id o e ho he
    have heq := h id o.stamp e.stamp (by rw [bodyStamp, ho]; rfl)
      (by rw [stampOf, he]; rfl)
    exact ⟨congrArg Stamp.version heq, congrArg Stamp.parent heq, congrArg Stamp.kind heq⟩

/-- No body under an object parent is stored there. -/
def KeyRooted (st : Ledger) (id : Hash) : Prop :=
  ∀ s, st.bodyStamp id = some s → s.kind = keyRootKind

theorem bodyStamp_setObject (st : Ledger) (o : Object) (x : Hash) :
    (st.setObject o).bodyStamp x = if x = o.objectID then some o.stamp else st.bodyStamp x := by
  rw [bodyStamp, getObject_setObject]
  split <;> rfl

theorem bodyStamp_deleteObject (st : Ledger) (id x : Hash) :
    (st.deleteObject id).bodyStamp x = if x = id then none else st.bodyStamp x := by
  rw [bodyStamp, getObject_deleteObject]
  split <;> rfl

theorem bodyStamp_congr {st' : Ledger} (h : st'.objects = st.objects) :
    st'.bodyStamp = st.bodyStamp := by
  funext x
  simp only [bodyStamp, getObject, h]

/-! ## Receding -/

/-- The second ledger has what the first has, less some bodies and entries, and new bodies
under keys where `slot` says. -/
structure Recedes (slot : Hash → Prop) (st st' : Ledger) : Prop where
  bodies : ∀ id, st'.bodyStamp id = st.bodyStamp id ∨ st'.bodyStamp id = none ∨
    slot id ∧ st'.KeyRooted id
  entries : ∀ id, st'.tracker.stampOf id = st.tracker.stampOf id ∨ st'.tracker.stampOf id = none

namespace Recedes

variable {id coin : Hash} {slot : Hash → Prop} {st st' st'' : Ledger}

theorem of_eq (hbodies : st'.bodyStamp = st.bodyStamp) (htracker : st'.tracker = st.tracker) :
    Recedes slot st st' :=
  ⟨fun id => .inl (congrFun hbodies id), fun id => .inl (by rw [htracker])⟩

theorem refl (st : Ledger) : Recedes slot st st := of_eq rfl rfl

section

variable (h : Recedes slot st st')

include h

theorem keyRooted (hid : st.KeyRooted id) : st'.KeyRooted id := by
  rcases h.bodies id with hsame | hnone | ⟨-, hroot⟩
  · intro s hs
    rw [hsame] at hs
    exact hid s hs
  · intro s hs
    rw [hnone] at hs
    cases hs
  · exact hroot

theorem trans (h' : Recedes slot st' st'') : Recedes slot st st'' where
  bodies id := by
    rcases h'.bodies id with hsame | hnone | hslot
    · rcases h.bodies id with hsame' | hnone' | ⟨hslot, hroot⟩
      · exact .inl (hsame.trans hsame')
      · exact .inr (.inl (hsame.trans hnone'))
      · refine .inr (.inr ⟨hslot, ?_⟩)
        intro s hs
        rw [hsame] at hs
        exact hroot s hs
    · exact .inr (.inl hnone)
    · exact .inr (.inr hslot)
  entries id := by
    rcases h'.entries id with hsame | hnone
    · rcases h.entries id with hsame' | hnone'
      · exact .inl (hsame.trans hsame')
      · exact .inr (hsame.trans hnone')
    · exact .inr hnone

theorem untracked (hid : st.tracker.stampOf id = none) : st'.tracker.stampOf id = none := by
  rcases h.entries id with hsame | hnone
  · rw [hsame, hid]
  · exact hnone

theorem inStepAt (hslot : slot id → st.tracker.stampOf id = none) (hid : st.InStepAt id) :
    st'.InStepAt id := by
  intro s t hs ht
  rcases h.entries id with hentry | hnone
  · rw [hentry] at ht
    rcases h.bodies id with hbody | hnone | ⟨hin, -⟩
    · rw [hbody] at hs
      exact hid s t hs ht
    · rw [hnone] at hs
      cases hs
    · rw [hslot hin] at ht
      cases ht
  · rw [hnone] at ht
    cases ht

end

theorem setBalance {o : Object} (ho : st.getObject coin = some o) (hroot : st.KeyRooted coin)
    (b : UInt64) : Recedes slot st (st.setObject (o.withBalance b)) := by
  refine of_eq ?_ rfl
  funext x
  have hid : o.objectID = coin := ObjectStore.objectID_of_get ho
  rw [bodyStamp_setObject, Object.objectID_withBalance, hid]
  by_cases hx : x = coin
  · subst hx
    have hkind : o.parentKind = keyRootKind := hroot o.stamp (by rw [bodyStamp, ho]; rfl)
    rw [if_pos rfl, bodyStamp, ho, Option.map_some, Object.stamp, Object.stamp, hkind]
    rfl
  · rw [if_neg hx]

variable {amount : UInt64}

theorem creditCoin (h : st.creditCoin coin amount = .ok st') (hroot : st.KeyRooted coin) :
    Recedes slot st st' := by
  rcases creditCoin_ok h with ⟨-, rfl⟩ | ⟨o, balance, ho, -, -, rfl⟩
  · exact refl st'
  · exact (setBalance ho hroot _).trans (of_eq (bodyStamp_congr (addCoins_objects ..)) rfl)

theorem strictDebit (h : st.strictDebit coin amount = some st') (hroot : st.KeyRooted coin) :
    Recedes slot st st' := by
  obtain ⟨o, balance, ho, -, -, -, rfl⟩ := strictDebit_some h
  exact (setBalance ho hroot _).trans (of_eq (bodyStamp_congr (subCoins_objects ..)) rfl)

theorem deleteObject (st : Ledger) (id : Hash) : Recedes slot st (st.deleteObject id) where
  bodies x := by
    rw [bodyStamp_deleteObject]
    by_cases hx : x = id
    · exact .inr (.inl (if_pos hx))
    · exact .inl (if_neg hx)
  entries x := .inl rfl

theorem setPosition {cr : Crypto} {delegator validator : Hash} (amount : UInt64)
    (hslot : slot (delegationID cr delegator validator)) :
    Recedes slot st (st.setObject (buildDelegationObject cr delegator validator amount)) where
  bodies x := by
    by_cases hx : x = delegationID cr delegator validator
    · refine .inr (.inr ⟨hx ▸ hslot, ?_⟩)
      intro s hs
      rw [bodyStamp_setObject, objectID_buildDelegationObject, if_pos hx] at hs
      rw [← Option.some.inj hs]
      rfl
    · rw [bodyStamp_setObject, objectID_buildDelegationObject, if_neg hx]
      exact .inl rfl
  entries x := .inl rfl

variable {gasCoinID : Option Hash} {atx : AttestedTransaction} {split : FeeSplit}
  {withheld : UInt64}

section

variable (hgas : ∀ coin, tx.txGasCoinID = some coin → st.KeyRooted coin)

include hgas

theorem of_sameBodies (h : SameBodies tx st st')
    (hentries : ∀ id, st'.tracker.stampOf id = st.tracker.stampOf id ∨
      st'.tracker.stampOf id = none) : Recedes slot st st' := by
  refine ⟨fun id => .inl ?_, hentries⟩
  rcases h id with hsame | ⟨hcoin, o, b, ho, hb⟩
  · rw [bodyStamp, bodyStamp, hsame]
  · have hkind : o.parentKind = keyRootKind := hgas id hcoin o.stamp (by rw [bodyStamp, ho]; rfl)
    rw [bodyStamp, bodyStamp, ho, hb, Option.map_some, Option.map_some, Object.stamp, Object.stamp,
      hkind]
    rfl

theorem settleDeletion {objID : Hash} :
    Recedes slot st (st.settleDeletion p objID tx.txGasCoinID).1 := by
  refine of_sameBodies hgas (.settleDeletion st p objID tx) fun id => ?_
  rw [(st.settleDeletion_frame p objID _).1, stampOf_deleteObject]
  by_cases hid : id = objID
  · exact .inr (if_pos hid)
  · exact .inl (if_neg hid)

theorem settleDeletions (ids : List Hash) : Recedes slot st (st.settleDeletions p tx ids) := by
  induction ids generalizing st with
  | nil => exact refl st
  | cons id ids ih =>
    have hone : Recedes slot st (st.settleDeletion p id tx.txGasCoinID).1 := settleDeletion hgas
    exact hone.trans (ih fun coin hcoin => hone.keyRooted (hgas coin hcoin))

theorem deductFees : Recedes slot st (st.deductFees nd tx atx).ledger :=
  of_sameBodies hgas (.deductFees st nd tx atx) fun _ => .inl (by rw [(deductFees_frame ..).1])

theorem applyDelete {op : DeclaredOp} : Recedes slot st (st.applyDelete p tx.txGasCoinID op) :=
  (settleDeletion hgas).trans (deleteObject _ _)

end

end Recedes

/-! ## The stages before the pod call -/

/-- The identifier a delegation of the transaction would be written under. -/
def PositionSlot (nd : Node) (tx : Transaction) (id : Hash) : Prop :=
  ∃ delegator coin validator amount,
    parseDelegateTx nd tx delegateFunc true = some (delegator, coin, validator, amount) ∧
      id = delegationID nd.crypto delegator validator

theorem Recedes.staked (hcoin : ∀ coin, tx.firstMutableRefID = some coin → st.KeyRooted coin) :
    Recedes (PositionSlot nd tx) st (st.staked nd tx) := by
  have hstart : Recedes (PositionSlot nd tx) st (st.handleDeregisterValidator nd tx) := by
    rw [handleDeregisterValidator_eq]
    exact of_eq rfl rfl
  refine hstart.trans
    (handleStake_rule (refl _) ?_ ?_ ?_ (fun s id h => h.trans (deleteObject s id))
    fun _ _ _ _ h => h.trans (of_eq rfl rfl))
  · exact fun coin _ _ href hd => strictDebit hd (hstart.keyRooted (hcoin coin href))
  · exact fun coin _ _ href hc => creditCoin hc (hstart.keyRooted (hcoin coin href))
  · intro delegator coin validator amount s hparse _ h
    exact h.trans (setPosition amount ⟨delegator, coin, validator, amount, hparse, rfl⟩)

theorem Recedes.settled (split : FeeSplit)
    (hgas : ∀ coin, tx.txGasCoinID = some coin → st.KeyRooted coin)
    (hcoin : ∀ coin, tx.firstMutableRefID = some coin → st.KeyRooted coin) :
    Recedes (PositionSlot nd tx) st (st.settled nd tx atx split) := by
  rcases settled_cases st nd tx atx split with ⟨heq, -⟩ | ⟨-, st₁, hreg, hrest⟩
  · rw [heq]
    exact refl st
  · have hregistered : Recedes (PositionSlot nd tx) st st₁ :=
      of_eq (bodyStamp_congr (handleRegisterValidator_ok hreg).1)
        (handleRegisterValidator_ok hreg).2.1
    have hstaked := hregistered.trans (staked fun coin h => hregistered.keyRooted (hcoin coin h))
    rcases hrest with heq | heq
    · rw [heq]
      exact hstaked
    · rw [heq]
      exact hstaked.trans (settleDeletions (fun coin h => hstaked.keyRooted (hgas coin h)) _)

/-! ## The pod call -/

/-- The entry is ahead of the body by the version the check has raised. -/
def Behind (st : Ledger) (version : UInt64) (id : Hash) : Prop :=
  ∀ s t, st.bodyStamp id = some s → st.tracker.stampOf id = some t →
    s.kind = keyRootKind ∧ t = { s with version := version + 1 }

section Pod

variable {st st' : Ledger} {nd : Node} {tx : Transaction} {version : UInt64} {id : Hash}

theorem Recedes.behind (h : Recedes slot st st') (hid : ¬ slot id)
    (hbehind : st.Behind version id) : st'.Behind version id := by
  intro s t hs ht
  rcases h.entries id with hentry | hnone
  · rcases h.bodies id with hbody | hnone | ⟨hslot, -⟩
    · exact hbehind s t (hbody ▸ hs) (hentry ▸ ht)
    · rw [hnone] at hs
      cases hs
    · exact absurd hslot hid
  · rw [hnone] at ht
    cases ht

theorem bodyStamp_applyUpdatedObjects (st : Ledger) (out : PodOutput) (id : Hash) :
    (st.applyUpdatedObjects out).bodyStamp id =
      ((out.lastUpdate id).map (·.written.stamp)).or (st.bodyStamp id) := by
  rw [bodyStamp, getObject_applyUpdatedObjects, bodyStamp]
  cases out.lastUpdate id <;> rfl

section

variable (st nd tx) (created : Object × Nat) (id)

theorem stampOf_applyCreatedObject :
    (applyCreatedObject nd tx st created).tracker.stampOf id =
      if id = computeObjectID nd.crypto (hashOrZero tx.hash) created.2 then
        some ⟨created.1.version, created.1.objectOwner.val, created.1.parentKind⟩
      else st.tracker.stampOf id := by
  rw [← stampOf_trackObject st.tracker _ _ _ _ created.1.replication
    (st.stampedDeposit nd tx created.1)]
  unfold applyCreatedObject
  dsimp only
  split <;> rfl

theorem bodyStamp_applyCreatedObject :
    let objID := computeObjectID nd.crypto (hashOrZero tx.hash) created.2
    (applyCreatedObject nd tx st created).bodyStamp id =
      if id = objID ∧ nd.isHolder objID created.1.replication = true then
        some ⟨created.1.version, created.1.owner, keyRootKind⟩
      else st.bodyStamp id := by
  intro objID
  unfold applyCreatedObject
  dsimp only
  split
  · rename_i hholder
    rw [bodyStamp_setObject, show Object.objectID { created.1.rebuilt with
      id := objID.val, fees := st.stampedDeposit nd tx created.1 } = objID from hashOrZero_val _]
    simp only [objID, hholder, and_true]
    rfl
  · rename_i hother
    rw [if_neg fun h => hother h.2]
    rfl

end

variable {created : Object × Nat}

theorem stamps_applyCreatedObject_of_ne
    (hid : id ≠ computeObjectID nd.crypto (hashOrZero tx.hash) created.2) :
    (applyCreatedObject nd tx st created).bodyStamp id = st.bodyStamp id ∧
      (applyCreatedObject nd tx st created).tracker.stampOf id = st.tracker.stampOf id := by
  rw [bodyStamp_applyCreatedObject, stampOf_applyCreatedObject, if_neg fun h => hid h.1, if_neg hid]
  exact ⟨rfl, rfl⟩

theorem stamps_applyCreatedObjects_of_ne {created : List (Object × Nat)}
    (hid : ∀ c ∈ created, id ≠ computeObjectID nd.crypto (hashOrZero tx.hash) c.2) :
    (created.foldl (applyCreatedObject nd tx) st).bodyStamp id = st.bodyStamp id ∧
      (created.foldl (applyCreatedObject nd tx) st).tracker.stampOf id = st.tracker.stampOf id := by
  induction created generalizing st with
  | nil => exact ⟨rfl, rfl⟩
  | cons c created ih =>
    rw [List.forall_mem_cons] at hid
    obtain ⟨hbody, hentry⟩ := @ih (applyCreatedObject nd tx st c) hid.2
    obtain ⟨hbody', hentry'⟩ := @stamps_applyCreatedObject_of_ne st nd tx id c hid.1
    exact ⟨hbody.trans hbody', hentry.trans hentry'⟩

/-- A created object under a key, stored or not, is in step where no body was. -/
theorem inStepAt_applyCreatedObject (hkind : created.1.parentKind = keyRootKind)
    (howner : created.1.owner.length = 32)
    (hfree : st.bodyStamp (computeObjectID nd.crypto (hashOrZero tx.hash) created.2) = none) :
    (applyCreatedObject nd tx st created).InStepAt
      (computeObjectID nd.crypto (hashOrZero tx.hash) created.2) := by
  have hval : created.1.objectOwner.val = created.1.owner := by
    rw [Object.objectOwner, hashOrZero, hash32, dif_pos howner]
    rfl
  intro s t hs ht
  rw [stampOf_applyCreatedObject, if_pos rfl, hval, hkind] at ht
  rw [bodyStamp_applyCreatedObject] at hs
  split at hs
  · rw [← Option.some.inj hs, ← Option.some.inj ht]
  · exact absurd (hfree.symm.trans hs) (by simp)

theorem inStepAt_applyCreatedObjects {created : List (Object × Nat)}
    (hroots : ∀ c ∈ created, c.1.parentKind = keyRootKind ∧ c.1.owner.length = 32)
    (hnodup : (created.map fun c => computeObjectID nd.crypto (hashOrZero tx.hash) c.2).Nodup)
    (hfree : ∀ c ∈ created,
      st.bodyStamp (computeObjectID nd.crypto (hashOrZero tx.hash) c.2) = none)
    (hid : st.InStepAt id) : (created.foldl (applyCreatedObject nd tx) st).InStepAt id := by
  induction created generalizing st with
  | nil => exact hid
  | cons c created ih =>
    rw [List.forall_mem_cons] at hroots hfree
    rw [List.map_cons, List.nodup_cons] at hnodup
    refine ih hroots.2 hnodup.2 ?_ ?_
    · intro c' hc'
      rw [(stamps_applyCreatedObject_of_ne _).1]
      · exact hfree.2 c' hc'
      · intro heq
        exact hnodup.1 (heq ▸ List.mem_map_of_mem hc')
    · by_cases hc : id = computeObjectID nd.crypto (hashOrZero tx.hash) c.2
      · rw [hc]
        exact inStepAt_applyCreatedObject hroots.1.1 hroots.1.2 hfree.1
      · obtain ⟨hbody, hentry⟩ := @stamps_applyCreatedObject_of_ne st nd tx id c hc
        intro s t hs ht
        exact hid s t (hbody ▸ hs) (hentry ▸ ht)

theorem Recedes.applyDeletedObjects (st : Ledger) (tx : Transaction) :
    Recedes slot st (st.applyDeletedObjects tx) := by
  refine ⟨fun id => ?_, fun id => .inl (by rw [applyDeletedObjects_tracker])⟩
  rw [bodyStamp, getObject_applyDeletedObjects, bodyStamp]
  cases st.getObject id with
  | none => exact .inl rfl
  | some o =>
    rw [Option.filter]
    split
    · exact .inl rfl
    · exact .inr (.inl rfl)

/-- The references of a transaction to one object agree on its version. -/
theorem bodyStamp_ensureMutableVersions
    (hrefs : ∀ r ∈ tx.mutableRefs, r.refID = some id → r.version = version)
    (hroot : st.KeyRooted id) :
    (st.ensureMutableVersions tx).bodyStamp id =
      if id ∈ tx.mutableRefIDs then (st.bodyStamp id).map fun s => { s with version := version + 1 }
      else st.bodyStamp id := by
  unfold bodyStamp
  rw [getObject_ensureMutableVersions _ hrefs]
  split
  · cases ho : st.getObject id with
    | none => rfl
    | some o =>
      have hkind : o.parentKind = keyRootKind := hroot o.stamp (by rw [bodyStamp, ho]; rfl)
      simp only [Option.map_some, Object.raisedTo, Object.stamp]
      split
      · simp [*]
      · simp [Object.rebuilt, hkind]
  · rfl

end Pod

/-! ## One transaction -/

/-- What a pod's output has to be for the bodies it writes to stay in step: updates go to
objects that are not tracked, or to objects referenced once that hang from a key, and that
key owns the input if it is a copy of the wrapper's; created objects hang from keys as well,
under identifiers of their own. -/
structure OutputInStep (st st₁ : Ledger) (nd : Node) (atx : AttestedTransaction)
    (tx : Transaction) (out : PodOutput) : Prop where
  updated : ∀ o ∈ out.updatedObjects,
    (st.tracker.lookup o.objectID = none ∧ o.objectID ∉ tx.mutableRefIDs) ∨
      tx.mutableRefIDs.count o.objectID = 1 ∧ ∃ e, st.tracker.lookup o.objectID = some e ∧
        e.parentKind = keyRootKind ∧ ∀ input ∈ atx.objects,
          inputByID (st₁.podObjects tx atx) o.objectID = some input → input.owner = e.parent.val
  created : ∀ o ∈ out.createdObjects, o.parentKind = keyRootKind ∧ o.owner.length = 32
  fresh : ∀ i < out.createdObjects.length,
    let id := computeObjectID nd.crypto (hashOrZero tx.hash) i
    st₁.getObject id = none ∧ id ∉ tx.mutableRefIDs ∧ ∀ o ∈ out.updatedObjects, o.objectID ≠ id
  distinct : ((List.range out.createdObjects.length).map
    (computeObjectID nd.crypto (hashOrZero tx.hash))).Nodup

/-- A call passes every check: its fee clears, its owners and deletions are right, it is run
here, and the pod answers with nothing or with an output that is valid. -/
structure Passes (st : Ledger) (nd : Node) (atx : AttestedTransaction) (tx : Transaction) :
    Prop where
  pays : st.FeeClears nd tx atx ∨ FeeExempt nd tx
  clears : st.Clears nd atx tx
  runs : tx.createdObjectsReplication ≠ [] ∨ shouldExecute nd atx tx = true
  output : let fees := st.feeStage nd tx atx
    let st₁ := fees.ledger.settled nd tx atx fees.split
    nd.pods (hashOrZero tx.pod) (st₁.podInput tx atx) = .ok none ∨
      ∃ out, nd.pods (hashOrZero tx.pod) (st₁.podInput tx atx) = .ok (some out) ∧
        out.error = 0 ∧ st₁.validateOutput nd out tx (st₁.podObjects tx atx) = .ok ()

/-- What a pod call needs for the bodies to stay in step. Every stored body it references
mutably is referenced once and tracked under a key, and if there is one the call passes its
checks; the position a delegation writes is not tracked; and so for the output. -/
structure CallInStep (st : Ledger) (nd : Node) (atx : AttestedTransaction) (commitRound : Nat)
    (verdict : Option ProofError) (tx : Transaction) : Prop where
  refs : ∀ id ∈ tx.mutableRefIDs, st.getObject id ≠ none → tx.mutableRefIDs.count id = 1 ∧
    ∃ e, st.tracker.lookup id = some e ∧ e.parentKind = keyRootKind
  runs : (∃ id ∈ tx.mutableRefIDs, st.getObject id ≠ none) → st.Passes nd atx tx
  slot : ∀ id, PositionSlot nd tx id → st.tracker.lookup id = none ∧ id ∉ tx.mutableRefIDs
  output : ∀ st₁ split withheld out st₂,
    st.prepareTx nd atx commitRound verdict = .ok (tx, st₁, split, withheld) →
      nd.pods (hashOrZero tx.pod) (st₁.podInput tx atx) = .ok (some out) →
        st₁.execute nd tx atx = .ok st₂ → st.OutputInStep st₁ nd atx tx out

section Call

variable {out : PodOutput} {st st₁ st' : Ledger} {nd : Node} {atx : AttestedTransaction}
  {commitRound : Nat} {verdict : Option ProofError} {tx : Transaction} {id : Hash}

theorem proceed_of_pays (h : st.FeeClears nd tx atx ∨ FeeExempt nd tx) :
    (st.feeStage nd tx atx).proceed = true :=
  proceed_iff.2 (h.imp_left feeClears_admitted.2)

namespace Passes

variable (h : st.Passes nd atx tx)

include h

theorem settles : ∃ st₁, (st.feeStage nd tx atx).ledger.settleTx nd tx atx
    (st.feeStage nd tx atx).split = .ok st₁ :=
  settleTx_of_clears ((clears_feeStage st nd tx atx).2 h.clears) h.runs _

theorem executes (hsettle : (st.feeStage nd tx atx).ledger.settleTx nd tx atx
    (st.feeStage nd tx atx).split = .ok st₁) : ∃ st₂, st₁.execute nd tx atx = .ok st₂ := by
  have hout := h.output
  dsimp only [Ledger.settled] at hout
  rw [hsettle] at hout
  unfold Ledger.execute processOutput
  rcases hout with hpod | ⟨out, hpod, herror, hvalid⟩
  · rw [hpod]
    exact ⟨_, rfl⟩
  · rw [hpod]
    dsimp only
    rw [if_neg (not_not.2 herror), hvalid]
    exact ⟨_, rfl⟩

end Passes

theorem bodyStamp_admitted (st : Ledger) (tx : Transaction) :
    (st.admitted tx).bodyStamp = st.bodyStamp := bodyStamp_congr (admitted_objects st tx)

theorem stampOf_eq_none : st.tracker.stampOf id = none ↔ st.tracker.lookup id = none :=
  Option.map_eq_none_iff

/-- What is not referenced is as before the version check. -/
theorem inStepAt_admitted (h : st.InStepAt id) (hid : id ∉ tx.mutableRefIDs) :
    (st.admitted tx).InStepAt id := by
  intro s t hs ht
  rw [bodyStamp_admitted] at hs
  rw [admitted_tracker, stampOf_incrementMutableObjects _ hid] at ht
  exact h s t hs ht

/-- What is referenced once is behind by one version. -/
theorem behind_admitted (h : st.InStepAt id) (hid : id ∈ tx.mutableRefIDs)
    (hcall : st.CallInStep nd atx commitRound verdict tx) :
    (st.admitted tx).Behind (st.tracker.getVersion id) id := by
  intro s t hs ht
  rw [bodyStamp_admitted] at hs
  have hstored : st.getObject id ≠ none := by
    intro hnone
    rw [bodyStamp, hnone] at hs
    cases hs
  obtain ⟨hcount, e, he, hkind⟩ := hcall.refs id hid hstored
  have hentry : st.tracker.stampOf id = some e.stamp := by rw [stampOf, he]; rfl
  have hversion : st.tracker.getVersion id = e.version := by
    rw [getVersion, entry, he]
    rfl
  obtain rfl := h s e.stamp hs hentry
  rw [admitted_tracker, stampOf_incrementMutableObjects_of_count _ hentry hcount] at ht
  exact ⟨hkind, by rw [← Option.some.inj ht, hversion]; rfl⟩

/-- What a transaction does not reference, or has no body, is in step wherever it stops
before the pod call. -/
theorem Recedes.inStepAt_of_unstored (hrec : Recedes slot (st.admitted tx) st')
    (hstep : st.InStepAt id)
    (hslot : ∀ id, slot id → st.tracker.lookup id = none ∧ id ∉ tx.mutableRefIDs)
    (hunstored : id ∈ tx.mutableRefIDs → st.getObject id = none) : st'.InStepAt id := by
  by_cases hid : id ∈ tx.mutableRefIDs
  · intro s t hs
    have hbefore : (st.admitted tx).bodyStamp id = none := by
      rw [bodyStamp_admitted, bodyStamp, hunstored hid]
      rfl
    rcases hrec.bodies id with hsame | hnone | ⟨hin, -⟩
    · rw [hsame, hbefore] at hs
      cases hs
    · rw [hnone] at hs
      cases hs
    · exact absurd hid (hslot id hin).2
  · refine hrec.inStepAt (fun hin => ?_) (inStepAt_admitted hstep hid)
    rw [admitted_tracker, stampOf_incrementMutableObjects _ hid, stampOf_eq_none]
    exact (hslot id hin).1

theorem Recedes.lockstep (hrec : Recedes slot (st.admitted tx) st') (hstep : st.Lockstep)
    (hslot : ∀ id, slot id → st.tracker.lookup id = none ∧ id ∉ tx.mutableRefIDs)
    (hunstored : ∀ id ∈ tx.mutableRefIDs, st.getObject id = none) : st'.Lockstep :=
  lockstep_iff.2 fun id =>
    hrec.inStepAt_of_unstored (lockstep_iff.1 hstep id) hslot (hunstored id)

/-- The call brings the referenced bodies along. -/
theorem inStepAt_ensureMutableVersions {st₂ : Ledger}
    (hversions : st.tracker.checkVersions tx = true)
    (hother : id ∉ tx.mutableRefIDs → st₂.InStepAt id)
    (href : id ∈ tx.mutableRefIDs → st₂.Behind (st.tracker.getVersion id) id) :
    (st₂.ensureMutableVersions tx).InStepAt id := by
  intro s t hs ht
  rw [ensureMutableVersions_tracker] at ht
  have hrefs : ∀ r ∈ tx.mutableRefs, r.refID = some id → r.version = st.tracker.getVersion id :=
    fun r hr hid => (getVersion_of_checkVersions hversions hr hid).symm
  by_cases hid : id ∈ tx.mutableRefIDs
  · have hroot : st₂.KeyRooted id := fun s' hs' => (href hid s' t hs' ht).1
    rw [bodyStamp_ensureMutableVersions hrefs hroot, if_pos hid] at hs
    obtain ⟨s₀, hbody, rfl⟩ := Option.map_eq_some_iff.1 hs
    exact (href hid s₀ t hbody ht).2.symm
  · rw [bodyStamp, getObject_ensureMutableVersions _ hrefs, if_neg hid] at hs
    exact hother hid s t hs ht

theorem lastUpdate_some {u : Object} (h : out.lastUpdate id = some u) :
    u ∈ out.updatedObjects ∧ u.objectID = id :=
  ⟨List.mem_reverse.1 (List.mem_of_find?_eq_some h), by simpa using List.find?_some h⟩

section

variable (hout : st.OutputInStep st₁ nd atx tx out)
  (hvalid : st₁.validateOutput nd out tx (st₁.podObjects tx atx) = .ok ())
  (hrec : Recedes (PositionSlot nd tx) (st.admitted tx) st₁)
  (hother : id ∉ tx.mutableRefIDs → st₁.InStepAt id)
  (href : id ∈ tx.mutableRefIDs → st₁.Behind (st.tracker.getVersion id) id)

include hout hvalid hrec hother href

theorem OutputInStep.updates :
    (id ∉ tx.mutableRefIDs → (st₁.applyUpdatedObjects out).InStepAt id) ∧
      (id ∈ tx.mutableRefIDs →
        (st₁.applyUpdatedObjects out).Behind (st.tracker.getVersion id) id) := by
  have htracker : (st₁.applyUpdatedObjects out).tracker = st₁.tracker :=
    (applyUpdatedObjects_frame st₁ out).1
  unfold InStepAt Behind
  rw [htracker, bodyStamp_applyUpdatedObjects]
  cases hlast : out.lastUpdate id with
  | none => exact ⟨hother, href⟩
  | some u =>
    obtain ⟨hu, rfl⟩ := lastUpdate_some hlast
    rcases hout.updated u hu with ⟨huntracked, hnot⟩ | ⟨hcount, e, he, hkind, hattested⟩
    · refine ⟨fun _ s t _ ht => ?_, fun hid => absurd hid hnot⟩
      have hnone : (st.admitted tx).tracker.stampOf u.objectID = none := by
        rw [admitted_tracker, stampOf_incrementMutableObjects _ hnot, stampOf_eq_none]
        exact huntracked
      rw [hrec.untracked hnone] at ht
      cases ht
    · have hid : u.objectID ∈ tx.mutableRefIDs := List.count_pos_iff.1 (by omega)
      refine ⟨fun hnot => absurd hid hnot, fun _ s t hs ht => ?_⟩
      obtain rfl := Option.some.inj hs
      have hentry : st.tracker.stampOf u.objectID = some e.stamp := by
        rw [stampOf, he]
        rfl
      have hversion : st.tracker.getVersion u.objectID = e.version := by
        rw [getVersion, entry, he]
        rfl
      have hraised := stampOf_incrementMutableObjects_of_count _ hentry hcount
      rcases hrec.entries u.objectID with hsame | hnone
      · -- the update has the owner of its input, and a stored input is behind its entry
        obtain ⟨input, hmem, hinput, hoid, hkept⟩ :=
          input_of_immutable (validateOutput_ok hvalid).2 hu
        rw [hsame, admitted_tracker, hraised] at ht
        have howner : e.parent.val = u.owner := by
          rw [hkept]
          rcases podObjects_cases hmem with hatx | ⟨hget, -⟩
          · exact (hattested input hatx hinput).symm
          · rw [hoid] at hget
            have hbehind := (href hid input.stamp _ (by rw [bodyStamp, hget]; rfl)
              (by rw [hsame, admitted_tracker, hraised])).2
            exact congrArg Stamp.parent hbehind
        refine ⟨rfl, ?_⟩
        rw [← Option.some.inj ht, hversion, TrackerEntry.stamp, hkind, howner]
        rfl
      · rw [hnone] at ht
        cases ht

theorem OutputInStep.applied :
    let st₂ := ((st₁.applyUpdatedObjects out).applyCreatedObjects nd out tx).applyDeletedObjects tx
    (id ∉ tx.mutableRefIDs → st₂.InStepAt id) ∧
      (id ∈ tx.mutableRefIDs → st₂.Behind (st.tracker.getVersion id) id) := by
  have hcreated : ∀ c ∈ out.createdObjects.zipIdx, c.1 ∈ out.createdObjects ∧
      c.2 < out.createdObjects.length := by
    intro c hc
    obtain ⟨-, hlt, heq⟩ := List.mem_zipIdx hc
    exact ⟨heq ▸ List.getElem_mem _, by omega⟩
  have hdeleted := @Recedes.applyDeletedObjects (fun _ => False)
    ((st₁.applyUpdatedObjects out).applyCreatedObjects nd out tx) tx
  obtain ⟨hother', href'⟩ := hout.updates hvalid hrec hother href
  constructor
  · intro hid
    refine hdeleted.inStepAt (fun h => h.elim) ?_
    refine inStepAt_applyCreatedObjects (fun c hc => hout.created c.1 (hcreated c hc).1) ?_ ?_
      (hother' hid)
    · have hdistinct := hout.distinct
      rw [List.range_eq_range', ← List.zipIdx_map_snd, List.map_map] at hdistinct
      exact hdistinct
    · -- no body was stored there, and no update stores one
      intro c hc
      obtain ⟨hfree, -, hupdated⟩ := hout.fresh c.2 (hcreated c hc).2
      rw [bodyStamp_applyUpdatedObjects]
      cases hlast : out.lastUpdate (computeObjectID nd.crypto (hashOrZero tx.hash) c.2) with
      | none =>
        rw [bodyStamp, hfree]
        rfl
      | some u => exact absurd (lastUpdate_some hlast).2 (hupdated u (lastUpdate_some hlast).1)
  · intro hid
    refine hdeleted.behind not_false ?_
    have hne : ∀ c ∈ out.createdObjects.zipIdx,
        id ≠ computeObjectID nd.crypto (hashOrZero tx.hash) c.2 := by
      rintro c hc rfl
      exact (hout.fresh c.2 (hcreated c hc).2).2.1 hid
    obtain ⟨hbody, hentry⟩ :=
      @stamps_applyCreatedObjects_of_ne (st₁.applyUpdatedObjects out) nd tx id _ hne
    intro s t hs ht
    exact href' hid s t (hbody.symm.trans hs) (hentry.symm.trans ht)

end

/-- A call that goes through leaves everything in step. -/
theorem CallInStep.execute (hcall : st.CallInStep nd atx commitRound verdict tx)
    (hversions : st.tracker.checkVersions tx = true) (hstep : st.Lockstep)
    (hprepared : st.prepareTx nd atx commitRound verdict = .ok (tx, st₁, split, withheld))
    (hrec : Recedes (PositionSlot nd tx) (st.admitted tx) st₁)
    (hexecute : st₁.execute nd tx atx = .ok st') : st'.Lockstep := by
  rw [lockstep_iff] at hstep ⊢
  intro id
  have hother : id ∉ tx.mutableRefIDs → st₁.InStepAt id := fun hid =>
    hrec.inStepAt_of_unstored (hstep id) hcall.slot fun href => absurd href hid
  have href : id ∈ tx.mutableRefIDs → st₁.Behind (st.tracker.getVersion id) id := by
    intro hid
    exact hrec.behind (fun hslot => (hcall.slot id hslot).2 hid)
      (behind_admitted (hstep id) hid hcall)
  cases hpod : nd.pods (hashOrZero tx.pod) (st₁.podInput tx atx) with
  | error e =>
    rw [Ledger.execute, hpod] at hexecute
    cases hexecute
  | ok out =>
    cases out with
    | none =>
      rw [Ledger.execute, hpod] at hexecute
      rw [← Except.ok.inj hexecute]
      exact inStepAt_ensureMutableVersions hversions hother href
    | some out =>
      have hout := hcall.output st₁ split withheld out st' hprepared hpod hexecute
      obtain ⟨hvalid, hst'⟩ := execute_ok hexecute hpod
      rw [hst']
      obtain ⟨hother', href'⟩ := hout.applied hvalid hrec hother href
      exact inStepAt_ensureMutableVersions hversions hother' href'

end Call

/-! ## Operations -/

/-- The operation writes the object's body and entry, or drops both. -/
def Rewrites (op : DeclaredOp) (id : Hash) : Prop :=
  (op.kind = reparentOp ∨ op.kind = deleteOp) ∧ toHash op.objectID = id

/-- What declared operations need for the bodies to stay in step: if a stored body is
referenced mutably the fee clears and the operations are valid, and each such body is moved
or deleted; the gas coin stays under a key. -/
structure OpsInStep (st : Ledger) (nd : Node) (atx : AttestedTransaction) (commitRound : Nat)
    (tx : Transaction) : Prop where
  runs : (∃ id ∈ tx.mutableRefIDs, st.getObject id ≠ none) →
    (st.FeeClears nd tx atx ∨ FeeExempt nd tx) ∧ (st.admitted tx).stagedOps nd.feeParams tx
      (UInt64.ofNat (nd.epochs.commitEpochForRound commitRound)) ≠ none
  moved : ∀ id ∈ tx.mutableRefIDs, st.getObject id ≠ none → ∃ op ∈ tx.operations, Rewrites op id
  gas : ∀ op ∈ tx.operations, op.kind = reparentOp →
    tx.txGasCoinID = some (toHash op.objectID) → op.targetKind = keyRootKind

section Ops

variable {st : Ledger} {op : DeclaredOp} {id : Hash}

theorem stampOf_applyReparent (st : Ledger) (op : DeclaredOp) (id : Hash) :
    (st.applyReparent op).tracker.stampOf id =
      if id = toHash op.objectID then
        some ⟨st.tracker.getVersion id, (toHash op.target).val, op.targetKind⟩
      else st.tracker.stampOf id := by
  rw [applyReparent_tracker, stampOf_setParent]
  by_cases hid : id = toHash op.objectID
  · rw [if_pos hid, if_pos hid, hid]
  · rw [if_neg hid, if_neg hid]

theorem bodyStamp_applyReparent (st : Ledger) (op : DeclaredOp) (id : Hash) :
    (st.applyReparent op).bodyStamp id =
      if id = toHash op.objectID then
        (st.bodyStamp id).map fun _ =>
          ⟨st.tracker.getVersion id, (toHash op.target).val, op.targetKind⟩
      else st.bodyStamp id := by
  unfold applyReparent
  dsimp only
  split
  · rename_i hnone
    by_cases hid : id = toHash op.objectID
    · have hbody : st.bodyStamp id = none := by
        rw [bodyStamp, hid, show st.getObject (toHash op.objectID) = none from hnone]
        rfl
      rw [if_pos hid, hbody, Option.map_none]
      exact hbody
    · rw [if_neg hid]
      rfl
  · rename_i o ho
    have hoid : o.objectID = toHash op.objectID := ObjectStore.objectID_of_get ho
    rw [bodyStamp_setObject, Object.objectID_withOwner, hoid]
    by_cases hid : id = toHash op.objectID
    · have hbody : st.bodyStamp id = some o.stamp := by
        rw [bodyStamp, hid, show st.getObject (toHash op.objectID) = some o from ho]
        rfl
      rw [if_pos hid, if_pos hid, hbody, hid]
      rfl
    · rw [if_neg hid, if_neg hid]
      rfl

theorem applyReparent_inStepAt (h : st.InStepAt id ∨ toHash op.objectID = id) :
    (st.applyReparent op).InStepAt id := by
  intro s t hs ht
  rw [bodyStamp_applyReparent] at hs
  rw [stampOf_applyReparent] at ht
  by_cases hid : id = toHash op.objectID
  · rw [if_pos hid] at hs ht
    obtain ⟨-, -, rfl⟩ := Option.map_eq_some_iff.1 hs
    exact Option.some.inj ht
  · rw [if_neg hid] at hs ht
    exact h.resolve_right (Ne.symm hid) s t hs ht

variable {sender : Hash} {epoch : UInt64}

/-- One operation keeps what is in step, brings what it moves in step, and leaves the gas
coin under a key. -/
theorem applyDeclaredOp_inStep (hgas : ∀ coin, tx.txGasCoinID = some coin → st.KeyRooted coin)
    (hstays : op.kind = reparentOp → tx.txGasCoinID = some (toHash op.objectID) → op.targetKind =
      keyRootKind) :
    (∀ id, st.InStepAt id ∨ Rewrites op id →
        (applyDeclaredOp p tx sender epoch st op).InStepAt id) ∧
      ∀ coin, tx.txGasCoinID = some coin →
        (applyDeclaredOp p tx sender epoch st op).KeyRooted coin := by
  unfold applyDeclaredOp
  split
  · rename_i hkind
    refine ⟨fun id h => applyReparent_inStepAt (h.imp_right And.right), fun coin hcoin s hs => ?_⟩
    rw [bodyStamp_applyReparent] at hs
    split at hs
    · rename_i hid
      obtain ⟨-, -, rfl⟩ := Option.map_eq_some_iff.1 hs
      exact hstays hkind (hid ▸ hcoin)
    · exact hgas coin hcoin s hs
  · rename_i hkind
    split
    · have hrec : Recedes (fun _ => False) st (st.applyDelete p tx.txGasCoinID op) :=
        Recedes.applyDelete hgas
      refine ⟨fun id h => ?_, fun coin hcoin => hrec.keyRooted (hgas coin hcoin)⟩
      rcases h with h | ⟨-, rfl⟩
      · exact hrec.inStepAt (fun hin => hin.elim) h
      · intro s t hs
        rw [applyDelete, bodyStamp_deleteObject, if_pos rfl] at hs
        cases hs
    · rename_i hdelete
      rw [applyDomainOp_eq]
      refine ⟨fun id h => ?_, hgas⟩
      exact h.resolve_right fun hwrites => hwrites.1.elim hkind hdelete

theorem applyDeclaredOps_inStep {ops : List DeclaredOp}
    (hwait : ∀ id, st.InStepAt id ∨ ∃ op ∈ ops, Rewrites op id)
    (hgas : ∀ coin, tx.txGasCoinID = some coin → st.KeyRooted coin)
    (hstays : ∀ op ∈ ops, op.kind = reparentOp → tx.txGasCoinID = some (toHash op.objectID) →
      op.targetKind = keyRootKind) :
    (ops.foldl (applyDeclaredOp p tx sender epoch) st).Lockstep := by
  induction ops generalizing st with
  | nil =>
    rw [lockstep_iff]
    intro id
    exact (hwait id).resolve_right fun ⟨_, hop, _⟩ => absurd hop List.not_mem_nil
  | cons op ops ih =>
    rw [List.forall_mem_cons] at hstays
    obtain ⟨hstep, hgas'⟩ := @applyDeclaredOp_inStep tx p st op sender epoch hgas hstays.1
    refine ih (fun id => ?_) hgas' hstays.2
    rcases hwait id with h | ⟨op', hop', hwrites⟩
    · exact .inl (hstep id (.inl h))
    · rcases List.mem_cons.1 hop' with rfl | hop'
      · exact .inl (hstep id (.inr hwrites))
      · exact .inr ⟨op', hop', hwrites⟩

end Ops

/-! ## The whole transaction -/

/-- What an admitted transaction needs for the bodies to stay in step. -/
structure KeepsPace (st : Ledger) (nd : Node) (atx : AttestedTransaction) (commitRound : Nat)
    (verdict : Option ProofError) (tx : Transaction) : Prop where
  gas : ∀ coin o, tx.txGasCoinID = some coin → st.getObject coin = some o →
    o.parentKind = keyRootKind
  declared : tx.operations ≠ [] → st.OpsInStep nd atx commitRound tx
  called : tx.operations = [] → st.CallInStep nd atx commitRound verdict tx

section Transactions

variable {st : Ledger} {nd : Node} {atx : AttestedTransaction} {commitRound : Nat}
  {verdict : Option ProofError} {tx : Transaction}

namespace KeepsPace

variable (h : st.KeepsPace nd atx commitRound verdict tx)

include h

theorem keyRooted : ∀ coin, tx.txGasCoinID = some coin → (st.admitted tx).KeyRooted coin := by
  intro coin hcoin s hs
  rw [bodyStamp_admitted] at hs
  obtain ⟨o, ho, rfl⟩ := Option.map_eq_some_iff.1 hs
  exact h.gas coin o hcoin ho

theorem charged (slot : Hash → Prop) :
    Recedes slot (st.admitted tx) (st.feeStage nd tx atx).ledger :=
  Recedes.deductFees h.keyRooted

theorem feeRejected (hstep : st.Lockstep) (hproceed : (st.feeStage nd tx atx).proceed = false) :
    (st.feeStage nd tx atx).ledger.Lockstep := by
  refine (h.charged fun _ => False).lockstep hstep (fun id hin => hin.elim) fun id hid => ?_
  by_contra hstored
  have hpays : st.FeeClears nd tx atx ∨ FeeExempt nd tx := by
    by_cases hops : tx.operations = []
    · exact ((h.called hops).runs ⟨id, hid, hstored⟩).pays
    · exact ((h.declared hops).runs ⟨id, hid, hstored⟩).1
  rw [proceed_of_pays hpays] at hproceed
  cases hproceed

theorem ops (hstep : st.Lockstep) (hadmits : st.Admits nd atx commitRound verdict tx)
    (hops : tx.operations ≠ []) :
    ((st.feeStage nd tx atx).ledger.commitDeclaredOps nd tx commitRound split
      withheld).ledger.Lockstep := by
  have hcharged := h.charged fun _ => False
  have hguard : ¬ (tx.txHasPodCall || decide (tx.createdObjectsReplication.length ≠ 0)) = true := by
    have hshape := hadmits.shape
    have hcall := hadmits.not_txHasPodCall hops
    rw [validateShape, if_neg (mt List.length_eq_zero_iff.1 hops), if_neg hcall] at hshape
    split at hshape
    · cases hshape
    · rename_i hcreated
      simp only [Bool.or_eq_true, decide_eq_true_eq, not_or, not_not]
      exact ⟨hcall, by omega⟩
  unfold commitDeclaredOps
  rw [if_neg hguard]
  cases happly : (st.feeStage nd tx atx).ledger.handleDeclaredOps nd.feeParams tx
      (UInt64.ofNat (nd.epochs.commitEpochForRound commitRound)) with
  | none =>
    refine hcharged.lockstep hstep (fun id hin => hin.elim) fun id hid => ?_
    by_contra hstored
    have hvalid := ((h.declared hops).runs ⟨id, hid, hstored⟩).2
    have hsame : (st.feeStage nd tx atx).ledger.stagedOps = (st.admitted tx).stagedOps := by
      rcases (st.admitted tx).deductFees_ledger nd tx atx with heq | ⟨_, _, _, _, -, -, heq⟩
      · rw [heq]
      · rw [heq]
        rfl
    obtain ⟨view, hview⟩ := Option.ne_none_iff_exists'.1 hvalid
    rw [← hsame] at hview
    obtain ⟨_, -, -, -, hsome⟩ := handleDeclaredOps_eq_some hview
    rw [happly] at hsome
    cases hsome
  | some st' =>
    obtain ⟨-, sender, -, -, -, rfl, -⟩ := handleDeclaredOps_some happly
    refine applyDeclaredOps_inStep (fun id => ?_)
      (fun coin hcoin => hcharged.keyRooted (h.keyRooted coin hcoin)) (h.declared hops).gas
    -- the version check leaves behind the stored references, and each is moved or deleted
    by_cases hid : id ∈ tx.mutableRefIDs → st.getObject id = none
    · exact .inl
        (hcharged.inStepAt_of_unstored (lockstep_iff.1 hstep id) (fun _ hin => hin.elim) hid)
    · obtain ⟨href, hstored⟩ := Classical.not_imp.1 hid
      exact .inr ((h.declared hops).moved id href hstored)

theorem settled (hstep : st.Lockstep) (hops : tx.operations = []) (split : FeeSplit) :
    Recedes (PositionSlot nd tx) (st.admitted tx)
      ((st.feeStage nd tx atx).ledger.settled nd tx atx split) := by
  have hcharged := h.charged (PositionSlot nd tx)
  refine hcharged.trans (Recedes.settled split
    (fun coin hcoin => hcharged.keyRooted (h.keyRooted coin hcoin)) fun coin hcoin => ?_)
  -- the stake coin is a mutable reference, so it is tracked under a key if it is stored
  refine hcharged.keyRooted fun s hs => ?_
  rw [bodyStamp_admitted] at hs
  obtain ⟨o, ho, rfl⟩ := Option.map_eq_some_iff.1 hs
  obtain ⟨-, e, he, hkind⟩ :=
    (h.called hops).refs coin (Transaction.mem_mutableRefIDs_of_first hcoin) (by simp [ho])
  exact (hstep coin o e ho he).2.2.trans hkind

end KeepsPace

/-- An admitted transaction of that kind leaves every body in step. -/
theorem lockstep_executeTx (hstep : st.Lockstep)
    (hpace : ∀ tx, st.Admits nd atx commitRound verdict tx →
      st.KeepsPace nd atx commitRound verdict tx) :
    (st.executeTx nd atx commitRound verdict).ledger.Lockstep := by
  unfold executeTx
  rcases st.prepareTx_cases nd atx commitRound verdict with
    ⟨marks, exit, -, heq, -⟩ | ⟨tx, hadmits, hstages⟩
  · rw [heq]
    exact hstep
  have h := hpace tx hadmits
  rcases hstages with ⟨hproceed, heq⟩ | ⟨-, hops, heq⟩ | ⟨-, hops, heq⟩
  · rw [heq]
    exact h.feeRejected hstep hproceed
  · rw [heq]
    exact h.ops hstep hadmits hops
  · have hcall := h.called hops
    have hrec := h.settled hstep hops (st.feeStage nd tx atx).split
    unfold Ledger.settled at hrec
    rcases eq_map_cases heq with ⟨out, hsettle, heq⟩ | ⟨st₁, hsettle, heq⟩
    · rw [hsettle] at hrec
      rw [heq]
      refine hrec.lockstep hstep hcall.slot fun id hid => ?_
      by_contra hstored
      obtain ⟨st₁, hok⟩ := (hcall.runs ⟨id, hid, hstored⟩).settles
      rw [hsettle] at hok
      cases hok
    · rw [hsettle] at hrec
      have hexecutes := fun hpasses : st.Passes nd atx tx => hpasses.executes hsettle
      rw [heq]
      show (st₁.runPod nd tx atx _ _).ledger.Lockstep
      unfold runPod
      cases hexecute : st₁.execute nd tx atx with
      | ok st' => exact hcall.execute hadmits.versions hstep heq hrec hexecute
      | error e =>
        refine hrec.lockstep hstep hcall.slot fun id hid => ?_
        by_contra hstored
        obtain ⟨st₂, hok⟩ := hexecutes (hcall.runs ⟨id, hid, hstored⟩)
        rw [hexecute] at hok
        cases hok

end Transactions

end Ledger

end BluePods
