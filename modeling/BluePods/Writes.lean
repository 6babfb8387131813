import BluePods.Coverage
import BluePods.Tracking

/-! Which stored bodies a pod call changes. The output may name any object the call was
given, also one that is only read, and deletions are taken from the transaction. -/

namespace BluePods

/-! ## Bodies -/

/-- The body an update stores. -/
def Object.written (o : Object) : Object := { o.rebuilt with version := o.version + 1 }

@[simp] theorem Object.objectID_written (o : Object) : o.written.objectID = o.objectID := rfl

@[simp] theorem Object.objectOwner_written (o : Object) :
    o.written.objectOwner = o.objectOwner := rfl

/-- The body a mutable reference is left with after a call. -/
def Object.raisedTo (o : Object) (version : UInt64) : Object :=
  if o.version = version then o else { o.rebuilt with version }

/-- The update that takes effect under an identifier: the last one. -/
def PodOutput.lastUpdate (out : PodOutput) (id : Hash) : Option Object :=
  out.updatedObjects.reverse.find? (·.objectID = id)

namespace Ledger

section

variable {tx : Transaction} (st : Ledger)

theorem getObject_setObject (o : Object) (id : Hash) :
    (st.setObject o).getObject id = if id = o.objectID then some o else st.getObject id :=
  st.objects.get_set o id

theorem getObject_deleteObject (id x : Hash) :
    (st.deleteObject id).getObject x = if x = id then none else st.getObject x :=
  st.objects.get_delete id x

theorem getObject_applyUpdatedObjects (out : PodOutput) (id : Hash) :
    (st.applyUpdatedObjects out).getObject id =
      ((out.lastUpdate id).map Object.written).or (st.getObject id) := by
  have hfold : st.applyUpdatedObjects out =
      out.updatedObjects.foldl (fun st o => st.setObject o.written) st := rfl
  rw [hfold, PodOutput.lastUpdate]
  generalize out.updatedObjects = us
  induction us using List.reverseRecOn with
  | nil => rfl
  | append_singleton us u ih =>
    rw [List.foldl_append, List.foldl_cons, List.foldl_nil, getObject_setObject, ih,
      List.reverse_append, List.reverse_singleton, List.singleton_append, List.find?_cons]
    by_cases hid : u.objectID = id
    · simp [hid]
    · simp [hid, Ne.symm hid]

theorem getObject_applyCreatedObjects {nd : Node} {out : PodOutput} {id : Hash}
    (h : ∀ i < out.createdObjects.length, id ≠ computeObjectID nd.crypto (hashOrZero tx.hash) i) :
    (st.applyCreatedObjects nd out tx).getObject id = st.getObject id := by
  have hderived : ∀ c ∈ out.createdObjects.zipIdx,
      id ≠ computeObjectID nd.crypto (hashOrZero tx.hash) c.2 := fun c hc => by
    obtain ⟨-, hi, -⟩ := List.mem_zipIdx hc
    exact h c.2 (by omega)
  unfold applyCreatedObjects
  generalize out.createdObjects.zipIdx = created at hderived
  induction created generalizing st with
  | nil => rfl
  | cons c created ih =>
    rw [List.forall_mem_cons] at hderived
    rw [List.foldl_cons, ih _ hderived.2]
    unfold applyCreatedObject
    dsimp only
    split
    · rw [getObject_setObject, if_neg]
      · rfl
      · rw [show Object.objectID { c.1.rebuilt with
          id := (computeObjectID nd.crypto (hashOrZero tx.hash) c.2).val
          fees := st.stampedDeposit nd tx c.1 } = computeObjectID nd.crypto (hashOrZero tx.hash) c.2
          from hashOrZero_val _]
        exact hderived.1
    · rfl

theorem getObject_deleteHeldContent (sender id x : Hash) :
    (deleteHeldContent sender st x).getObject id =
      if id = x then (st.getObject id).filter (·.objectOwner ≠ sender) else st.getObject id := by
  unfold deleteHeldContent
  by_cases hx : id = x
  · subst hx
    cases ho : st.getObject id with
    | none => simp [ho]
    | some o =>
      by_cases howner : o.objectOwner = sender
      · simp [howner, getObject_deleteObject, Option.filter]
      · simp [howner, ho, Option.filter]
  · rw [if_neg hx]
    split
    · rfl
    · split
      · rfl
      · rw [getObject_deleteObject, if_neg hx]

theorem getObject_applyDeletedObjects (tx : Transaction) (id : Hash) :
    (st.applyDeletedObjects tx).getObject id = (st.getObject id).filter fun o =>
      ¬ (id ∈ declaredDeletedIDs tx ∧ o.objectOwner = hashOrZero tx.sender) := by
  unfold applyDeletedObjects
  generalize declaredDeletedIDs tx = ids
  induction ids generalizing st with
  | nil => cases h : st.getObject id <;> simp [h, Option.filter]
  | cons x ids ih =>
    rw [List.foldl_cons, ih, getObject_deleteHeldContent]
    by_cases hx : id = x
    · subst hx
      cases ho : st.getObject id with
      | none => simp
      | some o =>
        by_cases howner : o.objectOwner = hashOrZero tx.sender <;> simp [howner, Option.filter]
    · simp [hx]

theorem getObject_ensureMutableVersion (r : ObjectRef) (id : Hash) :
    (ensureMutableVersion st r).getObject id =
      if r.refID = some id then (st.getObject id).map (·.raisedTo (r.version + 1))
      else st.getObject id := by
  unfold ensureMutableVersion
  cases r.refID with
  | none => simp
  | some x =>
    simp only [Option.some.injEq]
    by_cases hid : x = id
    · subst hid
      cases ho : st.getObject x with
      | none => simp [ho]
      | some o =>
        have hoid : o.objectID = x := ObjectStore.objectID_of_get ho
        rw [if_pos rfl, Option.map_some, Object.raisedTo]
        dsimp only
        split
        · exact ho
        · exact (st.getObject_setObject ..).trans (if_pos hoid.symm)
    · rw [if_neg hid]
      split
      · rfl
      · rename_i o ho
        have hoid : o.objectID = x := ObjectStore.objectID_of_get ho
        split
        · rfl
        · exact (st.getObject_setObject ..).trans (if_neg fun heq => hid (hoid.symm.trans heq.symm))

/-- The references of a transaction to one object agree on its version. -/
theorem getObject_ensureMutableVersions {id : Hash} {version : UInt64}
    (hrefs : ∀ r ∈ tx.mutableRefs, r.refID = some id → r.version = version) :
    (st.ensureMutableVersions tx).getObject id =
      if id ∈ tx.mutableRefIDs then (st.getObject id).map (·.raisedTo (version + 1))
      else st.getObject id := by
  have htwice : ∀ o : Object, (o.raisedTo (version + 1)).raisedTo (version + 1) =
      o.raisedTo (version + 1) := by
    intro o
    unfold Object.raisedTo
    split <;> simp [*]
  unfold ensureMutableVersions Transaction.mutableRefIDs
  generalize tx.mutableRefs = refs at hrefs
  induction refs generalizing st with
  | nil => rfl
  | cons r refs ih =>
    rw [List.forall_mem_cons] at hrefs
    rw [List.foldl_cons, ih _ hrefs.2, getObject_ensureMutableVersion]
    by_cases hr : r.refID = some id
    · rw [if_pos hr, List.filterMap_cons_some hr, if_pos List.mem_cons_self, hrefs.1 hr,
        Option.map_map]
      split
      · exact congrArg (Option.map · _) (funext htwice)
      · rfl
    · have hiff : id ∈ (r :: refs).filterMap ObjectRef.refID ↔
          id ∈ refs.filterMap ObjectRef.refID := by
        simp only [List.mem_filterMap, List.mem_cons, or_and_right, exists_or, exists_eq_left, hr,
          false_or]
      simp only [if_neg hr, hiff]

end

/-! ## The call -/

variable {st st₁ st' : Ledger} {nd : Node} {tx : Transaction} {atx : AttestedTransaction}
  {out : PodOutput}

section

variable (h : st.execute nd tx atx = .ok st')
  (hpod : nd.pods (hashOrZero tx.pod) (st.podInput tx atx) = .ok (some out))

include h hpod

theorem execute_ok :
    st.validateOutput nd out tx (st.podObjects tx atx) = .ok () ∧
      st' = (((st.applyUpdatedObjects out).applyCreatedObjects nd out tx).applyDeletedObjects
        tx).ensureMutableVersions tx := by
  simp only [execute, hpod, processOutput] at h
  split at h
  · cases h
  · rename_i st₁ hst₁
    split at hst₁
    · cases hst₁
    · split at hst₁
      · cases hst₁
      · rename_i hvalid
        obtain rfl := Except.ok.inj hst₁
        exact ⟨hvalid, (Except.ok.inj h).symm⟩

/-- What a call leaves of a body that it does not create: the last update, else what was
stored, unless a declared deletion drops it, and at the next version where it is
referenced mutably. -/
theorem getObject_execute {id : Hash} {version : UInt64}
    (hrefs : ∀ r ∈ tx.mutableRefs, r.refID = some id → r.version = version)
    (hnew : ∀ i < out.createdObjects.length,
      id ≠ computeObjectID nd.crypto (hashOrZero tx.hash) i) :
    let left := (((out.lastUpdate id).map Object.written).or (st.getObject id)).filter fun o =>
      ¬ (id ∈ declaredDeletedIDs tx ∧ o.objectOwner = hashOrZero tx.sender)
    st'.getObject id =
      if id ∈ tx.mutableRefIDs then left.map (·.raisedTo (version + 1)) else left := by
  rw [(execute_ok h hpod).2, getObject_ensureMutableVersions _ hrefs,
    getObject_applyDeletedObjects, getObject_applyCreatedObjects _ hnew,
    getObject_applyUpdatedObjects]

end

/-- What a transaction may write: the objects it references mutably by identifier and that
its sender owns, and the objects its output creates. A declared deletion of a referenced
object is among the former. -/
def MayWrite (st : Ledger) (nd : Node) (atx : AttestedTransaction) (commitRound : Nat)
    (tx : Transaction) (out : PodOutput) (id : Hash) : Prop :=
  (id ∈ tx.mutableRefIDs ∧ ∃ sender, hash32 tx.sender = some sender ∧
      st.OwnedBy nd atx commitRound id sender) ∨
    ∃ i < out.createdObjects.length, id = computeObjectID nd.crypto (hashOrZero tx.hash) i

/-- The body as a call leaves it: at the version after the tracked one where it is
referenced mutably. -/
def landed (st : Ledger) (tx : Transaction) (id : Hash) (o : Object) : Object :=
  if id ∈ tx.mutableRefIDs then o.raisedTo (st.tracker.getVersion id + 1) else o

theorem landed_eq_self {id : Hash} {o : Object} : st.landed tx id o = o ↔
    (id ∈ tx.mutableRefIDs → o.version = st.tracker.getVersion id + 1) := by
  unfold landed Object.raisedTo
  split_ifs with hid hversion
  · simp [hversion]
  · exact iff_of_false (fun h => hversion (congrArg Object.version h).symm)
      fun h => hversion (h hid)
  · simp [hid]

theorem landed_landed {id : Hash} {o : Object} :
    st.landed tx id (st.landed tx id o) = st.landed tx id o := by
  rw [landed_eq_self]
  intro hid
  unfold landed Object.raisedTo
  split_ifs with hversion
  · exact hversion
  · rfl

theorem objectOwner_landed {id : Hash} {o : Object} :
    (st.landed tx id o).objectOwner = o.objectOwner := by
  unfold landed Object.raisedTo
  split_ifs <;> rfl

/-- A pod call changes only the bodies its transaction may write, exactly when under every
other identifier the output's update is what is stored, or is dropped again by a declared
deletion where nothing is stored; no declared deletion names a stored body of the sender;
and a stored body that is referenced mutably is already at the next version. -/
theorem execute_writes_authorized_iff {commitRound : Nat} {verdict : Option ProofError}
    {split : FeeSplit} {withheld : UInt64}
    (hprepared : st.prepareTx nd atx commitRound verdict = .ok (tx, st₁, split, withheld))
    (hpod : nd.pods (hashOrZero tx.pod) (st₁.podInput tx atx) = .ok (some out))
    (hexecute : st₁.execute nd tx atx = .ok st') :
    (∀ id, st'.getObject id ≠ st₁.getObject id → st.MayWrite nd atx commitRound tx out id) ↔
      ∀ id, ¬ st.MayWrite nd atx commitRound tx out id →
        (∀ u, out.lastUpdate id = some u → st₁.getObject id = some (st.landed tx id u.written) ∨
          st₁.getObject id = none ∧ id ∈ declaredDeletedIDs tx ∧
            u.objectOwner = hashOrZero tx.sender) ∧
        ∀ o, st₁.getObject id = some o →
          (id ∈ declaredDeletedIDs tx → o.objectOwner ≠ hashOrZero tx.sender) ∧
          (id ∈ tx.mutableRefIDs → o.version = st.tracker.getVersion id + 1) := by
  have hversions := (prepareTx_ok hprepared).1.versions
  refine forall_congr' fun id => ?_
  rw [not_imp_comm]
  refine imp_congr_right fun hforeign => ?_
  have hrefs : ∀ r ∈ tx.mutableRefs, r.refID = some id → r.version = st.tracker.getVersion id :=
    fun r hr hid => (Tracker.getVersion_of_checkVersions hversions hr hid).symm
  rw [getObject_execute hexecute hpod hrefs fun i hi heq => hforeign (.inr ⟨i, hi, heq⟩)]
  have hlanded : ∀ left : Option Object, (if id ∈ tx.mutableRefIDs then
      left.map (·.raisedTo (st.tracker.getVersion id + 1)) else left) =
        left.map (st.landed tx id) := by
    intro left
    unfold landed
    split_ifs <;> simp
  simp only [hlanded]
  cases hu : out.lastUpdate id with
  | none =>
    cases ho : st₁.getObject id with
    | none => simp
    | some o =>
      by_cases hdropped : id ∈ declaredDeletedIDs tx ∧ o.objectOwner = hashOrZero tx.sender
      · simp [Option.filter, hdropped]
      · simpa [Option.filter, hdropped, landed_eq_self] using fun _ => not_and.1 hdropped
  | some u =>
    cases ho : st₁.getObject id with
    | none => simp [Option.filter]
    | some o =>
      by_cases hsame : st.landed tx id u.written = o
      · subst hsame
        simp [Option.filter, landed_landed, objectOwner_landed, ← landed_eq_self]
      · simp [Option.filter, hsame, Ne.symm hsame]

end Ledger

/-- The first user calls a pod on its own coin. -/
def ownCoinTx : AttestedTransaction := creatingTx (idOf 11) []

def ownCoinNode : Node :=
  soloNode (podReturning { updatedObjects := [coinObject (idOf 11) (idOf 1) 1] })

theorem execute_writes_authorized_iff_ownCoin :
    ∃ tx st₁ split withheld st', soloLedger.prepareTx ownCoinNode ownCoinTx 0 none =
        .ok (tx, st₁, split, withheld) ∧
      st₁.execute ownCoinNode tx ownCoinTx = .ok st' ∧
      ∀ id, st'.getObject id ≠ st₁.getObject id → soloLedger.MayWrite ownCoinNode ownCoinTx 0 tx
        { updatedObjects := [coinObject (idOf 11) (idOf 1) 1] } id := by
  have hruns : ((soloLedger.prepareTx ownCoinNode ownCoinTx 0 none).toOption.bind fun p =>
      (p.2.1.execute ownCoinNode p.1 ownCoinTx).toOption).isSome = true := by decide +kernel
  rcases hprepared : soloLedger.prepareTx ownCoinNode ownCoinTx 0 none with
    _ | ⟨tx, st₁, split, withheld⟩
  · simp [hprepared, Except.toOption] at hruns
  · rcases hexecute : st₁.execute ownCoinNode tx ownCoinTx with _ | st'
    · simp [hprepared, hexecute, Except.toOption] at hruns
    · refine ⟨tx, st₁, split, withheld, st', rfl, hexecute,
        (Ledger.execute_writes_authorized_iff hprepared rfl hexecute).2 fun id hforeign => ?_⟩
      obtain rfl := Option.some.inj (Ledger.prepareTx_ok hprepared).1.transaction
      -- the one reference is the sender's own
      have href : id ∉ (creatingBody (idOf 11) []).mutableRefIDs := by
        intro hid
        refine hforeign (.inl ⟨hid, idOf 1, by decide, .inl ?_⟩)
        rw [List.mem_singleton.1 hid]
        decide +kernel
      refine ⟨fun u hu => absurd ?_ href,
        fun o _ => ⟨fun hdeleted => absurd hdeleted ?_, fun hid => absurd hid href⟩⟩
      · have hid := List.find?_some hu
        simp only [decide_eq_true_eq] at hid
        have hu := List.mem_of_find?_eq_some hu
        rw [← hid, List.mem_singleton.1 (List.mem_reverse.1 hu)]
        decide +kernel
      · rw [show declaredDeletedIDs (creatingBody (idOf 11) []) = [] by decide +kernel]
        exact List.not_mem_nil

/-- An object of the second user that the validator holds. -/
def lentObject : Object := { coinObject (idOf 12) (idOf 2) 10000 with replication := 1 }

def lentLedger : Ledger := { soloLedger with objects := soloLedger.objects.set lentObject }

/-- The first user reads that object, with a proof for the copy, and writes nothing. -/
def readingTx : Transaction :=
  signedTx
    { sender := (idOf 1).val
      pod := (idOf 7).val
      functionName := ascii "read"
      gasCoin := (idOf 11).val
      maxGas := 100
      readRefs := [{ id := (idOf 12).val }] }

def readingAtx : AttestedTransaction where
  transaction := some readingTx
  objects := [lentObject]
  proofs := [soloProof lentObject]

def emptiedObject : Object := { lentObject with content := putUint64LE 0 }

/-- The pod returns the object it was given to read as updated, and the second user's body
is rewritten. -/
theorem readingAtx_rewrites_foreign_body :
    let nd := soloNode (podReturning { updatedObjects := [emptiedObject] })
    let outcome := lentLedger.executeTx nd readingAtx 0 (verify nd.crypto nd.epochs 0 readingAtx)
    verify nd.crypto nd.epochs 0 readingAtx = none ∧ readingTx.mutableRefs = [] ∧
      outcome.exit = .executed ∧ lentLedger.getObject (idOf 12) = some lentObject ∧
      outcome.ledger.getObject (idOf 12) = some emptiedObject.written ∧
      ¬ lentLedger.MayWrite nd readingAtx 0 readingTx { updatedObjects := [emptiedObject] }
        (idOf 12) := by
  refine ⟨by decide +kernel, rfl, by decide +kernel, by decide +kernel, by decide +kernel, ?_⟩
  rintro (⟨href, -⟩ | ⟨i, hi, -⟩)
  · exact absurd href (by decide +kernel)
  · exact absurd hi (by simp)

end BluePods
