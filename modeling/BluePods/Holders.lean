import BluePods.Holdings

/-! One transaction on two nodes that store different replicated objects. Up to the pod
call both do the same; the call itself runs on every node, or on the holders of what it
writes alone, and then it must not touch what everyone stores. -/

namespace BluePods

open Ledger

/-! ## Calls and what they write -/

/-- The identifier of an object a transaction creates. -/
def createdID (nd : Node) (tx : Transaction) (i : Nat) : Hash :=
  computeObjectID nd.crypto (hashOrZero tx.hash) i

/-- The call creates nothing and writes objects that the wrapper declares replicated: it is
left to their holders. -/
def Sharded (tx : Transaction) (atx : AttestedTransaction) : Prop :=
  tx.createdObjectsReplication = [] ∧ tx.mutableRefIDs ≠ [] ∧
    ∀ id ∈ tx.mutableRefIDs, ((buildReplicationMap atx).lookup id).getD 0 ≠ 0

/-- What a pod runs on when the wrapper carries every object the call writes. -/
def wrapperInput (tx : Transaction) (atx : AttestedTransaction) : PodInput where
  transaction := tx
  sender := tx.sender
  localObjects := atx.objects.map Object.rebuilt

namespace Ledger

variable {atx : AttestedTransaction} {id : Hash} {tx : Transaction} {out : PodOutput}
  {st st' : Ledger}

/-- The identifiers of the created objects are distinct and new: no singleton is stored
under them and the wrapper carries none. -/
structure Fresh (st : Ledger) (nd : Node) (tx : Transaction) (atx : AttestedTransaction) :
    Prop where
  distinct : ∀ i < tx.createdObjectsReplication.length,
    ∀ j < tx.createdObjectsReplication.length, createdID nd tx i = createdID nd tx j → i = j
  vacant : ∀ i < tx.createdObjectsReplication.length, st.single (createdID nd tx i) = none
  unattested : ∀ i < tx.createdObjectsReplication.length,
    ∀ o ∈ atx.objects, o.objectID ≠ createdID nd tx i

/-- A call left to the holders touches no singleton: none of its references or declared
deletions names one, and the pod returns replicated objects in the place of others. -/
structure ShardBlind (st : Ledger) (nd : Node) (tx : Transaction) (atx : AttestedTransaction) :
    Prop where
  refs : ∀ id ∈ tx.mutableRefIDs, st.single id = none
  deletions : ∀ id ∈ declaredDeletedIDs tx, st.single id = none
  updates : ∀ out, nd.pods (hashOrZero tx.pod) (wrapperInput tx atx) = .ok (some out) →
    ∀ o ∈ out.updatedObjects, o.replication ≠ 0 ∧ st.single o.objectID = none

/-- What this node stores besides the singletons plays no part in the transaction. -/
structure Blind (st : Ledger) (nd : Node) (tx : Transaction) (atx : AttestedTransaction) :
    Prop where
  owners : st.OwnersPlain tx atx
  stake : st.StakeBlind nd tx
  fresh : st.Fresh nd tx atx
  unwritten : ∀ i < tx.createdObjectsReplication.length,
    ¬ st.WritesPosition nd tx (createdID nd tx i)
  sharded : Sharded tx atx → st.ShardBlind nd tx atx

/-! ## The input -/

theorem mem_of_lookup_buildReplicationMap {rep : UInt16}
    (h : (buildReplicationMap atx).lookup id = some rep) :
    ∃ o ∈ atx.objects, hash32 o.id = some id := by
  have hfold : ∀ (l : List (Hash × UInt16)) (m : AList fun _ : Hash => UInt16),
      (l.foldl (fun m p => m.insert p.1 p.2) m).lookup id = some rep →
      m.lookup id = some rep ∨ ∃ p ∈ l, p.1 = id := by
    intro l
    induction l with
    | nil => exact fun m hm => .inl hm
    | cons p l ih =>
      intro m hm
      rcases ih _ hm with hm | ⟨p', hp', hid⟩
      · by_cases hkey : id = p.1
        · exact .inr ⟨p, by simp, hkey.symm⟩
        · rw [AList.lookup_insert_ne hkey] at hm
          exact .inl hm
      · exact .inr ⟨p', by simp [hp'], hid⟩
  rw [buildReplicationMap_eq] at h
  rcases hfold _ ∅ h with hm | ⟨p, hp, rfl⟩
  · simp at hm
  · obtain ⟨o, ho, hpair⟩ := List.mem_filterMap.1 hp
    obtain ⟨key, hkey, rfl⟩ := Option.map_eq_some_iff.1 hpair
    exact ⟨o, ho, hkey⟩

/-- The wrapper of a call left to the holders carries all that the pod runs on. -/
theorem podObjects_of_sharded (st : Ledger) (h : Sharded tx atx) :
    st.podObjects tx atx = atx.objects := by
  unfold podObjects resolveMutableObjects
  dsimp only
  rw [List.append_right_eq_self, List.filterMap_eq_nil_iff]
  intro id hid
  have hrep := h.2.2 id hid
  cases hlook : (buildReplicationMap atx).lookup id with
  | none => simp [hlook] at hrep
  | some rep =>
    obtain ⟨o, ho, hoid⟩ := mem_of_lookup_buildReplicationMap hlook
    rw [if_pos]
    exact List.mem_map.2 ⟨o, ho, toHash_of_hash32 hoid⟩

theorem podInput_of_sharded (st : Ledger) (h : Sharded tx atx) :
    st.podInput tx atx = wrapperInput tx atx := by
  unfold podInput wrapperInput
  rw [podObjects_of_sharded st h]

theorem attestedReplicatedOwner_of_absent (h : id ∉ atx.objects.map fun o => toHash o.id) :
    attestedReplicatedOwner atx id = none := by
  unfold attestedReplicatedOwner
  rw [List.find?_eq_none.2]
  · rfl
  · intro o ho
    simp only [decide_eq_true_eq, not_and]
    intro _ hid
    exact h (List.mem_map.2 ⟨o, ho, by rw [hid, toHash_val]⟩)

theorem Shares.podObjects (h : Shares st st') (ho : st.OwnersPlain tx atx)
    (ho' : st'.OwnersPlain tx atx) : st'.podObjects tx atx = st.podObjects tx atx := by
  unfold Ledger.podObjects resolveMutableObjects
  dsimp only
  congr 1
  refine List.filterMap_congr fun id hid => ?_
  split
  · rfl
  · rename_i habsent
    have hnone := attestedReplicatedOwner_of_absent habsent
    exact h.getObject_of_plain (ho id hid hnone) (ho' id hid hnone)

/-- Every input is a copy of the wrapper's, or a stored body of which it has none. -/
theorem podObjects_cases {o : Object} (ho : o ∈ st.podObjects tx atx) :
    o ∈ atx.objects ∨ st.getObject o.objectID = some o ∧ o.objectID ∈ tx.mutableRefIDs ∧
      o.objectID ∉ atx.objects.map fun o => toHash o.id := by
  unfold podObjects resolveMutableObjects at ho
  dsimp only at ho
  rcases List.mem_append.1 ho with hmem | hmem
  · exact .inl hmem
  · obtain ⟨id, hid, hget⟩ := List.mem_filterMap.1 hmem
    split at hget
    · cases hget
    · rename_i habsent
      obtain rfl : o.objectID = id := ObjectStore.objectID_of_get hget
      exact .inr ⟨hget, hid, habsent⟩

/-- Every input is a copy of the wrapper's or a stored singleton. -/
theorem mem_podObjects (howners : st.OwnersPlain tx atx) {o : Object}
    (ho : o ∈ st.podObjects tx atx) : o ∈ atx.objects ∨ st.single o.objectID = some o := by
  refine (podObjects_cases ho).imp_right fun ⟨hget, hid, habsent⟩ => ?_
  have hplain := howners o.objectID hid (attestedReplicatedOwner_of_absent habsent)
  exact single_eq_some.2 ⟨hget, hplain o hget⟩

/-! ## The output -/

theorem Shares.applyUpdatedObjects (h : Shares st st') (out : PodOutput) :
    Shares (st.applyUpdatedObjects out) (st'.applyUpdatedObjects out) := by
  unfold Ledger.applyUpdatedObjects
  generalize out.updatedObjects = os
  induction os generalizing st st' with
  | nil => exact h
  | cons o os ih => exact ih (h.setObject _)

theorem single_applyUpdatedObjects (st : Ledger) (h : ∀ o ∈ out.updatedObjects, o.objectID ≠ id) :
    (st.applyUpdatedObjects out).single id = st.single id := by
  unfold applyUpdatedObjects
  generalize out.updatedObjects = os at h
  induction os generalizing st with
  | nil => rfl
  | cons o os ih =>
    rw [List.foldl_cons, ih _ fun o' ho' => h o' (by simp [ho']), single_setObject, if_neg]
    intro hid
    exact h o (by simp) hid.symm

theorem validateOutput_ok {nd : Node} {inputs : List Object}
    (h : st.validateOutput nd out tx inputs = .ok ()) :
    out.createdObjects.length ≤ tx.createdObjectsReplication.length ∧
      validateParentImmutability out inputs = .ok () := by
  unfold validateOutput at h
  cases hlimit : validateCreationLimits out tx with
  | error e => simp [hlimit, bind, Except.bind] at h
  | ok _ =>
    cases hdomains : validateDomainRegistrations out with
    | error e => simp [hlimit, hdomains, bind, Except.bind] at h
    | ok _ =>
      cases hparents : st.validateCreatedParents nd out tx with
      | error e => simp [hlimit, hdomains, hparents, bind, Except.bind] at h
      | ok _ =>
        cases himm : validateParentImmutability out inputs with
        | error e => simp [hlimit, hdomains, hparents, himm, bind, Except.bind] at h
        | ok _ =>
          refine ⟨?_, rfl⟩
          unfold validateCreationLimits at hlimit
          split at hlimit
          · cases hlimit
          · omega

/-- An updated object has an input with its identifier and its owner. -/
theorem input_of_immutable {inputs : List Object}
    (h : validateParentImmutability out inputs = .ok ()) {o : Object}
    (ho : o ∈ out.updatedObjects) :
    ∃ input ∈ inputs, inputByID inputs o.objectID = some input ∧
      input.objectID = o.objectID ∧ o.owner = input.owner := by
  unfold validateParentImmutability at h
  generalize out.updatedObjects = os at h ho
  induction os with
  | nil => simp at ho
  | cons u os ih =>
    rw [List.foldlM_cons] at h
    cases hin : inputByID inputs u.objectID with
    | none => simp [hin, bind, Except.bind] at h
    | some input =>
      simp only [hin] at h
      split at h
      · simp [bind, Except.bind] at h
      · rename_i hkept
        rcases List.mem_cons.1 ho with rfl | ho
        · exact ⟨input, by simpa using List.mem_of_find?_eq_some hin, hin,
            by simpa using List.find?_some hin, not_not.1 (not_or.1 hkept).2⟩
        · exact ih h ho

section Created

variable {nd : Node} {f : Hash → UInt16 → Bool}

theorem Shares.applyCreatedObject (h : Shares st st') (tx : Transaction)
    (hall : ∀ id, nd.isHolder id 0 = true) (hall' : ∀ id, f id 0 = true) (o : Object) (i : Nat)
    (hvacant : st.single (createdID nd tx i) = none) :
    Shares (applyCreatedObject nd tx st (o, i))
      (applyCreatedObject { nd with isHolder := f } tx st' (o, i)) := by
  have hfees : st'.stampedDeposit { nd with isHolder := f } tx o = st.stampedDeposit nd tx o := by
    unfold stampedDeposit
    rw [h.validators]
  unfold Ledger.applyCreatedObject
  dsimp only
  rw [hfees]
  have htracked := h.withTracker (·.trackObject (createdID nd tx i) o.version o.replication
    (st.stampedDeposit nd tx o) o.parentKind o.objectOwner)
  by_cases hrep : o.replication = 0
  · rw [hrep] at htracked ⊢
    rw [if_pos (hall _), if_pos (hall' _)]
    exact htracked.setObject _
  · -- Each node stores it or not, and nobody had a singleton there.
    have hown : ∀ {s : Ledger} {created : Object} (held : Bool), created.replication ≠ 0 →
        s.single created.objectID = none →
        Shares s (if held then s.setObject created else s) := by
      intro s created held hrep hv
      cases held with
      | false => exact .refl s
      | true => exact .setReplicated s hrep hv
    have hid : Object.objectID
        { o.rebuilt with id := (createdID nd tx i).val, fees := st.stampedDeposit nd tx o } =
          createdID nd tx i := hashOrZero_val _
    refine ((hown _ ?_ ?_).symm.trans htracked).trans (hown _ ?_ ?_)
    · exact hrep
    · exact (congrArg st.single hid).trans hvacant
    · exact hrep
    · exact (congrArg st'.single hid).trans ((h.singles _).trans hvacant)

theorem single_applyCreatedObject (nd : Node) (tx : Transaction) (st : Ledger) (o : Object)
    {i j : Nat} (h : createdID nd tx j ≠ createdID nd tx i) :
    (applyCreatedObject nd tx st (o, i)).single (createdID nd tx j) =
      st.single (createdID nd tx j) := by
  unfold applyCreatedObject
  dsimp only
  split
  · rw [single_setObject, if_neg]
    · rfl
    · exact fun hid => h (hid.trans (hashOrZero_val _))
  · rfl

theorem Shares.foldl_applyCreatedObject (h : Shares st st') (tx : Transaction)
    (hall : ∀ id, nd.isHolder id 0 = true) (hall' : ∀ id, f id 0 = true)
    (os : List Object) (k : Nat)
    (hdistinct : ∀ i < k + os.length, ∀ j < k + os.length,
      createdID nd tx i = createdID nd tx j → i = j)
    (hvacant : ∀ i < k + os.length, k ≤ i → st.single (createdID nd tx i) = none) :
    Shares ((os.zipIdx k).foldl (Ledger.applyCreatedObject nd tx) st)
      ((os.zipIdx k).foldl (Ledger.applyCreatedObject { nd with isHolder := f } tx) st') := by
  induction os generalizing st st' k with
  | nil => exact h
  | cons o os ih =>
    rw [List.length_cons] at hdistinct hvacant
    rw [List.zipIdx_cons, List.foldl_cons, List.foldl_cons]
    refine ih (h.applyCreatedObject tx hall hall' o k (hvacant k (by omega) le_rfl)) (k + 1) ?_ ?_
    · intro i hi j hj
      exact hdistinct i (by omega) j (by omega)
    · intro i hi hk
      rw [single_applyCreatedObject]
      · exact hvacant i (by omega) (by omega)
      · intro heq
        have := hdistinct i (by omega) k (by omega) heq
        omega

end Created

theorem deleteHeldContent_vacant (sender : Hash) (hv : st.single id = none) :
    Shares st (deleteHeldContent sender st id) := by
  unfold deleteHeldContent
  cases st.getObject id with
  | none => exact .refl st
  | some o =>
    dsimp only
    split
    · exact .refl st
    · exact .deleteReplicated st hv

theorem Shares.deleteHeldContent (h : Shares st st') (sender id : Hash) :
    Shares (Ledger.deleteHeldContent sender st id) (Ledger.deleteHeldContent sender st' id) := by
  refine h.pointwise id (f := (Ledger.deleteHeldContent sender · id)) ?_
    fun s => deleteHeldContent_vacant sender
  intro heq
  unfold Ledger.deleteHeldContent
  rw [heq]
  cases st.getObject id with
  | none => exact h
  | some o =>
    dsimp only
    split
    · exact h
    · exact h.deleteObject id

theorem Shares.applyDeletedObjects (h : Shares st st') (tx : Transaction) :
    Shares (st.applyDeletedObjects tx) (st'.applyDeletedObjects tx) := by
  unfold Ledger.applyDeletedObjects
  generalize declaredDeletedIDs tx = ids
  induction ids generalizing st st' with
  | nil => exact h
  | cons id ids ih => exact ih (h.deleteHeldContent _ id)

theorem ensureMutableVersion_vacant {r : ObjectRef}
    (hv : ∀ id, r.refID = some id → st.single id = none) :
    Shares st (st.ensureMutableVersion r) := by
  unfold ensureMutableVersion
  cases hid : r.refID with
  | none => exact .refl st
  | some id =>
    dsimp only
    cases ho : st.getObject id with
    | none => exact .refl st
    | some o =>
      dsimp only
      split
      · exact .refl st
      · exact .rewriteOwn (hv id hid) ho rfl rfl

theorem Shares.ensureMutableVersion (h : Shares st st') (r : ObjectRef) :
    Shares (st.ensureMutableVersion r) (st'.ensureMutableVersion r) := by
  cases hid : r.refID with
  | none =>
    unfold Ledger.ensureMutableVersion
    rw [hid]
    exact h
  | some id =>
    refine h.pointwise id (f := (·.ensureMutableVersion r)) ?_ fun s hv =>
      ensureMutableVersion_vacant fun id' hid' => by
        rw [hid] at hid'
        rwa [← Option.some.inj hid']
    intro heq
    unfold Ledger.ensureMutableVersion
    rw [hid]
    dsimp only
    rw [heq]
    cases st.getObject id with
    | none => exact h
    | some o =>
      dsimp only
      split
      · exact h
      · exact h.setObject _

theorem Shares.ensureMutableVersions (h : Shares st st') (tx : Transaction) :
    Shares (st.ensureMutableVersions tx) (st'.ensureMutableVersions tx) := by
  unfold Ledger.ensureMutableVersions
  generalize tx.mutableRefs = refs
  induction refs generalizing st st' with
  | nil => exact h
  | cons r refs ih => exact ih (h.ensureMutableVersion r)

/-! ## The call on the holders alone -/

section Sharded

variable {nd : Node} {tx : Transaction} {atx : AttestedTransaction}

theorem Shares.updateOwn (os : List Object)
    (h : ∀ o ∈ os, o.replication ≠ 0 ∧ st.single o.objectID = none) :
    Shares st (os.foldl (fun st o => st.setObject { o.rebuilt with version := o.version + 1 })
      st) := by
  induction os generalizing st with
  | nil => exact .refl st
  | cons o os ih =>
    obtain ⟨hrep, hvacant⟩ := h o (by simp)
    have hset : Shares st (st.setObject { o.rebuilt with version := o.version + 1 }) :=
      .setReplicated st hrep hvacant
    refine hset.trans (ih fun o' ho' => ?_)
    obtain ⟨hrep', hvacant'⟩ := h o' (by simp [ho'])
    exact ⟨hrep', (hset.singles _).trans hvacant'⟩

theorem Shares.deleteOwn (sender : Hash) (ids : List Hash) (h : ∀ id ∈ ids, st.single id = none) :
    Shares st (ids.foldl (Ledger.deleteHeldContent sender) st) := by
  induction ids generalizing st with
  | nil => exact .refl st
  | cons id ids ih =>
    have hdel := deleteHeldContent_vacant sender (h id (by simp))
    exact hdel.trans (ih fun id' hid' => (hdel.singles _).trans (h id' (by simp [hid'])))

theorem Shares.ensureOwn (refs : List ObjectRef)
    (h : ∀ r ∈ refs, ∀ id, r.refID = some id → st.single id = none) :
    Shares st (refs.foldl Ledger.ensureMutableVersion st) := by
  induction refs generalizing st with
  | nil => exact .refl st
  | cons r refs ih =>
    have hset := ensureMutableVersion_vacant (h r (by simp))
    exact hset.trans (ih fun r' hr' id hid => (hset.singles _).trans (h r' (by simp [hr']) id hid))

/-- A holder's execution of a call left to the holders goes unnoticed. -/
theorem Shares.executeOwn (hsh : Sharded tx atx) (hb : st.ShardBlind nd tx atx)
    (h : st.execute nd tx atx = .ok st') : Shares st st' := by
  unfold Ledger.execute at h
  rw [podInput_of_sharded st hsh, podObjects_of_sharded st hsh] at h
  cases hpod : nd.pods (hashOrZero tx.pod) (wrapperInput tx atx) with
  | error e => simp [hpod] at h
  | ok out =>
    rw [hpod] at h
    dsimp only at h
    have hensure : ∀ {s : Ledger}, Shares st s → Shares st (s.ensureMutableVersions tx) := by
      intro s hs
      refine hs.trans (ensureOwn tx.mutableRefs fun r hr id hid => ?_)
      exact (hs.singles id).trans (hb.refs id (List.mem_filterMap.2 ⟨r, hr, hid⟩))
    unfold Ledger.processOutput at h
    cases out with
    | none =>
      rw [← Except.ok.inj h]
      exact hensure (.refl st)
    | some out =>
      dsimp only at h
      split at h
      · cases h
      · rename_i s hs
        split at hs
        · cases hs
        · cases hv : st.validateOutput nd out tx atx.objects with
          | error e => simp [hv] at hs
          | ok _ =>
            rw [hv] at hs
            have hnil : out.createdObjects = [] := by
              have hlen := (validateOutput_ok hv).1
              rw [hsh.1] at hlen
              exact List.eq_nil_of_length_eq_zero (Nat.le_zero.1 hlen)
            have hupdated : Shares st (st.applyUpdatedObjects out) :=
              updateOwn out.updatedObjects fun o ho => hb.updates out hpod o ho
            rw [← Except.ok.inj h, ← Except.ok.inj hs]
            refine hensure (hupdated.trans ?_)
            unfold Ledger.applyDeletedObjects applyCreatedObjects
            rw [hnil]
            exact deleteOwn _ _ fun id hid => (hupdated.singles id).trans (hb.deletions id hid)

theorem poolUnlockedStorage_zero (split : FeeSplit) : poolUnlockedStorage split 0 = split := by
  simp [poolUnlockedStorage, safeAdd]

theorem Shares.runOwn (hsh : Sharded tx atx) (hb : st.ShardBlind nd tx atx) (split : FeeSplit) :
    Shares st (st.runPod nd tx atx split 0).ledger ∧
      (st.runPod nd tx atx split 0).split = split := by
  unfold runPod
  cases hexec : st.execute nd tx atx with
  | error e => exact ⟨.refl st, poolUnlockedStorage_zero split⟩
  | ok s => exact ⟨.executeOwn hsh hb hexec, rfl⟩

end Sharded

/-! ## The call on both nodes -/

section Both

variable {nd : Node} {f : Hash → UInt16 → Bool} {tx : Transaction} {atx : AttestedTransaction}

/-- What both nodes execute, unless it is left to the holders. -/
theorem not_leavesToHolders (hall : ∀ id, nd.isHolder id 0 = true) (hid : tx.mutableRefIDs ≠ [])
    (h : ¬ Sharded tx atx) : ¬ leavesToHolders nd tx atx := by
  rintro ⟨hcreated, hskip⟩
  refine h ⟨List.length_eq_zero_iff.1 hcreated, hid, fun id hmem hzero => ?_⟩
  have hexec : shouldExecute nd atx tx = true := by
    unfold shouldExecute
    simp only [Bool.or_eq_true, List.any_eq_true]
    refine .inl ⟨id, hmem, ?_⟩
    rw [hzero]
    exact hall id
  simp [hexec] at hskip

/-- A call with references by name only runs nowhere, one without references everywhere. -/
theorem leavesToHolders_congr (h : tx.mutableRefIDs = []) :
    leavesToHolders { nd with isHolder := f } tx atx ↔ leavesToHolders nd tx atx := by
  unfold leavesToHolders shouldExecute
  simp [h]

variable (h : Shares st st') (hall : ∀ id, nd.isHolder id 0 = true) (hall' : ∀ id, f id 0 = true)
  (ho : st.OwnersPlain tx atx) (hfresh : st.Fresh nd tx atx)

include h hall hall' ho hfresh

/-- Where the identifiers of the created objects are new to both nodes, an output leaves
them sharing their singletons. -/
theorem Shares.processOutput (out : Option PodOutput) :
    ResultAlike Eq Shares (st.processOutput nd out tx (st.podObjects tx atx))
      (st'.processOutput { nd with isHolder := f } out tx (st.podObjects tx atx)) := by
  unfold Ledger.processOutput
  cases out with
  | none => exact .ok h
  | some out =>
    dsimp only
    split
    · exact .error rfl
    · have hvalid : st'.validateOutput { nd with isHolder := f } out tx (st.podObjects tx atx) =
          st.validateOutput nd out tx (st.podObjects tx atx) := by
        rw [h.rest]
        rfl
      rw [hvalid]
      cases hv : st.validateOutput nd out tx (st.podObjects tx atx) with
      | error e => exact .error rfl
      | ok _ =>
        obtain ⟨hlen, himm⟩ := validateOutput_ok hv
        refine .ok (Shares.applyDeletedObjects ?_ tx)
        refine (h.applyUpdatedObjects out).foldl_applyCreatedObject tx hall hall'
          out.createdObjects 0 ?_ ?_
        · intro i hi j hj
          exact hfresh.distinct i (by omega) j (by omega)
        · intro i hi _
          have hi' : i < tx.createdObjectsReplication.length := by omega
          rw [single_applyUpdatedObjects]
          · exact hfresh.vacant i hi'
          · intro o ho' hid
            obtain ⟨input, hmem, -, hinput, -⟩ := input_of_immutable himm ho'
            rcases mem_podObjects ho hmem with hatx | hsingle
            · exact hfresh.unattested i hi' input hatx (hinput.trans hid)
            · rw [hinput, hid, hfresh.vacant i hi'] at hsingle
              cases hsingle

variable (ho' : st'.OwnersPlain tx atx)

include ho'

theorem Shares.execute :
    ResultAlike Eq Shares (st.execute nd tx atx)
      (st'.execute { nd with isHolder := f } tx atx) := by
  unfold Ledger.execute podInput
  rw [h.podObjects ho ho']
  dsimp only
  cases nd.pods _ _ with
  | error e => exact .error rfl
  | ok out =>
    dsimp only
    have hout := h.processOutput hall hall' ho hfresh out
    generalize Ledger.processOutput st nd out tx _ = r at hout ⊢
    generalize Ledger.processOutput st' _ out tx _ = r' at hout ⊢
    cases hout with
    | error heq => exact .error heq
    | ok hs => exact .ok (hs.ensureMutableVersions tx)

theorem Shares.runPod (split : FeeSplit) (withheld : UInt64) :
    OutcomeShares (st.runPod nd tx atx split withheld)
      (st'.runPod { nd with isHolder := f } tx atx split withheld) := by
  unfold Ledger.runPod
  have hexec := h.execute hall hall' ho hfresh ho'
  generalize st.execute nd tx atx = r at hexec ⊢
  generalize st'.execute { nd with isHolder := f } tx atx = r' at hexec ⊢
  cases hexec with
  | error => exact ⟨rfl, h⟩
  | ok hs => exact ⟨rfl, hs⟩

theorem Shares.finishTx (hb : Sharded tx atx → st.ShardBlind nd tx atx) (split : FeeSplit)
    {withheld : UInt64} (hnone : tx.createdObjectsReplication = [] → withheld = 0) :
    OutcomeShares (st.finishTx nd tx atx split withheld)
      (st'.finishTx { nd with isHolder := f } tx atx split withheld) := by
  unfold Ledger.finishTx
  by_cases hsh : Sharded tx atx
  · -- A node runs the call or leaves it, and either way its ledger shares the singletons.
    have hwithheld := hnone hsh.1
    subst hwithheld
    have hbs := hb hsh
    have hbs' : st'.ShardBlind { nd with isHolder := f } tx atx :=
      { refs := fun id hid => (h.singles id).trans (hbs.refs id hid)
        deletions := fun id hid => (h.singles id).trans (hbs.deletions id hid)
        updates := fun out hout o hmem => (hbs.updates out hout o hmem).imp_right
          (h.singles _).trans }
    obtain ⟨hrun, hsplit⟩ := Shares.runOwn hsh hbs split
    obtain ⟨hrun', hsplit'⟩ := Shares.runOwn hsh hbs' split
    split <;> split
    · exact ⟨rfl, h⟩
    · exact ⟨hsplit', h.trans hrun'⟩
    · exact ⟨hsplit.symm, hrun.symm.trans h⟩
    · exact ⟨hsplit'.trans hsplit.symm, hrun.symm.trans (h.trans hrun')⟩
  · have hsame : leavesToHolders { nd with isHolder := f } tx atx ↔ leavesToHolders nd tx atx := by
      by_cases hids : tx.mutableRefIDs = []
      · exact leavesToHolders_congr hids
      · exact iff_of_false (not_leavesToHolders hall' hids hsh) (not_leavesToHolders hall hids hsh)
    by_cases hleave : leavesToHolders nd tx atx
    · rw [if_pos hleave, if_pos (hsame.2 hleave)]
      exact ⟨rfl, h⟩
    · rw [if_neg hleave, if_neg (mt hsame.1 hleave)]
      exact h.runPod hall hall' ho hfresh ho' split withheld

end Both

/-! ## One transaction -/

section Commit

variable {nd : Node} {f : Hash → UInt16 → Bool} {tx : Transaction} {atx : AttestedTransaction}

/-- The gas coin of a transaction that goes on is a singleton. -/
theorem plain_of_proceed {coin : Hash} (h : (st.deductFees nd tx atx).proceed = true)
    (hcoin : tx.txGasCoinID = some coin) : st.Plain coin := by
  have hvalid : st.validateGasCoin tx coin = true := by
    unfold deductFees at h
    rw [hcoin] at h
    dsimp only at h
    split at h
    · cases h
    · split at h
      · cases h
      · rename_i hvalid
        simpa using hvalid
  obtain ⟨o, ho, hrep, -⟩ := validateGasCoin_eq_true.1 hvalid
  intro o' ho'
  rwa [← Option.some.inj (ho.symm.trans ho')]

theorem withheld_of_empty (h : tx.createdObjectsReplication = []) :
    (st.deductFees nd tx atx).withheld = 0 := by
  rcases st.deductFees_cases nd tx atx with
    ⟨proceed, heq⟩ | ⟨coin, o, balance, taken, -, -, ⟨-, heq⟩ | ⟨total, heq⟩⟩
  · rw [heq]
  · rw [heq]
    exact calculateTxFeeSplit_withheld_of_empty h
  · rw [heq]

theorem Keeps.charged {s : Ledger}
    (h : Keeps ((st.deductFees nd tx atx).ledger.WritesPosition nd tx)
      (st.deductFees nd tx atx).ledger s) : Keeps (st.WritesPosition nd tx) st s := by
  refine (Keeps.deductFees st nd tx atx).trans (h.mono fun id => ?_)
  rintro ⟨delegator, coin, validator, amount, hparse, hsingle, hid⟩
  refine ⟨delegator, coin, validator, amount, hparse, fun hv => hsingle ?_, hid⟩
  exact (@Keeps.deductFees (fun _ => False) st nd tx atx).vacant (fun h => h) hv

theorem Blind.settle (h : st.Blind nd tx atx)
    (hproceed : (st.deductFees nd tx atx).proceed = true) :
    (st.deductFees nd tx atx).ledger.SettleBlind nd tx atx := by
  have hk : Keeps (fun _ => False) st (st.deductFees nd tx atx).ledger := .deductFees st nd tx atx
  exact ⟨h.owners.keep hk, h.stake.keep hk, fun coin hcoin =>
    hk.plain (plain_of_proceed hproceed hcoin)⟩

/-- What the pod call starts from still has nothing where it must not. -/
theorem Blind.finish {s : Ledger} (h : st.Blind nd tx atx)
    (hk : Keeps (st.WritesPosition nd tx) st s) :
    s.OwnersPlain tx atx ∧ s.Fresh nd tx atx ∧ (Sharded tx atx → s.ShardBlind nd tx atx) := by
  refine ⟨h.owners.keep hk, ?_, fun hsh => ?_⟩
  · exact { h.fresh with
      vacant := fun i hi => hk.vacant (h.unwritten i hi) (h.fresh.vacant i hi) }
  · have hb := h.sharded hsh
    have hno : ∀ id, ¬ st.WritesPosition nd tx id := by
      rintro id ⟨delegator, coin, validator, amount, hparse, hsingle, -⟩
      exact hsingle
        (hb.refs coin (Transaction.mem_mutableRefIDs_of_first (parseDelegateTx_some hparse).2.2))
    exact {
      refs := fun id hid => hk.vacant (hno id) (hb.refs id hid)
      deletions := fun id hid => hk.vacant (hno id) (hb.deletions id hid)
      updates := fun out hout o ho => (hb.updates out hout o ho).imp_right
        (hk.vacant (hno _)) }

theorem Shares.charged (h : Shares st st') (hb : st.Blind nd tx atx) (hb' : st'.Blind nd tx atx) :
    ChargedAlike Shares nd tx atx (st.deductFees nd tx atx) (st'.deductFees nd tx atx) where
  toFeesAlike := h.deductFees nd tx atx
  handlers hgo := by
    obtain ⟨hledger, -, -, hproceed⟩ := h.deductFees nd tx atx
    exact hledger.handlersAlike nd tx atx (hb.settle hgo) (hb'.settle (hproceed.trans hgo))

theorem Shares.commit (h : Shares st st') (hall : ∀ id, nd.isHolder id 0 = true)
    (hall' : ∀ id, f id 0 = true) (commitRound : Nat) (hb : st.Blind nd tx atx)
    (hb' : st'.Blind nd tx atx) :
    OutcomeShares (commitCharged (st.deductFees nd tx atx) nd tx atx commitRound)
      (commitCharged (st'.deductFees nd tx atx) { nd with isHolder := f } tx atx commitRound) := by
  obtain ⟨hledger, -, -, hproceed⟩ := h.deductFees nd tx atx
  refine (h.charged hb hb').commit ⟨_, _, rfl⟩ Shares.tracker
    (fun hout => ⟨hout.split, hout.ledger⟩) ?_ ?_
  · intro hgo split withheld
    exact hledger.commitDeclaredOps nd tx commitRound _ _ fun coin hcoin =>
      ⟨(hb.settle hgo).gas coin hcoin, (hb'.settle (hproceed.trans hgo)).gas coin hcoin⟩
  · intro s s' hs hr hr'
    obtain ⟨ho, hfresh, hsharded⟩ := hb.finish (.charged (.settleHandlers hr))
    obtain ⟨ho', -, -⟩ := hb'.finish (.charged (.settleHandlers hr'))
    exact hs.finishTx hall hall' ho hfresh ho' hsharded _ withheld_of_empty

/-- What this node stores besides the singletons plays no part in a transaction that
passes the gates. -/
def BlindTx (st : Ledger) (nd : Node) (atx : AttestedTransaction) (commitRound : Nat)
    (verdict : Option ProofError) : Prop :=
  ∀ tx, st.Admits nd atx commitRound verdict tx → st.Blind nd tx atx

/-- Being blind says nothing about the live validators or what the node holds. -/
theorem BlindTx.rewired {commitRound : Nat} {verdict : Option ProofError} {vs : ValidatorSet}
    {holders : Hash → Nat → List Hash}
    (h : BlindTx { st with validators := vs }
      { nd with computeHolders := holders, isHolder := f } atx commitRound verdict) :
    st.BlindTx nd atx commitRound verdict := by
  intro tx hin
  have hb := h tx { hin with }
  exact { hb with
    stake := { hb.stake with }
    fresh := { hb.fresh with }
    sharded := fun hsh => { hb.sharded hsh with } }

theorem BlindTx.holder {commitRound : Nat} {verdict : Option ProofError}
    (h : st.BlindTx { nd with isHolder := f } atx commitRound verdict) :
    st.BlindTx nd atx commitRound verdict :=
  @rewired st _ f _ _ _ st.validators nd.computeHolders h

theorem Blind.admitted (h : st.Blind nd tx atx) : (st.admitted tx).Blind nd tx atx := by
  have hk : Keeps (fun _ => False) st (st.admitted tx) := .of_objects (admitted_objects st tx)
  have hk' : Keeps (st.WritesPosition nd tx) st (st.admitted tx) :=
    .of_objects (admitted_objects st tx)
  obtain ⟨howners, hfresh, hsharded⟩ := h.finish hk'
  exact {
    owners := howners
    stake := h.stake.keep hk
    fresh := hfresh
    unwritten := fun i hi hw => h.unwritten i hi (hw.congr (admitted_objects st tx))
    sharded := hsharded }

/-- One transaction leaves the nodes with the same fees and the same singletons, whatever
either of them holds. -/
theorem Shares.executeTx (h : Shares st st') (hall : ∀ id, nd.isHolder id 0 = true)
    (hall' : ∀ id, f id 0 = true) (commitRound : Nat) (verdict : Option ProofError)
    (hb : st.BlindTx nd atx commitRound verdict) (hb' : st'.BlindTx nd atx commitRound verdict) :
    OutcomeShares (st.executeTx nd atx commitRound verdict)
      (st'.executeTx { nd with isHolder := f } atx commitRound verdict) := by
  refine (h.gates nd atx commitRound verdict).executeTx ⟨_, _, rfl⟩
    (fun hout => ⟨hout.split, hout.ledger⟩) fun hin hin' hs => ?_
  exact hs.commit hall hall' commitRound (hb _ hin).admitted (hb' _ hin').admitted

theorem Shares.bondApplied (h : Shares st st') (f : Hash → UInt16 → Bool) (commitRound : Nat)
    (verdict : Option ProofError) (hb : st.BlindTx nd atx commitRound verdict)
    (hb' : st'.BlindTx nd atx commitRound verdict) :
    st'.bondApplied { nd with isHolder := f } atx commitRound verdict =
      st.bondApplied nd atx commitRound verdict :=
  (h.gates nd atx commitRound verdict).bondApplied ⟨_, _, rfl⟩ fun hin hin' hs =>
    hs.charged (hb _ hin).admitted (hb' _ hin').admitted

theorem Shares.admitsSender {before before' after after' : Ledger} (h : Shares before before')
    (h' : Shares after after') (atx : AttestedTransaction) :
    before'.admitsSender after' atx = before.admitsSender after atx := by
  rw [h.rest, h'.rest]
  rfl

end Commit

end Ledger

end BluePods
