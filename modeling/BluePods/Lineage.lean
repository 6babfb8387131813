import BluePods.Authorization
import BluePods.Interference

/-! The hierarchy along runs of transactions. Version bumps, operations and deletions
close no cycle; an object that a pod creates closes none as long as its identifier is new
to the tracker. -/

namespace BluePods

variable {tx : Transaction} {deposit : Object → UInt64} {out : PodOutput} {inputs : List Object}
open Lib.Forest

/-! ## Rules -/

namespace Ledger

variable {st : Ledger} {nd : Node}

/-- What every transaction of a run keeps holds behind it. -/
theorem run_rule {P : Ledger → Prop} {steps : List CommitStep} (hstart : P st)
    (hstep : ∀ pre s post, steps = pre ++ s :: post → P (st.run pre) → P ((st.run pre).executeTx
      s.node s.atx s.round s.verdict).ledger) : P (st.run steps) := by
  have hprefix : ∀ pre post, steps = pre ++ post → P (st.run pre) := by
    intro pre
    induction pre using List.reverseRecOn with
    | nil =>
      intro _ _
      exact hstart
    | append_singleton pre s ih =>
      intro post hsteps
      rw [List.append_assoc, List.singleton_append] at hsteps
      rw [run, List.foldl_append, List.foldl_cons, List.foldl_nil]
      exact hstep pre s post hsteps (ih _ hsteps)
  exact hprefix steps [] (List.append_nil _).symm

/-- What the tracking of each created object keeps holds behind all of them. -/
theorem trackCreated_rule {P : Nat → Tracker → Prop} {created : List Object} {ot : Tracker}
    (hstart : P 0 ot)
    (hstep : ∀ o i ot, (o, i) ∈ created.zipIdx → P i ot → P (i + 1) (trackCreated nd tx deposit ot
      (o, i))) : P created.length (created.zipIdx.foldl (trackCreated nd tx deposit) ot) := by
  have hrest : ∀ (rest : List Object) (k : Nat) (ot : Tracker),
      (∀ c ∈ rest.zipIdx k, c ∈ created.zipIdx) → P k ot →
        P (k + rest.length) ((rest.zipIdx k).foldl (trackCreated nd tx deposit) ot) := by
    intro rest
    induction rest with
    | nil =>
      intro k ot _ hk
      exact hk
    | cons o rest ih =>
      intro k ot hsub hk
      rw [List.zipIdx_cons, List.forall_mem_cons] at hsub
      rw [List.zipIdx_cons, List.foldl_cons, List.length_cons, Nat.add_comm rest.length,
        ← Nat.add_assoc]
      exact ih (k + 1) _ hsub.2 (hstep o k ot hsub.1 hk)
  simpa using hrest created 0 ot (fun _ hc => hc) hstart

/-- What the checks on an output say of the objects it creates. -/
theorem validateOutput_created (h : st.validateOutput nd out tx inputs = .ok ()) :
    out.createdObjects.length ≤ tx.createdObjectsReplication.length ∧
      ∀ o i, (o, i) ∈ out.createdObjects.zipIdx →
        st.createdParentAllowed o.parentKind o.objectOwner (hashOrZero tx.sender)
          ((List.range i).map (computeObjectID nd.crypto (hashOrZero tx.hash)))
          (st.domainReferencedParents nd tx) = true := by
  simp only [validateOutput, bind, Except.bind, validateCreationLimits] at h
  split_ifs at h with hlimit
  refine ⟨by omega, ?_⟩
  cases hdomains : validateDomainRegistrations out with
  | error e => simp [hdomains] at h
  | ok _ =>
    cases hparents : st.validateCreatedParents nd out tx with
    | error e => simp [hdomains, hparents] at h
    | ok _ =>
      unfold validateCreatedParents at hparents
      dsimp only at hparents
      split at hparents
      · rename_i hall
        intro o i hmem
        exact List.all_eq_true.1 hall (o, i) hmem
      · cases hparents

end Ledger

/-! ## One write -/

namespace Tracker

variable {ids : List Hash} {ot ot' : Tracker} {id x y : Hash}

theorem under_incrementMutableObjects
    (h : Under (edges (ot.incrementMutableObjects tx).getParent) x y) :
    Under (edges ot.getParent) x y := by
  unfold Under edges at h ⊢
  rw [getParent_incrementMutableObjects] at h
  split at h
  · cases hx : ot.getParent x with
    | none => simp [hx] at h
    | some edge => simpa [hx] using h
  · exact h

theorem under_deleteObject (h : Under (edges (ot.deleteObject id).getParent) x y) :
    Under (edges ot.getParent) x y := by
  rw [edges_update (ot.getParent_deleteObject id)] at h
  exact under_of_update_cut (by simp) h

theorem under_foldl_deleteObject (h : Under (edges (ids.foldl deleteObject ot).getParent) x y) :
    Under (edges ot.getParent) x y := by
  induction ids generalizing ot with
  | nil => exact h
  | cons id ids ih => exact under_deleteObject (ih h)

end Tracker

namespace StagedView

variable {s s' : StagedView} {sender : Hash} {refs : List Hash} {op : DeclaredOp}

theorem Stages.acyclic (hs : s.Stages sender refs op s') (h : Acyclic (edges s.getParent)) :
    Acyclic (edges s'.getParent) := by
  cases hs with
  | @reparent id target hkind hobject href hown hinto htargets hownTarget hcycle =>
    rw [edges_update (getParent_stageReparent (parent_of_controls hown).1 op.targetKind target)]
    rcases htargets with hkey | hobj
    · refine h.mono fun a b => under_of_update_cut ?_
      simp [hkey]
    · rw [wouldCycle, hobj, if_neg (by decide)] at hcycle
      rw [hobj]
      exact h.update (cycleWalk_eq_false hcycle).2
  | @delete id =>
    rw [edges_update (getParent_stageDelete id)]
    exact h.mono fun a b => under_of_update_cut (by simp)
  | register | renew | update | transfer | remove => exact h

end StagedView

/-! ## Runs -/

namespace Ledger

variable {x : Hash} {st₁ : Ledger} {st st' : Ledger} {nd : Node} {tx : Transaction}

theorem handleDeclaredOps_acyclic {p : FeeParams} {epoch : UInt64}
    (h : st.handleDeclaredOps p tx epoch = some st')
    (hbefore : Acyclic (edges st.tracker.getParent)) :
    Acyclic (edges st'.tracker.getParent) := by
  obtain ⟨view, sender, -, -, hfold, -, hshows⟩ := handleDeclaredOps_some h
  have hstart := Shows.start st epoch p.maxTermEpochs
  rw [funext hstart.parents] at hbefore
  rw [funext hshows.parents]
  exact (@accepted_rule _ _ _ _ _ _ _ tx (fun s _ => Acyclic (edges s.getParent)) hstart rfl hfold
    hbefore fun t t' u op _ _ _ _ hs hr => hs.acyclic hr).2.1

/-- The identifiers a transaction can create under are new: nothing tracks them, hangs
from them or reaches them through a name, and no two of them are equal. -/
structure CreatesNew (st : Ledger) (nd : Node) (tx : Transaction) : Prop where
  distinct : ∀ i < tx.createdObjectsReplication.length,
    ∀ j < tx.createdObjectsReplication.length,
      computeObjectID nd.crypto (hashOrZero tx.hash) i =
        computeObjectID nd.crypto (hashOrZero tx.hash) j → i = j
  untracked : ∀ i < tx.createdObjectsReplication.length,
    st.tracker.getParent (computeObjectID nd.crypto (hashOrZero tx.hash) i) = none ∧
      computeObjectID nd.crypto (hashOrZero tx.hash) i ∉ tx.mutableRefIDs
  childless : ∀ i < tx.createdObjectsReplication.length, ∀ x,
    ¬ Under (edges st.tracker.getParent) x (computeObjectID nd.crypto (hashOrZero tx.hash) i)
  unnamed : ∀ i < tx.createdObjectsReplication.length,
    computeObjectID nd.crypto (hashOrZero tx.hash) i ∉ st.domainReferencedParents nd tx

theorem under_trackerSettled {y : Hash} (h : Under (edges (st.trackerSettled tx).getParent) x y) :
    Under (edges st.tracker.getParent) x y :=
  Tracker.under_incrementMutableObjects (Tracker.under_foldl_deleteObject h)

theorem getParent_trackerSettled_of_none (h : st.tracker.getParent x = none)
    (hx : x ∉ tx.mutableRefIDs) : (st.trackerSettled tx).getParent x = none := by
  rw [trackerSettled, Tracker.getParent_foldl_deleteObject,
    Tracker.getParent_incrementMutableObjects, if_neg hx, h, ite_self]

section

variable (hnew : st.CreatesNew nd tx) (htracker : st₁.tracker = st.trackerSettled tx)
  (hdomains : st₁.domains = st.domains)

include hnew htracker hdomains

/-- An object parent that the checks allow is not an identifier still to be created. -/
theorem CreatesNew.parent_ne {kind : Byte} {parent sender : Hash} {i j : Nat}
    (hkind : kind ≠ keyRootKind) (hij : i ≤ j) (hj : j < tx.createdObjectsReplication.length)
    (hallowed : st₁.createdParentAllowed kind parent sender
      ((List.range i).map (computeObjectID nd.crypto (hashOrZero tx.hash)))
      (st₁.domainReferencedParents nd tx) = true) :
    parent ≠ computeObjectID nd.crypto (hashOrZero tx.hash) j := by
  rintro rfl
  rw [createdParentAllowed, if_neg hkind, Bool.or_eq_true, decide_eq_true_eq] at hallowed
  rcases hallowed with (hstaged | hnamed) | hcontrols
  · obtain ⟨k, hk, hid⟩ := List.mem_map.1 hstaged
    have hk := List.mem_range.1 hk
    have := hnew.distinct k (by omega) j hj hid
    omega
  · refine hnew.unnamed j hj ?_
    rwa [domainReferencedParents, hdomains] at hnamed
  · obtain ⟨huntracked, hunref⟩ := hnew.untracked j hj
    rw [htracker] at hcontrols
    unfold Tracker.controls Tracker.controllerOf at hcontrols
    rw [controllerWalk_eq] at hcontrols
    have hnone := edges_eq_none.2 (getParent_trackerSettled_of_none huntracked hunref)
    simp [walkDepthLimit, rootOf, hnone] at hcontrols

theorem CreatesNew.acyclic (hvalid : st₁.validateOutput nd out tx inputs = .ok ())
    (h : Acyclic (edges (st.trackerSettled tx).getParent)) :
    Acyclic (edges (out.createdObjects.zipIdx.foldl (trackCreated nd tx deposit)
      (st.trackerSettled tx)).getParent) := by
  obtain ⟨hlimit, hallowed⟩ := validateOutput_created hvalid
  -- what is still to be created has nothing hanging from it
  refine (trackCreated_rule (P := fun i ot => Acyclic (edges ot.getParent) ∧
    ∀ j, i ≤ j → j < tx.createdObjectsReplication.length → ∀ x,
      ¬ Under (edges ot.getParent) x (computeObjectID nd.crypto (hashOrZero tx.hash) j))
    ⟨h, fun j _ hj x hx => hnew.childless j hj x (under_trackerSettled hx)⟩ ?_).1
  rintro o i ot hmem ⟨hacyclic, hvacant⟩
  have hi : i < tx.createdObjectsReplication.length := by
    have := (List.mem_zipIdx hmem).2.1
    omega
  simp only [trackCreated, edges_update (ot.getParent_trackObject
    (computeObjectID nd.crypto (hashOrZero tx.hash) i) o.objectOwner o.parentKind o.version
    o.replication (deposit o)), Option.map_some]
  by_cases hkind : o.parentKind = keyRootKind
  · rw [if_pos hkind]
    have hsub : ∀ a b, Under (Function.update (edges ot.getParent)
        (computeObjectID nd.crypto (hashOrZero tx.hash) i) (some (.inl o.objectOwner))) a b →
        Under (edges ot.getParent) a b := fun a b => under_of_update_cut (by simp)
    exact ⟨hacyclic.mono hsub, fun j hij hj x hx => hvacant j (by omega) hj x (hsub _ _ hx)⟩
  · rw [if_neg hkind]
    have hne : ∀ j, i ≤ j → j < tx.createdObjectsReplication.length →
        o.objectOwner ≠ computeObjectID nd.crypto (hashOrZero tx.hash) j := fun j hij hj =>
      hnew.parent_ne htracker hdomains hkind hij hj (hallowed o i hmem)
    refine ⟨hacyclic.update (not_reaches_of_fresh (hne i le_rfl hi) (hvacant i le_rfl hi)), ?_⟩
    intro j hij hj x hx
    by_cases hxi : x = computeObjectID nd.crypto (hashOrZero tx.hash) i
    · subst hxi
      exact hne j (by omega) hj (under_update_self.1 hx).symm
    · exact hvacant j (by omega) hj x ((under_update_of_ne hxi).1 hx)

end

theorem executeTx_acyclic {atx : AttestedTransaction} {commitRound : Nat}
    {verdict : Option ProofError} (h : Acyclic (edges st.tracker.getParent))
    (hnew : ∀ tx, atx.transaction = some tx → st.CreatesNew nd tx) :
    Acyclic (edges (st.executeTx nd atx commitRound verdict).ledger.tracker.getParent) := by
  have hstep := st.executeTx_tracker nd atx commitRound verdict
  generalize (st.executeTx nd atx commitRound verdict).ledger.tracker = ot at hstep ⊢
  cases hstep with
  | kept => exact h
  | bumped => exact h.mono fun a b => Tracker.under_incrementMutableObjects
  | operated hadmits _ htracker haccepted =>
    refine handleDeclaredOps_acyclic haccepted ?_
    rw [htracker]
    exact h.mono fun a b => Tracker.under_incrementMutableObjects
  | deleted => exact h.mono fun a b => under_trackerSettled
  | created hadmits _ _ _ _ _ htracker hdomains _ hvalid =>
    exact (hnew _ hadmits.transaction).acyclic htracker hdomains hvalid
      (h.mono fun a b => under_trackerSettled)

/-- A hierarchy without cycles has none behind any run of transactions that create
objects under new identifiers only. -/
theorem run_acyclic (st : Ledger) (steps : List CommitStep)
    (hstart : Acyclic (edges st.tracker.getParent))
    (hnew : ∀ pre s post, steps = pre ++ s :: post → ∀ tx, s.atx.transaction = some tx →
      (st.run pre).CreatesNew s.node tx) :
    Acyclic (edges (st.run steps).tracker.getParent) :=
  run_rule (P := fun st => Acyclic (edges st.tracker.getParent)) hstart
    fun pre s post hsplit h => executeTx_acyclic h (hnew pre s post hsplit)

end Ledger

/-- The identifier of the first object a transaction creates. A pod is given the
transaction with its hash, so it can compute it as well. -/
def firstCreated (tx : Transaction) : Hash := computeObjectID soloCrypto (hashOrZero tx.hash) 0

def createdUnder (kind : Byte) (parent : Hash) : Object where
  id := []
  version := 0
  owner := parent.val
  replication := 0
  content := []
  parentKind := kind

/-- A pod that creates an object under the first user's key, and a second one under the
first. -/
def nestingPod (_ : Hash) (input : PodInput) : Except Unit (Option PodOutput) :=
  .ok (some { createdObjects := [createdUnder keyRootKind (idOf 1),
    createdUnder objectParentKind (firstCreated input.transaction)] })

def nestingStep : CommitStep where
  node := soloNode nestingPod
  atx := creatingTx (idOf 11) [0, 0]
  round := 0
  verdict := none

theorem run_acyclic_nesting :
    (soloLedger.run [nestingStep]).tracker.keys.length = 3 ∧
      Acyclic (edges (soloLedger.run [nestingStep]).tracker.getParent) := by
  refine ⟨by decide +kernel, soloLedger.run_acyclic _ ?_ ?_⟩
  · intro a ha
    obtain ⟨b, hb, -⟩ := Relation.TransGen.head'_iff.1 ha
    cases hb
  · intro pre s post hsplit tx htx
    cases pre with
    | cons t pre => simp at hsplit
    | nil =>
      obtain ⟨rfl, -⟩ := List.cons.inj hsplit
      rw [← Option.some.inj htx]
      exact ⟨by decide +kernel, by decide +kernel, fun i _ x hx => (by cases hx), by decide +kernel⟩

/-- A pod that creates an object under itself. -/
def loopingPod (_ : Hash) (input : PodInput) : Except Unit (Option PodOutput) :=
  .ok (some { createdObjects := [createdUnder objectParentKind (firstCreated input.transaction)] })

/-- A call of that pod in the name of the zero key, sponsored by the first user. -/
def loopingTx : Transaction :=
  signedTx
    { sender := zeroHash.val
      pod := (idOf 7).val
      functionName := ascii "create"
      gasCoin := (idOf 11).val
      feePayer := (idOf 1).val
      validUntil := 1
      maxGas := 100
      createdObjectsReplication := [0] }

/-- The second user references the object that the call will create. -/
def claimingTx : Transaction :=
  signedTx
    { sender := (idOf 2).val
      pod := (idOf 7).val
      functionName := ascii "noop"
      mutableRefs := [{ id := (firstCreated loopingTx).val }] }

def loopingSteps : List CommitStep :=
  [claimingTx, loopingTx].map fun tx =>
    { node := soloNode loopingPod
      atx := { transaction := some tx }
      round := 0
      verdict := none }

/-- The first transaction leaves an entry for the identifier under the zero key, so the
second passes the check on created parents, and the object hangs from itself. -/
theorem loopingSteps_close_cycle :
    Acyclic (edges soloLedger.tracker.getParent) ∧
      (loopingSteps.map fun s => verify s.node.crypto s.node.epochs 0 s.atx) = [none, none] ∧
      (soloLedger.run loopingSteps).tracker.getParent (firstCreated loopingTx) =
        some (objectParentKind, firstCreated loopingTx) ∧
      ¬ Acyclic (edges (soloLedger.run loopingSteps).tracker.getParent) := by
  have hloop : (soloLedger.run loopingSteps).tracker.getParent (firstCreated loopingTx) =
      some (objectParentKind, firstCreated loopingTx) := by decide +kernel
  refine ⟨?_, by decide +kernel, hloop, fun h => ?_⟩
  · intro a ha
    obtain ⟨b, hb, -⟩ := Relation.TransGen.head'_iff.1 ha
    cases hb
  · exact h _ (.single (edges_of_object hloop (by decide)))

end BluePods
