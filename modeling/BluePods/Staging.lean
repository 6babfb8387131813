import BluePods.Hierarchy
import BluePods.Steps

/-! The staged view against the state it stands for: validating a list of declared
operations on the overlay and applying it to the tracker and the registry give the same
hierarchy, the same counts and the same names, operation by operation. -/

namespace BluePods
open Lib.Forest Tracker Ledger StagedView

namespace StagedView

/-! ## What an accepted operation is -/

/-- The operations a staged view accepts, with the view each leaves. -/
inductive Stages (s : StagedView) (sender : Hash) (refs : List Hash) (op : DeclaredOp) :
    StagedView → Prop
  | reparent {id target : Hash} (kind : op.kind = reparentOp)
      (object : hash32 op.objectID = some id)
      (ref : id ∈ refs) (own : s.controls sender id = true) (into : hash32 op.target = some target)
      (targetKind : op.targetKind = keyRootKind ∨ op.targetKind = objectParentKind)
      (ownTarget : op.targetKind = objectParentKind → s.controls sender target = true)
      (acyclic : s.wouldCycle id op.targetKind target = false) :
      Stages s sender refs op (s.stageReparent id op.targetKind target)
  | delete {id : Hash} (kind : op.kind = deleteOp) (object : hash32 op.objectID = some id)
      (ref : id ∈ refs) (own : s.controls sender id = true) (childless : s.childCount id = 0) :
      Stages s sender refs op (s.stageDelete id)
  | register {objectID : Hash} {expiry : UInt64} (kind : op.kind = domainRegisterOp)
      (free : s.getDomain op.name = none) (object : hash32 op.objectID = some objectID)
      (own : s.controls sender objectID = true)
      (term : domainExpiry 0 s.epoch op.termEpochs s.maxTerm = some expiry) :
      Stages s sender refs op (s.stageDomain op.name { objectID, owner := sender, expiry })
  | renew {leaf : DomainLeaf} {expiry : UInt64} (kind : op.kind = domainRenewOp)
      (owned : s.ownedDomain sender op.name = some leaf)
      (term : domainExpiry leaf.expiry s.epoch op.termEpochs s.maxTerm = some expiry) :
      Stages s sender refs op (s.stageDomain op.name { leaf with expiry })
  | update {leaf : DomainLeaf} {objectID : Hash} (kind : op.kind = domainUpdateOp)
      (owned : s.ownedDomain sender op.name = some leaf)
      (object : hash32 op.objectID = some objectID) (own : s.controls sender objectID = true) :
      Stages s sender refs op (s.stageDomain op.name { leaf with objectID })
  | transfer {leaf : DomainLeaf} {owner : Hash} (kind : op.kind = domainTransferOp)
      (owned : s.ownedDomain sender op.name = some leaf) (into : hash32 op.target = some owner) :
      Stages s sender refs op (s.stageDomain op.name { leaf with owner })
  | remove {leaf : DomainLeaf} (kind : op.kind = domainDeleteOp)
      (owned : s.ownedDomain sender op.name = some leaf) :
      Stages s sender refs op
        { s with domains := s.domains.insert op.name ⟨zeroHash, zeroHash, 0⟩
                 domainRemoved := op.name :: s.domainRemoved }

variable {s s' : StagedView} {sender : Hash} {refs : List Hash} {op : DeclaredOp}

theorem stages_of_validateDomainOp (h : s.validateDomainOp sender op = some s') :
    s.Stages sender refs op s' := by
  unfold validateDomainOp at h
  split_ifs at h with hregister hrenew hupdate htransfer hdelete
  · simp [validateDomainRegister, Option.bind_eq_some_iff, -Subtype.exists] at h
    obtain ⟨-, hfree, -, objectID, hobject, hown, expiry, hterm, rfl⟩ := h
    exact .register hregister (by simpa using hfree) hobject hown hterm
  · simp [validateDomainRenew, Option.bind_eq_some_iff, -Subtype.exists] at h
    obtain ⟨leaf, howned, expiry, hterm, rfl⟩ := h
    exact .renew hrenew howned hterm
  · simp [validateDomainUpdate, Option.bind_eq_some_iff, -Subtype.exists] at h
    obtain ⟨leaf, howned, objectID, hobject, hown, rfl⟩ := h
    exact .update hupdate howned hobject hown
  · simp [validateDomainTransfer, Option.bind_eq_some_iff, -Subtype.exists] at h
    obtain ⟨leaf, howned, owner, hinto, -, rfl⟩ := h
    exact .transfer htransfer howned hinto
  · simp [validateDomainDelete, Option.bind_eq_some_iff, -Subtype.exists] at h
    obtain ⟨⟨leaf, howned⟩, rfl⟩ := h
    exact .remove hdelete howned

theorem stages_of_validate (h : s.validate sender op refs = some s') :
    s.Stages sender refs op s' := by
  unfold validate at h
  split_ifs at h with hlast hreparent hdelete
  · simp [validateReparent, Option.bind_eq_some_iff, -Subtype.exists] at h
    obtain ⟨id, hobject, ⟨href, hown⟩, target, hinto, hkind, hownTarget, hcycle, rfl⟩ := h
    refine .reparent hreparent hobject href hown hinto ?_ hownTarget hcycle
    by_cases h0 : op.targetKind = keyRootKind
    · exact .inl h0
    · exact .inr (hkind h0)
  · simp [validateDelete, Option.bind_eq_some_iff, -Subtype.exists] at h
    obtain ⟨id, hobject, ⟨href, hown⟩, hchildless, rfl⟩ := h
    exact .delete hdelete hobject href hown hchildless
  · exact stages_of_validateDomainOp h

/-! ## What staging does to the view -/

variable {id : Hash}

/-- Control under the view, as a climb. -/
theorem controls_eq_true :
    s.controls sender id = true ↔ ∃ n ≤ walkDepthLimit, Rooted (edges s.getParent) id sender n := by
  rw [controls, decide_eq_true_iff, controllerWalk_eq_some]

/-- A controlled object is tracked, and so is its object parent, which is another one. -/
theorem parent_of_controls (hown : s.controls sender id = true) :
    s.getParent id ≠ none ∧
      ∀ q, s.getParent id = some (objectParentKind, q) → s.getParent q ≠ none ∧ q ≠ id := by
  obtain ⟨n, -, hroot⟩ := controls_eq_true.1 hown
  refine ⟨fun hnone => hroot.ne_none (edges_eq_none.2 hnone), fun q hedge => ?_⟩
  have hup := edges_of_object hedge (by decide)
  cases hroot with
  | root hkey => simp [hup] at hkey
  | @climb _ b _ n hb hroot =>
    rw [hup, Option.some.injEq, Sum.inr.injEq] at hb
    subst hb
    refine ⟨fun hnone => hroot.ne_none (edges_eq_none.2 hnone), ?_⟩
    rintro rfl
    have := (hroot.unique (.climb hup hroot)).2
    omega

theorem notMem_deleted (h : s.getParent id ≠ none) : id ∉ s.deleted := by
  intro hmem
  simp [getParent, hmem] at h

@[simp] theorem getParent_addChildDelta (id : Hash) (delta : Int) :
    (s.addChildDelta id delta).getParent = s.getParent := rfl

@[simp] theorem getParent_releaseEdge (id : Hash) : (s.releaseEdge id).getParent = s.getParent := by
  unfold releaseEdge
  split
  · split <;> rfl
  · rfl

theorem getParent_stageReparent (h : s.getParent id ≠ none) (kind : Byte) (parent x : Hash) :
    (s.stageReparent id kind parent).getParent x =
      if x = id then some (kind, parent) else s.getParent x := by
  have hfree := notMem_deleted (s := s.releaseEdge id) (by simpa using h)
  have hput : ∀ t : StagedView, id ∉ t.deleted →
      getParent { t with parents := t.parents.insert id (kind, parent) } x =
        if x = id then some (kind, parent) else t.getParent x := by
    intro t ht
    by_cases hx : x = id
    · subst hx
      simp [getParent, ht]
    · simp [getParent, AList.lookup_insert_ne hx, hx]
  unfold stageReparent
  split
  · rw [getParent_addChildDelta, hput _ hfree, getParent_releaseEdge]
  · rw [hput _ hfree, getParent_releaseEdge]

theorem getParent_stageDelete (id x : Hash) :
    (s.stageDelete id).getParent x = if x = id then none else s.getParent x := by
  have hput : ∀ t : StagedView, getParent { t with deleted := id :: t.deleted } x =
      if x = id then none else t.getParent x := by
    by_cases hx : x = id
    · simp [getParent, hx]
    · simp [getParent, hx]
  rw [stageDelete, hput, getParent_releaseEdge]

/-- The staged child count before it is floored and cut. -/
def stagedCount (s : StagedView) (q : Hash) : Int :=
  (s.ot.childCount q).toNat + (s.childDelta.lookup q).getD 0

variable {q : Hash} {name : Bytes} {edge : Option (Byte × Hash)}

theorem childCount_of_nonneg (h : 0 ≤ s.stagedCount q) :
    s.childCount q = UInt32.ofInt (s.stagedCount q) := by
  have hlt : ¬ s.stagedCount q < 0 := by omega
  simp only [childCount, stagedCount] at hlt ⊢
  rw [if_neg hlt]

theorem childCount_congr (h : s'.stagedCount q = s.stagedCount q) :
    s'.childCount q = s.childCount q := by
  simp only [stagedCount] at h
  simp only [childCount, h]

theorem stagedCount_addChildDelta (id : Hash) (delta : Int) (q : Hash) :
    (s.addChildDelta id delta).stagedCount q = s.stagedCount q + if q = id then delta else 0 := by
  unfold stagedCount addChildDelta
  by_cases hq : q = id
  · subst hq
    simp
    omega
  · simp [AList.lookup_insert_ne hq, hq]

theorem stagedCount_releaseEdge (id q : Hash) :
    (s.releaseEdge id).stagedCount q = s.stagedCount q - countsFor (s.getParent id) q := by
  unfold releaseEdge
  match h : s.getParent id with
  | none => simp [countsFor]
  | some (kind, parent) =>
    by_cases hkind : kind = objectParentKind
    · rw [hkind]
      dsimp only
      rw [if_pos rfl, stagedCount_addChildDelta]
      by_cases hq : q = parent
      · simp [countsFor, hq]
        omega
      · simp [countsFor, hq, Ne.symm hq]
    · simp [countsFor, hkind]

theorem stagedCount_stageReparent (id : Hash) (kind : Byte) (parent q : Hash) :
    (s.stageReparent id kind parent).stagedCount q =
      s.stagedCount q - countsFor (s.getParent id) q + countsFor (some (kind, parent)) q := by
  have hput : stagedCount { s.releaseEdge id with
      parents := (s.releaseEdge id).parents.insert id (kind, parent) } q =
        s.stagedCount q - countsFor (s.getParent id) q := stagedCount_releaseEdge id q
  unfold stageReparent
  by_cases hkind : kind = objectParentKind
  · rw [if_pos hkind, stagedCount_addChildDelta, hput]
    by_cases hq : q = parent
    · simp [countsFor, hq, hkind]
    · simp [countsFor, hq, Ne.symm hq]
  · rw [if_neg hkind, hput]
    simp [countsFor, hkind]

theorem stagedCount_stageDelete (id q : Hash) :
    (s.stageDelete id).stagedCount q = s.stagedCount q - countsFor (s.getParent id) q :=
  stagedCount_releaseEdge id q

/-! ## Names under the view -/

theorem getDomain_stageDomain (name : Bytes) (leaf : DomainLeaf) (x : Bytes) :
    (s.stageDomain name leaf).getDomain x = if x = name then some leaf else s.getDomain x := by
  by_cases hx : x = name
  · subst hx
    simp [getDomain, stageDomain]
  · simp [getDomain, stageDomain, AList.lookup_insert_ne hx, hx]

theorem getDomain_removed (name : Bytes) (leaf : DomainLeaf) (x : Bytes) :
    getDomain { s with domains := s.domains.insert name leaf,
                       domainRemoved := name :: s.domainRemoved } x =
      if x = name then none else s.getDomain x := by
  by_cases hx : x = name
  · simp [getDomain, hx]
  · simp [getDomain, AList.lookup_insert_ne hx, hx]

theorem getDomain_releaseEdge (id : Hash) (x : Bytes) :
    (s.releaseEdge id).getDomain x = s.getDomain x := by
  unfold releaseEdge
  split
  · split <;> rfl
  · rfl

theorem getDomain_stageReparent (id : Hash) (kind : Byte) (parent : Hash) (x : Bytes) :
    (s.stageReparent id kind parent).getDomain x = s.getDomain x := by
  rw [← s.getDomain_releaseEdge id]
  unfold stageReparent
  split <;> rfl

theorem getDomain_stageDelete (id : Hash) (x : Bytes) :
    (s.stageDelete id).getDomain x = s.getDomain x :=
  getDomain_releaseEdge id x

theorem getDomain_of_ownedDomain {leaf : DomainLeaf} (h : s.ownedDomain sender name = some leaf) :
    s.getDomain name = some leaf ∧ leaf.owner = sender := by
  simp [ownedDomain, Option.bind_eq_some_iff] at h
  exact ⟨h.1, h.2.1⟩

/-- An accepted operation writes no name but its own. -/
theorem Stages.getDomain_of_ne (h : s.Stages sender refs op s') (hname : name ≠ op.name) :
    s'.getDomain name = s.getDomain name := by
  cases h with
  | reparent => exact getDomain_stageReparent ..
  | delete => exact getDomain_stageDelete ..
  | register | renew | update | transfer => rw [getDomain_stageDomain, if_neg hname]
  | remove => rw [getDomain_removed, if_neg hname]

theorem releaseEdge_frame (id : Hash) :
    (s.releaseEdge id).epoch = s.epoch ∧ (s.releaseEdge id).maxTerm = s.maxTerm := by
  unfold releaseEdge
  split
  · split <;> exact ⟨rfl, rfl⟩
  · exact ⟨rfl, rfl⟩

/-- The terms a list is measured against do not change along it. -/
theorem Stages.frame (h : s.Stages sender refs op s') :
    s'.epoch = s.epoch ∧ s'.maxTerm = s.maxTerm := by
  cases h with
  | reparent =>
    unfold stageReparent
    split <;> exact s.releaseEdge_frame _
  | delete => exact s.releaseEdge_frame _
  | register | renew | update | transfer | remove => exact ⟨rfl, rfl⟩

theorem accepted_cons {ops : List DeclaredOp}
    (h : (op :: ops).foldlM (fun view op => view.validate sender op refs) s = some s') :
    ∃ s₁, s.validate sender op refs = some s₁ ∧
      ops.foldlM (fun view op => view.validate sender op refs) s₁ = some s' := by
  rwa [List.foldlM_cons, Option.bind_eq_bind, Option.bind_eq_some_iff] at h

end StagedView

/-! ## What applying does to tracker and registry -/

namespace Ledger

variable (st : Ledger) (op : DeclaredOp)

theorem applyReparent_tracker : (st.applyReparent op).tracker =
    st.tracker.setParent (toHash op.objectID) op.targetKind (toHash op.target) := by
  unfold applyReparent
  dsimp only
  split <;> rfl

theorem applyReparent_domains : (st.applyReparent op).domains = st.domains := by
  unfold applyReparent
  dsimp only
  split <;> rfl

theorem applyDelete_tracker (p : FeeParams) (gasCoinID : Option Hash) :
    (st.applyDelete p gasCoinID op).tracker = st.tracker.deleteObject (toHash op.objectID) :=
  (st.settleDeletion_frame p _ gasCoinID).1

theorem applyDelete_domains (p : FeeParams) (gasCoinID : Option Hash) :
    (st.applyDelete p gasCoinID op).domains = st.domains :=
  (st.settleDeletion_frame p _ gasCoinID).2

theorem applyDomainOp_tracker (sender : Hash) (epoch maxTerm : UInt64) :
    (st.applyDomainOp sender epoch maxTerm op).tracker = st.tracker := by
  rw [applyDomainOp_eq]

theorem lookup_setDomainLeaf (name : Bytes) (leaf : DomainLeaf) (x : Bytes) :
    (st.setDomainLeaf name leaf).domains.lookup x =
      if x = name then some leaf else st.domains.lookup x := by
  by_cases hx : x = name
  · subst hx
    simp [setDomainLeaf]
  · simp [setDomainLeaf, AList.lookup_insert_ne hx, hx]

theorem lookup_applyDomainDelete (x : Bytes) :
    (st.applyDomainDelete op).domains.lookup x =
      if x = op.name then none else st.domains.lookup x := by
  by_cases hx : x = op.name
  · subst hx
    simp [applyDomainDelete, AList.lookup_erase]
  · simp [applyDomainDelete, AList.lookup_erase_ne hx, hx]

/-! ## Operations that take effect -/

/-- An edge whose count can be kept: a key's, or one to a tracked object. -/
def countable (st : Ledger) (edge : Option (Byte × Hash)) : Bool :=
  match edge with
  | none => true
  | some (kind, parent) => kind ≠ objectParentKind || (st.tracker.getParent parent).isSome

/-- The apply step of an operation meets none of the cases that it passes over in
silence: an untracked object, an object parent whose count it cannot keep, a name that is
not registered, a term that it does not grant. -/
def takesEffect (st : Ledger) (epoch maxTerm : UInt64) (op : DeclaredOp) : Bool :=
  let edge := st.tracker.getParent (toHash op.objectID)
  if op.kind = reparentOp then
    edge.isSome && st.countable edge && st.countable (some (op.targetKind, toHash op.target))
  else if op.kind = deleteOp then edge.isSome && st.countable edge
  else if op.kind = domainRegisterOp then
    (domainExpiry 0 epoch op.termEpochs maxTerm).isSome
  else if op.kind = domainRenewOp then
    ((st.domains.lookup op.name).bind fun leaf =>
      domainExpiry leaf.expiry epoch op.termEpochs maxTerm).isSome
  else if op.kind = domainUpdateOp ∨ op.kind = domainTransferOp ∨ op.kind = domainDeleteOp then
    (st.domains.lookup op.name).isSome
  else false

theorem countable_of_tracked {st : Ledger}
    (h : ∀ q, edge = some (objectParentKind, q) → st.tracker.getParent q ≠ none) :
    st.countable edge = true := by
  match edge with
  | none => rfl
  | some (kind, parent) =>
    by_cases hkind : kind = objectParentKind
    · subst hkind
      simpa [countable, Option.isSome_iff_ne_none] using h parent rfl
    · simp [countable, hkind]

end Ledger

/-! ## The simulation -/

/-- The overlay and a ledger show the same hierarchy and the same names. -/
structure Shows (s : StagedView) (st : Ledger) : Prop where
  parents : ∀ id, st.tracker.getParent id = s.getParent id
  domains : ∀ name, st.domains.lookup name = s.getDomain name

namespace Shows

variable {s s' : StagedView} {st st' : Ledger} {sender id target : Hash} {kind : Byte}
  {refs : List Hash} {op : DeclaredOp}

theorem start (st : Ledger) (epoch maxTerm : UInt64) :
    Shows { ot := st.tracker, ds := st.domains, epoch, maxTerm } st :=
  ⟨fun id => by simp [StagedView.getParent], fun name => by simp [StagedView.getDomain]⟩

theorem reparent (h : Shows s st) (hid : s.getParent id ≠ none)
    (htracker : st'.tracker = st.tracker.setParent id kind target)
    (hdomains : st'.domains = st.domains) : Shows (s.stageReparent id kind target) st' where
  parents x := by
    rw [htracker, getParent_setParent, getParent_stageReparent hid, h.parents]
  domains name := by rw [hdomains, h.domains, getDomain_stageReparent]

theorem delete (h : Shows s st) (htracker : st'.tracker = st.tracker.deleteObject id)
    (hdomains : st'.domains = st.domains) : Shows (s.stageDelete id) st' where
  parents x := by
    rw [htracker, getParent_deleteObject, getParent_stageDelete, h.parents]
  domains name := by rw [hdomains, h.domains, getDomain_stageDelete]

theorem domain (h : Shows s st) {leaf : Option DomainLeaf} (hparents : s'.getParent = s.getParent)
    (hview : ∀ x, s'.getDomain x = if x = name then leaf else s.getDomain x)
    (htracker : st'.tracker = st.tracker)
    (hdomains : ∀ x, st'.domains.lookup x = if x = name then leaf else st.domains.lookup x) :
    Shows s' st' where
  parents x := by rw [htracker, hparents, h.parents]
  domains x := by rw [hdomains, hview, h.domains]

theorem stageDomain (h : Shows s st) (name : Bytes) (leaf : DomainLeaf) :
    Shows (s.stageDomain name leaf) (st.setDomainLeaf name leaf) :=
  h.domain rfl (getDomain_stageDomain name leaf) rfl (st.lookup_setDomainLeaf name leaf)

theorem leaf (h : Shows s st) {leaf : DomainLeaf} (howned : s.ownedDomain sender name = some leaf) :
    st.domains.lookup name = some leaf :=
  (h.domains name).trans (getDomain_of_ownedDomain howned).1

-- the kinds are told apart by their codes
attribute [local simp] reparentOp deleteOp domainRegisterOp domainRenewOp domainUpdateOp
  domainTransferOp domainDeleteOp

/-- One accepted operation: the apply step takes effect, and the view and the ledger stay
alike. -/
theorem step (h : Shows s st) (p : FeeParams) (tx : Transaction)
    (hterm : s.maxTerm = p.maxTermEpochs) (hs : s.Stages sender refs op s') :
    Shows s' (applyDeclaredOp p tx sender s.epoch st op) ∧
      st.takesEffect s.epoch s.maxTerm op = true := by
  cases hs with
  | @reparent id target hkind hobject href hown hinto htargets hownTarget hcycle =>
    obtain ⟨hid, hup⟩ := parent_of_controls hown
    constructor
    · rw [applyDeclaredOp, if_pos hkind]
      refine h.reparent hid ?_ (st.applyReparent_domains op)
      rw [applyReparent_tracker, toHash_of_hash32 hobject, toHash_of_hash32 hinto]
    · simp only [Ledger.takesEffect, hkind, if_true, toHash_of_hash32 hobject,
        toHash_of_hash32 hinto, Bool.and_eq_true, Option.isSome_iff_ne_none, h.parents]
      refine ⟨⟨hid, countable_of_tracked fun q hq => ?_⟩,
        countable_of_tracked fun q hq => ?_⟩
      · rw [h.parents]
        exact (hup q hq).1
      · obtain ⟨hk, rfl⟩ := Prod.mk.inj (Option.some.inj hq)
        rw [h.parents]
        exact (parent_of_controls (hownTarget hk)).1
  | @delete id hkind hobject href hown hchildless =>
    obtain ⟨hid, hup⟩ := parent_of_controls hown
    have hnot : op.kind ≠ reparentOp := by rw [hkind]; decide
    constructor
    · rw [applyDeclaredOp, if_neg hnot, if_pos hkind]
      refine h.delete ?_ (st.applyDelete_domains op p _)
      rw [applyDelete_tracker, toHash_of_hash32 hobject]
    · simp only [Ledger.takesEffect, if_neg hnot, if_pos hkind, toHash_of_hash32 hobject,
        Bool.and_eq_true, Option.isSome_iff_ne_none, h.parents]
      refine ⟨hid, countable_of_tracked fun q hq => ?_⟩
      rw [h.parents]
      exact (hup q hq).1
  | @register objectID expiry hkind hfree hobject hown hexpiry =>
    have happly : applyDeclaredOp p tx sender s.epoch st op =
        st.setDomainLeaf op.name { objectID, owner := sender, expiry } := by
      simp [applyDeclaredOp, applyDomainOp, hkind, applyDomainRegister,
        ← hterm, hexpiry, toHash_of_hash32 hobject]
    exact ⟨happly ▸ h.stageDomain .., by simp [Ledger.takesEffect, hkind, hexpiry]⟩
  | @renew leaf expiry hkind howned hexpiry =>
    have hleaf := h.leaf howned
    have happly : applyDeclaredOp p tx sender s.epoch st op =
        st.setDomainLeaf op.name { leaf with expiry } := by
      simp [applyDeclaredOp, applyDomainOp, hkind, applyDomainRenew,
        rewriteDomainLeaf, ← hterm, hexpiry, hleaf]
    exact ⟨happly ▸ h.stageDomain .., by simp [Ledger.takesEffect, hkind, hleaf, hexpiry]⟩
  | @update leaf objectID hkind howned hobject hown =>
    have hleaf := h.leaf howned
    have happly : applyDeclaredOp p tx sender s.epoch st op =
        st.setDomainLeaf op.name { leaf with objectID } := by
      simp [applyDeclaredOp, applyDomainOp, hkind, applyDomainUpdate,
        rewriteDomainLeaf, hleaf, toHash_of_hash32 hobject]
    exact ⟨happly ▸ h.stageDomain .., by simp [Ledger.takesEffect, hkind, hleaf]⟩
  | @transfer leaf owner hkind howned hinto =>
    have hleaf := h.leaf howned
    have happly : applyDeclaredOp p tx sender s.epoch st op =
        st.setDomainLeaf op.name { leaf with owner } := by
      simp [applyDeclaredOp, applyDomainOp, hkind, applyDomainTransfer,
        rewriteDomainLeaf, hleaf, toHash_of_hash32 hinto]
    exact ⟨happly ▸ h.stageDomain .., by simp [Ledger.takesEffect, hkind, hleaf]⟩
  | @remove leaf hkind howned =>
    have hleaf := h.leaf howned
    have happly : applyDeclaredOp p tx sender s.epoch st op = st.applyDomainDelete op := by
      simp [applyDeclaredOp, applyDomainOp, hkind]
    refine ⟨?_, by simp [Ledger.takesEffect, hkind, hleaf]⟩
    rw [happly]
    exact h.domain rfl (getDomain_removed _ _) rfl (st.lookup_applyDomainDelete op)

end Shows

/-! ## Counts -/

/-- The counts agree as well, and the staged ones cover the counted children, so that they
never fall below zero. -/
structure Mirrors (s : StagedView) (st : Ledger) : Prop extends Shows s st where
  counts : ∀ q, st.tracker.childCount q = s.childCount q
  covered : ∀ q, st.tracker.getParent q ≠ none → (st.tracker.counted q : Int) ≤ s.stagedCount q

namespace Mirrors

variable {s s' : StagedView} {st st' : Ledger} {sender id target : Hash} {kind : Byte}
  {refs : List Hash} {op : DeclaredOp}

theorem countsFor_eq_zero (h : edge ≠ some (objectParentKind, q)) : countsFor edge q = 0 :=
  if_neg h

theorem ofInt_natCast (n : Nat) : UInt32.ofInt n = UInt32.ofNat n := by
  rw [← UInt32.toNat_inj]
  simp [UInt32.ofInt]
  omega

theorem ofInt_move {staged : Int} {old new : Nat} {count : UInt32}
    (h : count = UInt32.ofInt staged) :
    count - UInt32.ofNat old + UInt32.ofNat new = UInt32.ofInt (staged - old + new) := by
  rw [h, UInt32.ofInt_add, sub_eq_add_neg staged, UInt32.ofInt_add, UInt32.ofInt_neg,
    ofInt_natCast, ofInt_natCast, UInt32.sub_eq_add_neg]

theorem start {st : Ledger} (hcounts : st.tracker.CountsCover) (epoch maxTerm : UInt64) :
    Mirrors { ot := st.tracker, ds := st.domains, epoch, maxTerm } st := by
  have hstaged : ∀ q, stagedCount
      { ot := st.tracker, ds := st.domains, epoch, maxTerm } q =
        (st.tracker.childCount q).toNat := by
    simp [stagedCount]
  refine ⟨.start st epoch maxTerm, fun q => ?_, fun q hq => ?_⟩
  · rw [childCount_of_nonneg (by rw [hstaged]; omega), hstaged, ofInt_natCast,
      UInt32.ofNat_toNat]
  · rw [hstaged]
    exact_mod_cast hcounts q hq

/-- An object that is re-hung or dropped leaves the old parent's count and enters the new
one's. -/
theorem moved (h : Mirrors s st) (hid : s.getParent id ≠ none)
    (hup : ∀ q, s.getParent id = some (objectParentKind, q) → s.getParent q ≠ none ∧ q ≠ id)
    (hto : ∀ q, edge = some (objectParentKind, q) → s.getParent q ≠ none)
    (hgone : edge = none → s.childCount id = 0) (hshows : Shows s' st')
    (hparents : ∀ q, st'.tracker.getParent q = if q = id then edge else st.tracker.getParent q)
    (hcounted : ∀ q, st'.tracker.counted q + countsFor (st.tracker.getParent id) q =
      st.tracker.counted q + countsFor edge q)
    (hcounts : ∀ q, st'.tracker.getParent q ≠ none → st'.tracker.childCount q =
      st.tracker.childCount q - UInt32.ofNat (countsFor (st.tracker.getParent id) q) +
        UInt32.ofNat (countsFor edge q))
    (hstaged : ∀ q, s'.stagedCount q =
      s.stagedCount q - countsFor (s.getParent id) q + countsFor edge q) : Mirrors s' st' := by
  have hbefore : ∀ q, st'.tracker.getParent q ≠ none →
      (st.tracker.counted q : Int) ≤ s.stagedCount q := by
    intro q hq
    apply h.covered
    rw [hparents] at hq
    by_cases hqid : q = id
    · rw [hqid, h.parents]
      exact hid
    · rwa [if_neg hqid] at hq
  have hcovered : ∀ q, st'.tracker.getParent q ≠ none →
      (st'.tracker.counted q : Int) ≤ s'.stagedCount q := by
    intro q hq
    have hle := hbefore q hq
    have hmove := hcounted q
    rw [hstaged, ← h.parents]
    omega
  refine ⟨hshows, fun q => ?_, hcovered⟩
  by_cases hq : st'.tracker.getParent q = none
  · -- neither end of the moved edge is untracked
    have hout : q ≠ id → s.getParent q = none := fun hqid => by
      rwa [hparents, if_neg hqid, h.parents] at hq
    have hold : countsFor (s.getParent id) q = 0 := countsFor_eq_zero fun hedge =>
      (hup q hedge).1 (hout (hup q hedge).2)
    have hnew : edge ≠ some (objectParentKind, q) := fun hedge => by
      refine hto q hedge (hout fun hqid => ?_)
      rw [hparents, if_pos hqid, hedge] at hq
      cases hq
    have hsame : s'.childCount q = s.childCount q := by
      refine childCount_congr ?_
      rw [hstaged, hold, countsFor_eq_zero hnew]
      simp
    rw [childCount_of_untracked _ hq, hsame]
    by_cases hqid : q = id
    · rw [hparents, if_pos hqid] at hq
      rw [hqid, hgone hq]
    · rw [← h.counts, childCount_of_untracked _ ((h.parents q).trans (hout hqid))]
  · have hafter := hcovered q hq
    have hnonneg := hbefore q hq
    rw [hcounts q hq, childCount_of_nonneg (by omega), hstaged, ← h.parents]
    refine ofInt_move ?_
    rw [h.counts, childCount_of_nonneg (by omega)]

theorem domain (h : Mirrors s st) (hshows : Shows s' st')
    (hcounts : ∀ q, s'.stagedCount q = s.stagedCount q) (htracker : st'.tracker = st.tracker) :
    Mirrors s' st' where
  toShows := hshows
  counts q := by rw [htracker, h.counts, childCount_congr (hcounts q)]
  covered q hq := by
    rw [htracker] at hq ⊢
    rw [hcounts]
    exact h.covered q hq

theorem step (h : Mirrors s st) (p : FeeParams) (tx : Transaction)
    (hterm : s.maxTerm = p.maxTermEpochs) (hs : s.Stages sender refs op s') :
    Mirrors s' (applyDeclaredOp p tx sender s.epoch st op) := by
  have hshows := (h.toShows.step p tx hterm hs).1
  -- only the two object operations reach the tracker
  have hname : op.kind ≠ reparentOp → op.kind ≠ deleteOp →
      (applyDeclaredOp p tx sender s.epoch st op).tracker = st.tracker := by
    intro hr hd
    rw [applyDeclaredOp, if_neg hr, if_neg hd, applyDomainOp_tracker]
  cases hs with
  | reparent hkind hobject href hown hinto htargets hownTarget hcycle =>
    obtain ⟨hid, hup⟩ := parent_of_controls hown
    have htracker := st.applyReparent_tracker op
    rw [toHash_of_hash32 hobject, toHash_of_hash32 hinto] at htracker
    rw [applyDeclaredOp, if_pos hkind] at hshows ⊢
    refine @moved _ _ _ _ _ (some (op.targetKind, _)) h hid hup (fun q hq => ?_) nofun hshows
      (fun q => ?_) (fun q => ?_) (fun q hq => ?_) (stagedCount_stageReparent _ _ _)
    · obtain ⟨hk, rfl⟩ := Prod.mk.inj (Option.some.inj hq)
      exact (parent_of_controls (hownTarget hk)).1
    · rw [htracker, getParent_setParent]
    · rw [htracker]
      exact st.tracker.counted_trackObject ..
    · rw [htracker] at hq ⊢
      exact childCount_trackObject _ _ _ _ _ _ _ hq
  | delete hkind hobject href hown hchildless =>
    have hnot : op.kind ≠ reparentOp := by rw [hkind]; decide
    obtain ⟨hid, hup⟩ := parent_of_controls hown
    have htracker := st.applyDelete_tracker op p tx.txGasCoinID
    rw [toHash_of_hash32 hobject] at htracker
    rw [applyDeclaredOp, if_neg hnot, if_pos hkind] at hshows ⊢
    refine @moved _ _ _ _ _ none h hid hup nofun (fun _ => hchildless) hshows (fun q => ?_)
      (fun q => ?_) (fun q hq => ?_) fun q => ?_
    · rw [htracker, getParent_deleteObject]
    · rw [htracker]
      exact st.tracker.counted_deleteObject ..
    · rw [htracker] at hq ⊢
      simp [childCount_deleteObject _ _ hq, countsFor]
    · simp [stagedCount_stageDelete, countsFor]
  | register hkind | renew hkind | update hkind | transfer hkind | remove hkind =>
    exact h.domain hshows (fun _ => rfl) (hname (by rw [hkind]; decide) (by rw [hkind]; decide))

end Mirrors

/-! ## Lists -/

section Lists

variable {s s' : StagedView} {st : Ledger} {sender : Hash} {refs : List Hash}
  {ops : List DeclaredOp} {p : FeeParams} {tx : Transaction}

/-- What every accepted operation keeps, of the view and of the ledger it is applied to,
holds behind the list. -/
theorem accepted_rule {R : StagedView → Ledger → Prop} (hshows : Shows s st)
    (hterm : s.maxTerm = p.maxTermEpochs)
    (hops : ops.foldlM (fun view op => view.validate sender op refs) s = some s')
    (hstart : R s st)
    (hstep : ∀ t t' u op, Shows t u → t.epoch = s.epoch → t.maxTerm = p.maxTermEpochs →
      op ∈ ops → t.Stages sender refs op t' → R t u →
        R t' (applyDeclaredOp p tx sender s.epoch u op)) :
    Shows s' (ops.foldl (applyDeclaredOp p tx sender s.epoch) st) ∧
      R s' (ops.foldl (applyDeclaredOp p tx sender s.epoch) st) ∧
      s'.epoch = s.epoch ∧ s'.maxTerm = s.maxTerm := by
  induction ops generalizing s st with
  | nil =>
    obtain rfl : s = s' := by simpa using hops
    exact ⟨hshows, hstart, rfl, rfl⟩
  | cons op ops ih =>
    obtain ⟨s₁, hop, hops⟩ := accepted_cons hops
    have hstages := stages_of_validate hop
    obtain ⟨hepoch, hmax⟩ := hstages.frame
    have hnext := ih (hshows.step p tx hterm hstages).1 (hmax.trans hterm) hops
      (hstep s s₁ st op hshows rfl hterm List.mem_cons_self hstages hstart)
      fun t t' u op' hu hte htm hmem hst hr => by
        rw [hepoch] at hte ⊢
        exact hstep t t' u op' hu hte htm (List.mem_cons_of_mem _ hmem) hst hr
    rw [hepoch, hmax] at hnext
    exact hnext

theorem Shows.takesEffect (hshows : Shows s st) (hterm : s.maxTerm = p.maxTermEpochs)
    (hops : ops.foldlM (fun view op => view.validate sender op refs) s = some s')
    {pre post : List DeclaredOp} {op : DeclaredOp} (hsplit : ops = pre ++ op :: post) :
    (pre.foldl (applyDeclaredOp p tx sender s.epoch) st).takesEffect s.epoch
      p.maxTermEpochs op = true := by
  rw [hsplit, List.foldlM_append, Option.bind_eq_bind, Option.bind_eq_some_iff] at hops
  obtain ⟨s₁, hpre, hrest⟩ := hops
  obtain ⟨s₂, hop, -⟩ := accepted_cons hrest
  obtain ⟨hbefore, -, hepoch, hmax⟩ := @accepted_rule _ _ _ _ _ _ _ tx (fun _ _ => True) hshows
    hterm hpre trivial fun _ _ _ _ _ _ _ _ _ _ => trivial
  have heffect := (hbefore.step p tx (hmax.trans hterm) (stages_of_validate hop)).2
  rwa [hepoch, hmax, hterm] at heffect

end Lists

/-! ## Whole lists -/

namespace Ledger

/-- The view behind the validation of a transaction's operations, if it accepts them. -/
def stagedOps (st : Ledger) (p : FeeParams) (tx : Transaction) (epoch : UInt64) :
    Option StagedView := do
  let sender ← hash32 tx.sender
  if sender = zeroHash ∨ tx.operations.isEmpty then none
  tx.operations.foldlM (fun view op => view.validate sender op tx.mutableRefIDs)
    { ot := st.tracker, ds := st.domains, epoch, maxTerm := p.maxTermEpochs }

variable {p : FeeParams} {tx : Transaction} {epoch : UInt64}

theorem handleDeclaredOps_eq_none {st : Ledger} (h : st.stagedOps p tx epoch = none) :
    st.handleDeclaredOps p tx epoch = none := by
  unfold stagedOps at h
  unfold handleDeclaredOps
  cases hs : hash32 tx.sender with
  | none => rfl
  | some sender =>
    simp only [hs, Option.bind_eq_bind, Option.bind_some] at h ⊢
    split at h
    · rename_i hempty
      rw [if_pos hempty]
      rfl
    · rename_i hfull
      rw [if_neg hfull]
      rw [h]
      rfl

/-- An accepted list is validated as a whole, then applied in order. -/
theorem handleDeclaredOps_eq_some {st : Ledger} {view : StagedView}
    (h : st.stagedOps p tx epoch = some view) :
    ∃ sender, hash32 tx.sender = some sender ∧ sender ≠ zeroHash ∧
      tx.operations.foldlM (fun view op => view.validate sender op tx.mutableRefIDs)
        { ot := st.tracker, ds := st.domains, epoch, maxTerm := p.maxTermEpochs } = some view ∧
      st.handleDeclaredOps p tx epoch =
        some (tx.operations.foldl (applyDeclaredOp p tx sender epoch) st) := by
  unfold stagedOps at h
  unfold handleDeclaredOps
  cases hs : hash32 tx.sender with
  | none => simp [hs] at h
  | some sender =>
    simp only [hs, Option.bind_eq_bind, Option.bind_some] at h ⊢
    split at h
    · simp at h
    · rename_i hfull
      refine ⟨sender, rfl, fun hzero => hfull (.inl hzero), h, ?_⟩
      rw [if_neg hfull]
      simp [h]

/-- Declared operations are all or nothing. A rejected list leaves the ledger; an accepted
one leaves the hierarchy, the child counts and the names that the staged view shows behind
its validation, and none of its apply steps is passed over. -/
theorem handleDeclaredOps_matches_staged (st : Ledger) (p : FeeParams) (tx : Transaction)
    (epoch : UInt64) (hcounts : st.tracker.CountsCover) :
    (st.stagedOps p tx epoch = none ∧ st.handleDeclaredOps p tx epoch = none ∧
        (st.handleDeclaredOps p tx epoch).getD st = st) ∨
      ∃ view sender st', st.stagedOps p tx epoch = some view ∧ hash32 tx.sender = some sender ∧
        st.handleDeclaredOps p tx epoch = some st' ∧
        (∀ id, st'.tracker.getParent id = view.getParent id) ∧
        (∀ id, st'.tracker.childCount id = view.childCount id) ∧
        (∀ name, st'.domains.lookup name = view.getDomain name) ∧
        ∀ pre op post, tx.operations = pre ++ op :: post →
          (pre.foldl (applyDeclaredOp p tx sender epoch) st).takesEffect epoch
            p.maxTermEpochs op = true := by
  cases hstaged : st.stagedOps p tx epoch with
  | none =>
    have hnone := handleDeclaredOps_eq_none hstaged
    exact .inl ⟨rfl, hnone, by rw [hnone]; rfl⟩
  | some view =>
    obtain ⟨sender, hsender, -, hfold, happly⟩ := handleDeclaredOps_eq_some hstaged
    have hshows := Shows.start st epoch p.maxTermEpochs
    have hmirrors := (@accepted_rule _ _ _ _ _ _ _ tx Mirrors hshows rfl hfold
      (.start hcounts epoch p.maxTermEpochs)
      fun t t' u op _ hepoch hterm _ hstages h => hepoch ▸ h.step p tx hterm hstages).2.1
    exact .inr ⟨view, sender, _, rfl, hsender, happly, hmirrors.parents, hmirrors.counts,
      hmirrors.domains, fun pre op post => hshows.takesEffect rfl hfold⟩

end Ledger

/-- The first user's object with a child. -/
def familyLedger : Ledger :=
  { soloLedger with
    tracker := ((∅ : Tracker).trackObject (idOf 11) 1 0 0 keyRootKind (idOf 1)).trackObject
      (idOf 12) 1 0 0 objectParentKind (idOf 11) }

/-- The first user names the child, hands it to the second user and deletes the parent,
which only the hand-over makes possible. -/
def familyMoves : Transaction where
  sender := (idOf 1).val
  mutableRefs := [{ id := (idOf 11).val, version := 1 }, { id := (idOf 12).val, version := 1 }]
  operations :=
    [{ kind := domainRegisterOp, objectID := (idOf 12).val, name := ascii "shop", termEpochs := 1 },
     { kind := reparentOp, objectID := (idOf 12).val, target := (idOf 2).val },
     { kind := deleteOp, objectID := (idOf 11).val }]

theorem handleDeclaredOps_matches_staged_family :
    familyLedger.tracker.CountsCover ∧
      ∃ view st', familyLedger.stagedOps defaultFeeParams familyMoves 0 = some view ∧
        familyLedger.handleDeclaredOps defaultFeeParams familyMoves 0 = some st' ∧
        ∀ id, st'.tracker.getParent id = view.getParent id := by
  have hcounts : familyLedger.tracker.CountsCover := by decide +kernel
  refine ⟨hcounts, ?_⟩
  rcases familyLedger.handleDeclaredOps_matches_staged defaultFeeParams familyMoves 0 hcounts with
    ⟨hnone, -⟩ | ⟨view, _, st', hview, -, hst', hparents, -⟩
  · have haccepted : (familyLedger.stagedOps defaultFeeParams familyMoves 0).isSome = true := by
      decide +kernel
    simp [hnone] at haccepted
  · exact ⟨view, st', hview, hst', hparents⟩

end BluePods
