import BluePods.Staging

/-! Who keeps control over an accepted list of declared operations. Nobody else's objects
and names are touched; the sender's own objects keep a key above them unless the list
hangs them too deep or deletes what they hang from. -/

namespace BluePods

variable {id key : Hash} {n : Nat}
open Lib.Forest StagedView

/-! ## The reach of one operation -/

namespace StagedView

variable {s s' : StagedView} {sender : Hash} {refs : List Hash} {op : DeclaredOp}

/-- An accepted operation moves only referenced objects that its sender controls. -/
theorem Stages.getParent_eq (h : s.Stages sender refs op s') (x : Hash) :
    s'.getParent x = s.getParent x ∨ x ∈ refs ∧ s.controls sender x = true := by
  cases h with
  | @reparent id target hkind hobject href hown =>
    by_cases hx : x = id
    · exact .inr (hx ▸ ⟨href, hown⟩)
    · left
      rw [getParent_stageReparent (parent_of_controls hown).1, if_neg hx]
  | @delete id hkind hobject href hown =>
    by_cases hx : x = id
    · exact .inr (hx ▸ ⟨href, hown⟩)
    · left
      rw [getParent_stageDelete, if_neg hx]
  | register | renew | update | transfer | remove => exact .inl rfl

/-- An accepted operation writes only names that are free or its sender's. -/
theorem Stages.getDomain_eq (h : s.Stages sender refs op s') (x : Bytes) :
    s'.getDomain x = s.getDomain x ∨ ∀ leaf, s.getDomain x = some leaf → leaf.owner = sender := by
  by_cases hx : x = op.name
  · subst hx
    have hown : ∀ {leaf : DomainLeaf}, s.ownedDomain sender op.name = some leaf →
        ∀ leaf, s.getDomain op.name = some leaf → leaf.owner = sender := by
      intro leaf howned leaf' hleaf'
      obtain ⟨hleaf, howner⟩ := getDomain_of_ownedDomain howned
      rw [hleaf, Option.some.injEq] at hleaf'
      rw [← hleaf', howner]
    cases h with
    | reparent => exact .inl (getDomain_stageReparent ..)
    | delete => exact .inl (getDomain_stageDelete ..)
    | register hkind hfree => exact .inr fun leaf hleaf => by simp [hfree] at hleaf
    | renew hkind howned | update hkind howned | transfer hkind howned | remove hkind howned =>
      exact .inr (hown howned)
  · exact .inl (h.getDomain_of_ne hx)

/-! ## Foreign objects and names -/

/-- What a list leaves of somebody else's: every object rooted at another key hangs where
it did, and every name of another owner is as it was. -/
structure SparesOthers (e : Hash → Option (Byte × Hash)) (names : Bytes → Option DomainLeaf)
    (sender : Hash) (s : StagedView) : Prop where
  objects : ∀ id key n, Rooted (edges e) id key n → key ≠ sender → s.getParent id = e id
  names : ∀ name leaf, names name = some leaf → leaf.owner ≠ sender → s.getDomain name = some leaf

variable {e : Hash → Option (Byte × Hash)} {names : Bytes → Option DomainLeaf}

theorem SparesOthers.rooted (h : s.SparesOthers e names sender) (hroot : Rooted (edges e) id key n)
    (hkey : key ≠ sender) : Rooted (edges s.getParent) id key n := by
  refine hroot.congr fun b hb => ?_
  obtain ⟨m, -, hb⟩ := hroot.reaches hb
  simp only [edges, h.objects b key m hb hkey]

theorem SparesOthers.step (h : s.SparesOthers e names sender) (hs : s.Stages sender refs op s') :
    s'.SparesOthers e names sender where
  objects id key n hroot hkey := by
    rcases hs.getParent_eq id with hsame | ⟨-, hown⟩
    · rw [hsame]
      exact h.objects id key n hroot hkey
    · obtain ⟨m, -, hown⟩ := controls_eq_true.1 hown
      exact absurd ((h.rooted hroot hkey).unique hown).1 hkey
  names name leaf hleaf howner := by
    have hbefore := h.names name leaf hleaf howner
    rcases hs.getDomain_eq name with hsame | hmine
    · rw [hsame, hbefore]
    · exact absurd (hmine leaf hbefore) howner

end StagedView

namespace Ledger

variable {st st' : Ledger} {p : FeeParams} {tx : Transaction} {epoch : UInt64}

/-- An accepted list, in terms of the view behind it. -/
theorem handleDeclaredOps_some (h : st.handleDeclaredOps p tx epoch = some st') :
    ∃ view sender, hash32 tx.sender = some sender ∧ sender ≠ zeroHash ∧
      tx.operations.foldlM (fun view op => view.validate sender op tx.mutableRefIDs)
        { ot := st.tracker, ds := st.domains, epoch, maxTerm := p.maxTermEpochs } = some view ∧
      st' = tx.operations.foldl (applyDeclaredOp p tx sender epoch) st ∧ Shows view st' := by
  cases hstaged : st.stagedOps p tx epoch with
  | none => simp [handleDeclaredOps_eq_none hstaged] at h
  | some view =>
    obtain ⟨sender, hsender, hzero, hfold, happly⟩ := handleDeclaredOps_eq_some hstaged
    rw [happly, Option.some.injEq] at h
    refine ⟨view, sender, hsender, hzero, hfold, h.symm, ?_⟩
    rw [← h]
    exact (@accepted_rule _ _ _ _ _ _ _ tx (fun _ _ => True) (.start st epoch p.maxTermEpochs) rfl
      hfold trivial fun _ _ _ _ _ _ _ _ _ _ => trivial).1

/-- What accepted operations leave of objects rooted at other keys and of names of other
owners. -/
theorem handleDeclaredOps_spares {sender : Hash} (h : st.handleDeclaredOps p tx epoch = some st')
    (hsender : hash32 tx.sender = some sender) :
    (∀ id key n, Rooted (edges st.tracker.getParent) id key n → key ≠ sender →
      st'.tracker.getParent id = st.tracker.getParent id ∧
        Rooted (edges st'.tracker.getParent) id key n) ∧
      ∀ name leaf, st.domains.lookup name = some leaf → leaf.owner ≠ sender →
        st'.domains.lookup name = some leaf := by
  obtain ⟨view, sender', hsender', -, hfold, -, hshows⟩ := handleDeclaredOps_some h
  rw [hsender, Option.some.injEq] at hsender'
  subst hsender'
  have hstart := Shows.start st epoch p.maxTermEpochs
  have hspares := (@accepted_rule _ _ _ _ _ _ _ tx
    (fun s _ => s.SparesOthers st.tracker.getParent st.domains.lookup sender) hstart rfl hfold
    ⟨fun id _ _ _ _ => (hstart.parents id).symm, fun name leaf hleaf _ =>
      (hstart.domains name).symm.trans hleaf⟩
    fun t t' u op _ _ _ _ hs hr => hr.step hs).2.1
  have hsame : st'.tracker.getParent = view.getParent := funext hshows.parents
  refine ⟨fun id key n hroot hkey => ?_, fun name leaf hleaf howner => ?_⟩
  · rw [hsame]
    exact ⟨hspares.objects id key n hroot hkey, hspares.rooted hroot hkey⟩
  · rw [hshows.domains]
    exact hspares.names name leaf hleaf howner

/-- Accepted operations reach nobody else's objects or names: an object under another key
hangs where it did and stays under that key, and a name of another owner keeps its leaf. -/
theorem handleDeclaredOps_keeps_foreign {st st' : Ledger} {p : FeeParams} {tx : Transaction}
    {epoch : UInt64} {sender : Hash} (h : st.handleDeclaredOps p tx epoch = some st')
    (hsender : hash32 tx.sender = some sender) :
    (∀ id key, st.tracker.controllerOf id = some key → key ≠ sender →
      st'.tracker.getParent id = st.tracker.getParent id ∧ st'.tracker.getParent id ≠ none ∧
        st'.tracker.controllerOf id = some key) ∧
      ∀ name leaf, st.domains.lookup name = some leaf → leaf.owner ≠ sender →
        st'.domains.lookup name = some leaf := by
  obtain ⟨hobjects, hnames⟩ := handleDeclaredOps_spares h hsender
  refine ⟨fun id key hkey hne => ?_, hnames⟩
  obtain ⟨n, hn, hroot⟩ := controllerWalk_eq_some.1 hkey
  obtain ⟨hsame, hroot'⟩ := hobjects id key n hroot hne
  exact ⟨hsame, fun hnone => hroot'.ne_none (edges_eq_none.2 hnone),
    controllerWalk_eq_some.2 ⟨n, hn, hroot'⟩⟩

end Ledger

/-- The family, with the second user's object and name beside it. -/
def neighbourLedger : Ledger :=
  { familyLedger with
    tracker := familyLedger.tracker.trackObject (idOf 21) 1 0 0 keyRootKind (idOf 2)
    domains := familyLedger.domains.insert (ascii "bank") ⟨idOf 21, idOf 2, 9⟩ }

theorem handleDeclaredOps_keeps_foreign_neighbour :
    ∃ st', neighbourLedger.handleDeclaredOps defaultFeeParams familyMoves 0 = some st' ∧
      st'.tracker.controllerOf (idOf 21) = some (idOf 2) ∧
      st'.domains.lookup (ascii "bank") = some ⟨idOf 21, idOf 2, 9⟩ := by
  obtain ⟨st', hst'⟩ : ∃ st', neighbourLedger.handleDeclaredOps defaultFeeParams familyMoves 0 =
      some st' := Option.isSome_iff_exists.1 (by decide +kernel)
  obtain ⟨hobjects, hnames⟩ :=
    Ledger.handleDeclaredOps_keeps_foreign hst' (hash32_val (idOf 1))
  exact ⟨st', hst', (hobjects (idOf 21) (idOf 2) (by decide +kernel) (by decide)).2.2,
    hnames (ascii "bank") ⟨idOf 21, idOf 2, 9⟩ (by decide +kernel) (by decide)⟩

/-! ## The sender's own objects -/

/-- The parent edges behind one operation, taken at its word. -/
def declareOp (getParent : Hash → Option (Byte × Hash)) (op : DeclaredOp) :
    Hash → Option (Byte × Hash) :=
  if op.kind = reparentOp then
    Function.update getParent (toHash op.objectID) (some (op.targetKind, toHash op.target))
  else if op.kind = deleteOp then Function.update getParent (toHash op.objectID) none
  else getParent

/-- The parent edges behind the moves and deletions a list declares. -/
def declaredParents (getParent : Hash → Option (Byte × Hash)) (ops : List DeclaredOp) :
    Hash → Option (Byte × Hash) :=
  ops.foldl declareOp getParent

/-- The list declares the deletion of an object. -/
def DeclaresDeletion (ops : List DeclaredOp) (id : Hash) : Prop :=
  ∃ op ∈ ops, op.kind = deleteOp ∧ toHash op.objectID = id

namespace StagedView

variable {s s' : StagedView} {sender : Hash} {refs : List Hash} {op : DeclaredOp}
  {ops : List DeclaredOp}

theorem Stages.getParent_declareOp (h : s.Stages sender refs op s') :
    s'.getParent = declareOp s.getParent op := by
  have hname : op.kind ≠ reparentOp → op.kind ≠ deleteOp →
      declareOp s.getParent op = s.getParent := fun hr hd => by
    rw [declareOp, if_neg hr, if_neg hd]
  cases h with
  | @reparent id target hkind hobject href hown hinto =>
    funext x
    rw [getParent_stageReparent (parent_of_controls hown).1, declareOp, if_pos hkind,
      toHash_of_hash32 hobject, toHash_of_hash32 hinto, Function.update_apply]
  | @delete id hkind hobject =>
    have hnot : op.kind ≠ reparentOp := by rw [hkind]; decide
    funext x
    rw [getParent_stageDelete, declareOp, if_neg hnot, if_pos hkind, toHash_of_hash32 hobject,
      Function.update_apply]
  | register hkind | renew hkind | update hkind | transfer hkind | remove hkind =>
    exact (hname (by rw [hkind]; decide) (by rw [hkind]; decide)).symm

theorem getParent_declaredParents
    (h : ops.foldlM (fun view op => view.validate sender op refs) s = some s') :
    s'.getParent = declaredParents s.getParent ops := by
  induction ops generalizing s with
  | nil =>
    obtain rfl : s = s' := by simpa using h
    rfl
  | cons op ops ih =>
    obtain ⟨s₁, hop, hops⟩ := accepted_cons h
    rw [ih hops, (stages_of_validate hop).getParent_declareOp]
    rfl

theorem getParent_eq_none_of_accepted (hid : s.getParent id = none)
    (h : ops.foldlM (fun view op => view.validate sender op refs) s = some s') :
    s'.getParent id = none := by
  induction ops generalizing s with
  | nil =>
    obtain rfl : s = s' := by simpa using h
    exact hid
  | cons op ops ih =>
    obtain ⟨s₁, hop, hops⟩ := accepted_cons h
    refine ih ?_ hops
    rcases (stages_of_validate hop).getParent_eq id with hsame | ⟨-, hown⟩
    · rw [hsame, hid]
    · exact absurd hid (parent_of_controls hown).1

theorem getParent_of_declaresDeletion (hid : DeclaresDeletion ops id)
    (h : ops.foldlM (fun view op => view.validate sender op refs) s = some s') :
    s'.getParent id = none := by
  obtain ⟨op, hmem, hkind, rfl⟩ := hid
  obtain ⟨pre, post, rfl⟩ := List.append_of_mem hmem
  rw [List.foldlM_append, Option.bind_eq_bind, Option.bind_eq_some_iff] at h
  obtain ⟨s₁, -, hrest⟩ := h
  obtain ⟨s₂, hop, hpost⟩ := accepted_cons hrest
  refine getParent_eq_none_of_accepted ?_ hpost
  have hnot : op.kind ≠ reparentOp := by rw [hkind]; decide
  rw [(stages_of_validate hop).getParent_declareOp, declareOp, if_neg hnot, if_pos hkind,
    Function.update_self]

/-- The objects that had a key above them, however far: under the view they hang from one
another, no climb among them runs in a circle, and only a declared deletion unhooks one. -/
structure KeepsHung (e : Hash → Option (Byte × Hash)) (ops : List DeclaredOp) (s : StagedView) :
    Prop where
  before : ∀ {x key n}, Rooted (edges s.getParent) x key n → ∃ key n, Rooted (edges e) x key n
  closed : ∀ {a b key n}, Rooted (edges e) a key n → Under (edges s.getParent) a b →
    ∃ key n, Rooted (edges e) b key n
  grounded : ∀ {a key n}, Rooted (edges e) a key n → Grounded (edges s.getParent) a
  unhooked : ∀ {a key n}, Rooted (edges e) a key n → s.getParent a = none → DeclaresDeletion ops a

namespace KeepsHung

variable {e : Hash → Option (Byte × Hash)}

theorem of_getParent_eq (h : s.KeepsHung e ops) (hsame : s'.getParent = s.getParent) :
    s'.KeepsHung e ops := by
  constructor <;> simp only [hsame]
  exacts [h.before, h.closed, h.grounded, h.unhooked]

theorem start (e : Hash → Option (Byte × Hash)) (ops : List DeclaredOp) (h : s.getParent = e) :
    s.KeepsHung e ops := by
  subst h
  refine ⟨fun hx => ⟨_, _, hx⟩, fun ha hab => ?_, fun ha => ha.grounded, fun ha hnone => ?_⟩
  · obtain ⟨m, -, hb⟩ := ha.reaches (.single hab)
    exact ⟨_, m, hb⟩
  · exact absurd (edges_eq_none.2 hnone) ha.ne_none

theorem cut (h : s.KeepsHung e ops) {x : Option (Hash ⊕ Hash)}
    (hid : Rooted (edges s.getParent) id key n) (hx : ∀ b, x ≠ some (.inr b))
    (hs' : edges s'.getParent = Function.update (edges s.getParent) id x)
    (hnone : ∀ a, s'.getParent a = none → s.getParent a = none ∨ DeclaresDeletion ops a) :
    s'.KeepsHung e ops := by
  have hsub : ∀ a b, Under (edges s'.getParent) a b → Under (edges s.getParent) a b := by
    intro a b hab
    rw [hs'] at hab
    exact under_of_update_cut hx hab
  refine ⟨fun hrooted => ?_, fun ha hab => h.closed ha (hsub _ _ hab),
    fun ha => (h.grounded ha).mono hsub, fun ha hgone => ?_⟩
  · rw [hs'] at hrooted
    obtain ⟨_, _, hbefore⟩ := Rooted.of_update hid hrooted
    exact h.before hbefore
  · rcases hnone _ hgone with hgone | hdeleted
    · exact h.unhooked ha hgone
    · exact hdeleted

theorem hang (h : s.KeepsHung e ops) {target key' : Hash} {n' : Nat}
    (hid : Rooted (edges s.getParent) id key n)
    (htarget : Rooted (edges s.getParent) target key' n')
    (hfar : ¬ Reaches (edges s.getParent) target id)
    (hs' : edges s'.getParent = Function.update (edges s.getParent) id (some (.inr target)))
    (hnone : ∀ a, s'.getParent a = none → s.getParent a = none) : s'.KeepsHung e ops := by
  refine ⟨fun hrooted => ?_, fun {a b} _ _ ha hab => ?_, fun ha => ?_,
    fun ha hgone => h.unhooked ha (hnone _ hgone)⟩
  · rw [hs'] at hrooted
    obtain ⟨_, _, hbefore⟩ := Rooted.of_update hid hrooted
    exact h.before hbefore
  · rw [hs'] at hab
    by_cases haid : a = id
    · subst haid
      rw [under_update_self.1 hab]
      exact h.before htarget
    · exact h.closed ha ((under_update_of_ne haid).1 hab)
  · rw [hs']
    exact (h.grounded ha).update htarget hfar

theorem step (h : s.KeepsHung e ops) (hop : op ∈ ops) (hs : s.Stages sender refs op s') :
    s'.KeepsHung e ops := by
  cases hs with
  | @reparent id target hkind hobject href hown hinto htargets hownTarget hcycle =>
    obtain ⟨n, -, hid⟩ := controls_eq_true.1 hown
    have hedge := @getParent_stageReparent s id (parent_of_controls hown).1 op.targetKind target
    have hs' := edges_update hedge
    have hnone : ∀ a, (s.stageReparent id op.targetKind target).getParent a = none →
        s.getParent a = none := by
      intro a hgone
      rw [hedge] at hgone
      split at hgone
      · cases hgone
      · exact hgone
    rcases htargets with hkey | hobj
    · refine h.cut hid (x := some (.inl target)) (by simp) ?_ fun a hgone => .inl (hnone a hgone)
      rw [hs', hkey]
      rfl
    · rw [wouldCycle, hobj, if_neg (by decide)] at hcycle
      obtain ⟨⟨key', n', htarget⟩, hfar⟩ := cycleWalk_eq_false hcycle
      refine h.hang hid htarget hfar ?_ hnone
      rw [hs', hobj]
      rfl
  | @delete id hkind hobject href hown hchildless =>
    obtain ⟨n, -, hid⟩ := controls_eq_true.1 hown
    refine h.cut hid (x := none) (by simp) (edges_update (getParent_stageDelete id))
      fun a hgone => ?_
    rw [getParent_stageDelete] at hgone
    split at hgone
    · rename_i ha
      exact .inr ⟨op, hop, hkind, by rw [ha, toHash_of_hash32 hobject]⟩
    · exact .inl hgone
  | register | renew | update | transfer | remove => exact h.of_getParent_eq rfl

/-- Everything above such an object was rooted as well. -/
theorem reaches (h : s.KeepsHung e ops) {a b : Hash} (ha : Rooted (edges e) a key n)
    (hab : Reaches (edges s.getParent) a b) : ∃ key n, Rooted (edges e) b key n := by
  induction hab with
  | refl => exact ⟨key, n, ha⟩
  | tail _ hbc ih =>
    obtain ⟨_, _, hb⟩ := ih
    exact h.closed hb hbc

end KeepsHung

end StagedView

namespace Ledger

/-- Objects that resolve to a key before an accepted list and are still tracked behind it
all resolve behind it, exactly when no object that the list keeps hangs, along the edges
it declares, from one that it deletes or more than 256 edges below its key. -/
theorem handleDeclaredOps_strands_nothing_iff {st st' : Ledger} {p : FeeParams} {tx : Transaction}
    {epoch : UInt64} (h : st.handleDeclaredOps p tx epoch = some st') :
    (∀ id, (st.tracker.controllerOf id).isSome → (st'.tracker.getParent id).isSome →
        (st'.tracker.controllerOf id).isSome) ↔
      ∀ id, (st.tracker.controllerOf id).isSome → ¬ DeclaresDeletion tx.operations id →
        (∀ above, Reaches (edges (declaredParents st.tracker.getParent tx.operations)) id above →
          ¬ DeclaresDeletion tx.operations above) ∧
        ∀ key n, Rooted (edges (declaredParents st.tracker.getParent tx.operations)) id key n →
          n ≤ walkDepthLimit := by
  obtain ⟨view, sender, -, -, hfold, -, hshows⟩ := handleDeclaredOps_some h
  have hstart := Shows.start st epoch p.maxTermEpochs
  have hbefore : getParent
      { ot := st.tracker, ds := st.domains, epoch, maxTerm := p.maxTermEpochs } =
        st.tracker.getParent := funext fun id => (hstart.parents id).symm
  have hhung := (@accepted_rule _ _ _ _ _ _ _ tx
    (fun s _ => s.KeepsHung st.tracker.getParent tx.operations) hstart rfl hfold
    (.start _ _ hbefore) fun t t' u op _ _ _ hop hs hr => hr.step hop hs).2.1
  have hdeclared := getParent_declaredParents hfold
  rw [hbefore] at hdeclared
  have hafter : st'.tracker.getParent = view.getParent := funext hshows.parents
  rw [← hdeclared]
  simp only [Tracker.controllerOf, hafter]
  have hresolved : ∀ {g : Hash → Option (Byte × Hash)} {id},
      (controllerWalk g walkDepthLimit id).isSome ↔
        ∃ key n, n ≤ walkDepthLimit ∧ Rooted (edges g) id key n := by
    intro g id
    simp only [Option.isSome_iff_exists, controllerWalk_eq_some]
  simp only [hresolved]
  constructor
  · rintro hall id ⟨key, n, hn, hid⟩ hkept
    have htracked : (view.getParent id).isSome := by
      rw [Option.isSome_iff_ne_none]
      exact fun hnone => hkept (hhung.unhooked hid hnone)
    obtain ⟨key', n', hn', hroot⟩ := hall id ⟨key, n, hn, hid⟩ htracked
    refine ⟨fun above habove hdeleted => ?_, fun key'' n'' hroot' => ?_⟩
    · obtain ⟨m, -, hm⟩ := hroot.reaches habove
      exact hm.ne_none (edges_eq_none.2 (getParent_of_declaresDeletion hdeleted hfold))
    · rw [(hroot'.unique hroot).2]
      exact hn'
  · rintro hcond id ⟨key, n, hn, hid⟩ htracked
    have hkept : ¬ DeclaresDeletion tx.operations id := by
      intro hdeleted
      rw [getParent_of_declaresDeletion hdeleted hfold] at htracked
      cases htracked
    obtain ⟨hlive, hshallow⟩ := hcond id ⟨key, n, hn, hid⟩ hkept
    rcases (hhung.grounded hid).rooted_or_stops with ⟨key', n', hroot⟩ | ⟨b, hreach, hstop⟩
    · exact ⟨key', n', hshallow key' n' hroot, hroot⟩
    · obtain ⟨_, _, hb⟩ := hhung.reaches hid hreach
      exact absurd (hhung.unhooked hb (edges_eq_none.1 hstop)) (hlive b hreach)

end Ledger

/-- The family's moves are accepted, and everything tracked resolves behind them, so they
left nothing stranded. -/
theorem handleDeclaredOps_strands_nothing_iff_family :
    (familyLedger.handleDeclaredOps defaultFeeParams familyMoves 0).isSome ∧
    ∀ id, (familyLedger.tracker.controllerOf id).isSome →
      ¬ DeclaresDeletion familyMoves.operations id →
      (∀ above, Reaches (edges (declaredParents familyLedger.tracker.getParent
        familyMoves.operations)) id above → ¬ DeclaresDeletion familyMoves.operations above) ∧
      ∀ key n, Rooted (edges (declaredParents familyLedger.tracker.getParent
        familyMoves.operations)) id key n → n ≤ walkDepthLimit := by
  have hresolves : (familyLedger.handleDeclaredOps defaultFeeParams familyMoves 0).any (fun st' =>
      ∀ id ∈ st'.tracker.keys, (st'.tracker.controllerOf id).isSome) = true := by
    decide +kernel
  obtain ⟨st', hst', hkeys⟩ := (Option.any_eq_true ..).1 hresolves
  refine ⟨by rw [hst']; rfl, ?_⟩
  refine (Ledger.handleDeclaredOps_strands_nothing_iff hst').1 fun id _ htracked => ?_
  rw [Tracker.getParent, Option.isSome_map] at htracked
  exact of_decide_eq_true hkeys id (AList.lookup_isSome.1 htracked)

/-! ## A chain of full length -/

/-- The objects of a long chain. -/
def linkID (n : Nat) : Hash := toHash [byteOf n, byteOf (n / 256)]

theorem linkID_injOn : Set.InjOn linkID {n | n ≤ 256} := by
  intro m hm n hn h
  have hbytes := congrArg Subtype.val h
  simp only [linkID, toHash, List.take_succ_cons, List.cons_append, List.cons.injEq, byteOf,
    Fin.ofNat, Fin.mk.injEq, List.take_nil, List.nil_append, List.length_cons] at hbytes
  simp only [Set.mem_ofPred_eq] at hm hn
  omega

/-- The first user's objects: each of the first 256 hangs from the next, the last of them
from the first user's key, and one more object beside them. -/
def linkEntry (n : Nat) : TrackerEntry :=
  let childCount := if 1 ≤ n ∧ n ≤ 255 then 1 else 0
  if n < 255 then
    { version := 1, parentKind := objectParentKind, parent := linkID (n + 1), childCount }
  else { version := 1, parent := idOf 1, childCount }

def chainTracker : Tracker where
  entries := (List.range 257).map fun n => ⟨linkID n, linkEntry n⟩
  nodupKeys := by
    rw [List.NodupKeys, List.keys, List.map_map]
    refine List.Nodup.map_on (fun m hm n hn h => ?_) List.nodup_range
    exact linkID_injOn (Nat.lt_succ_iff.1 (List.mem_range.1 hm))
      (Nat.lt_succ_iff.1 (List.mem_range.1 hn)) h

theorem lookup_chainTracker (h : n ≤ 256) : chainTracker.lookup (linkID n) = some (linkEntry n) :=
  AList.mem_lookup_iff.2 (List.mem_map.2 ⟨n, List.mem_range.2 (by omega), rfl⟩)

theorem getParent_chainTracker_link (h : n < 255) :
    chainTracker.getParent (linkID n) = some (objectParentKind, linkID (n + 1)) := by
  simp [Tracker.getParent, lookup_chainTracker (show n ≤ 256 by omega), linkEntry, h]

theorem getParent_chainTracker_root (h : 255 ≤ n) (hn : n ≤ 256) :
    chainTracker.getParent (linkID n) = some (keyRootKind, idOf 1) := by
  simp [Tracker.getParent, lookup_chainTracker hn, linkEntry, Nat.not_lt.2 h]

def chainLedger : Ledger := { soloLedger with tracker := chainTracker }

/-- The first user hangs the top of the chain from the object beside it. -/
def chainMove : Transaction where
  sender := (idOf 1).val
  mutableRefs := [{ id := (linkID 255).val, version := 1 }]
  operations :=
    [{ kind := reparentOp, objectID := (linkID 255).val, targetKind := objectParentKind,
       target := (linkID 256).val }]

/-- Climbing the chain from a link, given where its top is rooted. -/
theorem rooted_link {g : Hash → Option (Byte × Hash)} {top : Nat}
    (hlink : ∀ n < 255, g (linkID n) = some (objectParentKind, linkID (n + 1)))
    (htop : Rooted (edges g) (linkID 255) (idOf 1) top) {k : Nat} (hk : k ≤ 255) :
    Rooted (edges g) (linkID (255 - k)) (idOf 1) (top + k) := by
  induction k with
  | zero => exact htop
  | succ k ih =>
    have hup := edges_of_object (hlink (255 - (k + 1)) (by omega)) (by decide)
    rw [show 255 - (k + 1) + 1 = 255 - k by omega] at hup
    exact .climb hup (ih (by omega))

/-- The check sees the moved object and its new parent, both one edge below the key. -/
theorem stagedOps_chainMove :
    (chainLedger.stagedOps defaultFeeParams chainMove 0).isSome = true := by
  have hroot : ∀ {n}, 255 ≤ n → n ≤ 256 → getParent
      { ot := chainTracker, ds := ∅, epoch := 0, maxTerm := defaultFeeParams.maxTermEpochs }
        (linkID n) = some (keyRootKind, idOf 1) := by
    intro n h hn
    simp [getParent, getParent_chainTracker_root h hn]
  have hcontrols : ∀ {n}, 255 ≤ n → n ≤ 256 → controls
      { ot := chainTracker, ds := ∅, epoch := 0, maxTerm := defaultFeeParams.maxTermEpochs }
        (idOf 1) (linkID n) = true := fun h hn =>
    controls_eq_true.2 ⟨1, by decide, .root (edges_of_key (hroot h hn))⟩
  have hne : linkID 256 ≠ linkID 255 := fun h => by
    have := linkID_injOn (show 256 ≤ 256 by omega) (show 255 ≤ 256 by omega) h
    omega
  have hcycle : wouldCycle
      { ot := chainTracker, ds := ∅, epoch := 0, maxTerm := defaultFeeParams.maxTermEpochs }
        (linkID 255) objectParentKind (linkID 256) = false := by
    simp [wouldCycle, walkDepthLimit, cycleWalk, hne, hroot, objectParentKind, keyRootKind]
  have hzero : idOf 1 ≠ zeroHash := by decide
  simp [Ledger.stagedOps, chainMove, chainLedger, soloLedger, validate,
    validateReparent, Transaction.mutableRefIDs, ObjectRef.refID, hcontrols, hcycle,
    reparentOp, lastDeclaredOpKind, domainDeleteOp, hzero]

/-- The move is accepted, and the bottom of the chain, which it never names, is left 257
edges below its key: it no longer resolves. -/
theorem chainMove_strands_descendant :
    chainLedger.tracker.controllerOf (linkID 0) = some (idOf 1) ∧
      ∃ st', chainLedger.handleDeclaredOps defaultFeeParams chainMove 0 = some st' ∧
        (st'.tracker.getParent (linkID 0)).isSome ∧ st'.tracker.controllerOf (linkID 0) = none := by
  have htop : ∀ {n}, 255 ≤ n → n ≤ 256 →
      Rooted (edges chainTracker.getParent) (linkID n) (idOf 1) 1 := fun h hn =>
    .root (edges_of_key (getParent_chainTracker_root h hn))
  have hne : ∀ {n}, n ≤ 256 → n ≠ 255 → linkID n ≠ linkID 255 := fun hn hne h =>
    hne (linkID_injOn hn (show 255 ≤ 256 by omega) h)
  refine ⟨controllerWalk_eq_some.2 ⟨256, by decide, ?_⟩, ?_⟩
  · exact rooted_link (fun _ => getParent_chainTracker_link) (htop (by omega) (by omega))
      (show 255 ≤ 255 by omega)
  obtain ⟨view, hview⟩ := Option.isSome_iff_exists.1 stagedOps_chainMove
  obtain ⟨sender, hsender, -, -, happly⟩ := Ledger.handleDeclaredOps_eq_some hview
  obtain rfl : idOf 1 = sender := Option.some.inj ((hash32_val _).symm.trans hsender)
  refine ⟨_, happly, ?_⟩
  have htracker : (chainMove.operations.foldl (Ledger.applyDeclaredOp defaultFeeParams chainMove
      (idOf 1) 0) chainLedger).tracker =
        chainTracker.setParent (linkID 255) objectParentKind (linkID 256) := by
    rw [chainMove, List.foldl_cons, List.foldl_nil, Ledger.applyDeclaredOp, if_pos rfl,
      Ledger.applyReparent_tracker, toHash_val, toHash_val]
    rfl
  have hedge := chainTracker.getParent_setParent (linkID 255) (linkID 256) objectParentKind
  rw [htracker]
  have hlink : ∀ n < 255, (chainTracker.setParent (linkID 255) objectParentKind
      (linkID 256)).getParent (linkID n) = some (objectParentKind, linkID (n + 1)) := by
    intro n hn
    rw [hedge, if_neg (hne (by omega) (by omega)), getParent_chainTracker_link hn]
  have hbeside : Rooted (edges (chainTracker.setParent (linkID 255) objectParentKind
      (linkID 256)).getParent) (linkID 256) (idOf 1) 1 := by
    refine .root (edges_of_key ?_)
    rw [hedge, if_neg (hne (by omega) (by omega)),
      getParent_chainTracker_root (by omega) (by omega)]
  have hmoved : Rooted (edges (chainTracker.setParent (linkID 255) objectParentKind
      (linkID 256)).getParent) (linkID 255) (idOf 1) 2 := by
    refine .climb (edges_of_object ?_ (show objectParentKind ≠ keyRootKind by decide)) hbeside
    rw [hedge, if_pos rfl]
  have hbottom := rooted_link hlink hmoved (show 255 ≤ 255 by omega)
  refine ⟨?_, ?_⟩
  · rw [hlink 0 (by omega)]
    rfl
  · rw [Option.eq_none_iff_forall_ne_some]
    intro key hkey
    obtain ⟨n, hn, hroot⟩ := controllerWalk_eq_some.1 hkey
    have hdepth := (hroot.unique hbottom).2
    simp only [walkDepthLimit] at hn
    omega

end BluePods
