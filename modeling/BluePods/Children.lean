import BluePods.Lineage

/-! Child counts along runs of transactions. They stay exact, and no object loses its
parent, as long as pods keep to the two parent kinds and names lead to tracked objects. -/

namespace BluePods

variable {ids : List Hash}
open Lib.Forest Lib.Tally

namespace Tracker

/-! ## Counts -/

/-- How many tracked objects hang from `p`, by whatever kind of edge. -/
def children (ot : Tracker) (p : Hash) : Nat :=
  tally (fun e => if e.parentKind ≠ keyRootKind ∧ e.parent = p then 1 else 0) ot

/-- Every count is the number of children, and every parent is tracked. -/
structure ChildrenExact (ot : Tracker) : Prop where
  counts : ∀ p, ot.getParent p ≠ none → (ot.childCount p).toNat = ot.children p
  parents : ∀ x kind p, ot.getParent x = some (kind, p) → kind ≠ keyRootKind →
    ot.getParent p ≠ none

/-- Objects hang from keys and objects only. -/
def TwoKinds (ot : Tracker) : Prop :=
  ∀ x kind p, ot.getParent x = some (kind, p) → kind = keyRootKind ∨ kind = objectParentKind

/-- The invariant: exact counts at every identifier, an untracked one counting none, and
at most `n` objects. -/
structure Orderly (ot : Tracker) (n : Nat) : Prop where
  kinds : ot.TwoKinds
  exact : ∀ q, (ot.childCount q).toNat = ot.counted q
  size : ot.keys.length ≤ n

variable {ot : Tracker} {id parent : Hash} {kind : Byte} {n : Nat}

theorem counted_eq_children (h : ot.TwoKinds) (q : Hash) : ot.counted q = ot.children q := by
  refine tally_congr fun x e he => ?_
  have hkind := h x e.parentKind e.parent (by simp [getParent, he])
  rcases hkind with hkey | hobj
  · simp [countsFor, hkey, keyRootKind, objectParentKind]
  · simp [countsFor, hobj, keyRootKind, objectParentKind]

theorem countsFor_le_counted (ot : Tracker) (x q : Hash) :
    countsFor (ot.getParent x) q ≤ ot.counted q := by
  rw [← share_countsFor]
  exact share_le_tally ..

theorem keys_length (ot : Tracker) : ot.keys.length = tally (fun _ => 1) ot := by
  simp [tally, AList.keys, List.keys]

theorem counted_le_keys (ot : Tracker) (q : Hash) : ot.counted q ≤ ot.keys.length := by
  rw [keys_length]
  refine tally_le_tally (fun e => ?_) ot
  unfold countsFor
  split <;> omega

namespace Orderly

variable {m : Nat}

theorem childrenExact (h : ot.Orderly n) : ot.ChildrenExact where
  counts p _ := by rw [h.exact, counted_eq_children h.kinds]
  parents x kind p hx hkind hp := by
    obtain rfl := (h.kinds x kind p hx).resolve_left hkind
    have hcounted := ot.countsFor_le_counted x p
    rw [← h.exact, childCount_of_untracked _ hp, hx, countsFor, if_pos rfl] at hcounted
    simp at hcounted

theorem of_childrenExact (h : ot.ChildrenExact) (hkinds : ot.TwoKinds) :
    ot.Orderly ot.keys.length where
  kinds := hkinds
  exact q := by
    rw [counted_eq_children hkinds]
    by_cases hq : ot.getParent q = none
    · have hnone : ot.children q = tally (fun _ => 0) ot := by
        refine tally_congr fun x e he => if_neg ?_
        rintro ⟨hkind, rfl⟩
        exact h.parents x e.parentKind e.parent (by simp [getParent, he]) hkind hq
      rw [childCount_of_untracked _ hq, hnone]
      simp [tally]
    · exact h.counts q hq
  size := Nat.le_refl _

section

variable (h : ot.Orderly n)

include h

theorem mono (hnm : n ≤ m) : ot.Orderly m :=
  ⟨h.kinds, h.exact, h.size.trans hnm⟩

/-! ## Writes -/

theorem trackObject (hm : m < 2 ^ 32) (hkind : kind = keyRootKind ∨ kind = objectParentKind)
    (hparent : kind = objectParentKind → ot.getParent parent ≠ none ∨ parent = id)
    (hsize : n + 1 ≤ m ∨ ot.getParent id ≠ none ∧ n ≤ m) (version : UInt64) (replication : UInt16)
    (fees : UInt64) : (ot.trackObject id version replication fees kind parent).Orderly m := by
  have hlen : (ot.trackObject id version replication fees kind parent).keys.length ≤ m := by
    have htally := tally_trackObject (f := fun _ => 1) (fun _ _ => rfl) ot id parent kind version
      replication fees
    have hn := h.size
    rw [keys_length] at hn ⊢
    rcases hsize with hroom | ⟨htracked, hnm⟩
    · omega
    · obtain ⟨e, he⟩ := Option.isSome_iff_exists.1 ((ot.lookup_isSome_iff id).2 htracked)
      rw [share_of_lookup he] at htally
      omega
  refine ⟨fun x k p hx => ?_, fun q => ?_, hlen⟩
  · rw [getParent_trackObject] at hx
    split at hx
    · obtain ⟨rfl, rfl⟩ := Prod.mk.inj (Option.some.inj hx)
      exact hkind
    · exact h.kinds x k p hx
  · have hmove := ot.counted_trackObject id parent kind version replication fees q
    have hold := ot.countsFor_le_counted id q
    have hbefore := h.exact q
    by_cases hq : (ot.trackObject id version replication fees kind parent).getParent q = none
    · -- the new parent is tracked, so nothing is counted here
      have hnew : countsFor (some (kind, parent)) q = 0 := by
        refine if_neg fun hedge => ?_
        obtain ⟨rfl, rfl⟩ := Prod.mk.inj (Option.some.inj hedge)
        rw [getParent_trackObject] at hq
        split at hq
        · cases hq
        · rename_i hne
          exact (hparent rfl).elim (· hq) hne
      have huntracked : ot.getParent q = none := by
        rw [getParent_trackObject] at hq
        split at hq
        · cases hq
        · exact hq
      rw [childCount_of_untracked _ huntracked] at hbefore
      rw [childCount_of_untracked _ hq]
      simp only [UInt32.toNat_zero] at hbefore ⊢
      omega
    · have hbound := (counted_le_keys _ q).trans hlen
      rw [childCount_trackObject _ _ _ _ _ _ _ hq]
      have holdLe : countsFor (ot.getParent id) q ≤ 1 := by unfold countsFor; split <;> omega
      have hnewLe : countsFor (some (kind, parent)) q ≤ 1 := by unfold countsFor; split <;> omega
      rw [UInt32.toNat_add, UInt32.toNat_sub, UInt32.toNat_ofNat', UInt32.toNat_ofNat', hbefore]
      have hlt := (ot.childCount q).toNat_lt
      omega

theorem deleteObject (hchildless : ot.childCount id = 0) : (ot.deleteObject id).Orderly n := by
  refine ⟨fun x k p hx => ?_, fun q => ?_, ?_⟩
  · rw [getParent_deleteObject] at hx
    split at hx
    · cases hx
    · exact h.kinds x k p hx
  · have hmove := ot.counted_deleteObject id q
    have hbefore := h.exact q
    by_cases hq : (ot.deleteObject id).getParent q = none
    · have hzero : ot.childCount q = 0 := by
        rw [getParent_deleteObject] at hq
        split at hq
        · rename_i hqid
          rw [hqid, hchildless]
        · exact childCount_of_untracked _ hq
      rw [hzero] at hbefore
      rw [childCount_of_untracked _ hq]
      simp only [UInt32.toNat_zero] at hbefore ⊢
      omega
    · have hold : countsFor (ot.getParent id) q ≤ 1 := by unfold countsFor; split <;> omega
      rw [childCount_deleteObject _ _ hq, UInt32.toNat_sub, UInt32.toNat_ofNat', hbefore]
      have hlt := (ot.childCount q).toNat_lt
      omega
  · have htally := tally_deleteObject (f := fun _ => 1) (fun _ _ => rfl) ot id
    have hn := h.size
    rw [keys_length] at hn ⊢
    omega

theorem foldl_bumpVersion (hroom : n + ids.length < 2 ^ 32) :
    (ids.foldl bumpVersion ot).Orderly (n + ids.length) := by
  induction ids generalizing ot n with
  | nil => exact h
  | cons id ids ih =>
    rw [List.length_cons] at hroom ⊢
    have hbump : (ot.bumpVersion id).Orderly (n + 1) := by
      unfold bumpVersion
      cases hedge : ot.getParent id with
      | none => exact h.trackObject (by omega) (.inl rfl) (fun hk => by cases hk) (.inl le_rfl) ..
      | some edge =>
        refine h.trackObject (by omega) (h.kinds id edge.1 edge.2 hedge) (fun hk => .inl ?_)
          (.inl le_rfl) ..
        refine h.childrenExact.parents id edge.1 edge.2 hedge ?_
        rw [show edge.1 = objectParentKind from hk]
        decide
    have hrest := ih hbump (by omega)
    rwa [Nat.add_assoc, Nat.add_comm 1] at hrest

theorem incrementMutableObjects (tx : Transaction) (hroom : n + tx.mutableRefs.length < 2 ^ 32) :
    (ot.incrementMutableObjects tx).Orderly (n + tx.mutableRefs.length) := by
  have hids : tx.mutableRefIDs.length ≤ tx.mutableRefs.length := List.length_filterMap_le ..
  exact (h.foldl_bumpVersion (by omega)).mono (Nat.add_le_add_left hids n)

theorem foldl_deleteObject (hchildless : ∀ id ∈ ids, ot.childCount id = 0) :
    (ids.foldl Tracker.deleteObject ot).Orderly n := by
  induction ids generalizing ot with
  | nil => exact h
  | cons id ids ih =>
    have hnext := h.deleteObject (hchildless id List.mem_cons_self)
    refine ih hnext fun id' hid' => ?_
    -- a count only goes down when an object is dropped
    have hbefore := h.exact id'
    have hmove := ot.counted_deleteObject id id'
    rw [hchildless id' (List.mem_cons_of_mem _ hid'), UInt32.toNat_zero] at hbefore
    rw [← UInt32.toNat_inj, hnext.exact, UInt32.toNat_zero]
    omega

end

end Orderly
end Tracker

/-! ## Transactions -/

namespace Ledger

variable {st₁ : Ledger} {atx : AttestedTransaction}
open Tracker (Orderly)

variable {st st' : Ledger} {nd : Node} {tx : Transaction} {n : Nat}

theorem handleDeclaredOps_orderly {p : FeeParams} {epoch : UInt64}
    (h : st.handleDeclaredOps p tx epoch = some st') (hbefore : st.tracker.Orderly n)
    (hn : n < 2 ^ 32) : st'.tracker.Orderly n := by
  obtain ⟨view, sender, -, -, hfold, rfl, -⟩ := handleDeclaredOps_some h
  have hcover : st.tracker.CountsCover := fun q _ => (hbefore.exact q).ge
  refine (@accepted_rule _ _ _ _ _ _ _ tx (fun s u => Mirrors s u ∧ u.tracker.Orderly n)
    (.start st epoch p.maxTermEpochs) rfl hfold ⟨.start hcover epoch p.maxTermEpochs, hbefore⟩
    ?_).2.1.2
  rintro t t' u op hshows hepoch hterm - hs ⟨hmirrors, hu⟩
  rw [← hepoch]
  refine ⟨hmirrors.step p tx hterm hs, ?_⟩
  have htracked : ∀ {id}, t.controls sender id = true → u.tracker.getParent id ≠ none := by
    intro id hown
    rw [hshows.parents]
    exact (StagedView.parent_of_controls hown).1
  rcases applyDeclaredOp_tracker hs p tx t.epoch u with
    ⟨id, -, kind, parent, hown, hkind, hparent, heq⟩ | ⟨id, -, -, hchildless, heq⟩ | heq
  · rw [heq]
    exact hu.trackObject hn hkind (fun hk => .inl (htracked (hparent hk)))
      (.inr ⟨htracked hown, le_rfl⟩) ..
  · rw [heq]
    refine hu.deleteObject ?_
    rw [hmirrors.counts, hchildless]
  · rwa [heq]

/-- What keeps the counts exact over a transaction: there is room for what it tracks, its
pod knows the two parent kinds only, and the names it references lead to tracked objects
that it does not delete. -/
structure KeepsCounts (st : Ledger) (nd : Node) (tx : Transaction) : Prop where
  room : st.tracker.keys.length + tx.mutableRefs.length + tx.createdObjectsReplication.length <
    2 ^ 32
  kinds : ∀ input out, nd.pods (hashOrZero tx.pod) input = .ok (some out) →
    ∀ o ∈ out.createdObjects, o.parentKind = keyRootKind ∨ o.parentKind = objectParentKind
  named : ∀ p ∈ st.domainReferencedParents nd tx,
    st.tracker.getParent p ≠ none ∧ p ∉ ownedDeletedRefs tx

theorem trackerSettled_orderly (h : st.tracker.Orderly n)
    (hroom : n + tx.mutableRefs.length < 2 ^ 32)
    (hchildless : ∀ id ∈ ownedDeletedRefs tx, st.tracker.childCount id = 0) :
    (st.trackerSettled tx).Orderly (n + tx.mutableRefs.length) := by
  refine (h.incrementMutableObjects tx hroom).foldl_deleteObject fun id hid => ?_
  rw [Tracker.childCount_incrementMutableObjects, hchildless id hid]

section

variable (hkeeps : st.KeepsCounts nd tx) (htracker : st₁.tracker = st.trackerSettled tx)
  (hdomains : st₁.domains = st.domains)

include hkeeps htracker hdomains

/-- An object parent that the checks allow is tracked by the time it is used. -/
theorem KeepsCounts.parent_tracked {kind : Byte} {parent sender : Hash} {staged : List Hash}
    (hkind : kind ≠ keyRootKind)
    (hallowed : st₁.createdParentAllowed kind parent sender staged
      (st₁.domainReferencedParents nd tx) = true) :
    parent ∈ staged ∨ (st.trackerSettled tx).getParent parent ≠ none := by
  rw [createdParentAllowed, if_neg hkind, Bool.or_eq_true, decide_eq_true_eq] at hallowed
  rcases hallowed with (hstaged | hnamed) | hcontrols
  · exact .inl hstaged
  · rw [domainReferencedParents, hdomains] at hnamed
    obtain ⟨htracked, hkept⟩ := hkeeps.named parent hnamed
    rw [trackerSettled, Tracker.getParent_foldl_deleteObject, if_neg hkept,
      Tracker.getParent_incrementMutableObjects]
    refine .inr ?_
    split
    · simp
    · exact htracked
  · rw [htracker] at hcontrols
    unfold Tracker.controls Tracker.controllerOf at hcontrols
    refine .inr fun hnone => ?_
    rw [controllerWalk_eq] at hcontrols
    simp [walkDepthLimit, rootOf, edges_eq_none.2 hnone] at hcontrols

theorem KeepsCounts.created {out : PodOutput} {deposit : Object → UInt64}
    (hpod : nd.pods (hashOrZero tx.pod) (st₁.podInput tx atx) = .ok (some out))
    (hvalid : st₁.validateOutput nd out tx (st₁.podObjects tx atx) = .ok ())
    (hn : n + tx.createdObjectsReplication.length < 2 ^ 32) (h : (st.trackerSettled tx).Orderly n) :
    (out.createdObjects.zipIdx.foldl (trackCreated nd tx deposit)
      (st.trackerSettled tx)).Orderly (n + out.createdObjects.length) := by
  obtain ⟨hlimit, hallowed⟩ := validateOutput_created hvalid
  -- what was tracked stays tracked, and what was created is tracked
  refine (trackCreated_rule (P := fun i ot => ot.Orderly (n + i) ∧
    ∀ x, (st.trackerSettled tx).getParent x ≠ none ∨
      x ∈ (List.range i).map (computeObjectID nd.crypto (hashOrZero tx.hash)) →
      ot.getParent x ≠ none) ⟨h, fun x hx => by simpa using hx⟩ ?_).1
  rintro o i ot hmem ⟨hot, htracked⟩
  have hi := (List.mem_zipIdx hmem).2.1
  have hkind := hkeeps.kinds _ _ hpod o (List.fst_mem_of_mem_zipIdx hmem)
  refine ⟨hot.trackObject (by omega) hkind (fun hk => .inl ?_) (.inl (by omega)) .., ?_⟩
  · refine htracked _ (hkeeps.parent_tracked htracker hdomains ?_ (hallowed o i hmem)).symm
    rw [show o.parentKind = objectParentKind from hk]
    decide
  · intro x hx
    rw [trackCreated, Tracker.getParent_trackObject]
    split
    · simp
    · rename_i hne
      refine htracked x (hx.imp_right fun hmem => ?_)
      rw [List.range_succ, List.map_append, List.mem_append] at hmem
      exact hmem.resolve_right fun hlast => hne (by simpa using hlast)

end

theorem executeTx_orderly {commitRound : Nat} {verdict : Option ProofError}
    (h : ∃ n, st.tracker.Orderly n)
    (hkeeps : ∀ tx, atx.transaction = some tx → st.KeepsCounts nd tx) :
    ∃ n, (st.executeTx nd atx commitRound verdict).ledger.tracker.Orderly n := by
  obtain ⟨_, hkinds, hexact, -⟩ := h
  have h : st.tracker.Orderly st.tracker.keys.length := ⟨hkinds, hexact, le_rfl⟩
  have hstep := st.executeTx_tracker nd atx commitRound verdict
  generalize (st.executeTx nd atx commitRound verdict).ledger.tracker = ot at hstep ⊢
  cases hstep with
  | kept => exact ⟨_, h⟩
  | bumped hadmits =>
    have hroom := (hkeeps _ hadmits.transaction).room
    exact ⟨_, h.incrementMutableObjects _ (by omega)⟩
  | @operated tx _ _ hadmits _ htracker haccepted =>
    have hroom := (hkeeps _ hadmits.transaction).room
    have hbumped := h.incrementMutableObjects tx (by omega)
    rw [← htracker] at hbumped
    exact ⟨_, handleDeclaredOps_orderly haccepted hbumped (by omega)⟩
  | deleted hadmits _ _ hclears =>
    have hroom := (hkeeps _ hadmits.transaction).room
    exact ⟨_, trackerSettled_orderly h (by omega) hclears.childless⟩
  | created hadmits _ _ hclears _ _ htracker hdomains hpod hvalid =>
    have hkeeps := hkeeps _ hadmits.transaction
    have hroom := hkeeps.room
    exact ⟨_, hkeeps.created htracker hdomains hpod hvalid (by omega)
      (trackerSettled_orderly h (by omega) hclears.childless)⟩

/-- Child counts are exact and no child is orphaned behind any run of transactions that
keep to these conditions. -/
theorem run_childrenExact (st : Ledger) (steps : List CommitStep)
    (hexact : st.tracker.ChildrenExact) (hkinds : st.tracker.TwoKinds)
    (hkeeps : ∀ pre s post, steps = pre ++ s :: post → ∀ tx, s.atx.transaction = some tx →
      (st.run pre).KeepsCounts s.node tx) :
    (st.run steps).tracker.ChildrenExact := by
  have hrun : ∃ n, (st.run steps).tracker.Orderly n :=
    run_rule (P := fun st => ∃ n, st.tracker.Orderly n)
      ⟨_, Tracker.Orderly.of_childrenExact hexact hkinds⟩
      fun pre s post hsplit h => executeTx_orderly h (hkeeps pre s post hsplit)
  obtain ⟨n, h⟩ := hrun
  exact h.childrenExact

end Ledger

theorem run_childrenExact_nesting :
    (soloLedger.run [nestingStep]).tracker.childCount
        (firstCreated (creatingBody (idOf 11) [0, 0])) = 1 ∧
      (soloLedger.run [nestingStep]).tracker.ChildrenExact := by
  refine ⟨by decide +kernel, soloLedger.run_childrenExact _ ?_ ?_ ?_⟩
  · exact ⟨fun p hp => absurd rfl hp, fun x kind p hx => by cases hx⟩
  · intro x kind p hx
    cases hx
  · intro pre s post hsplit tx htx
    cases pre with
    | cons t pre => simp at hsplit
    | nil =>
      obtain ⟨rfl, -⟩ := List.cons.inj hsplit
      rw [← Option.some.inj htx]
      refine ⟨by decide +kernel, fun input out hout o ho => ?_, by decide +kernel⟩
      obtain rfl := Option.some.inj (Except.ok.inj hout)
      rcases List.mem_pair.1 ho with rfl | rfl
      · exact .inl rfl
      · exact .inr rfl

/-- A pod that creates an object under the first user's key, and hangs a second one from
it by a third kind of edge. -/
def oddKindPod (_ : Hash) (input : PodInput) : Except Unit (Option PodOutput) :=
  .ok (some { createdObjects := [createdUnder keyRootKind (idOf 1),
    createdUnder 2 (firstCreated input.transaction)] })

/-- The first user calls that pod. -/
def hangingTx : Transaction := creatingBody (idOf 11) [0, 0]

/-- The first user declares the deletion of the parent. -/
def orphaningTx : Transaction :=
  signedTx
    { sender := (idOf 1).val
      gasCoin := (idOf 11).val
      maxGas := 100
      mutableRefs := [{ id := (firstCreated hangingTx).val }]
      operations := [{ kind := deleteOp, objectID := (firstCreated hangingTx).val }] }

def orphaningSteps : List CommitStep :=
  [hangingTx, orphaningTx].map fun tx =>
    { node := soloNode oddKindPod
      atx := { transaction := some tx }
      round := 0
      verdict := none }

/-- The edge is not counted, though the walks climb it. So the parent can be deleted, and
the child is left under an object that is gone. -/
theorem orphaningSteps_lose_parent :
    let parent := firstCreated hangingTx
    let child := computeObjectID soloCrypto (hashOrZero hangingTx.hash) 1
    let hung := (soloLedger.run (orphaningSteps.take 1)).tracker
    let orphaned := (soloLedger.run orphaningSteps).tracker
    (orphaningSteps.map fun s => verify s.node.crypto s.node.epochs 0 s.atx) = [none, none] ∧
      hung.getParent parent ≠ none ∧ hung.childCount parent = 0 ∧ hung.children parent = 1 ∧
      ¬ hung.ChildrenExact ∧
      orphaned.getParent child = some (2, parent) ∧ orphaned.getParent parent = none ∧
      ¬ orphaned.ChildrenExact := by
  intro parent child hung orphaned
  have htracked : hung.getParent parent ≠ none := by decide +kernel
  have hcount : hung.childCount parent = 0 := by decide +kernel
  have hchildren : hung.children parent = 1 := by decide +kernel
  have hchild : orphaned.getParent child = some (2, parent) := by decide +kernel
  have hgone : orphaned.getParent parent = none := by decide +kernel
  refine ⟨by decide +kernel, htracked, hcount, hchildren, fun h => ?_, hchild, hgone, fun h => ?_⟩
  · have hexact := h.counts parent htracked
    rw [hcount, hchildren] at hexact
    cases hexact
  · exact h.parents child 2 parent hchild (by decide) hgone

end BluePods
