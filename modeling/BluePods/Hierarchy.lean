import BluePods.Lib.Forest
import BluePods.Ops

/-! The ownership hierarchy the tracker keeps: how its writes change the parent edges and
the child counts, and what the two bounded walks up those edges find. -/

namespace BluePods
open Lib.Forest Lib.Tally

/-! ## Walks -/

/-- Parent edges as the walks read them: every kind but a key's leads to an object. -/
def edges (getParent : Hash → Option (Byte × Hash)) : Edges Hash Hash := fun id =>
  (getParent id).map fun edge =>
    if edge.1 = keyRootKind then .inl edge.2 else .inr edge.2

section Walks

variable {getParent : Hash → Option (Byte × Hash)} {id parent : Hash} {kind : Byte}

theorem edges_eq_none : edges getParent id = none ↔ getParent id = none := by
  simp [edges]

theorem edges_of_key (h : getParent id = some (keyRootKind, parent)) :
    edges getParent id = some (.inl parent) := by
  simp [edges, h]

theorem edges_of_object (h : getParent id = some (kind, parent)) (hkind : kind ≠ keyRootKind) :
    edges getParent id = some (.inr parent) := by
  simp [edges, h, hkind]

theorem controllerWalk_eq (fuel : Nat) :
    controllerWalk getParent fuel id = rootOf (edges getParent) fuel id := by
  induction fuel generalizing id with
  | zero => rfl
  | succ fuel ih =>
    rw [controllerWalk, rootOf]
    rcases h : getParent id with _ | ⟨kind, parent⟩
    · simp [edges_eq_none.2 h]
    · by_cases hkind : kind = keyRootKind
      · subst hkind
        simp [edges_of_key h]
      · simp [edges_of_object h hkind, hkind, ih]

theorem controllerWalk_eq_some {key : Hash} {fuel : Nat} :
    controllerWalk getParent fuel id = some key ↔
      ∃ n ≤ fuel, Rooted (edges getParent) id key n := by
  rw [controllerWalk_eq, rootOf_eq_some]

/-- What a passed cycle check says: the walk from the new parent ends at a key, and does
not meet the object. -/
theorem cycleWalk_eq_false {fuel : Nat} (h : cycleWalk getParent id fuel parent = false) :
    (∃ key n, Rooted (edges getParent) parent key n) ∧ ¬ Reaches (edges getParent) parent id := by
  induction fuel generalizing parent with
  | zero => simp [cycleWalk] at h
  | succ fuel ih =>
    rw [cycleWalk] at h
    split at h
    · cases h
    rename_i hne
    match hp : getParent parent with
    | none => simp [hp] at h
    | some (kind, above) =>
      rw [hp] at h
      dsimp only at h
      split at h
      · rename_i hkind
        subst hkind
        have hroot := edges_of_key hp
        refine ⟨⟨above, 1, .root hroot⟩, fun hreach => ?_⟩
        rcases hreach.cases_head with rfl | ⟨c, hc, -⟩
        · exact hne rfl
        · simp [Under, hroot] at hc
      · rename_i hkind
        have hup := edges_of_object hp hkind
        obtain ⟨⟨key, n, hroot⟩, hfar⟩ := ih h
        refine ⟨⟨key, n + 1, .climb hup hroot⟩, fun hreach => ?_⟩
        rcases hreach.cases_head with rfl | ⟨c, hc, hrest⟩
        · exact hne rfl
        · rw [Under, hup, Option.some.injEq, Sum.inr.injEq] at hc
          exact hfar (hc ▸ hrest)

theorem edges_update {getParent' : Hash → Option (Byte × Hash)} {edge : Option (Byte × Hash)}
    (h : ∀ x, getParent' x = if x = id then edge else getParent x) :
    edges getParent' = Function.update (edges getParent) id
      (edge.map fun e => if e.1 = keyRootKind then .inl e.2 else .inr e.2) := by
  funext x
  by_cases hx : x = id
  · subst hx
    simp [edges, h]
  · simp [edges, h, hx]

end Walks

/-! ## Parent edges -/

namespace Tracker

variable (ot : Tracker) (id parent : Hash) (kind : Byte) (x q : Hash) (version : UInt64)
  (replication : UInt16) (fees : UInt64) (change : UInt32 → UInt32) (old : Option (Byte × Hash))

@[simp] theorem getParent_adjustChildCount (x : Hash) :
    (ot.adjustChildCount kind parent change).getParent x = ot.getParent x := by
  unfold adjustChildCount
  split
  · rfl
  · cases he : ot.lookup parent with
    | none => rfl
    | some e =>
      by_cases hx : x = parent
      · subst hx
        simp [getParent, he]
      · simp [getParent, AList.lookup_insert_ne hx]

@[simp] theorem getParent_rebindChildCount (x : Hash) :
    (ot.rebindChildCount old kind parent).getParent x = ot.getParent x := by
  unfold rebindChildCount
  split
  · simp
  · split <;> simp

theorem getParent_trackObject (x : Hash) :
    (ot.trackObject id version replication fees kind parent).getParent x =
      if x = id then some (kind, parent) else ot.getParent x := by
  simp only [trackObject, getParent_rebindChildCount]
  by_cases hx : x = id
  · subst hx
    simp [getParent]
  · simp [getParent, AList.lookup_insert_ne hx, hx]

theorem getParent_setParent :
    (ot.setParent id kind parent).getParent x =
      if x = id then some (kind, parent) else ot.getParent x :=
  ot.getParent_trackObject ..

theorem getParent_deleteObject :
    (ot.deleteObject id).getParent x = if x = id then none else ot.getParent x := by
  have herase : getParent (ot.erase id) x = if x = id then none else ot.getParent x := by
    by_cases hx : x = id
    · subst hx
      simp [getParent, AList.lookup_erase]
    · simp [getParent, AList.lookup_erase_ne hx, hx]
  unfold deleteObject
  split
  · exact herase
  · rw [getParent_adjustChildCount, herase]

theorem getParent_foldl_deleteObject (ids : List Hash) :
    (ids.foldl deleteObject ot).getParent x = if x ∈ ids then none else ot.getParent x := by
  induction ids generalizing ot with
  | nil => simp
  | cons id ids ih =>
    rw [List.foldl_cons, ih, getParent_deleteObject]
    by_cases hx : x = id <;> simp [hx]

/-- A version bump keeps the edge, and gives an untracked object the zero key. -/
theorem getParent_bumpVersion :
    (ot.bumpVersion id).getParent x =
      if x = id then some ((ot.getParent id).getD (keyRootKind, zeroHash)) else ot.getParent x :=
  ot.getParent_trackObject ..

/-! ## Child counts -/

/-- Whether an edge is counted at `q`. -/
def countsFor (edge : Option (Byte × Hash)) (q : Hash) : Nat :=
  if edge = some (objectParentKind, q) then 1 else 0

/-- How many tracked objects hang from `q` by an edge that is counted. -/
def counted (q : Hash) : Nat := tally (fun e => countsFor (some (e.parentKind, e.parent)) q) ot

theorem share_countsFor :
    share (fun e : TrackerEntry => countsFor (some (e.parentKind, e.parent)) q) ot x =
      countsFor (ot.getParent x) q := by
  cases h : ot.lookup x <;> simp [share, getParent, h, countsFor]

theorem counted_trackObject (q : Hash) :
    (ot.trackObject id version replication fees kind parent).counted q +
        countsFor (ot.getParent id) q =
      ot.counted q + countsFor (some (kind, parent)) q := by
  rw [← share_countsFor]
  exact tally_trackObject (fun _ _ => rfl) ..

theorem counted_deleteObject :
    (ot.deleteObject id).counted q + countsFor (ot.getParent id) q = ot.counted q := by
  rw [← share_countsFor]
  exact tally_deleteObject (fun _ _ => rfl) ..

theorem childCount_adjustChildCount (q : Hash) :
    (ot.adjustChildCount kind parent change).childCount q =
      if some (kind, parent) = some (objectParentKind, q) ∧ (ot.lookup q).isSome then
        change (ot.childCount q)
      else ot.childCount q := by
  unfold adjustChildCount
  by_cases hkind : kind = objectParentKind
  · subst hkind
    cases he : ot.lookup parent with
    | none =>
      by_cases hq : parent = q
      · subst hq
        simp [he]
      · simp [hq]
    | some e =>
      by_cases hq : parent = q
      · subst hq
        simp [childCount, entry, he]
      · simp [childCount, entry, AList.lookup_insert_ne (Ne.symm hq), hq]
  · simp [hkind]

theorem lookup_isSome_iff : (ot.lookup q).isSome ↔ ot.getParent q ≠ none := by
  cases h : ot.lookup q <;> simp [getParent, h]

theorem childCount_of_untracked {q : Hash} (h : ot.getParent q = none) : ot.childCount q = 0 := by
  have hlookup : ot.lookup q = none := by simpa [getParent] using h
  simp [childCount, entry, hlookup]

/-- Rebinding moves one unit between the counts of the two object parents, as far as they
are tracked. -/
theorem childCount_rebindChildCount {q : Hash} (hq : ot.getParent q ≠ none) :
    (ot.rebindChildCount old kind parent).childCount q =
      ot.childCount q - UInt32.ofNat (countsFor old q) +
        UInt32.ofNat (countsFor (some (kind, parent)) q) := by
  -- one count moves by the edge, whichever way
  have hadjust : ∀ (ot : Tracker) (kind : Byte) (parent : Hash) (change : UInt32 → UInt32),
      ot.getParent q ≠ none → (ot.adjustChildCount kind parent change).childCount q =
        if some (kind, parent) = some (objectParentKind, q) then change (ot.childCount q)
        else ot.childCount q := by
    intro ot kind parent change hq
    rw [childCount_adjustChildCount, (ot.lookup_isSome_iff q).2 hq]
    simp
  unfold rebindChildCount
  match old with
  | none =>
    dsimp only
    rw [hadjust _ _ _ _ hq]
    by_cases hnew : some (kind, parent) = some (objectParentKind, q) <;> simp [countsFor, hnew]
  | some (oldKind, oldParent) =>
    dsimp only
    by_cases hsame : oldKind = kind ∧ oldParent = parent
    · rw [if_pos hsame, hsame.1, hsame.2]
      simp
    · rw [if_neg hsame, hadjust _ _ _ _ (by simpa using hq), hadjust _ _ _ _ hq]
      by_cases hnew : some (kind, parent) = some (objectParentKind, q) <;>
      by_cases hold : some (oldKind, oldParent) = some (objectParentKind, q) <;>
      simp [countsFor, hnew, hold]

theorem childCount_trackObject {q : Hash}
    (hq : (ot.trackObject id version replication fees kind parent).getParent q ≠ none) :
    (ot.trackObject id version replication fees kind parent).childCount q =
      ot.childCount q - UInt32.ofNat (countsFor (ot.getParent id) q) +
        UInt32.ofNat (countsFor (some (kind, parent)) q) := by
  rw [trackObject, getParent_rebindChildCount] at hq
  rw [trackObject, childCount_rebindChildCount _ _ _ _ hq]
  congr 2
  by_cases hqid : q = id
  · subst hqid
    simp [childCount, entry]
  · simp [childCount, entry, AList.lookup_insert_ne hqid]

theorem childCount_deleteObject {q : Hash} (hq : (ot.deleteObject id).getParent q ≠ none) :
    (ot.deleteObject id).childCount q =
      ot.childCount q - UInt32.ofNat (countsFor (ot.getParent id) q) := by
  have hne : q ≠ id := by
    rintro rfl
    simp [getParent_deleteObject] at hq
  have herase : childCount (ot.erase id) q = ot.childCount q := by
    simp [childCount, entry, AList.lookup_erase_ne hne]
  unfold deleteObject at hq ⊢
  rcases hold : ot.getParent id with _ | ⟨kind, parent⟩
  · simpa [countsFor, hold] using herase
  · rw [hold] at hq
    dsimp only at hq ⊢
    rw [getParent_adjustChildCount, ← lookup_isSome_iff] at hq
    rw [childCount_adjustChildCount, herase]
    by_cases hedge : some (kind, parent) = some (objectParentKind, q) <;>
    simp [countsFor, hedge, hq]

/-- Every count covers the objects counted there. Exact counts do. -/
def CountsCover : Prop := ∀ q, ot.getParent q ≠ none → ot.counted q ≤ (ot.childCount q).toNat

theorem countsCover_iff :
    ot.CountsCover ↔ ∀ q ∈ ot.keys, ot.counted q ≤ (ot.childCount q).toNat := by
  have hmem : ∀ q, ot.getParent q ≠ none ↔ q ∈ ot.keys := fun q => by
    rw [← lookup_isSome_iff, AList.lookup_isSome, AList.mem_keys]
  simp only [CountsCover, hmem]

instance : Decidable ot.CountsCover := decidable_of_iff _ ot.countsCover_iff.symm

end Tracker
end BluePods
