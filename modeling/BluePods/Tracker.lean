import BluePods.Lib.Tally
import BluePods.Tx

/-! The object tracker: version, replication, deposit and parent edge of every object,
and the version check a committed transaction has to pass. -/

namespace BluePods
open Lib.Tally

structure TrackerEntry where
  version : UInt64 := 0
  replication : UInt16 := 0
  fees : UInt64 := 0
  parentKind : Byte := keyRootKind
  parent : Hash := zeroHash
  childCount : UInt32 := 0
  deriving DecidableEq

abbrev Tracker := AList fun _ : Hash => TrackerEntry

namespace Tracker

/-- The entry of an object; every reader takes zero values for an untracked one. -/
def entry (ot : Tracker) (id : Hash) : TrackerEntry := (ot.lookup id).getD {}

def getVersion (ot : Tracker) (id : Hash) : UInt64 := (ot.entry id).version

def getReplication (ot : Tracker) (id : Hash) : UInt16 := (ot.entry id).replication

def getFees (ot : Tracker) (id : Hash) : UInt64 := (ot.entry id).fees

def childCount (ot : Tracker) (id : Hash) : UInt32 := (ot.entry id).childCount

/-- The parent edge of a tracked object. -/
def getParent (ot : Tracker) (id : Hash) : Option (Byte × Hash) :=
  (ot.lookup id).map fun e => (e.parentKind, e.parent)

/-! ## Writes -/

/-- Change the child count of a tracked object parent. Keys are not counted. -/
def adjustChildCount (ot : Tracker) (kind : Byte) (parentID : Hash)
    (change : UInt32 → UInt32) : Tracker :=
  if kind ≠ objectParentKind then ot
  else
    match ot.lookup parentID with
    | none => ot
    | some e => ot.insert parentID { e with childCount := change e.childCount }

/-- Move one edge from the old parent's count to the new one's. -/
def rebindChildCount (ot : Tracker) (old : Option (Byte × Hash)) (kind : Byte) (parent : Hash) :
    Tracker :=
  match old with
  | none => ot.adjustChildCount kind parent (· + 1)
  | some (oldKind, oldParent) =>
    if oldKind = kind ∧ oldParent = parent then ot
    else (ot.adjustChildCount oldKind oldParent (· - 1)).adjustChildCount kind parent (· + 1)

def trackObject (ot : Tracker) (id : Hash) (version : UInt64) (replication : UInt16)
    (fees : UInt64) (parentKind : Byte) (parent : Hash) : Tracker :=
  let written : Tracker := ot.insert id
    { version, replication, fees, parentKind, parent, childCount := ot.childCount id }
  written.rebindChildCount (ot.getParent id) parentKind parent

def setParent (ot : Tracker) (id : Hash) (kind : Byte) (parent : Hash) : Tracker :=
  ot.trackObject id (ot.getVersion id) (ot.getReplication id) (ot.getFees id) kind parent

def deleteObject (ot : Tracker) (id : Hash) : Tracker :=
  match ot.getParent id with
  | none => ot.erase id
  | some (kind, parent) => adjustChildCount (ot.erase id) kind parent (· - 1)

/-! ## The version check -/

/-- Every reference by identifier names the current version; a reference with neither
identifier nor domain is malformed. -/
def checkRefList (ot : Tracker) (refs : List ObjectRef) : Bool :=
  refs.all fun r =>
    match r.refID with
    | none => !r.domain.isEmpty
    | some id => ot.getVersion id = r.version

def checkVersions (ot : Tracker) (tx : Transaction) : Bool :=
  ot.checkRefList tx.readRefs && ot.checkRefList tx.mutableRefs

/-- Raise the version of one object, leaving its other fields. -/
def bumpVersion (ot : Tracker) (id : Hash) : Tracker :=
  let edge := (ot.getParent id).getD (keyRootKind, zeroHash)
  ot.trackObject id (ot.getVersion id + 1) (ot.getReplication id) (ot.getFees id) edge.1 edge.2

def incrementMutableObjects (ot : Tracker) (tx : Transaction) : Tracker :=
  tx.mutableRefIDs.foldl bumpVersion ot

/-- Check all versions, then raise those of the mutable references. -/
def checkAndUpdate (ot : Tracker) (tx : Transaction) : Option Tracker :=
  if ot.checkVersions tx then some (ot.incrementMutableObjects tx) else none

/-! ## What a version bump keeps -/

theorem bumpVersion_eq (ot : Tracker) (id : Hash) :
    ot.bumpVersion id = ot.insert id { ot.entry id with version := ot.getVersion id + 1 } := by
  cases h : ot.lookup id with
  | none =>
    simp [bumpVersion, trackObject, rebindChildCount, adjustChildCount, getParent, getVersion,
      getReplication, getFees, childCount, entry, h, keyRootKind, objectParentKind]
  | some e =>
    simp [bumpVersion, trackObject, rebindChildCount, getParent, getVersion, getReplication,
      getFees, childCount, entry, h]

theorem entry_bumpVersion (ot : Tracker) (id id' : Hash) :
    (ot.bumpVersion id).entry id' =
      if id' = id then { ot.entry id with version := ot.getVersion id + 1 }
      else ot.entry id' := by
  rw [bumpVersion_eq]
  by_cases h : id' = id
  · subst h
    simp [entry, AList.lookup_insert]
  · simp [entry, AList.lookup_insert_ne h, h]

theorem entry_incrementMutableObjects {γ : Type*} (f : TrackerEntry → γ)
    (hf : ∀ e v, f { e with version := v } = f e) (ot : Tracker) (tx : Transaction) (id : Hash) :
    f ((ot.incrementMutableObjects tx).entry id) = f (ot.entry id) := by
  unfold incrementMutableObjects
  induction tx.mutableRefIDs generalizing ot with
  | nil => rfl
  | cons x ids ih =>
    rw [List.foldl_cons, ih, entry_bumpVersion]
    split
    · rename_i h
      rw [hf, h]
    · rfl

theorem childCount_incrementMutableObjects (ot : Tracker) (tx : Transaction) (id : Hash) :
    (ot.incrementMutableObjects tx).childCount id = ot.childCount id :=
  entry_incrementMutableObjects (·.childCount) (fun _ _ => rfl) ot tx id

/-! ## Sums over entries -/

section Tallies

variable {f : TrackerEntry → Nat} (hf : ∀ e n, f { e with childCount := n } = f e) (ot : Tracker)
  (id parent : Hash) (kind : Byte)

include hf

theorem tally_adjustChildCount (change : UInt32 → UInt32) :
    tally f (ot.adjustChildCount kind parent change) = tally f ot := by
  unfold adjustChildCount
  split
  · rfl
  · cases he : ot.lookup parent with
    | none => rfl
    | some e => exact tally_insert_of_eq ((share_of_lookup he).trans (hf e _).symm)

theorem tally_rebindChildCount (old : Option (Byte × Hash)) :
    tally f (ot.rebindChildCount old kind parent) = tally f ot := by
  unfold rebindChildCount
  split
  · exact tally_adjustChildCount hf ..
  · split
    · rfl
    · rw [tally_adjustChildCount hf, tally_adjustChildCount hf]

theorem tally_trackObject (version : UInt64) (replication : UInt16) (fees : UInt64) :
    tally f (ot.trackObject id version replication fees kind parent) + share f ot id =
      tally f ot +
        f { version, replication, fees, parentKind := kind, parent,
            childCount := ot.childCount id } := by
  rw [trackObject, tally_rebindChildCount hf]
  exact tally_insert ..

theorem tally_deleteObject : tally f (ot.deleteObject id) + share f ot id = tally f ot := by
  rw [← tally_erase f ot id]
  unfold deleteObject
  split
  · rfl
  · rw [tally_adjustChildCount hf]

end Tallies

/-- The deposits locked in the tracker. -/
def deposits (ot : Tracker) : Nat := tally (fun e => e.fees.toNat) ot

theorem toNat_getFees (ot : Tracker) (id : Hash) :
    (ot.getFees id).toNat = share (fun e => e.fees.toNat) ot id := by
  cases h : ot.lookup id <;> simp [getFees, entry, share, h]

theorem deposits_setParent (ot : Tracker) (id : Hash) (kind : Byte) (parent : Hash) :
    (ot.setParent id kind parent).deposits = ot.deposits := by
  have h := tally_trackObject (f := fun e => e.fees.toNat) (fun _ _ => rfl) ot id parent kind
    (ot.getVersion id) (ot.getReplication id) (ot.getFees id)
  rw [← toNat_getFees] at h
  exact Nat.add_right_cancel h

theorem deposits_incrementMutableObjects (ot : Tracker) (tx : Transaction) :
    (ot.incrementMutableObjects tx).deposits = ot.deposits := by
  unfold incrementMutableObjects
  induction tx.mutableRefIDs generalizing ot with
  | nil => rfl
  | cons x ids ih =>
    rw [List.foldl_cons, ih, bumpVersion_eq]
    exact tally_insert_of_eq (toNat_getFees ot x).symm

theorem deposits_deleteObject (ot : Tracker) (id : Hash) :
    (ot.deleteObject id).deposits + (ot.getFees id).toNat = ot.deposits := by
  rw [toNat_getFees]
  exact tally_deleteObject (fun _ _ => rfl) ot id

theorem getVersion_of_checkVersions {ot : Tracker} {tx : Transaction} {r : ObjectRef} {id : Hash}
    (h : ot.checkVersions tx = true) (hr : r ∈ tx.mutableRefs) (hid : r.refID = some id) :
    ot.getVersion id = r.version := by
  rw [checkVersions, Bool.and_eq_true] at h
  simpa [hid] using List.all_eq_true.1 h.2 r hr

end Tracker

end BluePods
