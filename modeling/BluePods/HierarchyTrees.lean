import BluePods.MerkleProof

/-! The two hierarchy trees of the index: each object's parent edge, and for each parent the
root of a subtree over its children. Both are views of one set of edges, and setting or
removing an edge keeps them so. -/

namespace BluePods.Index
open Lib.SparseTree

/-! ## Parent leaves -/

structure ParentLeaf where
  childID : Hash
  parentKind : Byte
  parent : Hash
  deriving DecidableEq

def encodeParentLeaf (l : ParentLeaf) : Bytes := l.childID.val ++ l.parentKind :: l.parent.val

/-- The inverse of `encodeParentLeaf`, refusing any other length. -/
def decodeParentLeaf (data : Bytes) : Option ParentLeaf :=
  if h : data.length = 65 then
    some { childID := ⟨data.take 32, by simp [h]⟩
           parentKind := data.getD 32 0
           parent := ⟨(data.drop 33).take 32, by simp [h]⟩ }
  else none

theorem decode_encodeParentLeaf (l : ParentLeaf) :
    decodeParentLeaf (encodeParentLeaf l) = some l := by
  have hc := l.childID.property
  have hp := l.parent.property
  have hlen : (encodeParentLeaf l).length = 65 := by
    rw [encodeParentLeaf, List.length_append, List.length_cons, hc, hp]
  have hchild : (encodeParentLeaf l).take 32 = l.childID.val := List.take_left' hc
  have hrest : (encodeParentLeaf l).drop 32 = l.parentKind :: l.parent.val := List.drop_left' hc
  have hkind : (encodeParentLeaf l).getD 32 0 = l.parentKind := by
    rw [encodeParentLeaf, List.getD_eq_getElem?_getD, List.getElem?_append_right (by omega), hc]
    rfl
  have hparent : ((encodeParentLeaf l).drop 33).take 32 = l.parent.val := by
    rw [show 33 = 32 + 1 from rfl, ← List.drop_drop, hrest, List.drop_succ_cons, List.drop_zero,
      List.take_of_length_le (by omega)]
  rw [decodeParentLeaf, dif_pos hlen]
  simp only [hchild, hkind, hparent]

/-! ## The trees -/

def presentMarker : Byte := 1

/-- The subtree over a set of children, in the order the set is ranged over. -/
def childTree (cr : Crypto) (children : List Hash) : SMT :=
  children.foldl (fun t c => t.insert cr c.val [presentMarker]) SMT.new

def subtreeRoot (cr : Crypto) (children : List Hash) : Hash := ((childTree cr children).root cr).1

/-- For each parent the root of its subtree, in the top tree, and the set of its children. -/
structure ChildrenTree where
  top : SMT
  children : AList fun _ : Hash => List Hash

namespace ChildrenTree

def new : ChildrenTree := ⟨SMT.new, ∅⟩

/-- The set of a parent, empty when it has none. -/
def childSet (t : ChildrenTree) (parent : Hash) : List Hash := (t.children.lookup parent).getD []

def syncTop (cr : Crypto) (t : ChildrenTree) (parent : Hash) : ChildrenTree :=
  let set := t.childSet parent
  if set.length = 0 then { t with top := t.top.delete cr parent.val }
  else { t with top := t.top.insert cr parent.val (subtreeRoot cr set).val }

def addChild (cr : Crypto) (t : ChildrenTree) (parent child : Hash) : ChildrenTree :=
  let set := (t.childSet parent).insert child
  { t with children := t.children.insert parent set }.syncTop cr parent

def removeChild (cr : Crypto) (t : ChildrenTree) (parent child : Hash) : ChildrenTree :=
  match t.children.lookup parent with
  | none => t
  | some set =>
    let set := set.erase child
    let children :=
      if set.length = 0 then t.children.erase parent else t.children.insert parent set
    { t with children }.syncTop cr parent

/-- The subtree root the top tree has for a parent. -/
def topLeaf (cr : Crypto) (t : ChildrenTree) (parent : Hash) : Option Hash :=
  (t.top.get cr parent.val).bind fun value => hash32 (value.getD [])

end ChildrenTree

structure HierarchyTrees where
  parent : SMT
  children : ChildrenTree

namespace HierarchyTrees

def new : HierarchyTrees := ⟨SMT.new, ChildrenTree.new⟩

/-- The parent tree's leaf of a child. -/
def getParent (cr : Crypto) (h : HierarchyTrees) (child : Hash) : Option ParentLeaf :=
  (h.parent.get cr child.val).bind fun value => decodeParentLeaf (value.getD [])

/-- The children tree once a child has left the parent it had. -/
def leave (cr : Crypto) (h : HierarchyTrees) (child : Hash) : ChildrenTree :=
  match h.getParent cr child with
  | none => h.children
  | some old => h.children.removeChild cr old.parent child

def setEdge (cr : Crypto) (h : HierarchyTrees) (child : Hash) (kind : Byte) (parent : Hash) :
    HierarchyTrees where
  parent := h.parent.insert cr child.val (encodeParentLeaf ⟨child, kind, parent⟩)
  children := (h.leave cr child).addChild cr parent child

def removeEdge (cr : Crypto) (h : HierarchyTrees) (child : Hash) : HierarchyTrees where
  parent := h.parent.delete cr child.val
  children := h.leave cr child

end HierarchyTrees

/-- A change of one object's edge. -/
inductive EdgeOp where
  | set (child : Hash) (kind : Byte) (parent : Hash)
  | remove (child : Hash)

def EdgeOp.apply (cr : Crypto) (h : HierarchyTrees) : EdgeOp → HierarchyTrees
  | .set child kind parent => h.setEdge cr child kind parent
  | .remove child => h.removeEdge cr child

def applyEdges (cr : Crypto) (ops : List EdgeOp) : HierarchyTrees :=
  ops.foldl (EdgeOp.apply cr) HierarchyTrees.new

/-! ## The edges -/

/-- The parent reference of each object that has one. -/
abbrev Edges := Hash → Option (Byte × Hash)

def EdgeOp.update (edges : Edges) : EdgeOp → Edges
  | .set child kind parent => Function.update edges child (some (kind, parent))
  | .remove child => Function.update edges child none

def edgesAfter (ops : List EdgeOp) : Edges := ops.foldl EdgeOp.update fun _ => none

/-- The identifiers an operation names. -/
def EdgeOp.ids : EdgeOp → List Bytes
  | .set child _ parent => [child.val, parent.val]
  | .remove child => [child.val]

def edgeIDs (ops : List EdgeOp) : List Bytes := ops.flatMap EdgeOp.ids

/-! ## The children tree -/

namespace ChildrenTree

variable {cr : Crypto} {t : ChildrenTree}

@[simp] theorem children_syncTop (t : ChildrenTree) (p : Hash) :
    (t.syncTop cr p).children = t.children := by
  rw [syncTop]
  split
  · rfl
  · rfl

theorem childSet_addChild (t : ChildrenTree) (p c q : Hash) :
    (t.addChild cr p c).childSet q = if q = p then (t.childSet p).insert c else t.childSet q := by
  rw [addChild, childSet, children_syncTop]
  by_cases hq : q = p
  · rw [if_pos hq, hq, AList.lookup_insert]
    rfl
  · rw [if_neg hq, AList.lookup_insert_ne hq]
    rfl

theorem childSet_removeChild (t : ChildrenTree) (p c q : Hash) :
    (t.removeChild cr p c).childSet q = if q = p then (t.childSet p).erase c else t.childSet q := by
  cases hset : t.children.lookup p with
  | none =>
    have hempty : t.childSet p = [] := by rw [childSet, hset]; rfl
    rw [removeChild, hset]
    by_cases hq : q = p
    · rw [if_pos hq, hq, hempty]
      rfl
    · rw [if_neg hq]
  | some set =>
    have hcur : t.childSet p = set := by rw [childSet, hset]; rfl
    rw [removeChild, hset, hcur, childSet, children_syncTop]
    by_cases hq : q = p
    · rw [if_pos hq, hq]
      split
      · rename_i hzero
        rw [AList.lookup_erase, List.length_eq_zero_iff.1 hzero]
        rfl
      · rw [AList.lookup_insert]
        rfl
    · rw [if_neg hq]
      split
      · rw [AList.lookup_erase_ne hq]
        rfl
      · rw [AList.lookup_insert_ne hq]
        rfl

/-- The top tree has the root of every nonempty subtree, under identifiers of `ids`. -/
def TopHolds (cr : Crypto) (ids : List Bytes) (t : ChildrenTree) : Prop :=
  ∃ m, t.top.Represents cr m ∧ (∀ k ∈ m.keys, k ∈ ids) ∧
    ∀ p : Hash, m.lookup p.val =
      if t.childSet p = [] then none else some (subtreeRoot cr (t.childSet p)).val

variable {ids : List Bytes} {c p : Hash}

section

variable (hfree : Tree.CollisionFree cr.blake3 ids) (h : t.TopHolds cr ids)

include hfree h

/-- Syncing the one parent whose set has changed restores the top tree. -/
theorem topHolds_syncTop {t' : ChildrenTree} (htop : t'.top = t.top) (hp : p.val ∈ ids)
    (hsets : ∀ q, q ≠ p → t'.childSet q = t.childSet q) : (t'.syncTop cr p).TopHolds cr ids := by
  have hset : ∀ q, (t'.syncTop cr p).childSet q = t'.childSet q := by
    intro q
    rw [childSet, children_syncTop, childSet]
  let leaf (q : Hash) : Option Bytes :=
    if t'.childSet q = [] then none else some (subtreeRoot cr (t'.childSet q)).val
  have heq : (t'.syncTop cr p).top =
      (leaf p).elim (t.top.delete cr p.val) (t.top.insert cr p.val) := by
    by_cases hnil : t'.childSet p = [] <;> simp [syncTop, leaf, hnil, htop]
  simp only [TopHolds, hset, heq]
  refine SMT.Answers.update (g := leaf) h hfree hp Subtype.val_injective fun q => ?_
  split
  · rename_i hq
    rw [hq]
  · rename_i hq
    simp only [leaf, hsets q hq]

theorem TopHolds.addChild (hp : p.val ∈ ids) (c : Hash) : (t.addChild cr p c).TopHolds cr ids := by
  refine topHolds_syncTop hfree h rfl hp ?_
  intro q hq
  rw [childSet, AList.lookup_insert_ne hq]
  rfl

theorem TopHolds.removeChild (hp : p.val ∈ ids) (c : Hash) :
    (t.removeChild cr p c).TopHolds cr ids := by
  unfold ChildrenTree.removeChild
  split
  · exact h
  · refine topHolds_syncTop hfree h rfl hp ?_
    intro q hq
    rw [childSet]
    split
    · rw [AList.lookup_erase_ne hq]
      rfl
    · rw [AList.lookup_insert_ne hq]
      rfl

end

end ChildrenTree

/-! ## Both trees -/

/-- The trees are views of the edges: the parent tree has a leaf for each, and each parent's
set is that of the objects whose edge leads to it. -/
structure Mirrors (cr : Crypto) (ids : List Bytes) (h : HierarchyTrees) (edges : Edges) : Prop where
  parent : ∃ m, h.parent.Represents cr m ∧ (∀ k ∈ m.keys, k ∈ ids) ∧
    ∀ c : Hash, m.lookup c.val = (edges c).map fun e => encodeParentLeaf ⟨c, e.1, e.2⟩
  named : ∀ c k p, edges c = some (k, p) → p.val ∈ ids
  top : h.children.TopHolds cr ids
  nodup : ∀ p, (h.children.childSet p).Nodup
  sets : ∀ p c, c ∈ h.children.childSet p ↔ ∃ k, edges c = some (k, p)

section Mirrors

variable {cr : Crypto} {ids : List Bytes} {h : HierarchyTrees} {edges : Edges}

theorem mirrors_new (cr : Crypto) (ids : List Bytes) :
    Mirrors cr ids HierarchyTrees.new fun _ => none where
  parent := SMT.Answers.new cr ids _
  named c k p h := by cases h
  top := SMT.Answers.new cr ids _
  nodup p := List.nodup_nil
  sets p c := by simp [HierarchyTrees.new, ChildrenTree.new, ChildrenTree.childSet]

namespace Mirrors

variable (hm : Mirrors cr ids h edges) (hfree : Tree.CollisionFree cr.blake3 ids)

include hm hfree

theorem getParent (hc : c.val ∈ ids) : h.getParent cr c = (edges c).map fun e => ⟨c, e.1, e.2⟩ := by
  rw [HierarchyTrees.getParent, SMT.Answers.get hm.parent hfree hc]
  cases edges c with
  | none => rfl
  | some e =>
    show decodeParentLeaf ((cloneBytes (encodeParentLeaf _)).getD []) = _
    rw [getD_cloneBytes, decode_encodeParentLeaf]
    rfl

/-- Once a child has left its parent, it is in no set, and the others are as they were. -/
theorem leave (hc : c.val ∈ ids) :
    (h.leave cr c).TopHolds cr ids ∧ (∀ p, ((h.leave cr c).childSet p).Nodup) ∧
      ∀ p c', c' ∈ (h.leave cr c).childSet p ↔
        ∃ k, Function.update edges c none c' = some (k, p) := by
  rw [HierarchyTrees.leave, hm.getParent hfree hc]
  cases hedge : edges c with
  | none =>
    refine ⟨hm.top, hm.nodup, ?_⟩
    intro p c'
    show c' ∈ h.children.childSet p ↔ _
    rw [hm.sets p c', ← hedge, Function.update_eq_self]
  | some e =>
    have hmem : ∀ p c', c' ∈ (h.children.removeChild cr e.2 c).childSet p ↔
        c' ≠ c ∧ c' ∈ h.children.childSet p := by
      intro p c'
      rw [ChildrenTree.childSet_removeChild]
      by_cases hp : p = e.2
      · rw [if_pos hp, hp, (hm.nodup e.2).mem_erase_iff]
      · rw [if_neg hp]
        constructor
        · intro hin
          refine ⟨?_, hin⟩
          rintro rfl
          obtain ⟨k, hk⟩ := (hm.sets p c').1 hin
          rw [hedge] at hk
          exact hp (Prod.mk.inj (Option.some.inj hk)).2.symm
        · exact And.right
    refine ⟨hm.top.removeChild hfree (hm.named c e.1 e.2 hedge) c, ?_, ?_⟩
    · intro p
      show ((h.children.removeChild cr e.2 c).childSet p).Nodup
      rw [ChildrenTree.childSet_removeChild]
      split
      · exact (hm.nodup _).erase c
      · exact hm.nodup p
    · intro p c'
      show c' ∈ (h.children.removeChild cr e.2 c).childSet p ↔ _
      rw [hmem, hm.sets p c']
      by_cases hcc : c' = c
      · simp [hcc]
      · rw [Function.update_of_ne hcc]
        simp [hcc]

theorem setEdge (hc : c.val ∈ ids) (hp : p.val ∈ ids) (kind : Byte) :
    Mirrors cr ids (h.setEdge cr c kind p) (Function.update edges c (some (kind, p))) := by
  obtain ⟨htop, hnodup, hsets⟩ := hm.leave hfree hc
  refine ⟨?_, ?_, htop.addChild hfree hp c, ?_, ?_⟩
  · refine SMT.Answers.update (o := some _) hm.parent hfree hc Subtype.val_injective fun c' => ?_
    by_cases hcc : c' = c <;> simp [hcc]
  · intro c' k q hq
    by_cases hcc : c' = c
    · rw [hcc, Function.update_self] at hq
      rw [← (Prod.mk.inj (Option.some.inj hq)).2]
      exact hp
    · rw [Function.update_of_ne hcc] at hq
      exact hm.named c' k q hq
  · intro q
    show (((h.leave cr c).addChild cr p c).childSet q).Nodup
    rw [ChildrenTree.childSet_addChild]
    split
    · exact (hnodup p).insert
    · exact hnodup q
  · intro q c'
    show c' ∈ ((h.leave cr c).addChild cr p c).childSet q ↔ _
    have hmem : c' ∈ ((h.leave cr c).addChild cr p c).childSet q ↔
        (q = p ∧ c' = c) ∨ c' ∈ (h.leave cr c).childSet q := by
      rw [ChildrenTree.childSet_addChild]
      by_cases hq : q = p
      · rw [if_pos hq, List.mem_insert_iff, hq]
        simp
      · rw [if_neg hq]
        simp [hq]
    rw [hmem, hsets q c']
    by_cases hcc : c' = c
    · simp [hcc, eq_comm]
    · rw [Function.update_of_ne hcc, Function.update_of_ne hcc]
      simp [hcc]

theorem removeEdge (hc : c.val ∈ ids) :
    Mirrors cr ids (h.removeEdge cr c) (Function.update edges c none) := by
  obtain ⟨htop, hnodup, hsets⟩ := hm.leave hfree hc
  refine ⟨?_, ?_, htop, hnodup, hsets⟩
  · refine SMT.Answers.update (o := none) hm.parent hfree hc Subtype.val_injective fun c' => ?_
    by_cases hcc : c' = c <;> simp [hcc]
  · intro c' k q hq
    by_cases hcc : c' = c
    · rw [hcc, Function.update_self] at hq
      cases hq
    · rw [Function.update_of_ne hcc] at hq
      exact hm.named c' k q hq

theorem apply {op : EdgeOp} (hop : ∀ x ∈ op.ids, x ∈ ids) :
    Mirrors cr ids (op.apply cr h) (op.update edges) := by
  cases op with
  | set c kind p =>
    exact hm.setEdge hfree (hop _ (by simp [EdgeOp.ids])) (hop _ (by simp [EdgeOp.ids])) kind
  | remove c => exact hm.removeEdge hfree (hop _ (by simp [EdgeOp.ids]))

end Mirrors

theorem mirrors_applyEdges (cr : Crypto) (ops : List EdgeOp)
    (hfree : Tree.CollisionFree cr.blake3 ids) (hids : ∀ x ∈ edgeIDs ops, x ∈ ids) :
    Mirrors cr ids (applyEdges cr ops) (edgesAfter ops) := by
  suffices ∀ (h : HierarchyTrees) (edges : Edges), Mirrors cr ids h edges →
      Mirrors cr ids (ops.foldl (EdgeOp.apply cr) h) (ops.foldl EdgeOp.update edges) from
    this _ _ (mirrors_new cr ids)
  induction ops with
  | nil => exact fun h edges hm => hm
  | cons op ops ih =>
    intro h edges hm
    rw [edgeIDs, List.flatMap_cons] at hids
    exact ih (fun x hx => hids x (List.mem_append_right _ hx)) _ _
      (hm.apply hfree fun x hx => hids x (List.mem_append_left _ hx))

end Mirrors

/-- After any calls the two trees have the same edges: a child is in the set of a parent if and
only if the parent tree leads from it to the parent, and the top tree has the root over that
set, or nothing where it is empty. The hash need only tell the identifiers apart. -/
theorem hierarchy_trees_agree (cr : Crypto) (ops : List EdgeOp) (c p : Hash)
    (hfree : Tree.CollisionFree cr.blake3 (c.val :: p.val :: edgeIDs ops)) :
    let h := applyEdges cr ops
    (c ∈ h.children.childSet p ↔ (h.getParent cr c).map (·.parent) = some p) ∧
      h.children.topLeaf cr p = if h.children.childSet p = [] then none
        else some (subtreeRoot cr (h.children.childSet p)) := by
  have hm := mirrors_applyEdges cr ops hfree fun x hx =>
    List.mem_cons_of_mem _ (List.mem_cons_of_mem _ hx)
  constructor
  · rw [hm.sets, hm.getParent hfree List.mem_cons_self, Option.map_map, Option.map_eq_some_iff]
    simp [Prod.exists]
  · rw [ChildrenTree.topLeaf, SMT.Answers.get hm.top hfree (by simp)]
    split
    · rfl
    · show hash32 ((cloneBytes _).getD []) = _
      rw [getD_cloneBytes, hash32_val]

/-- A child moves from one parent to another. -/
theorem hierarchy_trees_agree_moved :
    let h := applyEdges Client.tagCrypto
      [.set (idOf 1) 1 (idOf 2), .set (idOf 1) 1 (idOf 3)]
    idOf 1 ∈ h.children.childSet (idOf 3) ∧
      h.children.topLeaf Client.tagCrypto (idOf 2) = none := by
  have h := fun p => hierarchy_trees_agree Client.tagCrypto
    [.set (idOf 1) 1 (idOf 2), .set (idOf 1) 1 (idOf 3)] (idOf 1) p
  constructor
  · refine (h (idOf 3) ?_).1.2 (by decide +kernel)
    unfold Tree.CollisionFree
    decide +kernel
  · refine (h (idOf 2) ?_).2.trans (if_pos (by decide +kernel))
    unfold Tree.CollisionFree
    decide +kernel

/-! ## Subtrees -/

section Subtrees

variable {cr : Crypto} {l : List Bytes}

/-- The strings hashed for the subtree of a set of children. -/
def childrenInputs (cr : Crypto) (children : List Hash) : List Bytes :=
  children.map (·.val) ++ treeInputs cr (childTree cr children).entriesSnapshot

theorem childTree_represents {ids : List Bytes} (hfree : Tree.CollisionFree cr.blake3 ids)
    (cs : List Hash) (hids : ∀ c ∈ cs, c.val ∈ ids) :
    (childTree cr cs).Answers cr ids id fun k =>
      if k ∈ cs.map (·.val) then some [presentMarker] else none := by
  induction cs using List.reverseRecOn with
  | nil => exact SMT.Answers.new cr ids id
  | append_singleton cs c ih =>
    rw [childTree, List.foldl_append]
    refine SMT.Answers.update (k := c.val) (o := some _)
      (ih fun c hc => hids c (List.mem_append_left _ hc)) hfree
      (hids c (List.mem_append_right _ (List.mem_singleton_self c))) Function.injective_id
        fun k => ?_
    by_cases hk : k = c.val <;> simp [hk]

theorem mem_of_subtreeRoot_eq (hfree : Tree.CollisionFree cr.blake3 l)
    (hdefault : defaultInputs cr ⊆ l) {xs ys : List Hash}
    (hx : childrenInputs cr xs ⊆ l) (hy : childrenInputs cr ys ⊆ l)
    (heq : subtreeRoot cr xs = subtreeRoot cr ys) (hc : c ∈ xs) : c ∈ ys := by
  have hxid : ∀ c ∈ xs, c.val ∈ l := fun c hc =>
    hx (List.mem_append_left _ (List.mem_map_of_mem hc))
  have hyid : ∀ c ∈ ys, c.val ∈ l := fun c hc =>
    hy (List.mem_append_left _ (List.mem_map_of_mem hc))
  obtain ⟨mx, hmx, -, hlookx⟩ := childTree_represents hfree xs hxid
  obtain ⟨my, hmy, hkeysy, hlooky⟩ := childTree_represents hfree ys hyid
  have hpairs := SMT.Valid.pairs_perm hfree hdefault hmx.valid hmy.valid
    (fun x h => hx (List.mem_append_right _ h)) (fun x h => hy (List.mem_append_right _ h)) heq
  have hstored := hmx.stored c.val [presentMarker]
    ((hlookx _).trans (if_pos (List.mem_map_of_mem hc)))
  obtain ⟨e, he, hpair⟩ := List.mem_map.1 (hpairs.mem_iff.1 (List.mem_map_of_mem
    ((SMT.mem_entriesSnapshot _ _).2 ⟨_, hstored⟩)))
  obtain ⟨k, hk⟩ := (SMT.mem_entriesSnapshot _ e).1 he
  obtain ⟨key, value, hlook, -, rfl⟩ := hmy.only k e hk
  -- The entry found on the other side is that of a child with the same digest.
  have hkey : key = c.val := hfree key (hkeysy key (SMT.mem_keys_of_lookup hlook)) c.val
    (hxid c hc) (Prod.mk.inj hpair).1
  rw [hkey] at hlook
  replace hlook := (hlooky c.val).symm.trans hlook
  dsimp only at hlook
  split at hlook
  · rename_i hmem
    obtain ⟨c', hc', heq'⟩ := List.mem_map.1 hmem
    rwa [← Subtype.ext heq']
  · cases hlook

end Subtrees

end BluePods.Index
