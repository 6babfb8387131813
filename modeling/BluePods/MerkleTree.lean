import BluePods.Index
import BluePods.Lib.Sorted
import BluePods.Lib.SparseOpening

/-! The index's Merkle tree as it is kept: entries by position beside materialized nodes that
remember their digest until an update below makes them dirty. Whatever calls are made, and
whatever digests are remembered between them, the root is the one the reference computes
from the entries alone. -/

namespace BluePods.Index

variable {d : Nat} {es : List Entry}
open Lib.SparseTree

/-! ## The reference -/

/-- The digest of an empty subtree at a depth. -/
def defaultHashes (cr : Crypto) (depth : Nat) : Hash :=
  Tree.emptyRoot (BluePods.SMT.nodeDigest cr) zeroHash (treeDepth - depth)

/-- `append([]byte(nil), b...)`, which is nil when there is nothing to append. -/
def cloneBytes (b : Bytes) : Option Bytes := if b = [] then none else some b

structure Entry where
  keyHash : Hash
  valueHash : Hash
  value : Option Bytes
  deriving DecidableEq

/-- The position and digest of an entry, all that the tree sees of it. -/
def Entry.pair (e : Entry) : Hash × Hash := (e.keyHash, e.valueHash)

/-- The entry of a key with a value. -/
def entryOf (cr : Crypto) (key value : Bytes) : Entry :=
  { keyHash := cr.blake3 key, valueHash := cr.blake3 value, value := cloneBytes value }

def sortEntries (entries : List Entry) : List Entry :=
  entries.insertionSort fun a b => a.keyHash ≤ b.keyHash

/-- `sort.Search` for the first entry with bit 1. -/
def splitOnBit (entries : List Entry) (depth : Nat) : Nat :=
  Lib.Sorted.search entries.length fun i => entries[i]?.any fun e => bit e.keyHash depth

/-- The digest of sorted entries below a depth, `n` levels above the last. Two entries at the
last level are read past the end of a position: `none`. -/
def hashSubtree (cr : Crypto) : Nat → Nat → List Entry → Option Hash
  | _, depth, [] => some (defaultHashes cr depth)
  | _, _, [e] => some (leafHash cr e.keyHash e.valueHash)
  | 0, _, _ :: _ :: _ => none
  | n + 1, depth, e :: e' :: rest => do
    let entries := e :: e' :: rest
    let mid := splitOnBit entries depth
    let left ← hashSubtree cr n (depth + 1) (entries.take mid)
    let right ← hashSubtree cr n (depth + 1) (entries.drop mid)
    some (internalHash cr left right)

def functionalRoot (cr : Crypto) (entries : List Entry) : Option Hash :=
  hashSubtree cr treeDepth 0 (sortEntries entries)

/-! ## Nodes -/

/-- A materialized node. A leaf carries its digest, an internal node the digest it last had
and whether that is out of date. -/
inductive Node where
  | nil
  | leaf (keyHash valueHash hash : Hash)
  | internal (left right : Node) (hash : Hash) (dirty : Bool)

namespace Node

/-- The position of a leaf; the zero value otherwise. -/
def keyHash : Node → Hash
  | leaf k _ _ => k
  | _ => zeroHash

def newLeaf (cr : Crypto) (keyHash valueHash : Hash) : Node :=
  leaf keyHash valueHash (leafHash cr keyHash valueHash)

def branch (first second : Node) (firstBit : Bool) : Node :=
  if firstBit then internal second first zeroHash true
  else internal first second zeroHash true

/-- At most `n` levels; different positions part before the last. -/
def splitLeaves : Nat → Nat → Node → Node → Node
  | 0, _, _, b => b
  | n + 1, depth, a, b =>
    if bit a.keyHash depth ≠ bit b.keyHash depth then branch a b (bit a.keyHash depth)
    else branch (splitLeaves n (depth + 1) a b) nil (bit a.keyHash depth)

def insertNode (cr : Crypto) : Node → Nat → Hash → Hash → Node
  | nil, _, k, v => newLeaf cr k v
  | leaf k' v' h', depth, k, v =>
    if k' = k then leaf k v (leafHash cr k v)
    else splitLeaves (treeDepth - depth) depth (leaf k' v' h') (newLeaf cr k v)
  | internal left right h _, depth, k, v =>
    if bit k depth then internal left (insertNode cr right (depth + 1) k v) h true
    else internal (insertNode cr left (depth + 1) k v) right h true

def collapse : Node → Node
  | internal nil (leaf k v h) _ _ => leaf k v h
  | internal (leaf k v h) nil _ _ => leaf k v h
  | n => n

def deleteNode : Node → Nat → Hash → Node
  | nil, _, _ => nil
  | leaf k' v' h', _, k => if k' = k then nil else leaf k' v' h'
  | internal left right h _, depth, k =>
    if bit k depth then collapse (internal left (deleteNode right (depth + 1) k) h true)
    else collapse (internal (deleteNode left (depth + 1) k) right h true)

/-- The digest of a subtree, and the subtree with the digests it now remembers. -/
def nodeHash (cr : Crypto) : Node → Nat → Hash × Node
  | nil, depth => (defaultHashes cr depth, nil)
  | leaf k v h, _ => (h, leaf k v h)
  | internal left right _ true, depth =>
    let (l, left') := nodeHash cr left (depth + 1)
    let (r, right') := nodeHash cr right (depth + 1)
    (internalHash cr l r, internal left' right' (internalHash cr l r) false)
  | internal left right h false, _ => (h, internal left right h false)

end Node

/-- A path that authenticates a key: the digests hanging off it, deepest first, and the
occupant when the path ends at another key's leaf. -/
structure Proof where
  siblings : List Hash
  leaf : Bytes
  deriving DecidableEq

def otherLeaf (keyHash valueHash : Hash) : Bytes := keyHash.val ++ valueHash.val

/-- The digests along the path of a position, shallowest first, what the path ends on, and
the nodes with the digests they now remember. -/
def provePath (cr : Crypto) (keyHash : Hash) : Node → Nat → List Hash × Bytes × Node
  | .nil, _ => ([], [], .nil)
  | .leaf k v h, _ => ([], if k = keyHash then [] else otherLeaf k v, .leaf k v h)
  | .internal left right h dirty, depth =>
    if bit keyHash depth then
      let (sibling, left') := left.nodeHash cr (depth + 1)
      let (siblings, leaf, right') := provePath cr keyHash right (depth + 1)
      (sibling :: siblings, leaf, .internal left' right' h dirty)
    else
      let (sibling, right') := right.nodeHash cr (depth + 1)
      let (siblings, leaf, left') := provePath cr keyHash left (depth + 1)
      (sibling :: siblings, leaf, .internal left' right' h dirty)

/-! ## The tree -/

/-- The tree as kept: its entries by position and the node at depth 0. -/
structure SMT where
  entries : AList fun _ : Hash => Entry
  tree : Node

namespace SMT

def new : SMT := ⟨∅, .nil⟩

def insert (cr : Crypto) (t : SMT) (key value : Bytes) : SMT :=
  let e := entryOf cr key value
  ⟨t.entries.insert e.keyHash e, t.tree.insertNode cr 0 e.keyHash e.valueHash⟩

def delete (cr : Crypto) (t : SMT) (key : Bytes) : SMT :=
  let kh := cr.blake3 key
  if kh ∈ t.entries then ⟨t.entries.erase kh, t.tree.deleteNode 0 kh⟩ else t

/-- The value stored for a key, a slice that may be nil, if the key is present. -/
def get (cr : Crypto) (t : SMT) (key : Bytes) : Option (Option Bytes) :=
  (t.entries.lookup (cr.blake3 key)).map fun e => cloneBytes (e.value.getD [])

def root (cr : Crypto) (t : SMT) : Hash × SMT :=
  let (h, tree) := t.tree.nodeHash cr 0
  (h, { t with tree })

def prove (cr : Crypto) (t : SMT) (key : Bytes) : Proof × SMT :=
  let (siblings, leaf, tree) := provePath cr (cr.blake3 key) t.tree 0
  (⟨siblings.reverse, leaf⟩, { t with tree })

def entriesSnapshot (t : SMT) : List Entry := t.entries.entries.map (·.2)

/-- A call on the tree. -/
inductive Op where
  | insert (key value : Bytes)
  | delete (key : Bytes)
  | root
  | prove (key : Bytes)

def step (cr : Crypto) (t : SMT) : Op → SMT
  | .insert key value => t.insert cr key value
  | .delete key => t.delete cr key
  | .root => (t.root cr).2
  | .prove key => (t.prove cr key).2

def run (cr : Crypto) (ops : List Op) : SMT := ops.foldl (step cr) new

end SMT

/-- The entries of a map from keys to values. -/
def entriesOf (cr : Crypto) (m : AList fun _ : Bytes => Bytes) : List Entry :=
  m.entries.map fun e => entryOf cr e.1 e.2

/-- What a call does to the map. -/
def SMT.Op.update (m : AList fun _ : Bytes => Bytes) : SMT.Op → AList fun _ : Bytes => Bytes
  | .insert key value => m.insert key value
  | .delete key => m.erase key
  | .root => m
  | .prove _ => m

/-- The map that a list of calls ends in. -/
def finalMap (ops : List SMT.Op) : AList fun _ : Bytes => Bytes := ops.foldl SMT.Op.update ∅

/-- The key that a call inserts or deletes. -/
def SMT.Op.key? : SMT.Op → Option Bytes
  | .insert key _ => some key
  | .delete key => some key
  | .root => none
  | .prove _ => none

def updatedKeys (ops : List SMT.Op) : List Bytes := ops.filterMap SMT.Op.key?

/-! ## What the nodes stand for -/

/-- The digest of a tree whose top is at a depth. -/
abbrev rootAt (cr : Crypto) (t : Tree Hash Hash) (d : Nat) : Hash :=
  t.root (BluePods.SMT.nodeDigest cr) zeroHash treeDepth d

namespace Node

/-- The tree without what its nodes remember. -/
def erase : Node → Tree Hash Hash
  | nil => .empty
  | leaf k v _ => .leaf k v
  | internal left right _ _ => .node left.erase right.erase

/-- Every remembered digest that is not out of date is right. -/
def Memoized (cr : Crypto) : Nat → Node → Prop
  | _, nil => True
  | _, leaf k v h => h = leafHash cr k v
  | d, internal left right h dirty =>
    Memoized cr (d + 1) left ∧ Memoized cr (d + 1) right ∧
      (dirty = false → h = rootAt cr (.node left.erase right.erase) d)

section Nodes

variable {n : Node} {cr : Crypto}

@[simp] theorem erase_branch (a b : Node) (c : Bool) :
    (branch a b c).erase = Tree.branch a.erase b.erase c := by
  cases c <;> rfl

theorem Memoized.branch {a b : Node} (ha : a.Memoized cr (d + 1)) (hb : b.Memoized cr (d + 1))
    (c : Bool) : (Node.branch a b c).Memoized cr d := by
  cases c with
  | false => exact ⟨ha, hb, fun h => by cases h⟩
  | true => exact ⟨hb, ha, fun h => by cases h⟩

theorem splitLeaves_spec {k v h k' v' h' : Hash} (ha : h = leafHash cr k v)
    (hb : h' = leafHash cr k' v') (n d : Nat) :
    (splitLeaves n d (leaf k v h) (leaf k' v' h')).erase =
        Tree.splitLeaves bit n d (k, v) (k', v') ∧
      (splitLeaves n d (leaf k v h) (leaf k' v' h')).Memoized cr d := by
  induction n generalizing d with
  | zero => exact ⟨rfl, hb⟩
  | succ n ih =>
    rw [splitLeaves, Tree.splitLeaves, keyHash, keyHash]
    split
    · exact ⟨erase_branch .., Memoized.branch (a := leaf k v h) (b := leaf k' v' h') ha hb _⟩
    · rw [erase_branch, (ih (d + 1)).1]
      exact ⟨rfl, (ih (d + 1)).2.branch (b := nil) trivial _⟩

/-- Inserting goes to the tree below, and leaves no digest that is wrong. -/
theorem insertNode_spec (h : n.Memoized cr d) (k v : Hash) :
    (n.insertNode cr d k v).erase = n.erase.insert bit treeDepth d k v ∧
      (n.insertNode cr d k v).Memoized cr d := by
  induction n generalizing d with
  | nil => exact ⟨rfl, rfl⟩
  | leaf k' v' h' =>
    rw [insertNode, erase, Tree.insert]
    split
    · exact ⟨rfl, rfl⟩
    · exact splitLeaves_spec h rfl _ _
  | internal left right h' dirty ihl ihr =>
    obtain ⟨hl, hr, -⟩ := h
    rw [insertNode, erase, Tree.insert]
    split
    · exact ⟨congrArg _ (ihr hr).1, hl, (ihr hr).2, fun h => by cases h⟩
    · exact ⟨congrArg (Lib.SparseTree.Tree.node · _) (ihl hl).1, (ihl hl).2, hr,
        fun h => by cases h⟩

theorem erase_collapse (n : Node) : n.collapse.erase = n.erase.collapse := by
  match n with
  | nil | leaf _ _ _ => rfl
  | internal left right _ _ => cases left <;> cases right <;> rfl

theorem Memoized.collapse (h : n.Memoized cr d) : n.collapse.Memoized cr d := by
  unfold Node.collapse
  split
  · exact h.2.1
  · exact h.1
  · exact h

theorem deleteNode_spec (h : n.Memoized cr d) (k : Hash) :
    (n.deleteNode d k).erase = n.erase.delete bit d k ∧ (n.deleteNode d k).Memoized cr d := by
  induction n generalizing d with
  | nil => exact ⟨rfl, trivial⟩
  | leaf k' v' h' =>
    rw [deleteNode, erase, Tree.delete]
    split
    · exact ⟨rfl, trivial⟩
    · exact ⟨rfl, h⟩
  | internal left right h' dirty ihl ihr =>
    obtain ⟨hl, hr, -⟩ := h
    rw [deleteNode, erase, Tree.delete]
    split
    · rw [erase_collapse, erase, (ihr hr).1]
      exact ⟨rfl, Memoized.collapse ⟨hl, (ihr hr).2, fun h => by cases h⟩⟩
    · rw [erase_collapse, erase, (ihl hl).1]
      exact ⟨rfl, Memoized.collapse ⟨(ihl hl).2, hr, fun h => by cases h⟩⟩

/-- The digest asked for is the tree's, and asking for it changes what is remembered only. -/
theorem nodeHash_spec (h : n.Memoized cr d) :
    (n.nodeHash cr d).1 = rootAt cr n.erase d ∧
      (n.nodeHash cr d).2.erase = n.erase ∧ (n.nodeHash cr d).2.Memoized cr d := by
  induction n generalizing d with
  | nil => exact ⟨rfl, rfl, trivial⟩
  | leaf k v h' => exact ⟨h, rfl, h⟩
  | internal left right h' dirty ihl ihr =>
    obtain ⟨hl, hr, hclean⟩ := h
    cases dirty with
    | false => exact ⟨hclean rfl, rfl, hl, hr, hclean⟩
    | true =>
      obtain ⟨hlh, hle, hlm⟩ := ihl hl
      obtain ⟨hrh, hre, hrm⟩ := ihr hr
      have hroot : internalHash cr (left.nodeHash cr (d + 1)).1 (right.nodeHash cr (d + 1)).1 =
          rootAt cr (.node left.erase right.erase) d := by
        rw [hlh, hrh]
        rfl
      refine ⟨hroot, ?_, hlm, hrm, fun _ => ?_⟩
      · show Lib.SparseTree.Tree.node _ _ = _
        rw [hle, hre]
        rfl
      · rw [hle, hre]
        exact hroot

/-- What the end of a path leaves in a proof. -/
def leafBytes (keyHash : Hash) : Option (Hash × Hash) → Bytes
  | none => []
  | some e => if e.1 = keyHash then [] else otherLeaf e.1 e.2

theorem provePath_spec (h : n.Memoized cr d) (k : Hash) :
    (provePath cr k n d).1 =
        Tree.siblings (BluePods.SMT.nodeDigest cr) zeroHash treeDepth bit n.erase d k ∧
      (provePath cr k n d).2.1 = leafBytes k (Tree.tipAt bit n.erase d k) ∧
      (provePath cr k n d).2.2.erase = n.erase ∧ (provePath cr k n d).2.2.Memoized cr d := by
  induction n generalizing d with
  | nil => exact ⟨rfl, rfl, rfl, trivial⟩
  | leaf k' v' h' => exact ⟨rfl, rfl, rfl, h⟩
  | internal left right h' dirty ihl ihr =>
    obtain ⟨hl, hr, hclean⟩ := h
    obtain ⟨hlh, hle, hlm⟩ := nodeHash_spec hl
    obtain ⟨hrh, hre, hrm⟩ := nodeHash_spec hr
    rw [erase, Tree.siblings, Tree.tipAt, provePath]
    split
    · obtain ⟨hss, hleaf, hpe, hpm⟩ := ihr hr
      refine ⟨congrArg₂ List.cons hlh hss, hleaf, ?_, hlm, hpm, ?_⟩
      · exact congrArg₂ Lib.SparseTree.Tree.node hle hpe
      · rw [hle, hpe]
        exact hclean
    · obtain ⟨hss, hleaf, hpe, hpm⟩ := ihl hl
      refine ⟨congrArg₂ List.cons hrh hss, hleaf, ?_, hpm, hrm, ?_⟩
      · exact congrArg₂ Lib.SparseTree.Tree.node hpe hre
      · rw [hpe, hre]
        exact hclean

end Nodes

end Node

/-! ## The reference on a canonical tree -/

theorem lt_of_bit {a b : Hash} (hd : d < treeDepth) (hshare : ∀ i < d, bit a i = bit b i)
    (ha : bit a d = false) (hb : bit b d = true) : a < b := by
  have hla := a.property
  have hlb := b.property
  rw [treeDepth] at hd
  have hbyte : ∀ (h : Hash) {n j : Nat} (hn : n < h.val.length), j < 8 →
      bit h (8 * n + (7 - j)) = (h.val[n]).val.testBit j := by
    intro h n j hn hj
    rw [bit, show (8 * n + (7 - j)) / 8 = n by omega, show 7 - (8 * n + (7 - j)) % 8 = j by omega,
      List.getD_eq_getElem _ _ hn]
  have htop : ∀ (x : Byte) {j : Nat}, 8 ≤ j → x.val.testBit j = false := by
    intro x j hj
    apply Nat.testBit_lt_two_pow
    calc x.val < 2 ^ 8 := x.isLt
      _ ≤ 2 ^ j := Nat.pow_le_pow_right (by norm_num) hj
  apply Subtype.coe_lt_coe.1
  refine List.lt_iff_exists.2 (.inr ⟨d / 8, by omega, by omega, ?_, ?_⟩)
  · -- The bytes before the one of bit `d` are equal bit by bit.
    intro n hn
    refine Fin.ext (Nat.eq_of_testBit_eq fun j => ?_)
    by_cases hj : j < 8
    · rw [← hbyte a (by omega) hj, ← hbyte b (by omega) hj]
      exact hshare _ (by omega)
    · rw [htop _ (by omega), htop _ (by omega)]
  · refine Nat.lt_of_testBit (7 - d % 8) ?_ ?_ fun j hj => ?_
    · rw [← hbyte a (by omega) (by omega), show 8 * (d / 8) + (7 - (7 - d % 8)) = d by omega]
      exact ha
    · rw [← hbyte b (by omega) (by omega), show 8 * (d / 8) + (7 - (7 - d % 8)) = d by omega]
      exact hb
    · by_cases hj8 : j < 8
      · rw [← hbyte a (by omega) hj8, ← hbyte b (by omega) hj8]
        exact hshare _ (by omega)
      · rw [htop _ (by omega), htop _ (by omega)]

/-- Sorted entries that share the bits above a depth are split where that bit changes. -/
theorem splitOnBit_spec {entries : List Entry} (hd : d < treeDepth)
    (hsorted : entries.Pairwise fun a b => a.keyHash ≤ b.keyHash)
    (hshare : ∀ e ∈ entries, ∀ e' ∈ entries, ∀ i < d, bit e.keyHash i = bit e'.keyHash i) :
    entries.take (splitOnBit entries d) = (entries.filter fun e => !bit e.keyHash d) ∧
      entries.drop (splitOnBit entries d) = entries.filter fun e => bit e.keyHash d := by
  have hmono : entries.Pairwise fun a b => bit a.keyHash d = true → bit b.keyHash d = true := by
    refine hsorted.imp_of_mem ?_
    intro a b ha hb hle hbit
    by_contra hnot
    exact absurd hle (not_le_of_gt
      (lt_of_bit hd (hshare b hb a ha) (Bool.eq_false_iff.2 hnot) hbit))
  have hsplit := Lib.Sorted.filter_append_filter hmono
  have hmid : splitOnBit entries d = (entries.filter fun e => !bit e.keyHash d).length := by
    rw [splitOnBit, ← hsplit]
    have := Lib.Sorted.search_append (p := fun e : Entry => bit e.keyHash d)
      (a := entries.filter fun e => !bit e.keyHash d)
      (b := entries.filter fun e => bit e.keyHash d)
      (fun x hx => by simpa using (List.mem_filter.1 hx).2) fun x hx => (List.mem_filter.1 hx).2
    rw [this, hsplit]
  have htake := @List.take_left _ (entries.filter fun e => !bit e.keyHash d)
    (entries.filter fun e => bit e.keyHash d)
  have hdrop := @List.drop_left _ (entries.filter fun e => !bit e.keyHash d)
    (entries.filter fun e => bit e.keyHash d)
  rw [hsplit, ← hmid] at htake hdrop
  exact ⟨htake, hdrop⟩

/-- The entries of one side of a node are those with its bit. -/
theorem perm_side {xs ys : List (Hash × Hash)} {b : Bool}
    (hperm : (es.map Entry.pair).Perm (xs ++ ys)) (hx : ∀ e ∈ xs, bit e.1 d = b)
    (hy : ∀ e ∈ ys, bit e.1 d = !b) :
    ((es.filter fun e => bit e.keyHash d == b).map Entry.pair).Perm xs := by
  have hfilter := hperm.filter fun e => bit e.1 d == b
  have hxs : xs.filter (fun e => bit e.1 d == b) = xs :=
    List.filter_eq_self.2 fun e he => by simp [hx e he]
  have hys : ys.filter (fun e => bit e.1 d == b) = [] :=
    List.filter_eq_nil_iff.2 fun e he => by simp [hy e he]
  rw [List.filter_append, hxs, hys, List.append_nil, List.filter_map] at hfilter
  exact hfilter

theorem hashSubtree_succ (cr : Crypto) (n d : Nat) (hlen : 2 ≤ es.length) :
    hashSubtree cr (n + 1) d es =
      (hashSubtree cr n (d + 1) (es.take (splitOnBit es d))).bind fun left =>
        (hashSubtree cr n (d + 1) (es.drop (splitOnBit es d))).bind fun right =>
          some (internalHash cr left right) := by
  match es, hlen with
  | e :: e' :: rest, _ => rfl

/-- On the sorted entries of a canonical tree the reference gives its digest. -/
theorem hashSubtree_eq (cr : Crypto) {t : Tree Hash Hash} (hcan : t.Canonical bit d)
    (hsorted : es.Pairwise fun a b => a.keyHash ≤ b.keyHash)
    (hperm : (es.map Entry.pair).Perm t.entries) (n : Nat) (hn : treeDepth ≤ d + n) :
    hashSubtree cr n d es = some (rootAt cr t d) := by
  induction t generalizing d es n with
  | empty =>
    obtain rfl : es = [] := List.map_eq_nil_iff.1 hperm.eq_nil
    rw [hashSubtree]
    rfl
  | leaf k v =>
    obtain ⟨e, rfl, he⟩ := List.map_eq_singleton_iff.1 (List.perm_singleton.1 hperm)
    obtain ⟨rfl, rfl⟩ := Prod.mk.inj he
    rw [hashSubtree]
    rfl
  | node l r ihl ihr =>
    have hd := hcan.lt_depth bit_ext hcan.2.2.1
    obtain ⟨hl, hr, hsize, hlb, hrb, hall⟩ := hcan
    have hlen : 2 ≤ es.length := by
      rw [← List.length_map (f := Entry.pair), hperm.length_eq]
      exact hsize
    have hshare : ∀ e ∈ es, ∀ e' ∈ es, ∀ i < d, bit e.keyHash i = bit e'.keyHash i := by
      intro e he e' he'
      exact hall _ (hperm.mem_iff.1 (List.mem_map_of_mem he)) _
        (hperm.mem_iff.1 (List.mem_map_of_mem he'))
    obtain ⟨htake, hdrop⟩ := splitOnBit_spec hd hsorted hshare
    obtain ⟨m, rfl⟩ : ∃ m, n = m + 1 := ⟨n - 1, by omega⟩
    have hleft : ((es.filter fun e => !bit e.keyHash d).map Entry.pair).Perm l.entries := by
      have := perm_side hperm hlb (by simpa using hrb)
      simpa using this
    have hright : ((es.filter fun e => bit e.keyHash d).map Entry.pair).Perm r.entries := by
      have := perm_side (hperm.trans List.perm_append_comm) hrb (by simpa using hlb)
      simpa using this
    rw [hashSubtree_succ cr m d hlen, htake, hdrop,
      ihl hl (hsorted.filter _) hleft m (by omega), ihr hr (hsorted.filter _) hright m (by omega)]
    rfl

theorem sortEntries_perm (es : List Entry) : (sortEntries es).Perm es :=
  List.perm_insertionSort _ es

theorem pairwise_sortEntries (es : List Entry) :
    (sortEntries es).Pairwise fun a b => a.keyHash ≤ b.keyHash := by
  have htotal : Std.Total fun a b : Entry => a.keyHash ≤ b.keyHash := ⟨fun a b => le_total _ _⟩
  have htrans : IsTrans Entry fun a b => a.keyHash ≤ b.keyHash := ⟨fun _ _ _ => le_trans⟩
  exact List.pairwise_insertionSort _ es

/-- The reference gives the root of a canonical tree with the same entries, in any order. -/
theorem functionalRoot_eq (cr : Crypto) {t : Tree Hash Hash} (hcan : t.Canonical bit 0)
    (hperm : (es.map Entry.pair).Perm t.entries) : functionalRoot cr es = some (rootAt cr t 0) :=
  hashSubtree_eq cr hcan (pairwise_sortEntries es)
    (((sortEntries_perm es).map Entry.pair).trans hperm) treeDepth (by omega)

end BluePods.Index
