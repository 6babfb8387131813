import BluePods.HierarchyTrees
import BluePods.LightClient

/-! Proved answers about the hierarchy, checked against an attested index root. A list of
children that is accepted is all of them, and a chain of parent leaves that is accepted is
the walk along the edges, for an index built by any operations and an answer made by
anyone. -/

namespace BluePods.Client
open Lib.SparseTree Index

/-! ## Checking a proof -/

/-- The tree a proof folds to. -/
inductive Component where
  | domain
  | parent
  | children
  deriving DecidableEq

def componentRoot (anchor : ProvedIndexAnchor) : Component → Hash
  | .domain => anchor.domainRoot
  | .parent => anchor.parentRoot
  | .children => anchor.childrenRoot

/-- Why a proved answer is refused, with the values its message prints. -/
inductive AnswerRefusal where
  | noAnswer
  | unbound (cause : Refusal)
  | undecodableProof
  | unfolded (key : Bytes) (root : Hash)
  | leavesUnderAbsence (n : Nat)
  | repeatedID
  | otherSubtree (rebuilt proven : Hash)
  | emptyWalk
  | edgeFor (childID expected : Hash)
  | undecodableLeaf
  | leafOf (childID : Hash)
  | inHop (i : Nat) (cause : AnswerRefusal)
  | tailWithheld
  deriving DecidableEq

/-- The answer's component roots must combine to the attested root, and the proof must fold
the key and value to one of them. -/
def VerifiedAnchor.verifyProof (cr : Crypto) (a : VerifiedAnchor) (anchor : ProvedIndexAnchor)
    (c : Component) (key : Bytes) (value : Option Bytes) (proof : Bytes) :
    Except AnswerRefusal Unit :=
  match a.bind cr anchor with
  | .error cause => .error (.unbound cause)
  | .ok () =>
    match deserializeProof proof with
    | none => .error .undecodableProof
    | some parsed =>
      if !Index.verify cr (componentRoot anchor c) key value parsed then
        .error (.unfolded key (componentRoot anchor c))
      else .ok ()

/-! ## Children -/

structure ListChildrenResponse where
  anchor : ProvedIndexAnchor
  found : Bool
  subtreeRoot : Hash
  proof : Bytes
  children : List Hash

/-- The set of a list, unless it repeats an identifier. -/
def collectSet : List Hash → List Hash → Option (List Hash)
  | set, [] => some set
  | set, c :: cs => if c ∈ set then none else collectSet (set ++ [c]) cs

def childrenSubtreeRoot (cr : Crypto) (children : List Hash) : Option Hash :=
  (collectSet [] children).map (subtreeRoot cr)

def VerifiedAnchor.verifyChildren (cr : Crypto) (a : VerifiedAnchor)
    (resp : Option ListChildrenResponse) (parent : Hash) : Except AnswerRefusal (List Hash) :=
  match resp with
  | none => .error .noAnswer
  | some resp =>
    let value := if resp.found then some resp.subtreeRoot.val else none
    match a.verifyProof cr resp.anchor .children parent.val value resp.proof with
    | .error cause => .error cause
    | .ok () =>
      if !resp.found then
        if resp.children.length ≠ 0 then .error (.leavesUnderAbsence resp.children.length)
        else .ok []
      else
        match childrenSubtreeRoot cr resp.children with
        | none => .error .repeatedID
        | some rebuilt =>
          if rebuilt ≠ resp.subtreeRoot then .error (.otherSubtree rebuilt resp.subtreeRoot)
          else .ok resp.children

/-! ## Ancestry -/

structure AncestorEdge where
  childID : Hash
  leaf : Bytes
  proof : Bytes

structure GetAncestorsResponse where
  anchor : ProvedIndexAnchor
  edges : List AncestorEdge

def nilIfEmpty (b : Bytes) : Option Bytes := if b.length = 0 then none else some b

/-- One hop: the leaf it proves, or nothing when it proves that the object has no edge. -/
def VerifiedAnchor.verifyEdge (cr : Crypto) (a : VerifiedAnchor) (anchor : ProvedIndexAnchor)
    (edge : AncestorEdge) (expected : Hash) : Except AnswerRefusal (Option ParentLeaf) :=
  if edge.childID ≠ expected then .error (.edgeFor edge.childID expected)
  else
    match a.verifyProof cr anchor .parent edge.childID.val (nilIfEmpty edge.leaf) edge.proof with
    | .error cause => .error cause
    | .ok () =>
      match nilIfEmpty edge.leaf with
      | none => .ok none
      | some value =>
        match decodeParentLeaf value with
        | none => .error .undecodableLeaf
        | some leaf =>
          if leaf.childID ≠ edge.childID then .error (.leafOf leaf.childID) else .ok (some leaf)

/-- The hops from index `i` on, the first of which is to be for `expected`. -/
def VerifiedAnchor.verifyHops (cr : Crypto) (a : VerifiedAnchor) (anchor : ProvedIndexAnchor) :
    Nat → Hash → List AncestorEdge → Except AnswerRefusal (List ParentLeaf)
  | _, _, [] => .error .tailWithheld
  | i, expected, edge :: rest =>
    match a.verifyEdge cr anchor edge expected with
    | .error cause => .error (.inHop i cause)
    | .ok none => .ok []
    | .ok (some leaf) =>
      if leaf.parentKind = keyRootKind then .ok [leaf]
      else (a.verifyHops cr anchor (i + 1) leaf.parent rest).map (leaf :: ·)

def VerifiedAnchor.verifyAncestry (cr : Crypto) (a : VerifiedAnchor)
    (resp : Option GetAncestorsResponse) (object : Hash) : Except AnswerRefusal (List ParentLeaf) :=
  match resp with
  | none => .error .emptyWalk
  | some resp =>
    if resp.edges.length = 0 then .error .emptyWalk
    else a.verifyHops cr resp.anchor 0 object resp.edges

/-! ## What is hashed -/

/-- The combined root of an index with given domain and validator roots. -/
def indexRootOf (cr : Crypto) (domain validator : Hash) (h : HierarchyTrees) : Hash :=
  combinedRoot cr domain (h.parent.root cr).1 (h.children.top.root cr).1 validator

/-- The strings hashed for the operations on the trees and for their combined root: empty
subtrees, identifiers, and the component roots together. -/
def indexInputs (cr : Crypto) (domain validator : Hash) (ops : List EdgeOp) : List Bytes :=
  defaultInputs cr ++ (edgeIDs ops ++
    [combinedBytes domain ((applyEdges cr ops).parent.root cr).1
      ((applyEdges cr ops).children.top.root cr).1 validator])

/-- The strings hashed to bind an anchoring block and check one proof. -/
def proofInputs (cr : Crypto) (anchor : ProvedIndexAnchor) (key : Bytes) (value : Option Bytes)
    (proof : Bytes) : List Bytes :=
  combinedBytes anchor.domainRoot anchor.parentRoot anchor.childrenRoot anchor.validatorRoot ::
    match deserializeProof proof with
    | none => []
    | some parsed => verifyInputs cr key value parsed

/-- The strings hashed to check a list of children, beside those of the index: the top tree,
the subtree the index has for the parent, the answer's proof and the subtree it rebuilds. -/
def childrenAnswerInputs (cr : Crypto) (ops : List EdgeOp) (parent : Hash)
    (resp : ListChildrenResponse) : List Bytes :=
  (applyEdges cr ops).children.top.hashedStrings cr ++
    (childrenInputs cr ((applyEdges cr ops).children.childSet parent) ++
      (proofInputs cr resp.anchor parent.val
          (if resp.found then some resp.subtreeRoot.val else none) resp.proof ++
        childrenInputs cr resp.children))

/-- The strings hashed to check a walk, beside those of the index: the parent tree and the
answer's proofs. -/
def ancestryAnswerInputs (cr : Crypto) (ops : List EdgeOp) (resp : GetAncestorsResponse) :
    List Bytes :=
  (applyEdges cr ops).parent.hashedStrings cr ++ resp.edges.flatMap fun edge =>
    proofInputs cr resp.anchor edge.childID.val (nilIfEmpty edge.leaf) edge.proof

/-! ## Real walks -/

/-- The leaves along the edges from an object, up to a key or an object without an edge. -/
inductive Walk (edges : Edges) : Hash → List ParentLeaf → Prop where
  | absent {o : Hash} : edges o = none → Walk edges o []
  | root {o p : Hash} : edges o = some (keyRootKind, p) → Walk edges o [⟨o, keyRootKind, p⟩]
  | hop {o p : Hash} {k : Byte} {chain : List ParentLeaf} : edges o = some (k, p) →
      k ≠ keyRootKind → Walk edges p chain → Walk edges o (⟨o, k, p⟩ :: chain)

/-- There is at most one walk from an object. -/
theorem Walk.unique {edges : Edges} {o : Hash} {chain chain' : List ParentLeaf}
    (h : Walk edges o chain) (h' : Walk edges o chain') : chain = chain' := by
  induction h generalizing chain' <;> cases h' <;> grind

/-! ## An accepted proof -/

section Proofs

variable {cr : Crypto} {a : VerifiedAnchor} {anchor : ProvedIndexAnchor} {c : Component}
  {key proof : Bytes} {value : Option Bytes} {l : List Bytes} {ops : List EdgeOp}
  {domain validator : Hash}

theorem verifyProof_ok (h : a.verifyProof cr anchor c key value proof = .ok ()) :
    combinedRoot cr anchor.domainRoot anchor.parentRoot anchor.childrenRoot anchor.validatorRoot =
        a.indexRoot ∧
      ∃ p, deserializeProof proof = some p ∧
        Index.verify cr (componentRoot anchor c) key value p = true := by
  rw [VerifiedAnchor.verifyProof] at h
  split at h
  · cases h
  · rename_i hbind
    simp only [VerifiedAnchor.bind] at hbind
    split at hbind
    · cases hbind
    split at hbind
    · cases hbind
    rename_i hcombined
    refine ⟨not_not.1 hcombined, ?_⟩
    split at h
    · cases h
    · rename_i p hp
      split at h
      · cases h
      · rename_i hverify
        exact ⟨p, hp, by simpa using hverify⟩

theorem verifyInputs_mem (hproof : proofInputs cr anchor key value proof ⊆ l) {p : Proof}
    (hp : deserializeProof proof = some p) : verifyInputs cr key value p ⊆ l := by
  intro x hx
  apply hproof
  rw [proofInputs, hp]
  exact List.mem_cons_of_mem _ hx

variable (hideal : Ideal cr.blake3 l) (hindex : indexInputs cr domain validator ops ⊆ l)

include hideal hindex

theorem mirrors_of_ideal : Index.Mirrors cr (edgeIDs ops) (applyEdges cr ops) (edgesAfter ops) := by
  have hids : edgeIDs ops ⊆ l := fun x hx =>
    hindex (List.mem_append_right _ (List.mem_append_left _ hx))
  exact mirrors_applyEdges cr ops
    (fun x hx y hy => hideal.free x (hids hx) y (hids hy)) fun x hx => hx

variable (ha : a.indexRoot = indexRootOf cr domain validator (applyEdges cr ops))

include ha

/-- Component roots that combine to the index's root are the index's. -/
theorem roots_of_bound (hproof : proofInputs cr anchor key value proof ⊆ l)
    (h : combinedRoot cr anchor.domainRoot anchor.parentRoot anchor.childrenRoot
      anchor.validatorRoot = a.indexRoot) :
    anchor.parentRoot = ((applyEdges cr ops).parent.root cr).1 ∧
      anchor.childrenRoot = ((applyEdges cr ops).children.top.root cr).1 := by
  have hbytes := hideal.free _ (hproof List.mem_cons_self) _ (hindex (List.mem_append_right _
    (List.mem_append_right _ (List.mem_singleton_self _)))) (h.trans ha)
  obtain ⟨-, hrest⟩ := append_hash_inj hbytes
  obtain ⟨hparent, hrest⟩ := append_hash_inj hrest
  exact ⟨hparent, (append_hash_inj hrest).1⟩

/-- A proof accepted for the children tree shows the subtree root of the parent's set, or
that the set is empty. -/
theorem childSet_of_verifyProof {p : Hash}
    (htop : (applyEdges cr ops).children.top.hashedStrings cr ⊆ l)
    (hproof : proofInputs cr anchor p.val value proof ⊆ l)
    (h : a.verifyProof cr anchor .children p.val value proof = .ok ()) :
    value = if (applyEdges cr ops).children.childSet p = [] then none
      else some (subtreeRoot cr ((applyEdges cr ops).children.childSet p)).val := by
  obtain ⟨hcombined, parsed, hparsed, haccept⟩ := verifyProof_ok h
  obtain ⟨m, hrep, hkeys, hlook⟩ := (mirrors_of_ideal hideal hindex).top
  obtain ⟨-, hroot⟩ := roots_of_bound hideal hindex ha hproof hcombined
  rw [componentRoot, hroot] at haccept
  rw [← hlook p]
  exact (hrep.lookup_eq hideal (fun x hx => hindex (List.mem_append_left _ hx))
    (fun k hk => hindex (List.mem_append_right _ (List.mem_append_left _ (hkeys k hk)))) htop
    (verifyInputs_mem hproof hparsed) haccept).symm

section

variable {expected : Hash} (htree : (applyEdges cr ops).parent.hashedStrings cr ⊆ l)

include htree

theorem edge_of_verifyProof {o : Hash}
    (hproof : proofInputs cr anchor o.val value proof ⊆ l)
    (h : a.verifyProof cr anchor .parent o.val value proof = .ok ()) :
    value = (edgesAfter ops o).map fun e => encodeParentLeaf ⟨o, e.1, e.2⟩ := by
  obtain ⟨hcombined, parsed, hparsed, haccept⟩ := verifyProof_ok h
  obtain ⟨m, hrep, hkeys, hlook⟩ := (mirrors_of_ideal hideal hindex).parent
  obtain ⟨hroot, -⟩ := roots_of_bound hideal hindex ha hproof hcombined
  rw [componentRoot, hroot] at haccept
  rw [← hlook o]
  exact (hrep.lookup_eq hideal (fun x hx => hindex (List.mem_append_left _ hx))
    (fun k hk => hindex (List.mem_append_right _ (List.mem_append_left _ (hkeys k hk)))) htree
    (verifyInputs_mem hproof hparsed) haccept).symm

theorem verifyEdge_ok {edge : AncestorEdge} {leaf : Option ParentLeaf}
    (hproof : proofInputs cr anchor edge.childID.val (nilIfEmpty edge.leaf) edge.proof ⊆ l)
    (h : a.verifyEdge cr anchor edge expected = .ok leaf) :
    leaf = (edgesAfter ops expected).map fun e => ⟨expected, e.1, e.2⟩ := by
  rw [VerifiedAnchor.verifyEdge] at h
  split at h
  · cases h
  rename_i hid
  rw [not_not] at hid
  split at h
  · cases h
  rename_i hverify
  have hvalue := edge_of_verifyProof hideal hindex ha htree hproof hverify
  rw [hvalue, hid] at h
  cases hedge : edgesAfter ops expected with
  | none =>
    rw [hedge] at h
    cases h
    rfl
  | some e =>
    rw [hedge] at h
    simp only [Option.map_some, decode_encodeParentLeaf] at h
    split at h
    · cases h
    · cases h
      rfl

theorem verifyHops_ok {edges : List AncestorEdge} {i : Nat} {chain : List ParentLeaf}
    (hproof : ∀ edge ∈ edges,
      proofInputs cr anchor edge.childID.val (nilIfEmpty edge.leaf) edge.proof ⊆ l)
    (h : a.verifyHops cr anchor i expected edges = .ok chain) :
    Walk (edgesAfter ops) expected chain := by
  induction edges generalizing i expected chain with
  | nil => cases h
  | cons edge rest ih =>
    rw [VerifiedAnchor.verifyHops] at h
    cases hhop : a.verifyEdge cr anchor edge expected with
    | error cause =>
      rw [hhop] at h
      cases h
    | ok leaf =>
      have hleaf := verifyEdge_ok hideal hindex ha htree (hproof edge List.mem_cons_self) hhop
      rw [hhop] at h
      cases hedge : edgesAfter ops expected with
      | none =>
        rw [hedge] at hleaf
        subst hleaf
        cases h
        exact .absent hedge
      | some e =>
        rw [hedge] at hleaf
        subst hleaf
        simp only [Option.map_some] at h
        split at h
        · rename_i hkind
          cases h
          obtain ⟨k, p⟩ := e
          dsimp only at hkind
          subst hkind
          exact .root hedge
        · rename_i hkind
          cases hrest : a.verifyHops cr anchor (i + 1) e.2 rest with
          | error cause =>
            rw [hrest] at h
            cases h
          | ok tail =>
            rw [hrest] at h
            cases h
            exact .hop hedge hkind
              (ih (fun edge he => hproof edge (List.mem_cons_of_mem _ he)) hrest)

end

end Proofs

/-! ## Complete lists of children -/

theorem collectSet_eq {set cs out : List Hash} (hset : set.Nodup)
    (h : collectSet set cs = some out) : out = set ++ cs ∧ out.Nodup := by
  induction cs generalizing set with
  | nil =>
    obtain rfl := Option.some.inj h
    exact ⟨by simp, hset⟩
  | cons c cs ih =>
    rw [collectSet] at h
    split at h
    · cases h
    · rename_i hc
      obtain ⟨rfl, hout⟩ := ih (by simpa using hset.concat hc) h
      exact ⟨by simp, by simpa using hout⟩

theorem verifyChildren_ok {cr : Crypto} {a : VerifiedAnchor} {resp : ListChildrenResponse}
    {parent : Hash} {list : List Hash} (h : a.verifyChildren cr (some resp) parent = .ok list) :
    (resp.found = false ∧ list = [] ∧
        a.verifyProof cr resp.anchor .children parent.val none resp.proof = .ok ()) ∨
      (resp.found = true ∧ list = resp.children ∧ list.Nodup ∧
        subtreeRoot cr list = resp.subtreeRoot ∧
        a.verifyProof cr resp.anchor .children parent.val (some resp.subtreeRoot.val) resp.proof =
          .ok ()) := by
  rw [VerifiedAnchor.verifyChildren] at h
  split at h
  · cases h
  rename_i hverify
  cases hfound : resp.found with
  | false =>
    rw [hfound] at h hverify
    rw [if_pos (show (!false) = true from rfl)] at h
    split at h
    · cases h
    · cases h
      exact .inl ⟨rfl, rfl, hverify⟩
  | true =>
    rw [hfound] at h hverify
    rw [if_neg (by simp)] at h
    cases hset : collectSet [] resp.children with
    | none =>
      rw [childrenSubtreeRoot, hset] at h
      cases h
    | some set =>
      obtain ⟨rfl, hnodup⟩ := collectSet_eq List.nodup_nil hset
      rw [childrenSubtreeRoot, hset] at h
      simp only [Option.map_some, List.nil_append] at h
      split at h
      · cases h
      · rename_i hrebuilt
        cases h
        exact .inr ⟨rfl, rfl, hnodup, not_not.1 hrebuilt, hverify⟩

/-- For an index built by any operations on edges, attested with any domain and validator
roots, and a hash that tells apart what is hashed: a list of children that is accepted for a
parent has each object whose edge leads to the parent, once, and no other. -/
theorem verifyChildren_complete (cr : Crypto) (ops : List EdgeOp) (domain validator : Hash)
    (a : VerifiedAnchor) (ha : a.indexRoot = indexRootOf cr domain validator (applyEdges cr ops))
    (parent : Hash) (resp : ListChildrenResponse)
    (hideal : Ideal cr.blake3
      (indexInputs cr domain validator ops ++ childrenAnswerInputs cr ops parent resp))
    (list : List Hash) (h : a.verifyChildren cr (some resp) parent = .ok list) :
    list.Nodup ∧ ∀ c, c ∈ list ↔ ∃ kind, edgesAfter ops c = some (kind, parent) := by
  generalize hl : indexInputs cr domain validator ops ++ childrenAnswerInputs cr ops parent resp = l
    at hideal
  have hindex : indexInputs cr domain validator ops ⊆ l :=
    fun x hx => by simp [← hl, hx]
  have htop : (applyEdges cr ops).children.top.hashedStrings cr ⊆ l :=
    fun x hx => by simp [← hl, childrenAnswerInputs, hx]
  have hown : childrenInputs cr ((applyEdges cr ops).children.childSet parent) ⊆ l :=
    fun x hx => by simp [← hl, childrenAnswerInputs, hx]
  have hproof : proofInputs cr resp.anchor parent.val
      (if resp.found then some resp.subtreeRoot.val else none) resp.proof ⊆ l :=
    fun x hx => by simp [← hl, childrenAnswerInputs, hx]
  have hserved : childrenInputs cr resp.children ⊆ l :=
    fun x hx => by simp [← hl, childrenAnswerInputs, hx]
  have hsets := (mirrors_of_ideal hideal hindex).sets parent
  rcases verifyChildren_ok h with ⟨hfound, rfl, hverify⟩ | ⟨hfound, rfl, hnodup, hrebuilt, hverify⟩
  · rw [hfound, if_neg (by simp)] at hproof
    have hvalue := childSet_of_verifyProof hideal hindex ha htop hproof hverify
    split at hvalue
    · rename_i hempty
      refine ⟨List.nodup_nil, fun c => ?_⟩
      rw [← hsets c, hempty]
    · cases hvalue
  · rw [hfound, if_pos rfl] at hproof
    have hvalue := childSet_of_verifyProof hideal hindex ha htop hproof hverify
    split at hvalue
    · cases hvalue
    have hroot := hrebuilt.trans (Subtype.ext (Option.some.inj hvalue))
    have hdefault : defaultInputs cr ⊆ l := fun x hx => hindex (List.mem_append_left _ hx)
    refine ⟨hnodup, fun c => ?_⟩
    rw [← hsets c]
    constructor
    · exact mem_of_subtreeRoot_eq hideal.free hdefault hserved hown hroot
    · exact mem_of_subtreeRoot_eq hideal.free hdefault hown hserved hroot.symm

/-! Object 2 hangs from object 128, which hangs from a key. -/

def twoEdges : List EdgeOp := [.set (idOf 2) 1 (idOf 128), .set (idOf 128) 0 (idOf 3)]

def twoTrees : HierarchyTrees := applyEdges tagCrypto twoEdges

def twoAnchor : VerifiedAnchor := ⟨7, indexRootOf tagCrypto zeroHash zeroHash twoTrees, 3⟩

def twoRoots : ProvedIndexAnchor :=
  ⟨true, zeroHash, (twoTrees.parent.root tagCrypto).1, (twoTrees.children.top.root tagCrypto).1,
    zeroHash⟩

/-- The honest answer for object 128. -/
def twoChildren : ListChildrenResponse where
  anchor := twoRoots
  found := true
  subtreeRoot := subtreeRoot tagCrypto [idOf 2]
  proof := (twoTrees.children.top.prove tagCrypto (idOf 128).val).1.serialize
  children := [idOf 2]

theorem verifyChildren_complete_twoChildren :
    twoAnchor.verifyChildren tagCrypto (some twoChildren) (idOf 128) = .ok [idOf 2] ∧
      ∀ c, c ∈ [idOf 2] ↔ ∃ kind, edgesAfter twoEdges c = some (kind, idOf 128) := by
  have hideal : Ideal tagCrypto.blake3 (indexInputs tagCrypto zeroHash zeroHash twoEdges ++
      childrenAnswerInputs tagCrypto twoEdges (idOf 128) twoChildren) := by
    rw [indexInputs, List.append_assoc]
    apply ideal_of_tagged
    · unfold Tree.CollisionFree
      decide +kernel
    · decide +kernel
  have haccept : twoAnchor.verifyChildren tagCrypto (some twoChildren) (idOf 128) =
      .ok [idOf 2] := by decide +kernel
  exact ⟨haccept, (verifyChildren_complete tagCrypto twoEdges zeroHash zeroHash twoAnchor
    (by simp only [twoAnchor, twoTrees]) (idOf 128) twoChildren hideal _ haccept).2⟩

/-- For an index built by any operations on edges, attested with any domain and validator
roots, and a hash that tells apart what is hashed: a chain that is accepted for an object,
from an answer of any length, is the walk along the edges, and there is no other. -/
theorem verifyAncestry_walk (cr : Crypto) (ops : List EdgeOp) (domain validator : Hash)
    (a : VerifiedAnchor) (ha : a.indexRoot = indexRootOf cr domain validator (applyEdges cr ops))
    (object : Hash) (resp : GetAncestorsResponse)
    (hideal : Ideal cr.blake3
      (indexInputs cr domain validator ops ++ ancestryAnswerInputs cr ops resp))
    (chain : List ParentLeaf) (h : a.verifyAncestry cr (some resp) object = .ok chain) :
    Walk (edgesAfter ops) object chain ∧
      ∀ chain', Walk (edgesAfter ops) object chain' → chain' = chain := by
  rw [VerifiedAnchor.verifyAncestry] at h
  split at h
  · cases h
  have hwalk : Walk (edgesAfter ops) object chain := by
    refine verifyHops_ok hideal (fun x hx => List.mem_append_left _ hx) ha ?_ ?_ h
    · exact fun x hx => List.mem_append_right _ (List.mem_append_left _ hx)
    · intro edge hedge x hx
      exact List.mem_append_right _ (List.mem_append_right _ (List.mem_flatMap.2 ⟨edge, hedge, hx⟩))
  exact ⟨hwalk, fun chain' h' => h'.unique hwalk⟩

/-- The honest hop of an object. -/
def twoHop (o : Hash) : AncestorEdge :=
  ⟨o, ((twoTrees.parent.get tagCrypto o.val).getD none).getD [],
    (twoTrees.parent.prove tagCrypto o.val).1.serialize⟩

def twoAncestors : GetAncestorsResponse := ⟨twoRoots, [twoHop (idOf 2), twoHop (idOf 128)]⟩

theorem verifyAncestry_walk_twoAncestors :
    twoAnchor.verifyAncestry tagCrypto (some twoAncestors) (idOf 2) =
        .ok [⟨idOf 2, 1, idOf 128⟩, ⟨idOf 128, 0, idOf 3⟩] ∧
      Walk (edgesAfter twoEdges) (idOf 2) [⟨idOf 2, 1, idOf 128⟩, ⟨idOf 128, 0, idOf 3⟩] := by
  have hideal : Ideal tagCrypto.blake3 (indexInputs tagCrypto zeroHash zeroHash twoEdges ++
      ancestryAnswerInputs tagCrypto twoEdges twoAncestors) := by
    rw [indexInputs, List.append_assoc]
    apply ideal_of_tagged
    · unfold Tree.CollisionFree
      decide +kernel
    · decide +kernel
  have haccept : twoAnchor.verifyAncestry tagCrypto (some twoAncestors) (idOf 2) =
      .ok [⟨idOf 2, 1, idOf 128⟩, ⟨idOf 128, 0, idOf 3⟩] := by decide +kernel
  exact ⟨haccept, (verifyAncestry_walk tagCrypto twoEdges zeroHash zeroHash twoAnchor
    (by simp only [twoAnchor, twoTrees]) (idOf 2) twoAncestors hideal _ haccept).1⟩

end BluePods.Client
