import BluePods.HierarchyTrees

/-! The index manager: the hierarchy trees, the domain tree and the validator tree under one
combined root, edited as objects, names and validators change, with the root of each decided
round kept. Managers whose edits end in the same edges, names and validators have the same
root. -/

namespace BluePods.Index
open Lib.SparseTree

/-! ## Leaves -/

/-- The leaf of a name, which the leaf carries too. -/
def encodeDomainLeaf (name : Bytes) (l : DomainLeaf) : Bytes :=
  putUint32BE (UInt32.ofNat name.length) ++
    (name ++ (l.objectID.val ++ (l.owner.val ++ putUint64BE l.expiry)))

def validatorActive : Byte := 0
def validatorJailed : Byte := 1

/-- The leaves of a holder set, each with its capped weight in the set. -/
def validatorLeaves (votingCapMille : UInt64) (set : ValidatorSet) : List ValidatorLeaf :=
  set.all.map fun v =>
    { pubkey := v.pubkey
      cappedStake := memberWeight votingCapMille set v
      blsKey := v.blsPubkey
      status := if v.jailed then validatorJailed else validatorActive }

/-- What the index reads of a tracked object. -/
structure TrackerEntry where
  id : Hash
  parentKind : Byte
  parent : Hash

/-! ## The manager -/

/-- How many decided rounds the history retains. -/
def historyWindow : Nat := 1000

/-- The trees, the roots of the last decided rounds in order, those of the rounds that
followed a rebuild of the validators, and the last recorded pair. -/
structure Manager where
  hierarchy : HierarchyTrees := .new
  domain : SMT := .new
  validator : BluePods.SMT := .empty
  history : AList fun _ : UInt64 => Hash := ∅
  order : List UInt64 := []
  epochCheckpoints : AList fun _ : UInt64 => Hash := ∅
  pendingCheckpoint : Bool := false
  frontierRound : UInt64 := 0
  frontierRoot : Hash := zeroHash

namespace Manager

variable (cr : Crypto) (m : Manager)

def applyEdge (child : Hash) (kind : Byte) (parent : Hash) : Manager :=
  { m with hierarchy := m.hierarchy.setEdge cr child kind parent }

def removeObject (child : Hash) : Manager :=
  { m with hierarchy := m.hierarchy.removeEdge cr child }

def applyDomain (name : Bytes) (leaf : DomainLeaf) : Manager :=
  { m with domain := m.domain.insert cr name (encodeDomainLeaf name leaf) }

def removeDomain (name : Bytes) : Manager := { m with domain := m.domain.delete cr name }

/-- Replace the validator tree; the next recorded round is a checkpoint. -/
def rebuildValidators (entries : List ValidatorLeaf) : Manager :=
  { m with validator := rebuild cr entries, pendingCheckpoint := true }

/-- The combined root, and the manager with the node hashes remembered. -/
def roots : Hash × Manager :=
  let (domainRoot, domain) := m.domain.root cr
  let (parentRoot, parent) := m.hierarchy.parent.root cr
  let (childrenRoot, top) := m.hierarchy.children.top.root cr
  (combinedRoot cr domainRoot parentRoot childrenRoot (SMT.digest cr m.validator),
    { m with domain, hierarchy := { parent, children := { m.hierarchy.children with top } } })

def root : Hash := (m.roots cr).1

end Manager

/-- Drop the oldest rounds past the window. -/
def evictOldRounds : List UInt64 → (AList fun _ : UInt64 => Hash) →
    List UInt64 × AList fun _ : UInt64 => Hash
  | [], history => ([], history)
  | oldest :: order, history =>
    if (oldest :: order).length > historyWindow then evictOldRounds order (history.erase oldest)
    else (oldest :: order, history)

namespace Manager

/-- Record the root of a round, unless that round or a later one has been recorded. -/
def setFrontier (cr : Crypto) (m : Manager) (round : UInt64) : Manager :=
  if m.order.getLast?.any fun last => round ≤ last then m
  else
    let (root, m) := m.roots cr
    let (order, history) := evictOldRounds (m.order ++ [round]) (m.history.insert round root)
    { m with
      history
      order
      epochCheckpoints :=
        if m.pendingCheckpoint then m.epochCheckpoints.insert round root else m.epochCheckpoints
      pendingCheckpoint := false
      frontierRound := round
      frontierRoot := root }

def committedFrontier (m : Manager) : UInt64 × Hash := (m.frontierRound, m.frontierRoot)

/-- The root of a round, if it is retained. -/
def rootAt (m : Manager) (round : UInt64) : Option Hash :=
  (m.epochCheckpoints.lookup round).or (m.history.lookup round)

/-- Build every tree from scratch. The history is left as it is. -/
def buildFromState (cr : Crypto) (m : Manager) (trackerEntries : List TrackerEntry)
    (domainEntries : List (Bytes × DomainLeaf)) (validatorEntries : List ValidatorLeaf) : Manager :=
  { m with
    hierarchy :=
      trackerEntries.foldl (fun h e => h.setEdge cr e.id e.parentKind e.parent) HierarchyTrees.new
    domain := domainEntries.foldl (fun t e => t.insert cr e.1 (encodeDomainLeaf e.1 e.2)) SMT.new
    validator := rebuild cr validatorEntries }

end Manager

/-! ## Edits -/

/-- A change the node makes to the trees of its index. -/
inductive Edit
  | buildFromState (trackerEntries : List TrackerEntry)
    (domainEntries : List (Bytes × DomainLeaf)) (validatorEntries : List ValidatorLeaf)
  | applyEdge (child : Hash) (kind : Byte) (parent : Hash)
  | removeObject (child : Hash)
  | applyDomain (name : Bytes) (leaf : DomainLeaf)
  | removeDomain (name : Bytes)
  | rebuildValidators (entries : List ValidatorLeaf)

def Manager.feed (cr : Crypto) (m : Manager) : Edit → Manager
  | .buildFromState trackerEntries domainEntries validatorEntries =>
    m.buildFromState cr trackerEntries domainEntries validatorEntries
  | .applyEdge child kind parent => m.applyEdge cr child kind parent
  | .removeObject child => m.removeObject cr child
  | .applyDomain name leaf => m.applyDomain cr name leaf
  | .removeDomain name => m.removeDomain cr name
  | .rebuildValidators entries => m.rebuildValidators cr entries

/-- What an index is of: the edges, the names and the validators. -/
structure View where
  edges : Edges := fun _ => none
  domains : Bytes → Option DomainLeaf := fun _ => none
  validators : List ValidatorLeaf := []

/-- The operation that sets an entry's edge. -/
def TrackerEntry.edgeOp (e : TrackerEntry) : EdgeOp := .set e.id e.parentKind e.parent

def Edit.update (v : View) : Edit → View
  | .buildFromState trackerEntries domainEntries validatorEntries =>
    { edges := edgesAfter (trackerEntries.map TrackerEntry.edgeOp)
      domains := domainEntries.foldl (fun d e => Function.update d e.1 (some e.2)) fun _ => none
      validators := validatorEntries }
  | .applyEdge child kind parent =>
    { v with edges := (EdgeOp.set child kind parent).update v.edges }
  | .removeObject child => { v with edges := (EdgeOp.remove child).update v.edges }
  | .applyDomain name leaf => { v with domains := Function.update v.domains name (some leaf) }
  | .removeDomain name => { v with domains := Function.update v.domains name none }
  | .rebuildValidators entries => { v with validators := entries }

/-- The identifiers an edit names. -/
def Edit.ids : Edit → List Hash
  | .buildFromState trackerEntries _ _ => trackerEntries.flatMap fun e => [e.id, e.parent]
  | .applyEdge child _ parent => [child, parent]
  | .removeObject child => [child]
  | .applyDomain .. | .removeDomain _ | .rebuildValidators _ => []

/-- The domain names an edit names. -/
def Edit.names : Edit → List Bytes
  | .buildFromState _ domainEntries _ => domainEntries.map (·.1)
  | .applyDomain name _ | .removeDomain name => [name]
  | .applyEdge .. | .removeObject _ | .rebuildValidators _ => []

/-! ## The trees of a view -/

/-- The domain tree holds the leaf of each name. -/
def NamesHeld (cr : Crypto) (names : List Bytes) (t : SMT)
    (domains : Bytes → Option DomainLeaf) : Prop :=
  ∃ m, t.Represents cr m ∧ (∀ k ∈ m.keys, k ∈ names) ∧
    ∀ name, m.lookup name = (domains name).map (encodeDomainLeaf name)

section Names

variable {cr : Crypto} {names : List Bytes} {t : SMT} {domains : Bytes → Option DomainLeaf}

section

variable {name : Bytes} (h : NamesHeld cr names t domains)
  (hfree : Tree.CollisionFree cr.blake3 names) (hname : name ∈ names)

include h hfree hname

theorem NamesHeld.insert (leaf : DomainLeaf) :
    NamesHeld cr names (t.insert cr name (encodeDomainLeaf name leaf))
      (Function.update domains name (some leaf)) := by
  refine SMT.Answers.update (o := some _) h hfree hname Function.injective_id fun k => ?_
  by_cases hk : k = name <;> simp [hk]

theorem NamesHeld.delete :
    NamesHeld cr names (t.delete cr name) (Function.update domains name none) := by
  refine SMT.Answers.update (o := none) h hfree hname Function.injective_id fun k => ?_
  by_cases hk : k = name <;> simp [hk]

end

theorem namesHeld_new (cr : Crypto) (names : List Bytes) :
    NamesHeld cr names SMT.new fun _ => none :=
  SMT.Answers.new cr names id

theorem NamesHeld.foldl_insert (h : NamesHeld cr names t domains)
    (hfree : Tree.CollisionFree cr.blake3 names) (entries : List (Bytes × DomainLeaf))
    (hnames : ∀ e ∈ entries, e.1 ∈ names) :
    NamesHeld cr names (entries.foldl (fun t e => t.insert cr e.1 (encodeDomainLeaf e.1 e.2)) t)
      (entries.foldl (fun d e => Function.update d e.1 (some e.2)) domains) := by
  induction entries generalizing t domains with
  | nil => exact h
  | cons e entries ih =>
    rw [List.forall_mem_cons] at hnames
    exact ih (h.insert hfree hnames.1 e.2) hnames.2

theorem NamesHeld.root_eq {t' : SMT} (h : NamesHeld cr names t domains)
    (h' : NamesHeld cr names t' domains) : (t.root cr).1 = (t'.root cr).1 :=
  SMT.Answers.root_eq (fun x _ => ⟨x, rfl⟩) h h' fun _ => rfl

end Names

section Edges

variable {cr : Crypto} {ids : List Hash} {h h' : HierarchyTrees} {edges : Edges}

theorem exists_id {x : Bytes} (hx : x ∈ ids.map (·.val)) : ∃ c : Hash, c.val = x := by
  obtain ⟨c, -, hc⟩ := List.mem_map.1 hx
  exact ⟨c, hc⟩

theorem Mirrors.child_mem (hm : Mirrors cr (ids.map (·.val)) h edges) {c : Hash}
    (hc : edges c ≠ none) : c.val ∈ ids.map (·.val) := by
  obtain ⟨m, -, hkeys, hlook⟩ := hm.parent
  apply hkeys
  rw [← AList.mem_keys, ← AList.lookup_isSome, hlook]
  cases hedge : edges c with
  | none => exact absurd hedge hc
  | some e => rfl

theorem Mirrors.parentRoot_eq (hm : Mirrors cr (ids.map (·.val)) h edges)
    (hm' : Mirrors cr (ids.map (·.val)) h' edges) :
    (h.parent.root cr).1 = (h'.parent.root cr).1 :=
  SMT.Answers.root_eq (fun _ => exists_id) hm.parent hm'.parent fun _ => rfl

theorem subtreeRoot_congr (hfree : Tree.CollisionFree cr.blake3 (ids.map (·.val)))
    {xs ys : List Hash} (hxs : ∀ c ∈ xs, c.val ∈ ids.map (·.val))
    (heq : ∀ c, c ∈ xs ↔ c ∈ ys) : subtreeRoot cr xs = subtreeRoot cr ys := by
  refine SMT.Answers.root_eq (fun x _ => ⟨x, rfl⟩) (childTree_represents hfree xs hxs)
    (childTree_represents hfree ys fun c hc => hxs c ((heq c).2 hc)) fun k => ?_
  simp only [List.mem_map, heq]

theorem Mirrors.childrenRoot_eq (hfree : Tree.CollisionFree cr.blake3 (ids.map (·.val)))
    (hm : Mirrors cr (ids.map (·.val)) h edges) (hm' : Mirrors cr (ids.map (·.val)) h' edges) :
    (h.children.top.root cr).1 = (h'.children.top.root cr).1 := by
  refine SMT.Answers.root_eq (fun _ => exists_id) hm.top hm'.top fun p => ?_
  have hsets : ∀ c, c ∈ h.children.childSet p ↔ c ∈ h'.children.childSet p := fun c =>
    (hm.sets p c).trans (hm'.sets p c).symm
  have hids : ∀ c ∈ h.children.childSet p, c.val ∈ ids.map (·.val) := by
    intro c hc
    obtain ⟨k, hk⟩ := (hm.sets p c).1 hc
    exact hm.child_mem (by rw [hk]; exact Option.some_ne_none _)
  have hnil : h.children.childSet p = [] ↔ h'.children.childSet p = [] := by
    simp only [List.eq_nil_iff_forall_not_mem, hsets]
  rw [subtreeRoot_congr hfree hids hsets]
  exact if_congr hnil rfl rfl

/-- What the trees remember of their hashes is no part of the view. -/
theorem Mirrors.remember (hm : Mirrors cr (ids.map (·.val)) h edges) :
    Mirrors cr (ids.map (·.val))
      { parent := (h.parent.root cr).2
        children := { h.children with top := (h.children.top.root cr).2 } } edges where
  parent := SMT.Answers.root hm.parent
  named := hm.named
  top := SMT.Answers.root hm.top
  nodup := hm.nodup
  sets := hm.sets

end Edges

/-! ## Feeding a manager -/

/-- The manager's trees are those of the view. -/
structure Holds (cr : Crypto) (ids : List Hash) (names : List Bytes) (m : Manager) (v : View) :
    Prop where
  hierarchy : Mirrors cr (ids.map (·.val)) m.hierarchy v.edges
  domain : NamesHeld cr names m.domain v.domains
  validator : m.validator = rebuild cr v.validators

section Feeding

variable {cr : Crypto} {ids : List Hash} {names : List Bytes} {m m' : Manager} {v : View}

theorem holds_new (cr : Crypto) (ids : List Hash) (names : List Bytes) :
    Holds cr ids names {} {} where
  hierarchy := mirrors_new cr _
  domain := namesHeld_new cr names
  validator := rfl

theorem Holds.root_eq (hfree : Tree.CollisionFree cr.blake3 (ids.map (·.val)))
    (h : Holds cr ids names m v) (h' : Holds cr ids names m' v) : m.root cr = m'.root cr := by
  show combinedRoot cr (m.domain.root cr).1 (m.hierarchy.parent.root cr).1
      (m.hierarchy.children.top.root cr).1 (SMT.digest cr m.validator) =
    combinedRoot cr (m'.domain.root cr).1 (m'.hierarchy.parent.root cr).1
      (m'.hierarchy.children.top.root cr).1 (SMT.digest cr m'.validator)
  rw [h.domain.root_eq h'.domain, h.hierarchy.parentRoot_eq h'.hierarchy,
    h.hierarchy.childrenRoot_eq hfree h'.hierarchy, h.validator, h'.validator]

theorem Holds.setFrontier (h : Holds cr ids names m v) (round : UInt64) :
    Holds cr ids names (m.setFrontier cr round) v := by
  unfold Manager.setFrontier
  split
  · exact h
  · exact ⟨h.hierarchy.remember, SMT.Answers.root h.domain, h.validator⟩

section

variable (hfree : Tree.CollisionFree cr.blake3 (ids.map (·.val)))

include hfree

theorem mirrors_buildFromState (entries : List TrackerEntry)
    (hids : ∀ e ∈ entries, e.id ∈ ids ∧ e.parent ∈ ids) :
    Mirrors cr (ids.map (·.val))
      (entries.foldl (fun h e => h.setEdge cr e.id e.parentKind e.parent) HierarchyTrees.new)
      (edgesAfter (entries.map TrackerEntry.edgeOp)) := by
  have heq : entries.foldl (fun h e => h.setEdge cr e.id e.parentKind e.parent)
      HierarchyTrees.new = applyEdges cr (entries.map TrackerEntry.edgeOp) := by
    rw [applyEdges, List.foldl_map]
    rfl
  rw [heq]
  apply mirrors_applyEdges cr _ hfree
  intro x hx
  simp only [edgeIDs, List.mem_flatMap, List.mem_map] at hx
  obtain ⟨_, ⟨e, he, rfl⟩, hx⟩ := hx
  rcases List.mem_cons.1 hx with rfl | hx
  · exact List.mem_map_of_mem (hids e he).1
  · rw [List.mem_singleton.1 hx]
    exact List.mem_map_of_mem (hids e he).2

theorem Holds.feed (hnames : Tree.CollisionFree cr.blake3 names) (h : Holds cr ids names m v)
    {e : Edit} (hids : ∀ id ∈ e.ids, id ∈ ids) (hname : ∀ name ∈ e.names, name ∈ names) :
    Holds cr ids names (m.feed cr e) (e.update v) := by
  have hval : ∀ id ∈ e.ids, id.val ∈ ids.map (·.val) := fun id hid =>
    List.mem_map_of_mem (hids id hid)
  cases e with
  | buildFromState trackerEntries domainEntries validatorEntries =>
    refine ⟨mirrors_buildFromState hfree trackerEntries fun e he => ?_,
      (namesHeld_new cr names).foldl_insert hnames domainEntries fun e he => ?_, rfl⟩
    · exact ⟨hids _ (List.mem_flatMap.2 ⟨e, he, by simp⟩),
        hids _ (List.mem_flatMap.2 ⟨e, he, by simp⟩)⟩
    · exact hname _ (List.mem_map_of_mem he)
  | applyEdge child kind parent =>
    exact ⟨h.hierarchy.setEdge hfree (hval child (by simp [Edit.ids]))
      (hval parent (by simp [Edit.ids])) kind, h.domain, h.validator⟩
  | removeObject child =>
    exact ⟨h.hierarchy.removeEdge hfree (hval child (by simp [Edit.ids])), h.domain, h.validator⟩
  | applyDomain name leaf =>
    exact ⟨h.hierarchy, h.domain.insert hnames (hname name (by simp [Edit.names])) leaf,
      h.validator⟩
  | removeDomain name =>
    exact ⟨h.hierarchy, h.domain.delete hnames (hname name (by simp [Edit.names])), h.validator⟩
  | rebuildValidators entries => exact ⟨h.hierarchy, h.domain, rfl⟩

theorem Holds.foldl_feed (hnames : Tree.CollisionFree cr.blake3 names) (h : Holds cr ids names m v)
    (edits : List Edit) (hids : ∀ e ∈ edits, ∀ id ∈ e.ids, id ∈ ids)
    (hname : ∀ e ∈ edits, ∀ name ∈ e.names, name ∈ names) :
    Holds cr ids names (edits.foldl (Manager.feed cr) m) (edits.foldl Edit.update v) := by
  induction edits generalizing m v with
  | nil => exact h
  | cons e edits ih =>
    rw [List.forall_mem_cons] at hids hname
    exact ih (h.feed hfree hnames hids.1 hname.1) hids.2 hname.2

end

end Feeding

/-- The root of an index is that of the view it comes to: neither the order of the edits nor
their detours show. -/
theorem root_of_view (cr : Crypto) (a b : List Edit)
    (hids : Tree.CollisionFree cr.blake3 (((a ++ b).flatMap Edit.ids).map (·.val)))
    (hnames : Tree.CollisionFree cr.blake3 ((a ++ b).flatMap Edit.names))
    (hview : a.foldl Edit.update {} = b.foldl Edit.update {}) :
    (a.foldl (Manager.feed cr) {}).root cr = (b.foldl (Manager.feed cr) {}).root cr := by
  have hfed (l : List Edit) (hl : l ⊆ a ++ b) :=
    (holds_new cr _ _).foldl_feed hids hnames l
      (fun e he id hid => List.mem_flatMap.2 ⟨e, hl he, hid⟩)
      fun e he name hname => List.mem_flatMap.2 ⟨e, hl he, hname⟩
  have ha := hfed a (List.subset_append_left a b)
  rw [hview] at ha
  exact ha.root_eq hids (hfed b (List.subset_append_right a b))

/-- Beside an object and a name that stay, one that comes and goes leaves no trace. -/
theorem root_of_view_gone :
    (([.applyEdge (idOf 1) 1 (idOf 2), .applyDomain (ascii "shop") ⟨idOf 3, idOf 4, 9⟩,
      .applyEdge (idOf 3) 1 (idOf 2), .removeObject (idOf 1)] : List Edit).foldl
      (Manager.feed Client.tagCrypto) {}).root Client.tagCrypto =
    (([.applyEdge (idOf 3) 1 (idOf 2), .applyDomain (ascii "shop") ⟨idOf 3, idOf 4, 9⟩] :
      List Edit).foldl (Manager.feed Client.tagCrypto) {}).root Client.tagCrypto := by
  refine root_of_view _ _ _ ?_ ?_ ?_
  · unfold Tree.CollisionFree
    decide +kernel
  · unfold Tree.CollisionFree
    decide +kernel
  · have hne : idOf 3 ≠ idOf 1 := by decide
    simp [Edit.update, EdgeOp.update, Function.update_comm hne]

/-! ## The frontier -/

/-- Every recorded round is below a bound. -/
structure Manager.Below (m : Manager) (bound : Nat) : Prop where
  order : ∀ r ∈ m.order, r.toNat < bound
  checkpoints : ∀ r ∈ m.epochCheckpoints.keys, r.toNat < bound

theorem mem_evictOldRounds {order : List UInt64} {history : AList fun _ : UInt64 => Hash}
    {r : UInt64} (h : r ∈ (evictOldRounds order history).1) : r ∈ order := by
  induction order generalizing history with
  | nil => exact h
  | cons oldest order ih =>
    rw [evictOldRounds] at h
    split at h
    · exact List.mem_cons_of_mem _ (ih h)
    · exact h

theorem lookup_evictOldRounds {order : List UInt64} {round : UInt64} (h : round ∉ order)
    (history : AList fun _ : UInt64 => Hash) :
    (evictOldRounds (order ++ [round]) history).2.lookup round = history.lookup round := by
  induction order generalizing history with
  | nil => rfl
  | cons oldest order ih =>
    rw [List.mem_cons, not_or] at h
    rw [List.cons_append, evictOldRounds]
    split
    · rw [ih h.2, AList.lookup_erase_ne h.1]
    · rfl

namespace Manager

variable {cr : Crypto} {m : Manager}

theorem Below.mono {a b : Nat} (h : m.Below a) (hab : a ≤ b) : m.Below b :=
  ⟨fun r hr => (h.order r hr).trans_le hab, fun r hr => (h.checkpoints r hr).trans_le hab⟩

theorem Below.setFrontier {bound : Nat} (h : m.Below bound) {round : UInt64}
    (hround : round.toNat < bound) : (m.setFrontier cr round).Below bound := by
  unfold Manager.setFrontier
  split
  · exact h
  · constructor
    · intro r hr
      rcases List.mem_append.1 (mem_evictOldRounds hr) with hr | hr
      · exact h.order r hr
      · rwa [List.mem_singleton.1 hr]
    · intro r hr
      dsimp only at hr
      split at hr
      · rw [← AList.mem_keys, AList.mem_insert] at hr
        rcases hr with rfl | hr
        · exact hround
        · exact h.checkpoints r (AList.mem_keys.1 hr)
      · exact h.checkpoints r hr

theorem Below.foldl_feed {bound : Nat} (h : m.Below bound) (edits : List Edit) :
    (edits.foldl (feed cr) m).Below bound := by
  induction edits generalizing m with
  | nil => exact h
  | cons e edits ih =>
    refine ih ?_
    cases e <;> exact ⟨h.order, h.checkpoints⟩

theorem setFrontier_records {round : UInt64} (h : m.Below round.toNat) :
    (m.setFrontier cr round).rootAt round = some (m.root cr) ∧
      (m.setFrontier cr round).committedFrontier = (round, m.root cr) := by
  have hnew : round ∉ m.order := fun hr => lt_irrefl _ (h.order round hr)
  have hopen : (m.order.getLast?.any fun last => round ≤ last) = false := by
    rw [Option.any_eq_false]
    intro last hlast
    have hlt := h.order last (List.mem_of_getLast? hlast)
    simpa [UInt64.le_iff_toNat_le] using hlt
  have hcheckpoint : m.epochCheckpoints.lookup round = none :=
    AList.lookup_eq_none.2 fun hr => lt_irrefl _ (h.checkpoints round (AList.mem_keys.1 hr))
  have hhistory := lookup_evictOldRounds hnew (m.history.insert round (m.root cr))
  rw [AList.lookup_insert] at hhistory
  rw [setFrontier, hopen]
  refine ⟨?_, rfl⟩
  show (AList.lookup round (if m.pendingCheckpoint then
      m.epochCheckpoints.insert round (m.root cr) else m.epochCheckpoints)).or
    ((evictOldRounds (m.order ++ [round]) (m.history.insert round (m.root cr))).2.lookup round) = _
  rw [hhistory]
  split
  · rw [AList.lookup_insert]
    rfl
  · rw [hcheckpoint]
    rfl

end Manager

end BluePods.Index
