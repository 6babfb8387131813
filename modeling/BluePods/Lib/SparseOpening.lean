import BluePods.Lib.SparseTree

/-! Openings of a sparse tree. The path of a key ends at a leaf or in an empty subtree; the
digests hanging off the path take the digest of that end back up to the root. Whatever
siblings a path is given, it reaches the root of a tree only from the end the tree has on
that path, as long as the hash has no collision among what is compared and never gives the
digest an empty subtree has at the last level. -/

namespace Lib.SparseTree

variable {K V δ : Type*}

namespace Tree

/-- The end of a path: an entry, or nothing. -/
def tip : Option (K × V) → Tree K V
  | none => empty
  | some e => leaf e.1 e.2

@[simp] theorem entries_tip (e : Option (K × V)) : (tip e).entries = e.toList := by
  cases e <;> rfl

theorem canonical_tip (bit : K → Nat → Bool) (d : Nat) (e : Option (K × V)) :
    (tip e).Canonical bit d := by
  cases e <;> trivial

section Path

variable (hash : Preimage K V δ → δ) (base : δ) (D : Nat) (bit : K → Nat → Bool)

/-- One step towards the root from a digest on the side of the key. -/
def climbStep (k : K) (d : Nat) (sibling cur : δ) : Preimage K V δ :=
  if bit k d then .node sibling cur else .node cur sibling

/-- From a digest at the end of a path up to depth `d`; the siblings start at that depth. -/
def climb (k : K) : Nat → List δ → δ → δ
  | _, [], cur => cur
  | d, s :: ss, cur => hash (climbStep bit k d s (climb k (d + 1) ss cur))

/-- What a climb hashes. -/
def climbInputs (k : K) : Nat → List δ → δ → List (Preimage K V δ)
  | _, [], _ => []
  | d, s :: ss, cur =>
    climbStep bit k d s (climb hash bit k (d + 1) ss cur) :: climbInputs k (d + 1) ss cur

/-- Where the path of a key ends. -/
def tipAt : Tree K V → Nat → K → Option (K × V)
  | empty, _, _ => none
  | leaf k' v', _, _ => some (k', v')
  | node l r, d, k => if bit k d then tipAt r (d + 1) k else tipAt l (d + 1) k

/-- The digests hanging off the path of a key, from depth `d` down. -/
def siblings : Tree K V → Nat → K → List δ
  | empty, _, _ => []
  | leaf _ _, _, _ => []
  | node l r, d, k =>
    if bit k d then root hash base D l (d + 1) :: siblings r (d + 1) k
    else root hash base D r (d + 1) :: siblings l (d + 1) k

end Path

section Concat

variable (hash : Preimage K V δ → δ) (bit : K → Nat → Bool) (k : K)

/-- The deepest sibling is the first step of a climb. -/
theorem climb_concat (ss : List δ) (s cur : δ) (d : Nat) :
    climb hash bit k d (ss ++ [s]) cur =
      climb hash bit k d ss (hash (climbStep bit k (d + ss.length) s cur)) := by
  induction ss generalizing d with
  | nil => rfl
  | cons s' ss ih =>
    rw [List.cons_append, climb, climb, ih, List.length_cons, Nat.add_right_comm d 1,
      Nat.add_assoc d]

variable {s cur : δ} {d : Nat} {t : Tree K V} {k : K}

theorem mem_climbInputs_concat {ss : List δ} {x : Preimage K V δ}
    (hx : x ∈ climbInputs hash bit k d (ss ++ [s]) cur) :
    x = climbStep bit k (d + ss.length) s cur ∨
      x ∈ climbInputs hash bit k d ss (hash (climbStep bit k (d + ss.length) s cur)) := by
  induction ss generalizing d with
  | nil => exact .inl (List.mem_singleton.1 hx)
  | cons s' ss ih =>
    have hdepth : d + 1 + ss.length = d + (s' :: ss).length := by
      rw [List.length_cons]
      omega
    rw [List.cons_append, climbInputs, List.mem_cons, climb_concat] at hx
    rw [climbInputs, List.mem_cons, ← hdepth]
    rcases hx with rfl | hx
    · exact .inr (.inl rfl)
    · rcases ih hx with h | h
      · exact .inl h
      · exact .inr (.inr h)

end Concat

section Completeness

variable {bit : K → Nat → Bool} {e : K × V}

theorem mem_of_tipAt (h : tipAt bit t d k = some e) : e ∈ t.entries := by
  induction t generalizing d with
  | empty => cases h
  | leaf k' v' =>
    obtain rfl := Option.some.inj h
    exact List.mem_singleton_self _
  | node l r ihl ihr =>
    rw [tipAt] at h
    split at h
    · exact List.mem_append_right _ (ihr h)
    · exact List.mem_append_left _ (ihl h)

theorem tipAt_of_mem (hcan : t.Canonical bit d) (he : e ∈ t.entries) :
    tipAt bit t d e.1 = some e := by
  induction t generalizing d with
  | empty => cases he
  | leaf k' v' =>
    obtain rfl := List.mem_singleton.1 he
    rfl
  | node l r ihl ihr =>
    obtain ⟨hl, hr, -, hlb, hrb, -⟩ := hcan
    rw [tipAt]
    rcases List.mem_append.1 he with he | he
    · rw [if_neg (by simp [hlb e he])]
      exact ihl hl he
    · rw [if_pos (hrb e he)]
      exact ihr hr he

variable (hash : Preimage K V δ → δ) (base : δ) (D : Nat)

theorem climb_siblings (t : Tree K V) (d : Nat) (k : K) :
    climb hash bit k d (siblings hash base D bit t d k)
      ((tip (tipAt bit t d k)).root hash base D (d + (siblings hash base D bit t d k).length)) =
      t.root hash base D d := by
  induction t generalizing d with
  | empty => rfl
  | leaf k' v' => rfl
  | node l r ihl ihr =>
    rw [siblings, tipAt, root]
    cases hb : bit k d with
    | false =>
      rw [if_neg (by simp), if_neg (by simp), List.length_cons, climb, climbStep, hb,
        if_neg (by simp), ← ihl (d + 1), Nat.add_right_comm d 1, Nat.add_assoc d]
    | true =>
      rw [if_pos rfl, if_pos rfl, List.length_cons, climb, climbStep, hb, if_pos rfl,
        ← ihr (d + 1), Nat.add_right_comm d 1, Nat.add_assoc d]

theorem length_siblings_le {D : Nat} (hsep : Separates bit D) (t : Tree K V) (d : Nat) (k : K)
    (hcan : t.Canonical bit d) : (siblings hash base D bit t d k).length ≤ D - d := by
  induction t generalizing d with
  | empty => simp [siblings]
  | leaf k' v' => simp [siblings]
  | node l r ihl ihr =>
    have hd := hcan.lt_depth hsep hcan.2.2.1
    obtain ⟨hl, hr, -⟩ := hcan
    have hll := ihl (d + 1) hl
    have hrr := ihr (d + 1) hr
    rw [siblings]
    split
    · rw [List.length_cons]
      omega
    · rw [List.length_cons]
      omega

end Completeness

section Soundness

variable {hash : Preimage K V δ → δ} {base : δ} {D : Nat} {bit : K → Nat → Bool}
  {l : List (Preimage K V δ)}

theorem emptyRoot_succ (hd : d < D) :
    emptyRoot hash base (D - d) = hash (.node (emptyRoot hash base (D - (d + 1)))
      (emptyRoot hash base (D - (d + 1)))) := by
  obtain ⟨n, hn⟩ : ∃ n, D - d = n + 1 := ⟨D - d - 1, by omega⟩
  rw [hn, show D - (d + 1) = n by omega]
  rfl

theorem climbStep_ne_leaf (k k' : K) (d : Nat) (s cur : δ) (v : V) :
    (climbStep bit k d s cur : Preimage K V δ) ≠ .leaf k' v := by
  unfold climbStep
  split <;> exact fun h => by cases h

/-- A step that hashes two given digests takes the one on the side of the key. -/
theorem climbStep_eq_node {a b : δ} (h : (climbStep bit k d s cur : Preimage K V δ) = .node a b) :
    cur = if bit k d then b else a := by
  unfold climbStep at h
  split at h
  · rw [if_pos ‹_›]
    exact (Preimage.node.inj h).2
  · rw [if_neg ‹_›]
    exact (Preimage.node.inj h).1

section

variable (hsep : Separates bit D) (hfree : CollisionFree hash l) (hbase : ∀ x ∈ l, hash x ≠ base)
  (hempty : emptyInputs hash base D ⊆ l)

include hsep hfree hbase hempty

/-- The root determines the tree at every depth once no digest is that of nothing. -/
theorem root_injective_of_ne_base {t' : Tree K V} (hcan : t.Canonical bit d)
    (hcan' : t'.Canonical bit d) (hin : t.inputs hash base D d ⊆ l)
    (hin' : t'.inputs hash base D d ⊆ l) (heq : t.root hash base D d = t'.root hash base D d) :
    t = t' := by
  by_cases hd : d < D
  · exact root_injective hsep hfree hempty t t' d hcan hcan' (.inl hd) hin hin' heq
  -- At the last level there is no internal node, and a leaf does not pass for nothing.
  have hlast : emptyRoot hash base (D - d) = base := by
    rw [Nat.sub_eq_zero_of_le (Nat.le_of_not_lt hd)]
    rfl
  have hne : ∀ {s : Tree K V}, s ≠ empty → s.Canonical bit d →
      s.inputs hash base D d ⊆ l → s.root hash base D d ≠ base := by
    intro s hs hc hi
    cases s with
    | empty => exact absurd rfl hs
    | leaf k v => exact hbase _ (hi (by simp [inputs]))
    | node a b => exact absurd (hc.lt_depth hsep hc.2.2.1) hd
  by_cases ht : t = empty
  · by_cases ht' : t' = empty
    · rw [ht, ht']
    · rw [ht, root, hlast] at heq
      exact absurd heq.symm (hne ht' hcan' hin')
  · by_cases ht' : t' = empty
    · rw [ht', root, hlast] at heq
      exact absurd heq (hne ht hcan hin)
    · exact root_injective hsep hfree hempty t t' d hcan hcan' (.inr ⟨ht, ht'⟩) hin hin' heq

/-- A path that climbs to the root of a tree ends at an entry of the tree, or in a subtree
without the key. -/
theorem climb_sound (k : K) (e : Option (K × V)) (ss : List δ) (t : Tree K V) (d : Nat)
    (hcan : t.Canonical bit d) (hlen : d + ss.length ≤ D)
    (htip : (tip e).inputs hash base D (d + ss.length) ⊆ l)
    (hclimb : climbInputs hash bit k d ss ((tip e).root hash base D (d + ss.length)) ⊆ l)
    (hin : t.inputs hash base D d ⊆ l)
    (heq : climb hash bit k d ss ((tip e).root hash base D (d + ss.length)) =
      t.root hash base D d) :
    (∀ x ∈ e, x ∈ t.entries) ∧ ∀ x ∈ t.entries, x.1 = k → e = some x := by
  induction ss generalizing t d with
  | nil =>
    have ht := root_injective_of_ne_base hsep hfree hbase hempty (canonical_tip bit d e) hcan
      htip hin heq
    rw [← ht, entries_tip]
    constructor
    · intro x hx
      exact Option.mem_toList.2 hx
    · intro x hx _
      exact Option.mem_toList.1 hx
  | cons s ss ih =>
    have hshift : d + (s :: ss).length = d + 1 + ss.length := by
      rw [List.length_cons]
      omega
    rw [hshift] at hlen htip hclimb heq
    rw [climb] at heq
    rw [climbInputs, List.cons_subset] at hclimb
    obtain ⟨hstep, hrest⟩ := hclimb
    cases t with
    | empty =>
      rw [root, emptyRoot_succ (by omega)] at heq
      have hnode := hfree _ hstep _ (hempty (mem_emptyInputs (by omega))) heq
      have hcur := climbStep_eq_node hnode
      rw [ite_self] at hcur
      exact ih empty (d + 1) trivial hlen htip hrest (by simp [inputs]) hcur
    | leaf k' v' =>
      have hsame := hfree _ hstep _ (hin (by simp [inputs])) heq
      exact absurd hsame (climbStep_ne_leaf k k' d s _ v')
    | node a b =>
      obtain ⟨ha, hb, -, hab, hbb, -⟩ := hcan
      rw [inputs, List.cons_subset, List.append_subset] at hin
      have hcur := climbStep_eq_node (hfree _ hstep _ hin.1 heq)
      cases hbit : bit k d with
      | false =>
        rw [hbit, if_neg (by simp)] at hcur
        obtain ⟨hmem, hkey⟩ := ih a (d + 1) ha hlen htip hrest hin.2.1 hcur
        refine ⟨fun x hx => List.mem_append_left _ (hmem x hx), ?_⟩
        intro x hx hxk
        rcases List.mem_append.1 hx with hx | hx
        · exact hkey x hx hxk
        · have := hbb x hx
          rw [hxk, hbit] at this
          cases this
      | true =>
        rw [hbit, if_pos rfl] at hcur
        obtain ⟨hmem, hkey⟩ := ih b (d + 1) hb hlen htip hrest hin.2.2 hcur
        refine ⟨fun x hx => List.mem_append_right _ (hmem x hx), ?_⟩
        intro x hx hxk
        rcases List.mem_append.1 hx with hx | hx
        · have := hab x hx
          rw [hxk, hbit] at this
          cases this
        · exact hkey x hx hxk

end

end Soundness

end Tree

end Lib.SparseTree
