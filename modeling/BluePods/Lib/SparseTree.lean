import Mathlib

/-! Sparse Merkle trees with path compression. A key is a string of bits; a subtree with
one entry is that entry's leaf, and an empty subtree has a digest of its own at every
height. The root determines the tree, and the tree its entries, as long as the hash has
no collision among what the roots compared are computed from. -/

namespace Lib.SparseTree

inductive Tree (K V : Type*) where
  | empty
  | leaf (k : K) (v : V)
  | node (l r : Tree K V)

/-- What is hashed: an entry, or the digests of two subtrees. -/
inductive Preimage (K V δ : Type*) where
  | leaf (k : K) (v : V)
  | node (l r : δ)

variable {K V δ : Type*}

namespace Tree

variable {d : Nat} {k : K}

def entries : Tree K V → List (K × V)
  | empty => []
  | leaf k v => [(k, v)]
  | node l r => l.entries ++ r.entries

/-! ## Insertion -/

section Insert

variable (bit : K → Nat → Bool)

/-- An internal node with `first` on the side of its bit. -/
def branch (first second : Tree K V) (firstBit : Bool) : Tree K V :=
  if firstBit then node second first else node first second

/-- The chain of internal nodes that takes two entries apart, at most `n` levels long. -/
def splitLeaves : Nat → Nat → K × V → K × V → Tree K V
  | 0, _, _, b => leaf b.1 b.2
  | n + 1, d, a, b =>
    if bit a.1 d ≠ bit b.1 d then branch (leaf a.1 a.2) (leaf b.1 b.2) (bit a.1 d)
    else branch (splitLeaves n (d + 1) a b) empty (bit a.1 d)

/-- Insertion below depth `d` of a tree of depth `D`. -/
def insert [DecidableEq K] (D : Nat) : Tree K V → Nat → K → V → Tree K V
  | empty, _, k, v => leaf k v
  | leaf k' v', d, k, v =>
    if k' = k then leaf k v else splitLeaves bit (D - d) d (k', v') (k, v)
  | node l r, d, k, v =>
    if bit k d then node l (insert D r (d + 1) k v) else node (insert D l (d + 1) k v) r

def ofList [DecidableEq K] (D : Nat) (l : List (K × V)) : Tree K V :=
  l.foldl (fun t e => t.insert bit D 0 e.1 e.2) empty

end Insert

/-! ## Canonical trees -/

/-- Below depth `d`, every internal node holds at least two entries, sorted by the bit of
its depth, whose keys share all bits above it. -/
def Canonical (bit : K → Nat → Bool) : Nat → Tree K V → Prop
  | _, empty => True
  | _, leaf _ _ => True
  | d, node l r => Canonical bit (d + 1) l ∧ Canonical bit (d + 1) r ∧
      2 ≤ (l.entries ++ r.entries).length ∧
      (∀ e ∈ l.entries, bit e.1 d = false) ∧ (∀ e ∈ r.entries, bit e.1 d = true) ∧
      ∀ e ∈ l.entries ++ r.entries, ∀ e' ∈ l.entries ++ r.entries, ∀ i < d,
        bit e.1 i = bit e'.1 i

/-- The first `D` bits tell keys apart. -/
def Separates (bit : K → Nat → Bool) (D : Nat) : Prop :=
  ∀ k k', (∀ i < D, bit k i = bit k' i) → k = k'

section Laws

variable {t : Tree K V} {es : List (K × V)} {bit : K → Nat → Bool} {D : Nat}

theorem Canonical.nodup (h : t.Canonical bit d) : (t.entries.map (·.1)).Nodup := by
  induction t generalizing d with
  | empty => simp [entries]
  | leaf k v => simp [entries]
  | node l r ihl ihr =>
    obtain ⟨hl, hr, -, hlb, hrb, -⟩ := h
    rw [entries, List.map_append, List.nodup_append]
    refine ⟨ihl hl, ihr hr, ?_⟩
    rintro a ha b hb rfl
    obtain ⟨e, he, rfl⟩ := List.mem_map.1 ha
    obtain ⟨e', he', heq⟩ := List.mem_map.1 hb
    have h0 := hlb e he
    have h1 := hrb e' he'
    rw [heq, h0] at h1
    cases h1

/-- Two entries of a canonical tree differ in a bit, so they lie above the last level. -/
theorem Canonical.lt_depth (h : t.Canonical bit d) (hsep : Separates bit D)
    (hsize : 2 ≤ t.entries.length) : d < D := by
  cases t with
  | empty => simp [entries] at hsize
  | leaf k v => simp [entries] at hsize
  | node l r =>
    by_contra hle
    have hnodup := h.nodup
    obtain ⟨-, -, -, -, -, hshare⟩ := h
    rw [entries] at hsize hnodup
    match hes : l.entries ++ r.entries, hsize with
    | e :: e' :: rest, _ =>
      rw [hes] at hshare hnodup
      have hkey : e.1 = e'.1 := hsep _ _ fun i hi =>
        hshare e (by simp) e' (by simp) i (by omega)
      simp [hkey] at hnodup

/-- At the last level an internal node has an entry on either side. -/
theorem Canonical.children_ne_empty {a b : Tree K V} (h : (node a b).Canonical bit d)
    (hsep : Separates bit D) (hd : D ≤ d + 1) : a ≠ empty ∧ b ≠ empty := by
  obtain ⟨ha, hb, hsize, -⟩ := h
  constructor
  · rintro rfl
    have := hb.lt_depth hsep (by simpa [entries] using hsize)
    omega
  · rintro rfl
    have := ha.lt_depth hsep (by simpa [entries] using hsize)
    omega

/-- A node is canonical over canonical sides, sorted by its bit, whose entries share the
prefix of a key. -/
theorem canonical_node {l r : Tree K V} (hl : l.Canonical bit (d + 1))
    (hr : r.Canonical bit (d + 1)) (hperm : (l.entries ++ r.entries).Perm es)
    (hsize : 2 ≤ es.length) (hlb : ∀ e ∈ l.entries, bit e.1 d = false)
    (hrb : ∀ e ∈ r.entries, bit e.1 d = true) (hshare : ∀ e ∈ es, ∀ i < d, bit e.1 i = bit k i) :
    (node l r).Canonical bit d := by
  refine ⟨hl, hr, hperm.length_eq ▸ hsize, hlb, hrb, fun e he e' he' i hi => ?_⟩
  rw [hshare e (hperm.mem_iff.1 he) i hi, hshare e' (hperm.mem_iff.1 he') i hi]

theorem entries_branch_perm (a b : Tree K V) (c : Bool) :
    (branch a b c).entries.Perm (a.entries ++ b.entries) := by
  cases c with
  | false => exact List.Perm.refl _
  | true => exact List.perm_append_comm

theorem splitLeaves_spec (hsep : Separates bit D) {a b : K × V} (hne : a.1 ≠ b.1) (n d : Nat)
    (hn : D ≤ d + n) (hshare : ∀ i < d, bit a.1 i = bit b.1 i) :
    (splitLeaves bit n d a b).Canonical bit d ∧ (splitLeaves bit n d a b).entries.Perm [a, b] := by
  induction n generalizing d with
  | zero => exact absurd (hsep _ _ fun i hi => hshare i (by omega)) hne
  | succ n ih =>
    have hpair : ∀ e ∈ [a, b], ∀ i < d, bit e.1 i = bit a.1 i := by
      intro e he i hi
      rcases List.mem_pair.1 he with rfl | rfl
      · rfl
      · exact (hshare i hi).symm
    by_cases hbit : bit a.1 d = bit b.1 d
    · obtain ⟨hcan, hperm⟩ := ih (d + 1) (by omega) fun i hi => by
        rcases Nat.lt_succ_iff_lt_or_eq.1 hi with h | rfl
        · exact hshare i h
        · exact hbit
      have hside : ∀ e ∈ (splitLeaves bit n (d + 1) a b).entries, bit e.1 d = bit a.1 d := by
        intro e he
        rcases List.mem_pair.1 (hperm.mem_iff.1 he) with rfl | rfl
        · rfl
        · exact hbit.symm
      rw [splitLeaves, if_neg (not_not.2 hbit)]
      refine ⟨?_, (entries_branch_perm _ _ _).trans (by simpa [entries] using hperm)⟩
      cases hb : bit a.1 d with
      | false =>
        rw [hb] at hside
        exact canonical_node hcan trivial (by simpa [entries] using hperm) le_rfl hside
          (by simp [entries]) hpair
      | true =>
        rw [hb] at hside
        exact canonical_node trivial hcan hperm le_rfl (by simp [entries]) hside hpair
    · rw [splitLeaves, if_pos hbit]
      refine ⟨?_, entries_branch_perm _ _ _⟩
      cases hb : bit a.1 d with
      | false =>
        have hb' : bit b.1 d = true := by simpa [hb] using hbit
        exact canonical_node trivial trivial (.refl _) le_rfl (by simp [entries, hb])
          (by simp [entries, hb']) hpair
      | true =>
        have hb' : bit b.1 d = false := by simpa [hb] using hbit
        exact canonical_node trivial trivial (.swap _ _ _) le_rfl (by simp [entries, hb'])
          (by simp [entries, hb]) hpair

theorem length_le_filter_key [DecidableEq K] (hnodup : (es.map (·.1)).Nodup) (k : K) :
    es.length ≤ (es.filter fun e => e.1 ≠ k).length + 1 := by
  have hcount := List.nodup_iff_count_le_one.1 hnodup k
  rw [List.count, List.countP_map] at hcount
  have hsplit := List.length_eq_countP_add_countP (fun e : K × V => decide (e.1 ≠ k)) (l := es)
  have hone : es.countP (fun e => decide ¬decide (e.1 ≠ k) = true) =
      es.countP ((· == k) ∘ (·.1)) := by
    apply List.countP_congr
    intro e _
    simp
  rw [List.countP_eq_length_filter] at hsplit
  omega

theorem filter_key_of_bit [DecidableEq K] {b : Bool} (hes : ∀ e ∈ es, bit e.1 d = b)
    (hk : bit k d ≠ b) : (es.filter fun e => e.1 ≠ k) = es := by
  apply List.filter_eq_self.2
  intro e he
  have : e.1 ≠ k := by
    rintro rfl
    exact hk (hes e he)
  simpa using this

/-- The prefix of a key that goes on to one side of a node is shared one level further
down by the entries of that side. -/
theorem share_side (hshare : ∀ e ∈ es, ∀ i < d, bit e.1 i = bit k i)
    (hes : ∀ e ∈ es, bit e.1 d = bit k d) : ∀ e ∈ es, ∀ i < d + 1, bit e.1 i = bit k i := by
  intro e he i hi
  rcases Nat.lt_succ_iff_lt_or_eq.1 hi with h | rfl
  · exact hshare e he i h
  · exact hes e he

/-- Inserting a key below a prefix it shares puts its entry in the place of the one it had. -/
theorem insert_spec [DecidableEq K] (hsep : Separates bit D) (t : Tree K V) (d : Nat) (k : K)
    (v : V) (hcan : t.Canonical bit d) (hshare : ∀ e ∈ t.entries, ∀ i < d, bit e.1 i = bit k i) :
    (t.insert bit D d k v).Canonical bit d ∧
      (t.insert bit D d k v).entries.Perm ((k, v) :: t.entries.filter fun e => e.1 ≠ k) := by
  induction t generalizing d with
  | empty => exact ⟨trivial, List.Perm.refl _⟩
  | leaf k' v' =>
    by_cases hne : k' = k
    · rw [insert, if_pos hne]
      exact ⟨trivial, by simp [entries, hne]⟩
    · rw [insert, if_neg hne]
      obtain ⟨hc, hp⟩ := splitLeaves_spec hsep (a := (k', v')) (b := (k, v)) hne (D - d) d
        (by omega) fun i hi => hshare (k', v') (by simp [entries]) i hi
      refine ⟨hc, hp.trans ?_⟩
      rw [entries, List.filter_cons_of_pos (by simpa using hne)]
      exact List.Perm.swap _ _ _
  | node l r ihl ihr =>
    have hlen := length_le_filter_key hcan.nodup k
    obtain ⟨hl, hr, hsize, hlb, hrb, -⟩ := hcan
    rw [entries] at hshare hlen
    rw [entries, List.filter_append]
    rw [List.filter_append] at hlen
    have hsharel := fun e he => hshare e (List.mem_append_left r.entries he)
    have hsharer := fun e he => hshare e (List.mem_append_right l.entries he)
    have hpre : ∀ e ∈ (k, v) :: ((l.entries.filter fun e => e.1 ≠ k) ++
        r.entries.filter fun e => e.1 ≠ k), ∀ i < d, bit e.1 i = bit k i := by
      intro e he i hi
      rw [← List.filter_append] at he
      rcases List.mem_cons.1 he with rfl | he
      · rfl
      · exact hshare e (List.mem_of_mem_filter he) i hi
    cases hb : bit k d with
    | false =>
      obtain ⟨hc, hp⟩ := ihl (d + 1) hl
        (share_side hsharel fun e he => (hlb e he).trans hb.symm)
      rw [filter_key_of_bit hrb (by simp [hb])] at hpre hlen ⊢
      have hall := hp.append_right r.entries
      rw [insert, if_neg (by simp [hb])]
      refine ⟨canonical_node hc hr hall (le_trans hsize hlen) ?_ hrb hpre, hall⟩
      intro e he
      rcases List.mem_cons.1 (hp.mem_iff.1 he) with rfl | he
      · exact hb
      · exact hlb e (List.mem_of_mem_filter he)
    | true =>
      obtain ⟨hc, hp⟩ := ihr (d + 1) hr
        (share_side hsharer fun e he => (hrb e he).trans hb.symm)
      rw [filter_key_of_bit hlb (by simp [hb])] at hpre hlen ⊢
      have hall := (hp.append_left l.entries).trans List.perm_middle
      rw [insert, if_pos hb]
      refine ⟨canonical_node hl hc hall (le_trans hsize hlen) hlb ?_ hpre, hall⟩
      intro e he
      rcases List.mem_cons.1 (hp.mem_iff.1 he) with rfl | he
      · exact hb
      · exact hrb e (List.mem_of_mem_filter he)

/-! ## Deletion -/

/-- A node left with one entry becomes that entry's leaf. -/
def collapse : Tree K V → Tree K V
  | node empty (leaf k v) => leaf k v
  | node (leaf k v) empty => leaf k v
  | t => t

def delete [DecidableEq K] (bit : K → Nat → Bool) : Tree K V → Nat → K → Tree K V
  | empty, _, _ => empty
  | leaf k' v', _, k => if k' = k then empty else leaf k' v'
  | node l r, d, k =>
    if bit k d then collapse (node l (delete bit r (d + 1) k))
    else collapse (node (delete bit l (d + 1) k) r)

theorem Canonical.eq_empty (h : t.Canonical bit d) (hlen : t.entries.length = 0) : t = empty := by
  cases t with
  | empty => rfl
  | leaf k v => simp [entries] at hlen
  | node l r =>
    have hsize := h.2.2.1
    rw [entries] at hlen
    omega

theorem Canonical.eq_leaf (h : t.Canonical bit d) (hlen : t.entries.length = 1) :
    ∃ k v, t = leaf k v := by
  cases t with
  | empty => simp [entries] at hlen
  | leaf k v => exact ⟨k, v, rfl⟩
  | node l r =>
    have hsize := h.2.2.1
    rw [entries] at hlen
    omega

theorem collapse_spec {l r : Tree K V} (hl : l.Canonical bit (d + 1)) (hr : r.Canonical bit (d + 1))
    (hsize : 1 ≤ (l.entries ++ r.entries).length) (hlb : ∀ e ∈ l.entries, bit e.1 d = false)
    (hrb : ∀ e ∈ r.entries, bit e.1 d = true)
    (hall : ∀ e ∈ l.entries ++ r.entries, ∀ e' ∈ l.entries ++ r.entries, ∀ i < d, bit e.1 i = bit
      e'.1 i) :
    (collapse (node l r)).Canonical bit d ∧
      (collapse (node l r)).entries = l.entries ++ r.entries := by
  by_cases htwo : 2 ≤ (l.entries ++ r.entries).length
  · have hkeep : collapse (node l r) = node l r := by
      match l, r, htwo with
      | empty, empty, h => rfl
      | empty, leaf _ _, h => simp [entries] at h
      | empty, node _ _, h => rfl
      | leaf _ _, empty, h => simp [entries] at h
      | leaf _ _, leaf _ _, h => rfl
      | leaf _ _, node _ _, h => rfl
      | node _ _, _, h => rfl
    rw [hkeep]
    exact ⟨⟨hl, hr, htwo, hlb, hrb, hall⟩, rfl⟩
  · rw [List.length_append] at hsize htwo
    by_cases hzero : l.entries.length = 0
    · obtain rfl := hl.eq_empty hzero
      obtain ⟨k, v, rfl⟩ := hr.eq_leaf (by omega)
      exact ⟨trivial, rfl⟩
    · obtain rfl := hr.eq_empty (by omega)
      obtain ⟨k, v, rfl⟩ := hl.eq_leaf (by omega)
      exact ⟨trivial, rfl⟩

theorem delete_spec [DecidableEq K] (t : Tree K V) (d : Nat) (k : K) (hcan : t.Canonical bit d) :
    (t.delete bit d k).Canonical bit d ∧
      (t.delete bit d k).entries = t.entries.filter fun e => e.1 ≠ k := by
  induction t generalizing d with
  | empty => exact ⟨trivial, rfl⟩
  | leaf k' v' =>
    by_cases hk : k' = k
    · rw [delete, if_pos hk]
      exact ⟨trivial, by simp [entries, hk]⟩
    · rw [delete, if_neg hk]
      exact ⟨trivial, by simp [entries, hk]⟩
  | node l r ihl ihr =>
    have hlen := length_le_filter_key hcan.nodup k
    obtain ⟨hl, hr, hsize, hlb, hrb, hall⟩ := hcan
    rw [entries] at hlen
    have hpre : ∀ e ∈ (l.entries ++ r.entries).filter fun e => e.1 ≠ k,
        ∀ e' ∈ (l.entries ++ r.entries).filter fun e => e.1 ≠ k, ∀ i < d,
        bit e.1 i = bit e'.1 i := by
      intro e he e' he'
      exact hall e (List.mem_of_mem_filter he) e' (List.mem_of_mem_filter he')
    rw [entries]
    rw [List.filter_append] at hlen hpre ⊢
    cases hb : bit k d with
    | false =>
      obtain ⟨hc, he⟩ := ihl (d + 1) hl
      rw [filter_key_of_bit hrb (by simp [hb]), ← he] at hpre hlen ⊢
      rw [delete, if_neg (by simp [hb])]
      refine collapse_spec hc hr (by omega) ?_ hrb hpre
      intro e hmem
      rw [he] at hmem
      exact hlb e (List.mem_of_mem_filter hmem)
    | true =>
      obtain ⟨hc, he⟩ := ihr (d + 1) hr
      rw [filter_key_of_bit hlb (by simp [hb]), ← he] at hpre hlen ⊢
      rw [delete, if_pos hb]
      refine collapse_spec hl hc (by omega) hlb ?_ hpre
      intro e hmem
      rw [he] at hmem
      exact hrb e (List.mem_of_mem_filter hmem)

theorem ofList_spec [DecidableEq K] (hsep : Separates bit D) {l : List (K × V)}
    (hnodup : (l.map (·.1)).Nodup) :
    (ofList bit D l).Canonical bit 0 ∧ (ofList bit D l).entries.Perm l := by
  suffices ∀ (l : List (K × V)) (t : Tree K V), t.Canonical bit 0 →
      ((t.entries ++ l).map (·.1)).Nodup →
      (l.foldl (fun t e => t.insert bit D 0 e.1 e.2) t).Canonical bit 0 ∧
        (l.foldl (fun t e => t.insert bit D 0 e.1 e.2) t).entries.Perm (t.entries ++ l) from
    this l empty trivial hnodup
  intro l
  induction l with
  | nil =>
    intro t hcan _
    exact ⟨hcan, by simp⟩
  | cons e l ih =>
    intro t hcan hnd
    have hmove : (t.entries ++ e :: l).Perm ((e :: t.entries) ++ l) := List.perm_middle
    have hnd' := (hmove.map (·.1)).nodup_iff.1 hnd
    have hnew : ∀ x ∈ t.entries, x.1 ≠ e.1 := by
      intro x hx heq
      rw [List.cons_append, List.map_cons, List.nodup_cons] at hnd'
      exact hnd'.1 (List.mem_map.2 ⟨x, List.mem_append_left _ hx, heq⟩)
    obtain ⟨hc, hp⟩ := insert_spec hsep t 0 e.1 e.2 hcan (by simp)
    rw [List.filter_eq_self.2 fun x hx => by simpa using hnew x hx] at hp
    obtain ⟨hc', hp'⟩ := ih _ hc (((hp.append_right l).map (·.1)).nodup_iff.2 hnd')
    exact ⟨hc', hp'.trans ((hp.append_right l).trans hmove.symm)⟩

end Laws

/-! ## Roots -/

section Roots

variable (hash : Preimage K V δ → δ) (base : δ) (D : Nat)

/-- The digest of an empty subtree of a height. -/
def emptyRoot : Nat → δ
  | 0 => base
  | n + 1 => hash (.node (emptyRoot n) (emptyRoot n))

/-- The digest of a subtree at a depth. -/
def root : Tree K V → Nat → δ
  | empty, d => emptyRoot hash base (D - d)
  | leaf k v, _ => hash (.leaf k v)
  | node l r, d => hash (.node (root l (d + 1)) (root r (d + 1)))

/-- What the digests of empty subtrees up to a height are computed from. -/
def emptyInputs : Nat → List (Preimage K V δ)
  | 0 => []
  | n + 1 => .node (emptyRoot hash base n) (emptyRoot hash base n) :: emptyInputs n

/-- What the nonempty subtrees' digests are computed from. -/
def inputs : Tree K V → Nat → List (Preimage K V δ)
  | empty, _ => []
  | leaf k v, _ => [.leaf k v]
  | node l r, d => .node (root hash base D l (d + 1)) (root hash base D r (d + 1)) ::
      (inputs l (d + 1) ++ inputs r (d + 1))

end Roots

/-- No two of the listed inputs have the same digest. -/
def CollisionFree {α β : Type*} (hash : α → β) (l : List α) : Prop :=
  ∀ x ∈ l, ∀ y ∈ l, hash x = hash y → x = y

section Injective

variable {hash : Preimage K V δ → δ} {base : δ} {D : Nat} {bit : K → Nat → Bool}
  {l : List (Preimage K V δ)}

theorem mem_emptyInputs {n m : Nat} (h : n < m) :
    .node (emptyRoot hash base n) (emptyRoot hash base n) ∈ emptyInputs hash base m := by
  induction m with
  | zero => omega
  | succ m ih =>
    rw [emptyInputs]
    rcases Nat.lt_succ_iff_lt_or_eq.1 h with h | rfl
    · exact List.mem_cons_of_mem _ (ih h)
    · exact List.mem_cons_self

variable (hsep : Separates bit D) (hfree : CollisionFree hash l)
  (hempty : emptyInputs hash base D ⊆ l)

include hfree hempty

theorem leaf_ne_emptyRoot {v : V} (hk : .leaf k v ∈ l) (hd : d < D) :
    hash (.leaf k v) ≠ emptyRoot hash base (D - d) := by
  intro heq
  obtain ⟨n, hn⟩ : ∃ n, D - d = n + 1 := ⟨D - d - 1, by omega⟩
  rw [hn, emptyRoot] at heq
  have := hfree _ hk _ (hempty (mem_emptyInputs (by omega))) heq
  cases this

include hsep

/-- A subtree with two entries or more does not pass for an empty one. -/
theorem root_ne_emptyRoot (t : Tree K V) (d : Nat) (hcan : t.Canonical bit d)
    (hsize : 2 ≤ t.entries.length) (hin : t.inputs hash base D d ⊆ l) :
    t.root hash base D d ≠ emptyRoot hash base (D - d) := by
  induction t generalizing d with
  | empty => simp [entries] at hsize
  | leaf k v => simp [entries] at hsize
  | node a b iha ihb =>
    intro heq
    have hd := hcan.lt_depth hsep hsize
    obtain ⟨n, hn⟩ : ∃ n, D - d = n + 1 := ⟨D - d - 1, by omega⟩
    have hn' : D - (d + 1) = n := by omega
    have hnodup := hcan.nodup
    obtain ⟨ha, hb, -, -, -, hshare⟩ := hcan
    rw [hn, root, emptyRoot] at heq
    rw [inputs, List.cons_subset, List.append_subset] at hin
    obtain ⟨hab, hina, hinb⟩ := hin
    have hnode := hfree _ hab _ (hempty (mem_emptyInputs (by omega))) heq
    obtain ⟨hra, hrb⟩ := Preimage.node.inj hnode
    -- One of the subtrees would pass for an empty one, or two leaves have one digest.
    by_cases ha2 : 2 ≤ a.entries.length
    · exact iha (d + 1) ha ha2 hina (by rw [hn']; exact hra)
    by_cases hb2 : 2 ≤ b.entries.length
    · exact ihb (d + 1) hb hb2 hinb (by rw [hn']; exact hrb)
    rw [entries, List.length_append] at hsize
    match a, b, ha2, hb2 with
    | .leaf k v, .leaf k' v', _, _ =>
      have hsame := hfree _ (hina (by simp [inputs])) _ (hinb (by simp [inputs]))
        (hra.trans hrb.symm)
      obtain ⟨rfl, -⟩ := Preimage.leaf.inj hsame
      simp [entries] at hnodup
    | .empty, b, _, hb2 => simp [entries] at hsize; omega
    | .leaf _ _, .empty, _, _ => simp [entries] at hsize
    | .node a₁ a₂, b, ha2, hb2 => exact absurd ha.2.2.1 (by simpa [entries] using ha2)
    | .leaf _ _, .node b₁ b₂, _, hb2 => exact absurd hb.2.2.1 (by simpa [entries] using hb2)

theorem root_injective (t t' : Tree K V) (d : Nat) (hcan : t.Canonical bit d)
    (hcan' : t'.Canonical bit d) (hd : d < D ∨ t ≠ empty ∧ t' ≠ empty)
    (hin : t.inputs hash base D d ⊆ l) (hin' : t'.inputs hash base D d ⊆ l)
    (heq : t.root hash base D d = t'.root hash base D d) : t = t' := by
  induction t generalizing t' d with
  | empty =>
    rcases hd with hd | hd
    · cases t' with
      | empty => rfl
      | leaf k v =>
        exact absurd heq.symm (leaf_ne_emptyRoot hfree hempty (hin' (by simp [inputs])) hd)
      | node a b =>
        exact absurd heq.symm (root_ne_emptyRoot hsep hfree hempty _ d hcan' hcan'.2.2.1 hin')
    · exact absurd rfl hd.1
  | leaf k v =>
    have hk : .leaf k v ∈ l := hin (by simp [inputs])
    cases t' with
    | empty =>
      rcases hd with hd | hd
      · exact absurd heq (leaf_ne_emptyRoot hfree hempty hk hd)
      · exact absurd rfl hd.2
    | leaf k' v' =>
      have := hfree _ hk _ (hin' (by simp [inputs])) heq
      obtain ⟨rfl, rfl⟩ := Preimage.leaf.inj this
      rfl
    | node a b =>
      have := hfree _ hk _ (hin' List.mem_cons_self) heq
      cases this
  | node a b iha ihb =>
    cases t' with
    | empty =>
      exact absurd heq (root_ne_emptyRoot hsep hfree hempty _ d hcan hcan.2.2.1 hin)
    | leaf k' v' =>
      have := hfree _ (hin List.mem_cons_self) _ (hin' (by simp [inputs])) heq
      cases this
    | node a' b' =>
      have hsides : d + 1 < D ∨ (a ≠ empty ∧ a' ≠ empty) ∧ b ≠ empty ∧ b' ≠ empty := by
        by_cases hlt : d + 1 < D
        · exact .inl hlt
        · obtain ⟨h1, h2⟩ := hcan.children_ne_empty hsep (by omega)
          obtain ⟨h1', h2'⟩ := hcan'.children_ne_empty hsep (by omega)
          exact .inr ⟨⟨h1, h1'⟩, h2, h2'⟩
      rw [inputs, List.cons_subset, List.append_subset] at hin hin'
      obtain ⟨hra, hrb⟩ := Preimage.node.inj (hfree _ hin.1 _ hin'.1 heq)
      rw [iha a' (d + 1) hcan.1 hcan'.1 (hsides.imp_right And.left) hin.2.1 hin'.2.1 hra,
        ihb b' (d + 1) hcan.2.1 hcan'.2.1 (hsides.imp_right And.right) hin.2.2 hin'.2.2 hrb]

theorem perm_of_root_eq [DecidableEq K] (hD : 0 < D) {xs ys : List (K × V)}
    (hx : (xs.map (·.1)).Nodup) (hy : (ys.map (·.1)).Nodup)
    (hinx : (ofList bit D xs).inputs hash base D 0 ⊆ l)
    (hiny : (ofList bit D ys).inputs hash base D 0 ⊆ l)
    (heq : (ofList bit D xs).root hash base D 0 = (ofList bit D ys).root hash base D 0) :
    xs.Perm ys := by
  obtain ⟨hcx, hpx⟩ := ofList_spec hsep hx
  obtain ⟨hcy, hpy⟩ := ofList_spec hsep hy
  have htree := root_injective hsep hfree hempty _ _ 0 hcx hcy (.inl hD) hinx hiny heq
  exact hpx.symm.trans ((List.Perm.of_eq (congrArg entries htree)).trans hpy)

end Injective

end Tree

end Lib.SparseTree
