import Mathlib

/-! Sums over the values of a finite map, and over a list with one entry per key. -/

namespace Lib.Tally

variable {α β : Type*}

/-! ## Finite maps -/

/-- The sum of a measure over the values of a map. -/
def tally (f : β → Nat) (m : AList fun _ : α => β) : Nat :=
  (m.entries.map fun e => f e.2).sum

variable {f : β → Nat} {m : AList fun _ : α => β} {a : α} {b : β}

theorem tally_le_tally {g : β → Nat} (h : ∀ b, f b ≤ g b) (m : AList fun _ : α => β) :
    tally f m ≤ tally g m :=
  List.sum_le_sum fun e _ => h e.2

variable [DecidableEq α]

/-- The measure of the value under a key, zero when there is none. -/
def share (f : β → Nat) (m : AList fun _ : α => β) (a : α) : Nat :=
  ((m.lookup a).map f).getD 0

theorem share_of_lookup (h : m.lookup a = some b) : share f m a = f b := by
  simp [share, h]

private theorem sum_kerase (f : β → Nat) (a : α) :
    ∀ l : List (Sigma fun _ : α => β),
      ((l.kerase a).map fun e => f e.2).sum + ((l.dlookup a).map f).getD 0 =
        (l.map fun e => f e.2).sum := by
  intro l
  induction l with
  | nil => simp
  | cons e l ih =>
    obtain ⟨k, b⟩ := e
    by_cases h : a = k
    · subst h
      simp [Nat.add_comm]
    · rw [List.kerase_cons_ne h, List.dlookup_cons_ne _ _ h]
      simp only [List.map_cons, List.sum_cons]
      omega

theorem tally_erase (f : β → Nat) (m : AList fun _ : α => β) (a : α) :
    tally f (m.erase a) + share f m a = tally f m :=
  sum_kerase f a m.entries

theorem lookup_foldl_erase (keys : List α) (m : AList fun _ : α => β) (a : α) :
    (keys.foldl (fun m k => m.erase k) m).lookup a = if a ∈ keys then none else m.lookup a := by
  induction keys generalizing m with
  | nil => simp
  | cons k keys ih =>
    rw [List.foldl_cons, ih]
    by_cases hk : a = k
    · subst hk
      simp [AList.lookup_erase]
    · simp [AList.lookup_erase_ne hk, hk]

theorem foldl_update_entries {γ : Type*} (m : AList fun _ : α => β) (g : β → γ) :
    (m.entries.foldl (fun (f : α → Option γ) e => Function.update f e.1 (some (g e.2)))
        fun _ => none) =
      fun x => (m.lookup x).map g := by
  have hfold : ∀ (l : List (Sigma fun _ : α => β)) (f : α → Option γ), l.NodupKeys → ∀ x,
      l.foldl (fun (f : α → Option γ) e => Function.update f e.1 (some (g e.2))) f x =
        ((l.dlookup x).map g).or (f x) := by
    intro l
    induction l with
    | nil => exact fun f _ x => rfl
    | cons e l ih =>
      intro f hl x
      rw [List.nodupKeys_cons] at hl
      rw [List.foldl_cons, ih _ hl.2]
      by_cases hx : x = e.1
      · subst hx
        rw [List.dlookup_eq_none.2 hl.1, Function.update_self, List.dlookup_cons_eq]
        rfl
      · rw [Function.update_of_ne hx, List.dlookup_cons_ne _ _ hx]
  funext x
  rw [hfold m.entries _ m.nodupKeys]
  exact Option.or_none

theorem tally_insert (f : β → Nat) (m : AList fun _ : α => β) (a : α) (b : β) :
    tally f (m.insert a b) + share f m a = tally f m + f b := by
  have h := tally_erase f m a
  have hins : tally f (m.insert a b) = f b + tally f (m.erase a) := by
    simp [tally, AList.entries_insert, AList.erase]
  omega

theorem share_le_tally (f : β → Nat) (m : AList fun _ : α => β) (a : α) :
    share f m a ≤ tally f m := by
  have := tally_erase f m a
  omega

theorem tally_insert_of_eq (h : share f m a = f b) : tally f (m.insert a b) = tally f m := by
  have := tally_insert f m a b
  omega

theorem tally_congr {g : β → Nat} (h : ∀ a b, m.lookup a = some b → f b = g b) :
    tally f m = tally g m := by
  refine congrArg List.sum (List.map_congr_left fun e he => h e.1 e.2 ?_)
  exact AList.mem_lookup_iff.2 he

/-! ## Keyed lists -/

section Keyed

variable (key : β → α)

/-- Rewrite the entry of one key. -/
def update (l : List β) (k : α) (g : β → β) : List β :=
  l.map fun x => if key x = k then g x else x

variable {key} {g : β → β} {l : List β} {k : α}

theorem map_key_update (hg : ∀ x, key (g x) = key x) : (update key l k g).map key = l.map key := by
  rw [update, List.map_map]
  refine List.map_congr_left fun x _ => ?_
  by_cases h : key x = k <;> simp [h, hg]

private theorem sum_update_of_notMem (h : k ∉ l.map key) :
    ((update key l k g).map f).sum = (l.map f).sum := by
  congr 1
  rw [update, List.map_map]
  refine List.map_congr_left fun x hx => ?_
  have : key x ≠ k := fun he => h (he ▸ List.mem_map_of_mem hx)
  simp [this]

theorem sum_update :
    ∀ {l : List β} {x : β}, (l.map key).Nodup → l.find? (fun y => key y = k) = some x →
      ((update key l k g).map f).sum + f x = (l.map f).sum + f (g x) := by
  intro l
  induction l with
  | nil => intro x _ h; simp at h
  | cons y l ih =>
    intro x hnd h
    rw [List.map_cons, List.nodup_cons] at hnd
    by_cases hy : key y = k
    · obtain rfl : y = x := by simpa [hy] using h
      have hrest := sum_update_of_notMem (f := f) (g := g) (hy ▸ hnd.1)
      simp only [update, List.map_cons, if_pos hy, List.sum_cons] at hrest ⊢
      omega
    · have h' : l.find? (fun y => key y = k) = some x := by simpa [hy] using h
      have hrest := ih hnd.2 h'
      simp only [update, List.map_cons, if_neg hy, List.sum_cons] at hrest ⊢
      omega

theorem update_eq_self (h : ∀ x ∈ l, key x = k → g x = x) : update key l k g = l := by
  refine (List.map_congr_left fun x hx => ?_).trans (List.map_id l)
  by_cases hk : key x = k
  · simp [hk, h x hx hk]
  · simp [hk]

theorem find?_update_self (hg : ∀ x, key (g x) = key x) :
    (update key l k g).find? (fun y => key y = k) = (l.find? fun y => key y = k).map g := by
  induction l with
  | nil => rfl
  | cons y l ih =>
    by_cases hy : key y = k
    · simp [update, hy, hg]
    · simpa [update, hy] using ih

end Keyed

end Lib.Tally
