import Mathlib

/-! Searching a sorted list: the first match is the least, and a binary search finds where a
property that holds from some element on begins. -/

namespace Lib.Sorted

/-- The least element satisfying a predicate is what a search of a sorted list finds. -/
theorem find?_sorted_eq_some {α : Type*} [LinearOrder α] {l : List α} {p : α → Bool}
    (hl : l.Pairwise (· ≤ ·)) (v : α) :
    l.find? p = some v ↔ v ∈ l ∧ p v = true ∧ ∀ w ∈ l, p w = true → v ≤ w := by
  induction l with
  | nil => simp
  | cons x xs ih =>
    obtain ⟨hx, hxs⟩ := List.pairwise_cons.1 hl
    rw [List.find?_cons]
    cases hp : p x with
    | true =>
      simp only [Option.some.injEq, List.mem_cons]
      constructor
      · rintro rfl
        refine ⟨.inl rfl, hp, ?_⟩
        rintro w (rfl | hw) _
        · exact le_rfl
        · exact hx w hw
      · rintro ⟨hv, -, hleast⟩
        rcases hv with rfl | hv
        · rfl
        · exact le_antisymm (hx v hv) (hleast x (.inl rfl) hp)
    | false =>
      simp only [ih hxs, List.mem_cons]
      constructor
      · rintro ⟨hv, hpv, hleast⟩
        refine ⟨.inr hv, hpv, ?_⟩
        rintro w (rfl | hw) hpw
        · simp [hp] at hpw
        · exact hleast w hw hpw
      · rintro ⟨rfl | hv, hpv, hleast⟩
        · simp [hp] at hpv
        · exact ⟨hv, hpv, fun w hw => hleast w (.inr hw)⟩

/-! ## Binary search -/

/-- The least index in `[i, j)` from which `p` holds, or `j`; each round halves the range. -/
def searchLoop (p : Nat → Bool) : Nat → Nat → Nat → Nat
  | 0, i, _ => i
  | n + 1, i, j =>
    if i < j then
      if p ((i + j) / 2) then searchLoop p n i ((i + j) / 2) else searchLoop p n ((i + j) / 2 + 1) j
    else i

/-- The least index below `n` from which `p` holds, or `n`. -/
def search (n : Nat) (p : Nat → Bool) : Nat := searchLoop p n 0 n

theorem searchLoop_eq {p : Nat → Bool} {m n : Nat} (hp : ∀ i < n, p i = decide (m ≤ i))
    (fuel i j : Nat) (hfuel : j - i ≤ fuel) (hi : i ≤ m) (hm : m ≤ j) (hj : j ≤ n) :
    searchLoop p fuel i j = m := by
  induction fuel generalizing i j with
  | zero =>
    rw [searchLoop]
    omega
  | succ fuel ih =>
    rw [searchLoop]
    by_cases hij : i < j
    · rw [if_pos hij, hp _ (by omega)]
      by_cases hmid : m ≤ (i + j) / 2
      · rw [if_pos (decide_eq_true hmid)]
        exact ih _ _ (by omega) hi hmid (by omega)
      · rw [if_neg (by simpa using hmid)]
        exact ih _ _ (by omega) (by omega) hm hj
    · rw [if_neg hij]
      omega

/-- The search finds where a list that starts with failures and goes on with matches
changes over. -/
theorem search_append {α : Type*} {p : α → Bool} {a b : List α} (ha : ∀ x ∈ a, p x = false)
    (hb : ∀ x ∈ b, p x = true) :
    search (a ++ b).length (fun i => (a ++ b)[i]?.any p) = a.length := by
  refine searchLoop_eq ?_ _ 0 _ (by omega) (Nat.zero_le _) (by simp) le_rfl
  intro i hi
  rw [List.length_append] at hi
  by_cases h : i < a.length
  · rw [List.getElem?_append_left h, List.getElem?_eq_getElem h, Option.any_some,
      ha _ (List.getElem_mem h)]
    simpa using h
  · have hi' : i - a.length < b.length := by omega
    rw [List.getElem?_append_right (by omega), List.getElem?_eq_getElem hi', Option.any_some,
      hb _ (List.getElem_mem hi')]
    simpa using h

/-- A list along which a property only appears is its failures and then its matches. -/
theorem filter_append_filter {α : Type*} {p : α → Bool} {l : List α}
    (h : l.Pairwise fun a b => p a = true → p b = true) :
    (l.filter fun a => !p a) ++ l.filter p = l := by
  induction l with
  | nil => rfl
  | cons x xs ih =>
    obtain ⟨hx, hxs⟩ := List.pairwise_cons.1 h
    cases hp : p x with
    | false =>
      rw [List.filter_cons_of_pos (by simp [hp]), List.filter_cons_of_neg (by simp [hp]),
        List.cons_append, ih hxs]
    | true =>
      have hall : ∀ y ∈ xs, p y = true := fun y hy => hx y hy hp
      rw [List.filter_cons_of_neg (by simp [hp]), List.filter_cons_of_pos hp,
        List.filter_eq_nil_iff.2 (by simpa using hall), List.filter_eq_self.2 hall, List.nil_append]

end Lib.Sorted
