import Mathlib

/-! A map from keys to collections, as a list of entries in order of first
insertion. Adding to a key that is present extends its entry. -/

namespace Lib.MultiMap

variable {κ ν : Type*}

def keys (m : List (κ × List ν)) : List κ := m.map Prod.fst

variable [DecidableEq κ]

/-- What is recorded under a key. -/
def values (m : List (κ × List ν)) (k : κ) : List ν :=
  match m with
  | [] => []
  | (k', vs) :: rest => if k' = k then vs else values rest k

/-- Extends the entry of `k`, creating it when absent. -/
def insertAll (m : List (κ × List ν)) (k : κ) (vs : List ν) : List (κ × List ν) :=
  match m with
  | [] => [(k, vs)]
  | (k', vs') :: rest =>
    if k' = k then (k', vs' ++ vs) :: rest else (k', vs') :: insertAll rest k vs

@[simp] theorem values_nil (k : κ) : values ([] : List (κ × List ν)) k = [] := rfl

theorem values_insertAll (m : List (κ × List ν)) (k k' : κ) (vs : List ν) :
    values (insertAll m k vs) k' = if k' = k then values m k ++ vs else values m k' := by
  induction m with
  | nil =>
    simp only [insertAll, values, List.nil_append]
    by_cases h : k = k'
    · simp [h]
    · simp [h, Ne.symm h]
  | cons e rest ih =>
    obtain ⟨k₀, vs₀⟩ := e
    simp only [insertAll]
    by_cases h : k₀ = k
    · subst h
      by_cases h' : k' = k₀
      · subst h'; simp [values]
      · simp [values, h', Ne.symm h']
    · simp only [if_neg h, values, ih]
      by_cases h₀ : k₀ = k'
      · subst h₀; simp [h]
      · simp [h₀]

theorem mem_keys_insertAll (m : List (κ × List ν)) (k k' : κ) (vs : List ν) :
    k' ∈ keys (insertAll m k vs) ↔ k' = k ∨ k' ∈ keys m := by
  induction m with
  | nil => simp [insertAll, keys]
  | cons e rest ih =>
    obtain ⟨k₀, vs₀⟩ := e
    simp only [insertAll]
    by_cases h : k₀ = k
    · subst h
      simp [keys]
    · simp only [if_neg h, keys, List.map_cons, List.mem_cons] at ih ⊢
      rw [ih]
      tauto

theorem nodup_keys_insertAll {m : List (κ × List ν)} (h : (keys m).Nodup) (k : κ)
    (vs : List ν) : (keys (insertAll m k vs)).Nodup := by
  induction m with
  | nil => simp [insertAll, keys]
  | cons e rest ih =>
    obtain ⟨k₀, vs₀⟩ := e
    simp only [keys, List.map_cons, List.nodup_cons] at h
    simp only [insertAll]
    split
    · simpa [keys] using h
    · rename_i hk
      simp only [keys, List.map_cons, List.nodup_cons]
      refine ⟨fun hmem => ?_, ih h.2⟩
      rcases (mem_keys_insertAll rest k k₀ vs).1 hmem with h' | h'
      · exact hk h'
      · exact h.1 h'

theorem mem_iff_of_nodup {m : List (κ × List ν)} (h : (keys m).Nodup) (k : κ) (vs : List ν) :
    (k, vs) ∈ m ↔ k ∈ keys m ∧ vs = values m k := by
  induction m with
  | nil => simp [keys]
  | cons e rest ih =>
    obtain ⟨k₀, vs₀⟩ := e
    simp only [keys, List.map_cons, List.nodup_cons] at h
    simp only [List.mem_cons, Prod.mk.injEq, ih h.2, keys, List.map_cons, values]
    by_cases hk : k₀ = k
    · subst hk
      simp only [true_and, true_or, if_true, or_iff_left_iff_imp, and_imp]
      intro hmem
      exact absurd hmem h.1
    · simp [hk, Ne.symm hk]

section

variable {α : Type*} (key : α → κ) (val : α → List ν) (l : List α)

/-- Folding insertions: what ends up under a key was there before or was added by
an element for that key. -/
theorem mem_values_foldl (m : List (κ × List ν)) (k : κ) (v : ν) :
    v ∈ values (l.foldl (fun m x => insertAll m (key x) (val x)) m) k ↔
      v ∈ values m k ∨ ∃ x ∈ l, key x = k ∧ v ∈ val x := by
  induction l generalizing m with
  | nil => simp
  | cons x xs ih =>
    rw [List.foldl_cons, ih, values_insertAll]
    by_cases h : k = key x
    · subst h
      simp [or_assoc]
    · simp [h, Ne.symm h]

theorem mem_keys_foldl (m : List (κ × List ν)) (k : κ) :
    k ∈ keys (l.foldl (fun m x => insertAll m (key x) (val x)) m) ↔
      k ∈ keys m ∨ ∃ x ∈ l, key x = k := by
  induction l generalizing m with
  | nil => simp
  | cons x xs ih =>
    rw [List.foldl_cons, ih, mem_keys_insertAll]
    simp only [List.mem_cons, exists_eq_or_imp, eq_comm (a := k)]
    tauto

theorem nodup_keys_foldl {m : List (κ × List ν)} (h : (keys m).Nodup) :
    (keys (l.foldl (fun m x => insertAll m (key x) (val x)) m)).Nodup := by
  induction l generalizing m with
  | nil => exact h
  | cons x xs ih => exact ih (nodup_keys_insertAll h _ _)

end

end Lib.MultiMap
