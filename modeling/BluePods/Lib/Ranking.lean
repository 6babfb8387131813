import Mathlib.Data.List.Sort

/-! Lists by descending score. Where the scores are distinct the ranking depends on the
members alone, and one member more is one entry more at its place. -/

namespace BluePods.Lib.Ranking

variable {α β : Type*} [LinearOrder β]

def rank (score : α → β) (l : List α) : List α := l.insertionSort fun a b => score b ≤ score a

variable {score : α → β} {l l' : List α} {x : α}

theorem perm_rank (score : α → β) (l : List α) : (rank score l).Perm l :=
  List.perm_insertionSort _ l

theorem pairwise_rank (score : α → β) (l : List α) :
    (rank score l).Pairwise fun a b => score b ≤ score a :=
  have : Std.Total fun a b => score b ≤ score a := ⟨fun a b => le_total (score b) (score a)⟩
  have : IsTrans α fun a b => score b ≤ score a := ⟨fun _ _ _ hab hbc => hbc.trans hab⟩
  List.pairwise_insertionSort _ l

theorem rank_congr (hinj : ∀ a ∈ l, ∀ b ∈ l, score a = score b → a = b) (h : l'.Perm l) :
    rank score l' = rank score l := by
  have hperm := (perm_rank score l').trans h
  refine List.Perm.eq_of_pairwise (fun a b ha hb hab hba => ?_) (pairwise_rank score l')
    (pairwise_rank score l) (hperm.trans (perm_rank score l).symm)
  exact hinj a (hperm.mem_iff.1 ha) b ((perm_rank score l).mem_iff.1 hb) (le_antisymm hba hab)

theorem rank_cons (score : α → β) (x : α) (l : List α) :
    ∃ l₁ l₂, rank score (x :: l) = l₁ ++ x :: l₂ ∧ rank score l = l₁ ++ l₂ :=
  ⟨_, _, List.insertionSort_cons_eq_take_drop _ x l, List.takeWhile_append_dropWhile.symm⟩

/-- The best few with an entry more: it goes in at its place, and the few stay as many. -/
theorem take_insert (r : Nat) (l₁ l₂ : List α) (x : α) :
    ∃ a b, (l₁ ++ l₂).take r = a ++ b ∧ (l₁ ++ x :: l₂).take r = (a ++ x :: b).take r := by
  refine ⟨l₁.take r, l₂.take (r - l₁.length), List.take_append, ?_⟩
  rw [List.take_append, List.take_append, List.take_take, List.length_take, min_self]
  congr 1
  rcases hn : r - l₁.length with _ | n
  · rw [show r - min r l₁.length = 0 by omega]
    rfl
  · rw [show r - min r l₁.length = n + 1 by omega, List.take_succ_cons, List.take_succ_cons,
      List.take_take, min_eq_left (by omega)]

theorem mem_take_middle {r : Nat} {l₁ l₂ : List α} (hx : x ∉ l₁) :
    x ∈ (l₁ ++ x :: l₂).take r ↔ l₁.length < r := by
  constructor
  · intro h
    by_contra hle
    rw [List.take_append_of_le_length (by omega)] at h
    exact hx (List.mem_of_mem_take h)
  · intro h
    obtain ⟨n, rfl⟩ : ∃ n, r = l₁.length + (n + 1) := ⟨r - (l₁.length + 1), by omega⟩
    simp [List.take_length_add_append]

/-- The best few with an entry less, when it was one of them: the next one moves up. -/
theorem take_delete [BEq α] [LawfulBEq α] {n : Nat} {l₁ : List α} (hx : x ∉ l₁) (l₂ : List α) :
    (l₁ ++ l₂).take (l₁.length + (n + 1)) =
      (l₁ ++ x :: l₂.take n).erase x ++ l₂[n]?.toList ∧
    (l₁ ++ x :: l₂).take (l₁.length + (n + 1)) = l₁ ++ x :: l₂.take n := by
  rw [List.take_length_add_append, List.take_length_add_append, List.take_succ_cons,
    List.erase_append_right _ hx, List.erase_cons_head, List.take_add_one, List.append_assoc]
  exact ⟨rfl, rfl⟩

/-- Taking an entry out by moving the last one into its place. -/
theorem perm_set_dropLast {i : Nat} {last : α} (hi : l[i]? = some x)
    (hlast : l.getLast? = some last) :
    (x :: l.dropLast.set i last).Perm l := by
  obtain ⟨init, rfl⟩ := List.getLast?_eq_some_iff.1 hlast
  rw [List.dropLast_concat]
  rcases Nat.lt_or_ge i init.length with h | h
  · rw [List.getElem?_append_left h] at hi
    have hinit : init = init.take i ++ x :: init.drop (i + 1) := by
      rw [← List.getElem?_eq_some_iff.1 hi |>.2, List.getElem_cons_drop, List.take_append_drop]
    rw [List.set_eq_take_append_cons_drop, if_pos h]
    conv_rhs => rw [hinit]
    refine (List.perm_middle.cons x).trans ((List.Perm.swap ..).trans ?_)
    exact (List.perm_middle.symm.cons last).trans (List.perm_append_singleton last _).symm
  · have hend : i = init.length := by
      have := (List.getElem?_eq_some_iff.1 hi).1
      rw [List.length_append, List.length_singleton] at this
      omega
    rw [hend, List.getElem?_concat_length] at hi
    rw [List.set_eq_of_length_le h, Option.some.inj hi]
    exact (List.perm_append_singleton x init).symm

end BluePods.Lib.Ranking
