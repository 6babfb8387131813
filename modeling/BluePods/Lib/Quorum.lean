import Mathlib

/-! Weighted quorums over a list of members. A set of members is a Boolean
predicate and weighs the sum of its members' weights; two two-thirds quorums
share a member outside every set lighter than one third. Members are counted
with multiplicity, so nothing here asks the list to be duplicate free. -/

namespace Lib.Quorum

variable {α : Type*}

/-- The weight of the members of `l` that satisfy `p`. -/
def weigh (w : α → Nat) (p : α → Bool) : List α → Nat
  | [] => 0
  | x :: xs => (if p x then w x else 0) + weigh w p xs

/-- The weight of the whole list. -/
def total (w : α → Nat) (l : List α) : Nat := weigh w (fun _ => true) l

@[simp] theorem weigh_nil (w : α → Nat) (p : α → Bool) : weigh w p [] = 0 := rfl

@[simp] theorem weigh_cons (w : α → Nat) (p : α → Bool) (x : α) (xs : List α) :
    weigh w p (x :: xs) = (if p x then w x else 0) + weigh w p xs := rfl

@[simp] theorem total_nil (w : α → Nat) : total w ([] : List α) = 0 := rfl

@[simp] theorem total_cons (w : α → Nat) (x : α) (xs : List α) :
    total w (x :: xs) = w x + total w xs := rfl

section

variable (w : α → Nat)

theorem weigh_mono {p q : α → Bool} (l : List α) (h : ∀ x ∈ l, p x = true → q x = true) :
    weigh w p l ≤ weigh w q l := by
  induction l with
  | nil => simp
  | cons x xs ih =>
    have hxs := ih fun y hy => h y (List.mem_cons_of_mem _ hy)
    have hx := h x List.mem_cons_self
    simp only [weigh_cons]
    cases hp : p x with
    | false => simp only [Bool.false_eq_true, if_false]; omega
    | true => simp only [hx hp, if_true]; omega

theorem weigh_le_total (p : α → Bool) (l : List α) : weigh w p l ≤ total w l :=
  weigh_mono w l fun _ _ _ => rfl

theorem weigh_perm (p : α → Bool) {l l' : List α} (h : l.Perm l') : weigh w p l = weigh w p l' := by
  induction h with
  | nil => rfl
  | cons x _ ih => rw [weigh_cons, weigh_cons, ih]
  | swap x y l => simp only [weigh_cons]; omega
  | trans _ _ ih₁ ih₂ => rw [ih₁, ih₂]

theorem weigh_eq_total_filter (p : α → Bool) (l : List α) : weigh w p l = total w (l.filter p) := by
  induction l with
  | nil => rfl
  | cons x xs ih =>
    cases hp : p x with
    | false => simp [hp, ih]
    | true => simp [hp, ih]

theorem weigh_add_le_inter (p q : α → Bool) (l : List α) :
    weigh w p l + weigh w q l ≤ total w l + weigh w (fun x => p x && q x) l := by
  induction l with
  | nil => simp
  | cons x xs ih =>
    simp only [weigh_cons, total_cons]
    cases p x <;> cases q x <;> simp <;> omega

theorem weigh_split (p q : α → Bool) (l : List α) :
    weigh w p l = weigh w (fun x => p x && q x) l + weigh w (fun x => p x && !q x) l := by
  induction l with
  | nil => rfl
  | cons x xs ih =>
    simp only [weigh_cons, ih]
    cases p x <;> cases q x <;> simp <;> omega

theorem exists_of_weigh_lt (p q : α → Bool) (l : List α) (h : weigh w q l < weigh w p l) :
    ∃ x ∈ l, p x = true ∧ q x = false := by
  by_contra hnone
  push Not at hnone
  have hle : weigh w p l ≤ weigh w q l :=
    weigh_mono w l fun x hx hp => by simpa using hnone x hx hp
  omega

theorem weigh_pos_iff (p : α → Bool) (l : List α) :
    0 < weigh w p l ↔ ∃ x ∈ l, p x = true ∧ 0 < w x := by
  induction l with
  | nil => simp
  | cons x xs ih => cases hp : p x <;> simp [hp, ih]

end

/-- A two-thirds quorum of the total weight. -/
def IsQuorum (w : α → Nat) (p : α → Bool) (l : List α) : Prop :=
  0 < total w l ∧ 2 * total w l ≤ 3 * weigh w p l

/-- Quorum intersection: two quorums share a member outside any set that weighs
less than a third. -/
theorem IsQuorum.inter {w : α → Nat} {p q b : α → Bool} {l : List α} (hp : IsQuorum w p l)
    (hq : IsQuorum w q l) (hb : 3 * weigh w b l < total w l) :
    ∃ x ∈ l, p x = true ∧ q x = true ∧ b x = false := by
  have hshare := weigh_add_le_inter w p q l
  have hlt : weigh w b l < weigh w (fun x => p x && q x) l := by
    have := hp.2
    have := hq.2
    omega
  obtain ⟨x, hx, hpq, hbx⟩ := exists_of_weigh_lt w _ b l hlt
  rw [Bool.and_eq_true] at hpq
  exact ⟨x, hx, hpq.1, hpq.2, hbx⟩

end Lib.Quorum
