import Mathlib.Data.Sum.Basic
import Mathlib.Logic.Relation

/-! Nodes that hang from a root or from another node: how far a node is from its root,
which changes of one edge a climb does not notice, and which of them close no cycle. -/

namespace Lib.Forest
open Relation

variable {α κ : Type*}

/-- Where each node hangs: nowhere, from a root, or from another node. -/
abbrev Edges (α κ : Type*) := α → Option (κ ⊕ α)

/-- A node hangs directly from another. -/
def Under (e : Edges α κ) (a b : α) : Prop := e a = some (.inr b)

/-- A node hangs from another over any number of edges. -/
def Reaches (e : Edges α κ) : α → α → Prop := ReflTransGen (Under e)

/-- The climb from a node ends at a root, `n` edges away. -/
inductive Rooted (e : Edges α κ) : α → κ → Nat → Prop
  | root {a : α} {k : κ} (h : e a = some (.inl k)) : Rooted e a k 1
  | climb {a b : α} {k : κ} {n : Nat} (h : e a = some (.inr b)) (hb : Rooted e b k n) :
    Rooted e a k (n + 1)

namespace Rooted

variable {e e' : Edges α κ} {a b : α} {k k' : κ} {n n' : Nat}

theorem ne_none (h : Rooted e a k n) : e a ≠ none := by
  cases h with
  | root h => simp [h]
  | climb h _ => simp [h]

theorem unique (h : Rooted e a k n) (h' : Rooted e a k' n') : k = k' ∧ n = n' := by
  induction h generalizing n' with
  | root h =>
    cases h' with
    | root h' => simpa [h] using h'
    | climb h' _ => simp [h] at h'
  | climb h _ ih =>
    cases h' with
    | root h' => simp [h] at h'
    | climb h' hb' =>
      rw [h, Option.some.injEq, Sum.inr.injEq] at h'
      subst h'
      obtain ⟨hk, hn⟩ := ih hb'
      exact ⟨hk, by rw [hn]⟩

theorem reaches (h : Rooted e a k n) (hab : Reaches e a b) : ∃ m ≤ n, Rooted e b k m := by
  induction hab with
  | refl => exact ⟨n, Nat.le_refl n, h⟩
  | tail _ hbc ih =>
    obtain ⟨m, hm, hb⟩ := ih
    cases hb with
    | root hb => simp [Under, hb] at hbc
    | @climb _ c _ m hb hc =>
      rw [Under, hb, Option.some.injEq, Sum.inr.injEq] at hbc
      exact ⟨m, by omega, hbc ▸ hc⟩

/-- A climb only reads the edges of the nodes it passes. -/
theorem congr (h : Rooted e a k n) (hsame : ∀ b, Reaches e a b → e' b = e b) : Rooted e' a k n := by
  induction h with
  | root h => exact .root ((hsame _ .refl).trans h)
  | climb h _ ih =>
    exact .climb ((hsame _ .refl).trans h) (ih fun b hb => hsame b (hb.head h))

end Rooted

/-! ## Bounded climbs -/

/-- The root of a node, if it is at most `fuel` edges away. -/
def rootOf (e : Edges α κ) : Nat → α → Option κ
  | 0, _ => none
  | fuel + 1, a =>
    match e a with
    | none => none
    | some (.inl k) => some k
    | some (.inr b) => rootOf e fuel b

variable {e e' : Edges α κ} {a b c p : α} {k : κ} {x : Option (κ ⊕ α)} {n : Nat}

theorem rootOf_eq_some {fuel : Nat} : rootOf e fuel a = some k ↔ ∃ n ≤ fuel, Rooted e a k n := by
  induction fuel generalizing a with
  | zero =>
    constructor
    · simp [rootOf]
    · rintro ⟨n, hn, h⟩
      cases h <;> omega
  | succ fuel ih =>
    rw [rootOf]
    match ha : e a with
    | none =>
      simp only [reduceCtorEq, false_iff, not_exists, not_and]
      intro n _ h
      exact h.ne_none ha
    | some (.inl k') =>
      constructor
      · rintro hk
        obtain rfl := Option.some.inj hk
        exact ⟨1, by omega, .root ha⟩
      · rintro ⟨n, -, h⟩
        rw [(h.unique (.root ha)).1]
    | some (.inr b) =>
      rw [ih]
      constructor
      · rintro ⟨n, hn, h⟩
        exact ⟨n + 1, by omega, .climb ha h⟩
      · rintro ⟨n, hn, h⟩
        obtain ⟨m, hm, hb⟩ := h.reaches (ReflTransGen.single (show Under e a b from ha))
        cases h with
        | root h => simp [ha] at h
        | climb h hb' =>
          rw [ha, Option.some.injEq, Sum.inr.injEq] at h
          exact ⟨_, by omega, h ▸ hb'⟩

/-! ## Changing one edge -/

section Update

variable [DecidableEq α] {e : Edges α κ} {a b c p : α} {k : κ} {n : Nat}

/-- A climb that does not pass a node does not notice its edge change. -/
theorem Rooted.update (h : Rooted e a k n) (hc : ¬ Reaches e a c) (x : Option (κ ⊕ α)) :
    Rooted (Function.update e c x) a k n :=
  h.congr fun _ hb => Function.update_of_ne (by rintro rfl; exact hc hb) ..

/-- Whoever is rooted behind a change at a rooted node was rooted before. -/
theorem Rooted.of_update {l : κ} {m : Nat} (hc : Rooted e c l m)
    (h : Rooted (Function.update e c x) a k n) : ∃ k' n', Rooted e a k' n' := by
  induction h with
  | @root a k h =>
    by_cases hac : a = c
    · exact ⟨l, m, hac ▸ hc⟩
    · rw [Function.update_of_ne hac] at h
      exact ⟨k, 1, .root h⟩
  | @climb a b k n h _ ih =>
    by_cases hac : a = c
    · exact ⟨l, m, hac ▸ hc⟩
    · rw [Function.update_of_ne hac] at h
      obtain ⟨k', n', hb⟩ := ih
      exact ⟨k', n' + 1, .climb h hb⟩

theorem under_update_self : Under (Function.update e c (some (.inr p))) c a ↔ a = p := by
  simp [Under, eq_comm]

theorem under_update_of_ne (h : a ≠ c) : Under (Function.update e c x) a b ↔ Under e a b := by
  simp [Under, h]

end Update

/-! ## Cycles -/

/-- No climb comes back to where it started. -/
def Acyclic (e : Edges α κ) : Prop := ∀ a, ¬ TransGen (Under e) a a

theorem Acyclic.mono (h : Acyclic e) (hsub : ∀ a b, Under e' a b → Under e a b) : Acyclic e' :=
  fun a ha => h a (TransGen.mono hsub a a ha)

/-- A path over the new edges either uses none of them, or passes the moved node. -/
theorem transGen_update [DecidableEq α] (hp : ¬ Reaches e p c)
    (h : TransGen (Under (Function.update e c (some (.inr p)))) a b) :
    TransGen (Under e) a b ∨ Reaches e a c ∧ Reaches e p b := by
  induction h with
  | @single b hab =>
    by_cases hac : a = c
    · subst hac
      obtain rfl := under_update_self.1 hab
      exact .inr ⟨.refl, .refl⟩
    · exact .inl (.single ((under_update_of_ne hac).1 hab))
  | @tail b d _ hbd ih =>
    by_cases hbc : b = c
    · subst hbc
      obtain rfl := under_update_self.1 hbd
      rcases ih with hab | ⟨-, hpb⟩
      · exact .inr ⟨hab.to_reflTransGen, .refl⟩
      · exact absurd hpb hp
    · have hbd := (under_update_of_ne hbc).1 hbd
      exact ih.imp (·.tail hbd) fun h => ⟨h.1, h.2.tail hbd⟩

/-- Hanging a node from one that does not hang from it closes no cycle. -/
theorem Acyclic.update [DecidableEq α] (h : Acyclic e) (hp : ¬ Reaches e p c) :
    Acyclic (Function.update e c (some (.inr p))) := by
  intro a ha
  rcases transGen_update hp ha with hcycle | ⟨hac, hpa⟩
  · exact h a hcycle
  · exact hp (hpa.trans hac)

theorem under_of_update_cut [DecidableEq α] (hx : ∀ b, x ≠ some (.inr b))
    (h : Under (Function.update e c x) a b) : Under e a b := by
  by_cases ha : a = c
  · subst ha
    rw [Under, Function.update_self] at h
    exact absurd h (hx b)
  · exact (under_update_of_ne ha).1 h

theorem not_reaches_of_fresh (hac : a ≠ c) (h : ∀ b, ¬ Under e b c) : ¬ Reaches e a c := by
  intro hreach
  rcases hreach.cases_tail with rfl | ⟨b, -, hb⟩
  · exact hac rfl
  · exact h b hb

/-! ## Climbs that end -/

/-- The climb from a node ends, at a root or at a node that hangs nowhere. -/
def Grounded (e : Edges α κ) (a : α) : Prop := Acc (fun b a => Under e a b) a

theorem Rooted.grounded (h : Rooted e a k n) : Grounded e a := by
  induction h with
  | root h => exact ⟨_, fun b hb => by simp [Under, h] at hb⟩
  | climb h _ ih =>
    refine ⟨_, fun c hc => ?_⟩
    rw [Under, h, Option.some.injEq, Sum.inr.injEq] at hc
    exact hc ▸ ih

theorem Grounded.mono (h : Grounded e a) (hsub : ∀ a b, Under e' a b → Under e a b) :
    Grounded e' a := by
  induction h with
  | intro a _ ih => exact ⟨a, fun b hb => ih b (hsub a b hb)⟩

/-- Hanging a node from a rooted one that does not hang from it keeps every climb finite. -/
theorem Grounded.update [DecidableEq α] (h : Grounded e a) (hroot : Rooted e p k n)
    (hp : ¬ Reaches e p c) : Grounded (Function.update e c (some (.inr p))) a := by
  induction h with
  | intro a _ ih =>
    refine ⟨a, fun b hb => ?_⟩
    by_cases hac : a = c
    · subst hac
      rw [under_update_self.1 hb]
      exact (hroot.update hp _).grounded
    · exact ih b ((under_update_of_ne hac).1 hb)

/-- A climb that ends is rooted, or stops at a node that hangs nowhere. -/
theorem Grounded.rooted_or_stops (h : Grounded e a) :
    (∃ k n, Rooted e a k n) ∨ ∃ b, Reaches e a b ∧ e b = none := by
  induction h with
  | intro a _ ih =>
    match ha : e a with
    | none => exact .inr ⟨a, .refl, ha⟩
    | some (.inl k) => exact .inl ⟨k, 1, .root ha⟩
    | some (.inr b) =>
      rcases ih b ha with ⟨k, n, hb⟩ | ⟨c, hbc, hc⟩
      · exact .inl ⟨k, n + 1, .climb ha hb⟩
      · exact .inr ⟨c, hbc.head ha, hc⟩

end Lib.Forest
