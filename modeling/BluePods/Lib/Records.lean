import Mathlib

/-! Records written one after another. A reader that takes one record off the front of any
input reads a whole list back, whether it stops at the first record that does not decode
or checks the total length of fixed-size records first. -/

namespace BluePods.Lib.Records

variable {α β : Type*}

/-- The reader takes exactly the written form of `x` off the front of any input. -/
def Reads (enc : α → List β) (dec : List β → Option (α × List β)) (x : α) : Prop :=
  ∀ rest, dec (enc x ++ rest) = some (x, rest)

/-- Read up to `n` records, stopping at the first that does not decode. -/
def read (dec : List β → Option (α × List β)) : Nat → List β → List α
  | 0, _ => []
  | n + 1, data =>
    match dec data with
    | none => []
    | some (x, rest) => x :: read dec n rest

variable {enc : α → List β} {dec : List β → Option (α × List β)} {size : Nat}

theorem read_flatMap (l : List α) (h : ∀ x ∈ l, Reads enc dec x) (rest : List β) :
    read dec l.length (l.flatMap enc ++ rest) = l := by
  induction l with
  | nil => rfl
  | cons x l ih =>
    rw [List.length_cons, List.flatMap_cons, List.append_assoc, read,
      h x List.mem_cons_self]
    show x :: read dec l.length (l.flatMap enc ++ rest) = x :: l
    rw [ih fun y hy => h y (List.mem_cons_of_mem x hy)]

theorem read_flatMap_of_le {l : List α} {n : Nat} (hn : l.length ≤ n) (h : ∀ x ∈ l, Reads enc dec x)
    (hnil : dec [] = none) : read dec n (l.flatMap enc) = l := by
  induction l generalizing n with
  | nil =>
    cases n with
    | zero => rfl
    | succ n => rw [List.flatMap_nil, read, hnil]
  | cons x l ih =>
    cases n with
    | zero => simp at hn
    | succ n =>
      rw [List.flatMap_cons, read, h x List.mem_cons_self]
      show x :: read dec n (l.flatMap enc) = x :: l
      rw [ih (Nat.le_of_succ_le_succ hn) fun y hy => h y (List.mem_cons_of_mem x hy)]

/-- Records of one size, by cutting the input at that size. -/
def readFixed (size : Nat) (dec : List β → α) : Nat → List β → List α
  | 0, _ => []
  | n + 1, data => dec (data.take size) :: readFixed size dec n (data.drop size)

theorem length_flatMap_of_size (l : List α) (h : ∀ x ∈ l, (enc x).length = size) :
    (l.flatMap enc).length = l.length * size := by
  induction l with
  | nil => simp
  | cons x l ih =>
    rw [List.flatMap_cons, List.length_append, h x List.mem_cons_self,
      ih fun y hy => h y (List.mem_cons_of_mem x hy), List.length_cons]
    ring

theorem readFixed_flatMap {dec : List β → α} (l : List α) (hsize : ∀ x ∈ l, (enc x).length = size)
    (hdec : ∀ x ∈ l, dec (enc x) = x) : readFixed size dec l.length (l.flatMap enc) = l := by
  induction l with
  | nil => rfl
  | cons x l ih =>
    have hx := hsize x List.mem_cons_self
    rw [List.length_cons, List.flatMap_cons, readFixed, List.take_left' hx, List.drop_left' hx,
      hdec x List.mem_cons_self,
      ih (fun y hy => hsize y (List.mem_cons_of_mem x hy))
        fun y hy => hdec y (List.mem_cons_of_mem x hy)]

end BluePods.Lib.Records
