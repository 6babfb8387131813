import BluePods.Commit
import BluePods.Index

/-! A hash for worked cases over the index trees. It keeps the height of an empty subtree and
tags every other digest, so that the strings of a small tree do not collide with each other,
with the empty subtrees, or with the digest of nothing. -/

namespace BluePods.Client
open Lib.SparseTree

/-- The digest of an empty subtree of a height. -/
def levelHash (n : Nat) : Hash := toHash [byteOf (n / 256), byteOf n]

/-- A hash that keeps what tells the strings below apart: the height for an empty subtree,
and the first two bytes and the length, tagged, for any other string. -/
def tagHash (b : Bytes) : Hash :=
  if b.length = 65 ∧ b.getD 0 0 = 1 ∧ b.getD 32 0 = 0 then
    levelHash (256 * (b.getD 1 0).val + (b.getD 2 0).val + 1)
  else ⟨[b.getD 0 0, b.getD 1 0, byteOf b.length] ++ List.replicate 28 0 ++ [1], by simp⟩

def tagCrypto : Crypto := { soloCrypto with blake3 := tagHash }

theorem levelHash_val (n : Nat) :
    (levelHash n).val = byteOf (n / 256) :: byteOf n :: List.replicate 30 0 := rfl

theorem levelHash_inj {m n : Nat} (hm : m < 65536) (hn : n < 65536)
    (h : levelHash m = levelHash n) : m = n := by
  have hval := congrArg Subtype.val h
  rw [levelHash_val, levelHash_val, List.cons.injEq, List.cons.injEq] at hval
  have hhigh := congrArg Fin.val hval.1
  have hlow := congrArg Fin.val hval.2.1
  simp only [byteOf, Fin.val_ofNat] at hhigh hlow
  omega

theorem tagHash_level {n : Nat} (hn : n < 65535) :
    tagHash (SMT.nodeBytes (.node (levelHash n) (levelHash n))) = levelHash (n + 1) := by
  have hbytes : SMT.nodeBytes (.node (levelHash n) (levelHash n)) =
      1 :: byteOf (n / 256) :: byteOf n :: (List.replicate 30 0 ++ (levelHash n).val) := by
    rw [SMT.nodeBytes, levelHash_val]
    rfl
  rw [hbytes, tagHash, if_pos]
  · congr 1
    show 256 * (n / 256 % 256) + n % 256 + 1 = n + 1
    omega
  · refine ⟨?_, rfl, rfl⟩
    simp [(levelHash n).property]

theorem emptyRoot_eq_levelHash {n : Nat} (hn : n ≤ treeDepth) :
    Tree.emptyRoot (SMT.nodeDigest tagCrypto) zeroHash n = levelHash n := by
  induction n with
  | zero => decide
  | succ n ih =>
    rw [treeDepth] at hn
    rw [Tree.emptyRoot, ih (by rw [treeDepth]; omega), SMT.nodeDigest_eq]
    exact tagHash_level (by omega)

theorem mem_defaultInputs {x : Bytes} (h : x ∈ defaultInputs tagCrypto) :
    ∃ n < treeDepth, x = SMT.nodeBytes (.node (levelHash n) (levelHash n)) ∧
      tagHash x = levelHash (n + 1) := by
  suffices ∀ m ≤ treeDepth,
      ∀ p ∈ Tree.emptyInputs (SMT.nodeDigest tagCrypto) zeroHash m,
      ∃ n < m, p = .node (levelHash n) (levelHash n) by
    obtain ⟨p, hp, rfl⟩ := List.mem_map.1 h
    obtain ⟨n, hn, rfl⟩ := this treeDepth le_rfl p hp
    rw [treeDepth] at hn
    exact ⟨n, hn, rfl, tagHash_level (by omega)⟩
  intro m
  induction m with
  | zero => intro _ p hp; cases hp
  | succ m ih =>
    intro hm p hp
    rw [Tree.emptyInputs, List.mem_cons, emptyRoot_eq_levelHash (by omega)] at hp
    rcases hp with rfl | hp
    · exact ⟨m, Nat.lt_succ_self m, rfl⟩
    · obtain ⟨n, hn, rfl⟩ := ih (by omega) p hp
      exact ⟨n, by omega, rfl⟩

theorem collisionFree_of_tagged {l : List Bytes} (hfree : Tree.CollisionFree tagHash l)
    (htag : ∀ x ∈ l, (tagHash x).val.getD 31 0 = 1) :
    Tree.CollisionFree tagHash (defaultInputs tagCrypto ++ l) := by
  have hlevel : ∀ n, (levelHash n).val.getD 31 0 = 0 := fun n => rfl
  intro x hx y hy heq
  rcases List.mem_append.1 hx with hx | hx
  · obtain ⟨m, hm, rfl, htx⟩ := mem_defaultInputs hx
    rw [htx] at heq
    rcases List.mem_append.1 hy with hy | hy
    · obtain ⟨n, hn, rfl, hty⟩ := mem_defaultInputs hy
      rw [hty] at heq
      rw [treeDepth] at hm hn
      have := levelHash_inj (by omega) (by omega) heq
      rw [Nat.succ.inj this]
    · have := htag y hy
      rw [← heq, hlevel] at this
      exact absurd this (by decide)
  · rcases List.mem_append.1 hy with hy | hy
    · obtain ⟨n, -, -, hty⟩ := mem_defaultInputs hy
      have := htag x hx
      rw [heq, hty, hlevel] at this
      exact absurd this (by decide)
    · exact hfree x hx y hy heq

theorem tagHash_ne_zero {l : List Bytes} (htag : ∀ x ∈ l, (tagHash x).val.getD 31 0 = 1) :
    ∀ x ∈ defaultInputs tagCrypto ++ l, tagHash x ≠ zeroHash := by
  intro x hx heq
  rcases List.mem_append.1 hx with hx | hx
  · obtain ⟨n, hn, -, htx⟩ := mem_defaultInputs hx
    rw [treeDepth] at hn
    rw [htx, show zeroHash = levelHash 0 by decide] at heq
    exact absurd (levelHash_inj (by omega) (by omega) heq) (Nat.succ_ne_zero n)
  · have := htag x hx
    rw [heq] at this
    exact absurd this (by decide)

end BluePods.Client
