import Mathlib

/-! Bytes, hashes, fixed-width integers and the cryptographic primitives the rest
of the model is parametric in. -/

namespace BluePods

abbrev Byte := Fin 256

instance instNeZeroByte : NeZero 256 := ⟨by decide⟩

abbrev Bytes := List Byte

/-- A 32-byte identifier: a vertex, an object, a validator or a transaction. Its
order is the byte order of `bytes.Compare`. -/
abbrev Hash := {b : Bytes // b.length = 32}

instance instLawfulBEqHash : LawfulBEq Hash := inferInstance

def zeroHash : Hash := ⟨List.replicate 32 0, by simp⟩

/-- A short identifier for worked cases. -/
def idOf (n : Byte) : Hash := ⟨n :: List.replicate 31 0, by simp⟩

/-- A byte field of the wire as an identifier, when it has the right length. -/
def hash32 (b : Bytes) : Option Hash :=
  if h : b.length = 32 then some ⟨b, h⟩ else none

@[simp] theorem hash32_val (h : Hash) : hash32 h.val = some h := by
  simp [hash32, h.property]

theorem hash32_eq_some {b : Bytes} {h : Hash} : hash32 b = some h ↔ b = h.val := by
  constructor
  · intro hb
    simp only [hash32] at hb
    split at hb
    · simp only [Option.some.injEq] at hb
      exact congrArg Subtype.val hb
    · simp at hb
  · rintro rfl
    exact hash32_val h

/-- The third-party primitives: BLAKE3-256, Ed25519 verification (public key,
message, signature), BLS verification of an aggregated signature (signature,
message, keys) and of a signature under the possession tag (proof, message, key). -/
structure Crypto where
  blake3 : Bytes → Hash
  ed25519Verify : Bytes → Bytes → Bytes → Bool
  blsVerifyAggregated : Bytes → Bytes → List Bytes → Bool
  blsVerifyPossession : Bytes → Bytes → Bytes → Bool

/-! ## Encodings -/

def byteOf (n : Nat) : Byte := Fin.ofNat 256 n

/-- `binary.LittleEndian.PutUint64`. -/
def putUint64LE (n : UInt64) : Bytes :=
  (List.range 8).map fun i => byteOf (n.toNat / 256 ^ i)

/-- `binary.BigEndian.PutUint64`. -/
def putUint64BE (n : UInt64) : Bytes := (putUint64LE n).reverse

/-- `binary.LittleEndian.Uint64` on the first eight bytes. -/
def uint64LE (b : Bytes) : UInt64 :=
  UInt64.ofNat ((b.take 8).foldr (fun x acc => x.val + 256 * acc) 0)

/-! ## Saturating 64-bit arithmetic -/

def maxUint64 : UInt64 := UInt64.ofNat (2 ^ 64 - 1)

@[simp] theorem toNat_maxUint64 : maxUint64.toNat = 2 ^ 64 - 1 := rfl

/-- `a * b`, capped at the greatest 64-bit value. The source reads the high word
of the 128-bit product, which is nonzero exactly when the product overflows. -/
def safeMul (a b : UInt64) : UInt64 :=
  if a = 0 ∨ b = 0 then 0
  else if a.toNat * b.toNat / 2 ^ 64 > 0 then maxUint64
  else a * b

/-- `a + b`, capped at the greatest 64-bit value. -/
def safeAdd (a b : UInt64) : UInt64 :=
  let sum := a + b
  if sum < a then maxUint64 else sum

/-- `a - b`, floored at zero. -/
def floorSub (a b : UInt64) : UInt64 := if b > a then 0 else a - b

/-- `a + b`, capped by comparing against the room left. -/
def satAdd (a b : UInt64) : UInt64 := if a > maxUint64 - b then maxUint64 else a + b

theorem toNat_floorSub (a b : UInt64) : (floorSub a b).toNat = a.toNat - b.toNat := by
  unfold floorSub
  split
  · rename_i h
    have := UInt64.lt_iff_toNat_lt.1 h
    simp only [UInt64.toNat_zero]
    omega
  · rename_i h
    rw [UInt64.toNat_sub_of_le _ _ (UInt64.not_lt.1 h)]

theorem toNat_satAdd (a b : UInt64) :
    (satAdd a b).toNat = min (a.toNat + b.toNat) (2 ^ 64 - 1) := by
  have hb := b.toNat_lt
  have hmax : b ≤ maxUint64 := UInt64.le_iff_toNat_le.2 (by rw [toNat_maxUint64]; omega)
  have hsub : (maxUint64 - b).toNat = 2 ^ 64 - 1 - b.toNat := by
    rw [UInt64.toNat_sub_of_le _ _ hmax, toNat_maxUint64]
  unfold satAdd
  split
  · rename_i h
    have := UInt64.lt_iff_toNat_lt.1 h
    rw [toNat_maxUint64]
    omega
  · rename_i h
    have := UInt64.le_iff_toNat_le.1 (UInt64.not_lt.1 h)
    rw [UInt64.toNat_add]
    omega

theorem toNat_safeMul (a b : UInt64) :
    (safeMul a b).toNat = min (a.toNat * b.toNat) (2 ^ 64 - 1) := by
  unfold safeMul
  split
  · rename_i h
    rcases h with rfl | rfl <;> simp
  · split
    · rename_i h
      have : 2 ^ 64 ≤ a.toNat * b.toNat := by
        by_contra hlt
        rw [Nat.div_eq_of_lt (by omega)] at h
        omega
      rw [toNat_maxUint64]
      omega
    · rename_i h
      have hlt : a.toNat * b.toNat < 2 ^ 64 := by
        by_contra hge
        exact h (Nat.div_pos (by omega) (by omega))
      rw [UInt64.toNat_mul, Nat.mod_eq_of_lt hlt]
      omega

theorem toNat_safeAdd (a b : UInt64) :
    (safeAdd a b).toNat = min (a.toNat + b.toNat) (2 ^ 64 - 1) := by
  have ha := a.toNat_lt
  have hb := b.toNat_lt
  unfold safeAdd
  simp only [UInt64.lt_iff_toNat_lt, UInt64.toNat_add]
  split
  · rename_i h
    rw [toNat_maxUint64]
    omega
  · rename_i h
    rw [UInt64.toNat_add]
    omega

end BluePods
