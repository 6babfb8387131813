import BluePods.Index
import BluePods.Lib.Records
import BluePods.Pod

/-! Fixed-width integers, length-prefixed fields and counted records on the wire and on
disk. -/

namespace BluePods
open Lib.Records

theorem length_putUint32LE (n : UInt32) : (putUint32LE n).length = 4 := by
  simp [putUint32LE]

theorem uint32LE_putUint32LE (n : UInt32) (rest : Bytes) :
    uint32LE (putUint32LE n ++ rest) = n := by
  have hn := n.toNat_lt
  have htake : (putUint32LE n ++ rest).take 4 = putUint32LE n :=
    List.take_left' (length_putUint32LE n)
  rw [uint32LE, htake, ← UInt32.toNat_inj, UInt32.toNat_ofNat']
  simp only [putUint32LE, byteOf, List.range, List.range.loop, List.map_cons, List.map_nil,
    List.foldr_cons, List.foldr_nil, Fin.val_ofNat]
  omega

/-- `binary.BigEndian.PutUint32`. -/
def putUint32BE (n : UInt32) : Bytes := (putUint32LE n).reverse

/-- `binary.BigEndian.Uint32` on the first four bytes. -/
def uint32BE (b : Bytes) : UInt32 := uint32LE (b.take 4).reverse

@[simp] theorem length_putUint32BE (n : UInt32) : (putUint32BE n).length = 4 := by
  rw [putUint32BE, List.length_reverse, length_putUint32LE]

theorem uint32BE_putUint32BE (n : UInt32) (rest : Bytes) :
    uint32BE (putUint32BE n ++ rest) = n := by
  rw [uint32BE, List.take_left' (length_putUint32BE n), putUint32BE, List.reverse_reverse]
  simpa using uint32LE_putUint32LE n []

/-- `binary.LittleEndian.PutUint16`. -/
def putUint16LE (n : UInt16) : Bytes :=
  (List.range 2).map fun i => byteOf (n.toNat / 256 ^ i)

/-- `binary.LittleEndian.Uint16` on the first two bytes. -/
def uint16LE (b : Bytes) : UInt16 :=
  UInt16.ofNat ((b.take 2).foldr (fun x acc => x.val + 256 * acc) 0)

/-- `binary.BigEndian.PutUint16`. -/
def putUint16BE (n : UInt16) : Bytes := (putUint16LE n).reverse

/-- `binary.BigEndian.Uint16` on the first two bytes. -/
def uint16BE (b : Bytes) : UInt16 := uint16LE (b.take 2).reverse

@[simp] theorem length_putUint16LE (n : UInt16) : (putUint16LE n).length = 2 := by
  simp [putUint16LE]

theorem uint16LE_putUint16LE (n : UInt16) (rest : Bytes) :
    uint16LE (putUint16LE n ++ rest) = n := by
  have hn := n.toNat_lt
  have htake : (putUint16LE n ++ rest).take 2 = putUint16LE n :=
    List.take_left' (length_putUint16LE n)
  rw [uint16LE, htake, ← UInt16.toNat_inj, UInt16.toNat_ofNat']
  simp only [putUint16LE, byteOf, List.range, List.range.loop, List.map_cons, List.map_nil,
    List.foldr_cons, List.foldr_nil, Fin.val_ofNat]
  omega

@[simp] theorem length_putUint16BE (n : UInt16) : (putUint16BE n).length = 2 := by
  rw [putUint16BE, List.length_reverse, length_putUint16LE]

theorem uint16BE_putUint16BE (n : UInt16) (rest : Bytes) :
    uint16BE (putUint16BE n ++ rest) = n := by
  rw [uint16BE, List.take_left' (length_putUint16BE n), putUint16BE, List.reverse_reverse]
  simpa using uint16LE_putUint16LE n []

/-! ## Keys -/

/-- `copy` of the first 48 bytes into a BLS key. -/
def toBLSKey (b : Bytes) : BLSKey :=
  ⟨b.take 48 ++ List.replicate (48 - (b.take 48).length) 0, by simp⟩

theorem toBLSKey_append (key : BLSKey) (rest : Bytes) : toBLSKey (key.val ++ rest) = key := by
  apply Subtype.ext
  show (key.val ++ rest).take 48 ++ _ = key.val
  rw [List.take_left' key.property, key.property]
  exact List.append_nil _

theorem toHash_append (h : Hash) (rest : Bytes) : toHash (h.val ++ rest) = h := by
  apply Subtype.ext
  show (h.val ++ rest).take 32 ++ _ = h.val
  rw [List.take_left' h.property, h.property]
  exact List.append_nil _

/-! ## Length-prefixed fields -/

/-- A field behind its length, which is cut to 32 bits. -/
def lenPrefixed (b : Bytes) : Bytes := putUint32BE (UInt32.ofNat b.length) ++ b

/-- One length-prefixed field and the bytes after it. A truncated field reads as empty and
uses up the input. -/
def readLenPrefixed (data : Bytes) : Bytes × Bytes :=
  if data.length < 4 then ([], [])
  else
    let n := (uint32BE data).toNat
    let data := data.drop 4
    if data.length < n then ([], []) else (data.take n, data.drop n)

theorem readLenPrefixed_lenPrefixed {b : Bytes} (h : b.length < 2 ^ 32) (rest : Bytes) :
    readLenPrefixed (lenPrefixed b ++ rest) = (b, rest) := by
  have hcount : (UInt32.ofNat b.length).toNat = b.length := by
    rw [UInt32.toNat_ofNat', Nat.mod_eq_of_lt h]
  have hdrop : (lenPrefixed b ++ rest).drop 4 = b ++ rest := by
    rw [lenPrefixed, List.append_assoc]
    exact List.drop_left' (length_putUint32BE _)
  have hlen : ¬ (lenPrefixed b ++ rest).length < 4 := by
    simp only [lenPrefixed, List.length_append, length_putUint32BE]
    omega
  have hread : uint32BE (lenPrefixed b ++ rest) = UInt32.ofNat b.length := by
    rw [lenPrefixed, List.append_assoc, uint32BE_putUint32BE]
  rw [readLenPrefixed, if_neg hlen]
  simp only [hread, hcount, hdrop]
  rw [if_neg (by simp), List.take_left' rfl, List.drop_left' rfl]

/-! ## Counted records -/

/-- A 32-bit count followed by the records. -/
def countedRecords {α : Type} (enc : α → Bytes) (l : List α) : Bytes :=
  putUint32BE (UInt32.ofNat l.length) ++ l.flatMap enc

/-- Records of one size behind their count. An absent, truncated or empty list reads as
nothing. -/
def readCounted {α : Type} (size : Nat) (dec : Bytes → α) (data : Bytes) : Option (List α) :=
  if data.length < 4 then none
  else
    let count := (uint32BE data).toNat
    if count = 0 ∨ data.length < 4 + count * size then none
    else some (readFixed size dec count (data.drop 4))

section Counted

variable {α : Type} {enc : α → Bytes} {l : List α}

theorem uint32BE_countedRecords (h : l.length < 2 ^ 32) :
    (uint32BE (countedRecords enc l)).toNat = l.length := by
  rw [countedRecords, uint32BE_putUint32BE, UInt32.toNat_ofNat', Nat.mod_eq_of_lt h]

theorem drop_countedRecords : (countedRecords enc l).drop 4 = l.flatMap enc :=
  List.drop_left' (length_putUint32BE _)

theorem four_le_length_countedRecords : ¬ (countedRecords enc l).length < 4 := by
  simp only [countedRecords, List.length_append, length_putUint32BE]
  omega

theorem readCounted_countedRecords {size : Nat} {dec : Bytes → α} (hlen : l.length < 2 ^ 32)
    (hsize : ∀ x ∈ l, (enc x).length = size) (hdec : ∀ x ∈ l, dec (enc x) = x) :
    readCounted size dec (countedRecords enc l) = if l = [] then none else some l := by
  rw [readCounted, if_neg four_le_length_countedRecords]
  simp only [uint32BE_countedRecords hlen, drop_countedRecords, List.length_eq_zero_iff]
  by_cases hl : l = []
  · rw [if_pos (Or.inl hl), if_pos hl]
  · have htotal : (countedRecords enc l).length = 4 + l.length * size := by
      rw [countedRecords, List.length_append, length_putUint32BE, length_flatMap_of_size l hsize]
    rw [if_neg (by rw [htotal]; simp [hl]), if_neg hl, readFixed_flatMap l hsize hdec]

end Counted

end BluePods
