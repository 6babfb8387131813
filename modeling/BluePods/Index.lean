import BluePods.Ledger
import BluePods.Lib.SparseTree

/-! The validator tree of the verifiable index: a sparse Merkle tree over 256-bit
positions, keyed by the digest of a validator's key. Its root commits to a list of
validator leaves with distinct keys, up to order. -/

namespace BluePods
open Lib.SparseTree

/-! ## The tree -/

/-- The number of bits in a key position. -/
def treeDepth : Nat := 256

/-- The bit of a position, most significant bit of the first byte first. -/
def bit (h : Hash) (i : Nat) : Bool := (h.val.getD (i / 8) 0).val.testBit (7 - i % 8)

def leafHash (cr : Crypto) (keyHash valueHash : Hash) : Hash :=
  cr.blake3 (0 :: (keyHash.val ++ valueHash.val))

def internalHash (cr : Crypto) (left right : Hash) : Hash :=
  cr.blake3 (1 :: (left.val ++ right.val))

/-- A sparse tree from key digests to value digests. -/
abbrev SMT := Tree Hash Hash

namespace SMT

/-- What the digest of a node is taken of. -/
def nodeBytes : Preimage Hash Hash Hash → Bytes
  | .leaf keyHash valueHash => 0 :: (keyHash.val ++ valueHash.val)
  | .node left right => 1 :: (left.val ++ right.val)

def nodeDigest (cr : Crypto) : Preimage Hash Hash Hash → Hash
  | .leaf keyHash valueHash => leafHash cr keyHash valueHash
  | .node left right => internalHash cr left right

def insert (cr : Crypto) (t : SMT) (key value : Bytes) : SMT :=
  Tree.insert bit treeDepth t 0 (cr.blake3 key) (cr.blake3 value)

/-- The digest of a tree; an empty subtree at the last level is 32 zero bytes. -/
def digest (cr : Crypto) (t : SMT) : Hash := t.root (nodeDigest cr) zeroHash treeDepth 0

theorem nodeDigest_eq (cr : Crypto) (p : Preimage Hash Hash Hash) :
    nodeDigest cr p = cr.blake3 (nodeBytes p) := by
  cases p with
  | leaf k v => rfl
  | node l r => rfl

end SMT

theorem append_hash_inj {a b : Hash} {s t : Bytes} (h : a.val ++ s = b.val ++ t) :
    a = b ∧ s = t := by
  obtain ⟨ha, hs⟩ := List.append_inj h (a.property.trans b.property.symm)
  exact ⟨Subtype.ext ha, hs⟩

theorem SMT.nodeBytes_injective : Function.Injective SMT.nodeBytes := by
  intro p q h
  cases p with
  | leaf k v =>
    cases q with
    | leaf k' v' =>
      obtain ⟨rfl, hv⟩ := append_hash_inj (List.cons.inj h).2
      rw [Subtype.ext hv]
    | node l r => exact absurd (List.cons.inj h).1 (by decide)
  | node l r =>
    cases q with
    | leaf k v => exact absurd (List.cons.inj h).1 (by decide)
    | node l' r' =>
      obtain ⟨rfl, hr⟩ := append_hash_inj (List.cons.inj h).2
      rw [Subtype.ext hr]

theorem bit_ext (h h' : Hash) (hbits : ∀ i < treeDepth, bit h i = bit h' i) : h = h' := by
  refine Subtype.ext (List.ext_getElem (h.property.trans h'.property.symm) ?_)
  intro n hn hn'
  refine Fin.ext (Nat.eq_of_testBit_eq ?_)
  intro j
  have hlen := h.property
  by_cases hj : j < 8
  · -- Bit `j` of byte `n` is at position `8n + 7 - j`.
    have hbit := hbits (8 * n + (7 - j)) (by rw [treeDepth]; omega)
    have hdiv : (8 * n + (7 - j)) / 8 = n := by omega
    have hmod : 7 - (8 * n + (7 - j)) % 8 = j := by omega
    simpa only [bit, hdiv, hmod, List.getD_eq_getElem _ _ hn, List.getD_eq_getElem _ _ hn']
      using hbit
  · have hbig : 256 ≤ 2 ^ j := by
      calc 256 = 2 ^ 8 := by norm_num
        _ ≤ 2 ^ j := Nat.pow_le_pow_right (by norm_num) (by omega)
    rw [Nat.testBit_lt_two_pow (by have := h.val[n].isLt; omega),
      Nat.testBit_lt_two_pow (by have := h'.val[n].isLt; omega)]

/-! ## Validator leaves -/

structure ValidatorLeaf where
  pubkey : Hash
  cappedStake : UInt64
  blsKey : BLSKey
  status : Byte
  deriving DecidableEq

/-- `binary.BigEndian.Uint64` on the first eight bytes. -/
def uint64BE (b : Bytes) : UInt64 := uint64LE (b.take 8).reverse

def encodeValidatorLeaf (l : ValidatorLeaf) : Bytes :=
  l.pubkey.val ++ (putUint64BE l.cappedStake ++ (l.blsKey.val ++ [l.status]))

/-- The inverse of `encodeValidatorLeaf`, refusing any other length. -/
def decodeValidatorLeaf (data : Bytes) : Option ValidatorLeaf :=
  if h : data.length = 32 + 8 + 48 + 1 then
    some { pubkey := ⟨data.take 32, by simp [h]⟩
           cappedStake := uint64BE (data.drop 32)
           blsKey := ⟨(data.drop 40).take 48, by simp [h]⟩
           status := data.getD 88 0 }
  else none

@[simp] theorem length_putUint64BE (n : UInt64) : (putUint64BE n).length = 8 := by
  simp [putUint64BE]

theorem uint64BE_putUint64BE (n : UInt64) (rest : Bytes) :
    uint64BE (putUint64BE n ++ rest) = n := by
  rw [uint64BE, List.take_left' (length_putUint64BE n), putUint64BE, List.reverse_reverse]
  simpa using uint64LE_putUint64LE n []

theorem decode_encodeValidatorLeaf (l : ValidatorLeaf) :
    decodeValidatorLeaf (encodeValidatorLeaf l) = some l := by
  have hk := l.pubkey.property
  have hb := l.blsKey.property
  have hs := length_putUint64BE l.cappedStake
  have hlen : (encodeValidatorLeaf l).length = 32 + 8 + 48 + 1 := by
    simp [encodeValidatorLeaf, hk, hb]
  have hkey : (encodeValidatorLeaf l).take 32 = l.pubkey.val := List.take_left' hk
  have h32 : (encodeValidatorLeaf l).drop 32 =
      putUint64BE l.cappedStake ++ (l.blsKey.val ++ [l.status]) := List.drop_left' hk
  have h40 : (encodeValidatorLeaf l).drop 40 = l.blsKey.val ++ [l.status] := by
    rw [show 40 = 32 + 8 from rfl, ← List.drop_drop, h32, List.drop_left' hs]
  have h88 : (encodeValidatorLeaf l).getD 88 0 = l.status := by
    rw [List.getD_eq_getElem?_getD, show 88 = 40 + 48 from rfl, ← List.getElem?_drop, h40,
      List.getElem?_append_right (by omega), hb]
    rfl
  rw [decodeValidatorLeaf, dif_pos hlen]
  simp only [hkey, h32, h40, h88, List.take_left' hb, uint64BE_putUint64BE]

theorem encodeValidatorLeaf_injective : Function.Injective encodeValidatorLeaf := by
  intro l l' h
  have := congrArg decodeValidatorLeaf h
  rwa [decode_encodeValidatorLeaf, decode_encodeValidatorLeaf, Option.some.injEq] at this

theorem pubkey_of_decodeValidatorLeaf {data : Bytes} {l : ValidatorLeaf}
    (h : decodeValidatorLeaf data = some l) : l.pubkey.val = data.take 32 := by
  unfold decodeValidatorLeaf at h
  split at h
  · rw [← Option.some.inj h]
  · cases h

/-! ## The validator root -/

/-- The tree of a list of leaves, each inserted under its key in order. -/
def rebuild (cr : Crypto) (entries : List ValidatorLeaf) : SMT :=
  entries.foldl (fun t e => SMT.insert cr t e.pubkey.val (encodeValidatorLeaf e)) .empty

def validatorRootOf (cr : Crypto) (entries : List ValidatorLeaf) : Hash :=
  SMT.digest cr (rebuild cr entries)

/-- What the combined root is taken of. -/
def combinedBytes (domain parent children validator : Hash) : Bytes :=
  domain.val ++ (parent.val ++ (children.val ++ validator.val))

def combinedRoot (cr : Crypto) (domain parent children validator : Hash) : Hash :=
  cr.blake3 (combinedBytes domain parent children validator)

/-- Every string hashed for the root of a list of leaves, the digests of empty subtrees
apart. -/
def rootInputs (cr : Crypto) (entries : List ValidatorLeaf) : List Bytes :=
  entries.map (·.pubkey.val) ++ entries.map encodeValidatorLeaf ++
    ((rebuild cr entries).inputs (SMT.nodeDigest cr) zeroHash treeDepth 0).map SMT.nodeBytes

/-- Every string hashed for the digests of empty subtrees. -/
def defaultInputs (cr : Crypto) : List Bytes :=
  (Tree.emptyInputs (SMT.nodeDigest cr) zeroHash treeDepth).map SMT.nodeBytes

section Roots

variable {cr : Crypto} {l : List Bytes}

/-- A leaf's entry in the tree. -/
def ValidatorLeaf.entry (cr : Crypto) (e : ValidatorLeaf) : Hash × Hash :=
  (cr.blake3 e.pubkey.val, cr.blake3 (encodeValidatorLeaf e))

theorem rebuild_eq_ofList (cr : Crypto) (entries : List ValidatorLeaf) :
    rebuild cr entries = Tree.ofList bit treeDepth (entries.map (ValidatorLeaf.entry cr)) := by
  rw [Tree.ofList, List.foldl_map]
  rfl

variable {entries : List ValidatorLeaf} {e : ValidatorLeaf}

theorem pubkey_mem_rootInputs (he : e ∈ entries) : e.pubkey.val ∈ rootInputs cr entries := by
  apply List.mem_append_left
  apply List.mem_append_left
  exact List.mem_map.2 ⟨e, he, rfl⟩

theorem encode_mem_rootInputs (he : e ∈ entries) :
    encodeValidatorLeaf e ∈ rootInputs cr entries := by
  apply List.mem_append_left
  apply List.mem_append_right
  exact List.mem_map_of_mem he

section

variable (hfree : Tree.CollisionFree cr.blake3 l)

include hfree

theorem nodup_positions (hin : rootInputs cr entries ⊆ l)
    (hnodup : (entries.map (·.pubkey)).Nodup) :
    ((entries.map (ValidatorLeaf.entry cr)).map (·.1)).Nodup := by
  have hmap : (entries.map (ValidatorLeaf.entry cr)).map (·.1) =
      (entries.map (·.pubkey)).map fun k => cr.blake3 k.val := by
    simp [ValidatorLeaf.entry]
  rw [hmap]
  apply List.Nodup.map_on _ hnodup
  intro k hk k' hk' heq
  obtain ⟨e, he, rfl⟩ := List.mem_map.1 hk
  obtain ⟨e', he', rfl⟩ := List.mem_map.1 hk'
  apply Subtype.ext
  exact hfree _ (hin (pubkey_mem_rootInputs he)) _ (hin (pubkey_mem_rootInputs he')) heq

theorem eq_of_entry_eq {e' : ValidatorLeaf} (he : encodeValidatorLeaf e ∈ l)
    (he' : encodeValidatorLeaf e' ∈ l) (heq : e.entry cr = e'.entry cr) : e = e' := by
  apply encodeValidatorLeaf_injective
  exact hfree _ he _ he' (Prod.mk.inj heq).2

theorem collisionFree_nodeDigest {ps : List (Preimage Hash Hash Hash)}
    (hps : ∀ p ∈ ps, SMT.nodeBytes p ∈ l) : Tree.CollisionFree (SMT.nodeDigest cr) ps := by
  intro p hp q hq heq
  rw [SMT.nodeDigest_eq, SMT.nodeDigest_eq] at heq
  apply SMT.nodeBytes_injective
  exact hfree _ (hps p hp) _ (hps q hq) heq

theorem perm_of_validatorRootOf_eq (hdefault : defaultInputs cr ⊆ l) {xs ys : List ValidatorLeaf}
    (hinx : rootInputs cr xs ⊆ l) (hiny : rootInputs cr ys ⊆ l)
    (hx : (xs.map (·.pubkey)).Nodup) (hy : (ys.map (·.pubkey)).Nodup)
    (heq : validatorRootOf cr xs = validatorRootOf cr ys) :
    xs.Perm ys := by
  let nodes (entries : List ValidatorLeaf) :=
    (rebuild cr entries).inputs (SMT.nodeDigest cr) zeroHash treeDepth 0
  let ps := Tree.emptyInputs (SMT.nodeDigest cr) zeroHash treeDepth ++ (nodes xs ++ nodes ys)
  have hnode : ∀ {entries : List ValidatorLeaf}, rootInputs cr entries ⊆ l →
      ∀ p ∈ nodes entries, SMT.nodeBytes p ∈ l := by
    intro entries hin p hp
    apply hin
    apply List.mem_append_right
    exact List.mem_map_of_mem hp
  have hps : ∀ p ∈ ps, SMT.nodeBytes p ∈ l := by
    intro p hp
    rcases List.mem_append.1 hp with hp | hp
    · exact hdefault (List.mem_map_of_mem hp)
    · rcases List.mem_append.1 hp with hp | hp
      · exact hnode hinx p hp
      · exact hnode hiny p hp
  have hperm : (xs.map (ValidatorLeaf.entry cr)).Perm (ys.map (ValidatorLeaf.entry cr)) := by
    apply Tree.perm_of_root_eq bit_ext (collisionFree_nodeDigest hfree hps)
      (List.subset_append_left ..) (by decide) (nodup_positions hfree hinx hx)
      (nodup_positions hfree hiny hy)
    · intro p hp
      rw [← rebuild_eq_ofList] at hp
      exact List.mem_append_right _ (List.mem_append_left _ hp)
    · intro p hp
      rw [← rebuild_eq_ofList] at hp
      exact List.mem_append_right _ (List.mem_append_right _ hp)
    · rw [← rebuild_eq_ofList, ← rebuild_eq_ofList]
      exact heq
  have hsame : ∀ {us vs : List ValidatorLeaf}, rootInputs cr us ⊆ l → rootInputs cr vs ⊆ l →
      (us.map (ValidatorLeaf.entry cr)).Perm (vs.map (ValidatorLeaf.entry cr)) →
      us ⊆ vs := by
    intro us vs hus hvs hp e he
    obtain ⟨e', he', hentry⟩ := List.mem_map.1 (hp.mem_iff.1 (List.mem_map_of_mem he))
    rwa [eq_of_entry_eq hfree (hus (encode_mem_rootInputs he)) (hvs (encode_mem_rootInputs he'))
      hentry.symm]
  apply (List.perm_ext_iff_of_nodup hx.of_map hy.of_map).2
  exact fun e => ⟨@hsame _ _ hinx hiny hperm e, @hsame _ _ hiny hinx hperm.symm e⟩

theorem validator_of_combinedRoot_eq {d p c v d' p' c' v' : Hash} (hin : combinedBytes d p c v ∈ l)
    (hin' : combinedBytes d' p' c' v' ∈ l)
    (heq : combinedRoot cr d p c v = combinedRoot cr d' p' c' v') : v = v' := by
  have hbytes := hfree _ hin _ hin' heq
  have h₁ := (append_hash_inj hbytes).2
  have h₂ := (append_hash_inj h₁).2
  have h₃ := (append_hash_inj h₂).2
  exact Subtype.ext h₃

end

end Roots

end BluePods
