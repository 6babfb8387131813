import BluePods.Attest

/-! Signer bitmaps: what parsing reads, that building and parsing agree, and which
holders a bitmap can name. -/

namespace BluePods

variable {bitmap : Bytes} {vs : ValidatorSet} {holders : List Hash}

/-! ## Bitmaps -/

theorem mem_parseSignerBitmap {i : Nat} :
    i ∈ parseSignerBitmap bitmap ↔ ∃ b, bitmap[i / 8]? = some b ∧ b.val.testBit (i % 8) = true := by
  simp only [parseSignerBitmap, List.mem_flatMap, List.mem_map, List.mem_filter, List.mem_range,
    Prod.exists]
  constructor
  · rintro ⟨b, byteIdx, hmem, bit, ⟨hbit, htest⟩, rfl⟩
    have hget := List.mem_zipIdx_iff_getElem?.1 hmem
    refine ⟨b, ?_, ?_⟩
    · rw [show (byteIdx * 8 + bit) / 8 = byteIdx by omega]
      exact hget
    · rw [show (byteIdx * 8 + bit) % 8 = bit by omega]
      exact htest
  · rintro ⟨b, hget, htest⟩
    exact ⟨b, i / 8, List.mem_zipIdx_iff_getElem?.2 hget, i % 8, ⟨by omega, htest⟩, by omega⟩

theorem nodup_parseSignerBitmap (bitmap : Bytes) : (parseSignerBitmap bitmap).Nodup := by
  unfold parseSignerBitmap
  rw [List.nodup_flatMap]
  refine ⟨fun p _ => ?_, ?_⟩
  · refine (List.nodup_range.filter _).map fun a b h => ?_
    omega
  · have hsnd : (bitmap.zipIdx.map Prod.snd).Nodup := by
      rw [List.zipIdx_map_snd]
      exact List.nodup_range'
    refine (List.pairwise_map.1 hsnd).imp fun {p q} hne => ?_
    -- The byte an index lies in is its quotient by eight.
    intro i hp hq
    obtain ⟨bit, hbit, rfl⟩ := List.mem_map.1 hp
    obtain ⟨bit', hbit', heq⟩ := List.mem_map.1 hq
    have := List.mem_range.1 (List.mem_filter.1 hbit).1
    have := List.mem_range.1 (List.mem_filter.1 hbit').1
    omega

theorem testBit_setBit (b : Byte) {k : Nat} (hk : k < 8) (j : Nat) :
    (byteOf (b.val ||| 1 <<< k)).val.testBit j = (b.val.testBit j || decide (k = j)) := by
  have hlt : b.val ||| 1 <<< k < 2 ^ 8 := by
    refine Nat.or_lt_two_pow b.isLt ?_
    rw [Nat.one_shiftLeft]
    exact Nat.pow_lt_pow_right (by decide) hk
  have hval : (byteOf (b.val ||| 1 <<< k)).val = b.val ||| 1 <<< k := by
    simp only [byteOf, Fin.ofNat]
    exact Nat.mod_eq_of_lt hlt
  rw [hval, Nat.testBit_or, Nat.one_shiftLeft, Nat.testBit_two_pow]

private theorem mem_parse_foldl {total : Nat} :
    ∀ (indices : List Nat) (bitmap : Bytes), bitmap.length = (total + 7) / 8 → ∀ i, i < total →
      (i ∈ parseSignerBitmap (indices.foldl (fun bitmap idx =>
          if idx < total then bitmap.modify (idx / 8) fun b => byteOf (b.val ||| 1 <<< (idx % 8))
          else bitmap) bitmap) ↔ i ∈ parseSignerBitmap bitmap ∨ i ∈ indices) := by
  intro indices
  induction indices with
  | nil => intro bitmap _ i _; simp
  | cons idx indices ih =>
    intro bitmap hlen i hi
    rw [List.foldl_cons]
    by_cases hidx : idx < total
    · rw [if_pos hidx, ih _ (by simpa using hlen) i hi]
      have hstep : i ∈ parseSignerBitmap (bitmap.modify (idx / 8)
          fun b => byteOf (b.val ||| 1 <<< (idx % 8))) ↔
          i ∈ parseSignerBitmap bitmap ∨ i = idx := by
        obtain ⟨b, hb⟩ : ∃ b, bitmap[i / 8]? = some b :=
          ⟨_, List.getElem?_eq_getElem (by omega)⟩
        simp only [mem_parseSignerBitmap, List.getElem?_modify, hb]
        by_cases hbyte : idx / 8 = i / 8
        · have hbit : idx % 8 = i % 8 ↔ i = idx := by omega
          simp [hbyte, testBit_setBit b (Nat.mod_lt idx (by decide)), hbit]
        · have hne : i ≠ idx := fun h => hbyte (by rw [h])
          simp [hbyte, hne]
      rw [hstep, List.mem_cons]
      tauto
    · rw [if_neg hidx, ih _ hlen i hi, List.mem_cons]
      have hne : i ≠ idx := by omega
      tauto

theorem mem_parse_buildSignerBitmap {indices : List Nat} {total i : Nat} (hi : i < total) :
    i ∈ parseSignerBitmap (buildSignerBitmap indices total) ↔ i ∈ indices := by
  rw [buildSignerBitmap, mem_parse_foldl indices _ (by simp) i hi]
  have hzero : i ∉ parseSignerBitmap (List.replicate ((total + 7) / 8) 0) := by
    rw [mem_parseSignerBitmap]
    rintro ⟨b, hb, htest⟩
    obtain rfl := (List.mem_replicate.1 (List.mem_of_getElem? hb)).2
    simp at htest
  simp [hzero]

/-! ## Holders -/

theorem nodup_computeHolders (cr : Crypto) (vs : ValidatorSet) (objectID : Hash)
    (replication : Nat) : (computeHolders cr vs objectID replication).Nodup := by
  refine List.Nodup.sublist (List.take_sublist _ _) ?_
  exact (List.perm_insertionSort _ _).nodup_iff.2 vs.nodup

/-- The holders that carry a BLS key. -/
def keyedHolders (vs : ValidatorSet) (holders : List Hash) : List (Hash × BLSKey) :=
  holders.filterMap (keyedHolder vs)

theorem keyedHolder_eq_some {holder : Hash} {s : Hash × BLSKey}
    (h : keyedHolder vs holder = some s) :
    s.1 = holder ∧ ∃ info, vs.get holder = some info ∧ info.blsPubkey = s.2 := by
  simp [keyedHolder, Option.bind_eq_some_iff] at h
  obtain ⟨info, hinfo, -, rfl⟩ := h
  exact ⟨rfl, info, hinfo, rfl⟩

theorem bitmapSigners_subset : bitmapSigners bitmap holders vs ⊆ keyedHolders vs holders := by
  intro s hs
  obtain ⟨idx, -, hidx⟩ := List.mem_filterMap.1 hs
  obtain ⟨holder, hholder, hkey⟩ := Option.bind_eq_some_iff.1 hidx
  exact List.mem_filterMap.2 ⟨holder, List.mem_of_getElem? hholder, hkey⟩

theorem nodup_bitmapSigners (h : holders.Nodup) : (bitmapSigners bitmap holders vs).Nodup := by
  refine (nodup_parseSignerBitmap bitmap).filterMap fun i j s hi hj => ?_
  obtain ⟨holder, hholder, hkey⟩ := Option.bind_eq_some_iff.1 hi
  obtain ⟨holder', hholder', hkey'⟩ := Option.bind_eq_some_iff.1 hj
  obtain rfl : holder = holder' :=
    (keyedHolder_eq_some hkey).1.symm.trans (keyedHolder_eq_some hkey').1
  exact (List.getElem?_inj (List.getElem?_eq_some_iff.1 hholder).1 h).1
    (hholder.trans hholder'.symm)

theorem nodup_keyedHolders (vs : ValidatorSet) (h : holders.Nodup) :
    (keyedHolders vs holders).Nodup := by
  refine h.filterMap fun holder holder' s hkey hkey' => ?_
  exact (keyedHolder_eq_some hkey).1.symm.trans (keyedHolder_eq_some hkey').1

theorem exists_bitmapSigners (holders : List Hash) (vs : ValidatorSet)
    (sel : Hash × BLSKey → Bool) :
    ∃ bitmap, ∀ s, s ∈ bitmapSigners bitmap holders vs ↔
      s ∈ keyedHolders vs holders ∧ sel s = true := by
  let indices := (List.range holders.length).filter fun i =>
    (holders[i]?.bind (keyedHolder vs)).any sel
  refine ⟨buildSignerBitmap indices holders.length, fun s => ?_⟩
  have hindex : ∀ i, (holders[i]?.bind (keyedHolder vs)) = some s →
      (i ∈ parseSignerBitmap (buildSignerBitmap indices holders.length) ↔ sel s = true) := by
    intro i hi
    obtain ⟨holder, hholder, -⟩ := Option.bind_eq_some_iff.1 hi
    have hlt := (List.getElem?_eq_some_iff.1 hholder).1
    rw [mem_parse_buildSignerBitmap hlt, List.mem_filter, List.mem_range, hi]
    simp [hlt]
  constructor
  · intro hs
    refine ⟨bitmapSigners_subset hs, ?_⟩
    obtain ⟨i, hmem, hi⟩ := List.mem_filterMap.1 hs
    exact (hindex i hi).1 hmem
  · rintro ⟨hs, hsel⟩
    obtain ⟨holder, hholder, hkey⟩ := List.mem_filterMap.1 hs
    obtain ⟨i, hi⟩ := List.mem_iff_getElem?.1 hholder
    have hbind : holders[i]?.bind (keyedHolder vs) = some s := by rw [hi, Option.bind_some, hkey]
    exact List.mem_filterMap.2 ⟨i, (hindex i hbind).2 hsel, hbind⟩

end BluePods
