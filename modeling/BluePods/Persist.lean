import BluePods.Epoch
import BluePods.Lib.SortedMap
import BluePods.Wire

/-! The metadata records of the consensus state: how holder sets, member sets and the
settlement accumulators are written to the store and read back. A written record is read
back as long as its counts and lengths fit their width; an empty one reads as absent. -/

namespace BluePods

variable {v : ValidatorInfo} {vals : List ValidatorInfo} {set : List Hash}
open Lib.Records Lib.SortedMap

/-! ## Validator records -/

def boolByte (b : Bool) : Byte := if b then 1 else 0

/-- One validator's persisted fields, without the reward coin. The length of the address is
cut to 16 bits, the address is not. -/
def encodeValidatorRecord (v : ValidatorInfo) : Bytes :=
  v.pubkey.val ++ (v.blsPubkey.val ++ (putUint64BE v.selfStake ++ (putUint64BE v.delegatedTotal ++
    (boolByte v.jailed :: (putUint16BE (UInt16.ofNat v.quicAddr.length) ++ v.quicAddr)))))

/-- The fixed part of a record: keys, stakes, jail flag and the length of the address. -/
def validatorRecordFixed : Nat := 32 + 48 + 8 + 8 + 1 + 2

/-- One record off the front, or nothing when it is cut short. -/
def decodeValidatorRecord (data : Bytes) : Option (ValidatorInfo × Bytes) :=
  if data.length < validatorRecordFixed then none
  else
    let addrLen := (uint16BE (data.drop 97)).toNat
    let rest := data.drop validatorRecordFixed
    if rest.length < addrLen then none
    else
      some ({ pubkey := toHash data
              quicAddr := rest.take addrLen
              blsPubkey := toBLSKey (data.drop 32)
              selfStake := uint64BE (data.drop 80)
              delegatedTotal := uint64BE (data.drop 88)
              jailed := data.getD 96 0 != 0 }, rest.drop addrLen)

/-- A live validator's record carries its reward coin. -/
def encodeLiveValidatorRecord (v : ValidatorInfo) : Bytes :=
  encodeValidatorRecord v ++ v.rewardCoin.val

def decodeLiveValidatorRecord (data : Bytes) : Option (ValidatorInfo × Bytes) :=
  match decodeValidatorRecord data with
  | none => none
  | some (info, rest) =>
    if rest.length < 32 then none else some ({ info with rewardCoin := toHash rest }, rest.drop 32)

/-- A record cut at the start of each of its fields. -/
theorem drop_record {key bls stake delegated len addr : Bytes} (jail : Byte)
    (hkey : key.length = 32) (hbls : bls.length = 48) (hstake : stake.length = 8)
    (hdelegated : delegated.length = 8) (hlen : len.length = 2) :
    let record := key ++ (bls ++ (stake ++ (delegated ++ (jail :: (len ++ addr)))))
    record.drop 32 = bls ++ (stake ++ (delegated ++ (jail :: (len ++ addr)))) ∧
      record.drop 80 = stake ++ (delegated ++ (jail :: (len ++ addr))) ∧
        record.drop 88 = delegated ++ (jail :: (len ++ addr)) ∧ record.getD 96 0 = jail ∧
          record.drop 97 = len ++ addr ∧ record.drop 99 = addr := by
  simp [List.drop_append, List.getElem?_append, List.drop_of_length_le, *]

theorem decodeValidatorRecord_encode (h : v.quicAddr.length < 2 ^ 16) (rest : Bytes) :
    decodeValidatorRecord (encodeValidatorRecord v ++ rest) =
      some ({ v with rewardCoin := zeroHash }, rest) := by
  have hk := v.pubkey.property
  have hb := v.blsPubkey.property
  have haddr : (UInt16.ofNat v.quicAddr.length).toNat = v.quicAddr.length := by
    rw [UInt16.toNat_ofNat', Nat.mod_eq_of_lt h]
  have hlen : ¬ (encodeValidatorRecord v ++ rest).length < validatorRecordFixed := by
    simp only [encodeValidatorRecord, validatorRecordFixed, List.length_append, List.length_cons,
      length_putUint64BE, length_putUint16BE, hk, hb]
    omega
  obtain ⟨h32, h80, h88, h96, h97, h99⟩ :=
    @drop_record _ _ _ _ _ (v.quicAddr ++ rest) (boolByte v.jailed) hk hb
      (length_putUint64BE v.selfStake) (length_putUint64BE v.delegatedTotal)
      (length_putUint16BE (UInt16.ofNat v.quicAddr.length))
  have hjail : (boolByte v.jailed != 0) = v.jailed := by cases v.jailed <;> rfl
  rw [decodeValidatorRecord, if_neg hlen]
  simp only [encodeValidatorRecord, validatorRecordFixed, List.append_assoc, List.cons_append, h32,
    h80, h88, h96, h97, h99, hjail, uint16BE_putUint16BE, haddr, toBLSKey_append,
    uint64BE_putUint64BE, toHash_append]
  rw [if_neg (by simp), List.take_left' rfl, List.drop_left' rfl]

theorem reads_holderRecord (h : v.quicAddr.length < 2 ^ 16) (hcoin : v.rewardCoin = zeroHash) :
    Reads encodeValidatorRecord decodeValidatorRecord v := by
  intro rest
  rw [decodeValidatorRecord_encode h, ← hcoin]

theorem reads_liveRecord (h : v.quicAddr.length < 2 ^ 16) :
    Reads encodeLiveValidatorRecord decodeLiveValidatorRecord v := by
  intro rest
  have hlen : ¬ (v.rewardCoin.val ++ rest).length < 32 := by
    rw [List.length_append, v.rewardCoin.property]
    omega
  rw [decodeLiveValidatorRecord, encodeLiveValidatorRecord, List.append_assoc,
    decodeValidatorRecord_encode h]
  simp only [if_neg hlen, toHash_append, List.drop_left' v.rewardCoin.property]

/-! ## Holder snapshots -/

/-- The members of a snapshot; an absent one has none. -/
def holderList : Option HolderSet → List ValidatorInfo
  | none => []
  | some set => set.all

def encodeHolderSnapshot (set : Option HolderSet) : Bytes :=
  countedRecords encodeValidatorRecord (holderList set)

def decodeHolderSnapshot (data : Bytes) : HolderSet :=
  if data.length < 4 then .empty
  else .freeze (read decodeValidatorRecord (uint32BE data).toNat (data.drop 4))

/-- An empty snapshot restores as absent. -/
def loadHolderSnapshot (data : Bytes) : Option HolderSet :=
  if data.length = 0 then none
  else
    let set := decodeHolderSnapshot data
    if set.all.length = 0 then none else some set

/-- A set whose records fit: their number, and every address. -/
def RecordsFit (vals : List ValidatorInfo) : Prop :=
  vals.length < 2 ^ 32 ∧ ∀ v ∈ vals, v.quicAddr.length < 2 ^ 16

instance decidableRecordsFit (vals : List ValidatorInfo) : Decidable (RecordsFit vals) :=
  inferInstanceAs (Decidable (_ ∧ _))

/-- Adding validators of fresh and different keys one after the other appends them all. -/
theorem all_foldl_of_fresh {S : Type} {f : S → ValidatorInfo → S}
    {g : ValidatorInfo → ValidatorInfo}
    (all : S → List ValidatorInfo) (hkey : ∀ v, (g v).pubkey = v.pubkey)
    (hadd : ∀ s v, v.pubkey ∉ (all s).map (·.pubkey) → all (f s v) = all s ++ [g v])
    (hnodup : (vals.map (·.pubkey)).Nodup) (s : S)
    (hfresh : ∀ v ∈ vals, v.pubkey ∉ (all s).map (·.pubkey)) :
    all (vals.foldl f s) = all s ++ vals.map g := by
  induction vals generalizing s with
  | nil => simp
  | cons v vals ih =>
    rw [List.map_cons, List.nodup_cons] at hnodup
    have hone := hadd s v (hfresh v List.mem_cons_self)
    rw [List.foldl_cons, ih hnodup.2, hone, List.append_assoc, List.map_cons, List.singleton_append]
    intro w hw
    rw [hone, List.map_append, List.mem_append]
    rintro (hin | hin)
    · exact hfresh w (List.mem_cons_of_mem v hw) hin
    · apply hnodup.1
      rw [List.map_singleton, List.mem_singleton, hkey] at hin
      exact hin ▸ List.mem_map_of_mem hw

theorem freeze_all (hnodup : (vals.map (·.pubkey)).Nodup) :
    (HolderSet.freeze vals).all = vals.map fun v => { v with rewardCoin := zeroHash } := by
  refine all_foldl_of_fresh (g := fun v => { v with rewardCoin := zeroHash })
    (fun hs : HolderSet => hs.all) (fun _ => rfl) ?_ hnodup HolderSet.empty
      (by simp [HolderSet.empty, ValidatorSet.empty])
  intro hs v hnew
  show (hs.toValidatorSet.addWithStake v).all = _
  rw [ValidatorSet.addWithStake, dif_neg hnew]

theorem HolderSet.ext_all {a b : HolderSet} (h : a.all = b.all) : a = b := by
  obtain ⟨⟨all, hn⟩, hc⟩ := a
  obtain ⟨⟨all', hn'⟩, hc'⟩ := b
  obtain rfl : all = all' := h
  rfl

theorem HolderSet.freeze_self (hs : HolderSet) : HolderSet.freeze hs.all = hs := by
  apply HolderSet.ext_all
  rw [freeze_all hs.nodup]
  conv_rhs => rw [← List.map_id hs.all]
  apply List.map_congr_left
  intro v hv
  rw [← hs.coinless v hv]
  rfl

theorem loadHolderSnapshot_encode {set : Option HolderSet} (h : RecordsFit (holderList set)) :
    loadHolderSnapshot (encodeHolderSnapshot set) = set.filter (·.all ≠ []) := by
  have hread : decodeHolderSnapshot (encodeHolderSnapshot set) =
      HolderSet.freeze (holderList set) := by
    have hall : ∀ v ∈ holderList set, Reads encodeValidatorRecord decodeValidatorRecord v := by
      intro v hv
      cases set with
      | none => cases hv
      | some hs => exact reads_holderRecord (h.2 v hv) (hs.coinless v hv)
    rw [decodeHolderSnapshot, encodeHolderSnapshot, if_neg four_le_length_countedRecords,
      uint32BE_countedRecords h.1, drop_countedRecords]
    have := read_flatMap (holderList set) hall []
    rw [List.append_nil] at this
    rw [this]
  have hne : ¬ (encodeHolderSnapshot set).length = 0 := by
    have := @four_le_length_countedRecords _ encodeValidatorRecord (holderList set)
    rw [encodeHolderSnapshot]
    omega
  rw [loadHolderSnapshot, if_neg hne, hread]
  cases set with
  | none => rfl
  | some hs =>
    show (if (HolderSet.freeze hs.all).all.length = 0 then none
      else some (HolderSet.freeze hs.all)) = _
    rw [HolderSet.freeze_self]
    by_cases hnil : hs.all = []
    · simp [Option.filter, hnil]
    · simp [Option.filter, hnil]

/-! ## The live set -/

def encodeLiveValidators (vs : ValidatorSet) : Bytes :=
  countedRecords encodeLiveValidatorRecord vs.all

def decodeLiveValidators (data : Bytes) : List ValidatorInfo :=
  if data.length < 4 then []
  else read decodeLiveValidatorRecord (uint32BE data).toNat (data.drop 4)

/-- Rebuild the live set, or nothing when no validator was persisted. -/
def restoreValidatorSet (infos : List ValidatorInfo) : Option ValidatorSet :=
  if infos.length = 0 then none
  else
    some (infos.foldl (fun vs v => (vs.addWithStake v).setRewardCoin v.pubkey v.rewardCoin)
      .empty)

theorem ValidatorSet.ext_all {a b : ValidatorSet} (h : a.all = b.all) : a = b := by
  obtain ⟨all, hn⟩ := a
  obtain ⟨all', hn'⟩ := b
  obtain rfl : all = all' := h
  rfl

theorem addWithStake_setRewardCoin {vs : ValidatorSet} (hnew : v.pubkey ∉ vs.all.map (·.pubkey)) :
    ((vs.addWithStake v).setRewardCoin v.pubkey v.rewardCoin).all = vs.all ++ [v] := by
  rw [ValidatorSet.addWithStake, dif_neg hnew]
  show Lib.Tally.update _ _ _ _ = _
  rw [Lib.Tally.update, List.map_append]
  congr 1
  · conv_rhs => rw [← List.map_id vs.all]
    apply List.map_congr_left
    intro w hw
    have hne : w.pubkey ≠ v.pubkey := by
      intro he
      exact hnew (he ▸ List.mem_map_of_mem hw)
    simp [hne]
  · simp

theorem foldl_restore (vs : ValidatorSet) :
    vs.all.foldl (fun vs v => (vs.addWithStake v).setRewardCoin v.pubkey v.rewardCoin) .empty =
      vs := by
  apply ValidatorSet.ext_all
  have hall := all_foldl_of_fresh (f := fun vs v => (vs.addWithStake v).setRewardCoin v.pubkey
    v.rewardCoin) (g := id) ValidatorSet.all (fun _ => rfl) (fun _ _ => addWithStake_setRewardCoin)
      vs.nodup ValidatorSet.empty (by simp [ValidatorSet.empty])
  rw [hall, List.map_id]
  rfl

/-- A written live set is rebuilt, field for field and in order; the empty one is not
restored. -/
theorem restoreValidatorSet_decode {vs : ValidatorSet} (h : RecordsFit vs.all) :
    restoreValidatorSet (decodeLiveValidators (encodeLiveValidators vs)) =
      if vs.all = [] then none else some vs := by
  have hread : decodeLiveValidators (encodeLiveValidators vs) = vs.all := by
    rw [decodeLiveValidators, encodeLiveValidators, if_neg four_le_length_countedRecords,
      uint32BE_countedRecords h.1, drop_countedRecords]
    have := read_flatMap vs.all (fun v hv => reads_liveRecord (h.2 v hv)) []
    rwa [List.append_nil] at this
  rw [restoreValidatorSet, hread]
  simp only [List.length_eq_zero_iff]
  rw [foldl_restore]

/-! ## Member sets and lists -/

def encodeMemberSet (set : List Hash) : Bytes :=
  countedRecords (fun h : Hash => h.val) (sortedMemberKeys set)

/-- An absent, truncated or empty record decodes as nothing. -/
def decodeMemberSet (data : Bytes) : Option (List Hash) := readCounted 32 toHash data

def encodeHashList (list : List Hash) : Bytes :=
  countedRecords (fun h : Hash => h.val) (list.insertionSort (· ≤ ·))

def decodeHashList (data : Bytes) : Option (List Hash) := readCounted 32 toHash data

theorem readCounted_hashes {l : List Hash} (h : l.length < 2 ^ 32) :
    readCounted 32 toHash (countedRecords (fun h : Hash => h.val) l) =
      if l = [] then none else some l := by
  apply readCounted_countedRecords h
  · intro x _
    exact x.property
  · intro x _
    simpa only [List.append_nil] using toHash_append x []

theorem mem_sortedMemberKeys {k : Hash} : k ∈ sortedMemberKeys set ↔ k ∈ set := by
  rw [sortedMemberKeys, List.mem_insertionSort, List.mem_dedup]

theorem sortedMemberKeys_eq_nil : sortedMemberKeys set = [] ↔ set = [] := by
  rw [List.eq_nil_iff_forall_not_mem, List.eq_nil_iff_forall_not_mem]
  simp only [mem_sortedMemberKeys]

theorem length_sortedMemberKeys_le (set : List Hash) :
    (sortedMemberKeys set).length ≤ set.length := by
  rw [sortedMemberKeys, List.length_insertionSort]
  exact set.dedup_sublist.length_le

theorem decodeMemberSet_encode (h : set.length < 2 ^ 32) :
    decodeMemberSet (encodeMemberSet set) =
      if set = [] then none else some (sortedMemberKeys set) := by
  rw [decodeMemberSet, encodeMemberSet,
    readCounted_hashes (lt_of_le_of_lt (length_sortedMemberKeys_le set) h)]
  simp only [sortedMemberKeys_eq_nil]

theorem decodeHashList_encode {list : List Hash} (h : list.length < 2 ^ 32) :
    decodeHashList (encodeHashList list) =
      if list = [] then none else some (list.insertionSort (· ≤ ·)) := by
  rw [decodeHashList, encodeHashList, readCounted_hashes (by rwa [List.length_insertionSort])]
  have hnil : list.insertionSort (· ≤ ·) = [] ↔ list = [] := by
    rw [← List.length_eq_zero_iff, List.length_insertionSort, List.length_eq_zero_iff]
  simp only [hnil]

/-! ## Accumulators -/

theorem uint64BE_putUint64BE_self (n : UInt64) : uint64BE (putUint64BE n) = n := by
  simpa using uint64BE_putUint64BE n []

def encodeEpochFees (m : Finmap fun _ : UInt64 => UInt64) : Bytes :=
  countedRecords (fun p : UInt64 × UInt64 => putUint64BE p.1 ++ putUint64BE p.2)
    (toPairs (· ≤ ·) m)

def decodeEpochFees (data : Bytes) : Option (Finmap fun _ : UInt64 => UInt64) :=
  (readCounted 16 (fun b => (uint64BE b, uint64BE (b.drop 8))) data).map ofPairs

def encodeCounterSet (set : Finmap fun _ : Hash => UInt64) : Bytes :=
  countedRecords (fun p : Hash × UInt64 => p.1.val ++ putUint64BE p.2) (toPairs (· ≤ ·) set)

def decodeCounterSet (data : Bytes) : Option (Finmap fun _ : Hash => UInt64) :=
  (readCounted 40 (fun b => (toHash b, uint64BE (b.drop 32))) data).map ofPairs

/-- A decoded bucket as one with a credit. -/
def Counters.ofMap (m : Finmap fun _ : Hash => UInt64) : Option Counters :=
  if h : m ≠ ∅ then some ⟨m, h⟩ else none

def encodeCounterRecord (p : UInt64 × Counters) : Bytes :=
  putUint64BE p.1 ++ lenPrefixed (encodeCounterSet p.2.val)

def encodePerEpochCounters (m : Finmap fun _ : UInt64 => Counters) : Bytes :=
  countedRecords encodeCounterRecord (toPairs (· ≤ ·) m)

/-- The records of a per-epoch map. One that is cut before its epoch voids them all; one
whose counters do not decode is dropped. -/
def readCounterRecords : Nat → Bytes → Option (List (UInt64 × Counters))
  | 0, _ => some []
  | n + 1, rest =>
    if rest.length < 8 then none
    else
      let (raw, after) := readLenPrefixed (rest.drop 8)
      (readCounterRecords n after).map fun later =>
        match (decodeCounterSet raw).bind Counters.ofMap with
        | none => later
        | some inner => (uint64BE rest, inner) :: later

def decodePerEpochCounters (data : Bytes) : Option (Finmap fun _ : UInt64 => Counters) :=
  if data.length < 4 then none
  else
    let count := (uint32BE data).toNat
    if count = 0 then none
    else
      (readCounterRecords count (data.drop 4)).bind fun l =>
        if l.length = 0 then none else some (ofPairs l)

theorem decodeEpochFees_encode {m : Finmap fun _ : UInt64 => UInt64} (h : m.keys.card < 2 ^ 32) :
    decodeEpochFees (encodeEpochFees m) = if m = ∅ then none else some m := by
  rw [decodeEpochFees, encodeEpochFees, readCounted_countedRecords
    (lt_of_le_of_lt (length_toPairs_le _ m) h)]
  · simp only [toPairs_eq_nil]
    by_cases hm : m = ∅
    · rw [if_pos hm, if_pos hm, Option.map_none]
    · rw [if_neg hm, if_neg hm, Option.map_some, ofPairs_toPairs]
  · intro p _
    simp
  · intro p _
    rw [uint64BE_putUint64BE, List.drop_left' (length_putUint64BE _), uint64BE_putUint64BE_self]

theorem length_encodeCounterSet_le (m : Finmap fun _ : Hash => UInt64) :
    (encodeCounterSet m).length ≤ 4 + m.keys.card * 40 := by
  rw [encodeCounterSet, countedRecords, List.length_append, length_putUint32BE,
    @length_flatMap_of_size _ _ _ 40 _ (by intro p _; simp [p.1.property])]
  have := length_toPairs_le (· ≤ ·) m
  omega

theorem decodeCounterSet_encode {m : Finmap fun _ : Hash => UInt64} (h : m.keys.card < 2 ^ 32) :
    decodeCounterSet (encodeCounterSet m) = if m = ∅ then none else some m := by
  rw [decodeCounterSet, encodeCounterSet, readCounted_countedRecords
    (lt_of_le_of_lt (length_toPairs_le _ m) h)]
  · simp only [toPairs_eq_nil]
    by_cases hm : m = ∅
    · rw [if_pos hm, if_pos hm, Option.map_none]
    · rw [if_neg hm, if_neg hm, Option.map_some, ofPairs_toPairs]
  · intro p _
    simp [p.1.property]
  · intro p _
    rw [toHash_append, List.drop_left' p.1.property, uint64BE_putUint64BE_self]

/-- A bucket whose record length fits its prefix. -/
def CountersFit (c : Counters) : Prop := 4 + c.val.keys.card * 40 < 2 ^ 32

theorem readCounterRecords_flatMap (l : List (UInt64 × Counters)) (h : ∀ p ∈ l, CountersFit p.2) :
    readCounterRecords l.length (l.flatMap encodeCounterRecord) = some l := by
  induction l with
  | nil => rfl
  | cons p l ih =>
    have hp : CountersFit p.2 := h p List.mem_cons_self
    have hfit : (encodeCounterSet p.2.val).length < 2 ^ 32 :=
      lt_of_le_of_lt (length_encodeCounterSet_le p.2.val) hp
    have hlen : ¬ (encodeCounterRecord p ++ l.flatMap encodeCounterRecord).length < 8 := by
      simp only [encodeCounterRecord, List.length_append, length_putUint64BE]
      omega
    have hdrop : (encodeCounterRecord p ++ l.flatMap encodeCounterRecord).drop 8 =
        lenPrefixed (encodeCounterSet p.2.val) ++ l.flatMap encodeCounterRecord := by
      rw [encodeCounterRecord, List.append_assoc, List.drop_left' (length_putUint64BE _)]
    have hepoch : uint64BE (encodeCounterRecord p ++ l.flatMap encodeCounterRecord) = p.1 := by
      rw [encodeCounterRecord, List.append_assoc, uint64BE_putUint64BE]
    have hinner : (decodeCounterSet (encodeCounterSet p.2.val)).bind Counters.ofMap =
        some p.2 := by
      have hcard : p.2.val.keys.card < 2 ^ 32 := by
        have := hp
        unfold CountersFit at this
        omega
      rw [decodeCounterSet_encode hcard, if_neg p.2.property]
      simp [Counters.ofMap, p.2.property]
    rw [List.length_cons, List.flatMap_cons, readCounterRecords, if_neg hlen, hdrop,
      readLenPrefixed_lenPrefixed hfit]
    simp only [ih fun q hq => h q (List.mem_cons_of_mem p hq), Option.map_some, hinner, hepoch]

theorem decodePerEpochCounters_encode {m : Finmap fun _ : UInt64 => Counters}
    (hcard : m.keys.card < 2 ^ 32) (h : ∀ e c, m.lookup e = some c → CountersFit c) :
    decodePerEpochCounters (encodePerEpochCounters m) = if m = ∅ then none else some m := by
  have hcount : (toPairs (· ≤ ·) m).length < 2 ^ 32 :=
    lt_of_le_of_lt (length_toPairs_le _ m) hcard
  have hread := readCounterRecords_flatMap (toPairs (· ≤ ·) m)
    (fun p hp => h p.1 p.2 ((mem_toPairs _).1 hp))
  rw [decodePerEpochCounters, encodePerEpochCounters, if_neg four_le_length_countedRecords]
  simp only [uint32BE_countedRecords hcount, drop_countedRecords, hread, Option.bind_some,
    List.length_eq_zero_iff, toPairs_eq_nil, ofPairs_toPairs]
  by_cases hm : m = ∅
  · rw [if_pos hm, if_pos hm]
  · rw [if_neg hm, if_neg hm]

end BluePods
