import BluePods.Steps
import BluePods.Wire

/-! The arguments of a validator registration: four length-prefixed fields with 32-bit
lengths and offsets. Encoding and decoding are inverse, but decoding adds lengths to
offsets without a check, and a committed length that wraps the sum makes every node slice
out of range. -/

namespace BluePods

/-- One length-prefixed field; a longer length is truncated to 32 bits. -/
def borshVec (field : Bytes) : Bytes := putUint32LE (UInt32.ofNat field.length) ++ field

/-- The arguments of a registration; a zero reward coin is left out. -/
def encodeRegisterValidatorArgs (quicAddr blsPubkey blsPoP : Bytes) (rewardCoin : Hash) :
    Bytes :=
  let buf := borshVec quicAddr ++ borshVec blsPubkey ++ borshVec blsPoP
  if rewardCoin = zeroHash then buf else buf ++ borshVec rewardCoin.val

/-- The designated reward coin, zero when the arguments name none. -/
def decodeRegisterValidatorRewardCoin (args : RegisterArgs) : Hash :=
  (hash32 args.rewardCoin).getD zeroHash

/-! ## Reading fields one after another -/

/-- Up to `k` fields from an offset on, or a panic. -/
def readFields (data : Bytes) : Nat → UInt32 → Option (List Bytes)
  | 0, _ => some []
  | k + 1, offset =>
    match readBorshVec data offset with
    | none => none
    | some none => some []
    | some (some (value, next)) => (readFields data k next).map (value :: ·)

/-- Where the field at an offset ends by its declared length, without wrapping. -/
def fieldEnd (data : Bytes) (offset : Nat) : Nat :=
  offset + 4 + (uint32LE (data.drop offset)).toNat

/-- Among the next `k` fields, one that is reached has a length that carries its end, or
its length prefix, past the 32-bit range. -/
def Wraps (data : Bytes) : Nat → Nat → Prop
  | 0, _ => False
  | k + 1, offset => 2 ^ 32 ≤ offset + 4 ∨ offset + 4 ≤ data.length ∧
      (2 ^ 32 ≤ fieldEnd data offset ∨
        fieldEnd data offset ≤ data.length ∧ Wraps data k (fieldEnd data offset))

theorem uint32LE_take (b : Bytes) : uint32LE (b.take 4) = uint32LE b := by
  rw [uint32LE, uint32LE, List.take_take, Nat.min_self]

/-- The reader's 32-bit arithmetic against natural numbers. -/
theorem readBorshVec_eq {data : Bytes} {offset : UInt32} (hlen : data.length < 2 ^ 32)
    (hoff : offset.toNat ≤ data.length) :
    readBorshVec data offset =
      if 2 ^ 32 ≤ offset.toNat + 4 then none
      else if data.length < offset.toNat + 4 then some none
      else if 2 ^ 32 ≤ fieldEnd data offset.toNat then none
      else if data.length < fieldEnd data offset.toNat then some none
      else some (some ((data.drop (offset.toNat + 4)).take
        (uint32LE (data.drop offset.toNat)).toNat, UInt32.ofNat (fieldEnd data offset.toNat))) := by
  have h4 : (4 : UInt32).toNat = 4 := rfl
  have hL := (uint32LE (data.drop offset.toNat)).toNat_lt
  have hdata : (UInt32.ofNat data.length).toNat = data.length := by
    rw [UInt32.toNat_ofNat', Nat.mod_eq_of_lt hlen]
  simp only [readBorshVec, UInt32.lt_iff_toNat_lt, hdata, slice, UInt32.le_iff_toNat_le]
  by_cases hpre : 2 ^ 32 ≤ offset.toNat + 4
  · have hwrap : (offset + 4).toNat = offset.toNat + 4 - 2 ^ 32 := by
      rw [UInt32.toNat_add, h4]
      omega
    rw [if_pos hpre, if_neg (by omega), if_neg (by omega)]
    rfl
  · have hadd : (offset + 4).toNat = offset.toNat + 4 := by
      rw [UInt32.toNat_add, h4]
      omega
    rw [if_neg hpre, hadd]
    split
    · rfl
    · rename_i hhead
      have hsub : (offset + 4 - offset).toNat = 4 := by
        rw [UInt32.toNat_sub_of_le _ _ (by rw [UInt32.le_iff_toNat_le]; omega)]
        omega
      rw [if_pos ⟨by omega, by omega⟩, hsub]
      simp only [Option.bind_eq_bind, Option.bind_some, uint32LE_take]
      have hfield : fieldEnd data offset.toNat =
          offset.toNat + 4 + (uint32LE (data.drop offset.toNat)).toNat := rfl
      by_cases hend : 2 ^ 32 ≤ fieldEnd data offset.toNat
      · have hwrap : (offset + 4 + uint32LE (data.drop offset.toNat)).toNat =
            fieldEnd data offset.toNat - 2 ^ 32 := by
          rw [UInt32.toNat_add, hadd]
          omega
        rw [if_pos hend, hwrap, if_neg (by omega), if_neg (by omega)]
        rfl
      · have hsum : (offset + 4 + uint32LE (data.drop offset.toNat)).toNat =
            fieldEnd data offset.toNat := by
          rw [UInt32.toNat_add, hadd]
          omega
        rw [if_neg hend, hsum]
        split
        · rfl
        · have hlast : (offset + 4 + uint32LE (data.drop offset.toNat) - (offset + 4)).toNat =
              (uint32LE (data.drop offset.toNat)).toNat := by
            rw [UInt32.toNat_sub_of_le _ _ (by rw [UInt32.le_iff_toNat_le]; omega)]
            omega
          rw [if_pos ⟨by omega, by omega⟩, hlast]
          simp only [Option.bind_some, Option.some.injEq, Prod.mk.injEq, true_and]
          rw [← UInt32.toNat_inj, hsum, UInt32.toNat_ofNat', Nat.mod_eq_of_lt (by omega)]

theorem readFields_eq_none_iff {data : Bytes} (hlen : data.length < 2 ^ 32) (k : Nat)
    {offset : UInt32} (hoff : offset.toNat ≤ data.length) :
    readFields data k offset = none ↔ Wraps data k offset.toNat := by
  induction k generalizing offset with
  | zero => simp [readFields, Wraps]
  | succ k ih =>
    rw [readFields, readBorshVec_eq hlen hoff, Wraps]
    split_ifs with h1 h2 h3 h4
    · exact ⟨fun _ => .inl h1, fun _ => rfl⟩
    · simp only [false_iff, not_or, not_and]
      exact ⟨h1, fun h => absurd h (by omega)⟩
    · exact ⟨fun _ => .inr ⟨by omega, .inl h3⟩, fun _ => rfl⟩
    · simp only [false_iff, not_or, not_and]
      exact ⟨h1, fun _ => ⟨h3, fun h => absurd h (by omega)⟩⟩
    · have hnext : (UInt32.ofNat (fieldEnd data offset.toNat)).toNat =
          fieldEnd data offset.toNat := by
        rw [UInt32.toNat_ofNat', Nat.mod_eq_of_lt (by omega)]
      simp only [Option.map_eq_none_iff]
      rw [ih (by rw [hnext]; omega), hnext]
      constructor
      · intro h
        exact .inr ⟨by omega, .inr ⟨by omega, h⟩⟩
      · rintro (h | ⟨-, h | ⟨-, h⟩⟩)
        · exact absurd h h1
        · exact absurd h h3
        · exact h

/-- The four fields as arguments; a missing one is empty. -/
def RegisterArgs.ofFields (fields : List Bytes) : RegisterArgs where
  quicAddr := fields.getD 0 []
  blsPubkey := fields.getD 1 []
  blsPoP := fields.getD 2 []
  rewardCoin := fields.getD 3 []

/-- The address is read like the fields after it. -/
theorem decodeRegisterValidatorArgs_eq {data : Bytes} (hlen : data.length < 2 ^ 32) :
    decodeRegisterValidatorArgs data = (readFields data 4 0).map RegisterArgs.ofFields := by
  have hdata : (UInt32.ofNat data.length).toNat = data.length := by
    rw [UInt32.toNat_ofNat', Nat.mod_eq_of_lt hlen]
  have h4 : (4 : UInt32).toNat = 4 := rfl
  have haddr : readBorshVec data 0 =
      if data.length < 4 then some none
      else if data.length < (4 + uint32LE data).toNat then some none
      else (slice data 4 (4 + uint32LE data)).map fun addr => some (addr, 4 + uint32LE data) := by
    rw [readBorshVec]
    simp only [UInt32.lt_iff_toNat_lt, hdata, UInt32.zero_add, h4]
    split
    · rfl
    · rename_i hhead
      have hslice : slice data 0 4 = some (data.take 4) := by
        rw [slice, if_pos ⟨by decide, by rw [h4]; omega⟩]
        rfl
      simp only [hslice, Option.bind_eq_bind, Option.bind_some, uint32LE_take]
      split
      · rfl
      · cases slice data 4 (4 + uint32LE data) <;> rfl
  rw [decodeRegisterValidatorArgs]
  simp only [readFields, haddr]
  split
  · rfl
  split
  · rfl
  cases slice data 4 (4 + uint32LE data) with
  | none => rfl
  | some addr =>
    simp only [Option.bind_eq_bind, Option.bind_some, Option.map_some]
    cases readBorshVec data (4 + uint32LE data) with
    | none => rfl
    | some r₁ =>
      cases r₁ with
      | none => rfl
      | some f₁ =>
        simp only [Option.bind_some]
        cases readBorshVec data f₁.2 with
        | none => rfl
        | some r₂ =>
          cases r₂ with
          | none => rfl
          | some f₂ =>
            simp only [Option.bind_some]
            cases readBorshVec data f₂.2 with
            | none => rfl
            | some r₃ => cases r₃ <;> rfl

theorem decode_eq_none_iff {data : Bytes} (hlen : data.length < 2 ^ 32) :
    decodeRegisterValidatorArgs data = none ↔ Wraps data 4 0 := by
  rw [decodeRegisterValidatorArgs_eq hlen, Option.map_eq_none_iff]
  exact readFields_eq_none_iff hlen 4 (Nat.zero_le _)

/-! ## Round trip -/

theorem readBorshVec_borshVec (pre field rest : Bytes)
    (hlen : (pre ++ borshVec field ++ rest).length < 2 ^ 32) :
    readBorshVec (pre ++ borshVec field ++ rest) (UInt32.ofNat pre.length) =
      some (some (field, UInt32.ofNat (pre ++ borshVec field).length)) := by
  have hlens : (pre ++ borshVec field ++ rest).length =
      pre.length + 4 + field.length + rest.length := by
    simp only [borshVec, List.length_append, length_putUint32LE]
    omega
  have hpre : (UInt32.ofNat pre.length).toNat = pre.length := by
    rw [UInt32.toNat_ofNat', Nat.mod_eq_of_lt (by omega)]
  have hdrop : (pre ++ borshVec field ++ rest).drop pre.length =
      putUint32LE (UInt32.ofNat field.length) ++ (field ++ rest) := by
    rw [List.append_assoc, List.drop_left, borshVec, List.append_assoc]
  have hfield : (uint32LE ((pre ++ borshVec field ++ rest).drop pre.length)).toNat =
      field.length := by
    rw [hdrop, uint32LE_putUint32LE, UInt32.toNat_ofNat', Nat.mod_eq_of_lt (by omega)]
  have hend : fieldEnd (pre ++ borshVec field ++ rest) pre.length =
      pre.length + 4 + field.length := by
    rw [fieldEnd, hfield]
  have hbody : ((pre ++ borshVec field ++ rest).drop (pre.length + 4)).take field.length =
      field := by
    rw [← List.drop_drop, hdrop, List.drop_left' (length_putUint32LE _), List.take_left]
  have hnext : (pre ++ borshVec field).length = pre.length + 4 + field.length := by
    simp only [borshVec, List.length_append, length_putUint32LE]
    omega
  rw [readBorshVec_eq hlen (by omega), hpre, hend, hfield, hbody, hnext, if_neg (by omega),
    if_neg (by omega), if_neg (by omega), if_neg (by omega)]

theorem readFields_flatMap (fields : List Bytes) (pre : Bytes) (k : Nat)
    (hlen : (pre ++ fields.flatMap borshVec).length + 4 < 2 ^ 32) (hk : fields.length ≤ k) :
    readFields (pre ++ fields.flatMap borshVec) k (UInt32.ofNat pre.length) = some fields := by
  induction fields generalizing pre k with
  | nil =>
    rw [List.flatMap_nil, List.append_nil] at hlen ⊢
    cases k with
    | zero => rfl
    | succ k =>
      have hpre : (UInt32.ofNat pre.length).toNat = pre.length := by
        rw [UInt32.toNat_ofNat', Nat.mod_eq_of_lt (by omega)]
      rw [readFields, readBorshVec_eq (by omega) (by omega), hpre, if_neg (by omega),
        if_pos (by omega)]
  | cons field fields ih =>
    cases k with
    | zero => simp at hk
    | succ k =>
      rw [List.flatMap_cons, ← List.append_assoc] at hlen ⊢
      rw [readFields, readBorshVec_borshVec pre field _ (by omega)]
      simp only
      rw [ih (pre ++ borshVec field) k hlen (by simpa using hk)]
      rfl

theorem decode_encodeRegisterValidatorArgs (quicAddr blsPubkey blsPoP : Bytes)
    (rewardCoin : Hash)
    (hlen : (encodeRegisterValidatorArgs quicAddr blsPubkey blsPoP rewardCoin).length + 4 <
      2 ^ 32) :
    ∃ args, decodeRegisterValidatorArgs
          (encodeRegisterValidatorArgs quicAddr blsPubkey blsPoP rewardCoin) = some args ∧
        args.quicAddr = quicAddr ∧ args.blsPubkey = blsPubkey ∧ args.blsPoP = blsPoP ∧
        decodeRegisterValidatorRewardCoin args = rewardCoin := by
  obtain ⟨coin, hone, hcoin, henc⟩ : ∃ coin : List Bytes, coin.length ≤ 1 ∧
      (hash32 (coin.getD 0 [])).getD zeroHash = rewardCoin ∧
      encodeRegisterValidatorArgs quicAddr blsPubkey blsPoP rewardCoin =
        [] ++ (quicAddr :: blsPubkey :: blsPoP :: coin).flatMap borshVec := by
    by_cases hzero : rewardCoin = zeroHash
    · exact ⟨[], by simp, hzero.symm, by simp [encodeRegisterValidatorArgs, hzero]⟩
    · exact ⟨[rewardCoin.val], by simp, by simp, by simp [encodeRegisterValidatorArgs, hzero]⟩
  rw [decodeRegisterValidatorArgs_eq (by omega)]
  rw [henc] at hlen ⊢
  rw [show (0 : UInt32) = UInt32.ofNat ([] : Bytes).length from rfl,
    readFields_flatMap _ _ 4 hlen (by simp only [List.length_cons]; omega)]
  exact ⟨_, rfl, rfl, rfl, rfl, hcoin⟩

/-! ## Registrations on the commit path -/

/-- Decoding a registration panics exactly when one of its fields wraps. -/
theorem Ledger.handleRegisterValidator_panicked {st : Ledger} {nd : Node} {tx : Transaction}
    {pubkey : Hash} (hfunc : nd.isSystemFunc tx registerValidatorFunc = true)
    (hsender : hash32 tx.sender = some pubkey) (hlen : tx.args.length < 2 ^ 32) :
    st.handleRegisterValidator nd tx = .error .panicked ↔ Wraps tx.args 4 0 := by
  rw [← decode_eq_none_iff hlen]
  simp only [handleRegisterValidator, hfunc, hsender, Bool.not_true, Bool.false_eq_true,
    if_false]
  cases decodeRegisterValidatorArgs tx.args with
  | none => simp
  | some args =>
    simp only [reduceCtorEq, iff_false]
    split <;> simp

/-- A committed registration is decoded without a panic exactly when no field it reaches
wraps the 32-bit range; and whatever is encoded is decoded to the same arguments. -/
theorem registration_total_iff_not_wraps (st : Ledger) (nd : Node) (tx : Transaction)
    (pubkey : Hash) (hfunc : nd.isSystemFunc tx registerValidatorFunc = true)
    (hsender : hash32 tx.sender = some pubkey) (hlen : tx.args.length < 2 ^ 32) :
    (st.handleRegisterValidator nd tx ≠ .error .panicked ↔ ¬ Wraps tx.args 4 0) ∧
      ∀ quicAddr blsPubkey blsPoP rewardCoin,
        (encodeRegisterValidatorArgs quicAddr blsPubkey blsPoP rewardCoin).length + 4 < 2 ^ 32 →
        ∃ args, decodeRegisterValidatorArgs
              (encodeRegisterValidatorArgs quicAddr blsPubkey blsPoP rewardCoin) = some args ∧
            args.quicAddr = quicAddr ∧ args.blsPubkey = blsPubkey ∧ args.blsPoP = blsPoP ∧
            decodeRegisterValidatorRewardCoin args = rewardCoin :=
  ⟨not_congr (Ledger.handleRegisterValidator_panicked hfunc hsender hlen),
    decode_encodeRegisterValidatorArgs⟩

/-- A registration of the first user with given arguments. -/
def registering (args : Bytes) : Transaction :=
  signedTx
    { sender := (idOf 1).val
      pod := (idOf 200).val
      functionName := registerValidatorFunc
      args := args
      gasCoin := (idOf 11).val
      maxGas := 100 }

theorem registration_total_iff_not_wraps_solo :
    let args := encodeRegisterValidatorArgs [49] [] [] (idOf 11)
    soloLedger.handleRegisterValidator (soloNode (podReturning {})) (registering args) ≠
      .error .panicked := by
  refine ((registration_total_iff_not_wraps soloLedger (soloNode (podReturning {}))
    (registering (encodeRegisterValidatorArgs [49] [] [] (idOf 11))) (idOf 1)
    (by decide +kernel) (by decide +kernel) (by decide +kernel)).1).2 ?_
  rw [← decode_eq_none_iff (by decide +kernel)]
  decide +kernel

/-- A signed registration of four bytes passes every gate, pays its fee and panics. -/
theorem wrappingRegistration_panics :
    let atx : AttestedTransaction := { transaction := some (registering [252, 255, 255, 255]) }
    decodeRegisterValidatorArgs [252, 255, 255, 255] = none ∧
      (soloLedger.executeTx (soloNode (podReturning {})) atx 0 none).exit = .panicked := by
  decide +kernel

end BluePods
