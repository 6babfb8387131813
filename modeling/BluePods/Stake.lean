import BluePods.Types
import BluePods.Lib.Quorum

/-! Validator sets and the capped-stake quorum. The quorum test of the source is
saturating 64-bit arithmetic; below saturation it is the two-thirds quorum of
`Lib.Quorum` over the capped weights. -/

namespace BluePods

variable (capMille : UInt64) (set : ValidatorSet) (producers p q : Hash → Bool)
open Lib.Quorum

abbrev BLSKey := {b : Bytes // b.length = 48}

def zeroBLSKey : BLSKey := ⟨List.replicate 48 0, by simp⟩

structure ValidatorInfo where
  pubkey : Hash
  quicAddr : Bytes := []
  blsPubkey : BLSKey := zeroBLSKey
  selfStake : UInt64 := 0
  delegatedTotal : UInt64 := 0
  jailed : Bool := false
  rewardCoin : Hash := zeroHash
  deriving DecidableEq

/-- Validators in order of addition, one entry per key. -/
structure ValidatorSet where
  all : List ValidatorInfo
  nodup : (all.map (·.pubkey)).Nodup
  deriving DecidableEq

namespace ValidatorSet

def len (vs : ValidatorSet) : Nat := vs.all.length

def get (vs : ValidatorSet) (pubkey : Hash) : Option ValidatorInfo :=
  vs.all.find? (·.pubkey = pubkey)

def contains (vs : ValidatorSet) (pubkey : Hash) : Bool :=
  vs.all.any (·.pubkey = pubkey)

/-- The validators' keys in ascending byte order. -/
def sortedKeys (vs : ValidatorSet) : List Hash :=
  (vs.all.map (·.pubkey)).insertionSort (· ≤ ·)

end ValidatorSet

/-! ## Voting weight -/

/-- A validator's weight: self plus delegated stake, zero when jailed. -/
def effectiveStake (v : ValidatorInfo) : UInt64 :=
  if v.jailed then 0 else safeAdd v.selfStake v.delegatedTotal

/-- Effective stake capped at the larger of a per-mille share of the total and an
equal share. -/
def cappedWeight (effective total capMille : UInt64) (setSize : Nat) : UInt64 :=
  if setSize = 0 ∨ total = 0 then effective
  else
    let ceiling := safeMul total capMille / 1000
    let equal := total / UInt64.ofNat setSize
    let ceiling := if ceiling < equal then equal else ceiling
    if effective > ceiling then ceiling else effective

/-- The two-thirds test, never met by a zero total. -/
def quorumReached (cappedSum total : UInt64) : Bool :=
  if total = 0 then false else decide (safeMul 3 cappedSum ≥ safeMul 2 total)

/-- The uncapped stake of a set. -/
def rawTotal (set : ValidatorSet) : UInt64 :=
  set.all.foldl (fun acc v => safeAdd acc (effectiveStake v)) 0

/-- A member's capped weight in its set. -/
def memberWeight (capMille : UInt64) (set : ValidatorSet) (v : ValidatorInfo) : UInt64 :=
  cappedWeight (effectiveStake v) (rawTotal set) capMille set.all.length

/-- The capped weight of the given producers within a set, and the capped total. -/
def cappedStakeOf (capMille : UInt64) (set : ValidatorSet) (producers : Hash → Bool) :
    UInt64 × UInt64 :=
  set.all.foldl (fun (cappedSum, cappedTotal) v =>
    let weight := memberWeight capMille set v
    (if producers v.pubkey then safeAdd cappedSum weight else cappedSum,
      safeAdd cappedTotal weight)) (0, 0)

/-! ## The quorum below saturation -/

/-- The exact weight of a member. -/
def weightOf (capMille : UInt64) (set : ValidatorSet) (v : ValidatorInfo) : Nat :=
  (memberWeight capMille set v).toNat

/-- The exact capped weight of a set of producers. -/
def stakeOf (capMille : UInt64) (set : ValidatorSet) (producers : Hash → Bool) : Nat :=
  weigh (weightOf capMille set) (fun v => producers v.pubkey) set.all

/-- The exact capped total of a set. -/
def totalStake (capMille : UInt64) (set : ValidatorSet) : Nat :=
  total (weightOf capMille set) set.all

/-- No sum or product of the quorum test saturates. -/
def NoSaturation (capMille : UInt64) (set : ValidatorSet) : Prop :=
  3 * totalStake capMille set < 2 ^ 64

instance (capMille : UInt64) (set : ValidatorSet) : Decidable (NoSaturation capMille set) :=
  inferInstanceAs (Decidable (_ < _))

/-- A saturating sum over part of a list is the exact sum, capped. -/
theorem toNat_foldl_safeAdd {α : Type*} (w : α → UInt64) (p : α → Bool) (l : List α) (s : UInt64) :
    (l.foldl (fun acc v => if p v then safeAdd acc (w v) else acc) s).toNat =
      min (s.toNat + weigh (fun v => (w v).toNat) p l) (2 ^ 64 - 1) := by
  induction l generalizing s with
  | nil =>
    have := s.toNat_lt
    simp only [List.foldl_nil, weigh_nil]
    omega
  | cons v vs ih =>
    rw [List.foldl_cons, ih, weigh_cons]
    cases hp : p v with
    | false => simp
    | true =>
      simp only [if_true, toNat_safeAdd]
      generalize weigh (fun v => (w v).toNat) p vs = n
      omega

/-- One pass for the weight of part of a list and of the whole. -/
theorem foldl_weights {α : Type*} (w : α → UInt64) (p : α → Bool) (l : List α) (s t : UInt64) :
    l.foldl (fun (part, whole) v =>
        (if p v then safeAdd part (w v) else part, safeAdd whole (w v))) (s, t) =
      (l.foldl (fun acc v => if p v then safeAdd acc (w v) else acc) s,
        l.foldl (fun acc v => if true then safeAdd acc (w v) else acc) t) := by
  induction l generalizing s t with
  | nil => rfl
  | cons v vs ih => simpa using ih _ _

theorem toNat_cappedStakeOf_fst :
    (cappedStakeOf capMille set producers).1.toNat =
      min (stakeOf capMille set producers) (2 ^ 64 - 1) := by
  rw [cappedStakeOf, foldl_weights (memberWeight capMille set) fun v => producers v.pubkey]
  have h := toNat_foldl_safeAdd (memberWeight capMille set) (fun v => producers v.pubkey)
    set.all 0
  rwa [UInt64.toNat_zero, Nat.zero_add] at h

theorem toNat_cappedStakeOf_snd :
    (cappedStakeOf capMille set producers).2.toNat =
      min (totalStake capMille set) (2 ^ 64 - 1) := by
  rw [cappedStakeOf, foldl_weights (memberWeight capMille set) fun v => producers v.pubkey]
  have h := toNat_foldl_safeAdd (memberWeight capMille set) (fun _ => true) set.all 0
  rwa [UInt64.toNat_zero, Nat.zero_add] at h

theorem stakeOf_le_totalStake : stakeOf capMille set producers ≤ totalStake capMille set :=
  weigh_le_total _ _ _

theorem stakeOf_mono {p q : Hash → Bool} (h : ∀ k, p k = true → q k = true) :
    stakeOf capMille set p ≤ stakeOf capMille set q :=
  weigh_mono _ _ fun _ _ hp => h _ hp

theorem stakeOf_add_le_inter :
    stakeOf capMille set p + stakeOf capMille set q ≤
      totalStake capMille set + stakeOf capMille set (fun k => p k && q k) :=
  weigh_add_le_inter _ _ _ _

theorem stakeOf_split :
    stakeOf capMille set p =
      stakeOf capMille set (fun k => p k && q k) +
        stakeOf capMille set (fun k => p k && !q k) :=
  weigh_split _ _ _ _

theorem exists_of_stakeOf_lt {capMille : UInt64} {set : ValidatorSet} {p q : Hash → Bool}
    (h : stakeOf capMille set q < stakeOf capMille set p) : ∃ k, p k = true ∧ q k = false := by
  obtain ⟨v, -, hv⟩ := exists_of_weigh_lt _ _ _ _ h
  exact ⟨v.pubkey, hv⟩

theorem exists_of_stakeOf_pos {capMille : UInt64} {set : ValidatorSet} {p : Hash → Bool}
    (h : 0 < stakeOf capMille set p) : ∃ k, p k = true := by
  obtain ⟨v, -, hv, -⟩ := (weigh_pos_iff _ _ _).1 h
  exact ⟨v.pubkey, hv⟩

theorem quorumReached_iff_min (s t : UInt64) :
    quorumReached s t = true ↔
      0 < t.toNat ∧ min (2 * t.toNat) (2 ^ 64 - 1) ≤ min (3 * s.toNat) (2 ^ 64 - 1) := by
  unfold quorumReached
  have h0 : t = 0 ↔ t.toNat = 0 := by
    rw [← UInt64.toNat_inj]; rfl
  split
  · rename_i ht
    simp [h0.1 ht]
  · rename_i ht
    have hpos : 0 < t.toNat := Nat.pos_of_ne_zero fun h => ht (h0.2 h)
    have h2 : (2 : UInt64).toNat = 2 := rfl
    have h3 : (3 : UInt64).toNat = 3 := rfl
    simp only [decide_eq_true_eq, ge_iff_le, UInt64.le_iff_toNat_le, toNat_safeMul, h2, h3, hpos,
      true_and]

theorem quorumReached_iff {s t : UInt64} (hs : s.toNat ≤ t.toNat) (h : 3 * t.toNat < 2 ^ 64) :
    quorumReached s t = true ↔ 0 < t.toNat ∧ 2 * t.toNat ≤ 3 * s.toNat := by
  rw [quorumReached_iff_min]
  omega

/-- Below saturation the code's quorum test is the exact two-thirds quorum. -/
theorem quorumReached_cappedStakeOf {capMille : UInt64} {set : ValidatorSet}
    (hsat : NoSaturation capMille set) (producers : Hash → Bool) :
    quorumReached (cappedStakeOf capMille set producers).1
        (cappedStakeOf capMille set producers).2 = true ↔
      0 < totalStake capMille set ∧
        2 * totalStake capMille set ≤ 3 * stakeOf capMille set producers := by
  have hle := stakeOf_le_totalStake capMille set producers
  have hs := toNat_cappedStakeOf_fst capMille set producers
  have ht := toNat_cappedStakeOf_snd capMille set producers
  unfold NoSaturation at hsat
  rw [quorumReached_iff (by omega) (by omega), hs, ht]
  omega

end BluePods
