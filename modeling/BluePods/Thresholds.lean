import BluePods.Stake

/-! The strict quorum outside the range of `NoSaturation`: where the saturating
test parts from the exact two thirds, where two quorums may be disjoint, and
where the caps leave a set without any weight. -/

namespace BluePods

open Lib.Quorum

variable (capMille : UInt64) (set : ValidatorSet)

/-- The strict quorum of a set of producers. -/
def StrictQuorum (producers : Hash → Bool) : Prop :=
  quorumReached (cappedStakeOf capMille set producers).1
    (cappedStakeOf capMille set producers).2 = true

instance (producers : Hash → Bool) : Decidable (StrictQuorum capMille set producers) :=
  inferInstanceAs (Decidable (_ = _))

/-- Two sets of producers share a member of positive weight. -/
def Meet (p q : Hash → Bool) : Prop :=
  ∃ v ∈ set.all, (p v.pubkey && q v.pubkey) = true ∧ 0 < weightOf capMille set v

instance (p q : Hash → Bool) : Decidable (Meet capMille set p q) :=
  List.decidableBEx _ _

/-- The least stake whose triple saturates. -/
def saturatedThird : Nat := (2 ^ 64 - 1) / 3

variable {capMille set}

theorem strictQuorum_iff (producers : Hash → Bool) :
    StrictQuorum capMille set producers ↔
      0 < totalStake capMille set ∧
        if 2 * totalStake capMille set < 2 ^ 64 then
          2 * totalStake capMille set ≤ 3 * stakeOf capMille set producers
        else saturatedThird ≤ stakeOf capMille set producers := by
  have hle := stakeOf_le_totalStake capMille set producers
  unfold StrictQuorum saturatedThird
  rw [quorumReached_iff_min, toNat_cappedStakeOf_fst, toNat_cappedStakeOf_snd]
  split <;> omega

theorem meet_iff (p q : Hash → Bool) :
    Meet capMille set p q ↔ 0 < stakeOf capMille set (fun k => p k && q k) :=
  (weigh_pos_iff ..).symm

/-! ## Exactness and intersection -/

theorem quorumReached_exact_iff (s t : UInt64) :
    (quorumReached s t = true ↔ 0 < t.toNat ∧ 2 * t.toNat ≤ 3 * s.toNat) ↔
      ¬ (2 ^ 64 - 1 ≤ 3 * s.toNat ∧ 3 * s.toNat < 2 * t.toNat) := by
  rw [quorumReached_iff_min]
  omega

/-- A set and its complement that both pass the saturated threshold are disjoint
quorums, and any two disjoint quorums lie in such a pair. -/
theorem quorums_meet_iff :
    (∀ p q, StrictQuorum capMille set p → StrictQuorum capMille set q →
        Meet capMille set p q) ↔
      2 * totalStake capMille set < 2 ^ 64 ∨
        ∀ p, stakeOf capMille set p < saturatedThird ∨
          stakeOf capMille set (fun k => !p k) < saturatedThird := by
  simp only [strictQuorum_iff, meet_iff]
  by_cases hsmall : 2 * totalStake capMille set < 2 ^ 64
  · simp only [hsmall, if_true, true_or, iff_true]
    rintro p q ⟨hpos, hp⟩ ⟨-, hq⟩
    have := stakeOf_add_le_inter capMille set p q
    omega
  · have hpos : 0 < totalStake capMille set := by omega
    simp only [hsmall, if_false, hpos, true_and, false_or]
    constructor
    · intro hmeet p
      by_contra hboth
      push Not at hboth
      have hnone := hmeet p (fun k => !p k) hboth.1 hboth.2
      obtain ⟨k, hk⟩ := exists_of_stakeOf_pos hnone
      simp at hk
    · intro hsplit p q hp hq
      have hcover := stakeOf_split capMille set q p
      have hout : stakeOf capMille set (fun k => q k && !p k) ≤
          stakeOf capMille set (fun k => !p k) :=
        stakeOf_mono capMille set fun k hk => (Bool.and_eq_true _ _ ▸ hk).2
      simp only [Bool.and_comm (q _) (p _)] at hcover
      rcases hsplit p with h | h <;> omega

theorem strict_quorums_exact_and_intersect_iff (s t capMille : UInt64) (set : ValidatorSet) :
    ((quorumReached s t = true ↔ 0 < t.toNat ∧ 2 * t.toNat ≤ 3 * s.toNat) ↔
      ¬ (2 ^ 64 - 1 ≤ 3 * s.toNat ∧ 3 * s.toNat < 2 * t.toNat)) ∧
    ((∀ p q, StrictQuorum capMille set p → StrictQuorum capMille set q →
        Meet capMille set p q) ↔
      2 * totalStake capMille set < 2 ^ 64 ∨
        ∀ p, stakeOf capMille set p < saturatedThird ∨
          stakeOf capMille set (fun k => !p k) < saturatedThird) :=
  ⟨quorumReached_exact_iff s t, quorums_meet_iff⟩

/-- Two validators that hold half of the 64-bit range each. -/
def halvesSet : ValidatorSet :=
  ⟨[{ pubkey := idOf 1, selfStake := 2 ^ 63 }, { pubkey := idOf 2, selfStake := 2 ^ 63 }],
    by decide⟩

theorem halves_reach_disjoint_quorums :
    (quorumReached (2 ^ 63) (2 ^ 64 - 1) = true ∧
      ¬ 2 * (2 ^ 64 - 1 : UInt64).toNat ≤ 3 * (2 ^ 63 : UInt64).toNat) ∧
    StrictQuorum 333 halvesSet (· == idOf 1) ∧ StrictQuorum 333 halvesSet (· == idOf 2) ∧
    ¬ Meet 333 halvesSet (· == idOf 1) (· == idOf 2) := by
  decide +kernel

/-! ## The full committee -/

theorem strictQuorum_all_iff :
    StrictQuorum capMille set (fun _ => true) ↔ 0 < totalStake capMille set := by
  rw [strictQuorum_iff, saturatedThird]
  have hall : stakeOf capMille set (fun _ => true) = totalStake capMille set := rfl
  split <;> omega

theorem not_strictQuorum_of_weightless {p : Hash → Bool}
    (hp : (cappedStakeOf capMille set p).1 = 0) : ¬ StrictQuorum capMille set p := by
  rw [StrictQuorum, quorumReached_iff_min, hp, UInt64.toNat_zero]
  omega

theorem rawTotal_pos {v : ValidatorInfo} (hv : v ∈ set.all)
    (hpos : 0 < (effectiveStake v).toNat) : 0 < (rawTotal set).toNat := by
  have h := toNat_foldl_safeAdd effectiveStake (fun _ => true) set.all 0
  have hw := (weigh_pos_iff (fun v => (effectiveStake v).toNat) (fun _ => true) set.all).2
    ⟨v, hv, rfl, hpos⟩
  simp only [if_true, UInt64.toNat_zero, Nat.zero_add] at h
  rw [rawTotal, h]
  omega

/-- Inside a set with stake, a member weighs something exactly when it has stake and one of
the two ceilings does not round to zero. -/
theorem weightOf_pos_iff (hraw : 0 < (rawTotal set).toNat) {v : ValidatorInfo} (hv : v ∈ set.all) :
    0 < weightOf capMille set v ↔ 0 < (effectiveStake v).toNat ∧
      (0 < rawTotal set / UInt64.ofNat set.all.length ∨
        1000 ≤ (rawTotal set).toNat * capMille.toNat) := by
  have hne : ¬ (set.all.length = 0 ∨ rawTotal set = 0) := by
    rintro (h | h)
    · rw [List.length_eq_zero_iff.1 h] at hv
      cases hv
    · simp [h] at hraw
  have hmille : (safeMul (rawTotal set) capMille / 1000).toNat =
      min ((rawTotal set).toNat * capMille.toNat) (2 ^ 64 - 1) / 1000 := by
    rw [UInt64.toNat_div, toNat_safeMul]
    rfl
  rw [weightOf, memberWeight, cappedWeight, if_neg hne]
  simp only [UInt64.lt_iff_toNat_lt, gt_iff_lt, UInt64.toNat_zero]
  generalize rawTotal set / UInt64.ofNat set.all.length = equal
  split <;> split <;> omega

theorem full_committee_decides_iff {capMille : UInt64} {set : ValidatorSet}
    (hstake : ∃ v ∈ set.all, v.jailed = false ∧ 0 < (effectiveStake v).toNat) :
    (StrictQuorum capMille set (fun _ => true) ∧
        ∀ p, (cappedStakeOf capMille set p).1 = 0 → ¬ StrictQuorum capMille set p) ↔
      0 < rawTotal set / UInt64.ofNat set.all.length ∨
        1000 ≤ (rawTotal set).toNat * capMille.toNat := by
  obtain ⟨v, hv, -, hpos⟩ := hstake
  have hraw := rawTotal_pos hv hpos
  rw [strictQuorum_all_iff, totalStake, total, weigh_pos_iff]
  constructor
  · rintro ⟨⟨u, hu, -, hweight⟩, -⟩
    exact ((weightOf_pos_iff hraw hu).1 hweight).2
  · intro hceil
    exact ⟨⟨v, hv, rfl, (weightOf_pos_iff hraw hv).2 ⟨hpos, hceil⟩⟩,
      fun p hp => not_strictQuorum_of_weightless hp⟩

/-- One unit of stake over two validators. -/
def unitSet : ValidatorSet :=
  ⟨[{ pubkey := idOf 1, selfStake := 1 }, { pubkey := idOf 2 }], by decide⟩

theorem full_committee_decides_iff_unit :
    StrictQuorum 1000 unitSet (fun _ => true) ∧
      ∀ p, (cappedStakeOf 1000 unitSet p).1 = 0 → ¬ StrictQuorum 1000 unitSet p :=
  (full_committee_decides_iff (by decide +kernel)).2 (by decide +kernel)

theorem unit_stake_never_decides :
    (∃ v ∈ unitSet.all, v.jailed = false ∧ 0 < (effectiveStake v).toNat) ∧
      ¬ StrictQuorum 333 unitSet (fun _ => true) := by
  decide +kernel

end BluePods
