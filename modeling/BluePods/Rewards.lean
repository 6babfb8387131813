import BluePods.Settlement

/-! The two splits of a reward, an epoch's pool among the validators and a validator's share
among its delegators, against the exact ones. Both multiply with saturation before they
divide by a saturated total, and the second divides by a total that may be zero. -/

namespace BluePods

open Lib.Quorum Ledger

/-! ## One saturated share -/

/-- The saturated share of part `w` of a total `W` in a pool is the exact one, rounded down:
the product stays below the multiple of the total that 64 bits do not reach any more; with a
total beyond 64 bits, where every saturated share is zero or one, it stays below twice the
total and reaches the total exactly when it saturates. -/
def ExactShare (pool w W : Nat) : Prop :=
  if W < 2 ^ 64 then pool * w < ((2 ^ 64 - 1) / W + 1) * W
  else pool * w < 2 * W ∧ (W ≤ pool * w ↔ 2 ^ 64 - 1 ≤ pool * min w (2 ^ 64 - 1))

instance (pool w W : Nat) : Decidable (ExactShare pool w W) :=
  inferInstanceAs (Decidable (ite _ _ _))

theorem min_div_self (n : Nat) :
    min n (2 ^ 64 - 1) / (2 ^ 64 - 1) = if 2 ^ 64 - 1 ≤ n then 1 else 0 := by
  split <;> omega

theorem saturated_share_iff {pool w W : Nat} (h : w ≤ W) (hW : 0 < W) :
    min (pool * min w (2 ^ 64 - 1)) (2 ^ 64 - 1) / min W (2 ^ 64 - 1) = pool * w / W ↔
      ExactShare pool w W := by
  unfold ExactShare
  split
  · rw [min_eq_left (show w ≤ 2 ^ 64 - 1 by omega), min_eq_left (show W ≤ 2 ^ 64 - 1 by omega),
      ← Nat.div_lt_iff_lt_mul hW]
    rcases le_total (pool * w) (2 ^ 64 - 1) with hle | hle
    · rw [min_eq_left hle]
      exact iff_of_true rfl (Nat.lt_succ_of_le (Nat.div_le_div_right hle))
    · rw [min_eq_right hle]
      have := Nat.div_le_div_right (c := W) hle
      omega
  · rw [min_eq_right (show 2 ^ 64 - 1 ≤ W by omega), min_div_self, ← Nat.div_lt_iff_lt_mul hW]
    have hone : W ≤ pool * w ↔ 1 ≤ pool * w / W := by rw [Nat.le_div_iff_mul_le hW, Nat.one_mul]
    rw [hone]
    generalize pool * w / W = q
    split <;> omega

section Sums

variable {α : Type} (w : α → UInt64) (l : List α)

theorem toNat_foldl_safeAdd_zero :
    (l.foldl (fun acc x => safeAdd acc (w x)) 0).toNat =
      min (total (fun x => (w x).toNat) l) (2 ^ 64 - 1) := by
  have h := toNat_foldl_safeAdd w (fun _ => true) l 0
  simp only [if_true, UInt64.toNat_zero, Nat.zero_add] at h
  exact h

theorem total_eq_sum (f : α → Nat) : total f l = (l.map f).sum := by
  induction l with
  | nil => rfl
  | cons x l ih => rw [total_cons, ih, List.map_cons, List.sum_cons]

theorem part_le_total {f : α → Nat} {x : α} (h : x ∈ l) : f x ≤ total f l := by
  rw [total_eq_sum]
  exact List.le_sum_of_mem (List.mem_map_of_mem h)

/-- Saturating every part first does not change the saturated total. -/
theorem min_total_min (f : α → Nat) (M : Nat) :
    min (total (fun x => min (f x) M) l) M = min (total f l) M := by
  induction l with
  | nil => rfl
  | cons x l ih =>
    rw [total_cons, total_cons]
    omega

/-- Shares rounded down do not exceed the pool. -/
theorem mul_total_div_le (f : α → Nat) (pool W M : Nat) :
    W * total (fun x => min (pool * f x) M / W) l ≤ pool * total f l := by
  induction l with
  | nil => simp
  | cons x l ih =>
    have := Nat.mul_div_le (min (pool * f x) M) W
    rw [total_cons, total_cons, Nat.mul_add, Nat.mul_add]
    omega

theorem total_indicator (p : α → Prop) [DecidablePred p] :
    total (fun x => if p x then 1 else 0) l = (l.filter fun x => p x).length := by
  induction l with
  | nil => rfl
  | cons x l ih => by_cases hx : p x <;> simp [hx, ih, Nat.add_comm]

end Sums

/-! ## The pool -/

/-- The exact weight of a validator in an epoch. -/
def exactWeight (produced : Hash → UInt64) (v : ValidatorInfo) : Nat :=
  (effectiveStake v).toNat * (produced v.pubkey).toNat

theorem toNat_totalRewardWeight (vs : ValidatorSet) (produced : Hash → UInt64) :
    (totalRewardWeight vs produced).toNat =
      min (total (exactWeight produced) vs.all) (2 ^ 64 - 1) := by
  rw [totalRewardWeight, toNat_foldl_safeAdd_zero]
  simp only [rewardWeight, toNat_safeMul]
  exact min_total_min vs.all (exactWeight produced) _

theorem rewardShare_exact_iff (pool : UInt64) {vs : ValidatorSet} (produced : Hash → UInt64)
    (hW : 0 < total (exactWeight produced) vs.all) {v : ValidatorInfo} (hv : v ∈ vs.all) :
    (rewardShare pool (totalRewardWeight vs produced) produced v).toNat =
        pool.toNat * exactWeight produced v / total (exactWeight produced) vs.all ↔
      ExactShare pool.toNat (exactWeight produced v) (total (exactWeight produced) vs.all) := by
  rw [rewardShare, UInt64.toNat_div, toNat_safeMul, rewardWeight, toNat_safeMul,
    toNat_totalRewardWeight]
  exact saturated_share_iff (part_le_total (f := exactWeight produced) _ hv) hW

/-! ## The delegators' part -/

def amountOf (d : DelegatorShare) : Nat := d.amount.toNat

theorem toNat_sumDelegations (dels : List DelegatorShare) :
    (sumDelegations dels).toNat = min (total amountOf dels) (2 ^ 64 - 1) :=
  toNat_foldl_safeAdd_zero DelegatorShare.amount dels

theorem sumDelegations_eq_zero {dels : List DelegatorShare} :
    sumDelegations dels = 0 ↔ total amountOf dels = 0 := by
  rw [← UInt64.toNat_inj, toNat_sumDelegations, UInt64.toNat_zero]
  omega

/-- The shares of a split that does not panic. -/
def proRata (pool : UInt64) (dels : List DelegatorShare) : List DelegatorShare :=
  dels.map fun d => { d with amount := safeMul pool d.amount / sumDelegations dels }

theorem map_proRata (pool : UInt64) (dels : List DelegatorShare) :
    (proRata pool dels).map amountOf = dels.map fun d =>
      min (pool.toNat * amountOf d) (2 ^ 64 - 1) / min (total amountOf dels) (2 ^ 64 - 1) := by
  rw [← toNat_sumDelegations, proRata, List.map_map]
  refine List.map_congr_left fun d _ => ?_
  simp only [Function.comp_apply, amountOf, UInt64.toNat_div, toNat_safeMul]

/-- The delegators that a total beyond 64 bits leaves with a share of one. -/
def oneEach (pool : UInt64) (dels : List DelegatorShare) : Nat :=
  (dels.filter fun d => 2 ^ 64 - 1 ≤ pool.toNat * amountOf d).length

/-- The shares fit into what the pool is taken from, unless the delegated total saturates. -/
theorem total_proRata_le {pool reward : UInt64} (hpool : pool ≤ reward)
    {dels : List DelegatorShare} (hpos : 0 < total amountOf dels) :
    total amountOf (proRata pool dels) ≤ reward.toNat ↔
      total amountOf dels < 2 ^ 64 ∨ oneEach pool dels ≤ reward.toNat := by
  have hmap : total amountOf (proRata pool dels) = total (fun d =>
      min (pool.toNat * amountOf d) (2 ^ 64 - 1) /
        min (total amountOf dels) (2 ^ 64 - 1)) dels := by
    rw [total_eq_sum, map_proRata, ← total_eq_sum]
  rw [hmap]
  rcases Nat.lt_or_ge (total amountOf dels) (2 ^ 64) with hsum | hsum
  · refine iff_of_true ?_ (.inl hsum)
    rw [min_eq_left (show _ ≤ 2 ^ 64 - 1 by omega)]
    have hfloor := mul_total_div_le dels amountOf pool.toNat (total amountOf dels) (2 ^ 64 - 1)
    rw [Nat.mul_comm pool.toNat] at hfloor
    exact (Nat.le_of_mul_le_mul_left hfloor hpos).trans (UInt64.le_iff_toNat_le.1 hpool)
  · rw [min_eq_right (show 2 ^ 64 - 1 ≤ _ by omega)]
    simp only [min_div_self]
    rw [total_indicator, oneEach]
    omega

section Split

variable (reward selfStake commissionBPS : UInt64) (dels : List DelegatorShare)

/-- A validator's part of its reward for its own stake. -/
def selfShare : UInt64 := safeMul reward selfStake / safeAdd selfStake (sumDelegations dels)

def commission : UInt64 :=
  safeMul (reward - selfShare reward selfStake dels) commissionBPS / bpsMax

/-- What is left to the delegators after the commission. -/
def toDelegators : UInt64 :=
  reward - selfShare reward selfStake dels - commission reward selfStake commissionBPS dels

/-- There is nobody to split with. -/
def Unsplit : Prop := safeAdd selfStake (sumDelegations dels) = 0 ∨ dels.length = 0

instance : Decidable (Unsplit selfStake dels) := inferInstanceAs (Decidable (_ ∨ _))

/-- The split divides by no zero and subtracts nothing it does not have, and the validator's
amount and its delegators' add up to the reward. -/
structure SplitConserves : Prop where
  self : selfShare reward selfStake dels ≤ reward
  commission : commission reward selfStake commissionBPS dels ≤
    reward - selfShare reward selfStake dels
  parts : ∃ own amounts,
    splitValidatorReward reward selfStake commissionBPS dels = some (own, amounts) ∧
      sumDelegations amounts ≤ reward ∧ own.toNat + total amountOf amounts = reward.toNat

variable {selfStake dels} in
/-- Where there is something to split, the split panics on positions without amounts, and
otherwise shares out what is left to the delegators. -/
theorem exists_split_iff (h : ¬ Unsplit selfStake dels) (P : List DelegatorShare → Prop) :
    (∃ own amounts, splitValidatorReward reward selfStake commissionBPS dels =
        some (own, amounts) ∧ P amounts) ↔
      0 < total amountOf dels ∧
        P (proRata (toDelegators reward selfStake commissionBPS dels) dels) := by
  have hsplit : splitValidatorReward reward selfStake commissionBPS dels = (splitProRata
      (toDelegators reward selfStake commissionBPS dels) (sumDelegations dels) dels).map
        fun amounts => (reward - sumDelegations amounts, amounts) := if_neg h
  rw [hsplit, splitProRata]
  split
  · rename_i hzero
    have := sumDelegations_eq_zero.1 hzero.1
    exact iff_of_false (fun ⟨_, _, hnone, _⟩ => by cases hnone) fun ⟨hpos, _⟩ => by omega
  · rename_i hzero
    have hpos : total amountOf dels ≠ 0 := fun hsum =>
      hzero ⟨sumDelegations_eq_zero.2 hsum, (not_or.1 h).2⟩
    refine ⟨fun ⟨own, amounts, hsome, hP⟩ => ?_, fun ⟨_, hP⟩ => ⟨_, _, rfl, hP⟩⟩
    cases hsome
    exact ⟨Nat.pos_of_ne_zero hpos, hP⟩

theorem selfShare_le : selfShare reward selfStake dels ≤ reward := by
  rw [UInt64.le_iff_toNat_le, selfShare, UInt64.toNat_div, toNat_safeMul, toNat_safeAdd]
  apply Nat.div_le_of_le_mul
  rcases Nat.lt_or_ge (2 ^ 64 - 1) (selfStake.toNat + (sumDelegations dels).toNat) with hsum | hsum
  · rw [min_eq_right hsum.le]
    rcases Nat.eq_zero_or_pos reward.toNat with hzero | hpos
    · simp [hzero]
    · exact (min_le_right _ _).trans (Nat.le_mul_of_pos_right _ hpos)
  · rw [min_eq_left hsum, Nat.mul_comm reward.toNat]
    exact (min_le_left _ _).trans (Nat.mul_le_mul_right _ (Nat.le_add_right _ _))

variable {commissionBPS} (hbps : commissionBPS ≤ bpsMax)
include hbps

theorem commission_le :
    commission reward selfStake commissionBPS dels ≤ reward - selfShare reward selfStake dels := by
  rw [UInt64.le_iff_toNat_le, commission, UInt64.toNat_div, toNat_safeMul]
  apply Nat.div_le_of_le_mul
  rw [Nat.mul_comm]
  exact (min_le_left _ _).trans (Nat.mul_le_mul_right _ (UInt64.le_iff_toNat_le.1 hbps))

theorem toDelegators_le : toDelegators reward selfStake commissionBPS dels ≤ reward := by
  rw [UInt64.le_iff_toNat_le, toDelegators,
    UInt64.toNat_sub_of_le _ _ (commission_le reward selfStake dels hbps),
    UInt64.toNat_sub_of_le _ _ (selfShare_le reward selfStake dels)]
  omega

/-- Beside the division, only the last subtraction can fail. -/
theorem splitConserves_iff : SplitConserves reward selfStake commissionBPS dels ↔
    ∃ own amounts, splitValidatorReward reward selfStake commissionBPS dels = some (own, amounts) ∧
      total amountOf amounts ≤ reward.toNat := by
  have hlt := reward.toNat_lt
  constructor
  · rintro ⟨-, -, own, amounts, hsplit, -, hconserves⟩
    exact ⟨own, amounts, hsplit, by omega⟩
  · rintro ⟨own, amounts, hsplit, hle⟩
    have hown : own = reward - sumDelegations amounts := by
      unfold splitValidatorReward at hsplit
      dsimp only at hsplit
      split at hsplit
      · cases hsplit
        exact (UInt64.sub_zero reward).symm
      · obtain ⟨_, -, hparts⟩ := Option.map_eq_some_iff.1 hsplit
        cases hparts
        rfl
    have hparts : sumDelegations amounts ≤ reward := by
      rw [UInt64.le_iff_toNat_le, toNat_sumDelegations]
      omega
    refine ⟨selfShare_le .., commission_le _ _ _ hbps, own, amounts, hsplit, hparts, ?_⟩
    rw [hown, UInt64.toNat_sub_of_le _ _ hparts, toNat_sumDelegations]
    omega

end Split

theorem reward_split_conserves_iff {commissionBPS : UInt64} (hbps : commissionBPS ≤ bpsMax)
    (reward selfStake : UInt64) (dels : List DelegatorShare) :
    SplitConserves reward selfStake commissionBPS dels ↔
      Unsplit selfStake dels ∨
        0 < total amountOf dels ∧ (total amountOf dels < 2 ^ 64 ∨
          oneEach (toDelegators reward selfStake commissionBPS dels) dels ≤ reward.toNat) := by
  rw [splitConserves_iff _ _ _ hbps]
  by_cases h : Unsplit selfStake dels
  · exact iff_of_true ⟨reward, [], if_pos h, Nat.zero_le _⟩ (.inl h)
  · rw [or_iff_right h, exists_split_iff reward commissionBPS h (total amountOf · ≤ reward.toNat)]
    exact and_congr_right fun hpos => total_proRata_le (toDelegators_le _ _ _ hbps) hpos

theorem reward_split_conserves_iff_thirds : SplitConserves 100 1 1000 [⟨idOf 1, 1⟩, ⟨idOf 2, 1⟩] :=
  (reward_split_conserves_iff (by decide) 100 1 _).2 (by decide)

/-- An empty position beside stake divides by zero, and three positions of the greatest
amount draw three tokens from a reward of one. -/
theorem degenerate_positions_break_split :
    splitValidatorReward 1 5 0 [⟨idOf 1, 0⟩] = none ∧
      splitValidatorReward 1 0 0 [⟨idOf 1, 2 ^ 64 - 1⟩, ⟨idOf 2, 2 ^ 64 - 1⟩,
          ⟨idOf 3, 2 ^ 64 - 1⟩] =
        some (2 ^ 64 - 2, [⟨idOf 1, 1⟩, ⟨idOf 2, 1⟩, ⟨idOf 3, 1⟩]) := by
  decide +kernel

/-! ## What a distribution credits -/

/-- The validators' shares of a pool; none without a pool or a weight. -/
def epochShares (vs : ValidatorSet) (produced : Hash → UInt64) (pool : UInt64) :
    List (ValidatorInfo × UInt64) :=
  let totalWeight := totalRewardWeight vs produced
  if pool = 0 ∨ totalWeight = 0 then []
  else vs.all.map fun v => (v, rewardShare pool totalWeight produced v)

/-- Credit shares of a pool one after the other, and what they leave of it to `top`. -/
def Ledger.payShares (st : Ledger) (cfg : Config) (top : Hash) (pool : UInt64)
    (shares : List (ValidatorInfo × UInt64)) : Ledger × UInt64 :=
  let paid := shares.foldl (fun acc p =>
    let credited := acc.1.creditShare cfg p.1 p.2
    (credited.1, acc.2 + credited.2)) (st, (0 : UInt64))
  let rest := paid.1.creditRemainder top (pool - paid.2)
  (rest.1, pool - (paid.2 + rest.2))

theorem totalRewardWeight_eq_zero {vs : ValidatorSet} {produced : Hash → UInt64} :
    totalRewardWeight vs produced = 0 ↔ total (exactWeight produced) vs.all = 0 := by
  rw [← UInt64.toNat_inj, toNat_totalRewardWeight, UInt64.toNat_zero]
  omega

theorem distributeEpochRewards_eq_payShares (st : Ledger) (cfg : Config)
    (produced : Hash → UInt64) (fees issuance : UInt64) :
    st.distributeEpochRewards cfg produced fees issuance =
      let pool := safeAdd fees issuance
      let shares := epochShares st.validators produced pool
      if shares = [] then (st, pool)
      else st.payShares cfg (pickRemainderRecipient st.validators.all produced) pool shares := by
  dsimp only [distributeEpochRewards, epochShares, payShares]
  split
  · rw [if_pos rfl]
  · rename_i hgo
    have hsome : st.validators.all ≠ [] := by
      intro hnone
      refine hgo (.inr (totalRewardWeight_eq_zero.2 ?_))
      rw [hnone]
      rfl
    rw [if_neg (by simpa using hsome), List.foldl_map]

end BluePods
