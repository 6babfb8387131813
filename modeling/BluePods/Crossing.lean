import BluePods.Boundary
import BluePods.Leases

/-! What crossing an epoch boundary does to the ledger, one change at a time: supply is
minted, a position compounded, a stake set, a reward coin credited or a validator without
delegations removed. The sweep of the names closes the boundary. -/

namespace BluePods

open Relation

namespace Ledger

/-! ## The single changes -/

/-- One change of a boundary. `vals` are the validators it is crossed with. -/
inductive Payment (cr : Crypto) (vals : List ValidatorInfo) : Ledger → Ledger → Prop
  | compound {st st' : Ledger} {v : ValidatorInfo} {delegator : Hash} {reward : UInt64}
      (hv : v ∈ vals) (h : st.compoundDelegation cr delegator v.pubkey reward = some st') :
      Payment cr vals st st'
  | restake {st : Ledger} {v : ValidatorInfo} (hv : v ∈ vals) (stake : UInt64) :
      Payment cr vals st { st with validators := st.validators.setSelfStake v.pubkey stake }
  | credit {st st' : Ledger} {v : ValidatorInfo} {amount : UInt64} (hv : v ∈ vals)
      (h : st.creditCoin v.rewardCoin amount = .ok st') : Payment cr vals st st'
  | remove {st : Ledger} {pubkey : Hash} (h : st.hasBondedDelegations pubkey = false) :
      Payment cr vals st
        { st with
          validators := st.validators.remove pubkey
          pendingRemovals := st.pendingRemovals.filter (· ≠ pubkey) }
  | mint {st : Ledger} (totalSupply : UInt64) : Payment cr vals st { st with totalSupply }

/-- A run of such changes. -/
abbrev Payments (cr : Crypto) (vals : List ValidatorInfo) : Ledger → Ledger → Prop :=
  ReflTransGen (Payment cr vals)

/-- Every validator was there before, with its reward coin. -/
def Descends (vals : List ValidatorInfo) (st : Ledger) : Prop :=
  ∀ w ∈ st.validators.all, ∃ v ∈ vals, v.pubkey = w.pubkey ∧ v.rewardCoin = w.rewardCoin

variable {cr : Crypto} {vals : List ValidatorInfo} {st st' : Ledger}

theorem compoundDelegation_some {delegator validator : Hash} {reward : UInt64}
    (h : st.compoundDelegation cr delegator validator reward = some st') :
    reward ≠ 0 ∧ ∃ current,
      st.readDelegationAmount (delegationID cr delegator validator) validator = some current ∧
        st' = { st.setObject (buildDelegationObject cr delegator validator
            (safeAdd current reward)) with
          validators := st.validators.addDelegated validator reward } := by
  unfold compoundDelegation at h
  split at h
  · cases h
  · rename_i hne
    obtain ⟨current, hcurrent, rfl⟩ := Option.map_eq_some_iff.1 h
    exact ⟨hne, current, hcurrent, rfl⟩

theorem mem_of_mem_remove {vs : ValidatorSet} {pubkey : Hash} {w : ValidatorInfo}
    (h : w ∈ (vs.remove pubkey).all) : w ∈ vs.all := by
  simp only [ValidatorSet.remove] at h
  split at h
  · rename_i idx last _ hlast
    rcases List.mem_or_eq_of_mem_set h with hmem | rfl
    · exact List.mem_of_mem_dropLast hmem
    · exact List.mem_of_getLast? hlast
  · exact h

namespace Descends

theorem of_eq (h : Descends vals st) (heq : st'.validators = st.validators) :
    Descends vals st' := by
  intro w hw
  rw [heq] at hw
  exact h w hw

theorem update {pubkey : Hash} {g : ValidatorInfo → ValidatorInfo} (h : Descends vals st)
    (heq : st'.validators.all = Lib.Tally.update (·.pubkey) st.validators.all pubkey g)
    (hg : ∀ v, (g v).pubkey = v.pubkey) (hcoin : ∀ v, (g v).rewardCoin = v.rewardCoin) :
    Descends vals st' := by
  intro w hw
  rw [heq, Lib.Tally.update] at hw
  obtain ⟨u, hu, rfl⟩ := List.mem_map.1 hw
  obtain ⟨v, hv, hkey, hpay⟩ := h u hu
  split
  · exact ⟨v, hv, hkey.trans (hg u).symm, hpay.trans (hcoin u).symm⟩
  · exact ⟨v, hv, hkey, hpay⟩

theorem payment (h : Descends vals st) (hstep : Payment cr vals st st') : Descends vals st' := by
  cases hstep with
  | compound hv hc =>
    obtain ⟨-, current, -, rfl⟩ := compoundDelegation_some hc
    exact h.update rfl (fun _ => rfl) fun _ => rfl
  | restake hv stake => exact h.update rfl (fun _ => rfl) fun _ => rfl
  | credit hv hc => exact h.of_eq (creditCoin_frame hc).1
  | remove hbonded => exact fun w hw => h w (mem_of_mem_remove hw)
  | mint => exact h

theorem payments (h : Descends vals st) (hrun : Payments cr vals st st') : Descends vals st' := by
  induction hrun with
  | refl => exact h
  | tail _ hstep ih => exact ih.payment hstep

end Descends

/-! ## Rewards -/

section

variable {v : ValidatorInfo} (hv : v ∈ vals)

include hv

theorem creditDelegators_payments (payouts : List DelegatorShare) :
    Payments cr vals st (st.creditDelegators cr v.pubkey payouts).1 := by
  unfold creditDelegators
  generalize (0 : UInt64) = credited
  induction payouts generalizing st credited with
  | nil => exact .refl
  | cons del payouts ih =>
    rw [List.foldl_cons]
    dsimp only
    cases hc : st.compoundDelegation cr del.delegator v.pubkey del.amount with
    | none => exact ih credited
    | some st₁ => exact .head (.compound hv hc) (ih _)

theorem creditCoin_payments (amount paid unpaid : UInt64) :
    Payments cr vals st (match st.creditCoin v.rewardCoin amount with
      | .error _ => (st, unpaid)
      | .ok st => (st, paid)).1 := by
  cases hc : st.creditCoin v.rewardCoin amount with
  | error e => exact .refl
  | ok st₁ => exact .single (.credit hv hc)

theorem creditValidatorReward_payments (p : ThermostatParams) (amount : UInt64) :
    Payments cr vals st (st.creditValidatorReward p v amount).1 := by
  unfold creditValidatorReward
  dsimp only
  split
  · exact .single (.restake hv _)
  · generalize safeMul amount p.autoRestakeMille / milleMax = restake
    have hrestaked : Payments cr vals st (if restake > 0 then { st with
        validators := st.validators.setSelfStake v.pubkey (safeAdd v.selfStake restake) }
        else st) := by
      split
      · exact .single (.restake hv _)
      · exact .refl
    exact hrestaked.trans (creditCoin_payments hv ..)

theorem creditShare_payments (cfg : Config) (share : UInt64) :
    Payments cfg.crypto vals st (st.creditShare cfg v share).1 := by
  unfold creditShare
  split
  · exact .refl
  · exact (creditDelegators_payments hv _).trans (creditValidatorReward_payments hv _ _)

end

theorem creditRemainder_payments (h : Descends vals st) (top : Hash) (remainder : UInt64) :
    Payments cr vals st (st.creditRemainder top remainder).1 := by
  unfold creditRemainder
  split
  · exact .refl
  · split
    · exact .refl
    · rename_i info hinfo
      split
      · exact .refl
      · obtain ⟨v, hv, -, hcoin⟩ := h info (List.mem_of_find?_eq_some hinfo)
        rw [← hcoin]
        exact creditCoin_payments hv ..

theorem distributeEpochRewards_payments (cfg : Config) (produced : Hash → UInt64)
    (fees issuance : UInt64) (h : Descends vals st) (hvals : ∀ v ∈ st.validators.all, v ∈ vals) :
    Payments cfg.crypto vals st (st.distributeEpochRewards cfg produced fees issuance).1 := by
  have hfold : ∀ (share : ValidatorInfo → UInt64) (l : List ValidatorInfo), (∀ v ∈ l, v ∈ vals) →
      ∀ (s : Ledger) (n : UInt64), Payments cfg.crypto vals s
        (l.foldl (fun (p : Ledger × UInt64) v =>
          ((p.1.creditShare cfg v (share v)).1, p.2 + (p.1.creditShare cfg v (share v)).2))
          (s, n)).1 := by
    intro share l
    induction l with
    | nil => exact fun _ s n => .refl
    | cons v l ih =>
      intro hl s n
      rw [List.forall_mem_cons] at hl
      exact (creditShare_payments hl.1 cfg (share v)).trans (ih hl.2 _ _)
  unfold distributeEpochRewards
  dsimp only
  split
  · exact .refl
  · have hshares := hfold (rewardShare (safeAdd fees issuance)
      (totalRewardWeight st.validators produced) produced) st.validators.all hvals st 0
    exact hshares.trans (creditRemainder_payments (h.payments hshares) _ _)

/-! ## Removals -/

theorem returnDeregisteredStake_payments (h : Descends vals st) {pubkey : Hash}
    (hreturn : st.returnDeregisteredStake pubkey = some st') :
    Payments cr vals st st' ∧ st'.validators = st.validators := by
  unfold returnDeregisteredStake at hreturn
  dsimp only at hreturn
  split at hreturn
  · obtain rfl := Option.some.inj hreturn
    exact ⟨.refl, rfl⟩
  · cases hget : st.validators.get pubkey with
    | none => simp [hget] at hreturn
    | some info =>
      rw [hget] at hreturn
      dsimp only at hreturn
      split at hreturn
      · cases hreturn
      · obtain ⟨v, hv, -, hcoin⟩ := h info (List.mem_of_find?_eq_some hget)
        cases hc : st.creditCoin info.rewardCoin (releasedSelfStake (some info)) with
        | error e => simp [hc, Except.toOption] at hreturn
        | ok s =>
          rw [hc] at hreturn
          obtain rfl := Option.some.inj hreturn
          exact ⟨.single (.credit hv (hcoin ▸ hc)), (creditCoin_frame hc).1⟩

theorem removeEach_payments (maxChurn : Nat) (keys : List Hash) (removed : Nat)
    (h : Descends vals st) : Payments cr vals st (removeEach maxChurn keys removed st) := by
  induction keys generalizing st removed with
  | nil => exact .refl
  | cons pubkey keys ih =>
    unfold removeEach
    split
    · exact .refl
    · split
      · exact ih removed h
      · rename_i hbonded
        cases hreturn : st.returnDeregisteredStake pubkey with
        | none => exact ih removed h
        | some s =>
          obtain ⟨hpaid, hvalidators⟩ := @returnDeregisteredStake_payments cr _ _ _ h _ hreturn
          have hremove : Payment cr vals s { s with
              validators := s.validators.remove pubkey
              pendingRemovals := s.pendingRemovals.filter (· ≠ pubkey) } := by
            refine .remove ?_
            rw [hasBondedDelegations, hvalidators]
            exact Bool.eq_false_iff.2 hbonded
          have hgone := hpaid.tail hremove
          exact hgone.trans (ih (removed + 1) (h.payments hgone))

end Ledger

/-! ## The whole boundary -/

namespace Chain

theorem settleDeferredEpoch_payments (cfg : Config) (c : Chain) :
    Ledger.Payments cfg.crypto c.ledger.validators.all c.ledger
      (c.settleDeferredEpoch cfg).ledger := by
  obtain ⟨supply, hledger⟩ := mintDeferred_ledger cfg c
  unfold settleDeferredEpoch
  split
  · exact .refl
  · dsimp only
    rw [hledger]
    refine .head (.mint supply) ?_
    exact Ledger.distributeEpochRewards_payments cfg _ _ _ (fun v hv => ⟨v, hv, rfl, rfl⟩)
      fun _ hv => hv

/-- The ledger of a boundary in front of the sweep. -/
def settledLedger (cfg : Config) (c : Chain) : Ledger :=
  (c.settleDeferredEpoch cfg).ledger.applyPendingRemovals cfg.maxChurnPerEpoch

/-- A boundary is a run of such changes, and a sweep. -/
theorem transitionEpoch_payments (cfg : Config) (c : Chain) :
    Ledger.Payments cfg.crypto c.ledger.validators.all c.ledger (c.settledLedger cfg) := by
  have hsettled := settleDeferredEpoch_payments cfg c
  have hdescends : Ledger.Descends c.ledger.validators.all (c.settleDeferredEpoch cfg).ledger :=
    Ledger.Descends.payments (fun v hv => ⟨v, hv, rfl, rfl⟩) hsettled
  exact hsettled.trans (Ledger.removeEach_payments cfg.maxChurnPerEpoch
    (sortedMemberKeys (c.settleDeferredEpoch cfg).ledger.pendingRemovals) 0 hdescends)

theorem transitionEpoch_ledger (cfg : Config) (c : Chain) :
    (c.transitionEpoch cfg).ledger = { (c.settledLedger cfg).sweepExpiredDomains
      cfg.feeParams.graceEpochs (c.regime.currentEpoch + 1) with epochAdditions := [] } := by
  rw [transitionEpoch_eq]
  rfl

end Chain

namespace Ledger

variable {cr : Crypto} {vals : List ValidatorInfo} {st st' : Ledger}

theorem Payments.frame (h : Payments cr vals st st') :
    st'.tracker = st.tracker ∧ st'.domains = st.domains := by
  induction h with
  | refl => exact ⟨rfl, rfl⟩
  | tail _ hpay ih =>
    cases hpay with
    | compound hv hc =>
      obtain ⟨-, current, -, rfl⟩ := compoundDelegation_some hc
      exact ih
    | restake => exact ih
    | credit hv hc =>
      rcases creditCoin_ok hc with ⟨-, rfl⟩ | ⟨o, balance, -, -, -, rfl⟩
      · exact ih
      · exact ih
    | remove => exact ih
    | mint => exact ih

end Ledger

/-- Whatever it pays, a boundary keeps every tracker entry and drops just the names past their
grace window. -/
theorem Chain.boundary_keeps_entries (cfg : Config) (c : Chain) :
    (c.transitionEpoch cfg).ledger.tracker = c.ledger.tracker ∧
      ∀ name leaf, (c.transitionEpoch cfg).ledger.domains.lookup name = some leaf ↔
        c.ledger.domains.lookup name = some leaf ∧
          (c.regime.currentEpoch + 1).toNat ≤
            leaf.expiry.toNat + cfg.feeParams.graceEpochs.toNat := by
  obtain ⟨htracker, hdomains⟩ := (transitionEpoch_payments cfg c).frame
  rw [transitionEpoch_ledger, ← hdomains]
  exact ⟨htracker, (c.settledLedger cfg).lookup_sweepExpiredDomains _ _⟩

end BluePods
