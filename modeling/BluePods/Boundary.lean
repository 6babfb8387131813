import BluePods.Book
import BluePods.Persist

/-! A boundary whose settlement moves no stake. Every share of the pool is zero or lands in
a reward coin, and every pending removal is held back, so the live validators stay as they
were. -/

namespace BluePods

/-! ## Shares that move no stake -/

@[simp] theorem safeMul_zero_left (n : UInt64) : safeMul 0 n = 0 := by simp [safeMul]

@[simp] theorem safeMul_zero_right (n : UInt64) : safeMul n 0 = 0 := by simp [safeMul]

@[simp] theorem safeAdd_zero_right (n : UInt64) : safeAdd n 0 = n := by simp [safeAdd]

theorem sumDelegations_zero {dels : List DelegatorShare} (h : ∀ d ∈ dels, d.amount = 0) :
    sumDelegations dels = 0 := by
  unfold sumDelegations
  induction dels with
  | nil => rfl
  | cons d dels ih =>
    rw [List.foldl_cons, h d List.mem_cons_self, safeAdd_zero_right]
    exact ih fun d' hd' => h d' (List.mem_cons_of_mem d hd')

theorem splitValidatorReward_zero {selfStake commissionBPS own : UInt64}
    {dels payouts : List DelegatorShare}
    (h : splitValidatorReward 0 selfStake commissionBPS dels = some (own, payouts)) :
    own = 0 ∧ ∀ d ∈ payouts, d.amount = 0 := by
  unfold splitValidatorReward at h
  dsimp only at h
  split at h
  · cases h
    exact ⟨rfl, fun d hd => by cases hd⟩
  · obtain ⟨amounts, hsplit, hparts⟩ := Option.map_eq_some_iff.1 h
    cases hparts
    have hzero : ∀ d ∈ payouts, d.amount = 0 := by
      unfold splitProRata at hsplit
      split at hsplit
      · cases hsplit
      · cases hsplit
        intro d hd
        obtain ⟨d', -, rfl⟩ := List.mem_map.1 hd
        simp
    exact ⟨by rw [sumDelegations_zero hzero]; rfl, hzero⟩

namespace ValidatorSet

variable {v : ValidatorInfo} {vs : ValidatorSet} {pubkey : Hash}

theorem get_of_mem (h : v ∈ vs.all) : vs.get v.pubkey = some v := by
  cases hw : vs.get v.pubkey with
  | none => exact absurd (List.find?_eq_none.1 hw v h) (by simp)
  | some w =>
    have hkey : w.pubkey = v.pubkey := by simpa using List.find?_some hw
    rw [List.inj_on_of_nodup_map vs.nodup (List.mem_of_find?_eq_some hw) h hkey]

theorem remove_of_notMem (h : vs.get pubkey = none) : vs.remove pubkey = vs := by
  have hidx : vs.all.findIdx? (·.pubkey = pubkey) = none := by
    rw [List.findIdx?_eq_none_iff]
    intro v hv
    simpa using List.find?_eq_none.1 h v hv
  unfold remove
  rw [hidx]

end ValidatorSet

namespace Ledger

variable {st : Ledger} {removed maxChurn : Nat} {keys : List Hash}

theorem creditCoin_frame {st' : Ledger} {coin : Hash} {amount : UInt64}
    (h : st.creditCoin coin amount = .ok st') :
    st'.validators = st.validators ∧ ∀ id, id ≠ coin → st'.getObject id = st.getObject id := by
  rcases creditCoin_ok h with ⟨-, rfl⟩ | ⟨o, balance, ho, -, -, rfl⟩
  · exact ⟨rfl, fun _ _ => rfl⟩
  · refine ⟨by rw [addCoins_validators, setObject_validators], fun id hid => ?_⟩
    have hset := @getObject_setBalance st coin o ho (balance + amount) id
    rw [if_neg hid, getObject] at hset
    rw [getObject, addCoins_objects, hset]

/-- No position is stored for the validator. -/
def NoPosition (st : Ledger) (cr : Crypto) (validator : Hash) : Prop :=
  ∀ delegator, st.readDelegationAmount (delegationID cr delegator validator) validator = none

/-- The share is zero, or it lands in the validator's reward coin. -/
def SharePaysNoStake (st : Ledger) (cfg : Config) (v : ValidatorInfo) (share : UInt64) : Prop :=
  share = 0 ∨
    v.rewardCoin ≠ zeroHash ∧ cfg.thermostat.autoRestakeMille = 0 ∧
      st.NoPosition cfg.crypto v.pubkey

theorem creditDelegators_of_none {cr : Crypto} {validator : Hash} {payouts : List DelegatorShare}
    (h : ∀ d ∈ payouts, st.compoundDelegation cr d.delegator validator d.amount = none) :
    st.creditDelegators cr validator payouts = (st, 0) := by
  unfold creditDelegators
  generalize (0 : UInt64) = n
  induction payouts with
  | nil => rfl
  | cons d payouts ih =>
    rw [List.foldl_cons]
    dsimp only
    rw [h d List.mem_cons_self]
    exact ih fun d' hd' => h d' (List.mem_cons_of_mem d hd')

theorem creditShare_quiet {cfg : Config} {share : UInt64} (hv : st.validators.get v.pubkey = some v)
    (hquiet : st.SharePaysNoStake cfg v share) :
    (st.creditShare cfg v share).1 = st ∨
      ∃ amount, st.creditCoin v.rewardCoin amount = .ok (st.creditShare cfg v share).1 := by
  unfold creditShare
  split
  · exact .inl rfl
  rename_i own payouts hsplit
  have hdel : ∀ d ∈ payouts,
      st.compoundDelegation cfg.crypto d.delegator v.pubkey d.amount = none := by
    intro d hd
    unfold compoundDelegation
    rcases hquiet with rfl | ⟨-, -, hpos⟩
    · rw [if_pos ((splitValidatorReward_zero hsplit).2 d hd)]
    · rw [hpos d.delegator]
      split <;> rfl
  dsimp only
  rw [creditDelegators_of_none hdel]
  unfold creditValidatorReward
  dsimp only
  by_cases hcoin : v.rewardCoin = zeroHash
  · rcases hquiet with rfl | ⟨hne, -⟩
    · left
      rw [if_pos hcoin, (splitValidatorReward_zero hsplit).1, safeAdd_zero_right]
      show ({ st with validators := st.validators.setSelfStake v.pubkey v.selfStake } : Ledger) = st
      rw [ValidatorSet.setSelfStake, ValidatorSet.modify_eq_self hv rfl]
    · exact absurd hcoin hne
  · have hrestake : safeMul own cfg.thermostat.autoRestakeMille / milleMax = 0 := by
      rcases hquiet with rfl | ⟨-, hmille, -⟩
      · rw [(splitValidatorReward_zero hsplit).1, safeMul_zero_left, UInt64.zero_div]
      · rw [hmille, safeMul_zero_right, UInt64.zero_div]
    rw [if_neg hcoin, hrestake, if_neg (UInt64.lt_irrefl 0)]
    generalize own - 0 = liquid
    cases hc : st.creditCoin v.rewardCoin liquid with
    | error e => exact .inl rfl
    | ok st' => exact .inr ⟨liquid, hc⟩

/-! ## Distribution -/

theorem distributeEpochRewards_quiet {cfg : Config} {produced : Hash → UInt64}
    {fees issuance : UInt64}
    (hquiet : ∀ v ∈ st.validators.all, st.SharePaysNoStake cfg v (rewardShare (safeAdd fees
      issuance) (totalRewardWeight st.validators produced) produced v))
    (hcoins : ∀ v ∈ st.validators.all, ∀ w ∈ st.validators.all, ∀ delegator, w.rewardCoin =
      delegationID cfg.crypto delegator v.pubkey → rewardShare (safeAdd fees issuance)
      (totalRewardWeight st.validators produced) produced v = 0) :
    (st.distributeEpochRewards cfg produced fees issuance).1.validators = st.validators := by
  generalize hshare : rewardShare (safeAdd fees issuance) (totalRewardWeight st.validators produced)
    produced = share at hquiet hcoins
  -- what holds of the ledger over the shares credited so far
  have hfold : ∀ (l : List ValidatorInfo), (∀ v ∈ l, v ∈ st.validators.all) →
      ∀ (s : Ledger) (n : UInt64), s.validators = st.validators →
        (∀ v ∈ st.validators.all, s.SharePaysNoStake cfg v (share v)) →
        (l.foldl (fun (p : Ledger × UInt64) v =>
          ((p.1.creditShare cfg v (share v)).1, p.2 + (p.1.creditShare cfg v (share v)).2))
          (s, n)).1.validators = st.validators := by
    intro l
    induction l with
    | nil => exact fun _ s n hs _ => hs
    | cons v l ih =>
      intro hl s n hs hq
      have hv : s.validators.get v.pubkey = some v := by
        rw [hs]
        exact ValidatorSet.get_of_mem (hl v List.mem_cons_self)
      rw [List.foldl_cons]
      apply ih fun w hw => hl w (List.mem_cons_of_mem v hw)
      · rcases creditShare_quiet hv (hq v (hl v List.mem_cons_self)) with heq | ⟨amount, hc⟩
        · rw [heq, hs]
        · rw [(creditCoin_frame hc).1, hs]
      · intro w hw
        rcases creditShare_quiet hv (hq v (hl v List.mem_cons_self)) with heq | ⟨amount, hc⟩
        · rw [heq]
          exact hq w hw
        · rcases hq w hw with hzero | ⟨hcoin, hmille, hpos⟩
          · exact .inl hzero
          · by_cases hzero : share w = 0
            · exact .inl hzero
            · refine .inr ⟨hcoin, hmille, fun delegator => ?_⟩
              have hne : delegationID cfg.crypto delegator w.pubkey ≠ v.rewardCoin := fun he =>
                hzero (hcoins w hw v (hl v List.mem_cons_self) delegator he.symm)
              have := hpos delegator
              rw [readDelegationAmount] at this ⊢
              rw [(creditCoin_frame hc).2 _ hne]
              exact this
  have hremainder : ∀ (s : Ledger) (top : Hash) (n : UInt64),
      (s.creditRemainder top n).1.validators = s.validators := by
    intro s top n
    unfold creditRemainder
    split
    · rfl
    · split
      · rfl
      · split
        · rfl
        · split
          · rfl
          · rename_i hc
            exact (creditCoin_frame hc).1
  unfold distributeEpochRewards
  dsimp only
  split
  · rfl
  · rw [hremainder, hshare]
    exact hfold st.validators.all (fun _ h => h) st 0 rfl hquiet

/-! ## Removals -/

/-- A validator whose removal is held back: it has delegations, or stake of its own and no
coin to return it to. -/
def RemovalHeld (v : ValidatorInfo) : Prop :=
  v.delegatedTotal > 0 ∨ v.jailed = false ∧ v.selfStake > 0 ∧ v.rewardCoin = zeroHash

theorem removeEach_quiet (h : ∀ k ∈ keys, ∀ v, st.validators.get k = some v → RemovalHeld v) :
    (removeEach maxChurn keys removed st).validators = st.validators := by
  induction keys generalizing removed st with
  | nil => rfl
  | cons k keys ih =>
    have hrest : ∀ k' ∈ keys, ∀ v, st.validators.get k' = some v → RemovalHeld v :=
      fun k' hk' => h k' (List.mem_cons_of_mem k hk')
    unfold removeEach
    split
    · rfl
    · split
      · exact ih hrest
      · rename_i hdel
        cases hk : st.validators.get k with
        | none =>
          have hret : st.returnDeregisteredStake k = some st := by
            simp [returnDeregisteredStake, hk, releasedSelfStake]
          rw [hret]
          dsimp only
          rw [ValidatorSet.remove_of_notMem hk]
          exact ih hrest
        | some v =>
          have hret : st.returnDeregisteredStake k = none := by
            rcases h k List.mem_cons_self v hk with hpos | ⟨hjail, hstake, hcoin⟩
            · exact absurd (by simpa [hasBondedDelegations, hk] using hpos) hdel
            · have hne : v.selfStake ≠ 0 := fun h0 => by rw [h0] at hstake; cases hstake
              simp [returnDeregisteredStake, hk, releasedSelfStake, hjail, hne, hcoin]
          rw [hret]
          exact ih hrest

/-- Removals leave the members and the marks, and take out of the pending ones at most. -/
theorem removeEach_books :
    (removeEach maxChurn keys removed st).committedMembers = st.committedMembers ∧
      (removeEach maxChurn keys removed st).committedTxs = st.committedTxs ∧
      (removeEach maxChurn keys removed st).pendingRemovals.length ≤ st.pendingRemovals.length := by
  induction keys generalizing removed st with
  | nil => exact ⟨rfl, rfl, le_rfl⟩
  | cons k keys ih =>
    unfold removeEach
    split
    · exact ⟨rfl, rfl, le_rfl⟩
    · split
      · exact ih
      · cases hret : st.returnDeregisteredStake k with
        | none => exact ih
        | some s =>
          have hbook : s.book = st.book := by
            have := withBook_returnDeregisteredStake st st.book k
            rw [withBook_book, hret, Option.map_some, Option.some.injEq] at this
            rw [this, book_withBook]
          have hmembers : s.committedMembers = st.committedMembers :=
            congrArg Book.committedMembers hbook
          have hmarks : s.committedTxs = st.committedTxs := congrArg Book.committedTxs hbook
          have hpending : s.pendingRemovals = st.pendingRemovals :=
            congrArg Book.pendingRemovals hbook
          refine ⟨ih.1.trans hmembers, ih.2.1.trans hmarks, ih.2.2.trans ?_⟩
          rw [← hpending]
          exact List.length_filter_le _ _

end Ledger

/-! ## The whole boundary -/

namespace Chain

variable (cfg : Config) (c : Chain)

/-- A validator's share of the pool that the next boundary distributes. -/
def deferredShare (cfg : Config) (c : Chain) (v : ValidatorInfo) : UInt64 :=
  let epoch := c.regime.currentEpoch - 1
  let produced := c.buckets.produced epoch
  Ledger.rewardShare (safeAdd (c.buckets.fees epoch) (c.mintDeferred cfg).2.2)
    (totalRewardWeight c.ledger.validators produced) produced v

/-- A boundary that moves no stake: past the genesis epoch every share is zero or lands in
a reward coin that is no position, and every removal of a live validator is held back. -/
structure QuietBoundary (cfg : Config) (c : Chain) : Prop where
  shares : c.regime.currentEpoch ≠ 0 → ∀ v ∈ c.ledger.validators.all,
    c.ledger.SharePaysNoStake cfg v (c.deferredShare cfg v)
  coins : c.regime.currentEpoch ≠ 0 → ∀ v ∈ c.ledger.validators.all,
    ∀ w ∈ c.ledger.validators.all, ∀ delegator,
      w.rewardCoin = delegationID cfg.crypto delegator v.pubkey → c.deferredShare cfg v = 0
  removals : ∀ k ∈ c.ledger.pendingRemovals, ∀ v, c.ledger.validators.get k = some v →
    Ledger.RemovalHeld v

theorem mintDeferred_ledger :
    ∃ supply, (c.mintDeferred cfg).1 = { c.ledger with totalSupply := supply } := by
  unfold mintDeferred
  split
  · exact ⟨c.ledger.totalSupply, rfl⟩
  · unfold Ledger.runThermostat
    dsimp only
    split
    · exact ⟨c.ledger.totalSupply, rfl⟩
    · exact ⟨_, rfl⟩

theorem settleDeferredEpoch_validators {cfg : Config} {c : Chain} (h : c.QuietBoundary cfg) :
    (c.settleDeferredEpoch cfg).ledger.validators = c.ledger.validators := by
  obtain ⟨supply, hledger⟩ := mintDeferred_ledger cfg c
  unfold settleDeferredEpoch
  split
  · rfl
  · rename_i hepoch
    dsimp only
    rw [hledger]
    exact @Ledger.distributeEpochRewards_quiet { c.ledger with totalSupply := supply } cfg
      (c.buckets.produced (c.regime.currentEpoch - 1)) _ _ (h.shares hepoch) (h.coins hepoch)

theorem settleDeferredEpoch_book : (c.settleDeferredEpoch cfg).ledger.book = c.ledger.book := by
  obtain ⟨supply, hledger⟩ := mintDeferred_ledger cfg c
  unfold settleDeferredEpoch
  split
  · rfl
  · dsimp only
    rw [hledger]
    exact Ledger.book_of_withBook { c.ledger with totalSupply := supply }
      (fun st => (st.distributeEpochRewards cfg _ _ _).1)
      fun st b => congrArg Prod.fst (Ledger.withBook_distributeEpochRewards st b cfg _ _ _)

theorem settleDeferredEpoch_regime : (c.settleDeferredEpoch cfg).regime = c.regime := by
  unfold settleDeferredEpoch
  split <;> rfl

/-- The ledger the new committee is frozen from. -/
def boundaryLedger (cfg : Config) (c : Chain) : Ledger :=
  ((c.settleDeferredEpoch cfg).ledger.applyPendingRemovals cfg.maxChurnPerEpoch).sweepExpiredDomains
    cfg.feeParams.graceEpochs (c.regime.currentEpoch + 1)

theorem transitionEpoch_eq :
    c.transitionEpoch cfg = { c.settleDeferredEpoch cfg with
      ledger := { c.boundaryLedger cfg with epochAdditions := [] }
      regime :=
        { c.regime with
          currentEpoch := c.regime.currentEpoch + 1
          epochHolders := some ((c.boundaryLedger cfg).snapshotEpochHolders cfg.maxChurnPerEpoch)
          prevEpochHolders := some (c.regime.epochHolders.getD
            (HolderSet.freeze (c.boundaryLedger cfg).validators.all))
          nextEpochHolders :=
            some ((c.boundaryLedger cfg).snapshotEpochHolders cfg.maxChurnPerEpoch)
          eligibleHolders := some c.regime.producedMembers
          prevEligibleHolders := some (c.regime.eligibleHolders.getD c.regime.producedMembers)
          nextEligibleHolders := some c.regime.producedMembers }
      rendezvous := some
        ((c.boundaryLedger cfg).snapshotEpochHolders cfg.maxChurnPerEpoch).toValidatorSet } := by
  unfold transitionEpoch boundaryLedger
  dsimp only
  rw [settleDeferredEpoch_regime]

theorem transitionEpoch_validators {cfg : Config} {c : Chain} (h : c.QuietBoundary cfg) :
    (c.transitionEpoch cfg).ledger.validators = c.ledger.validators := by
  have hsettled := settleDeferredEpoch_validators h
  have hpending : (c.settleDeferredEpoch cfg).ledger.pendingRemovals = c.ledger.pendingRemovals :=
    congrArg Book.pendingRemovals (settleDeferredEpoch_book cfg c)
  show ((c.settleDeferredEpoch cfg).ledger.applyPendingRemovals cfg.maxChurnPerEpoch).validators = _
  rw [← hsettled, Ledger.applyPendingRemovals]
  apply Ledger.removeEach_quiet
  intro k hk v hv
  rw [mem_sortedMemberKeys, hpending] at hk
  rw [hsettled] at hv
  exact h.removals k hk v hv

theorem transitionEpoch_members :
    (c.transitionEpoch cfg).ledger.committedMembers = c.ledger.committedMembers :=
  Ledger.removeEach_books.1.trans
    (congrArg Book.committedMembers (settleDeferredEpoch_book cfg c))

theorem length_pendingRemovals_transitionEpoch :
    (c.transitionEpoch cfg).ledger.pendingRemovals.length ≤ c.ledger.pendingRemovals.length := by
  have hpending : (c.settleDeferredEpoch cfg).ledger.pendingRemovals = c.ledger.pendingRemovals :=
    congrArg Book.pendingRemovals (settleDeferredEpoch_book cfg c)
  rw [← hpending]
  exact Ledger.removeEach_books.2.2

theorem transitionEpoch_marks :
    (c.transitionEpoch cfg).ledger.committedTxs = c.ledger.committedTxs :=
  Ledger.removeEach_books.2.1.trans (congrArg Book.committedTxs (settleDeferredEpoch_book cfg c))

/-- A boundary drops one epoch's buckets, and keeps what it could not pay for the next. -/
theorem transitionEpoch_buckets :
    (c.transitionEpoch cfg).buckets.epochFees.keys.card ≤ c.buckets.epochFees.keys.card + 1 ∧
      (c.transitionEpoch cfg).buckets.epochRoundsProduced.keys ⊆
        c.buckets.epochRoundsProduced.keys ∧
      ∀ e b, (c.transitionEpoch cfg).buckets.epochRoundsProduced.lookup e = some b →
        c.buckets.epochRoundsProduced.lookup e = some b := by
  have herase : ∀ {ν : Type} (m : Finmap fun _ : UInt64 => ν) (a : UInt64),
      (m.erase a).keys ⊆ m.keys := by
    intro ν m a k hk
    rw [Finmap.mem_keys, Finmap.mem_erase] at hk
    exact Finmap.mem_keys.2 hk.2
  have hinsert : ∀ (m : Finmap fun _ : UInt64 => UInt64) (a n : UInt64),
      (m.insert a n).keys.card ≤ m.keys.card + 1 := by
    intro m a n
    refine le_trans (Finset.card_le_card ?_) (Finset.card_insert_le a m.keys)
    intro k hk
    rw [Finmap.mem_keys, Finmap.mem_insert] at hk
    rw [Finset.mem_insert, Finmap.mem_keys]
    exact hk
  have hlookup : ∀ {ν : Type} (m : Finmap fun _ : UInt64 => ν) (a e : UInt64) (b : ν),
      (m.erase a).lookup e = some b → m.lookup e = some b := by
    intro ν m a e b h
    by_cases he : e = a
    · rw [he, Finmap.lookup_erase] at h
      cases h
    · rwa [Finmap.lookup_erase_ne he] at h
  rw [transitionEpoch_eq]
  show (c.settleDeferredEpoch cfg).buckets.epochFees.keys.card ≤ _ ∧
    (c.settleDeferredEpoch cfg).buckets.epochRoundsProduced.keys ⊆ _ ∧ _
  unfold settleDeferredEpoch
  split
  · exact ⟨Nat.le_succ _, fun _ h => h, fun _ _ h => h⟩
  · dsimp only
    split
    · refine ⟨le_trans (hinsert _ _ _) ?_, herase _ _, hlookup _ _⟩
      exact Nat.succ_le_succ (Finset.card_le_card (herase _ _))
    · exact ⟨le_trans (Finset.card_le_card (herase _ _)) (Nat.le_succ _), herase _ _, hlookup _ _⟩

end Chain

end BluePods
