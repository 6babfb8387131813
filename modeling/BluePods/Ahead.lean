import BluePods.Locality
import BluePods.SelfAdd

/-! A node that adds its own key to its live set, at any point between the transactions it
applies, beside a node that does not. Between the addition and the registration the two
live sets differ by a validator without stake. A boundary in between pays that validator
nothing and leaves it out of the committee. -/

namespace BluePods

open ValidatorSet

variable {round : UInt64}

/-! ## Settlement over one more validator -/

section Weights

variable {vs : ValidatorSet} {a : SelfAdd}

theorem effectiveStake_info (a : SelfAdd) : effectiveStake a.info = 0 := by
  simp [effectiveStake, SelfAdd.info]

theorem rewardWeight_info (a : SelfAdd) (produced : Hash → UInt64) :
    rewardWeight a.info produced = 0 := by
  rw [rewardWeight, effectiveStake_info, safeMul_zero_left]

theorem rawTotal_selfAdd (h : a.pubkey ∉ vs.keys) : rawTotal (vs.selfAdd a) = rawTotal vs := by
  rw [rawTotal, rawTotal, all_selfAdd h, List.foldl_append, List.foldl_cons,
    List.foldl_nil, effectiveStake_info, safeAdd_zero_right]

theorem totalRewardWeight_selfAdd (h : a.pubkey ∉ vs.keys) (produced : Hash → UInt64) :
    totalRewardWeight (vs.selfAdd a) produced = totalRewardWeight vs produced := by
  rw [totalRewardWeight, totalRewardWeight, all_selfAdd h, List.foldl_append,
    List.foldl_cons, List.foldl_nil, rewardWeight_info, safeAdd_zero_right]

theorem pickRemainderRecipient_append (vals : List ValidatorInfo) (a : SelfAdd)
    (produced : Hash → UInt64) :
    pickRemainderRecipient (vals ++ [a.info]) produced = pickRemainderRecipient vals produced := by
  unfold pickRemainderRecipient
  rw [List.foldl_append, List.foldl_cons, List.foldl_nil]
  dsimp only
  rw [rewardWeight_info, if_pos rfl]

end Weights

namespace Ledger

variable {s s' : Ledger} {validator : Hash} {v : ValidatorInfo} {st' : Ledger} {a : SelfAdd}
  {keys : List Hash} {st : Ledger}

theorem selfAdd_compoundDelegation (hk : a.pubkey ∉ st.validators.keys) (hne : validator ≠ a.pubkey)
    (cr : Crypto) (delegator : Hash) (reward : UInt64) :
    (st.selfAdd a).compoundDelegation cr delegator validator reward =
      (st.compoundDelegation cr delegator validator reward).map (·.selfAdd a) := by
  unfold compoundDelegation
  rw [show (st.selfAdd a).readDelegationAmount (delegationID cr delegator validator) validator =
    st.readDelegationAmount (delegationID cr delegator validator) validator from rfl]
  split
  · rfl
  · cases st.readDelegationAmount (delegationID cr delegator validator) validator with
    | none => rfl
    | some current =>
      exact congrArg some (@selfAdd_modify a
        (st.setObject (buildDelegationObject cr delegator validator (safeAdd current reward)))
        _ _ _ hk fun he => absurd he hne)

theorem compoundDelegation_keys {cr : Crypto} {delegator : Hash} {reward : UInt64}
    (h : st.compoundDelegation cr delegator validator reward = some s) :
    s.validators.keys = st.validators.keys := by
  unfold compoundDelegation at h
  split at h
  · cases h
  · obtain ⟨current, -, rfl⟩ := Option.map_eq_some_iff.1 h
    exact Lib.Tally.map_key_update fun _ => rfl

/-- The ledger over the keys it started with, once without and once with the addition. -/
def AddedTo (a : SelfAdd) (keys : List Hash) (s s' : Ledger) : Prop :=
  s.validators.keys = keys ∧ s' = s.selfAdd a

theorem AddedTo.creditCoin (h : AddedTo a keys s s') (coin : Hash) (amount : UInt64) :
    ResultAlike Eq (AddedTo a keys) (s.creditCoin coin amount) (s'.creditCoin coin amount) := by
  obtain ⟨hkeys, rfl⟩ := h
  rw [selfAdd_creditCoin]
  cases hc : s.creditCoin coin amount with
  | error e => exact .error rfl
  | ok t => exact .ok ⟨by rw [(creditCoin_frame hc).1, hkeys], rfl⟩

theorem payoutsAlike_selfAdd (cr : Crypto) (hk : a.pubkey ∉ keys) (hne : v.pubkey ≠ a.pubkey) :
    PayoutsAlike (AddedTo a keys) cr v where
  positions := by
    rintro s _ ⟨-, rfl⟩
    rfl
  compound := by
    rintro s _ ⟨hkeys, rfl⟩ delegator reward
    rw [selfAdd_compoundDelegation (hkeys ▸ hk) hne]
    cases hc : s.compoundDelegation cr delegator v.pubkey reward with
    | none => exact .none
    | some t => exact .some ⟨(compoundDelegation_keys hc).trans hkeys, rfl⟩
  restake := by
    rintro s _ ⟨hkeys, rfl⟩ stake
    exact ⟨by rw [← hkeys]; exact Lib.Tally.map_key_update fun _ => rfl,
      selfAdd_modify (hkeys ▸ hk) fun he => absurd he hne⟩
  credit _ _ _ h := h.creditCoin v.rewardCoin

theorem creditShare_zero (hv : st.validators.get v.pubkey = some v)
    (hcoin : v.rewardCoin = zeroHash) (cfg : Config) : st.creditShare cfg v 0 = (st, 0) := by
  unfold creditShare
  split
  · rfl
  rename_i own payouts hsplit
  obtain ⟨rfl, hpayouts⟩ := splitValidatorReward_zero hsplit
  dsimp only
  have hnone : ∀ d ∈ payouts, st.compoundDelegation cfg.crypto d.delegator v.pubkey d.amount =
      none := by
    intro d hd
    rw [compoundDelegation, if_pos (hpayouts d hd)]
  rw [creditDelegators_of_none hnone]
  simp only [creditValidatorReward, hcoin, if_true, safeAdd_zero_right]
  rw [setSelfStake, modify_eq_self hv rfl]
  rfl

/-- Without a reward coin the added validator is credited no more than an unknown one. -/
theorem creditRemainder_selfAdd (hk : a.pubkey ∉ keys) (h : AddedTo a keys s s') (top : Hash)
    (remainder : UInt64) :
    PaidAlike (AddedTo a keys) (s.creditRemainder top remainder)
      (s'.creditRemainder top remainder) := by
  refine creditRemainder_alike h ?_ fun v _ _ => h.creditCoin v.rewardCoin remainder
  obtain ⟨hkeys, rfl⟩ := h
  rw [← hkeys] at hk
  by_cases htop : top = a.pubkey
  · rw [htop, get_eq_none hk, show (s.selfAdd a).validators.get a.pubkey =
      some a.info from get_selfAdd_self hk]
    rfl
  · rw [show (s.selfAdd a).validators.get top = s.validators.get top from
      get_selfAdd_of_ne hk htop]

theorem distributeEpochRewards_paysAlike (hk : a.pubkey ∉ st.validators.keys) (cfg : Config)
    (produced : Hash → UInt64) (fees issuance : UInt64) :
    PaidAlike (AddedTo a st.validators.keys) (st.distributeEpochRewards cfg produced fees issuance)
      ((st.selfAdd a).distributeEpochRewards cfg produced fees issuance) := by
  have hne : ∀ v ∈ st.validators.all, v.pubkey ≠ a.pubkey := fun v hv he =>
    hk (he ▸ List.mem_map_of_mem hv)
  unfold distributeEpochRewards
  rw [show (st.selfAdd a).validators = st.validators.selfAdd a from rfl,
    totalRewardWeight_selfAdd hk, all_selfAdd hk]
  dsimp only
  rw [pickRemainderRecipient_append]
  split
  · exact ⟨⟨rfl, rfl⟩, rfl⟩
  · have hshares := creditShares_alike
      (fun v hv => payoutsAlike_selfAdd cfg.crypto hk (hne v hv)) ⟨rfl, rfl⟩
      (rewardShare (safeAdd fees issuance) (totalRewardWeight st.validators produced) produced) 0
    rw [List.foldl_append, List.foldl_cons, List.foldl_nil]
    generalize st.validators.all.foldl _ (st, (0 : UInt64)) = paid at hshares ⊢
    generalize st.validators.all.foldl _ (st.selfAdd a, (0 : UInt64)) = paid' at hshares ⊢
    obtain ⟨paid', distributed⟩ := paid'
    obtain ⟨⟨hkeys, rfl⟩, rfl⟩ := hshares
    have hk' : a.pubkey ∉ paid.1.validators.keys := hkeys ▸ hk
    -- The last share is the added validator's, and it is empty.
    have hlast : (paid.1.selfAdd a).creditShare cfg a.info (rewardShare (safeAdd fees issuance)
        (totalRewardWeight st.validators produced) produced a.info) = (paid.1.selfAdd a, 0) := by
      rw [rewardShare, rewardWeight_info, safeMul_zero_right, UInt64.zero_div]
      exact creditShare_zero (get_selfAdd_self hk') rfl cfg
    dsimp only
    rw [hlast]
    dsimp only
    rw [UInt64.add_zero]
    obtain ⟨⟨hkept, hrest⟩, hleft⟩ := creditRemainder_selfAdd hk ⟨hkeys, rfl⟩
      (pickRemainderRecipient st.validators.all produced) (safeAdd fees issuance - paid.2)
    exact ⟨⟨hkept, hrest⟩, by rw [hleft]⟩

theorem selfAdd_totalSupply (st : Ledger) (a : SelfAdd) :
    (st.selfAdd a).totalSupply = st.totalSupply := rfl

theorem selfAdd_setTotalSupply (st : Ledger) (a : SelfAdd) (supply : UInt64) :
    (st.selfAdd a).setTotalSupply supply = (st.setTotalSupply supply).selfAdd a := rfl

theorem selfAdd_addSupply (st : Ledger) (a : SelfAdd) (amount : UInt64) :
    (st.selfAdd a).addSupply amount = (st.addSupply amount).selfAdd a := by
  unfold addSupply
  rw [selfAdd_totalSupply, selfAdd_setTotalSupply]

theorem selfAdd_runThermostat (hk : a.pubkey ∉ st.validators.keys) (p : ThermostatParams)
    (rate : UInt64) (distributable : Bool) :
    (st.selfAdd a).runThermostat p rate distributable =
      ((st.runThermostat p rate distributable).1.selfAdd a,
        (st.runThermostat p rate distributable).2) := by
  have hbonded : totalBonded (st.selfAdd a).validators = totalBonded st.validators :=
    rawTotal_selfAdd hk
  unfold runThermostat
  rw [hbonded, selfAdd_totalSupply]
  dsimp only
  rw [selfAdd_addSupply]
  cases distributable with
  | false => rfl
  | true => rfl

theorem Leads.members (h : Leads a keys st st') : st'.committedMembers = st.committedMembers :=
  h.field committedMembers fun _ _ => rfl

theorem Leads.rekey (h : Leads a keys st st') : Leads a st.validators.keys st st' :=
  h.imp id fun ⟨hp, _, heq⟩ => ⟨hp, rfl, heq⟩

theorem Leads.get_member (h : Leads a keys st st') {pubkey : Hash}
    (hmember : pubkey ∈ st.committedMembers) :
    st'.validators.get pubkey = st.validators.get pubkey := by
  rcases h with rfl | ⟨hp, -, rfl⟩
  · rfl
  · exact get_selfAdd_of_ne hp.notLive fun he => hp.notMember (he ▸ hmember)

end Ledger

namespace Chain

/-! ## The boundary -/

def selfAdd (c : Chain) (a : SelfAdd) : Chain := { c with ledger := c.ledger.selfAdd a }

variable {a : SelfAdd} {c : Chain}

theorem mintDeferred_selfAdd (hk : a.pubkey ∉ c.ledger.validators.keys) (cfg : Config) :
    (c.selfAdd a).mintDeferred cfg =
      ((c.mintDeferred cfg).1.selfAdd a, (c.mintDeferred cfg).2) := by
  have hminted : (c.selfAdd a).mintDeferred cfg =
      if c.regime.currentEpoch = 0 then (c.ledger.selfAdd a, c.issuanceRateMicro, 0)
      else (c.ledger.selfAdd a).runThermostat cfg.thermostat c.issuanceRateMicro
        (decide (totalRewardWeight (c.ledger.validators.selfAdd a)
          (c.buckets.produced (c.regime.currentEpoch - 1)) > 0)) := rfl
  rw [hminted, totalRewardWeight_selfAdd hk, Ledger.selfAdd_runThermostat hk, mintDeferred]
  by_cases hepoch : c.regime.currentEpoch = 0
  · rw [if_pos hepoch, if_pos hepoch]
  · rw [if_neg hepoch, if_neg hepoch]

theorem settleDeferredEpoch_selfAdd (hk : a.pubkey ∉ c.ledger.validators.keys) (cfg : Config) :
    (c.selfAdd a).settleDeferredEpoch cfg = (c.settleDeferredEpoch cfg).selfAdd a ∧
      (c.settleDeferredEpoch cfg).ledger.validators.keys = c.ledger.validators.keys := by
  by_cases hepoch : c.regime.currentEpoch = 0
  · unfold settleDeferredEpoch
    rw [if_pos hepoch, if_pos (show (c.selfAdd a).regime.currentEpoch = 0 from hepoch)]
    exact ⟨rfl, rfl⟩
  · obtain ⟨supply, hledger⟩ := mintDeferred_ledger cfg c
    have hmint := mintDeferred_selfAdd hk cfg
    have hkeys : (c.mintDeferred cfg).1.validators.keys = c.ledger.validators.keys := by
      rw [hledger]
    refine settleDeferredEpoch_rel (R := Ledger.AddedTo a (c.mintDeferred cfg).1.validators.keys)
      (T := fun d d' : Chain => d' = d.selfAdd a ∧ d.ledger.validators.keys =
        c.ledger.validators.keys) hepoch rfl rfl (by rw [hmint]) (fun produced fees issuance => ?_)
      fun st st' rate buckets hst => ⟨by rw [hst.2]; rfl, hst.1.trans hkeys⟩
    rw [hmint]
    exact Ledger.distributeEpochRewards_paysAlike (hkeys ▸ hk) cfg produced fees issuance

/-- No removal is pending, there are members, and the epoch has its holders. -/
structure CalmBoundary (c : Chain) : Prop where
  removals : c.ledger.pendingRemovals = []
  members : c.ledger.committedMembers ≠ []
  holders : c.regime.epochHolders ≠ none

theorem snapshotEpochHolders_selfAdd {st : Ledger} (hp : a.Pending st)
    (hmembers : st.committedMembers ≠ []) (maxChurn : Nat) :
    (st.selfAdd a).snapshotEpochHolders maxChurn = st.snapshotEpochHolders maxChurn := by
  unfold Ledger.snapshotEpochHolders
  have hempty : st.committedMembers.isEmpty = false := by simpa using hmembers
  rw [show (st.selfAdd a).validators = st.validators.selfAdd a from rfl,
    all_selfAdd hp.notLive]
  dsimp only
  rw [List.filter_append]
  have hout : [a.info].filter (fun v =>
      ((st.selfAdd a).committedMembers.isEmpty ||
        decide (v.pubkey ∈ (st.selfAdd a).committedMembers)) &&
        (decide (v.pubkey ∉ (st.selfAdd a).epochAdditions) ||
          decide (v.pubkey ∈ (st.selfAdd a).churnLimitedAdditions maxChurn))) = [] := by
    have hnot : a.info.pubkey ∉ (st.selfAdd a).committedMembers := hp.notMember
    have hempty' : (st.selfAdd a).committedMembers.isEmpty = false := hempty
    simp [hnot, hempty']
  rw [hout, List.append_nil]
  rfl

theorem transitionEpoch_selfAdd (hp : a.Pending c.ledger) (hcalm : c.CalmBoundary) (cfg : Config) :
    (c.selfAdd a).transitionEpoch cfg = (c.transitionEpoch cfg).selfAdd a ∧
      a.Pending (c.transitionEpoch cfg).ledger := by
  obtain ⟨hsettle, hkeys⟩ := settleDeferredEpoch_selfAdd hp.notLive cfg
  have hbook := settleDeferredEpoch_book cfg c
  have hpending : (c.settleDeferredEpoch cfg).ledger.pendingRemovals = [] :=
    (congrArg Book.pendingRemovals hbook).trans hcalm.removals
  have hmembers : (c.settleDeferredEpoch cfg).ledger.committedMembers = c.ledger.committedMembers :=
    congrArg Book.committedMembers hbook
  have hnone : ∀ st : Ledger, st.pendingRemovals = [] → ∀ n, st.applyPendingRemovals n = st := by
    intro st hst n
    rw [Ledger.applyPendingRemovals, hst]
    rfl
  have hledger : c.boundaryLedger cfg = (c.settleDeferredEpoch cfg).ledger.sweepExpiredDomains
      cfg.feeParams.graceEpochs (c.regime.currentEpoch + 1) := by
    rw [boundaryLedger, hnone _ hpending]
  have hledger' : (c.selfAdd a).boundaryLedger cfg = (c.boundaryLedger cfg).selfAdd a := by
    rw [boundaryLedger, hsettle, hledger]
    have hpending' : ((c.settleDeferredEpoch cfg).selfAdd a).ledger.pendingRemovals = [] := hpending
    rw [hnone _ hpending']
    rfl
  have hp' : a.Pending (c.boundaryLedger cfg) := by
    rw [hledger]
    exact hp.congr hkeys hmembers
  have hsnapshot :=
    snapshotEpochHolders_selfAdd hp' (by rw [hledger]; exact hmembers ▸ hcalm.members)
    cfg.maxChurnPerEpoch
  have hfrozen : ∀ vs vs' : HolderSet, (c.selfAdd a).regime.epochHolders.getD vs =
      c.regime.epochHolders.getD vs' := by
    intro vs vs'
    obtain ⟨hs, hhs⟩ := Option.ne_none_iff_exists'.1 hcalm.holders
    rw [show (c.selfAdd a).regime.epochHolders = c.regime.epochHolders from rfl, hhs]
    rfl
  refine ⟨?_, hp'.congr rfl rfl⟩
  rw [transitionEpoch_eq, transitionEpoch_eq, hsettle, hledger', hsnapshot,
    hfrozen _ (HolderSet.freeze (c.boundaryLedger cfg).validators.all)]
  rfl

/-! ## Two nodes, one of which adds itself -/

/-- The second node agrees with the first on everything but the replicated objects it
stores, the metadata, and perhaps the addition. -/
def Tracks (a : SelfAdd) (c d : Chain) : Prop :=
  ∃ e, c.Shares e ∧ e.ledger.Leads a e.ledger.validators.keys d.ledger ∧
    d = e.place d.ledger d.persisted

variable {d : Chain} {cfg : Config} {self : Hash}

theorem Tracks.of_shares (h : c.Shares d) : Tracks a c d := ⟨d, h, .inl rfl, rfl⟩

section

variable (h : Tracks a c d)

include h

/-- Whatever looks at neither ledger nor metadata goes the same way. -/
theorem Tracks.through (f : Chain → Chain)
    (hf : ∀ c ledger persisted, f (place c ledger persisted) = (f c).place ledger persisted) :
    Tracks a (f c) (f d) := by
  have hsame : ∀ c : Chain, f c = (f c).place c.ledger c.persisted := fun c =>
    hf c c.ledger c.persisted
  have hledger : ∀ c : Chain, (f c).ledger = c.ledger := fun c => by rw [hsame c]; rfl
  obtain ⟨e, hs, hl, hd⟩ := h
  refine ⟨f e, hs.through f fun c objects => ?_, ?_, ?_⟩
  · have hput := hf c (c.ledger.withObjects objects) c.persisted
    rw [show c.withObjects objects = c.place (c.ledger.withObjects objects) c.persisted from rfl,
      hput, withObjects, hledger c]
    conv_rhs => rw [hsame c]
    rfl
  · rw [hledger, hledger]
    exact hl
  · have hd' : f d = (f e).place d.ledger d.persisted := by
      conv_lhs => rw [hd]
      exact hf e d.ledger d.persisted
    rw [hledger d, hd']
    rfl

/-- The nodes agree on whatever is kept apart from ledger and metadata. -/
theorem Tracks.field {α : Type} (f : Chain → α)
    (hf : ∀ c ledger persisted, f (place c ledger persisted) = f c) : f d = f c := by
  obtain ⟨e, hs, -, hd⟩ := h
  calc f d = f e := by rw [hd, hf]
    _ = f (c.place e.ledger c.persisted) := congrArg f (hs.rest.trans (by rw [hs.ledger.rest]; rfl))
    _ = f c := hf c _ _

theorem Tracks.regime : d.regime = c.regime :=
  h.field Chain.regime fun _ _ _ => rfl

theorem Tracks.rendezvous : d.rendezvous = c.rendezvous :=
  h.field Chain.rendezvous fun _ _ _ => rfl

theorem Tracks.members : d.ledger.committedMembers = c.ledger.committedMembers := by
  obtain ⟨e, hs, hl, -⟩ := h
  rw [hl.members, hs.ledger.rest]
  rfl

theorem Tracks.get_member (k : Hash) (hk : k ∈ c.ledger.committedMembers) :
    d.ledger.validators.get k = c.ledger.validators.get k := by
  obtain ⟨e, hs, hl, -⟩ := h
  have hmembers : e.ledger.committedMembers = c.ledger.committedMembers := by
    rw [hs.ledger.rest]
    rfl
  rw [hl.get_member (hmembers ▸ hk), hs.ledger.validators]

end

/-- The added key is live on the second node alone. -/
def IsAhead (a : SelfAdd) (c d : Chain) : Prop :=
  a.pubkey ∈ d.ledger.validators.keys ∧ a.pubkey ∉ c.ledger.validators.keys

theorem isAhead_of_selfAdd {e : Chain} (hs : c.Shares e) (hp : a.Pending e.ledger)
    (hd : d.ledger = e.ledger.selfAdd a) : IsAhead a c d := by
  constructor
  · rw [hd]
    change a.pubkey ∈ (e.ledger.validators.selfAdd a).keys
    rw [keys_selfAdd hp.notLive]
    simp
  · rw [← hs.ledger.validators]
    exact hp.notLive

/-! ## Transactions -/

theorem refreezes_tracks : Refreezes (Tracks a) :=
  refreezes_of_regime Tracks.regime Tracks.members Tracks.get_member
    fun r h => h.through (fun d => { d with regime := r, regimeDirty := true }) fun _ _ _ => rfl

/-- The wiring differs in how object holders are drawn. -/
theorem txNode_eq (hregime : d.regime = c.regime) (cfg : Config) (self : Hash)
    (atx : AttestedTransaction) :
    d.txNode (cfg.as self) atx =
      { c.txNode cfg atx with
        computeHolders := (d.txNode (cfg.as self) atx).computeHolders
        isHolder := (d.txNode (cfg.as self) atx).isHolder } := by
  unfold txNode node
  rw [hregime]
  rfl

/-- What a transaction needs of the two nodes: both are blind to it, and it is neutral while
one of them is ahead. -/
structure FairTx (cfg cfg' : Config) (a : SelfAdd) (c d : Chain) (atx : AttestedTransaction)
    (round : UInt64) (verdict : Option ProofError) : Prop where
  blind : c.BlindTx cfg atx round verdict
  blind' : d.BlindTx cfg' atx round verdict
  neutral : IsAhead a c d → ∀ tx,
    c.ledger.Admits (c.txNode cfg atx) atx round.toNat verdict tx →
    c.ledger.Neutral a (c.txNode cfg atx) (d.txNode cfg' atx).computeHolders tx atx

end Chain

namespace Ledger

variable {a : SelfAdd} {st st' : Ledger} {nd : Node} {atx : AttestedTransaction} {tx : Transaction}
  {holders : Hash → Nat → List Hash} {f : Hash → UInt16 → Bool} {commitRound : Nat}
  {verdict : Option ProofError}

theorem Shares.admits (h : Shares st st')
    (hin : st'.Admits { nd with isHolder := f } atx commitRound verdict tx) :
    st.Admits nd atx commitRound verdict tx := by
  obtain ⟨objects, rfl⟩ : ∃ objects, st' = st.withObjects objects := ⟨_, h.rest⟩
  exact { hin with }

theorem Neutral.shares (h : Shares st st') (hn : Neutral a st nd holders tx atx) :
    Neutral a st' { nd with isHolder := f } holders tx atx := by
  obtain ⟨objects, rfl⟩ : ∃ objects, st' = st.withObjects objects := ⟨_, h.rest⟩
  exact ⟨hn.fees, hn.deposits, hn.registers, ⟨hn.stakes.bond, hn.stakes.delegate⟩⟩

end Ledger

namespace Chain

variable {atx : AttestedTransaction} {verdict : Option ProofError} {a : SelfAdd} {c d : Chain}
  {cfg : Config} {self : Hash}

/-- The two ledgers after a transaction, by way of the first node's ledger with the second
node's bodies. -/
theorem Tracks.outcome (h : Tracks a c d) (hfair : FairTx cfg (cfg.as self) a c d atx round verdict)
    : ∃ e out, c.Shares e ∧ d = e.place d.ledger d.persisted ∧
      Ledger.OutcomeShares
        (c.ledger.executeTx (c.txNode cfg atx) atx round.toNat verdict) out ∧
      Ledger.OutcomeAlike (Ledger.Leads a e.ledger.validators.keys) out
        (d.ledger.executeTx (d.txNode (cfg.as self) atx) atx round.toNat verdict) ∧
      d.ledger.bondApplied (d.txNode (cfg.as self) atx) atx round.toNat verdict =
        c.ledger.bondApplied (c.txNode cfg atx) atx round.toNat verdict := by
  have hregime := h.regime
  have hrendezvous := h.rendezvous
  have hall := isHolder_zero cfg c atx
  have hall' : ∀ id, (d.txNode (cfg.as self) atx).isHolder id 0 = true :=
    isHolder_zero (cfg.as self) d atx
  have hnode := txNode_eq hregime cfg self atx
  have hblind := hfair.blind
  have hblind' := hfair.blind'
  have hneutral := hfair.neutral
  obtain ⟨e, hs, hl, hd⟩ := h
  unfold BlindTx at hblind hblind'
  rcases hl with hlevel | ⟨hp, -, hahead⟩
  · -- Both draw holders from the same set.
    have hsame : (d.txNode (cfg.as self) atx).computeHolders =
        (c.txNode cfg atx).computeHolders := by
      show computeHolders cfg.crypto d.sharding = computeHolders cfg.crypto c.sharding
      rw [sharding, sharding, hrendezvous, hlevel, hs.ledger.validators]
    rw [hsame] at hnode
    generalize (d.txNode (cfg.as self) atx).isHolder = f at hnode hall'
    rw [hnode, hlevel] at hblind' ⊢
    have hb := Ledger.BlindTx.holder hblind'
    refine ⟨e, _, hs, hd.trans (by rw [hlevel]),
      hs.ledger.executeTx hall hall' round.toNat verdict hblind hb, ?_, ?_⟩
    · exact ⟨rfl, rfl, .inl rfl⟩
    · exact hs.ledger.bondApplied f round.toNat verdict hblind hb
  · have hn := hneutral (isAhead_of_selfAdd hs hp hahead)
    generalize (d.txNode (cfg.as self) atx).computeHolders = holders at hnode hn
    generalize (d.txNode (cfg.as self) atx).isHolder = f at hnode hall'
    rw [hnode, hahead] at hblind' ⊢
    have hb := Ledger.BlindTx.rewired hblind'
    have hn' : ∀ tx,
        e.ledger.Admits { c.txNode cfg atx with isHolder := f } atx round.toNat verdict tx →
        e.ledger.Neutral a { c.txNode cfg atx with isHolder := f } holders tx atx :=
      fun tx hin => (hn tx (hs.ledger.admits hin)).shares hs.ledger
    refine ⟨e, _, hs, hd.trans (by rw [hahead]),
      hs.ledger.executeTx hall hall' round.toNat verdict hblind hb, ?_, ?_⟩
    · exact Ledger.executeTx_leads hp round.toNat verdict hn'
    · exact (Ledger.selfAdd_bondApplied hp round.toNat verdict hn').trans
        (hs.ledger.bondApplied f round.toNat verdict hblind hb)

theorem Tracks.executeTx (h : Tracks a c d)
    (hfair : FairTx cfg (cfg.as self) a c d atx round verdict) :
    Tracks a (c.executeTx cfg atx round verdict).1
        (d.executeTx (cfg.as self) atx round verdict).1 ∧
      (d.executeTx (cfg.as self) atx round verdict).2 = (c.executeTx cfg atx round verdict).2 := by
  have hmembers := h.members
  obtain ⟨e, out, hs, hd, hshares, hleads, hbond⟩ := h.outcome hfair
  obtain ⟨hsplit, hledger⟩ := hshares
  have hout :
      (c.ledger.executeTx (c.txNode cfg atx) atx round.toNat verdict).ledger.committedMembers =
      out.ledger.committedMembers := by rw [hledger.rest]; rfl
  have hsender : d.ledger.admitsSender
      (d.ledger.executeTx (d.txNode (cfg.as self) atx) atx round.toNat verdict).ledger atx =
      c.ledger.admitsSender
        (c.ledger.executeTx (c.txNode cfg atx) atx round.toNat verdict).ledger atx := by
    unfold Ledger.admitsSender
    rw [hmembers, hleads.ledger.members, hout]
  generalize hc : c.ledger.executeTx (c.txNode cfg atx) atx round.toNat verdict = outc
    at hledger hsender hsplit
  generalize hd' : d.ledger.executeTx (d.txNode (cfg.as self) atx) atx round.toNat verdict = outd
    at hleads hsender
  have hstep : Tracks a { c with ledger := outc.ledger } { d with ledger := outd.ledger } := by
    refine ⟨{ e with ledger := out.ledger }, hs.withLedger hledger, hleads.ledger.rekey, ?_⟩
    conv_lhs => rw [hd]
    rfl
  constructor
  · exact refreezes_tracks.executeTx cfg (cfg.as self) (fun _ => rfl) (by rw [hc]) (by rw [hd'])
      hbond hsender (fun _ => hstep)
      (hstep.through (fun d => { d with regimeDirty := true }) fun _ _ _ => rfl)
  · subst hc hd'
    exact hleads.split.trans hsplit

/-! ## Runs in which a node adds itself -/

end Chain

/-- A vertex, and before which of its transactions the node adds itself. -/
structure TimedVertex where
  hash : Hash
  round : UInt64
  producer : Hash
  steps : List (Bool × AttestedTransaction) := []

def TimedVertex.erase (v : TimedVertex) : BatchVertex where
  hash := v.hash
  round := v.round
  producer := v.producer
  transactions := v.steps.map (·.2)

/-- A round, and whether the node adds itself between its last transaction and the move of
the cursor. -/
structure TimedRound where
  vertices : List TimedVertex := []
  adds : Bool := false

def TimedRound.erase (r : TimedRound) : List BatchVertex := r.vertices.map TimedVertex.erase

namespace Chain

variable {s s' : BatchState}

def selfAddIf (c : Chain) (a : SelfAdd) (now : Bool) : Chain := if now then c.selfAdd a else c

def processTimed (cfg : Config) (a : SelfAdd) (round : UInt64) (c : Chain) (p : ProofVerdicts) :
    List (Bool × AttestedTransaction) → Chain × ProofVerdicts × UInt64
  | [] => (c, p, 0)
  | (now, atx) :: rest =>
    let one := (c.selfAddIf a now).executeTx cfg atx round (p.proofVerdict atx).1
    let run := processTimed cfg a round one.1 (p.proofVerdict atx).2 rest
    (run.1, run.2.1, one.2.epoch + run.2.2)

def applyTimedVertex (cfg : Config) (a : SelfAdd) (round : UInt64) (s : BatchState)
    (v : TimedVertex) : BatchState :=
  let run := (creditVertex cfg s v.erase).processTimed cfg a round s.verdicts v.steps
  { chain := run.1.flagVertex cfg v.erase run.2.2
    verdicts := run.2.1
    credited := (applyVertex cfg round s v.erase).credited }

def applyTimed (cfg : Config) (a : SelfAdd) (c : Chain) (r : TimedRound) : Chain :=
  (r.vertices.foldl (applyTimedVertex cfg a c.lastCommitted)
    (c.startBatch cfg c.lastCommitted r.erase)).chain.selfAddIf a r.adds

def decideTimed (cfg : Config) (a : SelfAdd) (c : Chain) (r : TimedRound) : Chain :=
  (c.applyTimed cfg a r).advanceCommitCursor cfg c.lastCommitted

/-- The node after each round. -/
def roundEnds {ρ : Type} (decideRound : Chain → ρ → Chain) : Chain → List ρ → List Chain
  | _, [] => []
  | c, r :: log => decideRound c r :: roundEnds decideRound (decideRound c r) log

theorem applyTimedVertex_eq (cfg : Config) (round : UInt64) (s : BatchState) (v : TimedVertex) :
    applyTimedVertex cfg a round s v = s.flagged cfg v.erase
      ((creditVertex cfg s v.erase).processTimed cfg a round s.verdicts v.steps) := by
  unfold applyTimedVertex
  rw [applyVertex_eq]
  rfl

/-! ## Fair runs -/

/-- The transactions find the nodes blind, and neutral while one is ahead; the node adds
itself while its key is not registered. -/
def FairTxs (cfg cfg' : Config) (a : SelfAdd) (round : UInt64) :
    Chain → Chain → ProofVerdicts → List (Bool × AttestedTransaction) → Prop
  | _, _, _, [] => True
  | c, d, p, (now, atx) :: rest =>
    (now = true → a.Pending c.ledger) ∧
      FairTx cfg cfg' a c (d.selfAddIf a now) atx round (p.proofVerdict atx).1 ∧
      FairTxs cfg cfg' a round (c.executeTx cfg atx round (p.proofVerdict atx).1).1
        ((d.selfAddIf a now).executeTx cfg' atx round (p.proofVerdict atx).1).1
        (p.proofVerdict atx).2 rest

def FairBatch (cfg cfg' : Config) (a : SelfAdd) (round : UInt64) :
    BatchState → BatchState → List TimedVertex → Prop
  | _, _, [] => True
  | s, s', v :: rest =>
    FairTxs cfg cfg' a round (creditVertex cfg s v.erase) (creditVertex cfg' s' v.erase) s.verdicts
        v.steps ∧
      FairBatch cfg cfg' a round (applyVertex cfg round s v.erase)
        (applyTimedVertex cfg' a round s' v) rest

/-- A boundary finds the nodes blind, and calm while one is ahead. -/
structure FairBoundary (a : SelfAdd) (c d : Chain) : Prop where
  blind : c.ledger.BoundaryBlind
  blind' : d.ledger.BoundaryBlind
  calm : IsAhead a c d → c.CalmBoundary

structure FairRound (cfg cfg' : Config) (a : SelfAdd) (c d : Chain) (r : TimedRound) : Prop where
  batch : FairBatch cfg cfg' a c.lastCommitted (c.startBatch cfg c.lastCommitted r.erase)
    (d.startBatch cfg' d.lastCommitted r.erase) r.vertices
  adds : r.adds = true → a.Pending (c.applyBatch cfg c.lastCommitted r.erase).ledger
  boundary : cfg.isEpochBoundary c.lastCommitted = true →
    FairBoundary a (c.applyBatch cfg c.lastCommitted r.erase) (d.applyTimed cfg' a r)

def FairRun (cfg cfg' : Config) (a : SelfAdd) : Chain → Chain → List TimedRound → Prop
  | _, _, [] => True
  | c, d, r :: log =>
    FairRound cfg cfg' a c d r ∧
      FairRun cfg cfg' a (c.decideRound cfg r.erase) (d.decideTimed cfg' a r) log

/-! ## Steps of a run -/

theorem Tracks.selfAddIf (h : Tracks a c d) {now : Bool} (hp : now = true → a.Pending c.ledger) :
    Tracks a c (d.selfAddIf a now) := by
  unfold Chain.selfAddIf
  cases now with
  | false => exact h
  | true =>
    obtain ⟨e, hs, hl, hd⟩ := h
    have hpc := hp rfl
    have hpe : a.Pending e.ledger := hpc.congr (by rw [hs.ledger.validators]) (by
      rw [hs.ledger.rest]; rfl)
    have hadded : d.ledger.selfAdd a = e.ledger.selfAdd a := by
      rcases hl with heq | ⟨-, -, heq⟩
      · rw [heq]
      · rw [heq]
        exact congrArg (fun vs => ({ e.ledger with validators := vs } : Ledger))
          (selfAdd_selfAdd hpe.notLive)
    refine ⟨e, hs, .inr ⟨hpe, rfl, hadded⟩, ?_⟩
    show d.place (d.ledger.selfAdd a) d.persisted = _
    conv_lhs => rw [hd]
    rfl

theorem Tracks.processTimed (h : Tracks a c d) {p : ProofVerdicts}
    {steps : List (Bool × AttestedTransaction)}
    (hfair : FairTxs cfg (cfg.as self) a round c d p steps) :
    Tracks a (c.processTransactions cfg round p (steps.map (·.2))).1
        (d.processTimed (cfg.as self) a round p steps).1 ∧
      (d.processTimed (cfg.as self) a round p steps).2 =
        (c.processTransactions cfg round p (steps.map (·.2))).2 := by
  induction steps generalizing c d p with
  | nil => exact ⟨h, rfl⟩
  | cons step steps ih =>
    obtain ⟨now, atx⟩ := step
    obtain ⟨hnow, htx, hrest⟩ := hfair
    obtain ⟨hone, hsplit⟩ := (h.selfAddIf hnow).executeTx htx
    obtain ⟨hall, hresult⟩ := ih hone hrest
    rw [List.map_cons, processTransactions_cons, Chain.processTimed]
    exact ⟨hall, by rw [hresult, hsplit]⟩

theorem creditVertex_tracks (h : s.Beside (Tracks a) s') (v : BatchVertex) :
    Tracks a (creditVertex cfg s v) (creditVertex (cfg.as self) s' v) :=
  h.creditVertex cfg v fun epoch => h.chain.through (fun d => { d with
    buckets := d.buckets.creditRound epoch v.producer }) fun _ _ _ => rfl

theorem Tracks.flagVertex (h : Tracks a c d) (v : BatchVertex) (fees : UInt64) :
    Tracks a (c.flagVertex cfg v fees) (d.flagVertex (cfg.as self) v fees) := by
  refine h.through (·.flagVertex cfg v fees) fun d ledger persisted => ?_
  dsimp only [place, Chain.flagVertex, recordProducedMember]
  split <;> rfl

theorem applyVertex_tracks (h : s.Beside (Tracks a) s') {v : TimedVertex}
    (hfair : FairTxs cfg (cfg.as self) a round (creditVertex cfg s v.erase)
      (creditVertex (cfg.as self) s' v.erase) s.verdicts v.steps) :
    (applyVertex cfg round s v.erase).Beside (Tracks a)
      (applyTimedVertex (cfg.as self) a round s' v) := by
  obtain ⟨hrun, hresult⟩ := (creditVertex_tracks h v.erase).processTimed hfair
  rw [applyVertex_eq, applyTimedVertex_eq, h.verdicts]
  exact h.flagged hresult (hrun.flagVertex v.erase _)

theorem foldl_tracks (h : s.Beside (Tracks a) s') {vertices : List TimedVertex}
    (hfair : FairBatch cfg (cfg.as self) a round s s' vertices) :
    ((vertices.map TimedVertex.erase).foldl (applyVertex cfg round) s).Beside (Tracks a)
      (vertices.foldl (applyTimedVertex (cfg.as self) a round) s') := by
  induction vertices generalizing s s' with
  | nil => exact h
  | cons v vertices ih => exact ih (applyVertex_tracks h hfair.1) hfair.2

/-- A boundary does not read the metadata. -/
theorem transitionEpoch_place (c : Chain) (cfg : Config) (m : Meta) :
    (c.place c.ledger m).transitionEpoch cfg =
      (c.transitionEpoch cfg).place (c.transitionEpoch cfg).ledger m := by
  unfold Chain.transitionEpoch settleDeferredEpoch
  by_cases hepoch : c.regime.currentEpoch = 0
  · rw [if_pos hepoch, if_pos (show (c.place c.ledger m).regime.currentEpoch = 0 from hepoch)]
    rfl
  · rw [if_neg hepoch, if_neg (show ¬ (c.place c.ledger m).regime.currentEpoch = 0 from hepoch)]
    rfl

theorem Shares.calmBoundary {c e : Chain} (h : c.Shares e) (hcalm : c.CalmBoundary) :
    e.CalmBoundary := by
  constructor
  · rw [h.ledger.rest]
    exact hcalm.removals
  · rw [h.ledger.rest]
    exact hcalm.members
  · rw [h.regime]
    exact hcalm.holders

theorem boundaryBlind_of_selfAdd {st : Ledger} (hp : a.Pending st)
    (hb : (st.selfAdd a).BoundaryBlind) : st.BoundaryBlind := by
  intro v hv
  have hblind := hb v (by
    change v ∈ (st.validators.selfAdd a).all
    rw [all_selfAdd hp.notLive]
    exact List.mem_append_left _ hv)
  exact ⟨hblind.coin, hblind.positions⟩

namespace Tracks

variable (h : Tracks a c d)

include h

theorem startBatch (cfg : Config) (self : Hash) (round : UInt64) (batch : List BatchVertex) :
    (c.startBatch cfg round batch).Beside (Tracks a) (d.startBatch (cfg.as self) round batch) where
  chain := h
  verdicts := by
    unfold Chain.startBatch verifyRoundProofs Chain.node
    dsimp only
    rw [h.regime]
    rfl
  credited := rfl

/-- A boundary in the window pays the added validator nothing and leaves it out. -/
theorem transitionEpoch (cfg : Config) (self : Hash) (hfair : FairBoundary a c d) :
    Tracks a (c.transitionEpoch cfg) (d.transitionEpoch (cfg.as self)) := by
  have hcalm := hfair.calm
  have hblind' := hfair.blind'
  obtain ⟨e, hs, hl, hd⟩ := h
  rw [transitionEpoch_as]
  rcases hl with hlevel | ⟨hp, -, hahead⟩
  · rw [hlevel] at hd hblind'
    have hshares := hs.transitionEpoch cfg self hfair.blind hblind'
    rw [transitionEpoch_as] at hshares
    have hdone :=
      (congrArg (Chain.transitionEpoch cfg) hd).trans (e.transitionEpoch_place cfg d.persisted)
    refine ⟨e.transitionEpoch cfg, hshares, .inl ?_, ?_⟩
    · rw [hdone]
      rfl
    · rw [hdone]
      rfl
  · rw [hahead] at hblind'
    have hshares :=
      hs.transitionEpoch cfg self hfair.blind (boundaryBlind_of_selfAdd hp hblind')
    rw [transitionEpoch_as] at hshares
    have hcalm' := hs.calmBoundary (hcalm (isAhead_of_selfAdd hs hp hahead))
    obtain ⟨hadd, hpending⟩ := transitionEpoch_selfAdd hp hcalm' cfg
    have hd' : d = (e.selfAdd a).place (e.selfAdd a).ledger d.persisted := by
      conv_lhs => rw [hd, hahead]
      rfl
    have hdone := (congrArg (Chain.transitionEpoch cfg) hd').trans
      ((e.selfAdd a).transitionEpoch_place cfg d.persisted)
    rw [hadd] at hdone
    refine ⟨e.transitionEpoch cfg, hshares, .inr ⟨hpending, rfl, ?_⟩, ?_⟩
    · rw [hdone]
      rfl
    · rw [hdone]
      rfl

theorem written (live live' : MetaKey × Bytes) :
    Tracks a (c.writeEpochState live) (d.writeEpochState live') := by
  obtain ⟨e, hs, hl, hd⟩ := h
  obtain ⟨ledger, persisted, rfl⟩ : ∃ ledger persisted, d = e.place ledger persisted := ⟨_, _, hd⟩
  have hwritten := hs.through (·.writeEpochState live) fun _ _ => rfl
  exact ⟨e.writeEpochState live, hwritten, hl, rfl⟩

theorem accumulated (live live' : MetaKey × Bytes) :
    Tracks a (c.writeAccumulators live) (d.writeAccumulators live') := by
  obtain ⟨e, hs, hl, hd⟩ := h
  obtain ⟨ledger, persisted, rfl⟩ : ∃ ledger persisted, d = e.place ledger persisted := ⟨_, _, hd⟩
  have hwritten := hs.through (·.writeAccumulators live) fun _ _ => rfl
  exact ⟨e.writeAccumulators live, hwritten, hl, rfl⟩

theorem advanceCommitCursor (cfg : Config) (self : Hash) (round : UInt64)
    (hfair : cfg.isEpochBoundary round = true → FairBoundary a c d) :
    Tracks a (c.advanceCommitCursor cfg round) (d.advanceCommitCursor (cfg.as self) round) := by
  have hmoved :
      Tracks a { c with lastCommitted := round + 1 } { d with lastCommitted := round + 1 } :=
    h.through (fun d => { d with lastCommitted := round + 1 }) fun _ _ _ => rfl
  have hdirty : (d.regimeDirty || d.producedDirty) = (c.regimeDirty || c.producedDirty) :=
    h.field (fun c => c.regimeDirty || c.producedDirty) fun _ _ _ => rfl
  unfold Chain.advanceCommitCursor
  change Tracks a _ (if cfg.isEpochBoundary round then _ else _)
  dsimp only
  rw [hdirty]
  split
  · rename_i hround
    have hf := hfair hround
    exact (hmoved.transitionEpoch cfg self
      { hf with calm := fun hopen => { hf.calm hopen with } }).written _ _
  · split
    · exact hmoved.written _ _
    · exact hmoved.accumulated _ _

theorem decideTimed {r : TimedRound} (hfair : FairRound cfg (cfg.as self) a c d r) :
    Tracks a (c.decideRound cfg r.erase) (d.decideTimed (cfg.as self) a r) := by
  have hcursor := h.field Chain.lastCommitted fun _ _ _ => rfl
  obtain ⟨hbatch, hadds, hboundary⟩ := hfair
  have hstart := h.startBatch cfg self c.lastCommitted r.erase
  rw [hcursor] at hbatch
  have hall := (foldl_tracks hstart hbatch).chain
  have happlied : Tracks a (c.applyBatch cfg c.lastCommitted r.erase)
      (d.applyTimed (cfg.as self) a r) := by
    unfold Chain.applyTimed
    rw [hcursor, applyBatch_eq]
    exact hall.selfAddIf hadds
  unfold Chain.decideTimed Chain.decideRound
  rw [hcursor]
  exact happlied.advanceCommitCursor cfg self c.lastCommitted hboundary

end Tracks

/-! ## What the nodes agree on -/

/-- Coins, deposits, supply counters, tracker, buckets, and the members with their stakes. -/
structure SameAccounts (c d : Chain) : Prop where
  coins : ∀ id, d.ledger.single id = c.ledger.single id
  tracker : d.ledger.tracker = c.ledger.tracker
  totalSupply : d.ledger.totalSupply = c.ledger.totalSupply
  coinsTotal : d.ledger.coinsTotal = c.ledger.coinsTotal
  buckets : d.buckets = c.buckets
  members : d.ledger.committedMembers = c.ledger.committedMembers
  stakes : ∀ k ∈ c.ledger.committedMembers, d.ledger.validators.get k = c.ledger.validators.get k

theorem Tracks.sameAccounts (h : Tracks a c d) : SameAccounts c d := by
  have hbuckets := h.field Chain.buckets fun _ _ _ => rfl
  have hmembers := h.members
  have hget := h.get_member
  obtain ⟨e, hs, hl, -⟩ := h
  refine ⟨fun id => ?_, hl.tracker.trans hs.ledger.tracker, ?_, ?_, hbuckets, hmembers, hget⟩
  · exact (hl.field (·.single id) fun _ _ => rfl).trans (hs.singles id)
  · exact (hl.field Ledger.totalSupply fun _ _ => rfl).trans hs.ledger.totalSupply
  · exact (hl.field Ledger.coinsTotal fun _ _ => rfl).trans hs.ledger.coinsTotal

theorem sameAccounts_roundEnds {log : List TimedRound} (h : Tracks a c d)
    (hfair : FairRun cfg (cfg.as self) a c d log) :
    List.Forall₂ SameAccounts (roundEnds (decideRound cfg) c (log.map TimedRound.erase))
      (roundEnds (decideTimed (cfg.as self) a) d log) := by
  induction log generalizing c d with
  | nil => exact .nil
  | cons r log ih =>
    have hround := h.decideTimed hfair.1
    exact .cons hround.sameAccounts (ih hround hfair.2)

/-- A node that adds its own key while it is not registered, at any points of any log that
is fair to it, agrees with a node that does not after every round. -/
theorem self_add_leaves_accounts (cfg : Config) (self : Hash) (a : SelfAdd) (c d : Chain)
    (log : List TimedRound) (h : c.Shares d) (hfair : FairRun cfg (cfg.as self) a c d log) :
    List.Forall₂ SameAccounts (roundEnds (decideRound cfg) c (log.map TimedRound.erase))
      (roundEnds (decideTimed (cfg.as self) a) d log) :=
  sameAccounts_roundEnds (.of_shares h) hfair

/-- A second node, as it adds itself. -/
def secondNode : SelfAdd where
  pubkey := idOf 2
  quicAddr := [50]

/-- The founder's round with one transaction, before which the second node adds itself. -/
def joiningRound (atx : AttestedTransaction) : TimedRound where
  vertices := [{ hash := idOf 20, round := 0, producer := idOf 1, steps := [(true, atx)] }]

/-- The second node adds itself before the founder's call, which creates a singleton. -/
theorem self_add_leaves_accounts_founder :
    let c := ({} : Disk).start foundedConfig
    let log := [joiningRound founderCall]
    List.Forall₂ SameAccounts (roundEnds (decideRound foundedConfig) c (log.map TimedRound.erase))
      (roundEnds (decideTimed (foundedConfig.as (idOf 2)) secondNode) c log) := by
  intro c log
  have hvacant : c.ledger.single (createdID (soloNode (podReturning {}))
      (founderCall.transaction.get rfl) 0) = none := by decide +kernel
  have hblind : ∀ {d : Chain} {round : UInt64} {verdict : Option ProofError} (self : Hash),
      d.ledger.single (createdID (soloNode (podReturning {}))
        (founderCall.transaction.get rfl) 0) = none →
      d.BlindTx (foundedConfig.as self) founderCall round verdict := by
    intro d round verdict self hvacant
    have hpod : ¬ ((founderCall.transaction.get rfl).pod == (idOf 200).val) = true := by
      decide +kernel
    refine blindTx_of_other_pod rfl hpod (fun id hid => by cases hid)
      ⟨fun i hi j hj _ => (Nat.lt_one_iff.1 hi).trans (Nat.lt_one_iff.1 hj).symm, fun i hi => ?_,
        fun i hi o ho => by cases ho⟩ fun hsh => absurd hsh.1 (by decide +kernel)
    rw [Nat.lt_one_iff.1 hi]
    exact hvacant
  apply self_add_leaves_accounts foundedConfig (idOf 2) secondNode c c log (.refl c)
  refine ⟨⟨⟨⟨?_, ?_, trivial⟩, trivial⟩, ?_, ?_⟩, trivial⟩
  · exact fun _ => ⟨by decide +kernel, by decide +kernel⟩
  · refine ⟨hblind (idOf 1) hvacant, hblind (idOf 2) hvacant, ?_⟩
    intro _ tx hin
    obtain rfl := Option.some.inj hin.transaction
    have hother : ∀ nd : Node, nd.systemPod = idOf 200 → ∀ fn,
        ¬ nd.isSystemFunc (founderCall.transaction.get rfl) fn = true := by
      intro nd hsystem fn hfn
      have hpod := (Bool.and_eq_true_iff.1 hfn).1
      rw [hsystem] at hpod
      exact absurd hpod (by decide +kernel)
    have hcovers : ∀ n, n = 1 ∨ n = 2 → defaultFeeParams.Covers n := by
      rintro n (rfl | rfl) <;> exact ⟨by decide, by decide⟩
    have hone : c.ledger.validators.len = 1 := by decide +kernel
    have htwo : (c.ledger.selfAdd secondNode).validators.len = 2 := by decide +kernel
    have hsingle : Singletons (founderCall.transaction.get rfl) founderCall :=
      ⟨fun rep hrep => List.mem_singleton.1 hrep, fun r hr => by cases hr⟩
    exact {
      fees := fun _ =>
        Ledger.feeParts_selfAdd (hcovers _ (.inl hone)) (hcovers _ (.inr htwo)) hsingle
      deposits := fun input out hout o ho => by
        obtain rfl := Option.some.inj (Except.ok.inj hout)
        cases ho
      registers := fun hfn => absurd hfn (hother _ rfl _)
      stakes := {
        bond := fun _ _ _ hparse =>
          absurd (Ledger.parseStakeTx_some hparse).1 (hother _ rfl _)
        delegate := fun _ _ _ _ hparse =>
          absurd (Ledger.parseDelegateTx_some hparse).1 (hother _ rfl _) } }
  · exact fun h => by cases h
  · exact fun h => absurd h (show ¬ foundedConfig.isEpochBoundary 0 = true by decide)

/-- The founder's call with an object of replication one. -/
def replicatedCall : AttestedTransaction where
  transaction := some (signedTx
    { sender := (idOf 1).val
      pod := (idOf 7).val
      functionName := ascii "create"
      gasCoin := (idOf 11).val
      maxGas := 100
      createdObjectsReplication := [1] })

/-- The second node computes the storage fee over two validators, the founder over one. -/
theorem self_add_lowers_storage_fee :
    let c := ({} : Disk).start foundedConfig
    let r := joiningRound replicatedCall
    c.Shares c ∧ secondNode.Pending c.ledger ∧
      (c.decideRound foundedConfig r.erase).ledger.balanceOf (idOf 11) ≠
        (c.decideTimed (foundedConfig.as (idOf 2)) secondNode r).ledger.balanceOf (idOf 11) := by
  refine ⟨.refl _, ⟨by decide +kernel, by decide +kernel⟩, by decide +kernel⟩

end Chain

end BluePods
