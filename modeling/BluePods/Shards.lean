import BluePods.Boundary
import BluePods.Touch

/-! The keys of the live validators. Object holders are drawn from keys alone, and a
transaction adds a key only by a registration of its sender. -/

namespace BluePods

namespace ValidatorSet

variable (vs : ValidatorSet) (pubkey : Hash)

def keys (vs : ValidatorSet) : List Hash := vs.all.map (·.pubkey)

theorem keys_modify (g : ValidatorInfo → ValidatorInfo) (hg : ∀ v, (g v).pubkey = v.pubkey) :
    (vs.modify pubkey g hg).keys = vs.keys :=
  Lib.Tally.map_key_update hg

theorem keys_setRewardCoin (coin : Hash) :
    (vs.setRewardCoin pubkey coin).keys = vs.keys := keys_modify vs pubkey _ _

theorem keys_add_known {vs : ValidatorSet} {pubkey : Hash} (h : pubkey ∈ vs.keys)
    (quicAddr : Bytes) (blsPubkey : BLSKey) :
    (vs.add pubkey quicAddr blsPubkey).keys = vs.keys := by
  unfold keys at h
  unfold add
  rw [dif_pos h]
  exact keys_modify ..

end ValidatorSet

theorem computeHolders_congr (cr : Crypto) {vs vs' : ValidatorSet} (h : vs'.keys = vs.keys) :
    computeHolders cr vs' = computeHolders cr vs := by
  funext id replication
  unfold computeHolders
  rw [show vs'.all.map (·.pubkey) = vs.all.map (·.pubkey) from h]

theorem Config.isHolder_congr (cfg : Config) {vs vs' : ValidatorSet} (h : vs'.keys = vs.keys) :
    cfg.isHolder vs' = cfg.isHolder vs := by
  funext id replication
  unfold isHolder
  rw [computeHolders_congr cfg.crypto h]

/-! ## Stages that keep the validators -/

namespace Ledger

variable (st : Ledger) (nd : Node)

theorem settleDeletions_validators (p : FeeParams) (tx : Transaction) (ids : List Hash) :
    (st.settleDeletions p tx ids).validators = st.validators :=
  congrArg Frame.validators (frame_of_withFrame st (·.settleDeletions p tx ids) fun st fr =>
    withFrame_settleDeletions st fr p tx ids)

theorem commitDeclaredOps_validators (tx : Transaction) (commitRound : Nat) (split : FeeSplit)
    (withheld : UInt64) :
    (st.commitDeclaredOps nd tx commitRound split withheld).ledger.validators = st.validators :=
  congrArg Frame.validators (frame_of_withFrame st
    (fun st => (st.commitDeclaredOps nd tx commitRound split withheld).ledger) fun st fr =>
      congrArg Outcome.ledger
        (withFrame_commitDeclaredOps st fr nd tx commitRound split withheld))

theorem runPod_validators (tx : Transaction) (atx : AttestedTransaction) (split : FeeSplit)
    (withheld : UInt64) :
    (st.runPod nd tx atx split withheld).ledger.validators = st.validators := by
  unfold runPod
  cases h : st.execute nd tx atx with
  | ok st' => exact (execute_onlyBodies h).validators
  | error e => rfl

/-! ## Stages that keep the keys -/

theorem handleStake_keys (tx : Transaction) :
    (st.handleStake nd tx).validators.keys = st.validators.keys := by
  refine handleStake_rule (P := fun s => s.validators.keys = st.validators.keys) rfl
    (fun _ _ _ _ hd => by rw [strictDebit_validators hd])
    (fun _ _ _ _ hc => by rw [(creditCoin_frame hc).1]) (fun _ _ _ _ _ _ _ h => h)
    (fun _ _ h => h) fun s pubkey g hg h => ?_
  exact (s.validators.keys_modify pubkey g hg).trans h

/-- The transaction registers nobody, or a validator that is live already. -/
def RegistersKnown (nd : Node) (st : Ledger) (tx : Transaction) : Prop :=
  nd.isSystemFunc tx registerValidatorFunc = true →
    ∀ pubkey, hash32 tx.sender = some pubkey → pubkey ∈ st.validators.keys

theorem handleRegisterValidator_keys {st st' : Ledger} {nd : Node} {tx : Transaction}
    (h : st.handleRegisterValidator nd tx = .ok st') (hknown : st.RegistersKnown nd tx) :
    st'.validators.keys = st.validators.keys := by
  rcases handleRegisterValidator_inv h with rfl | ⟨pubkey, _, _, hr, rfl⟩
  · rfl
  · have hin := hknown hr.call pubkey hr.sender
    unfold registered
    dsimp only
    split
    · rw [ValidatorSet.keys_setRewardCoin, ValidatorSet.keys_add_known hin]
    · rw [ValidatorSet.keys_add_known hin]

theorem staked_keys (tx : Transaction) :
    (st.staked nd tx).validators.keys = st.validators.keys := by
  rw [staked, handleStake_keys, handleDeregisterValidator_eq]

theorem executeTx_keys (atx : AttestedTransaction) (commitRound : Nat) (verdict : Option ProofError)
    (hknown : ∀ tx, atx.transaction = some tx → st.RegistersKnown nd tx) :
    (st.executeTx nd atx commitRound verdict).ledger.validators.keys = st.validators.keys := by
  apply executeTx_rule (P := fun s => s.validators.keys = st.validators.keys)
  · intro out hout
    obtain ⟨marks, heq⟩ := admitTx_error hout
    rw [heq]
  · intro tx _
    rw [admitted_validators]
  · intro s tx h
    rw [(deductFees_frame s nd tx atx).2, h]
  · intro s tx split withheld h
    rw [commitDeclaredOps_validators, h]
  · intro s s' tx htx hreg h
    rw [handleRegisterValidator_keys hreg, h]
    intro hfunc pubkey hsender
    rw [h]
    exact hknown tx htx hfunc pubkey hsender
  · intro s tx h
    rw [staked_keys, h]
  · intro s tx ids h
    rw [settleDeletions_validators, h]
  · intro s tx split withheld h
    rw [runPod_validators, h]

end Ledger

end BluePods
