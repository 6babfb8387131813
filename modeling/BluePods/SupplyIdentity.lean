import BluePods.Conservation

/-! The supply identity over one whole transaction. Every way out of the commit path
keeps it, up to two leaks: the rejections after the fee stage return the split without the
withheld deposit, and a debit or a payout may go past what the counters have. -/

namespace BluePods
namespace Ledger

variable {st st' : Ledger} {nd : Node} {tx : Transaction} {atx : AttestedTransaction} {x e : Nat}
  {p : FeeParams}

namespace Books

/-! ## Deletions and declared operations -/

theorem burn {amount : UInt64} (h : st.Books (x + amount.toNat) e)
    (hle : st.tracker.deposits + amount.toNat ≤ st.totalSupply.toNat) :
    (st.subSupply amount).Books x e := by
  obtain ⟨hsum, hroom, -⟩ := h
  constructor
  · simp only [held, toNat_subSupply, subSupply_coinsTotal, subSupply_validators,
      subSupply_tracker] at hsum ⊢
    omega
  · rw [toNat_subSupply]
    omega
  · rw [toNat_subSupply, subSupply_tracker]
    omega

section

variable (hp : p.WellFormed) (h : st.Books x e)

include hp h

theorem settleDeletion (objID : Hash) (gasCoinID : Option Hash) :
    (st.settleDeletion p objID gasCoinID).1.Books x e := by
  obtain ⟨hsum, hroom, hdeposits⟩ := h
  have hdep := st.tracker.deposits_deleteObject objID
  have hfreed : Books { st with tracker := st.tracker.deleteObject objID }
      (x + (st.tracker.getFees objID).toNat) e := by
    refine ⟨?_, hroom, by dsimp only; omega⟩
    simp only [held] at hsum ⊢
    omega
  rcases st.settleDeletion_cases p objID gasCoinID with
    ⟨hzero, heq⟩ | heq | ⟨coin, st₁, -, hcredit, heq⟩
  · simpa [heq, hzero] using hfreed
  · rw [heq]
    exact hfreed.burn (by dsimp only; omega)
  · have hle : (bpsShare (st.tracker.getFees objID) p.storageRefundBPS).toNat ≤
        (st.tracker.getFees objID).toNat := bpsShare_le hp.refund
    have hrest := UInt64.toNat_sub_of_le _ _ (UInt64.le_iff_toNat_le.2 hle)
    have hcounters := hfreed.counters
    obtain ⟨-, hsupply, -, htracker⟩ :=
      creditCoin_books hcredit (by dsimp only at hcounters ⊢; omega)
    rw [heq]
    refine (credit (x := x + (st.tracker.getFees objID -
      bpsShare (st.tracker.getFees objID) p.storageRefundBPS).toNat) ?_ hcredit).burn ?_
    · rw [hrest]
      convert hfreed using 1
      omega
    · rw [hrest, hsupply, htracker]
      dsimp only
      omega

theorem settleDeletions (tx : Transaction) (ids : List Hash) :
    (st.settleDeletions p tx ids).Books x e := by
  unfold Ledger.settleDeletions
  induction ids generalizing st with
  | nil => exact h
  | cons id ids ih => exact ih (h.settleDeletion hp id _)

theorem applyDeclaredOp (sender : Hash) (epoch : UInt64) (op : DeclaredOp) :
    (Ledger.applyDeclaredOp p tx sender epoch st op).Books x e := by
  unfold Ledger.applyDeclaredOp
  split
  · -- A reparent keeps every deposit and rewrites one body.
    unfold applyReparent
    have hdep := st.tracker.deposits_setParent (toHash op.objectID) op.targetKind (toHash op.target)
    have hmoved : Books { st with
        tracker := st.tracker.setParent (toHash op.objectID) op.targetKind (toHash op.target) }
        x e := by
      refine ⟨?_, h.room, hdep ▸ h.deposits⟩
      simpa only [held, hdep] using h.sum
    simp only
    split
    · exact hmoved
    · exact ⟨hmoved.sum, hmoved.room, hmoved.deposits⟩
  · split
    · have hsettled := h.settleDeletion hp (toHash op.objectID) tx.txGasCoinID
      exact ⟨hsettled.sum, hsettled.room, hsettled.deposits⟩
    · -- The domain kinds only write the registry.
      rw [applyDomainOp_eq]
      exact ⟨h.sum, h.room, h.deposits⟩

theorem handleDeclaredOps {epoch : UInt64} (hops : st.handleDeclaredOps p tx epoch = some st') :
    st'.Books x e := by
  simp [Ledger.handleDeclaredOps, Option.bind_eq_some_iff, -Subtype.exists] at hops
  obtain ⟨sender, -, -, -, -, rfl⟩ := hops
  induction tx.operations generalizing st with
  | nil => exact h
  | cons op ops ih => exact ih (h.applyDeclaredOp hp sender epoch op)

end

/-! ## Registration and stake -/

/-- The stake handlers behind a registration. -/
theorem staked {st₁ : Ledger} (h : st.Books x e)
    (hreg : st.handleRegisterValidator nd tx = .ok st₁)
    (hroom : st.totalSupply.toNat + (e + (st.stakeDebit nd tx - st.coinsTotal.toNat) +
      st.positionExcess nd tx) < 2 ^ 64) :
    (st₁.staked nd tx).Books x
      (e + (st.stakeDebit nd tx - st.coinsTotal.toNat) + st.positionExcess nd tx) := by
  obtain ⟨-, htracker, hsupply, hct, hbonded, hsame⟩ := handleRegisterValidator_ok hreg
  -- A stake transaction registers and deregisters nobody.
  have hstays : ∀ {s s' : Ledger}, StakeStep s nd tx s' →
      st₁.handleDeregisterValidator nd tx = st := by
    intro s s' hstep
    have hother : nd.isSystemFunc tx deregisterValidatorFunc = false :=
      hstep.not_calls (by decide)
    rw [hsame hstep.not_register, handleDeregisterValidator, hother]
    rfl
  unfold Ledger.staked
  by_cases hstep : ∃ s, StakeStep st nd tx s
  · obtain ⟨s, hstep⟩ := hstep
    rw [hstays hstep, hstep.handleStake_eq]
    exact h.stakeStep hroom hstep
  · have hnone : ∀ {handle : Option Ledger}, (∀ s, handle = some s → StakeStep st nd tx s) →
        handle = none := fun hhandle =>
      Option.eq_none_iff_forall_ne_some.2 fun s hs => hstep ⟨s, hhandle s hs⟩
    have hidle : st.stakeDebit nd tx = 0 ∧ st.positionExcess nd tx = 0 := by
      simp [stakeDebit, positionExcess, hnone fun _ => .bond, hnone fun _ => .delegate,
        hnone fun _ => .undelegate]
    rw [hidle.1, hidle.2, Nat.zero_sub]
    rcases handleStake_cases (st₁.handleDeregisterValidator nd tx) nd tx with heq | hstep'
    · rw [heq, handleDeregisterValidator_eq]
      exact ⟨by simpa [held, htracker, hsupply, hct, hbonded] using h.sum,
        by simpa [hsupply] using h.room, by simpa [htracker, hsupply] using h.deposits⟩
    · rw [hstays hstep'] at hstep'
      exact absurd ⟨_, hstep'⟩ hstep

end Books

/-! ## The checks behind the fee -/

/-- The checks between the fee and the pod call reject the transaction. -/
def Rejects (st : Ledger) (nd : Node) (atx : AttestedTransaction) (tx : Transaction) : Prop :=
  st.validateMutableRefOwnership atx tx = false ∨ unprovenRegistration nd tx = true ∨
    st.deletesParent tx = true

instance (st : Ledger) (nd : Node) (atx : AttestedTransaction) (tx : Transaction) :
    Decidable (st.Rejects nd atx tx) :=
  inferInstanceAs (Decidable (_ ∨ _ ∨ _))

theorem deletesParent_congr (tx : Transaction)
    (h : ∀ id, st'.tracker.childCount id = st.tracker.childCount id) :
    st'.deletesParent tx = st.deletesParent tx := by
  simp only [deletesParent, h]

theorem rejects_deductFees :
    (st.feeStage nd tx atx).ledger.Rejects nd atx tx ↔ st.Rejects nd atx tx := by
  have hdel : (st.feeStage nd tx atx).ledger.deletesParent tx =
      st.deletesParent tx :=
    deletesParent_congr tx fun id => by
      rw [((st.admitted tx).deductFees_frame nd tx atx).1, admitted_tracker,
        Tracker.childCount_incrementMutableObjects]
  rw [Rejects, Rejects, validateMutableRefOwnership_charged, hdel]

/-- What the stake handlers move past the counters, if the transaction gets to them. -/
def stakeExcess (st : Ledger) (nd : Node) (atx : AttestedTransaction) (tx : Transaction) : Nat :=
  if st.validateMutableRefOwnership atx tx = true then
    (st.stakeDebit nd tx - st.coinsTotal.toNat) + st.positionExcess nd tx
  else 0

/-- The settlement stage keeps the books on every way out, and its rejections are those
of the three checks. -/
theorem Books.settleTx (tx : Transaction) (atx : AttestedTransaction) (split : FeeSplit)
    (hp : nd.feeParams.WellFormed) (h : st.Books x e)
    (hroom : st.totalSupply.toNat + (e + st.stakeExcess nd atx tx) < 2 ^ 64) :
    (∃ ledger exit, st.settleTx nd tx atx split = .error { ledger, split, exit } ∧
        exit ≠ .executed ∧ (exit ≠ .panicked → ledger.Books x (e + st.stakeExcess nd atx tx) ∧
          (st.Rejects nd atx tx ∨
            ¬ st.Rejects nd atx tx ∧ tx.createdObjectsReplication = []))) ∨
      ∃ st₃, st.settleTx nd tx atx split = .ok st₃ ∧
        st₃.Books x (e + st.stakeExcess nd atx tx) ∧ ¬ st.Rejects nd atx tx := by
  rcases st.settleTx_cases nd tx atx split with
    ⟨hown, heq⟩ | ⟨hown, ⟨-, heq⟩ | ⟨hun, heq⟩ | ⟨st₁, hreg, hun, hrest⟩⟩
  · refine .inl ⟨st, _, heq, by decide, fun _ => ⟨?_, .inl (.inl hown)⟩⟩
    simpa [stakeExcess, hown] using h
  · exact .inl ⟨st, _, heq, by decide, fun hne => absurd rfl hne⟩
  · refine .inl ⟨st, _, heq, by decide, fun _ => ⟨?_, .inl (.inr (.inl hun))⟩⟩
    -- a registration moves no stake
    have hf : nd.isSystemFunc tx registerValidatorFunc = true :=
      (Bool.and_eq_true_iff.1 hun).1
    simpa [stakeExcess, stakeDebit, positionExcess,
      eq_none_of_other (fun _ => handleBond_func) hf (by decide),
      eq_none_of_other (fun _ => handleDelegate_func) hf (by decide),
      eq_none_of_other (fun _ => handleUndelegate_func) hf (by decide)] using h
  · rw [stakeExcess, if_pos hown, ← Nat.add_assoc e] at hroom ⊢
    have hstaked := h.staked hreg hroom
    have hdel : (st₁.staked nd tx).deletesParent tx = st.deletesParent tx :=
      deletesParent_congr tx fun id => by
        rw [staked_tracker, (handleRegisterValidator_ok hreg).2.1]
    have hnot : st.deletesParent tx = false → ¬ st.Rejects nd atx tx := by
      rintro hno (hc | hc | hc)
      · simp [hown] at hc
      · simp [hun] at hc
      · simp [hno] at hc
    simp only [hdel] at hrest
    rcases hrest with ⟨hchild, heq⟩ | ⟨hchild, ⟨hempty, heq⟩ | heq⟩
    · exact .inl ⟨_, _, heq, by decide, fun _ => ⟨hstaked, .inl (.inr (.inr hchild))⟩⟩
    · exact .inl ⟨_, _, heq, by decide, fun _ =>
        ⟨hstaked.settleDeletions hp tx _, .inr ⟨hnot hchild, hempty⟩⟩⟩
    · exact .inr ⟨_, heq, hstaked.settleDeletions hp tx _, hnot hchild⟩

theorem Books.poolUnlockedStorage {split : FeeSplit} {withheld : UInt64}
    (h : st.Books (x + split.epoch.toNat + split.burned.toNat + withheld.toNat) e) :
    st.Books (x + (poolUnlockedStorage split withheld).epoch.toNat +
      (poolUnlockedStorage split withheld).burned.toNat) e := by
  have hlt := h.counters
  have hroom := h.room
  have hepoch : (BluePods.poolUnlockedStorage split withheld).epoch.toNat =
      split.epoch.toNat + withheld.toNat := by
    simp only [BluePods.poolUnlockedStorage, toNat_safeAdd]
    omega
  rw [hepoch]
  convert h using 1
  simp only [BluePods.poolUnlockedStorage]
  omega

/-! ## The whole transaction -/

/-- What a transaction moves past the counters: what fee and stake take from coins and
`coins_total` does not have, and what a position pays out and no delegated total has. -/
def uncounted (st : Ledger) (nd : Node) (atx : AttestedTransaction) (tx : Transaction) : Nat :=
  (st.feeTaken nd tx atx - st.coinsTotal.toNat) +
    if (st.feeStage nd tx atx).proceed = true ∧ tx.operations = [] then
      (st.feeStage nd tx atx).ledger.stakeExcess nd atx tx
    else 0

/-- The deposit a rejection behind the fee leaves in nobody's hands. -/
def dropped (st : Ledger) (nd : Node) (atx : AttestedTransaction) (tx : Transaction) : Nat :=
  if tx.operations = [] ∧ st.Rejects nd atx tx then st.lockedDeposit nd tx atx else 0

theorem feeTaken_admitted : (st.admitted tx).feeTaken nd tx atx = st.feeTaken nd tx atx ∧
    (st.admitted tx).lockedDeposit nd tx atx = st.lockedDeposit nd tx atx := by
  have htaken : (st.admitted tx).feeTaken nd tx atx = st.feeTaken nd tx atx := by
    simp [feeTaken, wholeFee, feeParts, holding, validateGasCoin, getObject]
  have hparts : (st.admitted tx).feeParts nd tx atx = st.feeParts nd tx atx := by
    simp [feeParts]
  exact ⟨htaken, by rw [lockedDeposit, wholeFee, htaken, hparts]; rfl⟩

theorem withheld_of_not_proceed (h : (st.deductFees nd tx atx).proceed = false) :
    (st.deductFees nd tx atx).withheld = 0 := by
  rcases st.deductFees_cases nd tx atx with
    ⟨proceed, heq⟩ | ⟨coin, o, balance, taken, -, -, ⟨-, heq⟩ | ⟨total, heq⟩⟩
  · simp [heq]
  · simp [heq] at h
  · simp [heq]

/-- The books after a transaction that ran no pod. -/
theorem Admits.books {commitRound : Nat} {verdict : Option ProofError}
    (hadm : st.Admits nd atx commitRound verdict tx) (hp : nd.feeParams.WellFormed)
    (h : st.Accounts x) (hroom : st.totalSupply.toNat + st.uncounted nd atx tx < 2 ^ 64)
    (hrun : (st.executeTx nd atx commitRound verdict).exit ≠ .executed)
    (hpanic : (st.executeTx nd atx commitRound verdict).exit ≠ .panicked) :
    let out := st.executeTx nd atx commitRound verdict
    out.ledger.Books (x + out.split.epoch.toNat + out.split.burned.toNat + st.dropped nd atx tx)
      (st.uncounted nd atx tx) := by
  rcases st.prepareTx_cases nd atx commitRound verdict with
    ⟨marks, exit, -, heq, hno⟩ | ⟨tx', hadm', hstages⟩
  · exact absurd hadm (hno tx)
  obtain rfl := Option.some.inj (hadm.transaction.symm.trans hadm'.transaction)
  have hadmitted : (st.admitted tx).Accounts x := by
    simpa [Accounts, held, Tracker.deposits_incrementMutableObjects] using h
  have hfee : (st.admitted tx).totalSupply.toNat + ((st.admitted tx).feeTaken nd tx atx -
      (st.admitted tx).coinsTotal.toNat) < 2 ^ 64 := by
    rw [feeTaken_admitted.1, admitted_totalSupply, admitted_coinsTotal]
    unfold uncounted at hroom
    omega
  obtain ⟨hfees, hsupply⟩ := hadmitted.books.deductFees hp atx hfee
  rw [feeTaken_admitted.1, admitted_coinsTotal] at hfees
  rw [admitted_totalSupply] at hsupply
  have hlocked := ((st.admitted tx).deductFees_taken tx atx hp).2.1
  rw [feeTaken_admitted.2] at hlocked
  simp only at hstages
  rcases hstages with ⟨hproceed, heq⟩ | ⟨-, hops, heq⟩ | ⟨hproceed, hops, heq⟩
  · -- A fee that does not go through withholds nothing.
    have hdropped : st.dropped nd atx tx = 0 := by
      rw [dropped, ← hlocked, withheld_of_not_proceed hproceed]
      simp
    simp only [Ledger.executeTx, heq, uncounted, hproceed, hdropped]
    simpa [withheld_of_not_proceed hproceed] using hfees
  · -- Declared operations pool the deposit whether they apply or not.
    simp only [Ledger.executeTx, heq, commitDeclaredOps, uncounted, dropped, hops, and_false,
      false_and, if_false, Nat.add_zero]
    refine Books.poolUnlockedStorage ?_
    split_ifs
    · exact hfees
    · cases happly : (st.feeStage nd tx atx).ledger.handleDeclaredOps
          nd.feeParams tx (UInt64.ofNat (nd.epochs.commitEpochForRound commitRound)) with
      | none => exact hfees
      | some st' => exact hfees.handleDeclaredOps hp happly
  · have huncounted : st.uncounted nd atx tx = (st.feeTaken nd tx atx - st.coinsTotal.toNat) +
        (st.feeStage nd tx atx).ledger.stakeExcess nd atx tx := by
      rw [uncounted, if_pos ⟨hproceed, hops⟩]
    rw [huncounted] at hroom ⊢
    rcases hfees.settleTx tx atx (st.feeStage nd tx atx).split hp (hsupply ▸ hroom) with
      ⟨ledger, exit, hset, hexit, hrest⟩ | ⟨st₃, hset, hbooks, hnot⟩
    · rw [hset] at heq
      simp only [Ledger.executeTx, heq, Except.map] at hpanic ⊢
      obtain ⟨hbooks, hrej⟩ := hrest hpanic
      rw [rejects_deductFees] at hrej
      rcases hrej with hrej | ⟨hrej, hempty⟩
      · rw [dropped, if_pos ⟨hops, hrej⟩, ← hlocked]
        exact hbooks
      · have hzero : (st.feeStage nd tx atx).withheld.toNat = 0 := by
          rw [hlocked, lockedDeposit]
          simp [feeParts, calculateTxFeeSplit_withheld_of_empty hempty]
        rw [dropped, if_neg fun h => hrej h.2]
        simpa [hzero] using hbooks
    · rw [hset] at heq
      simp only [Ledger.executeTx, heq, Except.map, runPod] at hrun ⊢
      rw [rejects_deductFees] at hnot
      rw [dropped, if_neg fun h => hnot h.2, Nat.add_zero]
      cases hexec : st₃.execute nd tx atx with
      | ok st' => simp [hexec] at hrun
      | error e => exact hbooks.poolUnlockedStorage

end Ledger

/-! ## A rejected creation -/

/-- A pod that reports an error to every call. -/
def failingNode : Node := soloNode (podReturning { error := 1 })

/-- The first user pays for an object and names the second user's coin. The rejection
keeps the deposit: it is in no coin, no tracker entry and no split. -/
theorem ownershipRejection_drops_deposit :
    let out := soloLedger.executeTx failingNode (creatingTx (idOf 12) [0]) 0 none
    soloLedger.Accounts 0 ∧ out.exit = .ownership ∧
      ¬ out.ledger.Accounts (out.split.epoch.toNat + out.split.burned.toNat) := by
  decide +kernel

/-- On every way out of a transaction that ran no pod the supply identity holds again, with
the epoch part in flight and the burned part off the supply, exactly when the transaction
is turned away at the gates or drops as much of a deposit as it moves past the counters. -/
theorem supplyIdentity_iff_dropped_eq_uncounted (st : Ledger) (nd : Node)
    (atx : AttestedTransaction) (commitRound : Nat) (verdict : Option ProofError)
    (feesInFlight : Nat) (hp : nd.feeParams.WellFormed) (h : st.Accounts feesInFlight)
    (hroom : ∀ tx, st.Admits nd atx commitRound verdict tx →
      st.totalSupply.toNat + st.uncounted nd atx tx < 2 ^ 64)
    (hrun : (st.executeTx nd atx commitRound verdict).exit ≠ .executed)
    (hpanic : (st.executeTx nd atx commitRound verdict).exit ≠ .panicked) :
    let out := st.executeTx nd atx commitRound verdict
    (out.ledger.held + (feesInFlight + out.split.epoch.toNat) : Int) =
        out.ledger.totalSupply.toNat - out.split.burned.toNat ↔
      ∀ tx, st.Admits nd atx commitRound verdict tx →
        st.dropped nd atx tx = st.uncounted nd atx tx := by
  by_cases hadmits : ∃ tx, st.Admits nd atx commitRound verdict tx
  · obtain ⟨tx, hadm⟩ := hadmits
    have hbooks := (hadm.books hp h (hroom tx hadm) hrun hpanic).sum
    dsimp only at hbooks ⊢
    constructor
    · intro hafter tx' hadm'
      obtain rfl := Option.some.inj (hadm.transaction.symm.trans hadm'.transaction)
      omega
    · intro hequal
      have := hequal tx hadm
      omega
  · refine iff_of_true ?_ fun tx hadm => absurd ⟨tx, hadm⟩ hadmits
    rcases st.prepareTx_cases nd atx commitRound verdict with
      ⟨marks, exit, -, heq, -⟩ | ⟨tx, hadm, -⟩
    · simp only [Ledger.Accounts, Ledger.executeTx, heq] at h ⊢
      simp only [Ledger.held] at h ⊢
      simp
      omega
    · exact absurd ⟨tx, hadm⟩ hadmits

/-- The execution error drops nothing and takes nothing past a counter. -/
theorem supplyIdentity_iff_dropped_eq_uncounted_failing :
    let out := soloLedger.executeTx failingNode (creatingTx (idOf 11) [0]) 0 none
    (out.ledger.held + ((0 : Nat) + out.split.epoch.toNat) : Int) =
      out.ledger.totalSupply.toNat - out.split.burned.toNat := by
  refine (supplyIdentity_iff_dropped_eq_uncounted soloLedger failingNode (creatingTx (idOf 11) [0])
    0 none 0 defaultFeeParams_wellFormed (by decide +kernel) (fun tx hadm => ?_)
    (by decide +kernel) (by decide +kernel)).2 fun tx hadm => ?_
  · rw [← Option.some.inj hadm.transaction]
    decide +kernel
  · rw [← Option.some.inj hadm.transaction]
    decide +kernel

end BluePods
