import BluePods.Debits

/-! Who a debit before the pod call is charged to. Fees come off a coin of the payer;
stake comes off whatever coin the first mutable reference names, and that coin's owner
is read from the wrapper before it is read from the store. -/

namespace BluePods

variable {nd : Node} {tx : Transaction}

/-! ## Whose coin -/

/-- The owner a transaction may spend from: its sender, or the sponsor that pays. -/
def Transaction.SpendsFor (tx : Transaction) (owner : Bytes) : Prop :=
  owner = tx.sender ∨ tx.isSponsored = true ∧ owner = tx.feePayer

/-- The transaction spends for the owner, and that key signed its body. -/
def Node.SignedFor (nd : Node) (tx : Transaction) (owner : Bytes) : Prop :=
  let hash := (bodyHash nd.crypto nd.unsignedTxBytes tx).val
  (owner = tx.sender ∧ nd.crypto.ed25519Verify tx.sender hash tx.signature = true) ∨
    tx.isSponsored = true ∧ owner = tx.feePayer ∧
      nd.crypto.ed25519Verify tx.feePayer hash tx.sponsorSignature = true

theorem Node.signedFor_iff {owner : Bytes}
    (h : verifyTxAuthenticity nd.crypto nd.unsignedTxBytes tx = .ok ()) :
    nd.SignedFor tx owner ↔ tx.SpendsFor owner := by
  have hauth := verifyTxAuthenticity_ok h
  constructor
  · rintro (⟨ho, -⟩ | ⟨hs, ho, -⟩)
    · exact .inl ho
    · exact .inr ⟨hs, ho⟩
  · rintro (ho | ⟨hs, ho⟩)
    · exact .inl ⟨ho, by rw [hauth.hash]; exact hauth.senderSigned⟩
    · exact .inr ⟨hs, ho, by rw [hauth.hash]; exact hauth.sponsorSigned hs⟩

namespace Ledger

variable {st : Ledger} {o : Object} {atx : AttestedTransaction} {commitRound : Nat}
  {verdict : Option ProofError} {c : Hash} {b : UInt64}

theorem spendsFor_of_validateGasCoin {coin : Hash} (h : st.validateGasCoin tx coin = true)
    (ho : st.getObject coin = some o) : tx.SpendsFor o.owner := by
  obtain ⟨o', ho', -, payer, hpayer, howner⟩ := validateGasCoin_eq_true.1 h
  obtain rfl := Option.some.inj (ho.symm.trans ho')
  have hkey : o.owner = tx.payer :=
    (hash32_eq_some.1 howner).trans (hash32_eq_some.1 hpayer).symm
  unfold Transaction.payer at hkey
  split_ifs at hkey with hs
  · exact .inr ⟨hs, hkey⟩
  · exact .inl hkey

/-- A stored singleton of somebody else that a stake handler takes from. -/
structure Misspends (st : Ledger) (nd : Node) (atx : AttestedTransaction) (commitRound : Nat)
    (verdict : Option ProofError) (tx : Transaction) (c : Hash) (o : Object) (b : UInt64) :
    Prop where
  admits : st.Admits nd atx commitRound verdict tx
  noOperations : tx.operations = []
  feeClears : st.FeeClears nd tx atx
  owned : st.validateMutableRefOwnership atx tx = true
  stored : st.getObject c = some o
  singleton : o.replication = 0
  balance : o.balance = some b
  takes : st.StakeTakes nd tx (st.spendable nd tx atx) c b
  foreign : ¬ tx.SpendsFor o.owner

theorem misspends_of_lower {b' : UInt64} (ho : st.getObject c = some o) (hrep : o.replication = 0)
    (hb : o.balance = some b) (hb' : (st.prepared nd atx commitRound verdict).balanceOf c = some b')
    (hlt : b' < b) :
    ∃ tx, st.Admits nd atx commitRound verdict tx ∧
      (tx.SpendsFor o.owner ∨ st.Misspends nd atx commitRound verdict tx c o b) := by
  have hbal : st.balanceOf c = some b := by rw [balanceOf_of_get ho, hb]
  have hsame : ∀ {st₁ : Ledger}, st₁.balanceOf c = some b →
      NoDebit st₁ (st.prepared nd atx commitRound verdict) → False := by
    intro st₁ hb₁ hnd
    obtain ⟨b₀, hb₀, hle⟩ := hnd c b' hb'
    obtain rfl := Option.some.inj (hb₁.symm.trans hb₀)
    exact absurd hlt (UInt64.not_lt.2 hle)
  rcases st.prepared_cases nd atx commitRound verdict with
    ⟨hobjects, -⟩ | ⟨tx, hadm, hstages⟩
  · exact (hsame hbal (.of_objects hobjects)).elim
  refine ⟨tx, hadm, ?_⟩
  by_cases hspends : tx.SpendsFor o.owner
  · exact .inl hspends
  -- A foreign coin is not the gas coin, so the fee left it alone.
  have hcharged : (st.feeStage nd tx atx).ledger.balanceOf c = some b := by
    have hget : (st.admitted tx).getObject c = some o := by simpa [getObject] using ho
    rcases (st.admitted tx).getObject_deductFees nd tx atx with
      hkeep | ⟨gas, g, balance, taken, hgas, -, hset⟩
    · rw [balanceOf, hkeep, hget, Option.bind_some, hb]
    · have hne : c ≠ gas := by
        rintro rfl
        refine hspends (spendsFor_of_validateGasCoin (validateGasCoin_eq_true.2
          ⟨g, hgas.stored, hgas.singleton, hgas.owner⟩) hget)
      rw [balanceOf, hset, if_neg hne, hget, Option.bind_some, hb]
  rcases hstages with ⟨hnd, -⟩ | ⟨hproceed, hops, heq⟩
  · exact (hsame hcharged hnd).elim
  rw [heq] at hb'
  obtain ⟨hown, htakes⟩ := stakeTakes_of_settled hcharged hb' hlt
  have hclears : st.FeeClears nd tx atx := by
    refine feeClears_admitted.1 ?_
    cases htakes with
    | bond parse =>
      exact (proceed_iff_feeClears (parseStakeTx_some parse).1 (by decide) (by decide)).1 hproceed
    | delegate parse | overwrite parse =>
      exact (proceed_iff_feeClears (parseDelegateTx_some parse).1 (by decide)
        (by decide)).1 hproceed
  rw [validateMutableRefOwnership_charged] at hown
  exact .inr ⟨hadm, hops, hclears, hown, ho, hrep, hb, (stakeTakes_deductFees hclears).1 htakes,
    hspends⟩

theorem Misspends.lower (h : st.Misspends nd atx commitRound verdict tx c o b) :
    ∃ b', (st.prepared nd atx commitRound verdict).balanceOf c = some b' ∧ b' < b := by
  have hgas : tx.txGasCoinID ≠ some c := by
    intro hc
    obtain ⟨coin, hcoin, -, hvalid, -⟩ := h.feeClears
    obtain rfl := Option.some.inj (hc.symm.trans hcoin)
    exact h.foreign (spendsFor_of_validateGasCoin hvalid h.stored)
  obtain ⟨hproceed, hbal⟩ := deductFees_of_feeClears (feeClears_admitted.2 h.feeClears)
  have hcharged : (st.feeStage nd tx atx).ledger.balanceOf c = some b := by
    rw [hbal, spendable_admitted, spendable, if_neg hgas, balanceOf_of_get h.stored, h.balance]
  have hown := (st.validateMutableRefOwnership_charged nd tx atx).trans h.owned
  have htakes := (stakeTakes_deductFees h.feeClears).2 h.takes
  rcases st.prepared_cases nd atx commitRound verdict with
    ⟨-, hno⟩ | ⟨tx', hadm, hstages⟩
  · exact absurd h.admits (hno tx)
  obtain rfl := Option.some.inj (h.admits.transaction.symm.trans hadm.transaction)
  rcases hstages with ⟨-, hstop | hops⟩ | ⟨-, -, heq⟩
  · simp [hproceed] at hstop
  · exact absurd h.noOperations hops
  · rw [heq]
    exact htakes.settled hcharged hgas hown

end Ledger

/-! ## Runs -/

/-- One transaction of a run: the node that commits it, the round, and the verdict of the
proof stage. -/
structure CommitStep where
  node : Node
  atx : AttestedTransaction
  round : Nat
  verdict : Option ProofError

namespace Ledger

/-- The ledger behind a run of transactions. -/
def run (st : Ledger) (steps : List CommitStep) : Ledger :=
  steps.foldl (fun st s => (st.executeTx s.node s.atx s.round s.verdict).ledger) st

/-- Every stored singleton balance that goes down before a pod runs is signed for by its
owner. -/
def DebitsSigned (st : Ledger) (s : CommitStep) : Prop :=
  ∀ c o b b', st.getObject c = some o → o.replication = 0 → o.balance = some b →
    (st.prepared s.node s.atx s.round s.verdict).balanceOf c = some b' → b' < b →
    ∃ tx, s.atx.transaction = some tx ∧ s.node.SignedFor tx o.owner

/-- No stake handler takes from a stored singleton of somebody else. -/
def SpendsOwn (st : Ledger) (s : CommitStep) : Prop :=
  ¬ ∃ tx c o b, st.Misspends s.node s.atx s.round s.verdict tx c o b

theorem debitsSigned_iff_spendsOwn (st : Ledger) (s : CommitStep) :
    st.DebitsSigned s ↔ st.SpendsOwn s := by
  constructor
  · rintro hsigned ⟨tx, c, o, b, h⟩
    obtain ⟨b', hb', hlt⟩ := h.lower
    obtain ⟨tx', htx', hfor⟩ := hsigned c o b b' h.stored h.singleton h.balance hb' hlt
    obtain rfl := Option.some.inj (h.admits.transaction.symm.trans htx')
    exact h.foreign ((Node.signedFor_iff h.admits.authentic).1 hfor)
  · intro hno c o b b' ho hrep hb hb' hlt
    obtain ⟨tx, hadm, hspends | hmis⟩ := misspends_of_lower ho hrep hb hb' hlt
    · exact ⟨tx, hadm.transaction, (Node.signedFor_iff hadm.authentic).2 hspends⟩
    · exact absurd ⟨tx, c, o, b, hmis⟩ hno

end Ledger

/-- Along every run of transactions, from any ledger and with any pods and wrappers, all
debits are signed for by the owners of the coins, exactly when no transaction takes stake
from a stored singleton of somebody else. -/
theorem run_debitsSigned_iff_spendsOwn (st : Ledger) (steps : List CommitStep) :
    (∀ pre s post, steps = pre ++ s :: post → (st.run pre).DebitsSigned s) ↔
      ∀ pre s post, steps = pre ++ s :: post → (st.run pre).SpendsOwn s := by
  constructor
  · intro h pre s post hsteps
    exact ((st.run pre).debitsSigned_iff_spendsOwn s).1 (h pre s post hsteps)
  · intro h pre s post hsteps
    exact ((st.run pre).debitsSigned_iff_spendsOwn s).2 (h pre s post hsteps)

/-! ## A forged wrapper -/

/-- The first user bonds out of the second user's coin. The wrapper carries an unproven
replicated entry under the coin's identifier that names the first user as the owner. -/
def forgedBond : AttestedTransaction where
  transaction := some (signedTx
    { sender := (idOf 1).val
      pod := (idOf 200).val
      functionName := bondFunc
      args := putUint64LE 500
      gasCoin := (idOf 11).val
      maxGas := 100
      mutableRefs := [{ id := (idOf 12).val }] })
  objects := [{ coinObject (idOf 12) (idOf 1) 0 with replication := 1 }]

/-- The wrapper passes the proof stage, and the second user's coin pays the bond. -/
theorem forgedBond_debits_foreign_coin :
    let nd := soloNode (podReturning {})
    let verdict := verify nd.crypto nd.epochs 0 forgedBond
    soloLedger.balanceOf (idOf 12) = some 10000 ∧
      (soloLedger.getObject (idOf 12)).map (·.owner) = some (idOf 2).val ∧
      (soloLedger.getObject (idOf 12)).map (·.replication) = some 0 ∧
      forgedBond.transaction.map (fun tx => (tx.sender, tx.isSponsored)) =
        some ((idOf 1).val, false) ∧
      (soloLedger.executeTx nd forgedBond 0 verdict).ledger.balanceOf (idOf 12) = some 9500 := by
  decide +kernel

end BluePods
