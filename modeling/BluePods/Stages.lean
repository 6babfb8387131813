import BluePods.Book
import BluePods.Debits

/-! The stages of a transaction as one rule: a property of the ledger that the gates
establish and each stage keeps holds where the transaction ends, and what it says of the
committed members and the commit marks. -/

namespace BluePods

variable {st : Ledger} {nd : Node} {atx : AttestedTransaction} {commitRound : Nat}
  {verdict : Option ProofError} {tx : Transaction}

namespace Ledger

/-- What the gates leave and every stage behind them keeps holds of the ledger a
transaction leaves. -/
theorem executeTx_rule {P : Ledger → Prop} (st : Ledger) (nd : Node) (atx : AttestedTransaction)
    (commitRound : Nat) (verdict : Option ProofError)
    (hreject : ∀ out, st.admitTx nd atx commitRound verdict = .error out → P out.ledger)
    (hgated : ∀ tx, st.Admits nd atx commitRound verdict tx → P (st.admitted tx))
    (hfees : ∀ s tx, P s → P (s.deductFees nd tx atx).ledger)
    (hops : ∀ s tx split withheld, P s →
      P (s.commitDeclaredOps nd tx commitRound split withheld).ledger)
    (hregister : ∀ s s' tx, atx.transaction = some tx → s.handleRegisterValidator nd tx = .ok s' →
      P s → P s')
    (hstaked : ∀ s tx, P s → P (s.staked nd tx))
    (hdeleted : ∀ s tx ids, P s → P (s.settleDeletions nd.feeParams tx ids))
    (hpod : ∀ s tx split withheld, P s → P (s.runPod nd tx atx split withheld).ledger) :
    P (st.executeTx nd atx commitRound verdict).ledger := by
  cases hadm : st.admitTx nd atx commitRound verdict with
  | error out =>
    simp only [executeTx, prepareTx, hadm, bind, Except.bind]
    exact hreject out hadm
  | ok r =>
    rcases st.prepareTx_cases nd atx commitRound verdict with
      ⟨marks, exit, -, heq, hno⟩ | ⟨tx, hadmits, ⟨-, heq⟩ | ⟨-, -, heq⟩ | ⟨-, -, heq⟩⟩
    · rcases st.admitTx_cases nd atx commitRound verdict with ⟨_, _, -, herr, -⟩ | ⟨tx, hadmits, -⟩
      · rw [hadm] at herr
        cases herr
      · exact absurd hadmits (hno tx)
    · simp only [executeTx, heq]
      exact hfees _ tx (hgated tx hadmits)
    · simp only [executeTx, heq]
      exact hops _ tx _ _ (hfees _ tx (hgated tx hadmits))
    · have hsettled : P ((st.feeStage nd tx atx).ledger.settled nd tx atx
          (st.feeStage nd tx atx).split) := by
        have hcharged := hfees _ tx (hgated tx hadmits)
        rcases settled_cases _ nd tx atx _ with ⟨hsame, -⟩ | ⟨-, st₁, hreg, hrest⟩
        · rw [hsame]
          exact hcharged
        · have hregistered := hregister _ st₁ tx hadmits.transaction hreg hcharged
          rcases hrest with heq | heq
          · rw [heq]
            exact hstaked _ tx hregistered
          · rw [heq]
            exact hdeleted _ tx _ (hstaked _ tx hregistered)
      unfold settled at hsettled
      rcases eq_map_cases heq with ⟨out, hs, heq⟩ | ⟨st₃, hs, heq⟩
      · rw [hs] at hsettled
        simp only [executeTx, heq]
        exact hsettled
      · rw [hs] at hsettled
        simp only [executeTx, heq]
        exact hpod _ tx _ _ hsettled

theorem admitTx_error {out : Outcome} (h : st.admitTx nd atx commitRound verdict = .error out) :
    ∃ marks, out.ledger = { st with committedTxs := marks } := by
  rcases st.admitTx_cases nd atx commitRound verdict with ⟨marks, exit, -, herr, -⟩ | ⟨tx, -, hok⟩
  · rw [h] at herr
    exact ⟨marks, by rw [Except.error.inj herr]⟩
  · rw [h] at hok
    cases hok

/-! ## Members -/

theorem staked_book (st : Ledger) (nd : Node) (tx : Transaction) :
    ∃ pending, (st.staked nd tx).book = { st.book with pendingRemovals := pending } := by
  rw [staked, book_handleStake, handleDeregisterValidator_eq]
  exact ⟨_, rfl⟩

/-- Of the books, the stages behind the gates change what a registration or a
deregistration does. -/
theorem executeTx_book {P : Book → Prop} (st : Ledger) (nd : Node) (atx : AttestedTransaction)
    (commitRound : Nat) (verdict : Option ProofError)
    (hreject : ∀ out, st.admitTx nd atx commitRound verdict = .error out → P out.ledger.book)
    (hgated : ∀ tx, st.Admits nd atx commitRound verdict tx → P (st.admitted tx).book)
    (hregister : ∀ (s s' : Ledger) tx, atx.transaction = some tx →
      s.handleRegisterValidator nd tx = .ok s' → P s.book → P s'.book)
    (hpending : ∀ b pending, P b → P { b with pendingRemovals := pending }) :
    P (st.executeTx nd atx commitRound verdict).ledger.book := by
  apply executeTx_rule (P := fun s => P s.book) st nd atx commitRound verdict hreject hgated
  · intro s tx h
    rwa [book_deductFees]
  · intro s tx split withheld h
    rwa [book_commitDeclaredOps]
  · exact hregister
  · intro s tx h
    obtain ⟨pending, heq⟩ := staked_book s nd tx
    rw [heq]
    exact hpending _ _ h
  · intro s tx ids h
    rwa [book_settleDeletions]
  · intro s tx split withheld h
    rwa [book_runPod]

theorem handleRegisterValidator_members {st' : Ledger}
    (h : st.handleRegisterValidator nd tx = .ok st') :
    st'.committedMembers = st.committedMembers ∨
      ∃ pubkey, hash32 tx.sender = some pubkey ∧ pubkey ∉ st.committedMembers ∧
        st'.committedMembers = st.committedMembers ++ [pubkey] := by
  rcases handleRegisterValidator_inv h with rfl | ⟨pubkey, _, _, hr, rfl⟩
  · exact .inl rfl
  · by_cases hin : pubkey ∈ st.committedMembers
    · exact .inl (by simp [registered, hin])
    · exact .inr ⟨pubkey, hr.sender, hin, by simp [registered, hin]⟩

theorem handleRegisterValidator_marks {st' : Ledger}
    (h : st.handleRegisterValidator nd tx = .ok st') : st'.committedTxs = st.committedTxs := by
  rcases handleRegisterValidator_inv h with rfl | ⟨_, _, _, -, rfl⟩ <;> rfl

theorem executeTx_members (st : Ledger) (nd : Node) (atx : AttestedTransaction)
    (commitRound : Nat) (verdict : Option ProofError) :
    (st.executeTx nd atx commitRound verdict).ledger.committedMembers = st.committedMembers ∨
      ∃ tx pubkey, atx.transaction = some tx ∧ hash32 tx.sender = some pubkey ∧
        pubkey ∉ st.committedMembers ∧
        (st.executeTx nd atx commitRound verdict).ledger.committedMembers =
          st.committedMembers ++ [pubkey] := by
  apply executeTx_book (P := fun b => b.committedMembers = st.committedMembers ∨
    ∃ tx pubkey, atx.transaction = some tx ∧ hash32 tx.sender = some pubkey ∧
      pubkey ∉ st.committedMembers ∧ b.committedMembers = st.committedMembers ++ [pubkey])
  · intro out hout
    obtain ⟨marks, heq⟩ := admitTx_error hout
    left
    rw [heq]
    rfl
  · intro tx _
    left
    rw [admitted_eq]
    rfl
  · intro s s' tx htx hreg h
    rcases handleRegisterValidator_members hreg with hsame | ⟨pubkey, hsender, hnew, hadd⟩
    · rwa [book, hsame]
    · rcases h with hs | ⟨tx', pubkey', htx', hsender', -, hs⟩ <;>
        change s.committedMembers = _ at hs
      · rw [hs] at hnew hadd
        exact .inr ⟨tx, pubkey, htx, hsender, hnew, hadd⟩
      · -- the sender is a member already, so this registration adds nobody
        rw [htx] at htx'
        obtain rfl := Option.some.inj htx'
        rw [hsender] at hsender'
        obtain rfl := Option.some.inj hsender'
        exact absurd (by rw [hs]; simp) hnew
  · exact fun _ _ h => h

/-! ## Marks -/

end Ledger

namespace Exit

/-- The exits in front of the commit-once guard. -/
def beforeGuard : Exit → Bool
  | nilTx | proofFailed | authenticityFailed | malformedShape | expiredSponsorship => true
  | _ => false

/-- The exits behind it. -/
def pastGuard : Exit → Bool
  | nilTx | proofFailed | authenticityFailed | malformedShape | expiredSponsorship => false
  | duplicate => false
  | _ => true

theorem pastGuard_of_beforeGuard {exit : Exit} (h : exit.beforeGuard = true) :
    exit.pastGuard = false := by
  cases exit <;> first | rfl | cases h

end Exit

namespace Ledger

/-- The transaction passes the gates that read no state. -/
structure PassesGates (nd : Node) (atx : AttestedTransaction) (commitRound : Nat)
    (verdict : Option ProofError) (tx : Transaction) : Prop where
  transaction : atx.transaction = some tx
  proofs : verdict = none
  authentic : verifyTxAuthenticity nd.crypto nd.unsignedTxBytes tx = .ok ()
  shape : validateShape tx = .ok ()
  sponsor : sponsoredTxStillValid nd tx commitRound = true

/-- Past those gates, the marks decide between a duplicate and the version check. -/
theorem admitTx_of_passesGates (h : PassesGates nd atx commitRound verdict tx) :
    st.admitTx nd atx commitRound verdict =
      if st.wasCommitted tx then .error { ledger := st, exit := .duplicate }
      else
        match (st.markCommitted tx).tracker.checkAndUpdate tx with
        | none => .error { ledger := st.markCommitted tx, exit := .versionConflict }
        | some tracker => .ok (tx, { st.markCommitted tx with tracker }) := by
  have hgates := Eq.refl (st.admitTx nd atx commitRound verdict)
  conv_rhs at hgates =>
    simp only [admitTx, h.transaction, h.proofs, h.authentic, h.shape, h.sponsor,
      Option.isSome_none, Bool.false_eq_true, if_false, Bool.not_true]
  exact hgates

theorem admitTx_of_not_passesGates (h : ∀ tx, ¬ PassesGates nd atx commitRound verdict tx) :
    ∃ exit : Exit, exit.beforeGuard = true ∧
      st.admitTx nd atx commitRound verdict = .error { ledger := st, exit } := by
  unfold admitTx
  cases htx : atx.transaction with
  | none => exact ⟨_, rfl, rfl⟩
  | some tx =>
    dsimp only
    cases verdict with
    | some e => exact ⟨_, rfl, rfl⟩
    | none =>
      cases hauth : verifyTxAuthenticity nd.crypto nd.unsignedTxBytes tx with
      | error e => exact ⟨_, rfl, rfl⟩
      | ok _ =>
        cases hshape : validateShape tx with
        | error e => exact ⟨_, rfl, rfl⟩
        | ok _ =>
          cases hsponsor : sponsoredTxStillValid nd tx commitRound with
          | false => exact ⟨_, rfl, rfl⟩
          | true => exact absurd ⟨htx, rfl, hauth, hshape, hsponsor⟩ (h tx)

theorem PassesGates.commitHash (h : PassesGates nd atx commitRound verdict tx) :
    ∃ k, tx.txCommitHash = some k := by
  have hhash := (verifyTxAuthenticity_ok h.authentic).hash
  exact ⟨bodyHash nd.crypto nd.unsignedTxBytes tx, hash32_eq_some.2 hhash.symm⟩

theorem mem_markCommitted {k : Hash} :
    k ∈ (st.markCommitted tx).committedTxs ↔ k ∈ st.committedTxs ∨ tx.txCommitHash = some k := by
  unfold markCommitted
  cases tx.txCommitHash with
  | none => simp
  | some h =>
    rw [List.mem_cons, or_comm, Option.some.injEq, eq_comm]

/-- Past the gates and unmarked, a transaction adds its own mark to those it finds. -/
theorem executeTx_committedTxs (hgates : PassesGates nd atx commitRound verdict tx)
    (hnew : st.wasCommitted tx = false) :
    (st.executeTx nd atx commitRound verdict).ledger.committedTxs =
      (st.markCommitted tx).committedTxs := by
  apply executeTx_book (P := fun b => b.committedTxs = (st.markCommitted tx).committedTxs)
  · intro out hout
    rw [admitTx_of_passesGates hgates, hnew, if_neg Bool.false_ne_true] at hout
    split at hout
    · rw [← Except.error.inj hout]
      rfl
    · cases hout
  · intro tx' hadmits
    have htx := hadmits.transaction
    rw [hgates.transaction] at htx
    rw [Option.some.inj htx]
    rfl
  · intro s s' tx' _ hreg hs
    rwa [book, handleRegisterValidator_marks hreg]
  · exact fun _ _ h => h

end Ledger

end BluePods
