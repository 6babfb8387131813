import BluePods.Book

/-! Ledgers that differ only in how their books are listed. A transaction looks up its own
mark and its sender's entry, a boundary reads the members and the removals as sets, so
such ledgers stay alike over transactions and boundaries. -/

namespace BluePods

/-! ## Books that say the same -/

/-- The same members, additions and removals, however they are listed, and the same marks
among the transactions that matter. -/
structure Book.Alike (S : Hash → Prop) (b b' : Book) : Prop where
  marks : ∀ h, S h → (h ∈ b'.committedTxs ↔ h ∈ b.committedTxs)
  members : ∀ k, k ∈ b'.committedMembers ↔ k ∈ b.committedMembers
  additions : b'.epochAdditions.Perm b.epochAdditions
  removals : ∀ k, k ∈ b'.pendingRemovals ↔ k ∈ b.pendingRemovals

/-- Ledgers that differ in their books only, and there only in what they list. -/
def Ledger.Alike (S : Hash → Prop) (st st' : Ledger) : Prop :=
  ∃ b, st' = st.withBook b ∧ Book.Alike S st.book b

namespace Ledger

variable {S : Hash → Prop} {st st' : Ledger}

theorem Alike.through (h : Alike S st st') (f : Ledger → Ledger)
    (hf : ∀ st b, f (st.withBook b) = (f st).withBook b) : Alike S (f st) (f st') := by
  obtain ⟨b, rfl, hb⟩ := h
  exact ⟨b, hf st b, by rw [book_of_withBook st f hf]; exact hb⟩

theorem Alike.outcome (h : Alike S st st') (f : Ledger → Outcome)
    (hf : ∀ st b, f (st.withBook b) = (f st).withBook b) :
    OutcomeAlike (Alike S) (f st) (f st') := by
  refine ⟨?_, ?_, h.through (fun st => (f st).ledger) fun st b => congrArg Outcome.ledger (hf st b)⟩
  · obtain ⟨b, rfl, -⟩ := h
    rw [hf]
    rfl
  · obtain ⟨b, rfl, -⟩ := h
    rw [hf]
    rfl

theorem Alike.refl (S : Hash → Prop) (st : Ledger) : Alike S st st :=
  ⟨st.book, rfl, ⟨fun _ _ => Iff.rfl, fun _ => Iff.rfl, .refl _, fun _ => Iff.rfl⟩⟩

theorem Alike.trans {st₁ st₂ st₃ : Ledger} (h : Alike S st₁ st₂) (h' : Alike S st₂ st₃) :
    Alike S st₁ st₃ := by
  obtain ⟨b, rfl, hb⟩ := h
  obtain ⟨b', rfl, hb'⟩ := h'
  refine ⟨b', rfl, ?_, ?_, ?_, ?_⟩
  · intro k hk
    rw [hb'.marks k hk, book_withBook, hb.marks k hk]
  · intro k
    rw [hb'.members k, book_withBook, hb.members k]
  · exact hb'.additions.trans hb.additions
  · intro k
    rw [hb'.removals k, book_withBook, hb.removals k]

/-! ## One transaction -/

section

variable (h : Alike S st st')

include h

theorem wasCommitted_of_alike {tx : Transaction} (hS : ∀ k, tx.txCommitHash = some k → S k) :
    st'.wasCommitted tx = st.wasCommitted tx := by
  obtain ⟨b, rfl, hb⟩ := h
  unfold wasCommitted
  cases hk : tx.txCommitHash with
  | none => rfl
  | some k =>
    show decide (k ∈ b.committedTxs) = decide (k ∈ st.committedTxs)
    exact decide_eq_decide.2 (hb.marks k (hS k hk))

theorem Alike.tracker : st'.tracker = st.tracker := by
  obtain ⟨b, rfl, -⟩ := h
  rfl

theorem Alike.markCommitted (tx : Transaction) :
    Alike S (st.markCommitted tx) (st'.markCommitted tx) := by
  unfold Ledger.markCommitted
  cases tx.txCommitHash with
  | none => exact h
  | some k =>
    obtain ⟨b, rfl, hb⟩ := h
    refine ⟨{ b with committedTxs := k :: b.committedTxs }, rfl, ?_, hb.members, hb.additions,
      hb.removals⟩
    intro k' hk'
    show k' ∈ k :: b.committedTxs ↔ k' ∈ k :: st.committedTxs
    rw [List.mem_cons, List.mem_cons, hb.marks k' hk']
    rfl

theorem gatesAlike_of_alike (nd : Node) (atx : AttestedTransaction) (commitRound : Nat)
    (verdict : Option ProofError)
    (hS : ∀ tx, atx.transaction = some tx → ∀ k, tx.txCommitHash = some k → S k) :
    GatesAlike (Alike S) nd atx commitRound verdict st st' := by
  refine gatesAlike h (fun tx htx => wasCommitted_of_alike h (hS tx htx))
    h.markCommitted Alike.tracker ?_
  rintro s _ tracker ⟨b, rfl, hb⟩
  exact ⟨b, rfl, hb⟩

section

variable (nd : Node) (tx : Transaction)

theorem handleRegisterValidator_alike :
    ResultAlike Eq (Alike S) (st.handleRegisterValidator nd tx)
      (st'.handleRegisterValidator nd tx) := by
  refine handleRegisterValidator_rel h fun pubkey args blsPubkey _ => ?_
  obtain ⟨b, rfl, hb⟩ := h
  have hmem : decide (pubkey ∈ (st.withBook b).committedMembers) =
      decide (pubkey ∈ st.committedMembers) :=
    decide_eq_decide.2 (hb.members pubkey)
  refine ⟨{ b with
    committedMembers := if decide (pubkey ∈ st.committedMembers) then b.committedMembers
      else b.committedMembers ++ [pubkey]
    epochAdditions :=
      if !decide (pubkey ∈ st.committedMembers) && nd.epochs.epochLength > 0 then
        b.epochAdditions ++ [pubkey]
      else b.epochAdditions }, ?_, hb.marks, ?_, ?_, hb.removals⟩
  · simp only [registered, hmem]
    rfl
  · intro k
    show k ∈ (if decide (pubkey ∈ st.committedMembers) = true then b.committedMembers
        else b.committedMembers ++ [pubkey]) ↔
      k ∈ (if decide (pubkey ∈ st.committedMembers) = true then st.committedMembers
        else st.committedMembers ++ [pubkey])
    split
    · exact hb.members k
    · rw [List.mem_append, List.mem_append]
      exact or_congr (hb.members k) Iff.rfl
  · show List.Perm
      (if (!decide (pubkey ∈ st.committedMembers) && nd.epochs.epochLength > 0) = true then
        b.epochAdditions ++ [pubkey] else b.epochAdditions)
      (if (!decide (pubkey ∈ st.committedMembers) && nd.epochs.epochLength > 0) = true then
        st.epochAdditions ++ [pubkey] else st.epochAdditions)
    split
    · exact hb.additions.append_right [pubkey]
    · exact hb.additions

theorem Alike.handleDeregisterValidator :
    Alike S (st.handleDeregisterValidator nd tx) (st'.handleDeregisterValidator nd tx) := by
  unfold Ledger.handleDeregisterValidator
  split
  · exact h
  · cases hash32 tx.sender with
    | none => exact h
    | some pubkey =>
      obtain ⟨b, rfl, hb⟩ := h
      dsimp only
      rw [withBook_pendingRemovals]
      by_cases hin : pubkey ∈ st.pendingRemovals
      · rw [if_pos hin, if_pos ((hb.removals pubkey).2 hin)]
        exact ⟨b, rfl, hb⟩
      · rw [if_neg hin, if_neg fun hc => hin ((hb.removals pubkey).1 hc)]
        refine ⟨{ b with pendingRemovals := b.pendingRemovals ++ [pubkey] }, rfl, hb.marks,
          hb.members, hb.additions, ?_⟩
        intro k
        show k ∈ b.pendingRemovals ++ [pubkey] ↔ k ∈ st.pendingRemovals ++ [pubkey]
        rw [List.mem_append, List.mem_append]
        exact or_congr (hb.removals k) Iff.rfl

theorem deductFees_alike (atx : AttestedTransaction) :
    FeesAlike (Alike S) (st.deductFees nd tx atx) (st'.deductFees nd tx atx) := by
  have hledger := h.through (fun st => (st.deductFees nd tx atx).ledger) fun st b =>
    (feesAlike_withBook st b nd tx atx).ledger
  obtain ⟨b, rfl, -⟩ := h
  obtain ⟨-, hsplit, hwithheld, hproceed⟩ := feesAlike_withBook st b nd tx atx
  exact ⟨hledger, hsplit, hwithheld, hproceed⟩

theorem Alike.charged (atx : AttestedTransaction) :
    ChargedAlike (Alike S) nd tx atx (st.deductFees nd tx atx) (st'.deductFees nd tx atx) where
  toFeesAlike := deductFees_alike h nd tx atx
  handlers _ := by
    have hs := (deductFees_alike h nd tx atx).ledger
    generalize (st.deductFees nd tx atx).ledger = s at hs ⊢
    generalize (st'.deductFees nd tx atx).ledger = s' at hs ⊢
    refine ⟨?_, handleRegisterValidator_alike hs nd tx, fun _ _ ht => ⟨?_, ?_⟩⟩
    · obtain ⟨b, rfl, -⟩ := hs
      rfl
    · obtain ⟨b, hb, -⟩ := ht.handleDeregisterValidator nd tx
      rw [hb, withBook_handleBond, Option.isSome_map]
    · have hstaked := (ht.handleDeregisterValidator nd tx).through (·.handleStake nd tx) fun st b =>
        withBook_handleStake st b nd tx
      exact ⟨hstaked, hstaked.through (·.settleDeletions nd.feeParams tx (ownedDeletedRefs tx))
        fun st b => withBook_settleDeletions st b nd.feeParams tx _⟩

end

/-- One transaction takes the same way on ledgers alike, and leaves them alike. -/
theorem executeTx_alike (nd : Node) (atx : AttestedTransaction) (commitRound : Nat)
    (verdict : Option ProofError)
    (hS : ∀ tx, atx.transaction = some tx → ∀ k, tx.txCommitHash = some k → S k) :
    OutcomeAlike (Alike S) (st.executeTx nd atx commitRound verdict)
      (st'.executeTx nd atx commitRound verdict) := by
  refine (gatesAlike_of_alike h nd atx commitRound verdict hS).executeTx ⟨_, _, rfl⟩ id
    fun _ _ hs => (hs.charged nd _ atx).commit ⟨_, _, rfl⟩ Alike.tracker id ?_ ?_
  · intro _ split withheld
    exact (deductFees_alike hs nd _ atx).ledger.outcome
      (·.commitDeclaredOps nd _ commitRound split withheld) fun st b =>
        withBook_commitDeclaredOps st b nd _ commitRound split withheld
  · intro s s' ht _ _
    exact ht.outcome (·.finishTx nd _ atx _ _) fun st b => withBook_finishTx st b nd _ atx _ _

end

end Ledger

/-! ## A boundary -/

theorem insertionSort_congr {a b : List Hash} (h : a.Perm b) :
    a.insertionSort (· ≤ ·) = b.insertionSort (· ≤ ·) := by
  apply List.Perm.eq_of_pairwise
  · intro x y _ _ hxy hyx
    exact le_antisymm hxy hyx
  · exact List.pairwise_insertionSort _ _
  · exact List.pairwise_insertionSort _ _
  · exact ((List.perm_insertionSort _ a).trans h).trans (List.perm_insertionSort _ b).symm

theorem sortedMemberKeys_congr {a b : List Hash} (h : ∀ k, k ∈ a ↔ k ∈ b) :
    sortedMemberKeys a = sortedMemberKeys b := by
  have hperm : a.dedup.Perm b.dedup := by
    rw [List.perm_ext_iff_of_nodup a.nodup_dedup b.nodup_dedup]
    intro k
    rw [List.mem_dedup, List.mem_dedup]
    exact h k
  exact insertionSort_congr hperm

namespace Ledger

variable {S : Hash → Prop} {st st' : Ledger}

theorem Alike.removeEach (maxChurn : Nat) (keys : List Hash) (removed : Nat) (h : Alike S st st') :
    Alike S (removeEach maxChurn keys removed st) (removeEach maxChurn keys removed st') := by
  induction keys generalizing removed st st' with
  | nil => exact h
  | cons pubkey keys ih =>
    obtain ⟨b, rfl, hb⟩ := h
    unfold Ledger.removeEach
    rw [show (st.withBook b).hasBondedDelegations pubkey = st.hasBondedDelegations pubkey from rfl,
      withBook_returnDeregisteredStake]
    split
    · exact ⟨b, rfl, hb⟩
    · split
      · exact ih removed ⟨b, rfl, hb⟩
      · have hbook : ∀ s, st.returnDeregisteredStake pubkey = some s → s.book = st.book := by
          intro s hs
          have := withBook_returnDeregisteredStake st st.book pubkey
          rw [withBook_book, hs, Option.map_some, Option.some.injEq] at this
          rw [this, book_withBook]
        cases hret : st.returnDeregisteredStake pubkey with
        | none => exact ih removed ⟨b, rfl, hb⟩
        | some s =>
          apply ih
          rw [← hbook s hret] at hb
          refine ⟨{ b with pendingRemovals := b.pendingRemovals.filter (· ≠ pubkey) }, rfl,
            hb.marks, hb.members, hb.additions, ?_⟩
          intro k
          show k ∈ b.pendingRemovals.filter (· ≠ pubkey) ↔ k ∈ s.pendingRemovals.filter (· ≠ pubkey)
          rw [List.mem_filter, List.mem_filter]
          exact and_congr (hb.removals k) Iff.rfl

theorem Alike.applyPendingRemovals (h : Alike S st st') (maxChurn : Nat) :
    Alike S (st.applyPendingRemovals maxChurn) (st'.applyPendingRemovals maxChurn) := by
  have hkeys : sortedMemberKeys st'.pendingRemovals = sortedMemberKeys st.pendingRemovals := by
    obtain ⟨b, rfl, hb⟩ := h
    exact sortedMemberKeys_congr hb.removals
  unfold Ledger.applyPendingRemovals
  rw [hkeys]
  exact h.removeEach maxChurn _ 0

end Ledger

end BluePods
