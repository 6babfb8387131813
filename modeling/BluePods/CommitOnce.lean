import BluePods.Log

/-! The calls of `executeTx` over the whole log of one node, in order. Each call finds the
marks its predecessor left, whatever vertices, rounds, boundaries and restarts lie between
them, and a call adds its own hash exactly when it gets past the guard. -/

namespace BluePods

variable {cfg : Config} {call : Call} {m m' : List Hash} {calls : List Call}

/-! ## Exits around the guard -/

namespace Ledger

variable {st : Ledger} {nd : Node} {atx : AttestedTransaction} {commitRound : Nat}
  {verdict : Option ProofError} {tx : Transaction}

theorem settleTx_pastGuard {split : FeeSplit} {out : Outcome}
    (h : st.settleTx nd tx atx split = .error out) : out.exit.pastGuard = true := by
  rcases settleTx_cases st nd tx atx split with
    ⟨-, heq⟩ | ⟨-, ⟨-, heq⟩ | ⟨-, heq⟩ | ⟨st₁, -, -, ⟨-, heq⟩ | ⟨-, ⟨-, heq⟩ | heq⟩⟩⟩ <;>
    rw [h] at heq
  case inr.inr.inr.inr.inr => cases heq
  all_goals
    rw [Except.error.inj heq]
    rfl

theorem runPod_pastGuard (st : Ledger) (nd : Node) (tx : Transaction) (atx : AttestedTransaction)
    (split : FeeSplit) (withheld : UInt64) :
    (st.runPod nd tx atx split withheld).exit.pastGuard = true := by
  unfold runPod
  split <;> rfl

theorem executeTx_pastGuard_of_admits (h : st.Admits nd atx commitRound verdict tx) :
    (st.executeTx nd atx commitRound verdict).exit.pastGuard = true := by
  rcases st.prepareTx_cases nd atx commitRound verdict with
    ⟨_, _, -, -, hno⟩ | ⟨tx', -, ⟨-, heq⟩ | ⟨-, -, heq⟩ | ⟨-, -, heq⟩⟩
  · exact absurd h (hno tx)
  · simp only [executeTx, heq]
    rfl
  · simp only [executeTx, heq]
    rfl
  · rcases eq_map_cases heq with ⟨out, hs, heq⟩ | ⟨st₃, -, heq⟩
    · simp only [executeTx, heq]
      exact settleTx_pastGuard hs
    · simp only [executeTx, heq]
      exact runPod_pastGuard _ _ _ _ _ _

theorem executeTx_of_admitTx_error {out : Outcome}
    (h : st.admitTx nd atx commitRound verdict = .error out) :
    st.executeTx nd atx commitRound verdict = out := by
  simp only [executeTx, prepareTx, h, bind, Except.bind]

theorem executeTx_pastGuard (h : PassesGates nd atx commitRound verdict tx)
    (hnew : st.wasCommitted tx = false) :
    (st.executeTx nd atx commitRound verdict).exit.pastGuard = true := by
  have hgates : st.admitTx nd atx commitRound verdict = _ := admitTx_of_passesGates h
  rw [hnew, if_neg Bool.false_ne_true] at hgates
  cases hcheck : (st.markCommitted tx).tracker.checkAndUpdate tx with
  | none =>
    rw [hcheck] at hgates
    rw [executeTx_of_admitTx_error hgates]
    rfl
  | some tracker =>
    rw [hcheck] at hgates
    rcases st.admitTx_cases nd atx commitRound verdict with ⟨_, _, -, herr, -⟩ | ⟨tx', hadmits, -⟩
    · rw [hgates] at herr
      cases herr
    · exact executeTx_pastGuard_of_admits hadmits

end Ledger

/-! ## Calls and the guard -/

namespace Call

variable (cfg : Config) (call : Call)

/-- Where the call returns. -/
def exit : Exit :=
  (call.chain.ledger.executeTx (call.chain.txNode cfg call.atx) call.atx call.commitRound.toNat
    call.verdict).exit

/-- The call is for a transaction with that hash. -/
def IsFor (hash : Bytes) : Prop := ∃ tx, call.atx.transaction = some tx ∧ tx.hash = hash

/-- The call gets past the guard with that hash. -/
def GetsPast (hash : Bytes) : Prop := call.IsFor hash ∧ (call.exit cfg).pastGuard = true

/-- The marks the call finds. -/
def marks : List Hash := call.chain.ledger.committedTxs

end Call

namespace Chain

/-- A transaction that the gates or the guard turn away changes nothing of the node. -/
theorem executeTx_eq_self {c : Chain} {atx : AttestedTransaction} {round : UInt64}
    {verdict : Option ProofError} {exit : Exit}
    (h : c.ledger.admitTx (c.txNode cfg atx) atx round.toNat verdict =
      .error { ledger := c.ledger, exit }) :
    c.executeTx cfg atx round verdict = (c, {}) := by
  have hsender : c.ledger.admitsSender c.ledger atx = false := by
    unfold Ledger.admitsSender
    cases atx.transaction.bind fun tx => hash32 tx.sender <;> simp
  have hbond : c.ledger.bondApplied (c.txNode cfg atx) atx round.toNat verdict = false := by
    rw [Ledger.bondApplied, h]
  simp only [executeTx, Ledger.executeTx_of_admitTx_error h, hsender, hbond, Bool.false_eq_true,
    if_false]

end Chain

namespace Call

/-- What a call does about the guard: it stops in front of it, or at it with its hash among
the marks, and changes nothing; or it gets past and adds the hash. -/
theorem cases_guard (cfg : Config) (call : Call) :
    ((call.exit cfg).beforeGuard = true ∧ call.result cfg = (call.chain, {})) ∨
      ∃ k : Hash, call.IsFor k.val ∧
        ((call.exit cfg = .duplicate ∧ k ∈ call.marks ∧ call.result cfg = (call.chain, {})) ∨
          ((call.exit cfg).pastGuard = true ∧ k ∉ call.marks ∧
            (call.result cfg).1.ledger.committedTxs = k :: call.marks)) := by
  by_cases hpass : ∃ tx, Ledger.PassesGates (call.chain.txNode cfg call.atx) call.atx
      call.commitRound.toNat call.verdict tx
  · obtain ⟨tx, hgates⟩ := hpass
    obtain ⟨k, hk⟩ := hgates.commitHash
    have hmarked : call.chain.ledger.wasCommitted tx = decide (k ∈ call.marks) := by
      rw [Ledger.wasCommitted, hk]
      rfl
    refine .inr ⟨k, ⟨tx, hgates.transaction, hash32_eq_some.1 hk⟩, ?_⟩
    by_cases hin : k ∈ call.marks
    · rw [decide_eq_true hin] at hmarked
      have herr := @Ledger.admitTx_of_passesGates call.chain.ledger _ _ _ _ _ hgates
      rw [if_pos hmarked] at herr
      refine .inl ⟨?_, hin, Chain.executeTx_eq_self herr⟩
      rw [exit, Ledger.executeTx_of_admitTx_error herr]
    · rw [decide_eq_false hin] at hmarked
      refine .inr ⟨Ledger.executeTx_pastGuard hgates hmarked, hin, ?_⟩
      rw [result, Chain.executeTx_ledger, Ledger.executeTx_committedTxs hgates hmarked,
        Ledger.markCommitted, hk]
      rfl
  · obtain ⟨exit, hbefore, herr⟩ := @Ledger.admitTx_of_not_passesGates call.chain.ledger _ _ _ _
      fun tx hgates => hpass ⟨tx, hgates⟩
    refine .inl ⟨?_, Chain.executeTx_eq_self herr⟩
    rwa [Call.exit, Ledger.executeTx_of_admitTx_error herr]

theorem IsFor.unique {hash hash' : Bytes} (h : call.IsFor hash) (h' : call.IsFor hash') :
    hash' = hash := by
  obtain ⟨tx, htx, rfl⟩ := h
  obtain ⟨tx', htx', rfl⟩ := h'
  rw [htx] at htx'
  rw [Option.some.inj htx']

theorem mem_marks_result (cfg : Config) (call : Call) (k : Hash) :
    k ∈ (call.result cfg).1.ledger.committedTxs ↔ k ∈ call.marks ∨ call.GetsPast cfg k.val := by
  rcases call.cases_guard cfg with ⟨hexit, hsame⟩ | ⟨k', hfor, ⟨hexit, -, hsame⟩ | ⟨hexit, -, hadd⟩⟩
  · have hnot : ¬ call.GetsPast cfg k.val := by
      rintro ⟨-, hpast⟩
      rw [Exit.pastGuard_of_beforeGuard hexit] at hpast
      cases hpast
    rw [hsame, or_iff_left hnot]
    rfl
  · have hnot : ¬ call.GetsPast cfg k.val := by
      rintro ⟨-, hpast⟩
      rw [hexit] at hpast
      cases hpast
    rw [hsame, or_iff_left hnot]
    rfl
  · rw [hadd, List.mem_cons, or_comm]
    refine or_congr_right ⟨?_, fun h => Subtype.ext (hfor.unique h.1)⟩
    rintro rfl
    exact ⟨hfor, hexit⟩

theorem GetsPast.fresh {hash : Bytes} (h : call.GetsPast cfg hash) :
    ∃ k : Hash, k.val = hash ∧ k ∉ call.marks := by
  obtain ⟨hfor, hpast⟩ := h
  rcases call.cases_guard cfg with ⟨hexit, -⟩ | ⟨k, hk, ⟨hexit, -, -⟩ | ⟨-, hnew, -⟩⟩
  · rw [Exit.pastGuard_of_beforeGuard hexit] at hpast
    cases hpast
  · rw [hexit] at hpast
    cases hpast
  · exact ⟨k, hfor.unique hk, hnew⟩

end Call

/-! ## Marks along the calls -/

/-- Every call finds the marks the one before it left: the first finds `m`, and the last
leaves `m'`. -/
def Threaded (cfg : Config) (m m' : List Hash) : List Call → Prop
  | [] => m' = m
  | call :: rest => call.marks = m ∧ Threaded cfg (call.result cfg).1.ledger.committedTxs m' rest

theorem Threaded.append {m'' : List Hash} {calls' : List Call} (h : Threaded cfg m m' calls)
    (h' : Threaded cfg m' m'' calls') : Threaded cfg m m'' (calls ++ calls') := by
  induction calls generalizing m with
  | nil =>
    rw [show m' = m from h] at h'
    exact h'
  | cons call rest ih => exact ⟨h.1, ih h.2⟩

theorem Threaded.before {before after : List Call}
    (h : Threaded cfg m m' (before ++ call :: after)) : Threaded cfg m call.marks before := by
  induction before generalizing m with
  | nil => exact h.1
  | cons c rest ih => exact ⟨h.1, ih h.2⟩

theorem Threaded.mem_iff (h : Threaded cfg m m' calls) (k : Hash) :
    k ∈ m' ↔ k ∈ m ∨ ∃ call ∈ calls, call.GetsPast cfg k.val := by
  induction calls generalizing m with
  | nil =>
    rw [show m' = m from h]
    simp
  | cons call rest ih =>
    rw [ih h.2, call.mem_marks_result cfg k, h.1, or_assoc]
    simp only [List.mem_cons, exists_eq_or_imp]

/-- No two calls get past with one hash: the first leaves it among the marks the second
finds. -/
theorem Threaded.pairwise (h : Threaded cfg m m' calls) :
    calls.Pairwise fun a b => ∀ hash, a.GetsPast cfg hash → ¬ b.GetsPast cfg hash := by
  induction calls generalizing m with
  | nil => exact .nil
  | cons a rest ih =>
    refine .cons ?_ (ih h.2)
    intro b hb hash ha hpast
    obtain ⟨between, after, rfl⟩ := List.append_of_mem hb
    obtain ⟨k, rfl, hnew⟩ := hpast.fresh
    have hleft := (a.mem_marks_result cfg k).2 (.inr ha)
    exact hnew ((h.2.before.mem_iff k).2 (.inl hleft))

namespace Chain

variable (cfg : Config)

theorem threaded_txCalls (round : UInt64) (c : Chain) (p : ProofVerdicts)
    (atxs : List AttestedTransaction) :
    Threaded cfg c.ledger.committedTxs
      (c.processTransactions cfg round p atxs).1.ledger.committedTxs
      (txCalls cfg round c p atxs) := by
  induction atxs generalizing c p with
  | nil => rfl
  | cons atx rest ih => exact ⟨rfl, ih _ _⟩

theorem threaded_batchCalls (round : UInt64) (s : BatchState) (batch : List BatchVertex) :
    Threaded cfg s.chain.ledger.committedTxs
      (batch.foldl (applyVertex cfg round) s).chain.ledger.committedTxs
      (batchCalls cfg round s batch) := by
  induction batch generalizing s with
  | nil => rfl
  | cons v rest ih =>
    refine Threaded.append ?_ (ih (applyVertex cfg round s v))
    have hvertex := threaded_txCalls cfg round (creditVertex cfg s v) s.verdicts v.transactions
    rw [creditVertex_ledger] at hvertex
    rw [applyVertex_chain, flagVertex_ledger]
    exact hvertex

theorem advanceCommitCursor_marks (c : Chain) (round : UInt64) :
    (c.advanceCommitCursor cfg round).ledger.committedTxs = c.ledger.committedTxs := by
  unfold advanceCommitCursor
  dsimp only
  split
  · exact transitionEpoch_marks cfg _
  · split <;> rfl

theorem start_marks (d : Disk) : (d.start cfg).ledger.committedTxs = d.committedTxs := by
  obtain ⟨_, _, heq | ⟨_, -, -, heq⟩⟩ := start_ledger cfg d <;> rw [heq] <;> rfl

theorem threaded_turnCalls (c : Chain) (t : Turn) :
    Threaded cfg c.ledger.committedTxs (c.turn cfg t).ledger.committedTxs (c.turnCalls cfg t) := by
  cases t with
  | decide batch =>
    rw [turn, decideRound, advanceCommitCursor_marks]
    exact threaded_batchCalls cfg c.lastCommitted
      { chain := c
        verdicts := verifyRoundProofs (c.node cfg) c.lastCommitted.toNat
          (batch.flatMap (·.transactions)) } batch
  | addValidator pubkey quicAddr bls => rfl
  | restart => exact start_marks cfg c.disk

/-- The log threads the marks from its start to its end. -/
theorem threaded_logCalls (c : Chain) (turns : List Turn) :
    Threaded cfg c.ledger.committedTxs (turns.foldl (turn cfg) c).ledger.committedTxs
      (c.logCalls cfg turns) := by
  induction turns generalizing c with
  | nil => rfl
  | cons t rest ih => exact (threaded_turnCalls cfg c t).append (ih _)

/-- The marks behind a log are those in front of it and those of the calls that got past. -/
theorem marks_record_calls (c : Chain) (turns : List Turn) (k : Hash) :
    k ∈ (turns.foldl (turn cfg) c).ledger.committedTxs ↔
      k ∈ c.ledger.committedTxs ∨ ∃ call ∈ c.logCalls cfg turns, call.GetsPast cfg k.val :=
  (threaded_logCalls cfg c turns).mem_iff k

/-- Over every log from genesis, no two calls get past the commit-once guard with one hash.
A call that a gate turns away leaves the node as it was; a call the gates let through gets
past unless an earlier call got past with its hash, so no rejection stands in its way. -/
theorem commit_once (turns : List Turn) :
    let calls := (({} : Disk).start cfg).logCalls cfg turns
    (calls.Pairwise fun a b => ∀ hash, a.GetsPast cfg hash → ¬ b.GetsPast cfg hash) ∧
      (∀ call ∈ calls, (call.exit cfg).beforeGuard = true →
        call.result cfg = (call.chain, {})) ∧
      ∀ before call after, calls = before ++ call :: after →
        (call.exit cfg).beforeGuard = false →
        ∀ hash, call.IsFor hash → (∀ earlier ∈ before, ¬ earlier.GetsPast cfg hash) →
          call.GetsPast cfg hash := by
  intro calls
  have hthread := threaded_logCalls cfg (({} : Disk).start cfg) turns
  rw [start_marks] at hthread
  -- what a call finds marked is what an earlier one got past with
  have hfinds : ∀ before call after, calls = before ++ call :: after → ∀ k : Hash,
      k ∈ call.marks ↔ ∃ earlier ∈ before, earlier.GetsPast cfg k.val := by
    intro before call after hsplit k
    rw [show (({} : Disk).start cfg).logCalls cfg turns = before ++ call :: after from hsplit]
      at hthread
    rw [hthread.before.mem_iff k]
    simp
  refine ⟨?_, ?_, ?_⟩
  · exact hthread.pairwise
  · intro call _ hbefore
    rcases call.cases_guard cfg with ⟨-, hsame⟩ | ⟨k, -, ⟨hexit, -, -⟩ | ⟨hexit, -, -⟩⟩
    · exact hsame
    · rw [hexit] at hbefore
      cases hbefore
    · rw [Exit.pastGuard_of_beforeGuard hbefore] at hexit
      cases hexit
  · intro before call after hsplit hbefore hash hfor hfirst
    rcases call.cases_guard cfg with ⟨hexit, -⟩ | ⟨k, hk, ⟨-, hin, -⟩ | ⟨hexit, -, -⟩⟩
    · rw [hbefore] at hexit
      cases hexit
    · obtain ⟨earlier, hmem, hpast⟩ := (hfinds before call after hsplit k).1 hin
      rw [hfor.unique hk] at hpast
      exact absurd hpast (hfirst earlier hmem)
    · exact ⟨hfor, hexit⟩

end Chain

end BluePods
