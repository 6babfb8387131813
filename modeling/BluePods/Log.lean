import BluePods.Follow

/-! The whole log of one node: the turns it takes, the calls of `executeTx` each of them
makes and the boundaries it crosses, and the rule that carries a property of the ledger
from the start of a log to its end. -/

namespace BluePods

/-! ## Calls -/

/-- A call of `executeTx`: the node it finds and its arguments. -/
structure Call where
  chain : Chain
  atx : AttestedTransaction
  commitRound : UInt64
  verdict : Option ProofError

namespace Call

variable (cfg : Config) (call : Call)

/-- The node after the call, and the fees it returns. -/
def result : Chain × FeeSplit :=
  call.chain.executeTx cfg call.atx call.commitRound call.verdict

end Call

/-! ## The calls of the log -/

namespace Chain

/-- The calls of one vertex's transactions. -/
def txCalls (cfg : Config) (commitRound : UInt64) (c : Chain) (p : ProofVerdicts) :
    List AttestedTransaction → List Call
  | [] => []
  | atx :: rest =>
    let (verdict, p) := p.proofVerdict atx
    { chain := c, atx, commitRound, verdict } ::
      txCalls cfg commitRound (c.executeTx cfg atx commitRound verdict).1 p rest

/-- The calls of a batch, vertex after vertex. -/
def batchCalls (cfg : Config) (commitRound : UInt64) (s : BatchState) :
    List BatchVertex → List Call
  | [] => []
  | v :: rest =>
    txCalls cfg commitRound (creditVertex cfg s v) s.verdicts v.transactions ++
      batchCalls cfg commitRound (applyVertex cfg commitRound s v) rest

/-- What happens to a node: a round is decided and its batch applied, a validator is added
ahead of its registration, or the node restarts over its store. -/
inductive Turn
  | decide (batch : List BatchVertex)
  | addValidator (pubkey : Hash) (quicAddr : Bytes) (bls : BLSKey)
  | restart

def turn (cfg : Config) (c : Chain) : Turn → Chain
  | .decide batch => c.decideRound cfg batch
  | .addValidator pubkey quicAddr bls =>
    { c with ledger := { c.ledger with validators := c.ledger.validators.add pubkey quicAddr bls } }
  | .restart => c.restart cfg

/-- The calls a decided round makes. -/
def turnCalls (cfg : Config) (c : Chain) : Turn → List Call
  | .decide batch =>
    batchCalls cfg c.lastCommitted
      { chain := c
        verdicts := verifyRoundProofs (c.node cfg) c.lastCommitted.toNat
          (batch.flatMap (·.transactions)) } batch
  | .addValidator .. | .restart => []

/-- The calls of a whole log. -/
def logCalls (cfg : Config) (c : Chain) : List Turn → List Call
  | [] => []
  | t :: rest => c.turnCalls cfg t ++ (c.turn cfg t).logCalls cfg rest

/-- The node a turn takes over an epoch boundary, as the transition finds it. -/
def turnBoundaries (cfg : Config) (c : Chain) : Turn → List Chain
  | .decide batch =>
    if cfg.isEpochBoundary c.lastCommitted then
      [{ c.applyBatch cfg c.lastCommitted batch with lastCommitted := c.lastCommitted + 1 }]
    else []
  | .addValidator .. | .restart => []

/-- The boundaries of a whole log. -/
def logBoundaries (cfg : Config) (c : Chain) : List Turn → List Chain
  | [] => []
  | t :: rest => c.turnBoundaries cfg t ++ (c.turn cfg t).logBoundaries cfg rest

/-! ## Starts -/

theorem recordCommittedMember_ledger (cfg : Config) (c : Chain) (pubkey : Hash) (round : UInt64) :
    ∃ members, (c.recordCommittedMember cfg pubkey round).ledger =
      { c.ledger with committedMembers := members } := by
  unfold recordCommittedMember
  split
  · exact ⟨_, rfl⟩
  · rw [refreezeGenesisRegime_ledger]
    exact ⟨_, rfl⟩

/-- Besides the founder's seat, a start changes the ledger where the genesis coin is not in
the store. -/
theorem start_ledger (cfg : Config) (d : Disk) :
    ∃ validators members,
      (d.start cfg).ledger =
          { (d.load cfg).ledger with validators, committedMembers := members } ∨
        ∃ seed, cfg.founder = some seed ∧ (d.load cfg).ledger.getObject seed.coinID = none ∧
          (d.start cfg).ledger =
            { (d.load cfg).ledger.seedGenesisLedger seed with
              validators, committedMembers := members } := by
  unfold Disk.start
  cases cfg.founder with
  | none => exact ⟨_, _, .inl rfl⟩
  | some seed =>
    dsimp only
    unfold seedGenesisState
    split
    · obtain ⟨members, heq⟩ := recordCommittedMember_ledger cfg _ seed.pubkey _
      exact ⟨_, members, .inl heq⟩
    · rename_i hcoin
      obtain ⟨members, heq⟩ := recordCommittedMember_ledger cfg _ seed.pubkey _
      exact ⟨_, members, .inr ⟨seed, rfl, by simpa using hcoin, heq⟩⟩

/-! ## Along the log -/

section Rule

variable {cfg : Config} {P : Ledger → Prop}

theorem creditVertex_ledger (cfg : Config) (s : BatchState) (v : BatchVertex) :
    (creditVertex cfg s v).ledger = s.chain.ledger := by
  unfold creditVertex
  split <;> rfl

theorem flagVertex_ledger (cfg : Config) (c : Chain) (v : BatchVertex) (fees : UInt64) :
    (c.flagVertex cfg v fees).ledger = c.ledger := by
  unfold flagVertex recordProducedMember
  split <;> rfl

theorem txCalls_rule {round : UInt64} {c : Chain} {p : ProofVerdicts}
    {atxs : List AttestedTransaction} (hstart : P c.ledger)
    (hcalls : ∀ call ∈ txCalls cfg round c p atxs, P call.chain.ledger →
      P (call.result cfg).1.ledger) :
    (∀ call ∈ txCalls cfg round c p atxs, P call.chain.ledger) ∧
      P (c.processTransactions cfg round p atxs).1.ledger := by
  induction atxs generalizing c p with
  | nil => exact ⟨by simp [txCalls], hstart⟩
  | cons atx rest ih =>
    have hnext : P (c.executeTx cfg atx round (p.proofVerdict atx).1).1.ledger :=
      hcalls ⟨c, atx, round, (p.proofVerdict atx).1⟩ List.mem_cons_self hstart
    obtain ⟨hrest, hend⟩ := ih hnext fun call hcall => hcalls call (List.mem_cons_of_mem _ hcall)
    refine ⟨?_, hend⟩
    intro call hcall
    rcases List.mem_cons.1 hcall with rfl | hcall
    · exact hstart
    · exact hrest call hcall

theorem batchCalls_rule {round : UInt64} {s : BatchState} {batch : List BatchVertex}
    (hstart : P s.chain.ledger)
    (hcalls : ∀ call ∈ batchCalls cfg round s batch, P call.chain.ledger →
      P (call.result cfg).1.ledger) :
    (∀ call ∈ batchCalls cfg round s batch, P call.chain.ledger) ∧
      P (batch.foldl (applyVertex cfg round) s).chain.ledger := by
  induction batch generalizing s with
  | nil => exact ⟨by simp [batchCalls], hstart⟩
  | cons v rest ih =>
    rw [← creditVertex_ledger cfg s v] at hstart
    obtain ⟨hvertex, hdone⟩ := txCalls_rule hstart fun call hcall =>
      hcalls call (List.mem_append_left _ hcall)
    have hnext : P (applyVertex cfg round s v).chain.ledger := by
      rw [applyVertex_chain, flagVertex_ledger]
      exact hdone
    obtain ⟨hrest, hend⟩ := ih hnext fun call hcall => hcalls call (List.mem_append_right _ hcall)
    refine ⟨?_, hend⟩
    intro call hcall
    rcases List.mem_append.1 hcall with hcall | hcall
    · exact hvertex call hcall
    · exact hrest call hcall

theorem turn_rule {c : Chain} {t : Turn} (hstart : P c.ledger)
    (hcalls : ∀ call ∈ c.turnCalls cfg t, P call.chain.ledger → P (call.result cfg).1.ledger)
    (hbounds : ∀ b ∈ c.turnBoundaries cfg t, P b.ledger → P (b.transitionEpoch cfg).ledger)
    (hadd : ∀ st pubkey quicAddr bls, P st →
      P { st with validators := st.validators.add pubkey quicAddr bls })
    (hrestart : ∀ c : Chain, P c.ledger → P (c.restart cfg).ledger) :
    (∀ call ∈ c.turnCalls cfg t, P call.chain.ledger) ∧ P (c.turn cfg t).ledger := by
  cases t with
  | decide batch =>
    obtain ⟨hbatch, hend⟩ := @batchCalls_rule cfg P c.lastCommitted
      { chain := c
        verdicts := verifyRoundProofs (c.node cfg) c.lastCommitted.toNat
          (batch.flatMap (·.transactions)) } batch hstart hcalls
    refine ⟨hbatch, ?_⟩
    unfold turn decideRound advanceCommitCursor
    dsimp only
    split
    · rename_i hboundary
      refine hbounds _ ?_ hend
      rw [turnBoundaries, if_pos hboundary]
      exact List.mem_singleton_self _
    · split <;> exact hend
  | addValidator pubkey quicAddr bls => exact ⟨by simp [turnCalls], hadd _ _ _ _ hstart⟩
  | restart => exact ⟨by simp [turnCalls], hrestart c hstart⟩

/-- What every call, boundary, addition and restart keeps holds in front of every call of a
log and at its end. -/
theorem log_rule {c : Chain} {turns : List Turn} (hstart : P c.ledger)
    (hcalls : ∀ call ∈ c.logCalls cfg turns, P call.chain.ledger → P (call.result cfg).1.ledger)
    (hbounds : ∀ b ∈ c.logBoundaries cfg turns, P b.ledger → P (b.transitionEpoch cfg).ledger)
    (hadd : ∀ st pubkey quicAddr bls, P st →
      P { st with validators := st.validators.add pubkey quicAddr bls })
    (hrestart : ∀ c : Chain, P c.ledger → P (c.restart cfg).ledger) :
    (∀ call ∈ c.logCalls cfg turns, P call.chain.ledger) ∧
      P (turns.foldl (turn cfg) c).ledger := by
  induction turns generalizing c with
  | nil => exact ⟨by simp [logCalls], hstart⟩
  | cons t rest ih =>
    obtain ⟨hturn, hnext⟩ := turn_rule hstart
      (fun call hcall => hcalls call (List.mem_append_left _ hcall))
      (fun b hb => hbounds b (List.mem_append_left _ hb)) hadd hrestart
    obtain ⟨hrest, hend⟩ := ih hnext
      (fun call hcall => hcalls call (List.mem_append_right _ hcall))
      (fun b hb => hbounds b (List.mem_append_right _ hb))
    refine ⟨?_, hend⟩
    intro call hcall
    rcases List.mem_append.1 hcall with hcall | hcall
    · exact hturn call hcall
    · exact hrest call hcall

end Rule

end Chain

end BluePods
