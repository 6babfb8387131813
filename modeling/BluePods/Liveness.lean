import BluePods.Resume

/-! Liveness credits. A vertex credits its producer with one round in the epoch the round
belongs to, and a batch credits a producer's round once: what it has credited is forgotten
with the batch. -/

namespace BluePods

namespace Chain

/-! ## What a vertex adds to the accumulators -/

theorem processTransactions_frame (cfg : Config) (round : UInt64) (c : Chain) (p : ProofVerdicts)
    (atxs : List AttestedTransaction) :
    (c.processTransactions cfg round p atxs).1.buckets = c.buckets ∧
      (c.processTransactions cfg round p atxs).1.committedVertices = c.committedVertices := by
  induction atxs generalizing c p with
  | nil => exact ⟨rfl, rfl⟩
  | cons atx rest ih =>
    obtain ⟨regime, dirty, heq⟩ := executeTx_eq cfg c atx round (p.proofVerdict atx).1
    obtain ⟨hbuckets, hflags⟩ := ih (c.executeTx cfg atx round (p.proofVerdict atx).1).1
      (p.proofVerdict atx).2
    rw [processTransactions_cons]
    dsimp only
    rw [hbuckets, hflags, heq]
    exact ⟨rfl, rfl⟩

theorem flagVertex_buckets (cfg : Config) (c : Chain) (v : BatchVertex) (fees : UInt64) :
    (c.flagVertex cfg v fees).buckets =
      c.buckets.addFees (cfg.commitEpochForRound v.round) fees := by
  unfold flagVertex recordProducedMember
  split <;> rfl

end Chain

theorem Buckets.produced_creditRound (b : Buckets) (epoch epoch' : UInt64)
    (producer producer' : Hash) :
    (b.creditRound epoch' producer').produced epoch producer =
      b.produced epoch producer + if epoch' = epoch ∧ producer' = producer then 1 else 0 := by
  unfold produced roundsProducedBucket creditRound
  dsimp only
  by_cases he : epoch' = epoch
  · subst he
    rw [Finmap.lookup_insert]
    by_cases hp : producer' = producer
    · subst hp
      simp [Finmap.lookup_insert, produced, roundsProducedBucket]
    · simp [hp, Finmap.lookup_insert_of_ne _ (Ne.symm hp), roundsProducedBucket]
  · rw [Finmap.lookup_insert_of_ne _ (Ne.symm he)]
    simp [he]

namespace Chain

/-- A vertex credits its producer unless the round was credited before, and nobody else. -/
theorem applyVertex_produced (cfg : Config) (round : UInt64) (s : BatchState) (v : BatchVertex)
    (epoch : UInt64) (producer : Hash) :
    (applyVertex cfg round s v).chain.buckets.produced epoch producer =
      s.chain.buckets.produced epoch producer +
        if (v.producer, v.round) ∉ s.credited ∧ cfg.commitEpochForRound v.round = epoch ∧
          v.producer = producer then 1 else 0 := by
  have hfees : ∀ (b : Buckets) (e amount : UInt64),
      (b.addFees e amount).produced epoch producer = b.produced epoch producer :=
    fun _ _ _ => rfl
  rw [applyVertex_chain]
  dsimp only
  rw [flagVertex_buckets, (processTransactions_frame cfg round _ _ _).1, hfees]
  unfold creditVertex
  by_cases hseen : (v.producer, v.round) ∈ s.credited
  · simp [hseen]
  · rw [if_neg hseen]
    dsimp only
    rw [Buckets.produced_creditRound]
    simp [hseen]

theorem applyVertex_credited (cfg : Config) (round : UInt64) (s : BatchState) (v : BatchVertex) :
    (applyVertex cfg round s v).credited = s.credited.insert (v.producer, v.round) := by
  rw [applyVertex_eq]
  rfl

/-! ## Credits over a log -/

/-- What the vertices of one round in a batch add to a producer's counter. -/
def roundCredit (cfg : Config) (commitRound : UInt64) (producer : Hash) (round : UInt64) :
    BatchState → List BatchVertex → Nat
  | _, [] => 0
  | s, v :: rest =>
    let next := applyVertex cfg commitRound s v
    let produced (s : BatchState) :=
      s.chain.buckets.produced (cfg.commitEpochForRound round) producer
    (if v.round = round then (produced next - produced s).toNat else 0) +
      roundCredit cfg commitRound producer round next rest

/-- The liveness a producer receives for one round over a log of batches. -/
def livenessCredit (cfg : Config) (producer : Hash) (round : UInt64) :
    Chain → List (List BatchVertex) → Nat
  | _, [] => 0
  | c, batch :: log =>
    roundCredit cfg c.lastCommitted producer round
      { chain := c
        verdicts := verifyRoundProofs (c.node cfg) c.lastCommitted.toNat
          (batch.flatMap (·.transactions)) } batch +
      livenessCredit cfg producer round (c.decideRound cfg batch) log

/-- The batch holds a vertex of the producer in the round. -/
def holdsVertexOf (producer : Hash) (round : UInt64) (batch : List BatchVertex) : Bool :=
  batch.any fun v => v.producer = producer ∧ v.round = round

/-- A batch credits a round it holds a vertex of, unless it has credited it before. -/
theorem roundCredit_eq (cfg : Config) (commitRound : UInt64) (producer : Hash) (round : UInt64)
    (s : BatchState) (batch : List BatchVertex) :
    roundCredit cfg commitRound producer round s batch =
      if (producer, round) ∉ s.credited ∧ holdsVertexOf producer round batch then 1 else 0 := by
  induction batch generalizing s with
  | nil => simp [roundCredit, holdsVertexOf]
  | cons v rest ih =>
    simp only [roundCredit, ih, applyVertex_produced, applyVertex_credited, holdsVertexOf,
      List.any_cons, List.mem_insert_iff, add_sub_cancel_left]
    by_cases hround : v.round = round
    · by_cases hproducer : v.producer = producer
      · subst hround hproducer
        by_cases hseen : (v.producer, v.round) ∈ s.credited <;> simp [hseen]
      · simp [hround, hproducer, Ne.symm hproducer]
    · simp [hround, Ne.symm hround]

/-- A producer receives one round's liveness once for every batch that holds a vertex of
it, so at most once exactly when its vertices of the round are all in one batch. -/
theorem livenessCredit_le_one_iff (cfg : Config) (c : Chain) (log : List (List BatchVertex))
    (producer : Hash) (round : UInt64) :
    livenessCredit cfg producer round c log ≤ 1 ↔
      log.countP (holdsVertexOf producer round) ≤ 1 := by
  suffices heq : livenessCredit cfg producer round c log =
      log.countP (holdsVertexOf producer round) by rw [heq]
  induction log generalizing c with
  | nil => rfl
  | cons batch log ih =>
    rw [livenessCredit, ih, roundCredit_eq, List.countP_cons, Nat.add_comm]
    simp

/-- A vertex of the founder in the first round, without transactions. -/
def founderVertex : BatchVertex where
  hash := idOf 20
  round := 0
  producer := idOf 1

/-- A sibling of the founder's vertex earns the same round again in a later batch, and
nothing in the same one. -/
theorem siblings_credited_twice :
    let c := ({} : Disk).start foundedConfig
    let sibling := { founderVertex with hash := idOf 21 }
    livenessCredit foundedConfig (idOf 1) 0 c [[founderVertex, sibling]] = 1 ∧
      livenessCredit foundedConfig (idOf 1) 0 c [[founderVertex], [sibling]] = 2 ∧
      ([[founderVertex], [sibling]].foldl (decideRound foundedConfig) c).buckets.produced 0
        (idOf 1) = 2 := by
  decide +kernel

end Chain

end BluePods
