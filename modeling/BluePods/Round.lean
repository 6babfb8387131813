import BluePods.Commit

/-! The proof gate of a committed batch. Every proof-bearing transaction is verified
before any of them is applied, and the apply loop takes the verdicts off a cursor. The
cursor stays in step with the transactions, and a verdict on a transaction in a batch is
the verdict on it alone. -/

namespace BluePods

variable {cr : Crypto} {round : Nat} {atx : AttestedTransaction}

/-! ## Verdicts of a batch -/

/-- What the signature checks of one transaction make of its early verdict. -/
def applySignatures (cr : Crypto) (r : Option ProofError) (checks : List PlannedCheck) :
    Option ProofError :=
  checks.foldl (fun r c =>
    if c.check.passes cr then r else r.or (some (.signatureInvalid c.proofOf))) r

theorem getElem?_foldl_applyBatchVerdict (cr : Crypto) (i : Nat) :
    ∀ (checks : List PlannedCheck) (results : List (Option ProofError)),
      (checks.foldl (applyBatchVerdict cr) results)[i]? =
        results[i]?.map fun r => applySignatures cr r (checks.filter fun c => c.atxOf = i) := by
  intro checks
  induction checks with
  | nil => intro results; simp [applySignatures]
  | cons c checks ih =>
    intro results
    rw [List.foldl_cons, ih]
    by_cases hi : c.atxOf = i
    · cases hpass : c.check.passes cr <;>
        simp [applyBatchVerdict, hpass, applySignatures, hi, Option.map_map, Function.comp_def]
    · cases hpass : c.check.passes cr <;>
        simp [applyBatchVerdict, hpass, hi]

/-- The place of a transaction in the batch only labels its checks. -/
theorem collectProofs_atxIdx (cr : Crypto) (atx : AttestedTransaction) (vs : ValidatorSet)
    (i : Nat) (proofs : List (QuorumProof × Nat)) :
    collectProofs cr atx i vs proofs =
      ((collectProofs cr atx 0 vs proofs).1,
        (collectProofs cr atx 0 vs proofs).2.map fun c => { c with atxOf := i }) := by
  induction proofs with
  | nil => rfl
  | cons head rest ih =>
    obtain ⟨proof, k⟩ := head
    simp only [collectProofs]
    cases prepareSingleProof cr atx vs proof k with
    | error e => rfl
    | ok check => simp only [ih, List.map_cons]

theorem collectATXChecks_atxIdx (cr : Crypto) (e : EpochResolver) (round : Nat)
    (atx : AttestedTransaction) (i : Nat) :
    collectATXChecks cr e round atx i =
      ((collectATXChecks cr e round atx 0).1,
        (collectATXChecks cr e round atx 0).2.map fun c => { c with atxOf := i }) := by
  unfold collectATXChecks
  cases e.resolveHolders atx.attestationEpoch round with
  | error err => rfl
  | ok vs => exact collectProofs_atxIdx ..

theorem applySignatures_relabel (cr : Crypto) (i : Nat) (r : Option ProofError)
    (checks : List PlannedCheck) :
    applySignatures cr r (checks.map fun c => { c with atxOf := i }) =
      applySignatures cr r checks := by
  simp only [applySignatures, List.foldl_map]

/-- The verdict on one transaction: its early rejection, or its first bad signature. -/
def atxVerdict (cr : Crypto) (e : EpochResolver) (round : Nat) (atx : AttestedTransaction) :
    Option ProofError :=
  applySignatures cr (collectATXChecks cr e round atx 0).1 (collectATXChecks cr e round atx 0).2

variable {e : EpochResolver} {i : Nat} {vs : ValidatorSet}

theorem atxOf_of_mem {c : PlannedCheck} (h : c ∈ (collectATXChecks cr e round atx i).2) :
    c.atxOf = i := by
  rw [collectATXChecks_atxIdx] at h
  obtain ⟨c', -, rfl⟩ := List.mem_map.1 h
  rfl

private theorem filter_plan (cr : Crypto) (e : EpochResolver) (round j : Nat) :
    ∀ (atxs : List AttestedTransaction) (k : Nat),
      (((atxs.zipIdx k).flatMap fun p => (collectATXChecks cr e round p.1 p.2).2).filter
          fun c => c.atxOf = j) =
        ((if j < k then none else atxs[j - k]?).map fun atx =>
          (collectATXChecks cr e round atx j).2).getD [] := by
  intro atxs
  induction atxs with
  | nil => intro k; simp
  | cons atx rest ih =>
    intro k
    rw [List.zipIdx_cons, List.flatMap_cons, List.filter_append, ih]
    have hnone (hne : k ≠ j) :
        (collectATXChecks cr e round atx k).2.filter (fun c => c.atxOf = j) = [] :=
      List.filter_eq_nil_iff.2 fun c hc => by simpa [atxOf_of_mem hc] using hne
    rcases Nat.lt_trichotomy j k with hlt | rfl | hgt
    · simp [hnone hlt.ne', hlt, Nat.lt_succ_of_lt hlt]
    · have hall : (collectATXChecks cr e round atx j).2.filter (fun c => c.atxOf = j) =
          (collectATXChecks cr e round atx j).2 :=
        List.filter_eq_self.2 fun c hc => by simp [atxOf_of_mem hc]
      simp [hall]
    · obtain ⟨d, rfl⟩ := Nat.exists_eq_add_of_lt hgt
      simp [hnone hgt.ne, show k + d + 1 - k = d + 1 by omega, show ¬ k + d + 1 < k by omega,
        show ¬ k + d + 1 < k + 1 by omega, show k + d + 1 - (k + 1) = d by omega]

theorem verifyBatch_eq_map (cr : Crypto) (e : EpochResolver) (round : Nat)
    (atxs : List AttestedTransaction) :
    verifyBatch cr e round atxs = atxs.map (atxVerdict cr e round) := by
  refine List.ext_getElem? fun i => ?_
  rw [verifyBatch]
  simp only
  rw [getElem?_foldl_applyBatchVerdict, List.flatMap_map, filter_plan]
  simp only [List.getElem?_map, List.getElem?_zipIdx, Nat.not_lt_zero, if_false, Nat.sub_zero,
    Option.map_map]
  cases atxs[i]? with
  | none => rfl
  | some atx =>
    simp only [Option.map_some, Function.comp_apply, Nat.zero_add, Option.getD_some, atxVerdict]
    rw [collectATXChecks_atxIdx cr e round atx i, applySignatures_relabel]

theorem verify_eq_atxVerdict (cr : Crypto) (e : EpochResolver) (round : Nat)
    (atx : AttestedTransaction) : verify cr e round atx = atxVerdict cr e round atx := by
  rw [verify, verifyBatch_eq_map]
  rfl

/-! ## Acceptance -/

theorem applySignatures_eq_none {checks : List PlannedCheck} :
    ∀ {r : Option ProofError}, applySignatures cr r checks = none ↔
      r = none ∧ ∀ c ∈ checks, c.check.passes cr = true := by
  induction checks with
  | nil => intro r; simp [applySignatures]
  | cons c checks ih =>
    intro r
    simp only [applySignatures, List.foldl_cons] at ih ⊢
    rw [ih]
    cases hpass : c.check.passes cr <;> cases r <;> simp [hpass]

/-- A proof passes: its entry is found, its signers are a quorum, and their signature
verifies. -/
def ProofPasses (cr : Crypto) (atx : AttestedTransaction) (vs : ValidatorSet)
    (proof : QuorumProof) (k : Nat) : Prop :=
  ∃ check, prepareSingleProof cr atx vs proof k = .ok check ∧ check.passes cr = true

/-- What passing says of the signers and their signature. -/
theorem proofPasses_iff {proof : QuorumProof} {k : Nat} {o : Object}
    (h : (findATXObjectIndex atx proof.objectID).bind (atx.objects[·]?) = some o) :
    ProofPasses cr atx vs proof k ↔
      let holders := computeHolders cr vs (toHash proof.objectID) o.replication.toNat
      let keys := extractSignerBLSKeys proof.signerBitmap holders vs
      keys.length ≠ 0 ∧ quorumSize holders.length ≤ keys.length ∧
        proof.blsSignature.length = 96 ∧
        cr.blsVerifyAggregated proof.blsSignature
          (computeObjectHash cr o.content o.version o.owner).val keys = true := by
  simp only [ProofPasses, prepareSingleProof, h]
  split_ifs with hnone hfew
  · simp [hnone]
  · simp [Nat.not_le.2 hfew]
  · have hkeys := List.length_eq_zero_iff.not.1 hnone
    simp [AggCheck.passes, hkeys, Nat.not_lt.1 hfew]

theorem collectProofs_passes {proofs : List (QuorumProof × Nat)} :
    ((collectProofs cr atx i vs proofs).1 = none ∧
        ∀ c ∈ (collectProofs cr atx i vs proofs).2, c.check.passes cr = true) ↔
      ∀ p ∈ proofs, ProofPasses cr atx vs p.1 p.2 := by
  induction proofs with
  | nil => simp [collectProofs]
  | cons head rest ih =>
    obtain ⟨proof, k⟩ := head
    cases hprep : prepareSingleProof cr atx vs proof k with
    | error err => simp [collectProofs, ProofPasses, hprep]
    | ok check =>
      simp only [collectProofs, hprep, List.forall_mem_cons, ProofPasses, Except.ok.injEq,
        exists_eq_left']
      tauto

/-- A transaction is accepted when its epoch resolves and each of its proofs passes. -/
theorem atxVerdict_eq_none :
    atxVerdict cr e round atx = none ↔
      ∃ vs, e.resolveHolders atx.attestationEpoch round = .ok vs ∧
        ∀ p ∈ atx.proofs.zipIdx, ProofPasses cr atx vs p.1 p.2 := by
  rw [atxVerdict, applySignatures_eq_none, collectATXChecks]
  cases e.resolveHolders atx.attestationEpoch round with
  | error err => simp
  | ok vs => simp [collectProofs_passes]

/-! ## The cursor -/

/-- The verdicts of a batch and how many are used up. -/
structure ProofVerdicts where
  errs : List (Option ProofError)
  cursor : Nat := 0
  deriving DecidableEq

/-- The transactions of a batch that go through the proof gate. -/
def collectRoundProofs (atxs : List AttestedTransaction) : List AttestedTransaction :=
  atxs.filter fun atx => atx.transaction.isSome && atx.proofs.length != 0

def verifyRoundProofs (nd : Node) (round : Nat) (atxs : List AttestedTransaction) :
    ProofVerdicts where
  errs := verifyBatch nd.crypto nd.epochs round (collectRoundProofs atxs)

namespace ProofVerdicts

/-- Take the next verdict. A transaction without proofs takes none, and neither does one
past the end. -/
def next (p : ProofVerdicts) (hasProofs : Bool) : Option ProofError × ProofVerdicts :=
  if !hasProofs then (none, p)
  else
    match p.errs[p.cursor]? with
    | none => (none, p)
    | some err => (err, { p with cursor := p.cursor + 1 })

/-- The verdict a transaction is handed. One without a body leaves the commit path before
it asks. -/
def proofVerdict (p : ProofVerdicts) (atx : AttestedTransaction) :
    Option ProofError × ProofVerdicts :=
  if atx.transaction.isNone then (none, p) else p.next (atx.proofs.length > 0)

/-- The cursor behind a run of transactions. -/
def advance (p : ProofVerdicts) (atxs : List AttestedTransaction) : ProofVerdicts :=
  atxs.foldl (fun p atx => (p.proofVerdict atx).2) p

end ProofVerdicts

/-! ## The cursor stays in step -/

/-- The verdict of the path without a batch: a transaction with proofs is verified where
it is applied. -/
def inlineVerdict (nd : Node) (round : Nat) (atx : AttestedTransaction) : Option ProofError :=
  if atx.transaction.isSome && atx.proofs.length != 0 then
    verify nd.crypto nd.epochs round atx
  else none

namespace ProofVerdicts

/-- What is left behind the cursor is one verdict for each transaction to come. -/
def InStep (nd : Node) (round : Nat) (p : ProofVerdicts) (rest : List AttestedTransaction) :
    Prop :=
  p.errs.drop p.cursor = (collectRoundProofs rest).map (inlineVerdict nd round)

theorem inStep_verifyRoundProofs (nd : Node) (round : Nat) (atxs : List AttestedTransaction) :
    (verifyRoundProofs nd round atxs).InStep nd round atxs := by
  simp only [InStep, verifyRoundProofs, verifyBatch_eq_map, List.drop_zero]
  refine List.map_congr_left fun atx hatx => ?_
  have hgate := (List.mem_filter.1 hatx).2
  rw [inlineVerdict, if_pos hgate, verify_eq_atxVerdict]

variable {nd : Node} {p : ProofVerdicts} {rest : List AttestedTransaction}

/-- One transaction takes its own verdict and leaves the cursor in step. -/
theorem InStep.proofVerdict (h : p.InStep nd round (atx :: rest)) :
    (p.proofVerdict atx).1 = inlineVerdict nd round atx ∧
      (p.proofVerdict atx).2.InStep nd round rest := by
  unfold InStep collectRoundProofs at h
  cases hgate : atx.transaction.isSome && atx.proofs.length != 0 with
  | false =>
    rw [List.filter_cons_of_neg (by simp [hgate])] at h
    have hskip : p.proofVerdict atx = (none, p) := by
      unfold ProofVerdicts.proofVerdict next
      cases htx : atx.transaction with
      | none => rfl
      | some tx =>
        have : atx.proofs = [] := by simpa [htx] using hgate
        simp [this]
    rw [hskip, inlineVerdict, hgate]
    exact ⟨rfl, h⟩
  | true =>
    rw [List.filter_cons_of_pos (by simpa using hgate), List.map_cons] at h
    have hget : p.errs[p.cursor]? = some (inlineVerdict nd round atx) := by
      have := congrArg List.head? h
      rwa [List.head?_drop, List.head?_cons] at this
    have htake : p.proofVerdict atx =
        (inlineVerdict nd round atx, { p with cursor := p.cursor + 1 }) := by
      simp only [Bool.and_eq_true, bne_iff_ne] at hgate
      have hnone : atx.transaction.isNone = false := by
        rw [← Option.not_isSome, hgate.1]
        rfl
      simp [ProofVerdicts.proofVerdict, next, hnone, Nat.pos_of_ne_zero hgate.2, hget]
    rw [htake]
    refine ⟨rfl, ?_⟩
    have := congrArg List.tail h
    rwa [List.tail_drop, List.tail_cons] at this

theorem InStep.advance {pre : List AttestedTransaction} (h : p.InStep nd round (pre ++ rest)) :
    (p.advance pre).InStep nd round rest := by
  induction pre generalizing p with
  | nil => exact h
  | cons atx pre ih => exact ih h.proofVerdict.2

end ProofVerdicts

/-- In every committed batch the transaction behind any run of others is handed its own
verdict. -/
theorem proofVerdict_in_batch (nd : Node) (round : Nat) (pre rest : List AttestedTransaction)
    (atx : AttestedTransaction) :
    (((verifyRoundProofs nd round (pre ++ atx :: rest)).advance pre).proofVerdict atx).1 =
      inlineVerdict nd round atx :=
  (ProofVerdicts.inStep_verifyRoundProofs nd round (pre ++ atx :: rest)).advance.proofVerdict.1

end BluePods
