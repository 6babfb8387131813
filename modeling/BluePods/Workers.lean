import BluePods.Coverage

/-! The workers that check the signatures of a batch. They pull the checks off a shared
counter and write each verdict into its own slot, so that once all of them have returned the
verdicts are those of one pass in order, and every transaction is handed its own. -/

namespace BluePods

/-! ## The pool -/

/-- The shared counter, the indices that some worker took and still works on, and the
verdicts written so far. -/
structure AggPool where
  next : Nat := 0
  taken : List Nat := []
  results : List Bool

namespace AggPool

def start (items : List AggCheck) : AggPool where
  results := List.replicate items.length false

/-- A worker takes an index off the counter, and returns if it is past the items; or the one
that took `i` writes its verdict. -/
def step (cr : Crypto) (items : List AggCheck) (p : AggPool) : Option Nat → AggPool
  | none =>
    { p with
      next := p.next + 1
      taken := if p.next < items.length then p.next :: p.taken else p.taken }
  | some i =>
    if i ∈ p.taken then
      { p with
        taken := p.taken.erase i
        results := p.results.set i (items[i]?.any (·.passes cr)) }
    else p

/-- The steps of the workers in the order of a schedule. -/
def run (cr : Crypto) (items : List AggCheck) (schedule : List (Option Nat)) : AggPool :=
  schedule.foldl (step cr items) (start items)

/-- Every worker has returned: the counter is past the items, and nobody works on one. -/
def Finished (items : List AggCheck) (p : AggPool) : Prop :=
  items.length ≤ p.next ∧ p.taken = []

instance (items : List AggCheck) (p : AggPool) : Decidable (p.Finished items) :=
  inferInstanceAs (Decidable (_ ∧ _))

variable {cr : Crypto} {items : List AggCheck} {p : AggPool}

/-- Every index off the counter has its verdict, or a worker that will write it. -/
structure Inv (cr : Crypto) (items : List AggCheck) (p : AggPool) : Prop where
  slots : p.results.length = items.length
  written : ∀ i < p.next, ∀ item, items[i]? = some item →
    p.results[i]? = some (item.passes cr) ∨ i ∈ p.taken

theorem Inv.step (h : p.Inv cr items) (event : Option Nat) :
    (p.step cr items event).Inv cr items := by
  cases event with
  | none =>
    refine ⟨h.slots, fun i hi item hitem => ?_⟩
    have hlen := (List.getElem?_eq_some_iff.1 hitem).1
    rcases Nat.lt_succ_iff_lt_or_eq.1 hi with hlt | rfl
    · refine (h.written i hlt item hitem).imp_right fun hmem => ?_
      dsimp only [AggPool.step]
      split
      · exact List.mem_cons_of_mem _ hmem
      · exact hmem
    · exact .inr (by simp [AggPool.step, hlen])
  | some j =>
    unfold AggPool.step
    dsimp only
    split
    · refine ⟨List.length_set.trans h.slots, fun i hi item hitem => ?_⟩
      by_cases hij : i = j
      · subst hij
        have hlen : i < p.results.length := h.slots ▸ (List.getElem?_eq_some_iff.1 hitem).1
        left
        rw [List.getElem?_set_self hlen, hitem]
        rfl
      · rw [List.getElem?_set_ne (Ne.symm hij), List.mem_erase_of_ne hij]
        exact h.written i hi item hitem
    · exact h

theorem inv_run (cr : Crypto) (items : List AggCheck) (schedule : List (Option Nat)) :
    (run cr items schedule).Inv cr items :=
  List.foldlRecOn schedule _ ⟨List.length_replicate, fun i hi => absurd hi (Nat.not_lt_zero i)⟩
    fun _ h event _ => h.step event

theorem results_eq {schedule : List (Option Nat)} (hdone : (run cr items schedule).Finished items) :
    (run cr items schedule).results = items.map (·.passes cr) := by
  have h := inv_run cr items schedule
  refine List.ext_getElem? fun i => ?_
  rw [List.getElem?_map]
  cases hitem : items[i]? with
  | none => exact List.getElem?_eq_none (h.slots ▸ List.getElem?_eq_none_iff.1 hitem)
  | some item =>
    have hlen := (List.getElem?_eq_some_iff.1 hitem).1
    rcases h.written i (hlen.trans_le hdone.1) item hitem with hres | hmem
    · exact hres
    · rw [hdone.2] at hmem
      cases hmem

end AggPool

/-! ## The verdicts of a batch -/

/-- The checks of a batch, and the rejections made without them. -/
def prepareBatch (cr : Crypto) (e : EpochResolver) (round : Nat) (atxs : List AttestedTransaction) :
    List PlannedCheck × List (Option ProofError) :=
  let collected := atxs.zipIdx.map fun (atx, i) => collectATXChecks cr e round atx i
  (collected.flatMap (·.2), collected.map (·.1))

/-- Fold the verdicts of the workers back into those of the transactions. -/
def applyBatchVerdicts (plan : List PlannedCheck) (verdicts : List Bool)
    (results : List (Option ProofError)) : List (Option ProofError) :=
  (plan.zip verdicts).foldl (fun results p =>
    if p.2 then results
    else results.modify p.1.atxOf fun r => r.or (some (.signatureInvalid p.1.proofOf))) results

theorem applyBatchVerdicts_eq_foldl (cr : Crypto) (plan : List PlannedCheck)
    (results : List (Option ProofError)) :
    applyBatchVerdicts plan ((plan.map (·.check)).map (·.passes cr)) results =
      plan.foldl (applyBatchVerdict cr) results := by
  rw [applyBatchVerdicts, List.map_map, List.zip_map_right, List.foldl_map]
  induction plan generalizing results with
  | nil => rfl
  | cons c plan ih => exact ih _

/-- The verdicts the apply loop takes from the workers after a schedule. -/
def pooledVerdicts (nd : Node) (round : Nat) (schedule : List (Option Nat))
    (atxs : List AttestedTransaction) : ProofVerdicts where
  errs :=
    let plan := prepareBatch nd.crypto nd.epochs round (collectRoundProofs atxs)
    applyBatchVerdicts plan.1 (AggPool.run nd.crypto (plan.1.map (·.check)) schedule).results plan.2

/-- A schedule that ends with all workers returned. -/
def FullSchedule (nd : Node) (round : Nat) (atxs : List AttestedTransaction)
    (schedule : List (Option Nat)) : Prop :=
  let checks := (prepareBatch nd.crypto nd.epochs round (collectRoundProofs atxs)).1.map (·.check)
  (AggPool.run nd.crypto checks schedule).Finished checks

instance (nd : Node) (round : Nat) (atxs : List AttestedTransaction)
    (schedule : List (Option Nat)) : Decidable (FullSchedule nd round atxs schedule) :=
  inferInstanceAs (Decidable (AggPool.Finished _ _))

theorem pooledVerdicts_eq {nd : Node} {round : Nat} {schedule : List (Option Nat)}
    {atxs : List AttestedTransaction} (hdone : FullSchedule nd round atxs schedule) :
    pooledVerdicts nd round schedule atxs = verifyRoundProofs nd round atxs := by
  rw [pooledVerdicts, verifyRoundProofs, verifyBatch]
  dsimp only
  rw [AggPool.results_eq hdone, applyBatchVerdicts_eq_foldl]
  rfl

theorem verify_of_no_proofs {cr : Crypto} {e : EpochResolver} {round : Nat}
    {atx : AttestedTransaction} (h : atx.proofs = []) :
    verify cr e round atx = none ↔ ∃ vs, e.resolveHolders atx.attestationEpoch round = .ok vs := by
  rw [verify_eq_atxVerdict, atxVerdict_eq_none, h]
  simp

/-- Whatever the schedule of the workers, a transaction with a body and a proof is handed the
verdict on it alone, and any other is handed none. So what a transaction with a body is handed
is an error exactly when the verifier reports one, unless it carries no proof and names an
epoch that does not resolve. -/
theorem handed_verdict_iff_verify (nd : Node) (round : Nat)
    (vertices : List (List AttestedTransaction)) (pre rest : List AttestedTransaction)
    (atx : AttestedTransaction) (schedule : List (Option Nat))
    (hbatch : vertices.flatten = pre ++ atx :: rest)
    (hdone : FullSchedule nd round vertices.flatten schedule) :
    let handed := (((pooledVerdicts nd round schedule vertices.flatten).advance pre).proofVerdict
      atx).1
    let alone := verify nd.crypto nd.epochs round atx
    (handed = if atx.transaction.isSome ∧ atx.proofs ≠ [] then alone else none) ∧
      (atx.transaction.isSome → ((handed.isSome ↔ alone.isSome) ↔
        atx.proofs ≠ [] ∨ ∃ vs, nd.epochs.resolveHolders atx.attestationEpoch round = .ok vs)) := by
  intro handed alone
  have hhanded : handed = if atx.transaction.isSome ∧ atx.proofs ≠ [] then alone else none := by
    have hinline : handed = inlineVerdict nd round atx := by
      change ((ProofVerdicts.advance (pooledVerdicts ..) pre).proofVerdict atx).1 = _
      rw [pooledVerdicts_eq hdone, hbatch]
      exact proofVerdict_in_batch nd round pre rest atx
    rw [hinline]
    simp [inlineVerdict, alone]
  refine ⟨hhanded, fun hbody => ?_⟩
  by_cases hproofs : atx.proofs = []
  · have hverify : alone = none ↔ _ := verify_of_no_proofs hproofs
    rw [hhanded, if_neg fun h => h.2 hproofs, ← hverify]
    cases alone <;> simp [hproofs]
  · rw [hhanded, if_pos ⟨hbody, hproofs⟩]
    simp [hproofs]

/-- In front: a proven copy, a transaction without proofs, and proofs without one. -/
def mixedBatch : List AttestedTransaction :=
  [copying (replicatedCopy 3 10), { transaction := some updatingBody },
    { copying (replicatedCopy 3 10) with transaction := none }]

/-- A copy whose proof carries no signature. -/
def unsignedCopy : AttestedTransaction :=
  { copying (replicatedCopy 3 10) with
    proofs := [{ soloProof (replicatedCopy 3 10) with blsSignature := List.replicate 96 0 }] }

/-- Two workers take both checks before either is done, and the later one finishes first. -/
theorem handed_verdict_iff_verify_copy :
    (((pooledVerdicts (soloNode (podReturning {})) 0 [none, none, some 1, none, some 0, none]
        (mixedBatch ++ [unsignedCopy])).advance mixedBatch).proofVerdict unsignedCopy).1 =
      some (.signatureInvalid 0) :=
  (handed_verdict_iff_verify (soloNode (podReturning {})) 0 [mixedBatch, [unsignedCopy]] mixedBatch
    [] unsignedCopy _ rfl (by decide +kernel)).1.trans (by decide +kernel)

/-- Without proofs, a transaction of an epoch to come passes the gate and not the verifier. -/
theorem proofless_future_epoch_passes :
    let atx : AttestedTransaction := { transaction := some updatingBody, attestationEpoch := 7 }
    let nd := soloNode (podReturning {})
    FullSchedule nd 0 [atx] [none] ∧
      ((pooledVerdicts nd 0 [none] [atx]).proofVerdict atx).1 = none ∧
      verify nd.crypto nd.epochs 0 atx = some .epochInvalid := by
  decide +kernel

end BluePods
