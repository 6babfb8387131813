import BluePods.Control

/-! What a committed transaction can do to the tracker, stated once: raise the versions of
its mutable references, run declared operations, drop declared deletions, and track the
objects its pod creates. -/

namespace BluePods
namespace Ledger

variable (st : Ledger) (tx : Transaction) (nd : Node) (out : PodOutput)

/-! ## The pod call -/

theorem applyUpdatedObjects_frame :
    (st.applyUpdatedObjects out).tracker = st.tracker ∧
      (st.applyUpdatedObjects out).validators = st.validators := by
  unfold applyUpdatedObjects
  induction out.updatedObjects generalizing st with
  | nil => exact ⟨rfl, rfl⟩
  | cons o os ih => exact ih _

theorem applyDeletedObjects_tracker : (st.applyDeletedObjects tx).tracker = st.tracker := by
  unfold applyDeletedObjects
  induction declaredDeletedIDs tx generalizing st with
  | nil => rfl
  | cons id ids ih =>
    rw [List.foldl_cons, ih]
    unfold deleteHeldContent
    split
    · rfl
    · split <;> rfl

theorem ensureMutableVersions_tracker : (st.ensureMutableVersions tx).tracker = st.tracker := by
  unfold ensureMutableVersions
  induction tx.mutableRefs generalizing st with
  | nil => rfl
  | cons r refs ih =>
    rw [List.foldl_cons, ih]
    unfold ensureMutableVersion
    repeat' split
    all_goals rfl

/-- Track one created object under a deposit that the caller stamps. -/
def trackCreated (nd : Node) (tx : Transaction) (deposit : Object → UInt64) (ot : Tracker)
    (created : Object × Nat) : Tracker :=
  ot.trackObject (computeObjectID nd.crypto (hashOrZero tx.hash) created.2) created.1.version
    created.1.replication (deposit created.1) created.1.parentKind created.1.objectOwner

theorem applyCreatedObjects_tracker (tx : Transaction) :
    (st.applyCreatedObjects nd out tx).tracker =
      out.createdObjects.zipIdx.foldl (trackCreated nd tx (st.stampedDeposit nd tx))
        st.tracker := by
  unfold applyCreatedObjects
  generalize out.createdObjects.zipIdx = created
  induction created generalizing st with
  | nil => rfl
  | cons c created ih =>
    have hstep : (applyCreatedObject nd tx st c).tracker =
          trackCreated nd tx (st.stampedDeposit nd tx) st.tracker c ∧
        (applyCreatedObject nd tx st c).validators = st.validators := by
      obtain ⟨o, i⟩ := c
      simp only [applyCreatedObject]
      split <;> exact ⟨rfl, rfl⟩
    have hstamp : (applyCreatedObject nd tx st c).stampedDeposit nd tx =
        st.stampedDeposit nd tx := by
      funext o
      simp only [stampedDeposit, hstep.2]
    rw [List.foldl_cons, ih, hstep.1, hstamp, List.foldl_cons]

/-- What a pod call does to the tracker: nothing, or the tracking of the objects of an
output that passed validation. -/
theorem runPod_tracker (tx : Transaction) (atx : AttestedTransaction) (split : FeeSplit)
    (withheld : UInt64) :
    (st.runPod nd tx atx split withheld).ledger.tracker = st.tracker ∨
      ∃ out deposit, nd.pods (hashOrZero tx.pod) (st.podInput tx atx) = .ok (some out) ∧
        st.validateOutput nd out tx (st.podObjects tx atx) = .ok () ∧
        (st.runPod nd tx atx split withheld).exit = .executed ∧
        (st.runPod nd tx atx split withheld).ledger.tracker =
          out.createdObjects.zipIdx.foldl (trackCreated nd tx deposit) st.tracker := by
  unfold runPod execute
  cases hpod : nd.pods (hashOrZero tx.pod) (st.podInput tx atx) with
  | error e => exact .inl rfl
  | ok out =>
    cases out with
    | none => exact .inl (ensureMutableVersions_tracker st tx)
    | some out =>
      simp only [processOutput]
      split
      · rename_i st' hst'
        split at hst'
        · cases hst'
        · rename_i st₁ hst₁
          split at hst₁
          · cases hst₁
          · split at hst₁
            · cases hst₁
            · rename_i hvalid
              obtain rfl := Except.ok.inj hst'
              obtain rfl := Except.ok.inj hst₁
              refine .inr ⟨out, (st.applyUpdatedObjects out).stampedDeposit nd tx, rfl, hvalid, rfl,
                ?_⟩
              rw [ensureMutableVersions_tracker, applyDeletedObjects_tracker,
                applyCreatedObjects_tracker, (applyUpdatedObjects_frame st out).1]
      · exact .inl rfl

/-! ## The transaction -/

/-- The tracker behind the gates and the declared deletions. -/
def trackerSettled (st : Ledger) (tx : Transaction) : Tracker :=
  (ownedDeletedRefs tx).foldl Tracker.deleteObject (st.tracker.incrementMutableObjects tx)

/-- The ways a transaction leaves the tracker. -/
inductive TrackerStep (st : Ledger) (nd : Node) (atx : AttestedTransaction) (commitRound : Nat)
    (verdict : Option ProofError) : Tracker → Prop
  | kept (rejected : ∀ tx, ¬ st.Admits nd atx commitRound verdict tx) :
    TrackerStep st nd atx commitRound verdict st.tracker
  | bumped {tx : Transaction} (admits : st.Admits nd atx commitRound verdict tx)
    (early : (st.feeStage nd tx atx).proceed = true → tx.operations = [] →
      ¬ st.Clears nd atx tx) :
    TrackerStep st nd atx commitRound verdict (st.tracker.incrementMutableObjects tx)
  | operated {tx : Transaction} {st₁ st' : Ledger}
    (admits : st.Admits nd atx commitRound verdict tx) (operates : tx.operations ≠ [])
    (tracker : st₁.tracker = st.tracker.incrementMutableObjects tx)
    (accepted : st₁.handleDeclaredOps nd.feeParams tx
      (UInt64.ofNat (nd.epochs.commitEpochForRound commitRound)) = some st') :
    TrackerStep st nd atx commitRound verdict st'.tracker
  | deleted {tx : Transaction} (admits : st.Admits nd atx commitRound verdict tx)
    (pays : (st.feeStage nd tx atx).proceed = true) (call : tx.operations = [])
    (clears : st.Clears nd atx tx) :
    TrackerStep st nd atx commitRound verdict (st.trackerSettled tx)
  | created {tx : Transaction} {st₁ : Ledger} {out : PodOutput} {deposit : Object → UInt64}
    {split : FeeSplit} {withheld : UInt64} (admits : st.Admits nd atx commitRound verdict tx)
    (pays : (st.feeStage nd tx atx).proceed = true) (call : tx.operations = [])
    (clears : st.Clears nd atx tx)
    (prepared : st.prepareTx nd atx commitRound verdict = .ok (tx, st₁, split, withheld))
    (executed : (st.executeTx nd atx commitRound verdict).exit = .executed)
    (tracker : st₁.tracker = st.trackerSettled tx) (domains : st₁.domains = st.domains)
    (pod : nd.pods (hashOrZero tx.pod) (st₁.podInput tx atx) = .ok (some out))
    (valid : st₁.validateOutput nd out tx (st₁.podObjects tx atx) = .ok ()) :
    TrackerStep st nd atx commitRound verdict
      (out.createdObjects.zipIdx.foldl (trackCreated nd tx deposit) (st.trackerSettled tx))

/-- The settlement stage leaves the tracker alone, or takes the declared deletions out of
it, by whether its checks let the transaction pass. -/
theorem settleTx_tracker {st : Ledger} {tx : Transaction} {atx : AttestedTransaction}
    (split : FeeSplit) :
    (∃ out, st.settleTx nd tx atx split = .error out ∧
        (¬ st.Clears nd atx tx ∧ out.ledger.tracker = st.tracker ∨
          st.Clears nd atx tx ∧ out.ledger.tracker =
            (ownedDeletedRefs tx).foldl Tracker.deleteObject st.tracker)) ∨
      ∃ st₁, st.settleTx nd tx atx split = .ok st₁ ∧ st.Clears nd atx tx ∧
        st₁.tracker = (ownedDeletedRefs tx).foldl Tracker.deleteObject st.tracker ∧
        st₁.domains = st.domains := by
  rcases st.settleTx_cases nd tx atx split with
    ⟨hown, heq⟩ | ⟨hown, ⟨hreg, heq⟩ | ⟨hreg, heq⟩ | ⟨st₁, hreg, -, hrest⟩⟩
  · exact .inl ⟨_, heq, .inl ⟨fun h => by simp [h.owned] at hown, rfl⟩⟩
  · exact .inl ⟨_, heq, .inl ⟨fun h => by simpa [hreg] using h.registers, rfl⟩⟩
  · have hinvalid := (@handleRegisterValidator_blsPoPInvalid st tx nd).2 hreg
    exact .inl ⟨_, heq, .inl ⟨fun h => by simpa [hinvalid] using h.registers, rfl⟩⟩
  -- registration and stake leave the tracker alone
  have hstaked : (st₁.staked nd tx).tracker = st.tracker := by
    rw [staked_tracker, (handleRegisterValidator_ok hreg).2.1]
  obtain ⟨hsettled, hdomains⟩ :=
    (st₁.staked nd tx).settleDeletions_frame nd.feeParams tx (ownedDeletedRefs tx)
  rw [hstaked] at hsettled
  rw [staked_domains, handleRegisterValidator_domains hreg] at hdomains
  have hchildless := @deletesParent_eq_false (st₁.staked nd tx) tx
  rw [hstaked] at hchildless
  rcases hrest with ⟨hparent, heq⟩ | ⟨hparent, hends⟩
  · refine .inl ⟨_, heq, .inl ⟨fun h => ?_, hstaked⟩⟩
    simp [hchildless.2 h.childless] at hparent
  have hclears : st.Clears nd atx tx := ⟨hown, ⟨st₁, hreg⟩, hchildless.1 hparent⟩
  rcases hends with ⟨-, heq⟩ | heq
  · exact .inl ⟨_, heq, .inr ⟨hclears, hsettled⟩⟩
  · exact .inr ⟨_, heq, hclears, hsettled, hdomains⟩

/-- What a transaction that reaches the pod call has passed. -/
theorem prepareTx_ok {st st₁ : Ledger} {nd : Node} {atx : AttestedTransaction} {commitRound : Nat}
    {verdict : Option ProofError} {tx : Transaction} {split : FeeSplit} {withheld : UInt64}
    (h : st.prepareTx nd atx commitRound verdict = .ok (tx, st₁, split, withheld)) :
    st.Admits nd atx commitRound verdict tx ∧ st.Clears nd atx tx := by
  rcases st.prepareTx_cases nd atx commitRound verdict with
    ⟨marks, exit, -, heq, -⟩ | ⟨tx', hadmits, ⟨-, heq⟩ | ⟨-, -, heq⟩ | ⟨-, -, heq⟩⟩
  · simp [heq] at h
  · simp [heq] at h
  · simp [heq] at h
  rcases @settleTx_tracker nd (st.feeStage nd tx' atx).ledger tx' atx
    (st.feeStage nd tx' atx).split with ⟨out, hout, -⟩ | ⟨st₂, hok, hclears, -⟩
  · simp [heq, hout, Except.map] at h
  · rw [heq, hok] at h
    simp only [Except.map, Except.ok.injEq, Prod.mk.injEq] at h
    obtain ⟨rfl, -⟩ := h
    exact ⟨hadmits, (st.clears_feeStage nd tx' atx).1 hclears⟩

theorem executeTx_tracker (atx : AttestedTransaction) (commitRound : Nat)
    (verdict : Option ProofError) :
    st.TrackerStep nd atx commitRound verdict
      (st.executeTx nd atx commitRound verdict).ledger.tracker := by
  rcases st.prepareTx_cases nd atx commitRound verdict with
    ⟨marks, exit, -, heq, hno⟩ | ⟨tx, hadmits, hstages⟩
  · simp only [executeTx, heq]
    exact .kept hno
  have htracker : (st.feeStage nd tx atx).ledger.tracker =
      st.tracker.incrementMutableObjects tx := by
    rw [(deductFees_frame _ nd tx atx).1, admitted_tracker]
  rcases hstages with ⟨hpays, heq⟩ | ⟨-, hops, heq⟩ | ⟨hpays, hcall, heq⟩
  · simp only [executeTx, heq, htracker]
    exact .bumped hadmits fun h => by simp [hpays] at h
  · simp only [executeTx, heq, commitDeclaredOps]
    split
    · simp only [Option.getD_none, htracker]
      exact .bumped hadmits fun _ hcall => absurd hcall hops
    · cases happly : (st.feeStage nd tx atx).ledger.handleDeclaredOps nd.feeParams tx
        (UInt64.ofNat (nd.epochs.commitEpochForRound commitRound)) with
      | none =>
        simp only [Option.getD_none, htracker]
        exact .bumped hadmits fun _ hcall => absurd hcall hops
      | some st' => exact .operated hadmits hops htracker happly
  · have hends := @settleTx_tracker nd (st.feeStage nd tx atx).ledger tx atx
      (st.feeStage nd tx atx).split
    rw [clears_feeStage, htracker] at hends
    rcases hends with ⟨out, hout, hends⟩ | ⟨st₁, hok, hclears, hsettled, hdomains⟩
    · rw [hout] at heq
      simp only [executeTx, heq, Except.map]
      rcases hends with ⟨hstops, hsame⟩ | ⟨hclears, hsettled⟩
      · rw [hsame]
        exact .bumped hadmits fun _ _ => hstops
      · rw [hsettled]
        exact .deleted hadmits hpays hcall hclears
    · rw [hok] at heq
      simp only [Except.map] at heq
      rw [deductFees_domains, admitted_domains] at hdomains
      have hexec : st.executeTx nd atx commitRound verdict = st₁.runPod nd tx atx
          (st.feeStage nd tx atx).split
          (st.feeStage nd tx atx).withheld := by
        simp only [executeTx, heq]
      rcases st₁.runPod_tracker nd tx atx (st.feeStage nd tx atx).split
        (st.feeStage nd tx atx).withheld with
        hsame | ⟨out, deposit, hpod, hvalid, hexit, hcreated⟩
      · rw [hexec, hsame, hsettled]
        exact .deleted hadmits hpays hcall hclears
      · rw [hexec, hcreated, hsettled]
        refine .created hadmits hpays hcall hclears heq ?_ hsettled hdomains hpod hvalid
        rw [hexec, hexit]

end Ledger
end BluePods
