import BluePods.Crossing
import BluePods.IndexManager
import BluePods.Interference
import BluePods.Log
import BluePods.Writes

/-! What a node feeds its index. Created objects, reparents, deletions, names and frozen
holder sets are fed where they are applied; the entry that the version check makes for an
untracked reference is not. But for those the edits of a transaction and of a boundary are
what these do to the tracker, the names and the frozen holders. -/

namespace BluePods

open Index (Edit EdgeOp Manager View validatorLeaves)

/-! ## The edits of a transaction -/

namespace Ledger

/-- Writing a leaf feeds it. -/
def leafEdits (name : Bytes) (leaf : Option DomainLeaf) : List Edit :=
  leaf.toList.map (.applyDomain name)

def domainOpEdits (st : Ledger) (sender : Hash) (epoch maxTerm : UInt64) (op : DeclaredOp) :
    List Edit :=
  if op.kind = domainRegisterOp then
    leafEdits op.name ((domainExpiry 0 epoch op.termEpochs maxTerm).map fun expiry =>
      { objectID := toHash op.objectID, owner := sender, expiry })
  else if op.kind = domainRenewOp then
    leafEdits op.name ((st.domains.lookup op.name).bind fun leaf =>
      (domainExpiry leaf.expiry epoch op.termEpochs maxTerm).map fun expiry =>
        { leaf with expiry })
  else if op.kind = domainUpdateOp then
    leafEdits op.name ((st.domains.lookup op.name).bind fun leaf =>
      some { leaf with objectID := toHash op.objectID })
  else if op.kind = domainTransferOp then
    leafEdits op.name ((st.domains.lookup op.name).bind fun leaf =>
      some { leaf with owner := toHash op.target })
  else if op.kind = domainDeleteOp then [.removeDomain op.name]
  else []

def declaredOpEdits (st : Ledger) (sender : Hash) (epoch maxTerm : UInt64) (op : DeclaredOp) :
    List Edit :=
  if op.kind = reparentOp then
    [.applyEdge (toHash op.objectID) op.targetKind (toHash op.target)]
  else if op.kind = deleteOp then [.removeObject (toHash op.objectID)]
  else st.domainOpEdits sender epoch maxTerm op

/-- The edits of operations that are applied in order. -/
def declaredOpsEdits (p : FeeParams) (tx : Transaction) (sender : Hash) (epoch : UInt64) :
    Ledger → List DeclaredOp → List Edit
  | _, [] => []
  | st, op :: ops =>
    st.declaredOpEdits sender epoch p.maxTermEpochs op ++
      declaredOpsEdits p tx sender epoch (applyDeclaredOp p tx sender epoch st op) ops

def commitDeclaredOpsEdits (st : Ledger) (nd : Node) (tx : Transaction) (commitRound : Nat) :
    List Edit :=
  let epoch := UInt64.ofNat (nd.epochs.commitEpochForRound commitRound)
  if tx.txHasPodCall || tx.createdObjectsReplication.length ≠ 0 then []
  else
    match hash32 tx.sender, st.handleDeclaredOps nd.feeParams tx epoch with
    | some sender, some _ => declaredOpsEdits nd.feeParams tx sender epoch st tx.operations
    | _, _ => []

/-- Declared deletions are fed as they are settled. -/
def settleTxEdits (st : Ledger) (nd : Node) (tx : Transaction) (atx : AttestedTransaction) :
    List Edit :=
  if !st.validateMutableRefOwnership atx tx then []
  else
    match st.handleRegisterValidator nd tx with
    | .error _ => []
    | .ok st =>
      match ((st.handleDeregisterValidator nd tx).handleStake nd tx).settleDeclaredDeletions
          nd.feeParams tx with
      | none => []
      | some _ => (ownedDeletedRefs tx).map .removeObject

/-- A created object is fed as it is tracked. -/
def createdEdit (nd : Node) (tx : Transaction) (created : Object × Nat) : Edit :=
  .applyEdge (computeObjectID nd.crypto (hashOrZero tx.hash) created.2) created.1.parentKind
    created.1.objectOwner

def executeEdits (st : Ledger) (nd : Node) (tx : Transaction) (atx : AttestedTransaction) :
    List Edit :=
  match nd.pods (hashOrZero tx.pod) (st.podInput tx atx) with
  | .error () => []
  | .ok none => []
  | .ok (some out) =>
    match st.processOutput nd (some out) tx (st.podObjects tx atx) with
    | .error _ => []
    | .ok _ => out.createdObjects.zipIdx.map (createdEdit nd tx)

/-- The edits of one transaction, the frozen holders apart. -/
def executeTxEdits (st : Ledger) (nd : Node) (atx : AttestedTransaction) (commitRound : Nat)
    (verdict : Option ProofError) : List Edit :=
  match st.admitTx nd atx commitRound verdict with
  | .error _ => []
  | .ok (tx, st) =>
    let fees := st.deductFees nd tx atx
    if !fees.proceed then []
    else if tx.operations.length > 0 then fees.ledger.commitDeclaredOpsEdits nd tx commitRound
    else
      fees.ledger.settleTxEdits nd tx atx ++
        match fees.ledger.settleTx nd tx atx fees.split with
        | .error _ => []
        | .ok st => st.executeEdits nd tx atx

/-! ## What they are edits of -/

/-- The edges and names of a ledger, with given validators. -/
def view (st : Ledger) (validators : List ValidatorLeaf) : View where
  edges := st.tracker.getParent
  domains name := st.domains.lookup name
  validators := validators

variable {st st' : Ledger} {vals : List ValidatorLeaf}

theorem view_congr (htracker : st'.tracker = st.tracker) (hdomains : st'.domains = st.domains) :
    st'.view vals = st.view vals := by
  rw [view, view, htracker, hdomains]

theorem view_applyEdge {id parent : Hash} {kind : Byte}
    (htracker : ∀ x, st'.tracker.getParent x =
      if x = id then some (kind, parent) else st.tracker.getParent x)
    (hdomains : st'.domains = st.domains) :
    st'.view vals = (Edit.applyEdge id kind parent).update (st.view vals) := by
  have hedges : st'.tracker.getParent =
      (EdgeOp.set id kind parent).update st.tracker.getParent := by
    funext x
    rw [htracker, EdgeOp.update, Function.update_apply]
  rw [view, hedges, hdomains]
  rfl

theorem view_removeObject {id : Hash} (htracker : st'.tracker = st.tracker.deleteObject id)
    (hdomains : st'.domains = st.domains) :
    st'.view vals = (Edit.removeObject id).update (st.view vals) := by
  have hedges : st'.tracker.getParent = (EdgeOp.remove id).update st.tracker.getParent := by
    funext x
    rw [htracker, Tracker.getParent_deleteObject, EdgeOp.update, Function.update_apply]
  rw [view, hedges, hdomains]
  rfl

theorem view_setDomainLeaf (name : Bytes) (leaf : DomainLeaf) :
    (st.setDomainLeaf name leaf).view vals =
      (Edit.applyDomain name leaf).update (st.view vals) := by
  have hnames : (fun x => (st.setDomainLeaf name leaf).domains.lookup x) =
      Function.update (fun x => st.domains.lookup x) name (some leaf) := by
    funext x
    rw [lookup_setDomainLeaf, Function.update_apply]
  rw [view, hnames]
  rfl

theorem view_erase {name : Bytes} (htracker : st'.tracker = st.tracker)
    (hdomains : st'.domains = st.domains.erase name) :
    st'.view vals = (Edit.removeDomain name).update (st.view vals) := by
  have hnames : (fun x => st'.domains.lookup x) =
      Function.update (fun x => st.domains.lookup x) name none := by
    funext x
    by_cases hx : x = name
    · rw [hdomains, hx, AList.lookup_erase, Function.update_self]
    · rw [hdomains, AList.lookup_erase_ne hx, Function.update_of_ne hx]
  rw [view, hnames, htracker]
  rfl

theorem view_rewriteDomainLeaf (name : Bytes) (change : DomainLeaf → Option DomainLeaf) :
    (leafEdits name ((st.domains.lookup name).bind change)).foldl Edit.update (st.view vals) =
      (st.rewriteDomainLeaf name change).view vals := by
  rw [rewriteDomainLeaf]
  cases (st.domains.lookup name).bind change with
  | none => rfl
  | some leaf => exact (view_setDomainLeaf name leaf).symm

theorem view_applyDomainRegister (sender : Hash) (epoch maxTerm : UInt64) (op : DeclaredOp) :
    (leafEdits op.name ((domainExpiry 0 epoch op.termEpochs maxTerm).map fun expiry =>
        { objectID := toHash op.objectID, owner := sender, expiry })).foldl Edit.update
        (st.view vals) =
      (st.applyDomainRegister sender epoch maxTerm op).view vals := by
  rw [applyDomainRegister]
  cases domainExpiry 0 epoch op.termEpochs maxTerm with
  | none => rfl
  | some expiry => exact (view_setDomainLeaf op.name _).symm

theorem view_applyDomainOp (sender : Hash) (epoch maxTerm : UInt64) (op : DeclaredOp) :
    (st.domainOpEdits sender epoch maxTerm op).foldl Edit.update (st.view vals) =
      (st.applyDomainOp sender epoch maxTerm op).view vals := by
  unfold domainOpEdits applyDomainOp
  split
  · exact view_applyDomainRegister sender epoch maxTerm op
  · split
    · exact view_rewriteDomainLeaf op.name _
    · split
      · exact view_rewriteDomainLeaf op.name _
      · split
        · exact view_rewriteDomainLeaf op.name _
        · split
          · exact (@view_erase st (st.applyDomainDelete op) vals op.name rfl rfl).symm
          · rfl

section

variable (p : FeeParams) (tx : Transaction) (sender : Hash) (epoch : UInt64)

theorem view_applyDeclaredOp (op : DeclaredOp) :
    (st.declaredOpEdits sender epoch p.maxTermEpochs op).foldl Edit.update (st.view vals) =
      (applyDeclaredOp p tx sender epoch st op).view vals := by
  unfold declaredOpEdits applyDeclaredOp
  split
  · refine (view_applyEdge ?_ (applyReparent_domains ..)).symm
    rw [applyReparent_tracker]
    exact Tracker.getParent_setParent _ _ _ _
  · split
    · exact (view_removeObject (applyDelete_tracker ..) (applyDelete_domains ..)).symm
    · exact view_applyDomainOp sender epoch p.maxTermEpochs op

theorem view_declaredOps (ops : List DeclaredOp) :
    (declaredOpsEdits p tx sender epoch st ops).foldl Edit.update (st.view vals) =
      (ops.foldl (applyDeclaredOp p tx sender epoch) st).view vals := by
  induction ops generalizing st with
  | nil => rfl
  | cons op ops ih =>
    rw [declaredOpsEdits, List.foldl_append, view_applyDeclaredOp, ih]
    rfl

end

theorem view_commitDeclaredOps (nd : Node) (tx : Transaction) (commitRound : Nat)
    (split : FeeSplit) (withheld : UInt64) :
    (st.commitDeclaredOpsEdits nd tx commitRound).foldl Edit.update (st.view vals) =
      (st.commitDeclaredOps nd tx commitRound split withheld).ledger.view vals := by
  unfold commitDeclaredOpsEdits commitDeclaredOps
  dsimp only
  split
  · rfl
  · cases hops : st.handleDeclaredOps nd.feeParams tx
        (UInt64.ofNat (nd.epochs.commitEpochForRound commitRound)) with
    | none =>
      cases hash32 tx.sender with
      | none => rfl
      | some sender => rfl
    | some st' =>
      obtain ⟨_, sender, hsender, -, -, rfl, -⟩ := handleDeclaredOps_some hops
      rw [hsender]
      exact view_declaredOps nd.feeParams tx sender _ tx.operations

/-! ## Deletions and creations -/

theorem view_settleDeletions (p : FeeParams) (tx : Transaction) (ids : List Hash) :
    (ids.map Edit.removeObject).foldl Edit.update (st.view vals) =
      (st.settleDeletions p tx ids).view vals := by
  rw [List.foldl_map]
  refine List.foldl_hom (fun st : Ledger => st.view vals) fun st id => ?_
  obtain ⟨htracker, hdomains⟩ := st.settleDeletion_frame p id tx.txGasCoinID
  exact (view_removeObject htracker hdomains).symm

theorem view_staked (nd : Node) {tx : Transaction} {st₁ : Ledger}
    (h : st.handleRegisterValidator nd tx = .ok st₁) :
    (st₁.staked nd tx).view vals = st.view vals := by
  refine view_congr ?_ ?_
  · rw [staked_tracker, (handleRegisterValidator_ok h).2.1]
  · rw [staked_domains, handleRegisterValidator_domains h]

theorem view_settleTx (nd : Node) (tx : Transaction) (atx : AttestedTransaction)
    (split : FeeSplit) :
    (st.settleTxEdits nd tx atx).foldl Edit.update (st.view vals) =
      match st.settleTx nd tx atx split with
      | .error out => out.ledger.view vals
      | .ok st' => st'.view vals := by
  unfold settleTxEdits
  rcases st.settleTx_cases nd tx atx split with
    ⟨hown, heq⟩ | ⟨hown, ⟨hreg, heq⟩ | ⟨hunproven, heq⟩ | ⟨st₁, hreg, -, hends⟩⟩
  · rw [hown, heq]
    rfl
  · rw [hown, hreg, heq]
    rfl
  · rw [hown, handleRegisterValidator_blsPoPInvalid.2 hunproven, heq]
    rfl
  have hsame := @view_staked st vals nd tx st₁ hreg
  have hsettled := @view_settleDeletions (st₁.staked nd tx) vals nd.feeParams tx
    (ownedDeletedRefs tx)
  rw [hsame] at hsettled
  rw [hown, hreg]
  dsimp only [Bool.not_true]
  change (match (st₁.staked nd tx).settleDeclaredDeletions nd.feeParams tx with
    | none => []
    | some _ => (ownedDeletedRefs tx).map Edit.removeObject).foldl Edit.update (st.view vals) = _
  rcases hends with ⟨hparent, heq⟩ | ⟨hparent, hends⟩
  · rw [deletesParent] at hparent
    rw [heq, settleDeclaredDeletions, if_pos hparent]
    exact hsame.symm
  · rw [deletesParent, Bool.eq_false_iff] at hparent
    rw [settleDeclaredDeletions, if_neg hparent]
    rcases hends with ⟨-, heq⟩ | heq
    · rw [heq]
      exact hsettled
    · rw [heq]
      exact hsettled

theorem view_created (nd : Node) (tx : Transaction) (deposit : Object → UInt64)
    (created : List (Object × Nat)) (hdomains : st'.domains = st.domains)
    (htracker : st'.tracker = created.foldl (trackCreated nd tx deposit) st.tracker) :
    (created.map (createdEdit nd tx)).foldl Edit.update (st.view vals) = st'.view vals := by
  induction created generalizing st with
  | nil => exact (view_congr htracker hdomains).symm
  | cons c created ih =>
    have hstep := @view_applyEdge st { st with tracker := trackCreated nd tx deposit st.tracker c }
      vals _ _ _ (Tracker.getParent_trackObject st.tracker _ _ _ _ _ _) rfl
    rw [List.map_cons, List.foldl_cons, createdEdit, ← hstep]
    exact ih hdomains htracker

theorem view_runPod (nd : Node) (tx : Transaction) (atx : AttestedTransaction) (split : FeeSplit)
    (withheld : UInt64) :
    (st.executeEdits nd tx atx).foldl Edit.update (st.view vals) =
      (st.runPod nd tx atx split withheld).ledger.view vals := by
  unfold executeEdits
  cases hpod : nd.pods (hashOrZero tx.pod) (st.podInput tx atx) with
  | error e =>
    rw [runPod, execute, hpod]
    rfl
  | ok out =>
    cases out with
    | none =>
      have hexec : st.execute nd tx atx = .ok (st.ensureMutableVersions tx) := by
        rw [execute, hpod]
        rfl
      rw [runPod, hexec]
      exact (view_congr (ensureMutableVersions_tracker st tx)
        (execute_onlyBodies hexec).domains).symm
    | some out =>
      dsimp only
      cases hout : st.processOutput nd (some out) tx (st.podObjects tx atx) with
      | error e =>
        rw [runPod, execute, hpod]
        dsimp only
        rw [hout]
        rfl
      | ok st₁ =>
        have hexec : st.execute nd tx atx = .ok (st₁.ensureMutableVersions tx) := by
          rw [execute, hpod]
          dsimp only
          rw [hout]
        rw [runPod, hexec]
        refine view_created nd tx ((st.applyUpdatedObjects out).stampedDeposit nd tx) _
          (execute_onlyBodies hexec).domains ?_
        rw [(execute_ok hexec hpod).2, ensureMutableVersions_tracker, applyDeletedObjects_tracker,
          applyCreatedObjects_tracker, (applyUpdatedObjects_frame st out).1]

/-! ## The whole transaction -/

/-- The transaction references only tracked objects mutably. -/
def RefsTracked (st : Ledger) (tx : Transaction) : Prop :=
  ∀ id ∈ tx.mutableRefIDs, st.tracker.getParent id ≠ none

theorem view_admitted {tx : Transaction} (h : st.RefsTracked tx) :
    (st.admitted tx).view vals = st.view vals := by
  have hedges : (st.admitted tx).tracker.getParent = st.tracker.getParent := by
    funext x
    rw [admitted_tracker, Tracker.getParent_incrementMutableObjects]
    split
    · rename_i hx
      cases hedge : st.tracker.getParent x with
      | none => exact absurd hedge (h x hx)
      | some e => rfl
    · rfl
  rw [view, view, hedges, admitted_domains]

/-- The edits of a transaction that references tracked objects are what it does to the edges
and the names. -/
theorem view_executeTx (nd : Node) (atx : AttestedTransaction) (commitRound : Nat)
    (verdict : Option ProofError)
    (htracked : ∀ tx, st.Admits nd atx commitRound verdict tx → st.RefsTracked tx) :
    (st.executeTxEdits nd atx commitRound verdict).foldl Edit.update (st.view vals) =
      (st.executeTx nd atx commitRound verdict).ledger.view vals := by
  unfold executeTxEdits executeTx prepareTx
  rcases st.admitTx_cases nd atx commitRound verdict with
    ⟨marks, exit, -, herr, -⟩ | ⟨tx, hadmits, hok⟩
  · rw [herr]
    rfl
  rw [hok]
  simp only [bind, Except.bind]
  have hcharged : ((st.admitted tx).deductFees nd tx atx).ledger.view vals = st.view vals :=
    (view_congr (deductFees_frame _ nd tx atx).1 (deductFees_domains _ nd tx atx)).trans
      (view_admitted (htracked tx hadmits))
  generalize (st.admitted tx).deductFees nd tx atx = fees at hcharged
  rw [← hcharged]
  cases fees.proceed with
  | false => rfl
  | true =>
    simp only [Bool.not_true, Bool.false_eq_true, if_false]
    split
    · exact view_commitDeclaredOps ..
    · have hsettled := @view_settleTx fees.ledger vals nd tx atx fees.split
      rw [List.foldl_append, hsettled]
      cases fees.ledger.settleTx nd tx atx fees.split with
      | error out => rfl
      | ok st' => exact view_runPod ..

end Ledger

/-! ## The edits of a node -/

namespace Chain

/-- Freezing the genesis holders feeds them. -/
def refreezeEdits (votingCapMille : UInt64) (c : Chain) : List Edit :=
  if c.regime.strictLatched then []
  else if c.regime.currentEpoch = 0 then
    [.rebuildValidators (validatorLeaves votingCapMille c.freezeGenesisHolders.toValidatorSet)]
  else []

/-- The edits of one transaction with the refreezes it brings about. -/
def executeTxEdits (cfg : Config) (votingCapMille : UInt64) (c : Chain) (atx : AttestedTransaction)
    (commitRound : UInt64) (verdict : Option ProofError) : List Edit :=
  let nd := c.txNode cfg atx
  let out := c.ledger.executeTx nd atx commitRound.toNat verdict
  let c₁ : Chain := { c with ledger := out.ledger }
  let admitted := c.ledger.admitsSender out.ledger atx
  let c₂ :=
    if admitted then { c₁ with regimeDirty := true }.refreezeGenesisRegime cfg commitRound else c₁
  c.ledger.executeTxEdits nd atx commitRound.toNat verdict ++
    (if admitted then { c₁ with regimeDirty := true }.refreezeEdits votingCapMille else []) ++
    if c.ledger.bondApplied nd atx commitRound.toNat verdict then c₂.refreezeEdits votingCapMille
    else []

/-- A boundary feeds the names it sweeps and the holders it freezes. -/
def transitionEpochEdits (cfg : Config) (votingCapMille : UInt64) (c : Chain) : List Edit :=
  ((c.settledLedger cfg).expiredNames cfg.feeParams.graceEpochs
      (c.regime.currentEpoch + 1)).map .removeDomain ++
    [.rebuildValidators (validatorLeaves votingCapMille
      ((c.boundaryLedger cfg).snapshotEpochHolders cfg.maxChurnPerEpoch).toValidatorSet)]

/-- The frozen holders of the epoch, else the live validators. -/
def indexHolders (c : Chain) : ValidatorSet :=
  match c.regime.holdersForEpoch c.regime.currentEpoch.toNat with
  | some holders => holders.toValidatorSet
  | none => c.ledger.validators

def indexTrackerEntries (c : Chain) : List Index.TrackerEntry :=
  c.ledger.tracker.entries.map fun e => ⟨e.1, e.2.parentKind, e.2.parent⟩

def indexDomainLeaves (c : Chain) : List (Bytes × DomainLeaf) :=
  c.ledger.domains.entries.map fun e => (e.1, e.2)

/-- The rebuild from what the node holds. -/
def rebuildEdit (votingCapMille : UInt64) (c : Chain) : Edit :=
  .buildFromState c.indexTrackerEntries c.indexDomainLeaves
    (validatorLeaves votingCapMille c.indexHolders)

/-- A start rebuilds its index and anchors it at the last decided round. -/
def backfillIndex (cfg : Config) (votingCapMille : UInt64) (c : Chain) : Manager :=
  let m := Manager.feed cfg.crypto {} (c.rebuildEdit votingCapMille)
  if c.lastCommitted > 0 then m.setFrontier cfg.crypto (c.lastCommitted - 1) else m

def recordCommittedMemberEdits (votingCapMille : UInt64) (c : Chain) (pubkey : Hash) : List Edit :=
  if pubkey ∈ c.ledger.committedMembers then []
  else
    { c with
      ledger := { c.ledger with committedMembers := c.ledger.committedMembers ++ [pubkey] }
      regimeDirty := true }.refreezeEdits votingCapMille

def seedGenesisValidatorEdits (votingCapMille : UInt64) (c : Chain) (seed : GenesisSeed) :
    List Edit :=
  let validators := c.ledger.validators.add seed.pubkey seed.quic seed.bls
  let validators :=
    if (validators.get seed.pubkey).all fun v => v.selfStake = 0 then
      (validators.setSelfStake seed.pubkey seed.selfStake).setRewardCoin seed.pubkey seed.coinID
    else validators
  { c with ledger := { c.ledger with validators } }.recordCommittedMemberEdits votingCapMille
    seed.pubkey

def seedGenesisStateEdits (votingCapMille : UInt64) (c : Chain) (seed : GenesisSeed) : List Edit :=
  if (c.ledger.getObject seed.coinID).isSome then c.seedGenesisValidatorEdits votingCapMille seed
  else
    .applyEdge seed.coinID seed.coin.parentKind seed.coin.objectOwner ::
      { c with ledger := c.ledger.seedGenesisLedger seed }.seedGenesisValidatorEdits
        votingCapMille seed

end Chain

/-- Behind the rebuild a start seeds the genesis state where it is missing. -/
def Disk.seedEdits (cfg : Config) (votingCapMille : UInt64) (d : Disk) : List Edit :=
  match cfg.founder with
  | none => []
  | some seed => (d.load cfg).seedGenesisStateEdits votingCapMille seed

/-- The edits of a start. -/
def Disk.startEdits (cfg : Config) (votingCapMille : UInt64) (d : Disk) : List Edit :=
  (d.load cfg).rebuildEdit votingCapMille :: d.seedEdits cfg votingCapMille

/-! ## What they are edits of -/

namespace Chain

/-- The view is that of the node: its edges and names, and the frozen holders once there
are. -/
structure Shown (votingCapMille : UInt64) (c : Chain) (v : View) : Prop where
  ledger : c.ledger.view v.validators = v
  frozen : ∀ holders, c.regime.epochHolders = some holders →
    v.validators = validatorLeaves votingCapMille holders.toValidatorSet

variable {cap : UInt64} {c c' : Chain} {v : View} {cfg : Config}

theorem Shown.congr (h : c.Shown cap v) (htracker : c'.ledger.tracker = c.ledger.tracker)
    (hdomains : c'.ledger.domains = c.ledger.domains)
    (hholders : c'.regime.epochHolders = c.regime.epochHolders) : c'.Shown cap v :=
  ⟨(Ledger.view_congr htracker hdomains).trans h.ledger, hholders ▸ h.frozen⟩

theorem refreeze_holders (cfg : Config) (c : Chain) (round : UInt64) :
    (c.refreezeGenesisRegime cfg round).regime.epochHolders =
      if c.regime.strictLatched then c.regime.epochHolders
      else if c.regime.currentEpoch = 0 then some c.freezeGenesisHolders
      else c.regime.epochHolders := by
  have hlatch : ∀ c : Chain,
      (c.latchStrictRegime cfg round).regime.epochHolders = c.regime.epochHolders := by
    intro c
    unfold latchStrictRegime
    split <;> rfl
  unfold refreezeGenesisRegime
  split
  · rfl
  · dsimp only
    split
    · split
      · exact hlatch _
      · rfl
    · split
      · exact hlatch _
      · rfl

/-- A freeze of holders is fed where it happens. -/
theorem Shown.refreeze (h : c.Shown cap v) (cfg : Config) (round : UInt64) :
    (c.refreezeGenesisRegime cfg round).Shown cap ((c.refreezeEdits cap).foldl Edit.update v) := by
  have hledger := refreezeGenesisRegime_ledger cfg c round
  have hholders := refreeze_holders cfg c round
  unfold refreezeEdits
  split
  · rename_i hlatched
    rw [if_pos hlatched] at hholders
    exact h.congr (by rw [hledger]) (by rw [hledger]) hholders
  · rename_i hlatched
    rw [if_neg hlatched] at hholders
    split
    · rename_i hepoch
      rw [if_pos hepoch] at hholders
      constructor
      · rw [hledger]
        exact congrArg (fun w : View =>
          { w with validators := (validatorLeaves cap c.freezeGenesisHolders.toValidatorSet) })
          h.ledger
      · intro holders hsome
        rw [hholders] at hsome
        rw [← Option.some.inj hsome]
        rfl
    · rename_i hepoch
      rw [if_neg hepoch] at hholders
      exact h.congr (by rw [hledger]) (by rw [hledger]) hholders

/-- The admitted transactions of a call reference tracked objects. -/
def RefsTracked (cfg : Config) (c : Chain) (atx : AttestedTransaction) (round : UInt64)
    (verdict : Option ProofError) : Prop :=
  ∀ tx, c.ledger.Admits (c.txNode cfg atx) atx round.toNat verdict tx → c.ledger.RefsTracked tx

theorem Shown.executeTx (h : c.Shown cap v) {atx : AttestedTransaction} {round : UInt64}
    {verdict : Option ProofError} (htracked : c.RefsTracked cfg atx round verdict) :
    (c.executeTx cfg atx round verdict).1.Shown cap
      ((c.executeTxEdits cfg cap atx round verdict).foldl Edit.update v) := by
  have hrun := @Ledger.view_executeTx c.ledger v.validators (c.txNode cfg atx) atx round.toNat
    verdict htracked
  rw [h.ledger] at hrun
  unfold Chain.executeTx executeTxEdits
  dsimp only
  generalize c.ledger.executeTx (c.txNode cfg atx) atx round.toNat verdict = out at hrun
  rw [List.foldl_append, List.foldl_append, hrun]
  have hexecuted : ({ c with ledger := out.ledger } : Chain).Shown cap
      (out.ledger.view v.validators) := ⟨rfl, h.frozen⟩
  have hdirty : ({ c with ledger := out.ledger, regimeDirty := true } : Chain).Shown cap
      (out.ledger.view v.validators) := ⟨rfl, h.frozen⟩
  split
  · split
    · exact (hdirty.refreeze cfg round).refreeze cfg round
    · exact hexecuted.refreeze cfg round
  · split
    · exact hdirty.refreeze cfg round
    · exact hexecuted

theorem view_sweep (st : Ledger) (vals : List ValidatorLeaf) (names : List Bytes) :
    (names.map Edit.removeDomain).foldl Edit.update (st.view vals) =
      Ledger.view
        { st with domains := names.foldl (fun d name => d.erase name) st.domains } vals := by
  rw [List.foldl_map]
  refine List.foldl_hom (fun d => Ledger.view { st with domains := d } vals) fun d name => ?_
  symm
  apply Ledger.view_erase <;> rfl

theorem Shown.transitionEpoch (h : c.Shown cap v) (cfg : Config) :
    (c.transitionEpoch cfg).Shown cap ((c.transitionEpochEdits cfg cap).foldl Edit.update v) := by
  obtain ⟨htracker, hdomains⟩ := (transitionEpoch_payments cfg c).frame
  have hsettled : (c.settledLedger cfg).view v.validators = v :=
    (Ledger.view_congr htracker hdomains).trans h.ledger
  unfold transitionEpochEdits
  rw [List.foldl_append, ← hsettled, view_sweep, transitionEpoch_eq]
  refine ⟨rfl, fun holders hsome => ?_⟩
  rw [← Option.some.inj hsome]
  rfl

/-! ## Rebuilds -/

theorem edges_indexTrackerEntries (c : Chain) :
    Index.edgesAfter (c.indexTrackerEntries.map Index.TrackerEntry.edgeOp) =
      c.ledger.tracker.getParent := by
  rw [Index.edgesAfter, indexTrackerEntries, List.map_map, List.foldl_map]
  exact Lib.Tally.foldl_update_entries c.ledger.tracker fun e => (e.parentKind, e.parent)

theorem names_indexDomainLeaves (c : Chain) :
    (c.indexDomainLeaves.foldl (fun (d : Bytes → Option DomainLeaf) e =>
        Function.update d e.1 (some e.2)) fun _ => none) =
      fun name => c.ledger.domains.lookup name := by
  rw [indexDomainLeaves, List.foldl_map]
  refine (Lib.Tally.foldl_update_entries c.ledger.domains id).trans ?_
  funext name
  exact Option.map_id'

/-- A rebuild gives the view of the node. -/
theorem update_rebuildEdit (cap : UInt64) (c : Chain) (v : View) :
    (c.rebuildEdit cap).update v = c.ledger.view (validatorLeaves cap c.indexHolders) := by
  rw [rebuildEdit, Edit.update, edges_indexTrackerEntries, names_indexDomainLeaves]
  rfl

theorem indexHolders_of_frozen {holders : HolderSet} (h : c.regime.epochHolders = some holders) :
    c.indexHolders = holders.toValidatorSet := by
  rw [indexHolders, Regime.holdersForEpoch, if_pos rfl, h]

theorem shown_rebuildEdit (cap : UInt64) (c : Chain) (v : View) :
    c.Shown cap ((c.rebuildEdit cap).update v) := by
  rw [update_rebuildEdit]
  refine ⟨rfl, fun holders hsome => ?_⟩
  rw [← indexHolders_of_frozen hsome]
  rfl

/-! ## Starts -/

theorem Shown.recordCommittedMember (h : c.Shown cap v) (cfg : Config) (pubkey : Hash)
    (round : UInt64) :
    (c.recordCommittedMember cfg pubkey round).Shown cap
      ((c.recordCommittedMemberEdits cap pubkey).foldl Edit.update v) := by
  unfold Chain.recordCommittedMember recordCommittedMemberEdits
  split
  · exact h
  · refine Shown.refreeze ?_ cfg round
    exact h.congr rfl rfl rfl

theorem Shown.seedGenesisState (h : c.Shown cap v) (cfg : Config) (seed : GenesisSeed) :
    (c.seedGenesisState cfg seed).Shown cap
      ((c.seedGenesisStateEdits cap seed).foldl Edit.update v) := by
  have hseat : ∀ {c : Chain} {v : View}, c.Shown cap v → (c.seedGenesisValidator cfg seed).Shown cap
      ((c.seedGenesisValidatorEdits cap seed).foldl Edit.update v) := by
    intro c v hc
    refine Shown.recordCommittedMember ?_ cfg seed.pubkey c.lastCommitted
    exact hc.congr rfl rfl rfl
  unfold Chain.seedGenesisState seedGenesisStateEdits
  split
  · exact hseat h
  · refine hseat ⟨?_, h.frozen⟩
    rw [← h.ledger]
    exact Ledger.view_applyEdge (Tracker.getParent_trackObject _ _ _ _ _ _ _) rfl

theorem shown_start (cfg : Config) (cap : UInt64) (d : Disk) (v : View) :
    (d.start cfg).Shown cap ((d.startEdits cfg cap).foldl Edit.update v) := by
  have hload := shown_rebuildEdit cap (d.load cfg) v
  rw [Disk.startEdits, List.foldl_cons]
  unfold Disk.seedEdits Disk.start
  cases cfg.founder with
  | none => exact hload
  | some seed => exact hload.seedGenesisState cfg seed

end Chain

end BluePods
