import BluePods.Round
import BluePods.Steps

/-! Which attested copies the proof gate vouches for, and which are current. Proofs are
walked one by one, and each is checked against the first entry with its identifier; the
pod is fed every entry. Versions are checked on the references of the transaction, never
on the entries. -/

namespace BluePods

variable {atx : AttestedTransaction} {i : Nat} {o : Object}

/-- An accepted proof of the wrapper was checked against this very entry. -/
def CoveredEntry (cr : Crypto) (e : EpochResolver) (round : Nat) (atx : AttestedTransaction)
    (i : Nat) : Prop :=
  ∃ vs proof k, e.resolveHolders atx.attestationEpoch round = .ok vs ∧
    (proof, k) ∈ atx.proofs.zipIdx ∧ findATXObjectIndex atx proof.objectID = some i ∧
    ProofPasses cr atx vs proof k

/-- The owner of an object by its stored body, or by an entry that an accepted proof
covers. -/
def Ledger.OwnedBy (st : Ledger) (nd : Node) (atx : AttestedTransaction) (commitRound : Nat)
    (id owner : Hash) : Prop :=
  ((st.getObject id).bind fun o => hash32 o.owner) = some owner ∨
    ∃ i o, atx.objects[i]? = some o ∧ o.replication ≠ 0 ∧ o.id = id.val ∧
      hash32 o.owner = some owner ∧ CoveredEntry nd.crypto nd.epochs commitRound atx i

/-- The entry is the first with its identifier, and a proof names that identifier. -/
def NamedFirst (atx : AttestedTransaction) (i : Nat) (o : Object) : Prop :=
  findATXObjectIndex atx o.id = some i ∧ ∃ proof ∈ atx.proofs, proof.objectID = o.id

instance (atx : AttestedTransaction) (i : Nat) (o : Object) : Decidable (NamedFirst atx i o) :=
  inferInstanceAs (Decidable (_ ∧ ∃ proof ∈ atx.proofs, _))

theorem id_of_findATXObjectIndex {id : Bytes} (h : findATXObjectIndex atx id = some i)
    (ho : atx.objects[i]? = some o) : o.id = id := by
  obtain ⟨hi, hid, -⟩ := List.findIdx?_eq_some_iff_getElem.1 h
  rw [List.getElem?_eq_getElem hi] at ho
  rw [← Option.some.inj ho]
  simpa using hid

theorem CoveredEntry.namedFirst {cr : Crypto} {e : EpochResolver} {round : Nat}
    (h : CoveredEntry cr e round atx i) (ho : atx.objects[i]? = some o) : NamedFirst atx i o := by
  obtain ⟨vs, proof, k, -, hmem, hfind, -⟩ := h
  have hid := id_of_findATXObjectIndex hfind ho
  exact ⟨hid ▸ hfind, proof, List.mem_of_getElem? (List.mem_zipIdx_iff_getElem?.1 hmem), hid.symm⟩

theorem NamedFirst.coveredEntry {nd : Node} {round : Nat} (h : NamedFirst atx i o)
    (htx : atx.transaction.isSome = true) (hverdict : inlineVerdict nd round atx = none) :
    CoveredEntry nd.crypto nd.epochs round atx i := by
  obtain ⟨hfind, proof, hproof, hid⟩ := h
  obtain ⟨k, hk⟩ := List.mem_iff_getElem?.1 hproof
  have hmem : (proof, k) ∈ atx.proofs.zipIdx := List.mem_zipIdx_iff_getElem?.2 hk
  have hsome : atx.proofs.length ≠ 0 := by
    have := List.length_pos_of_mem hproof
    omega
  rw [inlineVerdict, if_pos (by simp [htx, hsome]), verify_eq_atxVerdict,
    atxVerdict_eq_none] at hverdict
  obtain ⟨vs, hvs, hpass⟩ := hverdict
  exact ⟨vs, proof, k, hvs, hmem, hid ▸ hfind, hpass (proof, k) hmem⟩

/-- The wrapper's entries open the list a pod call runs on. -/
theorem getElem?_podObjects {st : Ledger} {tx : Transaction} (h : i < atx.objects.length) :
    (st.podObjects tx atx)[i]? = atx.objects[i]? := by
  simp only [Ledger.podObjects, Ledger.resolveMutableObjects]
  exact List.getElem?_append_left h

/-- In every committed batch, behind a proof gate that lets the transaction pass, every
replicated entry fed to the pod is covered exactly when each of them is the first with
its identifier and named by a proof. -/
theorem copies_covered_iff_namedFirst (nd : Node) (round : Nat)
    (pre rest : List AttestedTransaction) (atx : AttestedTransaction) (tx : Transaction)
    (st : Ledger) (htx : atx.transaction = some tx)
    (hverdict : (((verifyRoundProofs nd round (pre ++ atx :: rest)).advance pre).proofVerdict
      atx).1 = none) :
    (∀ i o, i < atx.objects.length → (st.podObjects tx atx)[i]? = some o → o.replication ≠ 0 →
        CoveredEntry nd.crypto nd.epochs round atx i) ↔
      ∀ i o, atx.objects[i]? = some o → o.replication ≠ 0 → NamedFirst atx i o := by
  rw [proofVerdict_in_batch] at hverdict
  constructor
  · intro h i o ho hrep
    obtain ⟨hi, -⟩ := List.getElem?_eq_some_iff.1 ho
    exact (h i o hi (by rw [getElem?_podObjects hi, ho]) hrep).namedFirst ho
  · intro h i o hi ho hrep
    rw [getElem?_podObjects hi] at ho
    exact (h i o ho hrep).coveredEntry (by rw [htx]; rfl) hverdict

/-! ## Entries without a proof -/

/-- A copy of the second user's coin at replication one. -/
def coinCopy (owner : Hash) : Object := { coinObject (idOf 12) owner 10000 with replication := 1 }

/-- A transfer of the first user over the second user's coin, with given entries and
proofs. -/
def wrapping (objects : List Object) (proofs : List QuorumProof) : AttestedTransaction :=
  { creatingTx (idOf 12) [] with objects, proofs }

theorem provenCopy_namedFirst (i : Nat) (o : Object)
    (h : (wrapping [coinCopy (idOf 2)] [soloProof (coinCopy (idOf 2))]).objects[i]? = some o) :
    NamedFirst (wrapping [coinCopy (idOf 2)] [soloProof (coinCopy (idOf 2))]) i o := by
  match i, h with
  | 0, h =>
    obtain rfl := Option.some.inj h
    decide +kernel
  | i + 1, h => simp [wrapping] at h

/-- A wrapper whose entry is proven passes the gate, and the entry is covered. -/
theorem copies_covered_iff_namedFirst_solo :
    CoveredEntry soloCrypto (soloNode (podReturning {})).epochs 0
      (wrapping [coinCopy (idOf 2)] [soloProof (coinCopy (idOf 2))]) 0 :=
  (copies_covered_iff_namedFirst (soloNode (podReturning {})) 0 [] []
    (wrapping [coinCopy (idOf 2)] [soloProof (coinCopy (idOf 2))]) (creatingBody (idOf 12) [])
    soloLedger rfl (by decide +kernel)).2 (fun i o ho _ => provenCopy_namedFirst i o ho) 0
    (coinCopy (idOf 2)) (by decide) (by decide +kernel) (by decide)

/-- Two wrappers the gate lets pass. The first carries an entry and no proof. The second
carries a proven entry and a second one under the same identifier with another owner.
Both unproven entries are fed to the pod. -/
theorem unproven_copies_pass :
    let nd := soloNode (podReturning {})
    let bare := wrapping [coinCopy (idOf 1)] []
    let doubled := wrapping [coinCopy (idOf 2), coinCopy (idOf 1)] [soloProof (coinCopy (idOf 2))]
    (((verifyRoundProofs nd 0 [bare, doubled]).advance []).proofVerdict bare).1 = none ∧
      (((verifyRoundProofs nd 0 [bare, doubled]).advance [bare]).proofVerdict doubled).1 = none ∧
      (soloLedger.podObjects (creatingBody (idOf 12) []) bare)[0]? = some (coinCopy (idOf 1)) ∧
      (soloLedger.podObjects (creatingBody (idOf 12) []) doubled)[1]? =
        some (coinCopy (idOf 1)) ∧
      ¬ CoveredEntry nd.crypto nd.epochs 0 bare 0 ∧
      ¬ CoveredEntry nd.crypto nd.epochs 0 doubled 1 := by
  refine ⟨by decide +kernel, by decide +kernel, by decide +kernel, by decide +kernel, ?_, ?_⟩
  · intro h
    exact absurd (h.namedFirst rfl) (by decide +kernel)
  · intro h
    exact absurd (h.namedFirst rfl) (by decide +kernel)

/-! ## Current copies -/

/-- The replicated entries under mutable references carry the version and the replication
the tracker has. -/
def CurrentCopies (st : Ledger) (atx : AttestedTransaction) (tx : Transaction) : Prop :=
  ∀ o ∈ atx.objects, o.replication ≠ 0 → ∀ id, hash32 o.id = some id → id ∈ tx.mutableRefIDs →
    o.version = st.tracker.getVersion id ∧ o.replication = st.tracker.getReplication id

/-- The transaction is carried to the pod call. -/
def Carried (st : Ledger) (nd : Node) (commitRound : Nat) (atx : AttestedTransaction) : Prop :=
  ∃ r, st.prepareTx nd atx commitRound (inlineVerdict nd commitRound atx) = .ok r

/-- The wrapper with a copy of anyone's making behind its entries, and behind that an
entry that gives the object the replication it had. -/
def forged (atx : AttestedTransaction) (sender : Bytes) (id : Hash) (version : UInt64) :
    AttestedTransaction :=
  { atx with
    objects := atx.objects ++
      [{ id := id.val, version, owner := sender, replication := 1, content := [] },
        { id := id.val, version, owner := sender, content := [],
          replication := ((buildReplicationMap atx).lookup id).getD 0 }] }

section

variable (atx : AttestedTransaction) (sender : Bytes) (id : Hash) (version : UInt64) (st : Ledger)
  (nd : Node) (tx : Transaction)

-- the last entry of an identifier counts
theorem lookup_forged (id' : Hash) :
    ((buildReplicationMap (forged atx sender id version)).lookup id').getD 0 =
      ((buildReplicationMap atx).lookup id').getD 0 := by
  simp only [buildReplicationMap, forged, List.foldl_append, List.foldl_cons, List.foldl_nil,
    hash32_val]
  by_cases h : id' = id
  · rw [h, AList.lookup_insert, Option.getD_some]
  · rw [AList.lookup_insert_ne h, AList.lookup_insert_ne h]

theorem deductFees_forged :
    st.deductFees nd tx (forged atx sender id version) = st.deductFees nd tx atx := by
  have hrefs : ∀ refs, extractObjectRefs refs (forged atx sender id version) =
      extractObjectRefs refs atx := fun refs => by simp only [extractObjectRefs, lookup_forged]
  have hfee : ∀ n, calculateTxFeeSplit nd.computeHolders nd.feeParams n tx
      (forged atx sender id version) =
        calculateTxFeeSplit nd.computeHolders nd.feeParams n tx atx := fun n => by
    unfold calculateTxFeeSplit calculateTxFee
    rw [hrefs, hrefs]
  unfold Ledger.deductFees
  rw [hfee]

theorem shouldExecute_forged :
    Ledger.shouldExecute nd (forged atx sender id version) tx = Ledger.shouldExecute nd atx tx := by
  simp only [Ledger.shouldExecute, lookup_forged]

variable {atx st nd tx}

-- the first replicated entry of an identifier counts, and the copy is the sender's
theorem mutableRefOwner_forged {owner : Hash} (howner : hash32 sender = some owner) {id' : Hash}
    (h : st.mutableRefOwner atx id' = some owner) :
    st.mutableRefOwner (forged atx sender id version) id' = some owner := by
  unfold Ledger.mutableRefOwner attestedReplicatedOwner at h ⊢
  simp only [forged, List.find?_append]
  cases hfind : atx.objects.find? fun o => o.replication ≠ 0 ∧ o.id = id'.val with
  | some o =>
    rw [hfind] at h
    exact h
  | none =>
    rw [hfind] at h
    by_cases hid : id = id'
    · simp [hid, howner]
    · have hne : ¬ id.val = id'.val := fun heq => hid (Subtype.ext heq)
      simpa [hne] using h

theorem validateMutableRefOwnership_forged (h : st.validateMutableRefOwnership atx tx = true) :
    st.validateMutableRefOwnership (forged atx tx.sender id version) tx = true := by
  unfold Ledger.validateMutableRefOwnership at h ⊢
  split_ifs at h ⊢
  · rfl
  cases hsender : hash32 tx.sender with
  | none => simp [hsender] at h
  | some owner =>
    simp only [hsender, List.all_eq_true] at h ⊢
    intro r hr
    have hown := h r hr
    unfold Ledger.mutableRefOwnedBy at hown ⊢
    cases hid : r.refID with
    | none => simpa [hid] using hown
    | some id' =>
      simp only [hid, decide_eq_true_eq] at hown ⊢
      exact mutableRefOwner_forged _ _ _ hsender hown

theorem settleTx_forged {split : FeeSplit} {st' : Ledger}
    (h : st.settleTx nd tx atx split = .ok st') :
    st.settleTx nd tx (forged atx tx.sender id version) split = .ok st' := by
  have hown : st.validateMutableRefOwnership atx tx = true := by
    rcases st.settleTx_cases nd tx atx split with ⟨-, herr⟩ | ⟨hown, -⟩
    · simp [herr] at h
    · exact hown
  unfold Ledger.settleTx at h ⊢
  rw [validateMutableRefOwnership_forged id version hown, shouldExecute_forged]
  rwa [hown] at h

-- a proof names an entry, and the first of an identifier stays the first
theorem ProofPasses.forged {cr : Crypto} {vs : ValidatorSet} {proof : QuorumProof} {k : Nat}
    (h : ProofPasses cr atx vs proof k) :
    ProofPasses cr (forged atx sender id version) vs proof k := by
  cases hentry : (findATXObjectIndex atx proof.objectID).bind (atx.objects[·]?) with
  | none => simp [ProofPasses, prepareSingleProof, hentry] at h
  | some o =>
    obtain ⟨i, hfind, ho⟩ := Option.bind_eq_some_iff.1 hentry
    have hentry' : (findATXObjectIndex (BluePods.forged atx sender id version)
        proof.objectID).bind ((BluePods.forged atx sender id version).objects[·]?) = some o := by
      rw [findATXObjectIndex] at hfind
      obtain ⟨hi, -⟩ := List.getElem?_eq_some_iff.1 ho
      simp [findATXObjectIndex, BluePods.forged, List.findIdx?_append, hfind,
        List.getElem?_append_left hi, ho]
    exact (proofPasses_iff hentry').2 ((proofPasses_iff hentry).1 h)

theorem inlineVerdict_forged {round : Nat} (h : inlineVerdict nd round atx = none) :
    inlineVerdict nd round (forged atx sender id version) = none := by
  unfold inlineVerdict at h ⊢
  change (if atx.transaction.isSome && atx.proofs.length != 0 then _ else none) = none
  split_ifs at h ⊢
  · rw [verify_eq_atxVerdict, atxVerdict_eq_none] at h ⊢
    obtain ⟨vs, hvs, hpass⟩ := h
    exact ⟨vs, hvs, fun p hp => (hpass p hp).forged sender id version⟩
  · rfl

/-- With the copy the transaction gets just as far. -/
theorem Carried.forged {commitRound : Nat} (h : Carried st nd commitRound atx)
    (htx : atx.transaction = some tx) :
    Carried st nd commitRound (forged atx tx.sender id version) := by
  obtain ⟨⟨tx', st₃, split, withheld⟩, hok⟩ := h
  have hadmits := Ledger.admits_of_prepareTx hok
  obtain rfl : tx' = tx := Option.some.inj (hadmits.transaction.symm.trans htx)
  refine ⟨(tx', st₃, split, withheld), ?_⟩
  have hadmit : st.admitTx nd (BluePods.forged atx tx'.sender id version) commitRound none =
      st.admitTx nd atx commitRound none := rfl
  rw [inlineVerdict_forged _ _ _ hadmits.proofs]
  rw [hadmits.proofs] at hok hadmits
  rcases st.admitTx_cases nd atx commitRound none with ⟨_, _, -, -, hno⟩ | ⟨tx, hadm, heq⟩
  · exact absurd hadmits (hno tx')
  obtain rfl : tx = tx' := Option.some.inj (hadm.transaction.symm.trans htx)
  simp only [Ledger.prepareTx, hadmit, heq, bind, Except.bind, deductFees_forged] at hok ⊢
  split_ifs at hok ⊢
  cases hsettle : (st.feeStage nd tx atx).ledger.settleTx nd tx atx
      (st.feeStage nd tx atx).split with
  | error out => simp [hsettle] at hok
  | ok st' => simpa [hsettle, settleTx_forged id version hsettle] using hok

end

/-- A transaction that reaches the pod call does so with current copies alone, whatever
entries it comes with, exactly when it has no mutable reference to an object. -/
theorem copies_current_iff_no_mutableRefs (st : Ledger) (nd : Node) (commitRound : Nat)
    (atx : AttestedTransaction) (tx : Transaction) (htx : atx.transaction = some tx)
    (h : Carried st nd commitRound atx) :
    (∀ objects, Carried st nd commitRound { atx with objects } →
        CurrentCopies st { atx with objects } tx) ↔
      tx.mutableRefIDs = [] := by
  constructor
  · intro hcurrent
    refine List.eq_nil_iff_forall_not_mem.2 fun id hid => ?_
    have hcopy := hcurrent _ (h.forged id (st.tracker.getVersion id + 1) htx) _
      (List.mem_append_right _ List.mem_cons_self) (by decide : (1 : UInt16) ≠ 0) id
      (hash32_val id) hid
    simpa using hcopy.1
  · intro hnone objects _ o _ _ id _ hid
    simp [hnone] at hid

/-! ## A stale copy -/

/-- The network with a replicated object at its third version. -/
def trackedLedger : Ledger :=
  { soloLedger with
    tracker := Tracker.trackObject ∅ (idOf 13) 3 10 0 keyRootKind (idOf 1) }

/-- A copy of that object. -/
def replicatedCopy (version : UInt64) (replication : UInt16) : Object where
  id := (idOf 13).val
  version
  owner := (idOf 1).val
  replication
  content := [7]

/-- A transaction of the first user over the third version. -/
def updatingBody : Transaction :=
  signedTx
    { sender := (idOf 1).val
      pod := (idOf 7).val
      functionName := ascii "update"
      gasCoin := (idOf 11).val
      maxGas := 100
      mutableRefs := [{ id := (idOf 13).val, version := 3 }] }

/-- The transaction with one proven copy. -/
def copying (o : Object) : AttestedTransaction where
  transaction := some updatingBody
  objects := [o]
  proofs := [soloProof o]

/-- With a current copy the transaction is carried through, so a stale one can be. -/
theorem copies_current_iff_no_mutableRefs_tracked :
    ¬ ∀ objects, Carried trackedLedger (soloNode (podReturning {})) 0
        { copying (replicatedCopy 3 10) with objects } →
      CurrentCopies trackedLedger { copying (replicatedCopy 3 10) with objects } updatingBody := by
  have hok : (trackedLedger.prepareTx (soloNode (podReturning {}))
      (copying (replicatedCopy 3 10)) 0 none).toOption.isSome = true := by
    decide +kernel
  have hcarried : Carried trackedLedger (soloNode (podReturning {})) 0
      (copying (replicatedCopy 3 10)) := by
    rw [Carried, show inlineVerdict _ 0 (copying (replicatedCopy 3 10)) = none by decide +kernel]
    cases hprep : trackedLedger.prepareTx (soloNode (podReturning {}))
        (copying (replicatedCopy 3 10)) 0 none with
    | error out => simp [hprep, Except.toOption] at hok
    | ok r => exact ⟨r, rfl⟩
  rw [copies_current_iff_no_mutableRefs _ _ 0 (copying (replicatedCopy 3 10)) updatingBody rfl
    hcarried]
  decide +kernel

/-- A proof collected when the object was new, at a replication of the sender's choice,
still passes the gate, and the pod runs on that copy. -/
theorem staleCopy_executes :
    let nd := soloNode (podReturning {})
    let atx := copying (replicatedCopy 0 1)
    inlineVerdict nd 0 atx = none ∧
      (trackedLedger.executeTx nd atx 0 (inlineVerdict nd 0 atx)).exit = .executed ∧
      trackedLedger.tracker.getVersion (idOf 13) = 3 ∧
      trackedLedger.tracker.getReplication (idOf 13) = 10 ∧
      ¬ CurrentCopies trackedLedger atx updatingBody := by
  refine ⟨by decide +kernel, by decide +kernel, by decide +kernel, by decide +kernel, ?_⟩
  intro h
  have hcopy := h (replicatedCopy 0 1) (by simp [copying]) (by decide) (idOf 13) (by decide)
    (by decide +kernel)
  exact absurd hcopy.1 (by decide +kernel)

end BluePods
