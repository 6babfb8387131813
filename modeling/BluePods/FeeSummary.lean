import BluePods.Identity

/-! The fee summary a producer declares and a receiver recomputes. The producer adds up
its raw pending entries, reading of each only what the fee depends on, and prices them by
its own live validator set; the receiver adds up the transactions that made it into the
vertex, by its own set. An entry is only carried over when all of it can be read. -/

namespace BluePods

variable {atx : AttestedTransaction} {tx : Transaction}

/-! ## Pending entries

Reading a field of a crafted buffer may panic: `none`. -/

structure RawRef where
  id : Option Bytes
  version : Option UInt64
  domain : Option Bytes

structure RawOp where
  kind : Option Byte
  objectID : Option Bytes
  targetKind : Option Byte
  target : Option Bytes
  name : Option Bytes
  termEpochs : Option UInt32

structure RawTransaction where
  hash : Option Bytes
  readRefs : Option (List RawRef)
  mutableRefs : Option (List RawRef)
  createdObjectsReplication : Option (List (Option UInt16))
  sender : Option Bytes
  signature : Option Bytes
  pod : Option Bytes
  functionName : Option Bytes
  args : Option Bytes
  maxGas : Option UInt64
  gasCoin : Option Bytes
  feePayer : Option Bytes
  sponsorSignature : Option Bytes
  validUntil : Option UInt64
  deletedObjects : Option Bytes
  operations : Option (List RawOp)

structure RawObject where
  id : Option Bytes
  version : Option UInt64
  owner : Option Bytes
  replication : Option UInt16
  content : Option Bytes
  fees : Option UInt64
  parentKind : Option Byte

structure RawProof where
  objectID : Option Bytes
  blsSignature : Option Bytes
  signerBitmap : Option Bytes

/-- The root table; a transaction may be unreadable, absent or present. -/
structure RawAttestedTransaction where
  transaction : Option (Option RawTransaction)
  objects : Option (List RawObject)
  proofs : Option (List RawProof)
  attestationEpoch : Option Nat

/-! ## Carrying an entry over

A panic while a table of the builder is open leaves it open, and the builder refuses
whatever comes next. -/

inductive Panic
  | outside
  | inside
  deriving DecidableEq

def outside {α : Type} (x : Option α) : Except Panic α := x.elim (.error .outside) .ok

def inside {α : Type} (x : Option α) : Except Panic α := x.elim (.error .inside) .ok

def RawRef.rebuild (r : RawRef) : Except Panic ObjectRef := do
  let id ← outside r.id
  let domain ← outside r.domain
  let version ← inside r.version
  return { id, version, domain }

def RawOp.extract (o : RawOp) : Except Panic DeclaredOp := do
  let kind ← outside o.kind
  let objectID ← outside o.objectID
  let targetKind ← outside o.targetKind
  let target ← outside o.target
  let name ← outside o.name
  let termEpochs ← outside o.termEpochs
  return { kind, objectID, targetKind, target, name, termEpochs }

def RawTransaction.rebuild (t : RawTransaction) : Except Panic Transaction := do
  let hash ← outside t.hash
  let signature ← outside t.signature
  let args ← outside t.args
  let sender ← outside t.sender
  let pod ← outside t.pod
  let functionName ← outside t.functionName
  let readRefs ← (← outside t.readRefs).mapM RawRef.rebuild
  let mutableRefs ← (← outside t.mutableRefs).mapM RawRef.rebuild
  let createdObjectsReplication ← (← outside t.createdObjectsReplication).mapM inside
  let gasCoin ← outside t.gasCoin
  let feePayer ← outside t.feePayer
  let sponsorSignature ← outside t.sponsorSignature
  let deletedObjects ← outside t.deletedObjects
  let operations ← (← outside t.operations).mapM RawOp.extract
  let maxGas ← inside t.maxGas
  let validUntil ← inside t.validUntil
  return { hash, readRefs, mutableRefs, createdObjectsReplication, sender, signature, pod,
           functionName, args, maxGas, gasCoin, feePayer, sponsorSignature, validUntil,
           deletedObjects, operations }

def RawObject.rebuild (o : RawObject) : Except Panic Object := do
  let id ← outside o.id
  let owner ← outside o.owner
  let content ← outside o.content
  let version ← inside o.version
  let replication ← inside o.replication
  let fees ← inside o.fees
  let parentKind ← inside o.parentKind
  return { id, version, owner, replication, content, fees, parentKind }

def RawProof.rebuild (p : RawProof) : Except Panic QuorumProof := do
  let objectID ← outside p.objectID
  let blsSignature ← outside p.blsSignature
  let signerBitmap ← outside p.signerBitmap
  return { objectID, blsSignature, signerBitmap }

/-- An absent transaction is refused before anything is built. -/
def RawAttestedTransaction.rebuild (a : RawAttestedTransaction) :
    Except Panic AttestedTransaction := do
  match ← outside a.transaction with
  | none => throw .outside
  | some t =>
    let tx ← t.rebuild
    let objects ← (← outside a.objects).mapM RawObject.rebuild
    let proofs ← (← outside a.proofs).mapM RawProof.rebuild
    let attestationEpoch ← inside a.attestationEpoch
    return { transaction := some tx, objects, proofs, attestationEpoch }

/-- What all nodes share: how an entry's bytes read as a table, and the fee parameters. -/
structure FeeRules where
  parse : Bytes → RawAttestedTransaction
  params : FeeParams

/-- What a node prices with: the size of its live validator set, and the holders it
computes. Until the first boundary since its start the holders too are drawn from the live
set. -/
structure Pricing where
  totalValidators : Nat
  computeHolders : Hash → Nat → List Hash

namespace FeeRules

variable (ru : FeeRules)

def tryRebuildAttestedTx (data : Bytes) : Except Panic AttestedTransaction :=
  if data.length < 8 then .error .outside else (ru.parse data).rebuild

/-- The transactions of the vertex, without the entries that panic; `none` when an open
table is left behind. -/
def buildTxVector (txs : List Bytes) : Option (List AttestedTransaction) :=
  txs.foldr
    (fun data kept =>
      match ru.tryRebuildAttestedTx data with
      | .ok atx => kept.map (atx :: ·)
      | .error .outside => kept
      | .error .inside => none)
    (some [])

/-! ## Pricing an entry -/

/-- What the fee reads of a transaction with a gas coin. The function name and the pod
only matter beside operations. -/
def feeTransaction (t : RawTransaction) (gasCoin : Bytes) : Option Transaction := do
  let createdObjectsReplication ← (← t.createdObjectsReplication).mapM id
  let mutableIDs ← (← t.mutableRefs).mapM RawRef.id
  let readIDs ← (← t.readRefs).mapM RawRef.id
  let operations ← (← t.operations).mapM fun o => o.extract.toOption
  let maxGas ← t.maxGas
  let functionName ← if operations.isEmpty then some [] else t.functionName
  let pod ← if operations.isEmpty || !functionName.isEmpty then some [] else t.pod
  return { sender := [], gasCoin, createdObjectsReplication, maxGas, operations, functionName, pod
           mutableRefs := mutableIDs.map fun id => { id }
           readRefs := readIDs.map fun id => { id } }

/-- The replications the wrapper declares, read when something is referenced. -/
def feeObjects (a : RawAttestedTransaction) (tx : Transaction) : Option (List Object) :=
  if tx.mutableRefs.isEmpty && tx.readRefs.isEmpty then some []
  else do
    (← a.objects).mapM fun o => do
      let id ← o.id
      let replication ← if id.length = 32 then o.replication else some 0
      return { id, version := 0, owner := [], replication, content := [] }

/-- The pooled share of a transaction's fee, split. -/
def txFeeSplit (n : Pricing) (tx : Transaction) (atx : AttestedTransaction) : FeeSplit :=
  splitFee (calculateTxFeeSplit n.computeHolders ru.params n.totalValidators tx atx).1 ru.params

/-- The producer's price of a pending entry. -/
def computeTxFeeSplit (n : Pricing) (data : Bytes) : Option FeeSplit :=
  if data.length < 8 then some {}
  else do
    match ← (ru.parse data).transaction with
    | none => return {}
    | some t =>
      let gasCoin ← t.gasCoin
      if gasCoin.length ≠ 32 then return {}
      let tx ← feeTransaction t gasCoin
      let objects ← feeObjects (ru.parse data) tx
      return ru.txFeeSplit n tx { transaction := some tx, objects }

/-- Add a split to a running summary; the sums wrap. -/
def addSplit (s : FeeSummary) (split : FeeSplit) : FeeSummary where
  totalFees := s.totalFees + split.total
  totalBurned := s.totalBurned + split.burned
  totalEpoch := s.totalEpoch + split.epoch

def buildFeeSummary (n : Pricing) (txs : List Bytes) : Option FeeSummary :=
  txs.foldlM (fun s data => (ru.computeTxFeeSplit n data).map (addSplit s)) {}

/-- The transactions and the fee summary of the vertex a producer builds, unless building
it panics. -/
def buildBody (n : Pricing) (txs : List Bytes) : Option VertexBody := do
  let transactions ← ru.buildTxVector txs
  let feeSummary ← ru.buildFeeSummary n txs
  return { transactions := transactions.map fun atx =>
             { transaction := atx.transaction.map fun tx => { tx }
               objects := atx.objects
               proofs := atx.proofs
               attestationEpoch := atx.attestationEpoch }
           feeSummary := some feeSummary }

/-! ## Checking a vertex -/

/-- The receiver's price of a transaction of the vertex. -/
def committedSplit (n : Pricing) (atx : AttestedTransaction) : FeeSplit :=
  match atx.transaction with
  | none => {}
  | some tx => if tx.gasCoin.length ≠ 32 then {} else ru.txFeeSplit n tx atx

inductive FeeSummaryError
  | missing (transactions : Nat)
  | totalFees (declared computed : UInt64)
  | totalBurned (declared computed : UInt64)
  | totalEpoch (declared computed : UInt64)
  deriving DecidableEq

def validateFeeSummary (n : Pricing) (b : VertexBody) : Except FeeSummaryError Unit :=
  match b.feeSummary with
  | none =>
    if b.transactions.length = 0 then .ok () else .error (.missing b.transactions.length)
  | some declared =>
    let computed := (b.transactions.map WireAttestedTransaction.read).foldl
      (fun s atx => addSplit s (ru.committedSplit n atx)) {}
    if declared.totalFees ≠ computed.totalFees then
      .error (.totalFees declared.totalFees computed.totalFees)
    else if declared.totalBurned ≠ computed.totalBurned then
      .error (.totalBurned declared.totalBurned computed.totalBurned)
    else if declared.totalEpoch ≠ computed.totalEpoch then
      .error (.totalEpoch declared.totalEpoch computed.totalEpoch)
    else .ok ()

end FeeRules

/-! ## An entry that is carried over reads as itself -/

section Panics

variable {α β : Type} {a : α} {b : β}

theorem bind_eq_ok {x : Except Panic α} {f : α → Except Panic β} :
    (x >>= f) = .ok b ↔ ∃ a, x = .ok a ∧ f a = .ok b := by
  cases x with
  | error e => exact ⟨nofun, nofun⟩
  | ok a => exact ⟨fun h => ⟨a, rfl, h⟩, fun ⟨_, ha, h⟩ => Except.ok.inj ha ▸ h⟩

theorem outside_eq_ok {x : Option α} : outside x = .ok a ↔ x = some a := by
  cases x <;> simp [outside]

theorem inside_eq_ok {x : Option α} : inside x = .ok a ↔ x = some a := by
  cases x <;> simp [inside]

theorem eq_map_of_mapM {f : α → Except Panic β} {back : β → α}
    (hback : ∀ a b, f a = .ok b → a = back b) {l : List α} {r : List β}
    (h : l.mapM f = .ok r) : l = r.map back := by
  induction l generalizing r with
  | nil =>
    cases h
    rfl
  | cons a rest ih =>
    rw [List.mapM_cons, bind_eq_ok] at h
    obtain ⟨b, ha, h⟩ := h
    obtain ⟨r', hrest, h⟩ := bind_eq_ok.1 h
    cases h
    rw [List.map_cons, ← hback a b ha, ← ih hrest]

end Panics

/-- The table in which every field of a reference can be read. -/
def RawRef.of (r : ObjectRef) : RawRef := ⟨some r.id, some r.version, some r.domain⟩

def RawOp.of (o : DeclaredOp) : RawOp :=
  ⟨some o.kind, some o.objectID, some o.targetKind, some o.target, some o.name, some o.termEpochs⟩

def RawTransaction.of (t : Transaction) : RawTransaction where
  hash := some t.hash
  readRefs := some (t.readRefs.map RawRef.of)
  mutableRefs := some (t.mutableRefs.map RawRef.of)
  createdObjectsReplication := some (t.createdObjectsReplication.map some)
  sender := some t.sender
  signature := some t.signature
  pod := some t.pod
  functionName := some t.functionName
  args := some t.args
  maxGas := some t.maxGas
  gasCoin := some t.gasCoin
  feePayer := some t.feePayer
  sponsorSignature := some t.sponsorSignature
  validUntil := some t.validUntil
  deletedObjects := some t.deletedObjects
  operations := some (t.operations.map RawOp.of)

def RawObject.of (o : Object) : RawObject :=
  ⟨some o.id, some o.version, some o.owner, some o.replication, some o.content, some o.fees,
    some o.parentKind⟩

theorem RawRef.eq_of_rebuild (raw : RawRef) (r : ObjectRef) (h : raw.rebuild = .ok r) :
    raw = .of r := by
  simp only [rebuild, bind_eq_ok, outside_eq_ok, inside_eq_ok] at h
  obtain ⟨id, hid, domain, hdomain, version, hversion, h⟩ := h
  cases h
  cases raw
  simp_all [RawRef.of]

theorem RawOp.eq_of_extract (raw : RawOp) (o : DeclaredOp) (h : raw.extract = .ok o) :
    raw = .of o := by
  simp only [extract, bind_eq_ok, outside_eq_ok] at h
  obtain ⟨kind, hkind, objectID, hobject, targetKind, htargetKind, target, htarget, name, hname,
    termEpochs, hterm, h⟩ := h
  cases h
  cases raw
  simp_all [RawOp.of]

theorem RawTransaction.eq_of_rebuild (raw : RawTransaction) (t : Transaction)
    (h : raw.rebuild = .ok t) : raw = .of t := by
  simp only [rebuild, bind_eq_ok, outside_eq_ok, inside_eq_ok] at h
  obtain ⟨hash, hhash, signature, hsignature, args, hargs, sender, hsender, pod, hpod,
    functionName, hname, rawReads, hreads, readRefs, hreadsOf, rawMuts, hmuts, mutableRefs,
    hmutsOf, rawReps, hreps, reps, hrepsOf, gasCoin, hgas, feePayer, hpayer, sponsorSignature,
    hsponsor, deletedObjects, hdeleted, rawOps, hops, operations, hopsOf, maxGas, hmax,
    validUntil, huntil, h⟩ := h
  cases h
  cases raw
  have hreads' := eq_map_of_mapM RawRef.eq_of_rebuild hreadsOf
  have hmuts' := eq_map_of_mapM RawRef.eq_of_rebuild hmutsOf
  have hreps' := eq_map_of_mapM (fun _ _ => inside_eq_ok.1) hrepsOf
  have hops' := eq_map_of_mapM RawOp.eq_of_extract hopsOf
  simp_all [RawTransaction.of]

theorem RawObject.eq_of_rebuild (raw : RawObject) (o : Object) (h : raw.rebuild = .ok o) :
    raw = .of o := by
  simp only [rebuild, bind_eq_ok, outside_eq_ok, inside_eq_ok] at h
  obtain ⟨id, hid, owner, howner, content, hcontent, version, hversion, replication,
    hreplication, fees, hfees, parentKind, hkind, h⟩ := h
  cases h
  cases raw
  simp_all [RawObject.of]

/-- What is carried over can be read in full, and reads as what is carried over. -/
theorem RawAttestedTransaction.readable_of_rebuild {raw : RawAttestedTransaction}
    (h : raw.rebuild = .ok atx) :
    ∃ tx, atx.transaction = some tx ∧ raw.transaction = some (some (.of tx)) ∧
      raw.objects = some (atx.objects.map .of) := by
  simp only [rebuild, bind_eq_ok, outside_eq_ok] at h
  obtain ⟨t, ht, h⟩ := h
  cases t with
  | none => cases h
  | some t =>
    simp only [bind_eq_ok, outside_eq_ok] at h
    obtain ⟨tx, hr, rawObjects, hobjects, objects, hobjectsOf, _, -, _, -, _, -, h⟩ := h
    cases h
    refine ⟨tx, rfl, by rw [ht, RawTransaction.eq_of_rebuild t tx hr], ?_⟩
    rw [hobjects, eq_map_of_mapM RawObject.eq_of_rebuild hobjectsOf]

/-! ## The two prices of an entry that is carried over -/

theorem mapM_map_some {α β γ : Type} {f : β → Option γ} {g : α → β} {h : α → γ}
    (hf : ∀ a, f (g a) = some (h a)) (l : List α) : (l.map g).mapM f = some (l.map h) := by
  induction l with
  | nil => rfl
  | cons a rest ih =>
    rw [List.map_cons, List.mapM_cons, hf, ih]
    rfl

/-- The fee depends on a transaction only through its gas, its created objects, its
operations, whether it calls a pod beside them, and the replications of its references. -/
theorem calculateTxFeeSplit_congr (computeHolders : Hash → Nat → List Hash) (p : FeeParams)
    (n : Nat) {tx' : Transaction} {atx' : AttestedTransaction}
    (hreps : tx'.createdObjectsReplication = tx.createdObjectsReplication)
    (hgas : tx'.maxGas = tx.maxGas) (hops : tx'.operations = tx.operations)
    (hcall : tx.operations ≠ [] → tx'.txHasPodCall = tx.txHasPodCall)
    (hmut : extractObjectRefs tx'.mutableRefs atx' = extractObjectRefs tx.mutableRefs atx)
    (hread : extractObjectRefs tx'.readRefs atx' = extractObjectRefs tx.readRefs atx) :
    calculateTxFeeSplit computeHolders p n tx' atx' =
      calculateTxFeeSplit computeHolders p n tx atx := by
  have honly : (!tx.operations.isEmpty && !tx'.txHasPodCall) =
      (!tx.operations.isEmpty && !tx.txHasPodCall) := by
    cases ho : tx.operations with
    | nil => rfl
    | cons op rest => rw [hcall (by simp [ho])]
  unfold calculateTxFeeSplit calculateTxFee
  rw [hreps, hgas, hops, hmut, hread, honly]

/-- A declared object as the fee reads it. -/
def feeObject (o : Object) : Object where
  id := o.id
  version := 0
  owner := []
  replication := if o.id.length = 32 then o.replication else 0
  content := []

theorem buildReplicationMap_feeObject (tx tx' : Option Transaction) (objects : List Object)
    (proofs : List QuorumProof) (epoch : Nat) :
    buildReplicationMap { transaction := tx', objects := objects.map feeObject } =
      buildReplicationMap ⟨tx, objects, proofs, epoch⟩ := by
  rw [buildReplicationMap_eq, buildReplicationMap_eq, List.filterMap_map]
  congr 1
  refine List.filterMap_congr fun o _ => ?_
  change ((hash32 o.id).map fun id => (id, if o.id.length = 32 then o.replication else 0)) = _
  cases hid : hash32 o.id with
  | none => rfl
  | some id =>
    have hlen : o.id.length = 32 := by
      rw [hash32_eq_some.1 hid]
      exact id.property
    rw [if_pos hlen]

namespace FeeRules

variable {data : Bytes} {n producer receiver : Pricing} {txs : List Bytes} (ru : FeeRules)

/-- A readable transaction as the fee reads it. -/
def feeView (tx : Transaction) : Transaction :=
  let functionName := if tx.operations.isEmpty then [] else tx.functionName
  { sender := []
    gasCoin := tx.gasCoin
    createdObjectsReplication := tx.createdObjectsReplication
    maxGas := tx.maxGas
    operations := tx.operations
    functionName
    pod := if tx.operations.isEmpty || !functionName.isEmpty then [] else tx.pod
    mutableRefs := (tx.mutableRefs.map ObjectRef.id).map fun id => { id }
    readRefs := (tx.readRefs.map ObjectRef.id).map fun id => { id } }

theorem feeTransaction_of (tx : Transaction) :
    feeTransaction (.of tx) tx.gasCoin = some (feeView tx) := by
  have hreps : (tx.createdObjectsReplication.map some).mapM id =
      some tx.createdObjectsReplication := by
    have h := mapM_map_some (f := id) (g := some) (fun _ => rfl) tx.createdObjectsReplication
    rwa [List.map_id'] at h
  have hids : ∀ l : List ObjectRef, (l.map RawRef.of).mapM RawRef.id = some (l.map ObjectRef.id) :=
    mapM_map_some fun _ => rfl
  have hops : (tx.operations.map RawOp.of).mapM (fun o => o.extract.toOption) =
      some tx.operations := by
    have h := mapM_map_some (f := fun o : RawOp => o.extract.toOption) (g := RawOp.of)
      (fun _ => rfl) tx.operations
    rwa [List.map_id'] at h
  unfold feeTransaction feeView RawTransaction.of
  simp only [Option.bind_eq_bind, Option.bind_some, hreps, hids, hops]
  cases tx.operations.isEmpty with
  | true => rfl
  | false => cases hname : tx.functionName.isEmpty <;> simp [hname]

theorem feeObjects_of {a : RawAttestedTransaction} {objects : List Object}
    (h : a.objects = some (objects.map .of)) (tx : Transaction) :
    feeObjects a tx =
      some (if tx.mutableRefs.isEmpty && tx.readRefs.isEmpty then []
        else objects.map feeObject) := by
  unfold feeObjects
  split
  · rfl
  · rw [h]
    simp only [Option.bind_eq_bind, Option.bind_some]
    refine mapM_map_some ?_ objects
    intro o
    unfold RawObject.of feeObject
    simp only [Option.bind_some]
    split <;> rfl

theorem refIDs_feeView (l : List ObjectRef) :
    ((l.map ObjectRef.id).map fun id => ({ id } : ObjectRef)).filterMap ObjectRef.refID =
      l.filterMap ObjectRef.refID := by
  rw [List.map_map, List.filterMap_map]
  rfl

theorem txFeeSplit_feeView (n : Pricing) (tx : Transaction) (atx : AttestedTransaction) :
    ru.txFeeSplit n (feeView tx)
        { transaction := some (feeView tx)
          objects :=
            if (feeView tx).mutableRefs.isEmpty && (feeView tx).readRefs.isEmpty then []
            else atx.objects.map feeObject } =
      ru.txFeeSplit n tx atx := by
  have hrefs : ∀ l : List ObjectRef,
      (l ≠ [] → ¬ ((feeView tx).mutableRefs.isEmpty && (feeView tx).readRefs.isEmpty) = true) →
      extractObjectRefs ((l.map ObjectRef.id).map fun id => { id })
          { transaction := some (feeView tx)
            objects :=
              if (feeView tx).mutableRefs.isEmpty && (feeView tx).readRefs.isEmpty then []
              else atx.objects.map feeObject } =
        extractObjectRefs l atx := by
    intro l hl
    unfold extractObjectRefs
    rw [refIDs_feeView]
    by_cases hnil : l = []
    · rw [hnil]
      rfl
    · rw [if_neg (hl hnil), buildReplicationMap_feeObject atx.transaction _ atx.objects atx.proofs
        atx.attestationEpoch]
  unfold txFeeSplit
  rw [@calculateTxFeeSplit_congr atx tx n.computeHolders ru.params n.totalValidators (feeView tx) _
    rfl rfl rfl]
  · intro hne
    have hops : tx.operations.isEmpty = false := by simpa using hne
    unfold Transaction.txHasPodCall feeView
    dsimp only
    rw [hops]
    cases hname : tx.functionName.isEmpty <;> simp [hname]
  · refine hrefs tx.mutableRefs ?_
    intro hne
    simp [feeView, hne]
  · refine hrefs tx.readRefs ?_
    intro hne
    simp [feeView, hne]

/-- The producer prices an entry it carries over as the receiver would, given the same
validator count. -/
theorem computeTxFeeSplit_of_rebuild (h : ru.tryRebuildAttestedTx data = .ok atx) (n : Pricing) :
    ru.computeTxFeeSplit n data = some (ru.committedSplit n atx) := by
  unfold tryRebuildAttestedTx at h
  by_cases hshort : data.length < 8
  · rw [if_pos hshort] at h
    cases h
  · rw [if_neg hshort] at h
    obtain ⟨tx, htx, hraw, hobjects⟩ := RawAttestedTransaction.readable_of_rebuild h
    unfold computeTxFeeSplit committedSplit
    rw [if_neg hshort, hraw, htx]
    have hcoin : (RawTransaction.of tx).gasCoin = some tx.gasCoin := rfl
    simp only [Option.bind_eq_bind, Option.bind_some, hcoin]
    by_cases hgas : tx.gasCoin.length ≠ 32
    · rw [if_pos hgas, if_pos hgas]
      rfl
    · rw [if_neg hgas, if_neg hgas, feeTransaction_of, Option.bind_some, feeObjects_of hobjects,
        Option.bind_some, txFeeSplit_feeView]
      rfl

/-! ## Whole lists -/

/-- What the receiver prices of an entry: nothing if the entry was dropped. -/
def receivedSplit (n : Pricing) (data : Bytes) : FeeSplit :=
  match ru.tryRebuildAttestedTx data with
  | .ok atx => ru.committedSplit n atx
  | .error _ => {}

/-- The pooled share of a transaction's fee. -/
def consumed (n : Pricing) (tx : Transaction) (atx : AttestedTransaction) : UInt64 :=
  (calculateTxFeeSplit n.computeHolders ru.params n.totalValidators tx atx).1

/-- An entry no fee is read from, or whose fee is nothing: it is too short, has no
transaction, names no gas coin, or its pooled share is zero. -/
def Free (n : Pricing) (data : Bytes) : Prop :=
  data.length < 8 ∨ (ru.parse data).transaction = some none ∨
    ∃ t gasCoin, (ru.parse data).transaction = some (some t) ∧ t.gasCoin = some gasCoin ∧
      (gasCoin.length ≠ 32 ∨
        ∃ tx objects, feeTransaction t gasCoin = some tx ∧
          feeObjects (ru.parse data) tx = some objects ∧
            ru.consumed n tx { transaction := some tx, objects } = 0)

/-- An entry that is carried over has the same pooled share on both nodes, or names no
gas coin; one that is dropped is free; none leaves an open table behind. -/
def Priced (producer receiver : Pricing) (data : Bytes) : Prop :=
  match ru.tryRebuildAttestedTx data with
  | .ok atx => ∀ tx, atx.transaction = some tx → tx.gasCoin.length = 32 →
      ru.consumed producer tx atx = ru.consumed receiver tx atx
  | .error .outside => ru.Free producer data
  | .error .inside => False

theorem txFeeSplit_inj {m : Pricing} {tx' : Transaction} {atx' : AttestedTransaction} :
    ru.txFeeSplit m tx atx = ru.txFeeSplit n tx' atx' ↔
      ru.consumed m tx atx = ru.consumed n tx' atx' := by
  constructor
  · exact fun h => congrArg FeeSplit.total h
  · intro h
    unfold consumed at h
    rw [txFeeSplit, txFeeSplit, h]

theorem txFeeSplit_eq_zero : ru.txFeeSplit n tx atx = {} ↔ ru.consumed n tx atx = 0 := by
  constructor
  · exact fun h => congrArg FeeSplit.total h
  · intro h
    unfold consumed at h
    rw [txFeeSplit, h]
    simp [splitFee, bpsShare]

theorem committedSplit_inj {m : Pricing} :
    ru.committedSplit m atx = ru.committedSplit n atx ↔
      ∀ tx, atx.transaction = some tx → tx.gasCoin.length = 32 →
        ru.consumed m tx atx = ru.consumed n tx atx := by
  unfold committedSplit
  cases htx : atx.transaction with
  | none => simp
  | some tx =>
    by_cases hcoin : tx.gasCoin.length = 32
    · simp [hcoin, txFeeSplit_inj]
    · simp [hcoin]

theorem computeTxFeeSplit_eq_zero : ru.computeTxFeeSplit n data = some {} ↔ ru.Free n data := by
  unfold computeTxFeeSplit Free
  by_cases hshort : data.length < 8
  · simp [hshort]
  rw [if_neg hshort]
  cases hread : (ru.parse data).transaction with
  | none => simp [hshort]
  | some present =>
    cases present with
    | none => simp [pure]
    | some t =>
      cases hcoin : t.gasCoin with
      | none => simp [hshort, hcoin]
      | some gasCoin =>
        by_cases hlen : gasCoin.length = 32
        · cases htx : feeTransaction t gasCoin with
          | none => simp [hshort, hcoin, hlen, htx]
          | some tx =>
            cases hobjects : feeObjects (ru.parse data) tx with
            | none => simp [hshort, hcoin, hlen, htx, hobjects]
            | some objects =>
              simp [hshort, hcoin, hlen, htx, hobjects, txFeeSplit_eq_zero]
        · simp [hshort, hcoin, hlen]

theorem priced_iff :
    ru.Priced producer receiver data ↔
      ru.tryRebuildAttestedTx data ≠ .error .inside ∧
        ru.computeTxFeeSplit producer data = some (ru.receivedSplit receiver data) := by
  unfold Priced receivedSplit
  cases h : ru.tryRebuildAttestedTx data with
  | ok atx =>
    simp only [ru.computeTxFeeSplit_of_rebuild h, Option.some.injEq]
    rw [committedSplit_inj]
    exact ⟨fun hp => ⟨nofun, hp⟩, fun hp => hp.2⟩
  | error e =>
    cases e with
    | outside =>
      simp only [computeTxFeeSplit_eq_zero]
      exact ⟨fun hp => ⟨nofun, hp⟩, fun hp => hp.2⟩
    | inside => exact ⟨False.elim, fun hp => hp.1 rfl⟩

/-- An entry that is carried over is priced alike by nodes that agree on the validator count
and on the holders of its mutable references, and by any two if it is over singletons. -/
theorem priced_of_alike (hok : ru.tryRebuildAttestedTx data = .ok atx)
    (h : ∀ tx, atx.transaction = some tx →
      producer.totalValidators = receiver.totalValidators ∧
          (∀ r ∈ extractObjectRefs tx.mutableRefs atx,
            producer.computeHolders r.1 r.2.toNat = receiver.computeHolders r.1 r.2.toNat) ∨
        Singletons tx atx ∧ ru.params.Covers producer.totalValidators ∧
          ru.params.Covers receiver.totalValidators) : ru.Priced producer receiver data := by
  rw [Priced, hok]
  intro tx htx _
  unfold consumed
  rcases h tx htx with ⟨hcount, hholders⟩ | ⟨hsingle, hproducer, hreceiver⟩
  · rw [hcount, calculateTxFeeSplit_holders hholders]
  · rw [calculateTxFeeSplit_of_singletons hsingle hproducer hreceiver]

theorem addSplit_zero (s : FeeSummary) : addSplit s {} = s := by
  unfold addSplit
  simp

/-- The dropped entries leave gaps, and nothing else. -/
theorem buildTxVector_eq (h : ∀ data ∈ txs, ru.tryRebuildAttestedTx data ≠ .error .inside) :
    ru.buildTxVector txs =
      some (txs.filterMap fun data => (ru.tryRebuildAttestedTx data).toOption) := by
  unfold buildTxVector
  induction txs with
  | nil => rfl
  | cons data rest ih =>
    rw [List.foldr_cons, ih fun x hx => h x (List.mem_cons_of_mem _ hx), List.filterMap_cons]
    cases hr : ru.tryRebuildAttestedTx data with
    | ok atx => rfl
    | error e =>
      cases e with
      | outside => rfl
      | inside => exact absurd hr (h data List.mem_cons_self)

theorem buildFeeSummary_eq
    (h : ∀ data ∈ txs, ru.computeTxFeeSplit producer data = some (ru.receivedSplit receiver data)) :
    ru.buildFeeSummary producer txs =
      some (txs.foldl (fun s data => addSplit s (ru.receivedSplit receiver data)) {}) := by
  unfold buildFeeSummary
  generalize ({} : FeeSummary) = s
  induction txs generalizing s with
  | nil => rfl
  | cons data rest ih =>
    rw [List.foldlM_cons, h data List.mem_cons_self]
    exact ih (fun x hx => h x (List.mem_cons_of_mem _ hx)) _

/-- What the receiver adds up over the vertex, as a sum over the entries. -/
theorem foldl_committedSplit (n : Pricing) (txs : List Bytes) (s : FeeSummary) :
    (txs.filterMap fun data => (ru.tryRebuildAttestedTx data).toOption).foldl
        (fun s atx => addSplit s (ru.committedSplit n atx)) s =
      txs.foldl (fun s data => addSplit s (ru.receivedSplit n data)) s := by
  induction txs generalizing s with
  | nil => rfl
  | cons data rest ih =>
    rw [List.filterMap_cons, List.foldl_cons]
    cases hr : ru.tryRebuildAttestedTx data with
    | ok atx =>
      have hsplit : ru.receivedSplit n data = ru.committedSplit n atx := by
        rw [receivedSplit, hr]
      rw [hsplit]
      exact ih _
    | error e =>
      have hsplit : ru.receivedSplit n data = {} := by
        rw [receivedSplit, hr]
      rw [hsplit, addSplit_zero]
      exact ih _

/-- The body of a built vertex reads as the transactions it was built from. -/
theorem read_built (l : List AttestedTransaction) :
    (l.map fun atx =>
        ({ transaction := atx.transaction.map fun tx => { tx }
           objects := atx.objects
           proofs := atx.proofs
           attestationEpoch := atx.attestationEpoch } : WireAttestedTransaction)).map
      WireAttestedTransaction.read = l := by
  rw [List.map_map]
  refine (List.map_congr_left ?_).trans (List.map_id l)
  intro atx _
  rcases atx with ⟨tx, objects, proofs, epoch⟩
  cases tx <;> rfl

theorem validateFeeSummary_ok {b : VertexBody} {declared : FeeSummary}
    (hb : b.feeSummary = some declared) :
    ru.validateFeeSummary n b = .ok () ↔
      declared = (b.transactions.map WireAttestedTransaction.read).foldl
        (fun s atx => addSplit s (ru.committedSplit n atx)) {} := by
  unfold validateFeeSummary
  rw [hb]
  simp only
  generalize (b.transactions.map WireAttestedTransaction.read).foldl
    (fun s atx => addSplit s (ru.committedSplit n atx)) {} = computed
  cases declared
  cases computed
  split_ifs <;> simp_all

theorem buildBody_passes (h : ∀ data ∈ txs, ru.Priced producer receiver data) :
    ∃ b, ru.buildBody producer txs = some b ∧ ru.validateFeeSummary receiver b = .ok () := by
  have htxs := ru.buildTxVector_eq fun data hd => (ru.priced_iff.1 (h data hd)).1
  have hsummary := ru.buildFeeSummary_eq fun data hd => (ru.priced_iff.1 (h data hd)).2
  unfold buildBody
  rw [htxs, hsummary]
  refine ⟨_, rfl, ?_⟩
  rw [ru.validateFeeSummary_ok rfl, read_built, foldl_committedSplit]

theorem priced_of_passes {b : VertexBody} (hb : ru.buildBody producer [data] = some b)
    (hok : ru.validateFeeSummary receiver b = .ok ()) : ru.Priced producer receiver data := by
  rw [priced_iff]
  unfold buildBody at hb
  have hinside : ru.tryRebuildAttestedTx data ≠ .error .inside := by
    intro hin
    have hnone : ru.buildTxVector [data] = none := by
      unfold buildTxVector
      rw [List.foldr_cons, hin]
    rw [hnone] at hb
    cases hb
  refine ⟨hinside, ?_⟩
  rw [ru.buildTxVector_eq (by simpa using hinside)] at hb
  have hsummary : ru.buildFeeSummary producer [data] =
      (ru.computeTxFeeSplit producer data).map (addSplit {}) := by
    simp [buildFeeSummary]
  rw [hsummary] at hb
  cases hfee : ru.computeTxFeeSplit producer data with
  | none =>
    rw [hfee] at hb
    cases hb
  | some split =>
    rw [hfee] at hb
    cases hb
    rw [ru.validateFeeSummary_ok rfl, read_built, foldl_committedSplit] at hok
    have hsum : addSplit {} split = addSplit {} (ru.receivedSplit receiver data) := hok
    obtain ⟨htotal, hburned, hepoch⟩ := FeeSummary.mk.inj hsum
    have heq : split = ru.receivedSplit receiver data := by
      cases split
      cases hr : ru.receivedSplit receiver data
      simp_all
    rw [heq]

/-- Whatever a producer draws from a pool of pending entries, its vertex passes the
receiver's check, if and only if each entry of the pool is priced alike. -/
theorem summaries_pass_iff_priced (producer receiver : Pricing) (pool : Bytes → Prop) :
    (∀ txs : List Bytes, (∀ data ∈ txs, pool data) →
        ∃ b, ru.buildBody producer txs = some b ∧
          ru.validateFeeSummary receiver b = .ok ()) ↔
      ∀ data, pool data → ru.Priced producer receiver data := by
  constructor
  · intro hpass data hdata
    obtain ⟨b, hb, hok⟩ := hpass [data] (by simpa using hdata)
    exact ru.priced_of_passes hb hok
  · intro hpriced txs htxs
    exact ru.buildBody_passes fun data hd => hpriced data (htxs data hd)

/-- A call that changes one replicated object. -/
def movingEntry (args : Option Bytes) : RawAttestedTransaction where
  transaction := some (some
    { RawTransaction.of
        { sender := (idOf 1).val
          functionName := ascii "move"
          maxGas := 100
          gasCoin := (idOf 11).val
          mutableRefs := [{ id := (idOf 12).val }] } with args })
  objects := some [.of { coinObject (idOf 12) (idOf 1) 5 with replication := 1 }]
  proofs := some []
  attestationEpoch := some 0

def movingRules (args : Option Bytes) : FeeRules where
  parse _ := movingEntry args
  params := defaultFeeParams

/-- What a node of the worked network prices with, before its first boundary. -/
def soloPricing (vs : ValidatorSet) : Pricing where
  totalValidators := vs.len
  computeHolders := BluePods.computeHolders soloCrypto vs

/-- A producer that added itself counts two validators and prices the call at half; and an
entry whose arguments cannot be read is priced and then left out. -/
theorem summary_refused :
    let entry : Bytes := List.replicate 8 0
    let selfAdded := soloValidators.add (idOf 2) [] zeroBLSKey
    (((movingRules (some [])).buildBody (soloPricing selfAdded) [entry]).map
        ((movingRules (some [])).validateFeeSummary (soloPricing soloValidators))) =
        some (.error (.totalFees 60 110)) ∧
      (((movingRules none).buildBody (soloPricing soloValidators) [entry]).map
        ((movingRules none).validateFeeSummary (soloPricing soloValidators))) =
        some (.error (.totalFees 110 0)) := by
  decide +kernel

end FeeRules

end BluePods
