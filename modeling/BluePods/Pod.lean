import BluePods.Attest
import BluePods.Ops
import BluePods.TxAuth

/-! Pod execution: the input built from the attested copies and local singletons, the
checks on the output, and its application to objects and tracker. -/

namespace BluePods

structure PodInput where
  transaction : Transaction
  sender : Bytes
  localObjects : List Object
  deriving DecidableEq

/-- What a pod returns. Deleted objects are concatenated identifiers. -/
structure PodOutput where
  error : UInt32 := 0
  updatedObjects : List Object := []
  createdObjects : List Object := []
  deletedObjects : Bytes := []
  registeredDomains : List Bytes := []
  deriving DecidableEq

/-- What a node's commit path is wired with. A pod call fails, returns no output, or
returns one. -/
structure Node where
  crypto : Crypto
  unsignedTxBytes : UnsignedTx → Bytes
  systemPod : Hash
  feeParams : FeeParams
  epochs : EpochResolver
  currentEpoch : UInt64 := 0
  minStake : UInt64 := 0
  computeHolders : Hash → Nat → List Hash
  isHolder : Hash → UInt16 → Bool
  pods : Hash → PodInput → Except Unit (Option PodOutput)

inductive ExecError
  | pod
  | code (n : UInt32)
  | creationLimit
  | registeredDomains
  | createdParent
  | noInputCopy
  | changedParent
  | deletion
  deriving DecidableEq

/-! ## Input -/

/-- Local bodies of the mutable references the wrapper does not carry. -/
def Ledger.resolveMutableObjects (st : Ledger) (tx : Transaction) (atxObjects : List Object) :
    List Object :=
  let present := atxObjects.map fun o => toHash o.id
  atxObjects ++ tx.mutableRefIDs.filterMap fun id =>
    if id ∈ present then none else st.getObject id

/-- An object as it is rebuilt for the pod: the parent kind is not carried over. -/
def Object.rebuilt (o : Object) : Object := { o with parentKind := keyRootKind }

/-- The objects a pod call runs on: every copy of the wrapper, then the local ones. -/
def Ledger.podObjects (st : Ledger) (tx : Transaction) (atx : AttestedTransaction) :
    List Object :=
  st.resolveMutableObjects tx atx.objects

def Ledger.podInput (st : Ledger) (tx : Transaction) (atx : AttestedTransaction) : PodInput where
  transaction := tx
  sender := tx.sender
  localObjects := (st.podObjects tx atx).map Object.rebuilt

/-! ## Output checks -/

def validateCreationLimits (out : PodOutput) (tx : Transaction) : Except ExecError Unit :=
  if out.createdObjects.length > tx.createdObjectsReplication.length then .error .creationLimit
  else .ok ()

def validateDomainRegistrations (out : PodOutput) : Except ExecError Unit :=
  if out.registeredDomains.length > 0 then .error .registeredDomains else .ok ()

/-- `binary.LittleEndian.PutUint32`. -/
def putUint32LE (n : UInt32) : Bytes :=
  (List.range 4).map fun i => byteOf (n.toNat / 256 ^ i)

def computeObjectID (cr : Crypto) (txHash : Hash) (index : Nat) : Hash :=
  cr.blake3 (txHash.val ++ putUint32LE (UInt32.ofNat index))

/-- The objects a transaction reaches through a mutable domain reference whose lease has
not expired. -/
def Ledger.domainReferencedParents (st : Ledger) (nd : Node) (tx : Transaction) : List Hash :=
  tx.mutableRefs.filterMap fun r =>
    if r.domain.isEmpty then none
    else
      match st.domains.lookup r.domain with
      | none => none
      | some leaf => if leaf.expiry < nd.currentEpoch then none else some leaf.objectID

/-- A key parent may be any key; an object parent is created earlier in the same output,
reached through a domain, or controlled by the sender. -/
def Ledger.createdParentAllowed (st : Ledger) (kind : Byte) (parent sender : Hash)
    (staged domainParents : List Hash) : Bool :=
  if kind = keyRootKind then true
  else decide (parent ∈ staged ∨ parent ∈ domainParents) || st.tracker.controls sender parent

def Ledger.validateCreatedParents (st : Ledger) (nd : Node) (out : PodOutput)
    (tx : Transaction) : Except ExecError Unit :=
  let sender := hashOrZero tx.sender
  let domainParents := st.domainReferencedParents nd tx
  let ok := out.createdObjects.zipIdx.all fun (o, i) =>
    let staged := (List.range i).map (computeObjectID nd.crypto (hashOrZero tx.hash))
    st.createdParentAllowed o.parentKind o.objectOwner sender staged domainParents
  if ok then .ok () else .error .createdParent

/-- The last input with an identifier, as an index by identifier keeps it. -/
def inputByID (inputs : List Object) (id : Hash) : Option Object :=
  inputs.reverse.find? (·.objectID = id)

/-- A pod may not move an object: owner and parent kind equal the input copy's. -/
def validateParentImmutability (out : PodOutput) (inputs : List Object) :
    Except ExecError Unit :=
  out.updatedObjects.foldlM (fun _ o =>
    match inputByID inputs o.objectID with
    | none => .error .noInputCopy
    | some input =>
      if o.parentKind ≠ input.parentKind ∨ o.owner ≠ input.owner then .error .changedParent
      else .ok ()) ()

/-- Every mutable reference is by identifier, and to an object the inputs do not show
as replicated. -/
def allMutableRefsSingletons (tx : Transaction) (inputs : List Object) : Bool :=
  tx.mutableRefs.all fun r =>
    match r.refID with
    | none => false
    | some id => ((inputByID inputs id).map (·.replication)).getD 0 = 0

def validateOutputDeletions (out : PodOutput) (tx : Transaction) (inputs : List Object) :
    Except ExecError Unit :=
  if out.deletedObjects.length = 0 then .ok ()
  else if tx.createdObjectsReplication.length > 0 ∨ allMutableRefsSingletons tx inputs then
    .ok ()
  else .error .deletion

def Ledger.validateOutput (st : Ledger) (nd : Node) (out : PodOutput) (tx : Transaction)
    (inputs : List Object) : Except ExecError Unit := do
  validateCreationLimits out tx
  validateDomainRegistrations out
  st.validateCreatedParents nd out tx
  validateParentImmutability out inputs
  validateOutputDeletions out tx inputs

/-! ## Application -/

/-- A deposit is locked only where a gas coin paid for it. -/
def txLocksDeposits (tx : Transaction) : Bool := tx.gasCoin.length == 32

/-- The deposit stamped on a created object. The source repeats the formula of
`storageDeposit` here. -/
def computeStorageDeposit (p : FeeParams) (totalValidators : Nat) (replication : UInt16) :
    UInt64 :=
  if totalValidators = 0 then 0
  else
    let effRep := if replication = 0 then totalValidators else replication.toNat
    let storage := safeMul (UInt64.ofNat effRep) p.storageFee / UInt64.ofNat totalValidators
    safeAdd storage p.indexEntryFee

theorem computeStorageDeposit_eq (p : FeeParams) (n : Nat) (replication : UInt16) :
    computeStorageDeposit p n replication =
      storageDeposit replication n p.storageFee p.indexEntryFee := rfl

namespace Ledger

def applyUpdatedObjects (st : Ledger) (out : PodOutput) : Ledger :=
  out.updatedObjects.foldl (fun st o =>
    st.setObject { o.rebuilt with version := o.version + 1 }) st

/-- The deposit a created object is stamped with. -/
def stampedDeposit (st : Ledger) (nd : Node) (tx : Transaction) (o : Object) : UInt64 :=
  if txLocksDeposits tx then computeStorageDeposit nd.feeParams st.validators.len o.replication
  else 0

/-- Track one created object and store it where this node holds it. -/
def applyCreatedObject (nd : Node) (tx : Transaction) (st : Ledger) (created : Object × Nat) :
    Ledger :=
  let (o, i) := created
  let id := computeObjectID nd.crypto (hashOrZero tx.hash) i
  let fees := st.stampedDeposit nd tx o
  let st := { st with tracker :=
    st.tracker.trackObject id o.version o.replication fees o.parentKind o.objectOwner }
  if nd.isHolder id o.replication then st.setObject { o.rebuilt with id := id.val, fees }
  else st

def applyCreatedObjects (st : Ledger) (nd : Node) (out : PodOutput) (tx : Transaction) :
    Ledger :=
  out.createdObjects.zipIdx.foldl (applyCreatedObject nd tx) st

/-- Drop the body of a declared deletion that the sender owns. -/
def deleteHeldContent (sender : Hash) (st : Ledger) (id : Hash) : Ledger :=
  match st.getObject id with
  | none => st
  | some o => if o.objectOwner ≠ sender then st else st.deleteObject id

def applyDeletedObjects (st : Ledger) (tx : Transaction) : Ledger :=
  (declaredDeletedIDs tx).foldl (deleteHeldContent (hashOrZero tx.sender)) st

/-- Bring the stored body of a mutable reference to the version after the call. -/
def ensureMutableVersion (st : Ledger) (r : ObjectRef) : Ledger :=
  match r.refID with
  | none => st
  | some id =>
    match st.getObject id with
    | none => st
    | some o =>
      if o.version = r.version + 1 then st
      else st.setObject { o.rebuilt with version := r.version + 1 }

def ensureMutableVersions (st : Ledger) (tx : Transaction) : Ledger :=
  tx.mutableRefs.foldl ensureMutableVersion st

/-- Validate an output and apply it. -/
def processOutput (st : Ledger) (nd : Node) (out : Option PodOutput) (tx : Transaction)
    (inputs : List Object) : Except ExecError Ledger :=
  match out with
  | none => .ok st
  | some out =>
    if out.error ≠ 0 then .error (.code out.error)
    else
      match st.validateOutput nd out tx inputs with
      | .error e => .error e
      | .ok () =>
        .ok (((st.applyUpdatedObjects out).applyCreatedObjects nd out tx).applyDeletedObjects tx)

/-- Run the pod of an attested transaction and commit its output. -/
def execute (st : Ledger) (nd : Node) (tx : Transaction) (atx : AttestedTransaction) :
    Except ExecError Ledger :=
  match nd.pods (hashOrZero tx.pod) (st.podInput tx atx) with
  | .error () => .error .pod
  | .ok out =>
    match st.processOutput nd out tx (st.podObjects tx atx) with
    | .error e => .error e
    | .ok st => .ok (st.ensureMutableVersions tx)

end Ledger

end BluePods
