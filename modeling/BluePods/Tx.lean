import BluePods.Types

/-! Transactions, objects and attested transactions as the commit path reads them off
the wire. A byte field that should hold an identifier may have any length. -/

namespace BluePods

/-- The bytes of an ASCII literal. -/
def ascii (s : String) : Bytes := s.toList.map fun c => byteOf c.toNat

/-- `copy` into a 32-byte array: longer input is cut, shorter input is padded. -/
def toHash (b : Bytes) : Hash :=
  ⟨b.take 32 ++ List.replicate (32 - (b.take 32).length) 0, by simp⟩

/-- A 32-byte field, or the zero identifier when it is absent or malformed. -/
def hashOrZero (b : Bytes) : Hash := (hash32 b).getD zeroHash

@[simp] theorem toHash_val (h : Hash) : toHash h.val = h := by
  apply Subtype.ext
  have hlen := h.property
  simp [toHash, List.take_of_length_le, hlen]

theorem toHash_of_hash32 {b : Bytes} {x : Hash} (h : hash32 b = some x) : toHash b = x := by
  rw [hash32_eq_some.1 h, toHash_val]

theorem hashOrZero_val (h : Hash) : hashOrZero h.val = h := by
  simp [hashOrZero]

/-! ## Objects -/

/-- How an object's owner bytes are read: a key, or another object's identifier. -/
def keyRootKind : Byte := 0

def objectParentKind : Byte := 1

structure Object where
  id : Bytes
  version : UInt64
  owner : Bytes
  replication : UInt16
  content : Bytes
  fees : UInt64 := 0
  parentKind : Byte := keyRootKind
  deriving DecidableEq

namespace Object

/-- The key a body is stored under. -/
def objectID (o : Object) : Hash := hashOrZero o.id

def objectOwner (o : Object) : Hash := hashOrZero o.owner

end Object

/-! ## Transactions -/

/-- A reference by identifier and version, or by domain name. -/
structure ObjectRef where
  id : Bytes := []
  version : UInt64 := 0
  domain : Bytes := []
  deriving DecidableEq

structure DeclaredOp where
  kind : Byte
  objectID : Bytes := []
  targetKind : Byte := 0
  target : Bytes := []
  name : Bytes := []
  termEpochs : UInt32 := 0
  deriving DecidableEq

structure Transaction where
  hash : Bytes := []
  readRefs : List ObjectRef := []
  mutableRefs : List ObjectRef := []
  createdObjectsReplication : List UInt16 := []
  sender : Bytes
  signature : Bytes := []
  pod : Bytes := []
  functionName : Bytes := []
  args : Bytes := []
  maxGas : UInt64 := 0
  gasCoin : Bytes := []
  feePayer : Bytes := []
  sponsorSignature : Bytes := []
  validUntil : UInt64 := 0
  deletedObjects : Bytes := []
  operations : List DeclaredOp := []
  deriving DecidableEq

structure QuorumProof where
  objectID : Bytes
  blsSignature : Bytes
  signerBitmap : Bytes
  deriving DecidableEq

/-- A transaction wrapped with the copies of the replicated objects it touches and the
quorum proofs collected for them. -/
structure AttestedTransaction where
  transaction : Option Transaction
  objects : List Object := []
  proofs : List QuorumProof := []
  attestationEpoch : Nat := 0
  deriving DecidableEq

/-- The 32-byte identifier of a reference, none for a domain or malformed reference. -/
def ObjectRef.refID (r : ObjectRef) : Option Hash := hash32 r.id

namespace Transaction

/-- A fee payer of the right length is what makes a transaction sponsored. -/
def isSponsored (tx : Transaction) : Bool := tx.feePayer.length == 32

/-- The key whose coin pays: the fee payer of a sponsored transaction, else the sender. -/
def payer (tx : Transaction) : Bytes := if tx.isSponsored then tx.feePayer else tx.sender

def txGasCoinID (tx : Transaction) : Option Hash := hash32 tx.gasCoin

def txCommitHash (tx : Transaction) : Option Hash := hash32 tx.hash

/-- The coin a stake transaction moves: its first mutable reference. -/
def firstMutableRefID (tx : Transaction) : Option Hash :=
  tx.mutableRefs.head?.bind ObjectRef.refID

/-- The identifiers of the mutable references, in order. -/
def mutableRefIDs (tx : Transaction) : List Hash := tx.mutableRefs.filterMap ObjectRef.refID

theorem mem_mutableRefIDs_of_first {tx : Transaction} {coin : Hash}
    (h : tx.firstMutableRefID = some coin) : coin ∈ tx.mutableRefIDs := by
  obtain ⟨r, hr, hid⟩ := Option.bind_eq_some_iff.1 h
  exact List.mem_filterMap.2 ⟨r, List.mem_of_head? hr, hid⟩

/-- A function name or a non-zero pod target. -/
def txHasPodCall (tx : Transaction) : Bool :=
  !tx.functionName.isEmpty || tx.pod.any (· ≠ 0)

end Transaction

/-! ## Shape -/

inductive ShapeError
  | mixedPodCall
  | mixedCreatedObjects
  | tooManyOperations
  deriving DecidableEq

def maxDeclaredOps : Nat := 40

/-- A transaction declares operations or calls a pod, never both, and only a pod call
creates objects. -/
def validateShape (tx : Transaction) : Except ShapeError Unit :=
  if tx.operations.length = 0 then .ok ()
  else if tx.txHasPodCall then .error .mixedPodCall
  else if tx.createdObjectsReplication.length > 0 then .error .mixedCreatedObjects
  else if tx.operations.length > maxDeclaredOps then .error .tooManyOperations
  else .ok ()

/-! ## Declared deletions -/

/-- Concatenated 32-byte identifiers; trailing bytes are ignored. -/
def chunks32 : Nat → Bytes → List Hash
  | 0, _ => []
  | n + 1, b =>
    match hash32 (b.take 32) with
    | none => []
    | some h => h :: chunks32 n (b.drop 32)

/-- The identifiers the transaction declares deleted. -/
def declaredDeletedIDs (tx : Transaction) : List Hash :=
  chunks32 (tx.deletedObjects.length / 32) tx.deletedObjects

/-- The declared deletions among the mutable references, once each, in reference
order. -/
def ownedDeletedRefs (tx : Transaction) : List Hash :=
  let deleted := declaredDeletedIDs tx
  (tx.mutableRefIDs.filter (· ∈ deleted)).foldl
    (fun targets id => if id ∈ targets then targets else targets ++ [id]) []

end BluePods
