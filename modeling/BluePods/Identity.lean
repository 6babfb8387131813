import BluePods.Index
import BluePods.Production

/-! What the identity of a vertex commits to. The body is emitted again field by field and
hashed, and its hash goes into the 120-byte header whose hash is the identity. Each table
that is emitted reads back as what it was emitted from, except for one deprecated field
that nothing reads. -/

namespace BluePods
open Lib.SparseTree

/-! ## Tables as they are read -/

/-- A transaction on the wire, with the deprecated field no one reads. -/
structure WireTransaction where
  tx : Transaction
  maxCreateDomains : UInt16 := 0

structure WireAttestedTransaction where
  transaction : Option WireTransaction
  objects : List Object := []
  proofs : List QuorumProof := []
  attestationEpoch : Nat := 0

/-- The attested transaction the commit path works with. -/
def WireAttestedTransaction.read (atx : WireAttestedTransaction) : AttestedTransaction where
  transaction := atx.transaction.map (·.tx)
  objects := atx.objects
  proofs := atx.proofs
  attestationEpoch := atx.attestationEpoch

/-- A parent link on the wire. -/
structure WireLink where
  hash : Bytes
  producer : Bytes
  deriving DecidableEq

structure FeeSummary where
  totalFees : UInt64 := 0
  totalBurned : UInt64 := 0
  totalEpoch : UInt64 := 0
  deriving DecidableEq

structure VertexBody where
  parents : List WireLink := []
  transactions : List WireAttestedTransaction := []
  feeSummary : Option FeeSummary := none
  timestamp : UInt64 := 0

/-- A vertex on the wire. Reading the body of a crafted buffer may fail. -/
structure WireVertex where
  hash : Bytes
  round : UInt64
  producer : Bytes
  epoch : UInt64
  frontierRound : UInt64
  indexRoot : Bytes
  bodyHash : Bytes
  body : Option VertexBody

/-! ## Tables as they are emitted -/

/-- A vector that is left out when it is empty. -/
def presentIfNonempty {α : Type} (l : List α) : Option (List α) :=
  if l.isEmpty then none else some l

theorem getD_presentIfNonempty {α : Type} (l : List α) : (presentIfNonempty l).getD [] = l := by
  unfold presentIfNonempty
  cases l <;> rfl

structure RefTable where
  id : Option Bytes
  version : UInt64
  domain : Option Bytes

structure OpTable where
  kind : Byte
  objectID : Option Bytes
  targetKind : Byte
  target : Option Bytes
  name : Option Bytes
  termEpochs : UInt32

structure TxTable where
  hash : Bytes
  sender : Bytes
  signature : Bytes
  pod : Bytes
  functionName : Bytes
  args : Bytes
  maxCreateDomains : UInt16
  maxGas : UInt64
  createdObjectsReplication : Option (List UInt16)
  gasCoin : Option Bytes
  feePayer : Option Bytes
  sponsorSignature : Option Bytes
  validUntil : UInt64
  mutableRefs : Option (List RefTable)
  readRefs : Option (List RefTable)
  deletedObjects : Option Bytes
  operations : Option (List OpTable)

/-- An attested transaction without a transaction is emitted with an empty table. -/
structure AttestedTxTable where
  transaction : Option TxTable
  objects : List Object
  proofs : List QuorumProof
  attestationEpoch : Nat

structure BodyTable where
  parents : List WireLink
  transactions : List AttestedTxTable
  feeSummary : Option FeeSummary
  timestamp : UInt64

def rebuildObjectRef (r : ObjectRef) : RefTable where
  id := presentIfNonempty r.id
  version := r.version
  domain := presentIfNonempty r.domain

def buildSingleDeclaredOp (op : DeclaredOp) : OpTable where
  kind := op.kind
  objectID := presentIfNonempty op.objectID
  targetKind := op.targetKind
  target := presentIfNonempty op.target
  name := presentIfNonempty op.name
  termEpochs := op.termEpochs

/-- The deprecated field is always emitted as zero. -/
def rebuildTxInBuilder (w : WireTransaction) : TxTable where
  hash := w.tx.hash
  sender := w.tx.sender
  signature := w.tx.signature
  pod := w.tx.pod
  functionName := w.tx.functionName
  args := w.tx.args
  maxCreateDomains := 0
  maxGas := w.tx.maxGas
  createdObjectsReplication := presentIfNonempty w.tx.createdObjectsReplication
  gasCoin := presentIfNonempty w.tx.gasCoin
  feePayer := presentIfNonempty w.tx.feePayer
  sponsorSignature := presentIfNonempty w.tx.sponsorSignature
  validUntil := w.tx.validUntil
  mutableRefs := presentIfNonempty (w.tx.mutableRefs.map rebuildObjectRef)
  readRefs := presentIfNonempty (w.tx.readRefs.map rebuildObjectRef)
  deletedObjects := presentIfNonempty w.tx.deletedObjects
  operations := presentIfNonempty (w.tx.operations.map buildSingleDeclaredOp)

def rebuildAttestedTx (atx : WireAttestedTransaction) : AttestedTxTable where
  transaction := atx.transaction.map rebuildTxInBuilder
  objects := atx.objects
  proofs := atx.proofs
  attestationEpoch := atx.attestationEpoch

def rebuildBody (b : VertexBody) : BodyTable where
  parents := b.parents
  transactions := b.transactions.map rebuildAttestedTx
  feeSummary := b.feeSummary
  timestamp := b.timestamp

/-! ## Reading an emitted table back -/

def RefTable.read (t : RefTable) : ObjectRef where
  id := t.id.getD []
  version := t.version
  domain := t.domain.getD []

def OpTable.read (t : OpTable) : DeclaredOp where
  kind := t.kind
  objectID := t.objectID.getD []
  targetKind := t.targetKind
  target := t.target.getD []
  name := t.name.getD []
  termEpochs := t.termEpochs

def TxTable.read (t : TxTable) : Transaction where
  hash := t.hash
  readRefs := (t.readRefs.getD []).map RefTable.read
  mutableRefs := (t.mutableRefs.getD []).map RefTable.read
  createdObjectsReplication := t.createdObjectsReplication.getD []
  sender := t.sender
  signature := t.signature
  pod := t.pod
  functionName := t.functionName
  args := t.args
  maxGas := t.maxGas
  gasCoin := t.gasCoin.getD []
  feePayer := t.feePayer.getD []
  sponsorSignature := t.sponsorSignature.getD []
  validUntil := t.validUntil
  deletedObjects := t.deletedObjects.getD []
  operations := (t.operations.getD []).map OpTable.read

def AttestedTxTable.read (t : AttestedTxTable) : AttestedTransaction where
  transaction := t.transaction.map TxTable.read
  objects := t.objects
  proofs := t.proofs
  attestationEpoch := t.attestationEpoch

theorem read_rebuildObjectRef (r : ObjectRef) : (rebuildObjectRef r).read = r := by
  unfold rebuildObjectRef RefTable.read
  simp only [getD_presentIfNonempty]

theorem read_buildSingleDeclaredOp (op : DeclaredOp) : (buildSingleDeclaredOp op).read = op := by
  unfold buildSingleDeclaredOp OpTable.read
  simp only [getD_presentIfNonempty]

theorem map_read_rebuildObjectRef (l : List ObjectRef) :
    (l.map rebuildObjectRef).map RefTable.read = l := by
  rw [List.map_map]
  exact (List.map_congr_left fun r _ => read_rebuildObjectRef r).trans (List.map_id l)

theorem map_read_buildSingleDeclaredOp (l : List DeclaredOp) :
    (l.map buildSingleDeclaredOp).map OpTable.read = l := by
  rw [List.map_map]
  exact (List.map_congr_left fun op _ => read_buildSingleDeclaredOp op).trans (List.map_id l)

/-- An emitted transaction reads as the one it was emitted from. -/
theorem read_rebuildTxInBuilder (w : WireTransaction) : (rebuildTxInBuilder w).read = w.tx := by
  unfold rebuildTxInBuilder TxTable.read
  simp only [getD_presentIfNonempty, map_read_rebuildObjectRef, map_read_buildSingleDeclaredOp]

theorem read_rebuildAttestedTx (atx : WireAttestedTransaction) :
    (rebuildAttestedTx atx).read = atx.read := by
  unfold rebuildAttestedTx AttestedTxTable.read WireAttestedTransaction.read
  cases atx.transaction with
  | none => rfl
  | some w =>
    simp only [Option.map_some, read_rebuildTxInBuilder]

theorem map_read_eq_of_rebuild_eq {l l' : List WireAttestedTransaction}
    (h : l.map rebuildAttestedTx = l'.map rebuildAttestedTx) :
    l.map WireAttestedTransaction.read = l'.map WireAttestedTransaction.read := by
  have hread : ∀ k : List WireAttestedTransaction,
      k.map WireAttestedTransaction.read = (k.map rebuildAttestedTx).map AttestedTxTable.read := by
    intro k
    rw [List.map_map]
    exact List.map_congr_left fun atx _ => (read_rebuildAttestedTx atx).symm
  rw [hread, hread, h]

/-! ## Identity -/

def headerDomainTag : Byte := 1

def bodyDomainTag : Byte := 2

def taggedHash (cr : Crypto) (tag : Byte) (data : Bytes) : Hash := cr.blake3 (tag :: data)

/-- The body hash of a vertex whose body cannot be read. -/
def malformedBody (cr : Crypto) : Hash := cr.blake3 (ascii "bluepods.vertex.body.malformed")

namespace WireVertex

/-- The header a vertex declares, over the given body hash. -/
def headerOf (v : WireVertex) (bodyHash : Hash) : Bytes :=
  headerBytes (hashOrZero v.producer) v.round.toNat v.epoch.toNat v.frontierRound.toNat
    (hashOrZero v.indexRoot) bodyHash

def computeBodyHash (cr : Crypto) (emit : BodyTable → Bytes) (v : WireVertex) : Hash :=
  match v.body with
  | none => malformedBody cr
  | some body => taggedHash cr bodyDomainTag (emit (rebuildBody body))

/-- The identity and the body hash a vertex's own content implies. -/
def vertexIdentity (cr : Crypto) (emit : BodyTable → Bytes) (v : WireVertex) : Hash × Hash :=
  let bodyHash := v.computeBodyHash cr emit
  (taggedHash cr headerDomainTag (v.headerOf bodyHash), bodyHash)

inductive HashError
  | unreadableBody
  | bodyHashMismatch (declared computed : Hash)
  | headerHashMismatch (declared computed : Hash)
  deriving DecidableEq

def validateVertexHash (cr : Crypto) (emit : BodyTable → Bytes) (v : WireVertex) :
    Except HashError Unit :=
  let (identity, bodyHash) := v.vertexIdentity cr emit
  if bodyHash = malformedBody cr then .error .unreadableBody
  else if hashOrZero v.bodyHash ≠ bodyHash then
    .error (.bodyHashMismatch (hashOrZero v.bodyHash) bodyHash)
  else if hashOrZero v.hash ≠ identity then
    .error (.headerHashMismatch (hashOrZero v.hash) identity)
  else .ok ()

theorem validateVertexHash_ok {cr : Crypto} {emit : BodyTable → Bytes} {v : WireVertex}
    (h : v.validateVertexHash cr emit = .ok ()) :
    (∃ body, v.body = some body) ∧ hashOrZero v.hash = (v.vertexIdentity cr emit).1 := by
  simp only [validateVertexHash] at h
  split_ifs at h with hmal hbody hhash
  refine ⟨?_, by simpa using hhash⟩
  cases hb : v.body with
  | none =>
    exfalso
    apply hmal
    unfold vertexIdentity computeBodyHash
    rw [hb]
  | some body => exact ⟨body, rfl⟩

/-- The strings hashed to identify a vertex. -/
def hashedStrings (cr : Crypto) (emit : BodyTable → Bytes) (v : WireVertex) : List Bytes :=
  (headerDomainTag :: v.headerOf (v.computeBodyHash cr emit)) ::
    (v.body.map fun body => bodyDomainTag :: emit (rebuildBody body)).toList

/-- Two vertices whose every field commit reads is the same. The parent links and the
transactions are compared position by position, an attested transaction as the commit
path reads it. -/
structure SameContent (v v' : WireVertex) : Prop where
  producer : hashOrZero v.producer = hashOrZero v'.producer
  round : v.round = v'.round
  epoch : v.epoch = v'.epoch
  frontierRound : v.frontierRound = v'.frontierRound
  indexRoot : hashOrZero v.indexRoot = hashOrZero v'.indexRoot
  timestamp : v.body.map (·.timestamp) = v'.body.map (·.timestamp)
  feeSummary : v.body.map (·.feeSummary) = v'.body.map (·.feeSummary)
  parents : v.body.map (·.parents) = v'.body.map (·.parents)
  transactions : v.body.map (fun b => b.transactions.map WireAttestedTransaction.read) =
    v'.body.map fun b => b.transactions.map WireAttestedTransaction.read

theorem putUint64BE_inj {m n : UInt64} (h : putUint64BE m = putUint64BE n) : m = n := by
  have hm := uint64BE_putUint64BE m []
  have hn := uint64BE_putUint64BE n []
  rw [h] at hm
  exact hm.symm.trans hn

/-- The header is positional: equal bytes, equal fields. -/
theorem headerOf_inj {v v' : WireVertex} {b b' : Hash} (h : v.headerOf b = v'.headerOf b') :
    hashOrZero v.producer = hashOrZero v'.producer ∧ v.round = v'.round ∧ v.epoch = v'.epoch ∧
      v.frontierRound = v'.frontierRound ∧ hashOrZero v.indexRoot = hashOrZero v'.indexRoot ∧
      b = b' := by
  have hlen : ∀ x y : Hash, x.val.length = y.val.length := fun x y =>
    x.property.trans y.property.symm
  unfold headerOf headerBytes at h
  simp only [UInt64.ofNat_toNat] at h
  obtain ⟨hproducer, h⟩ := List.append_inj h (hlen _ _)
  obtain ⟨hround, h⟩ := List.append_inj h (by simp)
  obtain ⟨hepoch, h⟩ := List.append_inj h (by simp)
  obtain ⟨hfrontier, h⟩ := List.append_inj h (by simp)
  obtain ⟨hroot, hbody⟩ := List.append_inj h (hlen _ _)
  exact ⟨Subtype.ext hproducer, putUint64BE_inj hround, putUint64BE_inj hepoch,
    putUint64BE_inj hfrontier, Subtype.ext hroot, Subtype.ext hbody⟩

/-- Barring collisions among the strings hashed for the two vertices, and with bodies
that emit the same bytes being the same, two vertices that pass the check and declare one
hash have the same content. -/
theorem identity_binds_content (cr : Crypto) (emit : BodyTable → Bytes) (v v' : WireVertex)
    (hv : v.validateVertexHash cr emit = .ok ()) (hv' : v'.validateVertexHash cr emit = .ok ())
    (hid : hashOrZero v.hash = hashOrZero v'.hash)
    (hfree : Tree.CollisionFree cr.blake3 (v.hashedStrings cr emit ++ v'.hashedStrings cr emit))
    (hemit : ∀ b ∈ v.body, ∀ b' ∈ v'.body,
      emit (rebuildBody b) = emit (rebuildBody b') → rebuildBody b = rebuildBody b') :
    v.SameContent v' := by
  obtain ⟨⟨body, hbody⟩, hhash⟩ := validateVertexHash_ok hv
  obtain ⟨⟨body', hbody'⟩, hhash'⟩ := validateVertexHash_ok hv'
  have hheader : headerDomainTag :: v.headerOf (v.computeBodyHash cr emit) =
      headerDomainTag :: v'.headerOf (v'.computeBodyHash cr emit) := by
    apply hfree _ (List.mem_append_left _ List.mem_cons_self) _
      (List.mem_append_right _ List.mem_cons_self)
    exact hhash.symm.trans (hid.trans hhash')
  obtain ⟨hproducer, hround, hepoch, hfrontier, hroot, hbodyHash⟩ :=
    headerOf_inj (List.cons.inj hheader).2
  have htables : rebuildBody body = rebuildBody body' := by
    refine hemit body hbody body' hbody' ?_
    have hstrings : bodyDomainTag :: emit (rebuildBody body) =
        bodyDomainTag :: emit (rebuildBody body') := by
      apply hfree
      · simp [hashedStrings, hbody]
      · simp [hashedStrings, hbody']
      · unfold computeBodyHash at hbodyHash
        rw [hbody, hbody'] at hbodyHash
        exact hbodyHash
    exact (List.cons.inj hstrings).2
  obtain ⟨hparents, htxs, hfees, htime⟩ := BodyTable.mk.inj htables
  refine ⟨hproducer, hround, hepoch, hfrontier, hroot, ?_, ?_, ?_, ?_⟩ <;> rw [hbody, hbody']
  · exact congrArg some htime
  · exact congrArg some hfees
  · exact congrArg some hparents
  · exact congrArg some (map_read_eq_of_rebuild_eq htxs)

/-- Fill in the hashes a vertex's content implies. -/
def sealed (cr : Crypto) (emit : BodyTable → Bytes) (v : WireVertex) : WireVertex :=
  let (identity, bodyHash) := v.vertexIdentity cr emit
  { v with hash := identity.val, bodyHash := bodyHash.val }

def emitVector {α : Type} (emit : α → Bytes) (l : List α) : Bytes :=
  putUint32LE (UInt32.ofNat l.length) ++ l.flatMap emit

def emitOption {α : Type} (emit : α → Bytes) (x : Option α) : Bytes := emitVector emit x.toList

def emitBytes : Bytes → Bytes := emitVector fun b => [b]

def emitRef (t : RefTable) : Bytes :=
  [t.id, t.domain].flatMap (emitOption emitBytes) ++ putUint64LE t.version

def emitOp (t : OpTable) : Bytes :=
  [t.kind, t.targetKind] ++ [t.objectID, t.target, t.name].flatMap (emitOption emitBytes) ++
    putUint32LE t.termEpochs

def emitTx (t : TxTable) : Bytes :=
  [t.hash, t.sender, t.signature, t.pod, t.functionName, t.args].flatMap emitBytes ++
    [t.maxCreateDomains.toUInt64, t.maxGas, t.validUntil].flatMap putUint64LE ++
    emitOption (emitVector fun rep => putUint64LE rep.toUInt64) t.createdObjectsReplication ++
    [t.gasCoin, t.feePayer, t.sponsorSignature, t.deletedObjects].flatMap (emitOption emitBytes) ++
    [t.mutableRefs, t.readRefs].flatMap (emitOption (emitVector emitRef)) ++
    emitOption (emitVector emitOp) t.operations

def emitObject (o : Object) : Bytes :=
  [o.id, o.owner, o.content].flatMap emitBytes ++
    [o.version, o.replication.toUInt64, o.fees].flatMap putUint64LE ++ [o.parentKind]

def emitProof (p : QuorumProof) : Bytes :=
  [p.objectID, p.blsSignature, p.signerBitmap].flatMap emitBytes

def emitAttestedTx (t : AttestedTxTable) : Bytes :=
  emitOption emitTx t.transaction ++ emitVector emitObject t.objects ++
    emitVector emitProof t.proofs ++ putUint64LE (UInt64.ofNat t.attestationEpoch)

/-- Every field of a body, each vector behind its length. -/
def soloEmit (t : BodyTable) : Bytes :=
  emitVector (fun link => emitBytes link.hash ++ emitBytes link.producer) t.parents ++
    emitVector emitAttestedTx t.transactions ++
    emitOption (fun s => [s.totalFees, s.totalBurned, s.totalEpoch].flatMap putUint64LE)
      t.feeSummary ++
    putUint64LE t.timestamp

/-- A vertex with one call, whose deprecated field is as given. -/
def soloVertex (maxCreateDomains : UInt16) : WireVertex :=
  sealed soloCrypto soloEmit
    { hash := []
      round := 3
      producer := (idOf 1).val
      epoch := 0
      frontierRound := 2
      indexRoot := (idOf 9).val
      bodyHash := []
      body := some
        { parents := [⟨(idOf 5).val, (idOf 1).val⟩]
          transactions :=
            [{ transaction := some { tx := creatingBody (idOf 12) [], maxCreateDomains } }]
          feeSummary := some { totalFees := 100, totalEpoch := 100 }
          timestamp := 77 } }

theorem identity_binds_content_solo :
    (soloVertex 0).validateVertexHash soloCrypto soloEmit = .ok () ∧
      (soloVertex 0).SameContent (soloVertex 5) := by
  have hok : ∀ n, (soloVertex n).validateVertexHash soloCrypto soloEmit = .ok () := by
    intro n
    exact (by decide +kernel :
      (soloVertex 0).validateVertexHash soloCrypto soloEmit = .ok ())
  have hbody : ∀ n, ∀ b ∈ (soloVertex n).body, ∀ b' ∈ (soloVertex 0).body,
      rebuildBody b = rebuildBody b' := by
    rintro n b hb b' hb'
    cases hb
    cases hb'
    rfl
  refine ⟨hok 0, identity_binds_content soloCrypto soloEmit _ _ (hok 0) (hok 5) rfl ?_ ?_⟩
  · unfold Tree.CollisionFree
    decide +kernel
  · intro b hb b' hb' _
    rw [hbody 0 b hb b hb, hbody 5 b' hb' b hb]

end WireVertex

end BluePods
