import BluePods.Dag
import BluePods.Tx

/-! Attestations: the hash a holder signs, rendezvous placement, and the verification of
the quorum proofs an attested transaction carries, alone and as a batch. -/

namespace BluePods

/-! ## Hash and placement -/

/-- The message a holder signs for an object: content, version and owner. -/
def computeObjectHash (cr : Crypto) (content : Bytes) (version : UInt64) (owner : Bytes) :
    Hash :=
  cr.blake3 (content ++ putUint64BE version ++ owner)

def computeScore (cr : Crypto) (objectID validator : Hash) : Hash :=
  cr.blake3 (objectID.val ++ validator.val)

/-- The validators responsible for an object, highest score first. -/
def computeHolders (cr : Crypto) (vs : ValidatorSet) (objectID : Hash) (replication : Nat) :
    List Hash :=
  ((vs.all.map (·.pubkey)).insertionSort fun a b =>
    computeScore cr objectID b ≤ computeScore cr objectID a).take replication

/-- The attestations a quorum takes, at 67 percent. -/
def quorumSize (replication : Nat) : Nat := (replication * 67 + 99) / 100

/-- The indices of the set bits. -/
def parseSignerBitmap (bitmap : Bytes) : List Nat :=
  (bitmap.zipIdx).flatMap fun (b, byteIdx) =>
    ((List.range 8).filter fun bit => b.val.testBit bit).map fun bit => byteIdx * 8 + bit

/-- A bitmap over a number of holders with the bits of some indices set. -/
def buildSignerBitmap (indices : List Nat) (total : Nat) : Bytes :=
  indices.foldl (fun bitmap idx =>
    if idx < total then bitmap.modify (idx / 8) fun b => byteOf (b.val ||| 1 <<< (idx % 8))
    else bitmap) (List.replicate ((total + 7) / 8) 0)

/-- A holder with its BLS key, if it carries one. -/
def keyedHolder (vs : ValidatorSet) (holder : Hash) : Option (Hash × BLSKey) := do
  let info ← vs.get holder
  if info.blsPubkey = zeroBLSKey then none else some (holder, info.blsPubkey)

/-- The holders a bitmap names that carry a BLS key, with their keys. -/
def bitmapSigners (bitmap : Bytes) (holders : List Hash) (vs : ValidatorSet) :
    List (Hash × BLSKey) :=
  (parseSignerBitmap bitmap).filterMap fun idx => holders[idx]?.bind (keyedHolder vs)

/-- The keys a bitmap aggregates. -/
def extractSignerBLSKeys (bitmap : Bytes) (holders : List Hash) (vs : ValidatorSet) :
    List Bytes :=
  (bitmapSigners bitmap holders vs).map fun s => s.2.val

/-! ## The verifier -/

/-- What the verifier reads of the epochs. -/
structure EpochResolver where
  holdersForEpoch : Nat → Option ValidatorSet
  commitEpochForRound : Nat → Nat
  epochLength : Nat
  graceRounds : Nat

def epochGraceRounds : Nat := 50

inductive ProofError
  | pastGrace
  | epochInvalid
  | noSnapshot
  | objectNotFound (proof : Nat)
  | noSigners (proof : Nat)
  | insufficientSigners (proof got need : Nat)
  | signatureInvalid (proof : Nat)
  deriving DecidableEq

namespace EpochResolver

def withinGrace (e : EpochResolver) (commitRound : Nat) : Bool :=
  if e.epochLength = 0 then false
  else
    let boundary := e.commitEpochForRound commitRound * e.epochLength
    if commitRound < boundary then false else decide (commitRound - boundary < e.graceRounds)

/-- The snapshot of the attestation epoch: the commit epoch, or the one before within
the grace window. -/
def resolveHolders (e : EpochResolver) (attestationEpoch commitRound : Nat) :
    Except ProofError ValidatorSet := do
  let commitEpoch := e.commitEpochForRound commitRound
  if attestationEpoch = commitEpoch then pure ()
  else if 0 < commitEpoch ∧ attestationEpoch = commitEpoch - 1 then
    if e.withinGrace commitRound then pure () else throw .pastGrace
  else throw .epochInvalid
  match e.holdersForEpoch attestationEpoch with
  | none => throw .noSnapshot
  | some vs => return vs

end EpochResolver

/-- A deferred signature check. -/
structure AggCheck where
  signature : Bytes
  message : Bytes
  publicKeys : List Bytes
  deriving DecidableEq

def AggCheck.passes (cr : Crypto) (c : AggCheck) : Bool :=
  if c.signature.length ≠ 96 ∨ c.publicKeys.length = 0 then false
  else cr.blsVerifyAggregated c.signature c.message c.publicKeys

/-- The first entry with the identifier, compared as raw bytes. -/
def findATXObjectIndex (atx : AttestedTransaction) (objectID : Bytes) : Option Nat :=
  atx.objects.findIdx? (·.id = objectID)

/-- Everything about a proof but its signature. -/
def prepareSingleProof (cr : Crypto) (atx : AttestedTransaction) (vs : ValidatorSet)
    (proof : QuorumProof) (i : Nat) : Except ProofError AggCheck :=
  match (findATXObjectIndex atx proof.objectID).bind (atx.objects[·]?) with
  | none => .error (.objectNotFound i)
  | some obj =>
    let hash := computeObjectHash cr obj.content obj.version obj.owner
    let holders := computeHolders cr vs (toHash proof.objectID) obj.replication.toNat
    let blsKeys := extractSignerBLSKeys proof.signerBitmap holders vs
    if blsKeys.length = 0 then .error (.noSigners i)
    else if blsKeys.length < quorumSize holders.length then
      .error (.insufficientSigners i blsKeys.length (quorumSize holders.length))
    else
      .ok { signature := proof.blsSignature, message := hash.val, publicKeys := blsKeys }

/-! ## Batches -/

/-- A check with the transaction and the proof it belongs to. -/
structure PlannedCheck where
  check : AggCheck
  atxOf : Nat
  proofOf : Nat
  deriving DecidableEq

/-- The checks of a proof list up to the first proof that fails outright. -/
def collectProofs (cr : Crypto) (atx : AttestedTransaction) (atxIdx : Nat)
    (vs : ValidatorSet) : List (QuorumProof × Nat) → Option ProofError × List PlannedCheck
  | [] => (none, [])
  | (proof, i) :: rest =>
    match prepareSingleProof cr atx vs proof i with
    | .error e => (some e, [])
    | .ok check =>
      let (err, plan) := collectProofs cr atx atxIdx vs rest
      (err, { check, atxOf := atxIdx, proofOf := i } :: plan)

/-- The early verdict on one transaction and the checks it adds to the plan. -/
def collectATXChecks (cr : Crypto) (e : EpochResolver) (commitRound : Nat)
    (atx : AttestedTransaction) (atxIdx : Nat) : Option ProofError × List PlannedCheck :=
  match e.resolveHolders atx.attestationEpoch commitRound with
  | .error err => (some err, [])
  | .ok vs => collectProofs cr atx atxIdx vs atx.proofs.zipIdx

/-- A failed signature rejects its transaction unless it is rejected already. -/
def applyBatchVerdict (cr : Crypto) (results : List (Option ProofError)) (c : PlannedCheck) :
    List (Option ProofError) :=
  if c.check.passes cr then results
  else results.modify c.atxOf fun r => r.or (some (.signatureInvalid c.proofOf))

/-- One verdict for each transaction of a batch, in order: the early rejections, then
the signatures of the surviving checks. -/
def verifyBatch (cr : Crypto) (e : EpochResolver) (commitRound : Nat)
    (atxs : List AttestedTransaction) : List (Option ProofError) :=
  let collected := atxs.zipIdx.map fun (atx, i) => collectATXChecks cr e commitRound atx i
  (collected.flatMap (·.2)).foldl (applyBatchVerdict cr) (collected.map (·.1))

/-- The verdict on a single transaction. -/
def verify (cr : Crypto) (e : EpochResolver) (commitRound : Nat) (atx : AttestedTransaction) :
    Option ProofError :=
  ((verifyBatch cr e commitRound [atx])[0]?).getD none

end BluePods
