import BluePods.Stake
import BluePods.Tx

/-! Authenticity at commit: the sender's and the sponsor's signature over the canonical
body, and the proof of possession a registration carries for its BLS key. -/

namespace BluePods

/-! ## Signatures -/

/-- A reference inside the canonical body: a malformed identifier is written as zero. -/
structure ObjectRefData where
  id : Hash
  version : UInt64
  domain : Bytes
  deriving DecidableEq

/-- The fields of a transaction that its hash covers. -/
structure UnsignedTx where
  sender : Bytes
  pod : Hash
  functionName : Bytes
  args : Bytes
  createdObjectsReplication : List UInt16
  maxGas : UInt64
  gasCoin : Bytes
  mutableRefs : List ObjectRefData
  readRefs : List ObjectRefData
  feePayer : Bytes
  validUntil : UInt64
  deletedObjects : Bytes
  operations : List DeclaredOp
  deriving DecidableEq

def extractTxRefData (r : ObjectRef) : ObjectRefData :=
  { id := hashOrZero r.id, version := r.version, domain := r.domain }

def rebuildUnsignedTx (tx : Transaction) : UnsignedTx where
  sender := tx.sender
  pod := hashOrZero tx.pod
  functionName := tx.functionName
  args := tx.args
  createdObjectsReplication := tx.createdObjectsReplication
  maxGas := tx.maxGas
  gasCoin := tx.gasCoin
  mutableRefs := tx.mutableRefs.map extractTxRefData
  readRefs := tx.readRefs.map extractTxRefData
  feePayer := tx.feePayer
  validUntil := tx.validUntil
  deletedObjects := tx.deletedObjects
  operations := tx.operations

inductive AuthError
  | hashMismatch
  | invalidSenderLength (n : Nat)
  | senderSignature
  | sponsorSignature
  deriving DecidableEq

/-- The body hash of a transaction under a serialisation of unsigned bodies. -/
def bodyHash (cr : Crypto) (unsignedTxBytes : UnsignedTx → Bytes) (tx : Transaction) : Hash :=
  cr.blake3 (unsignedTxBytes (rebuildUnsignedTx tx))

/-- The declared hash is the recomputed one, the sender signed it, and so did the fee
payer of a sponsored transaction. -/
def verifyTxAuthenticity (cr : Crypto) (unsignedTxBytes : UnsignedTx → Bytes)
    (tx : Transaction) : Except AuthError Unit :=
  let hash := (bodyHash cr unsignedTxBytes tx).val
  if hash ≠ tx.hash then .error .hashMismatch
  else if tx.sender.length ≠ 32 then .error (.invalidSenderLength tx.sender.length)
  else if !cr.ed25519Verify tx.sender hash tx.signature then .error .senderSignature
  else if tx.isSponsored && !cr.ed25519Verify tx.feePayer hash tx.sponsorSignature then
    .error .sponsorSignature
  else .ok ()

/-- What an accepted transaction carries. -/
structure Authentic (cr : Crypto) (unsignedTxBytes : UnsignedTx → Bytes) (tx : Transaction) :
    Prop where
  hash : (bodyHash cr unsignedTxBytes tx).val = tx.hash
  sender : tx.sender.length = 32
  senderSigned : cr.ed25519Verify tx.sender tx.hash tx.signature = true
  sponsorSigned : tx.isSponsored = true →
    cr.ed25519Verify tx.feePayer tx.hash tx.sponsorSignature = true

theorem verifyTxAuthenticity_ok {cr : Crypto} {wire : UnsignedTx → Bytes} {tx : Transaction}
    (h : verifyTxAuthenticity cr wire tx = .ok ()) : Authentic cr wire tx := by
  simp only [verifyTxAuthenticity] at h
  split_ifs at h with hhash hlen hsig hsp
  have heq : (bodyHash cr wire tx).val = tx.hash := by simpa using hhash
  refine ⟨heq, by simpa using hlen, ?_, fun hs => ?_⟩
  · rw [← heq]
    simpa using hsig
  · rw [← heq]
    simpa [hs] using hsp

/-! ## Registration arguments -/

/-- A slice expression on 32-bit offsets; out of range it is a run-time panic. -/
def slice (b : Bytes) (lo hi : UInt32) : Option Bytes :=
  if lo ≤ hi ∧ hi.toNat ≤ b.length then some ((b.drop lo.toNat).take (hi - lo).toNat) else none

/-- `binary.LittleEndian.Uint32` on the first four bytes. -/
def uint32LE (b : Bytes) : UInt32 :=
  UInt32.ofNat ((b.take 4).foldr (fun x acc => x.val + 256 * acc) 0)

/-- A length-prefixed field at an offset: a panic, an absent field, or its bytes and the
offset past it. Offsets wrap at 32 bits, as in the source. -/
def readBorshVec (data : Bytes) (offset : UInt32) : Option (Option (Bytes × UInt32)) :=
  if UInt32.ofNat data.length < offset + 4 then some none
  else do
    let length := uint32LE (← slice data offset (offset + 4))
    if UInt32.ofNat data.length < offset + 4 + length then some none
    else
      let value ← slice data (offset + 4) (offset + 4 + length)
      some (some (value, offset + 4 + length))

/-- The decoded arguments; a missing field is empty. -/
structure RegisterArgs where
  quicAddr : Bytes := []
  blsPubkey : Bytes := []
  blsPoP : Bytes := []
  rewardCoin : Bytes := []
  deriving DecidableEq

/-- The arguments of a registration, or a panic. -/
def decodeRegisterValidatorArgs (data : Bytes) : Option RegisterArgs :=
  if data.length < 4 then some {}
  else
    let quicLen := uint32LE data
    if data.length < (4 + quicLen).toNat then some {}
    else do
      let quicAddr ← slice data 4 (4 + quicLen)
      match ← readBorshVec data (4 + quicLen) with
      | none => some { quicAddr }
      | some (blsPubkey, offset) =>
        match ← readBorshVec data offset with
        | none => some { quicAddr, blsPubkey }
        | some (blsPoP, offset) =>
          match ← readBorshVec data offset with
          | none => some { quicAddr, blsPubkey, blsPoP }
          | some (rewardCoin, _) => some { quicAddr, blsPubkey, blsPoP, rewardCoin }

def blsSignatureSize : Nat := 96

/-- A signature under the possession tag over the claiming key and the claimed one. -/
def verifyKeyPossession (cr : Crypto) (proof : Bytes) (identity : Hash)
    (blsPublicKey : Bytes) : Bool :=
  if proof.length ≠ blsSignatureSize ∨ blsPublicKey.length ≠ 48 then false
  else cr.blsVerifyPossession proof (identity.val ++ blsPublicKey) blsPublicKey

/-- The key a registration is credited with, or a refusal. Arguments without a
full-length key claim nothing. -/
def verifiedRegistrationBLSKey (cr : Crypto) (sender : Hash) (blsPubkey pop : Bytes) :
    Option BLSKey :=
  if h : blsPubkey.length = 48 then
    if verifyKeyPossession cr pop sender blsPubkey then some ⟨blsPubkey, h⟩ else none
  else some zeroBLSKey

end BluePods
