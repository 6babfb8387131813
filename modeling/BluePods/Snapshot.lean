import BluePods.Commit
import BluePods.Wire

/-! Sync snapshots. Objects live in the node's store under their bare 32-byte identifiers,
next to consensus records under prefixed keys. A snapshot collects every 32-byte key that
does not look like a consensus record, and applying it writes what it carries and deletes
nothing. -/

namespace BluePods

variable {key value : Bytes} {cr : Crypto} {source : Db} {cut : Cut}
open Lib.Records

/-! ## The store -/

/-- The key-value store of a node. -/
abbrev Db := AList fun _ : Bytes => Bytes

namespace Db

def get (db : Db) (key : Bytes) : Option Bytes := db.lookup key

/-- Write the pairs in order. -/
def setBatch (db : Db) (pairs : List (Bytes × Bytes)) : Db :=
  pairs.foldl (fun db p => db.insert p.1 p.2) db

/-- Every pair in ascending key order. -/
def iterate (db : Db) : List (Bytes × Bytes) :=
  (db.entries.map fun e => (e.1, e.2)).insertionSort fun a b => a.1 ≤ b.1

theorem mem_iterate {db : Db} : (key, value) ∈ db.iterate ↔ db.get key = some value := by
  rw [iterate, List.mem_insertionSort, get, ← Option.mem_def, AList.mem_lookup_iff]
  constructor
  · intro h
    obtain ⟨e, he, hpair⟩ := List.mem_map.1 h
    simp only [Prod.mk.injEq] at hpair
    rw [← hpair.1, ← hpair.2]
    exact he
  · intro h
    exact List.mem_map.2 ⟨⟨key, value⟩, h, rfl⟩

theorem get_insert (db : Db) (key key' value : Bytes) :
    Db.get (db.insert key value) key' = if key' = key then some value else db.get key' := by
  by_cases h : key' = key
  · subst h
    rw [if_pos rfl, get, AList.lookup_insert]
  · rw [if_neg h, get, AList.lookup_insert_ne h, get]

/-- The last pair under a key counts. -/
theorem get_setBatch {pairs : List (Bytes × Bytes)} {o : Option Bytes}
    (h : ∀ v, (key, v) ∈ pairs ↔ o = some v) (db : Db) :
    (db.setBatch pairs).get key = o.or (db.get key) := by
  induction pairs using List.reverseRecOn with
  | nil =>
    obtain rfl : o = none :=
      Option.eq_none_iff_forall_ne_some.2 fun v hv => by simpa using (h v).2 hv
    rfl
  | append_singleton pairs p ih =>
    rw [setBatch, List.foldl_append, List.foldl_cons, List.foldl_nil, get_insert]
    split
    · rename_i hp
      rw [(h p.2).1 (by simp [hp])]
      rfl
    · rename_i hp
      refine ih fun v => ?_
      rw [← h v]
      simp [Prod.ext_iff, hp]

end Db

/-! ## Keys -/

def objectKeySize : Nat := 32

def prefixObjectSig : Bytes := ascii "objsig:"
def prefixVertex : Bytes := ascii "v:"
def prefixRound : Bytes := ascii "r:"
def prefixMeta : Bytes := ascii "m:"
def prefixTracker : Bytes := ascii "t:"
def prefixDomain : Bytes := ascii "d:"

def isConsensusKey (key : Bytes) : Bool :=
  prefixVertex.isPrefixOf key || prefixRound.isPrefixOf key || prefixMeta.isPrefixOf key ||
    prefixTracker.isPrefixOf key || prefixDomain.isPrefixOf key

/-! ## Validators -/

/-- One validator: key, address behind a 16-bit length, BLS key, stake, reward coin. A
longer address is written whole behind its length cut to 16 bits. -/
def encodeValidator (v : ValidatorInfo) : Bytes :=
  v.pubkey.val ++ (putUint16LE (UInt16.ofNat v.quicAddr.length) ++ (v.quicAddr ++
    (v.blsPubkey.val ++ (putUint64BE v.selfStake ++ (putUint64BE v.delegatedTotal ++
      ((if v.jailed then (1 : Byte) else 0) :: v.rewardCoin.val))))))

def encodeValidators (validators : List ValidatorInfo) : Bytes :=
  validators.flatMap encodeValidator

/-- One validator off the front, or nothing when a field is cut short. -/
def readValidator (data : Bytes) : Option (ValidatorInfo × Bytes) := do
  if data.length < 32 then none
  let pubkey := toHash data
  let data := data.drop 32
  if data.length < 2 then none
  let quicLen := (uint16LE data).toNat
  let data := data.drop 2
  if data.length < quicLen then none
  let quicAddr := data.take quicLen
  let data := data.drop quicLen
  if data.length < 48 then none
  let blsPubkey := toBLSKey data
  let data := data.drop 48
  if data.length < 17 then none
  let selfStake := uint64BE data
  let delegatedTotal := uint64BE (data.drop 8)
  let jailed := data.getD 16 0 != 0
  let data := data.drop 17
  if data.length < 32 then none
  return ({ pubkey, quicAddr, blsPubkey, selfStake, delegatedTotal, jailed,
            rewardCoin := toHash data }, data.drop 32)

def decodeValidators (data : Bytes) : List ValidatorInfo := read readValidator data.length data

theorem reads_validator {v : ValidatorInfo} (h : v.quicAddr.length < 2 ^ 16) :
    Reads encodeValidator readValidator v := by
  intro rest
  have hk := v.pubkey.property
  have hb := v.blsPubkey.property
  have hr := v.rewardCoin.property
  have haddr : (UInt16.ofNat v.quicAddr.length).toNat = v.quicAddr.length := by
    rw [UInt16.toNat_ofNat', Nat.mod_eq_of_lt h]
  have hlong : ∀ {a : Bytes} (b : Bytes) {n : Nat}, a.length = n → ¬ (a ++ b).length < n := by
    intro a b n ha
    rw [List.length_append, ha]
    omega
  -- the stakes and the jail flag are read off one cut
  have hstakes : ∀ (jail : Byte) (r : Bytes),
      let tail := putUint64BE v.selfStake ++ (putUint64BE v.delegatedTotal ++ jail :: r)
      ¬ tail.length < 17 ∧ tail.drop 8 = putUint64BE v.delegatedTotal ++ jail :: r ∧
        tail.getD 16 0 = jail ∧ tail.drop 17 = r := by
    simp [List.drop_append, List.getElem?_append, List.drop_of_length_le]
    omega
  obtain ⟨h17, hdelegated, hjail, hcoin⟩ :=
    hstakes (if v.jailed then 1 else 0) (v.rewardCoin.val ++ rest)
  unfold readValidator
  simp only [encodeValidator, List.append_assoc, List.cons_append, if_neg (hlong _ hk),
    List.drop_left' hk, toHash_append, if_neg (hlong _ (length_putUint16LE _)),
    List.drop_left' (length_putUint16LE _), uint16LE_putUint16LE, haddr, if_neg (hlong _ rfl),
    List.drop_left' (rfl : v.quicAddr.length = _), List.take_left' (rfl : v.quicAddr.length = _),
    if_neg (hlong _ hb), List.drop_left' hb, toBLSKey_append, if_neg h17, hdelegated, hjail, hcoin,
    uint64BE_putUint64BE, if_neg (hlong _ hr), List.drop_left' hr]
  have hflag : ((if v.jailed then (1 : Byte) else 0) != 0) = v.jailed := by
    cases v.jailed <;> rfl
  rw [hflag]
  rfl

theorem decodeValidators_encode {vals : List ValidatorInfo}
    (h : ∀ v ∈ vals, v.quicAddr.length < 2 ^ 16) :
    decodeValidators (encodeValidators vals) = vals := by
  have hlen : vals.length ≤ (encodeValidators vals).length := by
    induction vals with
    | nil => simp
    | cons v vals ih =>
      have := ih fun w hw => h w (List.mem_cons_of_mem _ hw)
      simp only [encodeValidators, List.flatMap_cons, List.length_append,
        List.length_cons] at this ⊢
      have hone : 32 ≤ (encodeValidator v).length := by
        simp only [encodeValidator, List.length_append, v.pubkey.property]
        omega
      omega
  exact read_flatMap_of_le hlen (fun v hv => reads_validator (h v hv)) rfl

/-! ## Snapshots -/

/-- An eager signature of an object version. -/
structure SigEntry where
  id : Hash
  version : UInt64
  sig : Bytes
  deriving DecidableEq

structure VertexEntry where
  round : UInt64
  data : Bytes
  committed : Bool
  deriving DecidableEq

/-- What a snapshot carries next to the objects and signatures of the store. -/
structure Cut where
  lastCommittedRound : UInt64 := 0
  validators : List ValidatorInfo := []
  vertices : List VertexEntry := []
  trackerEntries : List (Hash × TrackerEntry) := []
  domainEntries : List (Bytes × DomainLeaf) := []
  totalSupply : UInt64 := 0
  coinsTotal : UInt64 := 0
  issuanceRateMicro : UInt64 := 0
  epochState : Bytes := []

structure Snapshot where
  version : UInt32
  lastCommittedRound : UInt64
  objects : List (Bytes × Bytes)
  validators : Bytes
  checksum : Hash
  vertices : List VertexEntry
  objectVersions : List (Hash × TrackerEntry)
  domains : List (Bytes × DomainLeaf)
  signatures : List SigEntry
  totalSupply : UInt64
  coinsTotal : UInt64
  issuanceRateMicro : UInt64
  epochState : Bytes

def snapshotVersion : UInt32 := 16

def collectObjects (src : Db) : List (Bytes × Bytes) :=
  src.iterate.filter fun p => !isConsensusKey p.1 && p.1.length == objectKeySize

/-- The signatures under the `objsig:` keys; malformed entries are skipped. -/
def collectSignatures (src : Db) : List SigEntry :=
  (src.iterate.filter fun p => prefixObjectSig.isPrefixOf p.1).filterMap fun (key, value) =>
    if key.length ≠ prefixObjectSig.length + 32 ∨ value.length ≠ 8 + blsSignatureSize then none
    else some
      { id := toHash (key.drop prefixObjectSig.length), version := uint64BE value,
        sig := value.drop 8 }

def sortObjects (objects : List (Bytes × Bytes)) : List (Bytes × Bytes) :=
  objects.insertionSort fun a b => a.1 ≤ b.1

def sortValidatorInfos (validators : List ValidatorInfo) : List ValidatorInfo :=
  validators.insertionSort fun a b => a.pubkey ≤ b.pubkey

def sortTrackerEntries (entries : List (Hash × TrackerEntry)) : List (Hash × TrackerEntry) :=
  entries.insertionSort fun a b => a.1 ≤ b.1

def sortDomainEntries (entries : List (Bytes × DomainLeaf)) : List (Bytes × DomainLeaf) :=
  entries.insertionSort fun a b => a.1 ≤ b.1

def sortSignatures (sigs : List SigEntry) : List SigEntry :=
  sigs.insertionSort fun a b => a.id ≤ b.id

/-- The digest over a snapshot's content. Tracker entries and signatures are sorted here,
the other lists by the caller. -/
def computeChecksum (cr : Crypto) (version : UInt32) (objects : List (Bytes × Bytes))
    (signatures : List SigEntry) (cut : Cut) : Hash :=
  let trackerEntries := sortTrackerEntries cut.trackerEntries
  let signatures := sortSignatures signatures
  cr.blake3 (putUint32BE version ++ (putUint64BE cut.lastCommittedRound ++
    (lenPrefixed (encodeValidators cut.validators) ++
    (objects.flatMap (fun o => o.1 ++ lenPrefixed o.2) ++
    (countedRecords (fun e : Hash × TrackerEntry => e.1.val ++ (putUint64BE e.2.version ++
      (putUint16BE e.2.replication ++ (putUint64BE e.2.fees ++ (e.2.parentKind :: (e.2.parent.val ++
        putUint32BE e.2.childCount)))))) trackerEntries ++
    (countedRecords (fun e : Bytes × DomainLeaf => lenPrefixed e.1 ++ (e.2.objectID.val ++
      (e.2.owner.val ++ putUint64BE e.2.expiry))) cut.domainEntries ++
    (countedRecords (fun s : SigEntry => s.id.val ++ (putUint64BE s.version ++ s.sig))
      signatures ++
    (putUint64BE cut.totalSupply ++ (putUint64BE cut.coinsTotal ++
      (putUint64BE cut.issuanceRateMicro ++ lenPrefixed cut.epochState))))))))))

/-- The snapshot over some objects and signatures. The digest is taken over the domain
entries as they come; they are sorted afterwards. -/
def buildSnapshot (cr : Crypto) (objects : List (Bytes × Bytes)) (signatures : List SigEntry)
    (cut : Cut) : Snapshot :=
  let objects := sortObjects objects
  let validators := sortValidatorInfos cut.validators
  let signatures := sortSignatures signatures
  { version := snapshotVersion
    lastCommittedRound := cut.lastCommittedRound
    objects
    validators := encodeValidators validators
    checksum := computeChecksum cr snapshotVersion objects signatures { cut with validators }
    vertices := cut.vertices
    objectVersions := sortTrackerEntries cut.trackerEntries
    domains := sortDomainEntries cut.domainEntries
    signatures
    totalSupply := cut.totalSupply
    coinsTotal := cut.coinsTotal
    issuanceRateMicro := cut.issuanceRateMicro
    epochState := cut.epochState }

def createSnapshot (cr : Crypto) (src : Db) (cut : Cut) : Snapshot :=
  buildSnapshot cr (collectObjects src) (collectSignatures src) cut

/-! ## Applying a snapshot -/

inductive ObjectKeyError
  | size (n : Nat)
  | consensusNamespace
  deriving DecidableEq

inductive SnapshotError
  | version (v : UInt32)
  | checksum
  | object (i : Nat) (err : ObjectKeyError)
  deriving DecidableEq

def checkObjectKey (key : Bytes) : Except ObjectKeyError Unit :=
  if key.length ≠ objectKeySize then .error (.size key.length)
  else if isConsensusKey key then .error .consensusNamespace
  else .ok ()

/-- The digest of what a snapshot reads back as is the digest it carries. -/
def verifyChecksum (cr : Crypto) (s : Snapshot) : Bool :=
  computeChecksum cr s.version (sortObjects s.objects)
    (s.signatures.filter fun e => e.sig.length == blsSignatureSize)
    { lastCommittedRound := s.lastCommittedRound
      validators := sortValidatorInfos (decodeValidators s.validators)
      trackerEntries := s.objectVersions
      domainEntries := sortDomainEntries s.domains
      totalSupply := s.totalSupply
      coinsTotal := s.coinsTotal
      issuanceRateMicro := s.issuanceRateMicro
      epochState := s.epochState } = s.checksum

def sigStorageKey (id : Hash) : Bytes := prefixObjectSig ++ id.val

def encodeSigValue (version : UInt64) (sig : Bytes) : Bytes := putUint64BE version ++ sig

/-- The pairs of a snapshot's objects, or the first key it may not write. -/
def objectPairs : List ((Bytes × Bytes) × Nat) → Except SnapshotError (List (Bytes × Bytes))
  | [] => .ok []
  | (o, i) :: rest =>
    match checkObjectKey o.1 with
    | .error err => .error (.object i err)
    | .ok () => (objectPairs rest).map (o :: ·)

/-- Write a snapshot's objects and signatures in one batch. -/
def applySnapshot (cr : Crypto) (db : Db) (s : Snapshot) : Except SnapshotError Db :=
  if s.version ≠ snapshotVersion then .error (.version s.version)
  else if !verifyChecksum cr s then .error .checksum
  else
    match objectPairs s.objects.zipIdx with
    | .error err => .error err
    | .ok pairs =>
      let sigs := (s.signatures.filter fun e => e.sig.length == blsSignatureSize).map fun e =>
        (sigStorageKey e.id, encodeSigValue e.version e.sig)
      .ok (db.setBatch (pairs ++ sigs))

/-- The target store after a snapshot of the source; a refused snapshot leaves it alone. -/
def restoreFrom (cr : Crypto) (source : Db) (cut : Cut) (target : Db) : Db :=
  match applySnapshot cr target (createSnapshot cr source cut) with
  | .ok db => db
  | .error _ => target

/-! ## What is carried -/

theorem mem_collectObjects {src : Db} :
    (key, value) ∈ collectObjects src ↔
      src.get key = some value ∧ isConsensusKey key = false ∧ key.length = objectKeySize := by
  rw [collectObjects, List.mem_filter, Db.mem_iterate]
  simp

/-- Everything collected passes the check on the other side. -/
theorem objectPairs_eq_ok {objects : List (Bytes × Bytes)}
    (h : ∀ o ∈ objects, checkObjectKey o.1 = .ok ()) (n : Nat) :
    objectPairs (objects.zipIdx n) = .ok objects := by
  induction objects generalizing n with
  | nil => rfl
  | cons o objects ih =>
    rw [List.zipIdx_cons, objectPairs, h o List.mem_cons_self,
      ih fun p hp => h p (List.mem_cons_of_mem o hp)]
    rfl

theorem applySnapshot_createSnapshot (target : Db)
    (h : verifyChecksum cr (createSnapshot cr source cut) = true) :
    ∃ sigs : List (Bytes × Bytes), (∀ p ∈ sigs, p.1.length ≠ objectKeySize) ∧
      applySnapshot cr target (createSnapshot cr source cut) =
        .ok (target.setBatch (sortObjects (collectObjects source) ++ sigs)) := by
  have hkeys : ∀ o ∈ sortObjects (collectObjects source), checkObjectKey o.1 = .ok () := by
    intro o ho
    rw [sortObjects, List.mem_insertionSort] at ho
    obtain ⟨-, hkey, hsize⟩ := mem_collectObjects.1 (show (o.1, o.2) ∈ _ from ho)
    rw [checkObjectKey, if_neg (not_not.2 hsize), if_neg (by rw [hkey]; simp)]
  have hversion : ¬ (createSnapshot cr source cut).version ≠ snapshotVersion := fun hne => hne rfl
  have hpairs : objectPairs (createSnapshot cr source cut).objects.zipIdx =
      .ok (sortObjects (collectObjects source)) := objectPairs_eq_ok hkeys 0
  refine ⟨_, ?_, by rw [applySnapshot, if_neg hversion, h, hpairs]; rfl⟩
  intro p hp
  obtain ⟨e, -, rfl⟩ := List.mem_map.1 hp
  have := e.id.property
  simp only [sigStorageKey, List.length_append, this, objectKeySize]
  decide

/-- What an accepted snapshot leaves under an object key. -/
theorem get_restoreFrom (target : Db) (h : verifyChecksum cr (createSnapshot cr source cut) = true)
    (id : Hash) :
    (restoreFrom cr source cut target).get id.val =
      if isConsensusKey id.val then target.get id.val
      else (source.get id.val).or (target.get id.val) := by
  obtain ⟨sigs, hsigs, happly⟩ := applySnapshot_createSnapshot target h
  have hnosig : ∀ p ∈ sigs, p.1 ≠ id.val := by
    intro p hp he
    exact hsigs p hp (by rw [he, id.property]; rfl)
  have hobject : ∀ v, (id.val, v) ∈ sortObjects (collectObjects source) ++ sigs ↔
      (if isConsensusKey id.val then none else source.get id.val) = some v := by
    intro v
    have hnot : (id.val, v) ∉ sigs := fun hp => hnosig _ hp rfl
    rw [List.mem_append, sortObjects, List.mem_insertionSort, mem_collectObjects, id.property]
    cases isConsensusKey id.val <;> simp [hnot, objectKeySize]
  rw [restoreFrom, happly]
  refine (Db.get_setBatch hobject target).trans ?_
  split <;> rfl

theorem restoreFrom_of_refused (target : Db)
    (h : verifyChecksum cr (createSnapshot cr source cut) = false) :
    restoreFrom cr source cut target = target := by
  have hversion : ¬ (createSnapshot cr source cut).version ≠ snapshotVersion := fun hne => hne rfl
  rw [restoreFrom, applySnapshot, if_neg hversion, h]
  rfl

/-! ## Fidelity -/

/-- The state answers an identifier with the bytes stored under it. `record` tells the
32-byte keys that hold a consensus record and no object. -/
def Serves (record : Hash → Prop) (db : Db) (id : Hash) (body : Bytes) : Prop :=
  ¬ record id ∧ db.get id.val = some body

/-- Serving the same objects, key by key. -/
theorem serves_iff {record : Hash → Prop} {db db' : Db} :
    (∀ id body, Serves record db id body ↔ Serves record db' id body) ↔
      ∀ id, ¬ record id → db.get id.val = db'.get id.val := by
  constructor
  · intro h id hid
    apply Option.ext
    intro body
    have := h id body
    simp only [Serves, hid, not_false_iff, true_and] at this
    exact this
  · intro h id body
    constructor
    · rintro ⟨hid, hget⟩
      exact ⟨hid, h id hid ▸ hget⟩
    · rintro ⟨hid, hget⟩
      exact ⟨hid, (h id hid).symm ▸ hget⟩

/-- The target serves the source's objects exactly when the snapshot passes its checksum,
no object it differs in has an identifier that starts like a consensus key, and it holds
no object the source lacks; a refused snapshot needs equal objects to begin with. -/
theorem snapshot_faithful_iff (cr : Crypto) (record : Hash → Prop) (source target : Db)
    (cut : Cut) :
    (∀ id body, Serves record (restoreFrom cr source cut target) id body ↔
        Serves record source id body) ↔
      ∀ id, ¬ record id →
        if verifyChecksum cr (createSnapshot cr source cut) ∧ ¬ isConsensusKey id.val then
          source.get id.val = none → target.get id.val = none
        else target.get id.val = source.get id.val := by
  rw [serves_iff]
  refine forall_congr' fun id => imp_congr_right fun _ => ?_
  cases hchecksum : verifyChecksum cr (createSnapshot cr source cut) with
  | false =>
    rw [restoreFrom_of_refused target hchecksum, if_neg (by simp)]
  | true =>
    rw [get_restoreFrom target hchecksum]
    cases hkey : isConsensusKey id.val with
    | true => simp
    | false => cases hsource : source.get id.val <;> simp

/-- An identifier that starts with `v:`. -/
def vertexLikeID : Hash := ⟨prefixVertex ++ List.replicate 30 0, by decide⟩

def storeOf (pairs : List (Bytes × Bytes)) : Db := Db.setBatch ∅ pairs

/-- An object whose identifier starts with `v:` is lost on the way, and an object of the
target that the source does not have is still served. -/
theorem snapshot_loses_and_keeps :
    verifyChecksum soloCrypto (createSnapshot soloCrypto (storeOf [(vertexLikeID.val, [7])]) {}) ∧
      (storeOf [(vertexLikeID.val, [7])]).get vertexLikeID.val = some [7] ∧
      (restoreFrom soloCrypto (storeOf [(vertexLikeID.val, [7])]) {} (storeOf [])).get
        vertexLikeID.val = none ∧
      (restoreFrom soloCrypto (storeOf []) {} (storeOf [((idOf 9).val, [5])])).get
        (idOf 9).val = some [5] := by
  decide +kernel

end BluePods
