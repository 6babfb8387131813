import BluePods.Round
import BluePods.Signers

/-! What an accepted quorum proof says about the object it is for. A holder signs the
content, the version and the owner of the body it stores under the requested identifier;
the identifier is not part of the message, so a signature given for one object counts for
every other with the same body. -/

namespace BluePods

/-! ## Signing -/

/-- A request for an attestation, and the ledger it finds. -/
structure AttestationRequest where
  ledger : Ledger
  objectID : Hash
  version : UInt64

inductive NegativeReason
  | notFound
  | wrongVersion
  deriving DecidableEq

/-- The current hash with the message the returned signature is over, or a refusal. -/
inductive AttestationResponse
  | positive (hash signed : Hash)
  | negative (reason : NegativeReason)
  deriving DecidableEq

/-- The stored signatures: one per object, with its version and message. -/
abbrev SigStore := AList fun _ : Hash => UInt64 × Hash

/-- Serve the stored signature of this version, else sign as a holder and store it. -/
def signatureForCurrent (isHolder : Hash → UInt16 → Bool) (sigs : SigStore) (id : Hash)
    (version : UInt64) (o : Object) (hash : Hash) : Option (Hash × SigStore) :=
  match (sigs.lookup id).filter (·.1 = version) with
  | some (_, signed) => some (signed, sigs)
  | none =>
    if !isHolder id o.replication then none else some (hash, sigs.insert id (version, hash))

/-- Answer a request: the object is stored, replicated, and at the requested version. -/
def processRequest (cr : Crypto) (isHolder : Hash → UInt16 → Bool) (sigs : SigStore)
    (r : AttestationRequest) : AttestationResponse × SigStore :=
  match r.ledger.getObject r.objectID with
  | none => (.negative .notFound, sigs)
  | some o =>
    if o.replication = 0 then (.negative .notFound, sigs)
    else if o.version ≠ r.version then (.negative .wrongVersion, sigs)
    else
      let hash := computeObjectHash cr o.content r.version o.owner
      match signatureForCurrent isHolder sigs r.objectID r.version o hash with
      | none => (.negative .notFound, sigs)
      | some (signed, sigs) => (.positive hash signed, sigs)

/-- What a node signs over a run of requests: the identifier it was asked for and the
message. -/
def signLog (cr : Crypto) (isHolder : Hash → UInt16 → Bool) :
    SigStore → List AttestationRequest → List (Hash × Hash)
  | _, [] => []
  | sigs, r :: rest =>
    let (response, sigs') := processRequest cr isHolder sigs r
    match response with
    | .positive _ signed => (r.objectID, signed) :: signLog cr isHolder sigs' rest
    | .negative _ => signLog cr isHolder sigs' rest

theorem signatureForCurrent_some {isHolder : Hash → UInt16 → Bool} {sigs sigs' : SigStore}
    {id : Hash} {version : UInt64} {o : Object} {hash signed : Hash}
    (h : signatureForCurrent isHolder sigs id version o hash = some (signed, sigs')) :
    (sigs' = sigs ∧ sigs.lookup id = some (version, signed)) ∨
      (signed = hash ∧ sigs' = sigs.insert id (version, hash)) := by
  unfold signatureForCurrent at h
  split at h
  · rename_i v served hserved
    obtain ⟨hlookup, hv⟩ := Option.filter_eq_some_iff.1 hserved
    simp only [Option.some.injEq, Prod.mk.injEq] at h
    obtain ⟨rfl, rfl⟩ := h
    exact .inl ⟨rfl, by simpa using of_decide_eq_true hv ▸ hlookup⟩
  · split_ifs at h
    simp only [Option.some.injEq, Prod.mk.injEq] at h
    exact .inr ⟨h.1.symm, h.2.symm⟩

section

variable {cr : Crypto} {isHolder : Hash → UInt16 → Bool} {sigs : SigStore} {id : Hash} {o : Object}
  {P : Hash → UInt64 → Hash → Prop}

/-- Every stored signature has the property. -/
def SigStore.Holds (sigs : SigStore) (P : Hash → UInt64 → Hash → Prop) : Prop :=
  ∀ id v m, sigs.lookup id = some (v, m) → P id v m

theorem SigStore.Holds.insert (h : sigs.Holds P) {v : UInt64} {m : Hash} (hnew : P id v m) :
    SigStore.Holds (AList.insert id (v, m) sigs) P := by
  intro id' v' m' hm
  by_cases hid : id' = id
  · subst hid
    rw [AList.lookup_insert] at hm
    cases hm
    exact hnew
  · rw [AList.lookup_insert_ne hid] at hm
    exact h id' v' m' hm

/-- One request signs a body it finds, or serves a stored signature, and stores nothing
else. -/
theorem processRequest_spec {r : AttestationRequest} (h : sigs.Holds P)
    (hbody : ∀ o, r.ledger.getObject r.objectID = some o → o.replication ≠ 0 →
      P r.objectID o.version (computeObjectHash cr o.content o.version o.owner)) :
    (∀ hash signed, (processRequest cr isHolder sigs r).1 = .positive hash signed →
        P r.objectID r.version hash ∧ P r.objectID r.version signed) ∧
      (processRequest cr isHolder sigs r).2.Holds P := by
  unfold processRequest
  cases ho : r.ledger.getObject r.objectID with
  | none => exact ⟨by simp, h⟩
  | some o =>
    simp only
    split_ifs with hrep hver
    · exact ⟨by simp, h⟩
    · exact ⟨by simp, h⟩
    · rw [← not_not.1 hver]
      have hstored := hbody o ho hrep
      split
      · exact ⟨by simp, h⟩
      · rename_i signed sigs' hsig
        rcases signatureForCurrent_some hsig with ⟨rfl, hlookup⟩ | ⟨rfl, rfl⟩
        · refine ⟨fun hash signed' heq => ?_, h⟩
          obtain ⟨rfl, rfl⟩ := AttestationResponse.positive.inj heq
          exact ⟨hstored, h _ _ _ hlookup⟩
        · refine ⟨fun hash signed' heq => ?_, h.insert hstored⟩
          obtain ⟨rfl, rfl⟩ := AttestationResponse.positive.inj heq
          exact ⟨hstored, hstored⟩

/-! ## Signing as the objects are written -/

/-- Attest a replicated object this node holds, as it is written. -/
def eagerlySign (cr : Crypto) (isHolder : Hash → UInt16 → Bool) (sigs : SigStore) (id : Hash)
    (o : Object) : SigStore :=
  if o.replication = 0 then sigs
  else if !isHolder id o.replication then sigs
  else sigs.insert id (o.version, computeObjectHash cr o.content o.version o.owner)

/-- What happens at a holder: a write of execution or commit, or a request. Raised versions
and stake positions are plain writes. -/
inductive HolderEvent
  | update (o : Object)
  | create (tx : Transaction) (o : Object) (i : Nat)
  | reparent (op : DeclaredOp)
  | credit (coinID : Hash) (amount : UInt64)
  | debit (coinID : Hash) (fee : UInt64)
  | write (o : Object)
  | delete (id : Hash)
  | request (objectID : Hash) (version : UInt64)

structure Holder where
  ledger : Ledger
  sigs : SigStore := ∅

namespace Holder

/-- The answer to a request, and the holder after the event. Only execution signs what it
writes. -/
def step (nd : Node) (s : Holder) : HolderEvent → Option AttestationResponse × Holder
  | .update o =>
    let o := { o.rebuilt with version := o.version + 1 }
    (none, ⟨s.ledger.setObject o, eagerlySign nd.crypto nd.isHolder s.sigs o.objectID o⟩)
  | .create tx o i =>
    let id := computeObjectID nd.crypto (hashOrZero tx.hash) i
    (none, ⟨.applyCreatedObject nd tx s.ledger (o, i),
      eagerlySign nd.crypto nd.isHolder s.sigs id o⟩)
  | .reparent op => (none, { s with ledger := s.ledger.applyReparent op })
  | .credit coinID amount =>
    (none, { s with ledger := (s.ledger.creditCoin coinID amount).toOption.getD s.ledger })
  | .debit coinID fee =>
    (none, { s with ledger := (s.ledger.deductCoinFee coinID fee).toOption.elim s.ledger (·.1) })
  | .write o => (none, { s with ledger := s.ledger.setObject o })
  | .delete id => (none, { s with ledger := s.ledger.deleteObject id })
  | .request objectID version =>
    let (response, sigs) :=
      processRequest nd.crypto nd.isHolder s.sigs ⟨s.ledger, objectID, version⟩
    (some response, { s with sigs })

def trace (nd : Node) : Holder → List HolderEvent → List (Option AttestationResponse × Holder)
  | _, [] => []
  | s, e :: rest => s.step nd e :: trace nd (s.step nd e).2 rest

end Holder

/-- Identifier and version tell the message of every replicated body. -/
def Ledger.Says (cr : Crypto) (message : Hash → UInt64 → Hash) (st : Ledger) : Prop :=
  ∀ id o, st.getObject id = some o → o.replication ≠ 0 →
    computeObjectHash cr o.content o.version o.owner = message id o.version

theorem eagerlySign_holds (h : sigs.Holds P)
    (hbody : o.replication ≠ 0 → isHolder id o.replication = true →
      P id o.version (computeObjectHash cr o.content o.version o.owner)) :
    (eagerlySign cr isHolder sigs id o).Holds P := by
  unfold eagerlySign
  split_ifs with hrep hheld
  · exact h
  · exact h
  · exact h.insert (hbody hrep (by simpa using hheld))

end

namespace Holder

theorem step_holds {nd : Node} {message : Hash → UInt64 → Hash} {s : Holder}
    (h : s.sigs.Holds fun id v m => m = message id v) (e : HolderEvent)
    (hmsg : (s.step nd e).2.ledger.Says nd.crypto message) :
    (∀ hash signed, (s.step nd e).1 = some (.positive hash signed) → signed = hash) ∧
      (s.step nd e).2.sigs.Holds fun id v m => m = message id v := by
  cases e with
  | update o =>
    refine ⟨nofun, eagerlySign_holds h fun hrep _ => hmsg _ _ ?_ hrep⟩
    exact (s.ledger.objects.get_set _ _).trans (if_pos rfl)
  | create tx o i =>
    refine ⟨nofun, eagerlySign_holds h fun hrep hheld => ?_⟩
    unfold step Ledger.applyCreatedObject at hmsg
    dsimp only at hmsg
    rw [if_pos hheld] at hmsg
    have hstored := hmsg _ _
      ((ObjectStore.get_set _ _ _).trans (if_pos (hashOrZero_val _).symm)) hrep
    exact hstored
  | reparent | credit | debit | write | delete => exact ⟨nofun, h⟩
  | request objectID version =>
    obtain ⟨hserved, hsigs⟩ := @processRequest_spec _ nd.isHolder _ _
      ⟨s.ledger, objectID, version⟩ h fun o => hmsg objectID o
    refine ⟨fun hash signed heq => ?_, hsigs⟩
    obtain ⟨hhash, hsigned⟩ := hserved hash signed (Option.some.inj heq)
    rw [hsigned, hhash]

/-- Over any run of writes and requests a served signature is for the served hash, if in
all of it no two replicated bodies of an object with one version differ in content or
owner. -/
theorem served_signature_matches (nd : Node) (message : Hash → UInt64 → Hash) (s : Holder)
    (hsigs : s.sigs.Holds fun id v m => m = message id v) (events : List HolderEvent)
    (hmsg : ∀ x ∈ trace nd s events, x.2.ledger.Says nd.crypto message) :
    ∀ x ∈ trace nd s events, ∀ hash signed,
      x.1 = some (.positive hash signed) → signed = hash := by
  induction events generalizing s with
  | nil => simp [trace]
  | cons e rest ih =>
    simp only [trace, List.forall_mem_cons] at hmsg ⊢
    obtain ⟨hserved, hkept⟩ := step_holds hsigs e hmsg.1
    exact ⟨hserved, ih _ hkept hmsg.2⟩

/-- A replicated coin. -/
def sharedCoin (version : UInt64) : Object :=
  { coinObject (idOf 31) (idOf 1) 5 with version, replication := 1 }

/-- An update is signed as it is written and served for its own hash. -/
theorem served_signature_matches_update :
    let nd := soloNode (podReturning {})
    ∀ x ∈ trace nd { ledger := { validators := soloValidators } }
      [.update (sharedCoin 0), .request (idOf 31) 1],
      ∀ hash signed, x.1 = some (.positive hash signed) → signed = hash := by
  intro nd
  let message (_ : Hash) (_ : UInt64) := computeObjectHash soloCrypto (putUint64LE 5) 1 (idOf 1).val
  refine served_signature_matches nd message _ (by simp [SigStore.Holds]) _ ?_
  have hmsg : Ledger.Says nd.crypto message
      ({ validators := soloValidators : Ledger }.setObject (sharedCoin 1)) := by
    intro id o ho _
    rw [Ledger.getObject, Ledger.setObject, ObjectStore.get_set] at ho
    split at ho
    · cases ho
      rfl
    · cases ho
  simp only [trace, List.forall_mem_cons]
  exact ⟨hmsg, hmsg, nofun⟩

/-- A reward credited between two requests changes the body and not its version: the second
answer has the hash of the new body and the signature of the old one. -/
theorem credited_coin_served_stale :
    let message (balance : UInt64) :=
      computeObjectHash soloCrypto (putUint64LE balance) 0 (idOf 1).val
    (trace (soloNode (podReturning {})) { ledger := soloLedger.setObject (sharedCoin 0) }
        [.request (idOf 31) 0, .credit (idOf 31) 1, .request (idOf 31) 0]).map (·.1) =
        [some (.positive (message 5) (message 5)), none, some (.positive (message 6) (message 5))] ∧
      message 6 ≠ message 5 := by
  decide +kernel

end Holder

/-! ## Holders and adversaries -/

/-- A validator set and the requests each of its nodes answered. -/
structure Attestors where
  crypto : Crypto
  validators : ValidatorSet
  isHolder : Hash → Hash → UInt16 → Bool
  requests : Hash → List AttestationRequest

namespace Attestors

variable (w : Attestors) (byzantine : Hash → Bool)

def log (v : Hash) : List (Hash × Hash) := signLog w.crypto (w.isHolder v) ∅ (w.requests v)

/-- The node signed the message for some object. -/
def signed (v m : Hash) : Bool := (w.log v).any (·.2 = m)

def messageOf (o : Object) : Hash := computeObjectHash w.crypto o.content o.version o.owner

/-- The node signed the message when asked for `b`, and then stored this very body there:
no other split of the bytes under the hash. -/
def signedBody (b : Hash) (o : Object) (v : Hash) : Bool :=
  (w.log v).contains (b, w.messageOf o) && (w.requests v).any fun r =>
    r.objectID = b && (r.ledger.getObject b).any fun stored =>
      stored.replication ≠ 0 && stored.content = o.content && stored.version = o.version &&
        stored.owner = o.owner

/-- A byzantine node, or one that signed the message for some object. -/
def backs (v m : Hash) : Bool := byzantine v || w.signed v m

/-- Aggregated signatures are those of the nodes: an honest member of a verifying group
signed the message, and a group whose members signed it, or are byzantine, can verify. -/
structure BLSSound (verify : Bytes → Bytes → List Bytes → Bool) : Prop where
  unforgeable : ∀ sig (m : Hash) (signers : List (Hash × BLSKey)),
    (∀ s ∈ signers, keyedHolder w.validators s.1 = some s) →
    verify sig m.val (signers.map fun s => s.2.val) = true →
    ∀ s ∈ signers, byzantine s.1 = false → w.signed s.1 m = true
  complete : ∀ (m : Hash) (signers : List (Hash × BLSKey)), signers ≠ [] →
    (∀ s ∈ signers, keyedHolder w.validators s.1 = some s) →
    (∀ s ∈ signers, w.backs byzantine s.1 m = true) →
    ∃ sig : Bytes, sig.length = 96 ∧ verify sig m.val (signers.map fun s => s.2.val) = true

/-- No two nodes have one key. -/
def OwnKeys : Prop :=
  ∀ s s', keyedHolder w.validators s.1 = some s → keyedHolder w.validators s'.1 = some s' →
    s.2 = s'.2 → s = s'

/-- How many keyed holders of a list meet a condition. -/
def support (holders : List Hash) (p : Hash → Bool) : Nat :=
  (keyedHolders w.validators holders).countP fun s => p s.1

def holdersOf (b : Hash) (o : Object) : List Hash :=
  computeHolders w.crypto w.validators b o.replication.toNat

variable {w byzantine} {verify : Bytes → Bytes → List Bytes → Bool}

theorem support_mono {holders : List Hash} {p q : Hash → Bool}
    (h : ∀ s ∈ keyedHolders w.validators holders, p s.1 = true → q s.1 = true) :
    w.support holders p ≤ w.support holders q :=
  List.countP_mono_left h

theorem keyedHolder_of_mem {holders : List Hash} {s : Hash × BLSKey}
    (h : s ∈ keyedHolders w.validators holders) : keyedHolder w.validators s.1 = some s := by
  obtain ⟨holder, -, hkey⟩ := List.mem_filterMap.1 h
  rw [(keyedHolder_eq_some hkey).1, hkey]

theorem BLSSound.length_le_support (hbls : w.BLSSound byzantine verify) {bitmap sig : Bytes}
    {holders : List Hash} {m : Hash} (hnodup : holders.Nodup)
    (h : verify sig m.val (extractSignerBLSKeys bitmap holders w.validators) = true) :
    (bitmapSigners bitmap holders w.validators).length ≤
      w.support holders fun v => w.backs byzantine v m := by
  rw [support, List.countP_eq_length_filter]
  refine (List.subperm_of_subset (nodup_bitmapSigners hnodup) fun s hs => ?_).length_le
  refine List.mem_filter.2 ⟨bitmapSigners_subset hs, ?_⟩
  cases hbyz : byzantine s.1 with
  | true => simp [backs, hbyz]
  | false =>
    have hkeyed : ∀ s ∈ bitmapSigners bitmap holders w.validators,
        keyedHolder w.validators s.1 = some s := fun s hs =>
      keyedHolder_of_mem (bitmapSigners_subset hs)
    simp [backs, hbls.unforgeable sig m _ hkeyed h s hs hbyz]

theorem BLSSound.exists_signature (hbls : w.BLSSound byzantine verify) {holders : List Hash}
    {m : Hash} (hnodup : holders.Nodup)
    (h : 0 < w.support holders fun v => w.backs byzantine v m) :
    ∃ bitmap sig : Bytes, sig.length = 96 ∧
      (w.support holders fun v => w.backs byzantine v m) ≤
        (bitmapSigners bitmap holders w.validators).length ∧
      verify sig m.val (extractSignerBLSKeys bitmap holders w.validators) = true := by
  obtain ⟨bitmap, hmem⟩ :=
    exists_bitmapSigners holders w.validators fun s => w.backs byzantine s.1 m
  have hle : (w.support holders fun v => w.backs byzantine v m) ≤
      (bitmapSigners bitmap holders w.validators).length := by
    rw [support, List.countP_eq_length_filter]
    refine (List.subperm_of_subset ((nodup_keyedHolders _ hnodup).filter _)
      fun s hs => ?_).length_le
    exact (hmem s).2 (List.mem_filter.1 hs)
  have hne : bitmapSigners bitmap holders w.validators ≠ [] :=
    List.ne_nil_of_length_pos (Nat.lt_of_lt_of_le h hle)
  obtain ⟨sig, hlen, hverify⟩ := hbls.complete m _ hne
    (fun s hs => keyedHolder_of_mem ((hmem s).1 hs).1) (fun s hs => ((hmem s).1 hs).2)
  exact ⟨bitmap, sig, hlen, hle, hverify⟩

/-- Nodes with keys of their own have a sound scheme, whoever is byzantine: a group
verifies if every key is that of a node that backs the message. -/
theorem OwnKeys.exists_blsSound (hkeys : w.OwnKeys) (byzantine : Hash → Bool) :
    ∃ verify, w.BLSSound byzantine verify := by
  classical
  refine ⟨fun _ m keys => decide (∀ key ∈ keys, ∃ s, keyedHolder w.validators s.1 = some s ∧
    s.2.val = key ∧ w.backs byzantine s.1 (toHash m) = true), ⟨?_, ?_⟩⟩
  · intro sig m signers hkeyed hverify s hs hhonest
    obtain ⟨s', hs', hkey, hbacks⟩ := of_decide_eq_true hverify s.2.val (List.mem_map_of_mem hs)
    obtain rfl := hkeys s' s hs' (hkeyed s hs) (Subtype.ext hkey)
    simpa [backs, hhonest, toHash_val] using hbacks
  · intro m signers _ hkeyed hbacks
    refine ⟨List.replicate 96 0, by simp, decide_eq_true fun key hkey => ?_⟩
    obtain ⟨s, hs, rfl⟩ := List.mem_map.1 hkey
    exact ⟨s, hkeyed s hs, rfl, by rw [toHash_val]; exact hbacks s hs⟩

theorem support_eq_card {holders : List Hash} (hnodup : holders.Nodup) (p : Hash → Bool) :
    w.support holders p =
      ((keyedHolders w.validators holders).filter fun s => p s.1).toFinset.card := by
  rw [List.toFinset_card_of_nodup ((nodup_keyedHolders w.validators hnodup).filter _), support,
    List.countP_eq_length_filter]

/-- A keyed holder is told by its node. -/
theorem eq_of_keyedHolders {holders : List Hash} {s s' : Hash × BLSKey}
    (hs : s ∈ keyedHolders w.validators holders) (hs' : s' ∈ keyedHolders w.validators holders)
    (heq : s.1 = s'.1) : s = s' := by
  have h := keyedHolder_of_mem hs
  rw [heq, keyedHolder_of_mem hs'] at h
  exact (Option.some.inj h).symm

/-- A stranger among the holders, one that does not meet the condition, leaves room for a
byzantine set that together with those that meet it is one short of the quorum. -/
theorem exists_byzantine {holders : List Hash} {p : Hash → Bool} {stranger : Hash × BLSKey}
    {quorum : Nat} (hnodup : holders.Nodup)
    (hmem : stranger ∈ keyedHolders w.validators holders) (hstranger : p stranger.1 = false)
    (hfew : w.support holders p < quorum)
    (hmany : quorum ≤ (keyedHolders w.validators holders).length) :
    ∃ byzantine : Hash → Bool, w.support holders (fun v => byzantine v || p v) < quorum ∧
      quorum ≤ w.support holders fun v => byzantine v || decide (v = stranger.1) := by
  classical
  have hK := nodup_keyedHolders w.validators hnodup
  have hcount := @support_eq_card w holders hnodup
  set K := keyedHolders w.validators holders with hKdef
  obtain ⟨Z, hsub, hsup, hcard⟩ : ∃ Z, (K.filter fun s => p s.1).toFinset ⊆ Z ∧
      Z ⊆ K.toFinset.erase stranger ∧ Z.card = quorum - 1 := by
    refine Finset.exists_subsuperset_card_eq ?_ (by rw [← hcount]; omega) ?_
    · intro s hs
      obtain ⟨hsK, hp⟩ := List.mem_filter.1 (List.mem_toFinset.1 hs)
      refine Finset.mem_erase.2 ⟨?_, List.mem_toFinset.2 hsK⟩
      rintro rfl
      simp [hstranger] at hp
    · rw [Finset.card_erase_of_mem (List.mem_toFinset.2 hmem), List.toFinset_card_of_nodup hK]
      omega
  have hZK : ∀ s ∈ Z, s ∈ K ∧ s ≠ stranger := fun s hs => by
    obtain ⟨hne, hs⟩ := Finset.mem_erase.1 (hsup hs)
    exact ⟨List.mem_toFinset.1 hs, hne⟩
  refine ⟨fun v => decide (v ∈ Z.image Prod.fst), ?_, ?_⟩
  · rw [hcount]
    refine Nat.lt_of_le_of_lt (Finset.card_le_card fun s hs => ?_) (by omega : Z.card < quorum)
    obtain ⟨hsK, hs⟩ := List.mem_filter.1 (List.mem_toFinset.1 hs)
    rcases Bool.or_eq_true_iff.1 hs with hbyz | hp
    · obtain ⟨z, hz, heq⟩ := Finset.mem_image.1 (of_decide_eq_true hbyz)
      rwa [← eq_of_keyedHolders (hZK z hz).1 hsK heq]
    · exact hsub (List.mem_toFinset.2 (List.mem_filter.2 ⟨hsK, hp⟩))
  · rw [hcount]
    have hfull : (insert stranger Z).card = quorum := by
      rw [Finset.card_insert_of_notMem fun h => (hZK _ h).2 rfl, hcard]
      omega
    rw [← hfull]
    refine Finset.card_le_card fun s hs => ?_
    rw [List.mem_toFinset, List.mem_filter]
    rcases Finset.mem_insert.1 hs with rfl | hs
    · exact ⟨hmem, by simp⟩
    · exact ⟨(hZK s hs).1, by simp [Finset.mem_image_of_mem Prod.fst hs]⟩

/-- A quorum of backers has a proof that passes. -/
theorem BLSSound.exists_proof {b : Hash} {o : Object} (hbls : w.BLSSound byzantine verify)
    (hid : o.id = b.val) (hpos : 0 < quorumSize (w.holdersOf b o).length)
    (hquorum : quorumSize (w.holdersOf b o).length ≤
      w.support (w.holdersOf b o) fun v => w.backs byzantine v (w.messageOf o)) :
    ∃ atx proof, proof.objectID = b.val ∧
      (findATXObjectIndex atx proof.objectID).bind (atx.objects[·]?) = some o ∧
      ProofPasses { w.crypto with blsVerifyAggregated := verify } atx w.validators proof 0 := by
  have hnodup : (w.holdersOf b o).Nodup := nodup_computeHolders ..
  obtain ⟨bitmap, sig, hlen, hle, hverify⟩ :=
    hbls.exists_signature (m := w.messageOf o) hnodup (by omega)
  let proof : QuorumProof := { objectID := b.val, blsSignature := sig, signerBitmap := bitmap }
  let atx : AttestedTransaction := { transaction := none, objects := [o], proofs := [proof] }
  have hentry : (findATXObjectIndex atx proof.objectID).bind (atx.objects[·]?) = some o := by
    simp [atx, proof, findATXObjectIndex, hid]
  have hsigners : (bitmapSigners bitmap (w.holdersOf b o) w.validators).length ≠ 0 := by omega
  refine ⟨atx, proof, rfl, hentry, (proofPasses_iff hentry).2 ?_⟩
  simp only [proof, toHash_val, extractSignerBLSKeys, List.length_map]
  exact ⟨hsigners, hquorum.trans hle, hlen, hverify⟩

end Attestors

/-- Whoever is byzantine, every proof accepted for `b` with this body stands for a quorum
of holders of `b` that are byzantine or stored the body under `b` and signed it for `b`,
exactly when no holder signed the message for another object or another body alone, or a
quorum signed it for `b`, or `b` has too few keyed holders for any proof. -/
theorem proofs_bind_object_iff (w : Attestors) (hkeys : w.OwnKeys) (b : Hash) (o : Object)
    (hid : o.id = b.val) :
    (∀ byzantine verify, w.BLSSound byzantine verify → ∀ atx proof k, proof.objectID = b.val →
        (findATXObjectIndex atx proof.objectID).bind (atx.objects[·]?) = some o →
        ProofPasses { w.crypto with blsVerifyAggregated := verify } atx w.validators proof k →
        quorumSize (w.holdersOf b o).length ≤
          w.support (w.holdersOf b o) fun v => byzantine v || w.signedBody b o v) ↔
      (∀ s ∈ keyedHolders w.validators (w.holdersOf b o),
          w.signed s.1 (w.messageOf o) = true → w.signedBody b o s.1 = true) ∨
        quorumSize (w.holdersOf b o).length ≤ w.support (w.holdersOf b o) (w.signedBody b o) ∨
        (keyedHolders w.validators (w.holdersOf b o)).length <
          quorumSize (w.holdersOf b o).length := by
  have hnodup : (w.holdersOf b o).Nodup := nodup_computeHolders ..
  constructor
  · intro hbinds
    by_contra hno
    simp only [not_or, not_forall, Nat.not_le, Nat.not_lt, exists_prop, Bool.not_eq_true] at hno
    obtain ⟨⟨s, hs, hsigned, hstranger⟩, hfew, hmany⟩ := hno
    obtain ⟨byzantine, hshort, henough⟩ :=
      Attestors.exists_byzantine hnodup hs hstranger hfew hmany
    obtain ⟨verify, hbls⟩ := hkeys.exists_blsSound byzantine
    have hquorum : quorumSize (w.holdersOf b o).length ≤
        w.support (w.holdersOf b o) fun v => w.backs byzantine v (w.messageOf o) := by
      refine henough.trans (Attestors.support_mono fun t _ ht => ?_)
      rcases Bool.or_eq_true_iff.1 ht with hbyz | heq
      · simp [Attestors.backs, hbyz]
      · simp [Attestors.backs, of_decide_eq_true heq, hsigned]
    obtain ⟨atx, proof, hproof, hentry, hpass⟩ := hbls.exists_proof hid (by omega) hquorum
    have hbound := hbinds byzantine verify hbls atx proof 0 hproof hentry hpass
    omega
  · intro hcond byzantine verify hbls atx proof k hproof hentry hpass
    obtain ⟨-, hquorum, -, hverify⟩ := (proofPasses_iff hentry).1 hpass
    rw [hproof, toHash_val] at hquorum hverify
    rw [extractSignerBLSKeys, List.length_map] at hquorum
    rcases hcond with hown | hself | hshort
    · refine (hquorum.trans (hbls.length_le_support hnodup hverify)).trans
        (Attestors.support_mono fun s hs hbacks => ?_)
      rcases Bool.or_eq_true_iff.1 hbacks with hbyz | hsigned
      · simp [hbyz]
      · simp [hown s hs hsigned]
    · exact hself.trans (Attestors.support_mono fun s _ hs => by simp [hs])
    · have hsub : bitmapSigners proof.signerBitmap (w.holdersOf b o) w.validators ⊆ _ :=
        bitmapSigners_subset
      have hle := (List.subperm_of_subset (nodup_bitmapSigners hnodup) hsub).length_le
      exact absurd (hquorum.trans hle) (Nat.not_le.2 hshort)

/-! ## One body under two identifiers -/

/-- A replicated body under an identifier. -/
def twinObject (id : Hash) : Object where
  id := id.val
  version := 0
  owner := (idOf 1).val
  replication := 1
  content := [5]

def twinMessage : Hash := computeObjectHash soloCrypto [5] 0 (idOf 1).val

/-- The one validator stores the first twin, and was asked for it once. -/
def twinAttestors : Attestors where
  crypto := soloCrypto
  validators := soloValidators
  isHolder _ _ _ := true
  requests v :=
    if v = idOf 1 then
      [{ ledger := soloLedger.setObject (twinObject (idOf 21)), objectID := idOf 21, version := 0 }]
    else []

theorem twinAttestors_log : twinAttestors.log (idOf 1) = [(idOf 21, twinMessage)] := by
  decide +kernel

theorem twinAttestors_signed {m : Hash} :
    twinAttestors.signed (idOf 1) m = true ↔ m = twinMessage := by
  simp [Attestors.signed, twinAttestors_log, eq_comm]

theorem twinAttestors_keyed {s : Hash × BLSKey}
    (h : keyedHolder twinAttestors.validators s.1 = some s) : s = (idOf 1, soloBLSKey) := by
  obtain ⟨-, info, hinfo, hkey⟩ := keyedHolder_eq_some h
  simp only [twinAttestors, soloValidators, ValidatorSet.get, List.find?_cons,
    List.find?_nil] at hinfo
  split at hinfo
  · rename_i hpub
    obtain rfl := Option.some.inj hinfo
    exact Prod.ext (by simpa using (of_decide_eq_true hpub).symm) hkey.symm
  · simp at hinfo

/-- A signature verifies for that validator and that message alone. -/
def twinVerify (_ m : Bytes) (keys : List Bytes) : Bool :=
  keys.all fun key => key == soloBLSKey.val && m == twinMessage.val

theorem twinAttestors_blsSound : twinAttestors.BLSSound (fun _ => false) twinVerify := by
  constructor
  · intro sig m signers hkeyed hverify s hs _
    have hall := List.all_eq_true.1 hverify s.2.val (List.mem_map_of_mem hs)
    obtain rfl := twinAttestors_keyed (hkeyed s hs)
    rw [Bool.and_eq_true, beq_iff_eq, beq_iff_eq] at hall
    exact twinAttestors_signed.2 (Subtype.ext hall.2)
  · intro m signers hne hkeyed hbacks
    obtain ⟨s, hs⟩ := List.exists_mem_of_ne_nil signers hne
    have hbacked := hbacks s hs
    obtain rfl := twinAttestors_keyed (hkeyed s hs)
    rw [Attestors.backs, Bool.false_or] at hbacked
    obtain rfl := twinAttestors_signed.1 hbacked
    refine ⟨List.replicate 96 0, by simp, List.all_eq_true.2 fun key hkey => ?_⟩
    obtain ⟨t, ht, rfl⟩ := List.mem_map.1 hkey
    obtain rfl := twinAttestors_keyed (hkeyed t ht)
    simp

/-- The validator's signature presented for the second twin. -/
def twinProof : QuorumProof where
  objectID := (idOf 22).val
  blsSignature := List.replicate 96 0
  signerBitmap := [1]

def twinWrapper : AttestedTransaction where
  transaction := none
  objects := [twinObject (idOf 22)]
  proofs := [twinProof]

/-- For the twin that is stored every accepted proof stands for a quorum of its own. -/
theorem proofs_bind_object_iff_stored :
    twinAttestors.OwnKeys ∧ ∀ byzantine verify, twinAttestors.BLSSound byzantine verify →
      ∀ atx proof k, proof.objectID = (idOf 21).val →
        (findATXObjectIndex atx proof.objectID).bind (atx.objects[·]?) =
          some (twinObject (idOf 21)) →
        ProofPasses { soloCrypto with blsVerifyAggregated := verify } atx soloValidators proof k →
        quorumSize (twinAttestors.holdersOf (idOf 21) (twinObject (idOf 21))).length ≤
          twinAttestors.support (twinAttestors.holdersOf (idOf 21) (twinObject (idOf 21)))
            fun v => byzantine v ||
              twinAttestors.signedBody (idOf 21) (twinObject (idOf 21)) v :=
  have hkeys : twinAttestors.OwnKeys := fun _ _ hs hs' _ =>
    (twinAttestors_keyed hs).trans (twinAttestors_keyed hs').symm
  ⟨hkeys, (proofs_bind_object_iff twinAttestors hkeys (idOf 21) (twinObject (idOf 21)) rfl).2
    (.inl (by decide +kernel))⟩

/-- The signature for the first twin is accepted for the second, which no validator ever
stored or signed. -/
theorem twin_proof_accepted :
    twinAttestors.BLSSound (fun _ => false) twinVerify ∧
      ProofPasses { soloCrypto with blsVerifyAggregated := twinVerify } twinWrapper
        soloValidators twinProof 0 ∧
      twinAttestors.signedBody (idOf 22) (twinObject (idOf 22)) (idOf 1) = false ∧
      ¬ quorumSize (twinAttestors.holdersOf (idOf 22) (twinObject (idOf 22))).length ≤
        twinAttestors.support (twinAttestors.holdersOf (idOf 22) (twinObject (idOf 22)))
          (twinAttestors.signedBody (idOf 22) (twinObject (idOf 22))) :=
  ⟨twinAttestors_blsSound, (proofPasses_iff (o := twinObject (idOf 22)) (by decide +kernel)).2
    (by decide +kernel), by decide +kernel, by decide +kernel⟩

end BluePods
