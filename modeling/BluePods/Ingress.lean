import BluePods.Interference

/-! Client ingress. A submitted transaction is checked field by field before it is gossiped;
its references are scanned for repeats, by name where they have one and by identifier
otherwise. The commit path reads the identifier first, so a reference with both is one
thing to ingress and another to commit. -/

namespace BluePods

inductive IngressError
  | hashSize (n : Nat)
  | senderSize (n : Nat)
  | signatureSize (n : Nat)
  | podSize (n : Nat)
  | gasCoinSize (n : Nat)
  | shape (err : ShapeError)
  | noIntent
  | tooManyRefs (n : Nat)
  | duplicateDomain (domain : Bytes)
  | refIDSize (mutable : Bool) (n : Nat)
  | duplicateRef (mutable : Bool) (id : Hash)
  | hashMismatch
  | signature
  deriving DecidableEq

def maxObjectRefs : Nat := 40

def validateFieldSizes (tx : Transaction) : Except IngressError Unit :=
  if tx.hash.length ≠ 32 then .error (.hashSize tx.hash.length)
  else if tx.sender.length ≠ 32 then .error (.senderSize tx.sender.length)
  else if tx.signature.length ≠ 64 then .error (.signatureSize tx.signature.length)
  else if tx.pod.length ≠ 32 then .error (.podSize tx.pod.length)
  else if tx.gasCoin.length ≠ 0 ∧ tx.gasCoin.length ≠ 32 then
    .error (.gasCoinSize tx.gasCoin.length)
  else .ok ()

def validateIntent (tx : Transaction) : Except IngressError Unit :=
  if tx.functionName.length = 0 ∧ tx.operations.length = 0 then .error .noIntent else .ok ()

/-- The identifiers and the names seen so far. -/
structure SeenRefs where
  ids : List Hash := []
  domains : List Bytes := []

/-- A reference with a name counts by the name alone. -/
def checkRefDuplicates (mutable : Bool) : List ObjectRef → SeenRefs → Except IngressError SeenRefs
  | [], seen => .ok seen
  | r :: refs, seen =>
    if r.domain.length > 0 then
      if seen.domains.contains r.domain then .error (.duplicateDomain r.domain)
      else checkRefDuplicates mutable refs { seen with domains := r.domain :: seen.domains }
    else
      r.refID.elim (.error (.refIDSize mutable r.id.length)) fun id =>
        if id ∈ seen.ids then .error (.duplicateRef mutable id)
        else checkRefDuplicates mutable refs { seen with ids := id :: seen.ids }

def validateNoDuplicateRefs (tx : Transaction) : Except IngressError Unit := do
  let seen ← checkRefDuplicates true tx.mutableRefs {}
  let _ ← checkRefDuplicates false tx.readRefs seen

def validateObjectRefs (tx : Transaction) : Except IngressError Unit :=
  if tx.readRefs.length + tx.mutableRefs.length > maxObjectRefs then
    .error (.tooManyRefs (tx.readRefs.length + tx.mutableRefs.length))
  else validateNoDuplicateRefs tx

def validateTx (cr : Crypto) (unsignedTxBytes : UnsignedTx → Bytes) (tx : Transaction) :
    Except IngressError Unit := do
  validateFieldSizes tx
  (validateShape tx).mapError .shape
  validateIntent tx
  validateObjectRefs tx
  if (bodyHash cr unsignedTxBytes tx).val ≠ tx.hash then .error .hashMismatch
  if !cr.ed25519Verify tx.sender tx.hash tx.signature then .error .signature

/-! ## What commit sees -/

/-- The identifiers the version check and the version bump go through. -/
def Transaction.refIDs (tx : Transaction) : List Hash :=
  (tx.readRefs ++ tx.mutableRefs).filterMap ObjectRef.refID

/-- No identifier occurs twice, and no version is raised by more than one. -/
structure RefsOnce (tx : Transaction) : Prop where
  nodup : tx.refIDs.Nodup
  bumpedOnce : ∀ (ot : Tracker) id, (ot.incrementMutableObjects tx).getVersion id =
    ot.getVersion id + if id ∈ tx.mutableRefIDs then 1 else 0

/-- An identifier that occurs twice is never that of a reference with a name. -/
def NamedApart (tx : Transaction) : Prop :=
  (tx.mutableRefs ++ tx.readRefs).Pairwise fun r r' =>
    r.refID ≠ none → r.refID = r'.refID → r.domain = [] ∧ r'.domain = []

theorem refsOnce_iff_nodup {tx : Transaction} : RefsOnce tx ↔ tx.refIDs.Nodup := by
  refine ⟨RefsOnce.nodup, fun h => ⟨h, fun ot id => ?_⟩⟩
  rw [Transaction.refIDs, List.filterMap_append] at h
  have hcount := List.nodup_iff_count_le_one.1 (List.Nodup.of_append_right h) id
  rw [Tracker.getVersion_incrementMutableObjects]
  split
  · rename_i hid
    have : tx.mutableRefIDs.count id = 1 := le_antisymm hcount (List.count_pos_iff.2 hid)
    rw [this]
    rfl
  · rename_i hid
    rw [List.count_eq_zero_of_not_mem hid]
    rfl

/-- The references without a name that a scan accepts have identifiers of their own, also
among those seen before. -/
theorem checkRefDuplicates_ok {mutable : Bool} {refs : List ObjectRef} {seen seen' : SeenRefs}
    (h : checkRefDuplicates mutable refs seen = .ok seen') :
    seen'.ids = ((refs.filter (·.domain.isEmpty)).filterMap ObjectRef.refID).reverse ++ seen.ids ∧
      (seen.ids.Nodup → seen'.ids.Nodup) := by
  induction refs generalizing seen with
  | nil => cases h; simp
  | cons r refs ih =>
    rw [checkRefDuplicates] at h
    split at h
    · rename_i hname
      have hdomain : r.domain.isEmpty = false := by cases hd : r.domain <;> simp_all
      split at h
      · cases h
      · simpa [hdomain] using ih h
    · rename_i hname
      have hdomain : r.domain.isEmpty = true := by cases hd : r.domain <;> simp_all
      cases hid : r.refID with
      | none => simp [hid] at h
      | some id =>
        rw [hid, Option.elim_some] at h
        split at h
        · cases h
        · rename_i hnew
          obtain ⟨hids, hnodup⟩ := ih h
          exact ⟨by simp [hids, hdomain, hid], fun hs => hnodup (List.nodup_cons.2 ⟨hnew, hs⟩)⟩

theorem nodup_of_validateNoDuplicateRefs {tx : Transaction}
    (h : validateNoDuplicateRefs tx = .ok ()) :
    (((tx.mutableRefs ++ tx.readRefs).filter (·.domain.isEmpty)).filterMap
      ObjectRef.refID).Nodup := by
  simp only [validateNoDuplicateRefs, bind, Except.bind] at h
  split at h
  · cases h
  · rename_i seen hmutable
    split at h
    · cases h
    · rename_i hread
      obtain ⟨hids, hnodup⟩ := checkRefDuplicates_ok hmutable
      obtain ⟨hids', hnodup'⟩ := checkRefDuplicates_ok hread
      have hall := hnodup' (hnodup List.nodup_nil)
      rw [hids', hids, List.append_nil, ← List.reverse_append] at hall
      simpa using List.nodup_reverse.1 hall

/-- Where no two references without a name share an identifier, none do exactly when no
reference with a name shares one. -/
theorem nodup_iff_pairwise {refs : List ObjectRef}
    (h : ((refs.filter (·.domain.isEmpty)).filterMap ObjectRef.refID).Nodup) :
    (refs.filterMap ObjectRef.refID).Nodup ↔ refs.Pairwise fun r r' =>
      r.refID ≠ none → r.refID = r'.refID → r.domain = [] ∧ r'.domain = [] := by
  rw [List.Nodup, List.pairwise_filterMap, List.pairwise_filter] at h
  rw [List.Nodup, List.pairwise_filterMap]
  constructor
  · refine List.Pairwise.imp fun hne hsome heq => ?_
    obtain ⟨id, hid⟩ := Option.ne_none_iff_exists'.1 hsome
    exact absurd rfl (hne id hid id (heq ▸ hid))
  · intro hpair
    refine (h.and hpair).imp fun ⟨hne, hapart⟩ id hid id' hid' heq => ?_
    obtain ⟨hd, hd'⟩ := hapart (by simp [hid]) (by rw [hid, hid', heq])
    exact hne (by simp [hd]) (by simp [hd']) id hid id' hid' heq

/-- A transaction that ingress accepts repeats no identifier at commit if and only if none of
its references with a name shares an identifier with another. -/
theorem validateTx_refsOnce_iff (cr : Crypto) (unsignedTxBytes : UnsignedTx → Bytes)
    (tx : Transaction) (h : validateTx cr unsignedTxBytes tx = .ok ()) :
    RefsOnce tx ↔ NamedApart tx := by
  have hrefs : validateNoDuplicateRefs tx = .ok () := by
    have hobjects : validateObjectRefs tx = .ok () := by
      simp only [validateTx, bind, Except.bind] at h
      repeat' split at h
      all_goals simp_all
    unfold validateObjectRefs at hobjects
    split at hobjects
    · cases hobjects
    · exact hobjects
  have hperm : (tx.readRefs ++ tx.mutableRefs).Perm (tx.mutableRefs ++ tx.readRefs) :=
    List.perm_append_comm
  rw [refsOnce_iff_nodup, Transaction.refIDs, (hperm.filterMap _).nodup_iff, NamedApart]
  exact nodup_iff_pairwise (nodup_of_validateNoDuplicateRefs hrefs)

/-- A call of the first user with two named references. -/
def namedCall (id id' : Hash) : Transaction :=
  signedTx
    { sender := (idOf 1).val
      pod := (idOf 7).val
      functionName := ascii "call"
      mutableRefs :=
        [{ id := id.val, domain := ascii "a" }, { id := id'.val, domain := ascii "b" }] }

def soloWire : UnsignedTx → Bytes := (soloNode (podReturning {})).unsignedTxBytes

theorem validateTx_refsOnce_iff_named : RefsOnce (namedCall (idOf 11) (idOf 12)) := by
  refine (validateTx_refsOnce_iff soloCrypto soloWire _ (by decide +kernel)).2 ?_
  unfold NamedApart
  decide +kernel

/-- Two names for one object: ingress accepts the call, and commit raises the version twice. -/
theorem namedCall_bumps_twice :
    let tx := namedCall (idOf 11) (idOf 11)
    validateTx soloCrypto soloWire tx = .ok () ∧ ¬ tx.refIDs.Nodup ∧
      (Tracker.checkAndUpdate ∅ tx).map (·.getVersion (idOf 11)) = some 2 := by
  decide +kernel

end BluePods
