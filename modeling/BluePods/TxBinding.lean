import BluePods.Commit

/-! What the signed hash of a transaction binds. The canonical body replaces a pod or an
identifier of another length than 32 bytes by zero, and commit reads the bytes as they
are, so whoever relays a transaction with a zero, absent or malformed one can put another
in its place. -/

namespace BluePods

namespace Transaction

/-- The fields commit reads once a transaction is authentic: all but its hash and its two
signatures. -/
def reads (tx : Transaction) : Transaction :=
  { tx with hash := [], signature := [], sponsorSignature := [] }

/-- The pod and every referenced object are given by 32 bytes that are not all zero. -/
structure Pinned (tx : Transaction) : Prop where
  pod : ∃ pod : Hash, pod ≠ zeroHash ∧ tx.pod = pod.val
  refs : ∀ r ∈ tx.mutableRefs ++ tx.readRefs, ∃ id : Hash, id ≠ zeroHash ∧ r.id = id.val

end Transaction

/-! ## What the body determines -/

theorem hashOrZero_inj {h : Hash} {b : Bytes} (hne : h ≠ zeroHash)
    (heq : hashOrZero h.val = hashOrZero b) : b = h.val := by
  rw [hashOrZero_val] at heq
  unfold hashOrZero at heq
  cases hb : hash32 b with
  | none =>
    rw [hb] at heq
    exact absurd heq hne
  | some h' =>
    rw [hb] at heq
    rw [hash32_eq_some.1 hb, heq]
    rfl

theorem extractTxRefData_inj {r r' : ObjectRef} {id : Hash} (hne : id ≠ zeroHash)
    (hid : r.id = id.val) (h : extractTxRefData r = extractTxRefData r') : r' = r := by
  obtain ⟨hI, hV, hD⟩ := ObjectRefData.mk.inj h
  rw [hid] at hI
  have hid' : r'.id = r.id := (hashOrZero_inj hne hI).trans hid.symm
  cases r
  cases r'
  simp_all

theorem map_extractTxRefData_inj {l l' : List ObjectRef}
    (hl : ∀ r ∈ l, ∃ id : Hash, id ≠ zeroHash ∧ r.id = id.val)
    (h : l.map extractTxRefData = l'.map extractTxRefData) : l' = l := by
  induction l generalizing l' with
  | nil => exact List.map_eq_nil_iff.1 h.symm
  | cons r rest ih =>
    cases l' with
    | nil => cases h
    | cons r' rest' =>
      rw [List.map_cons, List.map_cons] at h
      obtain ⟨hhead, htail⟩ := List.cons.inj h
      obtain ⟨id, hne, hid⟩ := hl r List.mem_cons_self
      rw [extractTxRefData_inj hne hid hhead,
        ih (fun x hx => hl x (List.mem_cons_of_mem _ hx)) htail]

/-- The body of a pinned transaction determines everything commit reads. -/
theorem Transaction.Pinned.reads_eq {tx tx' : Transaction} (hp : tx.Pinned)
    (h : rebuildUnsignedTx tx = rebuildUnsignedTx tx') : tx.reads = tx'.reads := by
  obtain ⟨hsender, hpod, hfn, hargs, hreps, hgas, hcoin, hmut, hread, hpayer, huntil, hdel, hops⟩ :=
    UnsignedTx.mk.inj h
  obtain ⟨pod, hne, hpodval⟩ := hp.pod
  rw [hpodval] at hpod
  have hpod' : tx'.pod = tx.pod := (hashOrZero_inj hne hpod).trans hpodval.symm
  have hmut' := map_extractTxRefData_inj
    (fun r hr => hp.refs r (List.mem_append_left _ hr)) hmut
  have hread' := map_extractTxRefData_inj
    (fun r hr => hp.refs r (List.mem_append_right _ hr)) hread
  unfold Transaction.reads
  rw [hsender, ← hpod', hfn, hargs, hreps, hgas, hcoin, ← hmut', ← hread', hpayer, huntil, hdel,
    hops]

/-! ## What it leaves open -/

/-- The same body, signed already: another transaction passes for it. -/
theorem verifyTxAuthenticity_of_body_eq {cr : Crypto} {wire : UnsignedTx → Bytes}
    {tx tx' : Transaction} (hok : verifyTxAuthenticity cr wire tx = .ok ())
    (hbody : rebuildUnsignedTx tx' = rebuildUnsignedTx tx) (hhash : tx'.hash = tx.hash)
    (hsig : tx'.signature = tx.signature) (hsponsor : tx'.sponsorSignature = tx.sponsorSignature) :
    verifyTxAuthenticity cr wire tx' = .ok () := by
  have hsender : tx'.sender = tx.sender := congrArg UnsignedTx.sender hbody
  have hpayer : tx'.feePayer = tx.feePayer := congrArg UnsignedTx.feePayer hbody
  rw [← hok]
  unfold verifyTxAuthenticity bodyHash Transaction.isSponsored
  rw [hbody, hhash, hsig, hsponsor, hsender, hpayer]

/-- Bytes the body reads as zero, other than the given ones. -/
def otherZero (b : Bytes) : Bytes := if b = [] then [0] else []

theorem otherZero_ne (b : Bytes) : otherZero b ≠ b := by
  unfold otherZero
  split
  · rename_i h
    rw [h]
    nofun
  · exact fun h => ‹b ≠ []› h.symm

theorem hashOrZero_otherZero (b : Bytes) : hashOrZero (otherZero b) = zeroHash := by
  unfold otherZero
  split <;> rfl

theorem hashOrZero_eq_zero {b : Bytes} (h : ¬ ∃ x : Hash, x ≠ zeroHash ∧ b = x.val) :
    hashOrZero b = zeroHash := by
  unfold hashOrZero
  cases hb : hash32 b with
  | none => rfl
  | some x =>
    by_contra hne
    exact h ⟨x, hne, hash32_eq_some.1 hb⟩

/-- A list with a reference that is not pinned has another with the same body. -/
theorem exists_refs_same_body {l : List ObjectRef}
    (h : ∃ r ∈ l, ¬ ∃ id : Hash, id ≠ zeroHash ∧ r.id = id.val) :
    ∃ l' : List ObjectRef, l'.map extractTxRefData = l.map extractTxRefData ∧ l' ≠ l := by
  obtain ⟨r, hr, hno⟩ := h
  obtain ⟨before, after, rfl⟩ := List.append_of_mem hr
  refine ⟨before ++ { r with id := otherZero r.id } :: after, ?_, ?_⟩
  · have hdata : extractTxRefData { r with id := otherZero r.id } = extractTxRefData r := by
      unfold extractTxRefData
      rw [hashOrZero_otherZero, hashOrZero_eq_zero hno]
    rw [List.map_append, List.map_append, List.map_cons, List.map_cons, hdata]
  · intro heq
    have hcons := List.append_cancel_left heq
    have hid := congrArg ObjectRef.id (List.cons.inj hcons).1
    exact otherZero_ne r.id hid

/-- A transaction that is not pinned can be altered without touching its body. -/
theorem exists_altered {tx : Transaction} (h : ¬ tx.Pinned) :
    ∃ tx' : Transaction, rebuildUnsignedTx tx' = rebuildUnsignedTx tx ∧ tx'.hash = tx.hash ∧
      tx'.signature = tx.signature ∧ tx'.sponsorSignature = tx.sponsorSignature ∧
      tx'.reads ≠ tx.reads := by
  by_cases hpod : ∃ pod : Hash, pod ≠ zeroHash ∧ tx.pod = pod.val
  · have hrefs : ∃ r ∈ tx.mutableRefs ++ tx.readRefs,
        ¬ ∃ id : Hash, id ≠ zeroHash ∧ r.id = id.val := by
      by_contra hall
      push Not at hall
      exact h ⟨hpod, fun r hr => hall r hr⟩
    obtain ⟨r, hr, hno⟩ := hrefs
    rcases List.mem_append.1 hr with hr | hr
    · obtain ⟨l, hbody, hne⟩ := exists_refs_same_body ⟨r, hr, hno⟩
      refine ⟨{ tx with mutableRefs := l }, ?_, rfl, rfl, rfl, ?_⟩
      · unfold rebuildUnsignedTx
        rw [hbody]
      · exact fun heq => hne (congrArg Transaction.mutableRefs heq)
    · obtain ⟨l, hbody, hne⟩ := exists_refs_same_body ⟨r, hr, hno⟩
      refine ⟨{ tx with readRefs := l }, ?_, rfl, rfl, rfl, ?_⟩
      · unfold rebuildUnsignedTx
        rw [hbody]
      · exact fun heq => hne (congrArg Transaction.readRefs heq)
  · refine ⟨{ tx with pod := otherZero tx.pod }, ?_, rfl, rfl, rfl, ?_⟩
    · unfold rebuildUnsignedTx
      rw [hashOrZero_otherZero, hashOrZero_eq_zero hpod]
    · exact fun heq => otherZero_ne tx.pod (congrArg Transaction.pod heq)

/-- Barring a collision of the two bodies, the hash of an authentic transaction binds all
that commit reads if and only if the pod and every identifier are given in full. -/
theorem hash_binds_reads_iff_pinned (cr : Crypto) (wire : UnsignedTx → Bytes)
    (tx : Transaction) (hok : verifyTxAuthenticity cr wire tx = .ok ()) :
    (∀ tx' : Transaction, verifyTxAuthenticity cr wire tx' = .ok () → tx'.hash = tx.hash →
        (bodyHash cr wire tx = bodyHash cr wire tx' →
          rebuildUnsignedTx tx = rebuildUnsignedTx tx') →
        tx.reads = tx'.reads) ↔ tx.Pinned := by
  constructor
  · intro hbinds
    by_contra hno
    obtain ⟨tx', hbody, hhash, hsig, hsponsor, hne⟩ := exists_altered hno
    have hok' := verifyTxAuthenticity_of_body_eq hok hbody hhash hsig hsponsor
    exact hne (hbinds tx' hok' hhash fun _ => hbody.symm).symm
  · intro hp tx' hok' hhash hcollision
    have hbodies : bodyHash cr wire tx = bodyHash cr wire tx' := by
      apply Subtype.ext
      rw [(verifyTxAuthenticity_ok hok).hash, (verifyTxAuthenticity_ok hok').hash, hhash]
    exact hp.reads_eq (hcollision hbodies)

theorem hash_binds_reads_iff_pinned_solo :
    let wire := (soloNode (podReturning {})).unsignedTxBytes
    let tx := creatingBody (idOf 12) []
    ∀ tx' : Transaction, verifyTxAuthenticity soloCrypto wire tx' = .ok () →
      tx'.hash = tx.hash →
      (bodyHash soloCrypto wire tx = bodyHash soloCrypto wire tx' →
        rebuildUnsignedTx tx = rebuildUnsignedTx tx') →
      tx.reads = tx'.reads := by
  have hpinned : (creatingBody (idOf 12) []).Pinned := by
    refine ⟨⟨idOf 7, by decide, rfl⟩, ?_⟩
    intro r hr
    have hr : r ∈ [({ id := (idOf 12).val } : ObjectRef)] := hr
    rw [List.mem_singleton.1 hr]
    exact ⟨idOf 12, by decide, rfl⟩
  exact (hash_binds_reads_iff_pinned soloCrypto _ (creatingBody (idOf 12) [])
    (by decide +kernel)).2 hpinned

/-- A call that reads an object by its domain name; the identifier field is unused. -/
def namedRead (id : Bytes) : Transaction :=
  signedTx
    { sender := (idOf 1).val
      pod := (idOf 7).val
      functionName := ascii "look"
      gasCoin := (idOf 11).val
      maxGas := 100
      readRefs := [{ id, version := 1, domain := ascii "shop" }] }

/-- Thirty-two zero bytes in the unused field turn the name into a reference to an object
that has no such version: the altered call is recorded under the hash, and the signed one
is then a duplicate. -/
theorem altered_read_takes_the_hash :
    let nd := soloNode (podReturning {})
    let signed := namedRead []
    let altered := namedRead zeroHash.val
    rebuildUnsignedTx signed = rebuildUnsignedTx altered ∧ signed.hash = altered.hash ∧
      verifyTxAuthenticity nd.crypto nd.unsignedTxBytes signed = .ok () ∧
      verifyTxAuthenticity nd.crypto nd.unsignedTxBytes altered = .ok () ∧
      signed.reads ≠ altered.reads ∧
      (soloLedger.executeTx nd { transaction := some signed } 0 none).exit = .executed ∧
      (soloLedger.executeTx nd { transaction := some altered } 0 none).exit = .versionConflict ∧
      ((soloLedger.executeTx nd { transaction := some altered } 0 none).ledger.executeTx nd
        { transaction := some signed } 0 none).exit = .duplicate := by
  decide +kernel

end BluePods
