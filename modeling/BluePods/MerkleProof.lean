import BluePods.MerkleRuns
import BluePods.TagHash
import BluePods.Wire

/-! Proofs of the index's Merkle tree. A proof that is accepted against the root of a map
shows what the map holds for the key, whoever made it; the proof the tree makes itself is
read back from its encoding and is accepted, except for a key stored with an empty value,
whose stored slice is nil and asks for absence. -/

namespace BluePods.Index

variable {p : Proof} {value : Option Bytes} {key : Bytes}
open Lib.SparseTree

/-! ## Verification -/

/-- The digest at the end of a path that shows absence: the empty subtree there, or the leaf
of another key. -/
def absenceTarget (cr : Crypto) (keyHash : Hash) (p : Proof) : Option Hash :=
  if p.leaf.length = 0 then some (defaultHashes cr p.siblings.length)
  else if h : p.leaf.length = 64 then
    let otherKey : Hash := ⟨p.leaf.take 32, by simp [h]⟩
    let otherValue : Hash := ⟨p.leaf.drop 32, by simp [h]⟩
    if otherKey = keyHash then none else some (leafHash cr otherKey otherValue)
  else none

/-- The digest at the end of the path; a nil value asks for absence. -/
def proofTarget (cr : Crypto) (keyHash : Hash) (value : Option Bytes) (p : Proof) : Option Hash :=
  match value with
  | some v => if p.leaf.length ≠ 0 then none else some (leafHash cr keyHash (cr.blake3 v))
  | none => absenceTarget cr keyHash p

/-- From the end of a path to the root. Before the last `n` siblings the path is at depth
`n`. -/
def foldPath (cr : Crypto) (keyHash : Hash) : Hash → List Hash → Hash
  | cur, [] => cur
  | cur, sib :: rest =>
    foldPath cr keyHash
      (if bit keyHash rest.length then internalHash cr sib cur else internalHash cr cur sib) rest

def verify (cr : Crypto) (root : Hash) (key : Bytes) (value : Option Bytes) (p : Proof) : Bool :=
  if p.siblings.length > treeDepth then false
  else
    match proofTarget cr (cr.blake3 key) value p with
    | none => false
    | some target => foldPath cr (cr.blake3 key) target p.siblings == root

/-! ## Encoding -/

namespace Proof

def serialize (p : Proof) : Bytes :=
  putUint32BE (UInt32.ofNat p.siblings.length) ++ (p.siblings.flatMap (·.val) ++
    (putUint32BE (UInt32.ofNat p.leaf.length) ++ p.leaf))

end Proof

/-- The next siblings, refused when the input is cut short. -/
def readHashes : Nat → Bytes → Option (List Hash × Bytes)
  | 0, data => some ([], data)
  | n + 1, data =>
    match hash32 (data.take 32) with
    | none => none
    | some h =>
      match readHashes n (data.drop 32) with
      | none => none
      | some (hs, rest) => some (h :: hs, rest)

def readSiblings (data : Bytes) : Option (List Hash × Bytes) :=
  if data.length < 4 then none
  else
    let count := (uint32BE data).toNat
    if count > treeDepth then none else readHashes count (data.drop 4)

def readLeaf (data : Bytes) : Option Bytes :=
  if data.length < 4 then none
  else if UInt32.ofNat (data.drop 4).length ≠ uint32BE data then none
  else if uint32BE data = 0 then some []
  else some (data.drop 4)

def deserializeProof (data : Bytes) : Option Proof :=
  match readSiblings data with
  | none => none
  | some (siblings, rest) =>
    match readLeaf rest with
    | none => none
    | some leaf => some ⟨siblings, leaf⟩

theorem readHashes_flatMap (hs : List Hash) (rest : Bytes) :
    readHashes hs.length (hs.flatMap (·.val) ++ rest) = some (hs, rest) := by
  induction hs with
  | nil => rfl
  | cons h hs ih =>
    rw [List.length_cons, List.flatMap_cons, List.append_assoc, readHashes,
      List.take_left' h.property, List.drop_left' h.property, hash32_val, ih]

theorem deserializeProof_serialize (hsib : p.siblings.length ≤ treeDepth)
    (hleaf : p.leaf.length ≤ 64) : deserializeProof p.serialize = some p := by
  rw [treeDepth] at hsib
  have hcount : (UInt32.ofNat p.siblings.length).toNat = p.siblings.length := by
    rw [UInt32.toNat_ofNat']
    omega
  have hread : readSiblings p.serialize =
      some (p.siblings, putUint32BE (UInt32.ofNat p.leaf.length) ++ p.leaf) := by
    rw [readSiblings, if_neg (by simp [Proof.serialize]), Proof.serialize, uint32BE_putUint32BE,
      hcount, if_neg (by rw [treeDepth]; omega), List.drop_left' (length_putUint32BE _),
      readHashes_flatMap]
  have hrest : readLeaf (putUint32BE (UInt32.ofNat p.leaf.length) ++ p.leaf) = some p.leaf := by
    rw [readLeaf, if_neg (by simp), uint32BE_putUint32BE, List.drop_left' (length_putUint32BE _),
      if_neg (by simp)]
    split
    · rename_i hzero
      have := congrArg UInt32.toNat hzero
      rw [UInt32.toNat_ofNat', UInt32.toNat_zero] at this
      rw [List.length_eq_zero_iff.1 (show p.leaf.length = 0 by omega)]
    · rfl
  rw [deserializeProof, hread]
  show (match readLeaf _ with | none => none | some leaf => some _) = _
  rw [hrest]

/-! ## What is hashed -/

/-- The hash tells the listed strings apart and gives none of them the digest of nothing. -/
structure Ideal (hash : Bytes → Hash) (l : List Bytes) : Prop where
  free : Tree.CollisionFree hash l
  nonzero : ∀ x ∈ l, hash x ≠ zeroHash

/-- The strings hashed for the root of a set of entries. -/
def treeInputs (cr : Crypto) (es : List Entry) : List Bytes :=
  ((Tree.ofList bit treeDepth (es.map Entry.pair)).inputs (BluePods.SMT.nodeDigest cr) zeroHash
    treeDepth 0).map BluePods.SMT.nodeBytes

/-- The strings hashed for the root of a map: its keys, its values and the nodes. -/
def mapInputs (cr : Crypto) (m : AList fun _ : Bytes => Bytes) : List Bytes :=
  m.keys ++ (m.entries.map (·.2) ++ treeInputs cr (entriesOf cr m))

/-- The leaf hashed at the end of the path, if there is one. -/
def targetInputs (cr : Crypto) (keyHash : Hash) (value : Option Bytes) (p : Proof) : List Bytes :=
  match value with
  | some v => [0 :: (keyHash.val ++ (cr.blake3 v).val)]
  | none => if p.leaf.length = 0 then [] else [0 :: p.leaf]

/-- The strings hashed on the way to the root. -/
def foldInputs (cr : Crypto) (keyHash : Hash) : Hash → List Hash → List Bytes
  | _, [] => []
  | cur, sib :: rest =>
    let bytes :=
      if bit keyHash rest.length then 1 :: (sib.val ++ cur.val) else 1 :: (cur.val ++ sib.val)
    bytes :: foldInputs cr keyHash (cr.blake3 bytes) rest

/-- The strings hashed by a verification. -/
def verifyInputs (cr : Crypto) (key : Bytes) (value : Option Bytes) (p : Proof) : List Bytes :=
  key :: (value.toList ++ (targetInputs cr (cr.blake3 key) value p ++
    match proofTarget cr (cr.blake3 key) value p with
    | none => []
    | some target => foldInputs cr (cr.blake3 key) target p.siblings))

section Fold

variable {cr : Crypto} {k : Hash} (cur sib : Hash) (rest ss : List Hash)

theorem foldPath_cons :
    foldPath cr k cur (sib :: rest) =
      foldPath cr k
        (BluePods.SMT.nodeDigest cr (Tree.climbStep bit k rest.length sib cur)) rest := by
  rw [foldPath, Tree.climbStep]
  split
  · rfl
  · rfl

theorem foldInputs_cons :
    foldInputs cr k cur (sib :: rest) =
      BluePods.SMT.nodeBytes (Tree.climbStep bit k rest.length sib cur) ::
        foldInputs cr k (BluePods.SMT.nodeDigest cr (Tree.climbStep bit k rest.length sib cur))
          rest := by
  rw [foldInputs, Tree.climbStep]
  split
  · rfl
  · rfl

/-- Deepest first, the siblings are climbed from the end of the path. -/
theorem foldPath_eq_climb :
    foldPath cr k cur ss = Tree.climb (BluePods.SMT.nodeDigest cr) bit k 0 ss.reverse cur := by
  induction ss generalizing cur with
  | nil => rfl
  | cons sib rest ih =>
    rw [foldPath_cons, ih, List.reverse_cons, Tree.climb_concat, List.length_reverse, Nat.zero_add]

theorem climbInputs_subset_foldInputs :
    ∀ x ∈ Tree.climbInputs (BluePods.SMT.nodeDigest cr) bit k 0 ss.reverse cur,
      BluePods.SMT.nodeBytes x ∈ foldInputs cr k cur ss := by
  induction ss generalizing cur with
  | nil => exact fun x hx => by cases hx
  | cons sib rest ih =>
    intro x hx
    rw [List.reverse_cons] at hx
    rw [foldInputs_cons]
    have hstep := Tree.mem_climbInputs_concat _ _ hx
    rw [List.length_reverse, Nat.zero_add] at hstep
    rcases hstep with rfl | hx
    · exact List.mem_cons_self
    · exact List.mem_cons_of_mem _ (ih _ x hx)

end Fold

/-! ## Soundness -/

section Soundness

variable {cr : Crypto} {l : List Bytes}

/-- The end of a path that a proof asks for: the entry of the key and value, or anything but
an entry of the key. -/
theorem proofTarget_tip {kh target : Hash} (h : proofTarget cr kh value p = some target) :
    ∃ e : Option (Hash × Hash), target = rootAt cr (Tree.tip e) p.siblings.length ∧
      (∀ x ∈ (Tree.tip e).inputs (BluePods.SMT.nodeDigest cr) zeroHash treeDepth
        p.siblings.length, BluePods.SMT.nodeBytes x ∈ targetInputs cr kh value p) ∧
      (∀ v, value = some v → e = some (kh, cr.blake3 v)) ∧
      (value = none → ∀ x ∈ e, x.1 ≠ kh) := by
  cases value with
  | some v =>
    rw [proofTarget] at h
    split at h
    · cases h
    · obtain rfl := Option.some.inj h
      refine ⟨some (kh, cr.blake3 v), rfl, ?_, ?_, (fun h => by cases h)⟩
      · intro x hx
        obtain rfl := List.mem_singleton.1 hx
        exact List.mem_singleton_self _
      · intro v' hv
        rw [Option.some.inj hv]
  | none =>
    rw [proofTarget, absenceTarget] at h
    split at h
    · obtain rfl := Option.some.inj h
      exact ⟨none, rfl, (fun x hx => by cases hx), (fun v h => by cases h),
        fun _ x hx => by cases hx⟩
    · rename_i hleaf
      split at h
      · rename_i hlen
        dsimp only at h
        split at h
        · cases h
        · rename_i hne
          obtain rfl := Option.some.inj h
          refine ⟨some (_, _), rfl, ?_, (fun v h => by cases h), fun _ x hx => ?_⟩
          · intro x hx
            obtain rfl := List.mem_singleton.1 hx
            rw [targetInputs, if_neg hleaf, BluePods.SMT.nodeBytes, List.take_append_drop]
            exact List.mem_singleton_self _
          · obtain rfl := Option.some.inj hx
            exact hne
      · cases h

/-- A proof that is accepted against the root of a tree shows an entry of the tree, or that
the tree has none for the key. -/
theorem entries_of_verify (hideal : Ideal cr.blake3 l) (hdefault : defaultInputs cr ⊆ l)
    {t : Tree Hash Hash} (hcan : t.Canonical bit 0)
    (htree : ∀ x ∈ t.inputs (BluePods.SMT.nodeDigest cr) zeroHash treeDepth 0,
      BluePods.SMT.nodeBytes x ∈ l) (hin : verifyInputs cr key value p ⊆ l)
    (h : verify cr (rootAt cr t 0) key value p = true) :
    (∀ v, value = some v → (cr.blake3 key, cr.blake3 v) ∈ t.entries) ∧
      (value = none → ∀ e ∈ t.entries, e.1 ≠ cr.blake3 key) := by
  rw [verify] at h
  split at h
  · cases h
  rename_i hlen
  cases htarget : proofTarget cr (cr.blake3 key) value p with
  | none =>
    rw [htarget] at h
    cases h
  | some target =>
    rw [htarget] at h
    obtain ⟨e, rfl, htip, hsome, hnone⟩ := proofTarget_tip htarget
    have hfold : foldPath cr (cr.blake3 key) (rootAt cr (Tree.tip e) p.siblings.length) p.siblings =
        rootAt cr t 0 := eq_of_beq h
    rw [foldPath_eq_climb] at hfold
    let path := Tree.climbInputs (BluePods.SMT.nodeDigest cr) bit (cr.blake3 key) 0
      p.siblings.reverse (rootAt cr (Tree.tip e) p.siblings.length)
    let ps := Tree.emptyInputs (BluePods.SMT.nodeDigest cr) zeroHash treeDepth ++
      (t.inputs (BluePods.SMT.nodeDigest cr) zeroHash treeDepth 0 ++
        ((Tree.tip e).inputs (BluePods.SMT.nodeDigest cr) zeroHash treeDepth p.siblings.length ++
          path))
    rw [verifyInputs, htarget] at hin
    have hps : ∀ x ∈ ps, BluePods.SMT.nodeBytes x ∈ l := by
      intro x hx
      rcases List.mem_append.1 hx with hx | hx
      · exact hdefault (List.mem_map_of_mem hx)
      rcases List.mem_append.1 hx with hx | hx
      · exact htree x hx
      apply hin
      apply List.mem_cons_of_mem
      apply List.mem_append_right
      rcases List.mem_append.1 hx with hx | hx
      · exact List.mem_append_left _ (htip x hx)
      · exact List.mem_append_right _ (climbInputs_subset_foldInputs _ _ x hx)
    have hbase : ∀ x ∈ ps, BluePods.SMT.nodeDigest cr x ≠ zeroHash := by
      intro x hx
      rw [BluePods.SMT.nodeDigest_eq]
      exact hideal.nonzero _ (hps x hx)
    obtain ⟨hmem, hkey⟩ := Tree.climb_sound bit_ext (collisionFree_nodeDigest hideal.free hps) hbase
      (List.subset_append_left ..) (cr.blake3 key) e p.siblings.reverse t 0 hcan
      (by rw [List.length_reverse]; omega)
      (by
        rw [List.length_reverse, Nat.zero_add]
        exact fun x hx => List.mem_append_right _
          (List.mem_append_right _ (List.mem_append_left _ hx)))
      (by
        rw [List.length_reverse, Nat.zero_add]
        exact fun x hx => List.mem_append_right _
          (List.mem_append_right _ (List.mem_append_right _ hx)))
      (fun x hx => List.mem_append_right _ (List.mem_append_left _ hx))
      (by
        rw [List.length_reverse, Nat.zero_add]
        exact hfold)
    constructor
    · intro v hv
      exact hmem _ (hsome v hv)
    · intro hv x hx hxk
      exact hnone hv x (hkey x hx hxk) hxk

end Soundness

section Maps

variable {cr : Crypto} {l : List Bytes}

theorem tree_of_entries {es : List Entry} (h : (es.map (·.keyHash)).Nodup) :
    (Tree.ofList bit treeDepth (es.map Entry.pair)).Canonical bit 0 ∧
      (Tree.ofList bit treeDepth (es.map Entry.pair)).entries.Perm (es.map Entry.pair) := by
  apply Tree.ofList_spec bit_ext
  rw [List.map_map]
  exact h

theorem SMT.Valid.pairs_perm (hfree : Tree.CollisionFree cr.blake3 l)
    (hdefault : defaultInputs cr ⊆ l) {t t' : SMT} (h : t.Valid cr) (h' : t'.Valid cr)
    (hin : treeInputs cr t.entriesSnapshot ⊆ l) (hin' : treeInputs cr t'.entriesSnapshot ⊆ l)
    (heq : (t.root cr).1 = (t'.root cr).1) :
    (t.entriesSnapshot.map Entry.pair).Perm (t'.entriesSnapshot.map Entry.pair) := by
  have hroot : ∀ {s : SMT}, s.Valid cr →
      rootAt cr (Tree.ofList bit treeDepth (s.entriesSnapshot.map Entry.pair)) 0 =
        (s.root cr).1 := by
    intro s hs
    obtain ⟨hcan, hperm⟩ := tree_of_entries hs.nodup
    exact Option.some.inj ((Index.functionalRoot_eq cr hcan hperm.symm).symm.trans
      (hs.functionalRoot_eq (List.Perm.refl _)))
  have hkeys : ∀ {s : SMT}, s.Valid cr →
      ((s.entriesSnapshot.map Entry.pair).map (·.1)).Nodup := by
    intro s hs
    rw [List.map_map]
    exact hs.nodup
  let nodes (s : SMT) := (Tree.ofList bit treeDepth (s.entriesSnapshot.map Entry.pair)).inputs
    (BluePods.SMT.nodeDigest cr) zeroHash treeDepth 0
  have hps : ∀ x ∈ Tree.emptyInputs (BluePods.SMT.nodeDigest cr) zeroHash treeDepth ++
      (nodes t ++ nodes t'), BluePods.SMT.nodeBytes x ∈ l := by
    intro x hx
    rcases List.mem_append.1 hx with hx | hx
    · exact hdefault (List.mem_map_of_mem hx)
    rcases List.mem_append.1 hx with hx | hx
    · exact hin (List.mem_map_of_mem hx)
    · exact hin' (List.mem_map_of_mem hx)
  exact Tree.perm_of_root_eq bit_ext (collisionFree_nodeDigest hfree hps)
    (List.subset_append_left ..) (by decide) (hkeys h) (hkeys h')
    (fun x hx => List.mem_append_right _ (List.mem_append_left _ hx))
    (fun x hx => List.mem_append_right _ (List.mem_append_right _ hx))
    ((hroot h).trans (heq.trans (hroot h').symm))

variable {m : AList fun _ : Bytes => Bytes} {key : Bytes} {value : Option Bytes} {p : Proof}

/-- A proof accepted against the root of a map's entries, in any order, shows what the map
holds for the key. -/
theorem lookup_eq_of_verify (hideal : Ideal cr.blake3 l) (hdefault : defaultInputs cr ⊆ l)
    (hkeys : m.keys ⊆ l) (hvalues : ∀ e ∈ m.entries, e.2 ∈ l) {es : List Entry}
    (hes : es.Perm (entriesOf cr m)) (hnodes : treeInputs cr es ⊆ l)
    (hver : verifyInputs cr key value p ⊆ l) {root : Hash}
    (hroot : functionalRoot cr es = some root)
    (h : verify cr root key value p = true) : m.lookup key = value := by
  have hnodup := (hes.map (·.keyHash)).nodup_iff.2 (nodup_entriesOf fun k hk k' hk' =>
    hideal.free k (hkeys hk) k' (hkeys hk'))
  obtain ⟨hcan, hperm⟩ := tree_of_entries hnodup
  rw [functionalRoot_eq cr hcan hperm.symm] at hroot
  obtain rfl := Option.some.inj hroot
  replace hperm := hperm.trans (hes.map Entry.pair)
  obtain ⟨hsome, hnone⟩ := entries_of_verify hideal hdefault hcan
    (fun x hx => hnodes (List.mem_map_of_mem hx)) hver h
  cases value with
  | some v =>
    obtain ⟨e, he, hpair⟩ := List.mem_map.1 (hperm.mem_iff.1 (hsome v rfl))
    obtain ⟨k', v', hlook, rfl⟩ := mem_entriesOf.1 he
    obtain ⟨hk, hv⟩ := Prod.mk.inj hpair
    have hasked : v ∈ verifyInputs cr key (some v) p :=
      List.mem_cons_of_mem _ (List.mem_append_left _ (by simp))
    rw [← hideal.free k' (hkeys (SMT.mem_keys_of_lookup hlook)) key
        (hver List.mem_cons_self) hk,
      ← hideal.free v' (hvalues _ (AList.mem_lookup_iff.1 hlook)) v (hver hasked) hv]
    exact hlook
  | none =>
    rw [Option.eq_none_iff_forall_ne_some]
    intro v hlook
    refine hnone rfl (cr.blake3 key, cr.blake3 v) ?_ rfl
    exact hperm.mem_iff.2 (List.mem_map.2
      ⟨entryOf cr key v, mem_entriesOf.2 ⟨key, v, hlook, rfl⟩, rfl⟩)

/-- The strings hashed for the root of a tree, the keys apart. -/
def SMT.hashedStrings (cr : Crypto) (t : SMT) : List Bytes :=
  t.entriesSnapshot.map (·.value.getD []) ++ treeInputs cr t.entriesSnapshot

/-- A proof accepted against the root of a tree shows what the map it holds has for the key. -/
theorem SMT.Represents.lookup_eq {t : SMT} (h : t.Represents cr m) (hideal : Ideal cr.blake3 l)
    (hdefault : defaultInputs cr ⊆ l) (hkeys : m.keys ⊆ l)
    (htree : t.hashedStrings cr ⊆ l) (hver : verifyInputs cr key value p ⊆ l)
    (haccept : verify cr (t.root cr).1 key value p = true) : m.lookup key = value := by
  refine lookup_eq_of_verify hideal hdefault hkeys ?_ h.perm.symm
    (fun x hx => htree (List.mem_append_right _ hx)) hver
    (h.valid.functionalRoot_eq (List.Perm.refl _)) haccept
  intro e he
  have hstored := h.stored e.1 e.2 (AList.mem_lookup_iff.2 he)
  apply htree
  apply List.mem_append_left
  refine List.mem_map.2 ⟨_, (SMT.mem_entriesSnapshot t _).2 ⟨_, hstored⟩, ?_⟩
  exact getD_cloneBytes e.2

end Maps

/-- For a hash that tells apart what is hashed and never gives the digest of nothing, the
reference computes a root for every finite map, and a proof accepted against that root, for
a value or for absence, shows what the map holds for the key. The proof is any, so also any
that was read from bytes. -/
theorem lookup_of_verify (cr : Crypto) (m : AList fun _ : Bytes => Bytes) (key : Bytes)
    (value : Option Bytes) (p : Proof)
    (hideal : Ideal cr.blake3
      (defaultInputs cr ++ (mapInputs cr m ++ verifyInputs cr key value p))) :
    ∃ root, functionalRoot cr (entriesOf cr m) = some root ∧
      (verify cr root key value p = true → m.lookup key = value) := by
  have hmap : mapInputs cr m ⊆
      defaultInputs cr ++ (mapInputs cr m ++ verifyInputs cr key value p) :=
    fun x hx => List.mem_append_right _ (List.mem_append_left _ hx)
  have hver : verifyInputs cr key value p ⊆
      defaultInputs cr ++ (mapInputs cr m ++ verifyInputs cr key value p) :=
    fun x hx => List.mem_append_right _ (List.mem_append_right _ hx)
  obtain ⟨hcan, hperm⟩ := tree_of_entries (nodup_entriesOf fun k hk k' hk' =>
    hideal.free k (hmap (List.mem_append_left _ hk)) k' (hmap (List.mem_append_left _ hk')))
  have hroot := functionalRoot_eq cr hcan hperm.symm
  refine ⟨_, hroot, lookup_eq_of_verify hideal (List.subset_append_left ..) ?_ ?_
    (List.Perm.refl _) ?_ hver hroot⟩
  · exact fun k hk => hmap (List.mem_append_left _ hk)
  · exact fun e he =>
      hmap (List.mem_append_right _ (List.mem_append_left _ (List.mem_map_of_mem he)))
  · exact fun x hx => hmap (List.mem_append_right _ (List.mem_append_right _ hx))

section TwoEntries
open Client

theorem ideal_of_tagged {l : List Bytes} (hfree : Tree.CollisionFree tagHash l)
    (htag : ∀ x ∈ l, (tagHash x).val.getD 31 0 = 1) :
    Ideal tagCrypto.blake3 (defaultInputs tagCrypto ++ l) :=
  ⟨collisionFree_of_tagged hfree htag, tagHash_ne_zero htag⟩

/-- Two keys whose positions part at the first bit. -/
def twoCalls : List SMT.Op := [.insert [1] [5], .insert [128] [6]]

def twoProof : Proof := ((SMT.run tagCrypto twoCalls).prove tagCrypto [1]).1

theorem lookup_of_verify_twoCalls :
    verify tagCrypto ((SMT.run tagCrypto twoCalls).root tagCrypto).1 [1] (some [5])
        twoProof = true ∧
      (finalMap twoCalls).lookup [1] = some [5] := by
  have hideal : Ideal tagCrypto.blake3 (defaultInputs tagCrypto ++
      (mapInputs tagCrypto (finalMap twoCalls) ++
        verifyInputs tagCrypto [1] (some [5]) twoProof)) := by
    apply ideal_of_tagged
    · unfold Tree.CollisionFree
      decide +kernel
    · decide +kernel
  obtain ⟨root, hroot, hsound⟩ :=
    lookup_of_verify tagCrypto (finalMap twoCalls) [1] (some [5]) twoProof hideal
  have hlive : functionalRoot tagCrypto (entriesOf tagCrypto (finalMap twoCalls)) =
      some ((SMT.run tagCrypto twoCalls).root tagCrypto).1 := by decide +kernel
  obtain rfl := Option.some.inj (hroot.symm.trans hlive)
  have haccept : verify tagCrypto ((SMT.run tagCrypto twoCalls).root tagCrypto).1 [1] (some [5])
      twoProof = true := by decide +kernel
  exact ⟨haccept, hsound haccept⟩

end TwoEntries

/-! ## Completeness -/

section Completeness

variable {cr : Crypto} {t : SMT}

theorem SMT.Valid.prove_eq (h : t.Valid cr) (key : Bytes) :
    (t.prove cr key).1 =
      ⟨(Tree.siblings (BluePods.SMT.nodeDigest cr) zeroHash treeDepth bit t.tree.erase 0
          (cr.blake3 key)).reverse,
        Node.leafBytes (cr.blake3 key) (Tree.tipAt bit t.tree.erase 0 (cr.blake3 key))⟩ := by
  obtain ⟨hsib, hleaf, -, -⟩ := Node.provePath_spec h.memo (cr.blake3 key)
  rw [← hsib, ← hleaf]
  rfl

theorem SMT.Valid.prove_roundTrip (h : t.Valid cr) (key : Bytes) :
    deserializeProof (t.prove cr key).1.serialize = some (t.prove cr key).1 := by
  rw [h.prove_eq]
  apply deserializeProof_serialize
  · rw [List.length_reverse]
    exact Tree.length_siblings_le _ _ bit_ext _ 0 _ h.canonical
  · show (Node.leafBytes _ _).length ≤ 64
    cases Tree.tipAt bit t.tree.erase 0 (cr.blake3 key) with
    | none => simp [Node.leafBytes]
    | some e =>
      rw [Node.leafBytes]
      split
      · simp
      · simp [otherLeaf, e.1.property, e.2.property]

theorem SMT.Valid.verify_prove (h : t.Valid cr) (key : Bytes)
    (htarget : proofTarget cr (cr.blake3 key) value (t.prove cr key).1 =
      some (rootAt cr (Tree.tip (Tree.tipAt bit t.tree.erase 0 (cr.blake3 key)))
        (t.prove cr key).1.siblings.length)) :
    verify cr (t.root cr).1 key value (t.prove cr key).1 = true := by
  have hlen : (t.prove cr key).1.siblings.length ≤ treeDepth := by
    rw [h.prove_eq, List.length_reverse]
    exact Tree.length_siblings_le _ _ bit_ext _ 0 _ h.canonical
  rw [verify, if_neg (by omega), htarget, h.root_eq]
  apply beq_iff_eq.2
  rw [foldPath_eq_climb, h.prove_eq, List.reverse_reverse, List.length_reverse]
  have hclimb := @Tree.climb_siblings _ _ _ bit (BluePods.SMT.nodeDigest cr) zeroHash treeDepth
    t.tree.erase 0 (cr.blake3 key)
  rw [Nat.zero_add] at hclimb
  exact hclimb

theorem SMT.Valid.verify_present (h : t.Valid cr) {v : Bytes}
    (hget : t.get cr key = some (some v)) :
    verify cr (t.root cr).1 key (some v) (t.prove cr key).1 = true := by
  obtain ⟨e, he, hclone⟩ := Option.map_eq_some_iff.1 hget
  obtain ⟨key', value', hpos, rfl⟩ := h.keyed _ e he
  have hv : value' = v := by
    have := congrArg (Option.getD · []) hclone
    simpa [entryOf] using this
  have hmem : (cr.blake3 key, cr.blake3 v) ∈ t.tree.erase.entries := by
    rw [h.entries]
    exact ⟨_, he, by rw [← hv]; rfl⟩
  have htip := Tree.tipAt_of_mem h.canonical hmem
  apply h.verify_prove
  rw [htip, h.prove_eq, htip, proofTarget, if_neg (by simp [Node.leafBytes])]
  rfl

/-- What a path that misses its key ends on is the target of a proof of absence. -/
theorem absenceTarget_leafBytes {kh : Hash} {e : Option (Hash × Hash)} (hne : ∀ x ∈ e, x.1 ≠ kh)
    (siblings : List Hash) :
    absenceTarget cr kh ⟨siblings, Node.leafBytes kh e⟩ =
      some (rootAt cr (Tree.tip e) siblings.length) := by
  cases e with
  | none => rfl
  | some e =>
    have hleaf : Node.leafBytes kh (some e) = e.1.val ++ e.2.val := by
      rw [Node.leafBytes, if_neg (hne e rfl)]
      rfl
    have hlen : (e.1.val ++ e.2.val).length = 64 := by
      rw [List.length_append, e.1.property, e.2.property]
    have hkey : (e.1.val ++ e.2.val).take 32 = e.1.val := List.take_left' e.1.property
    have hval : (e.1.val ++ e.2.val).drop 32 = e.2.val := List.drop_left' e.1.property
    simp only [absenceTarget, hleaf, hlen, hkey, hval]
    exact if_neg (hne e rfl)

theorem SMT.Valid.verify_absent (h : t.Valid cr) (hget : t.get cr key = none) :
    verify cr (t.root cr).1 key none (t.prove cr key).1 = true := by
  have hlook : t.entries.lookup (cr.blake3 key) = none := Option.map_eq_none_iff.1 hget
  apply h.verify_prove
  rw [h.prove_eq]
  refine absenceTarget_leafBytes ?_ _
  intro e htip heq
  obtain ⟨e', he', -⟩ := (h.entries e.1 e.2).1 (Tree.mem_of_tipAt htip)
  rw [heq, hlook] at he'
  cases he'

end Completeness

/-- After any sequence of calls, the proof a tree makes for a key is read back from its
encoding, and is accepted with the stored slice of a present key, or with nil for an absent
one, exactly when the key is not stored with an empty value: the slice stored then is nil,
and asks for absence. -/
theorem verify_prove_iff (cr : Crypto) (ops : List SMT.Op) (key : Bytes) :
    ((SMT.run cr ops).get cr key ≠ some none →
      deserializeProof ((SMT.run cr ops).prove cr key).1.serialize =
          some ((SMT.run cr ops).prove cr key).1 ∧
        verify cr ((SMT.run cr ops).root cr).1 key (((SMT.run cr ops).get cr key).getD none)
          ((SMT.run cr ops).prove cr key).1 = true) ∧
      (Ideal cr.blake3 (defaultInputs cr ++ (treeInputs cr (SMT.run cr ops).entriesSnapshot ++
          verifyInputs cr key none ((SMT.run cr ops).prove cr key).1)) →
        verify cr ((SMT.run cr ops).root cr).1 key (((SMT.run cr ops).get cr key).getD none)
          ((SMT.run cr ops).prove cr key).1 = true →
        (SMT.run cr ops).get cr key ≠ some none) := by
  have hvalid := SMT.valid_run cr ops
  constructor
  · intro hcond
    refine ⟨hvalid.prove_roundTrip key, ?_⟩
    match hget : (SMT.run cr ops).get cr key with
    | none => exact hvalid.verify_absent hget
    | some none => exact absurd hget hcond
    | some (some v) => exact hvalid.verify_present hget
  · intro hideal hverify hget
    rw [hget] at hverify
    obtain ⟨hcan, hperm⟩ := tree_of_entries hvalid.nodup
    have hroot := (hvalid.functionalRoot_eq (List.Perm.refl _)).symm.trans
      (functionalRoot_eq cr hcan hperm.symm)
    rw [Option.some.inj hroot] at hverify
    obtain ⟨-, hnone⟩ := entries_of_verify hideal (List.subset_append_left ..) hcan
      (fun x hx => List.mem_append_right _ (List.mem_append_left _ (List.mem_map_of_mem hx)))
      (fun x hx => List.mem_append_right _ (List.mem_append_right _ hx)) hverify
    obtain ⟨e, he, -⟩ := Option.map_eq_some_iff.1 hget
    refine hnone rfl e.pair ?_ (hvalid.keyHash_eq he)
    exact hperm.mem_iff.2 (List.mem_map_of_mem ((SMT.mem_entriesSnapshot _ e).2 ⟨_, he⟩))

theorem verify_prove_iff_twoCalls :
    verify soloCrypto ((SMT.run soloCrypto twoCalls).root soloCrypto).1 [1] (some [5])
        ((SMT.run soloCrypto twoCalls).prove soloCrypto [1]).1 = true := by
  have hget : (SMT.run soloCrypto twoCalls).get soloCrypto [1] = some (some [5]) := by
    decide +kernel
  have h := ((verify_prove_iff soloCrypto twoCalls [1]).1 (by rw [hget]; decide)).2
  rw [hget] at h
  exact h

/-- A key inserted with an empty value: its proof is refused with the stored slice. -/
theorem verify_prove_emptyValue :
    (SMT.run soloCrypto [.insert [1] []]).get soloCrypto [1] = some none ∧
      verify soloCrypto ((SMT.run soloCrypto [.insert [1] []]).root soloCrypto).1 [1] none
        ((SMT.run soloCrypto [.insert [1] []]).prove soloCrypto [1]).1 = false := by
  decide +kernel

end BluePods.Index
