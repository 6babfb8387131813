import BluePods.Commit
import BluePods.MerkleTree

/-! The Merkle tree over sequences of calls. Every call keeps the nodes a canonical tree of
the stored entries, so the root is the reference's for them, and for the map from keys to
values that the calls end in. -/

namespace BluePods.Index

variable {e : Entry} {m : AList fun _ : Bytes => Bytes}
open Lib.SparseTree

/-! ## One call -/

namespace SMT

/-- The nodes are those of a canonical tree over the stored entries, each at the position of
its key, and remember no wrong digest. -/
structure Valid (cr : Crypto) (t : SMT) : Prop where
  memo : t.tree.Memoized cr 0
  canonical : t.tree.erase.Canonical bit 0
  entries : ∀ k v, (k, v) ∈ t.tree.erase.entries ↔
    ∃ e, t.entries.lookup k = some e ∧ e.valueHash = v
  keyed : ∀ k e, t.entries.lookup k = some e →
    ∃ key value, k = cr.blake3 key ∧ e = entryOf cr key value

section Calls

variable {cr : Crypto} {t : SMT}

theorem valid_new (cr : Crypto) : new.Valid cr where
  memo := trivial
  canonical := trivial
  entries k v := by simp [new, Node.erase, Tree.entries]
  keyed k e h := by simp [new] at h

theorem Valid.insert (h : t.Valid cr) (key value : Bytes) : (t.insert cr key value).Valid cr := by
  obtain ⟨herase, hmemo⟩ : (t.insert cr key value).tree.erase = _ ∧ _ :=
    Node.insertNode_spec h.memo (cr.blake3 key) (cr.blake3 value)
  obtain ⟨hcan, hperm⟩ := Tree.insert_spec bit_ext t.tree.erase 0 (cr.blake3 key)
    (cr.blake3 value) h.canonical (by simp)
  refine ⟨hmemo, herase ▸ hcan, ?_, ?_⟩
  · intro k v
    rw [herase, hperm.mem_iff]
    by_cases hk : k = cr.blake3 key
    · subst hk
      simp [SMT.insert, entryOf, eq_comm]
    · simp [SMT.insert, entryOf, AList.lookup_insert_ne hk, hk, h.entries k v]
  · intro k e hlook
    by_cases hk : k = cr.blake3 key
    · subst hk
      obtain rfl := Option.some.inj ((AList.lookup_insert _).symm.trans hlook)
      exact ⟨key, value, rfl, rfl⟩
    · exact h.keyed k e ((AList.lookup_insert_ne hk).symm.trans hlook)

theorem lookup_delete (cr : Crypto) (t : SMT) (key : Bytes) (k : Hash) :
    (t.delete cr key).entries.lookup k =
      if k = cr.blake3 key then none else t.entries.lookup k := by
  by_cases hmem : cr.blake3 key ∈ t.entries
  · rw [SMT.delete, if_pos hmem]
    by_cases hk : k = cr.blake3 key
    · rw [if_pos hk, hk]
      exact AList.lookup_erase _ _
    · rw [if_neg hk]
      exact AList.lookup_erase_ne hk
  · rw [SMT.delete, if_neg hmem]
    by_cases hk : k = cr.blake3 key
    · rw [if_pos hk, hk]
      exact AList.lookup_eq_none.2 hmem
    · rw [if_neg hk]

theorem Valid.delete (h : t.Valid cr) (key : Bytes) : (t.delete cr key).Valid cr := by
  have hlook := lookup_delete cr t key
  by_cases hmem : cr.blake3 key ∈ t.entries
  · have htree : (t.delete cr key).tree = t.tree.deleteNode 0 (cr.blake3 key) := by
      rw [SMT.delete, if_pos hmem]
    obtain ⟨hcan, hentries⟩ := Tree.delete_spec t.tree.erase 0 (cr.blake3 key) h.canonical
    obtain ⟨herase, hmemo⟩ := Node.deleteNode_spec h.memo (cr.blake3 key)
    rw [← herase, ← htree] at hcan hentries
    refine ⟨htree ▸ hmemo, hcan, ?_, ?_⟩
    · intro k v
      rw [hentries, hlook, List.mem_filter, h.entries k v]
      by_cases hk : k = cr.blake3 key
      · simp [hk]
      · simp [hk]
    · intro k e he
      rw [hlook] at he
      split at he
      · cases he
      · exact h.keyed k e he
  · rw [SMT.delete, if_neg hmem]
    exact h

/-- What is remembered is no part of the entries. -/
theorem Valid.remember {tree : Node} (h : t.Valid cr) (hmemo : tree.Memoized cr 0)
    (herase : tree.erase = t.tree.erase) : Valid cr { t with tree } where
  memo := hmemo
  canonical := herase ▸ h.canonical
  entries := herase ▸ h.entries
  keyed := h.keyed

theorem Valid.root (h : t.Valid cr) : (t.root cr).2.Valid cr := by
  obtain ⟨-, herase, hmemo⟩ := Node.nodeHash_spec h.memo
  exact h.remember hmemo herase

theorem Valid.prove (h : t.Valid cr) (key : Bytes) : (t.prove cr key).2.Valid cr := by
  obtain ⟨-, -, herase, hmemo⟩ := Node.provePath_spec h.memo (cr.blake3 key)
  exact h.remember hmemo herase

theorem Valid.step (h : t.Valid cr) (op : Op) : (t.step cr op).Valid cr := by
  cases op with
  | insert key value => exact h.insert key value
  | delete key => exact h.delete key
  | root => exact h.root
  | prove key => exact h.prove key

theorem valid_run (cr : Crypto) (ops : List Op) : (run cr ops).Valid cr := by
  suffices ∀ (t : SMT), t.Valid cr → (ops.foldl (SMT.step cr) t).Valid cr from this _ (valid_new cr)
  induction ops with
  | nil => exact fun t h => h
  | cons op ops ih => exact fun t h => ih _ (h.step op)

theorem mem_entriesSnapshot (t : SMT) (e : Entry) :
    e ∈ t.entriesSnapshot ↔ ∃ k, t.entries.lookup k = some e := by
  rw [entriesSnapshot, List.mem_map]
  constructor
  · rintro ⟨s, hs, rfl⟩
    exact ⟨s.1, AList.mem_lookup_iff.2 hs⟩
  · rintro ⟨k, hk⟩
    exact ⟨⟨k, e⟩, AList.mem_lookup_iff.1 hk, rfl⟩

theorem Valid.keyHash_eq (h : t.Valid cr) {k : Hash} (he : t.entries.lookup k = some e) :
    e.keyHash = k := by
  obtain ⟨key, value, rfl, rfl⟩ := h.keyed k e he
  rfl

theorem Valid.nodup (h : t.Valid cr) : (t.entriesSnapshot.map (·.keyHash)).Nodup := by
  have hkeys : t.entriesSnapshot.map (·.keyHash) = t.entries.keys := by
    rw [entriesSnapshot, List.map_map]
    apply List.map_congr_left
    intro s hs
    exact h.keyHash_eq (AList.mem_lookup_iff.2 hs)
  rw [hkeys]
  exact t.entries.nodupKeys

theorem Valid.perm (h : t.Valid cr) :
    (t.entriesSnapshot.map Entry.pair).Perm t.tree.erase.entries := by
  have hpairs : (t.entriesSnapshot.map Entry.pair).Nodup := by
    apply List.Nodup.of_map Prod.fst
    rw [List.map_map]
    exact h.nodup
  rw [List.perm_ext_iff_of_nodup hpairs h.canonical.nodup.of_map]
  rintro ⟨k, v⟩
  rw [h.entries k v, List.mem_map]
  constructor
  · rintro ⟨e, he, hpair⟩
    obtain ⟨rfl, rfl⟩ := Prod.mk.inj hpair
    obtain ⟨k, hk⟩ := (mem_entriesSnapshot t e).1 he
    rw [h.keyHash_eq hk]
    exact ⟨e, hk, rfl⟩
  · rintro ⟨e, he, rfl⟩
    refine ⟨e, (mem_entriesSnapshot t e).2 ⟨k, he⟩, ?_⟩
    rw [Entry.pair, h.keyHash_eq he]

theorem Valid.root_eq (h : t.Valid cr) : (t.root cr).1 = rootAt cr t.tree.erase 0 :=
  (Node.nodeHash_spec h.memo).1

theorem Valid.functionalRoot_eq (h : t.Valid cr) {es : List Entry}
    (hes : es.Perm t.entriesSnapshot) : functionalRoot cr es = some (t.root cr).1 := by
  rw [h.root_eq]
  exact Index.functionalRoot_eq cr h.canonical ((hes.map Entry.pair).trans h.perm)

end Calls

end SMT

/-! ## The map a tree holds -/

@[simp] theorem getD_cloneBytes (b : Bytes) : (cloneBytes b).getD [] = b := by
  unfold cloneBytes
  split
  · rename_i h
    rw [h]
    rfl
  · rfl

theorem mem_entriesOf {cr : Crypto} :
    e ∈ entriesOf cr m ↔ ∃ key value, m.lookup key = some value ∧ e = entryOf cr key value := by
  rw [entriesOf, List.mem_map]
  constructor
  · rintro ⟨s, hs, rfl⟩
    exact ⟨s.1, s.2, AList.mem_lookup_iff.2 hs, rfl⟩
  · rintro ⟨key, value, hlook, rfl⟩
    exact ⟨⟨key, value⟩, AList.mem_lookup_iff.1 hlook, rfl⟩

theorem nodup_entriesOf {cr : Crypto} (hfree : Tree.CollisionFree cr.blake3 m.keys) :
    ((entriesOf cr m).map (·.keyHash)).Nodup := by
  have hmap : (entriesOf cr m).map (·.keyHash) = m.keys.map cr.blake3 := by
    rw [entriesOf, List.map_map, AList.keys, List.keys, List.map_map]
    rfl
  rw [hmap]
  exact List.Nodup.map_on (fun k hk k' hk' => hfree k hk k' hk') m.nodupKeys

namespace SMT

variable {t' : SMT}

/-- The tree holds a map: each of its entries, at a position of its own, and no other. -/
structure Represents (cr : Crypto) (t : SMT) (m : AList fun _ : Bytes => Bytes) : Prop where
  valid : t.Valid cr
  distinct : Tree.CollisionFree cr.blake3 m.keys
  stored : ∀ key value, m.lookup key = some value →
    t.entries.lookup (cr.blake3 key) = some (entryOf cr key value)
  only : ∀ k e, t.entries.lookup k = some e →
    ∃ key value, m.lookup key = some value ∧ k = cr.blake3 key ∧ e = entryOf cr key value

section Maps

variable {key : Bytes} {cr : Crypto} {t : SMT} {m : AList fun _ : Bytes => Bytes}

theorem represents_new (cr : Crypto) : new.Represents cr ∅ where
  valid := valid_new cr
  distinct := by simp [Tree.CollisionFree]
  stored key value h := by simp at h
  only k e h := by simp [new] at h

theorem mem_keys_of_lookup {value : Bytes} (h : m.lookup key = some value) : key ∈ m.keys :=
  AList.mem_keys.1 (AList.lookup_isSome.1 (by rw [h]; rfl))

namespace Represents

variable (h : t.Represents cr m)

include h

section

variable {ids : List Bytes} (hfree : Tree.CollisionFree cr.blake3 ids)
  (hkeys : ∀ k ∈ m.keys, k ∈ ids) (hkey : key ∈ ids)

include hfree hkeys hkey

omit h in
/-- Keys of the map have digests of their own. -/
theorem digest_ne {key' value' : Bytes} (hlook : m.lookup key' = some value') (hk : key' ≠ key) :
    cr.blake3 key' ≠ cr.blake3 key := fun heq =>
  hk (hfree key' (hkeys key' (mem_keys_of_lookup hlook)) key hkey heq)

theorem insert (value : Bytes) :
    (t.insert cr key value).Represents cr (m.insert key value) ∧
      ∀ k ∈ (m.insert key value).keys, k ∈ ids := by
  have hmem : ∀ k ∈ (m.insert key value).keys, k ∈ ids := by
    intro k hk
    rw [← AList.mem_keys, AList.mem_insert] at hk
    rcases hk with rfl | hk
    · exact hkey
    · exact hkeys k (AList.mem_keys.1 hk)
  refine ⟨⟨h.valid.insert key value, fun k hk k' hk' => hfree k (hmem k hk) k' (hmem k' hk'), ?_,
    ?_⟩, hmem⟩
  · intro key' value' hlook
    by_cases hk : key' = key
    · subst hk
      rw [AList.lookup_insert] at hlook
      obtain rfl := Option.some.inj hlook
      exact AList.lookup_insert _
    · rw [AList.lookup_insert_ne hk] at hlook
      exact (AList.lookup_insert_ne (digest_ne hfree hkeys hkey hlook hk)).trans
        (h.stored key' value' hlook)
  · intro k e hlook
    by_cases hk : k = cr.blake3 key
    · subst hk
      obtain rfl := Option.some.inj ((AList.lookup_insert _).symm.trans hlook)
      exact ⟨key, value, AList.lookup_insert _, rfl, rfl⟩
    · obtain ⟨key', value', hm, rfl, rfl⟩ :=
        h.only k e ((AList.lookup_insert_ne hk).symm.trans hlook)
      have hne : key' ≠ key := fun heq => hk (by rw [heq])
      exact ⟨key', value', (AList.lookup_insert_ne hne).trans hm, rfl, rfl⟩

theorem delete :
    (t.delete cr key).Represents cr (m.erase key) ∧ ∀ k ∈ (m.erase key).keys, k ∈ ids := by
  have hmem : ∀ k ∈ (m.erase key).keys, k ∈ ids := by
    intro k hk
    rw [← AList.mem_keys, AList.mem_erase] at hk
    exact hkeys k (AList.mem_keys.1 hk.2)
  refine ⟨⟨h.valid.delete key, fun k hk k' hk' => hfree k (hmem k hk) k' (hmem k' hk'), ?_, ?_⟩,
    hmem⟩
  · intro key' value' hlook
    by_cases hk : key' = key
    · rw [hk, AList.lookup_erase] at hlook
      cases hlook
    · rw [AList.lookup_erase_ne hk] at hlook
      rw [lookup_delete, if_neg (digest_ne hfree hkeys hkey hlook hk)]
      exact h.stored key' value' hlook
  · intro k e hlook
    rw [lookup_delete] at hlook
    split at hlook
    · cases hlook
    · rename_i hk
      obtain ⟨key', value', hm, rfl, rfl⟩ := h.only k e hlook
      have hne : key' ≠ key := fun heq => hk (by rw [heq])
      exact ⟨key', value', (AList.lookup_erase_ne hne).trans hm, rfl, rfl⟩

theorem get : t.get cr key = (m.lookup key).map cloneBytes := by
  cases hm : m.lookup key with
  | some value =>
    rw [SMT.get, h.stored key value hm]
    simp [entryOf]
  | none =>
    have hnone : t.entries.lookup (cr.blake3 key) = none := by
      rw [Option.eq_none_iff_forall_ne_some]
      intro e he
      obtain ⟨key', value', hlook, heq, -⟩ := h.only _ e he
      refine digest_ne hfree hkeys hkey hlook ?_ heq.symm
      rintro rfl
      rw [hm] at hlook
      cases hlook
    rw [SMT.get, hnone]
    rfl

end

/-- What is remembered is not part of the map. -/
theorem of_entries (hvalid : t'.Valid cr) (hentries : t'.entries = t.entries) :
    t'.Represents cr m where
  valid := hvalid
  distinct := h.distinct
  stored := by rw [hentries]; exact h.stored
  only := by rw [hentries]; exact h.only

theorem root : (t.root cr).2.Represents cr m :=
  h.of_entries h.valid.root rfl

theorem perm : (entriesOf cr m).Perm t.entriesSnapshot := by
  rw [List.perm_ext_iff_of_nodup (nodup_entriesOf h.distinct).of_map h.valid.nodup.of_map]
  intro e
  rw [mem_entriesOf, mem_entriesSnapshot]
  constructor
  · rintro ⟨key, value, hlook, rfl⟩
    exact ⟨_, h.stored key value hlook⟩
  · rintro ⟨k, hk⟩
    obtain ⟨key, value, hlook, -, rfl⟩ := h.only k e hk
    exact ⟨key, value, hlook, rfl⟩

theorem functionalRoot_eq : functionalRoot cr (entriesOf cr m) = some (t.root cr).1 :=
  h.valid.functionalRoot_eq h.perm

end Represents

end Maps

/-! ## The root of a sequence of calls -/

section Runs

variable {cr : Crypto} {t : SMT} {m : AList fun _ : Bytes => Bytes}

/-- A sequence of calls whose keys do not collide keeps the tree on the map. -/
theorem Represents.run {ids : List Bytes} (hfree : Tree.CollisionFree cr.blake3 ids) (ops : List Op)
    (hops : ∀ key ∈ updatedKeys ops, key ∈ ids) (h : t.Represents cr m)
    (hkeys : ∀ k ∈ m.keys, k ∈ ids) :
    (ops.foldl (SMT.step cr) t).Represents cr (ops.foldl Op.update m) := by
  induction ops generalizing t m with
  | nil => exact h
  | cons op ops ih =>
    cases op with
    | insert key value =>
      rw [show updatedKeys _ = key :: updatedKeys ops from rfl, List.forall_mem_cons] at hops
      obtain ⟨hnext, hkeys'⟩ := h.insert hfree hkeys hops.1 value
      exact ih hops.2 hnext hkeys'
    | delete key =>
      rw [show updatedKeys _ = key :: updatedKeys ops from rfl, List.forall_mem_cons] at hops
      obtain ⟨hnext, hkeys'⟩ := h.delete hfree hkeys hops.1
      exact ih hops.2 hnext hkeys'
    | root => exact ih hops h.root hkeys
    | prove key => exact ih hops (h.of_entries (h.valid.prove key) rfl) hkeys

theorem represents_run (cr : Crypto) (ops : List Op)
    (hfree : Tree.CollisionFree cr.blake3 (updatedKeys ops)) :
    (SMT.run cr ops).Represents cr (finalMap ops) :=
  Represents.run hfree ops (fun _ h => h) (represents_new cr) fun k hk => by cases hk

/-- Two trees that answer every key alike store the same entries. -/
theorem lookup_of_get {t : SMT} (h : t.Valid cr) (h' : t'.Valid cr)
    (hget : ∀ key, t.get cr key = t'.get cr key) {k : Hash} (he : t.entries.lookup k = some e) :
    t'.entries.lookup k = some e := by
  obtain ⟨key, value, rfl, rfl⟩ := h.keyed k e he
  have hk := hget key
  rw [SMT.get, he, SMT.get] at hk
  cases he' : t'.entries.lookup (cr.blake3 key) with
  | none =>
    rw [he'] at hk
    cases hk
  | some e' =>
    obtain ⟨key', value', hpos, rfl⟩ := h'.keyed _ e' he'
    rw [he'] at hk
    have hvalue := congrArg (Option.getD · []) (Option.some.inj hk)
    simp only [entryOf, getD_cloneBytes] at hvalue
    rw [entryOf, entryOf, ← hpos, hvalue]

theorem root_eq_of_get {t : SMT} (h : t.Valid cr) (h' : t'.Valid cr)
    (hget : ∀ key, t.get cr key = t'.get cr key) : (t.root cr).1 = (t'.root cr).1 := by
  have hperm : t'.entriesSnapshot.Perm t.entriesSnapshot := by
    rw [List.perm_ext_iff_of_nodup h'.nodup.of_map h.nodup.of_map]
    intro e
    rw [mem_entriesSnapshot, mem_entriesSnapshot]
    constructor
    · rintro ⟨k, hk⟩
      exact ⟨k, lookup_of_get h' h (fun key => (hget key).symm) hk⟩
    · rintro ⟨k, hk⟩
      exact ⟨k, lookup_of_get h h' hget hk⟩
  have heq := (h.functionalRoot_eq hperm).symm.trans (h'.functionalRoot_eq (List.Perm.refl _))
  exact Option.some.inj heq

/-- Maps that agree on every key have the same entries. -/
theorem entriesOf_perm {m' : AList fun _ : Bytes => Bytes}
    (h : ∀ key, m.lookup key = m'.lookup key) : (entriesOf cr m).Perm (entriesOf cr m') := by
  apply List.Perm.map
  apply List.lookup_ext m.nodupKeys m'.nodupKeys
  intro key value
  exact iff_of_eq (congrArg (value ∈ ·) (h key))

theorem Represents.root_eq {m' : AList fun _ : Bytes => Bytes} (h : t.Represents cr m)
    (h' : t'.Represents cr m') (hmap : ∀ key, m.lookup key = m'.lookup key) :
    (t.root cr).1 = (t'.root cr).1 := by
  have heq := h'.valid.functionalRoot_eq ((entriesOf_perm hmap).trans h'.perm)
  exact Option.some.inj (h.functionalRoot_eq.symm.trans heq)

/-- The tree answers each key, and its keys are among `ids`. -/
def Answers {K : Type} (cr : Crypto) (ids : List Bytes) (t : SMT) (key : K → Bytes)
    (f : K → Option Bytes) : Prop :=
  ∃ m, t.Represents cr m ∧ (∀ k ∈ m.keys, k ∈ ids) ∧ ∀ k, m.lookup (key k) = f k

namespace Answers

variable {K : Type} {ids : List Bytes} {key : K → Bytes} {f g : K → Option Bytes} {k : K}

theorem new (cr : Crypto) (ids : List Bytes) (key : K → Bytes) :
    SMT.new.Answers cr ids key fun _ => none :=
  ⟨∅, represents_new cr, (fun k hk => by cases hk), fun _ => rfl⟩

theorem root (h : t.Answers cr ids key f) : (t.root cr).2.Answers cr ids key f := by
  obtain ⟨m, hrep, hrest⟩ := h
  exact ⟨m, hrep.root, hrest⟩

section

variable (h : t.Answers cr ids key f) (hfree : Tree.CollisionFree cr.blake3 ids)
  (hk : key k ∈ ids)

include h hfree hk

theorem get : t.get cr (key k) = (f k).map cloneBytes := by
  obtain ⟨m, hrep, hkeys, hlook⟩ := h
  rw [hrep.get hfree hkeys hk, hlook]

/-- Inserting a value, or deleting the key, changes one f. -/
theorem update [DecidableEq K] (hkey : key.Injective) {o : Option Bytes}
    (hg : ∀ k', g k' = if k' = k then o else f k') :
    (o.elim (t.delete cr (key k)) (t.insert cr (key k))).Answers cr ids key g := by
  obtain ⟨m, hrep, hkeys, hlook⟩ := h
  cases o with
  | none =>
    obtain ⟨hrep', hkeys'⟩ := hrep.delete hfree hkeys hk
    refine ⟨_, hrep', hkeys', fun k' => ?_⟩
    rw [hg]
    by_cases hk' : k' = k
    · rw [if_pos hk', hk', AList.lookup_erase]
    · rw [if_neg hk', AList.lookup_erase_ne (hkey.ne hk'), hlook]
  | some value =>
    obtain ⟨hrep', hkeys'⟩ := hrep.insert hfree hkeys hk value
    refine ⟨_, hrep', hkeys', fun k' => ?_⟩
    rw [hg]
    by_cases hk' : k' = k
    · rw [if_pos hk', hk', AList.lookup_insert]
    · rw [if_neg hk', AList.lookup_insert_ne (hkey.ne hk'), hlook]

end

/-- Trees with the same answers have the same root. -/
theorem root_eq (hids : ∀ x ∈ ids, ∃ k, key k = x) (h : t.Answers cr ids key f)
    (h' : t'.Answers cr ids key g) (hfg : ∀ k, f k = g k) :
    (t.root cr).1 = (t'.root cr).1 := by
  obtain ⟨m, hrep, hkeys, hlook⟩ := h
  obtain ⟨m', hrep', hkeys', hlook'⟩ := h'
  refine hrep.root_eq hrep' fun x => ?_
  by_cases hx : x ∈ ids
  · obtain ⟨k, rfl⟩ := hids x hx
    rw [hlook, hlook', hfg]
  · rw [AList.lookup_eq_none.2 fun h => hx (hkeys x (AList.mem_keys.1 h)),
      AList.lookup_eq_none.2 fun h => hx (hkeys' x (AList.mem_keys.1 h))]

end Answers

end Runs

/-- After any sequence of calls the root is the reference's for the stored entries, and, when
the digests of the updated keys tell them apart, for the map the calls end in. Trees that
answer every key alike, and sequences that end in the same map, have the same root. -/
theorem root_run (cr : Crypto) (ops : List Op) :
    functionalRoot cr (run cr ops).entriesSnapshot = some ((run cr ops).root cr).1 ∧
      (∀ ops', (∀ key, (run cr ops).get cr key = (run cr ops').get cr key) →
        ((run cr ops).root cr).1 = ((run cr ops').root cr).1) ∧
      (Tree.CollisionFree cr.blake3 (updatedKeys ops) →
        functionalRoot cr (entriesOf cr (finalMap ops)) = some ((run cr ops).root cr).1 ∧
        ∀ ops', Tree.CollisionFree cr.blake3 (updatedKeys ops') →
          (∀ key, (finalMap ops).lookup key = (finalMap ops').lookup key) →
          ((run cr ops).root cr).1 = ((run cr ops').root cr).1) := by
  have hvalid := valid_run cr
  refine ⟨(hvalid ops).functionalRoot_eq (List.Perm.refl _), ?_, ?_⟩
  · intro ops' hget
    exact root_eq_of_get (hvalid ops) (hvalid ops') hget
  · intro hfree
    have hops := represents_run cr ops hfree
    refine ⟨hops.functionalRoot_eq, ?_⟩
    intro ops' hfree' hmap
    exact hops.root_eq (represents_run cr ops' hfree') hmap

/-- Two keys inserted, one deleted, with reads between. -/
def twoKeys : List Op := [.insert [1] [5], .root, .insert [2] [6], .prove [1], .delete [1]]

theorem root_run_twoKeys :
    functionalRoot soloCrypto (entriesOf soloCrypto (finalMap twoKeys)) =
        some ((run soloCrypto twoKeys).root soloCrypto).1 ∧
      ((run soloCrypto twoKeys).root soloCrypto).1 =
        ((run soloCrypto [.insert [2] [6]]).root soloCrypto).1 := by
  have hfree : Tree.CollisionFree soloCrypto.blake3 (updatedKeys twoKeys) := by
    unfold Tree.CollisionFree
    decide +kernel
  have hfree' : Tree.CollisionFree soloCrypto.blake3 (updatedKeys [.insert [2] [6]]) := by
    unfold Tree.CollisionFree
    decide +kernel
  obtain ⟨-, -, hmap⟩ := root_run soloCrypto twoKeys
  obtain ⟨hroot, hsame⟩ := hmap hfree
  exact ⟨hroot, hsame [.insert [2] [6]] hfree' fun key => rfl⟩

end SMT

end BluePods.Index
