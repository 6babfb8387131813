import BluePods.FarAnchor

/-! The batches that a sequence of committed anchors cuts out of the vertex graph,
while vertices keep arriving in between. A batch holds each uncommitted vertex of its
anchor's history once, parents first, and no vertex of an earlier batch. -/

namespace BluePods
open Lib.Walk

namespace Store

variable {s s' s₀ : Store} {batch : List Hash} {v : Vertex} {x anchor : Hash}
  {batches : List (List Hash)}

/-! ## Committing an anchor -/

def markVertexCommitted (s : Store) (hash : Hash) : Store :=
  { s with committedVertices := hash :: s.committedVertices }

/-- What applying a batch leaves in the store: each vertex it still finds is marked. -/
def applyBatch (s : Store) (batch : List Hash) : Store :=
  batch.foldl
    (fun s h =>
      match s.get h with
      | none => s
      | some _ => s.markVertexCommitted h)
    s

/-- The store's share of committing an anchor; `none` when an ancestor is absent. -/
def commitAnchorBatch (s : Store) (anchor : Hash) : Option (Store × List Hash) :=
  (s.causalBatch anchor).map fun batch => (s.applyBatch batch, batch)

/-- Vertices arrive and anchors are committed, from `s₀` on; the batches are listed
latest first. -/
inductive Commits (s₀ : Store) : List (List Hash) → Store → Prop
  | start : Commits s₀ [] s₀
  | add {batches : List (List Hash)} {s : Store} (v : Vertex) :
      Commits s₀ batches s → Commits s₀ batches (s.add v).1
  | commit {batches : List (List Hash)} {s s' : Store} {anchor : Hash} {batch : List Hash} :
      Commits s₀ batches s → s.commitAnchorBatch anchor = some (s', batch) →
        Commits s₀ (batch :: batches) s'

/-- Every stored parent of a stored vertex has a strictly smaller round. -/
def RoundsDescend (s : Store) : Prop :=
  ∀ v ∈ s.vertices, ∀ w ∈ s.vertices, w.hash ∈ v.parentHashes → w.round < v.round

instance (s : Store) : Decidable s.RoundsDescend :=
  inferInstanceAs (Decidable (∀ v ∈ s.vertices, ∀ w ∈ s.vertices,
    w.hash ∈ v.parentHashes → w.round < v.round))

/-- A stored vertex above the floor that no batch has taken. -/
def Uncommitted (s : Store) (h : Hash) : Prop :=
  h ∉ s.committedVertices ∧
    ∃ v ∈ s.vertices, v.hash = h ∧ s.belowCommitFloor v.round = false

/-- `h` bounds every walk: it is committed, or stored at or below the floor. -/
def Bounds (s : Store) (h : Hash) : Prop :=
  h ∈ s.committedVertices ∨
    ∃ v ∈ s.vertices, v.hash = h ∧ s.belowCommitFloor v.round = true

/-- Committed history is stored, and the parents of a committed vertex bound every
walk. It holds of a store with nothing committed. -/
structure Settled (s : Store) : Prop where
  stored : ∀ h ∈ s.committedVertices, ∃ v ∈ s.vertices, v.hash = h
  parents : ∀ v ∈ s.vertices, v.hash ∈ s.committedVertices →
    ∀ p ∈ v.parentHashes, s.Bounds p

theorem Settled.of_nil (h : s.committedVertices = []) : s.Settled where
  stored := by simp [h]
  parents := by simp [h]

/-! ## What each step leaves in the store -/

theorem applyBatch_eq (hstored : ∀ h ∈ batch, ∃ v ∈ s.vertices, v.hash = h) :
    s.applyBatch batch = { s with committedVertices := batch.reverse ++ s.committedVertices } := by
  unfold applyBatch
  induction batch generalizing s with
  | nil => rfl
  | cons h rest ih =>
    obtain ⟨v, hv, hh⟩ := hstored h List.mem_cons_self
    rw [List.foldl_cons, get_eq_some.2 ⟨hv, hh⟩]
    dsimp only
    rw [ih (s := s.markVertexCommitted h) fun y hy => hstored y (List.mem_cons_of_mem _ hy),
      List.reverse_cons, List.append_assoc]
    rfl

theorem mem_vertices_add {w : Vertex} :
    w ∈ (s.add v).1.vertices ↔ w ∈ s.vertices ∨ w = v ∧ s.has v.hash = false := by
  unfold add
  split <;> simp_all

theorem add_committedVertices (s : Store) (v : Vertex) :
    (s.add v).1.committedVertices = s.committedVertices := by
  unfold add
  split <;> rfl

theorem add_belowCommitFloor (s : Store) (v : Vertex) :
    (s.add v).1.belowCommitFloor = s.belowCommitFloor := by
  unfold add
  split <;> rfl

/-! ## One batch -/

theorem inHistory_iff {h : Hash} :
    s.InHistory anchor h ↔ Reaches s.look anchor h ∧ s.Uncommitted h := by
  unfold InHistory Uncommitted
  simp only [look_eq_inner]
  constructor
  · rintro ⟨hr, next, hc, v, hv, hh, hf, -⟩
    exact ⟨hr, hc, v, hv, hh, hf⟩
  · rintro ⟨hr, hc, v, hv, hh, hf⟩
    exact ⟨hr, _, hc, v, hv, hh, hf, rfl⟩

section

variable (h : s.causalBatch anchor = some batch)

include h

theorem causalBatch_nodup : batch.Nodup := by
  obtain ⟨found, hf, rfl⟩ := Option.map_eq_some_iff.1 h
  have hnd := walk_nodup s.look s.walkFuel [] [anchor] [] found List.nodup_nil (by simp) hf
  exact (List.perm_insertionSort _ found).nodup_iff.2 hnd

theorem causalBatch_present (hx : Reaches s.look anchor x) : s.look x ≠ .missing := by
  obtain ⟨found, hf, rfl⟩ := Option.map_eq_some_iff.1 h
  exact walk_present s.look anchor s.walkFuel [] [anchor] [] found (Inv.init _ _)
    (by simp) hf x hx

theorem batch_stored : ∀ x ∈ batch, ∃ v ∈ s.vertices, v.hash = x := by
  intro x hx
  obtain ⟨-, -, v, hv, hh, -⟩ := inHistory_iff.1 ((mem_causalBatch h x).1 hx)
  exact ⟨v, hv, hh⟩

end

instance (s : Store) : Std.Total s.batchLe where
  total a b := by
    unfold batchLe
    rcases lt_trichotomy (s.roundOf a) (s.roundOf b) with h | h | h
    · exact .inl (.inl h)
    · rcases le_total a b with hab | hab
      · exact .inl (.inr ⟨h, hab⟩)
      · exact .inr (.inr ⟨h.symm, hab⟩)
    · exact .inr (.inl h)

instance (s : Store) : IsTrans Hash s.batchLe where
  trans a b c hab hbc := by
    unfold batchLe at hab hbc ⊢
    rcases hab with hab | ⟨hab, hle⟩ <;> rcases hbc with hbc | ⟨hbc, hle'⟩
    · exact .inl (hab.trans hbc)
    · exact .inl (hab.trans_eq hbc)
    · exact .inl (hab.trans_lt hbc)
    · exact .inr ⟨hab.trans hbc, le_trans hle hle'⟩

theorem causalBatch_sorted (h : s.causalBatch anchor = some batch) : batch.Pairwise s.batchLe := by
  obtain ⟨found, -, rfl⟩ := Option.map_eq_some_iff.1 h
  exact List.pairwise_insertionSort _ _

theorem roundOf_of_mem (hv : v ∈ s.vertices) : s.roundOf v.hash = v.round := by
  rw [roundOf, get_eq_some.2 ⟨hv, rfl⟩]
  rfl

/-- Where rounds descend along parent links, a vertex follows its parents. -/
theorem causalBatch_parents_first (hr : s.RoundsDescend) (h : s.causalBatch anchor = some batch)
    (hv : v ∈ s.vertices) (hmem : v.hash ∈ batch) {p : Hash} (hp : p ∈ v.parentHashes)
    (hpmem : p ∈ batch) : batch.idxOf p < batch.idxOf v.hash := by
  obtain ⟨w, hw, rfl⟩ := batch_stored h p hpmem
  have hlt : w.round < v.round := hr v hv w hw hp
  by_contra hnot
  have hne : batch.idxOf v.hash ≠ batch.idxOf w.hash := by
    intro heq
    have hhash : v.hash = w.hash := (List.idxOf_inj hmem).1 heq
    have hvw : v = w := List.inj_on_of_nodup_map s.nodup hv hw hhash
    rw [hvw] at hlt
    exact lt_irrefl _ hlt
  have hafter : batch.idxOf v.hash < batch.idxOf w.hash := by omega
  -- a later entry is never of a smaller round
  have hle := List.pairwise_iff_getElem.1 (causalBatch_sorted h) _ _
    (List.idxOf_lt_length_of_mem hmem) (List.idxOf_lt_length_of_mem hpmem) hafter
  rw [List.getElem_idxOf, List.getElem_idxOf] at hle
  rw [batchLe, roundOf_of_mem hv, roundOf_of_mem hw] at hle
  omega

/-! ## The batch is a function of the stored content -/

/-- The same vertices, committed vertices and floor, whatever the order they came in. -/
structure SameContent (s s' : Store) : Prop where
  vertices : ∀ v, v ∈ s.vertices ↔ v ∈ s'.vertices
  committed : ∀ h, h ∈ s.committedVertices ↔ h ∈ s'.committedVertices
  floor : s.commitFloor = s'.commitFloor
  floorSet : s.commitFloorSet = s'.commitFloorSet

namespace SameContent

variable (h : s.SameContent s')

include h

theorem perm : s.vertices.Perm s'.vertices :=
  (List.perm_ext_iff_of_nodup (List.Nodup.of_map _ s.nodup) (List.Nodup.of_map _ s'.nodup)).2
    h.vertices

theorem get (x : Hash) : s.get x = s'.get x := by
  cases hg : s.get x with
  | none =>
    symm
    rw [get_eq_none] at hg ⊢
    exact fun v hv => hg v ((h.vertices v).2 hv)
  | some v =>
    obtain ⟨hv, hh⟩ := get_eq_some.1 hg
    exact (get_eq_some.2 ⟨(h.vertices v).1 hv, hh⟩).symm

theorem look : s.look = s'.look := by
  funext x
  unfold Store.look belowCommitFloor
  rw [h.get x, h.floor, h.floorSet]
  simp only [h.committed x]

theorem walkFuel : s.walkFuel = s'.walkFuel := by
  unfold Store.walkFuel
  rw [(h.perm.map fun v : Vertex => v.parents.length).sum_eq]

theorem causalBatch (anchor : Hash) : s.causalBatch anchor = s'.causalBatch anchor := by
  have hround : s.roundOf = s'.roundOf := by
    funext x
    rw [roundOf, roundOf, h.get x]
  have hle : s.batchLe = s'.batchLe := by
    funext a b
    unfold batchLe
    rw [hround]
  unfold Store.causalBatch collectCausal
  rw [h.look, h.walkFuel]
  congr 1
  funext found
  congr 1

end SameContent

/-! ## Whole runs -/

theorem Settled.add (h : s.Settled) (v : Vertex) : (s.add v).1.Settled := by
  have hbounds : ∀ p, s.Bounds p → (s.add v).1.Bounds p := by
    intro p hp
    unfold Bounds at hp ⊢
    rw [add_committedVertices, add_belowCommitFloor]
    rcases hp with hp | ⟨w, hw, hh, hf⟩
    · exact .inl hp
    · exact .inr ⟨w, mem_vertices_add.2 (.inl hw), hh, hf⟩
  refine ⟨?_, ?_⟩
  · intro x hx
    rw [add_committedVertices] at hx
    obtain ⟨w, hw, hh⟩ := h.stored x hx
    exact ⟨w, mem_vertices_add.2 (.inl hw), hh⟩
  · intro w hw hc p hp
    rw [add_committedVertices] at hc
    rcases mem_vertices_add.1 hw with hold | ⟨rfl, hnew⟩
    · exact hbounds p (h.parents w hold hc p hp)
    · -- a committed hash is stored, so the arriving vertex is not committed yet
      obtain ⟨u, hu, hh⟩ := h.stored w.hash hc
      rw [has, get_eq_some.2 ⟨hu, hh⟩] at hnew
      cases hnew

/-- What a batch leaves uncommitted of its anchor's walk lies at or below the floor. -/
theorem bounds_after_batch (h : s.causalBatch anchor = some batch) (hx : Reaches s.look anchor x) :
    (s.applyBatch batch).Bounds x := by
  rw [applyBatch_eq (batch_stored h)]
  by_cases hc : x ∈ s.committedVertices
  · exact .inl (List.mem_append_right _ hc)
  · have hpresent := causalBatch_present h hx
    rw [look, if_neg hc] at hpresent
    cases hg : s.get x with
    | none => simp [hg] at hpresent
    | some v =>
      obtain ⟨hv, hh⟩ := get_eq_some.1 hg
      cases hf : s.belowCommitFloor v.round with
      | true => exact .inr ⟨v, hv, hh, hf⟩
      | false =>
        have hin : s.InHistory anchor x := inHistory_iff.2 ⟨hx, hc, v, hv, hh, hf⟩
        exact .inl (List.mem_append_left _ (List.mem_reverse.2 ((mem_causalBatch h x).2 hin)))

theorem Settled.applyBatch (hs : s.Settled) (h : s.causalBatch anchor = some batch) :
    (s.applyBatch batch).Settled := by
  have hafter := applyBatch_eq (batch_stored h)
  rw [hafter]
  refine ⟨fun x hx => ?_, fun v hv hc p hp => ?_⟩
  · rcases List.mem_append.1 hx with hx | hx
    · exact batch_stored h x (List.mem_reverse.1 hx)
    · exact hs.stored x hx
  · rcases List.mem_append.1 hc with hc | hc
    · rw [← hafter]
      obtain ⟨hr, next, hl⟩ := (mem_causalBatch h v.hash).1 (List.mem_reverse.1 hc)
      obtain ⟨-, w, hw, hh, -, rfl⟩ := look_eq_inner.1 hl
      rw [List.inj_on_of_nodup_map s.nodup hw hv hh] at hl
      exact bounds_after_batch h (.step hr hl hp)
    · exact (hs.parents v hv hc p hp).imp_left (List.mem_append_right _)

theorem commitAnchorBatch_eq (h : s.commitAnchorBatch anchor = some (s', batch)) :
    s.causalBatch anchor = some batch ∧ s' = s.applyBatch batch := by
  obtain ⟨l, hl, he⟩ := Option.map_eq_some_iff.1 h
  obtain ⟨rfl, rfl⟩ := Prod.mk.inj he
  exact ⟨hl, rfl⟩

theorem Commits.settled (hrun : Commits s₀ batches s) (h₀ : s₀.Settled) : s.Settled := by
  induction hrun with
  | start => exact h₀
  | add v _ ih => exact ih.add v
  | commit _ hcommit ih =>
    obtain ⟨hbatch, rfl⟩ := commitAnchorBatch_eq hcommit
    exact ih.applyBatch hbatch

theorem Commits.committed (hrun : Commits s₀ batches s) :
    ∀ batch ∈ batches, ∀ h ∈ batch, h ∈ s.committedVertices := by
  induction hrun with
  | start => simp
  | add v _ ih =>
    rw [add_committedVertices]
    exact ih
  | commit _ hcommit ih =>
    obtain ⟨hbatch, rfl⟩ := commitAnchorBatch_eq hcommit
    intro b hb h hh
    rw [applyBatch_eq (batch_stored hbatch)]
    rcases List.mem_cons.1 hb with rfl | hb
    · exact List.mem_append_left _ (List.mem_reverse.2 hh)
    · exact List.mem_append_right _ (ih b hb h hh)

/-- In a settled store whose rounds descend, the walk misses no uncommitted vertex:
behind a bounding vertex there are only bounding or absent ones. -/
theorem Settled.reaches_of_ancestor (hs : s.Settled) (hr : s.RoundsDescend)
    (hx : s.Ancestor anchor x) :
    Reaches s.look anchor x ∨ s.Bounds x ∨ ∀ v ∈ s.vertices, v.hash ≠ x := by
  induction hx with
  | refl => exact .inl .root
  | @tail b c _ hcite ih =>
    obtain ⟨v, hv, rfl, hc⟩ := hcite
    have hbehind : s.Bounds v.hash → s.Bounds c ∨ ∀ w ∈ s.vertices, w.hash ≠ c := by
      rintro (hcom | ⟨w, hw, hh, hf⟩)
      · exact .inl (hs.parents v hv hcom c hc)
      · obtain rfl : w = v := List.inj_on_of_nodup_map s.nodup hw hv hh
        by_cases hstored : ∃ u ∈ s.vertices, u.hash = c
        · obtain ⟨u, hu, rfl⟩ := hstored
          have hlt := hr w hv u hu hc
          refine .inl (.inr ⟨u, hu, rfl, ?_⟩)
          simp only [belowCommitFloor, Bool.and_eq_true, decide_eq_true_eq] at hf ⊢
          exact ⟨hf.1, by omega⟩
        · exact .inr fun u hu hh => hstored ⟨u, hu, hh⟩
    rcases ih with hreach | hbound | habsent
    · by_cases hunc : s.Uncommitted v.hash
      · obtain ⟨-, next, hl⟩ := inHistory_iff.2 ⟨hreach, hunc⟩
        obtain ⟨-, w, hw, hh, -, rfl⟩ := look_eq_inner.1 hl
        rw [List.inj_on_of_nodup_map s.nodup hw hv hh] at hl
        exact .inl (.step hreach hl hc)
      · refine .inr (hbehind ?_)
        by_cases hcom : v.hash ∈ s.committedVertices
        · exact .inl hcom
        · refine .inr ⟨v, hv, rfl, ?_⟩
          by_contra hf
          exact hunc ⟨hcom, v, hv, rfl, by simpa using hf⟩
    · exact .inr (hbehind hbound)
    · exact absurd rfl (habsent v hv)

theorem ancestor_of_reaches (h : Reaches s.look anchor x) : s.Ancestor anchor x := by
  induction h with
  | root => exact .refl
  | step _ hl hy ih =>
    obtain ⟨-, v, hv, hh, -, rfl⟩ := look_eq_inner.1 hl
    exact ih.tail ⟨v, hv, hh, hy⟩

theorem Settled.mem_causalBatch (hs : s.Settled) (hr : s.RoundsDescend)
    (h : s.causalBatch anchor = some batch) (x : Hash) :
    x ∈ batch ↔ s.Uncommitted x ∧ s.Ancestor anchor x := by
  rw [Store.mem_causalBatch h, inHistory_iff]
  constructor
  · rintro ⟨hreach, hunc⟩
    exact ⟨hunc, ancestor_of_reaches hreach⟩
  · rintro ⟨hunc, hanc⟩
    obtain ⟨hc, v, hv, hh, hf⟩ := hunc
    rcases hs.reaches_of_ancestor hr hanc with hreach | (hcom | ⟨w, hw, hwh, hwf⟩) | habsent
    · exact ⟨hreach, hc, v, hv, hh, hf⟩
    · exact absurd hcom hc
    · rw [List.inj_on_of_nodup_map s.nodup hw hv (hwh.trans hh.symm), hf] at hwf
      cases hwf
    · exact absurd hh (habsent v hv)

/-- Over every run, the next batch lists the uncommitted history of its anchor once,
parents first, apart from every earlier batch, and a store that received the same
vertices in another order cuts the same one. From a settled start, bounding the walk at
committed vertices loses nothing. -/
theorem batches_partition_history {s₀ s : Store} {batches : List (List Hash)}
    (hrun : Commits s₀ batches s) (hrounds : s.RoundsDescend) {anchor : Hash}
    {batch : List Hash} (h : s.causalBatch anchor = some batch) :
    batch.Nodup ∧
      (∀ x, x ∈ batch ↔ s.InHistory anchor x) ∧
      (s₀.Settled → ∀ x, x ∈ batch ↔ s.Uncommitted x ∧ s.Ancestor anchor x) ∧
      (∀ v ∈ s.vertices, v.hash ∈ batch → ∀ p ∈ v.parentHashes, p ∈ batch →
        batch.idxOf p < batch.idxOf v.hash) ∧
      (∀ earlier ∈ batches, batch.Disjoint earlier) ∧
      ∀ s', s.SameContent s' → s'.causalBatch anchor = some batch := by
  refine ⟨causalBatch_nodup h, Store.mem_causalBatch h, ?_, ?_, ?_, ?_⟩
  · intro h₀
    exact (hrun.settled h₀).mem_causalBatch hrounds h
  · intro v hv hmem p hp hpmem
    exact causalBatch_parents_first hrounds h hv hmem hp hpmem
  · intro earlier hearlier x hx hx'
    have hunc : s.Uncommitted x := (inHistory_iff.1 ((Store.mem_causalBatch h x).1 hx)).2
    exact hunc.1 (hrun.committed earlier hearlier x hx')
  · intro s' hsame
    rw [← hsame.causalBatch, h]

/-- Two vertices of round one, one above both, and a second vertex of round two over
one of them. -/
def diamond : Store where
  vertices :=
    [{ hash := idOf 1, round := 1, producer := idOf 11 },
     { hash := idOf 4, round := 2, producer := idOf 11,
       parents := [⟨idOf 2, idOf 12⟩, ⟨idOf 1, idOf 11⟩] },
     { hash := idOf 2, round := 1, producer := idOf 12 },
     { hash := idOf 3, round := 2, producer := idOf 12, parents := [⟨idOf 2, idOf 12⟩] }]
  nodup := by decide +kernel

theorem batches_partition_history_diamond :
    ∃ s : Store, Commits diamond [[idOf 2, idOf 3]] s ∧ s.RoundsDescend ∧
      s.causalBatch (idOf 4) = some [idOf 1, idOf 4] ∧
      [idOf 1, idOf 4].Disjoint [idOf 2, idOf 3] ∧
      ∀ x, x ∈ [idOf 1, idOf 4] ↔ s.Uncommitted x ∧ s.Ancestor (idOf 4) x := by
  have hcommit : diamond.commitAnchorBatch (idOf 3) =
      some (diamond.applyBatch [idOf 2, idOf 3], [idOf 2, idOf 3]) := by
    have hbatch : diamond.causalBatch (idOf 3) = some [idOf 2, idOf 3] := by decide +kernel
    rw [commitAnchorBatch, hbatch]
    rfl
  have hrun := Commits.commit (@Commits.start diamond) hcommit
  have hrounds : (diamond.applyBatch [idOf 2, idOf 3]).RoundsDescend := by decide +kernel
  have hbatch : (diamond.applyBatch [idOf 2, idOf 3]).causalBatch (idOf 4) =
      some [idOf 1, idOf 4] := by decide +kernel
  obtain ⟨-, -, hexact, -, hdisjoint, -⟩ := batches_partition_history hrun hrounds hbatch
  exact ⟨_, hrun, hrounds, hbatch, hdisjoint _ List.mem_cons_self,
    hexact (Settled.of_nil rfl)⟩

end Store

end BluePods
