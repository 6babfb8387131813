import BluePods.Types
import BluePods.Lib.Walk

/-! The vertex store and its causal walk. The persisted records and the in-memory
round index of the source are one list of vertices in arrival order, with one
vertex per hash. -/

namespace BluePods
open Lib.Quorum Lib.Walk

/-- A reference to a parent vertex, with the producer it is attributed to. -/
structure VertexLink where
  hash : Hash
  producer : Hash
  deriving DecidableEq

structure Vertex where
  hash : Hash
  round : Nat
  producer : Hash
  parents : List VertexLink := []
  epoch : Nat := 0
  frontierRound : Nat := 0
  indexRoot : Hash := zeroHash
  deriving DecidableEq

/-- The hashes of a vertex's parent links. -/
def Vertex.parentHashes (v : Vertex) : List Hash := v.parents.map (·.hash)

/-- Stored vertices in arrival order, the vertices already folded into a commit
batch, those proved wrong about their index root, and the commit floor of an imported
snapshot. -/
structure Store where
  vertices : List Vertex
  nodup : (vertices.map (·.hash)).Nodup
  committedVertices : List Hash := []
  quarantinedVertices : List Hash := []
  commitFloor : Nat := 0
  commitFloorSet : Bool := false

namespace Store

variable {s : Store} {h : Hash} {v : Vertex}

def get (s : Store) (hash : Hash) : Option Vertex :=
  s.vertices.find? (·.hash = hash)

def has (s : Store) (hash : Hash) : Bool := (s.get hash).isSome

/-- Vertex hashes of a round, in arrival order. -/
def getByRound (s : Store) (round : Nat) : List Hash :=
  (s.vertices.filter (·.round = round)).map (·.hash)

/-- The producer the round index records for a vertex, zero when it has no entry. -/
def producerAt (s : Store) (round : Nat) (hash : Hash) : Hash :=
  match s.vertices.find? (fun v => v.round = round ∧ v.hash = hash) with
  | some v => v.producer
  | none => zeroHash

/-- Every stored vertex of a producer at a round, in ascending hash order. The
source also returns whether the list is nonempty. -/
def getByRoundProducer (s : Store) (round : Nat) (producer : Hash) : List Hash :=
  ((s.getByRound round).filter fun h => s.producerAt round h = producer).insertionSort (· ≤ ·)

/-- The producers with a stored vertex at a round of `[start, stop]`. -/
def producersInRange (s : Store) (start stop : Nat) (producer : Hash) : Bool :=
  (List.range (stop + 1 - start)).any fun i =>
    (s.getByRound (start + i)).any fun h => s.producerAt (start + i) h = producer

/-- The greatest round of any stored vertex. -/
def highestRound (s : Store) : Nat := (s.vertices.map (·.round)).foldl max 0

def belowCommitFloor (s : Store) (round : Nat) : Bool :=
  s.commitFloorSet && decide (round ≤ s.commitFloor)

theorem get_eq_none : s.get h = none ↔ ∀ v ∈ s.vertices, v.hash ≠ h := by
  simp [get]

theorem get_eq_some : s.get h = some v ↔ v ∈ s.vertices ∧ v.hash = h := by
  constructor
  · intro hg
    exact ⟨List.mem_of_find?_eq_some hg, by simpa using List.find?_some hg⟩
  · rintro ⟨hv, rfl⟩
    cases hg : s.get v.hash with
    | none => exact absurd rfl (get_eq_none.1 hg v hv)
    | some w =>
      have hw : w ∈ s.vertices := List.mem_of_find?_eq_some hg
      have hh : w.hash = v.hash := by simpa using List.find?_some hg
      rw [List.inj_on_of_nodup_map s.nodup hw hv hh]

/-- Stores a vertex unless its hash is already present. -/
def add (s : Store) (v : Vertex) : Store × Bool :=
  if h : s.has v.hash = true then (s, false)
  else
    ({ s with
        vertices := s.vertices ++ [v]
        nodup := by
          have hnone : s.get v.hash = none := by simpa [has] using h
          rw [List.map_append, List.nodup_append]
          refine ⟨s.nodup, by simp, ?_⟩
          rintro a ha b hb rfl
          obtain ⟨w, hw, rfl⟩ := List.mem_map.1 ha
          exact get_eq_none.1 hnone w hw (by simpa using hb) },
      true)

/-! ## What the indexes hold -/

theorem mem_getByRound {r : Nat} :
    h ∈ s.getByRound r ↔ ∃ v ∈ s.vertices, v.round = r ∧ v.hash = h := by
  simp [getByRound, and_assoc]

theorem producerAt_of_mem (hv : v ∈ s.vertices) : s.producerAt v.round v.hash = v.producer := by
  unfold producerAt
  cases hf : s.vertices.find? (fun w => w.round = v.round ∧ w.hash = v.hash) with
  | none =>
    rw [List.find?_eq_none] at hf
    exact absurd (hf v hv) (by simp)
  | some w =>
    have hw : w ∈ s.vertices := List.mem_of_find?_eq_some hf
    have hh : w.round = v.round ∧ w.hash = v.hash := by simpa using List.find?_some hf
    rw [List.inj_on_of_nodup_map s.nodup hw hv hh.2]

theorem mem_getByRoundProducer {r : Nat} {p : Hash} :
    h ∈ s.getByRoundProducer r p ↔ ∃ v ∈ s.vertices, v.round = r ∧ v.producer = p ∧ v.hash = h := by
  simp only [getByRoundProducer, List.mem_insertionSort, List.mem_filter, mem_getByRound,
    decide_eq_true_eq]
  constructor
  · rintro ⟨⟨v, hv, rfl, rfl⟩, hp⟩
    rw [producerAt_of_mem hv] at hp
    exact ⟨v, hv, rfl, hp, rfl⟩
  · rintro ⟨v, hv, rfl, rfl, rfl⟩
    exact ⟨⟨v, hv, rfl, rfl⟩, producerAt_of_mem hv⟩

theorem sorted_getByRoundProducer (s : Store) (r : Nat) (p : Hash) :
    (s.getByRoundProducer r p).Pairwise (· ≤ ·) :=
  List.pairwise_insertionSort _ _

private theorem le_foldl_max (l : List Nat) (b : Nat) : b ≤ l.foldl max b := by
  induction l generalizing b with
  | nil => exact le_rfl
  | cons x xs ih => exact le_trans (le_max_left b x) (ih _)

theorem le_highestRound (hv : v ∈ s.vertices) : v.round ≤ s.highestRound := by
  suffices ∀ (l : List Nat) (b x : Nat), x ∈ l → x ≤ l.foldl max b from
    this _ 0 _ (List.mem_map_of_mem hv)
  intro l
  induction l with
  | nil => simp
  | cons y ys ih =>
    intro b x hx
    rcases List.mem_cons.1 hx with rfl | hx
    · exact le_trans (le_max_right b x) (le_foldl_max ys _)
    · exact ih _ _ hx

/-! ## The causal walk -/

/-- Committed vertices and vertices at or below the floor bound the walk. -/
def look (s : Store) (hash : Hash) : Look Hash :=
  if hash ∈ s.committedVertices then .bound
  else
    match s.get hash with
    | none => .missing
    | some v => if s.belowCommitFloor v.round then .bound else .inner v.parentHashes

/-- One dequeue per parent link, the root and the final empty queue. -/
def walkFuel (s : Store) : Nat := (s.vertices.map (·.parents.length)).sum + 2

/-- The uncommitted vertices above the floor in a vertex's ancestry, breadth
first; `none` when a referenced vertex is absent. -/
def collectCausal (s : Store) (anchor : Hash) : Option (List Hash) :=
  walk s.look s.walkFuel [] [anchor] []

def roundOf (s : Store) (hash : Hash) : Nat := (s.get hash).elim 0 (·.round)

/-- Batch order: by round, then by hash. -/
def batchLe (s : Store) (a b : Hash) : Prop :=
  s.roundOf a < s.roundOf b ∨ s.roundOf a = s.roundOf b ∧ a ≤ b

instance (s : Store) : DecidableRel s.batchLe := fun _ _ =>
  inferInstanceAs (Decidable (_ ∨ _))

def causalBatch (s : Store) (anchor : Hash) : Option (List Hash) :=
  (s.collectCausal anchor).map (·.insertionSort s.batchLe)

/-- `h` is an uncommitted vertex above the floor in the ancestry of `anchor`. -/
def InHistory (s : Store) (anchor h : Hash) : Prop :=
  Reaches s.look anchor h ∧ ∃ next, s.look h = .inner next

/-- Every cited vertex is stored. -/
def Closed (s : Store) : Prop :=
  ∀ v ∈ s.vertices, ∀ p ∈ v.parentHashes, ∃ w ∈ s.vertices, w.hash = p

instance (s : Store) : Decidable s.Closed :=
  inferInstanceAs (Decidable (∀ v ∈ s.vertices, ∀ p ∈ v.parentHashes,
    ∃ w ∈ s.vertices, w.hash = p))

theorem look_eq_inner {next : List Hash} :
    s.look h = .inner next ↔ h ∉ s.committedVertices ∧
      ∃ v ∈ s.vertices, v.hash = h ∧ s.belowCommitFloor v.round = false ∧
        next = v.parentHashes := by
  unfold look
  split
  · simp_all
  · rename_i hc
    cases hg : s.get h with
    | none =>
      have hno := get_eq_none.1 hg
      simp only [reduceCtorEq, false_iff]
      rintro ⟨-, v, hv, hh, -⟩
      exact hno v hv hh
    | some v =>
      obtain ⟨hv, hh⟩ := get_eq_some.1 hg
      have huniq : ∀ w ∈ s.vertices, w.hash = h → w = v := fun w hw hwh =>
        Option.some.inj ((get_eq_some.2 ⟨hw, hwh⟩).symm.trans hg)
      cases hb : s.belowCommitFloor v.round with
      | true =>
        simp only [hb, if_true, reduceCtorEq, false_iff]
        rintro ⟨-, w, hw, hwh, hf, -⟩
        rw [huniq w hw hwh, hb] at hf
        cases hf
      | false =>
        simp only [hb, Bool.false_eq_true, if_false, Look.inner.injEq]
        constructor
        · rintro rfl
          exact ⟨hc, v, hv, hh, hb, rfl⟩
        · rintro ⟨-, w, hw, hwh, -, rfl⟩
          rw [huniq w hw hwh]

theorem look_ne_missing (hv : v ∈ s.vertices) : s.look v.hash ≠ .missing := by
  unfold look
  split
  · simp
  · rw [get_eq_some.2 ⟨hv, rfl⟩]
    simp only
    split <;> simp

theorem Closed.reaches (hc : s.Closed) (hv : v ∈ s.vertices) (hr : Reaches s.look v.hash h) :
    ∃ w ∈ s.vertices, w.hash = h := by
  refine hr.invariant (P := fun h => ∃ w ∈ s.vertices, w.hash = h) ⟨v, hv, rfl⟩ ?_
  intro y next z _ hl hz
  obtain ⟨-, w, hw, -, -, rfl⟩ := look_eq_inner.1 hl
  exact hc w hw z hz

private theorem ahead_lt_walkFuel (s : Store) (a : Hash) :
    ahead s.look (s.vertices.map (·.hash)) [] [a] < s.walkFuel := by
  suffices ∀ l : List Vertex, (∀ v ∈ l, v ∈ s.vertices) →
      total (fun x => (s.look x).next.length) (l.map (·.hash)) ≤
        (l.map (·.parents.length)).sum by
    have hsum := this s.vertices fun _ h => h
    have hle := weigh_le_total (fun x => (s.look x).next.length)
      (fun x => decide (x ∉ ([] : List Hash))) (s.vertices.map (·.hash))
    simp only [ahead, walkFuel, List.length_singleton]
    exact Nat.lt_of_le_of_lt (Nat.add_le_add_left (le_trans hle hsum) 1) (by omega)
  intro l
  induction l with
  | nil => simp
  | cons v vs ih =>
    intro hl
    have hvs := ih fun w hw => hl w (List.mem_cons_of_mem _ hw)
    have hv : (s.look v.hash).next.length ≤ v.parents.length := by
      cases hlook : s.look v.hash with
      | missing => simp
      | bound => simp
      | inner next =>
        obtain ⟨-, w, hw, hwh, -, rfl⟩ := look_eq_inner.1 hlook
        rw [List.inj_on_of_nodup_map s.nodup hw (hl v List.mem_cons_self) hwh]
        simp [Vertex.parentHashes]
    simp only [List.map_cons, total_cons, List.sum_cons]
    omega

theorem causalBatch_isSome (hc : s.Closed) (hv : v ∈ s.vertices) :
    ∃ l, s.causalBatch v.hash = some l := by
  obtain ⟨l, hl⟩ := walk_isSome s.look v.hash (s.vertices.map (·.hash))
    (fun x next hx => by
      obtain ⟨-, w, hw, rfl, -⟩ := look_eq_inner.1 hx
      exact List.mem_map_of_mem hw)
    (fun x hx => by
      obtain ⟨w, hw, rfl⟩ := hc.reaches hv hx
      exact look_ne_missing hw)
    s.walkFuel [] [v.hash] [] (Inv.init _ _) (ahead_lt_walkFuel s v.hash)
  exact ⟨l.insertionSort s.batchLe, by simp [causalBatch, collectCausal, hl]⟩

theorem mem_causalBatch {anchor : Hash} {l : List Hash} (hl : s.causalBatch anchor = some l)
    (h : Hash) : h ∈ l ↔ s.InHistory anchor h := by
  obtain ⟨found, hf, rfl⟩ := Option.map_eq_some_iff.1 hl
  rw [List.mem_insertionSort]
  exact walk_spec s.look anchor s.walkFuel [] [anchor] [] found (Inv.init _ _) hf h

end Store

end BluePods
