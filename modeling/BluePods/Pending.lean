import BluePods.Production
import BluePods.Views

/-! A node that receives vertices in any order. A vertex whose parent is absent or whose
producer is unknown waits in a buffer, and every stored vertex makes the node go through
the buffer again until nothing more is stored. -/

namespace BluePods

variable {d d' d₁ : DAG} {v : Vertex}

/-! ## The buffer -/

/-- The order in which a node goes through its pending map: by round, and within a round
in any order. -/
structure PendingOrder where
  sorted : List Vertex → List Vertex
  perm : ∀ l, (sorted l).Perm l
  ascending : ∀ l, (sorted l).Pairwise fun a b => a.round ≤ b.round

/-- Within a round, in the order of arrival. -/
def PendingOrder.arrival : PendingOrder where
  sorted l := l.insertionSort fun a b => a.round ≤ b.round
  perm l := List.perm_insertionSort _ l
  ascending l :=
    have : Std.Total fun a b : Vertex => a.round ≤ b.round := ⟨fun _ _ => le_total _ _⟩
    have : IsTrans Vertex fun a b => a.round ≤ b.round := ⟨fun _ _ _ => le_trans⟩
    List.pairwise_insertionSort _ l

/-- What stays the same while a node receives vertices: its key and checks, how its
pending map is gone through, and the time of day it reads. -/
structure Receiver where
  signer : Signer
  order : PendingOrder := .arrival
  clock : ProducerState → UInt64 := fun _ => 0

/-- A node and the vertices that wait, one per hash. -/
structure Inbox where
  node : ProducerState
  pendingVertices : List Vertex := []
  nodup : (pendingVertices.map (·.hash)).Nodup := by decide

namespace Inbox

/-- The node's stored vertices. -/
def store (r : Inbox) : Store := r.node.dag.store

def bufferPendingVertex (r : Inbox) (v : Vertex) : Inbox :=
  if h : v.hash ∈ r.pendingVertices.map (·.hash) then r
  else
    { r with
      pendingVertices := r.pendingVertices ++ [v]
      nodup := by
        rw [List.map_append]
        exact r.nodup.append (List.nodup_singleton _) (by simpa using h) }

def removePendingVertex (r : Inbox) (hash : Hash) : Inbox :=
  { r with
    pendingVertices := r.pendingVertices.filter fun v => v.hash ≠ hash
    nodup := r.nodup.sublist (List.filter_sublist.map _) }

/-- The same buffer over another state of the node. -/
def withNode (r : Inbox) (node : ProducerState) : Inbox := { r with node }

end Inbox

/-! ## Receiving a vertex -/

/-- What becomes of a vertex once it is checked. -/
inductive Admission where
  | stored (quarantined : Bool)
  | buffered
  | rejected
  deriving DecidableEq

/-- A missing parent and an unknown producer may still turn up. -/
def VertexError.admission : VertexError → Admission
  | .missingParent _ | .unknownProducer => .buffered
  | .indexRoot => .stored true
  | _ => .rejected

def DAG.admission (d : DAG) (ck : VertexChecks) (v : Vertex) : Admission :=
  match d.validateVertex ck v with
  | .ok () => .stored false
  | .error e => e.admission

namespace Receiver

/-- A node whose committee has no minimum size produces as soon as a vertex arrives. -/
def onVertexAdded (e : Receiver) (s : ProducerState) (round : Nat) : ProducerState :=
  let s := { s with dag := s.dag.updateRound round }
  if 0 < s.dag.minValidators then s else s.produceVertex e.signer (e.clock s)

/-- Marks a quarantined vertex, stores the vertex and follows its round; also whether it
was new. -/
def storeVertex (e : Receiver) (s : ProducerState) (v : Vertex) (quarantined : Bool) :
    ProducerState × Bool :=
  let marked : Store :=
    if quarantined then
      { s.dag.store with quarantinedVertices := v.hash :: s.dag.store.quarantinedVertices }
    else s.dag.store
  match marked.add v with
  | (_, false) => ({ s with dag := s.dag.withStore marked }, false)
  | (store, true) => (e.onVertexAdded { s with dag := s.dag.withStore store } v.round, true)

/-- One entry of the buffer is checked again; also the number stored so far. -/
def retry (e : Receiver) (acc : Inbox × Nat) (v : Vertex) : Inbox × Nat :=
  match acc.1.node.dag.admission e.signer.checks v with
  | .buffered => acc
  | .rejected => (acc.1.removePendingVertex v.hash, acc.2)
  | .stored quarantined =>
    let (node, added) := e.storeVertex acc.1.node v quarantined
    ((acc.1.withNode node).removePendingVertex v.hash, if added then acc.2 + 1 else acc.2)

def tryProcessPending (e : Receiver) (r : Inbox) : Inbox × Nat :=
  (e.order.sorted r.pendingVertices).foldl e.retry (r, 0)

/-- Goes through the buffer until a pass stores nothing. -/
def processPending (e : Receiver) : Nat → Inbox → Inbox
  | 0, r => r
  | fuel + 1, r =>
    let (r', processed) := e.tryProcessPending r
    if processed = 0 then r' else e.processPending fuel r'

/-- Each pass that stores something shortens the buffer. -/
def processPendingVertices (e : Receiver) (r : Inbox) : Inbox :=
  e.processPending (r.pendingVertices.length + 1) r

def addVertex (e : Receiver) (r : Inbox) (v : Vertex) : Inbox :=
  if r.store.has v.hash then r
  else
    match r.node.dag.admission e.signer.checks v with
    | .buffered => r.bufferPendingVertex v
    | .rejected => r
    | .stored quarantined =>
      match e.storeVertex r.node v quarantined with
      | (node, false) => r.withNode node
      | (node, true) => e.processPendingVertices (r.withNode node)

/-- Deliveries one after another. -/
def deliver (e : Receiver) (r : Inbox) (deliveries : List Vertex) : Inbox :=
  deliveries.foldl e.addVertex r

end Receiver

/-! ## What the checks read -/

namespace DAG

/-- `d'` is `d` with more vertices, another round cursor or out of sync mode. -/
def SameRules (d d' : DAG) : Prop :=
  d' = { d with
    store := d'.store, currentRound := d'.currentRound, syncModeActive := d'.syncModeActive }

theorem SameRules.refl (d : DAG) : d.SameRules d := rfl

theorem SameRules.trans {d₂ d₃ : DAG} (h₁ : d₁.SameRules d₂) (h₂ : d₂.SameRules d₃) :
    d₁.SameRules d₃ := by
  unfold SameRules at *
  rw [h₂, h₁]

theorem SameRules.withStore (d : DAG) (s : Store) : d.SameRules (d.withStore s) := rfl

theorem SameRules.updateRound (d : DAG) (round : Nat) : d.SameRules (d.updateRound round) := by
  unfold DAG.updateRound
  split <;> rfl

theorem SameRules.disableSyncMode (d : DAG) : d.SameRules d.disableSyncMode := rfl

theorem updateRound_store (d : DAG) (round : Nat) : (d.updateRound round).store = d.store := by
  unfold DAG.updateRound
  split <;> rfl

/-- What a vertex must satisfy whatever the node has stored. -/
structure Sound (d : DAG) (ck : VertexChecks) (v : Vertex) : Prop where
  producer : d.validateProducer v = .ok ()
  signature : ck.signature v = true
  epoch : d.validateEpoch v = .ok ()
  parents : v.round ≠ 0 → v.parents ≠ []
  quorum : d.validateParentsQuorum v = .ok ()
  feeSummary : ck.feeSummary v = true

namespace SameRules

variable (h : d.SameRules d')

include h

theorem sound (ck : VertexChecks) (v : Vertex) : d'.Sound ck v ↔ d.Sound ck v := by
  rw [h]
  exact ⟨fun h => { h with }, fun h => { h with }⟩

theorem window (round : Nat) :
    d'.isRoundInTransitionOrBuffer round = d.isRoundInTransitionOrBuffer round := by
  rw [h]
  rfl

theorem validators : d'.validators = d.validators := by
  rw [h]

theorem minValidators : d'.minValidators = d.minValidators := by
  rw [h]

/-- The verdict on a vertex reads the store by hash only. -/
theorem admission (hget : ∀ x, d'.store.get x = d.store.get x) (ck : VertexChecks)
    (v : Vertex) : d'.admission ck v = d.admission ck v := by
  have hlink : d'.validateParentLink = d.validateParentLink := by
    funext link round
    unfold validateParentLink
    rw [hget, h.validators]
  have hparents : d'.validateParents v = d.validateParents v := by
    unfold validateParents
    rw [hlink]
  have hvertex : d'.validateVertex ck v = d.validateVertex ck v := by
    unfold validateVertex
    rw [hparents, h]
    rfl
  unfold DAG.admission
  rw [hvertex]

end SameRules

/-! ## When a vertex is stored -/

theorem forM_eq_ok {α ε : Type} {f : α → Except ε Unit} {l : List α} :
    l.forM f = .ok () ↔ ∀ x ∈ l, f x = .ok () := by
  induction l with
  | nil => exact ⟨fun _ x hx => absurd hx List.not_mem_nil, fun _ => rfl⟩
  | cons a rest ih =>
    change (f a >>= fun _ => rest.forM f) = _ ↔ _
    cases ha : f a with
    | error e =>
      have hne : ¬ ∀ x ∈ a :: rest, f x = .ok () := by
        intro hall
        have := hall a List.mem_cons_self
        rw [ha] at this
        cases this
      exact ⟨nofun, fun h => absurd h hne⟩
    | ok u =>
      refine ih.trans ?_
      simp [ha]

theorem exists_of_forM_eq_error {α ε : Type} {f : α → Except ε Unit} {l : List α} {e : ε}
    (h : l.forM f = .error e) : ∃ x ∈ l, f x = .error e := by
  induction l with
  | nil => cases h
  | cons a rest ih =>
    change (f a >>= fun _ => rest.forM f) = _ at h
    cases ha : f a with
    | error e' =>
      rw [ha] at h
      cases h
      exact ⟨a, List.mem_cons_self, ha⟩
    | ok u =>
      rw [ha] at h
      obtain ⟨x, hx, hf⟩ := ih h
      exact ⟨x, List.mem_cons_of_mem _ hx, hf⟩

variable {d : DAG} {ck : VertexChecks} {v : Vertex}

/-- Outside the window a sound vertex is decided by its parents and its index root. -/
theorem Sound.validateVertex (hs : d.Sound ck v)
    (hw : d.isRoundInTransitionOrBuffer v.round = false) :
    d.validateVertex ck v = (do d.validateParents v; if d.anchorLie v then throw .indexRoot) := by
  unfold DAG.validateVertex
  rw [hs.producer, hs.signature, hs.epoch, hs.quorum, hs.feeSummary, hw]
  rfl

/-- A check whose result stores the vertex. -/
def Stores (r : Except VertexError Unit) : Prop := r = .ok () ∨ r = .error .indexRoot

theorem Stores.of_bind {x : Except VertexError Unit} {f : Unit → Except VertexError Unit}
    (hx : x ≠ .error .indexRoot) (h : Stores (x >>= f)) : x = .ok () ∧ Stores (f ()) := by
  cases x with
  | error e =>
    have he : e ≠ .indexRoot := fun he => hx (by rw [he])
    rcases h with h | h
    · cases h
    · exact absurd (Except.error.inj h) he
  | ok u => exact ⟨rfl, h⟩

theorem stores_of_admission {q : Bool} (h : d.admission ck v = .stored q) :
    Stores (d.validateVertex ck v) := by
  unfold DAG.admission at h
  cases hv : d.validateVertex ck v with
  | ok u => exact .inl rfl
  | error e =>
    rw [hv] at h
    cases e <;> first | exact .inr rfl | cases h

theorem validateProducer_ne_indexRoot : d.validateProducer v ≠ .error .indexRoot := by
  unfold validateProducer
  split
  · nofun
  · split <;> nofun

theorem validateEpoch_ne_indexRoot : d.validateEpoch v ≠ .error .indexRoot := by
  unfold validateEpoch
  dsimp only
  split <;> split <;> nofun

theorem validateParentLink_ne_indexRoot (link : VertexLink) (round : Nat) :
    d.validateParentLink link round ≠ .error .indexRoot := by
  unfold validateParentLink
  split <;> split <;> nofun

theorem validateParents_ne_indexRoot : d.validateParents v ≠ .error .indexRoot := by
  unfold validateParents
  split
  · nofun
  · split
    · nofun
    · intro h
      obtain ⟨link, -, hlink⟩ := exists_of_forM_eq_error h
      exact validateParentLink_ne_indexRoot link v.round hlink

theorem validateParentsQuorum_ne_indexRoot : d.validateParentsQuorum v ≠ .error .indexRoot := by
  unfold validateParentsQuorum
  split
  · nofun
  · split
    · nofun
    · split <;> nofun

theorem validateParents_eq_ok : d.validateParents v = .ok () ↔
    (v.round ≠ 0 → v.parents ≠ [] ∧
      ∀ link ∈ v.parents, d.validateParentLink link v.round = .ok ()) := by
  unfold validateParents
  by_cases hr : v.round = 0
  · simp [hr]
  · rw [if_neg hr]
    cases hp : v.parents with
    | nil => simp [hr]
    | cons link rest =>
      simp only [List.isEmpty_cons, Bool.false_eq_true, if_false]
      rw [forM_eq_ok]
      simp [hr]

/-- Outside the window exactly the sound vertices whose parents pass are stored. -/
theorem exists_admission_stored (hw : d.isRoundInTransitionOrBuffer v.round = false) :
    (∃ q, d.admission ck v = .stored q) ↔ d.Sound ck v ∧ d.validateParents v = .ok () := by
  constructor
  · rintro ⟨q, h⟩
    have hst := stores_of_admission h
    unfold DAG.validateVertex at hst
    rw [hw] at hst
    obtain ⟨hproducer, hst⟩ := hst.of_bind validateProducer_ne_indexRoot
    cases hsig : ck.signature v with
    | false =>
      rw [hsig] at hst
      rcases hst with hst | hst <;> cases hst
    | true =>
      rw [hsig] at hst
      obtain ⟨hepoch, hst⟩ := hst.of_bind validateEpoch_ne_indexRoot
      obtain ⟨hparents, hst⟩ := hst.of_bind validateParents_ne_indexRoot
      obtain ⟨hquorum, hst⟩ := hst.of_bind validateParentsQuorum_ne_indexRoot
      cases hfee : ck.feeSummary v with
      | false =>
        rw [hfee] at hst
        rcases hst with hst | hst <;> cases hst
      | true =>
        have hne : v.round ≠ 0 → v.parents ≠ [] := fun hr =>
          (validateParents_eq_ok.1 hparents hr).1
        exact ⟨⟨hproducer, hsig, hepoch, hne, hquorum, hfee⟩, hparents⟩
  · rintro ⟨hs, hp⟩
    unfold DAG.admission
    rw [hs.validateVertex hw, hp]
    cases d.anchorLie v with
    | false => exact ⟨false, rfl⟩
    | true => exact ⟨true, rfl⟩

/-- A sound vertex is turned away for good only by a stored parent of another round. -/
theorem Sound.of_rejected (hs : d.Sound ck v) (hw : d.isRoundInTransitionOrBuffer v.round = false)
    (h : d.admission ck v = .rejected) :
    v.round ≠ 0 ∧ ∃ link ∈ v.parents, ∃ u ∈ d.store.vertices,
      u.hash = link.hash ∧ u.round ≠ v.round - 1 := by
  unfold DAG.admission at h
  rw [hs.validateVertex hw] at h
  cases hp : d.validateParents v with
  | ok u =>
    rw [hp] at h
    cases hl : d.anchorLie v with
    | false | true =>
      rw [hl] at h
      cases h
  | error e =>
    rw [hp] at h
    unfold validateParents at hp
    by_cases hr : v.round = 0
    · simp [hr] at hp
    · rw [if_neg hr] at hp
      split at hp
      · exact absurd (List.isEmpty_iff.1 ‹_›) (hs.parents hr)
      · obtain ⟨link, hlink, hbad⟩ := exists_of_forM_eq_error hp
        refine ⟨hr, link, hlink, ?_⟩
        unfold validateParentLink at hbad
        cases hg : d.store.get link.hash with
        | none =>
          rw [hg] at hbad
          simp only at hbad
          split at hbad
          · cases hbad
            cases h
          · cases hbad
        | some u =>
          rw [hg] at hbad
          simp only at hbad
          obtain ⟨hu, hh⟩ := Store.get_eq_some.1 hg
          split at hbad
          · exact ⟨u, hu, hh, ‹_›⟩
          · cases hbad

end DAG

/-! ## How a node's vertices grow -/

/-- `d'` holds one more vertex than `d`. -/
structure DAG.Adds (d : DAG) (v : Vertex) (d' : DAG) : Prop where
  rules : d.SameRules d'
  vertices : d'.store.vertices = d.store.vertices ++ [v]
  floor : d'.store.belowCommitFloor = d.store.belowCommitFloor

/-- `d'` holds the vertices of `d`; marks and cursors may differ. -/
structure DAG.SameVertices (d d' : DAG) : Prop where
  rules : d.SameRules d'
  vertices : d'.store.vertices = d.store.vertices
  floor : d'.store.belowCommitFloor = d.store.belowCommitFloor

theorem DAG.SameVertices.get (h : d.SameVertices d') (x : Hash) :
    d'.store.get x = d.store.get x := by
  unfold Store.get
  rw [h.vertices]

namespace Receiver

variable {x : Vertex} {s : ProducerState} {r : Inbox}

/-- A vertex may join `d`: it was received and passed, or the node built it itself, as a
member that produces on arrival. -/
inductive Joins (e : Receiver) (U : Vertex → Prop) (d : DAG) (v : Vertex) : Prop
  | received (q : Bool) : U v → d.admission e.signer.checks v = .stored q → Joins e U d v
  | produced (s : ProducerState) (now : UInt64) :
      s.dag = d → d.minValidators = 0 → e.signer.listenerMode = false →
      d.validators.contains e.signer.pubKey = true → v = s.nextVertex e.signer now → Joins e U d v

/-- Everything receiving vertices of `U` can do to a node's DAG. -/
inductive Grown (e : Receiver) (U : Vertex → Prop) (d : DAG) : DAG → Prop
  | refl : Grown e U d d
  | same {d₁ d₂ : DAG} : Grown e U d d₁ → d₁.SameVertices d₂ → Grown e U d d₂
  | add {d₁ d₂ : DAG} {v : Vertex} :
      Grown e U d d₁ → e.Joins U d₁ v → d₁.Adds v d₂ → Grown e U d d₂

variable {e : Receiver} {U : Vertex → Prop}

theorem Grown.trans {d₂ d₃ : DAG} (h₁ : e.Grown U d₁ d₂) (h₂ : e.Grown U d₂ d₃) :
    e.Grown U d₁ d₃ := by
  induction h₂ with
  | refl => exact h₁
  | same _ hs ih => exact .same ih hs
  | add _ hj ha ih => exact .add ih hj ha

theorem Grown.rules (h : e.Grown U d d') : d.SameRules d' := by
  induction h with
  | refl => exact .refl d
  | same _ hs ih => exact ih.trans hs.rules
  | add _ _ ha ih => exact ih.trans ha.rules

theorem Grown.mono (h : e.Grown U d d') (hx : x ∈ d.store.vertices) : x ∈ d'.store.vertices := by
  induction h with
  | refl => exact hx
  | same _ hs ih => rwa [hs.vertices]
  | add _ _ ha ih =>
    rw [ha.vertices]
    exact List.mem_append_left _ ih

theorem add_eq {s : Store} (h : s.has v.hash = false) :
    (s.add v).2 = true ∧ (s.add v).1.vertices = s.vertices ++ [v] ∧
      (s.add v).1.belowCommitFloor = s.belowCommitFloor := by
  unfold Store.add
  rw [dif_neg (by simp [h])]
  exact ⟨rfl, rfl, rfl⟩

theorem add_eq_of_has {s : Store} (h : s.has v.hash = true) : s.add v = (s, false) := by
  unfold Store.add
  rw [dif_pos h]

/-- Producing adds nothing, or the node's own next vertex. -/
theorem produceVertex_grown (e : Receiver) (U : Vertex → Prop) (s : ProducerState) (now : UInt64)
    (hmin : s.dag.minValidators = 0) : e.Grown U s.dag (s.produceVertex e.signer now).dag := by
  unfold ProducerState.produceVertex
  by_cases hl : e.signer.listenerMode = true
  · rw [if_pos hl]
    exact .refl
  rw [if_neg hl]
  by_cases hm : s.dag.validators.contains e.signer.pubKey = true
  · rw [if_neg (by simp [hm])]
    dsimp only
    split
    · exact .refl
    · cases hown : e.signer.addOwnVertex s.dag (s.nextVertex e.signer now) with
      | none => exact .refl
      | some d =>
        have hjoin : e.Joins U s.dag (s.nextVertex e.signer now) :=
          .produced s now rfl hmin (by simpa using hl) hm rfl
        refine .add .refl hjoin ?_
        unfold Signer.addOwnVertex at hown
        cases hhas : s.dag.store.has (s.nextVertex e.signer now).hash with
        | true =>
          rw [add_eq_of_has hhas] at hown
          split at hown
          · cases hown
          · split at hown <;> cases hown
        | false =>
          obtain ⟨hnew, hvertices, hfloor⟩ := add_eq hhas
          cases hadd : s.dag.store.add (s.nextVertex e.signer now) with
          | mk store added =>
            rw [hadd] at hown hnew hvertices hfloor
            cases hnew
            split at hown
            · cases hown
            · split at hown
              · cases hown
              · cases hown
                refine ⟨?_, ?_, ?_⟩
                · exact ((DAG.SameRules.withStore _ _).trans (.disableSyncMode _)).trans
                    (.updateRound _ _)
                · rw [DAG.updateRound_store]
                  exact hvertices
                · rw [DAG.updateRound_store]
                  exact hfloor
  · rw [if_pos (by simpa using hm)]
    exact .refl

theorem onVertexAdded_grown (e : Receiver) (U : Vertex → Prop) (s : ProducerState)
    (round : Nat) : e.Grown U s.dag (e.onVertexAdded s round).dag := by
  have hround : e.Grown U s.dag (s.dag.updateRound round) :=
    .same .refl ⟨.updateRound _ _, by rw [DAG.updateRound_store], by rw [DAG.updateRound_store]⟩
  unfold onVertexAdded
  dsimp only
  split
  · exact hround
  · rename_i hmin
    have hzero : (s.dag.updateRound round).minValidators = 0 := by simpa using hmin
    exact hround.trans
      (produceVertex_grown e U { s with dag := s.dag.updateRound round } _ hzero)

/-- The store with a quarantined vertex's mark. -/
private def marked (s : Store) (v : Vertex) (quarantined : Bool) : Store :=
  if quarantined then { s with quarantinedVertices := v.hash :: s.quarantinedVertices } else s

private theorem marked_eq (s : Store) (v : Vertex) (q : Bool) :
    (marked s v q).vertices = s.vertices ∧
      (marked s v q).belowCommitFloor = s.belowCommitFloor := by
  cases q <;> exact ⟨rfl, rfl⟩

private theorem has_marked (s : Store) (v : Vertex) (q : Bool) (x : Hash) :
    (marked s v q).has x = s.has x := by
  cases q <;> rfl

theorem storeVertex_of_has (h : s.dag.store.has v.hash = true) (q : Bool) :
    (e.storeVertex s v q).2 = false ∧ s.dag.SameVertices (e.storeVertex s v q).1.dag := by
  have hm : (marked s.dag.store v q).has v.hash = true := (has_marked ..).trans h
  have heq : e.storeVertex s v q =
      ({ s with dag := s.dag.withStore (marked s.dag.store v q) }, false) := by
    unfold storeVertex
    change (match (marked s.dag.store v q).add v with | (_, false) => _ | (store, true) => _) = _
    rw [add_eq_of_has hm]
    rfl
  rw [heq]
  obtain ⟨hvertices, hfloor⟩ := marked_eq s.dag.store v q
  exact ⟨rfl, .withStore _ _, hvertices, hfloor⟩

/-- A new vertex is added first; whatever follows only adds more. -/
theorem storeVertex_of_new (h : s.dag.store.has v.hash = false) (q : Bool) :
    (e.storeVertex s v q).2 = true ∧
      ∃ s₁ : ProducerState, s.dag.Adds v s₁.dag ∧
        (e.storeVertex s v q).1 = e.onVertexAdded s₁ v.round := by
  have hm : (marked s.dag.store v q).has v.hash = false := (has_marked ..).trans h
  obtain ⟨hnew, hvertices, hfloor⟩ := add_eq hm
  obtain ⟨hvertices', hfloor'⟩ := marked_eq s.dag.store v q
  cases hadd : (marked s.dag.store v q).add v with
  | mk store added =>
    rw [hadd] at hnew hvertices hfloor
    cases hnew
    have heq : e.storeVertex s v q =
        (e.onVertexAdded { s with dag := s.dag.withStore store } v.round, true) := by
      unfold storeVertex
      change (match (marked s.dag.store v q).add v with
        | (_, false) => _ | (store, true) => _) = _
      rw [hadd]
    rw [heq]
    refine ⟨rfl, { s with dag := s.dag.withStore store }, ⟨.withStore _ _, ?_, ?_⟩, rfl⟩
    · rw [DAG.withStore_store, hvertices, hvertices']
    · rw [DAG.withStore_store, hfloor, hfloor']

theorem storeVertex_grown (hU : U v) {q : Bool}
    (hq : s.dag.admission e.signer.checks v = .stored q) :
    e.Grown U s.dag (e.storeVertex s v q).1.dag := by
  cases h : s.dag.store.has v.hash with
  | true => exact .same .refl (storeVertex_of_has h q).2
  | false =>
    obtain ⟨-, s₁, hadds, heq⟩ := storeVertex_of_new (e := e) h q
    rw [heq]
    exact (Grown.add .refl (.received q hU hq) hadds).trans (onVertexAdded_grown e U s₁ _)

/-! ## Going through the buffer -/

theorem mem_removePendingVertex {h : Hash} :
    x ∈ (r.removePendingVertex h).pendingVertices ↔ x ∈ r.pendingVertices ∧ x.hash ≠ h := by
  simp [Inbox.removePendingVertex]

section

variable (e) (acc : Inbox × Nat)

/-- What checking one entry again does: nothing, or the entry leaves the buffer, and then
it may have been stored. -/
theorem retry_cases (v : Vertex) :
    (acc.1.node.dag.admission e.signer.checks v = .buffered ∧ e.retry acc v = acc) ∨
      (acc.1.node.dag.admission e.signer.checks v = .rejected ∧
        e.retry acc v = (acc.1.removePendingVertex v.hash, acc.2)) ∨
      ∃ q, acc.1.node.dag.admission e.signer.checks v = .stored q ∧
        e.retry acc v =
          ((acc.1.withNode (e.storeVertex acc.1.node v q).1).removePendingVertex v.hash,
            if (e.storeVertex acc.1.node v q).2 then acc.2 + 1 else acc.2) := by
  unfold retry
  cases acc.1.node.dag.admission e.signer.checks v with
  | buffered => exact .inl ⟨rfl, rfl⟩
  | rejected => exact .inr (.inl ⟨rfl, rfl⟩)
  | stored q => exact .inr (.inr ⟨q, rfl, rfl⟩)

theorem retry_pending (v x : Vertex) (hx : x ∈ (e.retry acc v).1.pendingVertices) :
    x ∈ acc.1.pendingVertices := by
  rcases e.retry_cases acc v with ⟨-, heq⟩ | ⟨-, heq⟩ | ⟨q, -, heq⟩ <;> rw [heq] at hx
  · exact hx
  · exact (mem_removePendingVertex.1 hx).1
  · exact (mem_removePendingVertex.1 hx).1

theorem retry_grown (hU : U v) : e.Grown U acc.1.node.dag (e.retry acc v).1.node.dag := by
  rcases e.retry_cases acc v with ⟨-, heq⟩ | ⟨-, heq⟩ | ⟨q, hq, heq⟩ <;> rw [heq]
  · exact .refl
  · exact .refl
  · exact storeVertex_grown hU hq

end

theorem foldl_retry_pending (e : Receiver) (l : List Vertex) (acc : Inbox × Nat) (x : Vertex)
    (hx : x ∈ (l.foldl e.retry acc).1.pendingVertices) : x ∈ acc.1.pendingVertices := by
  induction l generalizing acc with
  | nil => exact hx
  | cons v rest ih => exact e.retry_pending acc v x (ih _ hx)

theorem foldl_retry_grown (e : Receiver) (l : List Vertex) (hU : ∀ v ∈ l, U v)
    (acc : Inbox × Nat) : e.Grown U acc.1.node.dag (l.foldl e.retry acc).1.node.dag := by
  induction l generalizing acc with
  | nil => exact .refl
  | cons v rest ih =>
    have hfirst := e.retry_grown acc (hU v List.mem_cons_self)
    exact hfirst.trans (ih (fun x hx => hU x (List.mem_cons_of_mem _ hx)) _)

/-- Receiving keeps the buffer within `U`, and the node grows by vertices of `U`. -/
structure Received (e : Receiver) (U : Vertex → Prop) (r r' : Inbox) : Prop where
  grown : e.Grown U r.node.dag r'.node.dag
  pending : ∀ v ∈ r'.pendingVertices, U v

theorem Received.trans {r₁ r₂ r₃ : Inbox} (h₁ : e.Received U r₁ r₂) (h₂ : e.Received U r₂ r₃) :
    e.Received U r₁ r₃ :=
  ⟨h₁.grown.trans h₂.grown, h₂.pending⟩

theorem tryProcessPending_received (hU : ∀ v ∈ r.pendingVertices, U v) :
    e.Received U r (e.tryProcessPending r).1 := by
  refine ⟨?_, ?_⟩
  · exact e.foldl_retry_grown _ (fun v hv => hU v ((e.order.perm _).mem_iff.1 hv)) (r, 0)
  · intro v hv
    exact hU v (e.foldl_retry_pending _ (r, 0) v hv)

theorem processPending_received (fuel : Nat) (hU : ∀ v ∈ r.pendingVertices, U v) :
    e.Received U r (e.processPending fuel r) := by
  induction fuel generalizing r with
  | zero => exact ⟨.refl, hU⟩
  | succ fuel ih =>
    have hpass := tryProcessPending_received (e := e) hU
    unfold processPending
    dsimp only
    split
    · exact hpass
    · exact hpass.trans (ih hpass.pending)

theorem mem_bufferPendingVertex (hx : x ∈ (r.bufferPendingVertex v).pendingVertices) :
    x ∈ r.pendingVertices ∨ x = v := by
  unfold Inbox.bufferPendingVertex at hx
  split at hx
  · exact .inl hx
  · simpa using hx

theorem bufferPendingVertex_node (r : Inbox) (v : Vertex) :
    (r.bufferPendingVertex v).node = r.node := by
  unfold Inbox.bufferPendingVertex
  split <;> rfl

theorem addVertex_cases (e : Receiver) (r : Inbox) (v : Vertex) :
    (r.store.has v.hash = true ∧ e.addVertex r v = r) ∨
      r.store.has v.hash = false ∧
        ((r.node.dag.admission e.signer.checks v = .buffered ∧
            e.addVertex r v = r.bufferPendingVertex v) ∨
          (r.node.dag.admission e.signer.checks v = .rejected ∧ e.addVertex r v = r) ∨
          ∃ q, r.node.dag.admission e.signer.checks v = .stored q ∧
            e.addVertex r v =
              e.processPendingVertices (r.withNode (e.storeVertex r.node v q).1)) := by
  unfold addVertex
  cases hhas : r.store.has v.hash with
  | true => exact .inl ⟨rfl, rfl⟩
  | false =>
    refine .inr ⟨rfl, ?_⟩
    cases r.node.dag.admission e.signer.checks v with
    | buffered => exact .inl ⟨rfl, rfl⟩
    | rejected => exact .inr (.inl ⟨rfl, rfl⟩)
    | stored q =>
      refine .inr (.inr ⟨q, rfl, ?_⟩)
      have hnew := (storeVertex_of_new (e := e) (s := r.node) hhas q).1
      cases hst : e.storeVertex r.node v q with
      | mk node added =>
        rw [hst] at hnew
        cases hnew
        simp only [Bool.false_eq_true, if_false, hst]

theorem addVertex_received (hU : ∀ x ∈ r.pendingVertices, U x) (hv : U v) :
    e.Received U r (e.addVertex r v) := by
  rcases e.addVertex_cases r v with ⟨-, heq⟩ | ⟨-, ⟨-, heq⟩ | ⟨-, heq⟩ | ⟨q, hq, heq⟩⟩ <;> rw [heq]
  · exact ⟨.refl, hU⟩
  · refine ⟨?_, ?_⟩
    · rw [bufferPendingVertex_node]
      exact .refl
    · intro x hx
      rcases mem_bufferPendingVertex hx with hx | rfl
      · exact hU x hx
      · exact hv
  · exact ⟨.refl, hU⟩
  · have hstored : e.Received U r (r.withNode (e.storeVertex r.node v q).1) :=
      ⟨storeVertex_grown hv hq, hU⟩
    exact hstored.trans (processPending_received _ hU)

theorem deliver_received (hU : ∀ x ∈ r.pendingVertices, U x) {l : List Vertex} (hl : ∀ v ∈ l, U v) :
    e.Received U r (e.deliver r l) := by
  induction l generalizing r with
  | nil => exact ⟨.refl, hU⟩
  | cons v rest ih =>
    have hfirst := addVertex_received (e := e) hU (hl v List.mem_cons_self)
    exact hfirst.trans (ih hfirst.pending fun x hx => hl x (List.mem_cons_of_mem _ hx))

end Receiver

/-! ## Causal closure -/

/-- Every parent of a stored vertex above the floor is stored, in the round before. -/
def Store.CausallyClosed (s : Store) : Prop :=
  ∀ v ∈ s.vertices, 1 ≤ v.round → s.belowCommitFloor v.round = false →
    ∀ p ∈ v.parentHashes, ∃ u ∈ s.vertices, u.hash = p ∧ u.round + 1 = v.round

instance (s : Store) : Decidable s.CausallyClosed :=
  inferInstanceAs (Decidable (∀ v ∈ s.vertices, 1 ≤ v.round →
    s.belowCommitFloor v.round = false →
    ∀ p ∈ v.parentHashes, ∃ u ∈ s.vertices, u.hash = p ∧ u.round + 1 = v.round))

/-- Each parent link of `v` names a validator, or a vertex the node already stores. -/
def DAG.NamesKnown (d : DAG) (v : Vertex) : Prop :=
  1 ≤ v.round → ∀ link ∈ v.parents,
    d.validators.contains link.producer = true ∨ d.store.has link.hash = true

namespace DAG

theorem parent_of_validateParentLink {link : VertexLink} {round : Nat}
    (h : d.validateParentLink link round = .ok ())
    (hknown : d.validators.contains link.producer = true ∨ d.store.has link.hash = true) :
    ∃ u ∈ d.store.vertices, u.hash = link.hash ∧ u.round = round - 1 := by
  unfold validateParentLink at h
  cases hg : d.store.get link.hash with
  | none =>
    rw [hg] at h
    rcases hknown with hc | hs
    · simp [hc] at h
    · simp [Store.has, hg] at hs
  | some u =>
    rw [hg] at h
    obtain ⟨hu, hh⟩ := Store.get_eq_some.1 hg
    refine ⟨u, hu, hh, ?_⟩
    by_contra hr
    simp [hr] at h

/-- A node's own vertex cites stored vertices of the round before. -/
theorem mem_collectParents {round : Nat} {p : Hash} (hp : p ∈ d.collectParents round) :
    ∃ u ∈ d.store.vertices, u.hash = p ∧ u.round + 1 = round := by
  unfold collectParents at hp
  by_cases hr : round = 0
  · simp [hr] at hp
  · rw [if_neg hr] at hp
    have hround : p ∈ d.store.getByRound (round - 1) := by
      unfold referenceableParents at hp
      have hsub := List.mem_of_mem_filter hp
      split at hsub
      · exact List.mem_of_mem_filter hsub
      · exact hsub
    obtain ⟨u, hu, hur, hh⟩ := Store.mem_getByRound.1 hround
    exact ⟨u, hu, hh, by omega⟩

theorem parentHashes_buildVertex (w : Signer) (d : DAG) (round : Nat) (parents : List Hash)
    (txs : List Bytes) (now : UInt64) :
    (w.buildVertex d round parents txs now).parentHashes = parents := by
  have hlink : ∀ p, (d.vertexLink p).hash = p := by
    intro p
    unfold vertexLink
    split <;> rfl
  change ((parents.map d.vertexLink).map (·.hash)) = parents
  rw [List.map_map]
  exact (List.map_congr_left fun p _ => hlink p).trans (List.map_id _)

end DAG

namespace Receiver

variable {e : Receiver} {U : Vertex → Prop}

/-- Whatever joins a node brings its parents' links with it. -/
theorem Joins.parents (hrules : d.SameRules d₁)
    (hmono : ∀ x ∈ d.store.vertices, x ∈ d₁.store.vertices)
    (hU : ∀ v, U v → d.isRoundInTransitionOrBuffer v.round = false ∧ d.NamesKnown v)
    (hj : e.Joins U d₁ v) (hround : 1 ≤ v.round) :
    ∀ p ∈ v.parentHashes, ∃ u ∈ d₁.store.vertices, u.hash = p ∧ u.round + 1 = v.round := by
  intro p hp
  cases hj with
  | received q hv hq =>
    obtain ⟨hwindow, hnames⟩ := hU v hv
    obtain ⟨-, hparents⟩ :=
      (DAG.exists_admission_stored ((hrules.window _).trans hwindow)).1 ⟨q, hq⟩
    obtain ⟨link, hlink, rfl⟩ := List.mem_map.1 hp
    have hok := (DAG.validateParents_eq_ok.1 hparents (by omega)).2 link hlink
    have hknown : d₁.validators.contains link.producer = true ∨
        d₁.store.has link.hash = true := by
      rcases hnames hround link hlink with hc | hs
      · exact .inl (by rwa [hrules.validators])
      · obtain ⟨u, hg⟩ := Option.isSome_iff_exists.1 hs
        obtain ⟨hu, hh⟩ := Store.get_eq_some.1 hg
        exact .inr (Option.isSome_iff_exists.2 ⟨u, Store.get_eq_some.2 ⟨hmono u hu, hh⟩⟩)
    obtain ⟨u, hu, hh, hr⟩ := DAG.parent_of_validateParentLink hok hknown
    exact ⟨u, hu, hh, by omega⟩
  | produced s now hd _ _ _ hv =>
    rw [hv, ProducerState.nextVertex, DAG.parentHashes_buildVertex, hd] at hp
    rw [hv]
    exact DAG.mem_collectParents hp

theorem Grown.causallyClosed (h : e.Grown U d d')
    (hU : ∀ v, U v → d.isRoundInTransitionOrBuffer v.round = false ∧ d.NamesKnown v)
    (hd : d.store.CausallyClosed) : d'.store.CausallyClosed := by
  induction h with
  | refl => exact hd
  | same _ hs ih =>
    unfold Store.CausallyClosed
    rw [hs.vertices, hs.floor]
    exact ih
  | @add d₁ d₂ v hgrown hj ha ih =>
    unfold Store.CausallyClosed
    rw [ha.vertices, ha.floor]
    intro x hx hround hfloor p hp
    have hold : ∃ u ∈ d₁.store.vertices, u.hash = p ∧ u.round + 1 = x.round := by
      rcases List.mem_append.1 hx with hx | hx
      · exact ih x hx hround hfloor p hp
      · obtain rfl := List.mem_singleton.1 hx
        exact hj.parents hgrown.rules (fun y hy => hgrown.mono hy) hU hround p hp
    obtain ⟨u, hu, hrest⟩ := hold
    exact ⟨u, List.mem_append_left _ hu, hrest⟩

end Receiver

/-- A node that starts causally closed and receives vertices outside the transition
window stays closed after every delivery, as long as no delivered vertex attributes an
unstored parent to a producer outside the validator set. -/
theorem store_stays_causallyClosed (e : Receiver) (r : Inbox) (deliveries : List Vertex)
    (hclosed : r.store.CausallyClosed)
    (hwindow : ∀ v, v ∈ r.pendingVertices ∨ v ∈ deliveries →
      r.node.dag.isRoundInTransitionOrBuffer v.round = false)
    (hnames : ∀ v, v ∈ r.pendingVertices ∨ v ∈ deliveries → r.node.dag.NamesKnown v) :
    ∀ n, (e.deliver r (deliveries.take n)).store.CausallyClosed := by
  intro n
  have hreceived : e.Received (fun v => v ∈ r.pendingVertices ∨ v ∈ deliveries) r
      (e.deliver r (deliveries.take n)) :=
    Receiver.deliver_received (fun _ hx => .inl hx) fun _ hv => .inr (List.mem_of_mem_take hv)
  exact hreceived.grown.causallyClosed (fun v hv => ⟨hwindow v hv, hnames v hv⟩) hclosed

/-- A node of the committee that holds the vertices of round 0. -/
def memberInbox : Inbox where
  node :=
    { dag :=
        { committeeDag ⟨memberRoundZero, by decide +kernel, [], [], 0, false⟩ with
          minValidators := 4 } }
  pendingVertices := []
  nodup := List.nodup_nil

def memberReceiver : Receiver where
  signer := soloSigner

/-- A child that arrives before its parent and waits for it. -/
def childFirst : List Vertex :=
  [memberVertex 21 2 1 [(11, 1)], memberVertex 11 1 1 [(1, 1), (2, 2)]]

theorem store_stays_causallyClosed_member :
    (memberReceiver.deliver memberInbox childFirst).store.vertices =
        memberRoundZero ++ childFirst.reverse ∧
      ∀ n, (memberReceiver.deliver memberInbox (childFirst.take n)).store.CausallyClosed := by
  refine ⟨by decide +kernel, store_stays_causallyClosed memberReceiver memberInbox _ ?_ ?_ ?_⟩
  · decide +kernel
  · intro v _
    rfl
  · intro v hv
    rcases hv with hv | hv
    · cases hv
    · revert v
      unfold DAG.NamesKnown
      decide +kernel

/-- Member 4 attributes an unknown parent to a stranger and is stored without it. -/
theorem stranger_parent_left_open :
    memberInbox.store.CausallyClosed ∧
      (∀ round, memberInbox.node.dag.isRoundInTransitionOrBuffer round = false) ∧
      memberInbox.node.dag.minValidators ≤ memberInbox.node.dag.validators.len ∧
      ¬ (memberReceiver.deliver memberInbox
          [memberVertex 14 1 4 [(4, 4), (99, 9)]]).store.CausallyClosed :=
  ⟨by decide +kernel, fun _ => rfl, by decide +kernel, by decide +kernel⟩

end BluePods
