import BluePods.Pending

/-! The order in which vertices arrive. Where every link leads to the round before
whenever it leads anywhere, what a node ends up storing is the least set that holds a
vertex once its known parents are in it, in whichever order the vertices came. -/

namespace BluePods

variable {v : Vertex}

/-! ## What a set of vertices amounts to -/

namespace DAG

/-- `v` of round `n` is accepted over `d` once the vertices of `U` are all there: it is
sound, and each parent it attributes to a validator is stored or accepted. -/
def AcceptedAt (d : DAG) (ck : VertexChecks) (U : Vertex → Prop) : Nat → Vertex → Prop
  | 0, v => U v ∧ v.round = 0 ∧ d.Sound ck v
  | n + 1, v => U v ∧ v.round = n + 1 ∧ d.Sound ck v ∧
      ∀ link ∈ v.parents, d.validators.contains link.producer = true →
        ∃ u, u.hash = link.hash ∧
          (u ∈ d.store.vertices ∧ u.round = n ∨ AcceptedAt d ck U n u)

def Accepted (d : DAG) (ck : VertexChecks) (U : Vertex → Prop) (v : Vertex) : Prop :=
  d.AcceptedAt ck U v.round v

/-- The vertices of `U` may arrive at `d` in any order: they are outside the window, no
two share a hash, and a link attributed to a stranger leads to the round before if it
leads to one of them. -/
structure Orderly (d : DAG) (U : Vertex → Prop) : Prop where
  window : ∀ v, U v → d.isRoundInTransitionOrBuffer v.round = false
  identity : ∀ u v, U u ∨ u ∈ d.store.vertices → U v ∨ v ∈ d.store.vertices →
    u.hash = v.hash → u = v
  strangers : ∀ v, U v → 1 ≤ v.round → ∀ link ∈ v.parents,
    d.validators.contains link.producer = false →
      ∀ u, U u ∨ u ∈ d.store.vertices → u.hash = link.hash → u.round + 1 = v.round

variable {d : DAG} {ck : VertexChecks} {U : Vertex → Prop}

theorem AcceptedAt.mem {n : Nat} (h : d.AcceptedAt ck U n v) :
    U v ∧ v.round = n ∧ d.Sound ck v := by
  cases n with
  | zero => exact h
  | succ n => exact ⟨h.1, h.2.1, h.2.2.1⟩

theorem AcceptedAt.accepted {n : Nat} (h : d.AcceptedAt ck U n v) : d.Accepted ck U v := by
  unfold Accepted
  rwa [h.mem.2.1]

theorem Accepted.parent (h : d.Accepted ck U v) (hr : v.round ≠ 0) {link : VertexLink}
    (hlink : link ∈ v.parents) (hknown : d.validators.contains link.producer = true) :
    ∃ u, u.hash = link.hash ∧ u.round + 1 = v.round ∧
      (u ∈ d.store.vertices ∨ d.Accepted ck U u) := by
  obtain ⟨n, hn⟩ := Nat.exists_eq_succ_of_ne_zero hr
  unfold Accepted at h
  rw [hn] at h
  obtain ⟨u, hh, hu⟩ := h.2.2.2 link hlink hknown
  rcases hu with ⟨hu, hur⟩ | hu
  · exact ⟨u, hh, by omega, .inl hu⟩
  · have hur : u.round = n := hu.mem.2.1
    exact ⟨u, hh, by omega, .inr hu.accepted⟩

theorem Accepted.intro (hv : U v) (hs : d.Sound ck v)
    (hparents : v.round ≠ 0 → ∀ link ∈ v.parents,
      d.validators.contains link.producer = true →
        ∃ u, u.hash = link.hash ∧ u.round + 1 = v.round ∧
          (u ∈ d.store.vertices ∨ d.Accepted ck U u)) : d.Accepted ck U v := by
  unfold Accepted
  cases hr : v.round with
  | zero => exact ⟨hv, hr, hs⟩
  | succ n =>
    refine ⟨hv, hr, hs, ?_⟩
    intro link hlink hknown
    obtain ⟨u, hh, hur, hu⟩ := hparents (by omega) link hlink hknown
    have hun : u.round = n := by omega
    refine ⟨u, hh, ?_⟩
    rcases hu with hu | hu
    · exact .inl ⟨hu, hun⟩
    · unfold Accepted at hu
      rw [hun] at hu
      exact .inr hu

end DAG

namespace Receiver

variable {d' : DAG} {acc : Inbox × Nat} {l : List Vertex} {r : Inbox} {T : Vertex → Prop}
  {e : Receiver} {U : Vertex → Prop} {d : DAG}

/-- The node does not produce when a vertex arrives: its committee has a minimum size,
or it listens, or it is no validator. -/
def Passive (e : Receiver) (d : DAG) : Prop :=
  0 < d.minValidators ∨ e.signer.listenerMode = true ∨
    d.validators.contains e.signer.pubKey = false

theorem has_of_mem {s : Store} (h : v ∈ s.vertices) : s.has v.hash = true :=
  Option.isSome_iff_exists.2 ⟨v, Store.get_eq_some.2 ⟨h, rfl⟩⟩

namespace Grown

variable (hp : e.Passive d) (hU : d.Orderly U) (h : e.Grown U d d')

include hp hU h

theorem accepted :
    ∀ x ∈ d'.store.vertices, x ∈ d.store.vertices ∨ d.Accepted e.signer.checks U x := by
  induction h with
  | refl => exact fun x hx => .inl hx
  | same _ hs ih =>
    rw [hs.vertices]
    exact ih
  | @add d₁ d₂ v hgrown hj ha ih =>
    intro x hx
    rw [ha.vertices] at hx
    rcases List.mem_append.1 hx with hx | hx
    · exact ih x hx
    obtain rfl := List.mem_singleton.1 hx
    have hrules := hgrown.rules
    cases hj with
    | received q hv hq =>
      obtain ⟨hs, hparents⟩ :=
        (DAG.exists_admission_stored ((hrules.window _).trans (hU.window x hv))).1 ⟨q, hq⟩
      refine .inr (.intro hv ((hrules.sound _ _).1 hs) ?_)
      intro hr link hlink hknown
      have hok := (DAG.validateParents_eq_ok.1 hparents hr).2 link hlink
      obtain ⟨u, hu, hh, hur⟩ :=
        DAG.parent_of_validateParentLink hok (.inl (by rwa [hrules.validators]))
      exact ⟨u, hh, by omega, ih u hu⟩
    | produced s now _ hmin hlisten hmember _ =>
      -- a passive node signs nothing
      rw [hrules.minValidators] at hmin
      rw [hrules.validators] at hmember
      rcases hp with hp | hp | hp
      · omega
      · rw [hp] at hlisten
        cases hlisten
      · rw [hp] at hmember
        cases hmember

theorem origin {x : Vertex} (hx : x ∈ d'.store.vertices) : U x ∨ x ∈ d.store.vertices := by
  rcases h.accepted hp hU x hx with hx | hx
  · exact .inr hx
  · exact .inl hx.mem.1

theorem parent_round (hv : d.Accepted e.signer.checks U v) (hr : v.round ≠ 0) {link : VertexLink}
    (hlink : link ∈ v.parents) {u : Vertex} (hu : u ∈ d'.store.vertices) (hh : u.hash = link.hash) :
    u.round + 1 = v.round := by
  have hfrom := h.origin hp hU hu
  cases hknown : d.validators.contains link.producer with
  | true =>
    obtain ⟨w, hw, hwr, hwfrom⟩ := hv.parent hr hlink hknown
    have hwU : U w ∨ w ∈ d.store.vertices := by
      rcases hwfrom with hw | hw
      · exact .inr hw
      · exact .inl hw.mem.1
    rw [hU.identity u w hfrom hwU (hh.trans hw.symm)]
    exact hwr
  | false =>
    exact hU.strangers v hv.mem.1 (by omega) link hlink hknown u hfrom hh

theorem not_rejected (hv : d.Accepted e.signer.checks U v) :
    d'.admission e.signer.checks v ≠ .rejected := by
  intro hrej
  obtain ⟨hvU, -, hs⟩ := hv.mem
  obtain ⟨hr, link, hlink, u, hu, hh, hur⟩ :=
    ((h.rules.sound _ _).2 hs).of_rejected ((h.rules.window _).trans (hU.window v hvU)) hrej
  have hround := h.parent_round hp hU hv hr hlink hu hh
  omega

theorem admits (hv : d.Accepted e.signer.checks U v)
    (hstored : ∀ u, d.Accepted e.signer.checks U u → u.round + 1 = v.round →
      d'.store.has u.hash = true) : ∃ q, d'.admission e.signer.checks v = .stored q := by
  obtain ⟨hvU, -, hs⟩ := hv.mem
  rw [DAG.exists_admission_stored ((h.rules.window _).trans (hU.window v hvU))]
  refine ⟨(h.rules.sound _ _).2 hs, DAG.validateParents_eq_ok.2 ?_⟩
  intro hr
  refine ⟨hs.parents hr, ?_⟩
  intro link hlink
  unfold DAG.validateParentLink
  cases hg : d'.store.get link.hash with
  | some u =>
    obtain ⟨hu, hh⟩ := Store.get_eq_some.1 hg
    have hround := h.parent_round hp hU hv hr hlink hu hh
    simp only
    rw [if_neg (by omega)]
  | none =>
    cases hknown : d.validators.contains link.producer with
    | false =>
      simp only
      rw [h.rules.validators, hknown]
      rfl
    | true =>
      obtain ⟨w, hw, hwr, hwfrom⟩ := hv.parent hr hlink hknown
      have hhas : d'.store.has w.hash = true := by
        rcases hwfrom with hwd | hwa
        · exact has_of_mem (h.mono hwd)
        · exact hstored w hwa hwr
      rw [hw, Store.has, hg] at hhas
      cases hhas

end Grown

/-! ## Nothing that could be stored stays behind -/

/-- Every vertex that waits would wait again. -/
def Quiet (e : Receiver) (r : Inbox) : Prop :=
  ∀ v ∈ r.pendingVertices, r.store.has v.hash = false →
    r.node.dag.admission e.signer.checks v = .buffered

theorem retry_count (e : Receiver) (acc : Inbox × Nat) (v : Vertex) :
    acc.2 ≤ (e.retry acc v).2 := by
  rcases e.retry_cases acc v with ⟨-, heq⟩ | ⟨-, heq⟩ | ⟨q, -, heq⟩ <;> rw [heq]
  dsimp only
  split <;> omega

theorem foldl_retry_count (e : Receiver) (l : List Vertex) (acc : Inbox × Nat) :
    acc.2 ≤ (l.foldl e.retry acc).2 := by
  induction l generalizing acc with
  | nil => exact le_rfl
  | cons v rest ih => exact le_trans (e.retry_count acc v) (ih _)

/-- An entry that leaves the count alone leaves the vertices alone, and stays only when
it is buffered. -/
theorem retry_idle {e : Receiver} (h : (e.retry acc v).2 = acc.2) :
    acc.1.node.dag.SameVertices (e.retry acc v).1.node.dag ∧
      (v ∈ (e.retry acc v).1.pendingVertices →
        acc.1.node.dag.admission e.signer.checks v = .buffered) := by
  rcases e.retry_cases acc v with ⟨hb, heq⟩ | ⟨-, heq⟩ | ⟨q, -, heq⟩
  · rw [heq]
    exact ⟨⟨.refl _, rfl, rfl⟩, fun _ => hb⟩
  · rw [heq]
    exact ⟨⟨.refl _, rfl, rfl⟩, fun hv => absurd rfl (mem_removePendingVertex.1 hv).2⟩
  · rw [heq] at h ⊢
    refine ⟨?_, fun hv => absurd rfl (mem_removePendingVertex.1 hv).2⟩
    cases hhas : acc.1.node.dag.store.has v.hash with
    | true => exact (storeVertex_of_has hhas q).2
    | false =>
      rw [(storeVertex_of_new hhas q).1] at h
      simp at h

theorem SameVertices.trans {d₁ d₂ d₃ : DAG} (h₁ : d₁.SameVertices d₂)
    (h₂ : d₂.SameVertices d₃) : d₁.SameVertices d₃ :=
  ⟨h₁.rules.trans h₂.rules, h₂.vertices.trans h₁.vertices, h₂.floor.trans h₁.floor⟩

/-- A pass that stores nothing has checked every entry it keeps against the same store. -/
theorem foldl_retry_idle {e : Receiver} (h : (l.foldl e.retry acc).2 = acc.2) :
    acc.1.node.dag.SameVertices (l.foldl e.retry acc).1.node.dag ∧
      ∀ v ∈ l, v ∈ (l.foldl e.retry acc).1.pendingVertices →
        acc.1.node.dag.admission e.signer.checks v = .buffered := by
  induction l generalizing acc with
  | nil => exact ⟨⟨.refl _, rfl, rfl⟩, fun v hv => absurd hv List.not_mem_nil⟩
  | cons x rest ih =>
    rw [List.foldl_cons] at h ⊢
    have hfirst : (e.retry acc x).2 = acc.2 := by
      have := e.retry_count acc x
      have := e.foldl_retry_count rest (e.retry acc x)
      omega
    obtain ⟨hsame, hx⟩ := retry_idle hfirst
    obtain ⟨hsame', hrest⟩ := ih (h.trans hfirst.symm)
    refine ⟨SameVertices.trans hsame hsame', ?_⟩
    intro v hv hpending
    rcases List.mem_cons.1 hv with rfl | hv
    · exact hx (e.foldl_retry_pending rest _ v hpending)
    · rw [← hsame.rules.admission hsame.get]
      exact hrest v hv hpending

/-- Each vertex a pass stores has left the buffer. -/
theorem foldl_retry_length (e : Receiver) (l : List Vertex) (acc : Inbox × Nat)
    (hnd : (l.map (·.hash)).Nodup) (hl : ∀ v ∈ l, v ∈ acc.1.pendingVertices) :
    (l.foldl e.retry acc).1.pendingVertices.length + (l.foldl e.retry acc).2 ≤
      acc.1.pendingVertices.length + acc.2 := by
  induction l generalizing acc with
  | nil => exact le_rfl
  | cons x rest ih =>
    rw [List.map_cons, List.nodup_cons] at hnd
    have hx := hl x List.mem_cons_self
    have hlt : (acc.1.pendingVertices.filter fun v => v.hash ≠ x.hash).length <
        acc.1.pendingVertices.length :=
      List.length_filter_lt_length_iff_exists.2 ⟨x, hx, by simp⟩
    have hstep : (∀ v ∈ rest, v ∈ (e.retry acc x).1.pendingVertices) ∧
        (e.retry acc x).1.pendingVertices.length + (e.retry acc x).2 ≤
          acc.1.pendingVertices.length + acc.2 := by
      have hkeep : ∀ v ∈ rest, v ∈ acc.1.pendingVertices ∧ v.hash ≠ x.hash := fun v hv =>
        ⟨hl v (List.mem_cons_of_mem _ hv), fun heq => hnd.1 (heq ▸ List.mem_map_of_mem hv)⟩
      rcases e.retry_cases acc x with ⟨-, heq⟩ | ⟨-, heq⟩ | ⟨q, -, heq⟩ <;> rw [heq]
      · exact ⟨fun v hv => (hkeep v hv).1, le_rfl⟩
      · refine ⟨fun v hv => mem_removePendingVertex.2 (hkeep v hv), ?_⟩
        exact Nat.add_le_add_right hlt.le _
      · refine ⟨fun v hv => mem_removePendingVertex.2 (hkeep v hv), ?_⟩
        have hlen : ((acc.1.withNode (e.storeVertex acc.1.node x q).1).removePendingVertex
            x.hash).pendingVertices.length < acc.1.pendingVertices.length := hlt
        dsimp only
        split <;> omega
    exact le_trans (ih _ hnd.2 hstep.1) hstep.2

theorem tryProcessPending_length (e : Receiver) (r : Inbox) :
    (e.tryProcessPending r).1.pendingVertices.length + (e.tryProcessPending r).2 ≤
      r.pendingVertices.length := by
  have hperm := e.order.perm r.pendingVertices
  refine e.foldl_retry_length _ (r, 0) ?_ fun v hv => hperm.mem_iff.1 hv
  exact (hperm.map (·.hash)).nodup_iff.2 r.nodup

/-- The loop ends with a pass that stores nothing. -/
theorem processPending_quiet (e : Receiver) (fuel : Nat) (r : Inbox)
    (hfuel : r.pendingVertices.length < fuel) : e.Quiet (e.processPending fuel r) := by
  induction fuel generalizing r with
  | zero => omega
  | succ fuel ih =>
    unfold processPending
    dsimp only
    split
    · rename_i hzero
      obtain ⟨hsame, hidle⟩ := @foldl_retry_idle (r, 0) _ e hzero
      intro v hv _
      have hmem : v ∈ e.order.sorted r.pendingVertices :=
        (e.order.perm _).mem_iff.2 (e.foldl_retry_pending _ (r, 0) v hv)
      exact (hsame.rules.admission hsame.get _ _).trans (hidle v hmem hv)
    · have hlen := e.tryProcessPending_length r
      exact ih _ (by omega)

theorem addVertex_quiet (h : e.Quiet r) (v : Vertex) : e.Quiet (e.addVertex r v) := by
  rcases e.addVertex_cases r v with ⟨-, heq⟩ | ⟨-, ⟨hb, heq⟩ | ⟨-, heq⟩ | ⟨q, -, heq⟩⟩ <;> rw [heq]
  · exact h
  · intro x hx hhas
    rw [Inbox.store, bufferPendingVertex_node] at hhas
    rw [bufferPendingVertex_node]
    rcases mem_bufferPendingVertex hx with hx | rfl
    · exact h x hx hhas
    · exact hb
  · exact h
  · exact processPending_quiet e _ _ (Nat.lt_succ_self _)

theorem deliver_quiet (h : e.Quiet r) (l : List Vertex) : e.Quiet (e.deliver r l) := by
  induction l generalizing r with
  | nil => exact h
  | cons v rest ih => exact ih (addVertex_quiet h v)

/-! ## No accepted vertex is lost -/

/-- Since `d` the node grew by vertices of `U` and holds on to the accepted ones of `T`. -/
structure Tracks (e : Receiver) (U : Vertex → Prop) (d : DAG) (T : Vertex → Prop)
    (r : Inbox) : Prop where
  grown : e.Grown U d r.node.dag
  pending : ∀ v ∈ r.pendingVertices, U v
  covered : ∀ v, T v → d.Accepted e.signer.checks U v →
    r.store.has v.hash = true ∨ v ∈ r.pendingVertices

theorem Grown.has_mono (h : e.Grown U d d') {x : Hash} (hx : d.store.has x = true) :
    d'.store.has x = true := by
  obtain ⟨v, hg⟩ := Option.isSome_iff_exists.1 hx
  obtain ⟨hv, rfl⟩ := Store.get_eq_some.1 hg
  exact has_of_mem (h.mono hv)

theorem storeVertex_has {s : ProducerState} {q : Bool} (hU : U v)
    (hq : s.dag.admission e.signer.checks v = .stored q) :
    (e.storeVertex s v q).1.dag.store.has v.hash = true := by
  cases h : s.dag.store.has v.hash with
  | true => exact (storeVertex_grown (U := U) hU hq).has_mono h
  | false =>
    obtain ⟨-, s₁, hadds, heq⟩ := storeVertex_of_new (e := e) h q
    have hmem : v ∈ s₁.dag.store.vertices := by
      rw [hadds.vertices]
      simp
    rw [heq]
    exact (onVertexAdded_grown e U s₁ v.round).has_mono (has_of_mem hmem)

namespace Tracks

variable (hp : e.Passive d) (hU : d.Orderly U)

include hp hU

theorem retry (h : e.Tracks U d T acc.1) (hv : U v) : e.Tracks U d T (e.retry acc v).1 := by
  have hgrown := e.retry_grown acc hv
  refine ⟨h.grown.trans hgrown, fun x hx => h.pending x (e.retry_pending acc v x hx), ?_⟩
  intro x hT hacc
  rcases h.covered x hT hacc with hhas | hmem
  · exact .inl (hgrown.has_mono hhas)
  · by_cases hxv : x.hash = v.hash
    · -- the entry itself: it stays, or it is stored, for it cannot be turned away
      obtain rfl : x = v := hU.identity x v (.inl (h.pending x hmem)) (.inl hv) hxv
      rcases e.retry_cases acc x with ⟨-, heq⟩ | ⟨hrej, -⟩ | ⟨q, hq, heq⟩
      · rw [heq]
        exact .inr hmem
      · exact absurd hrej (h.grown.not_rejected hp hU hacc)
      · rw [heq]
        exact .inl (storeVertex_has hv hq)
    · refine .inr ?_
      rcases e.retry_cases acc v with ⟨-, heq⟩ | ⟨-, heq⟩ | ⟨q, -, heq⟩ <;> rw [heq]
      · exact hmem
      · exact mem_removePendingVertex.2 ⟨hmem, hxv⟩
      · exact mem_removePendingVertex.2 ⟨hmem, hxv⟩

theorem foldl_retry (hl : ∀ v ∈ l, U v) (h : e.Tracks U d T acc.1) :
    e.Tracks U d T (l.foldl e.retry acc).1 := by
  induction l generalizing acc with
  | nil => exact h
  | cons v rest ih =>
    exact ih (fun x hx => hl x (List.mem_cons_of_mem _ hx))
      (h.retry hp hU (hl v List.mem_cons_self))

theorem processPending (fuel : Nat) (h : e.Tracks U d T r) :
    e.Tracks U d T (e.processPending fuel r) := by
  induction fuel generalizing r with
  | zero => exact h
  | succ fuel ih =>
    have hstart : e.Tracks U d T ((r, 0) : Inbox × Nat).1 := h
    have hpass : e.Tracks U d T (e.tryProcessPending r).1 :=
      hstart.foldl_retry hp hU fun v hv => h.pending v ((e.order.perm _).mem_iff.1 hv)
    unfold Receiver.processPending
    dsimp only
    split
    · exact hpass
    · exact ih hpass

theorem addVertex (h : e.Tracks U d T r) (hv : U v) :
    e.Tracks U d (fun x => T x ∨ x = v) (e.addVertex r v) := by
  rcases e.addVertex_cases r v with
    ⟨hhas, heq⟩ | ⟨-, ⟨-, heq⟩ | ⟨hrej, heq⟩ | ⟨q, hq, heq⟩⟩ <;> rw [heq]
  · refine ⟨h.grown, h.pending, ?_⟩
    rintro x (hT | rfl) hacc
    · exact h.covered x hT hacc
    · exact .inl hhas
  · have hbuffered : ∀ x, x ∈ r.pendingVertices ∨ x = v →
        x ∈ (r.bufferPendingVertex v).pendingVertices := by
      intro x hx
      unfold Inbox.bufferPendingVertex
      split
      · rename_i hdup
        rcases hx with hx | rfl
        · exact hx
        · obtain ⟨w, hw, hh⟩ := List.mem_map.1 hdup
          rwa [hU.identity x w (.inl hv) (.inl (h.pending w hw)) hh.symm]
      · simpa using hx
    refine ⟨?_, ?_, ?_⟩
    · rw [bufferPendingVertex_node]
      exact h.grown
    · intro x hx
      rcases mem_bufferPendingVertex hx with hx | rfl
      · exact h.pending x hx
      · exact hv
    · rintro x (hT | rfl) hacc
      · rw [Inbox.store, bufferPendingVertex_node]
        exact (h.covered x hT hacc).imp_right fun hx => hbuffered x (.inl hx)
      · exact .inr (hbuffered x (.inr rfl))
  · refine ⟨h.grown, h.pending, ?_⟩
    rintro x (hT | rfl) hacc
    · exact h.covered x hT hacc
    · exact absurd hrej (h.grown.not_rejected hp hU hacc)
  · refine Tracks.processPending hp hU _ ?_
    have hgrown := storeVertex_grown (U := U) hv hq
    refine ⟨h.grown.trans hgrown, h.pending, ?_⟩
    rintro x (hT | rfl) hacc
    · exact (h.covered x hT hacc).imp_left fun hx => hgrown.has_mono hx
    · exact .inl (storeVertex_has hv hq)

theorem deliver (hl : ∀ v ∈ l, U v) (h : e.Tracks U d T r) :
    e.Tracks U d (fun x => T x ∨ x ∈ l) (e.deliver r l) := by
  induction l generalizing r T with
  | nil => exact { h with covered := fun x hx => h.covered x (by simpa using hx) }
  | cons v rest ih =>
    have hnext := ih (fun x hx => hl x (List.mem_cons_of_mem _ hx))
      (h.addVertex hp hU (hl v List.mem_cons_self))
    exact { hnext with
      covered := fun x hx => hnext.covered x (by simpa [or_assoc] using hx) }

/-- A quiet node that holds on to every vertex of `U` stores all accepted ones, by
induction on the round. -/
theorem stores (h : e.Tracks U d U r) (hq : e.Quiet r) (n : Nat) :
    ∀ v, v.round = n → d.Accepted e.signer.checks U v → r.store.has v.hash = true := by
  induction n using Nat.strong_induction_on with
  | _ n ih =>
    intro v hn hacc
    rcases h.covered v hacc.mem.1 hacc with hhas | hmem
    · exact hhas
    · by_contra hno
      obtain ⟨q, hstored⟩ := h.grown.admits hp hU hacc fun u hu hur =>
        ih u.round (by omega) u rfl hu
      rw [hq v hmem (by simpa using hno)] at hstored
      cases hstored

end Tracks

/-- What a node stores in the end: what it stored at the start and the accepted vertices
among those that waited or were delivered. -/
theorem deliver_has_iff (hp : e.Passive r.node.dag) (hq : e.Quiet r)
    (hU : r.node.dag.Orderly fun v => v ∈ r.pendingVertices ∨ v ∈ l) (x : Hash) :
    (e.deliver r l).store.has x = true ↔
      r.store.has x = true ∨ ∃ v, v.hash = x ∧
        r.node.dag.Accepted e.signer.checks (fun v => v ∈ r.pendingVertices ∨ v ∈ l) v := by
  have hstart : e.Tracks (fun v => v ∈ r.pendingVertices ∨ v ∈ l) r.node.dag
      (· ∈ r.pendingVertices) r :=
    ⟨.refl, fun v hv => .inl hv, fun v hv _ => .inr hv⟩
  have htracks := hstart.deliver hp hU (l := l) fun v hv => .inr hv
  constructor
  · intro hhas
    obtain ⟨v, hg⟩ := Option.isSome_iff_exists.1 hhas
    obtain ⟨hv, rfl⟩ := Store.get_eq_some.1 hg
    rcases htracks.grown.accepted hp hU v hv with hold | hacc
    · exact .inl (has_of_mem hold)
    · exact .inr ⟨v, rfl, hacc⟩
  · rintro (hold | ⟨v, rfl, hacc⟩)
    · exact htracks.grown.has_mono hold
    · exact htracks.stores hp hU (deliver_quiet hq l) v.round v rfl hacc

end Receiver

/-- Two nodes that start alike and receive the same vertices, each in its own order and
with repetitions, store the same hashes, however each goes through its buffer. -/
theorem stored_hashes_order_independent (e₁ e₂ : Receiver) (hsigner : e₁.signer = e₂.signer)
    (r : Inbox) (l₁ l₂ : List Vertex) (hsame : ∀ v, v ∈ l₁ ↔ v ∈ l₂) (hp : e₁.Passive r.node.dag)
    (hq : e₁.Quiet r) (hU : r.node.dag.Orderly fun v => v ∈ r.pendingVertices ∨ v ∈ l₁) (x : Hash) :
    (e₁.deliver r l₁).store.has x = (e₂.deliver r l₂).store.has x := by
  have hset : (fun v => v ∈ r.pendingVertices ∨ v ∈ l₁) =
      fun v => v ∈ r.pendingVertices ∨ v ∈ l₂ := by
    funext v
    rw [hsame]
  have hp₂ : e₂.Passive r.node.dag := by
    unfold Receiver.Passive
    rwa [← hsigner]
  have hq₂ : e₂.Quiet r := by
    unfold Receiver.Quiet
    rwa [← hsigner]
  rw [Bool.eq_iff_iff, Receiver.deliver_has_iff hp hq hU,
    Receiver.deliver_has_iff hp₂ hq₂ (hset ▸ hU), hset, hsigner]

theorem stored_hashes_order_independent_member :
    (memberReceiver.deliver memberInbox childFirst).store.has (idOf 21) = true ∧
      ∀ x, (memberReceiver.deliver memberInbox childFirst).store.has x =
        (memberReceiver.deliver memberInbox (childFirst.reverse ++ childFirst)).store.has x := by
  refine ⟨by decide +kernel, stored_hashes_order_independent memberReceiver memberReceiver rfl
    memberInbox childFirst _ ?_ ?_ ?_ ?_⟩
  · simp
  · exact .inl (by decide)
  · intro v hv
    cases hv
  · refine ⟨fun _ _ => rfl, ?_, ?_⟩
    · have hinj : ∀ u ∈ childFirst ++ memberRoundZero, ∀ v ∈ childFirst ++ memberRoundZero,
          u.hash = v.hash → u = v := by decide +kernel
      have hin : ∀ u, (u ∈ memberInbox.pendingVertices ∨ u ∈ childFirst) ∨
          u ∈ memberInbox.node.dag.store.vertices → u ∈ childFirst ++ memberRoundZero := by
        rintro u ((hu | hu) | hu)
        · cases hu
        · exact List.mem_append_left _ hu
        · exact List.mem_append_right _ hu
      exact fun u v hu hv => hinj u (hin u hu) v (hin v hv)
    · have hknown : ∀ v ∈ childFirst, ∀ link ∈ v.parents,
          memberInbox.node.dag.validators.contains link.producer = true := by decide +kernel
      intro v hv _ link hlink hno
      rcases hv with hv | hv
      · cases hv
      · rw [hknown v hv link hlink] at hno
        cases hno

/-- Member 4 cites a vertex of round 0 from round 2 and attributes it to a stranger. -/
def crossRound : List Vertex :=
  [memberVertex 11 1 1 [(1, 1)], memberVertex 24 2 4 [(11, 1), (9, 9)], memberVertex 9 0 4 []]

def crossRoundSwapped : List Vertex :=
  [memberVertex 11 1 1 [(1, 1)], memberVertex 9 0 4 [], memberVertex 24 2 4 [(11, 1), (9, 9)]]

/-- The citation is skipped while its target is absent and fatal once it is stored. -/
theorem crossRound_depends_on_order :
    (∀ round, memberInbox.node.dag.isRoundInTransitionOrBuffer round = false) ∧
      crossRound.Perm crossRoundSwapped ∧
      (memberReceiver.deliver memberInbox crossRound).store.has (idOf 24) = true ∧
      (memberReceiver.deliver memberInbox crossRoundSwapped).store.has (idOf 24) = false :=
  ⟨fun _ => rfl, by decide +kernel, by decide +kernel, by decide +kernel⟩

end BluePods
