import BluePods.Lib.Quorum

/-! A breadth-first walk over a graph whose nodes are looked up one at a time.
A node may be missing, may bound the walk, or may have successors. The walk
gives up at the first missing node; otherwise it returns exactly the inner nodes
reachable from its root. -/

namespace Lib.Walk
open Lib.Quorum

variable {α : Type*}

/-- What looking up a node yields. -/
inductive Look (α : Type*) where
  | missing
  | bound
  | inner (next : List α)

/-- The successors a node contributes to the queue. -/
def Look.next : Look α → List α
  | .inner next => next
  | _ => []

@[simp] theorem Look.next_missing : (Look.missing : Look α).next = [] := rfl

@[simp] theorem Look.next_bound : (Look.bound : Look α).next = [] := rfl

@[simp] theorem Look.next_inner (next : List α) : (Look.inner next).next = next := rfl

/-- Reachability through inner nodes. -/
inductive Reaches (look : α → Look α) (root : α) : α → Prop where
  | root : Reaches look root root
  | step {x y : α} {next : List α} :
      Reaches look root x → look x = .inner next → y ∈ next → Reaches look root y

variable {look : α → Look α} {x root : α} {seen found queue : List α}

/-- Reachability only depends on the nodes it passes through. -/
theorem Reaches.congr {look' : α → Look α} (h : ∀ y, Reaches look root y → look y = look' y)
    (hx : Reaches look root x) : Reaches look' root x := by
  induction hx with
  | root => exact .root
  | step hr hl hy ih => exact .step ih (h _ hr ▸ hl) hy

/-- Whatever the root has and successors inherit, every reached node has. -/
theorem Reaches.invariant {P : α → Prop} (hroot : P root)
    (hstep : ∀ y next z, P y → look y = .inner next → z ∈ next → P z) (hx : Reaches look root x) :
    P x := by
  induction hx with
  | root => exact hroot
  | step _ hl hy ih => exact hstep _ _ _ ih hl hy

/-! ## The invariant of the loop -/

/-- What the loop maintains: `found` are the inner nodes among `seen`, and every
successor of a seen node is seen or queued. -/
structure Inv (look : α → Look α) (root : α) (seen queue found : List α) : Prop where
  seen_reaches : ∀ x ∈ seen, Reaches look root x
  queue_reaches : ∀ x ∈ queue, Reaches look root x
  root_mem : root ∈ seen ∨ root ∈ queue
  mem_found : ∀ x, x ∈ found ↔ x ∈ seen ∧ ∃ next, look x = .inner next
  closed : ∀ x ∈ seen, ∀ next, look x = .inner next → ∀ y ∈ next, y ∈ seen ∨ y ∈ queue

theorem Inv.init (look : α → Look α) (root : α) : Inv look root [] [root] [] where
  seen_reaches := by simp
  queue_reaches := by simpa using Reaches.root
  root_mem := by simp
  mem_found := by simp
  closed := by simp

theorem Inv.skip (h : Inv look root seen (x :: queue) found) (hx : x ∈ seen) :
    Inv look root seen queue found where
  seen_reaches := h.seen_reaches
  queue_reaches y hy := h.queue_reaches y (List.mem_cons_of_mem _ hy)
  root_mem := by
    rcases h.root_mem with hr | hr
    · exact .inl hr
    · rcases List.mem_cons.1 hr with rfl | hr
      · exact .inl hx
      · exact .inr hr
  mem_found := h.mem_found
  closed y hy next hl z hz := by
    rcases h.closed y hy next hl z hz with hs | hq
    · exact .inl hs
    · rcases List.mem_cons.1 hq with rfl | hq
      · exact .inl hx
      · exact .inr hq

/-- Looking up the head of the queue keeps the invariant, whatever it yields. -/
theorem Inv.visit (h : Inv look root seen (x :: queue) found) (hx : x ∉ seen) (found' : List α)
    (hfound : ∀ y, y ∈ found' ↔ y ∈ found ∨ y = x ∧ ∃ next, look x = .inner next) :
    Inv look root (x :: seen) (queue ++ (look x).next) found' where
  seen_reaches y hy := by
    rcases List.mem_cons.1 hy with rfl | hy
    · exact h.queue_reaches _ List.mem_cons_self
    · exact h.seen_reaches y hy
  queue_reaches y hy := by
    rcases List.mem_append.1 hy with hy | hy
    · exact h.queue_reaches y (List.mem_cons_of_mem _ hy)
    · cases hl : look x with
      | missing => simp [hl] at hy
      | bound => simp [hl] at hy
      | inner next =>
        have hy : y ∈ next := by simpa [hl] using hy
        exact .step (h.queue_reaches x List.mem_cons_self) hl hy
  root_mem := by
    rcases h.root_mem with hr | hr
    · exact .inl (List.mem_cons_of_mem _ hr)
    · rcases List.mem_cons.1 hr with rfl | hr
      · exact .inl List.mem_cons_self
      · exact .inr (List.mem_append_left _ hr)
  mem_found y := by
    rw [hfound, h.mem_found, List.mem_cons]
    constructor
    · rintro (⟨hs, hn⟩ | ⟨rfl, hn⟩)
      · exact ⟨.inr hs, hn⟩
      · exact ⟨.inl rfl, hn⟩
    · rintro ⟨rfl | hs, hn⟩
      · exact .inr ⟨rfl, hn⟩
      · exact .inl ⟨hs, hn⟩
  closed y hy next hl z hz := by
    rcases List.mem_cons.1 hy with rfl | hy
    · exact .inr (List.mem_append_right _ (by simpa [hl] using hz))
    · rcases h.closed y hy next hl z hz with hs | hq
      · exact .inl (List.mem_cons_of_mem _ hs)
      · rcases List.mem_cons.1 hq with rfl | hq
        · exact .inl List.mem_cons_self
        · exact .inr (List.mem_append_left _ hq)

/-- With an empty queue the seen nodes are all the reachable ones. -/
theorem Inv.mem_seen (h : Inv look root seen [] found) (hx : Reaches look root x) : x ∈ seen := by
  have hroot : root ∈ seen := by simpa using h.root_mem
  refine hx.invariant (P := (· ∈ seen)) hroot ?_
  intro y next z hy hl hz
  simpa using h.closed y hy next hl z hz

theorem Inv.mem_found_iff (h : Inv look root seen [] found) (x : α) :
    x ∈ found ↔ Reaches look root x ∧ ∃ next, look x = .inner next := by
  rw [h.mem_found]
  exact ⟨fun ⟨hs, hn⟩ => ⟨h.seen_reaches x hs, hn⟩, fun ⟨hr, hn⟩ => ⟨h.mem_seen hr, hn⟩⟩

/-! ## The walk -/

variable [DecidableEq α]

/-- The walk: `seen` nodes are not looked up again, `queue` is consumed from the
front, `found` collects inner nodes in the order they are met. -/
def walk (look : α → Look α) : Nat → List α → List α → List α → Option (List α)
  | 0, _, _, _ => none
  | _ + 1, _, [], found => some found
  | fuel + 1, seen, x :: queue, found =>
    if x ∈ seen then walk look fuel seen queue found
    else
      match look x with
      | .missing => none
      | .bound => walk look fuel (x :: seen) queue found
      | .inner next => walk look fuel (x :: seen) (queue ++ next) (found ++ [x])

theorem walk_spec (look : α → Look α) (root : α) (fuel : Nat) :
    ∀ seen queue found l, Inv look root seen queue found →
      walk look fuel seen queue found = some l →
      ∀ x, x ∈ l ↔ Reaches look root x ∧ ∃ next, look x = .inner next := by
  induction fuel with
  | zero => intro seen queue found l _ h; simp [walk] at h
  | succ fuel ih =>
    intro seen queue found l hinv h
    cases queue with
    | nil =>
      obtain rfl : found = l := by simpa [walk] using h
      exact hinv.mem_found_iff
    | cons x queue =>
      rw [walk] at h
      split at h
      · exact ih _ _ _ _ (hinv.skip ‹_›) h
      · rename_i hx
        split at h
        · simp at h
        · rename_i hl
          refine ih _ _ _ _ ?_ h
          simpa [hl] using hinv.visit hx found (by simp [hl])
        · rename_i next hl
          refine ih _ _ _ _ ?_ h
          simpa [hl] using hinv.visit hx (found ++ [x]) (by simp [hl])

theorem walk_present (look : α → Look α) (root : α) (fuel : Nat) :
    ∀ seen queue found l, Inv look root seen queue found →
      (∀ x ∈ seen, look x ≠ .missing) →
      walk look fuel seen queue found = some l →
      ∀ x, Reaches look root x → look x ≠ .missing := by
  induction fuel with
  | zero => intro seen queue found l _ _ h; simp [walk] at h
  | succ fuel ih =>
    intro seen queue found l hinv hseen h
    cases queue with
    | nil => exact fun x hx => hseen x (hinv.mem_seen hx)
    | cons x queue =>
      rw [walk] at h
      split at h
      · exact ih _ _ _ _ (hinv.skip ‹_›) hseen h
      · rename_i hx
        split at h
        · simp at h
        · rename_i hl
          refine ih _ _ _ _ ?_ ?_ h
          · simpa [hl] using hinv.visit hx found (by simp [hl])
          · simpa [hl] using hseen
        · rename_i next hl
          refine ih _ _ _ _ ?_ ?_ h
          · simpa [hl] using hinv.visit hx (found ++ [x]) (by simp [hl])
          · simpa [hl] using hseen

/-- A walk finds no node twice: what it found it has seen. -/
theorem walk_nodup (look : α → Look α) (fuel : Nat) :
    ∀ seen queue found l, found.Nodup → (∀ x ∈ found, x ∈ seen) →
      walk look fuel seen queue found = some l → l.Nodup := by
  induction fuel with
  | zero => intro seen queue found l _ _ h; simp [walk] at h
  | succ fuel ih =>
    intro seen queue found l hnd hseen h
    cases queue with
    | nil =>
      obtain rfl : found = l := by simpa [walk] using h
      exact hnd
    | cons x queue =>
      rw [walk] at h
      split at h
      · exact ih _ _ _ _ hnd hseen h
      · rename_i hx
        split at h
        · simp at h
        · exact ih _ _ _ _ hnd (fun y hy => List.mem_cons_of_mem _ (hseen y hy)) h
        · refine ih _ _ _ _ ?_ ?_ h
          · have hfresh : x ∉ found := fun hmem => hx (hseen x hmem)
            exact hnd.append (List.nodup_singleton x) (by simpa using hfresh)
          · intro y hy
            rcases List.mem_append.1 hy with hy | hy
            · exact List.mem_cons_of_mem _ (hseen y hy)
            · simp_all

/-! ## Enough fuel -/

/-- Dequeues still ahead: the queue, and what unseen nodes may add to it. -/
def ahead (look : α → Look α) (nodes seen queue : List α) : Nat :=
  queue.length + weigh (fun x => (look x).next.length) (fun x => decide (x ∉ seen)) nodes

/-- Seeing an unseen node of the list removes its successors from the bound. -/
theorem weigh_unseen_cons (w : α → Nat) (nodes seen : List α) (x : α)
    (hx : x ∉ seen) (hmem : x ∈ nodes) :
    w x + weigh w (fun y => decide (y ∉ x :: seen)) nodes ≤
      weigh w (fun y => decide (y ∉ seen)) nodes := by
  induction nodes with
  | nil => simp at hmem
  | cons y ys ih =>
    have hmono : weigh w (fun z => decide (z ∉ x :: seen)) ys ≤
        weigh w (fun z => decide (z ∉ seen)) ys :=
      weigh_mono w ys fun z _ hz => by
        simp only [decide_eq_true_eq, List.mem_cons, not_or] at hz ⊢
        exact hz.2
    by_cases hyx : y = x
    · subst hyx
      simp [hx]
      simpa using hmono
    · have hys := ih (by simpa [Ne.symm hyx] using hmem)
      simp only [weigh_cons, List.mem_cons, hyx, false_or] at hys ⊢
      omega

/-- A walk that meets no missing node returns once its fuel exceeds the dequeues
ahead. -/
theorem walk_isSome (look : α → Look α) (root : α) (nodes : List α)
    (hnodes : ∀ x next, look x = .inner next → x ∈ nodes)
    (hpresent : ∀ x, Reaches look root x → look x ≠ .missing) (fuel : Nat) :
    ∀ seen queue found, Inv look root seen queue found →
      ahead look nodes seen queue < fuel →
      ∃ l, walk look fuel seen queue found = some l := by
  induction fuel with
  | zero => intro seen queue found _ h; omega
  | succ fuel ih =>
    intro seen queue found hinv h
    cases queue with
    | nil => exact ⟨found, rfl⟩
    | cons x queue =>
      rw [walk]
      split
      · refine ih _ _ _ (hinv.skip ‹_›) ?_
        simp only [ahead, List.length_cons] at h ⊢
        omega
      · rename_i hx
        have hreach := hinv.queue_reaches x List.mem_cons_self
        split
        · exact absurd ‹_› (hpresent x hreach)
        · rename_i hl
          refine ih _ _ _ (by
            simpa [hl] using hinv.visit hx found (by simp [hl])) ?_
          have hmono : weigh (fun y => (look y).next.length)
              (fun y => decide (y ∉ x :: seen)) nodes ≤
              weigh (fun y => (look y).next.length) (fun y => decide (y ∉ seen)) nodes :=
            weigh_mono _ nodes fun y _ hy => by
              simp only [decide_eq_true_eq, List.mem_cons, not_or] at hy ⊢
              exact hy.2
          simp only [ahead, List.length_cons] at h ⊢
          omega
        · rename_i next hl
          refine ih _ _ _ (by
            simpa [hl] using
              hinv.visit hx (found ++ [x]) (by simp [hl])) ?_
          have hdrop := weigh_unseen_cons (fun y => (look y).next.length) nodes seen x hx
            (hnodes x next hl)
          simp only [hl, Look.next_inner] at hdrop
          simp only [ahead, List.length_cons, List.length_append] at h ⊢
          omega

end Lib.Walk
