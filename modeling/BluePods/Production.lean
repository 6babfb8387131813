import BluePods.Validate
import BluePods.Commit

/-! Vertex production over the life of a node. The round to produce at comes from two
cursors in memory; a restart resets both and keeps the stored vertices, so a restarted
node signs rounds it has signed before unless it first hears of a later one. -/

namespace BluePods

/-! ## Building a vertex -/

/-- What stays the same over a validator's life: its key, how a body is serialized
canonically, its checks of received bytes, and whether it only listens. -/
structure Signer where
  crypto : Crypto
  pubKey : Hash
  bodyBytes : List VertexLink → List Bytes → UInt64 → Bytes
  checks : VertexChecks
  listenerMode : Bool := false

/-- The 120 bytes a producer commits to. -/
def headerBytes (producer : Hash) (round epoch frontierRound : Nat) (indexRoot bodyHash : Hash) :
    Bytes :=
  producer.val ++ (putUint64BE (UInt64.ofNat round) ++ (putUint64BE (UInt64.ofNat epoch) ++
    (putUint64BE (UInt64.ofNat frontierRound) ++ (indexRoot.val ++ bodyHash.val))))

namespace DAG

/-- The frontier and index root a vertex produced now anchors. -/
def anchoredFrontier (d : DAG) : Nat × Hash :=
  match d.indexer with
  | none => (0, zeroHash)
  | some idx => (idx.committedFrontier, (idx.rootAt idx.committedFrontier).getD zeroHash)

/-- A parent link, attributed to the stored vertex's producer. -/
def vertexLink (d : DAG) (parent : Hash) : VertexLink :=
  match d.store.get parent with
  | some v => ⟨parent, v.producer⟩
  | none => ⟨parent, zeroHash⟩

def updateRound (d : DAG) (round : Nat) : DAG :=
  if round ≤ d.currentRound then d else { d with currentRound := round }

def disableSyncMode (d : DAG) : DAG := { d with syncModeActive := false }

end DAG

namespace Signer

/-- The node's own vertex; its hash, over the header and the body with the time of day,
is what the node signs. -/
def buildVertex (w : Signer) (d : DAG) (round : Nat) (parents : List Hash) (txs : List Bytes)
    (now : UInt64) : Vertex :=
  let (frontierRound, indexRoot) := d.anchoredFrontier
  let links := parents.map d.vertexLink
  let bodyHash := w.crypto.blake3 (2 :: w.bodyBytes links txs now)
  { hash := w.crypto.blake3
      (1 :: headerBytes w.pubKey round d.currentEpoch frontierRound indexRoot bodyHash)
    round
    producer := w.pubKey
    parents := links
    epoch := d.currentEpoch
    frontierRound
    indexRoot }

/-- Stores the node's own vertex once it passes the producer and signature checks. -/
def addOwnVertex (w : Signer) (d : DAG) (v : Vertex) : Option DAG :=
  match d.validateProducer v with
  | .error _ => none
  | .ok () =>
    if !w.checks.signature v then none
    else match d.store.add v with
      | (_, false) => none
      | (store, true) => some (d.withStore store)

/-- A received vertex: stored when it passes, or marked and stored when only its index
root is wrong, and then the round cursor follows it. A vertex kept aside for a missing
parent or an unknown producer is received again later. -/
def addVertex (w : Signer) (d : DAG) (v : Vertex) : DAG :=
  if d.store.has v.hash then d
  else match d.validateVertex w.checks v with
    | .ok () => (d.withStore (d.store.add v).1).updateRound v.round
    | .error .indexRoot =>
      let marked : Store :=
        { d.store with quarantinedVertices := v.hash :: d.store.quarantinedVertices }
      (d.withStore (marked.add v).1).updateRound v.round
    | .error _ => d

end Signer

/-! ## The life of a node -/

/-- A validator's node: its DAG, the last round it produced, the transactions waiting,
and every round and hash its key has signed, by this process or an earlier one. -/
structure ProducerState where
  dag : DAG
  lastProducedRound : Nat := 0
  pendingTxs : List Bytes := []
  signed : List (Nat × Hash) := []

namespace ProducerState

variable {w : Signer} {s : ProducerState}

/-- The round after the last one produced, while the cursor is ahead of it. -/
def nextProductionRound (s : ProducerState) : Nat :=
  if 0 < s.lastProducedRound ∧ s.lastProducedRound + 1 < s.dag.currentRound then
    s.lastProducedRound + 1
  else s.dag.currentRound

/-- The vertex a production attempt builds. -/
def nextVertex (w : Signer) (s : ProducerState) (now : UInt64) : Vertex :=
  w.buildVertex s.dag s.nextProductionRound (s.dag.collectParents s.nextProductionRound)
    s.pendingTxs now

/-- One production attempt. Without a quorum below, the node signs nothing. -/
def produceVertex (w : Signer) (s : ProducerState) (now : UInt64) : ProducerState :=
  if w.listenerMode then s
  else if !s.dag.validators.contains w.pubKey then s
  else
    let round := s.nextProductionRound
    if !s.dag.canProduceVertex round then s
    else
      let v := s.nextVertex w now
      let signed := (round, v.hash) :: s.signed
      match w.addOwnVertex s.dag v with
      | none => { s with signed }
      | some d =>
        { dag := d.disableSyncMode.updateRound (round + 1)
          lastProducedRound := round
          pendingTxs := []
          signed }

/-- What happens to a node. A commit may change any part of the consensus state except
the stored vertices and the cursors. A restart rebuilds the consensus state in some way
from what is stored, with both cursors at zero. -/
inductive Event where
  | produce (now : UInt64)
  | addVertex (v : Vertex)
  | submitTx (tx : Bytes)
  | commit (effect : DAG → DAG)
  | restart (rebuild : DAG → DAG)

def step (w : Signer) (s : ProducerState) : Event → ProducerState
  | .produce now => s.produceVertex w now
  | .addVertex v => { s with dag := w.addVertex s.dag v }
  | .submitTx tx => { s with pendingTxs := s.pendingTxs ++ [tx] }
  | .commit effect =>
    { s with
      dag := { effect s.dag with
        store := { s.dag.store with
          committedVertices := (effect s.dag).store.committedVertices }
        currentRound := s.dag.currentRound } }
  | .restart rebuild =>
    { s with
      dag := { rebuild s.dag with
        store := s.dag.store
        currentRound := 0
        syncModeActive := false
        trustedProducers := [] }
      lastProducedRound := 0
      pendingTxs := [] }

def run (w : Signer) (s : ProducerState) (events : List Event) : ProducerState :=
  events.foldl (step w) s

/-! ## One hash for each round -/

/-- The round cursor is above every round signed. -/
def Rejoined (s : ProducerState) : Prop := ∀ e ∈ s.signed, e.1 < s.dag.currentRound

/-- An attempt by a process that has produced no round above zero finds the cursor above
every round the key has signed, and what an attempt builds is not stored already. -/
def Ready (w : Signer) (s : ProducerState) : Event → Prop
  | .produce now => (s.lastProducedRound = 0 → s.Rejoined) ∧
      s.dag.store.has (s.nextVertex w now).hash = false
  | _ => True

/-- Every event of a run finds the node ready. -/
def AlwaysReady (w : Signer) : ProducerState → List Event → Prop
  | _, [] => True
  | s, e :: es => Ready w s e ∧ AlwaysReady w (s.step w e) es

/-- Rounds are signed once, and while the last produced round is positive it is the
greatest signed one and below the cursor. -/
structure Sequential (s : ProducerState) : Prop where
  once : (s.signed.map (·.1)).Nodup
  last : 0 < s.lastProducedRound →
    s.lastProducedRound < s.dag.currentRound ∧ ∀ e ∈ s.signed, e.1 ≤ s.lastProducedRound

theorem le_updateRound (d : DAG) (round : Nat) :
    d.currentRound ≤ (d.updateRound round).currentRound ∧
      round ≤ (d.updateRound round).currentRound := by
  unfold DAG.updateRound
  split
  · rename_i h
    exact ⟨le_rfl, h⟩
  · rename_i h
    exact ⟨(Nat.lt_of_not_le h).le, le_rfl⟩

theorem le_updateRound_withStore (d : DAG) (store : Store) (round : Nat) :
    d.currentRound ≤ ((d.withStore store).updateRound round).currentRound :=
  (le_updateRound (d.withStore store) round).1

theorem currentRound_addVertex (w : Signer) (d : DAG) (v : Vertex) :
    d.currentRound ≤ (w.addVertex d v).currentRound := by
  unfold Signer.addVertex
  split
  · exact le_rfl
  · split
    · exact le_updateRound_withStore ..
    · exact le_updateRound_withStore ..
    · exact le_rfl

/-- An own vertex of a member, correctly signed and not stored yet, is stored. -/
theorem addOwnVertex_eq_some {d : DAG} {v : Vertex}
    (hmember : d.validators.contains v.producer = true) (hsig : w.checks.signature v = true)
    (hnew : d.store.has v.hash = false) :
    ∃ store, w.addOwnVertex d v = some (d.withStore store) := by
  have hproducer : d.validateProducer v = .ok () := by
    rw [DAG.validateProducer, if_pos hmember, ite_self]
  have hadd : (d.store.add v).2 = true := by
    unfold Store.add
    rw [dif_neg (by simp [hnew])]
  unfold Signer.addOwnVertex
  rw [hproducer]
  simp only [hsig, Bool.not_true, Bool.false_eq_true, if_false]
  cases h : d.store.add v with
  | mk store added =>
    rw [h] at hadd
    cases hadd
    exact ⟨store, rfl⟩

theorem producer_nextVertex (w : Signer) (s : ProducerState) (now : UInt64) :
    (s.nextVertex w now).producer = w.pubKey := rfl

/-- An attempt changes nothing, or signs the next vertex, stores it and moves both
cursors past its round. -/
theorem produceVertex_cases {now : UInt64} (hsig : w.checks.signature (s.nextVertex w now) = true)
    (hnew : s.dag.store.has (s.nextVertex w now).hash = false) :
    s.produceVertex w now = s ∨
      (s.produceVertex w now).signed =
          (s.nextProductionRound, (s.nextVertex w now).hash) :: s.signed ∧
        (s.produceVertex w now).lastProducedRound = s.nextProductionRound ∧
        s.nextProductionRound < (s.produceVertex w now).dag.currentRound := by
  unfold produceVertex
  split
  · exact .inl rfl
  · split
    · exact .inl rfl
    · rename_i hmember
      dsimp only
      split
      · exact .inl rfl
      · have hcontains : s.dag.validators.contains (s.nextVertex w now).producer = true := by
          rw [producer_nextVertex]
          simpa using hmember
        obtain ⟨store, hadd⟩ := addOwnVertex_eq_some hcontains hsig hnew
        rw [hadd]
        exact .inr ⟨rfl, rfl, (le_updateRound _ _).2⟩

theorem Sequential.produceVertex {now : UInt64} (h : Sequential s)
    (hsig : w.checks.signature (s.nextVertex w now) = true) (hready : Ready w s (.produce now)) :
    Sequential (s.produceVertex w now) := by
  -- In either case the round is above every round signed so far.
  have habove : ∀ e ∈ s.signed, e.1 < s.nextProductionRound := by
    intro e he
    unfold nextProductionRound
    by_cases hlast : 0 < s.lastProducedRound
    · obtain ⟨hcursor, hmax⟩ := h.last hlast
      have := hmax e he
      split <;> omega
    · rw [if_neg (by omega)]
      exact hready.1 (by omega) e he
  rcases produceVertex_cases hsig hready.2 with hsame | ⟨hsigned, hlast, hcursor⟩
  · rwa [hsame]
  · constructor
    · rw [hsigned, List.map_cons, List.nodup_cons]
      refine ⟨?_, h.once⟩
      intro hmem
      obtain ⟨e, he, heq⟩ := List.mem_map.1 hmem
      exact absurd (habove e he) (by rw [heq]; exact lt_irrefl _)
    · intro _
      rw [hlast, hsigned]
      refine ⟨hcursor, ?_⟩
      intro e he
      rcases List.mem_cons.1 he with rfl | he
      · exact le_rfl
      · exact (habove e he).le

theorem Sequential.step (h : Sequential s)
    (hsig : ∀ now, w.checks.signature (s.nextVertex w now) = true) {e : Event}
    (hready : Ready w s e) : Sequential (s.step w e) := by
  cases e with
  | produce now => exact h.produceVertex (hsig now) hready
  | addVertex v =>
    refine ⟨h.once, ?_⟩
    intro hlast
    obtain ⟨hcursor, hmax⟩ := h.last hlast
    exact ⟨lt_of_lt_of_le hcursor (currentRound_addVertex w s.dag v), hmax⟩
  | submitTx tx => exact ⟨h.once, h.last⟩
  | commit effect => exact ⟨h.once, h.last⟩
  | restart rebuild =>
    refine ⟨h.once, ?_⟩
    intro hlast
    exact absurd hlast (lt_irrefl 0)

theorem Sequential.run (hsig : ∀ s now, w.checks.signature (nextVertex w s now) = true)
    (h : Sequential s) {events : List Event} (hready : AlwaysReady w s events) :
    Sequential (s.run w events) := by
  induction events generalizing s with
  | nil => exact h
  | cons e es ih => exact ih (h.step (hsig s) hready.1) hready.2

end ProducerState

open ProducerState in
/-- A validator whose own signatures verify signs one hash for each round, over any
interleaving of production, delivery, commits and restarts in which it is always ready. -/
theorem signs_once_of_alwaysReady (w : Signer)
    (hsig : ∀ s now, w.checks.signature (nextVertex w s now) = true) (s : ProducerState)
    (hstart : s.signed = [] ∧ s.lastProducedRound = 0) (events : List Event)
    (hready : AlwaysReady w s events) (round : Nat) (h h' : Hash)
    (hsigned : (round, h) ∈ (s.run w events).signed)
    (hsigned' : (round, h') ∈ (s.run w events).signed) : h = h' := by
  have hinit : Sequential s := by
    constructor
    · rw [hstart.1]
      exact List.nodup_nil
    · intro hlast
      rw [hstart.2] at hlast
      exact absurd hlast (lt_irrefl 0)
  have hrun := (hinit.run hsig hready).once
  exact congrArg Prod.snd (List.inj_on_of_nodup_map hrun hsigned hsigned' rfl)

/-- The one validator of the worked network; a body is its timestamp. -/
def soloSigner : Signer where
  crypto := soloCrypto
  pubKey := idOf 1
  bodyBytes _ _ now := putUint64BE now
  checks := ⟨fun _ => true, fun _ => true⟩

def soloProducer : ProducerState where
  dag :=
    { store := ⟨[], by simp, [], [], 0, false⟩
      epochMirror := none
      validators := soloValidators
      votingCapMille := 200 }

open ProducerState in
theorem signs_once_of_alwaysReady_solo :
    AlwaysReady soloSigner soloProducer [.produce 1, .produce 2] ∧
      (soloProducer.run soloSigner [.produce 1, .produce 2]).signed.map (·.1) = [1, 0] ∧
      ∀ h h', (1, h) ∈ (soloProducer.run soloSigner [.produce 1, .produce 2]).signed →
        (1, h') ∈ (soloProducer.run soloSigner [.produce 1, .produce 2]).signed → h = h' := by
  have hready : AlwaysReady soloSigner soloProducer [.produce 1, .produce 2] := by
    refine ⟨⟨?_, by decide +kernel⟩, ⟨?_, by decide +kernel⟩, trivial⟩
    · intro _
      unfold Rejoined
      decide +kernel
    · intro _
      unfold Rejoined
      decide +kernel
  refine ⟨hready, by decide +kernel, ?_⟩
  exact signs_once_of_alwaysReady soloSigner (fun _ _ => rfl) soloProducer ⟨rfl, rfl⟩ _ hready 1

open ProducerState in
/-- Produce, restart, produce: two hashes are signed for round 0. -/
theorem restart_signs_twice :
    ∃ h h', h ≠ h' ∧
      (soloProducer.run soloSigner [.produce 1, .restart id, .produce 2]).signed =
        [(0, h'), (0, h)] := by
  refine ⟨(nextVertex soloSigner soloProducer 1).hash, (nextVertex soloSigner
    (soloProducer.run soloSigner [.produce 1, .restart id]) 2).hash, ?_, ?_⟩
  · decide +kernel
  · decide +kernel

end BluePods
