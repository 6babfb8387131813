import BluePods.Crash
import BluePods.IndexEdits
import BluePods.Pace

/-! The live index along whole logs. The index a node has fed records, with every decided
round, the root that a rebuild from the tracker, the names and the frozen holders of that
moment has, if the transactions of the log reference only tracked objects mutably. An
untracked reference makes an entry the index is not told of, and the rebuild differs. -/

namespace BluePods

open Index (Edit View Manager Holds validatorLeaves)
open Lib.SparseTree

/-! ## A node and its index -/

/-- The edits of a call. -/
def Call.edits (cfg : Config) (votingCapMille : UInt64) (call : Call) : List Edit :=
  call.chain.executeTxEdits cfg votingCapMille call.atx call.commitRound call.verdict

/-- The transaction of the call, if it is admitted, references only tracked objects
mutably. -/
def Call.RefsTracked (cfg : Config) (call : Call) : Prop :=
  call.chain.RefsTracked cfg call.atx call.commitRound call.verdict

namespace Chain

/-- The edits of a turn. -/
def turnEdits (cfg : Config) (votingCapMille : UInt64) (c : Chain) : Turn → List Edit
  | .decide batch =>
    (c.turnCalls cfg (.decide batch)).flatMap (Call.edits cfg votingCapMille) ++
      (c.turnBoundaries cfg (.decide batch)).flatMap (transitionEpochEdits cfg votingCapMille)
  | .addValidator .. => []
  | .restart => c.disk.startEdits cfg votingCapMille

/-- The edits of a whole log. -/
def logEdits (cfg : Config) (votingCapMille : UInt64) (c : Chain) : List Turn → List Edit
  | [] => []
  | t :: rest =>
    c.turnEdits cfg votingCapMille t ++ (c.turn cfg t).logEdits cfg votingCapMille rest

/-- The node as each decided round of a log finds it. -/
def logDecided (cfg : Config) (c : Chain) : List Turn → List Chain
  | [] => []
  | .decide batch :: rest => c :: (c.turn cfg (.decide batch)).logDecided cfg rest
  | t :: rest => (c.turn cfg t).logDecided cfg rest

/-- The root of an index that is rebuilt from what the node holds. -/
def rebuiltRoot (cfg : Config) (votingCapMille : UInt64) (c : Chain) : Hash :=
  (Manager.feed cfg.crypto {} (c.rebuildEdit votingCapMille)).root cfg.crypto

/-- Two nodes hold the same edges and names, and their holders have the same leaves. -/
structure SameSources (votingCapMille : UInt64) (c c' : Chain) : Prop where
  edges : c'.ledger.tracker.getParent = c.ledger.tracker.getParent
  domains : ∀ name, c'.ledger.domains.lookup name = c.ledger.domains.lookup name
  holders : validatorLeaves votingCapMille c'.indexHolders =
    validatorLeaves votingCapMille c.indexHolders

end Chain

/-- The edits of a log from its start. -/
def Disk.logEdits (cfg : Config) (votingCapMille : UInt64) (d : Disk) (turns : List Chain.Turn) :
    List Edit :=
  d.startEdits cfg votingCapMille ++ (d.start cfg).logEdits cfg votingCapMille turns

/-- A node with the index it feeds. -/
structure IndexedNode where
  chain : Chain
  index : Manager

namespace IndexedNode

/-- A start has a new index. -/
def start (cfg : Config) (votingCapMille : UInt64) (d : Disk) : IndexedNode where
  chain := d.start cfg
  index := (d.seedEdits cfg votingCapMille).foldl (Manager.feed cfg.crypto)
    ((d.load cfg).backfillIndex cfg votingCapMille)

/-- A decided round moves the frontier behind the cursor. -/
def turn (cfg : Config) (votingCapMille : UInt64) (n : IndexedNode) : Chain.Turn → IndexedNode
  | .decide batch =>
    { chain := n.chain.turn cfg (.decide batch)
      index := ((n.chain.turnEdits cfg votingCapMille (.decide batch)).foldl
        (Manager.feed cfg.crypto) n.index).setFrontier cfg.crypto n.chain.lastCommitted }
  | .addValidator pubkey quicAddr bls =>
    { n with chain := n.chain.turn cfg (.addValidator pubkey quicAddr bls) }
  | .restart => start cfg votingCapMille n.chain.disk

end IndexedNode

/-! ## Batches -/

namespace Chain

/-- The view is that of the node, whose holders are frozen. -/
structure Frozen (votingCapMille : UInt64) (c : Chain) (v : View) : Prop extends
    Shown votingCapMille c v where
  isSome : c.regime.epochHolders.isSome = true

variable {cap : UInt64} {c c' : Chain} {v : View} {cfg : Config}

theorem Frozen.congr (h : c.Frozen cap v) (hledger : c'.ledger = c.ledger)
    (hholders : c'.regime.epochHolders = c.regime.epochHolders) : c'.Frozen cap v where
  toShown := h.toShown.congr (by rw [hledger]) (by rw [hledger]) hholders
  isSome := hholders ▸ h.isSome

theorem Frozen.executeTx (h : c.Frozen cap v) {atx : AttestedTransaction} {round : UInt64}
    {verdict : Option ProofError} (htracked : c.RefsTracked cfg atx round verdict) :
    (c.executeTx cfg atx round verdict).1.Frozen cap
      ((c.executeTxEdits cfg cap atx round verdict).foldl Edit.update v) where
  toShown := h.toShown.executeTx htracked
  isSome :=
    ((refreezes_of_invariant (P := fun d => d.regime.epochHolders.isSome = true) (fun _ _ => rfl)
      fun _ _ h => h).executeTx cfg cfg (fun _ => rfl) rfl rfl rfl rfl (fun _ => ⟨rfl, h.isSome⟩)
        ⟨rfl, h.isSome⟩).2

theorem Frozen.processTransactions {round : UInt64} {p : ProofVerdicts}
    {atxs : List AttestedTransaction} (h : c.Frozen cap v)
    (htracked : ∀ call ∈ txCalls cfg round c p atxs, call.RefsTracked cfg) :
    (c.processTransactions cfg round p atxs).1.Frozen cap
      (((txCalls cfg round c p atxs).flatMap (Call.edits cfg cap)).foldl Edit.update v) := by
  induction atxs generalizing c p v with
  | nil => exact h
  | cons atx rest ih =>
    have hfirst := h.executeTx (htracked ⟨c, atx, round, (p.proofVerdict atx).1⟩ List.mem_cons_self)
    rw [txCalls, List.flatMap_cons, List.foldl_append]
    exact ih hfirst fun call hcall => htracked call (List.mem_cons_of_mem _ hcall)

theorem Frozen.batch {round : UInt64} {s : BatchState} {batch : List BatchVertex}
    (h : s.chain.Frozen cap v)
    (htracked : ∀ call ∈ batchCalls cfg round s batch, call.RefsTracked cfg) :
    (batch.foldl (applyVertex cfg round) s).chain.Frozen cap
      (((batchCalls cfg round s batch).flatMap (Call.edits cfg cap)).foldl Edit.update v) := by
  induction batch generalizing s v with
  | nil => exact h
  | cons vertex rest ih =>
    have hcredited : (creditVertex cfg s vertex).Frozen cap v := by
      refine h.congr (creditVertex_ledger cfg s vertex) ?_
      unfold creditVertex
      split <;> rfl
    have hdone := hcredited.processTransactions fun call hcall =>
      htracked call (List.mem_append_left _ hcall)
    rw [batchCalls, List.flatMap_append, List.foldl_append]
    refine ih ?_ fun call hcall => htracked call (List.mem_append_right _ hcall)
    rw [applyVertex_chain]
    refine hdone.congr (flagVertex_ledger ..) ?_
    unfold flagVertex recordProducedMember
    dsimp only
    split <;> rfl

theorem Frozen.decide {batch : List BatchVertex} (h : c.Frozen cap v)
    (htracked : ∀ call ∈ c.turnCalls cfg (.decide batch), call.RefsTracked cfg) :
    (c.decideRound cfg batch).Frozen cap
      ((c.turnEdits cfg cap (.decide batch)).foldl Edit.update v) := by
  have hbatch := @Frozen.batch cap v cfg c.lastCommitted
    { chain := c
      verdicts := verifyRoundProofs (c.node cfg) c.lastCommitted.toNat
        (batch.flatMap (·.transactions)) } batch h htracked
  rw [turnEdits, List.foldl_append, turnBoundaries]
  unfold decideRound advanceCommitCursor
  dsimp only
  split
  · have hmoved : ({ c.applyBatch cfg c.lastCommitted batch with
        lastCommitted := c.lastCommitted + 1 } : Chain).Shown cap _ :=
      hbatch.toShown.congr rfl rfl rfl
    have hcrossed := hmoved.transitionEpoch cfg
    rw [List.flatMap_singleton]
    exact ⟨hcrossed.congr rfl rfl rfl, by rw [transitionEpoch_eq]; rfl⟩
  · split
    · exact hbatch.congr rfl rfl
    · exact hbatch.congr rfl rfl

/-! ## Rebuilds -/

/-- The node as it is saved with a decided round starts at the next one. -/
theorem decideRound_savesCursor (cfg : Config) (c : Chain) (batch : List BatchVertex) :
    ((c.decideRound cfg batch).disk.load cfg).lastCommitted = c.lastCommitted + 1 := by
  have hsaved : (c.decideRound cfg batch).persisted .commitCursor =
      some (putUint64BE (c.decideRound cfg batch).lastCommitted) := by
    unfold decideRound advanceCommitCursor
    dsimp only
    split
    · exact Meta.setBatch_of_mem (nodup_epochBatch rfl) List.mem_cons_self
    · split
      · exact Meta.setBatch_of_mem (nodup_epochBatch rfl) List.mem_cons_self
      · exact Meta.setBatch_of_mem (nodup_accumulatorBatch rfl) List.mem_cons_self
  show ((c.decideRound cfg batch).persisted.loadMetaUint64 .commitCursor).getD 0 = _
  rw [Meta.loadMetaUint64_of_eq hsaved, Option.getD_some, decideRound_cursor]

section Rebuild

variable {cr : Crypto} {ids : List Hash} {names : List Bytes} {m : Manager}
  {vals : List ValidatorLeaf}

theorem holds_rebuildEdit (hfree : Tree.CollisionFree cr.blake3 (ids.map (·.val)))
    (hnames : Tree.CollisionFree cr.blake3 names) (h : Holds cr ids names m (c.ledger.view vals))
    (cap : UInt64) :
    Holds cr ids names (Manager.feed cr {} (c.rebuildEdit cap))
      (c.ledger.view (validatorLeaves cap c.indexHolders)) := by
  rw [← update_rebuildEdit cap c {}]
  have hmem : ∀ {id : Hash}, id.val ∈ ids.map (·.val) → id ∈ ids := by
    intro id hid
    obtain ⟨id', hid', heq⟩ := List.mem_map.1 hid
    rwa [← Subtype.ext heq]
  refine (Index.holds_new cr ids names).feed hfree hnames ?_ ?_
  · intro id hid
    obtain ⟨_, hentry, hid⟩ := List.mem_flatMap.1 hid
    obtain ⟨e, he, rfl⟩ := List.mem_map.1 hentry
    have hedge : c.ledger.tracker.getParent e.1 = some (e.2.parentKind, e.2.parent) := by
      rw [Tracker.getParent, AList.mem_lookup_iff.2 he]
      rfl
    rcases List.mem_cons.1 hid with rfl | hid
    · exact hmem (h.hierarchy.child_mem (by
        show c.ledger.tracker.getParent e.1 ≠ none
        rw [hedge]
        exact Option.some_ne_none _))
    · rw [List.mem_singleton.1 hid]
      exact hmem (h.hierarchy.named e.1 _ _ hedge)
  · intro name hname
    obtain ⟨_, hentry, rfl⟩ := List.mem_map.1 hname
    obtain ⟨e, he, rfl⟩ := List.mem_map.1 hentry
    obtain ⟨map, -, hkeys, hlook⟩ := h.domain
    apply hkeys
    rw [← AList.mem_keys, ← AList.lookup_isSome, hlook]
    show ((c.ledger.domains.lookup e.1).map (Index.encodeDomainLeaf e.1)).isSome = true
    rw [AList.mem_lookup_iff.2 he]
    rfl

section

variable (hfree : Tree.CollisionFree cfg.crypto.blake3 (ids.map (·.val)))
  (hnames : Tree.CollisionFree cfg.crypto.blake3 names)

include hfree hnames

/-- The index of a node with frozen holders has the root of a rebuild. -/
theorem rebuiltRoot_eq (h : Holds cfg.crypto ids names m v) (hfrozen : c.Frozen cap v) :
    c.rebuiltRoot cfg cap = m.root cfg.crypto := by
  obtain ⟨holders, hholders⟩ := Option.isSome_iff_exists.1 hfrozen.isSome
  have hvals := hfrozen.frozen holders hholders
  rw [← indexHolders_of_frozen hholders] at hvals
  have hview := hfrozen.ledger
  rw [hvals] at hview
  rw [← hview] at h
  exact (holds_rebuildEdit hfree hnames h cap).root_eq hfree h

theorem rebuiltRoot_congr (h : Holds cfg.crypto ids names m (c.ledger.view vals))
    (hsame : c.SameSources cap c') : c'.rebuiltRoot cfg cap = c.rebuiltRoot cfg cap := by
  have hviews : ∀ vals, c'.ledger.view vals = c.ledger.view vals := by
    intro vals
    rw [Ledger.view, Ledger.view, hsame.edges, funext hsame.domains]
  have h' := h
  rw [← hviews] at h'
  have hrebuilt := holds_rebuildEdit hfree hnames h' cap
  rw [hsame.holders, hviews] at hrebuilt
  exact hrebuilt.root_eq hfree (holds_rebuildEdit hfree hnames h cap)

end

end Rebuild

theorem toNat_succ {x : UInt64} (h : x.toNat + 1 < 2 ^ 64) : (x + 1).toNat = x.toNat + 1 := by
  rw [UInt64.toNat_add]
  exact Nat.mod_eq_of_lt h

theorem below_rebuildEdit (cr : Crypto) (cap : UInt64) (c : Chain) (n : Nat) :
    (Manager.feed cr {} (c.rebuildEdit cap)).Below n :=
  ⟨by simp [Manager.feed, rebuildEdit, Manager.buildFromState],
    by simp [Manager.feed, rebuildEdit, Manager.buildFromState]⟩

/-- A start anchors the root of its rebuild at the round before its cursor. -/
theorem backfillIndex_frontier (cfg : Config) (cap : UInt64) {c : Chain} {round : UInt64}
    (hcursor : c.lastCommitted = round + 1) (hroom : round.toNat + 1 < 2 ^ 64) :
    (c.backfillIndex cfg cap).committedFrontier = (round, c.rebuiltRoot cfg cap) := by
  have hpos : round + 1 > 0 := by
    rw [gt_iff_lt, UInt64.lt_iff_toNat_lt, toNat_succ hroom]
    exact Nat.succ_pos _
  have hsub : round + 1 - 1 = round := UInt64.add_sub_cancel _ _
  unfold backfillIndex
  rw [hcursor, if_pos hpos, hsub]
  exact (Manager.setFrontier_records (below_rebuildEdit ..)).2

end Chain

/-! ## Logs -/

namespace IndexedNode

/-- The index is that of the node, and has recorded decided rounds only. -/
structure Live (cfg : Config) (votingCapMille : UInt64) (ids : List Hash) (names : List Bytes)
    (n : IndexedNode) : Prop where
  view : ∃ v, Holds cfg.crypto ids names n.index v ∧ n.chain.Shown votingCapMille v
  below : n.index.Below n.chain.lastCommitted.toNat

/-- The edits name known identifiers and domain names. -/
def Known (ids : List Hash) (names : List Bytes) (edits : List Edit) : Prop :=
  (∀ e ∈ edits, ∀ id ∈ e.ids, id ∈ ids) ∧ ∀ e ∈ edits, ∀ name ∈ e.names, name ∈ names

theorem Known.append {ids : List Hash} {names : List Bytes} {xs ys : List Edit}
    (h : Known ids names (xs ++ ys)) : Known ids names xs ∧ Known ids names ys :=
  ⟨⟨fun e he => h.1 e (List.mem_append_left _ he), fun e he => h.2 e (List.mem_append_left _ he)⟩,
    fun e he => h.1 e (List.mem_append_right _ he), fun e he => h.2 e (List.mem_append_right _ he)⟩

variable {cfg : Config} {cap : UInt64} {ids : List Hash} {names : List Bytes} {n : IndexedNode}

theorem toNat_sub_one_lt {x : UInt64} (h : x > 0) : (x - 1).toNat < x.toNat := by
  have hpos : 0 < x.toNat := h
  have hone : (1 : UInt64) ≤ x := UInt64.le_iff_toNat_le.2 hpos
  rw [UInt64.toNat_sub_of_le _ _ hone]
  exact Nat.sub_lt hpos Nat.one_pos

theorem live_start (hfree : Tree.CollisionFree cfg.crypto.blake3 (ids.map (·.val)))
    (hnames : Tree.CollisionFree cfg.crypto.blake3 names) (d : Disk)
    (hknown : Known ids names (d.startEdits cfg cap)) :
    (start cfg cap d).Live cfg cap ids names := by
  have hbuilt : Holds cfg.crypto ids names
      (Manager.feed cfg.crypto {} ((d.load cfg).rebuildEdit cap))
      (((d.load cfg).rebuildEdit cap).update {}) :=
    (Index.holds_new cfg.crypto ids names).feed hfree hnames (hknown.1 _ List.mem_cons_self)
      (hknown.2 _ List.mem_cons_self)
  have hfilled : Holds cfg.crypto ids names ((d.load cfg).backfillIndex cfg cap)
      (((d.load cfg).rebuildEdit cap).update {}) := by
    unfold Chain.backfillIndex
    split
    · exact hbuilt.setFrontier _
    · exact hbuilt
  refine ⟨⟨_, ?_, Chain.shown_start cfg cap d {}⟩, ?_⟩
  · exact hfilled.foldl_feed hfree hnames _ (fun e he => hknown.1 e (List.mem_cons_of_mem _ he))
      fun e he => hknown.2 e (List.mem_cons_of_mem _ he)
  · refine Manager.Below.foldl_feed ?_ _
    have hcursor : (d.start cfg).lastCommitted = (d.load cfg).lastCommitted :=
      (Chain.touches_start cfg d).cursor
    show Manager.Below ((d.load cfg).backfillIndex cfg cap) (d.start cfg).lastCommitted.toNat
    rw [hcursor]
    unfold Chain.backfillIndex
    split
    · rename_i hpos
      exact (Chain.below_rebuildEdit ..).setFrontier (toNat_sub_one_lt hpos)
    · exact Chain.below_rebuildEdit ..

/-- With a decided round the index records the root of a rebuild from what the node holds
then, which is also that of any node with the same sources, and the one a restart anchors at
that round if it reads its holders back. -/
structure Anchors (cfg : Config) (votingCapMille : UInt64) (n n' : IndexedNode) : Prop where
  rootAt : n'.index.rootAt n.chain.lastCommitted = some (n'.chain.rebuiltRoot cfg votingCapMille)
  frontier : n'.index.committedFrontier =
    (n.chain.lastCommitted, n'.chain.rebuiltRoot cfg votingCapMille)
  elsewhere : ∀ c, n'.chain.SameSources votingCapMille c →
    c.rebuiltRoot cfg votingCapMille = n'.chain.rebuiltRoot cfg votingCapMille
  restarted : n'.chain.SameSources votingCapMille (n'.chain.disk.load cfg) →
    ((n'.chain.disk.load cfg).backfillIndex cfg votingCapMille).committedFrontier =
      (n.chain.lastCommitted, n'.chain.rebuiltRoot cfg votingCapMille)

section

variable {batch : List BatchVertex} (hfree : Tree.CollisionFree cfg.crypto.blake3 (ids.map (·.val)))
  (hnames : Tree.CollisionFree cfg.crypto.blake3 names) (h : n.Live cfg cap ids names)

include hfree hnames h

theorem Live.decide (hknown : Known ids names (n.chain.turnEdits cfg cap (.decide batch)))
    (htracked : ∀ call ∈ n.chain.turnCalls cfg (.decide batch), call.RefsTracked cfg)
    (hfrozen : n.chain.regime.epochHolders.isSome = true)
    (hroom : n.chain.lastCommitted.toNat + 1 < 2 ^ 64) :
    (n.turn cfg cap (.decide batch)).Live cfg cap ids names ∧
      Anchors cfg cap n (n.turn cfg cap (.decide batch)) := by
  obtain ⟨v, hholds, hshown⟩ := h.view
  have hnext := Chain.Frozen.decide ⟨hshown, hfrozen⟩ htracked
  have hfed := hholds.foldl_feed hfree hnames _ hknown.1 hknown.2
  have hbelow := @Manager.Below.foldl_feed cfg.crypto _ _ h.below
    (n.chain.turnEdits cfg cap (.decide batch))
  obtain ⟨hroot, hfrontier⟩ := @Manager.setFrontier_records cfg.crypto _ _ hbelow
  have hcursor := Chain.decideRound_cursor cfg n.chain batch
  have hrebuilt := Chain.rebuiltRoot_eq hfree hnames hfed hnext
  have helse : ∀ c, (n.chain.decideRound cfg batch).SameSources cap c →
      c.rebuiltRoot cfg cap = (n.chain.decideRound cfg batch).rebuiltRoot cfg cap := by
    intro c hsame
    have hview := hfed
    rw [← hnext.ledger] at hview
    exact Chain.rebuiltRoot_congr hfree hnames hview hsame
  refine ⟨⟨⟨_, hfed.setFrontier _, hnext.toShown⟩, ?_⟩, ⟨?_, ?_, helse, ?_⟩⟩
  · show Manager.Below _ (n.chain.decideRound cfg batch).lastCommitted.toNat
    rw [hcursor, Chain.toNat_succ hroom]
    exact (hbelow.mono (Nat.le_succ _)).setFrontier (Nat.lt_succ_self _)
  · exact hroot.trans (congrArg some hrebuilt.symm)
  · exact hfrontier.trans (congrArg (Prod.mk _) hrebuilt.symm)
  · intro hsame
    refine (Chain.backfillIndex_frontier cfg cap
      (Chain.decideRound_savesCursor cfg n.chain batch) hroom).trans ?_
    exact congrArg (Prod.mk _) (helse _ hsame)

theorem Live.log {before after : List Chain.Turn}
    (hknown : Known ids names (n.chain.logEdits cfg cap (before ++ .decide batch :: after)))
    (htracked : ∀ call ∈ n.chain.logCalls cfg (before ++ .decide batch :: after),
      call.RefsTracked cfg)
    (hdecided : ∀ c ∈ n.chain.logDecided cfg (before ++ .decide batch :: after),
      c.regime.epochHolders.isSome = true ∧ c.lastCommitted.toNat + 1 < 2 ^ 64) :
    Anchors cfg cap (before.foldl (turn cfg cap) n)
      ((before.foldl (turn cfg cap) n).turn cfg cap (.decide batch)) := by
  induction before generalizing n with
  | nil =>
    obtain ⟨hfrozen, hroom⟩ := hdecided n.chain List.mem_cons_self
    exact (h.decide hfree hnames hknown.append.1
      (fun call hcall => htracked call (List.mem_append_left _ hcall)) hfrozen hroom).2
  | cons t before ih =>
    have hlater := hknown.append.2
    have htracked' : ∀ call ∈ (n.chain.turn cfg t).logCalls cfg (before ++ .decide batch :: after),
        call.RefsTracked cfg := fun call hcall => htracked call (List.mem_append_right _ hcall)
    cases t with
    | decide batch' =>
      obtain ⟨hfrozen, hroom⟩ := hdecided n.chain List.mem_cons_self
      have hnext := (h.decide hfree hnames hknown.append.1
        (fun call hcall => htracked call (List.mem_append_left _ hcall)) hfrozen hroom).1
      exact ih hnext hlater htracked' fun c hc => hdecided c (List.mem_cons_of_mem _ hc)
    | addValidator pubkey quicAddr bls =>
      obtain ⟨v, hholds, hshown⟩ := h.view
      exact ih ⟨⟨v, hholds, hshown.congr rfl rfl rfl⟩, h.below⟩ hlater htracked' hdecided
    | restart =>
      exact ih (live_start hfree hnames n.chain.disk hknown.append.1) hlater htracked' hdecided

end

/-- With every round a log decides, the index records the root of a rebuild from the tracker,
the names and the frozen holders of that moment: if the admitted transactions of the log
reference only tracked objects mutably, every decided round finds frozen holders, the rounds
do not run out, and what the log feeds does not collide. -/
theorem live_index_equals_rebuild (cfg : Config) (votingCapMille : UInt64) (d : Disk)
    (turns : List Chain.Turn)
    (hids : Tree.CollisionFree cfg.crypto.blake3
      (((d.logEdits cfg votingCapMille turns).flatMap Edit.ids).map (·.val)))
    (hnames : Tree.CollisionFree cfg.crypto.blake3
      ((d.logEdits cfg votingCapMille turns).flatMap Edit.names))
    (htracked : ∀ call ∈ (d.start cfg).logCalls cfg turns, call.RefsTracked cfg)
    (hdecided : ∀ c ∈ (d.start cfg).logDecided cfg turns,
      c.regime.epochHolders.isSome = true ∧ c.lastCommitted.toNat + 1 < 2 ^ 64) :
    ∀ before batch after, turns = before ++ .decide batch :: after →
      let n := before.foldl (turn cfg votingCapMille) (start cfg votingCapMille d)
      Anchors cfg votingCapMille n (n.turn cfg votingCapMille (.decide batch)) := by
  rintro before batch after rfl
  have hknown : Known _ _ (d.logEdits cfg votingCapMille (before ++ .decide batch :: after)) :=
    ⟨fun e he id hid => List.mem_flatMap.2 ⟨e, he, hid⟩,
      fun e he name hname => List.mem_flatMap.2 ⟨e, he, hname⟩⟩
  have hstart := live_start hids hnames d hknown.append.1
  exact hstart.log hids hnames hknown.append.2 htracked hdecided

/-- The founder calls a pod on its own coin and the next round closes the epoch: both rounds
are anchored, and a restart behind the second anchors the same pair. -/
theorem live_index_equals_rebuild_ownCoin :
    let n := (start foundedConfig 100 {}).turn foundedConfig 100 (.decide [founderVertex ownCoinTx])
    n.chain.lastCommitted = 1 ∧
      Anchors foundedConfig 100 n (n.turn foundedConfig 100 (.decide [])) := by
  refine ⟨by decide +kernel, ?_⟩
  refine live_index_equals_rebuild foundedConfig 100 {} ownCoinTurns ?_ ?_ ?_ ?_
    [.decide [founderVertex ownCoinTx]] [] [] rfl
  · unfold Tree.CollisionFree
    decide +kernel
  · unfold Tree.CollisionFree
    decide +kernel
  · intro call hcall tx hadmits
    obtain rfl : call = ownCoinCall := List.mem_singleton.1 hcall
    obtain rfl := Option.some.inj hadmits.transaction
    have htracked : ∀ id ∈ (creatingBody (idOf 11) []).mutableRefIDs,
        ownCoinCall.chain.ledger.tracker.getParent id ≠ none := by decide +kernel
    exact htracked
  · decide +kernel

end IndexedNode

/-- The founder references an object that is not tracked. -/
def untrackedRefTx : AttestedTransaction where
  transaction := some (signedTx
    { sender := (idOf 1).val
      pod := (idOf 7).val
      functionName := ascii "create"
      gasCoin := (idOf 11).val
      maxGas := 100
      mutableRefs := [{ id := (idOf 9).val }] })

/-- The version check makes an entry that the index is not told of: the root recorded with
the round is not that of a rebuild, and a restart anchors another root at the same round. -/
theorem untracked_ref_forks_rebuild :
    let n := (IndexedNode.start foundedConfig 100 {}).turn foundedConfig 100
      (.decide [founderVertex untrackedRefTx])
    n.index.committedFrontier.1 = 0 ∧
      n.index.committedFrontier.2 ≠ n.chain.rebuiltRoot foundedConfig 100 ∧
      (n.turn foundedConfig 100 .restart).index.committedFrontier =
        (0, n.chain.rebuiltRoot foundedConfig 100) := by
  decide +kernel

end BluePods
