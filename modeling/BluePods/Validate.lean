import BluePods.Dag

/-! Vertex production and admission: which parents a node gives its own vertex,
when it may produce, and what it checks of a vertex it receives. -/

namespace BluePods

/-- Why a vertex is not admitted. A missing parent and an unknown producer buffer
the vertex; a wrong index root quarantines it and still stores it. -/
inductive VertexError where
  | unknownProducer
  | badSignature
  | wrongEpoch
  | missingParent (parent : Hash)
  | parentRound
  | parentQuorum
  | feeSummary
  | indexRoot
  deriving DecidableEq

/-- The two checks that read a vertex's signed bytes and transactions rather than
its place in the DAG. -/
structure VertexChecks where
  signature : Vertex → Bool
  feeSummary : Vertex → Bool

def transitionGraceRounds : Nat := 20

def transitionBufferRounds : Nat := 10

namespace DAG

def effectiveGrace (d : DAG) : Nat :=
  if 0 < d.graceRounds then d.graceRounds else transitionGraceRounds

def effectiveBuffer (d : DAG) : Nat :=
  if 0 < d.bufferRounds then d.bufferRounds else transitionBufferRounds

/-- The window, by the node's own round. -/
def isInTransitionOrBuffer (d : DAG) : Bool :=
  match d.transitionRound with
  | none => false
  | some tr => decide (d.currentRound < tr + d.effectiveGrace + d.effectiveBuffer)

/-- The window, by a vertex's round, extended until a full quorum is seen. -/
def isRoundInTransitionOrBuffer (d : DAG) (round : Nat) : Bool :=
  match d.transitionRound with
  | none => false
  | some tr =>
    decide (round < tr + d.effectiveGrace + d.effectiveBuffer) || !d.fullQuorumAchieved

/-! ## Index anchors -/

/-- An empty root is tolerated on vertices of the genesis epoch. -/
def toleratesZeroAnchor (d : DAG) (v : Vertex) : Bool :=
  decide (v.indexRoot = zeroHash) && decide (d.commitEpochForRound v.round = 0)

/-- The vertex's anchored root contradicts this node's retained history. -/
def anchorLie (d : DAG) (v : Vertex) : Bool :=
  match d.indexer with
  | none => false
  | some idx =>
    if v.frontierRound > idx.committedFrontier then false
    else
      match idx.rootAt v.frontierRound with
      | none => false
      | some computed =>
        if v.indexRoot = computed then false else !d.toleratesZeroAnchor v

def provenLiar (d : DAG) (h : Hash) (v : Vertex) : Bool :=
  if h ∈ d.store.quarantinedVertices then true else d.anchorLie v

/-! ## Production -/

/-- The candidate parents the node has not proved wrong about their anchor. -/
def referenceableParents (d : DAG) (candidates : List Hash) : List Hash :=
  candidates.filter fun h =>
    match d.store.get h with
    | none => false
    | some v => !d.provenLiar h v

def trustedParents (d : DAG) (candidates : List Hash) : List Hash :=
  candidates.filter fun h =>
    match d.store.get h with
    | none => false
    | some v => decide (v.producer ∈ d.trustedProducers)

/-- The parents of the node's own vertex: what it stored of the previous round. -/
def collectParents (d : DAG) (round : Nat) : List Hash :=
  if round = 0 then []
  else
    let candidates := d.store.getByRound (round - 1)
    d.referenceableParents (if d.syncModeActive then d.trustedParents candidates else candidates)

/-- Stored vertices of the round whose producer is a known validator. -/
def validatorVertices (d : DAG) (round : Nat) : List Vertex :=
  d.store.vertices.filter fun v => decide (v.round = round) && d.validators.contains v.producer

def countValidatorVertices (d : DAG) (round : Nat) : Nat := (d.validatorVertices round).length

/-- The round's known producers carry two thirds of the capped stake; one vertex is
enough during the transition window. -/
def hasQuorumFromRound (d : DAG) (round : Nat) : Bool :=
  if d.isInTransitionOrBuffer || d.isRoundInTransitionOrBuffer round then
    decide (d.countValidatorVertices round ≥ 1)
  else
    let producers := (d.validatorVertices round).map (·.producer)
    if producers.isEmpty then false
    else
      let set := (d.holdersForEpoch (d.commitEpochForRound round)).getD d.validators
      let (cappedSum, cappedTotal) :=
        cappedStakeOf d.votingCapMille set fun p => decide (p ∈ producers)
      quorumReached cappedSum cappedTotal

def canProduceVertex (d : DAG) (round : Nat) : Bool :=
  if round = 0 then true
  else if d.isBootstrap && decide (0 < d.minValidators) && d.transitionRound.isNone then
    decide (d.countValidatorVertices (round - 1) ≥ 1)
  else d.hasQuorumFromRound (round - 1)

/-! ## Admission -/

/-- Any producer is accepted while the committee is still forming. -/
def validateProducer (d : DAG) (v : Vertex) : Except VertexError Unit :=
  if 0 < d.minValidators ∧ d.validators.len < d.minValidators then .ok ()
  else if d.validators.contains v.producer then .ok ()
  else .error .unknownProducer

/-- The claimed epoch is within one of the epoch its anchored frontier commits in. -/
def validateEpoch (d : DAG) (v : Vertex) : Except VertexError Unit :=
  if d.epochLength = 0 then
    if v.epoch ≠ 0 then .error .wrongEpoch else .ok ()
  else
    let frontierEpoch := d.commitEpochForRound v.frontierRound
    if v.epoch < frontierEpoch - 1 ∨ v.epoch > frontierEpoch + 1 then .error .wrongEpoch
    else .ok ()

/-- An absent parent of an unknown producer is skipped. -/
def validateParentLink (d : DAG) (link : VertexLink) (round : Nat) : Except VertexError Unit :=
  match d.store.get link.hash with
  | none =>
    if d.validators.contains link.producer then .error (.missingParent link.hash) else .ok ()
  | some parent => if parent.round ≠ round - 1 then .error .parentRound else .ok ()

def validateParents (d : DAG) (v : Vertex) : Except VertexError Unit :=
  if v.round = 0 then .ok ()
  else if v.parents.isEmpty then .error .parentRound
  else v.parents.forM fun link => d.validateParentLink link v.round

/-- One known parent producer is enough: the source leaves the stake quorum to the
producing node. -/
def validateParentsQuorum (d : DAG) (v : Vertex) : Except VertexError Unit :=
  if v.round = 0 then .ok ()
  else if 0 < d.minValidators ∧ d.validators.len < d.minValidators then .ok ()
  else if v.parents.any fun link => d.validators.contains link.producer then .ok ()
  else .error .parentQuorum

/-- The checks of a received vertex, in order. -/
def validateVertex (d : DAG) (ck : VertexChecks) (v : Vertex) : Except VertexError Unit := do
  d.validateProducer v
  if !ck.signature v then throw .badSignature
  d.validateEpoch v
  if !d.isRoundInTransitionOrBuffer v.round then d.validateParents v
  d.validateParentsQuorum v
  if !ck.feeSummary v then throw .feeSummary
  if d.anchorLie v then throw .indexRoot

/-- A vertex is stored when it passes, or fails only by its index root. -/
def admits (d : DAG) (ck : VertexChecks) (v : Vertex) : Bool :=
  match d.validateVertex ck v with
  | .ok () => true
  | .error e => decide (e = .indexRoot)

end DAG

/-- The store as it was before its `i`-th vertex arrived. -/
def Store.before (s : Store) (i : Nat) : Store :=
  { s with
    vertices := s.vertices.take i
    nodup := s.nodup.sublist ((List.take_sublist _ _).map _) }

/-- Every vertex outside the transition window was admitted over the vertices that
arrived before it. -/
def DAG.Admitted (d : DAG) (ck : VertexChecks) (s : Store) : Prop :=
  ∀ i ∈ List.range s.vertices.length, ∀ v ∈ s.vertices[i]?,
    d.isRoundInTransitionOrBuffer v.round = true ∨
      (d.withStore (s.before i)).admits ck v = true

instance (d : DAG) (ck : VertexChecks) (s : Store) : Decidable (d.Admitted ck s) :=
  inferInstanceAs (Decidable (∀ i ∈ List.range s.vertices.length, ∀ v ∈ s.vertices[i]?, _ ∨ _))

end BluePods
