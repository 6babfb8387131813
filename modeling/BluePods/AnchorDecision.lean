import BluePods.Dag
import BluePods.Lib.MultiMap

/-! The anchor decision rule. A round's designated producer is certified or blamed
by the citations of the next round; an undecided round is resolved by the first
later certified anchor, past later rounds that can no longer certify. -/

namespace BluePods
open Lib.MultiMap

inductive AnchorDecision where
  | wait
  | commit (anchor : Hash)
  | skip
  deriving DecidableEq

/-- The direct verdict on a round. `wait` means that the designated producer or the
stake set of the next round does not resolve. -/
inductive AnchorVerdict where
  | wait
  | undecided
  | certified (vertex : Hash)
  | blamed
  deriving DecidableEq

/-- The producers of the next round by the designated vertices they cite, and those
that cite none. -/
structure CitationTally where
  supporters : List (Hash × List Hash) := []
  blamers : List Hash := []

/-- The depth of rounds a holder must be absent from before it counts as silent. -/
def anchorSilenceSpanRounds : Nat := 20

/-! ## Quorums over a holder snapshot -/

/-- Members of the set among the producers. -/
def membersInSet (set : ValidatorSet) (producers : List Hash) : Nat :=
  (set.all.filter fun v => v.pubkey ∈ producers).length

def mergeMemberSets (a b : List Hash) : List Hash := a ++ b

namespace DAG

def reachesStrictQuorum (d : DAG) (set : ValidatorSet) (producers : List Hash) : Bool :=
  let (cappedSum, cappedTotal) :=
    cappedStakeOf d.votingCapMille set fun p => decide (p ∈ producers)
  quorumReached cappedSum cappedTotal

/-- One member supporter certifies in the relaxed regime, a quorum in the strict. -/
def certifies (d : DAG) (set : ValidatorSet) (producers : List Hash) (relaxed : Bool) : Bool :=
  if relaxed then decide (membersInSet set producers ≥ 1)
  else d.reachesStrictQuorum set producers

/-- Even everyone but the given non-supporters falls short of the quorum. -/
def certificationRuledOut (d : DAG) (set : ValidatorSet) (nonSupporters : List Hash) : Bool :=
  let (nonSupportCapped, cappedTotal) :=
    cappedStakeOf d.votingCapMille set fun p => decide (p ∈ nonSupporters)
  if cappedTotal = 0 then false
  else !quorumReached (cappedTotal - nonSupportCapped) cappedTotal

/-! ## The citation tally -/

/-- The designated producer's stored vertices of the round. -/
def designatedVertexSet (d : DAG) (round : Nat) (producer : Hash) : List Hash :=
  d.store.getByRoundProducer round producer

end DAG

/-- The direct parents of a vertex that are candidates. -/
def collectCitedCandidates (v : Vertex) (candidates : List Hash) : List Hash :=
  v.parentHashes.filter fun p => p ∈ candidates

def addSupporter (supporters : List (Hash × List Hash)) (v p : Hash) :
    List (Hash × List Hash) :=
  insertAll supporters v [p]

def sortedHashKeys (m : List (Hash × List Hash)) : List Hash :=
  (keys m).insertionSort (· ≤ ·)

namespace DAG

/-- Each producer of the round with the candidates its vertices cite, the vertices
of an equivocating producer taken together. -/
def citationsByProducer (d : DAG) (round : Nat) (candidates : List Hash) :
    List (Hash × List Hash) :=
  (d.store.getByRound round).foldl (fun result hash =>
    match d.store.get hash with
    | none => result
    | some v => insertAll result v.producer (collectCitedCandidates v candidates)) []

def tallyCitations (d : DAG) (round : Nat) (producer : Hash) : CitationTally :=
  let candidates := d.designatedVertexSet round producer
  let cited := d.citationsByProducer (round + 1) candidates
  cited.foldl (fun tally (p, votes) =>
    if votes.isEmpty then { tally with blamers := tally.blamers ++ [p] }
    else
      { tally with
          supporters := votes.foldl (fun sup v => addSupporter sup v p) tally.supporters }) {}

/-- The first candidate in hash order that certifies; else a strict blame quorum. -/
def verdictFromTally (d : DAG) (set : ValidatorSet) (tally : CitationTally) (relaxed : Bool) :
    AnchorVerdict :=
  match (sortedHashKeys tally.supporters).find? fun v =>
      d.certifies set (values tally.supporters v) relaxed with
  | some v => .certified v
  | none =>
    if !relaxed && d.reachesStrictQuorum set tally.blamers then .blamed else .undecided

def directAnchorVerdict (cr : Crypto) (d : DAG) (round : Nat) : AnchorVerdict :=
  match d.anchorProducerFor cr round with
  | none => .wait
  | some producer =>
    match d.holdersForEpoch (d.commitEpochForRound (round + 1)) with
    | none => .wait
    | some set => d.verdictFromTally set (d.tallyCitations round producer)
        (d.roundIsRelaxed round)

/-! ## Rounds that can no longer certify -/

/-- The holders without a stored vertex in the span above the frontier; none while
the span is not stored to its end. -/
def silentHolders (d : DAG) (set : ValidatorSet) (frontier : Nat) : List Hash :=
  let horizon := frontier + anchorSilenceSpanRounds
  if d.store.highestRound < horizon then []
  else
    (set.all.filter fun v => !d.store.producersInRange frontier horizon v.pubkey).map
      (·.pubkey)

/-- The designated producer stored nothing at the round and is silent above it. -/
def deadDesignatedProducer (cr : Crypto) (d : DAG) (round : Nat) : Bool :=
  match d.anchorProducerFor cr round with
  | none => false
  | some producer =>
    match d.holdersForEpoch (d.commitEpochForRound (round + 1)) with
    | none => false
    | some set =>
      if (d.designatedVertexSet round producer).isEmpty then
        decide (producer ∈ d.silentHolders set (round + 1))
      else false

/-- Whether an undecided round can never certify, and whether blame alone says so. -/
def certImpossibility (cr : Crypto) (d : DAG) (round : Nat) : Bool × Bool :=
  if d.deadDesignatedProducer cr round then (true, false)
  else if d.roundIsRelaxed round then (false, false)
  else
    match d.anchorProducerFor cr round with
    | none => (false, false)
    | some producer =>
      match d.holdersForEpoch (d.commitEpochForRound (round + 1)) with
      | none => (false, false)
      | some set =>
        let tally := d.tallyCitations round producer
        if d.certificationRuledOut set tally.blamers then (true, true)
        else
          let silent := d.silentHolders set (round + 1)
          if silent.isEmpty then (false, false)
          else if d.certificationRuledOut set (mergeMemberSets tally.blamers silent) then
            (true, false)
          else (false, false)

def vertexCitesCandidate (d : DAG) (hash : Hash) (candidates : List Hash) : Bool :=
  match d.store.get hash with
  | none => false
  | some v => v.parentHashes.any fun p => p ∈ candidates

/-- Every stored vertex of the next round's designated producer cites the queried
round's single designated vertex, or that round's producer is dead. -/
def adjacentCertifyAgrees (cr : Crypto) (d : DAG) (round r : Nat) : Bool :=
  if d.deadDesignatedProducer cr round then true
  else
    match d.anchorProducerFor cr round with
    | none => false
    | some producer =>
      let candidates := d.designatedVertexSet round producer
      if candidates.length ≠ 1 then false
      else
        match d.anchorProducerFor cr r with
        | none => false
        | some rProducer =>
          let rVertices := d.store.getByRoundProducer r rProducer
          if rVertices.isEmpty then false
          else rVertices.all fun rv => d.vertexCitesCandidate rv candidates

/-- Whether the forward scan may pass a later undecided round; it waits otherwise. -/
def scanPastUndecided (cr : Crypto) (d : DAG) (round r : Nat) : Bool :=
  let (impossible, byBlame) := d.certImpossibility cr r
  if !impossible then false
  else if !byBlame && decide (r = round + 1) && !d.adjacentCertifyAgrees cr round r then false
  else true

/-! ## Resolution by a later certified anchor -/

/-- A holder neither seen to blame nor silent could still support the round. -/
def relaxedSupporterStillPossible (d : DAG) (round : Nat) (producer : Hash) : Bool :=
  match d.holdersForEpoch (d.commitEpochForRound (round + 1)) with
  | none => false
  | some set =>
    let blamers := (d.tallyCitations round producer).blamers
    let silent := d.silentHolders set (round + 1)
    set.all.any fun v => decide (v.pubkey ∉ blamers) && decide (v.pubkey ∉ silent)

end DAG

/-- The first candidate in the anchor's history is committed. -/
def decideMembership (candidates history : List Hash) : AnchorDecision :=
  match candidates.find? fun c => c ∈ history with
  | some c => .commit c
  | none => .skip

namespace DAG

def resolveIndirect (cr : Crypto) (d : DAG) (round : Nat) (certified : Hash) :
    AnchorDecision :=
  match d.anchorProducerFor cr round with
  | none => .wait
  | some producer =>
    let candidates := d.store.getByRoundProducer round producer
    if candidates.isEmpty then
      if d.roundIsRelaxed round && !d.deadDesignatedProducer cr round then .wait else .skip
    else
      match d.store.causalBatch certified with
      | none => .wait
      | some history =>
        let dec := decideMembership candidates history
        if decide (dec = .skip) && d.roundIsRelaxed round &&
            d.relaxedSupporterStillPossible round producer then .wait
        else dec

/-- The forward scan from `r`, `n` rounds long. -/
def anchorScan (cr : Crypto) (d : DAG) (round : Nat) : Nat → Nat → AnchorDecision
  | 0, _ => .wait
  | n + 1, r =>
    match d.directAnchorVerdict cr r with
    | .certified vertex =>
      if r = round then .commit vertex else d.resolveIndirect cr round vertex
    | .blamed => if r = round then .skip else anchorScan cr d round n (r + 1)
    | .undecided =>
      if r = round then anchorScan cr d round n (r + 1)
      else if d.scanPastUndecided cr round r then anchorScan cr d round n (r + 1)
      else .wait
    | .wait => .wait

/-- Decides a round's anchor over the rounds stored from it on. -/
def anchorStatus (cr : Crypto) (d : DAG) (round : Nat) : AnchorDecision :=
  d.anchorScan cr round (d.store.highestRound + 1 - round) round

end DAG

end BluePods
