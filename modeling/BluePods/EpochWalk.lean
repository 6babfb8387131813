import BluePods.Committee

/-! The light client's walk across epochs. Each call to the server may be answered with
anything; the checkpoint moves only from an epoch to the next, to a root signed by a quorum
of the committee cached for the epoch it leaves, and to the committee that root commits to.
What counts as a quorum is weighed over the served list, so it is one of the committee when
no key is served twice and the weights add up in 64 bits. -/

namespace BluePods.Client

variable {set : ValidatorSet}
open Lib.Quorum Lib.SparseTree

/-! ## The client -/

/-- A server's answer: nothing when the transport fails, and possibly a nil response. -/
abbrev Answer (α : Type) := Option (Option α)

/-- Why the walk did not move. -/
inductive WalkError where
  | transport (epoch : UInt64)
  | notServed (epoch : UInt64)
  | refused (cause : Refusal)
  deriving DecidableEq

structure LightClient where
  checkpoint : Checkpoint
  set : ValidatorSet
  advanceErr : Option WalkError

def newLightClient (cp : Checkpoint) : LightClient := ⟨cp, ⟨0, []⟩, none⟩

/-- Why an anchor is not returned. -/
inductive AnchorError where
  | treeTransport
  | bundleTransport
  | refused (cause : Refusal)
  | unanchored
  | indexMoved (answer attested : Hash)
  | noFrontier (round : UInt64) (last : Option AnchorError)

/-- What the server answers during one `Anchor` call: the checkpoint's validator tree, if it
is asked for, the bundle, and the next epoch's validator tree, if it is asked for. -/
structure Answers where
  pinned : Answer GetValidatorTreeResponse
  bundle : Answer GetIndexAnchorResponse
  next : Answer GetValidatorTreeResponse

namespace LightClient

/-- The cached committee, or the checkpoint's one from the server. -/
def validatorSet (cr : Crypto) (lc : LightClient) (pinned : Answer GetValidatorTreeResponse) :
    Except AnchorError ValidatorSet × LightClient :=
  if lc.set.leaves.length > 0 then (.ok lc.set, lc)
  else
    match pinned with
    | none => (.error .treeTransport, lc)
    | some resp =>
      match lc.checkpoint.authenticate cr resp with
      | .error cause => (.error (.refused cause), lc)
      | .ok set => (.ok set, { lc with set })

/-- The checkpoint and the committee after the walk, or why it did not move. -/
def advance (cr : Crypto) (lc : LightClient) (attested : VerifiedAnchor)
    (next : Answer GetValidatorTreeResponse) : Option WalkError × LightClient :=
  match next with
  | none => (some (.transport attested.epoch), lc)
  | some none => (some (.notServed attested.epoch), lc)
  | some (some resp) =>
    if resp.epoch ≠ attested.epoch then (some (.notServed attested.epoch), lc)
    else
      match attested.verifyValidatorSet cr (some resp) with
      | .error cause => (some (.refused cause), lc)
      | .ok set =>
        let checkpoint : Checkpoint :=
          { epoch := set.epoch
            indexRoot := attested.indexRoot
            validatorSetHash := validatorRootOf cr set.leaves }
        (none, { lc with checkpoint, set })

def anchor (cr : Crypto) (lc : LightClient) (answers : Answers) :
    Except AnchorError VerifiedAnchor × LightClient :=
  match lc.validatorSet cr answers.pinned with
  | (.error e, lc) => (.error e, lc)
  | (.ok set, lc) =>
    match answers.bundle with
    | none => (.error .bundleTransport, lc)
    | some bundle =>
      match verifyAnchor cr bundle set with
      | .error cause => (.error (.refused cause), lc)
      | .ok attested =>
        if attested.epoch > set.epoch then
          let (advanceErr, lc) := lc.advance cr attested answers.next
          (.ok attested, { lc with advanceErr })
        else (.ok attested, { lc with advanceErr := none })

/-- Polls until a frontier at or past a round; the deadline passes during the last one. -/
def waitForFrontier (cr : Crypto) (round : UInt64) :
    LightClient → Answers → List Answers → Except AnchorError VerifiedAnchor × LightClient
  | lc, answers, [] =>
    match lc.anchor cr answers with
    | (.ok attested, lc) =>
      if attested.frontierRound ≥ round then (.ok attested, lc)
      else (.error (.noFrontier round none), lc)
    | (.error e, lc) => (.error (.noFrontier round (some e)), lc)
  | lc, answers, poll :: polls =>
    match lc.anchor cr answers with
    | (.ok attested, lc) =>
      if attested.frontierRound ≥ round then (.ok attested, lc)
      else waitForFrontier cr round lc poll polls
    | (.error _, lc) => waitForFrontier cr round lc poll polls

/-- The anchoring block of an answer with the frontier and root it claims. -/
structure AnsweredAt extends ProvedIndexAnchor where
  frontierRound : UInt64
  indexRoot : Hash

def attest (cr : Crypto) (lc : LightClient) (block : AnsweredAt) (answers poll : Answers)
    (polls : List Answers) : Except AnchorError VerifiedAnchor × LightClient :=
  if !block.anchored then (.error .unanchored, lc)
  else
    match lc.anchor cr answers with
    | (.error e, lc) => (.error e, lc)
    | (.ok attested, lc) =>
      if attested.indexRoot = block.indexRoot then (.ok attested, lc)
      else
        match lc.waitForFrontier cr block.frontierRound poll polls with
        | (.error e, lc) => (.error e, lc)
        | (.ok attested, lc) =>
          if attested.indexRoot ≠ block.indexRoot then
            (.error (.indexMoved block.indexRoot attested.indexRoot), lc)
          else (.ok attested, lc)

/-- A call on the client, with the answers the server gives to it. -/
inductive Call where
  | anchor (answers : Answers)
  | attest (block : AnsweredAt) (answers poll : Answers) (polls : List Answers)

def step (cr : Crypto) (lc : LightClient) : Call → LightClient
  | .anchor answers => (lc.anchor cr answers).2
  | .attest block answers poll polls => (lc.attest cr block answers poll polls).2

def run (cr : Crypto) (lc : LightClient) (calls : List Call) : LightClient :=
  calls.foldl (step cr) lc

/-- All answers the server gives during a call. -/
def Call.answers : Call → List Answers
  | .anchor answers => [answers]
  | .attest _ answers poll polls => answers :: poll :: polls

end LightClient

/-! ## Trust -/

/-- The committee rebuilds the hash a checkpoint pins, or the validator component of the
index root it pins. -/
def Pinned (cr : Crypto) (cp : Checkpoint) (leaves : List ValidatorLeaf) : Prop :=
  validatorRootOf cr leaves = cp.validatorSetHash ∨
    ∃ domain parent children,
      combinedRoot cr domain parent children (validatorRootOf cr leaves) = cp.indexRoot

/-- A cached committee is one the checkpoint pins, for the checkpoint's epoch. -/
def Trusted (cr : Crypto) (lc : LightClient) : Prop :=
  lc.set.leaves ≠ [] → lc.set.epoch = lc.checkpoint.epoch ∧ Pinned cr lc.checkpoint lc.set.leaves

/-- The checkpoint moves to the next epoch, and to the committee its new index root commits
to, which is the one cached. -/
structure Advances (cr : Crypto) (lc lc' : LightClient) : Prop where
  epoch : lc'.checkpoint.epoch.toNat = lc.checkpoint.epoch.toNat + 1
  bound : ∃ domain parent children, combinedRoot cr domain parent children
    lc'.checkpoint.validatorSetHash = lc'.checkpoint.indexRoot
  cached : lc'.set.epoch = lc'.checkpoint.epoch
  rebuilds : validatorRootOf cr lc'.set.leaves = lc'.checkpoint.validatorSetHash

/-- The committee cached before has a member's signature for two thirds of its weight, each
on a header that names the new index root and the new epoch. -/
def SignedBy (cr : Crypto) (lc lc' : LightClient) : Prop :=
  (lc.set.leaves.map (·.pubkey)).Nodup ∧ ∃ frontier,
    Attested cr lc.set frontier lc'.checkpoint.indexRoot [lc'.checkpoint.epoch]

/-- One step: the checkpoint stays, or it advances with what `R` asks of the two states. -/
def Change (cr : Crypto) (R : LightClient → LightClient → Prop) (lc lc' : LightClient) : Prop :=
  Trusted cr lc ∧ Trusted cr lc' ∧
    (lc'.checkpoint = lc.checkpoint ∨
      lc.set.leaves ≠ [] ∧ Advances cr lc lc' ∧ R lc lc')

/-- What is asked of a served validator tree: no key twice, and weights that add up. -/
def SoundTree : Answer GetValidatorTreeResponse → Prop
  | some (some resp) => DistinctKeys resp ∧
      ∀ leaves, decodeValidatorLeaves resp.leaves = .ok leaves → 2 * totalWeight leaves < 2 ^ 64
  | _ => True

def SoundAnswers (answers : Answers) : Prop := SoundTree answers.pinned ∧ SoundTree answers.next

/-- A committee with one entry for each member and weights that add up. -/
def SoundSet (set : ValidatorSet) : Prop :=
  (set.leaves.map (·.pubkey)).Nodup ∧ 2 * totalWeight set.leaves < 2 ^ 64

section Walk

variable {resp : GetValidatorTreeResponse} {cr : Crypto} {lc : LightClient}

/-! ## One call to `Anchor` -/

/-- Looking up the committee leaves the checkpoint, and caches a committee it pins. -/
theorem validatorSet_cases (cr : Crypto) (lc : LightClient)
    (pinned : Answer GetValidatorTreeResponse) :
    (lc.validatorSet cr pinned).2.checkpoint = lc.checkpoint ∧
      ((lc.validatorSet cr pinned).2.set = lc.set ∨
        ∃ resp, pinned = some (some resp) ∧
          lc.checkpoint.authenticate cr (some resp) = .ok (lc.validatorSet cr pinned).2.set) ∧
      ∀ set, (lc.validatorSet cr pinned).1 = .ok set → (lc.validatorSet cr pinned).2.set = set := by
  unfold LightClient.validatorSet
  split
  · exact ⟨rfl, .inl rfl, fun set h => Except.ok.inj h⟩
  match pinned with
  | none | some none => exact ⟨rfl, .inl rfl, nofun⟩
  | some (some resp) =>
    dsimp only
    cases hauth : lc.checkpoint.authenticate cr (some resp) with
    | error cause => exact ⟨rfl, .inl rfl, nofun⟩
    | ok set => exact ⟨rfl, .inr ⟨resp, rfl, hauth⟩, fun set' h => Except.ok.inj h⟩

/-- A committee taken through a checkpoint is one it pins, for its epoch. -/
theorem pinned_of_authenticate {cp : Checkpoint} (h : cp.authenticate cr (some resp) = .ok set) :
    set.epoch = cp.epoch ∧ Pinned cr cp set.leaves := by
  constructor
  · simp only [Checkpoint.authenticate] at h
    split at h
    · cases h
    split at h
    · cases h
    rename_i hepoch
    rw [not_not] at hepoch
    split at h
    · rename_i hstrong
      cases h
      rw [verifyValidatorSet_epoch hstrong, hepoch]
    split at h
    · cases h
    split at h
    · cases h
    · cases h
      exact hepoch
  · rcases authenticate_ok h with hstrong | ⟨-, hhash⟩
    · obtain ⟨-, hroot, hcombined⟩ := verifyValidatorSet_ok hstrong
      rw [← hroot] at hcombined
      exact .inr ⟨resp.anchor.domainRoot, resp.anchor.parentRoot, resp.anchor.childrenRoot,
        hcombined⟩
    · exact .inl hhash

/-- The walk stays where it is, or moves to the served committee of the attested root. -/
theorem advance_cases (cr : Crypto) (lc : LightClient) (attested : VerifiedAnchor)
    (next : Answer GetValidatorTreeResponse) :
    (lc.advance cr attested next).2 = lc ∨
      ∃ resp set, next = some (some resp) ∧ resp.epoch = attested.epoch ∧
        attested.verifyValidatorSet cr (some resp) = .ok set ∧
        (lc.advance cr attested next).2 =
          { lc with checkpoint := ⟨set.epoch, attested.indexRoot, validatorRootOf cr set.leaves⟩
                    set := set } := by
  match next with
  | none => exact .inl rfl
  | some none => exact .inl rfl
  | some (some resp) =>
    simp only [LightClient.advance]
    by_cases hepoch : resp.epoch = attested.epoch
    · rw [if_neg (not_not.2 hepoch)]
      cases hset : attested.verifyValidatorSet cr (some resp) with
      | error cause => exact .inl rfl
      | ok set => exact .inr ⟨resp, set, rfl, hepoch, hset, rfl⟩
    · rw [if_pos hepoch]
      exact .inl rfl

/-- What one `Anchor` call does: look up the committee, then stay or walk on. -/
theorem anchor_cases (cr : Crypto) (lc : LightClient) (answers : Answers) :
    let lc' := (lc.validatorSet cr answers.pinned).2
    (((lc.anchor cr answers).2.checkpoint = lc'.checkpoint ∧
        (lc.anchor cr answers).2.set = lc'.set) ∨
      ∃ bundle attested resp set, verifyAnchor cr bundle lc'.set = .ok attested ∧
        attested.epoch > lc'.set.epoch ∧ answers.next = some (some resp) ∧
        resp.epoch = attested.epoch ∧ attested.verifyValidatorSet cr (some resp) = .ok set ∧
        (lc.anchor cr answers).2.checkpoint =
          ⟨set.epoch, attested.indexRoot, validatorRootOf cr set.leaves⟩ ∧
        (lc.anchor cr answers).2.set = set) := by
  obtain ⟨-, -, hset⟩ := validatorSet_cases cr lc answers.pinned
  rw [LightClient.anchor]
  generalize lc.validatorSet cr answers.pinned = looked at hset
  obtain ⟨result, lc'⟩ := looked
  cases result with
  | error e => exact .inl ⟨rfl, rfl⟩
  | ok set =>
    obtain rfl : lc'.set = set := hset set rfl
    cases answers.bundle with
    | none => exact .inl ⟨rfl, rfl⟩
    | some bundle =>
      dsimp only
      cases hverify : verifyAnchor cr bundle lc'.set with
      | error cause => exact .inl ⟨rfl, rfl⟩
      | ok attested =>
        dsimp only
        by_cases hlater : attested.epoch > lc'.set.epoch
        · rw [if_pos hlater]
          rcases advance_cases cr lc' attested answers.next with
            hstay | ⟨resp, set, hnext, hepoch, htaken, hmoved⟩
          · exact .inl ⟨congrArg (·.checkpoint) hstay, congrArg (·.set) hstay⟩
          · exact .inr ⟨bundle, attested, resp, set, hverify, hlater, hnext, hepoch, htaken,
              congrArg (·.checkpoint) hmoved, congrArg (·.set) hmoved⟩
        · rw [if_neg hlater]
          exact .inl ⟨rfl, rfl⟩

/-! ## Every call -/

/-- `R` holds between any two states the walk moves between, starting in a committee with
`I` that served answers with `P` keep. -/
structure Keeps (cr : Crypto) (P : Answers → Prop) (I : ValidatorSet → Prop)
    (R : LightClient → LightClient → Prop) : Prop where
  pinned : ∀ {answers resp} {cp : Checkpoint} {set}, P answers →
    answers.pinned = some (some resp) → cp.authenticate cr (some resp) = .ok set → I set
  next : ∀ {answers resp} {a : VerifiedAnchor} {set}, P answers →
    answers.next = some (some resp) → a.verifyValidatorSet cr (some resp) = .ok set → I set
  moved : ∀ {lc lc' : LightClient} {bundle attested}, I lc.set →
    verifyAnchor cr bundle lc.set = .ok attested → attested.epoch = lc.set.epoch + 1 →
    lc'.checkpoint.indexRoot = attested.indexRoot → lc'.checkpoint.epoch = attested.epoch →
    R lc lc'

variable {P : Answers → Prop} {I : ValidatorSet → Prop} {R : LightClient → LightClient → Prop}

/-- The states a run goes through, and what holds at its end. -/
def Reached (cr : Crypto) (I : ValidatorSet → Prop) (R : LightClient → LightClient → Prop)
    (lc lc' : LightClient) : Prop :=
  Relation.ReflTransGen (Change cr R) lc lc' ∧ Trusted cr lc' ∧ I lc'.set

theorem Reached.trans {lc lc' lc'' : LightClient} (h : Reached cr I R lc lc')
    (h' : Reached cr I R lc' lc'') : Reached cr I R lc lc'' :=
  ⟨h.1.trans h'.1, h'.2⟩

section Through

variable (hkeeps : Keeps cr P I R) (hok : Trusted cr lc ∧ I lc.set)
include hkeeps hok

theorem reached_validatorSet {answers : Answers} (hP : P answers) :
    Reached cr I R lc (lc.validatorSet cr answers.pinned).2 := by
  obtain ⟨hcp, hset, -⟩ := validatorSet_cases cr lc answers.pinned
  have hboth : Trusted cr (lc.validatorSet cr answers.pinned).2 ∧
      I (lc.validatorSet cr answers.pinned).2.set := by
    rcases hset with hset | ⟨resp, hresp, hauth⟩
    · rw [Trusted, hset, hcp]
      exact hok
    · obtain ⟨hepoch, hpin⟩ := pinned_of_authenticate hauth
      rw [Trusted, hcp]
      exact ⟨fun _ => ⟨hepoch, hpin⟩, hkeeps.pinned hP hresp hauth⟩
  exact ⟨.single ⟨hok.1, hboth.1, .inl hcp⟩, hboth⟩

omit hkeeps hok in
/-- In the handoff window, an epoch past the committee's is the next one, without a wrap. -/
theorem epoch_of_later {bundle : Option GetIndexAnchorResponse} {a : VerifiedAnchor}
    (h : verifyAnchor cr bundle set = .ok a) (hlater : a.epoch > set.epoch) :
    a.epoch = set.epoch + 1 ∧ a.epoch.toNat = set.epoch.toNat + 1 := by
  have hlt := UInt64.lt_iff_toNat_lt.1 hlater
  obtain ⟨b, -, -, -, -, ⟨hepoch, -⟩ | ⟨hepoch, -⟩⟩ := verifyAnchor_cases h
  · refine ⟨hepoch, ?_⟩
    have hone : (1 : UInt64).toNat = 1 := rfl
    have hadd := congrArg UInt64.toNat hepoch
    rw [UInt64.toNat_add, hone] at hadd
    have := set.epoch.toNat_lt
    omega
  · rw [hepoch] at hlt
    omega

theorem reached_anchor {answers : Answers} (hP : P answers) :
    Reached cr I R lc (lc.anchor cr answers).2 := by
  refine (reached_validatorSet hkeeps hok hP).trans ?_
  obtain ⟨-, htrust', hI'⟩ := reached_validatorSet hkeeps hok hP
  rcases anchor_cases cr lc answers with
    ⟨hcp, hset⟩ | ⟨bundle, a, resp, set, hverify, hlater, hnext, hepoch, htaken, hcp, hset⟩
  · have htrust'' : Trusted cr (lc.anchor cr answers).2 := by
      rw [Trusted, hcp, hset]
      exact htrust'
    exact ⟨.single ⟨htrust', htrust'', .inl hcp⟩, htrust'', hset ▸ hI'⟩
  · obtain ⟨hnextEpoch, hsucc⟩ := epoch_of_later hverify hlater
    obtain ⟨-, -, hne, -⟩ := verifyAnchor_cases hverify
    obtain ⟨hsame, -⟩ := htrust' hne
    obtain ⟨-, hroot, hcombined⟩ := verifyValidatorSet_ok htaken
    have hnamed := (verifyValidatorSet_epoch htaken).trans hepoch
    have hadv : Advances cr (lc.validatorSet cr answers.pinned).2 (lc.anchor cr answers).2 := by
      refine ⟨?_, ?_, ?_, ?_⟩
      · rw [hcp, hnamed, hsucc, hsame]
      · rw [hcp]
        exact ⟨_, _, _, by rw [hroot]; exact hcombined⟩
      · rw [hcp, hset]
      · rw [hcp, hset]
    have htrust'' : Trusted cr (lc.anchor cr answers).2 := fun _ =>
      ⟨hadv.cached, .inl hadv.rebuilds⟩
    refine ⟨.single ⟨htrust', htrust'', .inr ⟨hne, hadv, ?_⟩⟩, htrust'', ?_⟩
    · exact hkeeps.moved hI' hverify hnextEpoch (congrArg (·.indexRoot) hcp)
        ((congrArg (·.epoch) hcp).trans hnamed)
    · rw [hset]
      exact hkeeps.next hP hnext htaken

theorem reached_waitForFrontier (round : UInt64) {polls : List Answers} {answers : Answers}
    (hP : ∀ a ∈ answers :: polls, P a) :
    Reached cr I R lc (lc.waitForFrontier cr round answers polls).2 := by
  induction polls generalizing lc answers with
  | nil =>
    have hone := reached_anchor hkeeps hok (hP answers List.mem_cons_self)
    rw [LightClient.waitForFrontier]
    generalize lc.anchor cr answers = done at hone
    obtain ⟨result, lc'⟩ := done
    cases result with
    | error e => exact hone
    | ok attested =>
      dsimp only
      split
      · exact hone
      · exact hone
  | cons poll polls ih =>
    have hone := reached_anchor hkeeps hok (hP answers List.mem_cons_self)
    rw [LightClient.waitForFrontier]
    generalize lc.anchor cr answers = done at hone
    obtain ⟨result, lc'⟩ := done
    have hgo := hone.trans (ih hone.2 fun a ha => hP a (List.mem_cons_of_mem _ ha))
    cases result with
    | error e => exact hgo
    | ok attested =>
      dsimp only
      split
      · exact hone
      · exact hgo

theorem reached_step {call : LightClient.Call} (hP : ∀ a ∈ call.answers, P a) :
    Reached cr I R lc (lc.step cr call) := by
  cases call with
  | anchor answers => exact reached_anchor hkeeps hok (hP answers List.mem_cons_self)
  | attest block answers poll polls =>
    have hone := reached_anchor hkeeps hok (hP answers List.mem_cons_self)
    rw [LightClient.step, LightClient.attest]
    split
    · exact ⟨.refl, hok⟩
    generalize lc.anchor cr answers = done at hone
    obtain ⟨result, lc'⟩ := done
    have hwait := hone.trans (reached_waitForFrontier hkeeps hone.2 block.frontierRound
      fun a ha => hP a (List.mem_cons_of_mem _ ha))
    cases result with
    | error e => exact hone
    | ok attested =>
      dsimp only
      split
      · exact hone
      generalize lc'.waitForFrontier cr block.frontierRound poll polls = waited at hwait
      obtain ⟨result, lc''⟩ := waited
      cases result with
      | error e => exact hwait
      | ok attested =>
        dsimp only
        split
        · exact hwait
        · exact hwait

theorem reached_run {calls : List LightClient.Call}
    (hP : ∀ call ∈ calls, ∀ a ∈ call.answers, P a) : Reached cr I R lc (lc.run cr calls) := by
  induction calls generalizing lc with
  | nil => exact ⟨.refl, hok⟩
  | cons call calls ih =>
    have hone := reached_step hkeeps hok (hP call List.mem_cons_self)
    exact hone.trans (ih hone.2 fun c hc => hP c (List.mem_cons_of_mem _ hc))

end Through

/-! ## Sound answers -/

theorem soundSet_of_sound {tree : Answer GetValidatorTreeResponse} (h : SoundTree tree)
    (htree : tree = some (some resp))
    (hdecode : decodeValidatorLeaves resp.leaves = .ok set.leaves) : SoundSet set := by
  rw [htree] at h
  exact ⟨(nodup_iff_distinctKeys hdecode).2 h.1, h.2 _ hdecode⟩

theorem decode_of_authenticate {cp : Checkpoint} (h : cp.authenticate cr (some resp) = .ok set) :
    decodeValidatorLeaves resp.leaves = .ok set.leaves := by
  rcases authenticate_ok h with hstrong | ⟨hdecode, -⟩
  · exact (verifyValidatorSet_ok hstrong).1
  · exact hdecode

/-- Sound answers keep the cached committee sound, and every move is signed by it. -/
theorem keeps_sound (cr : Crypto) : Keeps cr SoundAnswers SoundSet (SignedBy cr) where
  pinned hP hresp hauth := soundSet_of_sound hP.1 hresp (decode_of_authenticate hauth)
  next hP hresp htaken := soundSet_of_sound hP.2 hresp (verifyValidatorSet_ok htaken).1
  moved := by
    intro lc lc' bundle attested hsound hverify hepoch hroot hnamed
    refine ⟨hsound.1, attested.frontierRound, ?_⟩
    obtain ⟨b, rfl, -, hfrontier, hindex, ⟨-, hquorum⟩ | ⟨hcurrent, -⟩⟩ :=
      verifyAnchor_cases hverify
    · rw [hroot, hnamed, hfrontier, hindex, hepoch]
      exact attested_of_next hsound.1 hsound.2 (List.mem_singleton_self _) hquorum
    · rw [hcurrent] at hepoch
      exact absurd hepoch (by simp)

end Walk

/-- A chain of changes never lowers the epoch. -/
theorem epoch_le_of_change {R : LightClient → LightClient → Prop} {lc lc' : LightClient}
    (h : Relation.ReflTransGen (Change cr R) lc lc') :
    lc.checkpoint.epoch.toNat ≤ lc'.checkpoint.epoch.toNat := by
  induction h with
  | refl => exact le_rfl
  | tail _ hstep ih =>
    rcases hstep.2.2 with hstay | ⟨-, hmove, -⟩
    · rwa [hstay]
    · rw [hmove.epoch]
      exact Nat.le_succ_of_le ih

/-- From any checkpoint, whatever the server answers to any sequence of calls, from the state
behind any part of the sequence to the state behind all of it the epoch never falls: step by
step the checkpoint stays or moves to the next epoch, to the committee bound by its new root,
which is cached; and when no answer serves a key twice or weights that overflow, each move is
signed by two thirds of the committee cached before. -/
theorem walk_chain_of_trust (cr : Crypto) (cp : Checkpoint) (before after : List LightClient.Call) :
    let lc := (newLightClient cp).run cr before
    let lc' := (newLightClient cp).run cr (before ++ after)
    lc.checkpoint.epoch.toNat ≤ lc'.checkpoint.epoch.toNat ∧
      Relation.ReflTransGen (Change cr fun _ _ => True) lc lc' ∧
      ((∀ call ∈ before ++ after, ∀ answers ∈ call.answers, SoundAnswers answers) →
        Relation.ReflTransGen (Change cr (SignedBy cr)) lc lc') := by
  have htrust : Trusted cr (newLightClient cp) := fun hne => absurd rfl hne
  have hfree : Keeps cr (fun _ => True) (fun _ => True) fun _ _ => True :=
    ⟨fun _ _ _ => trivial, fun _ _ _ => trivial, fun _ _ _ _ _ => trivial⟩
  have hsplit : (newLightClient cp).run cr (before ++ after) =
      ((newLightClient cp).run cr before).run cr after := List.foldl_append
  rw [hsplit]
  have hbefore := reached_run hfree ⟨htrust, trivial⟩ fun call (_ : call ∈ before) _ _ => trivial
  have hchain := reached_run hfree hbefore.2 fun call (_ : call ∈ after) _ _ => trivial
  refine ⟨epoch_le_of_change hchain.1, hchain.1, fun hsound => ?_⟩
  have hfresh : SoundSet (newLightClient cp).set := ⟨List.nodup_nil, show 2 * 0 < 2 ^ 64 by decide⟩
  have hsigned := reached_run (keeps_sound cr) ⟨htrust, hfresh⟩ fun call hcall =>
    hsound call (List.mem_append_left after hcall)
  exact (reached_run (keeps_sound cr) hsigned.2 fun call hcall =>
    hsound call (List.mem_append_right before hcall)).1

/-! ## A walk from the committee of two -/

/-- A record of the worked committee at frontier 90 that names epoch 4. -/
def handoffRecord (cr : Crypto) (key root : Hash) : Bytes :=
  let header := key.val ++ (putUint64BE 0 ++ (putUint64BE 4 ++ (putUint64BE 90 ++
    (root.val ++ zeroHash.val))))
  header ++ (key.val ++ (headerIdentity cr header).val)

/-- The root that commits to the first member as the only one of epoch 4. -/
def handoffRoot : Hash :=
  combinedRoot tagCrypto zeroHash zeroHash zeroHash (validatorRootOf tagCrypto [firstMember])

def handoffTree : GetValidatorTreeResponse where
  anchor := ⟨true, zeroHash, zeroHash, zeroHash, validatorRootOf tagCrypto [firstMember]⟩
  found := true
  epoch := 4
  leaves := [encodeValidatorLeaf firstMember]

/-- A bundle for that root with records of the given members. -/
def handoffAnswers (cr : Crypto) (leaves : List ValidatorLeaf) (signers : List Hash) : Answers where
  pinned := some (some (servedAs leaves))
  bundle := some (some ⟨true, 90, handoffRoot, signers.map (handoffRecord cr · handoffRoot)⟩)
  next := some (some handoffTree)

theorem walk_chain_of_trust_pair :
    ((newLightClient pairCheckpoint).run tagCrypto
        [.anchor (handoffAnswers tagCrypto pair [idOf 1, idOf 128])]).checkpoint.epoch = 4 ∧
      Relation.ReflTransGen (Change tagCrypto (SignedBy tagCrypto)) (newLightClient pairCheckpoint)
        ((newLightClient pairCheckpoint).run tagCrypto
          [.anchor (handoffAnswers tagCrypto pair [idOf 1, idOf 128])]) := by
  refine ⟨by decide +kernel, (walk_chain_of_trust tagCrypto pairCheckpoint [] _).2.2 ?_⟩
  have hpair : decodeValidatorLeaves (servedAs pair).leaves = .ok pair := by decide +kernel
  have hfirst : decodeValidatorLeaves handoffTree.leaves = .ok [firstMember] := by decide +kernel
  intro call hcall answers hanswers
  obtain rfl := List.mem_singleton.1 hcall
  obtain rfl := List.mem_singleton.1 hanswers
  refine ⟨⟨?_, ?_⟩, ?_, ?_⟩
  · unfold DistinctKeys
    decide +kernel
  · intro leaves h
    obtain rfl := Except.ok.inj (hpair.symm.trans h)
    decide
  · unfold DistinctKeys
    decide +kernel
  · intro leaves h
    obtain rfl := Except.ok.inj (hfirst.symm.trans h)
    decide

/-- Signatures verify for the first member alone: the second never signed anything. -/
def loneCrypto : Crypto :=
  { tagCrypto with ed25519Verify := fun key msg sig => key == (idOf 1).val && sig == key ++ msg }

/-- The first member's signature alone is no quorum of two or more members of weight one. -/
theorem not_attested_lone (hone : ∀ l ∈ set.leaves, l.cappedStake = 1)
    (hlen : 2 ≤ set.leaves.length) (frontier : UInt64) (root : Hash) (epochs : List UInt64) :
    ¬Attested loneCrypto set frontier root epochs := by
  rintro ⟨members, hsub, hnodup, hquorum, hsigned⟩
  have hweight : ∀ leaves : List ValidatorLeaf, (∀ l ∈ leaves, l.cappedStake = 1) →
      totalWeight leaves = leaves.length := by
    intro leaves h
    induction leaves with
    | nil => rfl
    | cons l ls ih =>
      have hl : l.cappedStake.toNat = 1 := by rw [h l List.mem_cons_self]; rfl
      have htail := ih fun x hx => h x (List.mem_cons_of_mem _ hx)
      rw [totalWeight, total_cons, ← totalWeight, htail, hl, List.length_cons, Nat.add_comm]
  have hkey : ∀ m ∈ members, m.pubkey = idOf 1 := by
    intro m hm
    obtain ⟨e, -, header, sig, -, -, -, -, -, -, hverify⟩ := hsigned m hm
    have : m.pubkey.val = (idOf 1).val := by
      simp only [loneCrypto, Bool.and_eq_true, beq_iff_eq] at hverify
      exact hverify.1
    exact Subtype.ext this
  have hshort : members.length ≤ 1 := by
    match members, hkey, hnodup with
    | [], _, _ => simp
    | [_], _, _ => simp
    | m :: m' :: _, hkey, hnodup =>
      rw [List.map_cons, List.map_cons, hkey m (by simp), hkey m' (by simp)] at hnodup
      simp at hnodup
  rw [hweight _ hone, hweight _ fun m hm => hone m (hsub.mem hm)] at hquorum
  omega

/-- Served with the first member repeated, the pinned committee of two is cached as a list of
three. One member's signature then moves the checkpoint, although it is no quorum of the
list, nor of the committee. -/
theorem repeatedMember_moves_checkpoint :
    let lc := (newLightClient pairCheckpoint).run loneCrypto
      [.anchor ⟨some (some (servedAs padded)), none, none⟩]
    let lc' := lc.run loneCrypto [.anchor (handoffAnswers loneCrypto padded [idOf 1])]
    (lc.checkpoint.epoch = 3 ∧ lc'.checkpoint.epoch = 4 ∧
        lc'.checkpoint.indexRoot = handoffRoot) ∧
      (lc.set = ⟨3, padded⟩ ∧ validatorRootOf loneCrypto pair = lc.checkpoint.validatorSetHash) ∧
      (∀ frontier, ¬Attested loneCrypto ⟨3, padded⟩ frontier handoffRoot [4]) ∧
      ∀ frontier, ¬Attested loneCrypto ⟨3, pair⟩ frontier handoffRoot [4] := by
  refine ⟨by decide +kernel, by decide +kernel, ?_, ?_⟩
  · intro frontier
    exact not_attested_lone (by decide) (by decide) frontier _ _
  · intro frontier
    exact not_attested_lone (by decide) (by decide) frontier _ _

end BluePods.Client
