import BluePods.AnchorDecision
import BluePods.Lib.Sorted

/-! What the direct verdict means: the maps the tally builds are read back as sets
of citing producers, and a strict verdict becomes a statement about quorums of
them. -/

namespace BluePods

variable {q : Hash → Bool} {d : DAG} {set : ValidatorSet}
open Lib.MultiMap Lib.Quorum Lib.Sorted

/-! ## Citing producers -/

/-- `p` has a stored vertex of the round that cites `v`. -/
def Store.citer (s : Store) (round : Nat) (v p : Hash) : Bool :=
  s.vertices.any fun x => decide (x.round = round ∧ x.producer = p ∧ v ∈ x.parentHashes)

/-- `h` is a stored vertex of the designated producer `P` at the round. -/
def Store.IsCandidate (s : Store) (round : Nat) (P h : Hash) : Prop :=
  ∃ v ∈ s.vertices, v.round = round ∧ v.producer = P ∧ v.hash = h

/-- `p` has a stored vertex of the next round, and none of them cites a candidate. -/
def Store.Blamer (s : Store) (round : Nat) (P p : Hash) : Prop :=
  (∃ x ∈ s.vertices, x.round = round + 1 ∧ x.producer = p) ∧
    ∀ x ∈ s.vertices, x.round = round + 1 → x.producer = p →
      ∀ c, s.IsCandidate round P c → c ∉ x.parentHashes

theorem Store.citer_iff {s : Store} {r : Nat} {v p : Hash} :
    s.citer r v p = true ↔ ∃ x ∈ s.vertices, x.round = r ∧ x.producer = p ∧ v ∈ x.parentHashes := by
  simp [citer]

/-- The producers satisfying `q` reach the strict quorum of the set. -/
def DAG.Quorum (d : DAG) (set : ValidatorSet) (q : Hash → Bool) : Prop :=
  quorumReached (cappedStakeOf d.votingCapMille set q).1
    (cappedStakeOf d.votingCapMille set q).2 = true

theorem DAG.reachesStrictQuorum_iff (d : DAG) (set : ValidatorSet) {l : List Hash}
    (h : ∀ p, p ∈ l ↔ q p = true) : d.reachesStrictQuorum set l = true ↔ d.Quorum set q := by
  have hq : (fun p => decide (p ∈ l)) = q := by
    funext p
    cases hqp : q p with
    | true => simpa using (h p).2 hqp
    | false => simpa [hqp] using (h p).not
  rw [← hq]
  rfl

theorem DAG.Quorum.exists_member (h : d.Quorum set q) : ∃ p, q p = true := by
  apply @exists_of_stakeOf_pos d.votingCapMille set
  by_contra h0
  have hs := toNat_cappedStakeOf_fst d.votingCapMille set q
  have hs0 : (cappedStakeOf d.votingCapMille set q).1 = 0 := by
    rw [← UInt64.toNat_inj, hs, UInt64.toNat_zero]
    omega
  unfold DAG.Quorum quorumReached at h
  split at h
  · simp at h
  · rename_i ht
    rw [hs0, decide_eq_true_eq, ge_iff_le, UInt64.le_iff_toNat_le, toNat_safeMul,
      toNat_safeMul, UInt64.toNat_zero] at h
    have hpos : 0 < (cappedStakeOf d.votingCapMille set q).2.toNat :=
      Nat.pos_of_ne_zero fun h0 => ht (by rw [← UInt64.toNat_inj, h0]; rfl)
    have h2 : (2 : UInt64).toNat = 2 := rfl
    rw [h2] at h
    omega

theorem DAG.Quorum.mono {q' : Hash → Bool} (h : d.Quorum set q)
    (hle : ∀ p, q p = true → q' p = true) : d.Quorum set q' := by
  have hs := toNat_cappedStakeOf_fst d.votingCapMille set q
  have hs' := toNat_cappedStakeOf_fst d.votingCapMille set q'
  have ht : (cappedStakeOf d.votingCapMille set q).2 =
      (cappedStakeOf d.votingCapMille set q').2 := by
    rw [← UInt64.toNat_inj, toNat_cappedStakeOf_snd, toNat_cappedStakeOf_snd]
  have hmono := stakeOf_mono d.votingCapMille set hle
  unfold DAG.Quorum quorumReached at h ⊢
  rw [← ht]
  split at h
  · simp at h
  · rename_i h0
    rw [if_neg h0]
    rw [decide_eq_true_eq, ge_iff_le, UInt64.le_iff_toNat_le] at h ⊢
    refine le_trans h ?_
    have h3 : (3 : UInt64).toNat = 3 := rfl
    rw [toNat_safeMul, toNat_safeMul, h3]
    omega

theorem DAG.quorum_iff (hsat : NoSaturation d.votingCapMille set) (q : Hash → Bool) :
    d.Quorum set q ↔ 0 < totalStake d.votingCapMille set ∧
      2 * totalStake d.votingCapMille set ≤ 3 * stakeOf d.votingCapMille set q :=
  quorumReached_cappedStakeOf hsat q

/-! ## The tally -/

namespace DAG

variable {cr : Crypto} {round : Nat} {P : Hash}

private theorem citationsByProducer_eq (d : DAG) (round : Nat) (candidates : List Hash) :
    d.citationsByProducer round candidates =
      (d.store.vertices.filter (·.round = round)).foldl (fun result v =>
        insertAll result v.producer (collectCitedCandidates v candidates)) [] := by
  unfold citationsByProducer Store.getByRound
  rw [List.foldl_map]
  refine List.foldl_ext _ _ _ fun result v hv => ?_
  rw [Store.get_eq_some.2 ⟨(List.mem_filter.1 hv).1, rfl⟩]

/-- Entries of the citation map: one per producer of the round, with the candidates
its vertices cite. -/
private theorem mem_citationsByProducer (d : DAG) (round : Nat) (candidates : List Hash)
    (p : Hash) (votes : List Hash) (h : (p, votes) ∈ d.citationsByProducer round candidates) :
    (∃ x ∈ d.store.vertices, x.round = round ∧ x.producer = p) ∧
      ∀ c, c ∈ votes ↔ c ∈ candidates ∧ d.store.citer round c p = true := by
  rw [citationsByProducer_eq] at h
  rw [mem_iff_of_nodup (nodup_keys_foldl _ _ _ (by simp [keys]))] at h
  obtain ⟨hkey, rfl⟩ := h
  rw [mem_keys_foldl] at hkey
  constructor
  · simpa [keys, and_assoc] using hkey
  · intro c
    rw [mem_values_foldl, Store.citer_iff]
    simp only [values_nil, List.not_mem_nil, false_or, List.mem_filter, decide_eq_true_eq,
      collectCitedCandidates]
    constructor
    · rintro ⟨x, ⟨hx, hr⟩, hp, hc, hcand⟩
      exact ⟨hcand, x, hx, hr, hp, hc⟩
    · rintro ⟨hcand, x, hx, hr, hp, hc⟩
      exact ⟨x, ⟨hx, hr⟩, hp, hc, hcand⟩

private theorem exists_citationsByProducer (d : DAG) (round : Nat) (candidates : List Hash)
    {x : Vertex} (hx : x ∈ d.store.vertices) (hr : x.round = round) :
    ∃ votes, (x.producer, votes) ∈ d.citationsByProducer round candidates := by
  rw [citationsByProducer_eq]
  refine ⟨_, (mem_iff_of_nodup (nodup_keys_foldl _ _ _ (by simp [keys])) _ _).2 ⟨?_, rfl⟩⟩
  rw [mem_keys_foldl]
  exact .inr ⟨x, List.mem_filter.2 ⟨hx, by simpa using hr⟩, rfl⟩

private theorem foldl_tally (cited : List (Hash × List Hash)) (t : CitationTally) :
    let r := cited.foldl (fun tally (p, votes) =>
      if votes.isEmpty then { tally with blamers := tally.blamers ++ [p] }
      else
        { tally with
            supporters := votes.foldl (fun sup v => addSupporter sup v p) tally.supporters }) t
    (∀ p, p ∈ r.blamers ↔ p ∈ t.blamers ∨ (p, []) ∈ cited) ∧
      (∀ v p, p ∈ values r.supporters v ↔
        p ∈ values t.supporters v ∨ ∃ votes, (p, votes) ∈ cited ∧ v ∈ votes) ∧
      (∀ v, v ∈ keys r.supporters ↔
        v ∈ keys t.supporters ∨ ∃ p votes, (p, votes) ∈ cited ∧ v ∈ votes) := by
  induction cited generalizing t with
  | nil => simp
  | cons e rest ih =>
    obtain ⟨p₀, votes₀⟩ := e
    rw [List.foldl_cons]
    cases votes₀ with
    | nil =>
      obtain ⟨hb, hs, hk⟩ := ih { t with blamers := t.blamers ++ [p₀] }
      refine ⟨fun p => ?_, fun v p => ?_, fun v => ?_⟩
      · refine (hb p).trans ?_
        simp only [List.mem_append, List.mem_cons, Prod.mk.injEq, and_true]
        tauto
      · refine (hs v p).trans ?_
        simp only [List.mem_cons, Prod.mk.injEq]
        grind
      · refine (hk v).trans ?_
        simp only [List.mem_cons, Prod.mk.injEq]
        grind
    | cons w ws =>
      obtain ⟨hb, hs, hk⟩ := ih { t with
        supporters := (w :: ws).foldl (fun sup v => addSupporter sup v p₀) t.supporters }
      have hval : ∀ v p, p ∈ values ((w :: ws).foldl (fun sup v => addSupporter sup v p₀)
          t.supporters) v ↔ p ∈ values t.supporters v ∨ v ∈ w :: ws ∧ p = p₀ := by
        intro v p
        have := mem_values_foldl (fun v : Hash => v) (fun _ => [p₀]) (w :: ws) t.supporters v p
        simpa [addSupporter] using this
      have hkey : ∀ v, v ∈ keys ((w :: ws).foldl (fun sup v => addSupporter sup v p₀)
          t.supporters) ↔ v ∈ keys t.supporters ∨ v ∈ w :: ws := by
        intro v
        have := mem_keys_foldl (fun v : Hash => v) (fun _ => [p₀]) (w :: ws) t.supporters v
        simpa [addSupporter] using this
      refine ⟨fun p => ?_, fun v p => ?_, fun v => ?_⟩
      · refine (hb p).trans ?_
        simp
      · refine (hs v p).trans ?_
        simp only [hval]
        grind
      · refine (hk v).trans ?_
        simp only [hkey]
        grind

section

variable (d round)

theorem mem_designatedVertexSet (P h : Hash) :
    h ∈ d.designatedVertexSet round P ↔ d.store.IsCandidate round P h :=
  Store.mem_getByRoundProducer

theorem mem_supporters (P v p : Hash) :
    p ∈ values (d.tallyCitations round P).supporters v ↔
      d.store.IsCandidate round P v ∧ d.store.citer (round + 1) v p = true := by
  refine ((foldl_tally _ {}).2.1 v p).trans ?_
  simp only [values_nil, List.not_mem_nil, false_or]
  constructor
  · rintro ⟨votes, hmem, hv⟩
    obtain ⟨-, hvotes⟩ := mem_citationsByProducer d _ _ _ _ hmem
    obtain ⟨hc, hp⟩ := (hvotes v).1 hv
    exact ⟨(mem_designatedVertexSet d round P v).1 hc, hp⟩
  · rintro ⟨hc, hp⟩
    obtain ⟨x, hx, hr, rfl, -⟩ := Store.citer_iff.1 hp
    obtain ⟨votes, hmem⟩ := exists_citationsByProducer d (round + 1)
      (d.designatedVertexSet round P) hx hr
    obtain ⟨-, hvotes⟩ := mem_citationsByProducer d _ _ _ _ hmem
    exact ⟨votes, hmem, (hvotes v).2 ⟨(mem_designatedVertexSet d round P v).2 hc, hp⟩⟩

theorem mem_keys_supporters (P v : Hash) :
    v ∈ keys (d.tallyCitations round P).supporters ↔
      ∃ p, p ∈ values (d.tallyCitations round P).supporters v := by
  refine ((foldl_tally _ {}).2.2 v).trans ?_
  simp only [keys, List.map_nil, List.not_mem_nil, false_or]
  refine exists_congr fun p => ?_
  refine Iff.trans ?_ ((foldl_tally _ {}).2.1 v p).symm
  simp

theorem mem_blamers (P p : Hash) :
    p ∈ (d.tallyCitations round P).blamers ↔ d.store.Blamer round P p := by
  refine ((foldl_tally _ {}).1 p).trans ?_
  simp only [List.not_mem_nil, false_or]
  constructor
  · intro hmem
    obtain ⟨hx, hvotes⟩ := mem_citationsByProducer d _ _ _ _ hmem
    refine ⟨hx, fun x hx hr hp c hc hcite => ?_⟩
    have := (hvotes c).2 ⟨(mem_designatedVertexSet d round P c).2 hc,
      Store.citer_iff.2 ⟨x, hx, hr, hp, hcite⟩⟩
    simp at this
  · rintro ⟨⟨x, hx, hr, rfl⟩, hnone⟩
    obtain ⟨votes, hmem⟩ := exists_citationsByProducer d (round + 1)
      (d.designatedVertexSet round P) hx hr
    obtain ⟨-, hvotes⟩ := mem_citationsByProducer d _ _ _ _ hmem
    cases votes with
    | nil => exact hmem
    | cons c cs =>
      obtain ⟨hc, hp⟩ := (hvotes c).1 List.mem_cons_self
      obtain ⟨y, hy, hyr, hyp, hcite⟩ := Store.citer_iff.1 hp
      exact absurd hcite (hnone y hy hyr hyp c ((mem_designatedVertexSet d round P c).1 hc))

end

/-! ## Strict verdicts -/

/-- The producers that blame the round, as a computable set. -/
def blamerSet (d : DAG) (round : Nat) (P : Hash) (p : Hash) : Bool :=
  decide (p ∈ (d.tallyCitations round P).blamers)

theorem blamerSet_iff (d : DAG) (round : Nat) (P p : Hash) :
    d.blamerSet round P p = true ↔ d.store.Blamer round P p := by
  rw [blamerSet, decide_eq_true_eq, mem_blamers]

/-- What a strict verdict reads off the store once producer and holders resolve. -/
structure Resolves (cr : Crypto) (d : DAG) (round : Nat) (P : Hash) (set : ValidatorSet) :
    Prop where
  strict : d.roundIsRelaxed round = false
  producer : d.anchorProducerFor cr round = some P
  holders : d.holdersForEpoch (d.commitEpochForRound (round + 1)) = some set

theorem Resolves.withStore (h : d.Resolves cr round P set) (s : Store) :
    (d.withStore s).Resolves cr round P set :=
  ⟨h.strict, h.producer, h.holders⟩

theorem Resolves.verdict_eq (h : d.Resolves cr round P set) :
    d.directAnchorVerdict cr round = d.verdictFromTally set (d.tallyCitations round P) false := by
  simp only [directAnchorVerdict, h.producer, h.holders, h.strict]

/-- A strict verdict that is not `wait` resolved its producer and holders. -/
theorem exists_resolves (hstrict : d.roundIsRelaxed round = false)
    (h : d.directAnchorVerdict cr round ≠ .wait) : ∃ P set, d.Resolves cr round P set := by
  unfold directAnchorVerdict at h
  cases hp : d.anchorProducerFor cr round with
  | none => simp [hp] at h
  | some P =>
    cases hs : d.holdersForEpoch (d.commitEpochForRound (round + 1)) with
    | none => simp [hp, hs] at h
    | some set => exact ⟨P, set, hstrict, hp, hs⟩

private theorem certifies_iff (d : DAG) (set : ValidatorSet) (round : Nat) (P w : Hash) :
    w ∈ sortedHashKeys (d.tallyCitations round P).supporters ∧
        d.certifies set (values (d.tallyCitations round P).supporters w) false = true ↔
      d.store.IsCandidate round P w ∧ d.Quorum set (d.store.citer (round + 1) w) := by
  rw [sortedHashKeys, List.mem_insertionSort, mem_keys_supporters]
  simp only [certifies, Bool.false_eq_true, if_false]
  have hsup : d.store.IsCandidate round P w → ∀ p,
      p ∈ values (d.tallyCitations round P).supporters w ↔
        d.store.citer (round + 1) w p = true := by
    intro hc p
    rw [mem_supporters]
    exact ⟨fun h => h.2, fun h => ⟨hc, h⟩⟩
  constructor
  · rintro ⟨⟨p, hp⟩, hq⟩
    have hc := ((mem_supporters d round P w p).1 hp).1
    exact ⟨hc, (d.reachesStrictQuorum_iff set (hsup hc)).1 hq⟩
  · rintro ⟨hc, hq⟩
    obtain ⟨p, hp⟩ := hq.exists_member
    exact ⟨⟨p, (hsup hc p).2 hp⟩, (d.reachesStrictQuorum_iff set (hsup hc)).2 hq⟩

/-- Certified: the lowest-hash candidate that a quorum cites. -/
theorem Resolves.certified_iff (h : d.Resolves cr round P set) (v : Hash) :
    d.directAnchorVerdict cr round = .certified v ↔
      d.store.IsCandidate round P v ∧ d.Quorum set (d.store.citer (round + 1) v) ∧
        ∀ w, d.store.IsCandidate round P w → d.Quorum set (d.store.citer (round + 1) w) →
          v ≤ w := by
  have hsorted : (sortedHashKeys (d.tallyCitations round P).supporters).Pairwise (· ≤ ·) :=
    List.pairwise_insertionSort _ _
  have hfind := find?_sorted_eq_some (p := fun v =>
    d.certifies set (values (d.tallyCitations round P).supporters v) false) hsorted v
  rw [← and_assoc, certifies_iff, and_assoc] at hfind
  have hverdict : d.directAnchorVerdict cr round = .certified v ↔
      (sortedHashKeys (d.tallyCitations round P).supporters).find? (fun v =>
        d.certifies set (values (d.tallyCitations round P).supporters v) false) = some v := by
    rw [h.verdict_eq, verdictFromTally]
    split
    · rename_i w hw
      simp [hw]
    · rename_i hnone
      rw [hnone]
      split <;> simp
  rw [hverdict, hfind]
  refine and_congr_right fun _ => and_congr_right fun _ => ?_
  constructor
  · intro hl w hc hq
    obtain ⟨hw, hw'⟩ := (certifies_iff d set round P w).2 ⟨hc, hq⟩
    exact hl w hw hw'
  · intro hl w hw hw'
    obtain ⟨hc, hq⟩ := (certifies_iff d set round P w).1 ⟨hw, hw'⟩
    exact hl w hc hq

/-- A round some candidate of which a quorum cites is certified. -/
theorem Resolves.exists_certified (h : d.Resolves cr round P set) {w : Hash}
    (hc : d.store.IsCandidate round P w) (hq : d.Quorum set (d.store.citer (round + 1) w)) :
    ∃ v, d.directAnchorVerdict cr round = .certified v := by
  rw [h.verdict_eq, verdictFromTally]
  split
  · rename_i v _
    exact ⟨v, rfl⟩
  · rename_i hnone
    obtain ⟨hw, hw'⟩ := (certifies_iff d set round P w).2 ⟨hc, hq⟩
    exact absurd hw' (List.find?_eq_none.1 hnone w hw)

/-- Blamed: no candidate is cited by a quorum, and the blamers are one. -/
theorem Resolves.blamed_iff (h : d.Resolves cr round P set) :
    d.directAnchorVerdict cr round = .blamed ↔
      (∀ w, d.store.IsCandidate round P w → ¬ d.Quorum set (d.store.citer (round + 1) w)) ∧
        d.Quorum set (d.blamerSet round P) := by
  have hblame : d.reachesStrictQuorum set (d.tallyCitations round P).blamers = true ↔
      d.Quorum set (d.blamerSet round P) :=
    d.reachesStrictQuorum_iff set fun p => by rw [blamerSet, decide_eq_true_eq]
  rw [h.verdict_eq, verdictFromTally, ← hblame]
  split
  · rename_i v hv
    have hpv := List.find?_some hv
    have hcert : d.store.IsCandidate round P v ∧
        d.Quorum set (d.store.citer (round + 1) v) :=
      (certifies_iff d set round P v).1 ⟨List.mem_of_find?_eq_some hv, hpv⟩
    simp only [reduceCtorEq, false_iff, not_and]
    intro hnone
    exact absurd hcert.2 (hnone v hcert.1)
  · rename_i hnone
    have hno : ∀ w, d.store.IsCandidate round P w →
        ¬ d.Quorum set (d.store.citer (round + 1) w) := by
      intro w hc hq
      obtain ⟨hw, hw'⟩ := (certifies_iff d set round P w).2 ⟨hc, hq⟩
      exact List.find?_eq_none.1 hnone w hw hw'
    simp only [Bool.not_false, Bool.true_and]
    split
    · rename_i hb
      exact ⟨fun _ => ⟨hno, hb⟩, fun _ => rfl⟩
    · rename_i hb
      simp [hb]

end DAG

end BluePods
