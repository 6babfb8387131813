import BluePods.Lib.Ranking
import BluePods.Shards

/-! Rendezvous placement. The holders of an object are the best of a ranking by score, so
they follow from the keys of the validators, and one validator more or less moves one
holder at most. -/

namespace BluePods

open Lib.Ranking

/-- No two keys score the same for the object. -/
def DistinctScores (cr : Crypto) (objectID : Hash) (keys : List Hash) : Prop :=
  ∀ a ∈ keys, ∀ b ∈ keys, computeScore cr objectID a = computeScore cr objectID b → a = b

/-- The best validator that is not among the holders, or that there is none. -/
def NextBest (cr : Crypto) (objectID : Hash) (vs : ValidatorSet) (holders : List Hash) :
    Option Hash → Prop
  | none => ∀ k ∈ vs.keys, k ∈ holders
  | some k => k ∈ vs.keys ∧ k ∉ holders ∧
    ∀ k' ∈ vs.keys, k' ∉ holders → computeScore cr objectID k' ≤ computeScore cr objectID k

namespace ValidatorSet

variable {vs : ValidatorSet} {pubkey : Hash}

theorem keys_add_new (h : pubkey ∉ vs.keys) (quicAddr : Bytes) (blsPubkey : BLSKey) :
    (vs.add pubkey quicAddr blsPubkey).keys = vs.keys ++ [pubkey] := by
  unfold keys at h
  rw [keys, add, dif_neg h, List.map_append]
  rfl

theorem perm_keys_remove (h : pubkey ∈ vs.keys) :
    (pubkey :: (vs.remove pubkey).keys).Perm vs.keys := by
  obtain ⟨v, hv, rfl⟩ := List.mem_map.1 h
  unfold keys
  simp only [ValidatorSet.remove]
  split
  · rename_i idx last hidx hlast
    obtain ⟨hlt, hkey, -⟩ := List.findIdx?_eq_some_iff_getElem.1 hidx
    have hperm := (perm_set_dropLast (List.getElem?_eq_getElem hlt) hlast).map (·.pubkey)
    rwa [List.map_cons, of_decide_eq_true hkey] at hperm
  · rename_i hnone
    have hfound : (vs.all.findIdx? (·.pubkey = v.pubkey)).isSome = true := by
      rw [List.findIdx?_isSome]
      exact List.any_eq_true.2 ⟨v, hv, by simp⟩
    obtain ⟨idx, hidx⟩ := Option.isSome_iff_exists.1 hfound
    exact (hnone idx _ hidx (List.getLast?_eq_some_getLast (List.ne_nil_of_mem hv))).elim

end ValidatorSet

variable {cr : Crypto} {objectID : Hash} {vs vs' : ValidatorSet} {pubkey : Hash}

theorem computeHolders_eq (cr : Crypto) (vs : ValidatorSet) (objectID : Hash) (replication : Nat) :
    computeHolders cr vs objectID replication =
      (rank (computeScore cr objectID) vs.keys).take replication := rfl

/-- The rankings of two sets that differ in one validator. -/
theorem rank_keys (h : DistinctScores cr objectID vs'.keys)
    (hperm : (pubkey :: vs.keys).Perm vs'.keys) :
    ∃ l₁ l₂, rank (computeScore cr objectID) vs'.keys = l₁ ++ pubkey :: l₂ ∧
      rank (computeScore cr objectID) vs.keys = l₁ ++ l₂ := by
  rw [← rank_congr h hperm]
  exact rank_cons ..

/-- A holder that leaves makes room for the next best validator, and anyone else leaves the
holders as they are. -/
theorem computeHolders_delete (h : DistinctScores cr objectID vs.keys)
    (hperm : (pubkey :: vs'.keys).Perm vs.keys) (replication : Nat) :
    let holders := computeHolders cr vs objectID replication
    (pubkey ∉ holders → computeHolders cr vs' objectID replication = holders) ∧
      (pubkey ∈ holders → ∃ next, NextBest cr objectID vs holders next ∧
        computeHolders cr vs' objectID replication = holders.erase pubkey ++ next.toList) := by
  obtain ⟨l₁, l₂, hrank, hrank'⟩ := rank_keys h hperm
  have hnodup : (l₁ ++ pubkey :: l₂).Nodup := by
    rw [← hrank]
    exact (perm_rank _ _).nodup_iff.2 vs.nodup
  have hmem : ∀ k, k ∈ vs.keys ↔ k ∈ l₁ ++ pubkey :: l₂ := fun k => by
    rw [← hrank]
    exact (perm_rank _ _).mem_iff.symm
  have hfresh : pubkey ∉ l₁ := fun hin =>
    List.disjoint_of_nodup_append hnodup hin List.mem_cons_self
  simp only [computeHolders_eq, hrank, hrank']
  rw [mem_take_middle hfresh]
  refine ⟨fun hle => ?_, fun hlt => ?_⟩
  · rw [List.take_append_of_le_length (by omega), List.take_append_of_le_length (by omega)]
  · obtain ⟨n, rfl⟩ : ∃ n, replication = l₁.length + (n + 1) :=
      ⟨replication - (l₁.length + 1), by omega⟩
    obtain ⟨hafter, hbefore⟩ := take_delete (n := n) hfresh l₂
    rw [hbefore]
    refine ⟨_, ?_, hafter⟩
    have hsplit : l₁ ++ pubkey :: l₂ = (l₁ ++ pubkey :: l₂.take n) ++ l₂.drop n := by simp
    have hsorted := pairwise_rank (computeScore cr objectID) vs.keys
    rw [hrank, hsplit] at hsorted
    rw [hsplit] at hnodup hmem
    have hrest : ∀ k ∈ vs.keys, k ∉ l₁ ++ pubkey :: l₂.take n → k ∈ l₂.drop n := fun k hk hnot =>
      (List.mem_append.1 ((hmem k).1 hk)).resolve_left hnot
    cases hnext : l₂[n]? with
    | none =>
      intro k hk
      by_contra hnot
      have hin := hrest k hk hnot
      rw [List.drop_eq_nil_of_le (List.getElem?_eq_none_iff.1 hnext)] at hin
      cases hin
    | some k =>
      obtain ⟨hn, hk⟩ := List.getElem?_eq_some_iff.1 hnext
      rw [List.drop_eq_getElem_cons hn, hk] at hmem hnodup hsorted hrest
      refine ⟨(hmem k).2 (by simp), fun hin => ?_, fun k' hk' hnot => ?_⟩
      · exact List.disjoint_of_nodup_append hnodup hin List.mem_cons_self
      · rcases List.mem_cons.1 (hrest k' hk' hnot) with rfl | hlater
        · exact le_rfl
        · exact (List.pairwise_cons.1 (List.pairwise_append.1 hsorted).2.1).1 k' hlater

/-- Holders follow from the keys of the set. A newcomer is inserted at most, and the last
holder dropped for it; a validator that leaves is replaced by the next best one if it was a
holder, and otherwise nothing changes. -/
theorem computeHolders_stable (cr : Crypto) (vs : ValidatorSet) (objectID : Hash)
    (replication : Nat) (pubkey : Hash) (quicAddr : Bytes) (blsPubkey : BLSKey)
    (hscores : DistinctScores cr objectID (pubkey :: vs.keys)) :
    let holders := fun vs => computeHolders cr vs objectID replication
    (∀ vs' : ValidatorSet, (∀ k, k ∈ vs'.keys ↔ k ∈ vs.keys) → holders vs' = holders vs) ∧
      (pubkey ∉ vs.keys → ∃ l₁ l₂, holders vs = l₁ ++ l₂ ∧
        holders (vs.add pubkey quicAddr blsPubkey) = (l₁ ++ pubkey :: l₂).take replication) ∧
      (pubkey ∉ holders vs → holders (vs.remove pubkey) = holders vs) ∧
      (pubkey ∈ holders vs → ∃ next, NextBest cr objectID vs (holders vs) next ∧
        holders (vs.remove pubkey) = (holders vs).erase pubkey ++ next.toList) := by
  intro holders
  have hold : DistinctScores cr objectID vs.keys := fun a ha b hb =>
    hscores a (List.mem_cons_of_mem _ ha) b (List.mem_cons_of_mem _ hb)
  refine ⟨fun vs' hkeys => ?_, fun hnew => ?_, fun hnot => ?_, fun hin => ?_⟩
  · have hperm := (List.perm_ext_iff_of_nodup vs'.nodup vs.nodup).2 hkeys
    exact congrArg (List.take replication) (rank_congr hold hperm)
  · have hperm : (pubkey :: vs.keys).Perm (vs.add pubkey quicAddr blsPubkey).keys := by
      rw [ValidatorSet.keys_add_new hnew]
      exact (List.perm_append_singleton pubkey _).symm
    obtain ⟨l₁, l₂, hrank, hrank'⟩ := rank_keys (fun a ha b hb =>
      hscores a (hperm.mem_iff.2 ha) b (hperm.mem_iff.2 hb)) hperm
    simp only [holders, computeHolders_eq, hrank, hrank']
    exact take_insert replication l₁ l₂ pubkey
  · by_cases hmem : pubkey ∈ vs.keys
    · exact (computeHolders_delete hold (ValidatorSet.perm_keys_remove hmem) replication).1 hnot
    · refine congrArg holders (ValidatorSet.remove_of_notMem (List.find?_eq_none.2 fun v hv => ?_))
      simpa using fun hkey => hmem (List.mem_map.2 ⟨v, hv, hkey⟩)
  · have hmem : pubkey ∈ vs.keys := (perm_rank _ _).mem_iff.1 (List.mem_of_mem_take hin)
    exact (computeHolders_delete hold (ValidatorSet.perm_keys_remove hmem) replication).2 hin

/-- The founder and two more validators. -/
def threeValidators : ValidatorSet :=
  (soloValidators.add (idOf 2) [] zeroBLSKey).add (idOf 3) [] zeroBLSKey

/-- A second validator joins the founder, and one of two holders leaves the three. -/
theorem computeHolders_stable_solo :
    (∃ l₁ l₂, computeHolders soloCrypto soloValidators (idOf 11) 1 = l₁ ++ l₂ ∧
      computeHolders soloCrypto (soloValidators.add (idOf 2) [] zeroBLSKey) (idOf 11) 1 =
        (l₁ ++ idOf 2 :: l₂).take 1) ∧
      computeHolders soloCrypto threeValidators (idOf 11) 2 = [idOf 3, idOf 2] ∧
      ∃ next, NextBest soloCrypto (idOf 11) threeValidators [idOf 3, idOf 2] next ∧
        computeHolders soloCrypto (threeValidators.remove (idOf 3)) (idOf 11) 2 =
          [idOf 2] ++ next.toList := by
  have hholders : computeHolders soloCrypto threeValidators (idOf 11) 2 = [idOf 3, idOf 2] := by
    decide +kernel
  have hleaves := (computeHolders_stable soloCrypto threeValidators (idOf 11) 2 (idOf 3) []
    zeroBLSKey (by unfold DistinctScores; decide +kernel)).2.2.2
  simp only [hholders] at hleaves
  exact ⟨(computeHolders_stable soloCrypto soloValidators (idOf 11) 1 (idOf 2) [] zeroBLSKey
    (by unfold DistinctScores; decide +kernel)).2.1 (by decide +kernel), hholders,
    hleaves (by decide)⟩

end BluePods
