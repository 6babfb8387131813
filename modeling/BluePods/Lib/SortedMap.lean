import Mathlib

/-! A finite map as the list of its pairs in key order, and back. -/

namespace BluePods.Lib.SortedMap

variable {κ ν : Type*} [DecidableEq κ] (r : κ → κ → Prop) [DecidableRel r] [IsTrans κ r]
  [Std.Antisymm r] [Std.Total r]

/-- The pairs of a map in key order. -/
def toPairs (m : Finmap fun _ : κ => ν) : List (κ × ν) :=
  (m.keys.sort r).filterMap fun k => (m.lookup k).map fun v => (k, v)

/-- The map that the pairs build up; the last pair of a key wins. -/
def ofPairs (l : List (κ × ν)) : Finmap fun _ : κ => ν :=
  l.foldl (fun m p => m.insert p.1 p.2) ∅

theorem mem_toPairs {m : Finmap fun _ : κ => ν} {k : κ} {v : ν} :
    (k, v) ∈ toPairs r m ↔ m.lookup k = some v := by
  rw [toPairs, List.mem_filterMap]
  constructor
  · rintro ⟨k', -, hk⟩
    obtain ⟨v', hv, hpair⟩ := Option.map_eq_some_iff.1 hk
    simp only [Prod.mk.injEq] at hpair
    rw [← hpair.1, ← hpair.2]
    exact hv
  · intro h
    refine ⟨k, (Finset.mem_sort r).2 (Finmap.mem_keys.2 (Finmap.mem_of_lookup_eq_some h)), ?_⟩
    rw [h, Option.map_some]

theorem lookup_foldl_insert {l : List (κ × ν)} {k : κ} {o : Option ν}
    (h : ∀ v, (k, v) ∈ l → o = some v) (m : Finmap fun _ : κ => ν)
    (hm : (∀ v, (k, v) ∉ l) → m.lookup k = o) :
    (l.foldl (fun m p => m.insert p.1 p.2) m).lookup k = o := by
  induction l generalizing m with
  | nil => exact hm (by simp)
  | cons p l ih =>
    rw [List.foldl_cons]
    apply ih (fun v hv => h v (List.mem_cons_of_mem p hv))
    intro hlater
    by_cases hp : p.1 = k
    · subst hp
      rw [Finmap.lookup_insert]
      exact (h p.2 List.mem_cons_self).symm
    · rw [Finmap.lookup_insert_of_ne _ (Ne.symm hp)]
      apply hm
      intro v hv
      rcases List.mem_cons.1 hv with he | hv
      · exact hp (by rw [← he])
      · exact hlater v hv

theorem ofPairs_toPairs (m : Finmap fun _ : κ => ν) : ofPairs (toPairs r m) = m := by
  apply Finmap.ext_lookup
  intro k
  apply lookup_foldl_insert
  · intro v hv
    exact (mem_toPairs r).1 hv
  · intro hnone
    rw [Finmap.lookup_empty]
    cases h : m.lookup k with
    | none => rfl
    | some v => exact absurd ((mem_toPairs r).2 h) (hnone v)

theorem toPairs_eq_nil {m : Finmap fun _ : κ => ν} : toPairs r m = [] ↔ m = ∅ := by
  constructor
  · intro h
    have := ofPairs_toPairs r m
    rw [h] at this
    exact this.symm
  · rintro rfl
    rw [List.eq_nil_iff_forall_not_mem]
    rintro ⟨k, v⟩ hp
    have := (mem_toPairs r).1 hp
    rw [Finmap.lookup_empty] at this
    cases this

theorem length_toPairs_le (m : Finmap fun _ : κ => ν) : (toPairs r m).length ≤ m.keys.card := by
  calc (toPairs r m).length
      ≤ (m.keys.sort r).length := List.length_filterMap_le _ _
    _ = m.keys.card := Finset.length_sort r

end BluePods.Lib.SortedMap
