import Mathlib

/-! Weighings that determine a multiset: when for every element some weighing sees it and
nothing of lower rank, two multisets with the same weight throughout are the same. -/

namespace Lib.Weighing

variable {α ι : Type*} [DecidableEq α] {s t : Multiset α}

theorem sum_sub_eq {f : α → Nat} (h : (s.map f).sum = (t.map f).sum) :
    ((s - t).map f).sum = ((t - s).map f).sum := by
  have hs : ((s - t).map f).sum + ((s ∩ t).map f).sum = (s.map f).sum := by
    rw [← Multiset.sum_add, ← Multiset.map_add, Multiset.sub_add_inter]
  have ht : ((t - s).map f).sum + ((s ∩ t).map f).sum = (t.map f).sum := by
    rw [← Multiset.sum_add, ← Multiset.map_add, Multiset.inter_comm, Multiset.sub_add_inter]
  omega

variable {rank : α → Nat} {f : ι → α → Nat}

/-- The element of highest rank on one side would be seen by its weighing. -/
private theorem notMem_of_top (hrank : Function.Injective rank)
    (hpeak : ∀ a, ∃ i, f i a ≠ 0 ∧ ∀ b, rank b < rank a → f i b = 0)
    (h : ∀ i, (s.map (f i)).sum = (t.map (f i)).sum) {a : α} (ha : a ∈ s - t)
    (htop : ∀ b ∈ t - s, rank b ≤ rank a) : False := by
  obtain ⟨i, hseen, hlow⟩ := hpeak a
  have hzero : ((t - s).map (f i)).sum = 0 := by
    refine Multiset.sum_eq_zero fun x hx => ?_
    obtain ⟨b, hb, rfl⟩ := Multiset.mem_map.1 hx
    refine hlow b (lt_of_le_of_ne (htop b hb) fun heq => ?_)
    obtain rfl := hrank heq
    have hst := Multiset.mem_sub.1 ha
    have hts := Multiset.mem_sub.1 hb
    omega
  have hpos : f i a ≤ ((s - t).map (f i)).sum :=
    Multiset.single_le_sum (fun _ _ => Nat.zero_le _) _ (Multiset.mem_map_of_mem _ ha)
  rw [sum_sub_eq (h i), hzero] at hpos
  omega

theorem eq_of_forall_sum_eq (hrank : Function.Injective rank)
    (hpeak : ∀ a, ∃ i, f i a ≠ 0 ∧ ∀ b, rank b < rank a → f i b = 0)
    (h : ∀ i, (s.map (f i)).sum = (t.map (f i)).sum) : s = t := by
  by_contra hne
  have hrest : ((s - t) + (t - s)).toFinset.Nonempty := by
    rw [Multiset.toFinset_nonempty]
    intro hzero
    have hcount : ∀ a, s.count a - t.count a + (t.count a - s.count a) = 0 := by
      intro a
      simpa [Multiset.count_add, Multiset.count_sub] using congrArg (Multiset.count a) hzero
    refine hne (Multiset.ext.2 fun a => ?_)
    have := hcount a
    omega
  obtain ⟨a, ha, htop⟩ := Finset.exists_max_image _ rank hrest
  simp only [Multiset.mem_toFinset] at ha htop
  rcases Multiset.mem_add.1 ha with ha | ha
  · exact notMem_of_top hrank hpeak h ha fun b hb => htop b (Multiset.mem_add.2 (.inr hb))
  · exact notMem_of_top hrank hpeak (fun i => (h i).symm) ha fun b hb =>
      htop b (Multiset.mem_add.2 (.inl hb))

end Lib.Weighing
