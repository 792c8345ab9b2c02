import Mathlib.Probability.ProductMeasure

/-! An endless sequence of independent draws with one law. -/
open MeasureTheory Set

namespace DrawSequence
variable {X : Type*} [MeasurableSpace X] (μ : Measure X) [IsProbabilityMeasure μ]

noncomputable def law : Measure (ℕ → X) := Measure.infinitePi fun _ => μ

instance : IsProbabilityMeasure (law μ) := by
  unfold law
  infer_instance

def split : (ℕ → X) ≃ᵐ X × (ℕ → X) where
  toFun ω := (ω 0, fun n => ω (n + 1))
  invFun d n := Nat.casesOn n d.1 d.2
  left_inv ω := by
    funext n
    cases n <;> rfl
  right_inv d := rfl
  measurable_toFun := by
    apply Measurable.prodMk
    · exact measurable_pi_apply 0
    · exact measurable_pi_lambda _ fun n => measurable_pi_apply (n + 1)
  measurable_invFun := by
    apply measurable_pi_lambda
    intro n
    cases n with
    | zero => exact measurable_fst
    | succ n => exact (measurable_pi_apply n).comp measurable_snd

theorem split_box (s : Finset ℕ) (t : ℕ → Set X) :
    Set.preimage split.symm (Set.pi s t) =
      (if 0 ∈ s then t 0 else univ) ×ˢ
        Set.pi (s.preimage Nat.succ Nat.succ_injective.injOn) fun n => t (n + 1) := by
  ext d
  simp only [mem_preimage, Set.mem_pi, Finset.mem_coe, mem_prod, Finset.mem_preimage]
  constructor
  · intro h
    constructor
    · split_ifs with hzero
      · exact h 0 hzero
      · exact mem_univ _
    · exact fun n hn => h (n + 1) hn
  · intro h n hn
    cases n with
    | zero =>
      have hfirst := h.1
      rw [if_pos hn] at hfirst
      exact hfirst
    | succ n => exact h.2 n hn

theorem prod_succ (s : Finset ℕ) (f : ℕ → ENNReal) :
    ∏ n ∈ s, f n = (if 0 ∈ s then f 0 else 1) *
      ∏ n ∈ s.preimage Nat.succ Nat.succ_injective.injOn, f (n + 1) := by
  have hrest : ∏ n ∈ s.erase 0, f n =
      ∏ n ∈ s.preimage Nat.succ Nat.succ_injective.injOn, f (n + 1) := by
    symm
    apply Finset.prod_bij fun n _ => n + 1
    · intro n hn
      rw [Finset.mem_preimage] at hn
      exact Finset.mem_erase.mpr ⟨n.succ_ne_zero, hn⟩
    · exact fun m _ n _ h => Nat.succ_injective h
    · intro n hn
      obtain ⟨hne, hmem⟩ := Finset.mem_erase.mp hn
      obtain ⟨m, rfl⟩ := Nat.exists_eq_succ_of_ne_zero hne
      exact ⟨m, Finset.mem_preimage.mpr hmem, rfl⟩
    · exact fun _ _ => rfl
  split_ifs with h
  · rw [← hrest, Finset.mul_prod_erase s f h]
  · rw [one_mul, ← hrest, Finset.erase_eq_of_notMem h]

/-- The first draw is independent of the later ones, which again are such a sequence. -/
theorem measurePreserving_split : MeasurePreserving split (law μ) (μ.prod (law μ)) := by
  have hsymm : MeasurePreserving split.symm (μ.prod (law μ)) (law μ) := by
    refine ⟨split.symm.measurable, ?_⟩
    apply Measure.eq_infinitePi
    intro s t ht
    rw [MeasurableEquiv.map_apply, split_box, Measure.prod_prod, law,
      Measure.infinitePi_pi _ fun n _ => ht (n + 1), prod_succ s fun n => μ (t n)]
    split_ifs with hzero
    · rfl
    · rw [measure_univ]
  exact hsymm.symm split.symm

theorem law_split (s : Set (X × (ℕ → X))) :
    law μ {ω | (ω 0, fun n => ω (n + 1)) ∈ s} = (μ.prod (law μ)) s :=
  (measurePreserving_split μ).measure_preimage_equiv s

theorem law_first (s : Set X) : law μ {ω | ω 0 ∈ s} = μ s := by
  have hset : {ω : ℕ → X | ω 0 ∈ s} =
      {ω | (ω 0, fun n => ω (n + 1)) ∈ s ×ˢ (univ : Set (ℕ → X))} := by
    ext ω
    simp
  rw [hset, law_split, Measure.prod_prod, measure_univ, mul_one]

/-- The first draw decides which of two events of the later draws counts. -/
theorem law_ite {a : Set X} (ha : MeasurableSet a) (s t : Set (ℕ → X)) :
    law μ {ω | ω 0 ∈ a ∧ (fun n => ω (n + 1)) ∈ s ∨ ω 0 ∉ a ∧ (fun n => ω (n + 1)) ∈ t} =
      μ a * law μ s + (1 - μ a) * law μ t := by
  have hset : {ω : ℕ → X | ω 0 ∈ a ∧ (fun n => ω (n + 1)) ∈ s ∨
      ω 0 ∉ a ∧ (fun n => ω (n + 1)) ∈ t} =
        {ω | (ω 0, fun n => ω (n + 1)) ∈ a ×ˢ s ∪ aᶜ ×ˢ t} := by
    ext ω
    simp
  have hinter : (a ×ˢ s ∪ aᶜ ×ˢ t) ∩ a ×ˢ univ = a ×ˢ s := by
    ext d
    simp only [mem_inter_iff, mem_union, mem_prod, mem_compl_iff, mem_univ, and_true]
    tauto
  have hsdiff : (a ×ˢ s ∪ aᶜ ×ˢ t) \ a ×ˢ univ = aᶜ ×ˢ t := by
    ext d
    simp only [mem_sdiff, mem_union, mem_prod, mem_compl_iff, mem_univ, and_true]
    tauto
  rw [hset, law_split, ← measure_inter_add_sdiff _ (ha.prod MeasurableSet.univ), hinter, hsdiff,
    Measure.prod_prod, Measure.prod_prod, prob_compl_eq_one_sub ha]

end DrawSequence
