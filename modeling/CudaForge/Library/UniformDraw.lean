import Mathlib.MeasureTheory.Measure.Lebesgue.Basic
import Mathlib.MeasureTheory.Constructions.Pi
import Mathlib.Probability.ConditionalProbability

/-! Uniform draws on `[0, 1)`, finite distributions, and inversion of their partial sums. -/
open MeasureTheory Set

namespace UniformDraw

/-- The law of a draw that is uniform on `[0, 1)`. -/
noncomputable def unit : Measure ℝ := volume.restrict (Ico 0 1)

instance : IsProbabilityMeasure unit := ⟨by simp [unit]⟩

theorem unit_Iic {a : ℝ} (h₀ : 0 ≤ a) (h₁ : a ≤ 1) : unit (Iic a) = ENNReal.ofReal a := by
  rw [unit, Measure.restrict_apply measurableSet_Iic]
  rcases h₁.lt_or_eq with hlt | rfl
  · have hset : Iic a ∩ Ico 0 1 = Icc 0 a := by
      ext r
      simp only [mem_inter_iff, mem_Iic, mem_Ico, mem_Icc]
      constructor
      · exact fun h => ⟨h.2.1, h.1⟩
      · exact fun h => ⟨h.2, h.1, h.2.trans_lt hlt⟩
    rw [hset, Real.volume_Icc, sub_zero]
  · have hset : Iic (1 : ℝ) ∩ Ico 0 1 = Ico 0 1 :=
      inter_eq_right.mpr fun r hr => hr.2.le
    rw [hset, Real.volume_Ico, sub_zero]

theorem unit_Iio {a : ℝ} (h₀ : 0 ≤ a) (h₁ : a ≤ 1) : unit (Iio a) = ENNReal.ofReal a := by
  have hpoint : unit {a} = 0 :=
    le_antisymm (Measure.restrict_apply_le _ _ |>.trans (Real.volume_singleton).le) zero_le
  have hunion : Iic a = Iio a ∪ {a} := Iio_union_right.symm
  have hle : unit (Iic a) ≤ unit (Iio a) := by
    rw [hunion]
    exact (measure_union_le _ _).trans (by rw [hpoint, add_zero])
  exact (le_antisymm (measure_mono Iio_subset_Iic_self) hle).trans (unit_Iic h₀ h₁)

theorem unit_Ioc {a b : ℝ} (h₀ : 0 ≤ a) (hab : a ≤ b) (h₁ : b ≤ 1) :
    unit (Ioc a b) = ENNReal.ofReal (b - a) := by
  have hdiff : Ioc a b = Iic b \ Iic a := by
    ext r
    simp only [mem_Ioc, mem_sdiff, mem_Iic, not_le]
    exact and_comm
  rw [hdiff, measure_sdiff (Iic_subset_Iic.mpr hab) measurableSet_Iic.nullMeasurableSet
    (measure_ne_top _ _), unit_Iic (h₀.trans hab) h₁, unit_Iic h₀ (hab.trans h₁),
    ENNReal.ofReal_sub _ h₀]

/-- Outside `[0, 1)` nothing matters. -/
theorem unit_congr {s t : Set ℝ} (h : ∀ r, 0 ≤ r → r < 1 → (r ∈ s ↔ r ∈ t)) : unit s = unit t := by
  apply measure_congr
  have hmem : ∀ᵐ r ∂unit, r ∈ Ico (0 : ℝ) 1 := ae_restrict_mem measurableSet_Ico
  filter_upwards [hmem] with r hr
  exact propext (h r hr.1 hr.2)

end UniformDraw

/-- A probability distribution on `Fin n`. -/
@[ext]
structure FiniteDistribution (n : ℕ) where
  prob : Fin n → ℝ
  nonneg : ∀ x, 0 ≤ prob x
  sum_eq_one : ∑ x, prob x = 1

namespace FiniteDistribution
variable {n : ℕ} (d : FiniteDistribution n)

noncomputable def law : Measure (Fin n) := ∑ x, ENNReal.ofReal (d.prob x) • Measure.dirac x

theorem law_apply (s : Set (Fin n)) [DecidablePred (· ∈ s)] :
    d.law s = ∑ x with x ∈ s, ENNReal.ofReal (d.prob x) := by
  simp only [law, Measure.coe_finsetSum, Finset.sum_apply, Measure.smul_apply, smul_eq_mul,
    Measure.dirac_apply, indicator_apply, Pi.one_apply, mul_ite, mul_one, mul_zero,
    Finset.sum_filter]

theorem law_singleton (x : Fin n) : d.law {x} = ENNReal.ofReal (d.prob x) := by
  classical
  rw [law_apply]
  simp [Finset.filter_eq']

instance : IsProbabilityMeasure d.law where
  measure_univ := by
    classical
    rw [law_apply]
    simp only [mem_univ, Finset.filter_true]
    rw [← ENNReal.ofReal_sum_of_nonneg fun x _ => d.nonneg x, d.sum_eq_one, ENNReal.ofReal_one]

section Overlap
variable (p q : FiniteDistribution n)

noncomputable def overlap : ℝ := ∑ x, min (p.prob x) (q.prob x)

theorem overlap_nonneg : 0 ≤ p.overlap q :=
  Finset.sum_nonneg fun x _ => le_min (p.nonneg x) (q.nonneg x)

theorem sum_max_sub : ∑ x, max (q.prob x - p.prob x) 0 = 1 - p.overlap q := by
  have hpoint : ∀ x, max (q.prob x - p.prob x) 0 = q.prob x - min (p.prob x) (q.prob x) := by
    intro x
    rcases le_total (p.prob x) (q.prob x) with h | h
    · rw [min_eq_left h, max_eq_left (sub_nonneg.mpr h)]
    · rw [min_eq_right h, max_eq_right (sub_nonpos.mpr h), sub_self]
  simp only [hpoint, Finset.sum_sub_distrib, q.sum_eq_one, overlap]

theorem overlap_le_one : p.overlap q ≤ 1 := by
  have hnonneg : 0 ≤ ∑ x, max (q.prob x - p.prob x) 0 :=
    Finset.sum_nonneg fun x _ => le_max_right _ _
  rw [sum_max_sub] at hnonneg
  linarith

variable {p q}

theorem overlap_eq_one_iff : p.overlap q = 1 ↔ p = q := by
  constructor
  · intro h
    have hzero : ∑ x, max (q.prob x - p.prob x) 0 = 0 := by rw [sum_max_sub, h, sub_self]
    have hle : ∀ x ∈ Finset.univ, q.prob x ≤ p.prob x := by
      intro x hx
      have hx' := (Finset.sum_eq_zero_iff_of_nonneg fun x _ => le_max_right _ _).mp hzero x hx
      exact sub_nonpos.mp (max_eq_right_iff.mp hx')
    have hsum : ∑ x, q.prob x = ∑ x, p.prob x := q.sum_eq_one.trans p.sum_eq_one.symm
    apply FiniteDistribution.ext
    funext x
    exact ((Finset.sum_eq_sum_iff_of_le hle).mp hsum x (Finset.mem_univ x)).symm
  · rintro rfl
    simp only [overlap, min_self, p.sum_eq_one]

end Overlap

end FiniteDistribution
