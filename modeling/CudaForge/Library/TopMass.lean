import Mathlib.Algebra.BigOperators.Fin
import Mathlib.Algebra.Order.BigOperators.Group.Finset
import Mathlib.Order.Interval.Finset.Fin
import Mathlib.Tactic

/-! Sets of heaviest elements, and the smallest one whose mass exceeds a threshold. -/
namespace TopMass
open Finset
variable {ι 𝕜 : Type*} [Field 𝕜] [LinearOrder 𝕜] {mass : ι → 𝕜} {threshold : 𝕜}

def IsTop (mass : ι → 𝕜) (N : Finset ι) : Prop := ∀ x ∈ N, ∀ y, y ∉ N → mass y < mass x

structure IsNucleus (mass : ι → 𝕜) (threshold : 𝕜) (N : Finset ι) : Prop where
  top : IsTop mass N
  exceeds : threshold < ∑ x ∈ N, mass x
  shortest : ∀ M, IsTop mass M → threshold < ∑ x ∈ M, mass x → N ⊆ M

theorem IsNucleus.unique {N N' : Finset ι} (h : IsNucleus mass threshold N)
    (h' : IsNucleus mass threshold N') : N = N' :=
  (h.shortest N' h'.top h'.exceeds).antisymm (h'.shortest N h.top h.exceeds)

theorem IsNucleus.nonempty {N : Finset ι} (h : IsNucleus mass threshold N)
    (hthreshold : 0 ≤ threshold) : N.Nonempty := by
  rw [nonempty_iff_ne_empty]
  rintro rfl
  exact absurd h.exceeds (by rw [sum_empty]; exact hthreshold.not_gt)

/-- The smallest top set of enough mass. -/
structure IsShortestTop (mass : ι → 𝕜) (Enough : 𝕜 → Prop) (N : Finset ι) : Prop where
  top : IsTop mass N
  enough : Enough (∑ x ∈ N, mass x)
  shortest : ∀ M, IsTop mass M → Enough (∑ x ∈ M, mass x) → N ⊆ M

theorem IsShortestTop.unique {Enough : 𝕜 → Prop} {N N' : Finset ι} (h : IsShortestTop mass Enough N)
    (h' : IsShortestTop mass Enough N') : N = N' :=
  (h.shortest N' h'.top h'.enough).antisymm (h'.shortest N h.top h.enough)

variable [Fintype ι]

def massAbove (mass : ι → 𝕜) (x : ι) : 𝕜 := ∑ y with mass x < mass y, mass y

variable [IsStrictOrderedRing 𝕜]

theorem massAbove_anti (hmass : ∀ x, 0 ≤ mass x) {x y : ι} (h : mass x ≤ mass y) :
    massAbove mass y ≤ massAbove mass x := by
  refine sum_le_sum_of_subset_of_nonneg (fun z hz => ?_) fun z _ _ => hmass z
  rw [mem_filter] at hz ⊢
  exact ⟨hz.1, h.trans_lt hz.2⟩

/-- The elements without enough mass above them are the shortest top set of enough mass. -/
theorem isShortestTop_filter {Enough : 𝕜 → Prop} [DecidablePred Enough]
    (hmono : ∀ a b, a ≤ b → Enough a → Enough b) (hmass : ∀ x, 0 ≤ mass x)
    (htotal : Enough (∑ x, mass x)) :
    IsShortestTop mass Enough {x | ¬ Enough (massAbove mass x)} := by
  constructor
  · intro x hx y hy
    rw [mem_filter_univ] at hx hy
    by_contra hle
    exact hy fun henough => hx (hmono _ _ (massAbove_anti hmass (not_lt.mp hle)) henough)
  · by_cases hall : ∀ x, ¬ Enough (massAbove mass x)
    · rwa [filter_true_of_mem fun x _ => hall x]
    · -- a heaviest element outside has only elements of the set above it
      push Not at hall
      obtain ⟨y₀, hy₀⟩ := hall
      obtain ⟨y, hy, hmax⟩ := exists_max_image {x | Enough (massAbove mass x)} mass
        ⟨y₀, (mem_filter_univ y₀).mpr hy₀⟩
      rw [mem_filter_univ] at hy
      refine hmono _ _ (sum_le_sum_of_subset_of_nonneg (fun z hz => ?_) fun z _ _ => hmass z) hy
      rw [mem_filter_univ]
      intro hout
      have hle := hmax z ((mem_filter_univ z).mpr hout)
      exact absurd hle (mem_filter.mp hz).2.not_ge
  · intro M htop henough x hx
    rw [mem_filter_univ] at hx
    by_contra hout
    apply hx
    refine hmono _ _ (sum_le_sum_of_subset_of_nonneg (fun z hz => ?_) fun z _ _ => hmass z) henough
    rw [mem_filter]
    exact ⟨mem_univ z, htop z hz x hout⟩

/-- The elements with no more than the threshold above them are the nucleus. -/
theorem isNucleus_filter (hmass : ∀ x, 0 ≤ mass x) (htotal : threshold < ∑ x, mass x) :
    IsNucleus mass threshold {x | massAbove mass x ≤ threshold} := by
  have h := isShortestTop_filter (fun _ _ hab ha => ha.trans_le hab) hmass htotal
  simp only [not_lt] at h
  exact ⟨h.top, h.enough, h.shortest⟩

/-- An element is in the shortest top set that reaches the threshold when the mass above it does not
reach it. -/
theorem mem_shortestTop_iff (hmass : ∀ x, 0 ≤ mass x) (htotal : threshold ≤ ∑ x, mass x) {x : ι} :
    (∃ N, IsShortestTop mass (threshold ≤ ·) N ∧ x ∈ N) ↔ massAbove mass x < threshold := by
  have h := isShortestTop_filter (fun _ _ hab ha => ha.trans hab) hmass htotal
  constructor
  · rintro ⟨N, hN, hx⟩
    rw [hN.unique h, mem_filter_univ] at hx
    exact not_le.mp hx
  · intro hx
    exact ⟨_, h, (mem_filter_univ x).mpr (not_le.mpr hx)⟩

omit [IsStrictOrderedRing 𝕜] in
/-- Behind a descending sort, the mass above an element is that of the earlier ranks. -/
theorem massAbove_sorted {n : ℕ} {mass : Fin n → 𝕜} {σ : Equiv.Perm (Fin n)}
    (hσ : StrictAnti (mass ∘ σ)) (k : Fin n) :
    massAbove mass (σ k) = ∑ j ∈ Iio k, mass (σ j) := by
  rw [massAbove, ← sum_image (f := mass) fun i _ j _ h => σ.injective h]
  apply sum_congr _ fun _ _ => rfl
  ext x
  obtain ⟨i, rfl⟩ := σ.surjective x
  rw [mem_filter_univ, mem_image]
  constructor
  · intro hlt
    exact ⟨i, mem_Iio.mpr (hσ.lt_iff_gt.mp hlt), rfl⟩
  · rintro ⟨j, hj, heq⟩
    rw [← σ.injective heq]
    exact hσ (mem_Iio.mp hj)

end TopMass
