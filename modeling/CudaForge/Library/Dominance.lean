import Mathlib.Order.WellFoundedSet
import Mathlib.Tactic

/-! Maximal elements of a strict order on the first `n` indices. -/
namespace Dominance
variable {above : ℕ → ℕ → Prop} {n : ℕ}

def Maximal (above : ℕ → ℕ → Prop) (n i : ℕ) : Prop := ∀ j < n, ¬ above j i

variable [IsStrictOrder ℕ above]

variable (above) in
/-- Of a nonempty set of indices, one has none of the set above it. -/
theorem exists_maximal_of_mem (S : Finset ℕ) (hS : S.Nonempty) :
    ∃ m ∈ S, ∀ j ∈ S, ¬ above j m := by
  have hwf : Set.WellFoundedOn (S : Set ℕ) above := S.finite_toSet.wellFoundedOn
  have : Nonempty (S : Set ℕ) := hS.to_subtype
  obtain ⟨⟨m, hm⟩, -, hmin⟩ := hwf.has_min Set.univ Set.univ_nonempty
  exact ⟨m, hm, fun j hj => hmin ⟨j, hj⟩ (Set.mem_univ _)⟩

/-- Whatever has an index above it has a maximal one above it. -/
theorem exists_maximal_above {i j : ℕ} (hj : j < n) (h : above j i) :
    ∃ m < n, above m i ∧ Maximal above n m := by
  classical
  obtain ⟨m, hm, hmax⟩ := exists_maximal_of_mem above ((Finset.range n).filter fun k => above k i)
    ⟨j, Finset.mem_filter.mpr ⟨Finset.mem_range.mpr hj, h⟩⟩
  rw [Finset.mem_filter, Finset.mem_range] at hm
  refine ⟨m, hm.1, hm.2, fun k hk hkm => ?_⟩
  exact hmax k (Finset.mem_filter.mpr ⟨Finset.mem_range.mpr hk, trans_of above hkm hm.2⟩) hkm

variable (above) in
theorem exists_maximal (hn : 0 < n) : ∃ m < n, Maximal above n m := by
  obtain ⟨m, hm, hmax⟩ := exists_maximal_of_mem above (Finset.range n)
    ⟨0, Finset.mem_range.mpr hn⟩
  exact ⟨m, Finset.mem_range.mp hm, fun j hj => hmax j (Finset.mem_range.mpr hj)⟩

end Dominance
