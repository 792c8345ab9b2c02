import Mathlib.Algebra.Order.Floor.Ring
import Mathlib.Data.Rat.Floor
import Mathlib.Tactic

/-! Rounding to the nearest integer with ties to even, and clamping to an interval. -/
namespace NearestInteger
variable {𝕜 : Type*} [Field 𝕜] [LinearOrder 𝕜] [FloorRing 𝕜]

def roundHalfEven (x : 𝕜) : ℤ :=
  if x - ⌊x⌋ < 1 / 2 ∨ x - ⌊x⌋ = 1 / 2 ∧ ⌊x⌋ % 2 = 0 then ⌊x⌋ else ⌊x⌋ + 1

def clamp {α : Type*} [LinearOrder α] (lo hi x : α) : α := min (max x lo) hi

theorem clamp_of_mem {α : Type*} [LinearOrder α] {lo hi x : α} (hlo : lo ≤ x) (hhi : x ≤ hi) :
    clamp lo hi x = x := by
  rw [clamp, max_eq_left hlo, min_eq_left hhi]

theorem clamp_mem {α : Type*} [LinearOrder α] {lo hi : α} (h : lo ≤ hi) (x : α) :
    lo ≤ clamp lo hi x ∧ clamp lo hi x ≤ hi :=
  ⟨le_min (le_max_right _ _) h, min_le_right _ _⟩

theorem clamp_of_le {α : Type*} [LinearOrder α] {lo hi x : α} (h : lo ≤ hi) (hx : x ≤ lo) :
    clamp lo hi x = lo := by
  rw [clamp, max_eq_right hx, min_eq_left h]

variable [IsStrictOrderedRing 𝕜]

theorem abs_roundHalfEven_sub_le (x : 𝕜) : |(roundHalfEven x : 𝕜) - x| ≤ 1 / 2 := by
  have hlo := Int.floor_le x
  have hhi := Int.lt_floor_add_one x
  unfold roundHalfEven
  split_ifs with hdown
  · have hle : x - ⌊x⌋ ≤ 1 / 2 := hdown.elim le_of_lt fun h => h.1.le
    rw [abs_le]
    constructor <;> linarith
  · have hge : 1 / 2 ≤ x - ⌊x⌋ := not_lt.mp fun h => hdown (Or.inl h)
    push_cast
    rw [abs_le]
    constructor <;> linarith

/-- Rounding does not pass an integer. -/
theorem roundHalfEven_le {x : 𝕜} {n : ℤ} (h : x ≤ n) : roundHalfEven x ≤ n := by
  have hfloor : ⌊x⌋ ≤ n := Int.floor_le_iff.mpr (h.trans_lt (by linarith))
  unfold roundHalfEven
  split_ifs with hdown
  · exact hfloor
  · rcases hfloor.lt_or_eq with hlt | heq
    · exact hlt
    · refine absurd (Or.inl ?_) hdown
      rw [heq]
      linarith

omit [IsStrictOrderedRing 𝕜] in
theorem le_roundHalfEven {x : 𝕜} {n : ℤ} (h : (n : 𝕜) ≤ x) : n ≤ roundHalfEven x := by
  have hfloor : n ≤ ⌊x⌋ := Int.le_floor.mpr h
  unfold roundHalfEven
  split_ifs
  · exact hfloor
  · omega

/-- A number that was divided, rounded and multiplied again is within half a step. -/
theorem abs_roundHalfEven_mul_sub_le {x s : 𝕜} (hs : 0 < s) :
    |(roundHalfEven (x / s) : 𝕜) * s - x| ≤ s / 2 := by
  have hround := abs_roundHalfEven_sub_le (x / s)
  have hscaled : (roundHalfEven (x / s) : 𝕜) * s - x = (roundHalfEven (x / s) - x / s) * s := by
    rw [sub_mul, div_mul_cancel₀ x hs.ne']
  rw [hscaled, abs_mul, abs_of_pos hs]
  calc |(roundHalfEven (x / s) : 𝕜) - x / s| * s ≤ 1 / 2 * s :=
        mul_le_mul_of_nonneg_right hround hs.le
    _ = s / 2 := by ring

end NearestInteger
