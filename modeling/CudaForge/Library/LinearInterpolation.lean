import Mathlib.Algebra.Order.Floor.Ring
import Mathlib.Order.Interval.Set.Basic
import Mathlib.Tactic

/-! Linear interpolation between the values of a sequence at consecutive integers. -/
namespace LinearInterpolation
variable {𝕜 : Type*} [Field 𝕜] [LinearOrder 𝕜] [FloorRing 𝕜]

def interpolate (f : ℤ → 𝕜) (x : 𝕜) : 𝕜 := f ⌊x⌋ * (1 - Int.fract x) + f ⌈x⌉ * Int.fract x

variable {f : ℤ → 𝕜} {a b : ℤ} {x y : 𝕜}

theorem interpolate_of_floor_eq_ceil (h : ⌊x⌋ = ⌈x⌉) : interpolate f x = f ⌊x⌋ := by
  rw [interpolate, ← h]
  ring

section Order
variable [IsStrictOrderedRing 𝕜]

theorem ceil_of_fract_pos (h : 0 < Int.fract x) : ⌈x⌉ = ⌊x⌋ + 1 := by
  rw [Int.ceil_eq_iff, Int.cast_add, Int.cast_one, add_sub_cancel_right]
  exact ⟨by linarith [Int.self_sub_floor x], (Int.lt_floor_add_one x).le⟩

theorem floor_mem (h : x ∈ Set.Icc (a : 𝕜) b) : ⌊x⌋ ∈ Set.Icc a b :=
  ⟨Int.le_floor.mpr h.1, Int.floor_le_iff.mpr (h.2.trans_lt (lt_add_one _))⟩

theorem ceil_mem (h : x ∈ Set.Icc (a : 𝕜) b) : ⌈x⌉ ∈ Set.Icc a b :=
  ⟨Int.le_ceil_iff.mpr (by linarith [h.1]), Int.ceil_le.mpr h.2⟩

variable (hf : MonotoneOn f (Set.Icc a b))
include hf

/-- A value lies between those at the neighbours. -/
theorem interpolate_between (hx : x ∈ Set.Icc (a : 𝕜) b) :
    f ⌊x⌋ ≤ interpolate f x ∧ interpolate f x ≤ f ⌈x⌉ := by
  have hle : f ⌊x⌋ ≤ f ⌈x⌉ := hf (floor_mem hx) (ceil_mem hx) (Int.floor_le_ceil x)
  have hrise := sub_nonneg.mpr hle
  have hlow := mul_nonneg hrise (Int.fract_nonneg x)
  have hhigh := mul_nonneg hrise (sub_nonneg.mpr (Int.fract_lt_one x).le)
  unfold interpolate
  constructor
  · linarith
  · linarith

/-- In one segment the values rise with the weight of the upper neighbour. -/
theorem interpolate_segment (hy : y ∈ Set.Icc (a : 𝕜) b) (hfloor : ⌊x⌋ = ⌊y⌋) (hlt : x < y) :
    interpolate f x ≤ interpolate f y := by
  have hfract : Int.fract x < Int.fract y := by
    unfold Int.fract
    rw [hfloor]
    exact sub_lt_sub_right hlt _
  have hceil := ceil_of_fract_pos ((Int.fract_nonneg x).trans_lt hfract)
  have hrise : 0 ≤ f ⌈y⌉ - f ⌊y⌋ :=
    sub_nonneg.mpr (hf (floor_mem hy) (ceil_mem hy) (Int.floor_le_ceil y))
  -- the upper neighbour of `x` only counts if it is that of `y`
  have hx : interpolate f x = f ⌊y⌋ + (f ⌈y⌉ - f ⌊y⌋) * Int.fract x := by
    rcases (Int.fract_nonneg x).eq_or_lt with hzero | hpos
    · rw [interpolate, ← hzero, hfloor]
      ring
    · rw [interpolate, ceil_of_fract_pos hpos, hceil, hfloor]
      ring
  have hy' : interpolate f y = f ⌊y⌋ + (f ⌈y⌉ - f ⌊y⌋) * Int.fract y := by
    rw [interpolate]
    ring
  rw [hx, hy']
  exact add_le_add_right (mul_le_mul_of_nonneg_left hfract.le hrise) _

/-- The interpolation of a monotone sequence is monotone. -/
theorem interpolate_monotoneOn : MonotoneOn (interpolate f) (Set.Icc (a : 𝕜) b) := by
  intro x hx y hy hxy
  rcases hxy.eq_or_lt with rfl | hlt
  · exact le_rfl
  rcases (Int.floor_mono hxy).eq_or_lt with hfloor | hfloor
  · exact interpolate_segment hf hy hfloor hlt
  · have hstep : ⌈x⌉ ≤ ⌊y⌋ := (Int.ceil_le_floor_add_one x).trans hfloor
    calc interpolate f x ≤ f ⌈x⌉ := (interpolate_between hf hx).2
      _ ≤ f ⌊y⌋ := hf (ceil_mem hx) (floor_mem hy) hstep
      _ ≤ interpolate f y := (interpolate_between hf hy).1

end Order

end LinearInterpolation
