import Mathlib.Algebra.BigOperators.Intervals
import CudaForge.Library.FirstMaximum
import CudaForge.Library.OnlineSoftmax
import CudaForge.Library.PromotedIntegers

/-!
What the kernels use of the Triton language. Program ids and `tl.arange` are int32, an integer
argument is int32 where it fits and int64 elsewhere, and every offset that is added to a pointer is
computed in the wider of the two.
-/
namespace CudaForge.Kernels.Triton
open Finset FirstMaximum OnlineSoftmax PromotedIntegers PromotedInt

/-- `i * stride` for a lane or program id `i` and an argument `stride`. -/
def scaled (i : ℕ) (stride : ℤ) : PromotedInt := int32 i * ofInt stride

theorem scaled_toInt {i : ℕ} {stride : ℤ} (hi : i < 2147483648) (h : Fits32 (i * stride)) :
    (scaled i stride).toInt = i * stride :=
  toInt_int32_mul_ofInt (fits32_natCast hi) h

/-- `tl.cdiv` of an argument, as the number of times that a loop runs. -/
def tlCdiv (n block : ℕ) : ℕ := ((ofInt n + int32 (block - 1)).toInt / block).toNat

theorem tlCdiv_eq {n block : ℕ} (hblock : 0 < block) (h : n + block - 1 < 2147483648) :
    tlCdiv n block = (n + block - 1) / block := by
  have hn : (ofInt n).toInt = n := toInt_ofInt (by omega) (by omega)
  have hlast : (int32 (block - 1)).toInt = block - 1 := toInt_int32 ⟨by omega, by omega⟩
  have hsum : (ofInt n + int32 (block - 1)).toInt = (n + block - 1 : ℕ) := by
    rw [toInt_add (by rw [hn, hlast]; constructor <;> omega), hn, hlast]
    omega
  rw [tlCdiv, hsum, ← Int.natCast_ediv, Int.toNat_natCast]

/-- Why a call launches nothing. -/
inductive LaunchError where
  | compilationError | outOfResources | invalidGrid
  deriving DecidableEq

/-- `TRITON_MAX_TENSOR_NUMEL`, the greatest number of elements of a tile. -/
def maxTensorNumel : ℕ := 1048576

/-- The grids that the device takes. -/
def GridFits (x y z : ℕ) : Prop := x < 2147483648 ∧ y < 65536 ∧ z < 65536

instance (x y z : ℕ) : Decidable (GridFits x y z) := inferInstanceAs (Decidable (_ ∧ _ ∧ _))

/-- What the programs of a grid do. A grid without programs is not launched, whatever its sides. -/
def launchGrid {α : Type*} (x y z : ℕ) (effects : α) : Except LaunchError α :=
  if x * y * z = 0 ∨ GridFits x y z then .ok effects else .error .invalidGrid

theorem launchGrid_eq_ok_iff {α : Type*} {x y z : ℕ} {effects done : α} :
    launchGrid x y z effects = .ok done ↔
      (x * y * z = 0 ∨ GridFits x y z) ∧ effects = done := by
  unfold launchGrid
  split_ifs with hfits
  · rw [Except.ok.injEq, and_iff_right hfits]
  · exact iff_of_false nofun fun hdone => hfits hdone.1

theorem launchGrid_eq_ok {α : Type*} {x y z : ℕ} {effects done : α} (h : x * y * z ≠ 0) :
    launchGrid x y z effects = .ok done ↔ GridFits x y z ∧ effects = done := by
  rw [launchGrid_eq_ok_iff, or_iff_right h]

/-- `triton.next_power_of_2` of a positive number. -/
def nextPowerOf2 (n : ℕ) : ℕ := 2 ^ Nat.clog 2 n

theorem le_nextPowerOf2 (n : ℕ) : n ≤ nextPowerOf2 n := Nat.le_pow_clog Nat.one_lt_two n

theorem nextPowerOf2_pos (n : ℕ) : 0 < nextPowerOf2 n := Nat.two_pow_pos _

/-- `tl.argmax` of a tile of `n` lanes: of equal maxima the leftmost. Nothing is promised for a tile
with NaNs. -/
structure Argmax where
  argmax : ℕ → (ℕ → Number) → ℕ
  isFirstIndex : ∀ n x, 0 < n → IsFirstIndex x n (argmax n fun i => Number.real (x i))

/-- The float32 operations of a softmax, with any rounding that keeps the order. `expSub x m` is
`tl.exp(x - m)`, and `sum n` is `tl.sum` of `n` lanes. -/
structure SoftmaxOps where
  expSub : WithBot ℝ → ℝ → ℝ
  expSub_mono : ∀ m, Monotone fun x => expSub x m
  expSub_nonneg : ∀ x m, 0 ≤ expSub x m
  expSub_self_pos : ∀ m : ℝ, 0 < expSub m m
  sum : ℕ → (ℕ → ℝ) → ℝ
  sum_pos : ∀ n x, (∀ i < n, 0 ≤ x i) → (∃ i < n, 0 < x i) → 0 < sum n x
  div : ℝ → ℝ → ℝ
  div_mono : ∀ s, 0 < s → Monotone fun x => div x s

noncomputable def SoftmaxOps.exact : SoftmaxOps where
  expSub x m := Real.exp (-m) * weight x
  expSub_mono _ := weight_strictMono.monotone.const_mul (Real.exp_pos _).le
  expSub_nonneg x _ := mul_nonneg (Real.exp_pos _).le (weight_nonneg x)
  expSub_self_pos _ := mul_pos (Real.exp_pos _) (Real.exp_pos _)
  sum n x := ∑ i ∈ range n, x i
  sum_pos _ _ hx := fun ⟨i, hi, hpos⟩ =>
    sum_pos' (fun j hj => hx j (mem_range.mp hj)) ⟨i, mem_range.mpr hi, hpos⟩
  div x s := x / s
  div_mono _ hs := fun _ _ hxy => div_le_div_of_nonneg_right hxy hs.le

end CudaForge.Kernels.Triton
