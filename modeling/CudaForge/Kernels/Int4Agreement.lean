import CudaForge.Kernels.Int4DequantTriton
import CudaForge.Kernels.Int4GemmDequant

/-!
The dequantized weights of the two INT4 kernels on the same operands: the Triton kernel never reads
its zero-points.
-/
namespace CudaForge.Kernels.Int4
open NibbleWord TiledLoop

namespace Int4GemmParams
variable {𝕜 : Type*} [Field 𝕜] (p : Int4GemmParams 𝕜)

def tritonArgs (a : Tensor2 𝕜) (wordType : WordType) : TritonArgs 𝕜 :=
  Int4.tritonArgs p.M p.N p.K a wordType (.ofRows p.N p.bQuant) (.ofRows p.N p.scales)
    (p.zeros.map (.ofRows p.N)) p.groupSize

def tritonWeight (a : Tensor2 𝕜) (wordType : WordType) (k n : ℕ) : 𝕜 :=
  (p.tritonArgs a wordType).weight k n

/-- The four bits that both kernels read at row `k` and column `n`. -/
def nibbleAt (k n : ℕ) : ℕ := (nibble (p.bQuant (k / 8 * p.N + n)) (k % 8)).toNat

variable {p} {a : Tensor2 𝕜} {wordType : WordType} {k n : ℕ}

theorem weight_eq (h : p.K ≤ p.groupSize ∨ 16 ∣ p.groupSize) (hk : k < p.K) (n : ℕ) :
    p.weight k n =
      (p.nibbleAt k n - p.zeroAt (k / p.groupSize) n) * p.scaleAt (k / p.groupSize) n := by
  have hrow : k / WMMA_K * WMMA_K + k % WMMA_K = k := Nat.div_add_mod' k WMMA_K
  have hcol : n / WMMA_N * WMMA_N + n % WMMA_N = n := Nat.div_add_mod' n WMMA_N
  have hgroup : k / WMMA_K * WMMA_K / p.groupSize = k / p.groupSize := tile_start_group hk h
  rw [weight, unpackValue, hrow, hcol, hgroup, cudaUnpack_eq, nibbleAt]

theorem tritonWeight_eq (h : p.K ≤ p.groupSize ∨ 32 ∣ p.groupSize) (hk : k < p.K) (n : ℕ) :
    p.tritonWeight a wordType k n = p.nibbleAt k n * p.scaleAt (k / p.groupSize) n := by
  have hgroup : (p.tritonArgs a wordType).groupIdx (k / 32) = k / p.groupSize :=
    tile_start_group hk h
  have hword : (p.tritonArgs a wordType).bQuant.element (k / 8) n = p.bQuant (k / 8 * p.N + n) :=
    Tensor2.ofRows_element _ _ _ _
  have hscale : ∀ g, (p.tritonArgs a wordType).scales.element g n = p.scaleAt g n :=
    fun g => Tensor2.ofRows_element _ _ _ _
  rw [tritonWeight, TritonArgs.weight_eq, hword, nibbleAt, ← hgroup, ← hscale]
  rfl

/-- The kernels dequantize alike exactly when no group has a zero-point with a scale. -/
theorem weight_eq_tritonWeight_iff (h : 32 ∣ p.groupSize) (hK : p.groupSize ∣ p.K)
    (a : Tensor2 𝕜) (wordType : WordType) :
    (∀ k < p.K, ∀ n < p.N, p.weight k n = p.tritonWeight a wordType k n) ↔
      ∀ g < p.K / p.groupSize, ∀ n < p.N, p.zeroAt g n = 0 ∨ p.scaleAt g n = 0 := by
  have hposition : ∀ k < p.K, ∀ n < p.N, p.weight k n = p.tritonWeight a wordType k n ↔
      p.zeroAt (k / p.groupSize) n = 0 ∨ p.scaleAt (k / p.groupSize) n = 0 := by
    intro k hk n hn
    rw [weight_eq (Or.inr ((by norm_num : 16 ∣ 32).trans h)) hk, tritonWeight_eq (Or.inr h) hk n,
      sub_mul, sub_eq_self, mul_eq_zero]
  constructor
  · intro halike g hg n hn
    have hfirst : g * p.groupSize < p.K :=
      (Nat.lt_div_iff_mul_lt' hK g).mp hg |>.trans_eq' (Nat.mul_comm _ _)
    have hpos : 0 < p.groupSize := by
      by_contra hzero
      rw [Nat.eq_zero_of_not_pos hzero, Nat.div_zero] at hg
      exact Nat.not_lt_zero _ hg
    have hgroup := (hposition _ hfirst n hn).mp (halike _ hfirst n hn)
    rwa [Nat.mul_div_cancel _ hpos] at hgroup
  · intro hzero k hk n hn
    exact (hposition k hk n hn).mpr (hzero _ (Nat.div_lt_div_of_lt_of_dvd hK hk) n hn)

def zeroPointColumns : Int4GemmParams ℚ :=
  ⟨fun _ => 0x88888888#32, fun _ => 1, some fun _ => 8, 16, 16, 32, 32⟩

def zeroTensor : Tensor2 ℚ := .ofRows 0 fun _ => 0

theorem weight_eq_tritonWeight_iff_columns :
    (∀ k < 32, ∀ n < 16, zeroPointColumns.weight k n =
        zeroPointColumns.tritonWeight zeroTensor .int32 k n) ↔
      ∀ g < 32 / 32, ∀ n < 16,
        zeroPointColumns.zeroAt g n = 0 ∨ zeroPointColumns.scaleAt g n = 0 :=
  weight_eq_tritonWeight_iff (p := zeroPointColumns) (dvd_refl 32) (dvd_refl 32) zeroTensor .int32

/-- The CUDA kernel multiplies with 0, the Triton kernel with 8. -/
theorem zeroPoint_ignored :
    ¬∀ k < 32, ∀ n < 16, zeroPointColumns.weight k n =
      zeroPointColumns.tritonWeight zeroTensor .int32 k n := by
  intro halike
  have hcuda : zeroPointColumns.weight 0 0 = 0 := by decide +kernel
  have htriton : zeroPointColumns.tritonWeight zeroTensor .int32 0 0 = 8 := by decide +kernel
  have hboth := halike 0 (by norm_num) 0 (by norm_num)
  rw [hcuda, htriton] at hboth
  exact absurd hboth (by norm_num)

end Int4GemmParams
end CudaForge.Kernels.Int4
