import CudaForge.Kernels.Int4Agreement
import CudaForge.Quantization.RoundTrip

/-!
The bytes of `pack_int4_gemm` as weights of the INT4 kernels. A row of the packed matrix is a column
of the kernels' weights: its words lie one behind the other, where the kernels expect the words of
all columns side by side.
-/
namespace CudaForge.Quantization
open Kernels.Int4 NibbleWord Tensor

/-- The packed matrix in memory, in words of 32 bits. -/
def wordsOf (packed : Tensor (BitVec 8)) (f : ℕ) : BitVec 32 :=
  let cols := packed.shape.getD 1 0
  wordOfBytes fun i => packed.element [(4 * f + i) / cols, (4 * f + i) % cols]

/-- The operands for a packed matrix with a scale for each row: one group, with zero-point 8. -/
def kernelParams {𝕜 : Type*} [Field 𝕜] (packed : Tensor (BitVec 8)) (scale : Tensor 𝕜)
    (tokens : ℕ) : Int4GemmParams 𝕜 where
  bQuant := wordsOf packed
  scales o := scale.element [o, 0]
  zeros := some fun _ => 8
  M := tokens
  N := packed.shape.getD 0 0
  K := packed.shape.getD 1 0 * 2
  groupSize := packed.shape.getD 1 0 * 2

/-- The index of the weight that lies where the kernels look for row `k` and column `n`, in a matrix
of `N` rows with `J` words. -/
def storedAt (N J k n : ℕ) : List ℕ :=
  let f := k / 8 * N + n
  [f / J, 8 * (f % J) + k % 8]

section Words
variable {packed : Tensor (BitVec 8)} {q : Tensor ℤ} {N J k n : ℕ}

theorem storedAt_inShape (hk : k < 8 * J) (hn : n < N) : InShape [N, 8 * J] (storedAt N J k n) := by
  have hJ : 0 < J := by omega
  have hword : k / 8 * N + n < N * J :=
    calc k / 8 * N + n < k / 8 * N + N := by omega
      _ = N * (k / 8 + 1) := by ring
      _ ≤ N * J := Nat.mul_le_mul_left N (by omega)
  have hcol := Nat.mod_lt (k / 8 * N + n) hJ
  exact inShape_pair.mpr ⟨_, Nat.div_lt_of_lt_mul ((Nat.mul_comm N J) ▸ hword), _, by omega, rfl⟩

theorem wordsOf_eq (hshape : packed.shape = [N, 4 * J]) (f : ℕ) :
    wordsOf packed f =
      wordOfBytes fun i => packed.element [(4 * f + i) / (4 * J), (4 * f + i) % (4 * J)] := by
  rw [wordsOf, hshape]
  rfl

/-- A byte of a word, in its row. -/
theorem word_byte (f : ℕ) {i : ℕ} (hi : i < 4) :
    (4 * f + i) / (4 * J) = f / J ∧ (4 * f + i) % (4 * J) = 4 * (f % J) + i := by
  have hdiv : (4 * f + i) / 4 = f := by omega
  have hmod : (4 * f + i) % 4 = i := by omega
  rw [← Nat.div_div_eq_div_mul, Nat.mod_mul, hdiv, hmod, Nat.add_comm i]
  exact ⟨rfl, rfl⟩

/-- The kernels read the code of another weight, with the offset of the packer. -/
theorem nibbleAt_kernelParams {𝕜 : Type*} [Field 𝕜] (hshape : packed.shape = [N, 4 * J])
    (hunpack : unpackCodes packed = some q) (scale : Tensor 𝕜) (tokens k n : ℕ) :
    ((kernelParams packed scale tokens).nibbleAt k n : ℤ) = q.element (storedAt N J k n) + 8 := by
  obtain ⟨q', hq', -, hcodes⟩ := unpackCodes_spec hshape
  obtain rfl : q' = q := Option.some.inj (hq'.symm.trans hunpack)
  have hN : (kernelParams packed scale tokens).N = N := by
    rw [kernelParams, hshape]
    rfl
  have hfield : k % 8 < 8 := Nat.mod_lt k (by norm_num)
  obtain ⟨hrow, hcol⟩ := word_byte (J := J) (k / 8 * N + n) (show k % 8 / 2 < 4 by omega)
  have hhalf : (8 * ((k / 8 * N + n) % J) + k % 8) / 2 =
      4 * ((k / 8 * N + n) % J) + k % 8 / 2 := by omega
  have hparity : (8 * ((k / 8 * N + n) % J) + k % 8) % 2 = k % 8 % 2 := by omega
  rw [Int4GemmParams.nibbleAt, hN]
  change ((nibble (wordsOf packed (k / 8 * N + n)) (k % 8)).toNat : ℤ) = _
  rw [wordsOf_eq hshape, nibble_wordOfBytes _ hfield, hrow, hcol, storedAt, hcodes, hhalf,
    unpackByte_eq_sub, hparity, sub_add_cancel]

end Words

section Weights
variable {𝕜 : Type*} [Field 𝕜] {packed : Tensor (BitVec 8)} {q : Tensor ℤ}
  {scale y : Tensor 𝕜} {N J tokens : ℕ} {a : Tensor2 𝕜} {wordType : WordType}

/-- The CUDA kernel computes the reconstruction of the packer at every position. -/
def CudaAgrees (p : Int4GemmParams 𝕜) (y : Tensor 𝕜) : Prop :=
  ∀ k < p.K, ∀ n < p.N, p.weight k n = y.element [n, k]

/-- The Triton kernel computes the reconstruction of the packer at every position. -/
def TritonAgrees (p : Int4GemmParams 𝕜) (a : Tensor2 𝕜) (wordType : WordType) (y : Tensor 𝕜) :
    Prop :=
  ∀ k < p.K, ∀ n < p.N, p.tritonWeight a wordType k n = y.element [n, k]

theorem kernelParams_shape (scale : Tensor 𝕜) (tokens : ℕ) (hshape : packed.shape = [N, 4 * J]) :
    (kernelParams packed scale tokens).N = N ∧ (kernelParams packed scale tokens).K = 8 * J ∧
      (kernelParams packed scale tokens).groupSize = 8 * J := by
  have hK : 4 * J * 2 = 8 * J := by omega
  unfold kernelParams
  rw [hshape]
  exact ⟨rfl, hK, hK⟩

/-- What both kernels read for a weight: the bits of the word, and the scale of the column. -/
theorem kernelParams_reads (scale : Tensor 𝕜) (tokens : ℕ) (hshape : packed.shape = [N, 4 * J])
    (hunpack : unpackCodes packed = some q) {k : ℕ} (hk : k < 8 * J) (n : ℕ) :
    (((kernelParams packed scale tokens).nibbleAt k n : ℕ) : 𝕜) =
        q.element (storedAt N J k n) + 8 ∧
      (kernelParams packed scale tokens).scaleAt
        (k / (kernelParams packed scale tokens).groupSize) n = scale.element [n, 0] := by
  obtain ⟨-, -, hgroup⟩ := kernelParams_shape scale tokens hshape
  constructor
  · exact_mod_cast congrArg (Int.cast (R := 𝕜))
      (nibbleAt_kernelParams hshape hunpack scale tokens k n)
  · rw [Int4GemmParams.scaleAt, hgroup, Nat.div_eq_of_lt hk, Nat.zero_mul, Nat.zero_add]
    rfl

theorem kernelParams_weight (hshape : packed.shape = [N, 4 * J])
    (hunpack : unpackCodes packed = some q) {k : ℕ} (hk : k < 8 * J) (n : ℕ) :
    (kernelParams packed scale tokens).weight k n =
      q.element (storedAt N J k n) * scale.element [n, 0] := by
  obtain ⟨-, hK, hgroup⟩ := kernelParams_shape scale tokens hshape
  obtain ⟨hnibble, hscale⟩ := kernelParams_reads scale tokens hshape hunpack hk n
  have hzero : ∀ g, (kernelParams packed scale tokens).zeroAt g n = 8 := fun _ => rfl
  rw [Int4GemmParams.weight_eq (Or.inl (hK.trans hgroup.symm).le) (hK ▸ hk), hscale, hzero, hnibble,
    add_sub_cancel_right]

theorem kernelParams_tritonWeight (hshape : packed.shape = [N, 4 * J])
    (hunpack : unpackCodes packed = some q) {k : ℕ} (hk : k < 8 * J) (n : ℕ) :
    (kernelParams packed scale tokens).tritonWeight a wordType k n =
      (q.element (storedAt N J k n) + 8) * scale.element [n, 0] := by
  obtain ⟨-, hK, hgroup⟩ := kernelParams_shape scale tokens hshape
  obtain ⟨hnibble, hscale⟩ := kernelParams_reads scale tokens hshape hunpack hk n
  rw [Int4GemmParams.tritonWeight_eq (Or.inl (hK.trans hgroup.symm).le) (hK ▸ hk), hscale, hnibble]

theorem unpackInt4Gemm_element (scale : Tensor 𝕜) (hunpack : unpackCodes packed = some q)
    (hq : q.shape = [N, 8 * J]) (hscale : scale.shape = [N, 1]) :
    ∃ y, unpackInt4Gemm packed scale = some y ∧ ∀ k < 8 * J, ∀ n < N,
      y.element [n, k] = q.element [n, k] * scale.element [n, 0] := by
  have hkept : scale.shape = keptShape (some 1) q.shape := by
    rw [hscale, hq]
    rfl
  obtain ⟨y, hy, -, hvalues⟩ := unpackInt4Gemm_spec hunpack hkept
  refine ⟨y, hy, fun k hk n hn => ?_⟩
  have hindex : InShape [N, 8 * J] [n, k] := inShape_pair.mpr ⟨n, hn, k, hk, rfl⟩
  have hrow : broadcastIndex [N, 1] [n, k] = [n, 0] := broadcastIndex_set hindex 1
  rw [hvalues [n, k] (hq ▸ hindex), broadcastAt, hscale, hrow]

/-- Where the scale of a column counts, the CUDA kernel needs the code in another place. -/
theorem cudaAgrees_iff (hshape : packed.shape = [N, 4 * J]) (hunpack : unpackCodes packed = some q)
    (hy : ∀ k < 8 * J, ∀ n < N, y.element [n, k] = q.element [n, k] * scale.element [n, 0]) :
    CudaAgrees (kernelParams packed scale tokens) y ↔ ∀ k < 8 * J, ∀ n < N,
      scale.element [n, 0] = 0 ∨
        (q.element (storedAt N J k n) : 𝕜) = (q.element [n, k] : 𝕜) := by
  obtain ⟨hN, hK, -⟩ := kernelParams_shape scale tokens hshape
  unfold CudaAgrees
  rw [hN, hK]
  refine forall₂_congr fun k hk => forall₂_congr fun n hn => ?_
  rw [kernelParams_weight hshape hunpack hk, hy k hk n hn, mul_eq_mul_right_iff, or_comm]

/-- Both kernels agree only where the scales are zero: their zero-points differ by 8. -/
theorem agrees_iff [LinearOrder 𝕜] [IsStrictOrderedRing 𝕜] (hshape : packed.shape = [N, 4 * J])
    (hunpack : unpackCodes packed = some q)
    (hy : ∀ k < 8 * J, ∀ n < N, y.element [n, k] = q.element [n, k] * scale.element [n, 0]) :
    CudaAgrees (kernelParams packed scale tokens) y ∧
        TritonAgrees (kernelParams packed scale tokens) a wordType y ↔
      J = 0 ∨ ∀ n < N, scale.element [n, 0] = 0 := by
  obtain ⟨hN, hK, -⟩ := kernelParams_shape scale tokens hshape
  unfold CudaAgrees TritonAgrees
  rw [hN, hK]
  constructor
  · rintro ⟨hcuda, htriton⟩
    rcases Nat.eq_zero_or_pos J with hJ | hJ
    · exact Or.inl hJ
    · right
      intro n hn
      have hk : 0 < 8 * J := by omega
      have hboth := (hcuda 0 hk n hn).trans (htriton 0 hk n hn).symm
      rw [kernelParams_weight hshape hunpack hk, kernelParams_tritonWeight hshape hunpack hk n,
        add_mul, left_eq_add] at hboth
      exact (mul_eq_zero.mp hboth).resolve_left (by norm_num)
  · rintro (rfl | hzero)
    · exact ⟨fun k hk => absurd hk (Nat.not_lt_zero k), fun k hk => absurd hk (Nat.not_lt_zero k)⟩
    · constructor
      · intro k hk n hn
        rw [kernelParams_weight hshape hunpack hk, hy k hk n hn, hzero n hn, mul_zero, mul_zero]
      · intro k hk n hn
        rw [kernelParams_tritonWeight hshape hunpack hk n, hy k hk n hn, hzero n hn, mul_zero,
          mul_zero]

end Weights

section Packer
variable {𝕜 : Type*} [Field 𝕜] [LinearOrder 𝕜] [FloorRing 𝕜]

def weightCode (x scale : Tensor 𝕜) (index : List ℕ) : ℤ :=
  roundClamp (-8) 7 (x.element index / scale.broadcastAt index)

variable [IsStrictOrderedRing 𝕜] {x scale : Tensor 𝕜} {N K : ℕ}

omit [IsStrictOrderedRing 𝕜] in
/-- The packer and its own unpacking: bytes, codes and values. -/
theorem packer_values {J : ℕ} (toFloat16 : 𝕜 → 𝕜) (hmatrix : x.shape = [N, 8 * J])
    (hscale : scale.shape = [N, 1]) :
    ∃ packed q y, packInt4Gemm toFloat16 x scale = some (packed, scale.map toFloat16) ∧
      packed.shape = [N, 4 * J] ∧ unpackCodes packed = some q ∧
      (∀ index, InShape [N, 8 * J] index → q.element index = weightCode x scale index) ∧
      unpackInt4Gemm packed (scale.map toFloat16) = some y ∧ ∀ k < 8 * J, ∀ n < N,
        y.element [n, k] = q.element [n, k] * (scale.map toFloat16).element [n, 0] := by
  have hkept : scale.shape = keptShape (some 1) x.shape := by
    rw [hscale, hmatrix]
    rfl
  obtain ⟨packed, q, hpack, hshape, hunpack, hq, hcodes⟩ :=
    packInt4Gemm_spec toFloat16 hmatrix (by omega) hkept
  rw [show 8 * J / 2 = 4 * J by omega] at hshape
  obtain ⟨y, hy, hvalues⟩ := unpackInt4Gemm_element (scale.map toFloat16) hunpack
    (hq.trans hmatrix) hscale
  exact ⟨packed, q, y, hpack, hshape, hunpack, hmatrix ▸ hcodes, hy, hvalues⟩

/-- What the packer returns is what the kernels consume only for scales that round to zero; the CUDA
kernel alone also agrees where equal codes have changed places. -/
theorem kernels_agree_iff (toFloat16 : 𝕜 → 𝕜) (hmatrix : x.shape = [N, K]) (hwidth : 8 ∣ K)
    (hscale : scale.shape = [N, 1]) (tokens : ℕ) (a : Tensor2 𝕜) (wordType : WordType) :
    ∃ packed y, packInt4Gemm toFloat16 x scale = some (packed, scale.map toFloat16) ∧
      unpackInt4Gemm packed (scale.map toFloat16) = some y ∧
      (CudaAgrees (kernelParams packed (scale.map toFloat16) tokens) y ∧
          TritonAgrees (kernelParams packed (scale.map toFloat16) tokens) a wordType y ↔
        K = 0 ∨ ∀ n < N, toFloat16 (scale.element [n, 0]) = 0) ∧
      (CudaAgrees (kernelParams packed (scale.map toFloat16) tokens) y ↔
        ∀ k < K, ∀ n < N, toFloat16 (scale.element [n, 0]) = 0 ∨
          weightCode x scale (storedAt N (K / 8) k n) = weightCode x scale [n, k]) := by
  obtain ⟨J, rfl⟩ := hwidth
  obtain ⟨packed, q, y, hpack, hshape, hunpack, hcodes, hy, hvalues⟩ :=
    packer_values toFloat16 hmatrix hscale
  refine ⟨packed, y, hpack, hy, ?_, ?_⟩
  · rw [agrees_iff hshape hunpack hvalues]
    simp only [Nat.mul_eq_zero, OfNat.ofNat_ne_zero, false_or]
    rfl
  · rw [cudaAgrees_iff hshape hunpack hvalues, Nat.mul_div_cancel_left J (by norm_num)]
    refine forall₂_congr fun k hk => forall₂_congr fun n hn => ?_
    rw [hcodes [n, k] (inShape_pair.mpr ⟨n, hn, k, hk, rfl⟩),
      hcodes _ (storedAt_inShape hk hn), Int.cast_inj]
    rfl

def alternatingRows : Tensor ℚ := ⟨[16, 16], fun index => (index.getD 0 0 % 2 : ℕ)⟩

def unitScale : Tensor ℚ := ⟨[16, 1], fun _ => 1⟩

theorem kernels_agree_iff_alternatingRows :
    ∃ packed y, packInt4Gemm id alternatingRows unitScale = some (packed, unitScale.map id) ∧
      unpackInt4Gemm packed (unitScale.map id) = some y ∧
      (CudaAgrees (kernelParams packed (unitScale.map id) 16) y ∧
          TritonAgrees (kernelParams packed (unitScale.map id) 16) Int4GemmParams.zeroTensor .int32
            y ↔
        16 = 0 ∨ ∀ n < 16, id (unitScale.element [n, 0]) = 0) ∧
      (CudaAgrees (kernelParams packed (unitScale.map id) 16) y ↔
        ∀ k < 16, ∀ n < 16, id (unitScale.element [n, 0]) = 0 ∨
          weightCode alternatingRows unitScale (storedAt 16 (16 / 8) k n) =
            weightCode alternatingRows unitScale [n, k]) :=
  kernels_agree_iff id rfl (by norm_num) rfl 16 Int4GemmParams.zeroTensor .int32

/-- Both kernels miss the reconstruction: one reads the wrong row, the other one no zero-point. -/
theorem alternatingRows_misread :
    ∃ packed y, packInt4Gemm id alternatingRows unitScale = some (packed, unitScale.map id) ∧
      unpackInt4Gemm packed (unitScale.map id) = some y ∧
      ¬CudaAgrees (kernelParams packed (unitScale.map id) 16) y ∧
      ¬TritonAgrees (kernelParams packed (unitScale.map id) 16) Int4GemmParams.zeroTensor .int32
        y := by
  obtain ⟨packed, q, y, hpack, hshape, hunpack, hcodes, hy, hvalues⟩ :=
    packer_values (x := alternatingRows) (J := 2) id rfl (show unitScale.shape = [16, 1] from rfl)
  have hcode : ∀ n < 2, q.element [n, 0] = n ∧ q.element [n, 8] = n := by
    intro n hn
    rw [hcodes [n, 0] (inShape_pair.mpr ⟨n, by omega, 0, by norm_num, rfl⟩),
      hcodes [n, 8] (inShape_pair.mpr ⟨n, by omega, 8, by norm_num, rfl⟩)]
    interval_cases n
    · change roundClamp (-8) 7 ((0 : ℚ) / 1) = 0 ∧ roundClamp (-8) 7 ((0 : ℚ) / 1) = 0
      decide +kernel
    · change roundClamp (-8) 7 ((1 : ℚ) / 1) = 1 ∧ roundClamp (-8) 7 ((1 : ℚ) / 1) = 1
      decide +kernel
  obtain ⟨hzero, hzero'⟩ := hcode 0 two_pos
  refine ⟨packed, y, hpack, hy, fun hcuda => ?_, fun htriton => ?_⟩
  · -- where the kernel looks for row 1, it finds the second half of row 0
    have hswapped := (cudaAgrees_iff hshape hunpack hvalues).mp hcuda
      0 (by norm_num) 1 (by norm_num)
    have hfirst : q.element (storedAt 16 2 0 1) = 0 := hzero'
    rw [hfirst, (hcode 1 one_lt_two).1] at hswapped
    norm_num [unitScale, Tensor.map] at hswapped
  · obtain ⟨hN, hK, -⟩ := kernelParams_shape (unitScale.map id) 16 hshape
    have hfirst := htriton 0 (by rw [hK]; norm_num) 0 (by rw [hN]; norm_num)
    have hstored : q.element (storedAt 16 2 0 0) = 0 := hzero
    rw [kernelParams_tritonWeight hshape hunpack (by norm_num) 0,
      hvalues 0 (by norm_num) 0 (by norm_num), hstored, hzero] at hfirst
    norm_num [unitScale, Tensor.map] at hfirst

end Packer
end CudaForge.Quantization
