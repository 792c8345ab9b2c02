import CudaForge.Library.Butterfly
import CudaForge.Library.FirstMaximum
import CudaForge.Library.Numerals
import CudaForge.Library.OnlineSoftmax
import CudaForge.Library.StridedLoop
import CudaForge.Library.TiledLoop

/-!
The fused sampling kernel, in exact arithmetic. A logit is a `WithBot ℝ`, whose `⊥` is `-inf`. The
kernel runs in blocks of 256 threads; `s_mem` has the size that the launch gives it.
-/
namespace CudaForge.Engine.FusedSampling
open Butterfly Finset FirstMaximum Numerals OnlineSoftmax OnlineSoftmax.Number StridedLoop TiledLoop

def WARP_SIZE : ℕ := 32

def blockSize : ℕ+ := 256

noncomputable def FLT_MAX : ℝ := (2 ^ 24 - 1) * 2 ^ 104

structure SamplingParams where
  logits : ℕ → WithBot ℝ
  batchSize : ℕ
  vocabSize : ℕ
  temperature : ℝ
  topK : ℤ
  topP : ℝ

noncomputable def fmaxf (m : ℝ) : WithBot ℝ → ℝ
  | ⊥ => m
  | (val : ℝ) => max m val

/-- `expf(val - m)` -/
noncomputable def expf (m : ℝ) : WithBot ℝ → ℝ
  | ⊥ => 0
  | (val : ℝ) => Real.exp (val - m)

noncomputable def warpReduceMax (val : ℕ → ℝ) : ℕ → ℝ :=
  [16, 8, 4, 2, 1].foldl (fun val mask lane => max (val lane) (val (lane ^^^ mask))) val

def warpReduceSum (val : ℕ → ℝ) : ℕ → ℝ :=
  [16, 8, 4, 2, 1].foldl (fun val mask lane => val lane + val (lane ^^^ mask)) val

/-- `u <= cdf`, which fails for a NaN. -/
noncomputable def reached (u : ℝ) : Number → Bool
  | nan => false
  | real cdf => decide (u ≤ cdf)

/-- The scan over `n` tokens from `i` on; `none` when it runs through. -/
noncomputable def cdfLoop (u : ℝ) (prob : ℕ → Number) : ℕ → ℕ → Number → Option ℕ
  | 0, _, _ => none
  | n + 1, i, cdf =>
    if reached u (cdf + prob i) then some i else cdfLoop u prob n (i + 1) (cdf + prob i)

noncomputable def greedyStep (rowLogits : ℕ → WithBot ℝ) (acc : WithBot ℝ × ℕ) (i : ℕ) :
    WithBot ℝ × ℕ :=
  if acc.1 < rowLogits i then (rowLogits i, i) else acc

noncomputable def greedyToken (rowLogits : ℕ → WithBot ℝ) (vocabSize : ℕ) : ℕ :=
  ((List.range vocabSize).foldl (greedyStep rowLogits) (((-FLT_MAX : ℝ) : WithBot ℝ), 0)).2

namespace SamplingParams
variable (p : SamplingParams) (row : ℕ → WithBot ℝ)

def rowLogits (batchIdx i : ℕ) : WithBot ℝ := p.logits (batchIdx * p.vocabSize + i)

noncomputable def invTemp : ℝ := if 1 / 100000 < p.temperature then 1 / p.temperature else 1

noncomputable def scaled (i : ℕ) : WithBot ℝ := (row i).map (· * p.invTemp)

noncomputable def threadMax (tid : ℕ) : ℝ :=
  (indices blockSize p.vocabSize tid).foldl (fun m i => fmaxf m (p.scaled row i)) (-FLT_MAX)

noncomputable def maxLogit : ℝ :=
  let sMem := fun warp =>
    warpReduceMax (fun lane => p.threadMax row (warp * WARP_SIZE + lane)) 0
  warpReduceMax (fun tid => if tid < blockSize / WARP_SIZE then sMem tid else -FLT_MAX) 0

noncomputable def threadSum (tid : ℕ) : ℝ :=
  ((indices blockSize p.vocabSize tid).map fun i =>
    expf (p.maxLogit row) (p.scaled row i)).sum

noncomputable def sumVal : ℝ :=
  let sMem := fun warp =>
    warpReduceSum (fun lane => p.threadSum row (warp * WARP_SIZE + lane)) 0
  warpReduceSum (fun tid => if tid < blockSize / WARP_SIZE then sMem tid else 0) 0

noncomputable def prob (i : ℕ) : Number :=
  real (expf (p.maxLogit row) (p.scaled row i)) *
    (real 1 / real (p.sumVal row))

noncomputable def selectedToken (u : ℝ) : ℕ :=
  (cdfLoop u (p.prob row) p.vocabSize 0 (real 0)).getD (p.vocabSize - 1)

/-- The token of a row; `none` when the block writes behind the end of `s_mem`. What the greedy path
writes to `s_mem[tid]` is not read. The truncation parameters are not read either. -/
noncomputable def fusedSamplingKernel (sMemFloats batchIdx : ℕ) (u : ℝ) : Option ℕ :=
  let rowLogits := p.rowLogits batchIdx
  if sMemFloats < blockSize / WARP_SIZE then none
  else if p.temperature ≤ 1 / 100000 then
    if sMemFloats < blockSize then none else some (greedyToken rowLogits p.vocabSize)
  else some (p.selectedToken rowLogits u)

/-- `shared_mem_bytes / sizeof(float)` of the launch. -/
def launchFloats : ℕ := blockSize / WARP_SIZE

end SamplingParams

section Reduction
variable {p : SamplingParams} {row : ℕ → WithBot ℝ}

theorem expf_eq (m : ℝ) (val : WithBot ℝ) : expf m val = Real.exp (-m) * weight val := by
  cases val with
  | bot => rw [weight_bot, mul_zero]; rfl
  | coe val =>
    rw [weight_coe, ← Real.exp_add, neg_add_eq_sub]
    rfl

theorem warpReduceSum_zero (val : ℕ → ℝ) :
    warpReduceSum val 0 = ∑ lane ∈ range WARP_SIZE, val lane := reduce_zero 5 val

/-- Thread 0 is left with the sum over the row. -/
theorem sumVal_eq (p : SamplingParams) (row : ℕ → WithBot ℝ) :
    p.sumVal row = Real.exp (-p.maxLogit row) *
      ∑ i ∈ range p.vocabSize, weight (p.scaled row i) := by
  have hwarps : (blockSize : ℕ) / WARP_SIZE = 8 := rfl
  have hthreads : ∑ tid ∈ range (8 * WARP_SIZE), p.threadSum row tid =
      ∑ i ∈ range p.vocabSize, expf (p.maxLogit row) (p.scaled row i) := sum_threads _
  rw [SamplingParams.sumVal, warpReduceSum_zero, hwarps, sum_range_masked (by decide)]
  simp only [warpReduceSum_zero]
  rw [← sum_range_tiles, hthreads, mul_sum]
  exact sum_congr rfl fun i _ => expf_eq _ _

end Reduction

section Greedy
variable {row : ℕ → WithBot ℝ}

/-- What the greedy scan holds behind `n` tokens: its start while all were masked, and then the
first greatest logit. -/
def Scanned (row : ℕ → WithBot ℝ) (n : ℕ) (acc : WithBot ℝ × ℕ) : Prop :=
  (∀ i < n, row i = ⊥) ∧ acc = (((-FLT_MAX : ℝ) : WithBot ℝ), 0) ∨
    IsFirstIndex row n acc.2 ∧ acc.1 = row acc.2

theorem Scanned.step {n : ℕ} {acc : WithBot ℝ × ℕ}
    (hrow : row n = ⊥ ∨ ((-FLT_MAX : ℝ) : WithBot ℝ) < row n) (h : Scanned row n acc) :
    Scanned row (n + 1) (greedyStep row acc n) := by
  unfold greedyStep
  rcases h with ⟨hmasked, rfl⟩ | ⟨hfirst, hbest⟩
  · rcases hrow with hn | hn
    · left
      rw [if_neg (by rw [hn]; exact not_lt_bot)]
      refine ⟨fun i hi => ?_, rfl⟩
      rcases Nat.lt_succ_iff_lt_or_eq.mp hi with h | rfl
      · exact hmasked i h
      · exact hn
    · right
      rw [if_pos hn]
      exact ⟨.succ_of_lt fun j hj => by rw [hmasked j hj]; exact bot_le.trans_lt hn, rfl⟩
  · right
    split_ifs with hlt
    · rw [hbest] at hlt
      exact ⟨.succ_of_lt fun j hj => (hfirst.greatest j hj).trans_lt hlt, rfl⟩
    · rw [hbest] at hlt
      exact ⟨hfirst.succ_of_le (not_lt.mp hlt), hbest⟩

/-- The greedy path finds the first greatest logit, when all are `-inf` or above `-FLT_MAX`. -/
theorem greedyToken_isFirstIndex {vocabSize : ℕ} (hvocab : 0 < vocabSize)
    (hrow : ∀ i < vocabSize, row i = ⊥ ∨ ((-FLT_MAX : ℝ) : WithBot ℝ) < row i) :
    IsFirstIndex row vocabSize (greedyToken row vocabSize) := by
  have hscan : ∀ n ≤ vocabSize, Scanned row n
      ((List.range n).foldl (greedyStep row) (((-FLT_MAX : ℝ) : WithBot ℝ), 0)) := by
    intro n
    induction n with
    | zero => exact fun _ => Or.inl ⟨nofun, rfl⟩
    | succ n ih =>
      intro hn
      rw [List.range_succ, List.foldl_append]
      exact (ih (Nat.le_of_succ_le hn)).step (hrow n hn)
  rcases hscan vocabSize le_rfl with ⟨hmasked, hacc⟩ | ⟨hfirst, -⟩
  · unfold greedyToken
    rw [hacc]
    refine ⟨hvocab, fun j hj => ?_, nofun⟩
    rw [hmasked j hj]
    exact bot_le
  · exact hfirst

end Greedy

end CudaForge.Engine.FusedSampling
