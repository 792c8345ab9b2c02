import CudaForge.Kernels.TritonLanguage

/-!
The Triton sampling kernel and its launch. A logit is a `WithBot ℝ`, whose `⊥` is `-inf`; a tile
without a finite logit has only NaNs for its softmax.
-/
namespace CudaForge.Kernels.Triton
open Finset FirstMaximum OnlineSoftmax

inductive DType where
  | float16 | float32
  deriving DecidableEq

/-- `other=-1e9` as an element of the tensor: behind the range of a half it is `-inf`. -/
def DType.other : DType → WithBot ℝ
  | .float16 => ⊥
  | .float32 => ((-1000000000 : ℝ) : WithBot ℝ)

/-- A `[batch_size, vocab_size]` tensor: its storage, seen from its data pointer. -/
structure LogitsTensor where
  batchSize : ℕ
  vocabSize : ℕ
  dtype : DType
  strideLb : ℕ
  strideLv : ℕ
  data : ℤ → WithBot ℝ

def LogitsTensor.element (logits : LogitsTensor) (batchId i : ℕ) : WithBot ℝ :=
  logits.data (batchId * logits.strideLb + i * logits.strideLv)

def LogitsTensor.logitsPtrs (logits : LogitsTensor) (batchId i : ℕ) : ℤ :=
  (scaled batchId logits.strideLb).toInt + (scaled i logits.strideLv).toInt

section Kernel
variable (ops : SoftmaxOps) (tl : Argmax) (logits : LogitsTensor) (temperature : ℝ)

/-- The loaded tile: behind the vocabulary it is padded. -/
def loadedLogits (batchId i : ℕ) : WithBot ℝ :=
  if i < logits.vocabSize then logits.data (logits.logitsPtrs batchId i) else logits.dtype.other

noncomputable def tileLogits (batchId i : ℕ) : WithBot ℝ :=
  if 1 / 100000 < temperature then (loadedLogits logits batchId i).map (ops.div · temperature)
  else loadedLogits logits batchId i

/-- The computed softmax of one logit `x` of a tile with maximum `m`. -/
def softmaxValue (tile : ℕ → WithBot ℝ) (BLOCK_V : ℕ) (m : ℝ) (x : WithBot ℝ) : ℝ :=
  ops.div (ops.expSub x m) (ops.sum BLOCK_V fun j => ops.expSub (tile j) m)

def probs (tile : ℕ → WithBot ℝ) (BLOCK_V : ℕ) (i : ℕ) : Number :=
  match (range BLOCK_V).sup tile with
  -- every lane is `-inf - -inf`
  | ⊥ => .nan
  | (m : ℝ) => .real (softmaxValue ops tile BLOCK_V m (tile i))

noncomputable def fusedSamplingTritonKernel (BLOCK_V batchId : ℕ) : ℕ :=
  tl.argmax BLOCK_V (probs ops (tileLogits ops logits temperature batchId) BLOCK_V)

noncomputable def fusedSamplingTriton : Except LaunchError (List ℕ) :=
  let blockV := nextPowerOf2 logits.vocabSize
  if maxTensorNumel < blockV then .error .compilationError
  else
    launchGrid logits.batchSize 1 1
      ((List.range logits.batchSize).map
        (fusedSamplingTritonKernel ops tl logits temperature blockV))

end Kernel

section Tile
variable {ops : SoftmaxOps} {tile : ℕ → WithBot ℝ} {n : ℕ} {m : ℝ}

theorem sum_expSub_pos (hn : 0 < n) (hmax : (range n).sup tile = m) :
    0 < ops.sum n fun j => ops.expSub (tile j) m := by
  obtain ⟨i, hi, hsup⟩ := exists_mem_eq_sup (range n) (nonempty_range_iff.mpr hn.ne') tile
  refine ops.sum_pos n _ (fun j _ => ops.expSub_nonneg _ _) ⟨i, mem_range.mp hi, ?_⟩
  rw [← hsup, hmax]
  exact ops.expSub_self_pos m

/-- The computed softmax keeps the order of the logits. -/
theorem softmaxValue_mono (hn : 0 < n) (hmax : (range n).sup tile = m) :
    Monotone (softmaxValue ops tile n m) := fun _ _ hxy =>
  ops.div_mono _ (sum_expSub_pos hn hmax) (ops.expSub_mono m hxy)

theorem probs_real (hmax : (range n).sup tile = m) :
    probs ops tile n = fun i => .real (softmaxValue ops tile n m (tile i)) := by
  funext i
  unfold probs
  rw [hmax]

theorem probs_nan (hmax : (range n).sup tile = ⊥) : probs ops tile n = fun _ => .nan := by
  funext i
  unfold probs
  rw [hmax]

/-- The selected lane is the first whose computed softmax is that of the tile's maximum. -/
theorem argmax_probs_eq_iff (tl : Argmax) (hn : 0 < n) (hmax : (range n).sup tile = m) {t : ℕ}
    (ht : t < n) : tl.argmax n (probs ops tile n) = t ↔
      softmaxValue ops tile n m (tile t) = softmaxValue ops tile n m m ∧
        ∀ i < t, softmaxValue ops tile n m (tile i) ≠ softmaxValue ops tile n m m := by
  have hfirst := tl.isFirstIndex n (fun i => softmaxValue ops tile n m (tile i)) hn
  rw [← probs_real hmax] at hfirst
  have hmono : Monotone (softmaxValue ops tile n m) := softmaxValue_mono hn hmax
  have hle : ∀ i < n, tile i ≤ m := fun i hi => hmax ▸ le_sup (mem_range.mpr hi)
  -- the selected lane has the value of the maximum
  have htop : softmaxValue ops tile n m (tile (tl.argmax n (probs ops tile n))) =
      softmaxValue ops tile n m m := by
    obtain ⟨i, hi, hsup⟩ := exists_mem_eq_sup (range n) (nonempty_range_iff.mpr hn.ne') tile
    have hi' : tile i = m := hsup.symm.trans hmax
    refine le_antisymm (hmono (hle _ hfirst.lt)) ?_
    rw [← hi']
    exact hfirst.greatest i (mem_range.mp hi)
  constructor
  · rintro rfl
    refine ⟨htop, fun i hi heq => ?_⟩
    exact absurd (heq.trans htop.symm) (hfirst.first i hi).ne
  · rintro ⟨hvalue, hbefore⟩
    refine hfirst.unique ⟨ht, fun j hj => ?_, fun j hj => ?_⟩
    · rw [hvalue]
      exact hmono (hle j hj)
    · have hlt := hmono (hle j (hj.trans ht))
      rw [hvalue]
      exact lt_of_le_of_ne hlt (hbefore j hj)

end Tile

end CudaForge.Kernels.Triton
