import Mathlib.Analysis.SpecialFunctions.Exp
import Mathlib.Data.List.ProdSigma
import Mathlib.Tactic

/-!
The loop of the CUDA FlashAttention kernel over its K/V tiles, in exact arithmetic.

Global and shared memory hold one real number per `half`. Shared memory has the size that
`launch_flash_attn_v2` asks for, and a copy that ends behind it faults. The asynchronous copies of a
load phase complete, in any order, before the barrier that ends the phase.
-/
namespace CudaForge.Kernels.Cuda

def BLOCK_M : ℕ := 64

def BLOCK_N : ℕ := 64

def blockThreads : ℕ := 128

/-- What the launch fixes for a block: the arguments, without the key and value tensors. -/
structure KernelArgs where
  headDim : ℕ
  /-- `launch_flash_attn_v2` throws for every other head dimension. -/
  headDim_supported : headDim = 64 ∨ headDim = 128
  q : ℕ → ℝ
  seqLen : ℕ
  numHeads : ℕ
  smScale : ℝ
  isCausal : Bool

/-- `blockIdx`: the Q tile, the head and the batch. -/
structure BlockIdx where
  x : ℕ
  y : ℕ
  z : ℕ

/-- `cp_async_cg_16`: eight halfs to shared memory from `dst` on. -/
structure AsyncCopy where
  dst : ℕ
  src : ℕ → ℝ

/-- The order in which the copies of each load phase land. -/
structure CopyOrder where
  reorder : ℕ → List AsyncCopy → List AsyncCopy
  perm : ∀ phase copies, (reorder phase copies).Perm copies

structure DeviceMemory where
  k : ℕ → ℝ
  v : ℕ → ℝ
  smem : ℕ → ℝ
  order : CopyOrder

structure Registers (headDim : ℕ) where
  mPrev : ℝ
  lPrev : ℝ
  oAcc : Fin (headDim / 4) → ℝ

inductive Outcome (headDim : ℕ) where
  | exited
  | outOfBounds
  | finished (r : Registers headDim)

namespace KernelArgs
variable (a : KernelArgs) (b : BlockIdx)

def smemSize : ℕ := BLOCK_M * a.headDim + 2 * BLOCK_N * a.headDim

def cpAsync (smem : ℕ → ℝ) (c : AsyncCopy) : Option (ℕ → ℝ) :=
  if c.dst + 8 ≤ a.smemSize then
    some fun x => if c.dst ≤ x ∧ x < c.dst + 8 then c.src (x - c.dst) else smem x
  else none

def cpAsyncAll (copies : List AsyncCopy) (smem : ℕ → ℝ) : Option (ℕ → ℝ) :=
  copies.foldlM a.cpAsync smem

def smemK : ℕ := BLOCK_M * a.headDim

def smemV : ℕ := a.smemK + BLOCK_N * a.headDim

def qStart : ℕ := b.x * BLOCK_M

def bhOffset : ℕ := (b.z * a.numHeads + b.y) * a.seqLen * a.headDim

/-- The bytes of a tile per thread, which the load loops take for a number of copies. -/
def qBytesPerThread : ℕ := BLOCK_M * a.headDim * 2 / blockThreads

def loadRow (loadIdx : ℕ) : ℕ := loadIdx / (a.headDim / 8)

def loadCol (loadIdx : ℕ) : ℕ := loadIdx % (a.headDim / 8) * 8

/-- The values of `load_idx` over all threads and iterations of a load loop. -/
def loadIndices : List ℕ :=
  (List.range blockThreads ×ˢ List.range a.qBytesPerThread).map fun (tid, i) =>
    tid + i * blockThreads

def qCopies : List AsyncCopy :=
  a.loadIndices.flatMap fun loadIdx =>
    let row := a.loadRow loadIdx
    let col := a.loadCol loadIdx
    if qStart b + row < a.seqLen then
      [⟨row * a.headDim + col,
        fun t => a.q (a.bhOffset b + qStart b * a.headDim + (row * a.headDim + col + t))⟩]
    else []

def kvCopies (mem : DeviceMemory) (kTile : ℕ) : List AsyncCopy :=
  let kStart := kTile * BLOCK_N
  a.loadIndices.flatMap fun loadIdx =>
    let row := a.loadRow loadIdx
    let col := a.loadCol loadIdx
    if kStart + row < a.seqLen then
      [⟨a.smemK + (row * a.headDim + col),
        fun t => mem.k (a.bhOffset b + ((kStart + row) * a.headDim + col + t))⟩,
       ⟨a.smemV + (row * a.headDim + col),
        fun t => mem.v (a.bhOffset b + ((kStart + row) * a.headDim + col + t))⟩]
    else []

def maxKTiles : ℕ :=
  if a.isCausal then
    min ((qStart b + BLOCK_M + BLOCK_N - 1) / BLOCK_N) ((a.seqLen + BLOCK_N - 1) / BLOCK_N)
  else (a.seqLen + BLOCK_N - 1) / BLOCK_N

section Thread
variable (tid : ℕ) (smem : ℕ → ℝ) (kStart : ℕ)

def qRowLocal : ℕ := tid % BLOCK_M

def skipped (n : ℕ) : Bool :=
  decide (a.seqLen ≤ kStart + n) ||
    (a.isCausal && decide (qStart b + qRowLocal tid < kStart + n))

def score (n : ℕ) : ℝ :=
  (∑ d ∈ Finset.range a.headDim,
    smem (qRowLocal tid * a.headDim + d) * smem (a.smemK + (n * a.headDim + d))) * a.smScale

/-- `s_scores` after the score loop: a skipped column keeps its initial `0.0f`. -/
def sScores (n : ℕ) : ℝ :=
  if qStart b + qRowLocal tid < a.seqLen then
    if a.skipped b tid kStart n then 0 else a.score tid smem n
  else 0

def sMax : ℝ :=
  if qStart b + qRowLocal tid < a.seqLen then
    (List.range BLOCK_N).foldl
      (fun s n => if a.skipped b tid kStart n then s else max s (a.score tid smem n)) (-10 ^ 20)
  else -10 ^ 20

def mCurr (r : Registers a.headDim) : ℝ := max r.mPrev (a.sMax b tid smem kStart)

/-- `s_scores` after the exponentiation, which recognises masked columns by their score. -/
noncomputable def expScores (r : Registers a.headDim) (n : ℕ) : ℝ :=
  if -10 ^ 19 < a.sScores b tid smem kStart n then
    Real.exp (a.sScores b tid smem kStart n - a.mCurr b tid smem kStart r)
  else 0

noncomputable def alpha (r : Registers a.headDim) : ℝ :=
  Real.exp (r.mPrev - a.mCurr b tid smem kStart r)

noncomputable def lCurr (r : Registers a.headDim) : ℝ :=
  r.lPrev * a.alpha b tid smem kStart r +
    ∑ n ∈ Finset.range BLOCK_N, a.expScores b tid smem kStart r n

/-- Steps 3 to 5 of the loop body in one thread. -/
noncomputable def update (r : Registers a.headDim) : Registers a.headDim :=
  let lCurr := a.lCurr b tid smem kStart r
  let rescalePrev := if 0 < lCurr then r.lPrev * a.alpha b tid smem kStart r / lCurr else 0
  let scaleCurr := if 0 < lCurr then 1 / lCurr else 0
  let weights := a.expScores b tid smem kStart r
  { mPrev := a.mCurr b tid smem kStart r
    lPrev := lCurr
    oAcc := fun d => r.oAcc d * rescalePrev +
      if qStart b + qRowLocal tid < a.seqLen then
        ∑ n ∈ Finset.range BLOCK_N, if 0 < weights n then
          weights n * scaleCurr * smem (a.smemV + (n * a.headDim + (d * 4 + tid % 4)))
        else 0
      else 0 }

end Thread

def start : Registers a.headDim where
  mPrev := -10 ^ 20
  lPrev := 0
  oAcc := fun _ => 0

noncomputable def tile (mem : DeviceMemory) (tid : ℕ) (st : (ℕ → ℝ) × Registers a.headDim)
    (kTile : ℕ) : Option ((ℕ → ℝ) × Registers a.headDim) := do
  let smem ← a.cpAsyncAll (mem.order.reorder (kTile + 1) (a.kvCopies b mem kTile)) st.1
  return (smem, a.update b tid smem (kTile * BLOCK_N) st.2)

/-- The registers of thread `tid` when its K/V loop ends. -/
noncomputable def kernel (mem : DeviceMemory) (tid : ℕ) : Outcome a.headDim :=
  if a.seqLen ≤ qStart b then .exited
  else
    let run := do
      let smem ← a.cpAsyncAll (mem.order.reorder 0 (a.qCopies b)) mem.smem
      (List.range (a.maxKTiles b)).foldlM (a.tile b mem tid) (smem, a.start)
    match run with
    | some st => .finished st.2
    | none => .outOfBounds

end KernelArgs
end CudaForge.Kernels.Cuda
