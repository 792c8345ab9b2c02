import CudaForge.Kernels.TritonLanguage
import Mathlib.Analysis.SpecialFunctions.Pow.Real
import Mathlib.Data.List.ProdSigma

/-!
The Triton FlashAttention forward kernel and its launch, in exact arithmetic.

A tile is a function of its row and column, a program writes its masked store as a list of offsets
and values, and the launch is the list of all programs' stores: they run in any order. Row and
column numbers are exact, the offsets that are made of them are 32-bit integers.
-/
namespace CudaForge.Kernels.Triton
open OnlineSoftmax OnlineSoftmax.Number PromotedIntegers

structure Strides where
  b : ℤ
  h : ℤ
  n : ℤ
  d : ℤ

def Strides.offset (s : Strides) (z h n d : ℕ) : ℤ := z * s.b + h * s.h + (n * s.n + d * s.d)

/-- The offset that the kernel adds to the pointer: one product for the batch, one for the head, and
the sum of the two others. -/
def Strides.ptrs (s : Strides) (z h n d : ℕ) : ℤ :=
  (scaled z s.b).toInt + (scaled h s.h).toInt + (scaled n s.n + scaled d s.d).toInt

/-- A `[Batch, Heads, SeqLen, HeadDim]` tensor: its storage, seen from its data pointer. -/
structure Tensor extends Strides where
  data : ℤ → ℝ

def Tensor.element (x : Tensor) (z h n d : ℕ) : ℝ := x.data (x.offset z h n d)

/-- `tl.load(ptrs, mask=row < N_CTX, other=0.0)` at one row and dimension. -/
def Tensor.load (x : Tensor) (nCtx offZ offH row d : ℕ) : ℝ :=
  if row < nCtx then x.data (x.ptrs offZ offH row d) else 0

structure KernelArgs where
  q : Tensor
  k : Tensor
  v : Tensor
  out : Strides
  smScale : ℝ
  nCtx : ℕ
  blockM : ℕ
  blockDModel : ℕ
  blockN : ℕ
  isCausal : Bool

structure ProgramId where
  startM : ℕ
  offH : ℕ
  offZ : ℕ
  deriving DecidableEq

structure Accumulators (M D : ℕ) where
  mI : Fin M → WithBot ℝ
  lI : Fin M → Number
  acc : Fin M → Fin D → Number

namespace KernelArgs
variable (a : KernelArgs) (p : ProgramId)

def offsM (i : Fin a.blockM) : ℕ := p.startM * a.blockM + i

noncomputable def qTile (i : Fin a.blockM) (d : Fin a.blockDModel) : ℝ :=
  a.q.load a.nCtx p.offZ p.offH (a.offsM p i) d * a.smScale

/-- `tl.dot(q, k)` in the column of key `c`, under the causal mask. -/
noncomputable def qk (i : Fin a.blockM) (c : ℕ) : WithBot ℝ :=
  if a.isCausal && decide (a.offsM p i < c) then ⊥
  else ((∑ d, a.qTile p i d * a.k.load a.nCtx p.offZ p.offH c d : ℝ) : WithBot ℝ)

noncomputable def tileStep (st : Accumulators a.blockM a.blockDModel) (startN : ℕ) :
    Accumulators a.blockM a.blockDModel :=
  let qk := fun (i : Fin a.blockM) (n : Fin a.blockN) => a.qk p i (startN + n)
  let mIJ := fun i => max (st.mI i) (Finset.univ.sup (qk i))
  let weights := fun i n => expSub (qk i n) (mIJ i)
  let lIJ := fun i => Number.sum (weights i)
  let alpha := fun i => expSub (st.mI i) (mIJ i)
  let v := fun (n : Fin a.blockN) (d : Fin a.blockDModel) =>
    a.v.load a.nCtx p.offZ p.offH (startN + n) d
  { mI := mIJ
    lI := fun i => st.lI i * alpha i + lIJ i
    acc := fun i d => st.acc i d * alpha i + Number.sum fun n => weights i n * real (v n d) }

def start : Accumulators a.blockM a.blockDModel where
  mI := fun _ => ⊥
  lI := fun _ => real 0
  acc := fun _ _ => real 0

def endN : ℤ :=
  if a.isCausal then min a.nCtx (scaled (p.startM + 1) a.blockM).toInt else a.nCtx

/-- The number of tiles of `range(0, end_n, BLOCK_N)`. -/
def tileCount : ℕ := ((a.endN p + a.blockN - 1) / a.blockN).toNat

noncomputable def loop : Accumulators a.blockM a.blockDModel :=
  ((List.range (a.tileCount p)).map (· * a.blockN)).foldl (a.tileStep p) a.start

/-- The masked store of one program: the offsets it writes in `Out`, with the values. -/
noncomputable def stores : List (ℤ × Number) :=
  let st := a.loop p
  (List.finRange a.blockM ×ˢ List.finRange a.blockDModel).flatMap fun (i, d) =>
    if a.offsM p i < a.nCtx then
      [(a.out.ptrs p.offZ p.offH (a.offsM p i) d, st.acc i d / st.lI i)]
    else []

end KernelArgs

/-- `torch.empty_like(q)`: storage of its own, in which distinct elements have distinct offsets. -/
structure EmptyTensor (Z H N_CTX D_HEAD : ℕ) extends Strides where
  distinct : Function.Injective fun e : Fin Z × Fin H × Fin N_CTX × Fin D_HEAD =>
    toStrides.offset e.1 e.2.1 e.2.2.1 e.2.2.2

def cdiv (n block : ℕ) : ℕ := (n + block - 1) / block

def grid (nBlocks H Z : ℕ) : List ProgramId :=
  (List.range nBlocks ×ˢ List.range H ×ˢ List.range Z).map fun (m, h, z) => ⟨m, h, z⟩

section Launch
variable {Z H N_CTX D_HEAD : ℕ}

/-- `sm_scale`, which defaults to `1 / sqrt(head_dim)`. -/
noncomputable def scaleOf (D_HEAD : ℕ) (smScale : Option ℝ) : ℝ :=
  smScale.getD (1 / (D_HEAD : ℝ) ^ (0.5 : ℝ))

noncomputable def kernelArgs (q k v : Tensor) (out : EmptyTensor Z H N_CTX D_HEAD) (causal : Bool)
    (smScale : Option ℝ) : KernelArgs where
  q := q
  k := k
  v := v
  out := out.toStrides
  smScale := scaleOf D_HEAD smScale
  nCtx := N_CTX
  blockM := 64
  blockDModel := D_HEAD
  blockN := 64
  isCausal := causal

/-- `tl.arange` takes powers of two, `tl.dot` no fewer than 16 columns, and a tile has `64 * D_HEAD`
elements. -/
def HeadDimCompiles (D_HEAD : ℕ) : Prop :=
  nextPowerOf2 D_HEAD = D_HEAD ∧ 16 ≤ D_HEAD ∧ 64 * D_HEAD ≤ maxTensorNumel

instance : Decidable (HeadDimCompiles D_HEAD) := inferInstanceAs (Decidable (_ ∧ _ ∧ _))

/-- All stores of the launch into the tensor that `flash_attn_triton` returns. `fitsDevice` says
whether the device has the shared memory of the kernel that the call compiles. -/
noncomputable def flashAttnTriton (fitsDevice : Bool) (q k v : Tensor)
    (out : EmptyTensor Z H N_CTX D_HEAD) (causal : Bool) (smScale : Option ℝ) :
    Except LaunchError (List (ℤ × Number)) :=
  if ¬HeadDimCompiles D_HEAD then .error .compilationError
  else if ¬fitsDevice then .error .outOfResources
  else
    launchGrid (cdiv N_CTX 64) H Z
      ((grid (cdiv N_CTX 64) H Z).flatMap (kernelArgs q k v out causal smScale).stores)

end Launch
end CudaForge.Kernels.Triton
