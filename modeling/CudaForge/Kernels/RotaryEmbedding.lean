import Mathlib.Data.Real.Basic
import CudaForge.Kernels.TritonLanguage
import CudaForge.Library.SharedMemory
import CudaForge.Library.StridedLoop

/-!
The CUDA and Triton kernels for rotary position embeddings, in exact arithmetic.

A thread of the CUDA launch and a program of the Triton launch are lists of instructions over the
elements behind the four pointers; a launch runs in any interleaving of them. The head offsets of
the CUDA kernel are of type `size_t` and exact here, its row offsets and all of Triton's are 32-bit.
-/
namespace CudaForge.Kernels.Rope
open SharedMemory StridedLoop Triton PromotedIntegers PromotedInt

/-- The two tensors that are rotated in place. -/
inductive Operand where
  | Q | K
  deriving DecidableEq

inductive Buffer where
  | operand (o : Operand)
  | cos | sin
  deriving DecidableEq

/-- An element behind the pointer of a buffer, or before it. -/
abbrev Cell := Buffer × ℤ

def Cell.plus (ptr : Cell) (i : ℕ) : Cell := (ptr.1, ptr.2 + i)

inductive Reg where
  | x1 | x2 | c | s
  deriving DecidableEq

structure RopeShape where
  batchSize : ℕ
  seqLen : ℕ
  numQHeads : ℕ
  numKvHeads : ℕ
  headDim : ℕ

section Cuda

structure ThreadId where
  blockX : ℕ
  blockY : ℕ
  blockZ : ℕ
  tid : ℕ
  deriving DecidableEq

noncomputable def applyRopeVector (headDim : ℕ) (blockDim : ℕ+) (vec cosPtr sinPtr : Cell)
    (tid : ℕ) : List (Instr Reg Cell ℝ) :=
  let HALF_DIM := headDim / 2
  (indices blockDim HALF_DIM tid).flatMap fun i =>
    [.load .x1 (vec.plus i), .load .x2 (vec.plus (i + HALF_DIM)),
      .load .c (cosPtr.plus i), .load .s (sinPtr.plus i),
      .store (vec.plus i) fun r => r .x1 * r .c - r .x2 * r .s,
      .store (vec.plus (i + HALF_DIM)) fun r => r .x1 * r .s + r .x2 * r .c]

noncomputable def ropeKernel (s : RopeShape) (blockDim : ℕ+) (t : ThreadId) :
    List (Instr Reg Cell ℝ) :=
  let tokenIdx := t.blockX
  let headIdx := t.blockY
  let pos := tokenIdx % s.seqLen
  let row := int32 pos * int32 (s.headDim / 2 : ℕ)
  let cosRow : Cell := (.cos, row.toInt)
  let sinRow : Cell := (.sin, row.toInt)
  if t.blockZ = 0 then
    if s.numQHeads ≤ headIdx then []
    else
      let offset : ℕ := (tokenIdx * s.numQHeads + headIdx) * s.headDim
      applyRopeVector s.headDim blockDim (.operand .Q, offset) cosRow sinRow t.tid
  else
    if s.numKvHeads ≤ headIdx then []
    else
      let offset : ℕ := (tokenIdx * s.numKvHeads + headIdx) * s.headDim
      applyRopeVector s.headDim blockDim (.operand .K, offset) cosRow sinRow t.tid

/-- A launch over a grid of `batch * seq`, the greater number of heads, and 2 blocks. -/
noncomputable def ropeLaunch (s : RopeShape) (blockDim : ℕ+) (t : ThreadId) :
    List (Instr Reg Cell ℝ) :=
  if t.blockX < s.batchSize * s.seqLen ∧ t.blockY < max s.numQHeads s.numKvHeads ∧ t.blockZ < 2 ∧
      t.tid < blockDim then
    ropeKernel s blockDim t
  else []

end Cuda

section Triton

structure ProgramId where
  tokenIdx : ℕ
  headIdx : ℕ
  isKey : ℕ
  deriving DecidableEq

/-- A tensor that `is_contiguous()`: without elements, or with row-major strides in the dimensions
of another length than 1. -/
structure Contiguous4 (n₀ n₁ n₂ n₃ : ℕ) where
  stride0 : ℕ
  stride1 : ℕ
  stride2 : ℕ
  stride3 : ℕ
  contiguous : n₀ * n₁ * n₂ * n₃ = 0 ∨
    (n₃ = 1 ∨ stride3 = 1) ∧ (n₂ = 1 ∨ stride2 = n₃) ∧ (n₁ = 1 ∨ stride1 = n₂ * n₃) ∧
      (n₀ = 1 ∨ stride0 = n₁ * n₂ * n₃)

structure Contiguous2 (n₀ n₁ : ℕ) where
  stride0 : ℕ
  stride1 : ℕ
  contiguous : n₀ * n₁ = 0 ∨ (n₁ = 1 ∨ stride1 = 1) ∧ (n₀ = 1 ∨ stride0 = n₁)

/-- The strides of `q`, `k`, `cos` and `sin`. -/
structure RopeTensors (s : RopeShape) where
  q : Contiguous4 s.batchSize s.seqLen s.numQHeads s.headDim
  k : Contiguous4 s.batchSize s.seqLen s.numKvHeads s.headDim
  cos : Contiguous2 s.seqLen (s.headDim / 2)
  sin : Contiguous2 s.seqLen (s.headDim / 2)

def Contiguous4.headOffset {n₀ n₁ n₂ n₃ : ℕ} (x : Contiguous4 n₀ n₁ n₂ n₃)
    (batchId seqId headIdx : ℕ) : ℤ :=
  (scaled batchId x.stride0).toInt + (scaled seqId x.stride1).toInt +
    (scaled headIdx x.stride2).toInt

def Contiguous2.ptrs {n₀ n₁ : ℕ} (x : Contiguous2 n₀ n₁) (seqId offsD : ℕ) : ℤ :=
  (scaled seqId x.stride0).toInt + (scaled offsD x.stride1).toInt

/-- The loads of both halves of a head vector, and the stores of the rotated halves. -/
noncomputable def rotateHead {n₀ n₁ n₂ n₃ : ℕ} (o : Operand) (x : Contiguous4 n₀ n₁ n₂ n₃)
    (batchId seqId headIdx HALF_DIM BLOCK_DIM : ℕ) : List (Instr (Reg × ℕ) Cell ℝ) :=
  let ptr := x.headOffset batchId seqId headIdx
  let firstPtrs := fun offsD => ((.operand o, ptr + (scaled offsD x.stride3).toInt) : Cell)
  let secondPtrs := fun offsD =>
    ((.operand o, ptr + (scaled (offsD + HALF_DIM) x.stride3).toInt) : Cell)
  loadTile BLOCK_DIM (· < HALF_DIM) (Prod.mk .x1) 0 firstPtrs ++
    loadTile BLOCK_DIM (· < HALF_DIM) (Prod.mk .x2) 0 secondPtrs ++
    storeTile BLOCK_DIM (· < HALF_DIM) firstPtrs
      (fun d r => r (.x1, d) * r (.c, d) - r (.x2, d) * r (.s, d)) ++
    storeTile BLOCK_DIM (· < HALF_DIM) secondPtrs
      (fun d r => r (.x1, d) * r (.s, d) + r (.x2, d) * r (.c, d))

noncomputable def fusedRopeKernel {s : RopeShape} (x : RopeTensors s) (HALF_DIM BLOCK_DIM : ℕ)
    (p : ProgramId) : List (Instr (Reg × ℕ) Cell ℝ) :=
  let batchId := p.tokenIdx / s.seqLen
  let seqId := p.tokenIdx % s.seqLen
  let cosPtrs := fun offsD => ((.cos, x.cos.ptrs seqId offsD) : Cell)
  let sinPtrs := fun offsD => ((.sin, x.sin.ptrs seqId offsD) : Cell)
  loadTile BLOCK_DIM (· < HALF_DIM) (Prod.mk .c) 0 cosPtrs ++
    loadTile BLOCK_DIM (· < HALF_DIM) (Prod.mk .s) 0 sinPtrs ++
    if p.isKey = 0 then
      if p.headIdx < s.numQHeads then
        rotateHead .Q x.q batchId seqId p.headIdx HALF_DIM BLOCK_DIM
      else []
    else
      if p.headIdx < s.numKvHeads then
        rotateHead .K x.k batchId seqId p.headIdx HALF_DIM BLOCK_DIM
      else []

noncomputable def ropePrograms {s : RopeShape} (x : RopeTensors s) (p : ProgramId) :
    List (Instr (Reg × ℕ) Cell ℝ) :=
  if p.tokenIdx < s.batchSize * s.seqLen ∧ p.headIdx < max s.numQHeads s.numKvHeads ∧
      p.isKey < 2 then
    fusedRopeKernel x (s.headDim / 2) (nextPowerOf2 (s.headDim / 2)) p
  else []

/-- `fused_rope_triton`. A tile has at least one lane. -/
noncomputable def fusedRopeTriton {s : RopeShape} (x : RopeTensors s) :
    Except LaunchError (ProgramId → List (Instr (Reg × ℕ) Cell ℝ)) :=
  let halfDim := s.headDim / 2
  let blockDim := nextPowerOf2 halfDim
  let totalTokens := s.batchSize * s.seqLen
  let maxHeads := max s.numQHeads s.numKvHeads
  if halfDim = 0 ∨ maxTensorNumel < blockDim then .error .compilationError
  else launchGrid totalTokens maxHeads 2 (ropePrograms x)

end Triton

def RopeShape.heads (s : RopeShape) : Operand → ℕ
  | .Q => s.numQHeads
  | .K => s.numKvHeads

/-- One pair `(d, d + head_dim / 2)` of one head of one token. -/
@[ext]
structure Pair (s : RopeShape) where
  operand : Operand
  token : ℕ
  head : ℕ
  d : ℕ
  token_lt : token < s.batchSize * s.seqLen
  head_lt : head < s.heads operand
  d_lt : d < s.headDim / 2

namespace RopeShape
variable (s : RopeShape)

def size : Buffer → ℕ
  | .operand o => s.batchSize * s.seqLen * s.heads o * s.headDim
  | .cos | .sin => s.seqLen * (s.headDim / 2)

def InBounds (c : Cell) : Prop := 0 ≤ c.2 ∧ c.2 < s.size c.1

/-- A tile takes half a head, and the device takes the grid or has no block to run. -/
def Launches : Prop :=
  0 < s.headDim / 2 ∧ nextPowerOf2 (s.headDim / 2) ≤ maxTensorNumel ∧
    (s.batchSize * s.seqLen * max s.numQHeads s.numKvHeads * 2 = 0 ∨
      GridFits (s.batchSize * s.seqLen) (max s.numQHeads s.numKvHeads) 2)

/-- The last batch, position and head of `Q` and `K` start at a multiple of their stride that is a
32-bit integer, and so does the last row of `cos` and `sin`. -/
structure OffsetsFit : Prop where
  batch : ∀ o, (s.batchSize - 1) * (s.seqLen * s.heads o * s.headDim) < 2147483648
  position : ∀ o, (s.seqLen - 1) * (s.heads o * s.headDim) < 2147483648
  head : ∀ o, (s.heads o - 1) * s.headDim < 2147483648
  row : (s.seqLen - 1) * (s.headDim / 2) < 2147483648

end RopeShape

namespace Pair
variable {s : RopeShape} (p : Pair s)

def element (e : ℕ) : Cell :=
  Cell.plus (.operand p.operand, ((p.token * s.heads p.operand + p.head) * s.headDim : ℕ)) e

def first : Cell := p.element p.d

def second : Cell := p.element (p.d + s.headDim / 2)

/-- The pair's column of row `token % seq_len` of `cos`. -/
def cosCell : Cell := Cell.plus (.cos, (p.token % s.seqLen * (s.headDim / 2) : ℕ)) p.d

def sinCell : Cell := Cell.plus (.sin, (p.token % s.seqLen * (s.headDim / 2) : ℕ)) p.d

end Pair

/-- Every pair is rotated once, from its values in `m`, and nothing else has changed. -/
structure Rotated (s : RopeShape) (m m' : Cell → ℝ) : Prop where
  first : ∀ p : Pair s, m' p.first = m p.first * m p.cosCell - m p.second * m p.sinCell
  second : ∀ p : Pair s, m' p.second = m p.first * m p.sinCell + m p.second * m p.cosCell
  frame : ∀ c, (∀ p : Pair s, c ≠ p.first ∧ c ≠ p.second) → m' c = m c

end CudaForge.Kernels.Rope
