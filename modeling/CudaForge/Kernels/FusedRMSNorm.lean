import CudaForge.Library.StridedLoop
import Mathlib.Analysis.Real.Sqrt
import Mathlib.Tactic

/-!
The fused residual addition and RMSNorm kernel, in exact arithmetic.

Global memory holds one real number per `half`. The blocks of a launch work on different rows and
the threads of a block on different vectors, so that they are taken one after another. Every run of
a loop body ends with the store of a vector and is noted, with its thread.
-/
namespace CudaForge.Kernels.Cuda
open StridedLoop

def WARP_SIZE : ℕ := 32

/-- The halfs of a 128-bit transfer. -/
def VEC_SIZE : ℕ := 8

structure FusedRMSNormParams where
  input : ℕ → ℝ
  weight : ℕ → ℝ
  numTokens : ℕ
  hiddenDim : ℕ
  epsilon : ℝ

/-- The operands that the kernel writes. -/
structure NormMemory where
  residual : ℕ → ℝ
  output : ℕ → ℝ

structure VecRun where
  rowIdx : ℕ
  tid : ℕ
  vec : ℕ
  deriving DecidableEq

/-- A thread in phase 1: the residual, the thread's sum of squares and the runs so far. -/
structure Phase1State where
  residual : ℕ → ℝ
  threadSqSum : ℝ
  runs : List VecRun

structure Phase1Block where
  residual : ℕ → ℝ
  sqSums : ℕ → ℝ
  runs : List VecRun

structure Phase3State where
  output : ℕ → ℝ
  runs : List VecRun

structure NormTrace extends NormMemory where
  phase1Runs : List VecRun
  phase3Runs : List VecRun

/-- Every lane adds the value of the lane whose number differs in one bit, for each bit. -/
def warpReduceSum (val : ℕ → ℝ) : ℕ → ℝ :=
  [16, 8, 4, 2, 1].foldl (fun val mask lane => val lane + val (lane ^^^ mask)) val

namespace FusedRMSNormParams
variable (p : FusedRMSNormParams)

def blockSize : ℕ :=
  if p.hiddenDim / 8 < 256 then
    max 32 ((p.hiddenDim / 8 + WARP_SIZE - 1) / WARP_SIZE * WARP_SIZE)
  else 256

theorem blockSize_pos : 0 < p.blockSize := by
  unfold blockSize
  split_ifs
  · exact (by norm_num : 0 < 32).trans_le (le_max_left _ _)
  · norm_num

def vecCols : ℕ := p.hiddenDim / VEC_SIZE

/-- `for (int i = tid; i < vec_cols; i += blockDim.x)` -/
def threadLoop (i : ℕ) : List ℕ :=
  if i < p.vecCols then i :: threadLoop (i + p.blockSize) else []
termination_by p.vecCols - i
decreasing_by
  have := p.blockSize_pos
  omega

def InVec (rowOffset i x : ℕ) : Prop :=
  rowOffset + i * VEC_SIZE ≤ x ∧ x < rowOffset + i * VEC_SIZE + VEC_SIZE

instance (rowOffset i x : ℕ) : Decidable (InVec rowOffset i x) :=
  inferInstanceAs (Decidable (_ ∧ _))

def addVec (rowOffset : ℕ) (residual : ℕ → ℝ) (i : ℕ) : ℕ → ℝ := fun x =>
  if InVec rowOffset i x then p.input x + residual x else residual x

def vecSqSum (rowOffset : ℕ) (residual : ℕ → ℝ) (i : ℕ) : ℝ :=
  ((List.range VEC_SIZE).map fun k =>
    let x := rowOffset + i * VEC_SIZE + k
    (p.input x + residual x) ^ 2).sum

def phase1Step (rowIdx tid : ℕ) (s : Phase1State) (i : ℕ) : Phase1State where
  residual := p.addVec (rowIdx * p.hiddenDim) s.residual i
  threadSqSum := s.threadSqSum + p.vecSqSum (rowIdx * p.hiddenDim) s.residual i
  runs := s.runs ++ [⟨rowIdx, tid, i⟩]

def phase1 (rowIdx : ℕ) (b : Phase1Block) (tid : ℕ) : Phase1Block :=
  let s := (p.threadLoop tid).foldl (p.phase1Step rowIdx tid) ⟨b.residual, 0, b.runs⟩
  { residual := s.residual
    sqSums := Function.update b.sqSums tid s.threadSqSum
    runs := s.runs }

def phase1Block (rowIdx : ℕ) (residual : ℕ → ℝ) : Phase1Block :=
  (List.range p.blockSize).foldl (p.phase1 rowIdx) ⟨residual, fun _ => 0, []⟩

def blockReduceSum (val : ℕ → ℝ) : ℝ :=
  let sharedMem := fun warp => warpReduceSum (fun lane => val (warp * WARP_SIZE + lane)) 0
  warpReduceSum (fun tid => if tid < p.blockSize / WARP_SIZE then sharedMem tid else 0) 0

noncomputable def invRms (sqSums : ℕ → ℝ) : ℝ :=
  (√(p.blockReduceSum sqSums / p.hiddenDim + p.epsilon))⁻¹

def normVec (rowOffset : ℕ) (residual : ℕ → ℝ) (scale : ℝ) (output : ℕ → ℝ) (i : ℕ) : ℕ → ℝ :=
  fun x =>
    if InVec rowOffset i x then residual x * scale * p.weight (x - rowOffset) else output x

def phase3Step (rowIdx : ℕ) (residual : ℕ → ℝ) (scale : ℝ) (tid : ℕ) (s : Phase3State) (i : ℕ) :
    Phase3State where
  output := p.normVec (rowIdx * p.hiddenDim) residual scale s.output i
  runs := s.runs ++ [⟨rowIdx, tid, i⟩]

def phase3 (rowIdx : ℕ) (residual : ℕ → ℝ) (scale : ℝ) (s : Phase3State) (tid : ℕ) : Phase3State :=
  (p.threadLoop tid).foldl (p.phase3Step rowIdx residual scale tid) s

def phase3Block (rowIdx : ℕ) (residual : ℕ → ℝ) (scale : ℝ) (output : ℕ → ℝ) : Phase3State :=
  (List.range p.blockSize).foldl (p.phase3 rowIdx residual scale) ⟨output, []⟩

noncomputable def fusedRmsnormRow (t : NormTrace) (rowIdx : ℕ) : NormTrace :=
  let first := p.phase1Block rowIdx t.residual
  let last := p.phase3Block rowIdx first.residual (p.invRms first.sqSums) t.output
  { residual := first.residual
    output := last.output
    phase1Runs := t.phase1Runs ++ first.runs
    phase3Runs := t.phase3Runs ++ last.runs }

noncomputable def fusedRmsnormRows (m : NormMemory) (rows : ℕ) : NormTrace :=
  (List.range rows).foldl p.fusedRmsnormRow ⟨m, [], []⟩

noncomputable def fusedRmsnormKernel (m : NormMemory) : NormMemory :=
  (p.fusedRmsnormRows m p.numTokens).toNormMemory

/-- `none` when `std::invalid_argument` is thrown. -/
noncomputable def launchFusedRmsnorm (m : NormMemory) : Option NormMemory :=
  if p.hiddenDim % 8 ≠ 0 then none else some (p.fusedRmsnormKernel m)

section Coverage
variable {p} {i tid x rowOffset : ℕ}

def blockDim (p : FusedRMSNormParams) : ℕ+ := ⟨p.blockSize, p.blockSize_pos⟩

@[simp] theorem blockDim_coe : (p.blockDim : ℕ) = p.blockSize := rfl

theorem threadLoop_eq (p : FusedRMSNormParams) (tid : ℕ) :
    p.threadLoop tid = indices p.blockDim p.vecCols tid := by
  induction tid using threadLoop.induct p with
  | case1 tid hlt ih => rw [threadLoop, indices, if_pos hlt, if_pos hlt, ih, blockDim_coe]
  | case2 tid hge => rw [threadLoop, indices, if_neg hge, if_neg hge]

/-- A thread takes every `blockSize`-th vector. -/
theorem mem_threadLoop : i ∈ p.threadLoop tid ↔ i < p.vecCols ∧ ∃ j, i = tid + j * p.blockSize := by
  rw [threadLoop_eq, mem_indices, blockDim_coe]

theorem threadLoop_nodup (tid : ℕ) : (p.threadLoop tid).Nodup := by
  rw [threadLoop_eq]
  exact indices_nodup

def blockVecs (p : FusedRMSNormParams) : List ℕ := (List.range p.blockSize).flatMap p.threadLoop

theorem blockVecs_eq (p : FusedRMSNormParams) :
    p.blockVecs = blockIndices p.blockDim p.vecCols := by
  rw [blockVecs, blockIndices, blockDim_coe, funext (threadLoop_eq p)]

theorem mem_blockVecs : i ∈ p.blockVecs ↔ i < p.vecCols := by
  rw [blockVecs_eq, mem_blockIndices]

theorem blockVecs_nodup : p.blockVecs.Nodup := by
  rw [blockVecs_eq]
  exact blockIndices_nodup

/-- The residual after the vectors of a list, each of which is taken once. -/
theorem addVecs_apply (vecs : List ℕ) (hnodup : vecs.Nodup) (residual : ℕ → ℝ) (x : ℕ) :
    vecs.foldl (p.addVec rowOffset) residual x =
      if ∃ i ∈ vecs, InVec rowOffset i x then p.input x + residual x else residual x := by
  induction vecs generalizing residual with
  | nil => simp
  | cons i vecs ih =>
    obtain ⟨hi, hrest⟩ := List.nodup_cons.mp hnodup
    rw [List.foldl_cons, ih hrest]
    by_cases hin : InVec rowOffset i x
    · have hother : ¬∃ i' ∈ vecs, InVec rowOffset i' x := by
        rintro ⟨i', hi', hin'⟩
        have : i' = i := by
          unfold InVec VEC_SIZE at hin hin'
          omega
        exact hi (this ▸ hi')
      rw [if_neg hother, if_pos ⟨i, List.mem_cons_self, hin⟩, addVec, if_pos hin]
    · simp only [addVec, hin, if_false, List.exists_mem_cons_iff, false_or]

theorem phase1Steps_residual (rowIdx tid : ℕ) (vecs : List ℕ) (st : Phase1State) :
    (vecs.foldl (p.phase1Step rowIdx tid) st).residual =
      vecs.foldl (p.addVec (rowIdx * p.hiddenDim)) st.residual := by
  induction vecs generalizing st with
  | nil => rfl
  | cons i vecs ih => exact ih _

theorem phase1_residual (rowIdx : ℕ) (b : Phase1Block) (tid : ℕ) :
    (p.phase1 rowIdx b tid).residual =
      (p.threadLoop tid).foldl (p.addVec (rowIdx * p.hiddenDim)) b.residual :=
  phase1Steps_residual _ _ _ _

theorem phase1Block_residual (rowIdx : ℕ) (residual : ℕ → ℝ) :
    (p.phase1Block rowIdx residual).residual =
      p.blockVecs.foldl (p.addVec (rowIdx * p.hiddenDim)) residual := by
  have hthreads : ∀ (tids : List ℕ) (b : Phase1Block), (tids.foldl (p.phase1 rowIdx) b).residual =
      (tids.flatMap p.threadLoop).foldl (p.addVec (rowIdx * p.hiddenDim)) b.residual := by
    intro tids
    induction tids with
    | nil => exact fun _ => rfl
    | cons tid tids ih =>
      intro b
      rw [List.foldl_cons, ih, List.flatMap_cons, List.foldl_append, phase1_residual]
  exact hthreads _ _

theorem vecCols_mul (hvec : p.hiddenDim % VEC_SIZE = 0) : p.vecCols * VEC_SIZE = p.hiddenDim :=
  Nat.div_mul_cancel (Nat.dvd_of_mod_eq_zero hvec)

/-- The vectors of a block cover the row, and nothing else. -/
theorem exists_inVec_iff (hvec : p.hiddenDim % VEC_SIZE = 0) (rowIdx x : ℕ) :
    (∃ i ∈ p.blockVecs, InVec (rowIdx * p.hiddenDim) i x) ↔
      rowIdx * p.hiddenDim ≤ x ∧ x < (rowIdx + 1) * p.hiddenDim := by
  have hdim := vecCols_mul hvec
  simp only [mem_blockVecs, Nat.succ_mul, InVec]
  constructor
  · rintro ⟨i, hi, hlow, hhigh⟩
    have : (i + 1) * VEC_SIZE ≤ p.vecCols * VEC_SIZE := Nat.mul_le_mul_right _ hi
    rw [Nat.succ_mul] at this
    omega
  · rintro ⟨hlow, hhigh⟩
    refine ⟨(x - rowIdx * p.hiddenDim) / VEC_SIZE, ?_, ?_⟩
    · rw [Nat.div_lt_iff_lt_mul (by decide)]
      omega
    · unfold VEC_SIZE
      omega

/-- A row of whole vectors takes the input of each of its places once. -/
theorem fusedRmsnormRow_residual (hvec : p.hiddenDim % VEC_SIZE = 0) (t : NormTrace)
    (rowIdx x : ℕ) : (p.fusedRmsnormRow t rowIdx).residual x =
      if rowIdx * p.hiddenDim ≤ x ∧ x < (rowIdx + 1) * p.hiddenDim then p.input x + t.residual x
      else t.residual x := by
  simp only [fusedRmsnormRow, phase1Block_residual, addVecs_apply _ blockVecs_nodup,
    exists_inVec_iff hvec]

theorem fusedRmsnormRows_succ (m : NormMemory) (rows : ℕ) :
    p.fusedRmsnormRows m (rows + 1) = p.fusedRmsnormRow (p.fusedRmsnormRows m rows) rows := by
  rw [fusedRmsnormRows, List.range_succ, List.foldl_append]
  rfl

/-- The first rows of the launch take the input of their places once. -/
theorem rows_residual (hvec : p.hiddenDim % VEC_SIZE = 0) (m : NormMemory) (rows x : ℕ) :
    (p.fusedRmsnormRows m rows).residual x =
      if x < rows * p.hiddenDim then p.input x + m.residual x else m.residual x := by
  induction rows with
  | zero => simp [fusedRmsnormRows]
  | succ n ih =>
    rw [fusedRmsnormRows_succ, fusedRmsnormRow_residual hvec, ih]
    have hsucc : (n + 1) * p.hiddenDim = n * p.hiddenDim + p.hiddenDim := Nat.succ_mul n _
    split_ifs <;> first | rfl | omega

/-- The rows of the launch take the input of their places once. -/
theorem fusedRmsnormKernel_residual (hvec : p.hiddenDim % VEC_SIZE = 0) (m : NormMemory) (x : ℕ) :
    (p.fusedRmsnormKernel m).residual x =
      if x < p.numTokens * p.hiddenDim then p.input x + m.residual x else m.residual x :=
  rows_residual hvec m p.numTokens x

/-- Each further run adds the input once more. -/
theorem iterate_residual (hvec : p.hiddenDim % VEC_SIZE = 0) (n : ℕ) (m : NormMemory) (x : ℕ) :
    (p.fusedRmsnormKernel^[n] m).residual x =
      if x < p.numTokens * p.hiddenDim then n * p.input x + m.residual x else m.residual x := by
  induction n with
  | zero => simp
  | succ n ih =>
    rw [Function.iterate_succ_apply', fusedRmsnormKernel_residual hvec, ih]
    split_ifs
    · push_cast
      ring
    · rfl

end Coverage
end FusedRMSNormParams
end CudaForge.Kernels.Cuda
