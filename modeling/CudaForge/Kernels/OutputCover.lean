import CudaForge.Kernels.MaskedColumns
import CudaForge.Library.TiledLoop

/-!
Which elements of `O` the launched threads store. A thread keeps a quarter of the columns of its
row, and only the first of the two threads of a row stores.
-/
namespace CudaForge.Kernels.Cuda
open TiledLoop

/-- A store of the accumulator `o_acc[d]` by a thread of the grid. -/
structure Store where
  block : BlockIdx
  tid : ℕ
  d : ℕ

structure OutputIndex where
  batch : ℕ
  head : ℕ
  row : ℕ
  col : ℕ

namespace KernelArgs
variable {a : KernelArgs} {batchSize : ℕ}

/-- The element of `O` in memory. -/
def outputOffset (a : KernelArgs) (o : OutputIndex) : ℕ :=
  ((o.batch * a.numHeads + o.head) * a.seqLen + o.row) * a.headDim + o.col

structure InOutput (a : KernelArgs) (batchSize : ℕ) (o : OutputIndex) : Prop where
  batch : o.batch < batchSize
  head : o.head < a.numHeads
  row : o.row < a.seqLen
  col : o.col < a.headDim

/-- The column of the row `tid % BLOCK_M` that `o_acc[d]` of thread `tid` accumulates. -/
def accColumn (tid d : ℕ) : ℕ := d * 4 + tid % 4

/-- The threads that `launch_flash_attn_v2` launches. -/
structure Launched (a : KernelArgs) (batchSize : ℕ) (b : BlockIdx) (tid : ℕ) : Prop where
  tile : b.x < (a.seqLen + BLOCK_M - 1) / BLOCK_M
  head : b.y < a.numHeads
  batch : b.z < batchSize
  thread : tid < blockThreads

/-- Step 6 of a thread that has not returned early: it stores `o_acc[d]`. -/
structure Stores (a : KernelArgs) (batchSize : ℕ) (s : Store) : Prop where
  launched : a.Launched batchSize s.block s.tid
  entered : qStart s.block < a.seqLen
  row : qStart s.block + qRowLocal s.tid < a.seqLen
  storing : s.tid < BLOCK_M
  register : s.d < a.headDim / 4

def storeOffset (a : KernelArgs) (s : Store) : ℕ :=
  a.bhOffset s.block + qStart s.block * a.headDim +
    (qRowLocal s.tid * a.headDim + (s.d * 4 + s.tid % 4))

def computedFor (s : Store) : OutputIndex where
  batch := s.block.z
  head := s.block.y
  row := qStart s.block + qRowLocal s.tid
  col := accColumn s.tid s.d

/-- Exactly one store goes to the element, and its accumulator was computed for it. -/
def WrittenOnce (a : KernelArgs) (batchSize : ℕ) (o : OutputIndex) : Prop :=
  ∃ s, a.Stores batchSize s ∧ a.storeOffset s = a.outputOffset o ∧ computedFor s = o ∧
    ∀ s', a.Stores batchSize s' → a.storeOffset s' = a.outputOffset o → s' = s

/-- Every element of the output is written once. -/
def WritesOutput (a : KernelArgs) (batchSize : ℕ) : Prop :=
  ∀ o, a.InOutput batchSize o → a.WrittenOnce batchSize o

/-- A tile adds its values of the column to the accumulator, weighted by the scores of the row. -/
theorem update_oAcc (a : KernelArgs) (b : BlockIdx) (tid : ℕ) (smem : ℕ → ℝ) (kStart : ℕ)
    (r : Registers a.headDim) (d : Fin (a.headDim / 4))
    (hrow : qStart b + qRowLocal tid < a.seqLen) (hl : 0 < a.lCurr b tid smem kStart r) :
    (a.update b tid smem kStart r).oAcc d * a.lCurr b tid smem kStart r =
      r.oAcc d * (r.lPrev * a.alpha b tid smem kStart r) +
        ∑ n ∈ Finset.range BLOCK_N, a.expScores b tid smem kStart r n *
          smem (a.smemV + (n * a.headDim + accColumn tid d)) := by
  have hterm : ∀ n, (if 0 < a.expScores b tid smem kStart r n then
        a.expScores b tid smem kStart r n * (1 / a.lCurr b tid smem kStart r) *
          smem (a.smemV + (n * a.headDim + (d * 4 + tid % 4)))
      else 0) * a.lCurr b tid smem kStart r =
        a.expScores b tid smem kStart r n *
          smem (a.smemV + (n * a.headDim + accColumn tid d)) := by
    intro n
    have hnonneg : 0 ≤ a.expScores b tid smem kStart r n := by
      unfold expScores
      split_ifs
      · exact (Real.exp_pos _).le
      · exact le_rfl
    rcases hnonneg.eq_or_lt with heq | hlt
    · rw [← heq, if_neg (lt_irrefl 0), zero_mul, zero_mul]
    · rw [if_pos hlt, accColumn]
      field_simp
  unfold update
  simp only [if_pos hrow, if_pos hl]
  rw [add_mul, Finset.sum_mul, Finset.sum_congr rfl fun n _ => hterm n]
  field_simp

section Offsets

theorem storeOffset_eq (a : KernelArgs) (s : Store) :
    a.storeOffset s = a.outputOffset (computedFor s) := by
  unfold storeOffset outputOffset bhOffset computedFor accColumn
  ring

/-- Two elements of the output lie at different addresses. -/
theorem outputOffset_injective {o o' : OutputIndex} (ho : a.InOutput batchSize o)
    (ho' : a.InOutput batchSize o') (h : a.outputOffset o = a.outputOffset o') : o = o' := by
  obtain ⟨hrows, hcol⟩ := eq_of_mul_add_eq ho.col ho'.col h
  obtain ⟨hheads, hrow⟩ := eq_of_mul_add_eq ho.row ho'.row hrows
  obtain ⟨hbatch, hhead⟩ := eq_of_mul_add_eq ho.head ho'.head hheads
  cases o
  cases o'
  simp only at hbatch hhead hrow hcol
  rw [hbatch, hhead, hrow, hcol]

theorem Stores.inOutput {s : Store} (h : a.Stores batchSize s) :
    a.InOutput batchSize (computedFor s) := by
  refine ⟨h.launched.batch, h.launched.head, h.row, ?_⟩
  have hd := h.register
  show s.d * 4 + s.tid % 4 < a.headDim
  omega

/-- A thread that stores is the only one for its row; its accumulators have different columns. -/
theorem Stores.eq_of_computedFor {s s' : Store} (h : a.Stores batchSize s)
    (h' : a.Stores batchSize s') (heq : computedFor s = computedFor s') : s = s' := by
  have htid := h.storing
  have htid' := h'.storing
  obtain ⟨⟨x, y, z⟩, tid, d⟩ := s
  obtain ⟨⟨x', y', z'⟩, tid', d'⟩ := s'
  simp only [computedFor, accColumn, qStart, qRowLocal, BLOCK_M, OutputIndex.mk.injEq] at *
  obtain ⟨rfl, rfl, hrow, hcol⟩ := heq
  obtain rfl : x = x' := by omega
  obtain rfl : tid = tid' := by omega
  obtain rfl : d = d' := by omega
  rfl

end Offsets

/-- An element is written once when it is in one of the columns of its row's thread, and otherwise
not at all. -/
theorem writtenOnce_iff {o : OutputIndex} (ho : a.InOutput batchSize o) :
    a.WrittenOnce batchSize o ↔ o.row % 4 = o.col % 4 := by
  constructor
  · rintro ⟨s, hs, -, rfl, -⟩
    have htid := hs.storing
    show (s.block.x * BLOCK_M + s.tid % BLOCK_M) % 4 = (s.d * 4 + s.tid % 4) % 4
    unfold BLOCK_M at htid ⊢
    omega
  · intro hcolumn
    have hrow := ho.row
    have hcol := ho.col
    have hdim := a.headDim_supported
    have hstores : a.Stores batchSize ⟨⟨o.row / 64, o.head, o.batch⟩, o.row % 64, o.col / 4⟩ := by
      refine ⟨⟨?_, ho.head, ho.batch, ?_⟩, ?_, ?_, ?_, ?_⟩ <;>
        simp only [qStart, qRowLocal, BLOCK_M, blockThreads] <;> omega
    have hcomputed : computedFor ⟨⟨o.row / 64, o.head, o.batch⟩, o.row % 64, o.col / 4⟩ = o := by
      obtain ⟨batch, head, row, col⟩ := o
      simp only [computedFor, accColumn, qStart, qRowLocal, BLOCK_M, OutputIndex.mk.injEq,
        true_and] at hcolumn ⊢
      omega
    refine ⟨_, hstores, by rw [storeOffset_eq, hcomputed], hcomputed, fun s' hs' hoffset => ?_⟩
    rw [storeOffset_eq] at hoffset
    have hindex := outputOffset_injective hs'.inOutput ho hoffset
    exact hs'.eq_of_computedFor hstores (hindex.trans hcomputed.symm)

/-- The launch writes its whole output only when there is none. -/
theorem writesOutput_iff (a : KernelArgs) (batchSize : ℕ) :
    a.WritesOutput batchSize ↔ batchSize * a.numHeads * a.seqLen = 0 := by
  constructor
  · intro hwrites
    by_contra hne
    rw [mul_eq_zero, mul_eq_zero, not_or, not_or] at hne
    obtain ⟨⟨hbatch, hhead⟩, hrow⟩ := hne
    have hdim := a.headDim_supported
    have hvalid : a.InOutput batchSize ⟨0, 0, 0, 1⟩ :=
      ⟨Nat.pos_of_ne_zero hbatch, Nat.pos_of_ne_zero hhead, Nat.pos_of_ne_zero hrow, by
        show 1 < a.headDim
        omega⟩
    exact absurd ((writtenOnce_iff hvalid).mp (hwrites _ hvalid)) (by decide)
  · intro hempty o ho
    rw [mul_eq_zero, mul_eq_zero] at hempty
    rcases hempty with (hbatch | hhead) | hrow
    · exact absurd ho.batch (by omega)
    · exact absurd ho.head (by omega)
    · exact absurd ho.row (by omega)

/-- One row: its thread leaves column 1 unwritten. -/
theorem columnOne_unwritten :
    ¬(⟨64, Or.inl rfl, fun _ => 0, 1, 1, 1, false⟩ : KernelArgs).WritesOutput 1 := by
  intro hwrites
  have hvalid : (⟨64, Or.inl rfl, fun _ => 0, 1, 1, 1, false⟩ : KernelArgs).InOutput 1
      ⟨0, 0, 0, 1⟩ := ⟨Nat.one_pos, Nat.one_pos, Nat.one_pos, by norm_num⟩
  exact absurd ((writtenOnce_iff hvalid).mp (hwrites _ hvalid)) (by decide)

end KernelArgs
end CudaForge.Kernels.Cuda
