import CudaForge.Kernels.FusedRMSNorm
import CudaForge.Library.Butterfly
import CudaForge.Library.TiledLoop

/-!
The reduction of the fused RMSNorm kernel: what the shuffles of a block add up to, and that every
vector of a row goes through one thread in both passes.
-/
namespace CudaForge.Kernels.Cuda
open Butterfly Finset StridedLoop TiledLoop

theorem warpReduceSum_zero (val : ℕ → ℝ) :
    warpReduceSum val 0 = ∑ lane ∈ range WARP_SIZE, val lane := reduce_zero 5 val

namespace FusedRMSNormParams
variable {p : FusedRMSNormParams} {i tid rowIdx rowOffset : ℕ} {residual : ℕ → ℝ}

section Reduction

/-- A block is made of whole warps, and one warp has a lane for each of them. -/
theorem blockSize_eq : ∃ numWarps, p.blockSize = numWarps * WARP_SIZE ∧ numWarps ≤ WARP_SIZE := by
  unfold blockSize WARP_SIZE
  split_ifs with hdim
  · rcases Nat.le_total 32 ((p.hiddenDim / 8 + 32 - 1) / 32 * 32) with h | h
    · exact ⟨_, max_eq_right h, by omega⟩
    · exact ⟨1, max_eq_left h, by norm_num⟩
  · exact ⟨8, rfl, by norm_num⟩

/-- Thread 0 is left with the sum over all threads of the block. -/
theorem blockReduceSum_eq (val : ℕ → ℝ) :
    p.blockReduceSum val = ∑ tid ∈ range p.blockSize, val tid := by
  obtain ⟨numWarps, hsize, hwarps⟩ := p.blockSize_eq
  have hdiv : numWarps * WARP_SIZE / WARP_SIZE = numWarps := Nat.mul_div_cancel _ (by decide)
  rw [blockReduceSum, hsize, hdiv, sum_range_tiles, warpReduceSum_zero, sum_range_masked hwarps]
  exact sum_congr rfl fun warp _ => warpReduceSum_zero _

end Reduction

section SquareSums

theorem vecSqSum_congr {residual' : ℕ → ℝ}
    (h : ∀ x, InVec rowOffset i x → residual x = residual' x) :
    p.vecSqSum rowOffset residual i = p.vecSqSum rowOffset residual' i := by
  unfold vecSqSum
  congr 1
  apply List.map_congr_left
  intro k hk
  have hin : InVec rowOffset i (rowOffset + i * VEC_SIZE + k) :=
    ⟨Nat.le_add_right _ _, Nat.add_lt_add_left (List.mem_range.mp hk) _⟩
  dsimp only
  rw [h _ hin]

/-- A vector lies in no other one. -/
theorem InVec.unique {i' x : ℕ} (h : InVec rowOffset i x) (h' : InVec rowOffset i' x) : i = i' := by
  unfold InVec VEC_SIZE at h h'
  omega

/-- Updates of other vectors leave the sum of squares of a vector alone. -/
theorem vecSqSum_foldl (vecs : List ℕ) (hnodup : vecs.Nodup) (hi : i ∉ vecs) :
    p.vecSqSum rowOffset (vecs.foldl (p.addVec rowOffset) residual) i =
      p.vecSqSum rowOffset residual i := by
  apply vecSqSum_congr
  intro x hx
  rw [addVecs_apply vecs hnodup, if_neg]
  rintro ⟨i', hi', hx'⟩
  exact hi (hx.unique hx' ▸ hi')

/-- A run over different vectors adds the squares of each as it was before the run. -/
theorem phase1Steps_sqSum {vecs : List ℕ} (hnodup : vecs.Nodup) (st : Phase1State) :
    (vecs.foldl (p.phase1Step rowIdx tid) st).threadSqSum =
      st.threadSqSum + (vecs.map (p.vecSqSum (rowIdx * p.hiddenDim) st.residual)).sum := by
  induction vecs generalizing st with
  | nil => rw [List.foldl_nil, List.map_nil, List.sum_nil, add_zero]
  | cons i vecs ih =>
    obtain ⟨hi, hrest⟩ := List.nodup_cons.mp hnodup
    have hothers : vecs.map (p.vecSqSum (rowIdx * p.hiddenDim)
          (p.addVec (rowIdx * p.hiddenDim) st.residual i)) =
        vecs.map (p.vecSqSum (rowIdx * p.hiddenDim) st.residual) := by
      apply List.map_congr_left
      intro i' hi'
      exact vecSqSum_foldl [i] (List.nodup_singleton i) fun h =>
        hi (List.mem_singleton.mp h ▸ hi')
    rw [List.foldl_cons, ih hrest, List.map_cons, List.sum_cons, ← add_assoc]
    exact congrArg (_ + List.sum ·) hothers

theorem phase1_sqSums (b : Phase1Block) (tid : ℕ) : (p.phase1 rowIdx b tid).sqSums =
    Function.update b.sqSums tid
      ((p.threadLoop tid).map (p.vecSqSum (rowIdx * p.hiddenDim) b.residual)).sum := by
  unfold phase1
  dsimp only
  rw [phase1Steps_sqSum (threadLoop_nodup tid), zero_add]

/-- The sums of threads whose vectors are different ones. -/
theorem foldl_phase1 {tids : List ℕ} (htids : tids.Nodup)
    (hvecs : (tids.flatMap p.threadLoop).Nodup) (b : Phase1Block) (tid : ℕ) :
    (tids.foldl (p.phase1 rowIdx) b).sqSums tid =
      if tid ∈ tids then
        ((p.threadLoop tid).map (p.vecSqSum (rowIdx * p.hiddenDim) b.residual)).sum
      else b.sqSums tid := by
  induction tids generalizing b with
  | nil => rfl
  | cons t tids ih =>
    obtain ⟨ht, htids⟩ := List.nodup_cons.mp htids
    rw [List.flatMap_cons, List.nodup_append'] at hvecs
    obtain ⟨-, hrest, hdisjoint⟩ := hvecs
    rw [List.foldl_cons, ih htids hrest]
    by_cases hmem : tid ∈ tids
    · rw [if_pos hmem, if_pos (List.mem_cons_of_mem t hmem), phase1_residual]
      congr 1
      apply List.map_congr_left
      intro i hi
      refine vecSqSum_foldl _ (threadLoop_nodup t) fun hit => ?_
      exact hdisjoint hit (List.mem_flatMap.mpr ⟨tid, hmem, hi⟩)
    · rw [if_neg hmem]
      by_cases heq : tid = t
      · subst heq
        rw [if_pos List.mem_cons_self, phase1_sqSums, Function.update_self]
      · rw [if_neg (List.not_mem_cons_of_ne_of_not_mem heq hmem), phase1_sqSums,
          Function.update_of_ne heq]

theorem phase1Block_sqSums (htid : tid < p.blockSize) (residual : ℕ → ℝ) :
    (p.phase1Block rowIdx residual).sqSums tid =
      ((p.threadLoop tid).map (p.vecSqSum (rowIdx * p.hiddenDim) residual)).sum := by
  rw [phase1Block, foldl_phase1 List.nodup_range blockVecs_nodup,
    if_pos (List.mem_range.mpr htid)]

def rowSqSum (p : FusedRMSNormParams) (rowOffset : ℕ) (residual : ℕ → ℝ) : ℝ :=
  ∑ c ∈ range p.hiddenDim, (p.input (rowOffset + c) + residual (rowOffset + c)) ^ 2

/-- The sums of the threads add up to that of the row. -/
theorem sum_phase1Block (hvec : p.hiddenDim % VEC_SIZE = 0) (residual : ℕ → ℝ) :
    ∑ tid ∈ range p.blockSize, (p.phase1Block rowIdx residual).sqSums tid =
      p.rowSqSum (rowIdx * p.hiddenDim) residual := by
  have hdim := vecCols_mul hvec
  have hvecSum : ∀ rowOffset i, p.vecSqSum rowOffset residual i = ∑ k ∈ range VEC_SIZE,
      (p.input (rowOffset + (i * VEC_SIZE + k)) +
        residual (rowOffset + (i * VEC_SIZE + k))) ^ 2 := by
    intro rowOffset i
    rw [vecSqSum, ← List.sum_toFinset _ List.nodup_range, List.toFinset_range]
    simp only [Nat.add_assoc]
  calc ∑ tid ∈ range p.blockSize, (p.phase1Block rowIdx residual).sqSums tid
      = ∑ tid ∈ range p.blockSize,
          ((p.threadLoop tid).map (p.vecSqSum (rowIdx * p.hiddenDim) residual)).sum :=
        sum_congr rfl fun tid htid => phase1Block_sqSums (mem_range.mp htid) residual
    _ = ∑ i ∈ range p.vecCols, p.vecSqSum (rowIdx * p.hiddenDim) residual i := by
        simp only [threadLoop_eq, ← blockDim_coe]
        exact sum_threads _
    _ = p.rowSqSum (rowIdx * p.hiddenDim) residual := by
        rw [rowSqSum, ← hdim, sum_range_tiles]
        exact sum_congr rfl fun i _ => hvecSum _ i

end SquareSums

section Rows

/-- The outputs of the vectors of a list, whatever their order. -/
theorem normVecs_apply (vecs : List ℕ) (scale : ℝ) (output : ℕ → ℝ) (x : ℕ) :
    vecs.foldl (p.normVec rowOffset residual scale) output x =
      if ∃ i ∈ vecs, InVec rowOffset i x then residual x * scale * p.weight (x - rowOffset)
      else output x := by
  induction vecs generalizing output with
  | nil => simp
  | cons i vecs ih =>
    rw [List.foldl_cons, ih]
    by_cases hin : InVec rowOffset i x
    · simp only [normVec, hin, if_true, ite_self, List.exists_mem_cons_iff, true_or]
    · simp only [normVec, hin, if_false, List.exists_mem_cons_iff, false_or]

theorem phase3Steps_output (scale : ℝ) (vecs : List ℕ) (st : Phase3State) :
    (vecs.foldl (p.phase3Step rowIdx residual scale tid) st).output =
      vecs.foldl (p.normVec (rowIdx * p.hiddenDim) residual scale) st.output := by
  induction vecs generalizing st with
  | nil => rfl
  | cons i vecs ih => exact ih _

theorem phase3Block_output (scale : ℝ) (output : ℕ → ℝ) :
    (p.phase3Block rowIdx residual scale output).output =
      p.blockVecs.foldl (p.normVec (rowIdx * p.hiddenDim) residual scale) output := by
  have hthreads : ∀ (tids : List ℕ) (st : Phase3State),
      (tids.foldl (p.phase3 rowIdx residual scale) st).output =
        (tids.flatMap p.threadLoop).foldl (p.normVec (rowIdx * p.hiddenDim) residual scale)
          st.output := by
    intro tids
    induction tids with
    | nil => exact fun _ => rfl
    | cons tid tids ih =>
      intro st
      rw [List.foldl_cons, ih, List.flatMap_cons, List.foldl_append, phase3, phase3Steps_output]
  exact hthreads _ _

/-- The scale of a row, from the memory before the launch. -/
noncomputable def rowScale (p : FusedRMSNormParams) (m : NormMemory) (rowIdx : ℕ) : ℝ :=
  (√(p.rowSqSum (rowIdx * p.hiddenDim) m.residual / p.hiddenDim + p.epsilon))⁻¹

/-- Thread 0 of a row's block is left with the sum of squares of the row, before the launch. -/
theorem blockReduceSum_row (hvec : p.hiddenDim % VEC_SIZE = 0) (m : NormMemory) (rowIdx : ℕ) :
    p.blockReduceSum (p.phase1Block rowIdx (p.fusedRmsnormRows m rowIdx).residual).sqSums =
      p.rowSqSum (rowIdx * p.hiddenDim) m.residual := by
  rw [blockReduceSum_eq, sum_phase1Block hvec]
  apply sum_congr rfl
  intro c _
  rw [rows_residual hvec, if_neg (by omega)]

theorem rows_output (hvec : p.hiddenDim % VEC_SIZE = 0) (m : NormMemory) {rows rowIdx c : ℕ}
    (hrow : rowIdx < rows) (hc : c < p.hiddenDim) :
    (p.fusedRmsnormRows m rows).output (rowIdx * p.hiddenDim + c) =
      (p.input (rowIdx * p.hiddenDim + c) + m.residual (rowIdx * p.hiddenDim + c)) *
        p.rowScale m rowIdx * p.weight c := by
  induction rows with
  | zero => exact absurd hrow (Nat.not_lt_zero _)
  | succ n ih =>
    rw [fusedRmsnormRows_succ]
    generalize hbefore : p.fusedRmsnormRows m n = before at ih
    have hresidual := fusedRmsnormRow_residual hvec before n (rowIdx * p.hiddenDim + c)
    unfold fusedRmsnormRow at hresidual ⊢
    dsimp only at hresidual ⊢
    rw [phase3Block_output, normVecs_apply]
    simp only [exists_inVec_iff hvec]
    rcases Nat.lt_succ_iff_lt_or_eq.mp hrow with hlt | rfl
    · have hbelow : (rowIdx + 1) * p.hiddenDim ≤ n * p.hiddenDim := Nat.mul_le_mul_right _ hlt
      rw [Nat.succ_mul] at hbelow
      rw [if_neg (by omega), ih hlt]
    · have hinside : rowIdx * p.hiddenDim ≤ rowIdx * p.hiddenDim + c ∧
          rowIdx * p.hiddenDim + c < (rowIdx + 1) * p.hiddenDim := by
        rw [Nat.succ_mul]
        omega
      rw [if_pos hinside] at hresidual ⊢
      have hscale : p.invRms (p.phase1Block rowIdx before.residual).sqSums =
          p.rowScale m rowIdx := by
        rw [invRms, rowScale, ← hbefore, blockReduceSum_row hvec]
      rw [hresidual, hscale, ← hbefore, rows_residual hvec, if_neg (by omega),
        Nat.add_sub_cancel_left]

end Rows

section Runs

def blockRuns (p : FusedRMSNormParams) (rowIdx : ℕ) : List VecRun :=
  (List.range p.blockSize).flatMap fun tid => (p.threadLoop tid).map (VecRun.mk rowIdx tid)

theorem phase1_runs (rowIdx : ℕ) (b : Phase1Block) (tid : ℕ) :
    (p.phase1 rowIdx b tid).runs = b.runs ++ (p.threadLoop tid).map (VecRun.mk rowIdx tid) := by
  rw [List.map_eq_flatMap]
  exact foldl_log Phase1State.runs (fun _ _ => rfl) _ _

theorem phase3_runs (rowIdx : ℕ) (scale : ℝ) (st : Phase3State) (tid : ℕ) :
    (p.phase3 rowIdx residual scale st tid).runs =
      st.runs ++ (p.threadLoop tid).map (VecRun.mk rowIdx tid) := by
  rw [List.map_eq_flatMap]
  exact foldl_log Phase3State.runs (fun _ _ => rfl) _ _

theorem phase1Block_runs (rowIdx : ℕ) (residual : ℕ → ℝ) :
    (p.phase1Block rowIdx residual).runs = p.blockRuns rowIdx :=
  foldl_log Phase1Block.runs (phase1_runs rowIdx) _ _

theorem phase3Block_runs (rowIdx : ℕ) (scale : ℝ) (output : ℕ → ℝ) :
    (p.phase3Block rowIdx residual scale output).runs = p.blockRuns rowIdx :=
  foldl_log Phase3State.runs (phase3_runs rowIdx scale) _ _

def vecRuns (p : FusedRMSNormParams) (rows : ℕ) : List VecRun :=
  (List.range rows).flatMap p.blockRuns

/-- Both phases make the same runs. -/
theorem fusedRmsnormRows_runs (m : NormMemory) (rows : ℕ) :
    (p.fusedRmsnormRows m rows).phase1Runs = p.vecRuns rows ∧
      (p.fusedRmsnormRows m rows).phase3Runs = p.vecRuns rows := by
  constructor
  · refine foldl_log NormTrace.phase1Runs (fun t rowIdx => ?_) _ _
    rw [← phase1Block_runs rowIdx t.residual]
    rfl
  · refine foldl_log NormTrace.phase3Runs (fun t rowIdx => ?_) _ _
    let first := p.phase1Block rowIdx t.residual
    have hlast : (p.phase3Block rowIdx first.residual (p.invRms first.sqSums) t.output).runs =
        p.blockRuns rowIdx := phase3Block_runs rowIdx _ _
    rw [← hlast]
    rfl

variable {rows : ℕ}

theorem mem_vecRuns {run : VecRun} : run ∈ p.vecRuns rows ↔
    run.rowIdx < rows ∧ run.tid < p.blockSize ∧ run.vec ∈ p.threadLoop run.tid := by
  unfold vecRuns blockRuns
  simp only [List.mem_flatMap, List.mem_map, List.mem_range]
  constructor
  · rintro ⟨rowIdx, hrow, tid, htid, i, hi, rfl⟩
    exact ⟨hrow, htid, hi⟩
  · rintro ⟨hrow, htid, hi⟩
    exact ⟨run.rowIdx, hrow, run.tid, htid, run.vec, hi, rfl⟩

theorem vecRuns_nodup : (p.vecRuns rows).Nodup := by
  have hthread : ∀ rowIdx tid, ((p.threadLoop tid).map (VecRun.mk rowIdx tid)).Nodup := by
    intro rowIdx tid
    apply (threadLoop_nodup tid).map
    intro i i' heq
    exact (VecRun.mk.inj heq).2.2
  rw [vecRuns, List.nodup_flatMap]
  refine ⟨fun rowIdx _ => ?_, ?_⟩
  · rw [blockRuns, List.nodup_flatMap]
    refine ⟨fun tid _ => hthread rowIdx tid, ?_⟩
    refine List.nodup_range.imp ?_
    intro tid tid' hne run hrun hrun'
    obtain ⟨i, -, rfl⟩ := List.mem_map.mp hrun
    obtain ⟨i', -, heq⟩ := List.mem_map.mp hrun'
    exact hne (VecRun.mk.inj heq).2.1.symm
  · refine List.nodup_range.imp ?_
    intro rowIdx rowIdx' hne run hrun hrun'
    obtain ⟨tid, -, hrun⟩ := List.mem_flatMap.mp hrun
    obtain ⟨tid', -, hrun'⟩ := List.mem_flatMap.mp hrun'
    obtain ⟨i, -, rfl⟩ := List.mem_map.mp hrun
    obtain ⟨i', -, heq⟩ := List.mem_map.mp hrun'
    exact hne (VecRun.mk.inj heq).1.symm

/-- Each vector of a row goes through one thread, once. -/
theorem vecRuns_filter (hrow : rowIdx < rows) (hi : i < p.vecCols) :
    (p.vecRuns rows).filter (fun run => run.rowIdx = rowIdx ∧ run.vec = i) =
      [⟨rowIdx, i % p.blockSize, i⟩] := by
  apply filter_unique vecRuns_nodup
  · refine mem_vecRuns.mpr ⟨hrow, Nat.mod_lt i p.blockSize_pos, ?_⟩
    rw [threadLoop_eq]
    exact mem_indices_mod hi
  · exact decide_eq_true ⟨rfl, rfl⟩
  · rintro ⟨row, tid, vec⟩ hrun hplace
    obtain ⟨rfl, rfl⟩ := of_decide_eq_true hplace
    obtain ⟨-, htid, hvec⟩ := mem_vecRuns.mp hrun
    rw [threadLoop_eq] at hvec
    exact congrArg (VecRun.mk row · vec) (mod_of_mem htid hvec).symm

/-- Each place of a row lies in one run. -/
theorem vecRuns_place {c : ℕ} (hvec : p.hiddenDim % VEC_SIZE = 0) (hrow : rowIdx < rows)
    (hc : c < p.hiddenDim) :
    (p.vecRuns rows).filter (fun run => InVec (run.rowIdx * p.hiddenDim) run.vec
        (rowIdx * p.hiddenDim + c)) =
      [⟨rowIdx, c / VEC_SIZE % p.blockSize, c / VEC_SIZE⟩] := by
  have hdim := vecCols_mul hvec
  have hcol : c / VEC_SIZE < p.vecCols := by
    rw [Nat.div_lt_iff_lt_mul (by decide), hdim]
    exact hc
  rw [← vecRuns_filter hrow hcol]
  apply List.filter_congr
  intro run hrun
  obtain ⟨-, -, hloop⟩ := mem_vecRuns.mp hrun
  obtain ⟨hrunVec, -⟩ := mem_threadLoop.mp hloop
  rw [decide_eq_decide]
  unfold InVec
  constructor
  · rintro ⟨hlow, hhigh⟩
    obtain ⟨e, he⟩ := Nat.exists_eq_add_of_le hlow
    have hlane : e < VEC_SIZE := by omega
    have hinside : run.vec * VEC_SIZE + e < p.hiddenDim :=
      calc run.vec * VEC_SIZE + e < run.vec * VEC_SIZE + VEC_SIZE := Nat.add_lt_add_left hlane _
        _ = (run.vec + 1) * VEC_SIZE := (Nat.succ_mul _ _).symm
        _ ≤ p.hiddenDim := hdim ▸ Nat.mul_le_mul_right VEC_SIZE hrunVec
    obtain ⟨hrowEq, hcolEq⟩ := eq_of_mul_add_eq hc hinside (he.trans (Nat.add_assoc _ _ _))
    refine ⟨hrowEq.symm, ?_⟩
    rw [hcolEq, Nat.add_comm, Nat.add_mul_div_right _ _ (by decide), Nat.div_eq_of_lt hlane,
      Nat.zero_add]
  · rintro ⟨rfl, hcolEq⟩
    have hdiv := Nat.div_add_mod' c VEC_SIZE
    have hmod := Nat.mod_lt c (show 0 < VEC_SIZE by decide)
    rw [hcolEq]
    omega

/-- Every row is reduced and covered exactly: a vector is stored by one thread in either phase, the
same one, and a place is stored once in either. -/
theorem launchFusedRmsnorm_exact (p : FusedRMSNormParams) (m : NormMemory)
    (hvec : p.hiddenDim % 8 = 0) :
    let t := p.fusedRmsnormRows m p.numTokens
    p.launchFusedRmsnorm m = some t.toNormMemory ∧
      ∀ rowIdx < p.numTokens,
        (∀ i < p.vecCols, ∃ tid < p.blockSize,
          t.phase1Runs.filter (fun run => run.rowIdx = rowIdx ∧ run.vec = i) =
              [⟨rowIdx, tid, i⟩] ∧
            t.phase3Runs.filter (fun run => run.rowIdx = rowIdx ∧ run.vec = i) =
              [⟨rowIdx, tid, i⟩]) ∧
        p.blockReduceSum (p.phase1Block rowIdx (p.fusedRmsnormRows m rowIdx).residual).sqSums =
          p.rowSqSum (rowIdx * p.hiddenDim) m.residual ∧
        ∀ c < p.hiddenDim,
          (t.phase1Runs.filter fun run => InVec (run.rowIdx * p.hiddenDim) run.vec
              (rowIdx * p.hiddenDim + c)).length = 1 ∧
          (t.phase3Runs.filter fun run => InVec (run.rowIdx * p.hiddenDim) run.vec
              (rowIdx * p.hiddenDim + c)).length = 1 ∧
          t.residual (rowIdx * p.hiddenDim + c) =
            p.input (rowIdx * p.hiddenDim + c) + m.residual (rowIdx * p.hiddenDim + c) ∧
          t.output (rowIdx * p.hiddenDim + c) =
            t.residual (rowIdx * p.hiddenDim + c) * p.rowScale m rowIdx * p.weight c := by
  intro t
  obtain ⟨hphase1, hphase3⟩ := fusedRmsnormRows_runs (p := p) m p.numTokens
  refine ⟨?_, fun rowIdx hrow => ⟨fun i hi => ?_, blockReduceSum_row hvec m rowIdx,
    fun c hc => ?_⟩⟩
  · rw [launchFusedRmsnorm, if_neg (not_not_intro hvec)]
    rfl
  · refine ⟨i % p.blockSize, Nat.mod_lt i p.blockSize_pos, ?_⟩
    rw [hphase1, hphase3]
    exact ⟨vecRuns_filter hrow hi, vecRuns_filter hrow hi⟩
  · have hinside : rowIdx * p.hiddenDim + c < p.numTokens * p.hiddenDim :=
      calc rowIdx * p.hiddenDim + c < rowIdx * p.hiddenDim + p.hiddenDim :=
            Nat.add_lt_add_left hc _
        _ = (rowIdx + 1) * p.hiddenDim := (Nat.succ_mul _ _).symm
        _ ≤ p.numTokens * p.hiddenDim := Nat.mul_le_mul_right _ hrow
    have hresidual : t.residual (rowIdx * p.hiddenDim + c) = _ := rows_residual hvec m p.numTokens _
    rw [if_pos hinside] at hresidual
    rw [hphase1, hphase3, vecRuns_place hvec hrow hc, List.length_singleton, hresidual]
    exact ⟨rfl, rfl, rfl, rows_output hvec m hrow hc⟩

/-- Three rows of five vectors: 27 of the 32 threads are idle. -/
noncomputable def threeRows : FusedRMSNormParams where
  input x := x
  weight _ := 1
  numTokens := 3
  hiddenDim := 40
  epsilon := 0

theorem launchFusedRmsnorm_exact_threeRows :
    let t := threeRows.fusedRmsnormRows ⟨fun _ => 1, fun _ => 0⟩ 3
    threeRows.launchFusedRmsnorm ⟨fun _ => 1, fun _ => 0⟩ = some t.toNormMemory ∧
      ∀ rowIdx < 3,
        (∀ i < 5, ∃ tid < 32,
          t.phase1Runs.filter (fun run => run.rowIdx = rowIdx ∧ run.vec = i) =
              [⟨rowIdx, tid, i⟩] ∧
            t.phase3Runs.filter (fun run => run.rowIdx = rowIdx ∧ run.vec = i) =
              [⟨rowIdx, tid, i⟩]) ∧
        threeRows.blockReduceSum (threeRows.phase1Block rowIdx
            (threeRows.fusedRmsnormRows ⟨fun _ => 1, fun _ => 0⟩ rowIdx).residual).sqSums =
          threeRows.rowSqSum (rowIdx * 40) (fun _ => 1) ∧
        ∀ c < 40, t.residual (rowIdx * 40 + c) = ((rowIdx * 40 + c : ℕ) : ℝ) + 1 := by
  intro t
  obtain ⟨hlaunch, hrows⟩ :=
    launchFusedRmsnorm_exact threeRows ⟨fun _ => 1, fun _ => 0⟩ (by norm_num [threeRows])
  refine ⟨hlaunch, fun rowIdx hrow => ?_⟩
  obtain ⟨hruns, hreduced, hcovered⟩ := hrows rowIdx hrow
  exact ⟨hruns, hreduced, fun c hc => (hcovered c hc).2.2.1⟩

end Runs
end FusedRMSNormParams
end CudaForge.Kernels.Cuda
