import CudaForge.Kernels.FlashAttnCuda

/-! What a row of the CUDA FlashAttention kernel depends on. -/
namespace CudaForge.Kernels.Cuda
open Finset

def AsyncCopy.Covers (c : AsyncCopy) (x : ℕ) : Prop := c.dst ≤ x ∧ x < c.dst + 8

namespace KernelArgs
variable {a : KernelArgs} {b : BlockIdx} {mem mem' : DeviceMemory} {tid : ℕ} {smem smem' : ℕ → ℝ}

/-- Copies in bounds complete, and an element on whose value they agree has that value. -/
theorem cpAsyncAll_spec (smem : ℕ → ℝ) {copies : List AsyncCopy}
    (hin : ∀ c ∈ copies, c.dst + 8 ≤ a.smemSize) :
    ∃ smem', a.cpAsyncAll copies smem = some smem' ∧
      ∀ x y, (∀ c ∈ copies, c.Covers x → c.src (x - c.dst) = y) →
        ((∃ c ∈ copies, c.Covers x) ∨ smem x = y) → smem' x = y := by
  induction copies generalizing smem with
  | nil =>
    refine ⟨smem, rfl, ?_⟩
    rintro x y - (⟨c, hc, -⟩ | hy)
    · cases hc
    · exact hy
  | cons c copies ih =>
    let next := fun x => if c.dst ≤ x ∧ x < c.dst + 8 then c.src (x - c.dst) else smem x
    have hnext : a.cpAsync smem c = some next := if_pos (hin c List.mem_cons_self)
    obtain ⟨smem', hrun, hval⟩ := ih next fun d hd => hin d (List.mem_cons_of_mem _ hd)
    refine ⟨smem', ?_, ?_⟩
    · unfold cpAsyncAll at hrun ⊢
      rw [List.foldlM_cons, hnext]
      exact hrun
    · intro x y hagree hcov
      apply hval x y fun d hd => hagree d (List.mem_cons_of_mem _ hd)
      by_cases hx : c.Covers x
      · right
        have hwrite : next x = c.src (x - c.dst) := if_pos hx
        exact hwrite.trans (hagree c List.mem_cons_self hx)
      · have hkeep : next x = smem x := if_neg hx
        rcases hcov with ⟨d, hd, hdx⟩ | hy
        · rcases List.mem_cons.mp hd with rfl | hd
          · exact absurd hdx hx
          · exact Or.inl ⟨d, hd, hdx⟩
        · exact Or.inr (hkeep.trans hy)

/-- One copy behind the end of shared memory faults, wherever it comes in the order. -/
theorem cpAsyncAll_fault {copies : List AsyncCopy} (h : ∃ c ∈ copies, a.smemSize < c.dst + 8) :
    a.cpAsyncAll copies smem = none := by
  induction copies generalizing smem with
  | nil =>
    obtain ⟨c, hc, -⟩ := h
    cases hc
  | cons c copies ih =>
    unfold cpAsyncAll at ih ⊢
    rw [List.foldlM_cons]
    by_cases hc : a.smemSize < c.dst + 8
    · have hfault : a.cpAsync smem c = none := if_neg (by omega)
      rw [hfault]
      rfl
    · obtain ⟨d, hd, hout⟩ := h
      rcases List.mem_cons.mp hd with rfl | hd
      · exact absurd hout hc
      · cases a.cpAsync smem c with
        | none => rfl
        | some next => exact ih ⟨d, hd, hout⟩

theorem headDim_pos (a : KernelArgs) : 0 < a.headDim := by
  rcases a.headDim_supported with h | h <;> rw [h] <;> decide

theorem mem_loadIndices {L : ℕ} : L ∈ a.loadIndices ↔ L < 128 * a.headDim := by
  unfold loadIndices qBytesPerThread blockThreads BLOCK_M
  simp only [List.mem_map, List.mem_product, List.mem_range, Prod.exists]
  constructor
  · rintro ⟨tid, i, ⟨htid, hi⟩, rfl⟩
    omega
  · intro hL
    exact ⟨L % 128, L / 128, ⟨by omega, by omega⟩, by omega⟩

/-- The vectors of a tile lie one behind the other. -/
theorem load_offset (a : KernelArgs) (L : ℕ) : a.loadRow L * a.headDim + a.loadCol L = 8 * L := by
  unfold loadRow loadCol
  rcases a.headDim_supported with h | h <;> rw [h] <;> omega

theorem loadRow_lt {L n : ℕ} : a.loadRow L < n ↔ 8 * L < n * a.headDim := by
  unfold loadRow
  rcases a.headDim_supported with h | h <;> rw [h] <;> omega

theorem mem_qCopies {c : AsyncCopy} (hb : b.x = 0) :
    c ∈ a.qCopies b ↔ ∃ L < 128 * a.headDim, 8 * L < a.seqLen * a.headDim ∧
      c = ⟨8 * L, fun t => a.q (a.bhOffset b + (8 * L + t))⟩ := by
  unfold qCopies qStart
  simp only [List.mem_flatMap, mem_loadIndices, load_offset, hb, zero_mul, zero_add, add_zero,
    loadRow_lt, List.mem_ite_nil_right, List.mem_singleton]

theorem mem_kvCopies {c : AsyncCopy} :
    c ∈ a.kvCopies b mem 0 ↔ ∃ L < 128 * a.headDim, 8 * L < a.seqLen * a.headDim ∧
      (c = ⟨a.smemK + 8 * L, fun t => mem.k (a.bhOffset b + (8 * L + t))⟩ ∨
        c = ⟨a.smemV + 8 * L, fun t => mem.v (a.bhOffset b + (8 * L + t))⟩) := by
  unfold kvCopies
  simp only [List.mem_flatMap, mem_loadIndices, load_offset, zero_mul, zero_add,
    loadRow_lt, List.mem_ite_nil_right, List.mem_cons, List.not_mem_nil, or_false]

theorem smemSize_eq (a : KernelArgs) : a.smemSize = 192 * a.headDim := by
  unfold smemSize BLOCK_M BLOCK_N
  omega

theorem smemK_eq (a : KernelArgs) : a.smemK = 64 * a.headDim := rfl

theorem smemV_eq (a : KernelArgs) : a.smemV = 128 * a.headDim := by
  unfold smemV smemK BLOCK_M BLOCK_N
  omega

/-- The copies of a tile run over 1024 rows: a sequence longer than the tile overruns shared
memory. -/
theorem kernel_outOfBounds (mem : DeviceMemory) (tid : ℕ) (hlen : 64 < a.seqLen)
    (hq : qStart b < a.seqLen) : a.kernel b mem tid = .outOfBounds := by
  have hpos := a.headDim_pos
  have htiles : 0 < a.maxKTiles b := by
    unfold maxKTiles BLOCK_M BLOCK_N
    split_ifs <;> omega
  obtain ⟨n, hn⟩ := Nat.exists_eq_succ_of_ne_zero htiles.ne'
  have hmem : (⟨a.smemV + 8 * (8 * a.headDim),
      fun t => mem.v (a.bhOffset b + (8 * (8 * a.headDim) + t))⟩ : AsyncCopy) ∈
        a.kvCopies b mem 0 := by
    apply mem_kvCopies.mpr
    have hrow : 8 * (8 * a.headDim) < a.seqLen * a.headDim := by nlinarith
    exact ⟨8 * a.headDim, by omega, hrow, Or.inr rfl⟩
  have hfault : ∀ smem, a.cpAsyncAll (mem.order.reorder 1 (a.kvCopies b mem 0)) smem = none := by
    intro smem
    apply cpAsyncAll_fault
    refine ⟨_, (mem.order.perm 1 _).mem_iff.mpr hmem, ?_⟩
    rw [smemSize_eq, smemV_eq]
    show 192 * a.headDim < 128 * a.headDim + 8 * (8 * a.headDim) + 8
    omega
  unfold kernel
  rw [if_neg (by omega), hn, List.range_succ_eq_map]
  cases a.cpAsyncAll (mem.order.reorder 0 (a.qCopies b)) mem.smem with
  | none => rfl
  | some smem =>
    simp only [List.foldlM_cons, tile, hfault]
    rfl

theorem tile_le (a : KernelArgs) (hlen : a.seqLen ≤ 64) :
    a.seqLen * a.headDim ≤ 64 * a.headDim :=
  Nat.mul_le_mul_right _ hlen

/-- A tile is a whole number of vectors. -/
theorem vector_end (a : KernelArgs) {L : ℕ} (hL : 8 * L < a.seqLen * a.headDim) :
    8 * L + 8 ≤ a.seqLen * a.headDim := by
  have hdvd : 8 ∣ a.seqLen * a.headDim := by
    apply Dvd.dvd.mul_left
    rcases a.headDim_supported with h | h <;> rw [h] <;> decide
  omega

/-- Shared memory after the load of the Q tile. -/
theorem qPhase (smem : ℕ → ℝ) (hb : b.x = 0) (hlen : a.seqLen ≤ 64) (order : CopyOrder) :
    ∃ smem', a.cpAsyncAll (order.reorder 0 (a.qCopies b)) smem = some smem' ∧
      ∀ x, smem' x = if x < a.seqLen * a.headDim then a.q (a.bhOffset b + x) else smem x := by
  have htile := tile_le a hlen
  have hcopy : ∀ c ∈ order.reorder 0 (a.qCopies b), ∃ L, 8 * L < a.seqLen * a.headDim ∧
      c = ⟨8 * L, fun t => a.q (a.bhOffset b + (8 * L + t))⟩ := by
    intro c hc
    obtain ⟨L, -, hL, heq⟩ := (mem_qCopies hb).mp ((order.perm 0 _).mem_iff.mp hc)
    exact ⟨L, hL, heq⟩
  have hin : ∀ c ∈ order.reorder 0 (a.qCopies b), c.dst + 8 ≤ a.smemSize := by
    intro c hc
    obtain ⟨L, hL, rfl⟩ := hcopy c hc
    have hend := vector_end a hL
    rw [smemSize_eq]
    show 8 * L + 8 ≤ 192 * a.headDim
    omega
  obtain ⟨smem', hrun, hval⟩ := cpAsyncAll_spec smem hin
  refine ⟨smem', hrun, fun x => hval x _ ?_ ?_⟩
  · intro c hc hcov
    obtain ⟨L, hL, rfl⟩ := hcopy c hc
    have hend := vector_end a hL
    have hlow : 8 * L ≤ x := hcov.1
    have hhigh : x < 8 * L + 8 := hcov.2
    rw [if_pos (by omega)]
    show a.q (a.bhOffset b + (8 * L + (x - 8 * L))) = _
    rw [Nat.add_sub_cancel' hlow]
  · by_cases hx : x < a.seqLen * a.headDim
    · refine Or.inl ⟨_, (order.perm 0 _).mem_iff.mpr ((mem_qCopies hb).mpr
        ⟨x / 8, by omega, by omega, rfl⟩), ?_⟩
      show 8 * (x / 8) ≤ x ∧ x < 8 * (x / 8) + 8
      omega
    · exact Or.inr (if_neg hx).symm

/-- Shared memory after the load of the first K/V tile. -/
theorem kvPhase (b : BlockIdx) (smem : ℕ → ℝ) (hlen : a.seqLen ≤ 64) (mem : DeviceMemory) :
    ∃ smem', a.cpAsyncAll (mem.order.reorder 1 (a.kvCopies b mem 0)) smem = some smem' ∧
      ∀ x, smem' x =
        if a.smemK ≤ x ∧ x < a.smemK + a.seqLen * a.headDim then
          mem.k (a.bhOffset b + (x - a.smemK))
        else if a.smemV ≤ x ∧ x < a.smemV + a.seqLen * a.headDim then
          mem.v (a.bhOffset b + (x - a.smemV))
        else smem x := by
  have htile := tile_le a hlen
  have hK := smemK_eq a
  have hV := smemV_eq a
  have hcopy : ∀ c ∈ mem.order.reorder 1 (a.kvCopies b mem 0), ∃ L,
      8 * L < a.seqLen * a.headDim ∧
      (c = ⟨a.smemK + 8 * L, fun t => mem.k (a.bhOffset b + (8 * L + t))⟩ ∨
        c = ⟨a.smemV + 8 * L, fun t => mem.v (a.bhOffset b + (8 * L + t))⟩) := by
    intro c hc
    obtain ⟨L, -, hL, heq⟩ := mem_kvCopies.mp ((mem.order.perm 1 _).mem_iff.mp hc)
    exact ⟨L, hL, heq⟩
  have hin : ∀ c ∈ mem.order.reorder 1 (a.kvCopies b mem 0), c.dst + 8 ≤ a.smemSize := by
    intro c hc
    rw [smemSize_eq]
    obtain ⟨L, hL, rfl | rfl⟩ := hcopy c hc
    · have hend := vector_end a hL
      show a.smemK + 8 * L + 8 ≤ 192 * a.headDim
      omega
    · have hend := vector_end a hL
      show a.smemV + 8 * L + 8 ≤ 192 * a.headDim
      omega
  obtain ⟨smem', hrun, hval⟩ := cpAsyncAll_spec smem hin
  refine ⟨smem', hrun, fun x => hval x _ ?_ ?_⟩
  · intro c hc hcov
    obtain ⟨L, hL, rfl | rfl⟩ := hcopy c hc
    · have hend := vector_end a hL
      have hlow : a.smemK + 8 * L ≤ x := hcov.1
      have hhigh : x < a.smemK + 8 * L + 8 := hcov.2
      rw [if_pos (by omega)]
      show mem.k (a.bhOffset b + (8 * L + (x - (a.smemK + 8 * L)))) = _
      congr 2
      omega
    · have hend := vector_end a hL
      have hlow : a.smemV + 8 * L ≤ x := hcov.1
      have hhigh : x < a.smemV + 8 * L + 8 := hcov.2
      rw [if_neg (by omega), if_pos (by omega)]
      show mem.v (a.bhOffset b + (8 * L + (x - (a.smemV + 8 * L)))) = _
      congr 2
      omega
  · by_cases hxK : a.smemK ≤ x ∧ x < a.smemK + a.seqLen * a.headDim
    · refine Or.inl ⟨_, (mem.order.perm 1 _).mem_iff.mpr (mem_kvCopies.mpr
        ⟨(x - a.smemK) / 8, by omega, by omega, Or.inl rfl⟩), ?_⟩
      show a.smemK + 8 * ((x - a.smemK) / 8) ≤ x ∧ x < a.smemK + 8 * ((x - a.smemK) / 8) + 8
      omega
    · by_cases hxV : a.smemV ≤ x ∧ x < a.smemV + a.seqLen * a.headDim
      · refine Or.inl ⟨_, (mem.order.perm 1 _).mem_iff.mpr (mem_kvCopies.mpr
          ⟨(x - a.smemV) / 8, by omega, by omega, Or.inr rfl⟩), ?_⟩
        show a.smemV + 8 * ((x - a.smemV) / 8) ≤ x ∧ x < a.smemV + 8 * ((x - a.smemV) / 8) + 8
        omega
      · rw [if_neg hxK, if_neg hxV]
        exact Or.inr rfl

/-- Shared memory after the two load phases of a sequence that fits one tile. -/
def loaded (a : KernelArgs) (b : BlockIdx) (mem : DeviceMemory) (x : ℕ) : ℝ :=
  if a.smemK ≤ x ∧ x < a.smemK + a.seqLen * a.headDim then
    mem.k (a.bhOffset b + (x - a.smemK))
  else if a.smemV ≤ x ∧ x < a.smemV + a.seqLen * a.headDim then
    mem.v (a.bhOffset b + (x - a.smemV))
  else if x < a.seqLen * a.headDim then a.q (a.bhOffset b + x)
  else mem.smem x

/-- A sequence that fits one tile runs through the loop once. -/
theorem kernel_oneTile (hb : b.x = 0) (h0 : 0 < a.seqLen) (hlen : a.seqLen ≤ 64)
    (mem : DeviceMemory) (tid : ℕ) :
    a.kernel b mem tid = .finished (a.update b tid (a.loaded b mem) 0 a.start) := by
  have hq : qStart b = 0 := by
    unfold qStart
    rw [hb, zero_mul]
  have htiles : a.maxKTiles b = 1 := by
    unfold maxKTiles BLOCK_M BLOCK_N
    rw [hq]
    split_ifs <;> omega
  obtain ⟨smem₁, hrun₁, hval₁⟩ := qPhase mem.smem hb hlen mem.order
  obtain ⟨smem₂, hrun₂, hval₂⟩ := kvPhase (a := a) b smem₁ hlen mem
  have hloaded : smem₂ = a.loaded b mem := by
    funext x
    rw [hval₂, hval₁]
    rfl
  unfold kernel
  rw [if_neg (by omega), htiles, hrun₁]
  simp only [List.range_one, List.foldlM_cons, List.foldlM_nil, tile, zero_mul, zero_add,
    Option.bind_eq_bind, Option.bind_some, hrun₂, hloaded, Option.pure_def]

def SameShared (a : KernelArgs) (smem smem' : ℕ → ℝ) : Prop :=
  ∀ x < a.smemSize, smem x = smem' x

section Congruence
variable (h : a.SameShared smem smem')
include h

theorem SameShared.row {n d : ℕ} (base : ℕ) (hn : n < 64) (hd : d < a.headDim)
    (hbase : base ≤ 128 * a.headDim) :
    smem (base + (n * a.headDim + d)) = smem' (base + (n * a.headDim + d)) := by
  apply h
  have hrow : (n + 1) * a.headDim ≤ 64 * a.headDim := Nat.mul_le_mul_right _ hn
  rw [Nat.add_one_mul] at hrow
  rw [smemSize_eq]
  omega

theorem SameShared.score {n : ℕ} (hn : n < 64) : a.score tid smem n = a.score tid smem' n := by
  unfold KernelArgs.score
  congr 1
  apply sum_congr rfl
  intro d hd
  have hd := mem_range.mp hd
  have hq := h.row (n := qRowLocal tid) 0 (Nat.mod_lt _ (by decide)) hd (by omega)
  rw [zero_add] at hq
  rw [hq, h.row _ hn hd (by rw [smemK_eq]; omega)]

theorem SameShared.sScores {kStart n : ℕ} (hn : n < 64) :
    a.sScores b tid smem kStart n = a.sScores b tid smem' kStart n := by
  unfold KernelArgs.sScores
  rw [h.score hn]

theorem SameShared.sMax {kStart : ℕ} : a.sMax b tid smem kStart = a.sMax b tid smem' kStart := by
  unfold KernelArgs.sMax BLOCK_N
  have hfold : ∀ (l : List ℕ) (s : ℝ), (∀ n ∈ l, n < 64) →
      l.foldl (fun s n => if a.skipped b tid kStart n then s else max s (a.score tid smem n)) s =
        l.foldl (fun s n => if a.skipped b tid kStart n then s
          else max s (a.score tid smem' n)) s := by
    intro l
    induction l with
    | nil => exact fun _ _ => rfl
    | cons n l ih =>
      intro s hl
      rw [List.foldl_cons, List.foldl_cons, h.score (hl n List.mem_cons_self)]
      exact ih _ fun m hm => hl m (List.mem_cons_of_mem _ hm)
  rw [hfold _ _ fun n hn => List.mem_range.mp hn]

/-- A thread reads only what was allocated. -/
theorem SameShared.update {kStart : ℕ} {r : Registers a.headDim} :
    a.update b tid smem kStart r = a.update b tid smem' kStart r := by
  have hcurr : a.mCurr b tid smem kStart r = a.mCurr b tid smem' kStart r := by
    unfold mCurr
    rw [h.sMax]
  have hexp : ∀ n ∈ range BLOCK_N,
      a.expScores b tid smem kStart r n = a.expScores b tid smem' kStart r n := by
    intro n hn
    unfold expScores
    rw [h.sScores (mem_range.mp hn), hcurr]
  have halpha : a.alpha b tid smem kStart r = a.alpha b tid smem' kStart r := by
    unfold alpha
    rw [hcurr]
  have hlCurr : a.lCurr b tid smem kStart r = a.lCurr b tid smem' kStart r := by
    unfold lCurr
    rw [sum_congr rfl hexp, halpha]
  unfold KernelArgs.update
  rw [hcurr, halpha, hlCurr]
  simp only [Registers.mk.injEq, true_and]
  funext d
  congr 2
  apply sum_congr rfl
  intro n hn
  have hd := d.isLt
  rw [hexp n hn, h.row _ (mem_range.mp hn) (by omega) (smemV_eq a).le]

end Congruence

/-- With zero keys every column has score 0, and the accumulator averages all 64 value rows. -/
theorem update_zero_keys (hrow : qStart b + qRowLocal tid < a.seqLen)
    (hkeys : ∀ n < a.seqLen, ∀ d < a.headDim, smem (a.smemK + (n * a.headDim + d)) = 0)
    (d : Fin (a.headDim / 4)) :
    (a.update b tid smem 0 a.start).oAcc d =
      (∑ n ∈ range 64, smem (a.smemV + (n * a.headDim + (d * 4 + tid % 4)))) / 64 := by
  have hscore : ∀ n, a.skipped b tid 0 n = false → a.score tid smem n = 0 := by
    intro n hn
    have hlen : n < a.seqLen := by
      unfold skipped at hn
      simp only [zero_add, Bool.or_eq_false_iff, decide_eq_false_iff_not] at hn
      omega
    unfold score
    rw [sum_eq_zero, zero_mul]
    intro e he
    rw [hkeys n hlen e (mem_range.mp he), mul_zero]
  have hscores : ∀ n, a.sScores b tid smem 0 n = 0 := by
    intro n
    unfold sScores
    cases hskip : a.skipped b tid 0 n with
    | true => simp
    | false => simp [hscore n hskip]
  have hmax : a.sMax b tid smem 0 = 0 := by
    unfold sMax BLOCK_N
    have hfirst : a.skipped b tid 0 0 = false := by
      unfold skipped
      simp only [add_zero, Nat.not_lt_zero, decide_false, Bool.and_false, Bool.or_false,
        decide_eq_false_iff_not]
      omega
    rw [if_pos hrow, List.range_succ_eq_map, List.foldl_cons, hfirst, hscore 0 hfirst]
    have hneg : max (-10 ^ 20 : ℝ) 0 = 0 := max_eq_right (by norm_num)
    simp only [Bool.false_eq_true, ↓reduceIte, hneg]
    apply List.foldl_fixed'
    intro n
    cases hskip : a.skipped b tid 0 n with
    | true => rfl
    | false => simp [hscore n hskip]
  have hcurr : a.mCurr b tid smem 0 a.start = 0 := by
    unfold mCurr start
    rw [hmax]
    exact max_eq_right (by norm_num)
  have hexp : ∀ n, a.expScores b tid smem 0 a.start n = 1 := by
    intro n
    unfold expScores
    rw [hscores, hcurr, if_pos (by norm_num), sub_zero, Real.exp_zero]
  have hl : a.lCurr b tid smem 0 a.start = 64 := by
    unfold lCurr
    simp only [hexp]
    simp [start, BLOCK_N]
  unfold update
  simp only [hl, hexp, hrow, ↓reduceIte, zero_lt_one, one_mul]
  rw [sum_div]
  simp [start, BLOCK_N, div_eq_inv_mul]

/-- The key and value inputs agree on the positions that row `i` may see. -/
def AgreeUnmasked (a : KernelArgs) (b : BlockIdx) (i : ℕ) (mem mem' : DeviceMemory) : Prop :=
  ∀ j < a.seqLen, (a.isCausal = true → j ≤ i) → ∀ d < a.headDim,
    mem.k (a.bhOffset b + (j * a.headDim + d)) = mem'.k (a.bhOffset b + (j * a.headDim + d)) ∧
    mem.v (a.bhOffset b + (j * a.headDim + d)) = mem'.v (a.bhOffset b + (j * a.headDim + d))

end KernelArgs

/-- Two runs both complete, with the same normaliser and accumulators. -/
def Outcome.SameRow {headDim : ℕ} : Outcome headDim → Outcome headDim → Prop
  | .finished r, .finished r' => r.lPrev = r'.lPrev ∧ r.oAcc = r'.oAcc
  | _, _ => False

namespace KernelArgs
variable {a : KernelArgs} {b : BlockIdx} {tid : ℕ}

/-- Masked positions have no influence on the row of thread `tid`: runs that agree on the unmasked
ones agree on its normaliser and accumulators. -/
def MaskedIrrelevant (a : KernelArgs) (b : BlockIdx) (tid : ℕ) : Prop :=
  ∀ mem mem', a.AgreeUnmasked b (qStart b + qRowLocal tid) mem mem' →
    (a.kernel b mem tid).SameRow (a.kernel b mem' tid)

/-- A full tile without masked columns overwrites all shared memory that was allocated. -/
theorem loaded_fullTile (hlen : a.seqLen = 64) {mem mem' : DeviceMemory}
    (h : a.AgreeUnmasked b 63 mem mem') : a.SameShared (a.loaded b mem) (a.loaded b mem') := by
  intro x hx
  rw [smemSize_eq] at hx
  have hK := smemK_eq a
  have hV := smemV_eq a
  have hpos := a.headDim_pos
  have hpos_eq : ∀ y < 64 * a.headDim, mem.k (a.bhOffset b + y) = mem'.k (a.bhOffset b + y) ∧
      mem.v (a.bhOffset b + y) = mem'.v (a.bhOffset b + y) := by
    intro y hy
    have hj : y / a.headDim < 64 := Nat.div_lt_of_lt_mul (by rwa [mul_comm])
    have hpair := h (y / a.headDim) (by omega) (fun _ => by omega) (y % a.headDim)
      (Nat.mod_lt _ hpos)
    rw [mul_comm, Nat.div_add_mod] at hpair
    exact hpair
  unfold loaded
  rw [hlen]
  split_ifs with h₁ h₂ h₃
  · exact (hpos_eq _ (by omega)).1
  · exact (hpos_eq _ (by omega)).2
  · rfl
  · omega

theorem maskedIrrelevant_of_fullTile (hrow : qStart b + qRowLocal tid < a.seqLen)
    (hlen : a.seqLen = 64) (hc : a.isCausal = true → qStart b + qRowLocal tid = 63) :
    a.MaskedIrrelevant b tid := by
  intro mem mem' hagree
  have hb : b.x = 0 := by
    unfold qStart BLOCK_M at hrow
    omega
  have hall : a.AgreeUnmasked b 63 mem mem' := by
    intro j hj _ d hd
    exact hagree j hj (fun hcausal => by have := hc hcausal; omega) d hd
  rw [kernel_oneTile hb (by omega) hlen.le, kernel_oneTile hb (by omega) hlen.le,
    (loaded_fullTile hlen hall).update]
  exact ⟨rfl, rfl⟩

def CopyOrder.inOrder : CopyOrder := ⟨fun _ copies => copies, fun _ _ => .refl _⟩

/-- Zero keys and values, and zeros in shared memory, but for the last value row of the tile: it
has `w` in global memory and in the place that shared memory has for it. -/
def lastRow (a : KernelArgs) (b : BlockIdx) (w : ℝ) : DeviceMemory where
  k := fun _ => 0
  v := fun x => if a.bhOffset b + 63 * a.headDim ≤ x then w else 0
  smem := fun x => if a.smemV + 63 * a.headDim ≤ x then w else 0
  order := CopyOrder.inOrder

/-- Where the last column is masked, the value row it stands for still enters the accumulator. -/
theorem lastRow_leaks (hb : b.x = 0) (hrow : qStart b + qRowLocal tid < a.seqLen)
    (hlen : a.seqLen ≤ 64) (w : ℝ) (d : Fin (a.headDim / 4)) :
    ∃ r, a.kernel b (a.lastRow b w) tid = .finished r ∧ r.oAcc d = w / 64 := by
  refine ⟨_, kernel_oneTile hb (by omega) hlen _ tid, ?_⟩
  have hK := smemK_eq a
  have hV := smemV_eq a
  have htile := tile_le a hlen
  have hd : (d : ℕ) * 4 + tid % 4 < a.headDim := by
    have hd := d.isLt
    omega
  have hlt : ∀ n < 64, ∀ e < a.headDim, n * a.headDim + e < 64 * a.headDim := by
    intro n hn e he
    have hmul : (n + 1) * a.headDim ≤ 64 * a.headDim := Nat.mul_le_mul_right _ hn
    rw [Nat.add_one_mul] at hmul
    omega
  have hkeys : ∀ n < a.seqLen, ∀ e < a.headDim,
      a.loaded b (a.lastRow b w) (a.smemK + (n * a.headDim + e)) = 0 := by
    intro n hn e he
    have hmul : (n + 1) * a.headDim ≤ a.seqLen * a.headDim := Nat.mul_le_mul_right _ hn
    rw [Nat.add_one_mul] at hmul
    unfold loaded
    rw [if_pos (by omega)]
    rfl
  have hvalues : ∀ n ∈ range 64, a.loaded b (a.lastRow b w)
      (a.smemV + (n * a.headDim + (d * 4 + tid % 4))) = if n = 63 then w else 0 := by
    intro n hn
    have hn := mem_range.mp hn
    have hlast : 63 * a.headDim ≤ n * a.headDim + (d * 4 + tid % 4) ↔ n = 63 := by
      constructor
      · intro hle
        by_contra hne
        have hmul : (n + 1) * a.headDim ≤ 63 * a.headDim := Nat.mul_le_mul_right _ (by omega)
        rw [Nat.add_one_mul] at hmul
        omega
      · rintro rfl
        omega
    have hin := hlt n hn _ hd
    unfold loaded
    rw [if_neg (by omega), Nat.add_sub_cancel_left]
    by_cases hload : a.smemV ≤ a.smemV + (n * a.headDim + (d * 4 + tid % 4)) ∧
        a.smemV + (n * a.headDim + (d * 4 + tid % 4)) < a.smemV + a.seqLen * a.headDim
    · rw [if_pos hload]
      exact if_congr (Nat.add_le_add_iff_left.trans hlast) rfl rfl
    · rw [if_neg hload, if_neg (by omega)]
      exact if_congr (Nat.add_le_add_iff_left.trans hlast) rfl rfl
  rw [update_zero_keys hrow hkeys, sum_congr rfl hvalues, sum_ite_eq']
  simp

theorem lastRow_agree (tid : ℕ)
    (hmask : a.seqLen ≤ 63 ∨ a.isCausal = true ∧ qStart b + qRowLocal tid < 63) (w w' : ℝ) :
    a.AgreeUnmasked b (qStart b + qRowLocal tid) (a.lastRow b w) (a.lastRow b w') := by
  intro j hj hcausal d hd
  have hj63 : j < 63 := by
    rcases hmask with hlen | ⟨hc, hi⟩
    · omega
    · exact (hcausal hc).trans_lt hi
  have hmul : (j + 1) * a.headDim ≤ 63 * a.headDim := Nat.mul_le_mul_right _ hj63
  rw [Nat.add_one_mul] at hmul
  refine ⟨rfl, ?_⟩
  show (if _ then w else 0) = if _ then w' else 0
  rw [if_neg (by omega), if_neg (by omega)]

theorem not_maskedIrrelevant_of_masked (hrow : qStart b + qRowLocal tid < a.seqLen)
    (hlen : a.seqLen ≤ 64)
    (hmask : a.seqLen ≤ 63 ∨ a.isCausal = true ∧ qStart b + qRowLocal tid < 63) :
    ¬ a.MaskedIrrelevant b tid := by
  intro hirr
  have hb : b.x = 0 := by
    unfold qStart BLOCK_M at hrow
    omega
  have hdims : 0 < a.headDim / 4 := by
    rcases a.headDim_supported with h | h <;> rw [h] <;> decide
  obtain ⟨r₀, hr₀, h₀⟩ := lastRow_leaks hb hrow hlen 0 ⟨0, hdims⟩
  obtain ⟨r₁, hr₁, h₁⟩ := lastRow_leaks hb hrow hlen 64 ⟨0, hdims⟩
  have hsame := hirr _ _ (lastRow_agree (b := b) tid hmask 0 64)
  rw [hr₀, hr₁] at hsame
  have heq : r₀.oAcc ⟨0, hdims⟩ = r₁.oAcc ⟨0, hdims⟩ := congrFun hsame.2 _
  rw [h₀, h₁] at heq
  norm_num at heq

/-- Masked positions have no influence exactly when the only tile has no masked column: the
sequence fills one tile and, under the causal mask, the row is its last one. -/
theorem maskedIrrelevant_iff (hrow : qStart b + qRowLocal tid < a.seqLen) :
    a.MaskedIrrelevant b tid ↔
      a.seqLen = 64 ∧ (a.isCausal = true → qStart b + qRowLocal tid = 63) := by
  constructor
  · intro hirr
    have hlen : a.seqLen ≤ 64 := by
      by_contra hlong
      have hsame := hirr (a.lastRow b 0) (a.lastRow b 0) fun _ _ _ _ _ => ⟨rfl, rfl⟩
      rw [kernel_outOfBounds _ _ (by omega) (by omega)] at hsame
      exact hsame
    by_contra hcond
    apply not_maskedIrrelevant_of_masked hrow hlen _ hirr
    by_cases hfull : a.seqLen = 64
    · right
      have hcausal := not_forall.mp fun hall => hcond ⟨hfull, hall⟩
      obtain ⟨hc, hi⟩ := hcausal
      exact ⟨hc, by omega⟩
    · left
      omega
  · rintro ⟨hlen, hc⟩
    exact maskedIrrelevant_of_fullTile hrow hlen hc

def twoTokens : KernelArgs where
  headDim := 64
  headDim_supported := Or.inl rfl
  q := fun _ => 0
  seqLen := 2
  numHeads := 1
  smScale := 1
  isCausal := true

theorem maskedIrrelevant_iff_twoTokens :
    twoTokens.MaskedIrrelevant ⟨0, 0, 0⟩ 0 ↔
      twoTokens.seqLen = 64 ∧ (twoTokens.isCausal = true → qStart ⟨0, 0, 0⟩ + qRowLocal 0 = 63) :=
  maskedIrrelevant_iff (by decide)

/-- The first of two tokens sees what stale shared memory holds in the rows of masked columns. -/
theorem twoTokens_leak : ¬ twoTokens.MaskedIrrelevant ⟨0, 0, 0⟩ 0 :=
  not_maskedIrrelevant_of_masked (by decide) (by decide) (Or.inl (by decide))

end KernelArgs
end CudaForge.Kernels.Cuda
