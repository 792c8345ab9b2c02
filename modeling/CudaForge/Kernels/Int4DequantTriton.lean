import CudaForge.Kernels.FlashAttnTriton
import CudaForge.Kernels.Int4Layout
import CudaForge.Kernels.TritonLanguage
import CudaForge.Library.TiledLoop

/-!
The Triton INT4 GEMM and its launch, in exact arithmetic, and the scale that each weight gets: a
tile along `K` reads one row of scales, that of its first column.
-/
namespace CudaForge.Kernels.Int4
open Finset NibbleWord PromotedIntegers Triton TiledLoop

/-- A two-dimensional tensor: its storage, seen from its data pointer. -/
structure Tensor2 (α : Type*) where
  stride0 : ℤ
  stride1 : ℤ
  data : ℤ → α

def Tensor2.element {α : Type*} (x : Tensor2 α) (i j : ℕ) : α :=
  x.data (i * x.stride0 + j * x.stride1)

/-- `i * stride0 + j * stride1`, the sum of which is added to the pointer. -/
def Tensor2.sumPtrs {α : Type*} (x : Tensor2 α) (i j : ℕ) : ℤ :=
  (scaled i x.stride0 + scaled j x.stride1).toInt

/-- `i * stride0` and `j * stride1`, added to the pointer one after the other. -/
def Tensor2.rowPtrs {α : Type*} (x : Tensor2 α) (i j : ℕ) : ℤ :=
  (scaled i x.stride0).toInt + (scaled j x.stride1).toInt

def Tensor2.ofRows {α : Type*} (cols : ℕ) (f : ℕ → α) : Tensor2 α where
  stride0 := cols
  stride1 := 1
  data o := f o.toNat

theorem Tensor2.ofRows_element {α : Type*} (cols : ℕ) (f : ℕ → α) (i j : ℕ) :
    (Tensor2.ofRows cols f).element i j = f (i * cols + j) := by
  unfold Tensor2.element Tensor2.ofRows
  dsimp only
  congr 1
  omega

structure TritonArgs (𝕜 : Type*) where
  a : Tensor2 𝕜
  wordType : WordType
  bQuant : Tensor2 (BitVec 32)
  scales : Tensor2 𝕜
  zeros : Option (Tensor2 𝕜)
  M : ℕ
  N : ℕ
  K : ℕ
  strideCm : ℤ
  strideCn : ℤ
  groupSize : ℕ
  blockM : ℕ
  blockN : ℕ
  blockK : ℕ

structure GemmProgram where
  pidM : ℕ
  pidN : ℕ
  deriving DecidableEq

namespace TritonArgs
variable {𝕜 : Type*} [Field 𝕜] (g : TritonArgs 𝕜) (p : GemmProgram)

def offsM (i : Fin g.blockM) : ℕ := p.pidM * g.blockM + i

def offsN (j : Fin g.blockN) : ℕ := p.pidN * g.blockN + j

/-- `tl.load(a_ptrs, mask=(offs_m < M) & (offs_k < K), other=0.0)` -/
def loadA (m k : ℕ) : 𝕜 := if m < g.M ∧ k < g.K then g.a.data (g.a.sumPtrs m k) else 0

def loadScales (groupIdx n : ℕ) : 𝕜 :=
  if n < g.N then g.scales.data (g.scales.rowPtrs groupIdx n) else 1

def loadB (k n : ℕ) : BitVec 32 :=
  if k < g.K ∧ n < g.N then g.bQuant.data (g.bQuant.sumPtrs (k / 8) n) else 0#32

def groupIdx (tile : ℕ) : ℕ := tile * g.blockK / g.groupSize

def dequantized (b : BitVec 32) (scale : 𝕜) (k : ℕ) : 𝕜 :=
  (tritonUnpack g.wordType b k).toNat * scale

def bFp16 (tile k n : ℕ) : 𝕜 :=
  g.dequantized (g.loadB k n) (g.loadScales (g.groupIdx tile) n) k

def tileStep (acc : Fin g.blockM → Fin g.blockN → 𝕜) (tile : ℕ) : Fin g.blockM → Fin g.blockN → 𝕜 :=
  fun i j => acc i j + ∑ x : Fin g.blockK,
    g.loadA (g.offsM p i) (tile * g.blockK + x) *
      g.bFp16 tile (tile * g.blockK + x) (g.offsN p j)

def loop : Fin g.blockM → Fin g.blockN → 𝕜 :=
  (List.range (tlCdiv g.K g.blockK)).foldl (g.tileStep p) fun _ _ => 0

def cPtrs (m n : ℕ) : ℤ := (scaled m g.strideCm + scaled n g.strideCn).toInt

/-- The masked store of one program: the offsets it writes in `C`, with the values. -/
def stores : List (ℤ × 𝕜) :=
  let acc := g.loop p
  (List.finRange g.blockM ×ˢ List.finRange g.blockN).flatMap fun (i, j) =>
    if g.offsM p i < g.M ∧ g.offsN p j < g.N then [(g.cPtrs (g.offsM p i) (g.offsN p j), acc i j)]
    else []

end TritonArgs

section Launch
variable {𝕜 : Type*} [Field 𝕜]

/-- The arguments that the launcher passes: `c` is a fresh contiguous tensor. -/
def tritonArgs (M N K : ℕ) (a : Tensor2 𝕜) (wordType : WordType) (bQuant : Tensor2 (BitVec 32))
    (scales : Tensor2 𝕜) (zeros : Option (Tensor2 𝕜)) (groupSize : ℕ) : TritonArgs 𝕜 where
  a := a
  wordType := wordType
  bQuant := bQuant
  scales := scales
  zeros := zeros
  M := M
  N := N
  K := K
  strideCm := N
  strideCn := 1
  groupSize := groupSize
  blockM := 32
  blockN := 32
  blockK := 32

def gemmGrid (rows cols : ℕ) : List GemmProgram :=
  (List.range rows ×ˢ List.range cols).map fun (m, n) => ⟨m, n⟩

/-- All stores of the launch into the tensor that `int4_gemm_dequant_triton` returns. -/
def int4GemmDequantTriton (M N K : ℕ) (a : Tensor2 𝕜) (wordType : WordType)
    (bQuant : Tensor2 (BitVec 32)) (scales : Tensor2 𝕜) (zeros : Option (Tensor2 𝕜))
    (groupSize : ℕ) : Except LaunchError (List (ℤ × 𝕜)) :=
  launchGrid (cdiv M 32) (cdiv N 32) 1
    ((gemmGrid (cdiv M 32) (cdiv N 32)).flatMap
      (tritonArgs M N K a wordType bQuant scales zeros groupSize).stores)

end Launch

section Addresses
variable {α : Type*} {rows cols i j : ℕ}

/-- The scaled indices of a tensor are 32-bit integers. -/
def Tensor2.RowsFit (x : Tensor2 α) (rows cols : ℕ) : Prop :=
  rows ≤ 2147483648 ∧ cols ≤ 2147483648 ∧ (∀ i < rows, Fits32 (i * x.stride0)) ∧
    ∀ j < cols, Fits32 (j * x.stride1)

/-- So are the offsets of its elements. -/
def Tensor2.SumsFit (x : Tensor2 α) (rows cols : ℕ) : Prop :=
  x.RowsFit rows cols ∧ ∀ i < rows, ∀ j < cols, Fits32 (i * x.stride0 + j * x.stride1)

theorem Tensor2.RowsFit.rowPtrs_eq {x : Tensor2 α} (h : x.RowsFit rows cols) (hi : i < rows)
    (hj : j < cols) : x.rowPtrs i j = i * x.stride0 + j * x.stride1 := by
  obtain ⟨hrows, hcols, hstride0, hstride1⟩ := h
  rw [rowPtrs, scaled_toInt (hi.trans_le hrows) (hstride0 i hi),
    scaled_toInt (hj.trans_le hcols) (hstride1 j hj)]

theorem Tensor2.SumsFit.sumPtrs_eq {x : Tensor2 α} (h : x.SumsFit rows cols) (hi : i < rows)
    (hj : j < cols) : x.sumPtrs i j = i * x.stride0 + j * x.stride1 := by
  have hsum := h.2 i hi j hj
  have hrow := h.1.rowPtrs_eq hi hj
  rw [sumPtrs, toInt_add]
  · exact hrow
  · unfold rowPtrs at hrow
    rwa [hrow]

/-- A tensor with fewer than `2 ^ 31` elements in rows one behind the other has no other offsets. -/
theorem Tensor2.ofRows_fits {f : ℕ → α} (hrows : rows ≤ 2147483648) (hcols : cols ≤ 2147483648)
    (h : rows * cols ≤ 2147483648) : (Tensor2.ofRows cols f).SumsFit rows cols := by
  have hrow : ∀ i < rows, ∀ j < cols, ((i * cols + j : ℕ) : ℤ) < 2147483648 := by
    intro i hi j hj
    have hlt : i * cols + j < rows * cols :=
      calc i * cols + j < i * cols + cols := Nat.add_lt_add_left hj _
        _ = (i + 1) * cols := (Nat.succ_mul i cols).symm
        _ ≤ rows * cols := Nat.mul_le_mul_right cols hi
    omega
  unfold SumsFit RowsFit Fits32 ofRows
  push_cast at hrow
  simp only [mul_one]
  refine ⟨⟨hrows, hcols, fun i hi => ?_, fun j hj => ⟨by omega, by omega⟩⟩, fun i hi j hj => ?_⟩
  · rcases Nat.eq_zero_or_pos cols with rfl | hpos
    · simp
    · have hlt := hrow i hi 0 hpos
      have hnonneg : (0 : ℤ) ≤ i * cols := by positivity
      omega
  · have hlt := hrow i hi j hj
    have hnonneg : (0 : ℤ) ≤ i * cols := by positivity
    omega

end Addresses

namespace TritonArgs
variable {𝕜 : Type*} [Field 𝕜] {g : TritonArgs 𝕜} {p : GemmProgram}

/-- The product of row `m` with column `n` of the dequantized weights, each from its own tile. -/
def product (g : TritonArgs 𝕜) (m n : ℕ) : 𝕜 :=
  ∑ k ∈ range g.K, g.a.element m k * g.bFp16 (k / g.blockK) k n

section Loop

/-- After `t` tiles the accumulators hold the products over the first `t * BLOCK_K` columns. -/
theorem foldl_tileStep (t : ℕ) (i : Fin g.blockM) (j : Fin g.blockN) :
    (List.range t).foldl (g.tileStep p) (fun _ _ => 0) i j =
      ∑ k ∈ range (t * g.blockK),
        g.loadA (g.offsM p i) k * g.bFp16 (k / g.blockK) k (g.offsN p j) := by
  induction t with
  | zero => rw [Nat.zero_mul, range_zero, sum_empty]; rfl
  | succ t ih =>
    rw [List.range_succ, List.foldl_append, List.foldl_cons, List.foldl_nil, tileStep, ih,
      sum_range_tile]
    refine congrArg (_ + ·) (sum_congr rfl fun x _ => ?_)
    rw [mul_add_div_of_lt x.isLt]

/-- What a program accumulates in a row and a column of the output. -/
theorem loop_eq (hB : 0 < g.blockK) (hK : g.K + g.blockK - 1 < 2147483648)
    (ha : g.a.SumsFit g.M g.K) {i : Fin g.blockM}
    (hi : g.offsM p i < g.M) (j : Fin g.blockN) :
    g.loop p i j = g.product (g.offsM p i) (g.offsN p j) := by
  have hterm : ∀ k, g.loadA (g.offsM p i) k * g.bFp16 (k / g.blockK) k (g.offsN p j) =
      if k < g.K then
        g.a.element (g.offsM p i) k * g.bFp16 (k / g.blockK) k (g.offsN p j)
      else 0 := by
    intro k
    simp only [loadA, hi, true_and]
    split_ifs with hk
    · rw [ha.sumPtrs_eq hi hk]
      rfl
    · rw [zero_mul]
  rw [loop, foldl_tileStep, tlCdiv_eq hB hK]
  simp only [hterm]
  exact sum_range_masked (le_ceil_mul hB) _

end Loop

section Stores

/-- The stores of a program, lane by lane. -/
theorem stores_eq : g.stores p =
    (List.finRange g.blockM ×ˢ List.finRange g.blockN).flatMap fun lane =>
      if g.offsM p lane.1 < g.M ∧ g.offsN p lane.2 < g.N then
        [(g.cPtrs (g.offsM p lane.1) (g.offsN p lane.2), g.loop p lane.1 lane.2)]
      else [] := rfl

theorem mem_stores {s : ℤ × 𝕜} :
    s ∈ g.stores p ↔ ∃ i j, (g.offsM p i < g.M ∧ g.offsN p j < g.N) ∧
      s = (g.cPtrs (g.offsM p i) (g.offsN p j), g.loop p i j) := by
  rw [stores_eq, mem_maskedStores]
  simp only [Prod.exists, List.mem_product, List.mem_finRange, true_and]

/-- A program whose elements have offsets of their own stores each of them once. -/
theorem stores_filter {i : Fin g.blockM} {j : Fin g.blockN} {o : ℤ}
    (ho : o = g.cPtrs (g.offsM p i) (g.offsN p j))
    (hin : g.offsM p i < g.M ∧ g.offsN p j < g.N)
    (hown : ∀ i' j', g.offsM p i' < g.M ∧ g.offsN p j' < g.N →
      g.cPtrs (g.offsM p i') (g.offsN p j') = o → i' = i ∧ j' = j) :
    (g.stores p).filter (·.1 = o) = [(o, g.loop p i j)] := by
  have hlanes : (List.finRange g.blockM ×ˢ List.finRange g.blockN).Nodup :=
    (List.nodup_finRange _).product (List.nodup_finRange _)
  have hlane : (i, j) ∈ List.finRange g.blockM ×ˢ List.finRange g.blockN :=
    List.mem_product.mpr ⟨List.mem_finRange i, List.mem_finRange j⟩
  subst ho
  rw [stores_eq]
  apply maskedStores_filter hlanes hlane
  · exact hin
  · rfl
  · rintro ⟨i', j'⟩ - hin' hhit
    obtain ⟨rfl, rfl⟩ := hown i' j' hin' hhit
    rfl

end Stores
end TritonArgs

section Element
variable {𝕜 : Type*} [Field 𝕜] {M N K groupSize m n : ℕ} {a : Tensor2 𝕜} {wordType : WordType}
  {bQuant : Tensor2 (BitVec 32)} {scales : Tensor2 𝕜} {zeros : Option (Tensor2 𝕜)}

theorem mem_gemmGrid {rows cols : ℕ} {p : GemmProgram} :
    p ∈ gemmGrid rows cols ↔ p.pidM < rows ∧ p.pidN < cols := by
  unfold gemmGrid
  simp only [List.mem_map, List.mem_product, List.mem_range, Prod.exists]
  constructor
  · rintro ⟨m, n, hb, rfl⟩
    exact hb
  · intro hb
    exact ⟨p.pidM, p.pidN, hb, rfl⟩

theorem gemmGrid_nodup (rows cols : ℕ) : (gemmGrid rows cols).Nodup := by
  apply List.Nodup.map
  · rintro ⟨m, n⟩ ⟨m', n'⟩ heq
    simp only [GemmProgram.mk.injEq] at heq
    simp [heq]
  · exact List.nodup_range.product List.nodup_range

/-- A store hits an element of `C` only in the element's own program, row and column. -/
theorem gemm_store_unique {p : GemmProgram} {i j : ℕ} (hi : i < 32) (hj : j < 32)
    (hcol : p.pidN * 32 + j < N) (hn : n < N)
    (ho : ((p.pidM * 32 + i : ℕ) : ℤ) * N + ((p.pidN * 32 + j : ℕ) : ℤ) * 1 = m * N + n) :
    p = ⟨m / 32, n / 32⟩ ∧ i = m % 32 ∧ j = n % 32 := by
  rw [mul_one] at ho
  obtain ⟨hrow, hcol'⟩ := eq_of_mul_add_eq hcol hn (by exact_mod_cast ho)
  obtain ⟨pidM, pidN⟩ := p
  simp only [GemmProgram.mk.injEq] at hrow hcol' ⊢
  omega

/-- The output has 32-bit offsets, and the tiles along `K` have 32-bit numbers. -/
structure ShapeFits (M N K : ℕ) : Prop where
  rows : M ≤ 2147483648
  cols : N ≤ 2147483648
  output : M * N ≤ 2147483648
  tiles : K + 31 < 2147483648

/-- The offsets at which the kernel stores. -/
theorem cPtrs_eq (hshape : ShapeFits M N K) {m n : ℕ} (hm : m < M) (hn : n < N) :
    (tritonArgs M N K a wordType bQuant scales zeros groupSize).cPtrs m n = m * N + n * 1 :=
  (Tensor2.ofRows_fits (f := fun _ => (0 : 𝕜))
    hshape.rows hshape.cols hshape.output).sumPtrs_eq hm hn

/-- Each element of the returned tensor is stored once, by the program of its tile. -/
theorem stores_of_element (hshape : ShapeFits M N K) (ha : a.SumsFit M K)
    (hm : m < M) (hn : n < N) :
    ((gemmGrid (cdiv M 32) (cdiv N 32)).flatMap
        (tritonArgs M N K a wordType bQuant scales zeros groupSize).stores).filter
        (·.1 = (m * N + n : ℤ)) =
      [((m * N + n : ℤ),
        (tritonArgs M N K a wordType bQuant scales zeros groupSize).product m n)] := by
  have hgrid : (⟨m / 32, n / 32⟩ : GemmProgram) ∈ gemmGrid (cdiv M 32) (cdiv N 32) := by
    rw [mem_gemmGrid]
    unfold cdiv
    dsimp only
    omega
  let g := tritonArgs M N K a wordType bQuant scales zeros groupSize
  let i : Fin g.blockM := ⟨m % 32, Nat.mod_lt _ (by norm_num)⟩
  let j : Fin g.blockN := ⟨n % 32, Nat.mod_lt _ (by norm_num)⟩
  have hrow : g.offsM ⟨m / 32, n / 32⟩ i = m := Nat.div_add_mod' m 32
  have hcol : g.offsN ⟨m / 32, n / 32⟩ j = n := Nat.div_add_mod' n 32
  have hproduct : g.loop ⟨m / 32, n / 32⟩ i j = g.product m n := by
    have hloop := TritonArgs.loop_eq (g := g) (Nat.succ_pos 31) hshape.tiles ha (hrow.trans_lt hm) j
    rw [hrow, hcol] at hloop
    exact hloop
  rw [flatMap_filter_unique (gemmGrid_nodup _ _) hgrid]
  · rw [← hproduct]
    refine TritonArgs.stores_filter (g := g) ?_ ⟨hrow.trans_lt hm, hcol.trans_lt hn⟩ ?_
    · rw [hrow, hcol, cPtrs_eq hshape hm hn, mul_one]
    · intro i' j' hin ho
      rw [cPtrs_eq hshape hin.1 hin.2] at ho
      obtain ⟨-, hi, hj⟩ := gemm_store_unique i'.isLt j'.isLt hin.2 hn ho
      exact ⟨Fin.ext hi, Fin.ext hj⟩
  · intro p _ hne
    apply List.filter_eq_nil_iff.mpr
    intro s hs hso
    obtain ⟨i', j', hin, rfl⟩ := TritonArgs.mem_stores.mp hs
    have ho := of_decide_eq_true hso
    rw [cPtrs_eq hshape hin.1 hin.2] at ho
    exact hne (gemm_store_unique i'.isLt j'.isLt hin.2 hn ho).1

end Element

section Groups
variable {𝕜 : Type*} [Field 𝕜] {M N K groupSize : ℕ} {wordType : WordType}

/-- Nibble `k % 8` of word `(k / 8, n)` is `w k n`. -/
def Packed (K N : ℕ) (bQuant : Tensor2 (BitVec 32)) (w : ℕ → ℕ → ℕ) : Prop :=
  ∀ k < K, ∀ n < N, (nibble (bQuant.element (k / 8) n) (k % 8)).toNat = w k n

structure OperandsFit (M N K groupSize : ℕ) (a : Tensor2 𝕜) (bQuant : Tensor2 (BitVec 32))
    (scales : Tensor2 𝕜) : Prop where
  a : a.SumsFit M K
  bQuant : bQuant.SumsFit (cdiv K 8) N
  scales : scales.RowsFit (cdiv K groupSize) N

/-- Without zero-points, every element of the output is the product with the weights, each of which
is scaled with the scale of its own group, whatever the operands are. -/
def UsesOwnScales (𝕜 : Type*) [Field 𝕜] (M N K groupSize : ℕ) (wordType : WordType) : Prop :=
  ∀ (a : Tensor2 𝕜) (bQuant : Tensor2 (BitVec 32)) (scales : Tensor2 𝕜) (w : ℕ → ℕ → ℕ),
    OperandsFit M N K groupSize a bQuant scales → Packed K N bQuant w →
    ∀ m < M, ∀ n < N, ∃ stores,
      int4GemmDequantTriton M N K a wordType bQuant scales none groupSize = .ok stores ∧
      stores.filter (·.1 = (m * N + n : ℤ)) =
        [((m * N + n : ℤ),
          ∑ k ∈ range K, a.element m k * w k n * scales.element (k / groupSize) n)]

theorem lt_cdiv {x K block : ℕ} (hx : x < K) (hblock : 0 < block) : x / block < cdiv K block := by
  rw [Nat.div_lt_iff_lt_mul hblock]
  exact hx.trans_le (le_ceil_mul hblock)

namespace TritonArgs

def weight (g : TritonArgs 𝕜) (k n : ℕ) : 𝕜 :=
  g.dequantized (g.bQuant.element (k / 8) n) (g.scales.element (g.groupIdx (k / g.blockK)) n) k

theorem weight_eq (g : TritonArgs 𝕜) (k n : ℕ) :
    g.weight k n = (nibble (g.bQuant.element (k / 8) n) (k % 8)).toNat *
      g.scales.element (g.groupIdx (k / g.blockK)) n := by
  rw [weight, dequantized, tritonUnpack_eq]

/-- The kernel multiplies with it where the operands have 32-bit offsets. -/
theorem bFp16_eq_weight {g : TritonArgs 𝕜} {k n : ℕ}
    (hfits : OperandsFit g.M g.N g.K g.groupSize g.a g.bQuant g.scales) (hgroup : 0 < g.groupSize)
    (hk : k < g.K) (hn : n < g.N) : g.bFp16 (k / g.blockK) k n = g.weight k n := by
  have htile : k / g.blockK * g.blockK < g.K := (Nat.div_mul_le_self k g.blockK).trans_lt hk
  have hword := hfits.bQuant.sumPtrs_eq (lt_cdiv hk (by norm_num)) hn
  have hscale := hfits.scales.rowPtrs_eq (lt_cdiv htile hgroup) hn
  rw [bFp16, loadB, if_pos ⟨hk, hn⟩, loadScales, if_pos hn, hword, groupIdx, hscale]
  rfl

end TritonArgs

/-- What the launch stores, by the scales that the tiles read. -/
theorem product_eq {a : Tensor2 𝕜} {bQuant : Tensor2 (BitVec 32)} {scales : Tensor2 𝕜}
    {zeros : Option (Tensor2 𝕜)} {w : ℕ → ℕ → ℕ}
    (hfits : OperandsFit M N K groupSize a bQuant scales) (hgroup : 0 < groupSize)
    (hw : Packed K N bQuant w) (m : ℕ) {n : ℕ} (hn : n < N) :
    (tritonArgs M N K a wordType bQuant scales zeros groupSize).product m n =
      ∑ k ∈ range K, a.element m k * w k n * scales.element (k / 32 * 32 / groupSize) n := by
  apply sum_congr rfl
  intro k hk
  have hk' : k < K := mem_range.mp hk
  have hweight := (TritonArgs.bFp16_eq_weight
    (g := tritonArgs M N K a wordType bQuant scales zeros groupSize) hfits hgroup hk' hn).trans
    (TritonArgs.weight_eq _ k n)
  rw [mul_assoc, ← hw k hk' n hn]
  exact congrArg (_ * ·) hweight

/-- The stores of a launch, in every element of the output. -/
theorem usesOwnScales_iff_sums (hshape : ShapeFits M N K) (hgroup : 0 < groupSize) (hM : 0 < M)
    (hN : 0 < N) :
    UsesOwnScales 𝕜 M N K groupSize wordType ↔
      ∀ (a : Tensor2 𝕜) (bQuant : Tensor2 (BitVec 32)) (scales : Tensor2 𝕜) (w : ℕ → ℕ → ℕ),
        OperandsFit M N K groupSize a bQuant scales → Packed K N bQuant w →
        GridFits (cdiv M 32) (cdiv N 32) 1 ∧ ∀ m < M, ∀ n < N,
          ∑ k ∈ range K, a.element m k * w k n * scales.element (k / 32 * 32 / groupSize) n =
            ∑ k ∈ range K, a.element m k * w k n * scales.element (k / groupSize) n := by
  have hgrid : cdiv M 32 * cdiv N 32 * 1 ≠ 0 := by
    have hrows : 0 < cdiv M 32 := (Nat.zero_le _).trans_lt (lt_cdiv hM (by norm_num))
    have hcols : 0 < cdiv N 32 := (Nat.zero_le _).trans_lt (lt_cdiv hN (by norm_num))
    positivity
  unfold UsesOwnScales
  refine forall₄_congr fun a bQuant scales w => forall₂_congr fun hfits hw => ?_
  unfold int4GemmDequantTriton
  simp only [launchGrid_eq_ok hgrid]
  constructor
  · intro huses
    refine ⟨(huses 0 hM 0 hN).choose_spec.1.1, fun m hm n hn => ?_⟩
    obtain ⟨_, ⟨-, rfl⟩, hstored⟩ := huses m hm n hn
    rw [stores_of_element hshape hfits.a hm hn, product_eq hfits hgroup hw m hn] at hstored
    exact congrArg Prod.snd (List.cons.inj hstored).1
  · rintro ⟨hlaunch, hsums⟩ m hm n hn
    refine ⟨_, ⟨hlaunch, rfl⟩, ?_⟩
    rw [stores_of_element hshape hfits.a hm hn, product_eq hfits hgroup hw m hn, hsums m hm n hn]

omit [Field 𝕜] in
/-- Operands that repeat one row of activations, one word and one column of scales. -/
theorem broadcast_fits (hshape : ShapeFits M N K) (hgroup : 0 < groupSize) (f h : ℤ → 𝕜)
    (word : BitVec 32) :
    OperandsFit M N K groupSize ⟨0, 1, f⟩ ⟨0, 0, fun _ => word⟩ ⟨1, 0, h⟩ := by
  have hK := hshape.tiles
  have hwords : cdiv K 8 ≤ 2147483648 := by
    unfold cdiv
    omega
  have hgroups : cdiv K groupSize ≤ K := by
    apply Nat.le_of_lt_succ
    rw [cdiv, Nat.div_lt_iff_lt_mul hgroup, Nat.succ_mul]
    have hmul := Nat.le_mul_of_pos_right K hgroup
    omega
  have hzero : ∀ i : ℕ, Fits32 (i * 0) := fun i => by simp [Fits32]
  have hone : ∀ i < K, Fits32 (i * 1) := fun i hi => by
    rw [mul_one]
    exact fits32_natCast (by omega)
  refine ⟨⟨⟨hshape.rows, by omega, fun i _ => hzero i, hone⟩, fun i _ j hj => ?_⟩,
    ⟨⟨hwords, hshape.cols, fun i _ => hzero i, fun j _ => hzero j⟩, fun i _ j _ => ?_⟩,
    ⟨by omega, hshape.cols, fun i hi => hone i (hi.trans_le hgroups), fun j _ => hzero j⟩⟩
  · simpa using hone j hj
  · simpa using hzero i

theorem packed_ones (K N : ℕ) : Packed K N ⟨0, 0, fun _ => 0x11111111#32⟩ fun _ _ => 1 := by
  intro k _ n _
  show (nibble 0x11111111#32 (k % 8)).toNat = 1
  have hk := Nat.mod_lt k (show 0 < 8 by norm_num)
  interval_cases k % 8 <;> rfl

/-- A group that begins inside a tile gets the scales of the group before it. -/
theorem not_usesOwnScales (hshape : ShapeFits M N K) (hM : 0 < M) (hN : 0 < N)
    (hpos : 0 < groupSize) (hlt : groupSize < K) (hinside : ¬32 ∣ groupSize) :
    ¬UsesOwnScales 𝕜 M N K groupSize wordType := by
  rw [usesOwnScales_iff_sums hshape hpos hM hN]
  intro huses
  -- one activation, at the first column of the second group, and a scale of zero in the first
  let a : Tensor2 𝕜 := ⟨0, 1, fun o => if o = groupSize then 1 else 0⟩
  let scales : Tensor2 𝕜 := ⟨1, 0, fun o => if o = 0 then 0 else 1⟩
  have ha : ∀ k : ℕ, a.element 0 k = if k = groupSize then 1 else 0 := by
    intro k
    simp [a, Tensor2.element]
  have htile : groupSize / 32 * 32 / groupSize = 0 := by
    apply Nat.div_eq_of_lt
    have hmod : groupSize % 32 ≠ 0 := fun h => hinside (Nat.dvd_of_mod_eq_zero h)
    omega
  have hown : scales.element (groupSize / groupSize) 0 = 1 := by
    simp [scales, Tensor2.element, Nat.div_self hpos]
  have hread : scales.element (groupSize / 32 * 32 / groupSize) 0 = 0 := by
    simp [scales, Tensor2.element, htile]
  have hsums :=
    (huses a _ scales _ (broadcast_fits hshape hpos _ _ _) (packed_ones K N)).2 0 hM 0 hN
  simp only [ha, ite_mul, one_mul, zero_mul, sum_ite_eq', mem_range, hlt, if_true, Nat.cast_one,
    hown, hread] at hsums
  exact zero_ne_one hsums

/-- Where the offsets are 32-bit integers, every weight gets its own scale exactly when the grid is
launched and no group begins inside a tile. -/
theorem usesOwnScales_iff (hshape : ShapeFits M N K) (hgroup : 1 ≤ groupSize) :
    UsesOwnScales 𝕜 M N K groupSize wordType ↔
      M = 0 ∨ N = 0 ∨ GridFits (cdiv M 32) (cdiv N 32) 1 ∧ (K ≤ groupSize ∨ 32 ∣ groupSize) := by
  rcases Nat.eq_zero_or_pos M with rfl | hM
  · exact iff_of_true (fun _ _ _ _ _ _ m hm => absurd hm (Nat.not_lt_zero m)) (Or.inl rfl)
  rcases Nat.eq_zero_or_pos N with rfl | hN
  · exact iff_of_true (fun _ _ _ _ _ _ _ _ n hn => absurd hn (Nat.not_lt_zero n))
      (Or.inr (Or.inl rfl))
  rw [or_iff_right hM.ne', or_iff_right hN.ne']
  constructor
  · intro huses
    refine ⟨?_, ?_⟩
    · exact ((usesOwnScales_iff_sums hshape hgroup hM hN).mp huses _ _ _ _
        (broadcast_fits hshape hgroup 0 0 _) (packed_ones K N)).1
    · by_contra hcondition
      obtain ⟨hlt, hinside⟩ := not_or.mp hcondition
      exact not_usesOwnScales hshape hM hN hgroup (not_le.mp hlt) hinside huses
  · rintro ⟨hlaunch, hgroups⟩
    rw [usesOwnScales_iff_sums hshape hgroup hM hN]
    intro a bQuant scales w hfits hw
    refine ⟨hlaunch, fun m hm n hn => sum_congr rfl fun k hk => ?_⟩
    rw [tile_start_group (mem_range.mp hk) hgroups]

theorem usesOwnScales_iff_twoGroups : UsesOwnScales ℚ 3 40 64 32 .uint32 :=
  (usesOwnScales_iff ⟨by norm_num, by norm_num, by norm_num, by norm_num⟩ (by norm_num)).mpr
    (Or.inr (Or.inr ⟨by decide, Or.inr (dvd_refl 32)⟩))

/-- Two groups of eight in one tile. -/
theorem second_group_misscaled : ¬UsesOwnScales ℚ 1 1 16 8 .int32 :=
  not_usesOwnScales ⟨by norm_num, by norm_num, by norm_num, by norm_num⟩ one_pos one_pos
    (by norm_num) (by norm_num) (by norm_num)

end Groups
end CudaForge.Kernels.Int4
