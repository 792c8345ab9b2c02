import CudaForge.Kernels.Int4Layout

/-!
The launch of the CUDA INT4 GEMM and its unpack loop, in exact arithmetic. The kernel takes every
thread for a warp with a tile of its own, while a lane unpacks only its own columns, into an array
that no other lane sees.
-/
namespace CudaForge.Kernels.Int4
open NibbleWord

def WMMA_M : ℕ := 16
def WMMA_N : ℕ := 16
def WMMA_K : ℕ := 16

structure Int4GemmParams (𝕜 : Type*) where
  bQuant : ℕ → BitVec 32
  scales : ℕ → 𝕜
  zeros : Option (ℕ → 𝕜)
  M : ℕ
  N : ℕ
  K : ℕ
  groupSize : ℕ

structure LaunchConfig where
  blockDimX : ℕ
  blockDimY : ℕ
  gridDimX : ℕ
  gridDimY : ℕ

structure CudaThread where
  blockX : ℕ
  blockY : ℕ
  threadX : ℕ
  threadY : ℕ

namespace LaunchConfig
variable (c : LaunchConfig) (t : CudaThread)

structure Launches : Prop where
  blockX : t.blockX < c.gridDimX
  blockY : t.blockY < c.gridDimY
  threadX : t.threadX < c.blockDimX
  threadY : t.threadY < c.blockDimY

def warpRow : ℕ := t.blockY * c.blockDimY + t.threadY

def warpCol : ℕ := t.blockX * c.blockDimX + t.threadX

/-- The number of a thread in its block, from which the hardware forms warps. -/
def linearId : ℕ := t.threadX + t.threadY * c.blockDimX

end LaunchConfig

namespace Int4GemmParams
variable {𝕜 : Type*} (p : Int4GemmParams 𝕜) (c : LaunchConfig) (t : CudaThread)

/-- The thread passes the bounds check. -/
def Enters : Prop := c.warpRow t * WMMA_M < p.M ∧ c.warpCol t * WMMA_N < p.N

/-- `for (int k_idx = 0; k_idx < K; k_idx += WMMA_K)` -/
def kSteps : List ℕ := (List.range ((p.K + WMMA_K - 1) / WMMA_K)).map (· * WMMA_K)

/-- `for (int col = lane_id; col < WMMA_N; col += 32)` -/
def unpackCols (col : ℕ) : List ℕ :=
  if col < WMMA_N then col :: unpackCols (col + 32) else []
termination_by WMMA_N - col

def scaleAt (groupIdx colIdx : ℕ) : 𝕜 := p.scales (groupIdx * p.N + colIdx)

def zeroAt [Field 𝕜] (groupIdx colIdx : ℕ) : 𝕜 :=
  match p.zeros with
  | some zeros => zeros (groupIdx * p.N + colIdx)
  | none => 0

def unpackValue [Field 𝕜] (nOffset kIdx row col : ℕ) : 𝕜 :=
  let groupIdx := kIdx / p.groupSize
  let currentK := kIdx + row
  let colIdx := nOffset + col
  let packedVal := p.bQuant (currentK / 8 * p.N + colIdx)
  ((cudaUnpack packedVal currentK).toNat - p.zeroAt groupIdx colIdx) * p.scaleAt groupIdx colIdx

/-- What a thread writes into its `unpacked_w` in one step: indices and values. -/
def unpackLoop [Field 𝕜] (kIdx : ℕ) : List (ℕ × 𝕜) :=
  let laneId := t.threadX % 32
  (List.range WMMA_K).flatMap fun row => (unpackCols laneId).map fun col =>
    (row * WMMA_N + col, p.unpackValue (c.warpCol t * WMMA_N) kIdx row col)

def weight [Field 𝕜] (k n : ℕ) : 𝕜 :=
  p.unpackValue (n / WMMA_N * WMMA_N) (k / WMMA_K * WMMA_K) (k % WMMA_K) (n % WMMA_N)

def launchInt4GemmDequant : Except String LaunchConfig :=
  if p.K % 16 ≠ 0 ∨ p.N % 16 ≠ 0 ∨ p.M % 16 ≠ 0 then
    .error "INT4 GEMM dimensions (M, N, K) must be multiples of 16."
  else
    .ok {
      blockDimX := 4
      blockDimY := 4
      gridDimX := (p.N + WMMA_N * 4 - 1) / (WMMA_N * 4)
      gridDimY := (p.M + WMMA_M * 4 - 1) / (WMMA_M * 4) }

/-- The threads that enter a tile are the 32 lanes of one warp. -/
def CoversTiles : Prop :=
  ∀ row col, row * WMMA_M < p.M → col * WMMA_N < p.N → ∃ blockX blockY warp,
    (∀ lane < 32, ∃ t, c.Launches t ∧ t.blockX = blockX ∧ t.blockY = blockY ∧
      c.linearId t = 32 * warp + lane) ∧
    ∀ t, c.Launches t → (p.Enters c t ∧ c.warpRow t = row ∧ c.warpCol t = col ↔
      t.blockX = blockX ∧ t.blockY = blockY ∧ c.linearId t / 32 = warp)

/-- A thread that loads its buffer has written all of it in the same step. -/
def FillsBuffers [Field 𝕜] : Prop :=
  ∀ t, c.Launches t → p.Enters c t → ∀ kIdx ∈ p.kSteps,
    ∀ index < WMMA_K * WMMA_N, ∃ value, (index, value) ∈ p.unpackLoop c t kIdx

structure UnpacksTiles [Field 𝕜] : Prop where
  covers : p.CoversTiles c
  fills : p.FillsBuffers c

section Unpack
variable {p c t}

theorem unpackCols_lane {lane : ℕ} (h : lane < WMMA_N) : unpackCols lane = [lane] := by
  rw [unpackCols, if_pos h, unpackCols, if_neg]
  unfold WMMA_N at h ⊢
  omega

/-- A thread writes the column of its lane, in every row. -/
theorem mem_unpackLoop [Field 𝕜] {kIdx : ℕ} {write : ℕ × 𝕜} (hlane : t.threadX < WMMA_N) :
    write ∈ p.unpackLoop c t kIdx ↔ ∃ row < WMMA_K, write =
      (row * WMMA_N + t.threadX,
        p.unpackValue (c.warpCol t * WMMA_N) kIdx row t.threadX) := by
  have hmod : t.threadX % 32 = t.threadX := by
    unfold WMMA_N at hlane
    exact Nat.mod_eq_of_lt (by omega)
  unfold unpackLoop
  dsimp only
  rw [hmod, unpackCols_lane hlane]
  simp only [List.map_singleton, List.mem_flatMap, List.mem_range, List.mem_singleton]

/-- The values that are written are those of the matrix. -/
theorem unpackValue_eq_weight [Field 𝕜] {nOffset kIdx row col : ℕ} (hn : WMMA_N ∣ nOffset)
    (hk : WMMA_K ∣ kIdx) (hrow : row < WMMA_K) (hcol : col < WMMA_N) :
    p.unpackValue nOffset kIdx row col = p.weight (kIdx + row) (nOffset + col) := by
  obtain ⟨x, rfl⟩ := hn
  obtain ⟨y, rfl⟩ := hk
  rw [weight, Nat.mul_add_div (by decide), Nat.mul_add_div (by decide), Nat.mul_add_mod,
    Nat.mul_add_mod, Nat.div_eq_of_lt hrow, Nat.div_eq_of_lt hcol, Nat.mod_eq_of_lt hrow,
    Nat.mod_eq_of_lt hcol, Nat.add_zero, Nat.add_zero, Nat.mul_comm x, Nat.mul_comm y]

end Unpack

section Launch
variable {p c}

theorem config_eq (h : p.launchInt4GemmDequant = .ok c) :
    c.blockDimX = 4 ∧ c.blockDimY = 4 ∧ c.gridDimX = (p.N + 63) / 64 ∧
      c.gridDimY = (p.M + 63) / 64 := by
  unfold launchInt4GemmDequant at h
  split_ifs at h
  obtain rfl := Except.ok.inj h
  exact ⟨rfl, rfl, rfl, rfl⟩

/-- A tile of the output is entered by one thread. -/
theorem tile_one_thread (h : p.launchInt4GemmDequant = .ok c) {row col : ℕ}
    (hrow : row * WMMA_M < p.M) (hcol : col * WMMA_N < p.N) :
    ∃! t, c.Launches t ∧ p.Enters c t ∧ c.warpRow t = row ∧ c.warpCol t = col := by
  obtain ⟨hdimX, hdimY, hgridX, hgridY⟩ := config_eq h
  unfold WMMA_M at hrow
  unfold WMMA_N at hcol
  have hrows : row / 4 * 4 + row % 4 = row := Nat.div_add_mod' row 4
  have hcols : col / 4 * 4 + col % 4 = col := Nat.div_add_mod' col 4
  refine ⟨⟨col / 4, row / 4, col % 4, row % 4⟩, ⟨⟨?_, ?_, ?_, ?_⟩, ⟨?_, ?_⟩, ?_, ?_⟩, ?_⟩
  · show col / 4 < c.gridDimX
    omega
  · show row / 4 < c.gridDimY
    omega
  · show col % 4 < c.blockDimX
    omega
  · show row % 4 < c.blockDimY
    omega
  · show (row / 4 * c.blockDimY + row % 4) * 16 < p.M
    rw [hdimY, hrows]
    exact hrow
  · show (col / 4 * c.blockDimX + col % 4) * 16 < p.N
    rw [hdimX, hcols]
    exact hcol
  · show row / 4 * c.blockDimY + row % 4 = row
    rw [hdimY, hrows]
  · show col / 4 * c.blockDimX + col % 4 = col
    rw [hdimX, hcols]
  · rintro ⟨blockX, blockY, threadX, threadY⟩ ⟨⟨-, -, hX, hY⟩, -, htRow, htCol⟩
    unfold LaunchConfig.warpRow at htRow
    unfold LaunchConfig.warpCol at htCol
    dsimp only at hX hY htRow htCol
    rw [hdimX] at hX htCol
    rw [hdimY] at hY htRow
    rw [CudaThread.mk.injEq]
    omega

/-- No block has a full warp. -/
theorem coversTiles_iff (h : p.launchInt4GemmDequant = .ok c) :
    p.CoversTiles c ↔ p.M = 0 ∨ p.N = 0 := by
  obtain ⟨hdimX, hdimY, -, -⟩ := config_eq h
  constructor
  · intro hcovers
    by_contra hempty
    rw [not_or] at hempty
    obtain ⟨blockX, blockY, warp, hfull, -⟩ := hcovers 0 0
      (by rw [Nat.zero_mul]; exact Nat.pos_of_ne_zero hempty.1)
      (by rw [Nat.zero_mul]; exact Nat.pos_of_ne_zero hempty.2)
    obtain ⟨t, ht, -, -, hlinear⟩ := hfull 31 (by norm_num)
    have hX := ht.threadX
    have hY := ht.threadY
    rw [hdimX] at hX
    rw [hdimY] at hY
    rw [LaunchConfig.linearId, hdimX] at hlinear
    omega
  · rintro (hM | hN) row col hrow hcol
    · exact absurd hrow (by rw [hM]; exact Nat.not_lt_zero _)
    · exact absurd hcol (by rw [hN]; exact Nat.not_lt_zero _)

/-- No thread writes more than the column of its lane. -/
theorem fillsBuffers_iff [Field 𝕜] (h : p.launchInt4GemmDequant = .ok c) :
    p.FillsBuffers c ↔ p.M = 0 ∨ p.N = 0 ∨ p.K = 0 := by
  obtain ⟨hdimX, hdimY, hgridX, hgridY⟩ := config_eq h
  constructor
  · intro hfills
    by_contra hempty
    simp only [not_or] at hempty
    obtain ⟨hM, hN, hK⟩ := hempty
    have hlaunched : c.Launches ⟨0, 0, 0, 0⟩ := by
      constructor <;> dsimp only <;> omega
    have henters : p.Enters c ⟨0, 0, 0, 0⟩ := by
      simp only [Enters, LaunchConfig.warpRow, LaunchConfig.warpCol, Nat.zero_mul, Nat.add_zero]
      omega
    have hstep : 0 ∈ p.kSteps := by
      refine List.mem_map.mpr ⟨0, List.mem_range.mpr ?_, Nat.zero_mul _⟩
      unfold WMMA_K
      omega
    obtain ⟨value, hvalue⟩ := hfills _ hlaunched henters 0 hstep 1 (by decide)
    obtain ⟨row, -, hwrite⟩ := (mem_unpackLoop (by decide)).mp hvalue
    have hindex : 1 = row * 16 + 0 := congrArg Prod.fst hwrite
    omega
  · rintro (hM | hN | hK) t _ ht kIdx hstep
    · exact absurd ht.1 (by rw [hM]; exact Nat.not_lt_zero _)
    · exact absurd ht.2 (by rw [hN]; exact Nat.not_lt_zero _)
    · rw [kSteps, hK] at hstep
      exact absurd hstep List.not_mem_nil

/-- A block is half a warp, and every thread unpacks one column of the buffer it loads: the launch
unpacks its tiles only when there are none. -/
theorem unpacksTiles_iff [Field 𝕜] (h : p.launchInt4GemmDequant = .ok c) :
    p.UnpacksTiles c ↔ p.M = 0 ∨ p.N = 0 := by
  constructor
  · exact fun hunpacks => (coversTiles_iff h).mp hunpacks.covers
  · intro hempty
    exact ⟨(coversTiles_iff h).mpr hempty,
      (fillsBuffers_iff h).mpr (hempty.imp_right Or.inl)⟩

def singleTile : Int4GemmParams ℚ := ⟨fun _ => 0, fun _ => 1, none, 16, 16, 16, 16⟩

theorem unpacksTiles_iff_singleTile :
    singleTile.UnpacksTiles ⟨4, 4, 1, 1⟩ ↔ singleTile.M = 0 ∨ singleTile.N = 0 :=
  unpacksTiles_iff (p := singleTile) rfl

/-- The only tile has one thread, and no lane 31. -/
theorem singleTile_incomplete : ¬singleTile.UnpacksTiles ⟨4, 4, 1, 1⟩ := by
  intro hunpacks
  obtain ⟨blockX, blockY, warp, hfull, -⟩ := hunpacks.covers 0 0 (by decide) (by decide)
  obtain ⟨t, ht, -, -, hlinear⟩ := hfull 31 (by norm_num)
  have hX : t.threadX < 4 := ht.threadX
  have hY : t.threadY < 4 := ht.threadY
  have hid : t.threadX + t.threadY * 4 = 32 * warp + 31 := hlinear
  omega

end Launch
end Int4GemmParams
end CudaForge.Kernels.Int4
