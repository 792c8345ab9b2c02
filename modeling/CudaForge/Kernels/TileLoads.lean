import CudaForge.Kernels.MaskedColumns

/-!
Where the copies of a load phase land. The load loops run one iteration for each byte of a tile per
thread, while an iteration copies sixteen bytes: only the sequence bound stops them.
-/
namespace CudaForge.Kernels.Cuda

def AsyncCopy.Disjoint (c d : AsyncCopy) : Prop := c.dst + 8 ≤ d.dst ∨ d.dst + 8 ≤ c.dst

namespace KernelArgs
variable {a : KernelArgs} {b : BlockIdx} {mem : DeviceMemory} {kTile : ℕ}

def loadOffsets (a : KernelArgs) (start : ℕ) : List ℕ :=
  (a.loadIndices.filter fun loadIdx => start + a.loadRow loadIdx < a.seqLen).map fun loadIdx =>
    a.loadRow loadIdx * a.headDim + a.loadCol loadIdx

/-- The Q, K and V loads of block `b` at K/V tile `kTile` stay in their tiles, write nothing twice
within a phase, and fill the rows of the sequence. -/
structure LoadsTiles (a : KernelArgs) (b : BlockIdx) (mem : DeviceMemory) (kTile : ℕ) : Prop where
  q_inside : ∀ o ∈ a.loadOffsets (qStart b), o + 8 ≤ BLOCK_M * a.headDim
  kv_inside : ∀ o ∈ a.loadOffsets (kTile * BLOCK_N), o + 8 ≤ BLOCK_N * a.headDim
  q_disjoint : (a.qCopies b).Pairwise AsyncCopy.Disjoint
  kv_disjoint : (a.kvCopies b mem kTile).Pairwise AsyncCopy.Disjoint
  q_filled : ∀ row < BLOCK_M, qStart b + row < a.seqLen → ∀ col < a.headDim,
    ∃ c ∈ a.qCopies b, c.Covers (row * a.headDim + col)
  k_filled : ∀ row < BLOCK_N, kTile * BLOCK_N + row < a.seqLen → ∀ col < a.headDim,
    ∃ c ∈ a.kvCopies b mem kTile, c.Covers (a.smemK + (row * a.headDim + col))
  v_filled : ∀ row < BLOCK_N, kTile * BLOCK_N + row < a.seqLen → ∀ col < a.headDim,
    ∃ c ∈ a.kvCopies b mem kTile, c.Covers (a.smemV + (row * a.headDim + col))

section Offsets

/-- The destinations of a loop whose iterations copy when their row is below the sequence end. -/
theorem guardedCopies_dst (start : ℕ) (copies : ℕ → List AsyncCopy) (dsts : ℕ → List ℕ)
    (h : ∀ L, (copies L).map AsyncCopy.dst = dsts (a.loadRow L * a.headDim + a.loadCol L)) :
    (a.loadIndices.flatMap fun L => if start + a.loadRow L < a.seqLen then copies L else []).map
      AsyncCopy.dst = (a.loadOffsets start).flatMap dsts := by
  unfold loadOffsets
  induction a.loadIndices with
  | nil => rfl
  | cons L rest ih =>
    rw [List.flatMap_cons, List.map_append, ih]
    by_cases hguard : start + a.loadRow L < a.seqLen
    · rw [if_pos hguard, List.filter_cons_of_pos (by simpa using hguard), List.map_cons,
        List.flatMap_cons, h]
    · rw [if_neg hguard, List.filter_cons_of_neg (by simpa using hguard)]
      rfl

/-- The loads of the kernel go to these destinations, from the begin of their tiles. -/
theorem qCopies_dst (a : KernelArgs) (b : BlockIdx) :
    (a.qCopies b).map AsyncCopy.dst = a.loadOffsets (qStart b) := by
  rw [← List.flatMap_singleton' (a.loadOffsets (qStart b))]
  exact guardedCopies_dst _ _ _ fun _ => rfl

theorem kvCopies_dst (a : KernelArgs) (b : BlockIdx) (mem : DeviceMemory) (kTile : ℕ) :
    (a.kvCopies b mem kTile).map AsyncCopy.dst =
      (a.loadOffsets (kTile * BLOCK_N)).flatMap fun o => [a.smemK + o, a.smemV + o] :=
  guardedCopies_dst _ _ _ fun _ => rfl

theorem mem_loadOffsets {start o : ℕ} :
    o ∈ a.loadOffsets start ↔
      ∃ L < 128 * a.headDim, start + a.loadRow L < a.seqLen ∧ o = 8 * L := by
  unfold loadOffsets
  simp only [List.mem_map, List.mem_filter, mem_loadIndices, load_offset, decide_eq_true_iff]
  constructor
  · rintro ⟨L, ⟨hL, hrow⟩, rfl⟩
    exact ⟨L, hL, hrow, rfl⟩
  · rintro ⟨L, hL, hrow, rfl⟩
    exact ⟨L, ⟨hL, hrow⟩, rfl⟩

/-- A load stays in a tile of 64 rows exactly when the sequence does not go on behind the tile. -/
theorem loadOffsets_inside_iff (a : KernelArgs) (start : ℕ) :
    (∀ o ∈ a.loadOffsets start, o + 8 ≤ 64 * a.headDim) ↔ a.seqLen ≤ start + 64 := by
  have hpos := a.headDim_pos
  constructor
  · intro hinside
    by_contra hlong
    have hrow : a.loadRow (8 * a.headDim) = 64 := by
      unfold loadRow
      rcases a.headDim_supported with h | h <;> rw [h]
    have hmem : 8 * (8 * a.headDim) ∈ a.loadOffsets start :=
      mem_loadOffsets.mpr ⟨8 * a.headDim, by omega, by omega, rfl⟩
    have hend := hinside _ hmem
    omega
  · rintro hlen o ho
    obtain ⟨L, -, hrow, rfl⟩ := mem_loadOffsets.mp ho
    have hL : 8 * L < 64 * a.headDim := loadRow_lt.mp (by omega)
    omega

theorem loadIndices_nodup (a : KernelArgs) : a.loadIndices.Nodup := by
  apply List.Nodup.map_on
  · rintro ⟨tid, i⟩ hx ⟨tid', i'⟩ hy heq
    rw [List.mem_product, List.mem_range, List.mem_range] at hx hy
    simp only [blockThreads] at hx hy heq
    rw [Prod.mk.injEq]
    omega
  · exact List.nodup_range.product List.nodup_range

/-- No two iterations copy to the same vector. -/
theorem loadOffsets_pairwise (a : KernelArgs) (start : ℕ) :
    (a.loadOffsets start).Pairwise fun o o' => o + 8 ≤ o' ∨ o' + 8 ≤ o := by
  unfold loadOffsets
  rw [List.pairwise_map]
  refine (a.loadIndices_nodup.filter _).imp fun {L L'} hne => ?_
  rw [load_offset, load_offset]
  omega

end Offsets

section Phases

theorem pairwise_disjoint_iff {copies : List AsyncCopy} :
    copies.Pairwise AsyncCopy.Disjoint ↔
      (copies.map AsyncCopy.dst).Pairwise fun o o' => o + 8 ≤ o' ∨ o' + 8 ≤ o := by
  rw [List.pairwise_map]
  rfl

/-- While the loads stay in the tiles, no K copy meets a V copy. -/
theorem kvCopies_disjoint
    (hinside : ∀ o ∈ a.loadOffsets (kTile * BLOCK_N), o + 8 ≤ 64 * a.headDim) :
    (a.kvCopies b mem kTile).Pairwise AsyncCopy.Disjoint := by
  have hK := a.smemK_eq
  have hV := a.smemV_eq
  rw [pairwise_disjoint_iff, kvCopies_dst, List.pairwise_flatMap]
  constructor
  · intro o ho
    have hend := hinside o ho
    rw [List.pairwise_pair]
    omega
  · refine (a.loadOffsets_pairwise _).imp_of_mem fun {o o'} ho ho' hne => ?_
    have hend := hinside o ho
    have hend' := hinside o' ho'
    simp only [List.mem_cons, List.not_mem_nil, or_false]
    rintro x (rfl | rfl) y (rfl | rfl) <;> omega

/-- The vector of a tile that holds an element of a row below the sequence end is loaded. -/
theorem exists_loadOffset {start row col : ℕ} (hrow : row < 64) (hlen : start + row < a.seqLen)
    (hcol : col < a.headDim) :
    ∃ o ∈ a.loadOffsets start, o ≤ row * a.headDim + col ∧ row * a.headDim + col < o + 8 := by
  have hnext : (row + 1) * a.headDim ≤ 64 * a.headDim := Nat.mul_le_mul_right _ hrow
  have hlast : a.loadRow ((row * a.headDim + col) / 8) < row + 1 := by
    rw [loadRow_lt, Nat.add_one_mul row]
    omega
  rw [Nat.add_one_mul row] at hnext
  refine ⟨8 * ((row * a.headDim + col) / 8), mem_loadOffsets.mpr ⟨_, ?_, ?_, rfl⟩, ?_, ?_⟩ <;> omega

theorem exists_qCopy {x : ℕ} (h : ∃ o ∈ a.loadOffsets (qStart b), o ≤ x ∧ x < o + 8) :
    ∃ c ∈ a.qCopies b, c.Covers x := by
  obtain ⟨o, ho, hcovers⟩ := h
  rw [← qCopies_dst] at ho
  obtain ⟨c, hc, rfl⟩ := List.mem_map.mp ho
  exact ⟨c, hc, hcovers⟩

theorem exists_kvCopy {x base : ℕ} (hbase : base = a.smemK ∨ base = a.smemV)
    (h : ∃ o ∈ a.loadOffsets (kTile * BLOCK_N), o ≤ x ∧ x < o + 8) :
    ∃ c ∈ a.kvCopies b mem kTile, c.Covers (base + x) := by
  obtain ⟨o, ho, hlow, hhigh⟩ := h
  have hmem : base + o ∈ (a.kvCopies b mem kTile).map AsyncCopy.dst := by
    rw [kvCopies_dst, List.mem_flatMap]
    refine ⟨o, ho, ?_⟩
    rcases hbase with rfl | rfl
    · exact List.mem_cons_self
    · exact List.mem_cons_of_mem _ List.mem_cons_self
  obtain ⟨c, hc, heq⟩ := List.mem_map.mp hmem
  refine ⟨c, hc, ?_, ?_⟩ <;> omega

end Phases

/-- The loads of a phase are right exactly when the sequence ends with the tile at the latest. -/
theorem loadsTiles_iff (a : KernelArgs) (b : BlockIdx) (mem : DeviceMemory) (kTile : ℕ) :
    a.LoadsTiles b mem kTile ↔
      a.seqLen ≤ qStart b + BLOCK_M ∧ a.seqLen ≤ kTile * BLOCK_N + BLOCK_N := by
  constructor
  · intro h
    exact ⟨(a.loadOffsets_inside_iff _).mp h.q_inside, (a.loadOffsets_inside_iff _).mp h.kv_inside⟩
  · rintro ⟨hq, hkv⟩
    have hinside := (a.loadOffsets_inside_iff _).mpr hkv
    exact {
      q_inside := (a.loadOffsets_inside_iff _).mpr hq
      kv_inside := hinside
      q_disjoint := by
        rw [pairwise_disjoint_iff, qCopies_dst]
        exact a.loadOffsets_pairwise _
      kv_disjoint := kvCopies_disjoint hinside
      q_filled := fun _ hrow hlen _ hcol => exists_qCopy (exists_loadOffset hrow hlen hcol)
      k_filled := fun _ hrow hlen _ hcol =>
        exists_kvCopy (Or.inl rfl) (exists_loadOffset hrow hlen hcol)
      v_filled := fun _ hrow hlen _ hcol =>
        exists_kvCopy (Or.inr rfl) (exists_loadOffset hrow hlen hcol) }

def zeroMemory : DeviceMemory where
  k _ := 0
  v _ := 0
  smem _ := 0
  order := ⟨fun _ copies => copies, fun _ _ => List.Perm.refl _⟩

/-- A sequence of 65 rows: the first K copy of row 64 lands at the begin of the V tile. -/
theorem rowBehindTile_copied :
    ¬(⟨64, Or.inl rfl, fun _ => 0, 65, 1, 1, false⟩ : KernelArgs).LoadsTiles ⟨0, 0, 0⟩
      zeroMemory 0 := by
  intro h
  have hend := h.kv_inside (8 * 512)
    (mem_loadOffsets.mpr ⟨512, by norm_num, by norm_num [loadRow, BLOCK_N], rfl⟩)
  simp only [BLOCK_N] at hend
  omega

end KernelArgs
end CudaForge.Kernels.Cuda
