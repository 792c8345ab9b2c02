import CudaForge.Memory.CacheCalls

/-!
How many blocks the pool can hand out in a row, in any state. It decides which calls throw, and a
call that throws has used it up.
-/
namespace CudaForge.Memory
open MachineWord

namespace PagedKVCache
variable {cfg : KVCacheConfig} {c c' c'' : PagedKVCache cfg} {b : Block cfg} {m n : ℕ}
  {promptTokens : List Int32}

/-- The cached blocks that an eviction can take when the free stack is used up. -/
def evictable (c : PagedKVCache cfg) : Finset (Block cfg) :=
  c.lruList.toFinset.filter fun b => (c.physicalBlocks b).refCount = 0 ∧ b ∉ c.freeBlockStack

/-- The number of calls of `allocate_physical_block` that succeed in a row. -/
def capacity (c : PagedKVCache cfg) : ℕ := c.freeBlockStack.length + c.evictable.card

/-- `free_blocks + cached_prefix_blocks` -/
def spareBlocks (c : PagedKVCache cfg) : ℕ := c.freeBlockStack.length + c.lruList.length

theorem mem_evictable : b ∈ c.evictable ↔
    b ∈ c.lruList ∧ (c.physicalBlocks b).refCount = 0 ∧ b ∉ c.freeBlockStack := by
  rw [evictable, Finset.mem_filter, List.mem_toFinset]

/-- Fill counts, hashes, the tree and the tables do not matter. -/
theorem capacity_congr (hfree : c'.freeBlockStack = c.freeBlockStack)
    (hlru : c'.lruList = c.lruList)
    (href : ∀ b, (c'.physicalBlocks b).refCount = (c.physicalBlocks b).refCount) :
    c'.capacity = c.capacity := by
  simp only [capacity, evictable, hfree, hlru, href]

section Allocate

theorem takeUnreferenced_none {blocks : Block cfg → PhysicalBlock} {l : List (Block cfg)} :
    takeUnreferenced blocks l = none ↔ ∀ b ∈ l, (blocks b).refCount ≠ 0 := by
  induction l with
  | nil => simp only [takeUnreferenced, List.not_mem_nil, false_implies, implies_true]
  | cons a l ih =>
    unfold takeUnreferenced
    rw [List.forall_mem_cons, ← ih]
    cases takeUnreferenced blocks l with
    | some victim => simp only [reduceCtorEq, and_false]
    | none =>
      simp only [and_true]
      split_ifs with href <;> simp only [href, ne_eq, not_true_eq_false, not_false_eq_true]

theorem evictLruBlock_none : c.evictLruBlock = none ↔
    ∀ b ∈ c.lruList, (c.physicalBlocks b).refCount ≠ 0 := by
  rw [evictLruBlock, Option.map_eq_none_iff, takeUnreferenced_none]

theorem allocatePhysicalBlock_none : c.allocatePhysicalBlock = none ↔ c.capacity = 0 := by
  cases hfree : c.freeBlockStack with
  | cons b rest =>
    simp only [allocatePhysicalBlock, hfree, List.isEmpty_cons, Bool.false_eq_true, if_false,
      Option.bind_some, reduceCtorEq, capacity, List.length_cons, false_iff]
    omega
  | nil =>
    have hcapacity : c.capacity = 0 ↔ c.evictLruBlock = none := by
      rw [capacity, hfree, List.length_nil, Nat.zero_add, Finset.card_eq_zero, evictLruBlock_none,
        Finset.eq_empty_iff_forall_notMem]
      simp only [mem_evictable, hfree, List.not_mem_nil, not_false_eq_true, and_true, not_and,
        ne_eq]
    rw [hcapacity]
    simp only [allocatePhysicalBlock, hfree, List.isEmpty_nil, if_true]
    cases hevict : c.evictLruBlock with
    | none => exact iff_of_true rfl rfl
    | some base =>
      obtain ⟨victim, rest, -, rfl⟩ := evictLruBlock_eq hevict
      simp only [Option.bind_some, reduceCtorEq]

/-- One block is taken off, wherever it comes from. -/
theorem allocatePhysicalBlock_capacity (h : c.allocatePhysicalBlock = some (b, c')) :
    c.capacity = c'.capacity + 1 ∧ c.spareBlocks = c'.spareBlocks + 1 := by
  obtain ⟨base, rest, hfree, rfl | ⟨hempty, hevict⟩, rfl⟩ := allocatePhysicalBlock_cases h
  · have hsame : evictable { base.setBlock b { base.physicalBlocks b with
        refCount := 1, numTokensFilled := 0, isCached := false } with freeBlockStack := rest } =
          base.evictable := by
      ext x
      simp only [mem_evictable, hfree, List.mem_cons, not_or, setBlock]
      rcases eq_or_ne x b with rfl | hx
      · simp only [Function.update_self, one_ne_zero, false_and, and_false, not_true_eq_false]
      · simp only [Function.update_of_ne hx, hx, not_false_eq_true, true_and]
    rw [capacity, capacity, hsame, hfree, List.length_cons, spareBlocks, spareBlocks, hfree,
      List.length_cons]
    simp only [setBlock]
    omega
  · obtain ⟨victim, lru, hvictim, rfl⟩ := evictLruBlock_eq hevict
    obtain ⟨href, hperm⟩ := takeUnreferenced_spec hvictim
    simp only [hempty, List.cons.injEq] at hfree
    obtain ⟨rfl, rfl⟩ := hfree
    have hmem : victim ∈ c.evictable := by
      rw [mem_evictable, hperm.mem_iff, hempty]
      exact ⟨List.mem_cons_self, href, List.not_mem_nil⟩
    have hlength := hperm.length_eq
    rw [List.length_cons] at hlength
    refine ⟨?_, ?_⟩
    · rw [capacity, capacity, hempty, ← Finset.card_erase_add_one hmem]
      simp only [List.length_nil, Nat.zero_add, Nat.add_right_cancel_iff]
      congr 1
      ext x
      rw [Finset.mem_erase, mem_evictable, mem_evictable, hperm.mem_iff, hempty, List.mem_cons]
      rcases eq_or_ne x victim with rfl | hx
      · simp only [setBlock_self, one_ne_zero, false_and, and_false, ne_eq, not_true_eq_false]
      · simp only [hx, false_or, ne_eq, not_false_eq_true, true_and, setBlock,
          Function.update_of_ne hx]
    · simp only [spareBlocks, hempty, List.length_nil, Nat.zero_add, hlength, setBlock]

end Allocate

/-- `n` blocks were handed out in between. -/
structure Taken (c c' : PagedKVCache cfg) (n : ℕ) : Prop where
  capacity_eq : c.capacity = c'.capacity + n
  spare_eq : c.spareBlocks = c'.spareBlocks + n
  unchanged : n = 0 → c' = c

theorem Taken.refl (c : PagedKVCache cfg) : c.Taken c 0 := ⟨rfl, rfl, fun _ => rfl⟩

theorem Taken.trans (h : c.Taken c' m) (h' : c'.Taken c'' n) : c.Taken c'' (m + n) where
  capacity_eq := by
    rw [h.capacity_eq, h'.capacity_eq]
    omega
  spare_eq := by
    rw [h.spare_eq, h'.spare_eq]
    omega
  unchanged hzero := by
    obtain ⟨rfl, rfl⟩ := Nat.add_eq_zero_iff.mp hzero
    exact (h'.unchanged rfl).trans (h.unchanged rfl)

/-- A block that is handed out and then only filled. -/
theorem Taken.allocate (ha : c.allocatePhysicalBlock = some (b, c'))
    (hfree : c''.freeBlockStack = c'.freeBlockStack) (hlru : c''.lruList = c'.lruList)
    (href : ∀ b, (c''.physicalBlocks b).refCount = (c'.physicalBlocks b).refCount) :
    c.Taken c'' 1 := by
  obtain ⟨hcapacity, hspare⟩ := allocatePhysicalBlock_capacity ha
  refine ⟨?_, ?_, fun h => absurd h one_ne_zero⟩
  · rw [capacity_congr hfree hlru href, hcapacity]
  · rw [hspare, spareBlocks, spareBlocks, hfree, hlru]

theorem setBlock_refCount {block : PhysicalBlock}
    (h : block.refCount = (c.physicalBlocks b).refCount) (x : Block cfg) :
    ((c.setBlock b block).physicalBlocks x).refCount = (c.physicalBlocks x).refCount := by
  rcases eq_or_ne x b with rfl | hx
  · rw [setBlock_self, h]
  · rw [setBlock_of_ne _ hx]

theorem setTokens_capacity (c : PagedKVCache cfg) (b : Block cfg) (n : ℕ) :
    (c.setTokens b n).capacity = c.capacity :=
  capacity_congr rfl rfl (setBlock_refCount rfl)

section Register

/-- The fill loop takes a block for each of its turns, as far as there are any. -/
theorem fillLoop_taken (blocks : List (List Int32)) {r : Registration cfg}
    (hr : r.outOfPages = false) :
    ((fillLoop blocks r).outOfPages = true ↔ r.cache.capacity < blocks.length) ∧
      r.cache.Taken (fillLoop blocks r).cache (min blocks.length r.cache.capacity) ∧
      (fillLoop blocks r).blockTable.length =
        r.blockTable.length + min blocks.length r.cache.capacity := by
  induction blocks generalizing r with
  | nil =>
    simp only [fillLoop, hr, Bool.false_eq_true, List.length_nil, Nat.not_lt_zero, Nat.zero_min,
      Nat.add_zero, true_and, and_true]
    exact Taken.refl _
  | cons tokens rest ih =>
    unfold fillLoop
    cases halloc : r.cache.allocatePhysicalBlock with
    | none =>
      rw [allocatePhysicalBlock_none.mp halloc, Nat.min_zero]
      simp only [List.length_cons, Nat.zero_lt_succ, Nat.add_zero, true_and, and_true]
      exact Taken.refl _
    | some found =>
      obtain ⟨b, cache⟩ := found
      have hstep : r.cache.Taken (r.fillStep tokens b cache).cache 1 :=
        Taken.allocate halloc rfl rfl (setBlock_refCount rfl)
      obtain ⟨hthrow, htaken, hlength⟩ := ih (r := r.fillStep tokens b cache) hr
      have hcapacity := hstep.capacity_eq
      have hmin : min (rest.length + 1) r.cache.capacity =
          1 + min rest.length (r.fillStep tokens b cache).cache.capacity := by omega
      simp only [List.length_cons, hmin]
      refine ⟨hthrow.trans (by omega), hstep.trans htaken, ?_⟩
      rw [hlength, Registration.fillStep, List.length_append, List.length_singleton, Nat.add_assoc]

theorem tailStep_taken (tail : ℕ) {r : Registration cfg} (hr : r.outOfPages = false) :
    let more := if tail > 0 ∨ r.blockTable = [] then 1 else 0
    ((tailStep tail r).outOfPages = true ↔ r.cache.capacity < more) ∧
      r.cache.Taken (tailStep tail r).cache (min more r.cache.capacity) := by
  simp only [tailStep]
  split_ifs with htail
  · cases halloc : r.cache.allocatePhysicalBlock with
    | none =>
      rw [allocatePhysicalBlock_none.mp halloc, Nat.min_zero]
      exact ⟨iff_of_true rfl Nat.one_pos, Taken.refl _⟩
    | some found =>
      obtain ⟨b, cache⟩ := found
      have hstep : r.cache.Taken (cache.setTokens b tail) 1 :=
        Taken.allocate halloc rfl rfl (setBlock_refCount rfl)
      have hcapacity := hstep.capacity_eq
      rw [Nat.min_eq_left (by omega)]
      refine ⟨?_, hstep⟩
      simp only [hr, Bool.false_eq_true, false_iff]
      omega
  · rw [Nat.zero_min]
    refine ⟨?_, Taken.refl _⟩
    simp only [hr, Bool.false_eq_true, Nat.not_lt_zero]

/-- The size of a prompt's table; the prompt's size is cast to `uint32_t`. -/
def neededBlocks (cfg : KVCacheConfig) (promptTokens : List Int32) : ℕ :=
  max ((promptTokens.length % 2 ^ 32 + cfg.blockSize - 1) / cfg.blockSize) 1

def furtherBlocks (c : PagedKVCache cfg) (promptTokens : List Int32) : ℕ :=
  neededBlocks cfg promptTokens - (c.reusedBlocks promptTokens).length

theorem neededBlocks_eq (cfg : KVCacheConfig) (promptTokens : List Int32) :
    neededBlocks cfg promptTokens = (promptBlocks cfg promptTokens).length +
      if tailTokens cfg promptTokens > 0 ∨ (promptBlocks cfg promptTokens).length = 0 then 1
      else 0 := by
  rw [neededBlocks, promptBlocks_length, tailTokens]
  generalize promptTokens.length % 2 ^ 32 = total
  have hpos := cfg.blockSize_pos
  generalize cfg.blockSize = size at hpos ⊢
  have hsplit : total + size - 1 = total % size + size - 1 + total / size * size := by
    have h := Nat.mod_add_div total size
    rw [Nat.mul_comm] at h
    omega
  rw [hsplit, Nat.add_mul_div_right _ _ hpos]
  have hlt := Nat.mod_lt total hpos
  generalize total / size = full
  rcases Nat.eq_zero_or_pos (total % size) with hzero | htail
  · rw [hzero, Nat.zero_add, Nat.div_eq_of_lt (by omega), Nat.zero_add]
    split_ifs <;> omega
  · have hone : (total % size + size - 1) / size = 1 := by
      rw [Nat.div_eq_iff hpos]
      omega
    rw [hone, if_pos (Or.inl htail)]
    omega

/-- A registration throws when its further blocks exceed the capacity that the match loop leaves,
and it takes blocks from there as far as there are any. -/
theorem buildTable_taken (c : PagedKVCache cfg) (promptTokens : List Int32) :
    ((c.buildTable promptTokens).outOfPages = true ↔
        (c.afterMatch promptTokens).cache.capacity < c.furtherBlocks promptTokens) ∧
      (c.afterMatch promptTokens).cache.Taken (c.buildTable promptTokens).cache
        (min (c.furtherBlocks promptTokens) (c.afterMatch promptTokens).cache.capacity) := by
  obtain ⟨hthrow, htaken, hlength⟩ := fillLoop_taken ((promptBlocks cfg promptTokens).drop
    (c.reusedBlocks promptTokens).length) (show (c.afterMatch promptTokens).outOfPages = false from
      afterMatch_outOfPages)
  have hle := reusedBlocks_length_le c promptTokens
  rw [buildTable_eq, furtherBlocks, neededBlocks_eq]
  rw [List.length_drop] at hthrow htaken hlength
  rw [afterMatch_blockTable] at hlength
  generalize fillLoop ((promptBlocks cfg promptTokens).drop
    (c.reusedBlocks promptTokens).length) (c.afterMatch promptTokens) = filled
    at hthrow htaken hlength ⊢
  generalize (c.afterMatch promptTokens).cache = base at hthrow htaken hlength ⊢
  generalize (promptBlocks cfg promptTokens).length = full at *
  cases hout : filled.outOfPages with
  | true =>
    have hshort := hthrow.mp hout
    simp only [hout, if_true, true_iff]
    refine ⟨by omega, ?_⟩
    rwa [show min _ base.capacity = min (full - (c.reusedBlocks promptTokens).length)
      base.capacity by omega]
  | false =>
    have henough := mt hthrow.mpr (Bool.eq_false_iff.mp hout)
    simp only [hout, Bool.false_eq_true, if_false]
    rw [Nat.min_eq_left (Nat.not_lt.mp henough)] at htaken hlength
    have hnil : filled.blockTable = [] ↔ full = 0 := by
      rw [← List.length_eq_zero_iff, hlength]
      omega
    obtain ⟨htailthrow, htail⟩ := tailStep_taken (tailTokens cfg promptTokens) hout
    simp only [hnil] at htailthrow htail
    have hcapacity := htaken.capacity_eq
    refine ⟨htailthrow.trans ?_, ?_⟩
    · omega
    · have hboth := htaken.trans htail
      rwa [show min _ base.capacity = full - (c.reusedBlocks promptTokens).length +
        min (if tailTokens cfg promptTokens > 0 ∨ full = 0 then 1 else 0)
          filled.cache.capacity by omega]

end Register

section Append

/-- The loop of an append throws when its blocks exceed the capacity; its table grows as far as
there are any. -/
theorem appendLoop_taken (sequenceId additional remaining : ℕ) (table : List (Block cfg))
    (c : PagedKVCache cfg) :
    ((appendLoop sequenceId additional remaining table c).1 =
        .error (.outOfPages cfg.totalGpuBlocks) ↔ c.capacity < additional) ∧
      c.Taken (appendLoop sequenceId additional remaining table c).2
        (min additional c.capacity) := by
  induction additional generalizing remaining table c with
  | zero =>
    simp only [appendLoop, reduceCtorEq, Nat.not_lt_zero, Nat.zero_min, true_and]
    exact Taken.refl c
  | succ additional ih =>
    unfold appendLoop
    cases halloc : c.allocatePhysicalBlock with
    | none =>
      rw [allocatePhysicalBlock_none.mp halloc, Nat.min_zero]
      simp only [Nat.zero_lt_succ, true_and]
      exact Taken.refl c
    | some found =>
      obtain ⟨b, cache⟩ := found
      have hstep : c.Taken { cache.setTokens b (min remaining cfg.blockSize) with
          pageTables := cache.pageTables.insert sequenceId (table ++ [b]) } 1 :=
        Taken.allocate halloc rfl rfl (setBlock_refCount rfl)
      obtain ⟨hthrow, htaken⟩ := ih (remaining - min remaining cfg.blockSize) (table ++ [b])
        { cache.setTokens b (min remaining cfg.blockSize) with
          pageTables := cache.pageTables.insert sequenceId (table ++ [b]) }
      have hcapacity := hstep.capacity_eq
      have hmin : min (additional + 1) c.capacity = 1 + min additional
          (capacity { cache.setTokens b (min remaining cfg.blockSize) with
            pageTables := cache.pageTables.insert sequenceId (table ++ [b]) }) := by omega
      rw [hmin]
      exact ⟨hthrow.trans (by omega), hstep.trans htaken⟩

def additionalBlocks (c : PagedKVCache cfg) (last : Block cfg) (numTokens : ℕ) : ℕ :=
  let available := sub 32 cfg.blockSize (c.physicalBlocks last).numTokensFilled
  if numTokens ≤ available then 0
  else sub 32 (add 32 (numTokens - available) cfg.blockSize) 1 / cfg.blockSize

end Append
end PagedKVCache
end CudaForge.Memory
