import CudaForge.Memory.CacheCalls

/-! Ownership of the physical blocks: free, cached for their prefix, or referenced. -/
namespace CudaForge.Memory
open MachineWord FiniteMap

namespace PagedKVCache
variable {cfg : KVCacheConfig} {c c' : PagedKVCache cfg} {b x : Block cfg}
  {held held' : Multiset (Block cfg)}

/-- The lists a block is on are read off its flags, and its references cover `n` holders. -/
structure Classified (c : PagedKVCache cfg) (b : Block cfg) (n : ℕ) : Prop where
  mem_free : b ∈ c.freeBlockStack ↔
    (c.physicalBlocks b).refCount = 0 ∧ (c.physicalBlocks b).isCached = false
  mem_lru : b ∈ c.lruList ↔ (c.physicalBlocks b).isCached = true
  cached_idle : (c.physicalBlocks b).isCached = true →
    (c.physicalBlocks b).refCount = 0 ∧ (c.physicalBlocks b).lruIterator = true
  held_le : n ≤ (c.physicalBlocks b).refCount

structure Partitioned (c : PagedKVCache cfg) (held : Multiset (Block cfg)) : Prop where
  free_nodup : c.freeBlockStack.Nodup
  lru_nodup : c.lruList.Nodup
  classified : ∀ b, c.Classified b (held.count b)

/-- The blocks of the registered tables, as often as they occur. -/
def ownedBlocks (c : PagedKVCache cfg) : Multiset (Block cfg) :=
  total (fun _ (table : List (Block cfg)) => (table : Multiset (Block cfg))) c.pageTables

theorem mem_ownedBlocks {sequenceId : ℕ} {table : List (Block cfg)}
    (h : c.pageTables.lookup sequenceId = some table) (hb : b ∈ table) : b ∈ c.ownedBlocks :=
  Multiset.mem_of_le (le_total (f := fun _ (table : List (Block cfg)) =>
    (table : Multiset (Block cfg))) h) hb

theorem init_partitioned : (init cfg).Partitioned 0 where
  free_nodup := List.nodup_finRange _
  lru_nodup := List.nodup_nil
  classified b :=
    { mem_free := by simp only [init, List.mem_finRange, and_self]
      mem_lru := by simp only [init, List.not_mem_nil, Bool.false_eq_true]
      cached_idle := fun h => by simp only [init, Bool.false_eq_true] at h
      held_le := Nat.zero_le _ }

namespace Partitioned

theorem mono (h : c.Partitioned held) (hle : held' ≤ held) : c.Partitioned held' :=
  { h with classified := fun b =>
      { h.classified b with
        held_le := (Multiset.count_le_of_le b hle).trans (h.classified b).held_le } }

/-- Fill counts and hashes do not matter. -/
theorem congr (h : c.Partitioned held) (hfree : c'.freeBlockStack = c.freeBlockStack)
    (hlru : c'.lruList = c.lruList)
    (href : ∀ b, (c'.physicalBlocks b).refCount = (c.physicalBlocks b).refCount)
    (hcached : ∀ b, (c'.physicalBlocks b).isCached = (c.physicalBlocks b).isCached)
    (hiterator : ∀ b, (c'.physicalBlocks b).lruIterator = (c.physicalBlocks b).lruIterator) :
    c'.Partitioned held where
  free_nodup := hfree ▸ h.free_nodup
  lru_nodup := hlru ▸ h.lru_nodup
  classified b :=
    { mem_free := by rw [hfree, href, hcached]; exact (h.classified b).mem_free
      mem_lru := by rw [hlru, hcached]; exact (h.classified b).mem_lru
      cached_idle := by rw [href, hcached, hiterator]; exact (h.classified b).cached_idle
      held_le := by rw [href]; exact (h.classified b).held_le }

/-- Only the block `b` was touched, and it is classified again. -/
theorem touch (h : c.Partitioned held) (hfree : c'.freeBlockStack.Nodup) (hlru : c'.lruList.Nodup)
    (hother : ∀ x ≠ b, c'.physicalBlocks x = c.physicalBlocks x ∧
      (x ∈ c'.freeBlockStack ↔ x ∈ c.freeBlockStack) ∧ (x ∈ c'.lruList ↔ x ∈ c.lruList) ∧
      held'.count x = held.count x)
    (hb : c'.Classified b (held'.count b)) : c'.Partitioned held' where
  free_nodup := hfree
  lru_nodup := hlru
  classified x := by
    rcases eq_or_ne x b with rfl | hx
    · exact hb
    · obtain ⟨hblock, hf, hl, hheld⟩ := hother x hx
      have hc := h.classified x
      refine ⟨?_, ?_, ?_, ?_⟩
      · rw [hf, hblock]
        exact hc.mem_free
      · rw [hl, hblock]
        exact hc.mem_lru
      · rw [hblock]
        exact hc.cached_idle
      · rw [hheld, hblock]
        exact hc.held_le

/-- The congruence for a change of one block. -/
theorem setBlock (h : c.Partitioned held) (block : PhysicalBlock)
    (href : block.refCount = (c.physicalBlocks b).refCount)
    (hcached : block.isCached = (c.physicalBlocks b).isCached)
    (hiterator : block.lruIterator = (c.physicalBlocks b).lruIterator) :
    (c.setBlock b block).Partitioned held := by
  have heq {α : Type} (f : PhysicalBlock → α) (hf : f block = f (c.physicalBlocks b))
      (x : Block cfg) : f ((c.setBlock b block).physicalBlocks x) = f (c.physicalBlocks x) := by
    rcases eq_or_ne x b with rfl | hx
    · rw [setBlock_self, hf]
    · rw [setBlock_of_ne _ hx]
  exact h.congr rfl rfl (heq _ href) (heq _ hcached) (heq _ hiterator)

theorem setTokens (h : c.Partitioned held) (n : ℕ) : (c.setTokens b n).Partitioned held :=
  h.setBlock _ rfl rfl rfl

theorem fillBlock (h : c.Partitioned held) (blockHash : UInt64) (path : List UInt64) :
    (c.fillBlock b blockHash path).Partitioned held :=
  (h.setBlock (b := b) { c.physicalBlocks b with
    numTokensFilled := cfg.blockSize, hashValue := blockHash } rfl rfl rfl).congr rfl rfl
    (fun _ => rfl) (fun _ => rfl) fun _ => rfl

theorem not_mem_free_of_held (h : c.Partitioned held) (hb : b ∈ held) :
    b ∉ c.freeBlockStack := by
  have hpos := (Multiset.count_pos.mpr hb).trans_le (h.classified b).held_le
  exact fun hfree => hpos.ne' ((h.classified b).mem_free.mp hfree).1

theorem disjoint (h : c.Partitioned held) : c.freeBlockStack.Disjoint c.lruList := by
  intro b hfree hlru
  have hcached := (h.classified b).mem_lru.mp hlru
  rw [((h.classified b).mem_free.mp hfree).2] at hcached
  exact Bool.false_ne_true hcached

/-- A new reference on a block that is not free. -/
theorem shareBlock (h : c.Partitioned held) (hfree : b ∉ c.freeBlockStack)
    (href : (c.physicalBlocks b).refCount + 1 < 2 ^ 32) :
    (c.shareBlock b).Partitioned (b ::ₘ held) := by
  have hself : (c.shareBlock b).physicalBlocks b = { c.physicalBlocks b with
      refCount := (c.physicalBlocks b).refCount + 1
      isCached := false
      lruIterator := (c.physicalBlocks b).lruIterator && !(c.physicalBlocks b).isCached } := by
    rw [shareBlock_physicalBlocks, Function.update_self, add_eq href]
  have hlru : ∀ x, x ∈ (c.shareBlock b).lruList ↔ x ≠ b ∧ x ∈ c.lruList := by
    intro x
    rw [shareBlock_lruList]
    split_ifs with hc
    · exact h.lru_nodup.mem_erase_iff
    · refine ⟨fun hx => ⟨?_, hx⟩, And.right⟩
      rintro rfl
      have hcached := (h.classified x).mem_lru.mp hx
      exact hc ⟨hcached, ((h.classified x).cached_idle hcached).2⟩
  refine h.touch (b := b) ?_ ?_ (fun x hx => ⟨?_, ?_, ?_, ?_⟩) ⟨?_, ?_, ?_, ?_⟩
  · rw [shareBlock_freeBlockStack]
    exact h.free_nodup
  · rw [shareBlock_lruList]
    split_ifs
    · exact h.lru_nodup.erase b
    · exact h.lru_nodup
  · rw [shareBlock_physicalBlocks, Function.update_of_ne hx]
  · rw [shareBlock_freeBlockStack]
  · rw [hlru, and_iff_right hx]
  · rw [Multiset.count_cons_of_ne hx]
  · simp only [shareBlock_freeBlockStack, hself, hfree, Nat.add_one_ne_zero, false_and]
  · simp only [hlru, hself, ne_eq, not_true_eq_false, false_and, Bool.false_eq_true]
  · simp only [hself, Bool.false_eq_true, false_implies]
  · rw [hself, Multiset.count_cons_self]
    exact Nat.succ_le_succ (h.classified b).held_le

theorem shareBlocks {ids : List (Block cfg)} (h : c.Partitioned held)
    (hfree : ∀ b ∈ ids, b ∉ c.freeBlockStack)
    (href : ∀ b, (c.physicalBlocks b).refCount + ids.count b < 2 ^ 32) :
    (ids.foldl PagedKVCache.shareBlock c).Partitioned (ids + held) := by
  induction ids generalizing c held with
  | nil => exact h.mono (zero_add held).le
  | cons b ids ih =>
    have hb := href b
    rw [List.count_cons_self] at hb
    have hshared := h.shareBlock (hfree b List.mem_cons_self) (by omega)
    refine (ih hshared ?_ fun x => ?_).mono ?_
    · intro x hx
      rw [shareBlock_freeBlockStack]
      exact hfree x (List.mem_cons_of_mem b hx)
    · rw [shareBlock_physicalBlocks]
      rcases eq_or_ne x b with rfl | hx
      · rw [Function.update_self, add_eq (by omega)]
        simp only
        omega
      · rw [Function.update_of_ne hx, ← List.count_cons_of_ne (Ne.symm hx)]
        exact href x
    · rw [← Multiset.cons_coe, Multiset.cons_add, Multiset.add_cons]

/-- Eviction moves a block from the LRU list to the free stack. -/
theorem evictLruBlock (h : c.Partitioned held) (he : c.evictLruBlock = some c') :
    c'.Partitioned held := by
  obtain ⟨victim, rest, hvictim, rfl⟩ := evictLruBlock_eq he
  obtain ⟨href, hperm⟩ := takeUnreferenced_spec hvictim
  obtain ⟨hnotin, hrest⟩ := List.nodup_cons.mp (hperm.nodup h.lru_nodup)
  have hlru : ∀ x, x ∈ c.lruList ↔ x = victim ∨ x ∈ rest := fun x =>
    hperm.mem_iff.trans List.mem_cons
  have hnotfree : victim ∉ c.freeBlockStack := fun hfree =>
    h.disjoint hfree ((hlru victim).mpr (Or.inl rfl))
  refine h.touch (b := victim) (List.nodup_cons.mpr ⟨hnotfree, h.free_nodup⟩) hrest
    (fun x hx => ⟨setBlock_of_ne _ hx, ?_, ?_, rfl⟩) ⟨?_, ?_, ?_, ?_⟩
  · exact List.mem_cons.trans (or_iff_right hx)
  · rw [hlru, or_iff_right hx]
  · simp only [List.mem_cons_self, setBlock_self, href, and_self]
  · simp only [setBlock_self, Bool.false_eq_true, iff_false]
    exact hnotin
  · simp only [setBlock_self, Bool.false_eq_true, false_implies]
  · simp only [setBlock_self]
    exact (h.classified victim).held_le

/-- The block from the top of the free stack was held by nobody. -/
theorem pop {rest : List (Block cfg)} (h : c.Partitioned held)
    (hfree : c.freeBlockStack = b :: rest) :
    b ∉ held ∧ PagedKVCache.Partitioned { c.setBlock b { c.physicalBlocks b with
      refCount := 1, numTokensFilled := 0, isCached := false } with
      freeBlockStack := rest } (b ::ₘ held) := by
  have hmem : b ∈ c.freeBlockStack := hfree ▸ List.mem_cons_self
  obtain ⟨href, hcached⟩ := (h.classified b).mem_free.mp hmem
  obtain ⟨hnotin, hrest⟩ := List.nodup_cons.mp (hfree ▸ h.free_nodup)
  refine ⟨fun hheld => h.not_mem_free_of_held hheld hmem, h.touch (b := b) hrest h.lru_nodup
    (fun x hx => ⟨setBlock_of_ne _ hx, ?_, Iff.rfl, Multiset.count_cons_of_ne hx _⟩)
    ⟨?_, ?_, ?_, ?_⟩⟩
  · rw [hfree, List.mem_cons, or_iff_right hx]
  · simp only [setBlock_self, hnotin, Nat.one_ne_zero, false_and]
  · simp only [setBlock_self]
    exact (h.classified b).mem_lru.trans (by rw [hcached])
  · simp only [setBlock_self, Bool.false_eq_true, false_implies]
  · have hle := (h.classified b).held_le
    simp only [setBlock_self, Multiset.count_cons_self]
    omega

theorem allocatePhysicalBlock (h : c.Partitioned held)
    (ha : c.allocatePhysicalBlock = some (b, c')) :
    b ∉ held ∧ c'.Partitioned (b ::ₘ held) := by
  obtain ⟨base, rest, hfree, hbase, rfl⟩ := allocatePhysicalBlock_cases ha
  have hpart : base.Partitioned held := by
    rcases hbase with rfl | ⟨-, hevict⟩
    · exact h
    · exact h.evictLruBlock hevict
  exact hpart.pop hfree

/-- A reference is given back; the block's last one makes it cached or free. -/
theorem freePhysicalBlock (h : c.Partitioned (b ::ₘ held)) :
    (c.freePhysicalBlock b).Partitioned held := by
  have hcount := (h.classified b).held_le
  rw [Multiset.count_cons_self] at hcount
  have hpos : (c.physicalBlocks b).refCount ≠ 0 := by omega
  have hheld : ∀ x ≠ b, held.count x = (b ::ₘ held).count x := fun x hx =>
    (Multiset.count_cons_of_ne hx held).symm
  have hnotfree : b ∉ c.freeBlockStack := fun hb => hpos ((h.classified b).mem_free.mp hb).1
  have hnotcached : (c.physicalBlocks b).isCached = false :=
    Bool.eq_false_iff.mpr fun hc => hpos ((h.classified b).cached_idle hc).1
  have hnotlru : b ∉ c.lruList := fun hb => by
    rw [(h.classified b).mem_lru, hnotcached] at hb
    exact Bool.false_ne_true hb
  unfold PagedKVCache.freePhysicalBlock
  simp only [hpos, if_false]
  split_ifs with hzero hhash
  · refine h.touch (b := b) h.free_nodup (List.nodup_cons.mpr ⟨hnotlru, h.lru_nodup⟩)
      (fun x hx => ⟨setBlock_of_ne _ hx, Iff.rfl, ?_, hheld x hx⟩) ⟨?_, ?_, ?_, ?_⟩
    · exact List.mem_cons.trans (or_iff_right hx)
    · simp only [setBlock_self, Bool.true_eq_false, and_false, iff_false]
      exact hnotfree
    · simp only [setBlock_self, List.mem_cons_self]
    · simp only [setBlock_self, hzero, and_self, implies_true]
    · simp only [setBlock_self]
      omega
  · refine h.touch (b := b) (List.nodup_cons.mpr ⟨hnotfree, h.free_nodup⟩) h.lru_nodup
      (fun x hx => ⟨setBlock_of_ne _ hx, ?_, Iff.rfl, hheld x hx⟩) ⟨?_, ?_, ?_, ?_⟩
    · exact List.mem_cons.trans (or_iff_right hx)
    · simp only [setBlock_self, List.mem_cons_self, hzero, hnotcached, and_self]
    · simp only [setBlock_self]
      exact (h.classified b).mem_lru
    · simp only [setBlock_self, hnotcached, Bool.false_eq_true, false_implies]
    · simp only [setBlock_self]
      omega
  · refine h.touch (b := b) h.free_nodup h.lru_nodup
      (fun x hx => ⟨setBlock_of_ne _ hx, Iff.rfl, Iff.rfl, hheld x hx⟩) ⟨?_, ?_, ?_, ?_⟩
    · simp only [setBlock_self, hzero, false_and, iff_false]
      exact hnotfree
    · simp only [setBlock_self]
      exact (h.classified b).mem_lru
    · simp only [setBlock_self, hnotcached, Bool.false_eq_true, false_implies]
    · simp only [setBlock_self]
      omega

theorem freePhysicalBlocks {table : List (Block cfg)} (h : c.Partitioned (table + held)) :
    (table.foldl PagedKVCache.freePhysicalBlock c).Partitioned held := by
  induction table generalizing c with
  | nil => exact h.mono (zero_add held).ge
  | cons b table ih =>
    rw [← Multiset.cons_coe, Multiset.cons_add] at h
    exact ih h.freePhysicalBlock

end Partitioned
end PagedKVCache
end CudaForge.Memory
