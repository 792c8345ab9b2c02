import CudaForge.Memory.FailedCalls
import CudaForge.Memory.HashSharing

/-!
Which calls find room in the pool. As long as nothing was evicted, the free and the cached blocks
are exactly what can be handed out, and what is handed out belonged to no sequence.
-/
namespace CudaForge.Memory
open MachineWord FiniteMap Transition

def PhysicalBlock.place (block : PhysicalBlock) : ℕ × Bool × Bool :=
  (block.refCount, block.isCached, block.lruIterator)

namespace PagedKVCache
variable {cfg : KVCacheConfig} {c c' c'' : PagedKVCache cfg} {b x : Block cfg}
  {sequenceId : ℕ} {ids fresh table : List (Block cfg)} {promptTokens : List Int32}

def Spare (c : PagedKVCache cfg) (b : Block cfg) : Prop := b ∈ c.freeBlockStack ∨ b ∈ c.lruList

/-- The two lists are apart and hold blocks without references. Counts may wrap. -/
structure Listed (c : PagedKVCache cfg) : Prop where
  free_nodup : c.freeBlockStack.Nodup
  lru_nodup : c.lruList.Nodup
  disjoint : c.freeBlockStack.Disjoint c.lruList
  idle : ∀ b, c.Spare b → (c.physicalBlocks b).refCount = 0
  mem_lru : ∀ b, b ∈ c.lruList ↔ (c.physicalBlocks b).isCached = true
  iterator : ∀ b ∈ c.lruList, (c.physicalBlocks b).lruIterator = true

theorem init_listed : (init cfg).Listed where
  free_nodup := List.nodup_finRange _
  lru_nodup := List.nodup_nil
  disjoint _ _ h := absurd h List.not_mem_nil
  idle _ _ := rfl
  mem_lru b := by simp only [init, List.not_mem_nil, Bool.false_eq_true]
  iterator _ h := absurd h List.not_mem_nil

namespace Listed

/-- Fill counts and hashes do not matter. -/
theorem congr (h : c.Listed) (hfree : c'.freeBlockStack = c.freeBlockStack)
    (hlru : c'.lruList = c.lruList)
    (hplace : ∀ b, (c'.physicalBlocks b).place = (c.physicalBlocks b).place) : c'.Listed where
  free_nodup := hfree ▸ h.free_nodup
  lru_nodup := hlru ▸ h.lru_nodup
  disjoint := by
    rw [hfree, hlru]
    exact h.disjoint
  idle b hb := by
    rw [Spare, hfree, hlru] at hb
    have href := congrArg Prod.fst (hplace b)
    exact href.trans (h.idle b hb)
  mem_lru b := by
    have hcached := congrArg (fun place => place.2.1) (hplace b)
    simp only [PhysicalBlock.place] at hcached
    rw [hlru, hcached]
    exact h.mem_lru b
  iterator b hb := by
    have hiterator := congrArg (fun place => place.2.2) (hplace b)
    exact hiterator.trans (h.iterator b (hlru ▸ hb))

/-- Only the block `b` was touched, and its place is checked again. -/
theorem touch (h : c.Listed) (hfree : c'.freeBlockStack.Nodup) (hlru : c'.lruList.Nodup)
    (hother : ∀ x ≠ b, c'.physicalBlocks x = c.physicalBlocks x ∧
      (x ∈ c'.freeBlockStack ↔ x ∈ c.freeBlockStack) ∧ (x ∈ c'.lruList ↔ x ∈ c.lruList))
    (hdisjoint : b ∈ c'.freeBlockStack → b ∉ c'.lruList)
    (hidle : c'.Spare b → (c'.physicalBlocks b).refCount = 0)
    (hmem : b ∈ c'.lruList ↔ (c'.physicalBlocks b).isCached = true)
    (hiterator : b ∈ c'.lruList → (c'.physicalBlocks b).lruIterator = true) : c'.Listed where
  free_nodup := hfree
  lru_nodup := hlru
  disjoint x hx hx' := by
    rcases eq_or_ne x b with rfl | hne
    · exact hdisjoint hx hx'
    · obtain ⟨-, hf, hl⟩ := hother x hne
      exact h.disjoint (hf.mp hx) (hl.mp hx')
  idle x hx := by
    rcases eq_or_ne x b with rfl | hne
    · exact hidle hx
    · obtain ⟨hblock, hf, hl⟩ := hother x hne
      rw [hblock]
      exact h.idle x (hx.imp hf.mp hl.mp)
  mem_lru x := by
    rcases eq_or_ne x b with rfl | hne
    · exact hmem
    · obtain ⟨hblock, -, hl⟩ := hother x hne
      rw [hl, hblock]
      exact h.mem_lru x
  iterator x hx := by
    rcases eq_or_ne x b with rfl | hne
    · exact hiterator hx
    · obtain ⟨hblock, -, hl⟩ := hother x hne
      rw [hblock]
      exact h.iterator x (hl.mp hx)

theorem capacity_eq (h : c.Listed) : c.capacity = c.freeBlockStack.length + c.lruList.length := by
  rw [capacity, evictable, ← List.toFinset_card_of_nodup h.lru_nodup]
  congr 2
  apply Finset.filter_true_of_mem
  intro b hb
  have hlru := List.mem_toFinset.mp hb
  exact ⟨h.idle b (Or.inr hlru), fun hfree => h.disjoint hfree hlru⟩

/-- A shared block leaves the LRU list if it was there. -/
theorem mem_shareBlock (h : c.Listed) :
    x ∈ (c.shareBlock b).lruList ↔ x ∈ c.lruList ∧ x ≠ b := by
  rw [shareBlock_lruList]
  split_ifs with hcached
  · rw [h.lru_nodup.mem_erase_iff, and_comm]
  · refine ⟨fun hx => ⟨hx, ?_⟩, And.left⟩
    rintro rfl
    exact hcached ⟨(h.mem_lru x).mp hx, h.iterator x hx⟩

theorem shareBlock (h : c.Listed) (hb : b ∉ c.freeBlockStack) : (c.shareBlock b).Listed := by
  have hnot : b ∉ (c.shareBlock b).lruList := fun hmem => (h.mem_shareBlock.mp hmem).2 rfl
  refine h.touch (b := b) ?_ ?_ (fun x hx => ⟨?_, ?_, ?_⟩) (fun _ => hnot) (fun hspare => ?_)
    (iff_of_false hnot ?_) fun hmem => absurd hmem hnot
  · rw [shareBlock_freeBlockStack]
    exact h.free_nodup
  · rw [shareBlock_lruList]
    split_ifs
    · exact h.lru_nodup.erase b
    · exact h.lru_nodup
  · rw [shareBlock_physicalBlocks, Function.update_of_ne hx]
  · rw [shareBlock_freeBlockStack]
  · rw [h.mem_shareBlock, and_iff_left hx]
  · rw [Spare, shareBlock_freeBlockStack] at hspare
    exact absurd hspare (not_or.mpr ⟨hb, hnot⟩)
  · rw [shareBlock_physicalBlocks, Function.update_self]
    exact Bool.false_ne_true

theorem shareBlocks (h : c.Listed) (hids : ∀ b ∈ ids, b ∉ c.freeBlockStack) :
    (ids.foldl PagedKVCache.shareBlock c).Listed ∧
      (ids.foldl PagedKVCache.shareBlock c).freeBlockStack = c.freeBlockStack ∧
      ∀ x, x ∈ (ids.foldl PagedKVCache.shareBlock c).lruList ↔ x ∈ c.lruList ∧ x ∉ ids := by
  induction ids generalizing c with
  | nil => exact ⟨h, rfl, fun x => (and_iff_left List.not_mem_nil).symm⟩
  | cons b ids ih =>
    obtain ⟨hb, hrest⟩ := List.forall_mem_cons.mp hids
    obtain ⟨hlisted, hfree, hlru⟩ := ih (h.shareBlock hb)
      (by rwa [shareBlock_freeBlockStack])
    refine ⟨hlisted, hfree.trans shareBlock_freeBlockStack, fun x => ?_⟩
    rw [List.foldl_cons, hlru, h.mem_shareBlock, List.mem_cons, not_or, and_assoc]

/-- What is left beside matched blocks: the free blocks and the cached ones that are not matched. -/
theorem capacityBesides_eq (h : c.Listed) (hids : ∀ b ∈ ids, b ∉ c.freeBlockStack) :
    c.capacityBesides ids =
      c.freeBlockStack.length + (c.lruList.filter fun b => b ∉ ids).length := by
  obtain ⟨hlisted, hfree, hlru⟩ := h.shareBlocks hids
  rw [capacityBesides, hlisted.capacity_eq, hfree]
  congr 1
  apply List.Perm.length_eq
  rw [List.perm_ext_iff_of_nodup hlisted.lru_nodup (h.lru_nodup.filter _)]
  intro x
  rw [hlru, List.mem_filter, decide_eq_true_iff]

theorem freePhysicalBlock (h : c.Listed) (b : Block cfg) : (c.freePhysicalBlock b).Listed := by
  unfold PagedKVCache.freePhysicalBlock
  simp only
  split_ifs with hzero hlast hhash
  · exact h
  all_goals
    obtain ⟨hfree, hlru⟩ := not_or.mp fun hspare => hzero (h.idle b hspare)
    have hnotcached := mt (h.mem_lru b).mpr hlru
  · refine h.touch (b := b) h.free_nodup (List.nodup_cons.mpr ⟨hlru, h.lru_nodup⟩)
      (fun x hx => ⟨setBlock_of_ne _ hx, Iff.rfl, ?_⟩) (fun hmem => absurd hmem hfree) ?_ ?_ ?_
    · exact List.mem_cons.trans (or_iff_right hx)
    · simp only [setBlock_self, hlast, implies_true]
    · simp only [setBlock_self, List.mem_cons_self]
    · simp only [setBlock_self, implies_true]
  · refine h.touch (b := b) (List.nodup_cons.mpr ⟨hfree, h.free_nodup⟩) h.lru_nodup
      (fun x hx => ⟨setBlock_of_ne _ hx, ?_, Iff.rfl⟩) (fun _ => hlru) ?_ ?_
      fun hmem => absurd hmem hlru
    · exact List.mem_cons.trans (or_iff_right hx)
    · simp only [setBlock_self, hlast, implies_true]
    · simp only [setBlock_self]
      exact iff_of_false hlru hnotcached
  · refine h.touch (b := b) h.free_nodup h.lru_nodup
      (fun x hx => ⟨setBlock_of_ne _ hx, Iff.rfl, Iff.rfl⟩) (fun _ => hlru)
      (fun hspare => absurd hspare (not_or.mpr ⟨hfree, hlru⟩)) ?_ fun hmem => absurd hmem hlru
    simp only [setBlock_self]
    exact iff_of_false hlru hnotcached

theorem allocatePhysicalBlock (h : c.Listed) (ha : c.allocatePhysicalBlock = some (b, c')) :
    c'.Listed ∧ c.Spare b ∧ ∀ x, c'.Spare x ↔ c.Spare x ∧ x ≠ b := by
  obtain ⟨base, rest, hstack, rfl | ⟨hempty, hevict⟩, rfl⟩ := allocatePhysicalBlock_cases ha
  · have hb : b ∈ base.freeBlockStack := hstack ▸ List.mem_cons_self
    obtain ⟨hnotin, hrest⟩ := List.nodup_cons.mp (hstack ▸ h.free_nodup)
    have hlru : b ∉ base.lruList := fun hmem => h.disjoint hb hmem
    refine ⟨h.touch (b := b) hrest h.lru_nodup (fun x hx => ⟨setBlock_of_ne _ hx, ?_, Iff.rfl⟩)
      (fun hmem => absurd hmem hnotin) (fun hspare => ?_) (iff_of_false hlru ?_)
      fun hmem => absurd hmem hlru, Or.inl hb, fun x => ?_⟩
    · rw [hstack, List.mem_cons, or_iff_right hx]
    · exact absurd hspare (not_or.mpr ⟨hnotin, hlru⟩)
    · simp only [setBlock_self, Bool.false_eq_true, not_false_eq_true]
    · simp only [Spare, hstack, List.mem_cons, setBlock]
      rcases eq_or_ne x b with rfl | hx
      · simp only [hnotin, hlru, or_self, ne_eq, not_true_eq_false, and_false]
      · simp only [hx, false_or, ne_eq, not_false_eq_true, and_true]
  · obtain ⟨victim, lru, hvictim, rfl⟩ := evictLruBlock_eq hevict
    obtain ⟨-, hperm⟩ := takeUnreferenced_spec hvictim
    obtain ⟨hnotin, hlru⟩ := List.nodup_cons.mp (hperm.nodup h.lru_nodup)
    simp only [hempty, List.cons.injEq] at hstack
    obtain ⟨rfl, rfl⟩ := hstack
    refine ⟨h.touch (b := victim) List.nodup_nil hlru (fun x hx => ⟨?_, ?_, ?_⟩)
      (fun hmem => absurd hmem List.not_mem_nil) (fun hspare => ?_) (iff_of_false hnotin ?_)
      fun hmem => absurd hmem hnotin, Or.inr (hperm.mem_iff.mpr List.mem_cons_self), fun x => ?_⟩
    · exact (setBlock_of_ne _ hx).trans (setBlock_of_ne _ hx)
    · rw [hempty]
    · rw [hperm.mem_iff, List.mem_cons, or_iff_right hx]
      rfl
    · exact absurd hspare (not_or.mpr ⟨List.not_mem_nil, hnotin⟩)
    · simp only [setBlock_self, Bool.false_eq_true, not_false_eq_true]
    · simp only [Spare, hempty, hperm.mem_iff, List.mem_cons, List.not_mem_nil, false_or, setBlock]
      rcases eq_or_ne x victim with rfl | hx
      · simp only [hnotin, ne_eq, not_true_eq_false, and_false]
      · simp only [hx, false_or, ne_eq, not_false_eq_true, and_true]

end Listed

theorem setBlock_place {block : PhysicalBlock} (h : block.place = (c.physicalBlocks b).place)
    (x : Block cfg) :
    ((c.setBlock b block).physicalBlocks x).place = (c.physicalBlocks x).place := by
  rcases eq_or_ne x b with rfl | hx
  · rw [setBlock_self, h]
  · rw [setBlock_of_ne _ hx]

/-- Blocks that were handed out one after another, all of them spare before. -/
structure Drawn (c c' : PagedKVCache cfg) (fresh : List (Block cfg)) : Prop where
  listed : c'.Listed
  nodup : fresh.Nodup
  spare : ∀ b ∈ fresh, c.Spare b
  remaining : ∀ x, c'.Spare x ↔ c.Spare x ∧ x ∉ fresh

namespace Drawn

theorem refl (h : c.Listed) : c.Drawn c [] where
  listed := h
  nodup := List.nodup_nil
  spare _ hb := absurd hb List.not_mem_nil
  remaining _ := (and_iff_left List.not_mem_nil).symm

/-- The next block is handed out and then only filled. -/
theorem allocate (h : c.Drawn c' fresh) (ha : c'.allocatePhysicalBlock = some (b, c''))
    {filled : PagedKVCache cfg} (hfree : filled.freeBlockStack = c''.freeBlockStack)
    (hlru : filled.lruList = c''.lruList)
    (hplace : ∀ x, (filled.physicalBlocks x).place = (c''.physicalBlocks x).place) :
    c.Drawn filled (fresh ++ [b]) := by
  obtain ⟨hlisted, hb, hrest⟩ := h.listed.allocatePhysicalBlock ha
  obtain ⟨hspare, hnew⟩ := (h.remaining b).mp hb
  refine ⟨hlisted.congr hfree hlru hplace, ?_, fun x hx => ?_, fun x => ?_⟩
  · exact List.nodup_append'.mpr ⟨h.nodup, List.nodup_singleton b,
      List.disjoint_singleton.mpr hnew⟩
  · rcases List.mem_append.mp hx with hx | hx
    · exact h.spare x hx
    · exact List.mem_singleton.mp hx ▸ hspare
  · rw [Spare, hfree, hlru, ← Spare, hrest, h.remaining, List.mem_append, List.mem_singleton,
      not_or, and_assoc]

end Drawn

section Calls

/-- The blocks of a registration behind the matched ones are drawn from the pool. -/
theorem buildTable_drawn (hcaching : cfg.enablePrefixCaching = true) (h : c.Listed)
    (hmatched : ∀ b ∈ c.matchedBlocks promptTokens, b ∉ c.freeBlockStack) :
    ∃ fresh, (c.buildTable promptTokens).blockTable = c.matchedBlocks promptTokens ++ fresh ∧
      (c.matched promptTokens).cache.Drawn (c.buildTable promptTokens).cache fresh := by
  have hstart : ∃ fresh, (c.afterMatch promptTokens).blockTable =
      c.matchedBlocks promptTokens ++ fresh ∧
      (c.matched promptTokens).cache.Drawn (c.afterMatch promptTokens).cache fresh := by
    rw [afterMatch_eq hcaching]
    exact ⟨[], (List.append_nil _).symm, Drawn.refl (h.shareBlocks hmatched).1⟩
  obtain ⟨done, r, ⟨fresh, htable, hdrawn⟩, -, hend⟩ := buildTable_rule
    (I := fun _ r => ∃ fresh, r.blockTable = c.matchedBlocks promptTokens ++ fresh ∧
      (c.matched promptTokens).cache.Drawn r.cache fresh) hstart
    fun done tokens r b cache _ ⟨fresh, htable, hdrawn⟩ ha =>
      ⟨fresh ++ [b], by rw [Registration.fillStep, htable, List.append_assoc],
        hdrawn.allocate ha rfl rfl (setBlock_place rfl)⟩
  rcases hend with hend | ⟨-, ⟨-, hend⟩ | ⟨b, cache, -, ha, hend⟩⟩
  · rw [hend]
    exact ⟨fresh, htable, hdrawn⟩
  · rw [hend]
    exact ⟨fresh, htable, hdrawn⟩
  · rw [hend]
    refine ⟨fresh ++ [b], ?_, hdrawn.allocate ha rfl rfl (setBlock_place rfl)⟩
    simp only [htable, List.append_assoc]

/-- The blocks that an append adds are drawn from the pool. -/
theorem appendTokens_drawn (h : c.Listed)
    (hlookup : c.pageTables.lookup sequenceId = some table) (numTokens : ℕ) :
    ∃ fresh, (c.appendTokens sequenceId numTokens).2.pageTables.lookup sequenceId =
        some (table ++ fresh) ∧
      c.Drawn (c.appendTokens sequenceId numTokens).2 fresh := by
  have hstart : ∃ fresh, c.pageTables.lookup sequenceId = some (table ++ fresh) ∧
      table = table ++ fresh ∧ c.Drawn c fresh :=
    ⟨[], by rw [hlookup, List.append_nil], (List.append_nil _).symm, Drawn.refl h⟩
  have hset : ∀ b ∈ table.getLast?, ∀ n, ∃ fresh,
      (c.setTokens b n).pageTables.lookup sequenceId = some (table ++ fresh) ∧
      table = table ++ fresh ∧ c.Drawn (c.setTokens b n) fresh := by
    intro b _ n
    obtain ⟨fresh, hlookup', htable, hdrawn⟩ := hstart
    refine ⟨fresh, hlookup', htable, ?_, hdrawn.nodup, hdrawn.spare, hdrawn.remaining⟩
    exact hdrawn.listed.congr rfl rfl (setBlock_place rfl)
  obtain ⟨table', fresh, hlookup', -, hdrawn⟩ := appendTokens_rule
    (I := fun table' cache => ∃ fresh, cache.pageTables.lookup sequenceId =
      some (table ++ fresh) ∧ table' = table ++ fresh ∧ c.Drawn cache fresh)
    (fun table' cache b next n _ ⟨fresh, _, htable, hdrawn⟩ ha =>
      ⟨fresh ++ [b], by rw [AList.lookup_insert, htable, List.append_assoc],
        by rw [htable, List.append_assoc],
        hdrawn.allocate ha rfl rfl (setBlock_place rfl)⟩)
    hlookup hstart hset numTokens
  exact ⟨fresh, hlookup', hdrawn⟩

/-- No call matches a free block. -/
def MatchesHeld (c : PagedKVCache cfg) : KVCacheAction → Prop
  | .registerSequenceWithPrefix _ promptTokens =>
    ∀ b ∈ c.matchedBlocks promptTokens, b ∉ c.freeBlockStack
  | _ => True

theorem Listed.step (hcaching : cfg.enablePrefixCaching = true) (h : c.Listed)
    {action : KVCacheAction} (hmatched : c.MatchesHeld action) : (c.step action).Listed := by
  cases action with
  | registerSequenceWithPrefix sequenceId promptTokens =>
    obtain ⟨fresh, -, hdrawn⟩ := buildTable_drawn hcaching h hmatched
    simp only [PagedKVCache.step, registerSequenceWithPrefix]
    split_ifs
    · exact h
    · exact hdrawn.listed
    · exact hdrawn.listed.congr rfl rfl fun _ => rfl
  | appendTokens sequenceId numTokens =>
    cases hlookup : c.pageTables.lookup sequenceId with
    | none => simpa only [PagedKVCache.step, appendTokens, hlookup] using h
    | some table =>
      obtain ⟨fresh, -, hdrawn⟩ := appendTokens_drawn h hlookup numTokens
      exact hdrawn.listed
  | unregisterSequence sequenceId =>
    cases hlookup : c.pageTables.lookup sequenceId with
    | none => simpa only [PagedKVCache.step, unregisterSequence_none hlookup] using h
    | some table =>
      have hfreed : (table.foldl PagedKVCache.freePhysicalBlock c).Listed :=
        List.foldlRecOn table PagedKVCache.freePhysicalBlock h fun _ hc b _ =>
          hc.freePhysicalBlock b
      rw [PagedKVCache.step, unregisterSequence_some hlookup]
      exact hfreed.congr rfl rfl fun _ => rfl

/-- What a call hands out is distinct and was free or cached before. -/
theorem handedOut_spare (hcaching : cfg.enablePrefixCaching = true) (h : c.Listed)
    {action : KVCacheAction} (hmatched : c.MatchesHeld action) :
    (c.handedOut action).Nodup ∧ ∀ b ∈ c.handedOut action, c.Spare b := by
  apply handedOut_rule (P := fun blocks => blocks.Nodup ∧ ∀ b ∈ blocks, c.Spare b)
  · exact ⟨List.nodup_nil, fun b hb => absurd hb List.not_mem_nil⟩
  · rintro sequenceId promptTokens rfl -
    obtain ⟨fresh, htable, hdrawn⟩ := buildTable_drawn hcaching h hmatched
    obtain ⟨-, hfree, hlru⟩ := h.shareBlocks hmatched
    rw [htable, List.drop_left]
    refine ⟨hdrawn.nodup, fun b hb => ?_⟩
    exact (hdrawn.spare b hb).imp (fun hmem => hfree ▸ hmem) fun hmem => ((hlru b).mp hmem).1
  · intro sequenceId numTokens before after hbefore hafter
    obtain ⟨fresh, htable, hdrawn⟩ := appendTokens_drawn h hbefore numTokens
    obtain rfl := Option.some.inj (hafter.symm.trans htable)
    rw [List.drop_left]
    exact ⟨hdrawn.nodup, hdrawn.spare⟩

/-- A block of a node is never free while no hash is 0. -/
theorem Sealed.matchesHeld {held : Multiset (Block cfg)} (h : c.Sealed held) :
    ∀ action, c.MatchesHeld action
  | .registerSequenceWithPrefix sequenceId promptTokens => fun b hb hfree => by
    obtain ⟨node, hnode, rfl⟩ := List.mem_map.mp hb
    obtain ⟨i, hi⟩ := List.mem_iff_getElem?.mp hnode
    exact h.node_hashed _ node (PathTrie.walk_some hi) (h.unhashed _ hfree)
  | .appendTokens _ _ => trivial
  | .unregisterSequence _ => trivial

theorem additionalBlocks_eq {numTokens : ℕ} (hfilled : c.filled b ≤ cfg.blockSize)
    (hrange : numTokens + cfg.blockSize ≤ 2 ^ 32) :
    c.additionalBlocks b numTokens =
      (numTokens - (cfg.blockSize - c.filled b) + cfg.blockSize - 1) / cfg.blockSize := by
  have hpos := cfg.blockSize_pos
  have havailable : sub 32 cfg.blockSize (c.filled b) = cfg.blockSize - c.filled b :=
    sub_eq hfilled cfg.blockSize_lt
  rw [filled] at havailable
  simp only [additionalBlocks, havailable, filled]
  generalize cfg.blockSize - (c.physicalBlocks b).numTokensFilled = available
  split_ifs with hfits
  · rw [Nat.sub_eq_zero_of_le hfits, Nat.zero_add]
    exact (Nat.div_eq_of_lt (Nat.sub_lt hpos Nat.one_pos)).symm
  · rw [add, sub_one_of_le (by omega) (by omega) (by norm_num)]

end Calls
end PagedKVCache

namespace KVSystem
open PagedKVCache
variable {cfg : KVCacheConfig} {s s' : KVSystem cfg} {actions : List KVCacheAction}

/-- What every call without evictions keeps holds after a run without evictions and zero hashes. -/
theorem exec_calm (hcaching : cfg.enablePrefixCaching = true) {J : KVSystem cfg → Prop}
    {cond : KVSystem cfg → KVCacheAction → Prop} (hinit : J (init cfg))
    (hkeep : ∀ t action t', t.Sharing → cond t action → J t → t.step action = some t' → J t')
    (hcalm : AllSteps step Calm (init cfg) actions) (hcond : AllSteps step cond (init cfg) actions)
    (hrun : exec step (init cfg) actions = some s)
    (hnonzero : HashesNonzero cfg s.registeredPrompts) : s.Sharing ∧ J s := by
  have hinv : s.cache.TreeOf s.history ∧
      (HashesNonzero cfg s.registeredPrompts → s.Sharing ∧ J s) := by
    apply exec_invariant (I := fun s : KVSystem cfg => s.cache.TreeOf s.history ∧
      (HashesNonzero cfg s.registeredPrompts → s.Sharing ∧ J s)) _
      ⟨init_treeOf, fun _ => ⟨init_sharing, hinit⟩⟩ (hcalm.and hcond) hrun
    intro t action t' ⟨htree, hinv⟩ ⟨hok, hadmitted⟩ hstep
    refine ⟨step_treeOf hcaching htree hstep, fun hnonzero => ?_⟩
    obtain ⟨hsharing, hJ⟩ := hinv (hashesNonzero_of_step hstep hnonzero)
    exact ⟨hsharing.step hcaching htree hok hstep hnonzero, hkeep t action t' hsharing hadmitted
      hJ hstep⟩
  exact hinv.2 hnonzero

def CountsFit (s : KVSystem cfg) : KVCacheAction → Prop
  | .registerSequenceWithPrefix sequenceId promptTokens => sequenceId ∉ s.cache.pageTables →
    ∀ b, (s.cache.physicalBlocks b).refCount +
      (s.cache.matchedBlocks promptTokens).count b < 2 ^ 32
  | _ => True

instance (s : KVSystem cfg) : ∀ action, Decidable (s.CountsFit action)
  | .registerSequenceWithPrefix _ _ => inferInstanceAs (Decidable (_ → ∀ _, _))
  | .appendTokens _ _ => isTrue trivial
  | .unregisterSequence _ => isTrue trivial

/-- A call throws exactly when the blocks it needs exceed the free and cached ones that it does not
match, and what it takes is distinct and was free or cached. -/
structure AdmissionExact (s : KVSystem cfg) : Prop where
  registered : ∀ sequenceId promptTokens, sequenceId ∈ s.cache.pageTables →
    s.cache.registerSequenceWithPrefix sequenceId promptTokens = (.ok 0, s.cache)
  register : ∀ sequenceId promptTokens, sequenceId ∉ s.cache.pageTables →
    ((s.cache.registerSequenceWithPrefix sequenceId promptTokens).1 =
        .error (.outOfPages cfg.totalGpuBlocks) ↔
      s.cache.freeBlockStack.length +
          (s.cache.lruList.filter fun b => b ∉ s.cache.matchedBlocks promptTokens).length <
        neededBlocks cfg promptTokens - (s.cache.matchedBlocks promptTokens).length)
  append : ∀ sequenceId table numTokens, s.cache.pageTables.lookup sequenceId = some table →
    numTokens + cfg.blockSize ≤ 2 ^ 32 → ∃ last ∈ table.getLast?,
      ((s.cache.appendTokens sequenceId numTokens).1 = .error (.outOfPages cfg.totalGpuBlocks) ↔
        s.cache.freeBlockStack.length + s.cache.lruList.length <
          (numTokens - (cfg.blockSize - s.cache.filled last) + cfg.blockSize - 1) /
            cfg.blockSize)
  distinct : ∀ action, (s.cache.handedOut action).Nodup
  spare : ∀ action, ∀ b ∈ s.cache.handedOut action, s.cache.Spare b

theorem admissionExact (hcaching : cfg.enablePrefixCaching = true) (hlisted : s.cache.Listed)
    (hbounded : s.cache.Bounded) (hmatched : ∀ action, s.cache.MatchesHeld action) :
    s.AdmissionExact where
  registered sequenceId promptTokens hid := by
    simp only [registerSequenceWithPrefix, hid, if_true]
  register sequenceId promptTokens hid := by
    rw [registerSequence_throws_iff hid, furtherBlocks, reusedBlocks_eq hcaching,
      hlisted.capacityBesides_eq (hmatched (.registerSequenceWithPrefix sequenceId promptTokens))]
  append sequenceId table numTokens hlookup hrange := by
    obtain ⟨last, hlast⟩ := hbounded.exists_last hlookup
    refine ⟨last, hlast, ?_⟩
    rw [appendTokens_throws_iff hlookup hlast, hlisted.capacity_eq,
      additionalBlocks_eq (hbounded.filled_le last) hrange]
  distinct action := (handedOut_spare hcaching hlisted (hmatched action)).1
  spare action := (handedOut_spare hcaching hlisted (hmatched action)).2

theorem bounded_step {c : PagedKVCache cfg} (h : c.Bounded) :
    ∀ action, (c.step action).Bounded
  | .registerSequenceWithPrefix sequenceId promptTokens => h.register sequenceId promptTokens
  | .appendTokens sequenceId numTokens => h.append sequenceId numTokens
  | .unregisterSequence sequenceId => h.unregister sequenceId

theorem Listed.spare_unowned {c : PagedKVCache cfg} {held : Multiset (Block cfg)} {b : Block cfg}
    (h : c.Listed) (hpart : c.Partitioned held) (hb : c.Spare b) : b ∉ held := by
  intro hmem
  have hpos := (Multiset.count_pos.mpr hmem).trans_le (hpart.classified b).held_le
  exact hpos.ne' (h.idle b hb)

theorem CountsFit.noFreeMatch {action : KVCacheAction} (h : s.CountsFit action)
    (hsharing : s.Sharing) : s.cache.NoFreeMatch action := by
  cases action with
  | registerSequenceWithPrefix sequenceId promptTokens =>
    exact fun hid => ⟨hsharing.isSealed.matchesHeld
      (.registerSequenceWithPrefix sequenceId promptTokens), h hid⟩
  | appendTokens sequenceId numTokens => trivial
  | unregisterSequence sequenceId => trivial

/-- In every run without evictions and zero hashes, admission is exact; and if no reference count
wraps, what a call takes is in no table. -/
theorem admission_exact (hcaching : cfg.enablePrefixCaching = true)
    (hcalm : AllSteps step Calm (init cfg) actions)
    (hrun : exec step (init cfg) actions = some s)
    (hnonzero : HashesNonzero cfg s.registeredPrompts) :
    s.AdmissionExact ∧ (AllSteps step CountsFit (init cfg) actions →
      ∀ action, ∀ b ∈ s.cache.handedOut action, ∀ sequenceId table,
        s.cache.pageTables.lookup sequenceId = some table → b ∉ table) := by
  have hkept := exec_calm (J := fun s => s.cache.Listed ∧ s.cache.Bounded) hcaching
    ⟨init_listed, init_bounded⟩ (fun t action t' hsharing _ ⟨hlisted, hbounded⟩ hstep => by
      rw [step_cache hstep]
      exact ⟨hlisted.step hcaching (hsharing.isSealed.matchesHeld action),
        bounded_step hbounded action⟩) hcalm hcalm hrun hnonzero
  obtain ⟨hsharing, hlisted, hbounded⟩ := hkept
  have hmatched := hsharing.isSealed.matchesHeld
  refine ⟨admissionExact hcaching hlisted hbounded hmatched, ?_⟩
  intro hfit action b hb sequenceId table hlookup hmem
  have hpart := exec_calm (J := fun s => s.cache.Partitioned s.cache.ownedBlocks) hcaching
    init_partitioned (fun t action t' hsharing hcounts hpart hstep => by
      rw [step_cache hstep]
      exact step_partitioned hcaching hpart (CountsFit.noFreeMatch hcounts hsharing)) hcalm hfit
    hrun hnonzero
  have hspare := (handedOut_spare hcaching hlisted (hmatched action)).2 b hb
  exact Listed.spare_unowned hlisted hpart.2 hspare (mem_ownedBlocks hlookup hmem)

/-- One block is shared, one is cached and one is free. A prompt that matches both has one left, and
one that matches none evicts. -/
theorem admission_exact_evicting : ∃ s : KVSystem threePairs,
    exec step (init _) [.registerSequenceWithPrefix 1 [1, 2, 3, 4], .unregisterSequence 1,
      .registerSequenceWithPrefix 2 [1, 2]] = some s ∧
    (s.cache.registerSequenceWithPrefix 3 [1, 2, 3, 4, 5, 6, 7]).1 = .error (.outOfPages 3) ∧
    (s.cache.registerSequenceWithPrefix 3 [9, 9, 9]).1 ≠ .error (.outOfPages 3) ∧
    s.cache.handedOut (.registerSequenceWithPrefix 3 [9, 9, 9]) = [2, 1] ∧
    s.cache.pageTables.lookup 2 = some [0] ∧
    ∀ b ∈ s.cache.handedOut (.registerSequenceWithPrefix 3 [9, 9, 9]),
      b ∉ [(0 : Block threePairs)] := by
  refine exec_exists (P := fun s => HashesNonzero threePairs s.registeredPrompts ∧
    3 ∉ s.cache.pageTables ∧ s.cache.freeBlockStack = [2] ∧ s.cache.lruList = [1] ∧
    s.cache.matchedBlocks [1, 2, 3, 4, 5, 6, 7] = [0, 1] ∧ s.cache.matchedBlocks [9, 9, 9] = [] ∧
    s.cache.handedOut (.registerSequenceWithPrefix 3 [9, 9, 9]) = [2, 1] ∧
    s.cache.pageTables.lookup 2 = some [0]) (by decide +kernel) ?_
  rintro s hrun ⟨hnonzero, hid, hfree, hlru, hshared, hnone, hout, htable⟩
  obtain ⟨hexact, hunowned⟩ := admission_exact rfl (by decide +kernel) hrun hnonzero
  refine ⟨?_, ?_, hout, htable, fun b hb => ?_⟩
  · rw [hexact.register 3 _ hid, hfree, hlru, hshared]
    decide
  · rw [ne_eq, hexact.register 3 _ hid, hfree, hlru, hnone]
    decide
  · exact hunowned (by decide +kernel) _ b hb 2 _ htable

section Wrapping

abbrev pairHash : UInt64 := computeBlockHash [5, 5] 0

/-- The sequences below `n` are registered with one prompt and share its block, whose count may have
wrapped. -/
structure SharedBy (s : KVSystem twoPairs) (n : ℕ) : Prop where
  block : s.cache.physicalBlocks 0 = ⟨n % 2 ^ 32, 2, pairHash, false, false⟩
  free : s.cache.freeBlockStack = [1]
  lru : s.cache.lruList = []
  shared : s.cache.prefixTree [pairHash] = some ⟨pairHash, 0⟩
  unmatched : s.cache.prefixTree [computeBlockHash [6, 6] 0] = none
  tables : ∀ id, s.cache.pageTables.lookup id = if id < n then some [0] else none
  evictions : s.cache.lruEvictionsCount = 0
  prompts : ∀ P ∈ s.registeredPrompts, P = [5, 5]

theorem init_sharedBy : ∃ s, (init twoPairs).step (.registerSequenceWithPrefix 0 [5, 5]) = some s ∧
    s.SharedBy 1 := by
  have hexec : ∃ s, exec step (init twoPairs) [.registerSequenceWithPrefix 0 [5, 5]] = some s ∧
      s.cache.physicalBlocks 0 = ⟨1 % 2 ^ 32, 2, pairHash, false, false⟩ ∧
      s.cache.freeBlockStack = [1] ∧ s.cache.lruList = [] ∧
      s.cache.prefixTree [pairHash] = some ⟨pairHash, 0⟩ ∧
      s.cache.prefixTree [computeBlockHash [6, 6] 0] = none ∧
      s.cache.pageTables.keys = [0] ∧ s.cache.pageTables.lookup 0 = some [0] ∧
      s.cache.lruEvictionsCount = 0 ∧ ∀ P ∈ s.registeredPrompts, P = [5, 5] :=
    exec_exists (by decide +kernel) fun _ _ h => h
  obtain ⟨s, hrun, hblock, hfree, hlru, hshared, hunmatched, hkeys, htable, hevictions,
    hprompts⟩ := hexec
  obtain ⟨s', hstep, hs⟩ := exec_cons.mp hrun
  obtain rfl := Option.some.inj hs
  refine ⟨s', hstep, hblock, hfree, hlru, hshared, hunmatched, fun id => ?_, hevictions, hprompts⟩
  rcases Nat.eq_zero_or_pos id with rfl | hpos
  · exact htable
  · rw [if_neg (by omega), AList.lookup_eq_none, AList.mem_keys, hkeys, List.mem_singleton]
    exact hpos.ne'

/-- One more sequence is registered with the prompt. -/
theorem SharedBy.register {s : KVSystem twoPairs} {n : ℕ} (h : s.SharedBy n) :
    ∃ s', s.step (.registerSequenceWithPrefix n [5, 5]) = some s' ∧ s'.SharedBy (n + 1) := by
  have hid : n ∉ s.cache.pageTables := by
    rw [← AList.lookup_eq_none, h.tables, if_neg (Nat.lt_irrefl n)]
  have hblocks : promptBlocks twoPairs [5, 5] = [[5, 5]] := by decide
  have hmatch : s.cache.matchedBlocks [5, 5] = [0] := by
    simp only [matchedBlocks, matchedNodes, hblocks, PathTrie.walk, pathKey, List.headD_nil,
      h.shared, List.map_cons, List.map_nil]
  have hbuild : s.cache.buildTable [5, 5] =
      ⟨s.cache.shareBlock 0, [0], 2, pairHash, [pairHash], false⟩ := by
    rw [buildTable_eq, afterMatch_eq rfl, reusedBlocks_eq rfl, hmatch, hblocks, matched, hmatch,
      hblocks]
    rfl
  have hrun : s.cache.registerSequenceWithPrefix n [5, 5] = (.ok 2,
      { s.cache.shareBlock 0 with pageTables := s.cache.pageTables.insert n [0] }) := by
    simp only [registerSequenceWithPrefix, hid, if_false, hbuild, Bool.false_eq_true,
      shareBlock_pageTables]
  have hstep : s.step (.registerSequenceWithPrefix n [5, 5]) = some
      { cache := { s.cache.shareBlock 0 with pageTables := s.cache.pageTables.insert n [0] }
        filled := recordFills (promptBlocks twoPairs [5, 5]) [] 1 s.filled
        prompts := s.prompts.insert n [5, 5]
        history := ⟨[5, 5], [0]⟩ :: s.history } := by
    simp only [step, hrun, hid, if_false, AList.lookup_insert, Option.map_some]
    rfl
  refine ⟨_, hstep, ?_⟩
  constructor
  · simp only [shareBlock_physicalBlocks, Function.update_self, h.block, add, Nat.mod_add_mod,
      Bool.false_and]
  · exact shareBlock_freeBlockStack.trans h.free
  · rw [shareBlock_lruList, h.block]
    exact h.lru
  · rw [shareBlock_prefixTree]
    exact h.shared
  · rw [shareBlock_prefixTree]
    exact h.unmatched
  · intro id
    rw [lookup_insert_ite, h.tables]
    rcases Nat.lt_trichotomy id n with hlt | rfl | hgt
    · rw [if_neg hlt.ne, if_pos hlt, if_pos (by omega)]
    · rw [if_pos rfl, if_pos (Nat.lt_succ_self id)]
    · rw [if_neg hgt.ne', if_neg (by omega), if_neg (by omega)]
  · exact (shareBlocks_evictions [0]).trans h.evictions
  · intro P hP
    rcases List.mem_cons.mp hP with rfl | hP
    · rfl
    · exact h.prompts P hP

/-- Any number of sequences is registered before the rest of a run. -/
theorem SharedBy.registers {s : KVSystem twoPairs} {n : ℕ} (h : s.SharedBy n) (k : ℕ)
    (rest : List KVCacheAction) : ∃ (actions : List KVCacheAction) (s' : KVSystem twoPairs),
    exec step s actions = exec step s' rest ∧
    (AllSteps step Calm s actions ↔ AllSteps step Calm s' rest) ∧ s'.SharedBy (n + k) := by
  induction k generalizing s n with
  | zero => exact ⟨rest, s, rfl, Iff.rfl, h⟩
  | succ k ih =>
    obtain ⟨t, hstep, ht⟩ := h.register
    obtain ⟨actions, s', hexec, hcalm, hs'⟩ := ih ht
    rw [Nat.add_assoc, Nat.add_comm 1] at hs'
    refine ⟨.registerSequenceWithPrefix n [5, 5] :: actions, s', ?_, ?_, hs'⟩
    · rw [exec, hstep, Option.bind_some, hexec]
    · rw [allSteps_of_some hstep, ← hcalm, and_iff_right]
      intro t' ht'
      obtain rfl := Option.some.inj (hstep.symm.trans ht')
      rw [ht.evictions, h.evictions]

/-- With one free and one cached block a prompt of three tokens gets both. -/
theorem handedOut_evicting {c : PagedKVCache twoPairs} {n : ℕ} (hid : n ∉ c.pageTables)
    (hfree : c.freeBlockStack = [1]) (hlru : c.lruList = [0])
    (hidle : (c.physicalBlocks 0).refCount = 0)
    (hunmatched : c.prefixTree [computeBlockHash [6, 6] 0] = none) :
    (c.registerSequenceWithPrefix n [6, 6, 6]).1 = .ok 0 ∧
      c.handedOut (.registerSequenceWithPrefix n [6, 6, 6]) = [1, 0] := by
  have hblocks : promptBlocks twoPairs [6, 6, 6] = [[6, 6]] := by decide
  have hmatch : c.matchedBlocks [6, 6, 6] = [] := by
    simp only [matchedBlocks, matchedNodes, hblocks, PathTrie.walk, pathKey, List.headD_nil,
      hunmatched, List.map_nil]
  have htail : tailTokens twoPairs [6, 6, 6] = 1 := by decide
  obtain ⟨c', hfirst, hempty, hlru', hidle'⟩ : ∃ c', c.allocatePhysicalBlock = some (1, c') ∧
      c'.freeBlockStack = [] ∧ c'.lruList = [0] ∧ (c'.physicalBlocks 0).refCount = 0 := by
    simp only [allocatePhysicalBlock, hfree, List.isEmpty_cons, Bool.false_eq_true, if_false,
      Option.bind_some]
    exact ⟨_, rfl, rfl, hlru, hidle⟩
  have hsecond (hash : UInt64) (path : List UInt64) :
      ∃ c'', (c'.fillBlock 1 hash path).allocatePhysicalBlock = some (0, c'') := by
    have hvictim : takeUnreferenced (c'.fillBlock 1 hash path).physicalBlocks [0] =
        some (0, []) := by
      rw [takeUnreferenced, takeUnreferenced]
      exact if_pos hidle'
    have hempty' : (c'.fillBlock 1 hash path).freeBlockStack = [] := hempty
    have hlru'' : (c'.fillBlock 1 hash path).lruList = [0] := hlru'
    simp only [allocatePhysicalBlock, hempty', List.isEmpty_nil, if_true, evictLruBlock, hlru'',
      hvictim, Option.map_some, Option.bind_some]
    exact ⟨_, rfl⟩
  obtain ⟨c'', hsecond⟩ := hsecond (computeBlockHash [6, 6] 0) []
  have hafter : c.afterMatch [6, 6, 6] = ⟨c, [], 0, 0, [], false⟩ := by
    rw [afterMatch_eq rfl, matched, hmatch]
    rfl
  have hbuild : c.buildTable [6, 6, 6] = ⟨c''.setTokens 0 1, [1, 0], 0,
      computeBlockHash [6, 6] 0, [computeBlockHash [6, 6] 0], false⟩ := by
    rw [buildTable_eq, reusedBlocks_eq rfl, hmatch, hblocks, hafter]
    simp only [List.length_nil, List.drop_zero, fillLoop, hfirst, Registration.fillStep,
      Bool.false_eq_true, if_false, tailStep, htail, gt_iff_lt, Nat.one_pos, true_or, if_true,
      hsecond, List.nil_append, List.singleton_append]
  simp only [registerSequenceWithPrefix, handedOut, hid, if_false, hbuild, Bool.false_eq_true,
    hmatch, List.length_nil, List.drop_zero, and_self]

/-- One reference is counted for `2 ^ 32 + 1` of them: freeing it makes the block a cached one. -/
theorem SharedBy.unregister {s : KVSystem twoPairs} (h : s.SharedBy (2 ^ 32 + 1)) :
    ∃ s', s.step (.unregisterSequence 0) = some s' ∧ s'.cache.lruEvictionsCount = 0 ∧
      s'.cache.pageTables.lookup 1 = some [0] ∧ 2 ^ 32 + 1 ∉ s'.cache.pageTables ∧
      s'.registeredPrompts = s.registeredPrompts ∧
      (s'.cache.registerSequenceWithPrefix (2 ^ 32 + 1) [6, 6, 6]).1 = .ok 0 ∧
      s'.cache.handedOut (.registerSequenceWithPrefix (2 ^ 32 + 1) [6, 6, 6]) = [1, 0] := by
  have htable : s.cache.pageTables.lookup 0 = some [0] := by
    rw [h.tables, if_pos (by norm_num)]
  have hfree : s.cache.freePhysicalBlock 0 =
      { s.cache.setBlock 0 ⟨0, 2, pairHash, true, true⟩ with lruList := [0] } := by
    have hhash : pairHash ≠ 0 := by decide
    simp only [freePhysicalBlock, h.block, h.lru]
    rfl
  refine ⟨_, rfl, ?_⟩
  simp only [unregisterSequence_some htable, List.foldl_cons, List.foldl_nil, hfree]
  have hid : 2 ^ 32 + 1 ∉ s.cache.pageTables.erase 0 := by
    rw [← AList.lookup_eq_none, lookup_erase_ite, if_neg (by norm_num), h.tables,
      if_neg (Nat.lt_irrefl _)]
  refine ⟨h.evictions, ?_, hid, rfl, ?_⟩
  · rw [lookup_erase_ite, if_neg one_ne_zero, h.tables, if_pos (by norm_num)]
  · exact handedOut_evicting hid h.free rfl rfl h.unmatched

/-- A prompt of `2 ^ 32` tokens is registered in a pool of one block. And after `2 ^ 32 + 1`
registrations of one prompt and one `unregister_sequence` its block counts as cached: the next
registration evicts it while the other sequences have it in their tables. -/
theorem admission_exact_wrapped :
    (((init oneBlock).cache.registerSequenceWithPrefix 1 (List.replicate (2 ^ 32) 5)).1 = .ok 0 ∧
      (init oneBlock).cache.matchedBlocks (List.replicate (2 ^ 32) 5) = [] ∧
      (init oneBlock).cache.spareBlocks <
        max (((List.replicate (2 ^ 32) (5 : Int32)).length + 2 - 1) / 2) 1) ∧
    ∃ (actions : List KVCacheAction) (s : KVSystem twoPairs),
      exec step (init twoPairs) actions = some s ∧ AllSteps step Calm (init twoPairs) actions ∧
      HashesNonzero twoPairs s.registeredPrompts ∧
      (s.cache.registerSequenceWithPrefix (2 ^ 32 + 1) [6, 6, 6]).1 = .ok 0 ∧
      0 ∈ s.cache.handedOut (.registerSequenceWithPrefix (2 ^ 32 + 1) [6, 6, 6]) ∧
      s.cache.pageTables.lookup 1 = some [0] := by
  have hlong : promptBlocks oneBlock (List.replicate (2 ^ 32) 5) = promptBlocks oneBlock [] := by
    rw [promptBlocks_replicate, Nat.mod_self, Nat.zero_div, List.replicate_zero]
    rfl
  refine ⟨⟨?_, ?_, ?_⟩, ?_⟩
  · have hlength : (List.replicate (2 ^ 32) (5 : Int32)).length % 2 ^ 32 =
        ([] : List Int32).length % 2 ^ 32 := by
      rw [List.length_replicate]
      rfl
    rw [registerSequence_congr rfl _ 1 hlength hlong]
    decide +kernel
  · rw [matchedBlocks, matchedNodes, hlong]
    rfl
  · rw [List.length_replicate]
    decide +kernel
  · obtain ⟨s₁, hfirst, h₁⟩ := init_sharedBy
    obtain ⟨actions, s₂, hexec, hcalm, h₂⟩ := h₁.registers (2 ^ 32) [.unregisterSequence 0]
    rw [Nat.add_comm] at h₂
    obtain ⟨s₃, hlast, hevictions, htable, -, hprompts, hok, hout⟩ := h₂.unregister
    refine ⟨.registerSequenceWithPrefix 0 [5, 5] :: actions, s₃, ?_, ?_, ?_, hok, ?_, htable⟩
    · rw [exec_cons]
      exact ⟨s₁, hfirst, hexec.trans (exec_cons.mpr ⟨s₃, hlast, rfl⟩)⟩
    · rw [allSteps_of_some hfirst]
      refine ⟨fun s hs => ?_, hcalm.mpr ⟨fun s hs => ?_, fun _ _ => trivial⟩⟩
      · rw [Option.some.inj (hs.symm.trans hfirst), h₁.evictions]
        rfl
      · rw [Option.some.inj (hs.symm.trans hlast), hevictions, h₂.evictions]
    · intro m hm
      obtain ⟨P, hP, hm⟩ := List.mem_flatMap.mp hm
      obtain rfl := h₂.prompts P (hprompts ▸ hP)
      have hpair : ∀ m ∈ metPairs twoPairs [5, 5], computeBlockHash m.2 m.1 ≠ 0 := by
        decide +kernel
      exact hpair m hm
    · rw [hout]
      decide

end Wrapping
end KVSystem
end CudaForge.Memory
