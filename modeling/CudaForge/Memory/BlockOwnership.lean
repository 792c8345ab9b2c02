import CudaForge.Memory.BlockPartition

/-!
The partition of the blocks along whole runs. It needs that no registration matches a node whose
block was evicted since: eviction leaves the node in the tree.
-/
namespace CudaForge.Memory
open MachineWord FiniteMap Transition

namespace PagedKVCache
variable {cfg : KVCacheConfig} {c c' : PagedKVCache cfg} {b : Block cfg} {sequenceId : ℕ}
  {promptTokens : List Int32}

/-- No node that a registration matches names a free block, and no reference count wraps. -/
def NoFreeMatch (c : PagedKVCache cfg) : KVCacheAction → Prop
  | .registerSequenceWithPrefix sequenceId promptTokens => sequenceId ∉ c.pageTables →
    (∀ b ∈ c.matchedBlocks promptTokens, b ∉ c.freeBlockStack) ∧
    ∀ b, (c.physicalBlocks b).refCount + (c.matchedBlocks promptTokens).count b < 2 ^ 32
  | _ => True

instance (c : PagedKVCache cfg) : ∀ action, Decidable (c.NoFreeMatch action)
  | .registerSequenceWithPrefix _ _ => inferInstanceAs (Decidable (_ → _ ∧ _))
  | .appendTokens _ _ => isTrue trivial
  | .unregisterSequence _ => isTrue trivial

/-- The blocks that `allocate_physical_block` hands out during a call. -/
def handedOut (c : PagedKVCache cfg) : KVCacheAction → List (Block cfg)
  | .registerSequenceWithPrefix sequenceId promptTokens =>
    if sequenceId ∈ c.pageTables then []
    else (c.buildTable promptTokens).blockTable.drop (c.matchedBlocks promptTokens).length
  | .appendTokens sequenceId numTokens =>
    match c.pageTables.lookup sequenceId,
      (c.appendTokens sequenceId numTokens).2.pageTables.lookup sequenceId with
    | some before, some after => after.drop before.length
    | _, _ => []
  | .unregisterSequence _ => []

theorem shareBlocks_pageTables (ids : List (Block cfg)) :
    (ids.foldl shareBlock c).pageTables = c.pageTables := by
  induction ids generalizing c with
  | nil => rfl
  | cons b ids ih => rw [List.foldl_cons, ih, shareBlock_pageTables]

/-- No page table changes before the table of the prompt is complete. -/
theorem buildTable_pageTables (promptTokens : List Int32) :
    (c.buildTable promptTokens).cache.pageTables = c.pageTables := by
  have hmatched : (c.afterMatch promptTokens).cache.pageTables = c.pageTables := by
    rw [afterMatch_cache, shareBlocks_pageTables]
  obtain ⟨done, r, htables, -, hend⟩ := buildTable_rule
    (I := fun _ r => r.cache.pageTables = c.pageTables) hmatched
    fun done tokens r b cache _ htables ha => (allocated ha).pageTables.trans htables
  rcases hend with hend | ⟨-, ⟨-, hend⟩ | ⟨b, cache, -, ha, hend⟩⟩
  · rw [hend]
    exact htables
  · rw [hend]
    exact htables
  · rw [hend]
    exact (allocated ha).pageTables.trans htables

theorem mem_of_mem_registerSequence {promptTokens : List Int32} {id : ℕ}
    (h : id ∈ (c.registerSequenceWithPrefix sequenceId promptTokens).2.pageTables) :
    id = sequenceId ∨ id ∈ c.pageTables := by
  unfold registerSequenceWithPrefix at h
  dsimp only at h
  split_ifs at h
  · exact Or.inr h
  · rw [buildTable_pageTables] at h
    exact Or.inr h
  · rw [AList.mem_insert, buildTable_pageTables] at h
    exact h

@[simp] theorem freePhysicalBlock_pageTables :
    (c.freePhysicalBlock b).pageTables = c.pageTables := by
  simp only [freePhysicalBlock]; split_ifs <;> rfl

theorem freePhysicalBlocks_pageTables (ids : List (Block cfg)) :
    (ids.foldl freePhysicalBlock c).pageTables = c.pageTables := by
  induction ids generalizing c with
  | nil => rfl
  | cons b ids ih => rw [List.foldl_cons, ih, freePhysicalBlock_pageTables]

section Tables

theorem ownedBlocks_congr (h : c'.pageTables = c.pageTables) : c'.ownedBlocks = c.ownedBlocks := by
  unfold ownedBlocks
  rw [h]

theorem ownedBlocks_insert {table : List (Block cfg)} (h : sequenceId ∉ c.pageTables)
    (hc : c'.pageTables = c.pageTables.insert sequenceId table) :
    c'.ownedBlocks = table + c.ownedBlocks := by
  unfold ownedBlocks
  rw [hc, total_insert_of_notMem h]

theorem ownedBlocks_concat {table : List (Block cfg)}
    (h : c.pageTables.lookup sequenceId = some table)
    (hc : c'.pageTables = c.pageTables.insert sequenceId (table ++ [b])) :
    c'.ownedBlocks = b ::ₘ c.ownedBlocks := by
  have hadd := total_insert_of_lookup (f := fun _ (table : List (Block cfg)) =>
    (table : Multiset (Block cfg))) h (table ++ [b])
  have hcoe : ((table ++ [b] : List (Block cfg)) : Multiset (Block cfg)) =
      table + {b} := by
    rw [← Multiset.coe_add, Multiset.coe_singleton]
  rw [hcoe, add_assoc, add_right_inj, Multiset.singleton_add] at hadd
  unfold ownedBlocks
  rw [hc, hadd]

theorem ownedBlocks_erase {table : List (Block cfg)} (c' : PagedKVCache cfg)
    (h : c.pageTables.lookup sequenceId = some table)
    (hc : c'.pageTables = c.pageTables.erase sequenceId) :
    c.ownedBlocks = table + c'.ownedBlocks := by
  unfold ownedBlocks
  rw [hc]
  exact (total_erase h).symm

/-- A block behind a table joins what the table and others hold. -/
theorem concat_add_held (table : List (Block cfg)) (b : Block cfg) (held : Multiset (Block cfg)) :
    ((table ++ [b] : List (Block cfg)) : Multiset (Block cfg)) + held = b ::ₘ (table + held) := by
  rw [← Multiset.coe_add, Multiset.coe_singleton, add_right_comm, ← Multiset.singleton_add,
    add_comm ({b} : Multiset (Block cfg))]

theorem unregisterSequence_none (h : c.pageTables.lookup sequenceId = none) :
    c.unregisterSequence sequenceId = c := by
  simp only [unregisterSequence, h]

theorem unregisterSequence_some {table : List (Block cfg)}
    (h : c.pageTables.lookup sequenceId = some table) :
    c.unregisterSequence sequenceId = { table.foldl freePhysicalBlock c with
      pageTables := c.pageTables.erase sequenceId } := by
  simp only [unregisterSequence, h, freePhysicalBlocks_pageTables]

theorem unregisterSequence_lookup (sequenceId id : ℕ) :
    (c.unregisterSequence sequenceId).pageTables.lookup id =
      if id = sequenceId then none else c.pageTables.lookup id := by
  cases h : c.pageTables.lookup sequenceId with
  | none =>
    rw [unregisterSequence_none h]
    split_ifs with hid
    · rw [hid, h]
    · rfl
  | some table =>
    rw [unregisterSequence_some h]
    exact lookup_erase_ite

theorem ownedBlocks_unregister {table : List (Block cfg)}
    (h : c.pageTables.lookup sequenceId = some table) :
    c.ownedBlocks = table + (c.unregisterSequence sequenceId).ownedBlocks := by
  apply ownedBlocks_erase _ h
  rw [unregisterSequence_some h]

end Tables

/-- A table under construction: its fresh blocks were owned by nobody. -/
structure Growing (c : PagedKVCache cfg) (old : List (Block cfg)) (table : List (Block cfg))
    (fresh : List (Block cfg)) : Prop where
  table_eq : table = old ++ fresh
  nodup : fresh.Nodup
  new : ∀ b ∈ fresh, b ∉ old
  unowned : ∀ b ∈ fresh, b ∉ c.ownedBlocks

theorem Growing.refl (old : List (Block cfg)) : c.Growing old old [] where
  table_eq := (List.append_nil old).symm
  nodup := List.nodup_nil
  new _ hb := absurd hb List.not_mem_nil
  unowned _ hb := absurd hb List.not_mem_nil

theorem Growing.concat {old table fresh : List (Block cfg)} (h : c.Growing old table fresh)
    (htable : b ∉ table) (hb : b ∉ c.ownedBlocks) :
    c.Growing old (table ++ [b]) (fresh ++ [b]) := by
  obtain ⟨hold, hfresh⟩ := not_or.mp (List.mem_append.not.mp (h.table_eq ▸ htable))
  refine ⟨by rw [h.table_eq, List.append_assoc], ?_, fun x hx => ?_, fun x hx => ?_⟩
  · exact List.nodup_append'.mpr ⟨h.nodup, List.nodup_singleton b,
      List.disjoint_singleton.mpr hfresh⟩
  all_goals rcases List.mem_append.mp hx with hx | hx
  · exact h.new x hx
  · exact List.mem_singleton.mp hx ▸ hold
  · exact h.unowned x hx
  · exact List.mem_singleton.mp hx ▸ hb

theorem Growing.drop_eq {old table fresh : List (Block cfg)} (h : c.Growing old table fresh) :
    table.drop old.length = fresh := by rw [h.table_eq, List.drop_left]

/-- The locals of a registration over the blocks that other tables own. -/
structure BuildingTable (c : PagedKVCache cfg) (promptTokens : List Int32) (r : Registration cfg) :
    Prop where
  pageTables : r.cache.pageTables = c.pageTables
  growing : ∃ fresh, c.Growing (c.matchedBlocks promptTokens) r.blockTable fresh
  partitioned : r.cache.Partitioned (r.blockTable + c.ownedBlocks)

theorem BuildingTable.allocate {r : Registration cfg} {cache : PagedKVCache cfg}
    (h : c.BuildingTable promptTokens r) (cache' : PagedKVCache cfg)
    (ha : r.cache.allocatePhysicalBlock = some (b, cache))
    (htables : cache'.pageTables = cache.pageTables)
    (hpart : ∀ held, cache.Partitioned held → cache'.Partitioned held) :
    c.BuildingTable promptTokens { r with cache := cache', blockTable := r.blockTable ++ [b] } := by
  obtain ⟨hb, hcache⟩ := h.partitioned.allocatePhysicalBlock ha
  obtain ⟨hbtable, hbowned⟩ := not_or.mp (Multiset.mem_add.not.mp hb)
  obtain ⟨fresh, hgrowing⟩ := h.growing
  refine ⟨?_, ⟨fresh ++ [b], hgrowing.concat hbtable hbowned⟩, (hpart _ hcache).mono ?_⟩
  · exact htables.trans ((allocated ha).pageTables.trans h.pageTables)
  · rw [concat_add_held]

theorem BuildingTable.fillStep {r : Registration cfg} {cache : PagedKVCache cfg}
    (h : c.BuildingTable promptTokens r) (tokens : List Int32)
    (ha : r.cache.allocatePhysicalBlock = some (b, cache)) :
    c.BuildingTable promptTokens (r.fillStep tokens b cache) := by
  have hfill := h.allocate (cache.fillBlock b
    (computeBlockHash tokens r.currentParentHash) r.treePath) ha rfl
    fun held hpart => hpart.fillBlock _ _
  exact ⟨hfill.pageTables, hfill.growing, hfill.partitioned⟩

theorem buildingTable_matched (h : c.Partitioned c.ownedBlocks) (hid : sequenceId ∉ c.pageTables)
    (hmatch : c.NoFreeMatch (.registerSequenceWithPrefix sequenceId promptTokens)) :
    c.BuildingTable promptTokens (c.matched promptTokens) :=
  ⟨shareBlocks_pageTables _, ⟨[], Growing.refl _⟩,
    h.shareBlocks (hmatch hid).1 (hmatch hid).2⟩

theorem buildTable_building (hcaching : cfg.enablePrefixCaching = true)
    (h : c.Partitioned c.ownedBlocks) (hid : sequenceId ∉ c.pageTables)
    (hmatch : c.NoFreeMatch (.registerSequenceWithPrefix sequenceId promptTokens)) :
    c.BuildingTable promptTokens (c.buildTable promptTokens) := by
  have hstart : c.BuildingTable promptTokens (c.afterMatch promptTokens) := by
    rw [afterMatch_eq hcaching]
    exact buildingTable_matched h hid hmatch
  obtain ⟨done, r, hr, -, hend⟩ := buildTable_rule
    (I := fun _ r => c.BuildingTable promptTokens r) hstart
    fun done tokens r b cache _ hr ha => hr.fillStep tokens ha
  rcases hend with hend | ⟨-, ⟨-, hend⟩ | ⟨b, cache, -, ha, hend⟩⟩
  · rw [hend]
    exact ⟨hr.pageTables, hr.growing, hr.partitioned⟩
  · rw [hend]
    exact hr
  · rw [hend]
    exact hr.allocate _ ha rfl fun held hpart => hpart.setTokens _

theorem registerSequence_partitioned (hcaching : cfg.enablePrefixCaching = true)
    (h : c.Partitioned c.ownedBlocks)
    (hmatch : c.NoFreeMatch (.registerSequenceWithPrefix sequenceId promptTokens)) :
    (c.registerSequenceWithPrefix sequenceId promptTokens).2.Partitioned
      (c.registerSequenceWithPrefix sequenceId promptTokens).2.ownedBlocks := by
  unfold registerSequenceWithPrefix
  split_ifs with hid
  · exact h
  have hbuilt := buildTable_building hcaching h hid hmatch
  simp only
  split_ifs with hthrow
  · apply hbuilt.partitioned.mono
    rw [ownedBlocks_congr hbuilt.pageTables]
    exact le_add_self
  · rw [ownedBlocks_insert (c := c) hid (by rw [hbuilt.pageTables])]
    exact hbuilt.partitioned.congr rfl rfl (fun _ => rfl) (fun _ => rfl) fun _ => rfl

structure AppendingTable (c : PagedKVCache cfg) (sequenceId : ℕ) (old : List (Block cfg))
    (table : List (Block cfg)) (c' : PagedKVCache cfg) : Prop where
  lookup : c'.pageTables.lookup sequenceId = some table
  growing : ∃ fresh, c.Growing old table fresh ∧ c'.ownedBlocks = fresh + c.ownedBlocks
  partitioned : c'.Partitioned c'.ownedBlocks

theorem AppendingTable.refl {table : List (Block cfg)} (h : c.Partitioned c.ownedBlocks)
    (hlookup : c.pageTables.lookup sequenceId = some table) :
    c.AppendingTable sequenceId table table c :=
  ⟨hlookup, ⟨[], Growing.refl table, (zero_add _).symm⟩, h⟩

theorem AppendingTable.concat {old table : List (Block cfg)} {cache : PagedKVCache cfg}
    (h : c.AppendingTable sequenceId old table c')
    (ha : c'.allocatePhysicalBlock = some (b, cache)) (n : ℕ) :
    c.AppendingTable sequenceId old (table ++ [b]) { cache.setTokens b n with
      pageTables := cache.pageTables.insert sequenceId (table ++ [b]) } := by
  obtain ⟨fresh, hgrowing, howned⟩ := h.growing
  obtain ⟨hb, hcache⟩ := h.partitioned.allocatePhysicalBlock ha
  have hbtable : b ∉ table := fun hmem => hb (mem_ownedBlocks h.lookup hmem)
  obtain ⟨-, hbowned⟩ := not_or.mp (Multiset.mem_add.not.mp (howned ▸ hb))
  have hnew : PagedKVCache.ownedBlocks { cache.setTokens b n with
      pageTables := cache.pageTables.insert sequenceId (table ++ [b]) } = b ::ₘ c'.ownedBlocks :=
    ownedBlocks_concat h.lookup (by rw [(allocated ha).pageTables])
  refine ⟨AList.lookup_insert _, ⟨fresh ++ [b], hgrowing.concat hbtable hbowned, ?_⟩, ?_⟩
  · rw [hnew, howned, concat_add_held]
  · rw [hnew]
    exact (hcache.setTokens n).congr rfl rfl (fun _ => rfl) (fun _ => rfl) fun _ => rfl

theorem appendTokens_appending {table : List (Block cfg)} (h : c.Partitioned c.ownedBlocks)
    (hlookup : c.pageTables.lookup sequenceId = some table) (numTokens : ℕ) :
    ∃ table', c.AppendingTable sequenceId table table'
      (c.appendTokens sequenceId numTokens).2 := by
  have hstart := AppendingTable.refl h hlookup
  exact appendTokens_rule (I := c.AppendingTable sequenceId table)
    (fun _ _ _ _ n _ hinv ha => hinv.concat ha n) hlookup hstart
    (fun b _ n => ⟨hstart.lookup, hstart.growing, h.setTokens n⟩) numTokens

theorem unregisterSequence_partitioned (sequenceId : ℕ) (h : c.Partitioned c.ownedBlocks) :
    (c.unregisterSequence sequenceId).Partitioned
      (c.unregisterSequence sequenceId).ownedBlocks := by
  cases hlookup : c.pageTables.lookup sequenceId with
  | none =>
    rw [unregisterSequence_none hlookup]
    exact h
  | some table =>
    rw [ownedBlocks_unregister hlookup] at h
    have hfreed := h.freePhysicalBlocks
    rw [unregisterSequence_some hlookup] at hfreed ⊢
    exact hfreed.congr rfl rfl (fun _ => rfl) (fun _ => rfl) fun _ => rfl

/-- One call keeps the partition. -/
theorem step_partitioned (hcaching : cfg.enablePrefixCaching = true) {action : KVCacheAction}
    (h : c.Partitioned c.ownedBlocks) (hmatch : c.NoFreeMatch action) :
    (c.step action).Partitioned (c.step action).ownedBlocks := by
  cases action with
  | registerSequenceWithPrefix sequenceId promptTokens =>
    exact registerSequence_partitioned hcaching h hmatch
  | appendTokens sequenceId numTokens =>
    cases hlookup : c.pageTables.lookup sequenceId with
    | none => simpa only [step, appendTokens, hlookup] using h
    | some table =>
      obtain ⟨table', hinv⟩ := appendTokens_appending h hlookup numTokens
      exact hinv.partitioned
  | unregisterSequence sequenceId => exact unregisterSequence_partitioned sequenceId h

/-- A call hands out nothing, the new part of a table that it builds, or what it appends. -/
theorem handedOut_rule {action : KVCacheAction} {P : List (Block cfg) → Prop} (hnil : P [])
    (hregister : ∀ sequenceId promptTokens,
      action = .registerSequenceWithPrefix sequenceId promptTokens → sequenceId ∉ c.pageTables →
      P ((c.buildTable promptTokens).blockTable.drop (c.matchedBlocks promptTokens).length))
    (happend : ∀ sequenceId numTokens before after, c.pageTables.lookup sequenceId = some before →
      (c.appendTokens sequenceId numTokens).2.pageTables.lookup sequenceId = some after →
      P (after.drop before.length)) : P (c.handedOut action) := by
  cases action with
  | registerSequenceWithPrefix sequenceId promptTokens =>
    rw [handedOut]
    split_ifs with hid
    · exact hnil
    · exact hregister sequenceId promptTokens rfl hid
  | appendTokens sequenceId numTokens =>
    rw [handedOut]
    split
    · rename_i before after hbefore hafter
      exact happend sequenceId numTokens before after hbefore hafter
    · exact hnil
  | unregisterSequence sequenceId => exact hnil

theorem handedOut_unowned (hcaching : cfg.enablePrefixCaching = true) {action : KVCacheAction}
    (h : c.Partitioned c.ownedBlocks) (hmatch : c.NoFreeMatch action) :
    (c.handedOut action).Nodup ∧ ∀ b ∈ c.handedOut action, b ∉ c.ownedBlocks := by
  apply handedOut_rule (P := fun blocks => blocks.Nodup ∧ ∀ b ∈ blocks, b ∉ c.ownedBlocks)
  · exact ⟨List.nodup_nil, fun b hb => absurd hb List.not_mem_nil⟩
  · rintro sequenceId promptTokens rfl hid
    obtain ⟨fresh, hgrowing⟩ := (buildTable_building hcaching h hid hmatch).growing
    rw [hgrowing.drop_eq]
    exact ⟨hgrowing.nodup, hgrowing.unowned⟩
  · intro sequenceId numTokens before after hbefore hafter
    obtain ⟨table', hinv⟩ := appendTokens_appending h hbefore numTokens
    obtain rfl := Option.some.inj (hafter.symm.trans hinv.lookup)
    obtain ⟨fresh, hgrowing, -⟩ := hinv.growing
    rw [hgrowing.drop_eq]
    exact ⟨hgrowing.nodup, hgrowing.unowned⟩

/-- Every block is free, cached or referenced, and what is handed out belonged to no sequence. -/
structure BlockPartition (c : PagedKVCache cfg) : Prop where
  free_nodup : c.freeBlockStack.Nodup
  lru_nodup : c.lruList.Nodup
  one_class : ∀ b,
    b ∈ c.freeBlockStack ∧ b ∉ c.lruList ∧ (c.physicalBlocks b).refCount = 0 ∨
    b ∉ c.freeBlockStack ∧ b ∈ c.lruList ∧ (c.physicalBlocks b).refCount = 0 ∨
    b ∉ c.freeBlockStack ∧ b ∉ c.lruList ∧ 0 < (c.physicalBlocks b).refCount
  allocate_unowned : ∀ b c', c.allocatePhysicalBlock = some (b, c') →
    ∀ sequenceId table, c.pageTables.lookup sequenceId = some table → b ∉ table
  handedOut_unowned : ∀ action, c.NoFreeMatch action → (c.handedOut action).Nodup ∧
    ∀ b ∈ c.handedOut action,
      ∀ sequenceId table, c.pageTables.lookup sequenceId = some table → b ∉ table
  stats : ∀ fl, (c.getStats fl).freeBlocks + (c.getStats fl).cachedPrefixBlocks ≤
      (c.getStats fl).totalBlocks ∧
    (c.getStats fl).allocatedBlocks = (c.getStats fl).totalBlocks -
      ((c.getStats fl).freeBlocks + (c.getStats fl).cachedPrefixBlocks)

theorem Partitioned.blockPartition (hcaching : cfg.enablePrefixCaching = true)
    (h : c.Partitioned c.ownedBlocks) : c.BlockPartition where
  free_nodup := h.free_nodup
  lru_nodup := h.lru_nodup
  one_class b := by
    have hb := h.classified b
    rw [hb.mem_free, hb.mem_lru]
    cases hcached : (c.physicalBlocks b).isCached with
    | false =>
      rcases Nat.eq_zero_or_pos (c.physicalBlocks b).refCount with hr | hr
      · simp [hr]
      · simp [hr, hr.ne']
    | true => simp [(hb.cached_idle hcached).1]
  allocate_unowned b c' ha sequenceId table hlookup hb :=
    (h.allocatePhysicalBlock ha).1 (mem_ownedBlocks hlookup hb)
  handedOut_unowned action hmatch := by
    obtain ⟨hnodup, hunowned⟩ := PagedKVCache.handedOut_unowned hcaching h hmatch
    exact ⟨hnodup, fun b hb sequenceId table hlookup hmem =>
      hunowned b hb (mem_ownedBlocks hlookup hmem)⟩
  stats fl := by
    have hnodup := List.nodup_append'.mpr ⟨h.free_nodup, h.lru_nodup, h.disjoint⟩
    have hle := hnodup.length_le_card
    have hlt := cfg.totalGpuBlocks_lt
    rw [List.length_append, Fintype.card_fin] at hle
    refine ⟨hle, ?_⟩
    simp only [getStats]
    rw [sub_eq (Nat.le_of_add_right_le hle) (by omega), sub_eq (by omega) (by omega), Nat.sub_sub]

/-- The calls of a run; a call that throws leaves what it did. -/
def next (c : PagedKVCache cfg) (action : KVCacheAction) : Option (PagedKVCache cfg) :=
  some (c.step action)

/-- In every run that matches no freed block, the blocks stay partitioned. -/
theorem blocks_partitioned (hcaching : cfg.enablePrefixCaching = true)
    {actions : List KVCacheAction} (hmatch : AllSteps next NoFreeMatch (init cfg) actions)
    (hrun : exec next (init cfg) actions = some c) : c.BlockPartition := by
  have hinv : c.Partitioned c.ownedBlocks := by
    refine exec_invariant (I := fun c : PagedKVCache cfg => c.Partitioned c.ownedBlocks)
      (fun s action s' hs hm he => ?_) init_partitioned hmatch hrun
    exact Option.some.inj he ▸ step_partitioned hcaching hs hm
  exact hinv.blockPartition hcaching

/-- A block is evicted and taken back while its node is in use nowhere. -/
theorem blocks_partitioned_evicting : ∃ c : PagedKVCache { totalGpuBlocks := 1, blockSize := 2 },
    exec next (init _) [.registerSequenceWithPrefix 1 [5, 5], .unregisterSequence 1,
      .registerSequenceWithPrefix 2 [6], .unregisterSequence 2] = some c ∧
    c.BlockPartition ∧ c.lruEvictionsCount = 1 := by
  refine exec_exists (P := fun c => c.lruEvictionsCount = 1) (by decide +kernel) fun c hc hn =>
    ⟨blocks_partitioned rfl ?_ hc, hn⟩
  decide +kernel

/-- The evicted block is matched through its old node: it is on the free stack and in the table of
sequence 3, and it is handed out next. -/
theorem blocks_partitioned_stale : computeBlockHash [5, 5] 0 ≠ 0 ∧
    ∃ c : PagedKVCache { totalGpuBlocks := 1, blockSize := 2 },
      exec next (init _) [.registerSequenceWithPrefix 1 [5, 5], .unregisterSequence 1,
        .registerSequenceWithPrefix 2 [6], .unregisterSequence 2,
        .registerSequenceWithPrefix 3 [5, 5]] = some c ∧
      ¬c.BlockPartition ∧ c.pageTables.lookup 3 = some [0] ∧
      c.allocatePhysicalBlock.map Prod.fst = some 0 := by
  refine ⟨by decide +kernel, exec_exists (P := fun c => c.pageTables.lookup 3 = some [0] ∧
    c.allocatePhysicalBlock.map Prod.fst = some 0) (by decide +kernel) ?_⟩
  rintro c - ⟨htable, hnext⟩
  refine ⟨fun h => ?_, htable, hnext⟩
  obtain ⟨⟨b, c'⟩, ha, rfl⟩ := Option.map_eq_some_iff.mp hnext
  exact h.allocate_unowned _ c' ha 3 _ htable (List.mem_singleton_self _)

end PagedKVCache
end CudaForge.Memory
