import CudaForge.Memory.TableFill

/-!
Reference counts as occurrences in the page tables, with forks. A fork that overwrites a table does
not give its references back.
-/
namespace CudaForge.Memory
open MachineWord FiniteMap Transition

inductive KVCacheCall where
  | registerSequenceWithPrefix (sequenceId : ℕ) (promptTokens : List Int32)
  | appendTokens (sequenceId numTokens : ℕ)
  | unregisterSequence (sequenceId : ℕ)
  | forkSequence (parentSequenceId childSequenceId : ℕ)
  deriving DecidableEq

namespace PagedKVCache
variable {cfg : KVCacheConfig} {c c' : PagedKVCache cfg} {b x : Block cfg} {sequenceId : ℕ}
  {table : List (Block cfg)} {promptTokens : List Int32} {held held' : Multiset (Block cfg)}

def returned {α : Type} : Except KVCacheException α × PagedKVCache cfg → Option (PagedKVCache cfg)
  | (.ok _, c) => some c
  | (.error _, _) => none

/-- The cache after a call, `none` when it throws. -/
def attempt (c : PagedKVCache cfg) : KVCacheCall → Option (PagedKVCache cfg)
  | .registerSequenceWithPrefix sequenceId promptTokens =>
    returned (c.registerSequenceWithPrefix sequenceId promptTokens)
  | .appendTokens sequenceId numTokens => returned (c.appendTokens sequenceId numTokens)
  | .unregisterSequence sequenceId => some (c.unregisterSequence sequenceId)
  | .forkSequence parent child => returned (c.forkSequence parent child)

theorem returned_eq {α : Type} {r : Except KVCacheException α × PagedKVCache cfg}
    (h : returned r = some c') : ∃ a, r = (.ok a, c') := by
  obtain ⟨result, after⟩ := r
  cases result with
  | error exception => contradiction
  | ok a =>
    obtain rfl := Option.some.inj h
    exact ⟨a, rfl⟩

/-- A partition in which every reference count is the number of holders. -/
structure Balanced (c : PagedKVCache cfg) (held : Multiset (Block cfg)) : Prop where
  partitioned : c.Partitioned held
  counted : ∀ b, (c.physicalBlocks b).refCount = held.count b

theorem init_balanced : (init cfg).Balanced 0 := ⟨init_partitioned, fun _ => rfl⟩

namespace Balanced

theorem setTokens (h : c.Balanced held) (n : ℕ) : (c.setTokens b n).Balanced held := by
  refine ⟨h.partitioned.setTokens n, fun x => ?_⟩
  rcases eq_or_ne x b with rfl | hx
  · rw [PagedKVCache.setTokens, setBlock_self]
    exact h.counted x
  · rw [PagedKVCache.setTokens, setBlock_of_ne _ hx]
    exact h.counted x

theorem fillBlock (h : c.Balanced held) (blockHash : UInt64) (path : List UInt64) :
    (c.fillBlock b blockHash path).Balanced held := by
  refine ⟨h.partitioned.fillBlock blockHash path, fun x => ?_⟩
  rcases eq_or_ne x b with rfl | hx
  · simp only [PagedKVCache.fillBlock, setBlock_self]
    exact h.counted x
  · simp only [PagedKVCache.fillBlock, setBlock_of_ne _ hx]
    exact h.counted x

/-- Tables do not matter. -/
theorem insertTables (h : c.Balanced held) (tables : FiniteMap ℕ (List (Block cfg))) :
    Balanced { c with pageTables := tables } held :=
  ⟨h.partitioned.congr rfl rfl (fun _ => rfl) (fun _ => rfl) fun _ => rfl, h.counted⟩

theorem allocatePhysicalBlock (h : c.Balanced held)
    (ha : c.allocatePhysicalBlock = some (b, c')) : c'.Balanced (b ::ₘ held) := by
  obtain ⟨hb, hpart⟩ := h.partitioned.allocatePhysicalBlock ha
  refine ⟨hpart, fun x => ?_⟩
  rcases eq_or_ne x b with rfl | hx
  · rw [(allocated ha).refCount, Multiset.count_cons_self, Multiset.count_eq_zero_of_notMem hb]
  · rw [(allocated ha).other x hx, h.counted, Multiset.count_cons_of_ne hx]

theorem shareBlock (h : c.Balanced held) (hfree : b ∉ c.freeBlockStack)
    (href : (c.physicalBlocks b).refCount + 1 < 2 ^ 32) :
    (c.shareBlock b).Balanced (b ::ₘ held) := by
  refine ⟨h.partitioned.shareBlock hfree href, fun x => ?_⟩
  rw [shareBlock_physicalBlocks]
  rcases eq_or_ne x b with rfl | hx
  · rw [Function.update_self, Multiset.count_cons_self, add_eq href, h.counted]
  · rw [Function.update_of_ne hx, Multiset.count_cons_of_ne hx, h.counted]

/-- A further reference on a block that is held already. -/
theorem addReference (h : c.Balanced held) (hb : b ∈ held)
    (href : (c.physicalBlocks b).refCount + 1 < 2 ^ 32) :
    (c.addReference b).Balanced (b ::ₘ held) := by
  have hpos : 0 < (c.physicalBlocks b).refCount := by
    rw [h.counted]
    exact Multiset.count_pos.mpr hb
  have hself : ((c.addReference b).physicalBlocks b) =
      { c.physicalBlocks b with refCount := (c.physicalBlocks b).refCount + 1 } := by
    rw [PagedKVCache.addReference, setBlock_self, add_eq href]
  have hclass := h.partitioned.classified b
  refine ⟨h.partitioned.touch (b := b) h.partitioned.free_nodup h.partitioned.lru_nodup
    (fun x hx => ⟨setBlock_of_ne _ hx, Iff.rfl, Iff.rfl, Multiset.count_cons_of_ne hx held⟩)
    ⟨?_, ?_, ?_, ?_⟩, fun x => ?_⟩
  · rw [hself]
    exact iff_of_false (h.partitioned.not_mem_free_of_held hb) (by simp)
  · rw [hself]
    exact hclass.mem_lru
  · rw [hself]
    exact fun hcached => absurd (hclass.cached_idle hcached).1 hpos.ne'
  · rw [hself, Multiset.count_cons_self]
    exact Nat.succ_le_succ hclass.held_le
  · rcases eq_or_ne x b with rfl | hx
    · rw [hself, Multiset.count_cons_self, h.counted]
    · rw [Multiset.count_cons_of_ne hx, ← h.counted]
      exact congrArg _ (setBlock_of_ne _ hx)

theorem freePhysicalBlock (h : c.Balanced (b ::ₘ held)) :
    (c.freePhysicalBlock b).Balanced held := by
  refine ⟨h.partitioned.freePhysicalBlock, fun x => ?_⟩
  have hcount := h.counted x
  unfold PagedKVCache.freePhysicalBlock
  rcases eq_or_ne x b with rfl | hx
  · rw [Multiset.count_cons_self] at hcount
    have hpos : (c.physicalBlocks x).refCount ≠ 0 := by omega
    simp only [hpos, if_false]
    split_ifs <;> simp only [setBlock_self] <;> omega
  · rw [Multiset.count_cons_of_ne hx] at hcount
    simp only
    split_ifs <;> simp only [setBlock_of_ne _ hx, hcount]

/-- One more reference each on the blocks of a list. -/
theorem foldl_reference {reference : PagedKVCache cfg → Block cfg → PagedKVCache cfg}
    (ok : PagedKVCache cfg → Multiset (Block cfg) → Block cfg → Prop)
    (hstep : ∀ c held b, c.Balanced held → ok c held b →
      (c.physicalBlocks b).refCount + 1 < 2 ^ 32 → (reference c b).Balanced (b ::ₘ held))
    (hkeep : ∀ c held a b, ok c held b → ok (reference c a) (a ::ₘ held) b)
    {ids : List (Block cfg)} (h : c.Balanced held) (hok : ∀ b ∈ ids, ok c held b)
    (href : ∀ b, (c.physicalBlocks b).refCount + ids.count b < 2 ^ 32) :
    (ids.foldl reference c).Balanced (ids + held) := by
  induction ids generalizing c held with
  | nil => exact (zero_add held).symm ▸ h
  | cons b ids ih =>
    have hb := href b
    rw [List.count_cons_self] at hb
    have hnext := hstep c held b h (hok b List.mem_cons_self) (by omega)
    have hrest := ih hnext (fun x hx => hkeep c held b x (hok x (List.mem_cons_of_mem b hx)))
      fun x => ?_
    · rw [← Multiset.cons_coe, Multiset.cons_add, ← Multiset.add_cons]
      exact hrest
    · have hx := href x
      rw [h.counted] at hx
      rw [hnext.counted]
      rcases eq_or_ne x b with rfl | hne
      · rw [List.count_cons_self] at hx
        rw [Multiset.count_cons_self]
        omega
      · rw [List.count_cons_of_ne hne.symm] at hx
        rwa [Multiset.count_cons_of_ne hne]

theorem shareBlocks {ids : List (Block cfg)} (h : c.Balanced held)
    (hfree : ∀ b ∈ ids, b ∉ c.freeBlockStack)
    (href : ∀ b, (c.physicalBlocks b).refCount + ids.count b < 2 ^ 32) :
    (ids.foldl PagedKVCache.shareBlock c).Balanced (ids + held) :=
  foldl_reference (fun c _ b => b ∉ c.freeBlockStack)
    (fun _ _ _ h hfree href => h.shareBlock hfree href)
    (fun _ _ _ _ hfree => by rwa [shareBlock_freeBlockStack]) h hfree href

theorem addReferences {ids : List (Block cfg)} (h : c.Balanced held) (hids : ∀ b ∈ ids, b ∈ held)
    (href : ∀ b, (c.physicalBlocks b).refCount + ids.count b < 2 ^ 32) :
    (ids.foldl PagedKVCache.addReference c).Balanced (ids + held) :=
  foldl_reference (fun _ held b => b ∈ held)
    (fun _ _ _ h hb href => h.addReference hb href)
    (fun _ _ _ _ hb => Multiset.mem_cons_of_mem hb) h hids href

theorem freePhysicalBlocks (h : c.Balanced (table + held)) :
    (table.foldl PagedKVCache.freePhysicalBlock c).Balanced held := by
  induction table generalizing c with
  | nil => exact (zero_add held) ▸ h
  | cons b table ih =>
    rw [← Multiset.cons_coe, Multiset.cons_add] at h
    exact ih h.freePhysicalBlock

end Balanced
section Calls

/-- A new sequence takes over no free block, a fork goes to an id that is not registered, and no
reference count wraps. -/
def CountsKept (c : PagedKVCache cfg) : KVCacheCall → Prop
  | .registerSequenceWithPrefix sequenceId promptTokens => sequenceId ∉ c.pageTables →
    (∀ b ∈ c.reusedBlocks promptTokens, b ∉ c.freeBlockStack) ∧
    ∀ b, (c.physicalBlocks b).refCount + (c.reusedBlocks promptTokens).count b < 2 ^ 32
  | .forkSequence parent child => child ∉ c.pageTables ∧
    ∀ table ∈ c.pageTables.lookup parent,
      ∀ b, (c.physicalBlocks b).refCount + table.count b < 2 ^ 32
  | _ => True

instance (c : PagedKVCache cfg) : ∀ call, Decidable (c.CountsKept call)
  | .registerSequenceWithPrefix _ _ => show Decidable (_ → _ ∧ _) from inferInstance
  | .appendTokens _ _ => isTrue trivial
  | .unregisterSequence _ => isTrue trivial
  | .forkSequence parent _ =>
    have : Decidable (∀ table ∈ c.pageTables.lookup parent,
        ∀ b, (c.physicalBlocks b).refCount + table.count b < 2 ^ 32) :=
      match c.pageTables.lookup parent with
      | none => isTrue fun _ h => nomatch h
      | some table =>
        decidable_of_iff (∀ b, (c.physicalBlocks b).refCount + table.count b < 2 ^ 32)
          ⟨fun h _ ht => Option.some.inj ht ▸ h, fun h => h table rfl⟩
    show Decidable (_ ∧ _) from inferInstance

structure BalancedTable (c : PagedKVCache cfg) (r : Registration cfg) : Prop where
  pageTables : r.cache.pageTables = c.pageTables
  balanced : r.cache.Balanced (r.blockTable + c.ownedBlocks)

theorem BalancedTable.allocate {r : Registration cfg} {cache : PagedKVCache cfg}
    (h : c.BalancedTable r) (ha : r.cache.allocatePhysicalBlock = some (b, cache)) :
    cache.pageTables = c.pageTables ∧
      cache.Balanced ((r.blockTable ++ [b] : List (Block cfg)) + c.ownedBlocks) := by
  refine ⟨(allocated ha).pageTables.trans h.pageTables, ?_⟩
  rw [concat_add_held]
  exact h.balanced.allocatePhysicalBlock ha

theorem buildTable_balanced (h : c.Balanced c.ownedBlocks) (hid : sequenceId ∉ c.pageTables)
    (hkept : c.CountsKept (.registerSequenceWithPrefix sequenceId promptTokens)) :
    c.BalancedTable (c.buildTable promptTokens) := by
  have hstart : c.BalancedTable (c.afterMatch promptTokens) := by
    refine ⟨?_, ?_⟩
    · rw [afterMatch_cache, shareBlocks_pageTables]
    · rw [afterMatch_cache, afterMatch_blockTable]
      exact h.shareBlocks (hkept hid).1 (hkept hid).2
  obtain ⟨done, r, hr, -, hend⟩ := buildTable_rule (I := fun _ r => c.BalancedTable r) hstart
    fun done tokens r b cache _ hr ha =>
      ⟨(hr.allocate ha).1, (hr.allocate ha).2.fillBlock _ _⟩
  rcases hend with hend | ⟨-, ⟨-, hend⟩ | ⟨b, cache, -, ha, hend⟩⟩
  · rw [hend]
    exact ⟨hr.pageTables, hr.balanced⟩
  · rw [hend]
    exact hr
  · rw [hend]
    exact ⟨(hr.allocate ha).1, (hr.allocate ha).2.setTokens _⟩

theorem registerSequence_balanced (h : c.Balanced c.ownedBlocks) {matchedTokens : ℕ}
    (hkept : c.CountsKept (.registerSequenceWithPrefix sequenceId promptTokens))
    (hrun : c.registerSequenceWithPrefix sequenceId promptTokens = (.ok matchedTokens, c')) :
    c'.Balanced c'.ownedBlocks := by
  by_cases hid : sequenceId ∈ c.pageTables
  · simp only [registerSequenceWithPrefix, hid, if_true] at hrun
    obtain ⟨-, rfl⟩ := Prod.mk.inj hrun
    exact h
  · obtain ⟨-, -, rfl⟩ := registerSequence_ok hid hrun
    have hbuilt := buildTable_balanced h hid hkept
    rw [ownedBlocks_insert (c := c) hid (by rw [hbuilt.pageTables])]
    exact hbuilt.balanced.insertTables _

theorem appendTokens_balanced (h : c.Balanced c.ownedBlocks) (sequenceId numTokens : ℕ) :
    (c.appendTokens sequenceId numTokens).2.Balanced
      (c.appendTokens sequenceId numTokens).2.ownedBlocks := by
  cases hlookup : c.pageTables.lookup sequenceId with
  | none => simpa only [appendTokens, hlookup] using h
  | some table =>
    obtain ⟨table', -, hbalanced⟩ := appendTokens_rule
      (I := fun table c' => c'.pageTables.lookup sequenceId = some table ∧
        c'.Balanced c'.ownedBlocks)
      (by
        rintro table c' b cache n - ⟨htable, hc'⟩ ha
        refine ⟨AList.lookup_insert _, ?_⟩
        rw [ownedBlocks_concat htable (by rw [(allocated ha).pageTables])]
        exact ((hc'.allocatePhysicalBlock ha).setTokens n).insertTables _)
      hlookup ⟨hlookup, h⟩ (fun b _ n => ⟨hlookup, h.setTokens n⟩) numTokens
    exact hbalanced

theorem unregisterSequence_balanced (h : c.Balanced c.ownedBlocks) (sequenceId : ℕ) :
    (c.unregisterSequence sequenceId).Balanced (c.unregisterSequence sequenceId).ownedBlocks := by
  cases hlookup : c.pageTables.lookup sequenceId with
  | none =>
    rw [unregisterSequence_none hlookup]
    exact h
  | some table =>
    rw [ownedBlocks_unregister hlookup] at h
    have hfreed := h.freePhysicalBlocks
    rw [unregisterSequence_some hlookup] at hfreed ⊢
    exact hfreed.insertTables _

theorem addReferences_pageTables (ids : List (Block cfg)) :
    (ids.foldl addReference c).pageTables = c.pageTables := by
  induction ids generalizing c with
  | nil => rfl
  | cons b ids ih =>
    rw [List.foldl_cons, ih]
    rfl

theorem forkSequence_balanced (h : c.Balanced c.ownedBlocks) {parent child : ℕ}
    (hkept : c.CountsKept (.forkSequence parent child)) :
    (c.forkSequence parent child).2.Balanced (c.forkSequence parent child).2.ownedBlocks := by
  unfold forkSequence
  cases hlookup : c.pageTables.lookup parent with
  | none => exact h
  | some table =>
    simp only
    rw [ownedBlocks_insert (c := c) hkept.1 (by rw [addReferences_pageTables])]
    exact (h.addReferences (fun b hb => mem_ownedBlocks hlookup hb)
      (hkept.2 table hlookup)).insertTables _

/-- One call keeps the counts exact. -/
theorem attempt_balanced {call : KVCacheCall} (h : c.Balanced c.ownedBlocks)
    (hkept : c.CountsKept call) (hrun : c.attempt call = some c') :
    c'.Balanced c'.ownedBlocks := by
  cases call with
  | registerSequenceWithPrefix sequenceId promptTokens =>
    obtain ⟨matchedTokens, hok⟩ := returned_eq hrun
    exact registerSequence_balanced h hkept hok
  | appendTokens sequenceId numTokens =>
    obtain ⟨_, hok⟩ := returned_eq hrun
    have hbalanced := appendTokens_balanced h sequenceId numTokens
    rw [hok] at hbalanced
    exact hbalanced
  | unregisterSequence sequenceId =>
    obtain rfl := Option.some.inj hrun
    exact unregisterSequence_balanced h sequenceId
  | forkSequence parent child =>
    obtain ⟨_, hok⟩ := returned_eq hrun
    have hbalanced := forkSequence_balanced h hkept
    rw [hok] at hbalanced
    exact hbalanced

end Calls

/-- Without holders every block is free or cached. -/
theorem Balanced.free_add_cached (h : c.Balanced 0) (fl : Rounding) :
    (c.getStats fl).freeBlocks + (c.getStats fl).cachedPrefixBlocks =
      (c.getStats fl).totalBlocks := by
  have hall : ∀ b, b ∈ c.freeBlockStack ++ c.lruList := by
    intro b
    have hclass := h.partitioned.classified b
    rw [List.mem_append, hclass.mem_free, hclass.mem_lru, h.counted, Multiset.count_zero]
    cases (c.physicalBlocks b).isCached <;> simp
  have hnodup := List.nodup_append'.mpr
    ⟨h.partitioned.free_nodup, h.partitioned.lru_nodup, h.partitioned.disjoint⟩
  have huniv : (c.freeBlockStack ++ c.lruList).toFinset = Finset.univ :=
    Finset.eq_univ_of_forall fun b => List.mem_toFinset.mpr (hall b)
  have hlen := List.toFinset_card_of_nodup hnodup
  rw [huniv, Finset.card_univ, Fintype.card_fin, List.length_append] at hlen
  exact hlen.symm

/-- Every count is the number of occurrences in the tables, and nothing is lost without tables. -/
structure CountsExact (c : PagedKVCache cfg) : Prop where
  counted : ∀ b, (c.physicalBlocks b).refCount =
    total (fun _ (table : List (Block cfg)) => table.count b) c.pageTables
  drained : c.pageTables = ∅ → ∀ fl, (c.getStats fl).freeBlocks +
    (c.getStats fl).cachedPrefixBlocks = (c.getStats fl).totalBlocks

theorem count_ownedBlocks (c : PagedKVCache cfg) (b : Block cfg) : c.ownedBlocks.count b =
    total (fun _ (table : List (Block cfg)) => table.count b) c.pageTables := by
  unfold ownedBlocks total
  rw [← Multiset.coe_countAddMonoidHom, map_list_sum, List.map_map]
  exact congrArg List.sum (List.map_congr_left fun e _ => Multiset.coe_count b e.2)

/-- In every run of calls that keep the counts, the counts are the occurrences. -/
theorem counts_exact {calls : List KVCacheCall}
    (hkept : AllSteps attempt CountsKept (init cfg) calls)
    (hrun : exec attempt (init cfg) calls = some c) : c.CountsExact := by
  have h : c.Balanced c.ownedBlocks :=
    exec_invariant (I := fun c : PagedKVCache cfg => c.Balanced c.ownedBlocks)
      (fun _ _ _ hs hk he => attempt_balanced hs hk he) init_balanced hkept hrun
  refine ⟨fun b => (h.counted b).trans (count_ownedBlocks c b), fun hempty fl => ?_⟩
  have hnone : c.ownedBlocks = 0 := by
    rw [ownedBlocks, hempty, total_empty]
  exact Balanced.free_add_cached (hnone ▸ h) fl

-- A full block of tokens that hashes to 0 goes to the free stack and is matched there.
example : ∃ c : PagedKVCache { totalGpuBlocks := 2, blockSize := 8 },
    exec attempt (init _) [.registerSequenceWithPrefix 1 [1035311811, 1878701419, 1855919497,
        -671910326, -1646116889, -259614482, -234881024, 1616156334], .unregisterSequence 1,
      .registerSequenceWithPrefix 2 [1035311811, 1878701419, 1855919497, -671910326, -1646116889,
        -259614482, -234881024, 1616156334], .registerSequenceWithPrefix 3 [5]] = some c ∧
    c.lruEvictionsCount = 0 ∧ (c.physicalBlocks 0).refCount = 1 ∧
    c.pageTables.lookup 2 = some [0] ∧ c.pageTables.lookup 3 = some [0] :=
  exec_exists (by decide +kernel) fun _ _ h => h

/-- Two sequences share a block, one is forked, and all three leave. -/
theorem counts_exact_forked : ∃ c : PagedKVCache { totalGpuBlocks := 3, blockSize := 2 },
    exec attempt (init _) [.registerSequenceWithPrefix 1 [5, 5, 6],
      .registerSequenceWithPrefix 2 [5, 5], .forkSequence 1 3, .appendTokens 3 2,
      .unregisterSequence 1, .unregisterSequence 2, .unregisterSequence 3] = some c ∧
    c.CountsExact := by
  refine exec_exists (P := fun _ => True) (by decide +kernel) fun c hrun _ => ?_
  exact counts_exact (by decide +kernel) hrun

/-- A fork to its own parent takes references that no table has: when the sequence is gone, its
block is neither free nor cached. -/
theorem counts_exact_refork : ∃ c : PagedKVCache { totalGpuBlocks := 2, blockSize := 2 },
    exec attempt (init _) [.registerSequenceWithPrefix 1 [5], .forkSequence 1 1,
      .unregisterSequence 1] = some c ∧
    c.pageTables = ∅ ∧ (c.physicalBlocks 0).refCount = 1 ∧ c.freeBlockStack = [1] ∧
    c.lruList = [] ∧ ¬c.CountsExact := by
  refine exec_exists (P := fun c => c.pageTables.entries = [] ∧
    (c.physicalBlocks 0).refCount = 1 ∧ c.freeBlockStack = [1] ∧ c.lruList = [])
    (by decide +kernel) ?_
  rintro c - ⟨hentries, href, hfree, hlru⟩
  have hempty : c.pageTables = ∅ := AList.ext hentries
  refine ⟨hempty, href, hfree, hlru, fun h => ?_⟩
  have hcount := h.counted 0
  rw [href, hempty] at hcount
  exact absurd hcount (by simp)

end PagedKVCache
end CudaForge.Memory
