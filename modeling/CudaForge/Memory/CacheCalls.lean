import CudaForge.Memory.PagedKVCache

/-!
What each call does to the cache. A registration is a walk over the tree, which takes references
on cached blocks, and then one fill after another.
-/
namespace CudaForge.Memory
open MachineWord

namespace PagedKVCache
variable {cfg : KVCacheConfig} {c c' : PagedKVCache cfg} {b x : Block cfg}

@[simp] theorem setBlock_self (block : PhysicalBlock) :
    (c.setBlock b block).physicalBlocks b = block := Function.update_self ..

theorem setBlock_of_ne (block : PhysicalBlock) (h : x ≠ b) :
    (c.setBlock b block).physicalBlocks x = c.physicalBlocks x := Function.update_of_ne h ..

section Share

theorem shareBlock_physicalBlocks : (c.shareBlock b).physicalBlocks =
    Function.update c.physicalBlocks b
      { c.physicalBlocks b with
        refCount := add 32 (c.physicalBlocks b).refCount 1
        isCached := false
        lruIterator := (c.physicalBlocks b).lruIterator && !(c.physicalBlocks b).isCached } := by
  unfold shareBlock
  cases hcached : (c.physicalBlocks b).isCached <;>
    cases hiterator : (c.physicalBlocks b).lruIterator <;>
    simp only [hcached, hiterator, setBlock, Bool.false_eq_true, if_true, if_false, Bool.and_true,
      Bool.and_false, Bool.not_true, Bool.not_false]

theorem shareBlock_lruList : (c.shareBlock b).lruList =
    if (c.physicalBlocks b).isCached ∧ (c.physicalBlocks b).lruIterator then c.lruList.erase b
    else c.lruList := by
  unfold shareBlock
  cases hcached : (c.physicalBlocks b).isCached <;>
    cases hiterator : (c.physicalBlocks b).lruIterator <;> simp [hcached, hiterator, setBlock]

@[simp] theorem shareBlock_freeBlockStack :
    (c.shareBlock b).freeBlockStack = c.freeBlockStack := by
  simp only [shareBlock]; split_ifs <;> rfl

@[simp] theorem shareBlock_prefixTree : (c.shareBlock b).prefixTree = c.prefixTree := by
  simp only [shareBlock]; split_ifs <;> rfl

@[simp] theorem shareBlock_pageTables : (c.shareBlock b).pageTables = c.pageTables := by
  simp only [shareBlock]; split_ifs <;> rfl

end Share

section Allocate

theorem takeUnreferenced_spec {blocks : Block cfg → PhysicalBlock} {l l' : List (Block cfg)}
    (h : takeUnreferenced blocks l = some (b, l')) :
    (blocks b).refCount = 0 ∧ l.Perm (b :: l') := by
  induction l generalizing l' with
  | nil => contradiction
  | cons a l ih =>
    unfold takeUnreferenced at h
    cases hrest : takeUnreferenced blocks l with
    | none =>
      simp only [hrest] at h
      split_ifs at h with href
      obtain ⟨rfl, rfl⟩ := Prod.mk.inj (Option.some.inj h)
      exact ⟨href, List.Perm.refl _⟩
    | some victim =>
      simp only [hrest] at h
      obtain ⟨rfl, rfl⟩ := Prod.mk.inj (Option.some.inj h)
      obtain ⟨href, hperm⟩ := ih hrest
      exact ⟨href, (hperm.cons a).trans (List.Perm.swap _ _ _)⟩

/-- What the callers of `allocate_physical_block` see of it. -/
structure Allocated (c : PagedKVCache cfg) (b : Block cfg) (c' : PagedKVCache cfg) : Prop where
  prefixTree : c'.prefixTree = c.prefixTree
  pageTables : c'.pageTables = c.pageTables
  freeBlockStack : c'.freeBlockStack = c.freeBlockStack.tail
  other : ∀ x ≠ b, c'.physicalBlocks x = c.physicalBlocks x
  refCount : (c'.physicalBlocks b).refCount = 1
  numTokensFilled : (c'.physicalBlocks b).numTokensFilled = 0
  hash : (c'.physicalBlocks b).hashValue = 0 ∨
    b ∈ c.freeBlockStack ∧ (c'.physicalBlocks b).hashValue = (c.physicalBlocks b).hashValue

theorem evictLruBlock_eq (h : c.evictLruBlock = some c') :
    ∃ victim rest, takeUnreferenced c.physicalBlocks c.lruList = some (victim, rest) ∧
      c' = { c.setBlock victim { c.physicalBlocks victim with
               isCached := false, hashValue := 0, numTokensFilled := 0, lruIterator := false } with
             hashToNodeMap := c.hashToNodeMap.erase (c.physicalBlocks victim).hashValue
             lruList := rest
             freeBlockStack := victim :: c.freeBlockStack
             lruEvictionsCount := add 64 c.lruEvictionsCount 1 } := by
  obtain ⟨⟨victim, rest⟩, hv, rfl⟩ := Option.map_eq_some_iff.mp h
  exact ⟨victim, rest, hv, rfl⟩

/-- The block comes off the stack, which an eviction filled if it was empty. -/
theorem allocatePhysicalBlock_cases (h : c.allocatePhysicalBlock = some (b, c')) :
    ∃ base rest, base.freeBlockStack = b :: rest ∧
      (base = c ∨ c.freeBlockStack = [] ∧ c.evictLruBlock = some base) ∧
      c' = { base.setBlock b { base.physicalBlocks b with
               refCount := 1, numTokensFilled := 0, isCached := false } with
             freeBlockStack := rest } := by
  unfold allocatePhysicalBlock at h
  obtain ⟨base, hbase, h⟩ := Option.bind_eq_some_iff.mp h
  cases hfree : base.freeBlockStack with
  | nil => simp only [hfree, reduceCtorEq] at h
  | cons a rest =>
    simp only [hfree] at h
    obtain ⟨rfl, rfl⟩ := Prod.mk.inj (Option.some.inj h)
    refine ⟨base, rest, hfree, ?_, rfl⟩
    split_ifs at hbase with hempty
    · exact Or.inr ⟨List.isEmpty_iff.mp hempty, hbase⟩
    · exact Or.inl (Option.some.inj hbase).symm

theorem allocated (h : c.allocatePhysicalBlock = some (b, c')) : c.Allocated b c' := by
  obtain ⟨base, rest, hfree, rfl | ⟨hempty, hevict⟩, rfl⟩ := allocatePhysicalBlock_cases h
  · refine ⟨rfl, rfl, (congrArg List.tail hfree).symm, fun x hx => setBlock_of_ne _ hx,
      by simp only [setBlock_self], by simp only [setBlock_self], Or.inr ?_⟩
    exact ⟨hfree ▸ List.mem_cons_self, by simp only [setBlock_self]⟩
  · obtain ⟨victim, lru, -, rfl⟩ := evictLruBlock_eq hevict
    simp only [hempty, List.cons.injEq] at hfree
    obtain ⟨rfl, rfl⟩ := hfree
    refine ⟨rfl, rfl, hempty.symm ▸ rfl, fun x hx => ?_, by simp only [setBlock_self],
      by simp only [setBlock_self], Or.inl ?_⟩
    · exact (setBlock_of_ne _ hx).trans (setBlock_of_ne _ hx)
    · simp only [setBlock_self]

end Allocate

def pathKey (path : List UInt64) (tokens : List Int32) : UInt64 :=
  computeBlockHash tokens (path.headD 0)

def matchedNodes (c : PagedKVCache cfg) (promptTokens : List Int32) : List (PrefixTreeNode cfg) :=
  c.prefixTree.walk pathKey (promptBlocks cfg promptTokens) []

def matchedBlocks (c : PagedKVCache cfg) (promptTokens : List Int32) : List (Block cfg) :=
  (c.matchedNodes promptTokens).map PrefixTreeNode.physicalBlockId

section Match
variable {r : Registration cfg} {promptTokens : List Int32}

/-- The match loop takes a reference on every block of the walk. -/
theorem matchLoop_eq (blocks : List (List Int32)) (hr : r.currentParentHash = r.treePath.headD 0) :
    matchLoop blocks r =
      let nodes := r.cache.prefixTree.walk pathKey blocks r.treePath
      let ids := nodes.map PrefixTreeNode.physicalBlockId
      let path := PathTrie.descend pathKey r.treePath (blocks.take nodes.length)
      ⟨ids.foldl shareBlock r.cache, r.blockTable ++ ids,
        r.matchedTokens + nodes.length * cfg.blockSize, path.headD 0, path, r.outOfPages⟩ := by
  induction blocks generalizing r with
  | nil =>
    simp only [matchLoop, PathTrie.walk, List.map_nil, List.foldl_nil, List.append_nil,
      List.length_nil, Nat.zero_mul, Nat.add_zero, List.take_zero, PathTrie.descend_nil, ← hr]
  | cons tokens rest ih =>
    have hkey : pathKey r.treePath tokens = computeBlockHash tokens r.currentParentHash := by
      rw [hr, pathKey]
    unfold matchLoop PathTrie.walk
    simp only [hkey]
    cases hchild : r.cache.prefixTree
        (computeBlockHash tokens r.currentParentHash :: r.treePath) with
    | none =>
      simp only [List.map_nil, List.foldl_nil, List.append_nil, List.length_nil, Nat.zero_mul,
        Nat.add_zero, List.take_zero, PathTrie.descend_nil, ← hr]
    | some child =>
      simp only
      rw [ih rfl]
      simp only [shareBlock_prefixTree, List.map_cons, List.foldl_cons, List.append_assoc,
        List.singleton_append, List.length_cons, List.take_succ_cons, PathTrie.descend_cons, hkey,
        Nat.succ_mul, Nat.add_comm cfg.blockSize, Nat.add_assoc]

def matched (c : PagedKVCache cfg) (promptTokens : List Int32) : Registration cfg :=
  let ids := c.matchedBlocks promptTokens
  let path := PathTrie.descend pathKey [] ((promptBlocks cfg promptTokens).take ids.length)
  ⟨ids.foldl shareBlock c, ids, ids.length * cfg.blockSize, path.headD 0, path, false⟩

theorem matchedBlocks_length (c : PagedKVCache cfg) (promptTokens : List Int32) :
    (c.matchedBlocks promptTokens).length = (c.matchedNodes promptTokens).length :=
  List.length_map _

theorem matchedBlocks_length_le (c : PagedKVCache cfg) (promptTokens : List Int32) :
    (c.matchedBlocks promptTokens).length ≤ (promptBlocks cfg promptTokens).length :=
  (matchedBlocks_length c promptTokens).trans_le PathTrie.walk_length_le

theorem matchLoop_matched : matchLoop (promptBlocks cfg promptTokens) ⟨c, [], 0, 0, [], false⟩ =
    c.matched promptTokens := by
  rw [matchLoop_eq _ rfl]
  simp only [matched, matchedBlocks, matchedNodes, List.length_map, List.nil_append, Nat.zero_add]

end Match

section Fill
variable {r : Registration cfg} {promptTokens : List Int32}

theorem promptBlocks_length : (promptBlocks cfg promptTokens).length =
    promptTokens.length % 2 ^ 32 / cfg.blockSize := by
  simp only [promptBlocks, List.length_map, List.length_range]

theorem promptBlocks_drop {total k : ℕ}
    (htotal : total = promptTokens.length % 2 ^ 32) :
    ((List.range ((total - k * cfg.blockSize) / cfg.blockSize)).map fun b =>
      blockTokens cfg promptTokens (k * cfg.blockSize / cfg.blockSize + b)) =
    (promptBlocks cfg promptTokens).drop k := by
  apply List.ext_getElem
  · simp only [List.length_map, List.length_range, List.length_drop, promptBlocks_length, ← htotal,
      Nat.mul_comm k, Nat.sub_mul_div]
  · intro i h₁ h₂
    simp only [List.getElem_map, List.getElem_range, promptBlocks, List.getElem_drop,
      Nat.mul_div_cancel _ cfg.blockSize_pos]

/-- The invariant rule of the fill loop: the locals after the blocks `done` satisfy `I done`. -/
theorem fillLoop_rule {I : List (List Int32) → Registration cfg → Prop}
    {all done blocks : List (List Int32)} (hall : done ++ blocks = all)
    (hstep : ∀ done tokens r b cache, done ++ [tokens] <+: all → I done r →
      r.cache.allocatePhysicalBlock = some (b, cache) →
      I (done ++ [tokens]) (r.fillStep tokens b cache))
    (h : I done r) (hr : r.outOfPages = false) :
    ∃ done' r', I done' r' ∧ r'.outOfPages = false ∧
      (fillLoop blocks r = r' ∧ done' = all ∨
        fillLoop blocks r = { r' with outOfPages := true }) := by
  induction blocks generalizing done r with
  | nil => exact ⟨done, r, h, hr, Or.inl ⟨rfl, (List.append_nil done).symm.trans hall⟩⟩
  | cons tokens rest ih =>
    unfold fillLoop
    cases halloc : r.cache.allocatePhysicalBlock with
    | none => exact ⟨done, r, h, hr, Or.inr rfl⟩
    | some found =>
      obtain ⟨b, cache⟩ := found
      rw [List.append_cons] at hall
      exact ih hall (hstep done tokens r b cache ⟨rest, hall⟩ h halloc) hr

/-- The blocks that a registration takes over from the tree: none without prefix caching. -/
def reusedBlocks (c : PagedKVCache cfg) (promptTokens : List Int32) : List (Block cfg) :=
  if cfg.enablePrefixCaching then c.matchedBlocks promptTokens else []

def afterMatch (c : PagedKVCache cfg) (promptTokens : List Int32) : Registration cfg :=
  if cfg.enablePrefixCaching then c.matched promptTokens else ⟨c, [], 0, 0, [], false⟩

theorem reusedBlocks_eq (hcaching : cfg.enablePrefixCaching = true) (c : PagedKVCache cfg)
    (promptTokens : List Int32) : c.reusedBlocks promptTokens = c.matchedBlocks promptTokens :=
  if_pos hcaching

theorem afterMatch_eq (hcaching : cfg.enablePrefixCaching = true) (c : PagedKVCache cfg)
    (promptTokens : List Int32) : c.afterMatch promptTokens = c.matched promptTokens :=
  if_pos hcaching

theorem afterMatch_cache : (c.afterMatch promptTokens).cache =
    (c.reusedBlocks promptTokens).foldl shareBlock c := by
  unfold afterMatch reusedBlocks
  split_ifs <;> rfl

@[simp] theorem afterMatch_blockTable :
    (c.afterMatch promptTokens).blockTable = c.reusedBlocks promptTokens := by
  unfold afterMatch reusedBlocks
  split_ifs <;> rfl

@[simp] theorem afterMatch_outOfPages : (c.afterMatch promptTokens).outOfPages = false := by
  unfold afterMatch
  split_ifs <;> rfl

theorem afterMatch_matchedTokens : (c.afterMatch promptTokens).matchedTokens =
    (c.reusedBlocks promptTokens).length * cfg.blockSize := by
  unfold afterMatch reusedBlocks
  split_ifs
  · rfl
  · exact (Nat.zero_mul _).symm

theorem reusedBlocks_length_le (c : PagedKVCache cfg) (promptTokens : List Int32) :
    (c.reusedBlocks promptTokens).length ≤ (promptBlocks cfg promptTokens).length := by
  unfold reusedBlocks
  split_ifs
  · exact matchedBlocks_length_le c promptTokens
  · exact Nat.zero_le _

def tailTokens (cfg : KVCacheConfig) (promptTokens : List Int32) : ℕ :=
  promptTokens.length % 2 ^ 32 % cfg.blockSize

/-- A registration is the match loop, the fill loop and the tail, all over the prompt's blocks. -/
theorem buildTable_eq (c : PagedKVCache cfg) (promptTokens : List Int32) :
    c.buildTable promptTokens =
    let filled := fillLoop ((promptBlocks cfg promptTokens).drop
      (c.reusedBlocks promptTokens).length) (c.afterMatch promptTokens)
    if filled.outOfPages then filled else tailStep (tailTokens cfg promptTokens) filled := by
  have hstart : c.afterMatch promptTokens =
      if cfg.enablePrefixCaching then
        matchLoop (promptBlocks cfg promptTokens) ⟨c, [], 0, 0, [], false⟩
      else ⟨c, [], 0, 0, [], false⟩ := by
    rw [matchLoop_matched, afterMatch]
  have hle := reusedBlocks_length_le c promptTokens
  rw [promptBlocks_length, Nat.le_div_iff_mul_le cfg.blockSize_pos] at hle
  have htail : (promptTokens.length % 2 ^ 32 - (c.reusedBlocks promptTokens).length *
      cfg.blockSize) % cfg.blockSize = tailTokens cfg promptTokens := by
    rw [tailTokens, Nat.mul_comm, Nat.sub_mul_mod (by rwa [Nat.mul_comm])]
  unfold buildTable
  simp only [← hstart, afterMatch_matchedTokens]
  rw [promptBlocks_drop rfl, htail]

/-- The invariant rule of a whole registration. -/
theorem buildTable_rule {I : List (List Int32) → Registration cfg → Prop}
    (hmatched : I ((promptBlocks cfg promptTokens).take (c.reusedBlocks promptTokens).length)
      (c.afterMatch promptTokens))
    (hstep : ∀ done tokens r b cache, done ++ [tokens] <+: promptBlocks cfg promptTokens →
      I done r → r.cache.allocatePhysicalBlock = some (b, cache) →
      I (done ++ [tokens]) (r.fillStep tokens b cache)) :
    ∃ done r, I done r ∧ r.outOfPages = false ∧
      (c.buildTable promptTokens = { r with outOfPages := true } ∨
        done = promptBlocks cfg promptTokens ∧
          (¬(tailTokens cfg promptTokens > 0 ∨ r.blockTable = []) ∧
            c.buildTable promptTokens = r ∨
          ∃ b cache, (tailTokens cfg promptTokens > 0 ∨ r.blockTable = []) ∧
            r.cache.allocatePhysicalBlock = some (b, cache) ∧
            c.buildTable promptTokens =
              { r with
                cache := cache.setTokens b (tailTokens cfg promptTokens)
                blockTable := r.blockTable ++ [b] })) := by
  have hbuild := buildTable_eq c promptTokens
  obtain ⟨done, r, hinv, hflag, hend⟩ := fillLoop_rule (List.take_append_drop
    (c.reusedBlocks promptTokens).length (promptBlocks cfg promptTokens)) hstep hmatched
    afterMatch_outOfPages
  refine ⟨done, r, hinv, hflag, ?_⟩
  rcases hend with ⟨hfill, hdone⟩ | hfill
  · simp only [hfill, hflag, Bool.false_eq_true, if_false] at hbuild
    unfold tailStep at hbuild
    split_ifs at hbuild with htail
    · cases halloc : r.cache.allocatePhysicalBlock with
      | none =>
        simp only [halloc] at hbuild
        exact Or.inl hbuild
      | some found =>
        obtain ⟨b, cache⟩ := found
        simp only [halloc] at hbuild
        exact Or.inr ⟨hdone, Or.inr ⟨b, cache, htail, rfl, hbuild⟩⟩
    · exact Or.inr ⟨hdone, Or.inl ⟨htail, hbuild⟩⟩
  · simp only [hfill, if_true] at hbuild
    exact Or.inl hbuild

/-- A registration sees the full blocks of the prompt and its size as a `uint32_t`, nothing else. -/
theorem registerSequence_congr (hcaching : cfg.enablePrefixCaching = true)
    (c : PagedKVCache cfg) (sequenceId : ℕ) {promptTokens' : List Int32}
    (hlen : promptTokens.length % 2 ^ 32 = promptTokens'.length % 2 ^ 32)
    (hblocks : promptBlocks cfg promptTokens = promptBlocks cfg promptTokens') :
    c.registerSequenceWithPrefix sequenceId promptTokens =
      c.registerSequenceWithPrefix sequenceId promptTokens' := by
  have hids : c.matchedBlocks promptTokens = c.matchedBlocks promptTokens' := by
    rw [matchedBlocks, matchedNodes, hblocks, ← matchedNodes, ← matchedBlocks]
  have hmatched : c.matched promptTokens = c.matched promptTokens' := by
    rw [matched, hids, hblocks, ← matched]
  have hbuild : c.buildTable promptTokens = c.buildTable promptTokens' := by
    rw [buildTable_eq, buildTable_eq, reusedBlocks_eq hcaching, reusedBlocks_eq hcaching,
      afterMatch_eq hcaching, afterMatch_eq hcaching, hids, hmatched, hblocks, tailTokens, hlen,
      ← tailTokens]
  rw [registerSequenceWithPrefix, registerSequenceWithPrefix, hbuild]

/-- What a call that registers a new sequence returns, and the cache after it. -/
theorem registerSequence_ok {sequenceId matchedTokens : ℕ} (hid : sequenceId ∉ c.pageTables)
    (h : c.registerSequenceWithPrefix sequenceId promptTokens = (.ok matchedTokens, c')) :
    (c.buildTable promptTokens).outOfPages = false ∧
      matchedTokens = (c.buildTable promptTokens).matchedTokens ∧
      c' = { (c.buildTable promptTokens).cache with
        pageTables := (c.buildTable promptTokens).cache.pageTables.insert sequenceId
          (c.buildTable promptTokens).blockTable } := by
  unfold registerSequenceWithPrefix at h
  simp only [hid, if_false] at h
  split_ifs at h with hthrow
  · exact absurd (Prod.mk.inj h).1 (by simp)
  · obtain ⟨hn, rfl⟩ := Prod.mk.inj h
    exact ⟨Bool.eq_false_iff.mpr hthrow, (Except.ok.inj hn).symm, rfl⟩

end Fill

section Append
variable {sequenceId : ℕ}

/-- The invariant rule of the loop of `append_tokens`, for the growing table and the cache. -/
theorem appendLoop_rule {I : List (Block cfg) → PagedKVCache cfg → Prop}
    (hstep : ∀ table c b cache n, n ≤ cfg.blockSize → I table c →
      c.allocatePhysicalBlock = some (b, cache) →
      I (table ++ [b]) { cache.setTokens b n with
        pageTables := cache.pageTables.insert sequenceId (table ++ [b]) })
    {table : List (Block cfg)} (h : I table c) (additional remaining : ℕ) :
    ∃ table', I table' (appendLoop sequenceId additional remaining table c).2 := by
  induction additional generalizing table c remaining with
  | zero => exact ⟨table, h⟩
  | succ additional ih =>
    unfold appendLoop
    cases halloc : c.allocatePhysicalBlock with
    | none => exact ⟨table, h⟩
    | some found => exact ih (hstep table c found.1 found.2 _ (Nat.min_le_right _ _) h halloc) _

theorem appendTokens_rule {I : List (Block cfg) → PagedKVCache cfg → Prop}
    (hstep : ∀ table c b cache n, n ≤ cfg.blockSize → I table c →
      c.allocatePhysicalBlock = some (b, cache) →
      I (table ++ [b]) { cache.setTokens b n with
        pageTables := cache.pageTables.insert sequenceId (table ++ [b]) })
    {table : List (Block cfg)} (hlookup : c.pageTables.lookup sequenceId = some table)
    (h : I table c) (hset : ∀ b ∈ table.getLast?, ∀ n, I table (c.setTokens b n))
    (numTokens : ℕ) :
    ∃ table', I table' (c.appendTokens sequenceId numTokens).2 := by
  simp only [appendTokens, hlookup]
  cases hlast : table.getLast? with
  | none => exact ⟨table, h⟩
  | some last =>
    simp only
    split_ifs
    · exact ⟨table, hset last hlast _⟩
    · exact appendLoop_rule hstep (hset last hlast _) _ _

end Append
end PagedKVCache
end CudaForge.Memory
