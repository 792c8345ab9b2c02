import CudaForge.Memory.PrefixMatching

/-!
What the blocks of a registered prompt hold. A block's `hash_value` tells what it was filled with,
so that a match is right when the block still carries the hash of its node.
-/
namespace CudaForge.Memory
open MachineWord FiniteMap PagedKVCache

section Hashes
variable {cfg : KVCacheConfig} {prompts : List (List Int32)}
  {promptTokens promptTokens' tokens : List Int32} {i j : ℕ}

def prefixHash (blocks : List (List Int32)) : UInt64 := (hashPath blocks).headD 0

theorem prefixHash_take_succ {blocks : List (List Int32)} (h : blocks[i]? = some tokens) :
    prefixHash (blocks.take (i + 1)) = computeBlockHash tokens (prefixHash (blocks.take i)) := by
  rw [prefixHash, hashPath, List.take_add_one, h, Option.toList_some, PathTrie.descend_concat]
  rfl

theorem NoCollision.prefixHash_ne_zero (hcoll : NoCollision cfg prompts)
    (hP : promptTokens ∈ prompts) (hi : 0 < i) (hle : i ≤ (promptBlocks cfg promptTokens).length) :
    prefixHash ((promptBlocks cfg promptTokens).take i) ≠ 0 := by
  obtain ⟨i, rfl⟩ := Nat.exists_eq_succ_of_ne_zero hi.ne'
  have hget := List.getElem?_eq_getElem hle
  rw [prefixHash_take_succ hget]
  exact hcoll.nonzero _ (List.mem_flatMap.mpr ⟨_, hP, mem_metPairs hget⟩)

/-- The hash of a prefix determines the prefix. -/
theorem NoCollision.take_eq_of_prefixHash (hcoll : NoCollision cfg prompts)
    (hP : promptTokens ∈ prompts) (hP' : promptTokens' ∈ prompts)
    (hi : i ≤ (promptBlocks cfg promptTokens).length)
    (hj : j ≤ (promptBlocks cfg promptTokens').length)
    (h : prefixHash ((promptBlocks cfg promptTokens).take i) =
      prefixHash ((promptBlocks cfg promptTokens').take j)) :
    (promptBlocks cfg promptTokens).take i = (promptBlocks cfg promptTokens').take j := by
  induction i generalizing j with
  | zero =>
    rcases Nat.eq_zero_or_pos j with rfl | hpos
    · rfl
    · exact absurd h.symm (hcoll.prefixHash_ne_zero hP' hpos hj)
  | succ i ih =>
    rcases Nat.eq_zero_or_pos j with rfl | hpos
    · exact absurd h (hcoll.prefixHash_ne_zero hP i.succ_pos hi)
    obtain ⟨j, rfl⟩ := Nat.exists_eq_succ_of_ne_zero hpos.ne'
    have hget := List.getElem?_eq_getElem hi
    have hget' := List.getElem?_eq_getElem hj
    rw [prefixHash_take_succ hget, prefixHash_take_succ hget'] at h
    have heq := hcoll.injective _ (List.mem_flatMap.mpr ⟨_, hP, mem_metPairs hget⟩) _
      (List.mem_flatMap.mpr ⟨_, hP', mem_metPairs hget'⟩) h
    obtain ⟨hparent, htokens⟩ := Prod.mk.inj heq
    rw [List.take_add_one, List.take_add_one, hget, hget', htokens,
      ih (Nat.le_of_succ_le hi) (Nat.le_of_succ_le hj) hparent]

end Hashes

namespace PagedKVCache
variable {cfg : KVCacheConfig} {c c' : PagedKVCache cfg} {b x : Block cfg} {sequenceId : ℕ}
  {promptTokens : List Int32}

def FreeUnhashed (c : PagedKVCache cfg) : Prop :=
  ∀ b ∈ c.freeBlockStack, (c.physicalBlocks b).hashValue = 0

/-- An allocated block carries no hash either. -/
theorem FreeUnhashed.allocate (h : c.FreeUnhashed) (ha : c.allocatePhysicalBlock = some (b, c')) :
    c'.FreeUnhashed ∧ (c'.physicalBlocks b).hashValue = 0 := by
  have halloc := allocated ha
  have hb : (c'.physicalBlocks b).hashValue = 0 := by
    rcases halloc.hash with hzero | ⟨hfree, hsame⟩
    · exact hzero
    · rw [hsame, h b hfree]
  refine ⟨fun x hx => ?_, hb⟩
  rcases eq_or_ne x b with rfl | hne
  · exact hb
  · rw [halloc.other x hne]
    exact h x (List.mem_of_mem_tail (halloc.freeBlockStack ▸ hx))

theorem setTokens_hash (n : ℕ) :
    ((c.setTokens b n).physicalBlocks x).hashValue = (c.physicalBlocks x).hashValue := by
  rcases eq_or_ne x b with rfl | hx
  · rw [setTokens, setBlock_self]
  · rw [setTokens, setBlock_of_ne _ hx]

theorem shareBlocks_hash (ids : List (Block cfg)) :
    ((ids.foldl shareBlock c).physicalBlocks x).hashValue = (c.physicalBlocks x).hashValue := by
  induction ids generalizing c with
  | nil => rfl
  | cons b ids ih =>
    rw [List.foldl_cons, ih, shareBlock_physicalBlocks]
    rcases eq_or_ne x b with rfl | hx
    · rw [Function.update_self]
    · rw [Function.update_of_ne hx]

theorem shareBlocks_freeBlockStack (ids : List (Block cfg)) :
    (ids.foldl shareBlock c).freeBlockStack = c.freeBlockStack := by
  induction ids generalizing c with
  | nil => rfl
  | cons b ids ih => rw [List.foldl_cons, ih, shareBlock_freeBlockStack]

theorem freePhysicalBlock_hash :
    ((c.freePhysicalBlock b).physicalBlocks x).hashValue = (c.physicalBlocks x).hashValue := by
  simp only [freePhysicalBlock]
  rcases eq_or_ne x b with rfl | hx
  · split_ifs <;> simp only [setBlock_self]
  · split_ifs <;> simp only [setBlock_of_ne _ hx]

/-- With prefix caching only a block without a hash goes back to the free stack. -/
theorem FreeUnhashed.free (hcaching : cfg.enablePrefixCaching = true) (h : c.FreeUnhashed) :
    (c.freePhysicalBlock b).FreeUnhashed := by
  intro x hx
  rw [freePhysicalBlock_hash]
  simp only [freePhysicalBlock, hcaching, Bool.true_and] at hx
  split_ifs at hx with hpos hzero hhash
  · exact h x hx
  · exact h x hx
  · rcases List.mem_cons.mp hx with rfl | hx
    · simpa using hhash
    · exact h x hx
  · exact h x hx

theorem freePhysicalBlocks_unhashed (hcaching : cfg.enablePrefixCaching = true)
    (h : c.FreeUnhashed) (ids : List (Block cfg)) :
    (ids.foldl freePhysicalBlock c).FreeUnhashed ∧
      ∀ x, ((ids.foldl freePhysicalBlock c).physicalBlocks x).hashValue =
        (c.physicalBlocks x).hashValue := by
  induction ids generalizing c with
  | nil => exact ⟨h, fun _ => rfl⟩
  | cons b ids ih =>
    obtain ⟨hfree, hhash⟩ := ih (h.free hcaching (b := b))
    exact ⟨hfree, fun x => (hhash x).trans freePhysicalBlock_hash⟩

theorem unregisterSequence_unhashed (hcaching : cfg.enablePrefixCaching = true)
    (h : c.FreeUnhashed) (sequenceId : ℕ) :
    (c.unregisterSequence sequenceId).FreeUnhashed ∧
      ∀ x, ((c.unregisterSequence sequenceId).physicalBlocks x).hashValue =
        (c.physicalBlocks x).hashValue := by
  cases hlookup : c.pageTables.lookup sequenceId with
  | none =>
    rw [unregisterSequence_none hlookup]
    exact ⟨h, fun _ => rfl⟩
  | some table =>
    rw [unregisterSequence_some hlookup]
    exact freePhysicalBlocks_unhashed hcaching h table

/-- The entries of a table from index `k` on were given new hashes, other blocks kept theirs. -/
structure Rehashed (c : PagedKVCache cfg) (k : ℕ) (hashes : ℕ → UInt64) (table : List (Block cfg))
    (c' : PagedKVCache cfg) : Prop where
  length : k ≤ table.length
  unhashed : c'.FreeUnhashed
  old : ∀ x ∉ table.drop k, (c'.physicalBlocks x).hashValue = (c.physicalBlocks x).hashValue
  new : ∀ i x, k ≤ i → table[i]? = some x → (c'.physicalBlocks x).hashValue = hashes i

theorem Rehashed.concat {k : ℕ} {hashes : ℕ → UInt64} {table : List (Block cfg)}
    {cache : PagedKVCache cfg} (h : c.Rehashed k hashes table c') (c'' : PagedKVCache cfg)
    (hb : b ∉ table)
    (ha : c'.allocatePhysicalBlock = some (b, cache)) (hfree : b ∉ cache.freeBlockStack)
    (hstack : c''.freeBlockStack = cache.freeBlockStack)
    (hother : ∀ x ≠ b, (c''.physicalBlocks x).hashValue = (cache.physicalBlocks x).hashValue)
    (hself : (c''.physicalBlocks b).hashValue = hashes table.length) :
    c.Rehashed k hashes (table ++ [b]) c'' := by
  have hsame : ∀ x ≠ b, (c''.physicalBlocks x).hashValue = (c'.physicalBlocks x).hashValue :=
    fun x hx => (hother x hx).trans (by rw [(allocated ha).other x hx])
  refine ⟨?_, fun x hx => ?_, fun x hx => ?_, fun i x hi hget => ?_⟩
  · rw [List.length_append]
    exact h.length.trans (Nat.le_add_right _ _)
  · rw [hstack] at hx
    rw [hother x fun hxb => hfree (hxb ▸ hx)]
    exact (h.unhashed.allocate ha).1 x hx
  · rw [List.drop_append_of_le_length h.length] at hx
    obtain ⟨htable, hxb⟩ := not_or.mp (List.mem_append.not.mp hx)
    rw [hsame x fun heq => hxb (List.mem_singleton.mpr heq)]
    exact h.old x htable
  · rcases Nat.lt_or_ge i table.length with hlt | hge
    · rw [List.getElem?_append_left hlt] at hget
      rw [hsame x fun heq => hb (heq ▸ List.mem_of_getElem? hget)]
      exact h.new i x hi hget
    · rw [List.getElem?_append_right hge, List.getElem?_singleton] at hget
      split_ifs at hget with hzero
      obtain rfl := Option.some.inj hget
      rw [hself]
      congr 1
      omega

/-- The hashes of a new table: full blocks carry the hash of their prefix, the tail none. -/
def tableHashes (cfg : KVCacheConfig) (promptTokens : List Int32) (i : ℕ) : UInt64 :=
  if i < (promptBlocks cfg promptTokens).length then
    prefixHash ((promptBlocks cfg promptTokens).take (i + 1))
  else 0

/-- A fresh block of a registration is neither free nor in the table yet. -/
theorem BuildingTable.fresh {r : Registration cfg} {cache : PagedKVCache cfg}
    (h : c.BuildingTable promptTokens r) (ha : r.cache.allocatePhysicalBlock = some (b, cache)) :
    b ∉ r.blockTable ∧ b ∉ cache.freeBlockStack := by
  obtain ⟨hb, hcache⟩ := h.partitioned.allocatePhysicalBlock ha
  exact ⟨fun hmem => hb (Multiset.mem_add.mpr (Or.inl hmem)),
    hcache.not_mem_free_of_held (Multiset.mem_cons_self b _)⟩

theorem fillBlock_hash (blockHash : UInt64) (path : List UInt64) :
    ((c.fillBlock b blockHash path).physicalBlocks b).hashValue = blockHash ∧
      ∀ x ≠ b, ((c.fillBlock b blockHash path).physicalBlocks x).hashValue =
        (c.physicalBlocks x).hashValue :=
  ⟨by simp only [fillBlock, setBlock_self], fun x hx => by
    simp only [fillBlock, setBlock_of_ne _ hx]⟩

/-- A registration that matches no free block rehashes the fresh blocks of its table. -/
theorem registerSequence_rehashed (hcaching : cfg.enablePrefixCaching = true)
    (hclosed : c.prefixTree.Closed) (hpart : c.Partitioned c.ownedBlocks) (hfree : c.FreeUnhashed)
    (hid : sequenceId ∉ c.pageTables)
    (hmatch : c.NoFreeMatch (.registerSequenceWithPrefix sequenceId promptTokens))
    {matchedTokens : ℕ}
    (h : c.registerSequenceWithPrefix sequenceId promptTokens = (.ok matchedTokens, c')) :
    ∃ table fresh, c'.pageTables = c.pageTables.insert sequenceId table ∧
      c.Growing (c.matchedBlocks promptTokens) table fresh ∧
      c.Rehashed (c.matchedBlocks promptTokens).length (tableHashes cfg promptTokens) table c' := by
  obtain ⟨hflag, -, rfl⟩ := registerSequence_ok hid h
  have hbuilt := buildTable_building hcaching hpart hid hmatch
  obtain ⟨fresh, hgrowing⟩ := hbuilt.growing
  refine ⟨_, fresh, by rw [hbuilt.pageTables], hgrowing, ?_⟩
  have hstart : c.Rehashed (c.matchedBlocks promptTokens).length (tableHashes cfg promptTokens)
      (c.matched promptTokens).blockTable (c.matched promptTokens).cache := by
    refine ⟨le_rfl, fun x hx => ?_, fun x _ => shareBlocks_hash _, fun i x hi hget => ?_⟩
    · simp only [matched, shareBlocks_freeBlockStack] at hx
      exact (shareBlocks_hash _).trans (hfree x hx)
    · exact absurd hi (Nat.not_le.mpr (List.getElem?_eq_some_iff.mp hget).1)
  have hinit : c.BuildingTable promptTokens (c.afterMatch promptTokens) ∧
      c.Entered promptTokens
        ((promptBlocks cfg promptTokens).take (c.reusedBlocks promptTokens).length)
        (c.afterMatch promptTokens) ∧
      c.Rehashed (c.matchedBlocks promptTokens).length (tableHashes cfg promptTokens)
        (c.afterMatch promptTokens).blockTable (c.afterMatch promptTokens).cache := by
    rw [afterMatch_eq hcaching, reusedBlocks_eq hcaching]
    exact ⟨buildingTable_matched hpart hid hmatch, entered_matched c promptTokens, hstart⟩
  obtain ⟨done, r, ⟨hr, hentered, hrehashed⟩, -, hend⟩ := buildTable_rule
    (I := fun done r => c.BuildingTable promptTokens r ∧ c.Entered promptTokens done r ∧
      c.Rehashed (c.matchedBlocks promptTokens).length (tableHashes cfg promptTokens)
        r.blockTable r.cache) hinit (by
      rintro done tokens r b cache hdone ⟨hr, hentered, hrehashed⟩ ha
      refine ⟨hr.fillStep tokens ha, hentered.fillStep hclosed hdone ha, ?_⟩
      obtain ⟨htable, hnotfree⟩ := hr.fresh ha
      obtain ⟨hself, hother⟩ := fillBlock_hash (c := cache) (b := b)
        (computeBlockHash tokens r.currentParentHash) r.treePath
      refine hrehashed.concat _ htable ha hnotfree rfl hother (hself.trans ?_)
      have htake := List.prefix_iff_eq_take.mp hdone
      have hle := hdone.length_le
      rw [List.length_append, List.length_singleton] at htake hle
      rw [hentered.length, tableHashes, if_pos (Nat.lt_of_succ_le hle), ← htake, prefixHash,
        hashPath, PathTrie.descend_concat, ← hashPath, ← hentered.treePath, pathKey,
        ← hentered.parentHash]
      rfl)
  rcases hend with hend | ⟨rfl, ⟨-, hend⟩ | ⟨b, cache, -, ha, hend⟩⟩
  · exact absurd hflag (by simp [hend])
  · rw [hend]
    exact ⟨hrehashed.length, hrehashed.unhashed, hrehashed.old, hrehashed.new⟩
  · rw [hend]
    obtain ⟨htable, hnotfree⟩ := hr.fresh ha
    have hset := hrehashed.concat (cache.setTokens b (tailTokens cfg promptTokens)) htable ha
      hnotfree rfl
      (fun x _ => setTokens_hash _) (by
        rw [setTokens_hash, (hrehashed.unhashed.allocate ha).2, hentered.length, tableHashes,
          if_neg (Nat.lt_irrefl _)])
    exact ⟨hset.length, hset.unhashed, hset.old, hset.new⟩

/-- What an append does to the table of its sequence, to the other tables and to the hashes. -/
theorem appendTokens_rehashed {table : List (Block cfg)} (hpart : c.Partitioned c.ownedBlocks)
    (hfree : c.FreeUnhashed) (hlookup : c.pageTables.lookup sequenceId = some table)
    (numTokens : ℕ) :
    ∃ table', c.AppendingTable sequenceId table table' (c.appendTokens sequenceId numTokens).2 ∧
      c.Rehashed table.length (fun _ => 0) table' (c.appendTokens sequenceId numTokens).2 ∧
      ∀ id ≠ sequenceId, (c.appendTokens sequenceId numTokens).2.pageTables.lookup id =
        c.pageTables.lookup id := by
  have hstart (c' : PagedKVCache cfg) (hstack : c'.freeBlockStack = c.freeBlockStack)
      (hsame : ∀ x, (c'.physicalBlocks x).hashValue = (c.physicalBlocks x).hashValue) :
      c.Rehashed table.length (fun _ => 0) table c' := by
    refine ⟨le_rfl, fun x hx => ?_, fun x _ => hsame x, fun i x hi hget => ?_⟩
    · rw [hsame]
      exact hfree x (hstack ▸ hx)
    · exact absurd hi (Nat.not_le.mpr (List.getElem?_eq_some_iff.mp hget).1)
  have happend := AppendingTable.refl hpart hlookup
  refine appendTokens_rule (I := fun table' c' => c.AppendingTable sequenceId table table' c' ∧
    c.Rehashed table.length (fun _ => 0) table' c' ∧
    ∀ id ≠ sequenceId, c'.pageTables.lookup id = c.pageTables.lookup id) ?_ hlookup
    ⟨happend, hstart c rfl fun _ => rfl, fun _ _ => rfl⟩
    (fun b _ n => ⟨⟨happend.lookup, happend.growing, hpart.setTokens n⟩,
      hstart _ rfl fun x => setTokens_hash n, fun _ _ => rfl⟩) numTokens
  rintro table' c' b cache n - ⟨hinv, hrehashed, hother⟩ ha
  obtain ⟨hb, hcache⟩ := hinv.partitioned.allocatePhysicalBlock ha
  refine ⟨hinv.concat ha n, ?_, fun id hid => ?_⟩
  · refine hrehashed.concat _ (fun hmem => hb (mem_ownedBlocks hinv.lookup hmem)) ha
      (hcache.not_mem_free_of_held (Multiset.mem_cons_self b _)) rfl
      (fun x _ => setTokens_hash n) ?_
    exact (setTokens_hash n).trans (hrehashed.unhashed.allocate ha).2
  · rw [← hother id hid, ← (allocated ha).pageTables]
    exact AList.lookup_insert_ne hid

end PagedKVCache

namespace KVSystem
variable {cfg : KVCacheConfig} {s s' : KVSystem cfg} {sequenceId : ℕ} {promptTokens : List Int32}

section RecordFills
variable {blocks : List (List Int32)} {filled : Block cfg → Option (List (List Int32))}
  {l : List (Block cfg)} {b : Block cfg}

theorem recordFills_of_notMem (i : ℕ) (h : b ∉ l) : recordFills blocks l i filled b = filled b := by
  induction l generalizing i filled with
  | nil => rfl
  | cons a l ih =>
    obtain ⟨hne, hl⟩ := not_or.mp (List.mem_cons.not.mp h)
    rw [recordFills, ih (i + 1) hl, Function.update_of_ne hne]

theorem recordFills_get {i j : ℕ} (hnodup : l.Nodup) (h : l[j]? = some b)
    (hlt : i + j < blocks.length) :
    recordFills blocks l i filled b = some (blocks.take (i + j + 1)) := by
  induction l generalizing i j filled with
  | nil => simp at h
  | cons a l ih =>
    obtain ⟨ha, hl⟩ := List.nodup_cons.mp hnodup
    rw [recordFills]
    cases j with
    | zero =>
      obtain rfl := Option.some.inj h
      rw [recordFills_of_notMem (i + 1) ha, Function.update_self]
      exact if_pos hlt
    | succ j =>
      rw [ih hl h (by omega)]
      congr 2
      omega

end RecordFills

/-- No registration meets a node whose block does not carry the node's hash any more, no reference
count wraps, and the size of the prompt fits into `uint32_t`. -/
def NoStaleMatch (s : KVSystem cfg) : KVCacheAction → Prop
  | .registerSequenceWithPrefix sequenceId promptTokens => sequenceId ∉ s.cache.pageTables →
    promptTokens.length < 2 ^ 32 ∧
    (∀ node ∈ s.cache.matchedNodes promptTokens,
      (s.cache.physicalBlocks node.physicalBlockId).hashValue = node.hashValue) ∧
    ∀ b, (s.cache.physicalBlocks b).refCount + (s.cache.matchedBlocks promptTokens).count b <
      2 ^ 32
  | _ => True

instance (s : KVSystem cfg) : ∀ action, Decidable (s.NoStaleMatch action)
  | .registerSequenceWithPrefix _ _ => inferInstanceAs (Decidable (_ → _ ∧ _ ∧ _))
  | .appendTokens _ _ => isTrue trivial
  | .unregisterSequence _ => isTrue trivial

def TableHolds (filled : Block cfg → Option (List (List Int32))) (promptTokens : List Int32)
    (table : List (Block cfg)) : Prop :=
  ∀ i < (promptBlocks cfg promptTokens).length, ∃ b, table[i]? = some b ∧
    filled b = some ((promptBlocks cfg promptTokens).take (i + 1))

/-- A block with a hash was last filled with the prefix of a prompt that has this hash. -/
structure Coherent (s : KVSystem cfg) : Prop where
  partitioned : s.cache.Partitioned s.cache.ownedBlocks
  unhashed : s.cache.FreeUnhashed
  content : ∀ b, (s.cache.physicalBlocks b).hashValue ≠ 0 → ∃ e ∈ s.history,
    ∃ i ≤ (promptBlocks cfg e.promptTokens).length,
      s.filled b = some ((promptBlocks cfg e.promptTokens).take i) ∧
      (s.cache.physicalBlocks b).hashValue =
        prefixHash ((promptBlocks cfg e.promptTokens).take i)
  tables : ∀ id promptTokens, s.prompts.lookup id = some promptTokens →
    promptTokens.length < 2 ^ 32 ∧ ∃ table, s.cache.pageTables.lookup id = some table ∧
      TableHolds s.filled promptTokens table

theorem init_coherent : (init cfg).Coherent where
  partitioned := init_partitioned
  unhashed _ _ := rfl
  content _ h := absurd rfl h
  tables id promptTokens h := by simp [init] at h

/-- A matched block is filled with what the new prompt needs there. -/
theorem Coherent.matched (h : s.Coherent) (htree : s.cache.TreeOf s.history)
    (hcoll : NoCollision cfg (promptTokens :: s.registeredPrompts))
    (hstale : ∀ node ∈ s.cache.matchedNodes promptTokens,
      (s.cache.physicalBlocks node.physicalBlockId).hashValue = node.hashValue)
    {i : ℕ} (hi : i < (s.cache.matchedBlocks promptTokens).length) :
    ∃ b, (s.cache.matchedBlocks promptTokens)[i]? = some b ∧
      (s.cache.physicalBlocks b).hashValue ≠ 0 ∧
      s.filled b = some ((promptBlocks cfg promptTokens).take (i + 1)) := by
  have hle := matchedBlocks_length_le s.cache promptTokens
  have hlen : (hashPath ((promptBlocks cfg promptTokens).take (i + 1))).length = i + 1 := by
    rw [hashPath_length, List.length_take, Nat.min_eq_left (by omega)]
  have hne := List.ne_nil_of_length_pos ((Nat.succ_pos i).trans_eq hlen.symm)
  obtain ⟨node, hget, hnode⟩ := matched_some (c := s.cache) hne
    (hashPath_take_suffix _ (i + 1)) (by omega)
  obtain ⟨-, -, -, -, hhash, -⟩ := htree.sound _ _ hnode
  rw [hlen, Nat.add_sub_cancel] at hget
  have hsame := (hstale node (List.mem_of_getElem? hget)).trans hhash
  have hnonzero := hcoll.prefixHash_ne_zero List.mem_cons_self (Nat.succ_pos i) (by omega)
  refine ⟨node.physicalBlockId, ?_, hsame ▸ hnonzero, ?_⟩
  · rw [matchedBlocks, List.getElem?_map, hget]
    rfl
  · obtain ⟨e, he, j, hj, hfilled, hcontent⟩ := h.content node.physicalBlockId
      (hsame ▸ hnonzero)
    rw [hfilled, hcoll.take_eq_of_prefixHash List.mem_cons_self
      (List.mem_cons_of_mem _ (List.mem_map_of_mem he)) (by omega) hj
      (hsame.symm.trans hcontent)]

/-- What matches no stale node matches no free block. -/
theorem Coherent.noFreeMatch (h : s.Coherent) (htree : s.cache.TreeOf s.history)
    (hcoll : NoCollision cfg (promptTokens :: s.registeredPrompts))
    (hstale : s.NoStaleMatch (.registerSequenceWithPrefix sequenceId promptTokens)) :
    s.cache.NoFreeMatch (.registerSequenceWithPrefix sequenceId promptTokens) := by
  intro hid
  obtain ⟨-, hmatch, href⟩ := hstale hid
  refine ⟨fun b hb hfree => ?_, href⟩
  obtain ⟨i, hi, hget⟩ := List.mem_iff_getElem.mp hb
  obtain ⟨b', hget', hnonzero, -⟩ := h.matched htree hcoll hmatch hi
  obtain rfl := Option.some.inj ((List.getElem?_eq_getElem hi).symm.trans hget')
  exact hnonzero (h.unhashed _ (hget ▸ hfree))

/-- Filling blocks that no table owns leaves the tables as they are. -/
theorem TableHolds.congr {filled filled' : Block cfg → Option (List (List Int32))}
    {table table' : List (Block cfg)} (h : TableHolds filled promptTokens table)
    (hpre : table <+: table') (hsame : ∀ b ∈ table, filled' b = filled b) :
    TableHolds filled' promptTokens table' := by
  intro i hi
  obtain ⟨b, hget, hfilled⟩ := h i hi
  obtain ⟨hlt, rfl⟩ := List.getElem?_eq_some_iff.mp hget
  refine ⟨_, List.prefix_iff_getElem?.mp hpre i hlt, ?_⟩
  rw [hsame _ (List.getElem_mem hlt), hfilled]

theorem Coherent.register (hcaching : cfg.enablePrefixCaching = true) (h : s.Coherent)
    (htree : s.cache.TreeOf s.history) (hid : sequenceId ∉ s.cache.pageTables)
    (hstep : s.step (.registerSequenceWithPrefix sequenceId promptTokens) = some s')
    (hstale : s.NoStaleMatch (.registerSequenceWithPrefix sequenceId promptTokens))
    (hcoll : NoCollision cfg s'.registeredPrompts) : s'.Coherent := by
  obtain ⟨n, table, hok, hlookup, hfilled, hprompts, hhistory⟩ := step_register hid hstep
  obtain ⟨rfl, table', hlookup', htable⟩ := registerSequence_tree hcaching htree.closed hid hok
  obtain rfl := Option.some.inj (hlookup.symm.trans hlookup')
  rw [registeredPrompts, hhistory] at hcoll
  have hfree := h.noFreeMatch htree hcoll hstale
  obtain ⟨table', fresh, htables, hgrowing, hrehashed⟩ := registerSequence_rehashed hcaching
    htree.closed h.partitioned h.unhashed hid hfree hok
  obtain rfl : table' = table := by
    rw [htables, AList.lookup_insert] at hlookup
    exact Option.some.inj hlookup
  rw [Nat.mul_div_cancel _ cfg.blockSize_pos, hgrowing.drop_eq] at hfilled
  have hold : ∀ b ∉ fresh, s'.filled b = s.filled b := fun b hb => by
    rw [hfilled, recordFills_of_notMem _ hb]
  have hnew : ∀ i b, (s.cache.matchedBlocks promptTokens).length ≤ i →
      i < (promptBlocks cfg promptTokens).length → table'[i]? = some b →
      s'.filled b = some ((promptBlocks cfg promptTokens).take (i + 1)) := by
    intro i b hi hlt hget
    have hfresh : fresh[i - (s.cache.matchedBlocks promptTokens).length]? = some b := by
      rw [← hgrowing.drop_eq, List.getElem?_drop, Nat.add_sub_of_le hi, hget]
    rw [hfilled, recordFills_get hgrowing.nodup hfresh (by omega), Nat.add_sub_of_le hi]
  refine ⟨?_, hrehashed.unhashed, fun b hb => ?_, fun id P hP => ?_⟩
  · have hpart := registerSequence_partitioned hcaching h.partitioned hfree
    rwa [hok] at hpart
  · by_cases hmem : b ∈ fresh
    · obtain ⟨j, hj, hget⟩ := List.mem_iff_getElem.mp hmem
      have hget' : table'[(s.cache.matchedBlocks promptTokens).length + j]? = some b := by
        rw [← List.getElem?_drop, hgrowing.drop_eq, List.getElem?_eq_getElem hj, hget]
      have hhash := hrehashed.new _ b (Nat.le_add_right _ _) hget'
      rw [tableHashes] at hhash
      split_ifs at hhash with hlt
      · exact ⟨_, hhistory ▸ List.mem_cons_self, _, Nat.succ_le_of_lt hlt,
          hnew _ b (Nat.le_add_right _ _) hlt hget', hhash⟩
      · exact absurd hhash hb
    · have hsame := hrehashed.old b (hgrowing.drop_eq ▸ hmem)
      obtain ⟨e, he, i, hi, hcontent, hhash⟩ := h.content b (hsame ▸ hb)
      exact ⟨e, hhistory ▸ List.mem_cons_of_mem _ he, i, hi, (hold b hmem).trans hcontent,
        hsame.trans hhash⟩
  · rw [hprompts, lookup_insert_ite] at hP
    split_ifs at hP with heq
    · obtain rfl := Option.some.inj hP
      obtain ⟨hlen, hmatch, -⟩ := hstale hid
      refine ⟨hlen, table', heq ▸ hlookup, fun i hi => ?_⟩
      rcases Nat.lt_or_ge i (s.cache.matchedBlocks promptTokens).length with hlt | hge
      · obtain ⟨b, hget, -, hcontent⟩ := h.matched htree hcoll hmatch hlt
        obtain ⟨hlt', hget⟩ := List.getElem?_eq_some_iff.mp hget
        refine ⟨b, hget ▸ List.prefix_iff_getElem?.mp htable.matched i hlt', ?_⟩
        rw [hold b fun hb => hgrowing.new b hb (hget ▸ List.getElem_mem hlt'), hcontent]
      · have hget := List.getElem?_eq_getElem (hi.trans_le htable.length)
        exact ⟨_, hget, hnew i _ hge hi hget⟩
    · obtain ⟨hlen, table, hlookup, hholds⟩ := h.tables id P hP
      refine ⟨hlen, table, ?_, hholds.congr (List.prefix_refl _) fun b hb => hold b fun hf => ?_⟩
      · rw [htables, AList.lookup_insert_ne heq, hlookup]
      · exact hgrowing.unowned b hf (mem_ownedBlocks hlookup hb)

theorem Coherent.append {numTokens : ℕ} (h : s.Coherent)
    (hstep : s.step (.appendTokens sequenceId numTokens) = some s') : s'.Coherent := by
  obtain ⟨table, hlookup⟩ := step_append_registered hstep
  obtain rfl := step_append hstep
  obtain ⟨table', hinv, hrehashed, hother⟩ :=
    appendTokens_rehashed h.partitioned h.unhashed hlookup numTokens
  obtain ⟨fresh, hgrowing, -⟩ := hinv.growing
  have hout : s.cache.handedOut (.appendTokens sequenceId numTokens) = fresh := by
    simp only [handedOut, hlookup, hinv.lookup]
    exact hgrowing.drop_eq
  have hkeep : ∀ id P, s.prompts.lookup id = some P → ∀ table,
      s.cache.pageTables.lookup id = some table → TableHolds s.filled P table →
      ∀ table', table <+: table' → TableHolds (fun b =>
        if b ∈ s.cache.handedOut (.appendTokens sequenceId numTokens) then none
        else s.filled b) P table' := by
    intro id P _ table hlookup hholds table' hpre
    refine hholds.congr hpre fun b hb => if_neg fun hmem => ?_
    exact hgrowing.unowned b (hout ▸ hmem) (mem_ownedBlocks hlookup hb)
  refine ⟨hinv.partitioned, hrehashed.unhashed, fun b hb => ?_, fun id P hP => ?_⟩
  · have hmem : b ∉ fresh := fun hmem => by
      obtain ⟨j, hj, hget⟩ := List.mem_iff_getElem.mp (hgrowing.drop_eq.symm ▸ hmem)
      rw [List.getElem_drop] at hget
      exact hb (hrehashed.new _ b (Nat.le_add_right _ j)
        (hget ▸ List.getElem?_eq_getElem _))
    have hsame := hrehashed.old b (hgrowing.drop_eq ▸ hmem)
    obtain ⟨e, he, i, hi, hcontent, hhash⟩ := h.content b (hsame ▸ hb)
    exact ⟨e, he, i, hi, (if_neg (hout ▸ hmem)).trans hcontent, hsame.trans hhash⟩
  · obtain ⟨hlen, old, hold, hholds⟩ := h.tables id P hP
    refine ⟨hlen, ?_⟩
    rcases eq_or_ne id sequenceId with rfl | hid
    · obtain rfl := Option.some.inj (hlookup.symm.trans hold)
      exact ⟨table', hinv.lookup, hkeep id P hP _ hold hholds _
        (hgrowing.table_eq ▸ List.prefix_append _ _)⟩
    · exact ⟨old, (hother id hid).trans hold, hkeep id P hP _ hold hholds _
        (List.prefix_refl _)⟩

theorem Coherent.unregister (hcaching : cfg.enablePrefixCaching = true) (h : s.Coherent)
    (hstep : s.step (.unregisterSequence sequenceId) = some s') : s'.Coherent := by
  obtain rfl := Option.some.inj hstep
  obtain ⟨hunhashed, hhash⟩ := unregisterSequence_unhashed hcaching h.unhashed sequenceId
  refine ⟨unregisterSequence_partitioned sequenceId h.partitioned, hunhashed, fun b hb => ?_,
    fun id P hP => ?_⟩
  · simp only [hhash] at hb ⊢
    exact h.content b hb
  · simp only [lookup_erase_ite] at hP
    split_ifs at hP with hid
    obtain ⟨hlen, table, hlookup, hholds⟩ := h.tables id P hP
    have hsame := unregisterSequence_lookup (c := s.cache) sequenceId id
    rw [if_neg hid] at hsame
    exact ⟨hlen, table, hsame.trans hlookup, hholds⟩

theorem step_registeredPrompts {action : KVCacheAction} (h : s.step action = some s') :
    s.registeredPrompts ⊆ s'.registeredPrompts := by
  cases action with
  | registerSequenceWithPrefix sequenceId promptTokens =>
    by_cases hid : sequenceId ∈ s.cache.pageTables
    · rw [step_registered hid h]
      exact List.Subset.refl _
    · obtain ⟨n, table, -, -, -, -, hhistory⟩ := step_register hid h
      rw [registeredPrompts, registeredPrompts, hhistory]
      exact List.subset_cons_self _ _
  | appendTokens sequenceId numTokens =>
    rw [step_append h]
    exact List.Subset.refl _
  | unregisterSequence sequenceId =>
    obtain rfl := Option.some.inj h
    exact List.Subset.refl _

/-- One call keeps the blocks coherent. -/
theorem Coherent.step (hcaching : cfg.enablePrefixCaching = true) (h : s.Coherent)
    (htree : s.cache.TreeOf s.history) {action : KVCacheAction} (hstale : s.NoStaleMatch action)
    (hstep : s.step action = some s') (hcoll : NoCollision cfg s'.registeredPrompts) :
    s'.Coherent := by
  cases action with
  | registerSequenceWithPrefix sequenceId promptTokens =>
    by_cases hid : sequenceId ∈ s.cache.pageTables
    · rw [step_registered hid hstep]
      exact h
    · exact h.register hcaching htree hid hstep hstale hcoll
  | appendTokens sequenceId numTokens => exact h.append hstep
  | unregisterSequence sequenceId => exact h.unregister hcaching hstep

/-- In every run without stale matches, the full blocks of a registered prompt are in blocks that
were last filled with exactly these tokens after exactly this prefix. -/
theorem prefix_coherent (hcaching : cfg.enablePrefixCaching = true) {actions : List KVCacheAction}
    (hstale : Transition.AllSteps step NoStaleMatch (init cfg) actions)
    (hrun : Transition.exec step (init cfg) actions = some s)
    (hcoll : NoCollision cfg s.registeredPrompts)
    (hprompt : s.prompts.lookup sequenceId = some promptTokens) :
    ∃ table, s.cache.pageTables.lookup sequenceId = some table ∧
      ∀ i < promptTokens.length / cfg.blockSize, ∃ b, table[i]? = some b ∧
        s.filled b = some ((List.range (i + 1)).map (blockTokens cfg promptTokens)) := by
  have hcoherent : s.cache.TreeOf s.history ∧
      (NoCollision cfg s.registeredPrompts → s.Coherent) := by
    refine Transition.exec_invariant (I := fun s : KVSystem cfg => s.cache.TreeOf s.history ∧
      (NoCollision cfg s.registeredPrompts → s.Coherent)) ?_
      ⟨init_treeOf, fun _ => init_coherent⟩ hstale hrun
    intro t action t' ⟨htree, hinv⟩ hok hstep
    refine ⟨step_treeOf hcaching htree hstep, fun hcoll => ?_⟩
    exact (hinv (hcoll.mono (step_registeredPrompts hstep))).step hcaching htree hok hstep hcoll
  obtain ⟨hlen, table, hlookup, hholds⟩ :=
    (hcoherent.2 hcoll).tables sequenceId promptTokens hprompt
  refine ⟨table, hlookup, fun i hi => ?_⟩
  have hi' : i < (promptBlocks cfg promptTokens).length := by
    rwa [promptBlocks_length, Nat.mod_eq_of_lt hlen]
  obtain ⟨b, hget, hfilled⟩ := hholds i hi'
  exact ⟨b, hget, by rw [hfilled, promptBlocks_take hi']⟩

/-- A released block is matched again, and evicted later. -/
theorem prefix_coherent_evicting : ∃ s : KVSystem twoBlocks,
    Transition.exec step (init _) [.registerSequenceWithPrefix 1 [1, 2], .unregisterSequence 1,
      .registerSequenceWithPrefix 2 [1, 2], .unregisterSequence 2,
      .registerSequenceWithPrefix 3 [3, 4, 5]] = some s ∧
    s.cache.lruEvictionsCount = 1 ∧ s.cache.prefixCacheHits = 1 ∧
    ∃ table, s.cache.pageTables.lookup 3 = some table ∧
      ∀ i < 3 / 2, ∃ b, table[i]? = some b ∧
        s.filled b = some ((List.range (i + 1)).map (blockTokens twoBlocks [3, 4, 5])) := by
  refine Transition.exec_exists (P := fun s => NoCollision twoBlocks s.registeredPrompts ∧
    s.prompts.lookup 3 = some [3, 4, 5] ∧ s.cache.lruEvictionsCount = 1 ∧
      s.cache.prefixCacheHits = 1) (by decide +kernel) ?_
  rintro s hrun ⟨hcoll, hprompt, hevictions, hhits⟩
  exact ⟨hevictions, hhits, prefix_coherent rfl (by decide +kernel) hrun hcoll hprompt⟩

/-- The node of `[5]` outlives its block: sequence 3 gets the block that was filled with `[6]`. -/
theorem prefix_coherent_stale : ∃ s : KVSystem oneBlock,
    Transition.exec step (init _) [.registerSequenceWithPrefix 1 [5], .unregisterSequence 1,
      .registerSequenceWithPrefix 2 [6], .registerSequenceWithPrefix 3 [5]] = some s ∧
    NoCollision oneBlock s.registeredPrompts ∧ s.prompts.lookup 3 = some [5] ∧
    s.cache.pageTables.lookup 3 = some [0] ∧ s.filled 0 = some [[6]] :=
  Transition.exec_exists (by decide +kernel) fun _ _ h => h

end KVSystem
end CudaForge.Memory
