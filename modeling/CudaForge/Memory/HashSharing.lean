import CudaForge.Memory.TableFill
import CudaForge.Memory.PrefixCoherence

/-!
What a prefix hit means when nothing is evicted. The tree compares hashes only, so that equal tokens
are guaranteed exactly as far as blocks with one parent have different hashes; and a block can be
told from a fresh one only by a hash that is not 0.
-/
namespace CudaForge.Memory
open MachineWord FiniteMap PagedKVCache

namespace PagedKVCache
variable {cfg : KVCacheConfig} {c c' c'' : PagedKVCache cfg} {b x : Block cfg} {sequenceId : ℕ}
  {table : List (Block cfg)} {promptTokens : List Int32} {held held' : Multiset (Block cfg)}

section Evictions

/-- Either nothing was evicted so far and `p` holds, or the counter of evictions has moved, by at
most `m`. -/
def CalmOr (c c' : PagedKVCache cfg) (m : ℕ) (p : Prop) : Prop :=
  c'.lruEvictionsCount = c.lruEvictionsCount ∧ p ∨
    ∃ k, 0 < k ∧ k ≤ m ∧ c'.lruEvictionsCount = (c.lruEvictionsCount + k) % 2 ^ 64

variable {m : ℕ} {p q : Prop}

theorem allocatePhysicalBlock_evictions (h : c.allocatePhysicalBlock = some (b, c')) :
    c.freeBlockStack ≠ [] ∧ c'.lruEvictionsCount = c.lruEvictionsCount ∨
      c'.lruEvictionsCount = add 64 c.lruEvictionsCount 1 := by
  obtain ⟨base, rest, hfree, rfl | ⟨-, hevict⟩, rfl⟩ := allocatePhysicalBlock_cases h
  · exact Or.inl ⟨List.ne_nil_of_mem (hfree ▸ List.mem_cons_self), rfl⟩
  · obtain ⟨victim, lru, -, rfl⟩ := evictLruBlock_eq hevict
    exact Or.inr rfl

theorem CalmOr.congr (h : c.CalmOr c' m p) (hcount : c''.lruEvictionsCount = c'.lruEvictionsCount)
    (hpq : p → q) : c.CalmOr c'' m q := by
  rcases h with ⟨hcalm, hp⟩ | ⟨k, hpos, hle, hk⟩
  · exact Or.inl ⟨hcount.trans hcalm, hpq hp⟩
  · exact Or.inr ⟨k, hpos, hle, hcount.trans hk⟩

theorem CalmOr.allocate (h : c.CalmOr c' m p) (ha : c'.allocatePhysicalBlock = some (b, c''))
    (hpq : p → c'.freeBlockStack ≠ [] → q) : c.CalmOr c'' (m + 1) q := by
  rcases allocatePhysicalBlock_evictions ha with ⟨hfree, hsame⟩ | hevict
  · rcases h with ⟨hcalm, hp⟩ | ⟨k, hpos, hle, hk⟩
    · exact Or.inl ⟨hsame.trans hcalm, hpq hp hfree⟩
    · exact Or.inr ⟨k, hpos, hle.trans (Nat.le_succ m), hsame.trans hk⟩
  · right
    rcases h with ⟨hcalm, -⟩ | ⟨k, hpos, hle, hk⟩
    · exact ⟨1, Nat.one_pos, Nat.le_add_left 1 m, by rw [hevict, hcalm, add]⟩
    · refine ⟨k + 1, Nat.succ_pos k, Nat.succ_le_succ hle, ?_⟩
      rw [hevict, hk, add, Nat.mod_add_mod, Nat.add_assoc]

/-- Where the counter is as before, nothing was evicted. -/
theorem CalmOr.calm (h : c.CalmOr c' m p) (hm : m < 2 ^ 64)
    (hcount : c'.lruEvictionsCount = c.lruEvictionsCount) : p := by
  rcases h with ⟨-, hp⟩ | ⟨k, hpos, hle, hk⟩
  · exact hp
  · rw [hcount] at hk
    omega

theorem shareBlocks_evictions (ids : List (Block cfg)) :
    (ids.foldl shareBlock c).lruEvictionsCount = c.lruEvictionsCount := by
  induction ids generalizing c with
  | nil => rfl
  | cons b ids ih =>
    rw [List.foldl_cons, ih]
    simp only [shareBlock]
    split_ifs <;> rfl

theorem afterMatch_evictions :
    (c.afterMatch promptTokens).cache.lruEvictionsCount = c.lruEvictionsCount := by
  rw [afterMatch_cache, shareBlocks_evictions]

theorem promptBlocks_length_le (cfg : KVCacheConfig) (promptTokens : List Int32) :
    (promptBlocks cfg promptTokens).length ≤ 2 ^ 32 := by
  rw [promptBlocks_length]
  exact (Nat.div_le_self _ _).trans (Nat.mod_lt _ (by norm_num)).le

/-- The rule of a registration that evicts nothing: its blocks come off the free stack. -/
theorem buildTable_calm {I : List (List Int32) → Registration cfg → Prop}
    (hmatched : I ((promptBlocks cfg promptTokens).take (c.reusedBlocks promptTokens).length)
      (c.afterMatch promptTokens))
    (hstep : ∀ done tokens r b cache, done ++ [tokens] <+: promptBlocks cfg promptTokens →
      I done r → r.cache.freeBlockStack ≠ [] → r.cache.allocatePhysicalBlock = some (b, cache) →
      I (done ++ [tokens]) (r.fillStep tokens b cache))
    (hok : (c.buildTable promptTokens).outOfPages = false)
    (hcount : (c.buildTable promptTokens).cache.lruEvictionsCount = c.lruEvictionsCount) :
    ∃ r, I (promptBlocks cfg promptTokens) r ∧ (c.buildTable promptTokens = r ∨
      ∃ b cache, r.cache.freeBlockStack ≠ [] ∧
        r.cache.allocatePhysicalBlock = some (b, cache) ∧
        c.buildTable promptTokens =
          { r with
            cache := cache.setTokens b (tailTokens cfg promptTokens)
            blockTable := r.blockTable ++ [b] }) := by
  have hle := promptBlocks_length_le cfg promptTokens
  obtain ⟨done, r, hr, hflag, hend⟩ := buildTable_rule
    (I := fun done r => c.CalmOr r.cache done.length (I done r))
    (Or.inl ⟨afterMatch_evictions, hmatched⟩)
    fun done tokens r b cache hdone hr ha => by
      rw [List.length_append, List.length_singleton]
      exact (hr.allocate ha fun hinv hfree => hstep done tokens r b cache hdone hinv hfree ha).congr
        rfl id
  rcases hend with hend | ⟨rfl, ⟨-, hend⟩ | ⟨b, cache, -, ha, hend⟩⟩
  · simp [hend] at hok
  · rw [hend] at hcount
    exact ⟨r, hr.calm (by omega) hcount, Or.inl hend⟩
  · rw [hend] at hcount
    have hboth := (hr.allocate ha fun hinv hfree => And.intro hinv hfree).calm (by omega) hcount
    exact ⟨r, hboth.1, Or.inr ⟨b, cache, hboth.2, ha, hend⟩⟩

/-- The rule of the loop of an append that evicts nothing. -/
theorem appendLoop_calm {c₀ : PagedKVCache cfg} {I : List (Block cfg) → PagedKVCache cfg → Prop}
    (hstep : ∀ table c b cache n, I table c → c.freeBlockStack ≠ [] →
      c.allocatePhysicalBlock = some (b, cache) →
      I (table ++ [b]) { cache.setTokens b n with
        pageTables := cache.pageTables.insert sequenceId (table ++ [b]) })
    (h : c₀.CalmOr c m (I table c)) (additional remaining : ℕ) :
    ∃ table', c₀.CalmOr (appendLoop sequenceId additional remaining table c).2 (m + additional)
      (I table' (appendLoop sequenceId additional remaining table c).2) := by
  induction additional generalizing table c m remaining with
  | zero => exact ⟨table, h⟩
  | succ additional ih =>
    unfold appendLoop
    cases ha : c.allocatePhysicalBlock with
    | none =>
      refine ⟨table, ?_⟩
      rcases h with h | ⟨k, hpos, hle, hk⟩
      · exact Or.inl h
      · exact Or.inr ⟨k, hpos, hle.trans (Nat.le_add_right _ _), hk⟩
    | some found =>
      have hnext := h.allocate ha fun hinv hfree =>
        hstep table c found.1 found.2 (min remaining cfg.blockSize) hinv hfree ha
      rw [Nat.add_comm additional, ← Nat.add_assoc]
      exact ih (c := { found.2.setTokens found.1 (min remaining cfg.blockSize) with
        pageTables := found.2.pageTables.insert sequenceId (table ++ [found.1]) })
        (hnext.congr rfl id) _

theorem appendTokens_calm {I : List (Block cfg) → PagedKVCache cfg → Prop}
    (hstep : ∀ table c b cache n, I table c → c.freeBlockStack ≠ [] →
      c.allocatePhysicalBlock = some (b, cache) →
      I (table ++ [b]) { cache.setTokens b n with
        pageTables := cache.pageTables.insert sequenceId (table ++ [b]) })
    (hlookup : c.pageTables.lookup sequenceId = some table) (h : I table c)
    (hset : ∀ b ∈ table.getLast?, ∀ n, I table (c.setTokens b n)) {numTokens : ℕ}
    (hcount : (c.appendTokens sequenceId numTokens).2.lruEvictionsCount = c.lruEvictionsCount) :
    ∃ table', I table' (c.appendTokens sequenceId numTokens).2 := by
  simp only [appendTokens, hlookup] at hcount ⊢
  cases hlast : table.getLast? with
  | none => exact ⟨table, h⟩
  | some last =>
    simp only [hlast] at hcount ⊢
    split_ifs at hcount ⊢ with hfits
    · exact ⟨table, hset last hlast _⟩
    · have hstart : c.CalmOr (c.setTokens last cfg.blockSize) 0
          (I table (c.setTokens last cfg.blockSize)) := Or.inl ⟨rfl, hset last hlast _⟩
      obtain ⟨table', hend⟩ := appendLoop_calm hstep hstart _ _
      refine ⟨table', hend.calm ?_ hcount⟩
      rw [Nat.zero_add]
      exact ((Nat.div_le_self _ _).trans_lt (sub_lt 32 _ 1)).trans (by norm_num)

end Evictions
section Sealed

/-- Blocks without a hash have at most one holder, and a node's block has a hash and one node. -/
structure Sealed (c : PagedKVCache cfg) (held : Multiset (Block cfg)) : Prop where
  free_nodup : c.freeBlockStack.Nodup
  free_unowned : ∀ b ∈ c.freeBlockStack, b ∉ held
  unhashed : c.FreeUnhashed
  unhashed_once : ∀ b, (c.physicalBlocks b).hashValue = 0 → held.count b ≤ 1
  node_hashed : ∀ path node, c.prefixTree path = some node →
    (c.physicalBlocks node.physicalBlockId).hashValue ≠ 0
  node_injective : ∀ path path' node node', c.prefixTree path = some node →
    c.prefixTree path' = some node' → node.physicalBlockId = node'.physicalBlockId → path = path'

theorem init_sealed : (init cfg).Sealed 0 where
  free_nodup := List.nodup_finRange _
  free_unowned b _ := Multiset.notMem_zero b
  unhashed _ _ := rfl
  unhashed_once _ _ := Nat.zero_le 1
  node_hashed _ _ h := nomatch h
  node_injective _ _ _ _ h := nomatch h

namespace Sealed

theorem mono (h : c.Sealed held) (hle : held' ≤ held) : c.Sealed held' :=
  { h with
    free_unowned := fun b hb hmem => h.free_unowned b hb (Multiset.mem_of_le hle hmem)
    unhashed_once := fun b hb =>
      (Multiset.count_le_of_le b hle).trans (h.unhashed_once b hb) }

/-- Only the free stack, the hashes and the tree matter. -/
theorem congr (h : c.Sealed held) (hfree : c'.freeBlockStack = c.freeBlockStack)
    (htree : c'.prefixTree = c.prefixTree)
    (hhash : ∀ b, (c'.physicalBlocks b).hashValue = (c.physicalBlocks b).hashValue) :
    c'.Sealed held where
  free_nodup := hfree ▸ h.free_nodup
  free_unowned := hfree ▸ h.free_unowned
  unhashed b hb := (hhash b).trans (h.unhashed b (hfree ▸ hb))
  unhashed_once b hb := h.unhashed_once b (hhash b ▸ hb)
  node_hashed path node hnode := by
    rw [hhash]
    exact h.node_hashed path node (htree ▸ hnode)
  node_injective := htree ▸ h.node_injective

theorem setTokens (h : c.Sealed held) (n : ℕ) : (c.setTokens b n).Sealed held :=
  h.congr rfl rfl fun _ => setTokens_hash n

/-- A new holder of a block with a hash. -/
theorem cons (h : c.Sealed held) (hb : (c.physicalBlocks b).hashValue ≠ 0) :
    c.Sealed (b ::ₘ held) := by
  refine { h with free_unowned := fun x hx hmem => ?_, unhashed_once := fun x hx => ?_ }
  · rcases Multiset.mem_cons.mp hmem with rfl | hmem
    · exact hb (h.unhashed x hx)
    · exact h.free_unowned x hx hmem
  · have hne : x ≠ b := by
      rintro rfl
      exact hb hx
    rw [Multiset.count_cons_of_ne hne]
    exact h.unhashed_once x hx

theorem shareBlocks {ids : List (Block cfg)} (h : c.Sealed held)
    (hids : ∀ b ∈ ids, (c.physicalBlocks b).hashValue ≠ 0) :
    (ids.foldl PagedKVCache.shareBlock c).Sealed (ids + held) := by
  have hheld : c.Sealed (ids + held) := by
    induction ids with
    | nil => exact h.mono (zero_add held).le
    | cons b ids ih =>
      rw [← Multiset.cons_coe, Multiset.cons_add]
      exact (ih fun x hx => hids x (List.mem_cons_of_mem b hx)).cons (hids b List.mem_cons_self)
  exact hheld.congr (shareBlocks_freeBlockStack ids) (shareBlocks_prefixTree ids)
    fun _ => shareBlocks_hash ids

/-- An allocation from the free stack changes no hash. -/
theorem allocate_hash (hfree : c.freeBlockStack ≠ [])
    (ha : c.allocatePhysicalBlock = some (b, c')) :
    b ∈ c.freeBlockStack ∧
      ∀ x, (c'.physicalBlocks x).hashValue = (c.physicalBlocks x).hashValue := by
  obtain ⟨base, rest, hstack, rfl | ⟨hempty, -⟩, rfl⟩ := allocatePhysicalBlock_cases ha
  · refine ⟨hstack ▸ List.mem_cons_self, fun x => ?_⟩
    rcases eq_or_ne x b with rfl | hx
    · simp only [setBlock_self]
    · simp only [setBlock_of_ne _ hx]
  · exact absurd hempty hfree

theorem allocate (h : c.Sealed held) (hfree : c.freeBlockStack ≠ [])
    (ha : c.allocatePhysicalBlock = some (b, c')) :
    b ∉ held ∧ (c'.physicalBlocks b).hashValue = 0 ∧ b ∉ c'.freeBlockStack ∧
      c'.Sealed (b ::ₘ held) := by
  obtain ⟨hb, hhash⟩ := allocate_hash hfree ha
  have halloc := allocated ha
  have hstack : c.freeBlockStack = b :: c'.freeBlockStack := by
    obtain ⟨base, rest, hstack, rfl | ⟨hempty, -⟩, rfl⟩ := allocatePhysicalBlock_cases ha
    · exact hstack
    · exact absurd hempty hfree
  obtain ⟨hnotin, hnodup⟩ := List.nodup_cons.mp (hstack ▸ h.free_nodup)
  have hbheld := h.free_unowned b hb
  have hzero := (hhash b).trans (h.unhashed b hb)
  refine ⟨hbheld, hzero, hnotin, ⟨hnodup, fun x hx hmem => ?_, fun x hx => ?_, fun x hx => ?_,
    fun path node hnode => ?_, halloc.prefixTree ▸ h.node_injective⟩⟩
  · rcases Multiset.mem_cons.mp hmem with rfl | hmem
    · exact hnotin hx
    · exact h.free_unowned x (hstack ▸ List.mem_cons_of_mem b hx) hmem
  · rw [hhash]
    exact h.unhashed x (hstack ▸ List.mem_cons_of_mem b hx)
  · rcases eq_or_ne x b with rfl | hne
    · rw [Multiset.count_cons_self, Multiset.count_eq_zero_of_notMem hbheld]
    · rw [Multiset.count_cons_of_ne hne]
      exact h.unhashed_once x (hhash x ▸ hx)
  · rw [hhash]
    exact h.node_hashed path node (halloc.prefixTree ▸ hnode)

/-- A block without a hash that is off the free stack gets a hash and a node. -/
theorem fillBlock (h : c.Sealed held) (hb : (c.physicalBlocks b).hashValue = 0)
    (hfree : b ∉ c.freeBlockStack) {blockHash : UInt64} (hhash : blockHash ≠ 0)
    (path : List UInt64) : (c.fillBlock b blockHash path).Sealed held := by
  obtain ⟨hself, hother⟩ := fillBlock_hash (c := c) (b := b) blockHash path
  have hnode : ∀ p node, (c.fillBlock b blockHash path).prefixTree p = some node →
      p = blockHash :: path ∧ node.physicalBlockId = b ∨
        c.prefixTree p = some node ∧ node.physicalBlockId ≠ b := by
    intro p node hp
    rcases PathTrie.insertChild_some hp with ⟨rfl, rfl⟩ | hold
    · exact Or.inl ⟨rfl, rfl⟩
    · refine Or.inr ⟨hold, fun heq => h.node_hashed p node hold ?_⟩
      rw [heq, hb]
  refine ⟨h.free_nodup, h.free_unowned, fun x hx => ?_, fun x hx => ?_, fun p node hp => ?_,
    fun p p' node node' hp hp' heq => ?_⟩
  · rw [hother x (ne_of_mem_of_not_mem hx hfree)]
    exact h.unhashed x hx
  · have hne : x ≠ b := by
      rintro rfl
      exact hhash (hself.symm.trans hx)
    exact h.unhashed_once x ((hother x hne).symm.trans hx)
  · rcases hnode p node hp with ⟨-, hblock⟩ | ⟨hold, hblock⟩
    · rwa [hblock, hself]
    · rw [hother _ hblock]
      exact h.node_hashed p node hold
  · rcases hnode p node hp with ⟨rfl, hblock⟩ | ⟨hold, hblock⟩ <;>
      rcases hnode p' node' hp' with ⟨rfl, hblock'⟩ | ⟨hold', hblock'⟩
    · rfl
    · exact absurd (heq.symm.trans hblock) hblock'
    · exact absurd (heq.trans hblock') hblock
    · exact h.node_injective p p' node node' hold hold' heq

/-- With prefix caching only a block without a hash is freed, and it had one holder. -/
theorem freePhysicalBlock (hcaching : cfg.enablePrefixCaching = true)
    (h : c.Sealed (b ::ₘ held)) : (c.freePhysicalBlock b).Sealed held := by
  have hheld := h.mono (Multiset.le_cons_self held b)
  have htree : (c.freePhysicalBlock b).prefixTree = c.prefixTree :=
    freePhysicalBlocks_prefixTree [b]
  by_cases hstack : (c.freePhysicalBlock b).freeBlockStack = c.freeBlockStack
  · exact hheld.congr hstack htree fun _ => freePhysicalBlock_hash
  have hpushed : (c.freePhysicalBlock b).freeBlockStack = b :: c.freeBlockStack ∧
      (c.physicalBlocks b).hashValue = 0 := by
    unfold PagedKVCache.freePhysicalBlock at hstack ⊢
    simp only [hcaching, Bool.true_and] at hstack ⊢
    split_ifs at hstack ⊢ with hpos hzero hhash
    · exact absurd rfl hstack
    · exact absurd rfl hstack
    · exact ⟨rfl, by simpa using hhash⟩
    · exact absurd rfl hstack
  obtain ⟨hpush, hzero⟩ := hpushed
  have hbheld : b ∉ held := by
    have honce := h.unhashed_once b hzero
    rw [Multiset.count_cons_self] at honce
    exact Multiset.count_eq_zero.mp (by omega)
  have hbfree : b ∉ c.freeBlockStack := fun hmem =>
    h.free_unowned b hmem (Multiset.mem_cons_self b held)
  refine ⟨hpush ▸ List.nodup_cons.mpr ⟨hbfree, h.free_nodup⟩, fun x hx => ?_,
    h.unhashed.free hcaching, fun x hx => ?_, fun path node hnode => ?_,
    htree ▸ h.node_injective⟩
  · rcases List.mem_cons.mp (hpush ▸ hx) with rfl | hx
    · exact hbheld
    · exact hheld.free_unowned x hx
  · exact hheld.unhashed_once x (freePhysicalBlock_hash.symm.trans hx)
  · rw [freePhysicalBlock_hash]
    exact h.node_hashed path node (htree ▸ hnode)

theorem freePhysicalBlocks (hcaching : cfg.enablePrefixCaching = true)
    (h : c.Sealed (table + held)) :
    (table.foldl PagedKVCache.freePhysicalBlock c).Sealed held := by
  induction table generalizing c with
  | nil => exact h.mono (zero_add held).ge
  | cons b table ih =>
    rw [← Multiset.cons_coe, Multiset.cons_add] at h
    exact ih (h.freePhysicalBlock hcaching)

end Sealed
end Sealed
section Calls

/-- The locals of a registration that evicts nothing, over the blocks that other tables own. -/
structure SealedTable (c : PagedKVCache cfg) (r : Registration cfg) : Prop where
  pageTables : r.cache.pageTables = c.pageTables
  isSealed : r.cache.Sealed (r.blockTable + c.ownedBlocks)
  other : ∀ x ∈ c.ownedBlocks,
    (r.cache.physicalBlocks x).hashValue = (c.physicalBlocks x).hashValue

theorem SealedTable.allocate {r : Registration cfg} {cache : PagedKVCache cfg}
    (h : c.SealedTable r) (hfree : r.cache.freeBlockStack ≠ [])
    (ha : r.cache.allocatePhysicalBlock = some (b, cache)) :
    b ∉ c.ownedBlocks ∧ (cache.physicalBlocks b).hashValue = 0 ∧ b ∉ cache.freeBlockStack ∧
      c.SealedTable { r with cache := cache, blockTable := r.blockTable ++ [b] } := by
  obtain ⟨hb, hzero, hnotfree, hsealed⟩ := h.isSealed.allocate hfree ha
  refine ⟨fun hmem => hb (Multiset.mem_add.mpr (Or.inr hmem)), hzero, hnotfree,
    ⟨(allocated ha).pageTables.trans h.pageTables, ?_, fun x hx => ?_⟩⟩
  · rw [concat_add_held]
    exact hsealed
  · rw [(Sealed.allocate_hash hfree ha).2]
    exact h.other x hx

theorem SealedTable.fillStep {done : List (List Int32)} {tokens : List Int32}
    {r : Registration cfg} {cache : PagedKVCache cfg}
    (hnonzero : ∀ m ∈ metPairs cfg promptTokens, computeBlockHash m.2 m.1 ≠ 0)
    (hdone : done ++ [tokens] <+: promptBlocks cfg promptTokens) (h : c.SealedTable r)
    (hentered : c.Entered promptTokens done r) (hfree : r.cache.freeBlockStack ≠ [])
    (ha : r.cache.allocatePhysicalBlock = some (b, cache)) :
    c.SealedTable (r.fillStep tokens b cache) := by
  obtain ⟨hb, hzero, hnotfree, hnext⟩ := h.allocate hfree ha
  have hget : (promptBlocks cfg promptTokens)[done.length]? = some tokens := by
    rw [List.prefix_iff_getElem?.mp hdone done.length (by simp), List.getElem_concat_length rfl]
  have htake : done = (promptBlocks cfg promptTokens).take done.length :=
    List.prefix_iff_eq_take.mp ((List.prefix_append _ _).trans hdone)
  have hhash : computeBlockHash tokens r.currentParentHash ≠ 0 := by
    have hmem := hnonzero _ (mem_metPairs hget)
    rwa [← htake, ← hentered.treePath, ← hentered.parentHash] at hmem
  refine ⟨hnext.pageTables, hnext.isSealed.fillBlock hzero hnotfree hhash _, fun x hx => ?_⟩
  exact ((fillBlock_hash _ r.treePath).2 x (ne_of_mem_of_not_mem hx hb)).trans (hnext.other x hx)

theorem SealedTable.setTokens {r : Registration cfg} (h : c.SealedTable r) (n : ℕ) :
    c.SealedTable { r with cache := r.cache.setTokens b n } where
  pageTables := h.pageTables
  isSealed := h.isSealed.setTokens n
  other x hx := (setTokens_hash n).trans (h.other x hx)

theorem sealedTable_matched (hcaching : cfg.enablePrefixCaching = true)
    (h : c.Sealed c.ownedBlocks) (promptTokens : List Int32) :
    c.SealedTable (c.afterMatch promptTokens) := by
  rw [afterMatch_eq hcaching]
  refine ⟨shareBlocks_pageTables _, h.shareBlocks fun x hx => ?_, fun x _ => shareBlocks_hash _⟩
  obtain ⟨node, hnode, rfl⟩ := List.mem_map.mp hx
  obtain ⟨i, hi⟩ := List.mem_iff_getElem?.mp hnode
  exact h.node_hashed _ node (PathTrie.walk_some hi)

/-- In a table built without evictions the blocks behind the full ones have no hash. -/
theorem buildTable_sealed (hcaching : cfg.enablePrefixCaching = true)
    (hclosed : c.prefixTree.Closed) (h : c.Sealed c.ownedBlocks)
    (hnonzero : ∀ m ∈ metPairs cfg promptTokens, computeBlockHash m.2 m.1 ≠ 0)
    (hok : (c.buildTable promptTokens).outOfPages = false)
    (hcount : (c.buildTable promptTokens).cache.lruEvictionsCount = c.lruEvictionsCount) :
    c.SealedTable (c.buildTable promptTokens) ∧
      ∀ j x, (promptBlocks cfg promptTokens).length ≤ j →
        (c.buildTable promptTokens).blockTable[j]? = some x →
          ((c.buildTable promptTokens).cache.physicalBlocks x).hashValue = 0 := by
  have hstart : c.Entered promptTokens
      ((promptBlocks cfg promptTokens).take (c.reusedBlocks promptTokens).length)
      (c.afterMatch promptTokens) ∧ c.SealedTable (c.afterMatch promptTokens) := by
    refine ⟨?_, sealedTable_matched hcaching h promptTokens⟩
    rw [afterMatch_eq hcaching, reusedBlocks_eq hcaching]
    exact entered_matched c promptTokens
  obtain ⟨r, ⟨hentered, hr⟩, hend⟩ := buildTable_calm
    (I := fun done r => c.Entered promptTokens done r ∧ c.SealedTable r) hstart
    (fun done tokens r b cache hdone ⟨hentered, hr⟩ hfree ha =>
      ⟨hentered.fillStep hclosed hdone ha, hr.fillStep hnonzero hdone hentered hfree ha⟩)
    hok hcount
  have hshort {j : ℕ} {x : Block cfg} (hx : r.blockTable[j]? = some x) :
      j < (promptBlocks cfg promptTokens).length := by
    rw [← hentered.length]
    exact (List.getElem?_eq_some_iff.mp hx).1
  rcases hend with hend | ⟨b, cache, hfree, ha, hend⟩
  · rw [hend]
    exact ⟨hr, fun j x hj hx => absurd (hshort hx) (Nat.not_lt.mpr hj)⟩
  · obtain ⟨-, hzero, -, hnext⟩ := hr.allocate hfree ha
    rw [hend]
    refine ⟨hnext.setTokens _, fun j x hj hx => ?_⟩
    rcases Nat.lt_or_ge j r.blockTable.length with hlt | hge
    · rw [List.getElem?_append_left hlt] at hx
      exact absurd (hshort hx) (Nat.not_lt.mpr hj)
    · rw [List.getElem?_append_right hge, List.getElem?_singleton] at hx
      split_ifs at hx
      obtain rfl := Option.some.inj hx
      exact (setTokens_hash _).trans hzero

/-- A registration that evicts nothing leaves the hashes of owned blocks, and the blocks behind the
full ones of its prompt have no hash. -/
theorem registerSequence_sealed (hcaching : cfg.enablePrefixCaching = true)
    (hclosed : c.prefixTree.Closed) (h : c.Sealed c.ownedBlocks) (hid : sequenceId ∉ c.pageTables)
    (hnonzero : ∀ m ∈ metPairs cfg promptTokens, computeBlockHash m.2 m.1 ≠ 0) {matchedTokens : ℕ}
    (hrun : c.registerSequenceWithPrefix sequenceId promptTokens = (.ok matchedTokens, c'))
    (hcount : c'.lruEvictionsCount = c.lruEvictionsCount) :
    c'.Sealed c'.ownedBlocks ∧
      (∀ x ∈ c.ownedBlocks,
        (c'.physicalBlocks x).hashValue = (c.physicalBlocks x).hashValue) ∧
      ∃ table, c'.pageTables = c.pageTables.insert sequenceId table ∧
        ∀ j x, (promptBlocks cfg promptTokens).length ≤ j → table[j]? = some x →
          (c'.physicalBlocks x).hashValue = 0 := by
  obtain ⟨hflag, -, rfl⟩ := registerSequence_ok hid hrun
  obtain ⟨hbuilt, hbehind⟩ := buildTable_sealed hcaching hclosed h hnonzero hflag hcount
  rw [ownedBlocks_insert (c := c) hid (by rw [hbuilt.pageTables])]
  refine ⟨hbuilt.isSealed.congr rfl rfl fun _ => rfl, hbuilt.other, _, ?_, hbehind⟩
  rw [hbuilt.pageTables]

/-- A growing table is the registered one, no hash has changed, and the fresh blocks have none. -/
structure SealedAppend (c : PagedKVCache cfg) (sequenceId : ℕ) (old table : List (Block cfg))
    (c' : PagedKVCache cfg) : Prop where
  lookup : c'.pageTables.lookup sequenceId = some table
  isSealed : c'.Sealed c'.ownedBlocks
  hash : ∀ x, (c'.physicalBlocks x).hashValue = (c.physicalBlocks x).hashValue
  others : ∀ id ≠ sequenceId, c'.pageTables.lookup id = c.pageTables.lookup id
  fresh : ∃ fresh, table = old ++ fresh ∧ ∀ x ∈ fresh, (c.physicalBlocks x).hashValue = 0

theorem SealedAppend.refl (h : c.Sealed c.ownedBlocks)
    (hlookup : c.pageTables.lookup sequenceId = some table) :
    c.SealedAppend sequenceId table table c where
  lookup := hlookup
  isSealed := h
  hash _ := rfl
  others _ _ := rfl
  fresh := ⟨[], (List.append_nil table).symm, fun _ hx => absurd hx List.not_mem_nil⟩

theorem SealedAppend.setTokens {old : List (Block cfg)}
    (h : c.SealedAppend sequenceId old table c') (n : ℕ) :
    c.SealedAppend sequenceId old table (c'.setTokens b n) :=
  { h with
    isSealed := h.isSealed.setTokens n
    hash := fun x => (setTokens_hash n).trans (h.hash x) }

theorem SealedAppend.concat {old : List (Block cfg)} {cache : PagedKVCache cfg}
    (h : c.SealedAppend sequenceId old table c') (hfree : c'.freeBlockStack ≠ [])
    (ha : c'.allocatePhysicalBlock = some (b, cache)) (n : ℕ) :
    c.SealedAppend sequenceId old (table ++ [b]) { cache.setTokens b n with
      pageTables := cache.pageTables.insert sequenceId (table ++ [b]) } := by
  obtain ⟨-, hzero, -, hnext⟩ := h.isSealed.allocate hfree ha
  obtain ⟨-, hsame⟩ := Sealed.allocate_hash hfree ha
  obtain ⟨fresh, rfl, hfresh⟩ := h.fresh
  constructor
  · exact AList.lookup_insert _
  · rw [ownedBlocks_concat h.lookup (by rw [(allocated ha).pageTables])]
    exact (hnext.setTokens n).congr rfl rfl fun _ => rfl
  · intro x
    exact (setTokens_hash n).trans ((hsame x).trans (h.hash x))
  · intro id hid
    rw [← h.others id hid, ← (allocated ha).pageTables]
    exact AList.lookup_insert_ne hid
  · refine ⟨fresh ++ [b], List.append_assoc _ _ _, fun x hx => ?_⟩
    rcases List.mem_append.mp hx with hx | hx
    · exact hfresh x hx
    · rw [List.mem_singleton.mp hx, ← h.hash, ← hsame, hzero]

/-- An append that evicts nothing changes no hash, and its fresh blocks have none. -/
theorem appendTokens_sealed (h : c.Sealed c.ownedBlocks)
    (hlookup : c.pageTables.lookup sequenceId = some table) {numTokens : ℕ}
    (hcount : (c.appendTokens sequenceId numTokens).2.lruEvictionsCount = c.lruEvictionsCount) :
    ∃ table', c.SealedAppend sequenceId table table' (c.appendTokens sequenceId numTokens).2 := by
  have hstart := SealedAppend.refl h hlookup
  apply appendTokens_calm (I := c.SealedAppend sequenceId table) _ hlookup hstart _ hcount
  · intro table' c' b cache n hinv hfree ha
    exact hinv.concat hfree ha n
  · intro b _ n
    exact hstart.setTokens n

theorem unregisterSequence_sealed (hcaching : cfg.enablePrefixCaching = true)
    (h : c.Sealed c.ownedBlocks) (sequenceId : ℕ) :
    (c.unregisterSequence sequenceId).Sealed (c.unregisterSequence sequenceId).ownedBlocks ∧
      (∀ x, ((c.unregisterSequence sequenceId).physicalBlocks x).hashValue =
        (c.physicalBlocks x).hashValue) ∧
      ∀ id, (c.unregisterSequence sequenceId).pageTables.lookup id =
        if id = sequenceId then none else c.pageTables.lookup id := by
  obtain ⟨-, hhash⟩ := unregisterSequence_unhashed hcaching h.unhashed sequenceId
  refine ⟨?_, hhash, unregisterSequence_lookup sequenceId⟩
  cases hlookup : c.pageTables.lookup sequenceId with
  | none =>
    rw [unregisterSequence_none hlookup]
    exact h
  | some table =>
    rw [ownedBlocks_unregister hlookup] at h
    have hfreed := h.freePhysicalBlocks hcaching
    rw [unregisterSequence_some hlookup] at hfreed ⊢
    exact hfreed.congr rfl rfl fun _ => rfl

end Calls
end PagedKVCache

/-- No block of tokens met hashes to the value that marks a block without a hash. -/
def HashesNonzero (cfg : KVCacheConfig) (prompts : List (List Int32)) : Prop :=
  ∀ m ∈ prompts.flatMap (metPairs cfg), computeBlockHash m.2 m.1 ≠ 0

instance (cfg : KVCacheConfig) (prompts : List (List Int32)) :
    Decidable (HashesNonzero cfg prompts) :=
  inferInstanceAs (Decidable (∀ m ∈ _, _ ≠ _))

section SingleTokens
variable {cfg : KVCacheConfig} {promptTokens tokens tokens' : List Int32} {parentHash : UInt64}

theorem stdHash_injective : Function.Injective stdHash := by
  intro a b h
  have h64 : a.toInt64 = b.toInt64 := congrArg UInt64.toInt64 h
  rw [← Int32.toInt32_toInt64 a, h64, Int32.toInt32_toInt64]

theorem metPairs_length {m : UInt64 × List Int32} (hm : m ∈ metPairs cfg promptTokens) :
    m.2.length = cfg.blockSize := by
  obtain ⟨block, hblock, rfl⟩ := List.mem_map.mp hm
  have hget := List.mem_of_getElem? (List.mk_mem_zipIdx_iff_getElem?.mp hblock)
  obtain ⟨b, hb, hb'⟩ := List.mem_map.mp hget
  have hfit : (b + 1) * cfg.blockSize ≤ promptTokens.length :=
    (Nat.mul_le_mul_right _ (List.mem_range.mp hb)).trans
      ((Nat.div_mul_le_self _ _).trans (Nat.mod_le _ _))
  rw [Nat.succ_mul] at hfit
  rw [← hb', blockTokens, List.length_take, List.length_drop, Nat.min_eq_left (by omega)]

/-- Blocks of one token never collide below one parent. -/
theorem siblingsDiffer_of_one (hone : cfg.blockSize = 1) (promptTokens promptTokens' : List Int32) :
    SiblingsDiffer cfg promptTokens promptTokens' := by
  rintro ⟨parentHash, tokens⟩ hm ⟨-, tokens'⟩ hm' rfl heq
  obtain ⟨token, rfl⟩ : ∃ token, tokens = [token] :=
    List.length_eq_one_iff.mp ((metPairs_length hm).trans hone)
  obtain ⟨token', rfl⟩ : ∃ token, tokens' = [token] :=
    List.length_eq_one_iff.mp ((metPairs_length hm').trans hone)
  simp only [computeBlockHash, List.foldl_cons, List.foldl_nil, UInt64.xor_right_inj,
    UInt64.add_left_inj] at heq
  rw [stdHash_injective heq]

end SingleTokens

namespace KVSystem
variable {cfg : KVCacheConfig} {s s' : KVSystem cfg} {sequenceId : ℕ} {promptTokens : List Int32}

/-- A call that returns evicts nothing. -/
def Calm (s : KVSystem cfg) (action : KVCacheAction) : Prop :=
  ∀ s' ∈ s.step action, s'.cache.lruEvictionsCount = s.cache.lruEvictionsCount

instance (s : KVSystem cfg) (action : KVCacheAction) : Decidable (s.Calm action) :=
  match h : s.step action with
  | none => isTrue fun _ hs => nomatch h.symm.trans hs
  | some s' =>
    decidable_of_iff (s'.cache.lruEvictionsCount = s.cache.lruEvictionsCount)
      ⟨fun heq _ hs => Option.some.inj (h.symm.trans hs) ▸ heq, fun hcalm => hcalm s' h⟩

/-- Every table begins with the blocks its prompt was given, and the blocks behind the full ones of
the prompt have no hash. -/
structure Sharing (s : KVSystem cfg) : Prop where
  isSealed : s.cache.Sealed s.cache.ownedBlocks
  tables : ∀ id table, s.cache.pageTables.lookup id = some table →
    ∃ e ∈ s.history, s.prompts.lookup id = some e.promptTokens ∧ e.blockTable <+: table ∧
      ∀ j b, (promptBlocks cfg e.promptTokens).length ≤ j → table[j]? = some b →
        (s.cache.physicalBlocks b).hashValue = 0

theorem init_sharing : (init cfg).Sharing where
  isSealed := init_sealed
  tables id table h := by simp [init, PagedKVCache.init] at h

theorem Sharing.register (hcaching : cfg.enablePrefixCaching = true) (h : s.Sharing)
    (htree : s.cache.TreeOf s.history) (hid : sequenceId ∉ s.cache.pageTables)
    (hcalm : s.Calm (.registerSequenceWithPrefix sequenceId promptTokens))
    (hstep : s.step (.registerSequenceWithPrefix sequenceId promptTokens) = some s')
    (hnonzero : HashesNonzero cfg s'.registeredPrompts) : s'.Sharing := by
  have hcount := hcalm s' hstep
  obtain ⟨n, table, hok, hlookup, -, hprompts, hhistory⟩ := step_register hid hstep
  rw [registeredPrompts, hhistory] at hnonzero
  obtain ⟨hsealed, hsame, table', htables, hbehind⟩ := registerSequence_sealed hcaching
    htree.closed h.isSealed hid
    (fun m hm => hnonzero m (List.mem_flatMap.mpr ⟨_, List.mem_cons_self, hm⟩)) hok hcount
  refine ⟨hsealed, fun id other hother => ?_⟩
  rw [htables, lookup_insert_ite] at hother hlookup
  rw [hhistory, hprompts, lookup_insert_ite]
  split_ifs at hother ⊢ with heq
  · rw [if_pos rfl] at hlookup
    obtain rfl := Option.some.inj hlookup
    obtain rfl := Option.some.inj hother
    exact ⟨_, List.mem_cons_self, rfl, List.prefix_refl _, hbehind⟩
  · obtain ⟨e, he, hprompt, hpre, hzero⟩ := h.tables id other hother
    refine ⟨e, List.mem_cons_of_mem _ he, hprompt, hpre, fun j b hj hb => ?_⟩
    rw [hsame b (mem_ownedBlocks hother (List.mem_of_getElem? hb))]
    exact hzero j b hj hb

theorem Sharing.append {numTokens : ℕ} (h : s.Sharing)
    (hcalm : s.Calm (.appendTokens sequenceId numTokens))
    (hstep : s.step (.appendTokens sequenceId numTokens) = some s') : s'.Sharing := by
  have hcount := hcalm s' hstep
  obtain ⟨table, hlookup⟩ := step_append_registered hstep
  obtain rfl := step_append hstep
  obtain ⟨table', happended⟩ := appendTokens_sealed h.isSealed hlookup hcount
  obtain ⟨fresh, rfl, hfresh⟩ := happended.fresh
  refine ⟨happended.isSealed, fun id other hother => ?_⟩
  simp only [happended.hash]
  rcases eq_or_ne id sequenceId with rfl | hid
  · obtain rfl := Option.some.inj (hother.symm.trans happended.lookup)
    obtain ⟨e, he, hprompt, hpre, hzero⟩ := h.tables id table hlookup
    refine ⟨e, he, hprompt, hpre.trans (List.prefix_append _ _), fun j b hj hb => ?_⟩
    rcases Nat.lt_or_ge j table.length with hlt | hge
    · rw [List.getElem?_append_left hlt] at hb
      exact hzero j b hj hb
    · rw [List.getElem?_append_right hge] at hb
      exact hfresh b (List.mem_of_getElem? hb)
  · exact h.tables id other ((happended.others id hid).symm.trans hother)

theorem Sharing.unregister (hcaching : cfg.enablePrefixCaching = true) (h : s.Sharing)
    (hstep : s.step (.unregisterSequence sequenceId) = some s') : s'.Sharing := by
  obtain rfl := Option.some.inj hstep
  obtain ⟨hsealed, hhash, htables⟩ := unregisterSequence_sealed hcaching h.isSealed sequenceId
  refine ⟨hsealed, fun id table hlookup => ?_⟩
  simp only [htables] at hlookup
  simp only [hhash, lookup_erase_ite]
  split_ifs at hlookup ⊢
  exact h.tables id table hlookup

/-- One call that evicts nothing keeps the sharing. -/
theorem Sharing.step (hcaching : cfg.enablePrefixCaching = true) (h : s.Sharing)
    (htree : s.cache.TreeOf s.history) {action : KVCacheAction} (hcalm : s.Calm action)
    (hstep : s.step action = some s') (hnonzero : HashesNonzero cfg s'.registeredPrompts) :
    s'.Sharing := by
  cases action with
  | registerSequenceWithPrefix sequenceId promptTokens =>
    by_cases hid : sequenceId ∈ s.cache.pageTables
    · rw [step_registered hid hstep]
      exact h
    · exact h.register hcaching htree hid hcalm hstep hnonzero
  | appendTokens sequenceId numTokens => exact h.append hcalm hstep
  | unregisterSequence sequenceId => exact h.unregister hcaching hstep

/-- Only a block with a hash is in two tables. -/
theorem Sharing.shared_hashed (h : s.Sharing) {id id' : ℕ} {table table' : List (Block cfg)}
    {b : Block cfg} (hne : id ≠ id') (hlookup : s.cache.pageTables.lookup id = some table)
    (hlookup' : s.cache.pageTables.lookup id' = some table') (hb : b ∈ table) (hb' : b ∈ table') :
    (s.cache.physicalBlocks b).hashValue ≠ 0 := by
  intro hzero
  have honce := h.isSealed.unhashed_once b hzero
  have hrest : (s.cache.pageTables.erase id).lookup id' = some table' :=
    (AList.lookup_erase_ne hne.symm).trans hlookup'
  rw [ownedBlocks_erase { s.cache with pageTables := s.cache.pageTables.erase id } hlookup rfl,
    Multiset.count_add] at honce
  have hfirst := Multiset.count_pos.mpr (Multiset.mem_coe.mpr hb)
  have hsecond := Multiset.count_pos.mpr (mem_ownedBlocks
    (c := { s.cache with pageTables := s.cache.pageTables.erase id }) hrest hb')
  omega

/-- A block of a table that has a hash stands for a full block of the prompt and has its node. -/
theorem Sharing.hashed_node (h : s.Sharing) (htree : s.cache.TreeOf s.history) {id k : ℕ}
    {P : List Int32} {table : List (Block cfg)} {b : Block cfg}
    (hlookup : s.cache.pageTables.lookup id = some table) (hP : s.prompts.lookup id = some P)
    (hk : table[k]? = some b) (hhash : (s.cache.physicalBlocks b).hashValue ≠ 0) :
    k < (promptBlocks cfg P).length ∧
      ∃ node, s.cache.prefixTree (hashPath ((promptBlocks cfg P).take (k + 1))) = some node ∧
        node.physicalBlockId = b := by
  obtain ⟨e, he, hprompt, hpre, hzero⟩ := h.tables id table hlookup
  obtain rfl := Option.some.inj (hP.symm.trans hprompt)
  have hlt : k < (promptBlocks cfg e.promptTokens).length := by
    by_contra hge
    exact hhash (hzero k b (by omega) hk)
  have hlen : (hashPath ((promptBlocks cfg e.promptTokens).take (k + 1))).length = k + 1 := by
    rw [hashPath_length, List.length_take, Nat.min_eq_left hlt]
  obtain ⟨node, hnode, hget⟩ := htree.complete e he _
    (List.ne_nil_of_length_pos (hlen.symm ▸ Nat.succ_pos k)) (hashPath_take_suffix _ (k + 1))
  rw [hlen, Nat.add_sub_cancel] at hget
  obtain ⟨hlt', hget⟩ := List.getElem?_eq_some_iff.mp hget
  have hk' := List.prefix_iff_getElem?.mp hpre k hlt'
  rw [hget] at hk'
  exact ⟨hlt, node, hnode, Option.some.inj (hk'.symm.trans hk)⟩

/-- A block in two tables is at the same place in both, behind the same tokens. -/
theorem Sharing.agree (h : s.Sharing) (htree : s.cache.TreeOf s.history) {id id' i j : ℕ}
    {P P' : List Int32} {table table' : List (Block cfg)} {b : Block cfg} (hne : id ≠ id')
    (hP : s.prompts.lookup id = some P) (hP' : s.prompts.lookup id' = some P')
    (hdiffer : SiblingsDiffer cfg P P') (hlookup : s.cache.pageTables.lookup id = some table)
    (hlookup' : s.cache.pageTables.lookup id' = some table')
    (hi : table[i]? = some b) (hj : table'[j]? = some b) :
    i = j ∧ i < (promptBlocks cfg P).length ∧ i < (promptBlocks cfg P').length ∧
      (promptBlocks cfg P).take (i + 1) = (promptBlocks cfg P').take (i + 1) := by
  have hhash := h.shared_hashed hne hlookup hlookup' (List.mem_of_getElem? hi)
    (List.mem_of_getElem? hj)
  obtain ⟨hlt, node, hpath, hblock⟩ := h.hashed_node htree hlookup hP hi hhash
  obtain ⟨hlt', node', hpath', hblock'⟩ := h.hashed_node htree hlookup' hP' hj hhash
  have heq := h.isSealed.node_injective _ _ _ _ hpath hpath' (hblock.trans hblock'.symm)
  have hlen := congrArg List.length heq
  rw [hashPath_length, hashPath_length, List.length_take, List.length_take] at hlen
  obtain rfl : i = j := by omega
  have htake := hdiffer.take_eq (hashPath_take_suffix _ (i + 1))
    (heq ▸ hashPath_take_suffix _ (i + 1))
  rw [hashPath_length, List.length_take, Nat.min_eq_left hlt] at htake
  exact ⟨rfl, hlt, hlt', htake⟩

theorem step_cache {action : KVCacheAction} (h : s.step action = some s') :
    s'.cache = s.cache.step action := by
  cases action with
  | registerSequenceWithPrefix sequenceId promptTokens =>
    by_cases hid : sequenceId ∈ s.cache.pageTables
    · rw [step_registered hid h]
      simp only [PagedKVCache.step, registerSequenceWithPrefix, hid, if_true]
    · obtain ⟨n, table, hok, -⟩ := step_register hid h
      simp only [PagedKVCache.step, hok]
  | appendTokens sequenceId numTokens => rw [step_append h]; rfl
  | unregisterSequence sequenceId =>
    obtain rfl := Option.some.inj h
    rfl

/-- From the first block in which the prompts of two sequences differ on, their tables have nothing
in common. -/
def DifferApart (s : KVSystem cfg) (id id' : ℕ) (P P' : List Int32) : Prop :=
  ∀ table table' i, s.cache.pageTables.lookup id = some table →
    s.cache.pageTables.lookup id' = some table' → blockTokens cfg P i ≠ blockTokens cfg P' i →
    (table.drop i).Disjoint table'

theorem Sharing.differApart (h : s.Sharing) (htree : s.cache.TreeOf s.history) {id id' : ℕ}
    {P P' : List Int32} (hne : id ≠ id') (hP : s.prompts.lookup id = some P)
    (hP' : s.prompts.lookup id' = some P') (hdiffer : SiblingsDiffer cfg P P') :
    s.DifferApart id id' P P' := by
  intro table table' i hlookup hlookup' hblock b hb hb'
  obtain ⟨k, hk⟩ := List.mem_iff_getElem?.mp hb
  obtain ⟨j, hj⟩ := List.mem_iff_getElem?.mp hb'
  rw [List.getElem?_drop] at hk
  obtain ⟨-, hlt, hlt', htake⟩ := h.agree htree hne hP hP' hdiffer hlookup hlookup' hk hj
  rw [promptBlocks_take hlt, promptBlocks_take hlt'] at htake
  exact hblock (List.map_inj_left.mp htake i (List.mem_range.mpr (by omega)))

/-- Without prefix caching tables never have a block in common. -/
theorem differApart_uncached (hcaching : cfg.enablePrefixCaching = false)
    {actions : List KVCacheAction} (hrun : Transition.exec step (init cfg) actions = some s)
    {id id' : ℕ} (hne : id ≠ id') (P P' : List Int32) : s.DifferApart id id' P P' := by
  have hinit : (init cfg).cache.Partitioned (init cfg).cache.ownedBlocks ∧
      (init cfg).cache.ownedBlocks.Nodup := ⟨init_partitioned, Multiset.nodup_zero⟩
  have hinv : s.cache.Partitioned s.cache.ownedBlocks ∧ s.cache.ownedBlocks.Nodup := by
    refine Transition.exec_preserves (I := fun s : KVSystem cfg =>
      s.cache.Partitioned s.cache.ownedBlocks ∧ s.cache.ownedBlocks.Nodup) ?_ hinit hrun
    rintro t action t' ⟨hpart, hnodup⟩ hstep
    rw [step_cache hstep]
    exact step_exclusive hcaching hpart hnodup action
  rintro table table' i hlookup hlookup' - b hb
  exact tables_disjoint hinv.2 hlookup hlookup' hne (List.mem_of_mem_drop hb)

/-- The longest agreement of a prompt with the earlier ones exists. -/
theorem exists_longest_agreement (s : KVSystem cfg) (promptTokens : List Int32) : ∃ k,
    IsGreatest {k | k = 0 ∨ ∃ e ∈ s.history, Agrees cfg promptTokens e.promptTokens k} k := by
  have hbound : BddAbove {k | k = 0 ∨
      ∃ e ∈ s.history, Agrees cfg promptTokens e.promptTokens k} := by
    refine ⟨promptTokens.length / cfg.blockSize, ?_⟩
    rintro k (rfl | ⟨e, -, hk, -⟩)
    · exact Nat.zero_le _
    · exact hk
  exact ⟨_, Nat.sSup_mem ⟨0, Or.inl rfl⟩ hbound, fun k hk => le_csSup hbound hk⟩

/-- What a registration returns is covered by one agreement with an earlier prompt. -/
theorem returned_agrees {actions : List KVCacheAction}
    (hrun : Transition.exec step (init cfg) actions = some s)
    (hid : sequenceId ∉ s.cache.pageTables)
    (hdiffer : ∀ e ∈ s.history, SiblingsDiffer cfg promptTokens e.promptTokens) {matchedTokens : ℕ}
    (hok : (s.cache.registerSequenceWithPrefix sequenceId promptTokens).1 = .ok matchedTokens) :
    ∃ k, matchedTokens = cfg.blockSize * k ∧
      (k = 0 ∨ ∃ e ∈ s.history, Agrees cfg promptTokens e.promptTokens k) := by
  have hrun' : s.cache.registerSequenceWithPrefix sequenceId promptTokens =
      (.ok matchedTokens, _) := Prod.ext hok rfl
  cases hcaching : cfg.enablePrefixCaching with
  | true =>
    have htree := exec_treeOf hcaching hrun
    obtain ⟨rfl, -⟩ := registerSequence_tree hcaching htree.closed hid hrun'
    refine ⟨_, Nat.mul_comm _ _, (Nat.eq_zero_or_pos _).imp_right fun hpos => ?_⟩
    obtain ⟨e, he, hk, htake⟩ := matchedBlocks_agree htree hdiffer hpos
    exact ⟨e, he, agrees_of_take (matchedBlocks_length_le s.cache promptTokens) hk htake⟩
  | false =>
    obtain ⟨hflag, rfl, -⟩ := registerSequence_ok hid hrun'
    refine ⟨0, ?_, Or.inl rfl⟩
    obtain ⟨done, r, hzero, -, hend⟩ := buildTable_rule (c := s.cache)
      (I := fun _ r => r.matchedTokens = 0)
      (show (s.cache.afterMatch promptTokens).matchedTokens = 0 by simp [afterMatch, hcaching])
      fun done tokens r b cache _ hr _ => hr
    rcases hend with hend | ⟨-, ⟨-, hend⟩ | ⟨b, cache, -, -, hend⟩⟩ <;> rw [hend] <;> exact hzero

/-- No prompt is forgotten. -/
theorem hashesNonzero_of_step {action : KVCacheAction} (hstep : s.step action = some s')
    (h : HashesNonzero cfg s'.registeredPrompts) : HashesNonzero cfg s.registeredPrompts := by
  intro m hm
  obtain ⟨P, hP, hm⟩ := List.mem_flatMap.mp hm
  exact h m (List.mem_flatMap.mpr ⟨P, step_registeredPrompts hstep hP, hm⟩)

/-- Without evictions and zero hashes the tables share as their prompts' hashes do. -/
theorem exec_sharing (hcaching : cfg.enablePrefixCaching = true) {actions : List KVCacheAction}
    (hcalm : Transition.AllSteps step Calm (init cfg) actions)
    (hrun : Transition.exec step (init cfg) actions = some s)
    (hnonzero : HashesNonzero cfg s.registeredPrompts) :
    s.Sharing ∧ s.cache.TreeOf s.history := by
  have hsharing : s.cache.TreeOf s.history ∧
      (HashesNonzero cfg s.registeredPrompts → s.Sharing) := by
    apply Transition.exec_invariant (I := fun s : KVSystem cfg => s.cache.TreeOf s.history ∧
      (HashesNonzero cfg s.registeredPrompts → s.Sharing)) _
      ⟨init_treeOf, fun _ => init_sharing⟩ hcalm hrun
    intro t action t' ⟨htree, hinv⟩ hok hstep
    refine ⟨step_treeOf hcaching htree hstep, fun hnonzero => ?_⟩
    exact Sharing.step hcaching (hinv (hashesNonzero_of_step hstep hnonzero)) htree hok hstep
      hnonzero
  exact ⟨hsharing.2 hnonzero, hsharing.1⟩

/-- In every run that evicts nothing a registration whose prompt does not collide with the earlier
ones returns no more than the tokens it has in common with one of them; and if no block hashes to 0,
sequences whose prompts do not collide share no block from the first difference on. -/
theorem prefix_hits_sound {actions : List KVCacheAction}
    (hcalm : Transition.AllSteps step Calm (init cfg) actions)
    (hrun : Transition.exec step (init cfg) actions = some s) :
    (∀ sequenceId promptTokens matchedTokens, sequenceId ∉ s.cache.pageTables →
      (∀ e ∈ s.history, SiblingsDiffer cfg promptTokens e.promptTokens) →
      (s.cache.registerSequenceWithPrefix sequenceId promptTokens).1 = .ok matchedTokens →
      ∃ k, IsGreatest {k | k = 0 ∨ ∃ e ∈ s.history, Agrees cfg promptTokens e.promptTokens k} k ∧
        matchedTokens ≤ cfg.blockSize * k) ∧
    (HashesNonzero cfg s.registeredPrompts → ∀ id id' P P', id ≠ id' →
      s.prompts.lookup id = some P → s.prompts.lookup id' = some P' → SiblingsDiffer cfg P P' →
      s.DifferApart id id' P P') := by
  constructor
  · intro sequenceId promptTokens matchedTokens hid hdiffer hok
    obtain ⟨longest, hlongest⟩ := exists_longest_agreement s promptTokens
    obtain ⟨k, rfl, hk⟩ := returned_agrees hrun hid hdiffer hok
    exact ⟨longest, hlongest, Nat.mul_le_mul_left _ (hlongest.2 hk)⟩
  · intro hnonzero id id' P P' hne hP hP' hdiffer
    cases hcaching : cfg.enablePrefixCaching with
    | false => exact differApart_uncached hcaching hrun hne P P'
    | true =>
      obtain ⟨hsharing, htree⟩ := exec_sharing hcaching hcalm hrun hnonzero
      exact hsharing.differApart htree hne hP hP' hdiffer

-- A block that hashes to 0 is freed like an unhashed one but keeps its node: its block is filled
-- for sequence 2 and then given to sequence 3.
example : ∃ s : KVSystem eightTokenBlocks,
    Transition.exec step (init _) [.registerSequenceWithPrefix 1 [1035311811, 1878701419,
        1855919497, -671910326, -1646116889, -259614482, -234881024, 1616156334],
      .unregisterSequence 1, .registerSequenceWithPrefix 2 [5, 5, 5, 5, 5, 5, 5, 5],
      .registerSequenceWithPrefix 3 [1035311811, 1878701419, 1855919497, -671910326, -1646116889,
        -259614482, -234881024, 1616156334]] = some s ∧
    s.cache.lruEvictionsCount = 0 ∧
    (∀ P ∈ s.registeredPrompts, ∀ P' ∈ s.registeredPrompts, SiblingsDiffer eightTokenBlocks P P') ∧
    s.cache.pageTables.lookup 2 = some [0] ∧ s.cache.pageTables.lookup 3 = some [0] :=
  Transition.exec_exists (by decide +kernel) fun _ _ h => h

/-- A cached block is matched again, and the prompts of sequences 2 and 3 differ in the second. -/
theorem prefix_hits_sound_shared : ∃ s : KVSystem tokenPairs,
    Transition.exec step (init _) [.registerSequenceWithPrefix 1 [1, 2, 3, 4],
      .unregisterSequence 1, .registerSequenceWithPrefix 2 [1, 2, 5, 6],
      .registerSequenceWithPrefix 3 [1, 2, 3, 4, 7], .appendTokens 3 4] = some s ∧
    s.cache.prefixCacheHits = 3 ∧
    (∃ k, IsGreatest {k | k = 0 ∨
        ∃ e ∈ s.history, Agrees tokenPairs [1, 2, 3, 5] e.promptTokens k} k ∧ 2 ≤ 2 * k) ∧
    s.DifferApart 2 3 [1, 2, 5, 6] [1, 2, 3, 4, 7] := by
  refine Transition.exec_exists (P := fun s => s.cache.prefixCacheHits = 3 ∧
    4 ∉ s.cache.pageTables ∧
    (∀ e ∈ s.history, SiblingsDiffer tokenPairs [1, 2, 3, 5] e.promptTokens) ∧
    (s.cache.registerSequenceWithPrefix 4 [1, 2, 3, 5]).1 = .ok 2 ∧
    HashesNonzero tokenPairs s.registeredPrompts ∧ s.prompts.lookup 2 = some [1, 2, 5, 6] ∧
    s.prompts.lookup 3 = some [1, 2, 3, 4, 7]) (by decide +kernel) ?_
  rintro s hrun ⟨hhits, hid, hdiffer, hok, hnonzero, hP, hP'⟩
  obtain ⟨hreturned, hapart⟩ := prefix_hits_sound (by decide +kernel) hrun
  exact ⟨hhits, hreturned 4 _ 2 hid hdiffer hok,
    hapart hnonzero 2 3 _ _ (by decide) hP hP' (by decide +kernel)⟩

/-- The blocks `[0, 0]` and `[1, 63]` have the same hash: the second prompt is given the block that
was filled for the first. -/
theorem prefix_hits_collision : ∃ s s' : KVSystem tokenPairs,
    Transition.exec step (init _) [.registerSequenceWithPrefix 1 [0, 0]] = some s ∧
    s.step (.registerSequenceWithPrefix 2 [1, 63]) = some s' ∧
    s'.cache.lruEvictionsCount = 0 ∧
    (s.cache.registerSequenceWithPrefix 2 [1, 63]).1 = .ok 2 ∧
    (∀ e ∈ s.history, ∀ k, Agrees tokenPairs [1, 63] e.promptTokens k → k = 0) ∧
    s'.prompts.lookup 1 = some [0, 0] ∧ s'.prompts.lookup 2 = some [1, 63] ∧
    ¬s'.DifferApart 1 2 [0, 0] [1, 63] := by
  have hexec : ∃ s : KVSystem tokenPairs,
      Transition.exec step (init _) [.registerSequenceWithPrefix 1 [0, 0]] = some s ∧
      s.registeredPrompts = [[0, 0]] ∧
      (s.cache.registerSequenceWithPrefix 2 [1, 63]).1 = .ok 2 ∧
      ((s.step (.registerSequenceWithPrefix 2 [1, 63])).any fun s' =>
        decide (s'.cache.lruEvictionsCount = 0 ∧ s'.prompts.lookup 1 = some [0, 0] ∧
          s'.prompts.lookup 2 = some [1, 63] ∧ s'.cache.pageTables.lookup 1 = some [0] ∧
          s'.cache.pageTables.lookup 2 = some [0])) = true :=
    Transition.exec_exists (by decide +kernel) fun _ _ h => h
  obtain ⟨s, hrun, hprompts, hok, hstep⟩ := hexec
  obtain ⟨s', hstep, hspec⟩ := (Option.any_eq_true _ _).mp hstep
  obtain ⟨hevictions, hP, hP', htable, htable'⟩ := of_decide_eq_true hspec
  refine ⟨s, s', hrun, hstep, hevictions, hok, fun e he k hk => ?_, hP, hP', fun hapart => ?_⟩
  · have hmem : e.promptTokens ∈ s.registeredPrompts := List.mem_map_of_mem he
    rw [hprompts, List.mem_singleton] at hmem
    obtain ⟨hle, -, htake⟩ := hk
    rw [hmem] at htake
    have hle : k ≤ 1 := hle
    interval_cases k
    · rfl
    · exact absurd htake (by decide)
  · exact hapart _ _ 0 htable htable' (by decide) (List.mem_singleton_self (0 : Block tokenPairs))
      (List.mem_singleton_self (0 : Block tokenPairs))

end KVSystem
end CudaForge.Memory
