import CudaForge.Memory.BlockOwnership

/-!
Runs of the cache with their history: the prompts registered so far, the tables they were given, and
what every block was last filled with. Only `cache` is state of the program.
-/
namespace CudaForge.Memory
open MachineWord FiniteMap

structure RegisteredPrompt (cfg : KVCacheConfig) where
  promptTokens : List Int32
  blockTable : List (Block cfg)

structure KVSystem (cfg : KVCacheConfig) where
  cache : PagedKVCache cfg
  /-- The blocks of tokens up to the one that a registration filled the block with. -/
  filled : Block cfg → Option (List (List Int32))
  /-- The prompts of the registered sequences. -/
  prompts : FiniteMap ℕ (List Int32)
  history : List (RegisteredPrompt cfg)

namespace KVSystem
variable {cfg : KVCacheConfig}

def init (cfg : KVCacheConfig) : KVSystem cfg := ⟨PagedKVCache.init cfg, fun _ => none, ∅, []⟩

/-- The table entries from index `i` on were filled with the prompt's blocks, the tail with none. -/
def recordFills (blocks : List (List Int32)) : List (Block cfg) → ℕ →
    (Block cfg → Option (List (List Int32))) → Block cfg → Option (List (List Int32))
  | [], _, filled => filled
  | b :: rest, i, filled => recordFills blocks rest (i + 1)
      (Function.update filled b (if i < blocks.length then some (blocks.take (i + 1)) else none))

/-- One call, `none` when it throws. -/
def step (s : KVSystem cfg) : KVCacheAction → Option (KVSystem cfg)
  | .registerSequenceWithPrefix sequenceId promptTokens =>
    match s.cache.registerSequenceWithPrefix sequenceId promptTokens with
    | (.error _, _) => none
    | (.ok matchedTokens, cache) =>
      if sequenceId ∈ s.cache.pageTables then some { s with cache := cache }
      else
        (cache.pageTables.lookup sequenceId).map fun table =>
          let matched := matchedTokens / cfg.blockSize
          { cache := cache
            filled := recordFills (PagedKVCache.promptBlocks cfg promptTokens)
              (table.drop matched) matched s.filled
            prompts := s.prompts.insert sequenceId promptTokens
            history := ⟨promptTokens, table⟩ :: s.history }
  | .appendTokens sequenceId numTokens =>
    match s.cache.appendTokens sequenceId numTokens with
    | (.error _, _) => none
    | (.ok _, cache) =>
      some { s with
        cache := cache
        filled := fun b =>
          if b ∈ s.cache.handedOut (.appendTokens sequenceId numTokens) then none else s.filled b }
  | .unregisterSequence sequenceId =>
    some { s with
      cache := s.cache.unregisterSequence sequenceId
      prompts := s.prompts.erase sequenceId }

end KVSystem

namespace PagedKVCache
variable {cfg : KVCacheConfig} {c c' : PagedKVCache cfg} {promptTokens : List Int32}

def hashPath (blocks : List (List Int32)) : List UInt64 := PathTrie.descend pathKey [] blocks

@[simp] theorem hashPath_length (blocks : List (List Int32)) :
    (hashPath blocks).length = blocks.length := PathTrie.descend_length.trans (Nat.zero_add _)

theorem hashPath_take_suffix (blocks : List (List Int32)) (i : ℕ) :
    hashPath (blocks.take i) <:+ hashPath blocks := PathTrie.descend_take_suffix i

theorem shareBlocks_prefixTree (ids : List (Block cfg)) :
    (ids.foldl shareBlock c).prefixTree = c.prefixTree := by
  induction ids generalizing c with
  | nil => rfl
  | cons b ids ih => rw [List.foldl_cons, ih, shareBlock_prefixTree]

theorem freePhysicalBlocks_prefixTree (ids : List (Block cfg)) :
    (ids.foldl freePhysicalBlock c).prefixTree = c.prefixTree := by
  induction ids generalizing c with
  | nil => rfl
  | cons b ids ih =>
    rw [List.foldl_cons, ih]
    simp only [freePhysicalBlock]
    split_ifs <;> rfl

/-- Behind the matched nodes the prompt's path leaves the tree. -/
theorem unmatched_none {path : List UInt64} (hclosed : c.prefixTree.Closed)
    (hpath : path <:+ hashPath (promptBlocks cfg promptTokens))
    (hlen : (c.matchedBlocks promptTokens).length < path.length) : c.prefixTree path = none := by
  have hle := hpath.length_le.trans (hashPath_length _).le
  have hstop := PathTrie.walk_stop c.prefixTree pathKey (promptBlocks cfg promptTokens) []
    (matchedBlocks_length c promptTokens ▸ hlen.trans_le hle)
  have hsuffix : PathTrie.descend pathKey []
      ((promptBlocks cfg promptTokens).take ((c.matchedNodes promptTokens).length + 1)) <:+
        path := by
    rw [PathTrie.eq_descend_of_suffix hpath]
    have htake : (promptBlocks cfg promptTokens).take ((c.matchedNodes promptTokens).length + 1) =
        ((promptBlocks cfg promptTokens).take path.length).take
          ((c.matchedNodes promptTokens).length + 1) := by
      rw [List.take_take, Nat.min_eq_left (matchedBlocks_length c promptTokens ▸ hlen)]
    rw [htake]
    exact PathTrie.descend_take_suffix _
  refine hclosed.none_of_suffix (fun hnil => ?_) hstop hsuffix
  have hzero := congrArg List.length hnil
  simp only [PathTrie.descend_length, List.length_take, List.length_nil] at hzero
  have hmatched := matchedBlocks_length c promptTokens
  omega

/-- The locals of a registration in terms of the tree it began with: the path of the blocks done
so far is in the tree, with the entries of the new table. -/
structure Entered (c : PagedKVCache cfg) (promptTokens : List Int32) (done : List (List Int32))
    (r : Registration cfg) : Prop where
  treePath : r.treePath = hashPath done
  parentHash : r.currentParentHash = r.treePath.headD 0
  length : r.blockTable.length = done.length
  matched : c.matchedBlocks promptTokens <+: r.blockTable
  matchedTokens : r.matchedTokens = (c.matchedBlocks promptTokens).length * cfg.blockSize
  tree : ∀ path, r.cache.prefixTree path =
    if path <:+ r.treePath ∧ (c.matchedBlocks promptTokens).length < path.length then
      r.blockTable[path.length - 1]?.map (⟨path.headD 0, ·⟩)
    else c.prefixTree path

theorem entered_matched (c : PagedKVCache cfg) (promptTokens : List Int32) : c.Entered promptTokens
    ((promptBlocks cfg promptTokens).take (c.matchedBlocks promptTokens).length)
    (c.matched promptTokens) where
  treePath := rfl
  parentHash := rfl
  length := by
    rw [List.length_take, Nat.min_eq_left (matchedBlocks_length_le c promptTokens)]
    rfl
  matched := List.prefix_refl _
  matchedTokens := rfl
  tree path := by
    rw [if_neg]
    · exact congrFun (shareBlocks_prefixTree _) path
    · rintro ⟨hpath, hlen⟩
      have hle := hpath.length_le
      simp only [PagedKVCache.matched, PathTrie.descend_length, List.length_take,
        List.length_nil] at hle
      omega

theorem Entered.fillStep {done : List (List Int32)} {tokens : List Int32} {r : Registration cfg}
    {b : Block cfg} {cache : PagedKVCache cfg} (hclosed : c.prefixTree.Closed)
    (hdone : done ++ [tokens] <+: promptBlocks cfg promptTokens)
    (h : c.Entered promptTokens done r) (ha : r.cache.allocatePhysicalBlock = some (b, cache)) :
    c.Entered promptTokens (done ++ [tokens]) (r.fillStep tokens b cache) := by
  have hpath : (r.fillStep tokens b cache).treePath = hashPath (done ++ [tokens]) := by
    rw [hashPath, PathTrie.descend_concat, ← hashPath, ← h.treePath, pathKey, ← h.parentHash]
    rfl
  have hnew : hashPath (done ++ [tokens]) <:+ hashPath (promptBlocks cfg promptTokens) := by
    rw [List.prefix_iff_eq_take.mp hdone]
    exact hashPath_take_suffix _ _
  have hmatchedle := h.matched.length_le
  have hlen : r.treePath.length = r.blockTable.length := by
    rw [h.length, h.treePath, hashPath_length]
  refine ⟨hpath, rfl, ?_, h.matched.trans (List.prefix_append _ _), h.matchedTokens, fun path => ?_⟩
  · simp only [Registration.fillStep, List.length_append, h.length, List.length_singleton]
  have hmatchedlt : (c.matchedBlocks promptTokens).length <
      (hashPath (done ++ [tokens])).length := by
    rw [← hpath]
    exact Nat.lt_succ_of_le (hmatchedle.trans hlen.ge)
  have hnone := unmatched_none hclosed hnew hmatchedlt
  rw [hpath]
  have hinsert : (r.fillStep tokens b cache).cache.prefixTree path =
      if path = hashPath (done ++ [tokens]) then some ⟨path.headD 0, b⟩
      else if hashPath (done ++ [tokens]) <:+ path then none else r.cache.prefixTree path := by
    have hcons : hashPath (done ++ [tokens]) =
        computeBlockHash tokens r.currentParentHash :: r.treePath := hpath.symm
    rw [hcons, ← (allocated ha).prefixTree]
    simp only [Registration.fillStep, fillBlock, PathTrie.insertChild]
    split_ifs with hself
    · rw [hself]
      rfl
    all_goals rfl
  have hcons : path <:+ hashPath (done ++ [tokens]) ↔
      path = hashPath (done ++ [tokens]) ∨ path <:+ r.treePath := by
    rw [← hpath]
    exact List.suffix_cons_iff
  rw [hinsert]
  split_ifs with hself hnewpath hbelow hnewpath hnewpath
  · rw [hself, ← hpath]
    simp [Registration.fillStep, hlen]
  · exact absurd ⟨hself ▸ List.suffix_refl _, hself ▸ hmatchedlt⟩ hnewpath
  · exact absurd (hnewpath.1.eq_of_length_le hbelow.length_le) hself
  · refine (hclosed.none_of_suffix ?_ hnone hbelow).symm
    exact List.ne_nil_of_length_pos (Nat.zero_lt_of_lt hmatchedlt)
  · have hold := (hcons.mp hnewpath.1).resolve_left hself
    have hle := hold.length_le
    rw [h.tree, if_pos ⟨hold, hnewpath.2⟩]
    simp only [Registration.fillStep]
    rw [List.getElem?_append_left (by omega)]
  · rw [h.tree, if_neg fun hold => hnewpath ⟨hcons.mpr (Or.inr hold.1), hold.2⟩]

structure RegisteredTree (c : PagedKVCache cfg) (promptTokens : List Int32)
    (table : List (Block cfg)) (c' : PagedKVCache cfg) : Prop where
  length : (promptBlocks cfg promptTokens).length ≤ table.length
  matched : c.matchedBlocks promptTokens <+: table
  tree : ∀ path, c'.prefixTree path =
    if path <:+ hashPath (promptBlocks cfg promptTokens) ∧
        (c.matchedBlocks promptTokens).length < path.length then
      table[path.length - 1]?.map (⟨path.headD 0, ·⟩)
    else c.prefixTree path

theorem registerSequence_tree (hcaching : cfg.enablePrefixCaching = true)
    (hclosed : c.prefixTree.Closed) {sequenceId matchedTokens : ℕ}
    (hid : sequenceId ∉ c.pageTables)
    (h : c.registerSequenceWithPrefix sequenceId promptTokens = (.ok matchedTokens, c')) :
    matchedTokens = (c.matchedBlocks promptTokens).length * cfg.blockSize ∧
      ∃ table, c'.pageTables.lookup sequenceId = some table ∧
        c.RegisteredTree promptTokens table c' := by
  obtain ⟨hflag, rfl, rfl⟩ := registerSequence_ok hid h
  have hstart := entered_matched c promptTokens
  rw [← reusedBlocks_eq hcaching, ← afterMatch_eq hcaching] at hstart
  obtain ⟨done, r, hr, -, hend⟩ := buildTable_rule hstart
    fun done tokens r b cache hdone hr ha => hr.fillStep hclosed hdone ha
  rcases hend with hend | ⟨rfl, ⟨-, hend⟩ | ⟨b, cache, -, ha, hend⟩⟩
  · exact absurd hflag (by simp [hend])
  · rw [hend]
    exact ⟨hr.matchedTokens, _, AList.lookup_insert _, hr.length.ge, hr.matched,
      fun path => hr.treePath ▸ hr.tree path⟩
  · rw [hend]
    refine ⟨hr.matchedTokens, _, AList.lookup_insert _, ?_, ?_, fun path => ?_⟩
    · rw [List.length_append, hr.length]
      exact Nat.le_add_right _ _
    · exact hr.matched.trans (List.prefix_append _ _)
    · have htree := hr.tree path
      rw [← (allocated ha).prefixTree] at htree
      simp only [setTokens, setBlock, htree, hr.treePath]
      split_ifs with hnew
      · have hle := hnew.1.length_le
        rw [hashPath_length, ← hr.length] at hle
        rw [List.getElem?_append_left (by omega)]
      · rfl

/-- The nodes of the tree are the blocks of the registered prompts, and they name the physical
blocks that the tables of these prompts were given. -/
structure TreeOf (c : PagedKVCache cfg) (history : List (RegisteredPrompt cfg)) : Prop where
  sound : ∀ path node, c.prefixTree path = some node → ∃ e ∈ history,
    path <:+ hashPath (promptBlocks cfg e.promptTokens) ∧ path ≠ [] ∧
      node.hashValue = path.headD 0 ∧ e.blockTable[path.length - 1]? = some node.physicalBlockId
  complete : ∀ e ∈ history, ∀ path, path ≠ [] →
    path <:+ hashPath (promptBlocks cfg e.promptTokens) → ∃ node, c.prefixTree path = some node ∧
      e.blockTable[path.length - 1]? = some node.physicalBlockId

variable {history : List (RegisteredPrompt cfg)}

theorem init_treeOf : (init cfg).TreeOf [] where
  sound path node h := by simp [init, PathTrie.empty] at h
  complete e he := absurd he List.not_mem_nil

theorem TreeOf.congr (h : c.TreeOf history) (htree : c'.prefixTree = c.prefixTree) :
    c'.TreeOf history := ⟨htree ▸ h.sound, htree ▸ h.complete⟩

theorem TreeOf.closed (h : c.TreeOf history) : c.prefixTree.Closed := by
  intro k path hpath hnone
  cases hnode : c.prefixTree (k :: path) with
  | none => rfl
  | some node =>
    obtain ⟨e, he, hsuffix, -⟩ := h.sound _ _ hnode
    obtain ⟨parent, hparent, -⟩ := h.complete e he path hpath
      ((List.suffix_cons k path).trans hsuffix)
    exact absurd (hnone.symm.trans hparent) (Option.some_ne_none parent).symm

/-- A path of the prompt that was matched is in the tree, with the block that was taken for it. -/
theorem matched_some {path : List UInt64} (hpath : path ≠ [])
    (hsuffix : path <:+ hashPath (promptBlocks cfg promptTokens))
    (hlen : path.length ≤ (c.matchedBlocks promptTokens).length) :
    ∃ node, (c.matchedNodes promptTokens)[path.length - 1]? = some node ∧
      c.prefixTree path = some node := by
  have hpos := List.length_pos_iff.mpr hpath
  rw [matchedBlocks_length] at hlen
  have hnode : (c.matchedNodes promptTokens)[path.length - 1]? =
      some ((c.matchedNodes promptTokens)[path.length - 1]) :=
    List.getElem?_eq_getElem (by omega)
  have hwalk := PathTrie.walk_some hnode
  rw [Nat.sub_add_cancel hpos] at hwalk
  rw [← PathTrie.eq_descend_of_suffix hsuffix] at hwalk
  exact ⟨_, hnode, hwalk⟩

/-- A registration enters exactly its own prompt. -/
theorem TreeOf.register {table : List (Block cfg)} (h : c.TreeOf history)
    (hreg : c.RegisteredTree promptTokens table c') :
    c'.TreeOf (⟨promptTokens, table⟩ :: history) where
  sound path node hnode := by
    rw [hreg.tree] at hnode
    split_ifs at hnode with hnew
    · obtain ⟨b, hb, rfl⟩ := Option.map_eq_some_iff.mp hnode
      exact ⟨_, List.mem_cons_self, hnew.1, List.ne_nil_of_length_pos (Nat.zero_lt_of_lt hnew.2),
        rfl, hb⟩
    · obtain ⟨e, he, hspec⟩ := h.sound path node hnode
      exact ⟨e, List.mem_cons_of_mem _ he, hspec⟩
  complete e he path hpath hsuffix := by
    rw [hreg.tree]
    rcases List.mem_cons.mp he with rfl | he
    · split_ifs with hnew
      · have hle := hsuffix.length_le.trans (hashPath_length _).le
        have hlt : path.length - 1 < table.length := by
          have hpos := List.length_pos_iff.mpr hpath
          have htable := hreg.length
          simp only at hle
          omega
        rw [List.getElem?_eq_getElem hlt]
        exact ⟨_, rfl, rfl⟩
      · have hle := Nat.not_lt.mp fun hlt => hnew ⟨hsuffix, hlt⟩
        obtain ⟨node, hget, hnode⟩ := matched_some hpath hsuffix hle
        have hb : (c.matchedBlocks promptTokens)[path.length - 1]? = some node.physicalBlockId := by
          rw [matchedBlocks, List.getElem?_map, hget]
          rfl
        obtain ⟨hi, hb⟩ := List.getElem?_eq_some_iff.mp hb
        exact ⟨node, hnode, hb ▸ List.prefix_iff_getElem?.mp hreg.matched _ hi⟩
    · obtain ⟨node, hnode, hb⟩ := h.complete e he path hpath hsuffix
      rw [if_neg]
      · exact ⟨node, hnode, hb⟩
      · rintro ⟨hnew, hlen⟩
        have hnone := unmatched_none h.closed hnew hlen
        exact absurd (hnone.symm.trans hnode) (Option.some_ne_none node).symm

theorem appendTokens_prefixTree (sequenceId numTokens : ℕ) :
    (c.appendTokens sequenceId numTokens).2.prefixTree = c.prefixTree := by
  cases hlookup : c.pageTables.lookup sequenceId with
  | none => simp only [appendTokens, hlookup]
  | some table =>
    obtain ⟨-, htree⟩ := appendTokens_rule (I := fun _ c' => c'.prefixTree = c.prefixTree)
      (fun _ c' b cache n _ h ha => (allocated ha).prefixTree.trans h) hlookup rfl
      (fun _ _ _ => rfl) numTokens
    exact htree

theorem unregisterSequence_prefixTree (sequenceId : ℕ) :
    (c.unregisterSequence sequenceId).prefixTree = c.prefixTree := by
  unfold unregisterSequence
  cases c.pageTables.lookup sequenceId with
  | none => rfl
  | some table => exact freePhysicalBlocks_prefixTree table

end PagedKVCache

namespace KVSystem
variable {cfg : KVCacheConfig} {s s' : KVSystem cfg}

/-- What a call that registers a new sequence does to the system. -/
theorem step_register {sequenceId : ℕ} {promptTokens : List Int32}
    (hid : sequenceId ∉ s.cache.pageTables)
    (h : s.step (.registerSequenceWithPrefix sequenceId promptTokens) = some s') :
    ∃ matchedTokens table,
      s.cache.registerSequenceWithPrefix sequenceId promptTokens =
        (.ok matchedTokens, s'.cache) ∧
      s'.cache.pageTables.lookup sequenceId = some table ∧
      s'.filled = recordFills (PagedKVCache.promptBlocks cfg promptTokens)
        (table.drop (matchedTokens / cfg.blockSize)) (matchedTokens / cfg.blockSize) s.filled ∧
      s'.prompts = s.prompts.insert sequenceId promptTokens ∧
      s'.history = ⟨promptTokens, table⟩ :: s.history := by
  simp only [step, hid, if_false] at h
  split at h
  · contradiction
  · rename_i matchedTokens cache hok
    obtain ⟨table, hlookup, rfl⟩ := Option.map_eq_some_iff.mp h
    exact ⟨matchedTokens, table, hok, hlookup, rfl, rfl, rfl⟩

/-- A call for a sequence that is registered already changes nothing. -/
theorem step_registered {sequenceId : ℕ} {promptTokens : List Int32}
    (hid : sequenceId ∈ s.cache.pageTables)
    (h : s.step (.registerSequenceWithPrefix sequenceId promptTokens) = some s') : s' = s := by
  simp only [step, PagedKVCache.registerSequenceWithPrefix, hid, if_true] at h
  exact (Option.some.inj h).symm

theorem step_append {sequenceId numTokens : ℕ}
    (h : s.step (.appendTokens sequenceId numTokens) = some s') :
    s' = { s with
      cache := (s.cache.appendTokens sequenceId numTokens).2
      filled := fun b =>
        if b ∈ s.cache.handedOut (.appendTokens sequenceId numTokens) then none
        else s.filled b } := by
  simp only [step] at h
  split at h
  · contradiction
  · rename_i hok
    rw [hok]
    exact (Option.some.inj h).symm

/-- Only a registered sequence is appended to. -/
theorem step_append_registered {sequenceId numTokens : ℕ}
    (h : s.step (.appendTokens sequenceId numTokens) = some s') :
    ∃ table, s.cache.pageTables.lookup sequenceId = some table := by
  cases hlookup : s.cache.pageTables.lookup sequenceId with
  | none => simp [step, PagedKVCache.appendTokens, hlookup] at h
  | some table => exact ⟨table, rfl⟩

theorem step_treeOf (hcaching : cfg.enablePrefixCaching = true) {action : KVCacheAction}
    (hs : s.cache.TreeOf s.history) (h : s.step action = some s') :
    s'.cache.TreeOf s'.history := by
  cases action with
  | registerSequenceWithPrefix sequenceId promptTokens =>
    by_cases hid : sequenceId ∈ s.cache.pageTables
    · rw [step_registered hid h]
      exact hs
    · obtain ⟨matchedTokens, table, hok, hlookup, -, -, hhistory⟩ := step_register hid h
      obtain ⟨-, table', hlookup', hreg⟩ :=
        PagedKVCache.registerSequence_tree hcaching hs.closed hid hok
      obtain rfl := Option.some.inj (hlookup.symm.trans hlookup')
      rw [hhistory]
      exact hs.register hreg
  | appendTokens sequenceId numTokens =>
    rw [step_append h]
    exact hs.congr (PagedKVCache.appendTokens_prefixTree sequenceId numTokens)
  | unregisterSequence sequenceId =>
    obtain rfl := Option.some.inj h
    exact hs.congr (PagedKVCache.unregisterSequence_prefixTree sequenceId)

/-- In every run the tree holds what was registered, evictions or not. -/
theorem exec_treeOf (hcaching : cfg.enablePrefixCaching = true) {actions : List KVCacheAction}
    (h : Transition.exec step (init cfg) actions = some s) : s.cache.TreeOf s.history :=
  Transition.exec_preserves (I := fun s : KVSystem cfg => s.cache.TreeOf s.history)
    (fun _ _ _ hs he => step_treeOf hcaching hs he) PagedKVCache.init_treeOf h

end KVSystem
end CudaForge.Memory
