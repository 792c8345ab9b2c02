import CudaForge.Memory.CacheHistory
import Mathlib.Order.Bounds.Basic

/-! A registration matches exactly the blocks it has in common with an earlier prompt. -/
namespace CudaForge.Memory
open MachineWord FiniteMap PagedKVCache

section Collisions

/-- The pairs of a parent hash and a token block that a registration of a prompt hashes. -/
def metPairs (cfg : KVCacheConfig) (promptTokens : List Int32) : List (UInt64 × List Int32) :=
  (promptBlocks cfg promptTokens).zipIdx.map fun block =>
    ((hashPath ((promptBlocks cfg promptTokens).take block.2)).headD 0, block.1)

/-- The pairs met do not collide, and none hashes to the value that marks an unhashed block. -/
structure NoCollision (cfg : KVCacheConfig) (prompts : List (List Int32)) : Prop where
  injective : ∀ m ∈ prompts.flatMap (metPairs cfg), ∀ m' ∈ prompts.flatMap (metPairs cfg),
    computeBlockHash m.2 m.1 = computeBlockHash m'.2 m'.1 → m = m'
  nonzero : ∀ m ∈ prompts.flatMap (metPairs cfg), computeBlockHash m.2 m.1 ≠ 0

instance (cfg : KVCacheConfig) (prompts : List (List Int32)) :
    Decidable (NoCollision cfg prompts) :=
  decidable_of_iff (_ ∧ _) ⟨fun h => ⟨h.1, h.2⟩, fun h => ⟨h.1, h.2⟩⟩

/-- Different blocks of two prompts below the same parent hash have different hashes. -/
def SiblingsDiffer (cfg : KVCacheConfig) (promptTokens promptTokens' : List Int32) : Prop :=
  ∀ m ∈ metPairs cfg promptTokens, ∀ m' ∈ metPairs cfg promptTokens', m.1 = m'.1 →
    computeBlockHash m.2 m.1 = computeBlockHash m'.2 m'.1 → m.2 = m'.2

instance (cfg : KVCacheConfig) (promptTokens promptTokens' : List Int32) :
    Decidable (SiblingsDiffer cfg promptTokens promptTokens') :=
  inferInstanceAs (Decidable (∀ m ∈ _, ∀ m' ∈ _, _ → _ → _))

variable {cfg : KVCacheConfig} {prompts prompts' : List (List Int32)}
  {promptTokens promptTokens' tokens : List Int32} {path : List UInt64} {k : UInt64} {i : ℕ}

theorem NoCollision.siblingsDiffer (h : NoCollision cfg prompts) (hP : promptTokens ∈ prompts)
    (hP' : promptTokens' ∈ prompts) : SiblingsDiffer cfg promptTokens promptTokens' := by
  intro m hm m' hm' _ heq
  have hmem := List.mem_flatMap.mpr ⟨promptTokens, hP, hm⟩
  have hmem' := List.mem_flatMap.mpr ⟨promptTokens', hP', hm'⟩
  exact congrArg Prod.snd (h.injective m hmem m' hmem' heq)

theorem NoCollision.mono (h : NoCollision cfg prompts) (hsub : prompts' ⊆ prompts) :
    NoCollision cfg prompts' := by
  have hmem : prompts'.flatMap (metPairs cfg) ⊆ prompts.flatMap (metPairs cfg) := by
    intro m hm
    obtain ⟨promptTokens, hP, hm⟩ := List.mem_flatMap.mp hm
    exact List.mem_flatMap.mpr ⟨promptTokens, hsub hP, hm⟩
  exact ⟨fun m hm m' hm' => h.injective m (hmem hm) m' (hmem hm'),
    fun m hm => h.nonzero m (hmem hm)⟩

theorem mem_metPairs (h : (promptBlocks cfg promptTokens)[i]? = some tokens) :
    ((hashPath ((promptBlocks cfg promptTokens).take i)).headD 0, tokens) ∈
      metPairs cfg promptTokens :=
  List.mem_map.mpr ⟨(tokens, i), List.mk_mem_zipIdx_iff_getElem?.mpr h, rfl⟩

/-- A node on the path of a prompt comes from one of its blocks. -/
theorem block_of_suffix {blocks : List (List Int32)} (h : k :: path <:+ hashPath blocks) :
    ∃ tokens, blocks[path.length]? = some tokens ∧ k = computeBlockHash tokens (path.headD 0) ∧
      path = hashPath (blocks.take path.length) := by
  have heq := PathTrie.eq_descend_of_suffix h
  have hle : path.length + 1 ≤ blocks.length := h.length_le.trans (hashPath_length _).le
  have hget : blocks[path.length]? = some blocks[path.length] := List.getElem?_eq_getElem hle
  rw [List.length_cons, List.take_add_one, hget, Option.toList_some, PathTrie.descend_concat,
    List.cons.injEq] at heq
  refine ⟨_, hget, ?_, heq.2⟩
  rw [heq.1, ← heq.2, pathKey]

/-- Prompts whose paths meet in a node have the same blocks up to it. -/
theorem SiblingsDiffer.take_eq (hdiffer : SiblingsDiffer cfg promptTokens promptTokens')
    (h : path <:+ hashPath (promptBlocks cfg promptTokens))
    (h' : path <:+ hashPath (promptBlocks cfg promptTokens')) :
    (promptBlocks cfg promptTokens).take path.length =
      (promptBlocks cfg promptTokens').take path.length := by
  induction path with
  | nil => rfl
  | cons k path ih =>
    have htake := ih ((List.suffix_cons k path).trans h) ((List.suffix_cons k path).trans h')
    obtain ⟨tokens, hget, hk, hpath⟩ := block_of_suffix h
    obtain ⟨tokens', hget', hk', hpath'⟩ := block_of_suffix h'
    have hmem := mem_metPairs hget
    have hmem' := mem_metPairs hget'
    rw [← hpath] at hmem
    rw [← hpath'] at hmem'
    have heq := hdiffer _ hmem _ hmem' rfl (hk.symm.trans hk')
    rw [List.length_cons, List.take_add_one, List.take_add_one, hget, hget', htake]
    exact congrArg (fun block => _ ++ Option.toList (some block)) heq

end Collisions

section Agreement
variable {cfg : KVCacheConfig} {promptTokens promptTokens' : List Int32} {k : ℕ}

/-- The first `k` full blocks of two prompts agree token for token. -/
def Agrees (cfg : KVCacheConfig) (promptTokens promptTokens' : List Int32) (k : ℕ) : Prop :=
  k ≤ promptTokens.length / cfg.blockSize ∧ k ≤ promptTokens'.length / cfg.blockSize ∧
    promptTokens.take (k * cfg.blockSize) = promptTokens'.take (k * cfg.blockSize)

theorem promptBlocks_take (hk : k ≤ (promptBlocks cfg promptTokens).length) :
    (promptBlocks cfg promptTokens).take k =
      (List.range k).map (blockTokens cfg promptTokens) := by
  rw [promptBlocks_length] at hk
  rw [promptBlocks, ← List.map_take, List.take_range, Nat.min_eq_left hk]

theorem flatten_blockTokens (k : ℕ) : ((List.range k).map (blockTokens cfg promptTokens)).flatten =
    promptTokens.take (k * cfg.blockSize) := by
  induction k with
  | zero => simp
  | succ k ih =>
    rw [List.range_succ, List.map_append, List.flatten_append, ih, Nat.succ_mul, List.take_add]
    simp only [List.map_cons, List.map_nil, List.flatten_cons, List.flatten_nil, List.append_nil,
      blockTokens]

theorem blockTokens_eq {b : ℕ} (hb : b < k) : blockTokens cfg promptTokens b =
    blockTokens cfg (promptTokens.take (k * cfg.blockSize)) b := by
  have hle : (b + 1) * cfg.blockSize ≤ k * cfg.blockSize := Nat.mul_le_mul_right _ hb
  rw [Nat.succ_mul] at hle
  rw [blockTokens, blockTokens, List.drop_take, List.take_take, Nat.min_eq_left (by omega)]

/-- Agreement of tokens is agreement of blocks. -/
theorem agrees_iff (h : promptTokens.length < 2 ^ 32) (h' : promptTokens'.length < 2 ^ 32) :
    Agrees cfg promptTokens promptTokens' k ↔ k ≤ (promptBlocks cfg promptTokens).length ∧
      k ≤ (promptBlocks cfg promptTokens').length ∧
      (promptBlocks cfg promptTokens).take k = (promptBlocks cfg promptTokens').take k := by
  rw [Agrees, promptBlocks_length, promptBlocks_length, Nat.mod_eq_of_lt h, Nat.mod_eq_of_lt h']
  refine and_congr_right fun hk => and_congr_right fun hk' => ?_
  rw [promptBlocks_take (by rwa [promptBlocks_length, Nat.mod_eq_of_lt h]),
    promptBlocks_take (by rwa [promptBlocks_length, Nat.mod_eq_of_lt h'])]
  constructor
  · intro htake
    apply List.map_congr_left
    intro b hb
    rw [blockTokens_eq (List.mem_range.mp hb), htake, ← blockTokens_eq (List.mem_range.mp hb)]
  · intro hblocks
    rw [← flatten_blockTokens, hblocks, flatten_blockTokens]

/-- Full blocks in common are an agreement, whatever the lengths. -/
theorem agrees_of_take (hk : k ≤ (promptBlocks cfg promptTokens).length)
    (hk' : k ≤ (promptBlocks cfg promptTokens').length)
    (h : (promptBlocks cfg promptTokens).take k = (promptBlocks cfg promptTokens').take k) :
    Agrees cfg promptTokens promptTokens' k := by
  rw [promptBlocks_take hk, promptBlocks_take hk'] at h
  rw [promptBlocks_length] at hk hk'
  refine ⟨hk.trans (Nat.div_le_div_right (Nat.mod_le _ _)),
    hk'.trans (Nat.div_le_div_right (Nat.mod_le _ _)), ?_⟩
  rw [← flatten_blockTokens, h, flatten_blockTokens]

end Agreement

namespace KVSystem
variable {cfg : KVCacheConfig} {s s' : KVSystem cfg} {sequenceId : ℕ}
  {promptTokens promptTokens' : List Int32}

def registeredPrompts (s : KVSystem cfg) : List (List Int32) := s.history.map (·.promptTokens)

/-- The matched blocks agree with an earlier prompt. -/
theorem matchedBlocks_agree (htree : s.cache.TreeOf s.history)
    (hdiffer : ∀ e ∈ s.history, SiblingsDiffer cfg promptTokens e.promptTokens)
    (hpos : 0 < (s.cache.matchedBlocks promptTokens).length) :
    ∃ e ∈ s.history,
      (s.cache.matchedBlocks promptTokens).length ≤ (promptBlocks cfg e.promptTokens).length ∧
      (promptBlocks cfg promptTokens).take (s.cache.matchedBlocks promptTokens).length =
        (promptBlocks cfg e.promptTokens).take (s.cache.matchedBlocks promptTokens).length := by
  have hk := matchedBlocks_length_le s.cache promptTokens
  have hpath : (hashPath ((promptBlocks cfg promptTokens).take
      (s.cache.matchedBlocks promptTokens).length)).length =
        (s.cache.matchedBlocks promptTokens).length := by
    rw [hashPath_length, List.length_take, Nat.min_eq_left hk]
  have hsuffix := hashPath_take_suffix (promptBlocks cfg promptTokens)
    (s.cache.matchedBlocks promptTokens).length
  obtain ⟨node, -, hnode⟩ := matched_some
    (List.ne_nil_of_length_pos (hpos.trans_eq hpath.symm)) hsuffix hpath.le
  obtain ⟨e, he, hsuffix', -⟩ := htree.sound _ _ hnode
  have htake := (hdiffer e he).take_eq hsuffix hsuffix'
  have hk' := hsuffix'.length_le
  rw [hpath, hashPath_length] at hk'
  rw [hpath] at htake
  exact ⟨e, he, hk', htake⟩

/-- The matched blocks agree with an earlier prompt, and no longer agreement was possible. -/
theorem matchedBlocks_isGreatest (htree : s.cache.TreeOf s.history)
    (hcoll : NoCollision cfg (promptTokens :: s.registeredPrompts)) :
    IsGreatest {k | k = 0 ∨ ∃ e ∈ s.history, k ≤ (promptBlocks cfg promptTokens).length ∧
      k ≤ (promptBlocks cfg e.promptTokens).length ∧ (promptBlocks cfg promptTokens).take k =
        (promptBlocks cfg e.promptTokens).take k}
      (s.cache.matchedBlocks promptTokens).length := by
  have hpath {k : ℕ} (hk : k ≤ (promptBlocks cfg promptTokens).length) :
      (hashPath ((promptBlocks cfg promptTokens).take k)).length = k := by
    rw [hashPath_length, List.length_take, Nat.min_eq_left hk]
  constructor
  · apply (Nat.eq_zero_or_pos _).imp_right
    intro hpos
    obtain ⟨e, he, hk', htake⟩ := matchedBlocks_agree htree
      (fun e he => hcoll.siblingsDiffer List.mem_cons_self
        (List.mem_cons_of_mem _ (List.mem_map_of_mem he))) hpos
    exact ⟨e, he, matchedBlocks_length_le s.cache promptTokens, hk', htake⟩
  · rintro k (rfl | ⟨e, he, hk, hk', htake⟩)
    · exact Nat.zero_le _
    by_contra hlt
    have hpos := Nat.zero_lt_of_lt (Nat.not_le.mp hlt)
    obtain ⟨node, hnode, -⟩ := htree.complete e he
      (hashPath ((promptBlocks cfg promptTokens).take k))
      (List.ne_nil_of_length_pos (hpos.trans_eq (hpath hk).symm))
      (htake ▸ hashPath_take_suffix _ k)
    have hnone := unmatched_none htree.closed (hashPath_take_suffix _ k)
      ((Nat.not_le.mp hlt).trans_eq (hpath hk).symm)
    exact absurd (hnone.symm.trans hnode) (Option.some_ne_none node).symm

/-- Where a prompt agrees with an earlier one, its table repeats that one's blocks. -/
theorem table_take_eq {table : List (Block cfg)} {c' : PagedKVCache cfg} {k : ℕ}
    (htree : s.cache.TreeOf s.history) (hreg : s.cache.RegisteredTree promptTokens table c')
    {e : RegisteredPrompt cfg} (he : e ∈ s.history)
    (hk : k ≤ (s.cache.matchedBlocks promptTokens).length)
    (htake : (promptBlocks cfg promptTokens).take k = (promptBlocks cfg e.promptTokens).take k) :
    table.take k = e.blockTable.take k := by
  apply List.ext_getElem?
  intro i
  rcases Nat.lt_or_ge i k with hi | hi
  · have hle := hk.trans (matchedBlocks_length_le s.cache promptTokens)
    have hlen : (hashPath ((promptBlocks cfg promptTokens).take (i + 1))).length = i + 1 := by
      rw [hashPath_length, List.length_take, Nat.min_eq_left (by omega)]
    have hne := List.ne_nil_of_length_pos ((Nat.succ_pos i).trans_eq hlen.symm)
    have htake' : (promptBlocks cfg promptTokens).take (i + 1) =
        (promptBlocks cfg e.promptTokens).take (i + 1) := by
      have h := congrArg (List.take (i + 1)) htake
      rwa [List.take_take, List.take_take, Nat.min_eq_left hi] at h
    obtain ⟨node, hget, hnode⟩ := matched_some (c := s.cache) hne
      (hashPath_take_suffix _ (i + 1)) (by omega)
    obtain ⟨node', hnode', hget'⟩ := htree.complete e he _ hne
      (htake' ▸ hashPath_take_suffix _ (i + 1))
    obtain rfl := Option.some.inj (hnode.symm.trans hnode')
    rw [hlen, Nat.add_sub_cancel] at hget hget'
    have hb : (s.cache.matchedBlocks promptTokens)[i]? = some node.physicalBlockId := by
      rw [matchedBlocks, List.getElem?_map, hget]
      rfl
    obtain ⟨hlt, hb⟩ := List.getElem?_eq_some_iff.mp hb
    rw [List.getElem?_take_of_lt hi, List.getElem?_take_of_lt hi, hget', ← hb]
    exact List.prefix_iff_getElem?.mp hreg.matched i hlt
  · rw [List.getElem?_take_eq_none hi, List.getElem?_take_eq_none hi]

/-- A registration returns its longest agreement with an earlier prompt, and the table starts with
the blocks that prompt was given. This holds with and without evictions. -/
theorem matching_exact (hcaching : cfg.enablePrefixCaching = true) {actions : List KVCacheAction}
    (hrun : Transition.exec step (init cfg) actions = some s)
    (hid : sequenceId ∉ s.cache.pageTables)
    (hreg : s.step (.registerSequenceWithPrefix sequenceId promptTokens) = some s')
    (hcoll : NoCollision cfg s'.registeredPrompts)
    (hlen : ∀ promptTokens ∈ s'.registeredPrompts, promptTokens.length < 2 ^ 32) :
    ∃ k table,
      (s.cache.registerSequenceWithPrefix sequenceId promptTokens).1 = .ok (cfg.blockSize * k) ∧
      IsGreatest {k | k = 0 ∨ ∃ e ∈ s.history, Agrees cfg promptTokens e.promptTokens k} k ∧
      s'.cache.pageTables.lookup sequenceId = some table ∧
      ∀ e ∈ s.history, ∀ j, Agrees cfg promptTokens e.promptTokens j →
        table.take j = e.blockTable.take j := by
  have htree := exec_treeOf hcaching hrun
  obtain ⟨matchedTokens, table, hok, hlookup, -, -, hhistory⟩ := step_register hid hreg
  obtain ⟨rfl, table', hlookup', htable⟩ := registerSequence_tree hcaching htree.closed hid hok
  obtain rfl := Option.some.inj (hlookup.symm.trans hlookup')
  have hprompts : s'.registeredPrompts = promptTokens :: s.registeredPrompts := by
    rw [registeredPrompts, hhistory]
    rfl
  rw [hprompts] at hcoll hlen
  have hgreatest := matchedBlocks_isGreatest htree hcoll
  have hagrees : ∀ e ∈ s.history, ∀ k, Agrees cfg promptTokens e.promptTokens k ↔ _ :=
    fun e he k => agrees_iff (hlen _ List.mem_cons_self)
      (hlen _ (List.mem_cons_of_mem _ (List.mem_map_of_mem he)))
  refine ⟨(s.cache.matchedBlocks promptTokens).length, table, ?_, ?_, hlookup, fun e he j hj => ?_⟩
  · rw [hok, Nat.mul_comm]
  · convert hgreatest using 4 with k
    exact exists_congr fun e => and_congr_right fun he => hagrees e he k
  · have hj := (hagrees e he j).mp hj
    exact table_take_eq htree htable he (hgreatest.2 (Or.inr ⟨e, he, hj⟩)) hj.2.2

/-- Two of the three full blocks are shared, and the tail is not. -/
theorem matching_exact_shared : ∃ s s' : KVSystem twoTokenBlocks,
    Transition.exec step (init _) [.registerSequenceWithPrefix 1 [1, 2, 3, 4, 5]] = some s ∧
    s.step (.registerSequenceWithPrefix 2 [1, 2, 3, 4, 6, 7]) = some s' ∧
    ∃ k table, (s.cache.registerSequenceWithPrefix 2 [1, 2, 3, 4, 6, 7]).1 = .ok (2 * k) ∧
      IsGreatest {k | k = 0 ∨
        ∃ e ∈ s.history, Agrees twoTokenBlocks [1, 2, 3, 4, 6, 7] e.promptTokens k} k ∧
      s'.cache.pageTables.lookup 2 = some table ∧
      ∀ e ∈ s.history, ∀ j, Agrees twoTokenBlocks [1, 2, 3, 4, 6, 7] e.promptTokens j →
        table.take j = e.blockTable.take j := by
  have hexec : ∃ s : KVSystem twoTokenBlocks,
      Transition.exec step (init _) [.registerSequenceWithPrefix 1 [1, 2, 3, 4, 5]] = some s ∧
      2 ∉ s.cache.pageTables ∧
      ((s.step (.registerSequenceWithPrefix 2 [1, 2, 3, 4, 6, 7])).any fun s' =>
        decide (NoCollision twoTokenBlocks s'.registeredPrompts ∧
          ∀ promptTokens ∈ s'.registeredPrompts, promptTokens.length < 2 ^ 32)) = true :=
    Transition.exec_exists (by decide +kernel) fun _ _ h => h
  obtain ⟨s, hrun, hid, hstep⟩ := hexec
  obtain ⟨s', hreg, hspec⟩ := (Option.any_eq_true _ _).mp hstep
  obtain ⟨hcoll, hlen⟩ := of_decide_eq_true hspec
  exact ⟨s, s', hrun, hreg, matching_exact rfl hrun hid hreg hcoll hlen⟩

theorem promptBlocks_replicate (n : ℕ) (token : Int32) :
    promptBlocks cfg (List.replicate n token) =
      List.replicate (n % 2 ^ 32 / cfg.blockSize) (List.replicate cfg.blockSize token) := by
  rw [promptBlocks, List.length_replicate, List.eq_replicate_iff, List.length_map,
    List.length_range]
  refine ⟨rfl, fun block hblock => ?_⟩
  obtain ⟨b, hb, rfl⟩ := List.mem_map.mp hblock
  have hfit : (b + 1) * cfg.blockSize ≤ n :=
    (Nat.mul_le_mul_right _ (List.mem_range.mp hb)).trans
      ((Nat.div_mul_le_self _ _).trans (Nat.mod_le _ _))
  rw [Nat.succ_mul] at hfit
  rw [blockTokens, List.drop_replicate, List.take_replicate, Nat.min_eq_left (by omega)]

/-- The two registrations of a prompt that the cache takes for one of eight tokens. -/
theorem register_twice_wrapped {long : List Int32} (hlength : long.length = 2 ^ 32 + 8)
    (hblocks : promptBlocks twoTokenBlocks long =
      promptBlocks twoTokenBlocks (List.replicate 8 7)) :
    ∃ s : KVSystem twoTokenBlocks,
      Transition.exec step (init _) [.registerSequenceWithPrefix 1 long] = some s ∧
      2 ∉ s.cache.pageTables ∧ s.cache.lruEvictionsCount = 0 ∧
      NoCollision twoTokenBlocks (long :: s.registeredPrompts) ∧
      (s.cache.registerSequenceWithPrefix 2 long).1 = .ok 8 ∧
      ∃ e ∈ s.history, Agrees twoTokenBlocks long e.promptTokens (2 ^ 31 + 4) := by
  have hlen : long.length % 2 ^ 32 = (List.replicate 8 (7 : Int32)).length % 2 ^ 32 := by
    rw [hlength, List.length_replicate]
    norm_num
  have hpairs : metPairs twoTokenBlocks long =
      metPairs twoTokenBlocks (List.replicate 8 7) := by
    rw [metPairs, hblocks, ← metPairs]
  have hcoll : NoCollision twoTokenBlocks [List.replicate 8 7] := by decide +kernel
  have hsame (c : PagedKVCache twoTokenBlocks) (sequenceId : ℕ) :=
    registerSequence_congr rfl c sequenceId hlen hblocks
  have hexec : ∃ s : KVSystem twoTokenBlocks,
      Transition.exec step (init _) [.registerSequenceWithPrefix 1 (List.replicate 8 7)] = some s ∧
      2 ∉ s.cache.pageTables ∧ s.cache.lruEvictionsCount = 0 ∧
      (s.cache.registerSequenceWithPrefix 2 (List.replicate 8 7)).1 = .ok 8 :=
    Transition.exec_exists (by decide +kernel) fun _ _ h => h
  obtain ⟨s, hrun, hid, hevictions, hreturn⟩ := hexec
  obtain ⟨t, hstep, ht⟩ := Transition.exec_cons.mp hrun
  obtain rfl := Option.some.inj ht
  obtain ⟨matchedTokens, table, hok, hlookup, -⟩ := step_register (AList.notMem_empty 1) hstep
  refine ⟨{ t with
    filled := recordFills (promptBlocks twoTokenBlocks long)
      (table.drop (matchedTokens / 2)) (matchedTokens / 2) fun _ => none
    prompts := (∅ : FiniteMap ℕ (List Int32)).insert 1 long
    history := [⟨long, table⟩] }, ?_, hid, hevictions, ?_, ?_, ?_⟩
  · refine Transition.exec_cons.mpr ⟨_, ?_, rfl⟩
    simp only [step, hsame, hok, hlookup]
    rfl
  · have hmem : ∀ m ∈ [long, long].flatMap
        (metPairs twoTokenBlocks), m ∈ [List.replicate 8 7].flatMap (metPairs twoTokenBlocks) := by
      simp only [List.flatMap_cons, List.flatMap_nil, List.append_nil, hpairs, List.mem_append,
        or_self, imp_self, implies_true]
    exact ⟨fun m hm m' hm' => hcoll.injective m (hmem m hm) m' (hmem m' hm'),
      fun m hm => hcoll.nonzero m (hmem m hm)⟩
  · rw [hsame, hreturn]
  · refine ⟨_, List.mem_singleton_self _, ?_, ?_, rfl⟩
    all_goals
      rw [hlength]
      decide

/-- A prompt of `2 ^ 32 + 8` tokens counts as one of 8: its second registration returns 8, although
it agrees with the first one in all its blocks. -/
theorem matching_exact_wrapped : ∃ s : KVSystem twoTokenBlocks,
    Transition.exec step (init _)
      [.registerSequenceWithPrefix 1 (List.replicate (2 ^ 32 + 8) 7)] = some s ∧
    2 ∉ s.cache.pageTables ∧ s.cache.lruEvictionsCount = 0 ∧
    NoCollision twoTokenBlocks (List.replicate (2 ^ 32 + 8) 7 :: s.registeredPrompts) ∧
    (s.cache.registerSequenceWithPrefix 2 (List.replicate (2 ^ 32 + 8) 7)).1 = .ok 8 ∧
    ∃ e ∈ s.history, Agrees twoTokenBlocks (List.replicate (2 ^ 32 + 8) 7) e.promptTokens
      (2 ^ 31 + 4) :=
  register_twice_wrapped List.length_replicate (by
    rw [promptBlocks_replicate, promptBlocks_replicate]
    norm_num)

end KVSystem
end CudaForge.Memory
