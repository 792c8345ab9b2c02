import CudaForge.Memory.AppendFrame
import CudaForge.Memory.PoolCapacity

/-!
Page tables that share full blocks. A block that is not full has one holder, so an append of one
sequence is not seen by another, and every table holds the tokens of its sequence.
-/
namespace CudaForge.Memory
open MachineWord FiniteMap

namespace PagedKVCache
variable {cfg : KVCacheConfig} {c c' : PagedKVCache cfg} {b x : Block cfg} {sequenceId n : ℕ}
  {table : List (Block cfg)} {promptTokens : List Int32} {lengths : FiniteMap ℕ ℕ}

def pagesFor (cfg : KVCacheConfig) (n : ℕ) : ℕ := max 1 ((n + cfg.blockSize - 1) / cfg.blockSize)

/-- The counts are exact, only full blocks are shared (none without prefix caching), and the tables
hold the given numbers of tokens. -/
structure Exact (c : PagedKVCache cfg) (lengths : FiniteMap ℕ ℕ) : Prop where
  balanced : c.Balanced c.ownedBlocks
  single : ∀ b ∈ c.ownedBlocks, c.filled b = cfg.blockSize ∨ c.ownedBlocks.count b = 1
  unshared : cfg.enablePrefixCaching = false → c.ownedBlocks.Nodup
  holds : ∀ id, Option.Rel c.HoldsTokens (c.pageTables.lookup id) (lengths.lookup id)

/-- A prompt whose size fits into `uint32_t`, and which takes over full blocks only, none of them
free, without a count that wraps. -/
def ReusesFull (c : PagedKVCache cfg) (promptTokens : List Int32) : Prop :=
  promptTokens.length < 2 ^ 32 ∧
    (∀ b ∈ c.reusedBlocks promptTokens, b ∉ c.freeBlockStack ∧ c.filled b = cfg.blockSize) ∧
    ∀ b, (c.physicalBlocks b).refCount + (c.reusedBlocks promptTokens).count b < 2 ^ 32

instance (c : PagedKVCache cfg) (promptTokens : List Int32) :
    Decidable (c.ReusesFull promptTokens) :=
  show Decidable (_ ∧ _ ∧ _) from inferInstance

theorem init_exact : (init cfg).Exact ∅ where
  balanced := init_balanced
  single b hb := absurd hb (Multiset.notMem_zero b)
  unshared _ := Multiset.nodup_zero
  holds id := by simp [init]

namespace Exact

theorem holdsTokens (h : c.Exact lengths) {id : ℕ} (hlookup : c.pageTables.lookup id = some table) :
    ∃ n, lengths.lookup id = some n ∧ c.HoldsTokens table n := by
  have hrel := h.holds id
  rw [hlookup] at hrel
  cases hn : lengths.lookup id with
  | none => simp [hn] at hrel
  | some n =>
    rw [hn, Option.rel_some_some] at hrel
    exact ⟨n, rfl, hrel⟩

theorem lookup_none (h : c.Exact lengths) {id : ℕ} (hlookup : c.pageTables.lookup id = none) :
    lengths.lookup id = none := by
  have hrel := h.holds id
  rw [hlookup] at hrel
  cases hn : lengths.lookup id with
  | none => rfl
  | some n => simp [hn] at hrel

theorem table_of_length (h : c.Exact lengths) {id : ℕ} (hlength : lengths.lookup id = some n) :
    ∃ table, c.pageTables.lookup id = some table ∧ c.HoldsTokens table n := by
  have hrel := h.holds id
  rw [hlength] at hrel
  cases hlookup : c.pageTables.lookup id with
  | none => simp [hlookup] at hrel
  | some table =>
    rw [hlookup, Option.rel_some_some] at hrel
    exact ⟨table, rfl, hrel⟩

theorem mem_iff (h : c.Exact lengths) (id : ℕ) : id ∈ c.pageTables ↔ id ∈ lengths := by
  rw [← AList.lookup_isSome, ← AList.lookup_isSome]
  cases hlookup : c.pageTables.lookup id with
  | none => simp [h.lookup_none hlookup]
  | some table =>
    obtain ⟨n, hn, -⟩ := h.holdsTokens hlookup
    simp [hn]

/-- Without prefix caching a call gives no block to two tables. -/
theorem step_unshared (h : c.Exact lengths) (action : KVCacheAction)
    (hcaching : cfg.enablePrefixCaching = false) : (c.step action).ownedBlocks.Nodup :=
  (step_exclusive hcaching h.balanced.partitioned (h.unshared hcaching) action).2

/-- An entry that keeps its table and its fill counts. -/
theorem keep (h : c.Exact lengths) {id : ℕ} {found : Option ℕ}
    (hsame : c'.pageTables.lookup id = c.pageTables.lookup id)
    (hfilled : ∀ table, c.pageTables.lookup id = some table → ∀ x ∈ table,
      c'.filled x = c.filled x)
    (hfound : found = lengths.lookup id) :
    Option.Rel c'.HoldsTokens (c'.pageTables.lookup id) found := by
  rw [hsame, hfound]
  cases hlookup : c.pageTables.lookup id with
  | none =>
    rw [h.lookup_none hlookup]
    exact Option.Rel.none
  | some table =>
    obtain ⟨n, hn, hholds⟩ := h.holdsTokens hlookup
    rw [hn]
    exact Option.Rel.some (hholds.congr (hfilled table hlookup))

end Exact

section Register

/-- The locals of a registration over shared tables: full blocks so far. -/
structure FullTable (c : PagedKVCache cfg) (done : List (List Int32)) (r : Registration cfg) :
    Prop where
  table : c.BalancedTable r
  owned : ∀ x ∈ c.ownedBlocks, r.cache.filled x = c.filled x
  length : r.blockTable.length = done.length
  full : ∀ x ∈ r.blockTable, r.cache.filled x = cfg.blockSize

theorem shareBlocks_filled (ids : List (Block cfg)) :
    (ids.foldl shareBlock c).filled x = c.filled x := by
  induction ids generalizing c with
  | nil => rfl
  | cons b ids ih => rw [List.foldl_cons, ih, shareBlock_filled]

theorem FullTable.start (h : c.Balanced c.ownedBlocks) (hreuse : c.ReusesFull promptTokens) :
    c.FullTable ((promptBlocks cfg promptTokens).take (c.reusedBlocks promptTokens).length)
      (c.afterMatch promptTokens) where
  table := by
    refine ⟨?_, ?_⟩
    · rw [afterMatch_cache, shareBlocks_pageTables]
    · rw [afterMatch_cache, afterMatch_blockTable]
      exact h.shareBlocks (fun b hb => (hreuse.2.1 b hb).1) hreuse.2.2
  owned x _ := by rw [afterMatch_cache, shareBlocks_filled]
  length := by
    rw [afterMatch_blockTable, List.length_take,
      Nat.min_eq_left (reusedBlocks_length_le c promptTokens)]
  full x hx := by
    rw [afterMatch_blockTable] at hx
    rw [afterMatch_cache, shareBlocks_filled]
    exact (hreuse.2.1 x hx).2

/-- A fresh block is nobody's, and filling it changes no other block. -/
theorem FullTable.fresh {done : List (List Int32)} {r : Registration cfg}
    {cache : PagedKVCache cfg} (h : c.FullTable done r) (cache' : PagedKVCache cfg)
    (ha : r.cache.allocatePhysicalBlock = some (b, cache))
    (hother : ∀ x ≠ b, cache'.physicalBlocks x = cache.physicalBlocks x) :
    b ∉ r.blockTable ∧ b ∉ c.ownedBlocks ∧
      (∀ x ∈ c.ownedBlocks, cache'.filled x = c.filled x) ∧
      ∀ x ∈ r.blockTable, cache'.filled x = cfg.blockSize := by
  obtain ⟨hbtable, hbowned⟩ := not_or.mp (Multiset.mem_add.not.mp
    (h.table.balanced.partitioned.allocatePhysicalBlock ha).1)
  have hsame : ∀ x ≠ b, cache'.filled x = r.cache.filled x := by
    intro x hx
    rw [filled, hother x hx, (allocated ha).other x hx, filled]
  refine ⟨hbtable, hbowned, fun x hx => ?_, fun x hx => ?_⟩
  · rw [hsame x (ne_of_mem_of_not_mem hx hbowned), h.owned x hx]
  · rw [hsame x (ne_of_mem_of_not_mem hx hbtable), h.full x hx]

theorem FullTable.fillStep {done : List (List Int32)} {r : Registration cfg}
    {cache : PagedKVCache cfg} (h : c.FullTable done r) (tokens : List Int32)
    (ha : r.cache.allocatePhysicalBlock = some (b, cache)) :
    c.FullTable (done ++ [tokens]) (r.fillStep tokens b cache) := by
  obtain ⟨-, -, howned, hfull⟩ := h.fresh
    (cache.fillBlock b (computeBlockHash tokens r.currentParentHash) r.treePath) ha
    fun x hx => setBlock_of_ne _ hx
  refine ⟨⟨(h.table.allocate ha).1, (h.table.allocate ha).2.fillBlock _ _⟩, howned, ?_,
    fun x hx => ?_⟩
  · simp only [Registration.fillStep, List.length_append, List.length_singleton, h.length]
  · rcases List.mem_append.mp hx with hx | hx
    · exact hfull x hx
    · rw [List.mem_singleton.mp hx]
      simp only [filled, Registration.fillStep, fillBlock, setBlock_self]

/-- What a registration that does not throw leaves: a table that holds the prompt, whose blocks are
full where other tables have them too. -/
structure NewTable (c : PagedKVCache cfg) (sequenceId n : ℕ) (table : List (Block cfg))
    (c' : PagedKVCache cfg) : Prop where
  pageTables : c'.pageTables = c.pageTables.insert sequenceId table
  balanced : c'.Balanced (table + c.ownedBlocks)
  owned : ∀ x ∈ c.ownedBlocks, c'.filled x = c.filled x
  holds : c'.HoldsTokens table n
  single : ∀ x ∈ table, c'.filled x = cfg.blockSize ∨
    ((table : Multiset (Block cfg)) + c.ownedBlocks).count x = 1

theorem registerSequence_newTable (h : c.Balanced c.ownedBlocks)
    (hreuse : c.ReusesFull promptTokens) (hid : sequenceId ∉ c.pageTables) {matchedTokens : ℕ}
    (hrun : c.registerSequenceWithPrefix sequenceId promptTokens = (.ok matchedTokens, c')) :
    ∃ table, c.NewTable sequenceId promptTokens.length table c' := by
  obtain ⟨hflag, -, rfl⟩ := registerSequence_ok hid hrun
  obtain ⟨done, r, hr, hout, hend⟩ := buildTable_rule (I := fun done r => c.FullTable done r)
    (FullTable.start h hreuse) fun done tokens r b cache _ hr ha => hr.fillStep tokens ha
  have hsplit : (promptBlocks cfg promptTokens).length * cfg.blockSize +
      tailTokens cfg promptTokens = promptTokens.length := by
    rw [promptBlocks_length, tailTokens, Nat.mul_comm, Nat.div_add_mod,
      Nat.mod_eq_of_lt hreuse.1]
  rcases hend with hend | ⟨rfl, ⟨htail, hend⟩ | ⟨b, cache, htail, ha, hend⟩⟩
  · rw [hend] at hflag
    exact absurd hflag Bool.true_eq_false.mp
  · obtain ⟨hnotail, hne⟩ := not_or.mp htail
    rw [hend]
    refine ⟨r.blockTable, ?_, hr.table.balanced.insertTables _, hr.owned, ?_,
      fun x hx => Or.inl (hr.full x hx)⟩
    · rw [hr.table.pageTables]
    · rw [← hsplit, ← hr.length, Nat.eq_zero_of_not_pos hnotail]
      exact HoldsTokens.of_full hne hr.full
  · obtain ⟨htables, hbalanced⟩ := hr.table.allocate ha
    obtain ⟨hbtable, hbowned, howned, hfull⟩ := hr.fresh
      (cache.setTokens b (tailTokens cfg promptTokens)) ha fun x hx => setBlock_of_ne _ hx
    have hself : (cache.setTokens b (tailTokens cfg promptTokens)).filled b =
        tailTokens cfg promptTokens := setTokens_filled_self
    rw [hend]
    refine ⟨r.blockTable ++ [b], ?_, (hbalanced.setTokens _).insertTables _, howned,
      ⟨r.blockTable, b, rfl, hfull, ?_, hself.symm ▸ htail, ?_⟩, fun x hx => ?_⟩
    · exact congrArg (AList.insert sequenceId _) htables
    · exact hself.trans_le (Nat.mod_lt _ cfg.blockSize_pos).le
    · exact hself.symm ▸ hr.length.symm ▸ hsplit
    · rcases List.mem_append.mp hx with hx | hx
      · exact Or.inl (hfull x hx)
      · rw [List.mem_singleton.mp hx, concat_add_held, Multiset.count_cons_self,
          Multiset.count_eq_zero_of_notMem]
        · exact Or.inr rfl
        · exact Multiset.mem_add.not.mpr (not_or.mpr ⟨hbtable, hbowned⟩)

/-- A registered prompt joins the lengths. -/
theorem Exact.register (h : c.Exact lengths) (hreuse : c.ReusesFull promptTokens)
    (hid : sequenceId ∉ c.pageTables) {matchedTokens : ℕ}
    (hrun : c.registerSequenceWithPrefix sequenceId promptTokens = (.ok matchedTokens, c')) :
    c'.Exact (lengths.insert sequenceId promptTokens.length) := by
  obtain ⟨table, hnew⟩ := registerSequence_newTable h.balanced hreuse hid hrun
  have howned : c'.ownedBlocks = table + c.ownedBlocks := ownedBlocks_insert hid hnew.pageTables
  have hunshared := h.step_unshared (.registerSequenceWithPrefix sequenceId promptTokens)
  rw [step, hrun] at hunshared
  refine ⟨howned ▸ hnew.balanced, fun x hx => ?_, hunshared, fun id => ?_⟩
  · rw [howned] at hx ⊢
    by_cases hxtable : x ∈ table
    · exact hnew.single x hxtable
    · have hxowned := (Multiset.mem_add.mp hx).resolve_left hxtable
      rw [hnew.owned x hxowned, Multiset.count_add, Multiset.coe_count,
        List.count_eq_zero_of_not_mem hxtable, Nat.zero_add]
      exact h.single x hxowned
  · by_cases hne : id = sequenceId
    · rw [hne, hnew.pageTables, AList.lookup_insert, AList.lookup_insert]
      exact Option.Rel.some hnew.holds
    · refine h.keep ?_ (fun table' hlookup x hx => ?_) (AList.lookup_insert_ne hne)
      · rw [hnew.pageTables, AList.lookup_insert_ne hne]
      · exact hnew.owned x (mem_ownedBlocks hlookup hx)

end Register

section Append
variable {last : Block cfg}

/-- An append of one token fills the last block further or takes a new one. -/
theorem appendTokens_one (hlookup : c.pageTables.lookup sequenceId = some table)
    (hlast : last ∈ table.getLast?) (hle : c.filled last ≤ cfg.blockSize) :
    c.appendTokens sequenceId 1 =
      if c.filled last < cfg.blockSize then (.ok (), c.setTokens last (c.filled last + 1))
      else
        match c.allocatePhysicalBlock with
        | none => (.error (.outOfPages cfg.totalGpuBlocks), c)
        | some (b, cache) =>
          (.ok (), { cache.setTokens b 1 with
            pageTables := cache.pageTables.insert sequenceId (table ++ [b]) }) := by
  have hsize := cfg.blockSize_lt
  have hpos := cfg.blockSize_pos
  have havailable : sub 32 cfg.blockSize (c.filled last) = cfg.blockSize - c.filled last :=
    sub_eq hle hsize
  simp only [appendTokens, hlookup, Option.mem_def.mp hlast]
  rw [← filled, havailable]
  by_cases hlt : c.filled last < cfg.blockSize
  · rw [if_pos (by omega), if_pos hlt, add_eq (by omega)]
  · have hfull : c.filled last = cfg.blockSize := by omega
    have hset : c.setTokens last cfg.blockSize = c := by
      rw [setTokens, ← hfull, filled, setBlock, Function.update_eq_self]
    have hblocks : sub 32 (add 32 1 cfg.blockSize) 1 / cfg.blockSize = 1 := by
      rw [add, sub_one_of_le (by omega) (by omega) (by norm_num), Nat.add_sub_cancel_left,
        Nat.div_self hpos]
    rw [if_neg (by omega), if_neg hlt, hset, hfull, Nat.sub_self, Nat.sub_zero, hblocks]
    unfold appendLoop
    cases c.allocatePhysicalBlock with
    | none => rfl
    | some found =>
      rw [Nat.min_eq_left hpos]
      rfl

/-- The next token of a sequence of `n` tokens needs a new block. -/
def NeedsPage (cfg : KVCacheConfig) (n : ℕ) : Prop := 0 < n ∧ n % cfg.blockSize = 0

instance (cfg : KVCacheConfig) (n : ℕ) : Decidable (NeedsPage cfg n) :=
  show Decidable (_ ∧ _) from inferInstance

theorem HoldsTokens.exists_last (h : c.HoldsTokens table n) :
    ∃ last ∈ table.getLast?, c.filled last ≤ cfg.blockSize ∧
      (NeedsPage cfg n ↔ c.filled last = cfg.blockSize) := by
  obtain ⟨full, last, rfl, -, hle, hpos, rfl⟩ := h
  have hbs := cfg.blockSize_pos
  refine ⟨last, by simp, hle, ?_⟩
  rw [NeedsPage, Nat.mul_add_mod_self_right]
  constructor
  · rintro ⟨hn, hmod⟩
    rcases hpos with hlast | rfl
    · by_contra hne
      rw [Nat.mod_eq_of_lt (by omega)] at hmod
      omega
    · rw [List.length_nil, Nat.zero_mul, Nat.zero_add] at hn
      by_contra hne
      rw [Nat.mod_eq_of_lt (by omega)] at hmod
      omega
  · intro hfull
    rw [hfull, Nat.mod_self]
    exact ⟨by omega, rfl⟩

theorem HoldsTokens.all_full (h : c.HoldsTokens table n) (hlast : last ∈ table.getLast?)
    (hfull : c.filled last = cfg.blockSize) : ∀ x ∈ table, c.filled x = cfg.blockSize := by
  obtain ⟨full, last', rfl, hothers, -⟩ := h
  obtain rfl : last' = last := by simpa using hlast
  exact List.forall_mem_append.mpr ⟨hothers, List.forall_mem_singleton.mpr hfull⟩

/-- A block in the tables of two sequences counts twice. -/
theorem two_holders {id id' : ℕ} {table' : List (Block cfg)}
    (hlookup : c.pageTables.lookup id = some table)
    (hlookup' : c.pageTables.lookup id' = some table') (hne : id ≠ id') (hx : x ∈ table)
    (hx' : x ∈ table') : 2 ≤ c.ownedBlocks.count x := by
  have hrest : (c.pageTables.erase id).lookup id' = some table' :=
    (AList.lookup_erase_ne hne.symm).trans hlookup'
  have hmore := mem_ownedBlocks (c := { c with pageTables := c.pageTables.erase id }) hrest hx'
  rw [ownedBlocks_erase { c with pageTables := c.pageTables.erase id } hlookup rfl,
    Multiset.count_add, Multiset.coe_count]
  have hpos := List.count_pos_iff.mpr hx
  have hpos' := Multiset.count_pos.mpr hmore
  omega

/-- An append of one token throws when it needs a page and there is none. -/
theorem Exact.append_throws_iff (h : c.Exact lengths)
    (hlength : lengths.lookup sequenceId = some n) (exception : KVCacheException) :
    (c.appendTokens sequenceId 1).1 = .error exception ↔
      exception = .outOfPages cfg.totalGpuBlocks ∧ NeedsPage cfg n ∧ c.capacity = 0 := by
  obtain ⟨table, hlookup, hholds⟩ := h.table_of_length hlength
  obtain ⟨last, hlast, hle, hneeds⟩ := hholds.exists_last
  rw [appendTokens_one hlookup hlast hle, ← allocatePhysicalBlock_none]
  split_ifs with hlt
  · simp [hneeds, hlt.ne]
  · have hfull : NeedsPage cfg n := hneeds.mpr (by omega)
    cases c.allocatePhysicalBlock with
    | none => simp [hfull, eq_comm]
    | some found => simp

/-- A token in the last block, which no other sequence sees. -/
theorem Exact.fill (h : c.Exact lengths) (hlookup : c.pageTables.lookup sequenceId = some table)
    (hlength : lengths.lookup sequenceId = some n) (hlast : last ∈ table.getLast?)
    (hlt : c.filled last < cfg.blockSize) :
    (c.setTokens last (c.filled last + 1)).Exact (lengths.insert sequenceId (n + 1)) := by
  obtain ⟨m, hm, hholds⟩ := h.holdsTokens hlookup
  obtain rfl := Option.some.inj (hm.symm.trans hlength)
  have hmem : last ∈ table := List.mem_of_mem_getLast? hlast
  have hone : c.ownedBlocks.count last = 1 :=
    (h.single last (mem_ownedBlocks hlookup hmem)).resolve_left hlt.ne
  refine ⟨h.balanced.setTokens _, fun x hx => ?_, h.unshared, fun id => ?_⟩
  · rcases eq_or_ne x last with rfl | hne
    · exact Or.inr hone
    · rw [setTokens_filled_of_ne hne]
      exact h.single x hx
  · by_cases hid : id = sequenceId
    · rw [hid, AList.lookup_insert, show (c.setTokens last _).pageTables = c.pageTables from rfl,
        hlookup]
      obtain ⟨full, last', rfl, hfull, hrest⟩ := hholds
      obtain rfl : last' = last := by simpa using hlast
      have hfill := HoldsTokens.fillLast (m := 1) ⟨full, last', rfl, hfull, hrest⟩
        (fun hin => hlt.ne (hfull last' hin)) (by omega)
      exact Option.Rel.some hfill
    · refine h.keep rfl (fun table' hlookup' x hx => setTokens_filled_of_ne ?_)
        (AList.lookup_insert_ne hid)
      rintro rfl
      have htwo := two_holders hlookup hlookup' (Ne.symm hid) hmem hx
      omega

/-- A token in a block of its own behind a full one. -/
theorem Exact.extend {cache : PagedKVCache cfg} (h : c.Exact lengths)
    (hlookup : c.pageTables.lookup sequenceId = some table)
    (hlength : lengths.lookup sequenceId = some n) (hlast : last ∈ table.getLast?)
    (hfull : c.filled last = cfg.blockSize) (ha : c.allocatePhysicalBlock = some (b, cache)) :
    Exact { cache.setTokens b 1 with
      pageTables := cache.pageTables.insert sequenceId (table ++ [b]) }
        (lengths.insert sequenceId (n + 1)) := by
  obtain ⟨m, hm, hholds⟩ := h.holdsTokens hlookup
  obtain rfl := Option.some.inj (hm.symm.trans hlength)
  have hb : b ∉ c.ownedBlocks := (h.balanced.partitioned.allocatePhysicalBlock ha).1
  have howned : ownedBlocks { cache.setTokens b 1 with
      pageTables := cache.pageTables.insert sequenceId (table ++ [b]) } = b ::ₘ c.ownedBlocks :=
    ownedBlocks_concat hlookup (by rw [(allocated ha).pageTables])
  have hself : (cache.setTokens b 1).filled b = 1 := setTokens_filled_self
  have hsame : ∀ x ≠ b, (cache.setTokens b 1).filled x = c.filled x := by
    intro x hx
    rw [setTokens_filled_of_ne hx, filled, (allocated ha).other x hx, filled]
  have hkeep : ∀ {id table'}, c.pageTables.lookup id = some table' → ∀ x ∈ table',
      (cache.setTokens b 1).filled x = c.filled x := fun hlookup' x hx =>
    hsame x (ne_of_mem_of_not_mem (mem_ownedBlocks hlookup' hx) hb)
  refine ⟨?_, fun x hx => ?_, fun hcaching => ?_, fun id => ?_⟩
  · rw [howned]
    exact ((h.balanced.allocatePhysicalBlock ha).setTokens 1).insertTables _
  · rw [howned] at hx ⊢
    rcases eq_or_ne x b with rfl | hne
    · rw [Multiset.count_cons_self, Multiset.count_eq_zero_of_notMem hb]
      exact Or.inr rfl
    · rw [Multiset.count_cons_of_ne hne]
      exact (hsame x hne).symm ▸ h.single x ((Multiset.mem_cons.mp hx).resolve_left hne)
  · rw [howned]
    exact Multiset.nodup_cons.mpr ⟨hb, h.unshared hcaching⟩
  · by_cases hid : id = sequenceId
    · rw [hid, AList.lookup_insert, AList.lookup_insert]
      have hall : ∀ x ∈ table, c.filled x = cfg.blockSize := hholds.all_full hlast hfull
      have hmore : (cache.setTokens b 1).HoldsTokens (table ++ [b])
          (m + (cache.setTokens b 1).filled b) :=
        hholds.concat hall (hkeep hlookup) (hself.symm ▸ Nat.one_pos)
          (hself.trans_le cfg.blockSize_pos)
      rw [hself] at hmore
      exact Option.Rel.some hmore
    · refine h.keep ?_ (fun table' hlookup' => hkeep hlookup') (AList.lookup_insert_ne hid)
      rw [← (allocated ha).pageTables]
      exact AList.lookup_insert_ne hid

/-- An append of one token that does not throw; it takes a block when it needs a page. -/
theorem Exact.append (h : c.Exact lengths) (hlength : lengths.lookup sequenceId = some n)
    (hrun : c.appendTokens sequenceId 1 = (.ok (), c')) :
    c'.Exact (lengths.insert sequenceId (n + 1)) ∧
      c.capacity = c'.capacity + if NeedsPage cfg n then 1 else 0 := by
  obtain ⟨table, hlookup, hholds⟩ := h.table_of_length hlength
  obtain ⟨last, hlast, hle, hneeds⟩ := hholds.exists_last
  rw [appendTokens_one hlookup hlast hle] at hrun
  split_ifs at hrun with hlt
  · obtain ⟨-, rfl⟩ := Prod.mk.inj hrun
    rw [if_neg (hneeds.not.mpr hlt.ne), setTokens_capacity]
    exact ⟨h.fill hlookup hlength hlast hlt, rfl⟩
  · have hfull : c.filled last = cfg.blockSize := by omega
    rw [if_pos (hneeds.mpr hfull)]
    cases ha : c.allocatePhysicalBlock with
    | none => simp [ha] at hrun
    | some found =>
      obtain ⟨b, cache⟩ := found
      simp only [ha] at hrun
      obtain ⟨-, rfl⟩ := Prod.mk.inj hrun
      have htaken : c.Taken { cache.setTokens b 1 with
          pageTables := cache.pageTables.insert sequenceId (table ++ [b]) } 1 :=
        Taken.allocate ha rfl rfl (setBlock_refCount rfl)
      exact ⟨h.extend hlookup hlength hlast hfull ha, htaken.capacity_eq⟩

end Append

section Unregister

theorem freePhysicalBlock_filled (h : ((c.freePhysicalBlock b).physicalBlocks x).refCount ≠ 0) :
    (c.freePhysicalBlock b).filled x = c.filled x ∧ (c.physicalBlocks x).refCount ≠ 0 := by
  unfold freePhysicalBlock at h ⊢
  rcases eq_or_ne x b with rfl | hx
  · simp only [filled] at h ⊢
    split_ifs at h ⊢ with hzero hlast hcached <;> simp_all [setBlock_self]
  · simp only [filled] at h ⊢
    split_ifs at h ⊢ <;> simp_all [setBlock_of_ne]

/-- Blocks that are still referenced keep their tokens. -/
theorem freePhysicalBlocks_filled
    (h : ((table.foldl freePhysicalBlock c).physicalBlocks x).refCount ≠ 0) :
    (table.foldl freePhysicalBlock c).filled x = c.filled x ∧
      (c.physicalBlocks x).refCount ≠ 0 := by
  induction table generalizing c with
  | nil => exact ⟨rfl, h⟩
  | cons b table ih =>
    obtain ⟨hrest, href⟩ := ih h
    obtain ⟨hhead, href⟩ := freePhysicalBlock_filled href
    exact ⟨hrest.trans hhead, href⟩

theorem Exact.unregister (h : c.Exact lengths) (sequenceId : ℕ) :
    (c.unregisterSequence sequenceId).Exact (lengths.erase sequenceId) := by
  have hbalanced := unregisterSequence_balanced h.balanced sequenceId
  have hle : (c.unregisterSequence sequenceId).ownedBlocks ≤ c.ownedBlocks := by
    cases hlookup : c.pageTables.lookup sequenceId with
    | none => rw [unregisterSequence_none hlookup]
    | some table =>
      rw [ownedBlocks_unregister hlookup]
      exact le_add_self
  have hsame : ∀ x ∈ (c.unregisterSequence sequenceId).ownedBlocks,
      (c.unregisterSequence sequenceId).filled x = c.filled x := by
    intro x hx
    cases hlookup : c.pageTables.lookup sequenceId with
    | none => rw [unregisterSequence_none hlookup]
    | some table =>
      have hpos := Multiset.count_pos.mpr hx
      rw [← hbalanced.counted] at hpos
      rw [unregisterSequence_some hlookup] at hpos ⊢
      exact (freePhysicalBlocks_filled hpos.ne').1
  refine ⟨hbalanced, fun x hx => ?_, h.step_unshared (.unregisterSequence sequenceId),
    fun id => ?_⟩
  · rw [hsame x hx]
    refine (h.single x (Multiset.mem_of_le hle hx)).imp_right fun hone => ?_
    have hpos := Multiset.count_pos.mpr hx
    have hcount := Multiset.count_le_of_le x hle
    omega
  · by_cases hid : id = sequenceId
    · rw [hid, AList.lookup_erase, unregisterSequence_lookup, if_pos rfl]
      exact Option.Rel.none
    · have hlookup : (c.unregisterSequence sequenceId).pageTables.lookup id =
          c.pageTables.lookup id := by rw [unregisterSequence_lookup, if_neg hid]
      refine h.keep hlookup (fun table hid x hx => hsame x ?_) (AList.lookup_erase_ne hid)
      exact mem_ownedBlocks (hlookup.trans hid) hx

end Unregister

section Accounting

/-- Every block is free, cached or in a table. -/
theorem Balanced.spare_add_owned (h : c.Balanced c.ownedBlocks) :
    c.spareBlocks + c.ownedBlocks.toFinset.card = cfg.totalGpuBlocks := by
  have hnodup := List.nodup_append'.mpr
    ⟨h.partitioned.free_nodup, h.partitioned.lru_nodup, h.partitioned.disjoint⟩
  have hsplit : (c.freeBlockStack ++ c.lruList).toFinset = c.ownedBlocks.toFinsetᶜ := by
    ext b
    have hclass := h.partitioned.classified b
    rw [List.mem_toFinset, List.mem_append, Finset.mem_compl, Multiset.mem_toFinset,
      ← Multiset.count_eq_zero, ← h.counted b, hclass.mem_free, hclass.mem_lru]
    cases hcached : (c.physicalBlocks b).isCached with
    | false => simp
    | true => simp [(hclass.cached_idle hcached).1]
  have hcard := List.toFinset_card_of_nodup hnodup
  rw [hsplit, Finset.card_compl, Fintype.card_fin, List.length_append] at hcard
  have hle := Finset.card_le_univ c.ownedBlocks.toFinset
  rw [Fintype.card_fin] at hle
  rw [spareBlocks]
  omega

/-- All cached blocks can be evicted. -/
theorem Balanced.capacity_eq (h : c.Balanced c.ownedBlocks) : c.capacity = c.spareBlocks := by
  have hall : c.evictable = c.lruList.toFinset := by
    ext b
    rw [mem_evictable, List.mem_toFinset, and_iff_left_iff_imp]
    intro hb
    have hclass := h.partitioned.classified b
    exact ⟨(hclass.cached_idle (hclass.mem_lru.mp hb)).1, fun hfree =>
      h.partitioned.disjoint hfree hb⟩
  rw [capacity, spareBlocks, hall, List.toFinset_card_of_nodup h.partitioned.lru_nodup]

/-- The tables have as many entries as their sequences take blocks. -/
theorem Exact.card_ownedBlocks (h : c.Exact lengths) :
    c.ownedBlocks.card = total (fun _ n => pagesFor cfg n) lengths := by
  have hcard : c.ownedBlocks.card =
      total (fun _ (table : List (Block cfg)) => table.length) c.pageTables := by
    unfold ownedBlocks total
    rw [← Multiset.cardHom_apply, map_list_sum, List.map_map]
    rfl
  rw [hcard]
  apply le_antisymm
  · refine total_le_total fun id table hlookup => ?_
    obtain ⟨n, hn, hholds⟩ := h.holdsTokens hlookup
    exact ⟨n, hn, hholds.length.le⟩
  · refine total_le_total fun id n hn => ?_
    obtain ⟨table, hlookup, hholds⟩ := h.table_of_length hn
    exact ⟨table, hlookup, hholds.length.ge⟩

/-- The statistics count the blocks of the tables. -/
theorem Exact.allocatedBlocks_eq (h : c.Exact lengths) (fl : Rounding) :
    (c.getStats fl).allocatedBlocks = c.ownedBlocks.toFinset.card := by
  have hsum := h.balanced.spare_add_owned
  have hlt := cfg.totalGpuBlocks_lt
  rw [spareBlocks] at hsum
  simp only [getStats]
  rw [sub_eq (a := cfg.totalGpuBlocks) (by omega) (by omega), sub_eq (by omega) (by omega)]
  omega

/-- No block is in use beyond what the sequences take, and without prefix caching they take exactly
that. -/
theorem Exact.allocatedBlocks (h : c.Exact lengths) (fl : Rounding) :
    (c.getStats fl).allocatedBlocks ≤ total (fun _ n => pagesFor cfg n) lengths ∧
      (cfg.enablePrefixCaching = false →
        (c.getStats fl).allocatedBlocks = total (fun _ n => pagesFor cfg n) lengths) := by
  rw [h.allocatedBlocks_eq, ← h.card_ownedBlocks]
  exact ⟨Multiset.toFinset_card_le _,
    fun hcaching => Multiset.toFinset_card_of_nodup (h.unshared hcaching)⟩

end Accounting
end PagedKVCache
end CudaForge.Memory
