import CudaForge.Memory.BlockOwnership

/-!
Page tables without prefix caching. Every block belongs to one table, and a table holds the tokens
that its sequence was given, as long as no call threw in the middle of an append.
-/
namespace CudaForge.Memory
open MachineWord FiniteMap Transition

namespace PagedKVCache
variable {cfg : KVCacheConfig} {c c' : PagedKVCache cfg} {b x : Block cfg} {sequenceId n : ℕ}
  {table : List (Block cfg)} {promptTokens : List Int32}

def filled (c : PagedKVCache cfg) (b : Block cfg) : ℕ := (c.physicalBlocks b).numTokensFilled

theorem setTokens_filled_self : (c.setTokens b n).filled b = n := by
  rw [filled, setTokens, setBlock_self]

theorem setTokens_filled_of_ne (h : x ≠ b) : (c.setTokens b n).filled x = c.filled x := by
  rw [filled, setTokens, setBlock_of_ne _ h, filled]

/-- A table of full blocks and a last one, with `n` tokens in all. -/
def HoldsTokens (c : PagedKVCache cfg) (table : List (Block cfg)) (n : ℕ) : Prop :=
  ∃ full last, table = full ++ [last] ∧ (∀ b ∈ full, c.filled b = cfg.blockSize) ∧
    c.filled last ≤ cfg.blockSize ∧ (0 < c.filled last ∨ full = []) ∧
    full.length * cfg.blockSize + c.filled last = n

namespace HoldsTokens

theorem congr (h : c.HoldsTokens table n) (hsame : ∀ b ∈ table, c'.filled b = c.filled b) :
    c'.HoldsTokens table n := by
  obtain ⟨full, last, rfl, hfull, hle, hpos, hn⟩ := h
  have hlast := hsame last (List.mem_append_right full (List.mem_singleton_self last))
  refine ⟨full, last, rfl, fun b hb => ?_, hlast.trans_le hle, hlast.symm ▸ hpos, hlast.symm ▸ hn⟩
  rw [hsame b (List.mem_append_left _ hb)]
  exact hfull b hb

/-- A table has as many blocks as its tokens need, and at least one. -/
theorem length (h : c.HoldsTokens table n) :
    table.length = max 1 ((n + cfg.blockSize - 1) / cfg.blockSize) := by
  obtain ⟨full, last, rfl, -, hle, hpos, rfl⟩ := h
  have hbs := cfg.blockSize_pos
  rw [List.length_append, List.length_singleton]
  rcases Nat.eq_zero_or_pos (c.filled last) with hzero | hlast
  · obtain rfl := hpos.resolve_left (by omega)
    rw [hzero, List.length_nil, Nat.zero_mul, Nat.div_eq_of_lt (by omega)]
    rfl
  · have hsplit : full.length * cfg.blockSize + c.filled last + cfg.blockSize - 1 =
        c.filled last - 1 + (full.length + 1) * cfg.blockSize := by
      rw [Nat.succ_mul]
      omega
    rw [hsplit, Nat.add_mul_div_right _ _ hbs, Nat.div_eq_of_lt (by omega), Nat.zero_add]
    exact (Nat.max_eq_right (Nat.le_add_left 1 _)).symm

/-- The context length is the number of tokens as an `int32_t`. -/
theorem contextLen (h : c.HoldsTokens table n) : c.contextLen table = toSigned 32 n := by
  obtain ⟨full, last, rfl, -, -, -, rfl⟩ := h
  have hmod : add 32 (full.length % 2 ^ 32 * cfg.blockSize % 2 ^ 32) (c.filled last) =
      (full.length * cfg.blockSize + c.filled last) % 2 ^ 32 := by
    rw [add, Nat.mod_mul_mod, Nat.mod_add_mod]
  simp only [PagedKVCache.contextLen, List.length_append, List.length_singleton,
    Nat.add_sub_cancel, List.getLast?_append_of_ne_nil, List.getLast?_singleton, Option.map_some,
    Option.getD_some, ne_eq, reduceCtorEq, not_false_eq_true]
  rw [← filled, hmod, toSigned, toSigned, Int.natCast_mod, Int.emod_bmod]

/-- Tokens that fit into the last block. -/
theorem fillLast {full : List (Block cfg)} {last : Block cfg} {m : ℕ}
    (h : c.HoldsTokens (full ++ [last]) n) (hnotin : last ∉ full)
    (hm : c.filled last + m ≤ cfg.blockSize) :
    (c.setTokens last (c.filled last + m)).HoldsTokens (full ++ [last]) (n + m) := by
  obtain ⟨full', last', htable, hfull, -, hpos, rfl⟩ := h
  obtain ⟨rfl, hlast⟩ := List.append_inj' htable rfl
  obtain rfl := List.head_eq_of_cons_eq hlast
  have hself : (c.setTokens last (c.filled last + m)).filled last = c.filled last + m :=
    setTokens_filled_self
  refine ⟨full, last, rfl, fun b hb => ?_, hself.trans_le hm, ?_, ?_⟩
  · rw [setTokens_filled_of_ne (ne_of_mem_of_not_mem hb hnotin)]
    exact hfull b hb
  · rw [hself]
    exact hpos.imp_left fun h => Nat.lt_add_right m h
  · rw [hself, Nat.add_assoc]

theorem of_full (hne : table ≠ []) (hfull : ∀ b ∈ table, c.filled b = cfg.blockSize) :
    c.HoldsTokens table (table.length * cfg.blockSize) := by
  have hlast := hfull _ (List.getLast_mem hne)
  refine ⟨table.dropLast, table.getLast hne, (List.dropLast_append_getLast hne).symm,
    fun b hb => hfull b (List.mem_of_mem_dropLast hb), hlast.le, Or.inl ?_, ?_⟩
  · rw [hlast]
    exact cfg.blockSize_pos
  · rw [hlast, List.length_dropLast, ← Nat.succ_mul, Nat.succ_eq_add_one,
      Nat.sub_add_cancel (List.length_pos_iff.mpr hne)]

/-- A new block behind full ones. -/
theorem concat (h : c.HoldsTokens table n) (hfull : ∀ b ∈ table, c.filled b = cfg.blockSize)
    (hsame : ∀ b ∈ table, c'.filled b = c.filled b) (hpos : 0 < c'.filled b)
    (hle : c'.filled b ≤ cfg.blockSize) :
    c'.HoldsTokens (table ++ [b]) (n + c'.filled b) := by
  obtain ⟨full, last, rfl, -, -, -, rfl⟩ := h
  refine ⟨full ++ [last], b, rfl, fun x hx => ?_, hle, Or.inl hpos, ?_⟩
  · rw [hsame x hx, hfull x hx]
  · rw [hfull last (List.mem_append_right full (List.mem_singleton_self last)), List.length_append,
      List.length_singleton, Nat.succ_mul]

end HoldsTokens

/-- The locals of a registration that took over no block: full blocks of its own so far. -/
structure Filling (c : PagedKVCache cfg) (done : List (List Int32)) (r : Registration cfg) :
    Prop where
  pageTables : r.cache.pageTables = c.pageTables
  partitioned : r.cache.Partitioned (r.blockTable + c.ownedBlocks)
  nodup : ((r.blockTable : Multiset (Block cfg)) + c.ownedBlocks).Nodup
  other : ∀ x ∈ c.ownedBlocks, r.cache.physicalBlocks x = c.physicalBlocks x
  length : r.blockTable.length = done.length
  full : ∀ x ∈ r.blockTable, r.cache.filled x = cfg.blockSize

theorem Filling.start (h : c.Partitioned c.ownedBlocks) (hnodup : c.ownedBlocks.Nodup) :
    c.Filling [] ⟨c, [], 0, 0, [], false⟩ where
  pageTables := rfl
  partitioned := h.mono (zero_add _).le
  nodup := (Multiset.coe_nil (α := Block cfg) ▸ (zero_add c.ownedBlocks).symm) ▸ hnodup
  other _ _ := rfl
  length := rfl
  full _ hx := absurd hx List.not_mem_nil

/-- What a new block leaves alone, whatever it is filled with. -/
theorem Filling.allocate {done : List (List Int32)} {r : Registration cfg}
    {cache : PagedKVCache cfg} (h : c.Filling done r)
    (ha : r.cache.allocatePhysicalBlock = some (b, cache)) (cache' : PagedKVCache cfg)
    (htables : cache'.pageTables = cache.pageTables)
    (hpart : ∀ held, cache.Partitioned held → cache'.Partitioned held)
    (hother : ∀ x ≠ b, cache'.physicalBlocks x = cache.physicalBlocks x) :
    cache'.pageTables = c.pageTables ∧
      cache'.Partitioned ((r.blockTable ++ [b] : List (Block cfg)) + c.ownedBlocks) ∧
      (((r.blockTable ++ [b] : List (Block cfg)) : Multiset (Block cfg)) + c.ownedBlocks).Nodup ∧
      (∀ x ∈ c.ownedBlocks, cache'.physicalBlocks x = c.physicalBlocks x) ∧
      ∀ x ∈ r.blockTable, cache'.filled x = cfg.blockSize := by
  obtain ⟨hb, hcache⟩ := h.partitioned.allocatePhysicalBlock ha
  obtain ⟨hbtable, hbowned⟩ := not_or.mp (Multiset.mem_add.not.mp hb)
  have hsame : ∀ x ≠ b, cache'.physicalBlocks x = r.cache.physicalBlocks x := fun x hx =>
    (hother x hx).trans ((allocated ha).other x hx)
  refine ⟨htables.trans ((allocated ha).pageTables.trans h.pageTables), ?_, ?_, fun x hx => ?_,
    fun x hx => ?_⟩
  · rw [concat_add_held]
    exact hpart _ hcache
  · rw [concat_add_held]
    exact Multiset.nodup_cons.mpr ⟨hb, h.nodup⟩
  · rw [hsame x (ne_of_mem_of_not_mem hx hbowned), h.other x hx]
  · rw [filled, hsame x (ne_of_mem_of_not_mem hx hbtable)]
    exact h.full x hx

theorem Filling.fillStep {done : List (List Int32)} {r : Registration cfg}
    {cache : PagedKVCache cfg} (h : c.Filling done r) (tokens : List Int32)
    (ha : r.cache.allocatePhysicalBlock = some (b, cache)) :
    c.Filling (done ++ [tokens]) (r.fillStep tokens b cache) := by
  obtain ⟨htables, hpart, hnodup, hother, hfull⟩ := h.allocate ha
    (cache.fillBlock b (computeBlockHash tokens r.currentParentHash) r.treePath) rfl
    (fun held hpart => hpart.fillBlock _ _) fun x hx => setBlock_of_ne _ hx
  refine ⟨htables, hpart, hnodup, hother, ?_, fun x hx => ?_⟩
  · simp only [Registration.fillStep, List.length_append, List.length_singleton, h.length]
  · rcases List.mem_append.mp hx with hx | hx
    · exact hfull x hx
    · obtain rfl := List.mem_singleton.mp hx
      simp only [filled, Registration.fillStep, fillBlock, setBlock_self]

/-- A registration without prefix caching: a table of its own for the whole prompt, or a throw that
leaves the tables as they were. -/
theorem registerSequence_filled (hcaching : cfg.enablePrefixCaching = false)
    (hpart : c.Partitioned c.ownedBlocks) (hnodup : c.ownedBlocks.Nodup)
    (hid : sequenceId ∉ c.pageTables) {result : Except KVCacheException ℕ}
    (h : c.registerSequenceWithPrefix sequenceId promptTokens = (result, c')) :
    c'.Partitioned c'.ownedBlocks ∧ c'.ownedBlocks.Nodup ∧
      (∀ x ∈ c.ownedBlocks, c'.physicalBlocks x = c.physicalBlocks x) ∧
      (result = .error (.outOfPages cfg.totalGpuBlocks) ∧ c'.pageTables = c.pageTables ∨
        result = .ok 0 ∧ ∃ table, c'.pageTables = c.pageTables.insert sequenceId table ∧
          c'.HoldsTokens table (promptTokens.length % 2 ^ 32)) := by
  have hstart : c.Filling ((promptBlocks cfg promptTokens).take
      (c.reusedBlocks promptTokens).length) (c.afterMatch promptTokens) ∧
      (c.afterMatch promptTokens).matchedTokens = 0 := by
    simp only [reusedBlocks, afterMatch, hcaching, Bool.false_eq_true, if_false, and_true]
    exact Filling.start hpart hnodup
  obtain ⟨done, r, ⟨hr, hzero⟩, hflag, hend⟩ := buildTable_rule
    (I := fun done r => c.Filling done r ∧ r.matchedTokens = 0) hstart (by
      rintro done tokens r b cache - ⟨hr, hzero⟩ ha
      exact ⟨hr.fillStep tokens ha, hzero⟩)
  have hsplit : (promptBlocks cfg promptTokens).length * cfg.blockSize +
      tailTokens cfg promptTokens = promptTokens.length % 2 ^ 32 := by
    rw [promptBlocks_length, tailTokens, Nat.mul_comm, Nat.div_add_mod]
  simp only [registerSequenceWithPrefix, hid, if_false] at h
  rcases hend with hend | ⟨rfl, ⟨htail, hend⟩ | ⟨b, cache, htail, ha, hend⟩⟩
  · simp only [hend, if_true] at h
    obtain ⟨rfl, rfl⟩ := Prod.mk.inj h
    rw [ownedBlocks_congr hr.pageTables]
    exact ⟨hr.partitioned.mono le_add_self, Multiset.nodup_of_le le_add_self hr.nodup, hr.other,
      Or.inl ⟨rfl, hr.pageTables⟩⟩
  · simp only [hend, hflag, Bool.false_eq_true, if_false] at h
    obtain ⟨rfl, rfl⟩ := Prod.mk.inj h
    obtain ⟨hnotail, hne⟩ := not_or.mp htail
    rw [ownedBlocks_insert (c := c) hid (by rw [hr.pageTables])]
    refine ⟨hr.partitioned.congr rfl rfl (fun _ => rfl) (fun _ => rfl) fun _ => rfl, hr.nodup,
      hr.other, Or.inr ⟨by rw [hzero], r.blockTable, by rw [hr.pageTables], ?_⟩⟩
    rw [← hsplit, ← hr.length, Nat.eq_zero_of_not_pos hnotail]
    exact HoldsTokens.of_full hne hr.full
  · simp only [hend, hflag, Bool.false_eq_true, if_false] at h
    obtain ⟨rfl, rfl⟩ := Prod.mk.inj h
    obtain ⟨htables, hpart', hnodup', hother, hfull⟩ := hr.allocate ha
      (cache.setTokens b (tailTokens cfg promptTokens)) rfl
      (fun held hpart => hpart.setTokens _) fun x hx => setBlock_of_ne _ hx
    have hself : (cache.setTokens b (tailTokens cfg promptTokens)).filled b =
        tailTokens cfg promptTokens := setTokens_filled_self
    rw [ownedBlocks_insert (c := c) hid (by rw [htables])]
    refine ⟨hpart'.congr rfl rfl (fun _ => rfl) (fun _ => rfl) fun _ => rfl, hnodup', hother,
      Or.inr ⟨by rw [hzero], _, by rw [htables], r.blockTable, b, rfl, hfull, ?_, ?_, ?_⟩⟩
    · exact hself.trans_le (Nat.mod_lt _ cfg.blockSize_pos).le
    · exact hself.symm ▸ htail
    · exact hself.symm ▸ hr.length.symm ▸ hsplit

section Metadata

theorem batchTables_get {ids : List ℕ} {tables : List (List (Block cfg))}
    (h : c.batchTables ids = .ok tables) {i id : ℕ} (hid : ids[i]? = some id) :
    ∃ table, c.pageTables.lookup id = some table ∧ tables[i]? = some table := by
  induction ids generalizing tables i with
  | nil => simp at hid
  | cons first rest ih =>
    unfold batchTables at h
    cases hlookup : c.pageTables.lookup first with
    | none => simp [hlookup] at h
    | some blocks =>
      simp only [hlookup] at h
      cases hrest : c.batchTables rest with
      | error exception => simp [hrest, Except.map] at h
      | ok others =>
        rw [hrest] at h
        obtain rfl := Except.ok.inj h
        cases i with
        | zero =>
          obtain rfl := Option.some.inj hid
          exact ⟨blocks, hlookup, rfl⟩
        | succ i => exact ih hrest hid

/-- The batch descriptor has the context length of every sequence of the batch at its place. -/
theorem prepareBatchMetadata_contextLens {ids : List ℕ} {desc : KVCacheBatchDescriptor}
    (h : c.prepareBatchMetadata ids = .ok desc) {i id : ℕ} (hid : ids[i]? = some id) :
    ∃ table, c.pageTables.lookup id = some table ∧
      desc.contextLens[i]? = some (c.contextLen table) := by
  unfold prepareBatchMetadata at h
  split_ifs at h
  cases htables : c.batchTables ids with
  | error exception => simp [htables] at h
  | ok tables =>
    simp only [htables] at h
    split_ifs at h
    obtain rfl := Except.ok.inj h
    obtain ⟨table, hlookup, hget⟩ := batchTables_get htables hid
    exact ⟨table, hlookup, by rw [List.getElem?_map, hget, Option.map_some]⟩

end Metadata

theorem AppendingTable.nodup {old : List (Block cfg)} (h : c.AppendingTable sequenceId old table c')
    (hnodup : c.ownedBlocks.Nodup) : c'.ownedBlocks.Nodup := by
  obtain ⟨fresh, hgrowing, howned⟩ := h.growing
  rw [howned]
  exact Multiset.nodup_add.mpr ⟨hgrowing.nodup, hnodup,
    Multiset.disjoint_left.mpr fun hx => hgrowing.unowned _ hx⟩

section Append
variable {last : Block cfg} {fresh : List (Block cfg)} {numTokens : ℕ}

/-- What an append leaves alone: other tables, and all blocks but the last one and fresh ones. -/
structure Appended (c : PagedKVCache cfg) (sequenceId : ℕ) (table fresh : List (Block cfg))
    (c' : PagedKVCache cfg) : Prop where
  appending : c.AppendingTable sequenceId table (table ++ fresh) c'
  others : ∀ id ≠ sequenceId, c'.pageTables.lookup id = c.pageTables.lookup id
  blocks : ∀ x ∉ fresh, x ∉ table.getLast? → c'.physicalBlocks x = c.physicalBlocks x

theorem Appended.setTokens (hpart : c.Partitioned c.ownedBlocks)
    (hlookup : c.pageTables.lookup sequenceId = some table) (hlast : last ∈ table.getLast?)
    (n : ℕ) : c.Appended sequenceId table [] (c.setTokens last n) := by
  have hstart := AppendingTable.refl hpart hlookup
  refine ⟨⟨?_, ?_, hpart.setTokens n⟩, fun _ _ => rfl, fun x _ hx => setBlock_of_ne _ ?_⟩
  · rw [List.append_nil]
    exact hstart.lookup
  · rw [List.append_nil]
    exact hstart.growing
  · rintro rfl
    exact hx hlast

theorem Appended.concat {cache : PagedKVCache cfg} (h : c.Appended sequenceId table fresh c')
    (ha : c'.allocatePhysicalBlock = some (b, cache)) (n : ℕ) :
    c.Appended sequenceId table (fresh ++ [b]) { cache.setTokens b n with
      pageTables := cache.pageTables.insert sequenceId (table ++ (fresh ++ [b])) } := by
  refine ⟨?_, fun id hid => ?_, fun x hx hlast => ?_⟩
  · rw [← List.append_assoc]
    exact h.appending.concat ha n
  · rw [← h.others id hid, ← (allocated ha).pageTables]
    exact AList.lookup_insert_ne hid
  · obtain ⟨hfresh, hb⟩ := not_or.mp (List.mem_append.not.mp hx)
    have hne : x ≠ b := fun heq => hb (List.mem_singleton.mpr heq)
    rw [← h.blocks x hfresh hlast, ← (allocated ha).other x hne]
    exact setBlock_of_ne _ hne

/-- The fresh blocks of an append were owned by nobody. -/
theorem Appended.unowned (h : c.Appended sequenceId table fresh c') :
    ∀ x ∈ fresh, x ∉ c.ownedBlocks := by
  obtain ⟨fresh', hgrowing, -⟩ := h.appending.growing
  obtain rfl := List.append_cancel_left hgrowing.table_eq
  exact hgrowing.unowned

/-- One block more for the tokens that one block takes. -/
theorem ceilDiv_succ {size m : ℕ} (hsize : 0 < size) (hm : 0 < m) :
    (m + size - 1) / size = (m - min m size + size - 1) / size + 1 := by
  have hsplit : m + size - 1 = m - 1 + 1 * size := by omega
  rw [hsplit, Nat.add_mul_div_right _ _ hsize]
  rcases Nat.le_total m size with hle | hge
  · rw [Nat.min_eq_left hle, Nat.sub_self, Nat.zero_add, Nat.div_eq_of_lt (by omega),
      Nat.div_eq_of_lt (by omega)]
  · rw [Nat.min_eq_right hge]
    congr 2
    omega

theorem ceilDiv_pos {size m : ℕ} (hsize : 0 < size) : 0 < (m + size - 1) / size ↔ 0 < m := by
  rw [Nat.div_pos_iff]
  omega

/-- A block that the loop adds behind full ones holds the tokens it is given. -/
theorem Appended.holds_concat {c₀ cache : PagedKVCache cfg} {m : ℕ}
    (h : c₀.Appended sequenceId table fresh c) (hholds : c.HoldsTokens (table ++ fresh) n)
    (hfull : ∀ x ∈ table ++ fresh, c.filled x = cfg.blockSize)
    (ha : c.allocatePhysicalBlock = some (b, cache)) (hpos : 0 < m) (hle : m ≤ cfg.blockSize)
    (hc' : c' = { cache.setTokens b m with
      pageTables := cache.pageTables.insert sequenceId (table ++ (fresh ++ [b])) }) :
    c'.HoldsTokens (table ++ (fresh ++ [b])) (n + m) ∧
      (m = cfg.blockSize → ∀ x ∈ table ++ (fresh ++ [b]), c'.filled x = cfg.blockSize) := by
  have hb : b ∉ table ++ fresh := fun hmem =>
    (h.appending.partitioned.allocatePhysicalBlock ha).1
      (mem_ownedBlocks h.appending.lookup hmem)
  have hself : c'.filled b = m := by
    rw [hc']
    exact setTokens_filled_self
  have hsame : ∀ x ∈ table ++ fresh, c'.filled x = c.filled x := by
    intro x hx
    have hne := ne_of_mem_of_not_mem hx hb
    rw [hc']
    apply (setTokens_filled_of_ne hne).trans
    rw [filled, (allocated ha).other x hne, filled]
  rw [← List.append_assoc]
  constructor
  · have hnext := hholds.concat hfull hsame (hself ▸ hpos) (hself ▸ hle)
    rwa [hself] at hnext
  · intro hm x hx
    rcases List.mem_append.mp hx with hx | hx
    · rw [hsame x hx, hfull x hx]
    · rw [List.mem_singleton.mp hx, hself, hm]

/-- The loop fills the blocks it adds, up to the tokens that remain or to a throw. -/
theorem appendLoop_filled {c₀ : PagedKVCache cfg} {additional remaining : ℕ}
    (h : c₀.Appended sequenceId table fresh c) (hholds : c.HoldsTokens (table ++ fresh) n)
    (hfull : 0 < additional → ∀ x ∈ table ++ fresh, c.filled x = cfg.blockSize)
    (hadd : additional = (remaining + cfg.blockSize - 1) / cfg.blockSize)
    {result : Except KVCacheException Unit}
    (hrun : appendLoop sequenceId additional remaining (table ++ fresh) c = (result, c')) :
    ∃ fresh' n', c₀.Appended sequenceId table fresh' c' ∧
      c'.HoldsTokens (table ++ fresh') n' ∧ (result = .ok () → n' = n + remaining) := by
  have hbs := cfg.blockSize_pos
  induction additional generalizing c fresh n remaining with
  | zero =>
    obtain ⟨rfl, rfl⟩ := Prod.mk.inj hrun
    have hzero : remaining = 0 := by
      have hpos := (ceilDiv_pos (m := remaining) hbs).not
      omega
    exact ⟨fresh, n, h, hholds, fun _ => by rw [hzero, Nat.add_zero]⟩
  | succ additional ih =>
    unfold appendLoop at hrun
    cases ha : c.allocatePhysicalBlock with
    | none =>
      simp only [ha] at hrun
      obtain ⟨rfl, rfl⟩ := Prod.mk.inj hrun
      exact ⟨fresh, n, h, hholds, fun hok => absurd hok (by simp)⟩
    | some found =>
      obtain ⟨b, cache⟩ := found
      simp only [ha, List.append_assoc] at hrun
      have hremaining : 0 < remaining :=
        (ceilDiv_pos hbs).mp (hadd ▸ Nat.succ_pos additional)
      rw [ceilDiv_succ hbs hremaining, Nat.succ_inj] at hadd
      obtain ⟨hnext, hall⟩ := h.holds_concat hholds (hfull (Nat.succ_pos _)) ha
        (lt_min hremaining hbs) (Nat.min_le_right remaining _) rfl
      have hmore : 0 < additional → min remaining cfg.blockSize = cfg.blockSize := by
        intro hpos
        rw [hadd, ceilDiv_pos hbs] at hpos
        omega
      obtain ⟨fresh', n', hfresh', hholds', hok⟩ :=
        ih (h.concat ha _) hnext (fun hpos => hall (hmore hpos)) hadd hrun
      refine ⟨fresh', n', hfresh', hholds', fun hres => ?_⟩
      rw [hok hres]
      omega

/-- An append first fills the last block and then new ones. -/
theorem appendTokens_filled (hpart : c.Partitioned c.ownedBlocks)
    (hlookup : c.pageTables.lookup sequenceId = some table) (hnodup : table.Nodup)
    (hholds : c.HoldsTokens table n) (hrange : numTokens + cfg.blockSize ≤ 2 ^ 32)
    {result : Except KVCacheException Unit}
    (hrun : c.appendTokens sequenceId numTokens = (result, c')) :
    ∃ fresh n', c.Appended sequenceId table fresh c' ∧
      c'.HoldsTokens (table ++ fresh) n' ∧ (result = .ok () → n' = n + numTokens) := by
  obtain ⟨full, last, rfl, hfull, hle, -⟩ := id hholds
  have hlast : last ∈ (full ++ [last]).getLast? := by simp
  have hnotin : last ∉ full := fun hmem =>
    (List.nodup_append'.mp hnodup).2.2 hmem (List.mem_singleton_self last)
  have havailable : sub 32 cfg.blockSize (c.filled last) = cfg.blockSize - c.filled last :=
    sub_eq hle cfg.blockSize_lt
  simp only [appendTokens, hlookup, Option.mem_def.mp hlast] at hrun
  rw [← filled, havailable] at hrun
  have hstart := Appended.setTokens hpart hlookup hlast
  split_ifs at hrun with hfits
  · have hsum : add 32 (c.filled last) numTokens = c.filled last + numTokens :=
      add_eq (by have := cfg.blockSize_lt; omega)
    rw [hsum] at hrun
    obtain ⟨rfl, rfl⟩ := Prod.mk.inj hrun
    refine ⟨[], n + numTokens, hstart _, ?_, fun _ => rfl⟩
    rw [List.append_nil]
    exact hholds.fillLast hnotin (by omega)
  · have hfill := hholds.fillLast (m := cfg.blockSize - c.filled last) hnotin (by omega)
    rw [Nat.add_sub_of_le hle] at hfill
    have hfull' : ∀ x ∈ full ++ [last],
        (c.setTokens last cfg.blockSize).filled x = cfg.blockSize := by
      intro x hx
      rcases List.mem_append.mp hx with hx | hx
      · rw [setTokens_filled_of_ne (ne_of_mem_of_not_mem hx hnotin), hfull x hx]
      · rw [List.mem_singleton.mp hx, setTokens_filled_self]
    have hblocks : sub 32 (add 32 (numTokens - (cfg.blockSize - c.filled last)) cfg.blockSize) 1 =
        numTokens - (cfg.blockSize - c.filled last) + cfg.blockSize - 1 :=
      sub_one_of_le (by have := cfg.blockSize_pos; omega) (by omega) (by norm_num)
    rw [hblocks, ← List.append_nil (full ++ [last])] at hrun
    rw [← List.append_nil (full ++ [last])] at hfill hfull'
    obtain ⟨fresh, n', hfresh, hholds', hok⟩ := appendLoop_filled (hstart cfg.blockSize) hfill
      (fun _ => hfull') rfl hrun
    refine ⟨fresh, n', hfresh, hholds', fun hres => ?_⟩
    rw [hok hres]
    omega

end Append
section Tables

/-- Tables of different sequences have no block in common. -/
theorem tables_disjoint {id id' : ℕ} {table' : List (Block cfg)} (hnodup : c.ownedBlocks.Nodup)
    (hlookup : c.pageTables.lookup id = some table)
    (hlookup' : c.pageTables.lookup id' = some table') (hne : id ≠ id') :
    table.Disjoint table' := by
  rw [ownedBlocks_erase { c with pageTables := c.pageTables.erase id } hlookup rfl] at hnodup
  intro x hx hx'
  have hrest : (c.pageTables.erase id).lookup id' = some table' :=
    (AList.lookup_erase_ne hne.symm).trans hlookup'
  exact Multiset.disjoint_left.mp (Multiset.nodup_add.mp hnodup).2.2 hx
    (mem_ownedBlocks (c := { c with pageTables := c.pageTables.erase id }) hrest hx')

theorem table_nodup (hnodup : c.ownedBlocks.Nodup)
    (hlookup : c.pageTables.lookup sequenceId = some table) : table.Nodup := by
  rw [ownedBlocks_erase { c with pageTables := c.pageTables.erase sequenceId } hlookup rfl]
    at hnodup
  exact (Multiset.nodup_add.mp hnodup).1

theorem unregisterSequence_nodup (hnodup : c.ownedBlocks.Nodup) (sequenceId : ℕ) :
    (c.unregisterSequence sequenceId).ownedBlocks.Nodup := by
  cases hlookup : c.pageTables.lookup sequenceId with
  | none =>
    rw [unregisterSequence_none hlookup]
    exact hnodup
  | some table =>
    rw [ownedBlocks_unregister hlookup] at hnodup
    exact (Multiset.nodup_add.mp hnodup).2.1

/-- Without prefix caching no call, throwing or not, gives a block to two tables. -/
theorem step_exclusive (hcaching : cfg.enablePrefixCaching = false)
    (hpart : c.Partitioned c.ownedBlocks) (hnodup : c.ownedBlocks.Nodup) (action : KVCacheAction) :
    (c.step action).Partitioned (c.step action).ownedBlocks ∧
      (c.step action).ownedBlocks.Nodup := by
  cases action with
  | registerSequenceWithPrefix sequenceId promptTokens =>
    by_cases hid : sequenceId ∈ c.pageTables
    · simp only [step, registerSequenceWithPrefix, hid, if_true]
      exact ⟨hpart, hnodup⟩
    · have hrun : c.registerSequenceWithPrefix sequenceId promptTokens = (_, _) := rfl
      obtain ⟨hpart', hnodup', -⟩ := registerSequence_filled hcaching hpart hnodup hid hrun
      exact ⟨hpart', hnodup'⟩
  | appendTokens sequenceId numTokens =>
    cases hlookup : c.pageTables.lookup sequenceId with
    | none =>
      simp only [step, appendTokens, hlookup]
      exact ⟨hpart, hnodup⟩
    | some table =>
      obtain ⟨table', happending⟩ := appendTokens_appending hpart hlookup numTokens
      exact ⟨happending.partitioned, happending.nodup hnodup⟩
  | unregisterSequence sequenceId =>
    exact ⟨unregisterSequence_partitioned sequenceId hpart,
      unregisterSequence_nodup hnodup sequenceId⟩

theorem freePhysicalBlocks_of_notMem (h : x ∉ table) :
    (table.foldl freePhysicalBlock c).physicalBlocks x = c.physicalBlocks x := by
  induction table generalizing c with
  | nil => rfl
  | cons b table ih =>
    obtain ⟨hne, htable⟩ := not_or.mp (List.mem_cons.not.mp h)
    rw [List.foldl_cons, ih htable]
    unfold freePhysicalBlock
    simp only
    split_ifs
    · rfl
    all_goals exact setBlock_of_ne _ hne

end Tables
end PagedKVCache

/-- The cache with the tokens of every registered sequence: its prompt and its appends, or `none`
once an append to it threw. -/
structure TokenSystem (cfg : KVCacheConfig) where
  cache : PagedKVCache cfg
  tokens : FiniteMap ℕ (Option ℕ)

namespace TokenSystem
variable {cfg : KVCacheConfig} {s : TokenSystem cfg}

def init (cfg : KVCacheConfig) : TokenSystem cfg := ⟨PagedKVCache.init cfg, ∅⟩

def step (s : TokenSystem cfg) : KVCacheAction → TokenSystem cfg
  | .registerSequenceWithPrefix sequenceId promptTokens =>
    match s.cache.registerSequenceWithPrefix sequenceId promptTokens with
    | (.error _, cache) => { s with cache := cache }
    | (.ok _, cache) =>
      { cache := cache
        tokens :=
          if sequenceId ∈ s.cache.pageTables then s.tokens
          else s.tokens.insert sequenceId (some promptTokens.length) }
  | .appendTokens sequenceId numTokens =>
    match s.cache.appendTokens sequenceId numTokens with
    | (.error _, cache) =>
      { cache := cache
        tokens :=
          if sequenceId ∈ s.cache.pageTables then s.tokens.insert sequenceId none else s.tokens }
    | (.ok _, cache) =>
      { cache := cache
        tokens := s.tokens.insert sequenceId
          (((s.tokens.lookup sequenceId).getD none).map (· + numTokens)) }
  | .unregisterSequence sequenceId =>
    ⟨s.cache.unregisterSequence sequenceId, s.tokens.erase sequenceId⟩

/-- Prompts and appends that `uint32_t` arithmetic can handle. -/
def InRange (cfg : KVCacheConfig) : KVCacheAction → Prop
  | .registerSequenceWithPrefix _ promptTokens => promptTokens.length < 2 ^ 32
  | .appendTokens _ numTokens => numTokens + cfg.blockSize ≤ 2 ^ 32
  | .unregisterSequence _ => True

instance : ∀ action, Decidable (InRange cfg action)
  | .registerSequenceWithPrefix _ _ => inferInstanceAs (Decidable (_ < _))
  | .appendTokens _ _ => inferInstanceAs (Decidable (_ ≤ _))
  | .unregisterSequence _ => isTrue trivial

def Holds (s : TokenSystem cfg) (sequenceId : ℕ) (table : List (Block cfg)) : Prop :=
  ∃ n t, s.cache.HoldsTokens table n ∧ s.tokens.lookup sequenceId = some t ∧
    ∀ length, t = some length → n = length

structure Exclusive (s : TokenSystem cfg) : Prop where
  partitioned : s.cache.Partitioned s.cache.ownedBlocks
  nodup : s.cache.ownedBlocks.Nodup
  holds : ∀ id table, s.cache.pageTables.lookup id = some table → s.Holds id table

theorem Holds.congr {s' : TokenSystem cfg} {id : ℕ} {table : List (Block cfg)}
    (h : s.Holds id table) (hsame : ∀ x ∈ table, s'.cache.filled x = s.cache.filled x)
    (htokens : s'.tokens.lookup id = s.tokens.lookup id) : s'.Holds id table := by
  obtain ⟨n, t, hholds, ht, hn⟩ := h
  exact ⟨n, t, hholds.congr hsame, htokens.trans ht, hn⟩

theorem init_exclusive : (init cfg).Exclusive where
  partitioned := PagedKVCache.init_partitioned
  nodup := Multiset.nodup_zero
  holds id table h := by simp [init, PagedKVCache.init] at h

theorem Exclusive.register (hcaching : cfg.enablePrefixCaching = false) (h : s.Exclusive)
    {sequenceId : ℕ} {promptTokens : List Int32} (hlen : promptTokens.length < 2 ^ 32) :
    (s.step (.registerSequenceWithPrefix sequenceId promptTokens)).Exclusive := by
  by_cases hid : sequenceId ∈ s.cache.pageTables
  · have hsame : s.step (.registerSequenceWithPrefix sequenceId promptTokens) = s := by
      simp only [step, PagedKVCache.registerSequenceWithPrefix, hid, if_true]
    rw [hsame]
    exact h
  obtain ⟨⟨result, c'⟩, hrun⟩ : ∃ r,
      s.cache.registerSequenceWithPrefix sequenceId promptTokens = r := ⟨_, rfl⟩
  obtain ⟨hpart, hnodup, hsame, ⟨rfl, htables⟩ | ⟨rfl, table, htables, hholds⟩⟩ :=
    PagedKVCache.registerSequence_filled hcaching h.partitioned h.nodup hid hrun
  all_goals
    have hkeep : ∀ id table, s.cache.pageTables.lookup id = some table →
        ∀ x ∈ table, c'.filled x = s.cache.filled x := fun id table hlookup x hx => by
      rw [PagedKVCache.filled, hsame x (PagedKVCache.mem_ownedBlocks hlookup hx),
        PagedKVCache.filled]
  · simp only [step, hrun]
    refine ⟨hpart, hnodup, fun id table hlookup => ?_⟩
    rw [htables] at hlookup
    exact (h.holds id table hlookup).congr (hkeep id table hlookup) rfl
  · simp only [step, hrun, hid, if_false]
    refine ⟨hpart, hnodup, fun id table' hlookup => ?_⟩
    rw [htables, lookup_insert_ite] at hlookup
    split_ifs at hlookup with heq
    · obtain rfl := Option.some.inj hlookup
      subst heq
      rw [Nat.mod_eq_of_lt hlen] at hholds
      exact ⟨_, _, hholds, AList.lookup_insert _, fun _ => Option.some.inj⟩
    · exact (h.holds id table' hlookup).congr (hkeep id table' hlookup)
        (AList.lookup_insert_ne heq)

theorem Exclusive.append (h : s.Exclusive) {sequenceId numTokens : ℕ}
    (hrange : numTokens + cfg.blockSize ≤ 2 ^ 32) :
    (s.step (.appendTokens sequenceId numTokens)).Exclusive := by
  cases hlookup : s.cache.pageTables.lookup sequenceId with
  | none =>
    have hid : sequenceId ∉ s.cache.pageTables := AList.lookup_eq_none.mp hlookup
    have hsame : s.step (.appendTokens sequenceId numTokens) = s := by
      simp only [step, PagedKVCache.appendTokens, hlookup, hid, if_false]
    rw [hsame]
    exact h
  | some table =>
  have hid : sequenceId ∈ s.cache.pageTables := mem_of_lookup hlookup
  obtain ⟨n, t, hholds, ht, hn⟩ := h.holds sequenceId table hlookup
  obtain ⟨⟨result, c'⟩, hrun⟩ : ∃ r, s.cache.appendTokens sequenceId numTokens = r := ⟨_, rfl⟩
  obtain ⟨fresh, n', happended, hholds', hok⟩ := PagedKVCache.appendTokens_filled h.partitioned
    hlookup (PagedKVCache.table_nodup h.nodup hlookup) hholds hrange hrun
  have hnodup := happended.appending.nodup h.nodup
  have hkeep : ∀ id ≠ sequenceId, ∀ table', c'.pageTables.lookup id = some table' →
      s.cache.pageTables.lookup id = some table' ∧
        ∀ x ∈ table', c'.filled x = s.cache.filled x := by
    intro id hne table' hlookup'
    rw [happended.others id hne] at hlookup'
    refine ⟨hlookup', fun x hx => ?_⟩
    have hdisjoint := PagedKVCache.tables_disjoint h.nodup hlookup' hlookup hne
    rw [PagedKVCache.filled, happended.blocks x, PagedKVCache.filled]
    · exact fun hmem => happended.unowned x hmem (PagedKVCache.mem_ownedBlocks hlookup' hx)
    · exact fun hlast => hdisjoint hx (List.mem_of_mem_getLast? hlast)
  have hself : ∀ table', c'.pageTables.lookup sequenceId = some table' →
      table' = table ++ fresh := fun table' hlookup' =>
    Option.some.inj (hlookup'.symm.trans happended.appending.lookup)
  cases result with
  | error exception =>
    simp only [step, hrun, hid, if_true]
    refine ⟨happended.appending.partitioned, hnodup, fun id table' hlookup' => ?_⟩
    rcases eq_or_ne id sequenceId with rfl | hne
    · obtain rfl := hself table' hlookup'
      exact ⟨n', none, hholds', AList.lookup_insert _, by simp⟩
    · obtain ⟨hold, hsame⟩ := hkeep id hne table' hlookup'
      exact (h.holds id table' hold).congr hsame (AList.lookup_insert_ne hne)
  | ok =>
    simp only [step, hrun]
    refine ⟨happended.appending.partitioned, hnodup, fun id table' hlookup' => ?_⟩
    rcases eq_or_ne id sequenceId with rfl | hne
    · obtain rfl := hself table' hlookup'
      refine ⟨n', t.map (· + numTokens), hholds', ?_, fun length hlength => ?_⟩
      · rw [AList.lookup_insert, ht, Option.getD_some]
      · obtain ⟨old, rfl, rfl⟩ := Option.map_eq_some_iff.mp hlength
        rw [hok rfl, hn old rfl]
    · obtain ⟨hold, hsame⟩ := hkeep id hne table' hlookup'
      exact (h.holds id table' hold).congr hsame (AList.lookup_insert_ne hne)

theorem Exclusive.unregister (h : s.Exclusive) (sequenceId : ℕ) :
    (s.step (.unregisterSequence sequenceId)).Exclusive := by
  have hpart := PagedKVCache.unregisterSequence_partitioned sequenceId h.partitioned
  have hnodup := PagedKVCache.unregisterSequence_nodup h.nodup sequenceId
  cases hlookup : s.cache.pageTables.lookup sequenceId with
  | none =>
    have hsame := PagedKVCache.unregisterSequence_none hlookup
    refine ⟨hpart, hnodup, fun id table hid => ?_⟩
    simp only [step, hsame] at hid
    have hne : id ≠ sequenceId := fun heq => by
      rw [← heq, hid] at hlookup
      exact absurd hlookup (Option.some_ne_none table)
    refine (h.holds id table hid).congr (fun x _ => ?_) (AList.lookup_erase_ne hne)
    rw [← hsame]
    rfl
  | some table =>
    have hafter := PagedKVCache.unregisterSequence_some hlookup
    refine ⟨hpart, hnodup, fun id table' hid => ?_⟩
    simp only [step, hafter, lookup_erase_ite] at hid
    split_ifs at hid with hne
    refine (h.holds id table' hid).congr (fun x hx => ?_) (AList.lookup_erase_ne hne)
    have hdisjoint := PagedKVCache.tables_disjoint h.nodup hid hlookup hne
    simp only [step, hafter, PagedKVCache.filled]
    rw [PagedKVCache.freePhysicalBlocks_of_notMem (hdisjoint hx)]

theorem Exclusive.step (hcaching : cfg.enablePrefixCaching = false) (h : s.Exclusive)
    {action : KVCacheAction} (hrange : InRange cfg action) : (s.step action).Exclusive := by
  cases action with
  | registerSequenceWithPrefix sequenceId promptTokens => exact h.register hcaching hrange
  | appendTokens sequenceId numTokens => exact h.append hrange
  | unregisterSequence sequenceId => exact h.unregister sequenceId

/-- The page tables after a run, with the tokens of the sequences on which no append threw. -/
structure TablesExact (s : TokenSystem cfg) : Prop where
  free_nodup : s.cache.freeBlockStack.Nodup
  table_nodup : ∀ id table, s.cache.pageTables.lookup id = some table → table.Nodup
  disjoint : ∀ id id' table table', id ≠ id' → s.cache.pageTables.lookup id = some table →
    s.cache.pageTables.lookup id' = some table' → table.Disjoint table'
  not_free : ∀ id table, s.cache.pageTables.lookup id = some table →
    ∀ b ∈ table, b ∉ s.cache.freeBlockStack
  full : ∀ id table, s.cache.pageTables.lookup id = some table →
    ∀ b ∈ table.dropLast, s.cache.filled b = cfg.blockSize
  last_le : ∀ id table, s.cache.pageTables.lookup id = some table →
    ∃ last, table.getLast? = some last ∧ s.cache.filled last ≤ cfg.blockSize
  recorded : ∀ id, id ∈ s.cache.pageTables → id ∈ s.tokens
  length : ∀ id table n, s.cache.pageTables.lookup id = some table →
    s.tokens.lookup id = some (some n) →
    table.length = max 1 ((n + cfg.blockSize - 1) / cfg.blockSize)
  tokens : ∀ id table n last, s.cache.pageTables.lookup id = some table →
    s.tokens.lookup id = some (some n) → table.getLast? = some last →
    (table.length - 1) * cfg.blockSize + s.cache.filled last = n
  contextLens : ∀ (id n : ℕ) (ids : List ℕ) (desc : KVCacheBatchDescriptor) (i : ℕ),
    s.tokens.lookup id = some (some n) →
    s.cache.prepareBatchMetadata ids = .ok desc → ids[i]? = some id →
    desc.contextLens[i]? = some (toSigned 32 n) ∧ (n < 2 ^ 31 → toSigned 32 n = n)

theorem Exclusive.holdsTokens (h : s.Exclusive) {id n : ℕ} {table : List (Block cfg)}
    (hlookup : s.cache.pageTables.lookup id = some table)
    (htokens : s.tokens.lookup id = some (some n)) : s.cache.HoldsTokens table n := by
  obtain ⟨m, t, hholds, ht, hm⟩ := h.holds id table hlookup
  obtain rfl := Option.some.inj (ht.symm.trans htokens)
  exact hm n rfl ▸ hholds

theorem Exclusive.tablesExact (h : s.Exclusive) : s.TablesExact where
  free_nodup := h.partitioned.free_nodup
  table_nodup id table hlookup := PagedKVCache.table_nodup h.nodup hlookup
  disjoint id id' table table' hne hlookup hlookup' :=
    PagedKVCache.tables_disjoint h.nodup hlookup hlookup' hne
  not_free id table hlookup b hb :=
    h.partitioned.not_mem_free_of_held (PagedKVCache.mem_ownedBlocks hlookup hb)
  full id table hlookup b hb := by
    obtain ⟨n, t, ⟨full, last, rfl, hfull, -⟩, -⟩ := h.holds id table hlookup
    rw [List.dropLast_concat] at hb
    exact hfull b hb
  last_le id table hlookup := by
    obtain ⟨n, t, ⟨full, last, rfl, -, hle, -⟩, -⟩ := h.holds id table hlookup
    exact ⟨last, List.getLast?_concat, hle⟩
  recorded id hid := by
    obtain ⟨table, hlookup⟩ := Option.isSome_iff_exists.mp (AList.lookup_isSome.mpr hid)
    obtain ⟨n, t, -, ht, -⟩ := h.holds id table hlookup
    exact mem_of_lookup ht
  length id table n hlookup htokens := (h.holdsTokens hlookup htokens).length
  tokens id table n last hlookup htokens hlast := by
    obtain ⟨full, last', rfl, -, -, -, rfl⟩ := h.holdsTokens hlookup htokens
    rw [List.getLast?_concat, Option.some.injEq] at hlast
    rw [hlast, List.length_append, List.length_singleton, Nat.add_sub_cancel]
  contextLens id n ids desc i htokens hdesc hget := by
    obtain ⟨table, hlookup, hlen⟩ := PagedKVCache.prepareBatchMetadata_contextLens hdesc hget
    rw [(h.holdsTokens hlookup htokens).contextLen] at hlen
    exact ⟨hlen, fun hn => toSigned_eq (by omega)⟩

/-- Without prefix caching every run, throwing calls included, keeps the page tables exact. -/
theorem tables_exact (hcaching : cfg.enablePrefixCaching = false) (actions : List KVCacheAction)
    (hrange : ∀ action ∈ actions, InRange cfg action) :
    (actions.foldl step (init cfg)).TablesExact := by
  have hinv : (actions.foldl step (init cfg)).Exclusive :=
    List.foldlRecOn actions step init_exclusive
      fun s hs action haction => hs.step hcaching (hrange action haction)
  exact hinv.tablesExact

/-- The second append runs out of pages in its middle, and the first one crosses a boundary. -/
theorem tables_exact_throwing : TablesExact (([.registerSequenceWithPrefix 1 [7, 8, 9],
    .registerSequenceWithPrefix 2 [], .appendTokens 1 2, .appendTokens 2 9] :
      List KVCacheAction).foldl step (init uncached)) :=
  tables_exact rfl _ (by decide)

/-- The context length of a sequence of `2 ^ 31` tokens does not fit into `int32_t`. -/
theorem contextLens_wide : ∃ s : TokenSystem wideBlock, ∃ desc,
    ([.registerSequenceWithPrefix 1 [], .appendTokens 1 (2 ^ 31)] :
      List KVCacheAction).foldl step (init wideBlock) = s ∧
    InRange wideBlock (.appendTokens 1 (2 ^ 31)) ∧
    s.tokens.lookup 1 = some (some (2 ^ 31)) ∧ s.cache.prepareBatchMetadata [1] = .ok desc ∧
    desc.contextLens = [-2 ^ 31] :=
  ⟨_, _, rfl, by decide, by decide +kernel, rfl, by decide +kernel⟩

end TokenSystem
end CudaForge.Memory
