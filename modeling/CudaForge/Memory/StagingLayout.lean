import CudaForge.Memory.FailedCalls

/-!
Where the metadata of a batch lands. The rows of the flattened block table are as long as the
longest table of the batch, so that every entry is found again from its row and column.
-/
namespace CudaForge.Memory
open MachineWord FiniteMap

namespace PagedKVCache
variable {cfg : KVCacheConfig} {c : PagedKVCache cfg} {ids : List ℕ} {m i b : ℕ}
  {table : List (Block cfg)} {tables : List (List (Block cfg))}

section Layout

theorem blockRows_get (hlen : ∀ table ∈ tables, table.length ≤ m) (hi : tables[i]? = some table)
    (hb : b < m) : (tables.flatMap (blockRow m))[i * m + b]? = (blockRow m table)[b]? := by
  induction tables generalizing i with
  | nil => simp at hi
  | cons first rest ih =>
    obtain ⟨hfirst, hrest⟩ := List.forall_mem_cons.mp hlen
    have hrow := blockRow_length hfirst
    rw [List.flatMap_cons]
    cases i with
    | zero =>
      obtain rfl := Option.some.inj hi
      rw [Nat.zero_mul, Nat.zero_add, List.getElem?_append_left (by rwa [hrow])]
    | succ i =>
      have hsucc : (i + 1) * m + b = m + (i * m + b) := by
        rw [Nat.succ_mul]
        omega
      rw [List.getElem?_append_right (by omega), hsucc, hrow, Nat.add_sub_cancel_left]
      exact ih hrest hi

/-- A column holds the block at its place in the table, or the padding. -/
theorem blockRow_get (hb : b < m) :
    (blockRow m table)[b]? = some ((table[b]?.map fun x => (x.val : ℤ)).getD (-1)) := by
  rw [blockRow]
  rcases Nat.lt_or_ge b table.length with hlt | hge
  · rw [List.getElem?_append_left (by rwa [List.length_map]), List.getElem?_map,
      List.getElem?_eq_getElem hlt, Option.map_some, Option.getD_some]
  · rw [List.getElem?_append_right (by rwa [List.length_map]), List.length_map,
      List.getElem?_replicate_of_lt (by omega), List.getElem?_eq_none hge, Option.map_none,
      Option.getD_none]

/-- The padding is no block id. -/
theorem blockRow_filter (m : ℕ) (table : List (Block cfg)) :
    (blockRow m table).filter (· ≠ -1) = table.map fun x => (x.val : ℤ) := by
  have hids : (table.map fun x => (x.val : ℤ)).filter (· ≠ -1) =
      table.map fun x => (x.val : ℤ) := by
    apply List.filter_eq_self.mpr
    intro v hv
    obtain ⟨x, -, rfl⟩ := List.mem_map.mp hv
    have hne : (x.val : ℤ) ≠ -1 := by omega
    exact decide_eq_true hne
  have hpadding : (List.replicate (m - table.length) (-1 : ℤ)).filter (· ≠ -1) = [] := by
    apply List.filter_eq_nil_iff.mpr
    intro v hv
    rw [List.eq_of_mem_replicate hv]
    decide
  rw [blockRow, List.filter_append, hids, hpadding, List.append_nil]

end Layout

section Bounds

/-- The bytes of a staging buffer, computed in `size_t`. -/
def stagingBytes (cfg : KVCacheConfig) : MetadataBuffer → ℕ
  | .blockTables => cfg.maxSupportedBatchSize * cfg.maxBlocksPerSequence % 2 ^ 64 * 4 % 2 ^ 64
  | .contextLens => cfg.maxSupportedBatchSize * 4 % 2 ^ 64

def Inside (cfg : KVCacheConfig) (w : HostWrite) : Prop :=
  (w.index + 1) * 4 ≤ stagingBytes cfg w.buffer

instance (w : HostWrite) : Decidable (Inside cfg w) := inferInstanceAs (Decidable (_ ≤ _))

/-- The checks of `prepare_batch_metadata` and its writes to the staging buffers, in their order. An
exception keeps what was written before it. -/
def stageBatch (c : PagedKVCache cfg) (activeSequenceIds : List ℕ) :
    ExceptT KVCacheException (StateM (List HostWrite)) Unit := do
  if activeSequenceIds.length > cfg.maxSupportedBatchSize then throw .batchTooLarge
  let tables ← ExceptT.mk (pure (c.batchTables activeSequenceIds))
  if (tables.map List.length).foldl max 0 > cfg.maxBlocksPerSequence then throw .tooManyBlocks
  modify (· ++ c.hostWrites tables)

def batchWrites (c : PagedKVCache cfg) (activeSequenceIds : List ℕ) : List HostWrite :=
  ((c.stageBatch activeSequenceIds).run.run []).2

theorem mem_writeFrom {buffer : MetadataBuffer} {vs : List ℤ} {w : HostWrite}
    (h : w ∈ writeFrom buffer i vs) : w.buffer = buffer ∧ w.index < i + vs.length := by
  induction vs generalizing i with
  | nil => exact absurd h List.not_mem_nil
  | cons v vs ih =>
    rw [List.length_cons]
    rcases List.mem_cons.mp h with rfl | h
    · exact ⟨rfl, by simp only; omega⟩
    · obtain ⟨hbuffer, hindex⟩ := ih h
      exact ⟨hbuffer, by omega⟩

def usedWords (m n : ℕ) : MetadataBuffer → ℕ
  | .blockTables => n * m
  | .contextLens => n

theorem mem_rowWrites {w : HostWrite} (hlen : ∀ table ∈ tables, table.length ≤ m)
    (h : w ∈ c.rowWrites m i tables) : w.index < usedWords m (i + tables.length) w.buffer := by
  induction tables generalizing i with
  | nil => exact absurd h List.not_mem_nil
  | cons first rest ih =>
    obtain ⟨hfirst, hrest⟩ := List.forall_mem_cons.mp hlen
    rw [List.length_cons]
    rcases List.mem_append.mp h with h | h
    · obtain ⟨hbuffer, hindex⟩ := mem_writeFrom h
      rw [List.length_map] at hindex
      have hle : (i + 1) * m ≤ (i + (rest.length + 1)) * m := Nat.mul_le_mul_right m (by omega)
      rw [Nat.succ_mul] at hle
      rw [hbuffer, usedWords]
      omega
    · rcases List.mem_cons.mp h with rfl | h
      · simp only [usedWords]
        omega
      · have hindex := ih hrest h
        rwa [Nat.add_right_comm, Nat.add_assoc] at hindex

theorem mem_hostWrites {w : HostWrite} (h : w ∈ c.hostWrites tables) :
    w.index < usedWords ((tables.map List.length).foldl max 0) tables.length w.buffer := by
  have hlen : ∀ table ∈ tables, table.length ≤ (tables.map List.length).foldl max 0 :=
    fun table ht => (le_foldl_max _ 0).2 _ (List.mem_map_of_mem ht)
  rcases List.mem_append.mp h with h | h
  · obtain ⟨hbuffer, hindex⟩ := mem_writeFrom h
    rw [List.length_replicate, Nat.zero_add] at hindex
    rw [hbuffer]
    exact hindex
  · have hindex := mem_rowWrites hlen h
    rwa [Nat.zero_add] at hindex

end Bounds

section Decode

theorem contextLen_eq {last : Block cfg} (hlast : last ∈ table.getLast?) :
    c.contextLen table = toSigned 32 ((table.length - 1) * cfg.blockSize + c.filled last) := by
  have hmod : add 32 ((table.length - 1) % 2 ^ 32 * cfg.blockSize % 2 ^ 32) (c.filled last) =
      ((table.length - 1) * cfg.blockSize + c.filled last) % 2 ^ 32 := by
    rw [add, Nat.mod_mul_mod, Nat.mod_add_mod]
  simp only [contextLen, Option.mem_def.mp hlast, Option.map_some, Option.getD_some]
  rw [← filled, hmod, toSigned, toSigned, Int.natCast_mod, Int.emod_bmod]

theorem batchTables_ok (h : ∀ id ∈ ids, id ∈ c.pageTables) : ∃ tables,
    c.batchTables ids = .ok tables ∧ tables.length = ids.length ∧
      ∀ table ∈ tables, ∃ id ∈ ids, c.pageTables.lookup id = some table := by
  induction ids with
  | nil => exact ⟨[], rfl, rfl, fun table ht => absurd ht List.not_mem_nil⟩
  | cons id rest ih =>
    obtain ⟨hid, hrest⟩ := List.forall_mem_cons.mp h
    obtain ⟨table, hlookup⟩ := Option.isSome_iff_exists.mp (AList.lookup_isSome.mpr hid)
    obtain ⟨tables, htables, hlength, hmem⟩ := ih hrest
    refine ⟨table :: tables, ?_, congrArg (· + 1) hlength, ?_⟩
    · simp only [batchTables, hlookup, htables, Except.map]
    · refine List.forall_mem_cons.mpr ⟨⟨id, List.mem_cons_self, hlookup⟩, fun table' ht => ?_⟩
      obtain ⟨id', hid', hlookup'⟩ := hmem table' ht
      exact ⟨id', List.mem_cons_of_mem id hid', hlookup'⟩

structure RowDecodes (c : PagedKVCache cfg) (mem : BufferMemory) (stride i : ℕ)
    (table : List (Block cfg)) : Prop where
  length_le : table.length ≤ stride
  entry : ∀ b < stride, mem .blockTables (i * stride + b) =
    (table[b]?.map fun x => (x.val : ℤ)).getD (-1)
  row : ((List.range stride).map fun b => mem .blockTables (i * stride + b)).filter (· ≠ -1) =
    table.map fun x => (x.val : ℤ)
  contextLen : ∃ last ∈ table.getLast?, mem .contextLens i =
    toSigned 32 ((table.length - 1) * cfg.blockSize + c.filled last)

theorem rowDecodes_hostWrites (mem : BufferMemory) (hi : tables[i]? = some table)
    (hne : table ≠ []) :
    c.RowDecodes (performAll (c.hostWrites tables) mem) ((tables.map List.length).foldl max 0) i
      table := by
  have hlen : ∀ table ∈ tables, table.length ≤ (tables.map List.length).foldl max 0 :=
    fun table ht => (le_foldl_max _ 0).2 _ (List.mem_map_of_mem ht)
  obtain ⟨hblocks, hcontext⟩ := c.holds_hostWrites tables mem
  generalize performAll (c.hostWrites tables) mem = after at hblocks hcontext ⊢
  generalize (tables.map List.length).foldl max 0 = stride at hlen hblocks ⊢
  have hentry : ∀ b < stride, after .blockTables (i * stride + b) =
      (table[b]?.map fun x => (x.val : ℤ)).getD (-1) := by
    intro b hb
    apply holds_iff.mp hblocks
    rw [blockRows_get hlen hi hb, blockRow_get hb]
  refine ⟨hlen table (List.mem_of_getElem? hi), hentry, ?_, ?_⟩
  · rw [← blockRow_filter stride table]
    congr 1
    apply List.ext_getElem?
    intro b
    rcases Nat.lt_or_ge b stride with hb | hb
    · rw [blockRow_get hb, List.getElem?_map, List.getElem?_range hb, Option.map_some, hentry b hb]
    · rw [List.getElem?_eq_none (by simpa using hb), List.getElem?_eq_none]
      rwa [blockRow_length (hlen table (List.mem_of_getElem? hi))]
  · refine ⟨table.getLast hne, List.getLast?_eq_some_getLast hne, ?_⟩
    apply holds_iff.mp hcontext
    rw [List.getElem?_map, hi, Option.map_some, contextLen_eq (List.getLast?_eq_some_getLast hne)]

/-- A batch of at most `max_supported_batch_size` registered sequences with short enough tables. -/
structure ValidBatch (c : PagedKVCache cfg) (ids : List ℕ) : Prop where
  registered : ∀ id ∈ ids, id ∈ c.pageTables
  size_le : ids.length ≤ cfg.maxSupportedBatchSize
  blocks_le : ∀ id ∈ ids, ∀ table ∈ c.pageTables.lookup id,
    table.length ≤ cfg.maxBlocksPerSequence

theorem ValidBatch.prepare (h : c.ValidBatch ids) : ∃ tables batch,
    c.batchTables ids = .ok tables ∧ c.prepareBatchMetadata ids = .ok batch ∧
      batch.maxBlocksPerSeq = toSigned 32 ((tables.map List.length).foldl max 0) ∧
      tables.length = ids.length ∧
      (tables.map List.length).foldl max 0 ≤ cfg.maxBlocksPerSequence := by
  obtain ⟨tables, htables, hlength, hmem⟩ := batchTables_ok h.registered
  have hmax : (tables.map List.length).foldl max 0 ≤ cfg.maxBlocksPerSequence := by
    apply List.foldlRecOn (motive := fun n => n ≤ cfg.maxBlocksPerSequence) _ _ (Nat.zero_le _)
    intro n hn k hk
    obtain ⟨table, htable, rfl⟩ := List.mem_map.mp hk
    obtain ⟨id, hid, hlookup⟩ := hmem table htable
    exact max_le hn (h.blocks_le id hid table hlookup)
  unfold prepareBatchMetadata
  rw [if_neg (Nat.not_lt.mpr h.size_le), htables]
  simp only
  rw [if_neg (Nat.not_lt.mpr hmax)]
  refine ⟨tables, _, rfl, rfl, ?_, hlength, hmax⟩
  simp only

/-- The exceptions of a call come before its writes. -/
theorem stageBatch_run (c : PagedKVCache cfg) (ids : List ℕ) :
    (∃ exception, c.prepareBatchMetadata ids = .error exception ∧
      (c.stageBatch ids).run.run [] = (.error exception, [])) ∨
    ∃ tables batch, c.batchTables ids = .ok tables ∧ c.prepareBatchMetadata ids = .ok batch ∧
      (c.stageBatch ids).run.run [] = (.ok (), c.hostWrites tables) := by
  unfold prepareBatchMetadata stageBatch
  split_ifs with hsize
  · exact .inl ⟨_, rfl, rfl⟩
  · cases htables : c.batchTables ids with
    | error exception => exact .inl ⟨_, rfl, rfl⟩
    | ok tables =>
      have hbind : ∀ rest, (ExceptT.mk (pure (.ok tables)) >>= rest :
          ExceptT KVCacheException (StateM (List HostWrite)) Unit) = rest tables := fun _ => rfl
      rw [hbind]
      dsimp only
      split_ifs with hblocks
      · exact .inl ⟨_, rfl, rfl⟩
      · exact .inr ⟨tables, _, rfl, rfl, rfl⟩

theorem batchWrites_error {exception : KVCacheException}
    (h : c.prepareBatchMetadata ids = .error exception) : c.batchWrites ids = [] := by
  rcases c.stageBatch_run ids with ⟨_, -, hrun⟩ | ⟨_, _, -, hbatch, -⟩
  · rw [batchWrites, hrun]
  · cases h.symm.trans hbatch

theorem batchWrites_ok {batch : KVCacheBatchDescriptor}
    (h : c.prepareBatchMetadata ids = .ok batch) (htables : c.batchTables ids = .ok tables) :
    c.batchWrites ids = c.hostWrites tables := by
  rcases c.stageBatch_run ids with ⟨_, herror, -⟩ | ⟨_, _, htables', -, hrun⟩
  · cases h.symm.trans herror
  · obtain rfl := Except.ok.inj (htables.symm.trans htables')
    rw [batchWrites, hrun]

/-- The products in `size_t` are exact, and the used words are among those of the buffers. -/
theorem inside_of_used {w : HostWrite} {n : ℕ} (hn : n ≤ cfg.maxSupportedBatchSize)
    (hm : m ≤ cfg.maxBlocksPerSequence)
    (hfit : cfg.maxSupportedBatchSize * cfg.maxBlocksPerSequence * 4 < 2 ^ 64) (hpos : 0 < m)
    (h : w.index < usedWords m n w.buffer) : Inside cfg w := by
  have htable : n * m ≤ cfg.maxSupportedBatchSize * cfg.maxBlocksPerSequence :=
    Nat.mul_le_mul hn hm
  have hlens : cfg.maxSupportedBatchSize ≤
      cfg.maxSupportedBatchSize * cfg.maxBlocksPerSequence :=
    Nat.le_mul_of_pos_right _ (hpos.trans_le hm)
  rw [Inside]
  cases hbuffer : w.buffer with
  | blockTables =>
    rw [hbuffer, usedWords] at h
    have hproduct : cfg.maxSupportedBatchSize * cfg.maxBlocksPerSequence % 2 ^ 64 =
        cfg.maxSupportedBatchSize * cfg.maxBlocksPerSequence := Nat.mod_eq_of_lt (by omega)
    rw [stagingBytes, hproduct, Nat.mod_eq_of_lt hfit]
    omega
  | contextLens =>
    rw [hbuffer, usedWords] at h
    rw [stagingBytes, Nat.mod_eq_of_lt (by omega)]
    omega

/-- A valid batch decodes back to its page tables. -/
structure BatchDecodes (c : PagedKVCache cfg) (ids : List ℕ) (mem : BufferMemory)
    (batch : KVCacheBatchDescriptor) (stride : ℕ) : Prop where
  maxBlocksPerSeq : batch.maxBlocksPerSeq = toSigned 32 stride
  inside : ∀ w ∈ c.batchWrites ids, Inside cfg w
  rows : ∀ i id table, ids[i]? = some id → c.pageTables.lookup id = some table →
    c.RowDecodes (performAll (c.batchWrites ids) mem) stride i table
  copied : ∀ buffer, Holds (performAll (c.batchWrites ids) mem buffer) (batch.words buffer)

theorem Bounded.batchDecodes (hbounded : c.Bounded) (h : c.ValidBatch ids) (mem : BufferMemory)
    (hfit : cfg.maxSupportedBatchSize * cfg.maxBlocksPerSequence * 4 < 2 ^ 64) :
    ∃ batch stride, c.prepareBatchMetadata ids = .ok batch ∧
      c.BatchDecodes ids mem batch stride := by
  obtain ⟨tables, batch, htables, hbatch, hstride, hlength, hmax⟩ := h.prepare
  have hwrites : c.batchWrites ids = c.hostWrites tables := batchWrites_ok hbatch htables
  refine ⟨batch, (tables.map List.length).foldl max 0, hbatch, hstride, ?_, ?_, ?_⟩
  · rw [hwrites]
    intro w hw
    have hused := mem_hostWrites hw
    have hrow : 0 < (tables.map List.length).foldl max 0 := by
      have hne : tables ≠ [] := by
        rintro rfl
        exact absurd hw List.not_mem_nil
      have hids : 0 < ids.length := hlength ▸ List.length_pos_iff.mpr hne
      obtain ⟨table, hlookup, hget⟩ := batchTables_get htables (List.getElem?_eq_getElem hids)
      have htable := List.length_pos_iff.mpr (hbounded.nonempty _ table hlookup)
      exact htable.trans_le ((le_foldl_max _ 0).2 _
        (List.mem_map_of_mem (List.mem_of_getElem? hget)))
    exact inside_of_used (hlength.trans_le h.size_le) hmax hfit hrow hused
  · intro i id table hid hlookup
    obtain ⟨table', hlookup', hi⟩ := batchTables_get htables hid
    obtain rfl := Option.some.inj (hlookup.symm.trans hlookup')
    rw [hwrites]
    exact rowDecodes_hostWrites mem hi (hbounded.nonempty id table hlookup)
  · rw [hwrites]
    obtain ⟨hblocks, hcontext⟩ := c.holds_hostWrites tables mem
    obtain ⟨hwords, hlens⟩ := prepareBatchMetadata_words hbatch htables
    exact MetadataBuffer.forall_iff.mpr ⟨hwords ▸ hblocks, hlens ▸ hcontext⟩

/-- In every state that calls reach, a valid batch is written inside the staging buffers and decodes
back to the page tables, and a batch that is refused writes nothing. -/
theorem batch_decodes (calls : List KVCacheCall) (mem : BufferMemory)
    (hfit : cfg.maxSupportedBatchSize * cfg.maxBlocksPerSequence * 4 < 2 ^ 64) (ids : List ℕ) :
    let c := calls.foldl afterCall (init cfg)
    (c.ValidBatch ids → ∃ batch stride, c.prepareBatchMetadata ids = .ok batch ∧
      c.BatchDecodes ids mem batch stride) ∧
    ∀ exception, c.prepareBatchMetadata ids = .error exception → c.batchWrites ids = [] := by
  intro c
  have hbounded : c.Bounded := calls_bounded calls
  exact ⟨fun h => hbounded.batchDecodes h mem hfit, fun exception => batchWrites_error⟩

/-- A row is shorter than the other, and it is staged twice over what the buffers held before. -/
theorem batch_decodes_padded :
    let c := ([.registerSequenceWithPrefix 1 [5, 6, 7], .registerSequenceWithPrefix 2 [8]] :
      List KVCacheCall).foldl afterCall (init threeTokenPairs)
    let after := performAll (c.batchWrites [2, 1, 2]) fun _ _ => 7
    (∃ batch stride, c.prepareBatchMetadata [2, 1, 2] = .ok batch ∧
      c.BatchDecodes [2, 1, 2] (fun _ _ => 7) batch stride) ∧
    (List.range 6).map (after .blockTables) = [2, -1, 0, 1, 2, -1] ∧
    (List.range 4).map (after .contextLens) = [1, 3, 1, 7] := by
  refine ⟨(batch_decodes _ _ (by decide) _).1 ⟨by decide +kernel, by decide, ?_⟩,
    by decide +kernel, by decide +kernel⟩
  decide +kernel

/-- A context length of `2 ^ 31` is staged as a negative one, and where the size of the table buffer
wraps to 0 the only word of a table is written behind it. -/
theorem batch_decodes_wrapped :
    let c := ([.registerSequenceWithPrefix 1 [], .appendTokens 1 (2 ^ 31)] :
      List KVCacheCall).foldl afterCall (init wideCachedBlock)
    let c' := (init unlimitedBlocks).afterCall (.registerSequenceWithPrefix 1 [5])
    (c.ValidBatch [1] ∧ c.pageTables.lookup 1 = some [0] ∧
      (1 - 1) * wideCachedBlock.blockSize + c.filled 0 = 2 ^ 31 ∧
      performAll (c.batchWrites [1]) (fun _ _ => 0) .contextLens 0 = -2 ^ 31) ∧
    c'.ValidBatch [1] ∧ stagingBytes unlimitedBlocks .blockTables = 0 ∧
      ∃ w ∈ c'.batchWrites [1], ¬Inside unlimitedBlocks w := by
  refine ⟨⟨⟨?_, by decide, ?_⟩, ?_, ?_, ?_⟩, ⟨?_, by decide, ?_⟩, ?_, ?_⟩
  all_goals decide +kernel

end Decode
end PagedKVCache
end CudaForge.Memory
