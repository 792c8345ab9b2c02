import CudaForge.Library.KeyedQueue
import CudaForge.Memory.BlockAllocator
import CudaForge.Memory.ReferenceCounts

/-!
The metadata of a batch on its way to the device.

All calls of `prepare_batch_metadata` share one pinned and one device buffer for the block tables,
and one of each for the context lengths. The copies read the pinned buffers when they execute, which
may be after the call has returned.
-/
namespace CudaForge.Memory
open KeyedQueue

inductive MetadataBuffer where
  | blockTables
  | contextLens
  deriving DecidableEq

theorem MetadataBuffer.forall_iff {P : MetadataBuffer → Prop} :
    (∀ buffer, P buffer) ↔ P .blockTables ∧ P .contextLens :=
  ⟨fun h => ⟨h _, h _⟩, fun h buffer => by cases buffer with
    | blockTables => exact h.1
    | contextLens => exact h.2⟩

instance {P : MetadataBuffer → Prop} [DecidablePred P] : Decidable (∀ buffer, P buffer) :=
  decidable_of_iff _ MetadataBuffer.forall_iff.symm

def KVCacheBatchDescriptor.words (batch : KVCacheBatchDescriptor) : MetadataBuffer → List ℤ
  | .blockTables => batch.blockTables
  | .contextLens => batch.contextLens

abbrev BufferMemory := MetadataBuffer → ℕ → ℤ

structure HostWrite where
  buffer : MetadataBuffer
  index : ℕ
  value : ℤ
  deriving DecidableEq

def HostWrite.perform (w : HostWrite) (mem : BufferMemory) : BufferMemory :=
  Function.update mem w.buffer (Function.update (mem w.buffer) w.index w.value)

def writeFrom (buffer : MetadataBuffer) : ℕ → List ℤ → List HostWrite
  | _, [] => []
  | i, v :: vs => ⟨buffer, i, v⟩ :: writeFrom buffer (i + 1) vs

def Holds (mem : ℕ → ℤ) (words : List ℤ) : Prop := (List.range words.length).map mem = words

instance (mem : ℕ → ℤ) (words : List ℤ) : Decidable (Holds mem words) :=
  inferInstanceAs (Decidable (_ = _))

section Holds
variable {mem source : ℕ → ℤ} {words words' : List ℤ}

theorem holds_iff : Holds mem words ↔ ∀ i v, words[i]? = some v → mem i = v := by
  constructor
  · intro h i v hv
    have hi := (List.getElem?_eq_some_iff.mp hv).1
    rw [← h, List.getElem?_map, List.getElem?_range hi] at hv
    exact Option.some.inj hv
  · intro h
    apply List.ext_getElem (by rw [List.length_map, List.length_range])
    intro i _ hi
    rw [List.getElem_map, List.getElem_range]
    exact h i _ (List.getElem?_eq_getElem hi)

theorem Holds.set (h : Holds mem words) (i : ℕ) (v : ℤ) :
    Holds (Function.update mem i v) (words.set i v) := by
  rw [holds_iff] at h ⊢
  intro j x hx
  rw [List.getElem?_set] at hx
  split_ifs at hx with hij hlt
  · rw [← hij, Function.update_self]
    exact Option.some.inj hx
  · rw [Function.update_of_ne (Ne.symm hij)]
    exact h j x hx

theorem Holds.concat (h : Holds mem words) (v : ℤ) :
    Holds (Function.update mem words.length v) (words ++ [v]) := by
  rw [holds_iff] at h ⊢
  intro j x hx
  rcases Nat.lt_or_ge j words.length with hlt | hge
  · rw [List.getElem?_append_left hlt] at hx
    rw [Function.update_of_ne hlt.ne]
    exact h j x hx
  · have hj := (List.getElem?_eq_some_iff.mp hx).1
    rw [List.length_append, List.length_singleton] at hj
    obtain rfl : j = words.length := by omega
    rw [List.getElem?_concat_length] at hx
    rw [Function.update_self]
    exact Option.some.inj hx

def Agree (words words' : List ℤ) : Prop := words.take words'.length = words'.take words.length

instance (words words' : List ℤ) : Decidable (Agree words words') :=
  inferInstanceAs (Decidable (_ = _))

theorem Agree.of_holds (h : Holds mem words) (h' : Holds mem words') : Agree words words' := by
  apply List.ext_getElem?
  intro i
  rw [List.getElem?_take, List.getElem?_take]
  rcases Nat.lt_or_ge i words.length with hi | hi <;>
    rcases Nat.lt_or_ge i words'.length with hi' | hi'
  · rw [if_pos hi, if_pos hi', List.getElem?_eq_getElem hi, List.getElem?_eq_getElem hi',
      ← holds_iff.mp h i _ (List.getElem?_eq_getElem hi),
      ← holds_iff.mp h' i _ (List.getElem?_eq_getElem hi')]
  · rw [if_neg hi'.not_gt, if_pos hi, List.getElem?_eq_none hi']
  · rw [if_pos hi', if_neg hi.not_gt, List.getElem?_eq_none hi]
  · rw [if_neg hi'.not_gt, if_neg hi.not_gt]

theorem Agree.eq (h : Agree words words') {i : ℕ} {v v' : ℤ} (hv : words[i]? = some v)
    (hv' : words'[i]? = some v') : v = v' := by
  have hi := (List.getElem?_eq_some_iff.mp hv).1
  have hi' := (List.getElem?_eq_some_iff.mp hv').1
  have hget := congrArg (fun l => l[i]?) h
  simp only [List.getElem?_take, if_pos hi, if_pos hi', hv, hv'] at hget
  exact Option.some.inj hget

/-- The words of a copy are where it put them. -/
theorem Holds.copied (h : Holds source words) :
    Holds (fun i => if i < words.length then source i else mem i) words := by
  rw [holds_iff] at h ⊢
  intro i v hv
  rw [if_pos (List.getElem?_eq_some_iff.mp hv).1]
  exact h i v hv

/-- Words that agree with those of a copy outlast it. -/
theorem Holds.outlasts (h : Holds mem words) (hsource : Holds source words')
    (hagree : Agree words words') :
    Holds (fun i => if i < words'.length then source i else mem i) words := by
  rw [holds_iff] at h hsource ⊢
  intro i v hv
  split_ifs with hi
  · have hv' := List.getElem?_eq_getElem hi
    exact (hsource i _ hv').trans (hagree.eq hv hv').symm
  · exact h i v hv

end Holds

def performAll (writes : List HostWrite) (mem : BufferMemory) : BufferMemory :=
  writes.foldl (fun mem w => w.perform mem) mem

theorem performAll_append (writes more : List HostWrite) (mem : BufferMemory) :
    performAll (writes ++ more) mem = performAll more (performAll writes mem) :=
  List.foldl_append

theorem perform_of_ne {w : HostWrite} {buffer : MetadataBuffer} (h : buffer ≠ w.buffer)
    (mem : BufferMemory) : w.perform mem buffer = mem buffer :=
  Function.update_of_ne h _ _

theorem performAll_writeFrom_of_ne {buffer other : MetadataBuffer} (h : other ≠ buffer) (i : ℕ)
    (vs : List ℤ) (mem : BufferMemory) :
    performAll (writeFrom buffer i vs) mem other = mem other := by
  induction vs generalizing i mem with
  | nil => rfl
  | cons v vs ih => exact (ih (i + 1) _).trans (perform_of_ne h mem)

theorem holds_writeFrom {buffer : MetadataBuffer} {mem : BufferMemory}
    {before old after : List ℤ} (vs : List ℤ) (h : Holds (mem buffer) (before ++ (old ++ after)))
    (hlen : old.length = vs.length) :
    Holds (performAll (writeFrom buffer before.length vs) mem buffer)
      (before ++ (vs ++ after)) := by
  induction vs generalizing before old mem with
  | nil =>
    obtain rfl := List.length_eq_zero_iff.mp hlen
    exact h
  | cons v vs ih =>
    obtain ⟨x, old, rfl⟩ := List.exists_cons_of_length_eq_add_one hlen
    have hset := h.set before.length v
    rw [List.set_append_right _ _ (Nat.le_refl _), Nat.sub_self, List.cons_append,
      List.set_cons_zero] at hset
    have hmem : Holds ((HostWrite.mk buffer before.length v).perform mem buffer)
        ((before ++ [v]) ++ (old ++ after)) := by
      rw [HostWrite.perform, Function.update_self, List.append_assoc]
      exact hset
    have hrest := ih hmem (Nat.succ.inj hlen)
    rw [List.length_append, List.append_assoc] at hrest
    exact hrest

namespace PagedKVCache
variable {cfg : KVCacheConfig}

def afterCall (c : PagedKVCache cfg) : KVCacheCall → PagedKVCache cfg
  | .registerSequenceWithPrefix sequenceId promptTokens =>
    (c.registerSequenceWithPrefix sequenceId promptTokens).2
  | .appendTokens sequenceId numTokens => (c.appendTokens sequenceId numTokens).2
  | .unregisterSequence sequenceId => c.unregisterSequence sequenceId
  | .forkSequence parent child => (c.forkSequence parent child).2

def rowWrites (c : PagedKVCache cfg) (maxBlocksInBatch : ℕ) :
    ℕ → List (List (Block cfg)) → List HostWrite
  | _, [] => []
  | i, blocks :: rest =>
    writeFrom .blockTables (i * maxBlocksInBatch) (blocks.map fun b => (b.val : ℤ)) ++
      ⟨.contextLens, i, c.contextLen blocks⟩ :: c.rowWrites maxBlocksInBatch (i + 1) rest

/-- The `memset` comes first. -/
def hostWrites (c : PagedKVCache cfg) (tables : List (List (Block cfg))) : List HostWrite :=
  let maxBlocksInBatch := (tables.map List.length).foldl max 0
  writeFrom .blockTables 0 (List.replicate (tables.length * maxBlocksInBatch) (-1)) ++
    c.rowWrites maxBlocksInBatch 0 tables

theorem blockRow_length {m : ℕ} {blocks : List (Block cfg)} (h : blocks.length ≤ m) :
    (blockRow m blocks).length = m := by
  rw [blockRow, List.length_append, List.length_map, List.length_replicate]
  omega

theorem blockRows_length {m : ℕ} {tables : List (List (Block cfg))}
    (h : ∀ blocks ∈ tables, blocks.length ≤ m) :
    (tables.flatMap (blockRow m)).length = tables.length * m := by
  induction tables with
  | nil => simp
  | cons blocks rest ih =>
    obtain ⟨hblocks, hrest⟩ := List.forall_mem_cons.mp h
    rw [List.flatMap_cons, List.length_append, blockRow_length hblocks, ih hrest,
      List.length_cons, Nat.succ_mul, Nat.add_comm]

theorem holds_rowWrites (c : PagedKVCache cfg) {m : ℕ} (done : List (List (Block cfg)))
    {rest : List (List (Block cfg))} {mem : BufferMemory}
    (hlen : ∀ blocks ∈ done ++ rest, blocks.length ≤ m)
    (htables : Holds (mem .blockTables)
      (done.flatMap (blockRow m) ++ List.replicate (rest.length * m) (-1)))
    (hlens : Holds (mem .contextLens) (done.map c.contextLen)) :
    Holds (performAll (c.rowWrites m done.length rest) mem .blockTables)
        ((done ++ rest).flatMap (blockRow m)) ∧
      Holds (performAll (c.rowWrites m done.length rest) mem .contextLens)
        ((done ++ rest).map c.contextLen) := by
  induction rest generalizing done mem with
  | nil =>
    rw [List.length_nil, Nat.zero_mul, List.replicate_zero] at htables
    rw [List.append_nil] at htables ⊢
    exact ⟨htables, hlens⟩
  | cons blocks rest ih =>
    have hblocks : blocks.length ≤ m := hlen blocks (by simp)
    have hdone : ∀ table ∈ done, table.length ≤ m := fun table ht =>
      hlen table (List.mem_append_left _ ht)
    have hsplit : (rest.length + 1) * m =
        blocks.length + (m - blocks.length + rest.length * m) := by
      rw [Nat.succ_mul]
      omega
    rw [List.length_cons, hsplit, List.replicate_add, List.replicate_add] at htables
    have hrow := holds_writeFrom (blocks.map fun b => (b.val : ℤ)) htables (by simp)
    rw [blockRows_length hdone] at hrow
    have hframe : performAll (writeFrom .blockTables (done.length * m)
        (blocks.map fun b => (b.val : ℤ))) mem .contextLens = mem .contextLens :=
      performAll_writeFrom_of_ne (by decide) _ _ _
    rw [rowWrites, performAll_append]
    generalize performAll (writeFrom .blockTables (done.length * m)
      (blocks.map fun b => (b.val : ℤ))) mem = afterRow at hrow hframe ⊢
    generalize hn : c.contextLen blocks = n
    let write : HostWrite := ⟨.contextLens, done.length, n⟩
    have hne : MetadataBuffer.blockTables ≠ write.buffer := MetadataBuffer.noConfusion
    have htables' : Holds (write.perform afterRow .blockTables)
        ((done ++ [blocks]).flatMap (blockRow m) ++ List.replicate (rest.length * m) (-1)) := by
      rw [perform_of_ne hne, List.flatMap_append, List.flatMap_singleton, blockRow]
      simpa using hrow
    have hlens' : Holds (write.perform afterRow .contextLens)
        ((done ++ [blocks]).map c.contextLen) := by
      have hconcat := hlens.concat n
      rw [List.length_map, ← hframe] at hconcat
      rw [HostWrite.perform, Function.update_self, List.map_append, List.map_singleton, hn]
      exact hconcat
    have hlen' : ∀ table ∈ (done ++ [blocks]) ++ rest, table.length ≤ m := by
      rw [List.append_assoc]
      exact hlen
    have hrest := ih (done ++ [blocks]) hlen' htables' hlens'
    rw [List.length_append, List.append_assoc] at hrest
    exact hrest

theorem le_foldl_max (l : List ℕ) (start : ℕ) :
    start ≤ l.foldl max start ∧ ∀ n ∈ l, n ≤ l.foldl max start := by
  induction l generalizing start with
  | nil => simp
  | cons a l ih =>
    obtain ⟨hstart, hmem⟩ := ih (max start a)
    refine ⟨(Nat.le_max_left _ _).trans hstart, List.forall_mem_cons.mpr ⟨?_, hmem⟩⟩
    exact (Nat.le_max_right _ _).trans hstart

/-- When the writes of a call are done, the pinned buffers begin with its batch. -/
theorem holds_hostWrites (c : PagedKVCache cfg) (tables : List (List (Block cfg)))
    (mem : BufferMemory) :
    Holds (performAll (c.hostWrites tables) mem .blockTables)
        (tables.flatMap (blockRow ((tables.map List.length).foldl max 0))) ∧
      Holds (performAll (c.hostWrites tables) mem .contextLens) (tables.map c.contextLen) := by
  have hle : ∀ blocks ∈ tables, blocks.length ≤ (tables.map List.length).foldl max 0 :=
    fun blocks hb => (le_foldl_max _ 0).2 _ (List.mem_map_of_mem hb)
  revert hle
  unfold hostWrites
  generalize (tables.map List.length).foldl max 0 = m
  intro hle
  rw [performAll_append]
  have hall : Holds (mem .blockTables)
      ([] ++ ((List.range (tables.length * m)).map (mem .blockTables) ++ [])) := by
    rw [List.nil_append, List.append_nil, Holds, List.length_map, List.length_range]
  have hmemset := holds_writeFrom (List.replicate (tables.length * m) (-1)) hall (by simp)
  rw [List.nil_append, List.append_nil] at hmemset
  have hnone : Holds (performAll (writeFrom .blockTables 0
      (List.replicate (tables.length * m) (-1))) mem .contextLens) [] := rfl
  exact c.holds_rowWrites [] hle hmemset hnone

theorem prepareBatchMetadata_words {c : PagedKVCache cfg} {ids : List ℕ}
    {batch : KVCacheBatchDescriptor} {tables : List (List (Block cfg))}
    (h : c.prepareBatchMetadata ids = .ok batch) (htables : c.batchTables ids = .ok tables) :
    batch.words .blockTables = tables.flatMap (blockRow ((tables.map List.length).foldl max 0)) ∧
      batch.words .contextLens = tables.map c.contextLen := by
  unfold prepareBatchMetadata at h
  rw [htables] at h
  simp only at h
  split_ifs at h
  obtain rfl := Except.ok.inj h
  exact ⟨rfl, rfl⟩

end PagedKVCache

/-- What is enqueued on a stream, with the batch of the call that it belongs to. -/
inductive StreamOp where
  | copy (buffer : MetadataBuffer) (batch : KVCacheBatchDescriptor)
  | kernel (batch : KVCacheBatchDescriptor)
  deriving DecidableEq

/-- A call that holds the mutex, with the writes it has still to do and the number of kernels that
its caller enqueues directly after it. -/
structure PreparingCall where
  batch : KVCacheBatchDescriptor
  stream : CudaStream
  kernels : ℕ
  writes : List HostWrite

def PreparingCall.ops (call : PreparingCall) : List StreamOp :=
  .copy .blockTables call.batch :: .copy .contextLens call.batch ::
    List.replicate call.kernels (.kernel call.batch)

theorem PreparingCall.batch_of_copy (call : PreparingCall) {buffer : MetadataBuffer}
    {batch : KVCacheBatchDescriptor} (h : .copy buffer batch ∈ call.ops) : batch = call.batch := by
  simp only [PreparingCall.ops, List.mem_cons, StreamOp.copy.injEq, List.mem_replicate,
    reduceCtorEq, and_false, or_false] at h
  exact h.elim And.right And.right

theorem PreparingCall.batch_of_kernel (call : PreparingCall) {batch : KVCacheBatchDescriptor}
    (h : .kernel batch ∈ call.ops) : batch = call.batch := by
  simp only [PreparingCall.ops, List.mem_cons, StreamOp.kernel.injEq, List.mem_replicate,
    reduceCtorEq, false_or] at h
  exact h.2

structure MetadataSystem (cfg : KVCacheConfig) where
  cache : PagedKVCache cfg
  pinned : BufferMemory
  device : BufferMemory
  pending : List (CudaStream × StreamOp)
  preparing : Option PreparingCall

inductive MetadataAction where
  | cacheCall (call : KVCacheCall)
  | prepareBatchMetadata (activeSequenceIds : List ℕ) (stream : CudaStream) (kernels : ℕ)
  /-- The call in progress writes its next word. -/
  | hostWrite
  /-- The call in progress enqueues its copies and returns, and its kernels are enqueued. -/
  | memcpyAsync
  /-- The device executes the next operation of a stream. -/
  | execute (stream : CudaStream)
  deriving DecidableEq

namespace MetadataSystem
variable {cfg : KVCacheConfig}

def init (cfg : KVCacheConfig) (pinned device : BufferMemory) : MetadataSystem cfg :=
  ⟨PagedKVCache.init cfg, pinned, device, [], none⟩

/-- A copy reads its source when it executes. -/
def runOp (s : MetadataSystem cfg) : StreamOp → BufferMemory
  | .copy buffer batch =>
    Function.update s.device buffer fun i =>
      if i < (batch.words buffer).length then s.pinned buffer i else s.device buffer i
  | .kernel _ => s.device

def prepare (s : MetadataSystem cfg) (activeSequenceIds : List ℕ) (stream : CudaStream)
    (kernels : ℕ) : MetadataSystem cfg :=
  match s.cache.prepareBatchMetadata activeSequenceIds, s.cache.batchTables activeSequenceIds with
  | .ok batch, .ok tables =>
    { s with preparing := some ⟨batch, stream, kernels, s.cache.hostWrites tables⟩ }
  | _, _ => s

def hostWrite (s : MetadataSystem cfg) (call : PreparingCall) : Option (MetadataSystem cfg) :=
  match call.writes with
  | [] => none
  | w :: writes =>
    some { s with pinned := w.perform s.pinned, preparing := some { call with writes := writes } }

/-- The copies are enqueued when all words are written. -/
def memcpyAsync (s : MetadataSystem cfg) (call : PreparingCall) : Option (MetadataSystem cfg) :=
  match call.writes with
  | [] => some { s with pending := enqueue call.stream call.ops s.pending, preparing := none }
  | _ :: _ => none

/-- A call waits for the mutex. -/
def step (s : MetadataSystem cfg) : MetadataAction → Option (MetadataSystem cfg)
  | .cacheCall call =>
    if s.preparing.isSome then none else some { s with cache := s.cache.afterCall call }
  | .prepareBatchMetadata ids stream kernels =>
    if s.preparing.isSome then none else some (s.prepare ids stream kernels)
  | .hostWrite => s.preparing.bind s.hostWrite
  | .memcpyAsync => s.preparing.bind s.memcpyAsync
  | .execute stream =>
    (dequeue stream s.pending).map fun (op, pending) =>
      { s with device := s.runOp op, pending := pending }

/-- A copy transfers the words of its call, and a kernel finds those of its call on the device. -/
def Describes (s : MetadataSystem cfg) : StreamOp → Prop
  | .copy buffer batch => Holds (s.pinned buffer) (batch.words buffer)
  | .kernel batch => ∀ buffer, Holds (s.device buffer) (batch.words buffer)

instance (s : MetadataSystem cfg) : ∀ op, Decidable (s.Describes op)
  | .copy _ _ => inferInstanceAs (Decidable (Holds _ _))
  | .kernel _ => inferInstanceAs (Decidable (∀ _, Holds _ _))

/-- What the device executes belongs to the batch of its call. -/
def DescribesOwnBatch (s : MetadataSystem cfg) : MetadataAction → Prop
  | .execute stream => ∀ p ∈ dequeue stream s.pending, s.Describes p.1
  | _ => True

/-- What a pending copy is to read at the place of a write is already the value written. -/
def KeepsSource (w : HostWrite) : StreamOp → Prop
  | .copy buffer batch => buffer = w.buffer → ∀ v ∈ (batch.words buffer)[w.index]?, v = w.value
  | .kernel _ => True

instance (w : HostWrite) : ∀ op, Decidable (KeepsSource w op)
  | .copy _ _ => inferInstanceAs (Decidable (_ → _))
  | .kernel _ => isTrue trivial

/-- What a pending kernel is to read is the same in another batch, where both have a word. -/
def KeepsTarget (batch : KVCacheBatchDescriptor) : StreamOp → Prop
  | .copy _ _ => True
  | .kernel batch' => ∀ buffer, Agree (batch'.words buffer) (batch.words buffer)

instance (batch : KVCacheBatchDescriptor) : ∀ op, Decidable (KeepsTarget batch op)
  | .copy _ _ => isTrue trivial
  | .kernel _ => inferInstanceAs (Decidable (∀ _, _))

/-- The host changes no word that a pending copy is still to read, and enqueues no copies that
change a word that a pending kernel of another stream is still to read. -/
def Undisturbed (s : MetadataSystem cfg) : MetadataAction → Prop
  | .hostWrite => ∀ call ∈ s.preparing, ∀ w ∈ call.writes.head?, ∀ e ∈ s.pending, KeepsSource w e.2
  | .memcpyAsync => ∀ call ∈ s.preparing, ∀ e ∈ s.pending, e.1 ≠ call.stream →
      KeepsTarget call.batch e.2
  | _ => True

instance (s : MetadataSystem cfg) : ∀ a, Decidable (s.Undisturbed a)
  | .cacheCall _ => isTrue trivial
  | .prepareBatchMetadata _ _ _ => isTrue trivial
  | .hostWrite => inferInstanceAs (Decidable (∀ call ∈ s.preparing, _))
  | .memcpyAsync => inferInstanceAs (Decidable (∀ call ∈ s.preparing, _))
  | .execute _ => isTrue trivial

/-- Every kernel of a stream finds its batch, when `content` is what the device holds before the
operations. -/
def Fed (content : MetadataBuffer → List ℤ → Prop) : List StreamOp → Prop
  | [] => True
  | .copy buffer batch :: ops => Fed (Function.update content buffer (· = batch.words buffer)) ops
  | .kernel batch :: ops => (∀ buffer, content buffer (batch.words buffer)) ∧ Fed content ops

section Fed
variable {content content' : MetadataBuffer → List ℤ → Prop} {ops : List StreamOp}

theorem Fed.mono (h : Fed content ops) (hmono : ∀ batch, .kernel batch ∈ ops → ∀ buffer,
    content buffer (batch.words buffer) → content' buffer (batch.words buffer)) :
    Fed content' ops := by
  induction ops generalizing content content' with
  | nil => trivial
  | cons op ops ih =>
    cases op with
    | kernel batch =>
      refine ⟨fun buffer => hmono batch List.mem_cons_self buffer (h.1 buffer), ih h.2 ?_⟩
      intro batch' hmem
      exact hmono batch' (List.mem_cons_of_mem _ hmem)
    | copy buffer batch =>
      refine ih h fun batch' hmem other hc => ?_
      rcases eq_or_ne other buffer with rfl | hne
      · rw [Function.update_self] at hc ⊢
        exact hc
      · rw [Function.update_of_ne hne] at hc ⊢
        exact hmono batch' (List.mem_cons_of_mem _ hmem) other hc

theorem Fed.append {new : List StreamOp} (h : Fed content ops) (hnew : ∀ content, Fed content new) :
    Fed content (ops ++ new) := by
  induction ops generalizing content with
  | nil => exact hnew content
  | cons op ops ih =>
    cases op with
    | kernel batch => exact ⟨h.1, ih h.2⟩
    | copy buffer batch =>
      have hrest : Fed (Function.update content buffer (· = batch.words buffer)) ops := h
      exact ih hrest

/-- The copies of a call feed its kernels, whatever the device held. -/
theorem fed_ops (call : PreparingCall) (content : MetadataBuffer → List ℤ → Prop) :
    Fed content call.ops := by
  have hkernels : ∀ (held : MetadataBuffer → List ℤ → Prop) (n : ℕ),
      (∀ buffer, held buffer (call.batch.words buffer)) →
        Fed held (List.replicate n (.kernel call.batch)) := by
    intro held n hheld
    induction n with
    | zero => trivial
    | succ n ih => exact ⟨hheld, ih⟩
  refine hkernels _ _ (MetadataBuffer.forall_iff.mpr ⟨?_, ?_⟩)
  · rw [Function.update_of_ne MetadataBuffer.noConfusion, Function.update_self]
  · rw [Function.update_self]

end Fed

/-- What keeps every batch in place until the kernels of its call have run. -/
structure Staged (s : MetadataSystem cfg) : Prop where
  source : ∀ stream buffer batch, (stream, .copy buffer batch) ∈ s.pending →
    Holds (s.pinned buffer) (batch.words buffer)
  fed : ∀ stream, Fed (fun buffer => Holds (s.device buffer)) (queue stream s.pending)
  apart : ∀ stream stream' buffer batch batch', (stream, .kernel batch) ∈ s.pending →
    (stream', .copy buffer batch') ∈ s.pending → stream ≠ stream' →
      Agree (batch.words buffer) (batch'.words buffer)
  prepared : ∀ call ∈ s.preparing, ∀ buffer,
    Holds (performAll call.writes s.pinned buffer) (call.batch.words buffer)

theorem init_staged (pinned device : BufferMemory) : (init cfg pinned device).Staged where
  source _ _ _ h := nomatch h
  fed _ := trivial
  apart _ _ _ _ _ h := nomatch h
  prepared _ h := nomatch h

instance (s : MetadataSystem cfg) : ∀ a, Decidable (s.DescribesOwnBatch a)
  | .execute stream => inferInstanceAs (Decidable (∀ p ∈ dequeue stream s.pending, _))
  | .cacheCall _ => isTrue trivial
  | .prepareBatchMetadata _ _ _ => isTrue trivial
  | .hostWrite => isTrue trivial
  | .memcpyAsync => isTrue trivial

section Step
variable {s : MetadataSystem cfg}

theorem Staged.prepare (h : s.Staged) (ids : List ℕ) (stream : CudaStream) (kernels : ℕ) :
    (s.prepare ids stream kernels).Staged := by
  unfold MetadataSystem.prepare
  cases hbatch : s.cache.prepareBatchMetadata ids with
  | error exception => exact h
  | ok batch =>
    cases htables : s.cache.batchTables ids with
    | error exception => exact h
    | ok tables =>
      obtain ⟨hblocks, hlens⟩ := PagedKVCache.prepareBatchMetadata_words hbatch htables
      obtain ⟨hheld, hheld'⟩ := s.cache.holds_hostWrites tables s.pinned
      have hprepared : ∀ buffer, Holds (performAll (s.cache.hostWrites tables) s.pinned buffer)
          (batch.words buffer) :=
        MetadataBuffer.forall_iff.mpr ⟨hblocks ▸ hheld, hlens ▸ hheld'⟩
      exact ⟨h.source, h.fed, h.apart, fun call hcall => Option.some.inj hcall ▸ hprepared⟩

theorem Staged.hostWrite (h : s.Staged) (hu : s.Undisturbed .hostWrite) {call : PreparingCall}
    (hcall : s.preparing = some call) {s' : MetadataSystem cfg}
    (hs : s.hostWrite call = some s') : s'.Staged := by
  have hprepared := h.prepared call hcall
  unfold MetadataSystem.hostWrite at hs
  cases hw : call.writes with
  | nil =>
    rw [hw] at hs
    cases hs
  | cons w writes =>
    rw [hw] at hs hprepared
    obtain rfl := Option.some.inj hs
    refine ⟨?_, h.fed, h.apart, fun call' hcall' => Option.some.inj hcall' ▸ hprepared⟩
    intro stream buffer batch hmem
    have hkeeps := hu call hcall w (by rw [hw]; rfl) _ hmem
    have hsource := h.source _ _ _ hmem
    show Holds (w.perform s.pinned buffer) _
    rcases eq_or_ne buffer w.buffer with rfl | hne
    · rw [HostWrite.perform, Function.update_self]
      rw [holds_iff] at hsource ⊢
      intro i v hv
      rcases eq_or_ne i w.index with rfl | hi
      · rw [Function.update_self]
        exact (hkeeps rfl v hv).symm
      · rw [Function.update_of_ne hi]
        exact hsource i v hv
    · rw [perform_of_ne hne]
      exact hsource

theorem Staged.memcpyAsync (h : s.Staged) (hu : s.Undisturbed .memcpyAsync) {call : PreparingCall}
    (hcall : s.preparing = some call) {s' : MetadataSystem cfg}
    (hs : s.memcpyAsync call = some s') : s'.Staged := by
  have hheld := h.prepared call hcall
  unfold MetadataSystem.memcpyAsync at hs
  cases hw : call.writes with
  | cons w writes =>
    rw [hw] at hs
    cases hs
  | nil =>
    rw [hw] at hs hheld
    obtain rfl := Option.some.inj hs
    refine ⟨?_, fun stream => ?_, ?_, fun _ hcall' => nomatch hcall'⟩
    · intro stream buffer batch hmem
      rcases mem_enqueue.mp hmem with hold | ⟨rfl, hnew⟩
      · exact h.source _ _ _ hold
      · exact call.batch_of_copy hnew ▸ hheld buffer
    · show Fed _ (queue stream (enqueue call.stream call.ops s.pending))
      rcases eq_or_ne stream call.stream with rfl | hne
      · rw [queue_enqueue_self]
        exact (h.fed call.stream).append (fed_ops call)
      · rw [queue_enqueue_of_ne hne]
        exact h.fed stream
    · intro stream stream' buffer batch batch' hmem hmem' hne
      rcases mem_enqueue.mp hmem with hold | ⟨rfl, hnew⟩ <;>
        rcases mem_enqueue.mp hmem' with hold' | ⟨rfl, hnew'⟩
      · exact h.apart _ _ _ _ _ hold hold' hne
      · rw [call.batch_of_copy hnew']
        exact hu call hcall _ hold hne buffer
      · rw [call.batch_of_kernel hnew]
        exact Agree.of_holds (hheld buffer) (h.source _ _ _ hold')
      · exact absurd rfl hne

/-- A kernel that waits while another stream copies, or behind the copy that feeds it, still finds
its batch. -/
theorem Staged.copied (h : s.Staged) {stream : CudaStream} {buffer : MetadataBuffer}
    {batch : KVCacheBatchDescriptor} {rest : List (CudaStream × StreamOp)}
    (hd : dequeue stream s.pending = some (.copy buffer batch, rest)) (stream' : CudaStream) :
    Fed (fun other => Holds (s.runOp (.copy buffer batch) other)) (queue stream' rest) := by
  have hsource := h.source _ _ _ (dequeue_mem hd)
  have hfed := h.fed stream'
  rcases eq_or_ne stream' stream with rfl | hne
  · rw [dequeue_self hd] at hfed
    have hrest : Fed (Function.update (fun other => Holds (s.device other)) buffer
        (· = batch.words buffer)) (queue stream' rest) := hfed
    refine hrest.mono fun batch' _ other hc => ?_
    rcases eq_or_ne other buffer with rfl | hother
    · rw [Function.update_self] at hc
      rw [runOp, Function.update_self, hc]
      exact hsource.copied
    · rw [Function.update_of_ne hother] at hc
      rw [runOp, Function.update_of_ne hother]
      exact hc
  · rw [dequeue_of_ne hd hne]
    refine hfed.mono fun batch' hmem other hc => ?_
    rcases eq_or_ne other buffer with rfl | hother
    · rw [runOp, Function.update_self]
      exact hc.outlasts hsource
        (h.apart _ _ _ _ _ (mem_queue.mp hmem) (dequeue_mem hd) hne)
    · rw [runOp, Function.update_of_ne hother]
      exact hc

theorem Staged.execute (h : s.Staged) {stream : CudaStream} {op : StreamOp}
    {rest : List (CudaStream × StreamOp)} (hd : dequeue stream s.pending = some (op, rest)) :
    Staged { s with device := s.runOp op, pending := rest } where
  source _ _ _ hmem := h.source _ _ _ (dequeue_subset hd hmem)
  fed stream' := by
    cases op with
    | copy buffer batch => exact h.copied hd stream'
    | kernel batch =>
      have hfed := h.fed stream'
      rcases eq_or_ne stream' stream with rfl | hne
      · rw [dequeue_self hd] at hfed
        exact hfed.2
      · show Fed _ (queue stream' rest)
        rw [dequeue_of_ne hd hne]
        exact hfed
  apart _ _ _ _ _ hmem hmem' :=
    h.apart _ _ _ _ _ (dequeue_subset hd hmem) (dequeue_subset hd hmem')
  prepared := h.prepared

theorem step_staged {s' : MetadataSystem cfg} {a : MetadataAction} (h : s.Staged)
    (hu : s.Undisturbed a) (hs : step s a = some s') : s'.Staged := by
  cases a with
  | cacheCall call =>
    unfold step at hs
    split_ifs at hs
    obtain rfl := Option.some.inj hs
    exact ⟨h.source, h.fed, h.apart, h.prepared⟩
  | prepareBatchMetadata ids stream kernels =>
    unfold step at hs
    split_ifs at hs
    obtain rfl := Option.some.inj hs
    exact h.prepare ids stream kernels
  | hostWrite =>
    obtain ⟨call, hcall, hs⟩ := Option.bind_eq_some_iff.mp hs
    exact h.hostWrite hu hcall hs
  | memcpyAsync =>
    obtain ⟨call, hcall, hs⟩ := Option.bind_eq_some_iff.mp hs
    exact h.memcpyAsync hu hcall hs
  | execute stream =>
    obtain ⟨⟨op, rest⟩, hd, rfl⟩ := Option.map_eq_some_iff.mp hs
    exact h.execute hd

theorem Staged.describesOwnBatch (h : s.Staged) (a : MetadataAction) : s.DescribesOwnBatch a := by
  cases a with
  | execute stream =>
    rintro ⟨op, rest⟩ hd
    cases op with
    | copy buffer batch => exact h.source _ _ _ (dequeue_mem hd)
    | kernel batch =>
      have hfed := h.fed stream
      rw [dequeue_self hd] at hfed
      exact hfed.1
  | _ => trivial

end Step

/-- In every run in which the host changes no word that a pending copy is still to read, and
enqueues no copies that change a word that a pending kernel of another stream is still to read,
every copy transfers the batch of its call and every kernel finds the batch of its call. -/
theorem describesOwnBatch_of_undisturbed {pinned device : BufferMemory}
    {actions : List MetadataAction} {s : MetadataSystem cfg}
    (hu : Transition.AllSteps step Undisturbed (init cfg pinned device) actions)
    (he : Transition.exec step (init cfg pinned device) actions = some s) (a : MetadataAction) :
    s.DescribesOwnBatch a := by
  have h : s.Staged :=
    Transition.exec_invariant (fun _ _ _ h hu hs => step_staged h hu hs)
      (init_staged pinned device) hu he
  exact h.describesOwnBatch a

def twoRegistered : List MetadataAction :=
  [.cacheCall (.registerSequenceWithPrefix 1 [7]), .cacheCall (.registerSequenceWithPrefix 2 [8])]

/-- The second batch is prepared when the copies of the first have executed. -/
theorem describesOwnBatch_twice : ∃ s : MetadataSystem fourBlocks,
    Transition.exec step (init fourBlocks (fun _ _ => 0) fun _ _ => 0)
      (twoRegistered ++ [.prepareBatchMetadata [1] 1 1, .hostWrite, .hostWrite, .hostWrite,
        .memcpyAsync, .execute 1, .execute 1, .prepareBatchMetadata [2] 1 1, .hostWrite,
        .hostWrite, .hostWrite, .memcpyAsync]) = some s ∧ s.DescribesOwnBatch (.execute 1) :=
  Transition.exec_exists (P := fun _ => True) (by decide +kernel) fun _ hs _ =>
    describesOwnBatch_of_undisturbed (by decide +kernel) hs (.execute 1)

/-- Two calls on one stream, with nothing executed in between. The first copy transfers the table of
the second call. -/
theorem second_batch_in_first_copy : ∃ s : MetadataSystem fourBlocks,
    Transition.exec step (init fourBlocks (fun _ _ => 0) fun _ _ => 0)
      (twoRegistered ++ [.prepareBatchMetadata [1] 1 1, .hostWrite, .hostWrite, .hostWrite,
        .memcpyAsync, .prepareBatchMetadata [2] 1 1, .hostWrite, .hostWrite, .hostWrite,
        .memcpyAsync]) = some s ∧ ¬ s.DescribesOwnBatch (.execute 1) :=
  Transition.exec_exists (P := fun s : MetadataSystem fourBlocks =>
    ¬ s.DescribesOwnBatch (.execute 1)) (by decide +kernel) fun _ _ h => h

end MetadataSystem
end CudaForge.Memory
