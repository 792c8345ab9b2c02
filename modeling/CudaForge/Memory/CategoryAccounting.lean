import CudaForge.Memory.AllocatorAccounting
import CudaForge.Memory.PoolSteps

/-!
The pool over its block allocator: the categories counted by the allocator against those that the
owners of the buffers asked for.

The pool calls the allocator inside its own critical sections, so as the only user it runs each
allocator call to the end. The result in an action of the pool is here the answer of the driver.
-/
namespace CudaForge.Memory
open MachineWord FiniteMap BufferPool PoolSystem

structure CategorySystem where
  base : PoolSystem
  allocator : BlockAllocator
  /-- The stream argument of the `acquire` that a thread is in. -/
  callStream : ThreadId → CudaStream
  /-- The category that the latest acquire of a buffer asked for. -/
  asked : DevicePtr → MemoryCategory

namespace CategorySystem

def init (maxCachedBytes vramSafetyThresholdBytes : ℕ) : CategorySystem where
  base := PoolSystem.init maxCachedBytes
  allocator := BlockAllocator.init vramSafetyThresholdBytes
  callStream := fun _ => 0
  asked := fun _ => .workspace

/-- What `BlockAllocator::allocate` returns for a bucket when the driver would return `driver`. -/
def answer (a : BlockAllocator) (bucketSize : ℕ) (driver : Option DevicePtr) : Option DevicePtr :=
  match a.allocateCheck bucketSize with
  | .proceeds _ => driver
  | _ => none

def resolve (s : CategorySystem) : PoolAction → PoolAction
  | .acquire t bytes category stream driver =>
    .acquire t bytes category stream
      ((calculateBucketSize bytes).bind fun bucketSize => answer s.allocator bucketSize driver)
  | .acquireRetry t driver =>
    .acquireRetry t
      ((s.base.calls.lookup t).bind fun call => answer s.allocator call.bucketSize driver)
  | a => a

def streamOf (s : CategorySystem) : PoolAction → CudaStream
  | .acquire _ _ _ stream _ => stream
  | .acquireRetry t _ => s.callStream t
  | _ => 0

/-- The second critical section of `BlockAllocator::allocate` for a bucket. -/
def recordAllocation (a : BlockAllocator) (ptr : DevicePtr) (bucketSize : ℕ)
    (category : MemoryCategory) (stream : CudaStream) : BlockAllocator :=
  match a.allocateCheck bucketSize with
  | .proceeds alignedBytes => a.allocateRecord ⟨ptr, alignedBytes, category, stream⟩
  | _ => a

def freeAll (a : BlockAllocator) (ptrs : List DevicePtr) : BlockAllocator :=
  ptrs.foldl (fun a ptr => (a.freeErase ptr).getD a) a

def allocatorAfter (s : CategorySystem) (a : PoolAction) : BlockAllocator :=
  match eventOf s.base a with
  | .allocated ptr bucketSize category =>
    recordAllocation s.allocator ptr bucketSize category (s.streamOf a)
  | .purged => freeAll s.allocator s.base.pool.purgeFreeBuffers.freed
  | _ => s.allocator

def askedAfter (s : CategorySystem) (a : PoolAction) : DevicePtr → MemoryCategory :=
  match eventOf s.base a, a with
  | .reused ptr _, .acquire _ _ category _ _ => Function.update s.asked ptr category
  | .allocated ptr _ category, _ => Function.update s.asked ptr category
  | _, _ => s.asked

def callStreamAfter (s : CategorySystem) : PoolAction → ThreadId → CudaStream
  | .acquire t _ _ stream _ => Function.update s.callStream t stream
  | _ => s.callStream

def step (s : CategorySystem) (a : PoolAction) : Option CategorySystem :=
  let a := s.resolve a
  (PoolSystem.step s.base a).map fun base =>
    ⟨base, s.allocatorAfter a, s.callStreamAfter a, s.askedAfter a⟩

/-- The bytes of the buffers in use whose latest acquire asked for `c`. -/
def askedBytes (s : CategorySystem) (c : MemoryCategory) : ℕ :=
  total (fun ptr node => if node.inUse = true ∧ s.asked ptr = c then node.capacityBytes else 0)
    s.base.pool.poolNodes

/-- `get_category_bytes` covers what is in use under each category. -/
def CategoriesCovered (s : CategorySystem) : Prop :=
  ∀ c, s.askedBytes c ≤ s.allocator.categoryAllocatedBytes c

instance (s : CategorySystem) : Decidable s.CategoriesCovered :=
  inferInstanceAs (Decidable (∀ c, s.askedBytes c ≤ s.allocator.categoryAllocatedBytes c))

/-- An acquire that finds a cached buffer asks for the category that the buffer was allocated
for. -/
def SameCategory (s : CategorySystem) (a : PoolAction) : Prop :=
  match a with
  | .acquire _ bytes category _ _ =>
    bytes ≠ 0 → ∀ bucketSize ∈ calculateBucketSize bytes,
      ∀ ptr ∈ (s.base.pool.bucket bucketSize).head?,
        ∀ node ∈ s.base.pool.poolNodes.lookup ptr, node.category = category
  | _ => True

/-- The allocator has a handle for each node of the pool and no others, and a buffer in use was
asked for under its own category. -/
structure Consistent (s : CategorySystem) : Prop where
  sound : s.base.Sound
  counted : s.allocator.Counted
  handles : ∀ ptr, (s.allocator.activeAllocations.lookup ptr).map
      (fun handle => (handle.sizeBytes, handle.category)) =
    (s.base.pool.poolNodes.lookup ptr).map fun node => (node.capacityBytes, node.category)
  asked : ∀ ptr node, s.base.pool.poolNodes.lookup ptr = some node → node.inUse = true →
    s.asked ptr = node.category

theorem init_consistent (maxCachedBytes vramSafetyThresholdBytes : ℕ) :
    (init maxCachedBytes vramSafetyThresholdBytes).Consistent where
  sound := init_sound maxCachedBytes
  counted := ⟨rfl, fun _ => rfl⟩
  handles _ := rfl
  asked _ _ hn := by simp [init, PoolSystem.init, BufferPool.init] at hn

theorem alignBytes_bucketSize {bucketSize : ℕ} (h : IsBucketSize bucketSize) :
    BlockAllocator.alignBytes bucketSize 256 = bucketSize := by
  have hall : ∀ k < 56, BlockAllocator.alignBytes (2 ^ (8 + k)) 256 = 2 ^ (8 + k) := by
    decide +kernel
  obtain ⟨k, hk, rfl⟩ := h
  exact hall k hk

theorem allocateCheck_proceeds {a : BlockAllocator} {bytes alignedBytes : ℕ}
    (h : a.allocateCheck bytes = .proceeds alignedBytes) :
    alignedBytes = BlockAllocator.alignBytes bytes 256 := by
  unfold BlockAllocator.allocateCheck at h
  dsimp only at h
  split_ifs at h
  exact (BlockAllocator.AllocateCheck.proceeds.inj h).symm

section Allocator
variable {s : CategorySystem}

theorem Consistent.lookup_none (h : s.Consistent) {ptr : DevicePtr} :
    s.allocator.activeAllocations.lookup ptr = none ↔
      s.base.pool.poolNodes.lookup ptr = none := by
  rw [← Option.map_eq_none_iff, h.handles, Option.map_eq_none_iff]

theorem Consistent.handle_of_node (h : s.Consistent) {ptr : DevicePtr} {node : PooledBufferNode}
    (hn : s.base.pool.poolNodes.lookup ptr = some node) :
    ∃ handle, s.allocator.activeAllocations.lookup ptr = some handle ∧
      handle.sizeBytes = node.capacityBytes ∧ handle.category = node.category := by
  have hh := h.handles ptr
  rw [hn] at hh
  obtain ⟨handle, hl, heq⟩ := Option.map_eq_some_iff.mp hh
  exact ⟨handle, hl, (Prod.mk.inj heq).1, (Prod.mk.inj heq).2⟩

theorem Consistent.node_of_handle (h : s.Consistent) {ptr : DevicePtr} {handle : BlockHandle}
    (hl : s.allocator.activeAllocations.lookup ptr = some handle) :
    ∃ node, s.base.pool.poolNodes.lookup ptr = some node ∧
      handle.sizeBytes = node.capacityBytes ∧ handle.category = node.category := by
  have hh := h.handles ptr
  rw [hl] at hh
  obtain ⟨node, hn, heq⟩ := Option.map_eq_some_iff.mp hh.symm
  exact ⟨node, hn, (Prod.mk.inj heq).1.symm, (Prod.mk.inj heq).2.symm⟩

theorem Consistent.handleBytes_le (h : s.Consistent) :
    total handleBytes s.allocator.activeAllocations ≤ total nodeBytes s.base.pool.poolNodes := by
  apply total_le_total
  intro ptr handle hl
  obtain ⟨node, hn, hsize, -⟩ := h.node_of_handle hl
  exact ⟨node, hn, hsize.le⟩

/-- While every buffer in use is asked for under its own category the allocator covers them. -/
theorem Consistent.categoriesCovered (h : s.Consistent) : s.CategoriesCovered := by
  intro c
  rw [h.counted.category_eq]
  apply total_le_total
  intro ptr node hn
  obtain ⟨handle, hl, hsize, hcat⟩ := h.handle_of_node hn
  refine ⟨handle, hl, ?_⟩
  unfold handleBytesIn
  rw [hcat, hsize]
  split_ifs with huse hc
  · exact le_rfl
  · exact absurd ((h.asked ptr node hn huse.1).symm.trans huse.2) hc
  · exact Nat.zero_le _
  · exact le_rfl

theorem freeErase_getD_lookup (a : BlockAllocator) {ptr : DevicePtr} (hp : ptr ≠ 0)
    (q : DevicePtr) : ((a.freeErase ptr).getD a).activeAllocations.lookup q =
      if q = ptr then none else a.activeAllocations.lookup q := by
  unfold BlockAllocator.freeErase
  rw [if_neg hp]
  cases hl : a.activeAllocations.lookup ptr with
  | none =>
    simp only [Option.map_none, Option.getD_none]
    split_ifs with hq
    · rw [hq, hl]
    · rfl
  | some handle => simp only [Option.map_some, Option.getD_some, lookup_erase_ite]

theorem freeAll_lookup {ptrs : List DevicePtr} (hp : 0 ∉ ptrs) (a : BlockAllocator)
    (q : DevicePtr) : (freeAll a ptrs).activeAllocations.lookup q =
      if q ∈ ptrs then none else a.activeAllocations.lookup q := by
  induction ptrs generalizing a with
  | nil => simp [freeAll]
  | cons ptr rest ih =>
    have hne : ptr ≠ 0 := fun hz => hp (hz ▸ List.mem_cons_self)
    have htail := ih (fun hz => hp (List.mem_cons_of_mem _ hz)) ((a.freeErase ptr).getD a)
    rw [freeErase_getD_lookup a hne] at htail
    show (freeAll ((a.freeErase ptr).getD a) rest).activeAllocations.lookup q = _
    rw [htail]
    by_cases hq : q = ptr <;> by_cases hr : q ∈ rest <;> simp [hq, hr]

theorem counted_freeErase_getD {a : BlockAllocator} (h : a.Counted)
    (hb : total handleBytes a.activeAllocations < 2 ^ 64) (ptr : DevicePtr) :
    ((a.freeErase ptr).getD a).Counted ∧
      total handleBytes ((a.freeErase ptr).getD a).activeAllocations < 2 ^ 64 := by
  cases he : a.freeErase ptr with
  | none => exact ⟨h, hb⟩
  | some a' =>
    refine ⟨h.freeErase hb he, ?_⟩
    unfold BlockAllocator.freeErase at he
    split_ifs at he
    obtain ⟨handle, hl, rfl⟩ := Option.map_eq_some_iff.mp he
    have herase := total_erase (f := handleBytes) hl
    show total handleBytes (a.activeAllocations.erase ptr) < 2 ^ 64
    omega

theorem counted_freeAll {a : BlockAllocator} (h : a.Counted)
    (hb : total handleBytes a.activeAllocations < 2 ^ 64) (ptrs : List DevicePtr) :
    (freeAll a ptrs).Counted := by
  induction ptrs generalizing a with
  | nil => exact h
  | cons ptr rest ih =>
    obtain ⟨hnext, hbound⟩ := counted_freeErase_getD h hb ptr
    exact ih hnext hbound

/-- An allocation passed the allocator's check. -/
theorem proceeds_of_allocated {a : PoolAction} {ptr : DevicePtr} {bucketSize : ℕ}
    {category : MemoryCategory}
    (he : eventOf s.base (s.resolve a) = .allocated ptr bucketSize category) :
    ∃ alignedBytes, s.allocator.allocateCheck bucketSize = .proceeds alignedBytes := by
  have hanswer : ∀ driver, answer s.allocator bucketSize driver = some ptr →
      ∃ alignedBytes, s.allocator.allocateCheck bucketSize = .proceeds alignedBytes := by
    intro driver h
    unfold answer at h
    split at h
    · rename_i alignedBytes hcheck
      exact ⟨alignedBytes, hcheck⟩
    · cases h
  cases a with
  | acquire t bytes c stream driver =>
    simp only [resolve, eventOf] at he
    split_ifs at he
    cases hsize : calculateBucketSize bytes with
    | none =>
      rw [hsize] at he
      cases he
    | some size =>
      simp only [hsize, Option.bind_some] at he
      split at he
      · cases he
      · rename_i q hq
        obtain ⟨rfl, rfl, rfl⟩ := PoolEvent.allocated.inj he
        exact hanswer driver hq
      · cases he
  | acquireRetry t driver =>
    simp only [resolve, eventOf] at he
    split at he
    · rename_i size bytes c q hcall hq
      obtain ⟨rfl, rfl, rfl⟩ := PoolEvent.allocated.inj he
      rw [hcall] at hq
      exact hanswer driver hq
    · cases he
  | release t q stream =>
    rcases eventOf_release s.base t q stream with hi | ⟨size, hi⟩ <;>
      exact absurd (hi.symm.trans he) (by simp)
  | _ => cases he

/-- Only an acquire hands out a cached buffer. -/
theorem acquire_of_reused {a : PoolAction} {ptr : DevicePtr} {bucketSize : ℕ}
    (he : eventOf s.base (s.resolve a) = .reused ptr bucketSize) :
    ∃ t bytes category stream driver, a = .acquire t bytes category stream driver ∧ bytes ≠ 0 ∧
      calculateBucketSize bytes = some bucketSize := by
  cases a with
  | acquire t bytes category stream driver =>
    refine ⟨t, bytes, category, stream, driver, rfl, ?_⟩
    simp only [resolve, eventOf] at he
    split_ifs at he with hbytes
    cases hsize : calculateBucketSize bytes with
    | none =>
      rw [hsize] at he
      cases he
    | some size =>
      simp only [hsize, Option.bind_some] at he
      split at he
      · obtain ⟨-, rfl⟩ := PoolEvent.reused.inj he
        exact ⟨hbytes, rfl⟩
      · cases he
      · cases he
  | acquireRetry t driver =>
    obtain hi | ⟨q, size, category, hi⟩ := eventOf_acquireRetry s.base t
      ((s.base.calls.lookup t).bind fun call => answer s.allocator call.bucketSize driver) <;>
      exact absurd (hi.symm.trans he) (by simp)
  | release t q stream =>
    obtain hi | ⟨size, hi⟩ := eventOf_release s.base t q stream <;>
      exact absurd (hi.symm.trans he) (by simp)
  | _ => cases he

theorem Consistent.recordAllocation (h : s.Consistent) {base : PoolSystem} {ptr : DevicePtr}
    {bucketSize alignedBytes : ℕ} {category : MemoryCategory} {node : PooledBufferNode}
    (stream : CudaStream) (hsound : base.Sound)
    (he : Allocation s.base base ptr bucketSize category node)
    (hcheck : s.allocator.allocateCheck bucketSize = .proceeds alignedBytes) :
    (recordAllocation s.allocator ptr bucketSize category stream).Counted ∧
    ∀ q, ((CategorySystem.recordAllocation s.allocator ptr bucketSize category
        stream).activeAllocations.lookup q).map
        (fun handle => (handle.sizeBytes, handle.category)) =
      (base.pool.poolNodes.lookup q).map fun node => (node.capacityBytes, node.category) := by
  have haligned : alignedBytes = bucketSize :=
    (allocateCheck_proceeds hcheck).trans (alignBytes_bucketSize he.isBucketSize)
  have hrecord : CategorySystem.recordAllocation s.allocator ptr bucketSize category stream =
      s.allocator.allocateRecord ⟨ptr, bucketSize, category, stream⟩ := by
    unfold CategorySystem.recordAllocation
    rw [hcheck, haligned]
  rw [hrecord]
  constructor
  · have hbytes := hsound.counted.nodeBytes_lt
    have hnew : ptr ∉ s.base.pool.poolNodes := AList.lookup_eq_none.mp he.fresh
    rw [he.nodes, total_insert_of_notMem hnew] at hbytes
    have hle := h.handleBytes_le
    have hcap := he.capacity
    apply h.counted.allocateRecord (AList.lookup_eq_none.mp (h.lookup_none.mpr he.fresh))
    show bucketSize + total handleBytes s.allocator.activeAllocations < 2 ^ 64
    simp only [nodeBytes] at hbytes
    omega
  · intro q
    rw [he.nodes]
    simp only [BlockAllocator.allocateRecord, lookup_insert_ite]
    split_ifs
    · simp [he.capacity, he.category]
    · exact h.handles q

theorem Consistent.freeAll (h : s.Consistent) {base : PoolSystem}
    (he : Purging s.base base) :
    (freeAll s.allocator s.base.pool.purgeFreeBuffers.freed).Counted ∧
    ∀ q, ((CategorySystem.freeAll s.allocator
        s.base.pool.purgeFreeBuffers.freed).activeAllocations.lookup q).map
        (fun handle => (handle.sizeBytes, handle.category)) =
      (base.pool.poolNodes.lookup q).map fun node => (node.capacityBytes, node.category) := by
  have hmem : ∀ q, q ∈ s.base.pool.purgeFreeBuffers.freed ↔
      ∃ node, s.base.pool.poolNodes.lookup q = some node ∧ node.inUse = false := by
    intro q
    rw [h.sound.mem_freed]
    constructor
    · rintro ⟨size, hq⟩
      obtain ⟨node, hn, huse, -⟩ := (h.sound.bucketed.mem_iff _ _).mp hq
      exact ⟨node, hn, huse⟩
    · rintro ⟨node, hn, huse⟩
      exact ⟨_, (h.sound.bucketed.mem_iff _ _).mpr ⟨node, hn, huse, rfl⟩⟩
  have hnull : 0 ∉ s.base.pool.purgeFreeBuffers.freed := by
    intro hz
    obtain ⟨node, hn, -⟩ := (hmem 0).mp hz
    rw [h.sound.nonNull] at hn
    cases hn
  have hbound := h.handleBytes_le.trans_lt h.sound.counted.nodeBytes_lt
  refine ⟨counted_freeAll h.counted hbound _, fun q => ?_⟩
  rw [freeAll_lookup hnull, he.lookup]
  cases hn : s.base.pool.poolNodes.lookup q with
  | none =>
    have hl := h.lookup_none.mpr hn
    simp [hl]
  | some node =>
    have hh := h.handles q
    rw [hn] at hh
    cases huse : node.inUse with
    | false =>
      rw [if_pos ((hmem q).mpr ⟨node, hn, huse⟩)]
      simp [Option.filter, huse]
    | true =>
      rw [if_neg]
      · simpa [Option.filter, huse] using hh
      · intro hq
        obtain ⟨node', hn', huse'⟩ := (hmem q).mp hq
        rw [Option.some.inj (hn.symm.trans hn'), huse'] at huse
        cases huse

/-- A node may be rewritten, as long as its capacity and category stay. -/
theorem Consistent.handles_insert (h : s.Consistent) {base : PoolSystem} {ptr : DevicePtr}
    {node node' : PooledBufferNode} (hn : s.base.pool.poolNodes.lookup ptr = some node)
    (hnodes : base.pool.poolNodes = s.base.pool.poolNodes.insert ptr node')
    (hcapacity : node'.capacityBytes = node.capacityBytes)
    (hcategory : node'.category = node.category) (q : DevicePtr) :
    (s.allocator.activeAllocations.lookup q).map
        (fun handle => (handle.sizeBytes, handle.category)) =
      (base.pool.poolNodes.lookup q).map fun node => (node.capacityBytes, node.category) := by
  rw [hnodes, lookup_insert_ite]
  split_ifs with hq
  · rw [hq, h.handles, hn, Option.map_some, Option.map_some, hcapacity, hcategory]
  · exact h.handles q

/-- The owner of a buffer that was handed out asked for the category of its node. -/
theorem Consistent.asked_update (h : s.Consistent) {base : PoolSystem} {ptr : DevicePtr}
    {node' : PooledBufferNode} {category : MemoryCategory}
    (hnodes : base.pool.poolNodes = s.base.pool.poolNodes.insert ptr node')
    (hcategory : category = node'.category) (q : DevicePtr) (next : PooledBufferNode)
    (hnext : base.pool.poolNodes.lookup q = some next) (huse : next.inUse = true) :
    Function.update s.asked ptr category q = next.category := by
  rw [hnodes, lookup_insert_ite] at hnext
  split_ifs at hnext with hq
  · rw [hq, Function.update_self, hcategory, Option.some.inj hnext]
  · rw [Function.update_of_ne hq]
    exact h.asked q next hnext huse

/-- A step in which every reuse keeps the category keeps the correspondence. -/
theorem step_consistent {s' : CategorySystem} {a : PoolAction} (h : s.Consistent)
    (hc : s.SameCategory a) (hs : step s a = some s') : s'.Consistent := by
  obtain ⟨base, hbase, rfl⟩ := Option.map_eq_some_iff.mp hs
  have hsound := step_sound h.sound hbase
  have heffect := step_effect h.sound hbase
  unfold allocatorAfter askedAfter
  cases he : eventOf s.base (s.resolve a) with
  | idle =>
    rw [he] at heffect
    refine ⟨hsound, h.counted, ?_, ?_⟩
    · rw [heffect.nodes]
      exact h.handles
    · rw [heffect.nodes]
      exact h.asked
  | reused ptr bucketSize =>
    rw [he] at heffect
    obtain ⟨node, node', rest, heffect⟩ := heffect
    obtain ⟨t, bytes, category, stream, driver, rfl, hbytes, hsize⟩ := acquire_of_reused he
    have hcat : node.category = category :=
      hc hbytes bucketSize hsize ptr (by rw [heffect.bucket]; rfl) node heffect.lookup
    have hcapacity := heffect.capacity'.trans heffect.capacity.symm
    exact ⟨hsound, h.counted,
      h.handles_insert heffect.lookup heffect.nodes hcapacity heffect.category,
      h.asked_update heffect.nodes (hcat.symm.trans heffect.category.symm)⟩
  | allocated ptr bucketSize category =>
    rw [he] at heffect
    obtain ⟨node, heffect⟩ := heffect
    obtain ⟨alignedBytes, hcheck⟩ := proceeds_of_allocated he
    obtain ⟨hcounted, hhandles⟩ := h.recordAllocation (s.streamOf (s.resolve a)) hsound heffect
      hcheck
    exact ⟨hsound, hcounted, hhandles, h.asked_update heffect.nodes heffect.category.symm⟩
  | released ptr bucketSize =>
    rw [he] at heffect
    obtain ⟨node, heffect⟩ := heffect
    have hhandles := h.handles_insert heffect.lookup heffect.nodes rfl rfl
    refine ⟨hsound, h.counted, hhandles, fun q next hn huse => ?_⟩
    rw [heffect.nodes, lookup_insert_ite] at hn
    split_ifs at hn with hq
    · rw [← Option.some.inj hn] at huse
      cases huse
    · exact h.asked q next hn huse
  | purged =>
    rw [he] at heffect
    obtain ⟨hcounted, hhandles⟩ := h.freeAll heffect
    refine ⟨hsound, hcounted, hhandles, fun q next hn huse => ?_⟩
    rw [heffect.lookup] at hn
    exact h.asked q next (Option.filter_eq_some_iff.mp hn).1 huse

end Allocator

/-- In every run in which each acquire that reuses a cached buffer asks for the category the buffer
was allocated for, the counter of every category covers the buffers in use under it. -/
theorem categoriesCovered_of_sameCategory {maxCachedBytes vramSafetyThresholdBytes : ℕ}
    {actions : List PoolAction} {s : CategorySystem}
    (hc : Transition.AllSteps step SameCategory (init maxCachedBytes vramSafetyThresholdBytes)
      actions)
    (he : Transition.exec step (init maxCachedBytes vramSafetyThresholdBytes) actions = some s) :
    s.CategoriesCovered := by
  have h : s.Consistent :=
    Transition.exec_invariant (fun _ _ _ h hc hs => step_consistent h hc hs)
      (init_consistent maxCachedBytes vramSafetyThresholdBytes) hc he
  exact h.categoriesCovered

instance (s : CategorySystem) (a : PoolAction) : Decidable (s.SameCategory a) :=
  match a with
  | .acquire _ bytes _ _ _ => inferInstanceAs (Decidable (bytes ≠ 0 → _))
  | .acquirePurge _ => isTrue trivial
  | .acquireRetry _ _ => isTrue trivial
  | .release _ _ _ => isTrue trivial
  | .purgeFreeBuffers _ _ => isTrue trivial
  | .resetStats _ => isTrue trivial

theorem categoriesCovered_reuse : ∃ s,
    Transition.exec step (init 1024 4096)
      [.acquire 0 300 .weights 0 (some 4096), .acquire 1 256 .kvCache 0 (some 8192),
        .release 0 4096 0, .acquire 1 400 .weights 0 none] = some s ∧ s.CategoriesCovered :=
  Transition.exec_exists (P := fun _ => True) (by decide +kernel) fun _ hs _ =>
    categoriesCovered_of_sameCategory (by decide +kernel) hs

/-- A workspace buffer reused for the KV cache leaves 256 bytes in use under a category with 0
bytes. -/
theorem reuse_for_other_category : ∃ s,
    Transition.exec step (init 1024 4096)
      [.acquire 0 256 .workspace 0 (some 4096), .release 0 4096 0,
        .acquire 0 256 .kvCache 0 none] = some s ∧ ¬ s.CategoriesCovered :=
  Transition.exec_exists (P := fun s => ¬ s.CategoriesCovered) (by decide +kernel)
    fun _ _ h => h

end CategorySystem
end CudaForge.Memory
