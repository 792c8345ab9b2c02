import CudaForge.Memory.BufferPool

/-! Exact accounting and exclusive hand-out of the buffer pool under every interleaving. -/
namespace CudaForge.Memory
open MachineWord FiniteMap

def nodeBytes (_ : DevicePtr) (node : PooledBufferNode) : ℕ := node.capacityBytes

def inUseBytes (_ : DevicePtr) (node : PooledBufferNode) : ℕ :=
  if node.inUse then node.capacityBytes else 0

def freeBytes (_ : DevicePtr) (node : PooledBufferNode) : ℕ :=
  if node.inUse then 0 else node.capacityBytes

def requestedBytes (_ : DevicePtr) (node : PooledBufferNode) : ℕ :=
  if node.inUse then node.requestedBytes else 0

theorem inUseBytes_add_freeBytes (nodes : FiniteMap DevicePtr PooledBufferNode) :
    total inUseBytes nodes + total freeBytes nodes = total nodeBytes nodes := by
  rw [← total_add]
  congr 1
  funext p node
  simp only [inUseBytes, freeBytes, nodeBytes]
  split_ifs <;> omega

namespace BufferPool

theorem bucketLoop_le {bytes fuel power bucketSize : ℕ}
    (h : bucketLoop bytes fuel power = some bucketSize) : bytes ≤ bucketSize := by
  induction fuel generalizing power with
  | zero => contradiction
  | succ fuel ih =>
    simp only [bucketLoop] at h
    split_ifs at h with hp
    · exact ih h
    · obtain rfl := Option.some.inj h
      omega

theorem calculateBucketSize_le {bytes bucketSize : ℕ}
    (h : calculateBucketSize bytes = some bucketSize) : bytes ≤ bucketSize := by
  unfold calculateBucketSize at h
  split_ifs at h with hb
  · omega
  · exact bucketLoop_le h

structure Counted (p : BufferPool) (allocations : FiniteMap DevicePtr ℕ) : Prop where
  pooled_eq : p.totalPooledBytes = total nodeBytes p.poolNodes
  active_eq : p.activeBytes = total inUseBytes p.poolNodes
  free_eq : p.freeCachedBytes = total freeBytes p.poolNodes
  requested_eq : p.totalRequestedBytes = total requestedBytes p.poolNodes
  fits : ∀ ptr node, p.poolNodes.lookup ptr = some node → node.requestedBytes ≤ node.capacityBytes
  allocated : ∀ ptr, (p.poolNodes.lookup ptr).map PooledBufferNode.capacityBytes =
    allocations.lookup ptr
  bounded : PoolSystem.allocatedBytes allocations < 2 ^ 64

section
variable {p : BufferPool} {allocations : FiniteMap DevicePtr ℕ}

theorem Counted.nodeBytes_le (h : p.Counted allocations) :
    total nodeBytes p.poolNodes ≤ PoolSystem.allocatedBytes allocations := by
  refine total_le_total fun ptr node hn => ⟨node.capacityBytes, ?_, le_rfl⟩
  rw [← h.allocated, hn]
  rfl

theorem Counted.nodeBytes_lt (h : p.Counted allocations) :
    total nodeBytes p.poolNodes < 2 ^ 64 := h.nodeBytes_le.trans_lt h.bounded

theorem Counted.requested_le (h : p.Counted allocations) :
    total requestedBytes p.poolNodes ≤ total inUseBytes p.poolNodes := by
  refine total_le_total fun ptr node hn => ⟨node, hn, ?_⟩
  have hfit := h.fits ptr node hn
  simp only [requestedBytes, inUseBytes]
  split_ifs <;> omega

theorem Counted.pooled_eq_add (h : p.Counted allocations) :
    p.totalPooledBytes = p.activeBytes + p.freeCachedBytes := by
  rw [h.pooled_eq, h.active_eq, h.free_eq, inUseBytes_add_freeBytes]

/-- A node that is not in the pool is not an allocation of it either. -/
theorem Counted.notMem (h : p.Counted allocations) {ptr : DevicePtr} (hp : ptr ∉ allocations) :
    ptr ∉ p.poolNodes := by
  intro hm
  obtain ⟨node, hn⟩ := Option.isSome_iff_exists.mp (AList.lookup_isSome.mpr hm)
  have ha := h.allocated ptr
  rw [hn] at ha
  exact hp (mem_of_lookup ha.symm)

theorem Counted.recordNode (h : p.Counted allocations) {ptr : DevicePtr}
    {bucketSize bytes : ℕ} {category : MemoryCategory}
    (hr : PoolSystem.AllocatorReturns allocations ptr bucketSize) (hb : bytes ≤ bucketSize) :
    (p.recordNode ptr bucketSize bytes category).Counted (allocations.insert ptr bucketSize) := by
  obtain ⟨_, hfresh, hroom⟩ := hr
  have hnew := h.notMem hfresh
  have hsplit := inUseBytes_add_freeBytes p.poolNodes
  have hreq := h.requested_le
  have hle := h.nodeBytes_le
  constructor
  · simp only [BufferPool.recordNode, total_insert_of_notMem hnew, h.pooled_eq]
    rw [add_eq (by omega), Nat.add_comm]
    rfl
  · simp only [BufferPool.recordNode, total_insert_of_notMem hnew, h.active_eq]
    rw [add_eq (by omega), Nat.add_comm]
    rfl
  · simp only [BufferPool.recordNode, total_insert_of_notMem hnew, h.free_eq]
    exact (Nat.zero_add _).symm
  · simp only [BufferPool.recordNode, total_insert_of_notMem hnew, h.requested_eq]
    rw [add_eq (by omega), Nat.add_comm]
    rfl
  · intro q node hq
    simp only [BufferPool.recordNode, lookup_insert_ite] at hq
    split_ifs at hq
    · obtain rfl := Option.some.inj hq
      exact hb
    · exact h.fits q node hq
  · intro q
    simp only [BufferPool.recordNode, lookup_insert_ite]
    split_ifs
    · rfl
    · exact h.allocated q
  · simp only [PoolSystem.allocatedBytes, total_insert_of_notMem hfresh] at hroom ⊢
    omega

/-- A node is replaced by one of the same capacity and the counters move by the difference. -/
theorem Counted.replaceNode (h : p.Counted allocations) {p' : BufferPool} {ptr : DevicePtr}
    {node : PooledBufferNode} (hn : p.poolNodes.lookup ptr = some node) (node' : PooledBufferNode)
    (hcap : node'.capacityBytes = node.capacityBytes)
    (hfit : node'.requestedBytes ≤ node'.capacityBytes)
    (hnodes : p'.poolNodes = p.poolNodes.insert ptr node')
    (hpooled : p'.totalPooledBytes = p.totalPooledBytes)
    (hactive : inUseBytes ptr node + p'.activeBytes = inUseBytes ptr node' + p.activeBytes)
    (hfree : freeBytes ptr node + p'.freeCachedBytes = freeBytes ptr node' + p.freeCachedBytes)
    (hreq : requestedBytes ptr node + p'.totalRequestedBytes =
      requestedBytes ptr node' + p.totalRequestedBytes) : p'.Counted allocations := by
  have hsum (f : DevicePtr → PooledBufferNode → ℕ) :
      f ptr node + total f p'.poolNodes = f ptr node' + total f p.poolNodes :=
    hnodes ▸ total_insert_of_lookup hn node'
  constructor
  · have hcaps := hsum nodeBytes
    simp only [nodeBytes, hcap, Nat.add_left_cancel_iff] at hcaps
    exact hpooled.trans (h.pooled_eq.trans hcaps.symm)
  · have hbytes := hsum inUseBytes
    rw [← h.active_eq, ← hactive] at hbytes
    exact (Nat.add_left_cancel hbytes).symm
  · have hbytes := hsum freeBytes
    rw [← h.free_eq, ← hfree] at hbytes
    exact (Nat.add_left_cancel hbytes).symm
  · have hbytes := hsum requestedBytes
    rw [← h.requested_eq, ← hreq] at hbytes
    exact (Nat.add_left_cancel hbytes).symm
  · intro q other hq
    rw [hnodes, lookup_insert_ite] at hq
    split_ifs at hq
    · obtain rfl := Option.some.inj hq
      exact hfit
    · exact h.fits q other hq
  · intro q
    rw [hnodes, lookup_insert_ite]
    split_ifs with hq
    · rw [hq, ← h.allocated, hn]
      exact congrArg some hcap
    · exact h.allocated q
  · exact h.bounded

/-- No counter of a counted pool wraps when bytes are moved between the in-use and free nodes. -/
theorem Counted.moved_le (h : p.Counted allocations) {ptr : DevicePtr} {node : PooledBufferNode}
    (hn : p.poolNodes.lookup ptr = some node) :
    inUseBytes ptr node ≤ p.activeBytes ∧ freeBytes ptr node ≤ p.freeCachedBytes ∧
      requestedBytes ptr node ≤ p.totalRequestedBytes ∧
      p.totalRequestedBytes ≤ p.activeBytes ∧ p.activeBytes + p.freeCachedBytes < 2 ^ 64 := by
  refine ⟨h.active_eq ▸ le_total (f := inUseBytes) hn, h.free_eq ▸ le_total (f := freeBytes) hn,
    h.requested_eq ▸ le_total (f := requestedBytes) hn, ?_, ?_⟩
  · rw [h.requested_eq, h.active_eq]
    exact h.requested_le
  · rw [← h.pooled_eq_add, h.pooled_eq]
    exact h.nodeBytes_lt

theorem Counted.release (h : p.Counted allocations) (ptr : DevicePtr) :
    (p.release ptr).Counted allocations := by
  unfold BufferPool.release
  split_ifs with hnull
  · exact h
  split
  · exact h
  · rename_i node hn
    split_ifs with huse
    · exact h
    · obtain ⟨hactive, hfree, hreq, hle, hlt⟩ := h.moved_le hn
      simp only [inUseBytes, freeBytes, requestedBytes, huse, if_true] at hactive hfree hreq
      refine h.replaceNode hn { node with inUse := false } rfl (h.fits ptr node hn) rfl
        rfl ?_ ?_ ?_
      · simp only [inUseBytes, huse]
        rw [sub_eq hactive (by omega)]
        simp
        omega
      · simp only [freeBytes, huse]
        rw [add_eq (by omega)]
        simp
        omega
      · simp only [requestedBytes, huse]
        rw [sub_eq hreq (by omega)]
        simp
        omega

theorem Counted.reuseNode (h : p.Counted allocations) {ptr : DevicePtr} {node : PooledBufferNode}
    {bytes : ℕ} (rest : List DevicePtr) (hn : p.poolNodes.lookup ptr = some node)
    (huse : node.inUse = false) (hb : bytes ≤ node.capacityBytes) :
    (p.reuseNode node.capacityBytes bytes ptr rest node).Counted allocations := by
  obtain ⟨hactive, hfree, hreq, hle, hlt⟩ := h.moved_le hn
  simp only [inUseBytes, freeBytes, requestedBytes, huse] at hactive hfree hreq
  refine h.replaceNode hn ⟨node.ptr, node.capacityBytes, bytes, node.category, true,
    add 64 p.frameCounter 1⟩ rfl hb rfl rfl ?_ ?_ ?_
  · simp only [inUseBytes, huse, BufferPool.reuseNode]
    rw [add_eq (by simp at hfree; omega)]
    simp
    omega
  · simp only [freeBytes, huse, BufferPool.reuseNode]
    rw [sub_eq (by simpa using hfree) (by omega)]
    simp at hfree ⊢
    omega
  · simp only [requestedBytes, huse, BufferPool.reuseNode]
    rw [add_eq (by simp at hfree; omega)]
    simp
    omega

theorem Counted.eraseNode (h : p.Counted allocations) {p' : BufferPool} {ptr : DevicePtr}
    {node : PooledBufferNode} (hn : p.poolNodes.lookup ptr = some node)
    (huse : node.inUse = false) (hnodes : p'.poolNodes = p.poolNodes.erase ptr)
    (hpooled : p'.totalPooledBytes = sub 64 p.totalPooledBytes node.capacityBytes)
    (hactive : p'.activeBytes = p.activeBytes)
    (hfree : p'.freeCachedBytes = sub 64 p.freeCachedBytes node.capacityBytes)
    (hreq : p'.totalRequestedBytes = p.totalRequestedBytes) :
    p'.Counted (allocations.erase ptr) := by
  have hsum (f : DevicePtr → PooledBufferNode → ℕ) :
      f ptr node + total f p'.poolNodes = total f p.poolNodes := hnodes ▸ total_erase hn
  have hlt := h.nodeBytes_lt
  have hsplit := inUseBytes_add_freeBytes p.poolNodes
  have hcap : allocations.lookup ptr = some node.capacityBytes := by rw [← h.allocated, hn]; rfl
  constructor
  · have hbytes := hsum nodeBytes
    rw [← hbytes] at hlt
    rw [hpooled, h.pooled_eq, ← hbytes, show node.capacityBytes = nodeBytes ptr node from rfl,
      sub_eq (Nat.le_add_right _ _) hlt, Nat.add_sub_cancel_left]
  · have hbytes := hsum inUseBytes
    rw [hactive, h.active_eq, ← hbytes]
    simp only [inUseBytes, huse, Bool.false_eq_true, if_false, Nat.zero_add]
  · have hbytes := hsum freeBytes
    rw [hfree, h.free_eq, ← hbytes,
      show node.capacityBytes = freeBytes ptr node by simp [freeBytes, huse],
      sub_eq (Nat.le_add_right _ _) (by omega), Nat.add_sub_cancel_left]
  · have hbytes := hsum requestedBytes
    rw [hreq, h.requested_eq, ← hbytes]
    simp only [requestedBytes, huse, Bool.false_eq_true, if_false, Nat.zero_add]
  · intro q other hq
    rw [hnodes, lookup_erase_ite] at hq
    split_ifs at hq
    exact h.fits q other hq
  · intro q
    rw [hnodes, lookup_erase_ite, lookup_erase_ite]
    split_ifs
    · rfl
    · exact h.allocated q
  · have hle := total_erase (f := fun _ size => size) hcap
    have hbound := h.bounded
    simp only [PoolSystem.allocatedBytes] at hbound ⊢
    omega

theorem purgeStep_lookup (acc : Purge) (ptr q : DevicePtr) :
    (purgeStep acc ptr).pool.poolNodes.lookup q =
      if q = ptr then none else acc.pool.poolNodes.lookup q := by
  cases hn : acc.pool.poolNodes.lookup ptr with
  | none =>
    simp only [purgeStep, hn]
    split_ifs with hq
    · rw [hq, hn]
    · rfl
  | some node => simp only [purgeStep, hn, lookup_erase_ite]

theorem purge_lookup (ptrs : List DevicePtr) (acc : Purge) (q : DevicePtr) :
    (ptrs.foldl purgeStep acc).pool.poolNodes.lookup q =
      if q ∈ ptrs then none else acc.pool.poolNodes.lookup q := by
  induction ptrs generalizing acc with
  | nil => simp
  | cons ptr rest ih =>
    simp only [List.foldl_cons, ih, purgeStep_lookup, List.mem_cons]
    by_cases hq : q = ptr <;> by_cases hr : q ∈ rest <;> simp [hq, hr]

theorem Counted.purgeStep {acc : Purge} {ptr : DevicePtr}
    (h : acc.pool.Counted (acc.freed.foldl (fun m ptr => m.erase ptr) allocations))
    (hfree : ∀ node, acc.pool.poolNodes.lookup ptr = some node → node.inUse = false) :
    (BufferPool.purgeStep acc ptr).pool.Counted
      ((BufferPool.purgeStep acc ptr).freed.foldl (fun m ptr => m.erase ptr) allocations) := by
  cases hn : acc.pool.poolNodes.lookup ptr with
  | none => simpa only [BufferPool.purgeStep, hn] using h
  | some node =>
    simp only [BufferPool.purgeStep, hn, List.foldl_append, List.foldl_cons, List.foldl_nil]
    exact h.eraseNode hn (hfree node hn) rfl rfl rfl rfl rfl

/-- Erasing the listed nodes one after another when none of them is in use. -/
theorem Counted.purge (ptrs : List DevicePtr) (acc : Purge)
    (h : acc.pool.Counted (acc.freed.foldl (fun m ptr => m.erase ptr) allocations))
    (hfree : ∀ ptr ∈ ptrs, ∀ node, acc.pool.poolNodes.lookup ptr = some node → node.inUse = false) :
    (ptrs.foldl BufferPool.purgeStep acc).pool.Counted
      ((ptrs.foldl BufferPool.purgeStep acc).freed.foldl (fun m ptr => m.erase ptr)
        allocations) := by
  induction ptrs generalizing acc with
  | nil => exact h
  | cons ptr rest ih =>
    rw [List.foldl_cons]
    apply ih _ (h.purgeStep (hfree ptr List.mem_cons_self))
    intro q hq node hnode
    rw [purgeStep_lookup] at hnode
    split_ifs at hnode
    exact hfree q (List.mem_cons_of_mem _ hq) node hnode

def bucket (p : BufferPool) (bucketSize : ℕ) : List DevicePtr :=
  (p.freeBuckets.lookup bucketSize).getD []

def FreeNode (nodes : FiniteMap DevicePtr PooledBufferNode) (bucketSize : ℕ)
    (ptr : DevicePtr) : Prop :=
  ∃ node, nodes.lookup ptr = some node ∧ node.inUse = false ∧ node.capacityBytes = bucketSize

theorem freeNode_insert (nodes : FiniteMap DevicePtr PooledBufferNode) (ptr : DevicePtr)
    (node : PooledBufferNode) (bucketSize : ℕ) (q : DevicePtr) :
    FreeNode (nodes.insert ptr node) bucketSize q ↔
      if q = ptr then node.inUse = false ∧ node.capacityBytes = bucketSize
      else FreeNode nodes bucketSize q := by
  simp only [FreeNode, lookup_insert_ite]
  split_ifs <;> simp

/-- The buckets list exactly the free nodes, each once and under its capacity. -/
structure Bucketed (p : BufferPool) : Prop where
  mem_iff : ∀ bucketSize ptr, ptr ∈ p.bucket bucketSize ↔ FreeNode p.poolNodes bucketSize ptr
  nodup : ∀ bucketSize, (p.bucket bucketSize).Nodup

theorem bucket_insert (p p' : BufferPool) {bucketSize : ℕ} {ptrs : List DevicePtr}
    (h : p'.freeBuckets = p.freeBuckets.insert bucketSize ptrs) (size : ℕ) :
    p'.bucket size = if size = bucketSize then ptrs else p.bucket size := by
  simp only [bucket, h, lookup_insert_ite]
  split_ifs <;> rfl

theorem not_freeNode {p : BufferPool} {ptr : DevicePtr} (h : ptr ∉ p.poolNodes)
    (bucketSize : ℕ) : ¬FreeNode p.poolNodes bucketSize ptr :=
  fun ⟨_, hn, _⟩ => h (mem_of_lookup hn)

theorem Bucketed.recordNode (h : p.Bucketed) {ptr : DevicePtr} (hnew : ptr ∉ p.poolNodes)
    (bucketSize bytes : ℕ) (category : MemoryCategory) :
    (p.recordNode ptr bucketSize bytes category).Bucketed where
  mem_iff size q := by
    apply (h.mem_iff size q).trans
    simp only [BufferPool.recordNode, freeNode_insert]
    split_ifs with hq
    · simp only [hq, not_freeNode hnew, false_and]
    · rfl
  nodup := h.nodup

/-- A node that is not in use is in the bucket of its capacity and in no other. -/
theorem FreeNode.unique {nodes : FiniteMap DevicePtr PooledBufferNode} {size size' : ℕ}
    {ptr : DevicePtr} (h : FreeNode nodes size ptr) (h' : FreeNode nodes size' ptr) :
    size = size' := by
  obtain ⟨node, hn, -, rfl⟩ := h
  obtain ⟨node', hn', -, rfl⟩ := h'
  rw [hn] at hn'
  rw [Option.some.inj hn']

theorem Bucketed.reuseNode (h : p.Bucketed) {ptr : DevicePtr} {rest : List DevicePtr}
    {bucketSize : ℕ} (hbucket : p.bucket bucketSize = ptr :: rest) (node : PooledBufferNode)
    (bytes : ℕ) : (p.reuseNode bucketSize bytes ptr rest node).Bucketed := by
  have hnodup := List.nodup_cons.mp (hbucket ▸ h.nodup bucketSize)
  have hptr : FreeNode p.poolNodes bucketSize ptr :=
    (h.mem_iff _ _).mp (hbucket ▸ List.mem_cons_self)
  have hbuckets := bucket_insert p (p.reuseNode bucketSize bytes ptr rest node) rfl
  constructor
  · intro size q
    rw [hbuckets]
    simp only [BufferPool.reuseNode, freeNode_insert, ← h.mem_iff]
    by_cases hq : q = ptr
    · subst hq
      simp only [if_true, Bool.true_eq_false, false_and, iff_false]
      split_ifs with hsize
      · exact hnodup.1
      · exact fun hmem => hsize (((h.mem_iff _ _).mp hmem).unique hptr)
    · simp only [hq, if_false]
      split_ifs with hsize
      · rw [hsize, hbucket, List.mem_cons, or_iff_right hq]
      · rfl
  · intro size
    rw [hbuckets]
    split_ifs
    · exact hnodup.2
    · exact h.nodup size

theorem Bucketed.release (h : p.Bucketed) (ptr : DevicePtr) : (p.release ptr).Bucketed := by
  unfold BufferPool.release
  split_ifs
  · exact h
  split
  · exact h
  · rename_i node hn
    split_ifs with huse
    · exact h
    · have hnot : ∀ size, ptr ∉ p.bucket size := by
        intro size hmem
        obtain ⟨node', hn', huse', -⟩ := (h.mem_iff _ _).mp hmem
        rw [hn] at hn'
        exact huse (Option.some.inj hn' ▸ huse')
      constructor
      · intro size q
        rw [bucket_insert p _ rfl]
        simp only [freeNode_insert, ← h.mem_iff]
        by_cases hq : q = ptr
        · subst hq
          simp only [if_true, true_and]
          split_ifs with hsize
          · simp [hsize]
          · simp only [hnot size, false_iff]
            exact Ne.symm hsize
        · simp only [hq, if_false]
          split_ifs with hsize
          · rw [hsize, List.mem_cons, or_iff_right hq]
            rfl
          · rfl
      · intro size
        rw [bucket_insert p _ rfl]
        split_ifs
        · exact List.nodup_cons.mpr ⟨hnot _, h.nodup _⟩
        · exact h.nodup size

theorem mem_freePtrs (p : BufferPool) (ptr : DevicePtr) :
    ptr ∈ p.freePtrs ↔ ∃ bucketSize, ptr ∈ p.bucket bucketSize := by
  simp only [freePtrs, List.mem_flatMap, List.mem_reverse, bucket]
  constructor
  · rintro ⟨⟨bucketSize, ptrs⟩, he, hptr⟩
    refine ⟨bucketSize, ?_⟩
    rw [AList.mem_lookup_iff.mpr he]
    exact hptr
  · rintro ⟨bucketSize, hptr⟩
    cases hl : p.freeBuckets.lookup bucketSize with
    | none => simp [hl] at hptr
    | some ptrs => exact ⟨⟨bucketSize, ptrs⟩, AList.mem_lookup_iff.mp hl, by simpa [hl] using hptr⟩

theorem Bucketed.purgeFreeBuffers (h : p.Bucketed) : p.purgeFreeBuffers.pool.Bucketed where
  mem_iff size q := by
    constructor
    · intro hq
      simp [bucket, BufferPool.purgeFreeBuffers] at hq
    · rintro ⟨node, hn, huse, hcap⟩
      simp only [BufferPool.purgeFreeBuffers, purge_lookup] at hn
      split_ifs at hn with hq
      exact absurd ((mem_freePtrs p q).mpr ⟨_, (h.mem_iff _ q).mpr ⟨node, hn, huse, rfl⟩⟩) hq
  nodup _ := List.nodup_nil

theorem Counted.purgeFreeBuffers (h : p.Counted allocations) (hb : p.Bucketed) :
    p.purgeFreeBuffers.pool.Counted
      (p.purgeFreeBuffers.freed.foldl (fun m ptr => m.erase ptr) allocations) := by
  have hpurge := Counted.purge p.freePtrs ⟨p, 0, []⟩ h fun ptr hptr node hn => by
    obtain ⟨size, hmem⟩ := (mem_freePtrs p ptr).mp hptr
    obtain ⟨node', hn', huse, -⟩ := (hb.mem_iff _ _).mp hmem
    rw [Option.some.inj (hn.symm.trans hn')]
    exact huse
  exact ⟨hpurge.pooled_eq, hpurge.active_eq, hpurge.free_eq, hpurge.requested_eq, hpurge.fits,
    hpurge.allocated, hpurge.bounded⟩

theorem Counted.statistics (h : p.Counted allocations) (peak total hits misses purges : ℕ) :
    Counted { p with
      peakPooledBytes := peak
      totalAllocations := total
      poolHits := hits
      poolMisses := misses
      oomPurgeRecoveries := purges } allocations :=
  ⟨h.pooled_eq, h.active_eq, h.free_eq, h.requested_eq, h.fits, h.allocated, h.bounded⟩

theorem Bucketed.statistics (h : p.Bucketed) (peak total hits misses purges : ℕ) :
    Bucketed { p with
      peakPooledBytes := peak
      totalAllocations := total
      poolHits := hits
      poolMisses := misses
      oomPurgeRecoveries := purges } :=
  ⟨h.mem_iff, h.nodup⟩

theorem searchBucket_hit {p p' : BufferPool} {bucketSize bytes : ℕ} {ptr : DevicePtr}
    (h : p.searchBucket bucketSize bytes = .hit ptr p') :
    ∃ rest node, p.bucket bucketSize = ptr :: rest ∧ p.poolNodes.lookup ptr = some node ∧
      p' = p.reuseNode bucketSize bytes ptr rest node := by
  unfold searchBucket at h
  split at h
  · rename_i q rest hbucket
    split at h
    · cases h
    · rename_i node hn
      cases h
      exact ⟨rest, node, by simp only [bucket, hbucket, Option.getD_some], hn, rfl⟩
  · cases h

theorem Bucketed.searchBucket_ne_dangling (h : p.Bucketed) (bucketSize bytes : ℕ) :
    p.searchBucket bucketSize bytes ≠ .dangling := by
  intro hd
  unfold searchBucket at hd
  split at hd
  · rename_i ptr rest hbucket
    have hmem : ptr ∈ p.bucket bucketSize := by
      simp only [bucket, hbucket, Option.getD_some, List.mem_cons_self]
    obtain ⟨node, hn, -⟩ := (h.mem_iff _ _).mp hmem
    simp only [hn] at hd
    cases hd
  · cases hd

/-- A cached buffer is free until the search hands it out. -/
theorem Bucketed.hit_free (h : p.Bucketed) {p' : BufferPool} {bucketSize bytes : ℕ}
    {ptr : DevicePtr} (hs : p.searchBucket bucketSize bytes = .hit ptr p') :
    FreeNode p.poolNodes bucketSize ptr := by
  obtain ⟨rest, node, hbucket, -, -⟩ := searchBucket_hit hs
  exact (h.mem_iff _ _).mp (hbucket ▸ List.mem_cons_self)

theorem largestFreeBlock_le (hc : p.Counted allocations) (hb : p.Bucketed) :
    p.largestFreeBlock ≤ p.freeCachedBytes := by
  rw [largestFreeBlock, List.foldl_map]
  suffices h : ∀ (entries : List (Sigma fun _ : ℕ => List DevicePtr)) (n : ℕ),
      (∀ e ∈ entries, e ∈ p.freeBuckets.entries) → n ≤ p.freeCachedBytes →
      entries.foldl (fun n e => max n (if e.2.isEmpty then 0 else e.1)) n ≤ p.freeCachedBytes from
    h _ 0 (fun _ he => he) (Nat.zero_le _)
  intro entries
  induction entries with
  | nil => exact fun n _ hn => hn
  | cons e rest ih =>
    intro n hmem hn
    refine ih _ (fun e he => hmem e (List.mem_cons_of_mem _ he)) (max_le hn ?_)
    split_ifs with hempty
    · exact Nat.zero_le _
    · obtain ⟨bucketSize, ptrs⟩ := e
      obtain ⟨ptr, hptr⟩ := List.exists_mem_of_ne_nil ptrs (by simpa using hempty)
      have hlookup := AList.mem_lookup_iff.mpr (hmem _ List.mem_cons_self)
      have hbucket : ptr ∈ p.bucket bucketSize := by
        rw [bucket, show p.freeBuckets.lookup bucketSize = some ptrs from hlookup]
        exact hptr
      obtain ⟨node, hnode, huse, hcap⟩ := (hb.mem_iff _ _).mp hbucket
      have hle := (hc.moved_le hnode).2.1
      simpa only [freeBytes, huse, hcap, Bool.false_eq_true, if_false] using hle

end
end BufferPool

/-- A request never exceeds the bucket it was rounded up to. -/
def AcquireCall.Fits : AcquireCall → Prop
  | .purgePending bucketSize bytes _ => bytes ≤ bucketSize
  | .retryPending bucketSize bytes _ => bytes ≤ bucketSize

namespace PoolSystem
open BufferPool

structure Accounted (s : PoolSystem) : Prop where
  counted : s.pool.Counted s.allocations
  bucketed : s.pool.Bucketed
  fits : ∀ t call, s.calls.lookup t = some call → call.Fits

theorem init_accounted (maxCachedBytes : ℕ) : (init maxCachedBytes).Accounted where
  counted := by
    constructor <;> simp [init, BufferPool.init, allocatedBytes]
  bucketed := by
    constructor <;> simp [init, BufferPool.init, bucket, FreeNode]
  fits t call h := by simp [init] at h

theorem fits_insert {s : PoolSystem} (h : s.Accounted) {t : ThreadId} {call : AcquireCall}
    (hc : call.Fits) : ∀ t' call', (s.calls.insert t call).lookup t' = some call' → call'.Fits := by
  intro t' call' ht'
  rw [lookup_insert_ite] at ht'
  split_ifs at ht'
  · exact Option.some.inj ht' ▸ hc
  · exact h.fits t' call' ht'

theorem fits_erase {s : PoolSystem} (h : s.Accounted) (t : ThreadId) :
    ∀ t' call, (s.calls.erase t).lookup t' = some call → call.Fits := by
  intro t' call ht'
  rw [lookup_erase_ite] at ht'
  split_ifs at ht'
  exact h.fits t' call ht'

theorem Accounted.purge {s : PoolSystem} (h : s.Accounted) : s.purge.Accounted :=
  ⟨h.counted.purgeFreeBuffers h.bucketed, h.bucketed.purgeFreeBuffers, h.fits⟩

/-- Both critical sections that can allocate end in a recorded node or leave the pool alone. -/
theorem Accounted.allocateNode {s : PoolSystem} {pool : BufferPool}
    (hc : pool.Counted s.allocations) (hb : pool.Bucketed) {ptr : DevicePtr} {bucketSize bytes : ℕ}
    (category : MemoryCategory) (hr : AllocatorReturns s.allocations ptr bucketSize)
    (hle : bytes ≤ bucketSize) :
    (s.allocateNode pool ptr bucketSize bytes category).pool.Counted
        (s.allocateNode pool ptr bucketSize bytes category).allocations ∧
      (s.allocateNode pool ptr bucketSize bytes category).pool.Bucketed :=
  ⟨hc.recordNode hr hle, hb.recordNode (hc.notMem hr.2.1) bucketSize bytes category⟩

theorem step_accounted_acquire {s s' : PoolSystem} {t : ThreadId} {bytes : ℕ}
    {category : MemoryCategory} {stream : CudaStream} {result : Option DevicePtr}
    (h : s.Accounted) (hs : step s (.acquire t bytes category stream result) = some s') :
    s'.Accounted := by
  simp only [step] at hs
  split_ifs at hs
  · exact Option.some.inj hs ▸ h
  split at hs
  · contradiction
  · rename_i bucketSize hbucket
    have hle := calculateBucketSize_le hbucket
    have hc := h.counted.statistics s.pool.peakPooledBytes (add 64 s.pool.totalAllocations 1)
      s.pool.poolHits s.pool.poolMisses s.pool.oomPurgeRecoveries
    have hb := h.bucketed.statistics s.pool.peakPooledBytes (add 64 s.pool.totalAllocations 1)
      s.pool.poolHits s.pool.poolMisses s.pool.oomPurgeRecoveries
    split at hs
    · rename_i ptr pool hit
      obtain rfl := Option.some.inj hs
      obtain ⟨node, hn, huse, rfl⟩ := hb.hit_free hit
      obtain ⟨rest, node', hlist, hn', rfl⟩ := searchBucket_hit hit
      obtain rfl := Option.some.inj (hn.symm.trans hn')
      exact ⟨hc.reuseNode rest hn huse hle, hb.reuseNode hlist node bytes, h.fits⟩
    · contradiction
    · split at hs
      · obtain rfl := Option.some.inj hs
        exact ⟨hc.statistics _ _ _ _ _, hb.statistics _ _ _ _ _, fits_insert h hle⟩
      · split_ifs at hs with hr
        obtain rfl := Option.some.inj hs
        obtain ⟨hc', hb'⟩ := Accounted.allocateNode
          (hc.statistics _ _ _ (add 64 s.pool.poolMisses 1) _)
          (hb.statistics _ _ _ (add 64 s.pool.poolMisses 1) _) category hr hle
        exact ⟨hc', hb', h.fits⟩

theorem step_accounted {s s' : PoolSystem} {a : PoolAction} (h : s.Accounted)
    (hs : step s a = some s') : s'.Accounted := by
  cases a with
  | acquire t bytes category stream result => exact step_accounted_acquire h hs
  | acquirePurge t =>
    simp only [step] at hs
    split at hs
    · rename_i bucketSize bytes category ht
      obtain rfl := Option.some.inj hs
      have hle : bytes ≤ bucketSize := h.fits t _ ht
      exact ⟨h.purge.counted, h.purge.bucketed, fits_insert h hle⟩
    · contradiction
  | acquireRetry t result =>
    simp only [step] at hs
    split at hs
    · rename_i bucketSize bytes category ht
      have hle : bytes ≤ bucketSize := h.fits t _ ht
      have hc := h.counted.statistics s.pool.peakPooledBytes s.pool.totalAllocations
        s.pool.poolHits s.pool.poolMisses (add 32 s.pool.oomPurgeRecoveries 1)
      have hb := h.bucketed.statistics s.pool.peakPooledBytes s.pool.totalAllocations
        s.pool.poolHits s.pool.poolMisses (add 32 s.pool.oomPurgeRecoveries 1)
      split at hs
      · obtain rfl := Option.some.inj hs
        exact ⟨hc, hb, fits_erase h t⟩
      · split_ifs at hs with hr
        obtain rfl := Option.some.inj hs
        obtain ⟨hc', hb'⟩ := Accounted.allocateNode hc hb category hr hle
        exact ⟨hc', hb', fits_erase h t⟩
    · contradiction
  | release t ptr stream =>
    simp only [step] at hs
    split_ifs at hs
    obtain rfl := Option.some.inj hs
    exact ⟨h.counted.release ptr, h.bucketed.release ptr, h.fits⟩
  | purgeFreeBuffers t stream =>
    simp only [step] at hs
    split_ifs at hs
    exact Option.some.inj hs ▸ h.purge
  | resetStats t =>
    simp only [step] at hs
    split_ifs at hs
    obtain rfl := Option.some.inj hs
    exact ⟨h.counted.statistics _ _ _ _ _, h.bucketed.statistics _ _ _ _ _, h.fits⟩

/-- A pointer that `acquire` returns was free or new before, and is in use afterwards. -/
def Exclusive (s s' : PoolSystem) (ptr : DevicePtr) : Prop :=
  (∀ node, s.pool.poolNodes.lookup ptr = some node → node.inUse = false) ∧
    ∃ node, s'.pool.poolNodes.lookup ptr = some node ∧ node.inUse = true

theorem exclusive_allocateNode {s : PoolSystem} (h : s.Accounted) {pool : BufferPool}
    (hp : pool.poolNodes = s.pool.poolNodes) {ptr : DevicePtr} {bucketSize bytes : ℕ}
    {category : MemoryCategory} (hr : AllocatorReturns s.allocations ptr bucketSize) :
    Exclusive s (s.allocateNode pool ptr bucketSize bytes category) ptr := by
  constructor
  · intro node hn
    exact absurd (mem_of_lookup hn) (h.counted.notMem hr.2.1)
  · simp only [allocateNode, recordNode, hp, AList.lookup_insert]
    exact ⟨_, rfl, rfl⟩

theorem step_exclusive {s s' : PoolSystem} {a : PoolAction} {ptr : DevicePtr} (h : s.Accounted)
    (hs : step s a = some s') (ha : acquired s a = some ptr) : Exclusive s s' ptr := by
  cases a with
  | acquire t bytes category stream result =>
    simp only [step] at hs
    simp only [acquired] at ha
    split_ifs at hs ha
    obtain ⟨bucketSize, hbucket, ha⟩ := Option.bind_eq_some_iff.mp ha
    simp only [hbucket] at hs
    split at hs
    · rename_i q pool hit
      simp only [hit] at ha
      obtain rfl := Option.some.inj ha
      obtain rfl := Option.some.inj hs
      obtain ⟨rest, node, -, hn, rfl⟩ := searchBucket_hit hit
      obtain ⟨free, hfree, huse, -⟩ := (h.bucketed.statistics _ _ _ _ _).hit_free hit
      constructor
      · intro other hother
        rw [Option.some.inj (hother.symm.trans hfree)]
        exact huse
      · simp only [reuseNode, AList.lookup_insert]
        exact ⟨_, rfl, rfl⟩
    · contradiction
    · rename_i miss
      simp only [miss] at ha
      subst ha
      simp only at hs
      split_ifs at hs with hr
      obtain rfl := Option.some.inj hs
      exact exclusive_allocateNode h rfl hr
  | acquireRetry t result =>
    simp only [step] at hs
    obtain rfl : result = some ptr := ha
    split at hs
    · simp only at hs
      split_ifs at hs with hr
      obtain rfl := Option.some.inj hs
      exact exclusive_allocateNode h rfl hr
    · contradiction
  | _ => cases ha

/-- Both fragmentation ratios are proportions, however the divisions are rounded. -/
theorem getStats_ratios {p : BufferPool} {allocations : FiniteMap DevicePtr ℕ}
    (hc : p.Counted allocations) (hb : p.Bucketed) (fl : Rounding) :
    let stats := p.getStats fl
    (0 ≤ stats.internalFragmentationRatio ∧ stats.internalFragmentationRatio ≤ 1) ∧
      0 ≤ stats.externalFragmentationRatio ∧ stats.externalFragmentationRatio ≤ 1 := by
  have hreq : p.totalRequestedBytes ≤ p.activeBytes := by
    rw [hc.requested_eq, hc.active_eq]
    exact hc.requested_le
  simp only [getStats]
  constructor
  · split_ifs with hactive
    · exact fl.oneMinusRatio_mem hreq hactive
    · exact ⟨le_rfl, zero_le_one⟩
  · split_ifs with hfree
    · exact fl.oneMinusRatio_mem (largestFreeBlock_le hc hb) hfree
    · exact ⟨le_rfl, zero_le_one⟩

/-- A free node's pointer is listed once, under its capacity. -/
theorem bucket_count_eq {p : BufferPool} (h : p.Bucketed) {ptr : DevicePtr}
    {node : PooledBufferNode} (hn : p.poolNodes.lookup ptr = some node)
    (huse : node.inUse = false) (bucketSize : ℕ) :
    (p.bucket bucketSize).count ptr = if bucketSize = node.capacityBytes then 1 else 0 := by
  have hfree : FreeNode p.poolNodes node.capacityBytes ptr := ⟨node, hn, huse, rfl⟩
  split_ifs with hsize
  · subst hsize
    exact List.count_eq_one_of_mem (h.nodup _) ((h.mem_iff _ _).mpr hfree)
  · exact List.count_eq_zero.mpr fun hmem => hsize (((h.mem_iff _ _).mp hmem).unique hfree)

/-- After any interleaving of the callers' critical sections the counters are the sums over the
nodes, the buckets list each free node once and nothing else, the nodes are the live allocations,
`acquire` hands out only buffers that nobody holds, and both ratios are proportions. -/
theorem pool_exact (maxCachedBytes : ℕ) (actions : List PoolAction) (s : PoolSystem)
    (he : Transition.exec step (init maxCachedBytes) actions = some s) :
    s.pool.totalPooledBytes = s.pool.activeBytes + s.pool.freeCachedBytes ∧
    s.pool.totalPooledBytes = total nodeBytes s.pool.poolNodes ∧
    s.pool.activeBytes = total inUseBytes s.pool.poolNodes ∧
    s.pool.freeCachedBytes = total freeBytes s.pool.poolNodes ∧
    s.pool.totalRequestedBytes = total requestedBytes s.pool.poolNodes ∧
    s.pool.totalRequestedBytes ≤ s.pool.activeBytes ∧
    (∀ ptr node, s.pool.poolNodes.lookup ptr = some node → node.inUse = false →
      ∀ bucketSize, (s.pool.bucket bucketSize).count ptr =
        if bucketSize = node.capacityBytes then 1 else 0) ∧
    (∀ bucketSize ptr, ptr ∈ s.pool.bucket bucketSize →
      ∃ node, s.pool.poolNodes.lookup ptr = some node ∧ node.inUse = false) ∧
    (∀ bucketSize bytes, s.pool.searchBucket bucketSize bytes ≠ .dangling) ∧
    (∀ ptr, (s.pool.poolNodes.lookup ptr).map PooledBufferNode.capacityBytes =
      s.allocations.lookup ptr) ∧
    (∀ a s' ptr, step s a = some s' → acquired s a = some ptr → Exclusive s s' ptr) ∧
    ∀ fl : Rounding,
      let stats := s.pool.getStats fl
      (0 ≤ stats.internalFragmentationRatio ∧ stats.internalFragmentationRatio ≤ 1) ∧
        0 ≤ stats.externalFragmentationRatio ∧ stats.externalFragmentationRatio ≤ 1 := by
  have h : s.Accounted :=
    Transition.exec_preserves (fun _ _ _ h hs => step_accounted h hs)
      (init_accounted maxCachedBytes) he
  have hc := h.counted
  refine ⟨hc.pooled_eq_add, hc.pooled_eq, hc.active_eq, hc.free_eq, hc.requested_eq,
    hc.requested_eq ▸ hc.active_eq ▸ hc.requested_le,
    fun _ _ hn huse => bucket_count_eq h.bucketed hn huse,
    fun bucketSize ptr hmem => ?_, h.bucketed.searchBucket_ne_dangling, hc.allocated,
    fun _ _ _ hs ha => step_exclusive h hs ha, getStats_ratios hc h.bucketed⟩
  obtain ⟨node, hn, huse, -⟩ := (h.bucketed.mem_iff bucketSize ptr).mp hmem
  exact ⟨node, hn, huse⟩

theorem pool_exact_recovering : ∃ s,
    Transition.exec step (init 0)
      [.acquire 0 100 .kvCache 0 (some 4096), .acquire 1 300 .weights 0 (some 8192),
        .release 0 4096 0, .acquire 2 513 .activations 0 none, .acquire 0 200 .kvCache 0 none,
        .release 1 8192 0, .acquirePurge 2, .acquireRetry 2 (some 8192)] = some s ∧
    s.pool.totalPooledBytes = s.pool.activeBytes + s.pool.freeCachedBytes ∧
    s.pool.activeBytes = 1280 :=
  Transition.exec_exists (P := fun s => s.pool.activeBytes = 1280) (by decide)
    fun s hs hactive => ⟨(pool_exact 0 _ s hs).1, hactive⟩

end PoolSystem
end CudaForge.Memory
