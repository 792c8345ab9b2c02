import CudaForge.Memory.CategoryAccounting

/-!
The pool over its block allocator and the VRAM safety limit. The pool calls the allocator under its
own mutex, so no other thread comes between the allocator's budget check and its record.
-/
namespace CudaForge.Memory
open MachineWord FiniteMap BufferPool PoolSystem

namespace CategorySystem
variable {s s' : CategorySystem} {threshold : ℕ}

structure Mirrored (s : CategorySystem) : Prop where
  sound : s.base.Sound
  counted : s.allocator.Counted
  handles : ∀ ptr, (s.allocator.activeAllocations.lookup ptr).map
      (fun handle => (handle.sizeBytes, handle.category)) =
    (s.base.pool.poolNodes.lookup ptr).map fun node => (node.capacityBytes, node.category)

/-- The allocator mirrors the pool and never held more than the limit. -/
structure Backed (threshold : ℕ) (s : CategorySystem) : Prop extends Mirrored s where
  limit : s.allocator.vramSafetyThresholdBytes = threshold
  total_le_peak : s.allocator.totalAllocatedBytes ≤ s.allocator.peakAllocatedBytes
  peak_le : s.allocator.peakAllocatedBytes ≤ threshold

theorem init_backed (maxCachedBytes threshold : ℕ) :
    (init maxCachedBytes threshold).Backed threshold where
  sound := init_sound maxCachedBytes
  counted := ⟨rfl, fun _ => rfl⟩
  handles _ := rfl
  limit := rfl
  total_le_peak := Nat.le_refl 0
  peak_le := Nat.zero_le threshold

/-- The system as if every owner had asked for the category of its buffer. -/
def settled (s : CategorySystem) : CategorySystem :=
  { s with asked := fun ptr =>
      ((s.base.pool.poolNodes.lookup ptr).map PooledBufferNode.category).getD .workspace }

theorem Mirrored.consistent (h : s.Mirrored) : s.settled.Consistent where
  sound := h.sound
  counted := h.counted
  handles := h.handles
  asked ptr node hn huse := by
    have hn' : s.base.pool.poolNodes.lookup ptr = some node := hn
    simp [settled, hn']

/-- What the allocator counts is what the pool counts. -/
theorem Mirrored.total_eq (h : s.Mirrored) :
    s.allocator.totalAllocatedBytes = s.base.pool.totalPooledBytes := by
  rw [h.counted.total_eq, h.sound.counted.pooled_eq]
  apply Nat.le_antisymm h.consistent.handleBytes_le
  apply total_le_total
  intro ptr node hn
  obtain ⟨handle, hl, hsize, -⟩ := h.consistent.handle_of_node hn
  exact ⟨handle, hl, hsize.ge⟩

theorem freeErase_keeps (a : BlockAllocator) (ptr : DevicePtr) :
    ((a.freeErase ptr).getD a).vramSafetyThresholdBytes = a.vramSafetyThresholdBytes ∧
      ((a.freeErase ptr).getD a).peakAllocatedBytes = a.peakAllocatedBytes := by
  unfold BlockAllocator.freeErase
  split_ifs
  · exact ⟨rfl, rfl⟩
  · cases a.activeAllocations.lookup ptr <;> exact ⟨rfl, rfl⟩

theorem freeAll_keeps (a : BlockAllocator) (ptrs : List DevicePtr) :
    (freeAll a ptrs).vramSafetyThresholdBytes = a.vramSafetyThresholdBytes ∧
      (freeAll a ptrs).peakAllocatedBytes = a.peakAllocatedBytes := by
  induction ptrs generalizing a with
  | nil => exact ⟨rfl, rfl⟩
  | cons ptr ptrs ih =>
    obtain ⟨hlimit, hpeak⟩ := ih ((a.freeErase ptr).getD a)
    obtain ⟨hlimit', hpeak'⟩ := freeErase_keeps a ptr
    exact ⟨hlimit.trans hlimit', hpeak.trans hpeak'⟩

/-- The nodes after a purge are among those before it. -/
theorem Purging.total_le {p p' : PoolSystem} (h : Purging p p') :
    total nodeBytes p'.pool.poolNodes ≤ total nodeBytes p.pool.poolNodes := by
  apply total_le_total
  intro ptr node hn
  rw [h.lookup] at hn
  exact ⟨node, (Option.filter_eq_some_iff.mp hn).1, Nat.le_refl _⟩

/-- A bucket that is recorded has passed the check, and the pool has not grown since. -/
theorem Backed.fits (h : s.Backed threshold) {base : PoolSystem} {ptr : DevicePtr}
    {bucketSize alignedBytes : ℕ} {category : MemoryCategory} {node : PooledBufferNode}
    (hsound : base.Sound) (he : Allocation s.base base ptr bucketSize category node)
    (hcheck : s.allocator.allocateCheck bucketSize = .proceeds alignedBytes) :
    add 64 s.allocator.totalAllocatedBytes bucketSize =
        s.allocator.totalAllocatedBytes + bucketSize ∧
      s.allocator.totalAllocatedBytes + bucketSize ≤ threshold := by
  have hbytes := hsound.counted.nodeBytes_lt
  have hnew : ptr ∉ s.base.pool.poolNodes := AList.lookup_eq_none.mp he.fresh
  have htotal := h.total_eq.trans h.sound.counted.pooled_eq
  have hcap := he.capacity
  rw [he.nodes, total_insert_of_notMem hnew] at hbytes
  simp only [nodeBytes] at hbytes htotal
  have hadd : add 64 s.allocator.totalAllocatedBytes bucketSize =
      s.allocator.totalAllocatedBytes + bucketSize := add_eq (by omega)
  refine ⟨hadd, ?_⟩
  have haligned := alignBytes_bucketSize he.isBucketSize
  unfold BlockAllocator.allocateCheck at hcheck
  simp only [if_neg he.isBucketSize.pos.ne', haligned, hadd, h.limit] at hcheck
  split_ifs at hcheck with hlimit
  exact Nat.le_of_not_lt hlimit

theorem Backed.allocate (h : s.Backed threshold) {base : PoolSystem} {ptr : DevicePtr}
    {bucketSize alignedBytes : ℕ} {category : MemoryCategory} {node : PooledBufferNode}
    (stream : CudaStream) (hsound : base.Sound)
    (he : Allocation s.base base ptr bucketSize category node)
    (hcheck : s.allocator.allocateCheck bucketSize = .proceeds alignedBytes)
    (callStream : ThreadId → CudaStream) (asked : DevicePtr → MemoryCategory) :
    Backed threshold ⟨base, recordAllocation s.allocator ptr bucketSize category stream,
      callStream, asked⟩ := by
  obtain ⟨hcounted, hhandles⟩ := h.consistent.recordAllocation stream hsound he hcheck
  obtain ⟨hadd, hfits⟩ := h.fits hsound he hcheck
  have haligned : alignedBytes = bucketSize :=
    (allocateCheck_proceeds hcheck).trans (alignBytes_bucketSize he.isBucketSize)
  have hrecord : recordAllocation s.allocator ptr bucketSize category stream =
      s.allocator.allocateRecord ⟨ptr, bucketSize, category, stream⟩ := by
    unfold recordAllocation
    rw [hcheck, haligned]
  refine ⟨⟨hsound, hcounted, hhandles⟩, ?_, ?_, ?_⟩
  · rw [hrecord]
    exact h.limit
  · rw [hrecord]
    exact le_max_right _ _
  · rw [hrecord]
    simp only [BlockAllocator.allocateRecord, hadd]
    exact max_le h.peak_le hfits

theorem Backed.purge (h : s.Backed threshold) {base : PoolSystem} (hsound : base.Sound)
    (he : Purging s.base base) (callStream : ThreadId → CudaStream)
    (asked : DevicePtr → MemoryCategory) :
    Backed threshold ⟨base, freeAll s.allocator s.base.pool.purgeFreeBuffers.freed,
      callStream, asked⟩ := by
  obtain ⟨hcounted, hhandles⟩ := h.consistent.freeAll he
  obtain ⟨hlimit, hpeak⟩ := freeAll_keeps s.allocator s.base.pool.purgeFreeBuffers.freed
  have hmirrored : Mirrored ⟨base, freeAll s.allocator s.base.pool.purgeFreeBuffers.freed,
      callStream, asked⟩ := ⟨hsound, hcounted, hhandles⟩
  have hless := Purging.total_le he
  rw [← hsound.counted.pooled_eq, ← h.sound.counted.pooled_eq, ← h.total_eq,
    ← hmirrored.total_eq] at hless
  exact ⟨hmirrored, hlimit.trans h.limit, hpeak.symm ▸ hless.trans h.total_le_peak,
    hpeak.trans_le h.peak_le⟩

theorem step_backed {a : PoolAction} (h : s.Backed threshold) (hs : step s a = some s') :
    s'.Backed threshold := by
  obtain ⟨base, hbase, rfl⟩ := Option.map_eq_some_iff.mp hs
  have hsound := step_sound h.sound hbase
  have heffect := step_effect h.sound hbase
  unfold allocatorAfter
  cases he : eventOf s.base (s.resolve a) with
  | idle =>
    rw [he] at heffect
    refine ⟨⟨hsound, h.counted, ?_⟩, h.limit, h.total_le_peak, h.peak_le⟩
    rw [heffect.nodes]
    exact h.handles
  | reused ptr bucketSize =>
    rw [he] at heffect
    obtain ⟨node, node', rest, heffect⟩ := heffect
    have hcapacity := heffect.capacity'.trans heffect.capacity.symm
    exact ⟨⟨hsound, h.counted,
      h.consistent.handles_insert heffect.lookup heffect.nodes hcapacity heffect.category⟩,
      h.limit, h.total_le_peak, h.peak_le⟩
  | allocated ptr bucketSize category =>
    rw [he] at heffect
    obtain ⟨node, heffect⟩ := heffect
    obtain ⟨alignedBytes, hcheck⟩ := proceeds_of_allocated he
    exact h.allocate _ hsound heffect hcheck _ _
  | released ptr bucketSize =>
    rw [he] at heffect
    obtain ⟨node, heffect⟩ := heffect
    exact ⟨⟨hsound, h.counted,
      h.consistent.handles_insert heffect.lookup heffect.nodes rfl rfl⟩,
      h.limit, h.total_le_peak, h.peak_le⟩
  | purged =>
    rw [he] at heffect
    exact h.purge hsound heffect _ _

/-- The allocator gives a bucket to the pool exactly when the pool stays within the limit. -/
theorem Backed.answer_eq (h : s.Backed threshold) {bucketSize : ℕ} (hsize : IsBucketSize bucketSize)
    (hword : s.base.pool.totalPooledBytes + bucketSize < 2 ^ 64) (driver : Option DevicePtr) :
    answer s.allocator bucketSize driver =
      if s.base.pool.totalPooledBytes + bucketSize ≤ threshold then driver else none := by
  have hadd : add 64 s.allocator.totalAllocatedBytes bucketSize =
      s.base.pool.totalPooledBytes + bucketSize := by
    rw [h.total_eq]
    exact add_eq hword
  unfold answer BlockAllocator.allocateCheck
  simp only [if_neg hsize.pos.ne', alignBytes_bucketSize hsize, hadd, h.limit]
  split_ifs with hover hfit hfit
  · exact absurd hfit hover.not_ge
  · rfl
  · rfl
  · exact absurd (Nat.le_of_not_lt hover) hfit

/-- After a purge only the buffers in use are allocated. -/
theorem Backed.purged (h : s.Backed threshold) {t : ThreadId} {stream : CudaStream}
    (hs : step s (.purgeFreeBuffers t stream) = some s') :
    s'.allocator.totalAllocatedBytes = s.base.pool.activeBytes := by
  have hnext := step_backed h hs
  obtain ⟨base, hbase, rfl⟩ := Option.map_eq_some_iff.mp hs
  have heffect : Purging s.base base := step_effect h.sound hbase
  have hinUse : total nodeBytes base.pool.poolNodes ≤ total inUseBytes base.pool.poolNodes := by
    apply total_le_total
    intro ptr node hn
    have hfilter := hn
    rw [heffect.lookup] at hfilter
    have huse : node.inUse = true := (Option.filter_eq_some_iff.mp hfilter).2
    refine ⟨node, hn, ?_⟩
    simp [nodeBytes, inUseBytes, huse]
  have hcounted := hnext.sound.counted
  have hsplit := hcounted.pooled_eq_add
  rw [← hcounted.pooled_eq, ← hcounted.active_eq] at hinUse
  rw [hnext.total_eq, ← heffect.active]
  show base.pool.totalPooledBytes = base.pool.activeBytes
  change base.pool.totalPooledBytes ≤ base.pool.activeBytes at hinUse
  change base.pool.totalPooledBytes = base.pool.activeBytes + base.pool.freeCachedBytes at hsplit
  omega

/-- However the calls of the pool interleave, the pool never takes more than the safety limit, and
what the allocator accounts for is what the pool holds. -/
theorem pool_within_limit {maxCachedBytes threshold : ℕ} {actions : List PoolAction}
    (he : Transition.exec step (init maxCachedBytes threshold) actions = some s) :
    s.allocator.totalAllocatedBytes = s.base.pool.activeBytes + s.base.pool.freeCachedBytes ∧
    s.allocator.totalAllocatedBytes ≤ s.allocator.peakAllocatedBytes ∧
    s.allocator.peakAllocatedBytes ≤ threshold ∧
    ∑ c, s.allocator.categoryAllocatedBytes c = s.allocator.totalAllocatedBytes ∧
    (∀ ptr, (s.allocator.activeAllocations.lookup ptr).map BlockHandle.sizeBytes =
      (s.base.pool.poolNodes.lookup ptr).map PooledBufferNode.capacityBytes) ∧
    (∀ bytes bucketSize driver, bytes ≠ 0 → calculateBucketSize bytes = some bucketSize →
      s.base.pool.totalPooledBytes + bucketSize < 2 ^ 64 →
        answer s.allocator bucketSize driver =
          if s.base.pool.totalPooledBytes + bucketSize ≤ threshold then driver else none) ∧
    ∀ t stream s', step s (.purgeFreeBuffers t stream) = some s' →
      s'.allocator.totalAllocatedBytes = s.base.pool.activeBytes := by
  have h : s.Backed threshold :=
    Transition.exec_preserves (fun _ _ _ h hs => step_backed h hs)
      (init_backed maxCachedBytes threshold) he
  refine ⟨h.total_eq.trans h.sound.counted.pooled_eq_add, h.total_le_peak, h.peak_le,
    h.counted.sum_categories, ?_, ?_, fun t stream s' hs => h.purged hs⟩
  · intro ptr
    have hhandle := congrArg (Option.map Prod.fst) (h.handles ptr)
    simpa [Option.map_map, Function.comp_def] using hhandle
  · intro bytes bucketSize driver hbytes hsize hword
    exact h.answer_eq (calculateBucketSize_isBucketSize hbytes hsize) hword driver

/-- Two acquires that race for the last bytes of the limit, of which one is refused. -/
theorem pool_within_limit_racing : ∃ s,
    Transition.exec step (init 0 768)
      [.acquire 0 300 .weights 0 (some 4096), .acquire 1 300 .weights 0 (some 8192),
        .acquire 2 100 .weights 0 (some 8192), .acquirePurge 1, .acquireRetry 1 (some 12288)] =
      some s ∧ s.base.pool.activeBytes = 768 ∧ s.allocator.peakAllocatedBytes ≤ 768 :=
  Transition.exec_exists (P := fun s => s.base.pool.activeBytes = 768) (by decide +kernel)
    fun _ hs hactive => ⟨hactive, (pool_within_limit hs).2.2.1⟩

end CategorySystem
end CudaForge.Memory
