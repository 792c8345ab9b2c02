import CudaForge.Memory.PoolAccounting

/-! What one critical section of the pool does to its nodes, its buckets and the bytes in use. -/
namespace CudaForge.Memory
open MachineWord FiniteMap BufferPool

inductive PoolEvent where
  | idle
  | reused (ptr : DevicePtr) (bucketSize : ℕ)
  | allocated (ptr : DevicePtr) (bucketSize : ℕ) (category : MemoryCategory)
  | released (ptr : DevicePtr) (bucketSize : ℕ)
  | purged
  deriving DecidableEq

/-- The sizes of the buckets: powers of two from 256 on. -/
def IsBucketSize (bucketSize : ℕ) : Prop := ∃ k < 56, bucketSize = 2 ^ (8 + k)

theorem IsBucketSize.pos {bucketSize : ℕ} (h : IsBucketSize bucketSize) : 0 < bucketSize := by
  obtain ⟨k, -, rfl⟩ := h
  positivity

theorem bucketLoop_isBucketSize {bytes fuel power bucketSize : ℕ} (hb : 0 < bytes)
    (hp : power = 0 ∨ IsBucketSize power)
    (h : bucketLoop bytes fuel power = some bucketSize) : IsBucketSize bucketSize := by
  induction fuel generalizing power with
  | zero => cases h
  | succ fuel ih =>
    unfold bucketLoop at h
    split_ifs at h with hlt
    · apply ih _ h
      rcases hp with rfl | ⟨k, hk, rfl⟩
      · exact Or.inl rfl
      · by_cases hlast : k = 55
        · subst hlast
          left
          decide
        · right
          refine ⟨k + 1, by omega, ?_⟩
          have hpow : 2 * 2 ^ (8 + k) = 2 ^ (8 + (k + 1)) := by ring
          have hbound : 2 ^ (8 + (k + 1)) < 2 ^ 64 := Nat.pow_lt_pow_right (by decide) (by omega)
          unfold shl
          rw [hpow, Nat.mod_eq_of_lt hbound]
    · obtain rfl := Option.some.inj h
      exact hp.resolve_left (by omega)

theorem calculateBucketSize_isBucketSize {bytes bucketSize : ℕ} (hb : bytes ≠ 0)
    (h : calculateBucketSize bytes = some bucketSize) : IsBucketSize bucketSize := by
  unfold calculateBucketSize at h
  rw [if_neg hb] at h
  exact bucketLoop_isBucketSize (Nat.pos_of_ne_zero hb) (Or.inr ⟨0, by decide, rfl⟩) h

def AcquireCall.bucketSize : AcquireCall → ℕ
  | .purgePending bucketSize _ _ => bucketSize
  | .retryPending bucketSize _ _ => bucketSize

namespace PoolSystem

def eventOf (s : PoolSystem) : PoolAction → PoolEvent
  | .acquire _ bytes category _ result =>
    if bytes = 0 then .idle
    else match calculateBucketSize bytes with
      | none => .idle
      | some bucketSize =>
        match s.pool.bucket bucketSize, result with
        | ptr :: _, _ => .reused ptr bucketSize
        | [], some ptr => .allocated ptr bucketSize category
        | [], none => .idle
  | .acquirePurge _ => .purged
  | .acquireRetry t result =>
    match s.calls.lookup t, result with
    | some (.retryPending bucketSize _ category), some ptr => .allocated ptr bucketSize category
    | _, _ => .idle
  | .release _ ptr _ =>
    match s.pool.poolNodes.lookup ptr with
    | none => .idle
    | some node => if node.inUse then .released ptr node.capacityBytes else .idle
  | .purgeFreeBuffers _ _ => .purged
  | .resetStats _ => .idle

theorem eventOf_acquireRetry (s : PoolSystem) (t : ThreadId) (result : Option DevicePtr) :
    eventOf s (.acquireRetry t result) = .idle ∨ ∃ ptr bucketSize category,
      eventOf s (.acquireRetry t result) = .allocated ptr bucketSize category := by
  unfold eventOf
  dsimp only
  split
  · exact Or.inr ⟨_, _, _, rfl⟩
  · exact Or.inl rfl

theorem eventOf_release (s : PoolSystem) (t : ThreadId) (ptr : DevicePtr) (stream : CudaStream) :
    eventOf s (.release t ptr stream) = .idle ∨ ∃ bucketSize,
      eventOf s (.release t ptr stream) = .released ptr bucketSize := by
  unfold eventOf
  dsimp only
  split
  · exact Or.inl rfl
  · split_ifs
    · exact Or.inr ⟨_, rfl⟩
    · exact Or.inl rfl

structure Idle (s s' : PoolSystem) : Prop where
  nodes : s'.pool.poolNodes = s.pool.poolNodes
  buckets : ∀ size, s'.pool.bucket size = s.pool.bucket size
  active : s'.pool.activeBytes = s.pool.activeBytes

/-- The buffer at the back of a bucket is handed out again. -/
structure Reuse (s s' : PoolSystem) (ptr : DevicePtr) (bucketSize : ℕ)
    (node node' : PooledBufferNode) (rest : List DevicePtr) : Prop where
  bucket : s.pool.bucket bucketSize = ptr :: rest
  lookup : s.pool.poolNodes.lookup ptr = some node
  free : node.inUse = false
  capacity : node.capacityBytes = bucketSize
  nodes : s'.pool.poolNodes = s.pool.poolNodes.insert ptr node'
  inUse : node'.inUse = true
  capacity' : node'.capacityBytes = bucketSize
  category : node'.category = node.category
  buckets : ∀ size, s'.pool.bucket size = if size = bucketSize then rest else s.pool.bucket size
  active : s'.pool.activeBytes = s.pool.activeBytes + bucketSize

structure Allocation (s s' : PoolSystem) (ptr : DevicePtr) (bucketSize : ℕ)
    (category : MemoryCategory) (node : PooledBufferNode) : Prop where
  nonNull : ptr ≠ 0
  fresh : s.pool.poolNodes.lookup ptr = none
  nodes : s'.pool.poolNodes = s.pool.poolNodes.insert ptr node
  inUse : node.inUse = true
  capacity : node.capacityBytes = bucketSize
  category : node.category = category
  isBucketSize : IsBucketSize bucketSize
  buckets : ∀ size, s'.pool.bucket size = s.pool.bucket size
  active : s'.pool.activeBytes = s.pool.activeBytes + bucketSize

/-- A buffer in use goes to the back of its bucket. -/
structure Releasing (s s' : PoolSystem) (ptr : DevicePtr) (bucketSize : ℕ)
    (node : PooledBufferNode) : Prop where
  lookup : s.pool.poolNodes.lookup ptr = some node
  inUse : node.inUse = true
  capacity : node.capacityBytes = bucketSize
  nodes : s'.pool.poolNodes = s.pool.poolNodes.insert ptr { node with inUse := false }
  buckets : ∀ size, s'.pool.bucket size =
    if size = bucketSize then ptr :: s.pool.bucket size else s.pool.bucket size
  active : s'.pool.activeBytes + bucketSize = s.pool.activeBytes

structure Purging (s s' : PoolSystem) : Prop where
  lookup : ∀ ptr, s'.pool.poolNodes.lookup ptr =
    (s.pool.poolNodes.lookup ptr).filter PooledBufferNode.inUse
  buckets : ∀ size, s'.pool.bucket size = []
  active : s'.pool.activeBytes = s.pool.activeBytes

def Effect (s s' : PoolSystem) : PoolEvent → Prop
  | .idle => Idle s s'
  | .reused ptr bucketSize => ∃ node node' rest, Reuse s s' ptr bucketSize node node' rest
  | .allocated ptr bucketSize category => ∃ node, Allocation s s' ptr bucketSize category node
  | .released ptr bucketSize => ∃ node, Releasing s s' ptr bucketSize node
  | .purged => Purging s s'

/-- The accounting invariant, with what the nodes and the pending calls refer to. -/
structure Sound (s : PoolSystem) : Prop extends Accounted s where
  nonNull : s.pool.poolNodes.lookup 0 = none
  sizes : ∀ ptr node, s.pool.poolNodes.lookup ptr = some node → IsBucketSize node.capacityBytes
  pending : ∀ t call, s.calls.lookup t = some call → IsBucketSize call.bucketSize

theorem init_sound (maxCachedBytes : ℕ) : (init maxCachedBytes).Sound where
  toAccounted := init_accounted maxCachedBytes
  nonNull := rfl
  sizes _ _ h := by simp [init, BufferPool.init] at h
  pending _ _ h := by simp [init] at h

section Effects
variable {s s' : PoolSystem}

theorem purgeStep_active (acc : Purge) (ptr : DevicePtr) :
    (purgeStep acc ptr).pool.activeBytes = acc.pool.activeBytes := by
  unfold purgeStep
  split <;> rfl

theorem purge_active (ptrs : List DevicePtr) (acc : Purge) :
    (ptrs.foldl purgeStep acc).pool.activeBytes = acc.pool.activeBytes := by
  induction ptrs generalizing acc with
  | nil => rfl
  | cons ptr rest ih => rw [List.foldl_cons, ih, purgeStep_active]

/-- The buckets list exactly the free nodes, so these are what a purge removes. -/
theorem Accounted.purging (h : s.Accounted) : Purging s s.purge where
  lookup ptr := by
    show (s.pool.freePtrs.foldl purgeStep ⟨s.pool, 0, []⟩).pool.poolNodes.lookup ptr = _
    rw [purge_lookup]
    cases hn : s.pool.poolNodes.lookup ptr with
    | none => simp
    | some node =>
      have hmem : ptr ∈ s.pool.freePtrs ↔ node.inUse = false := by
        rw [mem_freePtrs]
        constructor
        · rintro ⟨size, hsize⟩
          obtain ⟨node', hn', huse, -⟩ := (h.bucketed.mem_iff _ _).mp hsize
          rw [Option.some.inj (hn.symm.trans hn')]
          exact huse
        · intro huse
          exact ⟨node.capacityBytes, (h.bucketed.mem_iff _ _).mpr ⟨node, hn, huse, rfl⟩⟩
      cases huse : node.inUse <;> simp [hmem, huse, Option.filter]
  buckets _ := rfl
  active := purge_active _ _

theorem mem_purge_freed (ptrs : List DevicePtr) (acc : Purge) (ptr : DevicePtr) :
    ptr ∈ (ptrs.foldl purgeStep acc).freed ↔
      ptr ∈ acc.freed ∨ ptr ∈ ptrs ∧ acc.pool.poolNodes.lookup ptr ≠ none := by
  induction ptrs generalizing acc with
  | nil => simp
  | cons q rest ih =>
    rw [List.foldl_cons, ih, purgeStep_lookup]
    have hfreed : ptr ∈ (purgeStep acc q).freed ↔
        ptr ∈ acc.freed ∨ ptr = q ∧ acc.pool.poolNodes.lookup q ≠ none := by
      unfold purgeStep
      cases hq : acc.pool.poolNodes.lookup q <;> simp
    rw [hfreed, List.mem_cons]
    by_cases hq : ptr = q
    · subst hq
      simp
    · simp [hq]

/-- A purge returns the cached buffers to the allocator. -/
theorem Accounted.mem_freed (h : s.Accounted) (ptr : DevicePtr) :
    ptr ∈ s.pool.purgeFreeBuffers.freed ↔ ∃ size, ptr ∈ s.pool.bucket size := by
  show ptr ∈ (s.pool.freePtrs.foldl purgeStep ⟨s.pool, 0, []⟩).freed ↔ _
  rw [mem_purge_freed, mem_freePtrs]
  constructor
  · rintro (hnil | ⟨hmem, -⟩)
    · cases hnil
    · exact hmem
  · rintro ⟨size, hmem⟩
    obtain ⟨node, hn, -, -⟩ := (h.bucketed.mem_iff _ _).mp hmem
    exact Or.inr ⟨⟨size, hmem⟩, by simp [hn]⟩

theorem Accounted.active_add (h : s.Accounted) {ptr : DevicePtr} {bucketSize : ℕ}
    (hr : AllocatorReturns s.allocations ptr bucketSize) :
    add 64 s.pool.activeBytes bucketSize = s.pool.activeBytes + bucketSize := by
  have hle := h.counted.nodeBytes_le
  have hsplit := h.counted.pooled_eq_add
  have hpooled := h.counted.pooled_eq
  have hroom := hr.2.2
  exact add_eq (by omega)

theorem Accounted.allocation (h : s.Accounted) {pool : BufferPool} {ptr : DevicePtr}
    {bucketSize bytes : ℕ} {category : MemoryCategory}
    (hr : AllocatorReturns s.allocations ptr bucketSize) (hsize : IsBucketSize bucketSize)
    (hs : s'.pool = pool.recordNode ptr bucketSize bytes category)
    (hnodes : pool.poolNodes = s.pool.poolNodes) (hbuckets : pool.freeBuckets = s.pool.freeBuckets)
    (hactive : pool.activeBytes = s.pool.activeBytes) :
    ∃ node, Allocation s s' ptr bucketSize category node := by
  refine ⟨⟨ptr, bucketSize, bytes, category, true, add 64 pool.frameCounter 1⟩, hr.1,
    AList.lookup_eq_none.mpr (h.counted.notMem hr.2.1), ?_, rfl, rfl, rfl, hsize, ?_, ?_⟩
  · rw [hs, ← hnodes]
    rfl
  · intro size
    rw [hs]
    simp only [bucket, recordNode, hbuckets]
  · rw [hs, ← h.active_add hr, ← hactive]
    rfl

theorem searchBucket_cons {p : BufferPool} {bucketSize bytes : ℕ} {ptr : DevicePtr}
    {rest : List DevicePtr} {node : PooledBufferNode} (hlist : p.bucket bucketSize = ptr :: rest)
    (hn : p.poolNodes.lookup ptr = some node) :
    p.searchBucket bucketSize bytes =
      .hit ptr (p.reuseNode bucketSize bytes ptr rest node) := by
  unfold bucket at hlist
  unfold searchBucket
  cases hl : p.freeBuckets.lookup bucketSize with
  | none => simp [hl] at hlist
  | some ptrs =>
    simp only [hl, Option.getD_some] at hlist
    subst hlist
    simp only [hn]

theorem searchBucket_nil {p : BufferPool} {bucketSize bytes : ℕ}
    (hlist : p.bucket bucketSize = []) : p.searchBucket bucketSize bytes = .miss := by
  unfold bucket at hlist
  unfold searchBucket
  cases hl : p.freeBuckets.lookup bucketSize with
  | none => rfl
  | some ptrs =>
    simp only [hl, Option.getD_some] at hlist
    subst hlist
    rfl

/-- An acquire, which has counted itself, finds the top of the bucket or misses. -/
theorem Accounted.search (h : s.Accounted) (bucketSize bytes : ℕ) {pool : BufferPool}
    (hpool : pool = { s.pool with totalAllocations := add 64 s.pool.totalAllocations 1 }) :
    (∃ ptr rest node, s.pool.bucket bucketSize = ptr :: rest ∧
      s.pool.poolNodes.lookup ptr = some node ∧ node.inUse = false ∧
      node.capacityBytes = bucketSize ∧
      pool.searchBucket bucketSize bytes =
        .hit ptr (pool.reuseNode bucketSize bytes ptr rest node)) ∨
    s.pool.bucket bucketSize = [] ∧ pool.searchBucket bucketSize bytes = .miss := by
  subst hpool
  cases hlist : s.pool.bucket bucketSize with
  | cons ptr rest =>
    obtain ⟨node, hn, huse, hcap⟩ :=
      (h.bucketed.mem_iff bucketSize ptr).mp (hlist ▸ List.mem_cons_self)
    exact Or.inl ⟨ptr, rest, node, rfl, hn, huse, hcap, searchBucket_cons hlist hn⟩
  | nil => exact Or.inr ⟨rfl, searchBucket_nil hlist⟩

theorem step_effect_acquire {t : ThreadId} {bytes : ℕ} {category : MemoryCategory}
    {stream : CudaStream} {result : Option DevicePtr} (h : s.Accounted)
    (hs : step s (.acquire t bytes category stream result) = some s') :
    Effect s s' (eventOf s (.acquire t bytes category stream result)) := by
  simp only [step] at hs
  simp only [eventOf]
  by_cases hmem : t ∈ s.calls
  · rw [if_pos hmem] at hs
    cases hs
  rw [if_neg hmem] at hs
  by_cases hbytes : bytes = 0
  · rw [if_pos hbytes] at hs ⊢
    obtain rfl := Option.some.inj hs
    exact ⟨rfl, fun _ => rfl, rfl⟩
  rw [if_neg hbytes] at hs ⊢
  cases hsize : calculateBucketSize bytes with
  | none =>
    rw [hsize] at hs
    cases hs
  | some bucketSize =>
    have hvalid := calculateBucketSize_isBucketSize hbytes hsize
    simp only [hsize] at hs ⊢
    rcases h.search bucketSize bytes rfl with
      ⟨ptr, rest, node, hlist, hn, huse, hcap, hsearch⟩ | ⟨hlist, hsearch⟩
    · rw [hsearch] at hs
      rw [hlist]
      obtain rfl := Option.some.inj hs
      have hmoved := h.counted.moved_le hn
      have hcached : bucketSize ≤ s.pool.freeCachedBytes := by
        simpa [freeBytes, huse, hcap] using hmoved.2.1
      have hadd : add 64 s.pool.activeBytes bucketSize = s.pool.activeBytes + bucketSize :=
        add_eq (by omega)
      exact ⟨node, { node with
        inUse := true
        requestedBytes := bytes
        lastUsedFrame := add 64 s.pool.frameCounter 1 }, rest, hlist, hn, huse, hcap, rfl, rfl,
        hcap, rfl, bucket_insert _ _ rfl, hadd⟩
    · rw [hsearch] at hs
      rw [hlist]
      cases result with
      | none =>
        obtain rfl := Option.some.inj hs
        exact ⟨rfl, fun _ => rfl, rfl⟩
      | some ptr =>
        simp only at hs
        split_ifs at hs with hr
        obtain rfl := Option.some.inj hs
        exact h.allocation hr hvalid rfl rfl rfl rfl

theorem step_effect_release {t : ThreadId} {ptr : DevicePtr} {stream : CudaStream} (h : s.Sound)
    (hs : step s (.release t ptr stream) = some s') :
    Effect s s' (eventOf s (.release t ptr stream)) := by
  simp only [step] at hs
  split_ifs at hs
  obtain rfl := Option.some.inj hs
  simp only [eventOf]
  cases hn : s.pool.poolNodes.lookup ptr with
  | none =>
    have hsame : s.pool.release ptr = s.pool := by
      unfold BufferPool.release
      rw [hn]
      exact ite_self _
    simp only [hsame]
    exact ⟨rfl, fun _ => rfl, rfl⟩
  | some node =>
    have hnull : ptr ≠ 0 := by
      rintro rfl
      rw [h.nonNull] at hn
      cases hn
    cases huse : node.inUse with
    | false =>
      have hsame : s.pool.release ptr = s.pool := by
        unfold BufferPool.release
        simp [hnull, hn, huse]
      simp only [hsame, huse, Bool.false_eq_true, if_false]
      exact ⟨rfl, fun _ => rfl, rfl⟩
    | true =>
      have hrelease : s.pool.release ptr =
          { s.pool with
            poolNodes := s.pool.poolNodes.insert ptr { node with inUse := false }
            activeBytes := sub 64 s.pool.activeBytes node.capacityBytes
            totalRequestedBytes := sub 64 s.pool.totalRequestedBytes node.requestedBytes
            freeCachedBytes := add 64 s.pool.freeCachedBytes node.capacityBytes
            freeBuckets := s.pool.freeBuckets.insert node.capacityBytes
              (ptr :: s.pool.bucket node.capacityBytes) } := by
        unfold BufferPool.release
        simp only [hnull, hn, huse, if_false, Bool.true_eq_false, bucket]
      have hmoved := h.counted.moved_le hn
      have hle : node.capacityBytes ≤ s.pool.activeBytes := by
        simpa [inUseBytes, huse] using hmoved.1
      simp only [hrelease, huse, if_true]
      refine ⟨node, hn, huse, rfl, rfl, ?_, ?_⟩
      · intro size
        rw [bucket_insert s.pool _ rfl]
        split_ifs with hsize
        · rw [hsize]
        · rfl
      · show sub 64 s.pool.activeBytes node.capacityBytes + node.capacityBytes = _
        rw [sub_eq hle (by omega)]
        omega

/-- One critical section has the effect of its event. -/
theorem step_effect {a : PoolAction} (h : s.Sound) (hs : step s a = some s') :
    Effect s s' (eventOf s a) := by
  cases a with
  | acquire t bytes category stream result => exact step_effect_acquire h.toAccounted hs
  | release t ptr stream => exact step_effect_release h hs
  | acquirePurge t =>
    simp only [step] at hs
    split at hs
    · obtain rfl := Option.some.inj hs
      have hpurge := h.toAccounted.purging
      exact ⟨hpurge.lookup, hpurge.buckets, hpurge.active⟩
    · cases hs
  | acquireRetry t result =>
    simp only [step] at hs
    simp only [eventOf]
    split at hs
    · rename_i bucketSize bytes category ht
      have hvalid : IsBucketSize bucketSize := h.pending t _ ht
      simp only [ht]
      cases result with
      | none =>
        obtain rfl := Option.some.inj hs
        exact ⟨rfl, fun _ => rfl, rfl⟩
      | some ptr =>
        simp only at hs
        split_ifs at hs with hr
        obtain rfl := Option.some.inj hs
        exact h.toAccounted.allocation hr hvalid rfl rfl rfl rfl
    · cases hs
  | purgeFreeBuffers t stream =>
    simp only [step] at hs
    split_ifs at hs
    obtain rfl := Option.some.inj hs
    exact h.toAccounted.purging
  | resetStats t =>
    simp only [step] at hs
    split_ifs at hs
    obtain rfl := Option.some.inj hs
    exact ⟨rfl, fun _ => rfl, rfl⟩

/-- A node keeps its capacity from its allocation on. -/
theorem Effect.lookup_some {e : PoolEvent} (he : Effect s s' e) {ptr : DevicePtr}
    {node' : PooledBufferNode} (hn : s'.pool.poolNodes.lookup ptr = some node') :
    (∃ node, s.pool.poolNodes.lookup ptr = some node ∧
      node.capacityBytes = node'.capacityBytes) ∨ ptr ≠ 0 ∧ IsBucketSize node'.capacityBytes := by
  cases e with
  | idle =>
    rw [he.nodes] at hn
    exact Or.inl ⟨node', hn, rfl⟩
  | reused q bucketSize =>
    obtain ⟨node, next, rest, he⟩ := he
    rw [he.nodes, lookup_insert_ite] at hn
    split_ifs at hn with hq
    · obtain rfl := Option.some.inj hn
      exact Or.inl ⟨node, hq ▸ he.lookup, he.capacity.trans he.capacity'.symm⟩
    · exact Or.inl ⟨node', hn, rfl⟩
  | allocated q bucketSize category =>
    obtain ⟨next, he⟩ := he
    rw [he.nodes, lookup_insert_ite] at hn
    split_ifs at hn with hq
    · obtain rfl := Option.some.inj hn
      exact Or.inr ⟨hq ▸ he.nonNull, he.capacity ▸ he.isBucketSize⟩
    · exact Or.inl ⟨node', hn, rfl⟩
  | released q bucketSize =>
    obtain ⟨node, he⟩ := he
    rw [he.nodes, lookup_insert_ite] at hn
    split_ifs at hn with hq
    · obtain rfl := Option.some.inj hn
      exact Or.inl ⟨node, hq ▸ he.lookup, rfl⟩
    · exact Or.inl ⟨node', hn, rfl⟩
  | purged =>
    rw [he.lookup] at hn
    obtain ⟨hn, -⟩ := Option.filter_eq_some_iff.mp hn
    exact Or.inl ⟨node', hn, rfl⟩

theorem step_acquireRetry_calls {t : ThreadId} {result : Option DevicePtr}
    (hs : step s (.acquireRetry t result) = some s') : s'.calls = s.calls.erase t := by
  simp only [step] at hs
  split at hs
  · split at hs
    · exact Option.some.inj hs ▸ rfl
    · split_ifs at hs
      exact Option.some.inj hs ▸ rfl
  · cases hs

theorem step_pending {a : PoolAction} (h : s.Sound) (hs : step s a = some s') :
    ∀ t call, s'.calls.lookup t = some call → IsBucketSize call.bucketSize := by
  intro t call ht
  cases a with
  | acquire u bytes category stream result =>
    simp only [step] at hs
    split_ifs at hs with hmem hbytes
    · obtain rfl := Option.some.inj hs
      exact h.pending t call ht
    split at hs
    · cases hs
    · rename_i bucketSize hsize
      have hvalid := calculateBucketSize_isBucketSize hbytes hsize
      split at hs
      · obtain rfl := Option.some.inj hs
        exact h.pending t call ht
      · cases hs
      · split at hs
        · obtain rfl := Option.some.inj hs
          rw [lookup_insert_ite] at ht
          split_ifs at ht
          · exact Option.some.inj ht ▸ hvalid
          · exact h.pending t call ht
        · split_ifs at hs
          obtain rfl := Option.some.inj hs
          exact h.pending t call ht
  | acquirePurge u =>
    simp only [step] at hs
    split at hs
    · rename_i bucketSize bytes category hu
      obtain rfl := Option.some.inj hs
      rw [lookup_insert_ite] at ht
      split_ifs at ht
      · have hvalid : IsBucketSize bucketSize := h.pending u _ hu
        exact Option.some.inj ht ▸ hvalid
      · exact h.pending t call ht
    · cases hs
  | acquireRetry u result =>
    rw [step_acquireRetry_calls hs, lookup_erase_ite] at ht
    split_ifs at ht
    exact h.pending t call ht
  | release u ptr stream =>
    simp only [step] at hs
    split_ifs at hs
    obtain rfl := Option.some.inj hs
    exact h.pending t call ht
  | purgeFreeBuffers u stream =>
    simp only [step] at hs
    split_ifs at hs
    obtain rfl := Option.some.inj hs
    exact h.pending t call ht
  | resetStats u =>
    simp only [step] at hs
    split_ifs at hs
    obtain rfl := Option.some.inj hs
    exact h.pending t call ht

theorem step_sound {a : PoolAction} (h : s.Sound) (hs : step s a = some s') : s'.Sound where
  toAccounted := step_accounted h.toAccounted hs
  nonNull := by
    cases hn : s'.pool.poolNodes.lookup 0 with
    | none => rfl
    | some node' =>
      rcases (step_effect h hs).lookup_some hn with ⟨node, hold, -⟩ | ⟨hnull, -⟩
      · rw [h.nonNull] at hold
        cases hold
      · exact absurd rfl hnull
  sizes ptr node' hn := by
    rcases (step_effect h hs).lookup_some hn with ⟨node, hold, hcap⟩ | ⟨-, hsize⟩
    · exact hcap ▸ h.sizes ptr node hold
    · exact hsize
  pending := step_pending h hs

end Effects
end PoolSystem
end CudaForge.Memory
