import CudaForge.Memory.BlockAllocator
import CudaForge.Library.Rounding

/-!
The bucketed buffer pool and the interleavings of its callers.

`acquire` is one critical section unless the allocator runs out of memory: then the mutex is
dropped, `purge_free_buffers` runs as a critical section of its own, and the retry is a third one.
A vector of a bucket is a list with its back first.
-/
namespace CudaForge.Memory
open MachineWord

structure PooledBufferNode where
  ptr : DevicePtr
  capacityBytes : ℕ
  requestedBytes : ℕ
  category : MemoryCategory
  inUse : Bool
  lastUsedFrame : ℕ
  deriving DecidableEq

structure BufferPool where
  maxCachedBytes : ℕ
  poolNodes : FiniteMap DevicePtr PooledBufferNode
  freeBuckets : FiniteMap ℕ (List DevicePtr)
  totalPooledBytes : ℕ
  activeBytes : ℕ
  freeCachedBytes : ℕ
  peakPooledBytes : ℕ
  totalRequestedBytes : ℕ
  totalAllocations : ℕ
  poolHits : ℕ
  poolMisses : ℕ
  oomPurgeRecoveries : ℕ
  frameCounter : ℕ

structure BufferPoolStats where
  totalPooledBytes : ℕ
  activeBytes : ℕ
  freeCachedBytes : ℕ
  peakPooledBytes : ℕ
  totalRequestedBytes : ℕ
  internalFragmentationRatio : ℚ
  externalFragmentationRatio : ℚ
  totalAllocations : ℕ
  poolHits : ℕ
  poolMisses : ℕ
  oomPurgeRecoveries : ℕ

namespace BufferPool

def init (maxCachedBytes : ℕ) : BufferPool :=
  ⟨maxCachedBytes, ∅, ∅, 0, 0, 0, 0, 0, 0, 0, 0, 0, 0⟩

/-- `while (power < bytes) power <<= 1`; `none` when it does not leave the loop in `fuel` tests. -/
def bucketLoop (bytes : ℕ) : ℕ → ℕ → Option ℕ
  | 0, _ => none
  | fuel + 1, power => if power < bytes then bucketLoop bytes fuel (shl 64 power) else some power

/-- After 56 shifts the 64-bit `power` is zero and stays zero, so 64 tests decide the loop; `none`
means that it never ends. -/
def calculateBucketSize (bytes : ℕ) : Option ℕ :=
  if bytes = 0 then some 256 else bucketLoop bytes 64 256

/-- `attempt_allocation` when the allocator returned `ptr`; when it threw, the pool is unchanged. -/
def recordNode (p : BufferPool) (ptr : DevicePtr) (bucketBytes requestedBytes : ℕ)
    (category : MemoryCategory) : BufferPool :=
  let frame := add 64 p.frameCounter 1
  let totalPooledBytes := add 64 p.totalPooledBytes bucketBytes
  { p with
    frameCounter := frame
    poolNodes := p.poolNodes.insert ptr ⟨ptr, bucketBytes, requestedBytes, category, true, frame⟩
    totalPooledBytes := totalPooledBytes
    activeBytes := add 64 p.activeBytes bucketBytes
    totalRequestedBytes := add 64 p.totalRequestedBytes requestedBytes
    peakPooledBytes := max p.peakPooledBytes totalPooledBytes }

/-- A cache hit: `ptr` is popped from its bucket and its node is handed out again. -/
def reuseNode (p : BufferPool) (bucketSize bytes : ℕ) (ptr : DevicePtr) (rest : List DevicePtr)
    (node : PooledBufferNode) : BufferPool :=
  let frame := add 64 p.frameCounter 1
  { p with
    freeBuckets := p.freeBuckets.insert bucketSize rest
    poolNodes := p.poolNodes.insert ptr
      { node with inUse := true, requestedBytes := bytes, lastUsedFrame := frame }
    frameCounter := frame
    freeCachedBytes := sub 64 p.freeCachedBytes bucketSize
    activeBytes := add 64 p.activeBytes bucketSize
    totalRequestedBytes := add 64 p.totalRequestedBytes bytes
    poolHits := add 64 p.poolHits 1 }

/-- How the search for a cached buffer ends; `dangling` is a bucket entry without a node, which the
code would dereference. -/
inductive BucketSearch where
  | hit (ptr : DevicePtr) (pool : BufferPool)
  | miss
  | dangling

def searchBucket (p : BufferPool) (bucketSize bytes : ℕ) : BucketSearch :=
  match p.freeBuckets.lookup bucketSize with
  | some (ptr :: rest) =>
    match p.poolNodes.lookup ptr with
    | none => .dangling
    | some node => .hit ptr (p.reuseNode bucketSize bytes ptr rest node)
  | _ => .miss

/-- Null, untracked and already free pointers change nothing. Going over `max_cached_bytes_` only
logs. -/
def release (p : BufferPool) (ptr : DevicePtr) : BufferPool :=
  if ptr = 0 then p
  else match p.poolNodes.lookup ptr with
    | none => p
    | some node =>
      if node.inUse = false then p
      else
        { p with
          poolNodes := p.poolNodes.insert ptr { node with inUse := false }
          activeBytes := sub 64 p.activeBytes node.capacityBytes
          totalRequestedBytes := sub 64 p.totalRequestedBytes node.requestedBytes
          freeCachedBytes := add 64 p.freeCachedBytes node.capacityBytes
          freeBuckets := p.freeBuckets.insert node.capacityBytes
            (ptr :: (p.freeBuckets.lookup node.capacityBytes).getD []) }

/-- The pool, the bytes purged and the pointers handed to `BlockAllocator::free` so far. -/
structure Purge where
  pool : BufferPool
  bytesPurged : ℕ
  freed : List DevicePtr

def purgeStep (acc : Purge) (ptr : DevicePtr) : Purge :=
  match acc.pool.poolNodes.lookup ptr with
  | none => acc
  | some node =>
    { pool :=
        { acc.pool with
          poolNodes := acc.pool.poolNodes.erase ptr
          totalPooledBytes := sub 64 acc.pool.totalPooledBytes node.capacityBytes
          freeCachedBytes := sub 64 acc.pool.freeCachedBytes node.capacityBytes }
      bytesPurged := add 64 acc.bytesPurged node.capacityBytes
      freed := acc.freed ++ [ptr] }

def freePtrs (p : BufferPool) : List DevicePtr := p.freeBuckets.entries.flatMap fun e => e.2.reverse

def purgeFreeBuffers (p : BufferPool) : Purge :=
  let acc := p.freePtrs.foldl purgeStep ⟨p, 0, []⟩
  { acc with pool := { acc.pool with freeBuckets := ∅ } }

def largestFreeBlock (p : BufferPool) : ℕ :=
  (p.freeBuckets.entries.map fun e => if e.2.isEmpty then 0 else e.1).foldl max 0

def getStats (fl : Rounding) (p : BufferPool) : BufferPoolStats where
  totalPooledBytes := p.totalPooledBytes
  activeBytes := p.activeBytes
  freeCachedBytes := p.freeCachedBytes
  peakPooledBytes := p.peakPooledBytes
  totalRequestedBytes := p.totalRequestedBytes
  internalFragmentationRatio :=
    if p.activeBytes > 0 then fl.oneMinusRatio p.totalRequestedBytes p.activeBytes else 0
  externalFragmentationRatio :=
    if p.freeCachedBytes > 0 then fl.oneMinusRatio p.largestFreeBlock p.freeCachedBytes else 0
  totalAllocations := p.totalAllocations
  poolHits := p.poolHits
  poolMisses := p.poolMisses
  oomPurgeRecoveries := p.oomPurgeRecoveries

def resetStats (p : BufferPool) : BufferPool :=
  { p with
    peakPooledBytes := p.totalPooledBytes
    totalAllocations := 0
    poolHits := 0
    poolMisses := 0
    oomPurgeRecoveries := 0 }

end BufferPool

/-- The out-of-memory path of an `acquire` whose thread has dropped the mutex. -/
inductive AcquireCall where
  | purgePending (bucketSize bytes : ℕ) (category : MemoryCategory)
  | retryPending (bucketSize bytes : ℕ) (category : MemoryCategory)
  deriving DecidableEq

/-- The pool, the allocations made through it and not yet freed with their sizes, and the calls
between critical sections. -/
structure PoolSystem where
  pool : BufferPool
  allocations : FiniteMap DevicePtr ℕ
  calls : FiniteMap ThreadId AcquireCall

inductive PoolAction where
  | acquire (t : ThreadId) (bytes : ℕ) (category : MemoryCategory) (stream : CudaStream)
      (result : Option DevicePtr)
  | acquirePurge (t : ThreadId)
  | acquireRetry (t : ThreadId) (result : Option DevicePtr)
  | release (t : ThreadId) (ptr : DevicePtr) (stream : CudaStream)
  | purgeFreeBuffers (t : ThreadId) (stream : CudaStream)
  | resetStats (t : ThreadId)
  deriving DecidableEq

namespace PoolSystem
open BufferPool

def init (maxCachedBytes : ℕ) : PoolSystem := ⟨BufferPool.init maxCachedBytes, ∅, ∅⟩

def allocatedBytes (allocations : FiniteMap DevicePtr ℕ) : ℕ :=
  FiniteMap.total (fun _ size => size) allocations

/-- What `BlockAllocator::allocate` promises about a pointer it returns: it is not null and not
currently allocated, and live allocations fit the 64-bit address space. -/
def AllocatorReturns (allocations : FiniteMap DevicePtr ℕ) (ptr : DevicePtr) (bytes : ℕ) : Prop :=
  ptr ≠ 0 ∧ ptr ∉ allocations ∧ allocatedBytes allocations + bytes < 2 ^ 64

instance (allocations : FiniteMap DevicePtr ℕ) (ptr bytes : ℕ) :
    Decidable (AllocatorReturns allocations ptr bytes) :=
  inferInstanceAs (Decidable (_ ∧ _ ∧ _))

/-- `attempt_allocation` succeeding with `ptr`. -/
def allocateNode (s : PoolSystem) (pool : BufferPool) (ptr : DevicePtr) (bucketSize bytes : ℕ)
    (category : MemoryCategory) : PoolSystem :=
  { s with
    pool := pool.recordNode ptr bucketSize bytes category
    allocations := s.allocations.insert ptr bucketSize }

def purge (s : PoolSystem) : PoolSystem :=
  { s with
    pool := s.pool.purgeFreeBuffers.pool
    allocations := s.pool.purgeFreeBuffers.freed.foldl (fun m ptr => m.erase ptr) s.allocations }

/-- One critical section; `none` when the thread is not at that point of a call, the allocator may
not answer so, or the call never reaches its critical section. -/
def step (s : PoolSystem) : PoolAction → Option PoolSystem
  | .acquire t bytes category _ result =>
    if t ∈ s.calls then none
    else if bytes = 0 then some s
    else match calculateBucketSize bytes with
      | none => none
      | some bucketSize =>
        let pool := { s.pool with totalAllocations := add 64 s.pool.totalAllocations 1 }
        match pool.searchBucket bucketSize bytes with
        | .hit _ pool => some { s with pool := pool }
        | .dangling => none
        | .miss =>
          let pool := { pool with poolMisses := add 64 pool.poolMisses 1 }
          match result with
          | none =>
            some { s with
              pool := pool
              calls := s.calls.insert t (.purgePending bucketSize bytes category) }
          | some ptr =>
            if AllocatorReturns s.allocations ptr bucketSize then
              some (s.allocateNode pool ptr bucketSize bytes category)
            else none
  | .acquirePurge t =>
    match s.calls.lookup t with
    | some (.purgePending bucketSize bytes category) =>
      some { s.purge with calls := s.calls.insert t (.retryPending bucketSize bytes category) }
    | _ => none
  | .acquireRetry t result =>
    match s.calls.lookup t with
    | some (.retryPending bucketSize bytes category) =>
      let pool := { s.pool with oomPurgeRecoveries := add 32 s.pool.oomPurgeRecoveries 1 }
      match result with
      | none => some { s with pool := pool, calls := s.calls.erase t }
      | some ptr =>
        if AllocatorReturns s.allocations ptr bucketSize then
          some { s.allocateNode pool ptr bucketSize bytes category with calls := s.calls.erase t }
        else none
    | _ => none
  | .release t ptr _ =>
    if t ∈ s.calls then none else some { s with pool := s.pool.release ptr }
  | .purgeFreeBuffers t _ => if t ∈ s.calls then none else some s.purge
  | .resetStats t => if t ∈ s.calls then none else some { s with pool := s.pool.resetStats }

def acquired (s : PoolSystem) : PoolAction → Option DevicePtr
  | .acquire _ bytes _ _ result =>
    if bytes = 0 then none
    else (calculateBucketSize bytes).bind fun bucketSize =>
      let pool := { s.pool with totalAllocations := add 64 s.pool.totalAllocations 1 }
      match pool.searchBucket bucketSize bytes with
      | .hit ptr _ => some ptr
      | .miss => result
      | .dangling => none
  | .acquireRetry _ result => result
  | _ => none

end PoolSystem
end CudaForge.Memory
