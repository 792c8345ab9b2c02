import CudaForge.Library.FiniteMap
import CudaForge.Library.MachineWord
import CudaForge.Library.Transition

/-!
The stream-ordered GPU allocator and the interleavings of its callers.

`allocate` holds the mutex twice, with the unlocked `cudaMallocAsync` between the two critical
sections; `free` holds it once and calls `cudaFreeAsync` afterwards. Each critical section and each
driver call is one action of a thread.
-/
namespace CudaForge.Memory
open MachineWord

inductive MemoryCategory where
  | weights | activations | workspace | kvCache
  deriving DecidableEq, Repr

instance : Fintype MemoryCategory where
  elems := {.weights, .activations, .workspace, .kvCache}
  complete c := by cases c <;> decide

/-- A device address; `0` is `nullptr`. -/
abbrev DevicePtr := ℕ

/-- A `cudaStream_t`; `0` is the default stream. -/
abbrev CudaStream := ℕ

abbrev ThreadId := ℕ

structure BlockHandle where
  ptr : DevicePtr
  sizeBytes : ℕ
  category : MemoryCategory
  stream : CudaStream
  deriving DecidableEq

structure BlockAllocator where
  vramSafetyThresholdBytes : ℕ
  activeAllocations : FiniteMap DevicePtr BlockHandle
  totalAllocatedBytes : ℕ
  peakAllocatedBytes : ℕ
  categoryAllocatedBytes : MemoryCategory → ℕ

namespace BlockAllocator

def init (vramSafetyThresholdBytes : ℕ) : BlockAllocator :=
  ⟨vramSafetyThresholdBytes, ∅, 0, 0, fun _ => 0⟩

/-- `(bytes + alignment - 1) & ~(alignment - 1)` on `size_t`. -/
def alignBytes (bytes alignment : ℕ) : ℕ :=
  sub 64 (add 64 bytes alignment) 1 &&& compl 64 (alignment - 1)

/-- How the first critical section of `allocate` ends. -/
inductive AllocateCheck where
  | returnsNull
  | outOfMemory
  | proceeds (alignedBytes : ℕ)
  deriving DecidableEq, Repr

def allocateCheck (a : BlockAllocator) (bytes : ℕ) : AllocateCheck :=
  if bytes = 0 then .returnsNull
  else
    let alignedBytes := alignBytes bytes 256
    let projectedAllocated := add 64 a.totalAllocatedBytes alignedBytes
    if projectedAllocated > a.vramSafetyThresholdBytes then .outOfMemory
    else .proceeds alignedBytes

/-- The second critical section of `allocate`, after the driver returned `handle.ptr`. -/
def allocateRecord (a : BlockAllocator) (handle : BlockHandle) : BlockAllocator :=
  let totalAllocatedBytes := add 64 a.totalAllocatedBytes handle.sizeBytes
  { a with
    activeAllocations := a.activeAllocations.insert handle.ptr handle
    totalAllocatedBytes := totalAllocatedBytes
    categoryAllocatedBytes := Function.update a.categoryAllocatedBytes handle.category
      (add 64 (a.categoryAllocatedBytes handle.category) handle.sizeBytes)
    peakAllocatedBytes := max a.peakAllocatedBytes totalAllocatedBytes }

/-- The critical section of `free`; `none` for a null or untracked pointer, which only logs. -/
def freeErase (a : BlockAllocator) (ptr : DevicePtr) : Option BlockAllocator :=
  if ptr = 0 then none
  else (a.activeAllocations.lookup ptr).map fun handle =>
    { a with
      activeAllocations := a.activeAllocations.erase ptr
      totalAllocatedBytes := sub 64 a.totalAllocatedBytes handle.sizeBytes
      categoryAllocatedBytes := Function.update a.categoryAllocatedBytes handle.category
        (sub 64 (a.categoryAllocatedBytes handle.category) handle.sizeBytes) }

def resetPeakStats (a : BlockAllocator) : BlockAllocator :=
  { a with peakAllocatedBytes := a.totalAllocatedBytes }

end BlockAllocator

/-- What a thread that has left the mutex inside a call still has to do. -/
inductive AllocatorCall where
  | mallocPending (alignedBytes : ℕ) (category : MemoryCategory) (stream : CudaStream)
  | recordPending (handle : BlockHandle)
  | freePending (ptr : DevicePtr) (stream : CudaStream)
  deriving DecidableEq

/-- The allocator, the driver's allocations that were not yet passed to `cudaFreeAsync` with their
sizes, and the calls in flight. -/
structure AllocatorSystem where
  allocator : BlockAllocator
  driver : FiniteMap DevicePtr ℕ
  calls : FiniteMap ThreadId AllocatorCall

inductive AllocatorAction where
  | allocateCheck (t : ThreadId) (bytes : ℕ) (category : MemoryCategory) (stream : CudaStream)
  | driverMalloc (t : ThreadId) (result : Option DevicePtr)
  | allocateRecord (t : ThreadId)
  | freeErase (t : ThreadId) (ptr : DevicePtr) (stream : CudaStream)
  | driverFree (t : ThreadId)
  | resetPeakStats (t : ThreadId)
  deriving DecidableEq

namespace AllocatorSystem
open BlockAllocator

def init (vramSafetyThresholdBytes : ℕ) : AllocatorSystem :=
  ⟨BlockAllocator.init vramSafetyThresholdBytes, ∅, ∅⟩

def driverBytes (driver : FiniteMap DevicePtr ℕ) : ℕ := FiniteMap.total (fun _ size => size) driver

/-- What `cudaMallocAsync` promises about a successful result: the address is not one it returned
earlier and was not yet asked to free, and live allocations fit the 64-bit address space. -/
def DriverReturns (driver : FiniteMap DevicePtr ℕ) (ptr : DevicePtr) (bytes : ℕ) : Prop :=
  ptr ∉ driver ∧ driverBytes driver + bytes < 2 ^ 64

instance (driver : FiniteMap DevicePtr ℕ) (ptr bytes : ℕ) :
    Decidable (DriverReturns driver ptr bytes) :=
  inferInstanceAs (Decidable (_ ∧ _))

/-- One action; `none` when the thread is not at that point of a call, or the driver may not
answer so. -/
def step (s : AllocatorSystem) : AllocatorAction → Option AllocatorSystem
  | .allocateCheck t bytes category stream =>
    if t ∈ s.calls then none
    else match s.allocator.allocateCheck bytes with
      | .proceeds alignedBytes =>
        some { s with calls := s.calls.insert t (.mallocPending alignedBytes category stream) }
      | _ => some s
  | .driverMalloc t result =>
    match s.calls.lookup t, result with
    | some (.mallocPending _ _ _), none => some { s with calls := s.calls.erase t }
    | some (.mallocPending alignedBytes category stream), some ptr =>
      if DriverReturns s.driver ptr alignedBytes then
        some { s with
          driver := s.driver.insert ptr alignedBytes
          calls := s.calls.insert t (.recordPending ⟨ptr, alignedBytes, category, stream⟩) }
      else none
    | _, _ => none
  | .allocateRecord t =>
    match s.calls.lookup t with
    | some (.recordPending handle) =>
      some { s with
        allocator := s.allocator.allocateRecord handle
        calls := s.calls.erase t }
    | _ => none
  | .freeErase t ptr stream =>
    if t ∈ s.calls then none
    else match s.allocator.freeErase ptr with
      | none => some s
      | some allocator =>
        some { s with allocator := allocator, calls := s.calls.insert t (.freePending ptr stream) }
  | .driverFree t =>
    match s.calls.lookup t with
    | some (.freePending ptr _) =>
      some { s with driver := s.driver.erase ptr, calls := s.calls.erase t }
    | _ => none
  | .resetPeakStats t =>
    if t ∈ s.calls then none else some { s with allocator := s.allocator.resetPeakStats }

end AllocatorSystem
end CudaForge.Memory
