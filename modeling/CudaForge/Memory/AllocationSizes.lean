import CudaForge.Memory.BlockAllocator

/-! What a single thread's `allocate` makes of sizes near and beyond the 64-bit range. -/
namespace CudaForge.Memory
open MachineWord

namespace BlockAllocator

/-- How a whole call of `allocate` ends. -/
inductive AllocateResult where
  | returnsNull
  | outOfMemory (driverCalled : Bool)
  | returns (allocator : BlockAllocator) (handle : BlockHandle)

/-- `allocate` in the only thread, with the driver's answer to `cudaMallocAsync`. -/
def allocate (a : BlockAllocator) (bytes : ℕ) (category : MemoryCategory) (stream : CudaStream)
    (driver : Option DevicePtr) : AllocateResult :=
  match a.allocateCheck bytes with
  | .returnsNull => .returnsNull
  | .outOfMemory => .outOfMemory false
  | .proceeds alignedBytes =>
    match driver with
    | none => .outOfMemory true
    | some ptr =>
      let handle : BlockHandle := ⟨ptr, alignedBytes, category, stream⟩
      .returns (a.allocateRecord handle) handle

/-- `allocate_typed<T>` with `sizeof(T)`. -/
def allocateTyped (a : BlockAllocator) (count sizeofT : ℕ) (category : MemoryCategory)
    (stream : CudaStream) (driver : Option DevicePtr) : AllocateResult :=
  a.allocate (mul 64 count sizeofT) category stream driver

/-- The least multiple of 256 that is at least `bytes`, as an integer. -/
def roundedUp (bytes : ℕ) : ℕ := (bytes + 255) / 256 * 256

/-- A request beyond the limit throws before the driver is called, and a block that is returned has
the rounded size. -/
structure SizesSurvive (a : BlockAllocator) (bytes : ℕ) (result : AllocateResult) : Prop where
  throws : a.vramSafetyThresholdBytes < a.totalAllocatedBytes + roundedUp bytes →
    result = .outOfMemory false
  size : ∀ allocator handle, result = .returns allocator handle →
    IsLeast {m | 256 ∣ m ∧ bytes ≤ m} handle.sizeBytes

/-- The projected total fits, or what is left of it still is beyond the limit and the request does
not wrap to zero bytes. -/
def ProjectedFits (a : BlockAllocator) (bytes : ℕ) : Prop :=
  a.totalAllocatedBytes + roundedUp bytes < 2 ^ 64 ∨
    bytes % 2 ^ 64 ≠ 0 ∧
      a.vramSafetyThresholdBytes < (a.totalAllocatedBytes + roundedUp bytes) % 2 ^ 64

end BlockAllocator

open BlockAllocator

section Sizes
variable {a : BlockAllocator} {bytes : ℕ}

theorem roundedUp_isLeast (bytes : ℕ) : IsLeast {m | 256 ∣ m ∧ bytes ≤ m} (roundedUp bytes) := by
  unfold roundedUp
  constructor
  · exact ⟨Nat.dvd_mul_left _ _, by omega⟩
  · rintro m ⟨⟨q, rfl⟩, hm⟩
    omega

/-- The code's rounding is exact modulo `2 ^ 64`, also for a request that was wrapped before. -/
theorem alignBytes_eq (bytes : ℕ) : alignBytes (bytes % 2 ^ 64) 256 = roundedUp bytes % 2 ^ 64 := by
  have hsum : sub 64 (add 64 (bytes % 2 ^ 64) 256) 1 = (bytes + 255) % 2 ^ 64 := by
    unfold sub add
    omega
  have hmask := and_compl_mask (w := 64) (k := 8) (by decide)
    (show (bytes + 255) % 2 ^ 64 < 2 ^ 64 from Nat.mod_lt _ (by decide))
  rw [alignBytes, hsum, show 256 - 1 = 2 ^ 8 - 1 from rfl, hmask, roundedUp]
  omega

theorem allocateCheck_of_wrapped (hzero : bytes % 2 ^ 64 = 0) :
    a.allocateCheck (bytes % 2 ^ 64) = .returnsNull := if_pos hzero

theorem allocateCheck_of_ne_zero (hne : bytes % 2 ^ 64 ≠ 0) :
    a.allocateCheck (bytes % 2 ^ 64) =
      if a.vramSafetyThresholdBytes < (a.totalAllocatedBytes + roundedUp bytes) % 2 ^ 64
      then .outOfMemory else .proceeds (roundedUp bytes % 2 ^ 64) := by
  have hprojected : add 64 a.totalAllocatedBytes (roundedUp bytes % 2 ^ 64) =
      (a.totalAllocatedBytes + roundedUp bytes) % 2 ^ 64 := Nat.add_mod_mod ..
  rw [allocateCheck, if_neg hne]
  simp only [alignBytes_eq, hprojected, gt_iff_lt]

/-- The size of a request survives exactly when its projected total does. -/
theorem sizesSurvive_iff (hlimit : a.vramSafetyThresholdBytes < 2 ^ 64) (hpos : 1 ≤ bytes)
    (category : MemoryCategory) (stream : CudaStream) (driver : Option DevicePtr) :
    SizesSurvive a bytes (a.allocate (bytes % 2 ^ 64) category stream driver) ↔
      ProjectedFits a bytes := by
  have hle : bytes ≤ roundedUp bytes := (roundedUp_isLeast bytes).1.2
  by_cases hzero : bytes % 2 ^ 64 = 0
  · -- a positive multiple of `2 ^ 64` is beyond any limit, but returns null
    have hbig : 2 ^ 64 ≤ bytes := Nat.le_of_dvd hpos (Nat.dvd_of_mod_eq_zero hzero)
    refine iff_of_false (fun h => ?_) ?_
    · have hthrow := h.throws (by omega)
      rw [allocate, allocateCheck_of_wrapped hzero] at hthrow
      cases hthrow
    · rintro (hfits | ⟨hne, -⟩)
      · omega
      · exact hne hzero
  rw [allocate, allocateCheck_of_ne_zero hzero]
  by_cases hover : a.vramSafetyThresholdBytes < (a.totalAllocatedBytes + roundedUp bytes) % 2 ^ 64
  · rw [if_pos hover]
    exact iff_of_true ⟨fun _ => rfl, fun _ _ h => by cases h⟩ (.inr ⟨hzero, hover⟩)
  · rw [if_neg hover]
    constructor
    · intro h
      by_contra hnot
      -- the wrapped total passes the check although the true one is beyond the limit
      have hwraps : 2 ^ 64 ≤ a.totalAllocatedBytes + roundedUp bytes :=
        not_lt.mp fun hlt => hnot (.inl hlt)
      have hthrow := h.throws (by omega)
      cases driver <;> cases hthrow
    · rintro (hfits | ⟨-, hover'⟩)
      · have hexact : roundedUp bytes % 2 ^ 64 = roundedUp bytes := Nat.mod_eq_of_lt (by omega)
        rw [Nat.mod_eq_of_lt hfits] at hover
        refine ⟨fun hgt => absurd hgt hover, fun allocator handle hreturns => ?_⟩
        cases driver with
        | none => cases hreturns
        | some ptr =>
          obtain ⟨-, rfl⟩ := AllocateResult.returns.inj hreturns
          rw [hexact]
          exact roundedUp_isLeast bytes
      · exact absurd hover' hover

end Sizes

/-- In every state of the only thread's allocator and for every answer of the driver, a request of
bytes or of typed elements has the promised size exactly when its projected total survives. -/
theorem allocate_sizes_iff (a : BlockAllocator) (hlimit : a.vramSafetyThresholdBytes < 2 ^ 64)
    (category : MemoryCategory) (stream : CudaStream) (driver : Option DevicePtr) :
    (∀ bytes, 1 ≤ bytes → bytes < 2 ^ 64 →
      (SizesSurvive a bytes (a.allocate bytes category stream driver) ↔ ProjectedFits a bytes)) ∧
    ∀ count sizeofT, 1 ≤ count * sizeofT →
      (SizesSurvive a (count * sizeofT) (a.allocateTyped count sizeofT category stream driver) ↔
        ProjectedFits a (count * sizeofT)) := by
  constructor
  · intro bytes hpos hlt
    have h := sizesSurvive_iff hlimit hpos category stream driver
    rwa [Nat.mod_eq_of_lt hlt] at h
  · intro count sizeofT hpos
    exact sizesSurvive_iff hlimit hpos category stream driver

theorem allocate_sizes_iff_small :
    (SizesSurvive (BlockAllocator.init 1024) 100
      ((BlockAllocator.init 1024).allocate 100 .weights 0 (some 4096)) ↔
      ProjectedFits (BlockAllocator.init 1024) 100) :=
  (allocate_sizes_iff (BlockAllocator.init 1024) (by decide) .weights 0 (some 4096)).1 100
    (by decide) (by decide)

/-- `2 ^ 61 + 32` elements of eight bytes: the product wraps, and a block of 256 bytes is returned
although the request is beyond the limit. -/
theorem allocateTyped_wraps :
    ¬ SizesSurvive (BlockAllocator.init 1024) ((2 ^ 61 + 32) * 8)
      ((BlockAllocator.init 1024).allocateTyped (2 ^ 61 + 32) 8 .weights 0 (some 4096)) := by
  intro h
  have hthrow := h.throws (by decide)
  rw [allocateTyped, allocate,
    show (BlockAllocator.init 1024).allocateCheck (mul 64 (2 ^ 61 + 32) 8) = .proceeds 256 by
      decide] at hthrow
  cases hthrow

end CudaForge.Memory
