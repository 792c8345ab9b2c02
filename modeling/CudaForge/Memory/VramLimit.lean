import CudaForge.Memory.AllocatorAccounting

/-! The VRAM safety limit: its failure under two racing callers, and when it holds. -/
namespace CudaForge.Memory
open MachineWord FiniteMap

/-- Bytes that a call has passed the budget check for and not yet recorded. -/
def AllocatorCall.inFlightBytes : AllocatorCall → ℕ
  | .mallocPending alignedBytes _ _ => alignedBytes
  | .recordPending handle => handle.sizeBytes
  | .freePending _ _ => 0

namespace AllocatorSystem
open BlockAllocator

def inFlight (s : AllocatorSystem) : ℕ := total (fun _ call => call.inFlightBytes) s.calls

/-- The budget check counts what is in flight: when it passes, the recorded bytes, those of the
other calls in flight and the request fit the threshold together. -/
def ReservationFits (s : AllocatorSystem) : AllocatorAction → Prop
  | .allocateCheck _ bytes _ _ => ∀ alignedBytes,
      s.allocator.allocateCheck bytes = .proceeds alignedBytes →
      s.allocator.totalAllocatedBytes + s.inFlight + alignedBytes ≤
        s.allocator.vramSafetyThresholdBytes
  | _ => True

structure Reserved (threshold : ℕ) (s : AllocatorSystem) : Prop where
  accounted : s.Accounted
  threshold_eq : s.allocator.vramSafetyThresholdBytes = threshold
  fits : s.allocator.totalAllocatedBytes + s.inFlight ≤ threshold

theorem freeErase_threshold {a a' : BlockAllocator} {p : DevicePtr}
    (he : a.freeErase p = some a') :
    a'.vramSafetyThresholdBytes = a.vramSafetyThresholdBytes := by
  unfold BlockAllocator.freeErase at he
  split at he
  · contradiction
  · obtain ⟨handle, _, rfl⟩ := Option.map_eq_some_iff.mp he
    rfl

/-- Dropping or finishing a call never commits more bytes. -/
theorem inFlight_erase_le (calls : FiniteMap ThreadId AllocatorCall) (t : ThreadId) :
    total (fun _ call => call.inFlightBytes) (calls.erase t) ≤
      total (fun _ call => call.inFlightBytes) calls := by
  apply total_le_total
  intro t' call ht'
  rw [lookup_erase_ite] at ht'
  split_ifs at ht'
  exact ⟨call, ht', le_rfl⟩

theorem step_reserved {threshold : ℕ} {s s' : AllocatorSystem} {a : AllocatorAction}
    (h : s.Reserved threshold) (hfit : s.ReservationFits a) (hs : step s a = some s') :
    s'.Reserved threshold := by
  have hacc := step_accounted h.accounted hs
  have hle := h.fits
  cases a with
  | allocateCheck t bytes category stream =>
    simp only [step] at hs
    split_ifs at hs with ht
    split at hs
    · rename_i n hn
      obtain rfl := Option.some.inj hs
      have hnew := hfit n hn
      rw [h.threshold_eq] at hnew
      refine ⟨hacc, h.threshold_eq, ?_⟩
      simp only [inFlight, total_insert_of_notMem ht, AllocatorCall.inFlightBytes] at hnew ⊢
      omega
    · exact Option.some.inj hs ▸ h
  | driverMalloc t result =>
    simp only [step] at hs
    split at hs
    · obtain rfl := Option.some.inj hs
      exact ⟨hacc, h.threshold_eq, (Nat.add_le_add_left (inFlight_erase_le _ t) _).trans hle⟩
    · rename_i n category stream ptr ht
      split_ifs at hs
      obtain rfl := Option.some.inj hs
      refine ⟨hacc, h.threshold_eq, ?_⟩
      have hsame := total_insert_of_lookup (f := fun _ call => AllocatorCall.inFlightBytes call)
        ht (.recordPending ⟨ptr, n, category, stream⟩)
      simp only [inFlight, AllocatorCall.inFlightBytes] at hsame hle ⊢
      omega
    · contradiction
  | allocateRecord t =>
    simp only [step] at hs
    split at hs
    · rename_i handle ht
      obtain rfl := Option.some.inj hs
      refine ⟨hacc, h.threshold_eq, ?_⟩
      have hmoved := total_erase (f := fun _ call => AllocatorCall.inFlightBytes call) ht
      have hadd := add_le 64 s.allocator.totalAllocatedBytes handle.sizeBytes
      simp only [inFlight, AllocatorCall.inFlightBytes, BlockAllocator.allocateRecord]
        at hmoved hle ⊢
      omega
    · contradiction
  | freeErase t ptr stream =>
    simp only [step] at hs
    split_ifs at hs with ht
    split at hs
    · exact Option.some.inj hs ▸ h
    · rename_i he
      obtain rfl := Option.some.inj hs
      have htotal := freeErase_total_le h.accounted.counted h.accounted.owned.recordedBytes_lt he
      refine ⟨hacc, (freeErase_threshold he).trans h.threshold_eq, ?_⟩
      simp only [inFlight, total_insert_of_notMem ht, AllocatorCall.inFlightBytes] at hle ⊢
      omega
  | driverFree t =>
    simp only [step] at hs
    split at hs
    · obtain rfl := Option.some.inj hs
      exact ⟨hacc, h.threshold_eq, (Nat.add_le_add_left (inFlight_erase_le _ t) _).trans hle⟩
    · contradiction
  | resetPeakStats t =>
    simp only [step] at hs
    split_ifs at hs
    obtain rfl := Option.some.inj hs
    exact ⟨hacc, h.threshold_eq, hle⟩

/-- The limit holds in every state of a run whose passing budget checks leave room for the calls
in flight. -/
theorem vram_limit_of_reservation (threshold : ℕ) (actions : List AllocatorAction)
    (s : AllocatorSystem) (he : Transition.exec step (init threshold) actions = some s)
    (hfit : Transition.AllSteps step ReservationFits (init threshold) actions) :
    s.allocator.totalAllocatedBytes ≤ s.allocator.vramSafetyThresholdBytes := by
  have hinit : (init threshold).Reserved threshold := ⟨init_accounted threshold, rfl, Nat.zero_le _⟩
  have h := Transition.exec_invariant (fun _ _ _ h hf hs => step_reserved h hf hs) hinit hfit he
  rw [h.threshold_eq]
  exact (Nat.le_add_right _ _).trans h.fits

/-- A check that proceeds with bytes that fit beside what is recorded and in flight. -/
theorem reservationFits_of_proceeds {s : AllocatorSystem} {t : ThreadId} {bytes n : ℕ}
    {category : MemoryCategory} {stream : CudaStream}
    (hcheck : s.allocator.allocateCheck bytes = .proceeds n)
    (hfits : s.allocator.totalAllocatedBytes + s.inFlight + n ≤
      s.allocator.vramSafetyThresholdBytes) :
    s.ReservationFits (.allocateCheck t bytes category stream) := by
  intro n' hn'
  obtain rfl := AllocateCheck.proceeds.inj (hcheck.symm.trans hn')
  exact hfits

/-- Both threads are past the check before either is recorded, and their requests fit together. -/
theorem vram_limit_of_reservation_overlapping : ∃ s,
    Transition.exec step (init 1500)
      [.allocateCheck 0 300 .weights 0, .allocateCheck 1 600 .kvCache 0,
        .driverMalloc 1 (some 8192), .driverMalloc 0 (some 4096),
        .allocateRecord 0, .allocateRecord 1] = some s ∧
    s.allocator.totalAllocatedBytes ≤ s.allocator.vramSafetyThresholdBytes ∧
    s.allocator.totalAllocatedBytes = 1280 := by
  refine Transition.exec_exists (P := fun s => s.allocator.totalAllocatedBytes = 1280) (by decide)
    fun s hs htotal => ⟨vram_limit_of_reservation 1500 _ s hs ?_, htotal⟩
  rw [Transition.allSteps_of_some rfl, Transition.allSteps_of_some rfl]
  refine ⟨reservationFits_of_proceeds (n := 512) (by decide) (by decide),
    reservationFits_of_proceeds (n := 768) (by decide) (by decide), ?_⟩
  exact ⟨trivial, fun _ _ => ⟨trivial, fun _ _ => ⟨trivial, fun _ _ => ⟨trivial, fun _ _ =>
    trivial⟩⟩⟩⟩

/-- Two callers pass the check before either is recorded: on a 16 GiB device with the default
headroom two requests of 8.2 GB fit the memory and exceed the limit. -/
theorem vram_limit_race : ∃ s,
    Transition.exec step (init 16320875724)
      [.allocateCheck 0 8200000000 .weights 0, .allocateCheck 1 8200000000 .kvCache 0,
        .driverMalloc 0 (some 34359738368), .driverMalloc 1 (some 51539607552),
        .allocateRecord 0, .allocateRecord 1] = some s ∧
    s.allocator.vramSafetyThresholdBytes < s.allocator.totalAllocatedBytes :=
  Transition.exec_exists (by decide) fun _ _ h => h

end AllocatorSystem
end CudaForge.Memory
