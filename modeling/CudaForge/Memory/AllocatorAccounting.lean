import CudaForge.Memory.BlockAllocator
import Mathlib.Order.Bounds.Basic

/-! Exact byte accounting of the allocator under every interleaving of its callers. -/
namespace CudaForge.Memory
open MachineWord FiniteMap

def AllocatorCall.held : AllocatorCall → Option DevicePtr
  | .mallocPending _ _ _ => none
  | .recordPending handle => some handle.ptr
  | .freePending ptr _ => some ptr

def handleBytes (_ : DevicePtr) (handle : BlockHandle) : ℕ := handle.sizeBytes

def handleBytesIn (c : MemoryCategory) (_ : DevicePtr) (handle : BlockHandle) : ℕ :=
  if handle.category = c then handle.sizeBytes else 0

theorem handleBytesIn_le (c : MemoryCategory) (p : DevicePtr) (handle : BlockHandle) :
    handleBytesIn c p handle ≤ handleBytes p handle := by
  unfold handleBytesIn handleBytes
  split_ifs <;> omega

/-- Every handle belongs to exactly one category. -/
theorem sum_handleBytesIn (m : FiniteMap DevicePtr BlockHandle) :
    ∑ c, total (handleBytesIn c) m = total handleBytes m := by
  rw [← total_sum]
  congr 1
  funext p handle
  simp only [handleBytesIn, handleBytes, Finset.sum_ite_eq, Finset.mem_univ, if_true]

theorem total_handleBytesIn_le (c : MemoryCategory) (m : FiniteMap DevicePtr BlockHandle) :
    total (handleBytesIn c) m ≤ total handleBytes m :=
  total_le_total fun p handle h => ⟨handle, h, handleBytesIn_le c p handle⟩

namespace BlockAllocator

structure Counted (a : BlockAllocator) : Prop where
  total_eq : a.totalAllocatedBytes = total handleBytes a.activeAllocations
  category_eq : ∀ c, a.categoryAllocatedBytes c = total (handleBytesIn c) a.activeAllocations

theorem Counted.sum_categories {a : BlockAllocator} (h : a.Counted) :
    ∑ c, a.categoryAllocatedBytes c = a.totalAllocatedBytes := by
  simp only [h.category_eq, h.total_eq, sum_handleBytesIn]

/-- The subtractions of `free` never underflow. -/
theorem Counted.size_le {a : BlockAllocator} (h : a.Counted) {p : DevicePtr} {handle : BlockHandle}
    (hp : a.activeAllocations.lookup p = some handle) :
    handle.sizeBytes ≤ a.totalAllocatedBytes ∧
      handle.sizeBytes ≤ a.categoryAllocatedBytes handle.category := by
  rw [h.total_eq, h.category_eq]
  refine ⟨le_total (f := handleBytes) hp, ?_⟩
  have hc := le_total (f := handleBytesIn handle.category) hp
  simpa only [handleBytesIn, if_true] using hc

theorem Counted.allocateRecord {a : BlockAllocator} (h : a.Counted) {handle : BlockHandle}
    (hp : handle.ptr ∉ a.activeAllocations)
    (hb : handle.sizeBytes + total handleBytes a.activeAllocations < 2 ^ 64) :
    (a.allocateRecord handle).Counted := by
  constructor
  · simp only [BlockAllocator.allocateRecord, total_insert_of_notMem hp, h.total_eq]
    rw [add_eq (by omega), Nat.add_comm]
    rfl
  · intro c
    have hc := total_handleBytesIn_le handle.category a.activeAllocations
    simp only [BlockAllocator.allocateRecord, total_insert_of_notMem hp]
    by_cases hcat : c = handle.category
    · subst hcat
      rw [Function.update_self, h.category_eq, add_eq (by omega), Nat.add_comm]
      simp only [handleBytesIn, if_true]
    · rw [Function.update_of_ne hcat, h.category_eq]
      simp only [handleBytesIn, Ne.symm hcat, if_false, Nat.zero_add]

theorem Counted.freeErase {a a' : BlockAllocator} (h : a.Counted) {p : DevicePtr}
    (hb : total handleBytes a.activeAllocations < 2 ^ 64) (he : a.freeErase p = some a') :
    a'.Counted := by
  unfold BlockAllocator.freeErase at he
  split at he
  · contradiction
  obtain ⟨handle, hl, rfl⟩ := Option.map_eq_some_iff.mp he
  have hsize := h.size_le hl
  have htotal := total_erase (f := handleBytes) hl
  constructor
  · simp only
    rw [sub_eq hsize.1 (h.total_eq ▸ hb), h.total_eq, ← htotal]
    exact Nat.add_sub_cancel_left handle.sizeBytes _
  · intro c
    have hcat := total_erase (f := handleBytesIn c) hl
    simp only
    by_cases hc : c = handle.category
    · subst hc
      have hlt := (total_handleBytesIn_le handle.category a.activeAllocations).trans_lt hb
      rw [Function.update_self, sub_eq hsize.2 (h.category_eq _ ▸ hlt), h.category_eq, ← hcat]
      simp only [handleBytesIn, if_true, Nat.add_sub_cancel_left]
    · rw [Function.update_of_ne hc, h.category_eq, ← hcat]
      simp only [handleBytesIn, Ne.symm hc, if_false, Nat.zero_add]

end BlockAllocator

namespace AllocatorSystem
open BlockAllocator

/-- Recorded handles and the addresses held by calls in flight are live in the driver, and no
address has two owners. -/
structure Owned (s : AllocatorSystem) : Prop where
  recorded : ∀ p handle, s.allocator.activeAllocations.lookup p = some handle →
    s.driver.lookup p = some handle.sizeBytes
  held_mem : ∀ t call p, s.calls.lookup t = some call → call.held = some p →
    p ∈ s.driver ∧ p ∉ s.allocator.activeAllocations
  recordPending : ∀ t handle, s.calls.lookup t = some (.recordPending handle) →
    s.driver.lookup handle.ptr = some handle.sizeBytes
  held_unique : ∀ t t' call call' p, s.calls.lookup t = some call → s.calls.lookup t' = some call' →
    call.held = some p → call'.held = some p → t = t'
  bounded : driverBytes s.driver < 2 ^ 64

theorem Owned.recordedBytes_lt {s : AllocatorSystem} (h : s.Owned) :
    total handleBytes s.allocator.activeAllocations < 2 ^ 64 :=
  (total_le_total fun p handle hp => ⟨handle.sizeBytes, h.recorded p handle hp, le_rfl⟩).trans_lt
    h.bounded

/-- A handle that is about to be recorded fits beside the recorded ones. -/
theorem Owned.pendingBytes_lt {s : AllocatorSystem} (h : s.Owned) {t : ThreadId}
    {handle : BlockHandle} (ht : s.calls.lookup t = some (.recordPending handle)) :
    handle.sizeBytes + total handleBytes s.allocator.activeAllocations < 2 ^ 64 := by
  have hp := (h.held_mem t _ _ ht rfl).2
  have hle : total handleBytes (s.allocator.activeAllocations.insert handle.ptr handle) ≤
      driverBytes s.driver := by
    apply total_le_total
    intro p handle' hp'
    rw [lookup_insert_ite] at hp'
    split_ifs at hp' with he
    · obtain rfl := Option.some.inj hp'
      exact ⟨_, he ▸ h.recordPending t handle ht, le_rfl⟩
    · exact ⟨_, h.recorded p handle' hp', le_rfl⟩
  rw [total_insert_of_notMem hp] at hle
  exact hle.trans_lt h.bounded

/-- A call that holds no address may begin or end without touching anything else. -/
theorem Owned.of_calls {s : AllocatorSystem} (h : s.Owned)
    {calls : FiniteMap ThreadId AllocatorCall}
    (hc : ∀ t call, calls.lookup t = some call → call.held ≠ none →
      s.calls.lookup t = some call) : Owned { s with calls := calls } where
  recorded := h.recorded
  held_mem t call p ht hp := h.held_mem t call p (hc t call ht (by simp [hp])) hp
  recordPending t handle ht := h.recordPending t handle (hc t _ ht (by simp [AllocatorCall.held]))
  held_unique t t' call call' p ht ht' hp hp' :=
    h.held_unique t t' call call' p (hc t call ht (by simp [hp])) (hc t' call' ht' (by simp [hp']))
      hp hp'
  bounded := h.bounded

/-- A thread's new call holds an address that no other thread holds. -/
theorem Owned.held_unique_insert {s : AllocatorSystem} (h : s.Owned) {t : ThreadId}
    {call : AllocatorCall} {p : DevicePtr} (hheld : call.held = some p)
    (hnew : ∀ t' call', s.calls.lookup t' = some call' → call'.held ≠ some p) :
    ∀ t₁ t₂ call₁ call₂ q, (s.calls.insert t call).lookup t₁ = some call₁ →
      (s.calls.insert t call).lookup t₂ = some call₂ →
      call₁.held = some q → call₂.held = some q → t₁ = t₂ := by
  intro t₁ t₂ call₁ call₂ q h₁ h₂ hq₁ hq₂
  rw [lookup_insert_ite] at h₁ h₂
  split_ifs at h₁ h₂ with e₁ e₂ e₂
  · exact e₁.trans e₂.symm
  · obtain rfl := Option.some.inj h₁
    obtain rfl := Option.some.inj (hheld.symm.trans hq₁)
    exact absurd hq₂ (hnew t₂ call₂ h₂)
  · obtain rfl := Option.some.inj h₂
    obtain rfl := Option.some.inj (hheld.symm.trans hq₂)
    exact absurd hq₁ (hnew t₁ call₁ h₁)
  · exact h.held_unique t₁ t₂ call₁ call₂ q h₁ h₂ hq₁ hq₂

theorem Owned.held_unique_erase {s : AllocatorSystem} (h : s.Owned) (t : ThreadId) :
    ∀ t₁ t₂ call₁ call₂ q, (s.calls.erase t).lookup t₁ = some call₁ →
      (s.calls.erase t).lookup t₂ = some call₂ →
      call₁.held = some q → call₂.held = some q → t₁ = t₂ := by
  intro t₁ t₂ call₁ call₂ q h₁ h₂
  rw [lookup_erase_ite] at h₁ h₂
  split_ifs at h₁ h₂
  exact h.held_unique t₁ t₂ call₁ call₂ q h₁ h₂

theorem Owned.driverMalloc {s : AllocatorSystem} (h : s.Owned) {t : ThreadId} {p : DevicePtr}
    {n : ℕ} {c : MemoryCategory} {stream : CudaStream} (hd : DriverReturns s.driver p n) :
    Owned { s with
      driver := s.driver.insert p n
      calls := s.calls.insert t (.recordPending ⟨p, n, c, stream⟩) } := by
  have hne : ∀ q, q ∈ s.driver → q ≠ p := by rintro q hq rfl; exact hd.1 hq
  constructor
  · intro q handle hq
    have hlive := h.recorded q handle hq
    simpa only [lookup_insert_ite, hne q (mem_of_lookup hlive), if_false] using hlive
  · intro t' call q ht' hq
    rw [lookup_insert_ite] at ht'
    split_ifs at ht'
    · obtain rfl := Option.some.inj ht'
      obtain rfl := Option.some.inj hq
      refine ⟨(AList.mem_insert _).mpr (Or.inl rfl), fun hm => ?_⟩
      obtain ⟨handle, hhandle⟩ := Option.isSome_iff_exists.mp (AList.lookup_isSome.mpr hm)
      exact hd.1 (mem_of_lookup (h.recorded _ _ hhandle))
    · obtain ⟨hlive, hrec⟩ := h.held_mem t' call q ht' hq
      exact ⟨(AList.mem_insert _).mpr (Or.inr hlive), hrec⟩
  · intro t' handle ht'
    rw [lookup_insert_ite] at ht'
    split_ifs at ht'
    · obtain rfl := AllocatorCall.recordPending.inj (Option.some.inj ht')
      exact AList.lookup_insert _
    · have hlive := h.recordPending t' handle ht'
      simpa only [lookup_insert_ite, hne _ (mem_of_lookup hlive), if_false] using hlive
  · apply h.held_unique_insert rfl
    intro t' call ht' hp
    exact hd.1 (h.held_mem t' call p ht' hp).1
  · have hb := hd.2
    simp only [driverBytes, total_insert_of_notMem hd.1] at hb ⊢
    omega

theorem Owned.allocateRecord {s : AllocatorSystem} (h : s.Owned) {t : ThreadId}
    {handle : BlockHandle} (ht : s.calls.lookup t = some (.recordPending handle)) :
    Owned { s with
      allocator := s.allocator.allocateRecord handle
      calls := s.calls.erase t } := by
  constructor
  · intro q handle' hq
    simp only [BlockAllocator.allocateRecord, lookup_insert_ite] at hq
    split_ifs at hq with he
    · obtain rfl := Option.some.inj hq
      exact he ▸ h.recordPending t handle ht
    · exact h.recorded q handle' hq
  · intro t' call q ht' hq
    rw [lookup_erase_ite] at ht'
    split_ifs at ht' with he
    obtain ⟨hlive, hrec⟩ := h.held_mem t' call q ht' hq
    refine ⟨hlive, fun hm => ?_⟩
    rcases (AList.mem_insert _).mp hm with hq' | hm
    · exact he (h.held_unique t' t call _ q ht' ht hq (by rw [hq']; rfl))
    · exact hrec hm
  · intro t' handle' ht'
    rw [lookup_erase_ite] at ht'
    split_ifs at ht'
    exact h.recordPending t' handle' ht'
  · exact h.held_unique_erase t
  · exact h.bounded

theorem Owned.freeErase {s : AllocatorSystem} (h : s.Owned) {t : ThreadId} {p : DevicePtr}
    {stream : CudaStream} {a' : BlockAllocator} (he : s.allocator.freeErase p = some a') :
    Owned { s with allocator := a', calls := s.calls.insert t (.freePending p stream) } := by
  unfold BlockAllocator.freeErase at he
  split at he
  · contradiction
  obtain ⟨handle, hl, rfl⟩ := Option.map_eq_some_iff.mp he
  have hlive := h.recorded p handle hl
  have hnotHeld : ∀ t' call, s.calls.lookup t' = some call → call.held ≠ some p :=
    fun t' call ht' hp => (h.held_mem t' call p ht' hp).2 (mem_of_lookup hl)
  constructor
  · intro q handle' hq
    simp only [lookup_erase_ite] at hq
    split_ifs at hq
    exact h.recorded q handle' hq
  · intro t' call q ht' hq
    rw [lookup_insert_ite] at ht'
    split_ifs at ht'
    · obtain rfl := Option.some.inj ht'
      obtain rfl := Option.some.inj hq
      exact ⟨mem_of_lookup hlive, fun hm => (AList.mem_erase.mp hm).1 rfl⟩
    · obtain ⟨hm, hrec⟩ := h.held_mem t' call q ht' hq
      exact ⟨hm, fun hm' => hrec (AList.mem_erase.mp hm').2⟩
  · intro t' handle' ht'
    rw [lookup_insert_ite] at ht'
    split_ifs at ht'
    · cases Option.some.inj ht'
    · exact h.recordPending t' handle' ht'
  · exact h.held_unique_insert rfl hnotHeld
  · exact h.bounded

theorem Owned.driverFree {s : AllocatorSystem} (h : s.Owned) {t : ThreadId} {p : DevicePtr}
    {stream : CudaStream} (ht : s.calls.lookup t = some (.freePending p stream)) :
    Owned { s with driver := s.driver.erase p, calls := s.calls.erase t } := by
  obtain ⟨hp, hrec⟩ := h.held_mem t _ p ht rfl
  have hother : ∀ t' call q, t' ≠ t → s.calls.lookup t' = some call → call.held = some q →
      q ≠ p := by
    rintro t' call q hne ht' hq rfl
    exact hne (h.held_unique t' t call _ q ht' ht hq rfl)
  constructor
  · intro q handle hq
    have hne : q ≠ p := by rintro rfl; exact hrec (mem_of_lookup hq)
    simpa only [lookup_erase_ite, hne, if_false] using h.recorded q handle hq
  · intro t' call q ht' hq
    rw [lookup_erase_ite] at ht'
    split_ifs at ht' with he
    obtain ⟨hlive, hrec'⟩ := h.held_mem t' call q ht' hq
    exact ⟨AList.mem_erase.mpr ⟨hother t' call q he ht' hq, hlive⟩, hrec'⟩
  · intro t' handle ht'
    rw [lookup_erase_ite] at ht'
    split_ifs at ht' with he
    have hne := hother t' _ handle.ptr he ht' rfl
    simpa only [lookup_erase_ite, hne, if_false] using h.recordPending t' handle ht'
  · exact h.held_unique_erase t
  · obtain ⟨n, hn⟩ := Option.isSome_iff_exists.mp (AList.lookup_isSome.mpr hp)
    have hb := h.bounded
    rw [driverBytes, ← total_erase hn] at hb
    exact (Nat.le_add_left _ _).trans_lt hb

structure Accounted (s : AllocatorSystem) : Prop where
  counted : s.allocator.Counted
  owned : s.Owned

theorem init_accounted (threshold : ℕ) : (init threshold).Accounted where
  counted := ⟨rfl, fun _ => rfl⟩
  owned := by
    constructor
    · intro p handle h; simp [init, BlockAllocator.init] at h
    · intro t call p h; simp [init] at h
    · intro t handle h; simp [init] at h
    · intro t t' call call' p h; simp [init] at h
    · simp [init, driverBytes]

theorem step_accounted {s s' : AllocatorSystem} {a : AllocatorAction} (h : s.Accounted)
    (hs : step s a = some s') : s'.Accounted := by
  cases a with
  | allocateCheck t bytes category stream =>
    simp only [step] at hs
    split_ifs at hs with hmem
    split at hs
    · obtain rfl := Option.some.inj hs
      refine ⟨h.counted, h.owned.of_calls fun t' call ht' hheld => ?_⟩
      rw [lookup_insert_ite] at ht'
      split_ifs at ht'
      · obtain rfl := Option.some.inj ht'
        exact absurd rfl hheld
      · exact ht'
    · exact Option.some.inj hs ▸ h
  | driverMalloc t result =>
    simp only [step] at hs
    split at hs
    · obtain rfl := Option.some.inj hs
      refine ⟨h.counted, h.owned.of_calls fun t' call ht' _ => ?_⟩
      rw [lookup_erase_ite] at ht'
      split_ifs at ht'
      exact ht'
    · split_ifs at hs with hd
      obtain rfl := Option.some.inj hs
      exact ⟨h.counted, h.owned.driverMalloc hd⟩
    · contradiction
  | allocateRecord t =>
    simp only [step] at hs
    split at hs
    · rename_i handle ht
      obtain rfl := Option.some.inj hs
      exact ⟨h.counted.allocateRecord (h.owned.held_mem t _ _ ht rfl).2
        (h.owned.pendingBytes_lt ht), h.owned.allocateRecord ht⟩
    · contradiction
  | freeErase t ptr stream =>
    simp only [step] at hs
    split_ifs at hs
    split at hs
    · exact Option.some.inj hs ▸ h
    · rename_i he
      obtain rfl := Option.some.inj hs
      exact ⟨h.counted.freeErase h.owned.recordedBytes_lt he, h.owned.freeErase he⟩
  | driverFree t =>
    simp only [step] at hs
    split at hs
    · rename_i ht
      obtain rfl := Option.some.inj hs
      exact ⟨h.counted, h.owned.driverFree ht⟩
    · contradiction
  | resetPeakStats t =>
    simp only [step] at hs
    split_ifs at hs
    obtain rfl := Option.some.inj hs
    exact ⟨⟨h.counted.total_eq, h.counted.category_eq⟩,
      ⟨h.owned.recorded, h.owned.held_mem, h.owned.recordPending, h.owned.held_unique,
        h.owned.bounded⟩⟩

/-- Bytes allocated in every state since construction or the last `reset_peak_stats`, the latest
first; `seen` holds those before the run. -/
def totalsSinceReset : List ℕ → AllocatorSystem → List AllocatorAction → List ℕ
  | seen, _, [] => seen
  | seen, s, a :: rest =>
    match step s a with
    | none => seen
    | some s' =>
      let total := s'.allocator.totalAllocatedBytes
      match a with
      | .resetPeakStats _ => totalsSinceReset [total] s' rest
      | _ => totalsSinceReset (total :: seen) s' rest

theorem freeErase_total_le {a a' : BlockAllocator} (h : a.Counted) {p : DevicePtr}
    (hb : total handleBytes a.activeAllocations < 2 ^ 64) (he : a.freeErase p = some a') :
    a'.totalAllocatedBytes ≤ a.totalAllocatedBytes ∧
      a'.peakAllocatedBytes = a.peakAllocatedBytes := by
  unfold BlockAllocator.freeErase at he
  split at he
  · contradiction
  obtain ⟨handle, hl, rfl⟩ := Option.map_eq_some_iff.mp he
  refine ⟨?_, rfl⟩
  simp only
  rw [sub_eq (h.size_le hl).1 (h.total_eq ▸ hb)]
  exact Nat.sub_le _ _

/-- Every step but a reset raises the peak to the new total; a reset sets it to the total. -/
theorem step_peak {s s' : AllocatorSystem} {a : AllocatorAction} (h : s.Accounted)
    (hp : s.allocator.totalAllocatedBytes ≤ s.allocator.peakAllocatedBytes)
    (hs : step s a = some s') :
    s'.allocator.peakAllocatedBytes =
      match a with
      | .resetPeakStats _ => s'.allocator.totalAllocatedBytes
      | _ => max s'.allocator.totalAllocatedBytes s.allocator.peakAllocatedBytes := by
  cases a with
  | allocateCheck t bytes category stream =>
    simp only [step] at hs
    split_ifs at hs
    split at hs <;> obtain rfl := Option.some.inj hs <;> exact (max_eq_right hp).symm
  | driverMalloc t result =>
    simp only [step] at hs
    split at hs
    · obtain rfl := Option.some.inj hs
      exact (max_eq_right hp).symm
    · split_ifs at hs
      obtain rfl := Option.some.inj hs
      exact (max_eq_right hp).symm
    · contradiction
  | allocateRecord t =>
    simp only [step] at hs
    split at hs
    · obtain rfl := Option.some.inj hs
      exact max_comm _ _
    · contradiction
  | freeErase t ptr stream =>
    simp only [step] at hs
    split_ifs at hs
    split at hs
    · obtain rfl := Option.some.inj hs
      exact (max_eq_right hp).symm
    · rename_i he
      obtain rfl := Option.some.inj hs
      obtain ⟨hle, hpeak⟩ := freeErase_total_le h.counted h.owned.recordedBytes_lt he
      simp only [hpeak]
      exact (max_eq_right (hle.trans hp)).symm
  | driverFree t =>
    simp only [step] at hs
    split at hs
    · obtain rfl := Option.some.inj hs
      exact (max_eq_right hp).symm
    · contradiction
  | resetPeakStats t =>
    simp only [step] at hs
    split_ifs at hs
    obtain rfl := Option.some.inj hs
    rfl

theorem isGreatest_mem_singleton (n : ℕ) : IsGreatest {b | b ∈ [n]} n :=
  ⟨List.mem_singleton_self n, fun _ hb => (List.mem_singleton.mp hb).le⟩

theorem isGreatest_mem_cons {n m : ℕ} {l : List ℕ} (h : IsGreatest {b | b ∈ l} m) :
    IsGreatest {b | b ∈ n :: l} (max n m) := by
  constructor
  · rcases max_choice n m with he | he
    · rw [he]; exact List.mem_cons_self
    · rw [he]; exact List.mem_cons_of_mem _ h.1
  · intro b hb
    rcases List.mem_cons.mp hb with rfl | hb
    · exact le_max_left _ _
    · exact (h.2 hb).trans (le_max_right _ _)

/-- The peak is the greatest total seen, from any accounted state on. -/
theorem peak_isGreatest {s s' : AllocatorSystem} {actions : List AllocatorAction} {seen : List ℕ}
    (h : s.Accounted) (hcur : s.allocator.totalAllocatedBytes ∈ seen)
    (hseen : IsGreatest {b | b ∈ seen} s.allocator.peakAllocatedBytes)
    (he : Transition.exec step s actions = some s') :
    IsGreatest {b | b ∈ totalsSinceReset seen s actions} s'.allocator.peakAllocatedBytes := by
  induction actions generalizing s seen with
  | nil => exact Option.some.inj he ▸ hseen
  | cons a rest ih =>
    obtain ⟨t, ht, hrest⟩ := Transition.exec_cons.mp he
    have hpeak := step_peak h (hseen.2 hcur) ht
    simp only [totalsSinceReset, ht]
    cases a with
    | resetPeakStats _ =>
      refine ih (step_accounted h ht) (List.mem_singleton_self _) ?_ hrest
      exact hpeak ▸ isGreatest_mem_singleton _
    | _ =>
      exact ih (step_accounted h ht) List.mem_cons_self (hpeak ▸ isGreatest_mem_cons hseen) hrest

/-- The actions by which a call of `allocate` throws. -/
def FailsAllocate (s : AllocatorSystem) : AllocatorAction → Prop
  | .allocateCheck _ bytes _ _ => s.allocator.allocateCheck bytes = .outOfMemory
  | .driverMalloc _ result => result = none
  | _ => False

theorem failed_allocate_unchanged {s s' : AllocatorSystem} {a : AllocatorAction}
    (hf : s.FailsAllocate a) (hs : step s a = some s') : s'.allocator = s.allocator := by
  cases a with
  | allocateCheck t bytes category stream =>
    simp only [step, show s.allocator.allocateCheck bytes = _ from hf] at hs
    split_ifs at hs
    exact Option.some.inj hs ▸ rfl
  | driverMalloc t result =>
    obtain rfl : result = none := hf
    simp only [step] at hs
    split at hs
    · exact Option.some.inj hs ▸ rfl
    · contradiction
    · contradiction
  | _ => exact hf.elim

/-- After any interleaving of the callers' critical sections and driver calls the counters are the
sums over the recorded handles, subtraction cannot underflow, no insertion meets a recorded
address, failed allocations change nothing, and the peak is the greatest total since the reset. -/
theorem accounting_exact (threshold : ℕ) (actions : List AllocatorAction) (s : AllocatorSystem)
    (he : Transition.exec step (init threshold) actions = some s) :
    s.allocator.totalAllocatedBytes = total handleBytes s.allocator.activeAllocations ∧
    (∀ c, s.allocator.categoryAllocatedBytes c =
      total (handleBytesIn c) s.allocator.activeAllocations) ∧
    ∑ c, s.allocator.categoryAllocatedBytes c = s.allocator.totalAllocatedBytes ∧
    (∀ p handle, s.allocator.activeAllocations.lookup p = some handle →
      handle.sizeBytes ≤ s.allocator.totalAllocatedBytes ∧
      handle.sizeBytes ≤ s.allocator.categoryAllocatedBytes handle.category) ∧
    (∀ a s', s.FailsAllocate a → step s a = some s' → s'.allocator = s.allocator) ∧
    (∀ t handle, s.calls.lookup t = some (.recordPending handle) →
      handle.ptr ∉ s.allocator.activeAllocations) ∧
    IsGreatest {b | b ∈ totalsSinceReset [0] (init threshold) actions}
      s.allocator.peakAllocatedBytes := by
  have h : s.Accounted :=
    Transition.exec_preserves (fun _ _ _ h hs => step_accounted h hs) (init_accounted threshold) he
  exact ⟨h.counted.total_eq, h.counted.category_eq, h.counted.sum_categories,
    fun _ _ hp => h.counted.size_le hp, fun _ _ hf hs => failed_allocate_unchanged hf hs,
    fun t handle ht => (h.owned.held_mem t _ _ ht rfl).2,
    peak_isGreatest (init_accounted threshold) (List.mem_singleton_self 0)
      (isGreatest_mem_singleton 0) he⟩

theorem accounting_exact_interleaved : ∃ s,
    Transition.exec step (init 4096)
      [.allocateCheck 0 300 .weights 0, .allocateCheck 1 1 .kvCache 7, .driverMalloc 1 (some 4096),
        .driverMalloc 0 (some 8192), .allocateRecord 1, .freeErase 1 4096 7, .allocateRecord 0,
        .resetPeakStats 2, .driverFree 1] = some s ∧
    s.allocator.totalAllocatedBytes = total handleBytes s.allocator.activeAllocations ∧
    s.allocator.peakAllocatedBytes = 512 :=
  Transition.exec_exists (P := fun s => s.allocator.peakAllocatedBytes = 512) (by decide)
    fun s hs hpeak => ⟨(accounting_exact 4096 _ s hs).1, hpeak⟩

end AllocatorSystem
end CudaForge.Memory
