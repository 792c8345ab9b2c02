import CudaForge.Memory.PoolSteps

/-! What is cached when an acquire gives up after its recovery purge. -/
namespace CudaForge.Memory
open FiniteMap BufferPool PoolSystem

structure RecoverySystem where
  base : PoolSystem
  /-- The buffers released since the last purge and not acquired again since. -/
  releasedSincePurge : List DevicePtr

namespace RecoverySystem

def init (maxCachedBytes : ℕ) : RecoverySystem := ⟨PoolSystem.init maxCachedBytes, []⟩

def recordEvent (released : List DevicePtr) : PoolEvent → List DevicePtr
  | .idle => released
  | .reused ptr _ => released.filter (· ≠ ptr)
  | .allocated _ _ _ => released
  | .released ptr _ => ptr :: released
  | .purged => []

def step (s : RecoverySystem) (a : PoolAction) : Option RecoverySystem :=
  (PoolSystem.step s.base a).map fun base =>
    ⟨base, recordEvent s.releasedSincePurge (eventOf s.base a)⟩

/-- The action by which an acquire throws `BufferPoolOOMException`: the allocator fails again after
the purge. -/
def throwsOom (s : RecoverySystem) : PoolAction → Bool
  | .acquireRetry t none =>
    match s.base.calls.lookup t with
    | some (.retryPending _ _ _) => true
    | _ => false
  | _ => false

/-- No acquire gives up while a free buffer is cached. -/
def NotSpurious (s : RecoverySystem) (a : PoolAction) : Prop :=
  s.throwsOom a = true → s.base.pool.freeCachedBytes = 0

instance (s : RecoverySystem) (a : PoolAction) : Decidable (s.NotSpurious a) :=
  inferInstanceAs (Decidable (_ → _))

/-- No release comes between the purge and the failing retry, unless its buffer is acquired again
in between. -/
def Undisturbed (s : RecoverySystem) (a : PoolAction) : Prop :=
  s.throwsOom a = true → s.releasedSincePurge = []

/-- Exactly the buffers released since the last purge are cached. -/
structure Recorded (s : RecoverySystem) : Prop where
  sound : s.base.Sound
  mem_iff : ∀ ptr, ptr ∈ s.releasedSincePurge ↔
    ∃ node, s.base.pool.poolNodes.lookup ptr = some node ∧ node.inUse = false

theorem init_recorded (maxCachedBytes : ℕ) : (init maxCachedBytes).Recorded where
  sound := init_sound maxCachedBytes
  mem_iff ptr := by simp [init, PoolSystem.init, BufferPool.init]

section Step
variable {s s' : RecoverySystem}

theorem Recorded.event {base : PoolSystem} {e : PoolEvent} (h : s.Recorded)
    (he : Effect s.base base e) (ptr : DevicePtr) :
    ptr ∈ recordEvent s.releasedSincePurge e ↔
      ∃ node, base.pool.poolNodes.lookup ptr = some node ∧ node.inUse = false := by
  cases e with
  | idle =>
    rw [he.nodes]
    exact h.mem_iff ptr
  | reused q bucketSize =>
    obtain ⟨node, node', rest, he⟩ := he
    unfold recordEvent
    rw [he.nodes, List.mem_filter, h.mem_iff, lookup_insert_ite]
    split_ifs with hq
    · simp [hq, he.inUse]
    · simp [hq]
  | allocated q bucketSize category =>
    obtain ⟨node, he⟩ := he
    unfold recordEvent
    rw [he.nodes, h.mem_iff, lookup_insert_ite]
    split_ifs with hq
    · subst hq
      simp [he.fresh, he.inUse]
    · rfl
  | released q bucketSize =>
    obtain ⟨node, he⟩ := he
    unfold recordEvent
    rw [he.nodes, List.mem_cons, h.mem_iff, lookup_insert_ite]
    split_ifs with hq
    · simp [hq]
    · simp [hq]
  | purged =>
    unfold recordEvent
    rw [he.lookup]
    constructor
    · intro hnil
      cases hnil
    · rintro ⟨node, hn, huse⟩
      obtain ⟨-, hkeep⟩ := Option.filter_eq_some_iff.mp hn
      rw [huse] at hkeep
      cases hkeep

theorem step_recorded {a : PoolAction} (h : s.Recorded) (hs : step s a = some s') :
    s'.Recorded := by
  obtain ⟨base, hbase, rfl⟩ := Option.map_eq_some_iff.mp hs
  exact ⟨step_sound h.sound hbase, h.event (step_effect h.sound hbase)⟩

/-- Cached buffers are counted with a positive size. -/
theorem Recorded.freeCachedBytes_eq_zero_iff (h : s.Recorded) :
    s.base.pool.freeCachedBytes = 0 ↔ s.releasedSincePurge = [] := by
  rw [h.sound.counted.free_eq, List.eq_nil_iff_forall_not_mem]
  constructor
  · intro hzero ptr hmem
    obtain ⟨node, hn, huse⟩ := (h.mem_iff ptr).mp hmem
    have hle := le_total (f := freeBytes) hn
    have hpos := (h.sound.sizes ptr node hn).pos
    simp only [freeBytes, huse, Bool.false_eq_true, if_false] at hle
    omega
  · intro hnone
    have hle : total freeBytes s.base.pool.poolNodes ≤
        total (fun _ _ => 0) s.base.pool.poolNodes := by
      apply total_le_total
      intro ptr node hn
      refine ⟨node, hn, ?_⟩
      have huse : node.inUse = true := by
        by_contra huse
        exact hnone ptr ((h.mem_iff ptr).mpr ⟨node, hn, by simpa using huse⟩)
      simp [freeBytes, huse]
    have hzero : total (fun (_ : DevicePtr) (_ : PooledBufferNode) => 0)
        s.base.pool.poolNodes = 0 := by simp [total]
    omega

end Step

/-- In every interleaving, no out-of-memory exception is spurious exactly when between the purge and
the retry of each call that throws no buffer is released for good. -/
theorem notSpurious_iff (maxCachedBytes : ℕ) (actions : List PoolAction) :
    Transition.AllSteps step NotSpurious (init maxCachedBytes) actions ↔
      Transition.AllSteps step Undisturbed (init maxCachedBytes) actions :=
  Transition.allSteps_congr (fun _ _ _ h hs => step_recorded h hs)
    (fun _ _ h => imp_congr_right fun _ => h.freeCachedBytes_eq_zero_iff)
    (init_recorded maxCachedBytes) actions

/-- Thread 0 releases a buffer after the purge of thread 1, which then gives up with 256 bytes
cached. -/
theorem release_after_purge :
    ¬ Transition.AllSteps step NotSpurious (init 1024)
      [.acquire 0 256 .workspace 0 (some 4096), .acquire 1 512 .workspace 0 none,
        .acquirePurge 1, .release 0 4096 0, .acquireRetry 1 none] := by
  decide +kernel

end RecoverySystem
end CudaForge.Memory
