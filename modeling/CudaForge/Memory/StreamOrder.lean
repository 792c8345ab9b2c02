import CudaForge.Library.KeyedQueue
import CudaForge.Memory.PoolSteps

/-!
The streams on which the buffers of the pool are released and handed out again.

The pool keeps no streams. Two records are kept beside it: for each buffer the stream of its last
release, and the releases that no acquire has reused and no purge has returned to the allocator.
-/
namespace CudaForge.Memory
open FiniteMap KeyedQueue BufferPool PoolSystem

/-- A release by its bucket and stream; the stream is `none` once the host has synchronised with
it. -/
abbrev OutstandingRelease := ℕ × Option CudaStream

structure StreamSystem where
  base : PoolSystem
  /-- The stream argument of the `acquire` that a thread is in. -/
  callStream : ThreadId → CudaStream
  /-- The stream of a cached buffer's release, unless the host has synchronised with it since. -/
  unsynced : DevicePtr → Option CudaStream
  /-- The latest release first. -/
  outstanding : List OutstandingRelease

inductive StreamAction where
  /-- The host calls `cudaStreamSynchronize`. -/
  | synchronize (stream : CudaStream)
  | pool (a : PoolAction)
  deriving DecidableEq

/-- Work enqueued before a release on `released` is complete, or ordered before what is enqueued on
`stream`. -/
def Settled (released : Option CudaStream) (stream : CudaStream) : Prop :=
  released = none ∨ released = some stream

instance (released : Option CudaStream) (stream : CudaStream) :
    Decidable (Settled released stream) :=
  inferInstanceAs (Decidable (_ ∨ _))

namespace StreamSystem

def init (maxCachedBytes : ℕ) : StreamSystem where
  base := PoolSystem.init maxCachedBytes
  callStream := fun _ => 0
  unsynced := fun _ => none
  outstanding := []

def forget (stream : CudaStream) (released : Option CudaStream) : Option CudaStream :=
  if released = some stream then none else released

def synchronize (s : StreamSystem) (stream : CudaStream) : StreamSystem :=
  { s with
    unsynced := fun ptr => forget stream (s.unsynced ptr)
    outstanding := s.outstanding.map fun r => (r.1, forget stream r.2) }

def streamOf (s : StreamSystem) : PoolAction → CudaStream
  | .acquire _ _ _ stream _ => stream
  | .acquirePurge t => s.callStream t
  | .acquireRetry t _ => s.callStream t
  | .release _ _ stream => stream
  | .purgeFreeBuffers _ stream => stream
  | .resetStats _ => 0

def recordCall (s : StreamSystem) : PoolAction → StreamSystem
  | .acquire t _ _ stream _ => { s with callStream := Function.update s.callStream t stream }
  | _ => s

/-- A purge synchronises with a non-null stream before it frees anything. -/
def recordEvent (s : StreamSystem) (stream : CudaStream) : PoolEvent → StreamSystem
  | .idle => s
  | .reused ptr bucketSize =>
    { s with
      unsynced := Function.update s.unsynced ptr none
      outstanding := s.outstanding.eraseP fun r => r.1 = bucketSize }
  | .allocated ptr _ _ => { s with unsynced := Function.update s.unsynced ptr none }
  | .released ptr bucketSize =>
    { s with
      unsynced := Function.update s.unsynced ptr (some stream)
      outstanding := (bucketSize, some stream) :: s.outstanding }
  | .purged => { (if stream = 0 then s else s.synchronize stream) with outstanding := [] }

def step (s : StreamSystem) : StreamAction → Option StreamSystem
  | .synchronize stream => some (s.synchronize stream)
  | .pool a => (PoolSystem.step s.base a).map fun base =>
    { (s.recordEvent (s.streamOf a) (eventOf s.base a)).recordCall a with base := base }

/-- The cached buffers that the action hands out again or returns to the allocator. -/
def leaving (s : StreamSystem) (a : PoolAction) : List DevicePtr :=
  match eventOf s.base a with
  | .reused ptr _ => [ptr]
  | .purged => s.base.pool.purgeFreeBuffers.freed
  | _ => []

/-- Every buffer that leaves the cache was released on the stream of this call, or the host has
synchronised with the stream of its release since. -/
def InOrder (s : StreamSystem) : StreamAction → Prop
  | .synchronize _ => True
  | .pool a => ∀ ptr ∈ s.leaving a, Settled (s.unsynced ptr) (s.streamOf a)

instance (s : StreamSystem) : ∀ a, Decidable (s.InOrder a)
  | .synchronize _ => isTrue trivial
  | .pool a => inferInstanceAs (Decidable (∀ ptr ∈ s.leaving a, _))

/-- The releases that the call takes up: an acquire the latest outstanding one of its bucket, a
purge all of them. -/
def takenUp (s : StreamSystem) : PoolAction → List (Option CudaStream)
  | .acquire _ bytes _ _ _ =>
    if bytes = 0 then []
    else match calculateBucketSize bytes with
      | none => []
      | some bucketSize =>
        ((s.outstanding.find? fun r => r.1 = bucketSize).map Prod.snd).toList
  | .acquirePurge _ => s.outstanding.map Prod.snd
  | .purgeFreeBuffers _ _ => s.outstanding.map Prod.snd
  | _ => []

/-- The caller reuses releases of its own stream, or of streams the host has synchronised with. -/
def Disciplined (s : StreamSystem) : StreamAction → Prop
  | .synchronize _ => True
  | .pool a => ∀ released ∈ s.takenUp a, Settled released (s.streamOf a)

instance (s : StreamSystem) : ∀ a, Decidable (s.Disciplined a)
  | .synchronize _ => isTrue trivial
  | .pool a => inferInstanceAs (Decidable (∀ released ∈ s.takenUp a, _))

/-- The outstanding releases of a bucket are those of its cached buffers, in the same order. -/
structure Recorded (s : StreamSystem) : Prop where
  sound : s.base.Sound
  lifo : ∀ size, (s.outstanding.filter fun r => r.1 = size).map Prod.snd =
    (s.base.pool.bucket size).map s.unsynced

theorem init_recorded (maxCachedBytes : ℕ) : (init maxCachedBytes).Recorded where
  sound := init_sound maxCachedBytes
  lifo _ := rfl

theorem map_update_of_notMem {l : List DevicePtr} {ptr : DevicePtr} (h : ptr ∉ l)
    (f : DevicePtr → Option CudaStream) (x : Option CudaStream) :
    l.map (Function.update f ptr x) = l.map f := by
  apply List.map_congr_left
  intro q hq
  apply Function.update_of_ne
  rintro rfl
  exact h hq

section Step
variable {s : StreamSystem}

theorem Recorded.synchronize (h : s.Recorded) (stream : CudaStream) :
    (s.synchronize stream).Recorded where
  sound := h.sound
  lifo size := by
    have hlifo := congrArg (List.map (forget stream)) (h.lifo size)
    rw [List.map_map, List.map_map] at hlifo
    show ((s.outstanding.map fun r => (r.1, forget stream r.2)).filter
      fun r => r.1 = size).map Prod.snd = _
    rw [List.filter_map, List.map_map]
    exact hlifo

/-- A buffer in use is in no bucket. -/
theorem notMem_bucket (h : s.base.Sound) {ptr : DevicePtr} {node : PooledBufferNode}
    (hn : s.base.pool.poolNodes.lookup ptr = some node) (huse : node.inUse = true) (size : ℕ) :
    ptr ∉ s.base.pool.bucket size := by
  intro hmem
  obtain ⟨node', hn', huse', -⟩ := (h.bucketed.mem_iff _ _).mp hmem
  rw [Option.some.inj (hn.symm.trans hn'), huse'] at huse
  cases huse

theorem Recorded.event (h : s.Recorded) {base : PoolSystem} {e : PoolEvent} (stream : CudaStream)
    (hsound : base.Sound) (he : Effect s.base base e) :
    Recorded { s.recordEvent stream e with base := base } where
  sound := hsound
  lifo size := by
    cases e with
    | idle =>
      show _ = (base.pool.bucket size).map s.unsynced
      rw [he.buckets]
      exact h.lifo size
    | reused ptr bucketSize =>
      obtain ⟨node, node', rest, he⟩ := he
      have hnodup := h.sound.bucketed.nodup bucketSize
      rw [he.bucket] at hnodup
      show ((s.outstanding.eraseP fun r => r.1 = bucketSize).filter fun r => r.1 = size).map _ =
        (base.pool.bucket size).map (Function.update s.unsynced ptr none)
      rw [he.buckets]
      split_ifs with hsize
      · subst hsize
        have hlifo := h.lifo size
        rw [he.bucket, List.map_cons] at hlifo
        rw [filter_eraseP_self, map_update_of_notMem (List.nodup_cons.mp hnodup).1, List.map_tail,
          hlifo, List.tail_cons]
      · have hnot : ptr ∉ s.base.pool.bucket size := by
          intro hmem
          have hfree := (h.sound.bucketed.mem_iff _ _).mp hmem
          exact hsize (hfree.unique ⟨node, he.lookup, he.free, he.capacity⟩)
        rw [map_update_of_notMem hnot, filter_eraseP_disjoint, h.lifo size]
        intro r hr
        have hbucket : r.1 = bucketSize := of_decide_eq_true hr
        exact decide_eq_false fun heq => hsize (heq.symm.trans hbucket)
    | allocated ptr bucketSize category =>
      obtain ⟨node, he⟩ := he
      have hnot : ptr ∉ s.base.pool.bucket size := by
        intro hmem
        obtain ⟨node', hn', -, -⟩ := (h.sound.bucketed.mem_iff _ _).mp hmem
        rw [he.fresh] at hn'
        cases hn'
      show _ = (base.pool.bucket size).map (Function.update s.unsynced ptr none)
      rw [he.buckets, map_update_of_notMem hnot]
      exact h.lifo size
    | released ptr bucketSize =>
      obtain ⟨node, he⟩ := he
      have hnot := notMem_bucket h.sound he.lookup he.inUse size
      show (((bucketSize, some stream) :: s.outstanding).filter fun r => r.1 = size).map _ =
        (base.pool.bucket size).map (Function.update s.unsynced ptr (some stream))
      rw [he.buckets]
      split_ifs with hsize
      · rw [List.filter_cons_of_pos (by simp [hsize]), List.map_cons, List.map_cons,
          map_update_of_notMem hnot, Function.update_self, h.lifo size]
      · rw [List.filter_cons_of_neg (by simpa using Ne.symm hsize), map_update_of_notMem hnot,
          h.lifo size]
    | purged =>
      show _ = (base.pool.bucket size).map _
      rw [he.buckets]
      rfl

theorem Recorded.recordCall (h : s.Recorded) (a : PoolAction) : (s.recordCall a).Recorded := by
  cases a <;> exact ⟨h.sound, h.lifo⟩

theorem step_recorded {s' : StreamSystem} {a : StreamAction} (h : s.Recorded)
    (hs : step s a = some s') : s'.Recorded := by
  cases a with
  | synchronize stream =>
    obtain rfl := Option.some.inj hs
    exact h.synchronize stream
  | pool a =>
    obtain ⟨base, hbase, rfl⟩ := Option.map_eq_some_iff.mp hs
    have hevent := h.event (s.streamOf a) (step_sound h.sound hbase)
      (step_effect h.sound hbase)
    have hcall := hevent.recordCall a
    cases a <;> exact hcall

theorem Recorded.taken_iff_freed (h : s.Recorded) (stream : CudaStream) :
    (∀ released ∈ s.outstanding.map Prod.snd, Settled released stream) ↔
      ∀ ptr ∈ s.base.pool.purgeFreeBuffers.freed, Settled (s.unsynced ptr) stream := by
  constructor
  · intro htaken ptr hptr
    obtain ⟨size, hmem⟩ := (h.sound.mem_freed ptr).mp hptr
    have hin : s.unsynced ptr ∈ (s.outstanding.filter fun r => r.1 = size).map Prod.snd :=
      h.lifo size ▸ List.mem_map_of_mem hmem
    obtain ⟨r, hr, hrs⟩ := List.mem_map.mp hin
    exact htaken _ (List.mem_map.mpr ⟨r, List.mem_of_mem_filter hr, hrs⟩)
  · intro hfreed released hreleased
    obtain ⟨r, hr, rfl⟩ := List.mem_map.mp hreleased
    have hin : r.2 ∈ (s.outstanding.filter fun q => q.1 = r.1).map Prod.snd :=
      List.mem_map.mpr ⟨r, List.mem_filter.mpr ⟨hr, by simp⟩, rfl⟩
    rw [h.lifo] at hin
    obtain ⟨ptr, hptr, heq⟩ := List.mem_map.mp hin
    exact heq ▸ hfreed ptr ((h.sound.mem_freed ptr).mpr ⟨_, hptr⟩)

/-- The pool hands out the buffer of the latest outstanding release of the bucket. -/
theorem Recorded.disciplined_iff (h : s.Recorded) (a : StreamAction) :
    s.InOrder a ↔ s.Disciplined a := by
  cases a with
  | synchronize _ => exact Iff.rfl
  | pool a =>
    cases a with
    | acquire t bytes category stream result =>
      simp only [InOrder, Disciplined, leaving, takenUp, eventOf, streamOf]
      split_ifs with hbytes
      · simp
      cases calculateBucketSize bytes with
      | none => simp
      | some bucketSize =>
        have hlifo := congrArg List.head? (h.lifo bucketSize)
        rw [List.head?_map, List.head?_filter] at hlifo
        simp only [hlifo]
        cases s.base.pool.bucket bucketSize with
        | cons ptr rest => simp
        | nil => cases result <;> simp
    | acquirePurge t => exact (h.taken_iff_freed _).symm
    | purgeFreeBuffers t stream => exact (h.taken_iff_freed _).symm
    | acquireRetry t result =>
      unfold InOrder Disciplined leaving
      rcases eventOf_acquireRetry s.base t result with he | ⟨ptr, bucketSize, category, he⟩ <;>
        simp [he, takenUp]
    | release t ptr stream =>
      unfold InOrder Disciplined leaving
      rcases eventOf_release s.base t ptr stream with he | ⟨bucketSize, he⟩ <;> simp [he, takenUp]
    | resetStats t => simp [InOrder, Disciplined, leaving, takenUp, eventOf]

end Step

/-- In every run, reuse respects stream order at every step exactly when every acquire and purge
takes up releases of its own stream or of streams the host has synchronised with since. -/
theorem streamOrder_iff (maxCachedBytes : ℕ) (actions : List StreamAction) :
    Transition.AllSteps step InOrder (init maxCachedBytes) actions ↔
      Transition.AllSteps step Disciplined (init maxCachedBytes) actions :=
  Transition.allSteps_congr (fun _ _ _ h hs => step_recorded h hs)
    (fun _ _ h => h.disciplined_iff _) (init_recorded maxCachedBytes) actions

/-- A buffer released on stream 1 is handed out on stream 2 without any synchronisation. -/
theorem reuse_across_streams :
    ¬ Transition.AllSteps step InOrder (init 1024)
      [.pool (.acquire 0 256 .workspace 1 (some 4096)), .pool (.release 0 4096 1),
        .pool (.acquire 0 256 .workspace 2 none)] := by
  decide +kernel

end StreamSystem
end CudaForge.Memory
