import CudaForge.Memory.ScopedBuffer

/-! When the cached bytes of the pool stay within their limit, which `release` only reports. -/
namespace CudaForge.Memory
open MachineWord FiniteMap BufferPool

namespace PoolSystem
variable {s s' : PoolSystem} {maxCachedBytes : ℕ}

/-- After a release the cached bytes are within the limit. -/
def WithinLimit (maxCachedBytes : ℕ) (s : PoolSystem) : PoolAction → Prop
  | .release t ptr stream => ∀ s' ∈ step s (.release t ptr stream),
    s'.pool.freeCachedBytes ≤ maxCachedBytes
  | _ => True

instance (s : PoolSystem) : ∀ a, Decidable (WithinLimit maxCachedBytes s a)
  | .release _ _ _ => inferInstanceAs (Decidable (∀ s' ∈ step s _, _))
  | .acquire _ _ _ _ _ | .acquirePurge _ | .acquireRetry _ _ | .purgeFreeBuffers _ _
  | .resetStats _ => isTrue trivial

/-- A buffer in use is released only where the limit has room for it. -/
def ReleaseFits (maxCachedBytes : ℕ) (s : PoolSystem) : PoolAction → Prop
  | .release t ptr _ => t ∉ s.calls → ∀ size, InUse s ptr size →
    s.pool.freeCachedBytes + size ≤ maxCachedBytes
  | _ => True

section Steps

/-- Nothing is cached beyond what was by anything but a release. -/
theorem Effect.free_le {e : PoolEvent} (h : s.Sound) (h' : s'.Sound) (he : Effect s s' e)
    (hr : ∀ ptr size, e ≠ .released ptr size) :
    s'.pool.freeCachedBytes ≤ s.pool.freeCachedBytes := by
  rw [h.counted.free_eq, h'.counted.free_eq]
  cases e with
  | idle => rw [he.nodes]
  | reused ptr size =>
    obtain ⟨node, node', rest, he⟩ := he
    have htotal := total_insert_of_lookup (f := freeBytes) he.lookup node'
    have hzero : freeBytes ptr node' = 0 := if_pos he.inUse
    rw [hzero, Nat.zero_add] at htotal
    rw [he.nodes]
    omega
  | allocated ptr size category =>
    obtain ⟨node, he⟩ := he
    have hzero : freeBytes ptr node = 0 := if_pos he.inUse
    rw [he.nodes, total_insert_of_notMem (AList.lookup_eq_none.mp he.fresh), hzero, Nat.zero_add]
  | released ptr size => exact absurd rfl (hr ptr size)
  | purged =>
    refine total_le_total fun ptr node hn => ⟨node, ?_, le_rfl⟩
    rw [he.lookup] at hn
    exact (Option.filter_eq_some_iff.mp hn).1

theorem Releasing.free_eq {ptr : DevicePtr} {size : ℕ} {node : PooledBufferNode} (h : s.Sound)
    (h' : s'.Sound) (he : Releasing s s' ptr size node) :
    s'.pool.freeCachedBytes = s.pool.freeCachedBytes + size := by
  have htotal := total_insert_of_lookup (f := freeBytes) he.lookup { node with inUse := false }
  have hzero : freeBytes ptr node = 0 := if_pos he.inUse
  have hsize : freeBytes ptr { node with inUse := false } = size := he.capacity
  rw [hzero, Nat.zero_add, hsize] at htotal
  rw [h.counted.free_eq, h'.counted.free_eq, he.nodes, htotal, Nat.add_comm]

theorem eventOf_ne_released {a : PoolAction} (ha : ∀ t ptr stream, a ≠ .release t ptr stream)
    (ptr : DevicePtr) (size : ℕ) : eventOf s a ≠ .released ptr size := by
  cases a with
  | acquire t bytes category stream result => exact acquire_not_released s ptr size
  | acquireRetry t result =>
    rcases eventOf_acquireRetry s t result with hidle | ⟨q, bucketSize, category, halloc⟩
    · rw [hidle]
      exact PoolEvent.noConfusion
    · rw [halloc]
      exact PoolEvent.noConfusion
  | release t q stream => exact absurd rfl (ha t q stream)
  | acquirePurge t => exact PoolEvent.noConfusion
  | purgeFreeBuffers t stream => exact PoolEvent.noConfusion
  | resetStats t => exact PoolEvent.noConfusion

/-- What a release does: nothing, to a pointer that is not in use, or one buffer becomes free. -/
theorem step_release {t : ThreadId} {ptr : DevicePtr} {stream : CudaStream} (h : s.Sound)
    (hs : step s (.release t ptr stream) = some s') :
    (s'.pool.freeCachedBytes = s.pool.freeCachedBytes ∧ ∀ size, ¬ InUse s ptr size) ∨
      ∃ size, InUse s ptr size ∧ s'.pool.freeCachedBytes = s.pool.freeCachedBytes + size := by
  have heffect := step_effect h hs
  have h' := step_sound h hs
  have hsame (hidle : Idle s s') : s'.pool.freeCachedBytes = s.pool.freeCachedBytes := by
    rw [h.counted.free_eq, h'.counted.free_eq, hidle.nodes]
  cases hn : s.pool.poolNodes.lookup ptr with
  | none =>
    simp only [eventOf, hn] at heffect
    refine .inl ⟨hsame heffect, ?_⟩
    rintro size ⟨node, hnode, -⟩
    rw [hn] at hnode
    cases hnode
  | some node =>
    simp only [eventOf, hn] at heffect
    by_cases huse : node.inUse = true
    · rw [if_pos huse] at heffect
      obtain ⟨node', he⟩ := heffect
      exact .inr ⟨node.capacityBytes, ⟨node, hn, huse, rfl⟩, he.free_eq h h'⟩
    · rw [if_neg huse] at heffect
      refine .inl ⟨hsame heffect, ?_⟩
      rintro size ⟨node', hnode, huse', -⟩
      rw [hn, Option.some.injEq] at hnode
      exact huse (hnode ▸ huse')

theorem InUse.unique {ptr : DevicePtr} {size size' : ℕ} (h : InUse s ptr size)
    (h' : InUse s ptr size') : size = size' := by
  obtain ⟨node, hn, -, rfl⟩ := h
  obtain ⟨node', hn', -, rfl⟩ := h'
  rw [Option.some.inj (hn.symm.trans hn')]

/-- Where the cache is within its limit, a step leaves it there after releases exactly when it
releases nothing beyond. -/
theorem withinLimit_iff {a : PoolAction} (h : s.Sound)
    (hlimit : s.pool.freeCachedBytes ≤ maxCachedBytes) :
    WithinLimit maxCachedBytes s a ↔ ReleaseFits maxCachedBytes s a := by
  cases a with
  | release t ptr stream =>
    constructor
    · intro hwithin ht size huse
      have hstep : step s (.release t ptr stream) = some { s with pool := s.pool.release ptr } :=
        if_neg ht
      have hle := hwithin _ hstep
      rcases step_release h hstep with ⟨-, hunused⟩ | ⟨size', huse', hfree⟩
      · exact absurd huse (hunused size)
      · rwa [hfree, huse'.unique huse] at hle
    · intro hfits s' hs
      have ht : t ∉ s.calls := by
        intro hmem
        rw [step, if_pos hmem] at hs
        cases hs
      rcases step_release h hs with ⟨hfree, -⟩ | ⟨size, huse, hfree⟩
      · rwa [hfree]
      · rw [hfree]
        exact hfits ht size huse
  | _ => exact Iff.rfl

theorem step_within {a : PoolAction} (h : s.Sound)
    (hlimit : s.pool.freeCachedBytes ≤ maxCachedBytes) (hwithin : WithinLimit maxCachedBytes s a)
    (hs : step s a = some s') : s'.pool.freeCachedBytes ≤ maxCachedBytes := by
  by_cases hrelease : ∃ t ptr stream, a = .release t ptr stream
  · obtain ⟨t, ptr, stream, rfl⟩ := hrelease
    exact hwithin s' hs
  · push Not at hrelease
    exact ((step_effect h hs).free_le h (step_sound h hs)
      (eventOf_ne_released hrelease)).trans hlimit

/-- A buffer in use stays in use unless the step releases it. -/
theorem step_keeps_inUse {a : PoolAction} {ptr : DevicePtr} {size : ℕ} (h : s.Sound)
    (hs : step s a = some s') (huse : InUse s ptr size) :
    InUse s' ptr size ∨ ∃ t stream, a = .release t ptr stream := by
  have heffect := step_effect h hs
  by_cases hreleased : ∃ q bucketSize, eventOf s a = .released q bucketSize
  · obtain ⟨q, bucketSize, heq⟩ := hreleased
    rw [heq] at heffect
    obtain ⟨node, he⟩ := heffect
    by_cases hrelease : ∃ t p stream, a = .release t p stream
    · obtain ⟨t, p, stream, rfl⟩ := hrelease
      rcases eventOf_release s t p stream with hidle | ⟨size', hevent⟩
      · rw [hidle] at heq
        cases heq
      · rw [hevent] at heq
        obtain ⟨rfl, -⟩ := PoolEvent.released.inj heq
        by_cases hptr : ptr = p
        · exact .inr ⟨t, stream, by rw [hptr]⟩
        · exact .inl ((he.takesBack.inUse ptr size).mpr ⟨hptr, huse⟩)
    · push Not at hrelease
      exact absurd heq (eventOf_ne_released hrelease q bucketSize)
  · push Not at hreleased
    left
    rcases heffect.use hreleased with ⟨-, hsame⟩ | ⟨q, bucketSize, -, hout⟩
    · exact (hsame.inUse ptr size).mpr huse
    · exact (hout.inUse ptr size).mpr (.inr huse)

end Steps

/-- In every run the cached bytes are within the limit after every release exactly when every
release of a buffer in use finds room for it, and no buffer in use is taken away. -/
theorem cache_limit_iff (maxCachedBytes : ℕ) (actions : List PoolAction) :
    (Transition.AllSteps step (WithinLimit maxCachedBytes) (init maxCachedBytes) actions ↔
      Transition.AllSteps step (ReleaseFits maxCachedBytes) (init maxCachedBytes) actions) ∧
    ∀ s a s' ptr size, Transition.exec step (init maxCachedBytes) actions = some s →
      step s a = some s' → InUse s ptr size →
      InUse s' ptr size ∨ ∃ t stream, a = .release t ptr stream := by
  constructor
  · refine Transition.allSteps_iff_of_kept
      (I := fun s => s.Sound ∧ s.pool.freeCachedBytes ≤ maxCachedBytes) ?_ ?_
      ⟨init_sound maxCachedBytes, Nat.zero_le _⟩ actions
    · rintro s a s' ⟨h, hlimit⟩ hwithin hs
      exact ⟨step_sound h hs, step_within h hlimit hwithin hs⟩
    · rintro s a ⟨h, hlimit⟩
      exact withinLimit_iff h hlimit
  · intro s a s' ptr size hrun hs huse
    have h : s.Sound := Transition.exec_preserves (fun _ _ _ h hs => step_sound h hs)
      (init_sound maxCachedBytes) hrun
    exact step_keeps_inUse h hs huse

theorem cache_limit_iff_one :
    Transition.AllSteps step (ReleaseFits 256) (init 256)
      [.acquire 0 100 .workspace 0 (some 4096), .release 0 4096 0] :=
  (cache_limit_iff 256 _).1.mp (by decide)

/-- With a limit of 256 bytes, the second of two buffers of 256 bytes is cached beyond it. -/
theorem cache_limit_exceeded :
    ¬ Transition.AllSteps step (WithinLimit 256) (init 256)
      [.acquire 0 100 .workspace 0 (some 4096), .acquire 0 100 .workspace 0 (some 8192),
        .release 0 4096 0, .release 0 8192 0] := by
  decide

end PoolSystem
end CudaForge.Memory
