import CudaForge.Memory.ScopedBuffer
import CudaForge.Library.WhileLoop

/-! For which requests the doubling loop of the pool ends, and what `acquire` makes of it. -/
namespace CudaForge.Memory
open MachineWord BufferPool PoolSystem

/-- `calculate_bucket_size` returns the value: its loop by its finite executions. -/
def BucketSizeReturns (bytes bucketSize : ℕ) : Prop :=
  if bytes = 0 then bucketSize = 256
  else WhileLoop.Returns (fun power => power < bytes) (shl 64) 256 bucketSize

section Doubling
variable {bytes bucketSize : ℕ}

theorem iterate_shl {m : ℕ} (h : m ≤ 55) : (shl 64)^[m] 256 = 2 ^ (8 + m) := by
  induction m with
  | zero => rfl
  | succ m ih =>
    have hlt : 2 ^ (8 + (m + 1)) < 2 ^ 64 := Nat.pow_lt_pow_right (by decide) (by omega)
    have hpow : 2 * 2 ^ (8 + m) = 2 ^ (8 + (m + 1)) := by ring
    rw [Function.iterate_succ_apply', ih (by omega), shl, hpow, Nat.mod_eq_of_lt hlt]

theorem iterate_lt (h : bytes ≤ 2 ^ 63) {m : ℕ} (hm : m < Nat.clog 2 bytes - 8) :
    (shl 64)^[m] 256 < bytes := by
  have hclog : Nat.clog 2 bytes ≤ 63 := (Nat.clog_le_iff_le_pow (by decide)).mpr h
  rw [iterate_shl (by omega), ← not_le, ← Nat.clog_le_iff_le_pow (by decide)]
  omega

theorem le_iterate (h : bytes ≤ 2 ^ 63) : bytes ≤ (shl 64)^[Nat.clog 2 bytes - 8] 256 := by
  have hclog : Nat.clog 2 bytes ≤ 63 := (Nat.clog_le_iff_le_pow (by decide)).mpr h
  rw [iterate_shl (by omega), ← Nat.clog_le_iff_le_pow (by decide)]
  omega

/-- Up to `2 ^ 63` the loop ends at the first power of two that is large enough. -/
theorem returns_clog (h : bytes ≤ 2 ^ 63) :
    WhileLoop.Returns (fun power => power < bytes) (shl 64) 256
      (2 ^ max 8 (Nat.clog 2 bytes)) := by
  have hclog : Nat.clog 2 bytes ≤ 63 := (Nat.clog_le_iff_le_pow (by decide)).mpr h
  have hsum : 8 + (Nat.clog 2 bytes - 8) = max 8 (Nat.clog 2 bytes) := by omega
  rw [← hsum, ← iterate_shl (by omega)]
  exact WhileLoop.returns_iterate (fun m hm => iterate_lt h hm) (not_lt.mpr (le_iterate h))

/-- Above `2 ^ 63` the bit is shifted out before the power is large enough. -/
theorem not_returns_of_gt (h : 2 ^ 63 < bytes) :
    ¬ WhileLoop.Returns (fun power => power < bytes) (shl 64) 256 bucketSize := by
  refine WhileLoop.not_returns (fun power => power = 0 ∨ ∃ k ≤ 63, power = 2 ^ k)
    (.inr ⟨8, by decide, rfl⟩) ?_ ?_
  · rintro _ (rfl | ⟨k, hk, rfl⟩)
    · exact (Nat.zero_le _).trans_lt h
    · exact (Nat.pow_le_pow_right (by decide) hk).trans_lt h
  · rintro _ (rfl | ⟨k, hk, rfl⟩)
    · exact .inl rfl
    · rcases hk.lt_or_eq with hlt | rfl
      · have hpow : 2 * 2 ^ k = 2 ^ (k + 1) := by ring
        have hbound : 2 ^ (k + 1) < 2 ^ 64 := Nat.pow_lt_pow_right (by decide) (by omega)
        exact .inr ⟨k + 1, hlt, by rw [shl, hpow, Nat.mod_eq_of_lt hbound]⟩
      · exact .inl (by decide)

theorem bucketSizeReturns_iff : (∃ v, BucketSizeReturns bytes v) ↔ bytes ≤ 2 ^ 63 := by
  unfold BucketSizeReturns
  constructor
  · rintro ⟨v, hv⟩
    by_contra hgt
    rw [if_neg (by omega)] at hv
    exact not_returns_of_gt (not_le.mp hgt) hv
  · intro h
    split_ifs
    · exact ⟨256, rfl⟩
    · exact ⟨_, returns_clog h⟩

theorem bucketSizeReturns_least (hpos : 1 ≤ bytes) (h : bytes ≤ 2 ^ 63)
    (hv : BucketSizeReturns bytes bucketSize) :
    IsLeast {v | (∃ k, v = 2 ^ k) ∧ max bytes 256 ≤ v} bucketSize := by
  rw [BucketSizeReturns, if_neg (by omega)] at hv
  obtain rfl := hv.unique (returns_clog h)
  have hfit (k : ℕ) : max bytes 256 ≤ 2 ^ k ↔ max 8 (Nat.clog 2 bytes) ≤ k := by
    rw [max_le_iff, max_le_iff, ← Nat.clog_le_iff_le_pow (by decide), and_comm,
      show 256 = 2 ^ 8 from rfl, Nat.pow_le_pow_iff_right (by decide)]
  constructor
  · exact ⟨⟨_, rfl⟩, (hfit _).mpr le_rfl⟩
  · rintro _ ⟨⟨k, rfl⟩, hk⟩
    exact Nat.pow_le_pow_right (by decide) ((hfit k).mp hk)

/-- What the bounded loop computes is what the loop returns. -/
theorem bucketLoop_returns {fuel power : ℕ}
    (h : bucketLoop bytes fuel power = some bucketSize) :
    WhileLoop.Returns (fun power => power < bytes) (shl 64) power bucketSize := by
  induction fuel generalizing power with
  | zero => cases h
  | succ fuel ih =>
    rw [bucketLoop] at h
    split_ifs at h with hlt
    · exact .next hlt (ih h)
    · exact Option.some.inj h ▸ .exit hlt

theorem bucketLoop_of_iterate {n fuel power : ℕ} (hbefore : ∀ m < n, (shl 64)^[m] power < bytes)
    (hat : bytes ≤ (shl 64)^[n] power) (hfuel : n < fuel) :
    bucketLoop bytes fuel power = some ((shl 64)^[n] power) := by
  induction n generalizing fuel power with
  | zero =>
    obtain ⟨fuel, rfl⟩ : ∃ f, fuel = f + 1 := ⟨fuel - 1, by omega⟩
    exact if_neg (not_lt.mpr hat)
  | succ n ih =>
    obtain ⟨fuel, rfl⟩ : ∃ f, fuel = f + 1 := ⟨fuel - 1, by omega⟩
    rw [bucketLoop, if_pos (show power < bytes from hbefore 0 n.succ_pos)]
    exact ih (fun m hm => hbefore (m + 1) (Nat.succ_lt_succ hm)) hat (by omega)

theorem calculateBucketSize_eq_some_iff :
    calculateBucketSize bytes = some bucketSize ↔ BucketSizeReturns bytes bucketSize := by
  unfold calculateBucketSize BucketSizeReturns
  split_ifs with hzero
  · rw [Option.some.injEq, eq_comm]
  · refine ⟨bucketLoop_returns, fun hv => ?_⟩
    have hle : bytes ≤ 2 ^ 63 := by
      by_contra hgt
      exact not_returns_of_gt (not_le.mp hgt) hv
    have hclog : Nat.clog 2 bytes ≤ 63 := (Nat.clog_le_iff_le_pow (by decide)).mpr hle
    have hloop := bucketLoop_of_iterate (fun m hm => iterate_lt hle hm) (le_iterate hle)
      (show Nat.clog 2 bytes - 8 < 64 by omega)
    rw [hloop, (bucketLoop_returns hloop).unique hv]

theorem calculateBucketSize_eq_none_iff : calculateBucketSize bytes = none ↔ 2 ^ 63 < bytes := by
  rw [← not_le, ← bucketSizeReturns_iff, Option.eq_none_iff_forall_ne_some, not_exists]
  exact forall_congr' fun v => not_congr calculateBucketSize_eq_some_iff

end Doubling

/-! ### What `acquire` makes of it -/

/-- The allocator: what it answers to a request for some bytes when those allocations live. -/
abbrev AllocatorAnswers := FiniteMap DevicePtr ℕ → ℕ → Option DevicePtr

def AllocatorAnswers.Honest (answers : AllocatorAnswers) : Prop :=
  ∀ allocations size ptr, answers allocations size = some ptr →
    AllocatorReturns allocations ptr size

/-- An uninterrupted `acquire` that asks the allocator for its bucket, and again after the purge;
`none` when it never ends. -/
def acquireAgainst (answers : AllocatorAnswers) (t : ThreadId) (s : PoolSystem) (bytes : ℕ)
    (category : MemoryCategory) (stream : CudaStream) : Option (PoolSystem × Option DevicePtr) :=
  (calculateBucketSize bytes).bind fun bucketSize =>
    ScopedSystem.acquireCall t s bytes category stream (answers s.allocations bucketSize)
      (answers s.purge.allocations bucketSize)

section Acquire
variable {s : PoolSystem} {t : ThreadId} {bytes bucketSize : ℕ} (category : MemoryCategory)
  (stream : CudaStream) {answers : AllocatorAnswers}

/-- What a purge frees depends on the nodes alone. -/
theorem purge_freed_congr {ptrs : List DevicePtr} {acc acc' : Purge}
    (hnodes : acc.pool.poolNodes = acc'.pool.poolNodes) (hfreed : acc.freed = acc'.freed) :
    (ptrs.foldl purgeStep acc).freed = (ptrs.foldl purgeStep acc').freed := by
  induction ptrs generalizing acc acc' with
  | nil => exact hfreed
  | cons ptr ptrs ih =>
    refine ih ?_ ?_
    · unfold purgeStep
      rw [hnodes]
      cases acc'.pool.poolNodes.lookup ptr with
      | none => exact hnodes
      | some node => rfl
    · unfold purgeStep
      rw [hnodes]
      cases acc'.pool.poolNodes.lookup ptr with
      | none => exact hfreed
      | some node => rw [hfreed]

/-- An acquire that the allocator refuses waits for its purge, with the same buffers to free. -/
theorem step_acquire_refused (h : s.Sound) (ht : t ∉ s.calls) (hzero : bytes ≠ 0)
    (hsize : calculateBucketSize bytes = some bucketSize) (hempty : s.pool.bucket bucketSize = []) :
    ∃ s₁, PoolSystem.step s (.acquire t bytes category stream none) = some s₁ ∧
      s₁.calls.lookup t = some (.purgePending bucketSize bytes category) ∧
      s₁.purge.allocations = s.purge.allocations := by
  rcases h.search bucketSize bytes rfl with ⟨ptr, rest, node, hcons, -⟩ | ⟨-, hsearch⟩
  · rw [hempty] at hcons
    cases hcons
  simp only [PoolSystem.step, ht, hzero, hsize, hsearch, if_false]
  refine ⟨_, rfl, AList.lookup_insert _, ?_⟩
  let counted : BufferPool := { s.pool with
    totalAllocations := add 64 s.pool.totalAllocations 1
    poolMisses := add 64 s.pool.poolMisses 1 }
  have hfreed : counted.purgeFreeBuffers.freed = s.pool.purgeFreeBuffers.freed :=
    purge_freed_congr rfl rfl
  exact congrArg (fun freed => freed.foldl (fun m ptr => m.erase ptr) s.allocations) hfreed

theorem step_acquireRetry_ends (hcall : s.calls.lookup t =
      some (.retryPending bucketSize bytes category)) (result : Option DevicePtr)
    (hresult : ∀ ptr, result = some ptr → AllocatorReturns s.allocations ptr bucketSize) :
    ∃ s', PoolSystem.step s (.acquireRetry t result) = some s' := by
  cases result with
  | none => exact ⟨_, by simp only [PoolSystem.step, hcall]; rfl⟩
  | some ptr => exact ⟨_, by simp only [PoolSystem.step, hcall, hresult ptr rfl, if_true]; rfl⟩

/-- An acquire whose loop ends comes to its end, with an exception or with a pointer. -/
theorem acquireCall_ends (h : s.Sound) (ht : t ∉ s.calls) (hanswers : answers.Honest)
    (hzero : bytes ≠ 0) (hsize : calculateBucketSize bytes = some bucketSize) :
    ∃ s' r, ScopedSystem.acquireCall t s bytes category stream (answers s.allocations bucketSize)
        (answers s.purge.allocations bucketSize) = some (s', r) ∧ r ≠ some 0 := by
  rcases h.search bucketSize bytes rfl with
    ⟨ptr, rest, node, -, hn, -, -, hsearch⟩ | ⟨hempty, hsearch⟩
  · have hptr : ptr ≠ 0 := by
      rintro rfl
      rw [h.nonNull] at hn
      cases hn
    simp only [ScopedSystem.acquireCall, PoolSystem.step, PoolSystem.acquired, ht, hzero, hsize,
      hsearch, if_false, Option.bind_some, Option.getD_some]
    exact ⟨_, _, rfl, fun heq => hptr (Option.some.inj heq)⟩
  cases hfirst : answers s.allocations bucketSize with
  | some ptr =>
    have hreturns := hanswers _ _ _ hfirst
    simp only [ScopedSystem.acquireCall, PoolSystem.step, PoolSystem.acquired, ht, hzero, hsize,
      hsearch, hreturns, if_false, if_true, Option.bind_some, Option.getD_some,
      PoolSystem.allocateNode]
    exact ⟨_, _, rfl, fun heq => hreturns.1 (Option.some.inj heq)⟩
  | none =>
    obtain ⟨s₁, h₁, hcall₁, hpurge⟩ :=
      step_acquire_refused category stream h ht hzero hsize hempty
    have hpending : t ∈ s₁.calls := FiniteMap.mem_of_lookup hcall₁
    have h₂ : PoolSystem.step s₁ (.acquirePurge t) = some { s₁.purge with
        calls := s₁.calls.insert t (.retryPending bucketSize bytes category) } := by
      simp only [PoolSystem.step, hcall₁]
    obtain ⟨s₃, h₃⟩ := step_acquireRetry_ends category
      (s := { s₁.purge with calls := s₁.calls.insert t (.retryPending bucketSize bytes category) })
      (AList.lookup_insert _) (answers s.purge.allocations bucketSize)
      fun ptr hptr => hpurge ▸ hanswers _ _ _ hptr
    refine ⟨s₃, answers s.purge.allocations bucketSize, ?_, fun hnull => ?_⟩
    · rw [ScopedSystem.acquireCall, h₁, Option.bind_some, if_pos hpending, h₂, Option.bind_some, h₃,
        Option.map_some]
    · exact (hanswers _ _ _ hnull).1 rfl

theorem acquireAgainst_ends (h : s.Sound) (ht : t ∉ s.calls) (hanswers : answers.Honest)
    (hbytes : bytes ≤ 2 ^ 63) :
    ∃ s' r, acquireAgainst answers t s bytes category stream = some (s', r) ∧
      (r = none ∨ bytes = 0 ∧ r = some 0 ∨
        ∃ ptr capacity, r = some ptr ∧ InUse s' ptr capacity ∧ bytes ≤ capacity) := by
  obtain ⟨bucketSize, hsize⟩ := bucketSizeReturns_iff.mpr hbytes
  rw [← calculateBucketSize_eq_some_iff] at hsize
  rw [acquireAgainst, hsize, Option.bind_some]
  rcases eq_or_ne bytes 0 with rfl | hzero
  · refine ⟨s, some 0, ?_, .inr (.inl ⟨rfl, rfl⟩)⟩
    simp only [ScopedSystem.acquireCall, PoolSystem.step, PoolSystem.acquired, ht, if_false,
      if_true, Option.bind_some, Option.getD_none]
  · obtain ⟨s', r, hcall, hnull⟩ :=
      acquireCall_ends category stream h ht hanswers hzero hsize
    refine ⟨s', r, hcall, ?_⟩
    obtain ⟨-, -, hr⟩ := acquireCall_spec h ht hcall
    rcases hr with ⟨hr, -⟩ | ⟨ptr, size, hr, -, hsize', hout⟩
    · exact .inl (hr.resolve_right hnull)
    · exact .inr (.inr ⟨ptr, size, hr, (hout.inUse ptr size).mpr (.inl ⟨rfl, rfl⟩),
        calculateBucketSize_le hsize'⟩)

end Acquire

/-- For every reachable pool, every honest allocator and every size: the bucket size is the least
power of two that is large enough, and exactly the requests up to `2 ^ 63` end. -/
theorem acquire_ends_iff (maxCachedBytes : ℕ) (actions : List PoolAction) (s : PoolSystem)
    (hrun : Transition.exec PoolSystem.step (PoolSystem.init maxCachedBytes) actions = some s)
    (t : ThreadId) (ht : t ∉ s.calls) (answers : AllocatorAnswers) (hanswers : answers.Honest)
    (bytes : ℕ) (category : MemoryCategory) (stream : CudaStream) :
    ((∃ v, BucketSizeReturns bytes v) ↔ bytes ≤ 2 ^ 63) ∧
    (1 ≤ bytes → bytes ≤ 2 ^ 63 → ∀ v, BucketSizeReturns bytes v →
      IsLeast {v | (∃ k, v = 2 ^ k) ∧ max bytes 256 ≤ v} v) ∧
    ((∃ s' r, acquireAgainst answers t s bytes category stream = some (s', r) ∧
      (r = none ∨ bytes = 0 ∧ r = some 0 ∨
        ∃ ptr capacity, r = some ptr ∧ InUse s' ptr capacity ∧ bytes ≤ capacity)) ↔
      bytes ≤ 2 ^ 63) := by
  have hsound : s.Sound := Transition.exec_preserves (fun _ _ _ h hs => step_sound h hs)
    (init_sound maxCachedBytes) hrun
  refine ⟨bucketSizeReturns_iff, fun hpos hle v => bucketSizeReturns_least hpos hle, ?_, ?_⟩
  · rintro ⟨s', r, hcall, -⟩
    by_contra hgt
    rw [acquireAgainst, calculateBucketSize_eq_none_iff.mpr (not_le.mp hgt)] at hcall
    cases hcall
  · exact acquireAgainst_ends category stream hsound ht hanswers

/-- An allocator with one block to give, at address 4096. -/
def oneBlock : AllocatorAnswers := fun allocations size =>
  if AllocatorReturns allocations 4096 size then some 4096 else none

theorem oneBlock_honest : oneBlock.Honest := by
  intro allocations size ptr hptr
  unfold oneBlock at hptr
  split_ifs at hptr with hreturns
  obtain rfl := Option.some.inj hptr
  exact hreturns

/-- A pool with a buffer in use and a cached one of another size: `acquire` of 700 bytes returns the
allocator's block, and of `2 ^ 63 + 1` bytes it never ends. -/
theorem acquire_ends_iff_used : ∃ s,
    Transition.exec PoolSystem.step (PoolSystem.init 1024)
      [.acquire 5 300 .weights 0 (some 8192), .acquire 5 200 .weights 0 (some 16384),
        .release 5 16384 0] = some s ∧
    (∃ s' capacity, acquireAgainst oneBlock 0 s 700 .workspace 3 = some (s', some 4096) ∧
      InUse s' 4096 capacity ∧ 700 ≤ capacity) ∧
    ¬∃ v, BucketSizeReturns (2 ^ 63 + 1) v :=
  Transition.exec_exists
    (P := fun s => 0 ∉ s.calls ∧
      (acquireAgainst oneBlock 0 s 700 .workspace 3).map Prod.snd = some (some 4096))
    (by decide +kernel) fun s hs hgranted => by
      obtain ⟨ht, hgranted⟩ := hgranted
      have hends := acquire_ends_iff 1024 _ s hs 0 ht oneBlock oneBlock_honest
      refine ⟨?_, fun hreturns => absurd ((hends (2 ^ 63 + 1) .workspace 3).1.mp hreturns)
        (by norm_num)⟩
      obtain ⟨s', r, hcall, hr⟩ := (hends 700 .workspace 3).2.2.mpr (by norm_num)
      rw [hcall, Option.map_some, Option.some.injEq] at hgranted
      obtain rfl : r = some 4096 := hgranted
      obtain hnone | ⟨hzero, -⟩ | ⟨ptr, capacity, hptr, huse, hle⟩ := hr
      · cases hnone
      · cases hzero
      · obtain rfl := Option.some.inj hptr
        exact ⟨s', capacity, hcall, huse, hle⟩

/-- One byte more than `2 ^ 63`: the doubling never reaches the request. -/
theorem calculateBucketSize_never_ends : ¬ ∃ v, BucketSizeReturns (2 ^ 63 + 1) v := by
  rw [bucketSizeReturns_iff]
  decide

end CudaForge.Memory
