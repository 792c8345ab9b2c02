import CudaForge.Memory.PoolSteps

/-!
RAII guards of pool buffers: programs of their special members over any number of guards.

The program runs in one thread, over a pool that any callers may have used before. An object is its
name in the program, and a member that runs when the name is free or taken, as C++ has it.
-/
namespace CudaForge.Memory
open FiniteMap BufferPool PoolSystem

structure ScopedBuffer where
  /-- `pool_` is not null. -/
  pool : Bool := false
  ptr : DevicePtr := 0
  bytes : ℕ := 0
  stream : CudaStream := 0
  deriving DecidableEq

abbrev ObjectName := ℕ

structure ScopedSystem where
  base : PoolSystem
  objects : FiniteMap ObjectName ScopedBuffer
  /-- The non-null pointers that `acquire_scoped` obtained, with their streams. -/
  acquired : List (DevicePtr × CudaStream)
  /-- The calls of `BufferPool::release` that guards made. -/
  released : List (DevicePtr × CudaStream)

inductive ScopedAction where
  | construct (x : ObjectName)
  | acquireScoped (x : ObjectName) (bytes : ℕ) (category : MemoryCategory) (stream : CudaStream)
      (first retry : Option DevicePtr)
  | moveConstruct (x other : ObjectName)
  | moveAssign (x other : ObjectName)
  | release (x : ObjectName)
  | destroy (x : ObjectName)
  deriving DecidableEq

namespace ScopedSystem

def start (base : PoolSystem) : ScopedSystem := ⟨base, ∅, [], []⟩

section Members
variable (t : ThreadId)

/-- `BufferPool::acquire` in a thread that nothing interrupts, with the allocator's answers to the
two attempts. The result is `none` when it throws. -/
def acquireCall (s : PoolSystem) (bytes : ℕ) (category : MemoryCategory) (stream : CudaStream)
    (first retry : Option DevicePtr) : Option (PoolSystem × Option DevicePtr) :=
  (PoolSystem.step s (.acquire t bytes category stream first)).bind fun s₁ =>
    if t ∈ s₁.calls then
      (PoolSystem.step s₁ (.acquirePurge t)).bind fun s₂ =>
        (PoolSystem.step s₂ (.acquireRetry t retry)).map fun s₃ => (s₃, retry)
    else
      some (s₁, some ((PoolSystem.acquired s (.acquire t bytes category stream first)).getD 0))

/-- `ScopedBuffer::release`. It leaves `stream_` as it is. -/
def releaseBuffer (s : ScopedSystem) (x : ObjectName) (b : ScopedBuffer) : Option ScopedSystem :=
  if b.pool = true ∧ b.ptr ≠ 0 then
    (PoolSystem.step s.base (.release t b.ptr b.stream)).map fun base =>
      { s with
        base := base
        objects := s.objects.insert x { b with pool := false, ptr := 0, bytes := 0 }
        released := (b.ptr, b.stream) :: s.released }
  else some s

/-- The fields of `other` move to `x`. -/
def transfer (s : ScopedSystem) (x other : ObjectName) (b : ScopedBuffer) : ScopedSystem :=
  { s with objects := (s.objects.insert other {}).insert x b }

/-- One statement of the program; `none` when it is not well-formed where it stands, or the
allocator may not answer so. -/
def step (s : ScopedSystem) : ScopedAction → Option ScopedSystem
  | .construct x => if x ∈ s.objects then none else some { s with objects := s.objects.insert x {} }
  | .acquireScoped x bytes category stream first retry =>
    if x ∈ s.objects then none
    else (acquireCall t s.base bytes category stream first retry).map fun (base, result) =>
      match result with
      | none => { s with base := base }
      | some ptr =>
        { s with
          base := base
          objects := s.objects.insert x ⟨true, ptr, bytes, stream⟩
          acquired := if ptr = 0 then s.acquired else (ptr, stream) :: s.acquired }
  | .moveConstruct x other =>
    if x ∈ s.objects then none
    else (s.objects.lookup other).map fun b => s.transfer x other b
  | .moveAssign x other =>
    match s.objects.lookup x, s.objects.lookup other with
    | some a, some b =>
      if x = other then some s
      else (releaseBuffer t s x a).map fun s => s.transfer x other b
    | _, _ => none
  | .release x => (s.objects.lookup x).bind (releaseBuffer t s x)
  | .destroy x =>
    (s.objects.lookup x).bind fun b =>
      (releaseBuffer t s x b).map fun s => { s with objects := s.objects.erase x }

end Members

def heldBy (_ : ObjectName) (b : ScopedBuffer) : Multiset (DevicePtr × CudaStream) :=
  if b.ptr = 0 then 0 else {(b.ptr, b.stream)}

def held (s : ScopedSystem) : Multiset (DevicePtr × CudaStream) := total heldBy s.objects

def bucketOf (_ : ObjectName) (b : ScopedBuffer) : ℕ :=
  if b.ptr = 0 then 0 else (calculateBucketSize b.bytes).getD 0

def heldBytes (s : ScopedSystem) : ℕ := total bucketOf s.objects

end ScopedSystem

def PoolEvent.handed : PoolEvent → Option (DevicePtr × ℕ)
  | .reused ptr bucketSize => some (ptr, bucketSize)
  | .allocated ptr bucketSize _ => some (ptr, bucketSize)
  | _ => none

namespace PoolSystem

def InUse (s : PoolSystem) (ptr : DevicePtr) (bucketSize : ℕ) : Prop :=
  ∃ node, s.pool.poolNodes.lookup ptr = some node ∧ node.inUse = true ∧
    node.capacityBytes = bucketSize

structure SameUse (s s' : PoolSystem) : Prop where
  inUse : ∀ q size, InUse s' q size ↔ InUse s q size
  active : s'.pool.activeBytes = s.pool.activeBytes

structure HandsOut (s s' : PoolSystem) (ptr : DevicePtr) (bucketSize : ℕ) : Prop where
  unused : ∀ size, ¬ InUse s ptr size
  inUse : ∀ q size, InUse s' q size ↔ q = ptr ∧ size = bucketSize ∨ InUse s q size
  active : s'.pool.activeBytes = s.pool.activeBytes + bucketSize

structure TakesBack (s s' : PoolSystem) (ptr : DevicePtr) (bucketSize : ℕ) : Prop where
  inUse : ∀ q size, InUse s' q size ↔ q ≠ ptr ∧ InUse s q size
  active : s'.pool.activeBytes + bucketSize = s.pool.activeBytes

section Use
variable {s s' s'' : PoolSystem} {ptr : DevicePtr} {bucketSize : ℕ}

theorem Idle.sameUse (h : Idle s s') : SameUse s s' where
  inUse q size := by
    unfold InUse
    rw [h.nodes]
  active := h.active

theorem Purging.sameUse (h : Purging s s') : SameUse s s' where
  inUse q size := by
    unfold InUse
    rw [h.lookup]
    constructor
    · rintro ⟨node, hn, huse, hcap⟩
      exact ⟨node, (Option.filter_eq_some_iff.mp hn).1, huse, hcap⟩
    · rintro ⟨node, hn, huse, hcap⟩
      exact ⟨node, Option.filter_eq_some_iff.mpr ⟨hn, huse⟩, huse, hcap⟩
  active := h.active

/-- A node in use that replaces one not in use, or none. -/
theorem handsOut_insert {node : PooledBufferNode}
    (hold : ∀ old, s.pool.poolNodes.lookup ptr = some old → old.inUse = false)
    (hnodes : s'.pool.poolNodes = s.pool.poolNodes.insert ptr node) (huse : node.inUse = true)
    (hcap : node.capacityBytes = bucketSize)
    (hactive : s'.pool.activeBytes = s.pool.activeBytes + bucketSize) :
    HandsOut s s' ptr bucketSize := by
  have hunused : ∀ size, ¬ InUse s ptr size := by
    rintro size ⟨old, hn, huse, -⟩
    rw [hold old hn] at huse
    cases huse
  refine ⟨hunused, fun q size => ?_, hactive⟩
  unfold InUse
  rw [hnodes, lookup_insert_ite]
  split_ifs with hq
  · subst hq
    constructor
    · rintro ⟨next, hnext, -, hsize⟩
      obtain rfl := Option.some.inj hnext
      exact Or.inl ⟨rfl, hsize.symm.trans hcap⟩
    · rintro (⟨-, hsize⟩ | hused)
      · exact ⟨node, rfl, huse, hcap.trans hsize.symm⟩
      · exact absurd hused (hunused size)
  · simp [hq]

theorem Reuse.handsOut {node node' : PooledBufferNode} {rest : List DevicePtr}
    (h : Reuse s s' ptr bucketSize node node' rest) : HandsOut s s' ptr bucketSize := by
  apply handsOut_insert _ h.nodes h.inUse h.capacity' h.active
  intro old hold
  rw [Option.some.inj (hold.symm.trans h.lookup)]
  exact h.free

theorem Allocation.handsOut {category : MemoryCategory} {node : PooledBufferNode}
    (h : Allocation s s' ptr bucketSize category node) : HandsOut s s' ptr bucketSize := by
  apply handsOut_insert _ h.nodes h.inUse h.capacity h.active
  intro old hold
  rw [h.fresh] at hold
  cases hold

theorem Releasing.takesBack {node : PooledBufferNode}
    (h : Releasing s s' ptr bucketSize node) : TakesBack s s' ptr bucketSize where
  inUse q size := by
    unfold InUse
    rw [h.nodes, lookup_insert_ite]
    split_ifs with hq
    · simp [hq]
    · simp [hq]
  active := h.active

theorem SameUse.trans (h : SameUse s s') (h' : SameUse s' s'') : SameUse s s'' where
  inUse q size := (h'.inUse q size).trans (h.inUse q size)
  active := h'.active.trans h.active

theorem SameUse.handsOut (h : SameUse s s') (h' : HandsOut s' s'' ptr bucketSize) :
    HandsOut s s'' ptr bucketSize where
  unused size hu := h'.unused size ((h.inUse ptr size).mpr hu)
  inUse q size := by rw [h'.inUse, h.inUse]
  active := by rw [h'.active, h.active]

/-- What a step that releases nothing does to the buffers in use. -/
theorem Effect.use {e : PoolEvent} (he : Effect s s' e) (hr : ∀ ptr size, e ≠ .released ptr size) :
    e.handed = none ∧ SameUse s s' ∨
      ∃ ptr size, e.handed = some (ptr, size) ∧ HandsOut s s' ptr size := by
  cases e with
  | idle => exact Or.inl ⟨rfl, he.sameUse⟩
  | purged => exact Or.inl ⟨rfl, he.sameUse⟩
  | reused ptr size =>
    obtain ⟨node, node', rest, he⟩ := he
    exact Or.inr ⟨ptr, size, rfl, he.handsOut⟩
  | allocated ptr size category =>
    obtain ⟨node, he⟩ := he
    exact Or.inr ⟨ptr, size, rfl, he.handsOut⟩
  | released ptr size => exact absurd rfl (hr ptr size)

end Use

section Calls
variable {s s' : PoolSystem} {t : ThreadId} {bytes : ℕ} {category : MemoryCategory}
  {stream : CudaStream} {result : Option DevicePtr}

/-- An acquire that finds its thread in the recovery path afterwards changed nothing else. -/
theorem step_acquire_pending (h : s.Accounted) (ht : t ∉ s.calls)
    (hs : PoolSystem.step s (.acquire t bytes category stream result) = some s')
    (ht' : t ∈ s'.calls) :
    eventOf s (.acquire t bytes category stream result) = .idle ∧
      ∃ bucketSize, calculateBucketSize bytes = some bucketSize ∧
        s'.calls.lookup t = some (.purgePending bucketSize bytes category) := by
  simp only [PoolSystem.step] at hs
  rw [if_neg ht] at hs
  unfold eventOf
  dsimp only
  split_ifs at hs ⊢ with hbytes
  · rw [← Option.some.inj hs] at ht'
    exact absurd ht' ht
  split at hs
  · cases hs
  · rename_i bucketSize hsize
    simp only [hsize]
    rcases h.search bucketSize bytes rfl with
      ⟨ptr, rest, node, -, -, -, -, hsearch⟩ | ⟨hlist, hsearch⟩
    · rw [hsearch] at hs
      rw [← Option.some.inj hs] at ht'
      exact absurd ht' ht
    · rw [hsearch] at hs
      rw [hlist]
      cases result with
      | none =>
        rw [← Option.some.inj hs]
        exact ⟨rfl, bucketSize, rfl, AList.lookup_insert _⟩
      | some ptr =>
        simp only at hs
        split_ifs at hs
        rw [← Option.some.inj hs] at ht'
        exact absurd ht' ht

/-- The pointer that an acquire returns is that of the buffer it hands out. -/
theorem acquired_eq_handed (h : s.Accounted) :
    acquired s (.acquire t bytes category stream result) =
      (eventOf s (.acquire t bytes category stream result)).handed.map Prod.fst := by
  unfold eventOf acquired
  dsimp only
  split_ifs with hbytes
  · rfl
  cases hsize : calculateBucketSize bytes with
  | none => rfl
  | some size =>
    rw [Option.bind_some]
    dsimp only
    rcases h.search size bytes rfl with
      ⟨q, rest, node, hlist, -, -, -, hsearch⟩ | ⟨hlist, hsearch⟩
    · rw [hsearch, hlist]
      rfl
    · rw [hsearch, hlist]
      cases result <;> rfl

theorem bucketSize_of_handed {ptr : DevicePtr} {bucketSize : ℕ}
    (he : (eventOf s (.acquire t bytes category stream result)).handed = some (ptr, bucketSize)) :
    calculateBucketSize bytes = some bucketSize := by
  unfold eventOf at he
  dsimp only at he
  split_ifs at he
  · cases he
  split at he
  · cases he
  · rename_i size hsize
    rw [hsize]
    split at he
    · exact congrArg some (Prod.mk.inj (Option.some.inj he)).2
    · exact congrArg some (Prod.mk.inj (Option.some.inj he)).2
    · cases he

theorem acquire_not_released (s : PoolSystem) (ptr : DevicePtr) (size : ℕ) :
    eventOf s (.acquire t bytes category stream result) ≠ .released ptr size := by
  unfold eventOf
  dsimp only
  split_ifs
  · simp
  · split
    · simp
    · split <;> simp

/-- How a whole acquire ends: nothing handed out, with null or an exception, or one buffer that
nobody used. -/
theorem acquireCall_spec {first retry r : Option DevicePtr} (h : s.Sound) (ht : t ∉ s.calls)
    (hs : ScopedSystem.acquireCall t s bytes category stream first retry = some (s', r)) :
    s'.Sound ∧ t ∉ s'.calls ∧ ((r = none ∨ r = some 0) ∧ SameUse s s' ∨
      ∃ ptr size, r = some ptr ∧ ptr ≠ 0 ∧ calculateBucketSize bytes = some size ∧
        HandsOut s s' ptr size) := by
  obtain ⟨s₁, h₁, hs⟩ := Option.bind_eq_some_iff.mp hs
  have hsound₁ := step_sound h h₁
  have hnonNull : ∀ {u : PoolSystem} {ptr size}, u.Sound → InUse u ptr size → ptr ≠ 0 := by
    rintro u ptr size hu ⟨node, hn, -⟩ rfl
    rw [hu.nonNull] at hn
    cases hn
  split_ifs at hs with hpending
  · -- the allocator was out of memory: purge and retry
    obtain ⟨hidle, bucketSize, hsize, hcall⟩ := step_acquire_pending h.toAccounted ht h₁ hpending
    have heffect₁ := step_effect h h₁
    rw [hidle] at heffect₁
    obtain ⟨s₂, h₂, hs⟩ := Option.bind_eq_some_iff.mp hs
    have hsound₂ := step_sound hsound₁ h₂
    have heffect₂ : Purging s₁ s₂ := step_effect hsound₁ h₂
    have hcall₂ : s₂.calls.lookup t = some (.retryPending bucketSize bytes category) := by
      simp only [PoolSystem.step, hcall] at h₂
      rw [← Option.some.inj h₂]
      exact AList.lookup_insert _
    obtain ⟨s₃, h₃, heq⟩ := Option.map_eq_some_iff.mp hs
    obtain ⟨rfl, rfl⟩ := Prod.mk.inj heq
    have hsame := heffect₁.sameUse.trans heffect₂.sameUse
    have hsound₃ := step_sound hsound₂ h₃
    refine ⟨hsound₃, ?_, ?_⟩
    · rw [step_acquireRetry_calls h₃]
      exact fun hmem => (AList.mem_erase.mp hmem).1 rfl
    · have heffect₃ := step_effect hsound₂ h₃
      simp only [eventOf, hcall₂] at heffect₃
      cases retry with
      | none => exact Or.inl ⟨Or.inl rfl, hsame.trans heffect₃.sameUse⟩
      | some ptr =>
        obtain ⟨node, heffect₃⟩ := heffect₃
        exact Or.inr ⟨ptr, bucketSize, rfl, heffect₃.nonNull, hsize,
          hsame.handsOut heffect₃.handsOut⟩
  · obtain ⟨rfl, rfl⟩ := Prod.mk.inj (Option.some.inj hs)
    refine ⟨hsound₁, hpending, ?_⟩
    rw [acquired_eq_handed h.toAccounted]
    rcases (step_effect h h₁).use (acquire_not_released s) with
      ⟨hnone, hsame⟩ | ⟨ptr, size, hsome, hout⟩
    · rw [hnone]
      exact Or.inl ⟨Or.inr rfl, hsame⟩
    · rw [hsome]
      have hptr := hnonNull hsound₁ ((hout.inUse ptr size).mpr (Or.inl ⟨rfl, rfl⟩))
      exact Or.inr ⟨ptr, size, rfl, hptr, bucketSize_of_handed hsome, hout⟩

end Calls
end PoolSystem

namespace ScopedSystem
variable {t : ThreadId} {active₀ : ℕ} {s s' : ScopedSystem} {x other : ObjectName}
  {b : ScopedBuffer}

/-- Guards hold different buffers in use, and the ledger of acquired and released pointers and the
bytes in use account for what they hold. -/
structure Guarded (t : ThreadId) (active₀ : ℕ) (s : ScopedSystem) : Prop where
  sound : s.base.Sound
  idle : t ∉ s.base.calls
  valid : ∀ x b, s.objects.lookup x = some b → b.ptr ≠ 0 →
    b.pool = true ∧ ∃ size, calculateBucketSize b.bytes = some size ∧ InUse s.base b.ptr size
  unique : ∀ x y b c, s.objects.lookup x = some b → s.objects.lookup y = some c →
    b.ptr ≠ 0 → b.ptr = c.ptr → x = y
  ledger : (s.acquired : Multiset (DevicePtr × CudaStream)) = s.released + s.held
  active : s.base.pool.activeBytes = active₀ + s.heldBytes

theorem start_guarded {base : PoolSystem} (hbase : base.Sound) (ht : t ∉ base.calls) :
    (start base).Guarded t base.pool.activeBytes where
  sound := hbase
  idle := ht
  valid _ _ hb := by simp [start] at hb
  unique _ _ _ _ hb := by simp [start] at hb
  ledger := rfl
  active := rfl

theorem heldBy_null (x : ObjectName) (hb : b.ptr = 0) : heldBy x b = 0 := if_pos hb

theorem bucketOf_null (x : ObjectName) (hb : b.ptr = 0) : bucketOf x b = 0 := if_pos hb

/-- The buffer of a guard is in use, so its release takes it back. -/
theorem release_takesBack {base base' : PoolSystem} {ptr : DevicePtr} {size : ℕ}
    {stream : CudaStream} (h : base.Sound) (huse : InUse base ptr size)
    (hs : PoolSystem.step base (.release t ptr stream) = some base') :
    TakesBack base base' ptr size := by
  obtain ⟨node, hn, hnode, rfl⟩ := huse
  have heffect := step_effect h hs
  simp only [eventOf, hn, hnode, if_true] at heffect
  obtain ⟨node', heffect⟩ := heffect
  exact heffect.takesBack

theorem Guarded.releaseBuffer (h : s.Guarded t active₀) (hx : s.objects.lookup x = some b)
    (hs : releaseBuffer t s x b = some s') :
    s'.Guarded t active₀ ∧ (∃ c, s'.objects.lookup x = some c ∧ c.ptr = 0) ∧
      ∀ y, y ≠ x → s'.objects.lookup y = s.objects.lookup y := by
  unfold ScopedSystem.releaseBuffer at hs
  split_ifs at hs with hlive
  · obtain ⟨hpool, hptr⟩ := hlive
    obtain ⟨base, hbase, rfl⟩ := Option.map_eq_some_iff.mp hs
    obtain ⟨-, size, hsize, huse⟩ := h.valid x b hx hptr
    have htake := release_takesBack h.sound huse hbase
    have hother : ∀ y, y ≠ x → (s.objects.insert x
        { b with pool := false, ptr := 0, bytes := 0 }).lookup y = s.objects.lookup y :=
      fun y hy => AList.lookup_insert_ne hy
    refine ⟨⟨step_sound h.sound hbase, ?_, ?_, ?_, ?_, ?_⟩,
      ⟨_, AList.lookup_insert _, rfl⟩, hother⟩
    · have hcalls : base.calls = s.base.calls := by
        simp only [PoolSystem.step] at hbase
        split_ifs at hbase
        exact Option.some.inj hbase ▸ rfl
      show t ∉ base.calls
      rw [hcalls]
      exact h.idle
    · intro y c hy hc
      by_cases hyx : y = x
      · subst hyx
        obtain rfl := Option.some.inj ((AList.lookup_insert _).symm.trans hy)
        exact absurd rfl hc
      · rw [hother y hyx] at hy
        obtain ⟨hcpool, csize, hcsize, hcuse⟩ := h.valid y c hy hc
        refine ⟨hcpool, csize, hcsize, (htake.inUse c.ptr csize).mpr ⟨?_, hcuse⟩⟩
        intro heq
        exact hyx (h.unique y x c b hy hx hc heq)
    · intro y z c d hy hz hc hcd
      have hnull : ∀ w e, (s.objects.insert x
          { b with pool := false, ptr := 0, bytes := 0 }).lookup w = some e → e.ptr ≠ 0 →
          w ≠ x := by
        rintro w e he hne rfl
        obtain rfl := Option.some.inj ((AList.lookup_insert _).symm.trans he)
        exact hne rfl
      have hyx := hnull y c hy hc
      have hzx := hnull z d hz (hcd ▸ hc)
      rw [hother y hyx] at hy
      rw [hother z hzx] at hz
      exact h.unique y z c d hy hz hc hcd
    · have hheld := total_insert_of_lookup (f := heldBy) hx
        { b with pool := false, ptr := 0, bytes := 0 }
      have hempty : heldBy x { b with pool := false, ptr := 0, bytes := 0 } = 0 :=
        heldBy_null x rfl
      rw [hempty, zero_add] at hheld
      have hb : heldBy x b = {(b.ptr, b.stream)} := if_neg hptr
      rw [hb] at hheld
      show (s.acquired : Multiset (DevicePtr × CudaStream)) =
        ((b.ptr, b.stream) :: s.released : List _) + total heldBy _
      rw [h.ledger, ← Multiset.cons_coe, Multiset.cons_add, ← Multiset.singleton_add,
        add_left_comm, hheld]
      rfl
    · have hheld := total_insert_of_lookup (f := bucketOf) hx
        { b with pool := false, ptr := 0, bytes := 0 }
      have hb : bucketOf x b = size := by simp [bucketOf, hptr, hsize]
      have hempty : bucketOf x { b with pool := false, ptr := 0, bytes := 0 } = 0 :=
        bucketOf_null x rfl
      rw [hempty, hb] at hheld
      have hactive := h.active
      have hback := htake.active
      have hbytes : s.heldBytes = total bucketOf s.objects := rfl
      show base.pool.activeBytes = active₀ +
        total bucketOf (s.objects.insert x { b with pool := false, ptr := 0, bytes := 0 })
      omega
  · obtain rfl := Option.some.inj hs
    refine ⟨h, ⟨b, hx, ?_⟩, fun _ _ => rfl⟩
    by_contra hptr
    exact hlive ⟨(h.valid x b hx hptr).1, hptr⟩

/-- A sum over the guards does not see a transfer to a guard that held nothing. -/
theorem total_transfer {M : Type*} [AddCommMonoid M] {f : ObjectName → ScopedBuffer → M}
    (hname : ∀ x y b, f x b = f y b) (hnull : ∀ x b, b.ptr = 0 → f x b = 0)
    (hother : s.objects.lookup other = some b)
    (hx : ∀ a, s.objects.lookup x = some a → a.ptr = 0) (hne : x ≠ other) :
    total f (s.transfer x other b).objects = total f s.objects := by
  have hfirst := total_insert_of_lookup (f := f) hother {}
  rw [hnull other {} rfl, zero_add] at hfirst
  have hlookup : (s.objects.insert other {}).lookup x = s.objects.lookup x :=
    AList.lookup_insert_ne hne
  show total f ((s.objects.insert other {}).insert x b) = _
  cases hl : s.objects.lookup x with
  | none =>
    have hfresh : x ∉ s.objects.insert other {} := AList.lookup_eq_none.mp (hlookup.trans hl)
    rw [total_insert_of_notMem hfresh, hname x other, hfirst]
  | some a =>
    have hsecond := total_insert_of_lookup (f := f) (hlookup.trans hl) b
    rw [hnull x a (hx a hl), zero_add, hname x other, hfirst] at hsecond
    exact hsecond

theorem lookup_transfer (s : ScopedSystem) (x other : ObjectName) (b : ScopedBuffer)
    (y : ObjectName) : (s.transfer x other b).objects.lookup y =
      if y = x then some b else if y = other then some {} else s.objects.lookup y := by
  simp only [transfer, lookup_insert_ite]

theorem Guarded.transfer (h : s.Guarded t active₀) (hother : s.objects.lookup other = some b)
    (hx : ∀ a, s.objects.lookup x = some a → a.ptr = 0) (hne : x ≠ other) :
    (s.transfer x other b).Guarded t active₀ := by
  -- a guard that holds something afterwards held it before, `x` in place of `other`
  have horigin : ∀ y c, (s.transfer x other b).objects.lookup y = some c → c.ptr ≠ 0 →
      s.objects.lookup (if y = x then other else y) = some c ∧ y ≠ other := by
    intro y c hy hc
    rw [lookup_transfer] at hy
    by_cases hyx : y = x
    · rw [if_pos hyx] at hy ⊢
      exact ⟨hy ▸ hother, hyx ▸ hne⟩
    · rw [if_neg hyx] at hy ⊢
      split_ifs at hy with hyo
      · rw [← Option.some.inj hy] at hc
        exact absurd rfl hc
      · exact ⟨hy, hyo⟩
  refine ⟨h.sound, h.idle, ?_, ?_, ?_, ?_⟩
  · intro y c hy hc
    exact h.valid _ c (horigin y c hy hc).1 hc
  · intro y z c d hy hz hc hcd
    obtain ⟨hy', hyo⟩ := horigin y c hy hc
    obtain ⟨hz', hzo⟩ := horigin z d hz (hcd ▸ hc)
    have heq := h.unique _ _ c d hy' hz' hc hcd
    split_ifs at heq with hyx hzx hzx
    · exact hyx.trans hzx.symm
    · exact absurd heq.symm hzo
    · exact absurd heq hyo
    · exact heq
  · have hheld := total_transfer (f := heldBy) (fun _ _ _ => rfl) (fun x _ => heldBy_null x)
      hother hx hne
    show (s.acquired : Multiset (DevicePtr × CudaStream)) = s.released + total heldBy _
    rw [hheld]
    exact h.ledger
  · have hbytes := total_transfer (f := bucketOf) (fun _ _ _ => rfl) (fun x _ => bucketOf_null x)
      hother hx hne
    show s.base.pool.activeBytes = active₀ + total bucketOf _
    rw [hbytes]
    exact h.active

/-- A new guard that holds nothing. -/
theorem Guarded.insertNull (h : s.Guarded t active₀) (hx : x ∉ s.objects) (hb : b.ptr = 0) :
    Guarded t active₀ { s with objects := s.objects.insert x b } := by
  have hold : ∀ y c, (s.objects.insert x b).lookup y = some c → c.ptr ≠ 0 →
      s.objects.lookup y = some c := by
    intro y c hy hc
    rw [lookup_insert_ite] at hy
    split_ifs at hy
    · rw [← Option.some.inj hy] at hc
      exact absurd hb hc
    · exact hy
  refine ⟨h.sound, h.idle, fun y c hy hc => h.valid y c (hold y c hy hc) hc, ?_, ?_, ?_⟩
  · intro y z c d hy hz hc hcd
    exact h.unique y z c d (hold y c hy hc) (hold z d hz (hcd ▸ hc)) hc hcd
  · show _ = _ + total heldBy (s.objects.insert x b)
    rw [total_insert_of_notMem hx, heldBy_null x hb, zero_add]
    exact h.ledger
  · show _ = _ + total bucketOf (s.objects.insert x b)
    rw [total_insert_of_notMem hx, bucketOf_null x hb, zero_add]
    exact h.active

theorem Guarded.sameUse (h : s.Guarded t active₀) {base : PoolSystem} (hbase : base.Sound)
    (ht : t ∉ base.calls) (hsame : SameUse s.base base) :
    Guarded t active₀ { s with base := base } where
  sound := hbase
  idle := ht
  valid y c hy hc := by
    obtain ⟨hpool, size, hsize, huse⟩ := h.valid y c hy hc
    exact ⟨hpool, size, hsize, (hsame.inUse c.ptr size).mpr huse⟩
  unique := h.unique
  ledger := h.ledger
  active := hsame.active.trans h.active

/-- A new guard for a buffer that nobody used. -/
theorem Guarded.insertAcquired (h : s.Guarded t active₀) {base : PoolSystem} {ptr : DevicePtr}
    {size bytes : ℕ} {stream : CudaStream} (hbase : base.Sound) (ht : t ∉ base.calls)
    (hx : x ∉ s.objects) (hptr : ptr ≠ 0) (hsize : calculateBucketSize bytes = some size)
    (hout : HandsOut s.base base ptr size) :
    Guarded t active₀
      { base := base
        objects := s.objects.insert x ⟨true, ptr, bytes, stream⟩
        acquired := (ptr, stream) :: s.acquired
        released := s.released } := by
  have hfresh : ∀ y c, s.objects.lookup y = some c → c.ptr ≠ 0 → c.ptr ≠ ptr := by
    rintro y c hy hc rfl
    obtain ⟨-, csize, -, huse⟩ := h.valid y c hy hc
    exact hout.unused csize huse
  refine ⟨hbase, ht, ?_, ?_, ?_, ?_⟩
  · intro y c hy hc
    rw [lookup_insert_ite] at hy
    split_ifs at hy
    · obtain rfl := Option.some.inj hy
      exact ⟨rfl, size, hsize, (hout.inUse ptr size).mpr (Or.inl ⟨rfl, rfl⟩)⟩
    · obtain ⟨hpool, csize, hcsize, huse⟩ := h.valid y c hy hc
      exact ⟨hpool, csize, hcsize, (hout.inUse c.ptr csize).mpr (Or.inr huse)⟩
  · intro y z c d hy hz hc hcd
    rw [lookup_insert_ite] at hy hz
    split_ifs at hy hz with hyx hzx hzx
    · exact hyx.trans hzx.symm
    · obtain rfl := Option.some.inj hy
      exact absurd hcd.symm (hfresh z d hz (hcd ▸ hptr))
    · obtain rfl := Option.some.inj hz
      exact absurd hcd (hfresh y c hy hc)
    · exact h.unique y z c d hy hz hc hcd
  · have hb : heldBy x ⟨true, ptr, bytes, stream⟩ = {(ptr, stream)} := if_neg hptr
    show (((ptr, stream) :: s.acquired : List _) : Multiset (DevicePtr × CudaStream)) =
      s.released + total heldBy (s.objects.insert x ⟨true, ptr, bytes, stream⟩)
    rw [total_insert_of_notMem hx, hb, ← Multiset.cons_coe, h.ledger, ← Multiset.singleton_add,
      add_left_comm]
    rfl
  · have hb : bucketOf x ⟨true, ptr, bytes, stream⟩ = size := by simp [bucketOf, hptr, hsize]
    show base.pool.activeBytes = active₀ + total bucketOf (s.objects.insert x _)
    rw [total_insert_of_notMem hx, hb, hout.active, h.active]
    show active₀ + total bucketOf s.objects + size = _
    omega

/-- A guard that holds nothing goes away. -/
theorem Guarded.eraseNull (h : s.Guarded t active₀) (hx : s.objects.lookup x = some b)
    (hb : b.ptr = 0) : Guarded t active₀ { s with objects := s.objects.erase x } := by
  have hold : ∀ y c, (s.objects.erase x).lookup y = some c → s.objects.lookup y = some c := by
    intro y c hy
    rw [lookup_erase_ite] at hy
    split_ifs at hy
    exact hy
  refine ⟨h.sound, h.idle, fun y c hy hc => h.valid y c (hold y c hy) hc, ?_, ?_, ?_⟩
  · intro y z c d hy hz hc hcd
    exact h.unique y z c d (hold y c hy) (hold z d hz) hc hcd
  · have hheld := total_erase (f := heldBy) hx
    rw [heldBy_null x hb, zero_add] at hheld
    show _ = _ + total heldBy (s.objects.erase x)
    rw [hheld]
    exact h.ledger
  · have hbytes := total_erase (f := bucketOf) hx
    rw [bucketOf_null x hb, zero_add] at hbytes
    show _ = _ + total bucketOf (s.objects.erase x)
    rw [hbytes]
    exact h.active

theorem step_guarded {a : ScopedAction} (h : s.Guarded t active₀) (hs : step t s a = some s') :
    s'.Guarded t active₀ := by
  cases a with
  | construct x =>
    simp only [step] at hs
    split_ifs at hs with hx
    obtain rfl := Option.some.inj hs
    exact h.insertNull hx rfl
  | acquireScoped x bytes category stream first retry =>
    simp only [step] at hs
    split_ifs at hs with hx
    obtain ⟨⟨base, result⟩, hcall, rfl⟩ := Option.map_eq_some_iff.mp hs
    obtain ⟨hbase, ht, hend⟩ := acquireCall_spec h.sound h.idle hcall
    rcases hend with ⟨rfl | rfl, hsame⟩ | ⟨ptr, size, rfl, hptr, hsize, hout⟩
    · exact h.sameUse hbase ht hsame
    · exact (h.sameUse hbase ht hsame).insertNull hx rfl
    · simp only [hptr, if_false]
      exact h.insertAcquired hbase ht hx hptr hsize hout
  | moveConstruct x other =>
    simp only [step] at hs
    split_ifs at hs with hx
    obtain ⟨b, hother, rfl⟩ := Option.map_eq_some_iff.mp hs
    apply h.transfer hother
    · intro a ha
      exact absurd (mem_of_lookup ha) hx
    · rintro rfl
      exact hx (mem_of_lookup hother)
  | moveAssign x other =>
    simp only [step] at hs
    split at hs
    · rename_i a b hx hother
      split_ifs at hs with heq
      · exact Option.some.inj hs ▸ h
      · obtain ⟨u, hu, rfl⟩ := Option.map_eq_some_iff.mp hs
        obtain ⟨hguarded, ⟨c, hc, hnull⟩, hrest⟩ := h.releaseBuffer hx hu
        apply hguarded.transfer ((hrest other (Ne.symm heq)).trans hother) _ heq
        intro a ha
        exact Option.some.inj (hc.symm.trans ha) ▸ hnull
    · cases hs
  | release x =>
    obtain ⟨b, hx, hs⟩ := Option.bind_eq_some_iff.mp hs
    exact (h.releaseBuffer hx hs).1
  | destroy x =>
    obtain ⟨b, hx, hs⟩ := Option.bind_eq_some_iff.mp hs
    obtain ⟨u, hu, rfl⟩ := Option.map_eq_some_iff.mp hs
    obtain ⟨hguarded, ⟨c, hc, hnull⟩, -⟩ := h.releaseBuffer hx hu
    exact hguarded.eraseNull hc hnull

/-- In every program over guards of a pool that any callers have used before, no two guards hold one
buffer, what guards hold is in use, each pointer obtained was released once with its stream or is
held, and without guards the bytes in use are those of the start. -/
theorem scopedBuffer_releases_once {maxCachedBytes : ℕ} {before : List PoolAction}
    {base : PoolSystem} {program : List ScopedAction}
    (hbase : Transition.exec PoolSystem.step (PoolSystem.init maxCachedBytes) before = some base)
    (ht : t ∉ base.calls)
    (hs : Transition.exec (step t) (start base) program = some s) :
    (∀ x y b c, s.objects.lookup x = some b → s.objects.lookup y = some c →
      b.ptr ≠ 0 → b.ptr = c.ptr → x = y) ∧
    (∀ x b, s.objects.lookup x = some b → b.ptr ≠ 0 →
      ∃ node, s.base.pool.poolNodes.lookup b.ptr = some node ∧ node.inUse = true) ∧
    (s.acquired : Multiset (DevicePtr × CudaStream)) = s.released + s.held ∧
    (s.objects = ∅ → s.released.Perm s.acquired ∧
      s.base.pool.activeBytes = base.pool.activeBytes) := by
  have hsound : base.Sound :=
    Transition.exec_preserves (fun _ _ _ h hs => step_sound h hs) (init_sound maxCachedBytes) hbase
  have h : s.Guarded t base.pool.activeBytes :=
    Transition.exec_preserves (fun _ _ _ h hs => step_guarded h hs) (start_guarded hsound ht) hs
  refine ⟨h.unique, ?_, h.ledger, ?_⟩
  · intro x b hx hb
    obtain ⟨-, size, -, node, hn, huse, -⟩ := h.valid x b hx hb
    exact ⟨node, hn, huse⟩
  · intro hempty
    have hheld : s.held = 0 := by
      unfold held
      rw [hempty, total_empty]
    have hbytes : s.heldBytes = 0 := by
      unfold heldBytes
      rw [hempty, total_empty]
    have hledger := h.ledger
    rw [hheld, add_zero] at hledger
    have hactive := h.active
    rw [hbytes, Nat.add_zero] at hactive
    exact ⟨(Multiset.coe_eq_coe.mp hledger).symm, hactive⟩

/-- The pool is warm, one acquire throws, and the guards are moved and reassigned before they go. -/
theorem scopedBuffer_releases_once_run : ∃ base,
    Transition.exec PoolSystem.step (PoolSystem.init 1024)
      [.acquire 5 300 .weights 0 (some 4096), .acquire 5 200 .weights 0 (some 8192),
        .release 5 8192 0] = some base ∧ ∃ s,
    Transition.exec (step 0) (start base)
      [.acquireScoped 0 256 .workspace 3 none none, .acquireScoped 1 100 .kvCache 4 (some 512) none,
        .acquireScoped 2 600 .kvCache 4 none none, .moveConstruct 3 0, .moveAssign 3 1,
        .moveAssign 3 3, .destroy 0, .destroy 1, .release 3, .destroy 3] = some s ∧
    s.acquired = [(512, 4), (8192, 3)] ∧ s.released.Perm s.acquired ∧
    s.base.pool.activeBytes = base.pool.activeBytes :=
  Transition.exec_exists
    (P := fun base => 0 ∉ base.calls ∧
      ((Transition.exec (step 0) (start base)
        [.acquireScoped 0 256 .workspace 3 none none,
          .acquireScoped 1 100 .kvCache 4 (some 512) none,
          .acquireScoped 2 600 .kvCache 4 none none, .moveConstruct 3 0, .moveAssign 3 1,
          .moveAssign 3 3, .destroy 0, .destroy 1, .release 3, .destroy 3]).any fun s =>
        decide (s.objects.entries = [] ∧ s.acquired = [(512, 4), (8192, 3)])) = true)
    (by decide +kernel) fun _ hbase hrun =>
      Transition.exec_exists hrun.2 fun _ hs hlast =>
        ⟨hlast.2, (scopedBuffer_releases_once hbase hrun.1 hs).2.2.2 (AList.ext hlast.1)⟩

end ScopedSystem
end CudaForge.Memory
