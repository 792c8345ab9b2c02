import CudaForge.Engine.AsyncStreams
import CudaForge.Memory.BlockOwnership
import CudaForge.Scheduler.RetiredIds

/-!
What an abandoned stream leaves behind. The generator cancels its request for
`asyncio.CancelledError`; for another exception its request stays in the engine.
-/
namespace CudaForge.Engine
open FiniteMap PriorityQueue Scheduler Memory Transition

namespace ModelRunner
variable {Q : Type} [PriorityQueue Q RequestRef] {m : ModelRunner Q} {requestId : ℕ}

/-- An id that the batcher will not schedule again is not scheduled by a step. -/
theorem step_retired (hb : m.batcher.Budgeted) (h : m.batcher.Retired requestId) :
    m.step.2.batcher.Retired requestId := by
  have hs : m.scheduled.batcher.Retired requestId := h.scheduleStep hb
  have hexec := executeBatch_ids m.scheduled m.batch
  have hexecuted : BatcherState.Retired { m.scheduled.batcher with
      requests := (m.scheduled.executeBatch m.batch).requests } requestId :=
    hs.of_requests rfl hexec.id_eq hexec.state_eq
  unfold ModelRunner.step
  dsimp only
  split_ifs
  · exact hs
  · exact hexecuted.updateRequestsState _

end ModelRunner

namespace PagedEngine
variable {cfg : KVCacheConfig} {Q : Type} [PriorityQueue Q RequestRef] {e : PagedEngine cfg Q}
  {requestId : ℕ}

/-- The engine keeps nothing of the request, and will not schedule it again. -/
structure Released (e : PagedEngine cfg Q) (requestId : ℕ) : Prop where
  active : requestId ∉ e.activeRequests
  blocks : requestId ∉ e.kvCache.pageTables
  retired : e.modelRunner.batcher.Retired requestId

/-- An id that `add_request` returns converts to `uint64_t`. -/
theorem addRequest_lt {promptTokens : List ℤ} {samplingParams : SamplingParams} {now reqId : ℕ}
    (h : (e.addRequest promptTokens samplingParams now).1 = some reqId) : reqId < 2 ^ 64 := by
  have hid := (e.addRequest_counter promptTokens samplingParams now).2 reqId h
  by_contra hge
  have hconvert : (!(decide (e.requestCounter + 1 < 2 ^ 64) && promptTokens.all fitsInt32)) =
      true := by
    rw [decide_eq_false (hid ▸ hge)]
    rfl
  simp only [addRequest, hconvert, if_true, reduceCtorEq] at h

theorem Issued.cancelRequest_released (h : e.Issued) (hid : requestId < 2 ^ 64) :
    (e.cancelRequest requestId).Released requestId := by
  have hrange : 0 ≤ (requestId : ℤ) ∧ (requestId : ℤ) < 2 ^ 64 :=
    ⟨Int.natCast_nonneg _, by exact_mod_cast hid⟩
  rw [PagedEngine.cancelRequest, if_pos hrange, Int.toNat_natCast]
  constructor
  · exact fun hmem => (AList.mem_erase.mp hmem).1 rfl
  · rw [← AList.lookup_eq_none, PagedKVCache.unregisterSequence_lookup, if_pos rfl]
  · exact h.budgeted.cancelRequest_retired requestId

theorem mem_of_mem_unregister {c : PagedKVCache cfg} {sequenceId : ℕ}
    (h : requestId ∈ (c.unregisterSequence sequenceId).pageTables) : requestId ∈ c.pageTables := by
  rw [← AList.lookup_isSome, PagedKVCache.unregisterSequence_lookup] at h
  split_ifs at h
  · contradiction
  · exact AList.lookup_isSome.mp h

theorem Released.cancelRequest (h : e.Released requestId) (other : ℤ) :
    (e.cancelRequest other).Released requestId := by
  unfold PagedEngine.cancelRequest
  split_ifs
  · constructor
    · exact fun hmem => h.active (AList.mem_erase.mp hmem).2
    · exact fun hmem => h.blocks (mem_of_mem_unregister hmem)
    · exact h.retired.cancelRequest _
  · exact h

/-- A request that is queued under a new id leaves the ids before it alone. -/
theorem Released.queueRequest (h : e.Released requestId) (hissued : e.Issued) {r : ℕ}
    (hr : e.requestCounter < r) (cppRequest : Request) (hne : cppRequest.id ≠ requestId) :
    (e.queueRequest r cppRequest).Released requestId := by
  refine ⟨h.active, h.blocks, ?_⟩
  have hold : ∀ q ∈ e.modelRunner.batcher.entries,
      Function.update e.modelRunner.batcher.requests r cppRequest q =
        e.modelRunner.batcher.requests q := by
    intro q hq
    have hle : q ≤ e.requestCounter := hissued.ref_le q hq
    exact Function.update_of_ne (hle.trans_lt hr).ne _ _
  apply BatcherState.Retired.addRequest
  · constructor
    · intro q hq
      dsimp only
      rw [hold q (BatcherState.mem_entries.mpr (Or.inl hq))]
      exact h.retired.not_running q hq
    · intro q hq
      dsimp only
      rw [hold q (BatcherState.mem_entries.mpr (Or.inr hq))]
      exact h.retired.waiting_finished q hq
  · dsimp only
    rw [Function.update_self]
    exact hne

theorem Released.addRequest (h : e.Released requestId) (hissued : e.Issued)
    (hle : requestId ≤ e.requestCounter) (promptTokens : List ℤ) (samplingParams : SamplingParams)
    (now : ℕ) : (e.addRequest promptTokens samplingParams now).2.Released requestId := by
  have hne : e.requestCounter + 1 ≠ requestId := (Nat.lt_succ_of_le hle).ne'
  let registered := e.kvCache.registerSequenceWithPrefix (e.requestCounter + 1)
    (promptTokens.map Int32.ofInt)
  have hblocks : requestId ∉ registered.2.pageTables := fun hmem =>
    (PagedKVCache.mem_of_mem_registerSequence hmem).elim hne.symm h.blocks
  have hregistered : Released
      { e with requestCounter := e.requestCounter + 1, kvCache := registered.2 } requestId :=
    ⟨h.active, hblocks, h.retired⟩
  unfold PagedEngine.addRequest
  dsimp only
  split_ifs
  · exact ⟨h.active, h.blocks, h.retired⟩
  · split
    · exact hregistered
    · exact hregistered
  · split
    · exact hregistered
    · have hqueued := Released.queueRequest
        (e := { e with kvCache := registered.2 }) ⟨h.active, hblocks, h.retired⟩ hissued
        (Nat.lt_succ_self _)
        (Request.new (e.requestCounter + 1) promptTokens samplingParams.maxTokens
          samplingParams.priority now) hne
      refine ⟨fun hmem => ?_, hqueued.blocks, hqueued.retired⟩
      rw [AList.mem_insert] at hmem
      exact hmem.elim hne.symm h.active

theorem Released.step (h : e.Released requestId) (hissued : e.Issued) :
    e.step.2.Released requestId := by
  have hretired := ModelRunner.step_retired hissued.budgeted h.retired
  have htables : ∀ acc : OutputLoop cfg, acc.kvCache = e.kvCache → ∀ rawOutputs, requestId ∉
      (outputLoop e.activeRequests rawOutputs acc).2.kvCache.pageTables := by
    intro acc hacc rawOutputs hmem
    rw [outputLoop_tables, hacc] at hmem
    exact h.blocks hmem
  unfold PagedEngine.step
  dsimp only
  split
  · exact ⟨h.active, htables _ rfl _, hretired⟩
  · constructor
    · exact List.foldlRecOn (motive := fun m => requestId ∉ m) _ _ h.active
        fun m hm id _ hmem => hm (AList.mem_erase.mp hmem).2
    · exact List.foldlRecOn (motive := fun kv : PagedKVCache cfg => requestId ∉ kv.pageTables) _ _
        (htables _ rfl _) fun kv hkv id _ hmem => hkv (mem_of_mem_unregister hmem)
    · exact hretired.updateRequestsState _

end PagedEngine

def Consumer.Abandoned (k : Consumer) : Prop :=
  (k.state = .cancelled ∨ k.state = .closed) ∧ ∀ o ∈ k.received, o.isFinal = false

namespace AsyncLLMEngine
variable {cfg : KVCacheConfig} {Q : Type} [PriorityQueue Q RequestRef]
  {s s' : AsyncLLMEngine cfg Q} {delivered : List GenerationOutput} {requestId : ℕ}

/-- Nothing of the request is left, and nobody will schedule it again. -/
structure Released (s : AsyncLLMEngine cfg Q) (requestId : ℕ) : Prop where
  engine : s.engine.Released requestId
  queue : requestId ∉ s.requestQueues

/-- Every abandoned stream has its request cancelled: no schedule contains it. -/
def CleansUp (s : AsyncLLMEngine cfg Q) : Prop :=
  ∀ c k, s.consumers c = some k → k.Abandoned → s.Released k.requestId ∧
    ∀ r ∈ s.engine.modelRunner.scheduledRequests,
      (s.engine.modelRunner.batcher.requests r).id ≠ k.requestId

/-- An exception that the generator does not handle finds its request gone already, or its final
output yielded. -/
def Handled (s : AsyncLLMEngine cfg Q) : AsyncAction → Prop
  | .close c => ∀ k, s.suspended c = some k → (∀ o ∈ k.received, o.isFinal = false) →
      s.Released k.requestId
  | _ => True

theorem Released.generate (h : s.Released requestId) (hissued : s.engine.Issued)
    (hle : requestId ≤ s.engine.requestCounter) {c : ConsumerId} {promptTokens : List ℤ}
    {samplingParams : Option SamplingParams} {now : ℕ}
    (hs : s.generate c promptTokens samplingParams now = some s') : s'.Released requestId := by
  have hnext := (s.engine.addRequest_counter promptTokens (samplingParams.getD {}) now).2
  have hadded := h.engine.addRequest hissued hle promptTokens (samplingParams.getD {}) now
  unfold AsyncLLMEngine.generate at hs
  split at hs
  · contradiction
  · dsimp only at hs
    split at hs
    · exact Option.some.inj hs ▸ ⟨hadded, h.queue⟩
    · rename_i reqId hreqId
      rw [← Option.some.inj hs]
      refine ⟨hadded, fun hmem => ?_⟩
      rw [AList.mem_insert] at hmem
      rcases hmem with heq | hmem
      · have hid := hnext reqId hreqId
        omega
      · exact h.queue hmem

theorem Released.step (h : s.Released requestId) (hissued : s.engine.Issued)
    (hle : requestId ≤ s.engine.requestCounter) {a : AsyncAction} (hs : s.step a = some s') :
    s'.Released requestId := by
  cases a with
  | start => exact Option.some.inj hs ▸ ⟨h.engine, h.queue⟩
  | generate c promptTokens samplingParams now => exact h.generate hissued hle hs
  | get c =>
    simp only [AsyncLLMEngine.step, AsyncLLMEngine.get] at hs
    split at hs
    · exact Option.some.inj hs ▸ ⟨h.engine, h.queue⟩
    · contradiction
  | resume c =>
    simp only [AsyncLLMEngine.step, AsyncLLMEngine.resume] at hs
    split at hs
    · exact Option.some.inj hs ▸ ⟨h.engine, h.queue⟩
    · contradiction
  | cancel c =>
    obtain ⟨k, -, hs⟩ := Option.map_eq_some_iff.mp hs
    rw [← hs]
    constructor
    · dsimp only
      exact h.engine.cancelRequest _
    · exact fun hmem => h.queue (AList.mem_erase.mp hmem).2
  | close c =>
    obtain ⟨k, -, rfl⟩ := Option.map_eq_some_iff.mp hs
    exact ⟨h.engine, h.queue⟩
  | loopStep =>
    simp only [AsyncLLMEngine.step, AsyncLLMEngine.loopStep] at hs
    split at hs
    · split_ifs at hs
      split at hs <;> exact Option.some.inj hs ▸ ⟨h.engine.step hissued, h.queue⟩
    · contradiction
  | deliver =>
    simp only [AsyncLLMEngine.step, AsyncLLMEngine.deliver] at hs
    split at hs
    · split at hs <;> exact Option.some.inj hs ▸ ⟨h.engine, h.queue⟩
    · contradiction
  | remove =>
    simp only [AsyncLLMEngine.step, AsyncLLMEngine.remove] at hs
    split at hs
    · exact Option.some.inj hs ▸ ⟨h.engine, fun hmem => h.queue (AList.mem_erase.mp hmem).2⟩
    · contradiction

/-- Where a consumer comes from: it was there before, or a call of `generate` has made it. Only its
own exception abandons it. -/
theorem consumer_of_step {a : AsyncAction} (hs : s.step a = some s') {c : ConsumerId}
    {k' : Consumer} (hk' : s'.consumers c = some k') :
    (∃ k, s.consumers c = some k ∧ k.requestId = k'.requestId ∧ (k'.Abandoned → k.Abandoned ∨
      (a = .cancel c ∨ a = .close c) ∧ s.suspended c = some k ∧ k.received = k'.received)) ∨
    k'.requestId < 2 ^ 64 ∧ k'.state = .waiting := by
  cases a with
  | start =>
    obtain rfl := Option.some.inj hs
    exact Or.inl ⟨k', hk', rfl, Or.inl⟩
  | generate d promptTokens samplingParams now =>
    simp only [AsyncLLMEngine.step, AsyncLLMEngine.generate] at hs
    split at hs
    · contradiction
    · split at hs
      · rw [← Option.some.inj hs] at hk'
        exact Or.inl ⟨k', hk', rfl, Or.inl⟩
      · rename_i reqId hreqId
        rw [← Option.some.inj hs] at hk'
        rcases setConsumer_cases hk' with ⟨-, rfl⟩ | ⟨-, hold⟩
        · exact Or.inr ⟨PagedEngine.addRequest_lt hreqId, rfl⟩
        · exact Or.inl ⟨k', hold, rfl, Or.inl⟩
  | get d =>
    simp only [AsyncLLMEngine.step, AsyncLLMEngine.get] at hs
    split at hs
    · rename_i hk
      rw [← Option.some.inj hs] at hk'
      rcases setConsumer_cases hk' with ⟨rfl, rfl⟩ | ⟨-, hold⟩
      · exact Or.inl ⟨_, hk, rfl, fun hab => hab.1.elim nofun nofun⟩
      · exact Or.inl ⟨k', hold, rfl, Or.inl⟩
    · contradiction
  | resume d =>
    simp only [AsyncLLMEngine.step, AsyncLLMEngine.resume] at hs
    split at hs
    · rename_i hk
      rw [← Option.some.inj hs] at hk'
      rcases setConsumer_cases hk' with ⟨rfl, rfl⟩ | ⟨-, hold⟩
      · refine Or.inl ⟨_, hk, rfl, fun hab => ?_⟩
        have hstate := hab.1
        dsimp only at hstate
        split_ifs at hstate <;> exact hstate.elim nofun nofun
      · exact Or.inl ⟨k', hold, rfl, Or.inl⟩
    · contradiction
  | cancel d =>
    obtain ⟨k, hk, hs⟩ := Option.map_eq_some_iff.mp hs
    rw [← hs] at hk'
    dsimp only at hk'
    rcases setConsumer_cases hk' with ⟨rfl, rfl⟩ | ⟨-, hold⟩
    · exact Or.inl ⟨k, suspended_eq hk, rfl, fun _ => Or.inr ⟨Or.inl rfl, hk, rfl⟩⟩
    · exact Or.inl ⟨k', hold, rfl, Or.inl⟩
  | close d =>
    obtain ⟨k, hk, rfl⟩ := Option.map_eq_some_iff.mp hs
    rcases setConsumer_cases hk' with ⟨rfl, rfl⟩ | ⟨-, hold⟩
    · exact Or.inl ⟨k, suspended_eq hk, rfl, fun _ => Or.inr ⟨Or.inr rfl, hk, rfl⟩⟩
    · exact Or.inl ⟨k', hold, rfl, Or.inl⟩
  | loopStep =>
    simp only [AsyncLLMEngine.step, AsyncLLMEngine.loopStep] at hs
    split at hs
    · split_ifs at hs
      split at hs <;>
      · rw [← Option.some.inj hs] at hk'
        exact Or.inl ⟨k', hk', rfl, Or.inl⟩
    · contradiction
  | deliver =>
    simp only [AsyncLLMEngine.step, AsyncLLMEngine.deliver] at hs
    split at hs
    · split at hs
      · rw [← Option.some.inj hs] at hk'
        exact Or.inl ⟨k', hk', rfl, Or.inl⟩
      · rename_i d hd
        rw [← Option.some.inj hs] at hk'
        simp only [put, Function.update_apply] at hk'
        split_ifs at hk' with hcd
        · obtain ⟨k, hk, rfl⟩ := Option.map_eq_some_iff.mp hk'
          exact Or.inl ⟨k, hcd ▸ hk, rfl, Or.inl⟩
        · exact Or.inl ⟨k', hk', rfl, Or.inl⟩
    · contradiction
  | remove =>
    simp only [AsyncLLMEngine.step, AsyncLLMEngine.remove] at hs
    split at hs
    · rw [← Option.some.inj hs] at hk'
      exact Or.inl ⟨k', hk', rfl, Or.inl⟩
    · contradiction

/-- The invariant: every id converts, and every abandoned request is released. -/
structure Cleaned (s : AsyncLLMEngine cfg Q) : Prop where
  routed : ∃ delivered, s.Routed delivered
  id_lt : ∀ c k, s.consumers c = some k → k.requestId < 2 ^ 64
  released : ∀ c k, s.consumers c = some k → k.Abandoned → s.Released k.requestId

theorem Cleaned.cleansUp (h : s.Cleaned) : s.CleansUp := by
  intro c k hk habandoned
  obtain ⟨delivered, hrouted⟩ := h.routed
  have hreleased := h.released c k hk habandoned
  exact ⟨hreleased, hreleased.engine.retired.not_scheduled hrouted.issued.budgeted⟩

theorem Cleaned.step (h : s.Cleaned) {a : AsyncAction} (hhandled : s.Handled a)
    (hs : s.step a = some s') : s'.Cleaned := by
  obtain ⟨delivered, hrouted⟩ := h.routed
  have hkeeps : ∀ c k, s.consumers c = some k → s.Released k.requestId →
      s'.Released k.requestId := fun c k hk hreleased =>
    hreleased.step hrouted.issued (hrouted.consumer_le c k hk) hs
  refine ⟨hrouted.step hs, fun c k' hk' => ?_, fun c k' hk' habandoned => ?_⟩
  · rcases consumer_of_step hs hk' with ⟨k, hk, hid, -⟩ | ⟨hlt, -⟩
    · exact hid ▸ h.id_lt c k hk
    · exact hlt
  · rcases consumer_of_step hs hk' with ⟨k, hk, hid, hfrom⟩ | ⟨-, hstate⟩
    · rw [← hid]
      rcases hfrom habandoned with hbefore | ⟨rfl | rfl, hsuspended, hreceived⟩
      · exact hkeeps c k hk (h.released c k hk hbefore)
      · -- The handler of the generator runs in this step.
        obtain ⟨k₁, hk₁, rfl⟩ := Option.map_eq_some_iff.mp hs
        obtain rfl : k = k₁ := Option.some.inj (hsuspended.symm.trans hk₁)
        constructor
        · dsimp only
          exact hrouted.issued.cancelRequest_released (h.id_lt c k hk)
        · exact fun hmem => (AList.mem_erase.mp hmem).1 rfl
      · apply hkeeps c k hk
        exact hhandled k hsuspended (hreceived ▸ habandoned.2)
    · exact absurd habandoned.1 (by rw [hstate]; decide)

theorem handled_of_cleansUp {a : AsyncAction} (hs : s.step a = some s') (h : s'.CleansUp) :
    s.Handled a := by
  cases a with
  | close c =>
    intro k hk hreceived
    obtain ⟨k₁, hk₁, rfl⟩ := Option.map_eq_some_iff.mp hs
    obtain rfl : k = k₁ := Option.some.inj (hk.symm.trans hk₁)
    have hclosed : (s.setConsumer c { k with state := .closed }).Released k.requestId :=
      (h c _ (Function.update_self _ _ _) ⟨Or.inr rfl, hreceived⟩).1
    exact ⟨hclosed.engine, hclosed.queue⟩
  | _ => trivial

/-- Abandoned streams are cleaned up through a run exactly when no stream is closed by an unhandled
exception while something of its request is left. -/
theorem abandoned_released_iff (maxNumSeqs maxNumBatchedTokens vocabSize : ℕ) (eosTokenId : ℤ)
    (actions : List AsyncAction) (hrun : exec AsyncLLMEngine.step
      (init cfg maxNumSeqs maxNumBatchedTokens vocabSize eosTokenId) actions = some s) :
    (∀ pre, pre <+: actions → ∀ t, exec AsyncLLMEngine.step
      (init cfg maxNumSeqs maxNumBatchedTokens vocabSize eosTokenId : AsyncLLMEngine cfg Q) pre =
        some t → t.CleansUp) ↔
    AllSteps AsyncLLMEngine.step Handled
      (init cfg maxNumSeqs maxNumBatchedTokens vocabSize eosTokenId : AsyncLLMEngine cfg Q)
      actions := by
  have hinit : (init cfg maxNumSeqs maxNumBatchedTokens vocabSize eosTokenId :
      AsyncLLMEngine cfg Q).Cleaned :=
    ⟨⟨[], init_routed _ _ _ _⟩, fun c k hk => (nomatch hk), fun c k hk => (nomatch hk)⟩
  exact always_iff_allSteps (fun _ h => h.cleansUp) (fun _ _ _ h hhandled hs => h.step hhandled hs)
    (fun _ _ _ _ hs h => handled_of_cleansUp hs h) hinit hrun

def cancelledStreams : List AsyncAction :=
  [.generate 0 [7] (some { maxTokens := 2 }) 0, .generate 1 [8, 9] (some { maxTokens := 4 }) 1,
    .loopStep, .deliver, .deliver, .get 1, .cancel 0, .cancel 1, .generate 2 [5] none 2, .loopStep]

theorem abandoned_released_cancelled : ∃ s : AsyncLLMEngine
    { totalGpuBlocks := 4, blockSize := 4 } (List RequestRef),
    exec AsyncLLMEngine.step (init _ 8 64 100 99) cancelledStreams = some s ∧
      ∀ pre, pre <+: cancelledStreams → ∀ t : AsyncLLMEngine
        { totalGpuBlocks := 4, blockSize := 4 } (List RequestRef),
        exec AsyncLLMEngine.step (init _ 8 64 100 99) pre = some t → t.CleansUp := by
  have hhandled : ∀ a ∈ cancelledStreams, ∀ s : AsyncLLMEngine
      { totalGpuBlocks := 4, blockSize := 4 } (List RequestRef), s.Handled a := by
    simp [cancelledStreams, Handled]
  have hsome : (exec AsyncLLMEngine.step (init { totalGpuBlocks := 4, blockSize := 4 } 8 64 100 99 :
      AsyncLLMEngine _ (List RequestRef)) cancelledStreams).isSome = true := by
    decide +kernel
  obtain ⟨s, hrun⟩ := Option.isSome_iff_exists.mp hsome
  exact ⟨s, hrun, (abandoned_released_iff 8 64 100 99 cancelledStreams hrun).mpr
    (allSteps_of_forall hhandled _)⟩

/-- The consumer leaves its loop after the first output, and the generator is closed there: the
request stays active with its blocks and its queue, and the next step schedules it. -/
theorem closed_not_released : ∃ s : AsyncLLMEngine
    { totalGpuBlocks := 4, blockSize := 4 } (List RequestRef),
    exec AsyncLLMEngine.step (init _ 8 64 100 99) [.generate 0 [7] (some { maxTokens := 4 }) 0,
      .loopStep, .deliver, .get 0, .close 0] = some s ∧
    (∃ k, s.consumers 0 = some k ∧ k.requestId = 1 ∧ k.Abandoned) ∧
    1 ∈ s.engine.activeRequests ∧ 1 ∈ s.engine.kvCache.pageTables ∧ 1 ∈ s.requestQueues ∧
    1 ∈ s.engine.modelRunner.scheduledRequests ∧ ¬s.CleansUp := by
  refine ⟨_, rfl, ⟨_, rfl, rfl, Or.inr rfl, by decide⟩, by decide, by decide, by decide,
    by decide, fun h => ?_⟩
  have hreleased := (h 0 _ rfl ⟨Or.inr rfl, by decide⟩).1
  exact hreleased.queue (by decide)

end AsyncLLMEngine
end CudaForge.Engine
