import CudaForge.Engine.OutOfPages
import CudaForge.Memory.BlockOwnership
import CudaForge.Memory.FailedCalls
import CudaForge.Scheduler.QueueEntries

/-!
What `add_request` of the synchronous engine comes to. The sequence is registered before the request
is built, and the answer of the batcher is not looked at: a request that the batcher refuses, or
that cannot be built, stays registered.
-/
namespace CudaForge.Engine
open FiniteMap PriorityQueue Scheduler Memory

namespace PagedEngine
variable {cfg : KVCacheConfig} {Q : Type} [PriorityQueue Q RequestRef]

section Statements

/-- The call has left the page tables, the active requests and the batcher as they were. -/
structure Refused (e e' : PagedEngine cfg Q) : Prop where
  pageTables : e'.kvCache.pageTables = e.kvCache.pageTables
  activeRequests : e'.activeRequests = e.activeRequests
  batcher : e'.modelRunner.batcher = e.modelRunner.batcher

/-- The request waits in the batcher, its sequence is registered, and it is active. -/
structure Queued (e e' : PagedEngine cfg Q) (reqId : ℕ) (samplingParams : SamplingParams) :
    Prop where
  waiting : items e'.modelRunner.batcher.batcher.waitingQueue =
    reqId ::ₘ items e.modelRunner.batcher.batcher.waitingQueue
  mapped : e'.modelRunner.batcher.batcher.requestMap.lookup reqId = some reqId
  registered : reqId ∈ e'.kvCache.pageTables
  active : e'.activeRequests.lookup reqId = some samplingParams

/-- The call either raises without effect, or returns the id of a queued request. -/
def QueuesOrRefuses (e : PagedEngine cfg Q) (promptTokens : List ℤ)
    (samplingParams : SamplingParams) (now : ℕ) : Prop :=
  match e.addRequest promptTokens samplingParams now with
  | (none, e') => e.Refused e'
  | (some reqId, e') => e.Queued e' reqId samplingParams

def HasRoom (c : PagedKVCache cfg) (sequenceId : ℕ) (tokens : List Int32) : Prop :=
  sequenceId ∈ c.pageTables ∨ c.furtherBlocks tokens ≤ c.capacityBesides (c.reusedBlocks tokens)

def Registers (e : PagedEngine cfg Q) (promptTokens : List ℤ) : Prop :=
  (e.requestCounter + 1 < 2 ^ 64 && promptTokens.all fitsInt32) = true ∧
    HasRoom e.kvCache (e.requestCounter + 1) (promptTokens.map Int32.ofInt)

/-- The parameters convert to `int32_t`. -/
def Converts (samplingParams : SamplingParams) : Prop :=
  (fitsInt32 samplingParams.maxTokens && fitsInt32 samplingParams.priority) = true

/-- Whenever the sequence is registered, the request can be built and the batcher takes it. -/
def Admissible (e : PagedEngine cfg Q) (promptTokens : List ℤ) (samplingParams : SamplingParams) :
    Prop :=
  e.Registers promptTokens →
    (Converts samplingParams → promptTokens ≠ [] ∧
      e.requestCounter + 1 ∉ e.modelRunner.batcher.batcher.requestMap) ∧
    (¬Converts samplingParams → e.requestCounter + 1 ∈ e.kvCache.pageTables)

end Statements

section Registration
variable {c : PagedKVCache cfg} {sequenceId : ℕ} {tokens : List Int32}

/-- A registration with room returns a count, and the sequence has a table from then on. -/
theorem registerSequence_room (h : HasRoom c sequenceId tokens) :
    (∃ n, (c.registerSequenceWithPrefix sequenceId tokens).1 = .ok n) ∧
      sequenceId ∈ (c.registerSequenceWithPrefix sequenceId tokens).2.pageTables := by
  by_cases hid : sequenceId ∈ c.pageTables
  · have hcall : c.registerSequenceWithPrefix sequenceId tokens = (.ok 0, c) := if_pos hid
    rw [hcall]
    exact ⟨⟨0, rfl⟩, hid⟩
  · have hroom := Nat.not_lt.mpr (h.resolve_left hid)
    rw [← PagedKVCache.registerSequence_throws_iff hid] at hroom
    simp only [PagedKVCache.registerSequenceWithPrefix, hid, if_false] at hroom ⊢
    split_ifs at hroom ⊢ with hflag
    · exact absurd rfl hroom
    · exact ⟨⟨_, rfl⟩, (AList.mem_insert _).mpr (Or.inl rfl)⟩

/-- A registration without room throws, and the tables stay. -/
theorem registerSequence_full (h : ¬HasRoom c sequenceId tokens) :
    (∃ ex, (c.registerSequenceWithPrefix sequenceId tokens).1 = .error ex) ∧
      (c.registerSequenceWithPrefix sequenceId tokens).2.pageTables = c.pageTables := by
  rw [HasRoom, not_or, Nat.not_le] at h
  obtain ⟨hid, hfull⟩ := h
  rw [← PagedKVCache.registerSequence_throws_iff hid] at hfull
  refine ⟨⟨_, hfull⟩, ?_⟩
  simp only [PagedKVCache.registerSequenceWithPrefix, hid, if_false] at hfull ⊢
  split_ifs at hfull ⊢
  exact PagedKVCache.buildTable_pageTables tokens

theorem registerSequence_registered (h : sequenceId ∈ c.pageTables) :
    (c.registerSequenceWithPrefix sequenceId tokens).2 = c := by
  rw [PagedKVCache.registerSequenceWithPrefix, if_pos h]

end Registration

section Calls
variable {e : PagedEngine cfg Q} {promptTokens : List ℤ} {samplingParams : SamplingParams}
  {now : ℕ}

def afterRegistration (e : PagedEngine cfg Q) (promptTokens : List ℤ) : PagedEngine cfg Q :=
  { e with
    requestCounter := e.requestCounter + 1
    kvCache := (e.kvCache.registerSequenceWithPrefix (e.requestCounter + 1)
      (promptTokens.map Int32.ofInt)).2 }

def cppRequest (e : PagedEngine cfg Q) (promptTokens : List ℤ) (samplingParams : SamplingParams)
    (now : ℕ) : Request :=
  Request.new (e.requestCounter + 1) promptTokens samplingParams.maxTokens samplingParams.priority
    now

theorem addRequest_refused (samplingParams : SamplingParams) (now : ℕ)
    (h : ¬e.Registers promptTokens) :
    (e.addRequest promptTokens samplingParams now).1 = none ∧
      e.Refused (e.addRequest promptTokens samplingParams now).2 := by
  unfold addRequest
  dsimp only
  split_ifs with hids hparams
  · exact ⟨rfl, ⟨rfl, rfl, rfl⟩⟩
  all_goals
    have hfull : ¬HasRoom e.kvCache (e.requestCounter + 1) (promptTokens.map Int32.ofInt) :=
      fun hroom => h ⟨by simpa only [Bool.not_eq_true', Bool.not_eq_false] using hids, hroom⟩
    obtain ⟨⟨ex, hthrow⟩, htables⟩ := registerSequence_full hfull
    rw [hthrow]
    exact ⟨rfl, ⟨htables, rfl, rfl⟩⟩

theorem addRequest_registered (h : e.Registers promptTokens) :
    e.addRequest promptTokens samplingParams now =
      open Classical in
      if Converts samplingParams then
        (some (e.requestCounter + 1),
          { (e.afterRegistration promptTokens).queueRequest (e.requestCounter + 1)
              (e.cppRequest promptTokens samplingParams now) with
            activeRequests := e.activeRequests.insert (e.requestCounter + 1) samplingParams })
      else (none, e.afterRegistration promptTokens) := by
  obtain ⟨hids, hroom⟩ := h
  obtain ⟨⟨n, hn⟩, -⟩ := registerSequence_room hroom
  unfold addRequest Converts
  simp only [hids, hn, Bool.not_true, Bool.false_eq_true, if_false]
  by_cases hconverts :
      (fitsInt32 samplingParams.maxTokens && fitsInt32 samplingParams.priority) = true
  · simp only [hconverts, Bool.not_true, Bool.false_eq_true, if_false, if_true]
    rfl
  · rw [if_neg hconverts, if_pos (by rwa [Bool.not_eq_true', ← Bool.not_eq_true])]
    rfl

omit [PriorityQueue Q RequestRef] in
/-- The batcher sees the new request with the id and the prompt of the call. -/
theorem acceptable_iff (e : PagedEngine cfg Q) (promptTokens : List ℤ)
    (samplingParams : SamplingParams) (now : ℕ) :
    ({ e.modelRunner.batcher with
        requests := Function.update e.modelRunner.batcher.requests (e.requestCounter + 1)
          (e.cppRequest promptTokens samplingParams now) } : BatcherState Q).Acceptable
      (e.requestCounter + 1) ↔
    promptTokens ≠ [] ∧ e.requestCounter + 1 ∉ e.modelRunner.batcher.batcher.requestMap := by
  simp only [BatcherState.Acceptable, Function.update_self, cppRequest, Request.new]

theorem queued_iff (h : e.Registers promptTokens) :
    e.Queued
        { (e.afterRegistration promptTokens).queueRequest (e.requestCounter + 1)
            (e.cppRequest promptTokens samplingParams now) with
          activeRequests := e.activeRequests.insert (e.requestCounter + 1) samplingParams }
        (e.requestCounter + 1) samplingParams ↔
      promptTokens ≠ [] ∧ e.requestCounter + 1 ∉ e.modelRunner.batcher.batcher.requestMap := by
  have hregistered := (registerSequence_room h.2).2
  constructor
  · intro hqueued
    by_contra hrefused
    rw [← acceptable_iff e promptTokens samplingParams now] at hrefused
    have hwaiting := congrArg Multiset.card hqueued.waiting
    simp only [queueRequest, afterRegistration, BatcherState.addRequest_refused hrefused,
      Multiset.card_cons] at hwaiting
    omega
  · intro haccepted
    rw [← acceptable_iff e promptTokens samplingParams now] at haccepted
    constructor
    · simp only [queueRequest, afterRegistration, BatcherState.addRequest_accepted haccepted,
        items_push]
    · simp only [queueRequest, afterRegistration, BatcherState.addRequest_accepted haccepted]
      simp [cppRequest, Request.new]
    · exact hregistered
    · exact AList.lookup_insert _

/-- A call queues the request or has no effect exactly when every sequence that it registers is for
a request that can be built and that the batcher takes. -/
theorem queuesOrRefuses_iff :
    e.QueuesOrRefuses promptTokens samplingParams now ↔
      e.Admissible promptTokens samplingParams := by
  unfold QueuesOrRefuses Admissible
  by_cases hregisters : e.Registers promptTokens
  · rw [addRequest_registered hregisters]
    by_cases hconverts : Converts samplingParams
    · simp only [hconverts, if_true, queued_iff hregisters, hregisters, true_imp_iff,
        not_true_eq_false, false_imp_iff, and_true]
    · simp only [hconverts, if_false, hregisters, true_imp_iff, not_false_eq_true, false_imp_iff,
        true_and]
      constructor
      · intro hrefused
        rw [← hrefused.pageTables]
        exact (registerSequence_room hregisters.2).2
      · intro hid
        exact ⟨by rw [afterRegistration, registerSequence_registered hid], rfl, rfl⟩
  · obtain ⟨hnone, hrefused⟩ := addRequest_refused samplingParams now hregisters
    generalize e.addRequest promptTokens samplingParams now = call at hnone hrefused
    obtain ⟨reqId, e'⟩ := call
    subst hnone
    exact iff_of_true hrefused fun h => absurd h hregisters

/-- An empty prompt is registered and becomes active without ever waiting in the batcher; a request
whose `max_tokens` is no `int32_t` raises once its sequence is registered. -/
theorem registered_for_nothing :
    let e : PagedEngine { totalGpuBlocks := 4, blockSize := 4 } (List RequestRef) :=
      PagedEngine.init _ 4 64 100 99
    ¬e.QueuesOrRefuses [] { maxTokens := 4 } 0 ∧
      ¬e.QueuesOrRefuses [7] { maxTokens := 2 ^ 31 } 0 := by
  intro e
  constructor
  · intro h
    have hcall : e.addRequest [] { maxTokens := 4 } 0 =
        (some 1, (e.addRequest [] { maxTokens := 4 } 0).2) := Prod.ext (by decide) rfl
    rw [QueuesOrRefuses, hcall] at h
    exact absurd h.waiting (by decide)
  · intro h
    have hcall : e.addRequest [7] { maxTokens := 2 ^ 31 } 0 =
        (none, (e.addRequest [7] { maxTokens := 2 ^ 31 } 0).2) := Prod.ext (by decide) rfl
    rw [QueuesOrRefuses, hcall] at h
    have hregistered : 1 ∈ e.kvCache.pageTables := by
      rw [← h.pageTables]
      decide
    exact absurd hregistered (by decide)

end Calls

end PagedEngine
end CudaForge.Engine
