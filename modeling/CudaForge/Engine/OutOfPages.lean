import CudaForge.Engine.LLMEngine
import CudaForge.Memory.CacheCalls

/-! The synchronous engine over the paged KV cache, whose calls may throw in mid-step. -/
namespace CudaForge.Engine
open FiniteMap PriorityQueue Scheduler Memory

structure PagedEngine (cfg : KVCacheConfig) (Q : Type) where
  requestCounter : ℕ
  activeRequests : FiniteMap ℕ SamplingParams
  kvCache : PagedKVCache cfg
  modelRunner : ModelRunner Q

/-- A step only appends to the stream. -/
theorem ModelRunner.queue_prefix {Q : Type} [PriorityQueue Q RequestRef] (m : ModelRunner Q) :
    m.streamBuffer.queue <+: m.step.2.streamBuffer.queue := by
  unfold ModelRunner.step
  dsimp only
  split_ifs
  · exact List.prefix_rfl
  · exact List.prefix_append _ _

namespace PagedEngine
variable {cfg : KVCacheConfig} {Q : Type} [PriorityQueue Q RequestRef]

def init (cfg : KVCacheConfig) (maxNumSeqs maxNumBatchedTokens vocabSize : ℕ) (eosTokenId : ℤ) :
    PagedEngine cfg Q where
  requestCounter := 0
  activeRequests := ∅
  kvCache := PagedKVCache.init cfg
  modelRunner := ModelRunner.init
    (BatcherState.init maxNumSeqs maxNumBatchedTokens fun r => Request.new r [] 0 0 0)
    vocabSize eosTokenId

def queueRequest (e : PagedEngine cfg Q) (r : RequestRef) (cppRequest : Request) :
    PagedEngine cfg Q :=
  let batcher := e.modelRunner.batcher
  let created := { batcher with requests := Function.update batcher.requests r cppRequest }
  { e with modelRunner := { e.modelRunner with batcher := (created.addRequest (some r)).2 } }

/-- `none` when a conversion to `uint64_t` or `int32_t` or the cache raises. -/
def addRequest (e : PagedEngine cfg Q) (promptTokens : List ℤ) (samplingParams : SamplingParams)
    (now : ℕ) : Option ℕ × PagedEngine cfg Q :=
  let reqId := e.requestCounter + 1
  let e := { e with requestCounter := reqId }
  if !(reqId < 2 ^ 64 && promptTokens.all fitsInt32) then (none, e)
  else
    let registered := e.kvCache.registerSequenceWithPrefix reqId (promptTokens.map Int32.ofInt)
    let e := { e with kvCache := registered.2 }
    match registered.1 with
    | .error _ => (none, e)
    | .ok _ =>
      if !(fitsInt32 samplingParams.maxTokens && fitsInt32 samplingParams.priority) then (none, e)
      else
        let e := e.queueRequest reqId
          (Request.new reqId promptTokens samplingParams.maxTokens samplingParams.priority now)
        (some reqId, { e with activeRequests := e.activeRequests.insert reqId samplingParams })

structure OutputLoop (cfg : KVCacheConfig) where
  kvCache : PagedKVCache cfg
  results : List GenerationOutput
  finishedReqIds : List ℕ

/-- The loop over the popped outputs; an exception leaves it where it is. -/
def outputLoop (activeRequests : FiniteMap ℕ SamplingParams) :
    List StreamOutput → OutputLoop cfg → Except KVCacheException Unit × OutputLoop cfg
  | [], acc => (.ok (), acc)
  | out :: rawOutputs, acc =>
    let isFinal := LLMEngine.endsRequest activeRequests out
    let appended :=
      if isFinal then (.ok (), acc.kvCache) else acc.kvCache.appendTokens out.requestId 1
    match appended.1 with
    | .error exception => (.error exception, { acc with kvCache := appended.2 })
    | .ok _ =>
      outputLoop activeRequests rawOutputs
        { kvCache := appended.2
          results := acc.results ++ [⟨out.requestId, out.tokenId, isFinal, none⟩]
          finishedReqIds :=
            if isFinal then acc.finishedReqIds ++ [out.requestId] else acc.finishedReqIds }

def popped (e : PagedEngine cfg Q) : List StreamOutput := e.modelRunner.step.2.streamBuffer.queue

def step (e : PagedEngine cfg Q) :
    Except KVCacheException (List GenerationOutput) × PagedEngine cfg Q :=
  let modelRunner := e.modelRunner.step.2
  let popped := modelRunner.streamBuffer.popAll
  let loop := outputLoop e.activeRequests popped.1 ⟨e.kvCache, [], []⟩
  match loop.1 with
  | .error exception =>
    (.error exception,
      { e with
        modelRunner := { modelRunner with streamBuffer := popped.2 }
        kvCache := loop.2.kvCache })
  | .ok _ =>
    (.ok loop.2.results,
      { e with
        modelRunner :=
          { modelRunner with
            streamBuffer := popped.2
            batcher := modelRunner.batcher.updateRequestsState loop.2.finishedReqIds }
        kvCache :=
          loop.2.finishedReqIds.foldl (fun kv id => kv.unregisterSequence id) loop.2.kvCache
        activeRequests := loop.2.finishedReqIds.foldl (fun m id => m.erase id) e.activeRequests })

/-- An id that does not convert to `uint64_t` raises before anything is done. -/
def cancelRequest (e : PagedEngine cfg Q) (requestId : ℤ) : PagedEngine cfg Q :=
  if 0 ≤ requestId ∧ requestId < 2 ^ 64 then
    { e with
      modelRunner := e.modelRunner.cancelRequest requestId.toNat
      kvCache := e.kvCache.unregisterSequence requestId.toNat
      activeRequests := e.activeRequests.erase requestId.toNat }
  else e

section Loop
variable {activeRequests : FiniteMap ℕ SamplingParams} {rawOutputs : List StreamOutput}
  {acc : OutputLoop cfg}

/-- A loop that gets through has a result for every output. -/
theorem outputLoop_ok (h : (outputLoop activeRequests rawOutputs acc).1 = .ok ()) :
    (outputLoop activeRequests rawOutputs acc).2.results.map (fun o => o.requestId) =
      acc.results.map (fun o => o.requestId) ++ rawOutputs.map fun o => o.requestId := by
  induction rawOutputs generalizing acc with
  | nil => simp [outputLoop]
  | cons out rest ih =>
    unfold outputLoop at h ⊢
    dsimp only at h ⊢
    split at h
    · contradiction
    · rw [ih h]
      simp

/-- Appending creates no page table and drops none. -/
theorem mem_appendTokens (c : PagedKVCache cfg) (sequenceId numTokens id : ℕ) :
    id ∈ (c.appendTokens sequenceId numTokens).2.pageTables ↔ id ∈ c.pageTables := by
  cases hlookup : c.pageTables.lookup sequenceId with
  | none => simp only [PagedKVCache.appendTokens, hlookup]
  | some table =>
    have hregistered : sequenceId ∈ c.pageTables := mem_of_lookup hlookup
    have hrule := PagedKVCache.appendTokens_rule
      (I := fun _ c' => id ∈ c'.pageTables ↔ id ∈ c.pageTables)
      (fun table c' b cache n _ hc' halloc => by
        rw [AList.mem_insert, (PagedKVCache.allocated halloc).pageTables, hc']
        exact or_iff_right_of_imp fun hid => hid ▸ hregistered)
      hlookup Iff.rfl (fun _ _ _ => Iff.rfl) numTokens
    exact hrule.choose_spec

theorem outputLoop_tables (id : ℕ) :
    id ∈ (outputLoop activeRequests rawOutputs acc).2.kvCache.pageTables ↔
      id ∈ acc.kvCache.pageTables := by
  induction rawOutputs generalizing acc with
  | nil => rfl
  | cons out rest ih =>
    unfold outputLoop
    dsimp only
    have hkeep : ∀ isFinal : Bool, id ∈ (if isFinal then (Except.ok (), acc.kvCache)
        else acc.kvCache.appendTokens out.requestId 1).2.pageTables ↔
          id ∈ acc.kvCache.pageTables := by
      intro isFinal
      cases isFinal
      · exact mem_appendTokens _ _ _ _
      · rfl
    split
    · exact hkeep _
    · exact ih.trans (hkeep _)

end Loop

variable {e : PagedEngine cfg Q} {exception : KVCacheException}

/-- A step that throws has drained the stream and cleaned up nothing. -/
theorem step_error (h : e.step.1 = .error exception) :
    e.step.2.modelRunner.streamBuffer.queue = [] ∧ e.step.2.activeRequests = e.activeRequests ∧
      ∀ id, id ∈ e.step.2.kvCache.pageTables ↔ id ∈ e.kvCache.pageTables := by
  unfold step at h ⊢
  dsimp only at h ⊢
  split at h
  · exact ⟨rfl, rfl, fun id => outputLoop_tables id⟩
  · contradiction

theorem step_ok {results : List GenerationOutput} (h : e.step.1 = .ok results) :
    e.step.2.modelRunner.streamBuffer.queue = [] ∧
      results.map (fun o => o.requestId) = e.popped.map fun o => o.requestId := by
  unfold step at h ⊢
  dsimp only at h ⊢
  split at h
  · contradiction
  · rename_i heq
    obtain rfl := Except.ok.inj h
    exact ⟨rfl, outputLoop_ok heq⟩

theorem popped_ne_nil (h : e.step.1 = .error exception) : e.popped ≠ [] := by
  intro hnil
  have hpop : e.modelRunner.step.2.streamBuffer.queue = [] := hnil
  simp [step, TokenStreamBuffer.popAll, hpop, outputLoop] at h

end PagedEngine

/-- The engine with all outputs its runner has pushed and all results its steps have returned since
the log was started. -/
structure DeliveryLog (cfg : KVCacheConfig) (Q : Type) where
  engine : PagedEngine cfg Q
  pushed : List StreamOutput
  delivered : List GenerationOutput

namespace DeliveryLog
variable {cfg : KVCacheConfig} {Q : Type} [PriorityQueue Q RequestRef]

/-- A call; an exception of `step` is caught by the caller's loop, which goes on. -/
def call (l : DeliveryLog cfg Q) : EngineAction → DeliveryLog cfg Q
  | .addRequest promptTokens samplingParams now =>
    { l with engine := (l.engine.addRequest promptTokens samplingParams now).2 }
  | .cancelRequest requestId => { l with engine := l.engine.cancelRequest requestId }
  | .step =>
    { engine := l.engine.step.2
      pushed := l.pushed ++
        l.engine.popped.drop l.engine.modelRunner.streamBuffer.queue.length
      delivered :=
        match l.engine.step.1 with
        | .ok results => l.delivered ++ results
        | .error _ => l.delivered }

def pushedCount (l : DeliveryLog cfg Q) (requestId : ℕ) : ℕ :=
  l.pushed.countP fun o => o.requestId = requestId

def deliveredCount (l : DeliveryLog cfg Q) (requestId : ℕ) : ℕ :=
  l.delivered.countP fun o => o.requestId = requestId

def bufferedCount (l : DeliveryLog cfg Q) (requestId : ℕ) : ℕ :=
  l.engine.modelRunner.streamBuffer.queue.countP fun o => o.requestId = requestId

/-- What was delivered or is buffered was pushed since the log was started. -/
def Bounded (l : DeliveryLog cfg Q) : Prop :=
  ∀ requestId, l.deliveredCount requestId + l.bufferedCount requestId ≤ l.pushedCount requestId

theorem countP_requestId {α : Type} (l : List α) (f : α → ℕ) (requestId : ℕ) :
    l.countP (fun o => f o = requestId) = (l.map f).count requestId := by
  rw [List.count, List.countP_map]
  apply List.countP_congr
  simp

variable {l : DeliveryLog cfg Q}

theorem Bounded.step (h : l.Bounded) : (l.call .step).Bounded := by
  intro requestId
  have hbound := h requestId
  obtain ⟨new, hnew⟩ := l.engine.modelRunner.queue_prefix
  have hpopped : l.engine.popped = l.engine.modelRunner.streamBuffer.queue ++ new := hnew.symm
  have hpushed : (l.call .step).pushedCount requestId =
      l.pushedCount requestId + new.countP fun o => o.requestId = requestId := by
    simp only [pushedCount, call, hpopped, List.drop_left, List.countP_append]
  cases hstep : l.engine.step.1 with
  | error exception =>
    obtain ⟨hqueue, -⟩ := PagedEngine.step_error hstep
    have hdelivered : (l.call .step).deliveredCount requestId = l.deliveredCount requestId := by
      simp only [deliveredCount, call, hstep]
    have hbuffered : (l.call .step).bufferedCount requestId = 0 := by
      simp only [bufferedCount, call, hqueue, List.countP_nil]
    omega
  | ok results =>
    obtain ⟨hqueue, hresults⟩ := PagedEngine.step_ok hstep
    have hdelivered : (l.call .step).deliveredCount requestId = l.deliveredCount requestId +
        (l.bufferedCount requestId + new.countP fun o => o.requestId = requestId) := by
      simp only [deliveredCount, bufferedCount, call, hstep, List.countP_append]
      congr 1
      rw [countP_requestId, hresults, hpopped, ← countP_requestId, List.countP_append]
    have hbuffered : (l.call .step).bufferedCount requestId = 0 := by
      simp only [bufferedCount, call, hqueue, List.countP_nil]
    omega

theorem Bounded.call (h : l.Bounded) (a : EngineAction) : (l.call a).Bounded := by
  cases a with
  | step => exact h.step
  | addRequest promptTokens samplingParams now =>
    have hqueue : (l.engine.addRequest promptTokens samplingParams
        now).2.modelRunner.streamBuffer = l.engine.modelRunner.streamBuffer := by
      simp only [PagedEngine.addRequest]
      split_ifs <;> first | rfl | split <;> rfl
    intro requestId
    have hbound := h requestId
    simpa only [deliveredCount, bufferedCount, pushedCount, DeliveryLog.call, hqueue] using hbound
  | cancelRequest requestId =>
    have hqueue : (l.engine.cancelRequest requestId).modelRunner.streamBuffer =
        l.engine.modelRunner.streamBuffer := by
      unfold PagedEngine.cancelRequest
      split_ifs <;> rfl
    intro requestId
    have hbound := h requestId
    simpa only [deliveredCount, bufferedCount, pushedCount, DeliveryLog.call, hqueue] using hbound

theorem Bounded.run (h : l.Bounded) (actions : List EngineAction) :
    (actions.foldl DeliveryLog.call l).Bounded := by
  induction actions generalizing l with
  | nil => exact h
  | cons a rest ih => exact ih (h.call a)

/-- A step in which `append_tokens` throws loses every output that it popped: whatever is called
later, what is delivered or buffered stays below what was popped and pushed. It also leaves the
requests that ended registered. -/
theorem outputs_lost (e : PagedEngine cfg Q) (exception : KVCacheException)
    (h : e.step.1 = .error exception) (later : List EngineAction) :
    let l : DeliveryLog cfg Q := later.foldl call ⟨e.step.2, [], []⟩
    e.popped ≠ [] ∧
    (∀ out ∈ e.popped, l.deliveredCount out.requestId + l.bufferedCount out.requestId <
      e.popped.countP (fun o => o.requestId = out.requestId) + l.pushedCount out.requestId) ∧
    e.step.2.activeRequests = e.activeRequests ∧
    ∀ id, id ∈ e.step.2.kvCache.pageTables ↔ id ∈ e.kvCache.pageTables := by
  intro l
  obtain ⟨hqueue, hactive, htables⟩ := PagedEngine.step_error h
  have hstart : Bounded (⟨e.step.2, [], []⟩ : DeliveryLog cfg Q) := by
    intro requestId
    simp [deliveredCount, bufferedCount, pushedCount, hqueue]
  refine ⟨PagedEngine.popped_ne_nil h, fun out hout => ?_, hactive, htables⟩
  have hbound : l.deliveredCount out.requestId + l.bufferedCount out.requestId ≤
      l.pushedCount out.requestId := hstart.run later out.requestId
  have hpos : 0 < e.popped.countP fun o => o.requestId = out.requestId :=
    List.countP_pos_iff.mpr ⟨out, hout, decide_eq_true rfl⟩
  omega

/-- Two blocks of one token; request 1 ends with its first token, request 2 needs a third block. -/
def exhausted : PagedEngine twoTokenPool (List RequestRef) :=
  (((PagedEngine.init _ 8 64 100 99).addRequest [7] { maxTokens := 1 } 0).2.addRequest [8]
    { maxTokens := 4 } 1).2

theorem outputs_lost_exhausted :
    let l : DeliveryLog { totalGpuBlocks := 2, blockSize := 1 } (List RequestRef) :=
      [.cancelRequest 2, .step].foldl call ⟨exhausted.step.2, [], []⟩
    exhausted.popped ≠ [] ∧
    (∀ out ∈ exhausted.popped,
      l.deliveredCount out.requestId + l.bufferedCount out.requestId <
        exhausted.popped.countP (fun o => o.requestId = out.requestId) +
          l.pushedCount out.requestId) ∧
    exhausted.step.2.activeRequests = exhausted.activeRequests ∧
    ∀ id, id ∈ exhausted.step.2.kvCache.pageTables ↔ id ∈ exhausted.kvCache.pageTables :=
  outputs_lost exhausted (.outOfPages 2) (by rfl) [.cancelRequest 2, .step]

/-- The final token of request 1 was popped and is never delivered, and the request stays active and
registered. -/
theorem final_token_lost :
    let l : DeliveryLog { totalGpuBlocks := 2, blockSize := 1 } (List RequestRef) :=
      [.cancelRequest 2, .step, .step].foldl call ⟨exhausted.step.2, [], []⟩
    exhausted.popped = [⟨1, 8, true⟩, ⟨2, 9, false⟩] ∧
      exhausted.step.1.toOption = none ∧ l.delivered = [] ∧
      1 ∈ l.engine.activeRequests ∧ 1 ∈ l.engine.kvCache.pageTables ∧
      l.engine.modelRunner.batcher.batcher.requestMap.lookup 1 = none := by
  decide +kernel

end DeliveryLog
end CudaForge.Engine
