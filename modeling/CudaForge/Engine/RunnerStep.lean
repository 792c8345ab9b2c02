import CudaForge.Engine.ModelRunner
import CudaForge.Scheduler.BatcherBudget

/-! What one runner step emits and how it changes the requests it was scheduled. -/
namespace CudaForge.Engine
open MachineWord FiniteMap PriorityQueue Scheduler

/-- The stop test of both loops, on the request before its token is pushed. -/
def stops (eosTokenId : ℤ) (sample : Request → ℤ) (req : Request) : Bool :=
  sample req = eosTokenId || ofInt 64 req.maxNewTokens ≤ req.generatedTokens.length + 1

def output (eosTokenId : ℤ) (sample : Request → ℤ) (req : Request) : StreamOutput :=
  ⟨req.id, sample req, stops eosTokenId sample req⟩

def advance (eosTokenId : ℤ) (sample : Request → ℤ) (req : Request) : Request :=
  { req with
    generatedTokens := req.generatedTokens ++ [sample req]
    state := if stops eosTokenId sample req then .finished else req.state }

def advanceAll (eosTokenId : ℤ) (sample : Request → ℤ) (l : List RequestRef)
    (rs : Requests) : Requests :=
  fun q => if q ∈ l then advance eosTokenId sample (rs q) else rs q

@[simp] theorem advanceAll_nil (eosTokenId : ℤ) (sample : Request → ℤ) (rs : Requests) :
    advanceAll eosTokenId sample [] rs = rs := by
  funext q
  simp [advanceAll]

theorem mem_advanceAll_stops {eosTokenId : ℤ} {sample : Request → ℤ} {l : List RequestRef}
    {rs : Requests} {r : RequestRef} (hr : r ∈ l) (hs : stops eosTokenId sample (rs r) = true) :
    (advanceAll eosTokenId sample l rs r).state = .finished := by
  simp [advanceAll, advance, hr, hs]

@[simp] theorem advanceAll_id (eosTokenId : ℤ) (sample : Request → ℤ) (l : List RequestRef)
    (rs : Requests) (r : RequestRef) : (advanceAll eosTokenId sample l rs r).id = (rs r).id := by
  unfold advanceAll; split_ifs <;> rfl

theorem advanceAll_of_notMem {eosTokenId : ℤ} {sample : Request → ℤ} {l : List RequestRef}
    {rs : Requests} {r : RequestRef} (hr : r ∉ l) : advanceAll eosTokenId sample l rs r = rs r :=
  if_neg hr

namespace ModelRunner
variable {Q : Type}

theorem executeRequest_eq (eosTokenId : ℤ) (sample : Request → ℤ) (acc : Execution)
    (r : RequestRef) :
    executeRequest eosTokenId sample acc r =
      { requests := advanceAll eosTokenId sample [r] acc.requests
        generatedOutputs := acc.generatedOutputs ++ [output eosTokenId sample (acc.requests r)]
        finishedIds := acc.finishedIds ++
          if stops eosTokenId sample (acc.requests r) then [(acc.requests r).id] else [] } := by
  have hstop : (decide (sample (acc.requests r) = eosTokenId) ||
      decide (ofInt 64 (acc.requests r).maxNewTokens ≤
        (acc.requests r).generatedTokens.length + 1)) =
      stops eosTokenId sample (acc.requests r) := rfl
  simp only [executeRequest, Requests.pushToken, Function.update_self, List.length_append,
    List.length_singleton, hstop, Execution.mk.injEq]
  refine ⟨?_, rfl, ?_⟩
  · funext q
    simp only [advanceAll, advance, List.mem_singleton, Requests.setState]
    by_cases hq : q = r
    · subst hq
      cases stops eosTokenId sample (acc.requests q) <;> simp
    · cases stops eosTokenId sample (acc.requests r) <;> simp [hq]
  · cases stops eosTokenId sample (acc.requests r) <;> simp

theorem executeRequest_fold (eosTokenId : ℤ) (sample : Request → ℤ) {l : List RequestRef}
    (hl : l.Nodup) (acc : Execution) :
    l.foldl (executeRequest eosTokenId sample) acc =
      { requests := advanceAll eosTokenId sample l acc.requests
        generatedOutputs :=
          acc.generatedOutputs ++ l.map fun r => output eosTokenId sample (acc.requests r)
        finishedIds := acc.finishedIds ++
          (l.filter fun r => stops eosTokenId sample (acc.requests r)).map fun r =>
            (acc.requests r).id } := by
  induction l generalizing acc with
  | nil =>
    simp
  | cons r rest ih =>
    obtain ⟨hr, hrest⟩ := List.nodup_cons.mp hl
    have hsame : ∀ q ∈ rest, advanceAll eosTokenId sample [r] acc.requests q = acc.requests q := by
      intro q hq
      have hne : q ∉ [r] := by
        rintro hqr
        rw [List.mem_singleton.mp hqr] at hq
        exact hr hq
      exact if_neg hne
    rw [List.foldl_cons, ih hrest, executeRequest_eq, Execution.mk.injEq]
    refine ⟨?_, ?_, ?_⟩
    · funext q
      simp only [advanceAll, List.mem_cons]
      by_cases hq : q = r
      · subst hq
        simp [hr]
      · simp [hq]
    · simp only [List.map_cons, List.append_assoc, List.singleton_append]
      congr 2
      exact List.map_congr_left fun q hq => by rw [hsame q hq]
    · rw [List.append_assoc]
      congr 1
      have hfilter : (rest.filter fun q =>
          stops eosTokenId sample (advanceAll eosTokenId sample [r] acc.requests q)) =
          rest.filter fun q => stops eosTokenId sample (acc.requests q) :=
        List.filter_congr fun q hq => by rw [hsame q hq]
      have hmap : ((rest.filter fun q => stops eosTokenId sample (acc.requests q)).map fun q =>
          (advanceAll eosTokenId sample [r] acc.requests q).id) =
          (rest.filter fun q => stops eosTokenId sample (acc.requests q)).map fun q =>
            (acc.requests q).id :=
        List.map_congr_left fun q hq => by rw [hsame q (List.mem_of_mem_filter hq)]
      simp only [hfilter, hmap, List.filter_cons]
      split_ifs <;> simp

theorem executeBatch_eq (m : ModelRunner Q) {result : BatchStepResult}
    (hprefill : result.prefillRequests.Nodup) (hdecode : result.decodeRequests.Nodup) :
    let prefilled := advanceAll m.eosTokenId (prefillToken m.vocabSize) result.prefillRequests
      m.batcher.requests
    m.executeBatch result =
      { requests := advanceAll m.eosTokenId (decodeToken m.vocabSize) result.decodeRequests
          prefilled
        generatedOutputs :=
          (result.prefillRequests.map fun r =>
            output m.eosTokenId (prefillToken m.vocabSize) (m.batcher.requests r)) ++
          result.decodeRequests.map fun r =>
            output m.eosTokenId (decodeToken m.vocabSize) (prefilled r)
        finishedIds :=
          ((result.prefillRequests.filter fun r =>
            stops m.eosTokenId (prefillToken m.vocabSize) (m.batcher.requests r)).map fun r =>
              (m.batcher.requests r).id) ++
          (result.decodeRequests.filter fun r =>
            stops m.eosTokenId (decodeToken m.vocabSize) (prefilled r)).map fun r =>
              (prefilled r).id } := by
  intro prefilled
  rw [executeBatch, executeRequest_fold _ _ hprefill, executeRequest_fold _ _ hdecode]
  rfl

/-- Each listed request advances by one token, which is pushed to the stream in this order. -/
structure Executed (m m' : ModelRunner Q) (prefill decode : List RequestRef) : Prop where
  queue_eq : m'.streamBuffer.queue = m.streamBuffer.queue ++
    (prefill.map fun r => output m.eosTokenId (prefillToken m.vocabSize) (m.batcher.requests r)) ++
    decode.map fun r => output m.eosTokenId (decodeToken m.vocabSize) (m.batcher.requests r)
  requests_eq : m'.batcher.requests =
    advanceAll m.eosTokenId (decodeToken m.vocabSize) decode
      (advanceAll m.eosTokenId (prefillToken m.vocabSize) prefill m.batcher.requests)
  batcher_eq : m'.batcher.batcher = m.batcher.batcher
  vocabSize_eq : m'.vocabSize = m.vocabSize
  eosTokenId_eq : m'.eosTokenId = m.eosTokenId
  cancelled_eq : m'.cancelledRequests = m.cancelledRequests

variable [PriorityQueue Q RequestRef]

/-- Executing a batch keeps the scheduler's invariant. -/
theorem Executed.budgeted {m m' : ModelRunner Q} {prefill decode : List RequestRef}
    (h : Executed m m' prefill decode) (hb : m.batcher.Budgeted) : m'.batcher.Budgeted := by
  have heq : m'.batcher = ⟨m.batcher.batcher, m'.batcher.requests⟩ := by rw [← h.batcher_eq]
  have hadvance : ∀ (sample : Request → ℤ) (l : List RequestRef) (rs : Requests) (r : RequestRef),
      (advanceAll m.eosTokenId sample l rs r).promptTokens = (rs r).promptTokens ∧
        ((advanceAll m.eosTokenId sample l rs r).state = (rs r).state ∨
          (advanceAll m.eosTokenId sample l rs r).state = .finished) := by
    intro sample l rs r
    simp only [advanceAll, advance]
    split_ifs <;> simp
  rw [heq, h.requests_eq]
  refine (hb.of_requests (advanceAll_id _ _ prefill _) (fun r => (hadvance _ _ _ r).1)
    fun r => (hadvance _ _ _ r).2).of_requests (advanceAll_id _ _ decode _)
    (fun r => (hadvance _ _ _ r).1) fun r => (hadvance _ _ _ r).2

theorem step_spec (m : ModelRunner Q) {scheduled : ModelRunner Q} {result : BatchStepResult}
    (hscheduled : scheduled = { m with batcher := m.batcher.scheduleStep.2 })
    (hresult : result = scheduled.filterCancelledRequests m.batcher.scheduleStep.1)
    (hnodup : (result.prefillRequests ++ result.decodeRequests).Nodup)
    (hmapped : ∀ r ∈ result.prefillRequests ++ result.decodeRequests,
      scheduled.batcher.batcher.requestMap.lookup (scheduled.batcher.requests r).id = some r) :
    Executed scheduled m.step.2 result.prefillRequests result.decodeRequests := by
  obtain ⟨hprefill, hdecode, hdisjoint⟩ := List.nodup_append.mp hnodup
  by_cases htotal : result.prefillRequests.length + result.decodeRequests.length = 0
  · have hp : result.prefillRequests = [] := List.length_eq_zero_iff.mp (by omega)
    have hd : result.decodeRequests = [] := List.length_eq_zero_iff.mp (by omega)
    have hstep : m.step.2 = scheduled := by
      simp only [step, ← hscheduled, ← hresult, htotal, if_true]
    rw [hstep, hp, hd]
    constructor <;> simp
  · have hsame : ∀ r ∈ result.decodeRequests, advanceAll scheduled.eosTokenId
        (prefillToken scheduled.vocabSize) result.prefillRequests scheduled.batcher.requests r =
          scheduled.batcher.requests r :=
      fun r hr => advanceAll_of_notMem fun hp => hdisjoint r hp r hr rfl
    have hexec := executeBatch_eq scheduled hprefill hdecode
    have hstep : m.step.2 = { scheduled with
        streamBuffer := scheduled.streamBuffer.pushBatch
          (scheduled.executeBatch result).generatedOutputs
        batcher := { scheduled.batcher with
          requests := (scheduled.executeBatch result).requests }.updateRequestsState
            (scheduled.executeBatch result).finishedIds } := by
      simp only [step, ← hscheduled, ← hresult, htotal, if_false]
      rw [hscheduled]
    rw [hstep]
    constructor
    · simp only [hexec, TokenStreamBuffer.pushBatch, List.append_assoc]
      congr 2
      exact List.map_congr_left fun r hr => by rw [hsame r hr]
    · simp only [BatcherState.updateRequestsState_eq, hexec]
      apply Requests.markAll_of_state
      intro r hr
      obtain ⟨id, hid, hr⟩ := List.mem_filterMap.mp hr
      rcases List.mem_append.mp hid with hid | hid
      · obtain ⟨q, hq, rfl⟩ := List.mem_map.mp hid
        obtain ⟨hq, hstop⟩ := List.mem_filter.mp hq
        rw [hmapped q (List.mem_append_left _ hq)] at hr
        obtain rfl := Option.some.inj hr
        rw [advanceAll_of_notMem fun hd => hdisjoint q hq q hd rfl]
        exact mem_advanceAll_stops hq hstop
      · obtain ⟨q, hq, rfl⟩ := List.mem_map.mp hid
        obtain ⟨hq, hstop⟩ := List.mem_filter.mp hq
        rw [advanceAll_id, hmapped q (List.mem_append_right _ hq)] at hr
        obtain rfl := Option.some.inj hr
        exact mem_advanceAll_stops hq hstop
    · rfl
    · rfl
    · rfl
    · rfl

end ModelRunner
end CudaForge.Engine
