import CudaForge.Engine.Lockstep

/-! The engine's step keeps the stores in lockstep, and so does every admissible run. -/
namespace CudaForge.Engine
open MachineWord FiniteMap PriorityQueue Scheduler

namespace LLMEngine
variable {Q : Type} [PriorityQueue Q RequestRef]

def scheduledRunner (e : LLMEngine Q) : ModelRunner Q :=
  { e.modelRunner with batcher := e.modelRunner.batcher.scheduleStep.2 }

def batch (e : LLMEngine Q) : BatchStepResult :=
  e.scheduledRunner.filterCancelledRequests e.modelRunner.batcher.scheduleStep.1

section
variable {e : LLMEngine Q} {skipped : List RequestRef}

/-- Running requests that are not finished can take a token, so step 1 keeps them. -/
theorem Lockstep.keeps_iff (h : e.Lockstep) {r : RequestRef}
    (hr : r ∈ e.modelRunner.batcher.batcher.runningRequests) :
    (e.modelRunner.batcher.requests r).keeps = true ↔
      (e.modelRunner.batcher.requests r).state = .running := by
  rw [Request.keeps_iff, and_iff_right_iff_imp]
  intro hs
  have hopen := h.running_open r hr hs
  simp only [Request.isFinished, hs, Bool.or_eq_false_iff, decide_eq_false_iff_not, not_le]
  exact ⟨RequestState.noConfusion, hopen⟩

theorem Lockstep.filteredRequests_eq (h : e.Lockstep) (r : RequestRef) :
    e.modelRunner.batcher.filteredRequests r = e.modelRunner.batcher.requests r := by
  rw [BatcherState.filteredRequests, Requests.markAll]
  split_ifs with hd
  · obtain ⟨hrun, hk⟩ := BatcherState.mem_dropped.mp hd
    rcases h.budgeted.live r hrun with hs | hs
    · rw [(h.keeps_iff hrun).mpr hs] at hk
      cases hk
    · rw [← hs]
  · rfl

variable (hs : BatcherState.Scheduled e.modelRunner.batcher e.modelRunner.batcher.scheduleStep.2
  e.modelRunner.batcher.scheduleStep.1 skipped)
include hs

theorem Lockstep.scheduled_requests (h : e.Lockstep) (r : RequestRef) :
    e.scheduledRunner.batcher.requests r =
      if r ∈ e.modelRunner.batcher.scheduleStep.1.prefillRequests then
        { e.modelRunner.batcher.requests r with state := .running }
      else e.modelRunner.batcher.requests r := by
  rw [scheduledRunner, hs.requests_eq, Requests.markAll, h.filteredRequests_eq]

theorem Lockstep.prefill_waiting (h : e.Lockstep) {r : RequestRef}
    (hr : r ∈ e.modelRunner.batcher.scheduleStep.1.prefillRequests) :
    r ∈ items e.modelRunner.batcher.batcher.waitingQueue ∧
      (e.modelRunner.batcher.requests r).state = .waiting ∧
      (e.modelRunner.batcher.requests r).generatedTokens = [] := by
  have hitems : r ∈ items e.modelRunner.batcher.batcher.waitingQueue := by
    rw [hs.items_eq, Multiset.mem_add, Multiset.mem_add]
    exact Or.inl (Or.inr hr)
  have hunfinished := hs.prefill_unfinished r hr
  rw [h.filteredRequests_eq] at hunfinished
  exact ⟨hitems, h.waiting_new r hitems hunfinished⟩

theorem Lockstep.mem_decode (h : e.Lockstep) (r : RequestRef) :
    r ∈ e.modelRunner.batcher.scheduleStep.1.decodeRequests ↔
      r ∈ e.modelRunner.batcher.batcher.runningRequests ∧
        (e.modelRunner.batcher.requests r).state = .running := by
  rw [hs.decode_eq, List.mem_filter]
  exact and_congr_right fun hr => h.keeps_iff hr

theorem Lockstep.scheduled_nodup (h : e.Lockstep) :
    (e.modelRunner.batcher.scheduleStep.1.prefillRequests ++
      e.modelRunner.batcher.scheduleStep.1.decodeRequests).Nodup := by
  apply hs.nodup h.items_nodup h.running_nodup
  intro r hprefill hdecode
  have hwaiting := (h.prefill_waiting hs hprefill).2.1
  rw [((h.mem_decode hs r).mp hdecode).2] at hwaiting
  cases hwaiting

theorem Lockstep.scheduled_id (h : e.Lockstep) {r : RequestRef}
    (hr : r ∈ e.modelRunner.batcher.scheduleStep.1.prefillRequests ++
      e.modelRunner.batcher.scheduleStep.1.decodeRequests) :
    (e.scheduledRunner.batcher.requests r).id = r := by
  have hid : (e.scheduledRunner.batcher.requests r).id = (e.modelRunner.batcher.requests r).id := by
    rw [h.scheduled_requests hs]
    split_ifs <;> rfl
  rw [hid]
  rcases List.mem_append.mp hr with hr | hr
  · exact (h.id_eq r (Or.inl (h.prefill_waiting hs hr).1)).1
  · exact (h.id_eq r (Or.inr ((h.mem_decode hs r).mp hr).1)).1

theorem Lockstep.mem_batch (h : e.Lockstep) (r : RequestRef) :
    (r ∈ e.batch.prefillRequests ↔
      r ∈ e.modelRunner.batcher.scheduleStep.1.prefillRequests ∧
        r ∉ e.modelRunner.cancelledRequests) ∧
    (r ∈ e.batch.decodeRequests ↔
      r ∈ e.modelRunner.batcher.scheduleStep.1.decodeRequests ∧
        r ∉ e.modelRunner.cancelledRequests) := by
  constructor
  · simp only [batch, ModelRunner.filterCancelledRequests, ModelRunner.isCancelled,
      List.mem_filter, Bool.not_eq_true', decide_eq_false_iff_not]
    exact and_congr_right fun hr => by
      rw [h.scheduled_id hs (List.mem_append_left _ hr)]
      rfl
  · simp only [batch, ModelRunner.filterCancelledRequests, ModelRunner.isCancelled,
      List.mem_filter, Bool.not_eq_true', decide_eq_false_iff_not]
    exact and_congr_right fun hr => by
      rw [h.scheduled_id hs (List.mem_append_right _ hr)]
      rfl

theorem Lockstep.batch_nodup (h : e.Lockstep) :
    (e.batch.prefillRequests ++ e.batch.decodeRequests).Nodup := by
  have hfilter := (h.scheduled_nodup hs).filter fun r =>
    !e.scheduledRunner.isCancelled (e.scheduledRunner.batcher.requests r).id
  rwa [List.filter_append] at hfilter

theorem Lockstep.executed (h : e.Lockstep) :
    ModelRunner.Executed e.scheduledRunner e.modelRunner.step.2 e.batch.prefillRequests
      e.batch.decodeRequests := by
  apply ModelRunner.step_spec e.modelRunner rfl rfl (h.batch_nodup hs)
  intro r hr
  apply h.budgeted.scheduleStep.mapped
  rw [hs.running_eq]
  rcases List.mem_append.mp hr with hr | hr
  · exact List.mem_append_right _ (((h.mem_batch hs r).1.mp hr).1)
  · exact List.mem_append_left _ (((h.mem_batch hs r).2.mp hr).1)

def batchOutput (e : LLMEngine Q) (r : RequestRef) : StreamOutput :=
  output e.modelRunner.eosTokenId
    (if r ∈ e.batch.prefillRequests then prefillToken e.modelRunner.vocabSize
      else decodeToken e.modelRunner.vocabSize) (e.scheduledRunner.batcher.requests r)

def emitted (e : LLMEngine Q) : List RequestRef := e.batch.prefillRequests ++ e.batch.decodeRequests

def ended (e : LLMEngine Q) : List RequestRef :=
  e.emitted.filter fun r => endsRequest e.activeRequests (e.batchOutput r)

omit hs in
theorem mem_emitted (r : RequestRef) :
    r ∈ e.emitted ↔ r ∈ e.batch.prefillRequests ∨ r ∈ e.batch.decodeRequests := by
  rw [emitted, List.mem_append]

theorem Lockstep.emitted_id (h : e.Lockstep) {r : RequestRef} (hr : r ∈ e.emitted) :
    (e.scheduledRunner.batcher.requests r).id = r := by
  apply h.scheduled_id hs
  rcases (mem_emitted r).mp hr with hp | hd
  · exact List.mem_append_left _ ((h.mem_batch hs r).1.mp hp).1
  · exact List.mem_append_right _ ((h.mem_batch hs r).2.mp hd).1

theorem Lockstep.queue_step (h : e.Lockstep) :
    e.modelRunner.step.2.streamBuffer.queue = e.emitted.map e.batchOutput := by
  have hqueue := (h.executed hs).queue_eq
  have hdisjoint := (List.nodup_append.mp (h.batch_nodup hs)).2.2
  rw [show e.scheduledRunner.streamBuffer.queue = [] from h.queue_eq, List.nil_append] at hqueue
  have hprefill : e.batch.prefillRequests.map (fun r => output e.scheduledRunner.eosTokenId
      (prefillToken e.scheduledRunner.vocabSize) (e.scheduledRunner.batcher.requests r)) =
      e.batch.prefillRequests.map e.batchOutput := by
    apply List.map_congr_left
    intro r hr
    simp only [batchOutput, hr, if_true]
    rfl
  have hdecode : e.batch.decodeRequests.map (fun r => output e.scheduledRunner.eosTokenId
      (decodeToken e.scheduledRunner.vocabSize) (e.scheduledRunner.batcher.requests r)) =
      e.batch.decodeRequests.map e.batchOutput := by
    apply List.map_congr_left
    intro r hr
    simp only [batchOutput, if_neg fun hp => hdisjoint r hp r hr rfl]
    rfl
  rw [hqueue, hprefill, hdecode, emitted, List.map_append]

/-- A batched request takes one token and stays open unless the engine takes it for ended. -/
theorem Lockstep.emitted_request (h : e.Lockstep) {r : RequestRef} (hr : r ∈ e.emitted) :
    ∃ sample, e.modelRunner.step.2.batcher.requests r =
        advance e.modelRunner.eosTokenId sample (e.scheduledRunner.batcher.requests r) ∧
      (e.batchOutput r).isFinal =
        stops e.modelRunner.eosTokenId sample (e.scheduledRunner.batcher.requests r) := by
  have hrequests := (h.executed hs).requests_eq
  have hdisjoint := (List.nodup_append.mp (h.batch_nodup hs)).2.2
  rcases (mem_emitted r).mp hr with hp | hd
  · refine ⟨prefillToken e.modelRunner.vocabSize, ?_, ?_⟩
    · rw [hrequests, advanceAll_of_notMem fun hd => hdisjoint r hp r hd rfl, advanceAll, if_pos hp]
      rfl
    · simp only [batchOutput, if_pos hp, output]
  · have hp : r ∉ e.batch.prefillRequests := fun hp => hdisjoint r hp r hd rfl
    refine ⟨decodeToken e.modelRunner.vocabSize, ?_, ?_⟩
    · rw [hrequests, advanceAll, if_pos hd, advanceAll_of_notMem hp]
      rfl
    · simp only [batchOutput, if_neg hp, output]

omit hs in
theorem endsRequest_of_isFinal {activeRequests : FiniteMap ℕ SamplingParams} {out : StreamOutput}
    (h : out.isFinal = true) : endsRequest activeRequests out = true := by
  unfold endsRequest
  split <;> simp [h]

omit hs in
theorem mem_ended (r : RequestRef) : r ∈ e.ended ↔
    r ∈ e.emitted ∧ endsRequest e.activeRequests (e.batchOutput r) = true := by
  rw [ended, List.mem_filter]

/-- What the loop over the popped outputs returns. -/
theorem Lockstep.outputLoop (h : e.Lockstep) :
    let loop := (e.emitted.map e.batchOutput).foldl (processOutput e.activeRequests)
      ⟨e.kvCache, [], []⟩
    loop.finishedReqIds = e.ended ∧
      ∀ id, loop.kvCache.lookup id =
        if id ∈ e.emitted ∧ id ∉ e.ended then (e.kvCache.lookup id).map (· + 1)
        else e.kvCache.lookup id := by
  have hid : ∀ r ∈ e.emitted, (e.batchOutput r).requestId = r := fun r hr => h.emitted_id hs hr
  have hids : (e.emitted.map e.batchOutput).map StreamOutput.requestId = e.emitted := by
    rw [List.map_map]
    exact (List.map_congr_left hid).trans (List.map_id _)
  obtain ⟨hfinished, hkv⟩ := processOutputs_spec e.activeRequests
    (e.emitted.map e.batchOutput) (by rw [hids]; exact h.batch_nodup hs)
    ⟨e.kvCache, [], []⟩
  constructor
  · rw [hfinished, List.filter_map, List.map_map, List.nil_append]
    exact (List.map_congr_left fun r hr => hid r (List.mem_of_mem_filter hr)).trans
      (List.map_id _)
  · intro id
    have hgrow : (∃ o ∈ e.emitted.map e.batchOutput, o.requestId = id ∧
        endsRequest e.activeRequests o = false) ↔ id ∈ e.emitted ∧ id ∉ e.ended := by
      constructor
      · rintro ⟨o, ho, rfl, hends⟩
        obtain ⟨r, hr, rfl⟩ := List.mem_map.mp ho
        rw [hid r hr, mem_ended, hends]
        exact ⟨hr, fun hf => Bool.false_ne_true hf.2⟩
      · rintro ⟨hr, hnot⟩
        refine ⟨e.batchOutput id, List.mem_map_of_mem hr, hid id hr, ?_⟩
        exact Bool.eq_false_iff.mpr fun hends => hnot ((mem_ended id).mpr ⟨hr, hends⟩)
    simp only [hkv, hgrow]

/-- Every batched request is the one registered under its id. -/
theorem Lockstep.emitted_mapped (h : e.Lockstep) {r : RequestRef} (hr : r ∈ e.emitted) :
    e.modelRunner.step.2.batcher.batcher.requestMap.lookup r = some r := by
  have hrunning : r ∈ e.modelRunner.batcher.scheduleStep.2.batcher.runningRequests := by
    rw [hs.running_eq]
    rcases (mem_emitted r).mp hr with hp | hd
    · exact List.mem_append_right _ ((h.mem_batch hs r).1.mp hp).1
    · exact List.mem_append_left _ ((h.mem_batch hs r).2.mp hd).1
  have hmapped := h.budgeted.scheduleStep.mapped r hrunning
  rw [show (e.modelRunner.batcher.scheduleStep.2.requests r).id = r from h.emitted_id hs hr]
    at hmapped
  rw [(h.executed hs).batcher_eq]
  exact hmapped

/-- The requests after the step: the ended ones are marked finished. -/
theorem Lockstep.requests_step (h : e.Lockstep) :
    (e.modelRunner.step.2.batcher.updateRequestsState e.ended).requests =
      e.modelRunner.step.2.batcher.requests.markAll e.ended .finished := by
  rw [BatcherState.updateRequestsState_eq]
  have hmapped : e.ended.filterMap
      (fun id => e.modelRunner.step.2.batcher.batcher.requestMap.lookup id) = e.ended := by
    rw [List.filterMap_congr (g := some) fun r hr => h.emitted_mapped hs ((mem_ended r).mp hr).1]
    exact List.filterMap_some
  rw [hmapped]

structure StepEffect (e e' : LLMEngine Q) : Prop where
  budgeted : e'.modelRunner.batcher.Budgeted
  counter_eq : e'.requestCounter = e.requestCounter
  batcher_eq : e'.modelRunner.batcher.batcher = e.modelRunner.batcher.scheduleStep.2.batcher
  requests_eq : e'.modelRunner.batcher.requests =
    e.modelRunner.step.2.batcher.requests.markAll e.ended .finished
  queue_eq : e'.modelRunner.streamBuffer.queue = []
  cancelled_eq : e'.modelRunner.cancelledRequests = e.modelRunner.cancelledRequests
  active_iff : ∀ id, id ∈ e'.activeRequests ↔ id ∈ e.activeRequests ∧ id ∉ e.ended
  kv_eq : ∀ id, e'.kvCache.lookup id =
    if id ∈ e.ended then none
    else if id ∈ e.emitted then (e.kvCache.lookup id).map (· + 1) else e.kvCache.lookup id

theorem Lockstep.stepEffect (h : e.Lockstep) : StepEffect e e.step.2 := by
  obtain ⟨hfinished, hkv⟩ := h.outputLoop hs
  have hexec := h.executed hs
  have hstep : e.step.2 = { e with
      modelRunner := { e.modelRunner.step.2 with
        streamBuffer := ⟨[]⟩
        batcher := e.modelRunner.step.2.batcher.updateRequestsState e.ended }
      kvCache := e.ended.foldl (fun kv id => kv.unregisterSequence id)
        ((e.emitted.map e.batchOutput).foldl (processOutput e.activeRequests)
          ⟨e.kvCache, [], []⟩).kvCache
      activeRequests := e.ended.foldl (fun m id => m.erase id) e.activeRequests } := by
    simp only [step, TokenStreamBuffer.popAll, h.queue_step hs, hfinished]
  rw [hstep]
  constructor
  · exact (hexec.budgeted h.budgeted.scheduleStep).updateRequestsState e.ended
  · rfl
  · exact hexec.batcher_eq
  · exact h.requests_step hs
  · rfl
  · exact hexec.cancelled_eq
  · exact fun id => mem_eraseAll _ _ _
  · intro id
    rw [lookup_unregisterAll, hkv]
    by_cases hended : id ∈ e.ended <;> by_cases hemitted : id ∈ e.emitted <;>
      simp [hended, hemitted]

theorem Lockstep.idle_request (h : e.Lockstep) {r : RequestRef} (hr : r ∉ e.emitted) :
    e.step.2.modelRunner.batcher.requests r = e.scheduledRunner.batcher.requests r := by
  rw [mem_emitted, not_or] at hr
  have hnot : r ∉ e.ended := fun hm => ((mem_ended r).mp hm).1 |> fun hm =>
    ((mem_emitted r).mp hm).elim hr.1 hr.2
  rw [(h.stepEffect hs).requests_eq, Requests.markAll_of_notMem _ _ _ _ hnot,
    (h.executed hs).requests_eq, advanceAll_of_notMem hr.2, advanceAll_of_notMem hr.1]

/-- A batched request has one token more, and it is open unless it ended. -/
theorem Lockstep.emitted_step (h : e.Lockstep) {r : RequestRef} (hr : r ∈ e.emitted) :
    let req := e.modelRunner.batcher.requests r
    let req' := e.step.2.modelRunner.batcher.requests r
    req'.id = req.id ∧ req'.getTotalLength = req.getTotalLength + 1 ∧
      if r ∈ e.ended then req'.state = .finished
      else req'.state = .running ∧ req'.generatedTokens.length < ofInt 64 req'.maxNewTokens := by
  obtain ⟨sample, hadvance, hfinal⟩ := h.emitted_request hs hr
  intro req req'
  have hscheduled : e.scheduledRunner.batcher.requests r = { req with state := .running } := by
    rw [h.scheduled_requests hs]
    split_ifs with hp
    · rfl
    · have hd : r ∈ e.modelRunner.batcher.scheduleStep.1.decodeRequests := by
        rcases (mem_emitted r).mp hr with hp' | hd
        · exact absurd ((h.mem_batch hs r).1.mp hp').1 hp
        · exact ((h.mem_batch hs r).2.mp hd).1
      rw [← ((h.mem_decode hs r).mp hd).2]
  rw [hscheduled] at hadvance hfinal
  have hreq' : req' = if r ∈ e.ended then
      { advance e.modelRunner.eosTokenId sample { req with state := .running } with
        state := .finished }
      else advance e.modelRunner.eosTokenId sample { req with state := .running } := by
    rw [show req' = _ from congrFun (h.stepEffect hs).requests_eq r, Requests.markAll, hadvance]
  have htotal : (advance e.modelRunner.eosTokenId sample
      { req with state := .running }).getTotalLength = req.getTotalLength + 1 := by
    simp only [Request.getTotalLength, advance, List.length_append, List.length_singleton]
    omega
  split_ifs at hreq' ⊢ with hended
  · rw [hreq']
    exact ⟨rfl, htotal, rfl⟩
  · have hstops : stops e.modelRunner.eosTokenId sample { req with state := .running } = false := by
      rw [← hfinal, Bool.eq_false_iff]
      exact fun hf => hended ((mem_ended r).mpr ⟨hr, endsRequest_of_isFinal hf⟩)
    rw [hreq']
    refine ⟨rfl, htotal, ?_, ?_⟩
    · simp only [advance, hstops, Bool.false_eq_true, if_false]
    · simp only [stops, Bool.or_eq_false_iff, decide_eq_false_iff_not, not_le] at hstops
      simpa only [advance, List.length_append, List.length_singleton] using hstops.2

theorem Lockstep.idle_eq (h : e.Lockstep) {r : RequestRef} (hr : r ∉ e.emitted) :
    e.step.2.modelRunner.batcher.requests r =
      if r ∈ e.modelRunner.batcher.scheduleStep.1.prefillRequests then
        { e.modelRunner.batcher.requests r with state := .running }
      else e.modelRunner.batcher.requests r := by
  rw [h.idle_request hs hr, h.scheduled_requests hs]

theorem Lockstep.step_id (h : e.Lockstep) (r : RequestRef) :
    (e.step.2.modelRunner.batcher.requests r).id = (e.modelRunner.batcher.requests r).id := by
  by_cases hr : r ∈ e.emitted
  · exact (h.emitted_step hs hr).1
  · rw [h.idle_eq hs hr]
    split_ifs <;> rfl

theorem Lockstep.step_length (h : e.Lockstep) (r : RequestRef) :
    (e.step.2.modelRunner.batcher.requests r).getTotalLength =
      (e.modelRunner.batcher.requests r).getTotalLength + if r ∈ e.emitted then 1 else 0 := by
  by_cases hr : r ∈ e.emitted
  · rw [if_pos hr]
    exact (h.emitted_step hs hr).2.1
  · rw [h.idle_eq hs hr, if_neg hr]
    split_ifs <;> rfl

theorem Lockstep.emitted_live (h : e.Lockstep) {r : RequestRef} (hr : r ∈ e.emitted) :
    e.Live r ∧ r ∈ e.step.2.modelRunner.batcher.batcher.runningRequests := by
  rw [(h.stepEffect hs).batcher_eq, hs.running_eq]
  rcases (mem_emitted r).mp hr with hp | hd
  · have hp := ((h.mem_batch hs r).1.mp hp).1
    obtain ⟨hitems, hstate, -⟩ := h.prefill_waiting hs hp
    exact ⟨⟨Or.inl hitems, by rw [hstate]; exact RequestState.noConfusion⟩,
      List.mem_append_right _ hp⟩
  · have hd := ((h.mem_batch hs r).2.mp hd).1
    obtain ⟨hrun, hstate⟩ := (h.mem_decode hs r).mp hd
    exact ⟨⟨Or.inr hrun, by rw [hstate]; exact RequestState.noConfusion⟩,
      List.mem_append_left _ hd⟩

/-- A request that is still queued after the step was not touched by it. -/
theorem Lockstep.queued_same (h : e.Lockstep) {r : RequestRef}
    (hr : r ∈ items e.step.2.modelRunner.batcher.batcher.waitingQueue) :
    r ∈ items e.modelRunner.batcher.batcher.waitingQueue ∧
      ((e.modelRunner.batcher.requests r).state ≠ .finished → r ∉ e.emitted) ∧
      r ∉ e.modelRunner.batcher.scheduleStep.1.prefillRequests := by
  rw [(h.stepEffect hs).batcher_eq] at hr
  have hitems : r ∈ items e.modelRunner.batcher.batcher.waitingQueue := by
    rw [hs.items_eq, Multiset.mem_add]
    exact Or.inr hr
  have hnodup := h.items_nodup
  rw [hs.items_eq, Multiset.nodup_add] at hnodup
  have hp : r ∉ e.modelRunner.batcher.scheduleStep.1.prefillRequests := fun hp =>
    Multiset.disjoint_left.mp hnodup.2.2
      (Multiset.mem_add.mpr (Or.inr (Multiset.mem_coe.mpr hp))) hr
  refine ⟨hitems, fun hstate hm => ?_, hp⟩
  rcases (mem_emitted r).mp hm with hp' | hd
  · exact hp ((h.mem_batch hs r).1.mp hp').1
  · have hwaiting := (h.waiting_new r hitems hstate).1
    rw [((h.mem_decode hs r).mp ((h.mem_batch hs r).2.mp hd).1).2] at hwaiting
    cases hwaiting

/-- The step takes exactly the ended requests out of the live ones. -/
theorem Lockstep.live_step (h : e.Lockstep) (r : RequestRef) :
    e.step.2.Live r ↔ e.Live r ∧ r ∉ e.ended := by
  by_cases hr : r ∈ e.emitted
  · obtain ⟨hlive, hrun⟩ := h.emitted_live hs hr
    have hstate := (h.emitted_step hs hr).2.2
    split_ifs at hstate with hended
    · simp [Live, hstate, hended]
    · have hl : e.step.2.Live r :=
        ⟨Or.inr hrun, by rw [hstate.1]; exact RequestState.noConfusion⟩
      exact ⟨fun _ => ⟨hlive, hended⟩, fun _ => hl⟩
  · have hended : r ∉ e.ended := fun hm => hr ((mem_ended r).mp hm).1
    have hrunning : r ∈ e.step.2.modelRunner.batcher.batcher.runningRequests ↔
        r ∈ e.modelRunner.batcher.scheduleStep.1.decodeRequests ∨
          r ∈ e.modelRunner.batcher.scheduleStep.1.prefillRequests := by
      rw [(h.stepEffect hs).batcher_eq, hs.running_eq, List.mem_append]
    simp only [hended, not_false_eq_true, and_true]
    by_cases hp : r ∈ e.modelRunner.batcher.scheduleStep.1.prefillRequests
    · obtain ⟨hitems, hstate, -⟩ := h.prefill_waiting hs hp
      refine iff_of_true ⟨Or.inr (hrunning.mpr (Or.inr hp)), ?_⟩ ⟨Or.inl hitems, ?_⟩
      · rw [h.idle_eq hs hr, if_pos hp]
        exact RequestState.noConfusion
      · rw [hstate]
        exact RequestState.noConfusion
    · simp only [Live, h.idle_eq hs hr, hrunning, hp, or_false, h.mem_decode hs]
      refine and_congr_left fun hstate => or_congr ?_ ?_
      · rw [(h.stepEffect hs).batcher_eq, hs.items_eq, Multiset.mem_add, Multiset.mem_add]
        have hskip : r ∉ (skipped : Multiset RequestRef) := by
          intro hm
          have hf := hs.skipped_finished r hm
          rw [h.filteredRequests_eq] at hf
          exact hstate hf
        simp only [hskip, Multiset.mem_coe, hp, or_self, false_or]
      · exact ⟨And.left, fun hrun => ⟨hrun, (h.budgeted.live r hrun).resolve_right hstate⟩⟩

theorem Lockstep.kv_step (h : e.Lockstep) (id : ℕ) : e.step.2.kvCache.lookup id =
    if id ∈ e.step.2.activeRequests then
      some (e.step.2.modelRunner.batcher.requests id).getTotalLength else none := by
  simp only [(h.stepEffect hs).kv_eq, (h.stepEffect hs).active_iff, h.step_length hs, h.kv_eq]
  by_cases hended : id ∈ e.ended <;> by_cases hemitted : id ∈ e.emitted <;>
    by_cases hactive : id ∈ e.activeRequests <;> simp [hended, hemitted, hactive]

/-- A request that runs after the step can take another token. -/
theorem Lockstep.open_step (h : e.Lockstep) {r : RequestRef}
    (hr : r ∈ e.step.2.modelRunner.batcher.batcher.runningRequests)
    (hstate : (e.step.2.modelRunner.batcher.requests r).state = .running) :
    (e.step.2.modelRunner.batcher.requests r).generatedTokens.length <
      ofInt 64 (e.step.2.modelRunner.batcher.requests r).maxNewTokens := by
  by_cases hemitted : r ∈ e.emitted
  · have hopen := (h.emitted_step hs hemitted).2.2
    split_ifs at hopen
    · rw [hopen] at hstate
      cases hstate
    · exact hopen.2
  · rw [(h.stepEffect hs).batcher_eq, hs.running_eq] at hr
    rw [h.idle_eq hs hemitted] at hstate ⊢
    by_cases hp : r ∈ e.modelRunner.batcher.scheduleStep.1.prefillRequests
    · obtain ⟨hitems, hwaiting, hgen⟩ := h.prefill_waiting hs hp
      have hcancelled : r ∈ e.modelRunner.cancelledRequests := by
        by_contra hc
        exact hemitted ((mem_emitted r).mpr (Or.inl ((h.mem_batch hs r).1.mpr ⟨hp, hc⟩)))
      rw [if_pos hp]
      simp only [hgen, List.length_nil]
      refine h.stale_pos r hitems ?_ hcancelled
      rw [hwaiting]
      exact RequestState.noConfusion
    · rw [if_neg hp] at hstate ⊢
      have hd := (List.mem_append.mp hr).resolve_right hp
      exact h.running_open r ((h.mem_decode hs r).mp hd).1 hstate

end

theorem Lockstep.step {e : LLMEngine Q} (h : e.Lockstep) : e.step.2.Lockstep := by
  obtain ⟨skipped, hs⟩ := BatcherState.scheduleStep_spec h.budgeted.tokens_le
  have heffect := h.stepEffect hs
  have hold : ∀ r, r ∈ items e.step.2.modelRunner.batcher.batcher.waitingQueue ∨
      r ∈ e.step.2.modelRunner.batcher.batcher.runningRequests →
        r ∈ items e.modelRunner.batcher.batcher.waitingQueue ∨
          r ∈ e.modelRunner.batcher.batcher.runningRequests := by
    rintro r (hr | hr)
    · exact Or.inl (h.queued_same hs hr).1
    · rw [heffect.batcher_eq, hs.running_eq] at hr
      rcases List.mem_append.mp hr with hr | hr
      · exact Or.inr ((h.mem_decode hs r).mp hr).1
      · exact Or.inl (h.prefill_waiting hs hr).1
  have hqueued : ∀ r ∈ items e.step.2.modelRunner.batcher.batcher.waitingQueue,
      (e.step.2.modelRunner.batcher.requests r).state ≠ .finished →
        e.step.2.modelRunner.batcher.requests r = e.modelRunner.batcher.requests r := by
    intro r hr hstate
    obtain ⟨hitems, hemitted, hp⟩ := h.queued_same hs hr
    have hlive := ((h.live_step hs r).mp ⟨Or.inl hr, hstate⟩).1
    rw [h.idle_eq hs (hemitted hlive.2), if_neg hp]
  constructor
  · exact heffect.budgeted
  · intro r hr
    rw [h.step_id hs, heffect.counter_eq]
    exact h.id_eq r (hold r hr)
  · intro id r hr
    rw [heffect.batcher_eq, hs.map_eq] at hr
    rw [heffect.counter_eq]
    split_ifs at hr
    exact h.map_eq id r hr
  · intro r
    rw [h.live_step hs, heffect.active_iff, h.live_iff]
  · exact h.kv_step hs
  · exact heffect.queue_eq
  · rw [heffect.batcher_eq]
    have hnodup := h.items_nodup
    rw [hs.items_eq, Multiset.nodup_add] at hnodup
    exact hnodup.2.1
  · rw [heffect.batcher_eq, hs.running_eq]
    exact (List.perm_append_comm.nodup_iff).mp (h.scheduled_nodup hs)
  · intro r hr hstate
    have hsame := hqueued r hr hstate
    rw [hsame] at hstate ⊢
    exact h.waiting_new r (h.queued_same hs hr).1 hstate
  · exact fun r hr hstate => h.open_step hs hr hstate
  · intro r hr hstate hc
    have hsame := hqueued r hr hstate
    rw [hsame] at hstate ⊢
    exact h.stale_pos r (h.queued_same hs hr).1 hstate (heffect.cancelled_eq ▸ hc)

theorem call_lockstep {e e' : LLMEngine Q} {a : EngineAction} (h : e.Lockstep)
    (ha : e.Admissible a) (he : e.call a = some e') : e'.Lockstep := by
  cases a with
  | addRequest promptTokens samplingParams now =>
    simp only [call] at he
    split_ifs at he with hprompt
    exact Option.some.inj he ▸ h.addRequest hprompt ha
  | step => exact Option.some.inj he ▸ h.step
  | cancelRequest requestId => exact Option.some.inj he ▸ h.cancelRequest requestId

/-- In every state that admissible calls reach, the engine, the KV cache and the batcher hold the
same ids with the same lengths, and the stream is drained. -/
theorem lockstep_of_admissible (maxNumSeqs maxNumBatchedTokens vocabSize : ℕ) (eosTokenId : ℤ)
    (actions : List EngineAction) (e : LLMEngine Q)
    (hc : Transition.AllSteps call Admissible
      (init maxNumSeqs maxNumBatchedTokens vocabSize eosTokenId : LLMEngine Q) actions)
    (he : Transition.exec call (init maxNumSeqs maxNumBatchedTokens vocabSize eosTokenId)
      actions = some e) : e.InLockstep :=
  (Transition.exec_invariant (fun _ _ _ h ha hs => call_lockstep h ha hs)
    (init_lockstep maxNumSeqs maxNumBatchedTokens vocabSize eosTokenId) hc he).inLockstep

omit [PriorityQueue Q RequestRef] in
theorem admissible_of_ne_zero {e : LLMEngine Q} {promptTokens : List ℤ}
    {samplingParams : SamplingParams} {now : ℕ} (hmax : fitsInt32 samplingParams.maxTokens = true)
    (hprio : fitsInt32 samplingParams.priority = true) (h0 : samplingParams.maxTokens ≠ 0) :
    e.Admissible (.addRequest promptTokens samplingParams now) :=
  ⟨hmax, hprio, fun hz => h0 hz.1⟩

/-- One request ends by a custom stop token while the other one goes on. -/
theorem lockstep_of_admissible_stopped : ∃ e : LLMEngine (List RequestRef),
    Transition.exec call (init 4 16 100 2)
      [.addRequest [7, 8] { stopTokenIds := {10} } 0, .addRequest [30] {} 1, .step, .step] =
        some e ∧
      e.InLockstep ∧ e.kvCache.lookup 1 = none ∧ e.kvCache.lookup 2 = some 3 := by
  refine Transition.exec_exists
    (P := fun e => e.kvCache.lookup 1 = none ∧ e.kvCache.lookup 2 = some 3) (by decide +kernel)
    fun e he hkv => ⟨lockstep_of_admissible 4 16 100 2 _ e ?_ he, hkv⟩
  have hadd : ∀ (s : LLMEngine (List RequestRef)) promptTokens stopTokenIds now,
      s.Admissible (.addRequest promptTokens { stopTokenIds := stopTokenIds } now) :=
    fun _ _ _ _ => admissible_of_ne_zero (show fitsInt32 128 = true by decide)
      (show fitsInt32 0 = true by decide) (show (128 : ℤ) ≠ 0 by decide)
  exact ⟨hadd _ _ _ _, fun _ _ => ⟨hadd _ _ _ _, fun _ _ => ⟨trivial, fun _ _ =>
    ⟨trivial, fun _ _ => trivial⟩⟩⟩⟩

/-- A cancellation ahead of time makes the runner skip a request that the batcher then drops, and a
value outside `int32_t` raises after the registration. -/
theorem lockstep_lost :
    (∃ e : LLMEngine (List RequestRef),
      Transition.exec call (init 8 64 100 2)
        [.cancelRequest 1, .addRequest [7] { maxTokens := 0 } 0, .step, .step] = some e ∧
        ¬e.InLockstep) ∧
    ∃ e : LLMEngine (List RequestRef),
      Transition.exec call (init 8 64 100 2)
        [.addRequest [7] { maxTokens := 2 ^ 31 } 0] = some e ∧ ¬e.InLockstep := by
  constructor
  · refine Transition.exec_exists (P := fun e => 1 ∈ e.activeRequests ∧
      e.modelRunner.batcher.batcher.waitingQueue = [] ∧
        e.modelRunner.batcher.batcher.runningRequests = []) (by decide) ?_
    rintro e - ⟨hactive, hitems, hrunning⟩ ⟨-, hlive, -⟩
    obtain ⟨r, ⟨hr, -⟩, -⟩ := (hlive 1).mp hactive
    rw [hitems, hrunning] at hr
    exact hr.elim (Multiset.notMem_zero r) List.not_mem_nil
  · refine Transition.exec_exists (P := fun e => 1 ∈ e.kvCache ∧ 1 ∉ e.activeRequests)
      (by decide) ?_
    rintro e - ⟨hkv, hactive⟩ ⟨hsame, -⟩
    exact hactive ((hsame 1).mpr hkv)

end LLMEngine
end CudaForge.Engine
