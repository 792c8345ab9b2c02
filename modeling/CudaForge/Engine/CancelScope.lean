import CudaForge.Engine.RunnerStep
import CudaForge.Scheduler.QueueEntries

/-! Which requests a cancellation reaches. -/
namespace CudaForge.Engine
open FiniteMap PriorityQueue Scheduler Transition

namespace ModelRunner
variable {Q : Type} [PriorityQueue Q RequestRef] {m : ModelRunner Q}

/-- Only requests whose id was cancelled have two entries, or a finished entry in the queue. -/
structure Scoped (m : ModelRunner Q) : Prop where
  budgeted : m.batcher.Budgeted
  map_id : ∀ id r, m.batcher.batcher.requestMap.lookup id = some r →
    (m.batcher.requests r).id = id
  count_le : ∀ r, (m.batcher.requests r).id ∉ m.cancelledRequests → m.batcher.entries.count r ≤ 1
  waiting_unfinished : ∀ r ∈ items m.batcher.batcher.waitingQueue,
    (m.batcher.requests r).state = .finished → (m.batcher.requests r).id ∈ m.cancelledRequests

/-- A running request with another entry in the queue was cancelled. -/
theorem Scoped.cancelled_of_twice (h : m.Scoped) {r : RequestRef}
    (hrunning : r ∈ m.batcher.batcher.runningRequests)
    (hwaiting : r ∈ items m.batcher.batcher.waitingQueue) :
    (m.batcher.requests r).id ∈ m.cancelledRequests := by
  by_contra hc
  have hle := h.count_le r hc
  have hfirst := Multiset.one_le_count_iff_mem.mpr (Multiset.mem_coe.mpr hrunning)
  have hsecond := Multiset.one_le_count_iff_mem.mpr hwaiting
  rw [BatcherState.entries, Multiset.count_add] at hle
  omega

theorem Scoped.not_mem_entries (h : m.Scoped) {r : RequestRef} (hr : m.batcher.Acceptable r)
    (hc : (m.batcher.requests r).id ∉ m.cancelledRequests) : r ∉ m.batcher.entries := by
  rw [BatcherState.mem_entries]
  rintro (hrunning | hwaiting)
  · exact hr.2 (mem_of_lookup (h.budgeted.mapped r hrunning))
  · by_cases hs : (m.batcher.requests r).state = .finished
    · exact hc (h.waiting_unfinished r hwaiting hs)
    · exact hr.2 (mem_of_lookup (h.budgeted.waiting_mapped r hwaiting hs))

theorem Scoped.addRequest (h : m.Scoped) (request : Option RequestRef) :
    Scoped { m with batcher := (m.batcher.addRequest request).2 } := by
  cases request with
  | none => exact h
  | some r =>
    by_cases hr : m.batcher.Acceptable r
    · have hb := h.budgeted.addRequest (some r)
      rw [BatcherState.addRequest_accepted hr] at hb ⊢
      constructor
      · exact hb
      · intro id q hq
        simp only [lookup_insert_ite] at hq
        rw [Requests.setState_id]
        split_ifs at hq with hid
        · obtain rfl := Option.some.inj hq
          exact hid.symm
        · exact h.map_id id q hq
      · intro q hc
        rw [Requests.setState_id] at hc
        simp only [BatcherState.entries, items_push, Multiset.add_cons]
        by_cases hq : q = r
        · subst hq
          rw [Multiset.count_cons_self]
          have hzero := Multiset.count_eq_zero.mpr (h.not_mem_entries hr hc)
          exact Nat.succ_le_succ hzero.le
        · rw [Multiset.count_cons_of_ne hq]
          exact h.count_le q hc
      · intro q hq hs
        simp only [items_push, Multiset.mem_cons] at hq
        rw [Requests.setState_state] at hs
        rw [Requests.setState_id]
        split_ifs at hs with hqr
        exact h.waiting_unfinished q (hq.resolve_left hqr) hs
    · rw [BatcherState.addRequest_refused hr]
      exact h

theorem Scoped.cancelRequest (h : m.Scoped) (requestId : ℕ) :
    (m.cancelRequest requestId).Scoped := by
  have hb := h.budgeted.cancelRequest requestId
  unfold ModelRunner.cancelRequest
  unfold BatcherState.cancelRequest at hb ⊢
  cases hlookup : m.batcher.batcher.requestMap.lookup requestId with
  | none =>
    simp only [hlookup] at hb ⊢
    constructor
    · exact hb
    · exact h.map_id
    · exact fun r hc => h.count_le r fun hmem => hc (Finset.mem_insert_of_mem hmem)
    · exact fun r hr hs => Finset.mem_insert_of_mem (h.waiting_unfinished r hr hs)
  | some r =>
    simp only [hlookup] at hb ⊢
    constructor
    · exact hb
    · intro id q hq
      simp only [lookup_erase_ite] at hq
      rw [Requests.setState_id]
      split_ifs at hq
      exact h.map_id id q hq
    · intro q hc
      rw [Requests.setState_id] at hc
      refine le_trans ?_ (h.count_le q fun hmem => hc (Finset.mem_insert_of_mem hmem))
      apply Multiset.count_le_of_le
      apply add_le_add_left
      exact Multiset.coe_le.mpr List.filter_sublist.subperm
    · intro q hq hs
      rw [Requests.setState_state] at hs
      rw [Requests.setState_id]
      split_ifs at hs with hqr
      · rw [hqr, h.map_id requestId r hlookup]
        exact Finset.mem_insert_self _ _
      · exact Finset.mem_insert_of_mem (h.waiting_unfinished q hq hs)

/-- Requests change in their output and by being finished, and only running ones. -/
theorem Scoped.of_requests (h : m.Scoped) {m' : ModelRunner Q} (hb : m'.batcher.Budgeted)
    (hbatcher : m'.batcher.batcher = m.batcher.batcher)
    (hcancelled : m'.cancelledRequests = m.cancelledRequests)
    (hid : ∀ r, (m'.batcher.requests r).id = (m.batcher.requests r).id)
    (hstate : ∀ r, (m'.batcher.requests r).state = (m.batcher.requests r).state ∨
      r ∈ m.batcher.batcher.runningRequests) : m'.Scoped := by
  constructor
  · exact hb
  · intro id r hr
    rw [hbatcher] at hr
    rw [hid]
    exact h.map_id id r hr
  · intro r hc
    rw [hid, hcancelled] at hc
    rw [BatcherState.entries, hbatcher]
    exact h.count_le r hc
  · intro r hr hs
    rw [hbatcher] at hr
    rw [hid, hcancelled]
    rcases hstate r with he | hrunning
    · exact h.waiting_unfinished r hr (he ▸ hs)
    · exact h.cancelled_of_twice hrunning hr

theorem Scoped.scheduleStep (h : m.Scoped) :
    Scoped { m with batcher := m.batcher.scheduleStep.2 } := by
  obtain ⟨skipped, hs⟩ := BatcherState.scheduleStep_spec h.budgeted.tokens_le
  have hid : ∀ r, (m.batcher.scheduleStep.2.requests r).id = (m.batcher.requests r).id := by
    simp [hs.requests_eq, BatcherState.filteredRequests]
  have hentries : m.batcher.scheduleStep.2.entries ≤ m.batcher.entries :=
    BatcherState.scheduleStep_entries h.budgeted
  constructor
  · exact h.budgeted.scheduleStep
  · intro id r hr
    rw [hs.map_eq] at hr
    rw [hid]
    split_ifs at hr
    exact h.map_id id r hr
  · intro r hc
    rw [hid] at hc
    exact (Multiset.count_le_of_le r hentries).trans (h.count_le r hc)
  · intro r hr hfinished
    have hr' : r ∈ items m.batcher.batcher.waitingQueue := by
      rw [hs.items_eq, Multiset.mem_add]
      exact Or.inr hr
    rw [hs.requests_eq, Requests.markAll_state, BatcherState.filteredRequests,
      Requests.markAll_state] at hfinished
    rw [hid]
    split_ifs at hfinished with hprefill hdropped
    · exact h.cancelled_of_twice (BatcherState.mem_dropped.mp hdropped).1 hr'
    · exact h.waiting_unfinished r hr' hfinished

/-- The step up to the end of `schedule_step`. -/
def scheduled (m : ModelRunner Q) : ModelRunner Q :=
  { m with batcher := m.batcher.scheduleStep.2 }

def scheduledRequests (m : ModelRunner Q) : List RequestRef :=
  m.batcher.scheduleStep.1.prefillRequests ++ m.batcher.scheduleStep.1.decodeRequests

def batch (m : ModelRunner Q) : BatchStepResult :=
  m.scheduled.filterCancelledRequests m.batcher.scheduleStep.1

theorem mem_batch {r : RequestRef} :
    r ∈ m.batch.prefillRequests ++ m.batch.decodeRequests ↔ r ∈ m.scheduledRequests ∧
      (m.scheduled.batcher.requests r).id ∉ m.cancelledRequests := by
  simp only [batch, scheduledRequests, filterCancelledRequests, isCancelled, List.mem_append,
    List.mem_filter, Bool.not_eq_true', decide_eq_false_iff_not, ← or_and_right]
  rfl

theorem scheduled_id (h : m.batcher.Budgeted) (r : RequestRef) :
    (m.scheduled.batcher.requests r).id = (m.batcher.requests r).id := by
  obtain ⟨skipped, hs⟩ := BatcherState.scheduleStep_spec h.tokens_le
  simp [scheduled, hs.requests_eq, BatcherState.filteredRequests]

theorem scheduledRequests_perm (h : m.batcher.Budgeted) :
    m.scheduledRequests.Perm m.scheduled.batcher.batcher.runningRequests := by
  obtain ⟨skipped, hs⟩ := BatcherState.scheduleStep_spec h.tokens_le
  rw [show m.scheduled.batcher.batcher.runningRequests = _ from hs.running_eq]
  exact List.perm_append_comm

theorem mapped_of_scheduled (h : m.batcher.Budgeted) {r : RequestRef}
    (hr : r ∈ m.scheduledRequests) : m.scheduled.batcher.batcher.requestMap.lookup
      (m.scheduled.batcher.requests r).id = some r :=
  h.scheduleStep.mapped r ((scheduledRequests_perm h).subset hr)

theorem Scoped.batch_nodup (h : m.Scoped) :
    (m.batch.prefillRequests ++ m.batch.decodeRequests).Nodup := by
  have hsub : (m.batch.prefillRequests ++ m.batch.decodeRequests).Sublist m.scheduledRequests :=
    List.filter_sublist.append List.filter_sublist
  rw [List.nodup_iff_count_le_one]
  intro r
  by_cases hr : r ∈ m.batch.prefillRequests ++ m.batch.decodeRequests
  · have hle := h.scheduleStep.count_le r (mem_batch.mp hr).2
    have hperm := (scheduledRequests_perm h.budgeted).count_eq r
    have hrunning : m.scheduled.batcher.batcher.runningRequests.count r ≤
        m.scheduled.batcher.entries.count r := by
      rw [BatcherState.entries, Multiset.count_add, Multiset.coe_count]
      exact Nat.le_add_right _ _
    exact (hsub.count_le r).trans (hperm.le.trans (hrunning.trans hle))
  · rw [List.count_eq_zero_of_not_mem hr]
    exact Nat.zero_le 1

theorem Scoped.executed (h : m.Scoped) :
    Executed m.scheduled m.step.2 m.batch.prefillRequests m.batch.decodeRequests := by
  apply step_spec m rfl rfl h.batch_nodup
  intro r hr
  exact mapped_of_scheduled h.budgeted (mem_batch.mp hr).1

theorem Scoped.step (h : m.Scoped) : m.step.2.Scoped := by
  have hexec := h.executed
  have hscheduled : m.scheduled.Scoped := h.scheduleStep
  refine hscheduled.of_requests (hexec.budgeted hscheduled.budgeted) hexec.batcher_eq
    hexec.cancelled_eq (fun r => ?_) fun r => ?_
  · rw [hexec.requests_eq, advanceAll_id, advanceAll_id]
  · by_cases hr : r ∈ m.batch.prefillRequests ++ m.batch.decodeRequests
    · right
      exact (scheduledRequests_perm h.budgeted).subset (mem_batch.mp hr).1
    · left
      rw [List.mem_append, not_or] at hr
      rw [hexec.requests_eq, advanceAll_of_notMem hr.2, advanceAll_of_notMem hr.1]

/-- A scheduled request gets one output if its id was never cancelled, and none otherwise. -/
theorem Scoped.countP_step (h : m.Scoped) {r : RequestRef} (hr : r ∈ m.scheduledRequests) :
    m.step.2.streamBuffer.queue.countP (fun o => o.requestId = (m.batcher.requests r).id) =
      m.streamBuffer.queue.countP (fun o => o.requestId = (m.batcher.requests r).id) +
        if (m.batcher.requests r).id ∈ m.cancelledRequests then 0 else 1 := by
  have hinj : ∀ q ∈ m.batch.prefillRequests ++ m.batch.decodeRequests,
      (m.scheduled.batcher.requests q).id = (m.batcher.requests r).id ↔ q = r := by
    intro q hq
    rw [← scheduled_id h.budgeted r]
    constructor
    · intro hid
      have hmapped := mapped_of_scheduled h.budgeted (mem_batch.mp hq).1
      rw [hid, mapped_of_scheduled h.budgeted hr] at hmapped
      exact (Option.some.inj hmapped).symm
    · rintro rfl
      rfl
  have hcount : (m.batch.prefillRequests ++ m.batch.decodeRequests).countP (fun q =>
      (m.scheduled.batcher.requests q).id = (m.batcher.requests r).id) =
        if (m.batcher.requests r).id ∈ m.cancelledRequests then 0 else 1 := by
    have hcongr : (m.batch.prefillRequests ++ m.batch.decodeRequests).countP (fun q =>
        (m.scheduled.batcher.requests q).id = (m.batcher.requests r).id) =
          (m.batch.prefillRequests ++ m.batch.decodeRequests).count r :=
      List.countP_congr fun q hq => by simpa using hinj q hq
    rw [hcongr]
    split_ifs with hc
    · apply List.count_eq_zero_of_not_mem
      rw [mem_batch, scheduled_id h.budgeted]
      exact fun hmem => hmem.2 hc
    · apply List.count_eq_one_of_mem h.batch_nodup
      rw [mem_batch, scheduled_id h.budgeted]
      exact ⟨hr, hc⟩
  rw [h.executed.queue_eq, List.append_assoc, List.countP_append, ← hcount, List.countP_append,
    List.countP_append, List.countP_map, List.countP_map]
  rfl

end ModelRunner

/-- A batcher with its runner, and the requests accepted and not cancelled since. -/
structure CancelSystem (Q : Type) where
  runner : ModelRunner Q
  uncancelled : Finset RequestRef

inductive CancelAction where
  | addRequest (request : Option RequestRef)
  | cancelRequest (requestId : ℕ)
  | step
  deriving DecidableEq

namespace CancelSystem
variable {Q : Type} [PriorityQueue Q RequestRef]

def init (maxNumSeqs maxNumBatchedTokens vocabSize : ℕ) (eosTokenId : ℤ) (objects : Requests) :
    CancelSystem Q :=
  ⟨ModelRunner.init (BatcherState.init maxNumSeqs maxNumBatchedTokens objects) vocabSize
    eosTokenId, ∅⟩

def step (s : CancelSystem Q) : CancelAction → CancelSystem Q
  | .addRequest request =>
    let added := s.runner.batcher.addRequest request
    { runner := { s.runner with batcher := added.2 }
      uncancelled :=
        match request with
        | some r => if added.1 then insert r s.uncancelled else s.uncancelled
        | none => s.uncancelled }
  | .cancelRequest requestId =>
    { runner := s.runner.cancelRequest requestId
      uncancelled := s.uncancelled.filter fun r => (s.runner.batcher.requests r).id ≠ requestId }
  | .step => { s with runner := s.runner.step.2 }

theorem run_scoped {s : CancelSystem Q} (h : s.runner.Scoped) (actions : List CancelAction) :
    (actions.foldl step s).runner.Scoped := by
  induction actions generalizing s with
  | nil => exact h
  | cons a rest ih =>
    apply ih
    cases a with
    | addRequest request => exact h.addRequest request
    | cancelRequest requestId => exact h.cancelRequest requestId
    | step => exact h.step

theorem init_scoped (maxNumSeqs maxNumBatchedTokens vocabSize : ℕ) (eosTokenId : ℤ)
    {objects : Requests} (hobjects : ∀ r, (objects r).state = .waiting) :
    (init maxNumSeqs maxNumBatchedTokens vocabSize eosTokenId objects :
      CancelSystem Q).runner.Scoped := by
  constructor
  · exact BatcherState.init_budgeted _ _ hobjects
  all_goals simp [init, ModelRunner.init, BatcherState.init, BatcherState.entries, items_empty]

/-- A request that was not cancelled since its acceptance gets exactly one output in a step that
schedules it if and only if its id was not cancelled before. -/
theorem one_output_iff (maxNumSeqs maxNumBatchedTokens vocabSize : ℕ) (eosTokenId : ℤ)
    (objects : Requests) (hobjects : ∀ r, (objects r).state = .waiting)
    (actions : List CancelAction) :
    let s : CancelSystem Q := actions.foldl step
      (init maxNumSeqs maxNumBatchedTokens vocabSize eosTokenId objects)
    ∀ r ∈ s.uncancelled, r ∈ s.runner.scheduledRequests →
      let id := (s.runner.batcher.requests r).id
      (s.runner.step.2.streamBuffer.queue.countP (fun o => o.requestId = id) =
          s.runner.streamBuffer.queue.countP (fun o => o.requestId = id) + 1 ↔
        s.runner.isCancelled id = false) := by
  intro s r _ hr id
  have h : s.runner.Scoped := run_scoped (init_scoped _ _ _ _ hobjects) actions
  rw [h.countP_step hr, ModelRunner.isCancelled, decide_eq_false_iff_not]
  split_ifs with hc
  · simp [id, hc]
  · simp [id, hc]

def numberedRequests : Requests := fun r => Request.new r [1] 4 0 r

/-- Request 2 is cancelled, request 1 goes on. -/
theorem one_output_iff_other :
    let s : CancelSystem (List RequestRef) := [.addRequest (some 1), .addRequest (some 2), .step,
      .cancelRequest 2].foldl step (init 4 8 100 99 numberedRequests)
    let id := (s.runner.batcher.requests 1).id
    s.runner.step.2.streamBuffer.queue.countP (fun o => o.requestId = id) =
      s.runner.streamBuffer.queue.countP (fun o => o.requestId = id) + 1 ↔
        s.runner.isCancelled id = false :=
  one_output_iff 4 8 100 99 numberedRequests (fun _ => rfl)
    [.addRequest (some 1), .addRequest (some 2), .step, .cancelRequest 2] 1
    (by decide +kernel) (by decide +kernel)

/-- An id that was cancelled before its request existed: the request is accepted and scheduled but
gets no output. -/
theorem no_output_reused :
    let s : CancelSystem (List RequestRef) := [.cancelRequest 1, .addRequest (some 1)].foldl step
      (init 4 8 100 99 numberedRequests)
    1 ∈ s.uncancelled ∧ 1 ∈ s.runner.scheduledRequests ∧
      s.runner.step.2.streamBuffer.queue = s.runner.streamBuffer.queue ∧
      1 ∈ s.runner.step.2.scheduledRequests := by
  decide +kernel

end CancelSystem
end CudaForge.Engine
