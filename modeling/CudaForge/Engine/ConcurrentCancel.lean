import CudaForge.Engine.CancelScope
import CudaForge.Scheduler.RetiredIds

/-!
Cancellation while another thread steps. The step and the cancel call are cut where they leave a
mutex, and other calls run in between.
-/
namespace CudaForge.Engine
open FiniteMap PriorityQueue Scheduler Transition

inductive StepPhase where
  | idle
  | scheduled (result : BatchStepResult)
  | filtered (result : BatchStepResult)
  | executed (generatedOutputs : List StreamOutput) (finishedIds : List ℕ)
  | pushed (finishedIds : List ℕ)

/-- The runner, the cancel calls between their two sections, the accepted requests and all outputs
pushed so far. -/
structure ConcurrentRunner (Q : Type) where
  runner : ModelRunner Q
  phase : StepPhase
  cancelling : List ℕ
  submitted : List RequestRef
  pushed : List StreamOutput

/-- The sections: five of the step, one call each of `add_request` and `pop_all`, and two of
`cancel_request`. -/
inductive SectionAction where
  | scheduleStep
  | filterCancelled
  | execute
  | pushBatch
  | updateRequestsState
  | addRequest (r : RequestRef)
  | popAll
  | insertCancelled (requestId : ℕ)
  | cancelInBatcher (requestId : ℕ)
  deriving DecidableEq

namespace ModelRunner
variable {Q : Type}

structure ExecutedIds (acc acc' : Execution) (ids : List ℕ) : Prop where
  id_eq : ∀ r, (acc'.requests r).id = (acc.requests r).id
  prompt_eq : ∀ r, (acc'.requests r).promptTokens = (acc.requests r).promptTokens
  state_eq : ∀ r, (acc'.requests r).state = (acc.requests r).state ∨
    (acc'.requests r).state = .finished
  outputs_eq : acc'.generatedOutputs.map (fun o => o.requestId) =
    acc.generatedOutputs.map (fun o => o.requestId) ++ ids

theorem ExecutedIds.trans {acc acc' acc'' : Execution} {ids ids' : List ℕ}
    (h : ExecutedIds acc acc' ids) (h' : ExecutedIds acc' acc'' ids') :
    ExecutedIds acc acc'' (ids ++ ids') where
  id_eq r := (h'.id_eq r).trans (h.id_eq r)
  prompt_eq r := (h'.prompt_eq r).trans (h.prompt_eq r)
  state_eq r := by
    rcases h'.state_eq r with he | hf
    · rw [he]
      exact h.state_eq r
    · exact Or.inr hf
  outputs_eq := by rw [h'.outputs_eq, h.outputs_eq, List.append_assoc]

theorem executeRequest_ids (eosTokenId : ℤ) (sample : Request → ℤ) (acc : Execution)
    (r : RequestRef) :
    ExecutedIds acc (executeRequest eosTokenId sample acc r) [(acc.requests r).id] := by
  rw [executeRequest_eq]
  constructor
  · exact fun q => advanceAll_id _ _ _ _ q
  · intro q
    simp only [advanceAll, advance]
    split_ifs <;> rfl
  · intro q
    simp only [advanceAll, advance]
    split_ifs
    · exact Or.inr rfl
    · exact Or.inl rfl
    · exact Or.inl rfl
  · simp [output]

theorem executeFold_ids (eosTokenId : ℤ) (sample : Request → ℤ) (l : List RequestRef)
    (acc : Execution) :
    ExecutedIds acc (l.foldl (executeRequest eosTokenId sample) acc)
      (l.map fun r => (acc.requests r).id) := by
  induction l generalizing acc with
  | nil => constructor <;> simp
  | cons r l ih =>
    have hfirst := executeRequest_ids eosTokenId sample acc r
    have hrest := ih (executeRequest eosTokenId sample acc r)
    simp only [hfirst.id_eq] at hrest
    exact hfirst.trans hrest

theorem executeBatch_ids (m : ModelRunner Q) (result : BatchStepResult) :
    ExecutedIds ⟨m.batcher.requests, [], []⟩ (m.executeBatch result)
      ((result.prefillRequests ++ result.decodeRequests).map fun r =>
        (m.batcher.requests r).id) := by
  have hprefill := executeFold_ids m.eosTokenId (prefillToken m.vocabSize) result.prefillRequests
    ⟨m.batcher.requests, [], []⟩
  have hdecode := executeFold_ids m.eosTokenId (decodeToken m.vocabSize) result.decodeRequests
    (result.prefillRequests.foldl (executeRequest m.eosTokenId (prefillToken m.vocabSize))
      ⟨m.batcher.requests, [], []⟩)
  simp only [hprefill.id_eq] at hdecode
  rw [List.map_append]
  exact hprefill.trans hdecode

end ModelRunner

namespace ConcurrentRunner
variable {Q : Type} [PriorityQueue Q RequestRef]

def init (maxNumSeqs maxNumBatchedTokens vocabSize : ℕ) (eosTokenId : ℤ) (objects : Requests) :
    ConcurrentRunner Q :=
  ⟨ModelRunner.init (BatcherState.init maxNumSeqs maxNumBatchedTokens objects) vocabSize
    eosTokenId, .idle, [], [], []⟩

def Fresh (s : ConcurrentRunner Q) (r : RequestRef) : Prop :=
  ∀ q ∈ s.submitted, (s.runner.batcher.requests q).id ≠ (s.runner.batcher.requests r).id

instance (s : ConcurrentRunner Q) (r : RequestRef) : Decidable (s.Fresh r) :=
  inferInstanceAs (Decidable (∀ q ∈ s.submitted, _))

/-- One section; `none` when no thread is in front of it or the id is not fresh. -/
def step (s : ConcurrentRunner Q) : SectionAction → Option (ConcurrentRunner Q)
  | .scheduleStep =>
    match s.phase with
    | .idle =>
      some { s with
        runner := { s.runner with batcher := s.runner.batcher.scheduleStep.2 }
        phase := .scheduled s.runner.batcher.scheduleStep.1 }
    | _ => none
  | .filterCancelled =>
    match s.phase with
    | .scheduled result =>
      let result := s.runner.filterCancelledRequests result
      if result.prefillRequests.length + result.decodeRequests.length = 0 then
        some { s with phase := .idle }
      else some { s with phase := .filtered result }
    | _ => none
  | .execute =>
    match s.phase with
    | .filtered result =>
      let execution := s.runner.executeBatch result
      some { s with
        runner :=
          { s.runner with batcher := { s.runner.batcher with requests := execution.requests } }
        phase := .executed execution.generatedOutputs execution.finishedIds }
    | _ => none
  | .pushBatch =>
    match s.phase with
    | .executed generatedOutputs finishedIds =>
      some { s with
        runner :=
          { s.runner with streamBuffer := s.runner.streamBuffer.pushBatch generatedOutputs }
        phase := .pushed finishedIds
        pushed := s.pushed ++ generatedOutputs }
    | _ => none
  | .updateRequestsState =>
    match s.phase with
    | .pushed finishedIds =>
      some { s with
        runner :=
          { s.runner with batcher := s.runner.batcher.updateRequestsState finishedIds }
        phase := .idle }
    | _ => none
  | .addRequest r =>
    if s.Fresh r then
      let added := s.runner.batcher.addRequest (some r)
      some { s with
        runner := { s.runner with batcher := added.2 }
        submitted := if added.1 then s.submitted ++ [r] else s.submitted }
    else none
  | .popAll =>
    some { s with runner := { s.runner with streamBuffer := s.runner.streamBuffer.popAll.2 } }
  | .insertCancelled requestId =>
    some { s with
      runner :=
        { s.runner with cancelledRequests := insert requestId s.runner.cancelledRequests }
      cancelling := requestId :: s.cancelling }
  | .cancelInBatcher requestId =>
    if requestId ∈ s.cancelling then
      some { s with
        runner := { s.runner with batcher := (s.runner.batcher.cancelRequest requestId).2 }
        cancelling := s.cancelling.erase requestId }
    else none

/-- Without another thread the sections of a step are the runner's step. -/
theorem sections_step (s : ConcurrentRunner Q) (h : s.phase = .idle) :
    ∃ sections t, exec step s sections = some t ∧ t.runner = s.runner.step.2 ∧
      t.phase = .idle := by
  have hexec : ∃ sections, (exec step s sections).map (fun t => (t.runner, t.phase)) =
      some (s.runner.step.2, .idle) := by
    by_cases htotal : s.runner.batch.prefillRequests.length +
        s.runner.batch.decodeRequests.length = 0
    · refine ⟨[.scheduleStep, .filterCancelled], ?_⟩
      simp only [ModelRunner.batch, ModelRunner.scheduled] at htotal
      simp only [exec, step, h, Option.bind_some, htotal, if_true, Option.map_some,
        ModelRunner.step]
    · refine ⟨[.scheduleStep, .filterCancelled, .execute, .pushBatch, .updateRequestsState], ?_⟩
      simp only [ModelRunner.batch, ModelRunner.scheduled] at htotal
      simp only [exec, step, h, Option.bind_some, htotal, if_false, Option.map_some,
        ModelRunner.step]
  obtain ⟨sections, hexec⟩ := hexec
  obtain ⟨t, ht, heq⟩ := Option.map_eq_some_iff.mp hexec
  obtain ⟨hrunner, hphase⟩ := Prod.mk.inj heq
  exact ⟨sections, t, ht, hrunner, hphase⟩

/-- The ids that the step in progress has passed the filter with and not yet pushed. -/
def inFlightIds (s : ConcurrentRunner Q) : List ℕ :=
  match s.phase with
  | .filtered result =>
    (result.prefillRequests ++ result.decodeRequests).map fun r => (s.runner.batcher.requests r).id
  | .executed generatedOutputs _ => generatedOutputs.map fun o => o.requestId
  | _ => []

def carriedIds (s : ConcurrentRunner Q) : List ℕ :=
  match s.phase with
  | .scheduled result =>
    (result.prefillRequests ++ result.decodeRequests).map fun r => (s.runner.batcher.requests r).id
  | _ => s.inFlightIds

def pushedCount (s : ConcurrentRunner Q) (requestId : ℕ) : ℕ :=
  (s.pushed.map fun o => o.requestId).count requestId

section
variable (objects : Requests)

/-- Accepted requests have different ids, and no request has two entries or two places in the
batch. -/
structure Consistent (s : ConcurrentRunner Q) : Prop where
  budgeted : s.runner.batcher.Budgeted
  id_eq : ∀ r, (s.runner.batcher.requests r).id = (objects r).id
  entries_submitted : ∀ r ∈ s.runner.batcher.entries, r ∈ s.submitted
  entries_nodup : s.runner.batcher.entries.Nodup
  id_inj : ∀ r ∈ s.submitted, ∀ q ∈ s.submitted, (objects r).id = (objects q).id → r = q
  cancelling_cancelled : ∀ id ∈ s.cancelling, id ∈ s.runner.cancelledRequests
  carried_nodup : s.carriedIds.Nodup

end

variable {objects : Requests} {s t : ConcurrentRunner Q}

omit [PriorityQueue Q RequestRef] in
theorem inFlightIds_congr (hphase : t.phase = s.phase)
    (hid : ∀ r, (t.runner.batcher.requests r).id = (s.runner.batcher.requests r).id) :
    t.inFlightIds = s.inFlightIds := by
  simp only [inFlightIds, hphase, hid]

omit [PriorityQueue Q RequestRef] in
theorem counts_congr (hphase : t.phase = s.phase) (hpushed : t.pushed = s.pushed)
    (hid : ∀ r, (t.runner.batcher.requests r).id = (s.runner.batcher.requests r).id)
    (requestId : ℕ) : t.pushedCount requestId + t.inFlightIds.count requestId =
      s.pushedCount requestId + s.inFlightIds.count requestId := by
  rw [pushedCount, hpushed, inFlightIds_congr hphase hid, pushedCount]

omit [PriorityQueue Q RequestRef] in
theorem carriedIds_congr (hphase : t.phase = s.phase)
    (hid : ∀ r, (t.runner.batcher.requests r).id = (s.runner.batcher.requests r).id) :
    t.carriedIds = s.carriedIds := by
  simp only [carriedIds, inFlightIds_congr hphase hid, hphase, hid]

theorem Consistent.scheduleStep (h : s.Consistent objects) :
    Consistent objects { s with
      runner := { s.runner with batcher := s.runner.batcher.scheduleStep.2 }
      phase := .scheduled s.runner.batcher.scheduleStep.1 } := by
  obtain ⟨skipped, hs⟩ := BatcherState.scheduleStep_spec h.budgeted.tokens_le
  have hid : ∀ r, (s.runner.batcher.scheduleStep.2.requests r).id = (objects r).id := by
    simp [hs.requests_eq, BatcherState.filteredRequests, h.id_eq]
  have hentries : s.runner.batcher.scheduleStep.2.entries ≤ s.runner.batcher.entries :=
    BatcherState.scheduleStep_entries h.budgeted
  have hnodup := Multiset.nodup_of_le hentries h.entries_nodup
  have hsub : ∀ r ∈ s.runner.batcher.scheduleStep.2.entries, r ∈ s.submitted :=
    fun r hr => h.entries_submitted r (Multiset.mem_of_le hentries hr)
  refine ⟨h.budgeted.scheduleStep, hid, hsub, hnodup, h.id_inj, h.cancelling_cancelled, ?_⟩
  have hperm := ModelRunner.scheduledRequests_perm (m := s.runner) h.budgeted
  have hbatch : s.runner.scheduledRequests.Nodup := by
    rw [hperm.nodup_iff, ← Multiset.coe_nodup]
    exact Multiset.nodup_of_le (Multiset.le_add_right _ _) hnodup
  have hmem : ∀ r ∈ s.runner.scheduledRequests, r ∈ s.submitted := fun r hr =>
    hsub r (BatcherState.mem_entries.mpr (Or.inl (hperm.subset hr)))
  simp only [carriedIds, hid]
  exact hbatch.map_on fun r hr q hq he => h.id_inj r (hmem r hr) q (hmem q hq) he

/-- What the sections without the queue do: requests are only finished or get output, cancelled
ids stay cancelled, and no output of a cancelled id joins those in flight. -/
structure Quiet (s t : ConcurrentRunner Q) : Prop where
  batcher_eq : t.runner.batcher.batcher = s.runner.batcher.batcher
  id_eq : ∀ r, (t.runner.batcher.requests r).id = (s.runner.batcher.requests r).id
  prompt_eq : ∀ r, (t.runner.batcher.requests r).promptTokens =
    (s.runner.batcher.requests r).promptTokens
  state_eq : ∀ r, (t.runner.batcher.requests r).state = (s.runner.batcher.requests r).state ∨
    (t.runner.batcher.requests r).state = .finished
  submitted_eq : t.submitted = s.submitted
  cancelling_subset : ∀ id ∈ t.cancelling, id ∈ s.cancelling ∨ id ∈ t.runner.cancelledRequests
  cancelled_subset : s.runner.cancelledRequests ⊆ t.runner.cancelledRequests
  carried_sublist : t.carriedIds.Sublist s.carriedIds
  pushed_le : ∀ id ∈ s.runner.cancelledRequests, t.pushedCount id + t.inFlightIds.count id ≤
    s.pushedCount id + s.inFlightIds.count id

theorem filterCancelled_quiet (h : s.step .filterCancelled = some t) : s.Quiet t := by
  cases hphase : s.phase with
  | scheduled result =>
    have hinFlight : s.inFlightIds = [] := by simp only [inFlightIds, hphase]
    have hcarried : s.carriedIds = (result.prefillRequests ++ result.decodeRequests).map fun r =>
        (s.runner.batcher.requests r).id := by simp only [carriedIds, hphase]
    simp only [step, hphase] at h
    split_ifs at h
    · obtain rfl := Option.some.inj h
      refine ⟨rfl, fun _ => rfl, fun _ => rfl, fun _ => Or.inl rfl, rfl, fun _ => Or.inl,
        subset_rfl, List.nil_sublist _, fun id _ => ?_⟩
      simp [inFlightIds, pushedCount]
    · obtain rfl := Option.some.inj h
      refine ⟨rfl, fun _ => rfl, fun _ => rfl, fun _ => Or.inl rfl, rfl, fun _ => Or.inl,
        subset_rfl, ?_, fun id hid => ?_⟩
      · rw [hcarried]
        exact (List.filter_sublist.append List.filter_sublist).map _
      · rw [hinFlight, List.count_nil, List.count_eq_zero_of_not_mem]
        · rfl
        · simp only [inFlightIds, List.mem_map]
          rintro ⟨r, hr, rfl⟩
          simp only [ModelRunner.filterCancelledRequests, ModelRunner.isCancelled, List.mem_append,
            List.mem_filter, hid, decide_true, Bool.not_true, Bool.false_eq_true, and_false,
            or_self] at hr
  | _ => simp only [step, hphase, reduceCtorEq] at h

theorem execute_quiet (h : s.step .execute = some t) : s.Quiet t := by
  cases hphase : s.phase with
  | filtered result =>
    have hids := s.runner.executeBatch_ids result
    simp only [step, hphase] at h
    obtain rfl := Option.some.inj h
    refine ⟨rfl, hids.id_eq, hids.prompt_eq, hids.state_eq, rfl, fun _ => Or.inl, subset_rfl, ?_,
      fun id _ => ?_⟩
    · simp only [carriedIds, inFlightIds, hphase, hids.outputs_eq]
      exact List.Sublist.refl _
    · simp only [inFlightIds, hphase, hids.outputs_eq]
      exact le_rfl
  | _ => simp only [step, hphase, reduceCtorEq] at h

theorem pushBatch_quiet (h : s.step .pushBatch = some t) : s.Quiet t := by
  cases hphase : s.phase with
  | executed generatedOutputs finishedIds =>
    simp only [step, hphase] at h
    obtain rfl := Option.some.inj h
    refine ⟨rfl, fun _ => rfl, fun _ => rfl, fun _ => Or.inl rfl, rfl, fun _ => Or.inl,
      subset_rfl, List.nil_sublist _, fun id _ => ?_⟩
    simp only [pushedCount, inFlightIds, hphase, List.map_append, List.count_append,
      List.count_nil]
    exact le_rfl
  | _ => simp only [step, hphase, reduceCtorEq] at h

theorem updateRequestsState_quiet (h : s.step .updateRequestsState = some t) : s.Quiet t := by
  cases hphase : s.phase with
  | pushed finishedIds =>
    simp only [step, hphase] at h
    obtain rfl := Option.some.inj h
    refine ⟨rfl, fun r => ?_, fun r => ?_, fun r => ?_, rfl, fun _ => Or.inl, subset_rfl,
      List.nil_sublist _, fun id _ => ?_⟩
    · rw [BatcherState.updateRequestsState_eq, Requests.markAll_id]
    · rw [BatcherState.updateRequestsState_eq, Requests.markAll_promptTokens]
    · rw [BatcherState.updateRequestsState_eq, Requests.markAll_state]
      split_ifs
      · exact Or.inr rfl
      · exact Or.inl rfl
    · simp [inFlightIds, pushedCount]
  | _ => simp only [step, hphase, reduceCtorEq] at h

theorem popAll_quiet (h : s.step .popAll = some t) : s.Quiet t := by
  obtain rfl := Option.some.inj h
  exact ⟨rfl, fun _ => rfl, fun _ => rfl, fun _ => Or.inl rfl, rfl, fun _ => Or.inl, subset_rfl,
    List.Sublist.refl _, fun _ _ => le_rfl⟩

theorem insertCancelled_quiet {requestId : ℕ} (h : s.step (.insertCancelled requestId) = some t) :
    s.Quiet t := by
  obtain rfl := Option.some.inj h
  refine ⟨rfl, fun _ => rfl, fun _ => rfl, fun _ => Or.inl rfl, rfl, fun id hid => ?_,
    Finset.subset_insert _ _, List.Sublist.refl _, fun _ _ => le_rfl⟩
  rcases List.mem_cons.mp hid with rfl | hid
  · exact Or.inr (Finset.mem_insert_self _ _)
  · exact Or.inl hid

/-- Only the schedule, an acceptance and the batcher's part of a cancellation are not quiet. -/
theorem step_cases {a : SectionAction} (h : s.step a = some t) :
    s.Quiet t ∨
    (a = .scheduleStep ∧ t = { s with
      runner := { s.runner with batcher := s.runner.batcher.scheduleStep.2 }
      phase := .scheduled s.runner.batcher.scheduleStep.1 }) ∨
    (∃ r, a = .addRequest r) ∨ ∃ requestId, a = .cancelInBatcher requestId := by
  cases a with
  | scheduleStep =>
    cases hphase : s.phase with
    | idle =>
      simp only [step, hphase] at h
      exact Or.inr (Or.inl ⟨rfl, (Option.some.inj h).symm⟩)
    | _ => simp only [step, hphase, reduceCtorEq] at h
  | filterCancelled => exact Or.inl (filterCancelled_quiet h)
  | execute => exact Or.inl (execute_quiet h)
  | pushBatch => exact Or.inl (pushBatch_quiet h)
  | updateRequestsState => exact Or.inl (updateRequestsState_quiet h)
  | popAll => exact Or.inl (popAll_quiet h)
  | insertCancelled requestId => exact Or.inl (insertCancelled_quiet h)
  | addRequest r => exact Or.inr (Or.inr (Or.inl ⟨r, rfl⟩))
  | cancelInBatcher requestId => exact Or.inr (Or.inr (Or.inr ⟨requestId, rfl⟩))

theorem Consistent.quiet (h : s.Consistent objects) (hq : s.Quiet t) : t.Consistent objects := by
  have hentries : t.runner.batcher.entries = s.runner.batcher.entries := by
    rw [BatcherState.entries, BatcherState.entries, hq.batcher_eq]
  constructor
  · have heq : t.runner.batcher = ⟨s.runner.batcher.batcher, t.runner.batcher.requests⟩ := by
      rw [← hq.batcher_eq]
    rw [heq]
    exact h.budgeted.of_requests hq.id_eq hq.prompt_eq hq.state_eq
  · exact fun r => (hq.id_eq r).trans (h.id_eq r)
  · rw [hentries, hq.submitted_eq]
    exact h.entries_submitted
  · rw [hentries]
    exact h.entries_nodup
  · rw [hq.submitted_eq]
    exact h.id_inj
  · intro id hid
    rcases hq.cancelling_subset id hid with hold | hnew
    · exact hq.cancelled_subset (h.cancelling_cancelled id hold)
    · exact hnew
  · exact h.carried_nodup.sublist hq.carried_sublist

theorem Consistent.not_submitted (h : s.Consistent objects) {r : RequestRef} (hr : s.Fresh r) :
    ∀ q ∈ s.submitted, (objects q).id ≠ (objects r).id := by
  intro q hq
  rw [← h.id_eq q, ← h.id_eq r]
  exact hr q hq

/-- What `add_request` of a fresh id does. -/
theorem step_addRequest {r : RequestRef} (ht : s.step (.addRequest r) = some t) :
    s.Fresh r ∧ t = { s with
      runner := { s.runner with batcher := (s.runner.batcher.addRequest (some r)).2 }
      submitted :=
        if (s.runner.batcher.addRequest (some r)).1 then s.submitted ++ [r] else s.submitted } := by
  by_cases hfresh : s.Fresh r
  · rw [step, if_pos hfresh] at ht
    exact ⟨hfresh, (Option.some.inj ht).symm⟩
  · rw [step, if_neg hfresh] at ht
    contradiction

theorem Consistent.addRequest (h : s.Consistent objects) {r : RequestRef}
    (ht : s.step (.addRequest r) = some t) : t.Consistent objects := by
  obtain ⟨hfresh, rfl⟩ := step_addRequest ht
  by_cases hr : s.runner.batcher.Acceptable r
  · have hnew := h.not_submitted hfresh
    have hnot : r ∉ s.submitted := fun hmem => hnew r hmem rfl
    have hb := h.budgeted.addRequest (some r)
    rw [BatcherState.addRequest_accepted hr] at hb ⊢
    have hentries : BatcherState.entries ({
        batcher :=
          { s.runner.batcher.batcher with
            requestMap := s.runner.batcher.batcher.requestMap.insert
              (s.runner.batcher.requests r).id r
            waitingQueue := push (s.runner.batcher.requests.setState r .waiting).comparator r
              s.runner.batcher.batcher.waitingQueue }
        requests := s.runner.batcher.requests.setState r .waiting } : BatcherState Q) =
          r ::ₘ s.runner.batcher.entries := by
      simp only [BatcherState.entries, items_push, Multiset.add_cons]
    refine ⟨hb, fun q => ?_, fun q hq => ?_, ?_, fun q hq q' hq' he => ?_,
      h.cancelling_cancelled, ?_⟩
    · simp only [Requests.setState_id, h.id_eq]
    · simp only [hentries, Multiset.mem_cons] at hq
      rw [if_pos rfl, List.mem_append, List.mem_singleton]
      exact hq.symm.imp_left (h.entries_submitted q)
    · simp only [hentries, Multiset.nodup_cons]
      exact ⟨fun hmem => hnot (h.entries_submitted r hmem), h.entries_nodup⟩
    · rw [if_pos rfl, List.mem_append, List.mem_singleton] at hq hq'
      rcases hq with hq | rfl <;> rcases hq' with hq' | rfl
      · exact h.id_inj q hq q' hq' he
      · exact absurd he (hnew q hq)
      · exact absurd he.symm (hnew q' hq')
      · rfl
    · convert h.carried_nodup using 1
      exact carriedIds_congr rfl fun q => Requests.setState_id _ _ _ _
  · rw [BatcherState.addRequest_refused hr]
    exact h

theorem Consistent.cancelInBatcher (h : s.Consistent objects) {requestId : ℕ}
    (ht : s.step (.cancelInBatcher requestId) = some t) : t.Consistent objects := by
  simp only [step] at ht
  split_ifs at ht
  obtain rfl := Option.some.inj ht
  have hentries : (s.runner.batcher.cancelRequest requestId).2.entries ≤
      s.runner.batcher.entries :=
    BatcherState.cancelRequest_entries requestId
  have hid : ∀ r, ((s.runner.batcher.cancelRequest requestId).2.requests r).id =
      (s.runner.batcher.requests r).id := by
    intro r
    unfold BatcherState.cancelRequest
    split
    · rfl
    · exact Requests.setState_id _ _ _ _
  refine ⟨h.budgeted.cancelRequest requestId, fun r => (hid r).trans (h.id_eq r), fun r hr => ?_,
    Multiset.nodup_of_le hentries h.entries_nodup, h.id_inj, fun id hmem => ?_, ?_⟩
  · exact h.entries_submitted r (Multiset.mem_of_le hentries hr)
  · exact h.cancelling_cancelled id (List.mem_of_mem_erase hmem)
  · convert h.carried_nodup using 1
    exact carriedIds_congr rfl hid

theorem Consistent.step (h : s.Consistent objects) {a : SectionAction} (ht : s.step a = some t) :
    t.Consistent objects := by
  rcases step_cases ht with hquiet | ⟨rfl, rfl⟩ | ⟨r, rfl⟩ | ⟨requestId, rfl⟩
  · exact h.quiet hquiet
  · exact h.scheduleStep
  · exact h.addRequest ht
  · exact h.cancelInBatcher ht

theorem init_consistent (maxNumSeqs maxNumBatchedTokens vocabSize : ℕ) (eosTokenId : ℤ)
    (hobjects : ∀ r, (objects r).state = .waiting) :
    (init maxNumSeqs maxNumBatchedTokens vocabSize eosTokenId objects :
      ConcurrentRunner Q).Consistent objects := by
  constructor
  · exact BatcherState.init_budgeted _ _ hobjects
  all_goals simp [init, ModelRunner.init, BatcherState.init, BatcherState.entries, items_empty,
    carriedIds, inFlightIds]

/-- No accepted request of this id is running or will be admitted. -/
structure Gone (objects : Requests) (requestId : ℕ) (s : ConcurrentRunner Q) : Prop where
  used : ∃ r ∈ s.submitted, (objects r).id = requestId
  not_running : ∀ r ∈ s.runner.batcher.batcher.runningRequests, (objects r).id ≠ requestId
  waiting_finished : ∀ r ∈ items s.runner.batcher.batcher.waitingQueue,
    (objects r).id = requestId → (s.runner.batcher.requests r).state = .finished

variable {requestId : ℕ}

theorem Consistent.gone_iff (h : s.Consistent objects) : s.Gone objects requestId ↔
    (∃ r ∈ s.submitted, (objects r).id = requestId) ∧ s.runner.batcher.Retired requestId := by
  constructor
  · rintro ⟨hused, hrunning, hwaiting⟩
    refine ⟨hused, fun r hr => ?_, fun r hr hid => ?_⟩
    · rw [h.id_eq]
      exact hrunning r hr
    · rw [h.id_eq] at hid
      exact hwaiting r hr hid
  · rintro ⟨hused, hrunning, hwaiting⟩
    refine ⟨hused, fun r hr => ?_, fun r hr hid => ?_⟩
    · rw [← h.id_eq]
      exact hrunning r hr
    · rw [← h.id_eq] at hid
      exact hwaiting r hr hid

/-- The second section of the cancel call takes every entry of the id out of play. -/
theorem Consistent.gone (h : s.Consistent objects)
    (hused : ∃ r ∈ s.submitted, (objects r).id = requestId)
    (ht : s.step (.cancelInBatcher requestId) = some t) : t.Gone objects requestId := by
  rw [(h.step ht).gone_iff]
  simp only [ConcurrentRunner.step] at ht
  split_ifs at ht
  obtain rfl := Option.some.inj ht
  exact ⟨hused, h.budgeted.cancelRequest_retired requestId⟩

/-- No batch contains a request of a cancelled id. -/
theorem Gone.not_scheduled (h : s.Gone objects requestId) (hc : s.Consistent objects) :
    ∀ r ∈ s.runner.scheduledRequests, (objects r).id ≠ requestId := by
  intro r hr
  rw [← hc.id_eq]
  exact (hc.gone_iff.mp h).2.not_scheduled hc.budgeted r hr

theorem Gone.step (h : s.Gone objects requestId) (hc : s.Consistent objects) {a : SectionAction}
    (ht : s.step a = some t) : t.Gone objects requestId := by
  obtain ⟨hused, hretired⟩ := hc.gone_iff.mp h
  rw [(hc.step ht).gone_iff]
  rcases step_cases ht with hquiet | ⟨rfl, rfl⟩ | ⟨r, rfl⟩ | ⟨other, rfl⟩
  · rw [hquiet.submitted_eq]
    exact ⟨hused, hretired.of_requests hquiet.batcher_eq hquiet.id_eq hquiet.state_eq⟩
  · exact ⟨hused, hretired.scheduleStep hc.budgeted⟩
  · obtain ⟨hfresh, rfl⟩ := step_addRequest ht
    obtain ⟨p, hp, hpid⟩ := hused
    have hne : (objects r).id ≠ requestId := hpid ▸ (hc.not_submitted hfresh p hp).symm
    refine ⟨⟨p, ?_, hpid⟩, hretired.addRequest (by rwa [hc.id_eq])⟩
    dsimp only
    split_ifs
    · exact List.mem_append_left _ hp
    · exact hp
  · simp only [ConcurrentRunner.step] at ht
    split_ifs at ht
    obtain rfl := Option.some.inj ht
    exact ⟨hused, hretired.cancelRequest other⟩

/-- The id is cancelled, and at most `n` outputs with it are pushed or in flight. -/
def Capped (requestId n : ℕ) (s : ConcurrentRunner Q) : Prop :=
  requestId ∈ s.runner.cancelledRequests ∧
    s.pushedCount requestId + s.inFlightIds.count requestId ≤ n

/-- The outputs of a cancelled id, pushed or in flight, do not grow. -/
theorem Capped.step {n : ℕ} (h : s.Capped requestId n) (hc : s.Consistent objects)
    {a : SectionAction} (ht : s.step a = some t) : t.Capped requestId n := by
  rcases step_cases ht with hquiet | ⟨rfl, rfl⟩ | ⟨r, rfl⟩ | ⟨other, rfl⟩
  · exact ⟨hquiet.cancelled_subset h.1, (hquiet.pushed_le requestId h.1).trans h.2⟩
  · have hle : s.pushedCount requestId ≤ n := (Nat.le_add_right _ _).trans h.2
    refine ⟨h.1, ?_⟩
    simpa [inFlightIds, pushedCount] using hle
  · have hid := (hc.addRequest ht).id_eq
    obtain ⟨-, heq⟩ := step_addRequest ht
    refine ⟨by rw [heq]; exact h.1, ?_⟩
    exact (counts_congr (by rw [heq]) (by rw [heq])
      (fun q => (hid q).trans (hc.id_eq q).symm) _).trans_le h.2
  · have hid := (hc.cancelInBatcher ht).id_eq
    simp only [ConcurrentRunner.step] at ht
    split_ifs at ht
    have heq := Option.some.inj ht
    refine ⟨by rw [← heq]; exact h.1, ?_⟩
    exact (counts_congr (by rw [← heq]) (by rw [← heq])
      (fun q => (hid q).trans (hc.id_eq q).symm) _).trans_le h.2

theorem Capped.run {n : ℕ} (h : s.Capped requestId n) (hc : s.Consistent objects)
    {actions : List SectionAction} (ht : exec ConcurrentRunner.step s actions = some t) :
    t.Capped requestId n ∧ t.Consistent objects := by
  apply exec_preserves (I := fun t => t.Capped requestId n ∧ t.Consistent objects) _ ⟨h, hc⟩ ht
  rintro u a v ⟨hu, huc⟩ hv
  exact ⟨hu.step huc hv, huc.step hv⟩

theorem Gone.run (h : s.Gone objects requestId) (hc : s.Consistent objects)
    {actions : List SectionAction} (ht : exec ConcurrentRunner.step s actions = some t) :
    t.Gone objects requestId := by
  refine (exec_preserves (I := fun t => t.Gone objects requestId ∧ t.Consistent objects) ?_
    ⟨h, hc⟩ ht).1
  rintro u a v ⟨hu, huc⟩ hv
  exact ⟨hu.step huc hv, huc.step hv⟩

theorem Consistent.inFlight_le (h : s.Consistent objects) (requestId : ℕ) :
    s.inFlightIds.count requestId ≤ 1 := by
  have hsub : s.inFlightIds.Sublist s.carriedIds := by
    unfold carriedIds
    split
    · simp [inFlightIds, *]
    · exact List.Sublist.refl _
  exact List.nodup_iff_count_le_one.mp (h.carried_nodup.sublist hsub) requestId

/-- After `cancel_request` has returned at most one output with its id is still pushed, by a step
that had passed the filter; once the step in progress has ended nothing with the id is pushed; and
if a request of the id had been accepted, no later schedule contains it. -/
theorem cancel_stops_outputs (maxNumSeqs maxNumBatchedTokens vocabSize : ℕ) (eosTokenId : ℤ)
    (hobjects : ∀ r, (objects r).state = .waiting) (before : List SectionAction)
    (hs : exec step (init maxNumSeqs maxNumBatchedTokens vocabSize eosTokenId objects) before =
      some s) (requestId : ℕ) (ht : s.step (.cancelInBatcher requestId) = some t)
    (after : List SectionAction) (u : ConcurrentRunner Q) (hu : exec step t after = some u) :
    u.pushedCount requestId ≤ t.pushedCount requestId + t.inFlightIds.count requestId ∧
      t.inFlightIds.count requestId ≤ 1 ∧
      (u.phase = .idle → ∀ later v, exec step u later = some v →
        v.pushedCount requestId ≤ u.pushedCount requestId) ∧
      ((∃ r ∈ s.submitted, (objects r).id = requestId) →
        ∀ q ∈ u.runner.scheduledRequests, (objects q).id ≠ requestId) := by
  have hc : s.Consistent objects := exec_preserves (fun _ _ _ h hstep => h.step hstep)
    (init_consistent _ _ _ _ hobjects) hs
  have hct := hc.step ht
  have hcancelled : requestId ∈ t.runner.cancelledRequests := by
    simp only [step] at ht
    split_ifs at ht with hcancelling
    obtain rfl := Option.some.inj ht
    exact hc.cancelling_cancelled requestId hcancelling
  obtain ⟨hcapped, hcu⟩ := Capped.run ⟨hcancelled, le_rfl⟩ hct hu
  refine ⟨(Nat.le_add_right _ _).trans hcapped.2, hct.inFlight_le _, fun hidle later v hv => ?_,
    fun hused => ?_⟩
  · obtain ⟨hlater, -⟩ := Capped.run ⟨hcapped.1, le_rfl⟩ hcu hv
    have hnone : u.inFlightIds = [] := by simp only [inFlightIds, hidle]
    have hle := (Nat.le_add_right _ _).trans hlater.2
    rwa [hnone, List.count_nil, Nat.add_zero] at hle
  · exact ((hc.gone hused ht).run hct hu).not_scheduled hcu

/-- The request is cancelled between the filter and the push of its first token. -/
theorem cancel_stops_outputs_executing : ∃ s t u : ConcurrentRunner (List RequestRef),
    exec step (init 4 8 100 99 CancelSystem.numberedRequests) [.addRequest 1, .scheduleStep,
      .filterCancelled, .insertCancelled 1] = some s ∧ s.step (.cancelInBatcher 1) = some t ∧
    exec step t [.execute, .pushBatch, .updateRequestsState] = some u ∧ u.pushedCount 1 = 1 ∧
    (u.pushedCount 1 ≤ t.pushedCount 1 + t.inFlightIds.count 1 ∧ t.inFlightIds.count 1 ≤ 1 ∧
      (u.phase = .idle → ∀ later v, exec step u later = some v →
        v.pushedCount 1 ≤ u.pushedCount 1) ∧
      ((∃ r ∈ s.submitted, (CancelSystem.numberedRequests r).id = 1) →
        ∀ q ∈ u.runner.scheduledRequests, (CancelSystem.numberedRequests q).id ≠ 1)) := by
  have hrun : ∃ u : ConcurrentRunner (List RequestRef),
      exec step (init 4 8 100 99 CancelSystem.numberedRequests) ([.addRequest 1, .scheduleStep,
        .filterCancelled, .insertCancelled 1] ++ (.cancelInBatcher 1 ::
          [.execute, .pushBatch, .updateRequestsState])) = some u ∧ u.pushedCount 1 = 1 :=
    exec_exists (by decide +kernel) fun _ _ h => h
  obtain ⟨u, hrun, hcount⟩ := hrun
  rw [exec_append] at hrun
  obtain ⟨s, hs, hrun⟩ := Option.bind_eq_some_iff.mp hrun
  obtain ⟨t, ht, hu⟩ := exec_cons.mp hrun
  exact ⟨s, t, u, hs, ht, hu, hcount,
    cancel_stops_outputs 4 8 100 99 (fun _ => rfl) _ hs 1 ht _ u hu⟩

end ConcurrentRunner
end CudaForge.Engine
