import CudaForge.Scheduler.QueueEntries

/-! Request ids that the batcher will not schedule again. -/
namespace CudaForge.Scheduler
open FiniteMap PriorityQueue

namespace BatcherState
variable {Q : Type} [PriorityQueue Q RequestRef] {s : BatcherState Q} {requestId : ℕ}

/-- No request of this id is running or will be admitted. -/
structure Retired (s : BatcherState Q) (requestId : ℕ) : Prop where
  not_running : ∀ r ∈ s.batcher.runningRequests, (s.requests r).id ≠ requestId
  waiting_finished : ∀ r ∈ items s.batcher.waitingQueue, (s.requests r).id = requestId →
    (s.requests r).state = .finished

/-- `cancel_request` takes every entry of the id out of play. -/
theorem Budgeted.cancelRequest_retired (h : s.Budgeted) (requestId : ℕ) :
    (s.cancelRequest requestId).2.Retired requestId := by
  have hrunning : ∀ r ∈ s.batcher.runningRequests, (s.requests r).id = requestId →
      s.batcher.requestMap.lookup requestId = some r := by
    rintro r hr rfl
    exact h.mapped r hr
  have hwaiting : ∀ r ∈ items s.batcher.waitingQueue, (s.requests r).id = requestId →
      (s.requests r).state ≠ .finished → s.batcher.requestMap.lookup requestId = some r := by
    rintro r hr rfl hs
    exact h.waiting_mapped r hr hs
  unfold BatcherState.cancelRequest
  split
  · rename_i hnone
    constructor
    · intro r hr hid
      rw [hrunning r hr hid] at hnone
      contradiction
    · intro r hr hid
      by_contra hs
      rw [hwaiting r hr hid hs] at hnone
      contradiction
  · rename_i q hq
    constructor
    · intro r hr
      exact of_decide_eq_true (List.mem_filter.mp hr).2
    · intro r hr hid
      rw [Requests.setState_id] at hid
      rw [Requests.setState_state]
      split_ifs with hrq
      · rfl
      · by_contra hs
        rw [hwaiting r hr hid hs] at hq
        exact hrq (Option.some.inj hq)

namespace Retired

/-- No batch contains a request of a retired id. -/
theorem not_scheduled (h : s.Retired requestId) (hb : s.Budgeted) :
    ∀ r ∈ s.scheduleStep.1.prefillRequests ++ s.scheduleStep.1.decodeRequests,
      (s.requests r).id ≠ requestId := by
  obtain ⟨skipped, hs⟩ := scheduleStep_spec hb.tokens_le
  intro r hr
  rcases List.mem_append.mp hr with hprefill | hdecode
  · intro hid
    have hr' : r ∈ items s.batcher.waitingQueue := by
      rw [hs.items_eq, Multiset.mem_add, Multiset.mem_add]
      exact Or.inl (Or.inr hprefill)
    apply hs.prefill_unfinished r hprefill
    rw [filteredRequests, Requests.markAll_state, h.waiting_finished r hr' hid, ite_self]
  · rw [hs.decode_eq] at hdecode
    exact h.not_running r (List.mem_of_mem_filter hdecode)

theorem scheduleStep (h : s.Retired requestId) (hb : s.Budgeted) :
    s.scheduleStep.2.Retired requestId := by
  have hnot := h.not_scheduled hb
  obtain ⟨skipped, hs⟩ := scheduleStep_spec hb.tokens_le
  have hid : ∀ r, (s.scheduleStep.2.requests r).id = (s.requests r).id := by
    simp [hs.requests_eq, filteredRequests]
  constructor
  · intro r hr
    rw [hs.running_eq] at hr
    rw [hid]
    exact hnot r (List.perm_append_comm.mem_iff.mp hr)
  · intro r hr hrid
    rw [hid] at hrid
    have hr' : r ∈ items s.batcher.waitingQueue := by
      rw [hs.items_eq, Multiset.mem_add]
      exact Or.inr hr
    have hprefill : r ∉ s.scheduleStep.1.prefillRequests :=
      fun hmem => hnot r (List.mem_append_left _ hmem) hrid
    simp only [hs.requests_eq, Requests.markAll_of_notMem _ _ _ _ hprefill, filteredRequests,
      Requests.markAll_state, h.waiting_finished r hr' hrid, ite_self]

/-- Requests that keep their ids, and are at most finished, leave an id retired. -/
theorem of_requests (h : s.Retired requestId) {t : BatcherState Q}
    (hbatcher : t.batcher = s.batcher) (hid : ∀ r, (t.requests r).id = (s.requests r).id)
    (hstate : ∀ r, (t.requests r).state = (s.requests r).state ∨
      (t.requests r).state = .finished) : t.Retired requestId := by
  constructor
  · intro r hr
    rw [hbatcher] at hr
    rw [hid]
    exact h.not_running r hr
  · intro r hr hrid
    rw [hbatcher] at hr
    rw [hid] at hrid
    rcases hstate r with he | hf
    · exact he.trans (h.waiting_finished r hr hrid)
    · exact hf

theorem addRequest (h : s.Retired requestId) {r : RequestRef}
    (hne : (s.requests r).id ≠ requestId) : (s.addRequest (some r)).2.Retired requestId := by
  by_cases hr : s.Acceptable r
  · rw [addRequest_accepted hr]
    constructor
    · intro q hq
      rw [Requests.setState_id]
      exact h.not_running q hq
    · intro q hq hid
      rw [Requests.setState_id] at hid
      simp only [items_push, Multiset.mem_cons] at hq
      rw [Requests.setState_state]
      split_ifs with hqr
      · exact absurd (hqr ▸ hid) hne
      · exact h.waiting_finished q (hq.resolve_left hqr) hid
  · rw [addRequest_refused hr]
    exact h

theorem cancelRequest (h : s.Retired requestId) (other : ℕ) :
    (s.cancelRequest other).2.Retired requestId := by
  unfold BatcherState.cancelRequest
  split
  · exact h
  · constructor
    · intro r hr
      rw [Requests.setState_id]
      exact h.not_running r (List.mem_of_mem_filter hr)
    · intro r hr hid
      rw [Requests.setState_id] at hid
      rw [Requests.setState_state, h.waiting_finished r hr hid, ite_self]

theorem updateRequestsState (h : s.Retired requestId) (finishedIds : List ℕ) :
    (s.updateRequestsState finishedIds).Retired requestId := by
  refine h.of_requests (t := s.updateRequestsState finishedIds) rfl ?_ ?_
  · intro r
    simp only [updateRequestsState_eq, Requests.markAll_id]
  · intro r
    simp only [updateRequestsState_eq, Requests.markAll_state]
    split_ifs
    · exact Or.inr rfl
    · exact Or.inl rfl

end Retired
end BatcherState
end CudaForge.Scheduler
