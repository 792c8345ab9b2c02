import CudaForge.Scheduler.BatcherSchedule

/-! The running set never outgrows the token budget, so nothing is preempted. -/
namespace CudaForge.Scheduler
open MachineWord FiniteMap PriorityQueue

inductive BatcherAction where
  | addRequest (request : Option RequestRef)
  | cancelRequest (requestId : ℕ)
  | updateRequestsState (finishedIds : List ℕ)
  | scheduleStep
  | appendToken (r : RequestRef) (token : ℤ)
  | finish (r : RequestRef)
  deriving DecidableEq

namespace BatcherState
variable {Q : Type} [PriorityQueue Q RequestRef]

def step (s : BatcherState Q) : BatcherAction → BatcherState Q
  | .addRequest request => (s.addRequest request).2
  | .cancelRequest requestId => (s.cancelRequest requestId).2
  | .updateRequestsState finishedIds => s.updateRequestsState finishedIds
  | .scheduleStep => s.scheduleStep.2
  | .appendToken r token => { s with requests := s.requests.pushToken r token }
  | .finish r => { s with requests := s.requests.setState r .finished }

/-- Every running request has paid at least one token of the budget, and the requests that still
count are registered under their ids. -/
structure Budgeted (s : BatcherState Q) : Prop where
  seqs_le : s.batcher.runningRequests.length ≤ s.batcher.maxNumSeqs
  tokens_le : s.batcher.runningRequests.length ≤ s.batcher.maxNumBatchedTokens
  mapped : ∀ r ∈ s.batcher.runningRequests,
    s.batcher.requestMap.lookup (s.requests r).id = some r
  waiting_mapped : ∀ r ∈ items s.batcher.waitingQueue, (s.requests r).state ≠ .finished →
    s.batcher.requestMap.lookup (s.requests r).id = some r
  live : ∀ r ∈ s.batcher.runningRequests,
    (s.requests r).state = .running ∨ (s.requests r).state = .finished
  prompted : ∀ r ∈ items s.batcher.waitingQueue, (s.requests r).promptTokens ≠ []
  not_preempted : ∀ r, (s.requests r).state ≠ .preempted

/-- Changes of the requests alone that only finish them or grow their output. -/
theorem Budgeted.of_requests {s : BatcherState Q} (h : s.Budgeted) {requests : Requests}
    (hid : ∀ r, (requests r).id = (s.requests r).id)
    (hprompt : ∀ r, (requests r).promptTokens = (s.requests r).promptTokens)
    (hstate : ∀ r, (requests r).state = (s.requests r).state ∨ (requests r).state = .finished) :
    Budgeted { s with requests := requests } where
  seqs_le := h.seqs_le
  tokens_le := h.tokens_le
  mapped r hr := by rw [hid]; exact h.mapped r hr
  waiting_mapped r hr hs := by
    rw [hid]
    rcases hstate r with he | he
    · exact h.waiting_mapped r hr (he ▸ hs)
    · exact absurd he hs
  live r hr := by
    rcases hstate r with he | he
    · rw [he]; exact h.live r hr
    · exact Or.inr he
  prompted r hr := by rw [hprompt]; exact h.prompted r hr
  not_preempted r := by
    rcases hstate r with he | he
    · rw [he]; exact h.not_preempted r
    · rw [he]; exact RequestState.noConfusion

theorem Budgeted.finish {s : BatcherState Q} (h : s.Budgeted) (r : RequestRef) :
    Budgeted { s with requests := s.requests.setState r .finished } := by
  rw [Requests.setState_eq_markAll]
  apply h.of_requests (fun q => by simp) (fun q => by simp)
  intro q
  rw [Requests.markAll_state]
  split_ifs
  · exact Or.inr rfl
  · exact Or.inl rfl

theorem Budgeted.pushToken {s : BatcherState Q} (h : s.Budgeted) (r : RequestRef) (token : ℤ) :
    Budgeted { s with requests := s.requests.pushToken r token } := by
  have hsame (q : RequestRef) : ∃ tokens,
      s.requests.pushToken r token q = { s.requests q with generatedTokens := tokens } := by
    simp only [Requests.pushToken, Function.update_apply]
    split_ifs with hq
    · exact ⟨_, by rw [hq]⟩
    · exact ⟨_, rfl⟩
  refine h.of_requests (fun q => ?_) (fun q => ?_) fun q => Or.inl ?_ <;>
    obtain ⟨tokens, hq⟩ := hsame q <;> rw [hq]

theorem Budgeted.updateRequestsState {s : BatcherState Q} (h : s.Budgeted)
    (finishedIds : List ℕ) : (s.updateRequestsState finishedIds).Budgeted := by
  unfold BatcherState.updateRequestsState
  induction finishedIds generalizing s with
  | nil => exact h
  | cons id rest ih =>
    have hstep : Budgeted { s with
        requests := updateStep s.batcher.requestMap s.requests id } := by
      unfold updateStep
      split
      · exact h.finish _
      · exact h
    exact ih hstep

theorem Budgeted.addRequest {s : BatcherState Q} (h : s.Budgeted) (request : Option RequestRef) :
    (s.addRequest request).2.Budgeted := by
  unfold BatcherState.addRequest
  split
  · exact h
  · rename_i r
    split_ifs with hprompt hid
    · exact h
    · exact h
    · have hnew : ∀ q ∈ s.batcher.runningRequests, q ≠ r := by
        rintro q hq rfl
        exact hid (mem_of_lookup (h.mapped q hq))
      have hother : ∀ q ∈ s.batcher.runningRequests, (s.requests q).id ≠ (s.requests r).id :=
        fun q hq he => hid (he ▸ mem_of_lookup (h.mapped q hq))
      simp only [Requests.setState_eq_markAll]
      constructor
      · exact h.seqs_le
      · exact h.tokens_le
      · intro q hq
        simp only [Requests.markAll_id]
        rw [Requests.markAll_id, lookup_insert_ite, if_neg (hother q hq)]
        exact h.mapped q hq
      · intro q hq hs
        simp only [items_push, Multiset.mem_cons, Requests.markAll_state, List.mem_singleton]
          at hq hs
        rw [Requests.markAll_id, Requests.markAll_id, lookup_insert_ite]
        by_cases hqr : q = r
        · rw [hqr, if_pos rfl]
        · rw [if_neg hqr] at hs
          have hmap := h.waiting_mapped q (hq.resolve_left hqr) hs
          have he : (s.requests q).id ≠ (s.requests r).id :=
            fun he => hid (he ▸ mem_of_lookup hmap)
          rw [if_neg he]
          exact hmap
      · intro q hq
        simp only [Requests.markAll_state, List.mem_singleton, hnew q hq, if_false]
        exact h.live q hq
      · intro q hq
        simp only [items_push, Multiset.mem_cons, Requests.markAll_promptTokens] at hq ⊢
        rcases hq with rfl | hq
        · simpa using hprompt
        · exact h.prompted q hq
      · intro q
        simp only [Requests.markAll_state]
        split_ifs
        · exact RequestState.noConfusion
        · exact h.not_preempted q

theorem Budgeted.cancelRequest {s : BatcherState Q} (h : s.Budgeted) (requestId : ℕ) :
    (s.cancelRequest requestId).2.Budgeted := by
  unfold BatcherState.cancelRequest
  split
  · exact h
  · rename_i r hr
    have hf := h.finish r
    have hle : ∀ p : RequestRef → Bool,
        (s.batcher.runningRequests.filter p).length ≤ s.batcher.runningRequests.length :=
      fun p => List.length_filter_le p _
    constructor
    · exact (hle _).trans h.seqs_le
    · exact (hle _).trans h.tokens_le
    · intro q hq
      obtain ⟨hq, hne⟩ := List.mem_filter.mp hq
      simp only [lookup_erase_ite, of_decide_eq_true hne, if_false]
      exact hf.mapped q hq
    · intro q hq hs
      have hmap := hf.waiting_mapped q hq hs
      rw [lookup_erase_ite]
      split_ifs with he
      · rw [he] at hmap
        obtain rfl := Option.some.inj (hr.symm.trans hmap)
        simp [Requests.setState] at hs
      · exact hmap
    · exact fun q hq => hf.live q (List.mem_of_mem_filter hq)
    · exact hf.prompted
    · exact hf.not_preempted

/-- Each prefill prompt is at least one token long, so the new running set has paid its tokens. -/
theorem length_le_promptLengths {rs : Requests} {l : List RequestRef}
    (h : ∀ r ∈ l, (rs r).promptTokens ≠ []) : l.length ≤ promptLengths rs l := by
  induction l with
  | nil => exact Nat.zero_le _
  | cons r l ih =>
    have hr := List.length_pos_iff.mpr (h r List.mem_cons_self)
    have hl := ih fun q hq => h q (List.mem_cons_of_mem _ hq)
    simp only [promptLengths, List.map_cons, List.sum_cons, List.length_cons] at hl ⊢
    omega

theorem Budgeted.scheduleStep {s : BatcherState Q} (h : s.Budgeted) :
    s.scheduleStep.2.Budgeted := by
  obtain ⟨skipped, hs⟩ := scheduleStep_spec h.tokens_le
  have hprefill : ∀ r ∈ s.scheduleStep.1.prefillRequests, r ∈ items s.batcher.waitingQueue := by
    intro r hr
    rw [hs.items_eq, Multiset.mem_add, Multiset.mem_add]
    exact Or.inl (Or.inr hr)
  have hlen := length_le_promptLengths fun r hr => h.prompted r (hprefill r hr)
  have htokens := hs.tokens_eq ▸ hs.tokens_le
  have hid : ∀ r, (s.scheduleStep.2.requests r).id = (s.requests r).id := by
    simp [hs.requests_eq, filteredRequests]
  have hstate : ∀ r, (s.scheduleStep.2.requests r).state =
      if r ∈ s.scheduleStep.1.prefillRequests then .running
      else if r ∈ s.dropped then .finished else (s.requests r).state := by
    simp [hs.requests_eq, filteredRequests, Requests.markAll_state]
  have hmapped : ∀ r, s.batcher.requestMap.lookup (s.requests r).id = some r → r ∉ s.dropped →
      s.scheduleStep.2.batcher.requestMap.lookup (s.scheduleStep.2.requests r).id = some r := by
    intro r hr hd
    rw [hid, hs.map_eq, if_neg]
    · exact hr
    · rintro ⟨q, hq, hk, he⟩
      have hmap := h.mapped q hq
      rw [he, hr] at hmap
      exact hd (Option.some.inj hmap ▸ mem_dropped.mpr ⟨hq, hk⟩)
  have hunfinished : ∀ r, (s.filteredRequests r).state ≠ .finished →
      r ∉ s.dropped ∧ (s.requests r).state ≠ .finished := by
    intro r hr
    rw [filteredRequests, Requests.markAll_state] at hr
    split_ifs at hr with hd
    · exact absurd rfl hr
    · exact ⟨hd, hr⟩
  constructor
  · rw [hs.maxNumSeqs_eq]
    exact hs.seqs_le h.seqs_le
  · rw [hs.maxNumBatchedTokens_eq, hs.running_eq, List.length_append]
    omega
  · intro r hr
    rw [hs.running_eq, hs.decode_eq] at hr
    rcases List.mem_append.mp hr with hr | hr
    · obtain ⟨hr, hk⟩ := List.mem_filter.mp hr
      apply hmapped r (h.mapped r hr)
      intro hd
      rw [(mem_dropped.mp hd).2] at hk
      cases hk
    · obtain ⟨hd, hu⟩ := hunfinished r (hs.prefill_unfinished r hr)
      exact hmapped r (h.waiting_mapped r (hprefill r hr) hu) hd
  · intro r hr hf
    have hr' : r ∈ items s.batcher.waitingQueue := by
      rw [hs.items_eq, Multiset.mem_add]
      exact Or.inr hr
    rw [hstate] at hf
    split_ifs at hf with hp hd
    · obtain ⟨hd, hu⟩ := hunfinished r (hs.prefill_unfinished r hp)
      exact hmapped r (h.waiting_mapped r hr' hu) hd
    · exact absurd rfl hf
    · exact hmapped r (h.waiting_mapped r hr' hf) hd
  · intro r hr
    rw [hstate]
    split_ifs with hp hd
    · exact Or.inl rfl
    · exact Or.inr rfl
    · rw [hs.running_eq, hs.decode_eq] at hr
      rcases List.mem_append.mp hr with hr | hr
      · exact h.live r (List.mem_of_mem_filter hr)
      · exact absurd hr hp
  · intro r hr
    have hr' : r ∈ items s.batcher.waitingQueue := by
      rw [hs.items_eq, Multiset.mem_add]
      exact Or.inr hr
    simpa [hs.requests_eq, filteredRequests] using h.prompted r hr'
  · intro r
    rw [hstate]
    split_ifs
    · exact RequestState.noConfusion
    · exact RequestState.noConfusion
    · exact h.not_preempted r

theorem step_budgeted {s : BatcherState Q} (h : s.Budgeted) (a : BatcherAction) :
    (s.step a).Budgeted := by
  cases a with
  | addRequest request => exact h.addRequest request
  | cancelRequest requestId => exact h.cancelRequest requestId
  | updateRequestsState finishedIds => exact h.updateRequestsState finishedIds
  | scheduleStep => exact h.scheduleStep
  | appendToken r token => exact h.pushToken r token
  | finish r => exact h.finish r

theorem init_budgeted (maxNumSeqs maxNumBatchedTokens : ℕ) {objects : Requests}
    (hobjects : ∀ r, (objects r).state = .waiting) :
    (init maxNumSeqs maxNumBatchedTokens objects : BatcherState Q).Budgeted := by
  constructor <;> simp [init, items_empty, hobjects]

theorem run_budgeted {s : BatcherState Q} (h : s.Budgeted) (actions : List BatcherAction) :
    (actions.foldl step s).Budgeted := by
  induction actions generalizing s with
  | nil => exact h
  | cons a rest ih => exact ih (step_budgeted h a)

theorem step_limits {s : BatcherState Q} (h : s.Budgeted) (a : BatcherAction) :
    (s.step a).batcher.maxNumSeqs = s.batcher.maxNumSeqs ∧
      (s.step a).batcher.maxNumBatchedTokens = s.batcher.maxNumBatchedTokens := by
  cases a with
  | addRequest request =>
    simp only [step, addRequest]
    split
    · exact ⟨rfl, rfl⟩
    · split_ifs <;> exact ⟨rfl, rfl⟩
  | cancelRequest requestId =>
    simp only [step, cancelRequest]
    split <;> exact ⟨rfl, rfl⟩
  | scheduleStep =>
    obtain ⟨skipped, hs⟩ := scheduleStep_spec h.tokens_le
    exact ⟨hs.maxNumSeqs_eq, hs.maxNumBatchedTokens_eq⟩
  | _ => exact ⟨rfl, rfl⟩

theorem run_limits {s : BatcherState Q} (h : s.Budgeted) (actions : List BatcherAction) :
    (actions.foldl step s).batcher.maxNumSeqs = s.batcher.maxNumSeqs ∧
      (actions.foldl step s).batcher.maxNumBatchedTokens = s.batcher.maxNumBatchedTokens := by
  induction actions generalizing s with
  | nil => exact ⟨rfl, rfl⟩
  | cons a rest ih =>
    obtain ⟨hseqs, htokens⟩ := ih (step_budgeted h a)
    obtain ⟨hseqs', htokens'⟩ := step_limits h a
    exact ⟨hseqs.trans hseqs', htokens.trans htokens'⟩

/-- Under the invariant step 1 drops exactly the finished requests. -/
theorem Budgeted.keeps_eq {s : BatcherState Q} (h : s.Budgeted) {r : RequestRef}
    (hr : r ∈ s.batcher.runningRequests) :
    (s.requests r).keeps = !(s.requests r).isFinished := by
  rcases h.live r hr with hl | hl <;> simp [Request.keeps, Request.isFinished, hl]

/-- In every reachable state the running set fits both limits; the next `schedule_step` decodes
every unfinished running request, preempts nobody and stays within the token budget. -/
theorem budget_never_exhausted (maxNumSeqs maxNumBatchedTokens : ℕ) (objects : Requests)
    (hobjects : ∀ r, (objects r).state = .waiting) (actions : List BatcherAction) :
    let s : BatcherState Q := actions.foldl step (init maxNumSeqs maxNumBatchedTokens objects)
    let result := s.scheduleStep.1
    s.batcher.runningRequests.length ≤ min maxNumSeqs maxNumBatchedTokens ∧
    result.decodeRequests =
      s.batcher.runningRequests.filter (fun r => !(s.requests r).isFinished) ∧
    (decodeLoop maxNumBatchedTokens s.filterRunning.batcher.runningRequests 0).2.2 = false ∧
    result.preemptedCount = 0 ∧ (∀ r, (s.requests r).state ≠ .preempted) ∧
    result.totalBatchedTokens = result.decodeRequests.length +
      (result.prefillRequests.map fun r => (s.requests r).promptTokens.length).sum ∧
    result.totalBatchedTokens ≤ maxNumBatchedTokens := by
  intro s result
  have hinit : (init maxNumSeqs maxNumBatchedTokens objects : BatcherState Q).Budgeted :=
    init_budgeted _ _ hobjects
  have h : s.Budgeted := run_budgeted hinit actions
  obtain ⟨hseqs, htokens⟩ := run_limits hinit actions
  obtain ⟨skipped, hs⟩ := scheduleStep_spec h.tokens_le
  have hfilter : s.filterRunning.batcher.runningRequests.length ≤ maxNumBatchedTokens :=
    s.filterRunning_length_le.trans (h.tokens_le.trans_eq htokens)
  refine ⟨le_min (h.seqs_le.trans_eq hseqs) (h.tokens_le.trans_eq htokens), ?_, ?_,
    hs.preempted_eq, h.not_preempted, hs.tokens_eq, hs.tokens_le.trans_eq htokens⟩
  · rw [hs.decode_eq]
    exact List.filter_congr fun r hr => h.keeps_eq hr
  · rw [decodeLoop_eq _ _ 0 (by omega)]

/-- Two requests compete for a budget of three tokens; the runner finishes the first. -/
theorem budget_never_exhausted_contended :
    let objects : Requests := fun r => Request.new r [1, 2] 4 r 0
    let s : BatcherState (List RequestRef) :=
      [.addRequest (some 1), .addRequest (some 2), .scheduleStep, .appendToken 2 3,
        .scheduleStep, .finish 2].foldl step (init 2 3 objects)
    s.batcher.runningRequests.length ≤ min 2 3 ∧ s.scheduleStep.1 = ⟨[], [1], 1, 0⟩ := by
  intro objects s
  exact ⟨(budget_never_exhausted 2 3 objects (fun _ => rfl) _).1, by decide⟩

end BatcherState
end CudaForge.Scheduler
