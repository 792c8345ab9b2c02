import CudaForge.Scheduler.QueueEntries

/-! When `schedule_step` returns a non-empty batch although nothing runs. -/
namespace CudaForge.Scheduler
open FiniteMap PriorityQueue Transition

theorem Requests.comparator_congr {rs rs' : Requests}
    (hpriority : ∀ r, (rs' r).priority = (rs r).priority)
    (harrival : ∀ r, (rs' r).arrivalTime = (rs r).arrivalTime) :
    rs'.comparator = rs.comparator := by
  funext a b
  simp only [comparator, requestPriorityComparator, hpriority, harrival]

theorem Requests.comparator_markAll (rs : Requests) (l : List RequestRef) (state : RequestState) :
    (rs.markAll l state).comparator = rs.comparator := by
  apply comparator_congr <;>
  · intro r
    unfold markAll
    split_ifs <;> rfl

/-- Higher priorities first, then earlier arrivals. -/
theorem Requests.strictWeak_comparator (rs : Requests) : StrictWeak rs.comparator where
  asymm a b := by
    simp only [comparator, requestPriorityComparator]
    grind
  negTrans a b c := by
    simp only [comparator, requestPriorityComparator]
    grind

namespace BatcherState
variable {Q : Type} [PriorityQueue Q RequestRef] {s : BatcherState Q}

section Admission

def firstUnfinished (requests : Requests) : ℕ → Q → Option RequestRef
  | 0, _ => none
  | turns + 1, q =>
    match pop requests.comparator q with
    | none => none
    | some (candidate, q') =>
      if (requests candidate).state = .finished then firstUnfinished requests turns q'
      else some candidate

/-- Only finished entries are popped before the first unfinished one, and none is above it. -/
theorem firstUnfinished_spec (requests : Requests) {q : Q} {turns : ℕ}
    (hturns : Multiset.card (items q) ≤ turns) (hordered : Ordered requests.comparator q)
    (hexists : ∃ r ∈ items q, (requests r).state ≠ .finished) :
    ∃ c, firstUnfinished requests turns q = some c ∧ c ∈ items q ∧
      (requests c).state ≠ .finished ∧
      ∀ r ∈ items q, (requests r).state ≠ .finished → requests.comparator c r = false := by
  obtain ⟨r, hr, hrs⟩ := hexists
  induction turns generalizing q with
  | zero =>
    rw [Multiset.card_eq_zero.mp (Nat.le_zero.mp hturns)] at hr
    exact absurd hr (Multiset.notMem_zero r)
  | succ turns ih =>
    unfold firstUnfinished
    cases hpop : pop requests.comparator q with
    | none =>
      rw [pop_none hpop] at hr
      exact absurd hr (Multiset.notMem_zero r)
    | some p =>
      obtain ⟨candidate, q'⟩ := p
      have hitems := pop_some hpop
      have hmax := pop_max requests.strictWeak_comparator hordered hpop
      rw [hitems, Multiset.card_cons] at hturns
      by_cases hs : (requests candidate).state = .finished
      · have hr' : r ∈ items q' := by
          rw [hitems, Multiset.mem_cons] at hr
          rcases hr with rfl | hr
          · exact absurd hs hrs
          · exact hr
        obtain ⟨c, hc, hmem, hcs, htop⟩ := ih (by omega) (ordered_pop hordered hpop) hr'
        refine ⟨c, by simpa [hs] using hc, ?_, hcs, ?_⟩
        · rw [hitems]
          exact Multiset.mem_cons_of_mem hmem
        · intro b hb hbs
          rw [hitems, Multiset.mem_cons] at hb
          rcases hb with rfl | hb
          · exact absurd hs hbs
          · exact htop b hb hbs
      · refine ⟨candidate, by simp [hs], ?_, hs, ?_⟩
        · rw [hitems]
          exact Multiset.mem_cons_self _ _
        · intro b hb _
          rw [hitems, Multiset.mem_cons] at hb
          rcases hb with rfl | hb
          · simp [Requests.comparator, requestPriorityComparator]
          · exact hmax b hb

/-- The admission loop admits something exactly when the first unfinished entry fits. -/
theorem admitLoop_prefill (maxNumSeqs maxNumBatchedTokens turns : ℕ) (acc : Admission Q)
    (hprefill : acc.prefillRequests = []) (hroom : acc.runningRequests.length < maxNumSeqs) :
    (admitLoop maxNumSeqs maxNumBatchedTokens turns acc).prefillRequests ≠ [] ↔
      ∃ c, firstUnfinished acc.requests turns acc.waitingQueue = some c ∧
        acc.allocatedTokens + (acc.requests c).promptTokens.length ≤ maxNumBatchedTokens := by
  induction turns generalizing acc with
  | zero => simp [admitLoop, firstUnfinished, hprefill]
  | succ turns ih =>
    unfold admitLoop firstUnfinished
    rw [if_pos hroom]
    cases hpop : pop acc.requests.comparator acc.waitingQueue with
    | none => simp [hprefill]
    | some p =>
      obtain ⟨candidate, waitingQueue⟩ := p
      by_cases hs : (acc.requests candidate).state = .finished
      · simp only [hs, if_true]
        exact ih { acc with waitingQueue := waitingQueue } hprefill hroom
      · simp only [hs, if_false, Option.some.injEq, exists_eq_left']
        split_ifs with hfit
        · refine iff_of_true ?_ hfit
          obtain ⟨skipped, admitted, deferred, hadm⟩ := admitLoop_spec maxNumSeqs
            maxNumBatchedTokens turns
            { acc with
              waitingQueue := waitingQueue
              requests := acc.requests.setState candidate .running
              prefillRequests := acc.prefillRequests ++ [candidate]
              runningRequests := acc.runningRequests ++ [candidate]
              allocatedTokens :=
                acc.allocatedTokens + (acc.requests candidate).promptTokens.length }
          rw [hadm.prefill_eq]
          simp
        · exact iff_of_false (by simp [hprefill]) hfit

end Admission

/-- The entry that the next `schedule_step` considers first. -/
def nextCandidate (s : BatcherState Q) : Option RequestRef :=
  firstUnfinished s.filteredRequests (Multiset.card (items s.batcher.waitingQueue))
    s.batcher.waitingQueue

/-- With no unfinished request running, the batch is empty unless the first candidate fits. -/
theorem scheduleStep_nonempty (hseqs : 1 ≤ s.batcher.maxNumSeqs)
    (hrunning : ∀ r ∈ s.batcher.runningRequests, (s.requests r).isFinished = true) :
    (s.scheduleStep.1.decodeRequests ≠ [] ∨ s.scheduleStep.1.prefillRequests ≠ []) ↔
      ∃ c, s.nextCandidate = some c ∧
        (s.requests c).promptTokens.length ≤ s.batcher.maxNumBatchedTokens := by
  have hempty : s.filterRunning.batcher.runningRequests = [] := by
    rw [filterRunning_running, List.filter_eq_nil_iff]
    intro r hr
    simp [Request.keeps, hrunning r hr]
  have hlength : ∀ c, (s.filteredRequests c).promptTokens = (s.requests c).promptTokens := by
    simp [filteredRequests]
  have hadm := admitLoop_prefill s.batcher.maxNumSeqs s.batcher.maxNumBatchedTokens
    (Multiset.card (items s.batcher.waitingQueue))
    ⟨s.batcher.waitingQueue, [], s.filteredRequests, [], [], 0⟩ rfl hseqs
  simp only [Nat.zero_add, hlength] at hadm
  simp only [scheduleStep, hempty, decodeLoop, Bool.false_eq_true, if_false, ne_eq,
    not_true_eq_false, false_or, filterRunning_requests]
  exact hadm

/-- The queue was built by the order of priorities and arrivals. -/
structure Ranked (s : BatcherState Q) : Prop where
  budgeted : s.Budgeted
  ordered : Ordered s.requests.comparator s.batcher.waitingQueue

theorem ordered_pushAll {less : RequestRef → RequestRef → Bool} {l : List RequestRef} {q : Q}
    (h : Ordered less q) : Ordered less (l.foldl (fun q r => push less r q) q) := by
  induction l generalizing q with
  | nil => exact h
  | cons r l ih => exact ih (ordered_push h)

theorem ordered_admitLoop {less : RequestRef → RequestRef → Bool}
    (maxNumSeqs maxNumBatchedTokens turns : ℕ) {acc : Admission Q}
    (hless : acc.requests.comparator = less) (h : Ordered less acc.waitingQueue) :
    Ordered less (admitLoop maxNumSeqs maxNumBatchedTokens turns acc).waitingQueue := by
  induction turns generalizing acc with
  | zero => exact h
  | succ turns ih =>
    unfold admitLoop
    split_ifs
    · cases hpop : pop acc.requests.comparator acc.waitingQueue with
      | none => exact h
      | some p =>
        have hrest : Ordered less p.2 := ordered_pop h (hless ▸ hpop)
        dsimp only
        split_ifs
        · exact ih hless hrest
        · apply ih _ hrest
          rw [Requests.setState_eq_markAll, Requests.comparator_markAll]
          exact hless
        · exact hrest
    · exact h

theorem Ranked.scheduleStep (h : s.Ranked) : s.scheduleStep.2.Ranked := by
  obtain ⟨skipped, hs⟩ := scheduleStep_spec h.budgeted.tokens_le
  have hless : s.scheduleStep.2.requests.comparator = s.requests.comparator := by
    rw [hs.requests_eq, filteredRequests, Requests.comparator_markAll, Requests.comparator_markAll]
  refine ⟨h.budgeted.scheduleStep, ?_⟩
  rw [hless]
  simp only [BatcherState.scheduleStep, decodeLoop_filterRunning h.budgeted.tokens_le,
    Bool.false_eq_true, if_false] at hless ⊢
  rw [hless]
  apply ordered_pushAll
  apply ordered_admitLoop _ _ _ _ h.ordered
  rw [filterRunning_requests, filteredRequests, Requests.comparator_markAll]

theorem Ranked.step (h : s.Ranked) (a : BatcherAction) : (s.step a).Ranked := by
  have hb := step_budgeted h.budgeted a
  cases a with
  | addRequest request =>
    refine ⟨hb, ?_⟩
    cases request with
    | none => exact h.ordered
    | some r =>
      by_cases hr : s.Acceptable r
      · simp only [BatcherState.step, addRequest_accepted hr, Requests.setState_eq_markAll,
          Requests.comparator_markAll]
        exact ordered_push h.ordered
      · simp only [BatcherState.step, addRequest_refused hr]
        exact h.ordered
  | cancelRequest requestId =>
    refine ⟨hb, ?_⟩
    simp only [BatcherState.step, BatcherState.cancelRequest]
    split
    · exact h.ordered
    · simp only [Requests.setState_eq_markAll, Requests.comparator_markAll]
      exact h.ordered
  | updateRequestsState finishedIds =>
    refine ⟨hb, ?_⟩
    simp only [BatcherState.step, updateRequestsState_eq, Requests.comparator_markAll]
    exact h.ordered
  | scheduleStep => exact h.scheduleStep
  | appendToken r token =>
    refine ⟨hb, ?_⟩
    have hless : (s.requests.pushToken r token).comparator = s.requests.comparator := by
      apply Requests.comparator_congr <;>
      · intro q
        simp only [Requests.pushToken, Function.update_apply]
        split_ifs with hq
        · rw [hq]
        · rfl
    simp only [BatcherState.step, hless]
    exact h.ordered
  | finish r =>
    refine ⟨hb, ?_⟩
    simp only [BatcherState.step, Requests.setState_eq_markAll, Requests.comparator_markAll]
    exact h.ordered

theorem init_ranked (maxNumSeqs maxNumBatchedTokens : ℕ) {objects : Requests}
    (hobjects : ∀ r, (objects r).state = .waiting) :
    (init maxNumSeqs maxNumBatchedTokens objects : BatcherState Q).Ranked :=
  ⟨init_budgeted _ _ hobjects, ordered_empty _⟩

theorem run_ranked (h : s.Ranked) (actions : List BatcherAction) :
    (actions.foldl BatcherState.step s).Ranked := by
  induction actions generalizing s with
  | nil => exact h
  | cons a rest ih => exact ih (h.step a)

omit [PriorityQueue Q RequestRef] in
/-- A request that nothing has finished keeps its state in step 1 when only ended ones run. -/
theorem filteredRequests_unfinished
    (hrunning : ∀ r ∈ s.batcher.runningRequests, (s.requests r).isFinished = true)
    {r : RequestRef} (hr : (s.requests r).isFinished = false) :
    s.filteredRequests r = s.requests r := by
  apply Requests.markAll_of_notMem
  rw [mem_dropped]
  rintro ⟨hmem, -⟩
  rw [hrunning r hmem] at hr
  contradiction

/-- With nothing unfinished running and something unfinished waiting, the next batch is non-empty
exactly when the waiting request of the highest rank fits the token budget. -/
theorem progress_of_fitting (maxNumSeqs maxNumBatchedTokens : ℕ) (hseqs : 1 ≤ maxNumSeqs)
    (objects : Requests) (hobjects : ∀ r, (objects r).state = .waiting)
    (actions : List BatcherAction) :
    let s : BatcherState Q := actions.foldl step (init maxNumSeqs maxNumBatchedTokens objects)
    (∀ r ∈ s.batcher.runningRequests, (s.requests r).isFinished = true) →
    (∃ r ∈ items s.batcher.waitingQueue, (s.requests r).isFinished = false) →
    ∃ c, s.nextCandidate = some c ∧ c ∈ items s.batcher.waitingQueue ∧
      (s.requests c).state ≠ .finished ∧
      (∀ r ∈ items s.batcher.waitingQueue, (s.requests r).isFinished = false →
        s.requests.comparator c r = false) ∧
      ((s.scheduleStep.1.decodeRequests ≠ [] ∨ s.scheduleStep.1.prefillRequests ≠ []) ↔
        (s.requests c).promptTokens.length ≤ maxNumBatchedTokens) := by
  intro s hrunning ⟨r, hr, hwaiting⟩
  have hinit : (init maxNumSeqs maxNumBatchedTokens objects : BatcherState Q).Ranked :=
    init_ranked _ _ hobjects
  have h : s.Ranked := run_ranked hinit actions
  obtain ⟨hmaxSeqs, hmaxTokens⟩ := run_limits hinit.budgeted actions
  have hless : s.filteredRequests.comparator = s.requests.comparator :=
    Requests.comparator_markAll _ _ _
  have hunfinished : ∀ q, (s.requests q).isFinished = false →
      (s.filteredRequests q).state ≠ .finished := by
    intro q hq
    rw [filteredRequests_unfinished hrunning hq]
    intro hs
    simp [Request.isFinished, hs] at hq
  obtain ⟨c, hc, hmem, hcs, htop⟩ := firstUnfinished_spec s.filteredRequests le_rfl
    (hless ▸ h.ordered) ⟨r, hr, hunfinished r hwaiting⟩
  have hstate : (s.requests c).state ≠ .finished := by
    intro hs
    rw [filteredRequests, Requests.markAll_state, hs, ite_self] at hcs
    exact hcs rfl
  refine ⟨c, hc, hmem, hstate, fun q hq hqf => ?_, ?_⟩
  · rw [← hless]
    exact htop q hq (hunfinished q hqf)
  · rw [scheduleStep_nonempty (hseqs.trans_eq hmaxSeqs.symm) hrunning]
    constructor
    · rintro ⟨c', hc', hfit⟩
      obtain rfl := Option.some.inj (hc'.symm.trans hc)
      exact hfit.trans_eq hmaxTokens
    · intro hfit
      exact ⟨c, hc, hfit.trans_eq hmaxTokens.symm⟩

def shrinkingRequests : Requests := fun r => Request.new r (List.replicate (5 - r) 1) 4 0 r

/-- The older of two requests fits and is admitted. -/
theorem progress_of_fitting_first :
    let s : BatcherState (List RequestRef) :=
      [.addRequest (some 3), .addRequest (some 4)].foldl step (init 4 2 shrinkingRequests)
    ∃ c, s.nextCandidate = some c ∧ c ∈ items s.batcher.waitingQueue ∧
      (s.requests c).state ≠ .finished ∧
      (∀ r ∈ items s.batcher.waitingQueue, (s.requests r).isFinished = false →
        s.requests.comparator c r = false) ∧
      ((s.scheduleStep.1.decodeRequests ≠ [] ∨ s.scheduleStep.1.prefillRequests ≠ []) ↔
        (s.requests c).promptTokens.length ≤ 2) :=
  progress_of_fitting 4 2 (by decide) shrinkingRequests (fun _ => rfl)
    [.addRequest (some 3), .addRequest (some 4)] (by decide +kernel)
    ⟨3, by decide +kernel, by decide +kernel⟩

/-- An accepted prompt of three tokens never fits a budget of two and blocks the one behind it. -/
theorem wedged : let s : BatcherState (List RequestRef) :=
    [.addRequest (some 2), .addRequest (some 3)].foldl step (init 4 2 shrinkingRequests)
  s.batcher.runningRequests = [] ∧ (∀ r ∈ items s.batcher.waitingQueue,
      (s.requests r).isFinished = false ∧ s.batcher.requestMap.lookup r = some r) ∧
    (s.requests 3).promptTokens.length ≤ 2 ∧ 3 ∈ items s.batcher.waitingQueue ∧
    s.scheduleStep.1.decodeRequests = [] ∧ s.scheduleStep.1.prefillRequests = [] := by
  decide +kernel

end BatcherState
end CudaForge.Scheduler
