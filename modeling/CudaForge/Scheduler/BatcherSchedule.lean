import CudaForge.Scheduler.ContinuousBatcher

/-! What one `schedule_step` does to the queue, the running vector, the map and the requests. -/
namespace CudaForge.Scheduler
open MachineWord FiniteMap PriorityQueue

namespace Requests

def markAll (rs : Requests) (l : List RequestRef) (state : RequestState) : Requests :=
  fun q => if q ∈ l then { rs q with state := state } else rs q

variable (rs : Requests) (r q : RequestRef) (l : List RequestRef) (state : RequestState)

theorem setState_eq_markAll : rs.setState r state = rs.markAll [r] state := by
  funext q
  simp only [setState, markAll, Function.update_apply, List.mem_singleton]
  split_ifs with h
  · rw [h]
  · rfl

@[simp] theorem markAll_id : (rs.markAll l state q).id = (rs q).id := by
  unfold markAll; split_ifs <;> rfl

@[simp] theorem markAll_promptTokens :
    (rs.markAll l state q).promptTokens = (rs q).promptTokens := by
  unfold markAll; split_ifs <;> rfl

@[simp] theorem markAll_generatedTokens :
    (rs.markAll l state q).generatedTokens = (rs q).generatedTokens := by
  unfold markAll; split_ifs <;> rfl

@[simp] theorem markAll_maxNewTokens :
    (rs.markAll l state q).maxNewTokens = (rs q).maxNewTokens := by
  unfold markAll; split_ifs <;> rfl

theorem markAll_state : (rs.markAll l state q).state = if q ∈ l then state else (rs q).state := by
  unfold markAll; split_ifs <;> rfl

@[simp] theorem setState_id : (rs.setState r state q).id = (rs q).id := by
  rw [setState_eq_markAll, markAll_id]

theorem setState_state :
    (rs.setState r state q).state = if q = r then state else (rs q).state := by
  rw [setState_eq_markAll, markAll_state]
  simp only [List.mem_singleton]

theorem markAll_of_notMem (h : q ∉ l) : rs.markAll l state q = rs q := if_neg h

@[simp] theorem markAll_nil : rs.markAll [] state = rs := by
  funext q
  simp [markAll]

theorem markAll_markAll (l' : List RequestRef) :
    (rs.markAll l state).markAll l' state = rs.markAll (l ++ l') state := by
  funext q
  simp only [markAll, List.mem_append]
  by_cases hl : q ∈ l <;> by_cases hl' : q ∈ l' <;> simp [hl, hl']

theorem markAll_of_state {rs : Requests} {l : List RequestRef} {state : RequestState}
    (h : ∀ r ∈ l, (rs r).state = state) : rs.markAll l state = rs := by
  funext q
  simp only [markAll]
  split_ifs with hq
  · rw [← h q hq]
  · rfl

end Requests

def Request.keeps (r : Request) : Bool := !r.isFinished && r.state = .running

theorem Request.keeps_iff (r : Request) :
    r.keeps = true ↔ r.isFinished = false ∧ r.state = .running := by
  simp [keeps]

namespace BatcherState

theorem keeps_markAll_finished (rs : Requests) (l : List RequestRef) (q : RequestRef) :
    (rs.markAll l .finished q).keeps = if q ∈ l then false else (rs q).keeps := by
  split_ifs with h
  · simp [Request.keeps, Requests.markAll_state, h]
  · rw [Requests.markAll_of_notMem _ _ _ _ h]

theorem filter_fold (running : List RequestRef) (acc : ActiveRunning) :
    let acc' := running.foldl filterStep acc
    acc'.activeRunning =
        acc.activeRunning ++ running.filter (fun r => (acc.requests r).keeps) ∧
      acc'.requests =
        acc.requests.markAll (running.filter fun r => !(acc.requests r).keeps) .finished ∧
      ∀ k, acc'.requestMap.lookup k =
        if ∃ r ∈ running, (acc.requests r).keeps = false ∧ (acc.requests r).id = k then none
        else acc.requestMap.lookup k := by
  induction running generalizing acc with
  | nil => simp
  | cons r rest ih =>
    obtain ⟨hactive, hrequests, hmap⟩ := ih (filterStep acc r)
    cases hk : (acc.requests r).keeps with
    | true =>
      have hstep : filterStep acc r =
          { acc with activeRunning := acc.activeRunning ++ [r] } := if_pos hk
      rw [hstep] at hactive hrequests hmap
      simp only [List.foldl_cons, hstep]
      refine ⟨by simp [hactive, hk], by simp [hrequests, hk], fun k => ?_⟩
      rw [hmap]
      simp only [List.mem_cons, exists_eq_or_imp, hk, Bool.true_eq_false, false_and, false_or]
    | false =>
      have hstep : filterStep acc r =
          { acc with
            requests := acc.requests.markAll [r] .finished
            requestMap := acc.requestMap.erase (acc.requests r).id } := by
        rw [← Requests.setState_eq_markAll]
        exact if_neg (by simpa [Request.keeps] using hk)
      have hkeeps : ∀ q, ((filterStep acc r).requests q).keeps = (acc.requests q).keeps := by
        intro q
        rw [hstep, keeps_markAll_finished]
        split_ifs with hq
        · rw [List.mem_singleton.mp hq, hk]
        · rfl
      have hids : ∀ q, ((filterStep acc r).requests q).id = (acc.requests q).id := by
        intro q
        rw [hstep]
        exact Requests.markAll_id _ _ _ _
      simp only [List.foldl_cons]
      refine ⟨?_, ?_, fun k => ?_⟩
      · rw [hactive]
        simp only [hkeeps]
        rw [hstep]
        simp [hk]
      · rw [hrequests]
        simp only [hkeeps]
        rw [hstep, Requests.markAll_markAll]
        simp [hk]
      · rw [hmap]
        simp only [hkeeps, hids]
        simp only [hstep, lookup_erase_ite, List.mem_cons, exists_eq_or_imp, hk, true_and]
        by_cases hid : (acc.requests r).id = k
        · simp [hid]
        · simp [hid, Ne.symm hid]

theorem decodeLoop_eq (maxNumBatchedTokens : ℕ) (running : List RequestRef) (n : ℕ)
    (h : n + running.length ≤ maxNumBatchedTokens) :
    decodeLoop maxNumBatchedTokens running n = (running, n + running.length, false) := by
  induction running generalizing n with
  | nil => rfl
  | cons r rest ih =>
    rw [List.length_cons] at h
    have hnext := ih (n + 1) (by omega)
    simp only [decodeLoop, hnext, List.length_cons]
    rw [if_pos (by omega), Nat.add_right_comm, Nat.add_assoc]

variable {Q : Type}

theorem updateRequestsState_eq (s : BatcherState Q) (finishedIds : List ℕ) :
    (s.updateRequestsState finishedIds).requests =
      s.requests.markAll (finishedIds.filterMap fun id => s.batcher.requestMap.lookup id)
        .finished := by
  simp only [updateRequestsState]
  induction finishedIds generalizing s with
  | nil => simp
  | cons id rest ih =>
    rw [List.foldl_cons]
    apply (ih { s with requests := updateStep s.batcher.requestMap s.requests id }).trans
    cases hid : s.batcher.requestMap.lookup id with
    | none => simp only [updateStep, hid, List.filterMap_cons]
    | some r =>
      simp only [updateStep, hid, List.filterMap_cons, Requests.setState_eq_markAll,
        Requests.markAll_markAll, List.singleton_append]

def dropped (s : BatcherState Q) : List RequestRef :=
  s.batcher.runningRequests.filter fun r => !(s.requests r).keeps

theorem mem_dropped {s : BatcherState Q} {r : RequestRef} :
    r ∈ s.dropped ↔ r ∈ s.batcher.runningRequests ∧ (s.requests r).keeps = false := by
  simp [dropped]

def filteredRequests (s : BatcherState Q) : Requests := s.requests.markAll s.dropped .finished

variable [PriorityQueue Q RequestRef]

def promptLengths (rs : Requests) (l : List RequestRef) : ℕ :=
  (l.map fun r => (rs r).promptTokens.length).sum

structure AdmitSpec (maxNumSeqs maxNumBatchedTokens : ℕ) (acc acc' : Admission Q)
    (skipped admitted deferred : List RequestRef) : Prop where
  items_eq : items acc.waitingQueue =
    (skipped : Multiset RequestRef) + (admitted : Multiset RequestRef) +
      (deferred : Multiset RequestRef) + items acc'.waitingQueue
  running_eq : acc'.runningRequests = acc.runningRequests ++ admitted
  prefill_eq : acc'.prefillRequests = acc.prefillRequests ++ admitted
  deferred_eq : acc'.deferredWaiting = acc.deferredWaiting ++ deferred
  requests_eq : acc'.requests = acc.requests.markAll admitted .running
  tokens_eq : acc'.allocatedTokens = acc.allocatedTokens + promptLengths acc.requests admitted
  skipped_finished : ∀ r ∈ skipped, (acc.requests r).state = .finished
  admitted_unfinished : ∀ r ∈ admitted, (acc.requests r).state ≠ .finished
  seqs_le : acc.runningRequests.length ≤ maxNumSeqs → acc'.runningRequests.length ≤ maxNumSeqs
  tokens_le : acc.allocatedTokens ≤ maxNumBatchedTokens →
    acc'.allocatedTokens ≤ maxNumBatchedTokens

variable {maxNumSeqs maxNumBatchedTokens : ℕ}

theorem AdmitSpec.refl (acc : Admission Q) :
    AdmitSpec maxNumSeqs maxNumBatchedTokens acc acc [] [] [] := by
  constructor <;> simp [promptLengths]

theorem AdmitSpec.skip {acc acc' : Admission Q} {candidate : RequestRef} {rest : Q}
    {skipped admitted deferred : List RequestRef}
    (hpop : items acc.waitingQueue = candidate ::ₘ items rest)
    (hs : (acc.requests candidate).state = .finished)
    (h : AdmitSpec maxNumSeqs maxNumBatchedTokens { acc with waitingQueue := rest } acc'
      skipped admitted deferred) :
    AdmitSpec maxNumSeqs maxNumBatchedTokens acc acc' (candidate :: skipped) admitted deferred where
  items_eq := by
    rw [hpop, show items rest = _ from h.items_eq, ← Multiset.cons_coe]
    simp only [Multiset.cons_add]
  running_eq := h.running_eq
  prefill_eq := h.prefill_eq
  deferred_eq := h.deferred_eq
  requests_eq := h.requests_eq
  tokens_eq := h.tokens_eq
  skipped_finished := List.forall_mem_cons.mpr ⟨hs, h.skipped_finished⟩
  admitted_unfinished := h.admitted_unfinished
  seqs_le := h.seqs_le
  tokens_le := h.tokens_le

theorem AdmitSpec.accept {acc acc' : Admission Q} {candidate : RequestRef} {rest : Q}
    {skipped admitted deferred : List RequestRef}
    (hpop : items acc.waitingQueue = candidate ::ₘ items rest)
    (hs : (acc.requests candidate).state ≠ .finished)
    (hlen : acc.runningRequests.length < maxNumSeqs)
    (hfit : acc.allocatedTokens + (acc.requests candidate).promptTokens.length ≤
      maxNumBatchedTokens)
    (h : AdmitSpec maxNumSeqs maxNumBatchedTokens
      { acc with
        waitingQueue := rest
        requests := acc.requests.setState candidate .running
        prefillRequests := acc.prefillRequests ++ [candidate]
        runningRequests := acc.runningRequests ++ [candidate]
        allocatedTokens := acc.allocatedTokens + (acc.requests candidate).promptTokens.length }
      acc' skipped admitted deferred) :
    AdmitSpec maxNumSeqs maxNumBatchedTokens acc acc' skipped (candidate :: admitted) deferred := by
  have hstate (r : RequestRef) := acc.requests.setState_state candidate r .running
  constructor
  · rw [hpop, show items rest = _ from h.items_eq, ← Multiset.cons_coe]
    simp only [Multiset.cons_add, Multiset.add_cons]
  · simpa using h.running_eq
  · simpa using h.prefill_eq
  · exact h.deferred_eq
  · rw [h.requests_eq, Requests.setState_eq_markAll, Requests.markAll_markAll]
    rfl
  · rw [h.tokens_eq]
    simp only [promptLengths, List.map_cons, List.sum_cons, Requests.setState_eq_markAll,
      Requests.markAll_promptTokens, Nat.add_assoc]
  · intro r hr
    have hfin := h.skipped_finished r hr
    rw [hstate] at hfin
    split_ifs at hfin
    exact hfin
  · intro r hr
    rcases List.mem_cons.mp hr with rfl | hr
    · exact hs
    · have hunf := h.admitted_unfinished r hr
      rw [hstate] at hunf
      split_ifs at hunf with heq
      · exact heq ▸ hs
      · exact hunf
  · intro _
    apply h.seqs_le
    simpa using hlen
  · exact fun _ => h.tokens_le hfit

theorem admitLoop_spec (maxNumSeqs maxNumBatchedTokens turns : ℕ) (acc : Admission Q) :
    ∃ skipped admitted deferred,
      AdmitSpec maxNumSeqs maxNumBatchedTokens acc
        (admitLoop maxNumSeqs maxNumBatchedTokens turns acc) skipped admitted deferred := by
  induction turns generalizing acc with
  | zero => exact ⟨_, _, _, .refl acc⟩
  | succ turns ih =>
    simp only [admitLoop]
    split_ifs with hlen
    · split
      · exact ⟨_, _, _, .refl acc⟩
      · rename_i candidate rest hpop
        have hitems := pop_some hpop
        split_ifs with hs hfit
        · obtain ⟨skipped, admitted, deferred, h⟩ := ih { acc with waitingQueue := rest }
          exact ⟨_, _, _, h.skip hitems hs⟩
        · obtain ⟨skipped, admitted, deferred, h⟩ := ih _
          exact ⟨_, _, _, h.accept hitems hs hlen hfit⟩
        · refine ⟨[], [], [candidate], ?_⟩
          constructor <;> simp [promptLengths, hitems]
    · exact ⟨_, _, _, .refl acc⟩

theorem items_pushAll (less : RequestRef → RequestRef → Bool) (l : List RequestRef) (q : Q) :
    items (l.foldl (fun q r => push less r q) q) = (l : Multiset RequestRef) + items q := by
  induction l generalizing q with
  | nil => simp
  | cons r l ih =>
    rw [List.foldl_cons, ih, items_push, ← Multiset.cons_coe, Multiset.cons_add,
      Multiset.add_cons]

/-- The effect of one `schedule_step` that stays inside the decode budget. -/
structure Scheduled (s s' : BatcherState Q) (result : BatchStepResult)
    (skipped : List RequestRef) : Prop where
  decode_eq : result.decodeRequests =
    s.batcher.runningRequests.filter fun r => (s.requests r).keeps
  running_eq : s'.batcher.runningRequests = result.decodeRequests ++ result.prefillRequests
  items_eq : items s.batcher.waitingQueue =
    (skipped : Multiset RequestRef) + (result.prefillRequests : Multiset RequestRef) +
      items s'.batcher.waitingQueue
  requests_eq : s'.requests = s.filteredRequests.markAll result.prefillRequests .running
  map_eq : ∀ id, s'.batcher.requestMap.lookup id =
    if ∃ r ∈ s.batcher.runningRequests, (s.requests r).keeps = false ∧ (s.requests r).id = id
    then none else s.batcher.requestMap.lookup id
  tokens_eq : result.totalBatchedTokens =
    result.decodeRequests.length + promptLengths s.requests result.prefillRequests
  tokens_le : result.totalBatchedTokens ≤ s.batcher.maxNumBatchedTokens
  seqs_le : s.batcher.runningRequests.length ≤ s.batcher.maxNumSeqs →
    s'.batcher.runningRequests.length ≤ s.batcher.maxNumSeqs
  preempted_eq : result.preemptedCount = 0
  maxNumSeqs_eq : s'.batcher.maxNumSeqs = s.batcher.maxNumSeqs
  maxNumBatchedTokens_eq : s'.batcher.maxNumBatchedTokens = s.batcher.maxNumBatchedTokens
  skipped_finished : ∀ r ∈ skipped, (s.filteredRequests r).state = .finished
  prefill_unfinished : ∀ r ∈ result.prefillRequests, (s.filteredRequests r).state ≠ .finished

/-- A batch has no request twice when the queue and the running requests have none and share none
that is scheduled. -/
theorem Scheduled.nodup {s s' : BatcherState Q} {result : BatchStepResult}
    {skipped : List RequestRef} (hs : Scheduled s s' result skipped)
    (hitems : (items s.batcher.waitingQueue).Nodup) (hrunning : s.batcher.runningRequests.Nodup)
    (hapart : ∀ r ∈ result.prefillRequests, r ∉ result.decodeRequests) :
    (result.prefillRequests ++ result.decodeRequests).Nodup := by
  rw [hs.items_eq, Multiset.nodup_add, Multiset.nodup_add] at hitems
  apply List.nodup_append'.mpr ⟨Multiset.coe_nodup.mp hitems.1.2.1, _, fun r hr => hapart r hr⟩
  rw [hs.decode_eq]
  exact hrunning.filter _

omit [PriorityQueue Q RequestRef] in
theorem filterRunning_running (s : BatcherState Q) : s.filterRunning.batcher.runningRequests =
    s.batcher.runningRequests.filter fun r => (s.requests r).keeps :=
  (filter_fold s.batcher.runningRequests ⟨[], s.requests, s.batcher.requestMap⟩).1

omit [PriorityQueue Q RequestRef] in
theorem filterRunning_requests (s : BatcherState Q) :
    s.filterRunning.requests = s.filteredRequests :=
  (filter_fold s.batcher.runningRequests ⟨[], s.requests, s.batcher.requestMap⟩).2.1

omit [PriorityQueue Q RequestRef] in
theorem filterRunning_length_le (s : BatcherState Q) :
    s.filterRunning.batcher.runningRequests.length ≤ s.batcher.runningRequests.length := by
  rw [filterRunning_running]
  exact List.length_filter_le _ _

omit [PriorityQueue Q RequestRef] in
/-- Within the budget every kept request decodes and nothing is preempted. -/
theorem decodeLoop_filterRunning {s : BatcherState Q}
    (h : s.batcher.runningRequests.length ≤ s.batcher.maxNumBatchedTokens) :
    decodeLoop s.filterRunning.batcher.maxNumBatchedTokens
      s.filterRunning.batcher.runningRequests 0 =
        (s.filterRunning.batcher.runningRequests,
          s.filterRunning.batcher.runningRequests.length, false) := by
  have hle := s.filterRunning_length_le
  have hdecode := decodeLoop_eq s.batcher.maxNumBatchedTokens
    s.filterRunning.batcher.runningRequests 0 (by omega)
  rwa [Nat.zero_add] at hdecode

theorem scheduleStep_spec {s : BatcherState Q}
    (h : s.batcher.runningRequests.length ≤ s.batcher.maxNumBatchedTokens) :
    ∃ skipped, Scheduled s (scheduleStep s).2 (scheduleStep s).1 skipped := by
  obtain ⟨-, -, hmap⟩ := filter_fold s.batcher.runningRequests
    ⟨[], s.requests, s.batcher.requestMap⟩
  have hle := s.filterRunning_length_le
  have hfiltered := s.filterRunning_requests
  simp only [scheduleStep, decodeLoop_filterRunning h, Bool.false_eq_true, if_false]
  obtain ⟨skipped, admitted, deferred, hadm⟩ := admitLoop_spec
    s.filterRunning.batcher.maxNumSeqs s.filterRunning.batcher.maxNumBatchedTokens
    (Multiset.card (items s.filterRunning.batcher.waitingQueue))
    ⟨s.filterRunning.batcher.waitingQueue, s.filterRunning.batcher.runningRequests,
      s.filterRunning.requests, [], [], s.filterRunning.batcher.runningRequests.length⟩
  obtain rfl := (List.nil_append _).symm.trans hadm.prefill_eq.symm
  have hdeferred := (hadm.deferred_eq.trans (List.nil_append _)).symm
  refine ⟨skipped, ?_⟩
  constructor
  · exact s.filterRunning_running
  · exact hadm.running_eq
  · rw [items_pushAll, ← hdeferred, ← add_assoc]
    exact hadm.items_eq
  · rw [← hfiltered]
    exact hadm.requests_eq
  · exact hmap
  · apply hadm.tokens_eq.trans
    simp only [promptLengths, hfiltered, filteredRequests, Requests.markAll_promptTokens]
  · exact hadm.tokens_le (hle.trans h)
  · exact fun hs => hadm.seqs_le (hle.trans hs)
  · rfl
  · rfl
  · rfl
  · rw [← hfiltered]
    exact hadm.skipped_finished
  · rw [← hfiltered]
    exact hadm.admitted_unfinished

end BatcherState
end CudaForge.Scheduler
