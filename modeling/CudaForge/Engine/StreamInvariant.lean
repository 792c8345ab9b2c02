import CudaForge.Engine.TokenStreams

/-! Every call keeps the submitted requests on their reference streams. -/
namespace CudaForge.Engine
open MachineWord FiniteMap PriorityQueue Scheduler

namespace RunnerSystem
variable {Q : Type} [PriorityQueue Q RequestRef]
variable {vocabSize : ℕ} {eosTokenId : ℤ} {objects : Requests}

theorem Phase.congr {s s' : RunnerSystem Q} {r : RequestRef}
    (h : Phase vocabSize eosTokenId objects s r)
    (hrequest : s'.runner.batcher.requests r = s.runner.batcher.requests r)
    (hitems : r ∈ items s'.runner.batcher.batcher.waitingQueue ↔
      r ∈ items s.runner.batcher.batcher.waitingQueue)
    (hrunning : r ∈ s'.runner.batcher.batcher.runningRequests ↔
      r ∈ s.runner.batcher.batcher.runningRequests)
    (hadmitted : r ∈ s'.admitted ↔ r ∈ s.admitted)
    (hcancelled : (objects r).id ∈ s'.runner.cancelledRequests ↔
      (objects r).id ∈ s.runner.cancelledRequests) :
    Phase vocabSize eosTokenId objects s' r := by
  cases h with
  | waiting hs hg hi hr ha hc =>
    exact .waiting (hrequest ▸ hs) (hrequest ▸ hg) (hitems.mpr hi) (mt hrunning.mp hr)
      (mt hadmitted.mp ha) (mt hcancelled.mp hc)
  | running hs hpos hlt hr hi hc =>
    exact .running (hrequest ▸ hs) (hrequest ▸ hpos) (hrequest ▸ hlt) (hrunning.mpr hr)
      (mt hitems.mp hi) (mt hcancelled.mp hc)
  | ended hs hg => exact .ended (hrequest ▸ hs) (hrequest ▸ hg)
  | cancelled hs hr hc =>
    exact .cancelled (hrequest ▸ hs) (mt hrunning.mp hr) (hcancelled.mpr hc)

/-- A request is still tracked when neither it nor its outputs changed. -/
theorem Tracked.congr {s s' : RunnerSystem Q} {r : RequestRef}
    (h : Tracked vocabSize eosTokenId objects s r)
    (hrequest : s'.runner.batcher.requests r = s.runner.batcher.requests r)
    (houtputs : s'.outputs (objects r).id = s.outputs (objects r).id)
    (hphase : Phase vocabSize eosTokenId objects s' r) :
    Tracked vocabSize eosTokenId objects s' r where
  id_eq := hrequest ▸ h.id_eq
  prompt_eq := hrequest ▸ h.prompt_eq
  max_eq := hrequest ▸ h.max_eq
  generated_eq := by rw [hrequest]; exact h.generated_eq
  generated_le := hrequest ▸ h.generated_le
  outputs_eq := by rw [hrequest, houtputs]; exact h.outputs_eq
  phase := hphase

theorem Streaming.popAll {s : RunnerSystem Q} (h : Streaming vocabSize eosTokenId objects s) :
    Streaming vocabSize eosTokenId objects
      { s with
        runner := { s.runner with streamBuffer := ⟨[]⟩ }
        popped := s.popped ++ s.runner.streamBuffer.queue } := by
  refine { h with outputs_submitted := ?_, tracked := fun r hr => ?_ }
  · rw [List.append_nil]
    exact h.outputs_submitted
  · refine (h.tracked r hr).congr rfl ?_ ((h.tracked r hr).phase.congr rfl .rfl .rfl .rfl .rfl)
    simp only [outputs, List.append_nil]

/-- An id that no submitted request has is not in the map and has no outputs. -/
theorem Streaming.unused {s : RunnerSystem Q} (h : Streaming vocabSize eosTokenId objects s)
    {id : ℕ} (hid : ∀ q ∈ s.submitted, (objects q).id ≠ id) :
    id ∉ s.runner.batcher.batcher.requestMap ∧ s.outputs id = [] := by
  constructor
  · intro hm
    obtain ⟨r, hr⟩ := Option.isSome_iff_exists.mp (AList.lookup_isSome.mpr hm)
    obtain ⟨hsub, he⟩ := h.map_submitted id r hr
    exact hid r hsub he
  · rw [outputs, List.filter_eq_nil_iff]
    intro o ho he
    obtain ⟨r, hsub, hr⟩ := h.outputs_submitted o ho
    exact hid r hsub (hr.trans (of_decide_eq_true he))

theorem Streaming.addRequest {s : RunnerSystem Q} (h : Streaming vocabSize eosTokenId objects s)
    (hobjects : ∀ r, (objects r).state = .waiting ∧ (objects r).generatedTokens = [])
    {r : RequestRef} (hr : s.Fresh r) :
    Streaming vocabSize eosTokenId objects
      { s with
        runner := { s.runner with batcher := (s.runner.batcher.addRequest (some r)).2 }
        submitted := s.submitted ++ [r] } := by
  obtain ⟨hnew, hids, hcancelled, hsubmit⟩ := hr
  have hobject := h.untouched r hnew
  rw [hobject] at hcancelled hsubmit hids
  have hids' : ∀ q ∈ s.submitted, (objects q).id ≠ (objects r).id := by
    intro q hq
    rw [← (h.tracked q hq).id_eq]
    exact hids q hq
  obtain ⟨hunmapped, hempty⟩ := h.unused hids'
  have hsame : s.runner.batcher.requests.setState r .waiting = s.runner.batcher.requests := by
    rw [Requests.setState_eq_markAll]
    apply Requests.markAll_of_state
    intro q hq
    rw [List.mem_singleton.mp hq, hobject]
    exact (hobjects r).1
  have hadd := h.budgeted.addRequest (some r)
  have hprompt : (s.runner.batcher.requests r).promptTokens.isEmpty = false := by
    rw [hobject]
    simpa using hsubmit.1
  have hmap : (s.runner.batcher.requests r).id ∉ s.runner.batcher.batcher.requestMap := by
    rw [hobject]
    exact hunmapped
  simp only [BatcherState.addRequest, hprompt, hmap, Bool.false_eq_true, if_false, hsame]
    at hadd ⊢
  have hold : ∀ q ∈ s.submitted, q ≠ r := by rintro q hq rfl; exact hnew hq
  constructor
  · exact h.vocabSize_eq
  · exact h.eosTokenId_eq
  · exact hadd
  · exact fun q hq => h.untouched q fun hq' => hq (List.mem_append_left _ hq')
  · intro q hq
    rcases List.mem_append.mp hq with hq | hq
    · exact h.submittable q hq
    · obtain rfl := List.mem_singleton.mp hq
      rw [h.vocabSize_eq] at hsubmit
      exact hsubmit
  · intro p hp q hq he
    rcases List.mem_append.mp hp with hp | hp <;> rcases List.mem_append.mp hq with hq | hq
    · exact h.id_inj p hp q hq he
    · rw [List.mem_singleton.mp hq] at he
      exact absurd he (hids' p hp)
    · rw [List.mem_singleton.mp hp] at he
      exact absurd he.symm (hids' q hq)
    · rw [List.mem_singleton.mp hp, List.mem_singleton.mp hq]
  · intro q hq
    simp only [items_push, Multiset.mem_cons] at hq
    rcases hq with rfl | hq
    · exact List.mem_append_right _ (List.mem_singleton_self _)
    · exact List.mem_append_left _ (h.items_submitted q hq)
  · exact fun q hq => List.mem_append_left _ (h.running_submitted q hq)
  · exact fun q hq => List.mem_append_left _ (h.admitted_submitted q hq)
  · intro id q hq
    rw [lookup_insert_ite] at hq
    split_ifs at hq with hid
    · obtain rfl := Option.some.inj hq
      exact ⟨List.mem_append_right _ (List.mem_singleton_self _), by rw [hid, hobject]⟩
    · obtain ⟨hsub, he⟩ := h.map_submitted id q hq
      exact ⟨List.mem_append_left _ hsub, he⟩
  · intro o ho
    obtain ⟨q, hq, he⟩ := h.outputs_submitted o ho
    exact ⟨q, List.mem_append_left _ hq, he⟩
  · simp only [items_push, Multiset.nodup_cons]
    exact ⟨fun hm => hnew (h.items_submitted r hm), h.items_nodup⟩
  · exact h.running_nodup
  · intro q hq
    rcases List.mem_append.mp hq with hq | hq
    · refine (h.tracked q hq).congr rfl rfl ((h.tracked q hq).phase.congr rfl ?_ .rfl .rfl .rfl)
      simp only [items_push, Multiset.mem_cons, hold q hq, false_or]
    · obtain rfl := List.mem_singleton.mp hq
      have hgen : (s.runner.batcher.requests q).generatedTokens = [] := by
        rw [hobject]
        exact (hobjects q).2
      constructor
      · exact congrArg Request.id hobject
      · exact congrArg Request.promptTokens hobject
      · exact congrArg Request.maxNewTokens hobject
      · simp [hgen]
      · simp [hgen]
      · simp only [hgen, List.length_nil, List.take_zero]
        exact hempty
      · refine .waiting ?_ hgen ?_ (mt (h.running_submitted q) hnew)
          (mt (h.admitted_submitted q) hnew) hcancelled
        · rw [hobject]
          exact (hobjects q).1
        · simp only [items_push, Multiset.mem_cons, true_or]

/-- Cancelling an id that the batcher does not know only concerns requests that have ended. -/
theorem Streaming.cancel_unknown {s : RunnerSystem Q}
    (h : Streaming vocabSize eosTokenId objects s) {requestId : ℕ}
    (hid : s.runner.batcher.batcher.requestMap.lookup requestId = none) :
    Streaming vocabSize eosTokenId objects
      { s with
        runner := { s.runner with
          cancelledRequests := insert requestId s.runner.cancelledRequests } } := by
  refine { h with tracked := fun r hr => ?_ }
  have ht := h.tracked r hr
  refine ht.congr rfl rfl ?_
  by_cases he : (objects r).id = requestId
  · have hnot : s.runner.batcher.batcher.requestMap.lookup (s.runner.batcher.requests r).id ≠
        some r := by
      rw [ht.id_eq, he, hid]
      exact (Option.some_ne_none r).symm
    cases ht.phase with
    | waiting hs hg hi =>
      exact absurd (h.budgeted.waiting_mapped r hi (by rw [hs]; exact RequestState.noConfusion))
        hnot
    | running hs hpos hlt hr => exact absurd (h.budgeted.mapped r hr) hnot
    | ended hs hg => exact .ended hs hg
    | cancelled hs hr hc => exact .cancelled hs hr (Finset.mem_insert_of_mem hc)
  · refine ht.phase.congr rfl .rfl .rfl .rfl ?_
    simp only [Finset.mem_insert, he, false_or]

theorem Streaming.cancel_known {s : RunnerSystem Q}
    (h : Streaming vocabSize eosTokenId objects s) {requestId : ℕ} {q : RequestRef}
    (hq : s.runner.batcher.batcher.requestMap.lookup requestId = some q) :
    Streaming vocabSize eosTokenId objects
      { s with runner := s.runner.cancelRequest requestId } := by
  have hbudgeted := h.budgeted.cancelRequest requestId
  obtain ⟨hsub, hqid⟩ := h.map_submitted requestId q hq
  simp only [ModelRunner.cancelRequest, BatcherState.cancelRequest, hq,
    Requests.setState_eq_markAll, Requests.markAll_id] at hbudgeted ⊢
  have hother : ∀ r ∈ s.submitted, r ≠ q → (objects r).id ≠ requestId := by
    rintro r hr hne rfl
    exact hne (h.id_inj r hr q hsub hqid.symm)
  have hrequest : ∀ r, r ≠ q →
      s.runner.batcher.requests.markAll [q] .finished r = s.runner.batcher.requests r :=
    fun r hne => Requests.markAll_of_notMem _ _ _ _ (by simpa using hne)
  constructor
  · exact h.vocabSize_eq
  · exact h.eosTokenId_eq
  · exact hbudgeted
  · intro r hr
    rw [← h.untouched r hr]
    exact hrequest r (by rintro rfl; exact hr hsub)
  · exact h.submittable
  · exact h.id_inj
  · exact h.items_submitted
  · exact fun r hr => h.running_submitted r (List.mem_of_mem_filter hr)
  · exact h.admitted_submitted
  · intro id r hr
    rw [lookup_erase_ite] at hr
    split_ifs at hr
    exact h.map_submitted id r hr
  · exact h.outputs_submitted
  · exact h.items_nodup
  · exact h.running_nodup.filter _
  · intro r hr
    have ht := h.tracked r hr
    by_cases hne : r = q
    · subst hne
      refine ⟨?_, ?_, ?_, ?_, ?_, ?_, .cancelled ?_ ?_ ?_⟩
      · rw [Requests.markAll_id, ht.id_eq]
      · rw [Requests.markAll_promptTokens, ht.prompt_eq]
      · rw [Requests.markAll_maxNewTokens, ht.max_eq]
      · rw [Requests.markAll_generatedTokens]
        exact ht.generated_eq
      · rw [Requests.markAll_generatedTokens]
        exact ht.generated_le
      · rw [Requests.markAll_generatedTokens]
        exact ht.outputs_eq
      · simp only [Requests.markAll_state, List.mem_singleton, if_true]
      · intro hm
        have hne := of_decide_eq_true (List.mem_filter.mp hm).2
        exact hne (ht.id_eq.trans hqid)
      · rw [hqid]
        exact Finset.mem_insert_self _ _
    · refine ht.congr (hrequest r hne) rfl (ht.phase.congr (hrequest r hne) .rfl ?_ .rfl ?_)
      · simp only [List.mem_filter, ht.id_eq, hother r hr hne, ne_eq, not_false_eq_true,
          decide_true, and_true]
      · simp only [Finset.mem_insert, hother r hr hne, false_or]

theorem Streaming.cancelRequest {s : RunnerSystem Q}
    (h : Streaming vocabSize eosTokenId objects s) (requestId : ℕ) :
    Streaming vocabSize eosTokenId objects
      { s with runner := s.runner.cancelRequest requestId } := by
  cases hid : s.runner.batcher.batcher.requestMap.lookup requestId with
  | none =>
    have hsame := h.cancel_unknown hid
    simpa only [ModelRunner.cancelRequest, BatcherState.cancelRequest, hid] using hsame
  | some q => exact h.cancel_known hid

section
variable {s : RunnerSystem Q} {skipped : List RequestRef}

/-- Only requests that wait for their first token are admitted. -/
theorem Streaming.prefill_waiting (h : Streaming vocabSize eosTokenId objects s)
    (hs : BatcherState.Scheduled s.runner.batcher s.runner.batcher.scheduleStep.2
      s.runner.batcher.scheduleStep.1 skipped) {r : RequestRef}
    (hr : r ∈ s.runner.batcher.scheduleStep.1.prefillRequests) :
    r ∈ s.submitted ∧ (s.runner.batcher.requests r).generatedTokens = [] ∧
      r ∉ s.runner.batcher.batcher.runningRequests ∧
      (objects r).id ∉ s.runner.cancelledRequests := by
  have hitems : r ∈ items s.runner.batcher.batcher.waitingQueue := by
    rw [hs.items_eq, Multiset.mem_add, Multiset.mem_add]
    exact Or.inl (Or.inr hr)
  have hsub := h.items_submitted r hitems
  have hunfinished : (s.runner.batcher.requests r).state ≠ .finished := by
    intro hf
    apply hs.prefill_unfinished r hr
    rw [BatcherState.filteredRequests, Requests.markAll_state, hf, ite_self]
  cases (h.tracked r hsub).phase with
  | waiting _ hg _ hrun _ hc => exact ⟨hsub, hg, hrun, hc⟩
  | running _ _ _ _ hi => exact absurd hitems hi
  | ended hf => exact absurd hf hunfinished
  | cancelled hf => exact absurd hf hunfinished

/-- Only requests inside their stream are decoded. -/
theorem Streaming.decode_running (h : Streaming vocabSize eosTokenId objects s)
    (hs : BatcherState.Scheduled s.runner.batcher s.runner.batcher.scheduleStep.2
      s.runner.batcher.scheduleStep.1 skipped) {r : RequestRef}
    (hr : r ∈ s.runner.batcher.scheduleStep.1.decodeRequests) :
    r ∈ s.submitted ∧ 0 < (s.runner.batcher.requests r).generatedTokens.length ∧
      (s.runner.batcher.requests r).generatedTokens.length <
        streamLength vocabSize eosTokenId (objects r) ∧
      r ∈ s.runner.batcher.batcher.runningRequests ∧
      r ∉ items s.runner.batcher.batcher.waitingQueue ∧
      (s.runner.batcher.requests r).state = .running ∧
      (objects r).id ∉ s.runner.cancelledRequests := by
  rw [hs.decode_eq] at hr
  obtain ⟨hrun, hkeeps⟩ := List.mem_filter.mp hr
  have hsub := h.running_submitted r hrun
  have hstate := (Request.keeps_iff _).mp hkeeps
  cases (h.tracked r hsub).phase with
  | waiting hw => exact absurd (hw.symm.trans hstate.2) RequestState.noConfusion
  | running _ hpos hlt _ hi hc => exact ⟨hsub, hpos, hlt, hrun, hi, hstate.2, hc⟩
  | ended hf => exact absurd (hf.symm.trans hstate.2) RequestState.noConfusion
  | cancelled hf => exact absurd (hf.symm.trans hstate.2) RequestState.noConfusion

theorem Streaming.scheduled_nodup (h : Streaming vocabSize eosTokenId objects s)
    (hs : BatcherState.Scheduled s.runner.batcher s.runner.batcher.scheduleStep.2
      s.runner.batcher.scheduleStep.1 skipped) :
    (s.runner.batcher.scheduleStep.1.prefillRequests ++
      s.runner.batcher.scheduleStep.1.decodeRequests).Nodup := by
  apply hs.nodup h.items_nodup h.running_nodup
  intro r hprefill hdecode
  exact (h.prefill_waiting hs hprefill).2.2.1 (h.decode_running hs hdecode).2.2.2.1

/-- No scheduled request has been cancelled, so the filter keeps the batch. -/
theorem Streaming.filterCancelledRequests_eq (h : Streaming vocabSize eosTokenId objects s)
    (hs : BatcherState.Scheduled s.runner.batcher s.runner.batcher.scheduleStep.2
      s.runner.batcher.scheduleStep.1 skipped) :
    ({ s.runner with batcher := s.runner.batcher.scheduleStep.2 } :
      ModelRunner Q).filterCancelledRequests s.runner.batcher.scheduleStep.1 =
        s.runner.batcher.scheduleStep.1 := by
  have hid : ∀ r, (s.runner.batcher.scheduleStep.2.requests r).id =
      (s.runner.batcher.requests r).id := by
    simp [hs.requests_eq, BatcherState.filteredRequests]
  have hprefill : s.runner.batcher.scheduleStep.1.prefillRequests.filter (fun r =>
      !decide ((s.runner.batcher.requests r).id ∈ s.runner.cancelledRequests)) =
      s.runner.batcher.scheduleStep.1.prefillRequests := by
    rw [List.filter_eq_self]
    intro r hr
    obtain ⟨hsub, -, -, hc⟩ := h.prefill_waiting hs hr
    simp [(h.tracked r hsub).id_eq, hc]
  have hdecode : s.runner.batcher.scheduleStep.1.decodeRequests.filter (fun r =>
      !decide ((s.runner.batcher.requests r).id ∈ s.runner.cancelledRequests)) =
      s.runner.batcher.scheduleStep.1.decodeRequests := by
    rw [List.filter_eq_self]
    intro r hr
    obtain ⟨hsub, -, -, -, -, -, hc⟩ := h.decode_running hs hr
    simp [(h.tracked r hsub).id_eq, hc]
  simp only [ModelRunner.filterCancelledRequests, ModelRunner.isCancelled, hid, hprefill, hdecode]

theorem referenceStream_take_succ {req : Request} {k : ℕ}
    (hk : k < streamLength vocabSize eosTokenId req) :
    (referenceStream vocabSize eosTokenId req).take (k + 1) =
      (referenceStream vocabSize eosTokenId req).take k ++
        [⟨req.id, referenceToken vocabSize req (k + 1),
          k + 1 = streamLength vocabSize eosTokenId req⟩] := by
  rw [List.take_add_one]
  congr 1
  simp [referenceStream, hk]

/-- A scheduled request takes the next token of its reference stream. -/
theorem Tracked.advance {s s' : RunnerSystem Q} {r : RequestRef}
    (h : Tracked vocabSize eosTokenId objects s r) (hsubmit : Submittable vocabSize (objects r))
    {sample : Request → ℤ} {req : Request}
    (hreq : req = { s.runner.batcher.requests r with state := .running })
    (hnext : s'.runner.batcher.requests r = Engine.advance eosTokenId sample req)
    (hlt : req.generatedTokens.length < streamLength vocabSize eosTokenId (objects r))
    (hsample : sample req = referenceToken vocabSize (objects r) (req.generatedTokens.length + 1))
    (houtputs : s'.outputs (objects r).id =
      s.outputs (objects r).id ++ [output eosTokenId sample req])
    (hrunning : r ∈ s'.runner.batcher.batcher.runningRequests)
    (hitems : r ∉ items s'.runner.batcher.batcher.waitingQueue)
    (hcancelled : (objects r).id ∉ s'.runner.cancelledRequests) :
    Tracked vocabSize eosTokenId objects s' r := by
  have hid : req.id = (objects r).id := hreq ▸ h.id_eq
  have hmax : req.maxNewTokens = (objects r).maxNewTokens := hreq ▸ h.max_eq
  have hgen : req.generatedTokens = (List.range req.generatedTokens.length).map
      fun i => referenceToken vocabSize (objects r) (i + 1) := by
    rw [hreq]
    exact h.generated_eq
  have hstops := stops_eq hsubmit hmax hlt hsample
  have houtput : output eosTokenId sample req = ⟨(objects r).id,
      referenceToken vocabSize (objects r) (req.generatedTokens.length + 1),
      req.generatedTokens.length + 1 = streamLength vocabSize eosTokenId (objects r)⟩ := by
    rw [output, hid, hsample, hstops]
  have hlen : (s'.runner.batcher.requests r).generatedTokens.length =
      req.generatedTokens.length + 1 := by
    rw [hnext]
    exact List.length_append
  constructor
  · rw [hnext]
    exact hid
  · rw [hnext, hreq]
    exact h.prompt_eq
  · rw [hnext]
    exact hmax
  · rw [hlen, List.range_succ, List.map_append, ← hgen, hnext]
    simp only [Engine.advance, hsample, List.map_cons, List.map_nil]
  · rw [hlen]
    exact hlt
  · have hold : s.outputs (objects r).id =
        (referenceStream vocabSize eosTokenId (objects r)).take req.generatedTokens.length := by
      rw [hreq]
      exact h.outputs_eq
    rw [houtputs, hlen, referenceStream_take_succ hlt, hold, houtput]
  · by_cases hlast : req.generatedTokens.length + 1 =
      streamLength vocabSize eosTokenId (objects r)
    · refine .ended ?_ (hlen.trans hlast)
      rw [hnext]
      simp only [Engine.advance, hstops, hlast, decide_true, if_true]
    · refine .running ?_ ?_ ?_ hrunning hitems hcancelled
      · rw [hnext]
        have hstate : req.state = .running := by rw [hreq]
        simp only [Engine.advance, hstops, hlast, decide_false, Bool.false_eq_true, if_false,
          hstate]
      · rw [hlen]
        exact Nat.succ_pos _
      · rw [hlen]
        exact Nat.lt_of_le_of_ne hlt hlast

/-- Distinct ids single out one request's entry of a batch of outputs. -/
theorem filter_outputs {l : List RequestRef} (hl : l.Nodup) (out : RequestRef → StreamOutput)
    {r : RequestRef} (hid : ∀ q ∈ l, (out q).requestId = (out r).requestId → q = r) :
    (l.map out).filter (fun o => o.requestId = (out r).requestId) =
      if r ∈ l then [out r] else [] := by
  induction l with
  | nil => rfl
  | cons q l ih =>
    obtain ⟨hq, hl⟩ := List.nodup_cons.mp hl
    have hrest := ih hl fun p hp => hid p (List.mem_cons_of_mem _ hp)
    rw [List.map_cons, List.filter_cons, hrest]
    by_cases hqr : q = r
    · subst hqr
      simp [hq]
    · have hne : (out q).requestId ≠ (out r).requestId := fun he =>
        hqr (hid q List.mem_cons_self he)
      simp [hne, Ne.symm hqr]

variable (vocabSize eosTokenId objects) in
/-- What a runner step does to one request and, once it is submitted, to its outputs. -/
structure Stepped (s s' : RunnerSystem Q) (r : RequestRef) (prefill decode : List RequestRef) :
    Prop where
  request_prefill : r ∈ prefill → s'.runner.batcher.requests r =
    advance eosTokenId (prefillToken vocabSize)
      { s.runner.batcher.requests r with state := .running }
  request_decode : r ∈ decode → s'.runner.batcher.requests r =
    advance eosTokenId (decodeToken vocabSize) (s.runner.batcher.requests r)
  request_idle : r ∉ prefill → r ∉ decode →
    s'.runner.batcher.requests r = s.runner.batcher.requests r
  outputs_eq : r ∈ s.submitted → s'.outputs (objects r).id = s.outputs (objects r).id ++
    (if r ∈ prefill then [output eosTokenId (prefillToken vocabSize)
      { s.runner.batcher.requests r with state := .running }] else []) ++
    if r ∈ decode then [output eosTokenId (decodeToken vocabSize) (s.runner.batcher.requests r)]
      else []

/-- A request inside its stream passes the filter of step 1, so it is decoded. -/
theorem Streaming.keeps (h : Streaming vocabSize eosTokenId objects s) {r : RequestRef}
    (hsub : r ∈ s.submitted) (hstate : (s.runner.batcher.requests r).state = .running)
    (hlt : (s.runner.batcher.requests r).generatedTokens.length <
      streamLength vocabSize eosTokenId (objects r)) :
    (s.runner.batcher.requests r).keeps = true := by
  have hn : streamLength vocabSize eosTokenId (objects r) ≤ (objects r).maxNewTokens.toNat :=
    Nat.min_le_left _ _
  rw [Request.keeps_iff]
  refine ⟨?_, hstate⟩
  simp only [Request.isFinished, hstate, (h.tracked r hsub).max_eq,
    (h.submittable r hsub).ofInt_maxNewTokens, Bool.or_eq_false_iff, decide_eq_false_iff_not,
    not_le]
  exact ⟨RequestState.noConfusion, hlt.trans_le hn⟩

/-- Dropping a finished request again changes nothing, and no other one is dropped. -/
theorem Streaming.filteredRequests_eq (h : Streaming vocabSize eosTokenId objects s)
    (r : RequestRef) : s.runner.batcher.filteredRequests r = s.runner.batcher.requests r := by
  rw [BatcherState.filteredRequests, Requests.markAll]
  split_ifs with hd
  · obtain ⟨hrun, hk⟩ := BatcherState.mem_dropped.mp hd
    have hsub := h.running_submitted r hrun
    cases (h.tracked r hsub).phase with
    | waiting _ _ _ hnot => exact absurd hrun hnot
    | running hs _ hlt => exact absurd (h.keeps hsub hs hlt) (by simp [hk])
    | ended hf => rw [← hf]
    | cancelled hf => rw [← hf]
  · rfl

theorem Streaming.executed (h : Streaming vocabSize eosTokenId objects s)
    (hs : BatcherState.Scheduled s.runner.batcher s.runner.batcher.scheduleStep.2
      s.runner.batcher.scheduleStep.1 skipped) :
    ModelRunner.Executed { s.runner with batcher := s.runner.batcher.scheduleStep.2 }
      s.runner.step.2 s.runner.batcher.scheduleStep.1.prefillRequests
      s.runner.batcher.scheduleStep.1.decodeRequests := by
  have hfilter := h.filterCancelledRequests_eq hs
  have hspec := ModelRunner.step_spec s.runner rfl hfilter.symm (h.scheduled_nodup hs) ?_
  · exact hspec
  · intro r hr
    apply h.budgeted.scheduleStep.mapped
    rw [hs.running_eq]
    exact List.mem_append.mpr (List.mem_append.mp hr).symm

theorem Streaming.stepped (h : Streaming vocabSize eosTokenId objects s)
    (hs : BatcherState.Scheduled s.runner.batcher s.runner.batcher.scheduleStep.2
      s.runner.batcher.scheduleStep.1 skipped) (s' : RunnerSystem Q)
    (hrunner : s'.runner = s.runner.step.2) (hpopped : s'.popped = s.popped) (r : RequestRef) :
    Stepped vocabSize eosTokenId objects s s' r
      s.runner.batcher.scheduleStep.1.prefillRequests
      s.runner.batcher.scheduleStep.1.decodeRequests := by
  obtain ⟨hprefill, hdecode, hdisjoint⟩ := List.nodup_append.mp (h.scheduled_nodup hs)
  have hexec := h.executed hs
  have hscheduled : ∀ q, s.runner.batcher.scheduleStep.2.requests q =
      if q ∈ s.runner.batcher.scheduleStep.1.prefillRequests then
        { s.runner.batcher.requests q with state := .running }
      else s.runner.batcher.requests q := by
    intro q
    rw [hs.requests_eq, Requests.markAll, h.filteredRequests_eq]
  have hrequests := hexec.requests_eq
  have hqueue := hexec.queue_eq
  simp only [h.vocabSize_eq, h.eosTokenId_eq] at hrequests hqueue
  constructor
  · intro hp
    rw [hrunner, hrequests, advanceAll_of_notMem fun hd => hdisjoint r hp r hd rfl, advanceAll,
      if_pos hp, hscheduled, if_pos hp]
  · intro hd
    have hp : r ∉ s.runner.batcher.scheduleStep.1.prefillRequests :=
      fun hp => hdisjoint r hp r hd rfl
    rw [hrunner, hrequests, advanceAll, if_pos hd, advanceAll_of_notMem hp, hscheduled, if_neg hp]
  · intro hp hd
    rw [hrunner, hrequests, advanceAll_of_notMem hd, advanceAll_of_notMem hp, hscheduled, if_neg hp]
  · intro hr
    have hids : ∀ q ∈ s.submitted, (s.runner.batcher.scheduleStep.2.requests q).id =
        (objects q).id := by
      intro q hq
      rw [← (h.tracked q hq).id_eq, hscheduled]
      split_ifs <;> rfl
    have hfilter : ∀ (sample : Request → ℤ) (l : List RequestRef), l.Nodup →
        (∀ q ∈ l, q ∈ s.submitted) →
        (l.map fun q => output eosTokenId sample
          (s.runner.batcher.scheduleStep.2.requests q)).filter
            (fun o => o.requestId = (objects r).id) =
          if r ∈ l then
            [output eosTokenId sample (s.runner.batcher.scheduleStep.2.requests r)] else [] := by
      intro sample l hl hsub
      rw [← hids r hr]
      refine filter_outputs hl (fun q => output eosTokenId sample
        (s.runner.batcher.scheduleStep.2.requests q)) fun q hq he => ?_
      refine h.id_inj q (hsub q hq) r hr ?_
      rw [← hids q (hsub q hq), ← hids r hr]
      exact he
    simp only [outputs, hpopped, hrunner, hqueue, List.filter_append,
      hfilter _ _ hprefill fun q hq => (h.prefill_waiting hs hq).1,
      hfilter _ _ hdecode fun q hq => (h.decode_running hs hq).1, List.append_assoc]
    congr 2
    split_ifs with hp hd hd
    · exact absurd rfl (hdisjoint r hp r hd)
    · rw [hscheduled, if_pos hp]
    · rw [hscheduled, if_neg hp]
    · rfl

end

def afterStep (s : RunnerSystem Q) : RunnerSystem Q :=
  { s with
    runner := s.runner.step.2
    admitted := s.admitted ++ s.runner.batcher.scheduleStep.1.prefillRequests }

theorem Streaming.tracked_step {s : RunnerSystem Q} {skipped : List RequestRef}
    (h : Streaming vocabSize eosTokenId objects s) (hv₀ : 1 ≤ vocabSize) (hv : vocabSize < 2 ^ 31)
    (hs : BatcherState.Scheduled s.runner.batcher s.runner.batcher.scheduleStep.2
      s.runner.batcher.scheduleStep.1 skipped) {r : RequestRef} (hr : r ∈ s.submitted) :
    Tracked vocabSize eosTokenId objects s.afterStep r := by
  have ht := h.tracked r hr
  have hstep := h.stepped hs s.afterStep rfl rfl r
  have hexec := h.executed hs
  have houtputs := hstep.outputs_eq hr
  have hbatcher : s.afterStep.runner.batcher.batcher = s.runner.batcher.scheduleStep.2.batcher :=
    hexec.batcher_eq
  have hcancelled : s.afterStep.runner.cancelledRequests = s.runner.cancelledRequests :=
    hexec.cancelled_eq
  have hrunning : r ∈ s.afterStep.runner.batcher.batcher.runningRequests ↔
      r ∈ s.runner.batcher.scheduleStep.1.decodeRequests ∨
        r ∈ s.runner.batcher.scheduleStep.1.prefillRequests := by
    rw [hbatcher, hs.running_eq, List.mem_append]
  have hitems := hs.items_eq
  rw [← hbatcher] at hitems
  have hsub : r ∈ items s.afterStep.runner.batcher.batcher.waitingQueue →
      r ∈ items s.runner.batcher.batcher.waitingQueue := by
    intro hm
    rw [hitems, Multiset.mem_add]
    exact Or.inr hm
  by_cases hp : r ∈ s.runner.batcher.scheduleStep.1.prefillRequests
  · obtain ⟨-, hgen, -, hc⟩ := h.prefill_waiting hs hp
    have hd : r ∉ s.runner.batcher.scheduleStep.1.decodeRequests := by
      intro hd
      exact (List.nodup_append.mp (h.scheduled_nodup hs)).2.2 r hp r hd rfl
    have hnodup := h.items_nodup
    rw [hitems, Multiset.nodup_add] at hnodup
    rw [if_pos hp, if_neg hd, List.append_nil] at houtputs
    refine ht.advance (h.submittable r hr) rfl (hstep.request_prefill hp) ?_ ?_ houtputs
      (hrunning.mpr (Or.inr hp)) ?_ (hcancelled ▸ hc)
    · rw [hgen]
      exact streamLength_pos _ _ (h.submittable r hr).2.2.1
    · have hprompt := prefillToken_eq hv (h.submittable r hr)
      rw [hgen, List.length_nil, Nat.zero_add, ← hprompt]
      simp only [prefillToken, ht.prompt_eq]
    · intro hm
      exact Multiset.disjoint_left.mp hnodup.2.2
        (Multiset.mem_add.mpr (Or.inr (Multiset.mem_coe.mpr hp))) hm
  by_cases hd : r ∈ s.runner.batcher.scheduleStep.1.decodeRequests
  · obtain ⟨-, hpos, hlt, -, hi, hstate, hc⟩ := h.decode_running hs hd
    rw [if_neg hp, if_pos hd, List.append_nil] at houtputs
    refine ht.advance (h.submittable r hr) (by rw [← hstate]) (hstep.request_decode hd) hlt ?_
      houtputs (hrunning.mpr (Or.inl hd)) (mt hsub hi) (hcancelled ▸ hc)
    obtain ⟨k, hk⟩ := Nat.exists_eq_succ_of_ne_zero hpos.ne'
    have hgen := ht.generated_eq
    rw [hk] at hgen ⊢
    exact decodeToken_eq hv₀ hv hgen
  · rw [if_neg hp, if_neg hd, List.append_nil, List.append_nil] at houtputs
    have hsame := hstep.request_idle hp hd
    refine ht.congr hsame houtputs ?_
    have hnot : r ∉ s.afterStep.runner.batcher.batcher.runningRequests := by
      rw [hrunning]
      exact not_or.mpr ⟨hd, hp⟩
    cases ht.phase with
    | waiting hw hg hi hr' ha hc =>
      refine .waiting (hsame ▸ hw) (hsame ▸ hg) ?_ hnot ?_ (hcancelled ▸ hc)
      · rw [hitems, Multiset.mem_add, Multiset.mem_add] at hi
        rcases hi with (hskip | hp') | hi
        · have hf := hs.skipped_finished r hskip
          rw [h.filteredRequests_eq, hw] at hf
          exact absurd hf RequestState.noConfusion
        · exact absurd hp' hp
        · exact hi
      · exact fun hm => (List.mem_append.mp hm).elim ha hp
    | running hw hpos hlt hr' =>
      refine absurd ?_ hd
      rw [hs.decode_eq]
      exact List.mem_filter.mpr ⟨hr', h.keeps hr hw hlt⟩
    | ended hf hg => exact .ended (hsame ▸ hf) (hsame ▸ hg)
    | cancelled hf hr' hc => exact .cancelled (hsame ▸ hf) hnot (hcancelled ▸ hc)

theorem Streaming.afterStep {s : RunnerSystem Q} (h : Streaming vocabSize eosTokenId objects s)
    (hv₀ : 1 ≤ vocabSize) (hv : vocabSize < 2 ^ 31) :
    Streaming vocabSize eosTokenId objects s.afterStep := by
  obtain ⟨skipped, hs⟩ := BatcherState.scheduleStep_spec h.budgeted.tokens_le
  have hexec := h.executed hs
  have hbatcher : s.afterStep.runner.batcher.batcher = s.runner.batcher.scheduleStep.2.batcher :=
    hexec.batcher_eq
  have hitems := hs.items_eq
  rw [← hbatcher] at hitems
  have hnodup := h.scheduled_nodup hs
  have hprefill : ∀ r ∈ s.runner.batcher.scheduleStep.1.prefillRequests, r ∈ s.submitted :=
    fun r hr => (h.prefill_waiting hs hr).1
  have hdecode : ∀ r ∈ s.runner.batcher.scheduleStep.1.decodeRequests, r ∈ s.submitted :=
    fun r hr => (h.decode_running hs hr).1
  constructor
  · exact hexec.vocabSize_eq.trans h.vocabSize_eq
  · exact hexec.eosTokenId_eq.trans h.eosTokenId_eq
  · exact hexec.budgeted h.budgeted.scheduleStep
  · intro r hr
    rw [(h.stepped hs s.afterStep rfl rfl r).request_idle (mt (hprefill r) hr)
      (mt (hdecode r) hr)]
    exact h.untouched r hr
  · exact h.submittable
  · exact h.id_inj
  · intro r hr
    apply h.items_submitted
    rw [hitems, Multiset.mem_add]
    exact Or.inr hr
  · intro r hr
    rw [hbatcher, hs.running_eq] at hr
    exact (List.mem_append.mp hr).elim (hdecode r) (hprefill r)
  · exact fun r hr => (List.mem_append.mp hr).elim (h.admitted_submitted r) (hprefill r)
  · intro id r hr
    rw [hbatcher, hs.map_eq] at hr
    split_ifs at hr
    exact h.map_submitted id r hr
  · intro o ho
    have hids : ∀ q ∈ s.submitted, (s.runner.batcher.scheduleStep.2.requests q).id =
        (objects q).id := by
      intro q hq
      rw [hs.requests_eq, Requests.markAll_id, h.filteredRequests_eq, (h.tracked q hq).id_eq]
    rw [show s.afterStep.runner.streamBuffer.queue = _ from hexec.queue_eq] at ho
    simp only [List.mem_append] at ho
    rcases ho with ho | (ho | ho) | ho
    · exact h.outputs_submitted o (List.mem_append_left _ ho)
    · exact h.outputs_submitted o (List.mem_append_right _ ho)
    · obtain ⟨q, hq, rfl⟩ := List.mem_map.mp ho
      exact ⟨q, hprefill q hq, (hids q (hprefill q hq)).symm⟩
    · obtain ⟨q, hq, rfl⟩ := List.mem_map.mp ho
      exact ⟨q, hdecode q hq, (hids q (hdecode q hq)).symm⟩
  · have hle := h.items_nodup
    rw [hitems, Multiset.nodup_add] at hle
    exact hle.2.1
  · rw [hbatcher, hs.running_eq]
    exact (List.perm_append_comm.nodup_iff).mp hnodup
  · exact fun r hr => h.tracked_step hv₀ hv hs hr

theorem step_streaming (hv₀ : 1 ≤ vocabSize) (hv : vocabSize < 2 ^ 31)
    (hobjects : ∀ r, (objects r).state = .waiting ∧ (objects r).generatedTokens = [])
    {s s' : RunnerSystem Q} {a : RunnerAction} (h : Streaming vocabSize eosTokenId objects s)
    (hs : step s a = some s') : Streaming vocabSize eosTokenId objects s' := by
  cases a with
  | addRequest r =>
    simp only [step] at hs
    split_ifs at hs with hr
    exact Option.some.inj hs ▸ h.addRequest hobjects hr
  | step => exact Option.some.inj hs ▸ h.afterStep hv₀ hv
  | cancelRequest requestId => exact Option.some.inj hs ▸ h.cancelRequest requestId
  | popAll => exact Option.some.inj hs ▸ h.popAll

theorem init_streaming (maxNumSeqs maxNumBatchedTokens : ℕ)
    (hobjects : ∀ r, (objects r).state = .waiting ∧ (objects r).generatedTokens = []) :
    Streaming vocabSize eosTokenId objects
      (init maxNumSeqs maxNumBatchedTokens vocabSize eosTokenId objects : RunnerSystem Q) where
  vocabSize_eq := rfl
  eosTokenId_eq := rfl
  budgeted := BatcherState.init_budgeted _ _ fun r => (hobjects r).1
  untouched _ _ := rfl
  submittable _ hr := absurd hr List.not_mem_nil
  id_inj _ hr := absurd hr List.not_mem_nil
  items_submitted r hr := by simp [init, ModelRunner.init, BatcherState.init, items_empty] at hr
  running_submitted _ hr := absurd hr List.not_mem_nil
  admitted_submitted _ hr := absurd hr List.not_mem_nil
  map_submitted id r hr := by simp [init, ModelRunner.init, BatcherState.init] at hr
  outputs_submitted _ ho := absurd ho List.not_mem_nil
  items_nodup := by simp [init, ModelRunner.init, BatcherState.init, items_empty]
  running_nodup := List.nodup_nil
  tracked _ hr := absurd hr List.not_mem_nil

/-- An admitted request that has neither ended nor been cancelled gets one output. -/
theorem Streaming.emits_one {s : RunnerSystem Q} (h : Streaming vocabSize eosTokenId objects s)
    {r : RequestRef} (hr : r ∈ s.submitted) (hadmitted : r ∈ s.afterStep.admitted)
    (hcancelled : (objects r).id ∉ s.runner.cancelledRequests)
    (hend : ∀ o ∈ s.outputs (objects r).id, o.isFinal = false) :
    ∃ o, s.afterStep.outputs (objects r).id = s.outputs (objects r).id ++ [o] := by
  obtain ⟨skipped, hs⟩ := BatcherState.scheduleStep_spec h.budgeted.tokens_le
  have houtputs := (h.stepped hs s.afterStep rfl rfl r).outputs_eq hr
  have hdisjoint := (List.nodup_append.mp (h.scheduled_nodup hs)).2.2
  have ht := h.tracked r hr
  rw [houtputs]
  by_cases hp : r ∈ s.runner.batcher.scheduleStep.1.prefillRequests
  · rw [if_pos hp, if_neg fun hd => hdisjoint r hp r hd rfl, List.append_nil]
    exact ⟨_, rfl⟩
  rw [if_neg hp, List.append_nil]
  cases ht.phase with
  | waiting _ _ _ _ hnot => exact absurd ((List.mem_append.mp hadmitted).elim hnot hp) not_false
  | running hstate _ hlt hrun =>
    have hd : r ∈ s.runner.batcher.scheduleStep.1.decodeRequests := by
      rw [hs.decode_eq]
      exact List.mem_filter.mpr ⟨hrun, h.keeps hr hstate hlt⟩
    rw [if_pos hd]
    exact ⟨_, rfl⟩
  | ended _ hgen =>
    obtain ⟨k, hk⟩ := Nat.exists_eq_succ_of_ne_zero
      (streamLength_pos vocabSize eosTokenId (h.submittable r hr).2.2.1).ne'
    have hlast := hend ⟨(objects r).id, referenceToken vocabSize (objects r) (k + 1), true⟩ ?_
    · cases hlast
    · rw [ht.outputs_eq, hgen, hk, referenceStream_take_succ (by omega)]
      simp [hk]
  | cancelled _ _ hc => exact absurd hc hcancelled

/-- A step emits nothing under a cancelled id. -/
theorem Streaming.outputs_afterStep {s : RunnerSystem Q}
    (h : Streaming vocabSize eosTokenId objects s) (hv₀ : 1 ≤ vocabSize) (hv : vocabSize < 2 ^ 31)
    {id : ℕ} (hid : id ∈ s.runner.cancelledRequests) : s.afterStep.outputs id = s.outputs id := by
  by_cases hused : ∃ r ∈ s.submitted, (objects r).id = id
  · obtain ⟨r, hr, rfl⟩ := hused
    obtain ⟨skipped, hs⟩ := BatcherState.scheduleStep_spec h.budgeted.tokens_le
    rw [(h.stepped hs s.afterStep rfl rfl r).outputs_eq hr,
      if_neg fun hp => (h.prefill_waiting hs hp).2.2.2 hid,
      if_neg fun hd => (h.decode_running hs hd).2.2.2.2.2.2 hid, List.append_nil, List.append_nil]
  · have hnone : ∀ q ∈ s.submitted, (objects q).id ≠ id := fun q hq he => hused ⟨q, hq, he⟩
    rw [((h.afterStep hv₀ hv).unused hnone).2, (h.unused hnone).2]

theorem step_silent (hv₀ : 1 ≤ vocabSize) (hv : vocabSize < 2 ^ 31) {s s' : RunnerSystem Q}
    {a : RunnerAction} {id : ℕ} (h : Streaming vocabSize eosTokenId objects s)
    (hid : id ∈ s.runner.cancelledRequests) (hs : step s a = some s') :
    id ∈ s'.runner.cancelledRequests ∧ s'.outputs id = s.outputs id := by
  cases a with
  | addRequest r =>
    simp only [step] at hs
    split_ifs at hs
    obtain rfl := Option.some.inj hs
    exact ⟨hid, rfl⟩
  | step =>
    obtain rfl : s.afterStep = s' := Option.some.inj hs
    obtain ⟨skipped, hsched⟩ := BatcherState.scheduleStep_spec h.budgeted.tokens_le
    refine ⟨?_, h.outputs_afterStep hv₀ hv hid⟩
    rw [show s.afterStep.runner.cancelledRequests = _ from (h.executed hsched).cancelled_eq]
    exact hid
  | cancelRequest requestId =>
    obtain rfl := Option.some.inj hs
    exact ⟨Finset.mem_insert_of_mem hid, rfl⟩
  | popAll =>
    obtain rfl := Option.some.inj hs
    refine ⟨hid, ?_⟩
    simp only [outputs, TokenStreamBuffer.popAll, List.append_nil]

/-- Whatever is called after a cancellation, the cancelled id gets no further output. -/
theorem run_silent (hv₀ : 1 ≤ vocabSize) (hv : vocabSize < 2 ^ 31)
    (hobjects : ∀ r, (objects r).state = .waiting ∧ (objects r).generatedTokens = [])
    {s s' : RunnerSystem Q} {id : ℕ} {more : List RunnerAction}
    (h : Streaming vocabSize eosTokenId objects s)
    (hs : Transition.exec step s (.cancelRequest id :: more) = some s') :
    s'.outputs id = s.outputs id := by
  obtain ⟨t, ht, hrest⟩ := Transition.exec_cons.mp hs
  obtain rfl := Option.some.inj ht
  have hinv := Transition.exec_preserves
    (I := fun u => Streaming vocabSize eosTokenId objects u ∧
      id ∈ u.runner.cancelledRequests ∧ u.outputs id = s.outputs id)
    (fun u a u' hu hstep => by
      obtain ⟨hc, hout⟩ := step_silent hv₀ hv hu.1 hu.2.1 hstep
      exact ⟨step_streaming hv₀ hv hobjects hu.1 hstep, hc, hout.trans hu.2.2⟩)
    ⟨h.cancelRequest id, Finset.mem_insert_self _ _, rfl⟩ hrest
  exact hinv.2.2

/-- In every run each request's outputs are a prefix of the reference stream that its own prompt and
`max_new_tokens` define; after its admission every step adds one output until the stream ends or is
cancelled, and after a cancellation none is added. -/
theorem streams_follow_reference (maxNumSeqs maxNumBatchedTokens vocabSize : ℕ) (eosTokenId : ℤ)
    (hv₀ : 1 ≤ vocabSize) (hv : vocabSize < 2 ^ 31) (objects : Requests)
    (hobjects : ∀ r, (objects r).state = .waiting ∧ (objects r).generatedTokens = [])
    (actions : List RunnerAction) (s : RunnerSystem Q)
    (he : Transition.exec step (init maxNumSeqs maxNumBatchedTokens vocabSize eosTokenId objects)
      actions = some s) :
    (∀ r ∈ s.submitted, s.outputs (objects r).id <+:
      referenceStream vocabSize eosTokenId (objects r)) ∧
    (∀ r ∈ s.submitted, ∀ s', step s .step = some s' → r ∈ s'.admitted →
      (objects r).id ∉ s.runner.cancelledRequests →
      (∀ o ∈ s.outputs (objects r).id, o.isFinal = false) →
      ∃ o, s'.outputs (objects r).id = s.outputs (objects r).id ++ [o]) ∧
    ∀ id more s', Transition.exec step s (.cancelRequest id :: more) = some s' →
      s'.outputs id = s.outputs id := by
  have h : Streaming vocabSize eosTokenId objects s :=
    Transition.exec_preserves (fun _ _ _ h hs => step_streaming hv₀ hv hobjects h hs)
      (init_streaming maxNumSeqs maxNumBatchedTokens hobjects) he
  refine ⟨fun r hr => ?_, fun r hr s' hs ha hc hend => ?_,
    fun id more s' hs => run_silent hv₀ hv hobjects h hs⟩
  · rw [(h.tracked r hr).outputs_eq]
    exact List.take_prefix _ _
  · obtain rfl : s.afterStep = s' := Option.some.inj hs
    exact h.emits_one hr ha hc hend

/-- Two requests share the batch, one is cancelled, and the other ends with the vocabulary's
end-of-sequence token. -/
theorem streams_follow_reference_shared :
    let objects : Requests := fun r => Request.new r [3, r] 5 r 0
    ∃ s : RunnerSystem (List RequestRef),
      Transition.exec step (init 2 4 10 9 objects)
        [.addRequest 7, .addRequest 4, .step, .popAll, .cancelRequest 4, .step] = some s ∧
      s.outputs (objects 7).id <+: referenceStream 10 9 (objects 7) ∧
      s.outputs 7 = [⟨7, 8, false⟩, ⟨7, 9, true⟩] := by
  intro objects
  exact Transition.exec_exists
    (P := fun s => 7 ∈ s.submitted ∧ s.outputs 7 = [⟨7, 8, false⟩, ⟨7, 9, true⟩]) (by decide)
    fun s hs hp => ⟨(streams_follow_reference 2 4 10 9 (by decide) (by decide) objects
      (fun _ => ⟨rfl, rfl⟩) _ s hs).1 7 hp.1, hp.2⟩

end RunnerSystem
end CudaForge.Engine
