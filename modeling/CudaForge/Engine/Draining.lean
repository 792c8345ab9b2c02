import CudaForge.Engine.LockstepStep
import CudaForge.Scheduler.Progress

/-!
The serving loop ends every request. Each step gives a token to some active request, and a request
ends at the latest with its last allowed token.
-/
namespace CudaForge.Engine
open MachineWord FiniteMap PriorityQueue Scheduler Transition

/-- The tokens that a request may still generate; its prefill generates one in any case. -/
def remaining (req : Request) : ℕ := max 1 (ofInt 64 req.maxNewTokens) - req.generatedTokens.length

/-- What no step changes of a request. -/
structure SameOrigin (req req' : Request) : Prop where
  prompt_eq : req'.promptTokens = req.promptTokens
  max_eq : req'.maxNewTokens = req.maxNewTokens

namespace LLMEngine
variable {Q : Type} [PriorityQueue Q RequestRef] {e e' : LLMEngine Q}

def afterSteps (e : LLMEngine Q) : ℕ → LLMEngine Q
  | 0 => e
  | n + 1 => afterSteps e.step.2 n

def remainingTokens (e : LLMEngine Q) : ℕ :=
  total (fun id _ => remaining (e.modelRunner.batcher.requests id)) e.activeRequests

/-- In lockstep, with prompts that fit the budget, and no active request cancelled in advance. -/
structure Serving (e : LLMEngine Q) : Prop where
  lockstep : e.Lockstep
  seqs : 1 ≤ e.modelRunner.batcher.batcher.maxNumSeqs
  fits : ∀ r ∈ e.activeRequests, (e.modelRunner.batcher.requests r).promptTokens.length ≤
    e.modelRunner.batcher.batcher.maxNumBatchedTokens
  uncancelled : ∀ r ∈ e.modelRunner.cancelledRequests, r ≤ e.requestCounter ∧ r ∉ e.activeRequests

/-- New requests fit the token budget and convert, and only issued ids are cancelled. -/
def Servable (e : LLMEngine Q) : EngineAction → Prop
  | .addRequest promptTokens samplingParams _ =>
    promptTokens.length ≤ e.modelRunner.batcher.batcher.maxNumBatchedTokens ∧
      fitsInt32 samplingParams.maxTokens = true ∧ fitsInt32 samplingParams.priority = true
  | .step => True
  | .cancelRequest requestId => requestId ≤ e.requestCounter

instance (e : LLMEngine Q) : ∀ action, Decidable (e.Servable action)
  | .addRequest _ _ _ => show Decidable (_ ∧ _ ∧ _) from inferInstance
  | .step => isTrue trivial
  | .cancelRequest _ => show Decidable (_ ≤ _) from inferInstance

theorem lookup_eraseAll {α : Type} (ids : List ℕ) (m : FiniteMap ℕ α) (id : ℕ) :
    (ids.foldl (fun m id => m.erase id) m).lookup id = if id ∈ ids then none else m.lookup id := by
  induction ids generalizing m with
  | nil => simp
  | cons a rest ih =>
    rw [List.foldl_cons, ih, lookup_erase_ite]
    simp only [List.mem_cons]
    by_cases ha : id = a <;> by_cases hr : id ∈ rest <;> simp [ha, hr]

section Emit

/-- The candidate exists in whatever order the queue is. -/
theorem firstUnfinished_mem (requests : Requests) {q : Q} {turns : ℕ}
    (hturns : Multiset.card (items q) ≤ turns)
    (hexists : ∃ r ∈ items q, (requests r).state ≠ .finished) :
    ∃ c ∈ items q, BatcherState.firstUnfinished requests turns q = some c ∧
      (requests c).state ≠ .finished := by
  obtain ⟨r, hr, hrs⟩ := hexists
  induction turns generalizing q with
  | zero =>
    rw [Multiset.card_eq_zero.mp (Nat.le_zero.mp hturns)] at hr
    exact absurd hr (Multiset.notMem_zero r)
  | succ turns ih =>
    unfold BatcherState.firstUnfinished
    cases hpop : pop requests.comparator q with
    | none =>
      rw [pop_none hpop] at hr
      exact absurd hr (Multiset.notMem_zero r)
    | some p =>
      obtain ⟨candidate, q'⟩ := p
      have hitems := pop_some hpop
      rw [hitems, Multiset.card_cons] at hturns
      rw [hitems, Multiset.mem_cons] at hr
      by_cases hs : (requests candidate).state = .finished
      · have hr' : r ∈ items q' := hr.resolve_left (by rintro rfl; exact hrs hs)
        obtain ⟨c, hmem, hc, hcs⟩ := ih (by omega) hr'
        refine ⟨c, hitems ▸ Multiset.mem_cons_of_mem hmem, ?_, hcs⟩
        simpa [hs] using hc
      · exact ⟨candidate, hitems ▸ Multiset.mem_cons_self _ _, by simp [hs], hs⟩

variable {skipped : List RequestRef} (hs : e.modelRunner.batcher.Scheduled
  e.modelRunner.batcher.scheduleStep.2 e.modelRunner.batcher.scheduleStep.1 skipped)
include hs

/-- A scheduled request is active, so it is not filtered out as cancelled. -/
theorem Serving.emitted_of_scheduled (h : e.Serving) {r : RequestRef}
    (hr : r ∈ e.modelRunner.batcher.scheduleStep.1.prefillRequests ∨
      r ∈ e.modelRunner.batcher.scheduleStep.1.decodeRequests) : r ∈ e.emitted := by
  have hactive : r ∈ e.activeRequests := by
    rw [← h.lockstep.live_iff]
    rcases hr with hr | hr
    · obtain ⟨hitems, hstate, -⟩ := h.lockstep.prefill_waiting hs hr
      exact ⟨Or.inl hitems, by simp [hstate]⟩
    · obtain ⟨hrunning, hstate⟩ := (h.lockstep.mem_decode hs r).mp hr
      exact ⟨Or.inr hrunning, by simp [hstate]⟩
  have hcancelled : r ∉ e.modelRunner.cancelledRequests := fun hc => (h.uncancelled r hc).2 hactive
  rw [mem_emitted, (h.lockstep.mem_batch hs r).1, (h.lockstep.mem_batch hs r).2]
  exact hr.imp (⟨·, hcancelled⟩) (⟨·, hcancelled⟩)

/-- A step gives a token to some active request. -/
theorem Serving.exists_emitted (h : e.Serving) {id : ℕ} (hid : id ∈ e.activeRequests) :
    ∃ r, r ∈ e.emitted := by
  by_cases hrun : ∃ r ∈ e.modelRunner.batcher.batcher.runningRequests,
      (e.modelRunner.batcher.requests r).state = .running
  · obtain ⟨r, hr, hstate⟩ := hrun
    exact ⟨r, h.emitted_of_scheduled hs (Or.inr ((h.lockstep.mem_decode hs r).mpr ⟨hr, hstate⟩))⟩
  have hended : ∀ r ∈ e.modelRunner.batcher.batcher.runningRequests,
      (e.modelRunner.batcher.requests r).state = .finished := fun r hr =>
    (h.lockstep.budgeted.live r hr).resolve_left fun hstate => hrun ⟨r, hr, hstate⟩
  -- Nothing runs, so the request waits, and the first one that waits is admitted.
  obtain ⟨hplace, hstate⟩ := (h.lockstep.live_iff id).mpr hid
  have hitems := hplace.resolve_right fun hr => hstate (hended id hr)
  obtain ⟨c, hc, hfirst, hcstate⟩ := firstUnfinished_mem
    e.modelRunner.batcher.filteredRequests le_rfl
      ⟨id, hitems, by rwa [h.lockstep.filteredRequests_eq]⟩
  rw [h.lockstep.filteredRequests_eq] at hcstate
  have hactive := (h.lockstep.live_iff c).mp ⟨Or.inl hc, hcstate⟩
  have hbatch := (BatcherState.scheduleStep_nonempty h.seqs
    fun r hr => by simp [Request.isFinished, hended r hr]).mpr ⟨c, hfirst, h.fits c hactive⟩
  rcases hbatch with hne | hne
  · obtain ⟨r, hr⟩ := List.exists_mem_of_ne_nil _ hne
    exact ⟨r, h.emitted_of_scheduled hs (Or.inr hr)⟩
  · obtain ⟨r, hr⟩ := List.exists_mem_of_ne_nil _ hne
    exact ⟨r, h.emitted_of_scheduled hs (Or.inl hr)⟩

/-- A batched request gets the token of its output. -/
theorem Lockstep.emitted_advance (h : e.Lockstep) {r : RequestRef} (hr : r ∈ e.emitted) :
    (e.modelRunner.step.2.batcher.requests r).generatedTokens =
      (e.scheduledRunner.batcher.requests r).generatedTokens ++ [(e.batchOutput r).tokenId] := by
  have hdisjoint := (List.nodup_append.mp (h.batch_nodup hs)).2.2
  rw [(h.executed hs).requests_eq]
  rcases (mem_emitted r).mp hr with hp | hd
  · rw [advanceAll_of_notMem fun hd => hdisjoint r hp r hd rfl, advanceAll, if_pos hp]
    simp only [batchOutput, if_pos hp, output, advance, scheduledRunner]
  · have hp : r ∉ e.batch.prefillRequests := fun hp => hdisjoint r hp r hd rfl
    rw [advanceAll, if_pos hd, advanceAll_of_notMem hp]
    simp only [batchOutput, if_neg hp, output, advance, scheduledRunner]

/-- A request that got no token is as before, or was admitted. -/
theorem Serving.step_origin (h : e.Serving) (r : RequestRef) :
    SameOrigin (e.modelRunner.batcher.requests r) (e.step.2.modelRunner.batcher.requests r) := by
  by_cases hr : r ∈ e.emitted
  · obtain ⟨sample, hadvance, -⟩ := h.lockstep.emitted_request hs hr
    rw [(h.lockstep.stepEffect hs).requests_eq, Requests.markAll, hadvance,
      h.lockstep.scheduled_requests hs]
    split_ifs <;> exact ⟨rfl, rfl⟩
  · rw [h.lockstep.idle_eq hs hr]
    split_ifs <;> exact ⟨rfl, rfl⟩

theorem Serving.remaining_step (h : e.Serving) {r : RequestRef}
    (hr : r ∈ e.step.2.activeRequests) :
    remaining (e.step.2.modelRunner.batcher.requests r) + (if r ∈ e.emitted then 1 else 0) =
      remaining (e.modelRunner.batcher.requests r) := by
  have horigin := h.step_origin hs r
  obtain ⟨hactive, hended⟩ := ((h.lockstep.stepEffect hs).active_iff r).mp hr
  split_ifs with hemitted
  · obtain ⟨-, hlength, hstate⟩ := h.lockstep.emitted_step hs hemitted
    rw [if_neg hended] at hstate
    simp only [Request.getTotalLength, horigin.prompt_eq] at hlength
    simp only [remaining, horigin.max_eq] at hstate ⊢
    omega
  · have hlength := h.lockstep.step_length hs r
    simp only [Request.getTotalLength, horigin.prompt_eq, if_neg hemitted] at hlength
    simp only [remaining, horigin.max_eq]
    omega

omit hs in
theorem Serving.remaining_pos (h : e.Serving) {r : RequestRef} (hr : r ∈ e.activeRequests) :
    0 < remaining (e.modelRunner.batcher.requests r) := by
  obtain ⟨hplace, hstate⟩ := (h.lockstep.live_iff r).mpr hr
  unfold remaining
  rcases hplace with hitems | hrunning
  · rw [(h.lockstep.waiting_new r hitems hstate).2, List.length_nil]
    omega
  · have hopen := h.lockstep.running_open r hrunning
      ((h.lockstep.budgeted.live r hrunning).resolve_right hstate)
    omega

/-- A request that stays active keeps its parameters. -/
theorem Serving.active_lookup (h : e.Serving) {id : ℕ} (hid : id ∈ e.step.2.activeRequests) :
    e.step.2.activeRequests.lookup id = e.activeRequests.lookup id := by
  obtain ⟨hfinished, -⟩ := h.lockstep.outputLoop hs
  have hstep : e.step.2.activeRequests =
      e.ended.foldl (fun m id => m.erase id) e.activeRequests := by
    simp only [LLMEngine.step, TokenStreamBuffer.popAll, h.lockstep.queue_step hs, hfinished]
  rw [hstep, lookup_eraseAll, if_neg (((h.lockstep.stepEffect hs).active_iff id).mp hid).2]

end Emit

section Step

/-- What is left to generate gets less as long as a request is active. -/
theorem Serving.remainingTokens_step (h : e.Serving) {id : ℕ} (hid : id ∈ e.activeRequests) :
    e.step.2.remainingTokens < e.remainingTokens := by
  obtain ⟨skipped, hs⟩ := BatcherState.scheduleStep_spec h.lockstep.budgeted.tokens_le
  obtain ⟨r, hr⟩ := h.exists_emitted hs hid
  have hactive := (h.lockstep.live_iff r).mp (h.lockstep.emitted_live hs hr).1
  have hkeep : ∀ q ∈ e.step.2.activeRequests, q ∈ e.activeRequests := fun q hq =>
    (((h.lockstep.stepEffect hs).active_iff q).mp hq).1
  have hle : ∀ m m' : FiniteMap ℕ SamplingParams, (∀ q ∈ m, q ∈ m' ∧ q ∈ e.step.2.activeRequests) →
      total (fun q _ => remaining (e.step.2.modelRunner.batcher.requests q)) m ≤
        total (fun q _ => remaining (e.modelRunner.batcher.requests q)) m' := by
    intro m m' hm
    refine total_le_total fun q params hq => ?_
    obtain ⟨hmem, hstep⟩ := hm q (mem_of_lookup hq)
    obtain ⟨params', hparams'⟩ := Option.isSome_iff_exists.mp (AList.lookup_isSome.mpr hmem)
    exact ⟨params', hparams', by have := h.remaining_step hs hstep; omega⟩
  obtain ⟨params, hparams⟩ := Option.isSome_iff_exists.mp (AList.lookup_isSome.mpr hactive)
  have hpos := h.remaining_pos hactive
  have hbefore := total_erase (f := fun q _ => remaining (e.modelRunner.batcher.requests q)) hparams
  unfold remainingTokens
  by_cases hend : r ∈ e.step.2.activeRequests
  · obtain ⟨params', hparams'⟩ := Option.isSome_iff_exists.mp (AList.lookup_isSome.mpr hend)
    have hafter := total_erase
      (f := fun q _ => remaining (e.step.2.modelRunner.batcher.requests q)) hparams'
    have hless := h.remaining_step hs hend
    rw [if_pos hr] at hless
    have hrest := hle (e.step.2.activeRequests.erase r) (e.activeRequests.erase r) fun q hq => by
      rw [AList.mem_erase] at hq ⊢
      exact ⟨⟨hq.1, hkeep q hq.2⟩, hq.2⟩
    omega
  · have hrest := hle e.step.2.activeRequests (e.activeRequests.erase r) fun q hq => by
      rw [AList.mem_erase]
      exact ⟨⟨by rintro rfl; exact hend hq, hkeep q hq⟩, hq⟩
    omega

theorem Serving.step (h : e.Serving) : e.step.2.Serving := by
  obtain ⟨skipped, hs⟩ := BatcherState.scheduleStep_spec h.lockstep.budgeted.tokens_le
  have heffect := h.lockstep.stepEffect hs
  refine ⟨h.lockstep.step, ?_, fun r hr => ?_, fun r hr => ?_⟩
  · rw [heffect.batcher_eq, hs.maxNumSeqs_eq]
    exact h.seqs
  · rw [heffect.batcher_eq, hs.maxNumBatchedTokens_eq, (h.step_origin hs r).prompt_eq]
    exact h.fits r ((heffect.active_iff r).mp hr).1
  · rw [heffect.counter_eq, heffect.active_iff]
    obtain ⟨hle, hactive⟩ := h.uncancelled r (heffect.cancelled_eq ▸ hr)
    exact ⟨hle, fun hmem => hactive hmem.1⟩

theorem processOutputs_results (activeRequests : FiniteMap ℕ SamplingParams)
    (outputs : List StreamOutput) (acc : OutputLoop) :
    (outputs.foldl (processOutput activeRequests) acc).results = acc.results ++
      outputs.map fun o => ⟨o.requestId, o.tokenId, endsRequest activeRequests o, none⟩ := by
  induction outputs generalizing acc with
  | nil => simp
  | cons o rest ih => simp [ih, processOutput]

/-- Each batched request has one result. -/
theorem Serving.results_eq (h : e.Serving) {skipped : List RequestRef}
    (hs : e.modelRunner.batcher.Scheduled e.modelRunner.batcher.scheduleStep.2
      e.modelRunner.batcher.scheduleStep.1 skipped) :
    e.step.1 = e.emitted.map fun r => ⟨r, (e.batchOutput r).tokenId,
      endsRequest e.activeRequests (e.batchOutput r), none⟩ := by
  have hresults : e.step.1 = (e.emitted.map e.batchOutput).map
      fun o => ⟨o.requestId, o.tokenId, endsRequest e.activeRequests o, none⟩ := by
    rw [← h.lockstep.queue_step hs]
    exact processOutputs_results _ _ _
  rw [hresults, List.map_map]
  refine List.map_congr_left fun r hr => ?_
  rw [Function.comp_apply, show (e.batchOutput r).requestId = r from h.lockstep.emitted_id hs hr]

/-- A request that is no longer active ended with a result of the step. -/
theorem Serving.ended_result (h : e.Serving) {id : ℕ} (hid : id ∈ e.activeRequests)
    (hend : id ∉ e.step.2.activeRequests) :
    ∃ out ∈ e.step.1, out.requestId = id ∧ out.isFinal = true := by
  obtain ⟨skipped, hs⟩ := BatcherState.scheduleStep_spec h.lockstep.budgeted.tokens_le
  have hended : id ∈ e.ended := by
    rw [(h.lockstep.stepEffect hs).active_iff] at hend
    exact not_not.mp fun hnot => hend ⟨hid, hnot⟩
  obtain ⟨hemitted, hfinal⟩ := (mem_ended id).mp hended
  exact ⟨_, h.results_eq hs ▸ List.mem_map_of_mem hemitted, rfl, hfinal⟩

theorem Serving.no_active (h : e.Serving) (hzero : e.remainingTokens = 0) :
    ∀ id, id ∉ e.activeRequests := by
  intro id hid
  obtain ⟨params, hparams⟩ := Option.isSome_iff_exists.mp (AList.lookup_isSome.mpr hid)
  have hle := le_total (f := fun id _ => remaining (e.modelRunner.batcher.requests id)) hparams
  have hpos := h.remaining_pos hid
  unfold remainingTokens at hzero
  omega

theorem Serving.remainingTokens_le (h : e.Serving) :
    e.step.2.remainingTokens ≤ e.remainingTokens - 1 := by
  by_cases hactive : ∃ id, id ∈ e.activeRequests
  · obtain ⟨id, hid⟩ := hactive
    have hless := h.remainingTokens_step hid
    omega
  · obtain ⟨skipped, hs⟩ := BatcherState.scheduleStep_spec h.lockstep.budgeted.tokens_le
    have hnone : ∀ id, id ∉ e.step.2.activeRequests := fun id hid =>
      hactive ⟨id, (((h.lockstep.stepEffect hs).active_iff id).mp hid).1⟩
    have hempty : e.step.2.remainingTokens = 0 := by
      have hlookup : ∀ id, e.step.2.activeRequests.lookup id =
          (∅ : FiniteMap ℕ SamplingParams).lookup id := by
        intro id
        rw [AList.lookup_eq_none.mpr (hnone id), AList.lookup_empty]
      rw [remainingTokens, total_eq_of_lookup hlookup, total_empty]
    omega

/-- After as many steps as there are tokens to generate all requests have ended. -/
theorem Serving.drained (h : e.Serving) {n : ℕ} (hn : e.remainingTokens ≤ n) :
    (∀ id, id ∉ (e.afterSteps n).activeRequests ∧ id ∉ (e.afterSteps n).kvCache) ∧
    ∀ id ∈ e.activeRequests, ∃ k < n, ∃ out ∈ (e.afterSteps k).step.1,
      out.requestId = id ∧ out.isFinal = true := by
  induction n generalizing e with
  | zero =>
    have hnone := h.no_active (Nat.le_zero.mp hn)
    exact ⟨fun id => ⟨hnone id, fun hkv => hnone id ((h.lockstep.inLockstep.1 id).mpr hkv)⟩,
      fun id hid => absurd hid (hnone id)⟩
  | succ n ih =>
    have hless := h.remainingTokens_le
    obtain ⟨hnone, hresults⟩ := ih h.step (by omega)
    refine ⟨hnone, fun id hid => ?_⟩
    by_cases hstep : id ∈ e.step.2.activeRequests
    · obtain ⟨k, hk, hout⟩ := hresults id hstep
      exact ⟨k + 1, Nat.succ_lt_succ hk, hout⟩
    · exact ⟨0, Nat.succ_pos n, h.ended_result hid hstep⟩

end Step

section Calls

structure Added (e e' : LLMEngine Q) (req : Request) (samplingParams : SamplingParams) : Prop where
  counter_eq : e'.requestCounter = e.requestCounter + 1
  active_eq : e'.activeRequests = e.activeRequests.insert (e.requestCounter + 1) samplingParams
  requests_eq : e'.modelRunner.batcher.requests =
    Function.update e.modelRunner.batcher.requests (e.requestCounter + 1) req
  running_eq : e'.modelRunner.batcher.batcher.runningRequests =
    e.modelRunner.batcher.batcher.runningRequests
  maxNumSeqs_eq : e'.modelRunner.batcher.batcher.maxNumSeqs =
    e.modelRunner.batcher.batcher.maxNumSeqs
  maxNumBatchedTokens_eq : e'.modelRunner.batcher.batcher.maxNumBatchedTokens =
    e.modelRunner.batcher.batcher.maxNumBatchedTokens
  vocabSize_eq : e'.modelRunner.vocabSize = e.modelRunner.vocabSize
  eosTokenId_eq : e'.modelRunner.eosTokenId = e.modelRunner.eosTokenId
  cancelled_eq : e'.modelRunner.cancelledRequests = e.modelRunner.cancelledRequests

/-- Either an id was used up for nothing, or the request is queued. -/
theorem Lockstep.addRequest_spec (h : e.Lockstep) {promptTokens : List ℤ}
    {samplingParams : SamplingParams} (now : ℕ) (hprompt : promptTokens ≠ [])
    (hmax : fitsInt32 samplingParams.maxTokens = true)
    (hprio : fitsInt32 samplingParams.priority = true) :
    e.addRequest promptTokens samplingParams now =
        (none, { e with requestCounter := e.requestCounter + 1 }) ∨
      (e.addRequest promptTokens samplingParams now).1 = some (e.requestCounter + 1) ∧
        Added e (e.addRequest promptTokens samplingParams now).2
          (Request.new (e.requestCounter + 1) promptTokens samplingParams.maxTokens
            samplingParams.priority now) samplingParams := by
  obtain ⟨-, -, hmap, -⟩ := h.unused (Nat.lt_succ_self e.requestCounter)
  have hwaiting : (Request.new (e.requestCounter + 1) promptTokens samplingParams.maxTokens
      samplingParams.priority now).state = .waiting := rfl
  have hrunner := congrArg LLMEngine.modelRunner (queueRequest_eq rfl hwaiting rfl hprompt hmap)
  unfold LLMEngine.addRequest
  dsimp only
  split_ifs with hids hints
  · exact Or.inl rfl
  · simp [hmax, hprio] at hints
  · refine Or.inr ⟨rfl, rfl, rfl, ?_, ?_, ?_, ?_, ?_, ?_, ?_⟩
    · have hsame := congrArg (fun m : ModelRunner Q => m.batcher.requests) hrunner
      exact hsame
    · have hsame := congrArg (fun m : ModelRunner Q => m.batcher.batcher.runningRequests) hrunner
      exact hsame
    · have hsame := congrArg (fun m : ModelRunner Q => m.batcher.batcher.maxNumSeqs) hrunner
      exact hsame
    · have hsame :=
        congrArg (fun m : ModelRunner Q => m.batcher.batcher.maxNumBatchedTokens) hrunner
      exact hsame
    · have hsame := congrArg ModelRunner.vocabSize hrunner
      exact hsame
    · have hsame := congrArg ModelRunner.eosTokenId hrunner
      exact hsame
    · have hsame := congrArg ModelRunner.cancelledRequests hrunner
      exact hsame

theorem Serving.addRequest (h : e.Serving) {promptTokens : List ℤ}
    {samplingParams : SamplingParams} {now : ℕ} (hprompt : promptTokens ≠ [])
    (hserve : e.Servable (.addRequest promptTokens samplingParams now)) :
    (e.addRequest promptTokens samplingParams now).2.Serving := by
  obtain ⟨hfits, hmax, hprio⟩ := hserve
  have hfresh : e.requestCounter + 1 ∉ e.modelRunner.cancelledRequests := fun hc =>
    Nat.not_succ_le_self _ (h.uncancelled _ hc).1
  have hlockstep : (e.addRequest promptTokens samplingParams now).2.Lockstep :=
    h.lockstep.addRequest hprompt ⟨hmax, hprio, fun hstale => hfresh hstale.2⟩
  have hcounter : ∀ r ∈ e.modelRunner.cancelledRequests, r ≤ e.requestCounter + 1 := fun r hr =>
    (h.uncancelled r hr).1.trans (Nat.le_succ _)
  rcases h.lockstep.addRequest_spec now hprompt hmax hprio with hrefused | ⟨-, hadded⟩
  · rw [hrefused] at hlockstep ⊢
    exact ⟨hlockstep, h.seqs, h.fits, fun r hr => ⟨hcounter r hr, (h.uncancelled r hr).2⟩⟩
  · refine ⟨hlockstep, hadded.maxNumSeqs_eq ▸ h.seqs, fun r hr => ?_, fun r hr => ?_⟩
    · rw [hadded.active_eq, AList.mem_insert] at hr
      rw [hadded.requests_eq, hadded.maxNumBatchedTokens_eq, Function.update_apply]
      split_ifs with hnew
      · exact hfits
      · exact h.fits r (hr.resolve_left hnew)
    · rw [hadded.cancelled_eq] at hr
      rw [hadded.counter_eq, hadded.active_eq, AList.mem_insert]
      refine ⟨hcounter r hr, ?_⟩
      rintro (rfl | hactive)
      · exact hfresh hr
      · exact (h.uncancelled r hr).2 hactive

/-- A request that is no longer active, and marked finished if it was known. -/
structure Cancelled (e e' : LLMEngine Q) (id : ℕ) : Prop where
  counter_eq : e'.requestCounter = e.requestCounter
  active_eq : e'.activeRequests = e.activeRequests.erase id
  requests_eq : ∀ r, e'.modelRunner.batcher.requests r = e.modelRunner.batcher.requests r ∨
    e'.modelRunner.batcher.requests r =
      { e.modelRunner.batcher.requests r with state := .finished }
  running_sub : ∀ r ∈ e'.modelRunner.batcher.batcher.runningRequests,
    r ∈ e.modelRunner.batcher.batcher.runningRequests
  maxNumSeqs_eq : e'.modelRunner.batcher.batcher.maxNumSeqs =
    e.modelRunner.batcher.batcher.maxNumSeqs
  maxNumBatchedTokens_eq : e'.modelRunner.batcher.batcher.maxNumBatchedTokens =
    e.modelRunner.batcher.batcher.maxNumBatchedTokens
  vocabSize_eq : e'.modelRunner.vocabSize = e.modelRunner.vocabSize
  eosTokenId_eq : e'.modelRunner.eosTokenId = e.modelRunner.eosTokenId
  cancelled_eq : e'.modelRunner.cancelledRequests = insert id e.modelRunner.cancelledRequests

omit [PriorityQueue Q RequestRef] in
theorem cancelRequest_spec (e : LLMEngine Q) (requestId : ℤ) :
    e.cancelRequest requestId = e ∨ 0 ≤ requestId ∧
      Cancelled e (e.cancelRequest requestId) requestId.toNat := by
  unfold LLMEngine.cancelRequest ModelRunner.cancelRequest BatcherState.cancelRequest
  split_ifs with hid
  · refine Or.inr ⟨hid.1, ?_⟩
    cases e.modelRunner.batcher.batcher.requestMap.lookup requestId.toNat with
    | none => exact ⟨rfl, rfl, fun r => Or.inl rfl, fun r hr => hr, rfl, rfl, rfl, rfl, rfl⟩
    | some q =>
      refine ⟨rfl, rfl, fun r => ?_, fun r hr => List.mem_of_mem_filter hr, rfl, rfl, rfl, rfl, rfl⟩
      simp only [Requests.setState_eq_markAll, Requests.markAll]
      split_ifs
      · exact Or.inr rfl
      · exact Or.inl rfl
  · exact Or.inl rfl

theorem Serving.cancelRequest (h : e.Serving) {requestId : ℤ} (hid : requestId ≤ e.requestCounter) :
    (e.cancelRequest requestId).Serving := by
  have hlockstep := h.lockstep.cancelRequest requestId
  rcases e.cancelRequest_spec requestId with hsame | ⟨hpos, hcancelled⟩
  · rwa [hsame]
  · refine ⟨hlockstep, hcancelled.maxNumSeqs_eq ▸ h.seqs, fun r hr => ?_, fun r hr => ?_⟩
    · rw [hcancelled.active_eq, AList.mem_erase] at hr
      rw [hcancelled.maxNumBatchedTokens_eq]
      rcases hcancelled.requests_eq r with hreq | hreq <;> rw [hreq] <;> exact h.fits r hr.2
    · rw [hcancelled.cancelled_eq, Finset.mem_insert] at hr
      rw [hcancelled.counter_eq, hcancelled.active_eq, AList.mem_erase]
      rcases hr with rfl | hr
      · exact ⟨by omega, fun hmem => hmem.1 rfl⟩
      · exact ⟨(h.uncancelled r hr).1, fun hmem => (h.uncancelled r hr).2 hmem.2⟩

theorem init_serving {maxNumSeqs : ℕ} (hseqs : 1 ≤ maxNumSeqs) (maxNumBatchedTokens vocabSize : ℕ)
    (eosTokenId : ℤ) :
    (init maxNumSeqs maxNumBatchedTokens vocabSize eosTokenId : LLMEngine Q).Serving where
  lockstep := init_lockstep _ _ _ _
  seqs := hseqs
  fits r hr := absurd hr (AList.notMem_empty r)
  uncancelled r hr := absurd hr (Finset.notMem_empty r)

theorem Serving.call (h : e.Serving) {action : EngineAction} (hserve : e.Servable action)
    (hcall : e.call action = some e') : e'.Serving := by
  cases action with
  | addRequest promptTokens samplingParams now =>
    simp only [LLMEngine.call] at hcall
    split_ifs at hcall with hprompt
    exact Option.some.inj hcall ▸ h.addRequest hprompt hserve
  | step => exact Option.some.inj hcall ▸ h.step
  | cancelRequest requestId => exact Option.some.inj hcall ▸ h.cancelRequest hserve

end Calls

/-- From any state that calls reach, stepping alone ends every request within as many steps as
tokens are left to generate: each gets a final result, and nothing stays in the KV cache. -/
theorem drains (maxNumSeqs maxNumBatchedTokens vocabSize : ℕ) (eosTokenId : ℤ)
    (hseqs : 1 ≤ maxNumSeqs) (actions : List EngineAction)
    (hrun : exec LLMEngine.call
      (init maxNumSeqs maxNumBatchedTokens vocabSize eosTokenId : LLMEngine Q) actions = some e)
    (hserve : AllSteps LLMEngine.call Servable
      (init maxNumSeqs maxNumBatchedTokens vocabSize eosTokenId : LLMEngine Q) actions) {n : ℕ}
    (hn : e.remainingTokens ≤ n) :
    (∀ id, id ∉ (e.afterSteps n).activeRequests ∧ id ∉ (e.afterSteps n).kvCache) ∧
    ∀ id ∈ e.activeRequests, ∃ k < n, ∃ out ∈ (e.afterSteps k).step.1,
      out.requestId = id ∧ out.isFinal = true := by
  have h : e.Serving := exec_invariant (I := Serving)
    (fun _ _ _ hs hsafe hcall => hs.call hsafe hcall) (init_serving hseqs _ _ _) hserve hrun
  exact h.drained hn

/-- Three tokens for two requests that run together, and one that is cancelled. -/
theorem drains_three : ∃ e : LLMEngine (List RequestRef),
    exec LLMEngine.call (init 8 64 100 99) [.addRequest [5, 5, 6] { maxTokens := 2 } 0,
      .addRequest [7] { maxTokens := 1 } 1, .addRequest [8] {} 2, .cancelRequest 3] = some e ∧
    ∀ id ∈ e.activeRequests, ∃ k < 3,
      ∃ out ∈ (e.afterSteps k).step.1, out.requestId = id ∧ out.isFinal = true :=
  exec_exists (P := fun e => e.remainingTokens ≤ 3) (by decide +kernel) fun _ hrun hn =>
    (drains 8 64 100 99 (by decide) _ hrun (by decide +kernel) hn).2

end LLMEngine
end CudaForge.Engine
