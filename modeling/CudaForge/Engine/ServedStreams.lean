import CudaForge.Engine.Draining
import CudaForge.Engine.TokenStreams

/-!
What the engine returns for a request: its reference stream, ended by `max_tokens`, by the model's
end-of-sequence token or by one of its own stop tokens.
-/
namespace CudaForge.Engine
open MachineWord FiniteMap PriorityQueue Scheduler Transition

structure Submission where
  request : Request
  samplingParams : SamplingParams
  deriving DecidableEq

namespace Submission
variable (vocabSize : ℕ) (eosTokenId : ℤ) (sub : Submission)

def ends (i : ℕ) : Bool :=
  referenceToken vocabSize sub.request (i + 1) = eosTokenId ||
    sub.request.maxNewTokens.toNat ≤ i + 1 ||
    referenceToken vocabSize sub.request (i + 1) ∈ sub.samplingParams.stopTokenIds

def streamLength : ℕ :=
  (List.range sub.request.maxNewTokens.toNat).findIdx (sub.ends vocabSize eosTokenId) + 1

def result (i : ℕ) : GenerationOutput :=
  ⟨sub.request.id, referenceToken vocabSize sub.request (i + 1), sub.ends vocabSize eosTokenId i,
    none⟩

def stream : List GenerationOutput :=
  (List.range (sub.streamLength vocabSize eosTokenId)).map (sub.result vocabSize eosTokenId)

variable {vocabSize eosTokenId sub}

/-- Only the last token of the stream ends it. -/
theorem ends_iff {k : ℕ} (hmax : 1 ≤ sub.request.maxNewTokens)
    (hk : k < sub.streamLength vocabSize eosTokenId) :
    sub.ends vocabSize eosTokenId k = true ↔ k + 1 = sub.streamLength vocabSize eosTokenId := by
  have hexists : (List.range sub.request.maxNewTokens.toNat).findIdx
      (sub.ends vocabSize eosTokenId) < (List.range sub.request.maxNewTokens.toNat).length := by
    rw [List.findIdx_lt_length]
    refine ⟨sub.request.maxNewTokens.toNat - 1, ?_, ?_⟩
    · rw [List.mem_range]
      omega
    · simp only [ends, Bool.or_eq_true, decide_eq_true_eq]
      omega
  unfold streamLength at hk ⊢
  constructor
  · intro hends
    by_contra hne
    have hbefore : k < (List.range sub.request.maxNewTokens.toNat).findIdx
        (sub.ends vocabSize eosTokenId) := by
      omega
    have hfalse := List.not_of_lt_findIdx hbefore
    rw [List.getElem_range, hends] at hfalse
    contradiction
  · intro hlast
    have htrue := List.findIdx_getElem (w := hexists)
    rw [List.getElem_range] at htrue
    rwa [show k = List.findIdx _ _ from Nat.succ.inj hlast]

theorem stream_take_succ {k : ℕ} (hk : k < sub.streamLength vocabSize eosTokenId) :
    (sub.stream vocabSize eosTokenId).take (k + 1) =
      (sub.stream vocabSize eosTokenId).take k ++ [sub.result vocabSize eosTokenId k] := by
  rw [List.take_add_one]
  simp [stream, hk]

end Submission

structure ServedEngine (Q : Type) where
  engine : LLMEngine Q
  results : List GenerationOutput
  submitted : FiniteMap ℕ Submission

namespace ServedEngine
variable {Q : Type} [PriorityQueue Q RequestRef]

def init (maxNumSeqs maxNumBatchedTokens vocabSize : ℕ) (eosTokenId : ℤ) : ServedEngine Q :=
  ⟨.init maxNumSeqs maxNumBatchedTokens vocabSize eosTokenId, [], ∅⟩

/-- What `step` returns; the other calls return no results. -/
def returned (e : LLMEngine Q) : EngineAction → List GenerationOutput
  | .step => e.step.1
  | _ => []

def submit (e : LLMEngine Q) (submitted : FiniteMap ℕ Submission) :
    EngineAction → FiniteMap ℕ Submission
  | .addRequest promptTokens samplingParams now =>
    match (e.addRequest promptTokens samplingParams now).1 with
    | some reqId => submitted.insert reqId
        ⟨Request.new reqId promptTokens samplingParams.maxTokens samplingParams.priority now,
          samplingParams⟩
    | none => submitted
  | _ => submitted

def step (s : ServedEngine Q) (action : EngineAction) : Option (ServedEngine Q) :=
  (s.engine.call action).map fun engine =>
    { engine
      results := s.results ++ returned s.engine action
      submitted := submit s.engine s.submitted action }

/-- Servable calls whose prompts are tokens of the vocabulary and which ask for a token. -/
def Meets (s : ServedEngine Q) : EngineAction → Prop
  | .addRequest promptTokens samplingParams now =>
    s.engine.Servable (.addRequest promptTokens samplingParams now) ∧
      Submittable s.engine.modelRunner.vocabSize
        (Request.new 0 promptTokens samplingParams.maxTokens samplingParams.priority now)
  | .step => True
  | .cancelRequest requestId => s.engine.Servable (.cancelRequest requestId)

instance (s : ServedEngine Q) : ∀ action, Decidable (s.Meets action)
  | .addRequest _ _ _ => show Decidable (_ ∧ _) from inferInstance
  | .step => isTrue trivial
  | .cancelRequest requestId =>
    show Decidable (s.engine.Servable (.cancelRequest requestId)) from inferInstance

def resultsOf (s : ServedEngine Q) (id : ℕ) : List GenerationOutput :=
  s.results.filter fun out => out.requestId = id

section
variable (vocabSize : ℕ) (eosTokenId : ℤ)

/-- A submitted request and its results are as far on the reference stream as tokens were generated,
and at its end unless the request is still active or was cancelled. -/
structure OnStream (s : ServedEngine Q) (id : ℕ) (sub : Submission) : Prop where
  id_eq : sub.request.id = id
  submittable : Submittable vocabSize sub.request
  prompt_eq : (s.engine.modelRunner.batcher.requests id).promptTokens = sub.request.promptTokens
  max_eq : (s.engine.modelRunner.batcher.requests id).maxNewTokens = sub.request.maxNewTokens
  generated_eq : (s.engine.modelRunner.batcher.requests id).generatedTokens =
    (List.range (s.engine.modelRunner.batcher.requests id).generatedTokens.length).map
      fun i => referenceToken vocabSize sub.request (i + 1)
  results_eq : s.resultsOf id = (sub.stream vocabSize eosTokenId).take
    (s.engine.modelRunner.batcher.requests id).generatedTokens.length
  active : id ∈ s.engine.activeRequests →
    s.engine.activeRequests.lookup id = some sub.samplingParams ∧
      (s.engine.modelRunner.batcher.requests id).generatedTokens.length <
        sub.streamLength vocabSize eosTokenId
  ended : id ∉ s.engine.activeRequests → id ∈ s.engine.modelRunner.cancelledRequests ∨
    (s.engine.modelRunner.batcher.requests id).generatedTokens.length =
      sub.streamLength vocabSize eosTokenId

structure Served (s : ServedEngine Q) : Prop where
  serving : s.engine.Serving
  vocabSize_eq : s.engine.modelRunner.vocabSize = vocabSize
  eosTokenId_eq : s.engine.modelRunner.eosTokenId = eosTokenId
  issued : ∀ id ∈ s.submitted, id ≤ s.engine.requestCounter
  active_submitted : ∀ id ∈ s.engine.activeRequests, id ∈ s.submitted
  results_submitted : ∀ out ∈ s.results, out.requestId ∈ s.submitted
  started : ∀ r ∈ s.engine.modelRunner.batcher.batcher.runningRequests,
    (s.engine.modelRunner.batcher.requests r).state = .running →
      (s.engine.modelRunner.batcher.requests r).generatedTokens ≠ []
  onStream : ∀ id sub, s.submitted.lookup id = some sub → OnStream vocabSize eosTokenId s id sub

end

variable {vocabSize : ℕ} {eosTokenId : ℤ} {s s' : ServedEngine Q}

omit [PriorityQueue Q RequestRef] in
/-- A request whose object and results did not change stays on its stream. -/
theorem OnStream.congr {id : ℕ} {sub : Submission} (h : OnStream vocabSize eosTokenId s id sub)
    (hprompt : (s'.engine.modelRunner.batcher.requests id).promptTokens =
      (s.engine.modelRunner.batcher.requests id).promptTokens)
    (hmax : (s'.engine.modelRunner.batcher.requests id).maxNewTokens =
      (s.engine.modelRunner.batcher.requests id).maxNewTokens)
    (hgenerated : (s'.engine.modelRunner.batcher.requests id).generatedTokens =
      (s.engine.modelRunner.batcher.requests id).generatedTokens)
    (hresults : s'.resultsOf id = s.resultsOf id)
    (hactive : id ∈ s'.engine.activeRequests →
      s'.engine.activeRequests.lookup id = s.engine.activeRequests.lookup id)
    (hended : id ∉ s'.engine.activeRequests → id ∈ s'.engine.modelRunner.cancelledRequests ∨
      id ∉ s.engine.activeRequests ∧ (id ∈ s.engine.modelRunner.cancelledRequests →
        id ∈ s'.engine.modelRunner.cancelledRequests)) :
    OnStream vocabSize eosTokenId s' id sub where
  id_eq := h.id_eq
  submittable := h.submittable
  prompt_eq := hprompt.trans h.prompt_eq
  max_eq := hmax.trans h.max_eq
  generated_eq := by rw [hgenerated]; exact h.generated_eq
  results_eq := by rw [hgenerated, hresults]; exact h.results_eq
  active hid := by
    have hlookup := hactive hid
    have hbefore : id ∈ s.engine.activeRequests := by
      rw [← AList.lookup_isSome, ← hlookup]
      exact AList.lookup_isSome.mpr hid
    rw [hlookup, hgenerated]
    exact h.active hbefore
  ended hid := by
    rw [hgenerated]
    rcases hended hid with hcancelled | ⟨hbefore, hkeep⟩
    · exact Or.inl hcancelled
    · exact (h.ended hbefore).imp_left hkeep

section Calls

theorem Served.addRequest (h : Served vocabSize eosTokenId s) {promptTokens : List ℤ}
    {samplingParams : SamplingParams} {now : ℕ}
    (hmeets : s.Meets (.addRequest promptTokens samplingParams now))
    (hstep : s.step (.addRequest promptTokens samplingParams now) = some s') :
    Served vocabSize eosTokenId s' := by
  obtain ⟨hservable, hsubmittable⟩ := hmeets
  simp only [step, LLMEngine.call, Option.map_eq_some_iff, Option.ite_none_left_eq_some,
    Option.some.injEq] at hstep
  obtain ⟨engine, ⟨hprompt, rfl⟩, rfl⟩ := hstep
  have hserving := h.serving.addRequest hprompt hservable
  simp only [returned, List.append_nil, submit]
  rcases h.serving.lockstep.addRequest_spec now hprompt hservable.2.1 hservable.2.2 with
    hrefused | ⟨hid, hadded⟩
  · rw [hrefused] at hserving ⊢
    exact ⟨hserving, h.vocabSize_eq, h.eosTokenId_eq,
      fun id hid => (h.issued id hid).trans (Nat.le_succ _), h.active_submitted,
      h.results_submitted, h.started, fun id sub hsub => (h.onStream id sub hsub).congr rfl rfl
        rfl rfl (fun _ => rfl) fun hend => Or.inr ⟨hend, fun hc => hc⟩⟩
  rw [hid]
  have hnew : s.engine.requestCounter + 1 ∉ s.submitted := fun hmem =>
    Nat.not_succ_le_self _ (h.issued _ hmem)
  have hfresh : s.engine.requestCounter + 1 ∉ s.engine.modelRunner.cancelledRequests := fun hc =>
    Nat.not_succ_le_self _ (h.serving.uncancelled _ hc).1
  have hother : ∀ r, r ≠ s.engine.requestCounter + 1 →
      (s.engine.addRequest promptTokens samplingParams now).2.modelRunner.batcher.requests r =
        s.engine.modelRunner.batcher.requests r := fun r hr => by
    rw [hadded.requests_eq, Function.update_of_ne hr]
  constructor
  · exact hserving
  · exact hadded.vocabSize_eq.trans h.vocabSize_eq
  · exact hadded.eosTokenId_eq.trans h.eosTokenId_eq
  · intro id hmem
    rw [hadded.counter_eq]
    rcases AList.mem_insert _ |>.mp hmem with rfl | hold
    · exact le_rfl
    · exact (h.issued id hold).trans (Nat.le_succ _)
  · intro id hmem
    rw [hadded.active_eq, AList.mem_insert] at hmem
    exact (AList.mem_insert _).mpr (hmem.imp_right (h.active_submitted id))
  · exact fun out hout => (AList.mem_insert _).mpr (Or.inr (h.results_submitted out hout))
  · intro r hr hstate
    rw [hadded.running_eq] at hr
    have hne : r ≠ s.engine.requestCounter + 1 := by
      rintro rfl
      exact (h.serving.lockstep.unused (Nat.lt_succ_self _)).2.1 hr
    rw [hother r hne] at hstate ⊢
    exact h.started r hr hstate
  · intro id sub hsub
    rw [lookup_insert_ite] at hsub
    split_ifs at hsub with hidnew
    · obtain rfl := Option.some.inj hsub
      subst hidnew
      have hself : (s.engine.addRequest promptTokens samplingParams
          now).2.modelRunner.batcher.requests (s.engine.requestCounter + 1) =
          Request.new (s.engine.requestCounter + 1) promptTokens samplingParams.maxTokens
            samplingParams.priority now := by
        rw [hadded.requests_eq, Function.update_self]
      constructor
      · rfl
      · rw [h.vocabSize_eq] at hsubmittable
        exact hsubmittable
      · exact congrArg Request.promptTokens hself
      · exact congrArg Request.maxNewTokens hself
      · rw [hself]
        rfl
      · rw [hself]
        simp only [resultsOf, Request.new, List.length_nil, List.take_zero,
          List.filter_eq_nil_iff, decide_eq_true_eq]
        rintro out hout hid
        exact hnew (hid ▸ h.results_submitted out hout)
      · rw [hself, hadded.active_eq]
        exact fun _ => ⟨AList.lookup_insert _, Nat.succ_pos _⟩
      · rw [hadded.active_eq]
        exact fun hend => absurd (AList.mem_insert _ |>.mpr (Or.inl rfl)) hend
    · have hlookup : (s.engine.addRequest promptTokens samplingParams
          now).2.activeRequests.lookup id = s.engine.activeRequests.lookup id := by
        rw [hadded.active_eq, AList.lookup_insert_ne hidnew]
      refine (h.onStream id sub hsub).congr ?_ ?_ ?_ rfl (fun _ => hlookup) fun hend => Or.inr ?_
      · rw [hother id hidnew]
      · rw [hother id hidnew]
      · rw [hother id hidnew]
      · rw [hadded.cancelled_eq]
        refine ⟨fun hmem => hend ?_, fun hc => hc⟩
        rw [← AList.lookup_isSome, hlookup]
        exact AList.lookup_isSome.mpr hmem

theorem Served.cancelRequest (h : Served vocabSize eosTokenId s) {requestId : ℤ}
    (hmeets : s.Meets (.cancelRequest requestId))
    (hstep : s.step (.cancelRequest requestId) = some s') : Served vocabSize eosTokenId s' := by
  obtain rfl := Option.some.inj hstep
  have hserving := h.serving.cancelRequest hmeets
  simp only [returned, List.append_nil, submit]
  rcases s.engine.cancelRequest_spec requestId with hsame | ⟨-, hcancelled⟩
  · rw [hsame]
    exact h
  have hfields : ∀ r,
      ((s.engine.cancelRequest requestId).modelRunner.batcher.requests r).promptTokens =
        (s.engine.modelRunner.batcher.requests r).promptTokens ∧
      ((s.engine.cancelRequest requestId).modelRunner.batcher.requests r).maxNewTokens =
        (s.engine.modelRunner.batcher.requests r).maxNewTokens ∧
      ((s.engine.cancelRequest requestId).modelRunner.batcher.requests r).generatedTokens =
        (s.engine.modelRunner.batcher.requests r).generatedTokens := fun r => by
    rcases hcancelled.requests_eq r with hreq | hreq <;> rw [hreq] <;> exact ⟨rfl, rfl, rfl⟩
  constructor
  · exact hserving
  · exact hcancelled.vocabSize_eq.trans h.vocabSize_eq
  · exact hcancelled.eosTokenId_eq.trans h.eosTokenId_eq
  · exact fun id hid => hcancelled.counter_eq ▸ h.issued id hid
  · intro id hid
    rw [hcancelled.active_eq, AList.mem_erase] at hid
    exact h.active_submitted id hid.2
  · exact h.results_submitted
  · intro r hr hstate
    rcases hcancelled.requests_eq r with hreq | hreq
    · rw [hreq] at hstate ⊢
      exact h.started r (hcancelled.running_sub r hr) hstate
    · rw [hreq] at hstate
      contradiction
  · intro id sub hsub
    refine (h.onStream id sub hsub).congr (hfields id).1 (hfields id).2.1 (hfields id).2.2 rfl
      (fun hid => ?_) fun hend => ?_
    · rw [hcancelled.active_eq, AList.mem_erase] at hid
      rw [hcancelled.active_eq, AList.lookup_erase_ne hid.1]
    · rw [hcancelled.active_eq, AList.mem_erase, not_and_or, not_not] at hend
      rw [hcancelled.cancelled_eq]
      rcases hend with rfl | hend
      · exact Or.inl (Finset.mem_insert_self _ _)
      · exact Or.inr ⟨hend, Finset.mem_insert_of_mem⟩

end Calls

section Step
variable {skipped : List RequestRef} (hs : s.engine.modelRunner.batcher.Scheduled
  s.engine.modelRunner.batcher.scheduleStep.2 s.engine.modelRunner.batcher.scheduleStep.1 skipped)
include hs

/-- What the batch samples for a request. -/
theorem Served.sampled (h : Served vocabSize eosTokenId s) (hv₀ : 1 ≤ vocabSize)
    (hv : vocabSize < 2 ^ 31) {r : RequestRef} (hr : r ∈ s.engine.emitted) {sub : Submission}
    (hsub : s.submitted.lookup r = some sub) :
    (s.engine.batchOutput r).tokenId = referenceToken vocabSize sub.request
      ((s.engine.modelRunner.batcher.requests r).generatedTokens.length + 1) := by
  have hon := h.onStream r sub hsub
  have hscheduled := h.serving.lockstep.scheduled_requests hs r
  have hlast : (s.engine.scheduledRunner.batcher.requests r).promptTokens =
        sub.request.promptTokens ∧ (s.engine.scheduledRunner.batcher.requests r).generatedTokens =
        (s.engine.modelRunner.batcher.requests r).generatedTokens := by
    rw [hscheduled]
    split_ifs <;> exact ⟨hon.prompt_eq, rfl⟩
  simp only [LLMEngine.batchOutput, output, h.vocabSize_eq]
  split_ifs with hprefill
  · obtain ⟨-, -, hnone⟩ := h.serving.lockstep.prefill_waiting hs
      ((h.serving.lockstep.mem_batch hs r).1.mp hprefill).1
    rw [hnone, List.length_nil, ← prefillToken_eq hv hon.submittable, prefillToken, prefillToken,
      hlast.1]
  · have hdecode := ((LLMEngine.mem_emitted r).mp hr).resolve_left hprefill
    obtain ⟨hrunning, hstate⟩ := (h.serving.lockstep.mem_decode hs r).mp
      ((h.serving.lockstep.mem_batch hs r).2.mp hdecode).1
    obtain ⟨k, hk⟩ := Nat.exists_eq_succ_of_ne_zero
      (List.length_pos_of_ne_nil (h.started r hrunning hstate)).ne'
    have hgenerated := hon.generated_eq
    rw [hk] at hgenerated ⊢
    exact decodeToken_eq hv₀ hv (hlast.2.trans hgenerated)

/-- The token is appended, and the engine ends the request exactly at the end of its stream. -/
theorem Served.emitted (h : Served vocabSize eosTokenId s) (hv₀ : 1 ≤ vocabSize)
    (hv : vocabSize < 2 ^ 31) {r : RequestRef} (hr : r ∈ s.engine.emitted) {sub : Submission}
    (hsub : s.submitted.lookup r = some sub) :
    (s.engine.step.2.modelRunner.batcher.requests r).generatedTokens =
        (s.engine.modelRunner.batcher.requests r).generatedTokens ++
          [referenceToken vocabSize sub.request
            ((s.engine.modelRunner.batcher.requests r).generatedTokens.length + 1)] ∧
      LLMEngine.endsRequest s.engine.activeRequests (s.engine.batchOutput r) =
        sub.ends vocabSize eosTokenId
          (s.engine.modelRunner.batcher.requests r).generatedTokens.length := by
  have hon := h.onStream r sub hsub
  have hsampled := h.sampled hs hv₀ hv hr hsub
  have hactive := (h.serving.lockstep.live_iff r).mp (h.serving.lockstep.emitted_live hs hr).1
  have hscheduled : (s.engine.scheduledRunner.batcher.requests r).generatedTokens =
        (s.engine.modelRunner.batcher.requests r).generatedTokens ∧
      (s.engine.scheduledRunner.batcher.requests r).maxNewTokens = sub.request.maxNewTokens := by
    rw [h.serving.lockstep.scheduled_requests hs]
    split_ifs <;> exact ⟨rfl, hon.max_eq⟩
  constructor
  · have hrequests := h.serving.lockstep.emitted_advance hs hr
    rw [(h.serving.lockstep.stepEffect hs).requests_eq, Requests.markAll]
    split_ifs <;> rw [hrequests, hscheduled.1, hsampled]
  · have hout : (s.engine.batchOutput r).requestId = r := h.serving.lockstep.emitted_id hs hr
    have hfinal : (s.engine.batchOutput r).isFinal =
        (decide ((s.engine.batchOutput r).tokenId = eosTokenId) ||
          decide (sub.request.maxNewTokens.toNat ≤
            (s.engine.modelRunner.batcher.requests r).generatedTokens.length + 1)) := by
      rw [← hscheduled.1, ← hon.submittable.ofInt_maxNewTokens, ← hscheduled.2, ← h.eosTokenId_eq]
      rfl
    rw [LLMEngine.endsRequest, hout, (hon.active hactive).1]
    simp only [hfinal, hsampled, Submission.ends]

/-- The results of a step with one id. -/
theorem Served.filter_results (h : Served vocabSize eosTokenId s) (id : ℕ) :
    s.engine.step.1.filter (fun out => out.requestId = id) =
      if id ∈ s.engine.emitted then
        [⟨id, (s.engine.batchOutput id).tokenId,
          LLMEngine.endsRequest s.engine.activeRequests (s.engine.batchOutput id), none⟩]
      else [] := by
  rw [h.serving.results_eq hs, List.filter_map]
  have hself : (fun out : GenerationOutput => decide (out.requestId = id)) ∘ (fun r =>
      (⟨r, (s.engine.batchOutput r).tokenId, LLMEngine.endsRequest s.engine.activeRequests
        (s.engine.batchOutput r), none⟩ : GenerationOutput)) = fun r => decide (r = id) := rfl
  rw [hself, List.filter_eq]
  split_ifs with hid
  · have hcount : s.engine.emitted.count id = 1 :=
      List.count_eq_one_of_mem (h.serving.lockstep.batch_nodup hs) hid
    rw [hcount]
    rfl
  · rw [List.count_eq_zero_of_not_mem hid]
    rfl

theorem Served.onStream_step (h : Served vocabSize eosTokenId s) (hv₀ : 1 ≤ vocabSize)
    (hv : vocabSize < 2 ^ 31) {id : ℕ} {sub : Submission}
    (hsub : s.submitted.lookup id = some sub) :
    OnStream vocabSize eosTokenId
      { s with engine := s.engine.step.2, results := s.results ++ s.engine.step.1 } id sub := by
  have hon := h.onStream id sub hsub
  have heffect := h.serving.lockstep.stepEffect hs
  have horigin := h.serving.step_origin hs id
  have hresults : resultsOf { s with
      engine := s.engine.step.2, results := s.results ++ s.engine.step.1 } id =
        s.resultsOf id ++ s.engine.step.1.filter fun out => out.requestId = id :=
    List.filter_append _ _
  have hlookup : id ∈ s.engine.step.2.activeRequests →
      s.engine.step.2.activeRequests.lookup id = s.engine.activeRequests.lookup id :=
    fun hid => h.serving.active_lookup hs hid
  by_cases hid : id ∈ s.engine.emitted
  · obtain ⟨hgenerated, hends⟩ := h.emitted hs hv₀ hv hid hsub
    have hactive := (h.serving.lockstep.live_iff id).mp (h.serving.lockstep.emitted_live hs hid).1
    obtain ⟨hparams, hlt⟩ := hon.active hactive
    have hends_iff := Submission.ends_iff hon.submittable.2.2.1 hlt
    have hended : id ∈ s.engine.ended ↔
        (s.engine.modelRunner.batcher.requests id).generatedTokens.length + 1 =
          sub.streamLength vocabSize eosTokenId := by
      rw [LLMEngine.mem_ended, hends, hends_iff, and_iff_right hid]
    have hlength : (s.engine.step.2.modelRunner.batcher.requests id).generatedTokens.length =
        (s.engine.modelRunner.batcher.requests id).generatedTokens.length + 1 := by
      rw [hgenerated, List.length_append, List.length_singleton]
    constructor
    · exact hon.id_eq
    · exact hon.submittable
    · exact horigin.prompt_eq.trans hon.prompt_eq
    · exact horigin.max_eq.trans hon.max_eq
    · simp only
      rw [hlength, hgenerated, List.range_succ, List.map_append, ← hon.generated_eq]
      rfl
    · rw [hresults, h.filter_results hs, if_pos hid, hon.results_eq]
      simp only
      rw [hlength, Submission.stream_take_succ hlt, Submission.result, hon.id_eq, ← hends,
        h.sampled hs hv₀ hv hid hsub]
    · intro hstays
      have hnot : id ∉ s.engine.ended := ((heffect.active_iff id).mp hstays).2
      simp only
      rw [hlookup hstays, hlength]
      rw [hended] at hnot
      exact ⟨hparams, by omega⟩
    · intro hgone
      simp only at hgone ⊢
      rw [heffect.active_iff, not_and_not_right, hended] at hgone
      rw [hlength]
      exact Or.inr (hgone hactive)
  · have hidle := h.serving.lockstep.idle_eq hs hid
    have hsame : (s.engine.step.2.modelRunner.batcher.requests id).generatedTokens =
        (s.engine.modelRunner.batcher.requests id).generatedTokens := by
      rw [hidle]
      split_ifs <;> rfl
    refine hon.congr horigin.prompt_eq horigin.max_eq hsame ?_ hlookup fun hgone => Or.inr ?_
    · rw [hresults, h.filter_results hs, if_neg hid, List.append_nil]
    · simp only at hgone ⊢
      rw [heffect.active_iff, not_and_not_right] at hgone
      rw [heffect.cancelled_eq]
      exact ⟨fun hactive => hid ((LLMEngine.mem_ended id).mp (hgone hactive)).1, fun hc => hc⟩

omit hs in
theorem Served.step (h : Served vocabSize eosTokenId s) (hv₀ : 1 ≤ vocabSize)
    (hv : vocabSize < 2 ^ 31) : Served vocabSize eosTokenId
      { s with engine := s.engine.step.2, results := s.results ++ s.engine.step.1 } := by
  obtain ⟨skipped, hs⟩ := BatcherState.scheduleStep_spec h.serving.lockstep.budgeted.tokens_le
  have heffect := h.serving.lockstep.stepEffect hs
  have hsubmitted : ∀ r ∈ s.engine.emitted, r ∈ s.submitted := fun r hr =>
    h.active_submitted r ((h.serving.lockstep.live_iff r).mp
      (h.serving.lockstep.emitted_live hs hr).1)
  constructor
  · exact h.serving.step
  · exact (h.serving.lockstep.executed hs).vocabSize_eq.trans h.vocabSize_eq
  · exact (h.serving.lockstep.executed hs).eosTokenId_eq.trans h.eosTokenId_eq
  · exact fun id hid => heffect.counter_eq ▸ h.issued id hid
  · exact fun id hid => h.active_submitted id ((heffect.active_iff id).mp hid).1
  · intro out hout
    rcases List.mem_append.mp hout with hold | hnew
    · exact h.results_submitted out hold
    · rw [h.serving.results_eq hs] at hnew
      obtain ⟨r, hr, rfl⟩ := List.mem_map.mp hnew
      exact hsubmitted r hr
  · intro r hr _
    have hemitted : r ∈ s.engine.emitted := by
      simp only at hr
      rw [heffect.batcher_eq, hs.running_eq, List.mem_append] at hr
      exact h.serving.emitted_of_scheduled hs hr.symm
    obtain ⟨sub, hsub⟩ := Option.isSome_iff_exists.mp
      (AList.lookup_isSome.mpr (hsubmitted r hemitted))
    simp [(h.emitted hs hv₀ hv hemitted hsub).1]
  · exact fun id sub hsub => h.onStream_step hs hv₀ hv hsub

end Step

theorem init_served (maxNumBatchedTokens : ℕ) {maxNumSeqs : ℕ} (hseqs : 1 ≤ maxNumSeqs) :
    Served vocabSize eosTokenId
      (init maxNumSeqs maxNumBatchedTokens vocabSize eosTokenId : ServedEngine Q) where
  serving := LLMEngine.init_serving hseqs _ _ _
  vocabSize_eq := rfl
  eosTokenId_eq := rfl
  issued id hid := absurd hid (AList.notMem_empty id)
  active_submitted id hid := absurd hid (AList.notMem_empty id)
  results_submitted out hout := absurd hout List.not_mem_nil
  started r hr := absurd hr List.not_mem_nil
  onStream id sub hsub := by
    rw [init, AList.lookup_empty] at hsub
    contradiction

theorem Served.call (h : Served vocabSize eosTokenId s) (hv₀ : 1 ≤ vocabSize)
    (hv : vocabSize < 2 ^ 31) {action : EngineAction} (hmeets : s.Meets action)
    (hstep : s.step action = some s') : Served vocabSize eosTokenId s' := by
  cases action with
  | addRequest promptTokens samplingParams now => exact h.addRequest hmeets hstep
  | step => exact Option.some.inj hstep ▸ h.step hv₀ hv
  | cancelRequest requestId => exact h.cancelRequest hmeets hstep

/-- Stepping on. -/
theorem Served.steps (h : Served vocabSize eosTokenId s) (hv₀ : 1 ≤ vocabSize)
    (hv : vocabSize < 2 ^ 31) (n : ℕ) :
    ∃ s' : ServedEngine Q, exec ServedEngine.step s (List.replicate n .step) = some s' ∧
      Served vocabSize eosTokenId s' ∧ s'.engine = s.engine.afterSteps n ∧
      s'.submitted = s.submitted ∧
      s'.engine.modelRunner.cancelledRequests = s.engine.modelRunner.cancelledRequests := by
  induction n generalizing s with
  | zero => exact ⟨s, rfl, h, rfl, rfl, rfl⟩
  | succ n ih =>
    obtain ⟨skipped, hs⟩ := BatcherState.scheduleStep_spec h.serving.lockstep.budgeted.tokens_le
    obtain ⟨s', hrun, hserved, hengine, hsubmitted, hcancelled⟩ := ih (h.step hv₀ hv)
    exact ⟨s', hrun, hserved, hengine, hsubmitted,
      hcancelled.trans (h.serving.lockstep.stepEffect hs).cancelled_eq⟩

/-- The results of a request are always a prefix of its reference stream, and the whole stream once
it is neither active nor was cancelled. Stepping on returns the rest of every stream. -/
theorem serves_streams {maxNumSeqs : ℕ} (maxNumBatchedTokens : ℕ) (hseqs : 1 ≤ maxNumSeqs)
    (hv₀ : 1 ≤ vocabSize) (hv : vocabSize < 2 ^ 31) {actions : List EngineAction}
    (hmeets : AllSteps step Meets
      (init maxNumSeqs maxNumBatchedTokens vocabSize eosTokenId : ServedEngine Q) actions)
    (hrun : exec step (init maxNumSeqs maxNumBatchedTokens vocabSize eosTokenId) actions = some s)
    {id : ℕ} {sub : Submission} (hsub : s.submitted.lookup id = some sub) :
    s.resultsOf id <+: sub.stream vocabSize eosTokenId ∧
    (id ∈ s.engine.activeRequests ∨ id ∈ s.engine.modelRunner.cancelledRequests ∨
      s.resultsOf id = sub.stream vocabSize eosTokenId) ∧
    ∀ n, s.engine.remainingTokens ≤ n → id ∉ s.engine.modelRunner.cancelledRequests →
      ∃ s', exec step s (List.replicate n .step) = some s' ∧
        s'.resultsOf id = sub.stream vocabSize eosTokenId := by
  have hstream : ∀ t : ServedEngine Q, Served vocabSize eosTokenId t →
      t.submitted.lookup id = some sub → t.resultsOf id <+: sub.stream vocabSize eosTokenId ∧
        (id ∈ t.engine.activeRequests ∨ id ∈ t.engine.modelRunner.cancelledRequests ∨
          t.resultsOf id = sub.stream vocabSize eosTokenId) := by
    intro t ht hlookup
    have hon := ht.onStream id sub hlookup
    rw [hon.results_eq]
    refine ⟨List.take_prefix _ _, or_iff_not_imp_left.mpr fun hend => ?_⟩
    refine (hon.ended hend).imp_right fun hlength => ?_
    rw [hlength]
    exact List.take_of_length_le (by simp [Submission.stream])
  have h : Served vocabSize eosTokenId s := exec_invariant (I := Served vocabSize eosTokenId)
    (fun _ _ _ hs hm hstep => hs.call hv₀ hv hm hstep) (init_served _ hseqs) hmeets hrun
  refine ⟨(hstream s h hsub).1, (hstream s h hsub).2, fun n hn hcancelled => ?_⟩
  obtain ⟨s', hrun', hserved, hengine, hsubmitted, hsame⟩ := h.steps hv₀ hv n
  have hgone : id ∉ s'.engine.activeRequests := by
    rw [hengine]
    exact ((h.serving.drained hn).1 id).1
  obtain ⟨-, hstage⟩ := hstream s' hserved (hsubmitted ▸ hsub)
  exact ⟨s', hrun', (hstage.resolve_left hgone).resolve_left (hsame ▸ hcancelled)⟩

/-- One stream is cut by a stop token, the other one by its maximum. -/
theorem serves_streams_stopped : ∃ s : ServedEngine (List RequestRef),
    exec step (init 4 16 100 2) [.addRequest [7, 8] { stopTokenIds := {10} } 0,
      .addRequest [30] { maxTokens := 3 } 1, .step] = some s ∧
    ∃ s', exec step s (List.replicate 200 .step) = some s' ∧
      s'.resultsOf 1 = [⟨1, 9, false, none⟩, ⟨1, 10, true, none⟩] := by
  refine exec_exists (P := fun s => s.submitted.lookup 1 =
      some ⟨Request.new 1 [7, 8] 128 0 0, { stopTokenIds := {10} }⟩ ∧
    s.engine.remainingTokens ≤ 200 ∧ 1 ∉ s.engine.modelRunner.cancelledRequests)
    (by decide +kernel) ?_
  rintro s hrun ⟨hsub, hremaining, hcancelled⟩
  obtain ⟨s', hrun', hresults⟩ := (serves_streams 16 (by decide) (by decide) (by decide)
    (by decide +kernel) hrun hsub).2.2 200 hremaining hcancelled
  exact ⟨s', hrun', hresults.trans (by decide +kernel)⟩

end ServedEngine
end CudaForge.Engine
