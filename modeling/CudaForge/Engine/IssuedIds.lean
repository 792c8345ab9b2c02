import CudaForge.Engine.ConcurrentCancel
import CudaForge.Engine.Lockstep
import CudaForge.Engine.OutOfPages

/-! The engine schedules and emits only request ids that its counter has passed. -/
namespace CudaForge.Engine
open FiniteMap PriorityQueue Scheduler Memory

namespace ModelRunner
variable {Q : Type} [PriorityQueue Q RequestRef] {m : ModelRunner Q} {n : ℕ}

/-- The entries of the batcher and the outputs in the stream buffer have ids up to `n`. -/
structure IdsUpTo (m : ModelRunner Q) (n : ℕ) : Prop where
  budgeted : m.batcher.Budgeted
  ref_le : ∀ r ∈ m.batcher.entries, r ≤ n
  id_le : ∀ r ∈ m.batcher.entries, (m.batcher.requests r).id ≤ n
  queue_le : ∀ out ∈ m.streamBuffer.queue, out.requestId ≤ n

theorem IdsUpTo.mono (h : m.IdsUpTo n) {n' : ℕ} (hn : n ≤ n') : m.IdsUpTo n' where
  budgeted := h.budgeted
  ref_le r hr := (h.ref_le r hr).trans hn
  id_le r hr := (h.id_le r hr).trans hn
  queue_le out hout := (h.queue_le out hout).trans hn

/-- Entries may leave and objects may change, as long as their ids stay. -/
theorem IdsUpTo.of_entries (h : m.IdsUpTo n) {m' : ModelRunner Q} (hb : m'.batcher.Budgeted)
    (hentries : m'.batcher.entries ≤ m.batcher.entries)
    (hid : ∀ r, (m'.batcher.requests r).id = (m.batcher.requests r).id)
    (hqueue : ∀ out ∈ m'.streamBuffer.queue, out.requestId ≤ n) : m'.IdsUpTo n where
  budgeted := hb
  ref_le r hr := h.ref_le r (Multiset.mem_of_le hentries hr)
  id_le r hr := by
    rw [hid]
    exact h.id_le r (Multiset.mem_of_le hentries hr)
  queue_le := hqueue

theorem IdsUpTo.updateRequestsState (h : m.IdsUpTo n) (finishedIds : List ℕ) :
    IdsUpTo { m with batcher := m.batcher.updateRequestsState finishedIds } n := by
  refine h.of_entries (h.budgeted.updateRequestsState finishedIds) le_rfl (fun r => ?_) h.queue_le
  simp only [BatcherState.updateRequestsState_eq, Requests.markAll_id]

theorem IdsUpTo.popAll (h : m.IdsUpTo n) : IdsUpTo { m with streamBuffer := ⟨[]⟩ } n :=
  h.of_entries h.budgeted le_rfl (fun _ => rfl) fun _ hout => absurd hout List.not_mem_nil

theorem IdsUpTo.cancelRequest (h : m.IdsUpTo n) (requestId : ℕ) :
    (m.cancelRequest requestId).IdsUpTo n := by
  apply h.of_entries (h.budgeted.cancelRequest requestId)
    (BatcherState.cancelRequest_entries requestId)
  · intro r
    unfold ModelRunner.cancelRequest BatcherState.cancelRequest
    dsimp only
    split
    · rfl
    · exact Requests.setState_id _ _ _ _
  · exact h.queue_le

theorem IdsUpTo.scheduled (h : m.IdsUpTo n) : m.scheduled.IdsUpTo n :=
  h.of_entries h.budgeted.scheduleStep (BatcherState.scheduleStep_entries h.budgeted)
    (scheduled_id h.budgeted) h.queue_le

/-- A request of the batch runs after the schedule. -/
theorem IdsUpTo.batch_le (h : m.IdsUpTo n) {r : RequestRef}
    (hr : r ∈ m.batch.prefillRequests ++ m.batch.decodeRequests) :
    (m.scheduled.batcher.requests r).id ≤ n := by
  apply h.scheduled.id_le
  rw [BatcherState.mem_entries]
  exact Or.inl ((scheduledRequests_perm h.budgeted).subset (mem_batch.mp hr).1)

theorem IdsUpTo.step (h : m.IdsUpTo n) : m.step.2.IdsUpTo n := by
  have hs := h.scheduled
  have hexec := executeBatch_ids m.scheduled m.batch
  have houtputs : ∀ out ∈ (m.scheduled.executeBatch m.batch).generatedOutputs,
      out.requestId ≤ n := by
    intro out hout
    have hid := List.mem_map_of_mem (f := fun o : StreamOutput => o.requestId) hout
    rw [hexec.outputs_eq, List.map_nil, List.nil_append] at hid
    obtain ⟨r, hr, hrid⟩ := List.mem_map.mp hid
    rw [← hrid]
    exact h.batch_le hr
  unfold ModelRunner.step
  dsimp only
  split_ifs
  · exact hs
  · have hpushed : IdsUpTo { m.scheduled with
        streamBuffer := m.scheduled.streamBuffer.pushBatch
          (m.scheduled.executeBatch m.batch).generatedOutputs
        batcher := { m.scheduled.batcher with
          requests := (m.scheduled.executeBatch m.batch).requests } } n := by
      refine hs.of_entries (hs.budgeted.of_requests hexec.id_eq hexec.prompt_eq hexec.state_eq)
        le_rfl hexec.id_eq fun out hout => ?_
      rcases List.mem_append.mp hout with hold | hnew
      · exact h.queue_le out hold
      · exact houtputs out hnew
    exact hpushed.updateRequestsState _

end ModelRunner

namespace PagedEngine
variable {cfg : KVCacheConfig} {Q : Type} [PriorityQueue Q RequestRef] {e : PagedEngine cfg Q}

def Issued (e : PagedEngine cfg Q) : Prop := e.modelRunner.IdsUpTo e.requestCounter

theorem init_issued (maxNumSeqs maxNumBatchedTokens vocabSize : ℕ) (eosTokenId : ℤ) :
    (init cfg maxNumSeqs maxNumBatchedTokens vocabSize eosTokenId : PagedEngine cfg Q).Issued where
  budgeted := BatcherState.init_budgeted _ _ fun _ => rfl
  ref_le r hr := by
    simp [init, ModelRunner.init, BatcherState.init, BatcherState.entries, items_empty] at hr
  id_le r hr := by
    simp [init, ModelRunner.init, BatcherState.init, BatcherState.entries, items_empty] at hr
  queue_le out hout := absurd hout List.not_mem_nil

/-- A new object behind the reference that follows the counter is not an entry yet. -/
theorem Issued.queueRequest (h : e.Issued) {r : ℕ} (hr : r = e.requestCounter + 1)
    {cppRequest : Request} (hid : cppRequest.id = r) (hstate : cppRequest.state = .waiting) :
    (e.queueRequest r cppRequest).modelRunner.IdsUpTo r := by
  have hnext : e.requestCounter ≤ r := hr ▸ Nat.le_succ _
  have hnew : ∀ q ∈ e.modelRunner.batcher.entries, q ≠ r := by
    intro q hq hqr
    have hle : q ≤ e.requestCounter := h.ref_le q hq
    rw [hqr, hr] at hle
    exact Nat.not_succ_le_self _ hle
  let created : BatcherState Q := { e.modelRunner.batcher with
    requests := Function.update e.modelRunner.batcher.requests r cppRequest }
  have hold : ∀ q, q ≠ r → created.requests q = e.modelRunner.batcher.requests q :=
    fun q hq => Function.update_of_ne hq _ _
  have hself : created.requests r = cppRequest := Function.update_self _ _ _
  have hb : created.Budgeted := by
    apply LLMEngine.budgeted_create h.budgeted
      (fun hm => hnew r (BatcherState.mem_entries.mpr (Or.inr hm)) rfl)
      (fun hm => hnew r (BatcherState.mem_entries.mpr (Or.inl hm)) rfl) hold
    rw [hself, hstate]
  have hqueued : (e.queueRequest r cppRequest).modelRunner.batcher =
    (created.addRequest (some r)).2 := rfl
  have hids : ∀ q, ((created.addRequest (some r)).2.requests q).id = (created.requests q).id := by
    intro q
    by_cases hacc : created.Acceptable r
    · rw [BatcherState.addRequest_accepted hacc]
      exact Requests.setState_id _ _ _ _
    · rw [BatcherState.addRequest_refused hacc]
  have hmem : ∀ q ∈ (created.addRequest (some r)).2.entries,
      q = r ∨ q ∈ e.modelRunner.batcher.entries := by
    intro q hq
    rcases BatcherState.step_entries hb (.addRequest (some r)) with ⟨q', ha, -, hstep⟩ | hle
    · obtain rfl := Option.some.inj (BatcherAction.addRequest.inj ha)
      exact Multiset.mem_cons.mp (hstep ▸ hq)
    · exact Or.inr (Multiset.mem_of_le hle hq)
  constructor
  · rw [hqueued]
    exact hb.addRequest (some r)
  · intro q hq
    rcases hmem q hq with rfl | hq
    · exact le_rfl
    · exact (h.ref_le q hq).trans hnext
  · intro q hq
    rw [hqueued, hids]
    rcases hmem q hq with rfl | hq
    · rw [hself, hid]
    · rw [hold q (hnew q hq)]
      exact (h.id_le q hq).trans hnext
  · exact fun out hout => (h.queue_le out hout).trans hnext

/-- `add_request` takes the next id, also when it raises. -/
theorem addRequest_counter (e : PagedEngine cfg Q) (promptTokens : List ℤ)
    (samplingParams : SamplingParams) (now : ℕ) :
    (e.addRequest promptTokens samplingParams now).2.requestCounter = e.requestCounter + 1 ∧
      ∀ reqId, (e.addRequest promptTokens samplingParams now).1 = some reqId →
        reqId = e.requestCounter + 1 := by
  unfold addRequest
  dsimp only
  split_ifs
  · exact ⟨rfl, fun _ h => nomatch h⟩
  · split
    · exact ⟨rfl, fun _ h => nomatch h⟩
    · exact ⟨rfl, fun _ h => nomatch h⟩
  · split
    · exact ⟨rfl, fun _ h => nomatch h⟩
    · exact ⟨rfl, fun _ h => (Option.some.inj h).symm⟩

theorem Issued.addRequest (h : e.Issued) (promptTokens : List ℤ) (samplingParams : SamplingParams)
    (now : ℕ) : (e.addRequest promptTokens samplingParams now).2.Issued := by
  have hnext : e.modelRunner.IdsUpTo (e.requestCounter + 1) := h.mono (Nat.le_succ _)
  unfold PagedEngine.addRequest
  dsimp only
  split_ifs
  · exact hnext
  · split
    · exact hnext
    · exact hnext
  · split
    · exact hnext
    · exact h.queueRequest rfl rfl rfl

theorem Issued.cancelRequest (h : e.Issued) (requestId : ℤ) :
    (e.cancelRequest requestId).Issued := by
  unfold PagedEngine.cancelRequest
  split_ifs
  · exact ModelRunner.IdsUpTo.cancelRequest h _
  · exact h

omit [PriorityQueue Q RequestRef] in
theorem cancelRequest_counter (e : PagedEngine cfg Q) (requestId : ℤ) :
    (e.cancelRequest requestId).requestCounter = e.requestCounter := by
  unfold PagedEngine.cancelRequest
  split_ifs <;> rfl

theorem step_counter (e : PagedEngine cfg Q) : e.step.2.requestCounter = e.requestCounter := by
  unfold step
  dsimp only
  split <;> rfl

theorem Issued.step (h : e.Issued) : e.step.2.Issued := by
  have hpopped := (ModelRunner.IdsUpTo.step h).popAll
  unfold PagedEngine.step
  dsimp only
  split
  · exact hpopped
  · exact hpopped.updateRequestsState _

/-- The outputs that a step returns belong to requests that were added before it. -/
theorem Issued.results_le (h : e.Issued) {results : List GenerationOutput}
    (hstep : e.step.1 = .ok results) : ∀ out ∈ results, out.requestId ≤ e.requestCounter := by
  intro out hout
  have hid := List.mem_map_of_mem (f := fun o : GenerationOutput => o.requestId) hout
  rw [(step_ok hstep).2] at hid
  obtain ⟨popped, hpopped, heq⟩ := List.mem_map.mp hid
  rw [← heq]
  exact (ModelRunner.IdsUpTo.step h).queue_le popped hpopped

end PagedEngine
end CudaForge.Engine
