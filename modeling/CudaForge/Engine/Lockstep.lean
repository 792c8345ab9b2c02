import CudaForge.Engine.LLMEngine
import CudaForge.Engine.RunnerStep

/-! Engine, scheduler and KV cache agree on the live requests and their lengths. -/
namespace CudaForge.Engine
open MachineWord FiniteMap PriorityQueue Scheduler

namespace LLMEngine
variable {Q : Type} [PriorityQueue Q RequestRef]

def Live (e : LLMEngine Q) (r : RequestRef) : Prop :=
  let s := e.modelRunner.batcher
  (r ∈ items s.batcher.waitingQueue ∨ r ∈ s.batcher.runningRequests) ∧
    (s.requests r).state ≠ .finished

/-- The three stores hold the same ids, the stream is drained, and the lengths agree. -/
def InLockstep (e : LLMEngine Q) : Prop :=
  (∀ id, id ∈ e.activeRequests ↔ id ∈ e.kvCache) ∧
  (∀ id, id ∈ e.activeRequests ↔
    ∃ r, e.Live r ∧ (e.modelRunner.batcher.requests r).id = id) ∧
  e.modelRunner.streamBuffer.queue = [] ∧
  ∀ r, e.Live r → e.kvCache.lookup (e.modelRunner.batcher.requests r).id =
    some (e.modelRunner.batcher.requests r).getTotalLength

/-- The inductive form: an object is referred to by its id, live objects are the active ones, and a
running object can still take a token. -/
structure Lockstep (e : LLMEngine Q) : Prop where
  budgeted : e.modelRunner.batcher.Budgeted
  id_eq : ∀ r, r ∈ items e.modelRunner.batcher.batcher.waitingQueue ∨
    r ∈ e.modelRunner.batcher.batcher.runningRequests →
      (e.modelRunner.batcher.requests r).id = r ∧ r ≤ e.requestCounter
  map_eq : ∀ id r, e.modelRunner.batcher.batcher.requestMap.lookup id = some r →
    r = id ∧ id ≤ e.requestCounter
  live_iff : ∀ r, e.Live r ↔ r ∈ e.activeRequests
  kv_eq : ∀ id, e.kvCache.lookup id =
    if id ∈ e.activeRequests then some (e.modelRunner.batcher.requests id).getTotalLength else none
  queue_eq : e.modelRunner.streamBuffer.queue = []
  items_nodup : (items e.modelRunner.batcher.batcher.waitingQueue).Nodup
  running_nodup : e.modelRunner.batcher.batcher.runningRequests.Nodup
  waiting_new : ∀ r ∈ items e.modelRunner.batcher.batcher.waitingQueue,
    (e.modelRunner.batcher.requests r).state ≠ .finished →
      (e.modelRunner.batcher.requests r).state = .waiting ∧
        (e.modelRunner.batcher.requests r).generatedTokens = []
  running_open : ∀ r ∈ e.modelRunner.batcher.batcher.runningRequests,
    (e.modelRunner.batcher.requests r).state = .running →
      (e.modelRunner.batcher.requests r).generatedTokens.length <
        ofInt 64 (e.modelRunner.batcher.requests r).maxNewTokens
  stale_pos : ∀ r ∈ items e.modelRunner.batcher.batcher.waitingQueue,
    (e.modelRunner.batcher.requests r).state ≠ .finished → r ∈ e.modelRunner.cancelledRequests →
      0 < ofInt 64 (e.modelRunner.batcher.requests r).maxNewTokens

theorem Lockstep.inLockstep {e : LLMEngine Q} (h : e.Lockstep) : e.InLockstep := by
  have hid : ∀ r, e.Live r → (e.modelRunner.batcher.requests r).id = r :=
    fun r hr => (h.id_eq r hr.1).1
  refine ⟨fun id => ?_, fun id => ?_, h.queue_eq, fun r hr => ?_⟩
  · rw [← AList.lookup_isSome (s := e.kvCache), h.kv_eq]
    split_ifs with hm <;> simp [hm]
  · rw [← h.live_iff]
    constructor
    · exact fun hl => ⟨id, hl, hid id hl⟩
    · rintro ⟨r, hl, rfl⟩
      rwa [hid r hl]
  · rw [hid r hr, h.kv_eq, if_pos ((h.live_iff r).mp hr)]

/-- The calls of `add_request` that keep the engine in lockstep: both integers convert, and a
request that may not generate anything does not get an id that was cancelled in advance. -/
def Admissible (e : LLMEngine Q) : EngineAction → Prop
  | .addRequest _ samplingParams _ =>
    fitsInt32 samplingParams.maxTokens = true ∧ fitsInt32 samplingParams.priority = true ∧
      ¬(samplingParams.maxTokens = 0 ∧
        e.requestCounter + 1 ∈ e.modelRunner.cancelledRequests)
  | _ => True

theorem init_lockstep (maxNumSeqs maxNumBatchedTokens vocabSize : ℕ) (eosTokenId : ℤ) :
    (init maxNumSeqs maxNumBatchedTokens vocabSize eosTokenId : LLMEngine Q).Lockstep where
  budgeted := BatcherState.init_budgeted _ _ fun _ => rfl
  id_eq r hr := by simp [init, ModelRunner.init, BatcherState.init, items_empty] at hr
  map_eq id r hr := by simp [init, ModelRunner.init, BatcherState.init] at hr
  live_iff r := by
    simp [Live, init, ModelRunner.init, BatcherState.init, items_empty]
  kv_eq id := by simp [init]
  queue_eq := rfl
  items_nodup := by simp [init, ModelRunner.init, BatcherState.init, items_empty]
  running_nodup := List.nodup_nil
  waiting_new r hr := by simp [init, ModelRunner.init, BatcherState.init, items_empty] at hr
  running_open r hr := absurd hr List.not_mem_nil
  stale_pos r hr := by simp [init, ModelRunner.init, BatcherState.init, items_empty] at hr

/-- An id that was not given out yet is unknown everywhere. -/
theorem Lockstep.unused {e : LLMEngine Q} (h : e.Lockstep) {r : ℕ} (hr : e.requestCounter < r) :
    r ∉ items e.modelRunner.batcher.batcher.waitingQueue ∧
      r ∉ e.modelRunner.batcher.batcher.runningRequests ∧
      r ∉ e.modelRunner.batcher.batcher.requestMap ∧ r ∉ e.activeRequests := by
  have hitems : r ∉ items e.modelRunner.batcher.batcher.waitingQueue := fun hm =>
    Nat.not_le.mpr hr (h.id_eq r (Or.inl hm)).2
  have hrunning : r ∉ e.modelRunner.batcher.batcher.runningRequests := fun hm =>
    Nat.not_le.mpr hr (h.id_eq r (Or.inr hm)).2
  refine ⟨hitems, hrunning, fun hm => ?_, fun hm => ?_⟩
  · obtain ⟨q, hq⟩ := Option.isSome_iff_exists.mp (AList.lookup_isSome.mpr hm)
    exact Nat.not_le.mpr hr (h.map_eq r q hq).2
  · exact (((h.live_iff r).mpr hm).1).elim hitems hrunning

/-- A new object that nothing refers to keeps the scheduler's invariant. -/
theorem budgeted_create {s : BatcherState Q} (h : s.Budgeted) {r : RequestRef}
    (hitems : r ∉ items s.batcher.waitingQueue) (hrunning : r ∉ s.batcher.runningRequests)
    {requests : Requests} (hold : ∀ q, q ≠ r → requests q = s.requests q)
    (hnew : (requests r).state = .waiting) :
    BatcherState.Budgeted { s with requests := requests } := by
  have hneItems : ∀ q ∈ items s.batcher.waitingQueue, requests q = s.requests q := by
    intro q hq
    exact hold q (by rintro rfl; exact hitems hq)
  have hneRunning : ∀ q ∈ s.batcher.runningRequests, requests q = s.requests q := by
    intro q hq
    exact hold q (by rintro rfl; exact hrunning hq)
  constructor
  · exact h.seqs_le
  · exact h.tokens_le
  · intro q hq
    simp only
    rw [hneRunning q hq]
    exact h.mapped q hq
  · intro q hq
    simp only
    rw [hneItems q hq]
    exact h.waiting_mapped q hq
  · intro q hq
    simp only [hneRunning q hq]
    exact h.live q hq
  · intro q hq
    simp only [hneItems q hq]
    exact h.prompted q hq
  · intro q
    by_cases hq : q = r
    · simp [hq, hnew]
    · simp only [hold q hq]
      exact h.not_preempted q

/-- What queueing a new object does to the runner's state. -/
theorem queueRequest_eq {e : LLMEngine Q} {r : RequestRef} {req : Request} {requests : Requests}
    (hrequests : requests = Function.update e.modelRunner.batcher.requests r req)
    (hreq : req.state = .waiting) (hid : req.id = r) (hprompt : req.promptTokens ≠ [])
    (hmap : r ∉ e.modelRunner.batcher.batcher.requestMap) :
    e.queueRequest r req =
      { e with
        modelRunner := { e.modelRunner with
          batcher :=
            { batcher :=
                { e.modelRunner.batcher.batcher with
                  requestMap := e.modelRunner.batcher.batcher.requestMap.insert r r
                  waitingQueue :=
                    push requests.comparator r e.modelRunner.batcher.batcher.waitingQueue }
              requests := requests } } } := by
  have hself : requests r = req := by rw [hrequests, Function.update_self]
  have hsame : requests.setState r .waiting = requests := by
    rw [Requests.setState_eq_markAll]
    apply Requests.markAll_of_state
    intro q hq
    rw [List.mem_singleton.mp hq, hself, hreq]
  have hempty : req.promptTokens.isEmpty = false := by simpa using hprompt
  simp only [queueRequest, BatcherState.addRequest, ← hrequests, hself, hempty, hid, hmap, hsame,
    Bool.false_eq_true, if_false]

theorem ofInt_pos {x : ℤ} (hx : fitsInt32 x = true) (h : x ≠ 0) : 0 < ofInt 64 x := by
  simp only [fitsInt32, Bool.and_eq_true, decide_eq_true_eq] at hx
  simp only [ofInt]
  omega

/-- The engine after a new object was registered, queued and made active. -/
theorem Lockstep.queueRequest {e : LLMEngine Q} (h : e.Lockstep) {r : ℕ} (req : Request)
    (samplingParams : SamplingParams) (hr : r = e.requestCounter + 1) (hid : req.id = r)
    (hstate : req.state = .waiting) (hgen : req.generatedTokens = [])
    (hprompt : req.promptTokens ≠ [])
    (hstale : r ∈ e.modelRunner.cancelledRequests → 0 < ofInt 64 req.maxNewTokens) :
    Lockstep { e with
      requestCounter := r
      kvCache := e.kvCache.registerSequence r req.promptTokens
      modelRunner := (e.queueRequest r req).modelRunner
      activeRequests := e.activeRequests.insert r samplingParams } := by
  have hgrow : e.requestCounter ≤ r := by omega
  obtain ⟨hitems, hrunning, hmap, -⟩ := h.unused (r := r) (by omega)
  obtain ⟨requests, hrequests⟩ : ∃ requests : Requests,
      requests = Function.update e.modelRunner.batcher.requests r req := ⟨_, rfl⟩
  have hself : requests r = req := by rw [hrequests, Function.update_self]
  have hold : ∀ q, q ≠ r → requests q = e.modelRunner.batcher.requests q := by
    intro q hq
    rw [hrequests, Function.update_of_ne hq]
  rw [queueRequest_eq hrequests hstate hid hprompt hmap]
  have hnewItems : ∀ q ∈ items e.modelRunner.batcher.batcher.waitingQueue, q ≠ r := by
    rintro q hq rfl; exact hitems hq
  have hnewRunning : ∀ q ∈ e.modelRunner.batcher.batcher.runningRequests, q ≠ r := by
    rintro q hq rfl; exact hrunning hq
  constructor
  · have hqueued := (budgeted_create h.budgeted hitems hrunning hold (hself ▸ hstate)).addRequest
      (some r)
    have hcreated := congrArg (fun e => e.modelRunner.batcher)
      (queueRequest_eq hrequests hstate hid hprompt hmap)
    rw [hrequests] at hqueued
    rw [← show (e.queueRequest r req).modelRunner.batcher = _ from hcreated]
    exact hqueued
  · intro q hq
    simp only [items_push, Multiset.mem_cons, or_assoc] at hq ⊢
    rcases hq with rfl | hq
    · exact ⟨hself ▸ hid, le_rfl⟩
    · obtain ⟨hqid, hle⟩ := h.id_eq q hq
      have hne : q ≠ r := hq.elim (hnewItems q) (hnewRunning q)
      exact ⟨by rw [hold q hne, hqid], hle.trans hgrow⟩
  · intro id q hq
    rw [lookup_insert_ite] at hq
    split_ifs at hq with he
    · obtain rfl := Option.some.inj hq
      exact ⟨he.symm, he.le⟩
    · obtain ⟨hqid, hle⟩ := h.map_eq id q hq
      exact ⟨hqid, hle.trans hgrow⟩
  · intro q
    simp only [Live, items_push, Multiset.mem_cons, AList.mem_insert]
    by_cases hq : q = r
    · simp [hq, hself, hstate]
    · simp only [hq, false_or, hold q hq]
      exact h.live_iff q
  · intro id
    simp only [KVLengths.registerSequence, lookup_insert_ite, AList.mem_insert, h.kv_eq]
    by_cases he : id = r
    · simp [he, hself, Request.getTotalLength, hgen]
    · simp only [he, false_or, hold id he, if_false]
  · exact h.queue_eq
  · simp only [items_push, Multiset.nodup_cons]
    exact ⟨hitems, h.items_nodup⟩
  · exact h.running_nodup
  · intro q hq
    simp only [items_push, Multiset.mem_cons] at hq
    rcases hq with rfl | hq
    · simp only [hself]
      exact fun _ => ⟨hstate, hgen⟩
    · simp only [hold q (hnewItems q hq)]
      exact h.waiting_new q hq
  · intro q hq
    simp only [hold q (hnewRunning q hq)]
    exact h.running_open q hq
  · intro q hq
    simp only [items_push, Multiset.mem_cons] at hq
    rcases hq with rfl | hq
    · simp only [hself]
      exact fun _ => hstale
    · simp only [hold q (hnewItems q hq)]
      exact h.stale_pos q hq

theorem Lockstep.addRequest {e : LLMEngine Q} (h : e.Lockstep) {promptTokens : List ℤ}
    {samplingParams : SamplingParams} {now : ℕ} (hprompt : promptTokens ≠ [])
    (ha : e.Admissible (.addRequest promptTokens samplingParams now)) :
    (e.addRequest promptTokens samplingParams now).2.Lockstep := by
  obtain ⟨hmax, hprio, hstale⟩ := ha
  have hpos : e.requestCounter + 1 ∈ e.modelRunner.cancelledRequests →
      0 < ofInt 64 samplingParams.maxTokens :=
    fun hc => ofInt_pos hmax fun h0 => hstale ⟨h0, hc⟩
  have hqueued := h.queueRequest (Request.new (e.requestCounter + 1) promptTokens
    samplingParams.maxTokens samplingParams.priority now) samplingParams rfl rfl rfl rfl hprompt
    hpos
  unfold LLMEngine.addRequest
  dsimp only
  split_ifs with hprompts hfits
  · exact ⟨h.budgeted, fun r hr => ⟨(h.id_eq r hr).1, (h.id_eq r hr).2.trans (Nat.le_succ _)⟩,
      fun id r hr => ⟨(h.map_eq id r hr).1, (h.map_eq id r hr).2.trans (Nat.le_succ _)⟩,
      h.live_iff, h.kv_eq, h.queue_eq, h.items_nodup, h.running_nodup, h.waiting_new,
      h.running_open, h.stale_pos⟩
  · simp [hmax, hprio] at hfits
  · exact hqueued

/-- An id that the batcher does not know belongs to no live request. -/
theorem Lockstep.not_active {e : LLMEngine Q} (h : e.Lockstep) {r : ℕ}
    (hr : e.modelRunner.batcher.batcher.requestMap.lookup r = none) : r ∉ e.activeRequests := by
  rw [← h.live_iff]
  rintro ⟨hmem, hstate⟩
  have hid := (h.id_eq r hmem).1
  have hmapped : e.modelRunner.batcher.batcher.requestMap.lookup r = some r := by
    rcases hmem with hm | hm
    · have := h.budgeted.waiting_mapped r hm hstate
      rwa [hid] at this
    · have := h.budgeted.mapped r hm
      rwa [hid] at this
  rw [hr] at hmapped
  cases hmapped

theorem Lockstep.cancel_unknown {e : LLMEngine Q} (h : e.Lockstep) {r : ℕ}
    (hr : e.modelRunner.batcher.batcher.requestMap.lookup r = none) :
    Lockstep { e with
      modelRunner := { e.modelRunner with
        cancelledRequests := insert r e.modelRunner.cancelledRequests }
      kvCache := e.kvCache.unregisterSequence r
      activeRequests := e.activeRequests.erase r } := by
  have hactive := h.not_active hr
  have hmem : ∀ q, q ∈ e.activeRequests.erase r ↔ q ∈ e.activeRequests := by
    intro q
    rw [AList.mem_erase]
    exact ⟨And.right, fun hq => ⟨by rintro rfl; exact hactive hq, hq⟩⟩
  refine ⟨h.budgeted, h.id_eq, h.map_eq, fun q => (h.live_iff q).trans (hmem q).symm, fun q => ?_,
    h.queue_eq, h.items_nodup, h.running_nodup, h.waiting_new, h.running_open,
    fun q hq hstate hc => ?_⟩
  · simp only [KVLengths.unregisterSequence, lookup_erase_ite, hmem, h.kv_eq]
    split_ifs with hqr hq
    · exact absurd (hqr ▸ hq) hactive
    · rfl
    · rfl
    · rfl
  · rcases Finset.mem_insert.mp hc with rfl | hc
    · exact absurd ((h.live_iff q).mp ⟨Or.inl hq, hstate⟩) hactive
    · exact h.stale_pos q hq hstate hc

theorem Lockstep.cancel_known {e : LLMEngine Q} (h : e.Lockstep) {r : ℕ}
    (hr : e.modelRunner.batcher.batcher.requestMap.lookup r = some r) :
    Lockstep { e with
      modelRunner := e.modelRunner.cancelRequest r
      kvCache := e.kvCache.unregisterSequence r
      activeRequests := e.activeRequests.erase r } := by
  have hbudgeted := h.budgeted.cancelRequest r
  simp only [ModelRunner.cancelRequest, BatcherState.cancelRequest, hr,
    Requests.setState_eq_markAll, Requests.markAll_id] at hbudgeted ⊢
  have hother : ∀ q, q ≠ r → e.modelRunner.batcher.requests.markAll [r] .finished q =
      e.modelRunner.batcher.requests q :=
    fun q hq => Requests.markAll_of_notMem _ _ _ _ (by simpa using hq)
  have hself : (e.modelRunner.batcher.requests.markAll [r] .finished r).state = .finished := by
    rw [Requests.markAll_state, if_pos (List.mem_singleton_self r)]
  have hrunning : ∀ q, q ∈ e.modelRunner.batcher.batcher.runningRequests.filter
      (fun p => decide ((e.modelRunner.batcher.requests p).id ≠ r)) ↔
        q ∈ e.modelRunner.batcher.batcher.runningRequests ∧ q ≠ r := by
    intro q
    rw [List.mem_filter, decide_eq_true_iff]
    exact and_congr_right fun hq => by rw [(h.id_eq q (Or.inr hq)).1]
  constructor
  · exact hbudgeted
  · intro q hq
    simp only [Requests.markAll_id]
    exact h.id_eq q (hq.imp_right List.mem_of_mem_filter)
  · intro id q hq
    rw [lookup_erase_ite] at hq
    split_ifs at hq
    exact h.map_eq id q hq
  · intro q
    simp only [Live, hrunning, AList.mem_erase]
    by_cases hq : q = r
    · subst hq
      simp [hself]
    · simp only [hother q hq, hq, ne_eq, not_false_eq_true, and_true, true_and]
      exact h.live_iff q
  · intro id
    simp only [KVLengths.unregisterSequence, lookup_erase_ite, AList.mem_erase, h.kv_eq]
    by_cases hid : id = r
    · simp [hid]
    · simp only [hid, if_false, ne_eq, not_false_eq_true, true_and, hother id hid]
  · exact h.queue_eq
  · exact h.items_nodup
  · exact h.running_nodup.filter _
  · intro q hq hstate
    have hne : q ≠ r := by rintro rfl; exact hstate hself
    simp only [hother q hne] at hstate ⊢
    exact h.waiting_new q hq hstate
  · intro q hq
    obtain ⟨hq, hne⟩ := (hrunning q).mp hq
    simp only [hother q hne]
    exact h.running_open q hq
  · intro q hq hstate hc
    have hne : q ≠ r := by rintro rfl; exact hstate hself
    simp only [hother q hne] at hstate ⊢
    exact h.stale_pos q hq hstate ((Finset.mem_insert.mp hc).resolve_left hne)

theorem Lockstep.cancelRequest {e : LLMEngine Q} (h : e.Lockstep) (requestId : ℤ) :
    (e.cancelRequest requestId).Lockstep := by
  unfold LLMEngine.cancelRequest
  split_ifs
  · cases hmap : e.modelRunner.batcher.batcher.requestMap.lookup requestId.toNat with
    | none =>
      have hsame := h.cancel_unknown hmap
      simpa only [ModelRunner.cancelRequest, BatcherState.cancelRequest, hmap] using hsame
    | some q =>
      have hq := (h.map_eq _ q hmap).1
      exact h.cancel_known (hq ▸ hmap)
  · exact h

theorem lookup_appendTokens (kv : KVLengths) (sequenceId numTokens id : ℕ) :
    (kv.appendTokens sequenceId numTokens).lookup id =
      if id = sequenceId then (kv.lookup id).map (· + numTokens) else kv.lookup id := by
  unfold KVLengths.appendTokens
  cases hl : kv.lookup sequenceId with
  | none =>
    simp only
    split_ifs with hid
    · rw [hid, hl]
      rfl
    · rfl
  | some length =>
    simp only [lookup_insert_ite]
    split_ifs with hid
    · rw [hid, hl]
      rfl
    · rfl

/-- One pass over outputs of distinct requests: those that end are collected, the others grow. -/
theorem processOutputs_spec (activeRequests : FiniteMap ℕ SamplingParams)
    (outputs : List StreamOutput) (hnodup : (outputs.map StreamOutput.requestId).Nodup)
    (acc : OutputLoop) :
    let loop := outputs.foldl (processOutput activeRequests) acc
    loop.finishedReqIds = acc.finishedReqIds ++
        (outputs.filter (endsRequest activeRequests)).map StreamOutput.requestId ∧
      ∀ id, loop.kvCache.lookup id =
        if ∃ o ∈ outputs, o.requestId = id ∧ endsRequest activeRequests o = false then
          (acc.kvCache.lookup id).map (· + 1)
        else acc.kvCache.lookup id := by
  induction outputs generalizing acc with
  | nil => simp
  | cons o rest ih =>
    rw [List.map_cons, List.nodup_cons] at hnodup
    obtain ⟨hfinished, hkv⟩ := ih hnodup.2 (processOutput activeRequests acc o)
    simp only [List.foldl_cons]
    constructor
    · rw [hfinished, processOutput]
      cases hends : endsRequest activeRequests o <;> simp [hends]
    · intro id
      have hrest : (∃ p ∈ rest, p.requestId = o.requestId ∧
          endsRequest activeRequests p = false) → False := by
        rintro ⟨p, hp, he, -⟩
        exact hnodup.1 (he ▸ List.mem_map_of_mem hp)
      rw [hkv]
      simp only [List.mem_cons, exists_eq_or_imp, processOutput]
      cases hends : endsRequest activeRequests o with
      | true => simp
      | false =>
        simp only [Bool.false_eq_true, if_false, lookup_appendTokens, and_true]
        by_cases hid : id = o.requestId
        · subst hid
          rw [if_neg hrest]
          simp
        · simp [hid, Ne.symm hid]

theorem mem_eraseAll {α : Type} (ids : List ℕ) (m : FiniteMap ℕ α) (id : ℕ) :
    id ∈ ids.foldl (fun m id => m.erase id) m ↔ id ∈ m ∧ id ∉ ids := by
  induction ids generalizing m with
  | nil => simp
  | cons a rest ih =>
    rw [List.foldl_cons, ih, AList.mem_erase, List.mem_cons, not_or]
    tauto

theorem lookup_unregisterAll (ids : List ℕ) (kv : KVLengths) (id : ℕ) :
    (ids.foldl (fun kv id => kv.unregisterSequence id) kv).lookup id =
      if id ∈ ids then none else kv.lookup id := by
  induction ids generalizing kv with
  | nil => simp
  | cons a rest ih =>
    rw [List.foldl_cons, ih, KVLengths.unregisterSequence, lookup_erase_ite]
    simp only [List.mem_cons]
    by_cases ha : id = a <;> by_cases hr : id ∈ rest <;> simp [ha, hr]

end LLMEngine
end CudaForge.Engine
