import CudaForge.Engine.RunnerStep
import CudaForge.Library.Transition

/-! Every request's stream is its own reference sequence, whatever the schedule. -/
namespace CudaForge.Engine
open MachineWord FiniteMap PriorityQueue Scheduler

/-- The `i`-th generated token: the last prompt token advanced `i` times. -/
def referenceToken (vocabSize : ℕ) (req : Request) (i : ℕ) : ℤ :=
  (req.promptTokens.getLast?.getD 0 + i) % vocabSize

/-- `max_new_tokens`, or less when an end-of-sequence token comes first. -/
def streamLength (vocabSize : ℕ) (eosTokenId : ℤ) (req : Request) : ℕ :=
  min req.maxNewTokens.toNat ((List.range req.maxNewTokens.toNat).findIdx
    (fun i => referenceToken vocabSize req (i + 1) = eosTokenId) + 1)

def referenceStream (vocabSize : ℕ) (eosTokenId : ℤ) (req : Request) : List StreamOutput :=
  let n := streamLength vocabSize eosTokenId req
  (List.range n).map fun i => ⟨req.id, referenceToken vocabSize req (i + 1), i + 1 = n⟩

/-- The requests that callers may submit; the last bound is that of `int32_t`. -/
def Submittable (vocabSize : ℕ) (req : Request) : Prop :=
  req.promptTokens ≠ [] ∧ (∀ t ∈ req.promptTokens, 0 ≤ t ∧ t < vocabSize) ∧
    1 ≤ req.maxNewTokens ∧ req.maxNewTokens < 2 ^ 31

instance (vocabSize : ℕ) (req : Request) : Decidable (Submittable vocabSize req) :=
  inferInstanceAs (Decidable (_ ∧ _ ∧ _ ∧ _))

section
variable {vocabSize : ℕ} {eosTokenId : ℤ} {req : Request}

theorem nextToken_eq (hv : vocabSize < 2 ^ 31) {last : ℤ} (h₀ : 0 ≤ last) (h : last < vocabSize) :
    nextToken vocabSize last = (last + 1) % vocabSize := by
  have hword : (ofInt 64 (last + 1) : ℤ) = last + 1 := ofInt_eq (by omega) (by omega)
  have hlt : ofInt 64 (last + 1) % vocabSize < vocabSize := Nat.mod_lt _ (by omega)
  rw [nextToken, toSigned_eq (by omega), Int.natCast_mod, hword]

theorem prefillToken_eq (hv : vocabSize < 2 ^ 31) (h : Submittable vocabSize req) :
    prefillToken vocabSize req = referenceToken vocabSize req 1 := by
  obtain ⟨hprompt, hrange, -⟩ := h
  have hlast := List.getLast?_eq_some_getLast hprompt
  obtain ⟨h₀, hlt⟩ := hrange _ (List.getLast_mem hprompt)
  simp only [prefillToken, referenceToken, hlast, nextToken_eq hv h₀ hlt, Option.getD_some,
    Nat.cast_one]

theorem referenceToken_succ (i : ℕ) :
    referenceToken vocabSize req (i + 1) = (referenceToken vocabSize req i + 1) % vocabSize := by
  simp only [referenceToken, Int.emod_add_emod, Nat.cast_add, Nat.cast_one, add_assoc]

theorem decodeToken_eq (hv₀ : 1 ≤ vocabSize) (hv : vocabSize < 2 ^ 31) {original : Request} {k : ℕ}
    (hg : req.generatedTokens =
      (List.range (k + 1)).map fun i => referenceToken vocabSize original (i + 1)) :
    decodeToken vocabSize req = referenceToken vocabSize original (k + 2) := by
  have hlast : req.generatedTokens.getLast?.getD 0 = referenceToken vocabSize original (k + 1) := by
    rw [hg, List.range_succ, List.map_append]
    simp
  have hpos : (vocabSize : ℤ) ≠ 0 := by omega
  rw [decodeToken, hlast, referenceToken_succ (k + 1)]
  exact nextToken_eq hv (Int.emod_nonneg _ hpos) (Int.emod_lt_of_pos _ (by omega))

/-- The stop test holds for the last token of the reference stream only. -/
theorem stop_iff {k : ℕ} (hk : k < streamLength vocabSize eosTokenId req)
    (hmax : 1 ≤ req.maxNewTokens) :
    (referenceToken vocabSize req (k + 1) = eosTokenId ∨ req.maxNewTokens.toNat ≤ k + 1) ↔
      k + 1 = streamLength vocabSize eosTokenId req := by
  let p : ℕ → Bool := fun i => referenceToken vocabSize req (i + 1) = eosTokenId
  let first := (List.range req.maxNewTokens.toNat).findIdx p
  have hn : streamLength vocabSize eosTokenId req = min req.maxNewTokens.toNat (first + 1) := rfl
  rw [hn] at hk ⊢
  constructor
  · rintro (heos | hle)
    · have hnot : ¬k < first := by
        intro hlt
        have hfalse := List.not_of_lt_findIdx hlt
        simp only [List.getElem_range, p, heos] at hfalse
        simp at hfalse
      omega
    · omega
  · intro hlast
    by_cases hle : req.maxNewTokens.toNat ≤ k + 1
    · exact Or.inr hle
    · have hfirst : first = k := by omega
      have hlt : first < (List.range req.maxNewTokens.toNat).length := by
        rw [List.length_range]
        omega
      have htrue := List.findIdx_getElem (w := hlt)
      simp only [List.getElem_range, p] at htrue
      left
      have := of_decide_eq_true htrue
      rwa [show List.findIdx _ _ = k from hfirst] at this

theorem streamLength_pos (vocabSize : ℕ) (eosTokenId : ℤ) (h : 1 ≤ req.maxNewTokens) :
    0 < streamLength vocabSize eosTokenId req := by
  unfold streamLength
  omega

theorem Submittable.ofInt_maxNewTokens (h : Submittable vocabSize req) :
    ofInt 64 req.maxNewTokens = req.maxNewTokens.toNat := by
  obtain ⟨-, -, hpos, hlt⟩ := h
  have hword := ofInt_eq (w := 64) (x := req.maxNewTokens) (by omega) (by omega)
  omega

/-- The runner's stop test on a request that has followed its reference stream so far. -/
theorem stops_eq {original : Request} {sample : Request → ℤ} (h : Submittable vocabSize original)
    (hmax : req.maxNewTokens = original.maxNewTokens)
    (hk : req.generatedTokens.length < streamLength vocabSize eosTokenId original)
    (hs : sample req = referenceToken vocabSize original (req.generatedTokens.length + 1)) :
    stops eosTokenId sample req =
      decide (req.generatedTokens.length + 1 = streamLength vocabSize eosTokenId original) := by
  rw [stops, hs, hmax, h.ofInt_maxNewTokens, ← Bool.decide_or]
  exact decide_eq_decide.mpr (stop_iff hk h.2.2.1)

end

/-- A batcher with its runner, what `pop_all` has returned so far, the requests submitted, and those
admitted to a prefill batch. -/
structure RunnerSystem (Q : Type) where
  runner : ModelRunner Q
  popped : List StreamOutput
  submitted : List RequestRef
  admitted : List RequestRef

inductive RunnerAction where
  | addRequest (r : RequestRef)
  | step
  | cancelRequest (requestId : ℕ)
  | popAll
  deriving DecidableEq

namespace RunnerSystem
variable {Q : Type} [PriorityQueue Q RequestRef]

def init (maxNumSeqs maxNumBatchedTokens vocabSize : ℕ) (eosTokenId : ℤ) (objects : Requests) :
    RunnerSystem Q :=
  ⟨ModelRunner.init (BatcherState.init maxNumSeqs maxNumBatchedTokens objects) vocabSize eosTokenId,
    [], [], []⟩

/-- A new object whose id was neither used nor cancelled before. -/
def Fresh (s : RunnerSystem Q) (r : RequestRef) : Prop :=
  let requests := s.runner.batcher.requests
  r ∉ s.submitted ∧ (∀ q ∈ s.submitted, (requests q).id ≠ (requests r).id) ∧
    (requests r).id ∉ s.runner.cancelledRequests ∧ Submittable s.runner.vocabSize (requests r)

instance (s : RunnerSystem Q) (r : RequestRef) : Decidable (s.Fresh r) :=
  inferInstanceAs (Decidable (_ ∧ _ ∧ _ ∧ _))

/-- One call; `none` when the caller may not submit the request. -/
def step (s : RunnerSystem Q) : RunnerAction → Option (RunnerSystem Q)
  | .addRequest r =>
    if s.Fresh r then
      some { s with
        runner := { s.runner with batcher := (s.runner.batcher.addRequest (some r)).2 }
        submitted := s.submitted ++ [r] }
    else none
  | .step =>
    some { s with
      runner := s.runner.step.2
      admitted := s.admitted ++ s.runner.batcher.scheduleStep.1.prefillRequests }
  | .cancelRequest requestId => some { s with runner := s.runner.cancelRequest requestId }
  | .popAll =>
    let result := s.runner.streamBuffer.popAll
    some { s with
      runner := { s.runner with streamBuffer := result.2 }
      popped := s.popped ++ result.1 }

def outputs (s : RunnerSystem Q) (requestId : ℕ) : List StreamOutput :=
  (s.popped ++ s.runner.streamBuffer.queue).filter fun o => o.requestId = requestId

section
variable (vocabSize : ℕ) (eosTokenId : ℤ) (objects : Requests)

/-- Where a submitted request is: not yet admitted, decoding, at the end of its stream, or
cancelled. -/
inductive Phase (s : RunnerSystem Q) (r : RequestRef) : Prop where
  | waiting (state_eq : (s.runner.batcher.requests r).state = .waiting)
      (generated_eq : (s.runner.batcher.requests r).generatedTokens = [])
      (mem_items : r ∈ items s.runner.batcher.batcher.waitingQueue)
      (notMem_running : r ∉ s.runner.batcher.batcher.runningRequests)
      (notMem_admitted : r ∉ s.admitted)
      (not_cancelled : (objects r).id ∉ s.runner.cancelledRequests)
  | running (state_eq : (s.runner.batcher.requests r).state = .running)
      (generated_pos : 0 < (s.runner.batcher.requests r).generatedTokens.length)
      (generated_lt : (s.runner.batcher.requests r).generatedTokens.length <
        streamLength vocabSize eosTokenId (objects r))
      (mem_running : r ∈ s.runner.batcher.batcher.runningRequests)
      (notMem_items : r ∉ items s.runner.batcher.batcher.waitingQueue)
      (not_cancelled : (objects r).id ∉ s.runner.cancelledRequests)
  | ended (state_eq : (s.runner.batcher.requests r).state = .finished)
      (generated_eq : (s.runner.batcher.requests r).generatedTokens.length =
        streamLength vocabSize eosTokenId (objects r))
  | cancelled (state_eq : (s.runner.batcher.requests r).state = .finished)
      (notMem_running : r ∉ s.runner.batcher.batcher.runningRequests)
      (mem_cancelled : (objects r).id ∈ s.runner.cancelledRequests)

structure Tracked (s : RunnerSystem Q) (r : RequestRef) : Prop where
  id_eq : (s.runner.batcher.requests r).id = (objects r).id
  prompt_eq : (s.runner.batcher.requests r).promptTokens = (objects r).promptTokens
  max_eq : (s.runner.batcher.requests r).maxNewTokens = (objects r).maxNewTokens
  generated_eq : (s.runner.batcher.requests r).generatedTokens =
    (List.range (s.runner.batcher.requests r).generatedTokens.length).map
      fun i => referenceToken vocabSize (objects r) (i + 1)
  generated_le : (s.runner.batcher.requests r).generatedTokens.length ≤
    streamLength vocabSize eosTokenId (objects r)
  outputs_eq : s.outputs (objects r).id = (referenceStream vocabSize eosTokenId (objects r)).take
    (s.runner.batcher.requests r).generatedTokens.length
  phase : Phase vocabSize eosTokenId objects s r

structure Streaming (s : RunnerSystem Q) : Prop where
  vocabSize_eq : s.runner.vocabSize = vocabSize
  eosTokenId_eq : s.runner.eosTokenId = eosTokenId
  budgeted : s.runner.batcher.Budgeted
  untouched : ∀ r, r ∉ s.submitted → s.runner.batcher.requests r = objects r
  submittable : ∀ r ∈ s.submitted, Submittable vocabSize (objects r)
  id_inj : ∀ r ∈ s.submitted, ∀ q ∈ s.submitted, (objects r).id = (objects q).id → r = q
  items_submitted : ∀ r ∈ items s.runner.batcher.batcher.waitingQueue, r ∈ s.submitted
  running_submitted : ∀ r ∈ s.runner.batcher.batcher.runningRequests, r ∈ s.submitted
  admitted_submitted : ∀ r ∈ s.admitted, r ∈ s.submitted
  map_submitted : ∀ id r, s.runner.batcher.batcher.requestMap.lookup id = some r →
    r ∈ s.submitted ∧ (objects r).id = id
  outputs_submitted : ∀ o ∈ s.popped ++ s.runner.streamBuffer.queue,
    ∃ r ∈ s.submitted, (objects r).id = o.requestId
  items_nodup : (items s.runner.batcher.batcher.waitingQueue).Nodup
  running_nodup : s.runner.batcher.batcher.runningRequests.Nodup
  tracked : ∀ r ∈ s.submitted, Tracked vocabSize eosTokenId objects s r

end
end RunnerSystem
end CudaForge.Engine
