import CudaForge.Engine.LockstepStep
import CudaForge.Engine.OutOfPages
import CudaForge.Memory.SharedTables

/-!
The engine over the paged cache refines the engine over the lengths of its sequences, call by call,
as long as nothing throws. What the cache holds and when it throws is read off the lengths.
-/
namespace CudaForge.Engine
open FiniteMap PriorityQueue Scheduler Memory Transition

namespace PagedEngine
variable {cfg : KVCacheConfig} {Q : Type} [PriorityQueue Q RequestRef]

/-- Whether the conversions before the registration succeed and the registration throws. -/
def registrationThrows (p : PagedEngine cfg Q) (promptTokens : List ℤ) : Bool :=
  (p.requestCounter + 1 < 2 ^ 64 && promptTokens.all fitsInt32) &&
    !(p.kvCache.registerSequenceWithPrefix (p.requestCounter + 1)
      (promptTokens.map Int32.ofInt)).1.isOk

/-- One call in which the cache does not throw; callers pass non-empty prompts. -/
def call (p : PagedEngine cfg Q) : EngineAction → Option (PagedEngine cfg Q)
  | .addRequest promptTokens samplingParams now =>
    if promptTokens = [] ∨ p.registrationThrows promptTokens = true then none
    else some (p.addRequest promptTokens samplingParams now).2
  | .step => if p.step.1.isOk then some p.step.2 else none
  | .cancelRequest requestId => some (p.cancelRequest requestId)

/-- New requests take over full blocks only. Their integers convert, and one that may not generate
anything does not get an id that was cancelled in advance. -/
def Admits (p : PagedEngine cfg Q) : EngineAction → Prop
  | .addRequest promptTokens samplingParams _ =>
    p.kvCache.ReusesFull (promptTokens.map Int32.ofInt) ∧
      fitsInt32 samplingParams.maxTokens = true ∧ fitsInt32 samplingParams.priority = true ∧
      ¬(samplingParams.maxTokens = 0 ∧ p.requestCounter + 1 ∈ p.modelRunner.cancelledRequests)
  | _ => True

instance (p : PagedEngine cfg Q) : ∀ action, Decidable (p.Admits action)
  | .addRequest promptTokens _ _ =>
    show Decidable (p.kvCache.ReusesFull (promptTokens.map Int32.ofInt) ∧ _) from inferInstance
  | .step => isTrue trivial
  | .cancelRequest _ => isTrue trivial

/-- The engines agree, and the tables hold as many tokens as the lengths say. -/
structure Refines (p : PagedEngine cfg Q) (e : LLMEngine Q) : Prop where
  counter_eq : p.requestCounter = e.requestCounter
  active_eq : p.activeRequests = e.activeRequests
  runner_eq : p.modelRunner = e.modelRunner
  exact : p.kvCache.Exact e.kvCache
  issued : ∀ id ∈ p.kvCache.pageTables, id ≤ p.requestCounter

theorem init_refines (maxNumSeqs maxNumBatchedTokens vocabSize : ℕ) (eosTokenId : ℤ) :
    (init cfg maxNumSeqs maxNumBatchedTokens vocabSize eosTokenId : PagedEngine cfg Q).Refines
      (LLMEngine.init maxNumSeqs maxNumBatchedTokens vocabSize eosTokenId) where
  counter_eq := rfl
  active_eq := rfl
  runner_eq := rfl
  exact := PagedKVCache.init_exact
  issued id hid := absurd hid (AList.notMem_empty id)

section Calls
variable {p : PagedEngine cfg Q} {e : LLMEngine Q}

theorem exists_ok {ε α : Type} {result : Except ε α} (h : result.isOk = true) :
    ∃ a, result = .ok a := by
  cases result with
  | error exception => contradiction
  | ok a => exact ⟨a, rfl⟩

omit [PriorityQueue Q RequestRef] in
/-- A registration that returns. -/
theorem Refines.register (h : p.Refines e) {promptTokens : List ℤ}
    (hreuse : p.kvCache.ReusesFull (promptTokens.map Int32.ofInt)) (c : PagedKVCache cfg)
    (matched : ℕ) (hrun : p.kvCache.registerSequenceWithPrefix (p.requestCounter + 1)
      (promptTokens.map Int32.ofInt) = (.ok matched, c)) :
    c.Exact (e.kvCache.registerSequence (p.requestCounter + 1) promptTokens) ∧
      ∀ id ∈ c.pageTables, id ≤ p.requestCounter + 1 := by
  have hid : p.requestCounter + 1 ∉ p.kvCache.pageTables := fun hmem =>
    Nat.not_succ_le_self _ (h.issued _ hmem)
  refine ⟨?_, fun id hmem => ?_⟩
  · have hexact := h.exact.register hreuse hid hrun
    rwa [List.length_map] at hexact
  · have hregistered : id = p.requestCounter + 1 ∨ id ∈ p.kvCache.pageTables :=
      PagedKVCache.mem_of_mem_registerSequence (by rwa [hrun])
    rcases hregistered with rfl | hold
    · exact le_rfl
    · exact (h.issued id hold).trans (Nat.le_succ _)

theorem Refines.addRequest (h : p.Refines e) {promptTokens : List ℤ}
    (samplingParams : SamplingParams) (now : ℕ)
    (hreuse : p.kvCache.ReusesFull (promptTokens.map Int32.ofInt))
    (hok : p.registrationThrows promptTokens = false) :
    (p.addRequest promptTokens samplingParams now).2.Refines
      (e.addRequest promptTokens samplingParams now).2 := by
  have hregister := h.register hreuse
  obtain ⟨counter, active, kv, runner⟩ := p
  obtain ⟨counter', active', lengths, runner'⟩ := e
  obtain ⟨rfl, rfl, rfl, hexact, hissued⟩ := h
  simp only [registrationThrows] at hok
  simp only [PagedEngine.addRequest, LLMEngine.addRequest]
  cases hconvert : decide (counter + 1 < 2 ^ 64) && promptTokens.all fitsInt32 with
  | false =>
    simp only [Bool.not_false, if_true]
    exact ⟨rfl, rfl, rfl, hexact, fun id hid => (hissued id hid).trans (Nat.le_succ _)⟩
  | true =>
    rw [hconvert, Bool.true_and, Bool.not_eq_false'] at hok
    obtain ⟨matched, hresult⟩ := exists_ok hok
    obtain ⟨hexact', hissued'⟩ := hregister _ matched (Prod.ext hresult rfl)
    simp only [Bool.not_true, Bool.false_eq_true, if_false, hresult]
    split_ifs <;> exact ⟨rfl, rfl, rfl, hexact', hissued'⟩

omit [PriorityQueue Q RequestRef] in
theorem Refines.cancelRequest (h : p.Refines e) (requestId : ℤ) :
    (p.cancelRequest requestId).Refines (e.cancelRequest requestId) := by
  unfold PagedEngine.cancelRequest LLMEngine.cancelRequest
  split_ifs
  · refine ⟨h.counter_eq, by rw [h.active_eq], by rw [h.runner_eq],
      h.exact.unregister _, fun id hid => h.issued id ?_⟩
    rw [← AList.lookup_isSome, PagedKVCache.unregisterSequence_lookup] at hid
    split_ifs at hid
    · contradiction
    · exact AList.lookup_isSome.mp hid
  · exact h

end Calls

section Step

/-- An append that returns is the one on the lengths. -/
theorem appended_refines {c : PagedKVCache cfg} {kv : KVLengths} {id : ℕ} (h : c.Exact kv)
    (hok : (c.appendTokens id 1).1 = .ok ()) :
    (c.appendTokens id 1).2.Exact (kv.appendTokens id 1) := by
  cases hlength : kv.lookup id with
  | some n =>
    rw [KVLengths.appendTokens, hlength]
    exact (h.append hlength (Prod.ext hok rfl)).1
  | none =>
    have hnone : c.pageTables.lookup id = none := by
      rw [AList.lookup_eq_none, h.mem_iff, ← AList.lookup_eq_none]
      exact hlength
    simp [PagedKVCache.appendTokens, hnone] at hok

variable {activeRequests : FiniteMap ℕ SamplingParams} {rawOutputs : List StreamOutput}
  {acc : OutputLoop cfg} {kv : KVLengths}

/-- The pages that the outputs of a step need: one for every request that goes on behind a full
block. -/
def pagesNeeded (cfg : KVCacheConfig) (activeRequests : FiniteMap ℕ SamplingParams)
    (length : ℕ → ℕ) (rawOutputs : List StreamOutput) : ℕ :=
  rawOutputs.countP fun out => !LLMEngine.endsRequest activeRequests out &&
    decide (PagedKVCache.NeedsPage cfg (length out.requestId))

/-- A loop that gets through does what the loop over the lengths does. -/
theorem outputLoop_refines (hexact : acc.kvCache.Exact kv)
    (hok : (outputLoop activeRequests rawOutputs acc).1 = .ok ()) :
    let loop := (outputLoop activeRequests rawOutputs acc).2
    let loop' := rawOutputs.foldl (LLMEngine.processOutput activeRequests)
      ⟨kv, acc.results, acc.finishedReqIds⟩
    loop.kvCache.Exact loop'.kvCache ∧ loop.results = loop'.results ∧
      loop.finishedReqIds = loop'.finishedReqIds := by
  induction rawOutputs generalizing acc kv with
  | nil => exact ⟨hexact, rfl, rfl⟩
  | cons out rest ih =>
    unfold outputLoop at hok ⊢
    simp only [List.foldl_cons, LLMEngine.processOutput]
    cases hends : LLMEngine.endsRequest activeRequests out with
    | true =>
      simp only [hends, if_true] at hok ⊢
      exact ih hexact hok
    | false =>
      simp only [hends, Bool.false_eq_true, if_false] at hok ⊢
      cases happended : (acc.kvCache.appendTokens out.requestId 1).1 with
      | error exception => simp [happended] at hok
      | ok =>
        simp only [happended] at hok ⊢
        exact ih (appended_refines hexact happended) hok

/-- The loop throws when its outputs need more pages than there are. -/
theorem outputLoop_throws_iff (acc : OutputLoop cfg) (hexact : acc.kvCache.Exact kv)
    {length : ℕ → ℕ}
    (hnodup : (rawOutputs.map StreamOutput.requestId).Nodup)
    (hlength : ∀ out ∈ rawOutputs, kv.lookup out.requestId = some (length out.requestId))
    (exception : KVCacheException) :
    (outputLoop activeRequests rawOutputs acc).1 = .error exception ↔
      exception = .outOfPages cfg.totalGpuBlocks ∧
        acc.kvCache.capacity < pagesNeeded cfg activeRequests length rawOutputs := by
  induction rawOutputs generalizing acc kv with
  | nil => simp [outputLoop, pagesNeeded]
  | cons out rest ih =>
    obtain ⟨hnotin, hnodup⟩ := List.nodup_cons.mp hnodup
    obtain ⟨hself, hrest⟩ := List.forall_mem_cons.mp hlength
    unfold outputLoop
    rw [pagesNeeded, List.countP_cons, ← pagesNeeded]
    cases hends : LLMEngine.endsRequest activeRequests out with
    | true =>
      simp only [if_true, Bool.not_true, Bool.false_and, Bool.false_eq_true, if_false,
        Nat.add_zero]
      exact ih _ hexact hnodup hrest
    | false =>
      have hthrows := hexact.append_throws_iff hself
      simp only [Bool.false_eq_true, if_false, Bool.not_false, Bool.true_and,
        decide_eq_true_eq]
      cases happended : (acc.kvCache.appendTokens out.requestId 1).1 with
      | error exception' =>
        obtain ⟨rfl, hneeds, hzero⟩ := (hthrows exception').mp happended
        simp only [Except.error.injEq, hzero, hneeds, if_true, Nat.succ_pos, and_true]
        exact eq_comm
      | ok =>
        obtain ⟨hexact', hcapacity⟩ := hexact.append hself (Prod.ext happended rfl)
        have hkeep : ∀ o ∈ rest, (kv.insert out.requestId (length out.requestId + 1)).lookup
            o.requestId = some (length o.requestId) := by
          intro o ho
          rw [AList.lookup_insert_ne, hrest o ho]
          rintro heq
          exact hnotin (heq ▸ List.mem_map_of_mem ho)
        simp only
        rw [ih _ hexact' hnodup hkeep, hcapacity]
        exact and_congr_right fun _ => Nat.add_lt_add_iff_right.symm

variable {p : PagedEngine cfg Q} {e : LLMEngine Q}

theorem unregisterAll_refines (ids : List ℕ) {c : PagedKVCache cfg} (h : c.Exact kv) :
    (ids.foldl (fun kv id => kv.unregisterSequence id) c).Exact
      (ids.foldl (fun kv id => KVLengths.unregisterSequence kv id) kv) := by
  induction ids generalizing c kv with
  | nil => exact h
  | cons id ids ih => exact ih (h.unregister id)

theorem mem_unregisterAll (ids : List ℕ) {c : PagedKVCache cfg} {id : ℕ}
    (h : id ∈ (ids.foldl (fun kv id => kv.unregisterSequence id) c).pageTables) :
    id ∈ c.pageTables := by
  induction ids generalizing c with
  | nil => exact h
  | cons a ids ih =>
    have hrest := ih h
    rw [← AList.lookup_isSome, PagedKVCache.unregisterSequence_lookup] at hrest
    split_ifs at hrest
    · contradiction
    · exact AList.lookup_isSome.mp hrest

/-- A step that returns has the results of the step over the lengths. -/
theorem Refines.step (h : p.Refines e) {results : List GenerationOutput}
    (hok : p.step.1 = .ok results) : results = e.step.1 ∧ p.step.2.Refines e.step.2 := by
  obtain ⟨counter, active, c, runner⟩ := p
  obtain ⟨counter', active', lengths, runner'⟩ := e
  obtain ⟨rfl, rfl, rfl, hexact, hissued⟩ := h
  unfold PagedEngine.step at hok ⊢
  unfold LLMEngine.step
  dsimp only at hok ⊢
  split at hok
  · contradiction
  rename_i hloop
  obtain ⟨hexact', hresults, hfinished⟩ := outputLoop_refines hexact hloop
  obtain rfl := Except.ok.inj hok
  refine ⟨hresults, rfl, ?_, ?_, ?_, fun id hid => hissued id ?_⟩
  · rw [hfinished]
  · rw [hfinished]
  · rw [hfinished]
    exact unregisterAll_refines _ hexact'
  · exact (outputLoop_tables id).mp (mem_unregisterAll _ hid)

end Step

section Runs
variable {p p' : PagedEngine cfg Q} {e : LLMEngine Q}

/-- Related engines, the abstract one in lockstep. -/
def Tracks (p : PagedEngine cfg Q) (e : LLMEngine Q) : Prop := p.Refines e ∧ e.Lockstep

theorem Refines.call (h : p.Refines e) {action : EngineAction} (hadmits : p.Admits action)
    (hcall : p.call action = some p') : ∃ e', e.call action = some e' ∧ p'.Refines e' := by
  cases action with
  | addRequest promptTokens samplingParams now =>
    simp only [PagedEngine.call] at hcall
    split_ifs at hcall with hguard
    obtain ⟨hprompt, hthrows⟩ := not_or.mp hguard
    obtain rfl := Option.some.inj hcall
    refine ⟨_, if_neg hprompt, ?_⟩
    exact h.addRequest samplingParams now hadmits.1 (Bool.eq_false_iff.mpr hthrows)
  | step =>
    simp only [PagedEngine.call] at hcall
    split_ifs at hcall with hok
    obtain ⟨results, hresults⟩ := exists_ok hok
    obtain rfl := Option.some.inj hcall
    exact ⟨_, rfl, (h.step hresults).2⟩
  | cancelRequest requestId =>
    obtain rfl := Option.some.inj hcall
    exact ⟨_, rfl, h.cancelRequest requestId⟩

theorem Tracks.call (h : p.Tracks e) {action : EngineAction} (hadmits : p.Admits action)
    (hcall : p.call action = some p') : ∃ e', e.call action = some e' ∧ p'.Tracks e' := by
  obtain ⟨e', he', hrefines⟩ := h.1.call hadmits hcall
  refine ⟨e', he', hrefines, LLMEngine.call_lockstep h.2 ?_ he'⟩
  cases action with
  | addRequest promptTokens samplingParams now =>
    obtain ⟨-, hmax, hprio, hstale⟩ := hadmits
    refine ⟨hmax, hprio, ?_⟩
    rwa [← h.1.counter_eq, ← h.1.runner_eq]
  | step => trivial
  | cancelRequest requestId => trivial

theorem exec_tracks {maxNumSeqs maxNumBatchedTokens vocabSize : ℕ} {eosTokenId : ℤ}
    {actions : List EngineAction}
    (hadmits : AllSteps call Admits
      (init cfg maxNumSeqs maxNumBatchedTokens vocabSize eosTokenId : PagedEngine cfg Q) actions)
    (hrun : exec call (init cfg maxNumSeqs maxNumBatchedTokens vocabSize eosTokenId) actions =
      some p) :
    ∃ e, exec LLMEngine.call
        (LLMEngine.init maxNumSeqs maxNumBatchedTokens vocabSize eosTokenId) actions = some e ∧
      p.Tracks e :=
  exec_simulates (fun _ _ _ _ h hi hs => h.call hi hs)
    ⟨init_refines maxNumSeqs maxNumBatchedTokens vocabSize eosTokenId,
      LLMEngine.init_lockstep maxNumSeqs maxNumBatchedTokens vocabSize eosTokenId⟩ hadmits hrun

def totalLength (p : PagedEngine cfg Q) (id : ℕ) : ℕ :=
  (p.modelRunner.batcher.requests id).getTotalLength

theorem Tracks.lookup (h : p.Tracks e) (id : ℕ) :
    e.kvCache.lookup id = if id ∈ p.activeRequests then some (p.totalLength id) else none := by
  rw [h.2.kv_eq, totalLength, h.1.active_eq, h.1.runner_eq]

theorem Tracks.taken_eq (h : p.Tracks e) :
    total (fun _ n => PagedKVCache.pagesFor cfg n) e.kvCache =
      total (fun id _ => PagedKVCache.pagesFor cfg (p.totalLength id)) p.activeRequests := by
  apply le_antisymm <;> refine total_le_total fun id found hfound => ?_
  · rw [h.lookup] at hfound
    split_ifs at hfound with hid
    obtain ⟨params, hparams⟩ := Option.isSome_iff_exists.mp (AList.lookup_isSome.mpr hid)
    exact ⟨params, hparams, (congrArg _ (Option.some.inj hfound)).ge⟩
  · exact ⟨_, (h.lookup id).trans (if_pos (mem_of_lookup hfound)), le_rfl⟩

/-- In every run whose calls return, the engine over the paged cache does what the engine over the
lengths does, and the table of every active request holds its prompt and all its tokens. -/
theorem engine_refined {maxNumSeqs maxNumBatchedTokens vocabSize : ℕ} {eosTokenId : ℤ}
    {actions : List EngineAction}
    (hadmits : AllSteps call Admits
      (init cfg maxNumSeqs maxNumBatchedTokens vocabSize eosTokenId : PagedEngine cfg Q) actions)
    (hrun : exec call (init cfg maxNumSeqs maxNumBatchedTokens vocabSize eosTokenId) actions =
      some p) :
    (∃ e, exec LLMEngine.call
        (LLMEngine.init maxNumSeqs maxNumBatchedTokens vocabSize eosTokenId) actions = some e ∧
      e.activeRequests = p.activeRequests ∧ e.modelRunner = p.modelRunner ∧
      ∀ results, p.step.1 = .ok results → results = e.step.1) ∧
    ∀ id, match p.kvCache.pageTables.lookup id with
      | none => id ∉ p.activeRequests
      | some table => id ∈ p.activeRequests ∧
        p.kvCache.HoldsTokens table (p.totalLength id) ∧
        p.kvCache.contextLen table = MachineWord.toSigned 32 (p.totalLength id) := by
  obtain ⟨e, he, htracks⟩ := exec_tracks hadmits hrun
  refine ⟨⟨e, he, htracks.1.active_eq.symm, htracks.1.runner_eq.symm,
    fun results hresults => (htracks.1.step hresults).1⟩, fun id => ?_⟩
  have hlookup := htracks.lookup id
  cases htable : p.kvCache.pageTables.lookup id with
  | none =>
    rw [htracks.1.exact.lookup_none htable] at hlookup
    intro hid
    simp [hid] at hlookup
  | some table =>
    obtain ⟨n, hn, hholds⟩ := htracks.1.exact.holdsTokens htable
    rw [hn] at hlookup
    split_ifs at hlookup with hid
    obtain rfl := Option.some.inj hlookup
    exact ⟨hid, hholds, hholds.contextLen⟩

/-- Two requests share a block, and the one that goes on gets two more. -/
theorem engine_refined_shared : ∃ p : PagedEngine KVSystem.tokenPairs (List RequestRef),
    exec call (init _ 8 64 100 99) [.addRequest [5, 5, 6] {} 0,
      .addRequest [5, 5] { maxTokens := 1 } 1, .step, .step] = some p ∧
    p.kvCache.pageTables.lookup 1 = some [0, 1, 2] ∧
    p.kvCache.HoldsTokens [0, 1, 2] (p.totalLength 1) := by
  refine exec_exists (P := fun p => p.kvCache.pageTables.lookup 1 = some [0, 1, 2])
    (by decide +kernel) fun p hrun htable => ?_
  have hholds := (engine_refined (by decide +kernel) hrun).2 1
  rw [htable] at hholds
  exact ⟨htable, hholds.2.1⟩

/-- The blocks in use are at most those that the active requests take, and exactly those without
prefix caching. -/
theorem blocks_in_use {maxNumSeqs maxNumBatchedTokens vocabSize : ℕ} {eosTokenId : ℤ}
    {actions : List EngineAction}
    (hadmits : AllSteps call Admits
      (init cfg maxNumSeqs maxNumBatchedTokens vocabSize eosTokenId : PagedEngine cfg Q) actions)
    (hrun : exec call (init cfg maxNumSeqs maxNumBatchedTokens vocabSize eosTokenId) actions =
      some p) (fl : Rounding) :
    let stats := p.kvCache.getStats fl
    let taken := total (fun id _ => PagedKVCache.pagesFor cfg (p.totalLength id)) p.activeRequests
    stats.freeBlocks + stats.cachedPrefixBlocks + stats.allocatedBlocks = cfg.totalGpuBlocks ∧
      stats.allocatedBlocks ≤ taken ∧
      (cfg.enablePrefixCaching = false → stats.allocatedBlocks = taken) := by
  obtain ⟨e, -, htracks⟩ := exec_tracks hadmits hrun
  have hexact := htracks.1.exact
  rw [← htracks.taken_eq]
  refine ⟨?_, hexact.allocatedBlocks fl⟩
  rw [hexact.allocatedBlocks_eq fl]
  exact hexact.balanced.spare_add_owned

/-- Three entries of the tables are two blocks. -/
theorem blocks_in_use_shared : ∃ p : PagedEngine KVSystem.tokenPairs (List RequestRef),
    exec call (init _ 8 64 100 99) [.addRequest [5, 5, 6] {} 0,
      .addRequest [5, 5] { maxTokens := 1 } 1] = some p ∧
    total (fun id _ => PagedKVCache.pagesFor KVSystem.tokenPairs (p.totalLength id))
      p.activeRequests = 3 ∧
    ∀ fl, (p.kvCache.getStats fl).allocatedBlocks = 2 := by
  refine exec_exists (P := fun p => total (fun id _ => PagedKVCache.pagesFor KVSystem.tokenPairs
    (p.totalLength id)) p.activeRequests = 3 ∧ p.kvCache.freeBlockStack.length = 6 ∧
      p.kvCache.lruList.length = 0) (by decide +kernel) ?_
  rintro p hrun ⟨htaken, hfree, hcached⟩
  refine ⟨htaken, fun fl => ?_⟩
  have hsum := (blocks_in_use (by decide +kernel) hrun fl).1
  simp only [PagedKVCache.getStats, hfree, hcached] at hsum ⊢
  omega

theorem step_error_iff (exception : KVCacheException) : p.step.1 = .error exception ↔
    (outputLoop p.activeRequests p.popped ⟨p.kvCache, [], []⟩).1 = .error exception := by
  unfold PagedEngine.step
  dsimp only
  split
  · rename_i thrown hloop
    rw [show (outputLoop p.activeRequests p.popped ⟨p.kvCache, [], []⟩).1 = .error thrown
      from hloop]
    simp
  · rename_i hloop
    rw [show (outputLoop p.activeRequests p.popped ⟨p.kvCache, [], []⟩).1 = .ok _ from hloop]
    simp

/-- The outputs of a step belong to different active requests. -/
theorem Tracks.popped (h : p.Tracks e) : (p.popped.map StreamOutput.requestId).Nodup ∧
    ∀ out ∈ p.popped, e.kvCache.lookup out.requestId = some (p.totalLength out.requestId) := by
  obtain ⟨skipped, hs⟩ := BatcherState.scheduleStep_spec h.2.budgeted.tokens_le
  have hqueue : p.popped = e.emitted.map e.batchOutput := by
    rw [PagedEngine.popped, h.1.runner_eq]
    exact h.2.queue_step hs
  have hid : ∀ r ∈ e.emitted, (e.batchOutput r).requestId = r := fun r hr => h.2.emitted_id hs hr
  rw [hqueue, List.map_map]
  constructor
  · have hids : e.emitted.map (StreamOutput.requestId ∘ e.batchOutput) = e.emitted :=
      (List.map_congr_left hid).trans (List.map_id _)
    rw [hids]
    exact h.2.batch_nodup hs
  · rw [List.forall_mem_map]
    intro r hr
    rw [hid r hr, h.lookup, h.1.active_eq, if_pos ((h.2.live_iff r).mp (h.2.emitted_live hs hr).1)]

theorem Tracks.step_error_iff (h : p.Tracks e) (exception : KVCacheException) :
    p.step.1 = .error exception ↔ exception = .outOfPages cfg.totalGpuBlocks ∧
      p.kvCache.spareBlocks < pagesNeeded cfg p.activeRequests p.totalLength p.popped := by
  obtain ⟨hnodup, hlength⟩ := h.popped
  rw [PagedEngine.step_error_iff, ← h.1.exact.balanced.capacity_eq]
  exact outputLoop_throws_iff ⟨p.kvCache, [], []⟩ h.1.exact hnodup hlength exception

/-- A step throws exactly when more requests go on behind a full block than there are free and
cached blocks. -/
theorem step_throws_iff {maxNumSeqs maxNumBatchedTokens vocabSize : ℕ} {eosTokenId : ℤ}
    {actions : List EngineAction}
    (hadmits : AllSteps call Admits
      (init cfg maxNumSeqs maxNumBatchedTokens vocabSize eosTokenId : PagedEngine cfg Q) actions)
    (hrun : exec call (init cfg maxNumSeqs maxNumBatchedTokens vocabSize eosTokenId) actions =
      some p) (fl : Rounding) (exception : KVCacheException) :
    p.step.1 = .error exception ↔ exception = .outOfPages cfg.totalGpuBlocks ∧
      (p.kvCache.getStats fl).freeBlocks + (p.kvCache.getStats fl).cachedPrefixBlocks <
        pagesNeeded cfg p.activeRequests p.totalLength p.popped := by
  obtain ⟨e, -, htracks⟩ := exec_tracks hadmits hrun
  exact htracks.step_error_iff exception

/-- The request that goes on needs a third block. -/
theorem step_throws_iff_exhausted : ∃ p : PagedEngine twoTokenPool (List RequestRef),
    exec call (init _ 8 64 100 99) [.addRequest [7] { maxTokens := 1 } 0,
      .addRequest [8] { maxTokens := 4 } 1] = some p ∧ p.step.1 = .error (.outOfPages 2) := by
  refine exec_exists (P := fun p => p.kvCache.freeBlockStack.length + p.kvCache.lruList.length <
    pagesNeeded twoTokenPool p.activeRequests p.totalLength p.popped) (by decide +kernel)
    fun p hrun hneeded => ?_
  exact (step_throws_iff (by decide +kernel) hrun Rounding.exact _).mpr ⟨rfl, hneeded⟩

end Runs

end PagedEngine
end CudaForge.Engine
