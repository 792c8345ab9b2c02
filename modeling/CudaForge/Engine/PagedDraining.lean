import CudaForge.Engine.Draining
import CudaForge.Engine.PagedRefinement

/-!
A pool with room for all that the active requests may still generate serves them to their end:
no step runs out of pages, and no block stays in use.
-/
namespace CudaForge.Engine.PagedEngine
open FiniteMap PriorityQueue Scheduler Memory Transition

section Pages
variable {cfg : KVCacheConfig}

theorem pagesFor_mono {m n : ℕ} (h : m ≤ n) :
    PagedKVCache.pagesFor cfg m ≤ PagedKVCache.pagesFor cfg n :=
  max_le_max le_rfl (Nat.div_le_div_right (by omega))

/-- One token more takes a block more behind a full block. -/
theorem pagesFor_succ {n : ℕ} (h : PagedKVCache.NeedsPage cfg n) :
    PagedKVCache.pagesFor cfg n < PagedKVCache.pagesFor cfg (n + 1) := by
  obtain ⟨hpos, hmod⟩ := h
  have hbs := cfg.blockSize_pos
  obtain ⟨k, rfl⟩ := Nat.dvd_of_mod_eq_zero hmod
  have hk : 0 < k := Nat.pos_of_mul_pos_left hpos
  have hfull : (cfg.blockSize * k + cfg.blockSize - 1) / cfg.blockSize = k := by
    rw [Nat.add_sub_assoc hbs, Nat.mul_add_div hbs, Nat.div_eq_of_lt (by omega), Nat.add_zero]
  have hnext : (cfg.blockSize * k + 1 + cfg.blockSize - 1) / cfg.blockSize = k + 1 := by
    rw [show cfg.blockSize * k + 1 + cfg.blockSize - 1 = cfg.blockSize * k + cfg.blockSize by omega,
      Nat.mul_add_div hbs, Nat.div_self hbs]
  simp only [PagedKVCache.pagesFor, hfull, hnext]
  omega

end Pages

variable {cfg : KVCacheConfig} {Q : Type} [PriorityQueue Q RequestRef] {p p' : PagedEngine cfg Q}
  {e : LLMEngine Q}

def afterSteps (p : PagedEngine cfg Q) : ℕ → PagedEngine cfg Q
  | 0 => p
  | n + 1 => afterSteps p.step.2 n

def remainingTokens (p : PagedEngine cfg Q) : ℕ :=
  total (fun id _ => remaining (p.modelRunner.batcher.requests id)) p.activeRequests

/-- The tokens that the cache holds of a request at most; the last one is not appended. -/
def lastLength (p : PagedEngine cfg Q) (id : ℕ) : ℕ :=
  p.totalLength id + remaining (p.modelRunner.batcher.requests id) - 1

def reservedPages (p : PagedEngine cfg Q) : ℕ :=
  total (fun id _ => PagedKVCache.pagesFor cfg (p.lastLength id)) p.activeRequests

/-- New requests take over full blocks only, fit the token budget and convert, and only issued ids
are cancelled. -/
def Servable (p : PagedEngine cfg Q) : EngineAction → Prop
  | .addRequest promptTokens samplingParams _ =>
    p.kvCache.ReusesFull (promptTokens.map Int32.ofInt) ∧
      promptTokens.length ≤ p.modelRunner.batcher.batcher.maxNumBatchedTokens ∧
      fitsInt32 samplingParams.maxTokens = true ∧ fitsInt32 samplingParams.priority = true
  | .step => True
  | .cancelRequest requestId => requestId ≤ p.requestCounter

instance (p : PagedEngine cfg Q) : ∀ action, Decidable (p.Servable action)
  | .addRequest promptTokens _ _ =>
    show Decidable (p.kvCache.ReusesFull (promptTokens.map Int32.ofInt) ∧ _) from inferInstance
  | .step => isTrue trivial
  | .cancelRequest _ => show Decidable (_ ≤ _) from inferInstance

def Serves (p : PagedEngine cfg Q) (e : LLMEngine Q) : Prop := p.Refines e ∧ e.Serving

theorem Serves.tracks (h : p.Serves e) : p.Tracks e := ⟨h.1, h.2.lockstep⟩

theorem Serves.call (h : p.Serves e) {action : EngineAction} (hserve : p.Servable action)
    (hcall : p.call action = some p') : ∃ e', e.call action = some e' ∧ p'.Serves e' := by
  have hboth : p.Admits action ∧ e.Servable action := by
    cases action with
    | addRequest promptTokens samplingParams now =>
      obtain ⟨hreuse, hfits, hmax, hprio⟩ := hserve
      refine ⟨⟨hreuse, hmax, hprio, fun hstale => ?_⟩, ?_, hmax, hprio⟩
      · have hcancelled := hstale.2
        rw [h.1.counter_eq, h.1.runner_eq] at hcancelled
        exact Nat.not_succ_le_self _ (h.2.uncancelled _ hcancelled).1
      · rwa [← h.1.runner_eq]
    | step => exact ⟨trivial, trivial⟩
    | cancelRequest requestId =>
      refine ⟨trivial, ?_⟩
      rw [Servable, h.1.counter_eq] at hserve
      exact hserve
  obtain ⟨e', he', hrefines⟩ := h.1.call hboth.1 hcall
  exact ⟨e', he', hrefines, h.2.call hboth.2 he'⟩

section Room

theorem Serves.remainingTokens_eq (h : p.Serves e) : p.remainingTokens = e.remainingTokens := by
  rw [remainingTokens, h.1.active_eq, h.1.runner_eq, LLMEngine.remainingTokens]

/-- An output of a request that goes on leaves it a token to generate. -/
theorem Serves.goes_on (h : p.Serves e) {out : StreamOutput} (hout : out ∈ p.popped)
    (hends : LLMEngine.endsRequest p.activeRequests out = false) :
    out.requestId ∈ p.activeRequests ∧
      p.totalLength out.requestId + 1 ≤ p.lastLength out.requestId := by
  obtain ⟨skipped, hs⟩ := BatcherState.scheduleStep_spec h.2.lockstep.budgeted.tokens_le
  have hqueue : p.popped = e.emitted.map e.batchOutput := by
    rw [PagedEngine.popped, h.1.runner_eq]
    exact h.2.lockstep.queue_step hs
  rw [hqueue] at hout
  obtain ⟨r, hr, rfl⟩ := List.mem_map.mp hout
  have hid : (e.batchOutput r).requestId = r := h.2.lockstep.emitted_id hs hr
  rw [h.1.active_eq] at hends ⊢
  have hactive := (h.2.lockstep.live_iff r).mp (h.2.lockstep.emitted_live hs hr).1
  have hstays : r ∈ e.step.2.activeRequests := by
    refine ((h.2.lockstep.stepEffect hs).active_iff r).mpr ⟨hactive, fun hended => ?_⟩
    have hfinal := ((LLMEngine.mem_ended r).mp hended).2
    rw [hends] at hfinal
    contradiction
  have hless := h.2.remaining_step hs hstays
  have hpos := h.2.step.remaining_pos hstays
  rw [if_pos hr] at hless
  rw [hid]
  refine ⟨hactive, ?_⟩
  rw [lastLength, h.1.runner_eq]
  omega

/-- What the outputs of a step need is reserved. -/
theorem Serves.pagesNeeded_le (h : p.Serves e) :
    pagesNeeded cfg p.activeRequests p.totalLength p.popped +
      total (fun id _ => PagedKVCache.pagesFor cfg (p.totalLength id)) p.activeRequests ≤
        p.reservedPages := by
  refine countP_add_total_le StreamOutput.requestId h.tracks.popped.1
    (fun out hout hneeds => ?_) fun id hid => ?_
  · rw [Bool.and_eq_true, Bool.not_eq_true', decide_eq_true_eq] at hneeds
    obtain ⟨hactive, hlength⟩ := h.goes_on hout hneeds.1
    exact ⟨hactive, (pagesFor_succ hneeds.2).trans_le (pagesFor_mono hlength)⟩
  · have hpos := h.2.remaining_pos (h.1.active_eq ▸ hid)
    rw [← h.1.runner_eq] at hpos
    exact pagesFor_mono (by rw [lastLength]; omega)

theorem Serves.step_ok (h : p.Serves e) (hroom : p.reservedPages ≤ cfg.totalGpuBlocks) :
    p.step.1 = .ok e.step.1 := by
  cases hstep : p.step.1 with
  | ok results => rw [(h.1.step hstep).1]
  | error exception =>
    obtain ⟨-, hless⟩ := (h.tracks.step_error_iff exception).mp hstep
    have hneeded := h.pagesNeeded_le
    have hspare := h.1.exact.balanced.spare_add_owned
    have howned := h.1.exact.card_ownedBlocks
    have hcard := Multiset.toFinset_card_le p.kvCache.ownedBlocks
    rw [← h.tracks.taken_eq] at hneeded
    omega

theorem Serves.step (h : p.Serves e) (hroom : p.reservedPages ≤ cfg.totalGpuBlocks) :
    p.step.2.Serves e.step.2 := ⟨(h.1.step (h.step_ok hroom)).2, h.2.step⟩

/-- What was reserved for a request stays reserved until it ends. -/
theorem Serves.reservedPages_step (h : p.Serves e) (hroom : p.reservedPages ≤ cfg.totalGpuBlocks) :
    p.step.2.reservedPages ≤ p.reservedPages := by
  obtain ⟨skipped, hs⟩ := BatcherState.scheduleStep_spec h.2.lockstep.budgeted.tokens_le
  have hstep := h.step hroom
  refine total_le_total fun id params hid => ?_
  have hactive : id ∈ e.step.2.activeRequests := hstep.1.active_eq ▸ mem_of_lookup hid
  have hbefore : id ∈ p.activeRequests := by
    rw [h.1.active_eq]
    exact (((h.2.lockstep.stepEffect hs).active_iff id).mp hactive).1
  obtain ⟨params', hparams'⟩ := Option.isSome_iff_exists.mp (AList.lookup_isSome.mpr hbefore)
  refine ⟨params', hparams', pagesFor_mono ?_⟩
  have hlength := h.2.lockstep.step_length hs id
  have hless := h.2.remaining_step hs hactive
  have hpos := h.2.step.remaining_pos hactive
  rw [lastLength, lastLength, totalLength, totalLength, hstep.1.runner_eq, h.1.runner_eq, hlength]
  split_ifs at hless ⊢ <;> omega

end Room

/-- Step by step the engine over the paged cache does what the one over the lengths does. -/
theorem Serves.afterSteps (h : p.Serves e) (hroom : p.reservedPages ≤ cfg.totalGpuBlocks) (n : ℕ) :
    (p.afterSteps n).Serves (e.afterSteps n) ∧
      (p.afterSteps n).step.1 = .ok (e.afterSteps n).step.1 := by
  induction n generalizing p e with
  | zero => exact ⟨h, h.step_ok hroom⟩
  | succ n ih => exact ih (h.step hroom) ((h.reservedPages_step hroom).trans hroom)

/-- From any reached state whose active requests have room to end, stepping alone ends them all: no
step throws, each request gets a final result, and no block stays allocated. -/
theorem serves_out {maxNumSeqs maxNumBatchedTokens vocabSize : ℕ} {eosTokenId : ℤ}
    (hseqs : 1 ≤ maxNumSeqs) {actions : List EngineAction}
    (hserve : AllSteps call Servable
      (init cfg maxNumSeqs maxNumBatchedTokens vocabSize eosTokenId : PagedEngine cfg Q) actions)
    (hrun : exec call (init cfg maxNumSeqs maxNumBatchedTokens vocabSize eosTokenId) actions =
      some p) (hroom : p.reservedPages ≤ cfg.totalGpuBlocks) {n : ℕ} (hn : p.remainingTokens ≤ n) :
    (∀ k, ∃ results, (p.afterSteps k).step.1 = .ok results) ∧
    (∀ id ∈ p.activeRequests, ∃ k < n, ∃ results, (p.afterSteps k).step.1 = .ok results ∧
      ∃ out ∈ results, out.requestId = id ∧ out.isFinal = true) ∧
    (∀ id, id ∉ (p.afterSteps n).activeRequests ∧ id ∉ (p.afterSteps n).kvCache.pageTables) ∧
    ∀ fl, ((p.afterSteps n).kvCache.getStats fl).allocatedBlocks = 0 := by
  have hinit : (init cfg maxNumSeqs maxNumBatchedTokens vocabSize eosTokenId).Serves
      (LLMEngine.init maxNumSeqs maxNumBatchedTokens vocabSize eosTokenId : LLMEngine Q) :=
    ⟨init_refines _ _ _ _, LLMEngine.init_serving hseqs _ _ _⟩
  obtain ⟨e, -, h⟩ := exec_simulates (fun _ _ _ _ h hi hs => h.call hi hs) hinit hserve hrun
  rw [h.remainingTokens_eq] at hn
  obtain ⟨hnone, hresults⟩ := h.2.drained hn
  refine ⟨fun k => ⟨_, (h.afterSteps hroom k).2⟩, fun id hid => ?_, fun id => ?_, fun fl => ?_⟩
  · obtain ⟨k, hk, hout⟩ := hresults id (h.1.active_eq ▸ hid)
    exact ⟨k, hk, _, (h.afterSteps hroom k).2, hout⟩
  · obtain ⟨hserves, -⟩ := h.afterSteps hroom n
    rw [hserves.1.active_eq, hserves.1.exact.mem_iff]
    exact hnone id
  · obtain ⟨hserves, -⟩ := h.afterSteps hroom n
    have hle := (hserves.1.exact.allocatedBlocks fl).1
    have hempty : total (fun _ n => PagedKVCache.pagesFor cfg n) (e.afterSteps n).kvCache = 0 := by
      have hlookup : ∀ id, (e.afterSteps n).kvCache.lookup id = (∅ : KVLengths).lookup id :=
        fun id => by rw [AList.lookup_eq_none.mpr (hnone id).2]; rfl
      rw [total_eq_of_lookup hlookup, total_empty]
    omega

/-- Two requests that share a block have four tokens to generate. -/
theorem serves_out_shared : ∃ p : PagedEngine KVSystem.tokenPairs (List RequestRef),
    exec call (init _ 8 64 100 99) [.addRequest [5, 5, 6] { maxTokens := 3 } 0,
      .addRequest [5, 5] { maxTokens := 1 } 1] = some p ∧
    ∀ fl, ((p.afterSteps 4).kvCache.getStats fl).allocatedBlocks = 0 :=
  exec_exists (P := fun p => p.reservedPages ≤ 8 ∧ p.remainingTokens ≤ 4) (by decide +kernel)
    fun _ hrun hroom => (serves_out (by decide) (by decide +kernel) hrun hroom.1 hroom.2).2.2.2

end CudaForge.Engine.PagedEngine
