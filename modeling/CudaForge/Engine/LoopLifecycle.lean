import CudaForge.Engine.AsyncDelivery

/-!
Starting and shutting down the asynchronous engine. Putting into an unbounded queue does not
suspend, so the background loop is cancelled only in its sleeps.
-/
namespace CudaForge.Engine
open FiniteMap PriorityQueue Scheduler Memory MarkedStream Transition

inductive LoopTask where
  | asleep
  /-- `CancelledError` is raised when the task runs again. -/
  | cancelling
  | ended
  deriving DecidableEq

namespace LoopTask

def cancel : LoopTask → LoopTask
  | .asleep => .cancelling
  | task => task

end LoopTask

namespace AsyncLLMEngine
variable {cfg : KVCacheConfig} {Q : Type} [PriorityQueue Q RequestRef]

/-- The body of the `for` over the outputs. -/
def deliverOutput (s : AsyncLLMEngine cfg Q) (out : GenerationOutput) : AsyncLLMEngine cfg Q :=
  match s.requestQueues.lookup out.requestId with
  | none => s
  | some c =>
    if out.isFinal then
      { s.put c out with requestQueues := s.requestQueues.erase out.requestId }
    else s.put c out

def turn (s : AsyncLLMEngine cfg Q) : AsyncLLMEngine cfg Q :=
  let batcher := s.engine.modelRunner.batcher
  if batcher.getRunningCount > 0 || batcher.getPendingCount > 0 then
    let stepped := s.engine.step
    match stepped.1 with
    | .error _ => { s with engine := stepped.2 }
    | .ok outputs =>
      outputs.foldl deliverOutput
        { s with engine := stepped.2, returned := s.returned ++ outputs }
  else s

end AsyncLLMEngine

/-- The engine with all loop tasks that were ever created, the last one being `_loop_task`. -/
structure EngineLifecycle (cfg : KVCacheConfig) (Q : Type) where
  async : AsyncLLMEngine cfg Q
  tasks : List LoopTask

inductive LifecycleAction where
  | start
  /-- `shutdown` up to its `await`; nothing is left to do after it. -/
  | shutdown
  | generate (c : ConsumerId) (promptTokens : List ℤ) (samplingParams : Option SamplingParams)
    (now : ℕ)
  | get (c : ConsumerId)
  | resume (c : ConsumerId)
  | cancel (c : ConsumerId)
  | close (c : ConsumerId)
  /-- A loop task runs again. -/
  | wake (t : ℕ)
  deriving DecidableEq

namespace EngineLifecycle
variable {cfg : KVCacheConfig} {Q : Type} [PriorityQueue Q RequestRef]

def init (cfg : KVCacheConfig) (maxNumSeqs maxNumBatchedTokens vocabSize : ℕ) (eosTokenId : ℤ) :
    EngineLifecycle cfg Q :=
  ⟨.init cfg maxNumSeqs maxNumBatchedTokens vocabSize eosTokenId, []⟩

def start (s : EngineLifecycle cfg Q) : EngineLifecycle cfg Q :=
  if s.async.isRunning then s
  else ⟨{ s.async with isRunning := true }, s.tasks ++ [.asleep]⟩

def shutdown (s : EngineLifecycle cfg Q) : EngineLifecycle cfg Q :=
  if s.async.isRunning then
    ⟨{ s.async with isRunning := false },
      s.tasks.modify (s.tasks.length - 1) LoopTask.cancel⟩
  else s

def wake (s : EngineLifecycle cfg Q) (t : ℕ) : Option (EngineLifecycle cfg Q) :=
  match s.tasks[t]? with
  | some .asleep =>
    if s.async.isRunning then some { s with async := s.async.turn }
    else some { s with tasks := s.tasks.set t .ended }
  | some .cancelling => some { s with tasks := s.tasks.set t .ended }
  | some .ended | none => none

def step (s : EngineLifecycle cfg Q) : LifecycleAction → Option (EngineLifecycle cfg Q)
  | .start => some s.start
  | .shutdown => some s.shutdown
  | .generate c promptTokens samplingParams now =>
    (s.start.async.generate c promptTokens samplingParams now).map fun async =>
      { s.start with async }
  | .get c => (s.async.get c).map fun async => { s with async }
  | .resume c => (s.async.resume c).map fun async => { s with async }
  | .cancel c => (s.async.cancel c).map fun async => { s with async }
  | .close c => (s.async.close c).map fun async => { s with async }
  | .wake t => s.wake t

end EngineLifecycle

namespace AsyncLLMEngine
variable {cfg : KVCacheConfig} {Q : Type} [PriorityQueue Q RequestRef] {s s' : AsyncLLMEngine cfg Q}

/-- Delivering an output with its awaits. -/
theorem deliverOutput_run (outputs : List GenerationOutput) (out : GenerationOutput) :
    ∃ actions, exec step { s with loop := .delivering (out :: outputs) } actions =
      some { s.deliverOutput out with loop := .delivering outputs } := by
  unfold deliverOutput
  cases hlookup : s.requestQueues.lookup out.requestId with
  | none => exact ⟨[.deliver], by simp [exec, step, deliver, hlookup]⟩
  | some c =>
    cases hfinal : out.isFinal with
    | false => exact ⟨[.deliver], by simp [exec, step, deliver, hlookup, hfinal, put]⟩
    | true =>
      exact ⟨[.deliver, .remove], by simp [exec, step, deliver, remove, hlookup, hfinal, put]⟩

theorem deliverOutputs_run (outputs : List GenerationOutput) :
    ∃ actions, exec step { s with loop := .delivering outputs } actions =
      some { outputs.foldl deliverOutput s with loop := .delivering [] } := by
  induction outputs generalizing s with
  | nil => exact ⟨[], rfl⟩
  | cons out outputs ih =>
    obtain ⟨first, hfirst⟩ := deliverOutput_run (s := s) outputs out
    obtain ⟨rest, hrest⟩ := ih (s := s.deliverOutput out)
    exact ⟨first ++ rest, by rw [exec_append, hfirst]; exact hrest⟩

omit [PriorityQueue Q RequestRef] in
theorem deliverOutput_loop (out : GenerationOutput) : (s.deliverOutput out).loop = s.loop := by
  unfold deliverOutput
  split
  · rfl
  · split_ifs <;> rfl

omit [PriorityQueue Q RequestRef] in
theorem deliverOutput_isRunning (out : GenerationOutput) :
    (s.deliverOutput out).isRunning = s.isRunning := by
  unfold deliverOutput
  split
  · rfl
  · split_ifs <;> rfl

omit [PriorityQueue Q RequestRef] in
theorem deliverOutputs_same (outputs : List GenerationOutput) :
    (outputs.foldl deliverOutput s).loop = s.loop ∧
      (outputs.foldl deliverOutput s).isRunning = s.isRunning := by
  induction outputs generalizing s with
  | nil => exact ⟨rfl, rfl⟩
  | cons out outputs ih =>
    obtain ⟨hloop, hrunning⟩ := ih (s := s.deliverOutput out)
    exact ⟨hloop.trans (deliverOutput_loop out), hrunning.trans (deliverOutput_isRunning out)⟩

theorem turn_same : s.turn.loop = s.loop ∧ s.turn.isRunning = s.isRunning := by
  unfold turn
  dsimp only
  split_ifs
  · split
    · exact ⟨rfl, rfl⟩
    · exact deliverOutputs_same _
  · exact ⟨rfl, rfl⟩

/-- A turn of the loop is a run of its steps between awaits. -/
theorem turn_run (hloop : s.loop = .delivering []) (hrunning : s.isRunning = true) :
    ∃ actions, exec step s actions = some s.turn := by
  by_cases hwork : (decide (s.engine.modelRunner.batcher.getRunningCount > 0) ||
      decide (s.engine.modelRunner.batcher.getPendingCount > 0)) = true
  · cases hstep : s.engine.step.1 with
    | error exception =>
      exact ⟨[.loopStep], by simp [exec, step, loopStep, turn, hloop, hrunning, hwork, hstep]⟩
    | ok outputs =>
      obtain ⟨actions, hactions⟩ := deliverOutputs_run (s := { s with
        engine := s.engine.step.2, returned := s.returned ++ outputs }) outputs
      refine ⟨.loopStep :: actions, exec_cons.mpr ⟨_, ?_, hactions.trans ?_⟩⟩
      · simp [step, loopStep, hloop, hrunning, hwork, hstep]
      · have hasleep : ∀ t : AsyncLLMEngine cfg Q, t.loop = .delivering [] →
            { t with loop := .delivering [] } = t := fun t ht => by rw [← ht]
        have hsame := (deliverOutputs_same (s := { s with
          engine := s.engine.step.2, returned := s.returned ++ outputs }) outputs).1
        simp only [turn, hwork, hstep, if_true]
        rw [hasleep _ (hsame.trans hloop)]
  · exact ⟨[], by simp [exec, turn, hwork]⟩

/-- Consumers leave the loop alone. -/
theorem generate_same {c : ConsumerId} {promptTokens : List ℤ}
    {samplingParams : Option SamplingParams} {now : ℕ} (hrunning : s.isRunning = true)
    (h : s.generate c promptTokens samplingParams now = some s') :
    s'.loop = s.loop ∧ s'.isRunning = s.isRunning := by
  unfold generate at h
  split at h
  · contradiction
  · dsimp only at h
    split at h <;> obtain rfl := Option.some.inj h <;> exact ⟨rfl, hrunning.symm⟩

omit [PriorityQueue Q RequestRef] in
theorem get_same {c : ConsumerId} (h : s.get c = some s') :
    s'.loop = s.loop ∧ s'.isRunning = s.isRunning := by
  unfold get at h
  split at h
  · obtain rfl := Option.some.inj h
    exact ⟨rfl, rfl⟩
  · contradiction

omit [PriorityQueue Q RequestRef] in
theorem resume_same {c : ConsumerId} (h : s.resume c = some s') :
    s'.loop = s.loop ∧ s'.isRunning = s.isRunning := by
  unfold resume at h
  split at h
  · obtain rfl := Option.some.inj h
    exact ⟨rfl, rfl⟩
  · contradiction

omit [PriorityQueue Q RequestRef] in
theorem cancel_same {c : ConsumerId} (h : s.cancel c = some s') :
    s'.loop = s.loop ∧ s'.isRunning = s.isRunning := by
  obtain ⟨k, -, rfl⟩ := Option.map_eq_some_iff.mp h
  exact ⟨rfl, rfl⟩

omit [PriorityQueue Q RequestRef] in
theorem close_same {c : ConsumerId} (h : s.close c = some s') :
    s'.loop = s.loop ∧ s'.isRunning = s.isRunning := by
  obtain ⟨k, -, rfl⟩ := Option.map_eq_some_iff.mp h
  exact ⟨rfl, rfl⟩

theorem Routed.setRunning {delivered : List GenerationOutput} (h : s.Routed delivered)
    (isRunning : Bool) : Routed { s with isRunning } delivered :=
  { h with follows := fun d x hx halive =>
      (h.follows d x hx halive).congr rfl Iff.rfl Iff.rfl }

end AsyncLLMEngine

namespace EngineLifecycle
variable {cfg : KVCacheConfig} {Q : Type} {s s' : EngineLifecycle cfg Q}

/-- The loop that can still take a turn is the last one that was created, and there is one exactly
while the engine runs. -/
structure OneLoop (s : EngineLifecycle cfg Q) : Prop where
  loop_eq : s.async.loop = .delivering []
  created : s.async.isRunning = true → s.tasks ≠ []
  asleep_iff : ∀ t, s.tasks[t]? = some .asleep ↔
    t + 1 = s.tasks.length ∧ s.async.isRunning = true

theorem OneLoop.start (h : s.OneLoop) : s.start.OneLoop := by
  unfold EngineLifecycle.start
  split_ifs with hrunning
  · exact h
  · refine ⟨h.loop_eq, fun _ => by simp, fun t => ?_⟩
    have hold := h.asleep_iff t
    rw [List.getElem?_append, List.length_append, List.length_singleton]
    split_ifs with ht
    · simp [hold, hrunning]
      omega
    · rw [List.getElem?_singleton]
      split_ifs <;> simp <;> omega

theorem start_isRunning (s : EngineLifecycle cfg Q) : s.start.async.isRunning = true := by
  unfold EngineLifecycle.start
  split_ifs with hrunning
  · exact hrunning
  · rfl

theorem OneLoop.shutdown (h : s.OneLoop) : s.shutdown.OneLoop := by
  unfold EngineLifecycle.shutdown
  split_ifs with hrunning
  · refine ⟨h.loop_eq, nofun, fun t => ?_⟩
    have hold := h.asleep_iff t
    simp only [List.getElem?_modify, Bool.false_eq_true, and_false, iff_false]
    intro hasleep
    obtain ⟨task, htask, heq⟩ := Option.map_eq_some_iff.mp hasleep
    split_ifs at heq with hlast
    · cases task <;> simp [LoopTask.cancel] at heq
    · obtain ⟨hlen, -⟩ := hold.mp (heq ▸ htask)
      omega
  · exact h

/-- Only the loop sets its own phase, and only `start` and `shutdown` what is running. -/
theorem OneLoop.of_async (h : s.OneLoop) {async : AsyncLLMEngine cfg Q}
    (hloop : async.loop = s.async.loop) (hrunning : async.isRunning = s.async.isRunning) :
    OneLoop { s with async } :=
  ⟨hloop.trans h.loop_eq, fun hr => h.created (hrunning ▸ hr), fun t => by
    rw [h.asleep_iff t, hrunning]⟩

theorem OneLoop.set_ended (h : s.OneLoop) {t : ℕ}
    (ht : ¬(t + 1 = s.tasks.length ∧ s.async.isRunning = true)) :
    OneLoop { s with tasks := s.tasks.set t .ended } := by
  refine ⟨h.loop_eq, fun hr => by simpa using h.created hr, fun u => ?_⟩
  rw [List.length_set, List.getElem?_set]
  split_ifs with hu hlt
  · subst hu
    simp [ht]
  · subst hu
    simp [ht]
  · exact h.asleep_iff u

variable [PriorityQueue Q RequestRef]

/-- The stores of the asynchronous engine are as after some run of its steps. -/
structure Lively (s : EngineLifecycle cfg Q) : Prop extends OneLoop s where
  routed : ∃ delivered, s.async.Routed delivered

theorem Lively.exec (h : s.Lively) {actions : List AsyncAction} {async : AsyncLLMEngine cfg Q}
    (hrun : Transition.exec AsyncLLMEngine.step s.async actions = some async) :
    ∃ delivered, async.Routed delivered :=
  exec_preserves (I := fun t : AsyncLLMEngine cfg Q => ∃ delivered, t.Routed delivered)
    (fun _ _ _ ht hstep => ht.elim fun _ hrouted => hrouted.step hstep) h.routed hrun

/-- A step of a consumer. -/
theorem Lively.consumer (h : s.Lively) (action : AsyncAction) {async : AsyncLLMEngine cfg Q}
    (hstep : s.async.step action = some async)
    (hsame : async.loop = s.async.loop ∧ async.isRunning = s.async.isRunning) :
    Lively { s with async } :=
  ⟨h.of_async hsame.1 hsame.2, h.routed.elim fun _ hrouted => hrouted.step hstep⟩

theorem Lively.start (h : s.Lively) : s.start.Lively := by
  refine ⟨h.toOneLoop.start, ?_⟩
  unfold EngineLifecycle.start
  split_ifs
  · exact h.routed
  · exact h.routed.imp fun _ hrouted => hrouted.setRunning true

theorem Lively.shutdown (h : s.Lively) : s.shutdown.Lively := by
  refine ⟨h.toOneLoop.shutdown, ?_⟩
  unfold EngineLifecycle.shutdown
  split_ifs
  · exact h.routed.imp fun _ hrouted => hrouted.setRunning false
  · exact h.routed

theorem Lively.wake (h : s.Lively) {t : ℕ} (hwake : s.wake t = some s') : s'.Lively := by
  unfold EngineLifecycle.wake at hwake
  cases htask : s.tasks[t]? with
  | none => simp [htask] at hwake
  | some task =>
    cases task with
    | ended => simp [htask] at hwake
    | cancelling =>
      simp only [htask, Option.some.injEq] at hwake
      subst hwake
      refine ⟨h.set_ended fun ht => ?_, h.routed⟩
      rw [(h.asleep_iff t).mpr ht] at htask
      contradiction
    | asleep =>
      simp only [htask] at hwake
      split_ifs at hwake with hrunning
      · obtain rfl := Option.some.inj hwake
        obtain ⟨actions, hactions⟩ := AsyncLLMEngine.turn_run h.loop_eq hrunning
        exact ⟨h.of_async AsyncLLMEngine.turn_same.1 AsyncLLMEngine.turn_same.2, h.exec hactions⟩
      · obtain rfl := Option.some.inj hwake
        exact ⟨h.set_ended fun ht => hrunning ht.2, h.routed⟩

theorem Lively.step (h : s.Lively) {action : LifecycleAction} (hstep : s.step action = some s') :
    s'.Lively := by
  cases action with
  | start => exact Option.some.inj hstep ▸ h.start
  | shutdown => exact Option.some.inj hstep ▸ h.shutdown
  | wake t => exact h.wake hstep
  | generate c promptTokens samplingParams now =>
    obtain ⟨async, hcall, rfl⟩ := Option.map_eq_some_iff.mp hstep
    exact h.start.consumer (.generate c promptTokens samplingParams now) hcall
      (AsyncLLMEngine.generate_same s.start_isRunning hcall)
  | get c =>
    obtain ⟨async, hcall, rfl⟩ := Option.map_eq_some_iff.mp hstep
    exact h.consumer (.get c) hcall (AsyncLLMEngine.get_same hcall)
  | resume c =>
    obtain ⟨async, hcall, rfl⟩ := Option.map_eq_some_iff.mp hstep
    exact h.consumer (.resume c) hcall (AsyncLLMEngine.resume_same hcall)
  | cancel c =>
    obtain ⟨async, hcall, rfl⟩ := Option.map_eq_some_iff.mp hstep
    exact h.consumer (.cancel c) hcall (AsyncLLMEngine.cancel_same hcall)
  | close c =>
    obtain ⟨async, hcall, rfl⟩ := Option.map_eq_some_iff.mp hstep
    exact h.consumer (.close c) hcall (AsyncLLMEngine.close_same hcall)

theorem init_lively (maxNumSeqs maxNumBatchedTokens vocabSize : ℕ) (eosTokenId : ℤ) :
    Lively (init cfg maxNumSeqs maxNumBatchedTokens vocabSize eosTokenId :
      EngineLifecycle cfg Q) where
  loop_eq := rfl
  created hrunning := by simp [init, AsyncLLMEngine.init] at hrunning
  asleep_iff t := by simp [init]
  routed := ⟨[], AsyncLLMEngine.init_routed _ _ _ _⟩

/-- However `start`, `shutdown`, the consumers and the loop tasks interleave, only the last loop
task can take turns, and exactly while the engine runs; and a consumer that is not abandoned has or
finds in its queue all that `step` returned for it, also across a restart. -/
theorem restarts_keep_streams {maxNumSeqs maxNumBatchedTokens vocabSize : ℕ} {eosTokenId : ℤ}
    {actions : List LifecycleAction}
    (hrun : exec step (init cfg maxNumSeqs maxNumBatchedTokens vocabSize eosTokenId) actions =
      some s) :
    (∀ t, s.tasks[t]? = some .asleep ↔ t + 1 = s.tasks.length ∧ s.async.isRunning = true) ∧
    (s.async.isRunning = true →
      s.wake (s.tasks.length - 1) = some { s with async := s.async.turn }) ∧
    ∀ c k, s.async.consumers c = some k → k.Alive →
      (∀ o ∈ k.received, o.requestId = k.requestId) ∧
        k.received ++ k.queue = streamOf s.async.returned k.requestId := by
  have h : s.Lively := exec_preserves (I := Lively) (fun _ _ _ hs hstep => hs.step hstep)
    (init_lively _ _ _ _) hrun
  refine ⟨h.asleep_iff, fun hrunning => ?_, fun c k hk halive => ?_⟩
  · have hlen := List.length_pos_of_ne_nil (h.created hrunning)
    have hasleep := (h.asleep_iff (s.tasks.length - 1)).mpr ⟨by omega, hrunning⟩
    simp only [EngineLifecycle.wake, hasleep, hrunning, if_true]
  · obtain ⟨delivered, hrouted⟩ := h.routed
    have hstreams := hrouted.streams hk halive
    obtain ⟨undelivered, hpre, haccounted⟩ := hstreams.accounted
    rw [h.loop_eq] at hpre
    rw [List.prefix_nil.mp hpre, List.append_nil] at haccounted
    exact ⟨hstreams.own, haccounted⟩

/-- A stream goes on behind a shutdown in its middle, with a second loop task. -/
theorem restarts_keep_streams_twice : ∃ s : EngineLifecycle KVSystem.tokenPairs (List RequestRef),
    exec step (init _ 8 64 100 99) [.generate 0 [7] (some { maxTokens := 2 }) 0, .wake 0, .shutdown,
      .start, .wake 0, .wake 1, .get 0] = some s ∧
    s.tasks = [.ended, .asleep] ∧
    ∃ k, s.async.consumers 0 = some k ∧
      k.received ++ k.queue = [⟨1, 8, false, none⟩, ⟨1, 9, true, none⟩] := by
  refine exec_exists (P := fun s => s.tasks = [.ended, .asleep] ∧
    s.async.consumers 0 = some ⟨1, [⟨1, 9, true, none⟩], [⟨1, 8, false, none⟩],
      .yielded ⟨1, 8, false, none⟩⟩ ∧
    streamOf s.async.returned 1 = [⟨1, 8, false, none⟩, ⟨1, 9, true, none⟩])
    (by decide +kernel) ?_
  rintro s hrun ⟨htasks, hk, hstream⟩
  exact ⟨htasks, _, hk, ((restarts_keep_streams hrun).2.2 0 _ hk ⟨nofun, nofun⟩).2.trans hstream⟩

end EngineLifecycle
end CudaForge.Engine
