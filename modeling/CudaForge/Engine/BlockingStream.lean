import CudaForge.Engine.ModelRunner
import CudaForge.Library.ConditionVariable
import CudaForge.Library.Transition

/-!
The token stream buffer under any number of threads. Every call is one section under the mutex, and
a `pop_timeout` that finds nothing waits on the condition variable between two of them.
-/
namespace CudaForge.Engine
open Transition

structure StreamMonitor (τ : Type) where
  buffer : TokenStreamBuffer
  cv : ConditionVariable τ

namespace StreamMonitor
variable {τ : Type} [DecidableEq τ]

def push (m : StreamMonitor τ) (output : StreamOutput) (woken : Option τ) :
    Option (StreamMonitor τ) :=
  (m.cv.notifyOne woken).map fun cv => ⟨⟨m.buffer.queue ++ [output]⟩, cv⟩

def pushBatch (m : StreamMonitor τ) (outputs : List StreamOutput) : StreamMonitor τ :=
  if outputs.isEmpty then m else ⟨m.buffer.pushBatch outputs, m.cv.notifyAll⟩

def popAll (m : StreamMonitor τ) : List StreamOutput × StreamMonitor τ :=
  (m.buffer.popAll.1, { m with buffer := m.buffer.popAll.2 })

/-- One turn of the loop of `wait_for`: the predicate decides, and without it a thread whose time is
not over waits again. The output is `none` when nothing was popped. -/
def tryPop (m : StreamMonitor τ) (t : τ) (timedOut : Bool) :
    Option StreamOutput × StreamMonitor τ :=
  match m.buffer.queue with
  | output :: rest => (some output, { m with buffer := ⟨rest⟩ })
  | [] => (none, if timedOut then m else { m with cv := m.cv.wait t })

end StreamMonitor

/-- The buffer with what was pushed and what each thread was given. -/
structure StreamLog (τ : Type) where
  monitor : StreamMonitor τ
  pushed : List StreamOutput
  delivered : List (τ × StreamOutput)

inductive StreamCall (τ : Type) where
  | push (output : StreamOutput) (woken : Option τ)
  | pushBatch (outputs : List StreamOutput)
  | popAll (t : τ)
  | popTimeout (t : τ)
  | expire (t : τ)
  | resume (t : τ) (timedOut : Bool)
  deriving DecidableEq

namespace StreamLog
variable {τ : Type} [DecidableEq τ]

def init : StreamLog τ := ⟨⟨⟨[]⟩, .idle⟩, [], []⟩

def deliver (s : StreamLog τ) (t : τ) (popped : Option StreamOutput × StreamMonitor τ) :
    StreamLog τ :=
  { s with
    monitor := popped.2
    delivered := s.delivered ++ popped.1.toList.map (t, ·) }

/-- Only a thread that is not inside `pop_timeout` can make a call. -/
def step (s : StreamLog τ) : StreamCall τ → Option (StreamLog τ)
  | .push output woken =>
    (s.monitor.push output woken).map fun m =>
      { s with monitor := m, pushed := s.pushed ++ [output] }
  | .pushBatch outputs =>
    some { s with monitor := s.monitor.pushBatch outputs, pushed := s.pushed ++ outputs }
  | .popAll t =>
    if t ∈ s.monitor.cv.blocked then none
    else some { s with
      monitor := s.monitor.popAll.2
      delivered := s.delivered ++ s.monitor.popAll.1.map (t, ·) }
  | .popTimeout t =>
    if t ∈ s.monitor.cv.blocked then none else some (s.deliver t (s.monitor.tryPop t false))
  | .expire t => (s.monitor.cv.expire t).map fun cv => { s with monitor := { s.monitor with cv } }
  | .resume t timedOut =>
    (s.monitor.cv.resume t).map fun cv =>
      s.deliver t ({ s.monitor with cv }.tryPop t timedOut)

/-- Nothing is lost, doubled or reordered, and no thread waits for an output that is there. -/
structure Delivering (s : StreamLog τ) : Prop where
  inOrder : s.delivered.map Prod.snd ++ s.monitor.buffer.queue = s.pushed
  covers : s.monitor.cv.Covers s.monitor.buffer.queue.length

variable {s s' : StreamLog τ}

omit [DecidableEq τ] in
theorem init_delivering : (init : StreamLog τ).Delivering where
  inOrder := rfl
  covers := ConditionVariable.idle_covers _

/-- A thread that runs pops the front or, when there is none, may wait. -/
theorem Delivering.tryPop {t : τ} {timedOut : Bool} {cv : ConditionVariable τ}
    (hinOrder : s.delivered.map Prod.snd ++ s.monitor.buffer.queue = s.pushed)
    (hcovers : cv.Covers (s.monitor.buffer.queue.length - 1))
    (ht : t ∉ cv.notified ∧ t ∉ cv.expired) :
    (s.deliver t ({ s.monitor with cv }.tryPop t timedOut)).Delivering := by
  unfold StreamMonitor.tryPop
  cases hqueue : s.monitor.buffer.queue with
  | cons output rest =>
    rw [hqueue] at hinOrder hcovers
    refine ⟨?_, hcovers⟩
    simp only [deliver, Option.toList_some, List.map_cons, List.map_nil, List.map_append,
      List.append_assoc, List.singleton_append]
    exact hinOrder
  | nil =>
    rw [hqueue] at hinOrder hcovers
    refine ⟨by simpa [deliver, apply_ite, hqueue] using hinOrder, ?_⟩
    simp only [deliver]
    split_ifs <;> simp only [hqueue]
    · exact hcovers
    · exact hcovers.wait ht

theorem Delivering.step (h : s.Delivering) {call : StreamCall τ}
    (hstep : s.step call = some s') : s'.Delivering := by
  cases call with
  | push output woken =>
    simp only [StreamLog.step, StreamMonitor.push, Option.map_map, Option.map_eq_some_iff] at hstep
    obtain ⟨cv, hnotify, rfl⟩ := hstep
    refine ⟨?_, ?_⟩
    · simp only [Function.comp_apply, ← h.inOrder, List.append_assoc]
    · simpa using h.covers.notifyOne hnotify
  | pushBatch outputs =>
    obtain rfl := Option.some.inj hstep
    unfold StreamMonitor.pushBatch
    split_ifs with hempty
    · rw [List.isEmpty_iff.mp hempty]
      exact ⟨by simpa using h.inOrder, h.covers⟩
    · refine ⟨?_, s.monitor.cv.notifyAll_covers _⟩
      simp only [TokenStreamBuffer.pushBatch, ← h.inOrder, List.append_assoc]
  | popAll t =>
    simp only [StreamLog.step] at hstep
    split_ifs at hstep
    obtain rfl := Option.some.inj hstep
    refine ⟨?_, h.covers.anti (Nat.zero_le _)⟩
    simpa [StreamMonitor.popAll, TokenStreamBuffer.popAll, Function.comp_def] using h.inOrder
  | popTimeout t =>
    simp only [StreamLog.step] at hstep
    split_ifs at hstep with hblocked
    obtain rfl := Option.some.inj hstep
    simp only [ConditionVariable.blocked, Finset.mem_union, not_or] at hblocked
    exact Delivering.tryPop h.inOrder (h.covers.anti (Nat.sub_le _ _)) ⟨hblocked.1.2, hblocked.2⟩
  | expire t =>
    simp only [StreamLog.step, Option.map_eq_some_iff] at hstep
    obtain ⟨cv, hexpire, rfl⟩ := hstep
    exact ⟨h.inOrder, h.covers.expire hexpire⟩
  | resume t timedOut =>
    simp only [StreamLog.step, Option.map_eq_some_iff] at hstep
    obtain ⟨cv, hresume, rfl⟩ := hstep
    exact Delivering.tryPop h.inOrder (h.covers.resume hresume) (h.covers.resumed hresume).2

/-- However the calls of all threads interleave, the outputs are handed out once each and in the
order of the pushes, and no wake-up is lost: while a thread waits, every queued output has a
notified thread that has still to run. -/
theorem delivered_once {calls : List (StreamCall τ)} (hrun : exec step init calls = some s) :
    s.delivered.map Prod.snd ++ s.monitor.buffer.queue = s.pushed ∧
      (s.monitor.cv.waiting.Nonempty →
        s.monitor.buffer.queue.length ≤ s.monitor.cv.notified.card) := by
  have h : s.Delivering := exec_preserves (I := Delivering) (fun _ _ _ hs hstep => hs.step hstep)
    init_delivering hrun
  exact ⟨h.inOrder, h.covers.covered⟩

/-- Two threads wait, one output comes, and the thread that was not notified waits on. -/
theorem delivered_once_waiting : ∃ s : StreamLog ℕ, exec step init [.popTimeout 0, .popTimeout 1,
      .push ⟨7, 5, false⟩ (some 1)] = some s ∧
    s.monitor.buffer.queue.length ≤ s.monitor.cv.notified.card := by
  refine exec_exists (P := fun s => s.monitor.cv.waiting.Nonempty) (by decide +kernel) ?_
  intro s hrun hwaiting
  exact (delivered_once hrun).2 hwaiting

end StreamLog
end CudaForge.Engine
