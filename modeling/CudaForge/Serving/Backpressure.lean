import CudaForge.Serving.WireFormat

/-!
The backpressure middleware around the route. `call_next` comes back when the response starts, so a
stream is no longer counted while its body is sent.
-/
namespace CudaForge.Serving
open Transition FiniteMap

section Inside

/-- `call_next` has not come back from the call. -/
def Phase.inside : Phase → Bool
  | .responded | .streaming _ | .sending _ _ | .ended _ => false
  | _ => true

/-- A call that has left `call_next` does not come back to it. -/
theorem turn_outside {req : GenerationRequest} {requestId : String} {phase : Phase}
    {raised : Option Raised} {turn : Turn} (h : phase.inside = false)
    (hturn : generateTokens req requestId phase raised = some turn) :
    turn.phase.inside = false := by
  cases phase with
  | responded =>
    cases raised <;> cases hturn <;> rfl
  | streaming g =>
    cases hturn
    cases mockCudaTokenGenerator req g raised <;> rfl
  | sending event g =>
    cases raised <;> cases hturn <;> rfl
  | ended outcome => cases raised <;> cases hturn
  | _ => cases h

theorem runCall_outside {s s' : Server} {i : ℕ} {c : Call} {raised : Option Raised}
    (h : s.runCall i c raised = some s') :
    ∃ c', s'.calls = s.calls.insert i c' ∧ (c.phase.inside = false → c'.phase.inside = false) := by
  unfold Server.runCall at h
  obtain ⟨-, h⟩ := Option.ite_none_left_eq_some.mp h
  cases hphase : c.phase with
  | entered =>
    rw [hphase] at h
    cases raised <;> cases h <;> exact ⟨_, rfl, fun hinside => by cases hinside⟩
  | acquiring =>
    rw [hphase] at h
    rcases raised with _ | _ | _ | _
    · obtain ⟨semaphore, -, rfl⟩ := Option.map_eq_some_iff.mp h
      exact ⟨_, rfl, fun hinside => by cases hinside⟩
    · cases h
    · cases h
      exact ⟨_, rfl, fun hinside => by cases hinside⟩
    · cases h
  | ended outcome =>
    rw [hphase] at h
    cases raised <;> cases h
  | _ =>
    rw [hphase] at h
    obtain ⟨turn, hturn, rfl⟩ := Option.map_eq_some_iff.mp h
    exact ⟨_, rfl, fun hinside => turn_outside hinside hturn⟩

end Inside

/-- The limits of the middleware. In the application they are `MAX_CONCURRENT_REQUESTS = 32` and
`MAX_BACKPRESSURE_QUEUE = 128`. -/
structure Backpressure where
  maxConcurrent : ℕ
  maxQueue : ℕ

namespace Backpressure

def exemptPaths : List String :=
  ["/healthz", "/metrics", "/v1/health", "/v1/health/ready", "/v1/metrics", "/docs",
    "/openapi.json", "/redoc"]

def capacityLimit (b : Backpressure) : ℕ := b.maxConcurrent + b.maxQueue

end Backpressure

structure App where
  server : Server
  /-- The other requests that are counted and whose `call_next` has not come back. -/
  others : Finset ℕ
  activeInFlightRequests : ℕ
  /-- The requests that were answered with 503, in order. -/
  shed : List ℕ

inductive AppAction where
  /-- A request to a path; the route has a body for its own path only. -/
  | request (i : ℕ) (path : String) (body : Option GenerationRequest) (nowMs : ℕ)
  /-- The handler of another request returns or raises. -/
  | respond (i : ℕ)
  | timeout (i : ℕ)
  | run (i : ℕ) (raised : Option Raised)

namespace App
variable (b : Backpressure)

def isInside (s : App) (i : ℕ) : Bool := (s.server.calls.lookup i).any fun c => c.phase.inside

/-- `finally` of the middleware runs when call `i` has left `call_next`. -/
def moved (s : App) (i : ℕ) (server : Server) : App :=
  let t := { s with server }
  if s.isInside i ∧ ¬t.isInside i then
    { t with activeInFlightRequests := s.activeInFlightRequests - 1 }
  else t

def step (s : App) : AppAction → Option App
  | .request i path body nowMs =>
    if path ∈ Backpressure.exemptPaths then some s
    else if b.capacityLimit ≤ s.activeInFlightRequests then some { s with shed := s.shed ++ [i] }
    else
      let counted := { s with activeInFlightRequests := s.activeInFlightRequests + 1 }
      match body with
      | some req =>
        (s.server.step (.receive i req nowMs)).map fun server => { counted with server }
      | none => if i ∈ s.others then none else some { counted with others := insert i s.others }
  | .respond i =>
    if i ∈ s.others then
      some
        { s with
          others := s.others.erase i
          activeInFlightRequests := s.activeInFlightRequests - 1 }
    else none
  | .timeout i => (s.server.step (.timeout i)).map (s.moved i)
  | .run i raised => (s.server.step (.run i raised)).map (s.moved i)

def start (concurrencySemaphore : Option (Semaphore ℕ)) : App :=
  ⟨⟨concurrencySemaphore, ∅⟩, ∅, 0, []⟩

/-- The requests that `call_next` has not come back from. -/
def inside (s : App) : ℕ :=
  total (fun _ c => c.phase.inside.toNat) s.server.calls + s.others.card

def waiting (s : App) : ℕ :=
  total (fun _ c => if c.phase = .acquiring then 1 else 0) s.server.calls

/-- The counter counts the requests inside, and it stays below the limit. -/
structure Counted (s : App) : Prop where
  active : s.activeInFlightRequests = s.inside
  limit : s.inside ≤ b.capacityLimit

theorem waiting_le_inside (s : App) : s.waiting ≤ s.inside := by
  refine le_trans (total_le_total fun i c hc => ⟨c, hc, ?_⟩) (Nat.le_add_right _ _)
  split_ifs with hphase
  · rw [hphase]
    rfl
  · exact Nat.zero_le _

variable {b} {s s' : App}

theorem start_counted (concurrencySemaphore : Option (Semaphore ℕ)) :
    (start concurrencySemaphore).Counted b := ⟨rfl, Nat.zero_le _⟩

/-- A call moves on: it stays inside, it stays outside, or it leaves. -/
theorem Counted.moved {i : ℕ} {c c' : Call} {server : Server} (h : s.Counted b)
    (hc : s.server.calls.lookup i = some c) (hcalls : server.calls = s.server.calls.insert i c')
    (hleaves : c.phase.inside = false → c'.phase.inside = false) :
    (s.moved i server).Counted b := by
  have htotal := total_insert_of_lookup (f := fun _ c => c.phase.inside.toNat) hc c'
  have hactive := h.active
  have hlimit := h.limit
  have hold : s.isInside i = c.phase.inside := by
    rw [isInside, hc]
    rfl
  have hnew : isInside { s with server } i = c'.phase.inside := by
    rw [isInside, hcalls, AList.lookup_insert]
    rfl
  rw [← hcalls] at htotal
  unfold inside at hactive hlimit
  unfold App.moved
  dsimp only
  rw [hold, hnew]
  cases hc' : c'.phase.inside with
  | true =>
    have hinside : c.phase.inside = true := by
      by_contra hout
      exact absurd (hleaves (Bool.not_eq_true _ ▸ hout)) (hc' ▸ Bool.noConfusion)
    rw [hc', hinside] at htotal
    rw [if_neg (by simp)]
    constructor <;>
    · unfold inside
      dsimp only
      omega
  | false =>
    cases hinside : c.phase.inside <;>
    · rw [hc', hinside] at htotal
      simp only [Bool.toNat_true, Bool.toNat_false] at htotal
      simp only [Bool.false_eq_true, false_and, not_false_eq_true, and_self, if_true, if_false]
      constructor <;>
      · unfold inside
        dsimp only
        omega

theorem Counted.step {action : AppAction} (h : s.Counted b) (hstep : s.step b action = some s') :
    s'.Counted b := by
  have hactive := h.active
  have hlimit := h.limit
  unfold inside at hactive hlimit
  cases action with
  | request i path body nowMs =>
    by_cases hexempt : path ∈ Backpressure.exemptPaths
    · rw [App.step, if_pos hexempt] at hstep
      exact Option.some.inj hstep ▸ h
    · by_cases hfull : b.capacityLimit ≤ s.activeInFlightRequests
      · rw [App.step, if_neg hexempt, if_pos hfull] at hstep
        obtain rfl := Option.some.inj hstep
        exact ⟨h.active, h.limit⟩
      · rw [App.step, if_neg hexempt, if_neg hfull] at hstep
        cases body with
        | some req =>
          obtain ⟨server, hserver, rfl⟩ := Option.map_eq_some_iff.mp hstep
          obtain ⟨hfresh, hinsert⟩ := Option.ite_none_left_eq_some.mp hserver
          obtain rfl := Option.some.inj hinsert
          have htotal := total_insert_of_notMem (f := fun _ c => c.phase.inside.toNat)
            (v := ⟨req, "req_" ++ toString nowMs, .entered, 0, 0⟩) hfresh
          have hentered : (Phase.inside .entered).toNat = 1 := rfl
          rw [hentered] at htotal
          constructor <;>
          · unfold inside
            dsimp only
            omega
        | none =>
          obtain ⟨hfresh, hinsert⟩ := Option.ite_none_left_eq_some.mp hstep
          obtain rfl := Option.some.inj hinsert
          have hcard := Finset.card_insert_of_notMem hfresh
          constructor <;>
          · unfold inside
            dsimp only
            omega
  | respond i =>
    obtain ⟨hmem, herase⟩ := Option.ite_none_right_eq_some.mp hstep
    obtain rfl := Option.some.inj herase
    have hcard := Finset.card_erase_of_mem hmem
    have hpos := Finset.card_pos.mpr ⟨i, hmem⟩
    constructor <;>
    · unfold inside
      dsimp only
      omega
  | timeout i =>
    obtain ⟨server, hserver, rfl⟩ := Option.map_eq_some_iff.mp hstep
    obtain ⟨c, hc, htimeout⟩ := Option.bind_eq_some_iff.mp hserver
    obtain ⟨hphase, hended⟩ := Option.ite_none_right_eq_some.mp htimeout
    obtain rfl := Option.some.inj hended
    exact h.moved hc rfl fun _ => rfl
  | run i raised =>
    obtain ⟨server, hserver, rfl⟩ := Option.map_eq_some_iff.mp hstep
    obtain ⟨c, hc, hrun⟩ := Option.bind_eq_some_iff.mp hserver
    obtain ⟨c', hcalls, hleaves⟩ := runCall_outside hrun
    exact h.moved hc hcalls hleaves

/-- In every run the counter is the number of requests inside, which stays below the limit with
those that wait for a permit, and the middleware sheds a request exactly when it is not exempt and
as many requests as the limit are inside. -/
theorem counter_exact {concurrencySemaphore : Option (Semaphore ℕ)} {actions : List AppAction}
    (hrun : exec (App.step b) (start concurrencySemaphore) actions = some s) :
    s.activeInFlightRequests = s.inside ∧ s.inside ≤ b.capacityLimit ∧
      s.waiting ≤ b.capacityLimit ∧
      ∀ i path body nowMs s', s.step b (.request i path body nowMs) = some s' →
        (s'.shed ≠ s.shed ↔ path ∉ Backpressure.exemptPaths ∧ s.inside = b.capacityLimit) := by
  have h : s.Counted b := exec_preserves (I := App.Counted b)
    (fun _ _ _ h hstep => h.step hstep) (start_counted concurrencySemaphore) hrun
  refine ⟨h.active, h.limit, s.waiting_le_inside.trans h.limit, ?_⟩
  intro i path body nowMs s' hstep
  by_cases hexempt : path ∈ Backpressure.exemptPaths
  · rw [App.step, if_pos hexempt] at hstep
    obtain rfl := Option.some.inj hstep
    exact iff_of_false (fun hne => hne rfl) fun hpath => hpath.1 hexempt
  · by_cases hfull : b.capacityLimit ≤ s.activeInFlightRequests
    · rw [App.step, if_neg hexempt, if_pos hfull] at hstep
      obtain rfl := Option.some.inj hstep
      exact iff_of_true (by simp) ⟨hexempt, le_antisymm h.limit (h.active ▸ hfull)⟩
    · rw [App.step, if_neg hexempt, if_neg hfull] at hstep
      have hlt : s.inside ≠ b.capacityLimit := fun heq => hfull (h.active ▸ heq.ge)
      refine iff_of_false (fun hne => hne ?_) fun hpath => hlt hpath.2
      cases body with
      | some req =>
        obtain ⟨server, -, rfl⟩ := Option.map_eq_some_iff.mp hstep
        rfl
      | none =>
        obtain ⟨-, hinsert⟩ := Option.ite_none_left_eq_some.mp hstep
        exact Option.some.inj hinsert ▸ rfl

/-- A stream whose response has started, two requests that fill the limits, and one too many. -/
def shedding : List AppAction :=
  .request 0 "/v1/generate" (some (Server.oneToken true)) 0 ::
    List.replicate 2 (.run 0 none) ++
    [.request 1 "/v1/generate" (some (Server.oneToken false)) 0,
      .request 2 "/v1/models" none 0, .request 3 "/healthz" none 0, .request 4 "/v1/models" none 0]

theorem counter_exact_shedding :
    ∃ s, exec (App.step ⟨1, 1⟩) (start none) shedding = some s ∧ s.shed = [4] ∧
      s.activeInFlightRequests = s.inside ∧ s.inside ≤ 2 ∧
      ∀ i path body nowMs s', s.step ⟨1, 1⟩ (.request i path body nowMs) = some s' →
        (s'.shed ≠ s.shed ↔ path ∉ Backpressure.exemptPaths ∧ s.inside = 2) := by
  refine exec_exists (P := fun s => s.shed = [4]) (by decide +kernel) fun s hrun hshed => ?_
  obtain ⟨hactive, hlimit, -, hrequests⟩ := counter_exact hrun
  exact ⟨hshed, hactive, hlimit, hrequests⟩

end App
end CudaForge.Serving
