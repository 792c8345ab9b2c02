import CudaForge.Serving.Generate

/-!
The permits of the `/generate` route. A call that was admitted releases its permit exactly once,
unless it leaves the route by an exception that `except Exception` lets pass, by a stream that never
starts, or by an exception after the release.
-/
namespace CudaForge.Serving
open FiniteMap Transition

section Statements

def Phase.holds : Phase → Bool
  | .entered | .acquiring | .answering _ | .ended _ => false
  | _ => true

def Turn.permits (turn : Turn) : ℕ := turn.phase.holds.toNat + turn.released.toNat

/-- The generator passes on an exception that is not below `Exception`. -/
def TokenGenerator.escapes : TokenGenerator → Option Raised → Bool
  | .disconnected, none => true
  | .asleep _, some raised | .awake _, some raised | .yielded _, some raised =>
    raised == .baseException
  | .unstarted, some raised | .disconnected, some raised | .failed _, some raised
  | .yieldedError, some raised => !raised.isException
  | _, none => false

def Phase.guarded : Phase → Option Raised → Bool
  | .admitted, some raised | .parsing _ _ _, some raised | .joining _, some raised =>
    raised.isException
  | .responded, some _ => false
  | .collecting g _, raised => !g.escapes raised
  | .answering _, some raised => !raised.isException
  | _, _ => true

def Advance.caught : Advance → Bool
  | .raises raised => raised.isException
  | _ => true

theorem handler_caught (raised : Raised) :
    (TokenGenerator.handler raised).caught = !(raised == .baseException) := by
  cases raised <;> rfl

theorem caught_eq (req : GenerationRequest) (g : TokenGenerator) (raised : Option Raised) :
    (mockCudaTokenGenerator req g raised).caught = !g.escapes raised := by
  rcases raised with _ | raised
  · cases g with
    | unstarted | yielded _ =>
      simp only [mockCudaTokenGenerator]
      split_ifs <;> rfl
    | asleep _ | awake _ | disconnected | failed _ | yieldedError => rfl
  · cases g with
    | asleep _ | awake _ | yielded _ => exact handler_caught raised
    | unstarted | disconnected | failed _ | yieldedError => exact (Bool.not_not _).symm

/-- The handler of the route releases for the subclasses of `Exception`. -/
theorem exceptHandler_permits (raised : Raised) :
    (exceptHandler raised).permits = raised.isException.toNat := by
  cases raised <;> rfl

theorem exceptHandler_permits_eq_one (raised : Raised) :
    (exceptHandler raised).permits = 1 ↔ raised.isException = true := by
  rw [exceptHandler_permits]
  cases raised.isException <;> decide

theorem exceptHandler_permits_eq_zero (raised : Raised) :
    (exceptHandler raised).permits = 0 ↔ (!raised.isException) = true := by
  rw [exceptHandler_permits]
  cases raised.isException <;> decide

/-- The body of the wrapper ends with a release. -/
theorem streamingWrapper_permits (advance : Advance) : (streamingWrapper advance).permits = 1 := by
  cases advance <;> rfl

/-- The loop of the route keeps the permit, unless an exception passes the handler. -/
theorem collect_permits (chunks : List String) (advance : Advance) :
    (collect chunks advance).permits = 1 ↔ advance.caught = true := by
  cases advance with
  | raises raised => exact exceptHandler_permits_eq_one raised
  | running g => exact iff_of_true rfl rfl
  | yields event g => exact iff_of_true rfl rfl
  | returns => exact iff_of_true rfl rfl

/-- A statement keeps or releases the permit exactly when it is guarded. -/
theorem generateTokens_permits {req : GenerationRequest} {requestId : String} {phase : Phase}
    {raised : Option Raised} {turn : Turn}
    (h : generateTokens req requestId phase raised = some turn) :
    turn.permits = phase.holds.toNat ↔ phase.guarded raised = true := by
  rcases raised with _ | raised
  · cases phase with
    | entered | acquiring | ended _ => cases h
    | admitted =>
      cases h
      refine iff_of_true ?_ rfl
      cases req.stream <;> rfl
    | responded | sending _ _ | parsing _ _ _ | joining _ | answering _ =>
      cases h
      exact iff_of_true rfl rfl
    | streaming g =>
      cases h
      exact iff_of_true (streamingWrapper_permits _) rfl
    | collecting g chunks =>
      cases h
      exact (collect_permits chunks _).trans (by rw [caught_eq]; rfl)
  · cases phase with
    | entered | acquiring | ended _ => cases h
    | admitted | parsing _ _ _ | joining _ =>
      cases h
      exact exceptHandler_permits_eq_one raised
    | responded =>
      cases h
      exact iff_of_false Nat.zero_ne_one Bool.false_ne_true
    | sending _ _ =>
      cases h
      exact iff_of_true (streamingWrapper_permits _) rfl
    | streaming g =>
      cases h
      exact iff_of_true (streamingWrapper_permits _) rfl
    | collecting g chunks =>
      cases h
      exact (collect_permits chunks _).trans (by rw [caught_eq]; rfl)
    | answering _ =>
      cases h
      exact exceptHandler_permits_eq_zero raised

end Statements

section Calls

def Phase.waits : Phase → Bool
  | .entered | .acquiring => true
  | _ => false

theorem Phase.holds_of_waits {phase : Phase} (h : phase.waits = true) : phase.holds = false := by
  cases phase <;> first | rfl | cases h

structure Moves (c c' : Call) (guarded : Prop) : Prop where
  balance : c'.released + c'.phase.holds.toNat + c.acquired =
    c.released + c.phase.holds.toNat + c'.acquired ↔ guarded
  acquires : c'.acquired = c.acquired + (c.phase.waits && c'.phase.holds).toNat
  waits : c'.phase.waits = true → c.phase.waits = true

/-- Every acquired permit is held or released, and there is one at most. -/
structure Call.Balanced (c : Call) : Prop where
  waits : c.phase.waits = true → c.acquired = 0
  acquired : c.acquired ≤ 1
  released : c.released + c.phase.holds.toNat = c.acquired

theorem Call.Balanced.step {c c' : Call} {guarded : Prop} (h : c.Balanced)
    (hmoves : Moves c c' guarded) (hguarded : guarded) : c'.Balanced := by
  have hbalance := hmoves.balance.mpr hguarded
  have hreleased := h.released
  have hacquires := hmoves.acquires
  have hacquired : c'.acquired ≤ 1 := by
    cases hwaits : c.phase.waits with
    | true =>
      have := h.waits hwaits
      have := Bool.toNat_le (true && c'.phase.holds)
      rw [hwaits] at hacquires
      omega
    | false =>
      rw [hwaits, Bool.false_and, Bool.toNat_false] at hacquires
      exact hacquires ▸ h.acquired
  refine ⟨fun hwaits' => ?_, hacquired, by omega⟩
  rw [hacquires, h.waits (hmoves.waits hwaits'), Phase.holds_of_waits hwaits', Bool.and_false,
    Bool.toNat_false]

end Calls

namespace Server
variable {s s' : Server} {i : ℕ} {c : Call} {raised : Option Raised}

/-- The calls that run with a permit, and the waiters that a permit was handed to. -/
def holders (s : Server) : ℕ :=
  s.semaphore.granted + total (fun _ c => c.phase.holds.toNat) s.calls

/-- Every permit is in the semaphore or with a call, which releases what it acquired once. -/
structure Conserved (s : Server) : Prop where
  value : s.semaphore.value + s.holders = maxConcurrentRequests
  once : ∀ i c, s.calls.lookup i = some c →
    c.acquired ≤ 1 ∧ c.released + c.phase.holds.toNat = c.acquired

def guarded (s : Server) : Action → Bool
  | .run i raised => (s.calls.lookup i).all fun c => c.phase.guarded raised
  | _ => true

/-- The semaphore gets what the call releases and gives what it acquires. -/
structure Trades (s s' : Server) (i : ℕ) (c c' : Call) : Prop where
  calls : s'.calls = s.calls.insert i c'
  permits : s'.semaphore.permits + c'.acquired + c.released =
    s.semaphore.permits + c.acquired + c'.released

theorem waits_generateTokens {req : GenerationRequest} {requestId : String} {phase : Phase}
    {turn : Turn} (h : generateTokens req requestId phase raised = some turn) :
    phase.waits = false ∧ turn.phase.waits = false := by
  have hhandler : ∀ e, (exceptHandler e).phase.waits = false := fun e => by cases e <;> rfl
  have hwrapper : ∀ a, (streamingWrapper a).phase.waits = false := fun a => by cases a <;> rfl
  have hcollect : ∀ chunks a, (collect chunks a).phase.waits = false := fun chunks a => by
    cases a with
    | raises e => exact hhandler e
    | _ => rfl
  cases phase with
  | entered | acquiring | ended _ => cases raised <;> cases h
  | streaming _ =>
    cases h
    exact ⟨rfl, hwrapper _⟩
  | collecting _ _ =>
    cases h
    exact ⟨rfl, hcollect _ _⟩
  | admitted =>
    cases raised <;> cases h
    · cases req.stream <;> exact ⟨rfl, rfl⟩
    · exact ⟨rfl, hhandler _⟩
  | sending _ _ =>
    cases raised <;> cases h
    · exact ⟨rfl, rfl⟩
    · exact ⟨rfl, hwrapper _⟩
  | responded => cases raised <;> cases h <;> exact ⟨rfl, rfl⟩
  | parsing _ _ _ | joining _ | answering _ =>
    cases raised <;> cases h
    · exact ⟨rfl, rfl⟩
    · exact ⟨rfl, hhandler _⟩

/-- What a statement under `generate_tokens` does to the call and to the semaphore. -/
theorem turn_cases {turn : Turn} (h : generateTokens c.req c.requestId c.phase raised = some turn) :
    let c' := { c with phase := turn.phase, released := c.released + turn.released.toNat }
    let s' := s.put i (if turn.released then s.semaphore.release else s.semaphore) c'
    Trades s s' i c c' ∧ Moves c c' (c.phase.guarded raised = true) := by
  intro c' s'
  obtain ⟨hwaits, hwaits'⟩ := waits_generateTokens h
  refine ⟨⟨rfl, ?_⟩, ⟨?_, ?_, ?_⟩⟩
  · show (if turn.released then s.semaphore.release else s.semaphore).permits + c.acquired +
      c.released = s.semaphore.permits + c.acquired + (c.released + turn.released.toNat)
    cases turn.released with
    | true =>
      rw [if_pos rfl, Semaphore.permits_release, Bool.toNat_true]
      omega
    | false => rfl
  · rw [← generateTokens_permits h, Turn.permits]
    simp only [c']
    omega
  · simp only [c', hwaits, Bool.false_and, Bool.toNat_false, Nat.add_zero]
  · intro hturn
    exact absurd (hwaits'.symm.trans hturn) Bool.false_ne_true

/-- A call that ends before it is admitted has acquired and released nothing. -/
theorem moves_ended {outcome : Outcome} {guarded : Prop} (hwaits : c.phase.waits = true)
    (hguarded : guarded) : Moves c { c with phase := .ended outcome } guarded := by
  refine ⟨iff_of_true ?_ hguarded, ?_, fun hended => absurd hended Bool.false_ne_true⟩
  · rw [Phase.holds_of_waits hwaits]
    rfl
  · simp only [Phase.holds, Bool.and_false, Bool.toNat_false, Nat.add_zero]

theorem runCall_cases (h : s.runCall i c raised = some s') :
    ∃ c', Trades s s' i c c' ∧ Moves c c' (c.phase.guarded raised = true) := by
  unfold runCall at h
  obtain ⟨-, h⟩ := Option.ite_none_left_eq_some.mp h
  cases hphase : c.phase with
  | entered =>
    rw [hphase] at h
    rcases raised with _ | raised
    · have hpermits := s.semaphore.permits_acquire i
      cases h
      refine ⟨_, ⟨rfl, ?_⟩, ⟨iff_of_true ?_ rfl, ?_, fun _ => by rw [hphase]; rfl⟩⟩
      · show (s.semaphore.acquire i).1.permits + (c.acquired + (s.semaphore.acquire i).2.toNat) +
          c.released = s.semaphore.permits + c.acquired + c.released
        omega
      · rw [hphase]
        simp only
        cases (s.semaphore.acquire i).2
        · rfl
        · show c.released + 1 + c.acquired = c.released + 0 + (c.acquired + 1)
          omega
      · rw [hphase]
        simp only
        cases (s.semaphore.acquire i).2 <;> rfl
    · cases h
      exact ⟨_, ⟨rfl, rfl⟩, moves_ended (by rw [hphase]; rfl) rfl⟩
  | acquiring =>
    rw [hphase] at h
    rcases raised with _ | _ | _ | _
    · obtain ⟨semaphore, hresume, rfl⟩ := Option.map_eq_some_iff.mp h
      have hpermits := Semaphore.permits_resume hresume
      refine ⟨_, ⟨rfl, ?_⟩, ⟨iff_of_true ?_ rfl, ?_, fun _ => by rw [hphase]; rfl⟩⟩
      · show semaphore.permits + (c.acquired + 1) + c.released =
          s.semaphore.permits + c.acquired + c.released
        omega
      · rw [hphase]
        show c.released + 1 + c.acquired = c.released + 0 + (c.acquired + 1)
        omega
      · rw [hphase]
        rfl
    · cases h
    · cases h
      refine ⟨_, ⟨rfl, ?_⟩, moves_ended (by rw [hphase]; rfl) rfl⟩
      show (s.semaphore.abandon i).permits + c.acquired + c.released = _
      rw [Semaphore.permits_abandon]
    · cases h
  | ended outcome =>
    rw [hphase] at h
    cases raised <;> cases h
  | _ =>
    rw [hphase] at h
    obtain ⟨turn, hturn, rfl⟩ := Option.map_eq_some_iff.mp h
    rw [← hphase] at hturn ⊢
    exact ⟨_, turn_cases hturn⟩

/-- A step opens a record for a new call, or moves one call. -/
theorem step_cases {action : Action} (h : s.step action = some s') :
    (∃ i req requestId, i ∉ s.calls ∧ s'.semaphore = s.semaphore ∧ s.guarded action = true ∧
      s'.calls = s.calls.insert i ⟨req, requestId, .entered, 0, 0⟩) ∨
    ∃ i c c', s.calls.lookup i = some c ∧ Trades s s' i c c' ∧
      Moves c c' (s.guarded action = true) := by
  cases action with
  | receive i req nowMs =>
    obtain ⟨hfresh, h⟩ := Option.ite_none_left_eq_some.mp h
    cases h
    exact Or.inl ⟨i, req, _, hfresh, rfl, rfl, rfl⟩
  | timeout i =>
    obtain ⟨c, hc, h⟩ := Option.bind_eq_some_iff.mp h
    obtain ⟨hphase, h⟩ := Option.ite_none_right_eq_some.mp h
    cases h
    refine Or.inr ⟨i, c, _, hc, ⟨rfl, ?_⟩, moves_ended (by rw [hphase]; rfl) rfl⟩
    show (s.semaphore.abandon i).permits + c.acquired + c.released = _
    rw [Semaphore.permits_abandon]
  | run i raised =>
    obtain ⟨c, hc, h⟩ := Option.bind_eq_some_iff.mp h
    obtain ⟨c', htrades, hmoves⟩ := runCall_cases h
    refine Or.inr ⟨i, c, c', hc, htrades, ?_⟩
    rwa [guarded, hc]

def permits (s : Server) : ℕ :=
  s.semaphore.permits + total (fun _ c => c.phase.holds.toNat) s.calls

theorem value_add_holders (s : Server) : s.semaphore.value + s.holders = s.permits :=
  (Nat.add_assoc _ _ _).symm

/-- The invariant: every permit is accounted for, and every call has its record in balance. -/
structure Accounted (s : Server) : Prop where
  permits : s.permits = maxConcurrentRequests
  balanced : ∀ i c, s.calls.lookup i = some c → c.Balanced

theorem Accounted.conserved (h : s.Accounted) : s.Conserved where
  value := by
    rw [value_add_holders, h.permits]
  once := fun i c hc => ⟨(h.balanced i c hc).acquired, (h.balanced i c hc).released⟩

/-- Exactly the guarded steps leave every permit accounted for. -/
theorem permits_step {c' : Call} {guarded : Prop} (h : s.permits = maxConcurrentRequests)
    (hc : s.calls.lookup i = some c) (htrades : Trades s s' i c c') (hmoves : Moves c c' guarded) :
    s'.permits = maxConcurrentRequests ↔ guarded := by
  have htotal := total_insert_of_lookup (f := fun _ c => c.phase.holds.toNat) hc c'
  have hpermits := htrades.permits
  rw [← htrades.calls] at htotal
  rw [← hmoves.balance]
  unfold permits at h ⊢
  omega

theorem Accounted.step {action : Action} (h : s.Accounted) (hstep : s.step action = some s')
    (hguarded : s.guarded action = true) : s'.Accounted := by
  rcases step_cases hstep with ⟨i, req, requestId, hfresh, hsem, -, hcalls⟩ |
    ⟨i, c, c', hc, htrades, hmoves⟩
  · refine ⟨?_, fun j d hd => ?_⟩
    · have htotal := total_insert_of_notMem (f := fun _ c => c.phase.holds.toNat)
        (v := ⟨req, requestId, .entered, 0, 0⟩) hfresh
      refine Eq.trans ?_ h.permits
      unfold Server.permits
      rw [hsem, hcalls, htotal]
      exact congrArg _ (Nat.zero_add _)
    · rw [hcalls, lookup_insert_ite] at hd
      split_ifs at hd
      · cases hd
        exact ⟨fun _ => rfl, Nat.zero_le 1, rfl⟩
      · exact h.balanced j d hd
  · refine ⟨(permits_step h.permits hc htrades hmoves).mpr hguarded, fun j d hd => ?_⟩
    rw [htrades.calls, lookup_insert_ite] at hd
    split_ifs at hd
    · cases hd
      exact (h.balanced i c hc).step hmoves hguarded
    · exact h.balanced j d hd

theorem Accounted.guarded_of_conserved {action : Action} (h : s.Accounted)
    (hstep : s.step action = some s') (hconserved : s'.Conserved) : s.guarded action = true := by
  rcases step_cases hstep with ⟨-, -, -, -, -, hguarded, -⟩ | ⟨i, c, c', hc, htrades, hmoves⟩
  · exact hguarded
  · refine (permits_step h.permits hc htrades hmoves).mp ?_
    rw [← hconserved.value, value_add_holders]

/-- No call has come in yet; the semaphore is made by the first call or by the application. -/
structure Idle (s : Server) : Prop where
  calls : s.calls = ∅
  semaphore : s.semaphore = Semaphore.ofValue maxConcurrentRequests

theorem Idle.accounted (h : s.Idle) : s.Accounted where
  permits := by
    rw [permits, h.semaphore, h.calls, Semaphore.permits_ofValue, total_empty, Nat.add_zero]
  balanced := fun i c hc => by
    rw [h.calls, AList.lookup_empty] at hc
    cases hc

/-- The permits are conserved through a run exactly when all its statements are guarded. -/
theorem permits_conserved_iff {actions : List Action} (hidle : s.Idle)
    (hexec : exec step s actions = some s') :
    (∀ pre, pre <+: actions → ∀ t, exec step s pre = some t → t.Conserved) ↔
      AllSteps step (fun s action => s.guarded action = true) s actions :=
  always_iff_allSteps (fun _ h => h.conserved) (fun _ _ _ h hguarded hstep => h.step hstep hguarded)
    (fun _ _ _ h hstep hconserved => h.guarded_of_conserved hstep hconserved) hidle.accounted hexec

def oneToken (stream : Bool) : GenerationRequest := ⟨"a", 1, stream, by decide, by decide⟩

def idle : Server := ⟨none, ∅⟩

theorem idle_idle : idle.Idle := ⟨rfl, rfl⟩

/-- A call that is answered, and a stream that its client closes at the first event. -/
def closedStream : List Action :=
  [.receive 0 (oneToken false) 0, .receive 1 (oneToken true) 1, .run 0 none, .run 1 none] ++
    List.replicate 3 (Action.run 0 none) ++ List.replicate 5 (Action.run 1 none) ++
    [Action.run 1 (some .baseException)] ++ List.replicate 5 (Action.run 0 none)

theorem permits_conserved_closedStream : ∃ s', exec step idle closedStream = some s' ∧
    ∀ pre, pre <+: closedStream → ∀ t, exec step idle pre = some t → t.Conserved := by
  obtain ⟨s', hexec⟩ := Option.isSome_iff_exists.mp
    (by decide : (exec step idle closedStream).isSome = true)
  exact ⟨s', hexec, (permits_conserved_iff idle_idle hexec).mpr (by decide)⟩

/-- A call without a stream is cancelled at its first token. -/
def cancelledWait : List Action :=
  .receive 0 (oneToken false) 0 :: List.replicate 3 (.run 0 none) ++
    [.run 0 (some .cancelledError), .run 0 none]

def unstartedStream : List Action :=
  .receive 0 (oneToken true) 0 :: List.replicate 2 (.run 0 none) ++ [.run 0 (some .baseException)]

def invalidResponse : List Action :=
  .receive 0 (oneToken false) 0 :: List.replicate 8 (.run 0 none) ++
    [.run 0 (some (.exception "validation error"))]

theorem not_conserved_of_value {value : ℕ} (hne : value ≠ maxConcurrentRequests)
    (h : s.semaphore.value = value ∧ s.holders = 0) : ¬s.Conserved := fun hconserved =>
  hne (by rw [← hconserved.value, h.1, h.2, Nat.add_zero])

/-- Two permits that are lost, and one that is released twice. -/
theorem permits_not_conserved :
    (∃ s, exec step idle cancelledWait = some s ∧
      (s.semaphore.value = 31 ∧ s.holders = 0) ∧ ¬s.Conserved) ∧
    (∃ s, exec step idle unstartedStream = some s ∧
      (s.semaphore.value = 31 ∧ s.holders = 0) ∧ ¬s.Conserved) ∧
    ∃ s, exec step idle invalidResponse = some s ∧
      (s.semaphore.value = 33 ∧ s.holders = 0) ∧ ¬s.Conserved := by
  refine ⟨?_, ?_, ?_⟩
  · exact exec_exists (P := fun s => s.semaphore.value = 31 ∧ s.holders = 0) (by decide)
      fun s _ hs => ⟨hs, not_conserved_of_value (by decide) hs⟩
  · exact exec_exists (P := fun s => s.semaphore.value = 31 ∧ s.holders = 0) (by decide)
      fun s _ hs => ⟨hs, not_conserved_of_value (by decide) hs⟩
  · exact exec_exists (P := fun s => s.semaphore.value = 33 ∧ s.holders = 0) (by decide)
      fun s _ hs => ⟨hs, not_conserved_of_value (by decide) hs⟩

end Server
end CudaForge.Serving
