import CudaForge.Engine.AsyncStreams
import CudaForge.Library.FairRun

/-! Every consumer of the asynchronous engine receives the whole stream of its own request. -/
namespace CudaForge.Engine
open FiniteMap PriorityQueue Scheduler Memory MarkedStream Transition

/-- The steps of the loop that are left before it has looked at all outputs. -/
def LoopPhase.turns : LoopPhase → ℕ
  | .delivering outputs => 2 * outputs.length
  | .removing _ outputs => 2 * outputs.length + 1

/-- The generator has to be resumed before it can get another output. -/
def GeneratorState.pause : GeneratorState → ℕ
  | .yielded _ => 1
  | _ => 0

theorem GeneratorState.pause_le (state : GeneratorState) : state.pause ≤ 1 := by
  cases state <;> simp [pause]

def GeneratorState.next (c : ConsumerId) : GeneratorState → AsyncAction
  | .yielded _ => .resume c
  | _ => .get c

theorem GeneratorState.next_eq {c : ConsumerId} {state state' : GeneratorState}
    (h : state'.pause = state.pause) : state'.next c = state.next c := by
  cases state <;> cases state' <;> first | rfl | contradiction

def LoopPhase.next : LoopPhase → AsyncAction
  | .delivering _ => .deliver
  | .removing _ _ => .remove

theorem LoopPhase.next_eq {loop loop' : LoopPhase} (h : loop'.turns = loop.turns) :
    loop'.next = loop.next := by
  cases loop <;> cases loop' <;> simp only [turns, next] at h ⊢ <;> omega

theorem LoopPhase.turns_eq_zero {loop : LoopPhase} : loop.turns = 0 ↔ loop = .delivering [] := by
  cases loop with
  | delivering outputs => simp [turns]
  | removing requestId outputs => simp [turns]

/-- The consumer's own steps to its `n`th output, once the outputs are in its queue. -/
def Consumer.pulls (k : Consumer) (n : ℕ) : ℕ := 2 * (n - k.received.length) + k.state.pause

namespace AsyncLLMEngine
variable {cfg : KVCacheConfig} {Q : Type} {s s' : AsyncLLMEngine cfg Q} {c : ConsumerId}
  {k k' : Consumer} {n : ℕ}

/-- How many steps the consumer is away from its `n`th output. -/
def distance (s : AsyncLLMEngine cfg Q) (k : Consumer) (n : ℕ) : ℕ :=
  if n ≤ k.received.length then 0
  else k.pulls n +
    if n ≤ k.received.length + k.queue.length then 0 else s.loop.turns

/-- At distance zero the output has been received. -/
theorem distance_eq_zero : s.distance k n = 0 ↔ n ≤ k.received.length := by
  unfold distance
  split_ifs with hn
  · exact iff_of_true rfl hn
  · rw [Consumer.pulls]
    omega
  · rw [Consumer.pulls]
    omega

/-- What a step does to a consumer and around it: only a new step of the engine gives the loop more
turns, and that needs a loop without outputs. -/
structure Advances (s s' : AsyncLLMEngine cfg Q) (k k' : Consumer) : Prop where
  requestId_eq : k'.requestId = k.requestId
  returned_le : s.returned <+: s'.returned
  received_le : k.received.length ≤ k'.received.length
  total_le : k.received.length + k.queue.length ≤ k'.received.length + k'.queue.length
  pulls_le : ∀ n, k.received.length < n → k'.pulls n ≤ k.pulls n
  turns_le : s'.loop.turns ≤ s.loop.turns ∨ s.loop = .delivering []

theorem Advances.distance_le (h : Advances s s' k k')
    (hidle : s.loop = .delivering [] → n ≤ k.received.length + k.queue.length) :
    s'.distance k' n ≤ s.distance k n := by
  have hreceived := h.received_le
  have htotal := h.total_le
  by_cases hn : n ≤ k'.received.length
  · simp only [distance, if_pos hn, Nat.zero_le]
  · have hold : ¬n ≤ k.received.length := fun hle => hn (hle.trans hreceived)
    have hpulls := h.pulls_le n (Nat.lt_of_not_le hold)
    simp only [distance, if_neg hn, if_neg hold]
    apply Nat.add_le_add hpulls
    by_cases hqueued : n ≤ k.received.length + k.queue.length
    · rw [if_pos (hqueued.trans htotal)]
      exact Nat.zero_le _
    · rw [if_neg hqueued]
      refine le_trans ?_ (h.turns_le.resolve_right fun hloop => hqueued (hidle hloop))
      split_ifs
      · exact Nat.zero_le _
      · exact le_rfl

/-- A step of another party leaves the consumer alone. -/
theorem Advances.of_loop (hreturned : s.returned <+: s'.returned)
    (hloop : s'.loop.turns ≤ s.loop.turns ∨ s.loop = .delivering []) : Advances s s' k k :=
  ⟨rfl, hreturned, le_rfl, le_rfl, fun _ _ => le_rfl, hloop⟩

/-- The generator of the consumer changes state without an output. -/
theorem Advances.of_state {state : GeneratorState} (hpause : state.pause ≤ k.state.pause)
    (hreturned : s'.returned = s.returned) (hloop : s'.loop = s.loop) :
    Advances s s' k { k with state := state } :=
  ⟨rfl, hreturned ▸ List.prefix_rfl, le_rfl, le_rfl, fun _ _ => Nat.add_le_add_left hpause _,
    Or.inl (hloop ▸ le_rfl)⟩

theorem setConsumer_consumers (hk : s.consumers c = some k) (d : ConsumerId) (x : Consumer) :
    ∃ k', (s.setConsumer d x).consumers c = some k' ∧ (k' = k ∨ d = c ∧ k' = x) := by
  by_cases hd : c = d
  · subst hd
    exact ⟨x, Function.update_self _ _ _, Or.inr ⟨rfl, rfl⟩⟩
  · exact ⟨k, (Function.update_of_ne hd _ _).trans hk, Or.inl rfl⟩

theorem get_advances {d : ConsumerId} (hk : s.consumers c = some k) (hs : s.get d = some s') :
    ∃ k', s'.consumers c = some k' ∧ Advances s s' k k' := by
  unfold AsyncLLMEngine.get at hs
  split at hs
  · rename_i requestId output queue received hd
    rw [← Option.some.inj hs]
    obtain ⟨k', hk', rfl | ⟨rfl, rfl⟩⟩ := setConsumer_consumers hk d
      ⟨requestId, queue, received ++ [output], .yielded output⟩
    · exact ⟨_, hk', .of_loop List.prefix_rfl (Or.inl le_rfl)⟩
    · obtain rfl := Option.some.inj (hk.symm.trans hd)
      refine ⟨_, hk', rfl, List.prefix_rfl, ?_, ?_, fun n hn => ?_, Or.inl le_rfl⟩
      · simp only [List.length_append, List.length_singleton, Nat.le_succ]
      · simp only [List.length_append, List.length_cons]
        omega
      · have hlt : received.length < n := hn
        simp only [Consumer.pulls, GeneratorState.pause, List.length_append, List.length_singleton]
        omega
  · contradiction

theorem resume_advances {d : ConsumerId} (hk : s.consumers c = some k)
    (hs : s.resume d = some s') : ∃ k', s'.consumers c = some k' ∧ Advances s s' k k' := by
  unfold AsyncLLMEngine.resume at hs
  split at hs
  · rename_i requestId queue received output hd
    dsimp only at hs
    rw [← Option.some.inj hs]
    obtain ⟨k', hk', rfl | ⟨rfl, rfl⟩⟩ := setConsumer_consumers hk d
      ⟨requestId, queue, received, if output.isFinal then .finished else .waiting⟩
    · exact ⟨_, hk', .of_loop List.prefix_rfl (Or.inl le_rfl)⟩
    · obtain rfl := Option.some.inj (hk.symm.trans hd)
      refine ⟨_, hk', .of_state ?_ rfl rfl⟩
      split_ifs <;> exact Nat.zero_le _
  · contradiction

/-- The generator is left by an exception. -/
theorem left_advances {d : ConsumerId} {x : Consumer} (state : GeneratorState)
    (hk : s.consumers c = some k) (hd : s.consumers d = some x) (hpause : state.pause = 0)
    (hconsumers : s'.consumers = (s.setConsumer d { x with state := state }).consumers)
    (hreturned : s'.returned = s.returned) (hloop : s'.loop = s.loop) :
    ∃ k', s'.consumers c = some k' ∧ Advances s s' k k' := by
  rw [hconsumers]
  obtain ⟨k', hk', rfl | ⟨rfl, rfl⟩⟩ := setConsumer_consumers hk d { x with state := state }
  · exact ⟨_, hk', .of_loop (hreturned ▸ List.prefix_rfl) (Or.inl (hloop ▸ le_rfl))⟩
  · obtain rfl := Option.some.inj (hk.symm.trans hd)
    exact ⟨_, hk', .of_state (hpause ▸ Nat.zero_le _) hreturned hloop⟩

/-- The loop looks at an output, which takes it a turn. -/
theorem deliver_advances (hk : s.consumers c = some k) (hs : s.deliver = some s') :
    s'.loop.turns < s.loop.turns ∧ ∃ k', s'.consumers c = some k' ∧ Advances s s' k k' := by
  unfold AsyncLLMEngine.deliver at hs
  split at hs
  · rename_i out outputs hloop
    have hturns : s.loop.turns = 2 * outputs.length + 2 := by
      rw [hloop, LoopPhase.turns, List.length_cons]
      omega
    split at hs
    · rw [← Option.some.inj hs]
      have hlt : 2 * outputs.length < s.loop.turns := by omega
      exact ⟨hlt, k, hk, .of_loop List.prefix_rfl (Or.inl hlt.le)⟩
    · rename_i d hqueue
      dsimp only at hs
      rw [← Option.some.inj hs]
      have hlt : (if out.isFinal then LoopPhase.removing out.requestId outputs
          else .delivering outputs).turns < s.loop.turns := by
        rw [hturns]
        split_ifs
        · exact Nat.lt_succ_self _
        · exact Nat.lt_add_of_pos_right Nat.two_pos
      refine ⟨hlt, ?_⟩
      by_cases hcd : c = d
      · subst hcd
        refine ⟨{ k with queue := k.queue ++ [out] }, by simp [put, hk], rfl, List.prefix_rfl,
          le_rfl, ?_, fun _ _ => le_rfl, Or.inl hlt.le⟩
        simp only [List.length_append]
        omega
      · refine ⟨k, (Function.update_of_ne hcd _ _).trans hk, ?_⟩
        exact .of_loop List.prefix_rfl (Or.inl hlt.le)
  · contradiction

theorem remove_advances (hk : s.consumers c = some k) (hs : s.remove = some s') :
    s'.loop.turns < s.loop.turns ∧ ∃ k', s'.consumers c = some k' ∧ Advances s s' k k' := by
  unfold AsyncLLMEngine.remove at hs
  split at hs
  · rename_i requestId outputs hloop
    rw [← Option.some.inj hs]
    have hlt : (LoopPhase.delivering outputs).turns < s.loop.turns := by
      rw [hloop]
      exact Nat.lt_succ_self _
    exact ⟨hlt, k, hk, .of_loop List.prefix_rfl (Or.inl hlt.le)⟩
  · contradiction

variable [PriorityQueue Q RequestRef]

theorem generate_advances {d : ConsumerId} {promptTokens : List ℤ}
    {samplingParams : Option SamplingParams} {now : ℕ} (hk : s.consumers c = some k)
    (hs : s.generate d promptTokens samplingParams now = some s') :
    ∃ k', s'.consumers c = some k' ∧ Advances s s' k k' := by
  unfold AsyncLLMEngine.generate at hs
  split at hs
  · contradiction
  · rename_i hd
    have hcd : c ≠ d := by
      rintro rfl
      exact nomatch hd.symm.trans hk
    dsimp only at hs
    split at hs
    · rw [← Option.some.inj hs]
      exact ⟨k, hk, .of_loop List.prefix_rfl (Or.inl le_rfl)⟩
    · rw [← Option.some.inj hs]
      exact ⟨k, (Function.update_of_ne hcd _ _).trans hk, .of_loop List.prefix_rfl (Or.inl le_rfl)⟩

theorem loopStep_advances (hk : s.consumers c = some k) (hs : s.loopStep = some s') :
    ∃ k', s'.consumers c = some k' ∧ Advances s s' k k' := by
  unfold AsyncLLMEngine.loopStep at hs
  split at hs
  · rename_i hloop
    dsimp only at hs
    split_ifs at hs
    split at hs
    · rw [← Option.some.inj hs]
      exact ⟨k, hk, .of_loop List.prefix_rfl (Or.inl le_rfl)⟩
    · rw [← Option.some.inj hs]
      exact ⟨k, hk, .of_loop (List.prefix_append _ _) (Or.inr hloop)⟩
  · contradiction

theorem step_advances {a : AsyncAction} (hk : s.consumers c = some k)
    (hs : s.step a = some s') : ∃ k', s'.consumers c = some k' ∧ Advances s s' k k' := by
  cases a with
  | start =>
    rw [← Option.some.inj hs]
    exact ⟨k, hk, .of_loop List.prefix_rfl (Or.inl le_rfl)⟩
  | generate d promptTokens samplingParams now => exact generate_advances hk hs
  | get d => exact get_advances hk hs
  | resume d => exact resume_advances hk hs
  | cancel d =>
    obtain ⟨x, hx, hs⟩ := Option.map_eq_some_iff.mp hs
    rw [← hs]
    exact left_advances .cancelled hk (suspended_eq hx) rfl rfl rfl rfl
  | close d =>
    obtain ⟨x, hx, hs⟩ := Option.map_eq_some_iff.mp hs
    rw [← hs]
    exact left_advances .closed hk (suspended_eq hx) rfl rfl rfl rfl
  | loopStep => exact loopStep_advances hk hs
  | deliver => exact (deliver_advances hk hs).2
  | remove => exact (remove_advances hk hs).2

def Brings (c : ConsumerId) : AsyncAction → Prop
  | .deliver | .remove => True
  | .get d | .resume d => d = c
  | _ => False

/-- The step that brings the consumer nearer to its `n`th output. -/
def nextFor (s : AsyncLLMEngine cfg Q) (c : ConsumerId) (k : Consumer) (n : ℕ) : AsyncAction :=
  if n ≤ k.received.length + k.queue.length then k.state.next c else s.loop.next

omit [PriorityQueue Q RequestRef] in
theorem nextFor_brings (s : AsyncLLMEngine cfg Q) (c : ConsumerId) (k : Consumer) (n : ℕ) :
    Brings c (s.nextFor c k n) := by
  unfold nextFor
  split_ifs
  · cases k.state <;> rfl
  · cases s.loop <;> trivial

section Routed
variable {delivered : List GenerationOutput}

theorem Routed.accounted (h : s.Routed delivered) (hf : Follows s delivered c k) :
    ∃ undelivered, undelivered <+: ofRequest s.loop.outputs k.requestId ∧
      k.received ++ k.queue ++ undelivered = streamOf s.returned k.requestId := by
  obtain ⟨undelivered, hle, heq⟩ := exists_upTo_append (fun o : GenerationOutput => o.isFinal)
    (ofRequest delivered k.requestId) (ofRequest s.loop.outputs k.requestId)
  refine ⟨undelivered, hle, ?_⟩
  rw [hf.stream_eq, h.returned_eq, streamOf, streamOf, ofRequest_append, heq]

theorem Routed.complete (h : s.Routed delivered) (hf : Follows s delivered c k)
    (hfinal : ∃ o ∈ k.received, o.isFinal = true) :
    k.received = streamOf s.returned k.requestId := by
  obtain ⟨undelivered, -, heq⟩ := h.accounted hf
  obtain ⟨o, ho, hp⟩ := hfinal
  rw [List.append_assoc] at heq
  have hrest : k.queue ++ undelivered = [] := eq_nil_of_marked heq.symm ho hp
  rw [← heq, hrest, List.append_nil]

/-- While the loop has nothing to put, the whole stream has been received or is queued. -/
theorem Routed.idle (h : s.Routed delivered) (hf : Follows s delivered c k)
    (hn : n ≤ (streamOf s.returned k.requestId).length) (hloop : s.loop = .delivering []) :
    n ≤ k.received.length + k.queue.length := by
  rw [h.returned_eq, hloop, LoopPhase.outputs, List.append_nil, ← hf.stream_eq,
    List.length_append] at hn
  exact hn

/-- A consumer that was not abandoned takes an output from its queue, or goes on behind one. -/
theorem Routed.pulls_next (h : s.Routed delivered) (hk : s.consumers c = some k)
    (halive : k.Alive) (hn : n ≤ (streamOf s.returned k.requestId).length)
    (hmissing : ¬n ≤ k.received.length) (hqueued : n ≤ k.received.length + k.queue.length) :
    ∃ s' k', s.step (k.state.next c) = some s' ∧ s'.consumers c = some k' ∧
      s'.distance k' n < s.distance k n := by
  have hf := h.follows c k hk halive
  have hdistance : s.distance k n = k.pulls n := by
    simp only [distance, if_neg hmissing, if_pos hqueued, Nat.add_zero]
  rw [hdistance]
  obtain ⟨requestId, queue, received, state⟩ := k
  cases state with
  | waiting =>
    obtain ⟨output, queue, rfl⟩ : ∃ output rest, queue = output :: rest := by
      apply List.exists_cons_of_ne_nil
      rintro rfl
      exact hmissing hqueued
    have hget : s.get c = some
        (s.setConsumer c ⟨requestId, queue, received ++ [output], .yielded output⟩) := by
      simp only [AsyncLLMEngine.get, hk]
    refine ⟨_, _, hget, Function.update_self _ _ _, ?_⟩
    have hlt : ¬n ≤ received.length := hmissing
    have hrest : n ≤ received.length + (queue.length + 1) := hqueued
    simp only [distance, Consumer.pulls, GeneratorState.pause, List.length_append,
      List.length_singleton]
    split_ifs <;> omega
  | yielded output =>
    have hresume : s.resume c = some (s.setConsumer c
        ⟨requestId, queue, received, if output.isFinal then .finished else .waiting⟩) := by
      simp only [AsyncLLMEngine.resume, hk]
    refine ⟨_, _, hresume, Function.update_self _ _ _, ?_⟩
    have hpause : (if output.isFinal then GeneratorState.finished else .waiting).pause = 0 := by
      split_ifs <;> rfl
    simp only [distance, if_neg hmissing, if_pos hqueued, Consumer.pulls, hpause]
    exact Nat.lt_succ_self _
  | finished =>
    rw [← h.complete hf hf.consistent] at hn
    exact absurd hn hmissing
  | cancelled => exact absurd rfl halive.1
  | closed => exact absurd rfl halive.2

/-- The loop has an output to look at, or a queue to remove. -/
theorem Routed.loop_next (h : s.Routed delivered) (hk : s.consumers c = some k)
    (halive : k.Alive) (hn : n ≤ (streamOf s.returned k.requestId).length)
    (hmissing : ¬n ≤ k.received.length) (hqueued : ¬n ≤ k.received.length + k.queue.length) :
    ∃ s' k', s.step s.loop.next = some s' ∧ s'.consumers c = some k' ∧
      s'.distance k' n < s.distance k n := by
  have hdistance : s.distance k n = k.pulls n + s.loop.turns := by
    simp only [distance, if_neg hmissing, if_neg hqueued]
  have hnearer : ∀ t : AsyncLLMEngine cfg Q, t.loop.turns < s.loop.turns →
      ∀ k', Advances s t k k' → t.distance k' n < s.distance k n := by
    intro t hturns k' hadvance
    have hpulls := hadvance.pulls_le n (Nat.lt_of_not_le hmissing)
    rw [hdistance, distance]
    split_ifs <;> omega
  cases hloop : s.loop with
  | delivering outputs =>
    cases outputs with
    | nil => exact absurd (h.idle (h.follows c k hk halive) hn hloop) hqueued
    | cons out outputs =>
      obtain ⟨t, ht⟩ : ∃ t, s.deliver = some t := by
        simp only [AsyncLLMEngine.deliver, hloop]
        split <;> exact ⟨_, rfl⟩
      obtain ⟨hturns, k', hk', hadvance⟩ := deliver_advances hk ht
      exact ⟨t, k', ht, hk', hnearer t hturns k' hadvance⟩
  | removing requestId outputs =>
    obtain ⟨t, ht⟩ : ∃ t, s.remove = some t := by
      simp only [AsyncLLMEngine.remove, hloop]
      exact ⟨_, rfl⟩
    obtain ⟨hturns, k', hk', hadvance⟩ := remove_advances hk ht
    exact ⟨t, k', ht, hk', hnearer t hturns k' hadvance⟩

/-- A consumer that lacks an output of its stream has a step that brings it nearer. -/
theorem Routed.brought (h : s.Routed delivered) (hk : s.consumers c = some k) (halive : k.Alive)
    (hn : n ≤ (streamOf s.returned k.requestId).length) (hmissing : ¬n ≤ k.received.length) :
    ∃ s' k', s.step (s.nextFor c k n) = some s' ∧ s'.consumers c = some k' ∧
      s'.distance k' n < s.distance k n := by
  unfold nextFor
  split_ifs with hqueued
  · exact h.pulls_next hk halive hn hmissing hqueued
  · exact h.loop_next hk halive hn hmissing hqueued

omit [PriorityQueue Q RequestRef] in
/-- While the distance stays, the same step brings the consumer nearer. -/
theorem Advances.nextFor_eq (h : Advances s s' k k')
    (hidle : s.loop = .delivering [] → n ≤ k.received.length + k.queue.length)
    (hmissing : ¬n ≤ k.received.length) (hsame : s'.distance k' n = s.distance k n) :
    s'.nextFor c k' n = s.nextFor c k n := by
  have htotal := h.total_le
  have hpulls := h.pulls_le n (Nat.lt_of_not_le hmissing)
  have hmissing' : ¬n ≤ k'.received.length := by
    intro hn
    rw [distance_eq_zero.mpr hn] at hsame
    exact hmissing (distance_eq_zero.mp hsame.symm)
  simp only [distance, if_neg hmissing, if_neg hmissing'] at hsame
  by_cases hqueued : n ≤ k.received.length + k.queue.length
  · have hqueued' := hqueued.trans htotal
    simp only [if_pos hqueued, if_pos hqueued', Consumer.pulls, Nat.add_zero] at hsame
    simp only [nextFor, if_pos hqueued, if_pos hqueued']
    apply GeneratorState.next_eq
    have hpause := k.state.pause_le
    have hpause' := k'.state.pause_le
    omega
  · have hturns := h.turns_le.resolve_right fun hloop => hqueued (hidle hloop)
    have hpos : 0 < s.loop.turns :=
      Nat.pos_of_ne_zero fun hzero => hqueued (hidle (LoopPhase.turns_eq_zero.mp hzero))
    rw [if_neg hqueued] at hsame
    split_ifs at hsame with hqueued'
    · omega
    · simp only [nextFor, if_neg hqueued, if_neg hqueued']
      exact LoopPhase.next_eq (by omega)

end Routed

/-- What a consumer that was neither cancelled nor closed has of the stream of its request: what it
received, what is queued for it and what the loop has still to put are together the stream. -/
structure Streams (s : AsyncLLMEngine cfg Q) (c : ConsumerId) (k : Consumer) : Prop where
  own : ∀ o ∈ k.received, o.requestId = k.requestId
  unshared : ∀ d x, s.consumers d = some x → x.requestId = k.requestId → d = c
  accounted : ∃ undelivered, undelivered <+: ofRequest s.loop.outputs k.requestId ∧
    k.received ++ k.queue ++ undelivered = streamOf s.returned k.requestId
  complete : (∃ o ∈ k.received, o.isFinal = true) → k.received = streamOf s.returned k.requestId
  finished : k.state = .finished → ∃ o ∈ k.received, o.isFinal = true

theorem Routed.streams {delivered : List GenerationOutput} (h : s.Routed delivered)
    (hk : s.consumers c = some k) (halive : k.Alive) : s.Streams c k := by
  have hf := h.follows c k hk halive
  constructor
  · intro o ho
    have hmem : o ∈ streamOf delivered k.requestId :=
      hf.stream_eq ▸ List.mem_append_left _ ho
    have hown := List.mem_filter.mp ((prefix_upTo _ _).subset hmem)
    simpa using hown.2
  · exact fun d x hx hid => h.distinct d x c k hx hk hid
  · exact h.accounted hf
  · exact h.complete hf
  · intro hstate
    have hconsistent := hf.consistent
    rwa [Consumer.Consistent, hstate] at hconsistent

/-- However the run goes on, the consumer receives the stream as it stands, as long as it is not
abandoned and neither its own steps nor those of the loop are put off forever. -/
def ReceivesAll (s : AsyncLLMEngine cfg Q) (c : ConsumerId) (k : Consumer) : Prop :=
  ∀ run : ℕ → AsyncLLMEngine cfg Q, run 0 = s → IsRun AsyncLLMEngine.step run →
    (∀ a, Brings c a → WeaklyFair AsyncLLMEngine.step run a) →
    (∀ t x, (run t).consumers c = some x → x.Alive) →
    ∃ t x, (run t).consumers c = some x ∧ streamOf s.returned k.requestId <+: x.received

def distanceOf (s : AsyncLLMEngine cfg Q) (c : ConsumerId) (n : ℕ) : ℕ :=
  (s.consumers c).elim 0 fun k => s.distance k n

def nextOf (s : AsyncLLMEngine cfg Q) (c : ConsumerId) (n : ℕ) : AsyncAction :=
  (s.consumers c).elim .deliver fun k => s.nextFor c k n

omit [PriorityQueue Q RequestRef] in
theorem distanceOf_eq (hk : s.consumers c = some k) : s.distanceOf c n = s.distance k n := by
  rw [distanceOf, hk, Option.elim_some]

omit [PriorityQueue Q RequestRef] in
theorem nextOf_eq (hk : s.consumers c = some k) : s.nextOf c n = s.nextFor c k n := by
  rw [nextOf, hk, Option.elim_some]

omit [PriorityQueue Q RequestRef] in
theorem nextOf_brings (s : AsyncLLMEngine cfg Q) (c : ConsumerId) (n : ℕ) :
    Brings c (s.nextOf c n) := by
  unfold nextOf
  cases s.consumers c with
  | none => trivial
  | some k => exact s.nextFor_brings c k n

def Owed (c : ConsumerId) (requestId : ℕ) (stream : List GenerationOutput)
    (s : AsyncLLMEngine cfg Q) : Prop :=
  (∃ delivered, s.Routed delivered) ∧
    ∃ k, s.consumers c = some k ∧ k.requestId = requestId ∧
      stream <+: streamOf s.returned requestId

theorem Owed.step {requestId : ℕ} {stream : List GenerationOutput} {a : AsyncAction}
    (h : Owed c requestId stream s) (hs : s.step a = some s') : Owed c requestId stream s' := by
  obtain ⟨⟨delivered, hrouted⟩, k, hk, hid, hpre⟩ := h
  obtain ⟨k', hk', hadvance⟩ := step_advances hk hs
  exact ⟨hrouted.step hs, k', hk', hadvance.requestId_eq.trans hid,
    hpre.trans (streamOf_mono hadvance.returned_le requestId)⟩

theorem Routed.receivesAll {delivered : List GenerationOutput} (h : s.Routed delivered)
    (hk : s.consumers c = some k) : s.ReceivesAll c k := by
  intro run hzero hrun hfair halive
  obtain ⟨stream, hstream⟩ : ∃ stream, stream = streamOf s.returned k.requestId := ⟨_, rfl⟩
  have howed : ∀ t, Owed c k.requestId stream (run t) := by
    apply hrun.invariant fun _ _ _ => Owed.step
    rw [hzero]
    exact ⟨⟨delivered, h⟩, k, hk, rfl, hstream ▸ List.prefix_rfl⟩
  have hdone : ∃ t ≥ 0, (run t).distanceOf c stream.length = 0 := by
    apply eventually_rank_zero (fun t => t.distanceOf c stream.length)
      (fun t => t.nextOf c stream.length) (fun t => hfair _ (t.nextOf_brings c stream.length))
    · intro t
      obtain ⟨⟨delivered, hrouted⟩, x, hx, hid, hpre⟩ := howed t
      rcases hrun t with hsame | ⟨a, ha⟩
      · rw [hsame]
      · obtain ⟨x', hx', hadvance⟩ := step_advances hx ha
        rw [distanceOf_eq hx, distanceOf_eq hx']
        apply hadvance.distance_le
        exact hrouted.idle (hrouted.follows c x hx (halive t x hx)) (hid ▸ hpre.length_le)
    · intro t hne
      obtain ⟨⟨delivered, hrouted⟩, x, hx, hid, hpre⟩ := howed t
      rw [distanceOf_eq hx] at hne ⊢
      rw [nextOf_eq hx]
      obtain ⟨s', x', hs', hx', hlt⟩ := hrouted.brought hx (halive t x hx)
        (hid ▸ hpre.length_le) fun hn => hne (distance_eq_zero.mpr hn)
      exact ⟨s', hs', (distanceOf_eq hx').trans_lt hlt⟩
    · intro t hne hsame
      obtain ⟨⟨delivered, hrouted⟩, x, hx, hid, hpre⟩ := howed t
      rcases hrun t with heq | ⟨a, ha⟩
      · rw [heq]
      · obtain ⟨x', hx', hadvance⟩ := step_advances hx ha
        rw [distanceOf_eq hx] at hne hsame
        rw [distanceOf_eq hx'] at hsame
        rw [nextOf_eq hx, nextOf_eq hx']
        apply hadvance.nextFor_eq _ (fun hn => hne (distance_eq_zero.mpr hn)) hsame
        exact hrouted.idle (hrouted.follows c x hx (halive t x hx)) (hid ▸ hpre.length_le)
  obtain ⟨t, -, hdistance⟩ := hdone
  obtain ⟨⟨delivered, hrouted⟩, x, hx, hid, hpre⟩ := howed t
  rw [distanceOf_eq hx, distance_eq_zero] at hdistance
  refine ⟨t, x, hx, hstream ▸ ?_⟩
  obtain ⟨undelivered, -, haccounted⟩ := (hrouted.streams hx (halive t x hx)).accounted
  rw [hid, List.append_assoc] at haccounted
  exact List.prefix_of_prefix_length_le hpre ⟨_, haccounted⟩ hdistance

/-- In every state that any interleaving reaches, every consumer that is neither cancelled nor
closed has received only outputs of its own request, in the order in which `step` returned them and
up to the first final one, and in every continuation it receives what it still lacks. -/
theorem streams_complete_unmixed (maxNumSeqs maxNumBatchedTokens vocabSize : ℕ) (eosTokenId : ℤ)
    (actions : List AsyncAction) (s : AsyncLLMEngine cfg Q)
    (hrun : exec AsyncLLMEngine.step
      (init cfg maxNumSeqs maxNumBatchedTokens vocabSize eosTokenId) actions = some s)
    (c : ConsumerId) (k : Consumer) (hk : s.consumers c = some k) (halive : k.Alive) :
    s.Streams c k ∧ s.ReceivesAll c k := by
  obtain ⟨delivered, h⟩ := run_routed hrun
  exact ⟨h.streams hk halive, h.receivesAll hk⟩

/-- Two requests of two tokens and of one. The second consumer reads its only output while the loop
still has the first one's first output in hand, and the first then reads its stream to the end. -/
def twoStreams : List AsyncAction :=
  [.generate 0 [7] (some { maxTokens := 2 }) 0, .generate 1 [8, 9] (some { maxTokens := 1 }) 1,
    .loopStep, .deliver, .get 0, .deliver, .get 1, .remove, .resume 1, .loopStep, .deliver,
    .resume 0, .remove, .get 0, .resume 0]

theorem streams_complete_unmixed_two : ∃ s : AsyncLLMEngine
    { totalGpuBlocks := 4, blockSize := 4 } (List RequestRef),
    exec AsyncLLMEngine.step (init _ 8 64 100 99) twoStreams = some s ∧
      ∃ k, s.consumers 0 = some k ∧ k.received.length = 2 ∧ s.Streams 0 k ∧ s.ReceivesAll 0 k :=
  ⟨_, rfl, _, rfl, rfl, streams_complete_unmixed 8 64 100 99 twoStreams _ rfl 0 _ rfl
    ⟨nofun, nofun⟩⟩

end AsyncLLMEngine
end CudaForge.Engine
