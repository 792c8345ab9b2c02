import CudaForge.Engine.AsyncEngine
import CudaForge.Engine.IssuedIds

/-! Every consumer of the asynchronous engine receives the stream of its own request. -/
namespace CudaForge.Engine
open FiniteMap PriorityQueue Scheduler Memory MarkedStream Transition

def ofRequest (outputs : List GenerationOutput) (requestId : ℕ) : List GenerationOutput :=
  outputs.filter fun o => o.requestId = requestId

/-- The stream of a request: its outputs up to and including the first final one. -/
def streamOf (outputs : List GenerationOutput) (requestId : ℕ) : List GenerationOutput :=
  upTo (fun o => o.isFinal) (ofRequest outputs requestId)

def Ended (outputs : List GenerationOutput) (requestId : ℕ) : Prop :=
  ∃ o ∈ ofRequest outputs requestId, o.isFinal = true

section Outputs
variable {outputs : List GenerationOutput} {requestId : ℕ} {out : GenerationOutput}

theorem ofRequest_append (outputs outputs' : List GenerationOutput) (requestId : ℕ) :
    ofRequest (outputs ++ outputs') requestId =
      ofRequest outputs requestId ++ ofRequest outputs' requestId := List.filter_append _ _

theorem ofRequest_concat_of_ne (h : out.requestId ≠ requestId) :
    ofRequest (outputs ++ [out]) requestId = ofRequest outputs requestId := by
  rw [ofRequest_append]
  simp [ofRequest, h]

theorem ofRequest_concat_of_eq (h : out.requestId = requestId) :
    ofRequest (outputs ++ [out]) requestId = ofRequest outputs requestId ++ [out] := by
  rw [ofRequest_append]
  simp [ofRequest, h]

theorem ofRequest_eq_nil (h : ∀ o ∈ outputs, o.requestId ≠ requestId) :
    ofRequest outputs requestId = [] := by
  apply List.filter_eq_nil_iff.mpr
  intro o ho
  simpa using h o ho

theorem unmarked_of_not_ended (h : ¬Ended outputs requestId) :
    ∀ o ∈ ofRequest outputs requestId, o.isFinal = false :=
  fun o ho => Bool.eq_false_iff.mpr fun hf => h ⟨o, ho, hf⟩

theorem ended_concat (h : out.requestId = requestId) :
    Ended (outputs ++ [out]) requestId ↔ Ended outputs requestId ∨ out.isFinal = true := by
  simp only [Ended, ofRequest_concat_of_eq h, List.mem_append, List.mem_singleton, or_and_right,
    exists_or, exists_eq_left]

theorem streamOf_concat_of_ended (h : out.requestId = requestId) (he : Ended outputs requestId) :
    streamOf (outputs ++ [out]) requestId = streamOf outputs requestId := by
  obtain ⟨o, ho, hf⟩ := he
  rw [streamOf, ofRequest_concat_of_eq h, upTo_append_of_marked ho hf, streamOf]

theorem streamOf_concat_of_open (h : out.requestId = requestId)
    (he : ¬Ended outputs requestId) :
    streamOf (outputs ++ [out]) requestId = streamOf outputs requestId ++ [out] := by
  have hopen := unmarked_of_not_ended he
  have hlast : upTo (fun o : GenerationOutput => o.isFinal) [out] = [out] := by
    simp only [upTo, ite_self]
  rw [streamOf, ofRequest_concat_of_eq h, upTo_append_of_unmarked hopen, hlast, streamOf,
    upTo_of_unmarked hopen]

/-- More outputs only add to the stream. -/
theorem streamOf_mono {outputs' : List GenerationOutput} (h : outputs <+: outputs')
    (requestId : ℕ) : streamOf outputs requestId <+: streamOf outputs' requestId := by
  obtain ⟨new, rfl⟩ := h
  obtain ⟨added, -, heq⟩ := exists_upTo_append (fun o : GenerationOutput => o.isFinal)
    (ofRequest outputs requestId) (ofRequest new requestId)
  rw [streamOf, streamOf, ofRequest_append, heq]
  exact List.prefix_append _ _

end Outputs

namespace Consumer

def Alive (k : Consumer) : Prop := k.state ≠ .cancelled ∧ k.state ≠ .closed

/-- Only the last output that the generator yielded can be final, and it ends after that. -/
def Consistent (k : Consumer) : Prop :=
  match k.state with
  | .waiting => ∀ o ∈ k.received, o.isFinal = false
  | .yielded output =>
    ∃ earlier, k.received = earlier ++ [output] ∧ ∀ o ∈ earlier, o.isFinal = false
  | .finished => ∃ o ∈ k.received, o.isFinal = true
  | .cancelled | .closed => True

end Consumer

namespace AsyncLLMEngine
variable {cfg : KVCacheConfig} {Q : Type}

/-- What a consumer that is not abandoned holds, when the loop has looked at `delivered`. -/
structure Follows (s : AsyncLLMEngine cfg Q) (delivered : List GenerationOutput) (c : ConsumerId)
    (k : Consumer) : Prop where
  stream_eq : k.received ++ k.queue = streamOf delivered k.requestId
  registered_iff : s.requestQueues.lookup k.requestId = some c ↔
    s.loop.removed = some k.requestId ∨ ¬Ended delivered k.requestId
  consistent : k.Consistent

variable {s s' : AsyncLLMEngine cfg Q} {delivered delivered' : List GenerationOutput}
  {c : ConsumerId} {k : Consumer}

theorem Follows.congr (h : Follows s delivered c k)
    (hdelivered : ofRequest delivered' k.requestId = ofRequest delivered k.requestId)
    (hregistered : s'.requestQueues.lookup k.requestId = some c ↔
      s.requestQueues.lookup k.requestId = some c)
    (hremoved : s'.loop.removed = some k.requestId ↔ s.loop.removed = some k.requestId) :
    Follows s' delivered' c k where
  stream_eq := by
    rw [streamOf, hdelivered]
    exact h.stream_eq
  registered_iff := by
    rw [hregistered, hremoved, Ended, hdelivered]
    exact h.registered_iff
  consistent := h.consistent

theorem setConsumer_cases {k' : Consumer} {d : ConsumerId} {x : Consumer}
    (hx : (s.setConsumer c k').consumers d = some x) :
    (d = c ∧ x = k') ∨ (d ≠ c ∧ s.consumers d = some x) := by
  simp only [setConsumer, Function.update_apply] at hx
  split_ifs at hx with hd
  · exact Or.inl ⟨hd, (Option.some.inj hx).symm⟩
  · exact Or.inr ⟨hd, hx⟩

def SameRequests (s s' : AsyncLLMEngine cfg Q) : Prop :=
  ∀ d, (s'.consumers d).map (fun k => k.requestId) = (s.consumers d).map fun k => k.requestId

theorem setConsumer_sameRequests {k' : Consumer} (hk : s.consumers c = some k)
    (hid : k'.requestId = k.requestId) : SameRequests s (s.setConsumer c k') := by
  intro d
  simp only [setConsumer, Function.update_apply]
  split_ifs with hd
  · rw [hd, hk, Option.map_some, Option.map_some, hid]
  · rfl

theorem SameRequests.symm (h : SameRequests s s') : SameRequests s' s := fun d => (h d).symm

theorem SameRequests.consumer (h : SameRequests s s') {d : ConsumerId} {x : Consumer}
    (hx : s'.consumers d = some x) : ∃ y, s.consumers d = some y ∧ y.requestId = x.requestId := by
  have heq := h d
  rw [hx, Option.map_some] at heq
  exact Option.map_eq_some_iff.mp heq.symm

theorem SameRequests.consumer_le (h : SameRequests s s') {counter : ℕ}
    (hle : ∀ c k, s.consumers c = some k → k.requestId ≤ counter) (d : ConsumerId) (x : Consumer)
    (hx : s'.consumers d = some x) : x.requestId ≤ counter := by
  obtain ⟨y, hy, heq⟩ := h.consumer hx
  exact heq ▸ hle d y hy

theorem SameRequests.distinct (h : SameRequests s s')
    (hdistinct : ∀ c k c' k', s.consumers c = some k → s.consumers c' = some k' →
      k.requestId = k'.requestId → c = c') (d : ConsumerId) (x : Consumer) (d' : ConsumerId)
    (x' : Consumer) (hx : s'.consumers d = some x) (hx' : s'.consumers d' = some x')
    (heq : x.requestId = x'.requestId) : d = d' := by
  obtain ⟨y, hy, hyx⟩ := h.consumer hx
  obtain ⟨y', hy', hyx'⟩ := h.consumer hx'
  exact hdistinct d y d' y' hy hy' (hyx.trans (heq.trans hyx'.symm))

theorem SameRequests.registered (h : SameRequests s s') {requestQueues : FiniteMap ℕ ConsumerId}
    (hregistered : ∀ id c, requestQueues.lookup id = some c →
      ∃ k, s.consumers c = some k ∧ k.requestId = id) (id : ℕ) (d : ConsumerId)
    (hd : requestQueues.lookup id = some d) : ∃ x, s'.consumers d = some x ∧ x.requestId = id := by
  obtain ⟨y, hy, hid⟩ := hregistered id d hd
  obtain ⟨x, hx, hxy⟩ := h.symm.consumer hy
  exact ⟨x, hx, hxy.trans hid⟩

variable [PriorityQueue Q RequestRef]

/-- Where every output that `step` returned has gone: the loop has looked at those in `delivered`,
and has the others before it. -/
structure Routed (s : AsyncLLMEngine cfg Q) (delivered : List GenerationOutput) : Prop where
  issued : s.engine.Issued
  returned_eq : s.returned = delivered ++ s.loop.outputs
  returned_le : ∀ o ∈ s.returned, o.requestId ≤ s.engine.requestCounter
  consumer_le : ∀ c k, s.consumers c = some k → k.requestId ≤ s.engine.requestCounter
  distinct : ∀ c k c' k', s.consumers c = some k → s.consumers c' = some k' →
    k.requestId = k'.requestId → c = c'
  registered : ∀ id c, s.requestQueues.lookup id = some c →
    ∃ k, s.consumers c = some k ∧ k.requestId = id
  removed_ended : ∀ id, s.loop.removed = some id → Ended delivered id
  follows : ∀ c k, s.consumers c = some k → k.Alive → Follows s delivered c k

theorem init_routed (maxNumSeqs maxNumBatchedTokens vocabSize : ℕ) (eosTokenId : ℤ) :
    (init cfg maxNumSeqs maxNumBatchedTokens vocabSize eosTokenId : AsyncLLMEngine cfg Q).Routed
      [] where
  issued := PagedEngine.init_issued _ _ _ _
  returned_eq := rfl
  returned_le o ho := absurd ho List.not_mem_nil
  consumer_le c k hk := nomatch hk
  distinct c k c' k' hk := nomatch hk
  registered id c hc := by simp [init] at hc
  removed_ended id hid := nomatch hid
  follows c k hk := nomatch hk

/-- The generator of one consumer goes on. -/
theorem Routed.setConsumer (h : s.Routed delivered) {k' : Consumer} (hk : s.consumers c = some k)
    (hid : k'.requestId = k.requestId)
    (hflow : k'.Alive → k.Alive ∧ k'.received ++ k'.queue = k.received ++ k.queue ∧
      k'.Consistent) : (s.setConsumer c k').Routed delivered := by
  have hsame := setConsumer_sameRequests hk hid
  constructor
  · exact h.issued
  · exact h.returned_eq
  · exact h.returned_le
  · exact hsame.consumer_le h.consumer_le
  · exact hsame.distinct h.distinct
  · exact hsame.registered h.registered
  · exact h.removed_ended
  · intro d x hx halive
    rcases setConsumer_cases hx with ⟨rfl, rfl⟩ | ⟨-, hold⟩
    · obtain ⟨hbefore, hoverall, hconsistent⟩ := hflow halive
      have hf := h.follows d k hk hbefore
      constructor
      · rw [hoverall, hid]
        exact hf.stream_eq
      · rw [hid]
        exact hf.registered_iff
      · exact hconsistent
    · exact (h.follows d x hold halive).congr rfl Iff.rfl Iff.rfl

/-- The engine goes on, and its counter with it. -/
theorem Routed.setEngine (h : s.Routed delivered) {engine : PagedEngine cfg Q}
    (hissued : engine.Issued) (hle : s.engine.requestCounter ≤ engine.requestCounter) :
    Routed { s with engine := engine } delivered :=
  { h with
    issued := hissued
    returned_le := fun o ho => (h.returned_le o ho).trans hle
    consumer_le := fun d x hx => (h.consumer_le d x hx).trans hle
    follows := fun d x hx halive => (h.follows d x hx halive).congr rfl Iff.rfl Iff.rfl }

/-- The queue of a request is removed that no consumer waits for. -/
theorem Routed.eraseQueue (h : s.Routed delivered) (requestId : ℕ)
    (hid : ∀ d x, s.consumers d = some x → x.Alive → x.requestId ≠ requestId) :
    Routed { s with requestQueues := s.requestQueues.erase requestId } delivered :=
  { h with
    registered := fun id d hd => by
      simp only [lookup_erase_ite] at hd
      split_ifs at hd
      exact h.registered id d hd
    follows := fun d x hx halive => by
      apply (h.follows d x hx halive).congr rfl
      · simp only [lookup_erase_ite, if_neg (hid d x hx halive)]
      · exact Iff.rfl }

/-- A new consumer with an id that no output has had. -/
theorem Routed.register (h : s.Routed delivered) {reqId : ℕ} (hc : s.consumers c = none)
    (hle : reqId ≤ s.engine.requestCounter) (houtputs : ∀ o ∈ s.returned, o.requestId ≠ reqId)
    (hids : ∀ d x, s.consumers d = some x → x.requestId ≠ reqId) :
    Routed { s.setConsumer c ⟨reqId, [], [], .waiting⟩ with
      requestQueues := s.requestQueues.insert reqId c } delivered := by
  have hnone : ofRequest delivered reqId = [] := by
    apply ofRequest_eq_nil
    intro o ho
    apply houtputs
    rw [h.returned_eq]
    exact List.mem_append_left _ ho
  constructor
  · exact h.issued
  · exact h.returned_eq
  · exact h.returned_le
  · intro d x hx
    rcases setConsumer_cases hx with ⟨-, rfl⟩ | ⟨-, hx⟩
    · exact hle
    · exact h.consumer_le d x hx
  · intro d x d' x' hx hx' heq
    rcases setConsumer_cases hx with ⟨rfl, rfl⟩ | ⟨-, hold⟩
    · rcases setConsumer_cases hx' with ⟨rfl, -⟩ | ⟨-, hold'⟩
      · rfl
      · exact absurd heq.symm (hids d' x' hold')
    · rcases setConsumer_cases hx' with ⟨rfl, rfl⟩ | ⟨-, hold'⟩
      · exact absurd heq (hids d x hold)
      · exact h.distinct d x d' x' hold hold' heq
  · intro id d hd
    simp only [lookup_insert_ite] at hd
    split_ifs at hd with hid
    · obtain rfl := Option.some.inj hd
      exact ⟨_, Function.update_self _ _ _, hid.symm⟩
    · obtain ⟨y, hy, hyid⟩ := h.registered id d hd
      have hdc : d ≠ c := by
        rintro rfl
        exact nomatch hc.symm.trans hy
      exact ⟨y, (Function.update_of_ne hdc _ _).trans hy, hyid⟩
  · exact h.removed_ended
  · intro d x hx halive
    rcases setConsumer_cases hx with ⟨rfl, rfl⟩ | ⟨hd, hx⟩
    · constructor
      · simp [streamOf, hnone]
      · simp [Ended, hnone]
      · exact fun o ho => absurd ho List.not_mem_nil
    · apply (h.follows d x hx halive).congr rfl
      · simp only [lookup_insert_ite, if_neg (hids d x hx)]
      · exact Iff.rfl

theorem Routed.generate (h : s.Routed delivered) {promptTokens : List ℤ}
    {samplingParams : Option SamplingParams} {now : ℕ}
    (hs : s.generate c promptTokens samplingParams now = some s') : s'.Routed delivered := by
  obtain ⟨hcounter, hnext⟩ := s.engine.addRequest_counter promptTokens (samplingParams.getD {}) now
  have hadded : Routed { s.start with
      engine := (s.engine.addRequest promptTokens (samplingParams.getD {}) now).2 } delivered := by
    have hstart : s.start.Routed delivered :=
      { h with follows := fun d x hx halive =>
          (h.follows d x hx halive).congr rfl Iff.rfl Iff.rfl }
    exact hstart.setEngine (h.issued.addRequest _ _ _) (hcounter ▸ Nat.le_succ _)
  unfold AsyncLLMEngine.generate at hs
  split at hs
  · contradiction
  · rename_i hc
    dsimp only at hs
    split at hs
    · exact Option.some.inj hs ▸ hadded
    · rename_i reqId hreqId
      have hid : reqId = s.engine.requestCounter + 1 := hnext reqId hreqId
      rw [← Option.some.inj hs]
      apply hadded.register hc
      · rw [hid, hcounter]
      · intro o ho
        have hle := h.returned_le o ho
        omega
      · intro d x hx
        have hle := h.consumer_le d x hx
        omega

theorem Routed.get (h : s.Routed delivered) (hs : s.get c = some s') : s'.Routed delivered := by
  unfold AsyncLLMEngine.get at hs
  split at hs
  · rename_i requestId output queue received hk
    rw [← Option.some.inj hs]
    refine h.setConsumer hk rfl fun _ => ⟨⟨nofun, nofun⟩, by simp, ?_⟩
    exact ⟨received, rfl, (h.follows c _ hk ⟨nofun, nofun⟩).consistent⟩
  · contradiction

theorem Routed.resume (h : s.Routed delivered) (hs : s.resume c = some s') :
    s'.Routed delivered := by
  unfold AsyncLLMEngine.resume at hs
  split at hs
  · rename_i requestId queue received output hk
    rw [← Option.some.inj hs]
    refine h.setConsumer hk rfl fun _ => ⟨⟨nofun, nofun⟩, rfl, ?_⟩
    obtain ⟨earlier, hreceived, hopen⟩ := (h.follows c _ hk ⟨nofun, nofun⟩).consistent
    have heq : received = earlier ++ [output] := hreceived
    by_cases hf : output.isFinal = true
    · simp only [Consumer.Consistent, hf, if_true]
      exact ⟨output, heq ▸ List.mem_append_right _ List.mem_cons_self, hf⟩
    · simp only [Consumer.Consistent, hf]
      intro o ho
      rw [heq] at ho
      rcases List.mem_append.mp ho with ho | ho
      · exact hopen o ho
      · rw [List.mem_singleton.mp ho]
        exact Bool.eq_false_iff.mpr hf
  · contradiction

omit [PriorityQueue Q RequestRef] in
theorem suspended_eq (h : s.suspended c = some k) : s.consumers c = some k :=
  (Option.filter_eq_some_iff.mp h).1

theorem Routed.close (h : s.Routed delivered) (hs : s.close c = some s') :
    s'.Routed delivered := by
  obtain ⟨k, hk, rfl⟩ := Option.map_eq_some_iff.mp hs
  exact h.setConsumer (suspended_eq hk) rfl fun halive => absurd rfl halive.2

theorem Routed.cancel (h : s.Routed delivered) (hs : s.cancel c = some s') :
    s'.Routed delivered := by
  obtain ⟨k, hk, hs⟩ := Option.map_eq_some_iff.mp hs
  have hset : (s.setConsumer c { k with state := .cancelled }).Routed delivered :=
    h.setConsumer (suspended_eq hk) rfl fun halive => absurd rfl halive.1
  have hwaits : ∀ d x, (s.setConsumer c { k with state := .cancelled }).consumers d = some x →
      x.Alive → x.requestId ≠ k.requestId := by
    intro d x hx halive heq
    have hdc : d = c := hset.distinct d x c _ hx (Function.update_self _ _ _) heq
    subst hdc
    obtain rfl := Option.some.inj (hx.symm.trans (Function.update_self _ _ _))
    exact halive.1 rfl
  have hengine := (hset.eraseQueue k.requestId hwaits).setEngine
    (h.issued.cancelRequest k.requestId) (PagedEngine.cancelRequest_counter s.engine k.requestId).ge
  rw [← hs]
  exact hengine

theorem Routed.loopStep (h : s.Routed delivered) (hs : s.loopStep = some s') :
    s'.Routed delivered := by
  unfold AsyncLLMEngine.loopStep at hs
  split at hs
  · rename_i hloop
    dsimp only at hs
    split_ifs at hs
    have hengine : Routed { s with engine := s.engine.step.2 } delivered :=
      h.setEngine h.issued.step s.engine.step_counter.ge
    split at hs
    · exact Option.some.inj hs ▸ hengine
    · rename_i outputs hstep
      rw [← Option.some.inj hs]
      have hdelivered : s.returned = delivered := by
        rw [h.returned_eq, hloop, LoopPhase.outputs, List.append_nil]
      refine { hengine with
        returned_eq := by rw [hdelivered]; rfl
        returned_le := fun o ho => ?_
        removed_ended := nofun
        follows := fun d x hx halive => ?_ }
      · rw [s.engine.step_counter]
        rcases List.mem_append.mp ho with ho | ho
        · exact h.returned_le o ho
        · exact h.issued.results_le hstep o ho
      · refine (h.follows d x hx halive).congr rfl Iff.rfl ?_
        rw [hloop]
        rfl
  · contradiction

theorem Routed.remove (h : s.Routed delivered) (hs : s.remove = some s') :
    s'.Routed delivered := by
  unfold AsyncLLMEngine.remove at hs
  split at hs
  · rename_i requestId outputs hloop
    rw [← Option.some.inj hs]
    have hremoved : ∀ id, s.loop.removed = some id ↔ requestId = id := by
      intro id
      rw [hloop, LoopPhase.removed, Option.some.injEq]
    refine { h with
      returned_eq := by rw [h.returned_eq, hloop]; rfl
      registered := fun id d hd => ?_
      removed_ended := nofun
      follows := fun d x hx halive => ?_ }
    · simp only [lookup_erase_ite] at hd
      split_ifs at hd
      exact h.registered id d hd
    · have hf := h.follows d x hx halive
      refine ⟨hf.stream_eq, ?_, hf.consistent⟩
      simp only [lookup_erase_ite, LoopPhase.removed, reduceCtorEq, false_or]
      split_ifs with hid
      · have hended := h.removed_ended x.requestId ((hremoved _).mpr hid.symm)
        simp [hended]
      · have hne : ¬s.loop.removed = some x.requestId := fun hr => hid ((hremoved _).mp hr).symm
        rw [hf.registered_iff, or_iff_right hne]
  · contradiction

omit [PriorityQueue Q RequestRef] in
/-- The loop looks at an output that belongs to another request. -/
theorem Follows.skip (h : Follows s delivered c k) {out : GenerationOutput}
    (hout : out.requestId ≠ k.requestId) (hqueues : s'.requestQueues = s.requestQueues)
    (hremoved : s'.loop.removed = some k.requestId ↔ s.loop.removed = some k.requestId) :
    Follows s' (delivered ++ [out]) c k :=
  h.congr (ofRequest_concat_of_ne hout) (by rw [hqueues]) hremoved

/-- An output without a queue belongs to no consumer, or to one whose stream has ended. -/
theorem Routed.deliver_none (h : s.Routed delivered) {out : GenerationOutput}
    {outputs : List GenerationOutput} (hloop : s.loop = .delivering (out :: outputs))
    (hqueue : s.requestQueues.lookup out.requestId = none) :
    Routed { s with loop := .delivering outputs } (delivered ++ [out]) := by
  have hremoved : ∀ id, s.loop.removed ≠ some id := by
    intro id
    rw [hloop]
    exact nofun
  refine { h with
    returned_eq := by rw [h.returned_eq, hloop]; simp [LoopPhase.outputs]
    removed_ended := nofun
    follows := fun d x hx halive => ?_ }
  have hf := h.follows d x hx halive
  by_cases hid : out.requestId = x.requestId
  · have hnone : ¬s.requestQueues.lookup x.requestId = some d := by
      rw [← hid, hqueue]
      exact nofun
    have hended : Ended delivered x.requestId := by
      by_contra hopen
      exact hnone (hf.registered_iff.mpr (Or.inr hopen))
    refine ⟨?_, ?_, hf.consistent⟩
    · rw [streamOf_concat_of_ended hid hended]
      exact hf.stream_eq
    · simp [hnone, ended_concat hid, hended, LoopPhase.removed]
  · exact hf.skip hid rfl (iff_of_false nofun (hremoved _))

/-- An output goes to the queue of the one consumer of its request. -/
theorem Routed.deliver_some (h : s.Routed delivered) {out : GenerationOutput}
    {outputs : List GenerationOutput} (hloop : s.loop = .delivering (out :: outputs))
    (hqueue : s.requestQueues.lookup out.requestId = some c) {loop : LoopPhase}
    (houtputs : loop.outputs = outputs)
    (hremoved : ∀ id, loop.removed = some id ↔ out.requestId = id ∧ out.isFinal = true) :
    Routed { s.put c out with loop := loop } (delivered ++ [out]) := by
  obtain ⟨k, hk, hkid⟩ := h.registered _ c hqueue
  have hput : s.put c out = s.setConsumer c { k with queue := k.queue ++ [out] } := by
    rw [put, hk, Option.map_some, AsyncLLMEngine.setConsumer]
  have hsame : SameRequests s (s.setConsumer c { k with queue := k.queue ++ [out] }) :=
    setConsumer_sameRequests hk rfl
  rw [hput]
  have hbefore : ∀ id, s.loop.removed ≠ some id := by
    intro id
    rw [hloop]
    exact nofun
  constructor
  · exact h.issued
  · show s.returned = delivered ++ [out] ++ loop.outputs
    rw [h.returned_eq, hloop, houtputs]
    simp [LoopPhase.outputs]
  · exact h.returned_le
  · exact hsame.consumer_le h.consumer_le
  · exact hsame.distinct h.distinct
  · exact hsame.registered h.registered
  · intro id hid
    obtain ⟨hout, hfinal⟩ := (hremoved id).mp hid
    exact (ended_concat hout).mpr (Or.inr hfinal)
  · intro d x hx halive
    rcases setConsumer_cases hx with ⟨rfl, rfl⟩ | ⟨hd, hold⟩
    · have hf := h.follows d k hk halive
      have hregistered : s.requestQueues.lookup k.requestId = some d := hkid ▸ hqueue
      have hopen : ¬Ended delivered k.requestId :=
        (hf.registered_iff.mp hregistered).resolve_left (hbefore _)
      constructor
      · rw [streamOf_concat_of_open hkid.symm hopen, ← hf.stream_eq, List.append_assoc]
      · show s.requestQueues.lookup k.requestId = some d ↔
          loop.removed = some k.requestId ∨ ¬Ended (delivered ++ [out]) k.requestId
        rw [hremoved, ended_concat hkid.symm]
        refine iff_of_true hregistered ?_
        cases hfinal : out.isFinal
        · exact Or.inr fun he => he.elim hopen nofun
        · exact Or.inl ⟨hkid.symm, rfl⟩
      · exact hf.consistent
    · have hid : out.requestId ≠ x.requestId := by
        intro heq
        exact hd (h.distinct d x c k hold hk (heq.symm.trans hkid.symm))
      refine (h.follows d x hold halive).skip hid rfl ?_
      simp [hremoved, hbefore, hid]

theorem Routed.deliver (h : s.Routed delivered) (hs : s.deliver = some s') :
    ∃ out, s'.Routed (delivered ++ [out]) := by
  unfold AsyncLLMEngine.deliver at hs
  split at hs
  · rename_i out outputs hloop
    refine ⟨out, ?_⟩
    split at hs
    · rename_i hqueue
      exact Option.some.inj hs ▸ h.deliver_none hloop hqueue
    · rename_i c hqueue
      rw [← Option.some.inj hs]
      apply h.deliver_some hloop hqueue
      · split_ifs <;> rfl
      · intro id
        split_ifs with hf <;> simp [LoopPhase.removed, hf]
  · contradiction

theorem Routed.step (h : s.Routed delivered) {a : AsyncAction} (hs : s.step a = some s') :
    ∃ delivered', s'.Routed delivered' := by
  cases a with
  | start =>
    refine ⟨delivered, Option.some.inj hs ▸ ?_⟩
    exact { h with follows := fun d x hx halive =>
      (h.follows d x hx halive).congr rfl Iff.rfl Iff.rfl }
  | generate c promptTokens samplingParams now => exact ⟨delivered, h.generate hs⟩
  | get c => exact ⟨delivered, h.get hs⟩
  | resume c => exact ⟨delivered, h.resume hs⟩
  | cancel c => exact ⟨delivered, h.cancel hs⟩
  | close c => exact ⟨delivered, h.close hs⟩
  | loopStep => exact ⟨delivered, h.loopStep hs⟩
  | deliver =>
    obtain ⟨out, hout⟩ := h.deliver hs
    exact ⟨_, hout⟩
  | remove => exact ⟨delivered, h.remove hs⟩

theorem run_routed {maxNumSeqs maxNumBatchedTokens vocabSize : ℕ} {eosTokenId : ℤ}
    {actions : List AsyncAction} (hrun : exec AsyncLLMEngine.step
      (init cfg maxNumSeqs maxNumBatchedTokens vocabSize eosTokenId) actions = some s) :
    ∃ delivered, s.Routed delivered := by
  refine exec_preserves (I := fun t : AsyncLLMEngine cfg Q => ∃ delivered, t.Routed delivered) ?_
    ⟨[], init_routed _ _ _ _⟩ hrun
  rintro t a t' ⟨delivered, ht⟩ hstep
  exact ht.step hstep

end AsyncLLMEngine
end CudaForge.Engine
