import CudaForge.Engine.OutOfPages
import CudaForge.Library.MarkedStream

/-!
The asynchronous engine: `generate()` consumers and the background loop, interleaved at their
awaits.
-/
namespace CudaForge.Engine
open FiniteMap PriorityQueue Scheduler Memory MarkedStream

inductive GeneratorState where
  /-- at `await queue.get()` -/
  | waiting
  /-- at `yield output` -/
  | yielded (output : GenerationOutput)
  | finished
  /-- by `asyncio.CancelledError`, which the generator handles -/
  | cancelled
  /-- by another exception, `GeneratorExit` included -/
  | closed
  deriving DecidableEq

/-- A running `generate()` with its queue and the outputs that it has yielded. -/
structure Consumer where
  requestId : ℕ
  queue : List GenerationOutput
  received : List GenerationOutput
  state : GeneratorState
  deriving DecidableEq

abbrev ConsumerId := ℕ

inductive LoopPhase where
  /-- before the outputs that are still to be put; with none of them, in one of its sleeps -/
  | delivering (outputs : List GenerationOutput)
  /-- in the `await` of a final output's `put`, with the queue still to be removed -/
  | removing (requestId : ℕ) (outputs : List GenerationOutput)
  deriving DecidableEq

def LoopPhase.outputs : LoopPhase → List GenerationOutput
  | .delivering outputs => outputs
  | .removing _ outputs => outputs

/-- The request whose final output was put last, until its queue is removed. -/
def LoopPhase.removed : LoopPhase → Option ℕ
  | .delivering _ => none
  | .removing requestId _ => some requestId

/-- The engine object, the tasks around it and all outputs that `step` has returned. The queues of
the map are named after the consumers that made them. -/
structure AsyncLLMEngine (cfg : KVCacheConfig) (Q : Type) where
  engine : PagedEngine cfg Q
  requestQueues : FiniteMap ℕ ConsumerId
  isRunning : Bool
  loop : LoopPhase
  consumers : ConsumerId → Option Consumer
  returned : List GenerationOutput

/-- What runs between two suspension points. -/
inductive AsyncAction where
  | start
  /-- `generate` from its start to its first `await queue.get()` -/
  | generate (c : ConsumerId) (promptTokens : List ℤ) (samplingParams : Option SamplingParams)
    (now : ℕ)
  /-- from `queue.get()` to the `yield` -/
  | get (c : ConsumerId)
  /-- from the `yield` to the next `queue.get()` or to the end -/
  | resume (c : ConsumerId)
  /-- `asyncio.CancelledError` at either suspension point -/
  | cancel (c : ConsumerId)
  /-- another exception at either suspension point -/
  | close (c : ConsumerId)
  /-- a turn of the loop up to the first output that `step` returned -/
  | loopStep
  /-- one turn of the `for` over the outputs -/
  | deliver
  /-- what follows the `put` of a final output -/
  | remove
  deriving DecidableEq

namespace AsyncLLMEngine
variable {cfg : KVCacheConfig} {Q : Type} [PriorityQueue Q RequestRef]

def init (cfg : KVCacheConfig) (maxNumSeqs maxNumBatchedTokens vocabSize : ℕ) (eosTokenId : ℤ) :
    AsyncLLMEngine cfg Q where
  engine := PagedEngine.init cfg maxNumSeqs maxNumBatchedTokens vocabSize eosTokenId
  requestQueues := ∅
  isRunning := false
  loop := .delivering []
  consumers _ := none
  returned := []

def setConsumer (s : AsyncLLMEngine cfg Q) (c : ConsumerId) (k : Consumer) :
    AsyncLLMEngine cfg Q :=
  { s with consumers := Function.update s.consumers c (some k) }

def start (s : AsyncLLMEngine cfg Q) : AsyncLLMEngine cfg Q := { s with isRunning := true }

/-- `start` does not suspend, so nothing runs between adding the request and making its queue known.
When `add_request` raises there is neither. -/
def generate (s : AsyncLLMEngine cfg Q) (c : ConsumerId) (promptTokens : List ℤ)
    (samplingParams : Option SamplingParams) (now : ℕ) : Option (AsyncLLMEngine cfg Q) :=
  match s.consumers c with
  | some _ => none
  | none =>
    let added := s.engine.addRequest promptTokens (samplingParams.getD {}) now
    let s := { s.start with engine := added.2 }
    match added.1 with
    | none => some s
    | some reqId =>
      some { s.setConsumer c ⟨reqId, [], [], .waiting⟩ with
        requestQueues := s.requestQueues.insert reqId c }

/-- `queue.get()` returns and its output is yielded. -/
def get (s : AsyncLLMEngine cfg Q) (c : ConsumerId) : Option (AsyncLLMEngine cfg Q) :=
  match s.consumers c with
  | some ⟨requestId, output :: queue, received, .waiting⟩ =>
    some (s.setConsumer c ⟨requestId, queue, received ++ [output], .yielded output⟩)
  | _ => none

def resume (s : AsyncLLMEngine cfg Q) (c : ConsumerId) : Option (AsyncLLMEngine cfg Q) :=
  match s.consumers c with
  | some ⟨requestId, queue, received, .yielded output⟩ =>
    let state := if output.isFinal then .finished else .waiting
    some (s.setConsumer c ⟨requestId, queue, received, state⟩)
  | _ => none

def suspended (s : AsyncLLMEngine cfg Q) (c : ConsumerId) : Option Consumer :=
  (s.consumers c).filter fun k =>
    match k.state with
    | .waiting | .yielded _ => true
    | .finished | .cancelled | .closed => false

def cancel (s : AsyncLLMEngine cfg Q) (c : ConsumerId) : Option (AsyncLLMEngine cfg Q) :=
  (s.suspended c).map fun k =>
    { s.setConsumer c { k with state := .cancelled } with
      engine := s.engine.cancelRequest k.requestId
      requestQueues := s.requestQueues.erase k.requestId }

/-- No handler runs. -/
def close (s : AsyncLLMEngine cfg Q) (c : ConsumerId) : Option (AsyncLLMEngine cfg Q) :=
  (s.suspended c).map fun k => s.setConsumer c { k with state := .closed }

/-- An exception of `step` is logged, and the loop sleeps. -/
def loopStep (s : AsyncLLMEngine cfg Q) : Option (AsyncLLMEngine cfg Q) :=
  match s.loop with
  | .delivering [] =>
    let batcher := s.engine.modelRunner.batcher
    if s.isRunning && (batcher.getRunningCount > 0 || batcher.getPendingCount > 0) then
      let stepped := s.engine.step
      match stepped.1 with
      | .error _ => some { s with engine := stepped.2 }
      | .ok outputs =>
        some { s with
          engine := stepped.2, loop := .delivering outputs, returned := s.returned ++ outputs }
    else none
  | _ => none

/-- `queue.put(out)` on the queue that the consumer made. -/
def put (s : AsyncLLMEngine cfg Q) (c : ConsumerId) (out : GenerationOutput) :
    AsyncLLMEngine cfg Q :=
  { s with
    consumers := Function.update s.consumers c
      ((s.consumers c).map fun k => { k with queue := k.queue ++ [out] }) }

def deliver (s : AsyncLLMEngine cfg Q) : Option (AsyncLLMEngine cfg Q) :=
  match s.loop with
  | .delivering (out :: outputs) =>
    match s.requestQueues.lookup out.requestId with
    | none => some { s with loop := .delivering outputs }
    | some c =>
      -- An `asyncio.Queue` is true also when it is empty.
      let loop := if out.isFinal then .removing out.requestId outputs else .delivering outputs
      some { s.put c out with loop := loop }
  | _ => none

def remove (s : AsyncLLMEngine cfg Q) : Option (AsyncLLMEngine cfg Q) :=
  match s.loop with
  | .removing requestId outputs =>
    some { s with
      requestQueues := s.requestQueues.erase requestId, loop := .delivering outputs }
  | _ => none

def step (s : AsyncLLMEngine cfg Q) : AsyncAction → Option (AsyncLLMEngine cfg Q)
  | .start => some s.start
  | .generate c promptTokens samplingParams now => s.generate c promptTokens samplingParams now
  | .get c => s.get c
  | .resume c => s.resume c
  | .cancel c => s.cancel c
  | .close c => s.close c
  | .loopStep => s.loopStep
  | .deliver => s.deliver
  | .remove => s.remove

end AsyncLLMEngine
end CudaForge.Engine
