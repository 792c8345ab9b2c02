import CudaForge.Engine.ModelRunner
import CudaForge.Library.Transition

/-!
The synchronous engine over the runner. The KV cache stands at its specification: the length of
every registered sequence.
-/
namespace CudaForge.Engine
open FiniteMap PriorityQueue Scheduler

structure SamplingParams where
  maxTokens : ℤ := 128
  priority : ℤ := 0
  stopTokenIds : Finset ℤ := ∅
  deriving DecidableEq

structure GenerationOutput where
  requestId : ℕ
  tokenId : ℤ
  isFinal : Bool := false
  error : Option String := none
  deriving DecidableEq

abbrev KVLengths := FiniteMap ℕ ℕ

namespace KVLengths

def registerSequence (kv : KVLengths) (sequenceId : ℕ) (promptTokens : List ℤ) : KVLengths :=
  kv.insert sequenceId promptTokens.length

def appendTokens (kv : KVLengths) (sequenceId numTokens : ℕ) : KVLengths :=
  match kv.lookup sequenceId with
  | none => kv
  | some length => kv.insert sequenceId (length + numTokens)

def unregisterSequence (kv : KVLengths) (sequenceId : ℕ) : KVLengths := kv.erase sequenceId

end KVLengths

/-- The range in which a Python integer converts to `int32_t`; outside it the binding raises. -/
def fitsInt32 (x : ℤ) : Bool := -2 ^ 31 ≤ x && x < 2 ^ 31

structure LLMEngine (Q : Type) where
  requestCounter : ℕ
  activeRequests : FiniteMap ℕ SamplingParams
  kvCache : KVLengths
  modelRunner : ModelRunner Q

namespace LLMEngine
variable {Q : Type} [PriorityQueue Q RequestRef]

def init (maxNumSeqs maxNumBatchedTokens vocabSize : ℕ) (eosTokenId : ℤ) : LLMEngine Q where
  requestCounter := 0
  activeRequests := ∅
  kvCache := ∅
  modelRunner := ModelRunner.init
    (BatcherState.init maxNumSeqs maxNumBatchedTokens fun r => Request.new r [] 0 0 0)
    vocabSize eosTokenId

def queueRequest (e : LLMEngine Q) (r : RequestRef) (cppRequest : Request) : LLMEngine Q :=
  let batcher := e.modelRunner.batcher
  let created := { batcher with requests := Function.update batcher.requests r cppRequest }
  { e with modelRunner := { e.modelRunner with batcher := (created.addRequest (some r)).2 } }

/-- `none` when a conversion to `uint64_t` or `int32_t` raises, which leaves what was done before
it. -/
def addRequest (e : LLMEngine Q) (promptTokens : List ℤ) (samplingParams : SamplingParams)
    (now : ℕ) : Option ℕ × LLMEngine Q :=
  let reqId := e.requestCounter + 1
  let e := { e with requestCounter := reqId }
  if !(reqId < 2 ^ 64 && promptTokens.all fitsInt32) then (none, e)
  else
    let e := { e with kvCache := e.kvCache.registerSequence reqId promptTokens }
    if !(fitsInt32 samplingParams.maxTokens && fitsInt32 samplingParams.priority) then (none, e)
    else
      let e := e.queueRequest reqId
        (Request.new reqId promptTokens samplingParams.maxTokens samplingParams.priority now)
      (some reqId, { e with activeRequests := e.activeRequests.insert reqId samplingParams })

structure OutputLoop where
  kvCache : KVLengths
  results : List GenerationOutput
  finishedReqIds : List ℕ

/-- The engine's own stop rule: the runner's flag or a custom stop token. -/
def endsRequest (activeRequests : FiniteMap ℕ SamplingParams) (out : StreamOutput) : Bool :=
  match activeRequests.lookup out.requestId with
  | some samplingParams => out.isFinal || out.tokenId ∈ samplingParams.stopTokenIds
  | none => out.isFinal

def processOutput (activeRequests : FiniteMap ℕ SamplingParams) (acc : OutputLoop)
    (out : StreamOutput) : OutputLoop :=
  let isFinal := endsRequest activeRequests out
  { kvCache := if isFinal then acc.kvCache else acc.kvCache.appendTokens out.requestId 1
    results := acc.results ++ [⟨out.requestId, out.tokenId, isFinal, none⟩]
    finishedReqIds :=
      if isFinal then acc.finishedReqIds ++ [out.requestId] else acc.finishedReqIds }

def step (e : LLMEngine Q) : List GenerationOutput × LLMEngine Q :=
  let modelRunner := e.modelRunner.step.2
  let popped := modelRunner.streamBuffer.popAll
  let loop := popped.1.foldl (processOutput e.activeRequests) ⟨e.kvCache, [], []⟩
  (loop.results,
    { e with
      modelRunner :=
        { modelRunner with
          streamBuffer := popped.2
          batcher := modelRunner.batcher.updateRequestsState loop.finishedReqIds }
      kvCache := loop.finishedReqIds.foldl (fun kv id => kv.unregisterSequence id) loop.kvCache
      activeRequests := loop.finishedReqIds.foldl (fun m id => m.erase id) e.activeRequests })

/-- An id that does not convert to `uint64_t` raises before anything is done. -/
def cancelRequest (e : LLMEngine Q) (requestId : ℤ) : LLMEngine Q :=
  if 0 ≤ requestId ∧ requestId < 2 ^ 64 then
    { e with
      modelRunner := e.modelRunner.cancelRequest requestId.toNat
      kvCache := e.kvCache.unregisterSequence requestId.toNat
      activeRequests := e.activeRequests.erase requestId.toNat }
  else e

end LLMEngine

inductive EngineAction where
  | addRequest (promptTokens : List ℤ) (samplingParams : SamplingParams) (now : ℕ)
  | step
  | cancelRequest (requestId : ℤ)
  deriving DecidableEq

def LLMEngine.call {Q : Type} [PriorityQueue Q RequestRef] (e : LLMEngine Q) :
    EngineAction → Option (LLMEngine Q)
  | .addRequest promptTokens samplingParams now =>
    if promptTokens = [] then none else some (e.addRequest promptTokens samplingParams now).2
  | .step => some e.step.2
  | .cancelRequest requestId => some (e.cancelRequest requestId)

end CudaForge.Engine
