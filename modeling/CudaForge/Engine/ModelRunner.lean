import CudaForge.Scheduler.ContinuousBatcher

/-! The autoregressive model runner and its token stream buffer. -/
namespace CudaForge.Engine
open MachineWord PriorityQueue Scheduler

structure StreamOutput where
  requestId : ℕ
  tokenId : ℤ
  isFinal : Bool
  deriving DecidableEq

structure TokenStreamBuffer where
  queue : List StreamOutput
  deriving DecidableEq

namespace TokenStreamBuffer

def pushBatch (b : TokenStreamBuffer) (outputs : List StreamOutput) : TokenStreamBuffer :=
  ⟨b.queue ++ outputs⟩

def popAll (b : TokenStreamBuffer) : List StreamOutput × TokenStreamBuffer := (b.queue, ⟨[]⟩)

end TokenStreamBuffer

structure ModelRunner (Q : Type) where
  batcher : BatcherState Q
  streamBuffer : TokenStreamBuffer
  vocabSize : ℕ
  eosTokenId : ℤ
  cancelledRequests : Finset ℕ

/-- `(last + 1) % vocab_size_`: the sum is converted to `size_t` and the remainder to `int32_t`. -/
def nextToken (vocabSize : ℕ) (last : ℤ) : ℤ := toSigned 32 (ofInt 64 (last + 1) % vocabSize)

def prefillToken (vocabSize : ℕ) (req : Request) : ℤ :=
  match req.promptTokens.getLast? with
  | none => 0
  | some last => nextToken vocabSize last

def decodeToken (vocabSize : ℕ) (req : Request) : ℤ :=
  nextToken vocabSize (req.generatedTokens.getLast?.getD 0)

namespace ModelRunner
variable {Q : Type} [PriorityQueue Q RequestRef]

def init (batcher : BatcherState Q) (vocabSize : ℕ) (eosTokenId : ℤ) : ModelRunner Q :=
  ⟨batcher, ⟨[]⟩, vocabSize, eosTokenId, ∅⟩

def cancelRequest (m : ModelRunner Q) (requestId : ℕ) : ModelRunner Q :=
  { m with
    cancelledRequests := insert requestId m.cancelledRequests
    batcher := (m.batcher.cancelRequest requestId).2 }

def isCancelled (m : ModelRunner Q) (requestId : ℕ) : Bool := requestId ∈ m.cancelledRequests

def filterCancelledRequests (m : ModelRunner Q) (result : BatchStepResult) : BatchStepResult :=
  let live := fun r => !m.isCancelled (m.batcher.requests r).id
  { result with
    prefillRequests := result.prefillRequests.filter live
    decodeRequests := result.decodeRequests.filter live }

structure Execution where
  requests : Requests
  generatedOutputs : List StreamOutput
  finishedIds : List ℕ

/-- One turn of the prefill loop or of the decode loop, which differ in how they sample. -/
def executeRequest (eosTokenId : ℤ) (sample : Request → ℤ) (acc : Execution)
    (r : RequestRef) : Execution :=
  let sampledToken := sample (acc.requests r)
  let requests := acc.requests.pushToken r sampledToken
  let req := requests r
  let isFinal := sampledToken = eosTokenId || ofInt 64 req.maxNewTokens ≤ req.generatedTokens.length
  { requests := if isFinal then requests.setState r .finished else requests
    generatedOutputs := acc.generatedOutputs ++ [⟨req.id, sampledToken, isFinal⟩]
    finishedIds := if isFinal then acc.finishedIds ++ [req.id] else acc.finishedIds }

def executeBatch (m : ModelRunner Q) (result : BatchStepResult) : Execution :=
  let prefilled := result.prefillRequests.foldl
    (executeRequest m.eosTokenId (prefillToken m.vocabSize)) ⟨m.batcher.requests, [], []⟩
  result.decodeRequests.foldl (executeRequest m.eosTokenId (decodeToken m.vocabSize)) prefilled

def step (m : ModelRunner Q) : ℕ × ModelRunner Q :=
  let scheduled := m.batcher.scheduleStep
  let m := { m with batcher := scheduled.2 }
  let result := m.filterCancelledRequests scheduled.1
  let totalActive := result.prefillRequests.length + result.decodeRequests.length
  if totalActive = 0 then (0, m)
  else
    let execution := m.executeBatch result
    let batcher := { m.batcher with requests := execution.requests }
    (totalActive,
      { m with
        streamBuffer := m.streamBuffer.pushBatch execution.generatedOutputs
        batcher := batcher.updateRequestsState execution.finishedIds })

end ModelRunner
end CudaForge.Engine
