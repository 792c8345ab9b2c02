import CudaForge.Library.PriorityQueue
import CudaForge.Library.MachineWord
import CudaForge.Library.FiniteMap

/-!
The continuous batcher. `Request` objects are shared by reference: the queue, the running vector and
the map hold references, and the objects themselves are a table that every holder reads and writes.
-/
namespace CudaForge.Scheduler
open MachineWord FiniteMap PriorityQueue

inductive RequestState where
  | waiting | running | finished | preempted
  deriving DecidableEq

structure Request where
  id : ℕ
  promptTokens : List ℤ
  generatedTokens : List ℤ
  maxNewTokens : ℤ
  priority : ℤ
  state : RequestState
  arrivalTime : ℕ
  deriving DecidableEq

namespace Request

def new (id : ℕ) (prompt : List ℤ) (maxTokens prio : ℤ) (now : ℕ) : Request :=
  ⟨id, prompt, [], maxTokens, prio, .waiting, now⟩

def getTotalLength (r : Request) : ℕ := r.promptTokens.length + r.generatedTokens.length

/-- A negative `max_new_tokens` is converted to `size_t` and never reached. -/
def isFinished (r : Request) : Bool :=
  r.state = .finished || ofInt 64 r.maxNewTokens ≤ r.generatedTokens.length

end Request

def requestPriorityComparator (a b : Request) : Bool :=
  if a.priority ≠ b.priority then a.priority < b.priority else a.arrivalTime > b.arrivalTime

abbrev RequestRef := ℕ

abbrev Requests := RequestRef → Request

namespace Requests

def setState (rs : Requests) (r : RequestRef) (state : RequestState) : Requests :=
  Function.update rs r { rs r with state := state }

def pushToken (rs : Requests) (r : RequestRef) (token : ℤ) : Requests :=
  Function.update rs r { rs r with generatedTokens := (rs r).generatedTokens ++ [token] }

def comparator (rs : Requests) (a b : RequestRef) : Bool := requestPriorityComparator (rs a) (rs b)

end Requests

structure BatchStepResult where
  prefillRequests : List RequestRef
  decodeRequests : List RequestRef
  totalBatchedTokens : ℕ
  preemptedCount : ℕ
  deriving DecidableEq

structure ContinuousBatcher (Q : Type) where
  maxNumSeqs : ℕ
  maxNumBatchedTokens : ℕ
  waitingQueue : Q
  runningRequests : List RequestRef
  requestMap : FiniteMap ℕ RequestRef

/-- The batcher together with the objects that its references point to. -/
structure BatcherState (Q : Type) where
  batcher : ContinuousBatcher Q
  requests : Requests

namespace BatcherState
variable {Q : Type} [PriorityQueue Q RequestRef]

def init (maxNumSeqs maxNumBatchedTokens : ℕ) (requests : Requests) : BatcherState Q :=
  ⟨⟨maxNumSeqs, maxNumBatchedTokens, empty, [], ∅⟩, requests⟩

/-- `none` is a null pointer. -/
def addRequest (s : BatcherState Q) (request : Option RequestRef) : Bool × BatcherState Q :=
  match request with
  | none => (false, s)
  | some r =>
    if (s.requests r).promptTokens.isEmpty then (false, s)
    else if (s.requests r).id ∈ s.batcher.requestMap then (false, s)
    else
      let requests := s.requests.setState r .waiting
      (true,
        { batcher :=
            { s.batcher with
              requestMap := s.batcher.requestMap.insert (requests r).id r
              waitingQueue := push requests.comparator r s.batcher.waitingQueue }
          requests := requests })

def cancelRequest (s : BatcherState Q) (requestId : ℕ) : Bool × BatcherState Q :=
  match s.batcher.requestMap.lookup requestId with
  | none => (false, s)
  | some r =>
    let requests := s.requests.setState r .finished
    (true,
      { batcher :=
          { s.batcher with
            runningRequests := s.batcher.runningRequests.filter fun q =>
              (requests q).id ≠ requestId
            requestMap := s.batcher.requestMap.erase requestId }
        requests := requests })

structure ActiveRunning where
  activeRunning : List RequestRef
  requests : Requests
  requestMap : FiniteMap ℕ RequestRef

def filterStep (acc : ActiveRunning) (r : RequestRef) : ActiveRunning :=
  let req := acc.requests r
  if !req.isFinished && req.state = .running then
    { acc with activeRunning := acc.activeRunning ++ [r] }
  else
    { acc with
      requests := acc.requests.setState r .finished
      requestMap := acc.requestMap.erase req.id }

/-- Step 1 of `schedule_step`. -/
def filterRunning (s : BatcherState Q) : BatcherState Q :=
  let acc := s.batcher.runningRequests.foldl filterStep ⟨[], s.requests, s.batcher.requestMap⟩
  { batcher :=
      { s.batcher with runningRequests := acc.activeRunning, requestMap := acc.requestMap }
    requests := acc.requests }

/-- Step 2 of `schedule_step`: the decode requests, the tokens allocated, and whether the loop left
by the preemption branch. -/
def decodeLoop (maxNumBatchedTokens : ℕ) : List RequestRef → ℕ → List RequestRef × ℕ × Bool
  | [], allocatedTokens => ([], allocatedTokens, false)
  | r :: rest, allocatedTokens =>
    if allocatedTokens + 1 ≤ maxNumBatchedTokens then
      let next := decodeLoop maxNumBatchedTokens rest (allocatedTokens + 1)
      (r :: next.1, next.2)
    else ([], allocatedTokens, true)

/-- The state and how many requests were preempted. `std::sort` leaves the order of equal
priorities open; a stable sort stands for it. -/
def preemptRequests (s : BatcherState Q) (requiredTokens : ℕ) : BatcherState Q × ℕ :=
  let sorted := s.batcher.runningRequests.mergeSort fun a b =>
    (s.requests a).priority ≤ (s.requests b).priority
  match sorted with
  | [] => ({ s with batcher := { s.batcher with runningRequests := [] } }, 0)
  | r :: rest =>
    if requiredTokens > 0 then
      let requests := s.requests.setState r .preempted
      ({ batcher :=
          { s.batcher with
            runningRequests := rest
            waitingQueue := push requests.comparator r s.batcher.waitingQueue }
         requests := requests }, 1)
    else ({ s with batcher := { s.batcher with runningRequests := sorted } }, 0)

structure Admission (Q : Type) where
  waitingQueue : Q
  runningRequests : List RequestRef
  requests : Requests
  prefillRequests : List RequestRef
  deferredWaiting : List RequestRef
  allocatedTokens : ℕ

/-- Step 3 of `schedule_step`; each turn pops one request, so the queue's size bounds the turns. -/
def admitLoop (maxNumSeqs maxNumBatchedTokens : ℕ) : ℕ → Admission Q → Admission Q
  | 0, acc => acc
  | turns + 1, acc =>
    if acc.runningRequests.length < maxNumSeqs then
      match pop acc.requests.comparator acc.waitingQueue with
      | none => acc
      | some (candidate, waitingQueue) =>
        let promptLen := (acc.requests candidate).promptTokens.length
        if (acc.requests candidate).state = .finished then
          admitLoop maxNumSeqs maxNumBatchedTokens turns { acc with waitingQueue := waitingQueue }
        else if acc.allocatedTokens + promptLen ≤ maxNumBatchedTokens then
          admitLoop maxNumSeqs maxNumBatchedTokens turns
            { acc with
              waitingQueue := waitingQueue
              requests := acc.requests.setState candidate .running
              prefillRequests := acc.prefillRequests ++ [candidate]
              runningRequests := acc.runningRequests ++ [candidate]
              allocatedTokens := acc.allocatedTokens + promptLen }
        else
          { acc with
            waitingQueue := waitingQueue
            deferredWaiting := acc.deferredWaiting ++ [candidate] }
    else acc

def scheduleStep (s : BatcherState Q) : BatchStepResult × BatcherState Q :=
  let s := s.filterRunning
  let decode := decodeLoop s.batcher.maxNumBatchedTokens s.batcher.runningRequests 0
  let preempted := if decode.2.2 then s.preemptRequests 1 else (s, 0)
  let s := preempted.1
  let acc := admitLoop s.batcher.maxNumSeqs s.batcher.maxNumBatchedTokens
    (Multiset.card (items s.batcher.waitingQueue))
    ⟨s.batcher.waitingQueue, s.batcher.runningRequests, s.requests, [], [], decode.2.1⟩
  let waitingQueue := acc.deferredWaiting.foldl
    (fun q r => push acc.requests.comparator r q) acc.waitingQueue
  (⟨acc.prefillRequests, decode.1, acc.allocatedTokens, preempted.2⟩,
    { batcher :=
        { s.batcher with waitingQueue := waitingQueue, runningRequests := acc.runningRequests }
      requests := acc.requests })

def updateStep (requestMap : FiniteMap ℕ RequestRef) (requests : Requests) (id : ℕ) : Requests :=
  match requestMap.lookup id with
  | some r => requests.setState r .finished
  | none => requests

def updateRequestsState (s : BatcherState Q) (finishedIds : List ℕ) : BatcherState Q :=
  { s with requests := finishedIds.foldl (updateStep s.batcher.requestMap) s.requests }

def getPendingCount (s : BatcherState Q) : ℕ := Multiset.card (items s.batcher.waitingQueue)

def getRunningCount (s : BatcherState Q) : ℕ := s.batcher.runningRequests.length

end BatcherState
end CudaForge.Scheduler
