import CudaForge.Library.FiniteMap
import CudaForge.Library.Semaphore
import CudaForge.Library.Transition

/-!
The `/generate` route, statement by statement.

A call stands before one of its statements. The statement succeeds, or it raises; at an `await` the
task may also be cancelled. The readings of the clock that only end up in a latency are left out.
-/
namespace CudaForge.Serving

inductive Raised where
  /-- A subclass of `Exception`, with its text. -/
  | exception (detail : String)
  | cancelledError
  /-- `GeneratorExit` and the other classes that are not below `Exception`. -/
  | baseException
  deriving DecidableEq

def Raised.isException : Raised → Bool
  | .exception _ => true
  | _ => false

/-- The characters that `str.split` and `str.strip` take for whitespace. -/
def isSpace (c : Char) : Bool :=
  let n := c.val.toNat
  (9 ≤ n && n ≤ 13) || (28 ≤ n && n ≤ 32) || n == 0x85 || n == 0xa0 || n == 0x1680 ||
    (0x2000 ≤ n && n ≤ 0x200a) || n == 0x2028 || n == 0x2029 || n == 0x202f || n == 0x205f ||
    n == 0x3000

def split (text : String) : List String :=
  ((text.toList.splitOnP isSpace).filter (· ≠ [])).map String.ofList

structure GenerationRequest where
  prompt : String
  maxTokens : ℕ
  stream : Bool
  maxTokens_mem : 1 ≤ maxTokens ∧ maxTokens ≤ 4096
  prompt_notEmpty : split prompt ≠ []

structure TokenStreamChunk where
  tokenId : ℕ
  text : String
  logprob : Option ℚ
  isFinal : Bool
  deriving DecidableEq

structure GenerationResponse where
  requestId : String
  prompt : String
  generatedText : String
  finishReason : String
  tokensGenerated : ℕ
  deriving DecidableEq

structure HTTPException where
  statusCode : ℕ
  errorCode : String
  message : String
  deriving DecidableEq

/-- The payloads of the server-sent events. -/
inductive Event where
  | data (chunk : TokenStreamChunk)
  | error (errorCode detail : String)
  deriving DecidableEq

section Generator

/-- Where `mock_cuda_token_generator` stands. -/
inductive TokenGenerator where
  | unstarted
  /-- At `await asyncio.sleep(0.015)`. -/
  | asleep (idx : ℕ)
  | awake (idx : ℕ)
  | yielded (idx : ℕ)
  /-- In `except asyncio.CancelledError`. -/
  | disconnected
  /-- In `except Exception as err`. -/
  | failed (detail : String)
  | yieldedError
  deriving DecidableEq

inductive Advance where
  | running (g : TokenGenerator)
  | yields (event : Event) (g : TokenGenerator)
  | returns
  | raises (raised : Raised)

namespace GenerationRequest
variable (req : GenerationRequest)

def dummyTokens : List String :=
  (split req.prompt).take 5 ++ ["is", "optimized", "by", "CUDAForge", "engine."]

def totalSteps : ℕ := min req.maxTokens req.dummyTokens.length

def isFinal (idx : ℕ) : Bool := idx == req.totalSteps - 1

def chunk (idx : ℕ) : TokenStreamChunk where
  tokenId := 1000 + idx
  text := req.dummyTokens.getD idx "" ++ " "
  logprob := some (-0.05)
  isFinal := req.isFinal idx

end GenerationRequest

/-- An exception inside the `try` goes to the handler of its class. -/
def TokenGenerator.handler : Raised → Advance
  | .exception detail => .running (.failed detail)
  | .cancelledError => .running .disconnected
  | .baseException => .raises .baseException

/-- `none` stands for a statement that succeeds. -/
def mockCudaTokenGenerator (req : GenerationRequest) : TokenGenerator → Option Raised → Advance
  | .unstarted, none => if 0 < req.totalSteps then .running (.asleep 0) else .returns
  | .asleep idx, none => .running (.awake idx)
  | .awake idx, none => .yields (.data (req.chunk idx)) (.yielded idx)
  | .yielded idx, none =>
    if req.isFinal idx then .returns
    else if idx + 1 < req.totalSteps then .running (.asleep (idx + 1)) else .returns
  | .asleep _, some raised | .awake _, some raised | .yielded _, some raised =>
    TokenGenerator.handler raised
  | .disconnected, none => .raises .cancelledError
  | .failed detail, none => .yields (.error "ERR_INTERNAL_EXECUTION" detail) .yieldedError
  | .yieldedError, none => .returns
  | .unstarted, some raised | .disconnected, some raised | .failed _, some raised
  | .yieldedError, some raised => .raises raised

end Generator

section Route

inductive Outcome where
  | response (response : GenerationResponse)
  | httpException (exc : HTTPException)
  /-- The body of the streaming response is exhausted. -/
  | streamed
  | raised (raised : Raised)
  deriving DecidableEq

inductive Phase where
  | entered
  /-- At `await asyncio.wait_for(concurrency_semaphore.acquire(), timeout=5.0)`. -/
  | acquiring
  | admitted
  /-- The streaming response is returned; `streaming_wrapper` has not started. -/
  | responded
  /-- `streaming_wrapper` runs the generator. -/
  | streaming (g : TokenGenerator)
  /-- `streaming_wrapper` is suspended at its own `yield event`. -/
  | sending (event : Event) (g : TokenGenerator)
  /-- The route runs the generator. -/
  | collecting (g : TokenGenerator) (generatedChunks : List String)
  /-- In the body of `async for event`. -/
  | parsing (event : Event) (g : TokenGenerator) (generatedChunks : List String)
  | joining (generatedChunks : List String)
  /-- After the release of the path without streaming. -/
  | answering (generatedChunks : List String)
  | ended (outcome : Outcome)
  deriving DecidableEq

/-- What a statement of a call comes to: the next phase, and whether the permit was released. -/
structure Turn where
  phase : Phase
  released : Bool

def queueFull : HTTPException where
  statusCode := 503
  errorCode := "ERR_QUEUE_FULL"
  message := "Model execution concurrency queue is saturated. Try again shortly."

def internalError (detail : String) : HTTPException := ⟨500, "ERR_INTERNAL", detail⟩

/-- `except Exception as err` of the route. -/
def exceptHandler : Raised → Turn
  | .exception detail => ⟨.ended (.httpException (internalError detail)), true⟩
  | raised => ⟨.ended (.raised raised), false⟩

/-- `finally` releases the permit at every end of the body. -/
def streamingWrapper : Advance → Turn
  | .running g => ⟨.streaming g, false⟩
  | .yields event g => ⟨.sending event g, false⟩
  | .returns => ⟨.ended .streamed, true⟩
  | .raises raised => ⟨.ended (.raised raised), true⟩

def collect (generatedChunks : List String) : Advance → Turn
  | .running g => ⟨.collecting g generatedChunks, false⟩
  | .yields event g => ⟨.parsing event g generatedChunks, false⟩
  | .returns => ⟨.joining generatedChunks, false⟩
  | .raises raised => exceptHandler raised

/-- `if event.startswith("data: ")` -/
def parse (generatedChunks : List String) : Event → List String
  | .data chunk => generatedChunks ++ [chunk.text]
  | .error _ _ => generatedChunks

def generationResponse (req : GenerationRequest) (requestId : String)
    (generatedChunks : List String) : GenerationResponse where
  requestId := requestId
  prompt := req.prompt
  generatedText := String.join generatedChunks
  finishReason := "stop"
  tokensGenerated := generatedChunks.length

/-- The statements after the permit is acquired. -/
def generateTokens (req : GenerationRequest) (requestId : String) :
    Phase → Option Raised → Option Turn
  | .admitted, none => some ⟨if req.stream then .responded else .collecting .unstarted [], false⟩
  | .responded, none => some ⟨.streaming .unstarted, false⟩
  -- A generator that is closed or thrown into before it has started never enters its body.
  | .responded, some raised => some ⟨.ended (.raised raised), false⟩
  | .streaming g, raised => some (streamingWrapper (mockCudaTokenGenerator req g raised))
  | .sending _ g, none => some ⟨.streaming g, false⟩
  | .sending _ _, some raised => some (streamingWrapper (.raises raised))
  | .collecting g chunks, raised => some (collect chunks (mockCudaTokenGenerator req g raised))
  | .parsing event g chunks, none => some ⟨.collecting g (parse chunks event), false⟩
  | .joining chunks, none => some ⟨.answering chunks, true⟩
  | .answering chunks, none =>
    some ⟨.ended (.response (generationResponse req requestId chunks)), false⟩
  | .admitted, some raised | .parsing _ _ _, some raised | .joining _, some raised
  | .answering _, some raised => some (exceptHandler raised)
  | .entered, _ | .acquiring, _ | .ended _, _ => none

/-- A task is cancelled at an `await` only. -/
def Phase.awaits : Phase → Bool
  | .acquiring | .streaming (.asleep _) | .collecting (.asleep _) _ => true
  | _ => false

end Route

section Server

/-- A request to the route, with its calls of the semaphore counted. -/
structure Call where
  req : GenerationRequest
  requestId : String
  phase : Phase
  acquired : ℕ
  released : ℕ

structure Server where
  /-- `app.state.concurrency_semaphore`, which the first call makes where it is missing. -/
  concurrencySemaphore : Option (Semaphore ℕ)
  calls : FiniteMap ℕ Call

inductive Action where
  | receive (i : ℕ) (req : GenerationRequest) (nowMs : ℕ)
  /-- The five seconds of the wait are over. -/
  | timeout (i : ℕ)
  | run (i : ℕ) (raised : Option Raised)

namespace Server

def maxConcurrentRequests : ℕ := 32

def semaphore (s : Server) : Semaphore ℕ :=
  s.concurrencySemaphore.getD (Semaphore.ofValue maxConcurrentRequests)

def put (s : Server) (i : ℕ) (semaphore : Semaphore ℕ) (c : Call) : Server :=
  ⟨some semaphore, s.calls.insert i c⟩

def runCall (s : Server) (i : ℕ) (c : Call) (raised : Option Raised) : Option Server :=
  if raised = some .cancelledError ∧ ¬c.phase.awaits then none
  else
    match c.phase, raised with
    | .entered, none =>
      let r := s.semaphore.acquire i
      some (s.put i r.1
        { c with
          phase := if r.2 then .admitted else .acquiring
          acquired := c.acquired + r.2.toNat })
    | .entered, some raised =>
      some { s with calls := s.calls.insert i { c with phase := .ended (.raised raised) } }
    | .acquiring, none =>
      (s.semaphore.resume i).map fun semaphore =>
        s.put i semaphore { c with phase := .admitted, acquired := c.acquired + 1 }
    | .acquiring, some .cancelledError =>
      some (s.put i (s.semaphore.abandon i)
        { c with phase := .ended (.raised .cancelledError) })
    | .acquiring, some _ => none
    | phase, raised =>
      (generateTokens c.req c.requestId phase raised).map fun turn =>
        s.put i (if turn.released then s.semaphore.release else s.semaphore)
          { c with phase := turn.phase, released := c.released + turn.released.toNat }

def step (s : Server) : Action → Option Server
  | .receive i req nowMs =>
    if i ∈ s.calls then none
    else some { s with calls := s.calls.insert i ⟨req, "req_" ++ toString nowMs, .entered, 0, 0⟩ }
  | .timeout i =>
    (s.calls.lookup i).bind fun c =>
      if c.phase = .acquiring then
        some (s.put i (s.semaphore.abandon i) { c with phase := .ended (.httpException queueFull) })
      else none
  | .run i raised => (s.calls.lookup i).bind fun c => s.runCall i c raised

end Server
end Server
end CudaForge.Serving
