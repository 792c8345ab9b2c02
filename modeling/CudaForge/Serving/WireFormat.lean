import CudaForge.Library.EventStream
import CudaForge.Library.JsonWriter
import CudaForge.Serving.Permits

/-!
The texts that the token generator yields, and what a client of the stream and the route itself
make of them.
-/
namespace CudaForge.Serving
open Transition FiniteMap

structure FloatText where
  repr : String
  isFloat_repr : Json.isFloat repr = true

def TokenStreamChunk.fields (text : ℚ → FloatText) (stepLatencyMs : FloatText)
    (chunk : TokenStreamChunk) : PyData :=
  .dict
    [("token_id", .int chunk.tokenId),
      ("text", .str chunk.text),
      ("logprob", chunk.logprob.elim .none fun logprob => .float (text logprob).repr),
      ("step_latency_ms", .float stepLatencyMs.repr),
      ("is_final", .bool chunk.isFinal)]

/-- The serializer of the models. `model_dump_json` writes a JSON object on one line, and
`json.loads` takes the fields back. -/
structure ModelSerializer where
  text : ℚ → FloatText
  /-- The rounded latency of a step of a call. -/
  stepLatencyMs : ℕ → ℕ → FloatText
  modelDumpJson : TokenStreamChunk → FloatText → List Char
  isObject : ∀ chunk latency, ∃ body, modelDumpJson chunk latency = '\x7b' :: body ++ ['\x7d']
  isOneLine : ∀ chunk latency, EventStream.OneLine (modelDumpJson chunk latency)
  loads : ∀ chunk latency,
    Json.loads (modelDumpJson chunk latency) = some (chunk.fields text latency)

section Frames

def errorPayload (errorCode detail : String) : PyData :=
  .dict [("error_code", .str errorCode), ("detail", .str detail)]

def Event.message (models : ModelSerializer) (stepLatencyMs : FloatText) :
    Event → EventStream.Message
  | .data chunk => ⟨[], models.modelDumpJson chunk stepLatencyMs⟩
  | .error errorCode detail =>
    ⟨"error".toList, Json.spaced.write 0 (errorPayload errorCode detail)⟩

def Event.payload (models : ModelSerializer) (stepLatencyMs : FloatText) : Event → PyData
  | .data chunk => chunk.fields models.text stepLatencyMs
  | .error errorCode detail => errorPayload errorCode detail

/-- The text of `yield`. -/
def Event.frame (models : ModelSerializer) (stepLatencyMs : FloatText) : Event → List Char
  | .data chunk => "data: ".toList ++ models.modelDumpJson chunk stepLatencyMs ++ "\n\n".toList
  | .error errorCode detail =>
    "event: error\ndata: ".toList ++ Json.spaced.write 0 (errorPayload errorCode detail) ++
      "\n\n".toList

/-- `str.strip` -/
def strip (text : List Char) : List Char :=
  ((text.dropWhile isSpace).reverse.dropWhile isSpace).reverse

/-- The body of `async for event` in the route; `none` where a statement raises. -/
def collectText (generatedChunks : List String) (event : List Char) : Option (List String) :=
  if "data: ".toList.isPrefixOf event then
    let rawJson := strip (event.drop 6)
    if rawJson = [] then some generatedChunks
    else
      match Json.loads rawJson with
      | some (.dict chunkDict) =>
        match chunkDict.lookup "text" with
        | some (.str text) => some (generatedChunks ++ [text])
        | _ => none
      | _ => none
  else some generatedChunks

def decode (frames : List (List Char)) : List (List Char × Option PyData) :=
  (EventStream.read frames.flatten).map fun m => (m.event, Json.loads m.data)

theorem readable_fields (text : ℚ → FloatText) (stepLatencyMs : FloatText)
    (chunk : TokenStreamChunk) : Json.readable (chunk.fields text stepLatencyMs) = true := by
  have hlogprob : Json.readable (chunk.logprob.elim .none fun logprob =>
      .float (text logprob).repr) = true := by
    cases chunk.logprob with
    | none => rfl
    | some logprob => exact (text logprob).isFloat_repr
  simp only [TokenStreamChunk.fields, Json.readable, Json.readableEntries, Json.readableEntry,
    hlogprob, stepLatencyMs.isFloat_repr, Bool.and_true, Bool.and_self]
  simp

variable (models : ModelSerializer) (stepLatencyMs : FloatText)

theorem loads_error (errorCode detail : String) :
    Json.loads (Json.spaced.write 0 (errorPayload errorCode detail)) =
      some (errorPayload errorCode detail) := by
  have hreadable : Json.readable (errorPayload errorCode detail) = true := rfl
  have hskip := Json.skip_write Json.spaced hreadable 0 []
  rw [List.append_nil] at hskip
  exact Json.loads_write Json.spaced hreadable hskip

theorem loads_message (event : Event) :
    Json.loads (event.message models stepLatencyMs).data =
      some (event.payload models stepLatencyMs) := by
  cases event with
  | data chunk => exact models.loads chunk stepLatencyMs
  | error errorCode detail => exact loads_error errorCode detail

theorem oneLine_of_notBreak {text : List Char} (h : text.all Json.notBreak = true) :
    EventStream.OneLine text := by
  intro c hc
  have hbreak := List.all_eq_true.mp h c hc
  rwa [Json.notBreak, Bool.and_eq_true, bne_iff_ne, bne_iff_ne] at hbreak

theorem oneLine_message (event : Event) :
    EventStream.OneLine (event.message models stepLatencyMs).event ∧
      EventStream.OneLine (event.message models stepLatencyMs).data := by
  cases event with
  | data chunk =>
    exact ⟨fun _ hc => absurd hc List.not_mem_nil, models.isOneLine chunk stepLatencyMs⟩
  | error errorCode detail =>
    have hevent : EventStream.OneLine "error".toList := by
      simp [EventStream.OneLine]
    have hdata := Json.spaced_oneLine.write 0 (errorPayload errorCode detail) rfl
    exact ⟨hevent, oneLine_of_notBreak hdata⟩

theorem frame_eq (event : Event) :
    event.frame models stepLatencyMs = (event.message models stepLatencyMs).write := by
  have hbreaks : "\n\n".toList = ['\n', '\n'] := by decide
  have hhead : "event: error\ndata: ".toList =
      "event: ".toList ++ "error".toList ++ ['\n'] ++ "data: ".toList := by decide
  cases event with
  | data chunk =>
    unfold Event.frame Event.message EventStream.Message.write
    rw [hbreaks, if_pos rfl, List.nil_append]
  | error errorCode detail =>
    unfold Event.frame Event.message EventStream.Message.write
    rw [hbreaks, hhead, if_neg (fun h => absurd h (by decide : "error".toList ≠ []))]

/-- A client decodes the frames to the payloads. -/
theorem decode_frames (steps : List (Event × FloatText)) :
    decode (steps.map fun step => step.1.frame models step.2) =
      steps.map fun step => ((step.1.message models step.2).event,
        some (step.1.payload models step.2)) := by
  have hread := EventStream.read_flatMap (steps.map fun step => step.1.message models step.2)
    (by
      intro m hm
      obtain ⟨step, -, rfl⟩ := List.mem_map.mp hm
      exact oneLine_message models step.2 step.1)
  unfold decode
  simp only [frame_eq, ← List.flatMap_def, List.flatMap_map] at hread ⊢
  rw [hread, List.map_map]
  exact List.map_congr_left fun step _ => by
    simp only [Function.comp_apply, loads_message]

theorem strip_eq {text : List Char} {c d : Char} (hc : isSpace c = false) (hd : isSpace d = false)
    {tail : List Char} (hspace : ∀ x ∈ tail, isSpace x = true) :
    strip (c :: text ++ [d] ++ tail) = c :: text ++ [d] := by
  have hreverse : (c :: text ++ [d] ++ tail).reverse =
      tail.reverse ++ d :: (c :: text).reverse := by
    simp
  have hleft : (c :: text ++ [d] ++ tail).dropWhile isSpace = c :: text ++ [d] ++ tail := by
    simp [hc]
  unfold strip
  rw [hleft, hreverse,
    List.dropWhile_append_of_pos fun x hx => hspace x (List.mem_reverse.mp hx),
    List.dropWhile_cons, hd, if_neg Bool.false_ne_true]
  simp

/-- The route collects from the text of an event what it is the text of. -/
theorem collectText_frame (generatedChunks : List String) (event : Event) :
    collectText generatedChunks (event.frame models stepLatencyMs) =
      some (parse generatedChunks event) := by
  cases event with
  | data chunk =>
    have hloads := models.loads chunk stepLatencyMs
    obtain ⟨text, htext⟩ := models.isObject chunk stepLatencyMs
    have hbreaks : ∀ x ∈ "\n\n".toList, isSpace x = true := by simp [isSpace]
    have hstrip : strip ('\x7b' :: text ++ ['\x7d'] ++ "\n\n".toList) =
        '\x7b' :: text ++ ['\x7d'] := strip_eq (by decide) (by decide) hbreaks
    have hstarts : "data: ".toList.isPrefixOf
        ("data: ".toList ++ ('\x7b' :: text ++ ['\x7d'] ++ "\n\n".toList)) = true :=
      List.isPrefixOf_iff_prefix.mpr (List.prefix_append _ _)
    have hdrop : ("data: ".toList ++ ('\x7b' :: text ++ ['\x7d'] ++ "\n\n".toList)).drop 6 =
        '\x7b' :: text ++ ['\x7d'] ++ "\n\n".toList := List.drop_left' rfl
    have hframe : (Event.data chunk).frame models stepLatencyMs =
        "data: ".toList ++ ('\x7b' :: text ++ ['\x7d'] ++ "\n\n".toList) := by
      rw [← htext, ← List.append_assoc]
      rfl
    rw [htext] at hloads
    rw [hframe]
    unfold collectText
    rw [hstarts, if_pos rfl, hdrop, hstrip, if_neg (by simp), hloads]
    rfl
  | error errorCode detail =>
    have hhead : "event: error\ndata: ".toList = 'e' :: "vent: error\ndata: ".toList := by decide
    have hframe : (Event.error errorCode detail).frame models stepLatencyMs =
        'e' :: ("vent: error\ndata: ".toList ++
          Json.spaced.write 0 (errorPayload errorCode detail) ++ "\n\n".toList) := by
      rw [← List.cons_append, ← List.cons_append, ← hhead]
      rfl
    rw [hframe]
    rfl

end Frames

section Generated

def GenerationRequest.tokenEvents (req : GenerationRequest) (k : ℕ) : List Event :=
  (List.range k).map fun idx => .data (req.chunk idx)

theorem tokenEvents_succ (req : GenerationRequest) (k : ℕ) :
    req.tokenEvents (k + 1) = req.tokenEvents k ++ [.data (req.chunk k)] := by
  simp [GenerationRequest.tokenEvents, List.range_succ]

variable {req : GenerationRequest} {events : List Event}

/-- What a generator that is not finished has yielded. -/
def Partial (req : GenerationRequest) (events : List Event) : Prop :=
  ∃ k ≤ req.totalSteps, ∃ failure : Option String,
    events = req.tokenEvents k ++ failure.toList.map (.error "ERR_INTERNAL_EXECUTION")

/-- What a generator that came to its end has yielded: every token, unless an error came. -/
def Finished (req : GenerationRequest) (events : List Event) : Prop :=
  ∃ k ≤ req.totalSteps, ∃ failure : Option String, (failure = none → k = req.totalSteps) ∧
    events = req.tokenEvents k ++ failure.toList.map (.error "ERR_INTERNAL_EXECUTION")

def TokenGenerator.Yielded (req : GenerationRequest) (events : List Event) :
    TokenGenerator → Prop
  | .unstarted => events = []
  | .asleep idx | .awake idx => idx < req.totalSteps ∧ events = req.tokenEvents idx
  | .yielded idx => idx < req.totalSteps ∧ events = req.tokenEvents (idx + 1)
  | .disconnected | .failed _ => ∃ k ≤ req.totalSteps, events = req.tokenEvents k
  | .yieldedError => ∃ k ≤ req.totalSteps, ∃ detail,
      events = req.tokenEvents k ++ [.error "ERR_INTERNAL_EXECUTION" detail]

theorem Finished.partial_of (h : Finished req events) : Partial req events :=
  h.imp fun _ hk => ⟨hk.1, hk.2.imp fun _ hfailure => hfailure.2⟩

theorem partial_events {k : ℕ} (hk : k ≤ req.totalSteps) : Partial req (req.tokenEvents k) :=
  ⟨k, hk, none, (List.append_nil _).symm⟩

theorem TokenGenerator.Yielded.partial_of {g : TokenGenerator} (h : g.Yielded req events) :
    Partial req events := by
  cases g with
  | unstarted => exact h ▸ partial_events (Nat.zero_le _)
  | asleep idx => exact h.2 ▸ partial_events h.1.le
  | awake idx => exact h.2 ▸ partial_events h.1.le
  | yielded idx => exact h.2 ▸ partial_events h.1
  | disconnected =>
    obtain ⟨k, hk, rfl⟩ := h
    exact partial_events hk
  | failed detail =>
    obtain ⟨k, hk, rfl⟩ := h
    exact partial_events hk
  | yieldedError =>
    obtain ⟨k, hk, detail, rfl⟩ := h
    exact ⟨k, hk, some detail, rfl⟩

def Advance.Keeps (req : GenerationRequest) (events : List Event) : Advance → Prop
  | .running g => g.Yielded req events
  | .yields event g => g.Yielded req (events ++ [event])
  | .returns => Finished req events
  | .raises _ => Partial req events

theorem handler_keeps {k : ℕ} (hk : k ≤ req.totalSteps) (raised : Raised) :
    (TokenGenerator.handler raised).Keeps req (req.tokenEvents k) := by
  cases raised with
  | exception detail => exact ⟨k, hk, rfl⟩
  | cancelledError => exact ⟨k, hk, rfl⟩
  | baseException => exact partial_events hk

theorem advance_keeps {g : TokenGenerator} (h : g.Yielded req events) (raised : Option Raised) :
    (mockCudaTokenGenerator req g raised).Keeps req events := by
  have hend : Finished req (req.tokenEvents req.totalSteps) :=
    ⟨_, le_rfl, none, fun _ => rfl, (List.append_nil _).symm⟩
  cases g with
  | unstarted =>
    cases raised with
    | none =>
      obtain rfl := h
      unfold mockCudaTokenGenerator
      split_ifs with hpos
      · exact ⟨hpos, rfl⟩
      · obtain hzero := Nat.eq_zero_of_not_pos hpos
        rw [hzero] at hend
        exact hend
    | some raised => exact h.partial_of
  | asleep idx =>
    cases raised with
    | none => exact h
    | some raised => exact h.2 ▸ handler_keeps h.1.le raised
  | awake idx =>
    cases raised with
    | none => exact ⟨h.1, by rw [h.2, tokenEvents_succ]⟩
    | some raised => exact h.2 ▸ handler_keeps h.1.le raised
  | yielded idx =>
    cases raised with
    | none =>
      have hlast : ¬idx + 1 < req.totalSteps → Finished req events := by
        intro hlt
        have hcount : idx + 1 = req.totalSteps := Nat.le_antisymm h.1 (Nat.not_lt.mp hlt)
        rw [h.2, hcount]
        exact hend
      have hnext : mockCudaTokenGenerator req (.yielded idx) none =
          if req.isFinal idx then .returns
          else if idx + 1 < req.totalSteps then .running (.asleep (idx + 1)) else .returns := rfl
      rw [hnext]
      split_ifs with hfinal hlt
      · exact hlast fun hlt => by
          have hidx := eq_of_beq hfinal
          omega
      · exact ⟨hlt, h.2⟩
      · exact hlast hlt
    | some raised => exact h.2 ▸ handler_keeps h.1 raised
  | disconnected => cases raised <;> exact h.partial_of
  | failed detail =>
    cases raised with
    | none =>
      obtain ⟨k, hk, rfl⟩ := h
      exact ⟨k, hk, detail, rfl⟩
    | some raised => exact h.partial_of
  | yieldedError =>
    cases raised with
    | none =>
      obtain ⟨k, hk, detail, rfl⟩ := h
      exact ⟨k, hk, some detail, fun hnone => absurd hnone (Option.some_ne_none _), rfl⟩
    | some raised => exact h.partial_of

end Generated

section Calls

def Phase.event : Phase → Option Event
  | .sending event _ | .parsing event _ _ => some event
  | _ => none

def collected (events : List Event) : List String := events.foldl parse []

def Phase.Keeps (req : GenerationRequest) (requestId : String) (events : List Event) : Phase → Prop
  | .entered | .acquiring | .admitted | .responded => events = []
  | .streaming g | .sending _ g => g.Yielded req events
  | .collecting g chunks => g.Yielded req events ∧ chunks = collected events
  | .parsing event g chunks =>
    g.Yielded req events ∧ ∃ before, events = before ++ [event] ∧ chunks = collected before
  | .joining chunks | .answering chunks => Finished req events ∧ chunks = collected events
  | .ended outcome => Partial req events ∧ (outcome = .streamed → Finished req events) ∧
      ∀ r, outcome = .response r →
        Finished req events ∧ r = generationResponse req requestId (collected events)

variable {req : GenerationRequest} {requestId : String} {events : List Event}

theorem partial_nil : Partial req [] := ⟨0, Nat.zero_le _, none, rfl⟩

theorem keeps_raised (h : Partial req events) (raised : Raised) :
    (Phase.ended (.raised raised)).Keeps req requestId events :=
  ⟨h, nofun, nofun⟩

theorem exceptHandler_keeps (h : Partial req events) (raised : Raised) :
    (exceptHandler raised).phase.Keeps req requestId
      (events ++ (exceptHandler raised).phase.event.toList) := by
  cases raised with
  | exception detail =>
    refine ⟨?_, nofun, nofun⟩
    exact (List.append_nil events).symm ▸ h
  | cancelledError => exact keeps_raised ((List.append_nil events).symm ▸ h) _
  | baseException => exact keeps_raised ((List.append_nil events).symm ▸ h) _

theorem streamingWrapper_keeps (advance : Advance) (h : advance.Keeps req events) :
    (streamingWrapper advance).phase.Keeps req requestId
      (events ++ (streamingWrapper advance).phase.event.toList) := by
  cases advance with
  | running g => exact (List.append_nil events).symm ▸ h
  | yields event g => exact h
  | returns =>
    have hfinished : Finished req (events ++ []) := (List.append_nil events).symm ▸ h
    exact ⟨hfinished.partial_of, fun _ => hfinished, nofun⟩
  | raises raised => exact keeps_raised ((List.append_nil events).symm ▸ h) raised

theorem collect_keeps {advance : Advance} (h : advance.Keeps req events) :
    (collect (collected events) advance).phase.Keeps req requestId
      (events ++ (collect (collected events) advance).phase.event.toList) := by
  cases advance with
  | running g => exact (List.append_nil events).symm ▸ ⟨h, rfl⟩
  | yields event g => exact ⟨h, events, rfl, rfl⟩
  | returns => exact (List.append_nil events).symm ▸ ⟨h, rfl⟩
  | raises raised => exact exceptHandler_keeps h raised

theorem turn_keeps {phase : Phase} {raised : Option Raised} {turn : Turn}
    (h : phase.Keeps req requestId events)
    (hturn : generateTokens req requestId phase raised = some turn) :
    turn.phase.Keeps req requestId (events ++ turn.phase.event.toList) := by
  cases phase with
  | entered => cases raised <;> cases hturn
  | acquiring => cases raised <;> cases hturn
  | ended outcome => cases raised <;> cases hturn
  | admitted =>
    obtain rfl := h
    cases raised with
    | none =>
      cases hturn
      cases req.stream
      · exact ⟨rfl, rfl⟩
      · rfl
    | some raised =>
      cases hturn
      exact exceptHandler_keeps partial_nil raised
  | responded =>
    obtain rfl := h
    cases raised with
    | none =>
      cases hturn
      rfl
    | some raised =>
      cases hturn
      exact keeps_raised partial_nil raised
  | streaming g =>
    cases hturn
    exact streamingWrapper_keeps _ (advance_keeps h raised)
  | sending event g =>
    cases raised with
    | none =>
      cases hturn
      exact (List.append_nil events).symm ▸ h
    | some raised =>
      cases hturn
      exact streamingWrapper_keeps (.raises raised) h.partial_of
  | collecting g chunks =>
    obtain ⟨h, rfl⟩ := h
    cases hturn
    exact collect_keeps (advance_keeps h raised)
  | parsing event g chunks =>
    obtain ⟨h, before, rfl, rfl⟩ := h
    cases raised with
    | none =>
      cases hturn
      refine (List.append_nil (before ++ [event])).symm ▸ ⟨h, ?_⟩
      simp [collected]
    | some raised =>
      cases hturn
      exact exceptHandler_keeps h.partial_of raised
  | joining chunks =>
    obtain ⟨h, rfl⟩ := h
    cases raised with
    | none =>
      cases hturn
      exact (List.append_nil events).symm ▸ ⟨h, rfl⟩
    | some raised =>
      cases hturn
      exact exceptHandler_keeps h.partial_of raised
  | answering chunks =>
    obtain ⟨h, rfl⟩ := h
    cases raised with
    | none =>
      cases hturn
      refine (List.append_nil events).symm ▸ ⟨h.partial_of, nofun, ?_⟩
      rintro r heq
      obtain rfl := Outcome.response.inj heq
      exact ⟨h, rfl⟩
    | some raised =>
      cases hturn
      exact exceptHandler_keeps h.partial_of raised

theorem Phase.Keeps.partial_of {phase : Phase} (h : phase.Keeps req requestId events) :
    Partial req events := by
  cases phase with
  | entered | acquiring | admitted | responded =>
    obtain rfl := h
    exact partial_nil
  | streaming g | sending event g => exact TokenGenerator.Yielded.partial_of h
  | collecting g chunks | parsing event g chunks => exact h.1.partial_of
  | joining chunks | answering chunks => exact h.1.partial_of
  | ended outcome => exact h.1

/-- The tokens before a failure, and every token where a call came to its end without one. -/
theorem Phase.Keeps.shape {phase : Phase} (h : phase.Keeps req requestId events) :
    ∃ k ≤ req.totalSteps, ∃ failure : Option String,
      events = req.tokenEvents k ++ failure.toList.map (.error "ERR_INTERNAL_EXECUTION") ∧
        (phase = .ended .streamed → failure = none → k = req.totalSteps) ∧
        ∀ r, phase = .ended (.response r) → (failure = none → k = req.totalSteps) ∧
          r = generationResponse req requestId (collected events) := by
  by_cases hfinished : Finished req events
  · obtain ⟨k, hk, failure, hall, heq⟩ := hfinished
    refine ⟨k, hk, failure, heq, fun _ => hall, ?_⟩
    rintro r rfl
    exact ⟨hall, (h.2.2 r rfl).2⟩
  · obtain ⟨k, hk, failure, heq⟩ := h.partial_of
    refine ⟨k, hk, failure, heq, ?_, ?_⟩
    · rintro rfl
      exact absurd (h.2.1 rfl) hfinished
    · rintro r rfl
      exact absurd (h.2.2 r rfl).1 hfinished

theorem collected_tokenEvents (k : ℕ) (failure : Option String) :
    collected (req.tokenEvents k ++ failure.toList.map (.error "ERR_INTERNAL_EXECUTION")) =
      (List.range k).map fun idx => (req.chunk idx).text := by
  have htokens : collected (req.tokenEvents k) =
      (List.range k).map fun idx => (req.chunk idx).text := by
    induction k with
    | zero => rfl
    | succ k ih =>
      rw [tokenEvents_succ, collected, List.foldl_append, ← collected, ih, List.range_succ,
        List.map_append]
      rfl
  rw [collected, List.foldl_append, ← collected, htokens]
  cases failure <;> rfl

end Calls

section Runs

structure WireServer where
  server : Server
  yields : ℕ → List (List Char)

namespace WireServer
variable (models : ModelSerializer)

def record (s : WireServer) (i : ℕ) (server : Server) : WireServer where
  server := server
  yields :=
    match (server.calls.lookup i).bind fun c => c.phase.event with
    | some event => Function.update s.yields i
        (s.yields i ++ [event.frame models (models.stepLatencyMs i (s.yields i).length)])
    | none => s.yields

def step (s : WireServer) (action : Action) : Option WireServer :=
  (s.server.step action).map fun server =>
    match action with
    | .run i _ => s.record models i server
    | .receive _ _ _ | .timeout _ => { s with server }

def start (concurrencySemaphore : Option (Semaphore ℕ)) : WireServer :=
  ⟨⟨concurrencySemaphore, ∅⟩, fun _ => []⟩

def timed (i : ℕ) (events : List Event) : List (Event × FloatText) :=
  events.mapIdx fun n event => (event, models.stepLatencyMs i n)

/-- Every generator has yielded the texts of the events that its call accounts for. -/
def Wired (s : WireServer) : Prop :=
  (∀ i, i ∉ s.server.calls → s.yields i = []) ∧
    ∀ i c, s.server.calls.lookup i = some c → ∃ events,
      s.yields i = (timed models i events).map (fun step => step.1.frame models step.2) ∧
        c.phase.Keeps c.req c.requestId events

theorem start_wired (concurrencySemaphore : Option (Semaphore ℕ)) :
    (start concurrencySemaphore).Wired models :=
  ⟨fun _ _ => rfl, fun _ _ hc => by cases hc⟩

/-- What a statement makes of its call. -/
theorem runCall_next {s s' : Server} {i : ℕ} {c : Call} {raised : Option Raised}
    (h : s.runCall i c raised = some s') :
    ∃ c', s'.calls = s.calls.insert i c' ∧ c'.req = c.req ∧ c'.requestId = c.requestId ∧
      ∀ events, c.phase.Keeps c.req c.requestId events →
        c'.phase.Keeps c.req c.requestId (events ++ c'.phase.event.toList) := by
  unfold Server.runCall at h
  obtain ⟨-, h⟩ := Option.ite_none_left_eq_some.mp h
  cases hphase : c.phase with
  | entered =>
    rw [hphase] at h
    cases raised with
    | none =>
      cases h
      refine ⟨_, rfl, rfl, rfl, ?_⟩
      rintro events rfl
      simp only
      cases (s.semaphore.acquire i).2 <;> rfl
    | some raised =>
      cases h
      refine ⟨_, rfl, rfl, rfl, ?_⟩
      rintro events rfl
      exact keeps_raised partial_nil raised
  | acquiring =>
    rw [hphase] at h
    rcases raised with _ | _ | _ | _
    · obtain ⟨semaphore, -, rfl⟩ := Option.map_eq_some_iff.mp h
      refine ⟨_, rfl, rfl, rfl, ?_⟩
      rintro events rfl
      rfl
    · cases h
    · cases h
      refine ⟨_, rfl, rfl, rfl, ?_⟩
      rintro events rfl
      exact keeps_raised partial_nil _
    · cases h
  | ended outcome =>
    rw [hphase] at h
    cases raised <;> cases h
  | _ =>
    rw [hphase] at h
    obtain ⟨turn, hturn, rfl⟩ := Option.map_eq_some_iff.mp h
    exact ⟨_, rfl, rfl, rfl, fun events hkeeps => turn_keeps hkeeps hturn⟩

variable {models} {s s' : WireServer}

theorem Wired.step {action : Action} (h : s.Wired models)
    (hstep : s.step models action = some s') : s'.Wired models := by
  obtain ⟨server, hserver, rfl⟩ := Option.map_eq_some_iff.mp hstep
  cases action with
  | receive i req nowMs =>
    obtain ⟨hfresh, hinsert⟩ := Option.ite_none_left_eq_some.mp hserver
    cases hinsert
    refine ⟨fun j hj => h.1 j fun hmem => hj ((AList.mem_insert _).mpr (Or.inr hmem)), ?_⟩
    intro j c hc
    rw [lookup_insert_ite] at hc
    split_ifs at hc with hji
    · cases hc
      exact ⟨[], by rw [hji]; exact h.1 i hfresh, rfl⟩
    · exact h.2 j c hc
  | timeout i =>
    obtain ⟨c, hc, htimeout⟩ := Option.bind_eq_some_iff.mp hserver
    obtain ⟨hphase, hended⟩ := Option.ite_none_right_eq_some.mp htimeout
    cases hended
    obtain ⟨events, hyields, hkeeps⟩ := h.2 i c hc
    rw [hphase] at hkeeps
    refine ⟨fun j hj => h.1 j fun hmem => hj ((AList.mem_insert _).mpr (Or.inr hmem)), ?_⟩
    intro j c' hc'
    rw [Server.put, lookup_insert_ite] at hc'
    split_ifs at hc' with hji
    · cases hc'
      obtain rfl : events = [] := hkeeps
      exact ⟨[], by rw [hji]; exact hyields, partial_nil, nofun, nofun⟩
    · exact h.2 j c' hc'
  | run i raised =>
    obtain ⟨c, hc, hrun⟩ := Option.bind_eq_some_iff.mp hserver
    obtain ⟨c', hcalls, hreq, hid, hnext⟩ := runCall_next hrun
    obtain ⟨events, hyields, hkeeps⟩ := h.2 i c hc
    have hevent : ((server.calls.lookup i).bind fun c => c.phase.event) = c'.phase.event := by
      rw [hcalls, AList.lookup_insert]
      rfl
    have hlength : (s.yields i).length = events.length := by
      rw [hyields, timed, List.length_map, List.length_mapIdx]
    have hrecord : (s.record models i server).yields i =
        (timed models i (events ++ c'.phase.event.toList)).map
          (fun step => step.1.frame models step.2) := by
      unfold record
      simp only [hevent]
      cases c'.phase.event with
      | none => simpa using hyields
      | some event =>
        simp only [Function.update_self, hlength]
        rw [hyields]
        simp [timed, List.mapIdx_append]
    have hother : ∀ j, j ≠ i → (s.record models i server).yields j = s.yields j := by
      intro j hj
      unfold record
      simp only [hevent]
      cases c'.phase.event with
      | none => rfl
      | some event => exact Function.update_of_ne hj _ _
    constructor
    · intro j hj
      have hj : j ∉ server.calls := hj
      rw [hcalls, AList.mem_insert, not_or] at hj
      exact (hother j hj.1).trans (h.1 j hj.2)
    · intro j d hd
      have hd : server.calls.lookup j = some d := hd
      rw [hcalls, lookup_insert_ite] at hd
      split_ifs at hd with hji
      · cases hd
        rw [hji]
        exact ⟨_, hrecord, by rw [hreq, hid]; exact hnext events hkeeps⟩
      · obtain ⟨before, hbefore⟩ := h.2 j d hd
        exact ⟨before, (hother j hji).trans hbefore.1, hbefore.2⟩

theorem timed_tokenEvents (i : ℕ) (req : GenerationRequest) (k : ℕ) :
    timed models i (req.tokenEvents k) =
      (List.range k).map fun idx => (.data (req.chunk idx), models.stepLatencyMs i idx) :=
  List.ext_getElem (by simp [timed, GenerationRequest.tokenEvents]) fun n _ _ => by
    simp [timed, GenerationRequest.tokenEvents]

theorem foldlM_collectText (steps : List (Event × FloatText)) (chunks : List String) :
    (steps.map fun step => step.1.frame models step.2).foldlM collectText chunks =
      some ((steps.map Prod.fst).foldl parse chunks) := by
  induction steps generalizing chunks with
  | nil => rfl
  | cons step steps ih =>
    simp only [List.map_cons, List.foldlM_cons, collectText_frame, List.foldl_cons, ← ih]
    rfl

/-- A client of a stream decodes the tokens of its request, then what went wrong, and the answer
without a stream is joined from the same texts. -/
theorem decode_yields {concurrencySemaphore : Option (Semaphore ℕ)} {actions : List Action}
    (hrun : exec (step models) (start concurrencySemaphore) actions = some s) {i : ℕ} {c : Call}
    (hcall : s.server.calls.lookup i = some c) :
    ∃ k ≤ c.req.totalSteps, ∃ failure : Option String,
      decode (s.yields i) =
        ((List.range k).map fun idx =>
          ([], some ((c.req.chunk idx).fields models.text (models.stepLatencyMs i idx)))) ++
        failure.toList.map (fun detail =>
          ("error".toList, some (errorPayload "ERR_INTERNAL_EXECUTION" detail))) ∧
      (c.phase = .ended .streamed → failure = none → k = c.req.totalSteps) ∧
      ∀ r, c.phase = .ended (.response r) → (failure = none → k = c.req.totalSteps) ∧
        ∃ texts, (s.yields i).foldlM collectText [] = some texts ∧
          texts = ((List.range k).map fun idx => (c.req.chunk idx).text) ∧
          r = generationResponse c.req c.requestId texts := by
  have hwired : s.Wired models := exec_preserves (I := Wired models)
    (fun _ _ _ h hstep => h.step hstep) (start_wired models concurrencySemaphore) hrun
  obtain ⟨events, hyields, hkeeps⟩ := hwired.2 i c hcall
  obtain ⟨k, hk, failure, heq, hstreamed, hresponse⟩ := hkeeps.shape
  have hfst : (timed models i events).map Prod.fst = events :=
    List.ext_getElem (by simp [timed]) fun _ _ _ => by simp [timed]
  refine ⟨k, hk, failure, ?_, hstreamed, fun r hr => ⟨(hresponse r hr).1, ?_⟩⟩
  · rw [hyields, decode_frames, heq, timed, List.mapIdx_append, List.map_append, ← timed,
      timed_tokenEvents, List.map_map]
    cases failure <;> rfl
  · refine ⟨collected events, ?_, ?_, (hresponse r hr).2⟩
    · rw [hyields, foldlM_collectText, hfst]
      rfl
    · rw [heq, collected_tokenEvents]

def halfSecond : FloatText := ⟨"0.5", by decide +kernel⟩

/-- The objects without blanks, in which every float is 0.5. -/
def compactModels : ModelSerializer where
  text _ := halfSecond
  stepLatencyMs _ _ := halfSecond
  modelDumpJson chunk latency := Json.compact.write 0 (chunk.fields (fun _ => halfSecond) latency)
  isObject _ _ := ⟨_, rfl⟩
  isOneLine chunk latency :=
    oneLine_of_notBreak (Json.compact_oneLine.write 0 _ (readable_fields _ latency chunk))
  loads chunk latency := by
    have hreadable := readable_fields (fun _ => halfSecond) latency chunk
    have hskip := Json.skip_write Json.compact hreadable 0 []
    rw [List.append_nil] at hskip
    exact Json.loads_write Json.compact hreadable hskip

def readStream : List Action :=
  [.receive 0 (Server.oneToken false) 0, .receive 1 (Server.oneToken true) 1] ++
    (List.replicate 9 [Action.run 0 none, Action.run 1 none]).flatten.dropLast

theorem decode_yields_readStream :
    ∃ s, exec (step compactModels) (start none) readStream = some s ∧
      ∃ c, s.server.calls.lookup 1 = some c ∧ c.phase = .ended .streamed ∧
        ∃ k ≤ c.req.totalSteps, ∃ failure : Option String,
          (decode (s.yields 1)).length = k + failure.toList.length ∧
            (failure = none → k = c.req.totalSteps) := by
  refine exec_exists (P := fun s => ∃ c ∈ s.server.calls.lookup 1, c.phase = .ended .streamed)
    (by decide +kernel) ?_
  rintro s hrun ⟨c, hcall, hphase⟩
  obtain ⟨k, hk, failure, hdecode, hstreamed, -⟩ := decode_yields hrun hcall
  refine ⟨c, hcall, hphase, k, hk, failure, ?_, hstreamed hphase⟩
  rw [hdecode]
  simp

end WireServer
end Runs
end CudaForge.Serving
