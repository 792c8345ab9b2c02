import CudaForge.Tracking.StoredManifests

/-!
What the manifests of runs record.

Beside the state there is, for one logger, a record of each run that is kept by the run itself: it
takes the calls made inside its own context, and it is concluded when that context ends. Other
calls of the store and other loggers may come in between.
-/
namespace CudaForge.Tracking
open Transition

def Ending.status : Ending → RunStatus
  | .returns => .success
  | _ => .failed

def ExperimentRunRecord.conclude (run : ExperimentRunRecord) (ending : Ending) (endTime : UtcTime) :
    ExperimentRunRecord :=
  { run.finish ending endTime with status := ending.status }

/-- The contexts of one logger, the innermost open one first. -/
structure Session where
  state : StoreState
  opened : List ExperimentRunRecord
  ended : List ExperimentRunRecord

namespace Session

def observe (s : Session) (logger : ExperimentLogger) (state : StoreState) : LoggerCall → Session
  | .startRun runName seed now startTime checkOutput hardware =>
    let run :=
      ExperimentLogger.newRun logger.experimentName runName seed now startTime checkOutput hardware
    ⟨state, if ExperimentLogger.seedAccepted seed then run :: s.opened else s.opened, s.ended⟩
  | .logParameters params =>
    let log (run : ExperimentRunRecord) :=
      { run with parameters := PyDict.update run.parameters params }
    ⟨state, s.opened.modifyHead log, s.ended⟩
  | .logMetrics metrics =>
    let log (run : ExperimentRunRecord) := { run with metrics := PyDict.update run.metrics metrics }
    ⟨state, s.opened.modifyHead log, s.ended⟩
  | .logArtifact _ _ _ =>
    let returned := state.returned.drop s.state.returned.length
    let log (run : ExperimentRunRecord) := { run with artifacts := run.artifacts ++ returned }
    ⟨state, s.opened.modifyHead log, s.ended⟩
  | .exitRun ending endTime _ =>
    match s.opened with
    | [] => ⟨state, [], s.ended⟩
    | run :: opened => ⟨state, opened, s.ended ++ [run.conclude ending endTime]⟩

theorem observe_state (s : Session) (logger : ExperimentLogger) (state : StoreState)
    (call : LoggerCall) : (s.observe logger state call).state = state := by
  cases call with
  | exitRun ending endTime now =>
    unfold observe
    cases s.opened <;> rfl
  | _ => rfl

variable {Tensor : Type*} (store : ArtifactStore) (save : Tensor → Bytes) (i : ℕ)

def start (files : FileTree) (experimentName : ℕ → String) : Session :=
  ⟨StoreState.start files experimentName, [], []⟩

def step (s : Session) (call : StoreCall Tensor) : Option Session :=
  (s.state.step store save call).map fun state =>
    match call with
    | .logger j call =>
      if j = i then s.observe (s.state.loggers j) state call else ⟨state, s.opened, s.ended⟩
    | _ => ⟨state, s.opened, s.ended⟩

section Statements

/-- `store_root / run_id / "run_manifest.json"` -/
def manifestPath (runId : String) : PurePath :=
  (store.runDir runId).join (PurePath.parse "run_manifest.json")

def place (runId : String) : Location := (manifestPath store runId).resolve store.cwd

/-- The store holds the complete manifest of a run. -/
def Recorded (files : FileTree) (run : ExperimentRunRecord) : Prop :=
  store.storeRoot <+: place store run.runId ∧
    files.contents (place store run.runId) = some (ArtifactStore.jsonContent run.toDict).bytes ∧
    (ArtifactStore.jsonContent run.toDict).complete = true

/-- Every run that has ended is recorded as itself. -/
def AllRecorded (s : Session) : Prop := ∀ run ∈ s.ended, Recorded store s.state.files run

def Writable (files : FileTree) (runId : String) : Prop :=
  (store.mkdir files runId).2 = true ∧
    (store.mkdir files runId).1.opens store.cwd (manifestPath store runId) = true ∧
    store.storeRoot <+: place store runId

def RegularCall (s : Session) (logger : ExperimentLogger) : LoggerCall → Prop
  | .startRun _ seed _ _ _ _ => ExperimentLogger.seedAccepted seed = true → s.opened = []
  | .exitRun ending _ _ =>
    ending ≠ .baseException ∧
      ∀ run ∈ logger.currentRun,
        ((PyData.dict run.parameters).serializable && (PyData.dict run.metrics).serializable) =
          true ∧ Writable store s.state.files run.runId
  | _ => True

/-- The call leaves the manifests of the ended runs as they are. Runs do not nest, they end by no
exception beyond `Exception`, and their manifests can be written. -/
def Regular (s : Session) (call : StoreCall Tensor) : Prop :=
  (∀ run ∈ s.ended, ∀ w ∈ s.state.writes store save call,
    w.1 = place store run.runId → w.2 = s.state.files.contents w.1) ∧
  match call with
  | .logger j call => j = i → RegularCall store s (s.state.loggers i) call
  | _ => True

instance (files : FileTree) (run : ExperimentRunRecord) : Decidable (Recorded store files run) :=
  inferInstanceAs (Decidable (_ ∧ _ ∧ _))

instance (s : Session) : Decidable (s.AllRecorded store) :=
  inferInstanceAs (Decidable (∀ run ∈ s.ended, _))

instance (files : FileTree) (runId : String) : Decidable (Writable store files runId) :=
  inferInstanceAs (Decidable (_ ∧ _ ∧ _))

instance (s : Session) (logger : ExperimentLogger) :
    ∀ call, Decidable (RegularCall store s logger call)
  | .startRun _ seed _ _ _ _ =>
    inferInstanceAs (Decidable (ExperimentLogger.seedAccepted seed = true → s.opened = []))
  | .exitRun ending _ _ => inferInstanceAs (Decidable (ending ≠ _ ∧ ∀ run ∈ logger.currentRun, _))
  | .logParameters _ | .logMetrics _ | .logArtifact _ _ _ => isTrue trivial

instance (s : Session) : ∀ call, Decidable (s.Regular store save i call)
  | .logger j call =>
    inferInstanceAs (Decidable (_ ∧ (j = i → RegularCall store s (s.state.loggers i) call)))
  | .changeNode _ _ | .storeFile _ _ _ _ | .storeJson _ _ _ _ | .storePtTensor _ _ _ _ =>
    inferInstanceAs (Decidable (_ ∧ True))

end Statements

section Flush
variable {store}

theorem targetPath_manifest (data : PyDict) (runId : String) :
    store.targetPath (ArtifactStore.jsonContent data) runId "run_manifest.json" =
      manifestPath store runId := by
  have hsuffix : ".json".toList <:+ "run_manifest.json".toList := by decide
  unfold ArtifactStore.targetPath manifestPath
  rw [ArtifactStore.jsonContent, if_pos hsuffix]

/-- A flush that can write leaves the manifest of the record. -/
theorem mem_flushWrites {files : FileTree} {run : ExperimentRunRecord}
    (h : Writable store files run.runId) :
    (place store run.runId, some (ArtifactStore.jsonContent run.toDict).bytes) ∈
      StoreState.flushWrites store files run := by
  unfold StoreState.flushWrites ArtifactStore.contentWrites
  rw [targetPath_manifest]
  dsimp only
  rw [if_pos ⟨h.1, h.2.1⟩]
  exact List.mem_cons_self

end Flush

section Finish

theorem finish_runId (run : ExperimentRunRecord) (ending : Ending) (now : UtcTime) :
    (run.finish ending now).runId = run.runId := by
  cases ending <;> rfl

/-- Below `Exception` the logger concludes the record as the run does. -/
theorem finish_eq_conclude (run : ExperimentRunRecord) {ending : Ending} (endTime : UtcTime)
    (h : ending ≠ .baseException) : run.finish ending endTime = run.conclude ending endTime := by
  cases ending with
  | returns => rfl
  | exception detail => rfl
  | baseException => exact absurd rfl h

end Finish

section Tracking
variable {store} {save} {i}

/-- At most one run is open, and the current record is the record of it. -/
inductive Tracks : List ExperimentRunRecord → ExperimentLogger → Prop
  | idle {logger : ExperimentLogger} (hopen : logger.openRuns = 0) : Tracks [] logger
  | active {logger : ExperimentLogger} {run : ExperimentRunRecord} (hopen : logger.openRuns = 1)
      (hcurrent : logger.currentRun = some run) : Tracks [run] logger

/-- A call that keeps the contexts and brings the current record up to date. -/
theorem Tracks.modify {opened : List ExperimentRunRecord} {logger logger' : ExperimentLogger}
    {log : ExperimentRunRecord → ExperimentRunRecord} (h : Tracks opened logger)
    (hopen : logger'.openRuns = logger.openRuns)
    (hcurrent : ∀ run, logger.currentRun = some run → logger'.currentRun = some (log run)) :
    Tracks (opened.modifyHead log) logger' := by
  cases h with
  | idle hidle => exact .idle (hopen.trans hidle)
  | active hactive hrun => exact .active (hopen.trans hactive) (hcurrent _ hrun)

theorem Tracks.startRun {opened : List ExperimentRunRecord} {logger : ExperimentLogger} {seed : ℤ}
    (h : Tracks opened logger) (files : FileTree) (runName : Option String)
    (now startTime : UtcTime) (checkOutput : List String → Option String)
    (hardware : HardwareEnvironmentState)
    (hopened : ExperimentLogger.seedAccepted seed = true → opened = []) :
    Tracks
      (if ExperimentLogger.seedAccepted seed then
        ExperimentLogger.newRun logger.experimentName runName seed now startTime checkOutput
          hardware :: opened
      else opened)
      (logger.quiet files
        (logger.startRun runName seed now startTime checkOutput hardware)).logger := by
  unfold ExperimentLogger.startRun
  cases hseed : ExperimentLogger.seedAccepted seed with
  | false => exact h
  | true =>
    rw [hopened hseed] at h ⊢
    cases h with
    | idle hopen => exact .active (congrArg (· + 1) hopen) rfl

/-- `log_parameters` and `log_metrics`. -/
theorem Tracks.quiet {opened : List ExperimentRunRecord} {logger : ExperimentLogger}
    (h : Tracks opened logger) (files : FileTree) (what : String)
    (log : ExperimentRunRecord → ExperimentRunRecord) :
    Tracks (opened.modifyHead log)
      (logger.quiet files
        ((logger.activeRun what).map fun run => logger.withRun (log run))).logger := by
  unfold ExperimentLogger.activeRun
  cases hcurrent : logger.currentRun with
  | none =>
    refine h.modify rfl fun run hrun => ?_
    rw [hcurrent] at hrun
    cases hrun
  | some current =>
    refine h.modify rfl fun run hrun => ?_
    cases hcurrent.symm.trans hrun
    rfl

theorem Tracks.logArtifact {s : Session} (h : Tracks s.opened (s.state.loggers i))
    (sourcePath : PurePath) (contentType : String) (now : UtcTime) :
    let r := (s.state.loggers i).logArtifact store s.state.files sourcePath contentType now
    Tracks (s.observe (s.state.loggers i) (s.state.logged i r)
      (.logArtifact sourcePath contentType now)).opened r.logger := by
  intro r
  have hreturned : (s.state.logged i r).returned.drop s.state.returned.length =
      r.returned.toOption.join.toList := List.drop_left
  unfold observe
  dsimp only
  rw [hreturned]
  subst r
  unfold ExperimentLogger.logArtifact ExperimentLogger.activeRun
  cases hcurrent : (s.state.loggers i).currentRun with
  | none =>
    refine h.modify rfl fun run hrun => ?_
    rw [hcurrent] at hrun
    cases hrun
  | some current =>
    dsimp only
    cases (store.storeFile s.state.files sourcePath current.runId contentType now).2 with
    | error raised =>
      refine h.modify rfl fun run hrun => hrun.trans ?_
      rw [Except.toOption, Option.join_none, Option.toList_none, List.append_nil]
    | ok manifest =>
      refine h.modify rfl fun run hrun => ?_
      cases hcurrent.symm.trans hrun
      rfl

/-- The end of a regular context leaves the manifest of the run. -/
theorem recorded_exit {s : Session} {run : ExperimentRunRecord} {ending : Ending}
    {endTime now : UtcTime} {files : FileTree}
    (hregular : RegularCall store s (s.state.loggers i) (.exitRun ending endTime now))
    (hrun : (s.state.loggers i).currentRun = some run)
    (hwrites : s.state.files.Writes files (StoreState.loggerWrites store (s.state.loggers i)
      s.state.files (.exitRun ending endTime now))) :
    Recorded store files (run.conclude ending endTime) := by
  obtain ⟨hending, hruns⟩ := hregular
  obtain ⟨hserializable, hwritable⟩ := hruns run hrun
  rw [← finish_runId run ending endTime] at hwritable
  have hmem := mem_flushWrites hwritable
  unfold StoreState.loggerWrites at hwrites
  rw [hrun] at hwrites
  rw [← finish_eq_conclude run endTime hending]
  refine ⟨hwritable.2.2, hwrites.written _ hmem, ?_⟩
  rw [ExperimentRunRecord.complete_toDict, ← hserializable]
  cases ending <;> rfl

/-- What a call of the logger makes of the contexts. -/
theorem Tracks.call {s : Session} {call : LoggerCall} {r : ExperimentLogger.Result}
    (h : Tracks s.opened (s.state.loggers i))
    (hregular : RegularCall store s (s.state.loggers i) call)
    (hcall : (s.state.loggers i).call store s.state.files call = some r) :
    let s' := s.observe (s.state.loggers i) (s.state.logged i r) call
    Tracks s'.opened r.logger ∧ ∀ run ∈ s'.ended, run ∈ s.ended ∨
      (s.state.files.Writes r.files
          (StoreState.loggerWrites store (s.state.loggers i) s.state.files call) →
        Recorded store r.files run) := by
  cases call with
  | startRun runName seed now startTime checkOutput hardware =>
    cases hcall
    exact ⟨h.startRun _ _ _ _ _ _ hregular, fun run hrun => Or.inl hrun⟩
  | logParameters params =>
    cases hcall
    exact ⟨h.quiet s.state.files "parameters" _, fun run hrun => Or.inl hrun⟩
  | logMetrics metrics =>
    cases hcall
    exact ⟨h.quiet s.state.files "metrics" _, fun run hrun => Or.inl hrun⟩
  | logArtifact sourcePath contentType now =>
    cases hcall
    exact ⟨h.logArtifact sourcePath contentType now, fun run hrun => Or.inl hrun⟩
  | exitRun ending endTime now =>
    obtain ⟨hopened, hcall⟩ := Option.ite_none_left_eq_some.mp hcall
    obtain ⟨current, hcurrent, rfl⟩ := Option.map_eq_some_iff.mp hcall
    unfold observe
    cases hopen : s.opened with
    | nil =>
      rw [hopen] at h
      cases h with
      | idle hidle => exact absurd hidle hopened
    | cons run opened =>
      rw [hopen] at h
      cases h with
      | active hactive hrun =>
        refine ⟨.idle (congrArg (· - 1) hactive), fun e he => ?_⟩
        refine (List.mem_append.mp he).imp id fun he hwrites => ?_
        rw [List.mem_singleton.mp he]
        exact recorded_exit hregular hrun hwrites

end Tracking

section Runs
variable {store} {save} {i}

structure Inv (store : ArtifactStore) (i : ℕ) (s : Session) : Prop where
  recorded : s.AllRecorded store
  tracks : Tracks s.opened (s.state.loggers i)

/-- A regular call leaves the runs recorded that have ended before it. -/
theorem Regular.recorded {s : Session} {call : StoreCall Tensor} {state : StoreState}
    (h : s.Regular store save i call) (hrecorded : s.AllRecorded store)
    (hstate : s.state.step store save call = some state) :
    ∀ run ∈ s.ended, Recorded store state.files run := by
  obtain ⟨ms, -, hstores⟩ := StoreState.step_stores hstate
  intro run hrun
  obtain ⟨hroot, hcontents, hcomplete⟩ := hrecorded run hrun
  refine ⟨hroot, Eq.trans ?_ hcontents, hcomplete⟩
  rcases hstores.writes.contents_cases (place store run.runId) with hkept | hwritten
  · exact hkept
  · exact h.1 run hrun _ hwritten rfl

theorem Inv.step {s s' : Session} {call : StoreCall Tensor} (h : Inv store i s)
    (hregular : s.Regular store save i call) (hstep : s.step store save i call = some s') :
    Inv store i s' := by
  obtain ⟨state, hstate, rfl⟩ := Option.map_eq_some_iff.mp hstep
  have hrecorded := hregular.recorded h.recorded hstate
  cases call with
  | logger j call =>
    obtain ⟨ms, -, hstores⟩ := StoreState.step_stores hstate
    obtain ⟨r, hr, rfl⟩ := Option.map_eq_some_iff.mp hstate
    dsimp only
    split_ifs with hij
    · subst hij
      obtain ⟨htracks, hended⟩ := h.tracks.call (hregular.2 rfl) hr
      refine ⟨fun run hrun => ?_, ?_⟩
      · rw [observe_state]
        rcases hended run hrun with hold | hnew
        · exact hrecorded run hold
        · exact hnew hstores.writes
      · have hlogger : (s.state.logged j r).loggers j = r.logger := Function.update_self _ _ _
        rw [observe_state, hlogger]
        exact htracks
    · refine ⟨hrecorded, ?_⟩
      have hother : (s.state.logged j r).loggers i = s.state.loggers i :=
        Function.update_of_ne (Ne.symm hij) _ _
      exact hother.symm ▸ h.tracks
  | changeNode p node =>
    cases hstate
    exact ⟨hrecorded, h.tracks⟩
  | storeFile sourcePath runId contentType now =>
    cases hstate
    exact ⟨hrecorded, h.tracks⟩
  | storeJson data runId filename now =>
    cases hstate
    exact ⟨hrecorded, h.tracks⟩
  | storePtTensor tensor runId filename now =>
    cases hstate
    exact ⟨hrecorded, h.tracks⟩

/-- In a run of regular calls, every run that has ended is recorded as itself. -/
theorem runs_recorded {files : FileTree} {experimentName : ℕ → String}
    {calls : List (StoreCall Tensor)} {t : Session}
    (hregular : AllSteps (step store save i) (Regular store save i) (start files experimentName)
      calls)
    (hrun : exec (step store save i) (start files experimentName) calls = some t) :
    t.AllRecorded store := by
  have hinv : Inv store i (start files experimentName) :=
    ⟨fun _ he => absurd he List.not_mem_nil, .idle rfl⟩
  exact (exec_invariant (fun _ _ _ h hc hstep => h.step hc hstep) hinv hregular hrun).recorded

/-- Two runs in the same second with different seeds; the second fails. -/
def differentSeeds : List (StoreCall Bytes) :=
  [StoreState.startNoon 0 1, .logger 0 (.logParameters [("batch_size", .int 16)]),
    .changeNode ["trace.txt"] (some (.file [1])),
    .logger 0 (.logArtifact (PurePath.parse "trace.txt") "text/plain" StoreState.noon),
    StoreState.exitNoon 0 .returns, StoreState.startNoon 0 2,
    .logger 0 (.logMetrics [("score", .int 10)]),
    StoreState.exitNoon 0 (.exception "out of memory")]

def bench : Session := start (fun _ => none) fun _ => "bench"

theorem runs_recorded_differentSeeds :
    ∃ t, exec (step StoreState.localStore id 0) bench differentSeeds = some t ∧
      (t.opened.length = 0 ∧ t.ended.length = 2) ∧ t.AllRecorded StoreState.localStore :=
  exec_exists (P := fun t => t.opened.length = 0 ∧ t.ended.length = 2) (by decide +kernel)
    fun _ hrun hlengths => ⟨hlengths, runs_recorded (by decide +kernel) hrun⟩

/-- Two runs in the same second with the same seed; the first fails. -/
def sameSecond : List (StoreCall Bytes) :=
  [StoreState.startNoon 0 42, StoreState.exitNoon 0 (.exception "out of memory"),
    StoreState.startNoon 0 42, StoreState.exitNoon 0 .returns]

def nested : List (StoreCall Bytes) :=
  [StoreState.startNoon 0 1, StoreState.startNoon 0 2, StoreState.exitNoon 0 .returns,
    StoreState.exitNoon 0 .returns]

/-- A run that `KeyboardInterrupt` ends. -/
def interrupted : List (StoreCall Bytes) :=
  [StoreState.startNoon 0 42, StoreState.exitNoon 0 .baseException]

/-- The manifest of a run is replaced, is never written, or says that the run goes on. -/
theorem runs_not_recorded :
    (∃ t, exec (step StoreState.localStore id 0) bench sameSecond = some t ∧
      t.opened.length = 0 ∧ ¬t.AllRecorded StoreState.localStore) ∧
    (∃ t, exec (step StoreState.localStore id 0) bench nested = some t ∧
      t.opened.length = 0 ∧ ¬t.AllRecorded StoreState.localStore) ∧
    ∃ t, exec (step StoreState.localStore id 0) bench interrupted = some t ∧
      t.opened.length = 0 ∧ ¬t.AllRecorded StoreState.localStore := by
  refine ⟨?_, ?_, ?_⟩ <;>
    exact exec_exists
      (P := fun t => t.opened.length = 0 ∧ ¬t.AllRecorded StoreState.localStore)
      (by decide +kernel) fun _ _ h => h

end Runs
end Session
end CudaForge.Tracking
