import CudaForge.Tracking.ArtifactStore

/-! The experiment logger: runs as contexts, and the manifest that is written at the end of each. -/
namespace CudaForge.Tracking

section Environment

structure GitEnvironmentState where
  commitHash : String
  branchName : String
  isDirty : Bool
  commitTimestamp : String

structure HardwareEnvironmentState where
  platform : String
  pythonVersion : String
  torchVersion : String
  cudaVersion : Option String
  cudnnVersion : Option ℤ
  gpuDeviceName : String
  gpuCount : ℕ
  /-- The text of a float. -/
  totalVramGb : String
  cpuCount : ℕ

def GitEnvironmentState.toDict (state : GitEnvironmentState) : PyData :=
  .dict
    [("commit_hash", .str state.commitHash),
      ("branch_name", .str state.branchName),
      ("is_dirty", .bool state.isDirty),
      ("commit_timestamp", .str state.commitTimestamp)]

def HardwareEnvironmentState.toDict (state : HardwareEnvironmentState) : PyData :=
  .dict
    [("platform", .str state.platform),
      ("python_version", .str state.pythonVersion),
      ("torch_version", .str state.torchVersion),
      ("cuda_version", (state.cudaVersion.map PyData.str).getD .none),
      ("cudnn_version", (state.cudnnVersion.map PyData.int).getD .none),
      ("gpu_device_name", .str state.gpuDeviceName),
      ("gpu_count", .int state.gpuCount),
      ("total_vram_gb", .float state.totalVramGb),
      ("cpu_count", .int state.cpuCount)]

/-- `checkOutput` gives the stripped output of a git command, or `none` where the call raises. -/
def captureGitState (checkOutput : List String → Option String) : GitEnvironmentState :=
  let state : Option GitEnvironmentState := do
    let commitHash ← checkOutput ["git", "rev-parse", "HEAD"]
    let branchName ← checkOutput ["git", "rev-parse", "--abbrev-ref", "HEAD"]
    let dirtyCheck ← checkOutput ["git", "status", "--porcelain"]
    let commitTime ← checkOutput ["git", "log", "-1", "--format=%cd", "--date=iso"]
    return ⟨commitHash, branchName, 0 < dirtyCheck.length, commitTime⟩
  state.getD ⟨"UNKNOWN", "UNKNOWN", true, "UNKNOWN"⟩

end Environment

section Record

inductive RunStatus where
  | running
  | success
  | failed
  deriving DecidableEq

def RunStatus.text : RunStatus → String
  | .running => "RUNNING"
  | .success => "SUCCESS"
  | .failed => "FAILED"

structure ExperimentRunRecord where
  runId : String
  experimentName : String
  seed : ℤ
  status : RunStatus
  startTime : String
  endTime : Option String
  gitState : Option GitEnvironmentState
  hardwareState : Option HardwareEnvironmentState
  parameters : PyDict
  metrics : PyDict
  artifacts : List ArtifactManifest
  errorLog : Option String

inductive Ending where
  | returns
  /-- By a subclass of `Exception`, with its text. -/
  | exception (detail : String)
  /-- By `KeyboardInterrupt` or another class that is not below `Exception`. -/
  | baseException
  deriving DecidableEq

namespace ExperimentRunRecord
variable (run : ExperimentRunRecord)

def toDict : PyDict :=
  [("run_id", .str run.runId),
    ("experiment_name", .str run.experimentName),
    ("seed", .int run.seed),
    ("status", .str run.status.text),
    ("start_time", .str run.startTime),
    ("end_time", (run.endTime.map PyData.str).getD .none),
    ("git_state", (run.gitState.map GitEnvironmentState.toDict).getD .none),
    ("hardware_state", (run.hardwareState.map HardwareEnvironmentState.toDict).getD .none),
    ("parameters", .dict run.parameters),
    ("metrics", .dict run.metrics),
    ("artifacts", .list (run.artifacts.map ArtifactManifest.toDict)),
    ("error_log", (run.errorLog.map PyData.str).getD .none)]

/-- The record after the end of the body and the first line of `finally`. -/
def finish (ending : Ending) (now : UtcTime) : ExperimentRunRecord :=
  let ended := { run with endTime := some now.isoformat }
  match ending with
  | .returns => { ended with status := .success }
  | .exception detail => { ended with status := .failed, errorLog := some detail }
  | .baseException => ended

theorem serializable_artifact (manifest : ArtifactManifest) :
    manifest.toDict.serializable = true := rfl

theorem serializable_option (value : Option String) :
    ((value.map PyData.str).getD .none).serializable = true := by
  cases value <;> rfl

theorem serializable_git (state : Option GitEnvironmentState) :
    ((state.map GitEnvironmentState.toDict).getD .none).serializable = true := by
  cases state <;> rfl

theorem serializable_hardware (state : Option HardwareEnvironmentState) :
    ((state.map HardwareEnvironmentState.toDict).getD .none).serializable = true := by
  cases state with
  | none => rfl
  | some state =>
    obtain ⟨_, _, _, cuda, cudnn, _, _, _, _⟩ := state
    cases cuda <;> cases cudnn <;> rfl

/-- Only the logged dictionaries can hold what `json.dump` refuses. -/
theorem complete_toDict : (ArtifactStore.jsonContent run.toDict).complete =
    ((PyData.dict run.parameters).serializable && (PyData.dict run.metrics).serializable) := by
  have hartifacts :
      (PyData.list (run.artifacts.map ArtifactManifest.toDict)).serializable = true := by
    unfold PyData.serializable
    rw [PyData.allItems_iff]
    intro item hitem
    obtain ⟨manifest, -, rfl⟩ := List.mem_map.mp hitem
    exact serializable_artifact manifest
  refine (PyData.complete_dump _).trans ?_
  unfold PyData.serializable toDict
  simp only [PyData.allEntries, PyData.entrySerializable, hartifacts, serializable_option,
    serializable_git, serializable_hardware, Bool.and_true]
  rfl

end ExperimentRunRecord
end Record

structure ExperimentLogger where
  experimentName : String
  currentRun : Option ExperimentRunRecord
  /-- The contexts that are entered and not left. -/
  openRuns : ℕ

/-- A call of the logger, with the readings of the clock and of the environment that it takes. -/
inductive LoggerCall where
  | startRun (runName : Option String) (seed : ℤ) (now startTime : UtcTime)
      (checkOutput : List String → Option String) (hardware : HardwareEnvironmentState)
  | logParameters (params : PyDict)
  | logMetrics (metrics : PyDict)
  | logArtifact (sourcePath : PurePath) (contentType : String) (now : UtcTime)
  /-- The end of the innermost context. -/
  | exitRun (ending : Ending) (endTime now : UtcTime)

namespace ExperimentLogger
variable (store : ArtifactStore) (logger : ExperimentLogger) (files : FileTree)

/-- `f"{prefix}_{timestamp}_{seed}"` -/
def runId (runName : Option String) (seed : ℤ) (now : UtcTime) : String :=
  let name := runName.getD ""
  (if name = "" then "run" else name) ++ "_" ++ now.timestamp ++ "_" ++ toString seed

/-- The range of `np.random.seed`. -/
def seedAccepted (seed : ℤ) : Bool := 0 ≤ seed && seed < 2 ^ 32

def newRun (experimentName : String) (runName : Option String) (seed : ℤ) (now startTime : UtcTime)
    (checkOutput : List String → Option String) (hardware : HardwareEnvironmentState) :
    ExperimentRunRecord where
  runId := runId runName seed now
  experimentName := experimentName
  seed := seed
  status := .running
  startTime := startTime.isoformat
  endTime := none
  gitState := some (captureGitState checkOutput)
  hardwareState := some hardware
  parameters := []
  metrics := []
  artifacts := []
  errorLog := none

def startRun (runName : Option String) (seed : ℤ) (now startTime : UtcTime)
    (checkOutput : List String → Option String) (hardware : HardwareEnvironmentState) :
    Except Raised ExperimentLogger :=
  if seedAccepted seed then
    .ok
      { logger with
        currentRun :=
          some (newRun logger.experimentName runName seed now startTime checkOutput hardware)
        openRuns := logger.openRuns + 1 }
  else .error .valueError

/-- `if self.current_run is None` of the three `log_` calls. -/
def activeRun (what : String) : Except Raised ExperimentRunRecord :=
  match logger.currentRun with
  | none =>
    .error (.runtimeError ("No active run. Call start_run() before logging " ++ what ++ "."))
  | some run => .ok run

def withRun (run : ExperimentRunRecord) : ExperimentLogger :=
  { logger with currentRun := some run }

def logParameters (params : PyDict) : Except Raised ExperimentLogger :=
  (logger.activeRun "parameters").map fun run =>
    logger.withRun { run with parameters := PyDict.update run.parameters params }

def logMetrics (metrics : PyDict) : Except Raised ExperimentLogger :=
  (logger.activeRun "metrics").map fun run =>
    logger.withRun { run with metrics := PyDict.update run.metrics metrics }

structure Result where
  files : FileTree
  logger : ExperimentLogger
  returned : Except Raised (Option ArtifactManifest)

def logArtifact (sourcePath : PurePath) (contentType : String) (now : UtcTime) : Result :=
  match logger.activeRun "artifacts" with
  | .error raised => ⟨files, logger, .error raised⟩
  | .ok run =>
    let stored := store.storeFile files sourcePath run.runId contentType now
    match stored.2 with
    | .error raised => ⟨stored.1, logger, .error raised⟩
    | .ok manifest =>
      ⟨stored.1, logger.withRun { run with artifacts := run.artifacts ++ [manifest] },
        .ok (some manifest)⟩

def flushRunManifest (run : ExperimentRunRecord) (now : UtcTime) :
    FileTree × Except Raised ArtifactManifest :=
  store.storeJson files run.toDict run.runId "run_manifest.json" now

def exitRun (ending : Ending) (endTime now : UtcTime) : Option Result :=
  if logger.openRuns = 0 then none
  else logger.currentRun.map fun run =>
    let flushed := flushRunManifest store files (run.finish ending endTime) now
    { files := flushed.1
      logger :=
        { logger with
          currentRun := some (run.finish ending endTime)
          openRuns := logger.openRuns - 1 }
      returned := flushed.2.map some }

def quiet (result : Except Raised ExperimentLogger) : Result :=
  match result with
  | .error raised => ⟨files, logger, .error raised⟩
  | .ok logger' => ⟨files, logger', .ok none⟩

def call : LoggerCall → Option Result
  | .startRun runName seed now startTime checkOutput hardware =>
    some (logger.quiet files (logger.startRun runName seed now startTime checkOutput hardware))
  | .logParameters params => some (logger.quiet files (logger.logParameters params))
  | .logMetrics metrics => some (logger.quiet files (logger.logMetrics metrics))
  | .logArtifact sourcePath contentType now =>
    some (logger.logArtifact store files sourcePath contentType now)
  | .exitRun ending endTime now => logger.exitRun store files ending endTime now

end ExperimentLogger
end CudaForge.Tracking
