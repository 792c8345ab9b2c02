import CudaForge.Library.Transition
import CudaForge.Tracking.ExperimentLogger

/-!
The manifests that the store has returned, over runs of calls of the store and of loggers that
write into it. They keep describing the store exactly when no call leaves other contents at the
place of an earlier manifest.
-/
namespace CudaForge.Tracking
open Transition

structure StoreState where
  files : FileTree
  loggers : ℕ → ExperimentLogger
  /-- Every manifest that a call has returned, also to the logger itself. -/
  returned : List ArtifactManifest

inductive StoreCall (Tensor : Type*) where
  /-- A node is made, changed or deleted by someone else. -/
  | changeNode (p : Location) (node : Option Node)
  | storeFile (sourcePath : PurePath) (runId contentType : String) (now : UtcTime)
  | storeJson (data : PyDict) (runId filename : String) (now : UtcTime)
  | storePtTensor (tensor : Tensor) (runId filename : String) (now : UtcTime)
  | logger (i : ℕ) (call : LoggerCall)

namespace StoreState
variable {Tensor : Type*} (store : ArtifactStore) (save : Tensor → Bytes)

def start (files : FileTree) (experimentName : ℕ → String) : StoreState where
  files := files
  loggers i := ⟨experimentName i, none, 0⟩
  returned := []

def stored (s : StoreState) (r : FileTree × Except Raised ArtifactManifest) : StoreState :=
  { s with files := r.1, returned := s.returned ++ r.2.toOption.toList }

def logged (s : StoreState) (i : ℕ) (r : ExperimentLogger.Result) : StoreState where
  files := r.files
  loggers := Function.update s.loggers i r.logger
  returned := s.returned ++ r.returned.toOption.join.toList

def step (s : StoreState) : StoreCall Tensor → Option StoreState
  | .changeNode p node => some { s with files := Function.update s.files p node }
  | .storeFile sourcePath runId contentType now =>
    some (s.stored (store.storeFile s.files sourcePath runId contentType now))
  | .storeJson data runId filename now =>
    some (s.stored (store.storeJson s.files data runId filename now))
  | .storePtTensor tensor runId filename now =>
    some (s.stored (store.storePtTensor save s.files tensor runId filename now))
  | .logger i call => ((s.loggers i).call store s.files call).map (s.logged i)

section Writes

def flushWrites (files : FileTree) (run : ExperimentRunRecord) : List (Location × Option Bytes) :=
  store.contentWrites files (ArtifactStore.jsonContent run.toDict) run.runId "run_manifest.json"

def loggerWrites (logger : ExperimentLogger) (files : FileTree) :
    LoggerCall → List (Location × Option Bytes)
  | .logArtifact sourcePath _ _ =>
    match logger.currentRun with
    | none => []
    | some run => store.fileWrites files sourcePath run.runId
  | .exitRun ending endTime _ =>
    match logger.currentRun with
    | none => []
    | some run => flushWrites store files (run.finish ending endTime)
  | _ => []

def writes (s : StoreState) : StoreCall Tensor → List (Location × Option Bytes)
  | .changeNode p node => [(p, Node.bytes node)]
  | .storeFile sourcePath runId _ _ => store.fileWrites s.files sourcePath runId
  | .storeJson data runId filename _ =>
    store.contentWrites s.files (ArtifactStore.jsonContent data) runId filename
  | .storePtTensor tensor runId filename _ =>
    store.contentWrites s.files (ArtifactStore.ptContent (save tensor)) runId filename
  | .logger i call => loggerWrites store (s.loggers i) s.files call

end Writes

/-- Every manifest describes the contents of its place. -/
def Consistent (s : StoreState) : Prop :=
  ∀ m ∈ s.returned, m.Describes (s.files.contents (store.locate m))

/-- What the call leaves at the place of an earlier manifest has the hash and the size of it. -/
def Compatible (s : StoreState) (call : StoreCall Tensor) : Prop :=
  ∀ m ∈ s.returned, ∀ w ∈ s.writes store save call, w.1 = store.locate m → m.Describes w.2

instance (s : StoreState) : Decidable (s.Consistent store) :=
  inferInstanceAs (Decidable (∀ m ∈ s.returned, _))

instance (s : StoreState) (call : StoreCall Tensor) : Decidable (s.Compatible store save call) :=
  inferInstanceAs (Decidable (∀ m ∈ s.returned, ∀ w ∈ s.writes store save call, _ → _))

section Steps
variable {store} {save}

theorem quiet_stores (logger : ExperimentLogger) (files : FileTree)
    (result : Except Raised ExperimentLogger) :
    let r := logger.quiet files result
    store.Stores files r.files [] r.returned.toOption.join.toList := by
  cases result <;> exact ArtifactStore.Stores.quiet files

theorem call_stores {logger : ExperimentLogger} {files : FileTree} {call : LoggerCall}
    {r : ExperimentLogger.Result} (h : logger.call store files call = some r) :
    store.Stores files r.files (loggerWrites store logger files call)
      r.returned.toOption.join.toList := by
  cases call with
  | startRun runName seed now startTime checkOutput hardware =>
    cases h
    exact quiet_stores logger files _
  | logParameters params =>
    cases h
    exact quiet_stores logger files _
  | logMetrics metrics =>
    cases h
    exact quiet_stores logger files _
  | logArtifact sourcePath contentType now =>
    cases h
    unfold ExperimentLogger.logArtifact ExperimentLogger.activeRun loggerWrites
    cases logger.currentRun with
    | none => exact ArtifactStore.Stores.quiet files
    | some run =>
      have hstores := ArtifactStore.storeFile_stores store files sourcePath run.runId
        contentType now
      dsimp only at hstores ⊢
      cases hresult : (store.storeFile files sourcePath run.runId contentType now).2 with
      | error raised =>
        rw [hresult] at hstores
        exact hstores
      | ok manifest =>
        rw [hresult] at hstores
        exact hstores
  | exitRun ending endTime now =>
    obtain ⟨-, h⟩ := Option.ite_none_left_eq_some.mp h
    obtain ⟨run, hrun, rfl⟩ := Option.map_eq_some_iff.mp h
    have hstores := ArtifactStore.storeContent_stores store files
      (ArtifactStore.jsonContent (run.finish ending endTime).toDict)
      (run.finish ending endTime).runId "run_manifest.json" now
    unfold loggerWrites
    rw [hrun]
    have hjoin : ∀ flushed : Except Raised ArtifactManifest,
        (flushed.map some).toOption.join = flushed.toOption := by
      intro flushed
      cases flushed <;> rfl
    dsimp only at hstores ⊢
    rw [hjoin]
    exact hstores

/-- One call: what it leaves in the files, and the manifests that it adds. -/
theorem step_stores {s s' : StoreState} {call : StoreCall Tensor}
    (h : s.step store save call = some s') :
    ∃ ms, s'.returned = s.returned ++ ms ∧
      store.Stores s.files s'.files (s.writes store save call) ms := by
  cases call with
  | changeNode p node =>
    cases h
    exact ⟨[], (List.append_nil _).symm,
      ArtifactStore.Stores.of_writes (FileTree.writes_update node)⟩
  | storeFile sourcePath runId contentType now =>
    cases h
    exact ⟨_, rfl, ArtifactStore.storeFile_stores _ _ _ _ _ _⟩
  | storeJson data runId filename now =>
    cases h
    exact ⟨_, rfl, ArtifactStore.storeContent_stores _ _ _ _ _ _⟩
  | storePtTensor tensor runId filename now =>
    cases h
    exact ⟨_, rfl, ArtifactStore.storeContent_stores _ _ _ _ _ _⟩
  | logger i call =>
    obtain ⟨r, hr, rfl⟩ := Option.map_eq_some_iff.mp h
    exact ⟨_, rfl, call_stores hr⟩

theorem Consistent.step {s s' : StoreState} {call : StoreCall Tensor} (h : s.Consistent store)
    (hcompatible : s.Compatible store save call) (hstep : s.step store save call = some s') :
    s'.Consistent store := by
  obtain ⟨ms, hreturned, hstores⟩ := step_stores hstep
  intro m hm
  rw [hreturned] at hm
  rcases List.mem_append.mp hm with hold | hnew
  · rcases hstores.writes.contents_cases (store.locate m) with hkept | hwritten
    · rw [hkept]
      exact h m hold
    · exact hcompatible m hold _ hwritten rfl
  · exact hstores.describes m hnew

theorem compatible_of_consistent {s s' : StoreState} {call : StoreCall Tensor}
    (hstep : s.step store save call = some s') (h : s'.Consistent store) :
    s.Compatible store save call := by
  obtain ⟨ms, hreturned, hstores⟩ := step_stores hstep
  intro m hm w hw hplace
  rw [← hstores.writes.written w hw, hplace]
  exact h m (hreturned ▸ List.mem_append_left ms hm)

/-- Every manifest ever returned describes its file, all along a run, exactly when no call leaves
other contents in the place of an earlier manifest. -/
theorem manifests_describe_iff {files : FileTree} {experimentName : ℕ → String}
    {calls : List (StoreCall Tensor)} {t : StoreState}
    (hrun : exec (step store save) (start files experimentName) calls = some t) :
    (∀ pre, pre <+: calls → ∀ s, exec (step store save) (start files experimentName) pre = some s →
      s.Consistent store) ↔
      AllSteps (step store save) (Compatible store save) (start files experimentName) calls :=
  always_iff_allSteps (fun _ h => h) (fun _ _ _ h hc hstep => h.step hc hstep)
    (fun _ _ _ _ hstep h => compatible_of_consistent hstep h)
    (fun _ hm => absurd hm List.not_mem_nil) hrun

end Steps

section Runs

def localStore : ArtifactStore := ⟨["store"], []⟩

def noon : UtcTime := ⟨2024, 1, 1, 12, 0, 0, 0, by decide, by decide⟩

def cpuOnly : HardwareEnvironmentState :=
  ⟨"Linux", "3.11", "2.4", none, none, "N/A (CPU Only)", 0, "0.0", 1⟩

def bench : StoreState := start (fun _ => none) fun _ => "bench"

def startNoon (i : ℕ) (seed : ℤ) : StoreCall Bytes :=
  .logger i (.startRun none seed noon noon (fun _ => none) cpuOnly)

def exitNoon (i : ℕ) (ending : Ending) : StoreCall Bytes := .logger i (.exitRun ending noon noon)

/-- A source that changes between two copies, a tensor, and a run with the same source. -/
def distinctPlaces : List (StoreCall Bytes) :=
  [.changeNode ["trace.txt"] (some (.file [1])),
    .storeFile (PurePath.parse "trace.txt") "a" "raw" noon,
    .changeNode ["trace.txt"] (some (.file [2, 3])),
    .storeFile (PurePath.parse "trace.txt") "b" "raw" noon,
    .storePtTensor [4] "b" "weights" noon,
    startNoon 0 42, .logger 0 (.logArtifact (PurePath.parse "trace.txt") "text/plain" noon),
    exitNoon 0 .returns]

theorem manifests_describe_distinctPlaces :
    ∃ t, exec (step localStore id) bench distinctPlaces = some t ∧
      ∀ pre, pre <+: distinctPlaces → ∀ s, exec (step localStore id) bench pre = some s →
        s.Consistent localStore := by
  obtain ⟨t, hrun⟩ := Option.isSome_iff_exists.mp
    (by decide +kernel : (exec (step localStore id) bench distinctPlaces).isSome = true)
  exact ⟨t, hrun, (manifests_describe_iff hrun).mpr (by decide +kernel)⟩

def sameName : List (StoreCall Bytes) :=
  [.storeJson [("score", .int 1)] "a" "metrics.json" noon,
    .storeJson [("score", .int 10)] "a" "metrics" noon]

def manifestName : List (StoreCall Bytes) :=
  [.changeNode ["run_manifest.json"] (some (.file [1])), startNoon 0 42,
    .logger 0 (.logArtifact (PurePath.parse "run_manifest.json") "raw" noon), exitNoon 0 .returns]

/-- The manifest of a file that a later call replaces describes it no more. -/
theorem manifests_not_described :
    (∃ t, exec (step localStore id) bench sameName = some t ∧ ¬t.Consistent localStore) ∧
    ∃ t, exec (step localStore id) bench manifestName = some t ∧ ¬t.Consistent localStore := by
  constructor <;>
    exact exec_exists (P := fun t => ¬t.Consistent localStore) (by decide +kernel) fun _ _ h => h

end Runs
end StoreState
end CudaForge.Tracking
