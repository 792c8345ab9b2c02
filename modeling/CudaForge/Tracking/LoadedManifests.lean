import CudaForge.Library.JsonWriter
import CudaForge.Tracking.RunRecords

/-! What `json.load` makes of the manifests of runs. -/
namespace CudaForge.Tracking
open Transition

section Files

/-- `json.load` of a file. One with bytes beyond ASCII, which no writer of the store makes, is left
out. -/
def loadJson (bytes : Bytes) : Option PyData :=
  if bytes.all (· < 128) then Json.loads (bytes.map fun b => Char.ofNat b.toNat) else none

def ascii (c : Char) : Bool := decide (c.toNat < 128)

theorem ascii_of_printable {c : Char} (h : Json.printable c = true) : ascii c = true :=
  decide_eq_true ((of_decide_eq_true h).2.trans_lt (by decide))

theorem indentTwo_ascii : Json.indentTwo.KeepsTo ascii where
  printable _ := ascii_of_printable
  before level _ := by simp [Json.indentTwo, PyData.newline, ascii]
  after level := by simp [Json.indentTwo, PyData.newline, ascii]
  colon := rfl
  escape c := List.all_eq_true.mpr fun d hd =>
    ascii_of_printable (List.all_eq_true.mp (Json.printable_escapeChar c) d hd)

/-- What was written of a dict of readable values loads as that dict. -/
theorem loadJson_jsonContent {data : PyDict} (h : Json.readable (.dict data) = true) :
    loadJson (ArtifactStore.jsonContent data).bytes = some (.dict data) := by
  have hascii : ∀ c ∈ (PyData.dump (.dict data)).text, c.toNat < 128 := by
    rw [PyData.dump, Json.text_dumpAt 0 _ (Json.serializable_of_readable _ h)]
    exact fun c hc => of_decide_eq_true (List.all_eq_true.mp (indentTwo_ascii.write 0 _ h) c hc)
  have hbyte : ∀ c ∈ (PyData.dump (.dict data)).text, (UInt8.ofNat c.toNat).toNat = c.toNat :=
    fun c hc => UInt8.toNat_ofNat_of_lt' ((hascii c hc).trans (by decide))
  have hall : (ArtifactStore.jsonContent data).bytes.all (· < 128) = true := by
    simp only [ArtifactStore.jsonContent, List.all_map, List.all_eq_true, Function.comp_apply,
      decide_eq_true_eq]
    intro c hc
    rw [UInt8.lt_iff_toNat_lt, hbyte c hc]
    exact hascii c hc
  have htext : (ArtifactStore.jsonContent data).bytes.map (fun b => Char.ofNat b.toNat) =
      (PyData.dump (.dict data)).text := by
    simp only [ArtifactStore.jsonContent, List.map_map]
    refine (List.map_congr_left fun c hc => ?_).trans (List.map_id _)
    rw [Function.comp_apply, hbyte c hc, Char.ofNat_toNat, id]
  unfold loadJson
  rw [if_pos hall, htext, Json.loads_dump h]

end Files

section Dicts

theorem readableEntries_iff (entries : PyDict) :
    Json.readableEntries entries = true ↔ ∀ e ∈ entries, Json.readable e.2 = true := by
  induction entries with
  | nil => exact iff_of_true rfl fun _ h => absurd h List.not_mem_nil
  | cons e entries ih =>
    rw [Json.readableEntries, Bool.and_eq_true, ih, List.forall_mem_cons, Json.readableEntry.eq_def]

theorem readable_dict (d : PyDict) : Json.readable (.dict d) = true ↔
    (d.map Prod.fst).Nodup ∧ ∀ e ∈ d, Json.readable e.2 = true := by
  rw [Json.readable, Bool.and_eq_true, decide_eq_true_eq, readableEntries_iff]

theorem mem_set {d : PyDict} {key : String} {value : PyData} {e : String × PyData}
    (h : e ∈ PyDict.set d key value) : e = (key, value) ∨ e ∈ d := by
  induction d with
  | nil => exact Or.inl (List.mem_singleton.mp h)
  | cons f d ih =>
    unfold PyDict.set at h
    split_ifs at h with hkey
    · rcases List.mem_cons.mp h with rfl | h
      · exact Or.inl (hkey ▸ rfl)
      · exact Or.inr (List.mem_cons_of_mem _ h)
    · rcases List.mem_cons.mp h with rfl | h
      · exact Or.inr (List.mem_cons_self ..)
      · exact (ih h).imp id (List.mem_cons_of_mem _)

theorem readable_set {d : PyDict} {key : String} {value : PyData}
    (hd : Json.readable (.dict d) = true) (hvalue : Json.readable value = true) :
    Json.readable (.dict (PyDict.set d key value)) = true := by
  rw [readable_dict] at hd ⊢
  constructor
  · replace hd := hd.1
    induction d with
    | nil => simp [PyDict.set]
    | cons f d ih =>
      rw [List.map_cons, List.nodup_cons] at hd
      unfold PyDict.set
      split_ifs with hkey
      · exact List.nodup_cons.mpr hd
      · refine List.nodup_cons.mpr ⟨fun hmem => ?_, ih hd.2⟩
        obtain ⟨e, he, hfst⟩ := List.mem_map.mp hmem
        rcases mem_set he with rfl | he
        · exact hkey hfst.symm
        · exact hd.1 (List.mem_map.mpr ⟨e, he, hfst⟩)
  · intro e he
    rcases mem_set he with rfl | he
    · exact hvalue
    · exact hd.2 e he

theorem readable_update {d other : PyDict} (hd : Json.readable (.dict d) = true)
    (hother : Json.readable (.dict other) = true) :
    Json.readable (.dict (PyDict.update d other)) = true := by
  replace hother := ((readable_dict other).mp hother).2
  induction other generalizing d with
  | nil => exact hd
  | cons e other ih =>
    rw [List.forall_mem_cons] at hother
    exact ih (readable_set hd hother.1) hother.2

end Dicts

section Records

structure ExperimentRunRecord.Readable (run : ExperimentRunRecord) : Prop where
  parameters : Json.readable (.dict run.parameters) = true
  metrics : Json.readable (.dict run.metrics) = true
  hardware : ∀ state ∈ run.hardwareState, Json.isFloat state.totalVramGb = true

/-- The values that the logger takes: dicts with different keys, and floats by their texts. -/
def LoggerCall.Readable : LoggerCall → Prop
  | .startRun _ _ _ _ _ hardware => Json.isFloat hardware.totalVramGb = true
  | .logParameters params => Json.readable (.dict params) = true
  | .logMetrics metrics => Json.readable (.dict metrics) = true
  | .logArtifact _ _ _ | .exitRun _ _ _ => True

instance : ∀ call : LoggerCall, Decidable call.Readable
  | .startRun _ _ _ _ _ hardware => show Decidable (Json.isFloat hardware.totalVramGb = true) from
    inferInstance
  | .logParameters params => show Decidable (Json.readable (.dict params) = true) from inferInstance
  | .logMetrics metrics => show Decidable (Json.readable (.dict metrics) = true) from inferInstance
  | .logArtifact _ _ _ | .exitRun _ _ _ => isTrue trivial

theorem readable_option (value : Option String) :
    Json.readable ((value.map PyData.str).getD .none) = true := by
  cases value <;> rfl

theorem readable_git (state : Option GitEnvironmentState) :
    Json.readable ((state.map GitEnvironmentState.toDict).getD .none) = true := by
  cases state with
  | none => rfl
  | some state =>
    simp [GitEnvironmentState.toDict, Json.readable, Json.readableEntries, Json.readableEntry]

theorem readable_hardware {state : Option HardwareEnvironmentState}
    (h : ∀ hardware ∈ state, Json.isFloat hardware.totalVramGb = true) :
    Json.readable ((state.map HardwareEnvironmentState.toDict).getD .none) = true := by
  cases state with
  | none => rfl
  | some state =>
    have hcudnn : Json.readable ((state.cudnnVersion.map PyData.int).getD .none) = true := by
      cases state.cudnnVersion <;> rfl
    have hfloat := h state rfl
    simp [HardwareEnvironmentState.toDict, Json.readable, Json.readableEntries,
      Json.readableEntry, readable_option, hcudnn, hfloat]

theorem readable_artifacts (artifacts : List ArtifactManifest) :
    Json.readable (.list (artifacts.map ArtifactManifest.toDict)) = true := by
  rw [Json.readable]
  induction artifacts with
  | nil => rfl
  | cons manifest artifacts ih =>
    rw [List.map_cons, Json.readableItems, ih, Bool.and_true]
    simp [ArtifactManifest.toDict, Json.readable, Json.readableEntries, Json.readableEntry]

theorem ExperimentRunRecord.Readable.toDict {run : ExperimentRunRecord} (h : run.Readable) :
    Json.readable (.dict run.toDict) = true := by
  have hhardware := readable_hardware h.hardware
  have hparameters := h.parameters
  have hmetrics := h.metrics
  rw [readable_dict]
  constructor
  · simp [ExperimentRunRecord.toDict]
  · simp only [ExperimentRunRecord.toDict, List.forall_mem_cons, readable_option, readable_git,
      hhardware, hparameters, hmetrics, readable_artifacts]
    simp [Json.readable]

end Records

namespace Session
variable {Tensor : Type*} {store : ArtifactStore} {save : Tensor → Bytes} {i : ℕ} {s s' : Session}

def Readable (i : ℕ) : StoreCall Tensor → Prop
  | .logger j call => j = i → call.Readable
  | _ => True

instance : ∀ call : StoreCall Tensor, Decidable (Readable i call)
  | .logger j call => show Decidable (j = i → call.Readable) from inferInstance
  | .changeNode _ _ | .storeFile _ _ _ _ | .storeJson _ _ _ _ | .storePtTensor _ _ _ _ =>
    isTrue trivial

def Loadable (s : Session) : Prop := ∀ run ∈ s.opened ++ s.ended, run.Readable

theorem Loadable.modifyHead {log : ExperimentRunRecord → ExperimentRunRecord} (h : s.Loadable)
    (hlog : ∀ run : ExperimentRunRecord, run.Readable → (log run).Readable) (state : StoreState) :
    Loadable ⟨state, s.opened.modifyHead log, s.ended⟩ := by
  obtain ⟨before, opened, ended⟩ := s
  cases opened with
  | nil => exact h
  | cons run opened =>
    rw [Loadable, List.cons_append, List.forall_mem_cons] at h
    exact List.forall_mem_cons.mpr ⟨hlog run h.1, h.2⟩

theorem Loadable.observe (h : s.Loadable) (logger : ExperimentLogger) (state : StoreState)
    {call : LoggerCall} (hcall : call.Readable) : (s.observe logger state call).Loadable := by
  cases call with
  | startRun runName seed now startTime checkOutput hardware =>
    unfold Session.observe
    dsimp only
    split_ifs
    · refine List.forall_mem_cons.mpr ⟨⟨rfl, rfl, ?_⟩, h⟩
      rintro state hstate
      obtain rfl := Option.some.inj hstate
      exact hcall
    · exact h
  | logParameters params =>
    refine h.modifyHead (fun run hrun => ?_) state
    exact ⟨readable_update hrun.parameters hcall, hrun.metrics, hrun.hardware⟩
  | logMetrics metrics =>
    refine h.modifyHead (fun run hrun => ?_) state
    exact ⟨hrun.parameters, readable_update hrun.metrics hcall, hrun.hardware⟩
  | logArtifact sourcePath contentType now =>
    refine h.modifyHead (fun run hrun => ?_) state
    exact ⟨hrun.parameters, hrun.metrics, hrun.hardware⟩
  | exitRun ending endTime now =>
    obtain ⟨before, opened, ended⟩ := s
    cases opened with
    | nil => exact h
    | cons run opened =>
      rw [Loadable, List.cons_append, List.forall_mem_cons] at h
      intro e he
      rcases List.mem_append.mp he with he | he
      · exact h.2 e (List.mem_append_left _ he)
      · rcases List.mem_append.mp he with he | he
        · exact h.2 e (List.mem_append_right _ he)
        · obtain rfl := List.mem_singleton.mp he
          obtain ⟨hparameters, hmetrics, hhardware⟩ := h.1
          cases ending <;> exact ⟨hparameters, hmetrics, hhardware⟩

theorem Loadable.step {call : StoreCall Tensor} (h : s.Loadable) (hcall : Readable i call)
    (hstep : s.step store save i call = some s') : s'.Loadable := by
  obtain ⟨state, -, rfl⟩ := Option.map_eq_some_iff.mp hstep
  cases call with
  | logger j call =>
    dsimp only
    split_ifs with hij
    · exact h.observe _ state (hcall hij)
    · exact h
  | _ => exact h

/-- In a run of regular calls with readable values, the manifest of every run that has ended loads
as the record that was kept by the run itself. -/
theorem runs_loaded {files : FileTree} {experimentName : ℕ → String}
    {calls : List (StoreCall Tensor)} {t : Session}
    (hregular : AllSteps (step store save i) (Regular store save i) (start files experimentName)
      calls)
    (hreadable : ∀ call ∈ calls, Readable i call)
    (hrun : exec (step store save i) (start files experimentName) calls = some t) :
    ∀ run ∈ t.ended, store.storeRoot <+: place store run.runId ∧
      (t.state.files.contents (place store run.runId)).bind loadJson = some (.dict run.toDict) := by
  have hstart : Inv store i (start files experimentName) ∧
      (start files experimentName).Loadable :=
    ⟨⟨fun _ he => absurd he List.not_mem_nil, .idle rfl⟩, fun _ he => absurd he List.not_mem_nil⟩
  obtain ⟨hinv, hloadable⟩ := exec_invariant (I := fun s => Inv store i s ∧ s.Loadable)
    (fun _ _ _ h hc hstep => ⟨h.1.step hc.1 hstep, h.2.step hc.2 hstep⟩) hstart
    (hregular.and (allSteps_of_forall (fun call hcall _ => hreadable call hcall) _)) hrun
  intro run hmem
  obtain ⟨hroot, hcontents, -⟩ := hinv.recorded run hmem
  have hrecord := (hloadable run (List.mem_append_right _ hmem)).toDict
  exact ⟨hroot, by rw [hcontents, Option.bind_some, loadJson_jsonContent hrecord]⟩

def loggedRun : List (StoreCall Bytes) :=
  [StoreState.startNoon 0 1,
    .logger 0 (.logParameters [("batch_size", .int 16), ("precision", .str "int8 \"é\"")]),
    .logger 0 (.logMetrics [("throughput_tps", .float "450.5")]),
    .logger 0 (.logMetrics [("throughput_tps", .float "1e-05")]),
    StoreState.exitNoon 0 (.exception "out of memory")]

theorem runs_loaded_loggedRun :
    ∃ t, exec (step StoreState.localStore id 0) bench loggedRun = some t ∧ t.ended.length = 1 ∧
      ∀ run ∈ t.ended, StoreState.localStore.storeRoot <+: place StoreState.localStore run.runId ∧
        (t.state.files.contents (place StoreState.localStore run.runId)).bind loadJson =
          some (.dict run.toDict) := by
  exact exec_exists (P := fun t => t.ended.length = 1) (by decide +kernel) fun t hrun hended =>
    ⟨hended, runs_loaded (by decide +kernel) (by decide +kernel) hrun⟩

end Session
end CudaForge.Tracking
