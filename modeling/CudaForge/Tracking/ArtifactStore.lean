import CudaForge.Library.FileTree
import CudaForge.Library.JsonText
import CudaForge.Library.Sha256

/-!
The artifact store: files copied or written below `store_root / run_id`, with a manifest each.
-/
namespace CudaForge.Tracking

/-- A reading of `datetime.utcnow()`. -/
structure UtcTime where
  year : ℕ
  month : ℕ
  day : ℕ
  hour : ℕ
  minute : ℕ
  second : ℕ
  microsecond : ℕ
  date_mem : year ≤ 9999 ∧ 1 ≤ month ∧ month ≤ 12 ∧ 1 ≤ day ∧ day ≤ 31
  time_mem : hour < 24 ∧ minute < 60 ∧ second < 60 ∧ microsecond < 1000000

namespace UtcTime
variable (now : UtcTime)

def digits (width n : ℕ) : String := String.ofList (List.leftpad width '0' (Nat.toDigits 10 n))

/-- `strftime("%Y%m%d_%H%M%S")` -/
def timestamp : String :=
  digits 4 now.year ++ digits 2 now.month ++ digits 2 now.day ++ "_" ++
    digits 2 now.hour ++ digits 2 now.minute ++ digits 2 now.second

def isoformat : String :=
  digits 4 now.year ++ "-" ++ digits 2 now.month ++ "-" ++ digits 2 now.day ++ "T" ++
    digits 2 now.hour ++ ":" ++ digits 2 now.minute ++ ":" ++ digits 2 now.second ++
    if now.microsecond = 0 then "" else "." ++ digits 6 now.microsecond

end UtcTime

inductive Raised where
  | fileNotFoundError (message : String)
  | runtimeError (message : String)
  /-- From the file system. -/
  | osError
  /-- From `relative_to`, or from `np.random.seed`. -/
  | valueError
  /-- From `json.dump`. -/
  | typeError
  deriving DecidableEq

structure ArtifactManifest where
  artifactId : String
  filename : String
  sha256Hash : String
  sizeBytes : ℕ
  contentType : String
  createdAt : String
  /-- The parts of the path from the root of the store. -/
  relativePath : Location
  deriving DecidableEq

def ArtifactManifest.toDict (manifest : ArtifactManifest) : PyData :=
  .dict
    [("artifact_id", .str manifest.artifactId),
      ("filename", .str manifest.filename),
      ("sha256_hash", .str manifest.sha256Hash),
      ("size_bytes", .int manifest.sizeBytes),
      ("content_type", .str manifest.contentType),
      ("created_at", .str manifest.createdAt),
      ("relative_path", .str ("/".intercalate manifest.relativePath))]

/-- The manifest has the size and the hash of the contents of its file. -/
def ArtifactManifest.Describes (manifest : ArtifactManifest) (contents : Option Bytes) : Prop :=
  contents.any fun bytes =>
    bytes.length = manifest.sizeBytes ∧ Sha256.hexdigest bytes = manifest.sha256Hash

instance (manifest : ArtifactManifest) (contents : Option Bytes) :
    Decidable (manifest.Describes contents) := inferInstanceAs (Decidable (_ = true))

structure ArtifactStore where
  storeRoot : Location
  /-- The working directory of the process. -/
  cwd : Location

namespace ArtifactStore
variable (store : ArtifactStore)

/-- `read` of 65536 bytes at a time feeds the whole file. -/
def computeSha256 (bytes : Bytes) : String := Sha256.hexdigest bytes

def runDir (runId : String) : PurePath :=
  (PurePath.ofLocation store.storeRoot).join (PurePath.parse runId)

/-- `run_dir.mkdir(parents=True, exist_ok=True)` -/
def mkdir (files : FileTree) (runId : String) : FileTree × Bool :=
  files.makeDirs ((store.runDir runId).walk store.cwd)

section StoreFile

/-- `(run_dir / src.name).resolve()` -/
def dest (src : Location) (runId : String) : Location :=
  ((store.runDir runId).join ⟨false, src.getLast?.toList⟩).resolve store.cwd

def manifest (files : FileTree) (src dest : Location) (contentType : String) (now : UtcTime) :
    Except Raised ArtifactManifest :=
  match files.contents dest with
  | none => .error .osError
  | some bytes =>
    if store.storeRoot <+: dest then
      .ok
        { artifactId := "art_" ++ String.ofList ((computeSha256 bytes).toList.take 12)
          filename := src.getLast?.getD ""
          sha256Hash := computeSha256 bytes
          sizeBytes := bytes.length
          contentType := contentType
          createdAt := now.isoformat
          relativePath := dest.drop store.storeRoot.length }
    else .error .valueError

def storeFile (files : FileTree) (sourcePath : PurePath) (runId contentType : String)
    (now : UtcTime) : FileTree × Except Raised ArtifactManifest :=
  let src := sourcePath.resolve store.cwd
  if files src = none then
    (files, .error (.fileNotFoundError
      ("Source file for artifact does not exist: /" ++ "/".intercalate src)))
  else
    let made := store.mkdir files runId
    if made.2 then
      let dest := store.dest src runId
      if src = dest then (made.1, store.manifest made.1 src dest contentType now)
      else
        let copy := made.1.copy src dest
        if copy.2 then (copy.1, store.manifest copy.1 src dest contentType now)
        else (copy.1, .error .osError)
    else (made.1, .error .osError)

/-- The copy that `store_file` makes. -/
def fileWrites (files : FileTree) (sourcePath : PurePath) (runId : String) :
    List (Location × Option Bytes) :=
  let src := sourcePath.resolve store.cwd
  let made := store.mkdir files runId
  if files src ≠ none ∧ made.2 ∧ src ≠ store.dest src runId then
    made.1.copied src (store.dest src runId)
  else []

end StoreFile

section StoreDumped

/-- What `json.dump` and `torch.save` write, and whether they reach their end. -/
structure Content where
  suffix : String
  contentType : String
  bytes : Bytes
  complete : Bool

def jsonContent (data : PyDict) : Content where
  suffix := ".json"
  contentType := "application/json"
  bytes := (PyData.dump (.dict data)).text.map fun c => UInt8.ofNat c.toNat
  complete := (PyData.dump (.dict data)).complete

def ptContent (bytes : Bytes) : Content := ⟨".pt", "application/octet-stream", bytes, true⟩

/-- `run_dir / filename`, where the file name ends in the suffix. -/
def targetPath (content : Content) (runId filename : String) : PurePath :=
  (store.runDir runId).join <| PurePath.parse <|
    if content.suffix.toList <:+ filename.toList then filename else filename ++ content.suffix

def storeContent (files : FileTree) (content : Content) (runId filename : String)
    (now : UtcTime) : FileTree × Except Raised ArtifactManifest :=
  let made := store.mkdir files runId
  let target := store.targetPath content runId filename
  if made.2 ∧ made.1.opens store.cwd target then
    let written := made.1.write (target.resolve store.cwd) content.bytes
    if content.complete then store.storeFile written target runId content.contentType now
    else (written, .error .typeError)
  else (made.1, .error .osError)

/-- The file that `store_json` or `store_pt_tensor` writes, and its copy. -/
def contentWrites (files : FileTree) (content : Content) (runId filename : String) :
    List (Location × Option Bytes) :=
  let made := store.mkdir files runId
  let target := store.targetPath content runId filename
  if made.2 ∧ made.1.opens store.cwd target then
    let written := made.1.write (target.resolve store.cwd) content.bytes
    (target.resolve store.cwd, some content.bytes) ::
      if content.complete then store.fileWrites written target runId else []
  else []

def storeJson (files : FileTree) (data : PyDict) (runId filename : String) (now : UtcTime) :
    FileTree × Except Raised ArtifactManifest :=
  store.storeContent files (jsonContent data) runId filename now

variable {Tensor : Type*} (save : Tensor → Bytes)

/-- `save` stands for `torch.save` of the tensor on the CPU. -/
def storePtTensor (files : FileTree) (tensor : Tensor) (runId filename : String) (now : UtcTime) :
    FileTree × Except Raised ArtifactManifest :=
  store.storeContent files (ptContent (save tensor)) runId filename now

end StoreDumped

section Writes
variable {store}

def locate (store : ArtifactStore) (manifest : ArtifactManifest) : Location :=
  store.storeRoot ++ manifest.relativePath

structure Stores (store : ArtifactStore) (files files' : FileTree)
    (ws : List (Location × Option Bytes)) (ms : List ArtifactManifest) : Prop where
  writes : files.Writes files' ws
  describes : ∀ m ∈ ms, m.Describes (files'.contents (store.locate m))

theorem Stores.of_writes {files files' : FileTree} {ws : List (Location × Option Bytes)}
    (h : files.Writes files' ws) : store.Stores files files' ws [] :=
  ⟨h, fun _ hm => absurd hm List.not_mem_nil⟩

theorem Stores.quiet (files : FileTree) : store.Stores files files [] [] :=
  Stores.of_writes (FileTree.Writes.of_contents rfl)

theorem describes_manifest {files : FileTree} {src dest : Location} {contentType : String}
    {now : UtcTime} {m : ArtifactManifest}
    (h : store.manifest files src dest contentType now = .ok m) :
    m.Describes (files.contents (store.locate m)) := by
  unfold manifest at h
  split at h
  · cases h
  · rename_i bytes hbytes
    split_ifs at h with hroot
    cases h
    have hlocate : store.storeRoot ++ dest.drop store.storeRoot.length = dest := by
      obtain ⟨rest, rfl⟩ := hroot
      rw [List.drop_left]
    unfold ArtifactManifest.Describes locate
    rw [hlocate, hbytes]
    exact decide_eq_true ⟨rfl, rfl⟩

variable (store) in
theorem mkdir_contents (files : FileTree) (runId : String) :
    (store.mkdir files runId).1.contents = files.contents :=
  FileTree.makeDirs_contents _ files

theorem Stores.manifest {files files' : FileTree} {ws : List (Location × Option Bytes)}
    (h : files.Writes files' ws) (src dest : Location) (contentType : String) (now : UtcTime) :
    store.Stores files files' ws
      (store.manifest files' src dest contentType now).toOption.toList where
  writes := h
  describes m hm := by
    cases hresult : store.manifest files' src dest contentType now with
    | error raised =>
      rw [hresult] at hm
      exact absurd hm List.not_mem_nil
    | ok m' =>
      rw [hresult] at hm
      rw [List.mem_singleton.mp hm]
      exact describes_manifest hresult

variable (store) in
theorem storeFile_stores (files : FileTree) (sourcePath : PurePath) (runId contentType : String)
    (now : UtcTime) :
    let r := store.storeFile files sourcePath runId contentType now
    store.Stores files r.1 (store.fileWrites files sourcePath runId) r.2.toOption.toList := by
  have hmade := mkdir_contents store files runId
  unfold storeFile fileWrites
  dsimp only
  by_cases hsrc : files (sourcePath.resolve store.cwd) = none
  · rw [if_pos hsrc, if_neg fun h => h.1 hsrc]
    exact Stores.quiet files
  rw [if_neg hsrc]
  cases hdirs : (store.mkdir files runId).2 with
  | false =>
    rw [if_neg Bool.false_ne_true, if_neg fun h => Bool.false_ne_true h.2.1]
    exact Stores.of_writes (FileTree.Writes.of_contents hmade)
  | true =>
    rw [if_pos rfl]
    by_cases hsame : sourcePath.resolve store.cwd =
        store.dest (sourcePath.resolve store.cwd) runId
    · rw [if_pos hsame, if_neg fun h => h.2.2 hsame]
      exact Stores.manifest (FileTree.Writes.of_contents hmade) _ _ _ _
    · rw [if_neg hsame, if_pos (And.intro hsrc ⟨rfl, hsame⟩)]
      have hwrites := (FileTree.writes_copy (store.mkdir files runId).1
        (sourcePath.resolve store.cwd)
        (store.dest (sourcePath.resolve store.cwd) runId)).congr_left hmade.symm
      split
      · exact Stores.manifest hwrites _ _ _ _
      · exact Stores.of_writes hwrites

/-- A copy leaves the contents of its source. -/
theorem fileWrites_eq {files : FileTree} {sourcePath : PurePath} {runId : String}
    {w : Location × Option Bytes} (hw : w ∈ store.fileWrites files sourcePath runId) :
    w.2 = files.contents (sourcePath.resolve store.cwd) := by
  unfold fileWrites at hw
  dsimp only at hw
  split_ifs at hw
  · rw [FileTree.copied_eq hw, mkdir_contents]
  · exact absurd hw List.not_mem_nil

variable (store) in
theorem storeContent_stores (files : FileTree) (content : Content) (runId filename : String)
    (now : UtcTime) :
    let r := store.storeContent files content runId filename now
    store.Stores files r.1 (store.contentWrites files content runId filename)
      r.2.toOption.toList := by
  have hmade := mkdir_contents store files runId
  unfold storeContent contentWrites
  dsimp only
  split_ifs with hopens hcomplete
  · have hwritten := FileTree.writes_write (store.mkdir files runId).1
      ((store.targetPath content runId filename).resolve store.cwd) content.bytes
    have hcopy := storeFile_stores store
      ((store.mkdir files runId).1.write
        ((store.targetPath content runId filename).resolve store.cwd) content.bytes)
      (store.targetPath content runId filename) runId content.contentType now
    refine ⟨(hwritten.trans hcopy.writes fun w hw w' hw' => ?_).congr_left hmade.symm,
      hcopy.describes⟩
    -- The copy is of the file that was just written.
    rw [List.mem_singleton.mp hw, fileWrites_eq hw', FileTree.contents_write,
      Function.update_self]
  · exact Stores.of_writes ((FileTree.writes_write _ _ _).congr_left hmade.symm)
  · exact Stores.of_writes (FileTree.Writes.of_contents hmade)

end Writes
end ArtifactStore
end CudaForge.Tracking
