import CudaForge.Serving.WireFormat

/-!
The loader of benchmark datasets: a file of one JSON object per line as a list of samples, and the
batches that samples are streamed in.
-/
namespace CudaForge.Workloads
open Serving (strip isSpace)

structure EvaluationSample where
  sampleId : String
  prompt : PyData
  targetReference : PyData
  taskType : PyData
  metadata : PyData

namespace EvaluationSample
variable (s : EvaluationSample)

def toDict : PyDict :=
  [("sample_id", .str s.sampleId), ("prompt", s.prompt), ("target_reference", s.targetReference),
    ("task_type", s.taskType), ("metadata", s.metadata)]

/-- The record of the documentation, with the optional keys. -/
def record : PyDict :=
  [("id", .str s.sampleId), ("prompt", s.prompt), ("reference", s.targetReference),
    ("task_type", s.taskType), ("metadata", s.metadata)]

def Readable : Prop :=
  Json.readable s.prompt = true ∧ Json.readable s.targetReference = true ∧
    Json.readable s.taskType = true ∧ Json.readable s.metadata = true

end EvaluationSample

section Load

inductive LoadError where
  | fileNotFoundError
  /-- From `json.loads`. -/
  | jsonDecodeError
  /-- From `record.get` of a value that is no dict. -/
  | attributeError
  deriving DecidableEq

/-- `str` of a value; `toStr` stands for it on the values that are no texts. -/
def str (toStr : PyData → String) : PyData → String
  | .str text => text
  | value => toStr value

variable (toStr : PyData → String) (taskType : String)

def get (record : PyDict) (key : String) (default : PyData) : PyData :=
  (record.lookup key).getD default

def defaultId (lineIdx : ℕ) : String := "sample_" ++ toString lineIdx

def sampleOf (lineIdx : ℕ) (record : PyDict) : EvaluationSample where
  sampleId := str toStr (get record "id" (.str (defaultId lineIdx)))
  prompt := get record "prompt" (.str "")
  targetReference := get record "reference" (get record "target" (.str ""))
  taskType := get record "task_type" (.str taskType)
  metadata := get record "metadata" (.dict [])

/-- The body of the loop over the lines; nothing comes of a blank line. -/
def loadLine (lineIdx : ℕ) (line : List Char) : Except LoadError (Option EvaluationSample) :=
  if strip line = [] then .ok none
  else
    match Json.loads (strip line) with
    | none => .error .jsonDecodeError
    | some (.dict record) => .ok (some (sampleOf toStr taskType lineIdx record))
    | some _ => .error .attributeError

def loadLines (lineIdx : ℕ) : List (List Char) → Except LoadError (List EvaluationSample)
  | [] => .ok []
  | line :: lines =>
    match loadLine toStr taskType lineIdx line with
    | .error error => .error error
    | .ok sample =>
      match loadLines (lineIdx + 1) lines with
      | .error error => .error error
      | .ok samples => .ok (sample.toList ++ samples)

/-- The text of the file, where there is one. The break that is added ends the last line; behind a
text that ends in a break it makes one more line, which is blank. -/
def loadFromJsonl (text : Option (List Char)) : Except LoadError (List EvaluationSample) :=
  match text with
  | none => .error .fileNotFoundError
  | some text => loadLines toStr taskType 0 (EventStream.lines false [] (text ++ ['\n']))

/-- `range(0, len(samples), batch_size)`, and a slice from each of its numbers. -/
def streamDataset (samples : List EvaluationSample) (batchSize : ℕ) :
    List (List EvaluationSample) :=
  (List.range ((samples.length + batchSize - 1) / batchSize)).map fun i =>
    (samples.drop (i * batchSize)).take batchSize

end Load

section RoundTrip
variable (toStr : PyData → String) (taskType : String) (L : Json.Layout)

def jsonl (records : List (Option PyDict)) : List Char :=
  records.flatMap fun record => (record.elim [] fun d => L.write 0 (.dict d)) ++ ['\n']

def samplesOf (lineIdx : ℕ) : List (Option PyDict) → List EvaluationSample
  | [] => []
  | record :: records =>
    (record.map (sampleOf toStr taskType lineIdx)).toList ++ samplesOf (lineIdx + 1) records

variable {L} (hL : L.KeepsTo Json.notBreak)
include hL

theorem lines_jsonl {records : List (Option PyDict)}
    (hrecords : ∀ d, some d ∈ records → Json.readable (.dict d) = true) :
    EventStream.lines false [] (jsonl L records ++ ['\n']) =
      (records.map fun record => record.elim [] fun d => L.write 0 (.dict d)) ++ [[]] := by
  induction records with
  | nil => rfl
  | cons record records ih =>
    have hline : EventStream.OneLine (record.elim [] fun d => L.write 0 (.dict d)) := by
      cases record with
      | none => exact fun _ hc => absurd hc List.not_mem_nil
      | some d =>
        exact Serving.oneLine_of_notBreak (hL.write 0 _ (hrecords d (List.mem_cons_self ..)))
    have hrest := ih fun d hd => hrecords d (List.mem_cons_of_mem _ hd)
    have hsplit : jsonl L (record :: records) ++ ['\n'] =
        (record.elim [] fun d => L.write 0 (.dict d)) ++ '\n' :: (jsonl L records ++ ['\n']) := by
      simp [jsonl]
    rw [hsplit, EventStream.lines_oneLine hline, hrest]
    rfl

omit hL in
theorem loadLine_write {d : PyDict} (hd : Json.readable (.dict d) = true) (lineIdx : ℕ) :
    loadLine toStr taskType lineIdx (L.write 0 (.dict d)) =
      .ok (some (sampleOf toStr taskType lineIdx d)) := by
  obtain ⟨text, htext⟩ : ∃ text, L.write 0 (.dict d) = '\x7b' :: text ++ ['\x7d'] := by
    unfold Json.Layout.write
    split_ifs
    · exact ⟨[], rfl⟩
    · exact ⟨_, rfl⟩
  have hstrip : strip (L.write 0 (.dict d)) = L.write 0 (.dict d) := by
    have heq : strip ('\x7b' :: text ++ ['\x7d'] ++ []) = '\x7b' :: text ++ ['\x7d'] :=
      Serving.strip_eq (by decide) (by decide) (fun _ hx => absurd hx List.not_mem_nil)
    rwa [List.append_nil, ← htext] at heq
  have hskip := Json.skip_write L hd 0 []
  rw [List.append_nil] at hskip
  have hne : L.write 0 (.dict d) ≠ [] := by
    rw [htext]
    exact List.cons_ne_nil _ _
  unfold loadLine
  rw [hstrip, if_neg hne, Json.loads_write L hd hskip]

omit hL in
theorem loadLines_records {records : List (Option PyDict)} (lineIdx : ℕ)
    (hrecords : ∀ d, some d ∈ records → Json.readable (.dict d) = true) :
    loadLines toStr taskType lineIdx
        ((records.map fun record => record.elim [] fun d => L.write 0 (.dict d)) ++ [[]]) =
      .ok (samplesOf toStr taskType lineIdx records) := by
  induction records generalizing lineIdx with
  | nil => rfl
  | cons record records ih =>
    have hrest := ih (lineIdx + 1) fun d hd => hrecords d (List.mem_cons_of_mem _ hd)
    have hline : loadLine toStr taskType lineIdx (record.elim [] fun d => L.write 0 (.dict d)) =
        .ok (record.map (sampleOf toStr taskType lineIdx)) := by
      cases record with
      | none => rfl
      | some d => exact loadLine_write toStr taskType (hrecords d (List.mem_cons_self ..)) lineIdx
    rw [List.map_cons, List.cons_append, loadLines, hline, hrest]
    rfl

/-- A file of records in any layout on one line each, with blank lines between them. -/
theorem load_jsonl {records : List (Option PyDict)}
    (hrecords : ∀ d, some d ∈ records → Json.readable (.dict d) = true) :
    loadFromJsonl toStr taskType (some (jsonl L records)) =
      .ok (samplesOf toStr taskType 0 records) := by
  show loadLines toStr taskType 0 (EventStream.lines false [] (jsonl L records ++ ['\n'])) = _
  rw [lines_jsonl hL hrecords]
  exact loadLines_records toStr taskType 0 hrecords

end RoundTrip

section Synthetic

def baseWord : String := "CUDAForge system optimization benchmark sequence. "

/-- `(base_word * repeat_count)[: prompt_token_len * 4]` -/
def promptText (promptTokenLen : ℕ) : List Char :=
  (List.replicate (max 1 (promptTokenLen / 6)) baseWord.toList).flatten.take (promptTokenLen * 4)

def syntheticId (idx : ℕ) : String :=
  "synth_" ++ String.ofList (List.leftpad 4 '0' (Nat.toDigits 10 idx))

def createSyntheticWorkload (numSamples promptTokenLen : ℕ) (taskType : String) :
    List EvaluationSample :=
  (List.range numSamples).map fun idx =>
    { sampleId := syntheticId idx
      prompt := .str (String.ofList (promptText promptTokenLen) ++ " [Sample " ++ toString idx ++
        "] Answer:")
      targetReference := .str ("Reference output for sample " ++ toString idx)
      taskType := .str taskType
      metadata := .dict [("target_prompt_len", .int promptTokenLen), ("sample_idx", .int idx)] }

/-- The repetitions always suffice for four characters a token. -/
theorem length_promptText (promptTokenLen : ℕ) :
    (promptText promptTokenLen).length = promptTokenLen * 4 := by
  have hword : baseWord.toList.length = 50 := by decide
  simp only [promptText, List.length_take, List.length_flatten, List.map_replicate, hword,
    List.sum_replicate, smul_eq_mul]
  omega

theorem syntheticId_injective : Function.Injective syntheticId := by
  intro i j heq
  have hlist := congrArg String.toList heq
  simp only [syntheticId, String.toList_append, String.toList_ofList, List.append_cancel_left_eq,
    List.leftpad] at hlist
  have hdigits := congrArg (Nat.ofDigitChars 10 · 0) hlist
  simpa [Nat.ofDigitChars_append, Nat.ofDigitChars_replicate_zero,
    Nat.ofDigitChars_ten_toDigits] using hdigits

theorem createSyntheticWorkload_readable {numSamples promptTokenLen : ℕ} {taskType : String}
    {s : EvaluationSample} (h : s ∈ createSyntheticWorkload numSamples promptTokenLen taskType) :
    s.Readable := by
  obtain ⟨idx, -, rfl⟩ := List.mem_map.mp h
  exact ⟨rfl, rfl, rfl, by simp [Json.readable, Json.readableEntries, Json.readableEntry]⟩

theorem createSyntheticWorkload_ids (numSamples promptTokenLen : ℕ) (taskType : String) :
    ((createSyntheticWorkload numSamples promptTokenLen taskType).map
      EvaluationSample.sampleId).Nodup := by
  rw [createSyntheticWorkload, List.map_map]
  exact List.nodup_range.map syntheticId_injective

end Synthetic

section Samples
variable (toStr : PyData → String) (taskType : String) {samples : List EvaluationSample}

theorem readable_record {s : EvaluationSample} (h : s.Readable) :
    Json.readable (.dict s.record) = true := by
  obtain ⟨hprompt, hreference, htask, hmetadata⟩ := h
  simp [EvaluationSample.record, Json.readable, Json.readableEntries, Json.readableEntry, hprompt,
    hreference, htask, hmetadata]

theorem readable_toDict {s : EvaluationSample} (h : s.Readable) :
    Json.readable (.dict s.toDict) = true := by
  obtain ⟨hprompt, hreference, htask, hmetadata⟩ := h
  simp [EvaluationSample.toDict, Json.readable, Json.readableEntries, Json.readableEntry, hprompt,
    hreference, htask, hmetadata]

theorem sampleOf_record (lineIdx : ℕ) (s : EvaluationSample) :
    sampleOf toStr taskType lineIdx s.record = s := by
  simp [sampleOf, get, EvaluationSample.record, List.lookup_cons, str]

/-- The keys of `to_dict` for the id and the reference are not those that the loader looks up. -/
theorem sampleOf_toDict (lineIdx : ℕ) (s : EvaluationSample) :
    sampleOf toStr taskType lineIdx s.toDict =
      { s with sampleId := defaultId lineIdx, targetReference := .str "" } := by
  simp [sampleOf, get, EvaluationSample.toDict, List.lookup_cons, str]

theorem samplesOf_map (record : EvaluationSample → PyDict) (lineIdx : ℕ) :
    samplesOf toStr taskType lineIdx (samples.map fun s => some (record s)) =
      samples.mapIdx fun idx s => sampleOf toStr taskType (lineIdx + idx) (record s) := by
  induction samples generalizing lineIdx with
  | nil => rfl
  | cons s samples ih =>
    rw [List.map_cons, samplesOf, ih, List.mapIdx_cons]
    simp [Nat.add_assoc, Nat.add_comm 1]

theorem flatten_streamDataset (samples : List EvaluationSample) {batchSize : ℕ}
    (hpos : 0 < batchSize) : (streamDataset samples batchSize).flatten = samples := by
  have htake : ∀ n, ((List.range n).map fun i =>
      (samples.drop (i * batchSize)).take batchSize).flatten = samples.take (n * batchSize) := by
    intro n
    induction n with
    | zero => simp
    | succ n ih =>
      rw [List.range_succ, List.map_append, List.flatten_append, ih, Nat.succ_mul, List.take_add]
      simp
  have hcover : samples.length ≤ (samples.length + batchSize - 1) / batchSize * batchSize := by
    have hmod := Nat.div_add_mod (samples.length + batchSize - 1) batchSize
    have hlt := Nat.mod_lt (samples.length + batchSize - 1) hpos
    rw [Nat.mul_comm] at hmod
    omega
  exact (htake _).trans (List.take_of_length_le hcover)

/-- The batches of a stream hold `batchSize` samples each, the last one what is left. -/
theorem length_batch (samples : List EvaluationSample) {batchSize : ℕ} (hpos : 0 < batchSize)
    {i : ℕ} (hi : i < (streamDataset samples batchSize).length) :
    0 < (streamDataset samples batchSize)[i].length ∧
      (streamDataset samples batchSize)[i].length ≤ batchSize ∧
      (i + 1 < (streamDataset samples batchSize).length →
        (streamDataset samples batchSize)[i].length = batchSize) := by
  have hlength : (streamDataset samples batchSize)[i].length =
      min batchSize (samples.length - i * batchSize) := by
    simp [streamDataset]
  have hbefore : ∀ j, j < (streamDataset samples batchSize).length →
      j * batchSize < samples.length := by
    intro j hj
    simp only [streamDataset, List.length_map, List.length_range] at hj
    rw [Nat.lt_div_iff_mul_lt hpos] at hj
    omega
  have hstart := hbefore i hi
  rw [hlength]
  refine ⟨by omega, by omega, fun hnext => ?_⟩
  have hend := hbefore (i + 1) hnext
  rw [Nat.succ_mul] at hend
  omega

variable {L : Json.Layout} (hL : L.KeepsTo Json.notBreak)
include hL

/-- A file of records in the documented form loads as its samples, and one of dicts from `to_dict`
loads without their ids and references; the batches of a stream take up all samples in order. -/
theorem load_samples (hsamples : ∀ s ∈ samples, s.Readable) {batchSize : ℕ} (hpos : 0 < batchSize) :
    loadFromJsonl toStr taskType (some (jsonl L (samples.map fun s => some s.record))) =
        .ok samples ∧
      loadFromJsonl toStr taskType (some (jsonl L (samples.map fun s => some s.toDict))) =
        .ok (samples.mapIdx fun idx s =>
          { s with sampleId := defaultId idx, targetReference := .str "" }) ∧
      (streamDataset samples batchSize).flatten = samples ∧
      ∀ i (hi : i < (streamDataset samples batchSize).length),
        0 < (streamDataset samples batchSize)[i].length ∧
          (streamDataset samples batchSize)[i].length ≤ batchSize ∧
          (i + 1 < (streamDataset samples batchSize).length →
            (streamDataset samples batchSize)[i].length = batchSize) := by
  refine ⟨?_, ?_, flatten_streamDataset samples hpos, fun i hi => length_batch samples hpos hi⟩
  · rw [load_jsonl toStr taskType hL, samplesOf_map]
    · simp only [sampleOf_record]
      exact congrArg _ (List.ext_getElem (by simp) fun _ _ _ => by simp)
    · intro d hd
      obtain ⟨s, hs, heq⟩ := List.mem_map.mp hd
      exact Option.some.inj heq ▸ readable_record (hsamples s hs)
  · rw [load_jsonl toStr taskType hL, samplesOf_map]
    · simp only [sampleOf_toDict, Nat.zero_add]
    · intro d hd
      obtain ⟨s, hs, heq⟩ := List.mem_map.mp hd
      exact Option.some.inj heq ▸ readable_toDict (hsamples s hs)

def twoSamples : List EvaluationSample :=
  [⟨"a", .str "1 + 1 = \n", .int 2, .str "math", .dict []⟩,
    ⟨"b", .str "é", .none, .str "math", .dict [("shots", .int 3)]⟩]

omit hL in
theorem load_samples_two :
    loadFromJsonl (fun _ => "") "custom"
        (some (jsonl Json.spaced (twoSamples.map fun s => some s.record))) = .ok twoSamples := by
  have hreadable : ∀ s ∈ twoSamples, s.Readable := by
    simp only [twoSamples, List.forall_mem_cons, EvaluationSample.Readable]
    decide +kernel
  exact (load_samples (fun _ => "") "custom" Json.spaced_oneLine hreadable Nat.one_pos).1

end Samples
end CudaForge.Workloads
