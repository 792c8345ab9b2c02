import Mathlib.Data.List.TakeWhile

/-!
Streams of server-sent events: what a client makes of the text of a stream. A message that no blank
line has ended is dropped.
-/
namespace EventStream

structure Message where
  /-- The type of the event, empty where none is named. -/
  event : List Char
  data : List Char
  deriving DecidableEq

structure Buffers where
  event : List Char
  data : List Char

namespace Buffers
variable (b : Buffers)

def empty : Buffers := ⟨[], []⟩

def field (name value : List Char) : Buffers :=
  if name = "event".toList then { b with event := value }
  else if name = "data".toList then { b with data := b.data ++ value ++ ['\n'] }
  else b

/-- A line that is not blank: a comment, or the name of a field and its value. -/
def line (text : List Char) : Buffers :=
  let name := text.takeWhile (· != ':')
  match text.dropWhile (· != ':') with
  | [] => b.field name []
  | _ :: value =>
    if name = [] then b
    else b.field name (if value.head? = some ' ' then value.tail else value)

def dispatch : List Message := if b.data = [] then [] else [⟨b.event, b.data.dropLast⟩]

end Buffers

/-- The lines of a text after `current`; `cr` tells whether a carriage return comes before it. -/
def lines (cr : Bool) (current : List Char) : List Char → List (List Char)
  | [] => []
  | c :: text =>
    if c = '\n' then if cr then lines false [] text else current :: lines false [] text
    else if c = '\r' then current :: lines true [] text
    else lines false (current ++ [c]) text

def messages (b : Buffers) : List (List Char) → List Message
  | [] => []
  | line :: lines =>
    if line = [] then b.dispatch ++ messages .empty lines else messages (b.line line) lines

def read (text : List Char) : List Message := messages .empty (lines false [] text)

def OneLine (text : List Char) : Prop := ∀ c ∈ text, c ≠ '\n' ∧ c ≠ '\r'

theorem OneLine.append {a b : List Char} (ha : OneLine a) (hb : OneLine b) : OneLine (a ++ b) := by
  intro c hc
  rcases List.mem_append.mp hc with hc | hc
  · exact ha c hc
  · exact hb c hc

namespace Message
variable (m : Message)

def write : List Char :=
  (if m.event = [] then [] else "event: ".toList ++ m.event ++ ['\n']) ++
    "data: ".toList ++ m.data ++ ['\n', '\n']

end Message

theorem lines_oneLine {line : List Char} (h : OneLine line) (current rest : List Char) :
    lines false current (line ++ '\n' :: rest) = (current ++ line) :: lines false [] rest := by
  induction line generalizing current with
  | nil => simp [lines]
  | cons c line ih =>
    have hc := h c (List.mem_cons_self ..)
    have hline : OneLine line := fun d hd => h d (List.mem_cons_of_mem _ hd)
    simp [lines, hc, ih hline]

theorem line_field (b : Buffers) (name : List Char) (hname : ∀ c ∈ name, c ≠ ':') (hne : name ≠ [])
    (value : List Char) : b.line (name ++ ':' :: ' ' :: value) = b.field name value := by
  have hall : ∀ c ∈ name, (c != ':') = true := by simpa using hname
  unfold Buffers.line
  rw [List.takeWhile_append_of_pos hall, List.dropWhile_append_of_pos hall]
  simp [hne]

/-- A client that stands between two messages reads a message that was written. -/
theorem read_write {m : Message} (hevent : OneLine m.event) (hdata : OneLine m.data)
    (rest : List Char) : read (m.write ++ rest) = m :: read rest := by
  have hfield : ∀ b : Buffers, messages b
      (lines false [] ("data: ".toList ++ m.data ++ '\n' :: '\n' :: rest)) =
        (b.field "data".toList m.data).dispatch ++ read rest := by
    intro b
    rw [lines_oneLine (OneLine.append (by simp [OneLine]) hdata), lines]
    simp only [if_true, List.nil_append, Bool.false_eq_true, if_false]
    have hline := line_field b "data".toList (by simp) (by simp) m.data
    rw [messages, if_neg (by simp), messages, if_pos rfl]
    exact congrArg (fun b : Buffers => b.dispatch ++ read rest) hline
  have hdispatch : ∀ event : List Char,
      (Buffers.field ⟨event, []⟩ "data".toList m.data).dispatch = [⟨event, m.data⟩] := by
    intro event
    simp [Buffers.field, Buffers.dispatch]
  unfold read Message.write
  split_ifs with hnone
  · have heq := hfield .empty
    rw [Buffers.empty, hdispatch] at heq
    have hm : m = ⟨[], m.data⟩ := by rw [← hnone]
    rw [List.nil_append, List.append_assoc, hm]
    exact heq
  · have heq := hfield ⟨m.event, []⟩
    rw [hdispatch] at heq
    have hline := line_field .empty "event".toList (by simp) (by simp) m.event
    have hsplit : "event: ".toList ++ m.event ++ ['\n'] ++ "data: ".toList ++ m.data ++
        ['\n', '\n'] ++ rest = ("event: ".toList ++ m.event) ++ '\n' ::
          ("data: ".toList ++ m.data ++ '\n' :: '\n' :: rest) := by
      simp
    have hline' := OneLine.append (a := "event: ".toList) (by simp [OneLine]) hevent
    rw [hsplit, lines_oneLine hline', messages, if_neg (by simp)]
    have hbuffer : Buffers.line .empty ([] ++ ("event: ".toList ++ m.event)) = ⟨m.event, []⟩ :=
      hline
    rw [hbuffer]
    exact heq

/-- A client reads back the messages of a stream. -/
theorem read_flatMap (ms : List Message) (h : ∀ m ∈ ms, OneLine m.event ∧ OneLine m.data) :
    read (ms.flatMap Message.write) = ms := by
  induction ms with
  | nil => rfl
  | cons m ms ih =>
    rw [List.forall_mem_cons] at h
    rw [List.flatMap_cons, read_write h.1.1 h.1.2, ih h.2]

end EventStream
