import Mathlib.Data.List.Basic
import Mathlib.Tactic.SplitIfs

/-!
Trees of files and directories, without symbolic links, and what calls write into them.
-/

abbrev Bytes := List UInt8

/-- The names on the way from the root, with `..` resolved. -/
abbrev Location := List String

/-- A path as it is spelled, without empty parts and `.`. -/
structure PurePath where
  absolute : Bool
  parts : List String
  deriving DecidableEq

namespace PurePath

def parse (text : String) : PurePath where
  absolute := text.toList.head? == some '/'
  parts := ((text.toList.splitOnP (· == '/')).map String.ofList).filter fun part =>
    part ≠ "" && part ≠ "."

def ofLocation (p : Location) : PurePath := ⟨true, p⟩

/-- An absolute path replaces what it is joined to. -/
def join (p q : PurePath) : PurePath := if q.absolute then q else ⟨p.absolute, p.parts ++ q.parts⟩

def climb (p : Location) (part : String) : Location :=
  if part = ".." then p.dropLast else p ++ [part]

def walk (cwd : Location) (p : PurePath) : List Location :=
  p.parts.scanl climb (if p.absolute then [] else cwd)

def resolve (cwd : Location) (p : PurePath) : Location :=
  p.parts.foldl climb (if p.absolute then [] else cwd)

end PurePath

inductive Node where
  | file (bytes : Bytes)
  | dir
  deriving DecidableEq

def Node.bytes : Option Node → Option Bytes
  | some (.file bytes) => some bytes
  | _ => none

abbrev FileTree := Location → Option Node

namespace FileTree

def contents (t : FileTree) (p : Location) : Option Bytes := Node.bytes (t p)

/-- The directories are made in order, up to the first that is a file. -/
def makeDirs : List Location → FileTree → FileTree × Bool
  | [], t => (t, true)
  | p :: ps, t =>
    match t p with
    | some (.file _) => (t, false)
    | _ => makeDirs ps (Function.update t p (some .dir))

def write (t : FileTree) (p : Location) (bytes : Bytes) : FileTree :=
  Function.update t p (some (.file bytes))

/-- A file can be opened for writing where all directories on the way exist. -/
def opens (t : FileTree) (cwd : Location) (p : PurePath) : Bool :=
  ((p.walk cwd).dropLast.all fun q => t q = some .dir) && t (p.resolve cwd) ≠ some .dir

/-- Where a copy of `src` goes: into `dest`, if that is a directory. -/
def copyTarget (t : FileTree) (src dest : Location) : Location :=
  if t dest = some .dir then dest ++ src.getLast?.toList else dest

/-- A directory is neither copied nor overwritten. -/
def copy (t : FileTree) (src dest : Location) : FileTree × Bool :=
  match t.contents src with
  | none => (t, false)
  | some bytes =>
    if t (t.copyTarget src dest) = some .dir then (t, false)
    else (t.write (t.copyTarget src dest) bytes, true)

def copied (t : FileTree) (src dest : Location) : List (Location × Option Bytes) :=
  match t.contents src with
  | none => []
  | some bytes =>
    if t (t.copyTarget src dest) = some .dir then []
    else [(t.copyTarget src dest, some bytes)]

section Writes
variable {t t' t'' : FileTree} {p : Location} {bytes : Bytes}

theorem contents_write : (t.write p bytes).contents =
    Function.update t.contents p (some bytes) := by
  funext q
  simp only [contents, write, Function.update_apply]
  split_ifs <;> rfl

theorem makeDirs_contents (ps : List Location) (t : FileTree) :
    (makeDirs ps t).1.contents = t.contents := by
  induction ps generalizing t with
  | nil => rfl
  | cons p ps ih =>
    unfold makeDirs
    split
    · rfl
    · rename_i hfile
      rw [ih]
      funext q
      simp only [contents, Function.update_apply]
      split_ifs with hq
      · subst hq
        cases hnode : t q with
        | none => rfl
        | some node =>
          cases node with
          | dir => rfl
          | file bytes => exact absurd hnode (hfile bytes)
      · rfl

structure Writes (t t' : FileTree) (ws : List (Location × Option Bytes)) : Prop where
  written : ∀ w ∈ ws, t'.contents w.1 = w.2
  kept : ∀ p, (∀ w ∈ ws, w.1 ≠ p) → t'.contents p = t.contents p

theorem Writes.of_contents (h : t'.contents = t.contents) : Writes t t' [] where
  written _ hw := absurd hw List.not_mem_nil
  kept p _ := congrFun h p

theorem Writes.congr_left {ws : List (Location × Option Bytes)} (h : Writes t t' ws)
    (hcontents : t''.contents = t.contents) : Writes t'' t' ws where
  written := h.written
  kept p hp := (h.kept p hp).trans (congrFun hcontents p).symm

theorem writes_update (node : Option Node) :
    Writes t (Function.update t p node) [(p, Node.bytes node)] where
  written w hw := by
    rw [List.mem_singleton.mp hw]
    simp only [contents, Function.update_self]
  kept q hq := by
    have hne : q ≠ p := (hq _ (List.mem_singleton_self _)).symm
    simp only [contents, Function.update_of_ne hne]

theorem writes_write (t : FileTree) (p : Location) (bytes : Bytes) :
    Writes t (t.write p bytes) [(p, some bytes)] :=
  writes_update (some (.file bytes))

theorem writes_copy (t : FileTree) (src dest : Location) :
    Writes t (t.copy src dest).1 (t.copied src dest) := by
  unfold copy copied
  split
  · exact Writes.of_contents rfl
  · split_ifs
    · exact Writes.of_contents rfl
    · exact writes_write _ _ _

theorem copied_eq {src dest : Location} {w : Location × Option Bytes}
    (hw : w ∈ t.copied src dest) : w.2 = t.contents src := by
  unfold copied at hw
  split at hw
  · exact absurd hw List.not_mem_nil
  · rename_i bytes hbytes
    split_ifs at hw
    · exact absurd hw List.not_mem_nil
    · rw [List.mem_singleton.mp hw, hbytes]

/-- Two calls that leave the same contents are one. -/
theorem Writes.trans {ws ws' : List (Location × Option Bytes)} (h : Writes t t' ws)
    (h' : Writes t' t'' ws') (hsame : ∀ w ∈ ws, ∀ w' ∈ ws', w.2 = w'.2) :
    Writes t t'' (ws ++ ws') where
  written w hw := by
    rcases List.mem_append.mp hw with hw | hw
    · by_cases hover : ∃ w' ∈ ws', w'.1 = w.1
      · obtain ⟨w', hw', heq⟩ := hover
        rw [← heq, h'.written w' hw', hsame w hw w' hw']
      · rw [h'.kept w.1 fun w' hw' heq => hover ⟨w', hw', heq⟩, h.written w hw]
    · exact h'.written w hw
  kept p hp := by
    rw [h'.kept p fun w hw => hp w (List.mem_append_right _ hw),
      h.kept p fun w hw => hp w (List.mem_append_left _ hw)]

/-- The contents at a location change only where the call leaves something there. -/
theorem Writes.contents_cases {ws : List (Location × Option Bytes)} (h : Writes t t' ws)
    (p : Location) :
    t'.contents p = t.contents p ∨ (p, t'.contents p) ∈ ws := by
  by_cases hp : ∃ w ∈ ws, w.1 = p
  · obtain ⟨w, hw, rfl⟩ := hp
    exact Or.inr (h.written w hw ▸ hw)
  · exact Or.inl (h.kept p fun w hw heq => hp ⟨w, hw, heq⟩)

end Writes
end FileTree
