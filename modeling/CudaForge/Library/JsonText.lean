import Mathlib.Data.List.Basic
import Mathlib.Data.Nat.Digits.Defs
import Mathlib.Tactic.SplitIfs

/-!
The values that a program hands to a JSON writer, and the text that `json.dump` with an indentation
of two writes. A value that is not supported ends the text where it stands.
-/

inductive PyData where
  | none
  | bool (b : Bool)
  | int (n : ℤ)
  /-- A float by its text. -/
  | float (repr : String)
  | str (text : String)
  | list (items : List PyData)
  | dict (entries : List (String × PyData))
  /-- An object that the writer refuses. -/
  | other

abbrev PyDict := List (String × PyData)

/-- `d[key] = value` -/
def PyDict.set (d : PyDict) (key : String) (value : PyData) : PyDict :=
  match d with
  | [] => [(key, value)]
  | (k, v) :: d => if k = key then (k, value) :: d else (k, v) :: PyDict.set d key value

def PyDict.update (d other : PyDict) : PyDict := other.foldl (fun d e => PyDict.set d e.1 e.2) d

structure Dumped where
  text : List Char
  complete : Bool
  deriving DecidableEq

namespace Dumped

def ofString (text : String) : Dumped := ⟨text.toList, true⟩

def append (a b : Dumped) : Dumped := if a.complete then ⟨a.text ++ b.text, b.complete⟩ else a

instance : Append Dumped := ⟨append⟩

theorem complete_append (a b : Dumped) : (a ++ b).complete = (a.complete && b.complete) := by
  show (append a b).complete = _
  unfold append
  cases h : a.complete <;> simp [h]

end Dumped

namespace PyData

def hexDigit (n : ℕ) : Char := Nat.digitChar (n % 16)

/-- `\uXXXX` -/
def unicodeEscape (n : ℕ) : List Char :=
  ['\\', 'u', hexDigit (n / 4096), hexDigit (n / 256), hexDigit (n / 16), hexDigit n]

def escapeChar (c : Char) : List Char :=
  if c = '"' then ['\\', '"']
  else if c = '\\' then ['\\', '\\']
  else if c = '\n' then ['\\', 'n']
  else if c = '\r' then ['\\', 'r']
  else if c = '\t' then ['\\', 't']
  else if c.toNat = 8 then ['\\', 'b']
  else if c.toNat = 12 then ['\\', 'f']
  else if 32 ≤ c.toNat ∧ c.toNat ≤ 126 then [c]
  else if c.toNat < 0x10000 then unicodeEscape c.toNat
  else
    let n := c.toNat - 0x10000
    unicodeEscape (0xd800 + n / 0x400) ++ unicodeEscape (0xdc00 + n % 0x400)

def quote (text : String) : Dumped := ⟨'"' :: text.toList.flatMap escapeChar ++ ['"'], true⟩

def newline (level : ℕ) : Dumped := ⟨'\n' :: List.replicate (2 * level) ' ', true⟩

/-- What comes before an item: a comma, unless it is the first, and a new line. -/
def separator (level : ℕ) (first : Bool) : Dumped :=
  (if first then Dumped.ofString "" else Dumped.ofString ",") ++ newline level

mutual

def dumpAt (level : ℕ) : PyData → Dumped
  | .none => Dumped.ofString "null"
  | .bool b => Dumped.ofString (if b then "true" else "false")
  | .int n => Dumped.ofString (toString n)
  | .float repr => Dumped.ofString repr
  | .str text => quote text
  | .list items =>
    if items.isEmpty then Dumped.ofString "[]"
    else
      Dumped.ofString "[" ++ dumpItems (level + 1) true items ++ newline level ++
        Dumped.ofString "]"
  | .dict entries =>
    if entries.isEmpty then Dumped.ofString "\x7b\x7d"
    else
      Dumped.ofString "\x7b" ++ dumpEntries (level + 1) true entries ++ newline level ++
        Dumped.ofString "\x7d"
  | .other => ⟨[], false⟩

def dumpItems (level : ℕ) (first : Bool) : List PyData → Dumped
  | [] => Dumped.ofString ""
  | item :: items => separator level first ++ dumpAt level item ++ dumpItems level false items

def dumpEntries (level : ℕ) (first : Bool) : List (String × PyData) → Dumped
  | [] => Dumped.ofString ""
  | entry :: entries =>
    separator level first ++ dumpEntry level entry ++ dumpEntries level false entries

def dumpEntry (level : ℕ) : String × PyData → Dumped
  | (key, value) => quote key ++ Dumped.ofString ": " ++ dumpAt level value

end

def dump (data : PyData) : Dumped := dumpAt 0 data

mutual

def serializable : PyData → Bool
  | .list items => allItems items
  | .dict entries => allEntries entries
  | .other => false
  | _ => true

def allItems : List PyData → Bool
  | [] => true
  | item :: items => serializable item && allItems items

def allEntries : List (String × PyData) → Bool
  | [] => true
  | entry :: entries => entrySerializable entry && allEntries entries

def entrySerializable : String × PyData → Bool
  | (_, value) => serializable value

end

section Complete

@[simp] theorem complete_ofString (text : String) : (Dumped.ofString text).complete = true := rfl

@[simp] theorem complete_newline (level : ℕ) : (newline level).complete = true := rfl

@[simp] theorem complete_separator (level : ℕ) (first : Bool) :
    (separator level first).complete = true := by
  unfold separator
  rw [Dumped.complete_append]
  cases first <;> rfl

mutual

theorem complete_dumpAt (level : ℕ) : ∀ data, (dumpAt level data).complete = serializable data
  | .none | .bool _ | .int _ | .float _ | .str _ | .other => rfl
  | .list items => by
    unfold dumpAt serializable
    split_ifs with hempty
    · rw [List.isEmpty_iff.mp hempty]
      rfl
    · simp only [Dumped.complete_append, complete_dumpItems (level + 1) true items,
        complete_ofString, complete_newline, Bool.true_and, Bool.and_true]
  | .dict entries => by
    unfold dumpAt serializable
    split_ifs with hempty
    · rw [List.isEmpty_iff.mp hempty]
      rfl
    · simp only [Dumped.complete_append, complete_dumpEntries (level + 1) true entries,
        complete_ofString, complete_newline, Bool.true_and, Bool.and_true]

theorem complete_dumpItems (level : ℕ) (first : Bool) :
    ∀ items, (dumpItems level first items).complete = allItems items
  | [] => rfl
  | item :: items => by
    unfold dumpItems allItems
    rw [Dumped.complete_append, Dumped.complete_append, complete_separator, Bool.true_and,
      complete_dumpAt level item, complete_dumpItems level false items]

theorem complete_dumpEntries (level : ℕ) (first : Bool) :
    ∀ entries, (dumpEntries level first entries).complete = allEntries entries
  | [] => rfl
  | entry :: entries => by
    unfold dumpEntries allEntries
    rw [Dumped.complete_append, Dumped.complete_append, complete_separator, Bool.true_and,
      complete_dumpEntry level entry, complete_dumpEntries level false entries]

theorem complete_dumpEntry (level : ℕ) :
    ∀ entry, (dumpEntry level entry).complete = entrySerializable entry
  | (key, value) => by
    unfold dumpEntry entrySerializable
    rw [Dumped.complete_append, Dumped.complete_append, complete_dumpAt level value]
    rfl
end

/-- The writer reaches its end exactly on the values it supports. -/
theorem complete_dump (data : PyData) : (dump data).complete = serializable data :=
  complete_dumpAt 0 data

theorem allItems_iff (items : List PyData) :
    allItems items = true ↔ ∀ item ∈ items, serializable item = true := by
  induction items with
  | nil => exact iff_of_true rfl fun _ h => absurd h List.not_mem_nil
  | cons item items ih =>
    unfold allItems
    rw [Bool.and_eq_true, ih, List.forall_mem_cons]

end Complete
end PyData

open PyData in
example :
    String.ofList (dump (.dict [("score", .int 10), ("tags", .list [.str "a", .none])])).text =
    "\x7b\n  \"score\": 10,\n  \"tags\": [\n    \"a\",\n    null\n  ]\n\x7d" := by decide
