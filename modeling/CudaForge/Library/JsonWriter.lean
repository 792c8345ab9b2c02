import CudaForge.Library.JsonReader

/-!
The writers of JSON texts by their layouts, and that the reader takes back what each of them writes.
-/
namespace Json

/-- What the reader takes for a float with this text. -/
def isFloat (repr : String) : Bool :=
  match (readNumber repr.toList).orElse fun _ => readConstant repr.toList with
  | some (.float text, []) => text == repr
  | _ => false

mutual

/-- The values that a text stands for: the keys of each dict differ. -/
def readable : PyData → Bool
  | .float repr => isFloat repr
  | .list items => readableItems items
  | .dict entries => decide (entries.map Prod.fst).Nodup && readableEntries entries
  | .other => false
  | _ => true

def readableItems : List PyData → Bool
  | [] => true
  | item :: items => readable item && readableItems items

def readableEntries : List (String × PyData) → Bool
  | [] => true
  | entry :: entries => readableEntry entry && readableEntries entries

def readableEntry : String × PyData → Bool
  | (_, value) => readable value

end

structure Layout where
  /-- Before a member, by its level and by whether it is the first. -/
  before : ℕ → Bool → List Char
  /-- After the last member. -/
  after : ℕ → List Char
  colon : List Char
  escape : Char → List Char
  before_blank : ∀ level first, (before level first).all isBlank = true
  after_blank : ∀ level, (after level).all isBlank = true
  colon_blank : colon.all isBlank = true
  spells : ∀ c, Spells c (escape c)

namespace Layout
variable (L : Layout)

def quote (text : String) : List Char := '"' :: text.toList.flatMap L.escape ++ ['"']

def separator (level : ℕ) (first : Bool) : List Char :=
  (if first then [] else [',']) ++ L.before level first

mutual

def write (level : ℕ) : PyData → List Char
  | .none => "null".toList
  | .bool b => (if b then "true" else "false").toList
  | .int n => (toString n).toList
  | .float repr => repr.toList
  | .str text => L.quote text
  | .list items =>
    if items.isEmpty then "[]".toList
    else '[' :: writeItems (level + 1) true items ++ L.after level ++ [']']
  | .dict entries =>
    if entries.isEmpty then "\x7b\x7d".toList
    else '\x7b' :: writeEntries (level + 1) true entries ++ L.after level ++ ['\x7d']
  | .other => []

def writeItems (level : ℕ) (first : Bool) : List PyData → List Char
  | [] => []
  | item :: items => L.separator level first ++ write level item ++ writeItems level false items

def writeEntries (level : ℕ) (first : Bool) : List (String × PyData) → List Char
  | [] => []
  | entry :: entries =>
    L.separator level first ++ writeEntry level entry ++ writeEntries level false entries

def writeEntry (level : ℕ) : String × PyData → List Char
  | (key, value) => L.quote key ++ ':' :: L.colon ++ write level value

end
end Layout

section Skip

theorem skip_blank {blanks : List Char} (h : blanks.all isBlank = true) (text : List Char) :
    skip (blanks ++ text) = skip text :=
  List.dropWhile_append_of_pos (List.all_eq_true.mp h)

theorem skip_cons {c : Char} (h : isBlank c = false) (text : List Char) :
    skip (c :: text) = c :: text := by
  simp [skip, h]

theorem ends_blank (blanks : List Char) (h : blanks.all isBlank = true) {c : Char}
    (hc : c = ',' ∨ c = ']' ∨ c = '\x7d') (text : List Char) : Ends (blanks ++ c :: text) := by
  cases blanks with
  | nil =>
    rintro d hd
    obtain rfl := Option.some.inj hd
    exact Or.inr hc
  | cons b blanks =>
    rintro d hd
    obtain rfl := Option.some.inj hd
    simp only [List.all_cons, Bool.and_eq_true] at h
    exact Or.inl h.1

end Skip

section Scalars

theorem head_readNumber {text : List Char} {r : PyData × List Char}
    (h : readNumber text = some r) :
    ∃ c tail, text = c :: tail ∧ (c = '-' ∨ c.isDigit = true) := by
  cases text with
  | nil => cases h
  | cons c tail =>
    refine ⟨c, tail, rfl, ?_⟩
    by_contra hc
    simp only [not_or, Bool.not_eq_true] at hc
    have hzero : c ≠ '0' := by
      rintro rfl
      exact absurd hc.2 (by decide)
    simp [readNumber, readMinus, readWhole, hc, hzero] at h

theorem readConstant_append {text : List Char} {value : PyData} (h : (text, value) ∈ constants)
    (rest : List Char) : readConstant (text ++ rest) = some (value, rest) ∧
      readNumber (text ++ rest) = none ∧ ∃ c tail, text = c :: tail ∧ isBlank c = false ∧
        c ≠ '"' ∧ c ≠ '[' ∧ c ≠ ']' ∧ c ≠ '\x7b' := by
  simp only [constants, List.mem_cons, List.not_mem_nil, or_false, Prod.mk.injEq] at h
  rcases h with ⟨rfl, rfl⟩ | ⟨rfl, rfl⟩ | ⟨rfl, rfl⟩ | ⟨rfl, rfl⟩ | ⟨rfl, rfl⟩ | ⟨rfl, rfl⟩ <;>
    exact ⟨rfl, rfl, _, _, rfl, by decide⟩

/-- The reader comes back with the value of a text that is neither a string, a list nor a dict. -/
structure Scalar (text : List Char) (value : PyData) : Prop where
  reads : ∀ rest, Ends rest →
    ((readNumber (text ++ rest)).orElse fun _ => readConstant (text ++ rest)) = some (value, rest)
  head : ∃ c tail, text = c :: tail ∧ isBlank c = false ∧ c ≠ '"' ∧ c ≠ '[' ∧ c ≠ ']' ∧ c ≠ '\x7b'

theorem scalar_constant {text : List Char} {value : PyData} (h : (text, value) ∈ constants) :
    Scalar text value where
  reads rest _ := by
    rw [(readConstant_append h rest).2.1, (readConstant_append h rest).1]
    rfl
  head := (readConstant_append h []).2.2

theorem scalar_number {text : List Char} {value : PyData}
    (h : readNumber text = some (value, [])) : Scalar text value where
  reads rest hrest := by
    rw [readNumber_append hrest, h]
    rfl
  head := by
    obtain ⟨c, tail, rfl, hc⟩ := head_readNumber h
    refine ⟨c, tail, rfl, ?_⟩
    rcases hc with rfl | hdigit
    · decide
    · refine ⟨?_, ?_, ?_, ?_, ?_⟩
      · cases hblank : isBlank c with
        | false => rfl
        | true =>
          simp only [isBlank, Bool.or_eq_true, beq_iff_eq, or_assoc] at hblank
          rcases hblank with rfl | rfl | rfl | rfl <;> exact absurd hdigit (by decide)
      all_goals
        rintro rfl
        exact absurd hdigit (by decide)

theorem isFloat_cases {repr : String} (h : isFloat repr = true) :
    readNumber repr.toList = some (.float repr, []) ∨
      (repr.toList, .float repr) ∈ constants := by
  have hread : ((readNumber repr.toList).orElse fun _ => readConstant repr.toList) =
      some (.float repr, []) := by
    unfold isFloat at h
    split at h
    · next text heq => rw [heq, eq_of_beq h]
    · contradiction
  cases hnumber : readNumber repr.toList with
  | some r =>
    rw [hnumber, Option.orElse_some] at hread
    exact Or.inl hread
  | none =>
    rw [hnumber, Option.orElse_none] at hread
    obtain ⟨c, hfind, hc⟩ := Option.map_eq_some_iff.mp hread
    have hprefix := List.find?_some hfind
    obtain ⟨rest, hrest⟩ := List.isPrefixOf_iff_prefix.mp hprefix
    have hpair := Prod.mk.inj hc
    rw [← hrest, List.drop_left] at hpair
    rw [← hrest, hpair.2, List.append_nil, ← hpair.1]
    exact Or.inr (List.mem_of_find?_eq_some hfind)

theorem scalar_float {repr : String} (h : isFloat repr = true) :
    Scalar repr.toList (.float repr) := by
  rcases isFloat_cases h with hnumber | hconstant
  · exact scalar_number hnumber
  · exact scalar_constant hconstant

end Scalars

section RoundTrip

theorem update_append {d entries : PyDict} (h : ((d ++ entries).map Prod.fst).Nodup) :
    PyDict.update d entries = d ++ entries := by
  have hset : ∀ (d : PyDict) (key : String) (value : PyData), key ∉ d.map Prod.fst →
      PyDict.set d key value = d ++ [(key, value)] := by
    intro d key value hkey
    induction d with
    | nil => rfl
    | cons entry d ih =>
      simp only [List.map_cons, List.mem_cons, not_or] at hkey
      simp [PyDict.set, Ne.symm hkey.1, ih hkey.2]
  induction entries generalizing d with
  | nil => rw [List.append_nil]; rfl
  | cons entry entries ih =>
    have hkey : entry.1 ∉ d.map Prod.fst := by
      rw [List.map_append, List.nodup_append] at h
      exact fun hmem => h.2.2 _ hmem _ (List.mem_cons_self ..) rfl
    have hstep : PyDict.update d (entry :: entries) =
        PyDict.update (PyDict.set d entry.1 entry.2) entries := rfl
    rw [hstep, hset d entry.1 entry.2 hkey, ih (by simpa using h)]
    simp

theorem readValue_scalar {text : List Char} {value : PyData} (h : Scalar text value)
    {rest : List Char} (hrest : Ends rest) (fuel : ℕ) :
    readValue (fuel + 1) (text ++ rest) = some (value, rest) := by
  have hreads := h.reads rest hrest
  obtain ⟨c, tail, rfl, -, hquote, hlist, -, hdict⟩ := h.head
  rw [List.cons_append] at hreads ⊢
  simp only [readValue, hquote, hlist, hdict, if_false]
  exact hreads

variable (L : Layout)

theorem scalar_bool (b : Bool) : Scalar (if b then "true" else "false").toList (.bool b) := by
  cases b <;> exact scalar_constant (by simp [constants])

/-- What a value is written as starts with no blank and with no closing bracket. -/
theorem head_write {value : PyData} (h : readable value = true) (level : ℕ) :
    ∃ c tail, L.write level value = c :: tail ∧ isBlank c = false ∧ c ≠ ']' := by
  have hscalar : ∀ {text : List Char} {value : PyData}, Scalar text value →
      ∃ c tail, text = c :: tail ∧ isBlank c = false ∧ c ≠ ']' := by
    intro text value hscalar
    obtain ⟨c, tail, htext, hblank, -, -, hclose, -⟩ := hscalar.head
    exact ⟨c, tail, htext, hblank, hclose⟩
  cases value with
  | none => exact ⟨_, _, rfl, rfl, by decide⟩
  | bool b => exact hscalar (scalar_bool b)
  | int n => exact hscalar (scalar_number (readNumber_int n))
  | float repr => exact hscalar (scalar_float h)
  | str text => exact ⟨_, _, rfl, rfl, by decide⟩
  | list items =>
    unfold Layout.write
    split_ifs
    · exact ⟨_, _, rfl, rfl, by decide⟩
    · exact ⟨_, _, rfl, rfl, by decide⟩
  | dict entries =>
    unfold Layout.write
    split_ifs
    · exact ⟨_, _, rfl, rfl, by decide⟩
    · exact ⟨_, _, rfl, rfl, by decide⟩
  | other => cases h

theorem skip_write {value : PyData} (h : readable value = true) (level : ℕ) (rest : List Char) :
    skip (L.write level value ++ rest) = L.write level value ++ rest := by
  obtain ⟨c, tail, heq, hblank, -⟩ := head_write L h level
  rw [heq, List.cons_append, skip_cons hblank]

section Members
variable {L}

def Layout.itemsEnd (L : Layout) (closing level : ℕ) (items : List PyData) (rest : List Char) :
    List Char :=
  L.writeItems level false items ++ (L.after closing ++ ']' :: rest)

def Layout.entriesEnd (L : Layout) (closing level : ℕ) (entries : List (String × PyData))
    (rest : List Char) : List Char :=
  L.writeEntries level false entries ++ (L.after closing ++ '\x7d' :: rest)

def Layout.entryText (L : Layout) (level : ℕ) (key : String) (value : PyData) (rest : List Char) :
    List Char :=
  '"' :: (key.toList.flatMap L.escape ++ '"' :: ':' :: (L.colon ++ (L.write level value ++ rest)))

theorem write_list (level : ℕ) (item : PyData) (items : List PyData) (rest : List Char) :
    L.write level (.list (item :: items)) ++ rest =
      '[' :: (L.before (level + 1) true ++
        (L.write (level + 1) item ++ L.itemsEnd level (level + 1) items rest)) := by
  simp [Layout.write, Layout.writeItems, Layout.separator, Layout.itemsEnd]

theorem itemsEnd_cons (closing level : ℕ) (item : PyData) (items : List PyData)
    (rest : List Char) :
    L.itemsEnd closing level (item :: items) rest =
      ',' :: (L.before level false ++
        (L.write level item ++ L.itemsEnd closing level items rest)) := by
  simp [Layout.writeItems, Layout.separator, Layout.itemsEnd]

theorem write_dict (level : ℕ) (key : String) (value : PyData) (entries : List (String × PyData))
    (rest : List Char) :
    L.write level (.dict ((key, value) :: entries)) ++ rest =
      '\x7b' :: (L.before (level + 1) true ++
        L.entryText (level + 1) key value (L.entriesEnd level (level + 1) entries rest)) := by
  simp [Layout.write, Layout.writeEntries, Layout.writeEntry, Layout.separator, Layout.quote,
    Layout.entryText, Layout.entriesEnd]

theorem entriesEnd_cons (closing level : ℕ) (key : String) (value : PyData)
    (entries : List (String × PyData)) (rest : List Char) :
    L.entriesEnd closing level ((key, value) :: entries) rest =
      ',' :: (L.before level false ++
        L.entryText level key value (L.entriesEnd closing level entries rest)) := by
  simp [Layout.writeEntries, Layout.writeEntry, Layout.separator, Layout.quote, Layout.entryText,
    Layout.entriesEnd]

theorem ends_itemsEnd (L : Layout) (closing level : ℕ) (items : List PyData) (rest : List Char) :
    Ends (L.itemsEnd closing level items rest) := by
  cases items with
  | nil => exact ends_blank _ (L.after_blank closing) (Or.inr (Or.inl rfl)) rest
  | cons item items =>
    rw [itemsEnd_cons]
    exact ends_blank [] rfl (Or.inl rfl) _

theorem ends_entriesEnd (L : Layout) (closing level : ℕ) (entries : List (String × PyData))
    (rest : List Char) : Ends (L.entriesEnd closing level entries rest) := by
  cases entries with
  | nil => exact ends_blank _ (L.after_blank closing) (Or.inr (Or.inr rfl)) rest
  | cons entry entries =>
    rw [entriesEnd_cons]
    exact ends_blank [] rfl (Or.inl rfl) _

theorem skip_itemsEnd_nil (closing level : ℕ) (rest : List Char) :
    skip (L.itemsEnd closing level [] rest) = ']' :: rest :=
  skip_blank (L.after_blank closing) _

theorem skip_entriesEnd_nil (closing level : ℕ) (rest : List Char) :
    skip (L.entriesEnd closing level [] rest) = '\x7d' :: rest :=
  skip_blank (L.after_blank closing) _

theorem skip_entryText (level : ℕ) (key : String) (value : PyData) (rest : List Char) :
    skip (L.entryText level key value rest) = L.entryText level key value rest :=
  skip_cons rfl _

theorem length_entryText (level : ℕ) (key : String) (value : PyData) (rest : List Char) :
    (L.write level value ++ rest).length < (L.entryText level key value rest).length := by
  simp only [Layout.entryText, List.length_cons, List.length_append]
  omega

end Members

theorem readString_write (key : String) (rest : List Char) :
    readString (key.toList.flatMap L.escape ++ '"' :: rest) = some (key.toList, rest) :=
  readString_quote key.toList rest L.spells

mutual

theorem readValue_write (value : PyData) (level : ℕ) (rest : List Char) (fuel : ℕ)
    (h : readable value = true) (hrest : Ends rest)
    (hfuel : 2 * (L.write level value ++ rest).length + 1 ≤ fuel) :
    readValue fuel (L.write level value ++ rest) = some (value, rest) := by
  cases fuel with
  | zero => exact absurd hfuel (Nat.not_succ_le_zero _)
  | succ fuel =>
    cases value with
    | none =>
      rw [Layout.write]
      exact readValue_scalar (scalar_constant (by simp [constants])) hrest fuel
    | bool b =>
      rw [Layout.write]
      exact readValue_scalar (scalar_bool b) hrest fuel
    | int n =>
      rw [Layout.write]
      exact readValue_scalar (scalar_number (readNumber_int n)) hrest fuel
    | float repr =>
      rw [Layout.write]
      exact readValue_scalar (scalar_float h) hrest fuel
    | str text =>
      have hread := readString_write L text rest
      simp only [Layout.write, Layout.quote, List.cons_append, List.append_assoc, List.nil_append,
        readValue, if_true, hread, Option.map_some, String.ofList_toList]
    | list items =>
      cases items with
      | nil => rfl
      | cons item items =>
        rw [readable, readableItems, Bool.and_eq_true] at h
        rw [write_list] at hfuel ⊢
        have hitems := readItems_write item items level (level + 1) rest fuel
          h.1 h.2 (by simp only [List.length_append, List.length_cons] at hfuel ⊢; omega)
        have hfirst : (L.write (level + 1) item ++
            L.itemsEnd level (level + 1) items rest).head? ≠ some ']' := by
          obtain ⟨c, tail, hhead, -, hclose⟩ := head_write L h.1 (level + 1)
          rw [hhead]
          exact fun heq => hclose (Option.some.inj heq)
        simp only [readValue, skip_blank (L.before_blank _ _), skip_write L h.1, hfirst, hitems,
          Char.reduceEq, if_true, if_false, Option.map_some]
    | dict entries =>
      cases entries with
      | nil => rfl
      | cons entry entries =>
        cases entry with
        | mk key value =>
          rw [readable, readableEntries, readableEntry, Bool.and_eq_true, Bool.and_eq_true,
            decide_eq_true_eq] at h
          rw [write_dict] at hfuel ⊢
          have hentries := readEntries_write key value entries level (level + 1) rest fuel
            h.2.1 h.2.2
            (by simp only [List.length_append, List.length_cons] at hfuel ⊢; omega)
          have hfirst : (L.entryText (level + 1) key value
              (L.entriesEnd level (level + 1) entries rest)).head? ≠ some '\x7d' := by
            simp [Layout.entryText]
          simp only [readValue, skip_blank (L.before_blank _ _), skip_entryText, hfirst, hentries,
            Char.reduceEq, if_true, if_false, Option.map_some, update_append (d := []) h.1,
            List.nil_append]
    | other => cases h
termination_by sizeOf value

theorem readItems_write (item : PyData) (items : List PyData) (closing level : ℕ)
    (rest : List Char) (fuel : ℕ) (h : readable item = true) (hitems : readableItems items = true)
    (hfuel : 2 * (L.write level item ++ L.itemsEnd closing level items rest).length + 2 ≤ fuel) :
    readItems fuel (L.write level item ++ L.itemsEnd closing level items rest) =
      some (item :: items, rest) := by
  cases fuel with
  | zero => exact absurd hfuel (Nat.not_succ_le_zero _)
  | succ fuel =>
    have hitem := readValue_write item level _ fuel h
      (ends_itemsEnd L closing level items rest) (by omega)
    rw [readItems, hitem]
    cases items with
    | nil => simp only [skip_itemsEnd_nil, List.head?_cons, List.tail_cons, Option.some.injEq,
        Char.reduceEq, if_true, if_false]
    | cons next items =>
      rw [readableItems, Bool.and_eq_true] at hitems
      rw [itemsEnd_cons] at hfuel ⊢
      have hnext := readItems_write next items closing level rest fuel
        hitems.1 hitems.2 (by simp only [List.length_append, List.length_cons] at hfuel ⊢; omega)
      have hcomma : isBlank ',' = false := rfl
      simp only [skip_cons hcomma, List.head?_cons, List.tail_cons, if_true,
        skip_blank (L.before_blank _ _), skip_write L hitems.1, hnext, Option.map_some]
termination_by sizeOf item + sizeOf items + 1

theorem readEntries_write (key : String) (value : PyData) (entries : List (String × PyData))
    (closing level : ℕ) (rest : List Char) (fuel : ℕ) (h : readable value = true)
    (hentries : readableEntries entries = true)
    (hfuel : 2 * (L.entryText level key value
      (L.entriesEnd closing level entries rest)).length + 2 ≤ fuel) :
    readEntries fuel (L.entryText level key value (L.entriesEnd closing level entries rest)) =
      some ((key, value) :: entries, rest) := by
  cases fuel with
  | zero => exact absurd hfuel (Nat.not_succ_le_zero _)
  | succ fuel =>
    have hlength := length_entryText (L := L) level key value
      (L.entriesEnd closing level entries rest)
    have hvalue := readValue_write value level _ fuel h
      (ends_entriesEnd L closing level entries rest) (by omega)
    have hcolon : isBlank ':' = false := rfl
    rw [Layout.entryText]
    simp only [readEntries, List.head?_cons, List.tail_cons, if_true, readString_write L key,
      skip_cons hcolon, skip_blank L.colon_blank, skip_write L h, hvalue, String.ofList_toList]
    cases entries with
    | nil => simp only [skip_entriesEnd_nil, List.head?_cons, List.tail_cons, Option.some.injEq,
        Char.reduceEq, if_true, if_false]
    | cons next entries =>
      cases next with
      | mk nextKey nextValue =>
        rw [readableEntries, readableEntry, Bool.and_eq_true] at hentries
        rw [entriesEnd_cons] at hfuel hlength ⊢
        have hnext := readEntries_write nextKey nextValue entries closing level rest fuel
          hentries.1 hentries.2
          (by simp only [List.length_append, List.length_cons] at hfuel hlength ⊢; omega)
        have hcomma : isBlank ',' = false := rfl
        simp only [skip_cons hcomma, List.head?_cons, List.tail_cons, if_true,
          skip_blank (L.before_blank _ _), skip_entryText, hnext, Option.map_some]
termination_by sizeOf value + sizeOf entries + 1

end

/-- The reader takes back what a writer wrote, in any layout. -/
theorem loads_write {value : PyData} (h : readable value = true) {text : List Char}
    (htext : skip text = L.write 0 value) : loads text = some value := by
  have hlength : (L.write 0 value).length ≤ text.length :=
    htext ▸ (List.dropWhile_suffix isBlank).length_le
  have hread := readValue_write L value 0 [] (2 * text.length + 1) h
    (fun _ hc => absurd hc (by simp)) (by rw [List.append_nil]; omega)
  rw [List.append_nil] at hread
  unfold loads
  rw [htext, hread]
  rfl

end RoundTrip

section IndentTwo

/-- `json.dump(data, f, indent=2)` -/
def indentTwo : Layout where
  before level _ := (PyData.newline level).text
  after level := (PyData.newline level).text
  colon := [' ']
  escape := PyData.escapeChar
  before_blank level _ := by simp [PyData.newline, isBlank]
  after_blank level := by simp [PyData.newline, isBlank]
  colon_blank := rfl
  spells := spells_escapeChar

theorem text_separator (level : ℕ) (first : Bool) :
    (PyData.separator level first).text = indentTwo.separator level first := by
  cases first <;> rfl

theorem text_append {a : Dumped} (h : a.complete = true) (b : Dumped) :
    (a ++ b).text = a.text ++ b.text := by
  show (Dumped.append a b).text = _
  unfold Dumped.append
  rw [if_pos h]

mutual

theorem serializable_of_readable : ∀ value, readable value = true →
    PyData.serializable value = true
  | .none, _ | .bool _, _ | .int _, _ | .float _, _ | .str _, _ => rfl
  | .other, h => by cases h
  | .list items, h => allItems_of_readable items h
  | .dict entries, h => by
    rw [readable, Bool.and_eq_true] at h
    exact allEntries_of_readable entries h.2

theorem allItems_of_readable : ∀ items, readableItems items = true → PyData.allItems items = true
  | [], _ => rfl
  | item :: items, h => by
    rw [readableItems, Bool.and_eq_true] at h
    rw [PyData.allItems, serializable_of_readable item h.1, allItems_of_readable items h.2]
    rfl

theorem allEntries_of_readable : ∀ entries, readableEntries entries = true →
    PyData.allEntries entries = true
  | [], _ => rfl
  | entry :: entries, h => by
    rw [readableEntries, Bool.and_eq_true] at h
    rw [PyData.allEntries, entrySerializable_of_readable entry h.1,
      allEntries_of_readable entries h.2]
    rfl

theorem entrySerializable_of_readable : ∀ entry, readableEntry entry = true →
    PyData.entrySerializable entry = true
  | (_, value), h => serializable_of_readable value h

end

mutual

theorem text_dumpAt (level : ℕ) : ∀ data, PyData.serializable data = true →
    (PyData.dumpAt level data).text = indentTwo.write level data
  | .none, _ | .bool _, _ | .int _, _ | .float _, _ | .str _, _ => by
    simp [PyData.dumpAt, Layout.write, Layout.quote, Dumped.ofString, PyData.quote, indentTwo]
  | .other, h => by cases h
  | .list items, h => by
    have hitems := PyData.complete_dumpItems (level + 1) true items
    rw [PyData.serializable] at h
    unfold PyData.dumpAt Layout.write
    split_ifs
    · rfl
    · rw [text_append, text_append, text_append, text_dumpItems (level + 1) true items h]
      · rfl
      all_goals simp [Dumped.complete_append, hitems, h]
  | .dict entries, h => by
    have hentries := PyData.complete_dumpEntries (level + 1) true entries
    rw [PyData.serializable] at h
    unfold PyData.dumpAt Layout.write
    split_ifs
    · rfl
    · rw [text_append, text_append, text_append, text_dumpEntries (level + 1) true entries h]
      · rfl
      all_goals simp [Dumped.complete_append, hentries, h]

theorem text_dumpItems (level : ℕ) (first : Bool) : ∀ items, PyData.allItems items = true →
    (PyData.dumpItems level first items).text = indentTwo.writeItems level first items
  | [], _ => rfl
  | item :: items, h => by
    rw [PyData.allItems, Bool.and_eq_true] at h
    unfold PyData.dumpItems Layout.writeItems
    rw [text_append, text_append, text_separator, text_dumpAt level item h.1,
      text_dumpItems level false items h.2]
    all_goals simp [Dumped.complete_append, PyData.complete_dumpAt, h.1]

theorem text_dumpEntries (level : ℕ) (first : Bool) : ∀ entries,
    PyData.allEntries entries = true →
      (PyData.dumpEntries level first entries).text = indentTwo.writeEntries level first entries
  | [], _ => rfl
  | entry :: entries, h => by
    rw [PyData.allEntries, Bool.and_eq_true] at h
    unfold PyData.dumpEntries Layout.writeEntries
    rw [text_append, text_append, text_separator, text_dumpEntry level entry h.1,
      text_dumpEntries level false entries h.2]
    all_goals simp [Dumped.complete_append, PyData.complete_dumpEntry, h.1]

theorem text_dumpEntry (level : ℕ) : ∀ entry, PyData.entrySerializable entry = true →
    (PyData.dumpEntry level entry).text = indentTwo.writeEntry level entry
  | (key, value), h => by
    unfold PyData.dumpEntry Layout.writeEntry
    rw [text_append, text_append, text_dumpAt level value h]
    · simp [PyData.quote, Layout.quote, Dumped.ofString, indentTwo]
    · rfl
    · rfl

end

/-- The reader takes back what `json.dump` with an indentation of two wrote. -/
theorem loads_dump {value : PyData} (h : readable value = true) :
    loads (PyData.dump value).text = some value := by
  have htext := text_dumpAt 0 value (serializable_of_readable value h)
  refine loads_write indentTwo h ?_
  rw [PyData.dump, htext, ← List.append_nil (indentTwo.write 0 value), skip_write indentTwo h]

end IndentTwo
section Printable

def printable (c : Char) : Bool := decide (32 ≤ c.toNat ∧ c.toNat ≤ 126)

theorem printable_digit {c : Char} (h : c.isDigit = true) : printable c = true := by
  simp only [Char.isDigit, Bool.and_eq_true, decide_eq_true_eq, UInt32.le_iff_toNat_le] at h
  exact decide_eq_true ⟨le_trans (by decide) h.1, le_trans h.2 (by decide)⟩

theorem printable_takeDigits (text : List Char) :
    (text.takeWhile Char.isDigit).all printable = true :=
  List.all_eq_true.mpr fun _ hc => printable_digit (List.mem_takeWhile_imp hc)

theorem printable_toDigits (n : ℕ) : (Nat.toDigits 10 n).all printable = true :=
  List.all_eq_true.mpr fun _ hc =>
    printable_digit (Nat.isDigit_of_mem_toDigits (by decide) (by decide) hc)

theorem printable_int (n : ℤ) : (toString n).toList.all printable = true := by
  cases n with
  | ofNat n =>
    rw [show (toString (Int.ofNat n)).toList = Nat.toDigits 10 n from Nat.toList_repr]
    exact printable_toDigits n
  | negSucc n =>
    rw [show (toString (Int.negSucc n)).toList = '-' :: Nat.toDigits 10 (n + 1) by
      show ("-" ++ Nat.repr (n + 1)).toList = _
      simp [Nat.toList_repr]]
    exact printable_toDigits (n + 1)

theorem printable_readMinus (text : List Char) : (readMinus text).1.all printable = true := by
  unfold readMinus
  split_ifs <;> rfl

theorem printable_readWhole (text : List Char) : (readWhole text).1.all printable = true := by
  unfold readWhole
  split_ifs
  · rfl
  · exact printable_takeDigits text

theorem printable_readFraction (text : List Char) :
    (readFraction text).1.all printable = true := by
  unfold readFraction
  split_ifs
  · exact printable_takeDigits text.tail
  · rfl

theorem printable_readSign (text : List Char) : (readSign text).1.all printable = true := by
  cases text with
  | nil => rfl
  | cons c text =>
    by_cases hc : c = '+' ∨ c = '-'
    · simp only [readSign, if_pos hc]
      rcases hc with rfl | rfl <;> rfl
    · simp only [readSign, if_neg hc, List.all_nil]

theorem printable_readExponent (text : List Char) :
    (readExponent text).1.all printable = true := by
  cases text with
  | nil => rfl
  | cons c text =>
    unfold readExponent
    dsimp only
    split_ifs with hc
    · have hletter : printable c = true := by
        rcases hc.1 with rfl | rfl <;> rfl
      simp [hletter, printable_readSign, printable_takeDigits]
    · rfl

theorem printable_readNumber {text rest : List Char} {repr : String}
    (h : readNumber text = some (.float repr, rest)) : repr.toList.all printable = true := by
  unfold readNumber at h
  dsimp only at h
  split_ifs at h
  · cases h
  · cases h
  · obtain rfl := PyData.float.inj (Prod.mk.inj (Option.some.inj h)).1
    simp only [String.toList_ofList, List.all_append, printable_readMinus, printable_readWhole,
      printable_readFraction, printable_readExponent, Bool.and_self]

theorem printable_float {repr : String} (h : isFloat repr = true) :
    repr.toList.all printable = true := by
  rcases isFloat_cases h with hnumber | hconstant
  · exact printable_readNumber hnumber
  · have hall : ∀ c ∈ constants, c.1.all printable = true := by
      simp only [constants, List.forall_mem_cons]
      decide
    exact hall _ hconstant

/-- Everything the layout adds to the printable characters keeps to `allowed`. -/
structure Layout.KeepsTo (L : Layout) (allowed : Char → Bool) : Prop where
  printable : ∀ c, printable c = true → allowed c = true
  before : ∀ level first, (L.before level first).all allowed = true
  after : ∀ level, (L.after level).all allowed = true
  colon : L.colon.all allowed = true
  escape : ∀ c, (L.escape c).all allowed = true

namespace Layout.KeepsTo
variable {L : Layout} {allowed : Char → Bool} (h : L.KeepsTo allowed)
include h

theorem of_printable {text : List Char} (htext : text.all Json.printable = true) :
    text.all allowed = true :=
  List.all_eq_true.mpr fun c hc => h.printable c (List.all_eq_true.mp htext c hc)

theorem quote (text : String) : (L.quote text).all allowed = true := by
  have hquote : allowed '"' = true := h.printable _ rfl
  simp [Layout.quote, hquote, List.all_flatMap, h.escape]

theorem separator (level : ℕ) (first : Bool) : (L.separator level first).all allowed = true := by
  have hcomma : allowed ',' = true := h.printable _ rfl
  cases first <;> simp [Layout.separator, hcomma, h.before]

mutual

theorem write (level : ℕ) : ∀ value, readable value = true →
    (L.write level value).all allowed = true
  | .none, _ => by
    rw [Layout.write]
    exact h.of_printable rfl
  | .bool b, _ => by
    rw [Layout.write]
    cases b <;> exact h.of_printable rfl
  | .int n, _ => by
    rw [Layout.write]
    exact h.of_printable (printable_int n)
  | .float repr, hfloat => by
    rw [Layout.write]
    exact h.of_printable (printable_float hfloat)
  | .str text, _ => by
    rw [Layout.write]
    exact h.quote text
  | .list items, hitems => by
    have hopen : allowed '[' = true := h.printable _ rfl
    have hclose : allowed ']' = true := h.printable _ rfl
    unfold Layout.write
    split_ifs
    · exact h.of_printable rfl
    · simp [hopen, hclose, writeItems (level + 1) true items hitems, h.after]
  | .dict entries, hdict => by
    have hopen : allowed '\x7b' = true := h.printable _ rfl
    have hclose : allowed '\x7d' = true := h.printable _ rfl
    rw [readable, Bool.and_eq_true] at hdict
    unfold Layout.write
    split_ifs
    · exact h.of_printable rfl
    · simp [hopen, hclose, writeEntries (level + 1) true entries hdict.2, h.after]
  | .other, hother => by cases hother

theorem writeItems (level : ℕ) (first : Bool) : ∀ items, readableItems items = true →
    (L.writeItems level first items).all allowed = true
  | [], _ => rfl
  | item :: items, hitems => by
    rw [readableItems, Bool.and_eq_true] at hitems
    unfold Layout.writeItems
    simp [h.separator, write level item hitems.1, writeItems level false items hitems.2]

theorem writeEntries (level : ℕ) (first : Bool) : ∀ entries, readableEntries entries = true →
    (L.writeEntries level first entries).all allowed = true
  | [], _ => rfl
  | entry :: entries, hentries => by
    rw [readableEntries, Bool.and_eq_true] at hentries
    unfold Layout.writeEntries
    simp [h.separator, writeEntry level entry hentries.1,
      writeEntries level false entries hentries.2]

theorem writeEntry (level : ℕ) : ∀ entry, readableEntry entry = true →
    (L.writeEntry level entry).all allowed = true
  | (key, value), hvalue => by
    have hcolon : allowed ':' = true := h.printable _ rfl
    unfold Layout.writeEntry
    simp [h.quote, hcolon, h.colon, write level value hvalue]

end

end Layout.KeepsTo
end Printable

section OnOneLine

/-- `json.dumps(data)` -/
def spaced : Layout where
  before _ first := if first then [] else [' ']
  after _ := []
  colon := [' ']
  escape := PyData.escapeChar
  before_blank _ first := by cases first <;> rfl
  after_blank _ := rfl
  colon_blank := rfl
  spells := spells_escapeChar

def escapeControl (c : Char) : List Char :=
  if c = '"' ∨ c = '\\' ∨ c.toNat < 32 then PyData.escapeChar c else [c]

/-- No space is written, and no character beyond ASCII is escaped. -/
def compact : Layout where
  before _ _ := []
  after _ := []
  colon := []
  escape := escapeControl
  before_blank _ _ := rfl
  after_blank _ := rfl
  colon_blank := rfl
  spells c := by
    unfold escapeControl
    split_ifs with hc
    · exact spells_escapeChar c
    · simp only [not_or, Nat.not_lt] at hc
      exact spells_raw hc.1 hc.2.1 hc.2.2

def notBreak (c : Char) : Bool := c != '\n' && c != '\r'

theorem notBreak_of_printable {c : Char} (h : printable c = true) : notBreak c = true := by
  unfold notBreak
  rw [Bool.and_eq_true, bne_iff_ne, bne_iff_ne]
  constructor <;>
  · rintro rfl
    exact absurd h (by decide)

theorem printable_unicodeEscape (n : ℕ) : (PyData.unicodeEscape n).all printable = true := by
  have hdigit : ∀ n, n < 16 → printable (Nat.digitChar n) = true := by decide
  have hhex : ∀ n, printable (PyData.hexDigit n) = true := fun n =>
    hdigit _ (Nat.mod_lt _ (Nat.succ_pos 15))
  simp only [PyData.unicodeEscape, List.all_cons, hhex, List.all_nil]
  rfl

theorem printable_escapeChar (c : Char) : (PyData.escapeChar c).all printable = true := by
  unfold PyData.escapeChar
  split_ifs with h₁ h₂ h₃ h₄ h₅ h₆ h₇ h₈ h₉
  iterate 7 rfl
  · simpa [printable] using h₈
  · exact printable_unicodeEscape _
  · simp only [List.all_append, printable_unicodeEscape, Bool.and_self]

theorem spaced_oneLine : spaced.KeepsTo notBreak where
  printable _ := notBreak_of_printable
  before _ first := by cases first <;> rfl
  after _ := rfl
  colon := rfl
  escape c := List.all_eq_true.mpr fun d hd =>
    notBreak_of_printable (List.all_eq_true.mp (printable_escapeChar c) d hd)

theorem compact_oneLine : compact.KeepsTo notBreak where
  printable _ := notBreak_of_printable
  before _ _ := rfl
  after _ := rfl
  colon := rfl
  escape c := by
    simp only [compact, escapeControl]
    split_ifs with hc
    · exact List.all_eq_true.mpr fun d hd =>
        notBreak_of_printable (List.all_eq_true.mp (printable_escapeChar c) d hd)
    · simp only [not_or, Nat.not_lt] at hc
      rw [List.all_cons, List.all_nil, Bool.and_true, notBreak, Bool.and_eq_true, bne_iff_ne,
        bne_iff_ne]
      constructor <;>
      · rintro rfl
        exact absurd hc.2.2 (by decide)

end OnOneLine
end Json
