import CudaForge.Library.JsonText
import Mathlib.Data.List.TakeWhile
import Mathlib.Tactic.IntervalCases

/-!
The reader of JSON texts: `json.loads`. A float keeps the text that it was read from, and an escape
of a surrogate without its other half is refused, since it is no character.
-/
namespace Json

section Strings

def hexValue (c : Char) : Option ℕ :=
  if 48 ≤ c.toNat ∧ c.toNat ≤ 57 then some (c.toNat - 48)
  else if 97 ≤ c.toNat ∧ c.toNat ≤ 102 then some (c.toNat - 87)
  else if 65 ≤ c.toNat ∧ c.toNat ≤ 70 then some (c.toNat - 55)
  else none

def hexWord (a b c d : Char) : Option ℕ := do
  let a ← hexValue a
  let b ← hexValue b
  let c ← hexValue c
  let d ← hexValue d
  return 4096 * a + 256 * b + 16 * c + d

def shortEscapes : List (Char × ℕ) :=
  [('"', 34), ('\\', 92), ('/', 47), ('b', 8), ('f', 12), ('n', 10), ('r', 13), ('t', 9)]

/-- The code units of a string up to its closing quote, and what follows the quote. -/
def readUnits : List Char → Option (List ℕ × List Char)
  | [] => none
  | c :: rest =>
    if c = '"' then some ([], rest)
    else if c = '\\' then
      match rest with
      | [] => none
      | e :: rest =>
        if e = 'u' then
          match rest with
          | h₁ :: h₂ :: h₃ :: h₄ :: rest =>
            match hexWord h₁ h₂ h₃ h₄, readUnits rest with
            | some n, some (us, rest) => some (n :: us, rest)
            | _, _ => none
          | _ => none
        else
          match shortEscapes.lookup e, readUnits rest with
          | some n, some (us, rest) => some (n :: us, rest)
          | _, _ => none
    else if c.toNat < 32 then none
    else
      match readUnits rest with
      | some (us, rest) => some (c.toNat :: us, rest)
      | none => none

def joinUnits : List ℕ → Option (List Char)
  | [] => some []
  | u :: us =>
    if 0xd800 ≤ u ∧ u < 0xdc00 then
      match us with
      | [] => none
      | v :: us =>
        if 0xdc00 ≤ v ∧ v < 0xe000 then
          (joinUnits us).map (Char.ofNat (0x10000 + 0x400 * (u - 0xd800) + (v - 0xdc00)) :: ·)
        else none
    else if 0xdc00 ≤ u ∧ u < 0xe000 then none
    else (joinUnits us).map (Char.ofNat u :: ·)

def readString (text : List Char) : Option (List Char × List Char) := do
  let (us, rest) ← readUnits text
  let chars ← joinUnits us
  return (chars, rest)

/-- The reader takes `text` for the character, whatever follows. -/
def Spells (c : Char) (text : List Char) : Prop :=
  ∃ us : List ℕ,
    (∀ tail, readUnits (text ++ tail) = (readUnits tail).map fun r => (us ++ r.1, r.2)) ∧
    ∀ vs, joinUnits (us ++ vs) = (joinUnits vs).map (c :: ·)

theorem readString_quote (chars rest : List Char) {escape : Char → List Char}
    (h : ∀ c, Spells c (escape c)) :
    readString (chars.flatMap escape ++ '"' :: rest) = some (chars, rest) := by
  have hunits : ∃ us, readUnits (chars.flatMap escape ++ '"' :: rest) = some (us, rest) ∧
      joinUnits us = some chars := by
    induction chars with
    | nil => exact ⟨[], by rw [List.flatMap_nil, List.nil_append, readUnits.eq_def]; simp, rfl⟩
    | cons c chars ih =>
      obtain ⟨us, hread, hjoin⟩ := ih
      obtain ⟨vs, hunits, hchar⟩ := h c
      refine ⟨vs ++ us, ?_, ?_⟩
      · simp [List.flatMap_cons, List.append_assoc, hunits, hread]
      · simp [hchar, hjoin]
  obtain ⟨us, hread, hjoin⟩ := hunits
  simp [readString, hread, hjoin]

theorem joinUnits_char (c : Char) (vs : List ℕ) :
    joinUnits (c.toNat :: vs) = (joinUnits vs).map (c :: ·) := by
  have hvalid := c.valid
  have hrange : c.toNat < 0xd800 ∨ 0xdfff < c.toNat := by
    rcases hvalid with h | h
    · exact Or.inl h
    · exact Or.inr h.1
  rw [joinUnits.eq_def]
  simp only [Char.ofNat_toNat]
  split_ifs <;> first | omega | rfl

theorem spells_raw {c : Char} (hquote : c ≠ '"') (hslash : c ≠ '\\') (hcontrol : 32 ≤ c.toNat) :
    Spells c [c] := by
  refine ⟨[c.toNat], fun tail => ?_, fun vs => joinUnits_char c vs⟩
  rw [List.singleton_append, readUnits.eq_def]
  simp only [hquote, hslash, if_false, Nat.not_lt.mpr hcontrol]
  cases readUnits tail <;> rfl

theorem spells_short {c e : Char} (he : shortEscapes.lookup e = some c.toNat) :
    Spells c ['\\', e] := by
  refine ⟨[c.toNat], fun tail => ?_, fun vs => joinUnits_char c vs⟩
  have hu : e ≠ 'u' := by
    rintro rfl
    exact absurd he (by simp [shortEscapes, List.lookup_cons])
  rw [List.cons_append, List.singleton_append, readUnits.eq_def]
  simp only [hu, he, if_false]
  cases readUnits tail <;> simp

theorem hexValue_digitChar {n : ℕ} (h : n < 16) : hexValue (Nat.digitChar n) = some n := by
  decide +revert

theorem readUnits_unicodeEscape {n : ℕ} (h : n < 0x10000) (tail : List Char) :
    readUnits (PyData.unicodeEscape n ++ tail) =
      (readUnits tail).map fun r => ([n] ++ r.1, r.2) := by
  have hword : hexWord (PyData.hexDigit (n / 4096)) (PyData.hexDigit (n / 256))
      (PyData.hexDigit (n / 16)) (PyData.hexDigit n) = some n := by
    unfold hexWord PyData.hexDigit
    simp only [hexValue_digitChar (Nat.mod_lt _ (Nat.succ_pos 15)), Option.bind_eq_bind,
      Option.bind_some, Option.pure_def, Option.some.injEq]
    omega
  unfold PyData.unicodeEscape
  simp only [List.cons_append, List.nil_append]
  rw [readUnits.eq_def]
  simp only [hword, if_true]
  cases readUnits tail <;> simp

theorem spells_unicode {c : Char} (h : c.toNat < 0x10000) :
    Spells c (PyData.unicodeEscape c.toNat) :=
  ⟨[c.toNat], readUnits_unicodeEscape h, fun vs => joinUnits_char c vs⟩

theorem spells_surrogates {c : Char} (h : 0x10000 ≤ c.toNat) :
    Spells c (PyData.unicodeEscape (0xd800 + (c.toNat - 0x10000) / 0x400) ++
      PyData.unicodeEscape (0xdc00 + (c.toNat - 0x10000) % 0x400)) := by
  have hmax : c.toNat < 0x110000 := by
    rcases c.valid with hvalid | hvalid
    · exact hvalid.trans (by decide)
    · exact hvalid.2
  refine ⟨[0xd800 + (c.toNat - 0x10000) / 0x400, 0xdc00 + (c.toNat - 0x10000) % 0x400],
    fun tail => ?_, fun vs => ?_⟩
  · rw [List.append_assoc, readUnits_unicodeEscape (by omega), readUnits_unicodeEscape (by omega)]
    cases readUnits tail <;> rfl
  · have hchar : 0x10000 + 0x400 * (0xd800 + (c.toNat - 0x10000) / 0x400 - 0xd800) +
        (0xdc00 + (c.toNat - 0x10000) % 0x400 - 0xdc00) = c.toNat := by
      omega
    rw [List.cons_append, List.singleton_append, joinUnits, if_pos (by omega)]
    rw [if_pos (by omega), hchar, Char.ofNat_toNat]

theorem spells_escapeChar (c : Char) : Spells c (PyData.escapeChar c) := by
  unfold PyData.escapeChar
  split_ifs with h₁ h₂ h₃ h₄ h₅ h₆ h₇ h₈ h₉
  · exact spells_short (by rw [h₁]; rfl)
  · exact spells_short (by rw [h₂]; rfl)
  · exact spells_short (by rw [h₃]; rfl)
  · exact spells_short (by rw [h₄]; rfl)
  · exact spells_short (by rw [h₅]; rfl)
  · exact spells_short (by rw [h₆]; rfl)
  · exact spells_short (by rw [h₇]; rfl)
  · exact spells_raw h₁ h₂ h₈.1
  · exact spells_unicode h₉
  · exact spells_surrogates (Nat.not_lt.mp h₉)

end Strings

section Numbers

def readWhole (text : List Char) : List Char × List Char :=
  if text.head? = some '0' then (['0'], text.tail)
  else (text.takeWhile Char.isDigit, text.dropWhile Char.isDigit)

def readFraction (text : List Char) : List Char × List Char :=
  if text.head? = some '.' ∧ text.tail.takeWhile Char.isDigit ≠ [] then
    ('.' :: text.tail.takeWhile Char.isDigit, text.tail.dropWhile Char.isDigit)
  else ([], text)

def readSign (text : List Char) : List Char × List Char :=
  match text with
  | c :: rest => if c = '+' ∨ c = '-' then ([c], rest) else ([], text)
  | [] => ([], [])

def readExponent (text : List Char) : List Char × List Char :=
  match text with
  | c :: rest =>
    let digits := (readSign rest).2.takeWhile Char.isDigit
    if (c = 'e' ∨ c = 'E') ∧ digits ≠ [] then
      (c :: (readSign rest).1 ++ digits, (readSign rest).2.dropWhile Char.isDigit)
    else ([], text)
  | [] => ([], [])

def readMinus (text : List Char) : List Char × List Char :=
  if text.head? = some '-' then (['-'], text.tail) else ([], text)

def readNumber (text : List Char) : Option (PyData × List Char) :=
  let (sign, text) := readMinus text
  let (whole, text) := readWhole text
  if whole = [] then none
  else
    let (fraction, text) := readFraction text
    let (exponent, text) := readExponent text
    if fraction = [] ∧ exponent = [] then
      let n : ℤ := Nat.ofDigitChars 10 whole 0
      some (.int (if sign = [] then n else -n), text)
    else some (.float (String.ofList (sign ++ whole ++ fraction ++ exponent)), text)

def isBlank (c : Char) : Bool := c == ' ' || c == '\t' || c == '\n' || c == '\r'

def skip (text : List Char) : List Char := text.dropWhile isBlank

def Ends (rest : List Char) : Prop :=
  ∀ c ∈ rest.head?, isBlank c = true ∨ c = ',' ∨ c = ']' ∨ c = '\x7d'

theorem Ends.cases {rest : List Char} (h : Ends rest) : rest = [] ∨ ∃ c tail, rest = c :: tail ∧
    c.isDigit = false ∧ c ≠ '-' ∧ c ≠ '+' ∧ c ≠ '.' ∧ c ≠ 'e' ∧ c ≠ 'E' ∧ c ≠ '0' := by
  cases rest with
  | nil => exact Or.inl rfl
  | cons c tail =>
    refine Or.inr ⟨c, tail, rfl, ?_⟩
    have hc := h c rfl
    simp only [isBlank, Bool.or_eq_true, beq_iff_eq, or_assoc] at hc
    rcases hc with rfl | rfl | rfl | rfl | rfl | rfl | rfl <;> decide

section Append
variable {rest : List Char}

theorem tail_append {text : List Char} {c : Char} (hc : text.head? = some c) :
    (text ++ rest).tail = text.tail ++ rest := by
  cases text with
  | nil => cases hc
  | cons d text => rfl

variable (h : Ends rest) (text : List Char)
include h

theorem takeDigits_append : (text ++ rest).takeWhile Char.isDigit = text.takeWhile Char.isDigit ∧
    (text ++ rest).dropWhile Char.isDigit = text.dropWhile Char.isDigit ++ rest := by
  induction text with
  | nil =>
    rcases h.cases with rfl | ⟨c, tail, rfl, hdigit, -⟩
    · exact ⟨rfl, rfl⟩
    · simp [hdigit]
  | cons c text ih =>
    cases hc : c.isDigit <;> simp [hc, ih]

theorem head_append {c : Char} (hc : c = '0' ∨ c = '-' ∨ c = '.') :
    (text ++ rest).head? = some c ↔ text.head? = some c := by
  cases text with
  | cons d text => rfl
  | nil =>
    rcases h.cases with rfl | ⟨d, tail, rfl, hd⟩
    · rfl
    · rcases hc with rfl | rfl | rfl <;> simp [hd]

theorem readMinus_append :
    readMinus (text ++ rest) = ((readMinus text).1, (readMinus text).2 ++ rest) := by
  unfold readMinus
  simp only [head_append h text (Or.inr (Or.inl rfl))]
  split_ifs with hminus
  · rw [tail_append hminus]
  · rfl

theorem readWhole_append :
    readWhole (text ++ rest) = ((readWhole text).1, (readWhole text).2 ++ rest) := by
  unfold readWhole
  simp only [head_append h text (Or.inl rfl)]
  split_ifs with hzero
  · rw [tail_append hzero]
  · rw [(takeDigits_append h text).1, (takeDigits_append h text).2]

theorem readFraction_append :
    readFraction (text ++ rest) = ((readFraction text).1, (readFraction text).2 ++ rest) := by
  unfold readFraction
  simp only [head_append h text (Or.inr (Or.inr rfl))]
  by_cases hpoint : text.head? = some '.'
  · rw [tail_append hpoint, (takeDigits_append h _).1, (takeDigits_append h _).2]
    split_ifs <;> rfl
  · simp [hpoint]

theorem readSign_append :
    readSign (text ++ rest) = ((readSign text).1, (readSign text).2 ++ rest) := by
  cases text with
  | nil =>
    rcases h.cases with rfl | ⟨c, tail, rfl, hc⟩
    · rfl
    · simp [readSign, hc]
  | cons c text =>
    simp only [List.cons_append, readSign]
    split_ifs <;> rfl

theorem readExponent_append :
    readExponent (text ++ rest) = ((readExponent text).1, (readExponent text).2 ++ rest) := by
  cases text with
  | nil =>
    rcases h.cases with rfl | ⟨c, tail, rfl, hc⟩
    · rfl
    · simp [readExponent, hc]
  | cons c text =>
    simp only [List.cons_append, readExponent, readSign_append h text,
      (takeDigits_append h (readSign text).2).1, (takeDigits_append h (readSign text).2).2]
    split_ifs <;> rfl

theorem readNumber_append :
    readNumber (text ++ rest) = (readNumber text).map fun r => (r.1, r.2 ++ rest) := by
  unfold readNumber
  simp only [readMinus_append h, readWhole_append h, readFraction_append h,
    readExponent_append h]
  split_ifs <;> rfl

end Append

theorem head_toDigits {n : ℕ} (hn : 0 < n) : (Nat.toDigits 10 n).head? ≠ some '0' := by
  induction n using Nat.strongRecOn with
  | ind n ih =>
    by_cases hlt : n < 10
    · rw [Nat.toDigits_of_lt_base hlt]
      interval_cases n <;> decide
    · rw [Nat.toDigits_of_base_le (by decide) (Nat.not_lt.mp hlt), List.head?_append_of_ne_nil _
        Nat.toDigits_ne_nil]
      exact ih _ (Nat.div_lt_self hn (by decide)) (Nat.div_pos (Nat.not_lt.mp hlt) (by decide))

theorem readWhole_toDigits (n : ℕ) : readWhole (Nat.toDigits 10 n) = (Nat.toDigits 10 n, []) := by
  rcases Nat.eq_zero_or_pos n with rfl | hn
  · rfl
  · have hdigits : ∀ c ∈ Nat.toDigits 10 n, c.isDigit = true := fun c hc =>
      Nat.isDigit_of_mem_toDigits (by decide) (by decide) hc
    unfold readWhole
    rw [if_neg (head_toDigits hn), List.takeWhile_eq_self_iff.mpr hdigits,
      List.dropWhile_eq_nil_iff.mpr hdigits]

theorem readNumber_nat (n : ℕ) :
    readNumber (Nat.toDigits 10 n) = some (.int n, []) := by
  have hminus : (Nat.toDigits 10 n).head? ≠ some '-' := fun hc =>
    absurd (Nat.isDigit_of_mem_toDigits (by decide) (by decide) (List.mem_of_mem_head? hc))
      (by decide)
  unfold readNumber
  simp [readMinus, hminus, readWhole_toDigits, readFraction, readExponent]

theorem readNumber_neg (n : ℕ) :
    readNumber ('-' :: Nat.toDigits 10 n) = some (.int (-n), []) := by
  unfold readNumber
  simp [readMinus, readWhole_toDigits, readFraction, readExponent]

theorem readNumber_int (n : ℤ) : readNumber (toString n).toList = some (.int n, []) := by
  cases n with
  | ofNat n =>
    rw [show (toString (Int.ofNat n)).toList = Nat.toDigits 10 n from Nat.toList_repr]
    exact readNumber_nat n
  | negSucc n =>
    rw [show (toString (Int.negSucc n)).toList = '-' :: Nat.toDigits 10 (n + 1) by
      show ("-" ++ Nat.repr (n + 1)).toList = _
      simp [Nat.toList_repr]]
    exact readNumber_neg (n + 1)

end Numbers

section Values

def constants : List (List Char × PyData) :=
  [("null".toList, .none), ("true".toList, .bool true), ("false".toList, .bool false),
    ("NaN".toList, .float "NaN"), ("Infinity".toList, .float "Infinity"),
    ("-Infinity".toList, .float "-Infinity")]

def readConstant (text : List Char) : Option (PyData × List Char) :=
  (constants.find? fun c => c.1.isPrefixOf text).map fun c => (c.2, text.drop c.1.length)

mutual

def readValue : ℕ → List Char → Option (PyData × List Char)
  | 0, _ => none
  | fuel + 1, text =>
    match text with
    | [] => none
    | c :: rest =>
      if c = '"' then (readString rest).map fun r => (.str (String.ofList r.1), r.2)
      else if c = '[' then
        if (skip rest).head? = some ']' then some (.list [], (skip rest).tail)
        else (readItems fuel (skip rest)).map fun r => (.list r.1, r.2)
      else if c = '\x7b' then
        if (skip rest).head? = some '\x7d' then some (.dict [], (skip rest).tail)
        else (readEntries fuel (skip rest)).map fun r => (.dict (PyDict.update [] r.1), r.2)
      else (readNumber text).orElse fun _ => readConstant text

def readItems : ℕ → List Char → Option (List PyData × List Char)
  | 0, _ => none
  | fuel + 1, text =>
    match readValue fuel text with
    | none => none
    | some (item, rest) =>
      if (skip rest).head? = some ',' then
        (readItems fuel (skip (skip rest).tail)).map fun r => (item :: r.1, r.2)
      else if (skip rest).head? = some ']' then some ([item], (skip rest).tail)
      else none

def readEntries : ℕ → List Char → Option (PyDict × List Char)
  | 0, _ => none
  | fuel + 1, text =>
    if text.head? = some '"' then
      match readString text.tail with
      | none => none
      | some (key, rest) =>
        if (skip rest).head? = some ':' then
          match readValue fuel (skip (skip rest).tail) with
          | none => none
          | some (value, rest) =>
            if (skip rest).head? = some ',' then
              (readEntries fuel (skip (skip rest).tail)).map fun r =>
                ((String.ofList key, value) :: r.1, r.2)
            else if (skip rest).head? = some '\x7d' then
              some ([(String.ofList key, value)], (skip rest).tail)
            else none
        else none
    else none

end

/-- Every call but those of a member takes a character, so the length bounds their nesting. -/
def loads (text : List Char) : Option PyData :=
  match readValue (2 * text.length + 1) (skip text) with
  | some (value, rest) => if skip rest = [] then some value else none
  | none => none

end Values
end Json

example : (Json.loads "[1, \"a\\u00e9\"]".toList).map (fun v => (PyData.dump v).text) =
    some "[\n  1,\n  \"a\\u00e9\"\n]".toList := by decide +kernel
