import Mathlib.Data.List.MinMax
import Mathlib.Tactic

/-! The first greatest element of a list, and the loop of `std::max_element` that finds it. -/
universe u

namespace FirstMaximum
variable {α : Type u}

section Loop
variable [LT α] [DecidableLT α]

/-- The rest of the scan at index `i`, when `largest` at index `best` is the greatest so far. -/
def maxElementLoop : List α → α → ℕ → ℕ → ℕ
  | [], _, best, _ => best
  | x :: xs, largest, best, i =>
    if largest < x then maxElementLoop xs x i (i + 1) else maxElementLoop xs largest best (i + 1)

/-- The distance of `std::max_element` from the begin; of an empty range it is the end. -/
def maxElement : List α → ℕ
  | [] => 0
  | x :: xs => maxElementLoop xs x 0 1

/-- Whatever the comparison does, the result is an index of the range. -/
theorem maxElementLoop_lt (xs : List α) (largest : α) {best i : ℕ} (h : best < i) :
    maxElementLoop xs largest best i < i + xs.length := by
  induction xs generalizing largest best i with
  | nil => exact h
  | cons x xs ih =>
    unfold maxElementLoop
    rw [List.length_cons, ← Nat.add_assoc, Nat.add_right_comm]
    split_ifs
    · exact ih x (Nat.lt_succ_self i)
    · exact ih largest (Nat.lt_succ_of_lt h)

theorem maxElement_lt {row : List α} (h : row ≠ []) : maxElement row < row.length := by
  cases row with
  | nil => contradiction
  | cons x xs =>
    rw [List.length_cons, Nat.add_comm]
    exact maxElementLoop_lt xs x Nat.zero_lt_one

end Loop

section Order
variable [LinearOrder α]

def firstArgmax (row : List α) : ℕ := row.findIdx fun x => row.all fun y => y ≤ x

/-- `i` is an index of a greatest element, and the elements before it are smaller. -/
structure IsFirst (row : List α) (i : ℕ) (x : α) : Prop where
  get : row[i]? = some x
  greatest : ∀ y ∈ row, y ≤ x
  first : ∀ j y, j < i → row[j]? = some y → y < x

theorem IsFirst.firstArgmax_eq {row : List α} {i : ℕ} {x : α} (h : IsFirst row i x) :
    firstArgmax row = i := by
  obtain ⟨hi, hget⟩ := List.getElem?_eq_some_iff.mp h.get
  rw [firstArgmax, List.findIdx_eq hi]
  constructor
  · rw [hget, List.all_eq_true]
    exact fun y hy => decide_eq_true (h.greatest y hy)
  · intro j hj
    have hlt := h.first j row[j] hj (List.getElem?_eq_getElem _)
    rw [Bool.eq_false_iff, Ne, List.all_eq_true]
    intro hall
    have hle := of_decide_eq_true (hall x (List.mem_of_getElem? h.get))
    exact absurd hle hlt.not_ge

/-- The scan keeps the first maximum of the elements it has seen. -/
theorem IsFirst.maxElementLoop {seen xs : List α} {best : ℕ} {largest : α}
    (h : IsFirst seen best largest) :
    ∃ x, IsFirst (seen ++ xs) (maxElementLoop xs largest best seen.length) x := by
  induction xs generalizing seen best largest with
  | nil =>
    rw [List.append_nil]
    exact ⟨largest, h⟩
  | cons x xs ih =>
    have hbest := (List.getElem?_eq_some_iff.mp h.get).1
    unfold FirstMaximum.maxElementLoop
    rw [← List.concat_append, ← List.length_concat (a := x)]
    split_ifs with hlt
    · refine ih ⟨?_, fun y hy => ?_, fun j y hj hy => ?_⟩
      · rw [List.concat_eq_append, List.getElem?_concat_length]
      · rw [List.concat_eq_append, List.mem_append, List.mem_singleton] at hy
        rcases hy with hy | rfl
        · exact (h.greatest y hy).trans hlt.le
        · exact le_rfl
      · rw [List.concat_eq_append, List.getElem?_append_left hj] at hy
        exact (h.greatest y (List.mem_of_getElem? hy)).trans_lt hlt
    · refine ih ⟨?_, fun y hy => ?_, fun j y hj hy => ?_⟩
      · rw [List.concat_eq_append, List.getElem?_append_left hbest]
        exact h.get
      · rw [List.concat_eq_append, List.mem_append, List.mem_singleton] at hy
        rcases hy with hy | rfl
        · exact h.greatest y hy
        · exact not_lt.mp hlt
      · rw [List.concat_eq_append, List.getElem?_append_left (hj.trans hbest)] at hy
        exact h.first j y hj hy

theorem maxElement_isFirst {row : List α} (h : row ≠ []) : ∃ x, IsFirst row (maxElement row) x := by
  cases row with
  | nil => contradiction
  | cons x xs =>
    have hstart : IsFirst [x] 0 x :=
      ⟨rfl, fun y hy => (List.mem_singleton.mp hy).le, fun j y hj => absurd hj (Nat.not_lt_zero j)⟩
    exact hstart.maxElementLoop

/-- `std::max_element` finds the first argmax. -/
theorem maxElement_eq (row : List α) : maxElement row = firstArgmax row := by
  cases row with
  | nil => rfl
  | cons x xs =>
    obtain ⟨y, hfirst⟩ := maxElement_isFirst (List.cons_ne_nil x xs)
    exact hfirst.firstArgmax_eq.symm

structure IsFirstIndex (f : ℕ → α) (n i : ℕ) : Prop where
  lt : i < n
  greatest : ∀ j < n, f j ≤ f i
  first : ∀ j < i, f j < f i

theorem IsFirstIndex.unique {f : ℕ → α} {n i j : ℕ} (hi : IsFirstIndex f n i)
    (hj : IsFirstIndex f n j) : i = j := by
  by_contra hne
  rcases Nat.lt_or_gt_of_ne hne with hlt | hlt
  · exact absurd (hi.greatest j hj.lt) (hj.first i hlt).not_ge
  · exact absurd (hj.greatest i hi.lt) (hi.first j hlt).not_ge

theorem IsFirstIndex.congr {f g : ℕ → α} {n i : ℕ} (h : ∀ j < n, f j = g j)
    (hi : IsFirstIndex f n i) : IsFirstIndex g n i where
  lt := hi.lt
  greatest := fun j hj => by
    rw [← h j hj, ← h i hi.lt]
    exact hi.greatest j hj
  first := fun j hj => by
    rw [← h j (hj.trans hi.lt), ← h i hi.lt]
    exact hi.first j hj

/-- A later index with a greater value takes over. -/
theorem IsFirstIndex.succ_of_lt {f : ℕ → α} {n : ℕ} (h : ∀ j < n, f j < f n) :
    IsFirstIndex f (n + 1) n := by
  refine ⟨Nat.lt_succ_self n, fun j hj => ?_, h⟩
  rcases Nat.lt_succ_iff_lt_or_eq.mp hj with hlt | rfl
  · exact (h j hlt).le
  · exact le_rfl

theorem IsFirstIndex.succ_of_le {f : ℕ → α} {n i : ℕ} (hi : IsFirstIndex f n i) (h : f n ≤ f i) :
    IsFirstIndex f (n + 1) i := by
  refine ⟨hi.lt.trans (Nat.lt_succ_self n), fun j hj => ?_, hi.first⟩
  rcases Nat.lt_succ_iff_lt_or_eq.mp hj with hlt | rfl
  · exact hi.greatest j hlt
  · exact h

theorem exists_isFirstIndex (f : ℕ → α) {n : ℕ} (hn : 0 < n) : ∃ i, IsFirstIndex f n i := by
  induction n with
  | zero => exact absurd hn (lt_irrefl 0)
  | succ n ih =>
    rcases Nat.eq_zero_or_pos n with rfl | hpos
    · exact ⟨0, .succ_of_lt nofun⟩
    · obtain ⟨i, hi⟩ := ih hpos
      rcases le_or_gt (f n) (f i) with hle | hlt
      · exact ⟨i, hi.succ_of_le hle⟩
      · exact ⟨n, .succ_of_lt fun j hj => (hi.greatest j hj).trans_lt hlt⟩

end Order

end FirstMaximum
