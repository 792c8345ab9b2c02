import CudaForge.Library.CommonSubsequence
import CudaForge.Library.CountedLoop

/-! The dynamic program behind the ROUGE-L score. -/
namespace CudaForge.Evaluation
open CommonSubsequence

/-- `dp[i][j]` -/
def cell (dp : List (List ℕ)) (i j : ℕ) : ℕ := (dp.getD i []).getD j 0

/-- `dp[i][j] = value` -/
def setCell (dp : List (List ℕ)) (i j value : ℕ) : List (List ℕ) :=
  dp.modify i fun row => row.set j value

/-- The body of the inner loop. -/
def lcsEntry (seq1 seq2 : List ℤ) (i : ℕ) (dp : List (List ℕ)) (j : ℕ) : List (List ℕ) :=
  if seq1[i - 1]? = seq2[j - 1]? then setCell dp i j (cell dp (i - 1) (j - 1) + 1)
  else setCell dp i j (max (cell dp (i - 1) j) (cell dp i (j - 1)))

def lcsRow (seq1 seq2 : List ℤ) (dp : List (List ℕ)) (i : ℕ) : List (List ℕ) :=
  (List.range' 1 seq2.length).foldl (lcsEntry seq1 seq2 i) dp

def lcsLength (seq1 seq2 : List ℤ) : ℕ :=
  let m := seq1.length
  let n := seq2.length
  let dp := List.replicate (m + 1) (List.replicate (n + 1) 0)
  cell ((List.range' 1 m).foldl (lcsRow seq1 seq2) dp) m n

/-- The table has a row for each prefix of one list and a column for each prefix of the other. -/
structure Shaped (m n : ℕ) (dp : List (List ℕ)) : Prop where
  rows : dp.length = m + 1
  cols : ∀ i, i ≤ m → (dp.getD i []).length = n + 1

section Cells
variable {m n i j : ℕ} {dp : List (List ℕ)}

theorem row_setCell (h : Shaped m n dp) (hi : i ≤ m) (v a : ℕ) :
    (setCell dp i j v).getD a [] = if a = i then (dp.getD i []).set j v else dp.getD a [] := by
  have hlt : i < dp.length := by rw [h.rows]; omega
  simp only [setCell, List.getD_eq_getElem?_getD, List.getElem?_modify]
  by_cases ha : a = i
  · subst ha
    simp only [if_true, List.getElem?_eq_getElem hlt, Option.map_eq_map, Option.map_some,
      Option.getD_some]
  · simp only [Ne.symm ha, ha, if_false, Option.map_eq_map, Option.map_id']

theorem shaped_setCell (h : Shaped m n dp) (hi : i ≤ m) (v : ℕ) :
    Shaped m n (setCell dp i j v) := by
  constructor
  · rw [setCell, List.length_modify, h.rows]
  · intro a ha
    rw [row_setCell h hi]
    split_ifs
    · rw [List.length_set, h.cols i hi]
    · exact h.cols a ha

theorem cell_setCell (h : Shaped m n dp) (hi : i ≤ m) (hj : j ≤ n) (v a b : ℕ) :
    cell (setCell dp i j v) a b = if a = i ∧ b = j then v else cell dp a b := by
  rw [cell, row_setCell h hi]
  by_cases ha : a = i
  · have hlt : j < (dp.getD i []).length := by rw [h.cols i hi]; omega
    subst ha
    rw [if_pos rfl, cell]
    generalize dp.getD a [] = row at hlt ⊢
    rw [List.getD_eq_getElem?_getD, List.getD_eq_getElem?_getD, List.getElem?_set]
    by_cases hb : b = j
    · subst hb
      rw [if_pos rfl, if_pos hlt, if_pos ⟨rfl, rfl⟩, Option.getD_some]
    · rw [if_neg (Ne.symm hb), if_neg fun hab => hb hab.2]
  · rw [if_neg ha, if_neg fun hab => ha hab.1, cell]

theorem shaped_replicate : Shaped m n (List.replicate (m + 1) (List.replicate (n + 1) 0)) := by
  constructor
  · rw [List.length_replicate]
  · intro i hi
    rw [List.getD_eq_getElem?_getD, List.getElem?_replicate, if_pos (by omega), Option.getD_some,
      List.length_replicate]

theorem cell_replicate (a b : ℕ) :
    cell (List.replicate (m + 1) (List.replicate (n + 1) 0)) a b = 0 := by
  simp only [cell, List.getD_eq_getElem?_getD, List.getElem?_replicate]
  split_ifs
  · rw [Option.getD_some, List.getElem?_replicate]
    split_ifs <;> rfl
  · rfl

end Cells

/-- The entry `(a, b)` is on the border or comes before the entry `(i, j)`. -/
def Done (i j a b : ℕ) : Prop := a = 0 ∨ b = 0 ∨ a < i ∨ (a = i ∧ b < j)

structure Filled (seq1 seq2 : List ℤ) (i j : ℕ) (dp : List (List ℕ)) : Prop where
  shaped : Shaped seq1.length seq2.length dp
  longest : ∀ a b, a ≤ seq1.length → b ≤ seq2.length → Done i j a b →
    IsLongest (seq1.take a) (seq2.take b) (cell dp a b)

section Filling
variable {seq1 seq2 : List ℤ} {i j : ℕ} {dp : List (List ℕ)}

theorem filled_init :
    Filled seq1 seq2 1 1
      (List.replicate (seq1.length + 1) (List.replicate (seq2.length + 1) 0)) := by
  refine ⟨shaped_replicate, fun a b _ _ h => ?_⟩
  rw [cell_replicate]
  have hborder : a = 0 ∨ b = 0 := by unfold Done at h; omega
  rcases hborder with rfl | rfl
  · rw [List.take_zero]
    exact isLongest_nil_left
  · rw [List.take_zero]
    exact isLongest_nil_right

/-- Setting the entry `(i, j)` to the length for its prefixes fills one entry more. -/
theorem Filled.setCell (h : Filled seq1 seq2 i j dp) (hi : i ≤ seq1.length)
    (hj : j ≤ seq2.length) {v : ℕ} (hv : IsLongest (seq1.take i) (seq2.take j) v) :
    Filled seq1 seq2 i (j + 1) (setCell dp i j v) := by
  refine ⟨shaped_setCell h.shaped hi v, fun a b ha hb hdone => ?_⟩
  rw [cell_setCell h.shaped hi hj]
  split_ifs with hab
  · rwa [hab.1, hab.2]
  · exact h.longest a b ha hb (by unfold Done at hdone ⊢; omega)

theorem filled_entry (h : Filled seq1 seq2 i j dp) (hi : 1 ≤ i) (hi' : i ≤ seq1.length)
    (hj : 1 ≤ j) (hj' : j ≤ seq2.length) :
    Filled seq1 seq2 i (j + 1) (lcsEntry seq1 seq2 i dp j) := by
  obtain ⟨i, rfl⟩ : ∃ i', i = i' + 1 := ⟨i - 1, by omega⟩
  obtain ⟨j, rfl⟩ : ∃ j', j = j' + 1 := ⟨j - 1, by omega⟩
  have htake₁ : seq1.take (i + 1) = seq1.take i ++ [seq1[i]] := List.take_succ_eq_append_getElem hi'
  have htake₂ : seq2.take (j + 1) = seq2.take j ++ [seq2[j]] := List.take_succ_eq_append_getElem hj'
  rw [lcsEntry, Nat.add_sub_cancel, Nat.add_sub_cancel, List.getElem?_eq_getElem hi',
    List.getElem?_eq_getElem hj']
  split_ifs with heads
  · have hdiag := h.longest i j (by omega) (by omega) (by unfold Done; omega)
    have hv := hdiag.concat_eq seq1[i]
    refine h.setCell hi' hj' ?_
    rw [htake₁, htake₂, ← Option.some.inj heads]
    exact hv
  · have habove := h.longest i (j + 1) (by omega) hj' (by unfold Done; omega)
    have hleft := h.longest (i + 1) j hi' (by omega) (by unfold Done; omega)
    refine h.setCell hi' hj' ?_
    rw [htake₂] at habove
    rw [htake₁] at hleft
    rw [htake₁, htake₂]
    exact habove.concat_ne (fun heq => heads (congrArg some heq)) hleft

theorem filled_row (h : Filled seq1 seq2 i 1 dp) (hi : 1 ≤ i) (hi' : i ≤ seq1.length) :
    Filled seq1 seq2 (i + 1) 1 (lcsRow seq1 seq2 dp i) := by
  have hrow := CountedLoop.foldl_range' (f := lcsEntry seq1 seq2 i) (Filled seq1 seq2 i)
    (n := seq2.length) h fun j dp hj hj' hdp => filled_entry hdp hi hi' hj (by omega)
  refine ⟨hrow.shaped, fun a b ha hb hdone => hrow.longest a b ha hb ?_⟩
  unfold Done at hdone ⊢
  omega

theorem filled_table :
    Filled seq1 seq2 (1 + seq1.length) 1
      ((List.range' 1 seq1.length).foldl (lcsRow seq1 seq2)
        (List.replicate (seq1.length + 1) (List.replicate (seq2.length + 1) 0))) :=
  CountedLoop.foldl_range' (f := lcsRow seq1 seq2) (fun i => Filled seq1 seq2 i 1) filled_init
    fun _ _ hi hi' h => filled_row h hi (by omega)

end Filling

theorem lcsLength_spec (seq1 seq2 : List ℤ) : IsLongest seq1 seq2 (lcsLength seq1 seq2) := by
  have h := filled_table.longest seq1.length seq2.length le_rfl le_rfl
    (by unfold Done; omega)
  rwa [List.take_length, List.take_length] at h

/-- The table's last entry is the greatest length of a list that is a subsequence of both. -/
theorem lcsLength_isLongest (seq1 seq2 : List ℤ) :
    IsGreatest {k | ∃ zs : List ℤ, zs.Sublist seq1 ∧ zs.Sublist seq2 ∧ zs.length = k}
      (lcsLength seq1 seq2) :=
  lcsLength_spec seq1 seq2

example : lcsLength [1, 2, 3, 2, 4] [2, 4, 3, 1, 2] = 3 := by decide

end CudaForge.Evaluation
