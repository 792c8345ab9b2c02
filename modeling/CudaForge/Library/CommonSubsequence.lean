import Mathlib.Order.Bounds.Basic
import Mathlib.Tactic

/-! Longest common subsequences of two lists, from those of their prefixes. -/
namespace CommonSubsequence
variable {α : Type*} {xs ys : List α} {a b : α} {k l : ℕ}

def lengths (xs ys : List α) : Set ℕ :=
  {k | ∃ zs : List α, zs.Sublist xs ∧ zs.Sublist ys ∧ zs.length = k}

def IsLongest (xs ys : List α) (k : ℕ) : Prop := IsGreatest (lengths xs ys) k

/-- A subsequence either leaves the last element out or ends with it. -/
theorem sublist_concat_iff {zs : List α} :
    zs.Sublist (xs ++ [a]) ↔ zs.Sublist xs ∨ ∃ zs', zs = zs' ++ [a] ∧ zs'.Sublist xs := by
  rw [List.sublist_append_iff]
  constructor
  · rintro ⟨l₁, l₂, rfl, h₁, h₂⟩
    rcases List.sublist_singleton.mp h₂ with rfl | rfl
    · exact .inl (by rwa [List.append_nil])
    · exact .inr ⟨l₁, rfl, h₁⟩
  · rintro (h | ⟨zs', rfl, h⟩)
    · exact ⟨zs, [], (List.append_nil _).symm, h, List.nil_sublist _⟩
    · exact ⟨zs', [a], rfl, h, List.Sublist.refl _⟩

theorem isLongest_nil_left : IsLongest [] ys 0 := by
  constructor
  · exact ⟨[], List.Sublist.refl _, List.nil_sublist _, rfl⟩
  · rintro k ⟨zs, hxs, -, rfl⟩
    rw [List.sublist_nil.mp hxs, List.length_nil]

theorem isLongest_nil_right : IsLongest xs [] 0 := by
  constructor
  · exact ⟨[], List.nil_sublist _, List.Sublist.refl _, rfl⟩
  · rintro k ⟨zs, -, hys, rfl⟩
    rw [List.sublist_nil.mp hys, List.length_nil]

/-- Without its last element, a subsequence of a list is one of the list without its last. -/
theorem dropLast_sublist {zs : List α} (h : zs.Sublist (xs ++ [a])) : zs.dropLast.Sublist xs := by
  rcases sublist_concat_iff.mp h with h | ⟨zs', rfl, h⟩
  · exact (List.dropLast_sublist zs).trans h
  · rwa [List.dropLast_concat]

/-- Two lists with the same last element: the longest common subsequence ends with it. -/
theorem IsLongest.concat_eq (h : IsLongest xs ys k) (a : α) :
    IsLongest (xs ++ [a]) (ys ++ [a]) (k + 1) := by
  obtain ⟨⟨zs, hxs, hys, hlen⟩, hmax⟩ := h
  constructor
  · refine ⟨zs ++ [a], hxs.append (List.Sublist.refl _), hys.append (List.Sublist.refl _), ?_⟩
    rw [List.length_append, hlen, List.length_singleton]
  · rintro l ⟨ws, hwx, hwy, rfl⟩
    -- what is left of a common subsequence without its last element is common to the prefixes
    have hle : ws.dropLast.length ≤ k :=
      hmax ⟨ws.dropLast, dropLast_sublist hwx, dropLast_sublist hwy, rfl⟩
    rw [List.length_dropLast] at hle
    omega

/-- Two lists with different last elements: a common subsequence leaves one of them out. -/
theorem IsLongest.concat_ne (hne : a ≠ b) (hleft : IsLongest xs (ys ++ [b]) k)
    (hright : IsLongest (xs ++ [a]) ys l) :
    IsLongest (xs ++ [a]) (ys ++ [b]) (max k l) := by
  constructor
  · rcases le_total k l with h | h
    · obtain ⟨zs, hxs, hys, hlen⟩ := hright.1
      exact ⟨zs, hxs, hys.trans (List.sublist_append_left ys [b]), by rw [hlen, max_eq_right h]⟩
    · obtain ⟨zs, hxs, hys, hlen⟩ := hleft.1
      exact ⟨zs, hxs.trans (List.sublist_append_left xs [a]), hys, by rw [hlen, max_eq_left h]⟩
  · rintro m ⟨ws, hwx, hwy, rfl⟩
    rcases sublist_concat_iff.mp hwx with hx | ⟨vs, rfl, -⟩
    · exact (hleft.2 ⟨ws, hx, hwy, rfl⟩).trans (le_max_left k l)
    · rcases sublist_concat_iff.mp hwy with hy | ⟨us, heq, -⟩
      · exact (hright.2 ⟨vs ++ [a], hwx, hy, rfl⟩).trans (le_max_right k l)
      · exact absurd (List.append_inj' heq rfl).2 (by simpa using hne)

section Bounds

theorem IsLongest.le_left (h : IsLongest xs ys k) : k ≤ xs.length := by
  obtain ⟨zs, hxs, -, rfl⟩ := h.1
  exact hxs.length_le

theorem IsLongest.le_right (h : IsLongest xs ys k) : k ≤ ys.length := by
  obtain ⟨zs, -, hys, rfl⟩ := h.1
  exact hys.length_le

/-- Only a list has a subsequence of its own length in common with another of that length. -/
theorem IsLongest.eq_iff (h : IsLongest xs ys k) : k = xs.length ∧ k = ys.length ↔ xs = ys := by
  constructor
  · rintro ⟨hx, hy⟩
    obtain ⟨zs, hxs, hys, rfl⟩ := h.1
    rw [← hxs.eq_of_length hx, ← hys.eq_of_length hy]
  · rintro rfl
    have hle := h.2 ⟨xs, List.Sublist.refl _, List.Sublist.refl _, rfl⟩
    exact ⟨le_antisymm h.le_left hle, le_antisymm h.le_left hle⟩

/-- The places of a prefix at which two lists agree hold a common subsequence. -/
theorem exists_agreements [DecidableEq α] {n : ℕ} (hx : n ≤ xs.length) (hy : n ≤ ys.length) :
    ∃ zs : List α, zs.Sublist (xs.take n) ∧ zs.Sublist (ys.take n) ∧
      zs.length = (List.range n).countP fun i => xs[i]? = ys[i]? := by
  induction n with
  | zero => exact ⟨[], List.nil_sublist _, List.nil_sublist _, rfl⟩
  | succ n ih =>
    obtain ⟨zs, hxs, hys, hlen⟩ := ih (Nat.le_of_succ_le hx) (Nat.le_of_succ_le hy)
    rw [List.range_succ, List.countP_append, ← hlen, List.countP_singleton,
      List.take_succ_eq_append_getElem hx, List.take_succ_eq_append_getElem hy]
    by_cases hagree : xs[n]? = ys[n]?
    · have hsame : xs[n] = ys[n] := by
        rwa [List.getElem?_eq_getElem hx, List.getElem?_eq_getElem hy, Option.some.injEq] at hagree
      refine ⟨zs ++ [xs[n]], hxs.append (List.Sublist.refl _), ?_, ?_⟩
      · rw [hsame]
        exact hys.append (List.Sublist.refl _)
      · rw [if_pos (decide_eq_true hagree), List.length_append, List.length_singleton]
    · refine ⟨zs, hxs.trans (List.sublist_append_left _ _),
        hys.trans (List.sublist_append_left _ _), ?_⟩
      rw [if_neg (by simpa using hagree), Nat.add_zero]

/-- Two lists agree at no more places than their longest common subsequence is long. -/
theorem IsLongest.agreements_le [DecidableEq α] (h : IsLongest xs ys k) :
    ((List.range (min xs.length ys.length)).countP fun i => xs[i]? = ys[i]?) ≤ k := by
  obtain ⟨zs, hxs, hys, hlen⟩ := exists_agreements (min_le_left xs.length ys.length)
    (min_le_right xs.length ys.length)
  rw [← hlen]
  exact h.2 ⟨zs, hxs.trans (List.take_sublist _ _), hys.trans (List.take_sublist _ _), rfl⟩

end Bounds

end CommonSubsequence
