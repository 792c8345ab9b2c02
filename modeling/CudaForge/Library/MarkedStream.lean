import Mathlib.Data.List.Infix
import Mathlib.Tactic

/-! Streams that end with their first marked element. -/
namespace MarkedStream
universe u
variable {α : Type u} {p : α → Bool} {l m : List α}

def upTo (p : α → Bool) : List α → List α
  | [] => []
  | a :: l => if p a then [a] else a :: upTo p l

@[simp] theorem upTo_nil : upTo p [] = [] := rfl

/-- What comes behind unmarked elements is cut on its own. -/
theorem upTo_append_of_unmarked (h : ∀ a ∈ l, p a = false) : upTo p (l ++ m) = l ++ upTo p m := by
  induction l with
  | nil => rfl
  | cons a l ih =>
    obtain ⟨ha, hl⟩ := List.forall_mem_cons.mp h
    simp only [List.cons_append, upTo, ha, Bool.false_eq_true, if_false, ih hl]

theorem upTo_of_unmarked (h : ∀ a ∈ l, p a = false) : upTo p l = l := by
  simpa using upTo_append_of_unmarked (m := []) h

/-- What comes behind a marked element is cut off. -/
theorem upTo_append_of_marked {a : α} (ha : a ∈ l) (hp : p a = true) :
    upTo p (l ++ m) = upTo p l := by
  induction l with
  | nil => exact absurd ha List.not_mem_nil
  | cons b l ih =>
    simp only [List.cons_append, upTo]
    split_ifs with hb
    · rfl
    · rcases List.mem_cons.mp ha with rfl | ha
      · exact absurd hp hb
      · rw [ih ha]

theorem prefix_upTo (p : α → Bool) (l : List α) : upTo p l <+: l := by
  induction l with
  | nil => exact List.prefix_rfl
  | cons a l ih =>
    simp only [upTo]
    split_ifs
    · exact (List.prefix_cons_inj a).mpr List.nil_prefix
    · exact (List.prefix_cons_inj a).mpr ih

/-- A longer list adds to the stream only what it adds to the list. -/
theorem exists_upTo_append (p : α → Bool) (l m : List α) :
    ∃ n, n <+: m ∧ upTo p (l ++ m) = upTo p l ++ n := by
  by_cases h : ∃ a ∈ l, p a = true
  · obtain ⟨a, ha, hp⟩ := h
    exact ⟨[], List.nil_prefix, by rw [upTo_append_of_marked ha hp, List.append_nil]⟩
  · have hl : ∀ a ∈ l, p a = false := fun a ha =>
      Bool.eq_false_iff.mpr fun hp => h ⟨a, ha, hp⟩
    refine ⟨upTo p m, prefix_upTo p m, ?_⟩
    rw [upTo_append_of_unmarked hl, upTo_of_unmarked hl]

/-- A part of the stream that has a marked element is all of it. -/
theorem eq_nil_of_marked {n : List α} {a : α} (h : upTo p l = m ++ n) (ha : a ∈ m)
    (hp : p a = true) : n = [] := by
  induction l generalizing m with
  | nil =>
    obtain ⟨hm, -⟩ := List.append_eq_nil_iff.mp h.symm
    rw [hm] at ha
    exact absurd ha List.not_mem_nil
  | cons b l ih =>
    obtain ⟨c, m, rfl⟩ := List.exists_cons_of_ne_nil (List.ne_nil_of_mem ha)
    simp only [upTo] at h
    split_ifs at h with hb
    · obtain ⟨-, htail⟩ := List.cons.inj h
      exact (List.append_eq_nil_iff.mp htail.symm).2
    · obtain ⟨rfl, htail⟩ := List.cons.inj h
      rcases List.mem_cons.mp ha with rfl | ha
      · exact absurd hp hb
      · exact ih htail ha

end MarkedStream
