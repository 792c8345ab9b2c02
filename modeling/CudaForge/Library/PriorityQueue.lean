import Mathlib.Data.Multiset.AddSub
import Mathlib.Tactic

/-! Priority queues by what push and pop promise, whatever they do with ties. -/
universe u v

/-- A comparison whose incomparable elements form ranks. -/
structure StrictWeak {α : Type u} (less : α → α → Bool) : Prop where
  asymm : ∀ a b, less a b = true → less b a = false
  negTrans : ∀ a b c, less a b = false → less b c = false → less a c = false

/-- Elements can be listed so that none comes before a greater one. -/
theorem StrictWeak.exists_sorted {α : Type u} {less : α → α → Bool} (hw : StrictWeak less)
    (m : Multiset α) :
    ∃ l : List α, (l : Multiset α) = m ∧ l.Pairwise fun a b => less a b = false := by
  obtain ⟨l, rfl⟩ := Quot.exists_rep m
  have htrans : ∀ a b c, (!less a b) = true → (!less b c) = true → (!less a c) = true := by
    intro a b c hab hbc
    rw [Bool.not_eq_true'] at hab hbc ⊢
    exact hw.negTrans a b c hab hbc
  have htotal : ∀ a b, ((!less a b) || !less b a) = true := by
    intro a b
    cases hab : less a b with
    | false => rfl
    | true => rw [hw.asymm a b hab]; rfl
  refine ⟨_, Multiset.coe_eq_coe.mpr (List.mergeSort_perm l fun a b => !less a b), ?_⟩
  exact (List.pairwise_mergeSort htrans htotal l).imp fun h => by rwa [Bool.not_eq_true'] at h

class PriorityQueue (Q : Type v) (α : outParam (Type u)) where
  empty : Q
  push : (α → α → Bool) → α → Q → Q
  /-- The top element and the queue without it. -/
  pop : (α → α → Bool) → Q → Option (α × Q)
  items : Q → Multiset α
  /-- The queue was built with this comparison only. -/
  Ordered : (α → α → Bool) → Q → Prop
  items_empty : items empty = 0
  items_push : ∀ less a q, items (push less a q) = a ::ₘ items q
  pop_none : ∀ {less q}, pop less q = none → items q = 0
  pop_some : ∀ {less q a q'}, pop less q = some (a, q') → items q = a ::ₘ items q'
  ordered_empty : ∀ less, Ordered less empty
  ordered_push : ∀ {less a q}, Ordered less q → Ordered less (push less a q)
  ordered_pop : ∀ {less q a q'}, Ordered less q → pop less q = some (a, q') → Ordered less q'
  pop_max : ∀ {less q a q'}, StrictWeak less → Ordered less q → pop less q = some (a, q') →
    ∀ b ∈ items q', less a b = false

namespace PriorityQueue

def select {α : Type u} (less : α → α → Bool) : List α → Option (α × List α)
  | [] => none
  | a :: l =>
    match select less l with
    | none => some (a, [])
    | some (b, l') => if less a b then some (b, a :: l') else some (a, l)

variable {α : Type u} {less : α → α → Bool}

theorem select_none {l : List α} (h : select less l = none) : l = [] := by
  cases l with
  | nil => rfl
  | cons a l =>
    simp only [select] at h
    split at h
    · contradiction
    · split_ifs at h

theorem select_some {l l' : List α} {a : α} (h : select less l = some (a, l')) :
    (l : Multiset α) = a ::ₘ (l' : Multiset α) := by
  induction l generalizing a l' with
  | nil => contradiction
  | cons b l ih =>
    simp only [select] at h
    split at h
    · rename_i hnone
      obtain ⟨rfl, rfl⟩ := Prod.mk.inj (Option.some.inj h)
      rw [select_none hnone]
      rfl
    · rename_i c rest hsome
      split_ifs at h
      · obtain ⟨rfl, rfl⟩ := Prod.mk.inj (Option.some.inj h)
        rw [← Multiset.cons_coe, ih hsome, ← Multiset.cons_coe, Multiset.cons_swap]
      · obtain ⟨rfl, rfl⟩ := Prod.mk.inj (Option.some.inj h)
        rfl

theorem select_max (hw : StrictWeak less) {l l' : List α} {a : α}
    (h : select less l = some (a, l')) : ∀ b ∈ l', less a b = false := by
  induction l generalizing a l' with
  | nil => contradiction
  | cons b l ih =>
    simp only [select] at h
    split at h
    · obtain ⟨rfl, rfl⟩ := Prod.mk.inj (Option.some.inj h)
      exact fun _ hb => absurd hb List.not_mem_nil
    · rename_i c rest hsome
      split_ifs at h with hless
      · obtain ⟨rfl, rfl⟩ := Prod.mk.inj (Option.some.inj h)
        intro d hd
        rcases List.mem_cons.mp hd with rfl | hd
        · exact hw.asymm _ _ hless
        · exact ih hsome d hd
      · obtain ⟨rfl, rfl⟩ := Prod.mk.inj (Option.some.inj h)
        intro d hd
        have hbc : less b c = false := Bool.eq_false_iff.mpr hless
        have hmem : d ∈ (l : Multiset α) := hd
        rw [select_some hsome, Multiset.mem_cons] at hmem
        rcases hmem with rfl | hd
        · exact hbc
        · exact hw.negTrans _ _ _ hbc (ih hsome d hd)

instance : PriorityQueue (List α) α where
  empty := []
  push _ a l := a :: l
  pop := select
  items l := l
  Ordered _ _ := True
  items_empty := rfl
  items_push _ _ _ := rfl
  pop_none h := congrArg _ (select_none h)
  pop_some := select_some
  ordered_empty _ := trivial
  ordered_push _ := trivial
  ordered_pop _ _ := trivial
  pop_max hw _ h := select_max hw h

end PriorityQueue
