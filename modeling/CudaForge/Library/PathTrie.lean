import Mathlib.Data.List.Infix
import Mathlib.Tactic

/-!
Tries as partial maps on paths. A node is named by the keys from it up to the root, so that the
child of `path` under `k` is `k :: path`.
-/
universe u v

abbrev PathTrie (κ : Type u) (α : Type v) := List κ → Option α

namespace PathTrie
variable {κ : Type u} {α : Type v} {β : Type*}

def empty : PathTrie κ α := fun _ => none

/-- The values met when keys computed on the way down are followed as far as children exist. -/
def walk (t : PathTrie κ α) (key : List κ → β → κ) : List β → List κ → List α
  | [], _ => []
  | b :: rest, path =>
    match t (key path b :: path) with
    | some v => v :: walk t key rest (key path b :: path)
    | none => []

/-- The path reached when a list of keys is computed on the way down. -/
def descend (key : List κ → β → κ) (path : List κ) (bs : List β) : List κ :=
  bs.foldl (fun path b => key path b :: path) path

section Walk
variable {t : PathTrie κ α} {path : List κ} {v : α} {key : List κ → β → κ} {bs : List β} {i : ℕ}

@[simp] theorem descend_nil : descend key path [] = path := rfl

@[simp] theorem descend_cons (b : β) :
    descend key path (b :: bs) = descend key (key path b :: path) bs := rfl

theorem descend_concat (b : β) :
    descend key path (bs ++ [b]) = key (descend key path bs) b :: descend key path bs := by
  simp only [descend, List.foldl_append, List.foldl_cons, List.foldl_nil]

theorem descend_append (bs' : List β) :
    descend key path (bs ++ bs') = descend key (descend key path bs) bs' := List.foldl_append

@[simp] theorem descend_length : (descend key path bs).length = path.length + bs.length := by
  induction bs generalizing path with
  | nil => rfl
  | cons b rest ih =>
    rw [descend_cons, ih, List.length_cons, List.length_cons, Nat.succ_add_eq_add_succ]

theorem suffix_descend : path <:+ descend key path bs := by
  induction bs generalizing path with
  | nil => exact List.suffix_refl path
  | cons b rest ih => exact (List.suffix_cons _ path).trans ih

theorem descend_take_suffix (i : ℕ) : descend key path (bs.take i) <:+ descend key path bs := by
  conv_rhs => rw [← List.take_append_drop i bs, descend_append]
  exact suffix_descend

/-- The ancestors of a path are the paths of the shorter descents. -/
theorem eq_descend_of_suffix {p : List κ} (h : p <:+ descend key [] bs) :
    p = descend key [] (bs.take p.length) := by
  have hle : p.length ≤ bs.length := by simpa using h.length_le
  have hlen : (descend key [] (bs.take p.length)).length = p.length := by
    simpa using hle
  exact (List.suffix_of_suffix_length_le h (descend_take_suffix p.length) hlen.ge).eq_of_length
    hlen.symm

theorem walk_length_le : (walk t key bs path).length ≤ bs.length := by
  induction bs generalizing path with
  | nil => exact Nat.le_refl 0
  | cons b rest ih =>
    unfold walk
    cases t (key path b :: path) with
    | none => exact Nat.zero_le _
    | some v => exact Nat.succ_le_succ ih

/-- What the walk met is what the trie holds on the way. -/
theorem walk_some (h : (walk t key bs path)[i]? = some v) :
    t (descend key path (bs.take (i + 1))) = some v := by
  induction bs generalizing path i with
  | nil => simp only [walk, List.getElem?_nil, reduceCtorEq] at h
  | cons b rest ih =>
    unfold walk at h
    cases hv : t (key path b :: path) with
    | none => simp only [hv, List.getElem?_nil, reduceCtorEq] at h
    | some w =>
      simp only [hv] at h
      cases i with
      | zero => exact hv.trans h
      | succ i => exact ih h

/-- A walk that stops early stops where the trie has no child. -/
theorem walk_stop (t : PathTrie κ α) (key : List κ → β → κ) (bs : List β) (path : List κ)
    (h : (walk t key bs path).length < bs.length) :
    t (descend key path (bs.take ((walk t key bs path).length + 1))) = none := by
  induction bs generalizing path with
  | nil => exact absurd h (Nat.not_lt_zero _)
  | cons b rest ih =>
    cases hv : t (key path b :: path) with
    | none =>
      simp only [walk, hv, List.length_nil]
      exact hv
    | some w =>
      simp only [walk, hv, List.length_cons, Nat.succ_lt_succ_iff] at h ⊢
      exact ih _ h

end Walk

/-- Every node but a child of the root has a parent. -/
def Closed (t : PathTrie κ α) : Prop := ∀ k p, p ≠ [] → t p = none → t (k :: p) = none

/-- Nothing lies below a missing node. -/
theorem Closed.none_of_suffix {t : PathTrie κ α} {p q : List κ} (h : t.Closed) (hp : p ≠ [])
    (hnone : t p = none) (hsuffix : p <:+ q) : t q = none := by
  obtain ⟨ks, rfl⟩ := hsuffix
  induction ks with
  | nil => exact hnone
  | cons k ks ih => exact h k (ks ++ p) (List.append_ne_nil_of_right_ne_nil ks hp) ih

section Insert
variable [DecidableEq κ]

/-- A new child without children; an old child is dropped with everything below it. -/
def insertChild (t : PathTrie κ α) (path : List κ) (k : κ) (v : α) : PathTrie κ α := fun p =>
  if p = k :: path then some v else if (k :: path) <:+ p then none else t p

variable {t : PathTrie κ α} {path p : List κ} {k : κ} {v w : α}

/-- A node of the new trie is the new child or was there before. -/
theorem insertChild_some (h : t.insertChild path k v p = some w) :
    p = k :: path ∧ w = v ∨ t p = some w := by
  unfold insertChild at h
  split_ifs at h with hp
  · exact Or.inl ⟨hp, (Option.some.inj h).symm⟩
  · exact Or.inr h

end Insert
end PathTrie
