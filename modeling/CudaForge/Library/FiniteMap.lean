import Mathlib.Data.List.AList
import Mathlib.Algebra.Order.BigOperators.Group.List
import Mathlib.Tactic

/-! Weighted totals over finite maps with unique keys. -/
universe u v w

abbrev FiniteMap (κ : Type u) (α : Type v) : Type (max u v) := AList fun _ : κ => α

namespace FiniteMap
variable {κ : Type u} {α : Type v} {β : Type w}

section Total
variable {M : Type*} [AddCommMonoid M]

def total (f : κ → α → M) (m : FiniteMap κ α) : M := (m.entries.map fun e => f e.1 e.2).sum

@[simp] theorem total_empty (f : κ → α → M) : total f (∅ : FiniteMap κ α) = 0 := rfl

theorem total_add (f g : κ → α → M) (m : FiniteMap κ α) :
    total (fun k v => f k v + g k v) m = total f m + total g m := List.sum_map_add

theorem total_sum {ι : Type*} (s : Finset ι) (f : ι → κ → α → M) (m : FiniteMap κ α) :
    total (fun k v => ∑ i ∈ s, f i k v) m = ∑ i ∈ s, total (f i) m := by
  induction s using Finset.cons_induction with
  | empty => simp [total]
  | cons i s hi ih => simp only [Finset.sum_cons, total_add, ih]

end Total

section Lookup
variable [DecidableEq κ] {m : FiniteMap κ α} {k k' : κ} {v v' : α}

theorem mem_of_lookup (h : m.lookup k = some v) : k ∈ m := AList.lookup_isSome.mp (by simp [h])

theorem lookup_insert_ite : (m.insert k v).lookup k' = if k' = k then some v else m.lookup k' := by
  split_ifs with h
  · subst h; exact AList.lookup_insert m
  · exact AList.lookup_insert_ne h

theorem lookup_erase_ite : (m.erase k).lookup k' = if k' = k then none else m.lookup k' := by
  split_ifs with h
  · subst h; exact AList.lookup_erase _ _
  · exact AList.lookup_erase_ne h

variable {M : Type*} [AddCommMonoid M] {f : κ → α → M}

theorem total_eq_of_lookup {m' : FiniteMap κ α} (h : ∀ k, m.lookup k = m'.lookup k) :
    total f m = total f m' := by
  have hp : m.entries.Perm m'.entries :=
    List.lookup_ext m.nodupKeys m'.nodupKeys fun k v => by
      have hk : m.entries.dlookup k = m'.entries.dlookup k := h k
      rw [hk]
  exact (hp.map _).sum_eq

theorem total_insert_of_notMem (h : k ∉ m) : total f (m.insert k v) = f k v + total f m := by
  simp only [total, AList.entries_insert_of_notMem h, List.map_cons, List.sum_cons]

theorem total_insert (m : FiniteMap κ α) (k : κ) (v : α) :
    total f (m.insert k v) = f k v + total f (m.erase k) := rfl

theorem total_erase (h : m.lookup k = some v) : f k v + total f (m.erase k) = total f m := by
  rw [← total_insert]
  apply total_eq_of_lookup
  intro k'
  rw [lookup_insert_ite]
  split_ifs with hk
  · rw [hk, h]
  · rfl

theorem total_insert_of_lookup (h : m.lookup k = some v) (v' : α) :
    f k v + total f (m.insert k v') = f k v' + total f m := by
  rw [total_insert, ← total_erase (f := f) h]
  exact add_left_comm _ _ _

section Ordered
variable [PartialOrder M] [CanonicallyOrderedAdd M]

theorem le_total (h : m.lookup k = some v) : f k v ≤ total f m := by
  rw [← total_erase (f := f) h]
  exact le_self_add

/-- A map whose entries are matched by heavier ones of another map has the smaller total. -/
theorem total_le_total [IsOrderedAddMonoid M] {g : κ → β → M} {m' : FiniteMap κ β}
    (h : ∀ k v, m.lookup k = some v → ∃ v', m'.lookup k = some v' ∧ f k v ≤ g k v') :
    total f m ≤ total g m' := by
  induction m using AList.insertRec generalizing m' with
  | H0 => exact zero_le
  | IH k v m hk ih =>
    obtain ⟨v', hv', hle⟩ := h k v (AList.lookup_insert m)
    have hrest : total f m ≤ total g (m'.erase k) := by
      apply ih
      intro j w hj
      have hjk : j ≠ k := by rintro rfl; exact hk (mem_of_lookup hj)
      obtain ⟨w', hw', hwle⟩ := h j w ((AList.lookup_insert_ne hjk).trans hj)
      exact ⟨w', (AList.lookup_erase_ne hjk).trans hw', hwle⟩
    rw [total_insert_of_notMem hk, ← total_erase (f := g) hv']
    exact add_le_add hle hrest

end Ordered

/-- Entries that count at most once are no more than the keys there may be. -/
theorem total_le_card {f : κ → α → ℕ} (hf : ∀ k v, f k v ≤ 1) {ks : Finset κ}
    (hks : ∀ k ∈ m, k ∈ ks) : total f m ≤ ks.card := by
  have hones : total f m ≤ total (fun _ _ => 1) m :=
    total_le_total fun k v hk => ⟨v, hk, hf k v⟩
  have hlength : total (fun _ _ => 1) m = m.keys.length := by
    simp [total, AList.keys, List.keys]
  have hcard : m.keys.toFinset.card ≤ ks.card := by
    apply Finset.card_le_card
    intro k hk
    exact hks k (AList.mem_keys.mpr (List.mem_toFinset.mp hk))
  rw [List.toFinset_card_of_nodup m.keys_nodup] at hcard
  exact hones.trans (hlength.trans_le hcard)

/-- Different keys of a list at which one weight exceeds the other are counted by the difference. -/
theorem countP_add_total_le {f g : κ → ℕ} {p : β → Bool} (key : β → κ) {l : List β}
    (hnodup : (l.map key).Nodup) (hl : ∀ b ∈ l, p b = true → key b ∈ m ∧ f (key b) < g (key b))
    (hle : ∀ k ∈ m, f k ≤ g k) :
    l.countP p + total (fun k _ => f k) m ≤ total (fun k _ => g k) m := by
  induction l generalizing m with
  | nil =>
    rw [List.countP_nil, Nat.zero_add]
    exact total_le_total fun k v hk => ⟨v, hk, hle k (mem_of_lookup hk)⟩
  | cons b l ih =>
    obtain ⟨hb, hrest⟩ := List.forall_mem_cons.mp hl
    rw [List.map_cons, List.nodup_cons] at hnodup
    by_cases hp : p b = true
    · obtain ⟨hmem, hlt⟩ := hb hp
      obtain ⟨v, hv⟩ := Option.isSome_iff_exists.mp (AList.lookup_isSome.mpr hmem)
      have hcount := ih (m := m.erase (key b)) hnodup.2
        (fun c hc hpc => ⟨AList.mem_erase.mpr ⟨fun heq => hnodup.1 (heq ▸ List.mem_map_of_mem hc),
          (hrest c hc hpc).1⟩, (hrest c hc hpc).2⟩)
        fun k hk => hle k (AList.mem_erase.mp hk).2
      have hf := total_erase (f := fun k (_ : α) => f k) hv
      have hg := total_erase (f := fun k (_ : α) => g k) hv
      rw [List.countP_cons, if_pos hp]
      omega
    · rw [List.countP_cons, if_neg hp, Nat.add_zero]
      exact ih hnodup.2 hrest hle
end Lookup
end FiniteMap
