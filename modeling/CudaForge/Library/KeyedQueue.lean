import Mathlib.Data.List.Basic

/-! FIFO queues of several keys kept in one list, the oldest entry first. -/
namespace KeyedQueue
variable {κ α : Type*}

theorem filter_eraseP_self (p : α → Bool) (l : List α) :
    (l.eraseP p).filter p = (l.filter p).tail := by
  induction l with
  | nil => rfl
  | cons a l ih =>
    cases ha : p a with
    | true => rw [List.eraseP_cons_of_pos ha, List.filter_cons_of_pos ha, List.tail_cons]
    | false =>
      have hnot : ¬ p a = true := by simp [ha]
      rw [List.eraseP_cons_of_neg hnot, List.filter_cons_of_neg hnot,
        List.filter_cons_of_neg hnot, ih]

theorem filter_eraseP_disjoint {p q : α → Bool} (h : ∀ a, p a = true → q a = false)
    (l : List α) : (l.eraseP p).filter q = l.filter q := by
  induction l with
  | nil => rfl
  | cons a l ih =>
    cases ha : p a with
    | true =>
      have hnot : ¬ q a = true := by simp [h a ha]
      rw [List.eraseP_cons_of_pos ha, List.filter_cons_of_neg hnot]
    | false => rw [List.eraseP_cons_of_neg (by simp [ha]), List.filter_cons, List.filter_cons, ih]

def enqueue (k : κ) (new : List α) (l : List (κ × α)) : List (κ × α) := l ++ new.map (k, ·)

theorem mem_enqueue {k j : κ} {a : α} {new : List α} {l : List (κ × α)} :
    (j, a) ∈ enqueue k new l ↔ (j, a) ∈ l ∨ j = k ∧ a ∈ new := by
  rw [enqueue, List.mem_append, List.mem_map]
  refine or_congr_right ⟨?_, ?_⟩
  · rintro ⟨b, hb, heq⟩
    obtain ⟨rfl, rfl⟩ := Prod.mk.inj heq
    exact ⟨rfl, hb⟩
  · rintro ⟨rfl, ha⟩
    exact ⟨a, ha, rfl⟩

variable [DecidableEq κ]

def queue (k : κ) (l : List (κ × α)) : List α := (l.filter fun e => e.1 = k).map Prod.snd

def dequeue (k : κ) (l : List (κ × α)) : Option (α × List (κ × α)) :=
  (l.find? fun e => e.1 = k).map fun e => (e.2, l.eraseP fun e => e.1 = k)

theorem mem_queue {k : κ} {a : α} {l : List (κ × α)} : a ∈ queue k l ↔ (k, a) ∈ l := by
  simp [queue]

theorem queue_enqueue_self (k : κ) (new : List α) (l : List (κ × α)) :
    queue k (enqueue k new l) = queue k l ++ new := by
  simp [queue, enqueue, List.filter_map, Function.comp_def]

theorem queue_enqueue_of_ne {k j : κ} (h : j ≠ k) (new : List α) (l : List (κ × α)) :
    queue j (enqueue k new l) = queue j l := by
  simp [queue, enqueue, List.filter_map, Function.comp_def, Ne.symm h]

section Dequeue
variable {k j : κ} {a : α} {l l' : List (κ × α)}

theorem dequeue_mem (h : dequeue k l = some (a, l')) : (k, a) ∈ l := by
  obtain ⟨e, he, heq⟩ := Option.map_eq_some_iff.mp h
  obtain ⟨rfl, -⟩ := Prod.mk.inj heq
  have hk : e.1 = k := by simpa using List.find?_some he
  exact hk ▸ List.mem_of_find?_eq_some he

theorem dequeue_rest (h : dequeue k l = some (a, l')) : l' = l.eraseP fun e => e.1 = k := by
  obtain ⟨e, -, heq⟩ := Option.map_eq_some_iff.mp h
  exact (Prod.mk.inj heq).2.symm

theorem dequeue_subset (h : dequeue k l = some (a, l')) {e : κ × α} (he : e ∈ l') : e ∈ l := by
  rw [dequeue_rest h] at he
  exact List.mem_of_mem_eraseP he

theorem dequeue_self (h : dequeue k l = some (a, l')) : queue k l = a :: queue k l' := by
  obtain ⟨e, he, heq⟩ := Option.map_eq_some_iff.mp h
  obtain ⟨rfl, rfl⟩ := Prod.mk.inj heq
  rw [← List.head?_filter] at he
  rw [queue, queue, filter_eraseP_self, ← List.cons_head?_tail he, List.map_cons, List.tail_cons]

theorem dequeue_of_ne (h : dequeue k l = some (a, l')) (hj : j ≠ k) : queue j l' = queue j l := by
  rw [queue, queue, dequeue_rest h, filter_eraseP_disjoint]
  intro e he
  rw [decide_eq_true_iff] at he
  exact decide_eq_false (he ▸ Ne.symm hj)

end Dequeue

end KeyedQueue
