import Mathlib.Algebra.BigOperators.Group.Finset.Basic
import Mathlib.Data.PNat.Basic
import Mathlib.Tactic

/-! The loop `for (i = start; i < bound; i += stride)`, and its iterations over `stride` threads. -/
namespace StridedLoop
open Finset

/-- A loop whose body adds entries to a log adds those of its iterations, one after the other. -/
theorem foldl_log {σ α β : Type*} (log : σ → List β) {body : σ → α → σ} {entries : α → List β}
    (h : ∀ s a, log (body s a) = log s ++ entries a) (iterations : List α) (s : σ) :
    log (iterations.foldl body s) = log s ++ iterations.flatMap entries := by
  induction iterations generalizing s with
  | nil => rw [List.foldl_nil, List.flatMap_nil, List.append_nil]
  | cons a iterations ih => rw [List.foldl_cons, ih, h, List.flatMap_cons, List.append_assoc]

variable {stride : ℕ+} {bound start i : ℕ}

def indices (stride : ℕ+) (bound start : ℕ) : List ℕ :=
  if start < bound then start :: indices stride bound (start + stride) else []
termination_by bound - start
decreasing_by
  have := stride.pos
  omega

theorem mem_indices : i ∈ indices stride bound start ↔ i < bound ∧ ∃ j, i = start + j * stride := by
  induction start using indices.induct stride bound with
  | case1 start hlt ih =>
    rw [indices, if_pos hlt, List.mem_cons, ih]
    constructor
    · rintro (rfl | ⟨hi, j, rfl⟩)
      · exact ⟨hlt, 0, by rw [Nat.zero_mul, Nat.add_zero]⟩
      · exact ⟨hi, j + 1, by rw [Nat.succ_mul]; omega⟩
    · rintro ⟨hi, j, rfl⟩
      cases j with
      | zero => exact Or.inl (by rw [Nat.zero_mul, Nat.add_zero])
      | succ j => exact Or.inr ⟨hi, j, by rw [Nat.succ_mul]; omega⟩
  | case2 start hge =>
    rw [indices, if_neg hge]
    refine iff_of_false List.not_mem_nil ?_
    rintro ⟨hi, j, rfl⟩
    omega

theorem indices_nodup : (indices stride bound start).Nodup := by
  induction start using indices.induct stride bound with
  | case1 start hlt ih =>
    rw [indices, if_pos hlt, List.nodup_cons]
    refine ⟨fun hmem => ?_, ih⟩
    obtain ⟨-, j, hj⟩ := mem_indices.mp hmem
    have := stride.pos
    omega
  | case2 start hge =>
    rw [indices, if_neg hge]
    exact List.nodup_nil

/-- The thread that takes an index is the index modulo the number of threads. -/
theorem mod_of_mem {tid : ℕ} (htid : tid < stride) (h : i ∈ indices stride bound tid) :
    i % stride = tid := by
  obtain ⟨-, j, rfl⟩ := mem_indices.mp h
  rw [Nat.add_mul_mod_self_right, Nat.mod_eq_of_lt htid]

theorem mem_indices_mod (h : i < bound) : i ∈ indices stride bound (i % stride) :=
  mem_indices.mpr ⟨h, i / stride, by rw [Nat.mul_comm, Nat.mod_add_div]⟩

/-- The indices in the order in which the threads of a block take them. -/
def blockIndices (stride : ℕ+) (bound : ℕ) : List ℕ :=
  (List.range stride).flatMap (indices stride bound)

theorem mem_blockIndices : i ∈ blockIndices stride bound ↔ i < bound := by
  rw [blockIndices, List.mem_flatMap]
  constructor
  · rintro ⟨tid, -, hi⟩
    exact (mem_indices.mp hi).1
  · intro hi
    exact ⟨i % stride, List.mem_range.mpr (Nat.mod_lt i stride.pos), mem_indices_mod hi⟩

theorem blockIndices_nodup : (blockIndices stride bound).Nodup := by
  rw [blockIndices, List.nodup_flatMap]
  refine ⟨fun tid _ => indices_nodup, ?_⟩
  refine List.nodup_range.imp_of_mem fun {tid tid'} htid htid' hne i hi hi' => hne ?_
  rw [← mod_of_mem (List.mem_range.mp htid) hi, mod_of_mem (List.mem_range.mp htid') hi']

/-- The threads take every index once. -/
theorem blockIndices_perm : (blockIndices stride bound).Perm (List.range bound) :=
  (List.perm_ext_iff_of_nodup blockIndices_nodup List.nodup_range).mpr fun i => by
    rw [mem_blockIndices, List.mem_range]

/-- The sums of the threads add up to the sum over all indices. -/
theorem sum_threads {β : Type*} [AddCommMonoid β] (f : ℕ → β) :
    ∑ tid ∈ range stride, ((indices stride bound tid).map f).sum = ∑ i ∈ range bound, f i := by
  have hrange : ((List.range bound).map f).sum = ∑ i ∈ range bound, f i := rfl
  rw [← hrange, ← (blockIndices_perm.map f).sum_eq, blockIndices, List.map_flatMap,
    List.flatMap_def, List.sum_flatten, List.map_map]
  rfl

end StridedLoop
