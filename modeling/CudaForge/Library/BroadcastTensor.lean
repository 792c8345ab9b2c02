import Mathlib.Data.List.Forall2
import Mathlib.Data.List.GetD
import Mathlib.Order.Lattice
import Mathlib.Tactic

/-!
Rectangular tensors of any rank: elementwise operations with broadcasting, and maxima over an axis
or over all elements.
-/

/-- The extents, and an element for each index; only the indices within the extents count. -/
structure Tensor (α : Type*) where
  shape : List ℕ
  element : List ℕ → α

namespace Tensor
variable {α β γ : Type*}

def InShape (shape index : List ℕ) : Prop := List.Forall₂ (fun n i => i < n) shape index

structure Same (x y : Tensor α) : Prop where
  shape : x.shape = y.shape
  element : ∀ index, InShape x.shape index → x.element index = y.element index

def indices : List ℕ → List (List ℕ)
  | [] => [[]]
  | n :: shape => (List.range n).flatMap fun i => (indices shape).map (i :: ·)

def map (f : α → β) (x : Tensor α) : Tensor β := ⟨x.shape, fun index => f (x.element index)⟩

/-- Missing leading extents are ones. -/
def padTo (rank : ℕ) (shape : List ℕ) : List ℕ := List.replicate (rank - shape.length) 1 ++ shape

/-- The shape of an elementwise operation: equal extents, or ones that are stretched. -/
def broadcastShapes (s t : List ℕ) : Option (List ℕ) :=
  let pairs := (padTo t.length s).zip (padTo s.length t)
  if pairs.all fun (a, b) => a = b ∨ a = 1 ∨ b = 1 then
    some (pairs.map fun (a, b) => if a = 1 then b else a)
  else none

def broadcastIndex (shape index : List ℕ) : List ℕ :=
  List.zipWith (fun n i => if n = 1 then 0 else i) shape (index.drop (index.length - shape.length))

def broadcastAt (x : Tensor α) (index : List ℕ) : α := x.element (broadcastIndex x.shape index)

def zipWith (f : α → β → γ) (x : Tensor α) (y : Tensor β) : Option (Tensor γ) :=
  (broadcastShapes x.shape y.shape).map fun shape =>
    ⟨shape, fun index => f (x.broadcastAt index) (y.broadcastAt index)⟩

/-- The dimension that an axis names, where negative axes count from the end. -/
def wrapDim (axis : ℤ) (rank : ℕ) : Option ℕ :=
  let rank := max rank 1
  if -rank ≤ axis ∧ axis < rank then some (axis % rank).toNat else none

/-- The dimension to reduce, `none` for all; fails for an axis out of range. -/
def reducedDim (axis : Option ℤ) (rank : ℕ) : Option (Option ℕ) :=
  match axis with
  | none => some none
  | some axis => (wrapDim axis rank).map some

def slice (dim : Option ℕ) (shape index : List ℕ) : List (List ℕ) :=
  match dim with
  | none => indices shape
  | some d => (List.range (shape.getD d 1)).map (index.set d)

/-- The shape that a reduction leaves, with `keepdim=True` for an axis. -/
def keptShape (dim : Option ℕ) (shape : List ℕ) : List ℕ :=
  match dim with
  | none => []
  | some d => shape.set d 1

def extent (dim : Option ℕ) (shape : List ℕ) : ℕ :=
  match dim with
  | none => (indices shape).length
  | some d => shape.getD d 1

/-- The maximum over all elements or over an axis; fails when there is nothing to take it over. -/
def amax [Max α] (x : Tensor α) (axis : Option ℤ) : Option (Tensor α) :=
  match reducedDim axis x.shape.length with
  | none => none
  | some dim =>
    if extent dim x.shape = 0 then none
    else
      some {
        shape := keptShape dim x.shape
        element := fun index =>
          let values := (slice dim x.shape index).map x.element
          values.tail.foldl max (values.headD (x.element index)) }

section Shapes
variable {shape index : List ℕ}

theorem mem_indices : index ∈ indices shape ↔ InShape shape index := by
  induction shape generalizing index with
  | nil => simp [indices, InShape]
  | cons n shape ih =>
    simp only [indices, List.mem_flatMap, List.mem_map, List.mem_range, ih]
    constructor
    · rintro ⟨i, hi, rest, hrest, rfl⟩
      exact List.Forall₂.cons hi hrest
    · intro h
      cases h with
      | cons hi hrest => exact ⟨_, hi, _, hrest, rfl⟩

theorem InShape.length_eq (h : InShape shape index) : index.length = shape.length :=
  (List.Forall₂.length_eq h).symm

/-- The indices of a matrix. -/
theorem inShape_pair {M N : ℕ} : InShape [M, N] index ↔ ∃ m < M, ∃ n < N, index = [m, n] := by
  unfold InShape
  constructor
  · intro h
    cases h with
    | cons hm hrest =>
      cases hrest with
      | cons hn hnil =>
        cases hnil
        exact ⟨_, hm, _, hn, rfl⟩
  · rintro ⟨m, hm, n, hn, rfl⟩
    exact List.Forall₂.cons hm (List.Forall₂.cons hn List.Forall₂.nil)

/-- An index of the result is its own index in an operand of the same shape. -/
theorem broadcastIndex_self (h : InShape shape index) : broadcastIndex shape index = index := by
  unfold broadcastIndex
  rw [h.length_eq, Nat.sub_self, List.drop_zero]
  unfold InShape at h
  induction h with
  | nil => rfl
  | cons hi _ ih =>
    rw [List.zipWith_cons_cons, ih]
    congr 1
    split_ifs <;> omega

/-- An operand whose axis was reduced is read at the begin of the axis. -/
theorem broadcastIndex_set (h : InShape shape index) (d : ℕ) :
    broadcastIndex (shape.set d 1) index = index.set d 0 := by
  have hself := broadcastIndex_self h
  unfold broadcastIndex at hself ⊢
  rw [List.length_set]
  rw [h.length_eq, Nat.sub_self, List.drop_zero] at hself ⊢
  unfold InShape at h
  induction h generalizing d with
  | nil => rfl
  | cons hi hrest ih =>
    rw [List.zipWith_cons_cons] at hself
    obtain ⟨hhead, htail⟩ := List.cons.inj hself
    cases d with
    | zero => rw [List.set_cons_zero, List.set_cons_zero, List.zipWith_cons_cons, htail]; rfl
    | succ d =>
      rw [List.set_cons_succ, List.set_cons_succ, List.zipWith_cons_cons, hhead, ih d htail]

/-- The extents of `t` are those of `s`, or ones. -/
def Stretches (s t : List ℕ) : Prop := List.Forall₂ (fun a b => b = a ∨ b = 1) s t

theorem Stretches.refl (s : List ℕ) : Stretches s s :=
  List.forall₂_same.mpr fun _ _ => Or.inl rfl

theorem Stretches.set (s : List ℕ) (d : ℕ) : Stretches s (s.set d 1) := by
  unfold Stretches
  induction s generalizing d with
  | nil => exact List.Forall₂.nil
  | cons a s ih =>
    cases d with
    | zero => exact List.Forall₂.cons (Or.inr rfl) (Stretches.refl s)
    | succ d => exact List.Forall₂.cons (Or.inl rfl) (ih d)

theorem Stretches.ones (s : List ℕ) : Stretches s (List.replicate s.length 1) := by
  unfold Stretches
  induction s with
  | nil => exact List.Forall₂.nil
  | cons a s ih => exact List.Forall₂.cons (Or.inr rfl) ih

/-- Stretching an operand to the shape of the other one keeps that shape. -/
theorem broadcastShapes_of_stretches {s t : List ℕ} (hlen : t.length ≤ s.length)
    (h : Stretches s (padTo s.length t)) : broadcastShapes s t = some s := by
  have hs : padTo t.length s = s := by
    rw [padTo, Nat.sub_eq_zero_of_le hlen, List.replicate_zero, List.nil_append]
  unfold broadcastShapes
  dsimp only
  rw [hs]
  have hpairs : ((s.zip (padTo s.length t)).all fun (a, b) => a = b ∨ a = 1 ∨ b = 1) = true ∧
      (s.zip (padTo s.length t)).map (fun (a, b) => if a = 1 then b else a) = s := by
    generalize padTo s.length t = t' at h
    unfold Stretches at h
    clear hs hlen
    induction h with
    | nil => exact ⟨rfl, rfl⟩
    | @cons a b s t' hab _ ih =>
      obtain ⟨hall, hmap⟩ := ih
      constructor
      · rw [List.zip_cons_cons, List.all_cons, hall, Bool.and_true, decide_eq_true_iff]
        exact hab.imp Eq.symm Or.inr
      · rw [List.zip_cons_cons, List.map_cons, hmap]
        congr 1
        dsimp only
        split_ifs with ha
        · rcases hab with rfl | hb
          · rfl
          · rw [hb, ha]
        · rfl
  rw [if_pos hpairs.1, hpairs.2]

end Shapes

section Reductions
variable {shape index : List ℕ}

/-- What a reduction leaves broadcasts back to the shape it came from. -/
theorem broadcastShapes_kept (dim : Option ℕ) (shape : List ℕ) :
    broadcastShapes shape (keptShape dim shape) = some shape := by
  cases dim with
  | none =>
    refine broadcastShapes_of_stretches (Nat.zero_le _) ?_
    rw [keptShape, padTo, List.length_nil, Nat.sub_zero, List.append_nil]
    exact Stretches.ones shape
  | some d =>
    refine broadcastShapes_of_stretches (by rw [keptShape, List.length_set]) ?_
    rw [keptShape, padTo, List.length_set, Nat.sub_self, List.replicate_zero, List.nil_append]
    exact Stretches.set shape d

theorem broadcastAt_self {x : Tensor α} (h : InShape x.shape index) :
    x.broadcastAt index = x.element index := by
  rw [broadcastAt, broadcastIndex_self h]

theorem broadcastAt_map (f : α → β) (x : Tensor α) (index : List ℕ) :
    (x.map f).broadcastAt index = f (x.broadcastAt index) := rfl

/-- An operation on operands of one shape. -/
theorem zipWith_self {x : Tensor α} {y : Tensor β} (hy : y.shape = x.shape) (f : α → β → γ) :
    x.zipWith f y =
      some ⟨x.shape, fun index => f (x.broadcastAt index) (y.broadcastAt index)⟩ := by
  have hshape : broadcastShapes x.shape x.shape = some x.shape := by
    refine broadcastShapes_of_stretches le_rfl ?_
    rw [padTo, Nat.sub_self, List.replicate_zero, List.nil_append]
    exact Stretches.refl x.shape
  rw [zipWith, hy, hshape, Option.map_some]

/-- An operation with a reduced operand, element by element. -/
theorem zipWith_kept {dim : Option ℕ} {x : Tensor α} {y : Tensor β}
    (hy : y.shape = keptShape dim x.shape) (f : α → β → γ) :
    x.zipWith f y =
      some ⟨x.shape, fun index => f (x.broadcastAt index) (y.broadcastAt index)⟩ := by
  rw [zipWith, hy, broadcastShapes_kept, Option.map_some]

/-- All indices of a slice reduce the same slice. -/
theorem slice_broadcastIndex (dim : Option ℕ) (h : InShape shape index) :
    slice dim shape (broadcastIndex (keptShape dim shape) index) = slice dim shape index := by
  cases dim with
  | none => rfl
  | some d =>
    rw [keptShape, broadcastIndex_set h]
    exact List.map_congr_left fun j _ => List.set_set _

theorem length_slice (dim : Option ℕ) (shape index : List ℕ) :
    (slice dim shape index).length = extent dim shape := by
  cases dim with
  | none => rfl
  | some d => rw [slice, extent, List.length_map, List.length_range]

/-- An index belongs to its own slice. -/
theorem mem_slice_self (dim : Option ℕ) (h : InShape shape index) :
    index ∈ slice dim shape index := by
  cases dim with
  | none => exact mem_indices.mpr h
  | some d =>
    rw [slice, List.mem_map]
    have hlen := h.length_eq
    rcases Nat.lt_or_ge d shape.length with hd | hd
    · have hd' : d < index.length := hd.trans_eq hlen.symm
      refine ⟨index[d], ?_, List.set_getElem_self hd'⟩
      rw [List.mem_range, List.getD_eq_getElem _ _ hd]
      exact List.Forall₂.get h hd hd'
    · refine ⟨0, ?_, List.set_eq_of_length_le (hlen.trans_le hd)⟩
      rw [List.mem_range, List.getD_eq_default _ _ hd]
      exact Nat.one_pos

theorem foldl_max_spec [LinearOrder α] (a : α) (l : List α) :
    l.foldl max a ∈ a :: l ∧ ∀ b ∈ a :: l, b ≤ l.foldl max a := by
  induction l generalizing a with
  | nil => exact ⟨List.mem_cons_self, fun b hb => (List.mem_singleton.mp hb).le⟩
  | cons c l ih =>
    obtain ⟨hmem, hle⟩ := ih (max a c)
    rw [List.foldl_cons]
    constructor
    · rcases List.mem_cons.mp hmem with heq | hmem
      · rw [heq]
        rcases max_choice a c with ha | hc
        · rw [ha]
          exact List.mem_cons_self
        · rw [hc]
          exact List.mem_cons_of_mem _ List.mem_cons_self
      · exact List.mem_cons_of_mem _ (List.mem_cons_of_mem _ hmem)
    · intro b hb
      have htop := hle (max a c) List.mem_cons_self
      rcases List.mem_cons.mp hb with rfl | hb
      · exact (le_max_left _ _).trans htop
      · rcases List.mem_cons.mp hb with rfl | hb
        · exact (le_max_right _ _).trans htop
        · exact hle b (List.mem_cons_of_mem _ hb)

/-- The maximum at an index is attained in its slice, and bounds it. -/
theorem amax_spec [LinearOrder α] {x y : Tensor α} {axis : Option ℤ} (h : x.amax axis = some y) :
    ∃ dim, reducedDim axis x.shape.length = some dim ∧ y.shape = keptShape dim x.shape ∧
      ∀ index, InShape x.shape index →
        (∀ other ∈ slice dim x.shape index, x.element other ≤ y.broadcastAt index) ∧
        ∃ other ∈ slice dim x.shape index, y.broadcastAt index = x.element other := by
  unfold amax at h
  split at h
  · cases h
  · rename_i dim hdim
    split_ifs at h with hextent
    obtain rfl := Option.some.inj h
    refine ⟨dim, hdim, rfl, fun index hindex => ?_⟩
    rw [broadcastAt]
    dsimp only
    rw [slice_broadcastIndex dim hindex]
    have hlen := length_slice dim x.shape index
    cases hslice : slice dim x.shape index with
    | nil =>
      rw [hslice] at hlen
      exact absurd hlen.symm hextent
    | cons first others =>
      rw [List.map_cons, List.tail_cons, List.headD_cons]
      obtain ⟨hmem, hle⟩ := foldl_max_spec (x.element first) (others.map x.element)
      rw [← List.map_cons (f := x.element)] at hmem hle
      constructor
      · exact fun other hother => hle _ (List.mem_map_of_mem hother)
      · obtain ⟨other, hother, heq⟩ := List.mem_map.mp hmem
        exact ⟨other, hother, heq.symm⟩

theorem amax_isSome_iff [Max α] {x : Tensor α} {axis : Option ℤ} :
    (x.amax axis).isSome ↔
      ∃ dim, reducedDim axis x.shape.length = some dim ∧ extent dim x.shape ≠ 0 := by
  unfold amax
  split
  · rename_i hdim
    simp [hdim]
  · rename_i dim hdim
    split_ifs with hextent
    · simp [hdim, hextent]
    · simp [hdim, hextent]

end Reductions
end Tensor
