import CudaForge.Kernels.RopePairs

/-! The threads of the CUDA launch rotate every pair once. -/
namespace CudaForge.Kernels.Rope
open SharedMemory StridedLoop PromotedIntegers PromotedInt
variable {s : RopeShape} {headDim : ℕ}

/-- One iteration of `apply_rope_vector`. -/
noncomputable def iteration (headDim : ℕ) (vec cosPtr sinPtr : Cell) (i : ℕ) :
    List (Instr Reg Cell ℝ) :=
  [.load .x1 (vec.plus i), .load .x2 (vec.plus (i + headDim / 2)),
    .load .c (cosPtr.plus i), .load .s (sinPtr.plus i),
    .store (vec.plus i) fun r => r .x1 * r .c - r .x2 * r .s,
    .store (vec.plus (i + headDim / 2)) fun r => r .x1 * r .s + r .x2 * r .c]

theorem iteration_mem (vec cosPtr sinPtr : Cell) (i : ℕ) (m : View Reg Cell ℝ) :
    (runAlone (iteration headDim vec cosPtr sinPtr i) m).mem =
      Function.update
        (Function.update m.mem (vec.plus i)
          (m.mem (vec.plus i) * m.mem (cosPtr.plus i) -
            m.mem (vec.plus (i + headDim / 2)) * m.mem (sinPtr.plus i)))
        (vec.plus (i + headDim / 2))
        (m.mem (vec.plus i) * m.mem (sinPtr.plus i) +
          m.mem (vec.plus (i + headDim / 2)) * m.mem (cosPtr.plus i)) := by
  simp [iteration, runAlone, Instr.exec, Function.update]

theorem Cell.plus_inj {ptr : Cell} {i j : ℕ} : ptr.plus i = ptr.plus j ↔ i = j := by
  unfold Cell.plus
  rw [Prod.mk.injEq, add_right_inj, Nat.cast_inj]
  exact and_iff_right rfl

theorem iterations_accesses {vec cosPtr sinPtr c : Cell} {is : List ℕ} {a : Instr Reg Cell ℝ}
    (ha : a ∈ is.flatMap (iteration headDim vec cosPtr sinPtr)) (hc : a.Accesses c) :
    ∃ i ∈ is, c = vec.plus i ∨ c = vec.plus (i + headDim / 2) ∨ c = cosPtr.plus i ∨
      c = sinPtr.plus i := by
  obtain ⟨i, hi, ha⟩ := List.mem_flatMap.mp ha
  simp only [iteration, List.mem_cons, List.not_mem_nil, or_false] at ha
  refine ⟨i, hi, ?_⟩
  rcases ha with rfl | rfl | rfl | rfl | rfl | rfl <;> cases hc <;> simp

theorem iterations_stores {vec cosPtr sinPtr c : Cell} {is : List ℕ} {a : Instr Reg Cell ℝ}
    (ha : a ∈ is.flatMap (iteration headDim vec cosPtr sinPtr)) (hc : a.Stores c) :
    ∃ i ∈ is, c = vec.plus i ∨ c = vec.plus (i + headDim / 2) := by
  obtain ⟨i, hi, ha⟩ := List.mem_flatMap.mp ha
  simp only [iteration, List.mem_cons, List.not_mem_nil, or_false] at ha
  refine ⟨i, hi, ?_⟩
  rcases ha with rfl | rfl | rfl | rfl | rfl | rfl <;> cases hc <;> simp

theorem iterations_visit {vec cosPtr sinPtr : Cell} {is : List ℕ} {i : ℕ} (hi : i ∈ is) {c : Cell}
    (hc : c = vec.plus i ∨ c = vec.plus (i + headDim / 2)) :
    ∃ a ∈ is.flatMap (iteration headDim vec cosPtr sinPtr), a.Accesses c := by
  rcases hc with rfl | rfl
  · refine ⟨.load .x1 _, List.mem_flatMap.mpr ⟨i, hi, ?_⟩, rfl⟩
    simp [iteration]
  · refine ⟨.load .x2 _, List.mem_flatMap.mpr ⟨i, hi, ?_⟩, rfl⟩
    simp [iteration]

/-- What the rotation of pair `i` leaves in its two cells. -/
def LeavesRotated (headDim : ℕ) (vec cosPtr sinPtr : Cell) (mem mem' : Cell → ℝ) (i : ℕ) : Prop :=
  mem' (vec.plus i) = mem (vec.plus i) * mem (cosPtr.plus i) -
      mem (vec.plus (i + headDim / 2)) * mem (sinPtr.plus i) ∧
    mem' (vec.plus (i + headDim / 2)) = mem (vec.plus i) * mem (sinPtr.plus i) +
      mem (vec.plus (i + headDim / 2)) * mem (cosPtr.plus i)

/-- Iterations over different indices below `head_dim / 2` rotate their pairs, from the values
before all of them. -/
theorem iterations_mem {vec cosPtr sinPtr : Cell} (hcos : cosPtr.1 ≠ vec.1)
    (hsin : sinPtr.1 ≠ vec.1) {is : List ℕ} (hnodup : is.Nodup)
    (hlt : ∀ i ∈ is, i < headDim / 2) (m : View Reg Cell ℝ) {i : ℕ} (hi : i ∈ is) :
    LeavesRotated headDim vec cosPtr sinPtr m.mem
      (runAlone (is.flatMap (iteration headDim vec cosPtr sinPtr)) m).mem i := by
  induction is generalizing m with
  | nil => cases hi
  | cons j is ih =>
    obtain ⟨hj, hrest⟩ := List.nodup_cons.mp hnodup
    have hjlt := hlt j List.mem_cons_self
    have hrestlt : ∀ i ∈ is, i < headDim / 2 := fun i hi => hlt i (List.mem_cons_of_mem _ hi)
    rw [List.flatMap_cons, runAlone_append]
    rcases List.mem_cons.mp hi with rfl | hi
    · -- no later iteration stores to the pair
      have hkeep : ∀ c, c = vec.plus i ∨ c = vec.plus (i + headDim / 2) → ∀ m : View Reg Cell ℝ,
          (runAlone (is.flatMap (iteration headDim vec cosPtr sinPtr)) m).mem c = m.mem c := by
        intro c hc m
        apply runAlone_mem_of_not_stores
        intro a ha hstores
        obtain ⟨k, hk, hck⟩ := iterations_stores ha hstores
        have hklt := hrestlt k hk
        have hne : k ≠ i := fun h => hj (h ▸ hk)
        rcases hc with rfl | rfl <;> rcases hck with h | h <;> rw [Cell.plus_inj] at h <;> omega
      unfold LeavesRotated
      rw [hkeep _ (Or.inl rfl), hkeep _ (Or.inr rfl), iteration_mem, Function.update_self,
        Function.update_of_ne (fun h => by rw [Cell.plus_inj] at h; omega), Function.update_self]
      exact ⟨rfl, rfl⟩
    · -- the first iteration leaves the pair and its factors alone
      have hne : i ≠ j := fun h => hj (h ▸ hi)
      have hilt := hrestlt i hi
      have hkeep : ∀ c : Cell, c ≠ vec.plus j → c ≠ vec.plus (j + headDim / 2) →
          (runAlone (iteration headDim vec cosPtr sinPtr j) m).mem c = m.mem c := by
        intro c hc hc'
        rw [iteration_mem, Function.update_of_ne hc', Function.update_of_ne hc]
      have hfactor : ∀ ptr : Cell, ptr.1 ≠ vec.1 → ∀ k k', ptr.plus k ≠ vec.plus k' :=
        fun ptr hptr k k' h => hptr (Prod.mk.inj h).1
      have hfirst : ∀ k, k < headDim / 2 → i ≠ k → vec.plus i ≠ vec.plus k ∧
          vec.plus i ≠ vec.plus (k + headDim / 2) ∧
          vec.plus (i + headDim / 2) ≠ vec.plus k ∧
          vec.plus (i + headDim / 2) ≠ vec.plus (k + headDim / 2) := by
        intro k hk hik
        simp only [Ne, Cell.plus_inj]
        omega
      obtain ⟨h₁, h₂, h₃, h₄⟩ := hfirst j hjlt hne
      have hrun := ih hrest hrestlt (runAlone (iteration headDim vec cosPtr sinPtr j) m) hi
      unfold LeavesRotated at hrun ⊢
      rwa [hkeep _ h₁ h₂, hkeep _ h₃ h₄, hkeep _ (hfactor _ hcos _ _) (hfactor _ hcos _ _),
        hkeep _ (hfactor _ hsin _ _) (hfactor _ hsin _ _)] at hrun

def factorRow (s : RopeShape) (token : ℕ) : ℤ :=
  (int32 (token % s.seqLen : ℕ) * int32 (s.headDim / 2 : ℕ)).toInt

theorem factorRow_eq (hlaunch : s.Launches) (hfits : s.OffsetsFit) (p : Pair s) :
    factorRow s p.token = (p.token % s.seqLen * (s.headDim / 2) : ℕ) := by
  obtain ⟨htoken, -, hhalf⟩ := hlaunch.bounds p.launched.1 p.launched.2.1
  have hmod := Nat.mod_lt p.token (RopeShape.seqLen_pos p.token_lt)
  have hpos : (int32 (p.token % s.seqLen : ℕ)).toInt = (p.token % s.seqLen : ℕ) :=
    toInt_int32 (fits32_natCast ((Nat.mod_le _ _).trans_lt htoken))
  have hdim : (int32 (s.headDim / 2 : ℕ)).toInt = (s.headDim / 2 : ℕ) :=
    toInt_int32 (fits32_natCast (by omega))
  have hrow : p.token % s.seqLen * (s.headDim / 2) ≤ (s.seqLen - 1) * (s.headDim / 2) :=
    Nat.mul_le_mul_right _ (by omega)
  have hsmall := hrow.trans_lt hfits.row
  rw [factorRow, toInt_mul (by rw [hpos, hdim, ← Nat.cast_mul]; exact fits32_natCast hsmall),
    hpos, hdim, ← Nat.cast_mul]

def cudaOwner (blockDim : ℕ+) (p : Pair s) : ThreadId :=
  ⟨p.token, p.head, p.operand.isKey, p.d % blockDim⟩

noncomputable def headThread (s : RopeShape) (blockDim : ℕ+) (o : Operand) (token head tid : ℕ) :
    List (Instr Reg Cell ℝ) :=
  (indices blockDim (s.headDim / 2) tid).flatMap
    (iteration s.headDim (.operand o, ((token * s.heads o + head) * s.headDim : ℕ))
      (.cos, factorRow s token) (.sin, factorRow s token))

/-- A block works on its head of `Q` or `K`, if there is one. -/
theorem ropeKernel_eq (s : RopeShape) (blockDim : ℕ+) (o : Operand) (token head tid : ℕ) :
    ropeKernel s blockDim ⟨token, head, o.isKey, tid⟩ =
      if s.heads o ≤ head then [] else headThread s blockDim o token head tid := by
  cases o with
  | Q => rfl
  | K => rfl

/-- A thread of the launch works on one head, or does nothing. -/
theorem ropeLaunch_cases (s : RopeShape) (blockDim : ℕ+) (t : ThreadId) :
    ropeLaunch s blockDim t = [] ∨ ∃ o, t.blockX < s.batchSize * s.seqLen ∧ t.blockY < s.heads o ∧
      t.blockZ = Operand.isKey o ∧ t.tid < blockDim ∧
      ropeLaunch s blockDim t = headThread s blockDim o t.blockX t.blockY t.tid := by
  obtain ⟨x, y, z, tid⟩ := t
  unfold ropeLaunch
  split_ifs with hlaunched
  · obtain ⟨hx, -, hz, htid⟩ := hlaunched
    obtain ⟨o, rfl⟩ := Operand.exists_isKey hz
    rw [ropeKernel_eq]
    by_cases hhead : s.heads o ≤ y
    · exact Or.inl (if_pos hhead)
    · exact Or.inr ⟨o, hx, Nat.not_le.mp hhead, rfl, htid, if_neg hhead⟩
  · exact Or.inl rfl

theorem ropeLaunch_owner (blockDim : ℕ+) (p : Pair s) :
    ropeLaunch s blockDim (cudaOwner blockDim p) =
      headThread s blockDim p.operand p.token p.head (p.d % blockDim) := by
  obtain ⟨htoken, hhead, hkey⟩ := p.launched
  have hlaunched := And.intro htoken (And.intro hhead
    (And.intro hkey (Nat.mod_lt p.d blockDim.pos)))
  unfold ropeLaunch cudaOwner
  rw [if_pos hlaunched, ropeKernel_eq, if_neg (Nat.not_le.mpr p.head_lt)]

/-- The threads of the CUDA launch rotate every pair once. -/
theorem ropeLaunch_rotatesPairs (hlaunch : s.Launches) (hfits : s.OffsetsFit) (blockDim : ℕ+) :
    RotatesPairs s (ropeLaunch s blockDim) (cudaOwner blockDim) where
  stores := fun t a ha c hc => by
    rcases ropeLaunch_cases s blockDim t with hnone | ⟨o, hx, hy, hz, htid, hprog⟩
    · rw [hnone] at ha
      cases ha
    · rw [hprog] at ha
      obtain ⟨i, hi, hci⟩ := iterations_stores ha hc
      refine ⟨⟨o, t.blockX, t.blockY, i, hx, hy, (mem_indices.mp hi).1⟩, ?_, hci⟩
      unfold cudaOwner
      rw [mod_of_mem htid hi, ← hz]
  accesses := fun t a ha c hc => by
    rcases ropeLaunch_cases s blockDim t with hnone | ⟨o, hx, hy, hz, htid, hprog⟩
    · rw [hnone] at ha
      cases ha
    · rw [hprog] at ha
      obtain ⟨i, hi, hci⟩ := iterations_accesses ha hc
      let p : Pair s := ⟨o, t.blockX, t.blockY, i, hx, hy, (mem_indices.mp hi).1⟩
      have hrow : factorRow s t.blockX = _ := factorRow_eq hlaunch hfits p
      rw [hrow] at hci
      have htouched : p.Touched c := or_assoc.mpr hci
      refine ⟨htouched.inBounds, fun p' hp' => ?_⟩
      rw [htouched.unique hp']
      show (⟨t.blockX, t.blockY, o.isKey, i % blockDim⟩ : ThreadId) = t
      rw [mod_of_mem htid hi, ← hz]
  visits := fun p c hc => by
    rw [ropeLaunch_owner]
    exact iterations_visit (mem_indices_mod p.d_lt) hc
  alone := fun p m => by
    rw [ropeLaunch_owner]
    unfold headThread
    rw [factorRow_eq hlaunch hfits p]
    exact iterations_mem (fun h => Buffer.noConfusion h) (fun h => Buffer.noConfusion h)
      indices_nodup (fun i hi => (mem_indices.mp hi).1) m (mem_indices_mod p.d_lt)

/-- The CUDA launch has a run. -/
theorem ropeLaunch_nonempty (s : RopeShape) (blockDim : ℕ+) :
    Nonempty (Schedule (ropeLaunch s blockDim)) := by
  let launched := Finset.range (s.batchSize * s.seqLen) ×ˢ
    Finset.range (max s.numQHeads s.numKvHeads) ×ˢ Finset.range 2 ×ˢ Finset.range blockDim
  apply Schedule.nonempty
  apply (launched.image fun (x, y, z, tid) => (⟨x, y, z, tid⟩ : ThreadId)).finite_toSet.subset
  rintro ⟨x, y, z, tid⟩ hprog
  have hlaunched : x < s.batchSize * s.seqLen ∧ y < max s.numQHeads s.numKvHeads ∧ z < 2 ∧
      tid < blockDim := by
    by_contra hnot
    exact hprog (if_neg hnot)
  refine Finset.mem_coe.mpr (Finset.mem_image.mpr ⟨(x, y, z, tid), ?_, rfl⟩)
  simp only [launched, Finset.mem_product, Finset.mem_range]
  exact hlaunched

end CudaForge.Kernels.Rope
