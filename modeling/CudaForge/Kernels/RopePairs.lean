import CudaForge.Kernels.RotaryEmbedding

/-!
The pairs that a RoPE launch rotates. A launch hands each pair to one owner; what an owner does
alone is what the launch does, since no two owners meet in a cell that one of them stores to.
-/
namespace CudaForge.Kernels.Rope
open SharedMemory TiledLoop Triton
variable {s : RopeShape}

section Pairs

theorem RopeShape.seqLen_pos {token : ℕ} (h : token < s.batchSize * s.seqLen) : 0 < s.seqLen := by
  apply Nat.pos_of_ne_zero
  intro h0
  rw [h0, Nat.mul_zero] at h
  exact Nat.not_lt_zero _ h

/-- The row of a token in `cos` and `sin`. -/
theorem factor_lt {token d : ℕ} (h : token < s.batchSize * s.seqLen) (hd : d < s.headDim / 2) :
    token % s.seqLen * (s.headDim / 2) + d < s.seqLen * (s.headDim / 2) :=
  calc token % s.seqLen * (s.headDim / 2) + d
      < (token % s.seqLen + 1) * (s.headDim / 2) := by
        rw [Nat.succ_mul]
        exact Nat.add_lt_add_left hd _
    _ ≤ _ := Nat.mul_le_mul_right _ (Nat.mod_lt _ (RopeShape.seqLen_pos h))

theorem Cell.plus_inBounds {b : Buffer} {row i : ℕ} (h : row + i < s.size b) :
    s.InBounds (Cell.plus (b, row) i) :=
  ⟨Int.natCast_nonneg (row + i), Int.ofNat_lt.mpr h⟩

theorem element_inBounds (p : Pair s) {e : ℕ} (he : e < s.headDim) : s.InBounds (p.element e) := by
  have hhead : p.token * s.heads p.operand + p.head + 1 ≤
      s.batchSize * s.seqLen * s.heads p.operand :=
    calc p.token * s.heads p.operand + p.head + 1
        ≤ p.token * s.heads p.operand + s.heads p.operand := Nat.add_le_add_left p.head_lt _
      _ = (p.token + 1) * s.heads p.operand := (Nat.succ_mul _ _).symm
      _ ≤ _ := Nat.mul_le_mul_right _ p.token_lt
  apply Cell.plus_inBounds
  calc (p.token * s.heads p.operand + p.head) * s.headDim + e
      < (p.token * s.heads p.operand + p.head + 1) * s.headDim := by rw [Nat.succ_mul]; omega
    _ ≤ _ := Nat.mul_le_mul_right _ hhead

theorem element_injective {p p' : Pair s} {e e' : ℕ} (he : e < s.headDim) (he' : e' < s.headDim)
    (h : p.element e = p'.element e') :
    p.operand = p'.operand ∧ p.token = p'.token ∧ p.head = p'.head ∧ e = e' := by
  unfold Pair.element Cell.plus at h
  rw [Prod.mk.injEq, Buffer.operand.injEq] at h
  obtain ⟨hoperand, hoffset⟩ := h
  dsimp only at hoffset
  norm_cast at hoffset
  obtain ⟨hrow, hcol⟩ := eq_of_mul_add_eq he he' hoffset
  have hhead := p'.head_lt
  rw [← hoperand] at hrow hhead
  obtain ⟨htoken, hhead⟩ := eq_of_mul_add_eq p.head_lt hhead hrow
  exact ⟨hoperand, htoken, hhead, hcol⟩

theorem Pair.d_lt_headDim (p : Pair s) : p.d < s.headDim ∧ p.d + s.headDim / 2 < s.headDim := by
  have := p.d_lt
  omega

theorem first_injective {p p' : Pair s} (h : p.first = p'.first) : p = p' := by
  obtain ⟨hoperand, htoken, hhead, hd⟩ :=
    element_injective p.d_lt_headDim.1 p'.d_lt_headDim.1 h
  exact Pair.ext hoperand htoken hhead hd

theorem second_injective {p p' : Pair s} (h : p.second = p'.second) : p = p' := by
  obtain ⟨hoperand, htoken, hhead, hd⟩ :=
    element_injective p.d_lt_headDim.2 p'.d_lt_headDim.2 h
  exact Pair.ext hoperand htoken hhead (Nat.add_right_cancel hd)

theorem first_ne_second (p p' : Pair s) : p.first ≠ p'.second := by
  intro h
  obtain ⟨-, -, -, hd⟩ := element_injective p.d_lt_headDim.1 p'.d_lt_headDim.2 h
  have := p.d_lt
  omega

def Pair.Stored (p : Pair s) (c : Cell) : Prop := c = p.first ∨ c = p.second

def Pair.Touched (p : Pair s) (c : Cell) : Prop := p.Stored c ∨ c = p.cosCell ∨ c = p.sinCell

/-- A rotation stores to its tensor only. -/
theorem Pair.Stored.buffer {p : Pair s} {c : Cell} (h : p.Stored c) : c.1 = .operand p.operand := by
  rcases h with rfl | rfl <;> rfl

theorem Pair.Stored.unique {p p' : Pair s} {c : Cell} (h : p.Stored c) (h' : p'.Stored c) :
    p = p' := by
  rcases h with rfl | rfl
  · exact h'.elim first_injective fun heq => absurd heq (first_ne_second p p')
  · exact h'.elim (fun heq => absurd heq.symm (first_ne_second p' p)) second_injective

/-- No rotation reads `cos` or `sin` from a cell that another one stores to. -/
theorem Pair.Touched.unique {p p' : Pair s} {c : Cell} (h : p.Stored c) (h' : p'.Touched c) :
    p = p' := by
  rcases h' with h' | rfl | rfl
  · exact h.unique h'
  · cases h.buffer
  · cases h.buffer

theorem Pair.Touched.inBounds {p : Pair s} {c : Cell} (h : p.Touched c) : s.InBounds c := by
  have hrow := factor_lt p.token_lt p.d_lt
  rcases h with (rfl | rfl) | rfl | rfl
  · exact element_inBounds p p.d_lt_headDim.1
  · exact element_inBounds p p.d_lt_headDim.2
  · exact Cell.plus_inBounds hrow
  · exact Cell.plus_inBounds hrow

/-- Two memories with every pair rotated and the rest unchanged are one. -/
theorem Rotated.unique {m m₁ m₂ : Cell → ℝ} (h₁ : Rotated s m m₁) (h₂ : Rotated s m m₂) :
    m₁ = m₂ := by
  funext c
  by_cases hc : ∃ p : Pair s, p.Stored c
  · obtain ⟨p, rfl | rfl⟩ := hc
    · rw [h₁.first, h₂.first]
    · rw [h₁.second, h₂.second]
  · have hnone : ∀ p : Pair s, c ≠ p.first ∧ c ≠ p.second := fun p =>
      ⟨fun h => hc ⟨p, Or.inl h⟩, fun h => hc ⟨p, Or.inr h⟩⟩
    rw [h₁.frame c hnone, h₂.frame c hnone]

/-- The last grid index of the blocks that work on a tensor. -/
def Operand.isKey : Operand → ℕ
  | .Q => 0
  | .K => 1

theorem Operand.exists_isKey {z : ℕ} (hz : z < 2) : ∃ o, z = Operand.isKey o := by
  rcases Nat.lt_succ_iff_lt_or_eq.mp hz with h | h
  · exact ⟨.Q, Nat.lt_one_iff.mp h⟩
  · exact ⟨.K, h⟩

/-- The grid has a block for the head of every pair. -/
theorem Pair.launched (p : Pair s) : p.token < s.batchSize * s.seqLen ∧
    p.head < max s.numQHeads s.numKvHeads ∧ p.operand.isKey < 2 := by
  have hheads : s.heads p.operand ≤ max s.numQHeads s.numKvHeads := by
    cases p.operand with
    | Q => exact le_max_left _ _
    | K => exact le_max_right _ _
  refine ⟨p.token_lt, p.head_lt.trans_le hheads, ?_⟩
  cases p.operand with
  | Q => exact Nat.two_pos
  | K => exact Nat.one_lt_two

/-- The indices of a launch that has a program are small. -/
theorem RopeShape.Launches.bounds (h : s.Launches) {token head : ℕ}
    (htoken : token < s.batchSize * s.seqLen) (hhead : head < max s.numQHeads s.numKvHeads) :
    token < 2147483648 ∧ head < 65536 ∧ s.headDim / 2 ≤ 1048576 := by
  obtain ⟨-, htile, hgrid⟩ := h
  have hblocks : s.batchSize * s.seqLen * max s.numQHeads s.numKvHeads * 2 ≠ 0 :=
    mul_ne_zero (mul_ne_zero (Nat.ne_zero_of_lt htoken) (Nat.ne_zero_of_lt hhead)) two_ne_zero
  obtain ⟨htokens, hheads, -⟩ := hgrid.resolve_left hblocks
  exact ⟨htoken.trans htokens, hhead.trans hheads, (le_nextPowerOf2 _).trans htile⟩

end Pairs

section Launches
variable {T R : Type*} [DecidableEq T] [DecidableEq R] {prog : T → List (Instr R Cell ℝ)}

/-- The launch hands every pair to an owner, which rotates it when it runs alone and which meets no
cell but those of its pairs. -/
structure RotatesPairs (s : RopeShape) (prog : T → List (Instr R Cell ℝ)) (owner : Pair s → T) :
    Prop where
  stores : ∀ t, ∀ a ∈ prog t, ∀ c, a.Stores c → ∃ p, owner p = t ∧ p.Stored c
  accesses : ∀ t, ∀ a ∈ prog t, ∀ c, a.Accesses c → s.InBounds c ∧ ∀ p : Pair s, p.Stored c →
    owner p = t
  visits : ∀ p c, p.Stored c → ∃ a ∈ prog (owner p), a.Accesses c
  alone : ∀ p m, (runAlone (prog (owner p)) m).mem p.first =
      m.mem p.first * m.mem p.cosCell - m.mem p.second * m.mem p.sinCell ∧
    (runAlone (prog (owner p)) m).mem p.second =
      m.mem p.first * m.mem p.sinCell + m.mem p.second * m.mem p.cosCell

namespace RotatesPairs
variable {owner : Pair s → T} (h : RotatesPairs s prog owner)
include h

omit [DecidableEq T] in
theorem raceFree : RaceFree prog := by
  rintro t t' c ⟨a, ha, hstores⟩ ⟨b, hb, haccesses⟩
  obtain ⟨p, rfl, hp⟩ := h.stores t a ha c hstores
  exact (h.accesses t' b hb c haccesses).2 p hp

/-- Whatever the interleaving, the launch leaves every pair rotated once. -/
theorem rotated (schedule : Schedule prog) (m : Machine T R Cell ℝ) :
    Rotated s m.mem (m.run schedule.trace).mem where
  first := fun p => by
    rw [schedule.run_mem m h.raceFree (h.visits p _ (Or.inl rfl))]
    exact (h.alone p _).1
  second := fun p => by
    rw [schedule.run_mem m h.raceFree (h.visits p _ (Or.inr rfl))]
    exact (h.alone p _).2
  frame := fun c hc => by
    apply schedule.run_mem_of_not_stores
    intro t a ha hstores
    obtain ⟨p, -, hp⟩ := h.stores t a ha c hstores
    exact hp.elim (hc p).1 (hc p).2

end RotatesPairs

end Launches

end CudaForge.Kernels.Rope
