import CudaForge.Kernels.RopeThreads

/-!
The programs of the Triton launch rotate every pair once, and so leave what the CUDA launch does.
-/
namespace CudaForge.Kernels.Rope
open SharedMemory Triton PromotedIntegers
variable {s : RopeShape}

section Strides
variable {n₀ n₁ n₂ n₃ : ℕ}

/-- An index below a length of 1 is 0, whatever the stride. -/
theorem index_mul_stride {n i stride expected : ℕ} (hi : i < n) (h : n = 1 ∨ stride = expected) :
    i * stride = i * expected := by
  rcases h with rfl | rfl
  · rw [Nat.lt_one_iff.mp hi, Nat.zero_mul, Nat.zero_mul]
  · rfl

theorem scaled_index {n i stride expected : ℕ} (hsmall : i < 2147483648) (hi : i < n)
    (hlast : (n - 1) * expected < 2147483648) (h : n = 1 ∨ stride = expected) :
    (scaled i stride).toInt = (i * expected : ℕ) := by
  have hmul := index_mul_stride hi h
  have hle : i * expected ≤ (n - 1) * expected := Nat.mul_le_mul_right _ (by omega)
  have hfits : Fits32 (i * stride : ℕ) := fits32_natCast (by omega)
  rw [Nat.cast_mul] at hfits
  rw [scaled_toInt hsmall hfits, ← Nat.cast_mul, hmul]

/-- The offsets of a contiguous tensor are row-major. -/
theorem Contiguous4.offset_eq (x : Contiguous4 n₀ n₁ n₂ n₃) {i₀ i₁ i₂ i₃ : ℕ} (h₀ : i₀ < n₀)
    (h₁ : i₁ < n₁) (h₂ : i₂ < n₂) (h₃ : i₃ < n₃) (hlast₀ : (n₀ - 1) * (n₁ * n₂ * n₃) < 2147483648)
    (hlast₁ : (n₁ - 1) * (n₂ * n₃) < 2147483648) (hlast₂ : (n₂ - 1) * n₃ < 2147483648)
    (hsmall : i₀ < 2147483648 ∧ i₁ < 2147483648 ∧ i₂ < 2147483648) (hn₃ : n₃ < 2147483648) :
    x.headOffset i₀ i₁ i₂ + (scaled i₃ x.stride3).toInt =
      (((i₀ * n₁ + i₁) * n₂ + i₂) * n₃ : ℕ) + (i₃ : ℤ) := by
  have hpos : n₀ * n₁ * n₂ * n₃ ≠ 0 :=
    mul_ne_zero (mul_ne_zero (mul_ne_zero (by omega) (by omega)) (by omega)) (by omega)
  obtain ⟨hs₃, hs₂, hs₁, hs₀⟩ := x.contiguous.resolve_left hpos
  unfold headOffset
  rw [scaled_index hsmall.1 h₀ hlast₀ hs₀, scaled_index hsmall.2.1 h₁ hlast₁ hs₁,
    scaled_index hsmall.2.2 h₂ hlast₂ hs₂, scaled_index (by omega) h₃ (by omega) hs₃]
  push_cast
  ring

theorem Contiguous2.offset_eq (x : Contiguous2 n₀ n₁) {i₀ i₁ : ℕ} (h₀ : i₀ < n₀) (h₁ : i₁ < n₁)
    (hlast : (n₀ - 1) * n₁ < 2147483648) (hsmall : i₀ < 2147483648) (hn₁ : n₁ < 2147483648) :
    x.ptrs i₀ i₁ = (i₀ * n₁ : ℕ) + (i₁ : ℤ) := by
  have hpos : n₀ * n₁ ≠ 0 := mul_ne_zero (by omega) (by omega)
  obtain ⟨hs₁, hs₀⟩ := x.contiguous.resolve_left hpos
  unfold ptrs
  rw [scaled_index hsmall h₀ hlast hs₀, scaled_index (by omega) h₁ (by omega) hs₁, Nat.mul_one]

end Strides

namespace RopeTensors
variable (x : RopeTensors s)

def tensor : ∀ o : Operand, Contiguous4 s.batchSize s.seqLen (s.heads o) s.headDim
  | .Q => x.q
  | .K => x.k

def lane (o : Operand) (token head e : ℕ) : Cell :=
  (.operand o, (x.tensor o).headOffset (token / s.seqLen) (token % s.seqLen) head +
    (scaled e (x.tensor o).stride3).toInt)

noncomputable def factorLoads (HALF_DIM BLOCK_DIM token : ℕ) : List (Instr (Reg × ℕ) Cell ℝ) :=
  loadTile BLOCK_DIM (· < HALF_DIM) (Prod.mk .c) 0
      (fun d => (.cos, x.cos.ptrs (token % s.seqLen) d)) ++
    loadTile BLOCK_DIM (· < HALF_DIM) (Prod.mk .s) 0
      (fun d => (.sin, x.sin.ptrs (token % s.seqLen) d))

noncomputable def headProgram (HALF_DIM BLOCK_DIM : ℕ) (o : Operand) (token head : ℕ) :
    List (Instr (Reg × ℕ) Cell ℝ) :=
  loadTile BLOCK_DIM (· < HALF_DIM) (Prod.mk .x1) 0 (x.lane o token head) ++
    loadTile BLOCK_DIM (· < HALF_DIM) (Prod.mk .x2) 0
      (fun d => x.lane o token head (d + HALF_DIM)) ++
    storeTile BLOCK_DIM (· < HALF_DIM) (x.lane o token head)
      (fun d r => r (.x1, d) * r (.c, d) - r (.x2, d) * r (.s, d)) ++
    storeTile BLOCK_DIM (· < HALF_DIM) (fun d => x.lane o token head (d + HALF_DIM))
      (fun d r => r (.x1, d) * r (.s, d) + r (.x2, d) * r (.c, d))

theorem fusedRopeKernel_eq (HALF_DIM BLOCK_DIM : ℕ) (o : Operand) (token head : ℕ) :
    fusedRopeKernel x HALF_DIM BLOCK_DIM ⟨token, head, o.isKey⟩ =
      x.factorLoads HALF_DIM BLOCK_DIM token ++
        if head < s.heads o then x.headProgram HALF_DIM BLOCK_DIM o token head else [] := by
  cases o with
  | Q => rfl
  | K => rfl

end RopeTensors

section Programs
variable (x : RopeTensors s) (p : Pair s) (hlaunch : s.Launches) (hfits : s.OffsetsFit)

include hlaunch hfits in
theorem lane_eq {e : ℕ} (he : e < s.headDim) :
    x.lane p.operand p.token p.head e = p.element e := by
  obtain ⟨htoken, hhead, hhalf⟩ := hlaunch.bounds p.launched.1 p.launched.2.1
  have hseq := RopeShape.seqLen_pos p.token_lt
  have hbatch : p.token / s.seqLen < s.batchSize := by
    rw [Nat.div_lt_iff_lt_mul hseq]
    exact p.token_lt
  have hsmall : p.token / s.seqLen < 2147483648 ∧ p.token % s.seqLen < 2147483648 ∧
      p.head < 2147483648 :=
    ⟨(Nat.div_le_self _ _).trans_lt htoken, (Nat.mod_le _ _).trans_lt htoken, by omega⟩
  have hoffset := (x.tensor p.operand).offset_eq hbatch (Nat.mod_lt p.token hseq) p.head_lt he
    (hfits.batch _) (hfits.position _) (hfits.head _) hsmall (by omega)
  unfold RopeTensors.lane Pair.element Cell.plus
  rw [hoffset, Nat.div_add_mod' p.token s.seqLen]

include hlaunch hfits in
/-- The lanes of a head vector are cells of their own. -/
theorem lane_injective {e e' : ℕ} (he : e < s.headDim) (he' : e' < s.headDim)
    (h : x.lane p.operand p.token p.head e = x.lane p.operand p.token p.head e') : e = e' := by
  rw [lane_eq x p hlaunch hfits he, lane_eq x p hlaunch hfits he'] at h
  exact (element_injective he he' h).2.2.2

theorem Pair.d_lt_block : p.d < nextPowerOf2 (s.headDim / 2) :=
  p.d_lt.trans_le (le_nextPowerOf2 _)

/-- The factors of a token's lanes are the row of its position. -/
theorem factorPtrs_eq (hlaunch : s.Launches) (hfits : s.OffsetsFit) {token head d : ℕ}
    (htoken : token < s.batchSize * s.seqLen) (hhead : head < max s.numQHeads s.numKvHeads)
    (hd : d < s.headDim / 2) (y : Contiguous2 s.seqLen (s.headDim / 2)) :
    y.ptrs (token % s.seqLen) d = (token % s.seqLen * (s.headDim / 2) : ℕ) + (d : ℤ) := by
  obtain ⟨hsmall, -, hhalf⟩ := hlaunch.bounds htoken hhead
  exact y.offset_eq (Nat.mod_lt token (RopeShape.seqLen_pos htoken)) hd hfits.row
    ((Nat.mod_le _ _).trans_lt hsmall) (by omega)

theorem factorLoads_accesses {HALF_DIM BLOCK_DIM token : ℕ} {a : Instr (Reg × ℕ) Cell ℝ} {c : Cell}
    (ha : a ∈ x.factorLoads HALF_DIM BLOCK_DIM token) (hc : a.Accesses c) :
    ∃ d < HALF_DIM, c = (.cos, x.cos.ptrs (token % s.seqLen) d) ∨
      c = (.sin, x.sin.ptrs (token % s.seqLen) d) := by
  rcases List.mem_append.mp ha with ha | ha
  · obtain ⟨d, -, hd, rfl⟩ := loadTile_accesses ha hc
    exact ⟨d, hd, Or.inl rfl⟩
  · obtain ⟨d, -, hd, rfl⟩ := loadTile_accesses ha hc
    exact ⟨d, hd, Or.inr rfl⟩

theorem factorLoads_not_stores {HALF_DIM BLOCK_DIM token : ℕ} {a : Instr (Reg × ℕ) Cell ℝ}
    {c : Cell} (ha : a ∈ x.factorLoads HALF_DIM BLOCK_DIM token) : ¬ a.Stores c :=
  (List.mem_append.mp ha).elim loadTile_not_stores loadTile_not_stores

theorem headProgram_accesses {HALF_DIM BLOCK_DIM token head : ℕ} {o : Operand}
    {a : Instr (Reg × ℕ) Cell ℝ} {c : Cell}
    (ha : a ∈ x.headProgram HALF_DIM BLOCK_DIM o token head) (hc : a.Accesses c) :
    ∃ d < HALF_DIM, c = x.lane o token head d ∨ c = x.lane o token head (d + HALF_DIM) := by
  unfold RopeTensors.headProgram at ha
  simp only [List.mem_append] at ha
  rcases ha with ((ha | ha) | ha) | ha
  · obtain ⟨d, -, hd, rfl⟩ := loadTile_accesses ha hc
    exact ⟨d, hd, Or.inl rfl⟩
  · obtain ⟨d, -, hd, rfl⟩ := loadTile_accesses ha hc
    exact ⟨d, hd, Or.inr rfl⟩
  · obtain ⟨d, -, hd, rfl⟩ := storeTile_accesses ha hc
    exact ⟨d, hd, Or.inl rfl⟩
  · obtain ⟨d, -, hd, rfl⟩ := storeTile_accesses ha hc
    exact ⟨d, hd, Or.inr rfl⟩

def tritonOwner (p : Pair s) : ProgramId := ⟨p.token, p.head, p.operand.isKey⟩

/-- A program of the launch works on one head, or only loads `cos` and `sin`. -/
theorem ropePrograms_cases (t : ProgramId) :
    ropePrograms x t = [] ∨ ∃ o, t.tokenIdx < s.batchSize * s.seqLen ∧
      t.headIdx < max s.numQHeads s.numKvHeads ∧ t.isKey = Operand.isKey o ∧ ropePrograms x t =
        x.factorLoads (s.headDim / 2) (nextPowerOf2 (s.headDim / 2)) t.tokenIdx ++
          if t.headIdx < s.heads o then
            x.headProgram (s.headDim / 2) (nextPowerOf2 (s.headDim / 2)) o t.tokenIdx t.headIdx
          else [] := by
  obtain ⟨token, head, z⟩ := t
  unfold ropePrograms
  split_ifs with hlaunched
  · obtain ⟨htoken, hhead, hz⟩ := hlaunched
    obtain ⟨o, rfl⟩ := Operand.exists_isKey hz
    exact Or.inr ⟨o, htoken, hhead, rfl, x.fusedRopeKernel_eq _ _ o token head⟩
  · exact Or.inl rfl

theorem ropePrograms_owner (p : Pair s) :
    ropePrograms x (tritonOwner p) =
      x.factorLoads (s.headDim / 2) (nextPowerOf2 (s.headDim / 2)) p.token ++
        x.headProgram (s.headDim / 2) (nextPowerOf2 (s.headDim / 2)) p.operand p.token p.head := by
  unfold ropePrograms tritonOwner
  rw [if_pos p.launched, x.fusedRopeKernel_eq, if_pos p.head_lt]

/-- The owner of a pair loads both its elements. -/
theorem loads_mem_ropePrograms (p : Pair s) :
    .load (.x1, p.d) (x.lane p.operand p.token p.head p.d) ∈ ropePrograms x (tritonOwner p) ∧
    .load (.x2, p.d) (x.lane p.operand p.token p.head (p.d + s.headDim / 2)) ∈
      ropePrograms x (tritonOwner p) := by
  rw [ropePrograms_owner]
  unfold RopeTensors.headProgram
  simp only [List.mem_append]
  constructor
  · exact Or.inr (Or.inl (Or.inl (Or.inl (load_mem_loadTile p.d_lt_block p.d_lt _ _ _))))
  · exact Or.inr (Or.inl (Or.inl (Or.inr (load_mem_loadTile p.d_lt_block p.d_lt _ _
      fun d => x.lane p.operand p.token p.head (d + s.headDim / 2)))))

/-- A tile load leaves the registers of other names alone. -/
theorem loadTile_other {r r' : Reg} (h : r' ≠ r) (n : ℕ) (mask : ℕ → Prop) [DecidablePred mask]
    (src : ℕ → Cell) (m : View (Reg × ℕ) Cell ℝ) (d : ℕ) :
    (runAlone (loadTile n mask (Prod.mk r) 0 src) m).regs (r', d) = m.regs (r', d) :=
  (loadTile_regs n m (Prod.mk_right_injective r) 0 src).2 (r', d) fun _ heq =>
    h (Prod.mk.inj heq).1

section Alone
variable {HALF_DIM BLOCK_DIM d : ℕ} (hd : d < HALF_DIM) (hblock : d < BLOCK_DIM)
  (m : View (Reg × ℕ) Cell ℝ)
include hd hblock

theorem loadTile_self (r : Reg) (src : ℕ → Cell) :
    (runAlone (loadTile BLOCK_DIM (· < HALF_DIM) (Prod.mk r) 0 src) m).regs (r, d) =
      m.mem (src d) := by
  rw [(loadTile_regs BLOCK_DIM m (Prod.mk_right_injective r) 0 src).1 d hblock, if_pos hd]

/-- The factors of a lane are in its registers. -/
theorem factorLoads_run (token : ℕ) :
    (runAlone (x.factorLoads HALF_DIM BLOCK_DIM token) m).mem = m.mem ∧
    (runAlone (x.factorLoads HALF_DIM BLOCK_DIM token) m).regs (.c, d) =
      m.mem (.cos, x.cos.ptrs (token % s.seqLen) d) ∧
    (runAlone (x.factorLoads HALF_DIM BLOCK_DIM token) m).regs (.s, d) =
      m.mem (.sin, x.sin.ptrs (token % s.seqLen) d) := by
  unfold RopeTensors.factorLoads
  rw [runAlone_append]
  refine ⟨?_, ?_, ?_⟩
  · rw [loadTile_mem, loadTile_mem]
  · rw [loadTile_other (by decide), loadTile_self hd hblock]
  · rw [loadTile_self hd hblock, loadTile_mem]

/-- A program rotates a lane of its head by the factors in the registers. -/
theorem headProgram_run {o : Operand} {token head : ℕ}
    (hlane : ∀ e < HALF_DIM + HALF_DIM, ∀ e' < HALF_DIM + HALF_DIM,
      x.lane o token head e = x.lane o token head e' → e = e') :
    (runAlone (x.headProgram HALF_DIM BLOCK_DIM o token head) m).mem (x.lane o token head d) =
      m.mem (x.lane o token head d) * m.regs (.c, d) -
        m.mem (x.lane o token head (d + HALF_DIM)) * m.regs (.s, d) ∧
    (runAlone (x.headProgram HALF_DIM BLOCK_DIM o token head) m).mem
        (x.lane o token head (d + HALF_DIM)) =
      m.mem (x.lane o token head d) * m.regs (.s, d) +
        m.mem (x.lane o token head (d + HALF_DIM)) * m.regs (.c, d) := by
  have hfirst : ∀ e < HALF_DIM, x.lane o token head e = x.lane o token head d → e = d :=
    fun e he => hlane e (by omega) d (by omega)
  have hsecond : ∀ e < HALF_DIM,
      x.lane o token head (e + HALF_DIM) = x.lane o token head (d + HALF_DIM) → e = d :=
    fun e he heq => Nat.add_right_cancel (hlane _ (by omega) _ (by omega) heq)
  unfold RopeTensors.headProgram
  rw [runAlone_append, runAlone_append, runAlone_append]
  -- the registers behind the two loads
  let loaded := runAlone (loadTile BLOCK_DIM (· < HALF_DIM) (Prod.mk Reg.x2) 0
    fun d => x.lane o token head (d + HALF_DIM))
      (runAlone (loadTile BLOCK_DIM (· < HALF_DIM) (Prod.mk Reg.x1) 0 (x.lane o token head)) m)
  have hx1 : loaded.regs (.x1, d) = m.mem (x.lane o token head d) := by
    show (runAlone _ (runAlone _ m)).regs _ = _
    rw [loadTile_other (by decide), loadTile_self hd hblock]
  have hx2 : loaded.regs (.x2, d) = m.mem (x.lane o token head (d + HALF_DIM)) := by
    show (runAlone _ (runAlone _ m)).regs _ = _
    rw [loadTile_self hd hblock, loadTile_mem]
  have hfactor : ∀ r : Reg, r ≠ .x1 → r ≠ .x2 → loaded.regs (r, d) = m.regs (r, d) := by
    intro r h₁ h₂
    show (runAlone _ (runAlone _ m)).regs _ = _
    rw [loadTile_other h₂, loadTile_other h₁]
  constructor
  · -- the second store goes to the other halves of the lanes
    rw [runAlone_mem_of_not_stores, storeTile_mem _ _ _ hfirst hblock hd]
    · show loaded.regs _ * loaded.regs _ - loaded.regs _ * loaded.regs _ = _
      rw [hx1, hx2, hfactor .c nofun nofun, hfactor .s nofun nofun]
    · intro a ha hstores
      obtain ⟨d', -, hd', hcell⟩ := storeTile_accesses ha hstores.accesses
      have heq := hlane _ (by omega) _ (by omega) hcell
      omega
  · let dst := fun e => x.lane o token head (e + HALF_DIM)
    have hcell : x.lane o token head (d + HALF_DIM) = dst d := rfl
    rw [hcell, storeTile_mem _ _ _ hsecond hblock hd, storeTile_regs]
    show loaded.regs _ * loaded.regs _ + loaded.regs _ * loaded.regs _ = _
    rw [hx1, hx2, hfactor .c nofun nofun, hfactor .s nofun nofun]

end Alone

include hlaunch hfits

/-- What a program does on its head stays in the pairs of that head. -/
theorem headProgram_stored {o : Operand} {token head : ℕ}
    (htoken : token < s.batchSize * s.seqLen) (hhead : head < s.heads o)
    {a : Instr (Reg × ℕ) Cell ℝ} {c : Cell}
    (ha : a ∈ x.headProgram (s.headDim / 2) (nextPowerOf2 (s.headDim / 2)) o token head)
    (hc : a.Accesses c) :
    ∃ d, ∃ hd : d < s.headDim / 2, (⟨o, token, head, d, htoken, hhead, hd⟩ : Pair s).Stored c := by
  obtain ⟨d, hd, hcd⟩ := headProgram_accesses x ha hc
  let p : Pair s := ⟨o, token, head, d, htoken, hhead, hd⟩
  refine ⟨d, hd, ?_⟩
  unfold Pair.Stored Pair.first Pair.second
  rw [← lane_eq x p hlaunch hfits p.d_lt_headDim.1, ← lane_eq x p hlaunch hfits p.d_lt_headDim.2]
  exact hcd

/-- The programs of the Triton launch rotate every pair once. -/
theorem ropePrograms_rotatesPairs : RotatesPairs s (ropePrograms x) tritonOwner where
  stores := fun t a ha c hc => by
    rcases ropePrograms_cases x t with hnone | ⟨o, htoken, -, hz, hprog⟩
    · rw [hnone] at ha
      cases ha
    · rw [hprog, List.mem_append, List.mem_ite_nil_right] at ha
      rcases ha with ha | ⟨hhead, ha⟩
      · exact absurd hc (factorLoads_not_stores x ha)
      · obtain ⟨d, hd, hstored⟩ :=
          headProgram_stored x hlaunch hfits htoken hhead ha hc.accesses
        refine ⟨_, ?_, hstored⟩
        unfold tritonOwner
        rw [← hz]
  accesses := fun t a ha c hc => by
    rcases ropePrograms_cases x t with hnone | ⟨o, htoken, hblock, hz, hprog⟩
    · rw [hnone] at ha
      cases ha
    · rw [hprog, List.mem_append, List.mem_ite_nil_right] at ha
      rcases ha with ha | ⟨hhead, ha⟩
      · obtain ⟨d, hd, rfl | rfl⟩ := factorLoads_accesses x ha hc
        · rw [factorPtrs_eq hlaunch hfits htoken hblock hd]
          exact ⟨Cell.plus_inBounds (factor_lt htoken hd), fun p hp => Buffer.noConfusion hp.buffer⟩
        · rw [factorPtrs_eq hlaunch hfits htoken hblock hd]
          exact ⟨Cell.plus_inBounds (factor_lt htoken hd), fun p hp => Buffer.noConfusion hp.buffer⟩
      · obtain ⟨d, hd, hstored⟩ := headProgram_stored x hlaunch hfits htoken hhead ha hc
        refine ⟨Pair.Touched.inBounds (Or.inl hstored), fun p' hp' => ?_⟩
        rw [← hstored.unique hp']
        show (⟨t.tokenIdx, t.headIdx, o.isKey⟩ : ProgramId) = t
        rw [← hz]
  visits := fun p c hc => by
    obtain ⟨hfirst, hsecond⟩ := loads_mem_ropePrograms x p
    rcases hc with rfl | rfl
    · exact ⟨_, hfirst, lane_eq x p hlaunch hfits p.d_lt_headDim.1⟩
    · exact ⟨_, hsecond, lane_eq x p hlaunch hfits p.d_lt_headDim.2⟩
  alone := fun p m => by
    have hd := p.d_lt
    have hblock := p.d_lt_block
    obtain ⟨htoken, hhead, -⟩ := p.launched
    rw [ropePrograms_owner, runAlone_append]
    obtain ⟨hmem, hcos, hsin⟩ := factorLoads_run x hd hblock m p.token
    have hrun := headProgram_run x hd hblock
      (runAlone (x.factorLoads (s.headDim / 2) (nextPowerOf2 (s.headDim / 2)) p.token) m)
      fun e he e' he' => lane_injective x p hlaunch hfits (by omega) (by omega)
    rw [hmem, hcos, hsin, factorPtrs_eq hlaunch hfits htoken hhead hd,
      factorPtrs_eq hlaunch hfits htoken hhead hd, lane_eq x p hlaunch hfits p.d_lt_headDim.1,
      lane_eq x p hlaunch hfits p.d_lt_headDim.2] at hrun
    exact hrun

end Programs

/-- The Triton launch has a run. -/
theorem ropePrograms_nonempty (x : RopeTensors s) : Nonempty (Schedule (ropePrograms x)) := by
  let launched := Finset.range (s.batchSize * s.seqLen) ×ˢ
    Finset.range (max s.numQHeads s.numKvHeads) ×ˢ Finset.range 2
  apply Schedule.nonempty
  apply (launched.image fun p => (⟨p.1, p.2.1, p.2.2⟩ : ProgramId)).finite_toSet.subset
  rintro ⟨token, head, z⟩ hprog
  have hlaunched : token < s.batchSize * s.seqLen ∧ head < max s.numQHeads s.numKvHeads ∧
      z < 2 := by
    by_contra hnot
    exact hprog (if_neg hnot)
  refine Finset.mem_coe.mpr (Finset.mem_image.mpr ⟨(token, head, z), ?_, rfl⟩)
  simp only [launched, Finset.mem_product, Finset.mem_range]
  exact hlaunched

theorem fusedRopeTriton_eq_ok {x : RopeTensors s}
    {programs : ProgramId → List (Instr (Reg × ℕ) Cell ℝ)} :
    fusedRopeTriton x = .ok programs ↔ s.Launches ∧ ropePrograms x = programs := by
  unfold fusedRopeTriton RopeShape.Launches
  dsimp only
  split_ifs with hrefused
  · exact iff_of_false nofun fun hlaunch => by omega
  · have hhalf : 0 < s.headDim / 2 := by omega
    have htile : nextPowerOf2 (s.headDim / 2) ≤ maxTensorNumel := by omega
    rw [launchGrid_eq_ok_iff, and_iff_right hhalf, and_iff_right htile]

def finalMemory {T R : Type*} [DecidableEq T] [DecidableEq R] {prog : T → List (Instr R Cell ℝ)}
    (schedule : Schedule prog) (regs : T → R → ℝ) (mem : Cell → ℝ) : Cell → ℝ :=
  ((⟨regs, mem⟩ : Machine T R Cell ℝ).run schedule.trace).mem

/-- The CUDA and the Triton launch have runs. All of them leave one memory, in which every pair has
been rotated once, and access nothing outside the four tensors. -/
def LaunchesAgree (x : RopeTensors s) (blockDim : ℕ+) : Prop :=
  ∃ programs, fusedRopeTriton x = .ok programs ∧
    Nonempty (Schedule (ropeLaunch s blockDim)) ∧ Nonempty (Schedule programs) ∧
    ∀ (cuda : Schedule (ropeLaunch s blockDim)) (triton : Schedule programs)
      (cudaRegs : ThreadId → Reg → ℝ) (tritonRegs : ProgramId → Reg × ℕ → ℝ) (mem : Cell → ℝ),
      finalMemory cuda cudaRegs mem = finalMemory triton tritonRegs mem ∧
      Rotated s mem (finalMemory cuda cudaRegs mem) ∧
      (∀ a ∈ cuda.trace, ∀ c, a.2.Accesses c → s.InBounds c) ∧
      (∀ a ∈ triton.trace, ∀ c, a.2.Accesses c → s.InBounds c)

/-- Where the offsets fit, the launches agree whenever the device takes them. -/
theorem rope_launches_agree (x : RopeTensors s) (blockDim : ℕ+) (hfits : s.OffsetsFit) :
    LaunchesAgree x blockDim ↔ s.Launches := by
  unfold LaunchesAgree
  simp only [fusedRopeTriton_eq_ok]
  constructor
  · rintro ⟨programs, ⟨hlaunch, -⟩, -⟩
    exact hlaunch
  · intro hlaunch
    have hcuda := ropeLaunch_rotatesPairs hlaunch hfits blockDim
    have htriton := ropePrograms_rotatesPairs x hlaunch hfits
    refine ⟨_, ⟨hlaunch, rfl⟩, ropeLaunch_nonempty s blockDim, ropePrograms_nonempty x, ?_⟩
    intro cuda triton cudaRegs tritonRegs mem
    have hrotated := hcuda.rotated cuda ⟨cudaRegs, mem⟩
    refine ⟨hrotated.unique (htriton.rotated triton ⟨tritonRegs, mem⟩), hrotated, ?_, ?_⟩
    · exact fun a ha c hc => (hcuda.accesses a.1 a.2 (cuda.mem_prog ha) c hc).1
    · exact fun a ha c hc => (htriton.accesses a.1 a.2 (triton.mem_prog ha) c hc).1

def contiguousTensors (s : RopeShape) : RopeTensors s where
  q := ⟨_, _, _, _, .inr ⟨.inr rfl, .inr rfl, .inr rfl, .inr rfl⟩⟩
  k := ⟨_, _, _, _, .inr ⟨.inr rfl, .inr rfl, .inr rfl, .inr rfl⟩⟩
  cos := ⟨_, _, .inr ⟨.inr rfl, .inr rfl⟩⟩
  sin := ⟨_, _, .inr ⟨.inr rfl, .inr rfl⟩⟩

/-- Two heads of keys for four of queries, half a head of three pairs, and two threads a block. -/
theorem rope_launches_agree_groupedQueries :
    LaunchesAgree (contiguousTensors ⟨2, 5, 4, 2, 6⟩) 2 :=
  (rope_launches_agree _ 2
    { batch := by rintro (_ | _) <;> decide
      position := by rintro (_ | _) <;> decide
      head := by rintro (_ | _) <;> decide
      row := by decide }).mpr ⟨by decide, by decide, .inr (by decide)⟩

/-- A batch of queries has `2 ^ 30` elements: the third one is accessed below the data pointer. -/
theorem third_batch_outside :
    ¬ LaunchesAgree (contiguousTensors ⟨3, 131072, 64, 64, 128⟩) 64 := by
  rintro ⟨programs, hcall, ⟨cuda⟩, ⟨triton⟩, hagree⟩
  obtain ⟨-, rfl⟩ := fusedRopeTriton_eq_ok.mp hcall
  obtain ⟨-, -, -, hinside⟩ := hagree cuda triton (fun _ _ => 0) (fun _ _ => 0) fun _ => 0
  let p : Pair ⟨3, 131072, 64, 64, 128⟩ :=
    ⟨.Q, 262144, 0, 0, by decide, by decide, by decide⟩
  have hload := triton.mem_trace (loads_mem_ropePrograms (contiguousTensors _) p).1
  exact absurd (hinside _ hload _ rfl).1 (by decide)

end CudaForge.Kernels.Rope
