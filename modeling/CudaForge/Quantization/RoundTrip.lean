import CudaForge.Quantization.BytePacking

/-! How far quantized tensors are from their originals. -/
namespace CudaForge.Quantization
open NearestInteger Tensor

section Scales
variable {𝕜 : Type*} [Field 𝕜] [LinearOrder 𝕜] [IsStrictOrderedRing 𝕜]
  {tensor : Tensor 𝕜} {numBits : ℕ} {axis : Option ℤ} {symmetric : Bool}

def Reducible {α : Type*} (tensor : Tensor α) (axis : Option ℤ) : Prop :=
  ∃ dim, reducedDim axis tensor.shape.length = some dim ∧ extent dim tensor.shape ≠ 0

/-- A scale reaches from zero to the absolute maximum of its slice, unless it is the floor. -/
structure ScaleAt (tensor : Tensor 𝕜) (qmax : 𝕜) (slice : List (List ℕ)) (s : 𝕜) : Prop where
  floor : scaleMin ≤ s
  covers : ∀ other ∈ slice, |tensor.element other| ≤ qmax * s
  attained : s = scaleMin ∨ ∃ other ∈ slice, |tensor.element other| = qmax * s

theorem ScaleAt.pos {qmax s : 𝕜} {slice : List (List ℕ)} (h : ScaleAt tensor qmax slice s) :
    0 < s := by
  have hfloor : (0 : 𝕜) < scaleMin := by
    unfold scaleMin
    positivity
  exact hfloor.trans_le h.floor

/-- A scale is at least a number when the floor or an element of the slice demands it. -/
theorem ScaleAt.le_iff {qmax s v : 𝕜} {slice : List (List ℕ)} (h : ScaleAt tensor qmax slice s)
    (hqmax : 0 < qmax) :
    v ≤ s ↔ v ≤ scaleMin ∨ ∃ other ∈ slice, qmax * v ≤ |tensor.element other| := by
  constructor
  · intro hv
    rcases h.attained with hfloor | ⟨other, hother, hmax⟩
    · exact Or.inl (hv.trans_eq hfloor)
    · right
      refine ⟨other, hother, ?_⟩
      rw [hmax]
      exact mul_le_mul_of_nonneg_left hv hqmax.le
  · rintro (hfloor | ⟨other, hother, hmax⟩)
    · exact hfloor.trans h.floor
    · exact le_of_mul_le_mul_left (hmax.trans (h.covers other hother)) hqmax

omit [IsStrictOrderedRing 𝕜] in
theorem computeMinmaxScale_isSome_iff :
    (computeMinmaxScale tensor numBits axis symmetric).isSome ↔ Reducible tensor axis := by
  rw [computeMinmaxScale, Option.isSome_map, amax_isSome_iff]
  rfl

/-- The calibrated scales, slice by slice. -/
theorem computeMinmaxScale_spec {qs : QuantizationScale 𝕜} {dim : Option ℕ}
    (hqmax : 0 < (qmax numBits symmetric : 𝕜))
    (hdim : reducedDim axis tensor.shape.length = some dim)
    (h : computeMinmaxScale tensor numBits axis symmetric = some qs) :
    qs.scale.shape = keptShape dim tensor.shape ∧
      ∀ index, InShape tensor.shape index →
        ScaleAt tensor (qmax numBits symmetric) (slice dim tensor.shape index)
          (qs.scale.broadcastAt index) := by
  obtain ⟨maxVal, hmax, rfl⟩ := Option.map_eq_some_iff.mp h
  obtain ⟨dim', hdim', hshape, hspec⟩ := amax_spec hmax
  obtain rfl : dim' = dim := Option.some.inj (hdim'.symm.trans hdim)
  refine ⟨hshape, fun index hindex => ?_⟩
  obtain ⟨hle, other, hother, heq⟩ := hspec index hindex
  have hscale : (maxVal.map fun v => max (v / qmax numBits symmetric) scaleMin).broadcastAt index =
      max (maxVal.broadcastAt index / qmax numBits symmetric) scaleMin := rfl
  rw [hscale]
  constructor
  · exact le_max_right _ _
  · intro other' hother'
    have hbound := (hle other' hother').trans_eq (mul_div_cancel₀ _ hqmax.ne').symm
    exact hbound.trans (mul_le_mul_of_nonneg_left (le_max_left _ _) hqmax.le)
  · rcases le_total (maxVal.broadcastAt index / qmax numBits symmetric) scaleMin with hlow | hhigh
    · exact Or.inl (max_eq_right hlow)
    · right
      refine ⟨other, hother, ?_⟩
      rw [max_eq_left hhigh, mul_div_cancel₀ _ hqmax.ne', heq]
      rfl

/-- A calibration with something to reduce returns scales for its slices. -/
theorem exists_scale {dim : Option ℕ} {top : 𝕜} (hqmax : (qmax numBits symmetric : 𝕜) = top)
    (htop : 0 < top) (hdim : reducedDim axis tensor.shape.length = some dim)
    (hextent : extent dim tensor.shape ≠ 0) :
    ∃ qs, computeMinmaxScale tensor numBits axis symmetric = some qs ∧
      qs.scale.shape = keptShape dim tensor.shape ∧
      ∀ index, InShape tensor.shape index →
        ScaleAt tensor top (slice dim tensor.shape index) (qs.scale.broadcastAt index) := by
  subst hqmax
  obtain ⟨qs, hqs⟩ := Option.isSome_iff_exists.mp
    (computeMinmaxScale_isSome_iff.mpr ⟨dim, hdim, hextent⟩)
  exact ⟨qs, hqs, computeMinmaxScale_spec htop hdim hqs⟩

end Scales

section Conversions
variable {𝕜 : Type*} [Field 𝕜] [LinearOrder 𝕜] [FloorRing 𝕜]
  {dim : Option ℕ} {x scale : Tensor 𝕜} {q : Tensor ℤ}

theorem quantizeInt8_spec (symmetric : Bool) (hscale : scale.shape = keptShape dim x.shape) :
    ∃ q, quantizeInt8 x scale symmetric = some q ∧ q.shape = x.shape ∧
      ∀ index, InShape x.shape index → q.element index =
        if symmetric then roundClamp (-128) 127 (x.element index / scale.broadcastAt index)
        else roundClamp 0 255 (x.element index / scale.broadcastAt index) := by
  rw [quantizeInt8, zipWith_kept hscale]
  refine ⟨_, rfl, rfl, fun index hindex => ?_⟩
  rw [← broadcastAt_self hindex]
  cases symmetric <;> rfl

omit [LinearOrder 𝕜] [FloorRing 𝕜] in
theorem dequantizeInt8_spec (hscale : scale.shape = keptShape dim q.shape) :
    ∃ y, dequantizeInt8 q scale = some y ∧ y.shape = q.shape ∧
      ∀ index, InShape q.shape index →
        y.element index = q.element index * scale.broadcastAt index := by
  rw [dequantizeInt8, zipWith_kept hscale]
  refine ⟨_, rfl, rfl, fun index hindex => ?_⟩
  dsimp only
  rw [broadcastAt_self hindex]

/-- What the packed bytes are unpacked to, before the scale is multiplied. -/
theorem packInt4Gemm_spec {M N : ℕ} (toFloat16 : 𝕜 → 𝕜) (hshape : x.shape = [M, N])
    (heven : N % 2 = 0) (hscale : scale.shape = keptShape dim x.shape) :
    ∃ packed q, packInt4Gemm toFloat16 x scale = some (packed, scale.map toFloat16) ∧
      packed.shape = [M, N / 2] ∧ unpackCodes packed = some q ∧ q.shape = x.shape ∧
      ∀ index, InShape x.shape index →
        q.element index = roundClamp (-8) 7 (x.element index / scale.broadcastAt index) := by
  have hrange : ∀ index, -8 ≤ roundClamp (-8) 7 (x.broadcastAt index / scale.broadcastAt index) ∧
      roundClamp (-8) 7 (x.broadcastAt index / scale.broadcastAt index) ≤ 7 :=
    fun index => clamp_mem (by norm_num) _
  obtain ⟨packed, q, hpack, hpackedShape, hunpack, hsame⟩ := unpackCodes_packCodes
    (q := ⟨x.shape, fun index => roundClamp (-8) 7 (x.broadcastAt index / scale.broadcastAt index)⟩)
    hshape heven fun index _ => hrange index
  refine ⟨packed, q, ?_, hpackedShape, hunpack, hsame.shape, fun index hindex => ?_⟩
  · unfold packInt4Gemm
    rw [zipWith_kept hscale, hshape]
    dsimp only
    rw [if_pos heven, Option.bind_some]
    rw [hshape] at hpack
    exact congrArg (Option.map _) hpack
  · rw [hsame.element index (hsame.shape.symm ▸ hindex)]
    dsimp only
    rw [broadcastAt_self hindex]

omit [LinearOrder 𝕜] [FloorRing 𝕜] in
theorem unpackInt4Gemm_spec {packed : Tensor (BitVec 8)} (hunpack : unpackCodes packed = some q)
    (hscale : scale.shape = keptShape dim q.shape) :
    ∃ y, unpackInt4Gemm packed scale = some y ∧ y.shape = q.shape ∧
      ∀ index, InShape q.shape index →
        y.element index = q.element index * scale.broadcastAt index := by
  rw [unpackInt4Gemm, hunpack, Option.bind_some]
  exact dequantizeInt8_spec hscale

end Conversions

section Bounds
variable {𝕜 : Type*} [Field 𝕜] [LinearOrder 𝕜] [IsStrictOrderedRing 𝕜]

/-- The tensor `y` has the shape of `x`, and is within `steps` scale steps of it everywhere. -/
structure WithinSteps (steps : 𝕜) (x y scale : Tensor 𝕜) : Prop where
  shape : y.shape = x.shape
  near : ∀ index, InShape x.shape index →
    |y.element index - x.element index| ≤ steps * scale.broadcastAt index

variable [FloorRing 𝕜]

/-- A code in a range that the scale covers is not clamped. -/
theorem roundClamp_of_covered {x s : 𝕜} {lo hi : ℤ} (hs : 0 < s) (hcovers : |x| ≤ hi * s)
    (hlo : lo ≤ -hi) : roundClamp lo hi (x / s) = roundHalfEven (x / s) := by
  obtain ⟨hbelow, habove⟩ := abs_le.mp hcovers
  refine clamp_of_mem (hlo.trans (le_roundHalfEven ?_)) (roundHalfEven_le ?_)
  · rw [le_div_iff₀ hs]
    push_cast
    rwa [neg_mul]
  · rwa [div_le_iff₀ hs]

theorem near_of_rounded {x s : 𝕜} (hs : 0 < s) :
    |(roundHalfEven (x / s) : 𝕜) * s - x| ≤ 1 / 2 * s :=
  (abs_roundHalfEven_mul_sub_le hs).trans_eq (by ring)

/-- Symmetric codes of eight bits are not clamped, and reconstruct within half a step. -/
theorem int8_symmetric {x : Tensor 𝕜} {axis : Option ℤ} (h : Reducible x axis) :
    ∃ qs q y, computeMinmaxScale x 8 axis true = some qs ∧
      quantizeInt8 x qs.scale true = some q ∧
      (∀ index, InShape x.shape index →
        q.element index = roundHalfEven (x.element index / qs.scale.broadcastAt index)) ∧
      dequantizeInt8 q qs.scale = some y ∧ WithinSteps (1 / 2) x y qs.scale := by
  obtain ⟨dim, hdim, hextent⟩ := h
  have hqmax : (qmax 8 true : 𝕜) = ((127 : ℤ) : 𝕜) := by norm_num [qmax]
  obtain ⟨qs, hqs, hshape, hscales⟩ := exists_scale hqmax (by norm_num) hdim hextent
  obtain ⟨q, hq, hqShape, hcodes⟩ := quantizeInt8_spec true hshape
  obtain ⟨y, hy, hyShape, hvalues⟩ := dequantizeInt8_spec (hqShape.symm ▸ hshape)
  have hrounded : ∀ index, InShape x.shape index →
      q.element index = roundHalfEven (x.element index / qs.scale.broadcastAt index) := by
    intro index hindex
    have hscale := hscales index hindex
    have hcovers := hscale.covers index (mem_slice_self dim hindex)
    rw [hcodes index hindex, if_pos rfl]
    exact roundClamp_of_covered hscale.pos hcovers (by norm_num)
  refine ⟨qs, q, y, hqs, hq, hrounded, hy, hyShape.trans hqShape, fun index hindex => ?_⟩
  rw [hvalues index (hqShape.symm ▸ hindex), hrounded index hindex]
  exact near_of_rounded (hscales index hindex).pos

/-- Packed codes of four bits reconstruct within half a step of the scale that was not rounded. -/
theorem int4_symmetric {x : Tensor 𝕜} {M N : ℕ} (toFloat16 : 𝕜 → 𝕜) (hmatrix : x.shape = [M, N])
    (heven : N % 2 = 0) (h : Reducible x (some 1)) :
    ∃ qs packed y, computeMinmaxScale x 4 (some 1) true = some qs ∧
      packInt4Gemm toFloat16 x qs.scale = some (packed, qs.scale.map toFloat16) ∧
      unpackInt4Gemm packed qs.scale = some y ∧ WithinSteps (1 / 2) x y qs.scale := by
  obtain ⟨dim, hdim, hextent⟩ := h
  have hqmax : (qmax 4 true : 𝕜) = ((7 : ℤ) : 𝕜) := by norm_num [qmax]
  obtain ⟨qs, hqs, hshape, hscales⟩ := exists_scale hqmax (by norm_num) hdim hextent
  obtain ⟨packed, q, hpack, -, hunpack, hqShape, hcodes⟩ :=
    packInt4Gemm_spec toFloat16 hmatrix heven hshape
  obtain ⟨y, hy, hyShape, hvalues⟩ := unpackInt4Gemm_spec hunpack (hqShape.symm ▸ hshape)
  refine ⟨qs, packed, y, hqs, hpack, hy, hyShape.trans hqShape, fun index hindex => ?_⟩
  have hscale := hscales index hindex
  have hcovers := hscale.covers index (mem_slice_self dim hindex)
  rw [hvalues index (hqShape.symm ▸ hindex), hcodes index hindex,
    roundClamp_of_covered hscale.pos hcovers (by norm_num)]
  exact near_of_rounded hscale.pos

/-- Symmetric quantization never saturates and errs by at most half a step. -/
theorem symmetric_withinHalfStep (x : Tensor 𝕜) :
    (∀ axis, Reducible x axis → ∃ qs q y, computeMinmaxScale x 8 axis true = some qs ∧
      quantizeInt8 x qs.scale true = some q ∧
      (∀ index, InShape x.shape index →
        q.element index = roundHalfEven (x.element index / qs.scale.broadcastAt index)) ∧
      dequantizeInt8 q qs.scale = some y ∧ WithinSteps (1 / 2) x y qs.scale) ∧
    ∀ (M N : ℕ) (toFloat16 : 𝕜 → 𝕜), x.shape = [M, N] → N % 2 = 0 → Reducible x (some 1) →
      ∃ qs packed y, computeMinmaxScale x 4 (some 1) true = some qs ∧
        packInt4Gemm toFloat16 x qs.scale = some (packed, qs.scale.map toFloat16) ∧
        unpackInt4Gemm packed qs.scale = some y ∧ WithinSteps (1 / 2) x y qs.scale := by
  constructor
  · intro axis h
    exact int8_symmetric h
  · intro M N toFloat16 hmatrix heven h
    exact int4_symmetric toFloat16 hmatrix heven h

/-- The second row is all zero. -/
theorem symmetric_withinHalfStep_zeroRow :
    (∃ qs q y, computeMinmaxScale (𝕜 := ℚ) ⟨[2, 2], fun index => if index = [0, 0] then 1 else 0⟩
        8 (some 1) true = some qs ∧
      quantizeInt8 ⟨[2, 2], fun index => if index = [0, 0] then 1 else 0⟩ qs.scale true = some q ∧
      dequantizeInt8 q qs.scale = some y ∧
      WithinSteps (1 / 2) ⟨[2, 2], fun index => if index = [0, 0] then 1 else 0⟩ y qs.scale) ∧
    ∃ qs packed y, computeMinmaxScale (𝕜 := ℚ)
        ⟨[2, 2], fun index => if index = [0, 0] then 1 else 0⟩ 4 (some 1) true = some qs ∧
      packInt4Gemm id ⟨[2, 2], fun index => if index = [0, 0] then 1 else 0⟩ qs.scale =
        some (packed, qs.scale.map id) ∧
      unpackInt4Gemm packed qs.scale = some y ∧
      WithinSteps (1 / 2) ⟨[2, 2], fun index => if index = [0, 0] then 1 else 0⟩ y qs.scale := by
  obtain ⟨hint8, hint4⟩ := symmetric_withinHalfStep (𝕜 := ℚ)
    ⟨[2, 2], fun index => if index = [0, 0] then 1 else 0⟩
  have hrows : ∃ dim, reducedDim (some 1) 2 = some dim ∧ extent dim [2, 2] ≠ 0 :=
    ⟨some 1, rfl, by decide⟩
  obtain ⟨qs, q, y, hqs, hq, -, hy, hnear⟩ := hint8 (some 1) hrows
  exact ⟨⟨qs, q, y, hqs, hq, hy, hnear⟩, hint4 2 2 id rfl rfl hrows⟩

end Bounds

section Unsigned
variable {𝕜 : Type*} [Field 𝕜] [LinearOrder 𝕜] [FloorRing 𝕜] [IsStrictOrderedRing 𝕜]
  {x : Tensor 𝕜} {axis : Option ℤ} {dim : Option ℕ}

/-- Unsigned codes keep the nonnegative elements, and clamp the negative ones to zero. -/
theorem int8_asymmetric (hdim : reducedDim axis x.shape.length = some dim)
    (hextent : extent dim x.shape ≠ 0) :
    ∃ qs q y, computeMinmaxScale x 8 axis false = some qs ∧
      quantizeInt8 x qs.scale false = some q ∧ dequantizeInt8 q qs.scale = some y ∧
      y.shape = x.shape ∧
      ∀ index, InShape x.shape index →
        ScaleAt x 255 (slice dim x.shape index) (qs.scale.broadcastAt index) ∧
        (0 ≤ x.element index →
          |y.element index - x.element index| ≤ 1 / 2 * qs.scale.broadcastAt index) ∧
        (x.element index ≤ 0 → y.element index = 0) := by
  have hqmax : (qmax 8 false : 𝕜) = 255 := by norm_num [qmax]
  obtain ⟨qs, hqs, hshape, hscales⟩ := exists_scale hqmax (by norm_num) hdim hextent
  obtain ⟨q, hq, hqShape, hcodes⟩ := quantizeInt8_spec false hshape
  obtain ⟨y, hy, hyShape, hvalues⟩ := dequantizeInt8_spec (hqShape.symm ▸ hshape)
  refine ⟨qs, q, y, hqs, hq, hy, hyShape.trans hqShape, fun index hindex => ?_⟩
  have hscale := hscales index hindex
  have hcovers := hscale.covers index (mem_slice_self dim hindex)
  rw [hvalues index (hqShape.symm ▸ hindex), hcodes index hindex, if_neg Bool.false_ne_true]
  refine ⟨hscale, fun hnonneg => ?_, fun hnonpos => ?_⟩
  · have hlow : 0 ≤ roundHalfEven (x.element index / qs.scale.broadcastAt index) :=
      le_roundHalfEven (by exact_mod_cast div_nonneg hnonneg hscale.pos.le)
    have hhigh : roundHalfEven (x.element index / qs.scale.broadcastAt index) ≤ 255 := by
      refine roundHalfEven_le ?_
      rw [div_le_iff₀ hscale.pos]
      exact_mod_cast (le_abs_self _).trans hcovers
    rw [roundClamp, clamp_of_mem hlow hhigh]
    exact near_of_rounded hscale.pos
  · have hzero : roundHalfEven (x.element index / qs.scale.broadcastAt index) ≤ 0 :=
      roundHalfEven_le (by exact_mod_cast div_nonpos_of_nonpos_of_nonneg hnonpos hscale.pos.le)
    rw [roundClamp, clamp_of_le (by norm_num) hzero, Int.cast_zero, zero_mul]

/-- Unsigned quantization reconstructs within a step unless a negative element is too large. -/
theorem asymmetric_withinStep_iff (hdim : reducedDim axis x.shape.length = some dim)
    (hextent : extent dim x.shape ≠ 0) :
    (∃ qs q y, computeMinmaxScale x 8 axis false = some qs ∧
      quantizeInt8 x qs.scale false = some q ∧ dequantizeInt8 q qs.scale = some y ∧
      WithinSteps 1 x y qs.scale) ↔
    ∀ index, InShape x.shape index → -x.element index ≤ 1 / 10 ^ 8 ∨
      ∃ other ∈ slice dim x.shape index, 255 * -x.element index ≤ |x.element other| := by
  obtain ⟨qs, q, y, hqs, hq, hy, hshape, hspec⟩ := int8_asymmetric hdim hextent
  have hreach : ∀ index, InShape x.shape index →
      (|y.element index - x.element index| ≤ 1 * qs.scale.broadcastAt index ↔
        -x.element index ≤ qs.scale.broadcastAt index) := by
    intro index hindex
    obtain ⟨hscale, hnonneg, hnonpos⟩ := hspec index hindex
    rw [one_mul]
    rcases le_total 0 (x.element index) with hx | hx
    · have hpos := hscale.pos
      refine iff_of_true ((hnonneg hx).trans ?_) ?_
      · linarith
      · linarith
    · rw [hnonpos hx, zero_sub, abs_neg, abs_of_nonpos hx]
  constructor
  · rintro ⟨qs', q', y', hqs', hq', hy', hnear⟩ index hindex
    obtain rfl : qs' = qs := Option.some.inj (hqs'.symm.trans hqs)
    obtain rfl : q' = q := Option.some.inj (hq'.symm.trans hq)
    obtain rfl : y' = y := Option.some.inj (hy'.symm.trans hy)
    have hle := (hreach index hindex).mp (hnear.near index hindex)
    exact ((hspec index hindex).1.le_iff (by norm_num)).mp hle
  · intro hall
    refine ⟨qs, q, y, hqs, hq, hy, hshape, fun index hindex => ?_⟩
    exact (hreach index hindex).mpr
      (((hspec index hindex).1.le_iff (by norm_num)).mpr (hall index hindex))

theorem asymmetric_withinStep_iff_pair :
    ∃ qs q y, computeMinmaxScale (𝕜 := ℚ) ⟨[1, 2], fun index => if index = [0, 0] then -1 else 255⟩
        8 none false = some qs ∧
      quantizeInt8 ⟨[1, 2], fun index => if index = [0, 0] then -1 else 255⟩ qs.scale false =
        some q ∧
      dequantizeInt8 q qs.scale = some y ∧
      WithinSteps 1 ⟨[1, 2], fun index => if index = [0, 0] then -1 else 255⟩ y qs.scale := by
  have hall : reducedDim none [1, 2].length = some none := rfl
  refine (asymmetric_withinStep_iff hall (by decide)).mpr fun index _ => ?_
  right
  refine ⟨[0, 1], mem_indices.mpr (inShape_pair.mpr ⟨0, one_pos, 1, one_lt_two, rfl⟩), ?_⟩
  dsimp only
  split_ifs <;> norm_num at *

/-- One negative element is reconstructed as zero, 255 steps away. -/
theorem asymmetric_negative_lost :
    ∃ qs q y, computeMinmaxScale (𝕜 := ℚ) ⟨[1], fun _ => -1⟩ 8 none false = some qs ∧
      quantizeInt8 ⟨[1], fun _ => -1⟩ qs.scale false = some q ∧
      dequantizeInt8 q qs.scale = some y ∧ ¬WithinSteps 1 ⟨[1], fun _ => -1⟩ y qs.scale := by
  obtain ⟨qs, q, y, hqs, hq, hy, -, hspec⟩ :=
    int8_asymmetric (𝕜 := ℚ) (x := ⟨[1], fun _ => -1⟩)
      (show reducedDim none [1].length = some none from rfl) (by decide)
  refine ⟨qs, q, y, hqs, hq, hy, fun hwithin => ?_⟩
  have hindex : InShape [1] [0] := List.Forall₂.cons Nat.one_pos List.Forall₂.nil
  obtain ⟨hscale, -, hzero⟩ := hspec [0] hindex
  have hnear := hwithin.near [0] hindex
  rw [hzero (by norm_num)] at hnear
  norm_num at hnear
  rcases hscale.attained with hfloor | ⟨other, -, hmax⟩
  · rw [hfloor] at hnear
    norm_num [scaleMin] at hnear
  · norm_num at hmax
    linarith

end Unsigned
end CudaForge.Quantization
