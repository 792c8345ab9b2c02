import CudaForge.Engine.FusedSampling
import CudaForge.Kernels.SamplingTriton
import CudaForge.Library.TiledLoop

/-!
Greedy selection by the CUDA and the Triton sampling kernel. The CUDA scan finds the first greatest
logit of every row; the Triton kernel does unless its tile has nothing but `-inf`, its padding wins,
or rounding gives an earlier logit the softmax of the greatest one.
-/
namespace CudaForge.Kernels.Triton
open Engine.FusedSampling Finset FirstMaximum OnlineSoftmax PromotedIntegers TiledLoop

/-- A matrix of logits for both kernels: each is `-inf` or above `-FLT_MAX`, as every finite half
is. -/
structure LogitsMatrix extends LogitsTensor where
  vocab_pos : 0 < vocabSize
  logit : ∀ b < batchSize, ∀ i < vocabSize, toLogitsTensor.element b i = ⊥ ∨
    ((-FLT_MAX : ℝ) : WithBot ℝ) < toLogitsTensor.element b i

namespace LogitsMatrix
variable (x : LogitsMatrix)

/-- The rows one behind the other, for the CUDA kernel at temperature 0. -/
def samplingParams (topK : ℤ) (topP : ℝ) : SamplingParams where
  logits := fun o => x.element (o / x.vocabSize) (o % x.vocabSize)
  batchSize := x.batchSize
  vocabSize := x.vocabSize
  temperature := 0
  topK := topK
  topP := topP

/-- The launch of the CUDA kernel, which has `sMemFloats` floats of shared memory, and that of the
Triton kernel give the row one token: the first that has the greatest logit. -/
def GreedyAgree (ops : SoftmaxOps) (tl : Argmax) (sMemFloats : ℕ) (topK : ℤ) (topP u : ℝ)
    (b : ℕ) : Prop :=
  ∃ tokens t, (x.samplingParams topK topP).fusedSamplingKernel sMemFloats b u = some t ∧
    fusedSamplingTriton ops tl x.toLogitsTensor 0 = .ok tokens ∧ tokens[b]? = some t ∧
    IsFirstIndex (x.element b) x.vocabSize t

def TritonLaunches : Prop :=
  nextPowerOf2 x.vocabSize ≤ maxTensorNumel ∧ GridFits x.batchSize 1 1

/-- The offsets of the row are 32-bit integers. -/
def RowFits (b : ℕ) : Prop :=
  Fits32 (b * x.strideLb) ∧ ∀ i < x.vocabSize, Fits32 (i * x.strideLv)

def tile (b i : ℕ) : WithBot ℝ := if i < x.vocabSize then x.element b i else x.dtype.other

def tileMax (b : ℕ) : WithBot ℝ := (range (nextPowerOf2 x.vocabSize)).sup (x.tile b)

/-- The first greatest logit of the row is the first in its tile with the computed softmax of the
greatest one; or the tile has nothing but `-inf`, and `tl.argmax` gives 0 for its NaNs. -/
def Separated (ops : SoftmaxOps) (tl : Argmax) (b : ℕ) : Prop :=
  (x.tileMax b = ⊥ ∧ tl.argmax (nextPowerOf2 x.vocabSize) (fun _ => .nan) = 0) ∨
    ∃ (m : ℝ) (t : ℕ), x.tileMax b = m ∧ IsFirstIndex (x.element b) x.vocabSize t ∧
      softmaxValue ops (x.tile b) (nextPowerOf2 x.vocabSize) m (x.element b t) =
        softmaxValue ops (x.tile b) (nextPowerOf2 x.vocabSize) m m ∧
      ∀ i < t, softmaxValue ops (x.tile b) (nextPowerOf2 x.vocabSize) m (x.element b i) ≠
        softmaxValue ops (x.tile b) (nextPowerOf2 x.vocabSize) m m

/-- Without rounding: some logit of the row is not `-inf`, and not below the padding if there is
any; or all are `-inf`, the padding too, and `tl.argmax` gives 0 for NaNs. -/
def Selectable (tl : Argmax) (b : ℕ) : Prop :=
  (∃ i < x.vocabSize, x.element b i ≠ ⊥ ∧
      (nextPowerOf2 x.vocabSize = x.vocabSize ∨ x.dtype.other ≤ x.element b i)) ∨
    (∀ i < x.vocabSize, x.element b i = ⊥) ∧
      (nextPowerOf2 x.vocabSize = x.vocabSize ∨ x.dtype = .float16) ∧
      tl.argmax (nextPowerOf2 x.vocabSize) (fun _ => .nan) = 0

variable {x} {ops : SoftmaxOps} {tl : Argmax} {sMemFloats : ℕ} {topK : ℤ} {topP u : ℝ} {b : ℕ}

theorem samplingParams_rowLogits {i : ℕ} (hi : i < x.vocabSize) :
    (x.samplingParams topK topP).rowLogits b i = x.element b i := by
  show x.element ((b * x.vocabSize + i) / x.vocabSize) ((b * x.vocabSize + i) % x.vocabSize) = _
  rw [mul_add_div_of_lt hi, Nat.mul_add_mod_of_lt hi]

/-- The CUDA kernel returns the first greatest logit, if its shared memory has a float for each
thread. -/
theorem fusedSamplingKernel_eq_some (hb : b < x.batchSize) {t : ℕ} :
    (x.samplingParams topK topP).fusedSamplingKernel sMemFloats b u = some t ↔
      256 ≤ sMemFloats ∧ IsFirstIndex (x.element b) x.vocabSize t := by
  have hgreedy : IsFirstIndex (x.element b) x.vocabSize
      (greedyToken ((x.samplingParams topK topP).rowLogits b) x.vocabSize) := by
    apply (greedyToken_isFirstIndex x.vocab_pos fun i hi => ?_).congr fun i hi =>
      samplingParams_rowLogits hi
    rw [samplingParams_rowLogits hi]
    exact x.logit b hb i hi
  have hcold : (x.samplingParams topK topP).temperature ≤ 1 / 100000 := by
    norm_num [samplingParams]
  have hwarps : (blockSize : ℕ) / WARP_SIZE = 8 := rfl
  have hthreads : (blockSize : ℕ) = 256 := rfl
  unfold SamplingParams.fusedSamplingKernel
  dsimp only
  rw [if_pos hcold, hwarps, hthreads]
  split_ifs with h₁ h₂
  · exact iff_of_false nofun fun h => by omega
  · exact iff_of_false nofun fun h => by omega
  · rw [Option.some.injEq]
    constructor
    · rintro rfl
      exact ⟨by omega, hgreedy⟩
    · exact fun h => hgreedy.unique h.2

/-- At temperature 0 the kernel works on the padded row. -/
theorem tileLogits_cold (hlaunch : x.TritonLaunches) (hb : b < x.batchSize) (hrow : x.RowFits b) :
    tileLogits ops x.toLogitsTensor 0 b = x.tile b := by
  have hvocab := (le_nextPowerOf2 x.vocabSize).trans hlaunch.1
  have hbatch := hlaunch.2.1
  funext i
  unfold tileLogits loadedLogits tile LogitsTensor.element LogitsTensor.logitsPtrs
  rw [if_neg (by norm_num)]
  split_ifs with hi
  · have hi' : i < 2147483648 := by
      unfold maxTensorNumel at hvocab
      omega
    rw [scaled_toInt (hb.trans hbatch) hrow.1, scaled_toInt hi' (hrow.2 i hi)]
  · rfl

theorem fusedSamplingTriton_get (hb : b < x.batchSize) (hrow : x.RowFits b) {t : ℕ} :
    (∃ tokens, fusedSamplingTriton ops tl x.toLogitsTensor 0 = .ok tokens ∧
        tokens[b]? = some t) ↔
      x.TritonLaunches ∧ tl.argmax (nextPowerOf2 x.vocabSize)
        (probs ops (x.tile b) (nextPowerOf2 x.vocabSize)) = t := by
  have hgrid : x.batchSize * 1 * 1 ≠ 0 := by omega
  unfold fusedSamplingTriton fusedSamplingTritonKernel
  dsimp only
  split_ifs with hcompiles
  · refine iff_of_false ?_ fun h => absurd h.1.1 hcompiles.not_ge
    rintro ⟨tokens, htokens, -⟩
    cases htokens
  simp only [launchGrid_eq_ok hgrid, TritonLaunches, not_lt.mp hcompiles, true_and]
  constructor
  · rintro ⟨tokens, ⟨hfits, rfl⟩, htoken⟩
    rw [List.getElem?_map, List.getElem?_range hb, Option.map_some,
      tileLogits_cold ⟨not_lt.mp hcompiles, hfits⟩ hb hrow] at htoken
    exact ⟨hfits, Option.some.inj htoken⟩
  · rintro ⟨hfits, hargmax⟩
    refine ⟨_, ⟨hfits, rfl⟩, ?_⟩
    rw [List.getElem?_map, List.getElem?_range hb, Option.map_some,
      tileLogits_cold ⟨not_lt.mp hcompiles, hfits⟩ hb hrow, hargmax]

theorem tile_of_lt {i : ℕ} (hi : i < x.vocabSize) : x.tile b i = x.element b i := if_pos hi

theorem le_tileMax {i : ℕ} (hi : i < x.vocabSize) : x.element b i ≤ x.tileMax b := by
  rw [← tile_of_lt hi]
  exact le_sup (mem_range.mpr (hi.trans_le (le_nextPowerOf2 _)))

/-- In a tile without a finite logit the first of the row is the first greatest. -/
theorem isFirstIndex_of_bot (hmax : x.tileMax b = ⊥) {t : ℕ} :
    IsFirstIndex (x.element b) x.vocabSize t ↔ t = 0 := by
  have hrow : ∀ i < x.vocabSize, x.element b i = ⊥ := fun i hi =>
    le_bot_iff.mp (hmax ▸ le_tileMax hi)
  have hzero : IsFirstIndex (x.element b) x.vocabSize 0 :=
    ⟨x.vocab_pos, fun j hj => by rw [hrow j hj]; exact bot_le, nofun⟩
  exact ⟨fun h => h.unique hzero, fun h => h ▸ hzero⟩

/-- The Triton kernel returns the first greatest logit exactly when the row is separated. -/
theorem argmax_isFirstIndex_iff : IsFirstIndex (x.element b) x.vocabSize
      (tl.argmax (nextPowerOf2 x.vocabSize) (probs ops (x.tile b) (nextPowerOf2 x.vocabSize))) ↔
    x.Separated ops tl b := by
  have hn := nextPowerOf2_pos x.vocabSize
  have hvocab := le_nextPowerOf2 x.vocabSize
  -- the values of the lanes of the row
  have hlane : ∀ {m : ℝ} {t : ℕ}, x.tileMax b = m → t < x.vocabSize →
      (tl.argmax (nextPowerOf2 x.vocabSize) (probs ops (x.tile b) (nextPowerOf2 x.vocabSize)) = t ↔
        softmaxValue ops (x.tile b) (nextPowerOf2 x.vocabSize) m (x.element b t) =
          softmaxValue ops (x.tile b) (nextPowerOf2 x.vocabSize) m m ∧
        ∀ i < t, softmaxValue ops (x.tile b) (nextPowerOf2 x.vocabSize) m (x.element b i) ≠
          softmaxValue ops (x.tile b) (nextPowerOf2 x.vocabSize) m m) := by
    intro m t hmax ht
    rw [argmax_probs_eq_iff tl hn hmax (ht.trans_le hvocab), tile_of_lt ht]
    refine and_congr_right fun _ => forall₂_congr fun i hi => ?_
    rw [tile_of_lt (hi.trans ht)]
  constructor
  · intro hfirst
    cases hmax : x.tileMax b with
    | bot =>
      rw [isFirstIndex_of_bot hmax, probs_nan hmax] at hfirst
      exact Or.inl ⟨hmax, hfirst⟩
    | coe m => exact Or.inr ⟨m, _, hmax, hfirst, (hlane hmax hfirst.lt).mp rfl⟩
  · rintro (⟨hmax, hzero⟩ | ⟨m, t, hmax, hfirst, hvalues⟩)
    · rw [isFirstIndex_of_bot hmax, probs_nan hmax, hzero]
    · rwa [(hlane hmax hfirst.lt).mpr hvalues]

end LogitsMatrix

open LogitsMatrix

section Exact
variable {x : LogitsMatrix} {tl : Argmax} {b : ℕ}

/-- Without rounding, different logits have different softmax. -/
theorem softmaxValue_exact {tile : ℕ → WithBot ℝ} {n : ℕ} (hn : 0 < n) {m : ℝ}
    (hmax : (range n).sup tile = m) :
    StrictMono (softmaxValue SoftmaxOps.exact tile n m) := fun _ _ hxy =>
  div_lt_div_of_pos_right (mul_lt_mul_of_pos_left (weight_strictMono hxy) (Real.exp_pos _))
    (sum_expSub_pos hn hmax)

theorem tile_of_ge {i : ℕ} (hi : x.vocabSize ≤ i) : x.tile b i = x.dtype.other := if_neg hi.not_gt

/-- The tile has the logits of the row, and the padding where its length is no power of two. -/
theorem tileMax_le_iff {c : WithBot ℝ} : x.tileMax b ≤ c ↔
    (∀ i < x.vocabSize, x.element b i ≤ c) ∧
      (nextPowerOf2 x.vocabSize = x.vocabSize ∨ x.dtype.other ≤ c) := by
  have hvocab := le_nextPowerOf2 x.vocabSize
  unfold tileMax
  rw [Finset.sup_le_iff]
  constructor
  · intro hle
    refine ⟨fun i hi => ?_, ?_⟩
    · rw [← tile_of_lt hi]
      exact hle i (mem_range.mpr (hi.trans_le hvocab))
    · rcases hvocab.eq_or_lt with heq | hlt
      · exact Or.inl heq.symm
      · right
        rw [← tile_of_ge le_rfl]
        exact hle x.vocabSize (mem_range.mpr hlt)
  · rintro ⟨hrow, hpadding⟩ i hi
    rw [mem_range] at hi
    by_cases hlt : i < x.vocabSize
    · rw [tile_of_lt hlt]
      exact hrow i hlt
    · rw [tile_of_ge (not_lt.mp hlt)]
      exact hpadding.resolve_left (by omega)

theorem tileMax_eq_bot_iff : x.tileMax b = ⊥ ↔ (∀ i < x.vocabSize, x.element b i = ⊥) ∧
    (nextPowerOf2 x.vocabSize = x.vocabSize ∨ x.dtype = .float16) := by
  have hother : x.dtype.other = ⊥ ↔ x.dtype = .float16 := by
    cases x.dtype with
    | float16 => exact iff_of_true rfl rfl
    | float32 => exact iff_of_false WithBot.coe_ne_bot nofun
  rw [← le_bot_iff, tileMax_le_iff]
  simp only [le_bot_iff, hother]

/-- The row attains the maximum of its tile when the padding is not above it. -/
theorem exists_eq_tileMax_iff :
    (∃ i < x.vocabSize, x.element b i ≠ ⊥ ∧ x.element b i = x.tileMax b) ↔
      ∃ i < x.vocabSize, x.element b i ≠ ⊥ ∧
        (nextPowerOf2 x.vocabSize = x.vocabSize ∨ x.dtype.other ≤ x.element b i) := by
  constructor
  · rintro ⟨i, hi, hfinite, heq⟩
    exact ⟨i, hi, hfinite, heq ▸ (tileMax_le_iff.mp le_rfl).2⟩
  · rintro ⟨i, hi, hfinite, hpadding⟩
    obtain ⟨t, ht⟩ := exists_isFirstIndex (x.element b) x.vocab_pos
    have hbest := ht.greatest i hi
    refine ⟨t, ht.lt, ((bot_lt_iff_ne_bot.mpr hfinite).trans_le hbest).ne', ?_⟩
    exact le_antisymm (le_tileMax ht.lt)
      (tileMax_le_iff.mpr ⟨ht.greatest, hpadding.imp_right fun h => h.trans hbest⟩)

/-- Without rounding, a row is separated when it is selectable. -/
theorem separated_exact_iff : x.Separated .exact tl b ↔ x.Selectable tl b := by
  have hn := nextPowerOf2_pos x.vocabSize
  unfold Separated Selectable
  rw [tileMax_eq_bot_iff, ← exists_eq_tileMax_iff, or_comm, and_assoc]
  refine or_congr_left ⟨?_, ?_⟩
  · rintro ⟨m, t, hmax, hfirst, hvalue, -⟩
    have heq := (softmaxValue_exact hn hmax).injective hvalue
    refine ⟨t, hfirst.lt, ?_, heq.trans hmax.symm⟩
    rw [heq]
    exact WithBot.coe_ne_bot
  · rintro ⟨i, hi, hfinite, heq⟩
    obtain ⟨m, hm⟩ := WithBot.ne_bot_iff_exists.mp hfinite
    have hmax : x.tileMax b = m := heq.symm.trans hm.symm
    obtain ⟨t, hfirst⟩ := exists_isFirstIndex (x.element b) x.vocab_pos
    have ht : x.element b t = m := by
      refine le_antisymm (hmax ▸ le_tileMax hfirst.lt) ?_
      rw [hm]
      exact hfirst.greatest i hi
    refine ⟨m, t, hmax, hfirst, by rw [ht], fun j hj => ?_⟩
    have hlt := hfirst.first j hj
    rw [ht] at hlt
    exact ((softmaxValue_exact hn hmax) hlt).ne

/-- Without rounding, a float32 row of nothing but `-inf` gives the first padding lane, if there is
padding. -/
theorem masked_row_out_of_range (hmasked : ∀ i < x.vocabSize, x.element b i = ⊥)
    (hdtype : x.dtype = .float32) (hpadded : x.vocabSize < nextPowerOf2 x.vocabSize) :
    tl.argmax (nextPowerOf2 x.vocabSize) (probs .exact (x.tile b) (nextPowerOf2 x.vocabSize)) =
      x.vocabSize := by
  have hrow : ∀ j < x.vocabSize, x.tile b j = ⊥ := fun j hj => by rw [tile_of_lt hj, hmasked j hj]
  have hlane : ∀ j, x.vocabSize ≤ j → x.tile b j = ((-1000000000 : ℝ) : WithBot ℝ) := by
    intro j hj
    rw [tile_of_ge hj, hdtype]
    rfl
  have hmax : (range (nextPowerOf2 x.vocabSize)).sup (x.tile b) =
      ((-1000000000 : ℝ) : WithBot ℝ) := by
    refine le_antisymm (Finset.sup_le fun j _ => ?_) ?_
    · rcases Nat.lt_or_ge j x.vocabSize with hj | hj
      · rw [hrow j hj]
        exact bot_le
      · exact (hlane j hj).le
    · rw [← hlane x.vocabSize le_rfl]
      exact le_sup (mem_range.mpr hpadded)
  have hn := nextPowerOf2_pos x.vocabSize
  rw [argmax_probs_eq_iff tl hn hmax hpadded, hlane x.vocabSize le_rfl]
  refine ⟨rfl, fun i hi => ?_⟩
  rw [hrow i hi]
  exact ((softmaxValue_exact hn hmax) (WithBot.bot_lt_coe _)).ne

end Exact

theorem greedyAgree_iff {x : LogitsMatrix} {ops : SoftmaxOps} {tl : Argmax} {sMemFloats : ℕ}
    {topK : ℤ} {topP u : ℝ} {b : ℕ} (hb : b < x.batchSize) (hrow : x.RowFits b) :
    x.GreedyAgree ops tl sMemFloats topK topP u b ↔
      x.TritonLaunches ∧ 256 ≤ sMemFloats ∧ x.Separated ops tl b := by
  have hget {t : ℕ} :
      (∃ tokens, fusedSamplingTriton ops tl x.toLogitsTensor 0 = .ok tokens ∧
          tokens[b]? = some t) ↔
        x.TritonLaunches ∧ tl.argmax (nextPowerOf2 x.vocabSize)
          (probs ops (x.tile b) (nextPowerOf2 x.vocabSize)) = t :=
    fusedSamplingTriton_get hb hrow
  constructor
  · rintro ⟨tokens, t, hcuda, htriton, htoken, hfirst⟩
    obtain ⟨hlaunch, rfl⟩ := hget.mp ⟨tokens, htriton, htoken⟩
    obtain ⟨hmem, -⟩ := (fusedSamplingKernel_eq_some hb).mp hcuda
    exact ⟨hlaunch, hmem, argmax_isFirstIndex_iff.mp hfirst⟩
  · rintro ⟨hlaunch, hmem, hseparated⟩
    have hfirst := argmax_isFirstIndex_iff.mpr hseparated
    obtain ⟨tokens, htriton, htoken⟩ := hget.mpr ⟨hlaunch, rfl⟩
    exact ⟨tokens, _, (fusedSamplingKernel_eq_some hb).mpr ⟨hmem, hfirst⟩, htriton, htoken, hfirst⟩

/-- Where the offsets of a row are 32-bit integers, the two backends give it its first greatest
logit exactly when the Triton kernel compiles and launches, the shared memory of the CUDA launch has
a float for each of the 256 threads and the row is selectable; with rounding, when it is
separated. -/
theorem greedy_agree_iff (x : LogitsMatrix) (ops : SoftmaxOps) (tl : Argmax) (sMemFloats : ℕ)
    (topK : ℤ) (topP u : ℝ) (b : Fin x.batchSize) (hrow : x.RowFits b) :
    (x.GreedyAgree .exact tl sMemFloats topK topP u b ↔
      x.TritonLaunches ∧ 256 ≤ sMemFloats ∧ x.Selectable tl b) ∧
    (x.GreedyAgree ops tl sMemFloats topK topP u b ↔
      x.TritonLaunches ∧ 256 ≤ sMemFloats ∧ x.Separated ops tl b) := by
  refine ⟨?_, greedyAgree_iff b.isLt hrow⟩
  rw [greedyAgree_iff b.isLt hrow, separated_exact_iff]

/-- `tl.argmax` by the first greatest lane. -/
noncomputable def leftmostArgmax : Argmax where
  argmax n x := sInf {i | IsFirstIndex (fun j => (x j).toReal) n i}
  isFirstIndex _ x hn := Nat.sInf_mem (exists_isFirstIndex x hn)

def maskedRow : LogitsMatrix where
  batchSize := 1
  vocabSize := 3
  dtype := .float32
  strideLb := 3
  strideLv := 1
  data := fun _ => ⊥
  vocab_pos := Nat.succ_pos 2
  logit := fun _ _ _ _ => Or.inl rfl

/-- The Triton kernel gives a token behind the vocabulary. -/
theorem masked_row_disagrees : ¬ maskedRow.GreedyAgree .exact leftmostArgmax 256 1 1 1 0 := by
  have hfits : maskedRow.RowFits 0 := by
    unfold LogitsMatrix.RowFits maskedRow
    decide
  rintro ⟨tokens, t, -, htriton, htoken, hfirst⟩
  have hpadded : 3 < nextPowerOf2 3 := by decide
  obtain ⟨-, hargmax⟩ :=
    (fusedSamplingTriton_get Nat.one_pos hfits).mp ⟨tokens, htriton, htoken⟩
  rw [masked_row_out_of_range (fun _ _ => rfl) rfl hpadded] at hargmax
  exact absurd hfirst.lt (by rw [← hargmax]; exact lt_irrefl _)

def maskedFirst : LogitsMatrix where
  batchSize := 2
  vocabSize := 2
  dtype := .float16
  strideLb := 2
  strideLv := 1
  data := fun o => if o % 2 = 0 then ⊥ else 0
  vocab_pos := Nat.two_pos
  logit := by
    intro b hb i hi
    dsimp only [LogitsTensor.element]
    split_ifs
    · exact Or.inl rfl
    · exact Or.inr (WithBot.coe_lt_coe.mpr (by norm_num [FLT_MAX]))

theorem greedy_agree_iff_maskedFirst :
    maskedFirst.GreedyAgree .exact leftmostArgmax 256 1 1 1 1 := by
  have hfits : maskedFirst.RowFits 1 := by
    unfold LogitsMatrix.RowFits maskedFirst
    decide
  have hselectable : maskedFirst.Selectable leftmostArgmax 1 :=
    Or.inl ⟨1, Nat.one_lt_two, by simp [maskedFirst, LogitsTensor.element], Or.inl (by decide)⟩
  have hlaunch : maskedFirst.TritonLaunches := by
    constructor
    · show nextPowerOf2 2 ≤ 1048576
      decide
    · show 2 < 2147483648 ∧ 1 < 65536 ∧ 1 < 65536
      decide
  exact (greedy_agree_iff maskedFirst .exact leftmostArgmax 256 1 1 1
    ⟨1, Nat.one_lt_two⟩ hfits).1.mpr ⟨hlaunch, le_rfl, hselectable⟩

end CudaForge.Kernels.Triton
