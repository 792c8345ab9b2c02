import CudaForge.Kernels.FlashAttnTriton
import CudaForge.Library.TiledLoop

/-! The rows the Triton kernel stores, against softmax attention. -/
namespace CudaForge.Kernels.Triton
open OnlineSoftmax OnlineSoftmax.Number Finset PromotedIntegers TiledLoop

namespace KernelArgs
variable (a : KernelArgs) (p : ProgramId)

noncomputable def weightSum (i : Fin a.blockM) (n : ℕ) : ℝ := ∑ c ∈ range n, weight (a.qk p i c)

noncomputable def valueSum (i : Fin a.blockM) (n : ℕ) (d : Fin a.blockDModel) : ℝ :=
  ∑ c ∈ range n, weight (a.qk p i c) * a.v.load a.nCtx p.offZ p.offH c d

variable {a p}

/-- Column 0 is masked in no row. -/
theorem qk_zero (i : Fin a.blockM) : a.qk p i 0 ≠ ⊥ := by
  unfold qk
  rw [if_neg (by simp)]
  exact WithBot.coe_ne_bot

theorem weight_qk_zero_pos (i : Fin a.blockM) : 0 < weight (a.qk p i 0) := by
  obtain ⟨s, hs⟩ := WithBot.ne_bot_iff_exists.mp (qk_zero (p := p) i)
  rw [← hs, weight_coe]
  exact Real.exp_pos s

theorem weightSum_pos (i : Fin a.blockM) {n : ℕ} (hn : 0 < n) : 0 < a.weightSum p i n := by
  have hle := single_le_sum (f := fun c => weight (a.qk p i c)) (fun c _ => weight_nonneg _)
    (mem_range.mpr hn)
  exact (weight_qk_zero_pos i).trans_le hle

/-- After `t` tiles the registers of a row summarise its first `t * BLOCK_N` columns. -/
def RowSummaries (a : KernelArgs) (p : ProgramId) (t : ℕ)
    (st : Accumulators a.blockM a.blockDModel) : Prop :=
  ∀ i, Summary (st.mI i) (st.lI i) (st.acc i) (a.weightSum p i (t * a.blockN))
    (a.valueSum p i (t * a.blockN))

theorem rowSummaries_start : a.RowSummaries p 0 a.start := by
  intro i
  have hw : a.weightSum p i (0 * a.blockN) = 0 := by simp [weightSum]
  have hv : a.valueSum p i (0 * a.blockN) = fun _ => 0 := by
    funext d
    simp [valueSum]
  rw [hw, hv]
  exact Summary.start

/-- The running maximum is a real number from the first tile on: no `-inf - -inf`. -/
theorem running_max_ne_bot {t : ℕ} {st : Accumulators a.blockM a.blockDModel} (hB : 0 < a.blockN)
    (h : a.RowSummaries p t st) (i : Fin a.blockM) :
    max (st.mI i) (univ.sup fun n : Fin a.blockN => a.qk p i (t * a.blockN + n)) ≠ ⊥ := by
  intro hbot
  obtain ⟨hm, hs⟩ := max_eq_bot.mp hbot
  rcases Nat.eq_zero_or_pos t with rfl | ht
  · have hle := Finset.le_sup (f := fun n : Fin a.blockN => a.qk p i (0 * a.blockN + n))
      (mem_univ ⟨0, hB⟩)
    rw [hs, zero_mul] at hle
    exact qk_zero i (le_bot_iff.mp hle)
  · have hzero := ((h i).unstarted hm).1
    have hpos := weightSum_pos (p := p) i (Nat.mul_pos ht hB)
    linarith

theorem rowSummaries_tileStep {t : ℕ} {st : Accumulators a.blockM a.blockDModel}
    (hB : 0 < a.blockN) (h : a.RowSummaries p t st) :
    a.RowSummaries p (t + 1) (a.tileStep p st (t * a.blockN)) := by
  intro i
  obtain ⟨m', hm'⟩ := WithBot.ne_bot_iff_exists.mp (running_max_ne_bot hB h i)
  have habsorb := (h i).absorb (fun n : Fin a.blockN => a.qk p i (t * a.blockN + n))
    (fun n d => a.v.load a.nCtx p.offZ p.offH (t * a.blockN + n) d) m'
  rw [hm'] at habsorb
  unfold weightSum valueSum
  simp only [sum_range_tile]
  exact habsorb

theorem rowSummaries_loop (hB : 0 < a.blockN) :
    a.RowSummaries p (a.tileCount p) (a.loop p) :=
  foldl_tiles _ (a.RowSummaries p) _ rowSummaries_start (fun _ _ => rowSummaries_tileStep hB) _

/-- The tiles cover the columns up to `end_n`. -/
theorem endN_le_tiles (hB : 0 < a.blockN) : a.endN p ≤ (a.tileCount p * a.blockN : ℕ) := by
  have hB' : (0 : ℤ) < a.blockN := by exact_mod_cast hB
  have hdiv := Int.lt_ediv_add_one_mul_self (a.endN p + a.blockN - 1) hB'
  have hcount : (a.endN p + a.blockN - 1) / a.blockN ≤ a.tileCount p := Int.self_le_toNat _
  have hmul := mul_le_mul_of_nonneg_right hcount hB'.le
  push_cast
  linarith

/-- What a program stores in a row is the average over all columns of its tiles. -/
theorem loop_average (hB : 0 < a.blockN) (hend : 0 < a.endN p) (i : Fin a.blockM)
    (d : Fin a.blockDModel) :
    (a.loop p).acc i d / (a.loop p).lI i =
      real (a.valueSum p i (a.tileCount p * a.blockN) d /
        a.weightSum p i (a.tileCount p * a.blockN)) := by
  have hcovered : 0 < a.tileCount p * a.blockN := by
    have hle := hend.trans_le (endN_le_tiles hB)
    exact_mod_cast hle
  have hpos := weightSum_pos (p := p) i hcovered
  exact (rowSummaries_loop hB i).average hpos.ne' d

/-- The stores of a program, lane by lane. -/
theorem stores_eq : a.stores p =
    (List.finRange a.blockM ×ˢ List.finRange a.blockDModel).flatMap fun lane =>
      if a.offsM p lane.1 < a.nCtx then
        [(a.out.ptrs p.offZ p.offH (a.offsM p lane.1) lane.2,
          (a.loop p).acc lane.1 lane.2 / (a.loop p).lI lane.1)]
      else [] := rfl

theorem mem_stores {s : ℤ × Number} :
    s ∈ a.stores p ↔ ∃ i, ∃ d : Fin a.blockDModel, a.offsM p i < a.nCtx ∧
      s = (a.out.ptrs p.offZ p.offH (a.offsM p i) d, (a.loop p).acc i d / (a.loop p).lI i) := by
  rw [stores_eq, mem_maskedStores]
  simp only [Prod.exists, List.mem_product, List.mem_finRange, true_and]

/-- A program whose elements have offsets of their own stores each of them once. -/
theorem stores_filter {i : Fin a.blockM} {d : Fin a.blockDModel} (hi : a.offsM p i < a.nCtx)
    (hown : ∀ j, ∀ e : Fin a.blockDModel, a.offsM p j < a.nCtx →
      a.out.ptrs p.offZ p.offH (a.offsM p j) e =
      a.out.ptrs p.offZ p.offH (a.offsM p i) d → j = i ∧ e = d) :
    (a.stores p).filter (·.1 = a.out.ptrs p.offZ p.offH (a.offsM p i) d) =
      [(a.out.ptrs p.offZ p.offH (a.offsM p i) d, (a.loop p).acc i d / (a.loop p).lI i)] := by
  have hlanes : (List.finRange a.blockM ×ˢ List.finRange a.blockDModel).Nodup :=
    (List.nodup_finRange _).product (List.nodup_finRange _)
  have hlane : (i, d) ∈ List.finRange a.blockM ×ˢ List.finRange a.blockDModel :=
    List.mem_product.mpr ⟨List.mem_finRange i, List.mem_finRange d⟩
  rw [stores_eq]
  apply maskedStores_filter hlanes hlane
  · exact hi
  · rfl
  · rintro ⟨j, e⟩ - hj hhit
    obtain ⟨rfl, rfl⟩ := hown j e hj hhit
    rfl

end KernelArgs

section Attention
variable {Z H N_CTX D_HEAD : ℕ}

/-- `s_mj = sm_scale * <q_m, k_j>`. -/
noncomputable def score (q k : Tensor) (D_HEAD : ℕ) (smScale : ℝ) (z h m j : ℕ) : ℝ :=
  smScale * ∑ d : Fin D_HEAD, q.element z h m d * k.element z h j d

noncomputable def numerator (q k v : Tensor) (D_HEAD : ℕ) (smScale : ℝ) (z h m n d : ℕ) : ℝ :=
  ∑ j ∈ range n, Real.exp (score q k D_HEAD smScale z h m j) * v.element z h j d

noncomputable def denominator (q k : Tensor) (D_HEAD : ℕ) (smScale : ℝ) (z h m n : ℕ) : ℝ :=
  ∑ j ∈ range n, Real.exp (score q k D_HEAD smScale z h m j)

noncomputable def softmaxAttention (q k v : Tensor) (D_HEAD : ℕ) (smScale : ℝ)
    (z h m n d : ℕ) : ℝ :=
  numerator q k v D_HEAD smScale z h m n d / denominator q k D_HEAD smScale z h m n

/-- The launch stores each element of row `m` exactly once, with the value of softmax attention
over the keys the row attends to. -/
def StoresSoftmax (fitsDevice : Bool) (q k v : Tensor) (out : EmptyTensor Z H N_CTX D_HEAD)
    (causal : Bool) (smScale : Option ℝ) (z : Fin Z) (h : Fin H) (m : Fin N_CTX) : Prop :=
  ∃ stores, flashAttnTriton fitsDevice q k v out causal smScale = .ok stores ∧ ∀ d : Fin D_HEAD,
    stores.filter (·.1 = out.offset z h m d) =
      [(out.offset z h m d, real (softmaxAttention q k v D_HEAD (scaleOf D_HEAD smScale) z h m
        (if causal then m + 1 else N_CTX) d))]

/-- The kernel compiles, and the device takes it and its grid. -/
def Launches (fitsDevice : Bool) (Z H N_CTX D_HEAD : ℕ) : Prop :=
  HeadDimCompiles D_HEAD ∧ fitsDevice = true ∧ GridFits (cdiv N_CTX 64) H Z

/-- The scaled indices, and the sums that are added to a pointer at once, are 32-bit integers. -/
structure Strides.Fits (s : Strides) (Z H N_CTX D_HEAD : ℕ) : Prop where
  batch : ∀ z < Z, Fits32 (z * s.b)
  head : ∀ h < H, Fits32 (h * s.h)
  row : ∀ n < N_CTX, Fits32 (n * s.n)
  dim : ∀ d < D_HEAD, Fits32 (d * s.d)
  sum : ∀ n < N_CTX, ∀ d < D_HEAD, Fits32 (n * s.n + d * s.d)

structure OffsetsFit (q k v : Tensor) (out : EmptyTensor Z H N_CTX D_HEAD) : Prop where
  nCtx : N_CTX + 63 < 2147483648
  q : q.Fits Z H N_CTX D_HEAD
  k : k.Fits Z H N_CTX D_HEAD
  v : v.Fits Z H N_CTX D_HEAD
  out : out.Fits Z H N_CTX D_HEAD

/-- Every element has its exact offset. -/
structure Addressed (q k v : Tensor) (out : EmptyTensor Z H N_CTX D_HEAD) : Prop
    extends OffsetsFit q k v out where
  batches : Z < 65536
  heads : H < 65536
  dims : D_HEAD < 65536

variable (q k v : Tensor) (out : EmptyTensor Z H N_CTX D_HEAD) (causal : Bool)
  (smScale : Option ℝ)

variable {q k v out} in
theorem OffsetsFit.addressed {fitsDevice : Bool} (hfits : OffsetsFit q k v out)
    (hlaunch : Launches fitsDevice Z H N_CTX D_HEAD) : Addressed q k v out := by
  obtain ⟨⟨-, -, hnumel⟩, -, -, hheads, hbatches⟩ := hlaunch
  unfold maxTensorNumel at hnumel
  exact ⟨hfits, hbatches, hheads, by omega⟩

variable {q k v out} in
theorem Addressed.ptrs_eq (hadd : Addressed q k v out) {s : Strides} (hs : s.Fits Z H N_CTX D_HEAD)
    {z h n d : ℕ} (hz : z < Z) (hh : h < H) (hn : n < N_CTX) (hd : d < D_HEAD) :
    s.ptrs z h n d = s.offset z h n d := by
  have hbatches := hadd.batches
  have hheads := hadd.heads
  have hnCtx := hadd.nCtx
  have hdims := hadd.dims
  have hrow := scaled_toInt (by omega) (hs.row n hn)
  have hdim := scaled_toInt (by omega) (hs.dim d hd)
  have hsum := hs.sum n hn d hd
  rw [← hrow, ← hdim] at hsum
  rw [Strides.ptrs, scaled_toInt (by omega) (hs.batch z hz), scaled_toInt (by omega) (hs.head h hh),
    toInt_add hsum, hrow, hdim]
  rfl

def programOf (z : Fin Z) (h : Fin H) (m : Fin N_CTX) : ProgramId := ⟨m / 64, h, z⟩

def tileRow (m : Fin N_CTX) : Fin 64 := ⟨m % 64, Nat.mod_lt _ (by decide)⟩

theorem mem_grid {p : ProgramId} {n : ℕ} :
    p ∈ grid n H Z ↔ p.startM < n ∧ p.offH < H ∧ p.offZ < Z := by
  unfold grid
  simp only [List.mem_map, List.mem_product, List.mem_range, Prod.exists]
  constructor
  · rintro ⟨m, h, z, hb, rfl⟩
    exact hb
  · intro hb
    exact ⟨p.startM, p.offH, p.offZ, hb, rfl⟩

theorem grid_nodup (n : ℕ) : (grid n H Z).Nodup := by
  apply List.Nodup.map
  · rintro ⟨m, h, z⟩ ⟨m', h', z'⟩ heq
    simp only [ProgramId.mk.injEq] at heq
    simp [heq]
  · exact List.nodup_range.product (List.nodup_range.product List.nodup_range)

theorem programOf_mem_grid (z : Fin Z) (h : Fin H) (m : Fin N_CTX) :
    programOf z h m ∈ grid (cdiv N_CTX 64) H Z := by
  apply mem_grid.mpr
  have hm := m.isLt
  have hlt : (m : ℕ) / 64 < cdiv N_CTX 64 := by
    unfold cdiv
    omega
  exact ⟨hlt, h.isLt, z.isLt⟩

theorem offsM_programOf (z : Fin Z) (h : Fin H) (m : Fin N_CTX) :
    (kernelArgs q k v out causal smScale).offsM (programOf z h m) (tileRow m) = m := by
  show (m : ℕ) / 64 * 64 + (m : ℕ) % 64 = m
  omega

variable {q k v out} (hadd : Addressed q k v out)
include hadd

/-- A store of a program of the grid hits an element of the tensor only for that element's own
program, tile row and dimension. -/
theorem store_unique {p : ProgramId} {i : Fin 64} {d e : Fin D_HEAD} {z : Fin Z} {h : Fin H}
    {m : Fin N_CTX} (hp : p ∈ grid (cdiv N_CTX 64) H Z) (hi : p.startM * 64 + i < N_CTX)
    (ho : out.ptrs p.offZ p.offH (p.startM * 64 + i) e = out.offset z h m d) :
    p = programOf z h m ∧ i = tileRow m ∧ e = d := by
  obtain ⟨-, hh, hz⟩ := mem_grid.mp hp
  rw [hadd.ptrs_eq hadd.out hz hh hi e.isLt] at ho
  have heq : ((⟨p.offZ, hz⟩, ⟨p.offH, hh⟩, ⟨p.startM * 64 + i, hi⟩, e) :
      Fin Z × Fin H × Fin N_CTX × Fin D_HEAD) = (z, h, m, d) := out.distinct ho
  simp only [Prod.mk.injEq] at heq
  obtain ⟨rfl, rfl, rfl, rfl⟩ := heq
  have hi64 := i.isLt
  have hdiv : (p.startM * 64 + i) / 64 = p.startM := by omega
  have hmod : (p.startM * 64 + i) % 64 = i := by omega
  refine ⟨?_, Fin.ext hmod.symm, rfl⟩
  unfold programOf
  simp only [hdiv]

/-- Each element of the returned tensor is stored by one program, once. -/
theorem stores_of_element (z : Fin Z) (h : Fin H) (m : Fin N_CTX) (d : Fin D_HEAD) :
    ((grid (cdiv N_CTX 64) H Z).flatMap (kernelArgs q k v out causal smScale).stores).filter
        (·.1 = out.offset z h m d) =
      [(out.offset z h m d,
        ((kernelArgs q k v out causal smScale).loop (programOf z h m)).acc (tileRow m) d /
          ((kernelArgs q k v out causal smScale).loop (programOf z h m)).lI (tileRow m))] := by
  have hptr : out.ptrs z h m d = out.offset z h m d :=
    hadd.ptrs_eq hadd.out z.isLt h.isLt m.isLt d.isLt
  rw [flatMap_filter_unique (grid_nodup _) (programOf_mem_grid z h m)]
  · have hm := offsM_programOf q k v out causal smScale z h m
    have hfilter := KernelArgs.stores_filter (a := kernelArgs q k v out causal smScale)
      (p := programOf z h m) (i := tileRow m) (d := d) (hm.trans_lt m.isLt)
      fun j e hj he => (store_unique hadd (programOf_mem_grid z h m) hj
        (he.trans (by rw [hm]; exact hptr))).2
    rw [hm] at hfilter
    rw [← hptr]
    exact hfilter
  · intro p hp hne
    apply List.filter_eq_nil_iff.mpr
    intro s hs ho
    obtain ⟨i, e, hi, rfl⟩ := KernelArgs.mem_stores.mp hs
    exact hne (store_unique hadd hp hi (of_decide_eq_true ho)).1

variable {x : Tensor} (hx : x.Fits Z H N_CTX D_HEAD) {row : ℕ}

include hx in
theorem load_of_lt (hrow : row < N_CTX) (z : Fin Z) (h : Fin H) (d : Fin D_HEAD) :
    x.load N_CTX z h row d = x.element z h row d := by
  rw [Tensor.load, if_pos hrow, hadd.ptrs_eq hx z.isLt h.isLt hrow d.isLt]
  rfl

omit hadd in
theorem load_of_le (hrow : N_CTX ≤ row) (z h d : ℕ) : x.load N_CTX z h row d = 0 :=
  if_neg hrow.not_gt

variable (q k v out) in
noncomputable def rowScore (z : Fin Z) (h : Fin H) (m : Fin N_CTX) (c : ℕ) : WithBot ℝ :=
  (kernelArgs q k v out causal smScale).qk (programOf z h m) (tileRow m) c

theorem rowScore_eq (z : Fin Z) (h : Fin H) (m : Fin N_CTX) (c : ℕ) :
    rowScore q k v out causal smScale z h m c =
      if causal && decide (↑m < c) then ⊥
      else ((∑ d : Fin D_HEAD, q.element z h m d * scaleOf D_HEAD smScale *
        k.load N_CTX z h c d : ℝ) : WithBot ℝ) := by
  unfold rowScore KernelArgs.qk KernelArgs.qTile
  rw [offsM_programOf]
  show (if causal && decide (↑m < c) then _ else
    ((∑ d : Fin D_HEAD, q.load N_CTX z h m d * scaleOf D_HEAD smScale * k.load N_CTX z h c d : ℝ) :
      WithBot ℝ)) = _
  simp only [load_of_lt hadd hadd.q m.isLt]

/-- A key that the row attends to has its softmax score. -/
theorem rowScore_key (z : Fin Z) (h : Fin H) (m : Fin N_CTX) {c : ℕ} (hc : c < N_CTX)
    (hcm : causal = true → c ≤ m) :
    rowScore q k v out causal smScale z h m c =
      (score q k D_HEAD (scaleOf D_HEAD smScale) z h m c : ℝ) := by
  rw [rowScore_eq causal smScale hadd, if_neg]
  · congr 1
    unfold score
    rw [mul_sum]
    apply sum_congr rfl
    intro d _
    rw [load_of_lt hadd hadd.k hc]
    ring
  · cases causal with
    | false => simp
    | true => simpa using hcm rfl

/-- A later key of a causal row has weight 0. -/
theorem rowScore_masked (z : Fin Z) (h : Fin H) (m : Fin N_CTX) {c : ℕ} (hc : ↑m < c) :
    rowScore q k v out true smScale z h m c = ⊥ := by
  rw [rowScore_eq true smScale hadd, if_pos (by simpa using hc)]

/-- A padding column of a row without mask has score 0. -/
theorem rowScore_padding (z : Fin Z) (h : Fin H) (m : Fin N_CTX) {c : ℕ} (hc : N_CTX ≤ c) :
    rowScore q k v out false smScale z h m c = (0 : ℝ) := by
  rw [rowScore_eq false smScale hadd, if_neg (by simp)]
  simp only [load_of_le hc, mul_zero, sum_const_zero]

def columns (causal : Bool) (N_CTX m : ℕ) : ℕ :=
  ((if causal then min N_CTX ((m / 64 + 1) * 64) else N_CTX) + 63) / 64 * 64

theorem endN_programOf (z : Fin Z) (h : Fin H) (m : Fin N_CTX) :
    (kernelArgs q k v out causal smScale).endN (programOf z h m) =
      (if causal then min N_CTX (((m : ℕ) / 64 + 1) * 64) else N_CTX : ℕ) := by
  show (if causal then min (N_CTX : ℤ) (scaled ((m : ℕ) / 64 + 1) (64 : ℕ)).toInt else N_CTX) = _
  have hm := m.isLt
  have hnCtx := hadd.nCtx
  have hend : Fits32 (((m : ℕ) / 64 + 1 : ℕ) * (64 : ℕ)) := ⟨by omega, by omega⟩
  rw [scaled_toInt (by omega) hend]
  split_ifs <;> push_cast <;> rfl

theorem tileCount_programOf (z : Fin Z) (h : Fin H) (m : Fin N_CTX) :
    (kernelArgs q k v out causal smScale).tileCount (programOf z h m) * 64 =
      columns causal N_CTX m := by
  unfold KernelArgs.tileCount columns
  rw [endN_programOf causal smScale hadd]
  show (((_ : ℕ) + (64 : ℕ) - 1 : ℤ) / (64 : ℕ)).toNat * 64 = _
  generalize (if causal then min N_CTX (((m : ℕ) / 64 + 1) * 64) else N_CTX) = n
  omega

theorem stores_average (z : Fin Z) (h : Fin H) (m : Fin N_CTX) (d : Fin D_HEAD) :
    ((grid (cdiv N_CTX 64) H Z).flatMap (kernelArgs q k v out causal smScale).stores).filter
        (·.1 = out.offset z h m d) =
      [(out.offset z h m d, real
        ((∑ c ∈ range (columns causal N_CTX m),
            weight (rowScore q k v out causal smScale z h m c) * v.load N_CTX z h c d) /
          ∑ c ∈ range (columns causal N_CTX m),
            weight (rowScore q k v out causal smScale z h m c)))] := by
  rw [stores_of_element causal smScale hadd, ← tileCount_programOf causal smScale hadd z h m]
  have hend : 0 < (kernelArgs q k v out causal smScale).endN (programOf z h m) := by
    rw [endN_programOf causal smScale hadd]
    have hm := m.isLt
    split_ifs <;> omega
  have haverage := KernelArgs.loop_average (a := kernelArgs q k v out causal smScale)
    (p := programOf z h m) (by decide : 0 < 64) hend (tileRow m) d
  exact congrArg (fun x => [(out.offset z h m d, x)]) haverage

omit hadd in
/-- The tiles of a causal program reach past the diagonal of each of its rows. -/
theorem lt_columns_causal {m : ℕ} (hm : m < N_CTX) : m < columns true N_CTX m := by
  unfold columns
  simp only [↓reduceIte]
  omega

theorem causal_weight_sum (z : Fin Z) (h : Fin H) (m : Fin N_CTX) (f : ℕ → ℝ) :
    ∑ c ∈ range (columns true N_CTX m),
        weight (rowScore q k v out true smScale z h m c) * f c =
      ∑ j ∈ range (m + 1),
        Real.exp (score q k D_HEAD (scaleOf D_HEAD smScale) z h m j) * f j := by
  have hm := m.isLt
  have hsub : range (m + 1) ⊆ range (columns true N_CTX m) :=
    range_subset_range.mpr (lt_columns_causal hm)
  rw [← sum_subset hsub]
  · apply sum_congr rfl
    intro j hj
    have hjm : j < m + 1 := mem_range.mp hj
    rw [rowScore_key true smScale hadd z h m (by omega) fun _ => by omega, weight_coe]
  · intro c _ hc
    have hmc : ↑m < c := by
      have hnot : ¬ c < m + 1 := fun hlt => hc (mem_range.mpr hlt)
      omega
    rw [rowScore_masked smScale hadd z h m hmc, weight_bot, zero_mul]

/-- The causal programs store each element of a row once, with softmax attention over the row's
past. -/
theorem causal_stores (z : Fin Z) (h : Fin H) (m : Fin N_CTX) (d : Fin D_HEAD) :
    ((grid (cdiv N_CTX 64) H Z).flatMap (kernelArgs q k v out true smScale).stores).filter
        (·.1 = out.offset z h m d) =
      [(out.offset z h m d,
        real (softmaxAttention q k v D_HEAD (scaleOf D_HEAD smScale) z h m (m + 1) d))] := by
  have hnum := causal_weight_sum smScale hadd z h m fun c => v.load N_CTX z h c d
  have hden := causal_weight_sum smScale hadd z h m fun _ => 1
  simp only [mul_one] at hden
  rw [stores_average true smScale hadd, hnum, hden]
  unfold softmaxAttention numerator denominator
  have hload : ∀ j ∈ range (m + 1), v.load N_CTX z h j d = v.element z h j d := by
    intro j hj
    have hm := m.isLt
    have hjm : j < m + 1 := mem_range.mp hj
    exact load_of_lt hadd hadd.v (by omega) z h d
  rw [sum_congr rfl fun j hj => congrArg (_ * ·) (hload j hj)]

def padding (N_CTX : ℕ) : ℕ := cdiv N_CTX 64 * 64 - N_CTX

omit hadd in
theorem columns_noncausal (N_CTX m : ℕ) : columns false N_CTX m = N_CTX + padding N_CTX := by
  unfold columns padding cdiv
  simp only [Bool.false_eq_true, ↓reduceIte]
  omega

omit hadd in
theorem padding_eq_zero_iff (N_CTX : ℕ) : padding N_CTX = 0 ↔ 64 ∣ N_CTX := by
  unfold padding cdiv
  omega

theorem noncausal_weight_sum (z : Fin Z) (h : Fin H) (m : Fin N_CTX) (f : ℕ → ℝ) :
    ∑ c ∈ range (columns false N_CTX m),
        weight (rowScore q k v out false smScale z h m c) * f c =
      ∑ j ∈ range N_CTX, Real.exp (score q k D_HEAD (scaleOf D_HEAD smScale) z h m j) * f j +
        ∑ c ∈ range (padding N_CTX), f (N_CTX + c) := by
  rw [columns_noncausal, sum_range_add]
  congr 1
  · apply sum_congr rfl
    intro j hj
    rw [rowScore_key false smScale hadd z h m (mem_range.mp hj) nofun, weight_coe]
  · apply sum_congr rfl
    intro c _
    rw [rowScore_padding smScale hadd z h m (Nat.le_add_right _ _), weight_coe, Real.exp_zero,
      one_mul]

/-- Without the mask each padding column adds 1 to the normaliser and nothing to the accumulator. -/
theorem noncausal_stores (z : Fin Z) (h : Fin H) (m : Fin N_CTX) (d : Fin D_HEAD) :
    ((grid (cdiv N_CTX 64) H Z).flatMap (kernelArgs q k v out false smScale).stores).filter
        (·.1 = out.offset z h m d) =
      [(out.offset z h m d,
        real (numerator q k v D_HEAD (scaleOf D_HEAD smScale) z h m N_CTX d /
          (denominator q k D_HEAD (scaleOf D_HEAD smScale) z h m N_CTX + padding N_CTX)))] := by
  have hnum := noncausal_weight_sum smScale hadd z h m fun c => v.load N_CTX z h c d
  have hden := noncausal_weight_sum smScale hadd z h m fun _ => 1
  simp only [mul_one, sum_const, card_range, nsmul_eq_mul] at hden
  have hpad : ∑ c ∈ range (padding N_CTX), v.load N_CTX z h (N_CTX + c) d = 0 :=
    sum_eq_zero fun c _ => load_of_le (Nat.le_add_right _ _) z h d
  rw [stores_average false smScale hadd, hnum, hden, hpad, add_zero]
  unfold numerator denominator
  rw [sum_congr rfl fun j hj => congrArg (_ * ·) (load_of_lt hadd hadd.v (mem_range.mp hj) z h d)]

omit hadd

theorem denominator_pos (q k : Tensor) (smScale : ℝ) (z h m : ℕ) {n : ℕ} (hn : 0 < n) :
    0 < denominator q k D_HEAD smScale z h m n :=
  sum_pos (fun _ _ => Real.exp_pos _) (nonempty_range_iff.mpr hn.ne')

theorem div_add_eq_div_iff {x y e : ℝ} (hy : 0 < y) (he : 0 ≤ e) :
    x / (y + e) = x / y ↔ e = 0 ∨ x = 0 := by
  have hye : y + e ≠ 0 := by positivity
  rw [div_eq_div_iff hye hy.ne']
  constructor
  · intro heq
    have hprod : e * x = 0 := by linarith
    exact mul_eq_zero.mp hprod
  · rintro (rfl | rfl) <;> ring

/-- A call stores softmax attention exactly when it launches and its programs do. -/
theorem storesSoftmax_iff (fitsDevice : Bool) (z : Fin Z) (h : Fin H) (m : Fin N_CTX) :
    StoresSoftmax fitsDevice q k v out causal smScale z h m ↔
      Launches fitsDevice Z H N_CTX D_HEAD ∧ ∀ d : Fin D_HEAD,
        ((grid (cdiv N_CTX 64) H Z).flatMap (kernelArgs q k v out causal smScale).stores).filter
            (·.1 = out.offset z h m d) =
          [(out.offset z h m d, real (softmaxAttention q k v D_HEAD (scaleOf D_HEAD smScale) z h m
            (if causal then m + 1 else N_CTX) d))] := by
  have hprograms : cdiv N_CTX 64 * H * Z ≠ 0 := by
    have hm := m.isLt
    have hrows : 0 < cdiv N_CTX 64 := by
      unfold cdiv
      omega
    exact (Nat.mul_pos (Nat.mul_pos hrows h.pos) z.pos).ne'
  unfold StoresSoftmax flashAttnTriton Launches
  constructor
  · rintro ⟨stores, hcall, hstores⟩
    split_ifs at hcall with hcompiles hdevice
    obtain ⟨hgrid, rfl⟩ := (launchGrid_eq_ok hprograms).mp hcall
    exact ⟨⟨hcompiles, hdevice, hgrid⟩, hstores⟩
  · rintro ⟨⟨hcompiles, hdevice, hgrid⟩, hstores⟩
    refine ⟨_, ?_, hstores⟩
    rw [if_neg (not_not.mpr hcompiles), if_neg (not_not.mpr hdevice)]
    exact (launchGrid_eq_ok hprograms).mpr ⟨hgrid, rfl⟩

/-- The causal kernel stores every row once, and stores softmax attention over the row's past: in
every call that launches. -/
theorem causal_storesSoftmax (fitsDevice : Bool) (hfits : OffsetsFit q k v out) (z : Fin Z)
    (h : Fin H) (m : Fin N_CTX) :
    StoresSoftmax fitsDevice q k v out true smScale z h m ↔
      Launches fitsDevice Z H N_CTX D_HEAD := by
  rw [storesSoftmax_iff]
  constructor
  · exact And.left
  · intro hlaunch
    exact ⟨hlaunch, causal_stores smScale (hfits.addressed hlaunch) z h m⟩

/-- Without the mask a row is softmax attention exactly when the call launches and the last tile has
no padding or the row's weighted sums of values are all 0. -/
theorem noncausal_storesSoftmax_iff (fitsDevice : Bool) (hfits : OffsetsFit q k v out) (z : Fin Z)
    (h : Fin H) (m : Fin N_CTX) :
    StoresSoftmax fitsDevice q k v out false smScale z h m ↔
      Launches fitsDevice Z H N_CTX D_HEAD ∧ (64 ∣ N_CTX ∨
        ∀ d : Fin D_HEAD, numerator q k v D_HEAD (scaleOf D_HEAD smScale) z h m N_CTX d = 0) := by
  have hpos : 0 < denominator q k D_HEAD (scaleOf D_HEAD smScale) z h m N_CTX :=
    denominator_pos q k _ z h m (Nat.zero_lt_of_lt m.isLt)
  rw [storesSoftmax_iff]
  refine and_congr_right fun hlaunch => ?_
  unfold softmaxAttention
  simp only [noncausal_stores smScale (hfits.addressed hlaunch), Bool.false_eq_true, ↓reduceIte,
    List.cons.injEq, Prod.mk.injEq, real.injEq, true_and, and_true,
    div_add_eq_div_iff hpos (Nat.cast_nonneg _), Nat.cast_eq_zero, padding_eq_zero_iff]
  exact forall_or_left

def contiguous (H N_CTX D_HEAD : ℕ) : Strides :=
  ⟨(H * (N_CTX * D_HEAD) : ℕ), (N_CTX * D_HEAD : ℕ), D_HEAD, 1⟩

/-- The offsets of contiguous tensors fit while their elements can be counted in 32 bits. -/
theorem contiguous_fits (hbatches : 0 < Z) (hheads : 0 < H) (hrows : 0 < N_CTX)
    (hsize : Z * (H * (N_CTX * D_HEAD)) < 2147483648) :
    (contiguous H N_CTX D_HEAD).Fits Z H N_CTX D_HEAD := by
  have hle : ∀ {i n : ℕ} (size : ℕ), i < n → i * size + size ≤ n * size := fun size hi =>
    (Nat.succ_mul _ size).symm.trans_le (Nat.mul_le_mul_right size hi)
  have hbatch := hle (H * (N_CTX * D_HEAD)) hbatches
  have hhead := hle (N_CTX * D_HEAD) hheads
  have hrow := hle D_HEAD hrows
  unfold contiguous
  constructor
  · intro z hz
    have hz := hle (H * (N_CTX * D_HEAD)) hz
    exact_mod_cast fits32_natCast (n := z * (H * (N_CTX * D_HEAD))) (by omega)
  · intro h hh
    have hh := hle (N_CTX * D_HEAD) hh
    exact_mod_cast fits32_natCast (n := h * (N_CTX * D_HEAD)) (by omega)
  · intro n hn
    have hn := hle D_HEAD hn
    exact_mod_cast fits32_natCast (n := n * D_HEAD) (by omega)
  · intro d hd
    rw [mul_one]
    exact fits32_natCast (by omega)
  · intro n hn d hd
    have hn := hle D_HEAD hn
    rw [mul_one]
    exact_mod_cast fits32_natCast (n := n * D_HEAD + d) (by omega)

def contiguousOut (Z H N_CTX D_HEAD : ℕ) : EmptyTensor Z H N_CTX D_HEAD where
  toStrides := contiguous H N_CTX D_HEAD
  distinct := by
    rintro ⟨z, h, n, d⟩ ⟨z', h', n', d'⟩ heq
    have hoffset : (d + D_HEAD * n + N_CTX * D_HEAD * h + H * (N_CTX * D_HEAD) * z : ℕ) =
        d' + D_HEAD * n' + N_CTX * D_HEAD * h' + H * (N_CTX * D_HEAD) * z' := by
      zify
      unfold Strides.offset contiguous at heq
      push_cast at heq
      linarith
    let index (z : Fin Z) (h : Fin H) (n : Fin N_CTX) (d : Fin D_HEAD) :=
      finProdFinEquiv (z, finProdFinEquiv (h, finProdFinEquiv (n, d)))
    have hindex : index z h n d = index z' h' n' d' := Fin.ext hoffset
    simpa [index] using hindex

def constant (H N_CTX D_HEAD : ℕ) (x : ℝ) : Tensor := ⟨contiguous H N_CTX D_HEAD, fun _ => x⟩

theorem constant_fits (hbatches : 0 < Z) (hheads : 0 < H) (hrows : 0 < N_CTX)
    (hsize : Z * (H * (N_CTX * D_HEAD)) < 2147483648) (hnCtx : N_CTX + 63 < 2147483648)
    (x y w : ℝ) :
    OffsetsFit (constant H N_CTX D_HEAD x) (constant H N_CTX D_HEAD y) (constant H N_CTX D_HEAD w)
      (contiguousOut Z H N_CTX D_HEAD) :=
  have hfits := contiguous_fits hbatches hheads hrows hsize
  ⟨hnCtx, hfits, hfits, hfits, hfits⟩

/-- The last tile of three rows is padded. -/
theorem causal_storesSoftmax_threeRows :
    StoresSoftmax true (constant 1 3 16 0) (constant 1 3 16 0) (constant 1 3 16 1)
      (contiguousOut 1 1 3 16) true none 0 0 2 :=
  (causal_storesSoftmax none true
    (constant_fits one_pos one_pos (by decide) (by decide) (by decide) 0 0 1) 0 0 2).mpr
    ⟨by decide, rfl, by decide⟩

/-- Of three batches with `2 ^ 30` elements, the kernel computes no offset in the last one. -/
theorem wrapped_ptrs_lt {z h n d : ℕ} (hz : z < 3) (hh : h < 64) (hn : n < 131072) (hd : d < 128) :
    (contiguous 64 131072 128).ptrs z h n d < 2147483648 := by
  have hbatch : (scaled z (contiguous 64 131072 128).b).toInt ≤ 1073741824 := by
    interval_cases z <;> decide
  have hhead : (scaled h (131072 * 128 : ℕ)).toInt = h * (131072 * 128 : ℕ) :=
    scaled_toInt (by omega) ⟨by omega, by omega⟩
  have hrow : (scaled n (128 : ℕ)).toInt = n * (128 : ℕ) :=
    scaled_toInt (by omega) ⟨by omega, by omega⟩
  have hdim : (scaled d 1).toInt = d * 1 := scaled_toInt (by omega) ⟨by omega, by omega⟩
  have hsum : (scaled n (128 : ℕ) + scaled d 1).toInt = n * (128 : ℕ) + d * 1 := by
    rw [← hrow, ← hdim]
    exact toInt_add (by rw [hrow, hdim]; constructor <;> omega)
  unfold Strides.ptrs
  show _ + (scaled h (131072 * 128 : ℕ)).toInt + (scaled n (128 : ℕ) + scaled d 1).toInt < _
  rw [hhead, hsum]
  omega

/-- A call with a head dimension of 24, which `tl.arange` does not take, and a call with more than
`2 ^ 31` elements, whose third batch the launch does not store where it is. -/
theorem causal_not_softmax :
    ¬ StoresSoftmax true (constant 1 1 24 0) (constant 1 1 24 0) (constant 1 1 24 1)
        (contiguousOut 1 1 1 24) true none 0 0 0 ∧
      ¬ StoresSoftmax true (constant 64 131072 128 0) (constant 64 131072 128 0)
        (constant 64 131072 128 1) (contiguousOut 3 64 131072 128) true none 2 0 0 := by
  constructor
  · rw [storesSoftmax_iff]
    rintro ⟨⟨hcompiles, -⟩, -⟩
    exact absurd hcompiles (by decide)
  · rw [storesSoftmax_iff]
    rintro ⟨-, hstores⟩
    have hfirst := hstores 0
    have hmem := List.mem_filter.mp (hfirst ▸ List.mem_singleton_self _)
    obtain ⟨p, hp, hstore⟩ := List.mem_flatMap.mp hmem.1
    obtain ⟨i, d, hi, heq⟩ := KernelArgs.mem_stores.mp hstore
    obtain ⟨-, hh, hz⟩ := mem_grid.mp hp
    have hlt := wrapped_ptrs_lt hz hh hi d.isLt
    exact hlt.ne (congrArg Prod.fst heq).symm

theorem noncausal_storesSoftmax_wholeTile :
    StoresSoftmax true (constant 1 64 16 0) (constant 1 64 16 0) (constant 1 64 16 1)
      (contiguousOut 1 1 64 16) false none 0 0 63 :=
  (noncausal_storesSoftmax_iff none true
    (constant_fits one_pos one_pos (by decide) (by decide) (by decide) 0 0 1) 0 0 63).mpr
    ⟨⟨by decide, rfl, by decide⟩, .inl (by decide)⟩

/-- A sequence of length 1 should return its value; 63 padding columns divide it by 64. -/
theorem single_token_not_softmax :
    ¬ StoresSoftmax true (constant 1 1 16 0) (constant 1 1 16 0) (constant 1 1 16 1)
      (contiguousOut 1 1 1 16) false none 0 0 0 := by
  intro hstores
  obtain ⟨-, hstores⟩ := (storesSoftmax_iff ..).mp hstores
  have hlaunch : Launches true 1 1 1 16 := ⟨by decide, rfl, by decide⟩
  have hadd := (constant_fits one_pos one_pos one_pos (by decide) (by decide) 0 0 1).addressed
    hlaunch
  have h := hstores 0
  rw [noncausal_stores none hadd] at h
  unfold softmaxAttention numerator denominator score padding cdiv at h
  simp [constant, Tensor.element] at h

end Attention
end CudaForge.Kernels.Triton
