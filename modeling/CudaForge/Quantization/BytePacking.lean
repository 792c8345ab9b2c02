import CudaForge.Library.NibbleWord
import CudaForge.Quantization.Quantizer

/-! Bytes of two INT4 codes, and that matrices of codes and of bytes are packed into each other. -/
namespace CudaForge.Quantization
open NibbleWord Tensor

section OneByte
variable {b : BitVec 8} {lo hi : ℤ}

def packByte (lo hi : ℤ) : BitVec 8 :=
  ((BitVec.ofInt 8 lo + 8#8) &&& 0x0F#8) ||| (((BitVec.ofInt 8 hi + 8#8) &&& 0x0F#8) <<< 4)

def lowCode (b : BitVec 8) : ℤ := ((b &&& 0x0F#8) - 8#8).toInt

def highCode (b : BitVec 8) : ℤ := (((b >>> 4) &&& 0x0F#8) - 8#8).toInt

/-- Neighbours of a row, by the parity of the column. -/
def unpackByte (b : BitVec 8) (n : ℕ) : ℤ := if n % 2 = 0 then lowCode b else highCode b

theorem packByte_eq : packByte lo hi =
    orNibbles 2 fun i => BitVec.ofInt 8 (if i = 0 then lo else hi) + 8#8 := by
  rw [orNibbles_succ, orNibbles_succ, orNibbles, List.range_zero, List.foldl_nil]
  rw [BitVec.zero_or, Nat.mul_zero, BitVec.shiftLeft_zero, if_pos rfl, if_neg one_ne_zero]
  rfl

theorem unpackByte_eq (n : ℕ) : unpackByte b n = (nibble b (n % 2) - 8#8).toInt := by
  unfold unpackByte nibble
  rcases Nat.mod_two_eq_zero_or_one n with hn | hn
  · rw [if_pos hn, hn, Nat.mul_zero, BitVec.ushiftRight_zero]
    rfl
  · rw [if_neg (by omega), hn]
    rfl

theorem code_and_fifteen {x : ℤ} (hlo : -8 ≤ x) (hhi : x ≤ 7) :
    (((BitVec.ofInt 8 x + 8#8) &&& 15#8) - 8#8).toInt = x := by
  interval_cases x <;> rfl

theorem unpackByte_packByte {x : ℤ} {n : ℕ} (hx : x = if n % 2 = 0 then lo else hi)
    (hlo : -8 ≤ x) (hhi : x ≤ 7) : unpackByte (packByte lo hi) n = x := by
  rw [unpackByte_eq, packByte_eq, nibble_orNibbles _ (Nat.mod_lt n two_pos) (by norm_num), ← hx]
  exact code_and_fifteen hlo hhi

theorem packByte_unpackByte {m n : ℕ} (hm : m % 2 = 0) (hn : n % 2 = 1) :
    packByte (unpackByte b m) (unpackByte b n) = b := by
  rw [packByte_eq, unpackByte_eq, unpackByte_eq, hm, hn]
  conv_rhs => rw [← orNibbles_nibble (n := 2) b rfl]
  apply orNibbles_congr
  intro i hi
  interval_cases i
  · rw [if_pos rfl, BitVec.ofInt_toInt, BitVec.sub_add_cancel]
  · rw [if_neg one_ne_zero, BitVec.ofInt_toInt, BitVec.sub_add_cancel]

/-- The code is the field less the offset. -/
theorem unpackByte_eq_sub (b : BitVec 8) (n : ℕ) :
    unpackByte b n = (nibble b (n % 2)).toNat - 8 := by
  have hlt := nibble_lt b (n % 2) (by norm_num)
  rw [unpackByte_eq, BitVec.toInt_sub]
  generalize nibble b (n % 2) = field at hlt
  have hfield : field.toInt = field.toNat := BitVec.toInt_eq_toNat_of_lt (by omega)
  rw [hfield, show (8#8).toInt = 8 from rfl, Int.bmod_eq_of_le (by omega) (by omega)]

theorem unpackByte_mem (b : BitVec 8) (n : ℕ) : -8 ≤ unpackByte b n ∧ unpackByte b n ≤ 7 := by
  have hlt := nibble_lt b (n % 2) (by norm_num)
  rw [unpackByte_eq_sub]
  omega

end OneByte

section Matrices
variable {α : Type*} {M N : ℕ}

theorem everySecond_shape {x : Tensor α} {start : ℕ} (hshape : x.shape = [M, N])
    (heven : N % 2 = 0) (hstart : start ≤ 1) : (everySecond start x).shape = [M, N / 2] := by
  have hhalf : (N + 1 - start) / 2 = N / 2 := by omega
  unfold everySecond
  rw [hshape, ← hhalf]
  rfl

theorem everySecond_element (x : Tensor α) (start m r : ℕ) :
    (everySecond start x).element [m, r] = x.element [m, 2 * r + start] := by
  rw [Nat.add_comm]
  rfl

theorem packCodes_eq (q : Tensor ℤ) : packCodes q =
    ((everySecond 0 q).map fun x => (BitVec.ofInt 8 x + 8#8) &&& 0x0F#8).zipWith (· ||| ·)
      ((everySecond 1 q).map fun x => ((BitVec.ofInt 8 x + 8#8) &&& 0x0F#8) <<< 4) := rfl

/-- The bytes of a matrix of codes, two neighbours each. -/
theorem packCodes_spec {q : Tensor ℤ} (hshape : q.shape = [M, N]) (heven : N % 2 = 0) :
    ∃ packed, packCodes q = some packed ∧ packed.shape = [M, N / 2] ∧
      ∀ m < M, ∀ r < N / 2,
        packed.element [m, r] = packByte (q.element [m, 2 * r]) (q.element [m, 2 * r + 1]) := by
  have hlow := everySecond_shape hshape heven (Nat.zero_le 1)
  have hhigh := everySecond_shape hshape heven le_rfl
  rw [packCodes_eq]
  rw [zipWith_self (show ((everySecond 1 q).map _).shape = ((everySecond 0 q).map _).shape from
    hhigh.trans hlow.symm)]
  refine ⟨_, rfl, hlow, fun m hm r hr => ?_⟩
  have hindex : InShape [M, N / 2] [m, r] := inShape_pair.mpr ⟨m, hm, r, hr, rfl⟩
  have hlowIn : InShape (everySecond 0 q).shape [m, r] := hlow ▸ hindex
  have hhighIn : InShape (everySecond 1 q).shape [m, r] := hhigh ▸ hindex
  dsimp only
  rw [broadcastAt_map, broadcastAt_map, broadcastAt_self hlowIn, broadcastAt_self hhighIn,
    everySecond_element, everySecond_element, packByte, Nat.add_zero]

/-- The codes of a matrix of bytes. -/
theorem unpackCodes_spec {packed : Tensor (BitVec 8)} (hshape : packed.shape = [M, N]) :
    ∃ q, unpackCodes packed = some q ∧ q.shape = [M, N * 2] ∧
      ∀ m n, q.element [m, n] = unpackByte (packed.element [m, n / 2]) n := by
  unfold unpackCodes
  rw [hshape]
  exact ⟨_, rfl, rfl, fun m n => rfl⟩

/-- Codes come back from their bytes. -/
theorem unpackCodes_packCodes {q : Tensor ℤ} (hshape : q.shape = [M, N]) (heven : N % 2 = 0)
    (hrange : ∀ index, InShape [M, N] index → -8 ≤ q.element index ∧ q.element index ≤ 7) :
    ∃ packed q', packCodes q = some packed ∧ packed.shape = [M, N / 2] ∧
      unpackCodes packed = some q' ∧ q'.Same q := by
  obtain ⟨packed, hpack, hpackedShape, hbytes⟩ := packCodes_spec hshape heven
  obtain ⟨q', hunpack, hshape', hcodes⟩ := unpackCodes_spec hpackedShape
  rw [show N / 2 * 2 = N by omega] at hshape'
  refine ⟨packed, q', hpack, hpackedShape, hunpack, hshape'.trans hshape.symm, ?_⟩
  intro index hindex
  obtain ⟨m, hm, n, hn, rfl⟩ := inShape_pair.mp (hshape' ▸ hindex)
  obtain ⟨hlo, hhi⟩ := hrange [m, n] (inShape_pair.mpr ⟨m, hm, n, hn, rfl⟩)
  rw [hcodes, hbytes m hm (n / 2) (by omega)]
  apply unpackByte_packByte _ hlo hhi
  split_ifs with hparity
  · rw [show 2 * (n / 2) = n by omega]
  · rw [show 2 * (n / 2) + 1 = n by omega]

/-- Bytes come back from their codes. -/
theorem packCodes_unpackCodes {packed : Tensor (BitVec 8)} (hshape : packed.shape = [M, N / 2])
    (heven : N % 2 = 0) :
    ∃ q packed', unpackCodes packed = some q ∧ q.shape = [M, N] ∧
      (∀ index, InShape [M, N] index → -8 ≤ q.element index ∧ q.element index ≤ 7) ∧
      packCodes q = some packed' ∧ packed'.Same packed := by
  obtain ⟨q, hunpack, hqShape, hcodes⟩ := unpackCodes_spec hshape
  rw [show N / 2 * 2 = N by omega] at hqShape
  obtain ⟨packed', hpack, hshape', hbytes⟩ := packCodes_spec hqShape heven
  refine ⟨q, packed', hunpack, hqShape, ?_, hpack, hshape'.trans hshape.symm, ?_⟩
  · intro index hindex
    obtain ⟨m, _, n, _, rfl⟩ := inShape_pair.mp hindex
    rw [hcodes]
    exact unpackByte_mem _ n
  · intro index hindex
    obtain ⟨m, hm, r, hr, rfl⟩ := inShape_pair.mp (hshape' ▸ hindex)
    rw [hbytes m hm r hr, hcodes, hcodes, show 2 * r / 2 = r by omega,
      show (2 * r + 1) / 2 = r by omega]
    exact packByte_unpackByte (by omega) (by omega)

/-- Packing and unpacking are inverse to each other, on codes and on bytes. -/
theorem packCodes_bijective (heven : N % 2 = 0) :
    (∀ q : Tensor ℤ, q.shape = [M, N] →
      (∀ index, InShape [M, N] index → -8 ≤ q.element index ∧ q.element index ≤ 7) →
      ∃ packed q', packCodes q = some packed ∧ packed.shape = [M, N / 2] ∧
        unpackCodes packed = some q' ∧ q'.Same q) ∧
    ∀ packed : Tensor (BitVec 8), packed.shape = [M, N / 2] →
      ∃ q packed', unpackCodes packed = some q ∧ q.shape = [M, N] ∧
        (∀ index, InShape [M, N] index → -8 ≤ q.element index ∧ q.element index ≤ 7) ∧
        packCodes q = some packed' ∧ packed'.Same packed := by
  constructor
  · intro q hshape hrange
    exact unpackCodes_packCodes hshape heven hrange
  · intro packed hshape
    exact packCodes_unpackCodes hshape heven

theorem packCodes_bijective_extremes :
    (∃ packed q', packCodes ⟨[1, 2], fun index => if index = [0, 0] then -8 else 7⟩ = some packed ∧
      packed.shape = [1, 1] ∧ unpackCodes packed = some q' ∧
      q'.Same ⟨[1, 2], fun index => if index = [0, 0] then -8 else 7⟩) ∧
    ∃ q packed', unpackCodes ⟨[1, 1], fun _ => 0xF0#8⟩ = some q ∧ q.shape = [1, 2] ∧
      (∀ index, InShape [1, 2] index → -8 ≤ q.element index ∧ q.element index ≤ 7) ∧
      packCodes q = some packed' ∧ packed'.Same ⟨[1, 1], fun _ => 0xF0#8⟩ := by
  obtain ⟨hcodes, hbytes⟩ := packCodes_bijective (M := 1) (N := 2) rfl
  refine ⟨hcodes _ rfl fun index _ => ?_, hbytes _ rfl⟩
  dsimp only
  split_ifs <;> decide

end Matrices
end CudaForge.Quantization
