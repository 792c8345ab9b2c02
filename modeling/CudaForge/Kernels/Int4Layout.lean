import CudaForge.Library.NibbleWord

/-!
The packed weights of the INT4 kernels: eight weights of a column, consecutive along `K`, in each
32-bit word.
-/
namespace CudaForge.Kernels.Int4
open NibbleWord

/-- The element type of `b_quant`, which decides what `>>` means in Triton. -/
inductive WordType where
  | int32
  | uint32
  deriving DecidableEq, Repr

def WordType.shiftRight : WordType → BitVec 32 → ℕ → BitVec 32
  | int32, word, shift => word.sshiftRight shift
  | uint32, word, shift => word >>> shift

/-- `pack_int4_weights` on a `[K, N]` tensor; `none` when the assertion on `K` fails. -/
def packInt4Weights (K : ℕ) (wInt4 : ℕ → ℕ → ℤ) : Option (ℕ → ℕ → BitVec 32) :=
  let masked := fun k n => BitVec.ofInt 32 (wInt4 k n) &&& 0x0F#32
  if K % 8 = 0 then
    some fun r n =>
      (List.range 8).foldl (fun packed i => packed ||| (masked (i + 8 * r) n <<< (i * 4))) 0#32
  else none

def tritonUnpack (wordType : WordType) (bPacked : BitVec 32) (k : ℕ) : BitVec 32 :=
  let shift := (k % 8) * 4
  wordType.shiftRight bPacked shift &&& 0x0F#32

def cudaUnpack (packedVal : BitVec 32) (k : ℕ) : BitVec 32 :=
  let nibbleShift := (k % 8) * 4
  (packedVal >>> nibbleShift) &&& 0x0F#32

section Decoders
variable {word : BitVec 32} {k : ℕ}

theorem cudaUnpack_eq : cudaUnpack word k = nibble word (k % 8) := by
  rw [cudaUnpack, nibble, Nat.mul_comm 4]

/-- The shift of a signed word brings its sign into no field. -/
theorem tritonUnpack_eq (wordType : WordType) :
    tritonUnpack wordType word k = nibble word (k % 8) := by
  rw [tritonUnpack]
  cases wordType with
  | int32 =>
    rw [WordType.shiftRight, Nat.mul_comm (k % 8)]
    exact sshiftRight_and_fifteen _ (by omega)
  | uint32 => rw [WordType.shiftRight, Nat.mul_comm (k % 8), nibble]

end Decoders

section RoundTrip
variable {K N : ℕ} {wInt4 : ℕ → ℕ → ℤ} {packed words : ℕ → ℕ → BitVec 32}

/-- A packed word is the weights of its eight rows, cut to four bits. -/
theorem packed_eq (h : packInt4Weights K wInt4 = some packed) (r n : ℕ) :
    packed r n = orNibbles 8 fun i => BitVec.ofInt 32 (wInt4 (i + 8 * r) n) := by
  unfold packInt4Weights at h
  dsimp only at h
  split_ifs at h
  rw [← Option.some.inj h, orNibbles]
  simp only [Nat.mul_comm 4]

/-- The field of row `k` in its word. -/
theorem nibble_packed (h : packInt4Weights K wInt4 = some packed) (k n : ℕ) :
    nibble (packed (k / 8) n) (k % 8) = BitVec.ofInt 32 (wInt4 k n) &&& 0x0F#32 := by
  rw [packed_eq h, nibble_orNibbles _ (Nat.mod_lt k (by norm_num)) (by norm_num),
    Nat.mod_add_div]

/-- A weight of four bits survives the mask. -/
theorem masked_weight {x : ℤ} (hnonneg : 0 ≤ x) (hle : x ≤ 15) :
    ((BitVec.ofInt 32 x &&& 0x0F#32).toNat : ℤ) = x := by
  obtain ⟨v, rfl⟩ := Int.eq_ofNat_of_zero_le hnonneg
  have hv : v ≤ 15 := by omega
  rw [BitVec.ofInt_natCast, BitVec.toNat_and, BitVec.toNat_ofNat, BitVec.toNat_ofNat]
  interval_cases v <;> rfl

/-- Packing fields that were extracted gives the words they come from. -/
theorem packed_of_nibbles
    (h : packInt4Weights K (fun k n => ((nibble (packed (k / 8) n) (k % 8)).toNat : ℤ)) =
      some words) (r n : ℕ) : words r n = packed r n := by
  rw [packed_eq h, ← orNibbles_nibble (n := 8) (packed r n) rfl]
  apply orNibbles_congr
  intro i hi
  have hrow : (i + 8 * r) / 8 = r := by omega
  have hfield : (i + 8 * r) % 8 = i := by omega
  rw [hrow, hfield, BitVec.ofInt_natCast, BitVec.ofNat_toNat, BitVec.setWidth_eq]

/-- Both kernels read the weights that `pack_int4_weights` packs, and packing the weights they read
gives the words back. -/
theorem packInt4Weights_roundTrip (hK : K % 8 = 0) (wordType : WordType) :
    (∀ wInt4 : ℕ → ℕ → ℤ, (∀ k < K, ∀ n < N, 0 ≤ wInt4 k n ∧ wInt4 k n ≤ 15) →
      ∃ packed, packInt4Weights K wInt4 = some packed ∧ ∀ k < K, ∀ n < N,
        ((tritonUnpack wordType (packed (k / 8) n) k).toNat : ℤ) = wInt4 k n ∧
        ((cudaUnpack (packed (k / 8) n) k).toNat : ℤ) = wInt4 k n) ∧
    (∀ packed : ℕ → ℕ → BitVec 32,
      ∃ ofTriton ofCuda,
        packInt4Weights K (fun k n =>
          ((tritonUnpack wordType (packed (k / 8) n) k).toNat : ℤ)) = some ofTriton ∧
        packInt4Weights K (fun k n => ((cudaUnpack (packed (k / 8) n) k).toNat : ℤ)) =
          some ofCuda ∧
        ∀ r < K / 8, ∀ n < N, ofTriton r n = packed r n ∧ ofCuda r n = packed r n) := by
  have hpacks : ∀ w : ℕ → ℕ → ℤ, ∃ packed, packInt4Weights K w = some packed :=
    fun w => ⟨_, if_pos hK⟩
  simp only [tritonUnpack_eq, cudaUnpack_eq]
  constructor
  · intro w hw
    obtain ⟨packed, hpacked⟩ := hpacks w
    refine ⟨packed, hpacked, fun k hk n hn => ?_⟩
    have hread : ((nibble (packed (k / 8) n) (k % 8)).toNat : ℤ) = w k n := by
      rw [nibble_packed hpacked]
      exact masked_weight (hw k hk n hn).1 (hw k hk n hn).2
    exact ⟨hread, hread⟩
  · intro packed
    obtain ⟨words, hwords⟩ := hpacks fun k n => ((nibble (packed (k / 8) n) (k % 8)).toNat : ℤ)
    refine ⟨words, words, hwords, hwords, fun r _ n _ => ?_⟩
    have hback := packed_of_nibbles hwords r n
    exact ⟨hback, hback⟩

/-- The weight of row 15 fills the sign bit of its word. -/
theorem packInt4Weights_roundTrip_signBit :
    ∃ packed, packInt4Weights 16 (fun k _ => (k : ℤ)) = some packed ∧ ∀ k < 16, ∀ n < 1,
      ((tritonUnpack .int32 (packed (k / 8) n) k).toNat : ℤ) = k ∧
      ((cudaUnpack (packed (k / 8) n) k).toNat : ℤ) = k := by
  refine (packInt4Weights_roundTrip (K := 16) (N := 1) (by decide) .int32).1 _ ?_
  intro k hk n _
  omega

end RoundTrip
end CudaForge.Kernels.Int4
