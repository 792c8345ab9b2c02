import Mathlib.Data.List.Basic
import Mathlib.Tactic

/-! Words of 4-bit fields, the lowest field first. -/
namespace NibbleWord
variable {w : ℕ}

def nibble (word : BitVec w) (i : ℕ) : BitVec w := (word >>> (4 * i)) &&& 15#w

/-- The fields `0 .. n - 1` or-ed into a word, each cut to four bits. -/
def orNibbles (n : ℕ) (f : ℕ → BitVec w) : BitVec w :=
  (List.range n).foldl (fun word i => word ||| ((f i &&& 15#w) <<< (4 * i))) 0#w

theorem getLsbD_fifteen (b : ℕ) : (15#w).getLsbD b = (decide (b < w) && decide (b < 4)) := by
  rw [BitVec.getLsbD_ofNat, show 15 = 2 ^ 4 - 1 from rfl, Nat.testBit_two_pow_sub_one]

theorem getLsbD_nibble (word : BitVec w) (i b : ℕ) :
    (nibble word i).getLsbD b = (word.getLsbD (4 * i + b) && decide (b < 4)) := by
  rw [nibble, BitVec.getLsbD_and, BitVec.getLsbD_ushiftRight, getLsbD_fifteen]
  by_cases hb : b < w
  · simp only [hb, decide_true, Bool.true_and]
  · rw [BitVec.getLsbD_of_ge word (4 * i + b) (by omega), Bool.false_and, Bool.false_and]

theorem orNibbles_succ (n : ℕ) (f : ℕ → BitVec w) :
    orNibbles (n + 1) f = orNibbles n f ||| ((f n &&& 15#w) <<< (4 * n)) := by
  rw [orNibbles, List.range_succ, List.foldl_append]
  rfl

/-- A bit of the word is the bit of the field it lies in. -/
theorem getLsbD_orNibbles (n : ℕ) (f : ℕ → BitVec w) (b : ℕ) :
    (orNibbles n f).getLsbD b =
      (decide (b < w) && decide (b < 4 * n) && (f (b / 4)).getLsbD (b % 4)) := by
  induction n with
  | zero => simp [orNibbles]
  | succ n ih =>
    rw [orNibbles_succ, BitVec.getLsbD_or, ih, BitVec.getLsbD_shiftLeft, BitVec.getLsbD_and,
      getLsbD_fifteen]
    by_cases hw : b < w
    · by_cases hlow : b < 4 * n
      · simp [hw, hlow, show b < 4 * (n + 1) by omega]
      · by_cases hhigh : b < 4 * (n + 1)
        · obtain ⟨r, rfl⟩ := Nat.exists_eq_add_of_le (not_lt.mp hlow)
          have hdiv : (4 * n + r) / 4 = n := by omega
          have hmod : (4 * n + r) % 4 = r := by omega
          simp [hw, hhigh, hdiv, hmod, show r < w by omega, show r < 4 by omega]
        · simp [hlow, hhigh, show ¬b - 4 * n < 4 by omega]
    · simp [hw]

/-- A field that was or-ed into the word comes back. -/
theorem nibble_orNibbles {n i : ℕ} (f : ℕ → BitVec w) (hi : i < n) (hfit : 4 * n ≤ w) :
    nibble (orNibbles n f) i = f i &&& 15#w := by
  apply BitVec.eq_of_getLsbD_eq
  intro b hb
  rw [getLsbD_nibble, getLsbD_orNibbles, BitVec.getLsbD_and, getLsbD_fifteen]
  by_cases hlow : b < 4
  · have hdiv : (4 * i + b) / 4 = i := by omega
    have hmod : (4 * i + b) % 4 = b := by omega
    simp [hdiv, hmod, hb, hlow, show 4 * i + b < w by omega, show 4 * i + b < 4 * n by omega]
  · simp [hlow]

/-- A word of whole fields is its fields or-ed together. -/
theorem orNibbles_nibble {n : ℕ} (word : BitVec w) (hwhole : w = 4 * n) :
    orNibbles n (nibble word) = word := by
  apply BitVec.eq_of_getLsbD_eq
  intro b hb
  rw [getLsbD_orNibbles, getLsbD_nibble, Nat.div_add_mod]
  simp [hb, show b < 4 * n by omega, show b % 4 < 4 by omega]

/-- Or-ing the fields of a list of words depends on their lowest four bits only. -/
theorem orNibbles_congr {n : ℕ} {f g : ℕ → BitVec w}
    (h : ∀ i < n, f i &&& 15#w = g i &&& 15#w) : orNibbles n f = orNibbles n g := by
  induction n with
  | zero => rfl
  | succ n ih =>
    rw [orNibbles_succ, orNibbles_succ, ih fun i hi => h i (Nat.lt_succ_of_lt hi),
      h n (Nat.lt_succ_self n)]

/-- The arithmetic shift differs from the logical one behind the field only. -/
theorem sshiftRight_and_fifteen (word : BitVec w) {i : ℕ} (hfit : 4 * (i + 1) ≤ w) :
    word.sshiftRight (4 * i) &&& 15#w = nibble word i := by
  apply BitVec.eq_of_getLsbD_eq
  intro b hb
  rw [BitVec.getLsbD_and, getLsbD_nibble, getLsbD_fifteen, BitVec.getLsbD_sshiftRight]
  by_cases hlow : b < 4
  · simp [hlow, hb, show 4 * i + b < w by omega]
  · simp [hlow]

theorem nibble_lt (word : BitVec w) (i : ℕ) (hw : 4 ≤ w) : (nibble word i).toNat < 16 := by
  have hmask : (15#w).toNat = 15 := by
    rw [BitVec.toNat_ofNat]
    exact Nat.mod_eq_of_lt ((by norm_num : 15 < 2 ^ 4).trans_le (Nat.pow_le_pow_right two_pos hw))
  rw [nibble, BitVec.toNat_and, hmask]
  exact Nat.lt_succ_of_le Nat.and_le_right

/-- Four bytes in memory, read as a little-endian word. -/
def wordOfBytes (byte : ℕ → BitVec 8) : BitVec 32 := byte 3 ++ byte 2 ++ byte 1 ++ byte 0

theorem getLsbD_wordOfBytes (byte : ℕ → BitVec 8) {b : ℕ} (hb : b < 32) :
    (wordOfBytes byte).getLsbD b = (byte (b / 8)).getLsbD (b % 8) := by
  have hcases : b / 8 = 0 ∨ b / 8 = 1 ∨ b / 8 = 2 ∨ b / 8 = 3 := by omega
  unfold wordOfBytes
  rw [BitVec.getLsbD_append, BitVec.getLsbD_append, BitVec.getLsbD_append]
  rcases hcases with h | h | h | h
  · rw [if_pos (by omega), h, show b % 8 = b by omega]
  · rw [if_neg (by omega), if_pos (by omega), h, show b % 8 = b - 8 by omega]
  · rw [if_neg (by omega), if_neg (by omega), if_pos (by omega), h, show b % 8 = b - 8 - 8 by omega]
  · rw [if_neg (by omega), if_neg (by omega), if_neg (by omega), h,
      show b % 8 = b - 8 - 8 - 8 by omega]

/-- A field of the word lies in one of its bytes. -/
theorem nibble_wordOfBytes (byte : ℕ → BitVec 8) {i : ℕ} (hi : i < 8) :
    (nibble (wordOfBytes byte) i).toNat = (nibble (byte (i / 2)) (i % 2)).toNat := by
  have hfield : nibble (wordOfBytes byte) i = (nibble (byte (i / 2)) (i % 2)).setWidth 32 := by
    apply BitVec.eq_of_getLsbD_eq
    intro b hb
    rw [BitVec.getLsbD_setWidth, getLsbD_nibble, getLsbD_nibble]
    by_cases hlow : b < 4
    · rw [getLsbD_wordOfBytes byte (by omega), show (4 * i + b) / 8 = i / 2 by omega,
        show (4 * i + b) % 8 = 4 * (i % 2) + b by omega, decide_eq_true hb, Bool.true_and]
    · simp only [hlow, decide_false, Bool.and_false]
  rw [hfield, BitVec.toNat_setWidth_of_le (by norm_num)]

end NibbleWord
