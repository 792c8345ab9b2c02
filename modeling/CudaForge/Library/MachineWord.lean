import Mathlib.Algebra.Order.Ring.Nat
import Mathlib.Tactic

/-! Wrap-around arithmetic on unsigned words of `w` bits, held as natural numbers. -/
namespace MachineWord

def add (w a b : ℕ) : ℕ := (a + b) % 2 ^ w

def mul (w a b : ℕ) : ℕ := (a * b) % 2 ^ w

def sub (w a b : ℕ) : ℕ := (a + (2 ^ w - b % 2 ^ w)) % 2 ^ w

def compl (w a : ℕ) : ℕ := 2 ^ w - 1 - a

/-- Left shift by one bit. -/
def shl (w a : ℕ) : ℕ := (2 * a) % 2 ^ w

def ofInt (w : ℕ) (x : ℤ) : ℕ := (x % 2 ^ w).toNat

/-- The two's complement value of an unsigned number's lowest `w` bits. -/
def toSigned (w a : ℕ) : ℤ := Int.bmod a (2 ^ w)

theorem sub_lt (w a b : ℕ) : sub w a b < 2 ^ w := Nat.mod_lt _ (by positivity)

theorem add_le (w a b : ℕ) : add w a b ≤ a + b := Nat.mod_le _ _

theorem add_eq {w a b : ℕ} (h : a + b < 2 ^ w) : add w a b = a + b := Nat.mod_eq_of_lt h

/-- Subtraction is exact when it does not underflow. -/
theorem sub_eq {w a b : ℕ} (hb : b ≤ a) (ha : a < 2 ^ w) : sub w a b = a - b := by
  have hbw : b % 2 ^ w = b := Nat.mod_eq_of_lt (hb.trans_lt ha)
  have hsum : a + (2 ^ w - b) = (a - b) + 2 ^ w := by omega
  rw [sub, hbw, hsum, Nat.add_mod_right]
  exact Nat.mod_eq_of_lt (by omega)

/-- One less than a positive number that may just fail to fit. -/
theorem sub_one_of_le {w a : ℕ} (h₀ : 0 < a) (h : a ≤ 2 ^ w) (hw : 1 < 2 ^ w) :
    sub w (a % 2 ^ w) 1 = a - 1 := by
  rcases h.lt_or_eq with hlt | rfl
  · rw [Nat.mod_eq_of_lt hlt, sub_eq h₀ hlt]
  · rw [Nat.mod_self, sub, Nat.mod_eq_of_lt hw, Nat.zero_add, Nat.mod_eq_of_lt (by omega)]

theorem ofInt_eq {w : ℕ} {x : ℤ} (h₀ : 0 ≤ x) (h : x < 2 ^ w) : (ofInt w x : ℤ) = x := by
  rw [ofInt, Int.emod_eq_of_lt h₀ h, Int.toNat_of_nonneg h₀]

theorem toSigned_eq {w a : ℕ} (h : 2 * a < 2 ^ w) : toSigned w a = a := by
  have hlt : (a : ℤ) * 2 < ((2 ^ w : ℕ) : ℤ) := by
    rw [Nat.mul_comm] at h
    exact_mod_cast h
  exact Int.bmod_eq_of_le_mul_two (by linarith [Int.natCast_nonneg a]) hlt

/-- Clearing the lowest `k` bits rounds down to a multiple of `2 ^ k`. -/
theorem and_compl_mask {w k a : ℕ} (hk : k ≤ w) (ha : a < 2 ^ w) :
    a &&& compl w (2 ^ k - 1) = a / 2 ^ k * 2 ^ k := by
  have hmask : compl w (2 ^ k - 1) = (2 ^ (w - k) - 1) <<< k := by
    have hpow : 2 ^ (w - k) * 2 ^ k = 2 ^ w := by rw [← pow_add, Nat.sub_add_cancel hk]
    have hpos : 0 < 2 ^ k := by positivity
    rw [compl, Nat.shiftLeft_eq, Nat.sub_mul, hpow]
    omega
  refine Nat.eq_of_testBit_eq fun i => ?_
  rw [hmask, Nat.testBit_and, ← Nat.shiftRight_eq_div_pow, ← Nat.shiftLeft_eq,
    Nat.testBit_shiftLeft, Nat.testBit_shiftLeft, Nat.testBit_two_pow_sub_one,
    Nat.testBit_shiftRight]
  by_cases hki : k ≤ i
  · rw [Nat.add_sub_cancel' hki]
    by_cases hiw : i < w
    · simp [hki, show i - k < w - k by omega]
    · have hout : a.testBit i = false :=
        Nat.testBit_lt_two_pow (ha.trans_le (Nat.pow_le_pow_right (by decide) (by omega)))
      simp [hout]
  · simp [hki]

theorem sub_add_cancel {w a b : ℕ} (h : a + b < 2 ^ w) : sub w (a + b) b = a := by
  rw [sub_eq (Nat.le_add_left b a) h, Nat.add_sub_cancel]

end MachineWord
