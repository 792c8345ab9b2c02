import Mathlib.Algebra.BigOperators.Group.Finset.Basic
import Mathlib.Tactic

/-!
Sums over the lanes of a group by exchanges: in each round, every lane adds the value of the lane
whose number differs in one bit.
-/
namespace Butterfly
open Finset
variable {α : Type*} [AddCommMonoid α]

def exchange (mask : ℕ) (val : ℕ → α) : ℕ → α := fun lane => val lane + val (lane ^^^ mask)

def reduce : ℕ → (ℕ → α) → ℕ → α
  | 0, val => val
  | n + 1, val => reduce n (exchange (2 ^ n) val)

theorem xor_two_pow {m n : ℕ} (hm : m < 2 ^ n) : m ^^^ 2 ^ n = 2 ^ n + m := by
  apply Nat.eq_of_testBit_eq
  intro b
  rw [Nat.testBit_xor, Nat.testBit_two_pow]
  rcases lt_trichotomy b n with hlt | rfl | hgt
  · rw [Nat.testBit_two_pow_add_gt hlt, decide_eq_false hlt.ne', Bool.xor_false]
  · rw [Nat.testBit_two_pow_add_eq, decide_eq_true rfl, Bool.xor_true]
  · have hsum : 2 ^ n + m < 2 ^ b :=
      calc 2 ^ n + m < 2 ^ n + 2 ^ n := Nat.add_lt_add_left hm _
        _ = 2 ^ (n + 1) := by rw [pow_succ, mul_two]
        _ ≤ 2 ^ b := Nat.pow_le_pow_right two_pos hgt
    rw [Nat.testBit_lt_two_pow hsum,
      Nat.testBit_lt_two_pow (hm.trans (Nat.pow_lt_pow_right one_lt_two hgt)),
      decide_eq_false hgt.ne, Bool.xor_false]

/-- After the rounds a lane holds the values of all lanes that differ from it in these bits. -/
theorem reduce_apply (n : ℕ) (val : ℕ → α) (lane : ℕ) :
    reduce n val lane = ∑ m ∈ range (2 ^ n), val (lane ^^^ m) := by
  induction n generalizing val with
  | zero => rw [reduce, pow_zero, sum_range_one, Nat.xor_zero]
  | succ n ih =>
    have hhigh : ∀ m ∈ range (2 ^ n), val (lane ^^^ m ^^^ 2 ^ n) = val (lane ^^^ (2 ^ n + m)) := by
      intro m hm
      rw [Nat.xor_assoc, xor_two_pow (mem_range.mp hm)]
    rw [reduce, ih]
    unfold exchange
    rw [sum_add_distrib, sum_congr rfl hhigh, pow_succ, mul_two, sum_range_add]

/-- Lane 0 holds the sum over the group. -/
theorem reduce_zero (n : ℕ) (val : ℕ → α) : reduce n val 0 = ∑ m ∈ range (2 ^ n), val m := by
  rw [reduce_apply]
  simp only [Nat.zero_xor]

end Butterfly
