import Mathlib.Algebra.Order.Ring.Int

/-!
Two's complement integers of 32 or 64 bits. An operation works in the wider of the widths of its
operands and wraps around there.
-/
namespace PromotedIntegers

def Fits32 (x : ℤ) : Prop := -2147483648 ≤ x ∧ x < 2147483648

instance (x : ℤ) : Decidable (Fits32 x) := inferInstanceAs (Decidable (_ ∧ _))

def wrap (wide : Bool) (x : ℤ) : ℤ :=
  if wide then x.bmod 18446744073709551616 else x.bmod 4294967296

structure PromotedInt where
  wide : Bool
  toInt : ℤ

namespace PromotedInt

def int32 (x : ℤ) : PromotedInt := ⟨false, wrap false x⟩

def ofInt (x : ℤ) : PromotedInt := ⟨!decide (Fits32 x), wrap (!decide (Fits32 x)) x⟩

instance : Add PromotedInt where
  add a b := ⟨a.wide || b.wide, wrap (a.wide || b.wide) (a.toInt + b.toInt)⟩

instance : Mul PromotedInt where
  mul a b := ⟨a.wide || b.wide, wrap (a.wide || b.wide) (a.toInt * b.toInt)⟩

end PromotedInt

open PromotedInt

variable {x y : ℤ} {a b : PromotedInt}

theorem fits32_natCast {n : ℕ} (h : n < 2147483648) : Fits32 n := ⟨by omega, by omega⟩

theorem wrap_eq (wide : Bool) (h : Fits32 x) : wrap wide x = x := by
  obtain ⟨hlow, hhigh⟩ := h
  unfold wrap
  split_ifs
  · exact Int.bmod_eq_of_le_mul_two (by omega) (by omega)
  · exact Int.bmod_eq_of_le_mul_two (by omega) (by omega)

theorem toInt_int32 (h : Fits32 x) : (int32 x).toInt = x := wrap_eq false h

theorem toInt_ofInt (hlow : -9223372036854775808 ≤ x) (hhigh : x < 9223372036854775808) :
    (ofInt x).toInt = x := by
  by_cases hfits : Fits32 x
  · exact wrap_eq _ hfits
  · show wrap (!decide (Fits32 x)) x = x
    rw [decide_eq_false hfits]
    exact Int.bmod_eq_of_le_mul_two (by omega) (by omega)

/-- A sum that fits is exact, in either width. -/
theorem toInt_add (h : Fits32 (a.toInt + b.toInt)) : (a + b).toInt = a.toInt + b.toInt :=
  wrap_eq _ h

theorem toInt_mul (h : Fits32 (a.toInt * b.toInt)) : (a * b).toInt = a.toInt * b.toInt :=
  wrap_eq _ h

/-- A product that fits is exact: its second factor fits as well, or the first is 0. -/
theorem toInt_int32_mul_ofInt (hx : Fits32 x) (h : Fits32 (x * y)) :
    (int32 x * ofInt y).toInt = x * y := by
  have hx' := toInt_int32 hx
  rcases eq_or_ne x 0 with rfl | hne
  · have hzero : (int32 0).toInt * (ofInt y).toInt = 0 * y := by rw [hx', zero_mul, zero_mul]
    rw [toInt_mul (hzero ▸ h), hzero]
  · have hle : y.natAbs ≤ (x * y).natAbs := by
      rw [Int.natAbs_mul]
      exact Nat.le_mul_of_pos_left _ (Int.natAbs_pos.mpr hne)
    obtain ⟨hlow, hhigh⟩ := h
    have hprod : (int32 x).toInt * (ofInt y).toInt = x * y := by
      rw [hx', toInt_ofInt (by omega) (by omega)]
    rw [toInt_mul (hprod ▸ ⟨hlow, hhigh⟩), hprod]

end PromotedIntegers
