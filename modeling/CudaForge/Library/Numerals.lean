import Mathlib.Data.Nat.Cast.Defs

/-!
A numeral such as `2 : ℝ` carries a proof that it is at least two. Instance search makes this proof
a lemma of each definition with the numeral. Where the namespace is open, definitions of different
modules name one and the same instance instead, and unfold to the same terms.
-/
namespace Numerals

scoped instance two : Nat.AtLeastTwo 2 := inferInstance

scoped instance three : Nat.AtLeastTwo 3 := inferInstance

scoped instance four : Nat.AtLeastTwo 4 := inferInstance

scoped instance ten : Nat.AtLeastTwo 10 := inferInstance

scoped instance hundredThousand : Nat.AtLeastTwo 100000 := inferInstance

scoped instance two_ne_zero : @NeZero ℕ Zero.ofOfNat0 2 := inferInstance

end Numerals
