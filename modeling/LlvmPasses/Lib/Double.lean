import Mathlib.Algebra.Group.Nat.Defs

/-!
# Binary64 values as bit patterns

A C `double` is kept as its IEEE-754 bit pattern. Everything that only looks
at a value — whether it is a NaN, how two values compare, the integer a
conversion truncates to — is computed from the bits. The rounding operations
are not: they are gathered in `Arith`, a parameter of whatever executes code,
so that a statement about executions holds for every choice of them.
-/

namespace LlvmPasses

/-- A double, as its 64 bits. -/
structure Double where
  bits : BitVec 64
  deriving DecidableEq, Repr

namespace Double

/-- The bits below the sign: exponent and fraction. -/
def magnitude (d : Double) : Nat := d.bits.toNat % 2 ^ 63

/-- The sign bit. -/
def negative (d : Double) : Bool := d.bits.msb

/-- A NaN is an all-ones exponent with a nonzero fraction. -/
def isNaN (d : Double) : Bool := decide (0x7FF0000000000000 < d.magnitude)

/-- Position on the number line: on non-NaN values the order of the doubles is
the order of these integers, and the two zeros share one position. -/
def key (d : Double) : Int := if d.negative then -(d.magnitude : Int) else d.magnitude

/-- Ordered and equal. -/
def eq (a b : Double) : Bool := !a.isNaN && !b.isNaN && decide (a.key = b.key)

/-- Ordered and less. -/
def lt (a b : Double) : Bool := !a.isNaN && !b.isNaN && decide (a.key < b.key)

/-- Unordered: one of the two is a NaN. -/
def unordered (a b : Double) : Bool := a.isNaN || b.isNaN

/-- An infinity has an all-ones exponent and no fraction. -/
def isInf (d : Double) : Bool := decide (d.magnitude = 0x7FF0000000000000)

/-- Without the sign. -/
def abs (d : Double) : Double := ⟨d.bits &&& 0x7FFFFFFFFFFFFFFF⟩

theorem magnitude_abs (d : Double) : d.abs.magnitude = d.magnitude := by
  have hmask : (0x7FFFFFFFFFFFFFFF : BitVec 64).toNat = 2 ^ 63 - 1 := by decide
  unfold abs magnitude
  rw [BitVec.toNat_and, hmask, Nat.and_two_pow_sub_one_eq_mod, Nat.mod_mod]

theorem isNaN_abs (d : Double) : d.abs.isNaN = d.isNaN := by
  unfold isNaN
  rw [magnitude_abs]

theorem negative_abs (d : Double) : d.abs.negative = false := by
  have hlt : d.abs.bits.toNat < 2 ^ 63 := by
    have hmask : (0x7FFFFFFFFFFFFFFF : BitVec 64).toNat = 2 ^ 63 - 1 := by decide
    unfold abs
    rw [BitVec.toNat_and, hmask, Nat.and_two_pow_sub_one_eq_mod]
    exact Nat.mod_lt _ (Nat.two_pow_pos 63)
  unfold negative
  rw [BitVec.msb_eq_decide]
  exact decide_eq_false (Nat.not_le.mpr hlt)

/-- Masking the sign gives the absolute value. -/
theorem key_abs (d : Double) : d.abs.key = d.key.natAbs := by
  unfold key
  rw [negative_abs, magnitude_abs]
  cases d.negative <;> simp

def zero : Double := ⟨0x0000000000000000⟩

def one : Double := ⟨0x3FF0000000000000⟩

def hundred : Double := ⟨0x4059000000000000⟩

/-- The conversion to an unsigned integer, on nonnegative normal values: the
significand, shifted by the exponent, with the fraction dropped. -/
def truncate (d : Double) : Nat :=
  (d.magnitude % 2 ^ 52 + 2 ^ 52) * 2 ^ (d.magnitude / 2 ^ 52) / 2 ^ 1075

example : truncate ⟨0x401C000000000000⟩ = 7 := by decide +kernel

/-- What is not below one is truncated to a positive number. -/
theorem one_le_truncate {d : Double} (h : d.lt one = false) : 1 ≤ d.truncate := by
  have hmag : 1023 * 2 ^ 52 ≤ d.magnitude := by
    have hone : one.isNaN = false := by decide
    have hkey : one.key = 1023 * 2 ^ 52 := by decide
    cases hd : d.isNaN with
    | true =>
        have hnan : 0x7FF0000000000000 < d.magnitude := by simpa [isNaN] using hd
        omega
    | false =>
        have hle : ¬ d.key < one.key := by simpa [lt, hone, hd] using h
        rw [hkey] at hle
        unfold key at hle
        split at hle <;> omega
  have hexp : 1023 ≤ d.magnitude / 2 ^ 52 :=
    (Nat.le_div_iff_mul_le (by decide)).mpr hmag
  have hpow : ∀ a b : Nat, 2 ^ (a + b) = 2 ^ a * 2 ^ b := Nat.pow_add 2
  unfold truncate
  rw [Nat.le_div_iff_mul_le (Nat.two_pow_pos _), Nat.one_mul, show 1075 = 52 + 1023 from rfl, hpow]
  exact Nat.mul_le_mul (Nat.le_add_left _ _) (Nat.pow_le_pow_right (by decide) hexp)

end Double

/-- The rounding operations, whatever they are on the machine at hand. -/
structure Arith where
  add : Double → Double → Double
  sub : Double → Double → Double
  mul : Double → Double → Double

end LlvmPasses
