/-!
# Arithmetic of words in terms of bits

Sums and differences of words modulo a power of two, through the bitwise
operations on them.
-/

namespace LlvmPasses.Words

/-- A sum is what comes without the carries, and the carries one place up. -/
theorem nat_xor_add_two_mul_and (a b : Nat) : (a ^^^ b) + 2 * (a &&& b) = a + b := by
  induction a using Nat.strongRecOn generalizing b with
  | ind a ih =>
      by_cases ha : a = 0
      · subst ha
        rw [Nat.zero_xor, Nat.zero_and, Nat.mul_zero, Nat.zero_add, Nat.add_zero]
      · have hhalf := ih (a / 2) (by omega) (b / 2)
        have hxor : (a ^^^ b) % 2 = 1 ↔ ¬ (a % 2 = 1 ↔ b % 2 = 1) := Nat.xor_mod_two_eq_one
        have hand : (a &&& b) % 2 = 1 ↔ a % 2 = 1 ∧ b % 2 = 1 := Nat.and_mod_two_eq_one
        rw [← Nat.xor_div_two, ← Nat.and_div_two] at hhalf
        omega

variable {w : Nat} (x y : BitVec w)

theorem xor_add_two_mul_and : (x ^^^ y) + 2#w * (x &&& y) = x + y := by
  apply BitVec.eq_of_toNat_eq
  have hsum := nat_xor_add_two_mul_and x.toNat y.toNat
  rw [BitVec.toNat_add, BitVec.toNat_mul, BitVec.toNat_xor, BitVec.toNat_and, BitVec.toNat_ofNat,
    BitVec.toNat_add, ← hsum, Nat.mod_mul_mod, Nat.add_mod_mod]

/-- Subtracting is adding the complement and one. -/
theorem add_not_add_one : x + (y ^^^ BitVec.allOnes w) + 1#w = x - y := by
  rw [BitVec.xor_allOnes, BitVec.add_assoc, ← BitVec.neg_eq_not_add, BitVec.sub_eq_add_neg]

/-- Two affine maps that undo each other. -/
theorem affine_affine {a b c d : BitVec w} (hmul : a * c = 1#w) (hadd : b * c + d = 0#w) :
    (x * a + b) * c + d = x := by
  rw [BitVec.add_mul, BitVec.mul_assoc, hmul, BitVec.mul_one, BitVec.add_assoc, hadd,
    BitVec.add_zero]

end LlvmPasses.Words
