import Mathlib

/-!
# Reversed bits

The low bits of a number read backwards. Reversal is an involution on words of a width, and a longer
word reversed begins with the reversal of its low part. Counting upwards through reversed words meets
the residues of a power of two so that the order of a longer word refines the order of a shorter one.
-/

namespace Lib

/-- The low `width` bits, the lowest first. -/
def bitReverse : Nat → Nat → Nat
  | 0, _ => 0
  | width + 1, n => 2 * bitReverse width n + n / 2 ^ width % 2

theorem bitReverse_lt (width n : Nat) : bitReverse width n < 2 ^ width := by
  induction width with
  | zero => exact Nat.one_pos
  | succ width ih =>
    rw [bitReverse, pow_succ]
    omega

theorem bitReverse_add (k j n : Nat) : bitReverse (k + j) n = bitReverse k n * 2 ^ j + bitReverse j (n / 2 ^ k) := by
  induction j with
  | zero => simp [bitReverse]
  | succ j ih =>
    rw [← add_assoc, bitReverse, ih, bitReverse, pow_succ, Nat.div_div_eq_div_mul, ← pow_add]
    ring

theorem bitReverse_mod {j k : Nat} (h : j ≤ k) (n : Nat) : bitReverse j (n % 2 ^ k) = bitReverse j n := by
  induction j with
  | zero => rfl
  | succ j ih =>
    have hbit : n % 2 ^ k / 2 ^ j % 2 = n / 2 ^ j % 2 := by
      obtain ⟨d, rfl⟩ := Nat.exists_eq_add_of_le h
      have hpow : 2 ^ (j + 1 + d) = 2 ^ j * (2 * 2 ^ d) := by ring
      rw [hpow, Nat.mod_mul_right_div_self, Nat.mod_mul_right_mod]
    rw [bitReverse, bitReverse, ih (Nat.le_of_succ_le h), hbit]

theorem bitReverse_zero (width : Nat) : bitReverse width 0 = 0 := by
  induction width with
  | zero => rfl
  | succ width ih => rw [bitReverse, ih, Nat.zero_div]

theorem bitReverse_mul_pow (width n : Nat) : bitReverse width (n * 2 ^ width) = 0 := by
  rw [← bitReverse_mod le_rfl, Nat.mul_mod_left, bitReverse_zero]

theorem bitReverse_ones (width : Nat) : bitReverse width (2 ^ width - 1) = 2 ^ width - 1 := by
  induction width with
  | zero => rfl
  | succ width ih =>
    have hpos : 0 < 2 ^ width := by positivity
    have hmod : (2 ^ (width + 1) - 1) % 2 ^ width = 2 ^ width - 1 := by
      have hsplit : 2 ^ (width + 1) - 1 = 2 ^ width * 1 + (2 ^ width - 1) := by
        rw [pow_succ]
        omega
      rw [hsplit, Nat.mul_add_mod]
      exact Nat.mod_eq_of_lt (by omega)
    have hdiv : (2 ^ (width + 1) - 1) / 2 ^ width = 1 := by
      rw [pow_succ]
      apply Nat.div_eq_of_lt_le <;> omega
    rw [bitReverse, ← bitReverse_mod le_rfl, hmod, ih, hdiv, pow_succ]
    omega

/-- The lowest bit comes out on top. -/
theorem bitReverse_succ (width n : Nat) : bitReverse (width + 1) n = n % 2 * 2 ^ width + bitReverse width (n / 2) := by
  rw [add_comm width 1, bitReverse_add]
  simp [bitReverse]

theorem bitReverse_bitReverse {width n : Nat} (h : n < 2 ^ width) : bitReverse width (bitReverse width n) = n := by
  induction width generalizing n with
  | zero =>
    rw [pow_zero, Nat.lt_one_iff] at h
    rw [h]
    rfl
  | succ width ih =>
    have hpos : 0 < 2 ^ width := by positivity
    rw [pow_succ] at h
    have htop : n / 2 ^ width < 2 := Nat.div_lt_of_lt_mul (by rw [mul_comm] at h; omega)
    have hlow : (2 * bitReverse width n + n / 2 ^ width) % 2 = n / 2 ^ width := by
      rw [Nat.mul_add_mod]
      exact Nat.mod_eq_of_lt htop
    have hhigh : (2 * bitReverse width n + n / 2 ^ width) / 2 = bitReverse width n := by
      rw [Nat.mul_add_div (by decide), Nat.div_eq_of_lt htop, add_zero]
    rw [bitReverse_succ]
    rw [bitReverse, Nat.mod_eq_of_lt htop, hlow, hhigh, ← bitReverse_mod le_rfl n, ih (Nat.mod_lt _ hpos), mul_comm]
    exact Nat.div_add_mod n (2 ^ width)

theorem bitReverse_inj {width a b : Nat} (h : bitReverse width a = bitReverse width b) : a % 2 ^ width = b % 2 ^ width := by
  have hpos : 0 < 2 ^ width := by positivity
  have hback := congrArg (bitReverse width) h
  rwa [← bitReverse_mod le_rfl a, ← bitReverse_mod le_rfl b, bitReverse_bitReverse (Nat.mod_lt a hpos),
    bitReverse_bitReverse (Nat.mod_lt b hpos)] at hback

/-- A longer word's reversal refines a shorter one's. -/
theorem bitReverse_div (k j n : Nat) : bitReverse (k + j) n / 2 ^ j = bitReverse k n := by
  have hpos : 0 < 2 ^ j := by positivity
  rw [bitReverse_add, add_comm, Nat.add_mul_div_right _ _ hpos, Nat.div_eq_of_lt (bitReverse_lt j _), zero_add]

end Lib
