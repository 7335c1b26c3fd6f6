import Mathlib.Data.Nat.Bitwise
import Mathlib.Tactic.Ring

/-!
# Masks and shifts of machine words

Words are natural numbers.  The lemmas turn the bit operations of C on them (a mask that cuts out
a field, an `|` of disjoint fields, shifts) into division and remainder, where `omega` applies.
-/

namespace Words

theorem and_field (x lo hi : ℕ) (h : lo ≤ hi) :
    x &&& (2 ^ hi - 2 ^ lo) = x % 2 ^ hi / 2 ^ lo * 2 ^ lo := by
  have mask : 2 ^ hi - 2 ^ lo = (2 ^ (hi - lo) - 1) * 2 ^ lo := by
    rw [Nat.sub_mul, ← pow_add, one_mul]
    congr 2
    omega
  apply Nat.eq_of_testBit_eq
  intro i
  rw [mask, Nat.testBit_and, Nat.testBit_mul_two_pow, Nat.testBit_mul_two_pow,
    Nat.testBit_div_two_pow, Nat.testBit_mod_two_pow, Nat.testBit_two_pow_sub_one]
  by_cases above : lo ≤ i
  · have shift : decide (i - lo < hi - lo) = decide (i < hi) := by
      congr 1
      simp only [eq_iff_iff]
      omega
    simp [above, shift, Bool.and_comm]
  · simp [above]

theorem and_low (x n : ℕ) : x &&& (2 ^ n - 1) = x % 2 ^ n := Nat.and_two_pow_sub_one_eq_mod x n

/-- The `|` of a multiple of `2 ^ n` with a word below `2 ^ n` is their sum. -/
theorem or_eq_add {x y n : ℕ} (aligned : x % 2 ^ n = 0) (small : y < 2 ^ n) : x ||| y = x + y := by
  obtain ⟨k, rfl⟩ := Nat.dvd_of_mod_eq_zero aligned
  exact (Nat.two_pow_add_eq_or_of_lt small k).symm

/-- A field is unaffected by bits that lie outside it. -/
theorem or_and_of_disjoint {x y mask : ℕ} (disjoint : y &&& mask = 0) :
    (x ||| y) &&& mask = x &&& mask := by
  rw [Nat.and_or_distrib_right, disjoint, Nat.or_zero]

/-- A word inside a mask has no bits in a mask disjoint from it. -/
theorem and_eq_zero_of_inside {x inside outside : ℕ} (h : x &&& inside = x)
    (disjoint : inside &&& outside = 0) : x &&& outside = 0 := by
  rw [← h, Nat.and_assoc, disjoint, Nat.and_zero]

end Words
