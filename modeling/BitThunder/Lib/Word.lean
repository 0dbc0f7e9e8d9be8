import Mathlib.Data.Nat.Bitwise
import Mathlib.Tactic

/-!
# Masks on machine words

Machine words are naturals with their wrap-around written out. Rounding with a
mask of high bits is rounding to a multiple of a power of two.
-/

namespace BitThunder

/-- Masking with the bits `k .. w - 1` keeps those bits. -/
theorem land_highMask {w k : ℕ} (hk : k ≤ w) (x : ℕ) :
    x &&& (2 ^ w - 2 ^ k) = x % 2 ^ w / 2 ^ k * 2 ^ k := by
  have hmask : 2 ^ w - 2 ^ k = (2 ^ (w - k) - 1) <<< k := by
    rw [Nat.shiftLeft_eq, Nat.sub_mul, one_mul, ← pow_add, Nat.sub_add_cancel hk]
  have hround : x % 2 ^ w / 2 ^ k * 2 ^ k = ((x % 2 ^ w) >>> k) <<< k := by
    rw [Nat.shiftLeft_eq, Nat.shiftRight_eq_div_pow]
  rw [hmask, hround]
  apply Nat.eq_of_testBit_eq
  intro i
  simp only [Nat.testBit_land, Nat.testBit_shiftLeft, Nat.testBit_two_pow_sub_one,
    Nat.testBit_shiftRight, Nat.testBit_mod_two_pow]
  by_cases hi : k ≤ i
  · have hki : k + (i - k) = i := by omega
    rw [hki]
    by_cases hw : i < w
    · simp [hi, hw, show i - k < w - k by omega]
    · simp [hi, hw, show ¬ (i - k < w - k) by omega]
  · simp [hi]

/-- Setting bits below an aligned word is adding them. -/
theorem lor_of_aligned {k a f : ℕ} (ha : a % 2 ^ k = 0) (hf : f < 2 ^ k) : a ||| f = a + f := by
  obtain ⟨q, rfl⟩ : ∃ q, a = 2 ^ k * q :=
    ⟨a / 2 ^ k, by rw [Nat.mul_div_cancel' (Nat.dvd_of_mod_eq_zero ha)]⟩
  exact (Nat.two_pow_add_eq_or_of_lt hf q).symm

/-- Testing one bit. -/
theorem land_two_pow_ne_zero {i x : ℕ} : x &&& 2 ^ i ≠ 0 ↔ x / 2 ^ i % 2 = 1 := by
  rw [Nat.and_two_pow, Nat.testBit_eq_decide_div_mod_eq]
  by_cases h : x / 2 ^ i % 2 = 1
  · simp [h]
  · simp [h]

end BitThunder
