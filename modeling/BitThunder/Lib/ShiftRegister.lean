import Mathlib.Logic.Function.Iterate
import Mathlib.Tactic

/-!
# Linear shift registers

A register of `w` bits that is shifted down one place at a time; when a one falls out, the
polynomial `p` is added. Adding is exclusive or, so that a step is linear, and `n` steps are those
of the `n` low bits and a shift of the rest. This is why a remainder can be looked up in a table.

* `steps_xor`: linearity;
* `steps_split`: the low bits and the rest;
* `feedAll_bitsOf`: feeding the bits of a word one by one is adding the word and then stepping.

The proofs are by linearity alone. A word is the sum of its low bits and the rest, the rest is only
shifted, and what the low bits come to does not depend on the rest. No property of the polynomial is
used.
-/

namespace BitThunder

namespace ShiftRegister

variable {w : ℕ} {p c d x : BitVec w} {n : ℕ}

/-- Shift the register down; a one that falls out adds the polynomial. -/
def step (p c : BitVec w) : BitVec w := if c.getLsbD 0 then (c >>> 1) ^^^ p else c >>> 1

/-- A message bit is added to the bit that falls out. -/
def feed (p c : BitVec w) (b : Bool) : BitVec w :=
  (c >>> 1) ^^^ if c.getLsbD 0 ^^ b then p else 0

/-- The `n` low bits of a word, lowest first. -/
def bitsOf (x : BitVec w) : ℕ → List Bool
  | 0 => []
  | n + 1 => x.getLsbD 0 :: bitsOf (x >>> 1) n

/-- The word with only its `n` low bits. -/
def low (n : ℕ) (c : BitVec w) : BitVec w := c &&& BitVec.ofNat w (2 ^ n - 1)

theorem getLsbD_low {i : ℕ} (hi : i < w) :
    (low n c).getLsbD i = (decide (i < n) && c.getLsbD i) := by
  rw [low, BitVec.getLsbD_and, BitVec.getLsbD_ofNat, Nat.testBit_two_pow_sub_one]
  simp [hi, Bool.and_comm]

theorem step_xor : step p (c ^^^ d) = step p c ^^^ step p d := by
  have hcancel : (c >>> 1 ^^^ d >>> 1) = (c >>> 1 ^^^ p) ^^^ (d >>> 1 ^^^ p) := by
    rw [BitVec.xor_assoc, BitVec.xor_comm p, BitVec.xor_assoc (d >>> 1), BitVec.xor_self,
      BitVec.xor_zero]
  unfold step
  rw [BitVec.getLsbD_xor, BitVec.ushiftRight_xor_distrib]
  cases c.getLsbD 0 with
  | false =>
    cases d.getLsbD 0 with
    | false => rfl
    | true => exact BitVec.xor_assoc ..
  | true =>
    cases d.getLsbD 0 with
    | false =>
      change (c >>> 1 ^^^ d >>> 1) ^^^ p = (c >>> 1 ^^^ p) ^^^ d >>> 1
      rw [BitVec.xor_assoc, BitVec.xor_comm (d >>> 1), BitVec.xor_assoc]
    | true => exact hcancel

/-- Nothing is added when a zero falls out. -/
theorem step_of_even (h : c.getLsbD 0 = false) : step p c = c >>> 1 := by
  rw [step, h]
  rfl

theorem steps_xor : (step p)^[n] (c ^^^ d) = (step p)^[n] c ^^^ (step p)^[n] d := by
  induction n generalizing c d with
  | zero => rfl
  | succ n ih => rw [Function.iterate_succ_apply, step_xor, ih, Function.iterate_succ_apply,
      Function.iterate_succ_apply]

/-- As long as only zeros fall out, the register is shifted. -/
theorem steps_of_low_zero (h : ∀ i < n, c.getLsbD i = false) : (step p)^[n] c = c >>> n := by
  induction n with
  | zero => rfl
  | succ n ih =>
    have hzero : (c >>> n).getLsbD 0 = false := by
      rw [BitVec.getLsbD_ushiftRight]
      exact h n (Nat.lt_succ_self n)
    rw [Function.iterate_succ_apply', ih fun i hi => h i (Nat.lt_succ_of_lt hi), step_of_even hzero,
      ← BitVec.shiftRight_add]

/-- `n` steps are those of the `n` low bits, and a shift of the rest. -/
theorem steps_split : (step p)^[n] c = c >>> n ^^^ (step p)^[n] (low n c) := by
  have hparts : c = (c ^^^ low n c) ^^^ low n c := by
    rw [BitVec.xor_assoc, BitVec.xor_self, BitVec.xor_zero]
  have hlow : ∀ i < n, (c ^^^ low n c).getLsbD i = false := by
    intro i hi
    rw [BitVec.getLsbD_xor]
    by_cases hw : i < w
    · simp [getLsbD_low hw, hi]
    · rw [BitVec.getLsbD_of_ge _ _ (not_lt.mp hw), BitVec.getLsbD_of_ge _ _ (not_lt.mp hw)]
      rfl
  have hshift : (c ^^^ low n c) >>> n = c >>> n := by
    apply BitVec.eq_of_getLsbD_eq
    intro i _
    rw [BitVec.getLsbD_ushiftRight, BitVec.getLsbD_ushiftRight, BitVec.getLsbD_xor]
    by_cases hw : n + i < w
    · simp [getLsbD_low hw]
    · rw [BitVec.getLsbD_of_ge (low n c) _ (not_lt.mp hw), Bool.xor_false]
  conv_lhs => rw [hparts]
  rw [steps_xor, steps_of_low_zero hlow, hshift]

/-- A single bit falls out in one step. -/
theorem bit_ushiftRight (b : Bool) : (BitVec.ofBool b).setWidth w >>> 1 = 0 := by
  apply BitVec.eq_of_getLsbD_eq
  intro i _
  simp

/-- Feeding a bit is adding it to the low end and stepping. -/
theorem feed_eq (hw : 0 < w) (b : Bool) :
    feed p c b = step p (c ^^^ (BitVec.ofBool b).setWidth w) := by
  have hb : ((BitVec.ofBool b).setWidth w).getLsbD 0 = b := by simp [hw]
  rw [feed, step, BitVec.getLsbD_xor, BitVec.ushiftRight_xor_distrib, bit_ushiftRight, hb]
  cases c.getLsbD 0 ^^ b with
  | false => rfl
  | true => simp

/-- The lowest bit, and the others. -/
theorem eq_bit_xor_shift (hw : 0 < w) : ∃ d :
    BitVec w, x = (BitVec.ofBool (x.getLsbD 0)).setWidth w ^^^ d ∧
    d.getLsbD 0 = false ∧ d >>> 1 = x >>> 1 := by
  refine ⟨(BitVec.ofBool (x.getLsbD 0)).setWidth w ^^^ x, ?_, ?_, ?_⟩
  · rw [← BitVec.xor_assoc, BitVec.xor_self, BitVec.zero_xor]
  · simp [hw]
  · rw [BitVec.ushiftRight_xor_distrib, bit_ushiftRight]
    exact BitVec.zero_xor

/-- Feeding the low bits of a word one by one is adding them and stepping as often. -/
theorem feedAll_bitsOf (hw : 0 < w) (hx : ∀ i, n ≤ i → x.getLsbD i = false) :
    (bitsOf x n).foldl (feed p) c = (step p)^[n] (c ^^^ x) := by
  induction n generalizing c x with
  | zero =>
    have hzero : x = 0 := BitVec.eq_of_getLsbD_eq fun i _ => by simp [hx i (Nat.zero_le i)]
    simp [bitsOf, hzero]
  | succ n ih =>
    obtain ⟨d, hd, heven, hshift⟩ := eq_bit_xor_shift (x := x) hw
    have hrest : ∀ i, n ≤ i → (x >>> 1).getLsbD i = false := by
      intro i hi
      rw [BitVec.getLsbD_ushiftRight]
      exact hx (1 + i) (by omega)
    rw [bitsOf, List.foldl_cons, ih hrest, Function.iterate_succ_apply, feed_eq hw]
    conv_rhs => rw [hd, ← BitVec.xor_assoc, step_xor, step_of_even heven, hshift]

end ShiftRegister

end BitThunder
