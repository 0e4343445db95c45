import Mathlib.Tactic.Ring
import Mathlib.Tactic.Linarith

/-!
# `Aike.Lib.Reciprocal`: division by multiplication

A quotient `p / s` of words can be taken from the upper half of the product of `p` with
the rounded reciprocal `(2 ^ w - 1) / s + 1`. The reciprocal is too large by `excess w s`
parts of `2 ^ w`, so the quotient can be too large by one, if `p` is near the end of its
multiple of `s`. `mulHigh_eq_div_iff` says exactly when it is right.
-/

set_option autoImplicit false

namespace Reciprocal

variable {w s p : Nat}

/-- The reciprocal of `s`, in parts of `2 ^ w`, rounded up. -/
def inverse (w s : Nat) : Nat := (2 ^ w - 1) / s + 1

/-- By how much the reciprocal is too large, times `s`. -/
def excess (w s : Nat) : Nat := s - 1 - (2 ^ w - 1) % s

/-- The upper half of the product with the reciprocal. -/
def mulHigh (w s p : Nat) : Nat := inverse w s * p / 2 ^ w

/-- The product of a size and its reciprocal is one, but for the excess. -/
theorem inverse_mul (hs : 0 < s) : inverse w s * s = 2 ^ w + excess w s := by
  have hdiv := Nat.div_add_mod (2 ^ w - 1) s
  have hmod := Nat.mod_lt (2 ^ w - 1) hs
  have hpow : 0 < 2 ^ w := Nat.two_pow_pos w
  simp only [inverse, excess, Nat.add_mul, Nat.one_mul]
  rw [Nat.mul_comm ((2 ^ w - 1) / s) s]
  omega

/-- The excess is less than the size. -/
theorem excess_lt (hs : 0 < s) : excess w s < s := by
  unfold excess
  omega

/-- The product, as the quotient and the distance to the next multiple show it. -/
theorem inverse_mul_mul (hs : 0 < s) :
    inverse w s * p * s + (s - p % s) * 2 ^ w = (p / s + 1) * 2 ^ w * s + p * excess w s := by
  have hinv := inverse_mul (w := w) hs
  have hmod := Nat.mod_lt p hs
  have hp : p + (s - p % s) = (p / s + 1) * s := by
    have hdiv := Nat.div_add_mod p s
    rw [Nat.add_mul, Nat.one_mul, Nat.mul_comm (p / s) s]
    omega
  calc inverse w s * p * s + (s - p % s) * 2 ^ w
      = inverse w s * s * p + (s - p % s) * 2 ^ w := by ring
    _ = (p + (s - p % s)) * 2 ^ w + p * excess w s := by rw [hinv]; ring
    _ = (p / s + 1) * 2 ^ w * s + p * excess w s := by rw [hp]; ring

/-- The quotient is never too small. -/
theorem div_le_mulHigh (hs : 0 < s) : p / s ≤ mulHigh w s p := by
  have hinv := inverse_mul (w := w) hs
  have hq : p / s * s ≤ p := Nat.div_mul_le_self p s
  unfold mulHigh
  rw [Nat.le_div_iff_mul_le (Nat.two_pow_pos w)]
  have hle : p / s * 2 ^ w * s ≤ inverse w s * p * s := by
    calc p / s * 2 ^ w * s = p / s * s * 2 ^ w := by ring
      _ ≤ p * 2 ^ w := Nat.mul_le_mul_right _ hq
      _ ≤ p * (inverse w s * s) := Nat.mul_le_mul_left _ (by omega)
      _ = inverse w s * p * s := by ring
  exact Nat.le_of_mul_le_mul_right hle hs

/-- The quotient is too large by one at most. -/
theorem mulHigh_le (hs : 0 < s) (hp : p < 2 ^ w) : mulHigh w s p ≤ p / s + 1 := by
  have hmul := inverse_mul_mul (w := w) (p := p) hs
  have hexcess : p * excess w s < 2 ^ w * s := by
    calc p * excess w s ≤ p * s := Nat.mul_le_mul_left p (excess_lt hs).le
      _ < 2 ^ w * s := Nat.mul_lt_mul_of_pos_right hp hs
  have hlt : inverse w s * p < (p / s + 1 + 1) * 2 ^ w := by
    apply Nat.lt_of_mul_lt_mul_right (a := s)
    calc inverse w s * p * s ≤ (p / s + 1) * 2 ^ w * s + p * excess w s := by omega
      _ < (p / s + 1) * 2 ^ w * s + 2 ^ w * s := by omega
      _ = (p / s + 1 + 1) * 2 ^ w * s := by ring
  unfold mulHigh
  exact Nat.le_of_lt_succ ((Nat.div_lt_iff_lt_mul (Nat.two_pow_pos w)).mpr hlt)

/-- The quotient is right exactly if the excess does not reach the next multiple. -/
theorem mulHigh_eq_div_iff (hs : 0 < s) :
    mulHigh w s p = p / s ↔ p * excess w s < (s - p % s) * 2 ^ w := by
  have hmul := inverse_mul_mul (w := w) (p := p) hs
  have hle := div_le_mulHigh (w := w) (p := p) hs
  have hlt : mulHigh w s p < p / s + 1 ↔ inverse w s * p * s < (p / s + 1) * 2 ^ w * s := by
    unfold mulHigh
    rw [Nat.div_lt_iff_lt_mul (Nat.two_pow_pos w), Nat.mul_lt_mul_right hs]
  constructor
  · intro h
    have := hlt.mp (by omega)
    omega
  · intro h
    have := hlt.mpr (by omega)
    omega

end Reciprocal
