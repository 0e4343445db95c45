import Mathlib.Data.BitVec

/-!
# `Aike.Lib.Llvm`: integer instructions

Instructions of LLVM on integers of `w` bits, as its language reference has them. `add`,
`sub` and `mul` are the operations of `BitVec`. The overflow intrinsics give the result
and whether it overflows. `sdiv` and `srem` have no defined result for a divisor of 0,
and for the smallest integer and -1.

`Exact` compares what a sequence of instructions comes to with an integer.
-/

set_option autoImplicit false

namespace Llvm

/-- Why a run has no result. -/
inductive Abort
  /-- `llvm.trap` is called. -/
  | trap
  /-- The behavior is not defined. -/
  | undefined
  /-- The run is cut off after a number of steps. -/
  | outOfFuel
  deriving DecidableEq, Repr

variable {w : Nat}

/-- `llvm.sadd.with.overflow`. -/
def saddWithOverflow (a b : BitVec w) : BitVec w × Bool := (a + b, a.saddOverflow b)

/-- `llvm.ssub.with.overflow`. -/
def ssubWithOverflow (a b : BitVec w) : BitVec w × Bool := (a - b, a.ssubOverflow b)

/-- `llvm.smul.with.overflow`. -/
def smulWithOverflow (a b : BitVec w) : BitVec w × Bool := (a * b, a.smulOverflow b)

/-- The operands of a division with a result. -/
def Divides (a b : BitVec w) : Prop := b ≠ 0 ∧ ¬ (a = BitVec.intMin w ∧ b = -1)

instance (a b : BitVec w) : Decidable (Divides a b) := inferInstanceAs (Decidable (_ ∧ _))

/-- `sdiv`. -/
def sdiv (a b : BitVec w) : Except Abort (BitVec w) :=
  if Divides a b then .ok (a.sdiv b) else .error .undefined

/-- `srem`. -/
def srem (a b : BitVec w) : Except Abort (BitVec w) :=
  if Divides a b then .ok (a.srem b) else .error .undefined

/-- The result is the integer, or there is a trap. Without an integer, only a trap is
exact. -/
def Exact (run : Except Abort (BitVec w)) (n : Option Int) : Prop :=
  match run with
  | .ok v => n = some v.toInt
  | .error .trap => True
  | .error _ => False

/-- A pair of a result and an overflow flag, of which the flag traps. -/
def trapOnOverflow (result : BitVec w × Bool) : Except Abort (BitVec w) :=
  if result.2 then .error .trap else .ok result.1

/-- A result that the flag traps is exact if it is the integer wherever the flag is not
set. -/
theorem exact_trapOnOverflow {result : BitVec w × Bool} {n : Int}
    (h : result.2 = false → result.1.toInt = n) : Exact (trapOnOverflow result) (some n) := by
  unfold trapOnOverflow
  split
  case isTrue hoverflow => trivial
  case isFalse hoverflow => exact congrArg some (h (Bool.eq_false_iff.mpr hoverflow)).symm

/-- An addition that traps on overflow is exact. -/
theorem exact_sadd (a b : BitVec w) :
    Exact (trapOnOverflow (saddWithOverflow a b)) (some (a.toInt + b.toInt)) :=
  exact_trapOnOverflow fun h => BitVec.toInt_add_of_not_saddOverflow (Bool.eq_false_iff.mp h)

/-- So is a subtraction. -/
theorem exact_ssub (a b : BitVec w) :
    Exact (trapOnOverflow (ssubWithOverflow a b)) (some (a.toInt - b.toInt)) :=
  exact_trapOnOverflow fun h => BitVec.toInt_sub_of_not_ssubOverflow (Bool.eq_false_iff.mp h)

/-- So is a multiplication. -/
theorem exact_smul (a b : BitVec w) :
    Exact (trapOnOverflow (smulWithOverflow a b)) (some (a.toInt * b.toInt)) :=
  exact_trapOnOverflow fun h => BitVec.toInt_mul_of_not_smulOverflow (Bool.eq_false_iff.mp h)

/-- A division is exact where it is defined. -/
theorem exact_sdiv_iff {a b : BitVec w} {n : Option Int}
    (hn : Divides a b → n = some (a.toInt.tdiv b.toInt)) : Exact (sdiv a b) n ↔ Divides a b := by
  unfold sdiv
  by_cases h : Divides a b
  case neg =>
    rw [if_neg h]
    exact iff_of_false id h
  rw [if_pos h]
  have hne : a ≠ BitVec.intMin w ∨ b ≠ -1 := not_and_or.mp h.2
  refine iff_of_true ?_ h
  show n = some (a.sdiv b).toInt
  rw [BitVec.toInt_sdiv_of_ne_or_ne a b hne, hn h]

/-- A remainder is exact where it is defined. -/
theorem exact_srem_iff {a b : BitVec w} {n : Option Int}
    (hn : Divides a b → n = some (a.toInt.tmod b.toInt)) : Exact (srem a b) n ↔ Divides a b := by
  unfold srem
  by_cases h : Divides a b
  case neg =>
    rw [if_neg h]
    exact iff_of_false id h
  rw [if_pos h]
  refine iff_of_true ?_ h
  show n = some (a.srem b).toInt
  rw [BitVec.toInt_srem, hn h]

/-- A negation is exact for every integer that has one of `w` bits. -/
theorem exact_neg_iff {a : BitVec w} (hw : 0 < w) :
    Exact (.ok (0 - a)) (some (-a.toInt)) ↔ a ≠ BitVec.intMin w := by
  have hsub : 0 - a = -a := BitVec.zero_sub a
  show some (-a.toInt) = some (0 - a).toInt ↔ _
  rw [hsub]
  constructor
  · rintro heq rfl
    rw [BitVec.neg_intMin, BitVec.toInt_intMin_of_pos hw] at heq
    have hpos : (0 : Int) < 2 ^ (w - 1) := Int.pow_pos (by decide)
    have hvalue := Option.some.inj heq
    omega
  · intro hne
    rw [BitVec.toInt_neg_of_ne_intMin hne]

/-- The subtraction from 0 is the negation, or overflows. -/
theorem trapOnOverflow_zero_sub {a : BitVec w} (hw : 0 < w) :
    trapOnOverflow (ssubWithOverflow 0 a) =
      if a = BitVec.intMin w then .error .trap else .ok (0 - a) := by
  have hmin : a.toInt = -2 ^ (w - 1) ↔ a = BitVec.intMin w := by
    rw [← BitVec.toInt_intMin_of_pos hw, BitVec.toInt_inj]
  have hle := BitVec.le_toInt a
  have hlt : a.toInt < 2 ^ (w - 1) := BitVec.toInt_lt
  have hpos : (0 : Int) < 2 ^ (w - 1) := Int.pow_pos (by decide)
  have hzero : (0 : BitVec w).toInt = 0 := BitVec.toInt_zero
  have hoverflow : BitVec.ssubOverflow 0 a = decide (a = BitVec.intMin w) := by
    unfold BitVec.ssubOverflow
    rw [hzero, ← Bool.decide_or]
    exact decide_eq_decide.mpr (by rw [← hmin]; omega)
  unfold trapOnOverflow ssubWithOverflow
  rw [hoverflow]
  exact if_congr decide_eq_true_iff rfl rfl

end Llvm
