import Aike.Model.Prelude

/-!
# `Aike.Proofs.Prelude`: the integer operators of the prelude

`operatorAdd`, `operatorSubtract` and `operatorMultiply` look at the overflow flag;
`operatorMinus`, `operatorDivide` and `operatorModulo` look at nothing.
`IntegerOperator.neverWrong_iff` is the exact set of operands for which each is right.
-/

set_option autoImplicit false

namespace Aike.Prelude

open Llvm

namespace IntegerOperator

/-- An operator gives the mathematical result or traps, and the unary minus is the
subtraction from 0. -/
structure NeverWrong (op : IntegerOperator) (a b : Int32) : Prop where
  exact : Exact (op.apply a b) (op.exact a.toInt b.toInt)
  minus : op = .minus → operatorMinus a = operatorSubtract 0 a

/-- The operands that an operator is right for. -/
def Handles : IntegerOperator → Int32 → Int32 → Prop
  | .minus, a, _ => a ≠ BitVec.intMin 32
  | .add, _, _ | .subtract, _, _ | .multiply, _, _ => True
  | .divide, a, b | .modulo, a, b => b ≠ 0 ∧ ¬ (a = BitVec.intMin 32 ∧ b = -1)

/-- The quotient and the remainder by an integer that is not 0. -/
theorem toInt_ne_zero {b : Int32} (h : b ≠ 0) : b.toInt ≠ 0 :=
  fun h' => h (BitVec.eq_of_toInt_eq h')

/-- An operator gives the mathematical result or traps if and only if it handles the
operands. -/
theorem exact_iff (op : IntegerOperator) (a b : Int32) :
    Exact (op.apply a b) (op.exact a.toInt b.toInt) ↔ op.Handles a b := by
  cases op with
  | minus => exact exact_neg_iff (by decide)
  | add => exact iff_of_true (exact_sadd a b) trivial
  | subtract => exact iff_of_true (exact_ssub a b) trivial
  | multiply => exact iff_of_true (exact_smul a b) trivial
  | divide => exact exact_sdiv_iff fun h => if_neg (toInt_ne_zero h.1)
  | modulo => exact exact_srem_iff fun h => if_neg (toInt_ne_zero h.1)

/-- An operator never gives a wrong number, exactly for the operands that it handles:
those of the unary minus but the smallest integer, and those of a division but a divisor
of 0, and the smallest integer by -1. -/
theorem neverWrong_iff (op : IntegerOperator) (a b : Int32) :
    op.NeverWrong a b ↔ op.Handles a b := by
  constructor
  · intro h
    exact (exact_iff op a b).mp h.exact
  · intro h
    refine ⟨(exact_iff op a b).mpr h, ?_⟩
    rintro rfl
    have hne : a ≠ BitVec.intMin 32 := h
    have hsub : operatorSubtract 0 a = _ := trapOnOverflow_zero_sub (by decide)
    rw [hsub, if_neg hne]
    rfl

/-- `-a` of the smallest integer is itself, where `0 - a` traps; a division by 0 is not
defined. -/
theorem not_neverWrong :
    operatorMinus (BitVec.intMin 32) = .ok (BitVec.intMin 32) ∧
      operatorSubtract 0 (BitVec.intMin 32) = .error .trap ∧
      operatorDivide 1 0 = .error .undefined ∧
      operatorModulo (BitVec.intMin 32) (-1) = .error .undefined ∧
      ¬ ∀ op a b, NeverWrong op a b := by
  refine ⟨by decide, by decide, by decide, by decide, fun h => ?_⟩
  exact (h .divide 1 0).exact

end IntegerOperator

end Aike.Prelude
