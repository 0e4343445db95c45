import Aike.Lib.Llvm

/-!
# `Aike.Model.Prelude`: the integer operators of the prelude

The functions of `library/prelude.aike` on `int` that have a body in LLVM assembly: each
is the sequence of its instructions. The branch to `trap` on the overflow flag is
`Llvm.trapOnOverflow`.
-/

set_option autoImplicit false

namespace Aike.Prelude

open Llvm

/-- `int`. -/
abbrev Int32 := BitVec 32

/-- `operatorPlus`. -/
def operatorPlus (a : Int32) : Except Abort Int32 := .ok a

/-- `operatorMinus`. -/
def operatorMinus (a : Int32) : Except Abort Int32 := .ok (0 - a)

/-- `operatorAdd`. -/
def operatorAdd (a b : Int32) : Except Abort Int32 := trapOnOverflow (saddWithOverflow a b)

/-- `operatorSubtract`. -/
def operatorSubtract (a b : Int32) : Except Abort Int32 := trapOnOverflow (ssubWithOverflow a b)

/-- `operatorMultiply`. -/
def operatorMultiply (a b : Int32) : Except Abort Int32 := trapOnOverflow (smulWithOverflow a b)

/-- `operatorDivide`. -/
def operatorDivide (a b : Int32) : Except Abort Int32 := sdiv a b

/-- `operatorModulo`. -/
def operatorModulo (a b : Int32) : Except Abort Int32 := srem a b

/-- The operators that are not wrapping operators. -/
inductive IntegerOperator
  | minus | add | subtract | multiply | divide | modulo
  deriving DecidableEq, Repr

namespace IntegerOperator

/-- The function of an operator. `operatorMinus` has one operand. -/
def apply : IntegerOperator → Int32 → Int32 → Except Abort Int32
  | .minus, a, _ => operatorMinus a
  | .add, a, b => operatorAdd a b
  | .subtract, a, b => operatorSubtract a b
  | .multiply, a, b => operatorMultiply a b
  | .divide, a, b => operatorDivide a b
  | .modulo, a, b => operatorModulo a b

/-- What an operator is for: the mathematical result, if there is one. It is not
translated from the source. -/
def exact : IntegerOperator → Int → Int → Option Int
  | .minus, a, _ => some (-a)
  | .add, a, b => some (a + b)
  | .subtract, a, b => some (a - b)
  | .multiply, a, b => some (a * b)
  | .divide, a, b => if b = 0 then none else some (a.tdiv b)
  | .modulo, a, b => if b = 0 then none else some (a.tmod b)

end IntegerOperator

end Aike.Prelude
