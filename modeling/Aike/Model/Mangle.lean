import Aike.Model.Store

/-!
# `Aike.Model.Mangle`: symbol names

The model of `compiler/mangle.cpp`. The functions of the source append to a
buffer; here they return what they append.

`mangle` follows a generic parameter into the type that is bound to it, which is
not below the type it is given, so it runs on a number of nested calls (`fuel`).
-/

set_option autoImplicit false

namespace Aike

/-- `to_string`, on an `int`. -/
def toStr (n : Int) : Str :=
  if n < 0 then '-' :: Nat.toDigits 10 n.natAbs else Nat.toDigits 10 n.natAbs

/-- `mangleName`: the length of the name, then the name. -/
def mangleName (name : Str) : Str := Nat.toDigits 10 name.length ++ name

/-- The type arguments of a name, between `I` and `E`, if there are any. -/
def mangleTyargs (tyargs : List Str) : Str :=
  if tyargs.length > 0 then ['I'] ++ tyargs.flatten ++ ['E'] else []

/-- `mangle`. An `Unknown` is the kind that the source does not know here. -/
def mangle (inst : GenericId → Except Fault Ty) : Nat → Ty → Except Fault Str
  | 0, _ => .error .outOfFuel
  | fuel + 1, type =>
      match type with
      | .void => .ok ['v']
      | .bool => .ok ['b']
      | .integer => .ok ['i']
      | .float => .ok ['f']
      | .string => .ok ['N', '6', 's', 't', 'r', 'i', 'n', 'g', 'E']
      | .tuple fields => do
          let fields ← fields.mapM (mangle inst fuel)
          return ['N', '5', 't', 'u', 'p', 'l', 'e', 'I'] ++ fields.flatten ++ ['E', 'E']
      | .array element => do
          let element ← mangle inst fuel element
          return ['U', '5', 'a', 'r', 'r', 'a', 'y'] ++ element
      | .pointer element => do
          let element ← mangle inst fuel element
          return ['U', '3', 'p', 't', 'r'] ++ element
      | .function args ret varargs => do
          let ret ← mangle inst fuel ret
          let args ← args.mapM (mangle inst fuel)
          return ['F'] ++ ret ++ args.flatten ++ (if varargs then ['z'] else []) ++ ['E']
      | .inst node tyargs target =>
          match target with
          | .generic g => do
              let type ← inst g
              mangle inst fuel type
          | _ => do
              let tyargs ← tyargs.mapM (mangle inst fuel)
              return ['N'] ++ mangleName node.name ++ mangleTyargs tyargs ++ ['E']
      | .unknown _ => .error .internalError

/-- `mangleFnName`. -/
def mangleFnName (inst : GenericId → Except Fault Ty) (fuel : Nat) (name : Str) (unnamed : Int)
    (tyargs : List Ty) : Except Fault Str := do
  let tyargs ← tyargs.mapM (mangle inst fuel)
  let name :=
    if name.length > 0 then mangleName name else ['U', 't'] ++ toStr unnamed ++ ['_']
  return name ++ mangleTyargs tyargs

/-- The place of a function name below its parent. A parent that is itself the
name of a function makes a local name, any other parent a nested one. -/
def mangleNested (parent fnName : Str) : Str :=
  match parent with
  | [] => fnName
  | '_' :: 'Z' :: c :: parent => ['Z'] ++ (c :: parent) ++ ['E'] ++ fnName
  | parent => ['N'] ++ parent ++ fnName ++ ['E']

/-- The parameters of a function. -/
def mangleParams (args : List Str) (varargs : Bool) : Str :=
  if args.length = 0 ∧ varargs = false then ['v']
  else args.flatten ++ (if varargs then ['z'] else [])

/-- `mangleFn`. -/
def mangleFn (inst : GenericId → Except Fault Ty) (fuel : Nat) (name : Str) (unnamed : Int)
    (type : Ty) (tyargs : List Ty) (parent : Str) : Except Fault Str :=
  match type with
  | .function args ret varargs => do
      let fnName ← mangleFnName inst fuel name unnamed tyargs
      let ret ← if tyargs.length > 0 then mangle inst fuel ret else .ok []
      let args ← args.mapM (mangle inst fuel)
      return ['_', 'Z'] ++ mangleNested parent fnName ++ ret ++ mangleParams args varargs
  | _ => .error .assertion

/-- `mangleType`. -/
def mangleType (inst : GenericId → Except Fault Ty) (fuel : Nat) (type : Ty) :
    Except Fault Str :=
  mangle inst fuel type

/-- `mangleTypeInfo`. -/
def mangleTypeInfo (inst : GenericId → Except Fault Ty) (fuel : Nat) (type : Ty) :
    Except Fault Str := do
  let name ← mangle inst fuel type
  return ['_', 'Z', 'T', 'I'] ++ name

/-- `mangleModule`. -/
def mangleModule (name : Str) : Str := mangleName name

end Aike
