import Aike.Model.Store

/-!
# `Aike.Model.Ir`: the emitted code

The part of LLVM's IR that code generation emits: types, values, instructions,
basic blocks, functions, and the constants that describe types at run time.

A `Value` carries its type, as LLVM's do. Arguments, results of instructions and
stack slots belong to a function, and name it. Two accesses of storage are marked:
the load of a variable that an identifier names, and the store that initialises
a variable.

LLVM checks some of what it is given by assertions, which a release build does
not have. The model keeps those on which the type of a result depends.
-/

set_option autoImplicit false

namespace Aike

/-- `llvm::Type`. A struct that has a name has its fields in the module. -/
inductive LType
  | void
  | int (bits : Nat)
  | float
  | pointer (element : LType)
  | struct (fields : List LType)
  | named (name : Str)
  | function (ret : LType) (params : List LType)
  deriving Repr, Inhabited

namespace LType

def int1 : LType := .int 1
def int32 : LType := .int 32
def int8Ptr : LType := .pointer (.int 8)

/-- What a variable number of arguments is passed as: the type and the address
of each. -/
def any : LType := .struct [int8Ptr, int8Ptr]

/-- `isVoidTy`. -/
def isVoid : LType → Bool
  | .void => true
  | _ => false

mutual

/-- `operator<<` on a type. -/
def print : LType → Str
  | .void => "void".toList
  | .int bits => 'i' :: Nat.toDigits 10 bits
  | .float => "float".toList
  | .pointer element => print element ++ "*".toList
  | .struct [] => "{}".toList
  | .struct fields => "\x7b ".toList ++ printAll fields ++ " \x7d".toList
  | .named name => '%' :: name
  | .function ret params => print ret ++ " (".toList ++ printAll params ++ ")".toList

/-- Some types, with a comma between them. -/
def printAll : List LType → Str
  | [] => []
  | [t] => print t
  | t :: ts => print t ++ ", ".toList ++ printAll ts

end

end LType

/-- The identity of a `Function`: its place in the module. -/
abbrev FunctionId := Nat

/-- The identity of a `BasicBlock` in its function. -/
abbrev BlockId := Nat

/-- What a value is. -/
inductive ValueDef
  | undef
  | null
  | int (n : Int)
  | float (bits : BitVec 64)
  /-- `CreateGlobalStringPtr`. -/
  | string (value : Str)
  /-- The address of what describes a type. -/
  | typeInfo (name : Str)
  | sizeOf (type : LType)
  | function (f : FunctionId)
  | arg (f : FunctionId) (index : Nat)
  /-- The result of an instruction. -/
  | reg (f : FunctionId) (n : Nat)
  /-- The address of a stack slot. -/
  | slot (f : FunctionId) (n : Nat)
  deriving Repr, Inhabited

/-- `llvm::Value`. -/
structure Value where
  type : LType
  value : ValueDef
  deriving Repr, Inhabited

/-- The function that a value belongs to. A constant belongs to none. -/
def Value.func? (v : Value) : Option FunctionId :=
  match v.value with
  | .arg f _ | .reg f _ | .slot f _ => some f
  | _ => none

/-- What an instruction does. -/
inductive Op
  /-- `name` is the variable that an identifier names. -/
  | load (address : Value) (name : Option VarId)
  /-- `init` is the variable that is initialised. -/
  | store (value address : Value) (init : Option VarId)
  | call (callee : Value) (args : List Value)
  | trap (debug : Bool)
  | gep (base : Value) (indices : List Value)
  | extractValue (aggregate : Value) (index : Nat)
  | insertValue (aggregate value : Value) (index : Nat)
  | bitCast (value : Value)
  | icmpUGE (left right : Value)
  | icmpSGT (left right : Value)
  | icmpSLT (left right : Value)
  | add (left right : Value)
  | not (value : Value)
  deriving Repr, Inhabited

/-- An instruction, with the number of its result. -/
structure Instr where
  result : Nat
  op : Op
  deriving Repr, Inhabited

/-- A PHI node: what it is for each block that control can come from. -/
structure Phi where
  result : Nat
  type : LType
  incoming : List (Value × BlockId)
  deriving Repr, Inhabited

/-- The last instruction of a block. -/
inductive Terminator
  | br (target : BlockId)
  | condBr (cond : Value) (then_ else_ : BlockId)
  | ret (value : Value)
  | retVoid
  | unreachable
  deriving Repr, Inhabited

/-- The blocks that control can go to. -/
def Terminator.successors : Terminator → List BlockId
  | .br target => [target]
  | .condBr _ then_ else_ => [then_, else_]
  | .ret _ | .retVoid | .unreachable => []

/-- `BasicBlock`. -/
structure BasicBlock where
  phis : List Phi := []
  instrs : List Instr := []
  terminator : Option Terminator := none
  deriving Repr, Inhabited

/-- The blocks that control can go to from a block. -/
def BasicBlock.successors (b : BasicBlock) : List BlockId :=
  match b.terminator with
  | some t => t.successors
  | none => []

/-- A stack slot. `size` is the number of elements. -/
structure Alloca where
  type : LType
  size : Nat := 1
  deriving Repr, Inhabited

/-- The code of a function. The first block is 0. The slots are the instructions
at its head, the newest first. -/
structure Graph where
  blocks : BlockId → BasicBlock := fun _ => {}
  size : Nat := 0
  allocas : List Alloca := []

/-- What a function has for a body. -/
inductive FunctionBody
  /-- No blocks. -/
  | empty
  | graph (g : Graph)
  /-- The blocks that LLVM's parser made of some text. -/
  | assembly (code : Str)

/-- What `codegenFunctionDecl` made a function for: the declaration, the types
for its type parameters, and the parent instance. -/
structure FnKey where
  decl : NodeId
  tyargs : List Ty
  parent : Option FunctionId
  deriving DecidableEq, Repr

/-- `Function`. It has an `origin` when `codegenFunctionDecl` made it. -/
structure Function where
  name : Str
  ret : LType
  params : List LType
  alwaysInline : Bool := false
  body : FunctionBody := .empty
  origin : Option FnKey := none

/-- The address of a function. -/
def Function.type (f : Function) : LType := .pointer (.function f.ret f.params)

/-- What `codegenType` made a struct for: the definition, the type arguments, and
what the type parameters of enclosing functions that the fields mention are
bound to. -/
structure StructKey where
  d : DefId
  tyargs : List Ty
  context : List (GenericId × Option Ty)
  deriving DecidableEq, Repr

/-- `StructType` with a name. It has no body while its fields are made. -/
structure StructType where
  name : Str
  body : Option (List LType) := none
  origin : StructKey

/-- The constant that describes a type at run time. Descriptions of other types
are given by name, offsets by the struct that the field is in. -/
inductive TypeInfo
  | simple (kind : Nat)
  | tuple (layout : LType) (fields : List Str)
  | array (element : Str) (stride : LType)
  | pointer (element : Str)
  | struct (name : Str) (layout : LType) (fields : List (Str × Str))
  deriving Repr, Inhabited

/-- `GlobalVariable`. It has no initializer while those of other types are made. -/
structure GlobalVariable where
  name : Str
  initializer : Option TypeInfo := none

end Aike
