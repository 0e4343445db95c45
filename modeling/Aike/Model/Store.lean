import Aike.Model.Ast

/-!
# `Aike.Model.Store`: what the passes write

The passes write types, targets and indices on the tree. They are in a `Store`,
keyed by the identity of the node, the variable or the field they are written on.

A type in the store is read through `view`: the type arguments that
`instantiateType` pushed on the node of an `Instance` are not in the types that
contain the node, but in `fills`, under its address. A type is written through
`allocate`, which gives an address to the nodes that do not have one.
-/

set_option autoImplicit false

namespace Aike

/-- An error that `Output::error` reports. -/
structure Diagnostic where
  location : Location
  message : Str
  deriving DecidableEq, Repr, Inhabited

/-- What ends a pass without a result. -/
inductive Fault
  /-- An assertion fails, or a null pointer is followed. -/
  | assertion
  /-- The definition of an `Instance` is followed that has none: a null pointer. -/
  | nullDefinition
  /-- The assertion in `typeMember` on the number of type arguments fails. -/
  | arity
  /-- `ICE`. -/
  | internalError
  /-- The number of nested calls is used up. -/
  | outOfFuel
  deriving DecidableEq, Repr, Inhabited

/-- What the passes write on the tree, and the supplies of fresh identities. -/
structure Store where
  /-- `type` of a node; null until a pass sets it. -/
  nodeType : NodeId → Option Ty := fun _ => none
  /-- `type` of a variable. -/
  varType : VarId → Ty := fun _ => .void
  /-- `tyargs` of an identifier. -/
  identTyargs : NodeId → List Ty := fun _ => []
  /-- `targets` of an identifier. -/
  targets : NodeId → List Variable := fun _ => []
  /-- `resolved` of an identifier. -/
  resolved : NodeId → Bool := fun _ => false
  /-- `index` of a field reference; negative until it is resolved. -/
  fieldIndex : FieldId → Int := fun _ => -1
  /-- The types of the fields of a struct. -/
  fieldTypes : DefId → List Ty := fun _ => []
  /-- `parent` of a function declaration. -/
  parent : NodeId → Option NodeId := fun _ => none
  /-- The name of the `module` of a function declaration. -/
  moduleName : NodeId → Option Str := fun _ => none
  /-- The type arguments that were pushed on the node of an `Instance`. -/
  fills : Nat → List Ty := fun _ => []
  /-- The next `Unknown`. -/
  nextUnknown : UnknownId := 0
  /-- The next address of the node of an `Instance`. -/
  nextAddr : Nat := 1

mutual

/-- A type with the type arguments that were pushed on its nodes. -/
def Ty.view (fills : Nat → List Ty) : Ty → Ty
  | .tuple fields => .tuple (viewAll fills fields)
  | .array element => .array (view fills element)
  | .pointer element => .pointer (view fills element)
  | .function args ret varargs => .function (viewAll fills args) (view fills ret) varargs
  | .inst node tyargs target =>
      match tyargs with
      | [] => .inst node (fills node.addr) target
      | tyargs => .inst node (viewAll fills tyargs) target
  | .unknown u => .unknown u
  | .void => .void
  | .bool => .bool
  | .integer => .integer
  | .float => .float
  | .string => .string

/-- `Ty.view`, on a list. -/
def Ty.viewAll (fills : Nat → List Ty) : List Ty → List Ty
  | [] => []
  | t :: ts => view fills t :: viewAll fills ts

end

/-- The bindings, with the type arguments that were pushed on their nodes. -/
def TypeConstraints.view (c : TypeConstraints) (fills : Nat → List Ty) : TypeConstraints :=
  { c with data := c.data.map fun (u, t) => (u, t.view fills) }

mutual

/-- Give the nodes without an address the next addresses. -/
def Ty.allocate (next : Nat) : Ty → Ty × Nat
  | .tuple fields =>
      let (fields, next) := allocateAll next fields
      (.tuple fields, next)
  | .array element =>
      let (element, next) := allocate next element
      (.array element, next)
  | .pointer element =>
      let (element, next) := allocate next element
      (.pointer element, next)
  | .function args ret varargs =>
      let (args, next) := allocateAll next args
      let (ret, next) := allocate next ret
      (.function args ret varargs, next)
  | .inst node tyargs target =>
      let (tyargs, next) := allocateAll next tyargs
      if node.addr = 0 then (.inst { node with addr := next } tyargs target, next + 1)
      else (.inst node tyargs target, next)
  | .unknown u => (.unknown u, next)
  | .void => (.void, next)
  | .bool => (.bool, next)
  | .integer => (.integer, next)
  | .float => (.float, next)
  | .string => (.string, next)

/-- `Ty.allocate`, on a list. -/
def Ty.allocateAll (next : Nat) : List Ty → List Ty × Nat
  | [] => ([], next)
  | t :: ts =>
      let (t, next) := allocate next t
      let (ts, next) := allocateAll next ts
      (t :: ts, next)

end

/-- `f` with another value at `i`. -/
def update {α : Type} (f : Nat → α) (i : Nat) (a : α) : Nat → α := fun j => if j = i then a else f j

namespace Store

/-- `astType`, through the pushed type arguments. -/
def astType (s : Store) (n : NodeId) : Option Ty := (s.nodeType n).map (Ty.view s.fills)

/-- `type` of a variable, through the pushed type arguments. -/
def variableType (s : Store) (v : VarId) : Ty := (s.varType v).view s.fills

/-- `n->type = type`. -/
def setNodeType (s : Store) (n : NodeId) (type : Ty) : Store :=
  let (type, next) := type.allocate s.nextAddr
  { s with nodeType := update s.nodeType n (some type), nextAddr := next }

/-- `var->type = type`. -/
def setVarType (s : Store) (v : VarId) (type : Ty) : Store :=
  let (type, next) := type.allocate s.nextAddr
  { s with varType := update s.varType v type, nextAddr := next }

/-- `n->tyargs = tyargs`. -/
def setIdentTyargs (s : Store) (n : NodeId) (tyargs : List Ty) : Store :=
  let (tyargs, next) := Ty.allocateAll s.nextAddr tyargs
  { s with identTyargs := update s.identTyargs n tyargs, nextAddr := next }

/-- As many new `Unknown`s as asked for. -/
def freshUnknowns (s : Store) (count : Nat) : List Ty × Store :=
  ((List.range count).map fun i => .unknown (s.nextUnknown + i),
    { s with nextUnknown := s.nextUnknown + count })

end Store

end Aike
