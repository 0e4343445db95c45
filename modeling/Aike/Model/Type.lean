import Mathlib.Data.List.Basic

/-!
# `Aike.Model.Type`: types, unification constraints, instantiation

The model of `compiler/type.hpp` and `compiler/type.cpp`.

A `Ty*` of the source is a pointer, and two things hang on its identity: which
`Unknown` it is, and which declaration an `Instance` stands for. Both are ids
here (`UnknownId`, `DefId`, `GenericId`), and everything else about a type is
its shape, so a `Ty` is a value. The source's twelfth kind, `Generic`, is the
node that the declaration of a type parameter allocates. No type contains it
directly, only `Instance.generic` points at it, so it is a `GenericId`.

`typeUnify` takes its constraints by pointer and is called with a null pointer
by `typeEquals`. The two uses are two definitions here, `typeUnify` and
`typeEquals`, read off the same body.

An `Unknown` that meets itself is the one place where the source's pointer test
`lhs == rhs` decides something. On every other shape a type that is compared
with itself is walked to the same answer, true, with the constraints untouched,
so the walk is all the model keeps.
-/

set_option autoImplicit false

namespace Aike

/-- A `Str`: the bytes of a name. -/
abbrev Str := List Char

/-- A source location. -/
structure Location where
  source : Str := []
  line : Nat := 0
  column : Int := 0
  offset : Nat := 0
  length : Nat := 0
  deriving DecidableEq, Repr, Inhabited

/-- The identity of an `Unknown` node. -/
abbrev UnknownId := Nat

/-- The identity of a `TyDef`, the definition of a struct. -/
abbrev DefId := Nat

/-- The identity of a `Generic` node, a declared type parameter. -/
abbrev GenericId := Nat

/-- What an `Instance` stands for: the pair of pointers `def` and `generic`, of
which `resolveTypeInstance` sets one. -/
inductive TyTarget
  | unresolved
  | struct (d : DefId)
  | generic (g : GenericId)
  deriving DecidableEq, Repr, Inhabited

/-- The node of an `Instance`: its address, the name it was written with
and where. The address matters to one function only: `instantiateType` adds type
arguments to a node in place, and whoever else points at the node sees them. It
is 0 for a node that nothing points at yet. -/
structure InstanceNode where
  name : Str
  location : Location := {}
  addr : Nat := 0
  deriving DecidableEq, Repr, Inhabited

/-- The node of an `Instance` built from an old one, as `rewrite` and
`typeInstantiate` do. It gets its address when the type is stored. -/
def InstanceNode.renew (n : InstanceNode) : InstanceNode := { n with addr := 0 }

/-- `Ty`. -/
inductive Ty
  | unknown (id : UnknownId)
  | void
  | bool
  | integer
  | float
  | string
  | tuple (fields : List Ty)
  | array (element : Ty)
  | pointer (element : Ty)
  | function (args : List Ty) (ret : Ty) (varargs : Bool)
  | inst (node : InstanceNode) (tyargs : List Ty) (target : TyTarget)
  deriving Repr, Inhabited

namespace Ty

mutual

/-- Equality of two types as a program, for `DecidableEq`. -/
def beq : Ty → Ty → Bool
  | .unknown a, .unknown b => decide (a = b)
  | .void, .void => true
  | .bool, .bool => true
  | .integer, .integer => true
  | .float, .float => true
  | .string, .string => true
  | .tuple ss, .tuple ts => beqList ss ts
  | .array s, .array t => beq s t
  | .pointer s, .pointer t => beq s t
  | .function ss s v, .function ts t w => beqList ss ts && beq s t && decide (v = w)
  | .inst m ss d, .inst n ts e => decide (m = n) && beqList ss ts && decide (d = e)
  | _, _ => false

/-- `beq` on lists. -/
def beqList : List Ty → List Ty → Bool
  | [], [] => true
  | s :: ss, t :: ts => beq s t && beqList ss ts
  | _, _ => false

end

mutual

/-- The test for equality of types is right. It goes into the parts of both. -/
theorem beq_iff_eq : (s t : Ty) → (beq s t = true ↔ s = t)
  | .unknown _, t => by cases t <;> simp [beq]
  | .void, t => by cases t <;> simp [beq]
  | .bool, t => by cases t <;> simp [beq]
  | .integer, t => by cases t <;> simp [beq]
  | .float, t => by cases t <;> simp [beq]
  | .string, t => by cases t <;> simp [beq]
  | .tuple ss, t => by cases t <;> simp [beq, beqList_iff_eq ss]
  | .array s, t => by cases t <;> simp [beq, beq_iff_eq s]
  | .pointer s, t => by cases t <;> simp [beq, beq_iff_eq s]
  | .function ss s _, t => by
      cases t <;> simp [beq, beqList_iff_eq ss, beq_iff_eq s, and_assoc]
  | .inst _ ss _, t => by cases t <;> simp [beq, beqList_iff_eq ss, and_assoc]

/-- The same for lists of types. -/
theorem beqList_iff_eq : (ss ts : List Ty) → (beqList ss ts = true ↔ ss = ts)
  | [], ts => by cases ts <;> simp [beqList]
  | s :: ss, ts => by cases ts <;> simp [beqList, beq_iff_eq s, beqList_iff_eq ss]

end

instance : DecidableEq Ty := fun s t => decidable_of_iff _ (beq_iff_eq s t)

end Ty

/-! ### Comparing types -/

/-- `kind == KindUnknown`. -/
def Ty.isUnknown : Ty → Bool
  | .unknown _ => true
  | _ => false

mutual

/-- `typeEquals`: `typeUnify` with a null constraint pointer. Without
constraints two `Unknown`s are two types of the same kind with nothing below
them to compare, so they are equal whichever they are. -/
def typeEquals (lhs rhs : Ty) : Bool :=
  match lhs, rhs with
  | .tuple lt, .tuple rt => lt.length == rt.length && typeEqualsAll lt rt
  | .array la, .array ra => typeEquals la ra
  | .pointer lp, .pointer rp => typeEquals lp rp
  | .function la lr lv, .function ra rr rv =>
      la.length == ra.length && lv == rv && typeEqualsAll la ra && typeEquals lr rr
  | .inst _ la ld, .inst _ ra rd =>
      ld == rd && la.length == ra.length && typeEqualsAll la ra
  | .unknown _, .unknown _ | .void, .void | .bool, .bool | .integer, .integer
  | .float, .float | .string, .string => true
  | _, _ => false

/-- The element loops of `typeEquals`, entered after the sizes were compared. -/
def typeEqualsAll (ls rs : List Ty) : Bool :=
  match ls, rs with
  | l :: ls, r :: rs => typeEquals l r && typeEqualsAll ls rs
  | _, _ => true

end

mutual

/-- `typeOccurs`, asked about an `Unknown`: whether `rhs` is `lhs` or is below it. -/
def typeOccurs : Ty → UnknownId → Bool
  | .unknown a, rhs => a == rhs
  | .tuple lt, rhs => typeOccursAny lt rhs
  | .array la, rhs => typeOccurs la rhs
  | .pointer lp, rhs => typeOccurs lp rhs
  | .function la lr _, rhs => typeOccursAny la rhs || typeOccurs lr rhs
  | .inst _ la _, rhs => typeOccursAny la rhs
  | .void, _ | .bool, _ | .integer, _ | .float, _ | .string, _ => false

/-- The loops of `typeOccurs`. -/
def typeOccursAny : List Ty → UnknownId → Bool
  | [], _ => false
  | l :: ls, rhs => typeOccurs l rhs || typeOccursAny ls rhs

end

mutual

/-- `typeKnown`: no `Unknown` anywhere in the type. -/
def typeKnown : Ty → Bool
  | .unknown _ => false
  | .tuple tt => typeKnownAll tt
  | .array ta => typeKnown ta
  | .pointer tp => typeKnown tp
  | .function ta tr _ => typeKnownAll ta && typeKnown tr
  | .inst _ ta _ => typeKnownAll ta
  | .void | .bool | .integer | .float | .string => true

/-- The loops of `typeKnown`. -/
def typeKnownAll : List Ty → Bool
  | [] => true
  | t :: ts => typeKnown t && typeKnownAll ts

end

/-! ### Constraints -/

/-- `TypeConstraints`: the bindings of `Unknown`s found so far. `data` is the
hash map, newest binding first, and only grows: `tryAdd` writes the key of an
`Unknown` that has none. -/
structure TypeConstraints where
  data : List (UnknownId × Ty) := []
  rewrites : Nat := 0
  deriving DecidableEq, Repr

namespace TypeConstraints

/-- `data.find`. -/
def find (c : TypeConstraints) (u : UnknownId) : Option Ty := c.data.lookup u

/-- `data[u] = t`. -/
def insert (c : TypeConstraints) (u : UnknownId) (t : Ty) : TypeConstraints :=
  { c with data := (u, t) :: c.data }

/-- `tryAdd` on two `Unknown`s. -/
def tryAddUnknowns (c : TypeConstraints) (lhs rhs : UnknownId) : Bool × TypeConstraints :=
  match c.find lhs, c.find rhs with
  | none, none => (true, c.insert lhs (.unknown rhs))
  | none, some rt => if rt ≠ .unknown lhs then (true, c.insert lhs rt) else (false, c)
  | some lt, none => if lt ≠ .unknown rhs then (true, c.insert rhs lt) else (false, c)
  | some _, some _ => (false, c)

/-- `tryAdd` on an `Unknown` and a type of another kind. -/
def tryAddKnown (c : TypeConstraints) (lhs : UnknownId) (rhs : Ty) : Bool × TypeConstraints :=
  match c.find lhs with
  | some lt => (typeEquals lt rhs, c)
  | none => if typeOccurs rhs lhs then (false, c) else (true, c.insert lhs rhs)

/-- `TypeConstraints::tryAdd`. One of the two types is an `Unknown`: the last
case is the one the source excludes by an assertion, as it does `lhs == rhs`. -/
def tryAdd (c : TypeConstraints) (lhs rhs : Ty) : Bool × TypeConstraints :=
  match lhs, rhs with
  | .unknown l, .unknown r => c.tryAddUnknowns l r
  | .unknown l, rhs => c.tryAddKnown l rhs
  | lhs, .unknown r => c.tryAddKnown r lhs
  | _, _ => (false, c)

end TypeConstraints

mutual

/-- `typeUnify` with a constraint pointer: whether the types unify, and the
constraints after the walk. The walk stops at the first pair that does not. -/
def typeUnify (lhs rhs : Ty) (c : TypeConstraints) : Bool × TypeConstraints :=
  if lhs.isUnknown || rhs.isUnknown then
    if lhs = rhs then (true, c) else c.tryAdd lhs rhs
  else
    match lhs, rhs with
    | .tuple lt, .tuple rt =>
        if lt.length ≠ rt.length then (false, c) else typeUnifyAll lt rt c
    | .array la, .array ra => typeUnify la ra c
    | .pointer lp, .pointer rp => typeUnify lp rp c
    | .function la lr lv, .function ra rr rv =>
        if la.length ≠ ra.length then (false, c)
        else if lv ≠ rv then (false, c)
        else match typeUnifyAll la ra c with
          | (true, c) => typeUnify lr rr c
          | (false, c) => (false, c)
    | .inst _ la ld, .inst _ ra rd =>
        if ld ≠ rd then (false, c)
        else if la.length ≠ ra.length then (false, c)
        else typeUnifyAll la ra c
    | .void, .void | .bool, .bool | .integer, .integer | .float, .float
    | .string, .string => (true, c)
    | _, _ => (false, c)

/-- The element loops of `typeUnify`, entered after the sizes were compared. -/
def typeUnifyAll (ls rs : List Ty) (c : TypeConstraints) : Bool × TypeConstraints :=
  match ls, rs with
  | l :: ls, r :: rs =>
      match typeUnify l r c with
      | (true, c) => typeUnifyAll ls rs c
      | (false, c) => (false, c)
  | _, _ => (true, c)

end

/-! ### Rewriting

`TypeConstraints::rewrite` recurses into the type that an `Unknown` is bound to,
so its recursion does not follow the type it is given and need not end. It is
run on a number of nested calls (`fuel`), and answers `none` when they run out.
-/

mutual

/-- `TypeConstraints::rewrite`: the rewritten type, and the constraints with
`rewrites` raised once for every binding that was followed. An `Unknown` that is
bound to an `Unknown` is followed once. -/
def TypeConstraints.rewrite : Nat → TypeConstraints → Ty → Option (Ty × TypeConstraints)
  | 0, _, _ => none
  | fuel + 1, c, type =>
      match type with
      | .unknown u =>
          match c.find u with
          | some t => rewriteShape fuel { c with rewrites := c.rewrites + 1 } t
          | none => some (.unknown u, c)
      | type => rewriteShape fuel c type

/-- The part of `rewrite` after the lookup: a new node over rewritten parts. -/
def TypeConstraints.rewriteShape : Nat → TypeConstraints → Ty → Option (Ty × TypeConstraints)
  | 0, _, _ => none
  | fuel + 1, c, type =>
      match type with
      | .tuple fields => do
          let (fields, c) ← rewriteAll fuel c fields
          return (.tuple fields, c)
      | .array element => do
          let (element, c) ← rewrite fuel c element
          return (.array element, c)
      | .pointer element => do
          let (element, c) ← rewrite fuel c element
          return (.pointer element, c)
      | .function args ret varargs => do
          let (args, c) ← rewriteAll fuel c args
          let (ret, c) ← rewrite fuel c ret
          return (.function args ret varargs, c)
      | .inst node tyargs target => do
          let (tyargs, c) ← rewriteAll fuel c tyargs
          return (.inst node.renew tyargs target, c)
      | type => some (type, c)

/-- The loops of `rewrite`. -/
def TypeConstraints.rewriteAll :
    Nat → TypeConstraints → List Ty → Option (List Ty × TypeConstraints)
  | 0, _, _ => none
  | _ + 1, c, [] => some ([], c)
  | fuel + 1, c, t :: ts => do
      let (t, c) ← rewrite fuel c t
      let (ts, c) ← rewriteAll fuel c ts
      return (t :: ts, c)

end

/-! ### Instantiation -/

mutual

/-- `typeInstantiate`: every generic parameter that `inst` knows is replaced. -/
def typeInstantiate (inst : GenericId → Option Ty) : Ty → Ty
  | .tuple fields => .tuple (typeInstantiateAll inst fields)
  | .array element => .array (typeInstantiate inst element)
  | .pointer element => .pointer (typeInstantiate inst element)
  | .function args ret varargs =>
      .function (typeInstantiateAll inst args) (typeInstantiate inst ret) varargs
  | .inst node tyargs target => match target with
      | .generic g => (inst g).getD (.inst node tyargs (.generic g))
      | target => .inst node.renew (typeInstantiateAll inst tyargs) target
  | .unknown u => .unknown u
  | .void => .void
  | .bool => .bool
  | .integer => .integer
  | .float => .float
  | .string => .string

/-- The loops of `typeInstantiate`. -/
def typeInstantiateAll (inst : GenericId → Option Ty) : List Ty → List Ty
  | [] => []
  | t :: ts => typeInstantiate inst t :: typeInstantiateAll inst ts

end

/-! ### Names -/

mutual

/-- `typeName`. The result of a function is left out when it is `void`. -/
def typeName : Ty → Str
  | .unknown _ => "_".toList
  | .void => "void".toList
  | .bool => "bool".toList
  | .integer => "int".toList
  | .float => "float".toList
  | .string => "string".toList
  | .tuple fields => "(".toList ++ typeNames fields ++ ")".toList
  | .array element => "[".toList ++ typeName element ++ "]".toList
  | .pointer element => "*".toList ++ typeName element
  | .function args ret varargs =>
      let dots := if varargs then (if args.length ≠ 0 then ", ".toList else []) ++ "...".toList
        else []
      let result := match ret with
        | .void => []
        | ret => ": ".toList ++ typeName ret
      "fn(".toList ++ typeNames args ++ dots ++ ")".toList ++ result
  | .inst node tyargs _ =>
      node.name ++
        if tyargs.length > 0 then "<".toList ++ typeNames tyargs ++ ">".toList else []

/-- The names of some types, with a comma between them. -/
def typeNames : List Ty → Str
  | [] => []
  | [t] => typeName t
  | t :: ts => typeName t ++ ", ".toList ++ typeNames ts

end

end Aike
