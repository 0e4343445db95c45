import Aike.Model.Type

/-!
# `Aike.Model.Ast`: syntax trees and what the passes write on them

The model of `compiler/ast.hpp` and `compiler/visit.cpp`.

The parser allocates the tree, and the later passes write on it through
pointers: the type of a node, the targets of an identifier, the index of a
field. An `Ast` here is the part that the parser fixes. Every node carries its
identity (`Node.id`), and what the passes write is in a `Store`, keyed by that
identity: `n->type` is `store.nodeType n.id`. A `Variable*` is treated alike,
with its type in the store.

A pointer from an identifier to the declaration of a function, or from an
`Instance` to the definition of a struct, leaves the tree it is in. `Program`
resolves both.

Absent from the tree is the kind `Common`, which no node has.
-/

set_option autoImplicit false

namespace Aike

/-- The identity of an `Ast` node. -/
abbrev NodeId := Nat

/-- The identity of a `Variable`. -/
abbrev VarId := Nat

/-- The identity of a `FieldRef`. -/
abbrev FieldId := Nat

/-- `Variable::Kind`. -/
inductive VariableKind
  | variable
  | function
  | argument
  | value
  deriving DecidableEq, Repr, Inhabited

/-- `Variable`, without its type, which is in the store. `fn` is the node of the
function declaration that the variable names. -/
structure Variable where
  id : VarId
  kind : VariableKind
  name : Str
  location : Location := {}
  fn : Option NodeId := none
  deriving DecidableEq, Repr, Inhabited

/-- The node of a declared type parameter, `Ty::Generic`. -/
structure Generic where
  id : GenericId
  name : Str
  location : Location := {}
  deriving DecidableEq, Repr, Inhabited

/-- The bits of `FnAttribute`. -/
structure FnAttributes where
  extern_ : Bool := false
  builtin : Bool := false
  inline_ : Bool := false
  deriving DecidableEq, Repr, Inhabited

/-- `UnaryOp`. -/
inductive UnaryOp
  | plus
  | minus
  | not
  | deref
  | new
  deriving DecidableEq, Repr, Inhabited

/-- `BinaryOp`. -/
inductive BinaryOp
  | addWrap
  | subtractWrap
  | multiplyWrap
  | add
  | subtract
  | multiply
  | divide
  | modulo
  | less
  | lessEqual
  | greater
  | greaterEqual
  | equal
  | notEqual
  | and
  | or
  deriving DecidableEq, Repr, Inhabited

/-- `FieldRef`, without the index, which is in the store. -/
structure FieldRef where
  id : FieldId
  name : Str
  location : Location := {}
  deriving DecidableEq, Repr, Inhabited

/-- The written part of a `StructField`. Its type is in the store. -/
structure FieldDecl where
  name : Str
  location : Location := {}
  deriving DecidableEq, Repr, Inhabited

/-- What every node has: its identity and its location. -/
structure Node where
  id : NodeId
  location : Location := {}
  deriving DecidableEq, Repr, Inhabited

/-- `Ast`. A float literal holds the bits of its `double`. -/
inductive Ast
  | literalVoid (n : Node)
  | literalBool (n : Node) (value : Bool)
  | literalInteger (n : Node) (value : Int)
  | literalFloat (n : Node) (value : BitVec 64)
  | literalString (n : Node) (value : Str)
  | literalTuple (n : Node) (fields : List Ast)
  | literalArray (n : Node) (elements : List Ast)
  | literalStruct (n : Node) (name : Str) (fields : List (FieldRef × Ast))
  | ident (n : Node) (name : Str)
  | member (n : Node) (expr : Ast) (field : FieldRef)
  | block (n : Node) (body : List Ast)
  | module (n : Node) (name : Str) (body : Ast) (autoimports : List Str)
  | call (n : Node) (expr : Ast) (args : List Ast)
  | unary (n : Node) (op : UnaryOp) (expr : Ast)
  | binary (n : Node) (op : BinaryOp) (left right : Ast)
  | index (n : Node) (expr idx : Ast)
  | assign (n : Node) (left right : Ast)
  | ifThen (n : Node) (cond thenbody : Ast)
  | ifElse (n : Node) (cond thenbody elsebody : Ast)
  | forIn (n : Node) (var : Variable) (index : Option Variable) (expr body : Ast)
  | while (n : Node) (expr body : Ast)
  | fn (n : Node) (id : Int) (decl : Ast)
  | llvm (n : Node) (code : Str)
  | fnDecl (n : Node) (var : Variable) (tyargs : List Generic) (args : List Variable)
      (attributes : FnAttributes) (body : Option Ast)
  | varDecl (n : Node) (var : Variable) (expr : Ast)
  | tyDecl (n : Node) (name : Str) (id : DefId) (tyargs : List Generic)
      (fields : List (FieldDecl × Option Ast))
  | import (n : Node) (name : Str)
  deriving Repr, Inhabited

namespace Ast

/-- The node of a tree's root. -/
def node : Ast → Node
  | .literalVoid n | .literalBool n _ | .literalInteger n _ | .literalFloat n _
  | .literalString n _ | .literalTuple n _ | .literalArray n _ | .literalStruct n _ _
  | .ident n _ | .member n _ _ | .block n _ | .module n _ _ _ | .call n _ _ | .unary n _ _
  | .binary n _ _ _ | .index n _ _ | .assign n _ _ | .ifThen n _ _ | .ifElse n _ _ _
  | .forIn n _ _ _ _ | .while n _ _ | .fn n _ _ | .llvm n _ | .fnDecl n _ _ _ _ _
  | .varDecl n _ _ | .tyDecl n _ _ _ _ | .import n _ => n

end Ast

/-! ### Visiting -/

mutual

/-- The nodes that `visitAst` visits, in order, when the callback declines none
of them. -/
def visitAst : Ast → List Ast
  | root@(.literalTuple _ fields) => root :: visitAstAll fields
  | root@(.literalArray _ elements) => root :: visitAstAll elements
  | root@(.literalStruct _ _ fields) => root :: visitAstFields fields
  | root@(.member _ expr _) => root :: visitAst expr
  | root@(.block _ body) => root :: visitAstAll body
  | root@(.module _ _ body _) => root :: visitAst body
  | root@(.call _ expr args) => root :: (visitAst expr ++ visitAstAll args)
  | root@(.unary _ _ expr) => root :: visitAst expr
  | root@(.binary _ _ left right) => root :: (visitAst left ++ visitAst right)
  | root@(.index _ expr idx) => root :: (visitAst expr ++ visitAst idx)
  | root@(.assign _ left right) => root :: (visitAst left ++ visitAst right)
  | root@(.ifThen _ cond thenbody) => root :: (visitAst cond ++ visitAst thenbody)
  | root@(.ifElse _ cond thenbody elsebody) =>
      root :: (visitAst cond ++ visitAst thenbody ++ visitAst elsebody)
  | root@(.forIn _ _ _ expr body) => root :: (visitAst expr ++ visitAst body)
  | root@(.while _ expr body) => root :: (visitAst expr ++ visitAst body)
  | root@(.fnDecl _ _ _ _ _ body) => root :: visitAstOption body
  | root@(.fn _ _ decl) => root :: visitAst decl
  | root@(.varDecl _ _ expr) => root :: visitAst expr
  | root@(.tyDecl _ _ _ _ fields) => root :: visitAstDefaults fields
  | root@(.literalVoid _) | root@(.literalBool _ _) | root@(.literalInteger _ _)
  | root@(.literalFloat _ _) | root@(.literalString _ _) | root@(.ident _ _)
  | root@(.llvm _ _) | root@(.import _ _) => [root]

/-- `visitAst` on every tree of a list. -/
def visitAstAll : List Ast → List Ast
  | [] => []
  | c :: cs => visitAst c ++ visitAstAll cs

/-- `visitAst` on the initializers of a struct literal. -/
def visitAstFields : List (FieldRef × Ast) → List Ast
  | [] => []
  | c :: cs => visitAst c.2 ++ visitAstFields cs

/-- `visitAst` on the body of a function, if there is one. -/
def visitAstOption : Option Ast → List Ast
  | none => []
  | some c => visitAst c

/-- `visitAst` on the default initializers of a struct. -/
def visitAstDefaults : List (FieldDecl × Option Ast) → List Ast
  | [] => []
  | c :: cs => visitAstOption c.2 ++ visitAstDefaults cs

end

/-- `Ast::FnDecl`, without `parent` and `module`, which are in the store. -/
structure FnDecl where
  node : Node
  var : Variable
  tyargs : List Generic
  args : List Variable
  attributes : FnAttributes
  body : Option Ast
  deriving Inhabited

/-- `TyDef::Struct`, without the types of its fields, which are in the store. -/
structure TyDef where
  tyargs : List Generic
  fields : List (FieldDecl × Option Ast)
  deriving Inhabited

/-- The declarations that pointers lead to from anywhere. -/
structure Program where
  fnDecl : NodeId → Option FnDecl := fun _ => none
  tyDef : DefId → Option TyDef := fun _ => none

/-- The declaration of a function at a node. -/
def Ast.fnDecl? (id : NodeId) : Ast → Option FnDecl
  | .fnDecl n var tyargs args attributes body =>
      if n.id = id then some ⟨n, var, tyargs, args, attributes, body⟩ else none
  | _ => none

/-- The definition of a struct at a node. -/
def Ast.tyDef? (id : DefId) : Ast → Option TyDef
  | .tyDecl _ _ d tyargs fields => if d = id then some ⟨tyargs, fields⟩ else none
  | _ => none

/-- The declarations in the trees of some modules. -/
def Program.ofModules (modules : List Ast) : Program where
  fnDecl id := (visitAstAll modules).findSome? (Ast.fnDecl? id)
  tyDef id := (visitAstAll modules).findSome? (Ast.tyDef? id)

end Aike
