import Aike.Model.Ast

/-!
# `Aike.Model.Tree`: syntax trees as the parser builds them

The model of `compiler/ast.hpp` and `compiler/type.hpp` as far as `parse` fills
them in: a tree with the written types in it, before any pass writes on it. Every
node that the parser allocates is one place of the tree, so it has no identity of
its own here. `Aike.Model.FrontEnd` gives out the identities.

The names that share one type in a struct declaration share its node, and that of
the default, so a `Tree.tyDecl` keeps them together.
-/

set_option autoImplicit false

namespace Aike

/-- A name and where it is written. -/
structure Named where
  name : Str
  location : Location := {}
  deriving DecidableEq, Repr, Inhabited

/-- A `Ty` that `parseType` builds. -/
inductive TyTree
  | unknown
  | void
  | bool
  | integer
  | float
  | string
  | tuple (fields : List TyTree)
  | array (element : TyTree)
  | pointer (element : TyTree)
  | function (args : List TyTree) (ret : TyTree) (varargs : Bool)
  | inst (name : Named) (tyargs : List TyTree)
  deriving Repr, Inhabited

/-- A `Variable` that the parser builds. -/
structure VarTree where
  kind : VariableKind
  name : Str
  type : TyTree
  location : Location := {}
  deriving Repr, Inhabited

/-- An `Ast` that the parser builds. `tyDecl` holds the fields of a struct, line
by line: the names, their type and their default. -/
inductive Tree
  | literalVoid (location : Location)
  | literalBool (location : Location) (value : Bool)
  | literalInteger (location : Location) (value : Int)
  | literalFloat (location : Location) (value : BitVec 64)
  | literalString (location : Location) (value : Str)
  | literalTuple (location : Location) (fields : List Tree)
  | literalArray (location : Location) (elements : List Tree)
  | literalStruct (location : Location) (type : Option TyTree) (name : Str)
      (fields : List (Named × Tree))
  | ident (location : Location) (name : Str) (tyargs : List TyTree)
  | member (location : Location) (expr : Tree) (field : Named)
  | block (location : Location) (body : List Tree)
  | module (location : Location) (name : Str) (body : Tree) (autoimports : List Str)
  | call (location : Location) (expr : Tree) (args : List Tree)
  | unary (location : Location) (op : UnaryOp) (expr : Tree)
  | binary (location : Location) (op : BinaryOp) (left right : Tree)
  | index (location : Location) (expr idx : Tree)
  | assign (location : Location) (left right : Tree)
  | ifThen (location : Location) (cond thenbody : Tree)
  | ifElse (location : Location) (cond thenbody elsebody : Tree)
  | forIn (location : Location) (var : VarTree) (index : Option VarTree) (expr body : Tree)
  | while (location : Location) (expr body : Tree)
  | fn (location : Location) (id : Int) (decl : Tree)
  | llvm (location : Location) (code : Str)
  | fnDecl (location : Location) (var : VarTree) (tyargs : List Named) (args : List VarTree)
      (attributes : FnAttributes) (body : Option Tree)
  | varDecl (location : Location) (var : VarTree) (expr : Tree)
  | tyDecl (location : Location) (name : Str) (tyargs : List Named)
      (fields : List (List Named × TyTree × Option Tree))
  | import (location : Location) (name : Str)
  deriving Repr, Inhabited

end Aike
