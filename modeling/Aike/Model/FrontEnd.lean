import Aike.Model.Modules
import Aike.Model.Parse

/-!
# `Aike.Model.FrontEnd`: from source files to modules

The model of `parseModule` and of the part of `compileModules` in
`compiler/compiler.cpp` that reads the files, up to `moduleSort`.

`parse` returns a `Tree`, and the passes work on an `Ast` whose nodes have
identities, with the written types in a `Store`. `Tree.allocate` gives out the
identities. A type that two variables or two fields point at is given its
identities once.
-/

set_option autoImplicit false

namespace Aike

/-! ### Identities -/

/-- The store, and the next identity of each kind. -/
structure Allocation where
  store : Store := {}
  nextNode : NodeId := 0
  nextVar : VarId := 0
  nextField : FieldId := 0
  nextGeneric : GenericId := 0
  nextDef : DefId := 0

/-- A step that gives out identities. -/
abbrev AllocateM := StateM Allocation

namespace Allocation

/-- A new node. -/
def newNode (location : Location) : AllocateM Node := fun s =>
  (⟨s.nextNode, location⟩, { s with nextNode := s.nextNode + 1 })

/-- A new variable, with its type. -/
def newVariable (var : VarTree) (type : Ty) (fn : Option NodeId) : AllocateM Variable := fun s =>
  (⟨s.nextVar, var.kind, var.name, var.location, fn⟩,
    { s with nextVar := s.nextVar + 1, store := s.store.setVarType s.nextVar type })

/-- A new `FieldRef`. -/
def newFieldRef (field : Named) : AllocateM FieldRef := fun s =>
  (⟨s.nextField, field.name, field.location⟩, { s with nextField := s.nextField + 1 })

/-- A new `Generic`. -/
def newGeneric (name : Named) : AllocateM Generic := fun s =>
  (⟨s.nextGeneric, name.name, name.location⟩, { s with nextGeneric := s.nextGeneric + 1 })

/-- A new `TyDef`, with the types of its fields. -/
def newDef (types : List Ty) : AllocateM DefId := fun s =>
  (s.nextDef,
    { s with
      nextDef := s.nextDef + 1
      store := { s.store with fieldTypes := update s.store.fieldTypes s.nextDef types } })

/-- A new `Unknown`. -/
def newUnknown : AllocateM Ty := fun s =>
  (.unknown s.store.nextUnknown,
    { s with store := { s.store with nextUnknown := s.store.nextUnknown + 1 } })

/-- A new `Instance`. -/
def newInstance (name : Named) (tyargs : List Ty) : AllocateM Ty := fun s =>
  (.inst ⟨name.name, name.location, s.store.nextAddr⟩ tyargs .unresolved,
    { s with store := { s.store with nextAddr := s.store.nextAddr + 1 } })

/-- A step on the store. -/
def onStore (f : Store → Store) : AllocateM Unit := fun s => ((), { s with store := f s.store })

end Allocation

open Allocation

mutual

/-- The type that a `TyTree` stands for. -/
def TyTree.allocate : TyTree → AllocateM Ty
  | .unknown => newUnknown
  | .void => return .void
  | .bool => return .bool
  | .integer => return .integer
  | .float => return .float
  | .string => return .string
  | .tuple fields => do return .tuple (← allocateAll fields)
  | .array element => do return .array (← allocate element)
  | .pointer element => do return .pointer (← allocate element)
  | .function args ret varargs => do
      let args ← allocateAll args
      let ret ← allocate ret
      return .function args ret varargs
  | .inst name tyargs => do
      let tyargs ← allocateAll tyargs
      newInstance name tyargs

/-- `TyTree.allocate`, on a list. -/
def TyTree.allocateAll : List TyTree → AllocateM (List Ty)
  | [] => return []
  | t :: ts => do
      let t ← allocate t
      let ts ← allocateAll ts
      return t :: ts

end

/-- The arguments of a function, and their types. -/
def allocateArguments : List VarTree → AllocateM (List (Variable × Ty))
  | [] => return []
  | arg :: args => do
      let type ← arg.type.allocate
      let var ← newVariable arg type none
      let rest ← allocateArguments args
      return (var, type) :: rest

/-- The type of a function whose arguments have these types. -/
def allocateSignature (types : List Ty) : TyTree → AllocateM Ty
  | .function _ ret varargs => do return .function types (← ret.allocate) varargs
  | type => type.allocate

/-- A variable, with a type of its own. -/
def VarTree.allocate (var : VarTree) : AllocateM Variable := do
  newVariable var (← var.type.allocate) none

mutual

/-- The `Ast` that a `Tree` stands for. -/
def Tree.allocate : Tree → AllocateM Ast
  | .literalVoid location => do return .literalVoid (← newNode location)
  | .literalBool location value => do return .literalBool (← newNode location) value
  | .literalInteger location value => do return .literalInteger (← newNode location) value
  | .literalFloat location value => do return .literalFloat (← newNode location) value
  | .literalString location value => do return .literalString (← newNode location) value
  | .literalTuple location fields => do
      return .literalTuple (← newNode location) (← allocateAll fields)
  | .literalArray location elements => do
      return .literalArray (← newNode location) (← allocateAll elements)
  | .literalStruct location type name fields => do
      let n ← newNode location
      match type with
      | some type => do
          let type ← type.allocate
          onStore fun store => store.setNodeType n.id type
      | none => pure ()
      return .literalStruct n name (← allocateFields fields)
  | .ident location name tyargs => do
      let n ← newNode location
      let tyargs ← TyTree.allocateAll tyargs
      onStore fun store => store.setIdentTyargs n.id tyargs
      return .ident n name
  | .member location expr field => do
      return .member (← newNode location) (← allocate expr) (← newFieldRef field)
  | .block location body => do return .block (← newNode location) (← allocateAll body)
  | .module location name body autoimports => do
      return .module (← newNode location) name (← allocate body) autoimports
  | .call location expr args => do
      return .call (← newNode location) (← allocate expr) (← allocateAll args)
  | .unary location op expr => do return .unary (← newNode location) op (← allocate expr)
  | .binary location op left right => do
      return .binary (← newNode location) op (← allocate left) (← allocate right)
  | .index location expr idx => do
      return .index (← newNode location) (← allocate expr) (← allocate idx)
  | .assign location left right => do
      return .assign (← newNode location) (← allocate left) (← allocate right)
  | .ifThen location cond thenbody => do
      return .ifThen (← newNode location) (← allocate cond) (← allocate thenbody)
  | .ifElse location cond thenbody elsebody => do
      return .ifElse (← newNode location) (← allocate cond) (← allocate thenbody)
        (← allocate elsebody)
  | .forIn location var idx expr body => do
      let n ← newNode location
      let var ← var.allocate
      let idx ← idx.mapM VarTree.allocate
      return .forIn n var idx (← allocate expr) (← allocate body)
  | .while location expr body => do
      return .while (← newNode location) (← allocate expr) (← allocate body)
  | .fn location id decl => do return .fn (← newNode location) id (← allocate decl)
  | .llvm location code => do return .llvm (← newNode location) code
  | .fnDecl location var tyargs args attributes body => do
      let n ← newNode location
      let tyargs ← tyargs.mapM newGeneric
      let args ← allocateArguments args
      let type ← allocateSignature (args.map Prod.snd) var.type
      -- only a function with a name has a variable that leads back to it
      let var ← newVariable var type (if var.name = [] then none else some n.id)
      return .fnDecl n var tyargs (args.map Prod.fst) attributes (← allocateOption body)
  | .varDecl location var expr => do
      return .varDecl (← newNode location) (← var.allocate) (← allocate expr)
  | .tyDecl location name tyargs fields => do
      let n ← newNode location
      let tyargs ← tyargs.mapM newGeneric
      let fields ← allocateGroups fields
      let d ← newDef (fields.map Prod.snd)
      return .tyDecl n name d tyargs (fields.map Prod.fst)
  | .import location name => do return .import (← newNode location) name

/-- `Tree.allocate`, on a list. -/
def Tree.allocateAll : List Tree → AllocateM (List Ast)
  | [] => return []
  | t :: ts => do
      let t ← allocate t
      let ts ← allocateAll ts
      return t :: ts

/-- `Tree.allocate`, on the initializers of a struct literal. -/
def Tree.allocateFields : List (Named × Tree) → AllocateM (List (FieldRef × Ast))
  | [] => return []
  | (field, t) :: ts => do
      let field ← newFieldRef field
      let t ← allocate t
      let ts ← allocateFields ts
      return (field, t) :: ts

/-- `Tree.allocate`, on a tree that may be absent. -/
def Tree.allocateOption : Option Tree → AllocateM (Option Ast)
  | none => return none
  | some t => do return some (← allocate t)

/-- The fields of a struct with their types. The names of a line share the type
and the default. -/
def Tree.allocateGroups :
    List (List Named × TyTree × Option Tree) → AllocateM (List ((FieldDecl × Option Ast) × Ty))
  | [] => return []
  | (names, type, expr) :: groups => do
      let type ← type.allocate
      let expr ← allocateOption expr
      let rest ← allocateGroups groups
      return names.map (fun name => ((⟨name.name, name.location⟩, expr), type)) ++ rest

end

/-! ### Files -/

/-- A file that `compileModules` reads: its path, the name of its module and its
contents. -/
structure SourceFile where
  path : Str
  name : Str
  contents : Str

/-- `Output`, with the text of a file in `sources`. A diagnostic of `parseModule` is
about the file that is parsed, so the texts of the others do not matter. -/
def Output.ofFile (file : SourceFile) : Output where
  sources path := if path = file.path then some file.contents else none

/-- `parseModule`. -/
def parseModule (file : SourceFile) : Except Stop Tree := do
  let tokens ← tokenize (.ofFile file) file.path file.contents
  parseNamed (.ofFile file) tokens file.name

/-- `m->autoimports.push`, of the module that every other module imports. -/
def Tree.addPrelude (disablePrelude : Bool) : Tree → Tree
  | .module location name body autoimports =>
      .module location name body
        (if disablePrelude ∨ name = "std.prelude".toList then autoimports
          else autoimports ++ ["std.prelude".toList])
  | root => root

/-- The loop of `compileModules` that parses the files. -/
def parseModules (disablePrelude : Bool) : List SourceFile → Except Stop (List Tree)
  | [] => return []
  | file :: files => do
      let root ← parseModule file
      let roots ← parseModules disablePrelude files
      return root.addPrelude disablePrelude :: roots

/-- The modules of a program, with the store that their trees are written in. -/
def allocateModules (roots : List Tree) : List Ast × Allocation := (Tree.allocateAll roots).run {}

/-- `compileModules` up to the order of the modules. -/
def sortModules (fuel : Nat) (iteration : ModuleMap → ModuleMap) (roots : List Tree) :
    Except Fault (List Nat × List Diagnostic) :=
  moduleSort fuel iteration (allocateModules roots).1

end Aike
