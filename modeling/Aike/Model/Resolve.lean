import Aike.Model.Store

/-!
# `Aike.Model.Resolve`: name resolution

The model of `resolveNames` in `compiler/resolve.cpp`. It gives every identifier
its targets, every `Instance` the declaration that it names, and every function
declaration its parent.
-/

set_option autoImplicit false

namespace Aike

/-! ### Scopes -/

/-- `NameMap`. A binding and the bindings it shadows are a list, so `data` gives
the bindings of a name, innermost first. An entry of the stack is a binding: its
name and what it shadows. -/
structure NameMap (α : Type) where
  data : Str → List α := fun _ => []
  stack : List (Str × List α) := []

namespace NameMap

variable {α : Type}

def find (m : NameMap α) (name : Str) : Option α := (m.data name).head?

def findAll (m : NameMap α) (name : Str) : List α := m.data name

def push (m : NameMap α) (name : Str) (value : α) : NameMap α where
  data := fun n => if n = name then value :: m.data name else m.data n
  stack := (name, m.data name) :: m.stack

/-- The loop of `pop`, on the stack. -/
def popTo (offset : Nat) (data : Str → List α) : List (Str × List α) → NameMap α
  | [] => ⟨data, []⟩
  | (name, shadow) :: stack =>
      if stack.length + 1 > offset then
        popTo offset (fun n => if n = name then shadow else data n) stack
      else ⟨data, (name, shadow) :: stack⟩

/-- The assertion that the stack is no shorter than the offset is left out here: it holds
for offsets that are nested (`NameOp.Nested.offset_le`). -/
def pop (m : NameMap α) (offset : Nat) : NameMap α := popTo offset m.data m.stack

def top (m : NameMap α) : Nat := m.stack.length

end NameMap

/-- `ResolveNames`, with the store it writes and the errors it reports. -/
structure ResolveNames where
  store : Store
  output : List Diagnostic := []
  vars : NameMap Variable := {}
  typedefs : NameMap DefId := {}
  generics : NameMap GenericId := {}
  functions : List NodeId := []
  module : Option Str := none

namespace ResolveNames

/-- `ResolveNames::State`. -/
structure State where
  vars : Nat
  typedefs : Nat
  generics : Nat

def top (rs : ResolveNames) : State := ⟨rs.vars.top, rs.typedefs.top, rs.generics.top⟩

def pop (rs : ResolveNames) (offset : State) : ResolveNames :=
  { rs with
    vars := rs.vars.pop offset.vars
    typedefs := rs.typedefs.pop offset.typedefs
    generics := rs.generics.pop offset.generics }

def pushVariable (rs : ResolveNames) (v : Variable) : ResolveNames :=
  { rs with vars := rs.vars.push v.name v }

def pushGeneric (rs : ResolveNames) (g : Generic) : ResolveNames :=
  { rs with generics := rs.generics.push g.name g.id }

def error (rs : ResolveNames) (location : Location) (message : Str) : ResolveNames :=
  { rs with output := rs.output ++ [⟨location, message⟩] }

/-- `resolveDecl`. -/
def resolveDecl (rs : ResolveNames) : Ast → ResolveNames
  | .fnDecl _ var _ _ _ _ => rs.pushVariable var
  | .tyDecl _ name d _ _ => { rs with typedefs := rs.typedefs.push name d }
  | _ => rs

/-- `resolveTypeInstance`: the declaration of a name, and the errors. -/
def resolveTypeInstance (rs : ResolveNames) (node : InstanceNode) :
    TyTarget → TyTarget × ResolveNames
  | .unresolved =>
      match rs.typedefs.find node.name with
      | some d => (.struct d, rs)
      | none =>
          match rs.generics.find node.name with
          | some g => (.generic g, rs)
          | none =>
              (.unresolved, rs.error node.location ("Unresolved type ".toList ++ node.name))
  | target => (target, rs)

mutual

/-- `resolveType`. A type is visited before its parts. -/
def resolveType (rs : ResolveNames) : Ty → Ty × ResolveNames
  | .tuple fields =>
      let (fields, rs) := resolveTypes rs fields
      (.tuple fields, rs)
  | .array element =>
      let (element, rs) := resolveType rs element
      (.array element, rs)
  | .pointer element =>
      let (element, rs) := resolveType rs element
      (.pointer element, rs)
  | .function args ret varargs =>
      let (args, rs) := resolveTypes rs args
      let (ret, rs) := resolveType rs ret
      (.function args ret varargs, rs)
  | .inst node tyargs target =>
      let (target, rs) := rs.resolveTypeInstance node target
      let (tyargs, rs) := resolveTypes rs tyargs
      (.inst node tyargs target, rs)
  | .unknown u => (.unknown u, rs)
  | .void => (.void, rs)
  | .bool => (.bool, rs)
  | .integer => (.integer, rs)
  | .float => (.float, rs)
  | .string => (.string, rs)

/-- `resolveType`, on a list. -/
def resolveTypes (rs : ResolveNames) : List Ty → List Ty × ResolveNames
  | [] => ([], rs)
  | t :: ts =>
      let (t, rs) := resolveType rs t
      let (ts, rs) := resolveTypes rs ts
      (t :: ts, rs)

end

/-- `resolveType` on the type of a node that has one. -/
def resolveNodeType (rs : ResolveNames) (n : NodeId) : ResolveNames :=
  match rs.store.nodeType n with
  | none => rs
  | some t =>
      let (t, rs) := rs.resolveType t
      { rs with store := { rs.store with nodeType := update rs.store.nodeType n (some t) } }

/-- `resolveType` on the type of a variable. -/
def resolveVarType (rs : ResolveNames) (v : VarId) : ResolveNames :=
  let (t, rs) := rs.resolveType (rs.store.varType v)
  { rs with store := { rs.store with varType := update rs.store.varType v t } }

/-- `resolveType` on the type arguments of an identifier. -/
def resolveIdentTyargs (rs : ResolveNames) (n : NodeId) : ResolveNames :=
  let (ts, rs) := rs.resolveTypes (rs.store.identTyargs n)
  { rs with store := { rs.store with identTyargs := update rs.store.identTyargs n ts } }

/-- `resolveType` on the types of the fields of a struct. -/
def resolveFieldTypes (rs : ResolveNames) (d : DefId) : ResolveNames :=
  let (ts, rs) := rs.resolveTypes (rs.store.fieldTypes d)
  { rs with store := { rs.store with fieldTypes := update rs.store.fieldTypes d ts } }

/-- `resolveType` on the type of a function. The types of its arguments are the
parameter types themselves, so they are resolved with it. -/
def resolveFnType (rs : ResolveNames) (var : Variable) (args : List Variable) : ResolveNames :=
  let rs := rs.resolveVarType var.id
  match rs.store.varType var.id with
  | .function params _ _ =>
      { rs with
        store :=
          { rs.store with
            varType := (args.zip params).foldl (fun f p => update f p.1.id p.2)
              rs.store.varType } }
  | _ => rs

/-- `resolveBindings`: the innermost binding when it is no function, and else all
the functions. -/
def resolveBindings (targets : List Variable) : List Variable :=
  match targets with
  | [] => []
  | v :: targets =>
      if v.kind ≠ .function then [v]
      else (v :: targets).filter fun v => v.kind = .function

/-- `resolveNamesNode` on an identifier. -/
def resolveIdent (rs : ResolveNames) (n : Node) (name : Str) : ResolveNames :=
  let targets := resolveBindings (rs.vars.findAll name)
  let rs := { rs with store := { rs.store with targets := update rs.store.targets n.id targets } }
  if targets.length = 0 then rs.error n.location ("Unresolved identifier ".toList ++ name) else rs

/-- `resolveImport`: the declarations at the top of a module. The last case is
the one that the source excludes by assertions. -/
def resolveImport (rs : ResolveNames) (lookup : Str → Option Ast) (name : Str) :
    Except Fault ResolveNames :=
  match lookup name with
  | some (.module _ _ (.block _ body) _) => .ok (body.foldl resolveDecl rs)
  | _ => .error .assertion

/-- The imports of a module, in order. -/
def resolveImports (rs : ResolveNames) (lookup : Str → Option Ast) :
    List Str → Except Fault ResolveNames
  | [] => .ok rs
  | name :: names => do
      let rs ← rs.resolveImport lookup name
      resolveImports rs lookup names

/-- What a function declaration does before its body is visited. -/
def enterFnDecl (rs : ResolveNames) (n : Node) (var : Variable) (tyargs : List Generic)
    (args : List Variable) : ResolveNames :=
  let store :=
    { rs.store with
      parent := update rs.store.parent n.id rs.functions.head?
      moduleName := update rs.store.moduleName n.id rs.module }
  let rs := { rs with store := store }
  let rs := tyargs.foldl pushGeneric rs
  (rs.resolveNodeType n.id).resolveFnType var args

mutual

/-- `resolveNamesNode`, and the visit of the children where it declines. -/
def resolveNamesNode (lookup : Str → Option Ast) (rs : ResolveNames) :
    Ast → Except Fault ResolveNames
  | .ident n name => .ok (((rs.resolveNodeType n.id).resolveIdentTyargs n.id).resolveIdent n name)
  | .block n body => do
      let rs := rs.resolveNodeType n.id
      let scope := rs.top
      let rs := body.foldl resolveDecl rs
      let rs ← resolveNamesAll lookup rs body
      return rs.pop scope
  | .module n name body autoimports => do
      let rs := rs.resolveNodeType n.id
      if rs.module.isSome then throw .assertion
      let rs ← { rs with module := some name }.resolveImports lookup autoimports
      resolveNamesNode lookup rs body
  | .forIn n var index expr body => do
      let rs := (rs.resolveNodeType n.id).resolveVarType var.id
      let rs := match index with
        | some index => rs.resolveVarType index.id
        | none => rs
      let scope := rs.top
      let rs ← resolveNamesNode lookup rs expr
      let rs := rs.pushVariable var
      let rs := match index with
        | some index => rs.pushVariable index
        | none => rs
      let rs ← resolveNamesNode lookup rs body
      return rs.pop scope
  | .fnDecl n var tyargs args _ body => do
      let scope := rs.top
      let rs := rs.enterFnDecl n var tyargs args
      let rs ← match body with
        | some body => do
            let rs := args.foldl pushVariable rs
            let functions := rs.functions
            let rs ← resolveNamesNode lookup { rs with functions := n.id :: functions } body
            pure { rs with functions := functions }
        | none => pure rs
      return rs.pop scope
  | .tyDecl n _ d tyargs fields => do
      let scope := rs.top
      let rs := tyargs.foldl pushGeneric rs
      let rs := (rs.resolveNodeType n.id).resolveFieldTypes d
      let rs ← resolveNamesDefaults lookup rs fields
      return rs.pop scope
  | .varDecl n var expr => do
      let rs := (rs.resolveNodeType n.id).resolveVarType var.id
      let rs ← resolveNamesNode lookup rs expr
      return rs.pushVariable var
  | .import n name => (rs.resolveNodeType n.id).resolveImport lookup name
  | .literalTuple n fields => resolveNamesAll lookup (rs.resolveNodeType n.id) fields
  | .literalArray n elements => resolveNamesAll lookup (rs.resolveNodeType n.id) elements
  | .literalStruct n _ fields => resolveNamesFields lookup (rs.resolveNodeType n.id) fields
  | .member n expr _ => resolveNamesNode lookup (rs.resolveNodeType n.id) expr
  | .call n expr args => do
      let rs ← resolveNamesNode lookup (rs.resolveNodeType n.id) expr
      resolveNamesAll lookup rs args
  | .unary n _ expr => resolveNamesNode lookup (rs.resolveNodeType n.id) expr
  | .binary n _ left right => do
      let rs ← resolveNamesNode lookup (rs.resolveNodeType n.id) left
      resolveNamesNode lookup rs right
  | .index n expr idx => do
      let rs ← resolveNamesNode lookup (rs.resolveNodeType n.id) expr
      resolveNamesNode lookup rs idx
  | .assign n left right => do
      let rs ← resolveNamesNode lookup (rs.resolveNodeType n.id) left
      resolveNamesNode lookup rs right
  | .ifThen n cond thenbody => do
      let rs ← resolveNamesNode lookup (rs.resolveNodeType n.id) cond
      resolveNamesNode lookup rs thenbody
  | .ifElse n cond thenbody elsebody => do
      let rs ← resolveNamesNode lookup (rs.resolveNodeType n.id) cond
      let rs ← resolveNamesNode lookup rs thenbody
      resolveNamesNode lookup rs elsebody
  | .while n expr body => do
      let rs ← resolveNamesNode lookup (rs.resolveNodeType n.id) expr
      resolveNamesNode lookup rs body
  | .fn n _ decl => resolveNamesNode lookup (rs.resolveNodeType n.id) decl
  | .literalVoid n | .literalBool n _ | .literalInteger n _ | .literalFloat n _
  | .literalString n _ | .llvm n _ => .ok (rs.resolveNodeType n.id)

/-- `resolveNamesNode` on every tree of a list. -/
def resolveNamesAll (lookup : Str → Option Ast) (rs : ResolveNames) :
    List Ast → Except Fault ResolveNames
  | [] => .ok rs
  | c :: cs => do
      let rs ← resolveNamesNode lookup rs c
      resolveNamesAll lookup rs cs

/-- `resolveNamesNode` on the initializers of a struct literal. -/
def resolveNamesFields (lookup : Str → Option Ast) (rs : ResolveNames) :
    List (FieldRef × Ast) → Except Fault ResolveNames
  | [] => .ok rs
  | c :: cs => do
      let rs ← resolveNamesNode lookup rs c.2
      resolveNamesFields lookup rs cs

/-- `resolveNamesNode` on a default initializer, if there is one. -/
def resolveNamesOption (lookup : Str → Option Ast) (rs : ResolveNames) :
    Option Ast → Except Fault ResolveNames
  | none => .ok rs
  | some c => resolveNamesNode lookup rs c

/-- `resolveNamesNode` on the default initializers of a struct. -/
def resolveNamesDefaults (lookup : Str → Option Ast) (rs : ResolveNames) :
    List (FieldDecl × Option Ast) → Except Fault ResolveNames
  | [] => .ok rs
  | c :: cs => do
      let rs ← resolveNamesOption lookup rs c.2
      resolveNamesDefaults lookup rs cs

end

end ResolveNames

/-- `resolveNames` on a module. The resolver is the modules compiled before. -/
def resolveNames (lookup : Str → Option Ast) (store : Store) (root : Ast) :
    Except Fault (Store × List Diagnostic) := do
  let rs ← ResolveNames.resolveNamesNode lookup { store := store } root
  return (rs.store, rs.output)

end Aike
