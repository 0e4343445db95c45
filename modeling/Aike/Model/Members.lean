import Aike.Model.Store

/-!
# `Aike.Model.Members`: fields of structs and tuples

The model of `typeMember` in `compiler/type.cpp` and of `resolveMembers` in
`compiler/resolve.cpp`.
-/

set_option autoImplicit false

namespace Aike

/-- The type argument that an `Instance` of a struct gives to a type parameter. -/
def tyargOf (tyargs : List Generic) (args : List Ty) (g : GenericId) : Option Ty :=
  ((tyargs.zip args).find? fun p => p.1.id = g).map Prod.snd

/-- `typeMember`: the type of a field, with the type arguments put in. -/
def typeMember (program : Program) (store : Store) (type : Ty) (index : Int) :
    Except Fault Ty :=
  if index < 0 then .error .assertion
  else
    match type with
    | .tuple fields =>
        match fields[index.toNat]? with
        | some field => .ok field
        | none => .error .assertion
    | .inst _ tyargs (.struct d) =>
        match program.tyDef d with
        | none => .error .nullDefinition
        | some tydef =>
            match (store.fieldTypes d)[index.toNat]? with
            | none => .error .assertion
            | some field =>
                if tydef.tyargs.length ≠ tyargs.length then .error .arity
                else .ok (typeInstantiate (tyargOf tydef.tyargs tyargs) (field.view store.fills))
    | .inst _ _ _ => .error .nullDefinition
    | _ => .error .internalError

/-- The number that `strtoll` reads, when it reads the whole text and the number
is in range. What is read is the rest of an identifier, so it starts neither with
a blank nor with a sign. -/
def strtoll (text : Str) : Option Nat :=
  if text.all Char.isDigit then
    let value := text.foldl (fun n c => 10 * n + (c.toNat - '0'.toNat)) 0
    if value ≤ 0x7fffffffffffffff then some value else none
  else none

/-- `findMember`. The definition of an `Instance` is looked at whether there is one or
not. -/
def findMember (program : Program) (type : Ty) (name : Str) : Except Fault Int :=
  match type with
  | .inst _ _ (.struct d) =>
      match program.tyDef d with
      | some tydef =>
          match tydef.fields.findIdx? fun f => f.1.name = name with
          | some i => .ok i
          | none => .ok (-1)
      | none => .error .nullDefinition
  | .inst _ _ _ => .error .nullDefinition
  | .tuple fields =>
      match name with
      | '_' :: index =>
          match strtoll index with
          | some value => .ok (if value < fields.length then value else -1)
          | none => .ok (-1)
      | _ => .ok (-1)
  | _ => .ok (-1)

/-- What `resolveMembers` works on. -/
structure ResolveMembers where
  store : Store
  output : List Diagnostic := []
  counter : Nat := 0

/-- The error of `resolveFieldRef`. -/
def noMember (f : FieldRef) (ty : Ty) : Diagnostic :=
  ⟨f.location, "No member named '".toList ++ f.name ++ "' in ".toList ++ typeName ty⟩

/-- `resolveFieldRef`. -/
def resolveFieldRef (program : Program) (rs : ResolveMembers) (f : FieldRef) (ty : Ty) :
    Except Fault ResolveMembers :=
  if rs.store.fieldIndex f.id < 0 ∧ ty.isUnknown = false then
    match findMember program ty f.name with
    | .error fault => .error fault
    | .ok index =>
        let store := { rs.store with fieldIndex := update rs.store.fieldIndex f.id index }
        if index ≥ 0 then .ok { rs with store := store, counter := rs.counter + 1 }
        else .ok { rs with store := store, output := rs.output ++ [noMember f ty] }
  else .ok rs

/-- `resolveFieldRef`, on some fields of one object. -/
def resolveFieldRefs (program : Program) (ty : Ty) :
    ResolveMembers → List FieldRef → Except Fault ResolveMembers
  | rs, [] => .ok rs
  | rs, f :: fs =>
      match resolveFieldRef program rs f ty with
      | .ok rs => resolveFieldRefs program ty rs fs
      | .error fault => .error fault

/-- `resolveMembersNode`. The last case of a struct literal is the null pointer
that `type` never leaves on one. -/
def resolveMembersNode (program : Program) (rs : ResolveMembers) : Ast →
    Except Fault ResolveMembers
  | .member _ expr field =>
      match rs.store.astType expr.node.id with
      | some type => resolveFieldRefs program type rs [field]
      | none => .ok rs
  | .literalStruct n _ fields =>
      match rs.store.astType n.id with
      | some type => resolveFieldRefs program type rs (fields.map Prod.fst)
      | none => .ok rs
  | _ => .ok rs

/-- `resolveMembersNode`, on some nodes in turn. -/
def resolveMembersNodes (program : Program) :
    ResolveMembers → List Ast → Except Fault ResolveMembers
  | rs, [] => .ok rs
  | rs, node :: nodes =>
      match resolveMembersNode program rs node with
      | .ok rs => resolveMembersNodes program rs nodes
      | .error fault => .error fault

/-- `resolveMembers`: the number of fields that were found. -/
def resolveMembers (program : Program) (store : Store) (root : Ast) :
    Except Fault ResolveMembers :=
  resolveMembersNodes program { store := store } (visitAst root)

end Aike
