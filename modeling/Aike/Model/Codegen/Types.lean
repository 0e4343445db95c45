import Aike.Model.Codegen.State

/-!
# `Aike.Model.Codegen.Types`: types in the emitted code

The model of `codegenType` and `codegenTypeInfo` in `compiler/codegen.cpp`, and
of the allocations that need both.

The two follow the fields of a struct into its definition, and a type parameter
into the type it is bound to, so they run on a number of nested calls (`fuel`).
-/

set_option autoImplicit false

namespace Aike

variable (cx : CodegenContext)

/-- The type that the parameter of an `Instance` is bound to: `tryGetGenericInstance`. -/
def tryGetGenericInstance (type : Ty) : CodegenM (Option Ty) := do
  match type with
  | .inst _ _ (.generic g) => return some (← getGenericInstance (← get).currentFunction g)
  | _ => return none

/-- The declaration and the type arguments of the struct that `codegenType` is
asked for, and what its fields take from the functions around it. -/
def structKey (fn : FunctionInstance) (d : DefId) (tyargs : List Ty) : StructKey where
  d := d
  tyargs := tyargs.map fn.concrete
  context :=
    let own := match cx.program.tyDef d with
      | some tydef => tydef.tyargs.map Generic.id
      | none => []
    let free := (Ty.genericsAll (Ty.viewAll cx.store.fills (cx.store.fieldTypes d))).filter
      fun g => !own.contains g
    free.map fun g => (g, (fn.generic? g).map Ty.bare)

/-- The types of the fields of a type with `count` fields. -/
def memberTypes (type : Ty) (count : Nat) : CodegenM (List Ty) :=
  (List.range count).mapM fun i => (typeMember cx.program cx.store type i : Except Fault Ty)

/-- `module->getTypeByName`. -/
def Codegen.getTypeByName (cg : Codegen) (name : Str) : Option StructType :=
  cg.structs.find? fun st => st.name = name

/-- `StructType::create`. -/
def createStruct (name : Str) (origin : StructKey) : CodegenM Unit :=
  modify fun cg => { cg with structs := cg.structs ++ [{ name, origin }] }

/-- `setBody`. -/
def setBody (name : Str) (body : List LType) : CodegenM Unit :=
  modify fun cg =>
    { cg with
      structs := cg.structs.map fun st =>
        if st.name = name then { st with body := some body } else st }

/-- Record that a struct was asked for. -/
def requestStruct (r : StructRequest) : CodegenM Unit :=
  modify fun cg => { cg with structRequests := cg.structRequests ++ [r] }

/-- `codegenType`. -/
def codegenType : Nat → Ty → CodegenM LType
  | 0, _ => throw .outOfFuel
  | fuel + 1, type => do
      match ← tryGetGenericInstance type with
      | some inst => codegenType fuel inst
      | none =>
      match type with
      | .void => return .void
      | .bool => return .int1
      | .integer => return .int32
      | .float => return .float
      | .string => return .struct [.int8Ptr, .int32]
      | .tuple fields => return .struct (← fields.mapM (codegenType fuel))
      | .array element => return .struct [.pointer (← codegenType fuel element), .int32]
      | .pointer element => return .pointer (← codegenType fuel element)
      | .function args ret varargs => do
          let ret ← codegenType fuel ret
          let args ← args.mapM (codegenType fuel)
          let rest := if varargs then [.pointer .any, .int32] else []
          return .pointer (.function ret (args ++ rest))
      | .inst _ tyargs target =>
          match target with
          | .struct d => do
              let tydef ← assertSome (cx.program.tyDef d)
              let fn := (← get).currentFunction
              let name ← mangleType (getGenericInstance fn) cx.fuel type
              let key := structKey cx fn d tyargs
              match (← get).getTypeByName name with
              | some st => do
                  requestStruct ⟨type, fn, key, name, st.origin⟩
                  return .named name
              | none => do
                  createStruct name key
                  requestStruct ⟨type, fn, key, name, key⟩
                  let members ← memberTypes cx type tydef.fields.length
                  let fields ← members.mapM (codegenType fuel)
                  setBody name fields
                  return .named name
          | _ => throw .assertion
      | .unknown _ => throw .internalError

/-- `codegenPrepareTypeInfo`. -/
def codegenPrepareTypeInfo (name : Str) : CodegenM Unit :=
  modify fun cg => { cg with globals := cg.globals ++ [{ name }] }

/-- `setInitializer`. -/
def setInitializer (name : Str) (data : TypeInfo) : CodegenM Unit :=
  modify fun cg =>
    { cg with
      globals := cg.globals.map fun gv =>
        if gv.name = name then { gv with initializer := some data } else gv }

/-- `codegenMakeTypeInfo`, with the name as the result. -/
def codegenMakeTypeInfo (name : Str) (data : TypeInfo) : CodegenM Str := do
  codegenPrepareTypeInfo name
  setInitializer name data
  return name

/-- `codegenTypeInfo`: the name of what describes the type. -/
def codegenTypeInfo : Nat → Ty → CodegenM Str
  | 0, _ => throw .outOfFuel
  | fuel + 1, type => do
      match ← tryGetGenericInstance type with
      | some inst => codegenTypeInfo fuel inst
      | none =>
      let name ← mangleTypeInfo (getGenericInstance (← get).currentFunction) cx.fuel type
      if (← get).globals.any fun gv => gv.name = name then return name
      match type with
      | .void => codegenMakeTypeInfo name (.simple 0)
      | .bool => codegenMakeTypeInfo name (.simple 1)
      | .integer => codegenMakeTypeInfo name (.simple 2)
      | .float => codegenMakeTypeInfo name (.simple 3)
      | .string => codegenMakeTypeInfo name (.simple 4)
      | .tuple fields => do
          let sty ← codegenType cx cx.fuel type
          let infos ← fields.mapM (codegenTypeInfo fuel)
          assert (infos ≠ [])
          codegenMakeTypeInfo name (.tuple sty infos)
      | .array element => do
          let stride ← codegenType cx cx.fuel element
          let element ← codegenTypeInfo fuel element
          codegenMakeTypeInfo name (.array element stride)
      | .pointer element => do
          let element ← codegenTypeInfo fuel element
          codegenMakeTypeInfo name (.pointer element)
      | .function _ _ _ => codegenMakeTypeInfo name (.simple 8)
      | .inst node _ target =>
          match target with
          | .struct d => do
              let tydef ← assertSome (cx.program.tyDef d)
              codegenPrepareTypeInfo name
              let sty ← codegenType cx cx.fuel type
              let members ← memberTypes cx type tydef.fields.length
              let infos ← members.mapM (codegenTypeInfo fuel)
              let fields := (tydef.fields.map fun f => f.1.name).zip infos
              setInitializer name (.struct node.name sty fields)
              return name
          | _ => throw .assertion
      | .unknown _ => throw .internalError

/-- `ConstantExpr::getSizeOf`, as an `int`. -/
def sizeOf (type : LType) : Value := ⟨.int32, .sizeOf type⟩

/-- `cg.runtimeNew` and `cg.runtimeNewArray`, which `codegenPrepare` declares. -/
def runtimeFunction (name : Str) (params : List LType) : CodegenM Value :=
  getOrInsertFunction name .int8Ptr params

def runtimeNew : CodegenM Value := runtimeFunction "gcNew".toList [.int8Ptr, .int32]

def runtimeNewArray : CodegenM Value :=
  runtimeFunction "gcNewArray".toList [.int8Ptr, .int32, .int32]

/-- `codegenNew`. -/
def codegenNew (type : Ty) : CodegenM Value := do
  let element ← codegenType cx cx.fuel type
  let info ← codegenTypeInfo cx cx.fuel type
  let raw ← createCall (← runtimeNew) [⟨.int8Ptr, .typeInfo info⟩, sizeOf element]
  createBitCast raw (.pointer element)

/-- `codegenNewArr`. -/
def codegenNewArr (type : Ty) (count : Value) : CodegenM Value := do
  let element ← codegenType cx cx.fuel type
  let info ← codegenTypeInfo cx cx.fuel type
  let raw ← createCall (← runtimeNewArray)
    [⟨.int8Ptr, .typeInfo info⟩, count, sizeOf element]
  createBitCast raw (.pointer element)

/-- `codegenNewArrEmpty`. -/
def codegenNewArrEmpty (type : Ty) : CodegenM Value := do
  let element ← codegenType cx cx.fuel type
  return ⟨.pointer element, .null⟩

end Aike
