import Aike.Model.Ir
import Aike.Model.Mangle
import Aike.Model.Members

/-!
# `Aike.Model.Codegen.State`: the state of code generation

The model of `Codegen` in `compiler/codegen.cpp`, of `IRBuilder`, and of the
lookups along the parents of a function instance.

A `FunctionInstance` is a list here: the instance, its parent, the parent of
that, and so on. The function that is emitted is under construction in the
state, and goes to the module when it is complete. Debug information is left
out, and so is the folding of constants that `IRBuilder` does.

Four fields record what happened, and no function reads them: `lowered`,
`requests`, `structRequests` and `emitted`.
-/

set_option autoImplicit false

namespace Aike

/-- `FunctionInstance`, without its parents. `entry` marks the declaration that
`codegen` makes for the code of a module, which no pointer leads to. -/
structure InstanceFrame where
  value : FunctionId
  decl : FnDecl
  entry : Bool := false
  generics : List (GenericId × Ty) := []

/-- `FunctionInstance`. -/
abbrev FunctionInstance := List InstanceFrame

/-- A call of `codegenFunctionDecl`: its arguments, the instance that it was made
from, the instance of the parent, the module, the name of these, what was asked for
by all that, the name that was looked up, and the function that was returned. -/
structure FnRequest where
  decl : FnDecl
  id : Int
  type : Ty
  tyargs : List Ty
  instance_ : FunctionInstance
  parents : FunctionInstance
  moduleName : Option Str
  parentName : Str
  key : FnKey
  name : Str
  result : FunctionId

/-- A struct that `codegenType` was asked for: its type, the instance that it was
asked from, what was asked for by that, the name that was looked up, and what the
struct that was returned was made for. -/
structure StructRequest where
  type : Ty
  instance_ : FunctionInstance
  key : StructKey
  name : Str
  result : StructKey

/-- A function body that was emitted: the instance and its parents, the variables
bound before, the code, and the variables that identifiers were lowered to, with
their values. -/
structure Emitted where
  inst : InstanceFrame
  parents : FunctionInstance
  vars : VarId → Option Value
  graph : Graph
  lowered : List (VarId × Value)

/-- `SMDiagnostic`, with the place of the error as an offset in the text. -/
structure SMDiagnostic where
  offset : Nat
  lineNo : Nat
  columnNo : Int
  message : Str

/-- What code generation reads: the declarations, what the passes wrote on them,
LLVM's parser, and the number of nested calls. The parser is given the functions
of the module and answers the functions that the text adds to them. -/
structure CodegenContext where
  program : Program
  store : Store
  fuel : Nat
  parseAssemblyInto : List Function → Str → Except SMDiagnostic (List Function)

/-- `Codegen`, the module, and the insert point. -/
structure Codegen where
  output : List Diagnostic := []
  functions : List Function := []
  structs : List StructType := []
  globals : List GlobalVariable := []
  vars : VarId → Option Value := fun _ => none
  pendingFunctions : List FunctionInstance := []
  currentFunction : FunctionInstance := []
  /-- The function under construction. -/
  func : FunctionId := 0
  graph : Graph := {}
  insertBlock : BlockId := 0
  /-- The number of the next result. -/
  nextResult : Nat := 0
  lowered : List (VarId × Value) := []
  requests : List FnRequest := []
  structRequests : List StructRequest := []
  emitted : List Emitted := []

/-- A step of code generation. -/
abbrev CodegenM := StateT Codegen (Except Fault)

/-- `assert`. -/
def assert (c : Prop) [Decidable c] : CodegenM Unit :=
  if c then pure () else throw .assertion

/-- A value that must be there. -/
def assertSome {α : Type} : Option α → CodegenM α
  | some a => pure a
  | none => throw .assertion

/-! ### Instances -/

/-- What a type parameter is bound to along the parents of an instance. -/
def FunctionInstance.generic? (fn : FunctionInstance) (g : GenericId) : Option Ty :=
  fn.findSome? fun f => f.generics.lookup g

/-- `getGenericInstance`. -/
def getGenericInstance (fn : FunctionInstance) (g : GenericId) : Except Fault Ty :=
  match fn.generic? g with
  | some type => .ok type
  | none => .error .internalError

/-- `getFunctionInstance`: the instance of a declaration, with its parents. -/
def getFunctionInstance (fn : FunctionInstance) (decl : Option NodeId) : FunctionInstance :=
  match decl with
  | none => []
  | some d => fn.dropWhile fun f => f.entry || f.decl.node.id != d

mutual

/-- The type parameters in a type. -/
def Ty.generics : Ty → List GenericId
  | .tuple fields => genericsAll fields
  | .array element => generics element
  | .pointer element => generics element
  | .function args ret _ => genericsAll args ++ generics ret
  | .inst _ tyargs target =>
      match target with
      | .generic g => [g]
      | _ => genericsAll tyargs
  | .unknown _ | .void | .bool | .integer | .float | .string => []

/-- `Ty.generics`, on a list. -/
def Ty.genericsAll : List Ty → List GenericId
  | [] => []
  | t :: ts => generics t ++ genericsAll ts

end

/-- `finalType`. -/
def finalType (fn : FunctionInstance) (type : Ty) : Except Fault Ty :=
  if type.generics.all fun g => (fn.generic? g).isSome then
    .ok (typeInstantiate fn.generic? type)
  else .error .internalError

mutual

/-- A type without what the nodes of its `Instance`s say about where they come
from. -/
def Ty.bare : Ty → Ty
  | .tuple fields => .tuple (bareAll fields)
  | .array element => .array (bare element)
  | .pointer element => .pointer (bare element)
  | .function args ret varargs => .function (bareAll args) (bare ret) varargs
  | .inst _ tyargs target => .inst { name := [] } (bareAll tyargs) target
  | .unknown u => .unknown u
  | .void => .void
  | .bool => .bool
  | .integer => .integer
  | .float => .float
  | .string => .string

/-- `Ty.bare`, on a list. -/
def Ty.bareAll : List Ty → List Ty
  | [] => []
  | t :: ts => bare t :: bareAll ts

end

/-- The type that a type stands for in an instance, to be compared. -/
def FunctionInstance.concrete (fn : FunctionInstance) (type : Ty) : Ty :=
  (typeInstantiate fn.generic? type).bare

/-! ### The module -/

/-- `module->getFunction`. -/
def Codegen.getFunction (cg : Codegen) (name : Str) : Option FunctionId :=
  cg.functions.findIdx? fun f => f.name = name

/-- A function, as a value. -/
def functionValue (f : FunctionId) : CodegenM Value := do
  let fun_ ← assertSome (← get).functions[f]?
  return ⟨fun_.type, .function f⟩

/-- `Function::Create`. -/
def createFunction (fun_ : Function) : CodegenM FunctionId := do
  let cg ← get
  set { cg with functions := cg.functions ++ [fun_] }
  return cg.functions.length

/-- `module->getOrInsertFunction`. A function of another type is cast. -/
def getOrInsertFunction (name : Str) (ret : LType) (params : List LType) : CodegenM Value := do
  match (← get).getFunction name with
  | some f => return ⟨.pointer (.function ret params), .function f⟩
  | none =>
      let f ← createFunction { name, ret, params }
      return ⟨.pointer (.function ret params), .function f⟩

/-- `getFunctionArguments`. -/
def getFunctionArguments (f : FunctionId) : CodegenM (List Value) := do
  let fun_ ← assertSome (← get).functions[f]?
  return fun_.params.mapIdx fun i type => ⟨type, .arg f i⟩

/-- The fields of a struct. -/
def structFields (type : LType) : CodegenM (List LType) := do
  match type with
  | .struct fields => return fields
  | .named name =>
      let st ← assertSome ((← get).structs.find? fun st => st.name = name)
      assertSome st.body
  | _ => throw .assertion

/-- The type of a field of a struct. -/
def fieldType (type : LType) (index : Nat) : CodegenM LType := do
  assertSome (← structFields type)[index]?

/-! ### The insert point -/

/-- `BasicBlock::Create`. -/
def createBlock : CodegenM BlockId := do
  let cg ← get
  set { cg with graph := { cg.graph with size := cg.graph.size + 1 } }
  return cg.graph.size

/-- `GetInsertBlock`. -/
def getInsertBlock : CodegenM BlockId := return (← get).insertBlock

/-- `SetInsertPoint`. -/
def setInsertPoint (b : BlockId) : CodegenM Unit :=
  modify fun cg => { cg with insertBlock := b }

/-- Change a block. -/
def Codegen.modifyBlock (cg : Codegen) (b : BlockId) (f : BasicBlock → BasicBlock) : Codegen :=
  { cg with graph := { cg.graph with blocks := update cg.graph.blocks b (f (cg.graph.blocks b)) } }

/-- Add an instruction to the insert block, with a result of the given type. -/
def insert (op : Op) (type : LType) : CodegenM Value := do
  let cg ← get
  let cg := cg.modifyBlock cg.insertBlock fun b =>
    { b with instrs := b.instrs ++ [⟨cg.nextResult, op⟩] }
  set { cg with nextResult := cg.nextResult + 1 }
  return ⟨type, .reg cg.func cg.nextResult⟩

/-- Add an instruction without a result. -/
def insertVoid (op : Op) : CodegenM Unit := do
  let _ ← insert op .void

/-- End the insert block. -/
def terminate (t : Terminator) : CodegenM Unit :=
  modify fun cg => cg.modifyBlock cg.insertBlock fun b => { b with terminator := some t }

/-- `CreateBr`. -/
def createBr (target : BlockId) : CodegenM Unit := terminate (.br target)

/-- `CreateCondBr`. -/
def createCondBr (cond : Value) (then_ else_ : BlockId) : CodegenM Unit :=
  terminate (.condBr cond then_ else_)

/-- `CreateRet`. -/
def createRet (value : Value) : CodegenM Unit := terminate (.ret value)

/-- `CreateRetVoid`. -/
def createRetVoid : CodegenM Unit := terminate .retVoid

/-- `CreatePHI`, and `addIncoming` for what is known. -/
def createPHI (type : LType) (incoming : List (Value × BlockId)) : CodegenM Value := do
  let cg ← get
  let cg := cg.modifyBlock cg.insertBlock fun b =>
    { b with phis := b.phis ++ [⟨cg.nextResult, type, incoming⟩] }
  set { cg with nextResult := cg.nextResult + 1 }
  return ⟨type, .reg cg.func cg.nextResult⟩

/-- `addIncoming`, on the PHI node that a block starts with. -/
def addIncoming (b : BlockId) (value : Value) (incoming : BlockId) : CodegenM Unit :=
  modify fun cg => cg.modifyBlock b fun block =>
    { block with phis := block.phis.modifyHead fun phi =>
        { phi with incoming := phi.incoming ++ [(value, incoming)] } }

/-- The type that an address points to. -/
def elementType : LType → CodegenM LType
  | .pointer element => pure element
  | _ => throw .assertion

/-- `CreateLoad`. -/
def createLoad (address : Value) (name : Option VarId := none) : CodegenM Value := do
  insert (.load address name) (← elementType address.type)

/-- `CreateStore`. -/
def createStore (value address : Value) (init : Option VarId := none) : CodegenM Unit :=
  insertVoid (.store value address init)

/-- `CreateCall`. -/
def createCall (callee : Value) (args : List Value) : CodegenM Value := do
  match ← elementType callee.type with
  | .function ret _ => insert (.call callee args) ret
  | _ => throw .assertion

/-- `CreateExtractValue`. -/
def createExtractValue (aggregate : Value) (index : Nat) : CodegenM Value := do
  insert (.extractValue aggregate index) (← fieldType aggregate.type index)

/-- `CreateInsertValue`. -/
def createInsertValue (aggregate value : Value) (index : Nat) : CodegenM Value :=
  insert (.insertValue aggregate value index) aggregate.type

/-- `CreateInBoundsGEP`, on the elements of an array. -/
def createInBoundsGEP (base index : Value) : CodegenM Value :=
  insert (.gep base [index]) base.type

/-- `getInt32`. -/
def getInt32 (n : Nat) : Value := ⟨.int32, .int n⟩

/-- `CreateStructGEP`. -/
def createStructGEP (base : Value) (index : Nat) : CodegenM Value := do
  let field ← fieldType (← elementType base.type) index
  insert (.gep base [getInt32 0, getInt32 index]) (.pointer field)

/-- `CreateConstInBoundsGEP2_32`, on an array of structs. -/
def createConstInBoundsGEP2 (base : Value) (i j : Nat) : CodegenM Value := do
  let field ← fieldType (← elementType base.type) j
  insert (.gep base [getInt32 i, getInt32 j]) (.pointer field)

/-- `CreateBitCast`. -/
def createBitCast (value : Value) (type : LType) : CodegenM Value :=
  insert (.bitCast value) type

/-- `CreateNot`. -/
def createNot (value : Value) : CodegenM Value := insert (.not value) value.type

/-- `codegenAlloca`. A slot is an instruction of the first block, wherever it is
asked for. -/
def codegenAlloca (type : LType) (size : Nat := 1) : CodegenM Value := do
  let cg ← get
  set { cg with graph := { cg.graph with allocas := ⟨type, size⟩ :: cg.graph.allocas } }
  return ⟨.pointer type, .slot cg.func cg.graph.allocas.length⟩

/-- `codegenTrapIf`. -/
def codegenTrapIf (cond : Value) (debug : Bool := false) : CodegenM Unit := do
  let trapbb ← createBlock
  let afterbb ← createBlock
  createCondBr cond trapbb afterbb
  setInsertPoint trapbb
  insertVoid (.trap debug)
  terminate .unreachable
  setInsertPoint afterbb

/-- `codegenVariable`. The name that it gives to the value is left out. -/
def codegenVariable (var : Variable) (value : Value) : CodegenM Unit :=
  modify fun cg => { cg with vars := update cg.vars var.id (some value) }

/-- `codegenVoid`. -/
def codegenVoid : Value := ⟨.void, .undef⟩

end Aike
