import Aike.Model.Codegen.Types

/-!
# `Aike.Model.Codegen.Expr`: lowering expressions

The model of `codegenExpr` in `compiler/codegen.cpp` and of the functions it
calls, one for each kind of node. They call `codegenExpr` in turn, on parts of
the node and on the default initializers of a struct, which are elsewhere in the
tree. So each takes it as an argument, and `codegenExpr` itself runs on a number
of nested calls (`fuel`).
-/

set_option autoImplicit false

namespace Aike

/-- `CodegenKind`. -/
inductive CodegenKind
  | value
  | ref
  deriving DecidableEq, Repr

variable (cx : CodegenContext)

/-- `astType`, with its assertion. -/
def nodeType (n : Node) : CodegenM Ty := assertSome (cx.store.astType n.id)

/-- Record that an identifier was lowered to a variable. -/
def lowered (var : Variable) (value : Value) : CodegenM Unit :=
  modify fun cg => { cg with lowered := cg.lowered ++ [(var.id, value)] }

/-- `cg.vars.find`, which must find something. -/
def findVar (var : Variable) : CodegenM Value := do
  let value ← assertSome ((← get).vars var.id)
  lowered var value
  return value

/-- Record a call of `codegenFunctionDecl`. -/
def requestFunction (r : FnRequest) : CodegenM Unit :=
  modify fun cg => { cg with requests := cg.requests ++ [r] }

/-- The name of the parent of a function. -/
def parentName (decl : FnDecl) (parent : FunctionInstance) : CodegenM Str := do
  match parent with
  | p :: _ => return (← assertSome (← get).functions[p.value]?).name
  | [] =>
      match cx.store.moduleName decl.node.id with
      | some m => return mangleModule m
      | none => return []

/-- `codegenFunctionDecl`. -/
def codegenFunctionDecl (decl : FnDecl) (id : Int) (type : Ty) (tyargs : List Ty) :
    CodegenM Value := do
  let fn := (← get).currentFunction
  let parent := getFunctionInstance fn (cx.store.parent decl.node.id)
  let moduleName := cx.store.moduleName decl.node.id
  let parentName ← parentName cx decl parent
  let name ← mangleFn (getGenericInstance fn) cx.fuel decl.var.name id type tyargs parentName
  let key : FnKey := ⟨decl.node.id, tyargs.map fn.concrete, parent.head?.map InstanceFrame.value⟩
  match (← get).getFunction name with
  | some f => do
      requestFunction ⟨decl, id, type, tyargs, fn, parent, moduleName, parentName, key, name, f⟩
      functionValue f
  | none => do
      match ← elementType (← codegenType cx cx.fuel type) with
      | .function ret params => do
          let f ← createFunction { name, ret, params, origin := some key }
          requestFunction ⟨decl, id, type, tyargs, fn, parent, moduleName, parentName, key, name, f⟩
          assert (tyargs.length = decl.tyargs.length)
          let types ← tyargs.mapM fun t => (finalType fn t : Except Fault Ty)
          let frame : InstanceFrame :=
            { value := f, decl, generics := (decl.tyargs.map Generic.id).zip types }
          modify fun cg => { cg with pendingFunctions := (frame :: parent) :: cg.pendingFunctions }
          functionValue f
      | _ => throw .assertion

/-- `codegenIdent`. -/
def codegenIdent (n : Node) (kind : CodegenKind) : CodegenM Value := do
  match cx.store.targets n.id with
  | [target] =>
      match target.kind with
      | .function => do
          let decl ← assertSome (target.fn.bind cx.program.fnDecl)
          assert (decl.var.id = target.id)
          codegenFunctionDecl cx decl 0 (← nodeType cx n)
            (Ty.viewAll cx.store.fills (cx.store.identTyargs n.id))
      | .variable => do
          let storage ← findVar target
          match kind with
          | .value => createLoad storage target.id
          | .ref => return storage
      | .value | .argument => findVar target
  | _ => throw .assertion

section Nodes

variable (codegenExpr : Ast → CodegenKind → CodegenM Value)

/-- `codegenExpr` as a value. -/
abbrev asValue (node : Ast) : CodegenM Value := codegenExpr node .value

/-- `codegenLiteralString`. -/
def codegenLiteralString (value : Str) : CodegenM Value := do
  let type ← codegenType cx cx.fuel .string
  let result ← createInsertValue ⟨type, .undef⟩ ⟨.int8Ptr, .string value⟩ 0
  createInsertValue result (getInt32 value.length) 1

/-- The loop of `codegenLiteralTuple`, from a field on. -/
def codegenTupleFields (result : Value) (i : Nat) : List Ast → CodegenM Value
  | [] => return result
  | field :: fields => do
      let value ← asValue codegenExpr field
      let result ← createInsertValue result value i
      codegenTupleFields result (i + 1) fields

/-- `codegenLiteralTuple`. -/
def codegenLiteralTuple (n : Node) (fields : List Ast) : CodegenM Value := do
  let type ← codegenType cx cx.fuel (← nodeType cx n)
  codegenTupleFields codegenExpr ⟨type, .undef⟩ 0 fields

/-- The loop of `codegenLiteralArray`, from an element on. -/
def codegenArrayElements (ptr : Value) (i : Nat) : List Ast → CodegenM Unit
  | [] => return ()
  | element :: elements => do
      let value ← asValue codegenExpr element
      createStore value (← createInBoundsGEP ptr (getInt32 i))
      codegenArrayElements ptr (i + 1) elements

/-- The storage of the elements of an array. -/
def codegenArrayStorage (element : Ty) (count : Nat) : CodegenM Value :=
  if count ≠ 0 then codegenNewArr cx element (getInt32 count) else codegenNewArrEmpty cx element

/-- `codegenLiteralArray`. -/
def codegenLiteralArray (n : Node) (elements : List Ast) : CodegenM Value := do
  match ← nodeType cx n with
  | .array element => do
      let ptr ← codegenArrayStorage cx element elements.length
      codegenArrayElements codegenExpr ptr 0 elements
      let type ← codegenType cx cx.fuel (.array element)
      let result ← createInsertValue ⟨type, .undef⟩ ptr 0
      createInsertValue result (getInt32 elements.length) 1
  | _ => throw .assertion

/-- The second loop of `codegenLiteralStruct`: the defaults of the fields, from
a field on, that the literal does not have. -/
def codegenDefaults (given : List Int) (result : Value) (i : Nat) :
    List (FieldDecl × Option Ast) → CodegenM Value
  | [] => return result
  | field :: fields => do
      if given.contains (i : Int) then codegenDefaults given result (i + 1) fields
      else do
        let expr ← asValue codegenExpr (← assertSome field.2)
        let result ← createInsertValue result expr i
        codegenDefaults given result (i + 1) fields

/-- The third loop of `codegenLiteralStruct`. -/
def codegenInitializers (result : Value) : List (FieldRef × Ast) → CodegenM Value
  | [] => return result
  | field :: fields => do
      let expr ← asValue codegenExpr field.2
      let result ← createInsertValue result expr (cx.store.fieldIndex field.1.id).toNat
      codegenInitializers result fields

/-- `codegenLiteralStruct`. The index of every field of the literal is checked
before any field is lowered. -/
def codegenLiteralStruct (n : Node) (fields : List (FieldRef × Ast)) : CodegenM Value := do
  match ← nodeType cx n with
  | .inst node tyargs (.struct d) => do
      let tydef ← assertSome (cx.program.tyDef d)
      let type ← codegenType cx cx.fuel (.inst node tyargs (.struct d))
      let given := fields.map fun f => cx.store.fieldIndex f.1.id
      assert (∀ i ∈ given, 0 ≤ i ∧ i < tydef.fields.length)
      let result ← codegenDefaults codegenExpr given ⟨type, .undef⟩ 0 tydef.fields
      codegenInitializers cx codegenExpr result fields
  | _ => throw .assertion

/-- `codegenMember`. -/
def codegenMember (expr : Ast) (field : FieldRef) (kind : CodegenKind) : CodegenM Value := do
  let index := cx.store.fieldIndex field.id
  assert (0 ≤ index)
  let value ← codegenExpr expr kind
  match kind with
  | .ref => createStructGEP value index.toNat
  | .value => createExtractValue value index.toNat

/-- The loop of `codegenBlock`. -/
def codegenBlock (result : Value) : List Ast → CodegenM Value
  | [] => return result
  | e :: body => do
      let result ← asValue codegenExpr e
      codegenBlock result body

/-- Lower the arguments of a call, in order. -/
def codegenArgs : List Ast → CodegenM (List Value)
  | [] => return []
  | a :: args => do
      let value ← asValue codegenExpr a
      let values ← codegenArgs args
      return value :: values

/-- The loop of `codegenCall` over the extra arguments, from one on. -/
def codegenExtraArgs (extraArray : Value) (i : Nat) : List Ast → CodegenM Unit
  | [] => return ()
  | a :: args => do
      let av ← asValue codegenExpr a
      let info ← codegenTypeInfo cx cx.fuel (← nodeType cx a.node)
      let ap ← codegenAlloca av.type
      createStore av ap
      let app ← createBitCast ap .int8Ptr
      createStore ⟨.int8Ptr, .typeInfo info⟩ (← createConstInBoundsGEP2 extraArray i 0)
      createStore app (← createConstInBoundsGEP2 extraArray i 1)
      codegenExtraArgs extraArray (i + 1) args

/-- The arguments of a call to a function with a variable number of them. -/
def codegenVarargs (baseArgs : Nat) (args : List Ast) : CodegenM (List Value) := do
  assert (baseArgs ≤ args.length)
  let extraArray ← codegenAlloca .any (args.length - baseArgs)
  let values ← codegenArgs codegenExpr (args.take baseArgs)
  codegenExtraArgs cx codegenExpr extraArray 0 (args.drop baseArgs)
  return values ++ [extraArray, getInt32 (args.length - baseArgs)]

/-- The arguments of a call to a function with `params` parameters. -/
def codegenCallArgs (params : Nat) (varargs : Bool) (args : List Ast) : CodegenM (List Value) :=
  if varargs then codegenVarargs cx codegenExpr params args
  else do
    assert (args.length = params)
    codegenArgs codegenExpr args

/-- `codegenCall`. -/
def codegenCall (expr : Ast) (args : List Ast) : CodegenM Value := do
  let callee ← asValue codegenExpr expr
  match ← nodeType cx expr.node with
  | .function params _ varargs => do
      let values ← codegenCallArgs cx codegenExpr params.length varargs args
      let ret ← createCall callee values
      return if ret.type.isVoid then codegenVoid else ret
  | _ => throw .assertion

/-- `codegenIndex`. -/
def codegenIndex (expr idx : Ast) (kind : CodegenKind) : CodegenM Value := do
  let expr ← asValue codegenExpr expr
  let index ← asValue codegenExpr idx
  let ptr ← createExtractValue expr 0
  let size ← createExtractValue expr 1
  let cond ← insert (.icmpUGE index size) .int1
  codegenTrapIf cond
  let address ← createInBoundsGEP ptr index
  match kind with
  | .ref => return address
  | .value => createLoad address

/-- `codegenAssign`. -/
def codegenAssign (left right : Ast) : CodegenM Value := do
  let left ← codegenExpr left .ref
  let right ← asValue codegenExpr right
  createStore right left
  return codegenVoid

/-- `codegenUnary`. -/
def codegenUnary (op : UnaryOp) (expr : Ast) (kind : CodegenKind) : CodegenM Value := do
  let value ← asValue codegenExpr expr
  match op with
  | .not => createNot value
  | .deref =>
      match kind with
      | .ref => return value
      | .value => createLoad value
  | .new => do
      let ptr ← codegenNew cx (← nodeType cx expr.node)
      createStore value ptr
      return ptr
  | .plus | .minus => throw .internalError

/-- `codegenBinaryAndOr`, on one of the two operators. -/
def codegenBinaryAndOr (and : Bool) (left right : Ast) : CodegenM Value := do
  let left ← asValue codegenExpr left
  let currentbb ← getInsertBlock
  let nextbb ← createBlock
  let afterbb ← createBlock
  createCondBr left (if and then nextbb else afterbb) (if and then afterbb else nextbb)
  setInsertPoint nextbb
  let right ← asValue codegenExpr right
  createBr afterbb
  let nextbb ← getInsertBlock
  setInsertPoint afterbb
  createPHI left.type [(right, nextbb), (left, currentbb)]

/-- `codegenBinary`. -/
def codegenBinary (op : BinaryOp) (left right : Ast) : CodegenM Value := do
  match op with
  | .and => codegenBinaryAndOr codegenExpr true left right
  | .or => codegenBinaryAndOr codegenExpr false left right
  | _ => throw .assertion

/-- `codegenIf`, with an `else`. -/
def codegenIfElse (cond thenbody elsebody : Ast) : CodegenM Value := do
  let cond ← asValue codegenExpr cond
  let thenbb ← createBlock
  let elsebb ← createBlock
  let endbb ← createBlock
  createCondBr cond thenbb elsebb
  setInsertPoint thenbb
  let thenbody ← asValue codegenExpr thenbody
  createBr endbb
  let thenbb ← getInsertBlock
  setInsertPoint elsebb
  let elsebody ← asValue codegenExpr elsebody
  createBr endbb
  let elsebb ← getInsertBlock
  setInsertPoint endbb
  if thenbody.type.isVoid then return codegenVoid
  else createPHI thenbody.type [(thenbody, thenbb), (elsebody, elsebb)]

/-- `codegenIf`, without an `else`. -/
def codegenIfThen (cond thenbody : Ast) : CodegenM Value := do
  let cond ← asValue codegenExpr cond
  let thenbb ← createBlock
  let endbb ← createBlock
  createCondBr cond thenbb endbb
  setInsertPoint thenbb
  let _ ← asValue codegenExpr thenbody
  createBr endbb
  setInsertPoint endbb
  return codegenVoid

/-- The variable for the index of a loop, if there is one. -/
def codegenIndexVariable (index : Option Variable) (value : Value) : CodegenM Unit :=
  match index with
  | some index => codegenVariable index value
  | none => pure ()

/-- `codegenFor`. The block that control comes from is taken before the sequence
is lowered. -/
def codegenFor (var : Variable) (index : Option Variable) (expr body : Ast) :
    CodegenM Value := do
  let entrybb ← getInsertBlock
  let loopbb ← createBlock
  let endbb ← createBlock
  let expr ← asValue codegenExpr expr
  let size ← createExtractValue expr 1
  let cond ← insert (.icmpSGT size (getInt32 0)) .int1
  createCondBr cond loopbb endbb
  setInsertPoint loopbb
  let indexphi ← createPHI .int32 [(getInt32 0, entrybb)]
  let address ← createInBoundsGEP (← createExtractValue expr 0) indexphi
  codegenVariable var address
  codegenIndexVariable index indexphi
  let _ ← asValue codegenExpr body
  let next ← insert (.add indexphi (getInt32 1)) .int32
  let loopendbb ← getInsertBlock
  let cond ← insert (.icmpSLT next size) .int1
  createCondBr cond loopbb endbb
  addIncoming loopbb next loopendbb
  setInsertPoint endbb
  return codegenVoid

/-- `codegenWhile`. -/
def codegenWhile (expr body : Ast) : CodegenM Value := do
  let loopbb ← createBlock
  let bodybb ← createBlock
  let endbb ← createBlock
  createBr loopbb
  setInsertPoint loopbb
  let expr ← asValue codegenExpr expr
  createCondBr expr bodybb endbb
  setInsertPoint bodybb
  let _ ← asValue codegenExpr body
  createBr loopbb
  setInsertPoint endbb
  return codegenVoid

/-- `codegenFn`. -/
def codegenFn (id : Int) (decl : Ast) : CodegenM Value := do
  match decl with
  | .fnDecl n var tyargs args attributes body =>
      codegenFunctionDecl cx ⟨n, var, tyargs, args, attributes, body⟩ id
        (cx.store.variableType var.id) []
  | _ => throw .assertion

/-- `codegenVarDecl`. -/
def codegenVarDecl (var : Variable) (expr : Ast) : CodegenM Value := do
  let value ← asValue codegenExpr expr
  let storage ← codegenAlloca value.type
  createStore value storage var.id
  codegenVariable var storage
  return codegenVoid

end Nodes

/-- `codegenExpr`. `codegenLLVM` answers a null pointer, which is a fault here. -/
def codegenExpr : Nat → Ast → CodegenKind → CodegenM Value
  | 0, _, _ => throw .outOfFuel
  | fuel + 1, root, kind =>
      let codegenExpr := codegenExpr fuel
      match root with
      | .literalVoid _ => return codegenVoid
      | .literalBool _ value => return ⟨.int1, .int value.toNat⟩
      | .literalInteger _ value => return ⟨.int32, .int (value.bmod (2 ^ 32))⟩
      | .literalFloat _ value => return ⟨.float, .float value⟩
      | .literalString _ value => codegenLiteralString cx value
      | .literalTuple n fields => codegenLiteralTuple cx codegenExpr n fields
      | .literalArray n elements => codegenLiteralArray cx codegenExpr n elements
      | .literalStruct n _ fields => codegenLiteralStruct cx codegenExpr n fields
      | .ident n _ => codegenIdent cx n kind
      | .member _ expr field => codegenMember cx codegenExpr expr field kind
      | .block _ body => codegenBlock codegenExpr codegenVoid body
      | .module _ _ body _ => codegenExpr body .value
      | .call _ expr args => codegenCall cx codegenExpr expr args
      | .unary _ op expr => codegenUnary cx codegenExpr op expr kind
      | .binary _ op left right => codegenBinary codegenExpr op left right
      | .index _ expr idx => codegenIndex codegenExpr expr idx kind
      | .assign _ left right => codegenAssign codegenExpr left right
      | .ifThen _ cond thenbody => codegenIfThen codegenExpr cond thenbody
      | .ifElse _ cond thenbody elsebody => codegenIfElse codegenExpr cond thenbody elsebody
      | .forIn _ var index expr body => codegenFor codegenExpr var index expr body
      | .while _ expr body => codegenWhile codegenExpr expr body
      | .fn _ id decl => codegenFn cx id decl
      | .llvm _ _ => throw .assertion
      | .varDecl _ var expr => codegenVarDecl codegenExpr var expr
      | .fnDecl _ _ _ _ _ _ | .tyDecl _ _ _ _ _ | .import _ _ => return codegenVoid

end Aike
