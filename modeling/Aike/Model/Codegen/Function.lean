import Aike.Model.Codegen.Expr
import Mathlib.Algebra.Group.Nat.Defs

/-!
# `Aike.Model.Codegen.Function`: emitting functions

The model of `codegenFunction` and of `codegen` in `compiler/codegen.cpp`.

`codegen` takes function instances from its list until none is left, which need
not happen, so it runs on a number of functions.
-/

set_option autoImplicit false

namespace Aike

variable (cx : CodegenContext)

/-- Start the code of a function: `BasicBlock::Create`, in the function, and
`SetInsertPoint`. -/
def startFunction (f : FunctionId) : CodegenM Unit :=
  modify fun cg =>
    { cg with func := f, graph := { size := 1 }, insertBlock := 0, nextResult := 0, lowered := [] }

/-- The code of the function is complete. -/
def finishFunction : CodegenM Unit :=
  modify fun cg =>
    { cg with
      functions := cg.functions.modify cg.func fun f => { f with body := .graph cg.graph } }

/-- Emit the code of a function. -/
def emitFunction (f : FunctionId) (code : CodegenM Unit) : CodegenM Unit := do
  startFunction f
  code
  finishFunction

/-- `output->error`. -/
def codegenError (location : Location) (message : Str) : CodegenM Unit :=
  modify fun cg => { cg with output := cg.output ++ [⟨location, message⟩] }

/-- `output->error`, when something does not hold. -/
def codegenErrorUnless (holds : Bool) (location : Location) (message : Str) : CodegenM Unit :=
  if holds then pure () else codegenError location message

/-- End a function with a result. -/
def createReturn (ret : Value) : CodegenM Unit :=
  if ret.type.isVoid then createRetVoid else createRet ret

/-- `codegenFunctionExtern`. -/
def codegenFunctionExtern (inst : InstanceFrame) : CodegenM Unit := do
  assert (inst.decl.body.isNone = true)
  let fun_ ← assertSome (← get).functions[inst.value]?
  let external ← getOrInsertFunction inst.decl.var.name fun_.ret fun_.params
  let args ← getFunctionArguments inst.value
  emitFunction inst.value do
    let ret ← createCall external args
    createReturn ret

/-- The builtin `assert`. -/
def codegenAssert (name : Str) (arg : Value) : CodegenM Bool := do
  if name = "assert".toList then do
    codegenTrapIf (← createNot arg) true
    createRetVoid
    return true
  else return false

/-- The builtin functions. The answer is whether the function is one of them. -/
def codegenBuiltin (inst : InstanceFrame) (args : List Value) : CodegenM Bool := do
  let name := inst.decl.var.name
  match inst.generics, args with
  | [(_, type)], [] =>
      if name = "sizeof".toList then do
        createRet (sizeOf (← codegenType cx cx.fuel type))
        return true
      else return false
  | [(_, type)], [arg] =>
      if name = "newarr".toList then do
        let array ← codegenType cx cx.fuel (.array type)
        let ret ← createInsertValue ⟨array, .undef⟩ (← codegenNewArr cx type arg) 0
        createRet (← createInsertValue ret arg 1)
        return true
      else if name = "length".toList then do
        createRet (← createExtractValue arg 1)
        return true
      else codegenAssert name arg
  | _, [arg] => codegenAssert name arg
  | _, _ => return false

/-- `codegenFunctionBuiltin`. -/
def codegenFunctionBuiltin (inst : InstanceFrame) : CodegenM Unit := do
  assert (inst.decl.body.isNone = true)
  let args ← getFunctionArguments inst.value
  emitFunction inst.value do
    let known ← codegenBuiltin cx inst args
    codegenErrorUnless known inst.decl.var.location
      ("Unknown builtin function ".toList ++ inst.decl.var.name)

/-- `getline`, until there is none: a line break at the end starts no line. -/
def lines (code : Str) : List Str :=
  let lines := code.splitOn '\n'
  if lines.getLast? = some [] then lines.dropLast else lines

/-- `splitDeclarationsFromAssembly`. -/
def splitDeclarationsFromAssembly (code : Str) : Str × Str :=
  (lines code).foldl (fun (decl, ir) line =>
    if "declare ".toList.isPrefixOf (line.dropWhile (· = ' ')) then
      (decl ++ line ++ ['\n'], ir)
    else (decl, ir ++ line ++ ['\n'])) ([], [])

/-- The text that `codegenFunctionLLVM` gives to LLVM's parser: what stands
before the code of the function, and all of it. -/
def assemblyText (fun_ : Function) (code : Str) : Str × Str :=
  let (decl, ir) := splitDeclarationsFromAssembly code
  let header := decl ++ "define internal ".toList ++ fun_.ret.print ++ " @llvm_".toList ++
    fun_.name ++ "(".toList ++ LType.printAll fun_.params ++ ") \x7b\nentry:\n".toList
  (header, header ++ ir ++ "\n\x7d\n".toList)

/-- Where an error in the text is reported. The code of the function starts
after `start` characters. The length is a `size_t`: an error behind the code wraps it.
The column of an error at the start of a line is -1. -/
def assemblyLocation (location : Location) (start : Nat) (err : SMDiagnostic) :
    CodegenM Location := do
  if err.offset ≥ start then do
    assert (err.lineNo ≥ 2)
    return { location with
      offset := location.offset + 1 + (err.offset - start)
      length := (location.length + (2 ^ 64 - (err.offset - start) % 2 ^ 64)) % 2 ^ 64
      line := location.line + (err.lineNo - 2)
      column := if err.lineNo > 2 then err.columnNo - 1 else location.column }
  else return location

/-- `codegenFunctionLLVM`. -/
def codegenFunctionLLVM (inst : InstanceFrame) : CodegenM Unit := do
  match inst.decl.body with
  | some (.llvm n code) => do
      let fun_ ← assertSome (← get).functions[inst.value]?
      let (header, text) := assemblyText fun_ code
      match cx.parseAssemblyInto (← get).functions text with
      | .error err => do
          let location ← assemblyLocation n.location header.length err
          codegenError location ("Error parsing LLVM: ".toList ++ err.message)
      | .ok added =>
          modify fun cg =>
            { cg with
              functions :=
                (cg.functions.modify inst.value fun f => { f with body := .assembly text }) ++
                  added }
  | _ => throw .assertion

/-- The variables of a function that are its arguments, with their values. -/
def bindArguments : List Variable → List Value → CodegenM Unit
  | [], _ => return ()
  | var :: vars, arg :: args => do
      codegenVariable var arg
      bindArguments vars args
  | _ :: _, [] => throw .assertion

/-- `codegenFunctionBody`. -/
def codegenFunctionBody (inst : InstanceFrame) (parents : FunctionInstance) :
    CodegenM Unit := do
  let body ← assertSome inst.decl.body
  let args ← getFunctionArguments inst.value
  let vars := (← get).vars
  bindArguments inst.decl.args args
  emitFunction inst.value do
    let ret ← codegenExpr cx cx.fuel body .value
    createReturn ret
  modify fun cg =>
    { cg with
      emitted := cg.emitted ++ [⟨inst, parents, vars, cg.graph, cg.lowered⟩] }

/-- The code of a function, by the kind of its declaration. -/
def codegenFunctionCode (inst : InstanceFrame) (parents : FunctionInstance) : CodegenM Unit :=
  if inst.decl.attributes.extern_ then codegenFunctionExtern inst
  else if inst.decl.attributes.builtin then codegenFunctionBuiltin cx inst
  else
    match inst.decl.body with
    | some (.llvm _ _) => codegenFunctionLLVM cx inst
    | _ => codegenFunctionBody cx inst parents

/-- `codegenFunctionImpl`. -/
def codegenFunctionImpl (inst : InstanceFrame) (parents : FunctionInstance) : CodegenM Unit := do
  codegenFunctionCode cx inst parents
  modify fun cg =>
    { cg with
      functions := cg.functions.modify inst.value fun f =>
        { f with alwaysInline := f.alwaysInline || inst.decl.attributes.inline_ } }

/-- Whether a function has no blocks. -/
def FunctionBody.isEmpty : FunctionBody → Bool
  | .empty => true
  | .graph _ | .assembly _ => false

/-- `codegenFunction`. -/
def codegenFunction (instance_ : FunctionInstance) : CodegenM Unit := do
  match instance_ with
  | [] => throw .assertion
  | inst :: parents => do
      let fun_ ← assertSome (← get).functions[inst.value]?
      assert (fun_.body.isEmpty = true)
      codegenFunctionImpl cx inst parents

/-- The loop of `codegen`, for at most `count` functions. -/
def codegenPending : Nat → CodegenM Unit
  | 0 => do
      match (← get).pendingFunctions with
      | [] => return ()
      | _ => throw .outOfFuel
  | count + 1 => do
      match (← get).pendingFunctions with
      | [] => return ()
      | inst :: pending => do
          modify fun cg => { cg with pendingFunctions := pending, currentFunction := inst }
          codegenFunction cx inst
          modify fun cg => { cg with currentFunction := [] }
          codegenPending count

/-- `codegenPrepare`. The two trap intrinsics are instructions here. -/
def codegenPrepare : CodegenM Unit := do
  let _ ← runtimeNew
  let _ ← runtimeNewArray

/-- The declaration that `codegen` makes for the code of a module. -/
def entryDecl (name : Str) (location : Location) (root : Ast) : FnDecl where
  node := { id := 0 }
  var := { id := 0, kind := .function, name := name ++ ".entry".toList, location }
  tyargs := []
  args := []
  attributes := {}
  body := some root

/-- `codegen`, on a module: the function of its entry. -/
def codegen (root : Ast) : CodegenM FunctionId := do
  match root with
  | .module n name _ _ => do
      codegenPrepare
      let decl := entryDecl name n.location root
      let entry ← createFunction { name := decl.var.name, ret := .void, params := [] }
      modify fun cg =>
        { cg with
          vars := fun _ => none
          emitted := []
          pendingFunctions := [[{ value := entry, decl, entry := true }]] }
      codegenPending cx cx.fuel
      return entry
  | _ => throw .assertion

end Aike
