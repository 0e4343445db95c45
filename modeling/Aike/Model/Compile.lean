import Aike.Model.Resolve
import Aike.Model.Typecheck
import Aike.Model.Codegen.Function

/-!
# `Aike.Model.Compile`: the passes of a module

The model of `compileModule` in `compiler/compiler.cpp`. The inference loop ends
when a round changes nothing, which need not happen, so it runs on a number of
rounds.
-/

set_option autoImplicit false

namespace Aike

/-- One iteration of the `do` loop: the store, the errors that end the loop, and
how much changed. -/
def inferRound (fuel : Nat) (program : Program) (store : Store) (root : Ast) :
    Except Fault (Store × List Diagnostic × Nat) := do
  let (store, errors, rewrites) ← typeckPropagate fuel program store root
  if errors ≠ [] then return (store, errors, rewrites)
  let rs ← resolveMembers program store root
  return (rs.store, rs.output, rewrites + rs.counter)

/-- The `do` loop of `compileModule`, for at most `rounds` iterations. -/
def inferTypes (fuel : Nat) (program : Program) (root : Ast) :
    Nat → Store → Except Fault (Store × List Diagnostic)
  | 0, _ => .error .outOfFuel
  | rounds + 1, store => do
      let (store, errors, fixpoint) ← inferRound fuel program store root
      if errors ≠ [] then return (store, errors)
      if fixpoint ≠ 0 then inferTypes fuel program root rounds store
      else return (store, [])

/-- `compileModule` up to code generation: the store, and the errors of the pass
that reported any. -/
def checkModule (fuel : Nat) (lookup : Str → Option Ast) (program : Program) (store : Store)
    (root : Ast) : Except Fault (Store × List Diagnostic) := do
  let (store, errors) ← resolveNames lookup store root
  if errors ≠ [] then return (store, errors)
  let (store, errors) ← inferTypes fuel program root fuel store
  if errors ≠ [] then return (store, errors)
  typeckVerify program store root

/-- What `compileModule` leaves behind. -/
structure Compiled where
  store : Store
  output : List Diagnostic
  codegen : Codegen

/-- `compileModule`. The module that code is added to is that of `cg`. -/
def compileModule (fuel : Nat) (lookup : Str → Option Ast) (program : Program)
    (parseAssemblyInto : List Function → Str → Except SMDiagnostic (List Function))
    (store : Store) (cg : Codegen) (root : Ast) : Except Fault Compiled := do
  let (store, errors) ← checkModule fuel lookup program store root
  if errors ≠ [] then return ⟨store, errors, cg⟩
  let (_, cg) ← codegen ⟨program, store, fuel, parseAssemblyInto⟩ root cg
  return ⟨store, cg.output, cg⟩

end Aike
