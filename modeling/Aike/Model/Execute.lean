import Aike.Model.Ir

/-!
# `Aike.Model.Execute`: executing the emitted code

What the blocks of a function do when they run, as far as values are `bool` and
`int`. A state is a place in the code, the results of instructions, what is in the
stack slots, and the calls that were made so far. `ExecContext.step` is one
instruction, or one jump with the PHI nodes of the block that it leads to. It
answers nothing where the code ends, and for what this does not cover: addresses
are not values here, so a slot is reached by its name only.

A call is an event that can be observed. What it answers is up to the world that the
code runs in, and may depend on all calls before.
-/

set_option autoImplicit false

namespace Aike

/-- A value while code runs. -/
inductive Val
  | void
  | bool (b : Bool)
  | int (n : BitVec 32)
  deriving DecidableEq, Repr, Inhabited

namespace Val

/-- What `br` tests. -/
def isTrue : Val → Bool
  | .bool b => b
  | .void | .int _ => false

/-- What `CreateNot` computes. -/
def not : Val → Val
  | .bool b => .bool !b
  | .int n => .int (~~~ n)
  | .void => .void

end Val

/-- A call that was made: the function and the arguments. -/
structure CallEvent where
  callee : FunctionId
  args : List Val
  deriving DecidableEq, Repr

/-- What a call answers, given all calls up to this one. -/
abbrev World := List CallEvent → Val

/-- The code that runs: the function, its blocks, and its arguments. -/
structure ExecContext where
  func : FunctionId
  graph : Graph
  args : Nat → Val
  world : World

/-- A state of a run. `pc` is the next instruction of the block. -/
structure ExecState where
  block : BlockId
  pc : Nat
  regs : Nat → Val
  slots : Nat → Val
  calls : List CallEvent

namespace ExecContext

variable (x : ExecContext)

/-- What a value of the code is in a state. -/
def eval (regs : Nat → Val) (v : Value) : Option Val :=
  match v.value with
  | .int n =>
      match v.type with
      | .int 1 => some (.bool (n ≠ 0))
      | .int 32 => some (.int (BitVec.ofInt 32 n))
      | _ => none
  | .arg f i => if f = x.func then some (x.args i) else none
  | .reg f i => if f = x.func then some (regs i) else none
  | .undef => some .void
  | _ => none

/-- The slot that an address is. -/
def slot (address : Value) : Option Nat :=
  match address.value with
  | .slot f n => if f = x.func then some n else none
  | _ => none

/-- The state after an instruction with a result. -/
def result (m : ExecState) (i : Instr) (value : Val) : ExecState :=
  { m with pc := m.pc + 1, regs := update m.regs i.result value }

/-- An instruction. -/
def execInstr (m : ExecState) (i : Instr) : Option ExecState :=
  match i.op with
  | .load address _ => do
      let n ← x.slot address
      return result m i (m.slots n)
  | .store value address _ => do
      let n ← x.slot address
      let value ← x.eval m.regs value
      return { m with pc := m.pc + 1, slots := update m.slots n value }
  | .call callee args =>
      match callee.value with
      | .function f => do
          let args ← args.mapM (x.eval m.regs)
          let calls := m.calls ++ [⟨f, args⟩]
          return { result m i (x.world calls) with calls := calls }
      | _ => none
  | .not value => do
      let value ← x.eval m.regs value
      return result m i value.not
  | _ => none

/-- The value that a PHI node takes when control comes from a block. -/
def execPhi (regs : Nat → Val) (source : BlockId) (phi : Phi) : Option (Nat × Val) := do
  let (value, _) ← phi.incoming.find? fun p => p.2 = source
  let value ← x.eval regs value
  return (phi.result, value)

/-- A jump to a block. The PHI nodes take their values all at once. -/
def jump (m : ExecState) (target : BlockId) : Option ExecState := do
  let values ← (x.graph.blocks target).phis.mapM (x.execPhi m.regs m.block)
  let regs := values.foldl (fun regs (n, value) => update regs n value) m.regs
  return { m with block := target, pc := 0, regs := regs }

/-- The end of a block. -/
def execTerminator (m : ExecState) : Terminator → Option ExecState
  | .br target => x.jump m target
  | .condBr cond then_ else_ => do
      let cond ← x.eval m.regs cond
      x.jump m (if cond.isTrue then then_ else else_)
  | .ret _ | .retVoid | .unreachable => none

/-- One step of a run. -/
def step (m : ExecState) : Option ExecState :=
  let block := x.graph.blocks m.block
  match block.instrs[m.pc]? with
  | some i => x.execInstr m i
  | none => block.terminator.bind (x.execTerminator m)

end ExecContext

end Aike
