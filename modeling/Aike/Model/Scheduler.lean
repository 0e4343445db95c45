import Aike.Lib.Linked
import Aike.Model.Store

/-!
# `Aike.Model.Scheduler`: the coroutine scheduler

The model of `runtime/scheduler.cpp`.

A `Coro*` is the address of a `Coro` in a heap, and the null pointer is `none`. What
`malloc` returns is a parameter of `spawn`: an address that is not in use, with any
contents. A stack is named by the number of stacks that were created before it, so a
coroutine is named by its stack even after its address is used again.

A context switch does not return. `contextResume` only writes `control`, which says
whose code is next, and a step of the scheduler runs up to the next switch: the running
coroutine calls `spawn` or `yield` or returns from its function, and the worker goes
through the rest of `schedulerRun`. A context is the stack to run on and the place in
the code that its registers point to. At a place inside of `coroEntry` it has the local
variable `coro` of that call.

`log` is not in the source. It records, under the name of the stack, what happens to a
coroutine.
-/

set_option autoImplicit false

namespace Aike

/-- The name of a stack: how many were created before it. -/
abbrev StackId := Nat

/-- The address of a `Coro`. -/
abbrev CoroAddr := Nat

/-- Where the code of a captured context goes on. -/
inductive ResumePoint
  /-- The start of `coroEntry`. -/
  | entry
  /-- In `yield`, after the capture, called from the function of `coro`. -/
  | yielded (coro : CoroAddr)
  deriving DecidableEq, Repr

/-- `Context`, of a coroutine. -/
structure Context where
  stack : StackId
  point : ResumePoint
  deriving DecidableEq, Repr

/-- `Coro`. The context has no value before `contextCreate`. -/
structure Coro where
  context : Option Context
  fn : Nat
  stack : StackId
  stackSize : Nat
  prev : Option CoroAddr
  next : Option CoroAddr
  deriving DecidableEq, Repr

/-- Whose code runs. -/
inductive Control
  /-- The program before `schedulerRun`. -/
  | main
  /-- `schedulerRun`, after the capture of `worker`. -/
  | worker
  /-- The function of a coroutine, called by `coroEntry` with this `coro` on this stack. -/
  | running (coro : CoroAddr) (stack : StackId)
  /-- The program after `schedulerRun`. -/
  | returned
  deriving DecidableEq, Repr

/-- What happens to a coroutine. -/
inductive CoroEvent
  /-- `spawn` makes it. -/
  | spawned
  /-- `coroQueue` puts it on the ready list. -/
  | queued
  /-- `coroDispatch` switches to it. -/
  | resumed
  /-- Its function returns. -/
  | finished
  /-- It switches to the worker. -/
  | left
  /-- `stackDestroy` releases its stack. -/
  | released
  deriving DecidableEq, Repr

/-- What ends the program. -/
inductive Crash
  /-- An assertion fails. -/
  | assertion
  /-- A null pointer or an address that is not in use is followed. -/
  | access
  /-- A context is resumed that was never captured or created. -/
  | context
  /-- A stack is run on or released that is not mapped, or released while run on. -/
  | stack
  deriving DecidableEq, Repr

/-- The globals of the scheduler, and the memory it works on. -/
structure Scheduler where
  heap : CoroAddr → Option Coro := fun _ => none
  readyHead : Option CoroAddr := none
  readyTail : Option CoroAddr := none
  current : Option CoroAddr := none
  cleanup : Option CoroAddr := none
  /-- Whether `worker` was captured. -/
  worker : Bool := false
  /-- How many stacks were created, and which of them are mapped. -/
  stackCount : Nat := 0
  mapped : StackId → Bool := fun _ => false
  control : Control := .main
  log : List (CoroEvent × StackId) := []

namespace Scheduler

/-- `*coro`. -/
def load (s : Scheduler) (coro : CoroAddr) : Except Crash Coro :=
  match s.heap coro with
  | some c => .ok c
  | none => .error .access

/-- `*coro = c`. -/
def store (s : Scheduler) (coro : CoroAddr) (c : Coro) : Scheduler :=
  { s with heap := update s.heap coro (some c) }

/-- An assertion. -/
def check (condition : Bool) : Except Crash Unit :=
  if condition then .ok () else .error .assertion

def record (s : Scheduler) (event : CoroEvent) (stack : StackId) : Scheduler :=
  { s with log := s.log ++ [(event, stack)] }

/-- `coroQueue`. -/
def coroQueue (s : Scheduler) (coro : CoroAddr) : Except Crash Scheduler := do
  let c ← s.load coro
  let s := s.store coro { c with next := none }
  let s ← match s.readyTail with
    | some tail => do
        let c ← s.load coro
        let s := s.store coro { c with prev := some tail }
        let t ← s.load tail
        let s := s.store tail { t with next := some coro }
        pure { s with readyTail := some coro }
    | none => do
        check s.readyHead.isNone
        let c ← s.load coro
        let s := s.store coro { c with prev := none }
        pure { s with readyHead := some coro, readyTail := some coro }
  pure (s.record .queued c.stack)

/-- `contextResume`, on the context of a coroutine. At the start of `coroEntry`
the variable `coro` is read from `current`. -/
def contextResume (s : Scheduler) (c : Coro) : Except Crash Scheduler := do
  let some context := c.context | throw .context
  let s := s.record .resumed c.stack
  if s.mapped context.stack then
    match context.point, s.current with
    | .entry, some coro => pure { s with control := .running coro context.stack }
    | .entry, none => throw .access
    | .yielded coro, _ => pure { s with control := .running coro context.stack }
  else throw .stack

/-- `coroReturn`: `contextResume` on the context of the worker. -/
def coroReturn (s : Scheduler) (stack : StackId) : Except Crash Scheduler :=
  if s.worker then pure { s.record .left stack with control := .worker }
  else throw .context

/-- `coroDispatch`. It returns, with nothing changed, when the ready list is empty. -/
def coroDispatch (s : Scheduler) : Except Crash Scheduler :=
  match s.readyHead with
  | some head => do
      let c ← s.load head
      check c.prev.isNone
      let s ← match c.next with
        | some next => do
            let n ← s.load next
            let s := s.store next { n with prev := none }
            let c ← s.load head
            let s := { s with readyHead := c.next }
            pure (s.store head { c with next := none })
        | none => do
            check (s.readyTail = some head)
            pure { s with readyHead := none, readyTail := none }
      check s.current.isNone
      let s := { s with current := some head }
      let c ← s.load head
      s.contextResume c
  | none => pure s

/-- The end of `coroEntry`, after the call of the function of the coroutine. -/
def coroEntry (s : Scheduler) (coro : CoroAddr) (stack : StackId) :
    Except Crash Scheduler := do
  let s := { s.record .finished stack with current := none }
  check s.cleanup.isNone
  coroReturn { s with cleanup := some coro } stack

/-- `spawn`. `coro` is what `malloc` returns, and `memory` is what is there. -/
def spawn (s : Scheduler) (fn : Nat) (coro : CoroAddr) (memory : Coro) :
    Except Crash Scheduler :=
  -- stackCreate maps a new stack, contextCreate points the context at coroEntry.
  let stack := s.stackCount
  let s := { s with stackCount := stack + 1, mapped := update s.mapped stack true }
  let s := s.store coro
    { memory with
        fn := fn, stackSize := 64 * 1024, stack := stack
        context := some { stack := stack, point := .entry } }
  (s.record .spawned stack).coroQueue coro

/-- `yield`, called from the function of `coro`. The coroutine is queued before its
context is captured. -/
def yield (s : Scheduler) (coro : CoroAddr) (stack : StackId) : Except Crash Scheduler := do
  check s.current.isSome
  let some current := s.current | throw .access
  let s ← s.coroQueue current
  let c ← s.load current
  let s := s.store current { c with context := some { stack := stack, point := .yielded coro } }
  coroReturn { s with current := none } stack

/-- `stackDestroy`, called by the worker. -/
def stackDestroy (s : Scheduler) (stack : StackId) : Except Crash Scheduler :=
  if s.mapped stack && decide (s.control = .worker) then
    pure { s.record .released stack with mapped := update s.mapped stack false }
  else throw .stack

/-- `schedulerRun`, from where the context of the worker goes on. -/
def schedulerLoop (s : Scheduler) : Except Crash Scheduler := do
  let s ← match s.cleanup with
    | some coro => do
        let c ← s.load coro
        let s ← s.stackDestroy c.stack
        pure { s with heap := update s.heap coro none, cleanup := none }
    | none => pure s
  let s ← s.coroDispatch
  -- Without a switch in coroDispatch schedulerRun returns.
  if s.control = .worker then pure { s with control := .returned } else pure s

/-- A step: up to the next switch. -/
inductive Action
  /-- The program or the running coroutine calls `spawn`. -/
  | spawn (fn : Nat) (coro : CoroAddr) (memory : Coro)
  /-- The program calls `schedulerRun`. -/
  | run
  /-- The running coroutine calls `yield`. -/
  | yield
  /-- The function of the running coroutine returns. -/
  | finish
  /-- The worker goes on. -/
  | dispatch

/-- Who can do what. `malloc` does not return an address that is in use. -/
def Enabled (s : Scheduler) : Action → Prop
  | .spawn _ coro _ => s.heap coro = none ∧ s.control ≠ .worker ∧ s.control ≠ .returned
  | .run => s.control = .main
  | .yield | .finish => ∃ coro stack, s.control = .running coro stack
  | .dispatch => s.control = .worker

/-- What a step does. -/
def step (s : Scheduler) : Action → Except Crash Scheduler
  | .spawn fn coro memory => s.spawn fn coro memory
  | .run => pure { s with worker := true, control := .worker }
  | .yield => match s.control with
      | .running coro stack => s.yield coro stack
      | _ => pure s
  | .finish => match s.control with
      | .running coro stack => s.coroEntry coro stack
      | _ => pure s
  | .dispatch => s.schedulerLoop

/-- The states of a run. -/
inductive Reachable : Scheduler → Prop
  | init : Reachable {}
  | step {s s' : Scheduler} {a : Action} (h : Reachable s) (enabled : s.Enabled a)
      (hstep : s.step a = .ok s') : Reachable s'

end Scheduler

end Aike
