import Mathlib.Data.Set.Basic
import Mathlib.Tactic.Simps.Basic

/-!
# `Aike.Lib.Flow.Basic`: lowering structured code to a graph of blocks

A structured program is a tree of conditionals, loops and short-circuit
operators over variables (`Tree`). It is lowered in one pass to a graph of basic
blocks, and this library is about that pass: `Lower f s s'` says that lowering
`f` in the state `s` ends in the state `s'`.

What is kept of the emitted code is what control flow and storage need: the
successors of a block, the blocks that its PHI nodes list, and the loads and
initialisations of variable slots in it. A variable declared in the code lives in
a slot of its own for each time its declaration is lowered, and the environment
maps a variable to what it was bound to last.

The lowering of each construct follows one scheme: reserve the blocks that it
needs, end the current block with a jump, go on in one of the reserved blocks.
A loop over a sequence reserves its blocks before the sequence is lowered, and
the PHI node at its head lists the block that was current then.
-/

set_option autoImplicit false

namespace Flow

/-- Structured code over the variables `α`. -/
inductive Tree (α : Type)
  | skip
  | seq (first second : Tree α)
  /-- The variable becomes a value: a parameter, or the variable of a loop. -/
  | bind (x : α)
  /-- The variable gets a slot, which is initialised here. -/
  | declare (x : α)
  /-- The variable is mentioned and its slot, if it has one, is loaded. -/
  | read (x : α)
  /-- The variable is mentioned. -/
  | mention (x : α)
  /-- Go on, or stop in a block of its own. -/
  | trap
  | shortCircuit (left right : Tree α)
  | ifElse (cond thenBody elseBody : Tree α)
  | ifThen (cond thenBody : Tree α)
  | while (cond body : Tree α)
  /-- Lower the sequence, then the loop head with the variables bound, then the
  body. -/
  | forIn (sequence : Tree α) (vars : List α) (body : Tree α)

/-- What a variable is bound to: a slot or a value of the code that is lowered,
or one of other code. -/
inductive Loc
  | slot (n : Nat)
  | value
  | foreignSlot
  | foreignValue
  deriving DecidableEq

/-- Whether a variable is bound by the code that is lowered. -/
def Loc.own : Loc → Bool
  | .slot _ | .value => true
  | .foreignSlot | .foreignValue => false

/-- What happens to slots in a block. A slot of other code has no number. -/
inductive Event
  | init (r : Option Nat)
  | load (r : Option Nat)
  deriving DecidableEq

/-- The events when a variable is read. -/
def Loc.events : Loc → List Event
  | .slot n => [.load (some n)]
  | .foreignSlot => [.load none]
  | .value | .foreignValue => []

/-- A basic block. -/
structure Block where
  /-- For each PHI node the blocks that it lists. -/
  phis : List (List Nat) := []
  events : List Event := []
  succ : Set Nat := ∅

/-- The graph under construction, and where variables are bound. -/
structure State (α : Type) where
  blocks : Nat → Block
  /-- The next block to be reserved. -/
  next : Nat
  /-- The block that code is added to. -/
  current : Nat
  env : α → Option Loc
  /-- The next slot. -/
  slots : Nat
  /-- The variables mentioned so far, with what they were bound to. -/
  mentions : List (α × Loc)

namespace State

variable {α : Type}

/-- Reserve some blocks. -/
@[simps] def reserve (s : State α) (k : Nat) : State α := { s with next := s.next + k }

/-- Give out some slots that no variable is bound to. -/
@[simps] def alloc (s : State α) (k : Nat) : State α := { s with slots := s.slots + k }

/-- End the current block. -/
@[simps] def jump (s : State α) (targets : Set Nat) : State α :=
  { s with
    blocks := fun b =>
      if b = s.current then { s.blocks b with succ := targets } else s.blocks b }

/-- Go on in another block. -/
@[simps] def enter (s : State α) (b : Nat) : State α := { s with current := b }

/-- Add events to the current block. -/
@[simps] def emit (s : State α) (es : List Event) : State α :=
  { s with
    blocks := fun b =>
      if b = s.current then { s.blocks b with events := (s.blocks b).events ++ es }
      else s.blocks b }

/-- Add a PHI node to the current block. -/
@[simps] def phi (s : State α) (incoming : List Nat) : State α :=
  { s with
    blocks := fun b =>
      if b = s.current then { s.blocks b with phis := (s.blocks b).phis ++ [incoming] }
      else s.blocks b }

/-- Add a block to the list of every PHI node of a block. -/
@[simps] def addIncoming (s : State α) (target incoming : Nat) : State α :=
  { s with
    blocks := fun b =>
      if b = target then
        { s.blocks b with phis := (s.blocks b).phis.map (· ++ [incoming]) }
      else s.blocks b }

/-- Mention a variable. -/
@[simps] def mention (s : State α) (x : α) (l : Loc) : State α :=
  { s with mentions := s.mentions ++ [(x, l)] }

variable [DecidableEq α]

/-- Bind a variable. -/
@[simps] def setEnv (s : State α) (x : α) (l : Loc) : State α :=
  { s with env := fun y => if y = x then some l else s.env y }

/-- Bind variables to values. -/
@[simps] def bindAll (s : State α) (xs : List α) : State α :=
  { s with env := fun y => if y ∈ xs then some .value else s.env y }

/-- Bind a variable to a new slot, and initialise the slot. -/
@[simps] def declare (s : State α) (x : α) : State α :=
  { s with
    blocks := fun b =>
      if b = s.current then
        { s.blocks b with events := (s.blocks b).events ++ [.init (some s.slots)] }
      else s.blocks b
    env := fun y => if y = x then some (.slot s.slots) else s.env y
    slots := s.slots + 1 }

end State

/-- `Lower f s s'`: lowering `f` in the state `s` ends in the state `s'`. -/
inductive Lower {α : Type} [DecidableEq α] : Tree α → State α → State α → Prop
  | skip (s k) : Lower .skip s (s.alloc k)
  | seq {f g s s₁ s₂} (first : Lower f s s₁) (second : Lower g s₁ s₂) : Lower (.seq f g) s s₂
  | bind (s x) : Lower (.bind x) s (s.setEnv x .value)
  | declare (s x) : Lower (.declare x) s (s.declare x)
  | read {s x l} (bound : s.env x = some l) :
      Lower (.read x) s ((s.emit l.events).mention x l)
  | mention {s x l} (bound : s.env x = some l) : Lower (.mention x) s (s.mention x l)
  | trap (s) :
      Lower .trap s (((s.reserve 2).jump {s.next, s.next + 1}).enter (s.next + 1))
  | shortCircuit {f g s s₁ s₂} (left : Lower f s s₁)
      (right : Lower g (((s₁.reserve 2).jump {s₁.next, s₁.next + 1}).enter s₁.next) s₂) :
      Lower (.shortCircuit f g) s
        (((s₂.jump {s₁.next + 1}).enter (s₁.next + 1)).phi [s₂.current, s₁.current])
  | ifElse {c t e s s₁ s₂ s₃} (cond : Lower c s s₁)
      (thenBody : Lower t (((s₁.reserve 3).jump {s₁.next, s₁.next + 1}).enter s₁.next) s₂)
      (elseBody : Lower e ((s₂.jump {s₁.next + 2}).enter (s₁.next + 1)) s₃) :
      Lower (.ifElse c t e) s ((s₃.jump {s₁.next + 2}).enter (s₁.next + 2))
  | ifElsePhi {c t e s s₁ s₂ s₃} (cond : Lower c s s₁)
      (thenBody : Lower t (((s₁.reserve 3).jump {s₁.next, s₁.next + 1}).enter s₁.next) s₂)
      (elseBody : Lower e ((s₂.jump {s₁.next + 2}).enter (s₁.next + 1)) s₃) :
      Lower (.ifElse c t e) s
        (((s₃.jump {s₁.next + 2}).enter (s₁.next + 2)).phi [s₂.current, s₃.current])
  | ifThen {c t s s₁ s₂} (cond : Lower c s s₁)
      (thenBody : Lower t (((s₁.reserve 2).jump {s₁.next, s₁.next + 1}).enter s₁.next) s₂) :
      Lower (.ifThen c t) s ((s₂.jump {s₁.next + 1}).enter (s₁.next + 1))
  | while {c b s s₁ s₂} (cond : Lower c (((s.reserve 3).jump {s.next}).enter s.next) s₁)
      (body : Lower b ((s₁.jump {s.next + 1, s.next + 2}).enter (s.next + 1)) s₂) :
      Lower (.while c b) s ((s₂.jump {s.next}).enter (s.next + 2))
  | forIn {q xs b s s₁ s₂} (sequence : Lower q (s.reserve 2) s₁)
      (body : Lower b
        ((((s₁.jump {s.next, s.next + 1}).enter s.next).phi [s.current]).bindAll xs) s₂) :
      Lower (.forIn q xs b) s
        (((s₂.jump {s.next, s.next + 1}).addIncoming s.next s₂.current).enter (s.next + 1))

/-- Lowering nothing may change nothing. -/
theorem Lower.refl {α : Type} [DecidableEq α] (s : State α) : Lower .skip s s := .skip s 0

end Flow
