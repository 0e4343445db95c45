import Aike.Lib.Llvm

/-!
# `Aike.Lib.Memory`: memory in blocks

A memory is a list of blocks, and a block is a list of cells. An access outside of a block
is not defined. `Ends` says that a run ends without a trap and what holds then; it has a
rule for each instruction.

A block that is filled from its start is `xs ++ List.replicate k zero`: `Ends.store_next`
writes the cell after `xs`.
-/

set_option autoImplicit false

namespace Llvm

variable {V α β : Type}

/-- The blocks that were allocated, in that order. -/
structure Memory (V : Type) where
  blocks : List (List V)
  deriving DecidableEq, Repr

/-- A run that reads and writes the memory. -/
abbrev Run (V α : Type) := StateT (Memory V) (Except Abort) α

/-- The address of a cell. -/
structure Slot where
  block : Nat
  index : Int
  deriving DecidableEq, Repr

/-- The cell at an address. -/
def Memory.cell? (m : Memory V) (p : Slot) : Option V :=
  if 0 ≤ p.index then (m.blocks[p.block]?).bind fun cells => cells[p.index.toNat]? else none

/-- `load`. -/
def load (p : Slot) : Run V V := fun m =>
  match m.cell? p with
  | some c => .ok (c, m)
  | none => .error .undefined

/-- `store`. -/
def store (p : Slot) (c : V) : Run V Unit := fun m =>
  match m.cell? p with
  | some _ => .ok ((), ⟨m.blocks.modify p.block fun cells => cells.set p.index.toNat c⟩)
  | none => .error .undefined

/-- A new block. -/
def alloc (count : Nat) (zero : V) : Run V Nat := fun m =>
  .ok (m.blocks.length, ⟨m.blocks ++ [List.replicate count zero]⟩)

/-- What does not touch the memory. -/
def lift (result : Except Abort α) : Run V α := fun m =>
  match result with
  | .ok a => .ok (a, m)
  | .error e => .error e

/-- The memory with one more block. -/
def Memory.push (m : Memory V) (cells : List V) : Memory V := ⟨m.blocks ++ [cells]⟩

/-- A new block leaves the earlier ones in place. -/
theorem Memory.prefix_push (m : Memory V) (cells : List V) : m.blocks <+: (m.push cells).blocks :=
  List.prefix_append _ _

/-- The block at the end. -/
theorem Memory.push_last (m : Memory V) (cells : List V) :
    (m.push cells).blocks[m.blocks.length]? = some cells := List.getElem?_concat_length

/-- The blocks before it. -/
theorem Memory.push_old {m : Memory V} {b : Nat} {old : List V} (cells : List V)
    (h : m.blocks[b]? = some old) : (m.push cells).blocks[b]? = some old := by
  obtain ⟨hlt, -⟩ := List.getElem?_eq_some_iff.mp h
  rw [Memory.push, List.getElem?_append_left hlt, h]

/-- A run ends, with a result and a memory that satisfy `Q`. -/
def Ends (run : Run V α) (m : Memory V) (Q : α → Memory V → Prop) : Prop :=
  ∃ a m', run m = .ok (a, m') ∧ Q a m'

namespace Ends

variable {run : Run V α} {m : Memory V} {Q : α → Memory V → Prop}

/-- What a run ends with may be weakened. -/
theorem mono {Q' : α → Memory V → Prop} (h : Ends run m Q) (hQ : ∀ a m', Q a m' → Q' a m') :
    Ends run m Q' := by
  obtain ⟨a, m', hrun, hq⟩ := h
  exact ⟨a, m', hrun, hQ a m' hq⟩

/-- A run without effect ends with its value and the same memory. -/
theorem pure {a : α} (h : Q a m) : Ends (pure a) m Q := ⟨a, m, rfl, h⟩

/-- Two runs one after another end if the second one does from wherever the first one
ends. -/
theorem bind {k : α → Run V β} {R : β → Memory V → Prop}
    (h : Ends run m fun a m' => Ends (k a) m' R) : Ends (run >>= k) m R := by
  obtain ⟨a, m', hrun, b, m'', hk, hr⟩ := h
  refine ⟨b, m'', ?_, hr⟩
  show (run m >>= fun p => k p.1 p.2) = _
  rw [hrun]
  exact hk

/-- A choice ends if the run that is chosen does. -/
theorem ite {c : Prop} [Decidable c] {run' : Run V α} (h : c → Ends run m Q)
    (h' : ¬ c → Ends run' m Q) : Ends (if c then run else run') m Q := by
  split
  case isTrue hc => exact h hc
  case isFalse hc => exact h' hc

/-- What does not touch the memory ends if it has a result. -/
theorem lift {result : Except Abort α} {a : α} (hresult : result = .ok a) (h : Q a m) :
    Ends (lift result) m Q := by
  subst hresult
  exact ⟨a, m, rfl, h⟩

/-- An allocation ends with a new block at the end of the memory. -/
theorem alloc {count : Nat} {zero : V} {Q : Nat → Memory V → Prop}
    (h : Q m.blocks.length (m.push (List.replicate count zero))) : Ends (alloc count zero) m Q :=
  ⟨_, _, rfl, h⟩

/-- A load ends with the cell, if there is one at the address. -/
theorem load {b i : Nat} {cells : List V} {c : V} {Q : V → Memory V → Prop}
    (hblock : m.blocks[b]? = some cells) (hcell : cells[i]? = some c) (h : Q c m) :
    Ends (load ⟨b, i⟩) m Q := by
  have hfound : m.cell? ⟨b, i⟩ = some c := by
    unfold Memory.cell?
    rw [if_pos (Int.natCast_nonneg i), hblock]
    exact hcell
  refine ⟨c, m, ?_, h⟩
  unfold Llvm.load
  rw [hfound]

/-- The cell after those that are filled, of the block at the end. -/
theorem store_next {xs : List V} {k : Nat} {zero c : V} {Q : Unit → Memory V → Prop}
    (h : Q () (m.push ((xs ++ [c]) ++ List.replicate k zero))) :
    Ends (store ⟨m.blocks.length, xs.length⟩ c) (m.push (xs ++ List.replicate (k + 1) zero)) Q := by
  -- The cell after the ones written is there, as the block has more.
  have hfound : (m.push (xs ++ List.replicate (k + 1) zero)).cell?
      ⟨m.blocks.length, xs.length⟩ = some zero := by
    unfold Memory.cell?
    rw [if_pos (Int.natCast_nonneg _), m.push_last]
    show (xs ++ List.replicate (k + 1) zero)[xs.length]? = some zero
    rw [List.getElem?_append_right (Nat.le_refl _), Nat.sub_self]
    rfl
  refine ⟨(), _, ?_, h⟩
  unfold store
  rw [hfound]
  have hset : (xs ++ List.replicate (k + 1) zero).set xs.length c =
      (xs ++ [c]) ++ List.replicate k zero := by
    rw [List.set_append_right _ _ (Nat.le_refl _), Nat.sub_self, List.append_assoc]
    rfl
  -- The block is the last one.
  have hmodify : ∀ (bs : List (List V)) (b : List V) (f : List V → List V),
      (bs ++ [b]).modify bs.length f = bs ++ [f b] := by
    intro bs b f
    induction bs with
    | nil => rfl
    | cons x bs ih => exact congrArg (x :: ·) ih
  have hblocks : (m.push (xs ++ List.replicate (k + 1) zero)).blocks.modify m.blocks.length
      (fun cells => cells.set xs.length c) = m.blocks ++ [(xs ++ [c]) ++ List.replicate k zero] :=
    (hmodify _ _ _).trans (by rw [hset])
  exact congrArg (fun blocks => Except.ok ((), Memory.mk blocks)) hblocks

end Ends

end Llvm
