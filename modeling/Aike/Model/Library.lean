import Aike.Lib.Memory
import Aike.Model.Prelude

/-!
# `Aike.Model.Library`: the array functions of the prelude

The model of `array`, `map`, `filter`, `reduce` and `scan` of `library/prelude.aike`, on the
steps that `codegenFor`, `codegenIndex` and `codegenFunctionBuiltin` of
`compiler/codegen.cpp` generate for loops, indices, `newarr` and `length`.

The memory is that of the arrays. A value of each type has its own form in a cell
(`Layout`), and `gcNewArray` fills an array with the cell of zeros, which is `default`. The
function arguments are runs, and may read and write the memory. A local variable that is
assigned in a loop is the state that the loop passes on. A loop has a number of iterations
that it is cut off after (`fuel`).
-/

set_option autoImplicit false

namespace Aike.Prelude

open Llvm

/-- The values of a type, as they are in a cell. -/
class Layout (V T : Type) where
  toCell : T → V
  ofCell : V → T
  ofCell_toCell : ∀ t, ofCell (toCell t) = t

/-- `[T]`: the pointer and the size. -/
structure Arr (T : Type) where
  pointer : Nat
  size : Int32
  deriving DecidableEq, Repr

variable {V T U S σ : Type} [Inhabited V] [Layout V T] [Layout V U] [Layout V S]

/-! ### Steps -/

/-- `newarr`. -/
def newarr (size : Int32) : Run V (Arr T) := do
  let pointer ← alloc size.toNat default
  return ⟨pointer, size⟩

/-- `length`. -/
def length (a : Arr T) : Int32 := a.size

/-- `codegenIndex`, for a reference: the index is compared as an unsigned number, and is
the offset as a signed one. -/
def indexRef (a : Arr T) (index : Int32) : Run V Slot :=
  if a.size ≤ index then lift (.error .trap) else return ⟨a.pointer, index.toInt⟩

/-- The value of a variable in a slot. -/
def loadAs (T : Type) [Layout V T] (p : Slot) : Run V T := do
  let cell ← load p
  return Layout.ofCell cell

/-- The assignment to a slot. -/
def storeAs (p : Slot) (value : T) : Run V Unit := store p (Layout.toCell value : V)

/-- `codegenIndex`, for a value. -/
def indexValue (a : Arr T) (index : Int32) : Run V T := do
  let p ← indexRef a index
  loadAs T p

/-- The block `loop` of `codegenFor`, from an index on. -/
def forLoop (a : Arr T) (body : Slot → Int32 → σ → Run V σ) : Nat → Int32 → σ → Run V σ
  | 0, _, _ => lift (.error .outOfFuel)
  | fuel + 1, index, s => do
      let s ← body ⟨a.pointer, index.toInt⟩ index s
      let next := index + 1
      if next.slt a.size then forLoop a body fuel next s else return s

/-- `codegenFor`. -/
def forIn (fuel : Nat) (a : Arr T) (s : σ) (body : Slot → Int32 → σ → Run V σ) : Run V σ :=
  if BitVec.slt 0 a.size then forLoop a body fuel 0 s else return s

/-! ### Functions -/

/-- `array`. -/
def array (fuel : Nat) (size : Int32) (f : Int32 → Run V T) : Run V (Arr T) := do
  let a ← newarr size
  forIn fuel a () fun e i _ => do
    let value ← f i
    storeAs e value
  return a

/-- `map`. -/
def map (fuel : Nat) (a : Arr T) (f : T → Run V U) : Run V (Arr U) := do
  let b ← newarr (length a)
  forIn fuel a () fun e i _ => do
    let p ← indexRef b i
    let value ← f (← loadAs T e)
    storeAs p value
  return b

/-- `filter`. -/
def filter (fuel : Nat) (a : Arr T) (f : T → Run V Bool) : Run V (Arr T) := do
  let b : Arr T ← newarr (length a)
  let count ← forIn fuel a (0 : Int32) fun e _ count => do
    if ← f (← loadAs T e) then
      let p ← indexRef b count
      storeAs p (← loadAs T e)
      lift (operatorAdd count 1)
    else return count
  let c : Arr T ← newarr count
  forIn fuel c () fun _ i _ => do
    let p ← indexRef c i
    storeAs p (← indexValue b i)
  return c

/-- `reduce`. -/
def reduce (fuel : Nat) (a : Arr T) (f : S → T → Run V S) (s : S) : Run V S :=
  forIn fuel a s fun e _ r => do f r (← loadAs T e)

/-- `scan`. -/
def scan (fuel : Nat) (a : Arr T) (f : S → T → Run V S) (s : S) : Run V (Arr S) := do
  let size ← lift (operatorAdd (length a) 1)
  let r : Arr S ← newarr size
  let t ← forIn fuel a s fun e i t => do
    let p ← indexRef r i
    storeAs p t
    f t (← loadAs T e)
  let p ← indexRef r (length a)
  storeAs p t
  return r

end Aike.Prelude
