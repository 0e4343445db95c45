import Mathlib.Data.BitVec

/-!
# `Aike.Model.Backtrace`: the dump of a backtrace

The model of `isReadable` and `backtraceDump` of `runtime/backtrace_unix.cpp`, and of
`stackCreate` of `runtime/stack_unix.cpp`, on a machine of 64 bits. The arithmetic on
addresses is modulo `2 ^ 64`, as that of the source.

The memory is a function from an address to the word that is there. The result of the
loop is what it prints and which words it reads through the frame pointer. The names that
`dumpBacktraceFrame` finds for an address do not come from the stack, and are left out.
-/

set_option autoImplicit false

namespace Aike

/-- `uintptr_t` and `size_t`. -/
abbrev Word := BitVec 64

/-- `stackAlignment`. -/
def stackAlignment : Word := 16

/-- `isReadable`. -/
def isReadable (stack stackSize address addressSize : Word) : Bool :=
  stack ≤ address && (address - stack) + addressSize ≤ stackSize

/-- The instruction pointers that are printed, and the addresses of the words that are
read, in their order. -/
structure Backtrace where
  frames : List Word
  reads : List Word
  deriving DecidableEq, Repr

/-- The iterations of `backtraceDump` that one more iteration is in front of. -/
def Backtrace.after (reads : List Word) (nextip : Word) (rest : Backtrace) : Backtrace :=
  ⟨nextip :: rest.frames, reads ++ rest.reads⟩

/-- The loop of `backtraceDump`. Without a result, the fuel was not enough. -/
def backtraceDumpFrom (memory : Word → Word) (stack stackSize : Word) :
    Nat → Word → Option Backtrace
  | 0, _ => none
  | fuel + 1, fp =>
      if isReadable stack stackSize fp (8 * 2) && fp &&& (stackAlignment - 1) = 0 then
        let nextip := memory (fp + 8)
        let nextfp := memory fp
        if nextip = 0 ∨ nextfp ≤ fp then some ⟨[], [fp + 8, fp]⟩
        else
          (backtraceDumpFrom memory stack stackSize fuel nextfp).map
            (Backtrace.after [fp + 8, fp] nextip)
      else some ⟨[], []⟩

/-- `backtraceDump`. -/
def backtraceDump (memory : Word → Word) (stack stackSize ip fp : Word) (fuel : Nat) :
    Option Backtrace :=
  (backtraceDumpFrom memory stack stackSize fuel fp).map (Backtrace.after [] ip)

/-- `kPageSize`. -/
def kPageSize : Word := 4096

/-- `stackCreate`, with what `mmap` returns. -/
def stackCreate (ret : Word) : Word :=
  if ret = 0 then ret else ret + kPageSize

end Aike
