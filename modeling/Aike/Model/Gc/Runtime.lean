import Aike.Model.Gc.Collector

/-!
# `Aike.Model.Gc.Runtime`: the objects of a program

The model of `runtime/gc.cpp`: blocks of the collector with a header before the object.
The runtime keeps the collector disabled, but for the time of `gcCollect`. A `size_t` is a
number below `2 ^ 64`.
-/

set_option autoImplicit false

namespace Aike.Gc

/-- `sizeof(GCHeader)`. -/
def gcHeaderSize : Nat := 8

/-- `sizeof(GCHeaderArray)`. -/
def gcHeaderArraySize : Nat := 16

/-- `gcAlloc`, from the result of `GC_malloc` on. -/
def gcAllocIn : Except Stop (Nat × Heap) → Except Stop (Nat × Heap)
  | .error e => .error e
  | .ok block => if block.1 = 0 then .error .panic else .ok block

/-- `gcAlloc`. -/
def gcAlloc (fuel : Nat) (stack : MachineStack) (gc : Heap) (size : Nat) :
    Except Stop (Nat × Heap) := gcAllocIn (gc.malloc fuel stack size)

/-- `gcInit`. -/
def gcInit (memory : Bytes) : Heap := (init memory).disable

/-- `gcNew`, from its block on. -/
def gcNewIn (ti size block : Nat) (gc : Heap) : Nat × Heap :=
  let memory := gc.memory.writeWord block ti
  let result := block + gcHeaderSize
  (result, { gc with memory := memory.zero result size })

/-- `gcNew`. -/
def gcNew (fuel : Nat) (stack : MachineStack) (gc : Heap) (ti size : Nat) :
    Except Stop (Nat × Heap) :=
  (gcAlloc fuel stack gc ((gcHeaderSize + size) % 2 ^ 64)).map fun block =>
    gcNewIn ti size block.1 block.2

/-- `gcNewArray`, from its block on. -/
def gcNewArrayIn (ti count size block : Nat) (gc : Heap) : Nat × Heap :=
  let memory := (gc.memory.writeWord block count).writeWord (block + 8) ti
  let result := block + gcHeaderArraySize
  (result, { gc with memory := memory.zero result size })

/-- `gcNewArray`. -/
def gcNewArray (fuel : Nat) (stack : MachineStack) (gc : Heap) (ti count elementSize : Nat) :
    Except Stop (Nat × Heap) :=
  let size := count * elementSize % 2 ^ 64
  (gcAlloc fuel stack gc ((gcHeaderArraySize + size) % 2 ^ 64)).map fun block =>
    gcNewArrayIn ti count size block.1 block.2

/-- `gcCollect`. -/
def gcCollect (fuel : Nat) (stack : MachineStack) (gc : Heap) : Except Stop Heap :=
  (gc.enable.collect fuel stack).map Heap.disable

end Aike.Gc
