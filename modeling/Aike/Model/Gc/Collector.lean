import Aike.Lib.Bytes
import Aike.Model.Gc.Region
import Mathlib.Logic.Function.Basic

/-!
# `Aike.Model.Gc.Collector`: allocation, marking and sweeping

The model of `gjduckgc/gc.c` on Linux. The memory is a function from addresses to bytes;
it has the objects, and the links of the free lists in the first words of free objects.

The mark bits of a region are in a memory of their own. The mark stack is a list with the
top first; below it is the entry that `gc_mark` starts with. A read below the entries that
were pushed is `Stop.markStack`, and a read through a null `markptr` is `Stop.nullMarks`.
The list has no bound: `GC_MARK_STACK_SIZE`, after which the stack of the source leaves the
memory that is mapped for it, is not modelled.

`GC_collect` scans the stack of the machine, which is a parameter. The loop of `gc_mark`
has fuel. The other loops have as much as they can use.
-/

set_option autoImplicit false

namespace Aike.Gc

/-- `GC_MIN_TRIGGER`. -/
def gcMinTrigger : Nat := 100000

/-- `GC_FREELIST_LEN`. -/
def gcFreelistLen : Nat := 256

/-- `GC_PROTECT_LEN`. -/
def gcProtectLen : Nat := 16

/-- `GC_RETURN_SWEEP`. -/
def gcReturnSweep : Nat := 8

/-- `GC_MAX_ROOT_SIZE`. -/
def gcMaxRootSize : Nat := 0x40000000

/-- `GC_MAX_MARK_PUSH`. -/
def gcMaxMarkPush : Nat := 1024

/-- `GC_PAGESIZE`. -/
def gcPagesize : Nat := 4096

/-- Why a run has no result. -/
inductive Stop
  /-- `GC_handle_error` with `fatal`. -/
  | abort
  /-- A read through a null `markptr`. -/
  | nullMarks
  /-- A read below the bottom of the mark stack. -/
  | markStack
  /-- The fuel of `gc_mark` was not enough. -/
  | outOfFuel
  /-- `panic` of the runtime. -/
  | panic
  deriving DecidableEq, Repr

/-- `gc_root_s`, as `GC_root` and `GC_dynamic_root` make it. -/
inductive Root
  | static (ptr size : Nat)
  | dynamic (ptrptr sizeptr elemsize : Nat)
  deriving DecidableEq, Repr

/-- `gc_markstack_s`: the words from one address up to another. -/
structure Range where
  startptr : Nat
  endptr : Nat
  deriving DecidableEq, Repr

/-- The stack of the machine: its top, and its bottom, which is above. -/
structure MachineStack where
  top : Nat
  bottom : Nat
  deriving DecidableEq, Repr

/-- The globals of the collector, and the memory. -/
structure Heap where
  regions : Regions
  memory : Bytes
  enabled : Bool
  roots : List Root
  allocSize : Int
  triggerSize : Int
  usedSize : Int
  sweepCount : Nat

/-- The size of a root, in bytes. -/
def Root.size (memory : Bytes) : Root → Nat
  | .static _ size => size
  | .dynamic _ sizeptr elemsize => memory.readWord sizeptr * elemsize % 2 ^ 64

/-- The words of a root. -/
def Root.range (memory : Bytes) (root : Root) : Range :=
  let ptrptr := match root with
    | .static ptr _ => ptr
    | .dynamic ptrptr _ _ => memory.readWord ptrptr
  ⟨ptrptr, ptrptr + root.size memory / 8 * 8⟩

/-- `GC_init`, with the memory as it is. -/
def init (memory : Bytes) : Heap where
  regions := initRegion
  memory := memory
  enabled := true
  roots := []
  allocSize := 0
  triggerSize := gcMinTrigger
  usedSize := 0
  sweepCount := 0

/-- `GC_disable`. -/
def Heap.disable (gc : Heap) : Heap := { gc with enabled := false }

/-- `GC_enable`. -/
def Heap.enable (gc : Heap) : Heap := { gc with enabled := true }

/-- `gc_add_root`. -/
def Heap.addRoot (gc : Heap) (root : Root) : Heap := { gc with roots := root :: gc.roots }

/-- `GC_root`. -/
def Heap.root (gc : Heap) (ptr size : Nat) : Bool × Heap :=
  if size > gcMaxRootSize then (false, gc) else (true, gc.addRoot (.static ptr size))

/-- `GC_dynamic_root`. -/
def Heap.dynamicRoot (gc : Heap) (ptrptr sizeptr elemsize : Nat) : Bool × Heap :=
  (true, gc.addRoot (.dynamic ptrptr sizeptr elemsize))

/-! ### Mark bits -/

/-- `gc_mark_index`. Without a result, the bit was set before. -/
def markIndex (units : MarkUnits) (idx : Nat) : Option MarkUnits :=
  let unitidx := idx / 64
  let markmask := 1 <<< (idx % 64)
  if units unitidx &&& markmask ≠ 0 then none
  else some (Function.update units unitidx (units unitidx ||| markmask))

/-- `gc_is_marked_index`. -/
def isMarkedIndex (units : MarkUnits) (idx : Nat) : Bool :=
  (units (idx / 64) &&& 1 <<< (idx % 64)) ≠ 0

/-- The least multiple of the page size that is not below. -/
def roundUpPage (n : Nat) : Nat := (n + gcPagesize - 1) / gcPagesize * gcPagesize

/-- `gc_zero_memory`: whole pages are zeroed. -/
def zeroMemory (units : MarkUnits) (size : Nat) : MarkUnits := fun u =>
  if u * 8 < roundUpPage (size + gcPagesize) then 0 else units u

/-- An iteration of `gc_mark_init`. -/
def markInitRegion (region : Region) : Region :=
  let regionsize := region.freeptr - region.startptr
  if regionsize = 0 then region
  else
    let regionsize := regionsize / region.size
    match region.markptr with
    | none => { region with markptr := some fun _ => 0 }
    | some units => { region with markptr := some (zeroMemory units ((regionsize + 7) / 8)) }

/-- `gc_mark_init`. -/
def markInit (regions : Regions) : Regions := fun i =>
  if i < gcNumRegions then markInitRegion (regions i) else regions i

/-! ### Marking -/

/-- The variables of `gc_mark`. The current range is from `ptrptr` up to `endptr`. -/
structure Marker where
  regions : Regions
  usedSize : Int
  stack : List Range
  current : Range
  pushed : Nat
  roots : List Root

/-- An object: the index of its region, and its index there. -/
structure Object where
  region : Nat
  index : Nat
  deriving DecidableEq, Repr

/-- The object that `gc_mark` takes a word for a pointer to, if it does. -/
def object? (regions : Regions) (ptr : Nat) : Option Object :=
  if isptr ptr then
    let idx := index ptr
    let region := regions idx
    if ptr ≥ region.freeptr ∨ ptr < region.startptr then none
    else some ⟨idx, ptridx regions idx ptr⟩
  else none

/-- The exchange of the current range with the entry `pushed` below the top of the stack,
when more than `GC_MAX_MARK_PUSH` entries were pushed, and the count of those. -/
def Marker.exchange (s : Marker) : Except Stop Marker :=
  if s.pushed > gcMaxMarkPush then
    match s.stack[s.pushed]? with
    | none => .error .markStack
    | some tmp =>
        .ok { s with stack := s.stack.set s.pushed s.current, current := tmp, pushed := 0 + 1 }
  else .ok { s with pushed := s.pushed + 1 }

/-- A mark on an object, with the mark bits that have it, and the words of the object on the
mark stack. The memory that is reserved for the mark stack has an end, which is left out. -/
def Marker.push (s : Marker) (o : Object) (units : MarkUnits) : Marker :=
  let region := s.regions o.region
  let ptr := region.startptr + o.index * region.size
  { s with
    regions := Function.update s.regions o.region { region with markptr := some units }
    usedSize := s.usedSize + region.size
    stack := ⟨ptr, ptr + region.size⟩ :: s.stack }

/-- The current range without its first word. -/
def Marker.advance (s : Marker) : Marker :=
  { s with current := ⟨s.current.startptr + 8, s.current.endptr⟩ }

/-- What `gc_mark` does with the object of a word. -/
def Marker.visit (s : Marker) : Option Object → Except Stop Marker
  | none => .ok s
  | some o =>
      match (s.regions o.region).markptr with
      | none => .error .nullMarks
      | some units =>
          match markIndex units o.index with
          | none => .ok s
          | some units => (s.push o units).exchange

/-- An iteration of the inner loop of `gc_mark`. -/
def Marker.word (memory : Bytes) (s : Marker) : Except Stop Marker :=
  s.advance.visit (object? s.regions (memory.readWord s.current.startptr))

/-- An iteration of one of the two loops of `gc_mark`. Without a result, it returns. -/
def Marker.step (memory : Bytes) (s : Marker) : Except Stop (Option Marker) :=
  if s.current.startptr < s.current.endptr then (s.word memory).map some
  else
    match s.stack with
    | range :: stack => .ok (some { s with stack := stack, current := range, pushed := 0 })
    | [] =>
        match s.roots with
        | root :: roots =>
            .ok (some { s with current := root.range memory, pushed := 0, roots := roots })
        | [] => .ok none

/-- The loops of `gc_mark`. -/
def Marker.run (memory : Bytes) : Nat → Marker → Except Stop Marker
  | 0, _ => .error .outOfFuel
  | fuel + 1, s =>
      match s.step memory with
      | .error e => .error e
      | .ok none => .ok s
      | .ok (some s) => Marker.run memory fuel s

/-- `gc_mark`. -/
def mark (memory : Bytes) (fuel : Nat) (regions : Regions) (roots : List Root) :
    Except Stop Marker :=
  Marker.run memory fuel ⟨regions, 0, [], ⟨0, 0⟩, 0, roots⟩

/-! ### Sweeping -/

/-- `madvise` with `MADV_DONTNEED`. An address that is not that of a page is an error. -/
def madvise (memory : Bytes) (ptr size : Nat) : Bytes :=
  if ptr % gcPagesize = 0 then memory.zero ptr (roundUpPage size) else memory

/-- The variables of the inner loop of `gc_sweep`. -/
structure Sweeper where
  memory : Bytes
  freeptr : Nat
  ptridx : Int
  freesize : Int
  start : Bool

/-- Return the `freesize` bytes after the object `ptridx` to the system. -/
def Sweeper.giveBack (region : Region) (s : Sweeper) : Bytes :=
  if s.freesize ≥ 3 * gcPagesize then
    let offset := region.size * (s.ptridx + 1).toNat % 2 ^ 32
    let diff := offset % gcPagesize
    let diff := if diff = 0 then 0 else gcPagesize - diff
    let offset := (offset + diff) % 2 ^ 32
    let freesize := s.freesize.toNat - diff
    madvise s.memory (region.startptr + offset) (freesize - freesize % gcPagesize)
  else s.memory

/-- An iteration of the inner loop of `gc_sweep`, and whether the loop goes on. -/
def Sweeper.step (region : Region) (units : MarkUnits) (returning : Bool) (target : Int)
    (s : Sweeper) : Sweeper × Bool :=
  if s.ptridx < target ∨ isMarkedIndex units s.ptridx.toNat = true then
    let t := { s with memory := s.giveBack region, freesize := 0 }
    let t := if s.start then
        { t with freeptr := region.startptr + region.size * (s.ptridx + 1).toNat % 2 ^ 32 }
      else t
    if s.start ∧ ¬ returning then (t, false)
    else if s.ptridx < target then ({ t with start := false }, false)
    else ({ t with start := false, ptridx := s.ptridx - 1 }, true)
  else
    ({ s with
      freesize := Int.bmod (s.freesize + region.size) (2 ^ 32), ptridx := s.ptridx - 1 }, true)

/-- The inner loop of `gc_sweep`. -/
def Sweeper.run (region : Region) (units : MarkUnits) (returning : Bool) (target : Int) :
    Nat → Sweeper → Sweeper
  | 0, s => s
  | fuel + 1, s =>
      match s.step region units returning target with
      | (s, true) => Sweeper.run region units returning target fuel s
      | (s, false) => s

/-- The inner loop of `gc_sweep` and what is before and after it, for a region with
objects. -/
def sweepRegion (regions : Regions) (i : Nat) (units : MarkUnits) (returning : Bool)
    (memory : Bytes) : Region × Bytes :=
  let region := regions i
  let ptr := region.freeptr - region.size
  let last := ptridx regions i ptr
  let target := last / 2
  let s := Sweeper.run region units returning target (last + 2)
    ⟨memory, region.freeptr, last, 0, true⟩
  ({ region with
    freeptr := s.freeptr
    markstartptr := region.startptr
    markendptr := s.freeptr
    freelist := 0 }, s.memory)

/-- The variables of `gc_sweep`. -/
structure Sweep where
  regions : Regions
  memory : Bytes
  returning : Bool

/-- The region `i` and the memory after the sweep of this region. -/
def Sweep.put (s : Sweep) (i : Nat) (returning : Bool) (swept : Region × Bytes) : Sweep where
  regions := Function.update s.regions i swept.1
  memory := swept.2
  returning := returning

/-- The rest of an iteration of `gc_sweep`, for a region with objects. -/
def Sweep.chunks (s : Sweep) (i : Nat) (returning : Bool) : Option MarkUnits → Except Stop Sweep
  | none => .error .nullMarks
  | some units => .ok (s.put i returning (sweepRegion s.regions i units returning s.memory))

/-- An iteration of `gc_sweep`. -/
def Sweep.region (s : Sweep) (i : Nat) : Except Stop Sweep :=
  if (s.regions i).freeptr = (s.regions i).startptr then .ok s
  else s.chunks i (if i = gcBigIdxOffset then true else s.returning) (s.regions i).markptr

/-- `gc_sweep`. -/
def Heap.sweep (gc : Heap) : Except Stop Heap := do
  let sweepCount := gc.sweepCount + 1
  let returning : Bool := sweepCount % gcReturnSweep = 0
  let s ← (List.range gcNumRegions).foldlM Sweep.region ⟨gc.regions, gc.memory, returning⟩
  pure { gc with regions := s.regions, memory := s.memory, sweepCount := sweepCount }

/-! ### Collection -/

/-- The roots of a collection: the stack, and what was registered. -/
def Heap.allRoots (gc : Heap) (stack : MachineStack) : List Root :=
  .static stack.top (stack.bottom - stack.top) :: gc.roots

/-- `GC_collect`. -/
def Heap.collect (fuel : Nat) (stack : MachineStack) (gc : Heap) : Except Stop Heap :=
  if gc.enabled then do
    let s ← mark gc.memory fuel (markInit gc.regions) (gc.allRoots stack)
    Heap.sweep { gc with regions := s.regions, usedSize := s.usedSize }
  else pure gc

/-- `gc_maybe_collect` collects. -/
def Heap.due (gc : Heap) (size : Nat) : Prop :=
  gc.allocSize + size ≥ gc.triggerSize ∧ gc.enabled = true

instance (gc : Heap) (size : Nat) : Decidable (gc.due size) := instDecidableAnd

/-- The next `gc_trigger_size`. The quotient by `GC_SPACE_FACTOR` is exact up to `2 ^ 50`
bytes. -/
def Heap.nextTrigger (gc : Heap) (stack : MachineStack) : Nat :=
  let scanSize := 2 * (stack.bottom - stack.top)
    + (gc.roots.map (Root.size gc.memory)).sum + 2 * gc.usedSize.toNat
  max gcMinTrigger (scanSize * 4 / 7)

/-- `gc_maybe_collect`. -/
def Heap.maybeCollect (fuel : Nat) (stack : MachineStack) (gc : Heap) (size : Nat) :
    Except Stop Heap :=
  if gc.due size then do
    let gc ← Heap.collect fuel stack { gc with allocSize := gc.allocSize + size }
    pure { gc with triggerSize := gc.nextTrigger stack, allocSize := size }
  else pure { gc with allocSize := gc.allocSize + size }

/-! ### Allocation -/

/-- A region with other contents. -/
def Heap.setRegion (gc : Heap) (i : Nat) (region : Region) : Heap :=
  { gc with regions := Function.update gc.regions i region }

/-- The object at the front of the free list, which is not empty. -/
def Heap.pop (gc : Heap) (idx : Nat) : Nat × Heap :=
  let region := gc.regions idx
  (region.freelist, gc.setRegion idx
    { region with freelist := unhide (gc.memory.readWord region.freelist) })

/-- The variables of the loop that looks for unmarked objects in `GC_malloc_index`. -/
structure Finder where
  memory : Bytes
  ptr : Nat
  ptridx : Nat
  i : Nat
  freelist : Nat

/-- An iteration of this loop. -/
def Finder.step (region : Region) (units : MarkUnits) (s : Finder) : Finder :=
  let t := if isMarkedIndex units s.ptridx then s
    else { s with
      memory := s.memory.writeWord s.ptr (hide s.freelist), freelist := s.ptr, i := s.i + 1 }
  { t with ptr := s.ptr + region.size, ptridx := s.ptridx + 1 }

/-- This loop. -/
def Finder.run (region : Region) (units : MarkUnits) : Nat → Finder → Finder
  | 0, s => s
  | fuel + 1, s =>
      if s.i < gcFreelistLen ∧ s.ptr < region.markendptr then
        Finder.run region units fuel (s.step region units)
      else s

/-- `gc_protect_memory`: `mprotect` fails beyond the memory that was mapped. -/
def protectMemory (ptr size : Nat) : Bool :=
  ptr + size ≤ gcMemory + gcNumRegions * gcRegionSize

/-- Step (3) of `GC_malloc_index`: fresh space. -/
def Heap.fresh (gc : Heap) (idx : Nat) : Nat × Heap :=
  let region := gc.regions idx
  let ptr := region.freeptr
  let region := { region with freeptr := ptr + region.size }
  if ptr ≥ region.endptr then (0, gc.setRegion idx region)
  else if ptr + region.size ≥ region.protectptr then
    let protectlen := max region.size (gcProtectLen * gcPagesize)
    if protectMemory region.protectptr protectlen then
      (ptr, gc.setRegion idx { region with protectptr := region.protectptr + protectlen })
    else (0, gc.setRegion idx region)
  else (ptr, gc.setRegion idx region)

/-- The memory and the region after the loop that looks for unmarked objects. -/
def Heap.found (gc : Heap) (idx : Nat) (s : Finder) : Heap :=
  Heap.setRegion { gc with memory := s.memory } idx
    { gc.regions idx with markstartptr := s.ptr, freelist := s.freelist }

/-- What is after this loop in `GC_malloc_index`. -/
def Heap.take (gc : Heap) (idx : Nat) : Nat × Heap :=
  if (gc.regions idx).freelist ≠ 0 then gc.pop idx else gc.fresh idx

/-- Steps (2) and (3) of `GC_malloc_index`, for an empty free list. -/
def Heap.refill (gc : Heap) (idx : Nat) : Except Stop (Nat × Heap) :=
  let region := gc.regions idx
  if region.markstartptr < region.markendptr then
    match region.markptr with
    | none => .error .nullMarks
    | some units =>
        let ptr := region.markstartptr
        let s := Finder.run region units ((region.markendptr - ptr) / region.size + 1)
          ⟨gc.memory, ptr, ptridx gc.regions idx ptr, 0, 0⟩
        .ok ((gc.found idx s).take idx)
  else .ok (gc.fresh idx)

/-- `GC_malloc_index` after the first step. The null pointer is the failure. -/
def Heap.allocate (gc : Heap) (idx : Nat) : Except Stop (Nat × Heap) :=
  if (gc.regions idx).freelist ≠ 0 then .ok (gc.pop idx) else gc.refill idx

/-- `GC_malloc_index`. -/
def Heap.mallocIndex (fuel : Nat) (stack : MachineStack) (gc : Heap) (idx : Nat) :
    Except Stop (Nat × Heap) := do
  let gc ← gc.maybeCollect fuel stack (gc.regions idx).size
  gc.allocate idx

/-- `GC_malloc`, from the region of the size on. -/
def Heap.mallocClassed (fuel : Nat) (stack : MachineStack) (gc : Heap) :
    Option Nat → Except Stop (Nat × Heap)
  | none => .error .abort
  | some idx => gc.mallocIndex fuel stack idx

/-- `GC_malloc`. -/
def Heap.malloc (fuel : Nat) (stack : MachineStack) (gc : Heap) (size : Nat) :
    Except Stop (Nat × Heap) := gc.mallocClassed fuel stack (mallocClass size)

/-- `GC_free_nonnull`. -/
def Heap.freeNonnull (gc : Heap) (ptr : Nat) : Heap :=
  let idx := index ptr
  let region := gc.regions idx
  Heap.setRegion
    { gc with
      memory := gc.memory.writeWord ptr (hide region.freelist), allocSize := gc.allocSize - idx }
    idx { region with freelist := ptr }

/-- `GC_realloc`, from the new block on. -/
def Heap.reallocIn (ptr size : Nat) (block : Nat × Heap) : Nat × Heap :=
  if block.1 = 0 then block
  else
    let gc := block.2
    let cpySize := min size (gc.regions (index ptr)).size
    (block.1, Heap.freeNonnull { gc with memory := gc.memory.copy block.1 ptr cpySize } ptr)

/-- `GC_realloc`. -/
def Heap.realloc (fuel : Nat) (stack : MachineStack) (gc : Heap) (ptr size : Nat) :
    Except Stop (Nat × Heap) :=
  if ptr = 0 then gc.malloc fuel stack size
  else if sizeIndex size = index ptr then .ok (ptr, gc)
  else (gc.malloc fuel stack size).map (Heap.reallocIn ptr size)

end Aike.Gc
