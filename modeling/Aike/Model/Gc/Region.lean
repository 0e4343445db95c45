import Aike.Lib.Reciprocal
import Mathlib.Data.Int.DivMod

/-!
# `Aike.Model.Gc.Region`: the regions of the collector

The model of `gjduckgc/gc.h`, and of what `GC_init` of `gjduckgc/gc.c` writes into the
regions, with the constants of a system other than Windows.

A pointer is a number below `2 ^ 64`, and the null pointer is `0`. Sums and products of
`size_t` are written with their modulus where they can be `2 ^ 64` or more, and so are
those of `uint32_t`.
-/

set_option autoImplicit false

namespace Aike.Gc

/-- `GC_MEMORY`. -/
def gcMemory : Nat := 0x200000000

/-- `GC_REGION_SIZE`. -/
def gcRegionSize : Nat := 4294967296

/-- `GC_NUM_REGIONS`. -/
def gcNumRegions : Nat := 768

/-- `GC_ALIGNMENT`. -/
def gcAlignment : Nat := 16

/-- `GC_UNIT`. -/
def gcUnit : Nat := gcAlignment

/-- `GC_BIG_UNIT`. -/
def gcBigUnit : Nat := gcNumRegions / 3 * gcUnit

/-- `GC_HUGE_UNIT`. -/
def gcHugeUnit : Nat := gcNumRegions / 3 * gcBigUnit

/-- `GC_BIG_IDX_OFFSET`. -/
def gcBigIdxOffset : Nat := gcNumRegions / 3

/-- `GC_HUGE_IDX_OFFSET`. -/
def gcHugeIdxOffset : Nat := 2 * gcNumRegions / 3

/-- The memory of mark bits, as its units of 64 bits. -/
abbrev MarkUnits := Nat → Nat

/-- `gc_region_s`. -/
structure Region where
  size : Nat
  invSize : Nat
  freelist : Nat
  freeptr : Nat
  startptr : Nat
  endptr : Nat
  protectptr : Nat
  markstartptr : Nat
  markendptr : Nat
  markptr : Option MarkUnits
  startidx : Nat

/-- `__gc_regions`. -/
abbrev Regions := Nat → Region

/-- `GC_hide`. -/
def hide (ptr : Nat) : Nat := 2 ^ 64 - 1 - ptr

/-- `GC_unhide`. -/
def unhide (ptr : Nat) : Nat := 2 ^ 64 - 1 - ptr

/-- `GC_index_unit`. -/
def indexUnit (idx : Nat) : Nat :=
  if idx > gcBigIdxOffset then (if idx > gcHugeIdxOffset then gcHugeUnit else gcBigUnit)
  else gcUnit

/-- `GC_size_unit`. -/
def sizeUnit (size : Nat) : Nat :=
  if size > gcBigUnit then (if size > gcHugeUnit then gcHugeUnit else gcBigUnit) else gcUnit

/-- `GC_unit_offset`. -/
def unitOffset (unit : Nat) : Nat :=
  if unit = gcUnit then 0 else if unit = gcBigUnit then gcBigIdxOffset else gcHugeIdxOffset

/-- `GC_index`. -/
def index (ptr : Nat) : Nat :=
  (ptr / gcRegionSize + 2 ^ 64 - gcMemory / gcRegionSize) % 2 ^ 64

/-- `GC_index_region`: where the memory of a region starts. -/
def indexRegion (idx : Nat) : Nat := gcMemory + idx * gcRegionSize

/-- `GC_size_index`. -/
def sizeIndex (size : Nat) : Nat :=
  let unit := sizeUnit size
  (size + 2 ^ 64 - 1) % 2 ^ 32 / unit + unitOffset unit

/-- `GC_isptr`, where the underflow is deliberate. -/
def isptr (ptr : Nat) : Bool := (ptr + 2 ^ 64 - gcMemory) % 2 ^ 64 < gcNumRegions * gcRegionSize

/-- A word as the signed number that `imul` takes it for. -/
def signed (x : Nat) : Int := Int.bmod x (2 ^ 64)

/-- `GC_mul128`: the upper half of the signed product. -/
def mul128 (x y : Nat) : Nat := (signed x * signed y / 2 ^ 64 % 2 ^ 64).toNat

/-- `GC_objidx`. -/
def objidx (regions : Regions) (ptr : Nat) : Nat :=
  mul128 (regions (index ptr)).invSize ptr % 2 ^ 32

/-- `(uint32_t)(gc_objidx(ptr) - region->startidx)`, for the region `i`. -/
def ptridx (regions : Regions) (i ptr : Nat) : Nat :=
  (objidx regions ptr + 2 ^ 64 - (regions i).startidx) % 2 ^ 32

/-- `GC_base`. -/
def base (regions : Regions) (ptr : Nat) : Nat :=
  objidx regions ptr * (regions (index ptr)).size % 2 ^ 64

/-- The chunk size that `GC_init` computes for a region. -/
def regionSize (i : Nat) : Nat :=
  let unit := indexUnit i
  (i - unitOffset unit) * unit + unit

/-- The first multiple of the chunk size in a region, as `GC_init` computes it. -/
def regionStart (i : Nat) : Nat :=
  let startptr := gcMemory + i * gcRegionSize
  let size := regionSize i
  let offset := startptr % size
  if offset ≠ 0 then startptr + (size - offset) else startptr

/-- `inv_size`. -/
def regionInvSize (i : Nat) : Nat := (2 ^ 64 - 1) / regionSize i + 1

/-- What `GC_init` writes into a region. The `gc_objidx` of the start is that with the
`inv_size` of the same region. -/
def initRegion (i : Nat) : Region where
  size := regionSize i
  invSize := regionInvSize i
  freelist := 0
  freeptr := regionStart i
  startptr := regionStart i
  endptr := regionStart i + gcRegionSize
  protectptr := regionStart i
  markstartptr := regionStart i
  markendptr := regionStart i
  markptr := none
  startidx := mul128 (regionInvSize i) (regionStart i) % 2 ^ 32

/-- The region of a size, as `GC_malloc` computes it. Without a result, the size is too
large and `GC_handle_error` ends the program. -/
def mallocClass (size : Nat) : Option Nat :=
  let size1 := (size + 2 ^ 64 - 1) % 2 ^ 64
  if size1 < gcBigUnit then some (size1 / gcUnit)
  else if size1 < gcHugeUnit then some (gcBigIdxOffset + size1 / gcBigUnit)
  else
    let idx := gcHugeIdxOffset + size1 / gcHugeUnit
    if idx ≥ gcNumRegions then none else some idx

end Aike.Gc
