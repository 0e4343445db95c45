import Aike.Model.Gc.Region

/-!
# `Aike.Proofs.Gc.Index`: sizes and indexes

A region has chunks of one size, and the sizes of the regions go up in three steps
(`regionSize_eq`). A size that `GC_malloc` accepts goes to a region whose chunks have room
for it (`mallocClass_spec`).

`gc_objidx` divides an address by the chunk size of its region, by a multiplication with
`inv_size`. `objidx_eq_div_iff` says for which addresses of a region the quotient is right,
and `objidx_eq_div` gives a simple condition: the chunks are not huge, or the address is
not one of the last 64 bytes of its chunk.
-/

set_option autoImplicit false

namespace Aike.Gc

variable {i ptr : Nat}

/-! ### Sizes -/

/-- The chunk sizes, in the three kinds of regions. -/
theorem regionSize_eq (i : Nat) :
    (i ≤ 256 ∧ regionSize i = 16 * (i + 1)) ∨
    (256 < i ∧ i ≤ 512 ∧ regionSize i = 4096 * (i - 255)) ∨
    (512 < i ∧ regionSize i = 1048576 * (i - 511)) := by
  have hbig : gcBigIdxOffset = 256 := rfl
  have hhuge : gcHugeIdxOffset = 512 := rfl
  unfold regionSize indexUnit
  rw [hbig, hhuge]
  split
  case isTrue h =>
      split
      case isTrue h' =>
          have : (i - unitOffset gcHugeUnit) * gcHugeUnit + gcHugeUnit
              = (i - 512) * 1048576 + 1048576 := rfl
          simp only [this]
          omega
      case isFalse h' =>
          have : (i - unitOffset gcBigUnit) * gcBigUnit + gcBigUnit
              = (i - 256) * 4096 + 4096 := rfl
          simp only [this]
          omega
  case isFalse h =>
      have : (i - unitOffset gcUnit) * gcUnit + gcUnit = (i - 0) * 16 + 16 := rfl
      simp only [this]
      omega

/-- The units, in the three kinds of regions. -/
theorem indexUnit_eq (i : Nat) :
    (i ≤ 256 ∧ indexUnit i = 16) ∨ (256 < i ∧ i ≤ 512 ∧ indexUnit i = 4096) ∨
    (512 < i ∧ indexUnit i = 1048576) := by
  have hbig : gcBigIdxOffset = 256 := rfl
  have hhuge : gcHugeIdxOffset = 512 := rfl
  have hunits : gcUnit = 16 ∧ gcBigUnit = 4096 ∧ gcHugeUnit = 1048576 := ⟨rfl, rfl, rfl⟩
  unfold indexUnit
  rw [hbig, hhuge, hunits.1, hunits.2.1, hunits.2.2]
  split
  case isTrue h => split <;> omega
  case isFalse h => omega

/-- No chunk is smaller than 16 bytes. -/
theorem regionSize_ge (i : Nat) : 16 ≤ regionSize i := by
  rcases regionSize_eq i with h | h | h <;> omega

/-- No chunk is empty. -/
theorem regionSize_pos (i : Nat) : 0 < regionSize i :=
  Nat.lt_of_lt_of_le (by omega) (regionSize_ge i)

/-- No chunk is larger than 256 MB. -/
theorem regionSize_le (hi : i < gcNumRegions) : regionSize i ≤ 2 ^ 28 := by
  have hn : gcNumRegions = 768 := rfl
  rcases regionSize_eq i with h | h | h <;> omega

/-- The size of a chunk is a multiple of 16, so all chunks are aligned like the first one. -/
theorem regionSize_mod (i : Nat) : regionSize i % 16 = 0 := by
  rcases regionSize_eq i with h | h | h <;> omega

/-- A region is large for the chunks before those of the next region. -/
theorem regionSize_mul_lt (hi : i < gcNumRegions) :
    (i + 3) * gcRegionSize < regionSize i * 2 ^ 32 := by
  have hn : gcNumRegions = 768 := rfl
  have hsize : gcRegionSize = 2 ^ 32 := rfl
  rw [hsize]
  rcases regionSize_eq i with h | h | h <;> omega

/-- The region of a size, in the three kinds of regions. -/
theorem mallocClass_cases {size idx size1 : Nat} (hsize1 : size1 = (size + 2 ^ 64 - 1) % 2 ^ 64)
    (h : mallocClass size = some idx) :
    (size1 < 4096 ∧ idx = size1 / 16) ∨
    (4096 ≤ size1 ∧ size1 < 1048576 ∧ idx = 256 + size1 / 4096) ∨
    (1048576 ≤ size1 ∧ idx = 512 + size1 / 1048576 ∧ idx < gcNumRegions) := by
  have hunits : gcUnit = 16 ∧ gcBigUnit = 4096 ∧ gcHugeUnit = 1048576 := ⟨rfl, rfl, rfl⟩
  have hoffsets : gcBigIdxOffset = 256 ∧ gcHugeIdxOffset = 512 := ⟨rfl, rfl⟩
  unfold mallocClass at h
  simp only [hunits, hoffsets, ← hsize1] at h
  split at h
  case isTrue hsmall =>
      rw [Option.some.injEq] at h
      exact Or.inl ⟨hsmall, h.symm⟩
  case isFalse hsmall =>
      split at h
      case isTrue hbig =>
          rw [Option.some.injEq] at h
          exact Or.inr (Or.inl ⟨Nat.le_of_not_lt hsmall, hbig, h.symm⟩)
      case isFalse hbig =>
          split at h
          case isTrue => exact absurd h (by simp)
          case isFalse hhuge =>
              rw [Option.some.injEq] at h
              rw [h] at hhuge
              exact Or.inr (Or.inr ⟨Nat.le_of_not_lt hbig, h.symm, Nat.lt_of_not_le hhuge⟩)

/-- The region that a size goes to has chunks for it, and the region before it has not,
but for the two regions that no size goes to. -/
theorem mallocClass_spec {size idx : Nat} (hsize : size < 2 ^ 64)
    (h : mallocClass size = some idx) :
    0 < size ∧ idx < gcNumRegions ∧ size ≤ regionSize idx ∧
      regionSize idx < size + indexUnit idx := by
  have hn : gcNumRegions = 768 := rfl
  have hcases := mallocClass_cases rfl h
  rw [hn] at hcases ⊢
  -- A size of zero would be the largest number and is refused.
  have hpos : 0 < size := by
    rcases Nat.eq_zero_or_pos size with rfl | hpos
    · omega
    · exact hpos
  have hsize1 : (size + 2 ^ 64 - 1) % 2 ^ 64 = size - 1 := by omega
  rw [hsize1] at hcases
  have hsizes := regionSize_eq idx
  have hunit := indexUnit_eq idx
  omega

/-! ### Regions of addresses -/

/-- A region starts at a multiple of its chunk size. -/
theorem regionStart_spec (i : Nat) :
    regionStart i % regionSize i = 0 ∧ indexRegion i ≤ regionStart i ∧
      regionStart i < indexRegion i + regionSize i := by
  have hpos := regionSize_pos i
  have hmod := Nat.mod_lt (indexRegion i) hpos
  have heq : regionStart i = if indexRegion i % regionSize i ≠ 0
      then indexRegion i + (regionSize i - indexRegion i % regionSize i) else indexRegion i := rfl
  rw [heq]
  split
  case isTrue h =>
      have hdvd : (indexRegion i + (regionSize i - indexRegion i % regionSize i))
          = regionSize i * (indexRegion i / regionSize i + 1) := by
        have := Nat.div_add_mod (indexRegion i) (regionSize i)
        rw [Nat.mul_add, Nat.mul_one]
        omega
      have hzero : (indexRegion i + (regionSize i - indexRegion i % regionSize i))
          % regionSize i = 0 := by
        rw [hdvd, Nat.mul_mod_right]
      omega
  case isFalse h => omega

/-- The addresses of a region end where those of the next one start. -/
theorem indexRegion_succ (i : Nat) : indexRegion (i + 1) = indexRegion i + gcRegionSize := by
  unfold indexRegion
  rw [Nat.add_mul, Nat.one_mul, Nat.add_assoc]

/-- The region of an address. -/
theorem index_eq (hi : i < gcNumRegions) (hle : indexRegion i ≤ ptr)
    (hlt : ptr < indexRegion (i + 1)) : index ptr = i := by
  have hn : gcNumRegions = 768 := rfl
  have hle' : 8589934592 + i * 4294967296 ≤ ptr := hle
  have hlt' : ptr < 8589934592 + (i + 1) * 4294967296 := hlt
  show (ptr / 4294967296 + 2 ^ 64 - 2) % 2 ^ 64 = i
  omega

/-- `GC_isptr` tells whether an address is one of the regions', from the first to the
last. -/
theorem isptr_eq_true_iff (hptr : ptr < 2 ^ 64) :
    isptr ptr = true ↔ gcMemory ≤ ptr ∧ ptr < indexRegion gcNumRegions := by
  have hsum : indexRegion gcNumRegions = 8589934592 + 3298534883328 := rfl
  have hmem : gcMemory = 8589934592 := rfl
  have hall : gcNumRegions * gcRegionSize = 3298534883328 := rfl
  unfold isptr
  rw [decide_eq_true_iff, hsum, hmem, hall]
  omega

/-- An address of the collector is in one of the regions. -/
theorem index_lt (hptr : ptr < 2 ^ 64) (h : isptr ptr = true) :
    index ptr < gcNumRegions ∧ indexRegion (index ptr) ≤ ptr ∧
      ptr < indexRegion (index ptr + 1) := by
  have hle := ((isptr_eq_true_iff hptr).mp h).1
  have hlt := ((isptr_eq_true_iff hptr).mp h).2
  have hsum : indexRegion gcNumRegions = 8589934592 + 3298534883328 := rfl
  have hmem : gcMemory = 8589934592 := rfl
  have hn : gcNumRegions = 768 := rfl
  have hidx : index ptr = (ptr / 4294967296 + 2 ^ 64 - 2) % 2 ^ 64 := rfl
  have hidx' : index ptr = ptr / 4294967296 - 2 := by omega
  have hbase : ∀ j, indexRegion j = 8589934592 + j * 4294967296 := fun j => rfl
  rw [hbase, hbase, hidx', hn]
  omega

/-- An address of a region is one that `GC_isptr` takes, and it fits a word. -/
theorem isptr_of_region (hi : i < gcNumRegions) (hle : indexRegion i ≤ ptr)
    (hlt : ptr < indexRegion (i + 1)) : ptr < 2 ^ 64 ∧ isptr ptr = true := by
  have hn : gcNumRegions = 768 := rfl
  have hle' : 8589934592 + i * 4294967296 ≤ ptr := hle
  have hlt' : ptr < 8589934592 + (i + 1) * 4294967296 := hlt
  have hsum : indexRegion gcNumRegions = 8589934592 + 3298534883328 := rfl
  have hmem : gcMemory = 8589934592 := rfl
  have hptr : ptr < 2 ^ 64 := by omega
  exact ⟨hptr, (isptr_eq_true_iff hptr).mpr (by omega)⟩

/-! ### Division by the chunk size -/

/-- Of small numbers the signed product is the product. -/
theorem mul128_eq {x y : Nat} (hx : x < 2 ^ 63) (hy : y < 2 ^ 63) :
    mul128 x y = x * y / 2 ^ 64 := by
  have hsigned : ∀ z : Nat, z < 2 ^ 63 → signed z = z := by
    intro z hz
    exact Int.bmod_eq_of_le (by omega) (by omega)
  have hlt : x * y / 2 ^ 64 < 2 ^ 64 := by
    rw [Nat.div_lt_iff_lt_mul (by omega)]
    calc x * y ≤ 2 ^ 63 * 2 ^ 63 := Nat.mul_le_mul (by omega) (by omega)
      _ < 2 ^ 64 * 2 ^ 64 := by norm_num
  unfold mul128
  rw [hsigned x hx, hsigned y hy]
  have hcast : (x : Int) * (y : Int) / 2 ^ 64 % 2 ^ 64
      = ((x * y / 2 ^ 64 % 2 ^ 64 : Nat) : Int) := by simp
  rw [hcast, Int.toNat_natCast, Nat.mod_eq_of_lt hlt]

/-- The reciprocal of a size is less than `2 ^ 63`, as every size is at least 16. -/
theorem regionInvSize_lt (i : Nat) : regionInvSize i < 2 ^ 63 := by
  have hle : (2 ^ 64 - 1) / regionSize i ≤ (2 ^ 64 - 1) / 16 :=
    Nat.div_le_div_left (regionSize_ge i) (by omega)
  unfold regionInvSize
  omega

/-- `gc_objidx` is the upper half of the product with the reciprocal. -/
theorem objidx_eq_mulHigh {regions : Regions} (hi : i < gcNumRegions)
    (hinv : (regions i).invSize = regionInvSize i) (hle : indexRegion i ≤ ptr)
    (hlt : ptr < indexRegion (i + 1)) :
    objidx regions ptr = Reciprocal.mulHigh 64 (regionSize i) ptr % 2 ^ 32 := by
  have hptr : ptr < 2 ^ 63 := by
    have hn : gcNumRegions = 768 := rfl
    have hlt' : ptr < 8589934592 + (i + 1) * 4294967296 := hlt
    omega
  unfold objidx
  rw [index_eq hi hle hlt, hinv, mul128_eq (regionInvSize_lt i) hptr]
  rfl

/-- The index of a chunk is less than `2 ^ 32`. -/
theorem div_regionSize_lt (hi : i < gcNumRegions) (hlt : ptr < indexRegion (i + 1)) :
    ptr / regionSize i < 2 ^ 32 - 1 := by
  have hmul := regionSize_mul_lt hi
  have hn : gcNumRegions = 768 := rfl
  have hlt' : ptr < 8589934592 + (i + 1) * 4294967296 := hlt
  have hsize : gcRegionSize = 4294967296 := rfl
  rw [hsize] at hmul
  rw [Nat.div_lt_iff_lt_mul (regionSize_pos i)]
  rcases regionSize_eq i with h | h | h <;> omega

/-- When `gc_objidx` of an address is the quotient by the chunk size. -/
theorem objidx_eq_div_iff {regions : Regions} (hi : i < gcNumRegions)
    (hinv : (regions i).invSize = regionInvSize i) (hle : indexRegion i ≤ ptr)
    (hlt : ptr < indexRegion (i + 1)) :
    objidx regions ptr = ptr / regionSize i ↔
      ptr * Reciprocal.excess 64 (regionSize i) < (regionSize i - ptr % regionSize i) * 2 ^ 64 := by
  have hpos := regionSize_pos i
  have hdiv := div_regionSize_lt hi hlt
  have hlow := Reciprocal.div_le_mulHigh (w := 64) (p := ptr) hpos
  rw [objidx_eq_mulHigh hi hinv hle hlt, ← Reciprocal.mulHigh_eq_div_iff hpos]
  -- The upper half is the quotient or larger by less than the modulus.
  have hptr := (isptr_of_region hi hle hlt).1
  have hhigh := Reciprocal.mulHigh_le hpos hptr
  omega

/-- A chunk that is not huge, or an address before the last 64 bytes of its chunk. -/
def Inner (i ptr : Nat) : Prop := i ≤ 512 ∨ ptr % regionSize i + 64 ≤ regionSize i

/-- A simple condition for the quotient to be right. -/
theorem objidx_eq_div {regions : Regions} (hi : i < gcNumRegions)
    (hinv : (regions i).invSize = regionInvSize i) (hle : indexRegion i ≤ ptr)
    (hlt : ptr < indexRegion (i + 1)) (hinner : Inner i ptr) :
    objidx regions ptr = ptr / regionSize i := by
  rw [objidx_eq_div_iff hi hinv hle hlt]
  have hpos := regionSize_pos i
  have hexcess := Reciprocal.excess_lt (w := 64) hpos
  have hmod := Nat.mod_lt ptr hpos
  have hptr : ptr < 2 ^ 42 := by
    have hn : gcNumRegions = 768 := rfl
    have hlt' : ptr < 8589934592 + (i + 1) * 4294967296 := hlt
    omega
  rcases hinner with hsmall | htail
  · -- The excess is less than a megabyte and a page.
    have hsize : regionSize i ≤ 1052672 := by
      rcases regionSize_eq i with h | h | h <;> omega
    calc ptr * Reciprocal.excess 64 (regionSize i) ≤ 2 ^ 42 * 1052672 :=
          Nat.mul_le_mul (by omega) (by omega)
      _ < 1 * 2 ^ 64 := by norm_num
      _ ≤ (regionSize i - ptr % regionSize i) * 2 ^ 64 := Nat.mul_le_mul_right _ (by omega)
  · have hsize := regionSize_le hi
    calc ptr * Reciprocal.excess 64 (regionSize i) < 2 ^ 42 * 2 ^ 28 :=
          Nat.mul_lt_mul'' hptr (by omega)
      _ = 64 * 2 ^ 64 := by norm_num
      _ ≤ (regionSize i - ptr % regionSize i) * 2 ^ 64 := Nat.mul_le_mul_right _ (by omega)

end Aike.Gc
