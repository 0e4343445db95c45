import Aike.Model.Gc.Collector
import Aike.Proofs.Gc.Index

/-!
# `Aike.Proofs.Gc.Layout`: the chunks of a region

The chunk `k` of a region is at `chunk i k`. A region is `Laid` if its fields are those
that `GC_init` sets and it is filled up to a whole number of chunks, inside of its range of
addresses and not up to its last byte. Chunks of laid regions do not overlap
(`chunk_apart`), and `object?` finds the chunk that an address is in (`object?_eq`). For
one of the last bytes of a huge chunk it can find the next chunk (`object?_spec`), and
`base_eq_chunk_iff` says for which addresses `GC_base` is right.
-/

set_option autoImplicit false

namespace Aike.Gc

variable {i k ptr : Nat} {regions : Regions} {r : Region} {o : Object}

/-- Where a chunk starts. -/
def chunk (i k : Nat) : Nat := regionStart i + k * regionSize i

/-- The next chunk starts where the one before it ends. -/
theorem chunk_succ (i k : Nat) : chunk i (k + 1) = chunk i k + regionSize i := by
  unfold chunk
  rw [Nat.add_mul, Nat.one_mul, Nat.add_assoc]

/-- The first chunk is at the start of the region. -/
theorem chunk_zero (i : Nat) : chunk i 0 = regionStart i := by simp [chunk]

/-- Chunks are in the order of their indexes. -/
theorem chunk_le (i : Nat) {k m : Nat} (h : k ≤ m) : chunk i k ≤ chunk i m :=
  Nat.add_le_add_left (Nat.mul_le_mul_right _ h) _

/-- They are so strictly, since no chunk is empty. -/
theorem chunk_lt_iff {m : Nat} : chunk i k < chunk i m ↔ k < m := by
  unfold chunk
  rw [Nat.add_lt_add_iff_left, Nat.mul_lt_mul_right (regionSize_pos i)]

/-- Two chunks of a region have different addresses. -/
theorem chunk_injective (i : Nat) : Function.Injective (chunk i) := by
  intro k m h
  rcases Nat.lt_trichotomy k m with hlt | heq | hlt
  · have := chunk_lt_iff (i := i) |>.mpr hlt
    omega
  · exact heq
  · have := chunk_lt_iff (i := i) |>.mpr hlt
    omega

/-- The chunks are within the addresses of their region, from below. -/
theorem le_chunk (i k : Nat) : indexRegion i ≤ chunk i k :=
  Nat.le_trans (regionStart_spec i).2.1 (Nat.le_add_right _ _)

/-- The chunk that an address is in. -/
theorem exists_chunk (h : regionStart i ≤ ptr) :
    ∃ k, chunk i k ≤ ptr ∧ ptr < chunk i (k + 1) := by
  have hdiv := Nat.div_add_mod (ptr - regionStart i) (regionSize i)
  have hmod := Nat.mod_lt (ptr - regionStart i) (regionSize_pos i)
  refine ⟨(ptr - regionStart i) / regionSize i, ?_, ?_⟩
  · unfold chunk
    rw [Nat.mul_comm]
    omega
  · rw [chunk_succ]
    unfold chunk
    rw [Nat.mul_comm]
    omega

/-- The quotient of an address by the chunk size, and the remainder. -/
theorem chunk_div (h : chunk i k ≤ ptr) (h' : ptr < chunk i (k + 1)) :
    ptr / regionSize i = regionStart i / regionSize i + k ∧
      ptr % regionSize i = ptr - chunk i k := by
  rw [chunk_succ] at h'
  have hstart : regionStart i = regionSize i * (regionStart i / regionSize i) := by
    have := Nat.div_add_mod (regionStart i) (regionSize i)
    have := (regionStart_spec i).1
    omega
  have hchunk : chunk i k = regionSize i * (regionStart i / regionSize i + k) := by
    unfold chunk
    rw [Nat.mul_add, ← hstart, Nat.mul_comm k]
  have hptr : ptr = (ptr - chunk i k) + regionSize i * (regionStart i / regionSize i + k) := by
    omega
  have hlt : ptr - chunk i k < regionSize i := by omega
  have hdiv := Nat.add_mul_div_left (ptr - chunk i k) (regionStart i / regionSize i + k)
    (regionSize_pos i)
  have hmod := Nat.add_mul_mod_self_left (ptr - chunk i k) (regionSize i)
    (regionStart i / regionSize i + k)
  rw [← hptr, Nat.div_eq_of_lt hlt, Nat.zero_add] at hdiv
  rw [← hptr, Nat.mod_eq_of_lt hlt] at hmod
  exact ⟨hdiv, hmod⟩

/-- The start of a chunk is no address at its end. -/
theorem inner_chunk (i k : Nat) : Inner i (chunk i k) := by
  have hmod : chunk i k % regionSize i = 0 := by
    rw [(chunk_div (Nat.le_refl _) (by rw [chunk_succ]; have := regionSize_pos i; omega)).2]
    omega
  unfold Inner
  rw [hmod]
  rcases regionSize_eq i with h | h | h <;> omega

/-! ### Laid regions -/

/-- The fields of a region that `GC_init` sets for good. -/
structure Region.Fixed (i : Nat) (r : Region) : Prop where
  size : r.size = regionSize i
  invSize : r.invSize = regionInvSize i
  startptr : r.startptr = regionStart i
  endptr : r.endptr = regionStart i + gcRegionSize
  startidx : r.startidx = regionStart i / regionSize i

/-- `GC_init` sets the constants of a region. -/
theorem initRegion_fixed (hi : i < gcNumRegions) : (initRegion i).Fixed i where
  size := rfl
  invSize := rfl
  startptr := rfl
  endptr := rfl
  startidx := by
    have hspec := regionStart_spec i
    have hsize := regionSize_le hi
    have hlt : regionStart i < indexRegion (i + 1) := by
      have hregion : gcRegionSize = 4294967296 := rfl
      rw [indexRegion_succ, hregion]
      omega
    have hinner : Inner i (regionStart i) := chunk_zero i ▸ inner_chunk i 0
    have hdiv : objidx initRegion (regionStart i) = regionStart i / regionSize i :=
      objidx_eq_div hi rfl hspec.2.1 hlt hinner
    unfold objidx at hdiv
    rw [index_eq hi hspec.2.1 hlt] at hdiv
    exact hdiv

/-- How many chunks a region is filled up to. -/
def Region.count (r : Region) : Nat := (r.freeptr - r.startptr) / r.size

/-- A region that is filled up to a whole number of chunks, in its range of addresses. -/
structure Region.Laid (i : Nat) (r : Region) : Prop extends r.Fixed i where
  freeptr : r.freeptr = chunk i r.count
  inRange : r.freeptr ≤ indexRegion (i + 1)
  notFull : r.count * regionSize i < gcRegionSize

/-- The count of a region that is filled up to a chunk. -/
theorem Region.Fixed.count_eq (h : r.Fixed i) (hfree : r.freeptr = chunk i k) : r.count = k := by
  unfold Region.count
  rw [hfree, h.startptr, h.size, chunk, Nat.add_sub_cancel_left,
    Nat.mul_div_cancel _ (regionSize_pos i)]

/-- A region that is filled up to a chunk is laid, if the chunk is in its addresses and
the region is not full. -/
theorem Region.Laid.of_freeptr (h : r.Fixed i) (hfree : r.freeptr = chunk i k)
    (hrange : chunk i k ≤ indexRegion (i + 1)) (hfull : k * regionSize i < gcRegionSize) :
    r.Laid i := by
  have hcount := h.count_eq hfree
  exact ⟨h, by rw [hcount, hfree], by rw [hfree]; exact hrange, by rw [hcount]; exact hfull⟩

/-- `GC_init` leaves every region laid, without any chunk. -/
theorem initRegion_laid (hi : i < gcNumRegions) : (initRegion i).Laid i := by
  have hspec := regionStart_spec i
  have hsize := regionSize_le hi
  have hregion : gcRegionSize = 4294967296 := rfl
  apply Region.Laid.of_freeptr (k := 0) (initRegion_fixed hi)
  · rw [chunk_zero]
    rfl
  · rw [chunk_zero, indexRegion_succ, hregion]
    omega
  · rw [hregion]
    omega

/-- The chunks of a laid region are in its range of addresses. -/
theorem Region.Laid.chunk_le (h : r.Laid i) (hk : k ≤ r.count) : chunk i k ≤ indexRegion (i + 1) :=
  Nat.le_trans (Gc.chunk_le i hk) (h.freeptr ▸ h.inRange)

/-- The huge chunks are few. -/
theorem Region.Laid.count_lt_of_huge (h : r.Laid i) (hi : 512 < i) : r.count < 2048 := by
  have hfull := h.notFull
  have hsize : 2097152 ≤ regionSize i := by
    rcases regionSize_eq i with h | h | h <;> omega
  have hregion : gcRegionSize = 2048 * 2097152 := rfl
  rw [hregion] at hfull
  by_contra hge
  have : 2048 * 2097152 ≤ r.count * regionSize i := Nat.mul_le_mul (by omega) hsize
  omega

/-- Chunks that are not the same do not overlap. -/
theorem chunk_apart {j m : Nat} (hi : (regions i).Laid i) (hj : (regions j).Laid j)
    (hk : k < (regions i).count) (hm : m < (regions j).count) (hne : i ≠ j ∨ k ≠ m) :
    chunk i (k + 1) ≤ chunk j m ∨ chunk j (m + 1) ≤ chunk i k := by
  have hend : chunk i (k + 1) ≤ indexRegion (i + 1) := hi.chunk_le hk
  have hend' : chunk j (m + 1) ≤ indexRegion (j + 1) := hj.chunk_le hm
  have hstart := le_chunk i k
  have hstart' := le_chunk j m
  have hmono : ∀ a b, a ≤ b → indexRegion a ≤ indexRegion b := fun a b hab =>
    Nat.add_le_add_left (Nat.mul_le_mul_right _ hab) _
  rcases Nat.lt_trichotomy i j with hlt | rfl | hlt
  · have := hmono (i + 1) j hlt
    omega
  · -- In one region, the chunks are in their order.
    have hkm : k ≠ m := by
      rcases hne with h | h
      · exact absurd rfl h
      · exact h
    rcases Nat.lt_or_gt_of_ne hkm with h | h
    · exact Or.inl (Gc.chunk_le i h)
    · exact Or.inr (Gc.chunk_le i h)
  · have := hmono (j + 1) i hlt
    omega

/-! ### The object of an address -/

/-- The index that is computed for an address in a chunk. -/
theorem ptridx_eq (hi : i < gcNumRegions) (h : (regions i).Fixed i) (hle : chunk i k ≤ ptr)
    (hlt : ptr < chunk i (k + 1)) (hrange : ptr < indexRegion (i + 1)) (hinner : Inner i ptr) :
    ptridx regions i ptr = k := by
  have hlow := Nat.le_trans (le_chunk i k) hle
  have hbound := div_regionSize_lt hi hrange
  unfold ptridx
  rw [objidx_eq_div hi h.invSize hlow hrange hinner, h.startidx, (chunk_div hle hlt).1]
  rw [(chunk_div hle hlt).1] at hbound
  generalize regionStart i / regionSize i = start at hbound ⊢
  omega

/-- The index that is computed for any address is that of its chunk or of the next. -/
theorem ptridx_le (hi : i < gcNumRegions) (h : (regions i).Fixed i) (hle : chunk i k ≤ ptr)
    (hlt : ptr < chunk i (k + 1)) (hrange : ptr < indexRegion (i + 1)) :
    ptridx regions i ptr ≤ k + 1 := by
  have hlow := Nat.le_trans (le_chunk i k) hle
  have hbound := div_regionSize_lt hi hrange
  have hpos := regionSize_pos i
  have hmul := objidx_eq_mulHigh hi h.invSize hlow hrange
  have hge := Reciprocal.div_le_mulHigh (w := 64) (p := ptr) hpos
  have hhigh := Reciprocal.mulHigh_le hpos (isptr_of_region hi hlow hrange).1
  unfold ptridx
  rw [hmul, h.startidx]
  rw [(chunk_div hle hlt).1] at hbound hge hhigh
  generalize regionStart i / regionSize i = start at hbound hge hhigh ⊢
  omega

/-- When `GC_base` of an address is the start of its chunk. -/
theorem base_eq_chunk_iff (hi : i < gcNumRegions) (h : (regions i).Fixed i)
    (hle : chunk i k ≤ ptr) (hlt : ptr < chunk i (k + 1)) (hrange : ptr < indexRegion (i + 1)) :
    base regions ptr = chunk i k ↔
      ptr * Reciprocal.excess 64 (regionSize i) < (chunk i (k + 1) - ptr) * 2 ^ 64 := by
  have hlow := Nat.le_trans (le_chunk i k) hle
  have hpos := regionSize_pos i
  have hsucc := chunk_succ i k
  have hptr := (isptr_of_region hi hlow hrange).1
  -- The chunk starts at a multiple of its size.
  have hdiv := Nat.div_add_mod ptr (regionSize i)
  rw [(chunk_div hle hlt).2] at hdiv
  have hchunk : ptr / regionSize i * regionSize i = chunk i k := by
    rw [Nat.mul_comm]
    omega
  have hiff := objidx_eq_div_iff hi h.invSize hlow hrange
  rw [(chunk_div hle hlt).2, show regionSize i - (ptr - chunk i k) = chunk i (k + 1) - ptr by omega]
    at hiff
  rw [← hiff]
  unfold base
  rw [index_eq hi hlow hrange, h.size]
  constructor
  case mp =>
      -- The index is that of the chunk or of the next, and the product does not wrap.
      intro hbase
      have hle' : objidx regions ptr ≤ ptr / regionSize i + 1 := by
        have hhigh := Reciprocal.mulHigh_le hpos hptr
        rw [objidx_eq_mulHigh hi h.invSize hlow hrange]
        exact Nat.le_trans (Nat.mod_le _ _) hhigh
      have hmul := Nat.mul_le_mul_right (regionSize i) hle'
      rw [Nat.add_mul, Nat.one_mul, hchunk] at hmul
      have hsmall : objidx regions ptr * regionSize i < 2 ^ 64 := by
        have hn : gcNumRegions = 768 := rfl
        have hrange' : ptr < 8589934592 + (i + 1) * 4294967296 := hrange
        have hsize := regionSize_le hi
        omega
      rw [Nat.mod_eq_of_lt hsmall, ← hchunk] at hbase
      exact Nat.eq_of_mul_eq_mul_right hpos hbase
  case mpr =>
      intro hobjidx
      rw [hobjidx, hchunk, Nat.mod_eq_of_lt (by omega)]

/-- In a region of huge chunks, the last word of the first chunk is taken for one of the
next chunk. -/
theorem base_eq_chunk_iff_huge :
    base initRegion (chunk 766 1 - 8) ≠ chunk 766 0 ∧
      base initRegion (chunk 766 1 - 64) = chunk 766 0 := by
  have hfixed := initRegion_fixed (i := 766) (by decide)
  have hiff : ∀ n, 0 < n → n ≤ 64 → (base initRegion (chunk 766 1 - n) = chunk 766 0 ↔
      (chunk 766 1 - n) * Reciprocal.excess 64 (regionSize 766)
        < (chunk 766 1 - (chunk 766 1 - n)) * 2 ^ 64) := by
    intro n hpos hle
    have hlarge : chunk 766 0 + 64 ≤ chunk 766 1 := by decide
    have hrange : chunk 766 1 < indexRegion (766 + 1) := by decide
    exact base_eq_chunk_iff (by decide) hfixed (by omega) (by show _ < chunk 766 1; omega)
      (by omega)
  constructor
  · exact fun h => absurd ((hiff 8 (by decide) (by decide)).mp h) (by decide)
  · exact (hiff 64 (by decide) (by decide)).mpr (by decide)

/-- A laid region contains the object. -/
def Regions.Has (regions : Regions) (o : Object) : Prop :=
  o.region < gcNumRegions ∧ o.index < (regions o.region).count

/-- An address in an object, but not at the end of a huge one, is taken for a pointer to
the object. -/
theorem object?_eq (h : (regions i).Laid i) (hi : i < gcNumRegions) (hk : k < (regions i).count)
    (hle : chunk i k ≤ ptr) (hlt : ptr < chunk i (k + 1)) (hinner : Inner i ptr) :
    object? regions ptr = some ⟨i, k⟩ := by
  have hlow := Nat.le_trans (le_chunk i k) hle
  have hrange := Nat.lt_of_lt_of_le hlt (h.chunk_le hk)
  have hfree : ptr < (regions i).freeptr := by
    rw [h.freeptr]
    exact Nat.lt_of_lt_of_le hlt (chunk_le i hk)
  have hstart : (regions i).startptr ≤ ptr := by
    rw [h.startptr, ← chunk_zero i]
    exact Nat.le_trans (chunk_le i (Nat.zero_le k)) hle
  unfold object?
  simp only [(isptr_of_region hi hlow hrange).2, index_eq hi hlow hrange, if_true]
  rw [if_neg (by omega), ptridx_eq hi h.toFixed hle hlt hrange hinner]

/-- What the object of a word is: the address is in a chunk of a region, and the object is
that chunk or, in a region of huge chunks, the next one. -/
theorem object?_spec (h : ∀ i < gcNumRegions, (regions i).Laid i) (hptr : ptr < 2 ^ 64)
    (ho : object? regions ptr = some o) :
    ∃ k, k < (regions o.region).count ∧ chunk o.region k ≤ ptr ∧ ptr < chunk o.region (k + 1) ∧
      o.region < gcNumRegions ∧ (o.index = k ∨ 512 < o.region ∧ o.index ≤ k + 1) := by
  unfold object? at ho
  split at ho
  case isFalse => exact absurd ho (by simp)
  case isTrue hisptr =>
      have hidx := index_lt hptr hisptr
      have hlaid := h (index ptr) hidx.1
      simp only at ho
      split at ho
      case isTrue => exact absurd ho (by simp)
      case isFalse hin =>
          rw [Option.some.injEq] at ho
          subst ho
          have hstart : regionStart (index ptr) ≤ ptr := by
            rw [← hlaid.startptr]
            omega
          rcases exists_chunk hstart with ⟨k, hle, hlt⟩
          have hk : k < (regions (index ptr)).count := by
            have hfree : ptr < chunk (index ptr) (regions (index ptr)).count := by
              rw [← hlaid.freeptr]
              omega
            exact chunk_lt_iff.mp (Nat.lt_of_le_of_lt hle hfree)
          refine ⟨k, hk, hle, hlt, hidx.1, ?_⟩
          by_cases hsmall : index ptr ≤ 512
          · exact Or.inl (ptridx_eq hidx.1 hlaid.toFixed hle hlt hidx.2.2 (Or.inl hsmall))
          · have hhuge : 512 < index ptr := by omega
            exact Or.inr ⟨hhuge, ptridx_le hidx.1 hlaid.toFixed hle hlt hidx.2.2⟩

end Aike.Gc
