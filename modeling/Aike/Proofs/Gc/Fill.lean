import Aike.Model.Gc.Runtime
import Aike.Proofs.Gc.Run

/-!
# `Aike.Proofs.Gc.Fill`: a region that is filled up

The end of a region (`endptr`) is `GC_REGION_SIZE` bytes after its first chunk, and
`GC_malloc_index` gives out each chunk that starts before it. Where the first chunk is not
at the first address of the region, or the chunk size does not divide the size of a region,
the last chunk ends in the addresses of the next region.

`malloc_full` says how many blocks a program gets. `malloc_overlap_iff` says which sizes let
a program that fills a region, and then allocates in the next one, have two blocks that
overlap. The runs of `Aike.Proofs.Gc.Run` leave such programs out (`Heap.Room`).
-/

set_option autoImplicit false

namespace Aike.Gc

variable {i k size : Nat} {gc : Heap} {fuel : Nat} {stack : MachineStack}

/-- The blocks of a program that allocates blocks of the sizes. -/
def Heap.mallocs (fuel : Nat) (stack : MachineStack) :
    List Nat → Heap → Except Stop (List Nat × Heap)
  | [], gc => .ok ([], gc)
  | size :: sizes, gc =>
      (gc.malloc fuel stack size).bind fun block =>
        (Heap.mallocs fuel stack sizes block.2).map fun rest => (block.1 :: rest.1, rest.2)

/-- Some blocks are allocated by allocating the first and then the others. -/
theorem Heap.mallocs_cons {block : Nat × Heap} (h : gc.malloc fuel stack size = .ok block)
    (sizes : List Nat) :
    gc.mallocs fuel stack (size :: sizes)
      = (block.2.mallocs fuel stack sizes).map fun rest => (block.1 :: rest.1, rest.2) := by
  show (gc.malloc fuel stack size).bind _ = _
  rw [h]
  rfl

/-- How many chunks of a region start before its end. -/
def regionChunks (i : Nat) : Nat := (gcRegionSize + regionSize i - 1) / regionSize i

/-- A chunk starts before the end of its region if and only if its index is below the
number of those that do. -/
theorem lt_regionChunks_iff : k < regionChunks i ↔ k * regionSize i < gcRegionSize := by
  have hpos := regionSize_pos i
  unfold regionChunks
  rw [Nat.lt_iff_add_one_le, Nat.le_div_iff_mul_le hpos, Nat.add_mul, Nat.one_mul]
  omega

/-- One chunk at least starts in every region. -/
theorem regionChunks_pos (i : Nat) : 0 < regionChunks i := by
  rw [lt_regionChunks_iff, Nat.zero_mul]
  decide

/-- What `GC_malloc_index` gives out for the chunk: the null pointer after the end. -/
def nextChunk (i k : Nat) : Nat := if k < regionChunks i then chunk i k else 0

/-- The memory after a chunk is in the memory of the collector, but for the last region. -/
theorem chunk_mapped (hi : i < gcNumRegions) (hk : k < regionChunks i)
    (hlast : i + 1 < gcNumRegions ∨ k = 0) :
    chunk i (k + 1) + max (regionSize i) (gcProtectLen * gcPagesize)
      ≤ gcMemory + gcNumRegions * gcRegionSize := by
  have hsize := regionSize_le hi
  have hstart := (regionStart_spec i).2.2
  have hfull := lt_regionChunks_iff.mp hk
  have hn : gcNumRegions = 768 := rfl
  have hregion : gcRegionSize = 4294967296 := rfl
  have hmemory : gcMemory = 8589934592 := rfl
  have hindex : indexRegion i = 8589934592 + i * 4294967296 := rfl
  have hprotect : gcProtectLen * gcPagesize = 65536 := rfl
  have hmax : max (regionSize i) 65536 ≤ 2 ^ 28 := by omega
  rw [chunk_succ, hprotect]
  unfold chunk
  rw [hn] at hi hlast ⊢
  rw [hregion] at hfull ⊢
  rw [hmemory]
  rcases hlast with hlast | rfl <;> omega

/-- A region is filled up to a number of chunks, none of which is free, and the collector is
disabled. -/
structure Heap.Filled (gc : Heap) (i k : Nat) : Prop where
  disabled : gc.enabled = false
  fixed : (gc.regions i).Fixed i
  freelist : (gc.regions i).freelist = 0
  swept : (gc.regions i).markendptr ≤ (gc.regions i).markstartptr
  freeptr : (gc.regions i).freeptr = chunk i k

/-- All regions are empty at the start. -/
theorem gcInit_filled (hi : i < gcNumRegions) (memory : Bytes) : (gcInit memory).Filled i 0 where
  disabled := rfl
  fixed := initRegion_fixed hi
  freelist := rfl
  swept := Nat.le_refl _
  freeptr := (chunk_zero i).symm

/-- A region gives out its next chunk until it is full, and counts the chunks after its end
too. -/
theorem Heap.Filled.fresh (h : gc.Filled i k) (hi : i < gcNumRegions)
    (hlast : i + 1 < gcNumRegions ∨ k = 0) :
    ∃ protectptr, gc.fresh i
      = (nextChunk i k, gc.setRegion i ((gc.regions i).grown protectptr)) := by
  have hsucc := chunk_succ i k
  have hend : (gc.regions i).freeptr ≥ (gc.regions i).endptr ↔ ¬ k < regionChunks i := by
    rw [lt_regionChunks_iff, h.freeptr, h.fixed.endptr]
    unfold chunk
    omega
  unfold Heap.fresh nextChunk
  simp only
  by_cases hk : k < regionChunks i
  · rw [if_neg (fun hge => hend.mp hge hk), if_pos hk]
    have hmapped := chunk_mapped hi hk hlast
    by_cases hbeyond : (gc.regions i).freeptr + (gc.regions i).size ≥ (gc.regions i).protectptr
    · have hprotect : protectMemory (gc.regions i).protectptr
          (max (gc.regions i).size (gcProtectLen * gcPagesize)) = true := by
        rw [h.freeptr, h.fixed.size, ← hsucc] at hbeyond
        unfold protectMemory
        rw [decide_eq_true_iff, h.fixed.size]
        exact Nat.le_trans (Nat.add_le_add_right hbeyond _) hmapped
      rw [if_pos hbeyond, if_pos hprotect, ← h.freeptr]
      exact ⟨_, rfl⟩
    · rw [if_neg hbeyond, ← h.freeptr]
      exact ⟨_, rfl⟩
  · rw [if_pos (hend.mpr hk), if_neg hk]
    exact ⟨_, rfl⟩

/-- Other fields than those of the regions do not matter. -/
theorem Heap.Filled.congr {gc' : Heap} (h : gc.Filled i k) (henabled : gc'.enabled = false)
    (hregion : gc'.regions i = gc.regions i) : gc'.Filled i k where
  disabled := henabled
  fixed := hregion ▸ h.fixed
  freelist := hregion ▸ h.freelist
  swept := hregion ▸ h.swept
  freeptr := hregion ▸ h.freeptr

/-- The region has one more chunk. -/
theorem Heap.Filled.grown (h : gc.Filled i k) (protectptr : Nat) :
    (gc.setRegion i ((gc.regions i).grown protectptr)).Filled i (k + 1) where
  disabled := h.disabled
  fixed := by
    rw [Heap.setRegion_self]
    exact ⟨h.fixed.size, h.fixed.invSize, h.fixed.startptr, h.fixed.endptr, h.fixed.startidx⟩
  freelist := by
    rw [Heap.setRegion_self]
    exact h.freelist
  swept := by
    rw [Heap.setRegion_self]
    exact h.swept
  freeptr := by
    rw [Heap.setRegion_self, chunk_succ, ← h.freeptr, ← h.fixed.size]
    rfl

/-- An allocation gives out the next chunk of the region, and leaves the other regions
alone. -/
theorem Heap.Filled.malloc (h : gc.Filled i k) (hclass : mallocClass size = some i)
    (hi : i < gcNumRegions) (hlast : i + 1 < gcNumRegions ∨ k = 0) (fuel : Nat)
    (stack : MachineStack) :
    ∃ gc', gc.malloc fuel stack size = .ok (nextChunk i k, gc') ∧ gc'.Filled i (k + 1) ∧
      ∀ j ≠ i, ∀ m, gc.Filled j m → gc'.Filled j m := by
  have hdue : ¬ gc.due (gc.regions i).size := by
    unfold Heap.due
    rw [h.disabled]
    simp
  have hcounted : Heap.Filled { gc with allocSize := gc.allocSize + (gc.regions i).size } i k :=
    h.congr h.disabled rfl
  rcases hcounted.fresh hi hlast with ⟨protectptr, hfresh⟩
  refine ⟨_, ?_, hcounted.grown protectptr, fun j hj m hm => ?_⟩
  · unfold Heap.malloc
    rw [hclass]
    show gc.mallocIndex fuel stack i = _
    unfold Heap.mallocIndex Heap.maybeCollect
    rw [if_neg hdue]
    show Heap.allocate _ i = _
    unfold Heap.allocate Heap.refill
    rw [if_neg (not_not_intro hcounted.freelist)]
    simp only
    rw [if_neg (Nat.not_lt.mpr hcounted.swept), hfresh]
  · exact hm.congr h.disabled (Heap.setRegion_of_ne hj)

/-- A program that allocates in one region gets its chunks one after the other. -/
theorem Heap.Filled.mallocs (hclass : mallocClass size = some i) (hi : i + 1 < gcNumRegions)
    (fuel : Nat) (stack : MachineStack) (sizes : List Nat) (n : Nat) :
    ∀ {gc : Heap} {k : Nat}, gc.Filled i k →
    ∃ gc' : Heap, gc'.Filled i (k + n) ∧ (∀ j ≠ i, ∀ m, gc.Filled j m → gc'.Filled j m) ∧
      gc.mallocs fuel stack (List.replicate n size ++ sizes)
        = (gc'.mallocs fuel stack sizes).map fun rest =>
            ((List.range' k n).map (nextChunk i) ++ rest.1, rest.2) := by
  induction n with
  | zero =>
      intro gc k h
      refine ⟨gc, h, fun j _ m hm => hm, ?_⟩
      cases hrest : gc.mallocs fuel stack sizes <;> simp [hrest, Except.map]
  | succ n ih =>
      intro gc k h
      have hi' : i < gcNumRegions := by omega
      rcases h.malloc hclass hi' (Or.inl hi) fuel stack with ⟨gc₁, hmalloc, hfilled, hothers⟩
      rcases ih hfilled with ⟨gc', hfilled', hothers', hmallocs⟩
      refine ⟨gc', ?_, fun j hj m hm => hothers' j hj m (hothers j hj m hm), ?_⟩
      · rw [show k + (n + 1) = k + 1 + n by omega]
        exact hfilled'
      · rw [List.replicate_succ, List.cons_append, Heap.mallocs_cons hmalloc, hmallocs]
        cases gc'.mallocs fuel stack sizes <;> simp [Except.map, List.range'_succ]

/-- A program that allocates blocks of one size gets as many as start before the end of the
region, and then null pointers. The region counts them all. -/
theorem malloc_full (hclass : mallocClass size = some i) (hi : i + 1 < gcNumRegions)
    (memory : Bytes) (fuel : Nat) (stack : MachineStack) (n : Nat) :
    ∃ gc', (gcInit memory).mallocs fuel stack (List.replicate n size)
        = .ok ((List.range n).map (nextChunk i), gc') ∧
      (gc'.regions i).freeptr = chunk i n := by
  have hi' : i < gcNumRegions := by omega
  rcases Heap.Filled.mallocs hclass hi fuel stack [] n (gcInit_filled hi' memory) with
    ⟨gc', hfilled, -, hmallocs⟩
  refine ⟨gc', ?_, ?_⟩
  · rw [List.append_nil] at hmallocs
    rw [hmallocs, List.range_eq_range']
    show Except.ok ((List.range' 0 n).map (nextChunk i) ++ [], gc') = _
    rw [List.append_nil]
  · rw [hfilled.freeptr, Nat.zero_add]

/-- The region of blocks of 255 megabytes is full after 17 of them. -/
theorem malloc_full_huge : ∃ gc',
    (gcInit zeros).mallocs 0 ⟨0, 0⟩ (List.replicate 19 267386880)
      = .ok ((List.range 17).map (chunk 766) ++ [0, 0], gc') ∧
    (gc'.regions 766).freeptr = chunk 766 19 := by
  have hfull := malloc_full (by decide : mallocClass 267386880 = some 766) (by decide) zeros 0
    ⟨0, 0⟩ 19
  have hchunks :
      (List.range 19).map (nextChunk 766) = (List.range 17).map (chunk 766) ++ [0, 0] := by
    decide
  rw [hchunks] at hfull
  exact hfull

/-! ### The block after the region -/

/-- No size goes to the first region of larger chunks. -/
theorem mallocClass_ne (h : mallocClass size = some i) : i ≠ 256 ∧ i ≠ 512 := by
  have hcases := mallocClass_cases rfl h
  generalize (size + 2 ^ 64 - 1) % 2 ^ 64 = size1 at hcases
  omega

/-- A size of the next region is larger than the chunks of the region. -/
theorem regionSize_lt_next {size' : Nat} (hsize' : size' < 2 ^ 64)
    (hclass : mallocClass size = some i) (hclass' : mallocClass size' = some (i + 1)) :
    regionSize i < size' := by
  have hne := mallocClass_ne hclass
  have hne' := mallocClass_ne hclass'
  have hspec := (mallocClass_spec hsize' hclass').2.2.2
  have hunit := indexUnit_eq (i + 1)
  have hsizes := regionSize_eq i
  have hsizes' := regionSize_eq (i + 1)
  omega

/-- A program that fills a region with blocks of one size, and then allocates a block in the
next region, gets the chunks of the region and the first chunk of the next. The last block
overlaps another one if and only if the last chunk of the region reaches it. -/
theorem malloc_overlap_iff {size' : Nat} (hsize' : size' < 2 ^ 64)
    (hclass : mallocClass size = some i) (hclass' : mallocClass size' = some (i + 1))
    (memory : Bytes) (fuel : Nat) (stack : MachineStack) :
    (∃ gc', (gcInit memory).mallocs fuel stack (List.replicate (regionChunks i) size ++ [size'])
      = .ok ((List.range (regionChunks i)).map (chunk i) ++ [chunk (i + 1) 0], gc')) ∧
    ((∃ ptr ∈ (List.range (regionChunks i)).map (chunk i),
        ptr < chunk (i + 1) 0 + size' ∧ chunk (i + 1) 0 < ptr + size) ↔
      regionStart (i + 1) < chunk i (regionChunks i - 1) + size) := by
  have hi := (mallocClass_spec hsize' hclass').2.1
  have hi' : i < gcNumRegions := by omega
  have hpos := regionChunks_pos i
  constructor
  · rcases Heap.Filled.mallocs hclass hi fuel stack [size'] (regionChunks i)
      (gcInit_filled hi' memory) with ⟨gc', -, hothers, hmallocs⟩
    have hnext := hothers (i + 1) (by omega) 0 (gcInit_filled hi memory)
    rcases hnext.malloc hclass' hi (Or.inr rfl) fuel stack with ⟨gc'', hlast, -⟩
    have hfirst : nextChunk (i + 1) 0 = chunk (i + 1) 0 := if_pos (regionChunks_pos _)
    have hchunks : (List.range (regionChunks i)).map (nextChunk i)
        = (List.range (regionChunks i)).map (chunk i) :=
      List.map_congr_left fun k hk => if_pos (List.mem_range.mp hk)
    rw [hfirst] at hlast
    rw [hmallocs, Heap.mallocs_cons hlast, ← hchunks, List.range_eq_range']
    exact ⟨gc'', rfl⟩
  · have hlast : chunk i (regionChunks i - 1) < chunk (i + 1) 0 + size' := by
      have hfull : (regionChunks i - 1) * regionSize i < gcRegionSize :=
        lt_regionChunks_iff.mp (by omega)
      have hstart := (regionStart_spec i).2.2
      have hstart' := (regionStart_spec (i + 1)).2.1
      have hsucc := indexRegion_succ i
      have hnext := regionSize_lt_next hsize' hclass hclass'
      rw [chunk_zero]
      unfold chunk
      omega
    rw [← chunk_zero (i + 1)]
    constructor
    · rintro ⟨ptr, hptr, -, hover⟩
      rcases List.mem_map.mp hptr with ⟨k, hk, rfl⟩
      have hle : chunk i k ≤ chunk i (regionChunks i - 1) :=
        chunk_le i (Nat.le_sub_one_of_lt (List.mem_range.mp hk))
      omega
    · intro hover
      have hmem : regionChunks i - 1 ∈ List.range (regionChunks i) :=
        List.mem_range.mpr (by omega)
      exact ⟨_, List.mem_map_of_mem hmem, hlast, hover⟩

/-- Blocks of 48 bytes, and then one of 64 bytes. -/
theorem malloc_overlap_fortyEight :
    (∃ gc', (gcInit zeros).mallocs 0 ⟨0, 0⟩ (List.replicate (regionChunks 2) 48 ++ [64])
      = .ok ((List.range (regionChunks 2)).map (chunk 2) ++ [chunk 3 0], gc')) ∧
    ∃ ptr ∈ (List.range (regionChunks 2)).map (chunk 2),
      ptr < chunk 3 0 + 64 ∧ chunk 3 0 < ptr + 48 := by
  have hover := malloc_overlap_iff (by decide) (by decide : mallocClass 48 = some 2)
    (by decide : mallocClass 64 = some 3) zeros 0 ⟨0, 0⟩
  exact ⟨hover.1, hover.2.mpr (by decide)⟩

end Aike.Gc
