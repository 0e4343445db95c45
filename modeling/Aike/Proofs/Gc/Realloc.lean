import Aike.Proofs.Gc.Run

/-!
# `Aike.Proofs.Gc.Realloc`: `GC_realloc` in a run

`GC_realloc` leaves an object where it is if the region of the new size is its own. It
computes that region from 32 bits of the size, so that this is right for a size up to
`2 ^ 32` only (`run_realloc_same`). Otherwise it allocates, copies and gives back
(`run_realloc`).
-/

set_option autoImplicit false

namespace Aike.Gc

open ObjectStore (Event)

variable {i j k size fuel ptr : Nat} {stack : MachineStack} {w : World} {gc gc' : Heap}

/-- The units of sizes. -/
theorem sizeUnit_eq (size : Nat) :
    (size ≤ 4096 ∧ sizeUnit size = 16 ∧ unitOffset (sizeUnit size) = 0) ∨
    (4096 < size ∧ size ≤ 1048576 ∧ sizeUnit size = 4096 ∧ unitOffset (sizeUnit size) = 256) ∨
    (1048576 < size ∧ sizeUnit size = 1048576 ∧ unitOffset (sizeUnit size) = 512) := by
  have hbig : gcBigUnit = 4096 := rfl
  have hhuge : gcHugeUnit = 1048576 := rfl
  by_cases h : size > 4096
  · by_cases h' : size > 1048576
    · have hunit : sizeUnit size = 1048576 := by
        unfold sizeUnit
        rw [hbig, hhuge, if_pos h, if_pos h']
      rw [hunit]
      exact Or.inr (Or.inr ⟨h', rfl, rfl⟩)
    · have hunit : sizeUnit size = 4096 := by
        unfold sizeUnit
        rw [hbig, hhuge, if_pos h, if_neg h']
      rw [hunit]
      exact Or.inr (Or.inl ⟨h, by omega, rfl, rfl⟩)
  · have hunit : sizeUnit size = 16 := by
      unfold sizeUnit
      rw [hbig, if_neg h]
      rfl
    rw [hunit]
    exact Or.inl ⟨by omega, rfl, rfl⟩

/-- A region that `GC_size_index` computes has room for the size if and only if the size is
not more than 32 bits. -/
theorem sizeIndex_room (hsize : size < 2 ^ 64) (hi : i < gcNumRegions)
    (hindex : sizeIndex size = i) : size ≤ regionSize i ↔ size ≤ 2 ^ 32 := by
  have hnum : gcNumRegions = 768 := rfl
  have hsizes := regionSize_eq i
  have hlow : 0 < size → size ≤ 2 ^ 32 → (size + 2 ^ 64 - 1) % 2 ^ 32 = size - 1 := by omega
  rw [hnum] at hi
  unfold sizeIndex at hindex
  simp only at hindex
  generalize (size + 2 ^ 64 - 1) % 2 ^ 32 = low at hlow hindex
  rcases sizeUnit_eq size with ⟨hle, hunit, hoffset⟩ | ⟨hle, hle', hunit, hoffset⟩ |
    ⟨hle, hunit, hoffset⟩ <;>
    rw [hoffset, hunit] at hindex <;> omega

/-- What `GC_realloc` does with a new block: bytes of the object are copied, and the object
is given back. -/
theorem Heap.reallocIn_spec {inUse : Set Object} {m : Nat} (h : gc.Inv (Insert.insert ⟨i, k⟩ inUse))
    (ho : ⟨j, m⟩ ∈ inUse) (hnew : ⟨i, k⟩ ∉ inUse) (hsize : size ≤ regionSize i) :
    (∃ memory',
      World.Step ⟨gc, Insert.insert ⟨i, k⟩ inUse⟩ (.write (changed gc.memory memory'))
        ⟨{ gc with memory := memory' }, Insert.insert ⟨i, k⟩ inUse⟩ ∧
      World.Step ⟨{ gc with memory := memory' }, Insert.insert ⟨i, k⟩ inUse⟩ (.free ⟨j, m⟩)
        ⟨(Heap.reallocIn (chunk j m) size (chunk i k, gc)).2,
          Insert.insert ⟨i, k⟩ inUse \ {⟨j, m⟩}⟩) ∧
      (Heap.reallocIn (chunk j m) size (chunk i k, gc)).1 = chunk i k ∧
      (∀ n < min size (regionSize j),
        (Heap.reallocIn (chunk j m) size (chunk i k, gc)).2.memory (chunk i k + n)
          = gc.memory (chunk j m + n)) ∧
      ∀ o ∈ inUse, o ≠ ⟨j, m⟩ → ∀ a, o.Covers a →
        (Heap.reallocIn (chunk j m) size (chunk i k, gc)).2.memory a = gc.memory a := by
  have hmem : (⟨i, k⟩ : Object) ∈ Insert.insert ⟨i, k⟩ inUse := Set.mem_insert _ _
  have hold : (⟨j, m⟩ : Object) ∈ Insert.insert ⟨i, k⟩ inUse := Set.mem_insert_of_mem _ ho
  have hj : j < gcNumRegions := (h.has hold).1
  have hidx : index (chunk j m) = j := h.index_chunk hold
  have hcpy : (gc.regions j).size = regionSize j := (h.laid hj).size
  have hne : (⟨i, k⟩ : Object) ≠ ⟨j, m⟩ := fun heq => hnew (heq ▸ ho)
  have hresult : Heap.reallocIn (chunk j m) size (chunk i k, gc) = (chunk i k,
      Heap.freeNonnull { gc with
        memory := gc.memory.copy (chunk i k) (chunk j m) (min size (regionSize j)) }
        (chunk j m)) := by
    unfold Heap.reallocIn
    have hpos : chunk i k ≠ 0 := Nat.ne_of_gt (chunk_pos i k)
    simp only [hpos, if_false, hidx, hcpy]
  rw [hresult]
  generalize hcopy : gc.memory.copy (chunk i k) (chunk j m) (min size (regionSize j)) = memory'
  have hend : chunk i (k + 1) = chunk i k + regionSize i := chunk_succ i k
  have hinside : ∀ n < min size (regionSize j),
      memory' (chunk i k + n) = gc.memory (chunk j m + n) := by
    intro n hn
    rw [← hcopy, Bytes.copy_inside (Nat.le_add_right _ _) (Nat.add_lt_add_left hn _),
      Nat.add_sub_cancel_left]
  -- The bytes that are written are in the new block.
  have hothers : ∀ o, gc.regions.Has o → o ≠ ⟨i, k⟩ → ∀ a, o.Covers a →
      memory' a = gc.memory a := by
    intro o hhas hne a ha
    have hapart := Regions.Has.apart (fun j hj => h.laid hj) hhas (h.has hmem) hne ha
    unfold Object.Covers at hapart
    simp only at hapart
    rw [← hcopy]
    exact Bytes.copy_outside (by omega)
  have hwrite : World.Step ⟨gc, Insert.insert ⟨i, k⟩ inUse⟩ (.write (changed gc.memory memory'))
      ⟨{ gc with memory := memory' }, Insert.insert ⟨i, k⟩ inUse⟩ :=
    .write memory' fun o hhas hnot => hothers o hhas fun heq => hnot (heq ▸ hmem)
  have hinv : Heap.Inv { gc with memory := memory' } (Insert.insert ⟨i, k⟩ inUse) := hwrite.inv h
  have hfree := (Heap.freeNonnull_spec hinv hold).2
  refine ⟨⟨memory', hwrite, .free j m hold⟩, rfl, fun n hn => ?_, fun o hmem' hne' a ha => ?_⟩
  · rw [← hinside n hn]
    exact hfree _ hmem hne _ (covers_add (by omega))
  · have hnot : o ≠ ⟨i, k⟩ := fun heq => hnew (heq ▸ hmem')
    rw [← hothers o (h.has (Set.mem_insert_of_mem _ hmem')) hnot a ha]
    exact hfree o (Set.mem_insert_of_mem _ hmem') hne' a ha

/-- In every run, `GC_realloc` of an object that survives the allocation ends with the null
pointer or a new object. The new object has the bytes of the old one, which is given back. -/
theorem run_realloc {memory : Bytes} {es : List (Event Object)} {m : Nat}
    (h : (World.start memory).Run es w) (hsize : size < 2 ^ 64)
    (hclass : mallocClass size = some i) (hroom : w.gc.Room i) (stack : MachineStack)
    (ho : ⟨j, m⟩ ∈ w.gc.survivors stack (w.gc.regions i).size w.inUse)
    (hother : sizeIndex size ≠ j) :
    ∃ fuel₀, ∀ fuel ≥ fuel₀, ∃ ptr gc',
      w.gc.realloc fuel stack (chunk j m) size = .ok (ptr, gc') ∧
      (ptr = 0 ∨ ∃ k objects, ptr = chunk i k ∧ size ≤ regionSize i ∧
        w.Run [.alloc ⟨i, k⟩, .write objects, .free ⟨j, m⟩] ⟨gc', Insert.insert ⟨i, k⟩
          (w.gc.survivors stack (w.gc.regions i).size w.inUse) \ {⟨j, m⟩}⟩ ∧
        (∀ n < min size (regionSize j), gc'.memory (ptr + n) = w.gc.memory (chunk j m + n)) ∧
        ∀ o ∈ w.gc.survivors stack (w.gc.regions i).size w.inUse, o ≠ ⟨j, m⟩ →
          ∀ a, o.Covers a → gc'.memory a = w.gc.memory a) := by
  have hinv := h.inv (init_inv memory)
  have hfits := (mallocClass_spec hsize hclass).2.2.1
  have hindex : sizeIndex size ≠ index (chunk j m) := by
    rw [hinv.index_chunk ho.1]
    exact hother
  rcases Heap.malloc_spec hinv hsize hclass hroom stack with ⟨fuel₀, hspec⟩
  refine ⟨fuel₀, fun fuel hfuel => ?_⟩
  rcases hspec fuel hfuel with ⟨block, hresult, hcase⟩
  have hrealloc : w.gc.realloc fuel stack (chunk j m) size
      = .ok (Heap.reallocIn (chunk j m) size block) := by
    have hpos : chunk j m ≠ 0 := Nat.ne_of_gt (chunk_pos j m)
    unfold Heap.realloc
    rw [if_neg hpos, if_neg hindex, hresult]
    rfl
  refine ⟨(Heap.reallocIn (chunk j m) size block).1, (Heap.reallocIn (chunk j m) size block).2,
    hrealloc, ?_⟩
  rcases hcase with hnull | ⟨k, hk, hmallocs⟩
  · left
    have hsame : Heap.reallocIn (chunk j m) size block = block := if_pos hnull
    rw [hsame]
    exact hnull
  · right
    rcases block with ⟨ptr, gc₁⟩
    have hptr : ptr = chunk i k := hk
    subst hptr
    have hmallocs : w.gc.Mallocs stack i w.inUse k gc₁ := hmallocs
    rcases Heap.reallocIn_spec hmallocs.inv ho hmallocs.notUsed hfits with
      ⟨⟨memory', hwrite, hfree⟩, hfirst, hcopy, hothers⟩
    have halloc := World.Step.malloc fuel stack size i k gc₁ hsize hclass hroom hresult
    refine ⟨k, _, hfirst, hfits, .step halloc (.step hwrite (.step hfree (.refl _))),
      fun n hn => ?_, fun o hmem hne a ha => ?_⟩
    · rw [hfirst, hcopy n hn]
      exact hmallocs.frame _ ho _ (covers_add (by omega))
    · rw [hothers o hmem hne a ha]
      exact hmallocs.frame o hmem a ha

/-- The second object of the program moves to the next region. -/
theorem run_realloc_pointed : ∃ fuel₀, ∀ fuel ≥ fuel₀, ∃ ptr gc',
    pointed.gc.realloc fuel oneWord (chunk 0 1) 32 = .ok (ptr, gc') ∧
    (ptr = 0 ∨ ∃ k objects, ptr = chunk 1 k ∧ 32 ≤ regionSize 1 ∧
      pointed.Run [.alloc ⟨1, k⟩, .write objects, .free ⟨0, 1⟩] ⟨gc', Insert.insert ⟨1, k⟩
        (pointed.gc.survivors oneWord (pointed.gc.regions 1).size pointed.inUse) \ {⟨0, 1⟩}⟩ ∧
      (∀ n < min 32 (regionSize 0),
        gc'.memory (ptr + n) = pointed.gc.memory (chunk 0 1 + n)) ∧
      ∀ o ∈ pointed.gc.survivors oneWord (pointed.gc.regions 1).size pointed.inUse,
        o ≠ ⟨0, 1⟩ → ∀ a, o.Covers a → gc'.memory a = pointed.gc.memory a) := by
  have hroom : pointed.gc.Room 1 := by
    show regionStart 1 + regionSize 1 < indexRegion 2
    decide
  have ho : (⟨0, 1⟩ : Object) ∈
      pointed.gc.survivors oneWord (pointed.gc.regions 1).size pointed.inUse :=
    ⟨mem_pointed, fun _ => pointed_live ▸ Set.mem_singleton _⟩
  exact run_realloc pointed_run (by decide) (by decide) hroom oneWord ho (by decide)

/-- `GC_realloc` leaves an object in its region if the region is that of the size, and then
the object has room if and only if the size is not more than 32 bits. -/
theorem run_realloc_same {memory : Bytes} {es : List (Event Object)} {m : Nat}
    (h : (World.start memory).Run es w) (hsize : size < 2 ^ 64) (ho : ⟨j, m⟩ ∈ w.inUse)
    (hsame : sizeIndex size = j) (fuel : Nat) (stack : MachineStack) :
    w.gc.realloc fuel stack (chunk j m) size = .ok (chunk j m, w.gc) ∧
      (chunk j m + size ≤ chunk j (m + 1) ↔ size ≤ 2 ^ 32) := by
  have hinv := h.inv (init_inv memory)
  have hindex : sizeIndex size = index (chunk j m) := by
    rw [hinv.index_chunk ho]
    exact hsame
  have hpos : chunk j m ≠ 0 := Nat.ne_of_gt (chunk_pos j m)
  constructor
  · unfold Heap.realloc
    rw [if_neg hpos, if_pos hindex]
  · have hj : j < gcNumRegions := (hinv.has ho).1
    rw [chunk_succ, Nat.add_le_add_iff_left]
    exact sizeIndex_room hsize hj hsame

/-- The case of an object of 16 bytes in a heap that has two. For 9 bytes there is room. -/
theorem run_realloc_same_pointed :
    pointed.gc.realloc 0 oneWord (chunk 0 1) 9 = .ok (chunk 0 1, pointed.gc) ∧
      (chunk 0 1 + 9 ≤ chunk 0 2 ↔ 9 ≤ 2 ^ 32) :=
  run_realloc_same pointed_run (by decide) mem_pointed (by decide) 0 oneWord

end Aike.Gc
