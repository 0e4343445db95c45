import Aike.Model.Gc.Runtime
import Aike.Proofs.Gc.Run

/-!
# `Aike.Proofs.Gc.Runtime`: the objects that the runtime allocates

`gcNew` and `gcNewArray` give a pointer into a block that the program did not have, after
its header. The bytes from the pointer on are zeros, and the objects that the program had
are as they were (`gcNew_run`, `gcNewArray_run`).

A word with the pointer of an array keeps the array alive if and only if the array has
bytes (`World.New.object_iff`): an array of no bytes has its pointer at the end of the block.
The block has room for all elements if and only if their size does not overflow
(`gcNewArray_room`).
-/

set_option autoImplicit false

namespace Aike.Gc

open ObjectStore (Event)

variable {i k size total ti count elementSize fuel ptr : Nat} {stack : MachineStack}
  {w : World} {gc gc' : Heap}

/-- What is in use if the collector is disabled. -/
theorem Heap.survivors_of_disabled {inUse : Set Object} (h : gc.enabled = false) :
    gc.survivors stack size inUse = inUse := by
  refine Heap.survivors_of_not_due fun hdue => ?_
  rw [hdue.2] at h
  cases h

/-- What `gcAlloc` answers is what the collector gave, and no null pointer. -/
theorem gcAllocIn_eq {result : Except Stop (Nat × Heap)} {block : Nat × Heap}
    (h : gcAllocIn result = .ok block) : result = .ok block ∧ block.1 ≠ 0 := by
  cases result with
  | error e => exact absurd h (by simp [gcAllocIn])
  | ok block' =>
      unfold gcAllocIn at h
      simp only at h
      split at h
      case isTrue => exact absurd h (by simp)
      case isFalse hne =>
          rw [Except.ok.injEq] at h
          subst h
          exact ⟨rfl, hne⟩

/-- Where the collector gives a block, `gcAlloc` panics or answers that block. -/
theorem gcAllocIn_ok (block : Nat × Heap) :
    gcAllocIn (.ok block) = .error .panic ∨ gcAllocIn (.ok block) = .ok block := by
  unfold gcAllocIn
  by_cases hnull : block.1 = 0
  · left
    simp only [hnull, if_true]
  · right
    simp only [hnull, if_false]

/-- `gcAlloc` is an allocation of a chunk, and nothing is collected. -/
theorem gcAlloc_run (hw : w.gc.Inv w.inUse) (hoff : w.gc.enabled = false) (hsize : size < 2 ^ 64)
    (hclass : mallocClass size = some i) (hroom : w.gc.Room i)
    (halloc : gcAlloc fuel stack w.gc size = .ok (ptr, gc')) :
    ∃ k, ptr = chunk i k ∧ w.Step (.alloc ⟨i, k⟩) ⟨gc', Insert.insert ⟨i, k⟩ w.inUse⟩ ∧
      ⟨i, k⟩ ∉ w.inUse ∧ gc'.enabled = false ∧
      ∀ o ∈ w.inUse, ∀ a, o.Covers a → gc'.memory a = w.gc.memory a := by
  rcases gcAllocIn_eq halloc with ⟨hmalloc, hne⟩
  rcases Heap.malloc_spec hw hsize hclass hroom stack with ⟨fuel₀, hspec⟩
  rcases hspec fuel₀ (Nat.le_refl _) with ⟨result, hresult, hcase⟩
  rw [← Heap.malloc_eq hmalloc hresult] at hcase
  rcases hcase with hnull | ⟨k, hk, -⟩
  · exact absurd hnull hne
  · have hk' : ptr = chunk i k := hk
    subst hk'
    have hmallocs := hw.malloc hsize hclass hroom hmalloc
    have hsurvivors : w.gc.survivors stack (w.gc.regions i).size w.inUse = w.inUse :=
      Heap.survivors_of_disabled hoff
    have hstep := World.Step.malloc fuel stack size i k gc' hsize hclass hroom hmalloc
    have hnotUsed := hmallocs.notUsed
    have hframe := hmallocs.frame
    rw [hsurvivors] at hstep hnotUsed hframe
    exact ⟨k, rfl, hstep, hnotUsed, hmallocs.enabled.trans hoff, hframe⟩

/-- `gcAlloc` ends, if only with a panic. -/
theorem gcAlloc_total (hw : w.gc.Inv w.inUse) (hsize : size < 2 ^ 64)
    (hclass : mallocClass size = some i) (hroom : w.gc.Room i) (stack : MachineStack) :
    ∃ fuel₀, ∀ fuel ≥ fuel₀, gcAlloc fuel stack w.gc size = .error .panic ∨
      ∃ block, gcAlloc fuel stack w.gc size = .ok block := by
  rcases Heap.malloc_spec hw hsize hclass hroom stack with ⟨fuel₀, hspec⟩
  refine ⟨fuel₀, fun fuel hfuel => ?_⟩
  rcases hspec fuel hfuel with ⟨block, hresult, -⟩
  have halloc : gcAlloc fuel stack w.gc size = gcAllocIn (.ok block) := by
    unfold gcAlloc
    rw [hresult]
  rcases gcAllocIn_ok block with hpanic | hok
  · exact Or.inl (halloc.trans hpanic)
  · exact Or.inr ⟨block, halloc.trans hok⟩

/-! ### A block with a header -/

/-- What is written into a new block. -/
structure Fills (memory memory' : Bytes) (block header size : Nat) : Prop where
  outside : ∀ a, a < block ∨ block + header + size ≤ a → memory' a = memory a
  zeros : ∀ j < size, memory' (block + header + j) = 0

/-- An address in a block, after the header, is taken for a pointer to the block. -/
theorem object?_header {header : Nat} (hw : w.gc.Inv w.inUse) (ho : ⟨i, k⟩ ∈ w.inUse)
    (hheader : header ≤ 16) (hlt : chunk i k + header < chunk i (k + 1)) :
    object? w.gc.regions (chunk i k + header) = some ⟨i, k⟩ := by
  have hi : i < gcNumRegions := (hw.has ho).1
  have hk : k < (w.gc.regions i).count := (hw.has ho).2
  refine object?_eq (hw.laid hi) hi hk (Nat.le_add_right _ _) hlt ?_
  have hmod := (chunk_div (Nat.le_add_right (chunk i k) header) hlt).2
  unfold Inner
  rw [hmod, Nat.add_sub_cancel_left]
  rcases regionSize_eq i with h | h | h <;> omega

/-- The address after the block is not taken for a pointer to the block, if its chunks are
not huge. -/
theorem object?_end (hw : w.gc.Inv w.inUse) (ho : ⟨i, k⟩ ∈ w.inUse) (hi : i ≤ 512) :
    object? w.gc.regions (chunk i (k + 1)) ≠ some ⟨i, k⟩ := by
  intro hobject
  have hhas := hw.has ho
  have hword : chunk i (k + 1) < 2 ^ 64 :=
    (hw.laid hhas.1).chunk_lt_word hhas.1 (Nat.succ_le_of_lt hhas.2)
  rcases object?_spec (fun j hj => hw.laid hj) hword hobject with
    ⟨m, hm, hle, hlt, -, heq | ⟨hhuge, -⟩⟩
  · simp only at heq hlt
    rw [heq] at hlt
    exact absurd hlt (Nat.lt_irrefl _)
  · simp only at hhuge
    omega

/-- A new object of the program, with a header before it: what the program had is as it was,
and the bytes of the object are zeros. The pointer is one to the block if it is not the end
of it. -/
structure World.New (w : World) (i k header size ptr : Nat) (gc' : Heap) : Prop where
  block : ptr = chunk i k + header
  notUsed : ⟨i, k⟩ ∉ w.inUse
  run : ∃ objects, w.Run [.alloc ⟨i, k⟩, .write objects] ⟨gc', Insert.insert ⟨i, k⟩ w.inUse⟩
  frame : ∀ o ∈ w.inUse, ∀ a, o.Covers a → gc'.memory a = w.gc.memory a
  zeros : ∀ j < size, gc'.memory (ptr + j) = 0
  inside : ptr + size ≤ chunk i (k + 1)
  object : ptr < chunk i (k + 1) → object? gc'.regions ptr = some ⟨i, k⟩
  enabled : gc'.enabled = false

/-- The block of `gcAlloc`, with a header and zeros. -/
theorem gcAlloc_new {block header : Nat} {gc₁ : Heap} {memory' : Bytes} (hw : w.gc.Inv w.inUse)
    (hoff : w.gc.enabled = false) (hheader : header ≤ 16) (hsize : header + size < 2 ^ 64)
    (hclass : mallocClass (header + size) = some i) (hroom : w.gc.Room i)
    (halloc : gcAlloc fuel stack w.gc (header + size) = .ok (block, gc₁))
    (hfills : Fills gc₁.memory memory' block header size) :
    ∃ k, block = chunk i k ∧
      w.New i k header size (block + header) { gc₁ with memory := memory' } := by
  rcases gcAlloc_run hw hoff hsize hclass hroom halloc with
    ⟨k, rfl, hstep, hnotUsed, henabled, hframe⟩
  have hmem : (⟨i, k⟩ : Object) ∈ Insert.insert ⟨i, k⟩ w.inUse := Set.mem_insert _ _
  have hinv : gc₁.Inv (Insert.insert ⟨i, k⟩ w.inUse) := hstep.inv hw
  have hend : chunk i k + (header + size) ≤ chunk i (k + 1) := by
    rw [chunk_succ]
    exact Nat.add_le_add_left (mallocClass_spec hsize hclass).2.2.1 _
  have hsame : ∀ a, a < chunk i k ∨ chunk i (k + 1) ≤ a → memory' a = gc₁.memory a := by
    intro a ha
    exact hfills.outside a (by omega)
  have hothers : ∀ o, gc₁.regions.Has o → o ≠ ⟨i, k⟩ → ∀ a, o.Covers a →
      memory' a = gc₁.memory a := by
    intro o hhas hne a ha
    have hapart := Regions.Has.apart (fun j hj => hinv.laid hj) hhas (hinv.has hmem) hne ha
    unfold Object.Covers at hapart
    simp only at hapart
    exact hsame a (by omega)
  have hwrite : World.Step ⟨gc₁, Insert.insert ⟨i, k⟩ w.inUse⟩ (.write (changed gc₁.memory memory'))
      ⟨{ gc₁ with memory := memory' }, Insert.insert ⟨i, k⟩ w.inUse⟩ :=
    .write memory' fun o hhas hnot => hothers o hhas fun heq => hnot (heq ▸ hmem)
  refine ⟨k, rfl, rfl, hnotUsed, ⟨_, .step hstep (.step hwrite (.refl _))⟩, fun o ho a ha => ?_,
    hfills.zeros, by omega, fun hlt => ?_, henabled⟩
  · have hne : o ≠ ⟨i, k⟩ := fun heq => hnotUsed (heq ▸ ho)
    rw [← hframe o ho a ha]
    exact hothers o (hinv.has (Set.mem_insert_of_mem _ ho)) hne a ha
  · exact object?_header (w := ⟨gc₁, Insert.insert ⟨i, k⟩ w.inUse⟩) hinv hmem hheader hlt

/-- What is made of a result comes from a result. -/
theorem map_eq_ok {α β : Type} {f : α → β} {result : Except Stop α} {b : β}
    (h : result.map f = .ok b) : ∃ a, result = .ok a ∧ f a = b := by
  cases result with
  | error e => exact absurd h (by simp [Except.map])
  | ok a => exact ⟨a, rfl, Except.ok.inj h⟩

/-- What is made of the block of `gcAlloc` has a result, if there is no panic. -/
theorem gcAlloc_map {fill : Nat × Heap → Nat × Heap} (hw : w.gc.Inv w.inUse)
    (hsize : size < 2 ^ 64) (hclass : mallocClass size = some i) (hroom : w.gc.Room i)
    (stack : MachineStack) :
    ∃ fuel₀, ∀ fuel ≥ fuel₀,
      (gcAlloc fuel stack w.gc size).map fill = .error .panic ∨
      ∃ ptr gc', (gcAlloc fuel stack w.gc size).map fill = .ok (ptr, gc') := by
  rcases gcAlloc_total hw hsize hclass hroom stack with ⟨fuel₀, htotal⟩
  refine ⟨fuel₀, fun fuel hfuel => ?_⟩
  rcases htotal fuel hfuel with hpanic | ⟨block, hok⟩
  · rw [hpanic]
    exact Or.inl rfl
  · rw [hok]
    exact Or.inr ⟨(fill block).1, (fill block).2, rfl⟩

/-! ### `gcNew` -/

/-- The header of an object is its type information, and zeros come after it. -/
theorem gcNewIn_fills (ti size block : Nat) (gc : Heap) :
    Fills gc.memory ((gc.memory.writeWord block ti).zero (block + gcHeaderSize) size) block
      gcHeaderSize size where
  outside := by
    intro a ha
    have hheader : gcHeaderSize = 8 := rfl
    rw [hheader] at ha ⊢
    rw [Bytes.zero_outside (by omega), Bytes.writeWord_outside _ (by omega)]
  zeros := fun j hj => Bytes.zero_inside (Nat.le_add_right _ _) (Nat.add_lt_add_left hj _)

/-- The header of an object is smaller than any chunk, so its pointer is one to its block,
also when the object has no bytes. -/
theorem World.New.object_of_header (h : w.New i k gcHeaderSize size ptr gc') :
    object? gc'.regions ptr = some ⟨i, k⟩ := by
  have hheader : gcHeaderSize = 8 := rfl
  have hchunk := regionSize_ge i
  refine h.object ?_
  rw [h.block, chunk_succ, hheader]
  omega

/-- What `gcNew` gives is a new object after its header. -/
theorem gcNew_new (hw : w.gc.Inv w.inUse) (hoff : w.gc.enabled = false)
    (hsize : gcHeaderSize + size < 2 ^ 64) (hclass : mallocClass (gcHeaderSize + size) = some i)
    (hroom : w.gc.Room i) (hresult : gcNew fuel stack w.gc ti size = .ok (ptr, gc')) :
    ∃ k, w.New i k gcHeaderSize size ptr gc' ∧
      gc'.memory.readWord (ptr - gcHeaderSize) = ti % 2 ^ 64 := by
  have hwrap : (gcHeaderSize + size) % 2 ^ 64 = gcHeaderSize + size := Nat.mod_eq_of_lt hsize
  unfold gcNew at hresult
  rw [hwrap] at hresult
  rcases map_eq_ok hresult with ⟨⟨block, gc₁⟩, halloc, hfill⟩
  rcases gcAlloc_new hw hoff (by unfold gcHeaderSize; omega) hsize hclass hroom halloc
    (gcNewIn_fills ti size block gc₁) with ⟨k, hk, hnew⟩
  have hptr : ptr = block + gcHeaderSize := (congrArg Prod.fst hfill).symm
  have hgc : gc' = { gc₁ with memory :=
      (gc₁.memory.writeWord block ti).zero (block + gcHeaderSize) size } :=
    (congrArg Prod.snd hfill).symm
  subst hptr hgc
  refine ⟨k, hnew, ?_⟩
  -- The zeros are after the header.
  have hheader : gcHeaderSize = 8 := rfl
  rw [Nat.add_sub_cancel, ← Bytes.readWord_writeWord gc₁.memory block ti]
  refine Bytes.readWord_congr fun a ha ha' => Bytes.zero_outside ?_
  rw [hheader]
  omega

/-! ### `gcNewArray` -/

/-- The header of an array is its count and its type information, and zeros come after it. -/
theorem gcNewArrayIn_fills (ti count size block : Nat) (gc : Heap) :
    Fills gc.memory (((gc.memory.writeWord block count).writeWord (block + 8) ti).zero
      (block + gcHeaderArraySize) size) block gcHeaderArraySize size where
  outside := by
    intro a ha
    have hheader : gcHeaderArraySize = 16 := rfl
    rw [hheader] at ha ⊢
    rw [Bytes.zero_outside (by omega), Bytes.writeWord_outside _ (by omega),
      Bytes.writeWord_outside _ (by omega)]
  zeros := fun j hj => Bytes.zero_inside (Nat.le_add_right _ _) (Nat.add_lt_add_left hj _)

/-- The words of the header are before the zeros. -/
theorem gcNewArrayIn_header (ti count size block : Nat) (memory : Bytes) :
    Bytes.readWord (((memory.writeWord block count).writeWord (block + 8) ti).zero
        (block + gcHeaderArraySize) size) block = count % 2 ^ 64 ∧
      Bytes.readWord (((memory.writeWord block count).writeWord (block + 8) ti).zero
        (block + gcHeaderArraySize) size) (block + 8) = ti % 2 ^ 64 := by
  have hheader : gcHeaderArraySize = 16 := rfl
  rw [hheader]
  constructor
  · rw [← Bytes.readWord_writeWord memory block count]
    refine Bytes.readWord_congr fun a ha ha' => ?_
    rw [Bytes.zero_outside (by omega), Bytes.writeWord_outside _ (by omega)]
  · rw [← Bytes.readWord_writeWord (memory.writeWord block count) (block + 8) ti]
    exact Bytes.readWord_congr fun a ha ha' => Bytes.zero_outside (by omega)

/-- The pointer of an array of no bytes is the end of its block. -/
theorem World.New.object_iff (h : w.New i k gcHeaderArraySize size ptr gc')
    (hw : w.gc.Inv w.inUse) (hsize : gcHeaderArraySize + size < 2 ^ 64)
    (hclass : mallocClass (gcHeaderArraySize + size) = some i) :
    object? gc'.regions ptr = some ⟨i, k⟩ ↔ size ≠ 0 := by
  have hheader : gcHeaderArraySize = 16 := rfl
  constructor
  · rintro hobject rfl
    have hspec := mallocClass_spec hsize hclass
    rw [hheader] at hspec
    -- The region is that of the smallest chunks.
    have hzero : i = 0 ∧ regionSize i = 16 := by
      have hsizes := regionSize_eq i
      have hunits := indexUnit_eq i
      omega
    rcases h.run with ⟨objects, hrun⟩
    have hinv := hrun.inv hw
    have hptr : ptr = chunk i (k + 1) := by rw [h.block, chunk_succ, hzero.2, hheader]
    rw [hptr] at hobject
    have hmem : (⟨i, k⟩ : Object) ∈ Insert.insert ⟨i, k⟩ w.inUse := Set.mem_insert _ _
    exact object?_end (w := ⟨gc', Insert.insert ⟨i, k⟩ w.inUse⟩) hinv hmem (by omega) hobject
  · intro hne
    have hinside := h.inside
    exact h.object (by omega)

/-- What `gcNewArray` gives is a new object after its header, which has the count. -/
theorem gcNewArray_new (hw : w.gc.Inv w.inUse) (hoff : w.gc.enabled = false)
    (hbytes : size = count * elementSize % 2 ^ 64) (hsize : gcHeaderArraySize + size < 2 ^ 64)
    (hclass : mallocClass (gcHeaderArraySize + size) = some i) (hroom : w.gc.Room i)
    (hresult : gcNewArray fuel stack w.gc ti count elementSize = .ok (ptr, gc')) :
    ∃ k, w.New i k gcHeaderArraySize size ptr gc' ∧
      gc'.memory.readWord (ptr - gcHeaderArraySize) = count % 2 ^ 64 ∧
      gc'.memory.readWord (ptr - 8) = ti % 2 ^ 64 := by
  have hwrap : (gcHeaderArraySize + size) % 2 ^ 64 = gcHeaderArraySize + size :=
    Nat.mod_eq_of_lt hsize
  unfold gcNewArray at hresult
  simp only [← hbytes, hwrap] at hresult
  rcases map_eq_ok hresult with ⟨⟨block, gc₁⟩, halloc, hfill⟩
  rcases gcAlloc_new hw hoff (by unfold gcHeaderArraySize; omega) hsize hclass hroom halloc
    (gcNewArrayIn_fills ti count size block gc₁) with ⟨k, hk, hnew⟩
  have hptr : ptr = block + gcHeaderArraySize := (congrArg Prod.fst hfill).symm
  have hgc : gc' = { gc₁ with
      memory := ((gc₁.memory.writeWord block count).writeWord (block + 8) ti).zero
        (block + gcHeaderArraySize) size } := (congrArg Prod.snd hfill).symm
  subst hptr hgc
  have hheader := gcNewArrayIn_header ti count size block gc₁.memory
  have hsecond : block + gcHeaderArraySize - 8 = block + 8 := by
    have hsize : gcHeaderArraySize = 16 := rfl
    omega
  refine ⟨k, hnew, ?_, ?_⟩
  · rw [Nat.add_sub_cancel]
    exact hheader.1
  · rw [hsecond]
    exact hheader.2

/-- The block of an array has room for all of its elements if and only if their size, with
the header, is a `size_t`. -/
theorem World.New.room_iff (h : w.New i k gcHeaderArraySize size ptr gc')
    (hbytes : size = count * elementSize % 2 ^ 64) (hsize : gcHeaderArraySize + size < 2 ^ 64)
    (hclass : mallocClass (gcHeaderArraySize + size) = some i) :
    ptr + count * elementSize ≤ chunk i (k + 1) ↔
      gcHeaderArraySize + count * elementSize < 2 ^ 64 := by
  have hspec := mallocClass_spec hsize hclass
  have hsmall := regionSize_le hspec.2.1
  have hptr := h.block
  rw [hptr, chunk_succ]
  generalize count * elementSize = bytes at hbytes ⊢
  constructor
  · -- A block is smaller than any size that overflows.
    intro hfits
    omega
  · intro hlt
    have hmod : bytes % 2 ^ 64 = bytes := Nat.mod_eq_of_lt (by omega)
    omega

/-! ### Programs -/

/-- What a program does with the runtime. -/
inductive RuntimeStep : World → World → Prop
  /-- `gcNew`. -/
  | new {w : World} (fuel : Nat) (stack : MachineStack) (ti size i k ptr : Nat) (gc' : Heap)
      (hsize : gcHeaderSize + size < 2 ^ 64)
      (hclass : mallocClass (gcHeaderSize + size) = some i) (hroom : w.gc.Room i)
      (hresult : gcNew fuel stack w.gc ti size = .ok (ptr, gc'))
      (hptr : ptr = chunk i k + gcHeaderSize) : RuntimeStep w ⟨gc', Insert.insert ⟨i, k⟩ w.inUse⟩
  /-- `gcNewArray`. -/
  | newArray {w : World} (fuel : Nat) (stack : MachineStack) (ti count elementSize i k ptr : Nat)
      (gc' : Heap) (hsize : gcHeaderArraySize + count * elementSize % 2 ^ 64 < 2 ^ 64)
      (hclass : mallocClass (gcHeaderArraySize + count * elementSize % 2 ^ 64) = some i)
      (hroom : w.gc.Room i)
      (hresult : gcNewArray fuel stack w.gc ti count elementSize = .ok (ptr, gc'))
      (hptr : ptr = chunk i k + gcHeaderArraySize) :
      RuntimeStep w ⟨gc', Insert.insert ⟨i, k⟩ w.inUse⟩
  /-- `gcCollect`. -/
  | collect {w : World} (fuel : Nat) (stack : MachineStack) (gc' : Heap)
      (hresult : gcCollect fuel stack w.gc = .ok gc') :
      RuntimeStep w ⟨gc', w.inUse ∩ w.gc.Live stack⟩
  /-- A write to the objects of the program, and to memory that is not in a chunk. -/
  | write {w : World} (memory' : Bytes)
      (hwrite : ∀ o, w.gc.regions.Has o → o ∉ w.inUse → ∀ a, o.Covers a →
        memory' a = w.gc.memory a) :
      RuntimeStep w ⟨{ w.gc with memory := memory' }, w.inUse⟩

/-- A run of a program from `gcInit` on. -/
def RuntimeRun (memory : Bytes) (w : World) : Prop :=
  Relation.ReflTransGen RuntimeStep ⟨gcInit memory, ∅⟩ w

/-- The chunk of an object is told by its pointer. -/
theorem World.New.index_eq {header m : Nat} (h : w.New i k header size ptr gc')
    (hptr : ptr = chunk i m + header) : k = m :=
  chunk_injective i (Nat.add_right_cancel (h.block.symm.trans hptr))

/-- `gcCollect` is a collection, and the collector is disabled after it. -/
theorem gcCollect_run (hresult : gcCollect fuel stack w.gc = .ok gc') :
    w.Run [.write ∅, .drop, .write ∅] ⟨gc', w.inUse ∩ w.gc.Live stack⟩ ∧
      gc'.enabled = false := by
  rcases map_eq_ok hresult with ⟨gc₁, hcollect, rfl⟩
  have henable : w.Step (.write ∅) ⟨w.gc.enable, w.inUse⟩ := .enable true
  have hdrop : World.Step ⟨w.gc.enable, w.inUse⟩ .drop ⟨gc₁, w.inUse ∩ w.gc.Live stack⟩ :=
    .collect fuel stack gc₁ rfl hcollect
  have hdisable : World.Step ⟨gc₁, w.inUse ∩ w.gc.Live stack⟩ (.write ∅)
      ⟨gc₁.disable, w.inUse ∩ w.gc.Live stack⟩ := .enable false
  exact ⟨.step henable (.step hdrop (.step hdisable (.refl _))), rfl⟩

/-- A step of the runtime is a run of the collector, which is disabled after it. -/
theorem RuntimeStep.run {w' : World} (h : RuntimeStep w w') (hw : w.gc.Inv w.inUse)
    (hoff : w.gc.enabled = false) : (∃ es, w.Run es w') ∧ w'.gc.enabled = false := by
  cases h with
  | new fuel stack ti size i k ptr gc' hsize hclass hroom hresult hptr =>
      rcases gcNew_new hw hoff hsize hclass hroom hresult with ⟨m, hnew, -⟩
      rcases hnew.index_eq hptr with rfl
      rcases hnew.run with ⟨objects, hrun⟩
      exact ⟨⟨_, hrun⟩, hnew.enabled⟩
  | newArray fuel stack ti count elementSize i k ptr gc' hsize hclass hroom hresult hptr =>
      rcases gcNewArray_new hw hoff rfl hsize hclass hroom hresult with ⟨m, hnew, -⟩
      rcases hnew.index_eq hptr with rfl
      rcases hnew.run with ⟨objects, hrun⟩
      exact ⟨⟨_, hrun⟩, hnew.enabled⟩
  | collect fuel stack gc' hresult =>
      rcases gcCollect_run hresult with ⟨hrun, henabled⟩
      exact ⟨⟨_, hrun⟩, henabled⟩
  | write memory' hwrite => exact ⟨⟨_, .step (.write memory' hwrite) (.refl _)⟩, hoff⟩

/-- A program with the runtime is a run of the collector, which is disabled all along. -/
theorem RuntimeRun.run {memory : Bytes} (h : RuntimeRun memory w) :
    (∃ es, (World.start memory).Run es w) ∧ w.gc.enabled = false := by
  induction h with
  | refl =>
      have hstep : (World.start memory).Step (.write ∅) ⟨gcInit memory, ∅⟩ := .enable false
      exact ⟨⟨_, .step hstep (.refl _)⟩, rfl⟩
  | tail _ hstep ih =>
      rcases ih with ⟨⟨es, hrun⟩, hoff⟩
      rcases hstep.run (hrun.inv (init_inv memory)) hoff with ⟨⟨es', hrun'⟩, hoff'⟩
      exact ⟨⟨_, hrun.append hrun'⟩, hoff'⟩

/-! ### A program -/

/-- The heap after an object of 8 bytes. -/
def objectHeap : Heap :=
  match gcNew 0 ⟨0, 0⟩ (gcInit zeros) 5 8 with
  | .ok object => object.2
  | .error _ => gcInit zeros

/-- The heap after an array of two elements of 4 bytes, too. -/
def arrayHeap : Heap :=
  match gcNewArray 0 ⟨0, 0⟩ objectHeap 6 2 4 with
  | .ok array => array.2
  | .error _ => objectHeap

/-- The program has an object and an array, and a pointer to the object on the stack. -/
def objectAndArray : World :=
  ⟨{ arrayHeap with memory := arrayHeap.memory.writeWord 4096 (chunk 0 0 + 8) },
    {⟨1, 0⟩, ⟨0, 0⟩}⟩

/-- The object is the first chunk of the first region, behind a header of one word. -/
theorem gcNew_objectHeap :
    gcNew 0 ⟨0, 0⟩ (gcInit zeros) 5 8 = .ok (chunk 0 0 + gcHeaderSize, objectHeap) := rfl

/-- The array is the first chunk of the second region, behind a header of two words. -/
theorem gcNewArray_arrayHeap :
    gcNewArray 0 ⟨0, 0⟩ objectHeap 6 2 4 = .ok (chunk 1 0 + gcHeaderArraySize, arrayHeap) := rfl

/-- The program is a run of the runtime: `gcNew`, `gcNewArray`, and a write to the stack. -/
theorem objectAndArray_run : RuntimeRun zeros objectAndArray := by
  have hroom : objectHeap.Room 1 := by
    show regionStart 1 + regionSize 1 < indexRegion 2
    decide
  have hnew : RuntimeStep ⟨gcInit zeros, ∅⟩ ⟨objectHeap, {⟨0, 0⟩}⟩ := by
    have hstep : RuntimeStep ⟨gcInit zeros, ∅⟩ ⟨objectHeap, Insert.insert ⟨0, 0⟩ ∅⟩ :=
      .new 0 ⟨0, 0⟩ 5 8 0 0 _ _ (by decide) (by decide) init_room gcNew_objectHeap rfl
    rwa [insert_empty_eq] at hstep
  have harray : RuntimeStep ⟨objectHeap, {⟨0, 0⟩}⟩ ⟨arrayHeap, {⟨1, 0⟩, ⟨0, 0⟩}⟩ :=
    .newArray 0 ⟨0, 0⟩ 6 2 4 1 0 _ _ (by decide) (by decide) hroom gcNewArray_arrayHeap rfl
  have hwrite : RuntimeStep ⟨arrayHeap, {⟨1, 0⟩, ⟨0, 0⟩}⟩ objectAndArray := by
    refine .write _ fun o _ _ a ha => Bytes.writeWord_outside _ (.inr ?_)
    have hle := Nat.le_trans (le_chunk o.region o.index) ha.1
    have hregion : indexRegion o.region = 8589934592 + o.region * 4294967296 := rfl
    omega
  exact .tail (.tail (.single hnew) harray) hwrite

/-- The array cannot be reached. -/
theorem objectAndArray_live : objectAndArray.gc.Live oneWord = {⟨0, 0⟩} := by
  rcases objectAndArray_run.run with ⟨⟨es, hrun⟩, -⟩
  have hinv := hrun.inv (init_inv zeros)
  have hhas := hinv.has (Set.mem_insert_of_mem _ (Set.mem_singleton (⟨0, 0⟩ : Object)))
  refine Heap.live_eq_singleton rfl ?word ?cells
  case word =>
    show object? objectAndArray.gc.regions (Bytes.readWord (Bytes.writeWord _ 4096 _) 4096) = _
    rw [Bytes.readWord_writeWord]
    exact object?_eq (hinv.laid hhas.1) hhas.1 hhas.2 (by decide) (by decide) (.inl (by decide))
  -- The words of the object are the type and a zero.
  case cells =>
    rintro a ⟨j, rfl, hlt⟩
    change chunk 0 0 + 8 * j < chunk 0 1 at hlt
    have hnext : chunk 0 1 = chunk 0 0 + 16 := by decide
    obtain rfl | rfl : j = 0 ∨ j = 1 := by omega
    · have hword : objectAndArray.gc.memory.readWord (chunk 0 0 + 8 * 0) = 5 := by decide +kernel
      show object? _ (objectAndArray.gc.memory.readWord (chunk 0 0 + 8 * 0)) = none
      rw [hword, object?, if_neg (by decide)]
    · have hword : objectAndArray.gc.memory.readWord (chunk 0 0 + 8 * 1) = 0 := by decide +kernel
      show object? _ (objectAndArray.gc.memory.readWord (chunk 0 0 + 8 * 1)) = none
      rw [hword, object?, if_neg (by decide)]

/-- The program collects the array, and has room for more objects. -/
theorem exists_collected : ∃ gc', RuntimeRun zeros ⟨gc', {⟨0, 0⟩}⟩ ∧ gc'.Room 0 := by
  rcases objectAndArray_run.run with ⟨⟨es, hrun⟩, -⟩
  have hinv : objectAndArray.gc.enable.Inv objectAndArray.inUse := by
    have hinv := hrun.inv (init_inv zeros)
    exact ⟨hinv.inRange, hinv.tracks⟩
  rcases Heap.collect_spec hinv rfl oneWord with ⟨fuel₀, hspec⟩
  rcases hspec fuel₀ (Nat.le_refl _) with ⟨gc₁, hcollect, hcollects⟩
  have hresult : gcCollect fuel₀ oneWord objectAndArray.gc = .ok gc₁.disable := by
    unfold gcCollect
    rw [hcollect]
    rfl
  have hinUse : objectAndArray.inUse ∩ objectAndArray.gc.Live oneWord = {⟨0, 0⟩} := by
    rw [objectAndArray_live]
    exact Set.inter_eq_right.mpr (Set.singleton_subset_iff.mpr (Set.mem_insert_of_mem _ rfl))
  have hstep : RuntimeStep objectAndArray ⟨gc₁.disable, {⟨0, 0⟩}⟩ := by
    rw [← hinUse]
    exact .collect fuel₀ oneWord gc₁.disable hresult
  refine ⟨gc₁.disable, .tail objectAndArray_run hstep, ?_⟩
  -- The region is not larger than it was.
  have hregion := hcollects.regions 0 (by decide)
  have hfreeptr : (gc₁.regions 0).freeptr ≤ chunk 0 1 := hregion.freeptr
  have hsize : (gc₁.regions 0).size = regionSize 0 := hregion.size
  have hbound : chunk 0 1 + regionSize 0 < indexRegion (0 + 1) := by decide
  show (gc₁.regions 0).freeptr + (gc₁.regions 0).size < indexRegion (0 + 1)
  omega

/-! ### Every program -/

/-- In every run, `gcNew` ends with a panic or a new object, whose pointer keeps it alive. -/
theorem gcNew_run {memory : Bytes} (h : RuntimeRun memory w)
    (hsize : gcHeaderSize + size < 2 ^ 64) (hclass : mallocClass (gcHeaderSize + size) = some i)
    (hroom : w.gc.Room i) (stack : MachineStack) (ti : Nat) :
    ∃ fuel₀, ∀ fuel ≥ fuel₀, gcNew fuel stack w.gc ti size = .error .panic ∨
      ∃ k ptr gc', gcNew fuel stack w.gc ti size = .ok (ptr, gc') ∧
        w.New i k gcHeaderSize size ptr gc' ∧
        gc'.memory.readWord (ptr - gcHeaderSize) = ti % 2 ^ 64 ∧
        object? gc'.regions ptr = some ⟨i, k⟩ := by
  rcases h.run with ⟨⟨es, hrun⟩, hoff⟩
  have hinv := hrun.inv (init_inv memory)
  have hwrap : (gcHeaderSize + size) % 2 ^ 64 = gcHeaderSize + size := Nat.mod_eq_of_lt hsize
  have htotal : ∃ fuel₀, ∀ fuel ≥ fuel₀, gcNew fuel stack w.gc ti size = .error .panic ∨
      ∃ ptr gc', gcNew fuel stack w.gc ti size = .ok (ptr, gc') := by
    unfold gcNew
    rw [hwrap]
    exact gcAlloc_map hinv hsize hclass hroom stack
  rcases htotal with ⟨fuel₀, htotal⟩
  refine ⟨fuel₀, fun fuel hfuel => ?_⟩
  rcases htotal fuel hfuel with hpanic | ⟨ptr, gc', hresult⟩
  · exact Or.inl hpanic
  · rcases gcNew_new hinv hoff hsize hclass hroom hresult with ⟨k, hnew, hheader⟩
    exact Or.inr ⟨k, ptr, gc', hresult, hnew, hheader, hnew.object_of_header⟩

/-- An object without bytes, after the collection. -/
theorem gcNew_run_collected : ∃ gc : Heap, ∃ fuel₀, ∀ fuel ≥ fuel₀,
    gcNew fuel oneWord gc 5 0 = .error .panic ∨
      ∃ k ptr gc', gcNew fuel oneWord gc 5 0 = .ok (ptr, gc') ∧
        World.New ⟨gc, {⟨0, 0⟩}⟩ 0 k gcHeaderSize 0 ptr gc' ∧
        gc'.memory.readWord (ptr - gcHeaderSize) = 5 % 2 ^ 64 ∧
        object? gc'.regions ptr = some ⟨0, k⟩ := by
  rcases exists_collected with ⟨gc, hrun, hroom⟩
  exact ⟨gc, gcNew_run hrun (by decide) (by decide) hroom oneWord 5⟩

/-- In every run, `gcNewArray` ends with a panic or a new object after its header. A word
with the pointer of the array keeps it alive if and only if the array has bytes. -/
theorem gcNewArray_run {memory : Bytes} (h : RuntimeRun memory w)
    (hbytes : size = count * elementSize % 2 ^ 64) (hsize : gcHeaderArraySize + size < 2 ^ 64)
    (hclass : mallocClass (gcHeaderArraySize + size) = some i) (hroom : w.gc.Room i)
    (stack : MachineStack) (ti : Nat) :
    ∃ fuel₀, ∀ fuel ≥ fuel₀,
      gcNewArray fuel stack w.gc ti count elementSize = .error .panic ∨
      ∃ k ptr gc', gcNewArray fuel stack w.gc ti count elementSize = .ok (ptr, gc') ∧
        w.New i k gcHeaderArraySize size ptr gc' ∧
        gc'.memory.readWord (ptr - gcHeaderArraySize) = count % 2 ^ 64 ∧
        gc'.memory.readWord (ptr - 8) = ti % 2 ^ 64 ∧
        (object? gc'.regions ptr = some ⟨i, k⟩ ↔ size ≠ 0) := by
  rcases h.run with ⟨⟨es, hrun⟩, hoff⟩
  have hinv := hrun.inv (init_inv memory)
  have hwrap : (gcHeaderArraySize + size) % 2 ^ 64 = gcHeaderArraySize + size :=
    Nat.mod_eq_of_lt hsize
  have htotal : ∃ fuel₀, ∀ fuel ≥ fuel₀,
      gcNewArray fuel stack w.gc ti count elementSize = .error .panic ∨
      ∃ ptr gc', gcNewArray fuel stack w.gc ti count elementSize = .ok (ptr, gc') := by
    unfold gcNewArray
    simp only [← hbytes, hwrap]
    exact gcAlloc_map hinv hsize hclass hroom stack
  rcases htotal with ⟨fuel₀, htotal⟩
  refine ⟨fuel₀, fun fuel hfuel => ?_⟩
  rcases htotal fuel hfuel with hpanic | ⟨ptr, gc', hresult⟩
  · exact Or.inl hpanic
  · rcases gcNewArray_new hinv hoff hbytes hsize hclass hroom hresult with ⟨k, hnew, hcount, hti⟩
    exact Or.inr ⟨k, ptr, gc', hresult, hnew, hcount, hti, hnew.object_iff hinv hsize hclass⟩

/-- An array without elements, after the collection. -/
theorem gcNewArray_run_collected : ∃ gc : Heap, ∃ fuel₀, ∀ fuel ≥ fuel₀,
    gcNewArray fuel oneWord gc 5 0 8 = .error .panic ∨
      ∃ k ptr gc', gcNewArray fuel oneWord gc 5 0 8 = .ok (ptr, gc') ∧
        World.New ⟨gc, {⟨0, 0⟩}⟩ 0 k gcHeaderArraySize 0 ptr gc' ∧
        gc'.memory.readWord (ptr - gcHeaderArraySize) = 0 % 2 ^ 64 ∧
        gc'.memory.readWord (ptr - 8) = 5 % 2 ^ 64 ∧
        (object? gc'.regions ptr = some ⟨0, k⟩ ↔ 0 ≠ 0) := by
  rcases exists_collected with ⟨gc, hrun, hroom⟩
  exact ⟨gc, gcNewArray_run hrun (by decide) (by decide) (by decide) hroom oneWord 5⟩

/-- In every run, the block of an array has room for as many elements as its header says if
and only if their size, with the header, is a `size_t`. -/
theorem gcNewArray_room {memory : Bytes} (h : RuntimeRun memory w)
    (hbytes : size = count * elementSize % 2 ^ 64) (hsize : gcHeaderArraySize + size < 2 ^ 64)
    (hclass : mallocClass (gcHeaderArraySize + size) = some i) (hroom : w.gc.Room i)
    (hresult : gcNewArray fuel stack w.gc ti count elementSize = .ok (ptr, gc')) :
    ∃ k, ptr = chunk i k + gcHeaderArraySize ∧ ⟨i, k⟩ ∉ w.inUse ∧
      (ptr + count * elementSize ≤ chunk i (k + 1) ↔
        gcHeaderArraySize + count * elementSize < 2 ^ 64) := by
  rcases h.run with ⟨⟨es, hrun⟩, hoff⟩
  have hinv := hrun.inv (init_inv memory)
  rcases gcNewArray_new hinv hoff hbytes hsize hclass hroom hresult with ⟨k, hnew, -⟩
  exact ⟨k, hnew.block, hnew.notUsed, hnew.room_iff hbytes hsize hclass⟩

/-- An array of `2 ^ 61` words gets a block of 16 bytes. -/
theorem gcNewArray_room_start :
    ∃ k, chunk 0 0 + gcHeaderArraySize = chunk 0 k + gcHeaderArraySize ∧
      ⟨0, k⟩ ∉ (∅ : Set Object) ∧
      (chunk 0 0 + gcHeaderArraySize + 2 ^ 61 * 8 ≤ chunk 0 (k + 1) ↔
        gcHeaderArraySize + 2 ^ 61 * 8 < 2 ^ 64) := by
  have hresult : ∃ gc', gcNewArray 0 ⟨0, 0⟩ (gcInit zeros) 5 (2 ^ 61) 8
      = .ok (chunk 0 0 + gcHeaderArraySize, gc') := by
    unfold gcNewArray gcAlloc Heap.malloc
    dsimp only
    rw [show mallocClass ((gcHeaderArraySize + 2 ^ 61 * 8 % 2 ^ 64) % 2 ^ 64) = some 0 by decide]
    exact ⟨_, rfl⟩
  rcases hresult with ⟨gc', hresult⟩
  have hbytes : 0 = 2 ^ 61 * 8 % 2 ^ 64 := by decide
  exact gcNewArray_room (w := ⟨gcInit zeros, ∅⟩) .refl hbytes (by decide) (by decide) init_room
    hresult

end Aike.Gc
