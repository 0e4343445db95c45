import Aike.Lib.ObjectStore
import Aike.Proofs.Gc.Malloc

/-!
# `Aike.Proofs.Gc.Run`: the runs of a program with the collector

A program allocates objects, writes in its memory, gives objects back, adds roots, and lets
the collector run or not. `Step` has these operations, with the objects that the program
has. An object that a collection cannot reach is one that the program has no more.

An allocation is a step if the pointer is not null, and if the region of the size has room
for more than one chunk. The runtime ends the program at a null pointer. A region without
room was filled with almost `GC_REGION_SIZE` bytes (`Aike.Proofs.Gc.Fill`).

For the program the collector is a store of objects (`Run.refines`).
-/

set_option autoImplicit false

namespace Aike.Gc

open ObjectStore (Event)

variable {memory : Bytes} {i k size : Nat} {stack : MachineStack}

/-- The collector, and the objects that the program has. -/
structure World where
  gc : Heap
  inUse : Set Object

/-- The objects that have a byte at an address where the memories differ. -/
def changed (memory memory' : Bytes) : Set Object :=
  {o | ∃ a, o.Covers a ∧ memory' a ≠ memory a}

/-- An operation of the program, or a collection. -/
inductive World.Step : World → Event Object → World → Prop
  /-- `GC_malloc`. -/
  | malloc {w : World} (fuel : Nat) (stack : MachineStack) (size i k : Nat) (gc' : Heap)
      (hsize : size < 2 ^ 64) (hclass : mallocClass size = some i) (hroom : w.gc.Room i)
      (hmalloc : w.gc.malloc fuel stack size = .ok (chunk i k, gc')) :
      Step w (.alloc ⟨i, k⟩)
        ⟨gc', Insert.insert ⟨i, k⟩ (w.gc.survivors stack (w.gc.regions i).size w.inUse)⟩
  /-- `GC_free_nonnull`. -/
  | free {w : World} (i k : Nat) (ho : ⟨i, k⟩ ∈ w.inUse) :
      Step w (.free ⟨i, k⟩) ⟨w.gc.freeNonnull (chunk i k), w.inUse \ {⟨i, k⟩}⟩
  /-- `GC_collect`. -/
  | collect {w : World} (fuel : Nat) (stack : MachineStack) (gc' : Heap)
      (henabled : w.gc.enabled = true) (hcollect : w.gc.collect fuel stack = .ok gc') :
      Step w .drop ⟨gc', w.inUse ∩ w.gc.Live stack⟩
  /-- A write to the objects of the program, and to memory that is not in a chunk. -/
  | write {w : World} (memory' : Bytes)
      (hwrite : ∀ o, w.gc.regions.Has o → o ∉ w.inUse → ∀ a, o.Covers a →
        memory' a = w.gc.memory a) :
      Step w (.write (changed w.gc.memory memory')) ⟨{ w.gc with memory := memory' }, w.inUse⟩
  /-- `GC_enable` and `GC_disable`. -/
  | enable {w : World} (enabled : Bool) :
      Step w (.write ∅) ⟨{ w.gc with enabled := enabled }, w.inUse⟩
  /-- `GC_root`, which adds nothing if the size is too large. -/
  | root {w : World} (ptr size : Nat) : Step w (.write ∅) ⟨(w.gc.root ptr size).2, w.inUse⟩
  /-- `GC_dynamic_root`. -/
  | dynamicRoot {w : World} (ptrptr sizeptr elemsize : Nat) :
      Step w (.write ∅) ⟨(w.gc.dynamicRoot ptrptr sizeptr elemsize).2, w.inUse⟩

/-- A run of the program, with what happens to the objects. -/
inductive World.Run : World → List (Event Object) → World → Prop
  | refl (w : World) : Run w [] w
  | step {w w' w'' : World} {e : Event Object} {es : List (Event Object)}
      (h : w.Step e w') (hrest : Run w' es w'') : Run w (e :: es) w''

/-- The program starts without objects. -/
def World.start (memory : Bytes) : World := ⟨init memory, ∅⟩

/-- What `GC_init` leaves. -/
theorem init_inv (memory : Bytes) : (init memory).Inv ∅ where
  inRange := fun o ho => absurd ho (Set.notMem_empty o)
  tracks := by
    intro i hi
    have hcount : (initRegion i).count = 0 :=
      (initRegion_fixed hi).count_eq (chunk_zero i).symm
    have hnone : ∀ k, ¬ (initRegion i).isMarked k := by
      rintro k ⟨units, hunits, -⟩
      exact absurd hunits (by simp [initRegion])
    refine ⟨⟨[], 0, 0⟩, ?_, ?_⟩
    · exact {
        laid := initRegion_laid hi
        bounded := fun k hk => absurd hk (hnone k)
        access := Nat.le_refl _
        freelist := rfl
        markstartptr := (chunk_zero i).symm
        markendptr := (chunk_zero i).symm
        low_le := Nat.le_refl _
        high_le := Nat.zero_le _
        marks := fun h => absurd h (Nat.lt_irrefl 0)
        nodup := List.nodup_nil
        list := fun k hk => absurd hk List.not_mem_nil }
    · constructor
      · exact fun k _ => Set.notMem_empty _
      · exact fun k hk => absurd hk (Set.notMem_empty _)
      · intro k hk
        have hlt : k < (initRegion i).count := hk
        omega

/-- What an allocation gives, whatever the fuel was. -/
theorem Heap.Inv.malloc {gc gc' : Heap} {inUse : Set Object} {fuel : Nat} (h : gc.Inv inUse)
    (hsize : size < 2 ^ 64) (hclass : mallocClass size = some i) (hroom : gc.Room i)
    (hmalloc : gc.malloc fuel stack size = .ok (chunk i k, gc')) :
    gc.Mallocs stack i inUse k gc' := by
  rcases Heap.malloc_spec h hsize hclass hroom stack with ⟨fuel₀, hspec⟩
  rcases hspec fuel₀ (Nat.le_refl _) with ⟨result, hresult, hnull | ⟨m, hm, hmallocs⟩⟩
  · rw [← Heap.malloc_eq hmalloc hresult] at hnull
    have := chunk_pos i k
    simp only at hnull
    omega
  · rw [← Heap.malloc_eq hmalloc hresult] at hm hmallocs
    rw [chunk_injective i hm]
    exact hmallocs

/-- What a collection leaves, whatever the fuel was. -/
theorem Heap.Inv.collect {gc gc' : Heap} {inUse : Set Object} {fuel : Nat} (h : gc.Inv inUse)
    (henabled : gc.enabled = true) (hcollect : gc.collect fuel stack = .ok gc') :
    gc.Collects stack inUse gc' := by
  rcases Heap.collect_spec h henabled stack with ⟨fuel₀, hspec⟩
  rcases hspec fuel₀ (Nat.le_refl _) with ⟨gc'', hgc'', hcollects⟩
  rw [Heap.collect_eq hcollect hgc'']
  exact hcollects

/-- `GC_root` adds a root, or it does nothing. -/
theorem Heap.root_eq (gc : Heap) (ptr size : Nat) :
    (gc.root ptr size).2 = gc ∨ (gc.root ptr size).2 = gc.addRoot (.static ptr size) := by
  unfold Heap.root
  split
  · exact Or.inl rfl
  · exact Or.inr rfl

/-- A step keeps the invariant. -/
theorem World.Step.inv {w w' : World} {e : Event Object} (h : w.Step e w')
    (hw : w.gc.Inv w.inUse) : w'.gc.Inv w'.inUse := by
  cases h with
  | malloc fuel stack size i k gc' hsize hclass hroom hmalloc =>
      exact (hw.malloc hsize hclass hroom hmalloc).inv
  | free i k ho => exact (Heap.freeNonnull_spec hw ho).1
  | collect fuel stack gc' henabled hcollect => exact (hw.collect henabled hcollect).inv
  | write memory' hwrite => exact hw.write hwrite
  | enable enabled => exact ⟨hw.inRange, hw.tracks⟩
  | root ptr size =>
      rcases w.gc.root_eq ptr size with heq | heq <;>
        · rw [heq]
          exact ⟨hw.inRange, hw.tracks⟩
  | dynamicRoot ptrptr sizeptr elemsize => exact ⟨hw.inRange, hw.tracks⟩

/-- A run keeps the invariant. -/
theorem World.Run.inv {w w' : World} {es : List (Event Object)} (h : w.Run es w')
    (hw : w.gc.Inv w.inUse) : w'.gc.Inv w'.inUse := by
  induction h with
  | refl w => exact hw
  | step h _ ih => exact ih (h.inv hw)

/-! ### The store of objects -/

/-- The bytes of an object, and zeros after them. -/
def Object.contents (memory : Bytes) (o : Object) : Nat → UInt8 := fun j =>
  if chunk o.region o.index + j < chunk o.region (o.index + 1) then
    memory (chunk o.region o.index + j) else 0

open Classical in
/-- What the program can see of the memory. -/
noncomputable def World.view (w : World) : ObjectStore.Store Object (Nat → UInt8) := fun o =>
  if o ∈ w.inUse then some (o.contents w.gc.memory) else none

/-- The contents of an object are read off the addresses that it covers. -/
theorem Object.contents_congr {memory memory' : Bytes} {o : Object}
    (h : ∀ a, o.Covers a → memory' a = memory a) : o.contents memory' = o.contents memory := by
  funext j
  unfold Object.contents
  split
  case isTrue hlt => exact h _ ⟨Nat.le_add_right _ _, hlt⟩
  case isFalse => rfl

/-- The contents tell the bytes of an object. -/
theorem Object.eq_of_contents {memory memory' : Bytes} {o : Object}
    (h : o.contents memory' = o.contents memory) {a : Nat} (ha : o.Covers a) :
    memory' a = memory a := by
  have hj := congrFun h (a - chunk o.region o.index)
  unfold Object.contents at hj
  rw [Nat.add_sub_cancel' ha.1, if_pos ha.2, if_pos ha.2] at hj
  exact hj

/-- An object in use is seen with its contents. -/
theorem World.view_of_mem {w : World} {o : Object} (ho : o ∈ w.inUse) :
    w.view o = some (o.contents w.gc.memory) := if_pos ho

/-- An object that is not in use is not seen. -/
theorem World.view_of_notMem {w : World} {o : Object} (ho : o ∉ w.inUse) : w.view o = none :=
  if_neg ho

section Views

variable {v w : World} {o : Object}

/-- What the program sees of an object that has kept its bytes. -/
theorem World.view_congr (hmem : o ∈ v.inUse ↔ o ∈ w.inUse)
    (hframe : o ∈ w.inUse → ∀ a, o.Covers a → v.gc.memory a = w.gc.memory a) :
    v.view o = w.view o := by
  by_cases ho : o ∈ w.inUse
  · rw [World.view_of_mem ho, World.view_of_mem (hmem.mpr ho), Object.contents_congr (hframe ho)]
  · rw [World.view_of_notMem ho, World.view_of_notMem (mt hmem.mp ho)]

/-- Fewer objects, with their bytes. -/
theorem World.restricts (hsub : v.inUse ⊆ w.inUse)
    (hframe : ∀ o ∈ v.inUse, ∀ a, o.Covers a → v.gc.memory a = w.gc.memory a) :
    ObjectStore.Restricts v.inUse w.view v.view := by
  constructor
  · intro o ho
    exact World.view_congr ⟨fun h => hsub h, fun _ => ho⟩ fun _ => hframe o ho
  · intro o ho
    exact World.view_of_notMem ho

variable {gc' : Heap}

/-- An allocation, as the program sees it: the objects that are kept have their contents,
and there is a new one. What the collector took before is not among those kept. -/
theorem World.allocates {keep : Set Object} (hsub : keep ⊆ w.inUse) (hnew : o ∉ keep)
    (hframe : ∀ p ∈ keep, ∀ a, p.Covers a → gc'.memory a = w.gc.memory a) :
    ObjectStore.Step w.view (.alloc o) (World.view ⟨gc', Insert.insert o keep⟩) := by
  have hrestricts : ObjectStore.Restricts keep w.view (World.view ⟨gc', keep⟩) :=
    World.restricts (v := ⟨gc', keep⟩) hsub hframe
  have hnone : World.view ⟨gc', keep⟩ o = none := World.view_of_notMem hnew
  have hsome : (World.view ⟨gc', Insert.insert o keep⟩ o).isSome := by
    rw [World.view_of_mem (w := ⟨gc', Insert.insert o keep⟩) (Set.mem_insert o keep),
      Option.isSome_some]
  refine .alloc keep o hrestricts hnone hsome fun p hp => ?_
  refine World.view_congr (w := ⟨gc', keep⟩) (v := ⟨gc', Insert.insert o keep⟩) ?_ fun _ _ _ => rfl
  simp [hp]

/-- An object that is given back is seen no more, and the others have their contents. -/
theorem World.frees (ho : o ∈ w.inUse)
    (hframe : ∀ p ∈ w.inUse, p ≠ o → ∀ a, p.Covers a → gc'.memory a = w.gc.memory a) :
    ObjectStore.Step w.view (.free o) (World.view ⟨gc', w.inUse \ {o}⟩) := by
  have hsome : (w.view o).isSome := by
    rw [World.view_of_mem ho, Option.isSome_some]
  have hnone : World.view ⟨gc', w.inUse \ {o}⟩ o = none :=
    World.view_of_notMem fun hmem => hmem.2 rfl
  refine .free o hsome hnone fun p hp => ?_
  refine World.view_congr (v := ⟨gc', w.inUse \ {o}⟩) ?_ fun hmem => hframe p hmem hp
  simp [hp]

/-- A collection, as the program sees it: some objects are gone, and the others have their
contents. Which ones are gone is not up to the program. -/
theorem World.drops {live : Set Object}
    (hframe : ∀ o ∈ w.inUse ∩ live, ∀ a, o.Covers a → gc'.memory a = w.gc.memory a) :
    ObjectStore.Step w.view .drop (World.view ⟨gc', w.inUse ∩ live⟩) :=
  .drop _ (World.restricts (v := ⟨gc', w.inUse ∩ live⟩) Set.inter_subset_left hframe)

/-- A write, as the program sees it: only the objects that it names may have changed. -/
theorem World.writes {objects : Set Object}
    (hframe : ∀ o ∉ objects, ∀ a, o.Covers a → gc'.memory a = w.gc.memory a) :
    ObjectStore.Step w.view (.write objects) (World.view ⟨gc', w.inUse⟩) := by
  refine .write objects (fun o => ?_) fun o ho => ?_
  · by_cases hmem : o ∈ w.inUse
    · rw [World.view_of_mem hmem, World.view_of_mem (w := ⟨gc', w.inUse⟩) hmem,
        Option.isSome_some, Option.isSome_some]
    · rw [World.view_of_notMem hmem, World.view_of_notMem (w := ⟨gc', w.inUse⟩) hmem]
  · exact World.view_congr (v := ⟨gc', w.inUse⟩) Iff.rfl fun _ => hframe o ho

end Views

/-- A step is a step of a store of objects. -/
theorem World.Step.refines {w w' : World} {e : Event Object} (h : w.Step e w')
    (hw : w.gc.Inv w.inUse) : ObjectStore.Step w.view e w'.view := by
  cases h with
  | malloc fuel stack size i k gc' hsize hclass hroom hmalloc =>
      have hmallocs := hw.malloc hsize hclass hroom hmalloc
      exact World.allocates (fun o ho => ho.1) hmallocs.notUsed hmallocs.frame
  | free i k ho =>
      have hfree := Heap.freeNonnull_spec hw ho
      exact World.frees ho hfree.2
  | collect fuel stack gc' henabled hcollect =>
      have hcollects := hw.collect henabled hcollect
      exact World.drops hcollects.frame
  | write memory' hwrite =>
      refine World.writes fun o ho a ha => ?_
      by_contra hne
      exact ho ⟨a, ha, hne⟩
  | enable enabled => exact World.writes fun o _ a _ => rfl
  | root ptr size =>
      rcases w.gc.root_eq ptr size with heq | heq <;>
        · rw [heq]
          exact World.writes fun o _ a _ => rfl
  | dynamicRoot ptrptr sizeptr elemsize => exact World.writes fun o _ a _ => rfl

/-- One run after another. -/
theorem World.Run.append {w₁ w₂ w₃ : World} {es es' : List (Event Object)} (h : w₁.Run es w₂)
    (h' : w₂.Run es' w₃) : w₁.Run (es ++ es') w₃ := by
  induction h with
  | refl w => exact h'
  | step h _ ih => exact .step h (ih h')

/-- A run is a run of a store of objects. -/
theorem World.Run.refines {w w' : World} {es : List (Event Object)} (h : w.Run es w')
    (hw : w.gc.Inv w.inUse) : ObjectStore.Run w.view es w'.view := by
  induction h with
  | refl w => exact .refl _
  | step h _ ih => exact .step (h.refines hw) (ih (h.inv hw))

/-! ### A program -/

/-- A memory of zeros. -/
def zeros : Bytes := fun _ => 0

/-- Memory of zeros has zeros in it. -/
theorem readWord_zeros (a : Nat) : zeros.readWord a = 0 := rfl

/-- The heap after an allocation of 16 bytes. -/
def Heap.allocated (gc : Heap) : Heap :=
  match gc.malloc 0 ⟨0, 0⟩ 16 with
  | .ok block => block.2
  | .error _ => gc

/-- The program has one object of 16 bytes. -/
def oneObject : World := ⟨(init zeros).allocated, {⟨0, 0⟩}⟩

/-- The program has three objects. -/
def threeObjects : World :=
  ⟨(init zeros).allocated.allocated.allocated, {⟨0, 2⟩, ⟨0, 1⟩, ⟨0, 0⟩}⟩

/-- It gives the third one back. -/
def twoObjects : World :=
  ⟨threeObjects.gc.freeNonnull (chunk 0 2), threeObjects.inUse \ {⟨0, 2⟩}⟩

/-- The word of the stack that the program uses. -/
def oneWord : MachineStack := ⟨4096, 4104⟩

/-- The memory with a pointer to the second object on the stack. -/
def pointing : Bytes := twoObjects.gc.memory.writeWord 4096 (chunk 0 1)

/-- The program has put the pointer there: the first object cannot be reached any more. -/
def pointed : World := ⟨{ twoObjects.gc with memory := pointing }, twoObjects.inUse⟩

/-- The first size class is that of 16 bytes. -/
theorem mallocClass_sixteen : mallocClass 16 = some 0 := by decide

/-- There is room for chunks of 16 bytes at the start. -/
theorem init_room : (init zeros).Room 0 := by
  show regionStart 0 + regionSize 0 < indexRegion 1
  decide

/-- The first allocation of 16 bytes takes the first chunk of the region. -/
theorem malloc_first :
    (init zeros).malloc 0 ⟨0, 0⟩ 16 = .ok (chunk 0 0, (init zeros).allocated) := rfl

/-- The second one takes the second chunk. -/
theorem malloc_second :
    oneObject.gc.malloc 0 ⟨0, 0⟩ 16 = .ok (chunk 0 1, oneObject.gc.allocated) := rfl

/-- An allocation without a collection. -/
theorem World.Step.alloc {w : World} {gc' : Heap} (hsize : size < 2 ^ 64)
    (hclass : mallocClass size = some i) (hroom : w.gc.Room i)
    (hmalloc : w.gc.malloc 0 stack size = .ok (chunk i k, gc'))
    (hdue : ¬ w.gc.due (w.gc.regions i).size) :
    w.Step (.alloc ⟨i, k⟩) ⟨gc', Insert.insert ⟨i, k⟩ w.inUse⟩ := by
  have hstep := World.Step.malloc 0 stack size i k gc' hsize hclass hroom hmalloc
  rwa [Heap.survivors_of_not_due hdue] at hstep

/-- The run with one object. -/
theorem oneObject_run : (World.start zeros).Run [.alloc ⟨0, 0⟩] oneObject := by
  have hstep : (World.start zeros).Step (.alloc ⟨0, 0⟩) ⟨oneObject.gc, Insert.insert ⟨0, 0⟩ ∅⟩ :=
    .alloc (by decide) mallocClass_sixteen init_room malloc_first (by decide)
  rw [insert_empty_eq] at hstep
  exact .step hstep (.refl _)

/-- There is room for more behind the first object. -/
theorem oneObject_room : oneObject.gc.Room 0 := by
  show chunk 0 1 + regionSize 0 < indexRegion 1
  decide

/-- From the first object on. -/
theorem threeObjects_run :
    oneObject.Run [.alloc ⟨0, 1⟩, .alloc ⟨0, 2⟩] threeObjects := by
  have hroom : oneObject.gc.allocated.Room 0 := by
    show chunk 0 2 + regionSize 0 < indexRegion 1
    decide
  have hsecond : oneObject.Step (.alloc ⟨0, 1⟩) ⟨oneObject.gc.allocated, {⟨0, 1⟩, ⟨0, 0⟩}⟩ :=
    .alloc (by decide) mallocClass_sixteen oneObject_room malloc_second (by decide)
  have hmalloc : oneObject.gc.allocated.malloc 0 ⟨0, 0⟩ 16
      = .ok (chunk 0 2, threeObjects.gc) := rfl
  have hthird : World.Step ⟨oneObject.gc.allocated, {⟨0, 1⟩, ⟨0, 0⟩}⟩ (.alloc ⟨0, 2⟩)
      threeObjects :=
    .alloc (by decide) mallocClass_sixteen hroom hmalloc (by decide)
  exact .step hsecond (.step hthird (.refl _))

/-- The third object is given back. -/
theorem twoObjects_step : threeObjects.Step (.free ⟨0, 2⟩) twoObjects :=
  .free 0 2 (Set.mem_insert _ _)

/-- The word that is written is in no object. -/
theorem pointing_outside {a : Nat} (ha : indexRegion 0 ≤ a) :
    pointing a = twoObjects.gc.memory a := by
  have hregion : indexRegion 0 = 8589934592 := rfl
  exact Bytes.writeWord_outside _ (by omega)

/-- The write is into the second object, so the others keep their bytes. -/
theorem pointing_covers {o : Object} {a : Nat} (ha : o.Covers a) :
    pointing a = twoObjects.gc.memory a := by
  refine pointing_outside ?_
  have hregion : indexRegion 0 = 8589934592 := rfl
  have hregion' : indexRegion o.region = 8589934592 + o.region * 4294967296 := rfl
  have hle := Nat.le_trans (le_chunk o.region o.index) ha.1
  omega

/-- A write is a step whatever it is, with the bytes that it changes. -/
theorem pointed_step : twoObjects.Step (.write (changed twoObjects.gc.memory pointing)) pointed :=
  .write pointing fun _ _ _ _ ha => pointing_covers ha

/-- What the program does until the collection. -/
theorem pointed_run : (World.start zeros).Run
    [.alloc ⟨0, 0⟩, .alloc ⟨0, 1⟩, .alloc ⟨0, 2⟩, .free ⟨0, 2⟩,
      .write (changed twoObjects.gc.memory pointing)] pointed :=
  (oneObject_run.append threeObjects_run).append
    (.step twoObjects_step (.step pointed_step (.refl _)))

/-- The invariant of the collector holds after the write. -/
theorem pointed_inv : pointed.gc.Inv pointed.inUse := pointed_run.inv (init_inv zeros)

/-- The second object is still in use. -/
theorem mem_pointed : (⟨0, 1⟩ : Object) ∈ pointed.inUse :=
  ⟨Set.mem_insert_of_mem _ (Set.mem_insert _ _), by simp⟩

/-- There is room for more after the write. -/
theorem pointed_room : pointed.gc.Room 0 := by
  show chunk 0 3 + regionSize 0 < indexRegion 1
  decide

/-- A collection keeps one object only, if the one word of the stack points to it, no root
was registered, and no word of the object is a pointer. -/
theorem Heap.live_eq_singleton {gc : Heap} {o : Object} (hroots : gc.roots = [])
    (hword : target gc.memory gc.regions 4096 = some o)
    (hcells : ∀ a ∈ o.cells, target gc.memory gc.regions a = none) : gc.Live oneWord = {o} := by
  have hrange : Root.range gc.memory (.static oneWord.top (oneWord.bottom - oneWord.top))
      = ⟨4096, 4104⟩ := by
    simp only [Root.range, Root.size, oneWord]
  have hrootCells : ∀ a ∈ rootCells gc.memory (gc.allRoots oneWord), a = 4096 := by
    rintro a ⟨root, hroot, j, rfl, hlt⟩
    rw [allRoots, hroots] at hroot
    rw [List.mem_singleton.mp hroot, hrange] at hlt ⊢
    simp only at hlt ⊢
    omega
  ext p
  constructor
  · intro hp
    induction hp with
    | root hw htarget =>
        rw [hrootCells _ hw] at htarget
        exact (Option.some.inj (hword.symm.trans htarget)).symm
    | step _ hw htarget ih =>
        rw [Set.mem_singleton_iff.mp ih] at hw
        cases (hcells _ hw).symm.trans htarget
  · rintro rfl
    refine .root (w := 4096) ⟨_, List.mem_cons_self, ?_⟩ hword
    rw [hrange]
    exact ⟨0, rfl, by decide⟩

/-- A collection keeps the second object only. -/
theorem pointed_live : pointed.gc.Live oneWord = {⟨0, 1⟩} := by
  have hhas := pointed_inv.has mem_pointed
  refine Heap.live_eq_singleton rfl ?word ?cells
  case word =>
    show object? pointed.gc.regions (pointing.readWord 4096) = _
    unfold pointing
    rw [Bytes.readWord_writeWord]
    exact object?_eq (pointed_inv.laid hhas.1) hhas.1 hhas.2 (by decide) (by decide)
      (.inl (by decide))
  -- The words of the second object are zeros.
  case cells =>
    rintro a ⟨j, rfl, hlt⟩
    change chunk 0 1 + 8 * j < chunk 0 (1 + 1) at hlt
    have hnext : chunk 0 (1 + 1) = chunk 0 1 + 16 := by decide
    have hzeros : pointing.readWord (chunk 0 1 + 8 * j) = zeros.readWord (chunk 0 1 + 8 * j) := by
      refine Bytes.readWord_congr fun b hb hb' => ?_
      have hlow : chunk 0 1 ≤ b := Nat.le_trans (Nat.le_add_right _ _) hb
      have hhigh : b < chunk 0 (1 + 1) := by omega
      rw [pointing_covers (o := ⟨0, 1⟩) ⟨hlow, hhigh⟩]
      exact Bytes.writeWord_outside _ (.inl hhigh)
    show object? _ (pointing.readWord (chunk 0 1 + 8 * j)) = none
    rw [hzeros, readWord_zeros, object?, if_neg (by decide)]

/-- The collection of the program. -/
theorem pointed_collected : ∃ gc', pointed.Run [.drop]
    ⟨gc', pointed.inUse ∩ pointed.gc.Live oneWord⟩ := by
  rcases Heap.collect_spec pointed_inv rfl oneWord with ⟨fuel₀, hspec⟩
  rcases hspec fuel₀ (Nat.le_refl _) with ⟨gc', hcollect, -⟩
  exact ⟨gc', .step (.collect fuel₀ oneWord gc' rfl hcollect) (.refl _)⟩

/-! ### Every program -/

section Programs

variable {w w' : World} {es es' : List (Event Object)}

/-- The collector is a store of objects, which starts empty: no allocation gives an object
that the program has, and what is in an object changes by the program's writes only. -/
theorem run_store (h : (World.start memory).Run es w) :
    ObjectStore.Run (fun _ => none) es w.view := by
  have hstart : (World.start memory).view = fun _ => none := by
    funext o
    exact World.view_of_notMem (Set.notMem_empty o)
  rw [← hstart]
  exact h.refines (init_inv memory)

/-- Three objects, one of them given back, a write that makes one object point to another,
and a collection that the root of one word survives. -/
theorem run_store_collected : ∃ gc', ObjectStore.Run (fun _ => none)
    [.alloc ⟨0, 0⟩, .alloc ⟨0, 1⟩, .alloc ⟨0, 2⟩, .free ⟨0, 2⟩,
      .write (changed twoObjects.gc.memory pointing), .drop]
    (World.view ⟨gc', pointed.inUse ∩ pointed.gc.Live oneWord⟩) := by
  rcases pointed_collected with ⟨gc', hdrop⟩
  exact ⟨gc', run_store (pointed_run.append hdrop)⟩

/-- An object that the program has after a run it had before, with the same bytes, if in
between it was neither allocated nor written to. -/
theorem run_bytes (h : (World.start memory).Run es w) (h' : w.Run es' w') {o : Object}
    (ho : o ∈ w'.inUse) (huntouched : ∀ e ∈ es', ¬ e.Touches o) :
    o ∈ w.inUse ∧ ∀ a, o.Covers a → w'.gc.memory a = w.gc.memory a := by
  have hrun := h'.refines (h.inv (init_inv memory))
  have hview := World.view_of_mem ho
  rcases hrun.untouched huntouched with heq | hnone
  · rw [hview] at heq
    by_cases hmem : o ∈ w.inUse
    · rw [World.view_of_mem hmem, Option.some.injEq] at heq
      exact ⟨hmem, fun a ha => Object.eq_of_contents heq ha⟩
    · rw [World.view_of_notMem hmem] at heq
      exact absurd heq (by simp)
  · rw [hview] at hnone
    exact absurd hnone (by simp)

/-- The second object has its bytes after the third one is given back, a word is written and
the first one is collected. -/
theorem run_bytes_collected : ∃ gc' : Heap, (⟨0, 1⟩ : Object) ∈ threeObjects.inUse ∧
    ∀ a, Object.Covers ⟨0, 1⟩ a → gc'.memory a = threeObjects.gc.memory a := by
  rcases pointed_collected with ⟨gc', hdrop⟩
  have hrun : threeObjects.Run
      ([.free ⟨0, 2⟩, .write (changed twoObjects.gc.memory pointing)] ++ [.drop])
      ⟨gc', pointed.inUse ∩ pointed.gc.Live oneWord⟩ :=
    .append (.step twoObjects_step (.step pointed_step (.refl _))) hdrop
  have hmem : (⟨0, 1⟩ : Object) ∈ pointed.inUse ∩ pointed.gc.Live oneWord :=
    ⟨mem_pointed, pointed_live ▸ Set.mem_singleton _⟩
  refine ⟨gc', run_bytes (oneObject_run.append threeObjects_run) hrun hmem fun e he => ?_⟩
  simp only [List.cons_append, List.nil_append, List.mem_cons, List.not_mem_nil, or_false] at he
  rcases he with rfl | rfl | rfl
  · exact id
  · rintro ⟨a, ha, hne⟩
    exact hne (pointing_covers ha)
  · exact id

/-- Each chunk starts at a multiple of 16. -/
theorem chunk_mod (i k : Nat) : chunk i k % 16 = 0 := by
  have hsize : 16 ∣ regionSize i := Nat.dvd_of_mod_eq_zero (regionSize_mod i)
  have hstart : regionSize i ∣ regionStart i :=
    Nat.dvd_of_mod_eq_zero (regionStart_spec i).1
  exact Nat.mod_eq_zero_of_dvd
    (Nat.dvd_add (Nat.dvd_trans hsize hstart) (Nat.dvd_trans hsize (Nat.dvd_mul_left _ _)))

/-- `GC_malloc` ends in every run, and its block is aligned and has memory that can be
accessed for the size, where no object is that the program has. -/
theorem run_malloc (h : (World.start memory).Run es w) (hsize : size < 2 ^ 64)
    (hclass : mallocClass size = some i) (hroom : w.gc.Room i) (stack : MachineStack) :
    ∃ fuel₀, ∀ fuel ≥ fuel₀, ∃ ptr gc', w.gc.malloc fuel stack size = .ok (ptr, gc') ∧
      (ptr ≠ 0 → ptr % gcAlignment = 0 ∧ ptr + size ≤ (gc'.regions i).protectptr ∧
        ∀ o ∈ w.gc.survivors stack (w.gc.regions i).size w.inUse, ∀ a, o.Covers a →
          (a < ptr ∨ ptr + size ≤ a) ∧ gc'.memory a = w.gc.memory a) := by
  have hinv := h.inv (init_inv memory)
  have hclassSpec := mallocClass_spec hsize hclass
  rcases Heap.malloc_spec hinv hsize hclass hroom stack with ⟨fuel₀, hspec⟩
  refine ⟨fuel₀, fun fuel hfuel => ?_⟩
  rcases hspec fuel hfuel with ⟨⟨ptr, gc'⟩, hresult, hcase⟩
  refine ⟨ptr, gc', hresult, fun hne => ?_⟩
  rcases hcase with hnull | ⟨k, hk, hmallocs⟩
  · exact absurd hnull hne
  · simp only at hk hmallocs
    subst hk
    have hhas := hmallocs.inv.has (Set.mem_insert _ _)
    rcases hmallocs.inv.tracks i hhas.1 with ⟨f, htracks, -⟩
    have hend : chunk i k + size ≤ chunk i (k + 1) := by
      rw [chunk_succ]
      exact Nat.add_le_add_left hclassSpec.2.2.1 _
    refine ⟨chunk_mod i k, ?_, fun o ho a ha => ⟨?_, hmallocs.frame o ho a ha⟩⟩
    · have hcount : chunk i (k + 1) ≤ chunk i (gc'.regions i).count := chunk_le i hhas.2
      have haccess := htracks.access
      rw [htracks.laid.freeptr] at haccess
      omega
    · have hne' : o ≠ ⟨i, k⟩ := fun heq => hmallocs.notUsed (heq ▸ ho)
      have hapart := Regions.Has.apart (fun j hj => hmallocs.inv.laid hj)
        (hmallocs.inv.has (Set.mem_insert_of_mem _ ho)) hhas hne' ha
      unfold Object.Covers at hapart
      simp only at hapart
      omega

/-- An allocation from two objects with a root, which may collect. -/
theorem run_malloc_pointed : ∃ fuel₀, ∀ fuel ≥ fuel₀, ∃ ptr gc',
    pointed.gc.malloc fuel oneWord 16 = .ok (ptr, gc') ∧
      (ptr ≠ 0 → ptr % gcAlignment = 0 ∧ ptr + 16 ≤ (gc'.regions 0).protectptr ∧
        ∀ o ∈ pointed.gc.survivors oneWord (pointed.gc.regions 0).size pointed.inUse,
          ∀ a, o.Covers a → (a < ptr ∨ ptr + 16 ≤ a) ∧ gc'.memory a = pointed.gc.memory a) :=
  run_malloc pointed_run (by decide) mallocClass_sixteen pointed_room oneWord

/-- The object is on the free list, or `GC_malloc_index` finds it when it looks for chunks
without a mark. -/
def Heap.IsFree (gc : Heap) (o : Object) : Prop :=
  ∃ f, (gc.regions o.region).Tracks gc.memory o.region f ∧ f.Mem (gc.regions o.region) o.index

/-- In every run, a collection ends. The objects of the program that it can reach keep their
bytes. Of the chunks that are left, those have a mark that it can reach, and the others can
be given out. -/
theorem run_collect (h : (World.start memory).Run es w) (henabled : w.gc.enabled = true)
    (stack : MachineStack) :
    ∃ fuel₀, ∀ fuel ≥ fuel₀, ∃ gc', w.gc.collect fuel stack = .ok gc' ∧
      (∀ o ∈ w.inUse ∩ w.gc.Live stack, gc'.regions.Has o ∧
        ∀ a, o.Covers a → gc'.memory a = w.gc.memory a) ∧
      ∀ o, gc'.regions.Has o →
        ((gc'.regions o.region).isMarked o.index ↔ o ∈ w.gc.Live stack) ∧
          (gc'.IsFree o ↔ o ∉ w.gc.Live stack) := by
  have hinv := h.inv (init_inv memory)
  rcases Heap.collect_spec hinv henabled stack with ⟨fuel₀, hspec⟩
  refine ⟨fuel₀, fun fuel hfuel => ?_⟩
  rcases hspec fuel hfuel with ⟨gc', hgc', hcollects⟩
  refine ⟨gc', hgc', fun o ho => ⟨hcollects.inv.has ho, hcollects.frame o ho⟩, fun o ho => ?_⟩
  have hregion := hcollects.regions o.region ho.1
  have hmarked := hregion.marked o.index ho.2
  refine ⟨hmarked, ?_, fun hdead => ?_⟩
  · rintro ⟨f, htracks, hmem⟩ hlive
    rw [htracks.unique (hregion.tracks gc'.memory)] at hmem
    rcases hmem with hmem | hunswept
    · exact absurd hmem List.not_mem_nil
    · exact hunswept.2.2 (hmarked.mpr hlive)
  · refine ⟨_, hregion.tracks gc'.memory, Or.inr ⟨Nat.zero_le _, ho.2, ?_⟩⟩
    exact fun hmark => hdead (hmarked.mp hmark)

/-- The second object is kept, and the first one is free. -/
theorem run_collect_pointed : ∃ fuel₀, ∀ fuel ≥ fuel₀, ∃ gc',
    pointed.gc.collect fuel oneWord = .ok gc' ∧
      (gc'.regions.Has ⟨0, 1⟩ ∧
        ∀ a, Object.Covers ⟨0, 1⟩ a → gc'.memory a = pointed.gc.memory a) ∧
      (gc'.regions 0).isMarked 1 ∧ ¬ (gc'.regions 0).isMarked 0 ∧ gc'.IsFree ⟨0, 0⟩ := by
  rcases run_collect pointed_run rfl oneWord with ⟨fuel₀, hspec⟩
  refine ⟨fuel₀, fun fuel hfuel => ?_⟩
  rcases hspec fuel hfuel with ⟨gc', hcollect, hkept, hmarks⟩
  rw [pointed_live] at hkept hmarks
  have hsecond := hkept ⟨0, 1⟩ ⟨mem_pointed, Set.mem_singleton _⟩
  have hfirst : gc'.regions.Has ⟨0, 0⟩ := ⟨hsecond.1.1, Nat.zero_lt_of_lt hsecond.1.2⟩
  have hdead : (⟨0, 0⟩ : Object) ∉ ({⟨0, 1⟩} : Set Object) := by simp
  exact ⟨gc', hcollect, hsecond, (hmarks _ hsecond.1).1.mpr rfl,
    fun hmark => hdead ((hmarks _ hfirst).1.mp hmark), (hmarks _ hfirst).2.mpr hdead⟩

/-- In every run, each chunk is either in use, or free, or has a mark from the last
collection. -/
theorem run_chunks (h : (World.start memory).Run es w) {o : Object} (ho : w.gc.regions.Has o) :
    (o ∈ w.inUse ∨ w.gc.IsFree o ∨ (w.gc.regions o.region).isMarked o.index) ∧
      (o ∈ w.inUse → ¬ w.gc.IsFree o) := by
  rcases (h.inv (init_inv memory)).tracks o.region ho.1 with ⟨f, htracks, hshares⟩
  constructor
  · rcases hshares.kept o.index ho.2 with hused | hfree | ⟨-, hmarked⟩
    · exact Or.inl hused
    · exact Or.inr (Or.inl ⟨f, htracks, hfree⟩)
    · exact Or.inr (Or.inr hmarked)
  · rintro hused ⟨f', htracks', hfree⟩
    rw [htracks'.unique htracks] at hfree
    exact hshares.free o.index hfree hused

/-- An object that the program has, and one that it has given back. -/
theorem run_chunks_pointed :
    (((⟨0, 1⟩ : Object) ∈ pointed.inUse ∨ pointed.gc.IsFree ⟨0, 1⟩ ∨
        (pointed.gc.regions 0).isMarked 1) ∧
      ((⟨0, 1⟩ : Object) ∈ pointed.inUse → ¬ pointed.gc.IsFree ⟨0, 1⟩)) ∧
    (((⟨0, 2⟩ : Object) ∈ pointed.inUse ∨ pointed.gc.IsFree ⟨0, 2⟩ ∨
        (pointed.gc.regions 0).isMarked 2) ∧
      ((⟨0, 2⟩ : Object) ∈ pointed.inUse → ¬ pointed.gc.IsFree ⟨0, 2⟩)) :=
  ⟨run_chunks pointed_run (pointed_inv.has mem_pointed),
    run_chunks pointed_run ⟨by decide, by decide⟩⟩

/-- A region grows in an allocation only if its chunks are in use or have a mark from the
last collection, which can be one that the allocation did. -/
theorem run_reuse (h : (World.start memory).Run es w) {fuel fuel' : Nat} {gc₁ gc' : Heap}
    (hsize : size < 2 ^ 64) (hclass : mallocClass size = some i) (hroom : w.gc.Room i)
    (hcollect : w.gc.maybeCollect fuel stack (w.gc.regions i).size = .ok gc₁)
    (hmalloc : w.gc.malloc fuel' stack size = .ok (chunk i k, gc'))
    (hgrown : (gc'.regions i).freeptr ≠ (gc₁.regions i).freeptr) :
    ∀ m < (gc₁.regions i).count,
      ⟨i, m⟩ ∈ w.gc.survivors stack (w.gc.regions i).size w.inUse ∨
        (gc₁.regions i).isMarked m := by
  have hinv := h.inv (init_inv memory)
  have hmallocs := hinv.malloc hsize hclass hroom hmalloc
  have hi : i < gcNumRegions := (mallocClass_spec hsize hclass).2.1
  rcases Heap.maybeCollect_spec hinv stack (w.gc.regions i).size with ⟨fuel₀, hspec⟩
  rcases hspec fuel₀ (Nat.le_refl _) with ⟨gc₂, hgc₂, hinv₁, -⟩
  rw [Heap.maybeCollect_eq hgc₂ hcollect] at hinv₁
  refine hmallocs.reuse fuel gc₁ hcollect fun hcount => hgrown ?_
  rw [(hmallocs.inv.laid hi).freeptr, (hinv₁.laid hi).freeptr, hcount]

/-- The second object is in new memory, since the program has the first one. -/
theorem run_reuse_second :
    oneObject.gc.malloc 0 ⟨0, 0⟩ 16 = .ok (chunk 0 1, oneObject.gc.allocated) ∧
      ∀ m < (oneObject.gc.regions 0).count,
        ⟨0, m⟩ ∈ oneObject.gc.survivors ⟨0, 0⟩ (oneObject.gc.regions 0).size oneObject.inUse ∨
          (oneObject.gc.regions 0).isMarked m := by
  let counted : Heap := { oneObject.gc with allocSize := 32 }
  have hcollect : oneObject.gc.maybeCollect 0 ⟨0, 0⟩ (oneObject.gc.regions 0).size
      = .ok counted := rfl
  have hgrown : (oneObject.gc.allocated.regions 0).freeptr ≠ (counted.regions 0).freeptr := by
    show chunk 0 2 ≠ chunk 0 1
    decide
  have hreuse := run_reuse oneObject_run (by decide) mallocClass_sixteen oneObject_room
    hcollect malloc_second hgrown
  exact ⟨malloc_second, hreuse⟩

/-- There is one chunk in the region then. -/
example : (oneObject.gc.regions 0).count = 1 := by decide

end Programs

end Aike.Gc
