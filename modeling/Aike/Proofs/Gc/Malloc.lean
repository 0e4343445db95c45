import Aike.Proofs.Gc.Collect

/-!
# `Aike.Proofs.Gc.Malloc`: `GC_malloc` with its collections

`GC_malloc` collects if enough was allocated. Then the objects in use that cannot be
reached are in use no more (`Heap.survivors`). The object that it gives out was not in use,
or was such an object (`Heap.malloc_spec`).

The result does not depend on the fuel of `gc_mark`, if there is a result
(`Heap.malloc_eq`).
-/

set_option autoImplicit false

namespace Aike.Gc

variable {memory : Bytes} {i k size : Nat} {gc gc' gc₁ gc₂ : Heap} {inUse : Set Object}
  {stack : MachineStack} {fuel fuel' : Nat}

/-! ### Fuel -/

/-- A collection that ends with some fuel ends with any other fuel in the same heap, if it
ends. -/
theorem Heap.collect_eq (h : gc.collect fuel stack = .ok gc₁)
    (h' : gc.collect fuel' stack = .ok gc₂) : gc₁ = gc₂ := by
  unfold Heap.collect at h h'
  by_cases henabled : gc.enabled = true
  · rw [if_pos henabled] at h h'
    cases hs : mark gc.memory fuel (markInit gc.regions) (gc.allRoots stack) with
    | error e =>
        rw [hs] at h
        exact absurd h (by simp [bind, Except.bind])
    | ok s =>
        cases hs' : mark gc.memory fuel' (markInit gc.regions) (gc.allRoots stack) with
        | error e =>
            rw [hs'] at h'
            exact absurd h' (by simp [bind, Except.bind])
        | ok s' =>
            rw [hs] at h
            rw [hs', Marker.run_eq hs' hs] at h'
            exact Except.ok.inj (h.symm.trans h')
  · rw [if_neg henabled] at h h'
    exact Except.ok.inj (h.symm.trans h')

/-- A collection before an allocation has one result. -/
theorem Heap.maybeCollect_eq (h : gc.maybeCollect fuel stack size = .ok gc₁)
    (h' : gc.maybeCollect fuel' stack size = .ok gc₂) : gc₁ = gc₂ := by
  unfold Heap.maybeCollect at h h'
  by_cases hdue : gc.due size
  · rw [if_pos hdue] at h h'
    rcases hs : Heap.collect fuel stack { gc with allocSize := gc.allocSize + size } with e | s
    · rw [hs] at h
      exact absurd h (by simp [bind, Except.bind])
    · rcases hs' : Heap.collect fuel' stack { gc with allocSize := gc.allocSize + size } with
        e | s'
      · rw [hs'] at h'
        exact absurd h' (by simp [bind, Except.bind])
      · rw [hs] at h
        rw [hs', Heap.collect_eq hs' hs] at h'
        exact Except.ok.inj (h.symm.trans h')
  · rw [if_neg hdue] at h h'
    exact Except.ok.inj (h.symm.trans h')

/-- So does an allocation. -/
theorem Heap.mallocIndex_eq {result result' : Nat × Heap}
    (h : gc.mallocIndex fuel stack i = .ok result)
    (h' : gc.mallocIndex fuel' stack i = .ok result') : result = result' := by
  unfold Heap.mallocIndex at h h'
  rcases hs : gc.maybeCollect fuel stack (gc.regions i).size with e | s
  · rw [hs] at h
    exact absurd h (by simp [bind, Except.bind])
  · rcases hs' : gc.maybeCollect fuel' stack (gc.regions i).size with e | s'
    · rw [hs'] at h'
      exact absurd h' (by simp [bind, Except.bind])
    · rw [hs] at h
      rw [hs', Heap.maybeCollect_eq hs' hs] at h'
      exact Except.ok.inj (h.symm.trans h')

/-- `GC_malloc` has one result. -/
theorem Heap.malloc_eq {result result' : Nat × Heap} (h : gc.malloc fuel stack size = .ok result)
    (h' : gc.malloc fuel' stack size = .ok result') : result = result' := by
  unfold Heap.malloc at h h'
  generalize mallocClass size = idx at h h'
  cases idx with
  | none => exact absurd h (by simp [Heap.mallocClassed])
  | some i => exact Heap.mallocIndex_eq h h'

/-! ### The collection before an allocation -/

/-- What is in use after the collection, if there is one. -/
def Heap.survivors (gc : Heap) (stack : MachineStack) (size : Nat) (inUse : Set Object) :
    Set Object :=
  {o | o ∈ inUse ∧ (gc.due size → o ∈ gc.Live stack)}

/-- Without a collection all objects survive. -/
theorem Heap.survivors_of_not_due (h : ¬ gc.due size) : gc.survivors stack size inUse = inUse := by
  ext o
  unfold Heap.survivors
  simp [h]

/-- What the collection before an allocation does, if there is one. -/
theorem Heap.maybeCollect_spec (h : gc.Inv inUse) (stack : MachineStack) (size : Nat) :
    ∃ fuel₀, ∀ fuel ≥ fuel₀, ∃ gc', gc.maybeCollect fuel stack size = .ok gc' ∧
      gc'.Inv (gc.survivors stack size inUse) ∧
      (∀ o ∈ gc.survivors stack size inUse, ∀ a, o.Covers a → gc'.memory a = gc.memory a) ∧
      (∀ i < gcNumRegions, gc.Room i → gc'.Room i) ∧
      gc'.enabled = gc.enabled ∧ gc'.roots = gc.roots := by
  unfold Heap.maybeCollect
  by_cases hdue : gc.due size
  · have hsurvivors : gc.survivors stack size inUse = inUse ∩ gc.Live stack := by
      ext o
      unfold Heap.survivors
      simp [hdue]
    have hinv : Heap.Inv { gc with allocSize := gc.allocSize + size } inUse :=
      ⟨h.inRange, h.tracks⟩
    rcases Heap.collect_spec hinv hdue.2 stack with ⟨fuel₀, hcollect⟩
    refine ⟨fuel₀, fun fuel hfuel => ?_⟩
    rcases hcollect fuel hfuel with ⟨gc', hgc', hspec⟩
    rw [if_pos hdue, hgc', hsurvivors]
    refine ⟨_, rfl, ⟨hspec.inv.inRange, hspec.inv.tracks⟩, hspec.frame, fun i hi hroom => ?_,
      hspec.enabled, hspec.roots⟩
    have hregion := hspec.regions i hi
    have hsize := hregion.size
    have hfreeptr := hregion.freeptr
    unfold Heap.Room at hroom ⊢
    simp only at hsize hfreeptr ⊢
    omega
  · refine ⟨0, fun fuel _ => ?_⟩
    rw [if_neg hdue, Heap.survivors_of_not_due hdue]
    exact ⟨_, rfl, ⟨h.inRange, h.tracks⟩, fun o _ a _ => rfl, fun i _ hroom => hroom, rfl, rfl⟩

/-- What `GC_malloc` gives out, if not the null pointer: a chunk that was not in use. The
region has grown only if its chunks were in use or had a mark. -/
structure Heap.Mallocs (gc : Heap) (stack : MachineStack) (i : Nat) (inUse : Set Object)
    (k : Nat) (gc' : Heap) : Prop where
  inv : gc'.Inv (Insert.insert ⟨i, k⟩ (gc.survivors stack (gc.regions i).size inUse))
  notUsed : ⟨i, k⟩ ∉ gc.survivors stack (gc.regions i).size inUse
  frame : ∀ o ∈ gc.survivors stack (gc.regions i).size inUse, ∀ a, o.Covers a →
    gc'.memory a = gc.memory a
  reuse : ∀ fuel gc₁, gc.maybeCollect fuel stack (gc.regions i).size = .ok gc₁ →
    (gc'.regions i).count ≠ (gc₁.regions i).count → ∀ m < (gc₁.regions i).count,
      ⟨i, m⟩ ∈ gc.survivors stack (gc.regions i).size inUse ∨ (gc₁.regions i).isMarked m
  enabled : gc'.enabled = gc.enabled
  roots : gc'.roots = gc.roots

/-- With enough fuel, `GC_malloc_index` ends. It answers the null pointer, or a chunk that
was not in use, after at most one collection. -/
theorem Heap.mallocIndex_spec (h : gc.Inv inUse) (hi : i < gcNumRegions) (hroom : gc.Room i)
    (stack : MachineStack) :
    ∃ fuel₀, ∀ fuel ≥ fuel₀, ∃ result, gc.mallocIndex fuel stack i = .ok result ∧
      (result.1 = 0 ∨ ∃ k, result.1 = chunk i k ∧ gc.Mallocs stack i inUse k result.2) := by
  rcases Heap.maybeCollect_spec h stack (gc.regions i).size with ⟨fuel₀, hmaybe⟩
  refine ⟨fuel₀, fun fuel hfuel => ?_⟩
  rcases hmaybe fuel hfuel with ⟨gc₁, hgc₁, hinv, hframe, hroom', henabled, hroots⟩
  rcases Heap.allocate_spec hinv hi (hroom' i hi hroom) with ⟨result, hresult, halloc⟩
  refine ⟨result, ?_, ?_⟩
  · unfold Heap.mallocIndex
    rw [hgc₁]
    exact hresult
  · rcases halloc with hnull | ⟨k, hk, hgives⟩
    · exact Or.inl hnull
    · refine Or.inr ⟨k, hk, hgives.inv, hgives.notUsed, ?_, ?_, ?_, ?_⟩
      · intro o ho a ha
        rw [hgives.frame o ho a ha, hframe o ho a ha]
      · intro fuel' gc₂ hgc₂
        rw [← Heap.maybeCollect_eq hgc₁ hgc₂]
        exact hgives.reuse
      · rw [hgives.enabled, henabled]
      · rw [hgives.roots, hroots]

/-- `GC_malloc` ends when `gc_mark` has enough fuel, with the null pointer or an object that
was not in use. -/
theorem Heap.malloc_spec (h : gc.Inv inUse) (hsize : size < 2 ^ 64)
    (hclass : mallocClass size = some i) (hroom : gc.Room i) (stack : MachineStack) :
    ∃ fuel₀, ∀ fuel ≥ fuel₀, ∃ result, gc.malloc fuel stack size = .ok result ∧
      (result.1 = 0 ∨ ∃ k, result.1 = chunk i k ∧ gc.Mallocs stack i inUse k result.2) := by
  have hi : i < gcNumRegions := (mallocClass_spec hsize hclass).2.1
  rcases Heap.mallocIndex_spec h hi hroom stack with ⟨fuel₀, hindex⟩
  refine ⟨fuel₀, fun fuel hfuel => ?_⟩
  rcases hindex fuel hfuel with ⟨result, hresult, hspec⟩
  refine ⟨result, ?_, hspec⟩
  unfold Heap.malloc
  rw [hclass]
  exact hresult

end Aike.Gc
