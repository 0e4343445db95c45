import Aike.Proofs.Gc.Alloc

/-!
# `Aike.Proofs.Gc.Collect`: what a collection and a deallocation leave

A collection keeps the objects in use that can be reached, with their bytes, and all other
chunks are free or have a mark after it (`Heap.collect_spec`). An object that is given back
with `GC_free_nonnull` is free (`Heap.freeNonnull_spec`).
-/

set_option autoImplicit false

namespace Aike.Gc

variable {memory : Bytes} {i k : Nat} {r : Region} {gc : Heap} {inUse : Set Object} {f : Free}

/-! ### `GC_free_nonnull` -/

/-- The region of an object in use, from its pointer. -/
theorem Heap.Inv.index_chunk (h : gc.Inv inUse) (ho : ⟨i, k⟩ ∈ inUse) : index (chunk i k) = i := by
  have hhas := h.has ho
  apply index_eq hhas.1 (le_chunk i k)
  have hlt := (covers_chunk i k).2
  have hle := (h.laid hhas.1).chunk_le (k := k + 1) hhas.2
  exact Nat.lt_of_lt_of_le hlt hle

/-- A chunk that was in use is put on the free list. -/
theorem Region.Tracks.push (h : r.Tracks memory i f) (hi : i < gcNumRegions) (hk : k < r.count)
    (hfree : ¬ f.Mem r k) :
    Region.Tracks (memory.writeWord (chunk i k) (hide r.freelist)) i
      { r with freelist := chunk i k } { f with list := k :: f.list } := by
  have hnotMem : k ∉ f.list := fun hmem => hfree (Or.inl hmem)
  have hword : r.freelist < 2 ^ 64 := by
    rcases h.freelist.head_mem with hnull | hmem
    · rw [hnull]
      omega
    · rcases List.mem_map.mp hmem with ⟨m, hm, heq⟩
      rw [← heq]
      exact h.laid.chunk_lt_word hi (Nat.le_of_lt (h.list m hm).1)
  have hspells : Spells (next (memory.writeWord (chunk i k) (hide r.freelist))) (chunk i k)
      (chunk i k :: f.list.map (chunk i)) := by
    refine h.freelist.push (Nat.ne_of_gt (chunk_pos i k)) (next_writeWord hword) ?_
    intro p hp
    rcases List.mem_map.mp hp with ⟨m, hm, rfl⟩
    apply next_congr
    intro a ha
    apply Bytes.writeWord_outside
    -- The chunks are not the same, so the one ends before the other.
    have hne : k ≠ m := fun heq => hnotMem (heq ▸ hm)
    have hword' := chunk_add_word i k
    have hle := ha.1
    have hlt := ha.2
    simp only at hle hlt
    rcases Nat.lt_or_gt_of_ne hne with hkm | hkm
    · have hend : chunk i (k + 1) ≤ chunk i m := chunk_le i hkm
      omega
    · have hend : chunk i (m + 1) ≤ chunk i k := chunk_le i hkm
      omega
  have htracks := h.relist (g := { f with list := k :: f.list }) (Nat.le_refl _) rfl h.low_le
    hspells (List.nodup_cons.mpr ⟨hnotMem, h.nodup⟩) ?_
  · have hmark : r.markstartptr = chunk i f.low := h.markstartptr
    rw [← hmark] at htracks
    exact htracks
  · intro m hm
    rcases List.mem_cons.mp hm with rfl | hm
    · exact ⟨hk, fun hunswept => hfree (Or.inr hunswept)⟩
    · exact h.list m hm

/-- An object that is given back is free, and the others in use keep their bytes. -/
theorem Heap.freeNonnull_spec (h : gc.Inv inUse) (ho : ⟨i, k⟩ ∈ inUse) :
    (gc.freeNonnull (chunk i k)).Inv (inUse \ {⟨i, k⟩}) ∧
      ∀ p ∈ inUse, p ≠ ⟨i, k⟩ → ∀ a, p.Covers a →
        (gc.freeNonnull (chunk i k)).memory a = gc.memory a := by
  have hhas := h.has ho
  have hi : i < gcNumRegions := hhas.1
  rcases h.tracks i hi with ⟨f, htracks, hshares⟩
  have hfree : ¬ f.Mem (gc.regions i) k := fun hmem => hshares.free k hmem ho
  have hidx := h.index_chunk ho
  have hregions : (gc.freeNonnull (chunk i k)).regions
      = Function.update gc.regions i { gc.regions i with freelist := chunk i k } := by
    unfold Heap.freeNonnull Heap.setRegion
    simp only [hidx]
  have hmemory : (gc.freeNonnull (chunk i k)).memory
      = gc.memory.writeWord (chunk i k) (hide (gc.regions i).freelist) := by
    unfold Heap.freeNonnull Heap.setRegion
    simp only [hidx]
  have hframe : ∀ p, gc.regions.Has p → p ≠ ⟨i, k⟩ → ∀ a, p.Covers a →
      (gc.freeNonnull (chunk i k)).memory a = gc.memory a := by
    intro p hp hne a ha
    have hapart := Regions.Has.apart (fun j hj => h.laid hj) hp hhas hne ha
    have hword := chunk_add_word i k
    unfold Object.Covers at hapart
    simp only at hapart
    rw [hmemory]
    apply Bytes.writeWord_outside
    omega
  refine ⟨?_, fun p hp => hframe p (h.has hp)⟩
  have hregion : (gc.freeNonnull (chunk i k)).regions i
      = { gc.regions i with freelist := chunk i k } := by
    rw [hregions, Function.update_self]
  refine h.update hi (fun j hj => ?_) (fun j m hj hm => ?_) (fun o hother => ?_)
    (f := { f with list := k :: f.list }) ?_ ?_
  · rw [hregions, Function.update_of_ne hj]
  · exact hframe ⟨j, m⟩ hm fun heq => hj (congrArg Object.region heq)
  · have hne : o ≠ ⟨i, k⟩ := fun heq => hother (congrArg Object.region heq)
    simp [hne]
  · rw [hregion, hmemory]
    exact htracks.push hi hhas.2 hfree
  · rw [hregion]
    refine hshares.release (fun m => ?_) rfl rfl ?_
    · have hunswept : Free.Unswept { f with list := k :: f.list }
          { gc.regions i with freelist := chunk i k } m ↔ f.Unswept (gc.regions i) m :=
        Free.unswept_congr rfl rfl rfl
      unfold Free.Mem
      rw [hunswept, List.mem_cons, or_assoc, or_comm]
    · exact Region.count_relist _ _ (gc.regions i).markstartptr

/-! ### `GC_collect` -/

/-- The objects that a collection keeps. -/
def Heap.Live (gc : Heap) (stack : MachineStack) : Set Object :=
  {o | Reachable gc.memory gc.regions (gc.allRoots stack) o}

/-- A region after a collection: the chunks without a mark are free, and those with a mark
can be reached. -/
structure Region.Collected (i : Nat) (r r' : Region) (live : Set Object) : Prop where
  size : r'.size = r.size
  count : r'.count ≤ r.count
  freeptr : r'.freeptr ≤ r.freeptr
  tracks : ∀ memory, r'.Tracks memory i ⟨[], 0, r'.count⟩
  below : ∀ k < r.count, ⟨i, k⟩ ∈ live → k < r'.count
  marked : ∀ k < r'.count, r'.isMarked k ↔ ⟨i, k⟩ ∈ live

/-- The sweep of a region with chunks. -/
theorem Region.Swept.collected {r' : Region} {live : Set Object} (h : r.Laid i)
    (haccess : r.freeptr ≤ r.protectptr) (hcount : 0 < r.count)
    (hswept : r.Swept i r') (hlive : ∀ k, r.isMarked k ↔ ⟨i, k⟩ ∈ live)
    (hobjects : ∀ k, ⟨i, k⟩ ∈ live → k ≤ r.count ∧ (k < r.count ∨ 512 < i)) :
    r.Collected i r' live := by
  rcases hswept with ⟨hzero, -⟩ | ⟨units, n, -, hunits, hn, heq, hclear⟩
  · omega
  · have hsize : r'.size = r.size := by rw [heq]; rfl
    have hfreeptr : r'.freeptr = chunk i n := by rw [heq]; rfl
    have hprotect : r'.protectptr = r.protectptr := by rw [heq]; rfl
    have hmarkptr : r'.markptr = r.markptr := by rw [heq]; rfl
    have hfreelist : r'.freelist = 0 := by rw [heq]; rfl
    have hmarkstart : r'.markstartptr = chunk i 0 := by rw [heq]; rfl
    have hmarkend : r'.markendptr = chunk i n := by rw [heq]; rfl
    have hfixed : r'.Fixed i := by
      rw [heq]
      exact ⟨h.size, h.invSize, h.startptr, h.endptr, h.startidx⟩
    have hcount' : r'.count = n := hfixed.count_eq hfreeptr
    have hend := chunk_le i hn
    have hfull : n * regionSize i ≤ r.count * regionSize i := Nat.mul_le_mul_right _ hn
    have hnotFull := h.notFull
    have hmark : ∀ k, r'.isMarked k ↔ ⟨i, k⟩ ∈ live := fun k =>
      (Region.isMarked_congr hmarkptr).trans (hlive k)
    have hbelow : ∀ k < r.count, ⟨i, k⟩ ∈ live → k < r'.count := by
      intro k hk hkl
      rw [hcount']
      by_contra hge
      rcases (hlive k).mpr hkl with ⟨units', hunits', hset⟩
      rw [hunits, Option.some.injEq] at hunits'
      rw [← hunits', hclear k (by omega) hk] at hset
      exact absurd hset (by simp)
    refine ⟨hsize, hcount' ▸ hn, by rw [hfreeptr, h.freeptr]; exact hend, fun memory => ?_,
      hbelow, fun k _ => hmark k⟩
    exact {
      laid := .of_freeptr hfixed hfreeptr (h.chunk_le hn) (by omega)
      bounded := by
        intro k hk
        have hkl := (hmark k).mp hk
        rcases hobjects k hkl with ⟨hle, hlt⟩
        by_cases hkc : k < r.count
        · exact Or.inl (hbelow k hkc hkl)
        · have hhuge : 512 < i := by omega
          have := h.count_lt_of_huge hhuge
          exact Or.inr ⟨hhuge, by omega⟩
      access := by
        rw [hfreeptr, hprotect]
        exact Nat.le_trans hend (h.freeptr ▸ haccess)
      freelist := hfreelist
      markstartptr := hmarkstart
      markendptr := hcount' ▸ hmarkend
      low_le := Nat.zero_le _
      high_le := Nat.le_refl _
      marks := fun _ => by rw [hmarkptr, hunits]; rfl
      nodup := List.nodup_nil
      list := fun k hk => absurd hk List.not_mem_nil }

/-- A region without chunks is as it was. -/
theorem Region.Collected.of_empty {live : Set Object} (h : r.Tracks memory i f)
    (hcount : r.count = 0) : r.Collected i r live where
  size := rfl
  count := Nat.le_refl _
  freeptr := Nat.le_refl _
  tracks := by
    have hhigh := h.high_le
    have hlow := h.low_le
    have hlist : f.list = [] := by
      apply List.eq_nil_iff_forall_not_mem.mpr
      intro k hk
      have := (h.list k hk).1
      omega
    have hf : f = ⟨[], 0, r.count⟩ := by
      cases f
      simp only [Free.mk.injEq]
      simp only at hhigh hlow hlist
      exact ⟨hlist, by omega, by omega⟩
    intro memory'
    rw [← hf]
    exact h.congr fun k hk => absurd (hlist ▸ hk) List.not_mem_nil
  below := fun k hk => by omega
  marked := fun k hk => by omega

/-- What is in use and can be reached is not free. -/
theorem Region.Collected.shares {r' : Region} {live : Set Object} (h : r.Collected i r' live)
    (hused : ∀ k, ⟨i, k⟩ ∈ inUse → k < r.count) :
    r'.Shares i ⟨[], 0, r'.count⟩ (inUse ∩ live) where
  free := by
    rintro k (hk | ⟨-, hk, hclear⟩) ⟨-, hlive⟩
    · exact absurd hk List.not_mem_nil
    · exact hclear ((h.marked k hk).mpr hlive)
  used := fun k hk => h.below k (hused k hk.1) hk.2
  kept := by
    intro k hk
    by_cases hmark : r'.isMarked k
    · exact Or.inr (Or.inr ⟨hk, hmark⟩)
    · exact Or.inr (Or.inl (Or.inr ⟨Nat.zero_le k, hk, hmark⟩))

/-- What a collection does: the objects in use that can be reached are in use, and keep
their bytes. -/
structure Heap.Collects (gc : Heap) (stack : MachineStack) (inUse : Set Object) (gc' : Heap) :
    Prop where
  inv : gc'.Inv (inUse ∩ gc.Live stack)
  frame : ∀ o ∈ inUse ∩ gc.Live stack, ∀ a, o.Covers a → gc'.memory a = gc.memory a
  regions : ∀ i < gcNumRegions, (gc.regions i).Collected i (gc'.regions i) (gc.Live stack)
  enabled : gc'.enabled = gc.enabled
  roots : gc'.roots = gc.roots

/-- A collection after which each region is as `Region.Collected` says. -/
theorem Heap.Collects.of_regions {stack : MachineStack} {gc' : Heap} (h : gc.Inv inUse)
    (hregions : ∀ i < gcNumRegions, (gc.regions i).Collected i (gc'.regions i) (gc.Live stack))
    (hframe : ∀ o ∈ inUse ∩ gc.Live stack, ∀ a, o.Covers a → gc'.memory a = gc.memory a)
    (henabled : gc'.enabled = gc.enabled) (hroots : gc'.roots = gc.roots) :
    gc.Collects stack inUse gc' where
  inv := {
    inRange := fun o ho => h.inRange o ho.1
    tracks := by
      intro i hi
      refine ⟨_, (hregions i hi).tracks gc'.memory, (hregions i hi).shares fun k hk => ?_⟩
      exact (h.has hk).2 }
  frame := hframe
  regions := hregions
  enabled := henabled
  roots := hroots

/-- What `gc_mark_init` and `gc_mark` leave: the objects that can be reached have a mark. -/
theorem Heap.Inv.mark (h : gc.Inv inUse) (stack : MachineStack) :
    ∃ fuel₀, ∀ fuel ≥ fuel₀, ∃ s,
      Gc.mark gc.memory fuel (markInit gc.regions) (gc.allRoots stack) = .ok s ∧
      SameButMarks gc.regions s.regions ∧ s.regions.Ready ∧
      (∀ i < gcNumRegions, (gc.regions i).count = 0 → s.regions i = gc.regions i) ∧
      (∀ i < gcNumRegions, 0 < (gc.regions i).count →
        ∀ k, (s.regions i).isMarked k ↔ ⟨i, k⟩ ∈ gc.Live stack) ∧
      ∀ o ∈ gc.Live stack, o.index ≤ (gc.regions o.region).count ∧
        (o.index < (gc.regions o.region).count ∨ 512 < o.region) := by
  have hsame := markInit_same gc.regions
  have hbounded : ∀ i < gcNumRegions, (gc.regions i).Bounded i := by
    intro i hi
    rcases h.tracks i hi with ⟨f, htracks, -⟩
    exact htracks.bounded
  have hinit := markInit_spec (fun i hi => h.laid hi) hbounded
  have hlive : ∀ o, Reachable gc.memory (markInit gc.regions) (gc.allRoots stack) o
      ↔ o ∈ gc.Live stack := by
    intro o
    unfold Reachable
    rw [hsame.target]
    rfl
  rcases mark_spec gc.memory hinit.1 hinit.2 (gc.allRoots stack) with
    ⟨fuel₀, hmark⟩
  refine ⟨fuel₀, fun fuel hfuel => ?_⟩
  rcases hmark fuel hfuel with ⟨s, hs, hsame', hmarks, hempty, hreach⟩
  have hboth := hsame.trans hsame'
  refine ⟨s, hs, hboth, ⟨fun i hi => hboth.laid (h.laid hi), fun i hi hcount => ?_⟩,
    fun i hi hcount => ?_, fun i hi hcount k => ?_, fun o ho => ?_⟩
  · rw [hsame'.count] at hcount
    exact hmarks i (hinit.1.marks i hi hcount)
  · rw [hempty i (hsame.count.trans hcount), markInit_of_count_zero (h.laid hi) hcount]
  · rw [← hlive, ← hreach]
    have hcount' : 0 < (s.regions i).count := hboth.count ▸ hcount
    exact ⟨fun hmark => ⟨hi, hcount', hmark⟩, fun hmark => hmark.2.2⟩
  · have hobject := Reachable.mem_objects hinit.1 ((hlive o).mpr ho)
    rw [← hsame.count]
    exact hobject.2.2

/-- A collection ends when `gc_mark` has enough fuel. -/
theorem Heap.collect_spec (h : gc.Inv inUse) (henabled : gc.enabled = true)
    (stack : MachineStack) :
    ∃ fuel₀, ∀ fuel ≥ fuel₀, ∃ gc', gc.collect fuel stack = .ok gc' ∧
      gc.Collects stack inUse gc' := by
  rcases h.mark stack with ⟨fuel₀, hmark⟩
  refine ⟨fuel₀, fun fuel hfuel => ?_⟩
  rcases hmark fuel hfuel with ⟨s, hs, hsame, hready, hempty, hlive, hobjects⟩
  rcases Heap.sweep_spec { gc with regions := s.regions, usedSize := s.usedSize } hready with
    ⟨gc', hgc', hswept, hframe, hroots, henabled'⟩
  refine ⟨gc', ?_, .of_regions h (fun i hi => ?_) (fun o ho a ha => ?_) henabled' hroots⟩
  · unfold Heap.collect
    rw [if_pos henabled, hs]
    simp only [bind, Except.bind]
    exact hgc'
  · rcases h.tracks i hi with ⟨f, htracks, -⟩
    rcases Nat.eq_zero_or_pos (gc.regions i).count with hcount | hcount
    · -- A region without chunks was passed over.
      rcases hswept i hi with ⟨-, heq⟩ | ⟨units, n, hpos, -⟩
      · have hregion : gc'.regions i = gc.regions i := heq.trans (hempty i hi hcount)
        rw [hregion]
        exact .of_empty htracks hcount
      · rw [hsame.count] at hpos
        omega
    · have haccess : (s.regions i).freeptr ≤ (s.regions i).protectptr := by
        rw [hsame i]
        exact htracks.access
      have hcollected := (hswept i hi).collected (hready.laid i hi)
        haccess (hsame.count ▸ hcount) (hlive i hi hcount) fun k hk => by
          rw [hsame.count]
          exact hobjects ⟨i, k⟩ hk
      exact ⟨hcollected.size.trans hsame.size, hsame.count ▸ hcollected.count,
        hsame.freeptr ▸ hcollected.freeptr, hcollected.tracks,
        fun k hk => hcollected.below k (hsame.count.symm ▸ hk), hcollected.marked⟩
  · -- The object has a mark, so its bytes are outside of all chunks that have none.
    apply hframe
    intro j hj k hk hclear
    have hhas := h.has ho.1
    have hk' : k < (gc.regions j).count := hsame.count ▸ hk
    have hne : o ≠ ⟨j, k⟩ := by
      rintro rfl
      exact hclear ((hlive j hj (Nat.lt_of_le_of_lt (Nat.zero_le k) hk') k).mpr ho.2)
    have hapart := Regions.Has.apart (fun j hj => h.laid hj) hhas ⟨hj, hk'⟩ hne ha
    unfold Object.Covers at hapart
    simp only at hapart
    omega

end Aike.Gc
