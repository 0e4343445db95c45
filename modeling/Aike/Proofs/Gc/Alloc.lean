import Aike.Lib.FreeList
import Aike.Proofs.Gc.Sweep

/-!
# `Aike.Proofs.Gc.Alloc`: the chunks that the allocator gives out

A chunk is free if it is on the free list of its region, or if it had no mark in the last
collection and `GC_malloc_index` has not looked at it since. `Region.Tracks` says that the
fields of a region spell out which chunks are free, and `Heap.Inv` that these are not in
use. A chunk that is neither free nor in use has a mark, or did not exist in the last
collection.

`GC_malloc_index` takes the first chunk of the free list; if there is none, it puts chunks
that were not marked on the list, and only if there are none of these does it take fresh
space. In each case the chunk was not in use (`Heap.allocate_spec`).
-/

set_option autoImplicit false

namespace Aike.Gc

variable {memory memory' : Bytes} {i k : Nat} {r : Region}

/-! ### Free chunks -/

/-- The pointer in a node of a free list. -/
def next (memory : Bytes) (p : Nat) : Nat := unhide (memory.readWord p)

/-- The chunks on the free list of a region, and where those start and end that were not
looked at since the last collection. -/
structure Free where
  list : List Nat
  low : Nat
  high : Nat

/-- The chunk had no mark, and was not looked at since. -/
def Free.Unswept (f : Free) (r : Region) (k : Nat) : Prop :=
  f.low ≤ k ∧ k < f.high ∧ ¬ r.isMarked k

/-- The chunk can be given out. -/
def Free.Mem (f : Free) (r : Region) (k : Nat) : Prop := k ∈ f.list ∨ f.Unswept r k

/-- The fields of a region spell out which chunks of it are free. -/
structure Region.Tracks (memory : Bytes) (i : Nat) (r : Region) (f : Free) : Prop where
  laid : r.Laid i
  bounded : r.Bounded i
  access : r.freeptr ≤ r.protectptr
  freelist : Spells (next memory) r.freelist (f.list.map (chunk i))
  markstartptr : r.markstartptr = chunk i f.low
  markendptr : r.markendptr = chunk i f.high
  low_le : f.low ≤ f.high
  high_le : f.high ≤ r.count
  marks : f.low < f.high → r.markptr.isSome
  nodup : f.list.Nodup
  list : ∀ k ∈ f.list, k < r.count ∧ ¬ f.Unswept r k

/-- The address is in the object. -/
def Object.Covers (o : Object) (a : Nat) : Prop :=
  chunk o.region o.index ≤ a ∧ a < chunk o.region (o.index + 1)

/-- Each chunk of a region is in use, free, or neither as it has a mark. -/
structure Region.Shares (i : Nat) (r : Region) (f : Free) (inUse : Set Object) : Prop where
  free : ∀ k, f.Mem r k → ⟨i, k⟩ ∉ inUse
  used : ∀ k, ⟨i, k⟩ ∈ inUse → k < r.count
  kept : ∀ k < r.count, ⟨i, k⟩ ∈ inUse ∨ f.Mem r k ∨ k < f.high ∧ r.isMarked k

/-- What holds of the collector between two operations, where `inUse` are the objects that
the program has. -/
structure Heap.Inv (gc : Heap) (inUse : Set Object) : Prop where
  inRange : ∀ o ∈ inUse, o.region < gcNumRegions
  tracks : ∀ i < gcNumRegions, ∃ f, (gc.regions i).Tracks gc.memory i f ∧
    (gc.regions i).Shares i f inUse

/-- The objects in use are chunks of the regions. -/
theorem Heap.Inv.has {gc : Heap} {inUse : Set Object} (h : gc.Inv inUse) {o : Object}
    (ho : o ∈ inUse) : gc.regions.Has o := by
  have hi := h.inRange o ho
  rcases h.tracks o.region hi with ⟨f, -, hshares⟩
  exact ⟨hi, hshares.used o.index ho⟩

/-- Whether a chunk is marked depends on the mark bits alone. -/
theorem Region.isMarked_congr {r' : Region} (h : r'.markptr = r.markptr) :
    r'.isMarked k ↔ r.isMarked k := by
  unfold Region.isMarked
  rw [h]

/-- Which chunks were not looked at is a matter of the marks. -/
theorem Free.unswept_congr {f f' : Free} {r' : Region} (hlow : f'.low = f.low)
    (hhigh : f'.high = f.high) (hmark : r'.markptr = r.markptr) :
    f'.Unswept r' k ↔ f.Unswept r k := by
  unfold Free.Unswept
  rw [hlow, hhigh, Region.isMarked_congr hmark]

/-- What is free if the first chunk is taken off the list. -/
theorem Free.mem_tail {f : Free} {r' : Region} {ks : List Nat} (hlist : f.list = k :: ks)
    (hnotMem : k ∉ ks) (hk : ¬ f.Unswept r k) (hmark : r'.markptr = r.markptr) (m : Nat) :
    Free.Mem { f with list := ks } r' m ↔ f.Mem r m ∧ m ≠ k := by
  have hunswept : Free.Unswept { f with list := ks } r' m ↔ f.Unswept r m :=
    Free.unswept_congr rfl rfl hmark
  unfold Free.Mem
  rw [hunswept, hlist, List.mem_cons]
  constructor
  · rintro (hm | hm)
    · exact ⟨Or.inl (Or.inr hm), fun heq => hnotMem (heq ▸ hm)⟩
    · exact ⟨Or.inr hm, fun heq => hk (heq ▸ hm)⟩
  · rintro ⟨(hm | hm) | hm, hne⟩
    · exact absurd hm hne
    · exact Or.inl hm
    · exact Or.inr hm

/-- A free chunk is one of the region's. -/
theorem Free.Mem.lt {f : Free} (h : r.Tracks memory i f) (hk : f.Mem r k) : k < r.count := by
  rcases hk with hk | hk
  · exact (h.list k hk).1
  · exact Nat.lt_of_lt_of_le hk.2.1 h.high_le

/-- No chunk starts at address 0, so a null pointer is none. -/
theorem chunk_pos (i k : Nat) : 0 < chunk i k :=
  Nat.lt_of_lt_of_le (by unfold indexRegion gcMemory; omega) (le_chunk i k)

/-- The bytes of an object, by their places in it. -/
theorem covers_add {n : Nat} (h : n < regionSize i) : Object.Covers ⟨i, k⟩ (chunk i k + n) := by
  refine ⟨Nat.le_add_right _ _, ?_⟩
  simp only
  rw [chunk_succ]
  exact Nat.add_lt_add_left h _

/-- A chunk is at its own address. -/
theorem covers_chunk (i k : Nat) : Object.Covers ⟨i, k⟩ (chunk i k) :=
  ⟨Nat.le_refl _, chunk_lt_iff.mpr (Nat.lt_succ_self k)⟩

/-- The first word of a chunk is in it. -/
theorem chunk_add_word (i k : Nat) : chunk i k + 8 ≤ chunk i (k + 1) := by
  have hsize := regionSize_ge i
  rw [chunk_succ]
  omega

/-- The pointer in a chunk depends on the bytes of the chunk. -/
theorem next_congr (h : ∀ a, Object.Covers ⟨i, k⟩ a → memory' a = memory a) :
    next memory' (chunk i k) = next memory (chunk i k) := by
  unfold next
  rw [Bytes.readWord_congr fun a ha ha' => h a ⟨ha, Nat.lt_of_lt_of_le ha' (chunk_add_word i k)⟩]

/-- What the pointer is that was written. -/
theorem next_writeWord {p q : Nat} (hq : q < 2 ^ 64) :
    next (memory.writeWord p (hide q)) p = q := by
  unfold next
  rw [Bytes.readWord_writeWord]
  unfold unhide hide
  omega

/-- Objects that are not the same have no address in common. -/
theorem Regions.Has.apart {regions : Regions} (h : ∀ i < gcNumRegions, (regions i).Laid i)
    {o p : Object} (ho : regions.Has o) (hp : regions.Has p) (hne : o ≠ p) {a : Nat}
    (ha : o.Covers a) : ¬ p.Covers a := by
  have hdiff : o.region ≠ p.region ∨ o.index ≠ p.index := by
    by_contra hsame
    rw [not_or, not_not, not_not] at hsame
    apply hne
    cases o
    cases p
    simp only [Object.mk.injEq]
    exact hsame
  have hchunks := chunk_apart (h _ ho.1) (h _ hp.1) ho.2 hp.2 hdiff
  rintro ⟨hle, hlt⟩
  have := ha.1
  have := ha.2
  omega

/-- The regions are laid out as the collector started with them. -/
theorem Heap.Inv.laid {gc : Heap} {inUse : Set Object} (h : gc.Inv inUse) (hi : i < gcNumRegions) :
    (gc.regions i).Laid i := by
  rcases h.tracks i hi with ⟨f, htracks, -⟩
  exact htracks.laid

/-- Which chunks are free depends on the bytes of the chunks on the free list. -/
theorem Region.Tracks.congr {f : Free} (h : r.Tracks memory i f)
    (hsame : ∀ k ∈ f.list, ∀ a, Object.Covers ⟨i, k⟩ a → memory' a = memory a) :
    r.Tracks memory' i f :=
  { h with
    freelist := by
      apply h.freelist.congr
      intro p hp
      rcases List.mem_map.mp hp with ⟨k, hk, rfl⟩
      exact next_congr (hsame k hk) }

/-- What the program writes in its own objects, and outside of all chunks, changes nothing. -/
theorem Heap.Inv.write {gc : Heap} {inUse : Set Object} (h : gc.Inv inUse)
    (hsame : ∀ o, gc.regions.Has o → o ∉ inUse → ∀ a, o.Covers a → memory' a = gc.memory a) :
    Heap.Inv { gc with memory := memory' } inUse where
  inRange := h.inRange
  tracks := by
    intro i hi
    rcases h.tracks i hi with ⟨f, htracks, hshares⟩
    refine ⟨f, htracks.congr fun k hk a ha => ?_, hshares⟩
    exact hsame ⟨i, k⟩ ⟨hi, (htracks.list k hk).1⟩ (hshares.free k (Or.inl hk)) a ha

/-- The fields of a region spell out one set of free chunks. -/
theorem Region.Tracks.unique {f f' : Free} (h : r.Tracks memory i f) (h' : r.Tracks memory i f') :
    f = f' := by
  have hlist := (chunk_injective i).list_map (h.freelist.unique h'.freelist)
  have hlow := chunk_injective i (h.markstartptr.symm.trans h'.markstartptr)
  have hhigh := chunk_injective i (h.markendptr.symm.trans h'.markendptr)
  cases f
  cases f'
  simp only [Free.mk.injEq]
  exact ⟨hlist, hlow, hhigh⟩

/-! ### Changes of the lists -/

/-- Neither the free list nor the start of the chunks that were not looked at matters to how
a region is laid out. -/
theorem Region.Laid.relist (h : r.Laid i) (freelist markstartptr : Nat) :
    Region.Laid i { r with freelist := freelist, markstartptr := markstartptr } :=
  .of_freeptr ⟨h.size, h.invSize, h.startptr, h.endptr, h.startidx⟩ h.freeptr
    (h.chunk_le (Nat.le_refl _)) h.notFull

/-- Another free list, and another start of the chunks that were not looked at. -/
theorem Region.Tracks.relist {f g : Free} (h : r.Tracks memory i f) {freelist : Nat}
    (hlow : f.low ≤ g.low) (hhigh : g.high = f.high) (hle : g.low ≤ f.high)
    (hspells : Spells (next memory') freelist (g.list.map (chunk i)))
    (hnodup : g.list.Nodup) (hlist : ∀ k ∈ g.list, k < r.count ∧ ¬ g.Unswept r k) :
    Region.Tracks memory' i { r with freelist := freelist, markstartptr := chunk i g.low } g where
  laid := h.laid.relist _ _
  bounded := h.bounded
  access := h.access
  freelist := hspells
  markstartptr := rfl
  markendptr := hhigh ▸ h.markendptr
  low_le := hhigh ▸ hle
  high_le := hhigh ▸ h.high_le
  marks := fun hlt => h.marks (by omega)
  nodup := hnodup
  list := hlist

/-- The count does not depend on the lists. -/
theorem Region.count_relist (r : Region) (freelist markstartptr : Nat) :
    Region.count { r with freelist := freelist, markstartptr := markstartptr } = r.count := by
  unfold Region.count
  rfl

/-- A chunk that was free, or that is new, is now in use. -/
theorem Region.Shares.take {r' : Region} {f f' : Free} {inUse : Set Object}
    (h : r.Shares i f inUse) (hmem : ∀ m, f'.Mem r' m ↔ f.Mem r m ∧ m ≠ k)
    (hhigh : f'.high = f.high) (hmark : r'.markptr = r.markptr)
    (hcount : ∀ m, m < r'.count ↔ m < r.count ∨ m = k) :
    r'.Shares i f' (Insert.insert ⟨i, k⟩ inUse) where
  free := by
    rintro m hm (heq | hused)
    · exact ((hmem m).mp hm).2 (congrArg Object.index heq)
    · exact h.free m ((hmem m).mp hm).1 hused
  used := by
    rintro m (heq | hused)
    · exact (hcount m).mpr (Or.inr (congrArg Object.index heq))
    · exact (hcount m).mpr (Or.inl (h.used m hused))
  kept := by
    intro m hm
    by_cases hmk : m = k
    · subst hmk
      exact Or.inl (Or.inl rfl)
    · rcases h.kept m (((hcount m).mp hm).resolve_right hmk) with hused | hfree | hmarked
      · exact Or.inl (Or.inr hused)
      · exact Or.inr (Or.inl ((hmem m).mpr ⟨hfree, hmk⟩))
      · rw [hhigh, Region.isMarked_congr hmark]
        exact Or.inr (Or.inr hmarked)

/-- A chunk that was in use is now free. -/
theorem Region.Shares.release {r' : Region} {f f' : Free} {inUse : Set Object}
    (h : r.Shares i f inUse) (hmem : ∀ m, f'.Mem r' m ↔ f.Mem r m ∨ m = k)
    (hhigh : f'.high = f.high) (hmark : r'.markptr = r.markptr)
    (hcount : r'.count = r.count) : r'.Shares i f' (inUse \ {⟨i, k⟩}) where
  free := by
    rintro m hm ⟨hused, hne⟩
    rcases (hmem m).mp hm with hm | rfl
    · exact h.free m hm hused
    · exact hne rfl
  used := by
    rintro m ⟨hused, -⟩
    rw [hcount]
    exact h.used m hused
  kept := by
    intro m hm
    by_cases hmk : m = k
    · exact Or.inr (Or.inl ((hmem m).mpr (Or.inr hmk)))
    · rw [hcount] at hm
      rcases h.kept m hm with hused | hfree | hmarked
      · exact Or.inl ⟨hused, fun heq => hmk (congrArg Object.index heq)⟩
      · exact Or.inr (Or.inl ((hmem m).mpr (Or.inl hfree)))
      · rw [hhigh, Region.isMarked_congr hmark]
        exact Or.inr (Or.inr hmarked)

/-- One region has changed, and memory outside of the chunks of the others. -/
theorem Heap.Inv.update {gc gc' : Heap} {inUse inUse' : Set Object} (h : gc.Inv inUse)
    (hi : i < gcNumRegions) (hregions : ∀ j, j ≠ i → gc'.regions j = gc.regions j)
    (hframe : ∀ j k, j ≠ i → gc.regions.Has ⟨j, k⟩ → ∀ a, Object.Covers ⟨j, k⟩ a →
      gc'.memory a = gc.memory a)
    (hothers : ∀ o, o.region ≠ i → (o ∈ inUse' ↔ o ∈ inUse)) {f : Free}
    (htracks : (gc'.regions i).Tracks gc'.memory i f)
    (hshares : (gc'.regions i).Shares i f inUse') : gc'.Inv inUse' where
  inRange := by
    intro o ho
    by_cases hj : o.region = i
    · rw [hj]
      exact hi
    · exact h.inRange o ((hothers o hj).mp ho)
  tracks := by
    intro j hj
    by_cases hji : j = i
    · subst hji
      exact ⟨f, htracks, hshares⟩
    · rcases h.tracks j hj with ⟨f, htracks, hshares⟩
      rw [hregions j hji]
      refine ⟨f, htracks.congr fun k hk a ha => ?_, ?_, ?_, ?_⟩
      · exact hframe j k hji ⟨hj, (htracks.list k hk).1⟩ a ha
      · intro k hk
        rw [hothers ⟨j, k⟩ hji]
        exact hshares.free k hk
      · intro k hk
        exact hshares.used k ((hothers ⟨j, k⟩ hji).mp hk)
      · intro k hk
        rw [hothers ⟨j, k⟩ hji]
        exact hshares.kept k hk

/-! ### An allocation -/

/-- The object is given to the program: it was not in use, the objects in use keep their
bytes, and the region has grown only if all of its chunks were in use or had a mark. -/
structure Heap.Gives (gc gc' : Heap) (inUse : Set Object) (o : Object) : Prop where
  inv : gc'.Inv (Insert.insert o inUse)
  notUsed : o ∉ inUse
  frame : ∀ p ∈ inUse, ∀ a, p.Covers a → gc'.memory a = gc.memory a
  reuse : (gc'.regions o.region).count ≠ (gc.regions o.region).count →
    ∀ k < (gc.regions o.region).count,
      ⟨o.region, k⟩ ∈ inUse ∨ (gc.regions o.region).isMarked k
  enabled : gc'.enabled = gc.enabled
  roots : gc'.roots = gc.roots

variable {gc : Heap} {inUse : Set Object}

/-- The region that was set is the new one. -/
theorem Heap.setRegion_self : (gc.setRegion i r).regions i = r := Function.update_self i _ _

/-- The other regions are as they were. -/
theorem Heap.setRegion_of_ne {j : Nat} (h : j ≠ i) :
    (gc.setRegion i r).regions j = gc.regions j := Function.update_of_ne h _ _

/-- To put an object in use changes nothing for the objects of other regions. -/
theorem mem_insert_of_region {o p : Object} (h : p.region ≠ o.region) :
    p ∈ Insert.insert o inUse ↔ p ∈ inUse := by
  have hne : p ≠ o := fun heq => h (by rw [heq])
  simp [hne]

/-- The first chunk of the free list is taken off it. -/
theorem Region.Tracks.pop {f : Free} (h : r.Tracks memory i f) (hne : r.freelist ≠ 0) :
    ∃ k ks, r.freelist = chunk i k ∧ f.list = k :: ks ∧
      Region.Tracks memory i { r with freelist := next memory r.freelist } { f with list := ks } ∧
      ∀ m, Free.Mem { f with list := ks } { r with freelist := next memory r.freelist } m
        ↔ f.Mem r m ∧ m ≠ k := by
  rcases h.freelist.pop hne with ⟨zs, hzs, hrest⟩
  rcases List.map_eq_cons_iff.mp hzs with ⟨k, ks, hlist, hk, rfl⟩
  have hnodup := h.nodup
  rw [hlist, List.nodup_cons] at hnodup
  have htracks := h.relist (g := { f with list := ks }) (Nat.le_refl _) rfl h.low_le hrest
    hnodup.2 fun m hm => h.list m (hlist ▸ List.mem_cons_of_mem k hm)
  have hmark : r.markstartptr = chunk i f.low := h.markstartptr
  rw [← hmark] at htracks
  exact ⟨k, ks, hk.symm, hlist, htracks,
    Free.mem_tail hlist hnodup.1 (h.list k (hlist ▸ List.mem_cons_self)).2 rfl⟩

/-- The first chunk of the free list is given out. -/
theorem Heap.pop_spec (h : gc.Inv inUse) (hi : i < gcNumRegions)
    (hne : (gc.regions i).freelist ≠ 0) :
    ∃ k, (gc.pop i).1 = chunk i k ∧ gc.Gives (gc.pop i).2 inUse ⟨i, k⟩ := by
  rcases h.tracks i hi with ⟨f, htracks, hshares⟩
  rcases htracks.pop hne with ⟨k, ks, hk, hlist, htracks', hmem⟩
  have hfree : f.Mem (gc.regions i) k := Or.inl (hlist ▸ List.mem_cons_self)
  have hpop : (gc.pop i).2 = gc.setRegion i { gc.regions i with
      freelist := next gc.memory (gc.regions i).freelist } := rfl
  rw [hpop]
  refine ⟨k, hk, ?_, hshares.free k hfree, fun p _ a _ => rfl, ?_, rfl, rfl⟩
  · refine h.update hi (fun j hj => Heap.setRegion_of_ne hj) (fun j k hj hhas a ha => rfl)
      (fun o ho => mem_insert_of_region ho) (f := { f with list := ks }) ?_ ?_
    · rw [Heap.setRegion_self]
      exact htracks'
    · rw [Heap.setRegion_self]
      refine hshares.take hmem rfl rfl fun m => ?_
      rw [Region.count_relist _ _ (gc.regions i).markstartptr]
      refine ⟨Or.inl, ?_⟩
      rintro (hm | rfl)
      · exact hm
      · exact hfree.lt htracks
  · intro hgrown
    rw [Heap.setRegion_self, Region.count_relist _ _ (gc.regions i).markstartptr] at hgrown
    exact absurd rfl hgrown

/-- There is room for one more chunk in the addresses of the region, and it is not filled up
by it. -/
def Heap.Room (gc : Heap) (i : Nat) : Prop :=
  (gc.regions i).freeptr + (gc.regions i).size < indexRegion (i + 1)

/-- The region with one more chunk. -/
def Region.grown (r : Region) (protectptr : Nat) : Region :=
  { r with freeptr := r.freeptr + r.size, protectptr := protectptr }

/-- A region with room grows by a chunk that can be accessed, or `mprotect` has failed. -/
theorem Heap.fresh_cases (h : r.Laid i) (haccess : r.freeptr ≤ r.protectptr)
    (hr : gc.regions i = r) (hroom : gc.Room i) :
    (∃ gc', gc.fresh i = (0, gc')) ∨
    ∃ protectptr, r.freeptr + r.size ≤ protectptr ∧
      gc.fresh i = (r.freeptr, gc.setRegion i (r.grown protectptr)) := by
  have hend : ¬ r.freeptr ≥ r.endptr := by
    have hstart := (regionStart_spec i).2.1
    have hsucc := indexRegion_succ i
    unfold Heap.Room at hroom
    rw [hr] at hroom
    rw [h.endptr]
    omega
  unfold Heap.fresh
  simp only [hr]
  rw [if_neg hend]
  by_cases hbeyond : r.freeptr + r.size ≥ r.protectptr
  · rw [if_pos hbeyond]
    have hlen : r.size ≤ max r.size (gcProtectLen * gcPagesize) := Nat.le_max_left _ _
    generalize max r.size (gcProtectLen * gcPagesize) = len at hlen ⊢
    by_cases hprotect : protectMemory r.protectptr len = true
    · rw [if_pos hprotect]
      right
      exact ⟨r.protectptr + len, by omega, rfl⟩
    · rw [if_neg hprotect]
      exact Or.inl ⟨_, rfl⟩
  · rw [if_neg hbeyond]
    exact Or.inr ⟨r.protectptr, by omega, rfl⟩

/-- A region that has grown is laid. -/
theorem Region.Laid.grown (h : r.Laid i) (hroom : r.freeptr + r.size < indexRegion (i + 1))
    (protectptr : Nat) :
    (r.grown protectptr).count = r.count + 1 ∧ (r.grown protectptr).Laid i := by
  have hchunk : r.freeptr + r.size = chunk i (r.count + 1) := by
    rw [chunk_succ, ← h.freeptr, h.size]
  have hfixed : (r.grown protectptr).Fixed i :=
    ⟨h.size, h.invSize, h.startptr, h.endptr, h.startidx⟩
  have hfull : (r.count + 1) * regionSize i < gcRegionSize := by
    have hstart := (regionStart_spec i).2.1
    have hsucc := indexRegion_succ i
    rw [hchunk] at hroom
    unfold chunk at hroom
    omega
  exact ⟨hfixed.count_eq hchunk, .of_freeptr hfixed hchunk (hchunk ▸ Nat.le_of_lt hroom) hfull⟩

/-- What is free in a region that has grown is what was free. -/
theorem Region.Tracks.grown {f : Free} (h : r.Tracks memory i f) {protectptr : Nat}
    (hroom : r.freeptr + r.size < indexRegion (i + 1))
    (haccess : r.freeptr + r.size ≤ protectptr) :
    Region.Tracks memory i (r.grown protectptr) f := by
  have hgrown := h.laid.grown hroom protectptr
  exact {
    laid := hgrown.2
    bounded := by
      intro k hk
      rw [hgrown.1]
      rcases h.bounded k hk with hk | hk
      · exact Or.inl (by omega)
      · exact Or.inr hk
    access := haccess
    freelist := h.freelist
    markstartptr := h.markstartptr
    markendptr := h.markendptr
    low_le := h.low_le
    high_le := hgrown.1 ▸ Nat.le_succ_of_le h.high_le
    marks := h.marks
    nodup := h.nodup
    list := by
      intro k hk
      rw [hgrown.1]
      exact ⟨Nat.lt_succ_of_lt (h.list k hk).1, (h.list k hk).2⟩ }

/-- If nothing in a region is free, it grows. -/
theorem Heap.fresh_spec (h : gc.Inv inUse) (hi : i < gcNumRegions) (hroom : gc.Room i)
    (hnone : ∀ k < (gc.regions i).count, ⟨i, k⟩ ∈ inUse ∨ (gc.regions i).isMarked k) :
    (∃ gc', gc.fresh i = (0, gc')) ∨
    ∃ k gc', gc.fresh i = (chunk i k, gc') ∧ gc.Gives gc' inUse ⟨i, k⟩ := by
  rcases h.tracks i hi with ⟨f, htracks, hshares⟩
  rcases Heap.fresh_cases htracks.laid htracks.access rfl hroom with
    hfail | ⟨protectptr, haccess, hfresh⟩
  · exact Or.inl hfail
  · right
    have hgrown := htracks.laid.grown hroom protectptr
    have htracks' := htracks.grown hroom haccess
    rw [htracks.laid.freeptr] at hfresh
    refine ⟨(gc.regions i).count, gc.setRegion i ((gc.regions i).grown protectptr), hfresh, ?_,
      ?_, fun p _ a _ => rfl, fun _ => hnone, rfl, rfl⟩
    · refine h.update hi (fun j hj => Heap.setRegion_of_ne hj) (fun j k hj hhas a ha => rfl)
        (fun o ho => mem_insert_of_region ho) (f := f) ?_ ?_
      · rw [Heap.setRegion_self]
        exact htracks'
      · rw [Heap.setRegion_self]
        refine hshares.take (fun m => ?_) rfl rfl fun m => ?_
        · -- The new chunk was not free, as it did not exist.
          show f.Mem (gc.regions i) m ↔ _
          constructor
          · intro hm
            exact ⟨hm, Nat.ne_of_lt (hm.lt htracks)⟩
          · exact fun hm => hm.1
        · rw [hgrown.1]
          omega
    · intro hused
      exact absurd (hshares.used _ hused) (Nat.lt_irrefl _)

/-! ### Chunks without a mark -/

variable {units : MarkUnits} {f : Free}

/-- The address of a chunk is a word. -/
theorem Region.Laid.chunk_lt_word (h : r.Laid i) (hi : i < gcNumRegions) (hk : k ≤ r.count) :
    chunk i k < 2 ^ 64 := by
  have hle := h.chunk_le hk
  have hmemory : gcMemory = 8589934592 := rfl
  have hregion : gcRegionSize = 4294967296 := rfl
  have hnum : gcNumRegions = 768 := rfl
  unfold indexRegion at hle
  rw [hmemory, hregion] at hle
  omega

/-- What holds before an iteration of the loop that looks for chunks without a mark, where
those below `m` were looked at and `ks` were found. -/
structure Finder.Inv (memory : Bytes) (i : Nat) (units : MarkUnits) (low m : Nat)
    (ks : List Nat) (s : Finder) : Prop where
  ptr : s.ptr = chunk i m
  ptridx : s.ptridx = m
  count : s.i = ks.length
  freelist : Spells (next s.memory) s.freelist (ks.map (chunk i))
  nodup : ks.Nodup
  found : ∀ k, k ∈ ks ↔ low ≤ k ∧ k < m ∧ isMarkedIndex units k = false
  frame : ∀ a, (∀ k, low ≤ k → k < m → isMarkedIndex units k = false →
    ¬ Object.Covers ⟨i, k⟩ a) → s.memory a = memory a

/-- A chunk with a mark is left out. -/
theorem Finder.Inv.skip {low m : Nat} {ks : List Nat} {s s' : Finder}
    (hs : s.Inv memory i units low m ks) (hmark : isMarkedIndex units m = true)
    (hs' : s' = { s with ptr := chunk i (m + 1), ptridx := m + 1 }) :
    s'.Inv memory i units low (m + 1) ks := by
  subst hs'
  refine ⟨rfl, rfl, hs.count, hs.freelist, hs.nodup, fun k => ?_, fun a ha => ?_⟩
  · rw [hs.found]
    constructor
    · rintro ⟨hk, hkm, hclear⟩
      exact ⟨hk, by omega, hclear⟩
    · rintro ⟨hk, hkm, hclear⟩
      have hne : k ≠ m := by
        rintro rfl
        rw [hmark] at hclear
        exact absurd hclear (by simp)
      exact ⟨hk, by omega, hclear⟩
  · exact hs.frame a fun k hk hkm hclear => ha k hk (by omega) hclear

/-- A chunk without a mark is put on the list. -/
theorem Finder.Inv.push (h : r.Laid i) (hi : i < gcNumRegions) {low m : Nat} {ks : List Nat}
    {s s' : Finder} (hs : s.Inv memory i units low m ks) (hlow : low ≤ m) (hm : m < r.count)
    (hmark : isMarkedIndex units m = false)
    (hs' : s' = { s with
      memory := s.memory.writeWord (chunk i m) (hide s.freelist)
      ptr := chunk i (m + 1)
      ptridx := m + 1
      freelist := chunk i m
      i := s.i + 1 }) :
    s'.Inv memory i units low (m + 1) (m :: ks) := by
  subst hs'
  have hfreelist : s.freelist < 2 ^ 64 := by
    rcases hs.freelist.head_mem with hnull | hmem
    · rw [hnull]
      omega
    · rcases List.mem_map.mp hmem with ⟨k, hk, heq⟩
      have := (hs.found k).mp hk
      rw [← heq]
      exact h.chunk_lt_word hi (by omega)
  refine ⟨rfl, rfl, ?_, ?_, ?_, fun k => ?_, fun a ha => ?_⟩
  · show s.i + 1 = ks.length + 1
    rw [hs.count]
  · show Spells (next (s.memory.writeWord (chunk i m) (hide s.freelist))) (chunk i m) _
    rw [List.map_cons]
    refine hs.freelist.push (Nat.ne_of_gt (chunk_pos i m)) (next_writeWord hfreelist) ?_
    -- The word is in the chunk `m`, and the nodes are below.
    intro p hp
    rcases List.mem_map.mp hp with ⟨k, hk, rfl⟩
    have hkm := ((hs.found k).mp hk).2.1
    apply next_congr
    intro a ha
    apply Bytes.writeWord_outside
    have hle : chunk i (k + 1) ≤ chunk i m := chunk_le i hkm
    have hlt := ha.2
    simp only at hlt
    omega
  · rw [List.nodup_cons]
    refine ⟨fun hmem => ?_, hs.nodup⟩
    exact absurd ((hs.found m).mp hmem).2.1 (Nat.lt_irrefl m)
  · rw [List.mem_cons, hs.found]
    constructor
    · rintro (rfl | ⟨hk, hkm, hclear⟩)
      · exact ⟨hlow, Nat.lt_succ_self k, hmark⟩
      · exact ⟨hk, by omega, hclear⟩
    · rintro ⟨hk, hkm, hclear⟩
      by_cases heq : k = m
      · exact Or.inl heq
      · exact Or.inr ⟨hk, by omega, hclear⟩
  · show s.memory.writeWord (chunk i m) (hide s.freelist) a = memory a
    rw [Bytes.writeWord_outside]
    · exact hs.frame a fun k hk hkm hclear => ha k hk (by omega) hclear
    · have hout := ha m hlow (Nat.lt_succ_self m) hmark
      have hword := chunk_add_word i m
      unfold Object.Covers at hout
      simp only at hout
      omega

/-- The chunk at the pointer is put on the list if it has no mark. -/
theorem Finder.Inv.step (h : r.Laid i) (hi : i < gcNumRegions) {low m : Nat} {ks : List Nat}
    {s : Finder} (hs : s.Inv memory i units low m ks) (hlow : low ≤ m) (hm : m < r.count) :
    ∃ ks', (s.step r units).Inv memory i units low (m + 1) ks' := by
  have hptr : s.ptr + r.size = chunk i (m + 1) := by rw [hs.ptr, h.size, chunk_succ]
  unfold Finder.step
  rw [hs.ptridx, hptr]
  cases hmark : isMarkedIndex units m with
  | true => exact ⟨ks, hs.skip hmark rfl⟩
  | false =>
      rw [hs.ptr]
      exact ⟨m :: ks, hs.push h hi hlow hm hmark rfl⟩

/-- The loop ends with all chunks looked at, or with a list that is not empty. -/
theorem Finder.run_spec (h : r.Laid i) (hi : i < gcNumRegions) {low m high fuel : Nat}
    {ks : List Nat} {s : Finder} (hs : s.Inv memory i units low m ks) (hlow : low ≤ m)
    (hm : m ≤ high) (hhigh : high ≤ r.count) (hend : r.markendptr = chunk i high)
    (hfuel : high - m < fuel) :
    ∃ m' ks', (Finder.run r units fuel s).Inv memory i units low m' ks' ∧ low ≤ m' ∧
      m' ≤ high ∧ (ks' = [] → m' = high) := by
  induction fuel generalizing m ks s with
  | zero => exact absurd hfuel (Nat.not_lt_zero _)
  | succ fuel ih =>
      unfold Finder.run
      rw [hs.ptr, hs.count, hend]
      split
      case isTrue hgo =>
          have hlt : m < high := chunk_lt_iff.mp hgo.2
          rcases hs.step h hi hlow (by omega) with ⟨ks', hs'⟩
          exact ih hs' (by omega) hlt (by omega)
      case isFalse hstop =>
          refine ⟨m, ks, hs, hlow, hm, fun hnil => ?_⟩
          have hlen : gcFreelistLen = 256 := rfl
          rw [hnil, List.length_nil, hlen, chunk_lt_iff] at hstop
          omega

/-- The test of a bit, for a region that has mark bits. -/
theorem Region.isMarked_eq_false_iff (hunits : r.markptr = some units) (k : Nat) :
    isMarkedIndex units k = false ↔ ¬ r.isMarked k := by
  unfold Region.isMarked
  simp [hunits]

/-- What was found, and what was not looked at, is what was free. -/
theorem Finder.Inv.mem_iff {r' : Region} {m : Nat} {ks : List Nat} {s : Finder}
    (hs : s.Inv memory i units f.low m ks) (hlist : f.list = []) (hlow : f.low ≤ m)
    (hm : m ≤ f.high) (hunits : r.markptr = some units)
    (hr' : r' = { r with freelist := s.freelist, markstartptr := chunk i m }) (k : Nat) :
    Free.Mem ⟨ks, m, f.high⟩ r' k ↔ f.Mem r k := by
  have hmarked := Region.isMarked_eq_false_iff hunits k
  have hunswept : Free.Unswept ⟨ks, m, f.high⟩ r' k ↔ m ≤ k ∧ k < f.high ∧ ¬ r.isMarked k := by
    rw [hr']
    exact Free.unswept_congr (f := ⟨ks, m, f.high⟩) rfl rfl rfl
  unfold Free.Mem
  rw [hunswept, hlist]
  unfold Free.Unswept
  simp only [hs.found, hmarked, List.not_mem_nil, false_or]
  constructor
  · rintro (⟨hk, hkm, hclear⟩ | ⟨hk, hkh, hclear⟩)
    · exact ⟨hk, by omega, hclear⟩
    · exact ⟨by omega, hkh, hclear⟩
  · rintro ⟨hk, hkh, hclear⟩
    by_cases hkm : k < m
    · exact Or.inl ⟨hk, hkm, hclear⟩
    · exact Or.inr ⟨by omega, hkh, hclear⟩

/-- The chunks that were found are free, as they were before. -/
theorem Heap.found_spec (h : gc.Inv inUse) (hi : i < gcNumRegions)
    (htracks : (gc.regions i).Tracks gc.memory i f) (hshares : (gc.regions i).Shares i f inUse)
    (hlist : f.list = []) (hunits : (gc.regions i).markptr = some units) {m : Nat}
    {ks : List Nat} {s : Finder} (hs : s.Inv gc.memory i units f.low m ks) (hlow : f.low ≤ m)
    (hm : m ≤ f.high) :
    Region.Tracks s.memory i ((gc.found i s).regions i) ⟨ks, m, f.high⟩ ∧
      Region.Shares i ((gc.found i s).regions i) ⟨ks, m, f.high⟩ inUse ∧
      (gc.found i s).Inv inUse ∧
      ∀ p ∈ inUse, ∀ a, p.Covers a → s.memory a = gc.memory a := by
  have hhigh := htracks.high_le
  -- The loop has written in free chunks only.
  have hframe : ∀ p, gc.regions.Has p → (p.region = i → p ∈ inUse) → ∀ a, p.Covers a →
      s.memory a = gc.memory a := by
    intro p hp hused a ha
    apply hs.frame
    intro k hk hkm hclear
    have hfree : f.Mem (gc.regions i) k :=
      Or.inr ⟨hk, by omega, (Region.isMarked_eq_false_iff hunits k).mp hclear⟩
    apply Regions.Has.apart (fun j hj => h.laid hj) hp ⟨hi, hfree.lt htracks⟩ _ ha
    rintro rfl
    exact hshares.free k hfree (hused rfl)
  have hregion : (gc.found i s).regions i
      = { gc.regions i with freelist := s.freelist, markstartptr := chunk i m } := by
    rw [← hs.ptr]
    exact Heap.setRegion_self
  have htracks' : Region.Tracks s.memory i ((gc.found i s).regions i) ⟨ks, m, f.high⟩ := by
    rw [hregion]
    refine htracks.relist (g := ⟨ks, m, f.high⟩) hlow rfl hm hs.freelist hs.nodup fun k hk => ?_
    have hfound := (hs.found k).mp hk
    refine ⟨by omega, fun hunswept => ?_⟩
    exact absurd hunswept.1 (by simp only; omega)
  have hmem := hs.mem_iff hlist hlow hm hunits hregion
  have hmark : ((gc.found i s).regions i).markptr = (gc.regions i).markptr := by rw [hregion]
  have hcount : ((gc.found i s).regions i).count = (gc.regions i).count := by
    rw [hregion, Region.count_relist]
  have hshares' : Region.Shares i ((gc.found i s).regions i) ⟨ks, m, f.high⟩ inUse := by
    constructor
    · intro k hk
      exact hshares.free k ((hmem k).mp hk)
    · intro k hk
      rw [hcount]
      exact hshares.used k hk
    · intro k hk
      rw [hcount] at hk
      rw [hmem, Region.isMarked_congr hmark]
      exact hshares.kept k hk
  refine ⟨htracks', hshares', ?_, fun p hp => hframe p (h.has hp) fun _ => hp⟩
  exact h.update hi (fun j hj => Heap.setRegion_of_ne hj)
    (fun j k hj hhas => hframe ⟨j, k⟩ hhas fun heq => absurd heq hj) (fun o _ => Iff.rfl)
    htracks' hshares'

/-- What an allocation from a region results in: the null pointer, or a chunk. -/
def Heap.Allocates (gc : Heap) (i : Nat) (inUse : Set Object) (result : Nat × Heap) : Prop :=
  result.1 = 0 ∨ ∃ k, result.1 = chunk i k ∧ gc.Gives result.2 inUse ⟨i, k⟩

/-- An allocation after a step that has not changed what is in use. -/
theorem Heap.Allocates.after {gc₁ : Heap} {result : Nat × Heap}
    (h : gc₁.Allocates i inUse result)
    (hframe : ∀ p ∈ inUse, ∀ a, p.Covers a → gc₁.memory a = gc.memory a)
    (hcount : (gc₁.regions i).count = (gc.regions i).count)
    (hmark : (gc₁.regions i).markptr = (gc.regions i).markptr)
    (henabled : gc₁.enabled = gc.enabled) (hroots : gc₁.roots = gc.roots) :
    gc.Allocates i inUse result := by
  rcases h with hnull | ⟨k, hk, hgives⟩
  · exact Or.inl hnull
  · refine Or.inr ⟨k, hk, hgives.inv, hgives.notUsed, ?_, ?_, ?_, ?_⟩
    · intro p hp a ha
      rw [hgives.frame p hp a ha, hframe p hp a ha]
    · intro hgrown m hm
      have hreuse := hgives.reuse
      simp only [hcount, Region.isMarked_congr hmark] at hreuse
      exact hreuse hgrown m hm
    · rw [hgives.enabled, henabled]
    · rw [hgives.roots, hroots]

/-- When no chunk is free, the region grows by the chunk that is given, or nothing is
given as its memory cannot be accessed. -/
theorem Heap.fresh_allocates (h : gc.Inv inUse) (hi : i < gcNumRegions) (hroom : gc.Room i)
    (hnone : ∀ k < (gc.regions i).count, ⟨i, k⟩ ∈ inUse ∨ (gc.regions i).isMarked k) :
    gc.Allocates i inUse (gc.fresh i) := by
  rcases Heap.fresh_spec h hi hroom hnone with ⟨gc', hfresh⟩ | ⟨k, gc', hfresh, hgives⟩
  · rw [hfresh]
    exact Or.inl rfl
  · rw [hfresh]
    exact Or.inr ⟨k, rfl, hgives⟩

/-- If nothing is free, the chunks are in use or have a mark. -/
theorem Region.Shares.full (h : r.Shares i f inUse) (hlist : f.list = []) (hdone : f.high ≤ f.low) :
    ∀ k < r.count, ⟨i, k⟩ ∈ inUse ∨ r.isMarked k := by
  intro k hk
  rcases h.kept k hk with hused | (hlisted | hunswept) | hmarked
  · exact Or.inl hused
  · rw [hlist] at hlisted
    exact absurd hlisted List.not_mem_nil
  · have hlow := hunswept.1
    have hhigh := hunswept.2.1
    omega
  · exact Or.inr hmarked.2

/-- A free list that starts with a null pointer is empty, as no chunk is at that address. -/
theorem Region.Tracks.list_eq_nil (h : r.Tracks memory i f) (hempty : r.freelist = 0) :
    f.list = [] := by
  have hspells := h.freelist
  rw [hempty] at hspells
  exact List.map_eq_nil_iff.mp hspells.eq_nil

/-- After the loop, the first chunk that was found is taken, or fresh space. -/
theorem Heap.take_allocates (h : gc.Inv inUse) (hi : i < gcNumRegions) (hroom : gc.Room i)
    (htracks : (gc.regions i).Tracks memory i f) (hshares : (gc.regions i).Shares i f inUse)
    (hdone : f.list = [] → f.high ≤ f.low) : gc.Allocates i inUse (gc.take i) := by
  unfold Heap.take
  by_cases hempty : (gc.regions i).freelist = 0
  · rw [if_neg (not_not_intro hempty)]
    have hlist := htracks.list_eq_nil hempty
    exact Heap.fresh_allocates h hi hroom (hshares.full hlist (hdone hlist))
  · rw [if_pos hempty]
    exact Or.inr (Heap.pop_spec h hi hempty)

/-- The loop that looks for chunks without a mark. -/
theorem Heap.find_spec (hi : i < gcNumRegions) (htracks : (gc.regions i).Tracks gc.memory i f)
    (hmore : f.low < f.high) :
    ∃ units s m ks, (gc.regions i).markptr = some units ∧
      gc.refill i = .ok ((gc.found i s).take i) ∧
      s.Inv gc.memory i units f.low m ks ∧ f.low ≤ m ∧ m ≤ f.high ∧ (ks = [] → m = f.high) := by
  have hgo : (gc.regions i).markstartptr < (gc.regions i).markendptr := by
    rw [htracks.markstartptr, htracks.markendptr, chunk_lt_iff]
    exact hmore
  have hhigh := htracks.high_le
  rcases Option.isSome_iff_exists.mp (htracks.marks hmore) with ⟨units, hunits⟩
  have hlt : chunk i f.low < chunk i (f.low + 1) := chunk_lt_iff.mpr (Nat.lt_succ_self _)
  have hptridx : ptridx gc.regions i (gc.regions i).markstartptr = f.low := by
    rw [htracks.markstartptr]
    refine ptridx_eq hi htracks.laid.toFixed (Nat.le_refl _) hlt ?_ (inner_chunk i _)
    exact Nat.lt_of_lt_of_le hlt (htracks.laid.chunk_le (by omega))
  have hfuel : ((gc.regions i).markendptr - (gc.regions i).markstartptr) / (gc.regions i).size
      = f.high - f.low := by
    rw [htracks.markstartptr, htracks.markendptr, htracks.laid.size]
    unfold chunk
    rw [Nat.add_sub_add_left, ← Nat.sub_mul, Nat.mul_div_cancel _ (regionSize_pos i)]
  have hstart : Finder.Inv gc.memory i units f.low f.low []
      ⟨gc.memory, (gc.regions i).markstartptr, f.low, 0, 0⟩ := by
    refine ⟨htracks.markstartptr, rfl, rfl, rfl, List.nodup_nil, fun k => ?_, fun a _ => rfl⟩
    simp only [List.not_mem_nil, false_iff]
    omega
  have hrun := Finder.run_spec htracks.laid hi hstart (Nat.le_refl _) htracks.low_le hhigh
    htracks.markendptr (Nat.lt_succ_self (f.high - f.low))
  rcases hrun with ⟨m, ks, hs, hlow, hm, hnil⟩
  refine ⟨units, _, m, ks, hunits, ?_, hs, hlow, hm, hnil⟩
  unfold Heap.refill
  simp only [hgo, if_true, hunits, hptridx, hfuel]

/-- With an empty free list, chunks without a mark are looked for, and then fresh space is
taken. -/
theorem Heap.refill_spec (h : gc.Inv inUse) (hi : i < gcNumRegions) (hroom : gc.Room i)
    (hempty : (gc.regions i).freelist = 0) :
    ∃ result, gc.refill i = .ok result ∧ gc.Allocates i inUse result := by
  rcases h.tracks i hi with ⟨f, htracks, hshares⟩
  have hlist := htracks.list_eq_nil hempty
  by_cases hmore : f.low < f.high
  case neg =>
      have hstop : ¬ (gc.regions i).markstartptr < (gc.regions i).markendptr := by
        rw [htracks.markstartptr, htracks.markendptr, chunk_lt_iff]
        exact hmore
      refine ⟨gc.fresh i, if_neg hstop, Heap.fresh_allocates h hi hroom ?_⟩
      exact hshares.full hlist (Nat.le_of_not_lt hmore)
  case pos =>
      rcases Heap.find_spec hi htracks hmore with
        ⟨units, s, m, ks, hunits, hrefill, hs, hlow, hm, hnil⟩
      rcases Heap.found_spec h hi htracks hshares hlist hunits hs hlow hm with
        ⟨htracks', hshares', hinv, hframe⟩
      have hregion : (gc.found i s).regions i
          = { gc.regions i with freelist := s.freelist, markstartptr := s.ptr } :=
        Heap.setRegion_self
      have hroom' : (gc.found i s).Room i := by
        unfold Heap.Room
        rw [hregion]
        exact hroom
      have htake := Heap.take_allocates hinv hi hroom' htracks' hshares'
        fun hks => Nat.le_of_eq (hnil hks).symm
      refine ⟨_, hrefill, htake.after hframe ?_ ?_ rfl rfl⟩
      · rw [hregion, Region.count_relist]
      · rw [hregion]

/-- An allocation from a region does not fail, and it gives out an object that was not in
use. -/
theorem Heap.allocate_spec (h : gc.Inv inUse) (hi : i < gcNumRegions) (hroom : gc.Room i) :
    ∃ result, gc.allocate i = .ok result ∧ gc.Allocates i inUse result := by
  unfold Heap.allocate
  by_cases hempty : (gc.regions i).freelist = 0
  · rw [if_neg (not_not_intro hempty)]
    exact Heap.refill_spec h hi hroom hempty
  · rw [if_pos hempty]
    exact ⟨_, rfl, Or.inr (Heap.pop_spec h hi hempty)⟩

end Aike.Gc
