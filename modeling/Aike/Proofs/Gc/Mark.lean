import Aike.Lib.Search
import Aike.Proofs.Gc.Layout
import Mathlib.Data.Nat.Bitwise
import Mathlib.Data.Set.Finite.Basic
import Mathlib.Data.Finite.Prod

/-!
# `Aike.Proofs.Gc.Mark`: what `gc_mark` marks

`gc_mark` is a search. The nodes are the objects, and the cells are the addresses of the
words in them; a word refers to the object that the collector takes it for a pointer to.
Pending are the words of the current range, of the ranges on the mark stack and of the
roots that are left (`Marker.pending`). The exchange of the current range with an entry
of the stack does not change what is pending, and the entry is always there, as no more
were counted than are on the stack.

`mark_spec`: `gc_mark` ends, and exactly the objects that can be reached are marked.
-/

set_option autoImplicit false

namespace Aike.Gc

variable {memory : Bytes} {regions : Regions} {i : Nat} {o : Object}

/-! ### Mark bits -/

/-- A chunk is marked when its bit is set in its unit. This is what the C expression
computes, in terms of `Nat.testBit`. -/
theorem isMarkedIndex_eq (units : MarkUnits) (k : Nat) :
    isMarkedIndex units k = (units (k / 64)).testBit (k % 64) := by
  unfold isMarkedIndex
  rw [Nat.one_shiftLeft, Nat.and_two_pow]
  cases (units (k / 64)).testBit (k % 64) <;> simp

/-- A bit that was set before, or a bit that is set. -/
theorem markIndex_spec (units : MarkUnits) (k : Nat) :
    (markIndex units k = none ∧ isMarkedIndex units k = true) ∨
    (isMarkedIndex units k = false ∧ ∃ units', markIndex units k = some units' ∧
      ∀ j, isMarkedIndex units' j = true ↔ j = k ∨ isMarkedIndex units j = true) := by
  have hmask : units (k / 64) &&& 1 <<< (k % 64) ≠ 0 ↔ isMarkedIndex units k = true := by
    unfold isMarkedIndex
    exact decide_eq_true_iff.symm
  unfold markIndex
  by_cases h : isMarkedIndex units k = true
  · left
    exact ⟨if_pos (hmask.mpr h), h⟩
  · right
    refine ⟨by simpa using h, _, if_neg (mt hmask.mp h), fun j => ?_⟩
    rw [isMarkedIndex_eq, isMarkedIndex_eq]
    by_cases hunit : j / 64 = k / 64
    · -- In the unit of the bit, the bits are told apart by their place.
      rw [hunit, Function.update_self, Nat.testBit_or, Nat.one_shiftLeft, Nat.testBit_two_pow]
      have hplace : k % 64 = j % 64 ↔ j = k := by omega
      rw [Bool.or_eq_true, decide_eq_true_iff, hplace, or_comm]
    · rw [Function.update_of_ne hunit]
      have hne : j ≠ k := fun heq => hunit (by rw [heq])
      simp [hne]

/-- The bit of a chunk. -/
def Region.isMarked (r : Region) (k : Nat) : Prop :=
  ∃ units, r.markptr = some units ∧ isMarkedIndex units k = true

/-- The objects with a mark. The bits of an empty region mean nothing. -/
def Regions.marked (regions : Regions) : Set Object :=
  {o | o.region < gcNumRegions ∧ 0 < (regions o.region).count ∧
    (regions o.region).isMarked o.index}

/-! ### The graph of the objects -/

/-- The addresses of the words in a range. -/
def Range.cells (range : Range) : Set Nat :=
  {a | ∃ j, a = range.startptr + 8 * j ∧ a < range.endptr}

/-- The words of an object. -/
def Object.cells (o : Object) : Set Nat :=
  Range.cells ⟨chunk o.region o.index, chunk o.region (o.index + 1)⟩

/-- The object that the word at an address refers to. -/
def target (memory : Bytes) (regions : Regions) (a : Nat) : Option Object :=
  object? regions (memory.readWord a)

/-- The words of the roots. -/
def rootCells (memory : Bytes) (roots : List Root) : Set Nat :=
  {a | ∃ root ∈ roots, a ∈ (root.range memory).cells}

/-- An object that a root refers to, or an object that can be reached. -/
def Reachable (memory : Bytes) (regions : Regions) (roots : List Root) (o : Object) : Prop :=
  Search.Reached (target memory regions) Object.cells (rootCells memory roots) o

/-- Regions that differ in their marks only. -/
def SameButMarks (regions regions' : Regions) : Prop :=
  ∀ i, regions' i = { regions i with markptr := (regions' i).markptr }

/-- Regions differ from themselves in nothing. -/
theorem SameButMarks.refl (regions : Regions) : SameButMarks regions regions := fun _ => rfl

/-- Two changes of the marks are one. -/
theorem SameButMarks.trans {regions₁ regions₂ : Regions} (h : SameButMarks regions regions₁)
    (h' : SameButMarks regions₁ regions₂) : SameButMarks regions regions₂ := by
  intro i
  have heq := h' i
  rw [h i] at heq
  exact heq

namespace SameButMarks

variable {regions' : Regions} (h : SameButMarks regions regions')
include h

/-- The chunks keep their size. -/
theorem size : (regions' i).size = (regions i).size := by rw [h i]

/-- The chunks stay where they are. -/
theorem startptr : (regions' i).startptr = (regions i).startptr := by rw [h i]

/-- The chunks that were never in use stay so. -/
theorem freeptr : (regions' i).freeptr = (regions i).freeptr := by rw [h i]

/-- The number of chunks is that of the places, so it stays. -/
theorem count : (regions' i).count = (regions i).count := by
  unfold Region.count
  rw [h.size, h.startptr, h.freeptr]

/-- The constants of a region do not depend on its marks. -/
theorem fixed (hfixed : (regions i).Fixed i) : (regions' i).Fixed i := by
  rw [h i]
  exact ⟨hfixed.size, hfixed.invSize, hfixed.startptr, hfixed.endptr, hfixed.startidx⟩

/-- The places of a region do not depend on its marks. -/
theorem laid (hlaid : (regions i).Laid i) : (regions' i).Laid i :=
  Region.Laid.of_freeptr (h.fixed hlaid.toFixed) (h.freeptr.trans hlaid.freeptr)
    (hlaid.chunk_le (Nat.le_refl _)) hlaid.notFull

/-- The object of a word does not depend on the marks. -/
theorem object? (w : Nat) : Gc.object? regions' w = Gc.object? regions w := by
  have hinv : (regions' (index w)).invSize = (regions (index w)).invSize := by
    rw [h (index w)]
  have hidx : (regions' (index w)).startidx = (regions (index w)).startidx := by
    rw [h (index w)]
  have hptridx : ptridx regions' (index w) w = ptridx regions (index w) w := by
    unfold ptridx objidx
    rw [hinv, hidx]
  unfold Gc.object?
  simp only [h.freeptr, h.startptr, hptridx]

/-- What a word refers to does not depend on the marks, so the graph that is searched does
not change while it is searched. -/
theorem target : Gc.target memory regions' = Gc.target memory regions :=
  funext fun _ => h.object? _

/-- One more mark. -/
theorem update (units : MarkUnits) : SameButMarks regions
    (Function.update regions' i { regions' i with markptr := some units }) := by
  intro j
  by_cases hj : j = i
  · subst hj
    rw [Function.update_self]
    nth_rewrite 1 [h j]
    rfl
  · rw [Function.update_of_ne hj]
    exact h j

end SameButMarks

/-! ### The state of the search -/

/-- The words that are still to be looked at. -/
def Marker.pending (memory : Bytes) (s : Marker) : Set Nat :=
  s.current.cells ∪ {a | ∃ range ∈ s.stack, a ∈ range.cells} ∪ rootCells memory s.roots

/-- How many words a range has. -/
def Range.words (range : Range) : Nat := (range.endptr - range.startptr + 7) / 8

/-- How many words are still to be looked at, and ranges to be taken. -/
def Marker.work (memory : Bytes) (s : Marker) : Nat :=
  s.current.words + (s.stack.map fun range => range.words + 1).sum
    + (s.roots.map fun root => (root.range memory).words + 1).sum

/-- The first word of a range. -/
theorem Range.cells_eq {range : Range} (h : range.startptr < range.endptr) :
    range.cells
      = Insert.insert range.startptr (Range.cells ⟨range.startptr + 8, range.endptr⟩) := by
  ext a
  constructor
  · rintro ⟨j, rfl, hlt⟩
    cases j with
    | zero => exact Or.inl rfl
    | succ j => exact Or.inr ⟨j, by show _ = _ + 8 + 8 * j; omega, hlt⟩
  · rintro (rfl | ⟨j, rfl, hlt⟩)
    · exact ⟨0, rfl, h⟩
    · exact ⟨j + 1, by show _ + 8 + 8 * j = _; omega, hlt⟩

/-- A range that is used up has no words. -/
theorem Range.cells_eq_empty {range : Range} (h : ¬ range.startptr < range.endptr) :
    range.cells = ∅ := by
  ext a
  constructor
  · rintro ⟨j, rfl, hlt⟩
    omega
  · intro ha
    exact absurd ha (Set.notMem_empty a)

/-- The first word is one of the words of a range that is not used up. -/
theorem Range.words_eq {range : Range} (h : range.startptr < range.endptr) :
    range.words = Range.words ⟨range.startptr + 8, range.endptr⟩ + 1 := by
  unfold Range.words
  simp only
  omega

/-- The exchange finds its entry, and changes neither what is pending nor how much. -/
theorem Marker.exchange_spec (memory : Bytes) (s : Marker) (h : s.pushed < s.stack.length) :
    ∃ s', s.exchange = .ok s' ∧ s'.regions = s.regions ∧ s'.pushed ≤ s'.stack.length ∧
      s'.pending memory = s.pending memory ∧ s'.work memory = s.work memory := by
  unfold Marker.exchange
  split
  case isFalse => exact ⟨_, rfl, rfl, h, rfl, rfl⟩
  case isTrue =>
      have hget : s.stack[s.pushed]? = some s.stack[s.pushed] := List.getElem?_eq_getElem h
      rw [hget]
      refine ⟨_, rfl, rfl, ?_, ?_, ?_⟩
      · show 0 + 1 ≤ (s.stack.set s.pushed s.current).length
        rw [List.length_set]
        omega
      all_goals
        have hentry : ∃ front back, s.stack = front ++ s.stack[s.pushed] :: back ∧
            front.length = s.pushed ∧
              s.stack.set s.pushed s.current = front ++ s.current :: back :=
          List.exists_of_set h
        rcases hentry with ⟨front, back, hstack, -, hset⟩
        generalize s.stack[s.pushed] = tmp at hstack
      · -- The same ranges, one of them in another place.
        unfold Marker.pending
        simp only
        rw [hset, hstack]
        ext a
        simp only [Set.mem_union, Set.mem_ofPred_eq, List.mem_append, List.mem_cons]
        grind
      · unfold Marker.work
        simp only
        rw [hset, hstack]
        simp only [List.map_append, List.map_cons, List.sum_append, List.sum_cons]
        omega

/-- What a pass over the regions starts from: they are laid, and those with chunks have
mark bits. -/
structure Regions.Ready (regions : Regions) : Prop where
  laid : ∀ i < gcNumRegions, (regions i).Laid i
  marks : ∀ i < gcNumRegions, 0 < (regions i).count → (regions i).markptr.isSome

/-- What holds all along `gc_mark`, which started with the regions and the roots. -/
structure Marker.Inv (memory : Bytes) (regions : Regions) (roots : List Root) (s : Marker) :
    Prop where
  same : SameButMarks regions s.regions
  marks : ∀ i, (regions i).markptr.isSome → (s.regions i).markptr.isSome
  empty : ∀ i, (regions i).count = 0 → s.regions i = regions i
  search : Search.Searching (target memory regions) Object.cells (rootCells memory roots)
    s.regions.marked (s.pending memory)
  pushed : s.pushed ≤ s.stack.length

/-- The objects that a word can refer to. -/
def Regions.objects (regions : Regions) : Set Object :=
  {o | o.region < gcNumRegions ∧ 0 < (regions o.region).count ∧
    o.index ≤ (regions o.region).count ∧
    (o.index < (regions o.region).count ∨ 512 < o.region)}

/-- Only a chunk of a region in use is referred to. In the upper regions it may be the one
after the last, as the division that finds it is not exact there. -/
theorem target_mem_objects (hready : regions.Ready) {a : Nat}
    (h : target memory regions a = some o) : o ∈ regions.objects := by
  rcases object?_spec hready.laid (Bytes.readWord_lt memory a) h with
    ⟨k, hk, -, -, hi, hindex⟩
  refine ⟨hi, by omega, ?_, ?_⟩
  · rcases hindex with h | h <;> omega
  · rcases hindex with h | h
    · exact Or.inl (by omega)
    · exact Or.inr h.1

/-- What can be reached is one of these objects. -/
theorem Reachable.mem_objects (hready : regions.Ready) {roots : List Root}
    (h : Reachable memory regions roots o) : o ∈ regions.objects := by
  cases h with
  | root _ ht => exact target_mem_objects hready ht
  | step _ _ ht => exact target_mem_objects hready ht

/-- There are finitely many objects, since every region has finitely many chunks. The
search ends because of it. -/
theorem Regions.objects_finite (regions : Regions) : regions.objects.Finite := by
  have hfin : (Set.univ.image fun p : Σ i : Fin gcNumRegions, Fin ((regions i).count + 1) =>
      Object.mk p.1 p.2).Finite := Set.finite_univ.image _
  apply hfin.subset
  rintro ⟨i, k⟩ ⟨hi, -, hk, -⟩
  exact ⟨⟨⟨i, hi⟩, ⟨k, Nat.lt_succ_of_le hk⟩⟩, Set.mem_univ _, rfl⟩

/-- How much `gc_mark` has still to do. The words of an object are fewer than `2 ^ 32`. -/
noncomputable def Marker.measure (memory : Bytes) (regions : Regions) (s : Marker) : Nat :=
  (regions.objects \ s.regions.marked).ncard * 2 ^ 32 + s.work memory

/-- One more mark is on the object. -/
theorem marked_update (hi : o.region < gcNumRegions) (hcount : 0 < (regions o.region).count)
    {units units' : MarkUnits} (hunits : (regions o.region).markptr = some units)
    (hset : ∀ j, isMarkedIndex units' j = true ↔ j = o.index ∨ isMarkedIndex units j = true) :
    Regions.marked (Function.update regions o.region
      { regions o.region with markptr := some units' }) = Insert.insert o regions.marked := by
  ext p
  by_cases hp : p.region = o.region
  · have hobject : p = o ↔ p.index = o.index := by
      cases p
      cases o
      simp only [Object.mk.injEq]
      simp only at hp
      simp [hp]
    show _ ∧ _ ∧ Region.isMarked _ _ ↔ p = o ∨ _ ∧ _ ∧ Region.isMarked _ _
    have hsame : Region.count { regions o.region with markptr := some units' }
        = (regions o.region).count := rfl
    rw [hp, Function.update_self, hobject, hsame]
    unfold Region.isMarked
    simp [hunits, hset, hi, hcount]
  · have hne : p ≠ o := fun h => hp (by rw [h])
    show _ ∧ _ ∧ Region.isMarked _ _ ↔ p = o ∨ _ ∧ _ ∧ Region.isMarked _ _
    rw [Function.update_of_ne hp]
    simp [hne]

/-- The words of an object are few. -/
theorem Object.words_le (hi : o.region < gcNumRegions) :
    Range.words ⟨chunk o.region o.index, chunk o.region (o.index + 1)⟩ < 2 ^ 32 - 1 := by
  have hsize := regionSize_le hi
  have hsucc := chunk_succ o.region o.index
  unfold Range.words
  simp only
  omega

/-! ### A word -/

/-- To advance takes the current word out of those that are to be looked at, and no other. -/
theorem Marker.advance_pending {s : Marker} (hlt : s.current.startptr < s.current.endptr) :
    s.pending memory = Insert.insert s.current.startptr (s.advance.pending memory) := by
  show s.current.cells ∪ _ ∪ _ = Insert.insert _ (Range.cells _ ∪ _ ∪ _)
  rw [Range.cells_eq hlt, Set.insert_union, Set.insert_union]
  rfl

/-- To advance leaves one word less to be looked at. -/
theorem Marker.advance_work {s : Marker} (hlt : s.current.startptr < s.current.endptr) :
    s.work memory = s.advance.work memory + 1 := by
  have hwords := Range.words_eq hlt
  show s.current.words + (s.stack.map _).sum + (s.roots.map _).sum
    = Range.words ⟨s.current.startptr + 8, s.current.endptr⟩ + (s.stack.map _).sum
      + (s.roots.map _).sum + 1
  omega

/-- The words of an object that is marked are pending. -/
theorem Marker.push_pending {s : Marker} (hfixed : (s.regions o.region).Fixed o.region)
    (units : MarkUnits) : (s.push o units).pending memory = s.pending memory ∪ o.cells := by
  have hrange : (s.push o units).stack
      = ⟨chunk o.region o.index, chunk o.region (o.index + 1)⟩ :: s.stack := by
    simp only [Marker.push, hfixed.startptr, hfixed.size, chunk_succ]
    rfl
  have hcurrent : (s.push o units).current = s.current := rfl
  have hroots : (s.push o units).roots = s.roots := rfl
  unfold Marker.pending Object.cells
  rw [hrange, hcurrent, hroots]
  ext a
  simp only [Set.mem_union, Set.mem_ofPred_eq, List.mem_cons, exists_eq_or_imp]
  grind

/-- To push an object adds fewer than 2 ^ 32 words, as no chunk is that large. The measure
of the search counts a new mark for that much. -/
theorem Marker.push_work {s : Marker} (hfixed : (s.regions o.region).Fixed o.region)
    (hi : o.region < gcNumRegions) (units : MarkUnits) :
    (s.push o units).work memory < s.work memory + 2 ^ 32 := by
  have hwords := Object.words_le hi
  have hrange : (s.push o units).stack
      = ⟨chunk o.region o.index, chunk o.region (o.index + 1)⟩ :: s.stack := by
    simp only [Marker.push, hfixed.startptr, hfixed.size, chunk_succ]
    rfl
  have hcurrent : (s.push o units).current = s.current := rfl
  have hroots : (s.push o units).roots = s.roots := rfl
  unfold Marker.work
  rw [hrange, hcurrent, hroots, List.map_cons, List.sum_cons]
  omega

/-- A word that refers to nothing new is looked at. -/
theorem Marker.Inv.look {roots : List Root} {s : Marker} (h : s.Inv memory regions roots)
    (hlt : s.current.startptr < s.current.endptr)
    (hseen : ∀ o, target memory regions s.current.startptr = some o → o ∈ s.regions.marked) :
    s.advance.Inv memory regions roots ∧
      s.advance.measure memory regions < s.measure memory regions := by
  have hpending : s.pending memory = Insert.insert s.current.startptr (s.advance.pending memory) :=
    Marker.advance_pending hlt
  constructor
  · refine ⟨h.same, h.marks, h.empty, ?_, h.pushed⟩
    apply h.search.look hseen
    · rw [hpending]
      exact Set.subset_insert _ _
    · intro v hv
      rw [hpending] at hv
      exact hv
  · have hmarked : s.advance.regions.marked = s.regions.marked := rfl
    unfold Marker.measure
    rw [Marker.advance_work hlt, hmarked]
    exact Nat.lt_succ_self _

/-- One object less is without a mark, which outweighs its words. -/
theorem Marker.Inv.push_measure (hready : regions.Ready) {roots : List Root} {s s' : Marker}
    (h : s.Inv memory regions roots) (hlt : s.current.startptr < s.current.endptr)
    (hobject : o ∈ regions.objects) {units units' : MarkUnits}
    (hunits : (s.regions o.region).markptr = some units)
    (hclear : isMarkedIndex units o.index = false)
    (hmarked : s'.regions.marked = Insert.insert o s.regions.marked)
    (hwork' : s'.work memory = (s.advance.push o units').work memory) :
    s'.measure memory regions < s.measure memory regions := by
  have hnot : o ∉ s.regions.marked := by
    rintro ⟨-, -, units₀, hunits₀, hset₀⟩
    rw [hunits, Option.some.injEq] at hunits₀
    subst hunits₀
    rw [hclear] at hset₀
    exact absurd hset₀ (by simp)
  have hcard : (regions.objects \ s'.regions.marked).ncard + 1
      = (regions.objects \ s.regions.marked).ncard := by
    rw [hmarked, ← Set.union_singleton, ← Set.sdiff_sdiff]
    exact Set.ncard_sdiff_singleton_add_one ⟨hobject, hnot⟩
      ((regions.objects_finite).subset Set.sdiff_subset)
  have hfixed : (s.advance.regions o.region).Fixed o.region :=
    h.same.fixed (hready.laid _ hobject.1).toFixed
  have hwork : (s.advance.push o units').work memory < s.advance.work memory + 2 ^ 32 :=
    Marker.push_work hfixed hobject.1 units'
  have hadvance : s.work memory = s.advance.work memory + 1 := Marker.advance_work hlt
  unfold Marker.measure
  rw [← hcard, hwork', hadvance, Nat.add_mul, Nat.one_mul]
  omega

/-- An object without a mark is marked. -/
theorem Marker.Inv.push (hready : regions.Ready) {roots : List Root} {s s' : Marker}
    (h : s.Inv memory regions roots) (hlt : s.current.startptr < s.current.endptr)
    (hfound : target memory regions s.current.startptr = some o)
    {units units' : MarkUnits} (hunits : (s.regions o.region).markptr = some units)
    (hclear : isMarkedIndex units o.index = false)
    (hset : ∀ j, isMarkedIndex units' j = true ↔ j = o.index ∨ isMarkedIndex units j = true)
    (hregions : s'.regions = (s.advance.push o units').regions)
    (hpushed : s'.pushed ≤ s'.stack.length)
    (hpending' : s'.pending memory = (s.advance.push o units').pending memory)
    (hwork' : s'.work memory = (s.advance.push o units').work memory) :
    s'.Inv memory regions roots ∧ s'.measure memory regions < s.measure memory regions := by
  have hobject := target_mem_objects hready hfound
  have hfixed : (s.advance.regions o.region).Fixed o.region :=
    h.same.fixed (hready.laid _ hobject.1).toFixed
  have hpending : s.pending memory = Insert.insert s.current.startptr (s.advance.pending memory) :=
    Marker.advance_pending hlt
  have hupdate : s'.regions = Function.update s.regions o.region
      { s.regions o.region with markptr := some units' } := hregions
  have hmarked : s'.regions.marked = Insert.insert o s.regions.marked := by
    rw [hupdate]
    exact marked_update hobject.1 (h.same.count ▸ hobject.2.1) hunits hset
  rw [Marker.push_pending hfixed] at hpending'
  constructor
  · constructor
    · rw [hupdate]
      exact h.same.update units'
    · intro i hi
      rw [hupdate]
      by_cases hio : i = o.region
      · rw [hio, Function.update_self]
        rfl
      · rw [Function.update_of_ne hio]
        exact h.marks i hi
    · intro i hi
      have hio : i ≠ o.region := by
        intro heq
        rw [heq] at hi
        exact absurd hobject.2.1 (by omega)
      rw [hupdate, Function.update_of_ne hio]
      exact h.empty i hi
    · -- Pending are the words of before, without the one that was looked at, and those of
      -- the object.
      rw [hmarked]
      refine h.search.mark ?_ hfound ?_ ?_ ?_
      · rw [hpending]
        exact Set.mem_insert _ _
      · rw [hpending', hpending]
        exact Set.union_subset_union_left _ (Set.subset_insert _ _)
      · rw [hpending']
        exact Set.subset_union_right
      · intro v hv
        rw [hpending] at hv
        rw [hpending']
        rcases hv with hv | hv
        · exact Or.inl hv
        · exact Or.inr (Or.inl hv)
    · exact hpushed
  · exact h.push_measure hready hlt hobject hunits hclear hmarked hwork'

/-- The inner loop: a word is looked at, and the object that it refers to is marked. -/
theorem Marker.word_spec (hready : regions.Ready) {roots : List Root} {s : Marker}
    (h : s.Inv memory regions roots) (hlt : s.current.startptr < s.current.endptr) :
    ∃ s', s.word memory = .ok s' ∧ s'.Inv memory regions roots ∧
      s'.measure memory regions < s.measure memory regions := by
  have hword : s.word memory
      = s.advance.visit (target memory regions s.current.startptr) := by
    unfold Marker.word target
    rw [h.same.object?]
  rw [hword]
  cases hfound : target memory regions s.current.startptr with
  | none => exact ⟨s.advance, rfl, h.look hlt (by simp [hfound])⟩
  | some o =>
      have hobject := target_mem_objects hready hfound
      rcases Option.isSome_iff_exists.mp (h.marks _ (hready.marks _ hobject.1 hobject.2.1)) with
        ⟨units, hunits⟩
      have hunits' : (s.advance.regions o.region).markptr = some units := hunits
      unfold Marker.visit
      simp only [hunits']
      rcases markIndex_spec units o.index with ⟨hnone, hset⟩ | ⟨hclear, units', hsome, hset⟩
      · -- The object has its mark.
        rw [hnone]
        have hcount : 0 < (s.regions o.region).count := h.same.count ▸ hobject.2.1
        refine ⟨s.advance, rfl, h.look hlt fun p hp => ?_⟩
        rw [hfound, Option.some.injEq] at hp
        exact hp ▸ ⟨hobject.1, hcount, units, hunits, hset⟩
      · -- The object gets its mark, and its words are pending.
        rw [hsome]
        have hroom : (s.advance.push o units').pushed < (s.advance.push o units').stack.length :=
          Nat.lt_succ_of_le h.pushed
        rcases Marker.exchange_spec memory _ hroom with
          ⟨s', hs', hregions, hpushed, hpending, hwork⟩
        exact ⟨s', hs', h.push hready hlt hfound hunits hclear hset hregions hpushed hpending
          hwork⟩

/-! ### The loops -/

/-- An iteration of one of the loops, or the end with nothing pending. -/
theorem Marker.step_spec (hready : regions.Ready) {roots : List Root} {s : Marker}
    (h : s.Inv memory regions roots) :
    (s.step memory = .ok none ∧ s.pending memory = ∅) ∨
    ∃ s', s.step memory = .ok (some s') ∧ s'.Inv memory regions roots ∧
      s'.measure memory regions < s.measure memory regions := by
  unfold Marker.step
  split
  case isTrue hlt =>
      rcases Marker.word_spec hready h hlt with ⟨s', hs', hinv, hmeasure⟩
      rw [hs']
      exact Or.inr ⟨s', rfl, hinv, hmeasure⟩
  case isFalse hdone =>
      have hcurrent := Range.cells_eq_empty hdone
      cases hstack : s.stack with
      | cons range stack =>
          -- The range on top of the stack is the current one.
          right
          refine ⟨_, rfl, ⟨h.same, h.marks, h.empty, ?_, Nat.zero_le _⟩, ?_⟩
          · have hpending : Marker.pending memory { s with
                stack := stack, current := range, pushed := 0 } = s.pending memory := by
              unfold Marker.pending
              simp only [hstack, hcurrent]
              ext a
              simp only [Set.mem_union, Set.mem_ofPred_eq, List.mem_cons, exists_eq_or_imp,
                Set.mem_empty_iff_false, false_or]
            rw [hpending]
            exact h.search
          · have hwork : Marker.work memory { s with
                stack := stack, current := range, pushed := 0 } < s.work memory := by
              unfold Marker.work
              simp only [hstack, List.map_cons, List.sum_cons]
              omega
            exact Nat.add_lt_add_left hwork _
      | nil =>
          cases hroots : s.roots with
          | cons root rest =>
              -- The next root is the current range.
              right
              refine ⟨_, rfl, ⟨h.same, h.marks, h.empty, ?_, Nat.zero_le _⟩, ?_⟩
              · have hpending : Marker.pending memory { s with
                    stack := [], current := root.range memory, pushed := 0, roots := rest }
                    = s.pending memory := by
                  unfold Marker.pending rootCells
                  simp only [hstack, hcurrent, hroots]
                  ext a
                  simp only [Set.mem_union, Set.mem_ofPred_eq, List.mem_cons, exists_eq_or_imp,
                    Set.mem_empty_iff_false, false_or, List.not_mem_nil, false_and, exists_false,
                    or_false]
                rw [hpending]
                exact h.search
              · have hwork : Marker.work memory { s with
                    stack := [], current := root.range memory, pushed := 0, roots := rest }
                    < s.work memory := by
                  unfold Marker.work
                  simp only [hstack, hroots, List.map_cons, List.sum_cons]
                  omega
                exact Nat.add_lt_add_left hwork _
          | nil =>
              left
              refine ⟨rfl, ?_⟩
              unfold Marker.pending rootCells
              simp [hcurrent, hstack, hroots]

/-- The loops end, and nothing is pending then. -/
theorem Marker.run_spec (hready : regions.Ready) {roots : List Root} {fuel : Nat} {s : Marker}
    (h : s.Inv memory regions roots) (hfuel : s.measure memory regions < fuel) :
    ∃ s', Marker.run memory fuel s = .ok s' ∧ s'.Inv memory regions roots ∧
      s'.pending memory = ∅ := by
  induction fuel generalizing s with
  | zero => exact absurd hfuel (Nat.not_lt_zero _)
  | succ fuel ih =>
      unfold Marker.run
      rcases Marker.step_spec hready h with ⟨hend, hempty⟩ | ⟨s', hs', hinv, hmeasure⟩
      · rw [hend]
        exact ⟨s, rfl, h, hempty⟩
      · rw [hs']
        exact ih hinv (by omega)

/-- More fuel does not change what the loops end with. -/
theorem Marker.run_eq {fuel fuel' : Nat} {s t t' : Marker} (h : Marker.run memory fuel s = .ok t)
    (h' : Marker.run memory fuel' s = .ok t') : t = t' := by
  induction fuel generalizing s fuel' with
  | zero => exact absurd h (by simp [Marker.run])
  | succ fuel ih =>
      cases fuel' with
      | zero => exact absurd h' (by simp [Marker.run])
      | succ fuel' =>
          unfold Marker.run at h h'
          cases hstep : s.step memory with
          | error e => simp [hstep] at h
          | ok next =>
              cases next with
              | none =>
                  simp only [hstep, Except.ok.injEq] at h h'
                  exact h.symm.trans h'
              | some s' =>
                  simp only [hstep] at h h'
                  exact ih h h'

/-- What `gc_mark` starts with, if there are no marks. -/
theorem Marker.Inv.start {roots : List Root} (hclear : regions.marked = ∅) :
    Marker.Inv memory regions roots ⟨regions, 0, [], ⟨0, 0⟩, 0, roots⟩ where
  same := .refl regions
  marks := fun _ h => h
  empty := fun _ _ => rfl
  search := by
    have hpending : Marker.pending memory ⟨regions, 0, [], ⟨0, 0⟩, 0, roots⟩
        = rootCells memory roots := by
      have hcurrent : Range.cells ⟨0, 0⟩ = ∅ := Range.cells_eq_empty (Nat.lt_irrefl 0)
      unfold Marker.pending
      simp [hcurrent]
    rw [hclear, hpending]
    exact .start _ _ _
  pushed := Nat.le_refl 0

/-- `gc_mark` ends when it has enough fuel, and then exactly the objects that can be reached
are marked. -/
theorem mark_spec (memory : Bytes) (hready : regions.Ready) (hclear : regions.marked = ∅)
    (roots : List Root) :
    ∃ fuel₀, ∀ fuel ≥ fuel₀, ∃ s, mark memory fuel regions roots = .ok s ∧
      SameButMarks regions s.regions ∧
      (∀ i, (regions i).markptr.isSome → (s.regions i).markptr.isSome) ∧
      (∀ i, (regions i).count = 0 → s.regions i = regions i) ∧
      ∀ o, o ∈ s.regions.marked ↔ Reachable memory regions roots o := by
  have hstart : Marker.Inv memory regions roots ⟨regions, 0, [], ⟨0, 0⟩, 0, roots⟩ :=
    Marker.Inv.start hclear
  refine ⟨Marker.measure memory regions ⟨regions, 0, [], ⟨0, 0⟩, 0, roots⟩ + 1, ?_⟩
  intro fuel hfuel
  rcases Marker.run_spec hready hstart (Nat.lt_of_succ_le hfuel) with ⟨s, hs, hinv, hempty⟩
  have hsearch := hinv.search
  rw [hempty] at hsearch
  exact ⟨s, hs, hinv.same, hinv.marks, hinv.empty, hsearch.marked_iff⟩

end Aike.Gc
