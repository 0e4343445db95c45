import Aike.Proofs.Gc.Mark

/-!
# `Aike.Proofs.Gc.Sweep`: what `gc_sweep` leaves

`gc_mark_init` clears the marks: those of an earlier collection are below the end of the
region or in the first page of the mark bits (`Region.Bounded`).

`gc_sweep` takes back the chunks at the end of a region that have no mark, half of the
region at most, and gives memory between marked chunks back to the system. The bytes of
marked chunks keep their values (`sweepRegion_spec`). A region that is filled up to its last
byte is the exception (`sweepRegion_full`).
-/

set_option autoImplicit false

namespace Aike.Gc

variable {memory : Bytes} {regions : Regions} {i : Nat} {r : Region} {units : MarkUnits}

/-! ### `gc_mark_init` -/

/-- The marks are on chunks of the region, but for a few bits in a region of huge chunks. -/
def Region.Bounded (i : Nat) (r : Region) : Prop :=
  ∀ k, r.isMarked k → k < r.count ∨ 512 < i ∧ k < 2 ^ 15

/-- Rounding up does not make a size smaller. -/
theorem le_roundUpPage (n : Nat) : n ≤ roundUpPage n := by
  have hpage : gcPagesize = 4096 := rfl
  unfold roundUpPage
  rw [hpage]
  omega

/-- A multiple of the page size is rounded to itself. -/
theorem roundUpPage_eq {n : Nat} (h : n % gcPagesize = 0) : roundUpPage n = n := by
  have hpage : gcPagesize = 4096 := rfl
  rw [hpage] at h
  unfold roundUpPage
  rw [hpage]
  omega

/-- The bits that `gc_zero_memory` clears. -/
theorem isMarkedIndex_zeroMemory {n k : Nat} (h : k < n ∨ k < 2 ^ 15) :
    isMarkedIndex (zeroMemory units ((n + 7) / 8)) k = false := by
  have hpage : gcPagesize = 4096 := rfl
  have hlt : k / 64 * 8 < roundUpPage ((n + 7) / 8 + gcPagesize) := by
    have := le_roundUpPage ((n + 7) / 8 + gcPagesize)
    omega
  rw [isMarkedIndex_eq]
  unfold zeroMemory
  rw [if_pos hlt, Nat.zero_testBit]

/-- A region without chunks is given no mark bits. -/
theorem markInitRegion_of_count_zero (h : r.Laid i) (hcount : r.count = 0) :
    markInitRegion r = r := by
  have hfree : r.freeptr - r.startptr = 0 := by
    rw [h.freeptr, hcount, h.startptr, chunk_zero, Nat.sub_self]
  unfold markInitRegion
  simp only [hfree, if_true]

/-- A region with chunks gets mark bits, and none of them is set. -/
theorem markInitRegion_of_count_pos (h : r.Laid i) (hbounded : r.Bounded i)
    (hcount : 0 < r.count) :
    ∃ units, markInitRegion r = { r with markptr := some units } ∧
      ∀ k, isMarkedIndex units k = false := by
  have hfree : r.freeptr - r.startptr ≠ 0 := by
    have hlt := chunk_lt_iff (i := i) |>.mpr hcount
    rw [h.freeptr, h.startptr, ← chunk_zero i]
    omega
  have hdiv : (r.freeptr - r.startptr) / r.size = r.count := rfl
  unfold markInitRegion
  simp only [hfree, if_false, hdiv]
  cases hmark : r.markptr with
  | none =>
      refine ⟨_, rfl, fun k => ?_⟩
      rw [isMarkedIndex_eq, Nat.zero_testBit]
  | some old =>
      refine ⟨_, rfl, fun k => ?_⟩
      by_cases hset : isMarkedIndex old k = true
      · apply isMarkedIndex_zeroMemory
        rcases hbounded k ⟨old, hmark, hset⟩ with hk | ⟨-, hk⟩
        · exact Or.inl hk
        · exact Or.inr hk
      · rw [isMarkedIndex_eq] at hset ⊢
        unfold zeroMemory
        split
        · rw [Nat.zero_testBit]
        · simpa using hset

/-- The start of a collection changes the marks only. -/
theorem markInit_same (regions : Regions) : SameButMarks regions (markInit regions) := by
  intro i
  have hregion : markInitRegion (regions i)
      = { regions i with markptr := (markInitRegion (regions i)).markptr } := by
    unfold markInitRegion
    simp only
    split
    · rfl
    · cases (regions i).markptr <;> rfl
  unfold markInit
  split
  · exact hregion
  · rfl

/-- A region without chunks is left as it is. -/
theorem markInit_of_count_zero (h : (regions i).Laid i) (hcount : (regions i).count = 0) :
    markInit regions i = regions i := by
  unfold markInit
  split
  · exact markInitRegion_of_count_zero h hcount
  · rfl

/-- After `gc_mark_init` the regions are ready, and there are no marks. -/
theorem markInit_spec (hlaid : ∀ i < gcNumRegions, (regions i).Laid i)
    (hbounded : ∀ i < gcNumRegions, (regions i).Bounded i) :
    (markInit regions).Ready ∧ (markInit regions).marked = ∅ := by
  have hsame := markInit_same regions
  have hunits : ∀ i < gcNumRegions, 0 < (markInit regions i).count →
      ∃ units, (markInit regions i).markptr = some units ∧
        ∀ k, isMarkedIndex units k = false := by
    intro i hi hcount
    rw [hsame.count] at hcount
    rcases markInitRegion_of_count_pos (hlaid i hi) (hbounded i hi) hcount with ⟨units, heq, hk⟩
    refine ⟨units, ?_, hk⟩
    unfold markInit
    rw [if_pos hi, heq]
  constructor
  · constructor
    · exact fun i hi => hsame.laid (hlaid i hi)
    · intro i hi hcount
      rcases hunits i hi hcount with ⟨units, heq, -⟩
      rw [heq]
      rfl
  · ext o
    constructor
    · rintro ⟨hi, hcount, units, heq, hset⟩
      rcases hunits o.region hi hcount with ⟨units', heq', hclear⟩
      rw [heq, Option.some.injEq] at heq'
      subst heq'
      rw [hclear] at hset
      exact absurd hset (by simp)
    · intro ho
      exact absurd ho (Set.notMem_empty o)

/-! ### A region -/

/-- The address is in no chunk without a mark. -/
def Outside (i count : Nat) (units : MarkUnits) (a : Nat) : Prop :=
  ∀ k < count, isMarkedIndex units k = false → a < chunk i k ∨ chunk i (k + 1) ≤ a

/-- A wrapped sum is not more than the sum. -/
theorem bmod_le (x m : Nat) : Int.bmod x m ≤ x := by
  have hmod : (x : Int) % m ≤ x := by
    have := Nat.mod_le x m
    omega
  rw [Int.bmod_eq_emod]
  split <;> omega

/-- What holds before an iteration of the inner loop of `gc_sweep`, where the chunks from
`m` on were passed, the last `j` of them without a mark. -/
structure Sweeper.Inv (i : Nat) (r : Region) (units : MarkUnits) (memory : Bytes) (m j : Nat)
    (s : Sweeper) : Prop where
  ptridx : s.ptridx = m - 1
  passed : m + j ≤ r.count
  freesize : s.freesize = Int.bmod (j * regionSize i) (2 ^ 32)
  free : ∀ k, m ≤ k → k < m + j → isMarkedIndex units k = false
  start : s.start = true → j = r.count - m
  freeptr : s.start = false → ∃ n ≤ r.count, s.freeptr = chunk i n ∧
    ∀ k, n ≤ k → k < r.count → isMarkedIndex units k = false
  frame : ∀ a, Outside i r.count units a → s.memory a = memory a

/-- Memory that is given back to the system reads as zeros, and the memory around it is as
it was. -/
theorem madvise_outside {ptr size a : Nat} (hsize : size % gcPagesize = 0)
    (h : a < ptr ∨ ptr + size ≤ a) : madvise memory ptr size a = memory a := by
  unfold madvise
  split
  case isTrue =>
      rw [roundUpPage_eq hsize]
      exact Bytes.zero_outside h
  case isFalse => rfl

/-- What is given back is memory of chunks without a mark. -/
theorem Sweeper.Inv.giveBack (h : r.Laid i) {m j : Nat} {s : Sweeper}
    (hs : s.Inv i r units memory m j) {a : Nat} (ha : Outside i r.count units a) :
    s.giveBack r a = memory a := by
  have hpage : gcPagesize = 4096 := rfl
  have hregion : gcRegionSize = 2 ^ 32 := rfl
  unfold Sweeper.giveBack
  split
  case isFalse => exact hs.frame a ha
  case isTrue hlarge =>
      rw [← hs.frame a ha]
      have hle : s.freesize ≤ j * regionSize i := by
        rw [hs.freesize]
        exact_mod_cast bmod_le (j * regionSize i) (2 ^ 32)
      -- There is a chunk to give back, so the offset does not wrap.
      have hj : 0 < j := by
        rcases Nat.eq_zero_or_pos j with rfl | hj
        · simp only [Nat.cast_zero, Int.zero_mul] at hle
          omega
        · exact hj
      have hm : (s.ptridx + 1).toNat = m := by
        rw [hs.ptridx]
        omega
      have hoffset : r.size * (s.ptridx + 1).toNat % 2 ^ 32 = m * regionSize i := by
        rw [hm, h.size, Nat.mul_comm]
        apply Nat.mod_eq_of_lt
        have hlt : m * regionSize i ≤ r.count * regionSize i :=
          Nat.mul_le_mul_right _ (by have := hs.passed; omega)
        have := h.notFull
        omega
      simp only [hoffset, h.startptr]
      have hend : chunk i (m + j) = chunk i m + j * regionSize i := by
        unfold chunk
        rw [Nat.add_mul, Nat.add_assoc]
      have hbound : m * regionSize i + j * regionSize i < 2 ^ 32 := by
        rw [← Nat.add_mul, ← hregion]
        exact Nat.lt_of_le_of_lt (Nat.mul_le_mul_right _ hs.passed) h.notFull
      -- An address that is not outside would be in one of the chunks.
      have hout : a < chunk i m ∨ chunk i (m + j) ≤ a := by
        by_contra hin
        have hstart : regionStart i ≤ a := by
          have := chunk_le i (Nat.zero_le m)
          rw [chunk_zero] at this
          omega
        rcases exists_chunk hstart with ⟨k, hk, hk'⟩
        have hmk : m < k + 1 := chunk_lt_iff (i := i) |>.mp (by omega)
        have hkj : k < m + j := chunk_lt_iff (i := i) |>.mp (by omega)
        have hpassed := hs.passed
        rcases ha k (by omega) (hs.free k (by omega) hkj) with h | h <;> omega
      have hchunk : chunk i m = regionStart i + m * regionSize i := rfl
      have hj' : s.freesize.toNat ≤ j * regionSize i := by
        have : (s.freesize.toNat : Int) ≤ j * regionSize i := by omega
        exact_mod_cast this
      generalize (if m * regionSize i % gcPagesize = 0 then 0
        else gcPagesize - m * regionSize i % gcPagesize) = diff at *
      -- The page after the offset is in the chunks too.
      apply madvise_outside
      · rw [hpage]
        omega
      · rw [hpage] at hlarge ⊢
        omega

/-- What the inner loop ends with: the chunks from `n` on have no mark, and the region ends
there. -/
def Sweeper.Done (i : Nat) (r : Region) (units : MarkUnits) (memory : Bytes) (s : Sweeper) :
    Prop :=
  (∃ n ≤ r.count, s.freeptr = chunk i n ∧
    ∀ k, n ≤ k → k < r.count → isMarkedIndex units k = false) ∧
  ∀ a, Outside i r.count units a → s.memory a = memory a

/-- The chunk where the region ends from now on. -/
theorem Sweeper.Inv.freeptr_eq (h : r.Laid i) {m j : Nat} {s : Sweeper}
    (hs : s.Inv i r units memory m j) :
    r.startptr + r.size * (s.ptridx + 1).toNat % 2 ^ 32 = chunk i m := by
  have hregion : gcRegionSize = 2 ^ 32 := rfl
  have hm : (s.ptridx + 1).toNat = m := by
    rw [hs.ptridx]
    omega
  have hle : m * regionSize i ≤ r.count * regionSize i :=
    Nat.mul_le_mul_right _ (by have := hs.passed; omega)
  have hlt : m * regionSize i < 2 ^ 32 := by
    have := h.notFull
    omega
  rw [hm, h.size, h.startptr, Nat.mul_comm, Nat.mod_eq_of_lt hlt]
  rfl

/-- The chunks that were passed have no mark, up to the end of the region. -/
theorem Sweeper.Inv.ends (h : r.Laid i) {m j : Nat} {s : Sweeper}
    (hs : s.Inv i r units memory m j) :
    ∃ n ≤ r.count,
      (if s.start then r.startptr + r.size * (s.ptridx + 1).toNat % 2 ^ 32 else s.freeptr)
        = chunk i n ∧
      ∀ k, n ≤ k → k < r.count → isMarkedIndex units k = false := by
  have hpassed := hs.passed
  cases hstart : s.start with
  | false => exact hs.freeptr hstart
  | true =>
      have hj := hs.start hstart
      exact ⟨m, by omega, hs.freeptr_eq h, fun k hk hk' => hs.free k hk (by omega)⟩

/-- The count of free bytes starts again. -/
theorem Sweeper.Inv.restart {m : Nat} {freeptr : Nat} {ptridx : Int} (hptridx : ptridx = m - 1)
    (hm : m ≤ r.count)
    (hends : ∃ n ≤ r.count, freeptr = chunk i n ∧
      ∀ k, n ≤ k → k < r.count → isMarkedIndex units k = false)
    {after : Bytes} (hframe : ∀ a, Outside i r.count units a → after a = memory a) :
    Sweeper.Inv i r units memory m 0 ⟨after, freeptr, ptridx, 0, false⟩ where
  ptridx := hptridx
  passed := hm
  freesize := by simp
  free := fun k hk hk' => by omega
  start := by simp
  freeptr := fun _ => hends
  frame := hframe

/-- An iteration of the inner loop. -/
theorem Sweeper.step_spec (h : r.Laid i) (returning : Bool) (target : Nat) {m j : Nat}
    {s : Sweeper}
    (hs : s.Inv i r units memory m j) :
    (∃ s', s.step r units returning target = (s', false) ∧ s'.Done i r units memory) ∨
    ∃ s' m' j', s.step r units returning target = (s', true) ∧ m = m' + 1 ∧
      s'.Inv i r units memory m' j' := by
  have hptridx := hs.ptridx
  have hpassed := hs.passed
  have hends := hs.ends h
  have hframe : ∀ a, Outside i r.count units a → s.giveBack r a = memory a :=
    fun a ha => hs.giveBack h ha
  unfold Sweeper.step
  split
  case isTrue hstop =>
      -- A chunk with a mark, or half of the region was passed.
      cases hstart : s.start with
      | true =>
          simp only [hstart, if_true] at hends ⊢
          cases returning with
          | false => exact Or.inl ⟨_, rfl, hends, hframe⟩
          | true =>
              simp only [and_false, if_false, not_true_eq_false]
              split
              case isTrue => exact Or.inl ⟨_, rfl, hends, hframe⟩
              case isFalse hlow =>
                  have hm : m = m - 1 + 1 := by omega
                  exact Or.inr ⟨_, m - 1, 0, rfl, hm, .restart (by omega) (by omega)
                    hends hframe⟩
      | false =>
          simp only [hstart, if_false, Bool.false_eq_true, false_and] at hends ⊢
          split
          case isTrue => exact Or.inl ⟨_, rfl, hends, hframe⟩
          case isFalse hlow =>
              have hm : m = m - 1 + 1 := by omega
              exact Or.inr ⟨_, m - 1, 0, rfl, hm, .restart (by omega) (by omega)
                hends hframe⟩
  case isFalse hfree =>
      -- One more chunk without a mark.
      rw [not_or, Bool.not_eq_true] at hfree
      have hm : 0 < m := by omega
      have hindex : s.ptridx.toNat = m - 1 := by omega
      rw [hindex] at hfree
      refine Or.inr ⟨_, m - 1, j + 1, rfl, by omega, ?_⟩
      refine ⟨by simp only; omega, by omega, ?_, ?_, ?_, hs.freeptr, hs.frame⟩
      · show Int.bmod (s.freesize + r.size) (2 ^ 32) = _
        rw [hs.freesize, h.size, Int.bmod_add_bmod, Nat.cast_add, Int.add_mul]
        simp
      · intro k hk hk'
        by_cases heq : k = m - 1
        · rw [heq]
          exact hfree.2
        · exact hs.free k (by omega) (by omega)
      · intro hstart
        have := hs.start hstart
        omega

/-- The inner loop ends. -/
theorem Sweeper.run_spec (h : r.Laid i) (returning : Bool) (target : Nat) {fuel m j : Nat}
    {s : Sweeper}
    (hs : s.Inv i r units memory m j) (hfuel : m < fuel) :
    (Sweeper.run r units returning target fuel s).Done i r units memory := by
  induction fuel generalizing m j s with
  | zero => exact absurd hfuel (Nat.not_lt_zero m)
  | succ fuel ih =>
      unfold Sweeper.run
      rcases Sweeper.step_spec h returning target hs with
        ⟨s', hs', hdone⟩ | ⟨s', m', j', hs', hm, hinv⟩
      · rw [hs']
        exact hdone
      · rw [hs']
        exact ih hinv (by omega)

/-- The region ends at a chunk, with an empty free list and all chunks to look at. -/
def Region.cut (i n : Nat) (r : Region) : Region :=
  { r with
    freeptr := chunk i n, markstartptr := chunk i 0, markendptr := chunk i n, freelist := 0 }

/-- What the sweep of a region leaves. -/
theorem sweepRegion_spec (hi : i < gcNumRegions) (h : (regions i).Laid i)
    (hcount : 0 < (regions i).count) (units : MarkUnits) (returning : Bool) (memory : Bytes) :
    ∃ n ≤ (regions i).count, (sweepRegion regions i units returning memory).1
        = (regions i).cut i n ∧
      (∀ k, n ≤ k → k < (regions i).count → isMarkedIndex units k = false) ∧
      ∀ a, Outside i (regions i).count units a →
        (sweepRegion regions i units returning memory).2 a = memory a := by
  have hlast : (regions i).freeptr - (regions i).size
      = chunk i ((regions i).count - 1) := by
    have hsucc := chunk_succ i ((regions i).count - 1)
    rw [Nat.sub_add_cancel hcount] at hsucc
    rw [h.freeptr, h.size]
    omega
  have hlt : chunk i ((regions i).count - 1) < chunk i ((regions i).count - 1 + 1) :=
    chunk_lt_iff.mpr (by omega)
  have hrange : chunk i ((regions i).count - 1) < indexRegion (i + 1) := by
    have := h.chunk_le (k := (regions i).count - 1 + 1) (by omega)
    omega
  have hidx := ptridx_eq hi h.toFixed (Nat.le_refl _) hlt hrange (inner_chunk i _)
  rw [← hlast] at hidx
  have hstart : Sweeper.Inv i (regions i) units memory (regions i).count 0
      ⟨memory, (regions i).freeptr, ((regions i).count - 1 : Nat), 0, true⟩ := by
    refine ⟨by simp only; omega, by omega, by simp, fun k hk hk' => by omega, by simp, by simp,
      fun a _ => rfl⟩
  have hfuel : (regions i).count < (regions i).count - 1 + 2 := by omega
  have hrun := Sweeper.run_spec h returning (((regions i).count - 1) / 2) hstart hfuel
  rcases hrun with ⟨⟨n, hn, hfree, hclear⟩, hframe⟩
  have hsweep : sweepRegion regions i units returning memory
      = ((regions i).cut i n,
          (Sweeper.run (regions i) units returning (((regions i).count - 1) / 2 : Nat)
            ((regions i).count - 1 + 2)
            ⟨memory, (regions i).freeptr, ((regions i).count - 1 : Nat), 0, true⟩).memory) := by
    unfold sweepRegion
    simp only [hidx, hfree, h.startptr, chunk_zero, Region.cut]
  rw [hsweep]
  exact ⟨n, hn, rfl, hclear, hframe⟩

/-! ### A full region -/

/-- Once the end of the region is set, it stays. -/
theorem Sweeper.run_freeptr {returning : Bool} {target : Int} {fuel : Nat} {s : Sweeper}
    (hstart : s.start = false) :
    (Sweeper.run r units returning target fuel s).freeptr = s.freeptr := by
  induction fuel generalizing s with
  | zero => rfl
  | succ fuel ih =>
      unfold Sweeper.run Sweeper.step
      simp only [hstart, Bool.false_eq_true, if_false, false_and]
      by_cases hstop : s.ptridx < target ∨ isMarkedIndex units s.ptridx.toNat = true
      · simp only [hstop, if_true]
        by_cases hlow : s.ptridx < target
        · simp only [hlow, if_true]
        · simp only [hlow, if_false]
          exact ih rfl
      · simp only [hstop, if_false]
        exact ih rfl

/-- If the last chunk has a mark, the end of the region is computed from its index. -/
theorem Sweeper.run_last {returning : Bool} {target : Int} {fuel : Nat} {s : Sweeper}
    (hstart : s.start = true) (hmark : isMarkedIndex units s.ptridx.toNat = true) :
    (Sweeper.run r units returning target (fuel + 1) s).freeptr
      = r.startptr + r.size * (s.ptridx + 1).toNat % 2 ^ 32 := by
  unfold Sweeper.run Sweeper.step
  simp only [hstart, hmark, or_true, if_true, true_and]
  cases returning with
  | false => simp
  | true =>
      simp only [not_true_eq_false, if_false]
      by_cases hlow : s.ptridx < target
      · simp only [hlow, if_true]
      · simp only [hlow, if_false]
        rw [Sweeper.run_freeptr rfl]

/-- A region whose chunk size divides the size of a region starts at its first address. -/
theorem regionStart_of_dvd (h : regionSize i ∣ gcRegionSize) : regionStart i = indexRegion i := by
  have hmemory : gcMemory = 2 * gcRegionSize := rfl
  have hdvd : regionSize i ∣ gcMemory + i * gcRegionSize := by
    rw [hmemory]
    exact Nat.dvd_add (Nat.dvd_mul_left_of_dvd h 2) (Nat.dvd_mul_left_of_dvd h i)
  unfold regionStart indexRegion
  simp only [Nat.mod_eq_zero_of_dvd hdvd, ne_eq, not_true_eq_false, if_false]

/-- The last chunk of such a region ends with the region. -/
theorem chunk_last_of_dvd (h : regionSize i ∣ gcRegionSize) :
    0 < gcRegionSize / regionSize i ∧
      chunk i (gcRegionSize / regionSize i - 1) + regionSize i = indexRegion (i + 1) := by
  have hpos : 0 < gcRegionSize / regionSize i :=
    Nat.div_pos (Nat.le_of_dvd (by decide) h) (regionSize_pos i)
  refine ⟨hpos, ?_⟩
  rw [← chunk_succ, Nat.sub_add_cancel hpos, indexRegion_succ, ← regionStart_of_dvd h]
  unfold chunk
  rw [Nat.div_mul_cancel h]

/-- A region that is filled up to its last byte, and whose last chunk has a mark, is empty
after the sweep: the offset of its end does not fit in 32 bits. -/
theorem sweepRegion_full (hi : i < gcNumRegions) (h : (regions i).Fixed i)
    (hdvd : regionSize i ∣ gcRegionSize)
    (hfull : (regions i).freeptr = (regions i).startptr + gcRegionSize)
    (hmark : isMarkedIndex units (gcRegionSize / regionSize i - 1) = true)
    (returning : Bool) (memory : Bytes) :
    (sweepRegion regions i units returning memory).1.freeptr = (regions i).startptr := by
  have hregion : gcRegionSize = 2 ^ 32 := rfl
  have hpos := regionSize_pos i
  have hlast := chunk_last_of_dvd hdvd
  have hsize : regionSize i * (gcRegionSize / regionSize i) = gcRegionSize :=
    Nat.mul_div_cancel' hdvd
  generalize gcRegionSize / regionSize i = n at hlast hsize hmark
  have hptr : (regions i).freeptr - (regions i).size = chunk i (n - 1) := by
    have hend := indexRegion_succ i
    rw [hfull, h.startptr, h.size, regionStart_of_dvd hdvd]
    omega
  have hidx : ptridx regions i ((regions i).freeptr - (regions i).size) = n - 1 := by
    rw [hptr]
    have hlt : chunk i (n - 1) < chunk i (n - 1 + 1) := chunk_lt_iff.mpr (by omega)
    exact ptridx_eq hi h (Nat.le_refl _) hlt (by omega) (inner_chunk i _)
  have hend : (regions i).size * (((n - 1 : Nat) : Int) + 1).toNat % 2 ^ 32 = 0 := by
    have hsucc : (((n - 1 : Nat) : Int) + 1).toNat = n := by omega
    rw [hsucc, h.size, hsize, hregion, Nat.mod_self]
  have hsweep : sweepRegion regions i units returning memory
      = let s := Sweeper.run (regions i) units returning ((n - 1) / 2 : Nat) (n - 1 + 2)
          ⟨memory, (regions i).freeptr, (n - 1 : Nat), 0, true⟩
        ({ regions i with
            freeptr := s.freeptr
            markstartptr := (regions i).startptr
            markendptr := s.freeptr
            freelist := 0 }, s.memory) := by
    unfold sweepRegion
    simp only [hidx]
  rw [hsweep]
  simp only
  rw [Sweeper.run_last rfl hmark, hend, Nat.add_zero]

/-- A region of chunks of 16 bytes that all have marks. -/
theorem sweepRegion_full_sixteen :
    (sweepRegion (fun j => { initRegion j with freeptr := regionStart j + gcRegionSize }) 0
      (fun _ => 2 ^ 64 - 1) true (fun _ => 0)).1.freeptr = regionStart 0 := by
  have h : (initRegion 0).Fixed 0 := initRegion_fixed (by decide)
  have hfixed : ({ initRegion 0 with freeptr := regionStart 0 + gcRegionSize } : Region).Fixed 0 :=
    ⟨h.size, h.invSize, h.startptr, h.endptr, h.startidx⟩
  have hdvd : regionSize 0 ∣ gcRegionSize := by decide
  exact sweepRegion_full (by decide) hfixed hdvd rfl (by decide) true _

/-! ### All regions -/

/-- What `gc_sweep` makes of a region. -/
def Region.Swept (i : Nat) (r r' : Region) : Prop :=
  (r.count = 0 ∧ r' = r) ∨
  ∃ units n, 0 < r.count ∧ r.markptr = some units ∧ n ≤ r.count ∧
    r' = r.cut i n ∧ ∀ k, n ≤ k → k < r.count → isMarkedIndex units k = false

/-- The address is in no chunk without a mark, of the regions below `m`. -/
def OutsideAll (regions : Regions) (m : Nat) (a : Nat) : Prop :=
  ∀ i < m, ∀ k < (regions i).count, ¬ (regions i).isMarked k →
    a < chunk i k ∨ chunk i (k + 1) ≤ a

section Put

variable {s : Sweep} {returning : Bool} {swept : Region × Bytes}

/-- The region that was put back is the swept one. -/
theorem Sweep.put_self : (s.put i returning swept).regions i = swept.1 :=
  Function.update_self i _ _

/-- The other regions are as they were. -/
theorem Sweep.put_of_ne {j : Nat} (h : j ≠ i) :
    (s.put i returning swept).regions j = s.regions j :=
  Function.update_of_ne h _ _

/-- The memory is what the sweep of the region left. -/
theorem Sweep.put_memory : (s.put i returning swept).memory = swept.2 := rfl

end Put

/-- An iteration of `gc_sweep` for a region with chunks. -/
theorem Sweep.chunks_swept (hi : i < gcNumRegions) {s : Sweep} (h : (s.regions i).Laid i)
    (hcount : 0 < (s.regions i).count) (hunits : (s.regions i).markptr = some units)
    (returning : Bool) :
    ∃ s', s.chunks i returning (some units) = .ok s' ∧
      (s.regions i).Swept i (s'.regions i) ∧
      (∀ j, j ≠ i → s'.regions j = s.regions j) ∧
      ∀ a, Outside i (s.regions i).count units a → s'.memory a = s.memory a := by
  rcases sweepRegion_spec hi h hcount units returning s.memory with
    ⟨n, hn, hregion, hclear, hframe⟩
  have hchunks : s.chunks i returning (some units)
      = .ok (s.put i returning (sweepRegion s.regions i units returning s.memory)) := rfl
  refine ⟨_, hchunks, ?_, fun j hj => Sweep.put_of_ne hj, ?_⟩
  · rw [Sweep.put_self, hregion]
    exact Or.inr ⟨units, n, hcount, hunits, hn, rfl, hclear⟩
  · intro a ha
    rw [Sweep.put_memory]
    exact hframe a ha

/-- An address that is in no chunk without a mark, in terms of the region's own marks. -/
theorem outside_of_isMarked (hunits : r.markptr = some units) {a : Nat}
    (h : ∀ k < r.count, ¬ r.isMarked k → a < chunk i k ∨ chunk i (k + 1) ≤ a) :
    Outside i r.count units a := by
  intro k hk hmark
  apply h k hk
  rintro ⟨units', hunits', hset⟩
  rw [hunits, Option.some.injEq] at hunits'
  rw [← hunits', hmark] at hset
  exact absurd hset (by simp)

/-- An iteration of `gc_sweep`. -/
theorem Sweep.region_spec (hi : i < gcNumRegions) {s : Sweep} (h : (s.regions i).Laid i)
    (hmarks : 0 < (s.regions i).count → (s.regions i).markptr.isSome) :
    ∃ s', s.region i = .ok s' ∧ (s.regions i).Swept i (s'.regions i) ∧
      (∀ j, j ≠ i → s'.regions j = s.regions j) ∧
      ∀ a, (∀ k < (s.regions i).count, ¬ (s.regions i).isMarked k →
        a < chunk i k ∨ chunk i (k + 1) ≤ a) → s'.memory a = s.memory a := by
  have hempty : (s.regions i).freeptr = (s.regions i).startptr ↔ (s.regions i).count = 0 := by
    rw [h.freeptr, h.startptr, ← chunk_zero i]
    constructor
    · intro heq
      by_contra hne
      have := chunk_lt_iff (i := i) |>.mpr (Nat.pos_of_ne_zero hne)
      omega
    · intro heq
      rw [heq]
  unfold Sweep.region
  by_cases hcount : (s.regions i).count = 0
  · rw [if_pos (hempty.mpr hcount)]
    exact ⟨s, rfl, Or.inl ⟨hcount, rfl⟩, fun j _ => rfl, fun a _ => rfl⟩
  · have hpos : 0 < (s.regions i).count := Nat.pos_of_ne_zero hcount
    rcases Option.isSome_iff_exists.mp (hmarks hpos) with ⟨units, hunits⟩
    rw [if_neg (mt hempty.mp hcount), hunits]
    rcases Sweep.chunks_swept hi h hpos hunits (if i = gcBigIdxOffset then true else s.returning)
      with ⟨s', hs', hswept, hrest, hframe⟩
    exact ⟨s', hs', hswept, hrest, fun a ha => hframe a (outside_of_isMarked hunits ha)⟩

/-- The iterations for the first regions. -/
theorem sweep_range (hready : regions.Ready) (memory : Bytes) (returning : Bool) {m : Nat}
    (hm : m ≤ gcNumRegions) :
    ∃ s, (List.range m).foldlM Sweep.region ⟨regions, memory, returning⟩ = .ok s ∧
      (∀ i < m, (regions i).Swept i (s.regions i)) ∧
      (∀ i, m ≤ i → s.regions i = regions i) ∧
      ∀ a, OutsideAll regions m a → s.memory a = memory a := by
  induction m with
  | zero =>
      exact ⟨_, rfl, fun i hi => absurd hi (Nat.not_lt_zero i), fun i _ => rfl, fun a _ => rfl⟩
  | succ m ih =>
      rcases ih (by omega) with ⟨s, hs, hswept, hrest, hframe⟩
      have heq : s.regions m = regions m := hrest m (Nat.le_refl m)
      have hstep := Sweep.region_spec (i := m) (by omega) (s := s)
        (heq ▸ hready.laid m (by omega)) (heq ▸ hready.marks m (by omega))
      rw [heq] at hstep
      rcases hstep with ⟨s', hs', hswept', hrest', hframe'⟩
      refine ⟨s', ?_, ?_, ?_, ?_⟩
      · rw [List.range_succ, List.foldlM_append, hs]
        simp [bind, Except.bind, pure, Except.pure, hs']
      · intro i hi
        by_cases heq : i = m
        · rw [heq]
          exact hswept'
        · rw [hrest' i heq]
          exact hswept i (by omega)
      · intro i hi
        rw [hrest' i (by omega)]
        exact hrest i (by omega)
      · intro a ha
        rw [hframe' a (ha m (Nat.lt_succ_self m))]
        exact hframe a fun i hi => ha i (by omega)

/-- What `gc_sweep` leaves: each region ends after its last mark or earlier, the free lists
are empty, and bytes outside of chunks without a mark are the same. -/
theorem Heap.sweep_spec (gc : Heap) (hready : gc.regions.Ready) :
    ∃ gc', gc.sweep = .ok gc' ∧
      (∀ i < gcNumRegions, (gc.regions i).Swept i (gc'.regions i)) ∧
      (∀ a, OutsideAll gc.regions gcNumRegions a → gc'.memory a = gc.memory a) ∧
      gc'.roots = gc.roots ∧ gc'.enabled = gc.enabled := by
  rcases sweep_range hready gc.memory (decide ((gc.sweepCount + 1) % gcReturnSweep = 0))
      (Nat.le_refl gcNumRegions) with ⟨s, hs, hswept, -, hframe⟩
  refine ⟨{ gc with regions := s.regions, memory := s.memory, sweepCount := gc.sweepCount + 1 },
    ?_, hswept, hframe, rfl, rfl⟩
  unfold Heap.sweep
  simp only [hs]
  rfl

end Aike.Gc
