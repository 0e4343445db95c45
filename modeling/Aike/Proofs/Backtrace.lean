import Aike.Model.Backtrace

/-!
# `Aike.Proofs.Backtrace`: a backtrace stays inside the stack

The sum in `isReadable` wraps only for an address in the last 16 bytes of the address
space, and only if it is not below the stack by that: the stack has to start at address 0
(`isReadable_inside`). Everywhere else the two words at the frame pointer are inside. The
loop ends because the frame pointer grows.
-/

set_option autoImplicit false

namespace Aike

/-- The word at the address is inside of the region. -/
def InRegion (stack stackSize a : Word) : Prop :=
  stack.toNat ≤ a.toNat ∧ a.toNat + 8 ≤ stack.toNat + stackSize.toNat

/-- The region starts at address 0, and the word is one of the last two words of the
address space. -/
def AtTheEnd (stack a : Word) : Prop :=
  stack = 0 ∧ 2 ^ 64 - 16 ≤ a.toNat

variable {memory : Word → Word} {stack stackSize ip fp : Word}

/-- An aligned address is a multiple of 16. -/
theorem aligned_mod (h : fp &&& (stackAlignment - 1) = 0) : fp.toNat % 16 = 0 := by
  have hmask : (fp &&& (stackAlignment - 1)).toNat = fp.toNat &&& (2 ^ 4 - 1) := rfl
  rw [Nat.and_two_pow_sub_one_eq_mod, h] at hmask
  exact hmask.symm

/-- What `isReadable` says of the two words at an aligned address. -/
theorem isReadable_inside (hreadable : isReadable stack stackSize fp (8 * 2) = true)
    (haligned : fp &&& (stackAlignment - 1) = 0) :
    ∀ a ∈ [fp + 8, fp], InRegion stack stackSize a ∨ AtTheEnd stack a := by
  have hmod := aligned_mod haligned
  obtain ⟨hle, hsize⟩ : stack ≤ fp ∧ fp - stack + 8 * 2 ≤ stackSize := by
    simpa [isReadable] using hreadable
  rw [BitVec.le_def] at hle hsize
  have hsub : (fp - stack).toNat = fp.toNat - stack.toNat := BitVec.toNat_sub_of_le hle
  have hsum : (fp - stack + 8 * 2).toNat = (fp.toNat - stack.toNat + 16) % 2 ^ 64 := by
    rw [BitVec.toNat_add, hsub]
    rfl
  have hnext : (fp + 8).toNat = (fp.toNat + 8) % 2 ^ 64 := BitVec.toNat_add fp 8
  have hlt := fp.isLt
  -- The sum wraps exactly if the address is 16 below the end of the address space and the
  -- stack starts at 0; an aligned address is then the last one.
  by_cases hwraps : 2 ^ 64 ≤ fp.toNat - stack.toNat + 16
  case pos =>
    have hstack : stack = 0 := BitVec.eq_of_toNat_eq (by simp; omega)
    intro a ha
    right
    refine ⟨hstack, ?_⟩
    simp only [List.mem_cons, List.not_mem_nil, or_false] at ha
    rcases ha with rfl | rfl <;> omega
  case neg =>
    intro a ha
    left
    unfold InRegion
    simp only [List.mem_cons, List.not_mem_nil, or_false] at ha
    rcases ha with rfl | rfl <;> omega

/-- One iteration ends the loop, or goes on with a frame pointer that is greater. -/
theorem backtraceDumpFrom_step (fp : Word) :
    ∃ reads, (∀ a ∈ reads, InRegion stack stackSize a ∨ AtTheEnd stack a) ∧
      ((∀ fuel, backtraceDumpFrom memory stack stackSize (fuel + 1) fp = some ⟨[], reads⟩) ∨
        ∃ nextip nextfp, fp < nextfp ∧
          ∀ fuel, backtraceDumpFrom memory stack stackSize (fuel + 1) fp =
            (backtraceDumpFrom memory stack stackSize fuel nextfp).map
              (Backtrace.after reads nextip)) := by
  by_cases hcond : (isReadable stack stackSize fp (8 * 2) &&
      fp &&& (stackAlignment - 1) = 0) = true
  case neg =>
    -- the loop ends before it reads anything
    refine ⟨[], by simp, .inl fun fuel => ?_⟩
    rw [backtraceDumpFrom, if_neg hcond]
  obtain ⟨hreadable, haligned⟩ : isReadable stack stackSize fp (8 * 2) = true ∧
      fp &&& (stackAlignment - 1) = 0 := by
    simpa using hcond
  refine ⟨[fp + 8, fp], isReadable_inside hreadable haligned, ?_⟩
  -- both words are read before the frame pointer is compared
  by_cases hend : memory (fp + 8) = 0 ∨ memory fp ≤ fp
  · left
    intro fuel
    rw [backtraceDumpFrom, if_pos hcond]
    exact if_pos hend
  · right
    have hlt : fp < memory fp := BitVec.not_le.mp fun hle => hend (.inr hle)
    refine ⟨memory (fp + 8), memory fp, hlt, fun fuel => ?_⟩
    rw [backtraceDumpFrom, if_pos hcond]
    exact if_neg hend

/-- The loop ends. The induction is on how far the frame pointer can grow. -/
theorem backtraceDumpFrom_inside (n : Nat) (fp : Word) (hn : 2 ^ 64 - fp.toNat ≤ n) :
    ∃ trace, (∀ fuel, n ≤ fuel →
        backtraceDumpFrom memory stack stackSize fuel fp = some trace) ∧
      ∀ a ∈ trace.reads, InRegion stack stackSize a ∨ AtTheEnd stack a := by
  induction n generalizing fp with
  | zero =>
      -- an address is below `2 ^ 64`, so there is always some distance left
      have hlt := fp.isLt
      omega
  | succ n ih =>
      obtain ⟨reads, hreads, hstop | ⟨nextip, nextfp, hlt, hnext⟩⟩ :=
        @backtraceDumpFrom_step memory stack stackSize fp
      · refine ⟨⟨[], reads⟩, fun fuel hfuel => ?_, hreads⟩
        obtain ⟨fuel, rfl⟩ := Nat.exists_eq_add_of_le' hfuel
        exact hstop (fuel + n)
      -- the frame pointer is closer to the end of the address space
      · rw [BitVec.lt_def] at hlt
        obtain ⟨rest, hrest, hinside⟩ := ih nextfp (by omega)
        refine ⟨rest.after reads nextip, fun fuel hfuel => ?_, fun a ha => ?_⟩
        · obtain ⟨fuel, rfl⟩ := Nat.exists_eq_add_of_le' hfuel
          show backtraceDumpFrom memory stack stackSize ((fuel + n) + 1) fp = _
          rw [hnext, hrest (fuel + n) (Nat.le_add_left n fuel)]
          rfl
        · rcases List.mem_append.mp ha with h | h
          · exact hreads a h
          · exact hinside a h

/-- A backtrace ends, and every word that it reads through the frame pointer is inside of
the stack, or is one of the last two words of the address space while the stack starts at
address 0. -/
theorem backtraceDump_inside (memory : Word → Word) (stack stackSize ip fp : Word) :
    ∃ trace, (∀ fuel, 2 ^ 64 ≤ fuel →
        backtraceDump memory stack stackSize ip fp fuel = some trace) ∧
      ∀ a ∈ trace.reads, InRegion stack stackSize a ∨ AtTheEnd stack a := by
  obtain ⟨rest, hrest, hinside⟩ :=
    @backtraceDumpFrom_inside memory stack stackSize (2 ^ 64) fp (Nat.sub_le _ _)
  refine ⟨rest.after [] ip, fun fuel hfuel => ?_, hinside⟩
  unfold backtraceDump
  rw [hrest fuel hfuel]
  rfl

/-- An empty stack at address 0, and a frame pointer 16 bytes below the end of the address
space: the sum in `isReadable` is 0. -/
theorem backtraceDump_outside :
    ∃ trace, backtraceDump (fun _ => 0) 0 0 0 0xfffffffffffffff0 1 = some trace ∧
      ¬ ∀ a ∈ trace.reads, InRegion 0 0 a := by
  refine ⟨⟨[0], [0xfffffffffffffff8, 0xfffffffffffffff0]⟩, by decide, fun h => ?_⟩
  exact absurd (h _ List.mem_cons_self).2 (by decide)

/-- The stack of a coroutine does not start at address 0: there is a page below it. -/
theorem stackCreate_ne_zero {ret : Word} (hret : ret ≠ 0)
    (hfits : ret.toNat + kPageSize.toNat < 2 ^ 64) : stackCreate ret ≠ 0 := by
  unfold stackCreate
  rw [if_neg hret]
  intro heq
  have hsum : (ret + kPageSize).toNat = ret.toNat + kPageSize.toNat :=
    BitVec.toNat_add_of_lt hfits
  rw [heq] at hsum
  have hpage : kPageSize.toNat = 4096 := rfl
  have hzero : (0 : Word).toNat = 0 := rfl
  omega

end Aike
