import Mathlib.Logic.Relation

/-!
# `Aike.Lib.Simulation`: a deterministic machine that follows an evaluation

A machine is a function `step` that answers the next state, or nothing in a
state where it halts. An evaluation that is run on a number of rounds (`fuel`) answers a
result, or nothing when the rounds are used up. `Follows` compares the two: with a
result, the machine runs to a state that fits it. Without one, the machine takes at
least `fuel` steps. So the machine halts exactly when some number of rounds is enough.

* `Follows.bind`: comparisons are composed as evaluations are.
* `Follows.head`, `Follows.round`: a step of the machine by itself, and a step that
  goes with a round.
* `Matches.reaches_iff`, `Matches.fits_of_star`: the machine comes to the state where
  it is done exactly when the evaluation comes to a result, and that state fits it.
-/

set_option autoImplicit false

namespace Simulation

variable {σ α β : Type} {step : σ → Option σ} {m m' m₁ m₂ : σ} {n k : Nat}

/-- The machine runs from the first state to the second in some number of steps. -/
abbrev Star (step : σ → Option σ) : σ → σ → Prop :=
  Relation.ReflTransGen fun m m' => step m = some m'

/-- The machine takes `n` steps. -/
def RunsFor (step : σ → Option σ) : Nat → σ → Prop
  | 0, _ => True
  | n + 1, m => ∃ m', step m = some m' ∧ RunsFor step n m'

/-- A machine that takes some steps takes fewer as well. -/
theorem RunsFor.of_le (h : RunsFor step n m) (hk : k ≤ n) : RunsFor step k m := by
  induction k generalizing n m with
  | zero => trivial
  | succ k ih =>
      cases n with
      | zero => exact absurd hk (Nat.not_succ_le_zero k)
      | succ n =>
          obtain ⟨m', hstep, h⟩ := h
          exact ⟨m', hstep, ih h (Nat.le_of_succ_le_succ hk)⟩

/-- Steps before a run make it longer. -/
theorem RunsFor.of_star (hm : Star step m m') (h : RunsFor step n m') : RunsFor step n m := by
  induction hm using Relation.ReflTransGen.head_induction_on with
  | refl => exact h
  | head hstep _ ih =>
      have hlonger : RunsFor step (n + 1) _ := ⟨_, hstep, ih⟩
      exact hlonger.of_le (Nat.le_succ n)

/-- A machine that can halt does not run for every number of steps. -/
theorem exists_not_runsFor (hm : Star step m m') (hhalt : step m' = none) :
    ∃ n, ¬ RunsFor step n m := by
  induction hm using Relation.ReflTransGen.head_induction_on with
  | refl =>
      refine ⟨1, ?_⟩
      rintro ⟨m'', hstep, -⟩
      rw [hhalt] at hstep
      cases hstep
  | head hstep _ ih =>
      obtain ⟨n, hn⟩ := ih
      refine ⟨n + 1, ?_⟩
      rintro ⟨m'', hstep', h⟩
      rw [hstep] at hstep'
      cases hstep'
      exact hn h

/-- The state in which a machine halts is determined. -/
theorem halt_unique (h₁ : Star step m m₁) (hhalt₁ : step m₁ = none) (h₂ : Star step m m₂)
    (hhalt₂ : step m₂ = none) : m₁ = m₂ := by
  induction h₁ using Relation.ReflTransGen.head_induction_on with
  | refl =>
      rcases Relation.ReflTransGen.cases_head h₂ with h | ⟨_, hstep, -⟩
      · exact h
      · rw [hhalt₁] at hstep
        cases hstep
  | head hstep _ ih =>
      rcases Relation.ReflTransGen.cases_head h₂ with rfl | ⟨_, hstep', h₂⟩
      · rw [hhalt₂] at hstep
        cases hstep
      · rw [hstep] at hstep'
        cases hstep'
        exact ih h₂

/-- The machine follows an evaluation with `n` rounds: it runs to a state that fits
the result, or takes `n` steps when there is none. -/
def Follows (step : σ → Option σ) (n : Nat) (x : Option α) (m : σ) (fits : α → σ → Prop) :
    Prop :=
  match x with
  | some a => ∃ m', Star step m m' ∧ fits a m'
  | none => RunsFor step n m

namespace Follows

variable {fits : α → σ → Prop} {x : Option α}

/-- A machine that is where it should be follows a result that is there. -/
theorem pure {a : α} (h : fits a m) : Follows step n (some a) m fits :=
  ⟨m, .refl, h⟩

/-- What is known of the last state may be weakened. -/
theorem mono {fits' : α → σ → Prop} (h : Follows step n x m fits)
    (hmono : ∀ a m', fits a m' → fits' a m') : Follows step n x m fits' := by
  cases x with
  | none => exact h
  | some a =>
      obtain ⟨m', hm, hfits⟩ := h
      exact ⟨m', hm, hmono a m' hfits⟩

/-- A machine that gets to a state from which it follows an evaluation follows it
from where it started. -/
theorem star (hm : Star step m m') (h : Follows step n x m' fits) : Follows step n x m fits := by
  cases x with
  | none => exact RunsFor.of_star hm h
  | some a =>
      obtain ⟨m'', hm', hfits⟩ := h
      exact ⟨m'', hm.trans hm', hfits⟩

/-- Steps of the machine after the evaluation has come to its result. -/
theorem tail {fits' : α → σ → Prop} (h : Follows step n x m fits)
    (hf : ∀ a m', fits a m' → ∃ m'', Star step m' m'' ∧ fits' a m'') :
    Follows step n x m fits' := by
  cases x with
  | none => exact h
  | some a =>
      obtain ⟨m', hm, hfits⟩ := h
      obtain ⟨m'', hm', hfits'⟩ := hf a m' hfits
      exact ⟨m'', hm.trans hm', hfits'⟩

/-- A step of the machine that the evaluation does not count. -/
theorem head (hstep : step m = some m') (h : Follows step n x m' fits) :
    Follows step n x m fits := h.star (.single hstep)

/-- A step of the machine that goes with a round. -/
theorem round (hstep : step m = some m') (h : Follows step n x m' fits) :
    Follows step (n + 1) x m fits := by
  cases x with
  | none => exact ⟨m', hstep, h⟩
  | some a =>
      obtain ⟨m'', hm, hfits⟩ := h
      exact ⟨m'', .head hstep hm, hfits⟩

/-- A machine that follows an evaluation for some rounds does so for fewer. -/
theorem of_le (h : Follows step n x m fits) (hk : k ≤ n) : Follows step k x m fits := by
  cases x with
  | none => exact RunsFor.of_le h hk
  | some a => exact h

/-- A machine that follows one evaluation, and then the next from wherever the first one
ends, follows both in order. If one of them has no result, the steps are taken there. -/
theorem bind {f : α → Option β} {fits' : β → σ → Prop} (h : Follows step n x m fits)
    (hf : ∀ a m', fits a m' → Follows step n (f a) m' fits') :
    Follows step n (x >>= f) m fits' := by
  cases x with
  | none => exact h
  | some a =>
      obtain ⟨m', hm, hfits⟩ := h
      exact (hf a m' hfits).star hm

end Follows

/-- A machine that follows an evaluation, and comes to a state with `done`, where it
halts, when there is a result. -/
structure Matches (step : σ → Option σ) (m : σ) (eval : Nat → Option α) (done : σ → Prop)
    (fits : α → σ → Prop) : Prop where
  follows : ∀ n, Follows step n (eval n) m fits
  fits_done : ∀ a m', fits a m' → done m'
  done_halts : ∀ m', done m' → step m' = none

namespace Matches

variable {eval : Nat → Option α} {done : σ → Prop} {fits : α → σ → Prop}

/-- The machine is done at some time exactly when the evaluation has a result. -/
theorem reaches_iff (h : Matches step m eval done fits) :
    (∃ m', Star step m m' ∧ done m') ↔ ∃ n, (eval n).isSome := by
  constructor
  · rintro ⟨m', hm, hdone⟩
    obtain ⟨n, hn⟩ := exists_not_runsFor hm (h.done_halts m' hdone)
    refine ⟨n, ?_⟩
    cases heval : eval n with
    | some a => rfl
    | none =>
        have hruns := h.follows n
        rw [heval] at hruns
        exact absurd hruns hn
  · rintro ⟨n, hsome⟩
    obtain ⟨a, heval⟩ := Option.isSome_iff_exists.mp hsome
    have hruns := h.follows n
    rw [heval] at hruns
    obtain ⟨m', hm, hfits⟩ := hruns
    exact ⟨m', hm, h.fits_done a m' hfits⟩

/-- The state in which the machine is done fits the result. -/
theorem fits_of_star (h : Matches step m eval done fits) {a : α} (heval : eval n = some a)
    (hm : Star step m m') (hdone : done m') : fits a m' := by
  have hruns := h.follows n
  rw [heval] at hruns
  obtain ⟨m'', hm', hfits⟩ := hruns
  have hhalt := h.done_halts m'' (h.fits_done a m'' hfits)
  rw [halt_unique hm (h.done_halts m' hdone) hm' hhalt]
  exact hfits

end Matches

end Simulation
