import Mathlib.Logic.Relation
import Mathlib.Tactic.ByContra

/-!
# `Aike.Lib.Calls`: functions that call each other

A `Call α` is a function with its arguments. A system of such functions is given by
`body`, which says what each of them does when `h` answers the calls it makes. `run`
solves the system if it is its own body.

`Enters` says that a function comes to a call: it can tell whether that call is
answered by an error that nothing else ends with. A `Spec` has a condition for each
call and for its result, and an order on calls. If every body keeps to it, with calls
below its own (`BodyMeets`), then

* `run_meets`: every call ends as the spec says,
* `enters_lt`: a function only comes to calls below its own, at their conditions,
* `path_lt`: so each path of calls goes down.
-/

set_option autoImplicit false

namespace Calls

universe u

variable {ρ σ ε : Type} {Call : Type → Type u} {α : Type}

/-- What answers the calls: a function of an environment and a state. -/
abbrev Handler (Call : Type → Type u) (ρ σ ε : Type) : Type (max 1 u) :=
  (α : Type) → Call α → ρ → σ → Except ε (α × σ)

/-- A call in a state. -/
structure Visit (Call : Type → Type u) (σ : Type) : Type (max 1 u) where
  result : Type
  call : Call result
  state : σ

open Classical in
/-- The handler that ends with `e` at one visit. -/
noncomputable def mark (h : Handler Call ρ σ ε) (v : Visit Call σ) (e : ε) :
    Handler Call ρ σ ε := fun α F r s =>
  if (⟨α, F, s⟩ : Visit Call σ) = v then .error e else h α F r s

/-- A handler with a mark at one visit answers all others as before. -/
theorem mark_ne {h : Handler Call ρ σ ε} {v v' : Visit Call σ} {e : ε} (r : ρ) (hne : v' ≠ v) :
    mark h v e v'.result v'.call r v'.state = h v'.result v'.call r v'.state := if_neg hne

/-- The body of a visit comes to another visit. -/
def Enters (body : Handler Call ρ σ ε → Handler Call ρ σ ε) (run : Handler Call ρ σ ε) (e : ε)
    (r : ρ) (v v' : Visit Call σ) : Prop :=
  body (mark run v' e) v.result v.call r v.state = .error e

/-- A run ends in `Q`, or with an error that is allowed. -/
def Ends (allows : ε → Prop) (m : Except ε (α × σ)) (Q : α → σ → Prop) : Prop :=
  match m with
  | .ok (a, s) => Q a s
  | .error e => allows e

/-- What holds at calls and at their results, which errors are allowed, and an order
that has no infinite descent. -/
structure Spec (Call : Type → Type u) (σ ε : Type) where
  pre : Visit Call σ → Prop
  post : (v : Visit Call σ) → v.result → σ → Prop
  allows : ε → Prop
  lt : Visit Call σ → Visit Call σ → Prop
  lt_wf : WellFounded lt
  lt_trans : ∀ {v₁ v₂ v₃}, lt v₁ v₂ → lt v₂ v₃ → lt v₁ v₃

section Spec

variable (S : Spec Call σ ε) {body : Handler Call ρ σ ε → Handler Call ρ σ ε}
  {run : Handler Call ρ σ ε} {r : ρ} {e : ε} {v v' : Visit Call σ}

/-- What a visit ends with is what the spec says. -/
def Spec.Holds (h : Handler Call ρ σ ε) (r : ρ) (v : Visit Call σ) : Prop :=
  Ends S.allows (h v.result v.call r v.state) (S.post v)

/-- A body meets the spec if the calls below do. -/
def BodyMeets (body : Handler Call ρ σ ε → Handler Call ρ σ ε) (r : ρ) : Prop :=
  ∀ h v, S.pre v → (∀ v', S.pre v' → S.lt v' v → S.Holds h r v') → S.Holds (body h) r v

variable {S}

/-- Every call ends as the spec says, by induction along the order. -/
theorem run_meets (hbody : BodyMeets S body r) (hrun : body run = run) (hv : S.pre v) :
    S.Holds run r v := by
  induction v using S.lt_wf.induction with
  | _ v ih =>
      have h : S.Holds (body run) r v := hbody run v hv fun v' hv' hlt => ih v' hlt hv'
      rw [hrun] at h
      exact h

/-- A body that comes to a mark has made a call there. Were this call not one below
its own, no call it may make would see the mark. -/
theorem enters_lt (hbody : BodyMeets S body r) (hrun : body run = run) (he : ¬ S.allows e)
    (hv : S.pre v) (h : Enters body run e r v v') : S.pre v' ∧ S.lt v' v := by
  by_contra hnot
  have hmarked : S.Holds (body (mark run v' e)) r v := by
    refine hbody _ v hv fun v'' hpre hlt => ?_
    have hne : v'' ≠ v' := by
      rintro rfl
      exact hnot ⟨hpre, hlt⟩
    show Ends S.allows (mark run v' e v''.result v''.call r v''.state) _
    rw [mark_ne r hne]
    exact run_meets hbody hrun hpre
  unfold Spec.Holds Ends at hmarked
  rw [h] at hmarked
  exact he hmarked

/-- What a run comes to fulfils what is needed there, if the start does. -/
theorem reaches_pre (hbody : BodyMeets S body r) (hrun : body run = run) (he : ¬ S.allows e)
    (hv : S.pre v) (h : Relation.ReflTransGen (Enters body run e r) v v') : S.pre v' := by
  induction h with
  | refl => exact hv
  | tail _ hlast ih => exact (enters_lt hbody hrun he ih hlast).1

/-- What a run comes to is less than where it started. So no visit is come to from itself. -/
theorem path_lt (hbody : BodyMeets S body r) (hrun : body run = run) (he : ¬ S.allows e)
    (hv : S.pre v) (h : Relation.TransGen (Enters body run e r) v v') : S.lt v' v := by
  induction h with
  | single hlast => exact (enters_lt hbody hrun he hv hlast).2
  | tail hpath hlast ih =>
      have hpre := reaches_pre hbody hrun he hv hpath.to_reflTransGen
      exact S.lt_trans (enters_lt hbody hrun he hpre hlast).2 ih

end Spec

end Calls
