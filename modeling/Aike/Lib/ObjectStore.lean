import Mathlib.Data.Set.Basic
import Mathlib.Logic.Function.Basic

/-!
# `Aike.Lib.ObjectStore`: what a heap is for

A store has objects, and each has contents. `Step` is what can happen to it: an object is
allocated, given back or written to, or objects are dropped. An allocation can drop objects
first. What an allocation gives is an object that the store does not have then.

`Run.untouched`: the contents of an object are the same after a run that neither allocates
the object nor writes to it, if the store still has it.
-/

set_option autoImplicit false

namespace ObjectStore

variable {α β : Type*}

/-- The contents of the objects that there are. -/
abbrev Store (α β : Type*) := α → Option β

/-- What happens in a step. -/
inductive Event (α : Type*)
  | alloc (o : α)
  | free (o : α)
  | drop
  | write (objects : Set α)

/-- The step can change the contents of the object. -/
def Event.Touches (o : α) : Event α → Prop
  | .alloc p => p = o
  | .free _ => False
  | .drop => False
  | .write objects => o ∈ objects

/-- `s'` has the objects of `s` that are in `keep`. -/
def Restricts (keep : Set α) (s s' : Store α β) : Prop :=
  (∀ o ∈ keep, s' o = s o) ∧ ∀ o, o ∉ keep → s' o = none

/-- A step of a store. -/
inductive Step : Store α β → Event α → Store α β → Prop
  | alloc {s s₁ s' : Store α β} (keep : Set α) (o : α) (hkeep : Restricts keep s s₁)
      (hnew : s₁ o = none) (hsome : (s' o).isSome) (hrest : ∀ p, p ≠ o → s' p = s₁ p) :
      Step s (.alloc o) s'
  | free {s s' : Store α β} (o : α) (hsome : (s o).isSome) (hnone : s' o = none)
      (hrest : ∀ p, p ≠ o → s' p = s p) : Step s (.free o) s'
  | drop {s s' : Store α β} (keep : Set α) (hkeep : Restricts keep s s') : Step s .drop s'
  | write {s s' : Store α β} (objects : Set α) (hsame : ∀ o, (s' o).isSome = (s o).isSome)
      (hrest : ∀ o, o ∉ objects → s' o = s o) : Step s (.write objects) s'

/-- A run, with what happens in it. -/
inductive Run : Store α β → List (Event α) → Store α β → Prop
  | refl (s : Store α β) : Run s [] s
  | step {s s' s'' : Store α β} {e : Event α} {es : List (Event α)} (h : Step s e s')
      (hrest : Run s' es s'') : Run s (e :: es) s''

variable {s s' s'' : Store α β} {o : α} {e : Event α} {es es' : List (Event α)}

/-- A step that does not touch an object leaves it as it is, or without it. -/
theorem Step.untouched (h : Step s e s') (ho : ¬ e.Touches o) : s' o = s o ∨ s' o = none := by
  cases h with
  | alloc keep p hkeep hnew hsome hrest =>
      have hne : o ≠ p := fun heq => ho heq.symm
      rw [hrest o hne]
      by_cases hmem : o ∈ keep
      · exact Or.inl (hkeep.1 o hmem)
      · exact Or.inr (hkeep.2 o hmem)
  | free p hsome hnone hrest =>
      by_cases heq : o = p
      · rw [heq]
        exact Or.inr hnone
      · exact Or.inl (hrest o heq)
  | drop keep hkeep =>
      by_cases hmem : o ∈ keep
      · exact Or.inl (hkeep.1 o hmem)
      · exact Or.inr (hkeep.2 o hmem)
  | write objects hsame hrest => exact Or.inl (hrest o ho)

/-- An object that is not there does not come back by steps that do not touch it. -/
theorem Step.absent (h : Step s e s') (ho : ¬ e.Touches o) (hnone : s o = none) : s' o = none := by
  rcases h.untouched ho with heq | hnone'
  · rw [heq, hnone]
  · exact hnone'

/-- What was not there before a run that does not touch it is not there afterwards. -/
theorem Run.absent (h : Run s es s') (ho : ∀ e ∈ es, ¬ e.Touches o) (hnone : s o = none) :
    s' o = none := by
  induction h with
  | refl s => exact hnone
  | step h hrest ih =>
      refine ih (fun e he => ho e (List.mem_cons_of_mem _ he)) ?_
      exact h.absent (ho _ List.mem_cons_self) hnone

/-- After a run that does not touch an object, it is as it was, or it is not there. -/
theorem Run.untouched (h : Run s es s') (ho : ∀ e ∈ es, ¬ e.Touches o) :
    s' o = s o ∨ s' o = none := by
  induction h with
  | refl s => exact Or.inl rfl
  | step h hrest ih =>
      have hes := fun e he => ho e (List.mem_cons_of_mem _ he)
      rcases h.untouched (ho _ List.mem_cons_self) with heq | hnone
      · rw [← heq]
        exact ih hes
      · exact Or.inr (hrest.absent hes hnone)

end ObjectStore
