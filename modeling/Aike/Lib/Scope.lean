import Mathlib.Data.List.Basic

/-!
# `Aike.Lib.Scope`: bindings in force

A walk through a program with nested scopes is a sequence of events: scopes are
entered and left, things are bound, and bound things are used. A binding is in
force at a later event when the scope that it was made in has not been left in
between (`inForce`). Events that leave the scopes they enter, and no others, add
their own bindings to those in force (`Balanced`).

Sequences of past events have the latest event first.
-/

set_option autoImplicit false

namespace Scope

/-- What happens on a walk. `β` is what is bound, `ι` how it is used. -/
inductive Event (ι β : Type)
  | enter
  | leave
  | bind (b : β)
  | use (u : ι)
  deriving DecidableEq

variable {ι β : Type}

/-- The bindings, latest first, of the scope `depth` levels further out than
the end of `past`, and of the scopes around it. -/
def inForce : Nat → List (Event ι β) → List β
  | _, [] => []
  | depth, .leave :: past => inForce (depth + 1) past
  | depth, .enter :: past => inForce (depth - 1) past
  | 0, .bind b :: past => b :: inForce 0 past
  | depth + 1, .bind _ :: past => inForce (depth + 1) past
  | depth, .use _ :: past => inForce depth past

/-- The bindings in force at the end of some events, latest first. -/
def visible (events : List (Event ι β)) : List β := inForce 0 events.reverse

/-- Events in a scope of their own. -/
def inScope (events : List (Event ι β)) : List (Event ι β) := .enter :: (events ++ [.leave])

/-- The state after some events that come after `past`. A use changes it, as the
bindings in force say. -/
def run {σ : Type} (step : List β → ι → σ → σ) :
    List (Event ι β) → List (Event ι β) → σ → σ
  | _, [], s => s
  | past, .use u :: events, s => run step (.use u :: past) events (step (inForce 0 past) u s)
  | past, event :: events, s => run step (event :: past) events s

/-- A run over two lists of events goes on with the second where the first one ends, with
the first ones in its past. -/
theorem run_append {σ : Type} (step : List β → ι → σ → σ) (past es₁ es₂ : List (Event ι β))
    (s : σ) :
    run step past (es₁ ++ es₂) s = run step (es₁.reverse ++ past) es₂ (run step past es₁ s) := by
  induction es₁ generalizing past s with
  | nil => rfl
  | cons e es₁ ih =>
      rw [List.cons_append, List.reverse_cons, List.append_assoc, List.singleton_append]
      cases e with
      | use u => exact ih _ _
      | _ => exact ih _ _

/-- The events leave the scopes that they enter, and no others. -/
def Balanced (events : List (Event ι β)) : Prop :=
  (∀ past, inForce 0 (events.reverse ++ past) = visible events ++ inForce 0 past) ∧
    ∀ depth past, inForce (depth + 1) (events.reverse ++ past) = inForce (depth + 1) past

namespace Balanced

variable {es es₁ es₂ : List (Event ι β)}

/-- No events enter no scope. -/
theorem nil : Balanced ([] : List (Event ι β)) := ⟨fun _ => rfl, fun _ _ => rfl⟩

/-- To bind a name leaves no scope. -/
theorem bind (b : β) : Balanced ([.bind b] : List (Event ι β)) :=
  ⟨fun _ => rfl, fun _ _ => rfl⟩

/-- To use a name leaves no scope, and binds nothing. -/
theorem use (u : ι) : Balanced ([.use u] : List (Event ι β)) := by
  refine ⟨fun _ => rfl, fun depth past => ?_⟩
  rw [List.reverse_singleton, List.singleton_append, inForce]

/-- Balanced events one after another are balanced. -/
theorem append (h₁ : Balanced es₁) (h₂ : Balanced es₂) : Balanced (es₁ ++ es₂) := by
  have hvisible : visible (es₁ ++ es₂) = visible es₂ ++ visible es₁ := by
    have h := h₂.1 (es₁.reverse ++ [])
    rw [List.append_nil] at h
    rw [visible, List.reverse_append, h, visible, visible]
  constructor
  · intro past
    rw [List.reverse_append, List.append_assoc, h₂.1, h₁.1, hvisible, List.append_assoc]
  · intro depth past
    rw [List.reverse_append, List.append_assoc, h₂.2, h₁.2]

/-- A use may come before balanced events. -/
theorem use_cons (u : ι) (h : Balanced es) : Balanced (.use u :: es) := (use u).append h

/-- Some bindings one after another leave no scope. -/
theorem binds (bs : List β) : Balanced (bs.map Event.bind : List (Event ι β)) := by
  induction bs with
  | nil => exact nil
  | cons b bs ih => exact (bind b).append ih

/-- A scope leaves everything as it was. -/
theorem inScope_eq (h : Balanced es) (depth : Nat) (past : List (Event ι β)) :
    inForce depth ((inScope es).reverse ++ past) = inForce depth past := by
  rw [inScope, List.reverse_cons, List.reverse_append, List.reverse_singleton,
    List.append_assoc, List.append_assoc, List.singleton_append, List.singleton_append]
  show inForce depth (.leave :: (es.reverse ++ .enter :: past)) = _
  rw [inForce, h.2, inForce, Nat.add_sub_cancel]

/-- Balanced events in a scope of their own are balanced, and none of their bindings is in
force afterwards. -/
theorem inScope (h : Balanced es) : Balanced (inScope es) := by
  have hvisible : visible (Scope.inScope es) = [] := by
    have := h.inScope_eq 0 []
    rwa [List.append_nil] at this
  constructor
  · intro past
    rw [h.inScope_eq, hvisible, List.nil_append]
  · exact fun depth past => h.inScope_eq (depth + 1) past

end Balanced

end Scope
