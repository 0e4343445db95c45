import Aike.Lib.Flow.Basic
import Mathlib.Data.Set.Insert

/-!
# `Aike.Lib.Flow.Closed`: variables bound by the code itself

Code that mentions a variable finds what the variable was bound to last, and that
may be a slot or a value of other code. Lowering goes through a tree in one pass,
so what was bound before a mention is what stands before it in the tree, in
whatever branch (`Tree.closed`).

`Lower.mentions_own_iff` is the exact statement: every variable mentioned is
bound by the code itself exactly when the tree is closed.
-/

set_option autoImplicit false

namespace Flow

variable {α : Type}

/-- The variables that the tree binds. -/
def Tree.binds : Tree α → Set α
  | .bind x | .declare x => {x}
  | .skip | .read _ | .mention _ | .trap => ∅
  | .seq f g | .shortCircuit f g | .ifThen f g | .while f g => f.binds ∪ g.binds
  | .ifElse c t e => c.binds ∪ t.binds ∪ e.binds
  | .forIn q xs b => q.binds ∪ {x | x ∈ xs} ∪ b.binds

/-- Every variable that the tree mentions is in `bound`, or is bound further to
the front of the tree. -/
def Tree.closed (bound : Set α) : Tree α → Prop
  | .skip | .bind _ | .declare _ | .trap => True
  | .read x | .mention x => x ∈ bound
  | .seq f g | .shortCircuit f g | .ifThen f g | .while f g =>
      f.closed bound ∧ g.closed (bound ∪ f.binds)
  | .ifElse c t e =>
      c.closed bound ∧ t.closed (bound ∪ c.binds) ∧ e.closed (bound ∪ (c.binds ∪ t.binds))
  | .forIn q xs b => q.closed bound ∧ b.closed (bound ∪ (q.binds ∪ {x | x ∈ xs}))

/-- The variables in `bound` are those that the code itself has bound. -/
def BoundBy (s : State α) (bound : Set α) : Prop :=
  ∀ x l, s.env x = some l → (l.own = true ↔ x ∈ bound)

/-- Every variable mentioned so far was bound by the code itself. -/
def MentionsOwn (s : State α) : Prop := ∀ m ∈ s.mentions, m.2.own = true

variable [DecidableEq α] {f : Tree α} {s s' : State α} {bound : Set α}

/-- A variable that is bound by the code is in the set of those. -/
theorem BoundBy.setEnv (h : BoundBy s bound) {x : α} {l : Loc} (hl : l.own = true) :
    BoundBy (s.setEnv x l) (bound ∪ {x}) := by
  intro y l' hy
  rw [State.setEnv_env] at hy
  split at hy
  case isTrue hyx =>
    rw [Option.some.injEq] at hy
    simp [← hy, hl, hyx]
  case isFalse hyx => simp [h y l' hy, hyx]

/-- So are some variables. -/
theorem BoundBy.bindAll (h : BoundBy s bound) (xs : List α) :
    BoundBy (s.bindAll xs) (bound ∪ {x | x ∈ xs}) := by
  intro y l hy
  rw [State.bindAll_env] at hy
  split at hy
  case isTrue hyx =>
    rw [Option.some.injEq] at hy
    simp [← hy, Loc.own, hyx]
  case isFalse hyx => simp [h y l hy, hyx]

/-- Lowering binds the variables that the tree binds. -/
theorem Lower.boundBy (h : Lower f s s') :
    ∀ {bound : Set α}, BoundBy s bound → BoundBy s' (bound ∪ f.binds) := by
  induction h with
  | skip | trap | read | mention =>
      intro bound hb
      rw [Tree.binds, Set.union_empty]
      exact hb
  | bind s x => exact fun hb => hb.setEnv rfl
  | declare s x => exact fun hb => hb.setEnv (l := .slot s.slots) rfl
  | seq _ _ ih₁ ih₂ | shortCircuit _ _ ih₁ ih₂ | ifThen _ _ ih₁ ih₂ | «while» _ _ ih₁ ih₂ =>
      intro bound hb
      have h := ih₂ (ih₁ hb)
      rwa [Set.union_assoc] at h
  | ifElse _ _ _ ih₁ ih₂ ih₃ | ifElsePhi _ _ _ ih₁ ih₂ ih₃ =>
      intro bound hb
      have h := ih₃ (ih₂ (ih₁ hb))
      rwa [Set.union_assoc, Set.union_assoc, ← Set.union_assoc _ _ (Tree.binds _)] at h
  | @forIn q xs b s s₁ s₂ _ _ ih₁ ih₂ =>
      intro bound hb
      have h := ih₂ (BoundBy.bindAll (ih₁ hb) xs)
      rwa [Set.union_assoc, Set.union_assoc, ← Set.union_assoc q.binds] at h

/-- **Closed code.** The variables that lowering a tree mentions are bound by the
code itself exactly when the tree is closed over what was bound before. -/
theorem Lower.mentions_own_iff (h : Lower f s s') :
    ∀ {bound : Set α}, BoundBy s bound →
      (MentionsOwn s' ↔ MentionsOwn s ∧ f.closed bound) := by
  induction h with
  | skip | bind | declare | trap => intro bound _; simp [Tree.closed, MentionsOwn]
  | @read s x l hl | @mention s x l hl =>
      intro bound hb
      have hown := hb x l hl
      simp [MentionsOwn, Tree.closed, hown, or_imp, forall_and]
  | seq h₁ _ ih₁ ih₂ | shortCircuit h₁ _ ih₁ ih₂ | ifThen h₁ _ ih₁ ih₂ | «while» h₁ _ ih₁ ih₂ =>
      intro bound hb
      have h := ih₂ (h₁.boundBy hb)
      exact h.trans ((and_congr_left' (ih₁ hb)).trans and_assoc)
  | ifElse h₁ h₂ _ ih₁ ih₂ ih₃ | ifElsePhi h₁ h₂ _ ih₁ ih₂ ih₃ =>
      intro bound hb
      have hb₁ := h₁.boundBy hb
      have hb₂ := h₂.boundBy hb₁
      rw [Set.union_assoc] at hb₂
      have h := ih₃ hb₂
      refine h.trans ?_
      rw [Tree.closed, ← and_assoc, ← and_assoc, and_assoc (a := MentionsOwn _)]
      exact and_congr_left' ((ih₂ hb₁).trans ((and_congr_left' (ih₁ hb)).trans and_assoc))
  | @forIn q xs b s s₁ s₂ h₁ _ ih₁ ih₂ =>
      intro bound hb
      have hb₁ := BoundBy.bindAll (h₁.boundBy hb) xs
      rw [Set.union_assoc] at hb₁
      exact (ih₂ hb₁).trans ((and_congr_left' (ih₁ hb)).trans and_assoc)

end Flow
