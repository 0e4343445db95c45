import Aike.Model.Codegen.Function

/-!
# `Aike.Proofs.Codegen.Monad`: rules for steps of code generation

A step that ends without a fault relates the state before to the state after and
its result. `Ensures R m` says that every such run of `m` is in `R`. A relation
that is reflexive and transitive is carried through a composition by carrying it
through the parts.
-/

set_option autoImplicit false

namespace Aike

variable {α β : Type} {s s' : Codegen}

/-! ### Runs of compound steps -/

/-- A run of `pure`: the result, and the state as it was. -/
theorem run_pure {a b : α} : (pure a : CodegenM α) s = .ok (b, s') ↔ a = b ∧ s = s' := by
  show Except.ok (a, s) = Except.ok (b, s') ↔ _
  rw [Except.ok.injEq, Prod.mk.injEq]

/-- A run of a composition is a run of each part, with a state between. -/
theorem run_bind {m : CodegenM α} {k : α → CodegenM β} {b : β} :
    (m >>= k) s = .ok (b, s') ↔ ∃ a s₁, m s = .ok (a, s₁) ∧ k a s₁ = .ok (b, s') := by
  show (m s >>= fun p => k p.1 p.2) = _ ↔ _
  cases m s with
  | error e => exact ⟨fun h => (nomatch h), fun ⟨_, _, h, _⟩ => (nomatch h)⟩
  | ok p =>
      show k p.1 p.2 = _ ↔ _
      constructor
      · exact fun h => ⟨p.1, p.2, rfl, h⟩
      · rintro ⟨a, s₁, h, hk⟩
        cases h
        exact hk

/-- A run of `get`: the state is the result. -/
theorem run_get {a : Codegen} : (get : CodegenM Codegen) s = .ok (a, s') ↔ s = a ∧ s = s' := by
  show Except.ok (s, s) = Except.ok (a, s') ↔ _
  rw [Except.ok.injEq, Prod.mk.injEq]

/-- A run of `set`. -/
theorem run_set {t : Codegen} {a : Unit} : (set t : CodegenM Unit) s = .ok (a, s') ↔ t = s' := by
  show Except.ok ((), t) = Except.ok (a, s') ↔ _
  rw [Except.ok.injEq, Prod.mk.injEq]
  exact and_iff_right rfl

/-- A run of `modify`. -/
theorem run_modify {f : Codegen → Codegen} {a : Unit} :
    (modify f : CodegenM Unit) s = .ok (a, s') ↔ f s = s' := by
  show Except.ok ((), f s) = Except.ok (a, s') ↔ _
  rw [Except.ok.injEq, Prod.mk.injEq]
  exact and_iff_right rfl

/-- A fault has no run. -/
theorem run_throw {e : Fault} {a : α} : (throw e : CodegenM α) s = .ok (a, s') ↔ False :=
  ⟨fun h => (nomatch h), False.elim⟩

/-- A step outside of the state. -/
theorem run_lift {m : Except Fault α} {a : α} :
    (liftM m : CodegenM α) s = .ok (a, s') ↔ m = .ok a ∧ s = s' := by
  cases m with
  | error e => exact ⟨fun h => (nomatch h), fun h => (nomatch h.1)⟩
  | ok b =>
      show Except.ok (b, s) = Except.ok (a, s') ↔ _
      rw [Except.ok.injEq, Prod.mk.injEq, Except.ok.injEq]

/-- A run of `mapM` over steps that read no state is that of the function in the error
monad, and the state stays. -/
theorem run_mapM_lift {f : α → Except Fault β} {as : List α} {bs : List β} :
    (as.mapM fun a => (liftM (f a) : CodegenM β)) s = .ok (bs, s') ↔
      as.mapM f = .ok bs ∧ s = s' := by
  have h : (as.mapM fun a => (liftM (f a) : CodegenM β)) = liftM (as.mapM f) := by
    induction as with
    | nil => rfl
    | cons a as ih =>
        rw [List.mapM_cons, List.mapM_cons, ih]
        cases f a with
        | error e => rfl
        | ok b =>
            cases as.mapM f with
            | error e => rfl
            | ok bs => rfl
  rw [h, run_lift]

/-- An assertion that holds does nothing, and one that fails has no run. -/
theorem run_assert {c : Prop} [Decidable c] {a : Unit} :
    assert c s = .ok (a, s') ↔ c ∧ s = s' := by
  rw [assert]
  split
  case isTrue h => simp [run_pure, h]
  case isFalse h => simp [run_throw, h]

/-- The same for a value that must be there. -/
theorem run_assertSome {o : Option α} {a : α} :
    assertSome o s = .ok (a, s') ↔ o = some a ∧ s = s' := by
  cases o with
  | none => simp [assertSome, run_throw]
  | some b => rw [assertSome, run_pure, Option.some.injEq]

/-! ### Relations between states -/

/-- Every run of `m` that ends without a fault is in `R`. -/
def Ensures (R : Codegen → Codegen → Prop) (m : CodegenM α) : Prop :=
  ∀ s a s', m s = .ok (a, s') → R s s'

/-- A relation that can be carried through compositions. -/
class Carried (R : Codegen → Codegen → Prop) : Prop where
  refl : ∀ s, R s s
  trans : ∀ {s t u}, R s t → R t u → R s u

namespace Ensures

variable {R : Codegen → Codegen → Prop} {m : CodegenM α} {k : α → CodegenM β}

/-- A weaker relation holds, too. -/
theorem mono {S : Codegen → Codegen → Prop} (h : Ensures R m) (hRS : ∀ s t, R s t → S s t) :
    Ensures S m := fun s a s' hm => hRS s s' (h s a s' hm)

/-- A fault is in every relation, as it has no run. -/
theorem throw (e : Fault) : Ensures R (throw e : CodegenM α) := fun _ _ _ h =>
  (run_throw.mp h).elim

/-- A change of the state is in a relation if the function is. -/
theorem modify {f : Codegen → Codegen} (h : ∀ s, R s (f s)) :
    Ensures R (modify f : CodegenM Unit) := by
  intro s a s' hm
  rw [← run_modify.mp hm]
  exact h s

/-- A branch is in a relation if both sides are. -/
theorem ite {c : Prop} [Decidable c] {m' : CodegenM α} (h : Ensures R m) (h' : Ensures R m') :
    Ensures R (if c then m else m') := by
  split
  · exact h
  · exact h'

variable [Carried R]

/-- A result is in every relation that is carried. -/
theorem pure (a : α) : Ensures R (pure a : CodegenM α) := by
  intro s b s' h
  rw [← (run_pure.mp h).2]
  exact Carried.refl s

/-- A composition is in a relation that is carried if its parts are. All that is not
primitive goes through this rule. -/
theorem bind (hm : Ensures R m) (hk : ∀ a, Ensures R (k a)) : Ensures R (m >>= k) := by
  intro s b s' h
  obtain ⟨a, s₁, h₁, h₂⟩ := run_bind.mp h
  exact Carried.trans (hm s a s₁ h₁) (hk a s₁ b s' h₂)

/-- `get` is in every relation that is carried. -/
theorem get : Ensures R (get : CodegenM Codegen) := by
  intro s b s' h
  rw [← (run_get.mp h).2]
  exact Carried.refl s

/-- A step that reads the state first. -/
theorem bind_get {k : Codegen → CodegenM β} (hk : ∀ a, Ensures R (k a)) :
    Ensures R (MonadState.get >>= k) := bind get hk

/-- A step that reads no state likewise. -/
theorem lift (m : Except Fault α) : Ensures R (liftM m : CodegenM α) := by
  intro s b s' h
  rw [← (run_lift.mp h).2]
  exact Carried.refl s

/-- An assertion likewise. -/
theorem assert (c : Prop) [Decidable c] : Ensures R (assert c) := by
  intro s b s' h
  rw [← (run_assert.mp h).2]
  exact Carried.refl s

/-- A value that must be there likewise. -/
theorem assertSome (o : Option α) : Ensures R (assertSome o) := by
  intro s b s' h
  rw [← (run_assertSome.mp h).2]
  exact Carried.refl s

/-- A loop over a list is in a relation that is carried if each turn is. -/
theorem mapM {f : α → CodegenM β} (hf : ∀ a, Ensures R (f a)) (as : List α) :
    Ensures R (as.mapM f) := by
  induction as with
  | nil => exact pure []
  | cons a as ih =>
      rw [List.mapM_cons]
      exact bind (hf a) fun b => bind ih fun bs => pure (b :: bs)

end Ensures

end Aike
