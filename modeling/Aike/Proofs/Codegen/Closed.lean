import Aike.Lib.Flow.Closed
import Aike.Proofs.Codegen.Run
import Aike.Proofs.Compile

/-!
# `Aike.Proofs.Codegen.Closed`: functions that use their own variables

Name resolution lets a function see the variables of the scopes around it, and
`codegenIdent` answers whatever a variable was bound to last. A body uses values
of its own function only (`Emitted.UsesOwn`) exactly when every variable that it
mentions is an argument, or is bound further to the front of the body.
-/

set_option autoImplicit false

namespace Aike

variable {cx : CodegenContext} {e : Emitted}

/-- The identifiers in the body were lowered to values of the function that the
body is of. -/
def Emitted.UsesOwn (e : Emitted) : Prop := ∀ m ∈ e.lowered, m.2.func? = some e.inst.value

namespace Emitted.Refines

variable {s₀ s₁ : Flow.State VarId}

/-- A body was lowered to values of its own function if and only if its flow graph
mentions own values only. -/
theorem usesOwn_iff (h : e.Refines cx s₀ s₁) : e.UsesOwn ↔ Flow.MentionsOwn s₁ := by
  simp only [Flow.MentionsOwn, h.mentions, List.forall_mem_map, Value.loc_own]
  rfl

/-- At the start the arguments are what the function has bound. -/
theorem boundBy (h : e.Refines cx s₀ s₁) : Flow.BoundBy s₀ {x | x ∈ e.args} := by
  intro x l hx
  rw [h.env] at hx
  split at hx
  case isTrue hmem =>
    rw [Option.some.injEq] at hx
    exact hx ▸ iff_of_true rfl hmem
  case isFalse hmem =>
    obtain ⟨v, hv, rfl⟩ := Option.map_eq_some_iff.mp hx
    exact iff_of_false (by rw [h.foreign x v hv]; exact Bool.false_ne_true) hmem

end Emitted.Refines

/-- **Closed functions.** An emitted body uses values of its own function only,
exactly when every variable in it is an argument of the function, or one that the
body binds before. -/
theorem usesOwn_iff_closed {root : Ast} {s s' : Codegen} {entry : FunctionId}
    (h : codegen cx root s = .ok (entry, s')) (he : e ∈ s'.emitted) :
    e.UsesOwn ↔ (e.outline cx).closed {x | x ∈ e.args} := by
  obtain ⟨s₀, s₁, hr⟩ := codegen_emitted h he
  have hnone : Flow.MentionsOwn s₀ := by
    rw [Flow.MentionsOwn, hr.noMentions]
    exact fun m hm => absurd hm List.not_mem_nil
  rw [hr.usesOwn_iff, hr.lower.mentions_own_iff hr.boundBy, and_iff_right hnone]

/-! ### A function that reads a variable of the module -/

/-- ```
var x = 1
fn f(): int
    x
f()
()
``` -/
def readOutside : Ast :=
  .module { id := 1 } "m".toList (.block { id := 2 } [
    .varDecl { id := 3 } { id := 1, kind := .variable, name := "x".toList }
      (.literalInteger { id := 4 } 1),
    .fnDecl { id := 5 } { id := 2, kind := .function, name := "f".toList, fn := some 5 } [] [] {}
      (some (.block { id := 6 } [.ident { id := 7 } "x".toList])),
    .call { id := 8 } (.ident { id := 9 } "f".toList) [],
    .literalVoid { id := 10 }]) []

/-- The parser gives `x` an `Unknown`, and `f` the type that is written. -/
def readOutsideStore : Store where
  varType v := if v = 2 then .function [] .integer false else .unknown v
  nextUnknown := 20

/-- The case of a function that reads a variable of the module around it. -/
theorem usesOwn_iff_closed_readOutside :
    ∃ cx entry s', codegen cx readOutside {} = .ok (entry, s') ∧
      ∃ e ∈ s'.emitted, (e.UsesOwn ↔ (e.outline cx).closed {x | x ∈ e.args}) := by
  have hrun : (compileAlone readOutsideStore readOutside).toOption.any
      (fun r => r.output.isEmpty && r.codegen.emitted.any fun _ => true) = true := by
    decide +kernel
  obtain ⟨r, -, -, ⟨cx, entry, h⟩, e, he, -⟩ := exists_emitted hrun
  exact ⟨cx, entry, r.codegen, h, e, he, usesOwn_iff_closed h he⟩

/-- The function is accepted, and loads from a slot of the entry. -/
theorem readOutside_uses : ∃ r, compileAlone readOutsideStore readOutside = .ok r ∧
    r.output = [] ∧ ∃ e ∈ r.codegen.emitted, ¬ e.UsesOwn := by
  have hrun : (compileAlone readOutsideStore readOutside).toOption.any
      (fun r => r.output.isEmpty && r.codegen.emitted.any fun e =>
        e.lowered.any fun m => m.2.func? != some e.inst.value) = true := by decide +kernel
  obtain ⟨r, hr, houtput, -, e, he, hforeign⟩ := exists_emitted hrun
  obtain ⟨m, hm, hne⟩ := List.any_eq_true.mp hforeign
  refine ⟨r, hr, houtput, e, he, fun h => ?_⟩
  rw [h m hm, bne_self_eq_false] at hne
  exact Bool.noConfusion hne

end Aike
