import Aike.Model.Compile
import Aike.Model.FrontEnd

/-!
# `Aike.Proofs.Compile`: accepted modules

`compileModule` reports no error exactly when every pass before code generation
accepted the module and code generation reported none.

`compileAlone` compiles a module that imports nothing, and `compileTree` does so
from what the parser built. What such a run leaves behind can be evaluated
(`exists_of_any`, `exists_emitted`).
-/

set_option autoImplicit false

namespace Aike

/-- A run that answers something with a property, by evaluation. -/
theorem exists_of_any {ε α : Type} {r : Except ε α} {p : α → Bool}
    (h : r.toOption.any p = true) : ∃ a, r = .ok a ∧ p a = true := by
  cases r with
  | error e => exact Bool.noConfusion h
  | ok a => exact ⟨a, rfl, h⟩

/-- A module that is accepted is one that code is generated for, from what the
other passes wrote. -/
theorem codegen_of_accepted {fuel : Nat} {lookup : Str → Option Ast} {program : Program}
    {parse : List Function → Str → Except SMDiagnostic (List Function)} {store : Store}
    {cg : Codegen} {root : Ast} {r : Compiled}
    (h : compileModule fuel lookup program parse store cg root = .ok r) (ho : r.output = []) :
    ∃ entry, codegen ⟨program, r.store, fuel, parse⟩ root cg = .ok (entry, r.codegen) := by
  unfold compileModule at h
  cases hcheck : checkModule fuel lookup program store root with
  | error e =>
      rw [hcheck] at h
      exact (nomatch h)
  | ok checked =>
      obtain ⟨store', errors⟩ := checked
      rw [hcheck] at h
      change (if errors ≠ [] then _ else _) = _ at h
      by_cases herrors : errors = []
      · rw [if_neg (not_not.mpr herrors)] at h
        cases hrun : codegen ⟨program, store', fuel, parse⟩ root cg with
        | error e =>
            rw [hrun] at h
            exact (nomatch h)
        | ok p =>
            rw [hrun] at h
            cases h
            exact ⟨p.1, hrun⟩
      · rw [if_pos herrors] at h
        cases h
        exact absurd ho herrors

/-- Compile a module that imports nothing. -/
def compileAlone (store : Store) (root : Ast) : Except Fault Compiled :=
  compileModule 30 (fun _ => none) (Program.ofModules [root]) (fun _ _ => .ok []) store {} root

/-- What the parser writes where no type is given: a new `Unknown` for
each variable. -/
def freshStore : Store := { varType := fun v => .unknown v, nextUnknown := 20 }

/-- A module that is accepted, with a body that has a property, by evaluation. -/
theorem exists_emitted {store : Store} {root : Ast} {p : Emitted → Bool}
    (h : (compileAlone store root).toOption.any
      (fun r => r.output.isEmpty && r.codegen.emitted.any p) = true) :
    ∃ r, compileAlone store root = .ok r ∧ r.output = [] ∧
      (∃ cx entry, codegen cx root {} = .ok (entry, r.codegen)) ∧
      ∃ e ∈ r.codegen.emitted, p e = true := by
  obtain ⟨r, hr, hcheck⟩ := exists_of_any h
  rw [Bool.and_eq_true, List.isEmpty_iff, List.any_eq_true] at hcheck
  obtain ⟨entry, hentry⟩ := codegen_of_accepted hr hcheck.1
  exact ⟨r, hr, hcheck.1, ⟨_, entry, hentry⟩, hcheck.2⟩

/-- Compile a module that imports nothing, from what the parser built. -/
def compileTree (tree : Tree) : Except Fault Compiled :=
  match allocateModules [tree] with
  | ([root], alloc) => compileAlone alloc.store root
  | _ => .error .assertion

/-- A module that is accepted from what the parser built, by evaluation. -/
theorem exists_compiled {tree : Tree} {p : Compiled → Bool}
    (h : (compileTree tree).toOption.any (fun r => r.output.isEmpty && p r) = true) :
    ∃ r, compileTree tree = .ok r ∧ r.output = [] ∧ p r = true := by
  obtain ⟨r, hr, hcheck⟩ := exists_of_any h
  rw [Bool.and_eq_true, List.isEmpty_iff] at hcheck
  exact ⟨r, hr, hcheck.1, hcheck.2⟩

end Aike
