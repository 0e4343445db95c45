import Aike.Lib.Flow.Phi
import Aike.Proofs.Codegen.Run
import Aike.Proofs.Compile

/-!
# `Aike.Proofs.Codegen.Phi`: PHI nodes and predecessors

A PHI node has to list the predecessors of its block, each once
(`Graph.PhisMatch`). `codegenIf` and `codegenBinaryAndOr` ask for the insert block
after each operand. `codegenFor` asks for it before the sequence is lowered, so
its PHI node is right exactly when lowering the sequence stays in one block.
-/

set_option autoImplicit false

namespace Aike

/-- The blocks that a PHI node lists. -/
def Phi.blocks (phi : Phi) : List BlockId := phi.incoming.map Prod.snd

/-- Every PHI node lists exactly the predecessors of its block, each once. -/
def Graph.PhisMatch (g : Graph) : Prop :=
  ∀ b, ∀ phi ∈ (g.blocks b).phis,
    phi.blocks.Nodup ∧ ∀ a, a ∈ phi.blocks ↔ b ∈ (g.blocks a).successors

/-- `Graph.PhisMatch`, on the blocks of the function. -/
def Graph.phisMatch (g : Graph) : Bool :=
  (List.range g.size).all fun b => (g.blocks b).phis.all fun phi =>
    decide phi.blocks.Nodup && (List.range g.size).all fun a =>
      decide (a ∈ phi.blocks ↔ b ∈ (g.blocks a).successors)

/-- A graph in which PHI nodes match passes the check of it. -/
theorem Graph.PhisMatch.check {g : Graph} (h : g.PhisMatch) : g.phisMatch = true := by
  simp only [Graph.phisMatch, List.all_eq_true, Bool.and_eq_true, decide_eq_true_eq]
  intro b _ phi hphi
  obtain ⟨hnodup, hmem⟩ := h b phi hphi
  exact ⟨hnodup, fun a _ => hmem a⟩

/-- The PHI nodes of an emitted body match if and only if those of its flow graph do. -/
theorem Emitted.Refines.phisMatch_iff {cx : CodegenContext} {e : Emitted}
    {s₀ s₁ : Flow.State VarId} (h : e.Refines cx s₀ s₁) :
    e.graph.PhisMatch ↔ Flow.MatchedFrom s₁ 0 := by
  have hblock (b : BlockId) : Flow.Matched s₁ b ↔
      ∀ phi ∈ (e.graph.blocks b).phis,
        phi.blocks.Nodup ∧ ∀ a, a ∈ phi.blocks ↔ b ∈ (e.graph.blocks a).successors := by
    simp only [Flow.Matched, ← h.blocks, BasicBlock.flow, List.forall_mem_map,
      Set.mem_ofPred_eq]
    rfl
  simp only [Graph.PhisMatch, ← hblock, Flow.MatchedFrom, Nat.zero_le, true_implies]

/-- **PHI nodes.** Those of an emitted body list the predecessors of their blocks
exactly when every loop over a sequence in it, however deep, is over one that is
lowered in one block: without an index, an `and` or `or`, a conditional or a loop. -/
theorem phisMatch_iff_plainSequences {cx : CodegenContext} {root : Ast} {s s' : Codegen}
    {entry : FunctionId} (h : codegen cx root s = .ok (entry, s')) {e : Emitted}
    (he : e ∈ s'.emitted) : e.graph.PhisMatch ↔ (e.outline cx).plainSequences := by
  obtain ⟨s₀, s₁, hr⟩ := codegen_emitted h he
  have ho := hr.start.isOpen
  have hx := (hr.lower.frame ho).2
  -- the first block has no PHI nodes at the start, and gets none
  have hfirst : Flow.Matched s₁ 0 := Flow.matched_of_phis_nil <| by
    rw [hx.phis_eq (by rw [hr.start.next]; omega), hr.start.blocks]
  have hrest := hr.lower.matched_iff ho
  rw [hr.start.next] at hrest
  rw [hr.phisMatch_iff, Flow.matchedFrom_succ, and_iff_right hfirst, hrest]

/-! ### A loop over an element -/

/-- ```
var a = [[1]]
for e in a[0]
    ()
``` -/
def loopOverElement : Ast :=
  .module { id := 1 } "m".toList (.block { id := 2 } [
    .varDecl { id := 3 } { id := 1, kind := .variable, name := "a".toList }
      (.literalArray { id := 4 } [.literalArray { id := 5 } [.literalInteger { id := 6 } 1]]),
    .forIn { id := 7 } { id := 2, kind := .variable, name := "e".toList } none
      (.index { id := 8 } (.ident { id := 9 } "a".toList) (.literalInteger { id := 10 } 0))
      (.block { id := 11 } [.literalVoid { id := 12 }])]) []

/-- The case of a loop over an array that is itself an element of an array. -/
theorem phisMatch_iff_plainSequences_loopOverElement :
    ∃ cx entry s', codegen cx loopOverElement {} = .ok (entry, s') ∧
      ∃ e ∈ s'.emitted, (e.graph.PhisMatch ↔ (e.outline cx).plainSequences) := by
  have hrun : (compileAlone freshStore loopOverElement).toOption.any
      (fun r => r.output.isEmpty && r.codegen.emitted.any fun _ => true) = true := by
    decide +kernel
  obtain ⟨r, -, -, ⟨cx, entry, h⟩, e, he, -⟩ := exists_emitted hrun
  exact ⟨cx, entry, r.codegen, h, e, he, phisMatch_iff_plainSequences h he⟩

/-- The loop over an element is accepted, and has a PHI node that lists a block
which is no predecessor. -/
theorem loopOverElement_phis : ∃ r, compileAlone freshStore loopOverElement = .ok r ∧
    r.output = [] ∧ ∃ e ∈ r.codegen.emitted, ¬ e.graph.PhisMatch := by
  have hrun : (compileAlone freshStore loopOverElement).toOption.any
      (fun r => r.output.isEmpty && r.codegen.emitted.any fun e => !e.graph.phisMatch) = true := by
    decide +kernel
  obtain ⟨r, hr, houtput, -, e, he, hphis⟩ := exists_emitted hrun
  refine ⟨r, hr, houtput, e, he, fun h => ?_⟩
  rw [h.check] at hphis
  exact Bool.noConfusion hphis

end Aike
