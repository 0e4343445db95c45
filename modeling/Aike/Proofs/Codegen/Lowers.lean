import Aike.Proofs.Codegen.Outline
import Aike.Proofs.Codegen.Step
import Aike.Lib.Flow.Frame

/-!
# `Aike.Proofs.Codegen.Lowers`: lowering an expression lowers its outline

`codegenExpr` refines `Flow.Lower`: on the view of control flow and storage, a run
of `codegenExpr` on an expression is a lowering of the outline of the expression
(`codegenExpr_lowers`). Most steps do not show on that view. Those that do are
the control constructs, the trap of an index, and the steps on variables.
-/

set_option autoImplicit false

namespace Aike

open Relation
open Flow (Lower Open)

variable {cx : CodegenContext} {α β : Type} {s s' : Codegen}

/-! ### Steps that do not show -/

/-- The states look the same. -/
def SameFlow (s s' : Codegen) : Prop := s'.flow = s.flow

instance : Carried SameFlow where
  refl _ := rfl
  trans h₁ h₂ := Eq.trans h₂ h₁

/-- A change of the module shows neither in the graph nor in the variables. -/
theorem ModuleStep.sameFlow (h : ModuleStep cx s s') : SameFlow s s' := by
  cases h with
  | type h =>
      cases h with
      | reuse | create | setBody | globals => rfl
  | external | reuse | declare | pend => rfl

/-- Nor do some changes. -/
theorem ModuleSteps.sameFlow (h : ModuleSteps cx s s') : SameFlow s s' := by
  induction h with
  | refl => rfl
  | tail _ h ih => exact Carried.trans ih h.sameFlow

/-- A step that does not show. -/
abbrev Quiet (m : CodegenM α) : Prop := Ensures SameFlow m

/-- A step that changes nothing does not show. -/
theorem Ensures.quiet {m : CodegenM α} (h : Ensures Eq m) : Quiet m :=
  h.mono fun _ _ h => h ▸ rfl

/-- Lowering a type does not show. -/
theorem codegenType_quiet (fuel : Nat) (type : Ty) : Quiet (codegenType cx fuel type) :=
  (codegenType_steps fuel type).mono fun _ _ h => (TypeSteps.module h).sameFlow

/-- The descriptor of a type does not show. -/
theorem codegenTypeInfo_quiet (fuel : Nat) (type : Ty) : Quiet (codegenTypeInfo cx fuel type) :=
  have h : Ensures (ModuleSteps cx) (codegenTypeInfo cx fuel type) :=
      codegenTypeInfo_steps fuel type
  h.mono fun _ _ => ModuleSteps.sameFlow

/-- Asking for a function does not show: it changes the module, and the new function is
emitted later. -/
theorem codegenFunctionDecl_quiet (decl : FnDecl) (id : Int) (type : Ty) (tyargs : List Ty) :
    Quiet (codegenFunctionDecl cx decl id type tyargs) :=
  have h : Ensures (ModuleSteps cx) (codegenFunctionDecl cx decl id type tyargs) :=
    codegenFunctionDecl_steps decl id type tyargs
  h.mono fun _ _ => ModuleSteps.sameFlow

/-- An instruction without an event on the storage of variables does not show. All
instructions but the marked loads and stores are such. -/
theorem insert_quiet {op : Op} (h : ∀ f, op.events f = []) (type : LType) :
    Quiet (insert op type) := by
  intro s v s' hm
  obtain ⟨-, rfl⟩ := run_insert.mp hm
  show (s.inserted op).flow = s.flow
  rw [flow_inserted, h, emit_nil]

/-- A store that does not initialise a variable is no event. -/
theorem events_store (f : FunctionId) (value address : Value) :
    (Op.store value address none).events f = [] := by
  obtain ⟨type, v⟩ := address
  cases v with
  | _ => rfl

/-- A load that is not of a variable does not show. -/
theorem createLoad_quiet (address : Value) : Quiet (createLoad address) :=
  .bind (elementType_eq _).quiet fun _ => insert_quiet (fun _ => rfl) _

/-- A store that does not initialise a variable does not show. -/
theorem createStore_quiet (value address : Value) : Quiet (createStore value address) :=
  .bind (insert_quiet (fun f => events_store f value address) _) fun _ => .pure _

/-- Taking a field out of an aggregate does not show. -/
theorem createExtractValue_quiet (aggregate : Value) (index : Nat) :
    Quiet (createExtractValue aggregate index) :=
  .bind (fieldType_eq _ _).quiet fun _ => insert_quiet (fun _ => rfl) _

/-- Nor does putting one in. -/
theorem createInsertValue_quiet (aggregate value : Value) (index : Nat) :
    Quiet (createInsertValue aggregate value index) := insert_quiet (fun _ => rfl) _

/-- The address of an element does not show. -/
theorem createInBoundsGEP_quiet (base index : Value) : Quiet (createInBoundsGEP base index) :=
  insert_quiet (fun _ => rfl) _

/-- The address of a field does not show. -/
theorem createStructGEP_quiet (base : Value) (index : Nat) : Quiet (createStructGEP base index) :=
  .bind (elementType_eq _).quiet fun _ => .bind (fieldType_eq _ _).quiet fun _ =>
    insert_quiet (fun _ => rfl) _

/-- The address in an array constant does not show. -/
theorem createConstInBoundsGEP2_quiet (base : Value) (i j : Nat) :
    Quiet (createConstInBoundsGEP2 base i j) :=
  .bind (elementType_eq _).quiet fun _ => .bind (fieldType_eq _ _).quiet fun _ =>
    insert_quiet (fun _ => rfl) _

/-- A cast does not show. -/
theorem createBitCast_quiet (value : Value) (type : LType) : Quiet (createBitCast value type) :=
  insert_quiet (fun _ => rfl) _

/-- A call does not show. What the callee does is not in the graph of the caller. -/
theorem createCall_quiet (callee : Value) (args : List Value) : Quiet (createCall callee args) := by
  intro s v s' h
  obtain ⟨type, h⟩ := run_createCall h
  exact insert_quiet (fun _ => rfl) type s v s' h

/-- A function of the run-time library does not show, found or added. -/
theorem runtimeFunction_quiet (cx : CodegenContext) (name : Str) (params : List LType) :
    Quiet (runtimeFunction name params) := by
  intro s v s' h
  have hs : ModuleSteps cx s s' := getOrInsertFunction_steps _ _ _ _ _ _ h
  exact ModuleSteps.sameFlow hs

/-- A new object does not show: a call and a cast. -/
theorem codegenNew_quiet (type : Ty) : Quiet (codegenNew cx type) :=
  .bind (codegenType_quiet _ _) fun _ => .bind (codegenTypeInfo_quiet _ _) fun _ =>
    .bind (runtimeFunction_quiet cx _ _) fun _ => .bind (createCall_quiet _ _) fun _ =>
    createBitCast_quiet _ _

/-- The storage of an array literal does not show. -/
theorem codegenArrayStorage_quiet (element : Ty) (count : Nat) :
    Quiet (codegenArrayStorage cx element count) :=
  .ite (.bind (codegenType_quiet _ _) fun _ => .bind (codegenTypeInfo_quiet _ _) fun _ =>
      .bind (runtimeFunction_quiet cx _ _) fun _ => .bind (createCall_quiet _ _) fun _ =>
      createBitCast_quiet _ _)
    (.bind (codegenType_quiet _ _) fun _ => .pure _)

/-! ### Steps that lower an outline -/

/-- Every run of `m` lowers the outline. -/
def Lowers (f : Outline) (m : CodegenM α) : Prop :=
  ∀ s a s', m s = .ok (a, s') → Open s.flow → Lower f s.flow s'.flow

namespace Lowers

variable {f g : Outline} {m : CodegenM α} {k : α → CodegenM β}

/-- What does not show lowers the empty outline. -/
theorem ofQuiet (h : Quiet m) : Lowers .skip m := by
  intro s a s' hm _
  rw [h s a s' hm]
  exact .refl _

/-- A fault lowers anything, as there is no run. -/
theorem throw (e : Fault) : Lowers f (throw e : CodegenM α) := fun _ _ _ h =>
  (run_throw.mp h).elim

/-- A result lowers the empty outline. -/
theorem pure (a : α) : Lowers .skip (pure a : CodegenM α) := ofQuiet (.pure a)

/-- One after the other lowers the sequence of the outlines. -/
theorem bind (hm : Lowers f m) (hk : ∀ a, Lowers g (k a)) : Lowers (.seq f g) (m >>= k) := by
  intro s b s' h ho
  obtain ⟨a, s₁, h₁, h₂⟩ := run_bind.mp h
  have hl := hm s a s₁ h₁ ho
  exact .seq hl (hk a s₁ b s' h₂ (hl.frame ho).1)

/-- What does not show can come first. -/
theorem quiet_bind (hm : Quiet m) (hk : ∀ a, Lowers f (k a)) : Lowers f (m >>= k) := by
  intro s b s' h ho
  obtain ⟨a, s₁, h₁, h₂⟩ := run_bind.mp h
  have hl := hk a s₁ b s' h₂
  rw [hm s a s₁ h₁] at hl
  exact hl ho

/-- What does not show can come behind. -/
theorem bind_quiet (hm : Lowers f m) (hk : ∀ a, Quiet (k a)) : Lowers f (m >>= k) := by
  intro s b s' h ho
  obtain ⟨a, s₁, h₁, h₂⟩ := run_bind.mp h
  rw [hk a s₁ b s' h₂]
  exact hm s a s₁ h₁ ho

end Lowers

/-! ### Control constructs -/

/-- A branch is a jump to its target. -/
theorem flow_br (target : BlockId) : (s.terminated (.br target)).flow = s.flow.jump {target} := by
  rw [flow_terminated]
  congr 1
  ext b
  simp [Terminator.successors]

/-- A conditional branch is a jump to one of two targets. -/
theorem flow_condBr (cond : Value) (then_ else_ : BlockId) :
    (s.terminated (.condBr cond then_ else_)).flow = s.flow.jump {then_, else_} := by
  rw [flow_terminated]
  congr 1
  ext b
  simp [Terminator.successors]

/-- Ending a block that leads nowhere with a jump to nowhere. -/
theorem jump_empty {s : Flow.State VarId} (h : (s.blocks s.current).succ = ∅) : s.jump ∅ = s := by
  refine congrArg (fun blocks => ({ s with blocks } : Flow.State VarId)) (funext fun b => ?_)
  show (if b = s.current then { s.blocks b with succ := ∅ } else s.blocks b) = s.blocks b
  split
  case isTrue hb =>
    rw [hb]
    exact congrArg (fun succ => { s.blocks s.current with succ }) h.symm
  case isFalse => rfl

/-- A trap lowers the outline of a trap: a branch to a block that ends there, and on. -/
theorem codegenTrapIf_lowers (cond : Value) (debug : Bool) :
    Lowers .trap (codegenTrapIf cond debug) := by
  intro s v s' h ho
  obtain ⟨trapbb, _, h₁, h⟩ := run_bind.mp h
  obtain ⟨rfl, rfl⟩ := run_createBlock.mp h₁
  obtain ⟨afterbb, s₁, h₂, h⟩ := run_bind.mp h
  obtain ⟨_, s₂, h₃, h⟩ := run_bind.mp h
  obtain ⟨_, s₃, h₄, h⟩ := run_bind.mp h
  obtain ⟨_, s₄, h₅, h⟩ := run_bind.mp h
  obtain ⟨_, s₅, h₆, h⟩ := run_bind.mp h
  obtain ⟨rfl, hs₁⟩ := run_createBlock.mp h₂
  have hf₁ : s₁.flow = s.flow.reserve 2 := by rw [← hs₁]; rfl
  -- The branch goes to the block of the trap, which is lowered first.
  have hf₃ : s₃.flow = ((s.flow.reserve 2).jump {s.graph.size, s.graph.size + 1}).enter
      s.graph.size := by
    rw [← run_setInsertPoint.mp h₄, ← run_terminate.mp h₃, ← hf₁, ← flow_condBr cond]
    rfl
  -- The trap ends its block without an edge, so the flow does not see it.
  have hf₅ : s₅.flow = s₃.flow := by
    have hopen : Open s₃.flow := by
      rw [hf₃]
      exact (Flow.Region.split (k := 2) ho (by simp [Codegen.flow]) (Nat.le_refl _)
        (Nat.lt_add_of_pos_right (by omega))).isOpen
    rw [← run_terminate.mp h₆, flow_terminated, ← run_insertVoid.mp h₅, flow_inserted]
    show (s₃.flow.emit []).jump {b | b ∈ []} = s₃.flow
    rw [emit_nil]
    convert jump_empty hopen.succ_current
    simp
  rw [← run_setInsertPoint.mp h]
  show Lower .trap s.flow (s₅.flow.enter (s.graph.size + 1))
  rw [hf₅, hf₃]
  exact .trap s.flow

/-- The result of an instruction is a value of its function. -/
theorem loc_of_insert {op : Op} {type : LType} {v : Value} (h : insert op type s = .ok (v, s')) :
    v.loc s.func = .value := by
  rw [← (run_insert.mp h).1]
  exact if_pos rfl

/-- The variable and the index of a loop are bound one after the other, as in `bindAll`. -/
theorem bindAll_pair (t : Flow.State VarId) (x y : VarId) :
    (t.setEnv x .value).setEnv y .value = t.bindAll [x, y] := by
  refine congrArg (fun env => ({ t with env } : Flow.State VarId)) (funext fun z => ?_)
  show (if z = y then some Flow.Loc.value else if z = x then some .value else t.env z) = _
  by_cases hy : z = y
  · simp [hy]
  · by_cases hx : z = x
    · simp [hx]
    · simp [hx, hy]

/-- The variables of a loop are bound at its head. -/
theorem codegenForVariables_flow {s s₁ s₂ s₃ s₄ s₅ : Codegen} {var : Variable}
    {index : Option Variable} {expr zero indexphi base address : Value} {entrybb : BlockId}
    {a b : Unit} (h₁ : createPHI .int32 [(zero, entrybb)] s = .ok (indexphi, s₁))
    (h₂ : createExtractValue expr 0 s₁ = .ok (base, s₂))
    (h₃ : createInBoundsGEP base indexphi s₂ = .ok (address, s₃))
    (h₄ : codegenVariable var address s₃ = .ok (a, s₄))
    (h₅ : codegenIndexVariable index indexphi s₄ = .ok (b, s₅)) :
    s₅.flow = (s.flow.phi [entrybb]).bindAll (loopVars var index) := by
  obtain ⟨type, h₂'⟩ := run_createExtractValue h₂
  have hfunc₃ : s₃.func = s₂.func := (run_insert.mp h₃).2 ▸ rfl
  have hfunc₂ : s₂.func = s₁.func := (run_insert.mp h₂').2 ▸ rfl
  have hfunc₁ : s₁.func = s.func := (run_createPHI.mp h₁).2 ▸ rfl
  have hf₃ : s₃.flow = s.flow.phi [entrybb] := by
    rw [createInBoundsGEP_quiet _ _ _ _ _ h₃, createExtractValue_quiet _ _ _ _ _ h₂,
      ← (run_createPHI.mp h₁).2, flow_phiAdded]
    rfl
  -- The element is an address inside the array, and the index is the PHI node: both are values.
  have hloc : address.loc s₃.func = .value := by
    rw [hfunc₃]
    exact loc_of_insert h₃
  have hf₄ : s₄.flow = (s.flow.phi [entrybb]).setEnv var.id .value := by
    rw [← run_codegenVariable.mp h₄, flow_setVar, hloc, hf₃]
  cases index with
  | none =>
      obtain ⟨-, rfl⟩ := run_pure.mp h₅
      rw [hf₄]
      refine congrArg (fun env => ({ s.flow.phi [entrybb] with env } : Flow.State VarId))
        (funext fun z => ?_)
      simp [loopVars]
  | some index =>
      have hindex : indexphi.loc s₄.func = .value := by
        rw [← run_codegenVariable.mp h₄, ← (run_createPHI.mp h₁).1]
        exact if_pos (hfunc₃.trans (hfunc₂.trans hfunc₁)).symm
      rw [← run_codegenVariable.mp h₅, flow_setVar, hindex, hf₄, bindAll_pair]
      rfl

section Nodes

variable {codegenExpr : Ast → CodegenKind → CodegenM Value}
  {outline : Ast → CodegenKind → Outline}
  (hrec : ∀ e kind, Lowers (outline e kind) (codegenExpr e kind))

include hrec

/-- `and` and `or` lower the outline in which the right operand may be left out. -/
theorem codegenBinaryAndOr_lowers (and : Bool) (left right : Ast) :
    Lowers (.shortCircuit (outline left .value) (outline right .value))
      (codegenBinaryAndOr codegenExpr and left right) := by
  intro s v s' h ho
  obtain ⟨leftv, s₁, h₁, h⟩ := run_bind.mp h
  obtain ⟨currentbb, _, h₂, h⟩ := run_bind.mp h
  obtain ⟨rfl, rfl⟩ := run_getInsertBlock.mp h₂
  obtain ⟨nextbb, _, h₃, h⟩ := run_bind.mp h
  obtain ⟨rfl, rfl⟩ := run_createBlock.mp h₃
  obtain ⟨afterbb, s₂, h₄, h⟩ := run_bind.mp h
  obtain ⟨rfl, hs₂⟩ := run_createBlock.mp h₄
  obtain ⟨_, s₃, h₅, h⟩ := run_bind.mp h
  obtain ⟨_, s₄, h₆, h⟩ := run_bind.mp h
  obtain ⟨rightv, s₅, h₇, h⟩ := run_bind.mp h
  obtain ⟨_, s₆, h₈, h⟩ := run_bind.mp h
  obtain ⟨nextbb', _, h₉, h⟩ := run_bind.mp h
  obtain ⟨rfl, rfl⟩ := run_getInsertBlock.mp h₉
  obtain ⟨_, s₇, h₁₀, h⟩ := run_bind.mp h
  have hl := hrec _ _ _ _ _ h₁ ho
  have hf₂ : s₂.flow = s₁.flow.reserve 2 := by rw [← hs₂]; rfl
  -- The two operators exchange the targets of the branch, and the flow is the same.
  have hf₄ : s₄.flow = ((s₁.flow.reserve 2).jump {s₁.graph.size, s₁.graph.size + 1}).enter
      s₁.graph.size := by
    rw [← run_setInsertPoint.mp h₆, ← run_terminate.mp h₅, ← hf₂]
    refine congrArg (Flow.State.enter · s₁.graph.size) ((flow_condBr _ _ _).trans ?_)
    cases and with
    | false => rw [Set.pair_comm]; rfl
    | true => rfl
  have hopen : Open s₄.flow := by
    rw [hf₄]
    exact (Flow.Region.split (k := 2) (hl.frame ho).1 (by simp [Codegen.flow]) (Nat.le_refl _)
      (Nat.lt_add_of_pos_right (by omega))).isOpen
  have hr := hrec _ _ _ _ _ h₇ hopen
  rw [hf₄] at hr
  rw [← (run_createPHI.mp h).2, flow_phiAdded, ← run_setInsertPoint.mp h₁₀, ← run_terminate.mp h₈]
  show Lower _ _ (Flow.State.phi (Flow.State.enter (s₅.terminated (.br (s₁.graph.size + 1))).flow
    (s₁.graph.size + 1)) [s₅.insertBlock, s₁.insertBlock])
  rw [flow_br]
  exact .shortCircuit hl hr

/-- A branch without an `else` lowers its outline: the blocks are made in the order of the
outline, so they have its numbers. -/
theorem codegenIfThen_lowers (cond thenbody : Ast) :
    Lowers (.ifThen (outline cond .value) (outline thenbody .value))
      (codegenIfThen codegenExpr cond thenbody) := by
  intro s v s' h ho
  obtain ⟨condv, s₁, h₁, h⟩ := run_bind.mp h
  obtain ⟨thenbb, _, h₂, h⟩ := run_bind.mp h
  obtain ⟨rfl, rfl⟩ := run_createBlock.mp h₂
  obtain ⟨endbb, s₂, h₃, h⟩ := run_bind.mp h
  obtain ⟨rfl, hs₂⟩ := run_createBlock.mp h₃
  obtain ⟨_, s₃, h₄, h⟩ := run_bind.mp h
  obtain ⟨_, s₄, h₅, h⟩ := run_bind.mp h
  obtain ⟨thenv, s₅, h₆, h⟩ := run_bind.mp h
  obtain ⟨_, s₆, h₇, h⟩ := run_bind.mp h
  obtain ⟨_, s₇, h₈, h⟩ := run_bind.mp h
  obtain ⟨-, rfl⟩ := run_pure.mp h
  have hl := hrec _ _ _ _ _ h₁ ho
  have hf₂ : s₂.flow = s₁.flow.reserve 2 := by rw [← hs₂]; rfl
  -- Both blocks are reserved before the branch to them.
  have hf₄ : s₄.flow = ((s₁.flow.reserve 2).jump {s₁.graph.size, s₁.graph.size + 1}).enter
      s₁.graph.size := by
    rw [← run_setInsertPoint.mp h₅, ← run_terminate.mp h₄, ← hf₂]
    exact congrArg (Flow.State.enter · s₁.graph.size) (flow_condBr _ _ _)
  have hopen : Open s₄.flow := by
    rw [hf₄]
    exact (Flow.Region.split (k := 2) (hl.frame ho).1 (by simp [Codegen.flow]) (Nat.le_refl _)
      (Nat.lt_add_of_pos_right (by omega))).isOpen
  have ht := hrec _ _ _ _ _ h₆ hopen
  rw [hf₄] at ht
  rw [← run_setInsertPoint.mp h₈, ← run_terminate.mp h₇]
  show Lower _ _ (Flow.State.enter (s₅.terminated (.br (s₁.graph.size + 1))).flow
    (s₁.graph.size + 1))
  rw [flow_br]
  exact .ifThen hl ht

/-- A branch with an `else` likewise. -/
theorem codegenIfElse_lowers (cond thenbody elsebody : Ast) :
    Lowers (.ifElse (outline cond .value) (outline thenbody .value) (outline elsebody .value))
      (codegenIfElse codegenExpr cond thenbody elsebody) := by
  intro s v s' h ho
  obtain ⟨condv, s₁, h₁, h⟩ := run_bind.mp h
  obtain ⟨thenbb, _, h₂, h⟩ := run_bind.mp h
  obtain ⟨rfl, rfl⟩ := run_createBlock.mp h₂
  obtain ⟨elsebb, _, h₃, h⟩ := run_bind.mp h
  obtain ⟨rfl, rfl⟩ := run_createBlock.mp h₃
  obtain ⟨endbb, s₂, h₄, h⟩ := run_bind.mp h
  obtain ⟨rfl, hs₂⟩ := run_createBlock.mp h₄
  obtain ⟨_, s₃, h₅, h⟩ := run_bind.mp h
  obtain ⟨_, s₄, h₆, h⟩ := run_bind.mp h
  obtain ⟨thenv, s₅, h₇, h⟩ := run_bind.mp h
  obtain ⟨_, s₆, h₈, h⟩ := run_bind.mp h
  obtain ⟨thenbb', _, h₉, h⟩ := run_bind.mp h
  obtain ⟨rfl, rfl⟩ := run_getInsertBlock.mp h₉
  obtain ⟨_, s₇, h₁₀, h⟩ := run_bind.mp h
  obtain ⟨elsev, s₈, h₁₁, h⟩ := run_bind.mp h
  obtain ⟨_, s₉, h₁₂, h⟩ := run_bind.mp h
  obtain ⟨elsebb', _, h₁₃, h⟩ := run_bind.mp h
  obtain ⟨rfl, rfl⟩ := run_getInsertBlock.mp h₁₃
  obtain ⟨_, s₁₀, h₁₄, h⟩ := run_bind.mp h
  have hl := hrec _ _ _ _ _ h₁ ho
  have ho₁ := (hl.frame ho).1
  have hf₂ : s₂.flow = s₁.flow.reserve 3 := by rw [← hs₂]; rfl
  have hf₄ : s₄.flow = ((s₁.flow.reserve 3).jump {s₁.graph.size, s₁.graph.size + 1}).enter
      s₁.graph.size := by
    rw [← run_setInsertPoint.mp h₆, ← run_terminate.mp h₅, ← hf₂]
    exact congrArg (Flow.State.enter · s₁.graph.size) (flow_condBr _ _ _)
  have hopen : Open s₄.flow := by
    rw [hf₄]
    exact (Flow.Region.split (k := 3) ho₁ (by simp [Codegen.flow]) (Nat.le_refl _)
      (Nat.lt_add_of_pos_right (by omega))).isOpen
  have ht := hrec _ _ _ _ _ h₇ hopen
  have htf := ht.frame hopen
  rw [hf₄] at ht htf
  have hf₇ : s₇.flow = (s₅.flow.jump {s₁.graph.size + 2}).enter (s₁.graph.size + 1) := by
    rw [← run_setInsertPoint.mp h₁₀, ← run_terminate.mp h₈]
    exact congrArg (Flow.State.enter · (s₁.graph.size + 1)) (flow_br _)
  have hopen₇ : Open s₇.flow := by
    rw [hf₇]
    exact Lower.ifElse_else ho₁ htf
  have he := hrec _ _ _ _ _ h₁₁ hopen₇
  rw [hf₇] at he
  have hf₁₀ : s₁₀.flow = (s₈.flow.jump {s₁.graph.size + 2}).enter (s₁.graph.size + 2) := by
    rw [← run_setInsertPoint.mp h₁₄, ← run_terminate.mp h₁₂]
    exact congrArg (Flow.State.enter · (s₁.graph.size + 2)) (flow_br _)
  -- The PHI node is there when the branches have a value.
  by_cases hvoid : thenv.type.isVoid = true
  · rw [if_pos hvoid] at h
    obtain ⟨-, rfl⟩ := run_pure.mp h
    rw [hf₁₀]
    exact .ifElse hl ht he
  · rw [if_neg hvoid] at h
    rw [← (run_createPHI.mp h).2, flow_phiAdded, hf₁₀, ← run_terminate.mp h₈,
      ← run_terminate.mp h₁₂]
    exact .ifElsePhi hl ht he

/-- A loop likewise, with the jump back to the condition. -/
theorem codegenWhile_lowers (expr body : Ast) :
    Lowers (.while (outline expr .value) (outline body .value))
      (codegenWhile codegenExpr expr body) := by
  intro s v s' h ho
  obtain ⟨loopbb, _, h₁, h⟩ := run_bind.mp h
  obtain ⟨rfl, rfl⟩ := run_createBlock.mp h₁
  obtain ⟨bodybb, _, h₂, h⟩ := run_bind.mp h
  obtain ⟨rfl, rfl⟩ := run_createBlock.mp h₂
  obtain ⟨endbb, s₁, h₃, h⟩ := run_bind.mp h
  obtain ⟨rfl, hs₁⟩ := run_createBlock.mp h₃
  obtain ⟨_, s₂, h₄, h⟩ := run_bind.mp h
  obtain ⟨_, s₃, h₅, h⟩ := run_bind.mp h
  obtain ⟨condv, s₄, h₆, h⟩ := run_bind.mp h
  obtain ⟨_, s₅, h₇, h⟩ := run_bind.mp h
  obtain ⟨_, s₆, h₈, h⟩ := run_bind.mp h
  obtain ⟨bodyv, s₇, h₉, h⟩ := run_bind.mp h
  obtain ⟨_, s₈, h₁₀, h⟩ := run_bind.mp h
  obtain ⟨_, s₉, h₁₁, h⟩ := run_bind.mp h
  obtain ⟨-, rfl⟩ := run_pure.mp h
  have hf₁ : s₁.flow = s.flow.reserve 3 := by rw [← hs₁]; rfl
  -- The condition has a block of its own, to which the body jumps back.
  have hf₃ : s₃.flow = ((s.flow.reserve 3).jump {s.graph.size}).enter s.graph.size := by
    rw [← run_setInsertPoint.mp h₅, ← run_terminate.mp h₄, ← hf₁]
    exact congrArg (Flow.State.enter · s.graph.size) (flow_br _)
  have hopen₃ : Open s₃.flow := by
    rw [hf₃]
    exact (Flow.Region.split (k := 3) ho (by simp [Codegen.flow]) (Nat.le_refl _)
      (Nat.lt_add_of_pos_right (by omega))).isOpen
  have hc := hrec _ _ _ _ _ h₆ hopen₃
  have hcf := hc.frame hopen₃
  rw [hf₃] at hc hcf
  have hf₆ : s₆.flow = (s₄.flow.jump {s.graph.size + 1, s.graph.size + 2}).enter
      (s.graph.size + 1) := by
    rw [← run_setInsertPoint.mp h₈, ← run_terminate.mp h₇]
    exact congrArg (Flow.State.enter · (s.graph.size + 1)) (flow_condBr _ _ _)
  have hopen₆ : Open s₆.flow := by
    rw [hf₆]
    exact Lower.while_body ho hcf
  have hb := hrec _ _ _ _ _ h₉ hopen₆
  rw [hf₆] at hb
  rw [← run_setInsertPoint.mp h₁₁, ← run_terminate.mp h₁₀]
  show Lower _ _ (Flow.State.enter (s₇.terminated (.br s.graph.size)).flow (s.graph.size + 2))
  rw [flow_br]
  exact .while hc hb

/-- A loop over an array likewise. Its variables are bound at the start of each turn. -/
theorem codegenFor_lowers (var : Variable) (index : Option Variable) (expr body : Ast) :
    Lowers (.forIn (outline expr .value) (loopVars var index) (outline body .value))
      (codegenFor codegenExpr var index expr body) := by
  intro s v s' h ho
  obtain ⟨entrybb, _, h₁, h⟩ := run_bind.mp h
  obtain ⟨rfl, rfl⟩ := run_getInsertBlock.mp h₁
  obtain ⟨loopbb, _, h₂, h⟩ := run_bind.mp h
  obtain ⟨rfl, rfl⟩ := run_createBlock.mp h₂
  obtain ⟨endbb, s₁, h₃, h⟩ := run_bind.mp h
  obtain ⟨rfl, hs₁⟩ := run_createBlock.mp h₃
  obtain ⟨exprv, s₂, h₄, h⟩ := run_bind.mp h
  obtain ⟨size, s₃, h₅, h⟩ := run_bind.mp h
  obtain ⟨cond, s₄, h₆, h⟩ := run_bind.mp h
  obtain ⟨_, s₅, h₇, h⟩ := run_bind.mp h
  obtain ⟨_, s₆, h₈, h⟩ := run_bind.mp h
  obtain ⟨indexphi, s₇, h₉, h⟩ := run_bind.mp h
  obtain ⟨base, s₈, h₁₀, h⟩ := run_bind.mp h
  obtain ⟨address, s₉, h₁₁, h⟩ := run_bind.mp h
  obtain ⟨_, s₁₀, h₁₂, h⟩ := run_bind.mp h
  obtain ⟨_, s₁₁, h₁₃, h⟩ := run_bind.mp h
  obtain ⟨bodyv, s₁₂, h₁₄, h⟩ := run_bind.mp h
  obtain ⟨next, s₁₃, h₁₅, h⟩ := run_bind.mp h
  obtain ⟨loopendbb, _, h₁₆, h⟩ := run_bind.mp h
  obtain ⟨rfl, rfl⟩ := run_getInsertBlock.mp h₁₆
  obtain ⟨cond', s₁₄, h₁₇, h⟩ := run_bind.mp h
  obtain ⟨_, s₁₅, h₁₈, h⟩ := run_bind.mp h
  obtain ⟨_, s₁₆, h₁₉, h⟩ := run_bind.mp h
  obtain ⟨_, s₁₇, h₂₀, h⟩ := run_bind.mp h
  obtain ⟨-, rfl⟩ := run_pure.mp h
  have hf₁ : s₁.flow = s.flow.reserve 2 := by rw [← hs₁]; rfl
  have hopen₁ : Open s₁.flow := by
    rw [hf₁]
    exact ho.reserve 2
  have hq := hrec _ _ _ _ _ h₄ hopen₁
  have hqf := hq.frame hopen₁
  rw [hf₁] at hq hqf
  have hf₄ : s₄.flow = s₂.flow := by
    rw [insert_quiet (fun _ => rfl) _ _ _ _ h₆, createExtractValue_quiet _ _ _ _ _ h₅]
  have hf₆ : s₆.flow = (s₂.flow.jump {s.graph.size, s.graph.size + 1}).enter s.graph.size := by
    rw [← run_setInsertPoint.mp h₈, ← run_terminate.mp h₇, ← hf₄]
    exact congrArg (Flow.State.enter · s.graph.size) (flow_condBr _ _ _)
  have hf₁₁ : s₁₁.flow = (((s₂.flow.jump {s.flow.next, s.flow.next + 1}).enter s.flow.next).phi
      [s.flow.current]).bindAll (loopVars var index) := by
    rw [codegenForVariables_flow h₉ h₁₀ h₁₁ h₁₂ h₁₃, hf₆]
    rfl
  have hopen₁₁ : Open s₁₁.flow := by
    rw [hf₁₁]
    exact Lower.forIn_body _ ho hqf
  have hb := hrec _ _ _ _ _ h₁₄ hopen₁₁
  have hbf := hb.frame hopen₁₁
  rw [hf₁₁] at hb hbf
  have hf₁₄ : s₁₄.flow = s₁₂.flow := by
    rw [insert_quiet (fun _ => rfl) _ _ _ _ h₁₇, insert_quiet (fun _ => rfl) _ _ _ _ h₁₅]
  have hf₁₅ : s₁₅.flow = s₁₂.flow.jump {s.flow.next, s.flow.next + 1} := by
    rw [← run_terminate.mp h₁₈, ← hf₁₄]
    exact flow_condBr _ _ _
  -- The head of the loop still has the one PHI node that it started with.
  have hphis : (s₁₅.flow.blocks s.flow.next).phis.length = 1 := by
    rw [hf₁₅, Flow.jump_phis]
    refine (congrArg List.length hbf.2.phis).trans ?_
    show (((((s₂.flow.jump _).enter s.flow.next).phi _).blocks s.flow.next).phis).length = 1
    rw [Flow.State.phi_blocks, if_pos (by rfl), Flow.State.enter_blocks, List.length_append,
      Flow.jump_phis, (Lower.forIn_head ho hqf).blank]
    rfl
  have hcur : s₁₃.insertBlock = s₁₂.flow.current :=
    congrArg Flow.State.current (insert_quiet (fun _ => rfl) _ _ _ _ h₁₅)
  rw [← run_setInsertPoint.mp h₂₀, ← run_addIncoming.mp h₁₉]
  show Lower _ _ ((s₁₅.incomingAdded s.flow.next next s₁₃.insertBlock).flow.enter (s.flow.next + 1))
  rw [flow_incomingAdded hphis, hf₁₅, hcur]
  exact .forIn hq hb

/-! ### The other nodes -/

/-- The fields of a tuple lower the outlines of the fields, one after the other. -/
theorem codegenTupleFields_lowers (result : Value) (i : Nat) (fields : List Ast) :
    Lowers (outlineAll outline fields) (codegenTupleFields codegenExpr result i fields) := by
  induction fields generalizing result i with
  | nil => exact .pure _
  | cons field fields ih =>
      exact .bind (hrec _ _) fun _ => .quiet_bind (createInsertValue_quiet _ _ _) fun _ => ih _ _

/-- The elements of an array likewise. -/
theorem codegenArrayElements_lowers (ptr : Value) (i : Nat) (elements : List Ast) :
    Lowers (outlineAll outline elements) (codegenArrayElements codegenExpr ptr i elements) := by
  induction elements generalizing i with
  | nil => exact .pure _
  | cons element elements ih =>
      exact .bind (hrec _ _) fun _ => .quiet_bind (createInBoundsGEP_quiet _ _) fun _ =>
        .quiet_bind (createStore_quiet _ _) fun _ => ih _

/-- An array literal lowers the outlines of its elements; the storage does not show. -/
theorem codegenLiteralArray_lowers (n : Node) (elements : List Ast) :
    Lowers (outlineAll outline elements) (codegenLiteralArray cx codegenExpr n elements) := by
  refine .quiet_bind (nodeType_eq cx n).quiet fun type => ?_
  split
  · exact .quiet_bind (codegenArrayStorage_quiet _ _) fun _ =>
      .bind_quiet (codegenArrayElements_lowers hrec _ _ _) fun _ =>
      .bind (codegenType_quiet _ _) fun _ => .bind (createInsertValue_quiet _ _ _) fun _ =>
      createInsertValue_quiet _ _ _
  · exact .throw _

/-- The defaults lower the outlines of those fields that were not given. -/
theorem codegenDefaults_lowers (given : List Int) (result : Value) (i : Nat)
    (fields : List (FieldDecl × Option Ast)) :
    Lowers (outlineDefaults outline given i fields)
      (codegenDefaults codegenExpr given result i fields) := by
  induction fields generalizing result i with
  | nil => exact .pure _
  | cons field fields ih =>
      unfold outlineDefaults codegenDefaults
      by_cases hgiven : given.contains (i : Int) = true
      · rw [if_pos hgiven, if_pos hgiven]
        exact ih _ _
      · rw [if_neg hgiven, if_neg hgiven]
        cases field.2 with
        | none => exact fun _ _ _ h => nomatch h
        | some e =>
            show Lowers _ (asValue codegenExpr e >>= fun expr =>
              createInsertValue result expr i >>= fun result =>
              codegenDefaults codegenExpr given result (i + 1) fields)
            exact .bind (hrec _ _) fun _ => .quiet_bind (createInsertValue_quiet _ _ _) fun _ =>
              ih _ _

/-- The initializers lower the outlines of the values that were given. -/
theorem codegenInitializers_lowers (result : Value) (fields : List (FieldRef × Ast)) :
    Lowers (outlineAll outline (fields.map Prod.snd))
      (codegenInitializers cx codegenExpr result fields) := by
  induction fields generalizing result with
  | nil => exact .pure _
  | cons field fields ih =>
      exact .bind (hrec _ _) fun _ => .quiet_bind (createInsertValue_quiet _ _ _) fun _ => ih _

/-- A struct literal lowers the outlines of the defaults, and then of what was given. -/
theorem codegenLiteralStruct_lowers (n : Node) (fields : List (FieldRef × Ast)) :
    Lowers (outlineLiteralStruct cx outline n fields)
      (codegenLiteralStruct cx codegenExpr n fields) := by
  intro s v s' h ho
  obtain ⟨type, _, h₁, h⟩ := run_bind.mp h
  obtain ⟨htype, rfl⟩ := run_assertSome.mp h₁
  unfold outlineLiteralStruct
  rw [htype]
  cases type with
  | inst node tyargs target =>
      cases target with
      | struct d =>
          obtain ⟨tydef, _, h₂, h⟩ := run_bind.mp h
          obtain ⟨htydef, rfl⟩ := run_assertSome.mp h₂
          simp only [htydef]
          obtain ⟨ltype, s₁, h₃, h⟩ := run_bind.mp h
          obtain ⟨_, _, h₄, h⟩ := run_bind.mp h
          obtain ⟨-, rfl⟩ := run_assert.mp h₄
          have hf₁ := codegenType_quiet _ _ _ _ _ h₃
          have hl := Lowers.bind (codegenDefaults_lowers hrec _ _ _ _)
            (fun result => codegenInitializers_lowers hrec result fields) _ _ _ h
          rw [hf₁] at hl
          exact hl ho
      | _ => exact (run_throw.mp h).elim
  | _ => exact (run_throw.mp h).elim

/-- A member lowers the outline of the object. -/
theorem codegenMember_lowers (expr : Ast) (field : FieldRef) (kind : CodegenKind) :
    Lowers (outline expr kind) (codegenMember cx codegenExpr expr field kind) := by
  refine .quiet_bind (.assert _) fun _ => .bind_quiet (hrec _ _) fun value => ?_
  cases kind with
  | ref => exact createStructGEP_quiet _ _
  | value => exact createExtractValue_quiet _ _

/-- A block lowers the outlines of its expressions. -/
theorem codegenBlock_lowers (result : Value) (body : List Ast) :
    Lowers (outlineAll outline body) (codegenBlock codegenExpr result body) := by
  induction body generalizing result with
  | nil => exact .pure _
  | cons e body ih => exact .bind (hrec _ _) fun _ => ih _

/-- The arguments of a call lower their outlines, one after the other. -/
theorem codegenArgs_lowers (args : List Ast) :
    Lowers (outlineAll outline args) (codegenArgs codegenExpr args) := by
  induction args with
  | nil => exact .pure _
  | cons a args ih => exact .bind (hrec _ _) fun _ => .bind_quiet ih fun _ => .pure _

omit hrec in
/-- A slot that no variable is bound to. -/
theorem codegenAlloca_lowers (type : LType) (size : Nat) :
    Lowers .skip (codegenAlloca type size) := by
  intro s v s' h _
  rw [← (run_codegenAlloca.mp h).2, flow_allocated]
  exact .skip _ 1

/-- The further arguments likewise. They are read as values, and stored. -/
theorem codegenExtraArgs_lowers (extraArray : Value) (i : Nat) (args : List Ast) :
    Lowers (outlineExtraArgs outline args) (codegenExtraArgs cx codegenExpr extraArray i args) := by
  induction args generalizing i with
  | nil => exact .pure _
  | cons a args ih =>
      exact .bind (hrec _ _) fun _ => .quiet_bind (nodeType_eq cx _).quiet fun _ =>
        .quiet_bind (codegenTypeInfo_quiet _ _) fun _ => .bind (codegenAlloca_lowers _ _) fun _ =>
        .quiet_bind (createStore_quiet _ _) fun _ => .quiet_bind (createBitCast_quiet _ _) fun _ =>
        .quiet_bind (createConstInBoundsGEP2_quiet _ _ _) fun _ =>
        .quiet_bind (createStore_quiet _ _) fun _ =>
        .quiet_bind (createConstInBoundsGEP2_quiet _ _ _) fun _ =>
        .quiet_bind (createStore_quiet _ _) fun _ => ih _

/-- With a variable number of arguments, those that the type names come first. -/
theorem codegenVarargs_lowers (params : Nat) (args : List Ast) :
    Lowers (.seq .skip (.seq (outlineAll outline (args.take params))
      (outlineExtraArgs outline (args.drop params)))) (codegenVarargs cx codegenExpr params args) :=
  .quiet_bind (.assert _) fun _ => .bind (codegenAlloca_lowers _ _) fun _ =>
    .bind (codegenArgs_lowers hrec _) fun _ =>
    .bind_quiet (codegenExtraArgs_lowers hrec _ _ _) fun _ => .pure _

/-- A call lowers the outlines of the callee and of the arguments. -/
theorem codegenCall_lowers (expr : Ast) (args : List Ast) :
    Lowers (outlineCall cx outline expr args) (codegenCall cx codegenExpr expr args) := by
  intro s v s' h ho
  obtain ⟨callee, s₁, h₁, h⟩ := run_bind.mp h
  obtain ⟨type, _, h₂, h⟩ := run_bind.mp h
  obtain ⟨htype, rfl⟩ := run_assertSome.mp h₂
  have hl := hrec _ _ _ _ _ h₁ ho
  have ho₁ := (hl.frame ho).1
  unfold outlineCall
  rw [htype]
  cases type with
  | function params ret varargs =>
      obtain ⟨values, s₂, h₃, h⟩ := run_bind.mp h
      have hrest : s'.flow = s₂.flow :=
        Ensures.bind (createCall_quiet _ _) (fun _ => .pure _) _ _ _ h
      rw [hrest]
      cases varargs with
      | true => exact .seq hl (codegenVarargs_lowers hrec _ _ _ _ _ h₃ ho₁)
      | false =>
          exact .seq hl (Lowers.quiet_bind (.assert _) (fun _ => codegenArgs_lowers hrec args)
            _ _ _ h₃ ho₁)
  | _ => exact (run_throw.mp h).elim

/-- An index lowers the array, the index and the trap of the check. -/
theorem codegenIndex_lowers (expr idx : Ast) (kind : CodegenKind) :
    Lowers (.seq (outline expr .value) (.seq (outline idx .value) .trap))
      (codegenIndex codegenExpr expr idx kind) := by
  refine .bind (hrec _ _) fun _ => .bind (hrec _ _) fun _ =>
    .quiet_bind (createExtractValue_quiet _ _) fun _ =>
    .quiet_bind (createExtractValue_quiet _ _) fun _ =>
    .quiet_bind (insert_quiet (fun _ => rfl) _) fun _ =>
    .bind_quiet (codegenTrapIf_lowers _ _) fun _ =>
    .bind (createInBoundsGEP_quiet _ _) fun address => ?_
  cases kind with
  | ref => exact .pure _
  | value => exact createLoad_quiet _

/-- An assignment lowers the address and then the value. -/
theorem codegenAssign_lowers (left right : Ast) :
    Lowers (.seq (outline left .ref) (outline right .value))
      (codegenAssign codegenExpr left right) :=
  .bind (hrec _ _) fun _ => .bind_quiet (hrec _ _) fun _ =>
    .bind (createStore_quiet _ _) fun _ => .pure _

/-- A unary operation lowers its operand. -/
theorem codegenUnary_lowers (op : UnaryOp) (expr : Ast) (kind : CodegenKind) :
    Lowers (outline expr .value) (codegenUnary cx codegenExpr op expr kind) := by
  refine .bind_quiet (hrec _ _) fun value => ?_
  cases op with
  | not => exact insert_quiet (fun _ => rfl) _
  | deref =>
      cases kind with
      | ref => exact .pure _
      | value => exact createLoad_quiet _
  | new =>
      exact .bind (nodeType_eq cx _).quiet fun _ => .bind (codegenNew_quiet _) fun _ =>
        .bind (createStore_quiet _ _) fun _ => .pure _
  | plus | minus => exact .throw _

/-- `and` and `or` lower the outline in which the right operand may be left out. The other
operators have no run. -/
theorem codegenBinary_lowers (op : BinaryOp) (left right : Ast) :
    Lowers (.shortCircuit (outline left .value) (outline right .value))
      (codegenBinary codegenExpr op left right) := by
  unfold codegenBinary
  split
  · exact codegenBinaryAndOr_lowers hrec true left right
  · exact codegenBinaryAndOr_lowers hrec false left right
  · exact .throw _

/-- The slot of a variable is initialised where it is declared. -/
theorem codegenVarDecl_lowers (var : Variable) (expr : Ast) :
    Lowers (.seq (outline expr .value) (.declare var.id))
      (codegenVarDecl codegenExpr var expr) := by
  refine .bind (hrec _ _) fun value => ?_
  intro s v s' h _
  obtain ⟨storage, s₁, h₁, h⟩ := run_bind.mp h
  obtain ⟨_, s₂, h₂, h⟩ := run_bind.mp h
  obtain ⟨_, s₃, h₃, h⟩ := run_bind.mp h
  obtain ⟨-, rfl⟩ := run_pure.mp h
  obtain ⟨rfl, rfl⟩ := run_codegenAlloca.mp h₁
  obtain rfl := run_insertVoid.mp h₂
  rw [← run_codegenVariable.mp h₃, flow_setVar, flow_inserted, flow_allocated]
  have hevents : (Op.store value
      ⟨.pointer value.type, .slot s.func s.graph.allocas.length⟩ (some var.id)).events s.func =
      [.init (some s.flow.slots)] := if_pos rfl
  have hloc : (Value.mk (.pointer value.type) (.slot s.func s.graph.allocas.length)).loc s.func =
      .slot s.flow.slots := if_pos rfl
  show Lower _ _ (((s.flow.alloc 1).emit (Op.events s.func _)).setEnv var.id (Value.loc s.func _))
  rw [hevents, hloc]
  exact .declare s.flow var.id

end Nodes

/-- An identifier that names a variable is mentioned, and loaded where its value
is asked for. -/
theorem codegenIdent_lowers (n : Node) (kind : CodegenKind) :
    Lowers (outlineIdent cx n kind) (codegenIdent cx n kind) := by
  have hmention (target : Variable) : Lowers (.mention target.id) (findVar target) := by
    intro s v s' h _
    obtain ⟨hv, rfl⟩ := run_findVar.mp h
    rw [flow_lowered]
    exact .mention (congrArg (Option.map (Value.loc s.func)) hv)
  unfold outlineIdent codegenIdent
  match cx.store.targets n.id with
  | [] | _ :: _ :: _ => exact .throw _
  | [target] =>
      dsimp only
      cases target.kind with
      | function =>
          exact .ofQuiet (.bind (.assertSome _) fun _ => .bind (.assert _) fun _ =>
            .bind (nodeType_eq cx n).quiet fun _ => codegenFunctionDecl_quiet _ _ _ _)
      | «variable» =>
          cases kind with
          | ref => exact .bind_quiet (hmention target) fun _ => .pure _
          | value =>
              intro s v s' h _
              obtain ⟨storage, s₁, h₁, h⟩ := run_bind.mp h
              obtain ⟨hv, rfl⟩ := run_findVar.mp h₁
              obtain ⟨type, h⟩ := run_createLoad h
              rw [← (run_insert.mp h).2, flow_inserted, flow_lowered]
              exact .read (congrArg (Option.map (Value.loc s.func)) hv)
      | value | argument => exact hmention target

/-- **Refinement.** Lowering an expression lowers its outline. -/
theorem codegenExpr_lowers (fuel : Nat) (root : Ast) (kind : CodegenKind) :
    Lowers (outline cx fuel root kind) (codegenExpr cx fuel root kind) := by
  induction fuel generalizing root kind with
  | zero => exact .throw _
  | succ fuel ih =>
      -- The outline of a node is built in the order in which its function lowers the children.
      cases root with
      | literalVoid | literalBool | literalInteger | literalFloat | fnDecl | tyDecl | «import» =>
          exact .pure _
      | literalString =>
          exact .ofQuiet (.bind (codegenType_quiet _ _) fun _ =>
            .bind (createInsertValue_quiet _ _ _) fun _ => createInsertValue_quiet _ _ _)
      | literalTuple n fields =>
          exact .quiet_bind (nodeType_eq cx n).quiet fun _ =>
            .quiet_bind (codegenType_quiet _ _) fun _ => codegenTupleFields_lowers ih _ _ _
      | literalArray n elements => exact codegenLiteralArray_lowers ih n elements
      | literalStruct n name fields => exact codegenLiteralStruct_lowers ih n fields
      | ident n name => exact codegenIdent_lowers n kind
      | member n expr field => exact codegenMember_lowers ih expr field kind
      | block n body => exact codegenBlock_lowers ih _ body
      | module n name body => exact ih body _
      | call n expr args => exact codegenCall_lowers ih expr args
      | unary n op expr => exact codegenUnary_lowers ih op expr kind
      | binary n op left right => exact codegenBinary_lowers ih op left right
      | index n expr idx => exact codegenIndex_lowers ih expr idx kind
      | assign n left right => exact codegenAssign_lowers ih left right
      | ifThen n cond thenbody => exact codegenIfThen_lowers ih cond thenbody
      | ifElse n cond thenbody elsebody => exact codegenIfElse_lowers ih cond thenbody elsebody
      | forIn n var index expr body => exact codegenFor_lowers ih var index expr body
      | «while» n expr body => exact codegenWhile_lowers ih expr body
      | fn n id decl =>
          cases decl with
          | fnDecl => exact .ofQuiet (codegenFunctionDecl_quiet _ _ _ _)
          | _ => exact .throw _
      | llvm => exact .throw _
      | varDecl n var expr => exact codegenVarDecl_lowers ih var expr

end Aike
