import Aike.Proofs.Codegen.Lowers

/-!
# `Aike.Proofs.Codegen.Run`: runs of code generation

`codegen` emits functions one after another, and the variables stay bound to the
values of the functions that were emitted before. A value of a function that is
not emitted yet is bound to nothing (`VarsFinished`), so a function starts with
no variable of its own but its arguments.

* `codegenFunctionBody_emits`: a function body is lowered from such a start.
* `codegen_emitted`: so is every body that a run emits.
-/

set_option autoImplicit false

namespace Aike

open Relation

variable {cx : CodegenContext} {s s' : Codegen}

/-! ### What steps of lowering leave alone -/

/-- What every step of lowering does to the rest of the state. -/
structure StepFrame (s s' : Codegen) : Prop where
  func : s'.func = s.func
  currentFunction : s'.currentFunction = s.currentFunction
  emitted : s'.emitted = s.emitted
  functions : s.functions <+: s'.functions
  vars : ∀ x v, s'.vars x = some v → s.vars x = some v ∨ v.func? = some s.func

/-- No step leaves everything alone. -/
theorem StepFrame.refl (s : Codegen) : StepFrame s s :=
  ⟨rfl, rfl, rfl, List.prefix_rfl, fun _ _ => Or.inl⟩

/-- Two parts of lowering are one. -/
theorem StepFrame.trans {s₁ : Codegen} (h₁ : StepFrame s s₁) (h₂ : StepFrame s₁ s') :
    StepFrame s s' where
  func := h₂.func.trans h₁.func
  currentFunction := h₂.currentFunction.trans h₁.currentFunction
  emitted := h₂.emitted.trans h₁.emitted
  functions := h₁.functions.trans h₂.functions
  vars x v hx := by
    rcases h₂.vars x v hx with hx | hv
    · exact h₁.vars x v hx
    · exact Or.inr (hv.trans (congrArg some h₁.func))

instance : Carried StepFrame := ⟨.refl, .trans⟩

/-- A change of the module keeps the functions that there are, and touches no variable. -/
theorem ModuleStep.frame (h : ModuleStep cx s s') : StepFrame s s' := by
  cases h with
  | type h =>
      cases h with
      | reuse | create | setBody | globals =>
          exact ⟨rfl, rfl, rfl, List.prefix_rfl, fun _ _ => Or.inl⟩
  | external | declare => exact ⟨rfl, rfl, rfl, List.prefix_append _ _, fun _ _ => Or.inl⟩
  | reuse | pend => exact ⟨rfl, rfl, rfl, List.prefix_rfl, fun _ _ => Or.inl⟩

/-- A step of lowering binds variables to values of the function under construction only. -/
theorem Step.frame (h : Step cx s s') : StepFrame s s' := by
  cases h with
  | module h => exact h.frame
  | code | lowered => exact ⟨rfl, rfl, rfl, List.prefix_rfl, fun _ _ => Or.inl⟩
  | @«variable» x w own =>
      refine ⟨rfl, rfl, rfl, List.prefix_rfl, fun y v hy => ?_⟩
      simp only [update] at hy
      split at hy
      case isTrue =>
        rw [Option.some.injEq] at hy
        exact Or.inr (hy ▸ own)
      case isFalse => exact Or.inl hy

/-- Nor do some steps anything else. -/
theorem Steps.frame (h : Steps cx s s') : StepFrame s s' := by
  induction h with
  | refl => exact .refl s
  | tail _ h ih => exact ih.trans h.frame

/-! ### Variables and finished functions -/

/-- The function has its code. -/
def Finished (s : Codegen) (g : FunctionId) : Prop :=
  ∃ f, s.functions[g]? = some f ∧ f.body.isEmpty = false

/-- Variables are bound to values of functions for which `p` holds. -/
def VarsIn (p : FunctionId → Prop) (s : Codegen) : Prop :=
  ∀ x v, s.vars x = some v → ∃ g, v.func? = some g ∧ p g

/-- Variables are bound to values of finished functions. -/
abbrev VarsFinished (s : Codegen) : Prop := VarsIn (Finished s) s

/-- A finished function stays finished when others are added. -/
theorem Finished.of_prefix {g : FunctionId} (h : Finished s g)
    (hf : s.functions <+: s'.functions) : Finished s' g := by
  obtain ⟨f, hg, hbody⟩ := h
  obtain ⟨hlt, rfl⟩ := List.getElem?_eq_some_iff.mp hg
  exact ⟨_, List.prefix_iff_getElem?.mp hf g hlt, hbody⟩

/-- Lowering a function binds variables to values of that function only. -/
theorem VarsIn.steps {f : FunctionId} (h : VarsIn (fun g => g = f ∨ Finished s g) s)
    (hf : s.func = f) (hs : StepFrame s s') : VarsIn (fun g => g = f ∨ Finished s' g) s' := by
  intro x v hx
  rcases hs.vars x v hx with hx | hv
  · obtain ⟨g, hg, hfin⟩ := h x v hx
    exact ⟨g, hg, hfin.imp_right fun hfin => hfin.of_prefix hs.functions⟩
  · exact ⟨f, hf ▸ hv, Or.inl rfl⟩

/-! ### One function -/

/-- The outline of the body of an emitted function. -/
def Emitted.outline (cx : CodegenContext) (e : Emitted) : Outline :=
  match e.inst.decl.body with
  | some body => Aike.outline cx cx.fuel body .value
  | none => .skip

/-- The arguments of an emitted function. -/
def Emitted.args (e : Emitted) : List VarId := e.inst.decl.args.map Variable.id

/-- The code of an emitted function is its outline, lowered from a start where the
arguments are bound, and the other variables to values of other functions. -/
structure Emitted.Refines (cx : CodegenContext) (e : Emitted) (s₀ s₁ : Flow.State VarId) :
    Prop where
  start : Flow.Start s₀
  lower : Flow.Lower (e.outline cx) s₀ s₁
  blocks : ∀ b, (e.graph.blocks b).flow e.inst.value = s₁.blocks b
  noMentions : s₀.mentions = []
  mentions : s₁.mentions = e.lowered.map fun m => (m.1, m.2.loc e.inst.value)
  env : ∀ x, s₀.env x =
    if x ∈ e.args then some .value else (e.vars x).map (Value.loc e.inst.value)
  foreign : ∀ x v, e.vars x = some v → (v.loc e.inst.value).own = false

/-- The arguments of a function are values of it. -/
theorem mem_getFunctionArguments {f : FunctionId} {args : List Value}
    (h : getFunctionArguments f s = .ok (args, s')) {v : Value} (hv : v ∈ args) :
    v.func? = some f ∧ v.loc f = .value := by
  simp only [getFunctionArguments, run_bind, run_get, run_assertSome, run_pure] at h
  obtain ⟨_, _, ⟨rfl, rfl⟩, fun_, _, ⟨-, rfl⟩, rfl, -⟩ := h
  obtain ⟨i, hi, rfl⟩ := List.mem_mapIdx.mp hv
  exact ⟨rfl, if_pos rfl⟩

/-- Binding arguments binds the variables of the list to some of the values, and no
other variable. -/
theorem run_bindArguments {vars : List Variable} {args : List Value} {a : Unit}
    (h : bindArguments vars args s = .ok (a, s')) :
    ∃ f, { s with vars := f } = s' ∧
      (∀ x, x ∉ vars.map Variable.id → f x = s.vars x) ∧
      ∀ x ∈ vars.map Variable.id, ∃ v ∈ args, f x = some v := by
  induction vars generalizing s args with
  | nil =>
      obtain ⟨-, rfl⟩ := run_pure.mp h
      exact ⟨s.vars, rfl, fun _ _ => rfl, fun x hx => absurd hx List.not_mem_nil⟩
  | cons var vars ih =>
      cases args with
      | nil => exact (run_throw.mp h).elim
      | cons arg args =>
          obtain ⟨_, s₁, h₁, h⟩ := run_bind.mp h
          obtain rfl := run_codegenVariable.mp h₁
          obtain ⟨f, rfl, hother, hbound⟩ := ih h
          refine ⟨f, rfl, fun x hx => ?_, fun x hx => ?_⟩
          · rw [List.map_cons, List.mem_cons, not_or] at hx
            rw [hother x hx.2]
            exact if_neg hx.1
          · by_cases hmem : x ∈ vars.map Variable.id
            · obtain ⟨v, hv, hf⟩ := hbound x hmem
              exact ⟨v, List.mem_cons_of_mem _ hv, hf⟩
            · rw [List.map_cons, List.mem_cons] at hx
              refine ⟨arg, List.mem_cons_self, ?_⟩
              rw [hother x hmem]
              exact if_pos (hx.resolve_right hmem)

/-- The last instruction of a function leads nowhere. -/
theorem createReturn_flow {ret : Value} {a : Unit} (h : createReturn ret s = .ok (a, s'))
    (ho : Flow.Open s.flow) : s'.flow = s.flow ∧ StepFrame s s' := by
  have hend (t : Terminator) (ht : t.successors = []) (h : terminate t s = .ok (a, s')) :
      s'.flow = s.flow ∧ StepFrame s s' := by
    obtain rfl := run_terminate.mp h
    refine ⟨?_, rfl, rfl, rfl, List.prefix_rfl, fun _ _ => Or.inl⟩
    rw [flow_terminated, ht]
    convert jump_empty ho.succ_current
    simp
  unfold createReturn at h
  split at h
  · exact hend _ rfl h
  · exact hend _ rfl h

/-- The function is finished when its code is stored. -/
theorem run_finishFunction {a : Unit} (h : finishFunction s = .ok (a, s')) :
    s'.vars = s.vars ∧ s'.emitted = s.emitted ∧ s'.graph = s.graph ∧ s'.lowered = s.lowered ∧
      (s.func < s.functions.length → Finished s' s.func) ∧ ∀ g, Finished s g → Finished s' g := by
  obtain rfl := run_modify.mp h
  refine ⟨rfl, rfl, rfl, rfl, fun hlt => ?_, fun g hg => ?_⟩
  · refine ⟨{ s.functions[s.func] with body := .graph s.graph }, ?_, rfl⟩
    rw [List.getElem?_modify_eq, List.getElem?_eq_getElem hlt]
    rfl
  · obtain ⟨f, hf, hbody⟩ := hg
    by_cases hgf : s.func = g
    · refine ⟨{ f with body := .graph s.graph }, ?_, rfl⟩
      rw [hgf, List.getElem?_modify_eq, hf]
      rfl
    · refine ⟨f, ?_, hbody⟩
      rw [List.getElem?_modify_ne _ _ hgf, hf]

/-- When a function is finished its values are those of a finished function. -/
theorem VarsIn.finish {f : FunctionId} {a : Unit} (h : VarsIn (fun g => g = f ∨ Finished s g) s)
    (hf : s.func = f) (hlt : f < s.functions.length) (hm : finishFunction s = .ok (a, s')) :
    VarsFinished s' := by
  obtain ⟨hvars, -, -, -, hfin, hfinished⟩ := run_finishFunction hm
  intro x v hx
  obtain ⟨g, hg, hgf⟩ := h x v (hvars ▸ hx)
  refine ⟨g, hg, ?_⟩
  rcases hgf with rfl | hgf
  · exact hf ▸ hfin (hf ▸ hlt)
  · exact hfinished g hgf

/-- A function that has arguments is one of the module. -/
theorem lt_of_getFunctionArguments {f : FunctionId} {args : List Value}
    (h : getFunctionArguments f s = .ok (args, s')) : f < s.functions.length := by
  simp only [getFunctionArguments, run_bind, run_get, run_assertSome, run_pure] at h
  obtain ⟨_, _, ⟨rfl, rfl⟩, fun_, _, ⟨hf, rfl⟩, -, -⟩ := h
  exact (List.getElem?_eq_some_iff.mp hf).1

/-- A value of a finished function does not belong to one that is not finished. -/
theorem VarsIn.foreign {f : FunctionId} (h : VarsFinished s) (hnew : ¬ Finished s f) {x : VarId}
    {v : Value} (hx : s.vars x = some v) : (v.loc f).own = false := by
  obtain ⟨g, hg, hfin⟩ := h x v hx
  rw [Bool.eq_false_iff]
  intro hown
  rw [Value.loc_own, hg, Option.some.injEq] at hown
  exact hnew (hown ▸ hfin)

/-- The state in which the body of a function is lowered. -/
def Codegen.started (s : Codegen) (f : FunctionId) (vars : VarId → Option Value) : Codegen :=
  { s with
    vars, func := f, graph := { size := 1 }, insertBlock := 0, nextResult := 0, lowered := [] }

section Start

variable {f : FunctionId} {ids : List VarId} {args : List Value} {vars : VarId → Option Value}
  (hvars : VarsFinished s) (hnew : ¬ Finished s f) (hother : ∀ x, x ∉ ids → vars x = s.vars x)
  (hbound : ∀ x ∈ ids, ∃ v ∈ args, vars x = some v)
  (hargs : ∀ v ∈ args, v.func? = some f ∧ v.loc f = .value)

include hother hbound hargs

/-- The arguments are bound to values of the function. -/
theorem started_env (x : VarId) : (s.started f vars).flow.env x =
    if x ∈ ids then some .value else (s.vars x).map (Value.loc f) := by
  show (vars x).map (Value.loc f) = _
  split
  case isTrue hx =>
    obtain ⟨v, hv, hvx⟩ := hbound x hx
    rw [hvx, Option.map_some, (hargs v hv).2]
  case isFalse hx => rw [hother x hx]

include hvars

/-- In the state in which a body is lowered, variables are bound to values of this
function or of finished ones. -/
theorem started_varsIn :
    VarsIn (fun g => g = f ∨ Finished (s.started f vars) g) (s.started f vars) := by
  intro x v hx
  have hx : vars x = some v := hx
  by_cases hmem : x ∈ ids
  · obtain ⟨w, hw, hwx⟩ := hbound x hmem
    rw [hx, Option.some.injEq] at hwx
    exact ⟨f, hwx ▸ (hargs w hw).1, Or.inl rfl⟩
  · rw [hother x hmem] at hx
    obtain ⟨g, hg, hfin⟩ := hvars x v hx
    exact ⟨g, hg, Or.inr hfin⟩

include hnew

/-- The graph of this state is empty, and no variable has a slot of it. -/
theorem started_start : Flow.Start (s.started f vars).flow where
  blocks b := by
    show BasicBlock.flow f {} = {}
    simp [BasicBlock.flow, BasicBlock.successors]
  current := rfl
  next := rfl
  env x n := by
    rw [started_env hother hbound hargs x]
    split
    · simp
    · intro hx
      obtain ⟨v, hv, hloc⟩ := Option.map_eq_some_iff.mp hx
      have hforeign := VarsIn.foreign hvars hnew hv
      rw [hloc] at hforeign
      simp [Flow.Loc.own] at hforeign

end Start

/-- A function body is lowered from a start where its arguments are bound. -/
theorem codegenFunctionBody_emits {inst : InstanceFrame} {parents : FunctionInstance} {a : Unit}
    (h : codegenFunctionBody cx inst parents s = .ok (a, s')) (hvars : VarsFinished s)
    (hnew : ¬ Finished s inst.value) :
    VarsFinished s' ∧
      ∃ e s₀ s₁, s'.emitted = s.emitted ++ [e] ∧ e.inst = inst ∧ e.Refines cx s₀ s₁ := by
  obtain ⟨body, _, h₁, h⟩ := run_bind.mp h
  obtain ⟨hbody, rfl⟩ := run_assertSome.mp h₁
  obtain ⟨args, _, h₂, h⟩ := run_bind.mp h
  obtain rfl := (getFunctionArguments_eq _).eq h₂
  obtain ⟨_, _, h₃, h⟩ := run_bind.mp h
  obtain ⟨rfl, rfl⟩ := run_get.mp h₃
  obtain ⟨_, s₁, h₄, h⟩ := run_bind.mp h
  obtain ⟨_, s₅, hemit, h⟩ := run_bind.mp h
  obtain ⟨_, s₂, h₅, hcode⟩ := run_bind.mp hemit
  obtain ⟨_, s₄, hcode, h₈⟩ := run_bind.mp hcode
  obtain ⟨ret, s₃, h₆, h₇⟩ := run_bind.mp hcode
  obtain rfl := run_modify.mp h
  obtain ⟨vars, rfl, hother, hbound⟩ := run_bindArguments h₄
  obtain rfl : s.started inst.value vars = s₂ := run_modify.mp h₅
  have hargs := fun v hv => mem_getFunctionArguments (v := v) h₂ hv
  -- The function starts with its arguments and the variables of the functions around it.
  have hstart := started_start hvars hnew hother hbound hargs
  have hlower := codegenExpr_lowers _ _ _ _ _ _ h₆ hstart.isOpen
  have hframe := Steps.frame (codegenExpr_steps _ _ _ _ _ _ h₆)
  -- The return stays in the last block and adds no edge.
  obtain ⟨hflow, hreturn⟩ := createReturn_flow h₇ (hlower.frame hstart.isOpen).1
  have hframe := hframe.trans hreturn
  obtain ⟨-, hem, hgraph, hlow, -, -⟩ := run_finishFunction h₈
  have hfunc : s₄.func = inst.value := hframe.func
  refine ⟨?_, ⟨inst, parents, s.vars, s₅.graph, s₅.lowered⟩, _, s₄.flow, ?_, rfl, hstart,
    ?_, ?_, rfl,
    ?_, started_env hother hbound hargs, fun x v => VarsIn.foreign hvars hnew⟩
  · have hvars₅ : VarsFinished s₅ := ((started_varsIn hvars hother hbound hargs).steps rfl
      hframe).finish hfunc
      (Nat.lt_of_lt_of_le (lt_of_getFunctionArguments h₂) hframe.functions.length_le) h₈
    exact hvars₅
  · show s₅.emitted ++ _ = _
    rw [hem, hframe.emitted]
    rfl
  · rw [hflow]
    unfold Emitted.outline
    rw [hbody]
    exact hlower
  · intro b
    show (s₅.graph.blocks b).flow inst.value = (s₄.graph.blocks b).flow s₄.func
    rw [hgraph, hfunc]
  · show s₄.lowered.map _ = s₅.lowered.map _
    rw [hlow, hfunc]

/-! ### The other functions -/

/-- The function has no identifiers: variables stay bound to values of finished
functions, and no body is recorded. -/
structure Silent (s s' : Codegen) : Prop where
  vars : VarsFinished s → VarsFinished s'
  emitted : s'.emitted = s.emitted

instance : Carried Silent where
  refl _ := ⟨id, rfl⟩
  trans h₁ h₂ := ⟨h₂.vars ∘ h₁.vars, h₂.emitted.trans h₁.emitted⟩

/-- A change that binds no variable and keeps functions finished. -/
theorem Silent.of_finished (hvars : s'.vars = s.vars) (hemitted : s'.emitted = s.emitted)
    (hfin : ∀ g, Finished s g → Finished s' g) : Silent s s' where
  vars h x v hx := by
    obtain ⟨g, hg, hgf⟩ := h x v (hvars ▸ hx)
    exact ⟨g, hg, hfin g hgf⟩
  emitted := hemitted

/-- Code of a function, from its start to its end. -/
theorem Silent.emission {f : FunctionId} {m : CodegenM Unit} {a : Unit}
    (hm : Ensures StepFrame m) (hlt : f < s.functions.length)
    (h : emitFunction f m s = .ok (a, s')) : Silent s s' := by
  obtain ⟨_, _, h₁, h'⟩ := run_bind.mp h
  obtain ⟨_, s₂, h₂, h₃⟩ := run_bind.mp h'
  have hframe := hm _ _ _ h₂
  obtain rfl : s.started f s.vars = _ := run_modify.mp h₁
  refine ⟨fun hvars => ?_, ?_⟩
  · have hvars₁ : VarsIn (fun g => g = f ∨ Finished (s.started f s.vars) g)
        (s.started f s.vars) := fun x v hx =>
      have ⟨g, hg, hgf⟩ := hvars x v hx
      ⟨g, hg, Or.inr hgf⟩
    exact (hvars₁.steps rfl hframe).finish hframe.func
      (Nat.lt_of_lt_of_le hlt hframe.functions.length_le) h₃
  · rw [(run_finishFunction h₃).2.1, hframe.emitted]
    rfl

/-- The end of a block leaves the rest alone. -/
theorem terminate_frame (t : Terminator) : Ensures StepFrame (terminate t) :=
  .modify fun _ => ⟨rfl, rfl, rfl, List.prefix_rfl, fun _ _ => Or.inl⟩

/-- A return leaves the rest alone. -/
theorem createReturn_frame (ret : Value) : Ensures StepFrame (createReturn ret) :=
  .ite (terminate_frame _) (terminate_frame _)

/-- What takes steps of lowering only leaves the rest alone. -/
theorem Ensures.frame {α : Type} {m : CodegenM α} (h : Ensures (Steps cx) m) :
    Ensures StepFrame m := h.mono fun _ _ => Steps.frame

/-- Changes of the module bind nothing and record no body. -/
theorem ModuleSteps.silent (h : ModuleSteps cx s s') : Silent s s' := by
  induction h with
  | refl => exact Carried.refl s
  | @tail s₁ s₂ _ h ih =>
      have hvars : s₂.vars = s₁.vars := by
        cases h with
        | type h =>
            cases h with
            | reuse | create | setBody | globals => rfl
        | external | reuse | declare | pend => rfl
      exact Carried.trans ih
        (.of_finished hvars h.frame.emitted fun _ hg => hg.of_prefix h.frame.functions)

/-- An external function calls what it stands for, and has no identifiers. -/
theorem codegenFunctionExtern_silent (cx : CodegenContext) (inst : InstanceFrame) :
    Ensures Silent (codegenFunctionExtern inst) := by
  intro s a s' h
  obtain ⟨_, _, h₁, h⟩ := run_bind.mp h
  obtain ⟨-, rfl⟩ := run_assert.mp h₁
  obtain ⟨_, _, h₂, h⟩ := run_bind.mp h
  obtain ⟨rfl, rfl⟩ := run_get.mp h₂
  obtain ⟨fun_, _, h₃, h⟩ := run_bind.mp h
  obtain ⟨-, rfl⟩ := run_assertSome.mp h₃
  obtain ⟨external, s₁, h₄, h⟩ := run_bind.mp h
  obtain ⟨args, _, h₅, h⟩ := run_bind.mp h
  obtain rfl := (getFunctionArguments_eq _).eq h₅
  have hexternal : ModuleSteps cx s s₁ := getOrInsertFunction_steps _ _ _ _ _ _ h₄
  refine Carried.trans (ModuleSteps.silent hexternal)
    (Silent.emission ?_ (lt_of_getFunctionArguments h₅) h)
  have hcall : Ensures (Steps cx) (createCall external args) := createCall_steps _ _
  exact .bind hcall.frame fun _ => createReturn_frame _

section

variable {R : Codegen → Codegen → Prop} [hR : StepClosed R cx]

include hR

/-- An assertion of the builtin functions is a call in a branch of its own. -/
theorem codegenAssert_steps (name : Str) (arg : Value) :
    Ensures R (codegenAssert name arg) :=
  .ite (.bind (insert_steps _ _) fun _ => .bind (codegenTrapIf_steps _ _) fun _ =>
    .bind (terminate_steps _) fun _ => .pure _) (.pure _)

/-- A builtin function is instructions and calls of the run-time library. -/
theorem codegenBuiltin_steps (inst : InstanceFrame) (args : List Value) :
    Ensures R (codegenBuiltin cx inst args) := by
  unfold codegenBuiltin
  split
  · exact .ite (.bind (hR.type _ _) fun _ => .bind (terminate_steps _) fun _ =>
      .pure _) (.pure _)
  · refine .ite ?_ (.ite ?_ (codegenAssert_steps _ _))
    · exact .bind (hR.type _ _) fun _ => .bind (codegenNewArr_steps _ _) fun _ =>
        .bind (insert_steps _ _) fun _ => .bind (insert_steps _ _) fun _ =>
        .bind (terminate_steps _) fun _ => .pure _
    · exact .bind (createExtractValue_steps _ _) fun _ => .bind (terminate_steps _) fun _ =>
        .pure _
  · exact codegenAssert_steps _ _
  · exact .pure _

end

/-- An error is printed, and touches no variable. -/
theorem codegenError_frame (location : Location) (message : Str) :
    Ensures StepFrame (codegenError location message) :=
  .modify fun _ => ⟨rfl, rfl, rfl, List.prefix_rfl, fun _ _ => Or.inl⟩

/-- A builtin function has no identifiers. -/
theorem codegenFunctionBuiltin_silent (inst : InstanceFrame) :
    Ensures Silent (codegenFunctionBuiltin cx inst) := by
  intro s a s' h
  obtain ⟨_, _, h₁, h⟩ := run_bind.mp h
  obtain ⟨-, rfl⟩ := run_assert.mp h₁
  obtain ⟨args, _, h₂, h⟩ := run_bind.mp h
  obtain rfl := (getFunctionArguments_eq _).eq h₂
  have hbuiltin : Ensures (Steps cx) (codegenBuiltin cx inst args) := codegenBuiltin_steps _ _
  exact Silent.emission (.bind hbuiltin.frame fun known =>
    .ite (.pure _) (codegenError_frame _ _)) (lt_of_getFunctionArguments h₂) h

/-- The place of an error is worked out without a change of the state. -/
theorem assemblyLocation_eq (location : Location) (start : Nat) (err : SMDiagnostic) :
    Ensures Eq (assemblyLocation location start err) :=
  .ite (.bind (.assert _) fun _ => .pure _) (.pure _)

/-- Inline assembly has no identifiers, and LLVM's parser adds functions only. -/
theorem codegenFunctionLLVM_silent (inst : InstanceFrame) :
    Ensures Silent (codegenFunctionLLVM cx inst) := by
  unfold codegenFunctionLLVM
  split
  case h_2 => exact .throw _
  case h_1 n code _ =>
    intro s a s' h
    obtain ⟨_, _, h₁, h⟩ := run_bind.mp h
    obtain ⟨rfl, rfl⟩ := run_get.mp h₁
    obtain ⟨fun_, _, h₂, h⟩ := run_bind.mp h
    obtain ⟨-, rfl⟩ := run_assertSome.mp h₂
    generalize assemblyText fun_ code = texts at h
    obtain ⟨header, text⟩ := texts
    obtain ⟨_, _, h₃, h⟩ := run_bind.mp h
    obtain ⟨rfl, rfl⟩ := run_get.mp h₃
    cases hparse : cx.parseAssemblyInto s.functions text with
    -- The assembly does not parse: a diagnostic, and the function stays without a body.
    | error err =>
        rw [hparse] at h
        obtain ⟨location, _, h₄, h⟩ := run_bind.mp h
        obtain rfl := (assemblyLocation_eq _ _ _).eq h₄
        obtain ⟨-, rfl⟩ := run_modify.mp h
        exact .of_finished rfl rfl fun _ => id
    -- The parsed functions come after the others, and the body is written into its own.
    | ok added =>
        rw [hparse] at h
        obtain ⟨-, rfl⟩ := run_modify.mp h
        refine .of_finished rfl rfl fun g hg => ?_
        obtain ⟨f, hf, hbody⟩ := hg
        have hlt : g < s.functions.length := (List.getElem?_eq_some_iff.mp hf).1
        by_cases hgf : inst.value = g
        · refine ⟨{ f with body := .assembly text }, ?_, rfl⟩
          rw [List.getElem?_append_left (by simpa using hlt), hgf, List.getElem?_modify_eq, hf]
          rfl
        · refine ⟨f, ?_, hbody⟩
          rw [List.getElem?_append_left (by simpa using hlt), List.getElem?_modify_ne _ _ hgf, hf]

/-! ### A whole run -/

/-- What holds between two functions of a run. -/
structure RunInvariant (cx : CodegenContext) (s : Codegen) : Prop where
  vars : VarsFinished s
  emitted : ∀ e ∈ s.emitted, ∃ s₀ s₁, e.Refines cx s₀ s₁

/-- A function without identifiers keeps the invariant of the run. -/
theorem RunInvariant.silent (h : RunInvariant cx s) (hs : Silent s s') : RunInvariant cx s' where
  vars := hs.vars h.vars
  emitted e he := h.emitted e (hs.emitted ▸ he)

/-- The code of a function is silent, or it is a body. -/
theorem codegenFunctionCode_cases (inst : InstanceFrame) (parents : FunctionInstance) :
    Ensures Silent (codegenFunctionCode cx inst parents) ∨
      codegenFunctionCode cx inst parents = codegenFunctionBody cx inst parents := by
  unfold codegenFunctionCode
  split
  · exact Or.inl (codegenFunctionExtern_silent cx inst)
  split
  · exact Or.inl (codegenFunctionBuiltin_silent inst)
  split
  · exact Or.inl (codegenFunctionLLVM_silent inst)
  · exact Or.inr rfl

/-- The code of one function keeps the invariant: a body is recorded with the start that
it was lowered from. -/
theorem codegenFunctionCode_invariant {inst : InstanceFrame} {parents : FunctionInstance}
    {a : Unit} (h : codegenFunctionCode cx inst parents s = .ok (a, s'))
    (hinv : RunInvariant cx s) (hnew : ¬ Finished s inst.value) : RunInvariant cx s' := by
  rcases codegenFunctionCode_cases inst parents with hsilent | hbody
  · exact hinv.silent (hsilent _ _ _ h)
  · rw [hbody] at h
    obtain ⟨hvars, e, s₀, s₁, he, -, hrefines⟩ := codegenFunctionBody_emits h hinv.vars hnew
    refine ⟨hvars, fun e' he' => ?_⟩
    rw [he, List.mem_append, List.mem_singleton] at he'
    rcases he' with he' | rfl
    · exact hinv.emitted e' he'
    · exact ⟨s₀, s₁, hrefines⟩

/-- A function keeps the invariant: it had no body before, as is asserted. -/
theorem codegenFunction_invariant {fn : FunctionInstance} {a : Unit}
    (h : codegenFunction cx fn s = .ok (a, s')) (hinv : RunInvariant cx s) :
    RunInvariant cx s' := by
  cases fn with
  | nil => exact (run_throw.mp h).elim
  | cons inst parents =>
      obtain ⟨_, _, h₁, h⟩ := run_bind.mp h
      obtain ⟨rfl, rfl⟩ := run_get.mp h₁
      obtain ⟨fun_, _, h₂, h⟩ := run_bind.mp h
      obtain ⟨hfun, rfl⟩ := run_assertSome.mp h₂
      obtain ⟨_, _, h₃, h⟩ := run_bind.mp h
      obtain ⟨hempty, rfl⟩ := run_assert.mp h₃
      obtain ⟨_, s₁, h₄, h⟩ := run_bind.mp h
      obtain rfl := run_modify.mp h
      have hnew : ¬ Finished s inst.value := by
        rintro ⟨f, hf, hbody⟩
        rw [hfun, Option.some.injEq] at hf
        rw [← hf, hempty] at hbody
        exact Bool.noConfusion hbody
      refine (codegenFunctionCode_invariant h₄ hinv hnew).silent
        (.of_finished rfl rfl fun g hg => ?_)
      obtain ⟨f, hf, hbody⟩ := hg
      by_cases hgf : inst.value = g
      · refine ⟨{ f with alwaysInline := f.alwaysInline || inst.decl.attributes.inline_ }, ?_,
          hbody⟩
        rw [hgf, List.getElem?_modify_eq, hf]
        rfl
      · refine ⟨f, ?_, hbody⟩
        rw [List.getElem?_modify_ne _ _ hgf, hf]

/-- Whatever the number of functions, the invariant holds after the loop. -/
theorem codegenPending_invariant {count : Nat} {a : Unit}
    (h : codegenPending cx count s = .ok (a, s')) (hinv : RunInvariant cx s) :
    RunInvariant cx s' := by
  induction count generalizing s with
  | zero =>
      obtain ⟨_, _, h₁, h⟩ := run_bind.mp h
      obtain ⟨rfl, rfl⟩ := run_get.mp h₁
      cases hpending : s.pendingFunctions with
      | nil =>
          rw [hpending] at h
          exact (run_pure.mp h).2 ▸ hinv
      | cons =>
          rw [hpending] at h
          exact (run_throw.mp h).elim
  | succ count ih =>
      obtain ⟨_, _, h₁, h⟩ := run_bind.mp h
      obtain ⟨rfl, rfl⟩ := run_get.mp h₁
      cases hpending : s.pendingFunctions with
      | nil =>
          rw [hpending] at h
          exact (run_pure.mp h).2 ▸ hinv
      -- One function is lowered, and what it asks for is added to the end of the queue.
      | cons inst pending =>
          rw [hpending] at h
          obtain ⟨_, _, h₂, h⟩ := run_bind.mp h
          obtain rfl := run_modify.mp h₂
          obtain ⟨_, s₁, h₃, h⟩ := run_bind.mp h
          obtain ⟨_, _, h₄, h⟩ := run_bind.mp h
          obtain rfl := run_modify.mp h₄
          have hinv₁ := codegenFunction_invariant h₃
            (hinv.silent (.of_finished rfl rfl fun _ => id))
          exact ih h (hinv₁.silent (.of_finished rfl rfl fun _ => id))

/-- Every body that a run of `codegen` emits is its outline, lowered. -/
theorem codegen_emitted {root : Ast} {entry : FunctionId} (h : codegen cx root s = .ok (entry, s'))
    {e : Emitted} (he : e ∈ s'.emitted) : ∃ s₀ s₁, e.Refines cx s₀ s₁ := by
  cases root with
  | «module» n name body autoimports =>
      obtain ⟨_, s₁, -, h⟩ := run_bind.mp h
      obtain ⟨_, s₂, -, h⟩ := run_bind.mp h
      obtain ⟨_, s₃, h₃, h⟩ := run_bind.mp h
      obtain ⟨-, rfl⟩ := run_modify.mp h₃
      obtain ⟨_, s₄, h₄, h⟩ := run_bind.mp h
      obtain ⟨-, rfl⟩ := run_pure.mp h
      refine (codegenPending_invariant h₄ ⟨fun x v hx => ?_, fun e he => ?_⟩).emitted e he
      · exact absurd hx (by simp)
      · exact absurd he List.not_mem_nil
  | _ => exact (run_throw.mp h).elim

end Aike
