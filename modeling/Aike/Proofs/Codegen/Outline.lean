import Aike.Proofs.Codegen.Builder
import Aike.Lib.Flow.Basic

/-!
# `Aike.Proofs.Codegen.Outline`: control flow and storage

What lowering an expression means for control flow and for variables, in the
terms of `Flow`.

* `outline` is the structure of an expression, read off the tree and the targets
  of its identifiers: what it binds, declares, reads and branches on, in the
  order in which `codegenExpr` goes through it.
* `Codegen.flow` is what the state says about blocks and variables.
* The lemmas say what each step of the builder is on that view.
-/

set_option autoImplicit false

namespace Aike

/-- Structured code over the variables of a program. -/
abbrev Outline := Flow.Tree VarId

section Outline

variable (cx : CodegenContext)

/-- What lowering an identifier does with a variable. -/
def outlineIdent (n : Node) (kind : CodegenKind) : Outline :=
  match cx.store.targets n.id with
  | [target] =>
      match target.kind, kind with
      | .function, _ => .skip
      | .variable, .value => .read target.id
      | .variable, .ref | .value, _ | .argument, _ => .mention target.id
  | _ => .skip

section Nodes

variable (outline : Ast → CodegenKind → Outline)

/-- Expressions that are lowered one after the other. -/
def outlineAll : List Ast → Outline
  | [] => .skip
  | e :: es => .seq (outline e .value) (outlineAll es)

/-- The defaults of the fields, from a field on, that a literal does not have. -/
def outlineDefaults (given : List Int) (i : Nat) : List (FieldDecl × Option Ast) → Outline
  | [] => .skip
  | field :: fields =>
      if given.contains (i : Int) then outlineDefaults given (i + 1) fields
      else
        match field.2 with
        | some e => .seq (outline e .value) (outlineDefaults given (i + 1) fields)
        | none => .skip

/-- A struct literal: the defaults that it needs, then its own fields. -/
def outlineLiteralStruct (n : Node) (fields : List (FieldRef × Ast)) : Outline :=
  match cx.store.astType n.id with
  | some (.inst _ _ (.struct d)) =>
      match cx.program.tyDef d with
      | some tydef =>
          .seq (outlineDefaults outline (fields.map fun f => cx.store.fieldIndex f.1.id) 0
            tydef.fields) (outlineAll outline (fields.map Prod.snd))
      | none => .skip
  | _ => .skip

/-- The extra arguments of a call. Each gets a slot. -/
def outlineExtraArgs : List Ast → Outline
  | [] => .skip
  | a :: args => .seq (outline a .value) (.seq .skip (outlineExtraArgs args))

/-- A call: the function, then the arguments. -/
def outlineCall (expr : Ast) (args : List Ast) : Outline :=
  match cx.store.astType expr.node.id with
  | some (.function params _ true) =>
      .seq (outline expr .value) (.seq .skip (.seq (outlineAll outline (args.take params.length))
        (outlineExtraArgs outline (args.drop params.length))))
  | _ => .seq (outline expr .value) (outlineAll outline args)

/-- The variables of a loop. -/
def loopVars (var : Variable) : Option Variable → List VarId
  | none => [var.id]
  | some index => [var.id, index.id]

end Nodes

/-- The structure of an expression, down to `fuel` levels. -/
def outline : Nat → Ast → CodegenKind → Outline
  | 0, _, _ => .skip
  | fuel + 1, root, kind =>
      let outline := outline fuel
      match root with
      | .literalTuple _ fields => outlineAll outline fields
      | .literalArray _ elements => outlineAll outline elements
      | .literalStruct n _ fields => outlineLiteralStruct cx outline n fields
      | .ident n _ => outlineIdent cx n kind
      | .member _ expr _ => outline expr kind
      | .block _ body => outlineAll outline body
      | .module _ _ body _ => outline body .value
      | .call _ expr args => outlineCall cx outline expr args
      | .unary _ _ expr => outline expr .value
      | .binary _ _ left right => .shortCircuit (outline left .value) (outline right .value)
      | .index _ expr idx => .seq (outline expr .value) (.seq (outline idx .value) .trap)
      | .assign _ left right => .seq (outline left .ref) (outline right .value)
      | .ifThen _ cond thenbody => .ifThen (outline cond .value) (outline thenbody .value)
      | .ifElse _ cond thenbody elsebody =>
          .ifElse (outline cond .value) (outline thenbody .value) (outline elsebody .value)
      | .forIn _ var index expr body =>
          .forIn (outline expr .value) (loopVars var index) (outline body .value)
      | .while _ expr body => .while (outline expr .value) (outline body .value)
      | .varDecl _ var expr => .seq (outline expr .value) (.declare var.id)
      | .literalVoid _ | .literalBool _ _ | .literalInteger _ _ | .literalFloat _ _
      | .literalString _ _ | .fn _ _ _ | .llvm _ _ | .fnDecl _ _ _ _ _ _ | .tyDecl _ _ _ _ _
      | .import _ _ => .skip

end Outline

/-! ### The view -/

/-- What a variable is bound to, seen from a function. No variable is bound to a
constant. -/
def Value.loc (f : FunctionId) (v : Value) : Flow.Loc :=
  match v.value with
  | .slot g n => if g = f then .slot n else .foreignSlot
  | .arg g _ | .reg g _ => if g = f then .value else .foreignValue
  | _ => .foreignValue

/-- A value is one of the function's own if and only if it belongs to that function. -/
theorem Value.loc_own {f : FunctionId} {v : Value} : (v.loc f).own = true ↔ v.func? = some f := by
  obtain ⟨type, value⟩ := v
  cases value with
  | slot g n | arg g n | reg g n =>
      simp only [Value.loc, Value.func?, Option.some.injEq]
      split <;> simp_all [Flow.Loc.own]
  | _ => simp [Value.loc, Value.func?, Flow.Loc.own]

/-- What an instruction does to the slot of a variable. -/
def Op.events (f : FunctionId) : Op → List Flow.Event
  | .load address (some _) => (address.loc f).events
  | .store _ ⟨_, .slot g n⟩ (some _) => if g = f then [.init (some n)] else []
  | _ => []

/-- What a block says about control flow and storage. -/
def BasicBlock.flow (f : FunctionId) (b : BasicBlock) : Flow.Block where
  phis := b.phis.map fun phi => phi.incoming.map Prod.snd
  events := b.instrs.flatMap fun i => i.op.events f
  succ := {t | t ∈ b.successors}

/-- What the state says about control flow and variables. -/
def Codegen.flow (s : Codegen) : Flow.State VarId where
  blocks b := (s.graph.blocks b).flow s.func
  next := s.graph.size
  current := s.insertBlock
  env x := (s.vars x).map (Value.loc s.func)
  slots := s.graph.allocas.length
  mentions := s.lowered.map fun m => (m.1, m.2.loc s.func)

/-! ### The builder on the view -/

variable {s : Codegen}

/-- A block is changed: `g` is what the change is on the view. -/
theorem flow_modifyBlock {b : BlockId} {f : BasicBlock → BasicBlock} {g : Flow.Block → Flow.Block}
    (h : (f (s.graph.blocks b)).flow s.func = g (s.flow.blocks b)) :
    (s.modifyBlock b f).flow =
      { s.flow with
        blocks := fun c => if c = b then g (s.flow.blocks c) else s.flow.blocks c } := by
  refine congrArg (fun blocks => ({ s.flow with blocks } : Flow.State VarId)) (funext fun c => ?_)
  show (update s.graph.blocks b _ c).flow s.func = _
  unfold update
  split
  case isTrue hc => rw [h, hc]
  case isFalse => rfl

/-- To insert an instruction emits its events into the current block of the flow. -/
theorem flow_inserted (op : Op) : (s.inserted op).flow = s.flow.emit (op.events s.func) := by
  show (s.modifyBlock s.insertBlock fun b =>
    { b with instrs := b.instrs ++ [⟨s.nextResult, op⟩] }).flow = _
  refine flow_modifyBlock (g := fun b => { b with events := b.events ++ op.events s.func }) ?_
  simp [BasicBlock.flow, Codegen.flow, BasicBlock.successors]

/-- To emit no events changes nothing. -/
theorem emit_nil (s : Flow.State VarId) : s.emit [] = s := by
  refine congrArg (fun blocks => ({ s with blocks } : Flow.State VarId)) (funext fun c => ?_)
  rw [List.append_nil]
  exact ite_self _

/-- To end a block by a terminator is to jump to its successors. -/
theorem flow_terminated (t : Terminator) :
    (s.terminated t).flow = s.flow.jump {b | b ∈ t.successors} :=
  flow_modifyBlock (g := fun b => { b with succ := {b | b ∈ t.successors} }) rfl

/-- To add a PHI node records the blocks that its values come from. -/
theorem flow_phiAdded (type : LType) (incoming : List (Value × BlockId)) :
    (s.phiAdded type incoming).flow = s.flow.phi (incoming.map Prod.snd) := by
  show (s.modifyBlock s.insertBlock fun b =>
    { b with phis := b.phis ++ [⟨s.nextResult, type, incoming⟩] }).flow = _
  refine flow_modifyBlock (g := fun b => { b with phis := b.phis ++ [incoming.map Prod.snd] }) ?_
  simp [BasicBlock.flow, Codegen.flow, BasicBlock.successors]

/-- A block with one PHI node starts with it. -/
theorem flow_incomingAdded {b incoming : BlockId} {value : Value}
    (h : (s.flow.blocks b).phis.length = 1) :
    (s.incomingAdded b value incoming).flow = s.flow.addIncoming b incoming := by
  refine flow_modifyBlock (g := fun b => { b with phis := b.phis.map (· ++ [incoming]) }) ?_
  simp only [Codegen.flow, BasicBlock.flow, List.length_map] at h ⊢
  obtain ⟨phi, hphi⟩ := List.length_eq_one_iff.mp h
  simp [hphi, BasicBlock.successors]

/-- To allocate a slot is to allocate it in the flow. -/
theorem flow_allocated (type : LType) (size : Nat) :
    (s.allocated type size).flow = s.flow.alloc 1 := rfl

/-- To bind a variable to a value binds it to the place of that value. -/
theorem flow_setVar (x : VarId) (v : Value) :
    { s with vars := update s.vars x (some v) }.flow = s.flow.setEnv x (v.loc s.func) := by
  refine congrArg (fun env => ({ s.flow with env } : Flow.State VarId)) (funext fun y => ?_)
  show (update s.vars x (some v) y).map _ = if y = x then _ else _
  unfold update
  split
  · rfl
  · rfl

/-- To note down how a variable was lowered mentions it with the place of that value. -/
theorem flow_lowered (x : VarId) (v : Value) :
    { s with lowered := s.lowered ++ [(x, v)] }.flow = s.flow.mention x (v.loc s.func) :=
  congrArg (fun mentions => ({ s.flow with mentions } : Flow.State VarId))
    (by rw [List.map_append]; rfl)

end Aike
