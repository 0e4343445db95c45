import Aike.Proofs.Codegen.Builder
import Mathlib.Logic.Relation

/-!
# `Aike.Proofs.Codegen.Step`: what lowering an expression can do

Lowering an expression changes the state in few ways, and `Step` lists them: it
asks for a struct or a function and gets an old or a new one, it puts a new
function on the list, it adds code, it binds a variable to a value of the
function that it is lowering, or it lowers an identifier. So an invariant of code
generation is one case for each.

* `TypeStep` is what `codegenType` and `codegenTypeInfo` can do.
* `codegenType_steps`, `codegenTypeInfo_steps` and `codegenExpr_steps` say that
  these functions take such steps only.
-/

set_option autoImplicit false

namespace Aike

open Relation

variable {cx : CodegenContext} {α : Type}

/-- A relation of many steps is carried. -/
instance {R : Codegen → Codegen → Prop} : Carried (ReflTransGen R) where
  refl _ := ReflTransGen.refl
  trans := ReflTransGen.trans

/-- The request is one that `codegenType` makes in the state. -/
structure StructRequest.Asked (cx : CodegenContext) (s : Codegen) (r : StructRequest) : Prop where
  instance_eq : r.instance_ = s.currentFunction
  name_eq : mangleType (getGenericInstance r.instance_) cx.fuel r.type = .ok r.name
  key_eq : ∃ node d tyargs, r.type = .inst node tyargs (.struct d) ∧
    r.key = structKey cx r.instance_ d tyargs

/-- A change that `codegenType` or `codegenTypeInfo` makes. -/
inductive TypeStep (cx : CodegenContext) : Codegen → Codegen → Prop
  | reuse {s r st} (asked : r.Asked cx s) (found : s.getTypeByName r.name = some st)
      (result : r.result = st.origin) :
      TypeStep cx s { s with structRequests := s.structRequests ++ [r] }
  | create {s r} (asked : r.Asked cx s) (notFound : s.getTypeByName r.name = none)
      (result : r.result = r.key) :
      TypeStep cx s
        { s with
          structs := s.structs ++ [{ name := r.name, origin := r.key }]
          structRequests := s.structRequests ++ [r] }
  | setBody (s name body) :
      TypeStep cx s
        { s with
          structs := s.structs.map fun st =>
            if st.name = name then { st with body := some body } else st }
  | globals (s gs) : TypeStep cx s { s with globals := gs }

/-- The parent of the function that a request asks for. -/
def FnRequest.parent (cx : CodegenContext) (r : FnRequest) : FunctionInstance :=
  getFunctionInstance r.instance_ (cx.store.parent r.decl.node.id)

/-- The request is one that `codegenFunctionDecl` makes in the state. -/
structure FnRequest.Asked (cx : CodegenContext) (s : Codegen) (r : FnRequest) : Prop where
  instance_eq : r.instance_ = s.currentFunction
  name_eq : mangleFn (getGenericInstance r.instance_) cx.fuel r.decl.var.name r.id r.type r.tyargs
    r.parentName = .ok r.name
  key_eq : r.key = ⟨r.decl.node.id, r.tyargs.map r.instance_.concrete,
    (r.parent cx).head?.map InstanceFrame.value⟩
  parents_eq : r.parents = r.parent cx
  module_eq : r.moduleName = cx.store.moduleName r.decl.node.id
  parentName_eq : Aike.parentName cx r.decl (r.parent cx) s = .ok (r.parentName, s)

/-- A change of the module that lowering an expression makes. -/
inductive ModuleStep (cx : CodegenContext) : Codegen → Codegen → Prop
  | type {s s'} (h : TypeStep cx s s') : ModuleStep cx s s'
  | external {s f} (notFound : s.getFunction f.name = none) (origin : f.origin = none)
      (body : f.body = .empty) : ModuleStep cx s { s with functions := s.functions ++ [f] }
  | reuse {s r} (asked : r.Asked cx s) (found : s.getFunction r.name = some r.result) :
      ModuleStep cx s { s with requests := s.requests ++ [r] }
  | declare {s r f} (asked : r.Asked cx s) (notFound : s.getFunction r.name = none)
      (name : f.name = r.name) (origin : f.origin = some r.key) (body : f.body = .empty)
      (result : r.result = s.functions.length) :
      ModuleStep cx s { s with functions := s.functions ++ [f], requests := s.requests ++ [r] }
  | pend {s r types} (mem : r ∈ s.requests) (tyargs : r.tyargs.length = r.decl.tyargs.length)
      (final : r.tyargs.mapM (finalType r.instance_) = .ok types) :
      ModuleStep cx s
        { s with
          pendingFunctions :=
            ({ value := r.result, decl := r.decl,
               generics := (r.decl.tyargs.map Generic.id).zip types } :: r.parents) ::
              s.pendingFunctions }

/-- A change that lowering an expression makes. -/
inductive Step (cx : CodegenContext) : Codegen → Codegen → Prop
  | module {s s'} (h : ModuleStep cx s s') : Step cx s s'
  | code (s graph insertBlock nextResult) :
      Step cx s { s with graph, insertBlock, nextResult }
  | variable {s} (x : VarId) {v : Value} (own : v.func? = some s.func) :
      Step cx s { s with vars := update s.vars x (some v) }
  | lowered {s x v} (bound : s.vars x = some v) :
      Step cx s { s with lowered := s.lowered ++ [(x, v)] }

/-- Some steps of `codegenType` or `codegenTypeInfo`. -/
abbrev TypeSteps (cx : CodegenContext) : Codegen → Codegen → Prop := ReflTransGen (TypeStep cx)

/-- Some changes of the module. -/
abbrev ModuleSteps (cx : CodegenContext) : Codegen → Codegen → Prop := ReflTransGen (ModuleStep cx)

/-- Some steps of lowering. -/
abbrev Steps (cx : CodegenContext) : Codegen → Codegen → Prop := ReflTransGen (Step cx)

/-- Steps of `codegenType` are changes of the module. -/
theorem TypeSteps.module {s s' : Codegen} (h : TypeSteps cx s s') : ModuleSteps cx s s' :=
  ReflTransGen.mono (fun _ _ => ModuleStep.type) _ _ h

/-- Changes of the module are steps of lowering. -/
theorem ModuleSteps.steps {s s' : Codegen} (h : ModuleSteps cx s s') : Steps cx s s' :=
  ReflTransGen.mono (fun _ _ => Step.module) _ _ h

/-! ### Types -/

/-- A step that leaves the state as it is. -/
theorem Ensures.ofEq {R : Codegen → Codegen → Prop} [Carried R] {m : CodegenM α}
    (h : Ensures Eq m) : Ensures R m := h.mono fun s _ h => h ▸ Carried.refl s

/-- Looking up what a type parameter is bound to changes nothing. -/
theorem tryGetGenericInstance_eq (type : Ty) : Ensures Eq (tryGetGenericInstance type) := by
  unfold tryGetGenericInstance
  split
  · exact .bind_get fun cg => .bind (.lift _) fun t => .pure _
  · exact .pure _

/-- The types of the members of a struct are read from the program, so nothing changes. -/
theorem memberTypes_eq (type : Ty) (count : Nat) : Ensures Eq (memberTypes cx type count) :=
  .mapM (fun _ => .lift _) _

/-- What lowering a struct type does, after the request for it: the struct is there,
or it is made, the members are lowered and the struct gets its body. -/
inductive CodegenStruct (cx : CodegenContext) (fuel count : Nat) (s : Codegen) (r : StructRequest) :
    Codegen → Prop
  | reuse {st} (found : s.getTypeByName r.name = some st) (result : r.result = st.origin) :
      CodegenStruct cx fuel count s r { s with structRequests := s.structRequests ++ [r] }
  | create {members fields t} (notFound : s.getTypeByName r.name = none) (result : r.result = r.key)
      (member : (List.range count).mapM (typeMember cx.program cx.store r.type) = .ok members)
      (field : members.mapM (codegenType cx fuel)
        { s with
          structs := s.structs ++ [{ name := r.name, origin := r.key }]
          structRequests := s.structRequests ++ [r] } = .ok (fields, t)) :
      CodegenStruct cx fuel count s r
        { t with
          structs := t.structs.map fun st =>
            if st.name = r.name then { st with body := some fields } else st }

/-- A run of `codegenType` on a struct type: the definition, the request that was made for
it, and what happened after the request. The one place where `codegenType` is unfolded for
structs; what the runs do to the module follows from `CodegenStruct`. -/
theorem run_codegenStruct {fuel : Nat} {node : InstanceNode} {tyargs : List Ty} {d : DefId}
    {s s' : Codegen} {l : LType}
    (h : codegenType cx (fuel + 1) (.inst node tyargs (.struct d)) s = .ok (l, s')) :
    ∃ tydef r, cx.program.tyDef d = some tydef ∧ r.type = .inst node tyargs (.struct d) ∧
      r.Asked cx s ∧ l = .named r.name ∧ CodegenStruct cx fuel tydef.fields.length s r s' := by
  unfold codegenType at h
  obtain ⟨_, _, h₁, h⟩ := run_bind.mp h
  obtain ⟨rfl, rfl⟩ := run_pure.mp h₁
  obtain ⟨tydef, _, h₂, h⟩ := run_bind.mp h
  obtain ⟨htydef, rfl⟩ := run_assertSome.mp h₂
  simp only [run_bind, run_get, run_lift] at h
  obtain ⟨_, _, ⟨rfl, rfl⟩, name, _, ⟨hname, rfl⟩, _, _, ⟨rfl, rfl⟩, h⟩ := h
  have asked : ∀ result, StructRequest.Asked cx s
      ⟨_, s.currentFunction, structKey cx s.currentFunction d tyargs, name, result⟩ :=
    fun result => ⟨rfl, hname, node, d, tyargs, rfl, rfl⟩
  cases hst : s.getTypeByName name with
  | some st =>
      rw [hst] at h
      simp only [requestStruct, run_bind, run_modify, run_pure] at h
      obtain ⟨_, _, rfl, rfl, rfl⟩ := h
      exact ⟨tydef, _, htydef, rfl, asked st.origin, rfl, .reuse hst rfl⟩
  | none =>
      rw [hst] at h
      simp only [createStruct, requestStruct, setBody, memberTypes, run_bind, run_modify,
        run_mapM_lift,
        run_pure] at h
      obtain ⟨_, _, rfl, _, _, rfl, members, _, ⟨hmembers, rfl⟩, fields, t, hfields, _, _, rfl, rfl,
        rfl⟩ := h
      exact ⟨tydef, _, htydef, rfl, asked _, rfl, .create hst rfl hmembers hfields⟩

/-- A relation holds of lowering a type if it holds of lowering a struct type. -/
theorem codegenType_ensures {R : Codegen → Codegen → Prop} [Carried R]
    (hstruct : ∀ fuel node tyargs d, (∀ t, Ensures R (codegenType cx fuel t)) →
      Ensures R (codegenType cx (fuel + 1) (.inst node tyargs (.struct d)))) (fuel :
        Nat) (type : Ty) :
    Ensures R (codegenType cx fuel type) := by
  induction fuel generalizing type with
  | zero => exact .throw _
  | succ fuel ih =>
      have hstruct := fun node tyargs d => hstruct fuel node tyargs d ih
      unfold codegenType at hstruct ⊢
      refine .bind (tryGetGenericInstance_eq type).ofEq fun inst => ?_
      cases inst with
      | some inst => exact ih inst
      | none =>
          cases type with
          | void | bool | integer | float | string => exact .pure _
          | unknown u => exact .throw _
          | tuple fields => exact .bind (.mapM ih fields) fun _ => .pure _
          | array element | pointer element => exact .bind (ih element) fun _ => .pure _
          | function args ret varargs =>
              exact .bind (ih ret) fun _ => .bind (.mapM ih args) fun _ => .pure _
          | inst node tyargs target =>
              cases target with
              | unresolved | generic g => exact .throw _
              | struct d =>
                  intro s a s' h
                  exact hstruct node tyargs d s a s' (run_bind.mpr ⟨_, _, rfl, h⟩)

/-- Lowering a type takes steps of `TypeStep` only: the induction is
`codegenType_ensures`, so what is left is a struct type, which is one step or a step
before and one after those of its members. -/
theorem codegenType_steps (fuel : Nat) (type : Ty) :
    Ensures (TypeSteps cx) (codegenType cx fuel type) := by
  refine codegenType_ensures ?_ fuel type
  intro fuel node tyargs d ih s a s' h
  obtain ⟨tydef, r, -, -, asked, -, hrun⟩ := run_codegenStruct h
  cases hrun with
  | reuse found result => exact .single (.reuse asked found result)
  | create notFound result _ field =>
      have hfields : TypeSteps cx _ _ := Ensures.mapM ih _ _ _ _ field
      exact .head (.create asked notFound result) (hfields.tail (.setBody _ _ _))

/-! ### Relations that hold of lowering -/

/-- A relation that holds of a change of the module, whatever types do to it. -/
class ModuleClosed (R : Codegen → Codegen → Prop) (cx : outParam CodegenContext) : Prop
    extends Carried R where
  module : ∀ {s s'}, ModuleStep cx s s' → s'.structs = s.structs →
    s'.structRequests = s.structRequests → R s s'
  type : ∀ fuel t, Ensures R (codegenType cx fuel t)

/-- A relation that holds of lowering an expression, whatever types do to it. -/
class StepClosed (R : Codegen → Codegen → Prop) (cx : outParam CodegenContext) : Prop
    extends ModuleClosed R cx where
  step : ∀ {s s'}, Step cx s s' → s'.structs = s.structs →
    s'.structRequests = s.structRequests → R s s'

instance : ModuleClosed (ModuleSteps cx) cx where
  module h _ _ := .single h
  type fuel t := (codegenType_steps fuel t).mono fun _ _ => TypeSteps.module

instance : StepClosed (Steps cx) cx where
  module h _ _ := .single (.module h)
  type fuel t := (codegenType_steps fuel t).mono fun _ _ h => (TypeSteps.module h).steps
  step h _ _ := .single h

variable {R : Codegen → Codegen → Prop}

/-- Lowering a type leaves what a request for a function depends on. -/
theorem TypeSteps.functions {s s' : Codegen} (h : TypeSteps cx s s') :
    s'.functions = s.functions ∧ s'.currentFunction = s.currentFunction := by
  induction h with
  | refl => exact ⟨rfl, rfl⟩
  | tail _ h ih =>
      cases h with
      | reuse | create | setBody | globals => exact ih

/-- The name of a parent is looked up in the functions. -/
theorem parentName_mono {decl : FnDecl} {parent : FunctionInstance} {s t : Codegen}
    {name : Str} (hf : s.functions <+: t.functions)
    (h : parentName cx decl parent s = .ok (name, s)) :
    parentName cx decl parent t = .ok (name, t) := by
  cases parent with
  | cons p parent =>
      simp only [parentName, run_bind, run_get, run_assertSome, run_pure] at h ⊢
      obtain ⟨_, _, ⟨rfl, rfl⟩, f, _, ⟨hp, -⟩, rfl, -⟩ := h
      obtain ⟨hlt, rfl⟩ := List.getElem?_eq_some_iff.mp hp
      have hp' := List.prefix_iff_getElem?.mp hf p.value hlt
      exact ⟨_, _, ⟨rfl, rfl⟩, _, _, ⟨hp', rfl⟩, rfl, rfl⟩
  | nil =>
      unfold parentName at h ⊢
      cases hm : cx.store.moduleName decl.node.id with
      | none =>
          simp only [hm, run_pure] at h ⊢
          exact ⟨h.1, trivial⟩
      | some m =>
          simp only [hm, run_pure] at h ⊢
          exact ⟨h.1, trivial⟩

section Module

variable [hR : ModuleClosed R cx]

include hR

/-- The descriptor of a type and its variable are two changes of the list of globals. -/
theorem codegenMakeTypeInfo_steps (name : Str) (data : TypeInfo) :
    Ensures R (codegenMakeTypeInfo name data) :=
  .bind (.modify fun s => hR.module (.type (.globals s _)) rfl rfl) fun _ =>
    .bind (.modify fun s => hR.module (.type (.globals s _)) rfl rfl) fun _ => .pure _

/-- The descriptor of a type is made of those of its parts. The variable of a struct is
made first, so a struct that contains pointers to itself has one, too. -/
theorem codegenTypeInfo_steps (fuel : Nat) (type : Ty) :
    Ensures R (codegenTypeInfo cx fuel type) := by
  induction fuel generalizing type with
  | zero => exact .throw _
  | succ fuel ih =>
      unfold codegenTypeInfo
      refine .bind (tryGetGenericInstance_eq type).ofEq fun inst => ?_
      cases inst with
      -- A type parameter is replaced by its type, and this by induction.
      | some inst => exact ih inst
      | none =>
          refine .bind_get fun cg => .bind (.lift _) fun name => .bind_get fun cg => ?_
          refine .ite (.pure _) ?_
          cases type with
          | void | bool | integer | float | string | function args ret varargs =>
              exact codegenMakeTypeInfo_steps name _
          | unknown u => exact .throw _
          | tuple fields =>
              exact .bind (hR.type _ _) fun _ => .bind (.mapM ih fields) fun _ =>
                .bind (.assert _) fun _ => codegenMakeTypeInfo_steps name _
          | array element =>
              exact .bind (hR.type _ _) fun _ => .bind (ih element) fun _ =>
                codegenMakeTypeInfo_steps name _
          | pointer element =>
              exact .bind (ih element) fun _ => codegenMakeTypeInfo_steps name _
          | inst node tyargs target =>
              cases target with
              | unresolved | generic g => exact .throw _
              -- The variable is made before its members, so that a type that goes round ends.
              | struct d =>
                  exact .bind (.assertSome _) fun _ =>
                    .bind (.modify fun s => hR.module (.type (.globals s _)) rfl rfl) fun _ =>
                    .bind (hR.type _ _) fun _ => .bind (memberTypes_eq _ _).ofEq fun _ =>
                    .bind (.mapM ih _) fun _ =>
                    .bind (.modify fun s => hR.module (.type (.globals s _)) rfl rfl)
                      fun _ => .pure _

/-! ### Functions -/

/-- A function of the run-time library is found by its name, or it is added without a
body. -/
theorem getOrInsertFunction_steps (name : Str) (ret : LType) (params : List LType) :
    Ensures R (getOrInsertFunction name ret params) := by
  intro s v s' h
  obtain ⟨_, _, h₁, h⟩ := run_bind.mp h
  obtain ⟨rfl, rfl⟩ := run_get.mp h₁
  cases hf : s.getFunction name with
  | some f =>
      rw [hf] at h
      exact (run_pure.mp h).2 ▸ hR.refl s
  | none =>
      rw [hf] at h
      simp only [createFunction, run_bind, run_get, run_set, run_pure] at h
      obtain ⟨_, _, ⟨_, _, ⟨rfl, rfl⟩, _, _, rfl, rfl, rfl⟩, -, rfl⟩ := h
      exact hR.module (.external hf rfl rfl) rfl rfl

/-- A function that was not found is made, recorded and put on the list. -/
theorem createFunction_steps {s s' : Codegen} {r : FnRequest} {f : Function} {v : Value}
    (asked : r.Asked cx s) (notFound : s.getFunction r.name = none) (name : f.name = r.name)
    (origin : f.origin = some r.key) (body : f.body = .empty)
    (result : r.result = s.functions.length)
    (h : (do
      assert (r.tyargs.length = r.decl.tyargs.length)
      let types ← r.tyargs.mapM fun t => (finalType r.instance_ t : Except Fault Ty)
      let frame : InstanceFrame :=
        { value := r.result, decl := r.decl, generics := (r.decl.tyargs.map Generic.id).zip types }
      modify fun cg =>
        { cg with pendingFunctions := (frame :: r.parents) :: cg.pendingFunctions }
      functionValue r.result : CodegenM Value)
        { s with functions := s.functions ++ [f], requests := s.requests ++ [r] } = .ok (v, s')) :
    R s s' := by
  obtain ⟨_, _, h₁, h⟩ := run_bind.mp h
  obtain ⟨hlength, rfl⟩ := run_assert.mp h₁
  obtain ⟨types, _, h₂, h⟩ := run_bind.mp h
  obtain ⟨hfinal, rfl⟩ := run_mapM_lift.mp h₂
  obtain ⟨_, _, h₃, h⟩ := run_bind.mp h
  obtain rfl := run_modify.mp h₃
  obtain rfl := (functionValue_eq _).eq h
  exact hR.trans (hR.module (.declare asked notFound name origin body result) rfl rfl)
    (hR.module (.pend (by simp) hlength hfinal) rfl rfl)

/-- `codegenFunctionDecl` finds the function of its request by the mangled name, or it
declares one and puts it on the list. The request is recorded either way, with what its
name was made of. -/
theorem codegenFunctionDecl_steps (decl : FnDecl) (id : Int) (type : Ty) (tyargs : List Ty) :
    Ensures R (codegenFunctionDecl cx decl id type tyargs) := by
  intro s v s' h
  obtain ⟨_, _, h₁, h⟩ := run_bind.mp h
  obtain ⟨rfl, rfl⟩ := run_get.mp h₁
  obtain ⟨pname, _, h₂, h⟩ := run_bind.mp h
  obtain rfl := (parentName_eq _ _ _).eq h₂
  obtain ⟨name, _, h₃, h⟩ := run_bind.mp h
  obtain ⟨hname, rfl⟩ := run_lift.mp h₃
  obtain ⟨_, _, h₄, h⟩ := run_bind.mp h
  obtain ⟨rfl, rfl⟩ := run_get.mp h₄
  -- The name is worked out in the state before anything changes.
  have asked : ∀ result, FnRequest.Asked cx s ⟨decl, id, type, tyargs, s.currentFunction,
      getFunctionInstance s.currentFunction (cx.store.parent decl.node.id),
      cx.store.moduleName decl.node.id, pname,
      ⟨decl.node.id, tyargs.map s.currentFunction.concrete,
        (getFunctionInstance s.currentFunction (cx.store.parent decl.node.id)).head?.map
          InstanceFrame.value⟩, name, result⟩ :=
    fun result => ⟨rfl, hname, rfl, rfl, rfl, h₂⟩
  cases hf : s.getFunction name with
  -- A function of that name is there, and is taken.
  | some f =>
      rw [hf] at h
      obtain ⟨_, _, h₅, h⟩ := run_bind.mp h
      obtain rfl := run_modify.mp h₅
      obtain rfl := (functionValue_eq _).eq h
      exact hR.module (.reuse (asked f) hf) rfl rfl
  | none =>
      rw [hf] at h
      obtain ⟨ltype, s₁, h₅, h⟩ := run_bind.mp h
      obtain ⟨hfun, hcur⟩ := (codegenType_steps _ _ _ _ _ h₅).functions
      obtain ⟨element, _, h₆, h⟩ := run_bind.mp h
      obtain rfl := (elementType_eq _).eq h₆
      cases element with
      -- A new one is added. Lowering its type first adds no functions.
      | function ret params =>
          obtain ⟨f, _, h₇, h⟩ := run_bind.mp h
          obtain ⟨_, _, h₈, h⟩ := run_bind.mp h
          simp only [createFunction, run_bind, run_get, run_set, run_pure] at h₇
          obtain ⟨_, _, ⟨rfl, rfl⟩, _, _, rfl, rfl, rfl⟩ := h₇
          obtain rfl := run_modify.mp h₈
          have asked₁ := asked s₁.functions.length
          refine hR.trans (hR.type _ _ _ _ _ h₅)
            (createFunction_steps (r := ⟨decl, id, type, tyargs,
            s.currentFunction, _, _, pname, _, name, s₁.functions.length⟩)
            ⟨hcur.symm, asked₁.name_eq, asked₁.key_eq, rfl, rfl,
              parentName_mono (hfun ▸ List.prefix_rfl) asked₁.parentName_eq⟩
            ?_ rfl rfl rfl rfl h)
          show s₁.functions.findIdx? _ = none
          rw [hfun]
          exact hf
      | _ => exact (run_throw.mp h).elim

end Module

/-! ### Code -/

/-- The function that is lowered stays the same. -/
theorem Steps.func {s s' : Codegen} (h : Steps cx s s') : s'.func = s.func := by
  induction h with
  | refl => rfl
  | tail _ h ih =>
      cases h with
      | module h =>
          cases h with
          | type h =>
              cases h with
              | reuse | create | setBody | globals => exact ih
          | external | reuse | declare | pend => exact ih
      | code | «variable» | lowered => exact ih

section Code

variable [hR : StepClosed R cx]

include hR

/-- A new block is a change of the graph. -/
theorem createBlock_steps : Ensures R createBlock := fun s _ _ h =>
  (run_createBlock.mp h).2 ▸ hR.step (.code s _ s.insertBlock s.nextResult) rfl rfl

/-- Asking for the current block changes nothing. -/
theorem getInsertBlock_steps : Ensures R getInsertBlock := fun _ _ _ h =>
  (run_getInsertBlock.mp h).2 ▸ hR.refl _

/-- Setting the current block changes no graph. -/
theorem setInsertPoint_steps (b : BlockId) : Ensures R (setInsertPoint b) :=
  .modify fun s => hR.step (.code s s.graph b s.nextResult) rfl rfl

/-- Ending the current block is a change of the graph. -/
theorem terminate_steps (t : Terminator) : Ensures R (terminate t) :=
  .modify fun s => hR.step (.code s _ s.insertBlock s.nextResult) rfl rfl

/-- A new instruction is a change of the graph and of the number of the next result. -/
theorem insert_steps (op : Op) (type : LType) : Ensures R (insert op type) :=
  fun s _ _ h => (run_insert.mp h).2 ▸ hR.step (.code s _ s.insertBlock _) rfl rfl

/-- An instruction without a result is a change of the graph. -/
theorem insertVoid_steps (op : Op) : Ensures R (insertVoid op) :=
  .bind (insert_steps op _) fun _ => .pure _

/-- A new PHI is a change of the graph and of the number of the next result. -/
theorem createPHI_steps (type : LType) (incoming : List (Value × BlockId)) :
    Ensures R (createPHI type incoming) :=
  fun s _ _ h => (run_createPHI.mp h).2 ▸ hR.step (.code s _ s.insertBlock _) rfl rfl

/-- A further edge of a PHI is a change of the graph. -/
theorem addIncoming_steps (b : BlockId) (value : Value) (incoming : BlockId) :
    Ensures R (addIncoming b value incoming) :=
  .modify fun s => hR.step (.code s _ s.insertBlock s.nextResult) rfl rfl

/-- A slot on the stack is a change of the graph. -/
theorem codegenAlloca_steps (type : LType) (size : Nat) :
    Ensures R (codegenAlloca type size) :=
  fun s _ _ h => (run_codegenAlloca.mp h).2 ▸ hR.step (.code s _ s.insertBlock s.nextResult) rfl rfl

/-- A load looks up the type of its address and is an instruction. -/
theorem createLoad_steps (address : Value) (name : Option VarId) :
    Ensures R (createLoad address name) :=
  .bind (elementType_eq _).ofEq fun _ => insert_steps _ _

/-- A store is an instruction without a result. -/
theorem createStore_steps (value address : Value) (init : Option VarId) :
    Ensures R (createStore value address init) := insertVoid_steps _

/-- A call looks up the type of the result and is an instruction. -/
theorem createCall_steps (callee : Value) (args : List Value) :
    Ensures R (createCall callee args) := by
  refine .bind (elementType_eq _).ofEq fun type => ?_
  cases type with
  | function ret params => exact insert_steps _ _
  | _ => exact .throw _

/-- The field of an aggregate looks up the type of the field and is an instruction. -/
theorem createExtractValue_steps (aggregate : Value) (index : Nat) :
    Ensures R (createExtractValue aggregate index) :=
  .bind (fieldType_eq _ _).ofEq fun _ => insert_steps _ _

/-- The address of a field looks up its type and is an instruction. -/
theorem createStructGEP_steps (base : Value) (index : Nat) :
    Ensures R (createStructGEP base index) :=
  .bind (elementType_eq _).ofEq fun _ => .bind (fieldType_eq _ _).ofEq fun _ => insert_steps _ _

/-- The address of an element of an array likewise. -/
theorem createConstInBoundsGEP2_steps (base : Value) (i j : Nat) :
    Ensures R (createConstInBoundsGEP2 base i j) :=
  .bind (elementType_eq _).ofEq fun _ => .bind (fieldType_eq _ _).ofEq fun _ => insert_steps _ _

/-- A trap is a conditional branch to a block of its own. All of it is code. -/
theorem codegenTrapIf_steps (cond : Value) (debug : Bool) :
    Ensures R (codegenTrapIf cond debug) :=
  .bind createBlock_steps fun _ => .bind createBlock_steps fun _ =>
    .bind (terminate_steps _) fun _ => .bind (setInsertPoint_steps _) fun _ =>
    .bind (insertVoid_steps _) fun _ => .bind (terminate_steps _) fun _ => setInsertPoint_steps _

/-! ### Allocations -/

/-- The allocator of the run-time library is a function that is found or added. -/
theorem runtimeNew_steps : Ensures R runtimeNew := getOrInsertFunction_steps _ _ _

/-- The allocator of arrays likewise. -/
theorem runtimeNewArray_steps : Ensures R runtimeNewArray := getOrInsertFunction_steps _ _ _

/-- A new object is a call of the allocator with the size of its type and the descriptor,
and a cast. The type is lowered in between. -/
theorem codegenNew_steps (type : Ty) : Ensures R (codegenNew cx type) :=
  .bind (hR.type _ _) fun _ => .bind (codegenTypeInfo_steps _ _) fun _ =>
    .bind runtimeNew_steps fun _ => .bind (createCall_steps _ _) fun _ => insert_steps _ _

/-- A new array is a call of the allocator of arrays, likewise. -/
theorem codegenNewArr_steps (type : Ty) (count : Value) :
    Ensures R (codegenNewArr cx type count) :=
  .bind (hR.type _ _) fun _ => .bind (codegenTypeInfo_steps _ _) fun _ =>
    .bind runtimeNewArray_steps fun _ => .bind (createCall_steps _ _) fun _ => insert_steps _ _

/-- An array without elements lowers its types, and is a null pointer. -/
theorem codegenNewArrEmpty_steps (type : Ty) : Ensures R (codegenNewArrEmpty cx type) :=
  .bind (hR.type _ _) fun _ => .pure _

/-! ### Expressions -/

/-- A variable that is read has a value, and that it was read is recorded. -/
theorem findVar_steps (var : Variable) : Ensures R (findVar var) := by
  intro s v s' h
  obtain ⟨hv, rfl⟩ := run_findVar.mp h
  exact hR.step (.lowered hv) rfl rfl

/-- A variable is bound to a value of the function that is lowered. -/
theorem codegenVariable_steps {s s' : Codegen} {var : Variable} {value : Value} {a : Unit}
    (own : value.func? = some s.func) (h : codegenVariable var value s = .ok (a, s')) :
    R s s' := by
  obtain rfl := run_codegenVariable.mp h
  exact hR.step (.variable var.id own) rfl rfl

/-- An identifier is the function it names, which is asked for, or the variable it names. -/
theorem codegenIdent_steps (n : Node) (kind : CodegenKind) :
    Ensures R (codegenIdent cx n kind) := by
  unfold codegenIdent
  split
  · split
    · exact .bind (.assertSome _) fun decl => .bind (.assert _) fun _ =>
        .bind (nodeType_eq cx n).ofEq fun _ => (codegenFunctionDecl_steps _ _ _ _)
    · refine .bind (findVar_steps _) fun storage => ?_
      cases kind with
      | value => exact createLoad_steps _ _
      | ref => exact .pure _
    · exact findVar_steps _
    · exact findVar_steps _
  · exact .throw _

/-- The variables of a loop are bound to values of the function. -/
theorem codegenForVariables_steps {s s₁ s₂ s₃ s₄ s₅ : Codegen} {var : Variable}
    {index : Option Variable} {expr zero indexphi base address : Value} {entrybb : BlockId}
    {a b : Unit} (h₁ : createPHI .int32 [(zero, entrybb)] s = .ok (indexphi, s₁))
    (h₂ : createExtractValue expr 0 s₁ = .ok (base, s₂))
    (h₃ : createInBoundsGEP base indexphi s₂ = .ok (address, s₃))
    (h₄ : codegenVariable var address s₃ = .ok (a, s₄))
    (h₅ : codegenIndexVariable index indexphi s₄ = .ok (b, s₅)) :
    R s s₅ := by
  have hphi : Steps cx s s₁ := createPHI_steps _ _ _ _ _ h₁
  have hbase : Steps cx s₁ s₂ := createExtractValue_steps _ _ _ _ _ h₂
  have haddress : Steps cx s₂ s₃ := insert_steps _ _ _ _ _ h₃
  have own : address.func? = some s₃.func := by
    rw [← (run_insert.mp h₃).1, Steps.func haddress]
    rfl
  have hvar : Steps cx s₃ s₄ := codegenVariable_steps own h₄
  have ownIndex : indexphi.func? = some s₄.func := by
    rw [Steps.func hvar, Steps.func haddress, Steps.func hbase, Steps.func hphi,
      ← (run_createPHI.mp h₁).1]
    rfl
  have hrest : R s₄ s₅ := by
    cases index with
    | none => exact (run_pure.mp h₅).2 ▸ hR.refl s₄
    | some index => exact codegenVariable_steps ownIndex h₅
  exact hR.trans (createPHI_steps _ _ _ _ _ h₁) <| hR.trans
    (createExtractValue_steps _ _ _ _ _ h₂) <|
    hR.trans (insert_steps _ _ _ _ _ h₃) <| hR.trans (codegenVariable_steps own h₄) hrest

section Nodes

variable {codegenExpr : Ast → CodegenKind → CodegenM Value}
  (hrec : ∀ e kind, Ensures R (codegenExpr e kind))

include hrec

/-- The fields of a tuple one after the other: the value of each, and an instruction that
puts it into the tuple. -/
theorem codegenTupleFields_steps (result : Value) (i : Nat) (fields : List Ast) :
    Ensures R (codegenTupleFields codegenExpr result i fields) := by
  induction fields generalizing result i with
  | nil => exact .pure _
  | cons field fields ih =>
      exact .bind (hrec _ _) fun _ => .bind (insert_steps _ _) fun _ => ih _ _

/-- The elements of an array one after the other, each stored at its address. -/
theorem codegenArrayElements_steps (ptr : Value) (i : Nat) (elements : List Ast) :
    Ensures R (codegenArrayElements codegenExpr ptr i elements) := by
  induction elements generalizing i with
  | nil => exact .pure _
  | cons element elements ih =>
      exact .bind (hrec _ _) fun _ => .bind (insert_steps _ _) fun _ =>
        .bind (createStore_steps _ _ _) fun _ => ih _

/-- The defaults of the fields that were not given, each put into the struct. -/
theorem codegenDefaults_steps (given : List Int) (result : Value) (i : Nat)
    (fields : List (FieldDecl × Option Ast)) :
    Ensures R (codegenDefaults codegenExpr given result i fields) := by
  induction fields generalizing result i with
  | nil => exact .pure _
  | cons field fields ih =>
      exact .ite (ih _ _) (.bind (.assertSome _) fun _ => .bind (hrec _ _) fun _ =>
        .bind (insert_steps _ _) fun _ => ih _ _)

/-- The fields that were given, each put into the struct. -/
theorem codegenInitializers_steps (result : Value) (fields : List (FieldRef × Ast)) :
    Ensures R (codegenInitializers cx codegenExpr result fields) := by
  induction fields generalizing result with
  | nil => exact .pure _
  | cons field fields ih =>
      exact .bind (hrec _ _) fun _ => .bind (insert_steps _ _) fun _ => ih _

/-- A struct literal starts from an undefined aggregate. The defaults of the fields that
were not given are put into it, and then those that were given. -/
theorem codegenLiteralStruct_steps (n : Node) (fields : List (FieldRef × Ast)) :
    Ensures R (codegenLiteralStruct cx codegenExpr n fields) := by
  refine .bind (nodeType_eq cx n).ofEq fun type => ?_
  split
  · exact .bind (.assertSome _) fun _ => .bind (hR.type _ _) fun _ =>
      .bind (.assert _) fun _ => .bind (codegenDefaults_steps hrec _ _ _ _) fun _ =>
      codegenInitializers_steps hrec _ _
  · exact .throw _

/-- An array literal gets storage for its elements, which are stored one by one, and is
the pair of its address and its length. -/
theorem codegenLiteralArray_steps (n : Node) (elements : List Ast) :
    Ensures R (codegenLiteralArray cx codegenExpr n elements) := by
  refine .bind (nodeType_eq cx n).ofEq fun type => ?_
  split
  · exact .bind (.ite (codegenNewArr_steps _ _) (codegenNewArrEmpty_steps _)) fun _ =>
      .bind (codegenArrayElements_steps hrec _ _ _) fun _ =>
      .bind (hR.type _ _) fun _ => .bind (insert_steps _ _) fun _ =>
      insert_steps _ _
  · exact .throw _

/-- A member is read from the value of the object, or its address from the address of the
object. -/
theorem codegenMember_steps (expr : Ast) (field : FieldRef) (kind : CodegenKind) :
    Ensures R (codegenMember cx codegenExpr expr field kind) := by
  refine .bind (.assert _) fun _ => .bind (hrec _ _) fun value => ?_
  cases kind with
  | ref => exact createStructGEP_steps _ _
  | value => exact createExtractValue_steps _ _

/-- The expressions of a block one after the other. The last one is the result. -/
theorem codegenBlock_steps (result : Value) (body : List Ast) :
    Ensures R (codegenBlock codegenExpr result body) := by
  induction body generalizing result with
  | nil => exact .pure _
  | cons e body ih => exact .bind (hrec _ _) fun _ => ih _

/-- The arguments of a call one after the other. -/
theorem codegenArgs_steps (args : List Ast) :
    Ensures R (codegenArgs codegenExpr args) := by
  induction args with
  | nil => exact .pure _
  | cons a args ih => exact .bind (hrec _ _) fun _ => .bind ih fun _ => .pure _

/-- Each further argument of a call with a variable number of them goes to a slot of its
own. Its descriptor and its address go to the array of such arguments. -/
theorem codegenExtraArgs_steps (extraArray : Value) (i : Nat) (args : List Ast) :
    Ensures R (codegenExtraArgs cx codegenExpr extraArray i args) := by
  induction args generalizing i with
  | nil => exact .pure _
  | cons a args ih =>
      exact .bind (hrec _ _) fun _ => .bind (nodeType_eq cx _).ofEq fun _ =>
        .bind (codegenTypeInfo_steps _ _) fun _ => .bind (codegenAlloca_steps _ _) fun _ =>
        .bind (createStore_steps _ _ _) fun _ => .bind (insert_steps _ _) fun _ =>
        .bind (createConstInBoundsGEP2_steps _ _ _) fun _ =>
          .bind (createStore_steps _ _ _) fun _ =>
        .bind (createConstInBoundsGEP2_steps _ _ _) fun _ =>
          .bind (createStore_steps _ _ _) fun _ =>
        ih _

/-- The arguments of a call: those that the type names, and an array of the further ones. -/
theorem codegenCallArgs_steps (params : Nat) (varargs : Bool) (args : List Ast) :
    Ensures R (codegenCallArgs cx codegenExpr params varargs args) := by
  refine .ite ?_ ?_
  · exact .bind (.assert _) fun _ => .bind (codegenAlloca_steps _ _) fun _ =>
      .bind (codegenArgs_steps hrec _) fun _ => .bind (codegenExtraArgs_steps hrec _ _ _) fun _ =>
      .pure _
  · exact .bind (.assert _) fun _ => codegenArgs_steps hrec _

/-- A call is the callee, the arguments and the instruction. -/
theorem codegenCall_steps (expr : Ast) (args : List Ast) :
    Ensures R (codegenCall cx codegenExpr expr args) := by
  refine .bind (hrec _ _) fun callee => .bind (nodeType_eq cx _).ofEq fun type => ?_
  split
  · exact .bind (codegenCallArgs_steps hrec _ _ _) fun _ => .bind (createCall_steps _ _) fun _ =>
      .pure _
  · exact .throw _

/-- An index reads the array and the index, checks the bound with a trap, and reads the
element or takes its address. -/
theorem codegenIndex_steps (expr idx : Ast) (kind : CodegenKind) :
    Ensures R (codegenIndex codegenExpr expr idx kind) := by
  refine .bind (hrec _ _) fun _ => .bind (hrec _ _) fun _ =>
    .bind (createExtractValue_steps _ _) fun _ => .bind (createExtractValue_steps _ _) fun _ =>
    .bind (insert_steps _ _) fun _ => .bind (codegenTrapIf_steps _ _) fun _ =>
    .bind (insert_steps _ _) fun address => ?_
  cases kind with
  | ref => exact .pure _
  | value => exact createLoad_steps _ _

/-- An assignment is the address, the value and a store. -/
theorem codegenAssign_steps (left right : Ast) :
    Ensures R (codegenAssign codegenExpr left right) :=
  .bind (hrec _ _) fun _ => .bind (hrec _ _) fun _ => .bind (createStore_steps _ _ _) fun _ =>
    .pure _

/-- A unary operation is its operand and an instruction. `new` is an allocation and a
store. -/
theorem codegenUnary_steps (op : UnaryOp) (expr : Ast) (kind : CodegenKind) :
    Ensures R (codegenUnary cx codegenExpr op expr kind) := by
  refine .bind (hrec _ _) fun value => ?_
  cases op with
  | not => exact insert_steps _ _
  | deref =>
      cases kind with
      | ref => exact .pure _
      | value => exact createLoad_steps _ _
  | new =>
      exact .bind (nodeType_eq cx _).ofEq fun _ => .bind (codegenNew_steps _) fun _ =>
        .bind (createStore_steps _ _ _) fun _ => .pure _
  | plus | minus => exact .throw _

/-- `and` and `or` are branches. The parser has made calls of the other operators, so for
these there is a fault. -/
theorem codegenBinary_steps (op : BinaryOp) (left right : Ast) :
    Ensures R (codegenBinary codegenExpr op left right) := by
  have h (and : Bool) : Ensures R (codegenBinaryAndOr codegenExpr and left right) :=
    .bind (hrec _ _) fun _ => .bind getInsertBlock_steps fun _ => .bind createBlock_steps fun _ =>
      .bind createBlock_steps fun _ =>
      .bind (terminate_steps _) fun _ => .bind (setInsertPoint_steps _) fun _ =>
        .bind (hrec _ _) fun _ =>
      .bind (terminate_steps _) fun _ => .bind getInsertBlock_steps fun _ =>
      .bind (setInsertPoint_steps _) fun _ => createPHI_steps _ _
  unfold codegenBinary
  split
  · exact h true
  · exact h false
  · exact .throw _

/-- A branch with an `else`: the condition, two bodies in blocks of their own, and a
PHI where they meet if they have a value. -/
theorem codegenIfElse_steps (cond thenbody elsebody : Ast) :
    Ensures R (codegenIfElse codegenExpr cond thenbody elsebody) :=
  .bind (hrec _ _) fun _ => .bind createBlock_steps fun _ => .bind createBlock_steps fun _ =>
    .bind createBlock_steps fun _ => .bind (terminate_steps _) fun _ =>
    .bind (setInsertPoint_steps _) fun _ => .bind (hrec _ _) fun _ =>
    .bind (terminate_steps _) fun _ => .bind getInsertBlock_steps fun _ =>
    .bind (setInsertPoint_steps _) fun _ => .bind (hrec _ _) fun _ =>
    .bind (terminate_steps _) fun _ => .bind getInsertBlock_steps fun _ =>
    .bind (setInsertPoint_steps _) fun _ => .ite (.pure _) (createPHI_steps _ _)

/-- A branch without an `else` has one body and no result. -/
theorem codegenIfThen_steps (cond thenbody : Ast) :
    Ensures R (codegenIfThen codegenExpr cond thenbody) :=
  .bind (hrec _ _) fun _ => .bind createBlock_steps fun _ => .bind createBlock_steps fun _ =>
    .bind (terminate_steps _) fun _ => .bind (setInsertPoint_steps _) fun _ =>
    .bind (hrec _ _) fun _ => .bind (terminate_steps _) fun _ =>
    .bind (setInsertPoint_steps _) fun _ => .pure _

/-- A loop: a block for the condition, one for the body, and one for what comes after. -/
theorem codegenWhile_steps (expr body : Ast) :
    Ensures R (codegenWhile codegenExpr expr body) :=
  .bind createBlock_steps fun _ => .bind createBlock_steps fun _ => .bind createBlock_steps fun _ =>
    .bind (terminate_steps _) fun _ => .bind (setInsertPoint_steps _) fun _ =>
    .bind (hrec _ _) fun _ => .bind (terminate_steps _) fun _ =>
    .bind (setInsertPoint_steps _) fun _ => .bind (hrec _ _) fun _ =>
    .bind (terminate_steps _) fun _ => .bind (setInsertPoint_steps _) fun _ => .pure _

/-- A variable is its value and a slot with the value, and it is bound to the slot. -/
theorem codegenVarDecl_steps (var : Variable) (expr : Ast) :
    Ensures R (codegenVarDecl codegenExpr var expr) := by
  refine .bind (hrec _ _) fun value => ?_
  intro s v s' h
  obtain ⟨storage, s₁, h₁, h⟩ := run_bind.mp h
  obtain ⟨_, s₂, h₂, h⟩ := run_bind.mp h
  obtain ⟨_, s₃, h₃, h⟩ := run_bind.mp h
  obtain ⟨-, rfl⟩ := run_pure.mp h
  have halloca : Steps cx s s₁ := codegenAlloca_steps _ _ _ _ _ h₁
  have hsteps : Steps cx s s₂ := halloca.trans (createStore_steps _ _ _ _ _ _ h₂)
  have own : storage.func? = some s₂.func := by
    rw [← (run_codegenAlloca.mp h₁).1, Steps.func hsteps]
    rfl
  exact hR.trans (codegenAlloca_steps _ _ _ _ _ h₁) <|
    hR.trans (createStore_steps _ _ _ _ _ _ h₂) (codegenVariable_steps own h₃)

/-- A loop over an array: the count of turns is a PHI, and the variables of the loop are
bound to it and to the address of the element before the body. -/
theorem codegenFor_steps (var : Variable) (index : Option Variable) (expr body : Ast) :
    Ensures R (codegenFor codegenExpr var index expr body) := by
  refine .bind getInsertBlock_steps fun entrybb => .bind createBlock_steps fun loopbb =>
    .bind createBlock_steps fun endbb => .bind (hrec _ _) fun expr =>
    .bind (createExtractValue_steps _ _) fun size => .bind (insert_steps _ _) fun cond =>
    .bind (terminate_steps _) fun _ => .bind (setInsertPoint_steps _) fun _ => ?_
  intro s v s' h
  obtain ⟨indexphi, s₁, h₁, h⟩ := run_bind.mp h
  obtain ⟨base, s₂, h₂, h⟩ := run_bind.mp h
  obtain ⟨address, s₃, h₃, h⟩ := run_bind.mp h
  obtain ⟨_, s₄, h₄, h⟩ := run_bind.mp h
  obtain ⟨_, s₅, h₅, h⟩ := run_bind.mp h
  have hrest : Ensures R (do
      let _ ← asValue codegenExpr body
      let next ← insert (.add indexphi (getInt32 1)) .int32
      let loopendbb ← getInsertBlock
      let cond ← insert (.icmpSLT next size) .int1
      createCondBr cond loopbb endbb
      addIncoming loopbb next loopendbb
      setInsertPoint endbb
      return codegenVoid) :=
    .bind (hrec _ _) fun _ => .bind (insert_steps _ _) fun _ => .bind getInsertBlock_steps fun _ =>
      .bind (insert_steps _ _) fun _ => .bind (terminate_steps _) fun _ =>
      .bind (addIncoming_steps _ _ _) fun _ => .bind (setInsertPoint_steps _) fun _ => .pure _
  exact hR.trans (codegenForVariables_steps h₁ h₂ h₃ h₄ h₅) (hrest _ _ _ h)

end Nodes

/-- What holds of the parts of lowering holds of lowering an expression. -/
theorem codegenExpr_steps (fuel : Nat) (root : Ast) (kind : CodegenKind) :
    Ensures R (codegenExpr cx fuel root kind) := by
  induction fuel generalizing root kind with
  | zero => exact .throw _
  | succ fuel ih =>
      -- Each kind of node does what its own function does, with this one for its children.
      cases root with
      | literalVoid | literalBool | literalInteger | literalFloat | fnDecl | tyDecl | «import» =>
          exact .pure _
      | literalString =>
          exact .bind (hR.type _ _) fun _ => .bind (insert_steps _ _) fun _ =>
            insert_steps _ _
      | literalTuple n fields =>
          exact .bind (nodeType_eq cx n).ofEq fun _ => .bind (hR.type _ _) fun _ =>
            codegenTupleFields_steps ih _ _ _
      | literalArray n elements => exact codegenLiteralArray_steps ih n elements
      | literalStruct n name fields => exact codegenLiteralStruct_steps ih n fields
      | ident n name => exact codegenIdent_steps n kind
      | member n expr field => exact codegenMember_steps ih expr field kind
      | block n body => exact codegenBlock_steps ih _ body
      | module n name body => exact ih body _
      | call n expr args => exact codegenCall_steps ih expr args
      | unary n op expr => exact codegenUnary_steps ih op expr kind
      | binary n op left right => exact codegenBinary_steps ih op left right
      | index n expr idx => exact codegenIndex_steps ih expr idx kind
      | assign n left right => exact codegenAssign_steps ih left right
      | ifThen n cond thenbody => exact codegenIfThen_steps ih cond thenbody
      | ifElse n cond thenbody elsebody => exact codegenIfElse_steps ih cond thenbody elsebody
      | forIn n var index expr body => exact codegenFor_steps ih var index expr body
      | «while» n expr body => exact codegenWhile_steps ih expr body
      | fn n id decl =>
          cases decl with
          | fnDecl => exact codegenFunctionDecl_steps _ _ _ _
          | _ => exact .throw _
      | llvm => exact .throw _
      | varDecl n var expr => exact codegenVarDecl_steps ih var expr

end Code

end Aike
