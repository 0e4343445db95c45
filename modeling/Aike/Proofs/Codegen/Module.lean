import Aike.Proofs.Codegen.Run
import Aike.Proofs.Compile
import Aike.Proofs.Spelling

/-!
# `Aike.Proofs.Codegen.Module`: what a run does to the module

Between two functions, code generation changes the state in a few more ways than
lowering does. None of them asks for a struct or a function (`Unasked`).

* `codegen_ensures`: a relation that holds of these changes and of lowering holds
  of a run of `codegen` (`RunClosed`).
* `CompileRun` is a run over several modules, with what it asked for.
-/

set_option autoImplicit false

namespace Aike

variable {cx : CodegenContext} {s s' : Codegen} {α : Type}

/-- What a function is known by: its name, and what it was made for. -/
def Function.symbol (f : Function) : Str × Option FnKey := (f.name, f.origin)

/-- What the functions of the module are known by. -/
def Codegen.symbols (s : Codegen) : List (Str × Option FnKey) := s.functions.map Function.symbol

/-- The instance that is being emitted, and those that are waiting. -/
def Codegen.instances (s : Codegen) : List FunctionInstance :=
  s.currentFunction :: s.pendingFunctions

/-- A change that asks for no struct and no function. The functions keep what they
are known by, and there may be others that nothing asked for. The instances are some of
those that there were, or that of an entry. -/
structure Unasked (s s' : Codegen) : Prop where
  structs : s'.structs = s.structs
  structRequests : s'.structRequests = s.structRequests
  requests : s'.requests = s.requests
  functions : ∃ added, s'.symbols = s.symbols ++ added ∧ ∀ x ∈ added, x.2 = none
  instances : ∀ fn ∈ s'.instances, fn ∈ s.instances ∨ ∀ p ∈ fn, p.entry = true

/-- What leaves the structs, the requests, the names of the functions and the instances
alone asks for nothing. -/
theorem Unasked.ofEq (hstructs : s'.structs = s.structs)
    (hstructRequests : s'.structRequests = s.structRequests) (hrequests : s'.requests = s.requests)
    (hsymbols : s'.symbols = s.symbols) (hinstances : s'.instances = s.instances) :
    Unasked s s' :=
  ⟨hstructs, hstructRequests, hrequests,
    ⟨[], by rw [hsymbols, List.append_nil], List.forall_mem_nil _⟩,
    fun _ hfn => .inl (hinstances ▸ hfn)⟩

/-- A change of the instances. -/
theorem Unasked.setInstances (s : Codegen) (current : FunctionInstance)
    (pending : List FunctionInstance)
    (h : ∀ fn ∈ current :: pending, fn ∈ s.instances ∨ ∀ p ∈ fn, p.entry = true) :
    Unasked s { s with currentFunction := current, pendingFunctions := pending } where
  structs := rfl
  structRequests := rfl
  requests := rfl
  functions := ⟨[], (List.append_nil _).symm, List.forall_mem_nil _⟩
  instances := h

/-- The functions that inline assembly adds to the module are not ones that code
generation asked for. -/
def CodegenContext.ParsesForeign (cx : CodegenContext) : Prop :=
  ∀ functions text added, cx.parseAssemblyInto functions text = .ok added →
    ∀ f ∈ added, f.origin = none

/-- A relation that holds of whatever happens to the module. -/
class RunClosed (R : Codegen → Codegen → Prop) (cx : outParam CodegenContext) : Prop
    extends ModuleClosed R cx where
  unasked : ∀ {s s'}, Unasked s s' → R s s'

instance {R : Codegen → Codegen → Prop} [hR : RunClosed R cx] : StepClosed R cx where
  module := hR.module
  type := hR.type
  step h hstructs hrequests := by
    cases h with
    | module h => exact hR.module h hstructs hrequests
    | code | «variable» | lowered => exact hR.unasked (.ofEq rfl rfl rfl rfl rfl)

section Run

variable {R : Codegen → Codegen → Prop} [hR : RunClosed R cx]

include hR

/-- A change that touches neither structs nor functions nor instances. -/
theorem modifyRest {f : Codegen → Codegen} (h₁ : ∀ s, (f s).structs = s.structs)
    (h₂ : ∀ s, (f s).structRequests = s.structRequests) (h₃ : ∀ s, (f s).requests = s.requests)
    (h₄ : ∀ s, (f s).functions = s.functions) (h₅ : ∀ s, (f s).instances = s.instances) :
    Ensures R (modify f : CodegenM Unit) :=
  .modify fun s =>
    hR.unasked (.ofEq (h₁ s) (h₂ s) (h₃ s) (congrArg (List.map _) (h₄ s)) (h₅ s))

omit hR in
/-- A change of a function that keeps what it is known by. -/
theorem symbols_modify {fs : List Function} {i : FunctionId} {f : Function → Function}
    (h : ∀ g, (f g).symbol = g.symbol) :
    (fs.modify i f).map Function.symbol = fs.map Function.symbol := by
  apply List.ext_getElem?
  intro j
  rw [List.getElem?_map, List.getElem?_map, List.getElem?_modify]
  cases fs[j]? with
  | none => rfl
  | some g =>
      show some (Function.symbol (if i = j then f g else g)) = some g.symbol
      split
      · rw [h]
      · rfl

/-- To finish a function changes its body only. -/
theorem finishFunction_ensures : Ensures R finishFunction :=
  .modify fun _ => hR.unasked (.ofEq rfl rfl rfl (symbols_modify fun _ => rfl) rfl)

/-- A function is emitted into the module by what its code does. What is around the code
changes the state of the function that is being built. -/
theorem emitFunction_ensures (f : FunctionId) {code : CodegenM Unit} (h : Ensures R code) :
    Ensures R (emitFunction f code) :=
  .bind (modifyRest (fun _ => rfl) (fun _ => rfl) (fun _ => rfl) (fun _ => rfl) fun _ => rfl)
    fun _ => .bind h fun _ => finishFunction_ensures

/-- A `ret` is code of the function. -/
theorem createReturn_ensures (ret : Value) : Ensures R (createReturn ret) :=
  .ite (terminate_steps _) (terminate_steps _)

/-- A diagnostic is added to the output, which is none of the lists. -/
theorem codegenError_ensures (location : Location) (message : Str) :
    Ensures R (codegenError location message) :=
  modifyRest (fun _ => rfl) (fun _ => rfl) (fun _ => rfl) (fun _ => rfl) fun _ => rfl

/-- An `extern` function calls the symbol of its name. That one may be declared for it,
and nothing asked for it by its types. -/
theorem codegenFunctionExtern_ensures (inst : InstanceFrame) :
    Ensures R (codegenFunctionExtern inst) :=
  .bind (.assert _) fun _ => .bind_get fun _ => .bind (.assertSome _) fun _ =>
    .bind (getOrInsertFunction_steps _ _ _) fun _ =>
    .bind (getFunctionArguments_eq _).ofEq fun _ =>
    emitFunction_ensures _ (.bind (createCall_steps _ _) fun _ => createReturn_ensures _)

/-- A builtin is emitted as instructions on its arguments, and may ask for types. -/
theorem codegenFunctionBuiltin_ensures (inst : InstanceFrame) :
    Ensures R (codegenFunctionBuiltin cx inst) :=
  .bind (.assert _) fun _ => .bind (getFunctionArguments_eq _).ofEq fun _ =>
    emitFunction_ensures _ (.bind (codegenBuiltin_steps _ _) fun _ =>
      .ite (.pure _) (codegenError_ensures _ _))

/-- A function of LLVM assembly is put in its place by the parser of the assembly, which
may add functions that nothing asked for. -/
theorem codegenFunctionLLVM_ensures (foreign : cx.ParsesForeign) (inst : InstanceFrame) :
    Ensures R (codegenFunctionLLVM cx inst) := by
  unfold codegenFunctionLLVM
  split
  case h_2 => exact .throw _
  case h_1 n code _ =>
    refine .bind_get fun _ => .bind (.assertSome _) fun fun_ => ?_
    generalize assemblyText fun_ code = texts
    obtain ⟨header, text⟩ := texts
    refine .bind_get fun cg => ?_
    cases hparse : cx.parseAssemblyInto cg.functions text with
    | error err =>
        exact .bind (assemblyLocation_eq _ _ _).ofEq fun _ => codegenError_ensures _ _
    | ok added =>
        refine .modify fun s => hR.unasked
          ⟨rfl, rfl, rfl, ⟨added.map Function.symbol, ?_, ?_⟩, fun _ => .inl⟩
        · show (_ ++ added).map Function.symbol = _
          rw [List.map_append]
          exact congrArg (· ++ _) (symbols_modify fun _ => rfl)
        · intro x hx
          obtain ⟨f, hf, rfl⟩ := List.mem_map.mp hx
          exact foreign _ _ _ hparse f hf

/-- Each argument is bound to the variable of its parameter. -/
theorem bindArguments_ensures (vars : List Variable) (args : List Value) :
    Ensures R (bindArguments vars args) := by
  induction vars generalizing args with
  | nil => exact .pure _
  | cons var vars ih =>
      cases args with
      | nil => exact .throw _
      | cons arg args =>
          exact .bind
            (modifyRest (fun _ => rfl) (fun _ => rfl) (fun _ => rfl) (fun _ => rfl) fun _ => rfl)
            fun _ => ih args

/-- The body of a function is lowered after its parameters are bound. It asks for structs
and functions by the steps of code generation. -/
theorem codegenFunctionBody_ensures (inst : InstanceFrame) (parents : FunctionInstance) :
    Ensures R (codegenFunctionBody cx inst parents) :=
  .bind (.assertSome _) fun _ => .bind (getFunctionArguments_eq _).ofEq fun _ => .bind_get fun _ =>
    .bind (bindArguments_ensures _ _) fun _ =>
    .bind (emitFunction_ensures _ (.bind (codegenExpr_steps _ _ _) fun _ =>
      createReturn_ensures _)) fun _ =>
    modifyRest (fun _ => rfl) (fun _ => rfl) (fun _ => rfl) (fun _ => rfl) fun _ => rfl

/-- An instance is emitted in one of the four ways, by its declaration. -/
theorem codegenFunction_ensures (foreign : cx.ParsesForeign) (fn : FunctionInstance) :
    Ensures R (codegenFunction cx fn) := by
  cases fn with
  | nil => exact .throw _
  | cons inst parents =>
      have hcode : Ensures R (codegenFunctionCode cx inst parents) := by
        refine .ite (codegenFunctionExtern_ensures inst)
          (.ite (codegenFunctionBuiltin_ensures inst) ?_)
        split
        · exact codegenFunctionLLVM_ensures foreign inst
        · exact codegenFunctionBody_ensures inst parents
      refine .bind_get fun _ => .bind (.assertSome _) fun _ => .bind (.assert _) fun _ =>
        .bind hcode fun _ => .modify fun s => hR.unasked (.ofEq rfl rfl rfl ?_ rfl)
      exact symbols_modify fun _ => rfl

/-- The instances that are waiting are emitted one after another, with those that are
added meanwhile. -/
theorem codegenPending_ensures (foreign : cx.ParsesForeign) (count : Nat) :
    Ensures R (codegenPending cx count) := by
  induction count with
  | zero =>
      refine .bind_get fun cg => ?_
      cases cg.pendingFunctions with
      | nil => exact .pure _
      | cons => exact .throw _
  | succ count ih =>
      intro s a s' h
      obtain ⟨_, _, h₁, h⟩ := run_bind.mp h
      obtain ⟨rfl, rfl⟩ := run_get.mp h₁
      cases hpending : s.pendingFunctions with
      | nil =>
          rw [hpending] at h
          exact (run_pure.mp h).2 ▸ hR.refl s
      | cons fn pending =>
          rw [hpending] at h
          obtain ⟨_, _, h₂, h⟩ := run_bind.mp h
          obtain ⟨_, t, hcode, h⟩ := run_bind.mp h
          obtain ⟨_, _, h₃, h⟩ := run_bind.mp h
          obtain rfl := run_modify.mp h₂
          obtain rfl := run_modify.mp h₃
          -- the instance is taken from the list, and is over in the end
          have htake : R s { s with pendingFunctions := pending, currentFunction := fn } := by
            refine hR.unasked (.setInstances s fn pending fun i hi => .inl ?_)
            refine List.mem_cons_of_mem _ ?_
            rw [hpending]
            exact hi
          have hover : R t { t with currentFunction := [] } := by
            refine hR.unasked (.setInstances t [] t.pendingFunctions fun i hi => ?_)
            rcases List.mem_cons.mp hi with rfl | hi
            · exact .inr (List.forall_mem_nil _)
            · exact .inl (List.mem_cons_of_mem _ hi)
          exact hR.trans htake (hR.trans (codegenFunction_ensures foreign fn _ _ _ hcode)
            (hR.trans hover (ih _ _ _ h)))

/-- A function may be created that nothing asked for. -/
theorem createFunction_ensures {f : Function} (origin : f.origin = none) :
    Ensures R (createFunction f) := by
  intro s i s' h
  simp only [createFunction, run_bind, run_get, run_set, run_pure] at h
  obtain ⟨_, _, ⟨rfl, rfl⟩, _, _, rfl, -, rfl⟩ := h
  refine hR.unasked ⟨rfl, rfl, rfl, ⟨[f.symbol], List.map_append, ?_⟩, fun _ => .inl⟩
  intro x hx
  rw [List.mem_singleton] at hx
  rw [hx]
  exact origin

/-- A run of `codegen` does what the relation holds of. -/
theorem codegen_ensures (foreign : cx.ParsesForeign) (root : Ast) :
    Ensures R (codegen cx root) := by
  cases root with
  | «module» n name body autoimports =>
      refine .bind (.bind runtimeNew_steps fun _ => .bind runtimeNewArray_steps fun _ => .pure _)
        fun _ => .bind (createFunction_ensures rfl) fun entry =>
        .bind (.modify fun s => ?_) fun _ =>
        .bind (codegenPending_ensures foreign _) fun _ => .pure _
      refine hR.unasked ⟨rfl, rfl, rfl, ⟨[], (List.append_nil _).symm, List.forall_mem_nil _⟩, ?_⟩
      -- the only one that waits is the entry
      intro fn hfn
      rcases List.mem_cons.mp hfn with rfl | hfn
      · exact .inl List.mem_cons_self
      · rw [List.mem_singleton.mp hfn]
        exact .inr (by simp)
  | _ => exact .throw _

end Run

/-! ### Several modules -/

/-- The modules of a program, compiled one after another, all of them accepted:
the state after that, and the structs that were asked for, each with what code
generation read. -/
inductive CompileRun : Codegen → List (CodegenContext × StructRequest) → Prop
  | start : CompileRun {} []
  | «module» {cg asked fuel lookup program parse store root r} (run : CompileRun cg asked)
      (compiled : compileModule fuel lookup program parse store cg root = .ok r)
      (accepted : r.output = [])
      (foreign : CodegenContext.ParsesForeign ⟨program, r.store, fuel, parse⟩) :
      CompileRun r.codegen (asked ++
        (r.codegen.structRequests.drop cg.structRequests.length).map
          fun request => (⟨program, r.store, fuel, parse⟩, request))

/-- What is the case before is the case after. -/
def Maintains (P : Codegen → Prop) (_ : CodegenContext) (s s' : Codegen) : Prop := P s → P s'

instance {P : Codegen → Prop} : Carried (Maintains P cx) where
  refl _ := id
  trans h₁ h₂ := h₂ ∘ h₁

/-- What every run of `codegen` keeps holds after a run over modules. -/
theorem CompileRun.maintains {P : Codegen → Prop} (start : P {})
    (closed : ∀ cx, RunClosed (Maintains P cx) cx)
    {cg : Codegen} {asked : List (CodegenContext × StructRequest)} (run : CompileRun cg asked) :
    P cg := by
  induction run with
  | start => exact start
  | @«module» cg asked fuel lookup program parse store root r run compiled accepted foreign ih =>
      obtain ⟨entry, hrun⟩ := codegen_of_accepted compiled accepted
      have hR := closed ⟨program, r.store, fuel, parse⟩
      have hmaintains : Maintains P ⟨program, r.store, fuel, parse⟩ cg r.codegen :=
        codegen_ensures foreign root _ _ _ hrun
      exact hmaintains ih

/-! ### What was asked for, as it is spelled -/

/-- The struct type that was asked for is spelled `a` where it was asked for. -/
def StructRequest.Spelled (r : StructRequest) (a : Spelling) : Prop :=
  r.type.Spells (getGenericInstance r.instance_) a

/-- The names of the structs that were asked for are mangled types. -/
def StructsMangled (s : Codegen) : Prop :=
  ∀ r ∈ s.structRequests, ∃ fuel, mangleType (getGenericInstance r.instance_) fuel r.type =
    .ok r.name

/-- To ask for a type keeps the names of the requests mangled, since a request is made
under the mangled name of its type. -/
theorem TypeStep.mangled (h : StructsMangled s) (hstep : TypeStep cx s s') : StructsMangled s' := by
  have happend : ∀ {r : StructRequest}, r.Asked cx s → ∀ r' ∈ s.structRequests ++ [r], ∃ fuel,
      mangleType (getGenericInstance r'.instance_) fuel r'.type = .ok r'.name := by
    intro r asked r' hr'
    obtain hr' | hr' := List.mem_append.mp hr'
    · exact h r' hr'
    · rw [List.mem_singleton.mp hr']
      exact ⟨cx.fuel, asked.name_eq⟩
  cases hstep with
  | reuse asked _ _ => exact happend asked
  | create asked _ _ => exact happend asked
  | setBody _ _ => exact h
  | globals _ => exact h

instance : RunClosed (Maintains StructsMangled cx) cx where
  module _ _ hrequests h := by
    unfold StructsMangled
    rw [hrequests]
    exact h
  type fuel t := (codegenType_steps fuel t).mono fun s s' hsteps h => by
    induction hsteps with
    | refl => exact h
    | tail _ hstep ih => exact hstep.mangled ih
  unasked hrun h := by
    unfold StructsMangled
    rw [hrun.structRequests]
    exact h

/-- In every run of the compiler, the structs that were asked for have mangled names. -/
theorem CompileRun.structsMangled {cg : Codegen} {asked : List (CodegenContext × StructRequest)}
    (run : CompileRun cg asked) : StructsMangled cg :=
  run.maintains (by simp [StructsMangled]) fun _ => inferInstance

/-- The name of a struct that was asked for is the encoding of its spelling. -/
theorem CompileRun.name_eq {cg : Codegen} {asked : List (CodegenContext × StructRequest)}
    (run : CompileRun cg asked) {r : StructRequest} (hr : r ∈ cg.structRequests) {a : Spelling}
    (ha : r.Spelled a) : r.name = a.encode := by
  obtain ⟨fuel, hname⟩ := run.structsMangled r hr
  exact ha.mangle.eq_of_ok hname

/-- The names in the types that the type parameters of an instance are bound to. -/
def FunctionInstance.names (fn : FunctionInstance) : List Str :=
  fn.flatMap fun f => f.generics.flatMap fun g => g.2.structNames

/-- What a type parameter stands for has no names but those of the instance. -/
theorem getGenericInstance_names {fn : FunctionInstance} {g : GenericId} {type : Ty}
    (h : getGenericInstance fn g = .ok type) : ∀ name ∈ type.structNames, name ∈ fn.names := by
  intro name hname
  unfold getGenericInstance FunctionInstance.generic? at h
  split at h
  case h_2 => cases h
  case h_1 type' hfind =>
    cases h
    obtain ⟨f, hf, hlookup⟩ := List.exists_of_findSome?_eq_some hfind
    have hmem : (g, type) ∈ f.generics := by
      obtain ⟨before, after, hgenerics, -⟩ := List.lookup_eq_some_iff.mp hlookup
      simp [hgenerics]
    exact List.mem_flatMap.mpr ⟨f, hf, List.mem_flatMap.mpr ⟨_, hmem, hname⟩⟩

/-- The names in a struct type that was asked for, and in what its type parameters stand
for. -/
def StructRequest.names (r : StructRequest) : List Str := r.type.structNames ++ r.instance_.names

/-- A struct that was asked for is spelled in some way, if its names can be read. -/
theorem CompileRun.exists_spelled {cg : Codegen} {asked : List (CodegenContext × StructRequest)}
    (run : CompileRun cg asked) {r : StructRequest} (hr : r ∈ cg.structRequests)
    (names : ∀ name ∈ r.names, Identifier name) : ∃ a, r.Spelled a := by
  obtain ⟨fuel, hcode⟩ := run.structsMangled r hr
  refine Ty.exists_spells ?_ hcode fun name hname => names name (List.mem_append_left _ hname)
  intro g type hinst name hname
  exact names name (List.mem_append_right _ (getGenericInstance_names hinst name hname))

/-! ### Runs by evaluation -/

/-- An accepted module that imports nothing is a run. -/
theorem CompileRun.ofTree {tree : Tree} {r : Compiled} (h : compileTree tree = .ok r)
    (accepted : r.output = []) : ∃ asked, CompileRun r.codegen asked := by
  unfold compileTree at h
  split at h
  · refine ⟨_, .module .start h accepted ?_⟩
    rintro functions text added ⟨⟩
    exact List.forall_mem_nil _
  · exact (nomatch h)

/-- A run over one module, from what the parser built, by evaluation. -/
theorem exists_compileRun {tree : Tree} {p : Compiled → Bool}
    (h : (compileTree tree).toOption.any (fun r => r.output.isEmpty && p r) = true) :
    ∃ r asked, compileTree tree = .ok r ∧ CompileRun r.codegen asked ∧ p r = true := by
  obtain ⟨r, hr, accepted, hp⟩ := exists_compiled h
  obtain ⟨asked, run⟩ := CompileRun.ofTree hr accepted
  exact ⟨r, asked, hr, run, hp⟩

end Aike
