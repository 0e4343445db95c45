import Aike.Proofs.Codegen.Module
import Aike.Proofs.FnSpelling

/-!
# `Aike.Proofs.Codegen.Reuse`: structs and functions under one name

Code generation finds the struct of a type, and the function of a declaration, by
a mangled name. So a request gets what was made for the first request of its name, and
that is the first one that is spelled like it (`CompileRun.name_eq`,
`CompileRun.fnName_eq`). The definition, the block and the result type are not in the
spelling.

* `structReuse_iff`: the structs are always the ones that were asked for exactly
  when struct types that are spelled alike are the same.
* `functionReuse_iff` says this for functions, where a function that nothing asked
  for can be in the way too. The functions around a function were asked for
  (`InstancesRequested`), so their spelling is a part of its spelling.
-/

set_option autoImplicit false

namespace Aike

variable {cx : CodegenContext} {s s' : Codegen}

/-! ### Structs -/

/-- Each request got the one struct of its name, and each struct was made for a
request. -/
structure StructsKnown (s : Codegen) : Prop where
  names : (s.structs.map StructType.name).Nodup
  request : ∀ r ∈ s.structRequests, ∃ st ∈ s.structs, st.name = r.name ∧ st.origin = r.result
  struct : ∀ st ∈ s.structs, ∃ r ∈ s.structRequests, r.name = st.name ∧ r.key = st.origin

namespace StructsKnown

/-- The two lists are all that matters, so what leaves them alone keeps the property. -/
theorem congr (h : StructsKnown s) (hstructs : s'.structs = s.structs)
    (hrequests : s'.structRequests = s.structRequests) : StructsKnown s' := by
  obtain ⟨names, request, struct⟩ := h
  rw [← hstructs, ← hrequests] at request struct
  exact ⟨hstructs ▸ names, request, struct⟩

/-- A request that finds a struct of its name gets it, and adds none. The first struct of
a name is the one that is found. -/
theorem reuse (h : StructsKnown s) {r : StructRequest} {st : StructType}
    (found : s.getTypeByName r.name = some st) (result : r.result = st.origin) :
    StructsKnown { s with structRequests := s.structRequests ++ [r] } where
  names := h.names
  request r' hr' := by
    obtain hr' | hr' := List.mem_append.mp hr'
    · exact h.request r' hr'
    · obtain rfl := List.mem_singleton.mp hr'
      exact ⟨st, List.mem_of_find?_eq_some found, by simpa using List.find?_some found, result.symm⟩
  struct st hst := by
    obtain ⟨r', hr', hname, hkey⟩ := h.struct st hst
    exact ⟨r', List.mem_append_left _ hr', hname, hkey⟩

/-- A request that finds no struct of its name makes one at the end of the list, for what
it asked for. -/
theorem create (h : StructsKnown s) {r : StructRequest} (notFound : s.getTypeByName r.name = none)
    (result : r.result = r.key) :
    StructsKnown
      { s with
        structs := s.structs ++ [{ name := r.name, origin := r.key }]
        structRequests := s.structRequests ++ [r] } where
  names := by
    show ((s.structs ++ [_]).map StructType.name).Nodup
    rw [List.map_append, List.nodup_append]
    refine ⟨h.names, by simp, ?_⟩
    intro name hname name' hname' heq
    -- No struct of that name was found.
    obtain ⟨st, hst, rfl⟩ := List.mem_map.mp hname
    have hst' : ¬ st.name = r.name := by simpa using List.find?_eq_none.mp notFound st hst
    exact hst' (heq.trans (List.mem_singleton.mp hname'))
  request r' hr' := by
    obtain hr' | hr' := List.mem_append.mp hr'
    · obtain ⟨st, hst, hname, horigin⟩ := h.request r' hr'
      exact ⟨st, List.mem_append_left _ hst, hname, horigin⟩
    · obtain rfl := List.mem_singleton.mp hr'
      exact ⟨_, List.mem_append_right _ (List.mem_singleton_self _), rfl, result.symm⟩
  struct st hst := by
    obtain hst | hst := List.mem_append.mp hst
    · obtain ⟨r', hr', hname, hkey⟩ := h.struct st hst
      exact ⟨r', List.mem_append_left _ hr', hname, hkey⟩
    · obtain rfl := List.mem_singleton.mp hst
      exact ⟨r, List.mem_append_right _ (List.mem_singleton_self _), rfl, rfl⟩

/-- A struct that gets a body stays what it is known by. -/
theorem setBody (h : StructsKnown s) (name : Str) (body : List LType) :
    StructsKnown
      { s with
        structs := s.structs.map fun st =>
          if st.name = name then { st with body := some body } else st } := by
  -- Setting a body changes neither names nor origins.
  have hname : ∀ st : StructType,
      (if st.name = name then { st with body := some body } else st).name = st.name := by
    intro st
    split <;> rfl
  have horigin : ∀ st : StructType,
      (if st.name = name then { st with body := some body } else st).origin = st.origin := by
    intro st
    split <;> rfl
  constructor
  case names =>
    show ((s.structs.map _).map StructType.name).Nodup
    rw [List.map_map]
    convert h.names using 2
    exact funext hname
  case request =>
    intro r hr
    obtain ⟨st, hst, hst'⟩ := h.request r hr
    refine ⟨_, List.mem_map_of_mem hst, ?_⟩
    rw [hname, horigin]
    exact hst'
  case struct =>
    intro st' hst'
    obtain ⟨st, hst, rfl⟩ := List.mem_map.mp hst'
    rw [hname, horigin]
    exact h.struct st hst

/-- A step of `codegenType` keeps the structs known. -/
theorem typeStep (h : StructsKnown s) (hstep : TypeStep cx s s') : StructsKnown s' := by
  cases hstep with
  | reuse asked found result => exact h.reuse found result
  | create asked notFound result => exact h.create notFound result
  | setBody name body => exact h.setBody name body
  | globals gs => exact h.congr rfl rfl

end StructsKnown

instance : RunClosed (Maintains StructsKnown cx) cx where
  module _ hstructs hrequests h := h.congr hstructs hrequests
  type fuel t := (codegenType_steps fuel t).mono fun s s' hsteps h => by
    induction hsteps with
    | refl => exact h
    | tail _ hstep ih => exact ih.typeStep hstep
  unasked hrun h := h.congr hrun.structs hrun.structRequests

/-- ```
if true
    struct Foo
        a: int
    fn f(x: Foo): int
        1
    f
    ()
else
    struct Foo
        a: bool
    fn g(x: Foo): int
        1
    g
    ()
``` -/
def twoStructs : Tree :=
  let foo : TyTree := .inst ⟨"Foo".toList, {}⟩ []
  let branch (name : Str) (field : TyTree) : Tree := .block {} [
    .tyDecl {} "Foo".toList [] [([⟨"a".toList, {}⟩], field, none)],
    .fnDecl {} { kind := .function, name, type := .function [foo] .integer false } []
      [{ kind := .argument, name := "x".toList, type := foo }] {}
      (some (.block {} [.literalInteger {} 1])),
    .ident {} name [],
    .literalVoid {}]
  .module {} "m".toList (.block {} [
    .ifElse {} (.literalBool {} true) (branch ['f'] .integer) (branch ['g'] .bool)]) []

/-- `getFunction` looks a function up by its name among what the functions are known by. -/
theorem getFunction_eq (s : Codegen) (name : Str) :
    s.getFunction name = s.symbols.findIdx? fun x => x.1 = name := by
  rw [Codegen.getFunction, Codegen.symbols, List.findIdx?_map]
  rfl

/-- The function that is found is the first one of its name. -/
theorem find?_of_getFunction {name : Str} {i : FunctionId} (h : s.getFunction name = some i) :
    ∃ f, s.functions[i]? = some f ∧ f.name = name ∧
      s.functions.find? (fun f => f.name = name) = some f := by
  obtain ⟨hlt, hname, hbefore⟩ := List.findIdx?_eq_some_iff_getElem.mp h
  refine ⟨_, List.getElem?_eq_getElem hlt, by simpa using hname, ?_⟩
  rw [List.find?_eq_some_iff_getElem]
  exact ⟨hname, i, hlt, rfl, by simpa using hbefore⟩

/-- Each request got the function that its name leads to, and each function that
was made for a request was made for one that got it. -/
structure FunctionsKnown (s : Codegen) : Prop where
  found : ∀ r ∈ s.requests, s.getFunction r.name = some r.result
  made : ∀ i name key, s.symbols[i]? = some (name, some key) →
    ∃ r ∈ s.requests, r.result = i ∧ r.key = key

namespace FunctionsKnown

/-- Functions that nothing asked for are added. -/
theorem append (h : FunctionsKnown s) {added : List (Str × Option FnKey)}
    (hsymbols : s'.symbols = s.symbols ++ added) (hrequests : s'.requests = s.requests)
    (unasked : ∀ x ∈ added, x.2 = none) : FunctionsKnown s' where
  found r hr := by
    have hfound := h.found r (hrequests ▸ hr)
    rw [getFunction_eq] at hfound ⊢
    rw [hsymbols, List.findIdx?_append, hfound]
    rfl
  made i name key hi := by
    rw [hrequests]
    rw [hsymbols, List.getElem?_append] at hi
    split at hi
    · exact h.made i name key hi
    · exact (nomatch unasked _ (List.mem_of_getElem? hi))

/-- The functions and the requests are all that matters, so what leaves them alone keeps
the property. -/
theorem congr (h : FunctionsKnown s) (hfunctions : s'.functions = s.functions)
    (hrequests : s'.requests = s.requests) : FunctionsKnown s' :=
  have hsymbols : s'.symbols = s.symbols ++ [] := by
    rw [Codegen.symbols, hfunctions, List.append_nil]
    rfl
  h.append hsymbols hrequests (List.forall_mem_nil _)

/-- A request that finds a function of its name gets it, and declares none. -/
theorem reuse (h : FunctionsKnown s) {r : FnRequest}
    (found : s.getFunction r.name = some r.result) :
    FunctionsKnown { s with requests := s.requests ++ [r] } where
  found r' hr' := by
    obtain hr' | hr' := List.mem_append.mp hr'
    · exact h.found r' hr'
    · obtain rfl := List.mem_singleton.mp hr'
      exact found
  made i name key hi := by
    obtain ⟨r', hr', hmade⟩ := h.made i name key hi
    exact ⟨r', List.mem_append_left _ hr', hmade⟩

/-- A request that finds no function of its name declares one at the end of the list, for
what it asked for. -/
theorem declare (h : FunctionsKnown s) {r : FnRequest} {f : Function}
    (notFound : s.getFunction r.name = none) (name : f.name = r.name)
    (origin : f.origin = some r.key)
    (result : r.result = s.functions.length) :
    FunctionsKnown { s with functions := s.functions ++ [f], requests := s.requests ++ [r] } where
  found r' hr' := by
    obtain hr' | hr' := List.mem_append.mp hr'
    · have hfound := h.found r' hr'
      unfold Codegen.getFunction at hfound ⊢
      rw [List.findIdx?_append, hfound]
      rfl
    · obtain rfl := List.mem_singleton.mp hr'
      unfold Codegen.getFunction at notFound ⊢
      rw [List.findIdx?_append, notFound, result]
      simp [name]
  made i n key hi := by
    rw [Codegen.symbols, List.map_append, List.getElem?_append] at hi
    split at hi
    case isTrue =>
      obtain ⟨r', hr', hmade⟩ := h.made i n key hi
      exact ⟨r', List.mem_append_left _ hr', hmade⟩
    case isFalse hlt =>
      -- the new function, which was made for the new request
      rw [List.length_map] at hi hlt
      rw [List.map_singleton, List.getElem?_singleton] at hi
      split at hi
      case isTrue hzero =>
        simp only [Function.symbol, origin, Option.some.injEq, Prod.mk.injEq] at hi
        have hlast : s.functions.length = i :=
          Nat.le_antisymm (Nat.not_lt.mp hlt) (Nat.le_of_sub_eq_zero hzero)
        exact ⟨r, List.mem_append_right _ (List.mem_singleton_self _), result.trans hlast, hi.2⟩
      case isFalse => exact (nomatch hi)

end FunctionsKnown

/-- Lowering a type asks for no function. -/
theorem TypeSteps.requests (h : TypeSteps cx s s') : s'.requests = s.requests := by
  induction h with
  | refl => rfl
  | tail _ hstep ih =>
      cases hstep with
      | reuse | create | setBody | globals => exact ih

/-- Types are lowered without a look at the instances that are waiting. -/
theorem TypeSteps.instances (h : TypeSteps cx s s') : s'.instances = s.instances := by
  induction h with
  | refl => rfl
  | tail _ hstep ih =>
      cases hstep with
      | reuse | create | setBody | globals => exact ih

instance : RunClosed (Maintains FunctionsKnown cx) cx where
  module hstep _ _ h := by
    cases hstep with
    | type hstep =>
        have hsteps : TypeSteps cx _ _ := .single hstep
        exact h.congr hsteps.functions.1 hsteps.requests
    | @external f notFound origin body =>
        refine h.append (List.map_append : _ = _ ++ [f.symbol]) rfl fun x hx => ?_
        rw [List.mem_singleton.mp hx]
        exact origin
    | reuse asked found => exact h.reuse found
    | declare asked notFound name origin body result => exact h.declare notFound name origin result
    | pend => exact h.congr rfl rfl
  type fuel t := (codegenType_steps fuel t).mono fun s s' hsteps h =>
    h.congr hsteps.functions.1 hsteps.requests
  unasked hrun h := by
    obtain ⟨added, hsymbols, unasked⟩ := hrun.functions
    exact h.append hsymbols hrun.requests unasked

/-! ### Functions, as they are spelled -/

/-- What was asked for is spelled so, apart from what is around the function. -/
def FnRequest.SpelledSig (r : FnRequest) (sig : FnSignature) : Prop :=
  sig.Spells (getGenericInstance r.instance_) r.decl.var.name r.id r.type r.tyargs

/-- The function that was asked for is spelled so where it was asked for: with its module,
or with what was asked for to get the function around it. -/
inductive FnRequest.Spelled (requests : List FnRequest) : FnRequest → FnSpelling → Prop
  | top {r sig} (parents : r.parents = []) (noModule : r.moduleName = none)
      (spells : r.SpelledSig sig) : Spelled requests r (.top sig)
  | inModule {r sig} {m : SpelledName} (parents : r.parents = [])
      (inModule : r.moduleName = some m.text) (spells : r.SpelledSig sig) :
      Spelled requests r (.inModule m sig)
  | inFunction {r sig p rest q b} (parents : r.parents = p :: rest) (mem : q ∈ requests)
      (result : q.result = p.value) (parent : Spelled requests q b) (spells : r.SpelledSig sig) :
      Spelled requests r (.inFunction b sig)

/-- The name under which the function was looked up is mangled, with the name of what is
around it. -/
structure FnRequest.Mangled (symbols : List (Str × Option FnKey)) (r : FnRequest) : Prop where
  name : ∃ fuel, mangleFn (getGenericInstance r.instance_) fuel r.decl.var.name r.id r.type
    r.tyargs r.parentName = .ok r.name
  noParent : r.parents = [] → r.parentName = match r.moduleName with
    | some m => mangleModule m
    | none => []
  parent : ∀ p rest, r.parents = p :: rest → symbols[p.value]?.map Prod.fst = some r.parentName

/-- A request stays mangled when functions are added, since they are added at the end and
the one around it keeps its place. -/
theorem FnRequest.Mangled.append {symbols : List (Str × Option FnKey)} {r : FnRequest}
    (h : r.Mangled symbols) (added : List (Str × Option FnKey)) : r.Mangled (symbols ++ added) where
  name := h.name
  noParent := h.noParent
  parent p rest hparents := by
    have hparent := h.parent p rest hparents
    cases hsymbol : symbols[p.value]? with
    | none =>
        rw [hsymbol] at hparent
        cases hparent
    | some symbol =>
        obtain ⟨hlt, -⟩ := List.getElem?_eq_some_iff.mp hsymbol
        rwa [List.getElem?_append_left hlt]

/-- A request of `codegenFunctionDecl` is mangled. -/
theorem FnRequest.Asked.mangled {r : FnRequest} (h : r.Asked cx s) : r.Mangled s.symbols where
  name := ⟨cx.fuel, h.name_eq⟩
  noParent hparents := by
    have hname := h.parentName_eq
    rw [← h.parents_eq, hparents, Aike.parentName, ← h.module_eq] at hname
    cases hmodule : r.moduleName <;> rw [hmodule] at hname <;> exact (run_pure.mp hname).1.symm
  parent p rest hparents := by
    have hname := h.parentName_eq
    rw [← h.parents_eq, hparents] at hname
    simp only [Aike.parentName, run_bind, run_get, run_assertSome, run_pure] at hname
    obtain ⟨_, _, ⟨rfl, rfl⟩, f, _, ⟨hf, rfl⟩, hname, -⟩ := hname
    rw [Codegen.symbols, List.getElem?_map, hf]
    exact congrArg some hname

/-- All that was asked for is mangled. -/
def RequestsMangled (s : Codegen) : Prop := ∀ r ∈ s.requests, r.Mangled s.symbols

/-- A change that only adds functions keeps every request mangled. -/
theorem RequestsMangled.append (h : RequestsMangled s) {added : List (Str × Option FnKey)}
    (hsymbols : s'.symbols = s.symbols ++ added) (hrequests : s'.requests = s.requests) :
    RequestsMangled s' := by
  unfold RequestsMangled
  rw [hsymbols, hrequests]
  exact fun r hr => (h r hr).append added

/-- The functions and the requests are all that matters, so what leaves them alone keeps
the property. -/
theorem RequestsMangled.congr (h : RequestsMangled s) (hfunctions : s'.functions = s.functions)
    (hrequests : s'.requests = s.requests) : RequestsMangled s' := by
  unfold RequestsMangled Codegen.symbols
  rw [hfunctions, hrequests]
  exact h

instance : RunClosed (Maintains RequestsMangled cx) cx where
  module hstep _ _ h := by
    have happend : ∀ {s : Codegen} {r : FnRequest}, RequestsMangled s → r.Asked cx s →
        ∀ r' ∈ s.requests ++ [r], r'.Mangled s.symbols := by
      intro s r h asked r' hr'
      obtain hr' | hr' := List.mem_append.mp hr'
      · exact h r' hr'
      · rw [List.mem_singleton.mp hr']
        exact asked.mangled
    cases hstep with
    | type hstep =>
        have hsteps : TypeSteps cx _ _ := .single hstep
        exact h.congr hsteps.functions.1 hsteps.requests
    | @external f notFound origin body => exact h.append (List.map_append : _ = _ ++ [f.symbol]) rfl
    | reuse asked found => exact happend h asked
    | @declare r f asked notFound name origin body result =>
        intro r' hr'
        show r'.Mangled (List.map Function.symbol (_ ++ [f]))
        rw [List.map_append]
        exact (happend h asked r' hr').append [f.symbol]
    | pend => exact h
  type fuel t := (codegenType_steps fuel t).mono fun s s' hsteps h => by
    exact h.congr hsteps.functions.1 hsteps.requests
  unasked hrun h := by
    obtain ⟨added, hsymbols, -⟩ := hrun.functions
    exact h.append hsymbols hrun.requests

/-! ### What is around a function was asked for -/

/-- Each function of an instance that is no entry was asked for, with what is around it. -/
def FunctionInstance.Requested (fn : FunctionInstance) (requests : List FnRequest) : Prop :=
  ∀ p rest, p :: rest <:+ fn → p.entry = false →
    ∃ q ∈ requests, q.result = p.value ∧ q.parents = rest

/-- What was asked for stays so when some of the inner functions are left out, as when the
parents of an instance are taken. -/
theorem FunctionInstance.Requested.suffix {fn fn' : FunctionInstance} {requests : List FnRequest}
    (h : fn.Requested requests) (hsuffix : fn' <:+ fn) : fn'.Requested requests :=
  fun p rest hp => h p rest (hp.trans hsuffix)

/-- What was asked for stays so when there is one more request. -/
theorem FunctionInstance.Requested.append {fn : FunctionInstance} {requests : List FnRequest}
    (h : fn.Requested requests) (r : FnRequest) : fn.Requested (requests ++ [r]) := by
  intro p rest hp hentry
  obtain ⟨q, hq, hparent⟩ := h p rest hp hentry
  exact ⟨q, List.mem_append_left _ hq, hparent⟩

/-- All that is around a function was asked for. An entry is around no function. -/
structure InstancesRequested (s : Codegen) : Prop where
  instances : ∀ fn ∈ s.instances, fn.Requested s.requests
  parents : ∀ r ∈ s.requests, r.parents.Requested s.requests
  head : ∀ r ∈ s.requests, ∀ p ∈ r.parents.head?, p.entry = false

/-- The instance of a declaration is one that is around, and not an entry. -/
theorem getFunctionInstance_suffix (fn : FunctionInstance) (decl : Option NodeId) :
    getFunctionInstance fn decl <:+ fn ∧
      ∀ p ∈ (getFunctionInstance fn decl).head?, p.entry = false := by
  cases decl with
  | none => exact ⟨List.nil_suffix, by simp [getFunctionInstance]⟩
  | some d =>
      refine ⟨List.dropWhile_suffix _, fun p hp => ?_⟩
      have hhead := List.head?_dropWhile_not (fun f => f.entry || f.decl.node.id != d) fn
      rw [getFunctionInstance] at hp
      rw [Option.mem_def.mp hp] at hhead
      simp only [Bool.or_eq_false_iff] at hhead
      exact hhead.1

namespace InstancesRequested

/-- The instances and the requests are all that matters, so what leaves them alone keeps
the property. -/
theorem congr (h : InstancesRequested s) (hinstances : s'.instances = s.instances)
    (hrequests : s'.requests = s.requests) : InstancesRequested s' := by
  obtain ⟨instances, parents, head⟩ := h
  rw [← hrequests] at instances parents head
  exact ⟨hinstances ▸ instances, parents, head⟩

/-- A function is asked for from the instance that is being emitted. -/
theorem append (h : InstancesRequested s) {r : FnRequest} (asked : r.Asked cx s)
    (hinstances : s'.instances = s.instances) (hrequests : s'.requests = s.requests ++ [r]) :
    InstancesRequested s' := by
  obtain ⟨hsuffix, hhead⟩ := getFunctionInstance_suffix r.instance_
    (cx.store.parent r.decl.node.id)
  have hcurrent : r.instance_.Requested s.requests := by
    rw [asked.instance_eq]
    exact h.instances _ List.mem_cons_self
  constructor
  · intro fn hfn
    rw [hrequests]
    exact (h.instances fn (hinstances ▸ hfn)).append r
  · intro r' hr'
    rw [hrequests] at hr' ⊢
    obtain hr' | hr' := List.mem_append.mp hr'
    · exact (h.parents r' hr').append r
    · rw [List.mem_singleton.mp hr', asked.parents_eq]
      exact (hcurrent.suffix hsuffix).append r
  · intro r' hr'
    rw [hrequests] at hr'
    obtain hr' | hr' := List.mem_append.mp hr'
    · exact h.head r' hr'
    · rw [List.mem_singleton.mp hr', asked.parents_eq]
      exact hhead

/-- What was asked for waits with what is around it. -/
theorem pend (h : InstancesRequested s) {r : FnRequest} (mem : r ∈ s.requests) {p : InstanceFrame}
    (value : r.result = p.value) :
    InstancesRequested
      { s with pendingFunctions := (p :: r.parents) :: s.pendingFunctions } where
  instances fn hfn := by
    have hmem : fn ∈ s.instances ∨ fn = p :: r.parents := by
      simp only [Codegen.instances, List.mem_cons] at hfn ⊢
      tauto
    rcases hmem with hfn | rfl
    · exact h.instances fn hfn
    · intro p' rest hsuffix hentry
      rcases List.suffix_cons_iff.mp hsuffix with heq | hsuffix
      · cases heq
        exact ⟨r, mem, value, rfl⟩
      · exact h.parents r mem p' rest hsuffix hentry
  parents := h.parents
  head := h.head

end InstancesRequested

instance : RunClosed (Maintains InstancesRequested cx) cx where
  module hstep _ _ h := by
    cases hstep with
    | type hstep =>
        have hsteps : TypeSteps cx _ _ := .single hstep
        exact h.congr hsteps.instances hsteps.requests
    | external notFound origin body => exact h.congr rfl rfl
    | reuse asked found => exact h.append asked rfl rfl
    | declare asked notFound name origin body result => exact h.append asked rfl rfl
    | pend mem tyargs final => exact h.pend mem rfl
  type fuel t := (codegenType_steps fuel t).mono fun s s' hsteps h =>
    h.congr hsteps.instances hsteps.requests
  unasked hrun h := by
    obtain ⟨instances, parents, head⟩ := h
    rw [← hrun.requests] at instances parents head
    refine ⟨fun fn hfn => ?_, parents, head⟩
    rcases hrun.instances fn hfn with hfn | hentries
    · exact instances fn hfn
    · intro p rest hsuffix hentry
      rw [hentries p (hsuffix.subset List.mem_cons_self)] at hentry
      cases hentry

/-- The names in what was asked for: those of the function, of its module, in its types and
type arguments, and in what the type parameters stand for. -/
def FnRequest.names (r : FnRequest) : List Str :=
  (if r.decl.var.name = [] then [] else [r.decl.var.name]) ++ r.moduleName.toList ++
    r.type.structNames ++ Ty.structNamesAll r.tyargs ++ r.instance_.names

section Runs

variable {cg : Codegen} {asked : List (CodegenContext × StructRequest)}
  (run : CompileRun cg asked)

include run

/-- In every run of the compiler, each request got the function that its name leads to.
The induction is over the modules, and over the steps of code generation within each. -/
theorem CompileRun.functionsKnown : FunctionsKnown cg :=
  run.maintains ⟨by simp, by simp [Codegen.symbols]⟩ fun _ => inferInstance

/-- In every run of the compiler, the name of every request is mangled. -/
theorem CompileRun.requestsMangled : RequestsMangled cg :=
  run.maintains (by simp [RequestsMangled]) fun _ => inferInstance

/-- In every run of the compiler, all that is around a function was asked for before it. -/
theorem CompileRun.instancesRequested : InstancesRequested cg := by
  refine run.maintains ⟨?_, by simp, by simp⟩ fun _ => inferInstance
  intro fn hfn p rest hsuffix
  rw [List.mem_singleton.mp hfn] at hsuffix
  exact absurd hsuffix.length_le (by simp)

/-- A function that was asked for is spelled in some way, if the names can be read. -/
theorem CompileRun.exists_fnSpelled
    (names : ∀ r ∈ cg.requests, ∀ name ∈ r.names, Identifier name) {r : FnRequest}
    (hr : r ∈ cg.requests) : ∃ a, r.Spelled cg.requests a := by
  have requested := run.instancesRequested
  have hsig : ∀ r ∈ cg.requests, ∃ sig, r.SpelledSig sig := by
    intro r hr
    obtain ⟨fuel, hname⟩ := (run.requestsMangled r hr).name
    have hnames := names r hr
    simp only [FnRequest.names, List.mem_append] at hnames
    refine FnSignature.exists_spells (fun hinst n hn => ?_) hname (fun hne => ?_) ?_ ?_
    · exact hnames n (.inr (getGenericInstance_names hinst n hn))
    · exact hnames _ (.inl (.inl (.inl (.inl (by simp [hne])))))
    · exact fun n hn => hnames n (.inl (.inl (.inr hn)))
    · exact fun n hn => hnames n (.inl (.inr hn))
  generalize hparents : r.parents = fn
  -- by induction on what is around the function
  induction fn generalizing r with
  | nil =>
      obtain ⟨sig, spells⟩ := hsig r hr
      cases hmodule : r.moduleName with
      | none => exact ⟨.top sig, .top hparents hmodule spells⟩
      | some m =>
          have hm : Identifier m := names r hr m (by simp [FnRequest.names, hmodule])
          exact ⟨.inModule ⟨m, hm⟩ sig, .inModule hparents hmodule spells⟩
  | cons p rest ih =>
      obtain ⟨sig, spells⟩ := hsig r hr
      obtain ⟨q, hq, result, hrest⟩ := requested.parents r hr p rest
        (hparents ▸ List.suffix_rfl) (requested.head r hr p (by simp [hparents]))
      obtain ⟨b, hb⟩ := ih hq hrest
      exact ⟨.inFunction b sig, .inFunction hparents hq result hb spells⟩

/-- The name of a function that was asked for is the encoding of its spelling. -/
theorem CompileRun.fnName_eq {r : FnRequest} (hr : r ∈ cg.requests) {a : FnSpelling}
    (ha : r.Spelled cg.requests a) : r.name = ['_', 'Z'] ++ a.encode := by
  have mangled := run.requestsMangled
  induction ha with
  | top parents noModule spells =>
      obtain ⟨fuel, hname⟩ := (mangled _ hr).name
      rw [(mangled _ hr).noParent parents, noModule] at hname
      rw [(spells.mangleFn _).eq_of_ok hname, List.append_assoc]
      rfl
  | @inModule r sig m parents inModule spells =>
      obtain ⟨fuel, hname⟩ := (mangled _ hr).name
      rw [(mangled _ hr).noParent parents, inModule] at hname
      rw [(spells.mangleFn _).eq_of_ok hname]
      show _ ++ mangleNested (mangleModule m.text) sig.fnName ++ _ = _
      rw [mangleNested_module]
      simp [FnSpelling.encode]
  | @inFunction r sig p rest q b parents mem result parent spells ih =>
      obtain ⟨fuel, hname⟩ := (mangled _ hr).name
      -- the parent is called as what was asked for to get it
      obtain ⟨f, hf, hfname, -⟩ := find?_of_getFunction (run.functionsKnown.found q mem)
      have hparent := (mangled _ hr).parent p rest parents
      rw [Codegen.symbols, List.getElem?_map, ← result, hf] at hparent
      have hparentName : r.parentName = '_' :: 'Z' :: b.encode :=
        (Option.some.inj hparent).symm.trans (hfname.trans (ih mem))
      rw [hparentName] at hname
      rw [(spells.mangleFn _).eq_of_ok hname, mangleNested_function b.encode_ne_nil]
      simp [FnSpelling.encode]

end Runs

/-- A request got the function that was made for what it asked for. -/
def FnRequest.Faithful (cg : Codegen) (r : FnRequest) : Prop :=
  ∃ f, cg.functions[r.result]? = some f ∧ f.origin = some r.key

/-- The first function of the module with the name was made by `codegenFunctionDecl`. -/
def Codegen.MadeByDecl (cg : Codegen) (name : Str) : Prop :=
  ∃ f, cg.functions.find? (fun f => f.name = name) = some f ∧ f.origin ≠ none

/-- ```
if true
    fn f(): int
        1
    f()
    ()
else
    fn f(): int
        2
    f()
    ()
``` -/
def twoFunctions : Tree :=
  let branch (value : Int) : Tree := .block {} [
    .fnDecl {} { kind := .function, name := ['f'], type := .function [] .integer false } [] [] {}
      (some (.block {} [.literalInteger {} value])),
    .call {} (.ident {} ['f'] []) [],
    .literalVoid {}]
  .module {} "m".toList (.block {} [.ifElse {} (.literalBool {} true) (branch 1) (branch 2)]) []

end Aike
