import Aike.Proofs.Codegen.Module

/-!
# `Aike.Proofs.Codegen.Layout`: structs inside of structs

`codegenType` makes a struct for each name that it is asked for, and the fields of
the struct hold what the fields of the type hold (`codegenType_held`). It makes
the struct before it asks for the fields, so it also ends for a struct that
holds itself.

`layout_finite_iff` says when no struct of a run does: when no type that was asked for
contains itself, through the fields of definitions and tuples. As a struct is found by its
name, a type is taken as the first one that is spelled like it.
-/

set_option autoImplicit false

namespace Aike

open Relation

variable {cx : CodegenContext} {s s' : Codegen}

/-! ### What is held by value -/

mutual

/-- The structs with a name that a value of a type holds by value. -/
def LType.held : LType → List Str
  | .struct fields => heldAll fields
  | .named name => [name]
  | .void | .int _ | .float | .pointer _ | .function _ _ => []

/-- `LType.held`, on a list. -/
def LType.heldAll : List LType → List Str
  | [] => []
  | t :: ts => held t ++ heldAll ts

end

/-- A struct of the module holds a struct by value. -/
def StructHolds (structs : List StructType) (n m : Str) : Prop :=
  ∃ st ∈ structs, st.name = n ∧ ∃ fields, st.body = some fields ∧ m ∈ LType.heldAll fields

/-- No struct holds itself, whatever is between. -/
def FiniteLayout (structs : List StructType) : Prop := ∀ n, ¬ TransGen (StructHolds structs) n n

/-- A value of a type holds a value of a struct type: it is one, or a field of a
tuple, at the types that the type parameters are bound to. -/
inductive Ty.Holds (fn : FunctionInstance) : Ty → Ty → Prop
  | struct (node tyargs d) : Holds fn (.inst node tyargs (.struct d))
      (.inst node tyargs (.struct d))
  | generic {node tyargs g t u} (bound : getGenericInstance fn g = .ok t) (holds : Holds fn t u) :
      Holds fn (.inst node tyargs (.generic g)) u
  | tuple {fields f u} (mem : f ∈ fields) (holds : Holds fn f u) : Holds fn (.tuple fields) u

/-- A field of the struct that was asked for holds a struct type. -/
def StructRequest.Contains (cx : CodegenContext) (r : StructRequest) (u : Ty) : Prop :=
  ∃ node tyargs d tydef i m, r.type = .inst node tyargs (.struct d) ∧
    cx.program.tyDef d = some tydef ∧ i < tydef.fields.length ∧
    typeMember cx.program cx.store r.type i = .ok m ∧ m.Holds r.instance_ u

/-- Of the structs that were asked for, the first one that is spelled `a` contains one
that is spelled `b`. -/
def ContainsStruct (asked : List (CodegenContext × StructRequest)) (a b : Spelling) : Prop :=
  ∃ before x after, asked = before ++ x :: after ∧ (∀ y ∈ before, ¬ y.2.Spelled a) ∧
    x.2.Spelled a ∧ ∃ u, x.2.Contains x.1 u ∧ u.Spells (getGenericInstance x.2.instance_) b

/-- No struct that was asked for contains itself. -/
def NoSelfContainment (asked : List (CodegenContext × StructRequest)) : Prop :=
  ∀ a, ¬ TransGen (ContainsStruct asked) a a

/-! ### By names -/

/-- A type holds a struct type with a mangled name. -/
def Ty.HoldsName (cx : CodegenContext) (fn : FunctionInstance) (t : Ty) (n : Str) : Prop :=
  ∃ u, t.Holds fn u ∧ mangleType (getGenericInstance fn) cx.fuel u = .ok n

/-- A field of the struct that was asked for holds a struct type with a mangled
name. -/
def StructRequest.Holds (cx : CodegenContext) (r : StructRequest) (n : Str) : Prop :=
  ∃ u, r.Contains cx u ∧ mangleType (getGenericInstance r.instance_) cx.fuel u = .ok n

/-- Of the structs that were asked for, the first one of the name `n` holds one of
the name `m`. -/
def ContainsName (asked : List (CodegenContext × StructRequest)) (n m : Str) : Prop :=
  ∃ x, asked.find? (fun x => x.2.name = n) = some x ∧ x.2.Holds x.1 m

/-! ### What the lowered type holds -/

/-- What some types hold is what one of them holds. -/
theorem mem_heldAll {n : Str} {ts : List LType} : n ∈ LType.heldAll ts ↔ ∃ t ∈ ts, n ∈ t.held := by
  induction ts with
  | nil => simp [LType.heldAll]
  | cons t ts ih => simp [LType.heldAll, ih]

/-- A run over a list, in one function instance, where what a run on one element
answers is known. -/
theorem run_mapM_exists {α β : Type} {f : α → CodegenM β} {fn : FunctionInstance} {P : α → Prop}
    {Q : β → Prop} {as : List α} {bs : List β}
    (hf : ∀ {a b s s'}, f a s = .ok (b, s') → s.currentFunction = fn →
      s'.currentFunction = fn ∧ (P a ↔ Q b))
    (h : as.mapM f s = .ok (bs, s')) (hs : s.currentFunction = fn) :
    (∃ a ∈ as, P a) ↔ ∃ b ∈ bs, Q b := by
  induction as generalizing s bs with
  | nil =>
      obtain ⟨rfl, -⟩ := run_pure.mp h
      exact iff_of_false (by simp) (by simp)
  | cons a as ih =>
      rw [List.mapM_cons] at h
      obtain ⟨b, s₁, hb, h⟩ := run_bind.mp h
      obtain ⟨bs, s₂, hbs, h⟩ := run_bind.mp h
      obtain ⟨rfl, rfl⟩ := run_pure.mp h
      have hab := hf hb hs
      rw [List.exists_mem_cons_iff, List.exists_mem_cons_iff, hab.2, ih hbs hab.1]

/-- Lowering a type leaves the instance that it is asked from. -/
theorem codegenType_currentFunction {fuel : Nat} {type : Ty} {l : LType}
    (h : codegenType cx fuel type s = .ok (l, s')) : s'.currentFunction = s.currentFunction :=
  (codegenType_steps _ _ _ _ _ h).functions.2

section HoldsName

variable {fn : FunctionInstance} {n : Str} {node : InstanceNode} {tyargs : List Ty}

/-- A tuple holds what its fields hold. -/
theorem holdsName_tuple {fields : List Ty} :
    (Ty.tuple fields).HoldsName cx fn n ↔ ∃ f ∈ fields, f.HoldsName cx fn n := by
  constructor
  · rintro ⟨u, ⟨⟩, hn⟩
    exact ⟨_, ‹_›, u, ‹_›, hn⟩
  · rintro ⟨f, hf, u, hu, hn⟩
    exact ⟨u, .tuple hf hu, hn⟩

/-- A type parameter holds what its type does. -/
theorem holdsName_generic {g : GenericId} {t : Ty} (h : getGenericInstance fn g = .ok t) :
    (Ty.inst node tyargs (.generic g)).HoldsName cx fn n ↔ t.HoldsName cx fn n := by
  constructor
  · rintro ⟨u, hu, hn⟩
    cases hu with
    | generic bound holds =>
        obtain rfl := Except.ok.inj (bound.symm.trans h)
        exact ⟨u, holds, hn⟩
  · rintro ⟨u, hu, hn⟩
    exact ⟨u, .generic h hu, hn⟩

/-- A struct type holds its own name. -/
theorem holdsName_struct {d : DefId} :
    (Ty.inst node tyargs (.struct d)).HoldsName cx fn n ↔
      mangleType (getGenericInstance fn) cx.fuel (.inst node tyargs (.struct d)) = .ok n := by
  constructor
  · rintro ⟨u, ⟨⟩, hn⟩
    exact hn
  · exact fun hn => ⟨_, .struct node tyargs d, hn⟩

/-- A type that holds nothing holds no name. -/
theorem not_holdsName {t : Ty} (h : ∀ u, ¬ t.Holds fn u) : ¬ t.HoldsName cx fn n :=
  fun ⟨u, hu, _⟩ => h u hu

end HoldsName

/-- The type that `codegenType` answers holds the structs that the type holds. -/
theorem codegenType_held {fuel : Nat} {type : Ty} {l : LType}
    (h : codegenType cx fuel type s = .ok (l, s')) (n : Str) :
    type.HoldsName cx s.currentFunction n ↔ n ∈ l.held := by
  induction fuel generalizing type l s s' with
  | zero => exact (run_throw.mp h).elim
  | succ fuel ih =>
      -- a type that is none of the program's, and what it is lowered to
      have hnone : ∀ {type : Ty} {l : LType}, (∀ u, ¬ type.Holds s.currentFunction u) →
          l.held = [] →
          (type.HoldsName cx s.currentFunction n ↔ n ∈ l.held) := by
        intro type l htype hl
        rw [hl]
        exact iff_of_false (not_holdsName htype) List.not_mem_nil
      cases type with
      | inst node tyargs target =>
          cases target with
          | struct d =>
              obtain ⟨tydef, r, -, htype, asked, rfl, -⟩ := run_codegenStruct h
              have hname := asked.name_eq
              rw [asked.instance_eq, htype] at hname
              rw [holdsName_struct, hname, LType.held, List.mem_singleton, Except.ok.injEq, eq_comm]
          | generic g =>
              unfold codegenType at h
              obtain ⟨inst, s₁, h₁, h⟩ := run_bind.mp h
              simp only [tryGetGenericInstance, run_bind, run_get, run_lift, run_pure] at h₁
              obtain ⟨_, _, ⟨rfl, rfl⟩, t, _, ⟨hbound, rfl⟩, rfl, rfl⟩ := h₁
              rw [holdsName_generic hbound]
              exact ih h
          | unresolved =>
              unfold codegenType at h
              obtain ⟨_, _, h₁, h⟩ := run_bind.mp h
              obtain ⟨rfl, rfl⟩ := run_pure.mp h₁
              exact (run_throw.mp h).elim
      | tuple fields =>
          unfold codegenType at h
          obtain ⟨_, _, h₁, h⟩ := run_bind.mp h
          obtain ⟨rfl, rfl⟩ := run_pure.mp h₁
          obtain ⟨ls, _, h₂, h⟩ := run_bind.mp h
          obtain ⟨rfl, rfl⟩ := run_pure.mp h
          rw [holdsName_tuple, LType.held, mem_heldAll]
          refine run_mapM_exists ?_ h₂ rfl
          intro f l s₁ s₂ hf hs₁
          have hfield := ih hf
          rw [hs₁] at hfield
          exact ⟨(codegenType_currentFunction hf).trans hs₁, hfield⟩
      | void | bool | integer | float | string =>
          unfold codegenType at h
          obtain ⟨_, _, h₁, h⟩ := run_bind.mp h
          obtain ⟨rfl, rfl⟩ := run_pure.mp h₁
          obtain ⟨rfl, rfl⟩ := run_pure.mp h
          exact hnone (by rintro u ⟨⟩) rfl
      | unknown u =>
          unfold codegenType at h
          obtain ⟨_, _, h₁, h⟩ := run_bind.mp h
          obtain ⟨rfl, rfl⟩ := run_pure.mp h₁
          exact (run_throw.mp h).elim
      | array element | pointer element =>
          unfold codegenType at h
          obtain ⟨_, _, h₁, h⟩ := run_bind.mp h
          obtain ⟨rfl, rfl⟩ := run_pure.mp h₁
          obtain ⟨e, _, -, h⟩ := run_bind.mp h
          obtain ⟨rfl, rfl⟩ := run_pure.mp h
          exact hnone (by rintro u ⟨⟩) rfl
      | function args ret varargs =>
          unfold codegenType at h
          obtain ⟨_, _, h₁, h⟩ := run_bind.mp h
          obtain ⟨rfl, rfl⟩ := run_pure.mp h₁
          obtain ⟨ret, _, -, h⟩ := run_bind.mp h
          obtain ⟨args, _, -, h⟩ := run_bind.mp h
          obtain ⟨rfl, rfl⟩ := run_pure.mp h
          exact hnone (by rintro u ⟨⟩) rfl

/-- There is a request for the struct type. -/
def Codegen.Asked (cx : CodegenContext) (fn : FunctionInstance) (s : Codegen) (u : Ty) : Prop :=
  ∃ r ∈ s.structRequests, r.type = u ∧ r.instance_ = fn ∧
    mangleType (getGenericInstance fn) cx.fuel u = .ok r.name

/-- Lowering a type only adds to what was asked for. -/
theorem TypeSteps.structRequests (h : TypeSteps cx s s') :
    s.structRequests <+: s'.structRequests := by
  induction h with
  | refl => exact List.prefix_rfl
  | tail _ hstep ih =>
      cases hstep with
      | reuse | create => exact ih.trans (List.prefix_append _ _)
      | setBody | globals => exact ih

/-- What was asked for was still asked for after another request. -/
theorem Codegen.Asked.append {fn : FunctionInstance} {u : Ty} {r : StructRequest}
    {structs : List StructType} (h : s.Asked cx fn u) :
    Codegen.Asked cx fn { s with structs, structRequests := s.structRequests ++ [r] } u := by
  obtain ⟨r', hr', h⟩ := h
  exact ⟨r', List.mem_append_left _ hr', h⟩

/-- So it was after some steps. -/
theorem Codegen.Asked.steps {fn : FunctionInstance} {u : Ty} (h : s.Asked cx fn u)
    (hsteps : TypeSteps cx s s') : s'.Asked cx fn u := by
  obtain ⟨r, hr, h⟩ := h
  exact ⟨r, hsteps.structRequests.subset hr, h⟩

/-- In a run over a list, in one function instance, what is asked for by the run on an
element is asked for. -/
theorem mapM_asks {ts : List Ty} {ls : List LType} {fuel : Nat} {fn : FunctionInstance} {u : Ty}
    (hf : ∀ {t l s s'}, codegenType cx fuel t s = .ok (l, s') → s.currentFunction = fn →
      t.Holds fn u → s'.Asked cx fn u)
    (h : ts.mapM (codegenType cx fuel) s = .ok (ls, s')) (hs : s.currentFunction = fn) {t : Ty}
    (ht : t ∈ ts) (hu : t.Holds fn u) : s'.Asked cx fn u := by
  induction ts generalizing s ls with
  | nil => exact absurd ht List.not_mem_nil
  | cons t' ts ih =>
      rw [List.mapM_cons] at h
      obtain ⟨l, s₁, hl, h⟩ := run_bind.mp h
      obtain ⟨ls, s₂, hls, h⟩ := run_bind.mp h
      obtain ⟨rfl, rfl⟩ := run_pure.mp h
      rcases List.mem_cons.mp ht with rfl | ht
      · exact (hf hl hs hu).steps (Ensures.mapM (codegenType_steps fuel) _ _ _ _ hls)
      · exact ih hls ((codegenType_currentFunction hl).trans hs) ht

/-- The struct types that a type holds are asked for when it is lowered. -/
theorem codegenType_asks {fuel : Nat} {type : Ty} {l : LType}
    (h : codegenType cx fuel type s = .ok (l, s')) {u : Ty} (hu : type.Holds s.currentFunction u) :
    s'.Asked cx s.currentFunction u := by
  induction fuel generalizing type l s s' with
  | zero => exact (run_throw.mp h).elim
  | succ fuel ih =>
      cases hu with
      | struct node tyargs d =>
          obtain ⟨tydef, r, -, htype, asked, -, hrun⟩ := run_codegenStruct h
          have hname := asked.name_eq
          rw [asked.instance_eq, htype] at hname
          refine ⟨r, ?_, htype, asked.instance_eq, hname⟩
          cases hrun with
          | reuse => exact List.mem_append_right _ (List.mem_singleton_self r)
          | create _ _ _ field =>
              have hsteps : TypeSteps cx _ _ := Ensures.mapM (codegenType_steps fuel) _ _ _ _ field
              exact hsteps.structRequests.subset
                (List.mem_append_right _ (List.mem_singleton_self r))
      | generic bound holds =>
          unfold codegenType at h
          obtain ⟨inst, s₁, h₁, h⟩ := run_bind.mp h
          simp only [tryGetGenericInstance, run_bind, run_get, run_lift, run_pure] at h₁
          obtain ⟨_, _, ⟨rfl, rfl⟩, t, _, ⟨hbound, rfl⟩, rfl, rfl⟩ := h₁
          cases bound.symm.trans hbound
          exact ih h holds
      | tuple mem holds =>
          unfold codegenType at h
          obtain ⟨_, _, h₁, h⟩ := run_bind.mp h
          obtain ⟨rfl, rfl⟩ := run_pure.mp h₁
          obtain ⟨ls, _, h₂, h⟩ := run_bind.mp h
          obtain ⟨rfl, rfl⟩ := run_pure.mp h
          refine mapM_asks (fun hl hs hu => ?_) h₂ rfl mem holds
          rw [← hs] at hu ⊢
          exact ih hl hu

/-! ### The structs of a run -/

/-- A struct for each type that was asked for, which holds what the first type of
its name holds. -/
structure Laid (asked : List (CodegenContext × StructRequest)) (s : Codegen) : Prop where
  requests : asked.map Prod.snd = s.structRequests
  made : ∀ x ∈ asked, ∃ st ∈ s.structs, st.name = x.2.name
  held : ∀ st ∈ s.structs, ∀ fields, st.body = some fields →
    ∃ x, asked.find? (fun x => x.2.name = st.name) = some x ∧
      (∀ m, x.2.Holds x.1 m ↔ m ∈ LType.heldAll fields) ∧
      ∀ u, x.2.Contains x.1 u → s.Asked x.1 x.2.instance_ u

namespace Laid

variable {asked : List (CodegenContext × StructRequest)} {r : StructRequest}

/-- Only the structs and what was asked for matter. -/
theorem congr (h : Laid asked s) (hstructs : s'.structs = s.structs)
    (hrequests : s'.structRequests = s.structRequests) : Laid asked s' where
  requests := hrequests ▸ h.requests
  made := hstructs ▸ h.made
  held := by
    unfold Codegen.Asked
    rw [hstructs, hrequests]
    exact h.held

/-- No struct of the name was asked for. -/
theorem find?_eq_none (h : Laid asked s) {name : Str} (notFound : s.getTypeByName name = none) :
    asked.find? (fun x => x.2.name = name) = none := by
  rw [List.find?_eq_none]
  intro x hx hname
  obtain ⟨st, hst, hst'⟩ := h.made x hx
  exact List.find?_eq_none.mp notFound st hst (by simpa [hst'] using hname)

/-- The first one of a name stays the first one. -/
theorem append_find? {x : CodegenContext × StructRequest}
    {new : List (CodegenContext × StructRequest)}
    {name : Str} (h : asked.find? (fun x => x.2.name = name) = some x) :
    (asked ++ new).find? (fun x => x.2.name = name) = some x := by
  rw [List.find?_append, h]
  rfl

/-- A struct that is found was asked for before, so it is laid out by that request. -/
theorem reuse (h : Laid asked s) {st : StructType} (found : s.getTypeByName r.name = some st) :
    Laid (asked ++ [(cx, r)]) { s with structRequests := s.structRequests ++ [r] } where
  requests := by simp [h.requests]
  made x hx := by
    rw [List.mem_append, List.mem_singleton] at hx
    obtain hx | rfl := hx
    · exact h.made x hx
    · exact ⟨st, List.mem_of_find?_eq_some found, by simpa using List.find?_some found⟩
  held st hst fields hbody := by
    obtain ⟨x, hx, hheld, hasked⟩ := h.held st hst fields hbody
    exact ⟨x, append_find? hx, hheld, fun u hu => (hasked u hu).append⟩

/-- A struct that is made has no body yet. -/
theorem create (h : Laid asked s) :
    Laid (asked ++ [(cx, r)])
      { s with
        structs := s.structs ++ [{ name := r.name, origin := r.key }]
        structRequests := s.structRequests ++ [r] } where
  requests := by simp [h.requests]
  made x hx := by
    rw [List.mem_append, List.mem_singleton] at hx
    obtain hx | rfl := hx
    · obtain ⟨st, hst, hname⟩ := h.made x hx
      exact ⟨st, List.mem_append_left _ hst, hname⟩
    · exact ⟨_, List.mem_append_right _ (List.mem_singleton_self _), rfl⟩
  held st hst fields hbody := by
    obtain hst | hst := List.mem_append.mp hst
    · obtain ⟨x, hx, hheld, hasked⟩ := h.held st hst fields hbody
      exact ⟨x, append_find? hx, hheld, fun u hu => (hasked u hu).append⟩
    · -- the new struct has no body yet
      obtain rfl := List.mem_singleton.mp hst
      exact (nomatch hbody)

/-- A struct gets its body: it holds what the first request of its name contains, and all
of that was asked for. -/
theorem setBody (h : Laid asked s) {name : Str} {body : List LType}
    {x : CodegenContext × StructRequest} (hx : asked.find? (fun x => x.2.name = name) = some x)
    (hheld : ∀ m, x.2.Holds x.1 m ↔ m ∈ LType.heldAll body)
    (hasked : ∀ u, x.2.Contains x.1 u → s.Asked x.1 x.2.instance_ u) :
    Laid asked
      { s with
        structs := s.structs.map fun st =>
          if st.name = name then { st with body := some body } else st } where
  requests := h.requests
  made x hx := by
    obtain ⟨st, hst, hname⟩ := h.made x hx
    refine ⟨_, List.mem_map_of_mem hst, ?_⟩
    show StructType.name (if _ then _ else _) = _
    split <;> exact hname
  held st' hst' fields hbody := by
    obtain ⟨st, hst, rfl⟩ := List.mem_map.mp hst'
    by_cases hname : st.name = name
    · simp only [if_pos hname, Option.some.injEq] at hbody ⊢
      subst hbody
      exact ⟨x, hname ▸ hx, hheld, hasked⟩
    · simp only [if_neg hname] at hbody ⊢
      exact h.held st hst fields hbody

end Laid

/-- What a run of lowering does to the structs: for what it asked for there are
structs with bodies. -/
structure Lays (cx : CodegenContext) (s s' : Codegen) : Prop where
  laid : ∀ {asked}, Laid asked s → ∃ new : List StructRequest, Laid (asked ++ new.map (cx, ·)) s'
  bodies : ∀ st' ∈ s'.structs, st'.body = none → ∃ st ∈ s.structs, st.name = st'.name ∧
    st.body = none

instance : Carried (Lays cx) where
  refl s := ⟨fun h => ⟨[], by simpa using h⟩, fun st hst hbody => ⟨st, hst, rfl, hbody⟩⟩
  trans {s t u} h₁ h₂ := by
    constructor
    · intro asked h
      obtain ⟨new, hnew⟩ := h₁.laid h
      obtain ⟨new', hnew'⟩ := h₂.laid hnew
      exact ⟨new ++ new', by simpa using hnew'⟩
    · intro st'' hst'' hbody
      obtain ⟨st', hst', hname', hbody⟩ := h₂.bodies st'' hst'' hbody
      obtain ⟨st, hst, hname, hbody⟩ := h₁.bodies st' hst' hbody
      exact ⟨st, hst, hname.trans hname', hbody⟩

/-- What leaves the structs and the requests alone lays out nothing. -/
theorem Lays.congr (hstructs : s'.structs = s.structs)
    (hrequests : s'.structRequests = s.structRequests) : Lays cx s s' where
  laid h := ⟨[], by simpa using h.congr hstructs hrequests⟩
  bodies st hst hbody := ⟨st, hstructs ▸ hst, rfl, hbody⟩

/-- A property of some result of `mapM` is one of some element. -/
theorem exists_mem_of_mapM {α β : Type} {f : α → Except Fault β} {as : List α} {bs : List β}
    {P : β → Prop} (h : as.mapM f = .ok bs) :
    (∃ b ∈ bs, P b) ↔ ∃ a ∈ as, ∃ b, f a = .ok b ∧ P b := by
  induction as generalizing bs with
  | nil =>
      cases h
      simp
  | cons a as ih =>
      rw [List.mapM_cons] at h
      cases hb : f a with
      | error e =>
          rw [hb] at h
          exact (nomatch h)
      | ok b =>
          cases hbs : as.mapM f with
          | error e =>
              rw [hb, hbs] at h
              exact (nomatch h)
          | ok bs =>
              rw [hb, hbs] at h
              cases h
              simp [ih hbs, hb]

section Members

variable {fuel : Nat} {node : InstanceNode} {tyargs : List Ty} {d : DefId} {tydef : TyDef}
  {r : StructRequest} {members : List Ty} {fields : List LType}

/-- What a struct contains is what its members hold. -/
theorem contains_iff (htydef : cx.program.tyDef d = some tydef)
    (htype : r.type = .inst node tyargs (.struct d))
    (member : (List.range tydef.fields.length).mapM (typeMember cx.program cx.store r.type) =
      .ok members) (u : Ty) :
    r.Contains cx u ↔ ∃ t ∈ members, t.Holds r.instance_ u := by
  rw [exists_mem_of_mapM member]
  constructor
  · rintro ⟨node', tyargs', d', tydef', i, t, htype', htydef', hi, ht, hholds⟩
    cases htype.symm.trans htype'
    cases htydef.symm.trans htydef'
    refine ⟨i, ?_, t, ht, hholds⟩
    exact List.mem_flatMap.mpr ⟨i, List.mem_range.mpr hi, List.mem_singleton_self _⟩
  · rintro ⟨i, hi, t, ht, hholds⟩
    obtain ⟨j, hj, hi⟩ := List.mem_flatMap.mp hi
    obtain rfl := List.mem_singleton.mp hi
    exact ⟨node, tyargs, d, tydef, j, t, htype, htydef, List.mem_range.mp hj, ht, hholds⟩

/-- The body of a struct holds what the struct type contains, by names. -/
theorem holds_iff_heldAll
    (hcontains : ∀ u, r.Contains cx u ↔ ∃ t ∈ members, t.Holds r.instance_ u)
    (field : members.mapM (codegenType cx fuel) s = .ok (fields, s'))
    (hinst : s.currentFunction = r.instance_) (m : Str) :
    r.Holds cx m ↔ m ∈ LType.heldAll fields := by
  have hfields : (∃ t ∈ members, t.HoldsName cx r.instance_ m) ↔ ∃ l ∈ fields, m ∈ l.held := by
    refine run_mapM_exists ?_ field hinst
    intro t l s₁ s₂ h hs₁
    have ht := codegenType_held h m
    rw [hs₁] at ht
    exact ⟨(codegenType_currentFunction h).trans hs₁, ht⟩
  rw [mem_heldAll, ← hfields]
  constructor
  · rintro ⟨u, hu, hm⟩
    obtain ⟨t, ht, hholds⟩ := (hcontains u).mp hu
    exact ⟨t, ht, u, hholds, hm⟩
  · rintro ⟨t, ht, u, hholds, hm⟩
    exact ⟨u, (hcontains u).mpr ⟨t, ht, hholds⟩, hm⟩

end Members

/-- Lowering a type lays out the structs that it asks for. The fields are lowered while
the struct has no body, so they may ask for it again. -/
theorem codegenType_lays (fuel : Nat) (type : Ty) :
    Ensures (Lays cx) (codegenType cx fuel type) := by
  refine codegenType_ensures ?_ fuel type
  intro fuel node tyargs d ih s a s' h
  obtain ⟨tydef, r, htydef, htype, hasked, -, hrun⟩ := run_codegenStruct h
  cases hrun with
  | reuse found result =>
      exact ⟨fun h => ⟨[r], h.reuse found⟩, fun st hst hbody => ⟨st, hst, rfl, hbody⟩⟩
  | @create members fields t notFound result member field =>
      have hfields : Lays cx _ t := Ensures.mapM ih _ _ _ _ field
      constructor
      · intro asked h
        -- the first one of the name is the one that was just asked for
        have hfirst : ∀ new : List StructRequest, (asked ++ [(cx, r)] ++ new.map (cx, ·)).find?
            (fun x => x.2.name = r.name) = some (cx, r) := by
          intro new
          apply Laid.append_find?
          rw [List.find?_append, h.find?_eq_none notFound]
          simp
        obtain ⟨new, hnew⟩ := hfields.laid h.create
        refine ⟨r :: new, ?_⟩
        have hcontains := contains_iff htydef htype member
        have hinst := hasked.instance_eq.symm
        have hheld := holds_iff_heldAll hcontains field hinst
        have hbody := hnew.setBody (hfirst new) hheld fun u hu => by
          obtain ⟨t, ht, hholds⟩ := (hcontains u).mp hu
          refine mapM_asks (fun hl hs hu => ?_) field hinst ht hholds
          rw [← hs] at hu ⊢
          exact codegenType_asks hl hu
        simpa using hbody
      · intro st' hst' hbody
        obtain ⟨st, hst, rfl⟩ := List.mem_map.mp hst'
        by_cases hname : st.name = r.name
        · rw [if_pos hname] at hbody
          exact (nomatch hbody)
        · rw [if_neg hname] at hbody ⊢
          obtain ⟨st₀, hst₀, hname₀, hbody₀⟩ := hfields.bodies st hst hbody
          obtain hst₀ | hst₀ := List.mem_append.mp hst₀
          · exact ⟨st₀, hst₀, hname₀, hbody₀⟩
          · obtain rfl := List.mem_singleton.mp hst₀
            exact absurd hname₀.symm hname

instance : RunClosed (Lays cx) cx where
  module _ hstructs hrequests := Lays.congr hstructs hrequests
  type := codegenType_lays
  unasked h := Lays.congr h.structs h.structRequests

/-! ### Whole runs -/

/-- What a run of code generation leaves behind. -/
theorem CompileRun.laid {cg : Codegen} {asked : List (CodegenContext × StructRequest)}
    (run : CompileRun cg asked) : Laid asked cg ∧ ∀ st ∈ cg.structs, st.body ≠ none := by
  induction run with
  | start => exact ⟨⟨rfl, by simp, by simp⟩, by simp⟩
  | @module cg asked fuel lookup program parse store root r run compiled accepted foreign ih =>
      obtain ⟨entry, hrun⟩ := codegen_of_accepted compiled accepted
      have hlays : Lays ⟨program, r.store, fuel, parse⟩ cg r.codegen :=
        codegen_ensures foreign root _ _ _ hrun
      obtain ⟨new, hnew⟩ := hlays.laid ih.1
      constructor
      · have heq : r.codegen.structRequests = cg.structRequests ++ new := by
          rw [← hnew.requests, ← ih.1.requests, List.map_append, List.map_map]
          exact congrArg _ (List.map_id new)
        rw [heq, List.drop_left]
        exact hnew
      · intro st hst hbody
        obtain ⟨st₀, hst₀, -, hbody₀⟩ := hlays.bodies st hst hbody
        exact ih.2 st₀ hst₀ hbody₀

section Contained

variable {cg : Codegen} {asked : List (CodegenContext × StructRequest)}
  (run : CompileRun cg asked)

include run

/-- The structs contain each other as the types that were asked for do, by names. -/
theorem CompileRun.structHolds_iff {n m : Str} :
    StructHolds cg.structs n m ↔ ContainsName asked n m := by
  obtain ⟨laid, bodies⟩ := run.laid
  constructor
  · rintro ⟨st, hst, rfl, fields, hbody, hm⟩
    obtain ⟨x, hx, hheld, -⟩ := laid.held st hst fields hbody
    exact ⟨x, hx, (hheld m).mpr hm⟩
  · rintro ⟨x, hx, hm⟩
    obtain ⟨st, hst, hname⟩ := laid.made x (List.mem_of_find?_eq_some hx)
    have hn : x.2.name = n := by simpa using List.find?_some hx
    obtain ⟨fields, hbody⟩ := Option.ne_none_iff_exists'.mp (bodies st hst)
    obtain ⟨x', hx', hheld, -⟩ := laid.held st hst fields hbody
    rw [hname, hn, hx] at hx'
    cases hx'
    exact ⟨st, hst, hname.trans hn, fields, hbody, (hheld m).mp hm⟩

/-- The struct types that the first one of a name contains are asked for. -/
theorem CompileRun.contains_asked {n : Str} {x : CodegenContext × StructRequest}
    (hx : asked.find? (fun x => x.2.name = n) = some x) {u : Ty} (hu : x.2.Contains x.1 u) :
    cg.Asked x.1 x.2.instance_ u := by
  obtain ⟨laid, bodies⟩ := run.laid
  obtain ⟨st, hst, hname⟩ := laid.made x (List.mem_of_find?_eq_some hx)
  have hn : x.2.name = n := by simpa using List.find?_some hx
  obtain ⟨fields, hbody⟩ := Option.ne_none_iff_exists'.mp (bodies st hst)
  obtain ⟨x', hx', -, hasked⟩ := laid.held st hst fields hbody
  rw [hname, hn, hx] at hx'
  cases hx'
  exact hasked u hu

/-- What was asked for is recorded in the state. -/
theorem CompileRun.mem_requests {x : CodegenContext × StructRequest} (hx : x ∈ asked) :
    x.2 ∈ cg.structRequests := by
  rw [← run.laid.1.requests]
  exact List.mem_map_of_mem hx

/-- Containment by spelling is containment by names. -/
theorem CompileRun.containsName_iff (hspelled : ∀ r ∈ cg.structRequests, ∃ a, r.Spelled a)
    {n m : Str} :
    ContainsName asked n m ↔ ∃ a b, n = a.encode ∧ m = b.encode ∧ ContainsStruct asked a b := by
  constructor
  · rintro ⟨x, hx, u, hu, hm⟩
    obtain ⟨hname, before, after, hsplit, hbefore⟩ := List.find?_eq_some_iff_append.mp hx
    have hmem : x ∈ asked := List.mem_of_find?_eq_some hx
    have hname : x.2.name = n := by simpa using hname
    obtain ⟨a, ha⟩ := hspelled _ (run.mem_requests hmem)
    -- what is contained was asked for, so it is spelled too
    obtain ⟨r, hr, rfl, hinst, hrname⟩ := run.contains_asked hx hu
    obtain ⟨b, hb⟩ := hspelled r hr
    cases hm.symm.trans hrname
    refine ⟨a, b, ?_, run.name_eq hr hb, before, x, after, hsplit, fun y hy hya => ?_, ha, r.type,
      hu, hinst ▸ hb⟩
    · rw [← hname, run.name_eq (run.mem_requests hmem) ha]
    · have hyname : y.2.name = x.2.name := by
        rw [run.name_eq (run.mem_requests (by simp [hsplit, hy])) hya,
          run.name_eq (run.mem_requests hmem) ha]
      simpa [hyname, hname] using hbefore y hy
  · rintro ⟨a, b, rfl, rfl, before, x, after, hsplit, hbefore, ha, u, hu, hb⟩
    have hmem : x ∈ asked := by simp [hsplit]
    have hx : asked.find? (fun x => x.2.name = a.encode) = some x := by
      rw [List.find?_eq_some_iff_append]
      refine ⟨by simpa using run.name_eq (run.mem_requests hmem) ha, before, after, hsplit, ?_⟩
      intro y hy
      -- one that comes before and has the name is spelled like this
      have hreq := run.mem_requests (x := y) (by simp [hsplit, hy])
      obtain ⟨c, hc⟩ := hspelled _ hreq
      have hne : y.2.name ≠ a.encode := by
        rw [run.name_eq hreq hc]
        exact fun h => hbefore y hy (Spelling.encode_inj h ▸ hc)
      simpa using hne
    obtain ⟨r, -, rfl, hinst, hrname⟩ := run.contains_asked hx hu
    have hrname' : r.name = b.encode := hb.mangle.eq_of_ok hrname
    exact ⟨x, hx, r.type, hu, hrname' ▸ hrname⟩

end Contained

/-! ### A struct that is its own field -/

/-- ```
struct Foo
    a: Foo
fn f(x: Foo): int
    1
f
()
``` -/
def structInItself : Tree :=
  let foo : TyTree := .inst ⟨"Foo".toList, {}⟩ []
  .module {} "m".toList (.block {} [
    .tyDecl {} "Foo".toList [] [([⟨"a".toList, {}⟩], foo, none)],
    .fnDecl {} { kind := .function, name := "f".toList, type := .function [foo] .integer false } []
      [{ kind := .argument, name := "x".toList, type := foo }] {}
      (some (.block {} [.literalInteger {} 1])),
    .ident {} "f".toList [],
    .literalVoid {}]) []

end Aike
