import Aike.Lib.Scope
import Aike.Model.FrontEnd
import Aike.Proofs.NameMap

/-!
# `Aike.Proofs.Resolve`: name resolution is lexical scoping

`scopeEvents` is the reference: what a walk through a module enters, binds, uses
and leaves. An identifier means what the bindings in force before it say
(`targetsOf`), and the parent of a function is the function around it
(`parentsOf`).

The pass keeps one map from names to bindings, which it grows and cuts back. At
every point that map is `NameMap.ofList` of the bindings in force, so every visit
of an identifier gives it the targets that the reference does.

The fields of a line of a struct share their default, which is visited once for
each of them. An identifier has one list of targets, and keeps those of its last
visit. So it has the right ones exactly if its visits agree
(`resolveNames_scoping_iff`).
-/

set_option autoImplicit false

namespace Aike

open Scope ResolveNames

/-! ### The reference -/

/-- A use is an identifier, with its name. -/
abbrev ScopeEvent := Event (NodeId × Str) Variable

/-- The functions that a list of trees declares itself. -/
def directFunctions (body : List Ast) : List Variable :=
  body.filterMap fun
    | .fnDecl _ var _ _ _ _ => some var
    | _ => none

/-- The functions that an import binds. -/
def importedFunctions (lookup : Str → Option Ast) (name : Str) : List Variable :=
  match lookup name with
  | some (.module _ _ (.block _ body) _) => directFunctions body
  | _ => []

/-- Bind variables, one after the other. -/
def binds (vars : List Variable) : List ScopeEvent := vars.map .bind

section Reference

variable (lookup : Str → Option Ast)

mutual

/-- The events of a walk through a tree. -/
def scopeEvents : Ast → List ScopeEvent
  | .ident n name => [.use (n.id, name)]
  | .block _ body => inScope (binds (directFunctions body) ++ scopeEventsAll body)
  | .module _ _ body autoimports =>
      binds (autoimports.flatMap (importedFunctions lookup)) ++ scopeEvents body
  | .forIn _ var index expr body =>
      inScope (scopeEvents expr ++ (binds (var :: index.toList) ++ scopeEvents body))
  | .fnDecl _ _ _ args _ body => inScope (scopeEventsBody args body)
  | .tyDecl _ _ _ _ fields => inScope (scopeEventsDefaults fields)
  | .varDecl _ var expr => scopeEvents expr ++ binds [var]
  | .import _ name => binds (importedFunctions lookup name)
  | .literalTuple _ fields => scopeEventsAll fields
  | .literalArray _ elements => scopeEventsAll elements
  | .literalStruct _ _ fields => scopeEventsFields fields
  | .member _ expr _ => scopeEvents expr
  | .call _ expr args => scopeEvents expr ++ scopeEventsAll args
  | .unary _ _ expr => scopeEvents expr
  | .binary _ _ left right => scopeEvents left ++ scopeEvents right
  | .index _ expr idx => scopeEvents expr ++ scopeEvents idx
  | .assign _ left right => scopeEvents left ++ scopeEvents right
  | .ifThen _ cond thenbody => scopeEvents cond ++ scopeEvents thenbody
  | .ifElse _ cond thenbody elsebody =>
      scopeEvents cond ++ (scopeEvents thenbody ++ scopeEvents elsebody)
  | .while _ expr body => scopeEvents expr ++ scopeEvents body
  | .fn _ _ decl => scopeEvents decl
  | .literalVoid _ | .literalBool _ _ | .literalInteger _ _ | .literalFloat _ _
  | .literalString _ _ | .llvm _ _ => []

/-- `scopeEvents`, on a list. -/
def scopeEventsAll : List Ast → List ScopeEvent
  | [] => []
  | c :: cs => scopeEvents c ++ scopeEventsAll cs

/-- `scopeEvents`, on the initializers of a struct literal. -/
def scopeEventsFields : List (FieldRef × Ast) → List ScopeEvent
  | [] => []
  | c :: cs => scopeEvents c.2 ++ scopeEventsFields cs

/-- The body of a function, with its arguments. -/
def scopeEventsBody (args : List Variable) : Option Ast → List ScopeEvent
  | none => []
  | some body => binds args ++ scopeEvents body

/-- `scopeEvents`, on a default initializer. -/
def scopeEventsOption : Option Ast → List ScopeEvent
  | none => []
  | some c => scopeEvents c

/-- `scopeEvents`, on the default initializers of a struct. -/
def scopeEventsDefaults : List (FieldDecl × Option Ast) → List ScopeEvent
  | [] => []
  | c :: cs => scopeEventsOption c.2 ++ scopeEventsDefaults cs

end

end Reference

mutual

/-- The functions in a tree, each with the function around it. -/
def parentsOf (parent : Option NodeId) : Ast → List (NodeId × Option NodeId)
  | .fnDecl n _ _ _ _ body => (n.id, parent) :: parentsOfOption (some n.id) body
  | .block _ body => parentsOfAll parent body
  | .module _ _ body _ => parentsOf parent body
  | .forIn _ _ _ expr body => parentsOf parent expr ++ parentsOf parent body
  | .tyDecl _ _ _ _ fields => parentsOfDefaults parent fields
  | .varDecl _ _ expr => parentsOf parent expr
  | .literalTuple _ fields => parentsOfAll parent fields
  | .literalArray _ elements => parentsOfAll parent elements
  | .literalStruct _ _ fields => parentsOfFields parent fields
  | .member _ expr _ => parentsOf parent expr
  | .call _ expr args => parentsOf parent expr ++ parentsOfAll parent args
  | .unary _ _ expr => parentsOf parent expr
  | .binary _ _ left right => parentsOf parent left ++ parentsOf parent right
  | .index _ expr idx => parentsOf parent expr ++ parentsOf parent idx
  | .assign _ left right => parentsOf parent left ++ parentsOf parent right
  | .ifThen _ cond thenbody => parentsOf parent cond ++ parentsOf parent thenbody
  | .ifElse _ cond thenbody elsebody =>
      parentsOf parent cond ++ (parentsOf parent thenbody ++ parentsOf parent elsebody)
  | .while _ expr body => parentsOf parent expr ++ parentsOf parent body
  | .fn _ _ decl => parentsOf parent decl
  | .ident _ _ | .import _ _ | .literalVoid _ | .literalBool _ _ | .literalInteger _ _
  | .literalFloat _ _ | .literalString _ _ | .llvm _ _ => []

/-- `parentsOf`, on a list. -/
def parentsOfAll (parent : Option NodeId) : List Ast → List (NodeId × Option NodeId)
  | [] => []
  | c :: cs => parentsOf parent c ++ parentsOfAll parent cs

/-- `parentsOf`, on the initializers of a struct literal. -/
def parentsOfFields (parent : Option NodeId) : List (FieldRef × Ast) → List (NodeId × Option NodeId)
  | [] => []
  | c :: cs => parentsOf parent c.2 ++ parentsOfFields parent cs

/-- `parentsOf`, on a body or a default initializer. -/
def parentsOfOption (parent : Option NodeId) : Option Ast → List (NodeId × Option NodeId)
  | none => []
  | some c => parentsOf parent c

/-- `parentsOf`, on the default initializers of a struct. -/
def parentsOfDefaults (parent : Option NodeId) :
    List (FieldDecl × Option Ast) → List (NodeId × Option NodeId)
  | [] => []
  | c :: cs => parentsOfOption parent c.2 ++ parentsOfDefaults parent cs

end

/-- What a name means where some bindings are in force, latest first: the latest
alone when it is no function, and else all the functions. -/
def targetsOf (inForce : List Variable) (name : Str) : List Variable :=
  match inForce.filter fun v => v.name = name with
  | [] => []
  | v :: vs => if v.kind = .function then (v :: vs).filter fun v => v.kind = .function else [v]

/-! ### The name map -/

/-- The map with some bindings, latest first. -/
def NameMap.ofList : List Variable → NameMap Variable
  | [] => {}
  | v :: vs => (ofList vs).push v.name v

namespace NameMap

/-- `NameMap.ofList` is the map of the variables with their names, so its facts are those
of `ofBindings`. -/
theorem ofList_eq (vs : List Variable) : ofList vs = ofBindings (vs.map fun v => (v.name, v)) := by
  induction vs with
  | nil => rfl
  | cons v vs ih =>
      show (ofList vs).push v.name v = (ofBindings (vs.map fun v => (v.name, v))).push v.name v
      rw [ih]

/-- The bindings of a name are the variables of that name, innermost first. -/
theorem data_ofList (vs : List Variable) (name : Str) :
    (ofList vs).data name = vs.filter fun v => v.name = name := by
  rw [ofList_eq, data_ofBindings, List.filter_map, List.map_map]
  exact List.map_id _

/-- The top of the stack is the number of variables. -/
theorem top_ofList (vs : List Variable) : (ofList vs).top = vs.length := by
  rw [ofList_eq, top_ofBindings, List.length_map]

/-- Cutting back to the size of the outer scope takes away what the inner one added. -/
theorem pop_ofList (added vs : List Variable) :
    (ofList (added ++ vs)).pop vs.length = ofList vs := by
  have h := pop_ofBindings (added.map fun v => (v.name, v)) (vs.map fun v => (v.name, v))
  rw [List.length_map, ← List.map_append] at h
  rw [ofList_eq, ofList_eq]
  exact h

end NameMap

/-! ### Steps of the pass -/

/-- The targets after some events that come after `past`. -/
def runUses : List ScopeEvent → List ScopeEvent → (NodeId → List Variable) → NodeId → List Variable
  | _, [], targets => targets
  | past, .use u :: events, targets =>
      runUses (.use u :: past) events (update targets u.1 (targetsOf (inForce 0 past) u.2))
  | past, event :: events, targets => runUses (event :: past) events targets

/-- The targets of a walk are a run over its events, where a use updates the targets of
its identifier. -/
theorem runUses_eq_run (past es : List ScopeEvent) (targets : NodeId → List Variable) :
    runUses past es targets =
      run (fun vars u targets => update targets u.1 (targetsOf vars u.2)) past es targets := by
  induction es generalizing past targets with
  | nil => rfl
  | cons e es ih =>
      cases e with
      | use u => exact ih _ _
      | _ => exact ih _ _

/-- Two walks one after the other: the second one starts in the scope that the first left. -/
theorem runUses_append (past es₁ es₂ : List ScopeEvent) (targets : NodeId → List Variable) :
    runUses past (es₁ ++ es₂) targets =
      runUses (es₁.reverse ++ past) es₂ (runUses past es₁ targets) := by
  simp only [runUses_eq_run, run_append]

/-- The parents after some functions were declared. -/
def setParents (parents : List (NodeId × Option NodeId)) (parent : NodeId → Option NodeId) :
    NodeId → Option NodeId :=
  parents.foldl (fun f p => update f p.1 p.2) parent

/-- What a part of the pass does: it goes through some events, and gives some
functions their parents. -/
structure Resolved (rs rs' : ResolveNames) (events : List ScopeEvent)
    (parents : List (NodeId × Option NodeId)) : Prop where
  functions : rs'.functions = rs.functions
  parent : rs'.store.parent = setParents parents rs.store.parent
  vars : ∀ past, rs.vars = .ofList (inForce 0 past) →
    rs'.vars = .ofList (inForce 0 (events.reverse ++ past))
  targets : ∀ past, rs.vars = .ofList (inForce 0 past) →
    rs'.store.targets = runUses past events rs.store.targets

/-- A step that leaves bindings, targets and parents alone. -/
structure SameScope (rs rs' : ResolveNames) : Prop where
  functions : rs'.functions = rs.functions
  parent : rs'.store.parent = rs.store.parent
  vars : rs'.vars = rs.vars
  targets : rs'.store.targets = rs.store.targets
  «module» : rs'.module = rs.module

section Steps

variable {rs rs₁ rs₂ : ResolveNames} {es es₁ es₂ : List ScopeEvent}
  {ps ps₁ ps₂ : List (NodeId × Option NodeId)}

/-- A step that changes no scope can do nothing. -/
theorem SameScope.refl (rs : ResolveNames) : SameScope rs rs := ⟨rfl, rfl, rfl, rfl, rfl⟩

/-- Two steps that change no scope are one. -/
theorem SameScope.trans (h₁ : SameScope rs rs₁) (h₂ : SameScope rs₁ rs₂) : SameScope rs rs₂ where
  functions := h₂.functions.trans h₁.functions
  parent := h₂.parent.trans h₁.parent
  vars := h₂.vars.trans h₁.vars
  targets := h₂.targets.trans h₁.targets
  «module» := h₂.module.trans h₁.module

/-- The function around is the same after such a step. -/
theorem SameScope.head {parent : Option NodeId} (h : SameScope rs rs₁)
    (hp : rs.functions.head? = parent) : rs₁.functions.head? = parent := by
  rw [h.functions]
  exact hp

/-- A step that changes no scope has no events. -/
theorem SameScope.resolved (h : SameScope rs rs₁) : Resolved rs rs₁ [] [] where
  functions := h.functions
  parent := h.parent
  vars _ hvars := h.vars.trans hvars
  targets _ _ := h.targets

namespace Resolved

/-- Two parts of a walk one after the other have their events one after the other. -/
theorem append (h₁ : Resolved rs rs₁ es₁ ps₁) (h₂ : Resolved rs₁ rs₂ es₂ ps₂) :
    Resolved rs rs₂ (es₁ ++ es₂) (ps₁ ++ ps₂) where
  functions := h₂.functions.trans h₁.functions
  parent := by rw [h₂.parent, h₁.parent, setParents, setParents, setParents, List.foldl_append]
  vars past hvars := by
    rw [h₂.vars _ (h₁.vars past hvars), List.reverse_append, List.append_assoc]
  targets past hvars := by
    rw [h₂.targets _ (h₁.vars past hvars), h₁.targets past hvars, runUses_append]

/-- What comes before a part and changes no scope adds no events. -/
theorem quiet (h : SameScope rs rs₁) (h₁ : Resolved rs₁ rs₂ es ps) : Resolved rs rs₂ es ps :=
  h.resolved.append h₁

/-- Binding a variable is one event. -/
theorem bind (rs : ResolveNames) (v : Variable) :
    Resolved rs (rs.pushVariable v) [.bind v] [] where
  functions := rfl
  parent := rfl
  vars past hvars := by
    show rs.vars.push v.name v = .ofList (v :: inForce 0 past)
    rw [hvars]
    rfl
  targets past _ := rfl

/-- Binding some variables is an event for each of them. -/
theorem binds (rs : ResolveNames) (vars : List Variable) :
    Resolved rs (vars.foldl pushVariable rs) (Aike.binds vars) [] := by
  induction vars generalizing rs with
  | nil => exact (SameScope.refl rs).resolved
  | cons v vars ih => exact (bind rs v).append (ih (rs.pushVariable v))

/-- A scope is cut back to where it started. -/
theorem inScope (h : Resolved rs rs₁ es ps) (hb : Balanced es) :
    Resolved rs (rs₁.pop rs.top) (Scope.inScope es) ps where
  functions := h.functions
  parent := h.parent
  vars past hvars := by
    have hinner := h.vars (.enter :: past) hvars
    rw [hb.1] at hinner
    show rs₁.vars.pop rs.vars.top = _
    rw [hinner, hvars, NameMap.top_ofList, hb.inScope_eq]
    exact NameMap.pop_ofList _ _
  targets past hvars := by
    show rs₁.store.targets = _
    rw [h.targets (.enter :: past) hvars, Scope.inScope]
    show _ = runUses (.enter :: past) (es ++ [.leave]) _
    rw [runUses_append]
    rfl

end Resolved

/-! ### Types, declarations and imports -/

/-- Resolving one name of a type writes its target and maybe an error, and no scope. -/
theorem resolveTypeInstance_sameScope (rs : ResolveNames) (node : InstanceNode)
    (target : TyTarget) :
    SameScope rs (rs.resolveTypeInstance node target).2 := by
  unfold resolveTypeInstance
  split
  · split
    · exact .refl rs
    · split
      · exact .refl rs
      · exact ⟨rfl, rfl, rfl, rfl, rfl⟩
  · exact .refl rs

mutual

/-- Resolving a type changes no scope. By induction on the type. -/
theorem resolveType_sameScope (rs : ResolveNames) (type : Ty) :
    SameScope rs (rs.resolveType type).2 := by
  cases type with
  | tuple fields => exact resolveTypes_sameScope rs fields
  | array element => exact resolveType_sameScope rs element
  | pointer element => exact resolveType_sameScope rs element
  | function args ret varargs =>
      exact (resolveTypes_sameScope rs args).trans (resolveType_sameScope _ ret)
  | inst node tyargs target =>
      exact (resolveTypeInstance_sameScope rs node target).trans (resolveTypes_sameScope _ tyargs)
  | _ => exact .refl rs

/-- Resolving some types changes no scope. -/
theorem resolveTypes_sameScope (rs : ResolveNames) (types : List Ty) :
    SameScope rs (rs.resolveTypes types).2 := by
  cases types with
  | nil => exact .refl rs
  | cons t ts => exact (resolveType_sameScope rs t).trans (resolveTypes_sameScope _ ts)

end

/-- Resolving the type of a node changes no scope. -/
theorem resolveNodeType_sameScope (rs : ResolveNames) (n : NodeId) :
    SameScope rs (rs.resolveNodeType n) := by
  unfold resolveNodeType
  split
  case h_1 => exact .refl rs
  case h_2 t _ =>
    have h := resolveType_sameScope rs t
    exact ⟨h.functions, h.parent, h.vars, h.targets, h.module⟩

/-- Nor does resolving the type of a variable. -/
theorem resolveVarType_sameScope (rs : ResolveNames) (v : VarId) :
    SameScope rs (rs.resolveVarType v) := by
  have h := resolveType_sameScope rs (rs.store.varType v)
  exact ⟨h.functions, h.parent, h.vars, h.targets, h.module⟩

/-- Nor do the type arguments of an identifier. -/
theorem resolveIdentTyargs_sameScope (rs : ResolveNames) (n : NodeId) :
    SameScope rs (rs.resolveIdentTyargs n) := by
  have h := resolveTypes_sameScope rs (rs.store.identTyargs n)
  exact ⟨h.functions, h.parent, h.vars, h.targets, h.module⟩

/-- Nor do the types of the fields of a struct. -/
theorem resolveFieldTypes_sameScope (rs : ResolveNames) (d : DefId) :
    SameScope rs (rs.resolveFieldTypes d) := by
  have h := resolveTypes_sameScope rs (rs.store.fieldTypes d)
  exact ⟨h.functions, h.parent, h.vars, h.targets, h.module⟩

/-- Nor does the type of a function with those of its arguments. -/
theorem resolveFnType_sameScope (rs : ResolveNames) (var : Variable) (args : List Variable) :
    SameScope rs (rs.resolveFnType var args) := by
  have h := resolveVarType_sameScope rs var.id
  unfold resolveFnType
  dsimp only
  split
  · exact ⟨h.functions, h.parent, h.vars, h.targets, h.module⟩
  · exact h

/-- Type parameters are bound in a map of their own. -/
theorem pushGenerics_sameScope (rs : ResolveNames) (tyargs : List Generic) :
    SameScope rs (tyargs.foldl pushGeneric rs) := by
  induction tyargs generalizing rs with
  | nil => exact .refl rs
  | cons g tyargs ih =>
      have h : SameScope rs (rs.pushGeneric g) := ⟨rfl, rfl, rfl, rfl, rfl⟩
      exact h.trans (ih _)

/-- Before the expressions of a block, the functions that it declares are bound, in their
order. So a function can be used before it is declared. -/
theorem resolveDecls_resolved (rs : ResolveNames) (body : List Ast) :
    Resolved rs (body.foldl resolveDecl rs) (binds (directFunctions body)) [] := by
  induction body generalizing rs with
  | nil => exact (SameScope.refl rs).resolved
  | cons c body ih =>
      cases c with
      | fnDecl n var tyargs args attributes fnBody => exact (Resolved.bind rs var).append (ih _)
      | tyDecl n name d tyargs fields =>
          have h : SameScope rs (rs.resolveDecl (.tyDecl n name d tyargs fields)) :=
            ⟨rfl, rfl, rfl, rfl, rfl⟩
          exact .quiet h (ih _)
      | _ => exact ih _

/-- What the resolver answers for an import is a module with a block. -/
def Importable (lookup : Str → Option Ast) (name : Str) : Prop :=
  ∃ n moduleName nb body autoimports,
    lookup name = some (.module n moduleName (.block nb body) autoimports)

/-- An import binds the functions that the imported module declares itself. -/
theorem resolveImport_resolved {lookup : Str → Option Ast} {name : Str}
    (h : Importable lookup name) (rs : ResolveNames) :
    ∃ rs₁, rs.resolveImport lookup name = .ok rs₁ ∧
      Resolved rs rs₁ (binds (importedFunctions lookup name)) [] := by
  obtain ⟨n, moduleName, nb, body, autoimports, hlookup⟩ := h
  refine ⟨body.foldl resolveDecl rs, ?_, ?_⟩
  · rw [resolveImport, hlookup]
  · rw [importedFunctions, hlookup]
    exact resolveDecls_resolved rs body

/-- Some imports bind those of each module, one after the other. -/
theorem resolveImports_resolved {lookup : Str → Option Ast} {names : List Str}
    (h : ∀ name ∈ names, Importable lookup name) (rs : ResolveNames) :
    ∃ rs₁, rs.resolveImports lookup names = .ok rs₁ ∧
      Resolved rs rs₁ (binds (names.flatMap (importedFunctions lookup))) [] := by
  induction names generalizing rs with
  | nil => exact ⟨rs, rfl, (SameScope.refl rs).resolved⟩
  | cons name names ih =>
      rw [List.forall_mem_cons] at h
      obtain ⟨rs₁, hrs₁, h₁⟩ := resolveImport_resolved h.1 rs
      obtain ⟨rs₂, hrs₂, h₂⟩ := ih h.2 rs₁
      refine ⟨rs₂, ?_, ?_⟩
      · rw [resolveImports, hrs₁]
        exact hrs₂
      · rw [List.flatMap_cons, binds, List.map_append]
        exact h₁.append h₂

/-- An identifier gets the bindings in force of its name, which is what a use means. -/
theorem resolveIdent_resolved (rs : ResolveNames) (n : Node) (name : Str) :
    Resolved rs (rs.resolveIdent n name) [.use (n.id, name)] [] := by
  -- A local variable hides everything further out, functions are all kept as overloads.
  have htargets (past : List ScopeEvent) (hvars : rs.vars = .ofList (inForce 0 past)) :
      resolveBindings (rs.vars.findAll name) = targetsOf (inForce 0 past) name := by
    rw [hvars, NameMap.findAll, NameMap.data_ofList, targetsOf]
    cases (inForce 0 past).filter fun v => v.name = name with
    | nil => rfl
    | cons v vs =>
        show (if v.kind ≠ .function then [v] else _) = if v.kind = .function then _ else [v]
        by_cases hkind : v.kind = .function
        · rw [if_neg (not_not.mpr hkind), if_pos hkind]
        · rw [if_pos hkind, if_neg hkind]
  have h : Resolved rs
      { rs with
        store :=
          { rs.store with
            targets :=
              update rs.store.targets n.id (resolveBindings (rs.vars.findAll name)) } }
      [.use (n.id, name)] [] :=
    ⟨rfl, rfl, fun past hvars => hvars, fun past hvars => by rw [htargets past hvars]; rfl⟩
  unfold resolveIdent
  show Resolved rs (if _ then _ else _) _ _
  split
  -- Without a target there is an error too, and the run goes on.
  · exact ⟨h.functions, h.parent, h.vars, h.targets⟩
  · exact h

end Steps

/-! ### The pass over a tree -/

section Balance

variable (lookup : Str → Option Ast)

/-- Bindings without scopes around them leave the scopes balanced. -/
theorem balanced_binds (vars : List Variable) : Balanced (binds vars) := .binds vars

mutual

/-- Each scope that a walk enters is left again. By induction on the tree. -/
theorem balanced_scopeEvents (root : Ast) : Balanced (scopeEvents lookup root) := by
  cases root with
  | ident n name => exact .use _
  | block n body => exact ((balanced_binds _).append (balanced_scopeEventsAll body)).inScope
  | «module» n name body autoimports =>
      exact (balanced_binds _).append (balanced_scopeEvents body)
  | forIn n var index expr body =>
      exact ((balanced_scopeEvents expr).append
        ((balanced_binds _).append (balanced_scopeEvents body))).inScope
  | fnDecl n var tyargs args attributes body => exact (balanced_scopeEventsBody args body).inScope
  | tyDecl n name d tyargs fields => exact (balanced_scopeEventsDefaults fields).inScope
  | varDecl n var expr => exact (balanced_scopeEvents expr).append (balanced_binds _)
  | «import» n name => exact balanced_binds _
  | literalTuple n fields => exact balanced_scopeEventsAll fields
  | literalArray n elements => exact balanced_scopeEventsAll elements
  | literalStruct n name fields => exact balanced_scopeEventsFields fields
  | member n expr field => exact balanced_scopeEvents expr
  | call n expr args => exact (balanced_scopeEvents expr).append (balanced_scopeEventsAll args)
  | unary n op expr => exact balanced_scopeEvents expr
  | binary n op left right => exact (balanced_scopeEvents left).append (balanced_scopeEvents right)
  | index n expr idx => exact (balanced_scopeEvents expr).append (balanced_scopeEvents idx)
  | assign n left right => exact (balanced_scopeEvents left).append (balanced_scopeEvents right)
  | ifThen n cond thenbody =>
      exact (balanced_scopeEvents cond).append (balanced_scopeEvents thenbody)
  | ifElse n cond thenbody elsebody =>
      exact (balanced_scopeEvents cond).append
        ((balanced_scopeEvents thenbody).append (balanced_scopeEvents elsebody))
  | «while» n expr body => exact (balanced_scopeEvents expr).append (balanced_scopeEvents body)
  | fn n id decl => exact balanced_scopeEvents decl
  | literalVoid | literalBool | literalInteger | literalFloat | literalString | llvm => exact .nil

/-- The same for a list of trees. -/
theorem balanced_scopeEventsAll (cs : List Ast) : Balanced (scopeEventsAll lookup cs) := by
  cases cs with
  | nil => exact .nil
  | cons c cs => exact (balanced_scopeEvents c).append (balanced_scopeEventsAll cs)

/-- The same for the fields of a literal. -/
theorem balanced_scopeEventsFields (cs : List (FieldRef × Ast)) :
    Balanced (scopeEventsFields lookup cs) := by
  cases cs with
  | nil => exact .nil
  | cons c cs => exact (balanced_scopeEvents c.2).append (balanced_scopeEventsFields cs)

/-- The same for a function with its arguments. -/
theorem balanced_scopeEventsBody (args : List Variable) (body : Option Ast) :
    Balanced (scopeEventsBody lookup args body) := by
  cases body with
  | none => exact .nil
  | some body => exact (balanced_binds args).append (balanced_scopeEvents body)

/-- The same for a tree that may be there. -/
theorem balanced_scopeEventsOption (c : Option Ast) : Balanced (scopeEventsOption lookup c) := by
  cases c with
  | none => exact .nil
  | some c => exact balanced_scopeEvents c

/-- The same for the defaults of a struct. -/
theorem balanced_scopeEventsDefaults (cs : List (FieldDecl × Option Ast)) :
    Balanced (scopeEventsDefaults lookup cs) := by
  cases cs with
  | nil => exact .nil
  | cons c cs => exact (balanced_scopeEventsOption c.2).append (balanced_scopeEventsDefaults cs)

end

end Balance

/-- A part of the pass ends, and resolves what it goes through. -/
def Passes (rs : ResolveNames) (run : Except Fault ResolveNames) (events : List ScopeEvent)
    (parents : List (NodeId × Option NodeId)) : Prop :=
  ∃ rs', run = .ok rs' ∧ Resolved rs rs' events parents

section Passes

variable {rs rs₁ : ResolveNames} {m : Except Fault ResolveNames}
  {es es₁ es₂ : List ScopeEvent} {ps ps₁ ps₂ : List (NodeId × Option NodeId)}

/-- What changes no scope can come before a pass. -/
theorem Passes.quiet (hq : SameScope rs rs₁) (h : Passes rs₁ m es ps) : Passes rs m es ps :=
  h.imp fun _ h => ⟨h.1, .quiet hq h.2⟩

/-- A pass that can not fail. -/
theorem Passes.ok (h : Resolved rs rs₁ es ps) : Passes rs (.ok rs₁) es ps := ⟨rs₁, rfl, h⟩

/-- One part after another, in the same function. -/
theorem Passes.bind {k : ResolveNames → Except Fault ResolveNames} {parent : Option NodeId}
    (hp : rs.functions.head? = parent) (h₁ : Passes rs m es₁ ps₁)
    (h₂ : ∀ rs₁ : ResolveNames, rs₁.functions.head? = parent → Passes rs₁ (k rs₁) es₂ ps₂) :
    Passes rs (m >>= k) (es₁ ++ es₂) (ps₁ ++ ps₂) := by
  obtain ⟨rs₁, rfl, hr₁⟩ := h₁
  obtain ⟨rs₂, hk, hr₂⟩ := h₂ rs₁ (by rw [hr₁.functions]; exact hp)
  exact ⟨rs₂, hk, hr₁.append hr₂⟩

end Passes

/-- The imports in a tree can be resolved, and it is no module. -/
def Ast.Resolves (lookup : Str → Option Ast) : Ast → Prop
  | .import _ name => Importable lookup name
  | .module _ _ _ _ => False
  | _ => True

/-- Every node of some trees can be resolved. -/
def Resolvable (lookup : Str → Option Ast) (nodes : List Ast) : Prop :=
  ∀ root ∈ nodes, root.Resolves lookup

section Node

variable {lookup : Str → Option Ast}

/-- What can be resolved has parts that can be. -/
theorem Resolvable.cons {root : Ast} {nodes : List Ast} (h : Resolvable lookup (root :: nodes)) :
    root.Resolves lookup ∧ Resolvable lookup nodes := List.forall_mem_cons.mp h

/-- The same for two lists of trees. -/
theorem Resolvable.append {nodes₁ nodes₂ : List Ast} (h : Resolvable lookup (nodes₁ ++ nodes₂)) :
    Resolvable lookup nodes₁ ∧ Resolvable lookup nodes₂ := List.forall_mem_append.mp h

/-- A function gets its parent and becomes the function around what comes next. -/
theorem enterFnDecl_resolved (rs : ResolveNames) (n : Node) (var : Variable)
    (tyargs : List Generic) (args : List Variable) :
    Resolved rs (rs.enterFnDecl n var tyargs args) [] [(n.id, rs.functions.head?)] := by
  let rs₁ : ResolveNames :=
    { rs with
      store :=
        { rs.store with
          parent := update rs.store.parent n.id rs.functions.head?
          moduleName := update rs.store.moduleName n.id rs.module } }
  have h₁ : Resolved rs rs₁ [] [(n.id, rs.functions.head?)] :=
    ⟨rfl, rfl, fun past hvars => hvars, fun past _ => rfl⟩
  -- Type parameters and types bind no variable.
  have h₂ : SameScope rs₁ (rs.enterFnDecl n var tyargs args) :=
    (pushGenerics_sameScope rs₁ tyargs).trans
      ((resolveNodeType_sameScope _ n.id).trans (resolveFnType_sameScope _ var args))
  exact h₁.append h₂.resolved

mutual

/-- **One tree.** The pass goes through its events, and gives its functions their
parents. -/
theorem resolveNamesNode_passes (rs : ResolveNames) (parent : Option NodeId) (root : Ast)
    (hp : rs.functions.head? = parent) (h : Resolvable lookup (visitAst root)) :
    Passes rs (resolveNamesNode lookup rs root) (scopeEvents lookup root)
      (parentsOf parent root) := by
  have hq (n : Node) : SameScope rs (rs.resolveNodeType n.id) := resolveNodeType_sameScope rs n.id
  have hp' (n : Node) : (rs.resolveNodeType n.id).functions.head? = parent := (hq n).head hp
  cases root with
  | ident n name =>
      exact .quiet ((hq n).trans (resolveIdentTyargs_sameScope _ n.id))
        (.ok (resolveIdent_resolved _ n name))
  | block n body =>
      -- The functions of a block are bound before its first statement.
      have hdecls := resolveDecls_resolved (rs.resolveNodeType n.id) body
      have hhead : (body.foldl resolveDecl (rs.resolveNodeType n.id)).functions.head? = parent := by
        rw [hdecls.functions]
        exact hp' n
      obtain ⟨rs₁, hrs₁, hr₁⟩ := resolveNamesAll_passes _ parent body hhead h.cons.2
      have hscope := (hdecls.append hr₁).inScope
        ((balanced_binds _).append (balanced_scopeEventsAll lookup body))
      refine .quiet (hq n) ⟨_, ?_, hscope⟩
      rw [resolveNamesNode, hrs₁]
      rfl
  | «module» n name body autoimports => exact h.cons.1.elim
  | forIn n var index expr body =>
      obtain ⟨hexpr, hbody⟩ := h.cons.2.append
      -- the types of the loop variables come first, and bind nothing
      let rs₀ := (rs.resolveNodeType n.id).resolveVarType var.id
      let rs₁ := match index with
        | some index => rs₀.resolveVarType index.id
        | none => rs₀
      have hq₀ : SameScope rs rs₀ := (hq n).trans (resolveVarType_sameScope _ var.id)
      have hq₁ : SameScope rs rs₁ := by
        cases index with
        | none => exact hq₀
        | some index => exact hq₀.trans (resolveVarType_sameScope _ index.id)
      obtain ⟨rs₂, hrs₂, hr₂⟩ := resolveNamesNode_passes rs₁ parent expr (hq₁.head hp) hexpr
      let rs₃ := match index with
        | some index => (rs₂.pushVariable var).pushVariable index
        | none => rs₂.pushVariable var
      have hr₃ : Resolved rs₂ rs₃ (binds (var :: index.toList)) [] := by
        cases index with
        | none => exact .binds rs₂ [var]
        | some index => exact .binds rs₂ [var, index]
      have hhead : rs₃.functions.head? = parent := by
        rw [hr₃.functions, hr₂.functions]
        exact hq₁.head hp
      obtain ⟨rs₄, hrs₄, hr₄⟩ := resolveNamesNode_passes rs₃ parent body hhead hbody
      have hscope := (hr₂.append (hr₃.append hr₄)).inScope
        ((balanced_scopeEvents lookup expr).append
          ((balanced_binds _).append (balanced_scopeEvents lookup body)))
      refine .quiet hq₁ ⟨_, ?_, hscope⟩
      cases index with
      | none =>
          rw [resolveNamesNode]
          show (resolveNamesNode lookup _ expr >>= _) = _
          rw [hrs₂]
          show (resolveNamesNode lookup _ body >>= _) = _
          rw [hrs₄]
          rfl
      | some index =>
          rw [resolveNamesNode]
          show (resolveNamesNode lookup _ expr >>= _) = _
          rw [hrs₂]
          show (resolveNamesNode lookup _ body >>= _) = _
          rw [hrs₄]
          rfl
  | fnDecl n var tyargs args attributes body =>
      have henter := enterFnDecl_resolved rs n var tyargs args
      rw [hp] at henter
      cases body with
      | none =>
          have hscope := henter.inScope .nil
          exact ⟨_, by rw [resolveNamesNode]; rfl, hscope⟩
      | some body =>
          have hargs := Resolved.binds (rs.enterFnDecl n var tyargs args) args
          let rs₁ := args.foldl pushVariable (rs.enterFnDecl n var tyargs args)
          let rs₂ : ResolveNames := { rs₁ with functions := n.id :: rs₁.functions }
          obtain ⟨rs₃, hrs₃, hr₃⟩ := resolveNamesNode_passes rs₂ (some n.id) body rfl h.cons.2
          -- the stack of functions is what it was before
          have hbody : Resolved rs₁ { rs₃ with functions := rs₁.functions }
              (scopeEvents lookup body) (parentsOf (some n.id) body) :=
            ⟨rfl, hr₃.parent, hr₃.vars, hr₃.targets⟩
          have hscope := (henter.append (hargs.append hbody)).inScope
            ((balanced_binds args).append (balanced_scopeEvents lookup body))
          refine ⟨_, ?_, hscope⟩
          rw [resolveNamesNode]
          show (resolveNamesNode lookup rs₂ body >>= _) = _
          rw [hrs₃]
          rfl
  | tyDecl n name d tyargs fields =>
      have hfields := (pushGenerics_sameScope rs tyargs).trans
        ((resolveNodeType_sameScope _ n.id).trans (resolveFieldTypes_sameScope _ d))
      obtain ⟨rs₁, hrs₁, hr₁⟩ :=
        resolveNamesDefaults_passes _ parent fields (hfields.head hp) h.cons.2
      have hscope := (Resolved.quiet hfields hr₁).inScope
        (balanced_scopeEventsDefaults lookup fields)
      refine ⟨_, ?_, hscope⟩
      rw [resolveNamesNode]
      show (resolveNamesDefaults lookup _ fields >>= _) = _
      rw [hrs₁]
      rfl
  | varDecl n var expr =>
      have hvar := (hq n).trans (resolveVarType_sameScope _ var.id)
      have hexpr := resolveNamesNode_passes _ parent expr (hvar.head hp) h.cons.2
      have hbind := hexpr.bind (hvar.head hp) fun rs₁ _ => .ok (.bind rs₁ var)
      rw [List.append_nil] at hbind
      exact .quiet hvar hbind
  | «import» n name => exact .quiet (hq n) (resolveImport_resolved h.cons.1 _)
  | literalTuple n fields =>
      exact .quiet (hq n) (resolveNamesAll_passes _ _ fields (hp' n) h.cons.2)
  | literalArray n elements =>
      exact .quiet (hq n) (resolveNamesAll_passes _ _ elements (hp' n) h.cons.2)
  | literalStruct n name fields =>
      exact .quiet (hq n) (resolveNamesFields_passes _ _ fields (hp' n) h.cons.2)
  | member n expr field => exact .quiet (hq n) (resolveNamesNode_passes _ _ expr (hp' n) h.cons.2)
  | call n expr args =>
      obtain ⟨hexpr, hargs⟩ := h.cons.2.append
      exact .quiet (hq n) (.bind (hp' n) (resolveNamesNode_passes _ _ expr (hp' n) hexpr)
        fun rs₁ hp₁ => resolveNamesAll_passes rs₁ _ args hp₁ hargs)
  | unary n op expr => exact .quiet (hq n) (resolveNamesNode_passes _ _ expr (hp' n) h.cons.2)
  | binary n op left right =>
      obtain ⟨hleft, hright⟩ := h.cons.2.append
      exact .quiet (hq n) (.bind (hp' n) (resolveNamesNode_passes _ _ left (hp' n) hleft)
        fun rs₁ hp₁ => resolveNamesNode_passes rs₁ _ right hp₁ hright)
  | index n expr idx =>
      obtain ⟨hexpr, hidx⟩ := h.cons.2.append
      exact .quiet (hq n) (.bind (hp' n) (resolveNamesNode_passes _ _ expr (hp' n) hexpr)
        fun rs₁ hp₁ => resolveNamesNode_passes rs₁ _ idx hp₁ hidx)
  | assign n left right =>
      obtain ⟨hleft, hright⟩ := h.cons.2.append
      exact .quiet (hq n) (.bind (hp' n) (resolveNamesNode_passes _ _ left (hp' n) hleft)
        fun rs₁ hp₁ => resolveNamesNode_passes rs₁ _ right hp₁ hright)
  | ifThen n cond thenbody =>
      obtain ⟨hcond, hthen⟩ := h.cons.2.append
      exact .quiet (hq n) (.bind (hp' n) (resolveNamesNode_passes _ _ cond (hp' n) hcond)
        fun rs₁ hp₁ => resolveNamesNode_passes rs₁ _ thenbody hp₁ hthen)
  | ifElse n cond thenbody elsebody =>
      obtain ⟨hboth, helse⟩ := h.cons.2.append
      obtain ⟨hcond, hthen⟩ := Resolvable.append hboth
      exact .quiet (hq n) (.bind (hp' n) (resolveNamesNode_passes _ _ cond (hp' n) hcond)
        fun rs₁ hp₁ => .bind hp₁ (resolveNamesNode_passes rs₁ _ thenbody hp₁ hthen)
          fun rs₂ hp₂ => resolveNamesNode_passes rs₂ _ elsebody hp₂ helse)
  | «while» n expr body =>
      obtain ⟨hexpr, hbody⟩ := h.cons.2.append
      exact .quiet (hq n) (.bind (hp' n) (resolveNamesNode_passes _ _ expr (hp' n) hexpr)
        fun rs₁ hp₁ => resolveNamesNode_passes rs₁ _ body hp₁ hbody)
  | fn n id decl => exact .quiet (hq n) (resolveNamesNode_passes _ _ decl (hp' n) h.cons.2)
  | literalVoid n | literalBool n | literalInteger n | literalFloat n | literalString n | llvm n =>
      exact .ok (hq n).resolved

/-- The pass over a list of trees has the events of the reference, and the parents are
those of the reference. One of the cases of the induction on trees. -/
theorem resolveNamesAll_passes (rs : ResolveNames) (parent : Option NodeId) (cs : List Ast)
    (hp : rs.functions.head? = parent) (h : Resolvable lookup (visitAstAll cs)) :
    Passes rs (resolveNamesAll lookup rs cs) (scopeEventsAll lookup cs)
      (parentsOfAll parent cs) := by
  cases cs with
  | nil => exact .ok (SameScope.refl rs).resolved
  | cons c cs =>
      exact .bind hp (resolveNamesNode_passes rs parent c hp h.append.1) fun rs₁ hp₁ =>
        resolveNamesAll_passes rs₁ parent cs hp₁ h.append.2

/-- The same for the fields of a literal. -/
theorem resolveNamesFields_passes (rs : ResolveNames) (parent : Option NodeId)
    (cs : List (FieldRef × Ast)) (hp : rs.functions.head? = parent)
    (h : Resolvable lookup (visitAstFields cs)) :
    Passes rs (resolveNamesFields lookup rs cs) (scopeEventsFields lookup cs)
      (parentsOfFields parent cs) := by
  cases cs with
  | nil => exact .ok (SameScope.refl rs).resolved
  | cons c cs =>
      exact .bind hp (resolveNamesNode_passes rs parent c.2 hp h.append.1) fun rs₁ hp₁ =>
        resolveNamesFields_passes rs₁ parent cs hp₁ h.append.2

/-- The same for a tree that may be there. -/
theorem resolveNamesOption_passes (rs : ResolveNames) (parent : Option NodeId) (c : Option Ast)
    (hp : rs.functions.head? = parent) (h : Resolvable lookup (visitAstOption c)) :
    Passes rs (resolveNamesOption lookup rs c) (scopeEventsOption lookup c)
      (parentsOfOption parent c) := by
  cases c with
  | none => exact .ok (SameScope.refl rs).resolved
  | some c => exact resolveNamesNode_passes rs parent c hp h

/-- The same for the defaults of a struct. -/
theorem resolveNamesDefaults_passes (rs : ResolveNames) (parent : Option NodeId)
    (cs : List (FieldDecl × Option Ast)) (hp : rs.functions.head? = parent)
    (h : Resolvable lookup (visitAstDefaults cs)) :
    Passes rs (resolveNamesDefaults lookup rs cs) (scopeEventsDefaults lookup cs)
      (parentsOfDefaults parent cs) := by
  cases cs with
  | nil => exact .ok (SameScope.refl rs).resolved
  | cons c cs =>
      exact .bind hp (resolveNamesOption_passes rs parent c.2 hp h.append.1) fun rs₁ hp₁ =>
        resolveNamesDefaults_passes rs₁ parent cs hp₁ h.append.2

end

end Node

/-! ### Lexical scoping -/

/-- At some visit of the identifier the reference gives it these targets. -/
def MeansAt (events : List ScopeEvent) (id : NodeId) (targets : List Variable) : Prop :=
  ∃ pre ident post, events = pre ++ .use (id, ident) :: post ∧
    targets = targetsOf (visible pre) ident

/-- The node of an identifier that is used. -/
def useId : ScopeEvent → Option NodeId
  | .use u => some u.1
  | _ => none

/-- A use has the id of its identifier. -/
theorem filterMap_useId_use (u : NodeId × Str) (es : List ScopeEvent) :
    (.use u :: es : List ScopeEvent).filterMap useId = u.1 :: es.filterMap useId := rfl

/-- An identifier that a walk does not come to keeps its targets. -/
theorem runUses_of_unused {n : NodeId} {past es : List ScopeEvent}
    {targets : NodeId → List Variable} (h : n ∉ es.filterMap useId) :
    runUses past es targets n = targets n := by
  induction es generalizing past targets with
  | nil => rfl
  | cons e es ih =>
      cases e with
      | use u =>
          rw [filterMap_useId_use, List.mem_cons, not_or] at h
          rw [runUses, ih h.2, update, if_neg h.1]
      | _ => exact ih h

/-- An identifier has the targets that it got at its last visit. -/
theorem runUses_use {pre post : List ScopeEvent} {n : NodeId} {name : Str}
    {targets : NodeId → List Variable} (h : n ∉ post.filterMap useId) :
    runUses [] (pre ++ .use (n, name) :: post) targets n = targetsOf (visible pre) name := by
  rw [runUses_append, List.append_nil, runUses, runUses_of_unused h, update, if_pos rfl]
  rfl

/-- What is visited has a last visit. -/
theorem exists_last_use {n : NodeId} {es : List ScopeEvent} (h : n ∈ es.filterMap useId) :
    ∃ pre name post, es = pre ++ .use (n, name) :: post ∧ n ∉ post.filterMap useId := by
  induction es with
  | nil => exact absurd h List.not_mem_nil
  | cons e es ih =>
      by_cases hrest : n ∈ es.filterMap useId
      · obtain ⟨pre, name, post, rfl, hpost⟩ := ih hrest
        exact ⟨e :: pre, name, post, rfl, hpost⟩
      · -- no later event is a visit, so this one is
        cases e with
        | use u =>
            rw [filterMap_useId_use] at h
            obtain rfl := (List.mem_cons.mp h).resolve_right hrest
            exact ⟨[], u.2, es, rfl, hrest⟩
        | _ => exact absurd h hrest

/-- The targets of an identifier after a walk are right at every visit exactly if its
visits agree. -/
theorem runUses_right_iff {es : List ScopeEvent} {targets : NodeId → List Variable} {n : NodeId} :
    (∀ t, MeansAt es n t → runUses [] es targets n = t) ↔
      ∀ t t', MeansAt es n t → MeansAt es n t' → t = t' := by
  refine ⟨fun h t t' ht ht' => (h t ht).symm.trans (h t' ht'), fun h t ht => ?_⟩
  have hused : n ∈ es.filterMap useId := by
    obtain ⟨pre, name, post, rfl, -⟩ := ht
    rw [List.filterMap_append, filterMap_useId_use]
    exact List.mem_append_right _ List.mem_cons_self
  obtain ⟨pre, name, post, hes, hpost⟩ := exists_last_use hused
  have hlast : runUses [] es targets n = targetsOf (visible pre) name := by
    rw [hes]
    exact runUses_use hpost
  rw [hlast]
  exact h _ t ⟨pre, name, post, hes, rfl⟩ ht

/-- A function that is not on the list keeps its parent. -/
theorem setParents_of_not_mem {parents : List (NodeId × Option NodeId)} {n : NodeId}
    (h : n ∉ parents.map Prod.fst) (f : NodeId → Option NodeId) : setParents parents f n = f n := by
  induction parents generalizing f with
  | nil => rfl
  | cons p parents ih =>
      rw [List.map_cons, List.mem_cons, not_or] at h
      exact (ih h.2 _).trans (if_neg h.1)

/-- A function has a parent that it got. -/
theorem exists_setParents_eq {parents : List (NodeId × Option NodeId)} {n : NodeId}
    (h : n ∈ parents.map Prod.fst) (f : NodeId → Option NodeId) :
    ∃ parent, (n, parent) ∈ parents ∧ setParents parents f n = parent := by
  induction parents generalizing f with
  | nil => exact absurd h List.not_mem_nil
  | cons p parents ih =>
      by_cases hrest : n ∈ parents.map Prod.fst
      · obtain ⟨parent, hmem, hset⟩ := ih hrest (update f p.1 p.2)
        exact ⟨parent, List.mem_cons_of_mem _ hmem, hset⟩
      · rw [List.map_cons] at h
        obtain rfl := (List.mem_cons.mp h).resolve_right hrest
        exact ⟨p.2, List.mem_cons_self, (setParents_of_not_mem hrest _).trans (if_pos rfl)⟩

/-- **Lexical scoping.** On a module whose imports can be resolved, an identifier has at
every visit the targets that the bindings in force there say, exactly if its visits agree
in them; and a function has the function around it as its parent, exactly if its visits
agree in that. -/
theorem resolveNames_scoping_iff {lookup : Str → Option Ast} {store : Store} {n : Node}
    {name : Str} {body : Ast} {autoimports : List Str}
    (hauto : ∀ i ∈ autoimports, Importable lookup i)
    (hbody : Resolvable lookup (visitAst body)) :
    ∃ store' output,
      resolveNames lookup store (.module n name body autoimports) = .ok (store', output) ∧
        (∀ id, (∀ targets,
            MeansAt (scopeEvents lookup (.module n name body autoimports)) id targets →
              store'.targets id = targets) ↔
          ∀ targets targets',
            MeansAt (scopeEvents lookup (.module n name body autoimports)) id targets →
            MeansAt (scopeEvents lookup (.module n name body autoimports)) id targets' →
              targets = targets') ∧
        ∀ fn, (∀ parent, (fn, parent) ∈ parentsOf none (.module n name body autoimports) →
            store'.parent fn = parent) ↔
          ∀ parent parent', (fn, parent) ∈ parentsOf none (.module n name body autoimports) →
            (fn, parent') ∈ parentsOf none (.module n name body autoimports) →
              parent = parent' := by
  let root : Ast := .module n name body autoimports
  have hq := resolveNodeType_sameScope { store } n.id
  let rs₀ : ResolveNames :=
    { ResolveNames.resolveNodeType { store } n.id with module := some name }
  have hr₀ : Resolved { store } rs₀ [] [] :=
    ⟨hq.functions, hq.parent, fun past hvars => hq.vars.trans hvars, fun past _ => hq.targets⟩
  obtain ⟨rs₁, hrs₁, hr₁⟩ := resolveImports_resolved hauto rs₀
  -- Outside of all functions there is no parent.
  have hhead : rs₁.functions.head? = none := by
    rw [hr₁.functions, hr₀.functions]
    rfl
  obtain ⟨rs₂, hrs₂, hr₂⟩ := resolveNamesNode_passes rs₁ none body hhead hbody
  have hr : Resolved { store } rs₂ (scopeEvents lookup root) (parentsOf none root) :=
    hr₀.append (hr₁.append hr₂)
  refine ⟨rs₂.store, rs₂.output, ?_, fun id => ?_, fun fn => ?_⟩
  · rw [resolveNames, resolveNamesNode, hq.module]
    show ((rs₀.resolveImports lookup autoimports >>= _) >>= _) = _
    rw [hrs₁]
    show (resolveNamesNode lookup rs₁ body >>= _) = _
    rw [hrs₂]
    rfl
  · rw [hr.targets [] rfl]
    exact runUses_right_iff
  · rw [hr.parent]
    refine ⟨fun h p p' hp hp' => (h p hp).symm.trans (h p' hp'), fun h parent hparent => ?_⟩
    obtain ⟨last, hlast, hset⟩ :=
      exists_setParents_eq (List.mem_map_of_mem (f := Prod.fst) hparent) (store.parent)
    exact hset.trans (h last parent hlast hparent)

/-- ```
var x = 1
x
``` -/
def readVariable : Ast :=
  .module { id := 1 } "m".toList (.block { id := 2 } [
    .varDecl { id := 3 } { id := 1, kind := .variable, name := "x".toList }
      (.literalInteger { id := 4 } 1),
    .ident { id := 5 } "x".toList]) []

/-- A module with a variable and an identifier that reads it. It is visited once. -/
theorem resolveNames_scoping_iff_readVariable :
    ∃ store' output, resolveNames (fun _ => none) {} readVariable = .ok (store', output) ∧
      (∀ id, (∀ targets, MeansAt (scopeEvents (fun _ => none) readVariable) id targets →
            store'.targets id = targets) ↔
        ∀ targets targets', MeansAt (scopeEvents (fun _ => none) readVariable) id targets →
          MeansAt (scopeEvents (fun _ => none) readVariable) id targets' → targets = targets') ∧
      ∀ fn, (∀ parent, (fn, parent) ∈ parentsOf none readVariable → store'.parent fn = parent) ↔
        ∀ parent parent', (fn, parent) ∈ parentsOf none readVariable →
          (fn, parent') ∈ parentsOf none readVariable → parent = parent' := by
  refine resolveNames_scoping_iff (fun i hi => absurd hi List.not_mem_nil) (fun root hroot => ?_)
  simp only [visitAst, visitAstAll, List.cons_append, List.nil_append, List.mem_cons,
    List.not_mem_nil, or_false] at hroot
  rcases hroot with rfl | rfl | rfl | rfl <;> trivial

/-- Two fields with one default, which declares the `z` that it has read. -/
def sharedDefaultFile : SourceFile where
  path := "s.aike".toList
  name := "s".toList
  contents :=
    "fn g(a: int, b: int): int\n  a\nvar z = 1\nstruct S\n  x, y: int = g(z, var z = 2)\n".toList

/-- Whether some visit of an identifier gives it other targets than it has. -/
def hasWrongVisit (events : List ScopeEvent) (targets : NodeId → List Variable) : Bool :=
  (List.range events.length).any fun i =>
    match events[i]? with
    | some (.use u) => decide (targets u.1 ≠ targetsOf (visible (events.take i)) u.2)
    | _ => false

/-- A wrong visit that is found by evaluation is one. -/
theorem exists_of_hasWrongVisit {events : List ScopeEvent} {targets : NodeId → List Variable}
    (h : hasWrongVisit events targets = true) :
    ∃ id right, MeansAt events id right ∧ targets id ≠ right := by
  obtain ⟨i, hi, hwrong⟩ := List.any_eq_true.mp h
  rw [List.mem_range] at hi
  rw [List.getElem?_eq_getElem hi] at hwrong
  have hsplit : events = events.take i ++ events[i] :: events.drop (i + 1) := by
    rw [List.getElem_cons_drop, List.take_append_drop]
  cases hevent : events[i] with
  | use u =>
      rw [hevent] at hwrong hsplit
      exact ⟨u.1, _, ⟨_, u.2, _, hsplit, rfl⟩, of_decide_eq_true hwrong⟩
  | _ =>
      rw [hevent] at hwrong
      cases hwrong

/-- The module is resolved without an error. The first visit of `z` comes before its
declaration in the default, and there it means the variable of the module. -/
theorem resolveNames_sharedDefault :
    ∃ tree store', parseModule sharedDefaultFile = .ok tree ∧
      resolveNames (fun _ => none) (tree.allocate {}).2.store (tree.allocate {}).1 =
        .ok (store', []) ∧
      ∃ id targets, MeansAt (scopeEvents (fun _ => none) (tree.allocate {}).1) id targets ∧
        store'.targets id ≠ targets := by
  have hrun : (parseModule sharedDefaultFile).toOption.any (fun tree =>
      (resolveNames (fun _ => none) (tree.allocate {}).2.store
        (tree.allocate {}).1).toOption.any fun result => result.2.isEmpty &&
          hasWrongVisit (scopeEvents (fun _ => none) (tree.allocate {}).1) result.1.targets) =
      true := by
    decide +kernel
  cases hparse : parseModule sharedDefaultFile with
  | error e =>
      rw [hparse] at hrun
      cases hrun
  | ok tree =>
      rw [hparse] at hrun
      change (resolveNames _ _ _).toOption.any _ = true at hrun
      cases hresolve : resolveNames (fun _ => none) (tree.allocate {}).2.store
          (tree.allocate {}).1 with
      | error e =>
          rw [hresolve] at hrun
          cases hrun
      | ok result =>
          rw [hresolve] at hrun
          obtain ⟨hempty, hwrong⟩ := (Bool.and_eq_true _ _).mp hrun
          refine ⟨tree, result.1, rfl, ?_, exists_of_hasWrongVisit hwrong⟩
          rw [hresolve, ← List.isEmpty_iff.mp hempty]

end Aike
