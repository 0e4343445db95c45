import Aike.Proofs.Resolve

/-!
# `Aike.Proofs.ResolveTypes`: what the names of types stand for

`typeEvents` is the reference: the structs and the type parameters that a walk through
a module binds, and the places with types that it comes to. `innermost` is what a name
stands for there.

The pass has one map for the structs and one for the type parameters, and looks into
the first one first. So a name in a type gets its innermost declaration exactly if this
is a struct, or no struct of the name is in force. A default that several fields share is
visited for each of them, and its types keep what they got at the first visit that finds
a declaration (`resolveNames_types_iff`).
-/

set_option autoImplicit false

namespace Aike

open Scope ResolveNames

/-! ### The reference -/

/-- What a type name can stand for. -/
inductive TypeDecl
  | struct (name : Str) (d : DefId)
  | generic (name : Str) (g : GenericId)
  deriving DecidableEq

namespace TypeDecl

def name : TypeDecl → Str
  | .struct name _ => name
  | .generic name _ => name

def target : TypeDecl → TyTarget
  | .struct _ d => .struct d
  | .generic _ g => .generic g

end TypeDecl

/-- Where types are written. -/
inductive TypePlace
  | node (n : NodeId)
  | var (v : VarId)
  | tyargs (n : NodeId)
  | fields (d : DefId)
  deriving DecidableEq

/-- How types are used: names are looked up in them, or the arguments of a function get
the types that are in its own. -/
inductive TypeUse
  | place (p : TypePlace)
  | arguments (fn : VarId) (args : List VarId)

abbrev TypeEvent := Event TypeUse TypeDecl

/-- The structs that a list of trees declares itself. -/
def directStructs (body : List Ast) : List TypeDecl :=
  body.filterMap fun
    | .tyDecl _ name d _ _ => some (.struct name d)
    | _ => none

/-- The structs that an import binds. -/
def importedStructs (lookup : Str → Option Ast) (name : Str) : List TypeDecl :=
  match lookup name with
  | some (.module _ _ (.block _ body) _) => directStructs body
  | _ => []

/-- Bind types, one after the other. -/
def bindTypes (decls : List TypeDecl) : List TypeEvent := decls.map .bind

/-- Bind type parameters. -/
def bindGenerics (tyargs : List Generic) : List TypeEvent :=
  bindTypes (tyargs.map fun g => .generic g.name g.id)

def useType (p : TypePlace) : TypeEvent := .use (.place p)

section Reference

variable (lookup : Str → Option Ast)

mutual

/-- The events of a walk through a tree. -/
def typeEvents : Ast → List TypeEvent
  | .ident n _ => [useType (.node n.id), useType (.tyargs n.id)]
  | .block n body =>
      useType (.node n.id) :: inScope (bindTypes (directStructs body) ++ typeEventsAll body)
  | .module n _ body autoimports =>
      useType (.node n.id) ::
        (bindTypes (autoimports.flatMap (importedStructs lookup)) ++ typeEvents body)
  | .forIn n var index expr body =>
      useType (.node n.id) :: useType (.var var.id) ::
        (index.toList.map (fun index => useType (.var index.id)) ++
          inScope (typeEvents expr ++ typeEvents body))
  | .fnDecl n var tyargs args _ body =>
      inScope (bindGenerics tyargs ++
        (useType (.node n.id) :: useType (.var var.id) ::
          .use (.arguments var.id (args.map (·.id))) :: typeEventsOption body))
  | .tyDecl n _ d tyargs fields =>
      inScope (bindGenerics tyargs ++
        (useType (.node n.id) :: useType (.fields d) :: typeEventsDefaults fields))
  | .varDecl n var expr => useType (.node n.id) :: useType (.var var.id) :: typeEvents expr
  | .import n name => useType (.node n.id) :: bindTypes (importedStructs lookup name)
  | .literalTuple n fields => useType (.node n.id) :: typeEventsAll fields
  | .literalArray n elements => useType (.node n.id) :: typeEventsAll elements
  | .literalStruct n _ fields => useType (.node n.id) :: typeEventsFields fields
  | .member n expr _ => useType (.node n.id) :: typeEvents expr
  | .call n expr args => useType (.node n.id) :: (typeEvents expr ++ typeEventsAll args)
  | .unary n _ expr => useType (.node n.id) :: typeEvents expr
  | .binary n _ left right => useType (.node n.id) :: (typeEvents left ++ typeEvents right)
  | .index n expr idx => useType (.node n.id) :: (typeEvents expr ++ typeEvents idx)
  | .assign n left right => useType (.node n.id) :: (typeEvents left ++ typeEvents right)
  | .ifThen n cond thenbody => useType (.node n.id) :: (typeEvents cond ++ typeEvents thenbody)
  | .ifElse n cond thenbody elsebody =>
      useType (.node n.id) :: (typeEvents cond ++ (typeEvents thenbody ++ typeEvents elsebody))
  | .while n expr body => useType (.node n.id) :: (typeEvents expr ++ typeEvents body)
  | .fn n _ decl => useType (.node n.id) :: typeEvents decl
  | .literalVoid n | .literalBool n _ | .literalInteger n _ | .literalFloat n _
  | .literalString n _ | .llvm n _ => [useType (.node n.id)]

/-- `typeEvents`, on a list. -/
def typeEventsAll : List Ast → List TypeEvent
  | [] => []
  | c :: cs => typeEvents c ++ typeEventsAll cs

/-- `typeEvents`, on the initializers of a struct literal. -/
def typeEventsFields : List (FieldRef × Ast) → List TypeEvent
  | [] => []
  | c :: cs => typeEvents c.2 ++ typeEventsFields cs

/-- `typeEvents`, on a body or a default initializer. -/
def typeEventsOption : Option Ast → List TypeEvent
  | none => []
  | some c => typeEvents c

/-- `typeEvents`, on the default initializers of a struct. -/
def typeEventsDefaults : List (FieldDecl × Option Ast) → List TypeEvent
  | [] => []
  | c :: cs => typeEventsOption c.2 ++ typeEventsDefaults cs

end

end Reference

/-- The declarations of a name, innermost first. -/
def declared (inForce : List TypeDecl) (name : Str) : List TypeDecl :=
  inForce.filter fun decl => decl.name = name

/-- What a name stands for where some declarations are in force, latest first. -/
def innermost (inForce : List TypeDecl) (name : Str) : TyTarget :=
  match declared inForce name with
  | [] => .unresolved
  | decl :: _ => decl.target

/-- The innermost declaration of a name is a struct, or no struct of that name is in
force. -/
def StructsInside (inForce : List TypeDecl) (name : Str) : Prop :=
  (∃ d, innermost inForce name = .struct d) ∨ ∀ d, TypeDecl.struct name d ∉ inForce

mutual

/-- The names in a type and what they stand for, in the order of a visit. -/
def Ty.names : Ty → List (InstanceNode × TyTarget)
  | .tuple fields => Ty.namesAll fields
  | .array element => element.names
  | .pointer element => element.names
  | .function args ret _ => Ty.namesAll args ++ ret.names
  | .inst node tyargs target => (node, target) :: Ty.namesAll tyargs
  | .unknown _ | .void | .bool | .integer | .float | .string => []

/-- `Ty.names`, on a list. -/
def Ty.namesAll : List Ty → List (InstanceNode × TyTarget)
  | [] => []
  | t :: ts => t.names ++ Ty.namesAll ts

end

/-- The types at a place. -/
def Store.typesAt (store : Store) : TypePlace → List Ty
  | .node n => (store.nodeType n).toList
  | .var v => [store.varType v]
  | .tyargs n => store.identTyargs n
  | .fields d => store.fieldTypes d

/-! ### Names in types -/

mutual

/-- A type in which the names without a meaning get one. -/
def Ty.bindNames (meaning : Str → TyTarget) : Ty → Ty
  | .tuple fields => .tuple (Ty.bindNamesAll meaning fields)
  | .array element => .array (element.bindNames meaning)
  | .pointer element => .pointer (element.bindNames meaning)
  | .function args ret varargs =>
      .function (Ty.bindNamesAll meaning args) (ret.bindNames meaning) varargs
  | .inst node tyargs target =>
      .inst node (Ty.bindNamesAll meaning tyargs)
        (if target = .unresolved then meaning node.name else target)
  | .unknown u => .unknown u
  | .void => .void
  | .bool => .bool
  | .integer => .integer
  | .float => .float
  | .string => .string

/-- `Ty.bindNames`, on a list. -/
def Ty.bindNamesAll (meaning : Str → TyTarget) : List Ty → List Ty
  | [] => []
  | t :: ts => t.bindNames meaning :: Ty.bindNamesAll meaning ts

end

/-- A name gets its meaning. -/
def bindName (meaning : Str → TyTarget) (occurrence : InstanceNode × TyTarget) :
    InstanceNode × TyTarget :=
  (occurrence.1,
    if occurrence.2 = .unresolved then meaning occurrence.1.name else occurrence.2)

mutual

/-- Giving meanings to the names of a type changes them name by name. By induction on the
type. -/
theorem names_bindNames (meaning : Str → TyTarget) (t : Ty) :
    (t.bindNames meaning).names = t.names.map (bindName meaning) := by
  cases t with
  | tuple fields => exact namesAll_bindNamesAll meaning fields
  | array element => exact names_bindNames meaning element
  | pointer element => exact names_bindNames meaning element
  | function args ret varargs =>
      rw [Ty.bindNames, Ty.names, Ty.names, List.map_append, namesAll_bindNamesAll,
        names_bindNames]
  | inst node tyargs target =>
      rw [Ty.bindNames, Ty.names, Ty.names, List.map_cons, namesAll_bindNamesAll]
      rfl
  | _ => rfl

/-- The same for a list of types. -/
theorem namesAll_bindNamesAll (meaning : Str → TyTarget) (ts : List Ty) :
    Ty.namesAll (Ty.bindNamesAll meaning ts) = (Ty.namesAll ts).map (bindName meaning) := by
  cases ts with
  | nil => rfl
  | cons t ts =>
      rw [Ty.bindNamesAll, Ty.namesAll, Ty.namesAll, List.map_append, names_bindNames,
        namesAll_bindNamesAll]

end

/-! ### Two maps -/

/-- The structs of some declarations. -/
def structBindings (decls : List TypeDecl) : List (Str × DefId) :=
  decls.filterMap fun
    | .struct name d => some (name, d)
    | .generic _ _ => none

/-- The type parameters of some declarations. -/
def genericBindings (decls : List TypeDecl) : List (Str × GenericId) :=
  decls.filterMap fun
    | .struct _ _ => none
    | .generic name g => some (name, g)

/-- What a name stands for if the structs are looked at first. -/
def structFirst (inForce : List TypeDecl) (name : Str) : TyTarget :=
  match structBindings (declared inForce name) with
  | b :: _ => .struct b.2
  | [] =>
      match genericBindings (declared inForce name) with
      | b :: _ => .generic b.2
      | [] => .unresolved

/-- Bindings under the names of the declarations that they are from. -/
theorem filterMap_declared {α : Type} {f : TypeDecl → Option (Str × α)}
    (hf : ∀ decl b, f decl = some b → b.1 = decl.name) (decls : List TypeDecl) (name : Str) :
    (declared decls name).filterMap f = (decls.filterMap f).filter fun b => b.1 = name := by
  rw [declared, List.filterMap_filter, List.filter_filterMap]
  refine congrArg (List.filterMap · decls) (funext fun decl => ?_)
  cases hdecl : f decl with
  | none => exact ite_self _
  | some b =>
      rw [← hf decl b hdecl]
      rfl

/-- The structs among the declarations of a name are those of the name. -/
theorem structBindings_declared (decls : List TypeDecl) (name : Str) :
    structBindings (declared decls name) = (structBindings decls).filter fun b => b.1 = name := by
  refine filterMap_declared (fun decl b h => ?_) decls name
  cases decl with
  | struct => cases h; rfl
  | generic => cases h

/-- The type parameters among the declarations of a name likewise. -/
theorem genericBindings_declared (decls : List TypeDecl) (name : Str) :
    genericBindings (declared decls name) =
      (genericBindings decls).filter fun b => b.1 = name := by
  refine filterMap_declared (fun decl b h => ?_) decls name
  cases decl with
  | struct => cases h
  | generic => cases h; rfl

/-- A struct is bound exactly if its declaration is in the list. -/
theorem mem_structBindings {decls : List TypeDecl} {b : Str × DefId} :
    b ∈ structBindings decls ↔ TypeDecl.struct b.1 b.2 ∈ decls := by
  rw [structBindings, List.mem_filterMap]
  constructor
  · rintro ⟨decl, hdecl, hb⟩
    cases decl with
    | struct name d =>
        cases hb
        exact hdecl
    | generic name g => cases hb
  · exact fun h => ⟨_, h, rfl⟩

/-- Looking at the structs first finds the innermost declaration of a name exactly if
this is a struct, or no struct of the name is in force. -/
theorem structFirst_eq_iff {inForce : List TypeDecl} {name : Str} :
    structFirst inForce name = innermost inForce name ↔ StructsInside inForce name := by
  have hmem (d : DefId) : TypeDecl.struct name d ∈ inForce ↔
      (name, d) ∈ structBindings (declared inForce name) := by
    rw [mem_structBindings, declared, List.mem_filter]
    exact (and_iff_left (decide_eq_true rfl)).symm
  have hname : ∀ b ∈ structBindings (declared inForce name), b.1 = name := by
    intro b hb
    rw [structBindings_declared, List.mem_filter] at hb
    exact of_decide_eq_true hb.2
  unfold StructsInside
  simp only [hmem]
  unfold structFirst innermost
  cases hdeclared : declared inForce name with
  | nil => exact iff_of_true rfl (.inr fun d => List.not_mem_nil)
  | cons decl decls =>
      rw [hdeclared] at hname
      cases decl with
      | struct name' d => exact iff_of_true rfl (.inl ⟨d, rfl⟩)
      -- The first declaration of the name is a type parameter: a struct further out is taken
      -- before it, so all depends on there being none.
      | generic name' g =>
          have hstructs : structBindings (.generic name' g :: decls) = structBindings decls := rfl
          rw [hstructs] at hname ⊢
          cases hrest : structBindings decls with
          | nil => exact iff_of_true rfl (.inr fun d => List.not_mem_nil)
          | cons b rest =>
              rw [hrest] at hname
              refine iff_of_false (fun h => nomatch h) ?_
              rintro (⟨d, hd⟩ | hnone)
              · cases hd
              · refine hnone b.2 ?_
                rw [← hname b List.mem_cons_self]
                exact List.mem_cons_self

/-! ### Steps of the pass -/

/-- The types at the places after a use. -/
def useTypes (inForce : List TypeDecl) (u : TypeUse) (types : TypePlace → List Ty) :
    TypePlace → List Ty :=
  match u with
  | .place p => Function.update types p (Ty.bindNamesAll (structFirst inForce) (types p))
  | .arguments fn args =>
      match types (.var fn) with
      | [.function params _ _] =>
          (args.zip params).foldl (fun types q => Function.update types (.var q.1) [q.2]) types
      | _ => types

/-- The two maps have the declarations in force. -/
structure TypesInForce (rs : ResolveNames) (past : List TypeEvent) : Prop where
  typedefs : rs.typedefs = .ofBindings (structBindings (inForce 0 past))
  generics : rs.generics = .ofBindings (genericBindings (inForce 0 past))

/-- What a name stands for in the pass. -/
def ResolveNames.meaning (rs : ResolveNames) (name : Str) : TyTarget :=
  match rs.typedefs.find name with
  | some d => .struct d
  | none =>
      match rs.generics.find name with
      | some g => .generic g
      | none => .unresolved

/-- What the maps of the pass answer for a name is read off the declarations in force: the
structs first. -/
theorem TypesInForce.meaning_eq {rs : ResolveNames} {past : List TypeEvent}
    (h : TypesInForce rs past) : rs.meaning = structFirst (inForce 0 past) := by
  funext name
  unfold ResolveNames.meaning structFirst
  rw [h.typedefs, h.generics, NameMap.find, NameMap.find, NameMap.data_ofBindings,
    NameMap.data_ofBindings, ← structBindings_declared, ← genericBindings_declared]
  cases structBindings (declared (inForce 0 past) name) with
  | cons b bs => rfl
  | nil => cases genericBindings (declared (inForce 0 past) name) <;> rfl

/-- What a part of the pass does to the types: it goes through some events. -/
structure TypesResolved (rs rs' : ResolveNames) (events : List TypeEvent) : Prop where
  inForce : ∀ past, TypesInForce rs past → TypesInForce rs' (events.reverse ++ past)
  types : ∀ past, TypesInForce rs past →
    rs'.store.typesAt = run useTypes past events rs.store.typesAt

section Steps

variable {rs rs₁ rs₂ : ResolveNames} {es es₁ es₂ : List TypeEvent}

namespace TypesResolved

/-- A step that leaves declarations and types alone. -/
theorem same (htypedefs : rs₁.typedefs = rs.typedefs) (hgenerics : rs₁.generics = rs.generics)
    (htypes : rs₁.store.typesAt = rs.store.typesAt) : TypesResolved rs rs₁ [] where
  inForce _ h := ⟨htypedefs.trans h.typedefs, hgenerics.trans h.generics⟩
  types _ _ := htypes

/-- Nothing happens to the types in no events. -/
theorem refl (rs : ResolveNames) : TypesResolved rs rs [] := same rfl rfl rfl

/-- Two parts of a walk one after the other. -/
theorem append (h₁ : TypesResolved rs rs₁ es₁) (h₂ : TypesResolved rs₁ rs₂ es₂) :
    TypesResolved rs rs₂ (es₁ ++ es₂) where
  inForce past h := by
    rw [List.reverse_append, List.append_assoc]
    exact h₂.inForce _ (h₁.inForce past h)
  types past h := by
    rw [h₂.types _ (h₁.inForce past h), h₁.types past h, run_append]

/-- A scope is cut back to where it started. -/
theorem inScope (h : TypesResolved rs rs₁ es) (hb : Balanced es) :
    TypesResolved rs (rs₁.pop rs.top) (Scope.inScope es) where
  inForce past hpast := by
    -- Entering a scope binds nothing, so the maps start inside with what is in force outside.
    have hinner := h.inForce (.enter :: past) ⟨hpast.typedefs, hpast.generics⟩
    have hvisible : Scope.inForce 0 (es.reverse ++ .enter :: past) =
        visible es ++ Scope.inForce 0 past := hb.1 _
    constructor
    · show rs₁.typedefs.pop rs.typedefs.top = _
      rw [hb.inScope_eq, hinner.typedefs, hpast.typedefs, NameMap.top_ofBindings, hvisible,
        structBindings, List.filterMap_append]
      exact NameMap.pop_ofBindings _ _
    · show rs₁.generics.pop rs.generics.top = _
      rw [hb.inScope_eq, hinner.generics, hpast.generics, NameMap.top_ofBindings, hvisible,
        genericBindings, List.filterMap_append]
      exact NameMap.pop_ofBindings _ _
  types past hpast := by
    show rs₁.store.typesAt = _
    rw [h.types (.enter :: past) ⟨hpast.typedefs, hpast.generics⟩, Scope.inScope]
    show _ = run useTypes (.enter :: past) (es ++ [.leave]) _
    rw [run_append]
    rfl

/-- Binding a struct is one event. -/
theorem bindStruct (rs : ResolveNames) (name : Str) (d : DefId) :
    TypesResolved rs { rs with typedefs := rs.typedefs.push name d } [.bind (.struct name d)] where
  inForce past h := by
    refine ⟨?_, h.generics⟩
    show rs.typedefs.push name d = _
    rw [h.typedefs]
    rfl
  types past _ := rfl

/-- Binding type parameters is an event for each of them. -/
theorem bindGenerics (rs : ResolveNames) (tyargs : List Generic) :
    TypesResolved rs (tyargs.foldl pushGeneric rs) (Aike.bindGenerics tyargs) := by
  induction tyargs generalizing rs with
  | nil => exact refl rs
  | cons g tyargs ih =>
      have hbind : TypesResolved rs (rs.pushGeneric g) [.bind (.generic g.name g.id)] := by
        refine ⟨fun past h => ⟨h.typedefs, ?_⟩, fun past _ => rfl⟩
        show rs.generics.push g.name g.id = _
        rw [h.generics]
        rfl
      exact hbind.append (ih _)

/-- Binding variables is no event for types. -/
theorem pushVariables (rs : ResolveNames) (vars : List Variable) :
    TypesResolved rs (vars.foldl pushVariable rs) [] := by
  induction vars generalizing rs with
  | nil => exact refl rs
  | cons v vars ih =>
      have h : TypesResolved rs (rs.pushVariable v) [] := same rfl rfl rfl
      exact h.append (ih _)

/-- Before the expressions of a block, the structs that it declares are bound. -/
theorem decls (rs : ResolveNames) (body : List Ast) :
    TypesResolved rs (body.foldl resolveDecl rs) (bindTypes (directStructs body)) := by
  induction body generalizing rs with
  | nil => exact refl rs
  | cons c body ih =>
      cases c with
      | tyDecl n name d tyargs fields => exact (bindStruct rs name d).append (ih _)
      | fnDecl n var tyargs args attributes fnBody =>
          have h : TypesResolved rs (rs.pushVariable var) [] := same rfl rfl rfl
          exact h.append (ih _)
      | _ => exact ih _

/-- A step that resolves the types at a place. -/
theorem place {p : TypePlace} (htypedefs : rs₁.typedefs = rs.typedefs)
    (hgenerics : rs₁.generics = rs.generics)
    (htypes : rs₁.store.typesAt =
      Function.update rs.store.typesAt p (Ty.bindNamesAll rs.meaning (rs.store.typesAt p))) :
    TypesResolved rs rs₁ [useType p] where
  inForce past h := ⟨htypedefs.trans h.typedefs, hgenerics.trans h.generics⟩
  types past h := by
    rw [htypes, h.meaning_eq]
    rfl

end TypesResolved

/-! ### Types -/

/-- One name of a type gets the meaning that is in force, if it has none yet. -/
theorem resolveTypeInstance_eq (rs : ResolveNames) (node : InstanceNode) (target : TyTarget) :
    ∃ output, rs.resolveTypeInstance node target =
      (if target = .unresolved then rs.meaning node.name else target, { rs with output }) := by
  cases target with
  -- A name that no map has stays without a meaning and is reported.
  | unresolved =>
      rw [if_pos rfl, resolveTypeInstance, ResolveNames.meaning]
      cases rs.typedefs.find node.name with
      | some d => exact ⟨rs.output, rfl⟩
      | none =>
          cases rs.generics.find node.name with
          | some g => exact ⟨rs.output, rfl⟩
          | none => exact ⟨_, rfl⟩
  | struct d => exact ⟨rs.output, rfl⟩
  | generic g => exact ⟨rs.output, rfl⟩

mutual

/-- The names in a type get their meanings, and errors are reported. -/
theorem resolveType_eq (rs : ResolveNames) (t : Ty) :
    ∃ output, rs.resolveType t = (t.bindNames rs.meaning, { rs with output }) := by
  cases t with
  | tuple fields =>
      obtain ⟨output, h⟩ := resolveTypes_eq rs fields
      exact ⟨output, by rw [resolveType, h]; rfl⟩
  | array element =>
      obtain ⟨output, h⟩ := resolveType_eq rs element
      exact ⟨output, by rw [resolveType, h]; rfl⟩
  | pointer element =>
      obtain ⟨output, h⟩ := resolveType_eq rs element
      exact ⟨output, by rw [resolveType, h]; rfl⟩
  | function args ret varargs =>
      obtain ⟨output, h⟩ := resolveTypes_eq rs args
      obtain ⟨output', h'⟩ := resolveType_eq { rs with output } ret
      refine ⟨output', ?_⟩
      rw [resolveType, h]
      dsimp only
      rw [h']
      rfl
  | inst node tyargs target =>
      obtain ⟨output, h⟩ := resolveTypeInstance_eq rs node target
      obtain ⟨output', h'⟩ := resolveTypes_eq { rs with output } tyargs
      refine ⟨output', ?_⟩
      rw [resolveType, h]
      dsimp only
      rw [h']
      rfl
  | _ => exact ⟨rs.output, rfl⟩

/-- Each name of each type gets the meaning that is in force, if it has none yet. -/
theorem resolveTypes_eq (rs : ResolveNames) (ts : List Ty) :
    ∃ output, rs.resolveTypes ts = (Ty.bindNamesAll rs.meaning ts, { rs with output }) := by
  cases ts with
  | nil => exact ⟨rs.output, rfl⟩
  | cons t ts =>
      obtain ⟨output, h⟩ := resolveType_eq rs t
      obtain ⟨output', h'⟩ := resolveTypes_eq { rs with output } ts
      refine ⟨output', ?_⟩
      rw [resolveTypes, h]
      dsimp only
      rw [h']
      rfl

end

/-! ### Places -/

/-- What is written is read back. -/
theorem update_self {α : Type} (f : Nat → α) (i : Nat) (a : α) : update f i a i = a := if_pos rfl

/-- What is written elsewhere changes nothing here. -/
theorem update_of_ne {α : Type} {f : Nat → α} {i j : Nat} {a : α} (h : j ≠ i) :
    update f i a j = f j := if_neg h

/-- Writing the type of a node changes the types of that place only. -/
theorem typesAt_node (store : Store) (n : NodeId) (t : Ty) :
    { store with nodeType := update store.nodeType n (some t) }.typesAt =
      Function.update store.typesAt (.node n) [t] := by
  refine Function.eq_update_iff.mpr ⟨?_, fun q hq => ?_⟩
  · exact congrArg Option.toList (update_self _ _ _)
  · cases q with
    | node m => exact congrArg Option.toList (update_of_ne fun h => hq (congrArg _ h))
    | _ => rfl

/-- Writing the type of a variable likewise. -/
theorem typesAt_var (store : Store) (v : VarId) (t : Ty) :
    { store with varType := update store.varType v t }.typesAt =
      Function.update store.typesAt (.var v) [t] := by
  refine Function.eq_update_iff.mpr ⟨?_, fun q hq => ?_⟩
  · exact congrArg ([·]) (update_self _ _ _)
  · cases q with
    | var w => exact congrArg ([·]) (update_of_ne fun h => hq (congrArg _ h))
    | _ => rfl

/-- Writing the type arguments of an identifier likewise. -/
theorem typesAt_tyargs (store : Store) (n : NodeId) (ts : List Ty) :
    { store with identTyargs := update store.identTyargs n ts }.typesAt =
      Function.update store.typesAt (.tyargs n) ts := by
  refine Function.eq_update_iff.mpr ⟨update_self _ _ _, fun q hq => ?_⟩
  cases q with
  | tyargs m => exact update_of_ne fun h => hq (congrArg _ h)
  | _ => rfl

/-- Writing the types of the fields of a struct likewise. -/
theorem typesAt_fields (store : Store) (d : DefId) (ts : List Ty) :
    { store with fieldTypes := update store.fieldTypes d ts }.typesAt =
      Function.update store.typesAt (.fields d) ts := by
  refine Function.eq_update_iff.mpr ⟨update_self _ _ _, fun q hq => ?_⟩
  cases q with
  | fields e => exact update_of_ne fun h => hq (congrArg _ h)
  | _ => rfl

/-- Several variables get their types. -/
theorem typesAt_vars (store : Store) (pairs : List (Variable × Ty)) :
    Store.typesAt { store with
        varType := pairs.foldl (fun f p => update f p.1.id p.2) store.varType } =
      pairs.foldl (fun (types : TypePlace → List Ty) p => Function.update types (.var p.1.id) [p.2])
        store.typesAt := by
  induction pairs generalizing store with
  | nil => rfl
  | cons p pairs ih =>
      rw [List.foldl_cons, List.foldl_cons, ← typesAt_var]
      exact ih { store with varType := update store.varType p.1.id p.2 }

/-- Resolving the type of a node is a use of that place. -/
theorem resolveNodeType_types (rs : ResolveNames) (n : NodeId) :
    TypesResolved rs (rs.resolveNodeType n) [useType (.node n)] := by
  unfold resolveNodeType
  cases h : rs.store.nodeType n with
  | none =>
      refine .place rfl rfl ?_
      have hat : rs.store.typesAt (.node n) = [] := by rw [Store.typesAt, h]; rfl
      rw [hat]
      exact (Function.update_eq_self_iff.mpr hat.symm).symm
  | some t =>
      obtain ⟨output, ht⟩ := resolveType_eq rs t
      dsimp only
      rw [ht]
      refine .place rfl rfl ?_
      have hat : rs.store.typesAt (.node n) = [t] := by rw [Store.typesAt, h]; rfl
      rw [hat]
      exact typesAt_node _ _ _

/-- Resolving the type of a variable is a use of that place. -/
theorem resolveVarType_types (rs : ResolveNames) (v : VarId) :
    TypesResolved rs (rs.resolveVarType v) [useType (.var v)] := by
  obtain ⟨output, ht⟩ := resolveType_eq rs (rs.store.varType v)
  unfold resolveVarType
  rw [ht]
  exact .place rfl rfl (typesAt_var _ _ _)

/-- Resolving the type arguments of an identifier is a use of that place. -/
theorem resolveIdentTyargs_types (rs : ResolveNames) (n : NodeId) :
    TypesResolved rs (rs.resolveIdentTyargs n) [useType (.tyargs n)] := by
  obtain ⟨output, ht⟩ := resolveTypes_eq rs (rs.store.identTyargs n)
  unfold resolveIdentTyargs
  rw [ht]
  exact .place rfl rfl (typesAt_tyargs _ _ _)

/-- Resolving the types of the fields of a struct is a use of that place. -/
theorem resolveFieldTypes_types (rs : ResolveNames) (d : DefId) :
    TypesResolved rs (rs.resolveFieldTypes d) [useType (.fields d)] := by
  obtain ⟨output, ht⟩ := resolveTypes_eq rs (rs.store.fieldTypes d)
  unfold resolveFieldTypes
  rw [ht]
  exact .place rfl rfl (typesAt_fields _ _ _)

/-- The type of a function is resolved, and its arguments get their types from it. -/
theorem resolveFnType_types (rs : ResolveNames) (var : Variable) (args : List Variable) :
    TypesResolved rs (rs.resolveFnType var args)
      [useType (.var var.id), .use (.arguments var.id (args.map (·.id)))] := by
  refine (resolveVarType_types rs var.id).append ?_
  unfold resolveFnType
  generalize rs.resolveVarType var.id = rs₁
  have hat : rs₁.store.typesAt (.var var.id) = [rs₁.store.varType var.id] := rfl
  dsimp only
  split
  -- The arguments get the types that are in the type of the function.
  case h_1 params ret varargs htype =>
    refine ⟨fun past h => ⟨h.typedefs, h.generics⟩, fun past _ => (typesAt_vars _ _).trans ?_⟩
    rw [htype] at hat
    show _ = useTypes (inForce 0 past) (.arguments var.id (args.map (·.id))) rs₁.store.typesAt
    rw [useTypes, hat]
    dsimp only
    rw [List.zip_map_left, List.foldl_map]
    rfl
  -- A type that is no function has no parameters, and no argument changes.
  case h_2 hother =>
    refine ⟨fun past h => ⟨h.typedefs, h.generics⟩, fun past _ => ?_⟩
    show _ = useTypes (inForce 0 past) (.arguments var.id (args.map (·.id))) rs₁.store.typesAt
    rw [useTypes, hat]
    split
    case h_1 params ret varargs heq => exact absurd (List.head_eq_of_cons_eq heq) (hother _ _ _)
    case h_2 => rfl

/-- An import binds the structs that the imported module declares itself. -/
theorem importedDecls_types {lookup : Str → Option Ast} {name : Str}
    (h : Importable lookup name) (rs : ResolveNames) :
    ∃ rs₁, rs.resolveImport lookup name = .ok rs₁ ∧
      TypesResolved rs rs₁ (bindTypes (importedStructs lookup name)) := by
  obtain ⟨n, moduleName, nb, body, autoimports, hlookup⟩ := h
  refine ⟨body.foldl resolveDecl rs, ?_, ?_⟩
  · rw [resolveImport, hlookup]
  · rw [importedStructs, hlookup]
    exact .decls rs body

/-- Some imports bind those of each module, one after the other. -/
theorem resolveImports_types {lookup : Str → Option Ast} {names : List Str}
    (h : ∀ name ∈ names, Importable lookup name) (rs : ResolveNames) :
    ∃ rs₁, rs.resolveImports lookup names = .ok rs₁ ∧
      TypesResolved rs rs₁ (bindTypes (names.flatMap (importedStructs lookup))) := by
  induction names generalizing rs with
  | nil => exact ⟨rs, rfl, .refl rs⟩
  | cons name names ih =>
      rw [List.forall_mem_cons] at h
      obtain ⟨rs₁, hrs₁, h₁⟩ := importedDecls_types h.1 rs
      obtain ⟨rs₂, hrs₂, h₂⟩ := ih h.2 rs₁
      refine ⟨rs₂, ?_, ?_⟩
      · rw [resolveImports, hrs₁]
        exact hrs₂
      · rw [List.flatMap_cons, bindTypes, List.map_append]
        exact h₁.append h₂

end Steps

/-! ### The pass over a tree -/

section Balance

variable (lookup : Str → Option Ast)

/-- Bindings without scopes around them leave the scopes balanced. -/
theorem balanced_bindTypes (decls : List TypeDecl) : Balanced (bindTypes decls) := .binds decls

mutual

/-- Each scope that a walk enters is left again. By induction on the tree. -/
theorem balanced_typeEvents (root : Ast) : Balanced (typeEvents lookup root) := by
  cases root with
  | ident n name => exact .use_cons _ (.use_cons _ .nil)
  | block n body =>
      exact .use_cons _ ((balanced_bindTypes _).append (balanced_typeEventsAll body)).inScope
  | «module» n name body autoimports =>
      exact .use_cons _ ((balanced_bindTypes _).append (balanced_typeEvents body))
  | forIn n var index expr body =>
      have hindex : Balanced (index.toList.map fun index => useType (.var index.id)) := by
        cases index with
        | none => exact .nil
        | some index => exact .use_cons _ .nil
      exact .use_cons _ (.use_cons _ (hindex.append
        ((balanced_typeEvents expr).append (balanced_typeEvents body)).inScope))
  | fnDecl n var tyargs args attributes body =>
      exact ((balanced_bindTypes _).append
        (.use_cons _ (.use_cons _ (.use_cons _ (balanced_typeEventsOption body))))).inScope
  | tyDecl n name d tyargs fields =>
      exact ((balanced_bindTypes _).append
        (.use_cons _ (.use_cons _ (balanced_typeEventsDefaults fields)))).inScope
  | varDecl n var expr => exact .use_cons _ (.use_cons _ (balanced_typeEvents expr))
  | «import» n name => exact .use_cons _ (balanced_bindTypes _)
  | literalTuple n fields => exact .use_cons _ (balanced_typeEventsAll fields)
  | literalArray n elements => exact .use_cons _ (balanced_typeEventsAll elements)
  | literalStruct n name fields => exact .use_cons _ (balanced_typeEventsFields fields)
  | member n expr field => exact .use_cons _ (balanced_typeEvents expr)
  | call n expr args =>
      exact .use_cons _ ((balanced_typeEvents expr).append (balanced_typeEventsAll args))
  | unary n op expr => exact .use_cons _ (balanced_typeEvents expr)
  | binary n op left right =>
      exact .use_cons _ ((balanced_typeEvents left).append (balanced_typeEvents right))
  | index n expr idx =>
      exact .use_cons _ ((balanced_typeEvents expr).append (balanced_typeEvents idx))
  | assign n left right =>
      exact .use_cons _ ((balanced_typeEvents left).append (balanced_typeEvents right))
  | ifThen n cond thenbody =>
      exact .use_cons _ ((balanced_typeEvents cond).append (balanced_typeEvents thenbody))
  | ifElse n cond thenbody elsebody =>
      exact .use_cons _ ((balanced_typeEvents cond).append
        ((balanced_typeEvents thenbody).append (balanced_typeEvents elsebody)))
  | «while» n expr body =>
      exact .use_cons _ ((balanced_typeEvents expr).append (balanced_typeEvents body))
  | fn n id decl => exact .use_cons _ (balanced_typeEvents decl)
  | literalVoid | literalBool | literalInteger | literalFloat | literalString | llvm =>
      exact .use_cons _ .nil

/-- The same for a list of trees. -/
theorem balanced_typeEventsAll (cs : List Ast) : Balanced (typeEventsAll lookup cs) := by
  cases cs with
  | nil => exact .nil
  | cons c cs => exact (balanced_typeEvents c).append (balanced_typeEventsAll cs)

/-- The same for the fields of a literal. -/
theorem balanced_typeEventsFields (cs : List (FieldRef × Ast)) :
    Balanced (typeEventsFields lookup cs) := by
  cases cs with
  | nil => exact .nil
  | cons c cs => exact (balanced_typeEvents c.2).append (balanced_typeEventsFields cs)

/-- The same for a tree that may be there. -/
theorem balanced_typeEventsOption (c : Option Ast) : Balanced (typeEventsOption lookup c) := by
  cases c with
  | none => exact .nil
  | some c => exact balanced_typeEvents c

/-- The same for the defaults of a struct. -/
theorem balanced_typeEventsDefaults (cs : List (FieldDecl × Option Ast)) :
    Balanced (typeEventsDefaults lookup cs) := by
  cases cs with
  | nil => exact .nil
  | cons c cs => exact (balanced_typeEventsOption c.2).append (balanced_typeEventsDefaults cs)

end

end Balance

/-- A part of the pass ends, and resolves the types that it comes to. -/
def PassesTypes (rs : ResolveNames) (run : Except Fault ResolveNames) (events : List TypeEvent) :
    Prop :=
  ∃ rs', run = .ok rs' ∧ TypesResolved rs rs' events

section PassesTypes

variable {rs rs₁ : ResolveNames} {m : Except Fault ResolveNames} {es es₁ es₂ : List TypeEvent}

/-- What can not fail may come before a pass. -/
theorem PassesTypes.after (hq : TypesResolved rs rs₁ es₁) (h : PassesTypes rs₁ m es₂) :
    PassesTypes rs m (es₁ ++ es₂) := h.imp fun _ h => ⟨h.1, hq.append h.2⟩

/-- A pass that can not fail. -/
theorem PassesTypes.ok (h : TypesResolved rs rs₁ es) : PassesTypes rs (.ok rs₁) es := ⟨rs₁, rfl, h⟩

/-- Two passes one after the other. -/
theorem PassesTypes.bind {k : ResolveNames → Except Fault ResolveNames}
    (h₁ : PassesTypes rs m es₁) (h₂ : ∀ rs₁, PassesTypes rs₁ (k rs₁) es₂) :
    PassesTypes rs (m >>= k) (es₁ ++ es₂) := by
  obtain ⟨rs₁, rfl, hr₁⟩ := h₁
  obtain ⟨rs₂, hk, hr₂⟩ := h₂ rs₁
  exact ⟨rs₂, hk, hr₁.append hr₂⟩

end PassesTypes

section Node

variable {lookup : Str → Option Ast}

mutual

/-- **One tree.** The pass goes through its events. -/
theorem resolveNamesNode_types (rs : ResolveNames) (root : Ast)
    (h : Resolvable lookup (visitAst root)) :
    PassesTypes rs (resolveNamesNode lookup rs root) (typeEvents lookup root) := by
  have hnode (n : Node) := resolveNodeType_types rs n.id
  cases root with
  | ident n name =>
      have htyargs := (hnode n).append (resolveIdentTyargs_types _ n.id)
      -- The names of variables are not looked at here.
      have hident : ∀ rs₁ : ResolveNames, TypesResolved rs₁ (rs₁.resolveIdent n name) [] := by
        intro rs₁
        unfold resolveIdent
        dsimp only
        split
        · exact .same rfl rfl rfl
        · exact .same rfl rfl rfl
      exact .ok (htyargs.append (hident _))
  | block n body =>
      -- The declarations of a block are in force before its first statement.
      have hdecls := TypesResolved.decls (rs.resolveNodeType n.id) body
      obtain ⟨rs₁, hrs₁, hr₁⟩ := resolveNamesAll_types
        (body.foldl resolveDecl (rs.resolveNodeType n.id)) body h.cons.2
      have hscope := (hdecls.append hr₁).inScope
        ((balanced_bindTypes _).append (balanced_typeEventsAll lookup body))
      refine .after (hnode n) ⟨_, ?_, hscope⟩
      rw [resolveNamesNode, hrs₁]
      rfl
  -- A module inside a module: the pass asserts that there is none.
  | «module» n name body autoimports => exact h.cons.1.elim
  | forIn n var index expr body =>
      obtain ⟨hexpr, hbody⟩ := h.cons.2.append
      let rs₀ := (rs.resolveNodeType n.id).resolveVarType var.id
      let rs₁ := match index with
        | some index => rs₀.resolveVarType index.id
        | none => rs₀
      have hr₀ := (hnode n).append (resolveVarType_types _ var.id)
      -- The type of the index is resolved before the range, its name is bound after it.
      have hr₁ : TypesResolved rs₀ rs₁ (index.toList.map fun index => useType (.var index.id)) := by
        cases index with
        | none => exact .refl rs₀
        | some index => exact resolveVarType_types rs₀ index.id
      obtain ⟨rs₂, hrs₂, hr₂⟩ := resolveNamesNode_types rs₁ expr hexpr
      let rs₃ := match index with
        | some index => (rs₂.pushVariable var).pushVariable index
        | none => rs₂.pushVariable var
      have hr₃ : TypesResolved rs₂ rs₃ [] := by
        cases index with
        | none => exact .same rfl rfl rfl
        | some index => exact .same rfl rfl rfl
      obtain ⟨rs₄, hrs₄, hr₄⟩ := resolveNamesNode_types rs₃ body hbody
      have hscope := (hr₂.append (hr₃.append hr₄)).inScope
        ((balanced_typeEvents lookup expr).append (balanced_typeEvents lookup body))
      refine .after hr₀ (.after hr₁ ⟨_, ?_, hscope⟩)
      cases index with
      | none =>
          rw [resolveNamesNode]
          show (resolveNamesNode lookup _ expr >>= _) = _
          rw [hrs₂]
          show (resolveNamesNode lookup _ body >>= _) = _
          rw [hrs₄]
          rfl
      | some index =>
          rw [resolveNamesNode]
          show (resolveNamesNode lookup _ expr >>= _) = _
          rw [hrs₂]
          show (resolveNamesNode lookup _ body >>= _) = _
          rw [hrs₄]
          rfl
  | fnDecl n var tyargs args attributes body =>
      let rs₀ : ResolveNames :=
        { rs with
          store :=
            { rs.store with
              parent := update rs.store.parent n.id rs.functions.head?
              moduleName := update rs.store.moduleName n.id rs.module } }
      have hr₀ : TypesResolved rs rs₀ [] := .same rfl rfl rfl
      -- The type parameters are bound before the type of the function is resolved.
      have hgenerics := hr₀.append (TypesResolved.bindGenerics rs₀ tyargs)
      have huses := (resolveNodeType_types (tyargs.foldl pushGeneric rs₀) n.id).append
        (resolveFnType_types _ var args)
      cases body with
      | none =>
          have hscope := (hgenerics.append huses).inScope ((balanced_bindTypes _).append
            (.use_cons _ (.use_cons _ (.use_cons _ .nil))))
          exact ⟨_, by rw [resolveNamesNode]; rfl, hscope⟩
      | some body =>
          let rs₁ := args.foldl pushVariable (rs.enterFnDecl n var tyargs args)
          have hr₁ : TypesResolved (rs.enterFnDecl n var tyargs args) rs₁ [] :=
              .pushVariables _ args
          obtain ⟨rs₃, hrs₃, hr₃⟩ := resolveNamesNode_types
            { rs₁ with functions := n.id :: rs₁.functions } body h.cons.2
          -- The function is on top of the stack of functions during its body only.
          have hbody : TypesResolved rs₁ { rs₃ with functions := rs₁.functions }
              (typeEvents lookup body) :=
            ⟨fun past hpast =>
              ⟨(hr₃.inForce past ⟨hpast.typedefs, hpast.generics⟩).typedefs,
                (hr₃.inForce past ⟨hpast.typedefs, hpast.generics⟩).generics⟩,
              fun past hpast => hr₃.types past ⟨hpast.typedefs, hpast.generics⟩⟩
          have hscope := (hgenerics.append (huses.append (hr₁.append hbody))).inScope
            ((balanced_bindTypes _).append
              (.use_cons _ (.use_cons _ (.use_cons _ (balanced_typeEvents lookup body)))))
          refine ⟨_, ?_, hscope⟩
          rw [resolveNamesNode]
          show (resolveNamesNode lookup _ body >>= _) = _
          rw [hrs₃]
          rfl
  | tyDecl n name d tyargs fields =>
      have hgenerics := TypesResolved.bindGenerics rs tyargs
      have huses := (resolveNodeType_types (tyargs.foldl pushGeneric rs) n.id).append
        (resolveFieldTypes_types _ d)
      obtain ⟨rs₁, hrs₁, hr₁⟩ := resolveNamesDefaults_types
        (((tyargs.foldl pushGeneric rs).resolveNodeType n.id).resolveFieldTypes d) fields h.cons.2
      have hscope := (hgenerics.append (huses.append hr₁)).inScope ((balanced_bindTypes _).append
        (.use_cons _ (.use_cons _ (balanced_typeEventsDefaults lookup fields))))
      refine ⟨_, ?_, hscope⟩
      rw [resolveNamesNode]
      show (resolveNamesDefaults lookup _ fields >>= _) = _
      rw [hrs₁]
      rfl
  | varDecl n var expr =>
      have hvar := (hnode n).append (resolveVarType_types _ var.id)
      have hbind : ∀ rs₁ : ResolveNames, PassesTypes rs₁ (.ok (rs₁.pushVariable var)) [] :=
        fun rs₁ => .ok (.same rfl rfl rfl)
      have hexpr := (resolveNamesNode_types ((rs.resolveNodeType n.id).resolveVarType var.id) expr
        h.cons.2).bind hbind
      rw [List.append_nil] at hexpr
      exact .after hvar hexpr
  | «import» n name => exact .after (hnode n) (importedDecls_types h.cons.1 _)
  | literalTuple n fields => exact .after (hnode n) (resolveNamesAll_types _ fields h.cons.2)
  | literalArray n elements => exact .after (hnode n) (resolveNamesAll_types _ elements h.cons.2)
  | literalStruct n name fields =>
      exact .after (hnode n) (resolveNamesFields_types _ fields h.cons.2)
  | member n expr field => exact .after (hnode n) (resolveNamesNode_types _ expr h.cons.2)
  | call n expr args =>
      obtain ⟨hexpr, hargs⟩ := h.cons.2.append
      exact .after (hnode n) ((resolveNamesNode_types _ expr hexpr).bind fun rs₁ =>
        resolveNamesAll_types rs₁ args hargs)
  | unary n op expr => exact .after (hnode n) (resolveNamesNode_types _ expr h.cons.2)
  | binary n op left right =>
      obtain ⟨hleft, hright⟩ := h.cons.2.append
      exact .after (hnode n) ((resolveNamesNode_types _ left hleft).bind fun rs₁ =>
        resolveNamesNode_types rs₁ right hright)
  | index n expr idx =>
      obtain ⟨hexpr, hidx⟩ := h.cons.2.append
      exact .after (hnode n) ((resolveNamesNode_types _ expr hexpr).bind fun rs₁ =>
        resolveNamesNode_types rs₁ idx hidx)
  | assign n left right =>
      obtain ⟨hleft, hright⟩ := h.cons.2.append
      exact .after (hnode n) ((resolveNamesNode_types _ left hleft).bind fun rs₁ =>
        resolveNamesNode_types rs₁ right hright)
  | ifThen n cond thenbody =>
      obtain ⟨hcond, hthen⟩ := h.cons.2.append
      exact .after (hnode n) ((resolveNamesNode_types _ cond hcond).bind fun rs₁ =>
        resolveNamesNode_types rs₁ thenbody hthen)
  | ifElse n cond thenbody elsebody =>
      obtain ⟨hboth, helse⟩ := h.cons.2.append
      obtain ⟨hcond, hthen⟩ := Resolvable.append hboth
      exact .after (hnode n) ((resolveNamesNode_types _ cond hcond).bind fun rs₁ =>
        (resolveNamesNode_types rs₁ thenbody hthen).bind fun rs₂ =>
          resolveNamesNode_types rs₂ elsebody helse)
  | «while» n expr body =>
      obtain ⟨hexpr, hbody⟩ := h.cons.2.append
      exact .after (hnode n) ((resolveNamesNode_types _ expr hexpr).bind fun rs₁ =>
        resolveNamesNode_types rs₁ body hbody)
  | fn n id decl => exact .after (hnode n) (resolveNamesNode_types _ decl h.cons.2)
  | literalVoid n | literalBool n | literalInteger n | literalFloat n | literalString n | llvm n =>
      exact .ok (hnode n)

/-- The pass over a list of trees has the events of the reference. One of the cases of the
induction on trees. -/
theorem resolveNamesAll_types (rs : ResolveNames) (cs : List Ast)
    (h : Resolvable lookup (visitAstAll cs)) :
    PassesTypes rs (resolveNamesAll lookup rs cs) (typeEventsAll lookup cs) := by
  cases cs with
  | nil => exact .ok (.refl rs)
  | cons c cs =>
      exact (resolveNamesNode_types rs c h.append.1).bind fun rs₁ =>
        resolveNamesAll_types rs₁ cs h.append.2

/-- The same for the fields of a literal. -/
theorem resolveNamesFields_types (rs : ResolveNames) (cs : List (FieldRef × Ast))
    (h : Resolvable lookup (visitAstFields cs)) :
    PassesTypes rs (resolveNamesFields lookup rs cs) (typeEventsFields lookup cs) := by
  cases cs with
  | nil => exact .ok (.refl rs)
  | cons c cs =>
      exact (resolveNamesNode_types rs c.2 h.append.1).bind fun rs₁ =>
        resolveNamesFields_types rs₁ cs h.append.2

/-- The same for a tree that may be there. -/
theorem resolveNamesOption_types (rs : ResolveNames) (c : Option Ast)
    (h : Resolvable lookup (visitAstOption c)) :
    PassesTypes rs (resolveNamesOption lookup rs c) (typeEventsOption lookup c) := by
  cases c with
  | none => exact .ok (.refl rs)
  | some c => exact resolveNamesNode_types rs c h

/-- The same for the defaults of a struct. -/
theorem resolveNamesDefaults_types (rs : ResolveNames) (cs : List (FieldDecl × Option Ast))
    (h : Resolvable lookup (visitAstDefaults cs)) :
    PassesTypes rs (resolveNamesDefaults lookup rs cs) (typeEventsDefaults lookup cs) := by
  cases cs with
  | nil => exact .ok (.refl rs)
  | cons c cs =>
      exact (resolveNamesOption_types rs c.2 h.append.1).bind fun rs₁ =>
        resolveNamesDefaults_types rs₁ cs h.append.2

end

end Node

/-! ### Innermost declarations -/

/-- The declarations in force at each visit of a place, where some events come after
`past`. -/
def visits (p : TypePlace) : List TypeEvent → List TypeEvent → List (List TypeDecl)
  | _, [] => []
  | past, .use (.place q) :: es =>
      if q = p then inForce 0 past :: visits p (useType q :: past) es
      else visits p (useType q :: past) es
  | past, e :: es => visits p (e :: past) es

/-- A variable that has a declaration is not an argument of a function. The types of
arguments are in the type of their function. -/
def OwnArguments (events : List TypeEvent) : Prop :=
  ∀ v fn args, useType (.var v) ∈ events → .use (.arguments fn args) ∈ events → v ∉ args

/-- Giving a function's types to its arguments leaves all other places. -/
theorem useTypes_arguments {inForce : List TypeDecl} {fn : VarId} {args : List VarId}
    {types : TypePlace → List Ty} {p : TypePlace} (h : p ∉ args.map .var) :
    useTypes inForce (.arguments fn args) types p = types p := by
  unfold useTypes
  dsimp only
  generalize types (.var fn) = fnTypes
  split
  -- Induction on the arguments: none of them is the place.
  case h_1 params ret varargs =>
    have hkeys : ∀ q ∈ args.zip params, p ≠ .var q.1 := fun q hq heq =>
      h (heq ▸ List.mem_map_of_mem (List.of_mem_zip hq).1)
    generalize args.zip params = pairs at hkeys
    induction pairs generalizing types with
    | nil => rfl
    | cons q pairs ih =>
        rw [List.forall_mem_cons] at hkeys
        rw [List.foldl_cons, ih hkeys.2, Function.update_of_ne hkeys.1]
  case h_2 => rfl

/-- The types at a place that no function has as an argument: at each visit the names
that have no meaning yet are looked up. -/
theorem run_place {p : TypePlace} {es : List TypeEvent}
    (h : ∀ fn args, .use (.arguments fn args) ∈ es → p ∉ args.map .var) (past : List TypeEvent)
    (types : TypePlace → List Ty) :
    run useTypes past es types p = (visits p past es).foldl
      (fun ts decls => Ty.bindNamesAll (structFirst decls) ts) (types p) := by
  induction es generalizing past types with
  | nil => rfl
  | cons e es ih =>
      have hrest := ih fun fn args hmem => h fn args (List.mem_cons_of_mem _ hmem)
      cases e with
      | use u =>
          rw [run, hrest]
          cases u with
          | arguments fn args =>
              rw [useTypes_arguments (h fn args List.mem_cons_self), visits]
              nofun
          | place q =>
              rw [visits]
              by_cases hq : q = p
              · rw [if_pos hq, List.foldl_cons, hq, useTypes, Function.update_self]
                rfl
              · rw [if_neg hq, useTypes, Function.update_of_ne (Ne.symm hq)]
                rfl
      | _ => exact hrest _ _

/-- The names in types in which names are looked up several times. -/
theorem namesAll_foldl (visits : List (List TypeDecl)) (ts : List Ty) :
    Ty.namesAll (visits.foldl (fun ts decls => Ty.bindNamesAll (structFirst decls) ts) ts) =
      (Ty.namesAll ts).map fun occurrence =>
        visits.foldl (fun occurrence decls => bindName (structFirst decls) occurrence)
          occurrence := by
  induction visits generalizing ts with
  | nil => exact (List.map_id _).symm
  | cons decls visits ih =>
      rw [List.foldl_cons, ih, namesAll_bindNamesAll, List.map_map]
      rfl

/-- A name has no meaning to the pass exactly if it has none to the reference: both look
through the same declarations. -/
theorem structFirst_eq_unresolved_iff {decls : List TypeDecl} {name : Str} :
    structFirst decls name = .unresolved ↔ innermost decls name = .unresolved := by
  unfold structFirst innermost
  cases declared decls name with
  | nil => exact iff_of_true rfl rfl
  | cons decl rest =>
      cases decl with
      | struct name d => exact iff_of_false nofun nofun
      | generic name g =>
          refine iff_of_false ?_ nofun
          -- a type parameter is found, if no struct is
          have hgeneric : genericBindings (.generic name g :: rest) =
              (name, g) :: genericBindings rest := rfl
          rw [hgeneric]
          cases structBindings (.generic name g :: rest) <;> nofun

/-- A name that has a meaning keeps it. -/
theorem foldl_bindName_of_ne {target : TyTarget} (h : target ≠ .unresolved)
    (visits : List (List TypeDecl)) (node : InstanceNode) :
    visits.foldl (fun occurrence decls => bindName (structFirst decls) occurrence) (node, target) =
      (node, target) := by
  induction visits with
  | nil => rfl
  | cons decls visits ih =>
      have hkeep : bindName (structFirst decls) (node, target) = (node, target) := by
        rw [bindName, if_neg h]
      rw [List.foldl_cons, hkeep, ih]

/-- A name that is looked up at each of some visits has its innermost declaration at all of
them exactly if that is one declaration, and at the first visit it is a struct or no struct
of the name is in force. -/
theorem foldl_bindName_eq_iff (visits : List (List TypeDecl)) (node : InstanceNode) :
    ∃ target, visits.foldl (fun occurrence decls => bindName (structFirst decls) occurrence)
        (node, .unresolved) = (node, target) ∧
      ((∀ decls ∈ visits, target = innermost decls node.name) ↔
        (∀ decls ∈ visits, ∀ decls' ∈ visits,
          innermost decls node.name = innermost decls' node.name) ∧
        ∀ decls ∈ visits.head?, StructsInside decls node.name) := by
  induction visits with
  | nil => exact ⟨_, rfl, iff_of_true (List.forall_mem_nil _) ⟨List.forall_mem_nil _, nofun⟩⟩
  | cons first visits ih =>
      have hbind : bindName (structFirst first) (node, .unresolved) =
          (node, structFirst first node.name) := by
        rw [bindName, if_pos rfl]
      have hhead : (∀ decls ∈ (first :: visits).head?, StructsInside decls node.name) ↔
          structFirst first node.name = innermost first node.name := by
        rw [structFirst_eq_iff]
        exact ⟨fun h => h first rfl, fun h decls hdecls => Option.some.inj hdecls ▸ h⟩
      rw [List.foldl_cons, hbind, hhead]
      by_cases hfound : structFirst first node.name = .unresolved
      case neg =>
        -- the name gets its meaning at the first visit
        refine ⟨_, foldl_bindName_of_ne hfound visits node, ?_⟩
        constructor
        · intro h
          exact ⟨fun d hd d' hd' => (h d hd).symm.trans (h d' hd'), h first List.mem_cons_self⟩
        · rintro ⟨hsame, hfirst⟩ decls hdecls
          exact hfirst.trans (hsame first List.mem_cons_self decls hdecls)
      case pos =>
        -- nothing of the name is in force at the first visit
        have hnone := structFirst_eq_unresolved_iff.mp hfound
        obtain ⟨target, htarget, hiff⟩ := ih
        rw [hfound]
        refine ⟨target, htarget, ?_⟩
        constructor
        · intro h
          exact ⟨fun d hd d' hd' => (h d hd).symm.trans (h d' hd'), hnone.symm⟩
        · rintro ⟨hsame, -⟩
          have hall : ∀ decls ∈ first :: visits, innermost decls node.name = .unresolved :=
            fun decls hdecls => (hsame decls hdecls first List.mem_cons_self).trans hnone
          have hrest := hiff.mpr ⟨fun d hd d' hd' =>
            hsame d (List.mem_cons_of_mem _ hd) d' (List.mem_cons_of_mem _ hd'),
            fun decls hdecls => structFirst_eq_iff.mp ?_⟩
          · have htarget' : target = .unresolved := by
              cases visits with
              | nil => exact (Prod.ext_iff.mp htarget).2.symm
              | cons decls visits =>
                  rw [hrest decls List.mem_cons_self]
                  exact hall decls (List.mem_cons_of_mem _ List.mem_cons_self)
            intro decls hdecls
            rw [htarget', hall decls hdecls]
          · have hmem : decls ∈ first :: visits :=
              List.mem_cons_of_mem _ (List.mem_of_mem_head? hdecls)
            rw [hall decls hmem]
            exact structFirst_eq_unresolved_iff.mpr (hall decls hmem)

section Module

variable {lookup : Str → Option Ast} {store : Store} {n : Node} {name : Str} {body : Ast}
  {autoimports : List Str}

/-- The pass over a module goes through its events. -/
theorem resolveNames_types (hauto : ∀ i ∈ autoimports, Importable lookup i)
    (hbody : Resolvable lookup (visitAst body)) :
    ∃ store' output,
      resolveNames lookup store (.module n name body autoimports) = .ok (store', output) ∧
        store'.typesAt =
          run useTypes [] (typeEvents lookup (.module n name body autoimports)) store.typesAt := by
  have hq := resolveNodeType_sameScope { store } n.id
  let rs₀ : ResolveNames :=
    { ResolveNames.resolveNodeType { store } n.id with module := some name }
  have hr₀ : TypesResolved { store } rs₀ [useType (.node n.id)] :=
    (resolveNodeType_types { store } n.id).append (.same rfl rfl rfl)
  obtain ⟨rs₁, hrs₁, hr₁⟩ := resolveImports_types hauto rs₀
  obtain ⟨rs₂, hrs₂, hr₂⟩ := resolveNamesNode_types rs₁ body hbody
  refine ⟨rs₂.store, rs₂.output, ?_, (hr₀.append (hr₁.append hr₂)).types [] ⟨rfl, rfl⟩⟩
  rw [resolveNames, resolveNamesNode, hq.module]
  show ((rs₀.resolveImports lookup autoimports >>= _) >>= _) = _
  rw [hrs₁]
  show (resolveNamesNode lookup rs₁ body >>= _) = _
  rw [hrs₂]
  rfl

/-- On a module whose imports can be resolved, a name in a type has its innermost
declaration at every visit of its place, exactly if this is one declaration at all of them,
and at the first visit it is a struct or no struct of the name is in force. -/
theorem resolveNames_types_iff (hauto : ∀ i ∈ autoimports, Importable lookup i)
    (hbody : Resolvable lookup (visitAst body))
    (howns : OwnArguments (typeEvents lookup (.module n name body autoimports))) :
    ∃ store' output,
      resolveNames lookup store (.module n name body autoimports) = .ok (store', output) ∧
        ∀ p, useType p ∈ typeEvents lookup (.module n name body autoimports) →
          ∀ (i : Nat) (node : InstanceNode), (Ty.namesAll (store.typesAt p))[i]? =
            some (node, .unresolved) →
            ∃ target, (Ty.namesAll (store'.typesAt p))[i]? = some (node, target) ∧
              ((∀ decls ∈ visits p [] (typeEvents lookup (.module n name body autoimports)),
                  target = innermost decls node.name) ↔
                (∀ decls ∈ visits p [] (typeEvents lookup (.module n name body autoimports)),
                  ∀ decls' ∈ visits p [] (typeEvents lookup (.module n name body autoimports)),
                    innermost decls node.name = innermost decls' node.name) ∧
                ∀ decls ∈
                    (visits p [] (typeEvents lookup (.module n name body autoimports))).head?,
                  StructsInside decls node.name) := by
  obtain ⟨store', output, hrun, htypes⟩ :=
    @resolveNames_types lookup store n name body autoimports hauto hbody
  refine ⟨store', output, hrun, fun p hp i node hnode => ?_⟩
  obtain ⟨target, htarget, hiff⟩ := foldl_bindName_eq_iff
    (visits p [] (typeEvents lookup (.module n name body autoimports))) node
  refine ⟨target, ?_, hiff⟩
  have hargs : ∀ fn args, .use (.arguments fn args) ∈
      typeEvents lookup (.module n name body autoimports) → p ∉ args.map TypePlace.var := by
    intro fn args hmem hin
    obtain ⟨v, hv, rfl⟩ := List.mem_map.mp hin
    exact howns v fn args hp hmem hv
  rw [htypes, run_place hargs, namesAll_foldl, List.getElem?_map, hnode, ← htarget]
  rfl

end Module

namespace HiddenStruct

/-- The declarations of
```
struct T
extern fn f<T>(x: T): int
``` -/
def body : Ast :=
  .block { id := 2 } [
    .tyDecl { id := 3 } "T".toList 0 [] [],
    .fnDecl { id := 4 } { id := 1, kind := .function, name := "f".toList }
      [{ id := 7, name := "T".toList }] [{ id := 2, kind := .argument, name := "x".toList }]
      { extern_ := true } none]

def root : Ast := .module { id := 1 } "m".toList body []

/-- The type of the argument, as it is written. -/
def written : InstanceNode := { name := "T".toList }

def store : Store where
  varType := fun v =>
    if v = 1 then .function [.inst written [] .unresolved] .integer false
    else .inst written [] .unresolved

/-- The events of the example: a struct and a type parameter of one name, each in a scope. -/
theorem typeEvents_root : typeEvents (fun _ => none) root =
    [useType (.node 1), useType (.node 2), .enter, .bind (.struct "T".toList 0), .enter,
      useType (.node 3), useType (.fields 0), .leave, .enter, .bind (.generic "T".toList 7),
      useType (.node 4), useType (.var 1), .use (.arguments 1 [2]), .leave, .leave] := rfl

/-- In the example no place is an argument of two functions. -/
theorem ownArguments : OwnArguments (typeEvents (fun _ => none) root) := by
  intro v fn args hv hargs
  rw [typeEvents_root] at hv hargs
  have hvar : v = 1 := by simpa [useType] using hv
  have hlist : fn = 1 ∧ args = [2] := by simpa [useType] using hargs
  rw [hvar, hlist.2]
  decide

/-- The example imports nothing. -/
theorem resolvable : Resolvable (fun _ => none) (visitAst body) := by
  intro root hroot
  simp only [body, visitAst, visitAstAll, visitAstOption, visitAstDefaults, List.append_nil,
    List.cons_append, List.nil_append, List.mem_cons, List.not_mem_nil, or_false] at hroot
  rcases hroot with rfl | rfl | rfl <;> trivial

/-- A struct hides a type parameter of the same name: the type of the function's argument
gets the struct. -/
theorem resolveNames_types_iff_hidden :
    ∃ store' output, resolveNames (fun _ => none) store root = .ok (store', output) ∧
      ∀ p, useType p ∈ typeEvents (fun _ => none) root →
        ∀ (i : Nat) (node : InstanceNode),
          (Ty.namesAll (store.typesAt p))[i]? = some (node, .unresolved) →
            ∃ target, (Ty.namesAll (store'.typesAt p))[i]? = some (node, target) ∧
              ((∀ decls ∈ visits p [] (typeEvents (fun _ => none) root),
                  target = innermost decls node.name) ↔
                (∀ decls ∈ visits p [] (typeEvents (fun _ => none) root),
                  ∀ decls' ∈ visits p [] (typeEvents (fun _ => none) root),
                    innermost decls node.name = innermost decls' node.name) ∧
                ∀ decls ∈ (visits p [] (typeEvents (fun _ => none) root)).head?,
                  StructsInside decls node.name) :=
  resolveNames_types_iff (fun _ hi => absurd hi List.not_mem_nil) resolvable ownArguments

/-- The type parameter is the innermost declaration, but the name gets the struct. -/
theorem resolveNames_hidden :
    ∃ decls store' output,
      resolveNames (fun _ => none) store root = .ok (store', output) ∧
        visits (.var 1) [] (typeEvents (fun _ => none) root) = [decls] ∧
        Ty.namesAll (store'.typesAt (.var 1)) = [(written, .struct 0)] ∧
        innermost decls written.name = .generic 7 :=
  ⟨_, _, _, rfl, rfl, rfl, by decide⟩

end HiddenStruct

end Aike
