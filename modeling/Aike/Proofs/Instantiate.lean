import Aike.Model.Codegen.State

/-!
# `Aike.Proofs.Instantiate`: instantiation is substitution

`typeInstantiate` replaces generic parameters, all at once, and does not look into what
it puts in. So two instantiations in turn are one (`Substitution.comp`), and the type of
a field of an instantiated struct is the instantiated type of the field
(`typeInstantiate_substitution`).
-/

set_option autoImplicit false

namespace Aike

/-- What some generic parameters are replaced by. -/
abbrev Substitution := GenericId → Option Ty

/-- One substitution and then another: what the first one puts in is instantiated by the
second one. -/
def Substitution.comp (s s' : Substitution) : Substitution := fun g =>
  match s g with
  | some type => some (typeInstantiate s' type)
  | none => s' g

/-- An instance of a struct keeps its definition, with its type arguments instantiated. -/
theorem typeInstantiate_struct (s : Substitution) (node : InstanceNode) (tyargs : List Ty)
    (d : DefId) :
    typeInstantiate s (.inst node tyargs (.struct d)) =
      .inst node.renew (typeInstantiateAll s tyargs) (.struct d) := rfl

/-- An unresolved instance stays so, with its type arguments instantiated. -/
theorem typeInstantiate_unresolved (s : Substitution) (node : InstanceNode) (tyargs : List Ty) :
    typeInstantiate s (.inst node tyargs .unresolved) =
      .inst node.renew (typeInstantiateAll s tyargs) .unresolved := rfl

mutual

/-- To instantiate a type twice is to instantiate it once by the two substitutions
together. The induction is over the type, and at a type parameter the second one goes into
what the first one puts there. -/
theorem typeInstantiate_comp (s s' : Substitution) : (type : Ty) →
    typeInstantiate s' (typeInstantiate s type) = typeInstantiate (s.comp s') type
  | .tuple fields => by
      rw [typeInstantiate, typeInstantiate, typeInstantiate, typeInstantiateAll_comp s s' fields]
  | .array element => by
      rw [typeInstantiate, typeInstantiate, typeInstantiate, typeInstantiate_comp s s' element]
  | .pointer element => by
      rw [typeInstantiate, typeInstantiate, typeInstantiate, typeInstantiate_comp s s' element]
  | .function args ret _ => by
      rw [typeInstantiate, typeInstantiate, typeInstantiate, typeInstantiateAll_comp s s' args,
        typeInstantiate_comp s s' ret]
  | .inst node tyargs (.generic g) => by
      rw [typeInstantiate, typeInstantiate, Substitution.comp]
      -- A type parameter that the first one does not replace is left to the second one.
      cases s g with
      | some type => rfl
      | none =>
          show typeInstantiate s' (.inst node tyargs (.generic g)) = _
          rw [typeInstantiate]
  | .inst _ tyargs .unresolved => by
      rw [typeInstantiate_unresolved, typeInstantiate_unresolved, typeInstantiate_unresolved,
        typeInstantiateAll_comp s s' tyargs]
      rfl
  | .inst _ tyargs (.struct _) => by
      rw [typeInstantiate_struct, typeInstantiate_struct, typeInstantiate_struct,
        typeInstantiateAll_comp s s' tyargs]
      rfl
  | .unknown _ => rfl
  | .void => rfl
  | .bool => rfl
  | .integer => rfl
  | .float => rfl
  | .string => rfl

/-- The same for a list of types. -/
theorem typeInstantiateAll_comp (s s' : Substitution) : (types : List Ty) →
    typeInstantiateAll s' (typeInstantiateAll s types) = typeInstantiateAll (s.comp s') types
  | [] => rfl
  | type :: types => by
      rw [typeInstantiateAll, typeInstantiateAll, typeInstantiateAll,
        typeInstantiate_comp s s' type,
        typeInstantiateAll_comp s s' types]

end

/-- To instantiate a list of types is to instantiate each of them. -/
theorem typeInstantiateAll_eq (s : Substitution) (types : List Ty) :
    typeInstantiateAll s types = types.map (typeInstantiate s) := by
  induction types with
  | nil => rfl
  | cons type types ih => rw [typeInstantiateAll, ih, List.map_cons]

/-! ### Parameters -/

section

variable {s s' : Substitution}

mutual

/-- Substitutions that agree on the parameters of a type. -/
theorem typeInstantiate_congr : (type : Ty) → (∀ g ∈ type.generics, s g = s' g) →
    typeInstantiate s type = typeInstantiate s' type
  | .tuple fields, h => by
      rw [typeInstantiate, typeInstantiate, typeInstantiateAll_congr fields h]
  | .array element, h => by
      rw [typeInstantiate, typeInstantiate, typeInstantiate_congr element h]
  | .pointer element, h => by
      rw [typeInstantiate, typeInstantiate, typeInstantiate_congr element h]
  | .function args ret _, h => by
      rw [Ty.generics, List.forall_mem_append] at h
      rw [typeInstantiate, typeInstantiate, typeInstantiateAll_congr args h.1,
        typeInstantiate_congr ret h.2]
  | .inst _ _ (.generic g), h => by
      rw [typeInstantiate, typeInstantiate, h g List.mem_cons_self]
  | .inst _ tyargs .unresolved, h => by
      rw [typeInstantiate_unresolved, typeInstantiate_unresolved, typeInstantiateAll_congr tyargs h]
  | .inst _ tyargs (.struct _), h => by
      rw [typeInstantiate_struct, typeInstantiate_struct, typeInstantiateAll_congr tyargs h]
  | .unknown _, _ => rfl
  | .void, _ => rfl
  | .bool, _ => rfl
  | .integer, _ => rfl
  | .float, _ => rfl
  | .string, _ => rfl

/-- Substitutions that agree on the type parameters of some types instantiate them alike. -/
theorem typeInstantiateAll_congr : (types : List Ty) → (∀ g ∈ Ty.genericsAll types, s g = s' g) →
    typeInstantiateAll s types = typeInstantiateAll s' types
  | [], _ => rfl
  | type :: types, h => by
      rw [Ty.genericsAll, List.forall_mem_append] at h
      rw [typeInstantiateAll, typeInstantiateAll, typeInstantiate_congr type h.1,
        typeInstantiateAll_congr types h.2]

end

end

/-! ### Fields -/

/-- The types of the fields of a struct mention its own type parameters only. -/
def OwnParameters (program : Program) (store : Store) (d : DefId) : Prop :=
  ∀ tydef ∈ program.tyDef d, ∀ field ∈ store.fieldTypes d,
    ∀ g ∈ (field.view store.fills).generics, ∃ p ∈ tydef.tyargs, p.id = g

/-- The argument of a type parameter is found before a function is applied to the
arguments or after it. -/
theorem tyargOf_map (f : Ty → Ty) (tyargs : List Generic) (args : List Ty) (g : GenericId) :
    tyargOf tyargs (args.map f) g = (tyargOf tyargs args g).map f := by
  induction tyargs generalizing args with
  | nil => rfl
  | cons p tyargs ih =>
      cases args with
      | nil => rfl
      | cons type args =>
          unfold tyargOf at ih ⊢
          rw [List.map_cons, List.zip_cons_cons, List.zip_cons_cons, List.find?_cons,
            List.find?_cons]
          by_cases hp : p.id = g
          · rw [decide_eq_true hp]
            rfl
          · rw [decide_eq_false hp]
            exact ih args

/-- Each type parameter has a type argument. -/
theorem tyargOf_isSome {tyargs : List Generic} {args : List Ty} {g : GenericId}
    (hlength : tyargs.length = args.length) (hg : ∃ p ∈ tyargs, p.id = g) :
    ∃ type, tyargOf tyargs args g = some type := by
  obtain ⟨p, hp, rfl⟩ := hg
  obtain ⟨i, hi, rfl⟩ := List.mem_iff_getElem.mp hp
  have hzip : i < (tyargs.zip args).length := by
    rw [List.length_zip]
    omega
  have hsome : ((tyargs.zip args).find? fun q => q.1.id = tyargs[i].id).isSome = true := by
    rw [List.find?_isSome]
    refine ⟨(tyargs.zip args)[i], List.getElem_mem hzip, ?_⟩
    rw [List.getElem_zip, decide_eq_true_eq]
  obtain ⟨q, hq⟩ := Option.isSome_iff_exists.mp hsome
  exact ⟨q.2, by rw [tyargOf, hq, Option.map_some]⟩

/-- Instantiation is substitution: two in turn are one, and the member of an instantiated
struct type is the instantiated member. -/
theorem typeInstantiate_substitution (s s' : Substitution) (type : Ty) (program : Program)
    (store : Store) (d : DefId) (hown : OwnParameters program store d) (node : InstanceNode)
    (tyargs : List Ty) (i : Int) :
    typeInstantiate s' (typeInstantiate s type) = typeInstantiate (s.comp s') type ∧
      typeMember program store (typeInstantiate s (.inst node tyargs (.struct d))) i =
        (typeMember program store (.inst node tyargs (.struct d)) i).map (typeInstantiate s) := by
  refine ⟨typeInstantiate_comp s s' type, ?_⟩
  rw [typeInstantiate_struct, typeInstantiateAll_eq, typeMember, typeMember]
  by_cases hi : i < 0
  · rw [if_pos hi, if_pos hi]
    rfl
  rw [if_neg hi, if_neg hi]
  cases htydef : program.tyDef d with
  | none => rfl
  | some tydef =>
      dsimp only
      cases hfield : (store.fieldTypes d)[i.toNat]? with
      | none => rfl
      | some field =>
          dsimp only
          rw [List.length_map]
          by_cases hlength : tydef.tyargs.length = tyargs.length
          case neg =>
            rw [if_pos hlength, if_pos hlength]
            rfl
          case pos =>
            rw [if_neg (not_not_intro hlength), if_neg (not_not_intro hlength)]
            refine congrArg Except.ok ?_
            rw [typeInstantiate_comp]
            refine typeInstantiate_congr _ fun g hg => ?_
            -- a parameter of the struct has an argument, and no other one is in the field
            have hparam := hown tydef htydef field (List.mem_of_getElem? hfield) g hg
            obtain ⟨arg, harg⟩ := tyargOf_isSome hlength hparam
            rw [tyargOf_map, Substitution.comp, harg, Option.map_some]

/-- A struct with an array of its parameter, at a parameter that is replaced by a type
that contains it. -/
theorem typeInstantiate_substitution_nested :
    let param (g : GenericId) : Ty := .inst ⟨"T".toList, {}, 0⟩ [] (.generic g)
    let s : Substitution := fun g => if g = 1 then some (.array (param 1)) else none
    let program : Program := { tyDef := fun _ => some ⟨[⟨0, "T".toList, {}⟩], []⟩ }
    let store : Store := { fieldTypes := fun _ => [.array (param 0)] }
    typeInstantiate s (typeInstantiate s (param 1)) = typeInstantiate (s.comp s) (param 1) ∧
      typeMember program store
          (typeInstantiate s (.inst ⟨"Box".toList, {}, 0⟩ [param 1] (.struct 0))) 0 =
        (typeMember program store (.inst ⟨"Box".toList, {}, 0⟩ [param 1] (.struct 0)) 0).map
          (typeInstantiate s) :=
  typeInstantiate_substitution _ _ _ _ _ 0
    (by
      rintro tydef ⟨⟩ field hfield g hg
      rw [List.mem_singleton.mp hfield] at hg
      exact ⟨_, List.mem_singleton_self _, (List.mem_singleton.mp hg).symm⟩) _ _ _

end Aike
