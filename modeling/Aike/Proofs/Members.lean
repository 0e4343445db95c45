import Aike.Model.Compile

/-!
# `Aike.Proofs.Members`: what the resolution of fields does

`resolveMembers` goes over the member accesses and struct literals of a tree. What it does
there depends on the types of the objects, which it does not change, so the visit is a walk
over a list of field references with their object types (`fieldRefs`).

`findMember`, `typeMember` and `validateLiteralStruct` follow the definition of an
`Instance` without a look at whether it has one, and an `Instance` of a type parameter has
none (`Ty.HasDefinition`).

* `findMember_isOk_iff` and `hasField_of_findMember`: when `findMember` returns, and that
  what it finds is a field of the type.
* `resolveFieldRef_cases`: one reference, with what it leaves unchanged.
* `resolveMembers_total_iff`: the pass ends with an index or an error for every reference
  exactly when no object that it looks at is of a type parameter.
* `resolveMembers_generic`: `x.foo` where `x` is of a type parameter.
-/

set_option autoImplicit false

namespace Aike

/-- If the type is an `Instance`, it has a definition. -/
def Ty.HasDefinition (program : Program) : Ty → Prop
  | .inst _ _ (.struct d) => (program.tyDef d).isSome = true
  | .inst _ _ _ => False
  | _ => True

/-- The type has a field of the name at the index. The fields of a tuple are named by
their place. -/
def HasField (program : Program) (ty : Ty) (name : Str) (index : Int) : Prop :=
  match ty with
  | .inst _ _ (.struct d) => ∃ tydef, program.tyDef d = some tydef
      ∧ ∃ (i : Nat) (field : FieldDecl × Option Ast), index = i ∧ tydef.fields[i]? = some field
        ∧ field.1.name = name
  | .tuple fields => ∃ (i : Nat) (digits : Str), index = i ∧ i < fields.length
      ∧ name = '_' :: digits ∧ strtoll digits = some i
  | _ => False

/-- The references to fields on a node, with the types of their objects. -/
def nodeFieldRefs (store : Store) : Ast → List (FieldRef × Ty)
  | .member _ expr field =>
      match store.astType expr.node.id with
      | some type => [(field, type)]
      | none => []
  | .literalStruct n _ fields =>
      match store.astType n.id with
      | some type => fields.map fun f => (f.1, type)
      | none => []
  | _ => []

/-- The references to fields on some nodes. -/
def fieldRefs (store : Store) (nodes : List Ast) : List (FieldRef × Ty) :=
  nodes.flatMap (nodeFieldRefs store)

/-- The references to fields that a node holds. -/
def Ast.fieldsAt : Ast → List FieldRef
  | .member _ _ field => [field]
  | .literalStruct _ _ fields => fields.map Prod.fst
  | _ => []

/-- A `FieldRef` belongs to one node. The node may be in the tree several times: in
`x, y: Q = Q { a = 1 }` the parser gives one default to both fields. -/
def Ast.OwnsFields (root : Ast) : Prop :=
  ∀ a ∈ visitAst root, ∀ b ∈ visitAst root, ∀ f ∈ a.fieldsAt, ∀ g ∈ b.fieldsAt,
    f.id = g.id → a = b ∧ f = g

/-- `resolveFieldRef`, on some references with their object types. -/
def resolveAll (program : Program) :
    ResolveMembers → List (FieldRef × Ty) → Except Fault ResolveMembers
  | rs, [] => .ok rs
  | rs, r :: refs =>
      match resolveFieldRef program rs r.1 r.2 with
      | .ok rs => resolveAll program rs refs
      | .error fault => .error fault

/-- The reference has its index, and the index is that of a field of the object's type with
the name of the reference, or the error about it is reported. -/
def RefSettled (program : Program) (rs : ResolveMembers) (r : FieldRef × Ty) : Prop :=
  HasField program r.2 r.1.name (rs.store.fieldIndex r.1.id)
    ∨ (rs.store.fieldIndex r.1.id < 0 ∧ noMember r.1 r.2 ∈ rs.output)

/-! ### One reference -/

section Reference

variable {program : Program} {ty : Ty} {name : Str} {index : Int} {rs rs' : ResolveMembers}
  {f : FieldRef}

/-- `findMember` answers if and only if the type has a definition. -/
theorem findMember_isOk_iff :
    (∃ index, findMember program ty name = .ok index) ↔ ty.HasDefinition program := by
  cases ty with
  | inst node tyargs target =>
      cases target with
      | struct d =>
          cases hdef : program.tyDef d with
          | none => simp [findMember, Ty.HasDefinition, hdef]
          | some tydef =>
              simp only [findMember, Ty.HasDefinition, hdef, Option.isSome_some, iff_true]
              split <;> exact ⟨_, rfl⟩
      | _ => simp [findMember, Ty.HasDefinition]
  | tuple fields =>
      simp only [findMember, Ty.HasDefinition, iff_true]
      split
      · split <;> exact ⟨_, rfl⟩
      · exact ⟨_, rfl⟩
  | _ => simp [findMember, Ty.HasDefinition]

/-- The only fault of `findMember` is to look into a null definition. -/
theorem findMember_eq_nullDefinition_iff :
    findMember program ty name = .error .nullDefinition ↔ ¬ ty.HasDefinition program := by
  cases ty with
  | inst node tyargs target =>
      cases target with
      | struct d =>
          cases hdef : program.tyDef d with
          | none => simp [findMember, Ty.HasDefinition, hdef]
          | some tydef =>
              simp only [findMember, Ty.HasDefinition, hdef, Option.isSome_some,
                not_true_eq_false, iff_false]
              split <;> simp
      | _ => simp [findMember, Ty.HasDefinition]
  | tuple fields =>
      simp only [findMember, Ty.HasDefinition, not_true_eq_false, iff_false]
      split
      · split <;> simp
      · simp
  | _ => simp [findMember, Ty.HasDefinition]

/-- What `findMember` finds is a field of the type. -/
theorem hasField_of_findMember (h : findMember program ty name = .ok index) (hindex : 0 ≤ index) :
    HasField program ty name index := by
  cases ty with
  | inst node tyargs target =>
      cases target with
      | struct d =>
          cases hdef : program.tyDef d with
          | none => simp [findMember, hdef] at h
          | some tydef =>
              simp only [findMember, hdef] at h
              split at h
              · next i hfind =>
                obtain ⟨hi, hname, -⟩ := List.findIdx?_eq_some_iff_getElem.mp hfind
                cases h
                exact ⟨tydef, hdef, i, tydef.fields[i], rfl, List.getElem?_eq_getElem hi,
                  by simpa using hname⟩
              · cases h
                simp at hindex
      | _ => simp [findMember] at h
  -- The name of a tuple field is its index in decimal digits.
  | tuple fields =>
      simp only [findMember] at h
      split at h
      · next digits =>
        split at h
        · next value hvalue =>
          split at h
          · next hlt =>
            cases h
            exact ⟨value, digits, rfl, hlt, rfl, hvalue⟩
          · cases h
            simp at hindex
        · cases h
          simp at hindex
      · cases h
        simp at hindex
  -- All other types have no members.
  | _ =>
      cases h
      simp at hindex

/-- **One reference.** It fails only on an object of a type parameter. Otherwise it is
settled, or was before, or the object has no type yet, and nothing else is changed. -/
theorem resolveFieldRef_cases (program : Program) (rs : ResolveMembers) (f : FieldRef) (ty : Ty) :
    (rs.store.fieldIndex f.id < 0 ∧ ty.isUnknown = false ∧ ¬ ty.HasDefinition program
        ∧ resolveFieldRef program rs f ty = .error .nullDefinition)
      ∨ ((¬ (rs.store.fieldIndex f.id < 0 ∧ ty.isUnknown = false))
        ∧ resolveFieldRef program rs f ty = .ok rs)
      ∨ (∃ rs', rs.store.fieldIndex f.id < 0 ∧ ty.isUnknown = false ∧ ty.HasDefinition program
        ∧ resolveFieldRef program rs f ty = .ok rs' ∧ RefSettled program rs' (f, ty)
        ∧ (∀ id, id ≠ f.id → rs'.store.fieldIndex id = rs.store.fieldIndex id)
        ∧ rs.output ⊆ rs'.output ∧ ∀ id, rs'.store.astType id = rs.store.astType id) := by
  by_cases hguard : rs.store.fieldIndex f.id < 0 ∧ ty.isUnknown = false
  · cases hfind : findMember program ty f.name with
    | error fault =>
        -- A type parameter has no definition to look into.
        have hdef : ¬ ty.HasDefinition program := by
          intro hdef
          obtain ⟨index, hindex⟩ := findMember_isOk_iff.mpr hdef
          rw [hfind] at hindex
          cases hindex
        have hnull : findMember program ty f.name = .error .nullDefinition :=
          findMember_eq_nullDefinition_iff.mpr hdef
        exact Or.inl ⟨hguard.1, hguard.2, hdef, by rw [resolveFieldRef, if_pos hguard, hnull]⟩
    | ok index =>
        have hdef : ty.HasDefinition program := findMember_isOk_iff.mp ⟨index, hfind⟩
        refine Or.inr (Or.inr ?_)
        -- The member is found, or its absence is reported.
        by_cases hindex : index ≥ 0
        · refine ⟨_, hguard.1, hguard.2, hdef,
            by rw [resolveFieldRef, if_pos hguard, hfind]; exact if_pos hindex,
            Or.inl ?_, ?_, ?_, ?_⟩
          · simpa [update] using hasField_of_findMember hfind hindex
          · intro id hid
            simp [update, hid]
          · exact fun d hd => hd
          · intro id
            rfl
        · refine ⟨_, hguard.1, hguard.2, hdef,
            by rw [resolveFieldRef, if_pos hguard, hfind]; exact if_neg hindex, Or.inr ⟨?_, ?_⟩,
            ?_, ?_, ?_⟩
          · simpa [update] using hindex
          · simp
          · intro id hid
            simp [update, hid]
          · exact List.subset_append_left _ _
          · intro id
            rfl
  · exact Or.inr (Or.inl ⟨hguard, by rw [resolveFieldRef, if_neg hguard]⟩)

end Reference

/-! ### All references -/

section References

variable {program : Program} {rs rs' : ResolveMembers} {refs : List (FieldRef × Ty)}

/-- A settled reference stays settled when a reference is looked at, be it the same one
again. -/
theorem RefSettled.of_resolveFieldRef {r r' : FieldRef × Ty} (h : RefSettled program rs r)
    (hrun : resolveFieldRef program rs r'.1 r'.2 = .ok rs')
    (hsame : r'.1.id = r.1.id → r' = r) : RefSettled program rs' r := by
  rcases resolveFieldRef_cases program rs r'.1 r'.2 with ⟨-, -, -, hrun'⟩ | ⟨-, hrun'⟩
    | ⟨rs₁, -, -, -, hrun', hsettled, hother, houtput, -⟩
  · rw [hrun] at hrun'
    cases hrun'
  · rw [hrun] at hrun'
    cases hrun'
    exact h
  · rw [hrun] at hrun'
    cases hrun'
    by_cases heq : r'.1.id = r.1.id
    · rw [← hsame heq]
      exact hsettled
    · rw [RefSettled, hother r.1.id (Ne.symm heq)]
      rcases h with h | ⟨h, herror⟩
      · exact Or.inl h
      · exact Or.inr ⟨h, houtput herror⟩

/-- A settled reference stays settled on a walk. -/
theorem RefSettled.of_resolveAll {r : FieldRef × Ty} (h : RefSettled program rs r)
    (hrun : resolveAll program rs refs = .ok rs')
    (hsame : ∀ r' ∈ refs, r'.1.id = r.1.id → r' = r) : RefSettled program rs' r := by
  induction refs generalizing rs with
  | nil =>
      cases hrun
      exact h
  | cons r' refs ih =>
      rw [resolveAll] at hrun
      cases hstep : resolveFieldRef program rs r'.1 r'.2 with
      | error fault =>
          rw [hstep] at hrun
          cases hrun
      | ok rs₁ =>
          rw [hstep] at hrun
          exact ih (h.of_resolveFieldRef hstep (hsame r' List.mem_cons_self)) hrun
            fun r'' hr'' => hsame r'' (List.mem_cons_of_mem _ hr'')

/-- **The walk.** Every reference that has no index, on an object with a type, is settled
exactly when none of these objects is of a type parameter. A reference may come several
times, with the same object. -/
theorem resolveAll_settles_iff
    (hsame : ∀ r ∈ refs, ∀ r' ∈ refs, r'.1.id = r.1.id → r' = r) :
    (∃ rs', resolveAll program rs refs = .ok rs'
        ∧ ∀ r ∈ refs, r.2.isUnknown = false → rs.store.fieldIndex r.1.id < 0 →
            RefSettled program rs' r)
      ↔ ∀ r ∈ refs, r.2.isUnknown = false → rs.store.fieldIndex r.1.id < 0 →
          r.2.HasDefinition program := by
  induction refs generalizing rs with
  | nil => simp [resolveAll]
  | cons r refs ih =>
      have hrest : ∀ r ∈ refs, ∀ r' ∈ refs, r'.1.id = r.1.id → r' = r := fun r hr r' hr' =>
        hsame r (List.mem_cons_of_mem _ hr) r' (List.mem_cons_of_mem _ hr')
      have hself : ∀ r' ∈ refs, r'.1.id = r.1.id → r' = r := fun r' hr' =>
        hsame r List.mem_cons_self r' (List.mem_cons_of_mem _ hr')
      simp only [resolveAll]
      rcases resolveFieldRef_cases program rs r.1 r.2 with ⟨hneg, hknown, hdef, hrun⟩
        | ⟨hguard, hrun⟩ | ⟨rs₁, hneg, hknown, hdef, hrun, hsettled, hother, -, -⟩
      · -- The definition of a type parameter is followed.
        rw [hrun]
        constructor
        · rintro ⟨rs', h, -⟩
          cases h
        · intro h
          exact absurd (h r List.mem_cons_self hknown hneg) hdef
      · rw [hrun]
        -- This one is settled already, or its type is not known yet.
        have hskip : r.2.isUnknown = false → ¬ rs.store.fieldIndex r.1.id < 0 :=
          fun hknown hneg => hguard ⟨hneg, hknown⟩
        constructor
        · rintro ⟨rs', h, hall⟩
          have htail := ih hrest |>.mp ⟨rs', h, fun r' hr' => hall r' (List.mem_cons_of_mem _ hr')⟩
          intro r' hr' hknown hneg
          rcases List.mem_cons.mp hr' with rfl | hr'
          · exact absurd hneg (hskip hknown)
          · exact htail r' hr' hknown hneg
        · intro h
          obtain ⟨rs', h', hall⟩ :=
            ih hrest |>.mpr fun r' hr' => h r' (List.mem_cons_of_mem _ hr')
          refine ⟨rs', h', fun r' hr' hknown hneg => ?_⟩
          rcases List.mem_cons.mp hr' with rfl | hr'
          · exact absurd hneg (hskip hknown)
          · exact hall r' hr' hknown hneg
      · rw [hrun]
        -- Of the others, only the same one again has another index now.
        have hbefore : ∀ r' ∈ refs, rs₁.store.fieldIndex r'.1.id < 0 →
            rs.store.fieldIndex r'.1.id < 0 := by
          intro r' hr' hneg'
          by_cases heq : r'.1.id = r.1.id
          · rwa [heq]
          · rwa [hother _ heq] at hneg'
        constructor
        · rintro ⟨rs', h, hall⟩
          have htail := ih hrest |>.mp ⟨rs', h, fun r' hr' hknown' hneg' =>
            hall r' (List.mem_cons_of_mem _ hr') hknown' (hbefore r' hr' hneg')⟩
          intro r' hr' hknown' hneg'
          rcases List.mem_cons.mp hr' with rfl | hr'
          · exact hdef
          · by_cases heq : r'.1.id = r.1.id
            · rw [hself r' hr' heq]
              exact hdef
            · exact htail r' hr' hknown' (by rwa [hother _ heq])
        · intro h
          obtain ⟨rs', h', hall⟩ := ih hrest |>.mpr fun r' hr' hknown' hneg' =>
            h r' (List.mem_cons_of_mem _ hr') hknown' (hbefore r' hr' hneg')
          have hsettled' := hsettled.of_resolveAll h' hself
          refine ⟨rs', h', fun r' hr' hknown' hneg' => ?_⟩
          rcases List.mem_cons.mp hr' with rfl | hr'
          · exact hsettled'
          · by_cases heq : r'.1.id = r.1.id
            · rw [hself r' hr' heq]
              exact hsettled'
            · exact hall r' hr' hknown' (by rwa [hother _ heq])

end References

/-! ### The pass -/

section Pass

variable {program : Program} {rs : ResolveMembers}

/-- The references of two lists are resolved one list after the other, unless the first
one faults. -/
theorem resolveAll_append (refs refs' : List (FieldRef × Ty)) :
    resolveAll program rs (refs ++ refs')
      = match resolveAll program rs refs with
        | .ok rs => resolveAll program rs refs'
        | .error fault => .error fault := by
  induction refs generalizing rs with
  | nil => rfl
  | cons r refs ih =>
      rw [List.cons_append, resolveAll, resolveAll]
      cases resolveFieldRef program rs r.1 r.2 with
      | error fault => rfl
      | ok rs₁ => exact ih

/-- `resolveFieldRefs` resolves each field of a literal with the type of the literal. -/
theorem resolveFieldRefs_eq (ty : Ty) (fields : List FieldRef) :
    resolveFieldRefs program ty rs fields =
      resolveAll program rs (fields.map fun f => (f, ty)) := by
  induction fields generalizing rs with
  | nil => rfl
  | cons f fields ih =>
      rw [resolveFieldRefs, List.map_cons, resolveAll]
      cases resolveFieldRef program rs f ty with
      | error fault => rfl
      | ok rs₁ => exact ih

/-- A node is a walk over its references. -/
theorem resolveMembersNode_eq (node : Ast) :
    resolveMembersNode program rs node = resolveAll program rs (nodeFieldRefs rs.store node) := by
  cases node with
  | member n expr field =>
      simp only [resolveMembersNode, nodeFieldRefs]
      cases rs.store.astType expr.node.id with
      | none => rfl
      | some type => exact resolveFieldRefs_eq type [field]
  | literalStruct n name fields =>
      simp only [resolveMembersNode, nodeFieldRefs]
      cases rs.store.astType n.id with
      | none => rfl
      | some type =>
          show resolveFieldRefs program type rs (fields.map Prod.fst) = _
          rw [resolveFieldRefs_eq, List.map_map]
          rfl
  | _ => rfl

/-- The types of the objects do not change. -/
theorem astType_resolveAll {rs' : ResolveMembers} {refs : List (FieldRef × Ty)}
    (h : resolveAll program rs refs = .ok rs') (id : NodeId) :
    rs'.store.astType id = rs.store.astType id := by
  induction refs generalizing rs with
  | nil =>
      cases h
      rfl
  | cons r refs ih =>
      rw [resolveAll] at h
      rcases resolveFieldRef_cases program rs r.1 r.2 with ⟨-, -, -, hrun⟩ | ⟨-, hrun⟩
        | ⟨rs₁, -, -, -, hrun, -, -, -, htypes⟩
      · rw [hrun] at h
        cases h
      · rw [hrun] at h
        exact ih h
      · rw [hrun] at h
        exact (ih h).trans (htypes id)

/-- Which references a node has depends on the types of the nodes alone. These stay when
indexes of fields are set. -/
theorem nodeFieldRefs_congr {store store' : Store}
    (h : ∀ id, store'.astType id = store.astType id) (node : Ast) :
    nodeFieldRefs store' node = nodeFieldRefs store node := by
  cases node with
  | member n expr field => simp only [nodeFieldRefs, h]
  | literalStruct n name fields => simp only [nodeFieldRefs, h]
  | _ => rfl

/-- The pass is a walk over the references on the nodes it visits. -/
theorem resolveMembersNodes_eq (nodes : List Ast) :
    resolveMembersNodes program rs nodes = resolveAll program rs (fieldRefs rs.store nodes) := by
  induction nodes generalizing rs with
  | nil => rfl
  | cons node nodes ih =>
      rw [resolveMembersNodes, fieldRefs, List.flatMap_cons, resolveAll_append,
        resolveMembersNode_eq]
      cases hrun : resolveAll program rs (nodeFieldRefs rs.store node) with
      | error fault => rfl
      | ok rs₁ =>
          have hsame : fieldRefs rs₁.store nodes = fieldRefs rs.store nodes :=
            congrArg (List.flatMap · nodes)
              (funext (nodeFieldRefs_congr (astType_resolveAll hrun)))
          show resolveMembersNodes program rs₁ nodes = resolveAll program rs₁ _
          rw [ih, hsame]
          rfl

/-- The references on a node are to the fields that it holds, on objects of one type. -/
theorem mem_nodeFieldRefs {store : Store} {node : Ast} {r : FieldRef × Ty}
    (h : r ∈ nodeFieldRefs store node) :
    r.1 ∈ node.fieldsAt ∧ ∀ r' ∈ nodeFieldRefs store node, r'.2 = r.2 := by
  cases node with
  | member n expr field =>
      simp only [nodeFieldRefs] at h ⊢
      cases htype : store.astType expr.node.id with
      | none =>
          rw [htype] at h
          cases h
      | some type =>
          rw [htype] at h
          obtain rfl := List.mem_singleton.mp h
          exact ⟨List.mem_singleton_self _, fun r' hr' => by rw [List.mem_singleton.mp hr']⟩
  | literalStruct n name fields =>
      simp only [nodeFieldRefs] at h ⊢
      cases htype : store.astType n.id with
      | none =>
          rw [htype] at h
          cases h
      | some type =>
          rw [htype] at h
          obtain ⟨f, hf, rfl⟩ := List.mem_map.mp h
          refine ⟨List.mem_map_of_mem hf, fun r' hr' => ?_⟩
          obtain ⟨f', -, rfl⟩ := List.mem_map.mp hr'
          rfl
  | _ => cases h

/-- References with one identity are the same reference, on the same object. -/
theorem Ast.OwnsFields.same {root : Ast} (h : root.OwnsFields) (store : Store) :
    ∀ r ∈ fieldRefs store (visitAst root), ∀ r' ∈ fieldRefs store (visitAst root),
      r'.1.id = r.1.id → r' = r := by
  intro r hr r' hr' hid
  obtain ⟨a, ha, hra⟩ := List.mem_flatMap.mp hr
  obtain ⟨b, hb, hrb⟩ := List.mem_flatMap.mp hr'
  obtain ⟨hfield, htype⟩ := mem_nodeFieldRefs hra
  obtain ⟨rfl, hsame⟩ := h b hb a ha _ (mem_nodeFieldRefs hrb).1 _ hfield hid
  exact Prod.ext hsame (htype r' hrb)

end Pass

/-! ### The other two functions -/

section Others

variable {program : Program}

/-- With an index, `typeMember` looks into a null definition if and only if the type has
none. -/
theorem typeMember_null_iff {store : Store} {ty : Ty} {index : Int} (hindex : 0 ≤ index) :
    typeMember program store ty index = .error .nullDefinition ↔ ¬ ty.HasDefinition program := by
  have hneg : ¬ index < 0 := Int.not_lt.mpr hindex
  cases ty with
  | inst node tyargs target =>
      cases target with
      | struct d =>
          cases hdef : program.tyDef d with
          | none => simp [typeMember, hneg, Ty.HasDefinition, hdef]
          | some tydef =>
              simp only [typeMember, if_neg hneg, Ty.HasDefinition, hdef, Option.isSome_some,
                not_true_eq_false, iff_false]
              split
              · simp
              · split <;> simp
      | _ => simp [typeMember, hneg, Ty.HasDefinition]
  | tuple fields =>
      simp only [typeMember, if_neg hneg, Ty.HasDefinition, not_true_eq_false, iff_false]
      split <;> simp
  | _ => simp [typeMember, hneg, Ty.HasDefinition]

namespace Typeck

/-- A run goes on from the result and the state of its first part. -/
theorem run_bind_ok {α β : Type} {m : TypeckM α} {k : α → TypeckM β} {a : α} {s s' : Typeck}
    (h : m s = .ok (a, s')) : (m >>= k) s = k a s' := by
  show (m s >>= fun p => k p.1 p.2) = _
  rw [h]
  rfl

/-- `get` reads the state and keeps it. -/
theorem run_bind_get {α : Type} (k : Typeck → TypeckM α) (s : Typeck) :
    ((get : TypeckM Typeck) >>= k) s = k s s := rfl

/-- One step of the loop over the initializers. -/
theorem validateInitializers_cons (f : FieldRef) (fields : List FieldRef) (marks : List Bool)
    (s : Typeck) :
    validateInitializers (f :: fields) marks s
      = if s.store.fieldIndex f.id < 0 then .error .assertion
        else match marks[(s.store.fieldIndex f.id).toNat]? with
          | none => .error .assertion
          | some true => validateInitializers fields marks
              { s with
                output := s.output ++ [⟨f.location,
                  "Field ".toList ++ f.name ++ " already has an initializer".toList⟩] }
          | some false =>
              validateInitializers fields (marks.set (s.store.fieldIndex f.id).toNat true) s := by
  simp only [validateInitializers]
  rw [run_bind_get]
  by_cases hneg : s.store.fieldIndex f.id < 0
  · simp only [hneg, if_true]
    rfl
  · simp only [hneg, if_false]
    cases marks[(s.store.fieldIndex f.id).toNat]? with
    | none => rfl
    | some mark => cases mark <;> rfl

/-- The checks of the initialisers report at worst an error. They look into no definition. -/
theorem validateInitializers_ne_null (fields : List FieldRef) (marks : List Bool) (s : Typeck) :
    validateInitializers fields marks s ≠ .error .nullDefinition := by
  induction fields generalizing marks s with
  | nil =>
      intro h
      cases h
  | cons f fields ih =>
      rw [validateInitializers_cons]
      split
      · simp
      · split
        · simp
        · exact ih _ _
        · exact ih _ _

/-- Neither do the checks of the fields that must be given. -/
theorem validateFields_ne_null (location : Location) (members : List (FieldDecl × Option Ast))
    (marks : List Bool) (s : Typeck) :
    validateFields location members marks s ≠ .error .nullDefinition := by
  induction members generalizing marks s with
  | nil =>
      intro h
      cases h
  | cons member members ih =>
      cases marks with
      | nil =>
          intro h
          cases h
      | cons mark marks =>
          simp only [validateFields]
          split
          · rw [run_bind_ok (a := ()) rfl]
            exact ih _ _
          · exact ih _ _

/-- The check of a struct literal on an object with a type. -/
theorem validateLiteralStruct_null_iff {n : Node} {literal : Ast} {fields : List FieldRef}
    {s : Typeck} {ty : Ty} (htype : s.store.astType literal.node.id = some ty) :
    validateLiteralStruct program n literal fields s = .error .nullDefinition
      ↔ ¬ ty.HasDefinition program := by
  have hastType : astType literal s = .ok (ty, s) := by
    simp only [astType]
    rw [run_bind_get]
    simp only [htype]
    rfl
  simp only [validateLiteralStruct]
  rw [run_bind_ok hastType]
  cases ty with
  | inst node tyargs target =>
      cases target with
      | struct d =>
          cases hdef : program.tyDef d with
          | none =>
              simp only [Ty.HasDefinition, hdef, Option.isSome_none, Bool.false_eq_true,
                not_false_eq_true, iff_true]
              rfl
          | some tydef =>
              simp only [Ty.HasDefinition, hdef, Option.isSome_some, not_true_eq_false, iff_false]
              intro h
              cases hrun : validateInitializers fields (tydef.fields.map fun _ => false) s with
              -- The fault of one of the two checks, and neither follows a definition.
              | error fault =>
                  have hbind : (validateInitializers fields (tydef.fields.map fun _ => false)
                      >>= fun marks => validateFields n.location tydef.fields marks) s
                        = .error fault := by
                    show (validateInitializers fields (tydef.fields.map fun _ => false) s
                      >>= _) = _
                    rw [hrun]
                    rfl
                  rw [hbind] at h
                  cases h
                  exact validateInitializers_ne_null _ _ _ hrun
              | ok p =>
                  rw [run_bind_ok (a := p.1) hrun] at h
                  exact validateFields_ne_null _ _ _ _ h
      | _ =>
          simp only [Ty.HasDefinition, not_false_eq_true, iff_true]
          rfl
  | _ =>
      simp only [Ty.HasDefinition, not_true_eq_false, iff_false]
      intro h
      cases h

end Typeck

end Others

/-- **The resolution of fields.** In any round, whatever the passes have written so far:
every reference to a field that has no index, on an object that has a type, gets the index
of a field of that type or an error, exactly when no such object is of a type parameter. The
other functions that look at the definition of an `Instance` follow a null pointer exactly on
an `Instance` of a type parameter too. -/
theorem resolveMembers_total_iff (program : Program) (store : Store) (root : Ast)
    (howns : root.OwnsFields) :
    ((∃ rs, resolveMembers program store root = .ok rs
          ∧ ∀ r ∈ fieldRefs store (visitAst root), r.2.isUnknown = false →
              store.fieldIndex r.1.id < 0 → RefSettled program rs r)
        ↔ ∀ r ∈ fieldRefs store (visitAst root), r.2.isUnknown = false →
            store.fieldIndex r.1.id < 0 → r.2.HasDefinition program)
      ∧ (∀ ty name, findMember program ty name ≠ .error .nullDefinition
          ↔ ty.HasDefinition program)
      ∧ (∀ ty (index : Int), 0 ≤ index →
          (typeMember program store ty index ≠ .error .nullDefinition
            ↔ ty.HasDefinition program))
      ∧ ∀ n literal fields (s : Typeck) ty, s.store.astType literal.node.id = some ty →
          (Typeck.validateLiteralStruct program n literal fields s ≠ .error .nullDefinition
            ↔ ty.HasDefinition program) := by
  refine ⟨?_, fun ty name => ?_, fun ty index hindex => ?_, fun n literal fields s ty htype => ?_⟩
  · rw [resolveMembers, resolveMembersNodes_eq]
    exact resolveAll_settles_iff (howns.same store)
  · rw [ne_eq, findMember_eq_nullDefinition_iff, not_not]
  · rw [ne_eq, typeMember_null_iff hindex, not_not]
  · rw [ne_eq, Typeck.validateLiteralStruct_null_iff htype, not_not]

/-! ### A member of a value of a type parameter -/

/-- `x.foo` -/
def xFoo : Ast := .member ⟨0, {}⟩ (.ident ⟨1, {}⟩ ['x']) ⟨0, "foo".toList, {}⟩

/-- The store after the first pass over `x.foo`, where `x` is of the type `ty`. -/
def xFooStore (ty : Ty) : Store := { nodeType := fun n => if n = 1 then some ty else none }

/-- There is one reference in `x.foo`. -/
theorem xFoo_ownsFields : xFoo.OwnsFields := by
  intro a ha b hb f hf g hg _
  simp only [xFoo, visitAst, List.mem_cons, List.not_mem_nil, or_false] at ha hb
  rcases ha with rfl | rfl
  · rcases hb with rfl | rfl
    · rw [List.mem_singleton.mp hf, List.mem_singleton.mp hg]
      exact ⟨rfl, rfl⟩
    · cases hg
  · cases hf

/-- In `fn f<T>(x: T)` the pass over `x.foo` follows the definition of `T`. -/
theorem resolveMembers_generic :
    ¬ ∀ (program : Program) (store : Store) (root : Ast), root.OwnsFields →
        ∃ rs, resolveMembers program store root = .ok rs
          ∧ ∀ r ∈ fieldRefs store (visitAst root), r.2.isUnknown = false →
              store.fieldIndex r.1.id < 0 → RefSettled program rs r := by
  intro h
  obtain ⟨rs, hrun, -⟩ :=
    h {} (xFooStore (.inst ⟨['T'], {}, 1⟩ [] (.generic 0))) xFoo xFoo_ownsFields
  cases hrun

/-! ### A default that two fields share -/

/-- `Q { a = 1 }` -/
def sharedDefault : Ast :=
  .literalStruct ⟨1, {}⟩ ['Q'] [(⟨0, ['a'], {}⟩, .literalInteger ⟨2, {}⟩ 1)]

/-- A struct with the fields `x, y: Q = Q { a = 1 }`. -/
def sharedFields : Ast :=
  .tyDecl ⟨0, {}⟩ ['P'] 1 [] [(⟨['x'], {}⟩, some sharedDefault), (⟨['y'], {}⟩, some sharedDefault)]

/-- `struct Q` has the field `a`. -/
def sharedProgram : Program where
  tyDef d := if d = 0 then some ⟨[], [(⟨['a'], {}⟩, none)]⟩ else none

/-- The store in which the literal has its type. -/
def sharedStore : Store where
  nodeType n := if n = 1 then some (.inst ⟨['Q'], {}, 1⟩ [] (.struct 0)) else none

/-- The default is in the tree twice, and its reference is one. -/
theorem sharedFields_ownsFields : sharedFields.OwnsFields := by
  have hfields : ∀ a ∈ visitAst sharedFields, a = sharedDefault ∨ a.fieldsAt = [] := by
    intro a ha
    simp only [sharedFields, sharedDefault, visitAst, visitAstDefaults, visitAstOption,
      visitAstFields, List.mem_cons, List.append_nil, List.mem_append, List.not_mem_nil,
      or_false] at ha
    rcases ha with rfl | (rfl | rfl) | rfl | rfl
    · exact .inr rfl
    · exact .inl rfl
    · exact .inr rfl
    · exact .inl rfl
    · exact .inr rfl
  intro a ha b hb f hf g hg _
  rcases hfields a ha with rfl | hnone
  · rcases hfields b hb with rfl | hnone
    · exact ⟨rfl, (List.mem_singleton.mp hf).trans (List.mem_singleton.mp hg).symm⟩
    · rw [hnone] at hg
      cases hg
  · rw [hnone] at hf
    cases hf

/-- The case of `x, y: Q = Q { a = 1 }`. The default of the two fields is one node, which
is met twice. -/
theorem resolveMembers_total_shared :
    ((∃ rs, resolveMembers sharedProgram sharedStore sharedFields = .ok rs
          ∧ ∀ r ∈ fieldRefs sharedStore (visitAst sharedFields), r.2.isUnknown = false →
              sharedStore.fieldIndex r.1.id < 0 → RefSettled sharedProgram rs r)
        ↔ ∀ r ∈ fieldRefs sharedStore (visitAst sharedFields), r.2.isUnknown = false →
            sharedStore.fieldIndex r.1.id < 0 → r.2.HasDefinition sharedProgram)
      ∧ (∀ ty name, findMember sharedProgram ty name ≠ .error .nullDefinition
          ↔ ty.HasDefinition sharedProgram)
      ∧ (∀ ty (index : Int), 0 ≤ index →
          (typeMember sharedProgram sharedStore ty index ≠ .error .nullDefinition
            ↔ ty.HasDefinition sharedProgram))
      ∧ ∀ n literal fields (s : Typeck) ty, s.store.astType literal.node.id = some ty →
          (Typeck.validateLiteralStruct sharedProgram n literal fields s ≠ .error .nullDefinition
            ↔ ty.HasDefinition sharedProgram) :=
  resolveMembers_total_iff sharedProgram sharedStore sharedFields sharedFields_ownsFields

/-- Both uses of the default have the index of the field. -/
example : (resolveMembers sharedProgram sharedStore sharedFields).map
    (fun rs => (rs.store.fieldIndex 0, rs.output)) = .ok (0, []) := by decide

end Aike
