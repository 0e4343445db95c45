import Aike.Proofs.Members
import Mathlib.Data.List.Nodup

/-!
# `Aike.Proofs.LiteralStruct`: the fields of a struct literal

The check of a struct literal and its lowering each go over the fields of the literal and
then over the fields of the struct, with a vector of flags of their own. What they have in
common is the plan of the literal (`literalPlan`): which field of the struct is set from
which expression, in the order in which the lowering does it.

* `validateLiteralStruct_silent_iff`: the check reports nothing exactly when the literal is
  complete (`LiteralComplete`), that is, it names no field twice and every field that it
  does not name has a default.
* `codegenLiteralStruct_eq`: the lowering of a complete literal is the insertion of the
  plan into an undefined value, with no assertion left.
* `literalPlan_perm` and `mem_literalPlan`: the plan of a complete literal has every field
  of the struct once, with the expression that the literal or the struct has for it.
* `literalStruct_complete` puts them together.
-/

set_option autoImplicit false

namespace Aike

/-- No field is named twice, and every field that is not named has a default. -/
def LiteralComplete (given : List Int) (fields : List (FieldDecl × Option Ast)) : Prop :=
  given.Nodup ∧ ∀ (i : Nat) field, fields[i]? = some field → (i : Int) ∉ given →
    field.2.isSome = true

/-- The defaults of the fields, from a field on, that are not given. -/
def defaultPlan (given : List Int) (i : Nat) : List (FieldDecl × Option Ast) → List (Nat × Ast)
  | [] => []
  | field :: fields =>
      match given.contains (i : Int), field.2 with
      | false, some expr => (i, expr) :: defaultPlan given (i + 1) fields
      | _, _ => defaultPlan given (i + 1) fields

/-- Which field of the struct a literal sets from which expression, in order. -/
def literalPlan (index : FieldRef → Int) (fields : List (FieldRef × Ast))
    (members : List (FieldDecl × Option Ast)) : List (Nat × Ast) :=
  defaultPlan (fields.map fun f => index f.1) 0 members
    ++ fields.map fun f => ((index f.1).toNat, f.2)

/-- Insert the values of some expressions at their places, one after another. -/
def insertAll (codegenExpr : Ast → CodegenKind → CodegenM Value) (result : Value) :
    List (Nat × Ast) → CodegenM Value
  | [] => return result
  | (i, expr) :: plan => do
      let value ← asValue codegenExpr expr
      let result ← createInsertValue result value i
      insertAll codegenExpr result plan

/-! ### The plan -/

section Plan

variable {given : List Int} {members : List (FieldDecl × Option Ast)} {index : FieldRef → Int}
  {fields : List (FieldRef × Ast)}

/-- The plan sets a field to its default if and only if the field is not given and has
one. -/
theorem mem_defaultPlan {i j : Nat} {expr : Ast} :
    (j, expr) ∈ defaultPlan given i members
      ↔ ∃ k field, members[k]? = some field ∧ j = i + k ∧ (j : Int) ∉ given
          ∧ field.2 = some expr := by
  induction members generalizing i with
  | nil => simp [defaultPlan]
  | cons member members ih =>
      -- The first member has the place i, the others are after it.
      have hsplit : (∃ k field, (member :: members)[k]? = some field ∧ j = i + k
            ∧ (j : Int) ∉ given ∧ field.2 = some expr)
          ↔ (j = i ∧ (j : Int) ∉ given ∧ member.2 = some expr)
            ∨ (j, expr) ∈ defaultPlan given (i + 1) members := by
        rw [ih]
        constructor
        · rintro ⟨k, field, hfield, hj, hnot, hexpr⟩
          cases k with
          | zero =>
              rw [List.getElem?_cons_zero, Option.some.injEq] at hfield
              exact Or.inl ⟨hj, hnot, hfield ▸ hexpr⟩
          | succ k => exact Or.inr ⟨k, field, hfield, by omega, hnot, hexpr⟩
        · rintro (⟨hj, hnot, hexpr⟩ | ⟨k, field, hfield, hj, hnot, hexpr⟩)
          · exact ⟨0, member, rfl, hj, hnot, hexpr⟩
          · exact ⟨k + 1, field, hfield, by omega, hnot, hexpr⟩
      rw [hsplit, defaultPlan]
      cases hgiven : given.contains (i : Int) with
      | true =>
          have hmem : (i : Int) ∈ given := by simpa using hgiven
          constructor
          · exact Or.inr
          · rintro (⟨hj, hnot, -⟩ | h)
            · rw [hj] at hnot
              exact absurd hmem hnot
            · exact h
      | false =>
          have hnot : (i : Int) ∉ given := by
            intro hmem
            simp [hmem] at hgiven
          cases hdefault : member.2 with
          | none => simp
          | some e =>
              simp only [List.mem_cons, Prod.mk.injEq, Option.some.injEq]
              constructor
              · rintro (⟨hj, he⟩ | h)
                · exact Or.inl ⟨hj, hj ▸ hnot, he.symm⟩
                · exact Or.inr h
              · rintro (⟨hj, -, he⟩ | h)
                · exact Or.inl ⟨hj, he.symm⟩
                · exact Or.inr h

/-- The places of the defaults go up. -/
theorem nodup_defaultPlan (i : Nat) : ((defaultPlan given i members).map Prod.fst).Nodup := by
  induction members generalizing i with
  | nil => simp [defaultPlan]
  | cons member members ih =>
      rw [defaultPlan]
      split
      · rw [List.map_cons, List.nodup_cons]
        refine ⟨fun hmem => ?_, ih (i + 1)⟩
        obtain ⟨p, hp, hfst⟩ := List.mem_map.mp hmem
        obtain ⟨k, -, -, hj, -⟩ := mem_defaultPlan.mp hp
        omega
      · exact ih (i + 1)

/-- An entry of the plan is an initializer of the literal, or the default of a field that
the literal does not name. -/
theorem mem_literalPlan {j : Nat} {expr : Ast} :
    (j, expr) ∈ literalPlan index fields members
      ↔ (∃ field, members[j]? = some field ∧ (∀ f ∈ fields, index f.1 ≠ j)
            ∧ field.2 = some expr)
        ∨ ∃ f ∈ fields, (index f.1).toNat = j ∧ f.2 = expr := by
  rw [literalPlan, List.mem_append, mem_defaultPlan]
  refine or_congr ?_ ?_
  · constructor
    · rintro ⟨k, field, hfield, hj, hnot, hexpr⟩
      have hjk : j = k := by omega
      refine ⟨field, hjk ▸ hfield, fun f hf heq => hnot ?_, hexpr⟩
      rw [← heq]
      exact List.mem_map_of_mem hf
    · rintro ⟨field, hfield, hnot, hexpr⟩
      refine ⟨j, field, hfield, by omega, fun hmem => ?_, hexpr⟩
      obtain ⟨f, hf, heq⟩ := List.mem_map.mp hmem
      exact hnot f hf heq
  · simp

/-- The plan of a complete literal sets every field of the struct once. -/
theorem literalPlan_perm
    (hvalid : ∀ f ∈ fields, 0 ≤ index f.1 ∧ index f.1 < members.length)
    (hcomplete : LiteralComplete (fields.map fun f => index f.1) members) :
    ((literalPlan index fields members).map Prod.fst).Perm (List.range members.length) := by
  obtain ⟨hnodup, hdefaults⟩ := hcomplete
  refine (List.perm_ext_iff_of_nodup ?_ List.nodup_range).mpr fun j => ?_
  · rw [literalPlan, List.map_append, List.nodup_append]
    refine ⟨nodup_defaultPlan 0, ?_, ?_⟩
    · rw [List.map_map]
      -- Different indices that are not negative are different places.
      have htoNat : fields.map (Prod.fst ∘ fun f => ((index f.1).toNat, f.2))
          = (fields.map fun f => index f.1).map Int.toNat := by
        rw [List.map_map]
        rfl
      rw [htoNat]
      refine hnodup.map_on fun a ha b hb hab => ?_
      obtain ⟨f, hf, rfl⟩ := List.mem_map.mp ha
      obtain ⟨g, hg, rfl⟩ := List.mem_map.mp hb
      have := (hvalid f hf).1
      have := (hvalid g hg).1
      omega
    · intro a ha b hb hab
      obtain ⟨⟨i, expr⟩, hp, hpa⟩ := List.mem_map.mp ha
      obtain ⟨k, field, -, hi, hnot, -⟩ := mem_defaultPlan.mp hp
      rw [List.map_map] at hb
      obtain ⟨f, hf, hfb⟩ := List.mem_map.mp hb
      refine hnot ?_
      have hindex : (i : Int) = index f.1 := by
        have hf0 := (hvalid f hf).1
        have hfi : (index f.1).toNat = i := hfb.trans (hab.symm.trans hpa.symm)
        omega
      rw [hindex]
      exact List.mem_map_of_mem hf
  · rw [List.mem_range, List.mem_map]
    constructor
    · rintro ⟨⟨i, expr⟩, hp, rfl⟩
      rcases mem_literalPlan.mp hp with ⟨field, hfield, -⟩ | ⟨f, hf, hfi, -⟩
      · exact (List.getElem?_eq_some_iff.mp hfield).1
      · have := hvalid f hf
        show i < members.length
        omega
    · intro hj
      by_cases hgiven : ∃ f ∈ fields, (index f.1).toNat = j
      · obtain ⟨f, hf, hfj⟩ := hgiven
        exact ⟨(j, f.2), mem_literalPlan.mpr (Or.inr ⟨f, hf, hfj, rfl⟩), rfl⟩
      · have hfield : members[j]? = some members[j] := List.getElem?_eq_getElem hj
        have hnot : ∀ f ∈ fields, index f.1 ≠ j := by
          intro f hf heq
          exact hgiven ⟨f, hf, by rw [heq]; rfl⟩
        have hsome := hdefaults j members[j] hfield fun hmem => by
          obtain ⟨f, hf, heq⟩ := List.mem_map.mp hmem
          exact hnot f hf heq
        obtain ⟨expr, hexpr⟩ := Option.isSome_iff_exists.mp hsome
        exact ⟨(j, expr), mem_literalPlan.mpr (Or.inl ⟨_, hfield, hnot, hexpr⟩), rfl⟩

end Plan

/-! ### The lowering -/

section Lowering

variable {cx : CodegenContext} {codegenExpr : Ast → CodegenKind → CodegenM Value}

/-- A plan in two parts is carried out one part after the other. -/
theorem insertAll_append (result : Value) (plan plan' : List (Nat × Ast)) :
    insertAll codegenExpr result (plan ++ plan') = (do
      let result ← insertAll codegenExpr result plan
      insertAll codegenExpr result plan') := by
  induction plan generalizing result with
  | nil => simp [insertAll]
  | cons p plan ih => simp only [List.cons_append, insertAll, ih, bind_assoc]

/-- The loop over the defaults asserts nothing that fails when they are all there. -/
theorem codegenDefaults_eq {given : List Int} {members : List (FieldDecl × Option Ast)}
    (i : Nat) (hdefaults : ∀ (k : Nat) field, members[k]? = some field →
      ((i + k : Nat) : Int) ∉ given → field.2.isSome = true) (result : Value) :
    codegenDefaults codegenExpr given result i members
      = insertAll codegenExpr result (defaultPlan given i members) := by
  induction members generalizing i result with
  | nil => rfl
  | cons member members ih =>
      have hrest := ih (i + 1) fun k field hfield hnot =>
        hdefaults (k + 1) field hfield (by rwa [show i + (k + 1) = i + 1 + k by omega])
      rw [codegenDefaults, defaultPlan]
      cases hgiven : given.contains (i : Int) with
      | true => exact hrest result
      | false =>
          have hnot : ((i + 0 : Nat) : Int) ∉ given := by
            intro hmem
            have hmem' : (i : Int) ∈ given := hmem
            simp [hmem'] at hgiven
          obtain ⟨expr, hexpr⟩ := Option.isSome_iff_exists.mp (hdefaults 0 member rfl hnot)
          simp only [hexpr, assertSome, pure_bind, Bool.false_eq_true, if_false, insertAll, hrest]

/-- The fields of a literal are inserted at the places that they were resolved to, in the
order in which they are written. -/
theorem codegenInitializers_eq (fields : List (FieldRef × Ast)) (result : Value) :
    codegenInitializers cx codegenExpr result fields
      = insertAll codegenExpr result
          (fields.map fun f => ((cx.store.fieldIndex f.1.id).toNat, f.2)) := by
  induction fields generalizing result with
  | nil => rfl
  | cons f fields ih => simp only [codegenInitializers, List.map_cons, insertAll, ih]

/-- **The lowering of a complete literal.** It inserts the plan into an undefined value of
the type of the struct, and no assertion of it is left. -/
theorem codegenLiteralStruct_eq {n : Node} {fields : List (FieldRef × Ast)}
    {node : InstanceNode} {tyargs : List Ty} {d : DefId} {tydef : TyDef}
    (htype : cx.store.astType n.id = some (.inst node tyargs (.struct d)))
    (hdef : cx.program.tyDef d = some tydef)
    (hvalid : ∀ f ∈ fields, 0 ≤ cx.store.fieldIndex f.1.id
      ∧ cx.store.fieldIndex f.1.id < tydef.fields.length)
    (hcomplete : LiteralComplete (fields.map fun f => cx.store.fieldIndex f.1.id) tydef.fields) :
    codegenLiteralStruct cx codegenExpr n fields = (do
      let type ← codegenType cx cx.fuel (.inst node tyargs (.struct d))
      insertAll codegenExpr ⟨type, .undef⟩
        (literalPlan (fun f => cx.store.fieldIndex f.id) fields tydef.fields)) := by
  have hgiven : ∀ i ∈ fields.map fun f => cx.store.fieldIndex f.1.id,
      0 ≤ i ∧ i < tydef.fields.length := by
    intro i hi
    obtain ⟨f, hf, rfl⟩ := List.mem_map.mp hi
    exact hvalid f hf
  have hdefaults : ∀ result, codegenDefaults codegenExpr
      (fields.map fun f => cx.store.fieldIndex f.1.id) result 0 tydef.fields
        = insertAll codegenExpr result
            (defaultPlan (fields.map fun f => cx.store.fieldIndex f.1.id) 0 tydef.fields) :=
    codegenDefaults_eq 0 fun k field hfield hnot =>
      hcomplete.2 k field hfield (by rwa [Nat.zero_add] at hnot)
  simp only [codegenLiteralStruct, nodeType, htype, assertSome, pure_bind, hdef, assert,
    if_pos hgiven, literalPlan, insertAll_append, hdefaults, codegenInitializers_eq]

end Lowering

/-! ### The check -/

namespace Typeck

variable {s : Typeck}

/-- The loop over the initializers marks the fields that have one. It reports nothing
exactly when it marks every field once. -/
theorem validateInitializers_run (fields : List FieldRef) (marks : List Bool) (s : Typeck)
    (hvalid : ∀ f ∈ fields, 0 ≤ s.store.fieldIndex f.id
      ∧ s.store.fieldIndex f.id < marks.length) :
    ∃ marks' errors,
      validateInitializers fields marks s = .ok (marks', { s with output := s.output ++ errors })
        ∧ marks'.length = marks.length
        ∧ (∀ i : Nat, marks'[i]? = some true
            ↔ marks[i]? = some true ∨ ∃ f ∈ fields, s.store.fieldIndex f.id = i)
        ∧ (errors = [] ↔ (fields.map fun f => s.store.fieldIndex f.id).Nodup
            ∧ ∀ f ∈ fields, marks[(s.store.fieldIndex f.id).toNat]? = some false) := by
  induction fields generalizing marks s with
  | nil => exact ⟨marks, [], by simp [validateInitializers]; rfl, rfl, by simp, by simp⟩
  | cons f fields ih =>
      rw [List.forall_mem_cons] at hvalid
      obtain ⟨⟨hnonneg, hlt⟩, hrest⟩ := hvalid
      obtain ⟨k, hk⟩ : ∃ k : Nat, s.store.fieldIndex f.id = k := Int.eq_ofNat_of_zero_le hnonneg
      have hlt' : k < marks.length := by omega
      have hnot : ¬ ((k : Int) < 0) := by omega
      obtain ⟨mark, hget⟩ : ∃ mark, marks[k]? = some mark :=
        ⟨_, List.getElem?_eq_getElem hlt'⟩
      cases mark with
      | true =>
          -- The field has an initializer already.
          let e : Diagnostic :=
            ⟨f.location, "Field ".toList ++ f.name ++ " already has an initializer".toList⟩
          obtain ⟨marks', errors, hrun, hlength, hmarks, -⟩ :=
            ih marks { s with output := s.output ++ [e] } hrest
          refine ⟨marks', e :: errors, ?_, hlength, fun i => ?_, ?_⟩
          · have hstep : validateInitializers (f :: fields) marks s
                = validateInitializers fields marks { s with output := s.output ++ [e] } := by
              rw [validateInitializers_cons]
              simp only [hk, hnot, if_false, Int.toNat_natCast, hget]
              rfl
            rw [hstep, hrun, List.append_assoc]
            rfl
          · rw [hmarks i]
            constructor
            · rintro (h | ⟨g, hg, hgi⟩)
              · exact Or.inl h
              · exact Or.inr ⟨g, List.mem_cons_of_mem _ hg, hgi⟩
            · rintro (h | ⟨g, hg, hgi⟩)
              · exact Or.inl h
              · rcases List.mem_cons.mp hg with rfl | hg
                · have hki : k = i := by omega
                  exact Or.inl (hki ▸ hget)
                · exact Or.inr ⟨g, hg, hgi⟩
          · constructor
            · intro h
              cases h
            · rintro ⟨-, h⟩
              have hfalse := h f List.mem_cons_self
              rw [hk, Int.toNat_natCast, hget] at hfalse
              cases hfalse
      | false =>
          obtain ⟨marks', errors, hrun, hlength, hmarks, hsilent⟩ :=
            ih (marks.set k true) s (by simpa using hrest)
          have hset : ∀ i : Nat, (marks.set k true)[i]? = some true
              ↔ marks[i]? = some true ∨ k = i := by
            intro i
            rw [List.getElem?_set]
            by_cases hki : k = i
            · simp [hki, hki ▸ hlt']
            · simp [hki]
          refine ⟨marks', errors, ?_, by rw [hlength, List.length_set], fun i => ?_, ?_⟩
          · rw [← hrun]
            rw [validateInitializers_cons]
            simp only [hk, hnot, if_false, Int.toNat_natCast, hget]
          · rw [hmarks i, hset i]
            constructor
            · rintro ((h | h) | ⟨g, hg, hgi⟩)
              · exact Or.inl h
              · exact Or.inr ⟨f, List.mem_cons_self, by rw [hk, h]⟩
              · exact Or.inr ⟨g, List.mem_cons_of_mem _ hg, hgi⟩
            · rintro (h | ⟨g, hg, hgi⟩)
              · exact Or.inl (Or.inl h)
              · rcases List.mem_cons.mp hg with rfl | hg
                · exact Or.inl (Or.inr (by omega))
                · exact Or.inr ⟨g, hg, hgi⟩
          · rw [hsilent, List.map_cons, List.nodup_cons, List.forall_mem_cons]
            have hother : ∀ g ∈ fields,
                ((marks.set k true)[(s.store.fieldIndex g.id).toNat]? = some false
                  ↔ s.store.fieldIndex g.id ≠ k
                    ∧ marks[(s.store.fieldIndex g.id).toNat]? = some false) := by
              intro g hg
              have hg0 := (hrest g hg).1
              rw [List.getElem?_set]
              by_cases hkg : k = (s.store.fieldIndex g.id).toNat
              · have hgk : s.store.fieldIndex g.id = k := by omega
                simp [hgk, hlt']
              · have hgk : s.store.fieldIndex g.id ≠ k := by omega
                simp [hkg, hgk]
            constructor
            · rintro ⟨hnodup, hfalse⟩
              refine ⟨⟨?_, hnodup⟩, by rw [hk, Int.toNat_natCast, hget], fun g hg =>
                ((hother g hg).mp (hfalse g hg)).2⟩
              intro hmem
              obtain ⟨g, hg, hgk⟩ := List.mem_map.mp hmem
              exact ((hother g hg).mp (hfalse g hg)).1 (hgk.trans hk)
            · rintro ⟨⟨hfresh, hnodup⟩, -, hfalse⟩
              refine ⟨hnodup, fun g hg => (hother g hg).mpr ⟨fun hgk => hfresh ?_, hfalse g hg⟩⟩
              rw [hk, ← hgk]
              exact List.mem_map_of_mem hg

/-- The loop over the fields of the struct reports those without a mark and a default. -/
theorem validateFields_run (location : Location) (members : List (FieldDecl × Option Ast))
    (marks : List Bool) (s : Typeck) (hlength : marks.length = members.length) :
    ∃ errors,
      validateFields location members marks s
          = .ok ((), { s with output := s.output ++ errors })
        ∧ (errors = [] ↔ ∀ (i : Nat) field, members[i]? = some field →
            marks[i]? ≠ some true → field.2.isSome = true) := by
  induction members generalizing marks s with
  | nil => exact ⟨[], by simp [validateFields]; rfl, by simp⟩
  | cons member members ih =>
      cases marks with
      | nil => simp at hlength
      | cons mark marks =>
          have hlength' : marks.length = members.length := Nat.succ.inj hlength
          -- The first field, and the others one place further.
          have hsplit : (∀ (i : Nat) field, (member :: members)[i]? = some field →
                (mark :: marks)[i]? ≠ some true → field.2.isSome = true)
              ↔ (mark ≠ true → member.2.isSome = true)
                ∧ ∀ (i : Nat) field, members[i]? = some field → marks[i]? ≠ some true →
                    field.2.isSome = true := by
            constructor
            · intro h
              refine ⟨fun hmark => h 0 member rfl (by simpa using hmark), fun i field hf hm => ?_⟩
              exact h (i + 1) field hf hm
            · rintro ⟨hfirst, hrest⟩ i field hf hm
              cases i with
              | zero =>
                  rw [List.getElem?_cons_zero, Option.some.injEq] at hf
                  rw [← hf]
                  exact hfirst (by simpa using hm)
              | succ i => exact hrest i field hf hm
          by_cases hreport : (!mark && member.2.isNone) = true
          · let e : Diagnostic :=
              ⟨location, "Field ".toList ++ member.1.name
                ++ " does not have an initializer".toList⟩
            obtain ⟨errors, hrun, -⟩ := ih marks { s with output := s.output ++ [e] } hlength'
            refine ⟨e :: errors, ?_, ?_⟩
            · have hstep : validateFields location (member :: members) (mark :: marks) s
                  = validateFields location members marks
                      { s with output := s.output ++ [e] } := by
                simp only [validateFields, hreport, if_true]
                exact run_bind_ok rfl
              rw [hstep, hrun, List.append_assoc]
              rfl
            · rw [hsplit]
              simp only [Bool.and_eq_true, Bool.not_eq_true'] at hreport
              obtain ⟨hmark, hnone⟩ := hreport
              have hnone' : member.2 = none := Option.isNone_iff_eq_none.mp hnone
              simp [hmark, hnone']
          · obtain ⟨errors, hrun, hsilent⟩ := ih marks s hlength'
            refine ⟨errors, ?_, ?_⟩
            · rw [← hrun]
              simp only [validateFields, hreport]
              rfl
            · rw [hsplit, hsilent]
              have hfirst : mark ≠ true → member.2.isSome = true := by
                intro hmark
                cases hdefault : member.2 with
                | none => simp [hmark, hdefault] at hreport
                | some e => rfl
              exact (and_iff_right hfirst).symm

/-- **The check of a literal** whose fields are resolved. It reports nothing exactly when
the literal is complete. -/
theorem validateLiteralStruct_silent_iff {program : Program} (s : Typeck) (n : Node)
    (literal : Ast) (fields : List FieldRef) {node : InstanceNode} {tyargs : List Ty} {d : DefId}
    {tydef : TyDef}
    (htype : s.store.astType literal.node.id = some (.inst node tyargs (.struct d)))
    (hdef : program.tyDef d = some tydef)
    (hvalid : ∀ f ∈ fields, 0 ≤ s.store.fieldIndex f.id
      ∧ s.store.fieldIndex f.id < tydef.fields.length) :
    ∃ errors, validateLiteralStruct program n literal fields s
        = .ok ((), { s with output := s.output ++ errors })
      ∧ (errors = [] ↔ LiteralComplete (fields.map fun f => s.store.fieldIndex f.id)
          tydef.fields) := by
  have hunmarked : ∀ {i : Nat}, i < tydef.fields.length →
      (tydef.fields.map fun _ => false)[i]? = some false := by
    intro i hi
    rw [List.getElem?_map, List.getElem?_eq_getElem hi]
    rfl
  -- First each initializer marks its field, and reports a second one.
  obtain ⟨marks, errors, hrun, hlength, hmarks, hsilent⟩ :=
    validateInitializers_run fields (tydef.fields.map fun _ => false) s (by simpa using hvalid)
  -- Then each field that is not marked needs a default.
  obtain ⟨errors', hrun', hsilent'⟩ := validateFields_run n.location tydef.fields marks
    { s with output := s.output ++ errors } (by simpa using hlength)
  have hastType : astType literal s = .ok (.inst node tyargs (.struct d), s) := by
    simp only [astType]
    rw [run_bind_get]
    simp only [htype]
    rfl
  refine ⟨errors ++ errors', ?_, ?_⟩
  · simp only [validateLiteralStruct]
    rw [run_bind_ok hastType]
    simp only [hdef]
    rw [run_bind_ok hrun, hrun', List.append_assoc]
  · rw [List.append_eq_nil_iff, hsilent, hsilent', LiteralComplete, and_assoc]
    refine and_congr_right fun _ => ?_
    have hfirst : ∀ f ∈ fields, (tydef.fields.map fun _ => false)[(s.store.fieldIndex f.id).toNat]?
        = some false := by
      intro f hf
      have := hvalid f hf
      exact hunmarked (by omega)
    rw [and_iff_right hfirst]
    refine forall₂_congr fun i field => ?_
    refine imp_congr_right fun hfield => imp_congr_left ?_
    have hnone := hunmarked (List.getElem?_eq_some_iff.mp hfield).1
    rw [ne_eq, hmarks i, hnone]
    simp [eq_comm]

end Typeck

/-- **Struct literals.** Take a literal of a struct whose fields are resolved. The check
reports nothing exactly when the literal is complete, and the lowering of a complete literal
asserts nothing that fails: it inserts values into an undefined value of the type of the
struct, one for every field, from the literal where the literal has the field and from the
default elsewhere. -/
theorem literalStruct_complete (cx : CodegenContext)
    (codegenExpr : Ast → CodegenKind → CodegenM Value) (s : Typeck) (n : Node) (name : Str)
    (fields : List (FieldRef × Ast)) (node : InstanceNode) (tyargs : List Ty) (d : DefId)
    (tydef : TyDef) (hstore : s.store = cx.store)
    (htype : cx.store.astType n.id = some (.inst node tyargs (.struct d)))
    (hdef : cx.program.tyDef d = some tydef)
    (hvalid : ∀ f ∈ fields, 0 ≤ cx.store.fieldIndex f.1.id
      ∧ cx.store.fieldIndex f.1.id < tydef.fields.length) :
    (∃ errors, Typeck.validateLiteralStruct cx.program n (.literalStruct n name fields)
          (fields.map Prod.fst) s = .ok ((), { s with output := s.output ++ errors })
        ∧ (errors = [] ↔
          LiteralComplete (fields.map fun f => cx.store.fieldIndex f.1.id) tydef.fields))
      ∧ (LiteralComplete (fields.map fun f => cx.store.fieldIndex f.1.id) tydef.fields →
          codegenLiteralStruct cx codegenExpr n fields = (do
              let type ← codegenType cx cx.fuel (.inst node tyargs (.struct d))
              insertAll codegenExpr ⟨type, .undef⟩
                (literalPlan (fun f => cx.store.fieldIndex f.id) fields tydef.fields))
            ∧ ((literalPlan (fun f => cx.store.fieldIndex f.id) fields tydef.fields).map
                Prod.fst).Perm (List.range tydef.fields.length)
            ∧ ∀ i expr,
                (i, expr) ∈ literalPlan (fun f => cx.store.fieldIndex f.id) fields tydef.fields →
                (∃ f ∈ fields, cx.store.fieldIndex f.1.id = i ∧ f.2 = expr)
                  ∨ (∃ field, tydef.fields[i]? = some field ∧ field.2 = some expr
                    ∧ ∀ f ∈ fields, cx.store.fieldIndex f.1.id ≠ i)) := by
  constructor
  · obtain ⟨store, constraints, output⟩ := s
    have hstore' : store = cx.store := hstore
    subst hstore'
    have hsilent := Typeck.validateLiteralStruct_silent_iff ⟨cx.store, constraints, output⟩ n
      (.literalStruct n name fields) (fields.map Prod.fst) htype hdef (by simpa using hvalid)
    rw [List.map_map] at hsilent
    exact hsilent
  · intro hcomplete
    refine ⟨codegenLiteralStruct_eq htype hdef hvalid hcomplete,
      literalPlan_perm hvalid hcomplete, fun i expr hmem => ?_⟩
    -- Defaults come first in the plan, and the initializers after them.
    rcases mem_literalPlan.mp hmem with ⟨field, hfield, hnot, hexpr⟩ | ⟨f, hf, hfi, hexpr⟩
    · exact Or.inr ⟨field, hfield, hexpr, hnot⟩
    · have := (hvalid f hf).1
      exact Or.inl ⟨f, hf, by omega, hexpr⟩

/-! ### A struct with a default -/

/-- `struct Foo` with the fields `x: int` and `y: int = 5`. -/
def fooStruct : TyDef where
  tyargs := []
  fields := [({ name := ['x'] }, none), ({ name := ['y'] }, some (.literalInteger ⟨2, {}⟩ 5))]

/-- The literal `Foo { x = 1 }` on the node 0, after its field was resolved. -/
def fooContext : CodegenContext where
  program := { tyDef := fun d => if d = 0 then some fooStruct else none }
  store :=
    { nodeType := fun n => if n = 0 then some (.inst ⟨"Foo".toList, {}, 1⟩ [] (.struct 0)) else none
      fieldIndex := fun _ => 0 }
  fuel := 10
  parseAssemblyInto := fun functions _ => .ok functions

/-- The literal has `y` from its default and then `x` from its own expression. -/
theorem literalStruct_complete_foo :
    ((literalPlan (fun f => fooContext.store.fieldIndex f.id)
        [(⟨0, ['x'], {}⟩, .literalInteger ⟨1, {}⟩ 1)] fooStruct.fields).map Prod.fst).Perm
      (List.range 2) := by
  have hcomplete : LiteralComplete ([((⟨0, ['x'], {}⟩ : FieldRef),
      Ast.literalInteger ⟨1, {}⟩ 1)].map fun f => fooContext.store.fieldIndex f.1.id)
      fooStruct.fields := by
    refine ⟨by simp, fun i field hfield hnot => ?_⟩
    match i with
    | 0 => simp [fooContext] at hnot
    | 1 =>
        rw [← Option.some.inj hfield]
        rfl
    | i + 2 => simp [fooStruct] at hfield
  exact ((literalStruct_complete fooContext (fun _ _ => throw .assertion)
    { store := fooContext.store, constraints := none } ⟨0, {}⟩ "Foo".toList
    [(⟨0, ['x'], {}⟩, .literalInteger ⟨1, {}⟩ 1)] ⟨"Foo".toList, {}, 1⟩ [] 0 fooStruct
    rfl rfl rfl (by simp [fooContext, fooStruct])).2 hcomplete).2.1

end Aike
