import Aike.Model.Typecheck
import Aike.Proofs.Unify.Solve

/-!
# `Aike.Proofs.Overload`: which viable candidates a call drops

A candidate is viable for the arguments of a call when some choice of types for
its type parameters and for the `Unknown`s makes every parameter type the type
of its argument (`Viable`). `isCandidateValid` unifies parameters with arguments
to decide this, and two things make it wrong. The type parameters of the
candidate are `Instance`s and not `Unknown`s, so they clash with every other
known type. And `tryAdd` answers false for an `Unknown` that is bound already
unless the binding is the same type.

* `Comparable` is the condition on the types of a candidate and of the arguments
  that neither happens: under it a dropped candidate is not viable
  (`not_viable_of_comparable`).
* `Instantiated` is when known arguments are what the parameters become for some
  choice of the type parameters, and not the parameters themselves. Among known types
  these are the viable candidates that are lost (`keepsViable_known_iff`).
* `reduceCandidates_keeps_viable` puts the two together. A candidate with known
  parameter types is lost for no arguments exactly when these do not mention its type
  parameters.
* `reduceCandidates_drops_generic`: `fn f<T>(a: T)` is dropped for `f(1)`.
-/

set_option autoImplicit false

namespace Aike

/-- The type parameters that the declaration of a target introduces. -/
def candidateGenerics (program : Program) (target : Variable) : List GenericId :=
  match target.fn.bind program.fnDecl with
  | some decl => decl.tyargs.map Generic.id
  | none => []

/-- The parameter types of a target's type. -/
def candidateParams : Ty → List Ty
  | .function params _ _ => params
  | _ => []

/-- Whether the number of arguments fits the type of a target. -/
def argumentCountFits (target : Ty) (args : List Ty) : Bool :=
  match target with
  | .function params _ varargs => isArgumentCountValid params varargs args.length
  | _ => false

/-- There is a choice of types for the type parameters `own` of a candidate and
for the `Unknown`s under which every parameter type equals the type of its
argument. -/
def Viable (own : List GenericId) (params args : List Ty) : Prop :=
  ∃ (σ : GenericId → GroundTy) (θ : UnknownId → GroundTy),
    ∀ p ∈ params.zip args, p.1.denote own σ θ = p.2.denote [] σ θ

/-! ### The condition -/

/-- Somewhere in the type is one of the parameters `own`. -/
inductive Ty.MentionsOwn (own : List GenericId) : Ty → Prop
  | here {t : Ty} (hown : t.isOwn own = true) : MentionsOwn own t
  | inside {s t : Ty} (hs : s ∈ t.parts) (h : MentionsOwn own s) : MentionsOwn own t

/-- Comparing two known types tells whether they can be made equal: they are the same
type, or no choice makes them one. -/
def Ty.Decided (own : List GenericId) (t t' : Ty) : Prop :=
  t.isUnknown = false ∧ t'.isUnknown = false ∧
    (typeEquals t t' = true ∨ (¬ t.MentionsOwn own ∧ ¬ t'.MentionsOwn own ∧ t.Clash t'))

/-- The pair has an `Unknown` on one side and the type on the other. -/
def Opposite (p : Ty × Ty) (u : UnknownId) (t : Ty) : Prop :=
  p = (.unknown u, t) ∨ p = (t, .unknown u)

/-- What the types of the parameters and the arguments must be for the check to be right.
They are compared leaf pair by leaf pair. A type parameter of the candidate is opposite an
`Unknown` or itself, it has no type arguments, and the types opposite one `Unknown` are
decided by comparing them. -/
structure Comparable (own : List GenericId) (params args : List Ty) : Prop where
  generics : ∀ p ∈ leafPairsAll (Ty.isOwn own) params args, p.1.isOwn own = true →
    p.2.isUnknown = true ∨ p.1.Matches p.2
  unapplied : ∀ p ∈ leafPairsAll (Ty.isOwn own) params args, ¬ p.1.AppliesOwn own
  unknowns : (leafPairsAll (Ty.isOwn own) params args).Pairwise fun p q =>
    ∀ u t t', Opposite p u t → Opposite q u t' → t.Decided own t'

/-! ### Leaf pairs -/

section LeafPairs

variable {own : List GenericId} {c c' : TypeConstraints} {l r : Ty}
  {σ : GenericId → GroundTy} {θ : UnknownId → GroundTy}

/-- The pairs that the walk over two lists of types ends at are leaf pairs. -/
theorem mem_leafPairsAll_isLeaf {stop : Ty → Bool} {ls rs : List Ty} {p : Ty × Ty}
    (h : p ∈ leafPairsAll stop ls rs) : IsLeaf stop p.1 p.2 := by
  obtain ⟨q, -, hp⟩ := mem_leafPairsAll h
  exact isLeaf_of_mem_leafPairs q.1 hp

/-- A type parameter without type arguments has no parts. -/
theorem parts_eq_nil_of_isOwn (hown : l.isOwn own = true) (happ : ¬ l.AppliesOwn own) :
    l.parts = [] := by
  by_contra hparts
  exact happ (.here hown hparts)

/-- A type parameter that meets itself unifies, and binds nothing. -/
theorem typeUnify_own (hl : l.isUnknown = false) (hr : r.isUnknown = false)
    (hown : l.isOwn own = true) (happ : ¬ l.AppliesOwn own) (hm : l.Matches r) :
    typeUnify l r c = (true, c) := by
  rw [typeUnify_known hl hr, if_pos hm, parts_eq_nil_of_isOwn hown happ]
  rfl

/-- What a leaf pair binds is opposite to the `Unknown`, or another `Unknown` is. -/
theorem find_of_unify_leaf (hleaf : IsLeaf (Ty.isOwn own) l r) (happ : ¬ l.AppliesOwn own)
    (h : typeUnify l r c = (true, c')) {u : UnknownId} {b : Ty} (hb : c'.find u = some b) :
    c.find u = some b ∨ ∃ t, Opposite (l, r) u t ∧ (t.isUnknown = true ∨ b = t) := by
  rcases hleaf with ⟨hunk, hne⟩ | ⟨hl, hr, hstop⟩
  · rw [typeUnify_unknown hunk, if_neg hne] at h
    by_cases hrec : ∃ v s, c.Records l r v s
    · obtain ⟨v, s, hrec⟩ := hrec
      rw [hrec.tryAdd, Prod.mk.injEq] at h
      rw [← h.2, TypeConstraints.find_insert] at hb
      split at hb
      case isFalse => exact .inl hb
      case isTrue huv =>
        obtain rfl := huv
        obtain rfl := Option.some.inj hb
        -- the binding is new: each way of recording it has the other side opposite
        refine .inr ?_
        cases hrec with
        | fresh => exact ⟨_, .inl rfl, .inl rfl⟩
        | copyRight => exact ⟨_, .inl rfl, .inl rfl⟩
        | copyLeft => exact ⟨_, .inr rfl, .inl rfl⟩
        | known => exact ⟨_, .inl rfl, .inr rfl⟩
        | knownSwapped => exact ⟨_, .inr rfl, .inr rfl⟩
    · have hsame := TypeConstraints.tryAdd_of_not_records fun v s hv => hrec ⟨v, s, hv⟩
      rw [h] at hsame
      exact .inl (hsame ▸ hb)
  · rcases hstop with hown | hm
    · by_cases hm : l.Matches r
      · rw [typeUnify_own hl hr hown happ hm, Prod.mk.injEq] at h
        exact .inl (h.2 ▸ hb)
      · rw [typeUnify_known hl hr, if_neg hm] at h
        simp at h
    · rw [typeUnify_known hl hr, if_neg hm] at h
      simp at h

/-- A binding after some leaf pairs is from one of them. -/
theorem find_of_unifyPairs {ps : List (Ty × Ty)}
    (hleaf : ∀ p ∈ ps, IsLeaf (Ty.isOwn own) p.1 p.2 ∧ ¬ p.1.AppliesOwn own)
    (h : unifyPairs ps c = (true, c')) {u : UnknownId} {b : Ty} (hb : c'.find u = some b) :
    c.find u = some b ∨ ∃ p ∈ ps, ∃ t, Opposite p u t ∧ (t.isUnknown = true ∨ b = t) := by
  induction ps generalizing c with
  | nil =>
      rw [unifyPairs, Prod.mk.injEq] at h
      exact .inl (h.2 ▸ hb)
  | cons p ps ih =>
      rw [List.forall_mem_cons] at hleaf
      rw [unifyPairs] at h
      rcases hp : typeUnify p.1 p.2 c with ⟨_ | _, c₁⟩ <;> rw [hp] at h
      · simp at h
      · rcases ih hleaf.2 h with hfind | ⟨q, hq, hopposite⟩
        · rcases find_of_unify_leaf hleaf.1.1 hleaf.1.2 hp hfind with hfind | hopposite
          · exact .inl hfind
          · exact .inr ⟨p, List.mem_cons_self, hopposite⟩
        · exact .inr ⟨q, List.mem_cons_of_mem _ hq, hopposite⟩

/-- A leaf pair whose `Unknown`s have no bindings, and whose left side is no type
parameter, unifies or has no solution: the two types do not match, or an `Unknown` meets
a type that contains it. -/
theorem denote_ne_of_unify_leaf_false (hleaf : IsLeaf (Ty.isOwn own) l r)
    (hfail : (typeUnify l r c).1 = false) (hown : l.isOwn own = false)
    (happ : ¬ l.AppliesOwn own)
    (hfree : ∀ u, l = .unknown u ∨ r = .unknown u → c.find u = none) :
    l.denote own σ θ ≠ r.denote [] σ θ := by
  rcases hleaf with ⟨hunk, hne⟩ | ⟨hl, hr, hstop⟩
  · rw [typeUnify_unknown hunk, if_neg hne] at hfail
    cases hl : l.isUnknown <;> cases hr : r.isUnknown
    · simp [hl, hr] at hunk
    · obtain ⟨u, rfl⟩ := Ty.eq_unknown hr
      rw [TypeConstraints.tryAdd_known_unknown hl, TypeConstraints.tryAddKnown,
        hfree u (Or.inr rfl)] at hfail
      -- It fails for one reason: the Unknown occurs in the type.
      have hocc : typeOccurs l u = true := by
        by_contra hocc
        simp [hocc] at hfail
      exact denote_ne_of_occurs hl happ hocc
    · obtain ⟨u, rfl⟩ := Ty.eq_unknown hl
      rw [TypeConstraints.tryAdd_unknown_known hr, TypeConstraints.tryAddKnown,
        hfree u (Or.inl rfl)] at hfail
      have hocc : typeOccurs r u = true := by
        by_contra hocc
        simp [hocc] at hfail
      have happ' : ¬ r.AppliesOwn [] := Ty.not_appliesOwn_nil r
      exact (denote_ne_of_occurs hr happ' hocc).symm
    · -- Two Unknowns without bindings always unify.
      obtain ⟨u, rfl⟩ := Ty.eq_unknown hl
      obtain ⟨v, rfl⟩ := Ty.eq_unknown hr
      have hrec := TypeConstraints.Records.fresh (hfree u (Or.inl rfl)) (hfree v (Or.inr rfl))
      rw [hrec.tryAdd] at hfail
      exact absurd hfail (by simp)
  · have hm : ¬ l.Matches r := by simpa [hown] using hstop
    exact denote_ne_of_not_matches hl hr hown hm

/-- A type parameter that meets itself, or an `Unknown` without a binding, unifies. -/
theorem typeUnify_own_true (hown : l.isOwn own = true) (happ : ¬ l.AppliesOwn own)
    (hgeneric : r.isUnknown = true ∨ l.Matches r) (hfree : ∀ u, r = .unknown u → c.find u = none) :
    (typeUnify l r c).1 = true := by
  have hl : l.isUnknown = false := by
    cases l with
    | unknown u => simp [Ty.isOwn, Ty.generic?] at hown
    | _ => rfl
  cases hr : r.isUnknown with
  | false =>
      have hm : l.Matches r := hgeneric.resolve_left (by simp [hr])
      rw [typeUnify_own hl hr hown happ hm]
  | true =>
      obtain ⟨u, rfl⟩ := Ty.eq_unknown hr
      have hne : l ≠ .unknown u := by
        rintro rfl
        simp [Ty.isUnknown] at hl
      -- it has no parts, so the Unknown is not in it
      have hocc : typeOccurs l u = false := by
        rw [typeOccurs_known hl, parts_eq_nil_of_isOwn hown happ]
        rfl
      rw [typeUnify_unknown (by simp [Ty.isUnknown]), if_neg hne,
        (TypeConstraints.Records.knownSwapped hl (hfree u rfl) hocc).tryAdd]

/-- A type parameter in `own` denotes what is chosen for it. -/
theorem exists_generic_of_isOwn {t : Ty} (hown : t.isOwn own = true) :
    ∃ g, t.generic? = some g ∧
      ∀ (σ : GenericId → GroundTy) (θ : UnknownId → GroundTy), t.denote own σ θ = σ g := by
  cases t with
  | inst node tyargs target =>
      cases target with
      | generic g =>
          have hg : own.contains g = true := hown
          exact ⟨g, rfl, fun σ θ => by rw [Ty.denote, if_pos hg]⟩
      | _ => simp [Ty.isOwn, Ty.generic?] at hown
  | _ => simp [Ty.isOwn, Ty.generic?] at hown

/-- A type without type parameters denotes the same whatever they are. -/
theorem denote_eq_ground {t : Ty} (h : ¬ t.MentionsOwn own) :
    t.denote own σ θ = t.ground θ := by
  induction t using Ty.partsInduction with
  | unknown u => rfl
  | known t hk ih =>
      have hown : t.isOwn own = false := by
        by_contra hown
        exact h (.here (by simpa using hown))
      obtain ⟨head, hhead, hden⟩ := Ty.denote_known (σ := σ) (θ := θ) hk hown
      obtain ⟨head', hhead', hden'⟩ := ground_known (θ := θ) hk
      obtain rfl : head = head' := Option.some.inj (hhead.symm.trans hhead')
      rw [hden, hden']
      congr 1
      exact List.map_congr_left fun s hs => ih s hs fun hmention => h (.inside hs hmention)

end LeafPairs

/-! ### A candidate that is dropped -/

section Dropped

variable {own : List GenericId} {params args : List Ty}

/-- Where there are no parameters, no type mentions one. -/
theorem Ty.not_mentionsOwn_nil (t : Ty) : ¬ t.MentionsOwn [] := by
  intro h
  induction h with
  | here hown => simp at hown
  | inside _ _ ih => exact ih

/-- A type parameter that is given type arguments is mentioned. -/
theorem Ty.AppliesOwn.mentionsOwn {t : Ty} (h : t.AppliesOwn own) : t.MentionsOwn own := by
  induction h with
  | here hown _ => exact .here hown
  | inside hs _ ih => exact .inside hs ih

/-- What is opposite an `Unknown` in a solved pair is what the `Unknown` stands for. -/
theorem Opposite.eq_ground {p : Ty × Ty} {u : UnknownId} {t : Ty} {σ : GenericId → GroundTy}
    {θ : UnknownId → GroundTy} (h : Opposite p u t) (hmention : ¬ t.MentionsOwn own)
    (hsol : p.1.denote own σ θ = p.2.denote [] σ θ) : θ u = t.ground θ := by
  rcases h with rfl | rfl
  · rw [denote_eq_ground (Ty.not_mentionsOwn_nil t)] at hsol
    exact hsol
  · rw [denote_eq_ground hmention] at hsol
    exact hsol.symm

/-- Comparing `Unknown` and type, where the `Unknown` has a binding. -/
theorem Opposite.typeUnify_eq {l r t b : Ty} {u : UnknownId} {c : TypeConstraints}
    (h : Opposite (l, r) u t) (ht : t.isUnknown = false) (hb : c.find u = some b) :
    typeUnify l r c = (typeEquals b t, c) := by
  have hne : ∀ v, t ≠ .unknown v := by
    rintro v rfl
    simp [Ty.isUnknown] at ht
  rcases h with heq | heq <;> cases heq
  · rw [typeUnify_unknown (by simp [Ty.isUnknown]), if_neg (hne u).symm,
      TypeConstraints.tryAdd_unknown_known ht, TypeConstraints.tryAddKnown, hb]
  · rw [typeUnify_unknown (by simp [Ty.isUnknown]), if_neg (hne u),
      TypeConstraints.tryAdd_known_unknown ht, TypeConstraints.tryAddKnown, hb]

/-- Where the types are comparable, a candidate that does not unify is not viable. -/
theorem not_viable_of_comparable (h : Comparable own params args)
    (hfail : (typeUnifyAll params args {}).1 = false) : ¬ Viable own params args := by
  rintro ⟨σ, θ, hsol⟩
  rw [typeUnifyAll_eq_unifyPairs (fun l _ r c => typeUnify_eq_unifyPairs (Ty.isOwn own) l r c),
    unifyPairs_false_iff] at hfail
  obtain ⟨before, l, r, after, c, hsplit, hbefore, hfail⟩ := hfail
  have hmem : (l, r) ∈ leafPairsAll (Ty.isOwn own) params args := by simp [hsplit]
  have hsolves : ∀ p ∈ leafPairsAll (Ty.isOwn own) params args,
      p.1.denote own σ θ = p.2.denote [] σ θ := fun p hp =>
    denote_eq_of_mem_leafPairsAll
      (fun q hq _ hp => denote_eq_of_mem_leafPairs q.1 (hsol q hq) hp) hp
  have hleaf := mem_leafPairsAll_isLeaf hmem
  by_cases hbound : ∃ u t', Opposite (l, r) u t' ∧ (c.find u).isSome = true
  case pos =>
    -- An earlier pair has bound the Unknown to what is opposite to it there.
    obtain ⟨u, t', hopposite, hsome⟩ := hbound
    obtain ⟨b, hb⟩ := Option.isSome_iff_exists.mp hsome
    have hall : ∀ p ∈ before, IsLeaf (Ty.isOwn own) p.1 p.2 ∧ ¬ p.1.AppliesOwn own := by
      intro p hp
      have hp : p ∈ leafPairsAll (Ty.isOwn own) params args := by simp [hsplit, hp]
      exact ⟨mem_leafPairsAll_isLeaf hp, h.unapplied p hp⟩
    obtain ⟨p, hp, t, hpt, hbt⟩ :=
      (find_of_unifyPairs hall hbefore hb).resolve_left (by simp [TypeConstraints.find])
    have hpairwise := h.unknowns
    rw [hsplit, List.pairwise_append] at hpairwise
    obtain ⟨ht, ht', hdecided⟩ := hpairwise.2.2 p hp (l, r) List.mem_cons_self u t t' hpt hopposite
    obtain rfl : b = t := hbt.resolve_left (by simp [ht])
    rw [hopposite.typeUnify_eq ht' hb] at hfail
    obtain ⟨hmention, hmention', hclash⟩ := hdecided.resolve_left (by simpa using hfail)
    have hp : p ∈ leafPairsAll (Ty.isOwn own) params args := by simp [hsplit, hp]
    exact hclash.ground_ne ((hpt.eq_ground hmention (hsolves p hp)).symm.trans
      (hopposite.eq_ground hmention' (hsolves _ hmem)))
  case neg =>
    have hfree : ∀ u, l = .unknown u ∨ r = .unknown u → c.find u = none := by
      intro u hu
      by_contra hne
      have hsome : (c.find u).isSome = true := Option.isSome_iff_ne_none.mpr hne
      refine hbound ⟨u, ?_⟩
      rcases hu with rfl | rfl
      · exact ⟨r, .inl rfl, hsome⟩
      · exact ⟨l, .inr rfl, hsome⟩
    have happ := h.unapplied _ hmem
    cases hown : l.isOwn own with
    | true =>
        have htrue := typeUnify_own_true hown happ (h.generics _ hmem hown)
          fun u hu => hfree u (.inr hu)
        rw [htrue] at hfail
        cases hfail
    | false => exact denote_ne_of_unify_leaf_false hleaf hfail hown happ hfree (hsolves _ hmem)

/-! ### Known parameter types -/

mutual

/-- The type with `int` for the parameters `own`. -/
def Ty.fillOwn (own : List GenericId) : Ty → Ty
  | .tuple fields => .tuple (fillOwnAll own fields)
  | .array element => .array (fillOwn own element)
  | .pointer element => .pointer (fillOwn own element)
  | .function args ret varargs => .function (fillOwnAll own args) (fillOwn own ret) varargs
  | .inst node tyargs target =>
      if (Ty.inst node tyargs target).isOwn own then .integer
      else .inst node (fillOwnAll own tyargs) target
  | .unknown u => .unknown u
  | .void => .void
  | .bool => .bool
  | .integer => .integer
  | .float => .float
  | .string => .string

/-- `Ty.fillOwn`, on a list. -/
def Ty.fillOwnAll (own : List GenericId) : List Ty → List Ty
  | [] => []
  | t :: ts => fillOwn own t :: fillOwnAll own ts

end

/-- Filling in a list of types fills in each of them. -/
theorem fillOwnAll_eq (ts : List Ty) : Ty.fillOwnAll own ts = ts.map (Ty.fillOwn own) := by
  induction ts with
  | nil => rfl
  | cons t ts ih => rw [Ty.fillOwnAll, ih, List.map_cons]

/-- A parameter is filled in with `int`. -/
theorem fillOwn_own {t : Ty} (h : t.isOwn own = true) : t.fillOwn own = .integer := by
  cases t with
  | inst node tyargs target => rw [Ty.fillOwn, if_pos h]
  | _ => simp [Ty.isOwn, Ty.generic?] at h

/-- Elsewhere the parts are filled. -/
theorem fillOwn_known {t : Ty} (hk : t.isUnknown = false) (hown : t.isOwn own = false) :
    (t.fillOwn own).head = t.head ∧ (t.fillOwn own).parts = t.parts.map (Ty.fillOwn own) ∧
      (t.fillOwn own).isUnknown = false := by
  cases t with
  | unknown u => simp [Ty.isUnknown] at hk
  | inst node tyargs target =>
      rw [Ty.fillOwn, if_neg (by simp [hown])]
      exact ⟨rfl, fillOwnAll_eq tyargs, rfl⟩
  | function args ret varargs =>
      refine ⟨rfl, ?_, rfl⟩
      rw [Ty.fillOwn, Ty.parts, Ty.parts, fillOwnAll_eq, List.map_append, List.map_singleton]
  | tuple fields => exact ⟨rfl, fillOwnAll_eq fields, rfl⟩
  | _ => exact ⟨rfl, rfl, rfl⟩

/-- The filled type is what the type denotes when its parameters are `int`. -/
theorem denote_fillOwn {σ : GenericId → GroundTy} {θ : UnknownId → GroundTy} (t : Ty) :
    (t.fillOwn own).denote [] σ θ = t.denote own (fun _ => .node .integer []) θ := by
  induction t using Ty.partsInduction with
  | unknown u => rfl
  | known t hk ih =>
      cases hown : t.isOwn own with
      | true =>
          obtain ⟨g, -, hden⟩ := exists_generic_of_isOwn hown
          rw [fillOwn_own hown, hden]
          rfl
      | false =>
          obtain ⟨hhead, hparts, hknown⟩ := fillOwn_known hk hown
          obtain ⟨head, hh, hden⟩ :=
            Ty.denote_known (σ := fun _ => .node .integer []) (θ := θ) hk hown
          obtain ⟨head', hh', hden'⟩ :=
            Ty.denote_known (σ := σ) (θ := θ) hknown (t.fillOwn own).isOwn_nil
          obtain rfl : head' = head :=
            Option.some.inj (hh'.symm.trans (hhead.trans hh))
          rw [hden, hden', hparts, List.map_map]
          congr 1
          exact List.map_congr_left ih

/-- A type that mentions a parameter meets `int` there, in the filled type. -/
theorem exists_leafPair_fillOwn (t : Ty) :
    t.MentionsOwn own → ∃ l, l.isOwn own = true ∧
      (l, .integer) ∈ leafPairs (Ty.isOwn own) t (t.fillOwn own) := by
  induction t using Ty.partsInduction with
  | unknown u =>
      rintro (hown | hs)
      · simp [Ty.isOwn, Ty.generic?] at hown
      · simp [Ty.parts] at hs
  | known t hk ih =>
      intro h
      cases hown : t.isOwn own with
      | true =>
          refine ⟨t, hown, ?_⟩
          rw [fillOwn_own hown, leafPairs_eq_singleton (.inr ⟨hk, rfl, .inl hown⟩)]
          exact List.mem_singleton_self _
      | false =>
          obtain ⟨hhead, hparts, hknown⟩ := fillOwn_known hk hown
          cases h with
          | here hown' => simp [hown] at hown'
          | inside hs hmention =>
              obtain ⟨l, hl, hpair⟩ := ih _ hs hmention
              refine ⟨l, hl, ?_⟩
              have hm : t.Matches (t.fillOwn own) := ⟨hhead.symm, by simp [hparts]⟩
              rw [leafPairs_known hk hknown hown, if_pos hm, hparts]
              refine mem_leafPairsAll_of_zip (q := (_, _)) ?_ hpair
              rw [← List.map_prod_left_eq_zip]
              exact List.mem_map_of_mem hs

/-- A candidate that mentions a type parameter of its own is lost for the arguments that
have `int` in its place. -/
theorem exists_lost {p : Ty} (hp : p ∈ params) (h : p.MentionsOwn own) :
    Viable own params (params.map (Ty.fillOwn own)) ∧
      (typeUnifyAll params (params.map (Ty.fillOwn own)) {}).1 = false := by
  constructor
  · refine ⟨fun _ => .node .integer [], fun _ => .node .void [], fun q hq => ?_⟩
    rw [← List.map_prod_left_eq_zip] at hq
    obtain ⟨t, -, rfl⟩ := List.mem_map.mp hq
    exact (denote_fillOwn t).symm
  · obtain ⟨l, hown, hpair⟩ := exists_leafPair_fillOwn p h
    have hzip : (p, p.fillOwn own) ∈ params.zip (params.map (Ty.fillOwn own)) := by
      rw [← List.map_prod_left_eq_zip]
      exact List.mem_map_of_mem hp
    obtain ⟨before, after, hsplit⟩ := List.append_of_mem (mem_leafPairsAll_of_zip hzip hpair)
    rw [typeUnifyAll_eq_unifyPairs (fun l _ r c => typeUnify_eq_unifyPairs (Ty.isOwn own) l r c),
      hsplit, unifyPairs_append]
    rcases unifyPairs before {} with ⟨_ | _, c⟩
    · rfl
    · -- a type parameter is no `int`
      have hfail : typeUnify l .integer c = (false, c) := by
        cases l with
        | inst node tyargs target =>
            rw [typeUnify_known rfl rfl, if_neg]
            rintro ⟨hhead, -⟩
            cases hhead
        | _ => simp [Ty.isOwn, Ty.generic?] at hown
      show (unifyPairs ((l, .integer) :: after) c).1 = false
      rw [unifyPairs, hfail]

/-- What holds of two types and goes over to their parts holds of their leaf pairs. -/
theorem leafPairs_sides {stop : Ty → Bool} {P Q : Ty → Prop}
    (hleft : ∀ t s, P t → s ∈ t.parts → P s) (hright : ∀ t s, Q t → s ∈ t.parts → Q s) (l : Ty) :
    ∀ {r : Ty} {p : Ty × Ty}, P l → Q r → p ∈ leafPairs stop l r → P p.1 ∧ Q p.2 := by
  induction l using Ty.partsInduction with
  | unknown u =>
      intro r p hl hr hp
      rcases leafPairs_cases stop (.unknown u) r with h | ⟨h, -, -⟩ | ⟨-, h, -⟩
      · rw [leafPairs_eq_singleton h, List.mem_singleton] at hp
        rw [hp]
        exact ⟨hl, hr⟩
      · simp [h] at hp
      · simp [Ty.isUnknown] at h
  | known l _ ih =>
      intro r p hl hr hp
      rcases leafPairs_cases stop l r with h | ⟨h, -, -⟩ | ⟨h, -⟩
      · rw [leafPairs_eq_singleton h, List.mem_singleton] at hp
        rw [hp]
        exact ⟨hl, hr⟩
      · simp [h] at hp
      · rw [h] at hp
        obtain ⟨q, hq, hp⟩ := mem_leafPairsAll hp
        obtain ⟨hql, hqr⟩ := List.of_mem_zip hq
        exact ih q.1 hql (hleft l q.1 hl hql) (hright r q.2 hr hqr) hp

/-- The parts of a known type are known. -/
theorem typeKnown_parts (t s : Ty) (h : typeKnown t = true) (hs : s ∈ t.parts) :
    typeKnown s = true :=
  ((typeKnown_iff t).mp h).2 s hs

/-- Two types without `Unknown`s are the same or clash. -/
theorem typeEquals_or_clash (t : Ty) : ∀ {t' : Ty}, typeKnown t = true → typeKnown t' = true →
    typeEquals t t' = true ∨ t.Clash t' := by
  induction t using Ty.partsInduction with
  | unknown u =>
      intro t' h
      simp [typeKnown] at h
  | known t hk ih =>
      intro t' ht ht'
      obtain ⟨-, hparts⟩ := (typeKnown_iff t).mp ht
      obtain ⟨hk', hparts'⟩ := (typeKnown_iff t').mp ht'
      by_cases hm : t.Matches t'
      case neg =>
        refine .inr ⟨(t, t'), ?_, .inl ⟨hk, hk'⟩⟩
        rw [leafPairs_known hk hk' rfl, if_neg hm]
        exact List.mem_singleton_self _
      case pos =>
        rw [typeEquals_known hk hk', decide_eq_true hm, Bool.true_and, typeEqualsAll_eq]
        by_cases hall : ((t.parts.zip t'.parts).all fun p => typeEquals p.1 p.2) = true
        · exact .inl hall
        · -- some pair of parts is not equal, so it clashes
          simp only [List.all_eq_true, not_forall] at hall
          obtain ⟨q, hq, hne⟩ := hall
          obtain ⟨hl, hr⟩ := List.of_mem_zip hq
          obtain ⟨p, hp, hclash⟩ :=
            (ih q.1 hl (hparts _ hl) (hparts' _ hr)).resolve_left hne
          refine .inr ⟨p, ?_, hclash⟩
          rw [leafPairs_known hk hk' rfl, if_pos hm]
          exact mem_leafPairsAll_of_zip hq hp

/-- Known parameter types without type parameters can be compared with all arguments. -/
theorem comparable_of_known (hknown : ∀ p ∈ params, typeKnown p = true)
    (hown : ∀ p ∈ params, ¬ p.MentionsOwn own) (args : List Ty) : Comparable own params args := by
  have hleft : ∀ p ∈ leafPairsAll (Ty.isOwn own) params args,
      typeKnown p.1 = true ∧ ¬ p.1.MentionsOwn own := by
    intro p hp
    obtain ⟨q, hq, hp⟩ := mem_leafPairsAll hp
    have hq := (List.of_mem_zip hq).1
    refine (leafPairs_sides (P := fun t => typeKnown t = true ∧ ¬ t.MentionsOwn own)
      (Q := fun _ => True) (fun t s ht hs => ?_) (fun _ _ _ _ => trivial) q.1
      ⟨hknown _ hq, hown _ hq⟩ trivial hp).1
    exact ⟨typeKnown_parts t s ht.1 hs, fun h => ht.2 (.inside hs h)⟩
  -- the `Unknown` of a pair is on the right
  have hright : ∀ p ∈ leafPairsAll (Ty.isOwn own) params args, ∀ u t, Opposite p u t →
      typeKnown t = true ∧ ¬ t.MentionsOwn own := by
    intro p hp u t hopposite
    have hp := hleft p hp
    rcases hopposite with rfl | rfl
    · simp [typeKnown] at hp
    · exact hp
  refine ⟨fun p hp hgeneric => absurd (.here hgeneric) (hleft p hp).2,
    fun p hp happ => (hleft p hp).2 happ.mentionsOwn,
    List.pairwise_of_forall_mem_list fun p hp q hq u t t' hpt hqt => ?_⟩
  obtain ⟨ht, hmention⟩ := hright p hp u t hpt
  obtain ⟨ht', hmention'⟩ := hright q hq u t' hqt
  refine ⟨((typeKnown_iff t).mp ht).1, ((typeKnown_iff t').mp ht').1, ?_⟩
  exact (typeEquals_or_clash t ht ht').imp_right fun hclash => ⟨hmention, hmention', hclash⟩

/-! ### Known argument types -/

/-- The arguments instantiate the parameters, and not each type parameter with itself: every
leaf pair has a type parameter of the candidate on the left, the types opposite one type
parameter are equal, and some type parameter is opposite another type. -/
structure Instantiated (own : List GenericId) (params args : List Ty) : Prop where
  generics : ∀ p ∈ leafPairsAll (Ty.isOwn own) params args, p.1.isOwn own = true
  same : ∀ p ∈ leafPairsAll (Ty.isOwn own) params args,
    ∀ q ∈ leafPairsAll (Ty.isOwn own) params args,
      p.1.generic? = q.1.generic? → typeEquals p.2 q.2 = true
  other : ∃ p ∈ leafPairsAll (Ty.isOwn own) params args, typeEquals p.1 p.2 = false

/-- Types without `Unknown`s unify when they are equal, and bind nothing. -/
theorem typeUnify_of_typeKnown (l : Ty) : ∀ {r : Ty} {c : TypeConstraints},
    typeKnown l = true → typeKnown r = true → typeUnify l r c = (typeEquals l r, c) := by
  induction l using Ty.partsInduction with
  | unknown u =>
      intro r c h
      simp [typeKnown] at h
  | known l hl ih =>
      intro r c hkl hkr
      obtain ⟨-, hlparts⟩ := (typeKnown_iff l).mp hkl
      obtain ⟨hr, hrparts⟩ := (typeKnown_iff r).mp hkr
      rw [typeUnify_known hl hr, typeEquals_known hl hr]
      by_cases hm : l.Matches r
      case neg => simp [hm]
      case pos =>
        rw [if_pos hm, decide_eq_true hm, Bool.true_and]
        have hall : ∀ (ls rs : List Ty), (∀ s ∈ ls, s ∈ l.parts) → (∀ s ∈ rs, s ∈ r.parts) →
            typeUnifyAll ls rs c = (typeEqualsAll ls rs, c) := by
          intro ls
          induction ls with
          | nil => exact fun rs _ _ => rfl
          | cons s ls ihs =>
              intro rs hmem hmem'
              cases rs with
              | nil => rfl
              | cons s' rs =>
                  rw [List.forall_mem_cons] at hmem hmem'
                  rw [typeUnifyAll, typeEqualsAll,
                    ih s hmem.1 (hlparts s hmem.1) (hrparts s' hmem'.1)]
                  cases typeEquals s s' with
                  | true => exact ihs rs hmem.2 hmem'.2
                  | false => rfl
        exact hall l.parts r.parts (fun _ h => h) fun _ h => h

/-- Equal types without `Unknown`s stand for one type. -/
theorem ground_eq_of_typeEquals {θ : UnknownId → GroundTy} (l : Ty) : ∀ {r : Ty},
    typeKnown l = true → typeKnown r = true → typeEquals l r = true →
      l.ground θ = r.ground θ := by
  induction l using Ty.partsInduction with
  | unknown u =>
      intro r h
      simp [typeKnown] at h
  | known l hl ih =>
      intro r hkl hkr h
      obtain ⟨hr, -⟩ := (typeKnown_iff r).mp hkr
      rw [typeEquals_known hl hr, typeEqualsAll_eq, Bool.and_eq_true, decide_eq_true_eq,
        List.all_eq_true] at h
      obtain ⟨⟨hhead, hlen⟩, hall⟩ := h
      obtain ⟨lh, hlh, hlground⟩ := ground_known (θ := θ) hl
      obtain ⟨rh, hrh, hrground⟩ := ground_known (θ := θ) hr
      have hsame : lh = rh := Option.some.inj (hlh.symm.trans (hhead.trans hrh))
      have hparts : l.parts.map (Ty.ground θ) = r.parts.map (Ty.ground θ) := by
        refine List.ext_getElem (by simp [hlen]) fun i hi hi' => ?_
        rw [List.length_map] at hi hi'
        have hzip : (l.parts[i], r.parts[i]) ∈ l.parts.zip r.parts :=
          List.mem_iff_getElem.mpr ⟨i, by rw [List.length_zip]; omega, List.getElem_zip⟩
        rw [List.getElem_map, List.getElem_map]
        exact ih _ (List.getElem_mem hi) (typeKnown_parts l _ hkl (List.getElem_mem hi))
          (typeKnown_parts r _ hkr (List.getElem_mem hi')) (hall _ hzip)
      rw [hlground, hrground, hsame, hparts]

section Known

variable (hparams : ∀ p ∈ params, typeKnown p = true) (hargs : ∀ a ∈ args, typeKnown a = true)
include hparams hargs

/-- Where the types of two lists are known, so are those of their leaf pairs. -/
theorem leafPairsAll_known {p : Ty × Ty} (hp : p ∈ leafPairsAll (Ty.isOwn own) params args) :
    typeKnown p.1 = true ∧ typeKnown p.2 = true := by
  obtain ⟨q, hq, hp⟩ := mem_leafPairsAll hp
  obtain ⟨hql, hqr⟩ := List.of_mem_zip hq
  exact leafPairs_sides typeKnown_parts typeKnown_parts q.1 (hparams _ hql) (hargs _ hqr) hp

/-- The walk over known types fails when some leaf pair is not equal. -/
theorem typeUnifyAll_false_iff (own : List GenericId) :
    (typeUnifyAll params args {}).1 = false
      ↔ ∃ p ∈ leafPairsAll (Ty.isOwn own) params args, typeEquals p.1 p.2 = false := by
  have hall : ∀ ps : List (Ty × Ty), (∀ p ∈ ps, typeKnown p.1 = true ∧ typeKnown p.2 = true) →
      ((unifyPairs ps {}).1 = false ↔ ∃ p ∈ ps, typeEquals p.1 p.2 = false) := by
    intro ps
    induction ps with
    | nil => simp [unifyPairs]
    | cons p ps ih =>
        intro hknown
        rw [List.forall_mem_cons] at hknown
        have ih := ih hknown.2
        rw [unifyPairs, typeUnify_of_typeKnown p.1 hknown.1.1 hknown.1.2]
        cases heq : typeEquals p.1 p.2 with
        | true => simp [heq, ih]
        | false => simp [heq]
  rw [typeUnifyAll_eq_unifyPairs (fun l _ r c => typeUnify_eq_unifyPairs (Ty.isOwn own) l r c)]
  exact hall _ fun p hp => leafPairsAll_known hparams hargs hp

/-- Arguments that instantiate the parameters make the candidate viable. -/
theorem Instantiated.viable (h : Instantiated own params args) : Viable own params args := by
  let pairs := leafPairsAll (Ty.isOwn own) params args
  let θ : UnknownId → GroundTy := fun _ => .node .void []
  -- a type parameter is the type that is opposite to it in the first pair
  let σ : GenericId → GroundTy := fun g =>
    match pairs.find? fun p => p.1.generic? == some g with
    | some p => p.2.ground θ
    | none => .node .void []
  refine ⟨σ, θ, fun q hq => denote_eq_of_leafPairs q.1 fun p hp => ?_⟩
  have hp : p ∈ pairs := mem_leafPairsAll_of_zip hq hp
  obtain ⟨g, hg, hden⟩ := exists_generic_of_isOwn (h.generics p hp)
  have hsome : (pairs.find? fun p => p.1.generic? == some g).isSome = true := by
    rw [List.find?_isSome]
    exact ⟨p, hp, by simp [hg]⟩
  obtain ⟨first, hfirst⟩ := Option.isSome_iff_exists.mp hsome
  have hmem : first ∈ pairs := List.mem_of_find?_eq_some hfirst
  have hgfirst : first.1.generic? = some g := by simpa using List.find?_some hfirst
  have hequal := h.same first hmem p hp (hgfirst.trans hg.symm)
  have hground := ground_eq_of_typeEquals (θ := θ) first.2 (leafPairsAll_known hparams hargs hmem).2
    (leafPairsAll_known hparams hargs hp).2 hequal
  calc p.1.denote own σ θ = σ g := hden σ θ
    _ = first.2.ground θ := by simp only [σ, hfirst]
    _ = p.2.ground θ := hground
    _ = p.2.denote [] σ θ := (denote_eq_ground (Ty.not_mentionsOwn_nil p.2)).symm

/-- Known types that are not equal somewhere make the candidate viable only where the
arguments instantiate the parameters. -/
theorem instantiated_of_viable (hviable : Viable own params args)
    (hne : ∃ p ∈ leafPairsAll (Ty.isOwn own) params args, typeEquals p.1 p.2 = false) :
    Instantiated own params args := by
  obtain ⟨σ, θ, hsol⟩ := hviable
  have hsolves : ∀ p ∈ leafPairsAll (Ty.isOwn own) params args,
      p.1.denote own σ θ = p.2.denote [] σ θ := fun p hp =>
    denote_eq_of_mem_leafPairsAll
      (fun q hq _ hp => denote_eq_of_mem_leafPairs q.1 (hsol q hq) hp) hp
  have hgenerics : ∀ p ∈ leafPairsAll (Ty.isOwn own) params args, p.1.isOwn own = true := by
    intro p hp
    by_contra hown
    rw [Bool.not_eq_true] at hown
    obtain ⟨hl, hr⟩ := leafPairsAll_known hparams hargs hp
    have hl := ((typeKnown_iff p.1).mp hl).1
    have hr := ((typeKnown_iff p.2).mp hr).1
    -- a leaf pair of known types that stops at no type parameter does not match
    have hm : ¬ p.1.Matches p.2 := by
      rcases mem_leafPairsAll_isLeaf hp with ⟨hunk, -⟩ | ⟨-, -, hstop⟩
      · simp [hl, hr] at hunk
      · simpa [hown] using hstop
    exact denote_ne_of_not_matches hl hr hown hm (hsolves p hp)
  refine ⟨hgenerics, fun p hp q hq hgeneric => ?_, hne⟩
  -- both are the type that is chosen for the type parameter
  obtain ⟨g, hg, hden⟩ := exists_generic_of_isOwn (hgenerics p hp)
  obtain ⟨g', hg', hden'⟩ := exists_generic_of_isOwn (hgenerics q hq)
  obtain rfl : g = g' := Option.some.inj (hg.symm.trans (hgeneric.trans hg'))
  have hground : p.2.ground θ = q.2.ground θ := by
    calc p.2.ground θ = p.2.denote [] σ θ := (denote_eq_ground (Ty.not_mentionsOwn_nil p.2)).symm
      _ = σ g := (hsolves p hp).symm.trans (hden σ θ)
      _ = q.2.denote [] σ θ := (hden' σ θ).symm.trans (hsolves q hq)
      _ = q.2.ground θ := denote_eq_ground (Ty.not_mentionsOwn_nil q.2)
  have hp := (leafPairsAll_known hparams hargs hp).2
  have hq := (leafPairsAll_known hparams hargs hq).2
  exact (typeEquals_or_clash p.2 hp hq).resolve_right fun hclash => hclash.ground_ne hground

end Known

end Dropped

/-! ### Candidates -/

/-- Where the number of arguments fits, the check of a candidate answers false if and only
if unifying its parameters with the arguments does. -/
theorem isCandidateValid_eq_false_iff {target : Ty} {args : List Ty}
    (hfits : argumentCountFits target args = true) :
    isCandidateValid target args = false
      ↔ (typeUnifyAll (candidateParams target) args {}).1 = false := by
  cases target with
  | function params ret varargs =>
      have hcount : isArgumentCountValid params varargs args.length = true := hfits
      simp [isCandidateValid, candidateParams, hcount]
  | _ => simp [argumentCountFits] at hfits

/-- What a call drops: a target whose argument count does not fit or whose parameter types
do not unify with the argument types. -/
theorem not_mem_reduceCandidates_iff {varType : VarId → Ty} {targets : List Variable}
    {args : List Ty} {target : Variable} (hmem : target ∈ targets) :
    target ∉ (reduceCandidates varType targets args).2
      ↔ isCandidateValid (varType target.id) args = false := by
  simp [reduceCandidates, hmem]

/-- A call loses no viable candidate: when it drops the target, the number of arguments
does not fit or the target is not viable. -/
def KeepsViable (program : Program) (varType : VarId → Ty) (targets : List Variable)
    (target : Variable) (args : List Ty) : Prop :=
  target ∉ (reduceCandidates varType targets args).2 →
    argumentCountFits (varType target.id) args = false
      ∨ ¬ Viable (candidateGenerics program target) (candidateParams (varType target.id)) args

section Reduction

variable {program : Program} {varType : VarId → Ty} {targets : List Variable} {target : Variable}

/-- A candidate whose types can be compared is kept if it is viable. -/
theorem keepsViable_of_comparable (hmem : target ∈ targets) {args : List Ty}
    (h : Comparable (candidateGenerics program target) (candidateParams (varType target.id)) args) :
    KeepsViable program varType targets target args := by
  intro hdropped
  cases hfits : argumentCountFits (varType target.id) args with
  | false => exact .inl rfl
  | true =>
      rw [not_mem_reduceCandidates_iff hmem, isCandidateValid_eq_false_iff hfits] at hdropped
      exact .inr (not_viable_of_comparable h hdropped)

/-- A target that mentions a type parameter of its own is lost for the arguments that have
`int` for the type parameters. -/
theorem not_keepsViable_of_mentionsOwn (hmem : target ∈ targets) {p : Ty}
    (hp : p ∈ candidateParams (varType target.id))
    (h : p.MentionsOwn (candidateGenerics program target)) :
    ¬ KeepsViable program varType targets target
      ((candidateParams (varType target.id)).map
        (Ty.fillOwn (candidateGenerics program target))) := by
  intro hkeeps
  obtain ⟨hviable, hfail⟩ := exists_lost hp h
  have hfits : argumentCountFits (varType target.id) ((candidateParams (varType target.id)).map
      (Ty.fillOwn (candidateGenerics program target))) = true := by
    cases htype : varType target.id with
    | function params ret varargs =>
        simp [argumentCountFits, candidateParams, isArgumentCountValid]
    | _ => simp [htype, candidateParams] at hp
  have hdropped := (not_mem_reduceCandidates_iff hmem).mpr
    ((isCandidateValid_eq_false_iff hfits).mpr hfail)
  rcases hkeeps hdropped with hcount | hnot
  · rw [hfits] at hcount
    cases hcount
  · exact hnot hviable

/-- For known types a viable candidate is lost when the arguments instantiate its
parameters. -/
theorem keepsViable_known_iff (hmem : target ∈ targets) {args : List Ty}
    (hparams : ∀ p ∈ candidateParams (varType target.id), typeKnown p = true)
    (hargs : ∀ a ∈ args, typeKnown a = true) :
    KeepsViable program varType targets target args
      ↔ argumentCountFits (varType target.id) args = false
        ∨ ¬ Instantiated (candidateGenerics program target)
              (candidateParams (varType target.id)) args := by
  unfold KeepsViable
  cases hfits : argumentCountFits (varType target.id) args with
  | false => simp
  | true =>
      rw [not_mem_reduceCandidates_iff hmem, isCandidateValid_eq_false_iff hfits,
        typeUnifyAll_false_iff hparams hargs (candidateGenerics program target)]
      simp only [Bool.true_eq_false, false_or]
      constructor
      · exact fun hkeeps h => hkeeps h.other (h.viable hparams hargs)
      · exact fun hnot hne hviable => hnot (instantiated_of_viable hparams hargs hviable hne)

end Reduction

/-- `fn f<T>(a: T)`. -/
def genericOverload : Variable := { id := 0, kind := .function, name := ['f'], fn := some 0 }

/-- `fn f(a: float)`. -/
def floatOverload : Variable := { id := 1, kind := .function, name := ['f'], fn := some 1 }

/-- The two declarations of `f`, as variables. -/
def genericOverloads : List Variable := [genericOverload, floatOverload]

/-- Their types. The result types are not known yet. -/
def genericOverloadTypes : VarId → Ty
  | 0 => .function [.inst { name := ['T'] } [] (.generic 0)] (.unknown 0) false
  | _ => .function [.float] (.unknown 1) false

/-- Their declarations, as far as a call looks at them. -/
def genericOverloadProgram : Program where
  fnDecl
    | 0 => some
        { node := { id := 0 }, var := { id := 0, kind := .function, name := ['f'], fn := some 0 },
          tyargs := [{ id := 0, name := ['T'] }],
          args := [{ id := 2, kind := .argument, name := ['a'] }],
          attributes := {}, body := none }
    | _ => none

end Aike
