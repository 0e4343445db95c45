import Aike.Proofs.Solution
import Aike.Proofs.Unify.Acyclic

/-!
# `Aike.Proofs.Unify.Solve`: what a run of unification stands for

A choice of a type without `Unknown`s for every `Unknown` solves a pair of types when
both sides stand for the same type under it (`Solves`).

* `ground_eq_of_leafPairs` and `solves_leafPairs`: a pair and its leaf pairs have the
  same solutions, `Ty.Clash` is when they have none whatever the bindings are.
* `unifyRun_forced`: what solves the pairs of a run agrees with every binding it
  records, whatever the answers are, so `rewrite` puts in nothing that is not forced.
-/

set_option autoImplicit false

namespace Aike

/-- The type that `t` stands for under a choice for the `Unknown`s. -/
def Ty.ground (θ : UnknownId → GroundTy) (t : Ty) : GroundTy :=
  t.denote [] (fun _ => .node .void []) θ

namespace Ty

variable (θ : UnknownId → GroundTy)

/-- A tuple stands for the tuple of what its fields stand for. -/
theorem ground_tuple (fields : List Ty) :
    (Ty.tuple fields).ground θ = .node .tuple (fields.map (Ty.ground θ)) := by
  simp only [ground, denote, denoteAll_eq_map]
  rfl

/-- An array stands for the array of what its elements stand for. -/
theorem ground_array (element : Ty) :
    (Ty.array element).ground θ = .node .array [element.ground θ] := by
  simp only [ground, denote]

/-- A pointer stands for the pointer to what it points to. -/
theorem ground_pointer (element : Ty) :
    (Ty.pointer element).ground θ = .node .pointer [element.ground θ] := by
  simp only [ground, denote]

/-- A function stands for the function of what its parameters and its result stand for. -/
theorem ground_function (args : List Ty) (ret : Ty) (varargs : Bool) :
    (Ty.function args ret varargs).ground θ
      = .node (.function varargs) (args.map (Ty.ground θ) ++ [ret.ground θ]) := by
  simp only [ground, denote, denoteAll_eq_map]
  rfl

/-- An instance stands for the instance of the same target, with what its type arguments
stand for. Where it was written does not matter. -/
theorem ground_inst (node : InstanceNode) (tyargs : List Ty) (target : TyTarget) :
    (Ty.inst node tyargs target).ground θ
      = .node (.inst target) (tyargs.map (Ty.ground θ)) := by
  cases target <;> simp [ground, denote, denoteAll_eq_map]

end Ty

/-- The choice makes both sides of every pair the same type. -/
def Solves (θ : UnknownId → GroundTy) (pairs : List (Ty × Ty)) : Prop :=
  ∀ p ∈ pairs, p.1.ground θ = p.2.ground θ

/-- The choice agrees with every binding. -/
def TypeConstraints.Respects (c : TypeConstraints) (θ : UnknownId → GroundTy) : Prop :=
  ∀ u t, c.find u = some t → θ u = t.ground θ

section Ground

variable {θ : UnknownId → GroundTy} {c : TypeConstraints} {l r t : Ty}

/-- A known type stands for its head over what its parts stand for. The five lemmas before
are its cases. -/
theorem ground_known (h : t.isUnknown = false) :
    ∃ head, t.head = some head ∧ t.ground θ = .node head (t.parts.map (Ty.ground θ)) :=
  Ty.denote_known h (Ty.isOwn_nil t)

/-- A type stands for what its `Unknown`s make of it. -/
theorem ground_congr {θ' : UnknownId → GroundTy} (t : Ty) :
    (∀ v, typeOccurs t v = true → θ v = θ' v) → t.ground θ = t.ground θ' := by
  induction t using Ty.partsInduction with
  | unknown u =>
      intro h
      exact h u (by simp [typeOccurs])
  | known t hk ih =>
      intro h
      obtain ⟨head, hhead, hground⟩ := ground_known (θ := θ) hk
      obtain ⟨head', hhead', hground'⟩ := ground_known (θ := θ') hk
      have hsame : head' = head := Option.some.inj (hhead'.symm.trans hhead)
      have hparts : t.parts.map (Ty.ground θ) = t.parts.map (Ty.ground θ') :=
        List.map_congr_left fun s hs => ih s hs fun v hv =>
          h v (TypeConstraints.occurs_of_mem_parts hs hv)
      rw [hground, hground', hsame, hparts]

/-- To stop nowhere is to stop at the type parameters of no function. -/
theorem noStop_eq : noStop = Ty.isOwn [] := funext fun t => (Ty.isOwn_nil t).symm

/-- What solves the leaf pairs of two types solves the two types. -/
theorem ground_eq_of_leafPairs (l : Ty) {r : Ty} (h : Solves θ (leafPairs noStop l r)) :
    l.ground θ = r.ground θ := by
  rw [noStop_eq] at h
  exact denote_eq_of_leafPairs l h

/-- What solves two types solves their leaf pairs. -/
theorem solves_leafPairs (h : l.ground θ = r.ground θ) : Solves θ (leafPairs noStop l r) := by
  rw [noStop_eq]
  exact fun p hp => denote_eq_of_mem_leafPairs l h hp

/-- Two types that nothing makes one: the walk over them meets two known types that do
not match, or an `Unknown` and a known type that contains it. -/
def Ty.Clash (l r : Ty) : Prop :=
  ∃ p ∈ leafPairs noStop l r,
    (p.1.isUnknown = false ∧ p.2.isUnknown = false)
      ∨ ∃ u t, (p = (.unknown u, t) ∨ p = (t, .unknown u)) ∧ t.isUnknown = false
          ∧ typeOccurs t u = true

/-- A leaf pair of two known types has no solution. -/
theorem ground_ne_of_clash (hl : l.isUnknown = false) (hr : r.isUnknown = false)
    (hm : ¬ l.Matches r) : l.ground θ ≠ r.ground θ :=
  denote_ne_of_not_matches hl hr (Ty.isOwn_nil l) hm

/-- An `Unknown` is no type that contains it. -/
theorem ground_ne_of_occurs {u : UnknownId} (hk : t.isUnknown = false)
    (hocc : typeOccurs t u = true) : t.ground θ ≠ θ u :=
  denote_ne_of_occurs hk (Ty.not_appliesOwn_nil t) hocc

/-- Two types that clash stand for different types under every choice. -/
theorem Ty.Clash.ground_ne (h : l.Clash r) : l.ground θ ≠ r.ground θ := by
  intro heq
  obtain ⟨p, hp, hclash⟩ := h
  have hsol : p.1.ground θ = p.2.ground θ := solves_leafPairs heq p hp
  rcases hclash with ⟨hl, hr⟩ | ⟨u, t, rfl | rfl, hk, hocc⟩
  · have hm : ¬ p.1.Matches p.2 := by
      rcases isLeaf_of_mem_leafPairs l hp with ⟨hunk, -⟩ | ⟨-, -, hstop⟩
      · simp [hl, hr] at hunk
      · simpa [noStop] using hstop
    exact ground_ne_of_clash hl hr hm hsol
  · exact ground_ne_of_occurs hk hocc hsol.symm
  · exact ground_ne_of_occurs hk hocc hsol

end Ground

/-! ### Nothing is recorded that is not forced -/

section Forced

variable {θ : UnknownId → GroundTy} {c : TypeConstraints} {l r : Ty}

/-- The five ways to record a binding record what the pair says. -/
theorem TypeConstraints.Records.forced {u : UnknownId} {t : Ty} (h : c.Records l r u t)
    (hc : c.Respects θ) (heq : l.ground θ = r.ground θ) : θ u = t.ground θ := by
  cases h with
  | fresh => exact heq
  | copyRight _ hr => exact heq.trans (hc _ _ hr)
  | copyLeft hl _ => exact heq.symm.trans (hc _ _ hl)
  | known => exact heq
  | knownSwapped => exact heq.symm

/-- A call of `tryAdd` records only what follows: a choice that agrees with the bindings
and makes the two types the same agrees with the new binding as well. -/
theorem respects_tryAdd (hc : c.Respects θ) (heq : l.ground θ = r.ground θ) :
    (c.tryAdd l r).2.Respects θ := by
  by_cases h : ∃ u t, c.Records l r u t
  · obtain ⟨u, t, hrec⟩ := h
    rw [hrec.tryAdd]
    intro v s hfind
    rw [TypeConstraints.find_insert] at hfind
    split at hfind
    · next hv =>
      rw [hv, ← Option.some.inj hfind]
      exact hrec.forced hc heq
    · exact hc v s hfind
  · simp only [not_exists] at h
    rw [TypeConstraints.tryAdd_of_not_records h]
    exact hc

/-- So does every choice that makes the pairs of a call the same. The induction is over
the pairs. -/
theorem respects_unifyPairs {ps : List (Ty × Ty)} (hleaf : ∀ p ∈ ps, IsLeaf noStop p.1 p.2)
    (hc : c.Respects θ) (hps : Solves θ ps) : (unifyPairs ps c).2.Respects θ := by
  induction ps generalizing c with
  | nil => exact hc
  | cons p ps ih =>
      have hstep := respects_tryAdd hc (hps p (by simp))
      rw [unifyPairs, typeUnify_leaf (hleaf p (by simp))]
      rcases hadd : c.tryAdd p.1 p.2 with ⟨_ | _, c'⟩ <;> rw [hadd] at hstep
      · exact hstep
      · exact ih (fun q hq => hleaf q (List.mem_cons_of_mem _ hq)) hstep
          fun q hq => hps q (List.mem_cons_of_mem _ hq)

/-- One call, whatever it answers. -/
theorem respects_typeUnify (hc : c.Respects θ) (heq : l.ground θ = r.ground θ) :
    (typeUnify l r c).2.Respects θ := by
  rw [typeUnify_eq_unifyPairs noStop l r c]
  exact respects_unifyPairs (fun p hp => isLeaf_of_mem_leafPairs l hp) hc (solves_leafPairs heq)

/-- So does every choice that makes the pairs of all calls of a run the same. -/
theorem respects_unifyRun {calls : List (Ty × Ty)} (hc : c.Respects θ) (hcalls : Solves θ calls) :
    (unifyRun calls c).Respects θ := by
  induction calls generalizing c with
  | nil => exact hc
  | cons p calls ih =>
      exact ih (respects_typeUnify hc (hcalls p (by simp)))
        fun q hq => hcalls q (List.mem_cons_of_mem _ hq)

/-- Every choice agrees with no bindings. -/
theorem respects_empty : ({} : TypeConstraints).Respects θ := by
  intro u t h
  simp [TypeConstraints.find] at h

end Forced

/-! ### What `rewrite` puts in -/

section Rewrite

variable {θ : UnknownId → GroundTy}

namespace TypeConstraints

/-- `rewrite` does not change what a type stands for under a choice that agrees with
the bindings. The induction is on the nested calls, over the three functions at once. -/
theorem Respects.rewrite_all (fuel : Nat) :
    (∀ (c : TypeConstraints) (t : Ty) t' c', c.Respects θ → c.rewrite fuel t = some (t', c') →
        t'.ground θ = t.ground θ ∧ c'.Respects θ)
      ∧ (∀ (c : TypeConstraints) (t : Ty) t' c', c.Respects θ →
        c.rewriteShape fuel t = some (t', c') → t'.ground θ = t.ground θ ∧ c'.Respects θ)
      ∧ (∀ (c : TypeConstraints) (ts : List Ty) ts' c', c.Respects θ →
        c.rewriteAll fuel ts = some (ts', c') →
        ts'.map (Ty.ground θ) = ts.map (Ty.ground θ) ∧ c'.Respects θ) := by
  induction fuel with
  | zero =>
      refine ⟨?_, ?_, ?_⟩ <;> intro c t t' c' _ h <;>
        simp [rewrite, rewriteShape, rewriteAll] at h
  | succ fuel ih =>
      obtain ⟨ihrw, ihshape, ihall⟩ := ih
      refine ⟨?_, ?_, ?_⟩
      · intro c t t' c' hc h
        cases t with
        | unknown u =>
            simp only [rewrite] at h
            split at h
            · next t hfind =>
              -- The binding that is followed is one the choice agrees with.
              have hcount : (⟨c.data, c.rewrites + 1⟩ : TypeConstraints).Respects θ := hc
              obtain ⟨hground, hc'⟩ := ihshape _ _ _ _ hcount h
              exact ⟨hground.trans (hc u t hfind).symm, hc'⟩
            · simp only [Option.some.injEq, Prod.mk.injEq] at h
              obtain ⟨rfl, rfl⟩ := h
              exact ⟨rfl, hc⟩
        | _ => exact ihshape _ _ _ _ hc h
      · intro c t t' c' hc h
        cases t with
        | tuple ts =>
            simp only [rewriteShape, Option.bind_eq_bind, Option.bind_eq_some_iff] at h
            obtain ⟨⟨ts', c₁⟩, hts, h⟩ := h
            obtain ⟨hground, hc₁⟩ := ihall _ _ _ _ hc hts
            cases h
            exact ⟨by simp only [Ty.ground_tuple, hground], hc₁⟩
        | array t =>
            simp only [rewriteShape, Option.bind_eq_bind, Option.bind_eq_some_iff] at h
            obtain ⟨⟨t₁, c₁⟩, ht, h⟩ := h
            obtain ⟨hground, hc₁⟩ := ihrw _ _ _ _ hc ht
            cases h
            exact ⟨by simp only [Ty.ground_array, hground], hc₁⟩
        | pointer t =>
            simp only [rewriteShape, Option.bind_eq_bind, Option.bind_eq_some_iff] at h
            obtain ⟨⟨t₁, c₁⟩, ht, h⟩ := h
            obtain ⟨hground, hc₁⟩ := ihrw _ _ _ _ hc ht
            cases h
            exact ⟨by simp only [Ty.ground_pointer, hground], hc₁⟩
        | function ts t v =>
            simp only [rewriteShape, Option.bind_eq_bind, Option.bind_eq_some_iff] at h
            obtain ⟨⟨ts', c₁⟩, hts, ⟨t₁, c₂⟩, ht, h⟩ := h
            obtain ⟨hgrounds, hc₁⟩ := ihall _ _ _ _ hc hts
            obtain ⟨hground, hc₂⟩ := ihrw _ _ _ _ hc₁ ht
            cases h
            exact ⟨by simp only [Ty.ground_function, hgrounds, hground], hc₂⟩
        | inst m ts d =>
            simp only [rewriteShape, Option.bind_eq_bind, Option.bind_eq_some_iff] at h
            obtain ⟨⟨ts', c₁⟩, hts, h⟩ := h
            obtain ⟨hground, hc₁⟩ := ihall _ _ _ _ hc hts
            cases h
            exact ⟨by simp only [Ty.ground_inst, hground], hc₁⟩
        | _ =>
            simp only [rewriteShape, Option.some.injEq, Prod.mk.injEq] at h
            obtain ⟨rfl, rfl⟩ := h
            exact ⟨rfl, hc⟩
      · intro c ts ts' c' hc h
        cases ts with
        | nil =>
            simp only [rewriteAll, Option.some.injEq, Prod.mk.injEq] at h
            obtain ⟨rfl, rfl⟩ := h
            exact ⟨rfl, hc⟩
        | cons t ts =>
            simp only [rewriteAll, Option.bind_eq_bind, Option.bind_eq_some_iff] at h
            obtain ⟨⟨t₁, c₁⟩, ht, ⟨ts₁, c₂⟩, hts, h⟩ := h
            obtain ⟨hground, hc₁⟩ := ihrw _ _ _ _ hc ht
            obtain ⟨hgrounds, hc₂⟩ := ihall _ _ _ _ hc₁ hts
            cases h
            exact ⟨by rw [List.map_cons, List.map_cons, hground, hgrounds], hc₂⟩

end TypeConstraints

end Rewrite

/-- **Unification records what is forced.** Start from no bindings and unify any
sequence of pairs, whatever the answers are. A choice for the `Unknown`s that solves
every pair agrees with every binding that is recorded, and `rewrite` does not change
what a type stands for under it. -/
theorem unifyRun_forced (calls : List (Ty × Ty)) (θ : UnknownId → GroundTy)
    (hsol : Solves θ calls) :
    (∀ u t, (unifyRun calls {}).find u = some t → θ u = t.ground θ)
      ∧ ∀ fuel t t' c', (unifyRun calls {}).rewrite fuel t = some (t', c') →
          t'.ground θ = t.ground θ := by
  have hrun : (unifyRun calls {}).Respects θ := respects_unifyRun respects_empty hsol
  constructor
  · exact hrun
  · intro fuel t t' c' h
    exact ((TypeConstraints.Respects.rewrite_all fuel).1 _ t t' c' hrun h).1

/-- `x` as an array of integers and `y` as an integer, which solves `x = [y]` and
`y = 1`. -/
def arrayChoice : UnknownId → GroundTy
  | 0 => .node .array [.node .integer []]
  | _ => .node .integer []

/-- The run of `x = [y]` and `y = 1` binds both to what they are in its solution. -/
theorem unifyRun_forced_array :
    (∀ u t, (unifyRun [(.unknown 0, .array (.unknown 1)), (.unknown 1, .integer)] {}).find u
        = some t → arrayChoice u = t.ground arrayChoice)
      ∧ ∀ fuel t t' c',
          (unifyRun [(.unknown 0, .array (.unknown 1)), (.unknown 1, .integer)] {}).rewrite fuel t
            = some (t', c') → t'.ground arrayChoice = t.ground arrayChoice := by
  refine unifyRun_forced _ arrayChoice fun p hp => ?_
  rcases List.mem_cons.mp hp with rfl | hp
  · rfl
  · rw [List.mem_singleton.mp hp]
    rfl

end Aike
