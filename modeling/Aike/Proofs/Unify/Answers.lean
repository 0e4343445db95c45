import Aike.Proofs.Unify.Solve

/-!
# `Aike.Proofs.Unify.Answers`: what the answers of unification say

Two things make an answer of `typeUnify` differ from what the pairs asked so far say,
both in what `tryAdd` does at an `Unknown` that is bound already. It compares the binding
with the other side by `typeEquals`, which takes any two `Unknown`s for equal, and
otherwise refuses. And a binding may close a cycle, which no finite type can be.

* `answers_sound`: when every answer of a run is true the pairs have a solution, as long
  as no binding closes a cycle through a known type and no comparison passes over
  `Unknown`s that the bindings leave different (`Attempt.Consistent`).
* `unifyRun_unsound`: `x = [y]` and `x = [z]`, with `y` an integer and `z` a boolean.
* `answers_complete`: an answer is false only where the pairs so far have no solution, as
  long as no attempt is refused because of a binding that does not clash with what it
  meets (`Attempt.Blocked`).
* `unifyRun_incomplete`: `x = y` twice.
-/

set_option autoImplicit false

namespace Aike

open Relation

/-- What the calls of a run answer, in order. -/
def answers : List (Ty × Ty) → TypeConstraints → List Bool
  | [], _ => []
  | (l, r) :: calls, c => (typeUnify l r c).1 :: answers calls (typeUnify l r c).2

namespace TypeConstraints

/-- `u` is bound to the `Unknown` `v`. -/
def Aliases (c : TypeConstraints) (u v : UnknownId) : Prop := c.find u = some (.unknown v)

/-- The known type `t` is bound to `u`, or to an `Unknown` that `u` is bound to. -/
def StandsFor (c : TypeConstraints) (u : UnknownId) (t : Ty) : Prop :=
  ∃ v, ReflTransGen c.Aliases u v ∧ c.find v = some t ∧ t.isUnknown = false

/-- The known type that `u` stands for contains `v`. -/
def Above (c : TypeConstraints) (u v : UnknownId) : Prop :=
  ∃ t, c.StandsFor u t ∧ typeOccurs t v = true

/-- No `Unknown` stands for a type that leads back to it. A cycle of `Unknown`s that
are only bound to each other is no such thing. -/
def Layered (c : TypeConstraints) : Prop := Reach.Acyclic c.Above

end TypeConstraints

/-- A binding that the attempt records does not make an `Unknown` stand for a type that
leads back to it. -/
def Attempt.StaysLayered (a : Attempt) : Prop :=
  ∀ u t, a.constraints.Records a.lhs a.rhs u t → (a.constraints.insert u t).Layered

/-- The attempt meets the known type `r` at an `Unknown` that `t` is bound to, on either
side. -/
def Attempt.Compares (a : Attempt) (t r : Ty) : Prop :=
  r.isUnknown = false ∧ ∃ u, a.constraints.find u = some t
    ∧ ((a.lhs = .unknown u ∧ a.rhs = r) ∨ (a.lhs = r ∧ a.rhs = .unknown u))

/-- Where the comparison with a binding says that it is the same type, it passes over
no two `Unknown`s that the bindings so far leave different. -/
def Attempt.ComparesAll (a : Attempt) : Prop :=
  ∀ t r, a.Compares t r → typeEquals t r = true →
    ∀ p ∈ leafPairs noStop t r, ∀ θ, a.constraints.Respects θ → p.1.ground θ = p.2.ground θ

/-- The attempt neither closes a cycle nor passes over a difference. -/
def Attempt.Consistent (a : Attempt) : Prop := a.StaysLayered ∧ a.ComparesAll

/-- The attempt is refused because of a binding that does not clash with what it meets:
both sides are bound, one is bound to the other, or a known type meets an `Unknown` that
another type is bound to. -/
inductive Attempt.Blocked (a : Attempt) : Prop
  | bothBound {u v : UnknownId} {s t : Ty} (hl : a.lhs = .unknown u) (hr : a.rhs = .unknown v)
      (hu : a.constraints.find u = some s) (hv : a.constraints.find v = some t)
      (hclash : ¬ s.Clash t)
  | boundToOther {u v : UnknownId} (hu : a.constraints.find u = some (.unknown v))
      (hv : a.constraints.find v = none)
      (hsides : (a.lhs = .unknown u ∧ a.rhs = .unknown v)
        ∨ (a.lhs = .unknown v ∧ a.rhs = .unknown u))
  | compared {t r : Ty} (h : a.Compares t r) (hne : typeEquals t r = false)
      (hclash : ¬ t.Clash r)

/-! ### A choice that agrees with the bindings -/

namespace TypeConstraints

variable {c : TypeConstraints}

/-- A bound `Unknown` stands for the known type that is bound to it. -/
theorem standsFor_known {u : UnknownId} {t s : Ty} (hfind : c.find u = some t)
    (hk : t.isUnknown = false) : c.StandsFor u s ↔ s = t := by
  constructor
  · rintro ⟨v, huv, hv, -⟩
    rcases ReflTransGen.cases_head huv with rfl | ⟨w, hw, -⟩
    · exact Option.some.inj (hv.symm.trans hfind)
    · rw [Aliases, hfind, Option.some.injEq] at hw
      simp [hw, Ty.isUnknown] at hk
  · intro hs
    exact ⟨u, .refl, by rw [hs]; exact hfind, by rw [hs]; exact hk⟩

/-- An `Unknown` that is bound to another stands for what the other does. -/
theorem standsFor_alias {u v : UnknownId} (hfind : c.find u = some (.unknown v)) (s : Ty) :
    c.StandsFor u s ↔ c.StandsFor v s := by
  constructor
  · rintro ⟨w, huw, hw, hk⟩
    rcases ReflTransGen.cases_head huw with rfl | ⟨v', hv', hrest⟩
    · rw [hfind, Option.some.injEq] at hw
      simp [← hw, Ty.isUnknown] at hk
    · rw [Aliases, hfind, Option.some.injEq, Ty.unknown.injEq] at hv'
      rw [← hv'] at hrest
      exact ⟨w, hrest, hw, hk⟩
  · rintro ⟨w, hvw, hw, hk⟩
    exact ⟨w, .head hfind hvw, hw, hk⟩

/-- Only a bound `Unknown` stands for a type. -/
theorem finite_above (c : TypeConstraints) : Set.Finite {u | ∃ v, c.Above u v} := by
  refine (List.finite_toSet (c.data.map Prod.fst)).subset ?_
  rintro u ⟨v, t, ⟨w, huw, hw, -⟩, -⟩
  have hbound : ∃ s, c.find u = some s := by
    rcases ReflTransGen.cases_head huw with rfl | ⟨u', hu', -⟩
    · exact ⟨t, hw⟩
    · exact ⟨_, hu'⟩
  obtain ⟨s, hs⟩ := hbound
  obtain ⟨before, after, hdata, -⟩ := List.lookup_eq_some_iff.mp hs
  simp [hdata]

/-- Some choice agrees with all bindings when they have no cycle through a known type.
An `Unknown` is what the type it stands for is, and `void` when it stands for none. -/
theorem Layered.exists_respects (h : c.Layered) : ∃ θ, c.Respects θ := by
  classical
  have hwf := Reach.Acyclic.wellFounded h c.finite_above
  -- What an Unknown is depends on those above it only, and those are finitely many levels.
  let F (u : UnknownId) (θ : UnknownId → GroundTy) : GroundTy :=
    if hex : ∃ t, c.StandsFor u t then (Classical.choose hex).ground θ else .node .void []
  have hF : ∀ u θ θ', (∀ v, c.Above u v → θ v = θ' v) → F u θ = F u θ' := by
    intro u θ θ' hagree
    by_cases hex : ∃ t, c.StandsFor u t
    · simp only [F, dif_pos hex]
      exact ground_congr _ fun v hv => hagree v ⟨_, Classical.choose_spec hex, hv⟩
    · simp only [F, dif_neg hex]
  have : Inhabited GroundTy := ⟨.node .void []⟩
  obtain ⟨θ, hθ⟩ := Reach.exists_fixpoint hwf F hF
  refine ⟨θ, fun u t hfind => ?_⟩
  cases hk : t.isUnknown with
  -- An Unknown that stands for another one gets what that one gets.
  | true =>
      obtain ⟨v, rfl⟩ := Ty.eq_unknown hk
      have hsame : c.StandsFor u = c.StandsFor v :=
        funext fun s => propext (standsFor_alias hfind s)
      have huv : F u θ = F v θ := by simp only [F, hsame]
      show θ u = θ v
      rw [hθ u, hθ v, huv]
  | false =>
      have hex : ∃ s, c.StandsFor u s := ⟨t, (standsFor_known hfind hk).mpr rfl⟩
      have hchoose : Classical.choose hex = t :=
        (standsFor_known hfind hk).mp (Classical.choose_spec hex)
      rw [hθ u]
      simp only [F, dif_pos hex, hchoose]

/-- Where nothing is bound, no `Unknown` stands for a type. -/
theorem layered_empty : ({} : TypeConstraints).Layered := by
  intro u hu
  have hedge : ∃ v, ({} : TypeConstraints).Above u v := by
    cases hu using TransGen.head_induction_on with
    | single h => exact ⟨_, h⟩
    | head h _ _ => exact ⟨_, h⟩
  obtain ⟨v, t, ⟨w, -, hw, -⟩, -⟩ := hedge
  simp [find] at hw

/-- What agrees with the bindings after an attempt agreed with those before it. -/
theorem Respects.of_tryAdd {l r : Ty} {θ : UnknownId → GroundTy}
    (h : (c.tryAdd l r).2.Respects θ) : c.Respects θ := by
  by_cases hrec : ∃ u t, c.Records l r u t
  · obtain ⟨u, t, hrec⟩ := hrec
    rw [hrec.tryAdd] at h
    intro v s hfind
    refine h v s ?_
    rw [find_insert, if_neg, hfind]
    -- A key that is bound is not recorded again.
    intro hv
    rw [hv, hrec.find_none] at hfind
    simp at hfind
  · simp only [not_exists] at hrec
    rwa [tryAdd_of_not_records hrec] at h

end TypeConstraints

/-! ### One attempt -/

section Attempts

variable {c : TypeConstraints} {l r : Ty} {θ : UnknownId → GroundTy}

/-- What agrees with a recorded binding makes both sides one. -/
theorem TypeConstraints.Records.ground_eq {u : UnknownId} {t : Ty} (h : c.Records l r u t)
    (hθ : (c.insert u t).Respects θ) : l.ground θ = r.ground θ := by
  have hu : θ u = t.ground θ := hθ u t (by simp)
  have hold : c.Respects θ := TypeConstraints.Respects.of_tryAdd (by rw [h.tryAdd]; exact hθ)
  cases h with
  | fresh => exact hu
  | copyRight _ hr => exact hu.trans (hold _ _ hr).symm
  | copyLeft hl _ => exact (hold _ _ hl).trans hu.symm
  | known => exact hu
  | knownSwapped => exact hu.symm

/-- An `Unknown` that meets a known type is bound to it, compared with it, or contained
in it. -/
theorem tryAddKnown_cases {u : UnknownId} (hk : r.isUnknown = false) :
    c.Records (.unknown u) r u r
      ∨ (∃ t, c.find u = some t ∧ c.tryAddKnown u r = (typeEquals t r, c))
      ∨ (c.tryAddKnown u r = (false, c) ∧ typeOccurs r u = true) := by
  cases hfind : c.find u with
  | some t => exact Or.inr (Or.inl ⟨t, rfl, by simp [TypeConstraints.tryAddKnown, hfind]⟩)
  | none =>
      cases hocc : typeOccurs r u with
      | false => exact Or.inl (.known hk hfind hocc)
      | true =>
          exact Or.inr (Or.inr ⟨by simp [TypeConstraints.tryAddKnown, hfind, hocc], rfl⟩)

/-- An attempt that is answered with true records a binding or compares one. -/
theorem tryAdd_true_cases (h : (c.tryAdd l r).1 = true) :
    (∃ u t, c.Records l r u t)
      ∨ ∃ t s, (Attempt.mk c l r).Compares t s ∧ typeEquals t s = true := by
  -- For two known types the answer is no, which is not the case here.
  cases hl : l.isUnknown <;> cases hr : r.isUnknown
  · rw [TypeConstraints.tryAdd_known hl hr] at h
    simp at h
  · obtain ⟨v, rfl⟩ := Ty.eq_unknown hr
    rw [TypeConstraints.tryAdd_known_unknown hl] at h
    rcases tryAddKnown_cases (u := v) hl with hrec | ⟨t, hfind, heq⟩ | ⟨heq, -⟩
    · cases hrec with
      | fresh => simp [Ty.isUnknown] at hl
      | copyRight => simp [Ty.isUnknown] at hl
      | copyLeft => simp [Ty.isUnknown] at hl
      | known hk hfind hocc => exact Or.inl ⟨v, l, .knownSwapped hl hfind hocc⟩
      | knownSwapped => simp [Ty.isUnknown] at hl
    · rw [heq] at h
      exact Or.inr ⟨t, l, ⟨hl, v, hfind, Or.inr ⟨rfl, rfl⟩⟩, h⟩
    · rw [heq] at h
      simp at h
  · obtain ⟨u, rfl⟩ := Ty.eq_unknown hl
    rw [TypeConstraints.tryAdd_unknown_known hr] at h
    rcases tryAddKnown_cases (u := u) hr with hrec | ⟨t, hfind, heq⟩ | ⟨heq, -⟩
    · exact Or.inl ⟨u, r, hrec⟩
    · rw [heq] at h
      exact Or.inr ⟨t, r, ⟨hr, u, hfind, Or.inl ⟨rfl, rfl⟩⟩, h⟩
    · rw [heq] at h
      simp at h
  · obtain ⟨u, rfl⟩ := Ty.eq_unknown hl
    obtain ⟨v, rfl⟩ := Ty.eq_unknown hr
    refine Or.inl ?_
    cases hu : c.find u with
    | none =>
        cases hv : c.find v with
        | none => exact ⟨u, .unknown v, .fresh hu hv⟩
        | some t =>
            by_cases hne : t = .unknown u
            · simp [TypeConstraints.tryAdd, TypeConstraints.tryAddUnknowns, hu, hv, hne] at h
            · exact ⟨u, t, .copyRight hu hv hne⟩
    | some t =>
        cases hv : c.find v with
        | none =>
            by_cases hne : t = .unknown v
            · simp [TypeConstraints.tryAdd, TypeConstraints.tryAddUnknowns, hu, hv, hne] at h
            · exact ⟨v, t, .copyLeft hu hv hne⟩
        | some s => simp [TypeConstraints.tryAdd, TypeConstraints.tryAddUnknowns, hu, hv] at h

/-- **An attempt answered with true.** What agrees with the bindings after it makes both
sides one, if the comparison passes over no difference. -/
theorem ground_eq_of_tryAdd (h : (c.tryAdd l r).1 = true)
    (hcompares : (Attempt.mk c l r).ComparesAll) (hθ : (c.tryAdd l r).2.Respects θ) :
    l.ground θ = r.ground θ := by
  rcases tryAdd_true_cases h with ⟨u, t, hrec⟩ | ⟨t, s, hcmp, heq⟩
  · rw [hrec.tryAdd] at hθ
    exact hrec.ground_eq hθ
  · have hold : c.Respects θ := TypeConstraints.Respects.of_tryAdd hθ
    have hts : t.ground θ = s.ground θ :=
      ground_eq_of_leafPairs t fun p hp => hcompares t s hcmp heq p hp θ hold
    obtain ⟨-, u, hfind, ⟨hlhs, hrhs⟩ | ⟨hlhs, hrhs⟩⟩ := hcmp
    · have hu : θ u = t.ground θ := hold u t hfind
      rw [show l = .unknown u from hlhs, show r = s from hrhs]
      exact hu.trans hts
    · have hu : θ u = t.ground θ := hold u t hfind
      rw [show l = s from hlhs, show r = .unknown u from hrhs]
      exact (hu.trans hts).symm

/-- An `Unknown` that is refused a known type never is that type. -/
theorem ground_ne_of_tryAddKnown {u : UnknownId} (hk : r.isUnknown = false)
    (h : (c.tryAddKnown u r).1 = false)
    (hclash : ∀ t, c.find u = some t → typeEquals t r = false → t.Clash r)
    (hθ : c.Respects θ) : θ u ≠ r.ground θ := by
  rcases tryAddKnown_cases (u := u) hk with hrec | ⟨t, hfind, heq⟩ | ⟨-, hocc⟩
  · rw [← TypeConstraints.tryAdd_unknown_known hk, hrec.tryAdd] at h
    simp at h
  · rw [heq] at h
    rw [hθ u t hfind]
    exact (hclash t hfind h).ground_ne
  · exact (ground_ne_of_occurs hk hocc).symm

/-- **An attempt answered with false.** No choice that agrees with the bindings makes both
sides one, if the attempt is not blocked. -/
theorem ground_ne_of_tryAdd (hleaf : IsLeaf noStop l r) (h : (c.tryAdd l r).1 = false)
    (hblocked : ¬ (Attempt.mk c l r).Blocked) (hθ : c.Respects θ) :
    l.ground θ ≠ r.ground θ := by
  cases hl : l.isUnknown <;> cases hr : r.isUnknown
  · rcases hleaf with ⟨hunk, -⟩ | ⟨-, -, hstop⟩
    · simp [hl, hr] at hunk
    · have hm : ¬ l.Matches r := by simpa [noStop] using hstop
      exact ground_ne_of_clash hl hr hm
  · obtain ⟨v, rfl⟩ := Ty.eq_unknown hr
    rw [TypeConstraints.tryAdd_known_unknown hl] at h
    refine (ground_ne_of_tryAddKnown hl h (fun t hfind hne => ?_) hθ).symm
    by_contra hclash
    exact hblocked (.compared ⟨hl, v, hfind, Or.inr ⟨rfl, rfl⟩⟩ hne hclash)
  · obtain ⟨u, rfl⟩ := Ty.eq_unknown hl
    rw [TypeConstraints.tryAdd_unknown_known hr] at h
    refine ground_ne_of_tryAddKnown hr h (fun t hfind hne => ?_) hθ
    by_contra hclash
    exact hblocked (.compared ⟨hr, u, hfind, Or.inl ⟨rfl, rfl⟩⟩ hne hclash)
  · obtain ⟨u, rfl⟩ := Ty.eq_unknown hl
    obtain ⟨v, rfl⟩ := Ty.eq_unknown hr
    -- Two Unknowns are refused when both are bound or one is bound to the other.
    cases hu : c.find u with
    | none =>
        cases hv : c.find v with
        | none =>
            simp [TypeConstraints.tryAdd, TypeConstraints.tryAddUnknowns, hu, hv] at h
        | some t =>
            have ht : t = .unknown u := by
              by_contra hne
              simp [TypeConstraints.tryAdd, TypeConstraints.tryAddUnknowns, hu, hv, hne] at h
            rw [ht] at hv
            exact absurd (.boundToOther hv hu (Or.inr ⟨rfl, rfl⟩)) hblocked
    | some t =>
        cases hv : c.find v with
        | none =>
            have ht : t = .unknown v := by
              by_contra hne
              simp [TypeConstraints.tryAdd, TypeConstraints.tryAddUnknowns, hu, hv, hne] at h
            rw [ht] at hu
            exact absurd (.boundToOther hu hv (Or.inl ⟨rfl, rfl⟩)) hblocked
        | some s =>
            have hclash : t.Clash s := by
              by_contra hclash
              exact hblocked (.bothBound rfl rfl hu hv hclash)
            show θ u ≠ θ v
            rw [hθ u t hu, hθ v s hv]
            exact hclash.ground_ne

end Attempts

/-! ### Runs -/

section Sound

variable {c : TypeConstraints} {θ : UnknownId → GroundTy}

/-- A run keeps the bindings without a cycle through a known type. -/
theorem layered_unifyPairs {ps : List (Ty × Ty)} (hleaf : ∀ p ∈ ps, IsLeaf noStop p.1 p.2)
    (hsteps : ∀ a ∈ pairAttempts ps c, a.StaysLayered) (hc : c.Layered) :
    (unifyPairs ps c).2.Layered := by
  induction ps generalizing c with
  | nil => exact hc
  | cons p ps ih =>
      rw [pairAttempts, List.forall_mem_cons] at hsteps
      obtain ⟨hfirst, hrest⟩ := hsteps
      have hstep : (c.tryAdd p.1 p.2).2.Layered := by
        by_cases h : ∃ u t, c.Records p.1 p.2 u t
        · obtain ⟨u, t, hrec⟩ := h
          rw [hrec.tryAdd]
          exact hfirst u t hrec
        · simp only [not_exists] at h
          rw [TypeConstraints.tryAdd_of_not_records h]
          exact hc
      rw [unifyPairs, typeUnify_leaf (hleaf p (by simp))]
      rcases hadd : c.tryAdd p.1 p.2 with ⟨_ | _, c'⟩ <;> rw [hadd] at hstep hrest
      · exact hstep
      · exact ih (fun q hq => hleaf q (List.mem_cons_of_mem _ hq)) hrest hstep

/-- A run keeps the bindings layered if each of its attempts does. The induction is over
the calls. -/
theorem layered_unifyRun {calls : List (Ty × Ty)}
    (hsteps : ∀ a ∈ runAttempts calls c, a.StaysLayered) (hc : c.Layered) :
    (unifyRun calls c).Layered := by
  induction calls generalizing c with
  | nil => exact hc
  | cons p calls ih =>
      rw [runAttempts, List.forall_mem_append] at hsteps
      refine ih hsteps.2 ?_
      rw [typeUnify_eq_unifyPairs noStop p.1 p.2 c]
      exact layered_unifyPairs (fun q hq => isLeaf_of_mem_leafPairs p.1 hq) hsteps.1 hc

/-- A choice that agrees with the bindings after some pairs agrees with those before them,
as none is changed. -/
theorem Respects.of_unifyPairs {ps : List (Ty × Ty)} (hleaf : ∀ p ∈ ps, IsLeaf noStop p.1 p.2)
    (h : (unifyPairs ps c).2.Respects θ) : c.Respects θ := by
  induction ps generalizing c with
  | nil => exact h
  | cons p ps ih =>
      rw [unifyPairs, typeUnify_leaf (hleaf p (by simp))] at h
      rcases hadd : c.tryAdd p.1 p.2 with ⟨_ | _, c'⟩ <;> rw [hadd] at h
      · exact TypeConstraints.Respects.of_tryAdd (by rw [hadd]; exact h)
      · have hc' : c'.Respects θ := ih (fun q hq => hleaf q (List.mem_cons_of_mem _ hq)) h
        exact TypeConstraints.Respects.of_tryAdd (by rw [hadd]; exact hc')

/-- The bindings before a run are among those after it. -/
theorem Respects.of_unifyRun {calls : List (Ty × Ty)} (h : (unifyRun calls c).Respects θ) :
    c.Respects θ := by
  induction calls generalizing c with
  | nil => exact h
  | cons p calls ih =>
      have hstep := ih h
      rw [typeUnify_eq_unifyPairs noStop p.1 p.2 c] at hstep
      exact Respects.of_unifyPairs (fun q hq => isLeaf_of_mem_leafPairs p.1 hq) hstep

/-- Leaf pairs that are all answered with true are solved by what agrees with the
bindings after them. -/
theorem solves_of_unifyPairs {ps : List (Ty × Ty)} (hleaf : ∀ p ∈ ps, IsLeaf noStop p.1 p.2)
    (hsteps : ∀ a ∈ pairAttempts ps c, a.ComparesAll) (htrue : (unifyPairs ps c).1 = true)
    (hθ : (unifyPairs ps c).2.Respects θ) : Solves θ ps := by
  induction ps generalizing c with
  | nil => intro p hp; simp at hp
  | cons p ps ih =>
      have hrest := fun q hq => hleaf q (List.mem_cons_of_mem p hq)
      rw [pairAttempts, List.forall_mem_cons] at hsteps
      rw [unifyPairs, typeUnify_leaf (hleaf p (by simp))] at htrue hθ
      rcases hadd : c.tryAdd p.1 p.2 with ⟨_ | _, c'⟩ <;> rw [hadd] at htrue hθ hsteps
      · simp at htrue
      · have hc' : c'.Respects θ := Respects.of_unifyPairs hrest hθ
        have hp : p.1.ground θ = p.2.ground θ :=
          ground_eq_of_tryAdd (by rw [hadd]) hsteps.1 (by rw [hadd]; exact hc')
        intro q hq
        rcases List.mem_cons.mp hq with rfl | hq
        · exact hp
        · exact ih hrest hsteps.2 htrue hθ q hq

/-- A run whose answers are all true is solved by what agrees with its bindings. -/
theorem solves_of_answers {calls : List (Ty × Ty)}
    (hsteps : ∀ a ∈ runAttempts calls c, a.ComparesAll)
    (htrue : ∀ b ∈ answers calls c, b = true) (hθ : (unifyRun calls c).Respects θ) :
    Solves θ calls := by
  induction calls generalizing c with
  | nil => intro p hp; simp at hp
  | cons p calls ih =>
      rw [runAttempts, List.forall_mem_append] at hsteps
      rw [answers, List.forall_mem_cons] at htrue
      have hafter : (typeUnify p.1 p.2 c).2.Respects θ := Respects.of_unifyRun hθ
      have hfirst := htrue.1
      rw [typeUnify_eq_unifyPairs noStop p.1 p.2 c] at hafter hfirst
      have hpairs : Solves θ (leafPairs noStop p.1 p.2) :=
        solves_of_unifyPairs (fun q hq => isLeaf_of_mem_leafPairs p.1 hq) hsteps.1 hfirst hafter
      intro q hq
      rcases List.mem_cons.mp hq with rfl | hq
      · exact ground_eq_of_leafPairs _ hpairs
      · exact ih hsteps.2 htrue.2 hθ q hq

end Sound

/-- **When true means solvable.** Start from no bindings and unify any sequence of pairs.
If every answer is true, no attempt closes a cycle through a known type and no comparison
passes over a difference, some choice for the `Unknown`s makes both sides of every pair
one type. -/
theorem answers_sound (calls : List (Ty × Ty))
    (hsteps : ∀ a ∈ runAttempts calls {}, a.Consistent)
    (htrue : ∀ b ∈ answers calls {}, b = true) : ∃ θ, Solves θ calls := by
  have hlayered : (unifyRun calls {}).Layered :=
    layered_unifyRun (fun a ha => (hsteps a ha).1) TypeConstraints.layered_empty
  obtain ⟨θ, hθ⟩ := hlayered.exists_respects
  exact ⟨θ, solves_of_answers (fun a ha => (hsteps a ha).2) htrue hθ⟩

/-- The constraints of `y = 1`, `x = [y]`, `z = true` and `x = [z]`. -/
def differentElements : List (Ty × Ty) :=
  [(.unknown 1, .integer), (.unknown 0, .array (.unknown 1)), (.unknown 2, .bool),
    (.unknown 0, .array (.unknown 2))]

/-- All four are answered with true, and `x` is an array of integers and an array of
booleans. -/
theorem unifyRun_unsound :
    ¬ ∀ calls : List (Ty × Ty), (∀ b ∈ answers calls {}, b = true) → ∃ θ, Solves θ calls := by
  intro h
  obtain ⟨θ, hθ⟩ := h differentElements (by decide)
  have hy : θ 1 = .node .integer [] := hθ (.unknown 1, .integer) (by simp [differentElements])
  have hxy : θ 0 = .node .array [θ 1] :=
    hθ (.unknown 0, .array (.unknown 1)) (by simp [differentElements])
  have hz : θ 2 = .node .bool [] := hθ (.unknown 2, .bool) (by simp [differentElements])
  have hxz : θ 0 = .node .array [θ 2] :=
    hθ (.unknown 0, .array (.unknown 2)) (by simp [differentElements])
  rw [hxy, hy, hz] at hxz
  simp at hxz

/-- The only binding after `x = 1`. -/
theorem find_insert_integer (u : UnknownId) (t : Ty)
    (h : (({} : TypeConstraints).insert 0 .integer).find u = some t) : t = .integer := by
  rw [TypeConstraints.find_insert] at h
  split at h
  · exact (Option.some.inj h).symm
  · simp [TypeConstraints.find] at h

/-- `x = 1` twice: the second pair is compared with the binding of the first. -/
theorem answers_sound_twice :
    ∃ θ, Solves θ [(.unknown 0, .integer), (.unknown 0, .integer)] := by
  refine answers_sound _ ?_ (by decide)
  have hone : (({} : TypeConstraints).insert 0 .integer).Layered := by
    have hnone : ∀ u v, ¬ (({} : TypeConstraints).insert 0 .integer).Above u v := by
      rintro u v ⟨t, ⟨w, -, hw, -⟩, hocc⟩
      rw [find_insert_integer w t hw] at hocc
      simp [typeOccurs] at hocc
    intro u hu
    cases hu with
    | single h => exact hnone _ _ h
    | tail _ h => exact hnone _ _ h
  intro a ha
  -- The first pair is recorded, the second one is compared with it.
  have hattempts : a = ⟨{}, .unknown 0, .integer⟩
      ∨ a = ⟨({} : TypeConstraints).insert 0 .integer, .unknown 0, .integer⟩ := by
    simpa [runAttempts, pairAttempts, leafPairs, typeUnify, Ty.isUnknown, typeOccurs,
      TypeConstraints.tryAdd, TypeConstraints.tryAddKnown, TypeConstraints.find,
      TypeConstraints.insert, typeEquals, List.lookup_cons, List.lookup_nil] using ha
  rcases hattempts with rfl | rfl
  · constructor
    · intro u t hrec
      cases hrec
      exact hone
    · rintro t r ⟨-, u, hbound, -⟩
      simp [TypeConstraints.find] at hbound
  · constructor
    · intro u t hrec
      have hnone := hrec.find_none
      cases hrec
      simp at hnone
    · rintro t r ⟨-, u, hbound, ⟨-, hr⟩ | ⟨-, hr⟩⟩ _ p hp
      · -- An integer against an integer has no leaf pairs.
        rw [find_insert_integer u t hbound, ← hr] at hp
        simp [leafPairs, Ty.isUnknown, noStop] at hp
      · cases hr

/-! ### When false means unsolvable -/

section Complete

variable {c : TypeConstraints} {θ : UnknownId → GroundTy}

/-- The attempt at a pair of a list that the pairs before it lead to. -/
theorem mem_pairAttempts {before after : List (Ty × Ty)} {l r : Ty} {c' : TypeConstraints}
    (hleaf : ∀ p ∈ before, IsLeaf noStop p.1 p.2) (h : unifyPairs before c = (true, c')) :
    Attempt.mk c' l r ∈ pairAttempts (before ++ (l, r) :: after) c := by
  induction before generalizing c with
  | nil =>
      simp only [unifyPairs, Prod.mk.injEq, true_and] at h
      rw [h]
      exact List.mem_cons_self
  | cons p before ih =>
      rw [unifyPairs, typeUnify_leaf (hleaf p (by simp))] at h
      rw [List.cons_append, pairAttempts]
      rcases hadd : c.tryAdd p.1 p.2 with ⟨_ | _, c₁⟩ <;> rw [hadd] at h
      · simp at h
      · exact List.mem_cons_of_mem _ (ih (fun q hq => hleaf q (List.mem_cons_of_mem _ hq)) h)

/-- One call that is answered with false. -/
theorem ground_ne_of_typeUnify {l r : Ty}
    (hsteps : ∀ a ∈ pairAttempts (leafPairs noStop l r) c, ¬ a.Blocked)
    (hfalse : (typeUnify l r c).1 = false) (hθ : c.Respects θ) : l.ground θ ≠ r.ground θ := by
  intro heq
  rw [typeUnify_eq_unifyPairs noStop l r c, unifyPairs_false_iff] at hfalse
  -- The first pair that fails: the ones before it succeed, and keep the solution.
  obtain ⟨before, l', r', after, c', hsplit, hbefore, hfail⟩ := hfalse
  have hleaves : ∀ p ∈ before ++ (l', r') :: after, IsLeaf noStop p.1 p.2 := by
    rw [← hsplit]
    exact fun p hp => isLeaf_of_mem_leafPairs l hp
  have hsol : Solves θ (before ++ (l', r') :: after) := by
    rw [← hsplit]
    exact solves_leafPairs heq
  have hleaf : IsLeaf noStop l' r' := hleaves (l', r') (by simp)
  have hbeforeLeaf : ∀ p ∈ before, IsLeaf noStop p.1 p.2 := fun p hp => hleaves p (by simp [hp])
  have hc' : c'.Respects θ := by
    have hpairs := respects_unifyPairs hbeforeLeaf hθ fun p hp => hsol p (by simp [hp])
    rwa [hbefore] at hpairs
  have hmem : Attempt.mk c' l' r' ∈ pairAttempts (leafPairs noStop l r) c := by
    rw [hsplit]
    exact mem_pairAttempts hbeforeLeaf hbefore
  rw [typeUnify_leaf hleaf] at hfail
  exact ground_ne_of_tryAdd hleaf hfail (hsteps _ hmem) hc' (hsol (l', r') (by simp))

/-- The calls up to one that is answered with false have no solution. -/
theorem not_solves_of_answers {calls : List (Ty × Ty)}
    (hsteps : ∀ a ∈ runAttempts calls c, ¬ a.Blocked) {k : Nat}
    (hfalse : (answers calls c)[k]? = some false) (hc : c.Respects θ) :
    ¬ Solves θ (calls.take (k + 1)) := by
  intro hsol
  induction calls generalizing c k with
  | nil => simp [answers] at hfalse
  | cons p calls ih =>
      rw [runAttempts, List.forall_mem_append] at hsteps
      have hp : p.1.ground θ = p.2.ground θ := hsol p (by simp)
      cases k with
      | zero =>
          have hfirst : (typeUnify p.1 p.2 c).1 = false := by simpa [answers] using hfalse
          exact ground_ne_of_typeUnify hsteps.1 hfirst hc hp
      | succ k =>
          have hlater : (answers calls (typeUnify p.1 p.2 c).2)[k]? = some false := by
            simpa [answers] using hfalse
          exact ih hsteps.2 hlater (respects_typeUnify hc hp)
            fun q hq => hsol q (by rw [List.take_succ_cons]; exact List.mem_cons_of_mem _ hq)

/-- There is one answer for each call. -/
theorem length_answers (calls : List (Ty × Ty)) (c : TypeConstraints) :
    (answers calls c).length = calls.length := by
  induction calls generalizing c with
  | nil => rfl
  | cons p calls ih => rw [answers, List.length_cons, List.length_cons, ih]

end Complete

/-- **When false means unsolvable.** Start from no bindings and unify any sequence of
pairs. If no attempt is blocked, a call that is answered with false has no solution
together with the calls before it. So a pair that the calls before it make equal, and
that they leave a solution, is answered with true. -/
theorem answers_complete (calls : List (Ty × Ty))
    (hsteps : ∀ a ∈ runAttempts calls {}, ¬ a.Blocked) (k : Nat) :
    ((answers calls {})[k]? = some false → ∀ θ, ¬ Solves θ (calls.take (k + 1)))
      ∧ ∀ l r, calls[k]? = some (l, r) → (∃ θ, Solves θ (calls.take k)) →
          (∀ θ, Solves θ (calls.take k) → l.ground θ = r.ground θ) →
          (answers calls {})[k]? = some true := by
  have hfalse : (answers calls {})[k]? = some false → ∀ θ, ¬ Solves θ (calls.take (k + 1)) :=
    fun h θ => not_solves_of_answers hsteps h respects_empty
  refine ⟨hfalse, fun l r hcall hsolvable hforced => ?_⟩
  obtain ⟨θ, hθ⟩ := hsolvable
  obtain ⟨hk, hget⟩ := List.getElem?_eq_some_iff.mp hcall
  have hlen : k < (answers calls {}).length := by rw [length_answers]; exact hk
  obtain ⟨answer, hanswer⟩ : ∃ answer, (answers calls {})[k]? = some answer :=
    ⟨_, List.getElem?_eq_getElem hlen⟩
  -- An answer of no would leave no solution, but there is one.
  cases answer
  · have hnone := hfalse hanswer θ
    refine absurd (fun p hp => ?_) hnone
    rw [List.take_succ_eq_append_getElem hk, List.mem_append, List.mem_singleton, hget] at hp
    rcases hp with hp | rfl
    · exact hθ p hp
    · exact hforced θ hθ
  · exact hanswer

/-- The second `x = y` is answered with false, and any choice with one type for both
solves the two. -/
theorem unifyRun_incomplete :
    ¬ ∀ (calls : List (Ty × Ty)) (k : Nat), (answers calls {})[k]? = some false →
        ∀ θ, ¬ Solves θ (calls.take (k + 1)) := by
  intro h
  refine h [(.unknown 0, .unknown 1), (.unknown 0, .unknown 1)] 1 (by decide)
    (fun _ => .node .void []) fun p hp => ?_
  have hp' : p = (.unknown 0, .unknown 1) := by simpa using hp
  rw [hp']
  rfl

/-- `x = 1` and `x = true`: the second is refused, and nothing is both. -/
theorem answers_complete_clash :
    ¬ ∃ θ, Solves θ [(.unknown 0, .integer), (.unknown 0, .bool)] := by
  refine not_exists.mpr ((answers_complete [(.unknown 0, .integer), (.unknown 0, .bool)] ?_ 1).1
    (by decide))
  intro a ha
  have hattempts : a = ⟨{}, .unknown 0, .integer⟩
      ∨ a = ⟨({} : TypeConstraints).insert 0 .integer, .unknown 0, .bool⟩ := by
    simpa [runAttempts, pairAttempts, leafPairs, typeUnify, Ty.isUnknown, typeOccurs,
      TypeConstraints.tryAdd, TypeConstraints.tryAddKnown, TypeConstraints.find,
      TypeConstraints.insert, typeEquals, List.lookup_cons, List.lookup_nil] using ha
  rintro (⟨-, hr, -, -, -⟩ | ⟨hu, hv, hsides⟩ | ⟨⟨-, u, hbound, hsides⟩, -, hclash⟩)
  · rcases hattempts with rfl | rfl <;> cases hr
  · rcases hattempts with rfl | rfl
    · simp [TypeConstraints.find] at hu
    · exact absurd (find_insert_integer _ _ hu) (by simp)
  · rcases hattempts with rfl | rfl
    · simp [TypeConstraints.find] at hbound
    · rcases hsides with ⟨-, hr⟩ | ⟨-, hr⟩
      · refine hclash ⟨(.integer, .bool), ?_, Or.inl ⟨rfl, rfl⟩⟩
        rw [find_insert_integer u _ hbound, ← hr]
        simp [leafPairs, Ty.isUnknown, noStop]
      · cases hr

end Aike
