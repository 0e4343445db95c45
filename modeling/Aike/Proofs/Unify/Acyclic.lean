import Aike.Lib.Reach
import Aike.Proofs.Unify.Walk

/-!
# `Aike.Proofs.Unify.Acyclic`: when the binding map has no cycle

`tryAdd` records a binding in four ways, and makes the occurs check in the last
one only, where an `Unknown` meets a type of another kind. That check looks at
the type as written and does not follow the bindings in it. So a run of
`typeUnify` calls can close a cycle of bindings, and `rewrite` then recurses for
ever on a type that contains an `Unknown` of it (`unifyRun_cycle`).

* `Records` lists the four ways, and `tryAdd` does one of them (`Records.tryAdd`) or
  records nothing (`tryAdd_of_not_records`).
* `acyclic_tryAdd_iff` is the step: a map without cycles stays so exactly when
  the bound type does not lead back to the `Unknown` that is bound to it.
* `rewriteTerminates_of_acyclic`: `rewrite` ends on every type when the map has
  no cycle. The recursion is along the bindings, which are well-founded then.
* `unifyRun_acyclic_iff` is the run: no cycle and every `rewrite` ends exactly
  when no `tryAdd` of the run closes a cycle.
-/

set_option autoImplicit false

namespace Aike

open Relation

/-- Nothing but the shape of the types stops the walk. -/
def noStop : Ty → Bool := fun _ => false

namespace TypeConstraints

/-- The type bound to `u` contains `v`. -/
def Binds (c : TypeConstraints) (u v : UnknownId) : Prop :=
  ∃ t, c.find u = some t ∧ typeOccurs t v = true

/-- No `Unknown` is reached from itself by following the bindings. -/
def Acyclic (c : TypeConstraints) : Prop := Reach.Acyclic c.Binds

/-- Some `Unknown` in `t` is `u`, or leads to `u` by following the bindings. -/
def LeadsTo (c : TypeConstraints) (t : Ty) (u : UnknownId) : Prop :=
  ∃ v, typeOccurs t v = true ∧ ReflTransGen c.Binds v u

/-- `rewrite` returns on `t`: some number of nested calls is enough for it. -/
def RewriteTerminates (c : TypeConstraints) (t : Ty) : Prop :=
  ∃ fuel, (c.rewrite fuel t).isSome = true

/-- The four ways in which `tryAdd` on two types records the binding of an
`Unknown` to a type, the last in both argument orders. -/
inductive Records (c : TypeConstraints) : Ty → Ty → UnknownId → Ty → Prop
  | fresh {l r : UnknownId} (hl : c.find l = none) (hr : c.find r = none) :
      Records c (.unknown l) (.unknown r) l (.unknown r)
  | copyRight {l r : UnknownId} {t : Ty} (hl : c.find l = none) (hr : c.find r = some t)
      (hne : t ≠ .unknown l) : Records c (.unknown l) (.unknown r) l t
  | copyLeft {l r : UnknownId} {t : Ty} (hl : c.find l = some t) (hr : c.find r = none)
      (hne : t ≠ .unknown r) : Records c (.unknown l) (.unknown r) r t
  | known {l : UnknownId} {r : Ty} (hk : r.isUnknown = false) (hl : c.find l = none)
      (ho : typeOccurs r l = false) : Records c (.unknown l) r l r
  | knownSwapped {l : Ty} {r : UnknownId} (hk : l.isUnknown = false) (hr : c.find r = none)
      (ho : typeOccurs l r = false) : Records c l (.unknown r) r l

/-- Only an `Unknown` without a binding gets one. -/
theorem Records.find_none {c : TypeConstraints} {l r : Ty} {u : UnknownId} {t : Ty}
    (h : c.Records l r u t) : c.find u = none := by
  cases h <;> assumption

/-- A binding that was inserted is the first that is found, and hides no other
`Unknown`'s. -/
@[simp] theorem find_insert (c : TypeConstraints) (u v : UnknownId) (t : Ty) :
    (c.insert u t).find v = if v = u then some t else c.find v := by
  simp only [find, insert, List.lookup_cons]
  by_cases h : v = u
  · simp [h]
  · simp [h, beq_eq_false_iff_ne.mpr h]

/-- A new binding adds the edges from its key. -/
theorem binds_insert {c : TypeConstraints} {u : UnknownId} {t : Ty} (h : c.find u = none) :
    (c.insert u t).Binds = Reach.addFrom c.Binds u {v | typeOccurs t v = true} := by
  funext a b
  simp only [Binds, find_insert, Reach.addFrom, Set.mem_ofPred_eq, eq_iff_iff]
  by_cases ha : a = u
  · subst ha
    simp [h]
  · simp [ha]

/-- A new binding keeps the bindings without a cycle if and only if its type does not lead
back to the `Unknown`. It is the step that the whole run is built of. -/
theorem acyclic_insert_iff {c : TypeConstraints} {u : UnknownId} {t : Ty}
    (h : c.find u = none) :
    (c.insert u t).Acyclic ↔ c.Acyclic ∧ ¬ c.LeadsTo t u := by
  rw [Acyclic, binds_insert h, Reach.acyclic_addFrom_iff]
  simp [Acyclic, LeadsTo]

/-! ### One `tryAdd` -/

/-- An `Unknown` against a known type is the case of `tryAddKnown`, on either side. -/
theorem tryAdd_unknown_known {l : UnknownId} {r : Ty} (hr : r.isUnknown = false)
    (c : TypeConstraints) : c.tryAdd (.unknown l) r = c.tryAddKnown l r := by
  cases r <;> first | rfl | simp [Ty.isUnknown] at hr

/-- The same with the `Unknown` on the right. -/
theorem tryAdd_known_unknown {l : Ty} {r : UnknownId} (hl : l.isUnknown = false)
    (c : TypeConstraints) : c.tryAdd l (.unknown r) = c.tryAddKnown r l := by
  cases l <;> first | rfl | simp [Ty.isUnknown] at hl

/-- Two known types record nothing and answer false. The walk calls it on a clash only. -/
theorem tryAdd_known {l r : Ty} (hl : l.isUnknown = false) (hr : r.isUnknown = false)
    (c : TypeConstraints) : c.tryAdd l r = (false, c) := by
  cases l <;> cases r <;> first | rfl | simp [Ty.isUnknown] at hl hr

/-- What `Records` says is recorded is recorded. -/
theorem Records.tryAdd {c : TypeConstraints} {l r : Ty} {u : UnknownId} {t : Ty}
    (h : c.Records l r u t) : c.tryAdd l r = (true, c.insert u t) := by
  cases h with
  | fresh hl hr => simp [TypeConstraints.tryAdd, tryAddUnknowns, hl, hr]
  | copyRight hl hr hne => simp [TypeConstraints.tryAdd, tryAddUnknowns, hl, hr, hne]
  | copyLeft hl hr hne => simp [TypeConstraints.tryAdd, tryAddUnknowns, hl, hr, hne]
  | known hk hl ho => simp [tryAdd_unknown_known hk, tryAddKnown, hl, ho]
  | knownSwapped hk hr ho => simp [tryAdd_known_unknown hk, tryAddKnown, hr, ho]

/-- `tryAdd` records at most one binding. -/
theorem Records.unique {c : TypeConstraints} {l r : Ty} {u u' : UnknownId} {t t' : Ty}
    (h : c.Records l r u t) (h' : c.Records l r u' t') : u' = u ∧ t' = t := by
  have heq := h'.tryAdd.symm.trans h.tryAdd
  simpa [insert] using heq

/-- Where `Records` says nothing, nothing is recorded. -/
theorem tryAdd_of_not_records {c : TypeConstraints} {l r : Ty}
    (h : ∀ u t, ¬ c.Records l r u t) : (c.tryAdd l r).2 = c := by
  -- One case for each combination of known and unknown types. In each the branch that
  -- records is the one that `Records` names.
  cases hl : l.isUnknown <;> cases hr : r.isUnknown
  · rw [tryAdd_known hl hr]
  · obtain ⟨b, rfl⟩ := Ty.eq_unknown hr
    rw [tryAdd_known_unknown hl, tryAddKnown]
    cases hb : c.find b with
    | some t => rfl
    | none =>
        cases ho : typeOccurs l b with
        | true => rfl
        | false => exact absurd (Records.knownSwapped hl hb ho) (h _ _)
  · obtain ⟨a, rfl⟩ := Ty.eq_unknown hl
    rw [tryAdd_unknown_known hr, tryAddKnown]
    cases ha : c.find a with
    | some t => rfl
    | none =>
        cases ho : typeOccurs r a with
        | true => rfl
        | false => exact absurd (Records.known hr ha ho) (h _ _)
  · obtain ⟨a, rfl⟩ := Ty.eq_unknown hl
    obtain ⟨b, rfl⟩ := Ty.eq_unknown hr
    rw [tryAdd, tryAddUnknowns]
    cases ha : c.find a with
    | none =>
        cases hb : c.find b with
        | none => exact absurd (Records.fresh ha hb) (h _ _)
        | some t =>
            by_cases hne : t ≠ .unknown a
            · exact absurd (Records.copyRight ha hb hne) (h _ _)
            · simp [hne]
    | some t =>
        cases hb : c.find b with
        | some t' => rfl
        | none =>
            by_cases hne : t ≠ .unknown b
            · exact absurd (Records.copyLeft ha hb hne) (h _ _)
            · simp [hne]

/-- One `tryAdd` keeps the map without cycles exactly when the type it binds
does not lead back to the `Unknown` it is bound to. -/
theorem acyclic_tryAdd_iff {c : TypeConstraints} {l r : Ty} :
    (c.tryAdd l r).2.Acyclic
      ↔ c.Acyclic ∧ ∀ u t, c.Records l r u t → ¬ c.LeadsTo t u := by
  by_cases h : ∃ u t, c.Records l r u t
  · obtain ⟨u, t, hrec⟩ := h
    rw [hrec.tryAdd, acyclic_insert_iff hrec.find_none]
    refine and_congr_right fun _ => ⟨fun hn u' t' hrec' => ?_, fun hn => hn u t hrec⟩
    obtain ⟨rfl, rfl⟩ := hrec.unique hrec'
    exact hn
  · simp only [not_exists] at h
    rw [tryAdd_of_not_records h]
    simp [h]

/-! ### `rewrite` on a map without cycles -/

/-- More nested calls do not change what `rewrite` returns. -/
theorem rewrite_succ (fuel : Nat) :
    (∀ (c : TypeConstraints) (t : Ty) r, c.rewrite fuel t = some r →
        c.rewrite (fuel + 1) t = some r)
      ∧ (∀ (c : TypeConstraints) (t : Ty) r, c.rewriteShape fuel t = some r →
        c.rewriteShape (fuel + 1) t = some r)
      ∧ (∀ (c : TypeConstraints) (ts : List Ty) r, c.rewriteAll fuel ts = some r →
        c.rewriteAll (fuel + 1) ts = some r) := by
  induction fuel with
  | zero => refine ⟨?_, ?_, ?_⟩ <;> intro c t r h <;> simp [rewrite, rewriteShape, rewriteAll] at h
  | succ fuel ih =>
      -- The three functions call each other with less fuel, so they go together.
      obtain ⟨ihrw, ihshape, ihall⟩ := ih
      refine ⟨?_, ?_, ?_⟩
      · intro c t r h
        cases t with
        | unknown u =>
            simp only [rewrite] at h ⊢
            split at h
            · exact ihshape _ _ _ h
            · exact h
        | _ => exact ihshape _ _ _ h
      · intro c t r h
        cases t with
        | tuple ts =>
            simp only [rewriteShape, Option.bind_eq_bind, Option.bind_eq_some_iff] at h ⊢
            obtain ⟨x, hx, h⟩ := h
            exact ⟨x, ihall _ _ _ hx, h⟩
        | array t =>
            simp only [rewriteShape, Option.bind_eq_bind, Option.bind_eq_some_iff] at h ⊢
            obtain ⟨x, hx, h⟩ := h
            exact ⟨x, ihrw _ _ _ hx, h⟩
        | pointer t =>
            simp only [rewriteShape, Option.bind_eq_bind, Option.bind_eq_some_iff] at h ⊢
            obtain ⟨x, hx, h⟩ := h
            exact ⟨x, ihrw _ _ _ hx, h⟩
        | function ts t v =>
            simp only [rewriteShape, Option.bind_eq_bind, Option.bind_eq_some_iff] at h ⊢
            obtain ⟨x, hx, y, hy, h⟩ := h
            exact ⟨x, ihall _ _ _ hx, y, ihrw _ _ _ hy, h⟩
        | inst m ts d =>
            simp only [rewriteShape, Option.bind_eq_bind, Option.bind_eq_some_iff] at h ⊢
            obtain ⟨x, hx, h⟩ := h
            exact ⟨x, ihall _ _ _ hx, h⟩
        | _ => exact h
      · intro c ts r h
        cases ts with
        | nil => exact h
        | cons t ts =>
            simp only [rewriteAll, Option.bind_eq_bind, Option.bind_eq_some_iff] at h ⊢
            obtain ⟨x, hx, y, hy, h⟩ := h
            exact ⟨x, ihrw _ _ _ hx, y, ihall _ _ _ hy, h⟩

/-- `rewrite` returns the same when it may nest deeper. -/
theorem rewrite_mono {m n : Nat} (h : m ≤ n) {c : TypeConstraints} {t : Ty}
    {r : Ty × TypeConstraints} (hr : c.rewrite m t = some r) : c.rewrite n t = some r := by
  induction h with
  | refl => exact hr
  | step _ ih => exact (rewrite_succ _).1 _ _ _ ih

/-- So does `rewrite` on a list of types. -/
theorem rewriteAll_mono {m n : Nat} (h : m ≤ n) {c : TypeConstraints} {ts : List Ty}
    {r : List Ty × TypeConstraints} (hr : c.rewriteAll m ts = some r) :
    c.rewriteAll n ts = some r := by
  induction h with
  | refl => exact hr
  | step _ ih => exact (rewrite_succ _).2.2 _ _ _ ih

/-- Some number of nested calls rewrites `t`, whatever the count of rewrites so
far is. -/
def RewritesIn (data : List (UnknownId × Ty)) (t : Ty) : Prop :=
  ∃ fuel, ∀ n, ∃ t' n', rewrite fuel ⟨data, n⟩ t = some (t', ⟨data, n'⟩)

/-- A depth that is enough for each type of a list is enough for all. The count of
rewrites is left open, as each type changes it. -/
theorem rewriteAll_total {data : List (UnknownId × Ty)} {ts : List Ty}
    (h : ∀ t ∈ ts, RewritesIn data t) :
    ∃ fuel, ∀ n, ∃ ts' n', rewriteAll fuel ⟨data, n⟩ ts = some (ts', ⟨data, n'⟩) := by
  induction ts with
  | nil => exact ⟨1, fun n => ⟨[], n, rfl⟩⟩
  | cons t ts ih =>
      obtain ⟨f, hf⟩ := h t (by simp)
      obtain ⟨g, hg⟩ := ih fun t ht => h t (List.mem_cons_of_mem _ ht)
      refine ⟨max f g + 1, fun n => ?_⟩
      obtain ⟨t', n', ht⟩ := hf n
      obtain ⟨ts', n'', hts⟩ := hg n'
      refine ⟨t' :: ts', n'', ?_⟩
      simp only [rewriteAll, Option.bind_eq_bind, rewrite_mono (Nat.le_max_left f g) ht,
        rewriteAll_mono (Nat.le_max_right f g) hts, Option.bind_some]
      rfl

/-- The part of `rewrite` after the lookup returns when `rewrite` returns on
every part of the type. -/
theorem rewriteShape_total {data : List (UnknownId × Ty)} {t : Ty}
    (h : ∀ s ∈ t.parts, RewritesIn data s) :
    ∃ fuel, ∀ n, ∃ t' n', rewriteShape fuel ⟨data, n⟩ t = some (t', ⟨data, n'⟩) := by
  cases t with
  | tuple ts =>
      have hts : ∀ s ∈ ts, RewritesIn data s := h
      obtain ⟨f, hf⟩ := rewriteAll_total hts
      refine ⟨f + 1, fun n => ?_⟩
      obtain ⟨ts', n', hts⟩ := hf n
      exact ⟨.tuple ts', n', by simp [rewriteShape, hts]⟩
  | array t =>
      obtain ⟨f, hf⟩ := h t (by simp [Ty.parts])
      refine ⟨f + 1, fun n => ?_⟩
      obtain ⟨t', n', ht⟩ := hf n
      exact ⟨.array t', n', by simp [rewriteShape, ht]⟩
  | pointer t =>
      obtain ⟨f, hf⟩ := h t (by simp [Ty.parts])
      refine ⟨f + 1, fun n => ?_⟩
      obtain ⟨t', n', ht⟩ := hf n
      exact ⟨.pointer t', n', by simp [rewriteShape, ht]⟩
  | function ts t v =>
      have hts : ∀ s ∈ ts, RewritesIn data s := fun s hs => h s (by simp [Ty.parts, hs])
      obtain ⟨f, hf⟩ := rewriteAll_total hts
      obtain ⟨g, hg⟩ := h t (by simp [Ty.parts])
      -- The arguments and the result need fuel each.
      refine ⟨max f g + 1, fun n => ?_⟩
      obtain ⟨ts', n', hts⟩ := hf n
      obtain ⟨t', n'', ht⟩ := hg n'
      refine ⟨.function ts' t' v, n'', ?_⟩
      simp [rewriteShape, rewriteAll_mono (Nat.le_max_left f g) hts,
        rewrite_mono (Nat.le_max_right f g) ht]
  | inst m ts d =>
      have hts : ∀ s ∈ ts, RewritesIn data s := h
      obtain ⟨f, hf⟩ := rewriteAll_total hts
      refine ⟨f + 1, fun n => ?_⟩
      obtain ⟨ts', n', hts⟩ := hf n
      exact ⟨.inst m.renew ts' d, n', by simp [rewriteShape, hts]⟩
  | _ => exact ⟨1, fun n => ⟨_, n, rfl⟩⟩

/-- `rewrite` returns on a type when it returns on the `Unknown`s in it. -/
theorem rewritesIn_of_unknowns {data : List (UnknownId × Ty)} (t : Ty) :
    (∀ v, typeOccurs t v = true → RewritesIn data (.unknown v)) → RewritesIn data t := by
  induction t using Ty.partsInduction with
  | unknown u => exact fun h => h u (by simp [typeOccurs])
  | known t hk ih =>
      intro h
      have hparts : ∀ s ∈ t.parts, RewritesIn data s := fun s hs => ih s hs fun v hv =>
        h v (by rw [typeOccurs_known hk]; exact List.any_eq_true.mpr ⟨s, hs, hv⟩)
      obtain ⟨f, hf⟩ := rewriteShape_total hparts
      refine ⟨f + 1, fun n => ?_⟩
      obtain ⟨t', n', ht⟩ := hf n
      refine ⟨t', n', ?_⟩
      cases t <;> first | exact ht | simp [Ty.isUnknown] at hk

/-- Only a bound `Unknown` leads anywhere, so only finitely many do. -/
theorem finite_sources (c : TypeConstraints) : Set.Finite {u | ∃ v, c.Binds u v} := by
  refine (List.finite_toSet (c.data.map Prod.fst)).subset ?_
  rintro u ⟨v, t, hfind, -⟩
  obtain ⟨before, after, hdata, -⟩ := List.lookup_eq_some_iff.mp hfind
  simp [hdata]

/-- What occurs in a part of a type occurs in the type. -/
theorem occurs_of_mem_parts {t s : Ty} {v : UnknownId} (hs : s ∈ t.parts)
    (hv : typeOccurs s v = true) : typeOccurs t v = true := by
  cases hk : t.isUnknown with
  | true =>
      obtain ⟨u, rfl⟩ := Ty.eq_unknown hk
      simp [Ty.parts] at hs
  | false =>
      rw [typeOccurs_known hk]
      exact List.any_eq_true.mpr ⟨s, hs, hv⟩

/-- `rewrite` returns on every `Unknown` when the map has no cycle. The
induction is along the bindings: at `u` it recurses into the type bound to `u`,
whose `Unknown`s are below `u`. -/
theorem rewritesIn_unknown {c : TypeConstraints} (h : c.Acyclic) (u : UnknownId) :
    RewritesIn c.data (.unknown u) := by
  induction u using (Reach.Acyclic.wellFounded h c.finite_sources).induction with
  | _ u ih =>
      cases hfind : c.find u with
      | none =>
          have hnone : ∀ n, (⟨c.data, n⟩ : TypeConstraints).find u = none := fun _ => hfind
          exact ⟨1, fun n => ⟨.unknown u, n, by simp [rewrite, hnone]⟩⟩
      | some t =>
          have hsome : ∀ n, (⟨c.data, n⟩ : TypeConstraints).find u = some t := fun _ => hfind
          have hparts : ∀ s ∈ t.parts, RewritesIn c.data s := fun s hs =>
            rewritesIn_of_unknowns s fun v hv => ih v ⟨t, hfind, occurs_of_mem_parts hs hv⟩
          obtain ⟨f, hf⟩ := rewriteShape_total hparts
          refine ⟨f + 1, fun n => ?_⟩
          obtain ⟨t', n', ht⟩ := hf (n + 1)
          exact ⟨t', n', by simp [rewrite, hsome, ht]⟩

/-- `rewrite` returns on every type when the map has no cycle. -/
theorem rewriteTerminates_of_acyclic {c : TypeConstraints} (h : c.Acyclic) (t : Ty) :
    c.RewriteTerminates t := by
  obtain ⟨f, hf⟩ := rewritesIn_of_unknowns t fun v _ => rewritesIn_unknown h v
  obtain ⟨t', n', ht⟩ := hf c.rewrites
  have hc : (⟨c.data, c.rewrites⟩ : TypeConstraints) = c := rfl
  exact ⟨f, by rw [← hc, ht]; rfl⟩

end TypeConstraints

/-! ### Runs -/

/-- A call of `tryAdd`: the constraints it finds and the two types. -/
structure Attempt where
  constraints : TypeConstraints
  lhs : Ty
  rhs : Ty

/-- If the call records a binding, the bound type, with the bindings found so
far followed, does not contain the `Unknown` it is bound to. -/
def Attempt.ClosesNoCycle (a : Attempt) : Prop :=
  ∀ u t, a.constraints.Records a.lhs a.rhs u t → ¬ a.constraints.LeadsTo t u

/-- The calls of `tryAdd` while the pairs of a list are unified in order. -/
def pairAttempts : List (Ty × Ty) → TypeConstraints → List Attempt
  | [], _ => []
  | (l, r) :: ps, c =>
      ⟨c, l, r⟩ :: match c.tryAdd l r with
        | (true, c) => pairAttempts ps c
        | (false, _) => []

/-- A run: `typeUnify` on every pair of a list in turn, whatever it answers. -/
def unifyRun : List (Ty × Ty) → TypeConstraints → TypeConstraints
  | [], c => c
  | (l, r) :: calls, c => unifyRun calls (typeUnify l r c).2

/-- The calls of `tryAdd` in a run. -/
def runAttempts : List (Ty × Ty) → TypeConstraints → List Attempt
  | [], _ => []
  | (l, r) :: calls, c =>
      pairAttempts (leafPairs noStop l r) c ++ runAttempts calls (typeUnify l r c).2

/-- At a leaf of the walk `typeUnify` is `tryAdd`, which answers false on a
clash too. -/
theorem typeUnify_leaf {l r : Ty} (h : IsLeaf noStop l r) (c : TypeConstraints) :
    typeUnify l r c = c.tryAdd l r := by
  rcases h with ⟨h, hne⟩ | ⟨hl, hr, h⟩
  · rw [typeUnify_unknown h, if_neg hne]
  · have hm : ¬ l.Matches r := by simpa [noStop] using h
    rw [typeUnify_known hl hr, if_neg hm, TypeConstraints.tryAdd_known hl hr]

/-- The pairs of one call leave no cycle if and only if there was none and no attempt
closes one. The induction is over the pairs. -/
theorem acyclic_unifyPairs_iff {ps : List (Ty × Ty)} (hleaf : ∀ p ∈ ps, IsLeaf noStop p.1 p.2)
    (c : TypeConstraints) :
    (unifyPairs ps c).2.Acyclic ↔ c.Acyclic ∧ ∀ a ∈ pairAttempts ps c, a.ClosesNoCycle := by
  induction ps generalizing c with
  | nil => simp [unifyPairs, pairAttempts]
  | cons p ps ih =>
      have hstep := TypeConstraints.acyclic_tryAdd_iff (c := c) (l := p.1) (r := p.2)
      rw [unifyPairs, pairAttempts, typeUnify_leaf (hleaf p (by simp))]
      rcases hadd : c.tryAdd p.1 p.2 with ⟨_ | _, c'⟩ <;> rw [hadd] at hstep
      · simpa [Attempt.ClosesNoCycle] using hstep
      · simp only [List.forall_mem_cons]
        rw [ih (fun q hq => hleaf q (List.mem_cons_of_mem _ hq)) c', hstep, and_assoc]
        rfl

/-- A run keeps the map without cycles exactly when no `tryAdd` of it closes
one. -/
theorem acyclic_unifyRun_iff (calls : List (Ty × Ty)) (c : TypeConstraints) :
    (unifyRun calls c).Acyclic ↔ c.Acyclic ∧ ∀ a ∈ runAttempts calls c, a.ClosesNoCycle := by
  induction calls generalizing c with
  | nil => simp [unifyRun, runAttempts]
  | cons p calls ih =>
      have hpairs := acyclic_unifyPairs_iff
        (fun q hq => isLeaf_of_mem_leafPairs p.1 hq : ∀ q ∈ leafPairs noStop p.1 p.2, _) c
      rw [unifyRun, runAttempts, ih, typeUnify_eq_unifyPairs noStop p.1 p.2 c, hpairs, and_assoc,
        List.forall_mem_append]

/-- There is no cycle where nothing is bound. -/
theorem acyclic_empty : ({} : TypeConstraints).Acyclic := by
  intro u hu
  have hedge : ∃ v, ({} : TypeConstraints).Binds u v := by
    cases hu using TransGen.head_induction_on with
    | single h => exact ⟨_, h⟩
    | head h _ _ => exact ⟨_, h⟩
  obtain ⟨v, t, hfind, -⟩ := hedge
  simp [TypeConstraints.find] at hfind

/-- **The binding map of a run.** Start from no bindings and unify any sequence
of pairs. No `Unknown` is reached from itself by following the bindings, and
`rewrite` returns on every type, exactly when no `tryAdd` of the run binds an
`Unknown` to a type that leads back to it. -/
theorem unifyRun_acyclic_iff (calls : List (Ty × Ty)) :
    ((unifyRun calls {}).Acyclic ∧ ∀ t, (unifyRun calls {}).RewriteTerminates t)
      ↔ ∀ a ∈ runAttempts calls {}, a.ClosesNoCycle := by
  have hrun := acyclic_unifyRun_iff calls {}
  constructor
  · exact fun h => (hrun.mp h.1).2
  · intro h
    have hacyclic := hrun.mpr ⟨acyclic_empty, h⟩
    exact ⟨hacyclic, TypeConstraints.rewriteTerminates_of_acyclic hacyclic⟩

/-- The bindings after `?0 = *?1` and `?1 = ?0`, the constraints of `x = *x`. The
second pair copies the binding of `?0` to `?1` without an occurs check. -/
def cyclicConstraints : TypeConstraints :=
  unifyRun [(.unknown 0, .pointer (.unknown 1)), (.unknown 1, .unknown 0)] {}

/-- After `?0 = *?1` and `?1 = ?0` the `Unknown` `?1` is bound to `*?1`, and
`rewrite` does not return on it. -/
theorem unifyRun_cycle :
    ¬ cyclicConstraints.Acyclic ∧ ¬ cyclicConstraints.RewriteTerminates (.unknown 1) := by
  have hfind : cyclicConstraints.find 1 = some (.pointer (.unknown 1)) := by decide
  constructor
  · exact fun h => h 1 (.single ⟨_, hfind, by decide⟩)
  · -- Three nested calls, of `rewrite`, of its part after the lookup and of
    -- `rewrite` again, come back to the same type with less fuel.
    have hnone : ∀ fuel n, TypeConstraints.rewrite fuel ⟨cyclicConstraints.data, n⟩ (.unknown 1)
        = none := by
      intro fuel
      induction fuel using Nat.strong_induction_on with
      | _ fuel ih =>
          intro n
          have hn : (⟨cyclicConstraints.data, n⟩ : TypeConstraints).find 1
              = some (.pointer (.unknown 1)) := hfind
          match fuel with
          | 0 => rfl
          | 1 => simp [TypeConstraints.rewrite, TypeConstraints.rewriteShape, hn]
          | fuel + 2 =>
              simp [TypeConstraints.rewrite, TypeConstraints.rewriteShape, hn,
                ih fuel (by omega)]
    rintro ⟨fuel, h⟩
    have hfuel := hnone fuel cyclicConstraints.rewrites
    rw [show (⟨cyclicConstraints.data, cyclicConstraints.rewrites⟩ : TypeConstraints)
      = cyclicConstraints from rfl] at hfuel
    simp [hfuel] at h

end Aike
