import Aike.Proofs.Parts

/-!
# `Aike.Proofs.Unify.Walk`: unification as a walk over leaf pairs

`typeUnify` takes two types apart side by side until it meets an `Unknown` on
one side, or two types that cannot be taken apart together. Which pairs it meets
depends on the two types only, not on the constraints: `leafPairs` lists them in
the order of the walk, and `typeUnify_eq_unifyPairs` says that unifying two
types is unifying their leaf pairs one after another, up to the first that
fails. Every fact about `typeUnify` becomes a fact about a list of leaf pairs,
and a leaf pair is a single `tryAdd` or a clash (`IsLeaf`).

The walk may also be cut above the leaves. `leafPairs stop` does not take a left
side apart for which `stop` answers true. The overload checks use this to treat
the generic parameters of a candidate as leaves.
-/

set_option autoImplicit false

namespace Aike

mutual

/-- The pairs at which the walk of `typeUnify` over two types stops, in order.
An `Unknown` that meets itself is not among them. -/
def leafPairs (stop : Ty → Bool) (lhs rhs : Ty) : List (Ty × Ty) :=
  if lhs.isUnknown || rhs.isUnknown then
    if lhs = rhs then [] else [(lhs, rhs)]
  else if stop lhs then [(lhs, rhs)]
  else
    match lhs, rhs with
    | .tuple lt, .tuple rt =>
        if lt.length ≠ rt.length then [(.tuple lt, .tuple rt)] else leafPairsAll stop lt rt
    | .array la, .array ra => leafPairs stop la ra
    | .pointer lp, .pointer rp => leafPairs stop lp rp
    | .function la lr lv, .function ra rr rv =>
        if la.length ≠ ra.length then [(.function la lr lv, .function ra rr rv)]
        else if lv ≠ rv then [(.function la lr lv, .function ra rr rv)]
        else leafPairsAll stop la ra ++ leafPairs stop lr rr
    | .inst ln la ld, .inst rn ra rd =>
        if ld ≠ rd then [(.inst ln la ld, .inst rn ra rd)]
        else if la.length ≠ ra.length then [(.inst ln la ld, .inst rn ra rd)]
        else leafPairsAll stop la ra
    | .void, .void | .bool, .bool | .integer, .integer | .float, .float
    | .string, .string => []
    | lhs, rhs => [(lhs, rhs)]

/-- The leaf pairs of two lists of types of one length. -/
def leafPairsAll (stop : Ty → Bool) (ls rs : List Ty) : List (Ty × Ty) :=
  match ls, rs with
  | l :: ls, r :: rs => leafPairs stop l r ++ leafPairsAll stop ls rs
  | _, _ => []

end

/-- Unify the pairs of a list one after another, up to the first that fails. -/
def unifyPairs : List (Ty × Ty) → TypeConstraints → Bool × TypeConstraints
  | [], c => (true, c)
  | (l, r) :: ps, c =>
      match typeUnify l r c with
      | (true, c) => unifyPairs ps c
      | (false, c) => (false, c)

/-- To unify one pair is to unify its types. -/
theorem unifyPairs_singleton (l r : Ty) (c : TypeConstraints) :
    unifyPairs [(l, r)] c = typeUnify l r c := by
  simp only [unifyPairs]
  rcases typeUnify l r c with ⟨_ | _, _⟩ <;> rfl

/-- To unify some pairs and then others is to unify them all, unless one of the first
fails. -/
theorem unifyPairs_append (ps qs : List (Ty × Ty)) (c : TypeConstraints) :
    unifyPairs (ps ++ qs) c
      = match unifyPairs ps c with
        | (true, c) => unifyPairs qs c
        | (false, c) => (false, c) := by
  induction ps generalizing c with
  | nil => rfl
  | cons p ps ih =>
      simp only [List.cons_append, unifyPairs]
      rcases typeUnify p.1 p.2 c with ⟨_ | _, c'⟩
      · rfl
      · exact ih c'

/-- Unification of a list of pairs fails exactly when it succeeds on a part of
the list and fails on the next pair. -/
theorem unifyPairs_false_iff (ps : List (Ty × Ty)) (c : TypeConstraints) :
    (unifyPairs ps c).1 = false
      ↔ ∃ before l r after c', ps = before ++ (l, r) :: after
          ∧ unifyPairs before c = (true, c') ∧ (typeUnify l r c').1 = false := by
  constructor
  · induction ps generalizing c with
    | nil => intro h; simp [unifyPairs] at h
    | cons p ps ih =>
        intro h
        rw [unifyPairs] at h
        rcases hp : typeUnify p.1 p.2 c with ⟨_ | _, c₁⟩ <;> rw [hp] at h
        · exact ⟨[], p.1, p.2, ps, c, rfl, rfl, by rw [hp]⟩
        · obtain ⟨before, l, r, after, c', rfl, hbefore, hfail⟩ := ih c₁ h
          exact ⟨p :: before, l, r, after, c', rfl, by rw [unifyPairs, hp]; exact hbefore, hfail⟩
  · rintro ⟨before, l, r, after, c', rfl, hbefore, hfail⟩
    rw [unifyPairs_append, hbefore]
    show (unifyPairs ((l, r) :: after) c').1 = false
    rw [unifyPairs]
    rcases hlr : typeUnify l r c' with ⟨_ | _, c₁⟩
    · rfl
    · rw [hlr] at hfail
      exact absurd hfail (by simp)

/-- The leaf pairs of two lists that are put together are those of their halves, if these
are of one length. -/
theorem leafPairsAll_append (stop : Ty → Bool) (ls ls' rs rs' : List Ty)
    (h : ls.length = rs.length) :
    leafPairsAll stop (ls ++ ls') (rs ++ rs')
      = leafPairsAll stop ls rs ++ leafPairsAll stop ls' rs' := by
  induction ls generalizing rs with
  | nil =>
      rw [List.length_nil, eq_comm, List.length_eq_zero_iff] at h
      subst h
      simp [leafPairsAll]
  | cons l ls ih =>
      cases rs with
      | nil => simp at h
      | cons r rs =>
          simp only [List.length_cons, Nat.add_right_cancel_iff] at h
          simp only [List.cons_append, leafPairsAll, ih rs h, List.append_assoc]

/-- Two lists of one type each have the leaf pairs of these types. -/
theorem leafPairsAll_singleton (stop : Ty → Bool) (l r : Ty) :
    leafPairsAll stop [l] [r] = leafPairs stop l r := by
  simp [leafPairsAll]

/-- The leaf pairs of two known types: those of their parts, or the pair
itself where the walk stops. -/
theorem leafPairs_known {stop : Ty → Bool} {l r : Ty} (hl : l.isUnknown = false)
    (hr : r.isUnknown = false) (hs : stop l = false) :
    leafPairs stop l r
      = if l.Matches r then leafPairsAll stop l.parts r.parts else [(l, r)] := by
  have h : ¬ (l.isUnknown || r.isUnknown) = true := by simp [hl, hr]
  rw [leafPairs.eq_def, if_neg h, hs, if_neg Bool.false_ne_true]
  cases l <;> cases r <;>
    simp_all [Ty.Matches, Ty.head, Ty.parts, Ty.isUnknown, leafPairsAll]
  case function.function la lr lv ra rr rv =>
    by_cases hlen : la.length = ra.length
    · by_cases hv : lv = rv
      · simp only [hlen, hv, and_self, if_true,
          leafPairsAll_append stop la [lr] ra [rr] hlen, leafPairsAll_singleton]
      · simp [hlen, hv]
    · simp [hlen]
  case inst.inst ln la ld rn ra rd =>
    by_cases hd : ld = rd <;> by_cases hlen : la.length = ra.length <;> simp [hd, hlen]

/-- A pair at which the walk stops: an `Unknown` that meets something else, or
two known types that are not to be taken apart or cannot be. -/
def IsLeaf (stop : Ty → Bool) (l r : Ty) : Prop :=
  ((l.isUnknown || r.isUnknown) = true ∧ l ≠ r)
    ∨ (l.isUnknown = false ∧ r.isUnknown = false ∧ (stop l = true ∨ ¬ l.Matches r))

/-- A walk that starts at a leaf pair ends there. -/
theorem leafPairs_eq_singleton {stop : Ty → Bool} {l r : Ty} (h : IsLeaf stop l r) :
    leafPairs stop l r = [(l, r)] := by
  rcases h with ⟨h, hne⟩ | ⟨hl, hr, h⟩
  · rw [leafPairs.eq_def, if_pos h, if_neg hne]
  · cases hs : stop l with
    | true => rw [leafPairs.eq_def, if_neg (by simp [hl, hr]), if_pos hs]
    | false =>
        rw [leafPairs_known hl hr hs, if_neg]
        simpa [hs] using h

/-- A pair of types is a leaf, the same `Unknown` twice, or matches and is taken
apart. -/
theorem leafPairs_cases (stop : Ty → Bool) (l r : Ty) :
    IsLeaf stop l r
      ∨ (leafPairs stop l r = [] ∧ l = r ∧ l.isUnknown = true)
      ∨ (leafPairs stop l r = leafPairsAll stop l.parts r.parts ∧ l.isUnknown = false
          ∧ r.isUnknown = false ∧ stop l = false ∧ l.Matches r) := by
  by_cases h : (l.isUnknown || r.isUnknown) = true
  · by_cases heq : l = r
    · refine Or.inr (Or.inl ⟨?_, heq, ?_⟩)
      · rw [leafPairs.eq_def, if_pos h, if_pos heq]
      · simpa [heq] using h
    · exact Or.inl (Or.inl ⟨h, heq⟩)
  · simp only [Bool.or_eq_true, not_or, Bool.not_eq_true] at h
    cases hs : stop l with
    | true => exact Or.inl (Or.inr ⟨h.1, h.2, Or.inl hs⟩)
    | false =>
        by_cases hm : l.Matches r
        · refine Or.inr (Or.inr ⟨?_, h.1, h.2, rfl, hm⟩)
          rw [leafPairs_known h.1 h.2 hs, if_pos hm]
        · exact Or.inl (Or.inr ⟨h.1, h.2, Or.inr hm⟩)

/-- A leaf pair of two lists is one of two types at the same place. -/
theorem mem_leafPairsAll {stop : Ty → Bool} {ls rs : List Ty} {p : Ty × Ty}
    (h : p ∈ leafPairsAll stop ls rs) : ∃ q ∈ ls.zip rs, p ∈ leafPairs stop q.1 q.2 := by
  induction ls generalizing rs with
  | nil => simp [leafPairsAll] at h
  | cons l ls ih =>
      cases rs with
      | nil => simp [leafPairsAll] at h
      | cons r rs =>
          rcases List.mem_append.mp h with h | h
          · exact ⟨(l, r), by simp, h⟩
          · obtain ⟨q, hq, hp⟩ := ih h
            exact ⟨q, List.mem_cons_of_mem _ hq, hp⟩

/-- The other way around, a leaf pair of two types at the same place is one of the lists. -/
theorem mem_leafPairsAll_of_zip {stop : Ty → Bool} {ls rs : List Ty} {p q : Ty × Ty}
    (hq : q ∈ ls.zip rs) (hp : p ∈ leafPairs stop q.1 q.2) : p ∈ leafPairsAll stop ls rs := by
  induction ls generalizing rs with
  | nil => simp at hq
  | cons l ls ih =>
      cases rs with
      | nil => simp at hq
      | cons r rs =>
          rw [leafPairsAll, List.mem_append]
          rw [List.zip_cons_cons] at hq
          rcases List.mem_cons.mp hq with rfl | hq
          · exact .inl hp
          · exact .inr (ih hq)

/-- The leaf pairs are leaves. -/
theorem isLeaf_of_mem_leafPairs {stop : Ty → Bool} (l : Ty) :
    ∀ {r : Ty} {p : Ty × Ty}, p ∈ leafPairs stop l r → IsLeaf stop p.1 p.2 := by
  induction l using Ty.partsInduction with
  | unknown u =>
      intro r p hp
      rcases leafPairs_cases stop (.unknown u) r with h | ⟨h, -, -⟩ | ⟨-, h, -⟩
      · rw [leafPairs_eq_singleton h, List.mem_singleton] at hp
        rwa [hp]
      · simp [h] at hp
      · simp [Ty.isUnknown] at h
  | known l _ ih =>
      intro r p hp
      rcases leafPairs_cases stop l r with h | ⟨h, -, -⟩ | ⟨h, -⟩
      · rw [leafPairs_eq_singleton h, List.mem_singleton] at hp
        rwa [hp]
      · simp [h] at hp
      · rw [h] at hp
        obtain ⟨q, hq, hp⟩ := mem_leafPairsAll hp
        exact ih q.1 (List.of_mem_zip hq).1 hp

/-! ### The walk -/

/-- To unify two lists is to unify their leaf pairs in order, if this holds for each type
on the left. The induction over types uses it at the parts of a type. -/
theorem typeUnifyAll_eq_unifyPairs {stop : Ty → Bool} {ls : List Ty}
    (h : ∀ l ∈ ls, ∀ (r : Ty) (c : TypeConstraints),
      typeUnify l r c = unifyPairs (leafPairs stop l r) c)
    (rs : List Ty) (c : TypeConstraints) :
    typeUnifyAll ls rs c = unifyPairs (leafPairsAll stop ls rs) c := by
  induction ls generalizing rs c with
  | nil => rfl
  | cons l ls ih =>
      cases rs with
      | nil => rfl
      | cons r rs =>
          rw [typeUnifyAll, leafPairsAll, unifyPairs_append, h l (by simp) r c]
          rcases unifyPairs (leafPairs stop l r) c with ⟨_ | _, c'⟩
          · rfl
          · exact ih (fun l hl => h l (List.mem_cons_of_mem _ hl)) rs c'

/-- Unifying two types is unifying their leaf pairs in order. -/
theorem typeUnify_eq_unifyPairs (stop : Ty → Bool) (l : Ty) :
    ∀ (r : Ty) (c : TypeConstraints),
      typeUnify l r c = unifyPairs (leafPairs stop l r) c := by
  induction l using Ty.partsInduction with
  | unknown u =>
      intro r c
      rcases leafPairs_cases stop (.unknown u) r with h | ⟨h, heq, hu⟩ | ⟨-, h, -⟩
      · rw [leafPairs_eq_singleton h, unifyPairs_singleton]
      · rw [h, typeUnify_unknown (by simp [hu]), if_pos heq, unifyPairs]
      · simp [Ty.isUnknown] at h
  | known l hl ih =>
      intro r c
      rcases leafPairs_cases stop l r with h | ⟨-, -, hu⟩ | ⟨h, -, hr, -, hm⟩
      · rw [leafPairs_eq_singleton h, unifyPairs_singleton]
      · simp [hl] at hu
      · rw [h, typeUnify_known hl hr, if_pos hm]
        exact typeUnifyAll_eq_unifyPairs ih r.parts c

end Aike
