import Aike.Proofs.Unify.Walk

/-!
# `Aike.Proofs.Solution`: what an equation between types means

A `GroundTy` is a type without `Unknown`s, up to what `typeEquals` does not
look at: a head over parts. Given a `GroundTy` for every `Unknown` and for some
type parameters, a `Ty` denotes a `GroundTy` (`Ty.denote`), and a pair of types
is solved when both sides denote the same one.

* `denote_eq_of_mem_leafPairs`: what solves a pair solves the leaf pairs of it.
* `denote_ne_of_not_matches` and `denote_ne_of_occurs` are the two kinds of leaf
  pairs that nothing solves: types that do not match, and an `Unknown` against a
  type that contains it.
-/

set_option autoImplicit false

namespace Aike

/-- A type without `Unknown`s. -/
inductive GroundTy
  | node (head : TyHead) (parts : List GroundTy)

namespace GroundTy

mutual

/-- The number of heads in a type. -/
def size : GroundTy → Nat
  | .node _ parts => sizeAll parts + 1

/-- `size`, summed over a list. -/
def sizeAll : List GroundTy → Nat
  | [] => 0
  | t :: ts => size t + sizeAll ts

end

/-- A part is no larger than all parts together. -/
theorem size_le_sizeAll {t : GroundTy} {ts : List GroundTy} (h : t ∈ ts) :
    t.size ≤ sizeAll ts := by
  induction ts with
  | nil => simp at h
  | cons s ts ih =>
      rw [sizeAll]
      rcases List.mem_cons.mp h with rfl | h
      · omega
      · have := ih h
        omega

/-- Parts are smaller. -/
theorem size_lt_of_mem {t : GroundTy} (head : TyHead) {parts : List GroundTy} (h : t ∈ parts) :
    t.size < (GroundTy.node head parts).size := by
  have := size_le_sizeAll h
  rw [size]
  omega

end GroundTy

/-- The type parameter that an `Instance` stands for. -/
def Ty.generic? : Ty → Option GenericId
  | .inst _ _ (.generic g) => some g
  | _ => none

/-- Whether a type is one of the type parameters `own`: the walk over the leaf
pairs of a candidate stops at its own parameters. -/
def Ty.isOwn (own : List GenericId) (t : Ty) : Bool :=
  match t.generic? with
  | some g => own.contains g
  | none => false

mutual

/-- The type that `t` denotes: the chosen one at an `Unknown` and at a type
parameter in `own`, and the same head over what the parts denote elsewhere. -/
def Ty.denote (own : List GenericId) (σ : GenericId → GroundTy) (θ : UnknownId → GroundTy) :
    Ty → GroundTy
  | .unknown u => θ u
  | .void => .node .void []
  | .bool => .node .bool []
  | .integer => .node .integer []
  | .float => .node .float []
  | .string => .node .string []
  | .tuple fields => .node .tuple (denoteAll own σ θ fields)
  | .array element => .node .array [denote own σ θ element]
  | .pointer element => .node .pointer [denote own σ θ element]
  | .function args ret varargs =>
      .node (.function varargs) (denoteAll own σ θ args ++ [denote own σ θ ret])
  | .inst _ tyargs target =>
      match target with
      | .generic g =>
          if own.contains g then σ g
          else .node (.inst (.generic g)) (denoteAll own σ θ tyargs)
      | target => .node (.inst target) (denoteAll own σ θ tyargs)

/-- `Ty.denote`, on a list. -/
def Ty.denoteAll (own : List GenericId) (σ : GenericId → GroundTy) (θ : UnknownId → GroundTy) :
    List Ty → List GroundTy
  | [] => []
  | t :: ts => denote own σ θ t :: denoteAll own σ θ ts

end

/-- Somewhere in the type one of the parameters `own` is given type arguments.
`instantiateType` reports that as an error, in a later pass over the tree than
the one that reduces candidates. -/
inductive Ty.AppliesOwn (own : List GenericId) : Ty → Prop
  | here {t : Ty} (hown : t.isOwn own = true) (hparts : t.parts ≠ []) : AppliesOwn own t
  | inside {s t : Ty} (hs : s ∈ t.parts) (h : AppliesOwn own s) : AppliesOwn own t

section Denote

variable {own : List GenericId} {σ : GenericId → GroundTy} {θ : UnknownId → GroundTy}

namespace Ty

/-- What a list of types denotes is what each of them does. -/
theorem denoteAll_eq_map (ts : List Ty) : denoteAll own σ θ ts = ts.map (denote own σ θ) := by
  induction ts with
  | nil => rfl
  | cons t ts ih => rw [denoteAll, ih, List.map_cons]

/-- With no parameters, no type is one of them. -/
@[simp] theorem isOwn_nil (t : Ty) : t.isOwn [] = false := by
  unfold isOwn
  cases t.generic? <;> rfl

/-- With no parameters, none is applied to type arguments. -/
theorem not_appliesOwn_nil (t : Ty) : ¬ t.AppliesOwn [] := by
  intro h
  induction h with
  | here hown _ => simp at hown
  | inside _ _ ih => exact ih

/-- A known type that is no parameter in `own` denotes its head over what its
parts denote. -/
theorem denote_known {t : Ty} (hk : t.isUnknown = false) (hown : t.isOwn own = false) :
    ∃ head, t.head = some head
      ∧ t.denote own σ θ = .node head (t.parts.map (denote own σ θ)) := by
  cases t with
  | unknown u => simp [isUnknown] at hk
  | inst node tyargs target =>
      cases target with
      | generic g =>
          have hg : own.contains g = false := hown
          exact ⟨_, rfl, by rw [denote, hg]; simp [parts, denoteAll_eq_map]⟩
      | _ => exact ⟨_, rfl, by simp [denote, parts, denoteAll_eq_map]⟩
  | _ => exact ⟨_, rfl, by simp [denote, parts, denoteAll_eq_map]⟩

/-- An `Unknown` that occurs in a type denotes no more than the type does. -/
theorem size_le_of_occurs {u : UnknownId} (t : Ty) :
    ¬ t.AppliesOwn own → typeOccurs t u = true →
      (θ u).size ≤ (t.denote own σ θ).size := by
  induction t using Ty.partsInduction with
  | unknown v =>
      intro _ h
      have hvu : v = u := by simpa [typeOccurs] using h
      exact Nat.le_of_eq (by rw [hvu, denote])
  | known t hk ih =>
      intro happ h
      rw [typeOccurs_known hk, List.any_eq_true] at h
      obtain ⟨s, hs, hocc⟩ := h
      have hown : t.isOwn own = false := by
        cases hown : t.isOwn own with
        | false => rfl
        | true => exact absurd (.here hown (List.ne_nil_of_mem hs)) happ
      obtain ⟨head, -, hden⟩ := denote_known (σ := σ) (θ := θ) hk hown
      have hle := ih s hs (fun h => happ (.inside hs h)) hocc
      have hlt := GroundTy.size_lt_of_mem head
        (List.mem_map_of_mem (f := denote own σ θ) hs)
      rw [hden]
      omega

end Ty

/-! ### Leaf pairs that nothing solves -/

/-- Nothing is at once what an `Unknown` denotes and what a known type
containing it does: the second is larger. -/
theorem denote_ne_of_occurs {t : Ty} {u : UnknownId} (hk : t.isUnknown = false)
    (happ : ¬ t.AppliesOwn own) (hocc : typeOccurs t u = true) : t.denote own σ θ ≠ θ u := by
  intro heq
  rw [typeOccurs_known hk, List.any_eq_true] at hocc
  obtain ⟨s, hs, hocc⟩ := hocc
  have hown : t.isOwn own = false := by
    cases hown : t.isOwn own with
    | false => rfl
    | true => exact absurd (.here hown (List.ne_nil_of_mem hs)) happ
  obtain ⟨head, -, hden⟩ := Ty.denote_known (σ := σ) (θ := θ) hk hown
  have hle := s.size_le_of_occurs (σ := σ) (θ := θ) (fun h => happ (.inside hs h)) hocc
  have hlt := GroundTy.size_lt_of_mem head
    (List.mem_map_of_mem (f := Ty.denote own σ θ) hs)
  rw [← heq, hden] at hle
  omega

/-- Two known types that do not match denote different types. -/
theorem denote_ne_of_not_matches {l r : Ty} (hl : l.isUnknown = false) (hr : r.isUnknown = false)
    (hown : l.isOwn own = false) (hm : ¬ l.Matches r) :
    l.denote own σ θ ≠ r.denote [] σ θ := by
  intro heq
  obtain ⟨lh, hlh, hlden⟩ := Ty.denote_known (σ := σ) (θ := θ) hl hown
  obtain ⟨rh, hrh, hrden⟩ := Ty.denote_known (σ := σ) (θ := θ) hr r.isOwn_nil
  rw [hlden, hrden, GroundTy.node.injEq] at heq
  have hlen := congrArg List.length heq.2
  rw [List.length_map, List.length_map] at hlen
  exact hm ⟨by rw [hlh, hrh, heq.1], hlen⟩

/-! ### What solves a pair solves its leaf pairs -/

/-- What holds at the leaf pairs of each pair of types in two lists holds at the leaf
pairs of the lists. -/
theorem denote_eq_of_mem_leafPairsAll {ls rs : List Ty} {p : Ty × Ty}
    (h : ∀ q ∈ ls.zip rs, ∀ p ∈ leafPairs (Ty.isOwn own) q.1 q.2,
      p.1.denote own σ θ = p.2.denote [] σ θ)
    (hp : p ∈ leafPairsAll (Ty.isOwn own) ls rs) :
    p.1.denote own σ θ = p.2.denote [] σ θ := by
  obtain ⟨q, hq, hp⟩ := mem_leafPairsAll hp
  exact h q hq p hp

/-- Matching known types that denote one type have parts that do, pair by pair. -/
theorem denote_parts_eq {l r : Ty} (hl : l.isUnknown = false) (hr : r.isUnknown = false)
    (hown : l.isOwn own = false) (heq : l.denote own σ θ = r.denote [] σ θ)
    {q : Ty × Ty} (hq : q ∈ l.parts.zip r.parts) :
    q.1.denote own σ θ = q.2.denote [] σ θ := by
  obtain ⟨lh, -, hlden⟩ := Ty.denote_known (σ := σ) (θ := θ) hl hown
  obtain ⟨rh, -, hrden⟩ := Ty.denote_known (σ := σ) (θ := θ) hr r.isOwn_nil
  rw [hlden, hrden, GroundTy.node.injEq] at heq
  obtain ⟨i, hi, hget⟩ := List.mem_iff_getElem.mp hq
  have hli : i < l.parts.length := by rw [List.length_zip] at hi; omega
  have hri : i < r.parts.length := by rw [List.length_zip] at hi; omega
  rw [List.getElem_zip] at hget
  have hparts : (l.parts.map (Ty.denote own σ θ))[i]? = (r.parts.map (Ty.denote [] σ θ))[i]? := by
    rw [heq.2]
  rw [List.getElem?_map, List.getElem?_map, List.getElem?_eq_getElem hli,
    List.getElem?_eq_getElem hri] at hparts
  rw [← hget]
  exact Option.some.inj hparts

/-- Two types that denote the same do so at all of their leaf pairs. The induction is over
the type on the left. -/
theorem denote_eq_of_mem_leafPairs (l : Ty) :
    ∀ {r : Ty} {p : Ty × Ty}, l.denote own σ θ = r.denote [] σ θ →
      p ∈ leafPairs (Ty.isOwn own) l r → p.1.denote own σ θ = p.2.denote [] σ θ := by
  induction l using Ty.partsInduction with
  | unknown u =>
      intro r p heq hp
      rcases leafPairs_cases (Ty.isOwn own) (.unknown u) r with h | ⟨h, -, -⟩ | ⟨-, h, -⟩
      · rw [leafPairs_eq_singleton h, List.mem_singleton] at hp
        rwa [hp]
      · simp [h] at hp
      · simp [Ty.isUnknown] at h
  | known l hk ih =>
      intro r p heq hp
      rcases leafPairs_cases (Ty.isOwn own) l r with h | ⟨h, -, -⟩ | ⟨h, -, hr, hown, -⟩
      · rw [leafPairs_eq_singleton h, List.mem_singleton] at hp
        rwa [hp]
      · simp [h] at hp
      · rw [h] at hp
        refine denote_eq_of_mem_leafPairsAll (fun q hq p hp => ?_) hp
        exact ih q.1 (List.of_mem_zip hq).1 (denote_parts_eq hk hr hown heq hq) hp

/-- What solves the leaf pairs of two types solves the two types. -/
theorem denote_eq_of_leafPairs (l : Ty) :
    ∀ {r : Ty}, (∀ p ∈ leafPairs (Ty.isOwn own) l r, p.1.denote own σ θ = p.2.denote [] σ θ) →
      l.denote own σ θ = r.denote [] σ θ := by
  induction l using Ty.partsInduction with
  | unknown u =>
      intro r h
      rcases leafPairs_cases (Ty.isOwn own) (.unknown u) r with hleaf | ⟨-, heq, -⟩ | ⟨-, hk, -⟩
      · exact h (.unknown u, r) (by rw [leafPairs_eq_singleton hleaf]; simp)
      · rw [← heq]
        rfl
      · simp [Ty.isUnknown] at hk
  | known l hl ih =>
      intro r h
      rcases leafPairs_cases (Ty.isOwn own) l r with
        hleaf | ⟨-, heq, hunk⟩ | ⟨hpairs, -, hr, hown, hm⟩
      · exact h (l, r) (by rw [leafPairs_eq_singleton hleaf]; simp)
      · simp [hl] at hunk
      · obtain ⟨lh, hlh, hlden⟩ := Ty.denote_known (σ := σ) (θ := θ) hl hown
        obtain ⟨rh, hrh, hrden⟩ := Ty.denote_known (σ := σ) (θ := θ) hr r.isOwn_nil
        have hhead : lh = rh := Option.some.inj (hlh.symm.trans (hm.1.trans hrh))
        rw [hpairs] at h
        -- the parts are paired in order, and each pair is by induction on the left type
        have hparts : l.parts.map (Ty.denote own σ θ) = r.parts.map (Ty.denote [] σ θ) := by
          refine List.ext_getElem (by simp [hm.2]) fun i hi hi' => ?_
          rw [List.length_map] at hi hi'
          have hzip : (l.parts[i], r.parts[i]) ∈ l.parts.zip r.parts :=
            List.mem_iff_getElem.mpr ⟨i, by rw [List.length_zip]; omega, List.getElem_zip⟩
          rw [List.getElem_map, List.getElem_map]
          exact ih _ (List.getElem_mem hi) fun p hp => h p (mem_leafPairsAll_of_zip hzip hp)
        rw [hlden, hrden, hhead, hparts]

end Denote

end Aike
