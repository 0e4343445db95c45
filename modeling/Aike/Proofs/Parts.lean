import Aike.Model.Type

/-!
# `Aike.Proofs.Parts`: a known type is a head over parts

The functions of the type model go over the kinds of a type one by one. Seen
from outside they all do the same thing: an `Unknown` is a case of its own, and
every other type is a head (its kind, with what the kind compares: the vararg
flag, the declaration) over a list of parts. This file gives that view
(`Ty.head`, `Ty.parts`), one equation in it for each function, and the
induction principle that goes with it, `Ty.partsInduction`.
-/

set_option autoImplicit false

namespace Aike

/-- What two types other than `Unknown` must share before their parts are
compared. The written name of an `Instance` is not in it. -/
inductive TyHead
  | void
  | bool
  | integer
  | float
  | string
  | tuple
  | array
  | pointer
  | function (varargs : Bool)
  | inst (target : TyTarget)
  deriving DecidableEq, Repr

namespace Ty

/-- The head of a type. An `Unknown` has none. -/
def head : Ty → Option TyHead
  | .unknown _ => none
  | .void => some .void
  | .bool => some .bool
  | .integer => some .integer
  | .float => some .float
  | .string => some .string
  | .tuple _ => some .tuple
  | .array _ => some .array
  | .pointer _ => some .pointer
  | .function _ _ varargs => some (.function varargs)
  | .inst _ _ target => some (.inst target)

/-- The types directly below a type, a function's return type last. -/
def parts : Ty → List Ty
  | .tuple fields => fields
  | .array element => [element]
  | .pointer element => [element]
  | .function args ret _ => args ++ [ret]
  | .inst _ tyargs _ => tyargs
  | _ => []

/-- A type that is an `Unknown` has a number. -/
theorem eq_unknown {t : Ty} (h : t.isUnknown = true) : ∃ u, t = .unknown u := by
  cases t with
  | unknown u => exact ⟨u, rfl⟩
  | _ => simp [isUnknown] at h

mutual

/-- Induction over a type by its parts. -/
theorem partsInduction {P : Ty → Prop} (unknown : ∀ u, P (.unknown u))
    (known : ∀ t, t.isUnknown = false → (∀ s ∈ t.parts, P s) → P t) : (t : Ty) → P t
  | .unknown u => unknown u
  | .tuple fields => known _ rfl (partsInductionAll unknown known fields)
  | .array element => known _ rfl fun s hs => by
      rw [List.mem_singleton.mp hs]
      exact partsInduction unknown known element
  | .pointer element => known _ rfl fun s hs => by
      rw [List.mem_singleton.mp hs]
      exact partsInduction unknown known element
  | .function args ret _ => known _ rfl fun s hs => by
      rcases List.mem_append.mp hs with hs | hs
      · exact partsInductionAll unknown known args s hs
      · rw [List.mem_singleton.mp hs]
        exact partsInduction unknown known ret
  | .inst _ tyargs _ => known _ rfl (partsInductionAll unknown known tyargs)
  | .void | .bool | .integer | .float | .string => known _ rfl (by simp [parts])

/-- `partsInduction` for every type of a list. -/
theorem partsInductionAll {P : Ty → Prop} (unknown : ∀ u, P (.unknown u))
    (known : ∀ t, t.isUnknown = false → (∀ s ∈ t.parts, P s) → P t) :
    (ts : List Ty) → ∀ s ∈ ts, P s
  | [], _, hs => absurd hs List.not_mem_nil
  | t :: ts, s, hs => by
      rcases List.mem_cons.mp hs with hst | hs
      · rw [hst]
        exact partsInduction unknown known t
      · exact partsInductionAll unknown known ts s hs

end

end Ty

/-! ### One equation for each function -/

/-- An `Unknown` occurs in some types if and only if it does in one of them. -/
theorem typeOccursAny_eq (ts : List Ty) (u : UnknownId) :
    typeOccursAny ts u = ts.any (typeOccurs · u) := by
  induction ts with
  | nil => rfl
  | cons t ts ih => rw [typeOccursAny, List.any_cons, ih]

/-- An `Unknown` occurs in a known type if and only if it does in one of its parts. -/
theorem typeOccurs_known {t : Ty} (h : t.isUnknown = false) (u : UnknownId) :
    typeOccurs t u = t.parts.any (typeOccurs · u) := by
  cases t <;> simp_all [typeOccurs, typeOccursAny_eq, Ty.parts, Ty.isUnknown]

/-- To unify lists that are put together is to unify their first halves and then the
others, unless that fails. -/
theorem typeUnifyAll_append (ls ls' rs rs' : List Ty) (h : ls.length = rs.length)
    (c : TypeConstraints) :
    typeUnifyAll (ls ++ ls') (rs ++ rs') c
      = match typeUnifyAll ls rs c with
        | (true, c) => typeUnifyAll ls' rs' c
        | (false, c) => (false, c) := by
  induction ls generalizing rs c with
  | nil =>
      rw [List.length_nil, eq_comm, List.length_eq_zero_iff] at h
      subst h
      simp [typeUnifyAll]
  | cons l ls ih =>
      cases rs with
      | nil => simp at h
      | cons r rs =>
          simp only [List.length_cons, Nat.add_right_cancel_iff] at h
          simp only [List.cons_append, typeUnifyAll]
          rcases typeUnify l r c with ⟨_ | _, c'⟩
          · rfl
          · exact ih rs h c'

/-- Lists of one type each are unified as these types are. -/
theorem typeUnifyAll_singleton (l r : Ty) (c : TypeConstraints) :
    typeUnifyAll [l] [r] c = typeUnify l r c := by
  simp only [typeUnifyAll]
  rcases typeUnify l r c with ⟨_ | _, _⟩ <;> rfl

/-- Unification at an `Unknown`. -/
theorem typeUnify_unknown {l r : Ty} (h : (l.isUnknown || r.isUnknown) = true)
    (c : TypeConstraints) :
    typeUnify l r c = if l = r then (true, c) else c.tryAdd l r := by
  rw [typeUnify.eq_def, if_pos h]

/-- Whether two types can be taken apart together. -/
def Ty.Matches (l r : Ty) : Prop := l.head = r.head ∧ l.parts.length = r.parts.length

instance (l r : Ty) : Decidable (l.Matches r) := inferInstanceAs (Decidable (_ ∧ _))

/-- Unification of two known types: of their parts, or of nothing where the
types do not match. -/
theorem typeUnify_known {l r : Ty} (hl : l.isUnknown = false) (hr : r.isUnknown = false)
    (c : TypeConstraints) :
    typeUnify l r c = if l.Matches r then typeUnifyAll l.parts r.parts c else (false, c) := by
  have h : ¬ (l.isUnknown || r.isUnknown) = true := by simp [hl, hr]
  rw [typeUnify.eq_def, if_neg h]
  cases l <;> cases r <;>
    simp_all [Ty.Matches, Ty.head, Ty.parts, Ty.isUnknown, typeUnifyAll]
  case array.array la ra => rcases typeUnify la ra c with ⟨_ | _, _⟩ <;> rfl
  case pointer.pointer lp rp => rcases typeUnify lp rp c with ⟨_ | _, _⟩ <;> rfl
  case function.function la lr lv ra rr rv =>
    by_cases hlen : la.length = ra.length
    · by_cases hv : lv = rv
      · have happend := typeUnifyAll_append la [lr] ra [rr] hlen c
        rcases htypes : typeUnifyAll la ra c with ⟨_ | _, _⟩ <;>
          simp [hlen, hv, happend, htypes, typeUnifyAll_singleton]
      · simp [hlen, hv]
    · simp [hlen]
  case inst.inst ln la ld rn ra rd =>
    by_cases hd : ld = rd <;> by_cases hlen : la.length = ra.length <;> simp [hd, hlen]

/-- `typeEquals` on the two lists, pair by pair. -/
theorem typeEqualsAll_eq (ls rs : List Ty) :
    typeEqualsAll ls rs = (ls.zip rs).all fun p => typeEquals p.1 p.2 := by
  induction ls generalizing rs with
  | nil => rfl
  | cons l ls ih =>
      cases rs with
      | nil => rfl
      | cons r rs => rw [typeEqualsAll, List.zip_cons_cons, List.all_cons, ih]

/-- Two known types are equal when they match and their parts are. -/
theorem typeEquals_known {l r : Ty} (hl : l.isUnknown = false) (hr : r.isUnknown = false) :
    typeEquals l r = (decide (l.Matches r) && typeEqualsAll l.parts r.parts) := by
  cases l <;> cases r <;>
    simp_all [typeEquals, typeEqualsAll, Ty.Matches, Ty.head, Ty.parts, Ty.isUnknown]
  case tuple.tuple lt rt => rfl
  case function.function la lr lv ra rr rv =>
    by_cases hlen : la.length = ra.length
    · have hzip : typeEqualsAll (la ++ [lr]) (ra ++ [rr]) =
          (typeEqualsAll la ra && typeEquals lr rr) := by
        rw [typeEqualsAll_eq, typeEqualsAll_eq, List.zip_append hlen]
        simp
      by_cases hv : lv = rv <;> simp [hlen, hv, hzip]
    · simp [hlen]
  case inst.inst ln la ld rn ra rd =>
    by_cases hd : ld = rd <;> by_cases hlen : la.length = ra.length <;> simp [hd, hlen]

/-- Types are known if and only if each of them is. -/
theorem typeKnownAll_eq (ts : List Ty) : typeKnownAll ts = ts.all typeKnown := by
  induction ts with
  | nil => rfl
  | cons t ts ih => rw [typeKnownAll, List.all_cons, ih]

/-- A type without `Unknown`s is known and its parts have none. -/
theorem typeKnown_iff (t : Ty) :
    typeKnown t = true ↔ t.isUnknown = false ∧ ∀ s ∈ t.parts, typeKnown s = true := by
  cases t <;> simp [typeKnown, typeKnownAll_eq, Ty.isUnknown, Ty.parts]
  case function args ret varargs =>
    constructor
    · rintro ⟨hargs, hret⟩ s (hs | rfl)
      · exact hargs s hs
      · exact hret
    · exact fun h => ⟨fun s hs => h s (.inl hs), h ret (.inr rfl)⟩

end Aike
