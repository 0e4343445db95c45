import Aike.Lib.Decimal
import Aike.Proofs.Members

/-!
# `Aike.Proofs.FindMember`: the names of fields

`findMember_unique_iff`: when the names of the fields of a type identify them. Those of
a struct always do. A field of a tuple has the name `_` and its numeral, and
`findMember` also accepts other names for it (`Padded`).
-/

set_option autoImplicit false

namespace Aike

variable {program : Program} {type : Ty} {name name' : Str} {fields : List Ty} {k : Nat}

/-- `strtoll` answers the number that the digits denote, up to `LLONG_MAX`. Leading zeros
are allowed, which is why two names can mean one field. -/
theorem strtoll_eq_some_iff {digits : Str} :
    strtoll digits = some k ↔
      (∀ c ∈ digits, c.isDigit = true) ∧ k ≤ 0x7fffffffffffffff ∧ Decimal.value digits = k := by
  unfold strtoll
  by_cases hall : digits.all Char.isDigit = true
  case neg =>
    rw [if_neg hall]
    exact iff_of_false (fun h => nomatch h) fun h => hall (List.all_eq_true.mpr h.1)
  case pos =>
    rw [if_pos hall]
    show (if Decimal.value digits ≤ _ then some (Decimal.value digits) else none) = some k ↔ _
    by_cases hle : Decimal.value digits ≤ 0x7fffffffffffffff
    · rw [if_pos hle, Option.some_inj]
      refine ⟨?_, fun h => h.2.2⟩
      rintro rfl
      exact ⟨List.all_eq_true.mp hall, hle, rfl⟩
    · rw [if_neg hle]
      refine iff_of_false (fun h => nomatch h) ?_
      rintro ⟨-, hk, rfl⟩
      exact hle hk

/-- The name of a field of a tuple. -/
def tupleFieldName (k : Nat) : Str := '_' :: Nat.toDigits 10 k

/-- A member of a tuple is found at an index of the tuple that its digits denote. -/
theorem findMember_tuple_iff :
    findMember program (.tuple fields) name = .ok k ↔
      ∃ digits, name = '_' :: digits ∧ strtoll digits = some k ∧ k < fields.length := by
  constructor
  · intro h
    obtain ⟨i, digits, hi, hlt, hname, hdigits⟩ := hasField_of_findMember h (Int.natCast_nonneg k)
    cases Int.ofNat.inj hi
    exact ⟨digits, hname, hdigits, hlt⟩
  · rintro ⟨digits, rfl, hdigits, hlt⟩
    simp only [findMember, hdigits, if_pos hlt]

/-- The names of the fields of a type identify them. -/
structure MembersIdentified (program : Program) (type : Ty) (name name' : Str) : Prop where
  unique : name ≠ name' → ∀ k : Nat,
    ¬ (findMember program type name = .ok k ∧ findMember program type name' = .ok k)
  tuple : ∀ fields, type = .tuple fields → ∀ n ∈ [name, name'], ∀ k : Nat,
    findMember program type n = .ok k ↔ n = tupleFieldName k ∧ k < fields.length

/-- `_` before no digits, or before digits with a superfluous zero, that denote the index
of a field. -/
def Padded (fields : List Ty) (name : Str) : Prop :=
  ∃ digits, name = '_' :: digits ∧ (∀ c ∈ digits, c.isDigit = true) ∧
    (digits = [] ∨ ∃ rest, rest ≠ [] ∧ digits = '0' :: rest) ∧
    Decimal.value digits ≤ 0x7fffffffffffffff ∧ Decimal.value digits < fields.length

/-- The name of a field whose index is beyond `LLONG_MAX`: `strtoll` sets `errno`, and the
answer is -1. -/
def BeyondRange (fields : List Ty) (name : Str) : Prop :=
  ∃ k, 0x7fffffffffffffff < k ∧ k < fields.length ∧ name = tupleFieldName k

/-- When a name is that of a field exactly if it is read as its index. -/
theorem findMember_tuple_exact_iff :
    (∀ k : Nat, findMember program (.tuple fields) name = .ok k ↔
        name = tupleFieldName k ∧ k < fields.length) ↔
      ¬ Padded fields name ∧ ¬ BeyondRange fields name := by
  constructor
  · intro h
    refine ⟨?_, ?_⟩
    -- A padded name is read as a number, but is not how the number is written.
    · rintro ⟨digits, rfl, hdigits, hpadded, hle, hlt⟩
      have hread := (@findMember_tuple_iff program ('_' :: digits) fields _).mpr
        ⟨digits, rfl, strtoll_eq_some_iff.mpr ⟨hdigits, hle, rfl⟩, hlt⟩
      have hname := (List.cons.inj ((h _).mp hread).1).2
      obtain ⟨hne, hzero⟩ := ((Decimal.eq_toDigits_iff hdigits _).mp hname).1
      rcases hpadded with rfl | ⟨rest, hrest, rfl⟩
      · exact hne rfl
      · exact hrest (hzero rest rfl)
    -- A field beyond the range has a name that is not read.
    · rintro ⟨k, hbeyond, hlt, rfl⟩
      obtain ⟨digits, -, hdigits, -⟩ := findMember_tuple_iff.mp ((h k).mpr ⟨rfl, hlt⟩)
      exact Nat.not_le_of_lt hbeyond (strtoll_eq_some_iff.mp hdigits).2.1
  · rintro ⟨hpadded, hbeyond⟩ k
    rw [findMember_tuple_iff]
    constructor
    · rintro ⟨digits, rfl, hread, hlt⟩
      obtain ⟨hdigits, hle, rfl⟩ := strtoll_eq_some_iff.mp hread
      -- Otherwise the digits are those that the index is written with.
      have hcanonical : Decimal.Canonical digits := by
        refine ⟨fun hnil => hpadded ⟨digits, rfl, hdigits, .inl hnil, hle, hlt⟩, fun rest h => ?_⟩
        by_contra hrest
        exact hpadded ⟨digits, rfl, hdigits, .inr ⟨rest, hrest, h⟩, hle, hlt⟩
      refine ⟨congrArg ('_' :: ·) ?_, hlt⟩
      exact (Decimal.toDigits_value hdigits hcanonical).symm
    · rintro ⟨rfl, hlt⟩
      have hle : k ≤ 0x7fffffffffffffff := Nat.le_of_not_lt fun h => hbeyond ⟨k, h, hlt, rfl⟩
      exact ⟨_, rfl, strtoll_eq_some_iff.mpr
        ⟨Decimal.isDigit_toDigits k, hle, Decimal.value_toDigits k⟩, hlt⟩

/-- A field of a struct has one name. -/
theorem findMember_struct_inj {node : InstanceNode} {tyargs : List Ty} {d : DefId}
    (h : findMember program (.inst node tyargs (.struct d)) name = .ok k)
    (h' : findMember program (.inst node tyargs (.struct d)) name' = .ok k) : name = name' := by
  obtain ⟨tydef, hdef, i, field, hi, hfield, rfl⟩ :=
    hasField_of_findMember h (Int.natCast_nonneg k)
  obtain ⟨tydef', hdef', i', field', hi', hfield', rfl⟩ :=
    hasField_of_findMember h' (Int.natCast_nonneg k)
  cases hdef.symm.trans hdef'
  cases Int.ofNat.inj (hi.symm.trans hi')
  cases hfield.symm.trans hfield'
  rfl

end Aike
