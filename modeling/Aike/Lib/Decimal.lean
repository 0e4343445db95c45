import Mathlib.Data.List.Induction

/-!
# `Aike.Lib.Decimal`: decimal numerals

`Nat.toDigits 10` writes a number, and `Nat.ofDigitChars 10` reads one. What is written
is read back (`Nat.ofDigitChars_ten_toDigits`), and a text that is read is what is
written exactly if it is `Canonical`: there are digits, and no zero before others.

A numeral ends where the digits end, so a text that starts with one determines it
(`toDigits_append_inj`).
-/

set_option autoImplicit false

namespace Decimal

/-- The number that digits denote. -/
def value (digits : List Char) : Nat := Nat.ofDigitChars 10 digits 0

/-- There are digits, and the first of several is no zero. -/
def Canonical (digits : List Char) : Prop :=
  digits ≠ [] ∧ ∀ rest, digits = '0' :: rest → rest = []

/-- A digit at the end makes the number ten times as large and adds itself. -/
theorem value_append_singleton (digits : List Char) (c : Char) :
    value (digits ++ [c]) = 10 * value digits + (c.toNat - '0'.toNat) := by
  rw [value, Nat.ofDigitChars_append, Nat.ofDigitChars_cons, Nat.ofDigitChars_nil, value]

/-- A digit denotes a number below ten, and is what this number is written as. -/
theorem digit_spec {c : Char} (h : c.isDigit = true) :
    c.toNat - '0'.toNat < 10 ∧ Nat.digitChar (c.toNat - '0'.toNat) = c := by
  have hle : 48 ≤ c.toNat ∧ c.toNat ≤ 57 := by
    simpa [Char.isDigit, UInt32.le_iff_toNat_le] using h
  have hlt : c.toNat - '0'.toNat < 10 := by
    show c.toNat - 48 < 10
    omega
  refine ⟨hlt, Char.toNat_inj.mp ?_⟩
  rw [Nat.toNat_digitChar_of_lt_ten hlt]
  show 48 + (c.toNat - 48) = c.toNat
  omega

/-- A numeral with another digit after it. -/
theorem Canonical.of_append {digits : List Char} {c : Char} (h : Canonical (digits ++ [c]))
    (hne : digits ≠ []) : Canonical digits ∧ digits ≠ ['0'] := by
  refine ⟨⟨hne, fun rest hrest => ?_⟩, ?_⟩
  · have := h.2 (rest ++ [c]) (by rw [hrest]; rfl)
    exact absurd this (List.append_ne_nil_of_right_ne_nil _ (List.cons_ne_nil _ _))
  · rintro rfl
    exact absurd (h.2 [c] rfl) (List.cons_ne_nil _ _)

/-- The digits of the number that canonical digits denote are those digits. -/
theorem toDigits_value {digits : List Char} (hdigits : ∀ c ∈ digits, c.isDigit = true)
    (h : Canonical digits) : Nat.toDigits 10 (value digits) = digits := by
  induction digits using List.reverseRecOn with
  | nil => exact absurd rfl h.1
  | append_singleton digits c ih =>
      rw [List.forall_mem_append, List.forall_mem_singleton] at hdigits
      obtain ⟨hlt, hchar⟩ := digit_spec hdigits.2
      by_cases hnil : digits = []
      · subst hnil
        rw [value_append_singleton, show value [] = 0 from rfl, Nat.mul_zero, Nat.zero_add,
          Nat.toDigits_of_lt_base hlt, hchar]
        rfl
      · obtain ⟨hcanonical, hne⟩ := h.of_append hnil
        have ih := ih hdigits.1 hcanonical
        have hpos : 0 < value digits := by
          refine Nat.pos_of_ne_zero fun hzero => hne ?_
          rw [← ih, hzero, Nat.toDigits_zero]
        rw [value_append_singleton, ← Nat.toDigits_append_toDigits (by decide) hpos hlt, ih,
          Nat.toDigits_of_lt_base hlt, hchar]

/-- The digits of a number denote it. -/
theorem value_toDigits (n : Nat) : value (Nat.toDigits 10 n) = n := Nat.ofDigitChars_ten_toDigits

/-- The digits of a number are digits. -/
theorem isDigit_toDigits (n : Nat) : ∀ c ∈ Nat.toDigits 10 n, c.isDigit = true := fun _ hc =>
  Nat.isDigit_of_mem_toDigits (by decide) (by decide) hc

/-- The digits of a number are canonical: there is one at least, and no zero in front of
others. -/
theorem canonical_toDigits (n : Nat) : Canonical (Nat.toDigits 10 n) := by
  induction n using Nat.strongRecOn with
  | ind n ih =>
      refine ⟨Nat.toDigits_ne_nil, fun rest hrest => ?_⟩
      by_cases hn : n < 10
      · rw [Nat.toDigits_of_lt_base hn] at hrest
        exact (List.cons.inj hrest).2.symm
      · -- the first digit is that of a tenth of the number
        have hn : 10 ≤ n := Nat.le_of_not_lt hn
        rw [Nat.toDigits_of_base_le (by decide) hn] at hrest
        have htenth := ih (n / 10) (by omega)
        cases hdigits : Nat.toDigits 10 (n / 10) with
        | nil => exact absurd hdigits htenth.1
        | cons c digits =>
            rw [hdigits, List.cons_append] at hrest
            obtain ⟨rfl, -⟩ := List.cons.inj hrest
            have hzero := value_toDigits (n / 10)
            rw [hdigits, htenth.2 digits hdigits] at hzero
            have : value ['0'] = 0 := rfl
            omega

/-- The numeral of a number is the text without a superfluous zero that denotes it. -/
theorem eq_toDigits_iff {digits : List Char} (hdigits : ∀ c ∈ digits, c.isDigit = true) (n : Nat) :
    digits = Nat.toDigits 10 n ↔ Canonical digits ∧ value digits = n := by
  constructor
  · rintro rfl
    exact ⟨canonical_toDigits n, value_toDigits n⟩
  · rintro ⟨h, rfl⟩
    exact (toDigits_value hdigits h).symm

/-- Two texts that start with digits and go on with something else, or end, have the same
digits. -/
theorem digits_append_inj {ds es r r' : List Char} (hds : ∀ c ∈ ds, c.isDigit = true)
    (hes : ∀ c ∈ es, c.isDigit = true) (hr : ∀ c ∈ r.head?, c.isDigit = false)
    (hr' : ∀ c ∈ r'.head?, c.isDigit = false) (h : ds ++ r = es ++ r') : ds = es ∧ r = r' := by
  induction ds generalizing es with
  | nil =>
      cases es with
      | nil => exact ⟨rfl, h⟩
      | cons e es =>
          -- The longer run of digits would go on where the other one ends.
          have hend := hr e (by rw [← List.nil_append r, h]; rfl)
          rw [hes e List.mem_cons_self] at hend
          cases hend
  | cons d ds ih =>
      cases es with
      | nil =>
          have hend := hr' d (by rw [← List.nil_append r', ← h]; rfl)
          rw [hds d List.mem_cons_self] at hend
          cases hend
      | cons e es =>
          obtain ⟨rfl, htail⟩ := List.cons.inj h
          obtain ⟨rfl, hrest⟩ := ih (fun c hc => hds c (List.mem_cons_of_mem _ hc))
            (fun c hc => hes c (List.mem_cons_of_mem _ hc)) htail
          exact ⟨rfl, hrest⟩

/-- A numeral ends where the digits end. -/
theorem toDigits_append_inj {n m : Nat} {r r' : List Char}
    (hr : ∀ c ∈ r.head?, c.isDigit = false) (hr' : ∀ c ∈ r'.head?, c.isDigit = false)
    (h : Nat.toDigits 10 n ++ r = Nat.toDigits 10 m ++ r') : n = m ∧ r = r' := by
  obtain ⟨hdigits, hrest⟩ :=
    digits_append_inj (isDigit_toDigits n) (isDigit_toDigits m) hr hr' h
  rw [← value_toDigits n, ← value_toDigits m, hdigits]
  exact ⟨rfl, hrest⟩

end Decimal
