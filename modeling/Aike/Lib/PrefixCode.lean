import Aike.Lib.Decimal

/-!
# `Aike.Lib.PrefixCode`: codes that are read from the front

A value is `Readable` from its code when no other value has a code that agrees with it up
to what follows. Then no code is a proper prefix of another one, and a sequence of codes is
read code by code (`flatMap_append_inj`), up to a symbol that starts no code.
`lengthPrefixed_append_inj` reads a name that stands behind its length.
-/

set_option autoImplicit false

namespace PrefixCode

variable {α κ : Type}

/-- The value is determined by a text that starts with its code, and so is what follows. -/
def Readable (code : α → List κ) (a : α) : Prop :=
  ∀ b r r', code a ++ r = code b ++ r' → a = b ∧ r = r'

/-- No code starts where a text ends, or goes on with another symbol. -/
def Stops (start : κ → Prop) (r : List κ) : Prop := ∀ c ∈ r.head?, ¬ start c

/-- The end of the text stops every code. -/
theorem stops_nil {start : κ → Prop} : Stops start [] := fun _ h => nomatch h

/-- A symbol that starts no code stops them. -/
theorem stops_cons {start : κ → Prop} {c : κ} {r : List κ} (h : ¬ start c) :
    Stops start (c :: r) := by
  rintro _ ⟨⟩
  exact h

/-- A value that is readable has no code that is a prefix of another code. -/
theorem Readable.eq_of_prefix {code : α → List κ} {a b : α} (h : Readable code a)
    (hstarts : code a <+: code b) : a = b := by
  obtain ⟨r, hr⟩ := hstarts
  exact (h b r [] (by rw [hr, List.append_nil])).1

/-- A sequence of codes is read code by code. The codes start with a symbol that what
follows the sequence does not start with. -/
theorem flatMap_append_inj {code : α → List κ} {start : κ → Prop}
    (hstart : ∀ a, ∃ c rest, code a = c :: rest ∧ start c) {as bs : List α} {r r' : List κ}
    (has : ∀ a ∈ as, Readable code a) (hr : Stops start r) (hr' : Stops start r')
    (h : as.flatMap code ++ r = bs.flatMap code ++ r') : as = bs ∧ r = r' := by
  induction as generalizing bs with
  | nil =>
      cases bs with
      | nil => exact ⟨rfl, h⟩
      | cons b bs =>
          obtain ⟨c, rest, hcode, hc⟩ := hstart b
          have heq : r = c :: (rest ++ (bs.flatMap code ++ r')) := by
            rw [← List.nil_append r, ← List.flatMap_nil (f := code), h, List.flatMap_cons, hcode]
            simp
          exact absurd hc (hr c (by rw [heq]; rfl))
  | cons a as ih =>
      cases bs with
      | nil =>
          obtain ⟨c, rest, hcode, hc⟩ := hstart a
          have heq : r' = c :: (rest ++ (as.flatMap code ++ r)) := by
            rw [← List.nil_append r', ← List.flatMap_nil (f := code), ← h, List.flatMap_cons,
              hcode]
            simp
          exact absurd hc (hr' c (by rw [heq]; rfl))
      | cons b bs =>
          rw [List.flatMap_cons, List.flatMap_cons, List.append_assoc, List.append_assoc] at h
          obtain ⟨rfl, htail⟩ := has a List.mem_cons_self b _ _ h
          obtain ⟨rfl, hrest⟩ := ih (fun x hx => has x (List.mem_cons_of_mem _ hx)) htail
          exact ⟨rfl, hrest⟩

/-- A name behind its length. -/
def lengthPrefixed (name : List Char) : List Char := Nat.toDigits 10 name.length ++ name

/-- A name that does not start with a digit is read from behind its length. -/
theorem lengthPrefixed_append_inj {n m r r' : List Char} (hn : ∃ c ∈ n.head?, c.isDigit = false)
    (hm : ∃ c ∈ m.head?, c.isDigit = false)
    (h : lengthPrefixed n ++ r = lengthPrefixed m ++ r') : n = m ∧ r = r' := by
  have hhead : ∀ {n : List Char} (r : List Char), (∃ c ∈ n.head?, c.isDigit = false) →
      ∀ c ∈ (n ++ r).head?, c.isDigit = false := by
    rintro (_ | ⟨d, n⟩) r ⟨c, hc, hdigit⟩
    · cases hc
    · cases hc
      rintro _ ⟨⟩
      exact hdigit
  unfold lengthPrefixed at h
  rw [List.append_assoc, List.append_assoc] at h
  obtain ⟨hlength, hrest⟩ := Decimal.toDigits_append_inj (hhead r hn) (hhead r' hm) h
  exact List.append_inj hrest hlength

end PrefixCode
