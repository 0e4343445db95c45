import Mathlib.Data.List.Basic

/-!
# `Aike.Lib.Brackets`: words of brackets

The balanced words over brackets of any number of kinds (`Balanced`), and what
other words leave open (`LeavesOpen`). `Opens` says which brackets open, and
`Closes o c` that `c` closes `o`. `matching` is the machine with a stack, and
`matching_spec` what each of its ends says about the word:

* it leaves a stack: these brackets are open after the word;
* it stops at a bracket: the word is well nested up to there, and the bracket
  closes nothing or another kind.
-/

set_option autoImplicit false

namespace Brackets

variable {α : Type} {Opens : α → Prop} {Closes : α → α → Prop}

/-- The grammar of the balanced words: nothing, or a balanced word in brackets and
a balanced word. -/
inductive Balanced (Closes : α → α → Prop) : List α → Prop
  | nil : Balanced Closes []
  | pair {o c : α} {u v : List α} (hclose : Closes o c) (hu : Balanced Closes u)
      (hv : Balanced Closes v) : Balanced Closes (o :: (u ++ c :: v))

/-- The brackets that a word leaves open, the innermost first, with balanced words
around them. -/
inductive LeavesOpen (Opens : α → Prop) (Closes : α → α → Prop) : List α → List α → Prop
  | balanced {u : List α} (hu : Balanced Closes u) : LeavesOpen Opens Closes [] u
  | opened {o : α} {stack u v : List α} (hu : LeavesOpen Opens Closes stack u) (ho : Opens o)
      (hv : Balanced Closes v) : LeavesOpen Opens Closes (o :: stack) (u ++ o :: v)

/-- Balanced words are closed under concatenation. The induction is over how the first one
is built. -/
theorem Balanced.append {u v : List α} (hu : Balanced Closes u) (hv : Balanced Closes v) :
    Balanced Closes (u ++ v) := by
  induction hu with
  | nil => exact hv
  | pair hclose hu _ _ ih =>
      rw [List.cons_append, List.append_assoc, List.cons_append]
      exact .pair hclose hu ih

namespace LeavesOpen

variable {stack u v : List α} {o c : α}

/-- The empty word leaves nothing open. -/
theorem nil : LeavesOpen Opens Closes [] [] := .balanced .nil

/-- A balanced word at the end leaves the same brackets open. -/
theorem append (hu : LeavesOpen Opens Closes stack u) (hv : Balanced Closes v) :
    LeavesOpen Opens Closes stack (u ++ v) := by
  cases hu with
  | balanced hu => exact .balanced (hu.append hv)
  | opened hu ho hw =>
      rw [List.append_assoc, List.cons_append]
      exact .opened hu ho (hw.append hv)

/-- After one more bracket that opens. -/
theorem push (hu : LeavesOpen Opens Closes stack u) (ho : Opens o) :
    LeavesOpen Opens Closes (o :: stack) (u ++ [o]) := .opened hu ho .nil

/-- After a bracket that closes the innermost open one. -/
theorem pop (hu : LeavesOpen Opens Closes (o :: stack) u) (hclose : Closes o c) :
    LeavesOpen Opens Closes stack (u ++ [c]) := by
  cases hu with
  | opened hu ho hv =>
      rw [List.append_assoc, List.cons_append]
      exact hu.append (.pair hclose hv .nil)

/-- The brackets that are left open are opening ones. -/
theorem opens (hu : LeavesOpen Opens Closes stack u) {o : α} (ho : o ∈ stack) : Opens o := by
  induction hu with
  | balanced hu => exact absurd ho List.not_mem_nil
  | opened hu ho' hv ih =>
      rcases List.mem_cons.mp ho with rfl | ho
      · exact ho'
      · exact ih ho

/-- A word that leaves nothing open is balanced. -/
theorem nil_iff : LeavesOpen Opens Closes [] u ↔ Balanced Closes u := by
  constructor
  · intro hu
    cases hu with
    | balanced hu => exact hu
  · exact .balanced

end LeavesOpen

/-! ### The machine -/

/-- How the machine ends. -/
inductive Outcome (α : Type)
  /-- At the end of the word, with these brackets open. -/
  | left (stack : List α)
  /-- At a bracket that closes nothing. -/
  | nothing (c : α)
  /-- At a bracket that does not close the innermost open one. -/
  | mismatch (o c : α)

/-- The machine, with the open brackets on its stack. -/
def matching (Opens : α → Prop) (Closes : α → α → Prop) [DecidablePred Opens]
    [DecidableRel Closes] :
    List α → List α → Outcome α
  | stack, [] => .left stack
  | stack, b :: word =>
      if Opens b then matching Opens Closes (b :: stack) word
      else
        match stack with
        | [] => .nothing b
        | o :: stack => if Closes o b then matching Opens Closes stack word else .mismatch o b

section

variable [DecidablePred Opens] [DecidableRel Closes] {b o : α} {stack word : List α}

/-- The machine pushes an opening bracket. -/
theorem matching_of_opens (hb : Opens b) :
    matching Opens Closes stack (b :: word) = matching Opens Closes (b :: stack) word := by
  rw [matching.eq_def]
  exact if_pos hb

/-- The machine pops the innermost open bracket if the next one closes it, and stops if
not. -/
theorem matching_of_not_opens (hb : ¬ Opens b) :
    matching Opens Closes (o :: stack) (b :: word) =
      if Closes o b then matching Opens Closes stack word else .mismatch o b := by
  rw [matching.eq_def]
  exact if_neg hb

/-- With nothing open, the machine stops at a closing bracket. -/
theorem matching_nil_of_not_opens (hb : ¬ Opens b) :
    matching Opens Closes [] (b :: word) = .nothing b := by
  rw [matching.eq_def]
  exact if_neg hb

end

/-- What an end of the machine says about the word. -/
def Outcome.Says (Opens : α → Prop) (Closes : α → α → Prop) (word : List α) : Outcome α → Prop
  | .left stack => LeavesOpen Opens Closes stack word
  | .nothing c => ∃ u v, word = u ++ c :: v ∧ ¬ Opens c ∧ Balanced Closes u
  | .mismatch o c => ∃ u v stack, word = u ++ c :: v ∧ ¬ Opens c ∧ ¬ Closes o c ∧
      LeavesOpen Opens Closes (o :: stack) u

variable [DecidablePred Opens] [DecidableRel Closes]

/-- A run from the stack that the word before leaves. -/
theorem matching_says {stack before : List α} (hbefore : LeavesOpen Opens Closes stack before)
    (word : List α) : (matching Opens Closes stack word).Says Opens Closes (before ++ word) := by
  induction word generalizing stack before with
  | nil =>
      rw [List.append_nil]
      exact hbefore
  | cons b word ih =>
      -- One more symbol has been read, and the stack says what it left open.
      have hsplit : before ++ b :: word = before ++ [b] ++ word := List.append_cons _ _ _
      by_cases hb : Opens b
      · rw [matching_of_opens hb, hsplit]
        exact ih (hbefore.push hb)
      · cases stack with
        | nil =>
            rw [matching_nil_of_not_opens hb]
            exact ⟨before, word, rfl, hb, LeavesOpen.nil_iff.mp hbefore⟩
        | cons o stack =>
            rw [matching_of_not_opens hb]
            by_cases hclose : Closes o b
            · rw [if_pos hclose, hsplit]
              exact ih (hbefore.pop hclose)
            · rw [if_neg hclose]
              exact ⟨before, word, stack, rfl, hb, hclose, hbefore⟩

/-- The machine, started with nothing open, says the truth about the word. -/
theorem matching_spec (Opens : α → Prop) (Closes : α → α → Prop) [DecidablePred Opens]
    [DecidableRel Closes] (word : List α) :
    (matching Opens Closes [] word).Says Opens Closes word := matching_says .nil word

/-- The machine goes over a balanced word and has its stack back. -/
theorem matching_balanced (hcloses : ∀ o c, Closes o c → Opens o ∧ ¬ Opens c) {u : List α}
    (hu : Balanced Closes u) (stack v : List α) :
    matching Opens Closes stack (u ++ v) = matching Opens Closes stack v := by
  induction hu generalizing stack v with
  | nil => rfl
  | @pair o c u w hclose _ _ ihu ihw =>
      obtain ⟨ho, hc⟩ := hcloses o c hclose
      calc matching Opens Closes stack (o :: (u ++ c :: w) ++ v)
          = matching Opens Closes (o :: stack) (u ++ (c :: (w ++ v))) := by
            rw [List.cons_append, matching_of_opens ho, List.append_assoc, List.cons_append]
        _ = matching Opens Closes (o :: stack) (c :: (w ++ v)) := ihu _ _
        _ = matching Opens Closes stack (w ++ v) := by
            rw [matching_of_not_opens hc, if_pos hclose]
        _ = matching Opens Closes stack v := ihw _ _

/-- The machine accepts the balanced words, and no others. -/
theorem matching_eq_left_nil_iff (hcloses : ∀ o c, Closes o c → Opens o ∧ ¬ Opens c)
    {word : List α} : matching Opens Closes [] word = .left [] ↔ Balanced Closes word := by
  constructor
  · intro h
    have hspec := matching_spec Opens Closes word
    rw [h] at hspec
    exact LeavesOpen.nil_iff.mp hspec
  · intro h
    have hrun := matching_balanced hcloses h [] []
    rwa [List.append_nil] at hrun

end Brackets
