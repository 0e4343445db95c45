import Mathlib.Data.List.DropRight

/-!
# `Aike.Lib.Lines`: texts in lines

A text is cut into lines by a separator. `Lines.induction` goes through a text line
by line. `Lines.ending` is what there is after the last separator, so its length is
the column of the end of the text, and the number of the separators is the line.
`Lines.unlines` puts lines together again.
-/

set_option autoImplicit false

namespace Lines

variable {α : Type} {sep : α}

/-- Lines, with a separator after each. -/
def unlines (sep : α) (lines : List (List α)) : List α := lines.flatMap (· ++ [sep])

/-- The first line comes first, with its separator. -/
theorem unlines_cons (line : List α) (lines : List (List α)) :
    unlines sep (line :: lines) = line ++ sep :: unlines sep lines := by
  rw [unlines, List.flatMap_cons, List.append_assoc, List.singleton_append]
  rfl

/-- The text of two lists of lines is that of both together. -/
theorem unlines_append (lines lines' : List (List α)) :
    unlines sep (lines ++ lines') = unlines sep lines ++ unlines sep lines' :=
  List.flatMap_append

variable [DecidableEq α]

/-- Line by line: the last line has no separator after it. -/
theorem induction (sep : α) {motive : List α → Prop} (last : ∀ line, sep ∉ line → motive line)
    (cons : ∀ line rest, sep ∉ line → motive rest → motive (line ++ sep :: rest))
    (text : List α) : motive text := by
  induction hsize : text.length using Nat.strongRecOn generalizing text with
  | _ size ih =>
      by_cases hmem : sep ∈ text
      · obtain ⟨line, rest, rfl, hline⟩ := List.eq_append_cons_of_mem hmem
        refine cons line rest hline (ih rest.length ?_ rest rfl)
        rw [← hsize, List.length_append, List.length_cons]
        omega
      · exact last text hmem

/-- The lines of a text make up the text again, with a separator at its end. -/
theorem unlines_splitOn (text : List α) : unlines sep (text.splitOn sep) = text ++ [sep] := by
  induction text using induction sep with
  | last line hline =>
      rw [List.splitOn_eq_singleton hline, unlines_cons]
      rfl
  | cons line rest hline ih =>
      rw [List.splitOn_append_cons_self_of_not_mem hline, unlines_cons, ih, List.append_assoc,
        List.cons_append]

/-- No line has a separator in it. -/
theorem not_mem_of_mem_splitOn {text line : List α} (h : line ∈ text.splitOn sep) :
    sep ∉ line := by
  induction text using induction sep with
  | last line' hline =>
      rw [List.splitOn_eq_singleton hline, List.mem_singleton] at h
      rwa [h]
  | cons line' rest hline ih =>
      rw [List.splitOn_append_cons_self_of_not_mem hline] at h
      rcases List.mem_cons.mp h with rfl | h
      · exact hline
      · exact ih h

/-- There are as many separators as lines, if none is in a line. -/
theorem count_unlines {lines : List (List α)} (h : ∀ line ∈ lines, sep ∉ line) :
    (unlines sep lines).count sep = lines.length := by
  induction lines with
  | nil => rfl
  | cons line lines ih =>
      obtain ⟨hline, h⟩ := List.forall_mem_cons.mp h
      rw [unlines_cons, List.count_append, List.count_eq_zero.mpr hline, List.count_cons_self,
        ih h, List.length_cons, Nat.zero_add]

/-- What there is after the last separator. -/
def ending (sep : α) (text : List α) : List α := text.rtakeWhile (· ≠ sep)

/-- A text without separators is its own ending. -/
theorem ending_of_not_mem {text : List α} (h : sep ∉ text) : ending sep text = text :=
  List.rtakeWhile_eq_self_iff.mpr fun _ hx => decide_eq_true fun heq => h (heq ▸ hx)

/-- What comes before a separator is not in the ending. -/
theorem ending_line (line rest : List α) : ending sep (line ++ sep :: rest) = ending sep rest := by
  have hstop : (sep :: line.reverse).takeWhile (· ≠ sep) = [] :=
    List.takeWhile_cons_of_neg (by simp)
  have hreverse : (line ++ sep :: rest).reverse = rest.reverse ++ sep :: line.reverse := by
    rw [List.reverse_append, List.reverse_cons, List.append_assoc, List.singleton_append]
  rw [ending, ending, List.rtakeWhile, List.rtakeWhile, hreverse, List.takeWhile_append]
  split
  case isTrue hlength =>
    have hall : rest.reverse.takeWhile (· ≠ sep) = rest.reverse :=
      (List.takeWhile_prefix _).eq_of_length hlength
    rw [hstop, List.append_nil, hall]
  case isFalse => rfl

/-- The ending is no longer than the text. -/
theorem ending_length_le (text : List α) : (ending sep text).length ≤ text.length :=
  (List.rtakeWhile_suffix _ text).length_le

end Lines
