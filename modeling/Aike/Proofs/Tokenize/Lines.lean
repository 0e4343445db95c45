import Aike.Lib.Lines
import Aike.Proofs.Tokenize

/-!
# `Aike.Proofs.Tokenize.Lines`: the line table

`getLocation_exact`: the line of an offset is the number of the newlines before it,
its column what there is after the last of them, and the indent of the line its
leading spaces.

The text is read line by line (`Lines.induction`). `parseLinesFrom_append` is what
the loops of `parseLines` do inside of a line.
-/

set_option autoImplicit false

namespace Aike

/-- The leading spaces of a text. -/
def leadingSpaces (text : Str) : Nat := (text.takeWhile (· = ' ')).length

/-- The newlines of a text before an offset. -/
def lineOf (text : Str) (offset : Nat) : Nat := (text.take offset).count '\n'

/-- How far an offset of a text is from the character after the last newline before it,
or from the start if there is none. -/
def columnOf (text : Str) (offset : Nat) : Nat := (Lines.ending '\n' (text.take offset)).length

/-- A column is no larger than the offset. -/
theorem columnOf_le (text : Str) (offset : Nat) : columnOf text offset ≤ offset :=
  Nat.le_trans (Lines.ending_length_le _) (List.length_take_le _ _)

/-! ### Inside of a line -/

section

variable {line rest : Str} {offset : Nat}

/-- There is no line break before an offset of the first line. -/
theorem lineOf_line (hline : '\n' ∉ line) (hle : offset ≤ line.length) :
    lineOf (line ++ rest) offset = 0 := by
  rw [lineOf, List.take_append_of_le_length hle]
  exact List.count_eq_zero.mpr fun h => hline (List.mem_of_mem_take h)

/-- The column of an offset in the first line is the offset. -/
theorem columnOf_line (hline : '\n' ∉ line) (hle : offset ≤ line.length) :
    columnOf (line ++ rest) offset = offset := by
  rw [columnOf, List.take_append_of_le_length hle,
    Lines.ending_of_not_mem fun h => hline (List.mem_of_mem_take h), List.length_take]
  exact Nat.min_eq_left hle

/-- The text before an offset behind the first line is that line, its line break, and a
part of the rest. -/
theorem take_line (offset : Nat) :
    (line ++ '\n' :: rest).take (line.length + 1 + offset) = line ++ '\n' :: rest.take offset := by
  rw [Nat.add_assoc, List.take_length_add_append, Nat.add_comm 1 offset, List.take_succ_cons]

/-- An offset behind the first line is one line further down than in the rest of the text. -/
theorem lineOf_rest (hline : '\n' ∉ line) :
    lineOf (line ++ '\n' :: rest) (line.length + 1 + offset) = lineOf rest offset + 1 := by
  rw [lineOf, lineOf, take_line, List.count_append, List.count_eq_zero.mpr hline,
    List.count_cons_self, Nat.zero_add]

/-- It has the column that it has in the rest of the text. -/
theorem columnOf_rest :
    columnOf (line ++ '\n' :: rest) (line.length + 1 + offset) = columnOf rest offset := by
  rw [columnOf, columnOf, take_line, Lines.ending_line]

/-- The leading spaces of a text are those of its first line. -/
theorem leadingSpaces_line : leadingSpaces (line ++ '\n' :: rest) = leadingSpaces line := by
  have hstop : ('\n' :: rest).takeWhile (· = ' ') = [] :=
    List.takeWhile_cons_of_neg (by decide)
  rw [leadingSpaces, leadingSpaces, List.takeWhile_append, hstop, List.append_nil]
  split
  case isTrue hlength => exact hlength.symm
  case isFalse => rfl

end

variable {output : Output} {source : Str}

/-- What the loops of `parseLines` do with characters of one line. -/
theorem parseLinesFrom_append {n start : Nat} (indent offset : Nat) (scanning : Bool) {line : Str}
    (hline : '\n' ∉ line) (htab : '\t' ∉ line) (rest : Str) :
    ∃ scanning', parseLinesFrom output source n start indent scanning offset (line ++ rest) =
      parseLinesFrom output source n start
        (indent + if scanning then leadingSpaces line else 0) scanning'
        (offset + line.length) rest := by
  induction line generalizing indent offset scanning with
  | nil =>
      refine ⟨scanning, ?_⟩
      split <;> rfl
  | cons ch line ih =>
      rw [List.mem_cons, not_or] at hline htab
      have hlength : offset + (ch :: line).length = offset + 1 + line.length := by
        rw [List.length_cons]
        omega
      rw [List.cons_append, parseLinesFrom, if_neg (Ne.symm hline.1), if_neg (Ne.symm htab.1),
        hlength]
      -- Spaces are counted as long as only spaces have come.
      cases scanning with
      | false => exact ih indent (offset + 1) false hline.2 htab.2
      | true =>
          by_cases hspace : ch = ' '
          · have hlead : leadingSpaces (ch :: line) = leadingSpaces line + 1 := by
              rw [leadingSpaces, List.takeWhile_cons_of_pos (by simp [hspace]), List.length_cons]
              rfl
            obtain ⟨scanning', h⟩ := ih (indent + 1) (offset + 1) true hline.2 htab.2
            refine ⟨scanning', ?_⟩
            rw [if_pos (by simp [hspace]), h, if_pos rfl, if_pos rfl, hlead,
              Nat.add_right_comm indent 1, Nat.add_assoc]
          · have hlead : leadingSpaces (ch :: line) = 0 := by
              rw [leadingSpaces, List.takeWhile_cons_of_neg (by simp [hspace])]
              rfl
            rw [if_neg (by simp [hspace]), if_pos rfl, hlead]
            exact ih indent (offset + 1) false hline.2 htab.2

/-- The last line is in the table unless it is empty. -/
theorem parseLinesFrom_last {n b : Nat} {line : Str} (hline : '\n' ∉ line) (htab : '\t' ∉ line) :
    parseLinesFrom output source n b 0 true b line =
      .ok (if line = [] then [] else [⟨leadingSpaces line, b⟩]) := by
  obtain ⟨scanning, h⟩ :=
    @parseLinesFrom_append output source n b 0 b true line hline htab []
  rw [List.append_nil] at h
  rw [h, if_pos rfl, Nat.zero_add, parseLinesFrom]
  cases line with
  | nil => rw [if_neg (by simp), if_pos rfl]; rfl
  | cons ch line =>
      rw [if_pos (by simp), if_neg (List.cons_ne_nil _ _)]
      rfl

/-- `parseLines` makes one line of the text up to a line break, with the leading spaces as
its indent, and goes on behind it. -/
theorem parseLinesFrom_line {n b : Nat} {line : Str} (hline : '\n' ∉ line) (htab : '\t' ∉ line)
    (rest : Str) :
    parseLinesFrom output source n b 0 true b (line ++ '\n' :: rest) = (do
      let lines ← parseLinesFrom output source (n + 1) (b + (line.length + 1)) 0 true
        (b + (line.length + 1)) rest
      return ⟨leadingSpaces line, b⟩ :: lines) := by
  obtain ⟨scanning, h⟩ :=
    @parseLinesFrom_append output source n b 0 b true line hline htab ('\n' :: rest)
  rw [h, if_pos rfl, Nat.zero_add, parseLinesFrom, if_pos rfl]
  rfl

/-! ### The table -/

/-- The table of a text that starts at `b`: the lines that start at an offset or before
it are one for each newline before the offset and then its own. -/
theorem parseLinesFrom_positions {n b : Nat} {text : Str} (htab : '\t' ∉ text) :
    ∃ lines, parseLinesFrom output source n b 0 true b text = .ok lines ∧
      (∀ line ∈ lines, b ≤ line.offset) ∧
      ∀ offset, offset < text.length → ∃ before,
        lines.takeWhile (fun line => line.offset ≤ b + offset) = before ++
            [⟨leadingSpaces (text.drop (offset - columnOf text offset)),
              b + (offset - columnOf text offset)⟩] ∧
          before.length = lineOf text offset := by
  induction text using Lines.induction '\n' generalizing n b with
  | last line hline =>
      refine ⟨_, parseLinesFrom_last hline htab, ?_, ?_⟩
      · intro l hl
        split at hl
        case isTrue => exact absurd hl List.not_mem_nil
        case isFalse =>
          rw [List.mem_singleton.mp hl]
      · intro offset hlt
        have hcolumn : columnOf (line ++ []) offset = offset := columnOf_line hline hlt.le
        have hlineOf : lineOf (line ++ []) offset = 0 := lineOf_line hline hlt.le
        rw [List.append_nil] at hcolumn hlineOf
        refine ⟨[], ?_, hlineOf.symm⟩
        rw [if_neg (List.ne_nil_of_length_pos (Nat.zero_lt_of_lt hlt)), hcolumn, Nat.sub_self]
        exact List.takeWhile_cons_of_pos (by simp)
  | cons line rest hline ih =>
      rw [List.mem_append, List.mem_cons, not_or, not_or] at htab
      obtain ⟨lines, hlines, hge, hpositions⟩ :=
        ih htab.2.2 (n := n + 1) (b := b + (line.length + 1))
      refine ⟨⟨leadingSpaces line, b⟩ :: lines, ?_, ?_, ?_⟩
      · rw [parseLinesFrom_line hline htab.1, hlines]
        rfl
      · intro l hl
        rcases List.mem_cons.mp hl with rfl | hl
        · exact Nat.le_refl _
        · exact Nat.le_trans (Nat.le_add_right _ _) (hge l hl)
      · intro offset hlt
        rw [List.takeWhile_cons_of_pos (by simp)]
        by_cases hle : offset ≤ line.length
        · -- the other lines start after the newline
          have hstop : lines.takeWhile (fun l => l.offset ≤ b + offset) = [] := by
            cases lines with
            | nil => rfl
            | cons l lines =>
                have := hge l List.mem_cons_self
                exact List.takeWhile_cons_of_neg (by simp only [decide_eq_true_eq]; omega)
          refine ⟨[], ?_, (lineOf_line hline hle).symm⟩
          rw [hstop, columnOf_line hline hle, Nat.sub_self, List.drop_zero, leadingSpaces_line]
          rfl
        -- An offset in a later line: the first line is before it, and the rest is by induction.
        · obtain ⟨o, rfl⟩ : ∃ o, offset = line.length + 1 + o :=
            ⟨offset - (line.length + 1), by omega⟩
          have ho : o < rest.length := by
            rw [List.length_append, List.length_cons] at hlt
            omega
          obtain ⟨before, htake, hlength⟩ := hpositions o ho
          refine ⟨⟨leadingSpaces line, b⟩ :: before, ?_, ?_⟩
          · have hcolumn := columnOf_le rest o
            have hsub : line.length + 1 + o - columnOf rest o =
                line.length + 1 + (o - columnOf rest o) := by omega
            have hdrop : (line ++ '\n' :: rest).drop (line.length + 1 + (o - columnOf rest o)) =
                rest.drop (o - columnOf rest o) := by
              rw [Nat.add_assoc, List.drop_length_add_append, Nat.add_comm 1, List.drop_succ_cons]
            rw [Nat.add_assoc b, Nat.add_assoc b] at htake
            rw [columnOf_rest, hsub, hdrop, htake, List.cons_append]
          · rw [lineOf_rest hline, List.length_cons, hlength]

/-- In a text without tabs, the location of an offset is its line and its column, and
the table has the indent of this line. -/
theorem getLocation_exact (output : Output) (source : Str) {data : Str} (htab : '\t' ∉ data)
    {offset : Nat} (hlt : offset < data.length) (length : Nat) :
    ∃ lines, parseLines output source data = .ok lines ∧
      getLocation source lines offset length =
        .ok ⟨source, lineOf data offset, columnOf data offset, offset, length⟩ ∧
      lines[lineOf data offset]? =
        some ⟨leadingSpaces (data.drop (offset - columnOf data offset)),
          offset - columnOf data offset⟩ := by
  obtain ⟨lines, hlines, -, hpositions⟩ :=
    @parseLinesFrom_positions output source 0 0 data htab
  obtain ⟨before, htake, hlength⟩ := hpositions offset hlt
  rw [Nat.zero_add, Nat.zero_add] at htake
  have hcolumn : (offset : Int) - (offset - columnOf data offset : Nat) = columnOf data offset := by
    rw [Int.ofNat_sub (columnOf_le data offset), Int.sub_sub_self]
  refine ⟨lines, hlines, ?_, ?_⟩
  · unfold getLocation
    dsimp only
    rw [htake, List.getLast?_concat, List.length_append, hlength]
    show Except.ok
      (Location.mk _ _ ((offset : Int) - (offset - columnOf data offset : Nat)) _ _) = _
    rw [hcolumn]
    rfl
  · obtain ⟨rest, hrest⟩ := List.takeWhile_prefix (fun line : Line => line.offset ≤ offset)
      (l := lines)
    rw [← hrest, htake, ← hlength, List.append_assoc, List.getElem?_append_right (Nat.le_refl _),
      Nat.sub_self]
    rfl

/-- A line after an empty one, in a text that ends without a newline. -/
theorem getLocation_exact_indented :
    ∃ lines, parseLines {} [] "a\n\n  b".toList = .ok lines ∧
      getLocation [] lines 5 1 = .ok ⟨[], 2, 2, 5, 1⟩ ∧ lines[2]? = some ⟨2, 3⟩ :=
  @getLocation_exact {} [] "a\n\n  b".toList (by decide) 5 (by decide) 1

end Aike
