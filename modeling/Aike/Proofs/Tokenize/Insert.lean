import Mathlib.Data.List.Forall2
import Mathlib.Order.Monotone.Basic
import Aike.Proofs.Tokenize.Newlines

/-!
# `Aike.Proofs.Tokenize.Insert`: blank lines that are inserted into a text

`parseTokensFrom_break` reads a text up to a line break and then from there on, and
`parseTokensFrom_shift` reads it at another offset. A blank line in between has no tokens.

A token of the text is `Carried` to the text with more lines: its kind and the indent of
its line are the same, and its line is a function of the line that it had.
-/

set_option autoImplicit false

namespace Aike

open Lines

/-! ### Reading up to a line break -/

section

variable {output output' : Output} {source source' : Str} {lines lines' : List Line}
  {offset : Nat} {before after text : Str}

/-- What is scanned before a newline does not go on behind it. -/
theorem scan_break {fn : Char → Bool} (hfn : fn '\n' = false) :
    scan (text ++ '\n' :: after) fn = scan text fn := by
  have hstop : ('\n' :: after).takeWhile fn = [] :=
    List.takeWhile_cons_of_neg (Bool.eq_false_iff.mp hfn)
  unfold scan
  rw [List.takeWhile_append, hstop, List.append_nil]
  split
  case isTrue hlength => exact ((List.takeWhile_prefix fn).eq_of_length hlength).symm
  case isFalse => rfl

/-- What is left before a newline goes on with it. -/
theorem dropWhile_break {fn : Char → Bool} (hfn : fn '\n' = false) :
    (text ++ '\n' :: after).dropWhile fn = text.dropWhile fn ++ '\n' :: after := by
  rw [List.dropWhile_append]
  split
  case isTrue hempty =>
    rw [List.isEmpty_iff.mp hempty]
    exact List.dropWhile_cons_of_neg (Bool.eq_false_iff.mp hfn)
  case isFalse => rfl

/-- The characters of a class that is none of literals and comments leave the code. -/
theorem endsInLiteral_dropWhile {fn : Char → Bool}
    (hfn : ∀ ch ∈ ['#', '"', '\'', '\n'], fn ch = false) :
    EndsInLiteral text ↔ EndsInLiteral (text.dropWhile fn) := by
  have hplain : (text.takeWhile fn).foldl Within.step .code = .code := by
    refine foldl_plain fun ch hch => ?_
    have hmem : fn ch = true := List.mem_takeWhile_imp hch
    exact ⟨ne_of_class hmem (hfn _ (by simp)), ne_of_class hmem (hfn _ (by simp)),
      ne_of_class hmem (hfn _ (by simp)), ne_of_class hmem (hfn _ (by simp))⟩
  have happend := @endsInLiteral_append (text.takeWhile fn) (text.dropWhile fn) hplain
  rwa [List.takeWhile_append_dropWhile] at happend

/-- A comment leaves the code at the end of its line. -/
theorem endsInLiteral_comment (h : EndsInLiteral (text.dropWhile (· ≠ '\n'))) :
    EndsInLiteral ('#' :: text) := by
  have hbody : '\n' ∉ scan text (· ≠ '\n') := fun hmem => by
    have := List.mem_takeWhile_imp hmem
    simp at this
  have hsplit : scan text (· ≠ '\n') ++ text.dropWhile (· ≠ '\n') = text :=
    List.takeWhile_append_dropWhile
  cases hafter : text.dropWhile (· ≠ '\n') with
  | nil =>
      rw [hafter] at h
      exact absurd h (fun ⟨q, hq⟩ => nomatch hq)
  | cons ch rest =>
      have hch : ch = '\n' := by
        have := @head_dropWhile (· ≠ '\n') text ch (by rw [hafter]; rfl)
        simpa using this
      subst hch
      rw [hafter] at h
      have hrest := (@endsInLiteral_append ['\n'] rest rfl).mp h
      have hcode := (endsInLiteral_append (Gap.comment hbody .nil).foldl_eq).mpr hrest
      rwa [List.cons_append, List.append_assoc, List.cons_append, List.nil_append, ← hafter,
        hsplit] at hcode

/-- A literal whose delimiter is in the text. -/
theorem endsInLiteral_literal {q : Char} (hq : q = '"' ∨ q = '\'') (hfree : q ∉ text) :
    EndsInLiteral (q :: text) ∧
      (EndsInLiteral (q :: (text ++ q :: after)) ↔ EndsInLiteral after) := by
  have hopen : (q :: text).foldl Within.step .code = .literal q := by
    rw [List.foldl_cons, step_quote hq, foldl_literal hfree]
  have hcode : (q :: (text ++ [q])).foldl Within.step .code = .code := by
    rw [← List.cons_append, List.foldl_append, hopen, List.foldl_cons, Within.step, if_pos rfl]
    rfl
  have happend := @endsInLiteral_append _ after hcode
  rw [List.cons_append, List.append_assoc] at happend
  exact ⟨⟨q, hopen⟩, happend⟩

/-- A literal is scanned up to its quote. -/
theorem scan_literal {q : Char} (hfree : q ∉ text) : scan (text ++ q :: after) (· ≠ q) = text :=
  scan_append (fun ch hch => decide_eq_true fun h => hfree (h ▸ hch)) fun ch hch => by
    cases hch
    exact decide_eq_false (not_not_intro rfl)

/-- What is read after a literal. -/
theorem parseTokensFrom_closed {q : Char} (hfree : q ∉ text) :
    parseTokensFrom output source lines offset ((scan (text ++ q :: after) (· ≠ q)).length + 1)
        (text ++ q :: after) =
      parseTokensFrom output source lines (offset + text.length + 1) 0 after := by
  have hdrop : (text ++ q :: after).dropWhile (· ≠ q) = q :: after := by
    have hsplit := @List.takeWhile_append_dropWhile _ (fun ch => decide (ch ≠ q))
        (text ++ q :: after)
    rw [show (text ++ q :: after).takeWhile (· ≠ q) = text from scan_literal hfree] at hsplit
    exact List.append_cancel_left hsplit
  rw [parseTokensFrom_literal hdrop, scan_literal hfree]

/-- A token that is read before what is read up to a line break. -/
theorem cons_break (t : Token) (front back : Except Stop (List Token)) :
    (do
      let tokens ← (do
        let front ← front
        let back ← back
        return front ++ back)
      return t :: tokens) = (do
      let front ← (do
        let front ← front
        return t :: front)
      let back ← back
      return front ++ back) := by
  cases front <;> cases back <;> rfl

/-- A text up to a line break that is in no literal, and then what is after it. -/
theorem parseTokensFrom_break {stop : Nat} (hliteral : ¬ EndsInLiteral before)
    (hstop : stop = offset + before.length + 1) :
    parseTokensFrom output source lines offset 0 (before ++ '\n' :: after) = (do
      let front ← parseTokensFrom output source lines offset 0 before
      let back ← parseTokensFrom output source lines stop 0 after
      return front ++ back) := by
  induction hsize : before.length using Nat.strongRecOn generalizing offset before with
  | ind size ih =>
      subst hsize
      cases before with
      | nil =>
          -- Only the line break is left of the front, and a line break is a space.
          show parseTokensFrom output source lines (offset + 1) 0 after =
            parseTokensFrom output source lines stop 0 after >>= pure
          rw [bind_pure, hstop]
          rfl
      | cons ch text =>
          -- The recursion: a text that is read next is no longer than the rest.
          have hrest : ∀ {o : Nat} {rest : Str}, rest.length ≤ text.length →
              ¬ EndsInLiteral rest → stop = o + rest.length + 1 →
                parseTokensFrom output source lines o 0 (rest ++ '\n' :: after) = (do
                  let front ← parseTokensFrom output source lines o 0 rest
                  let back ← parseTokensFrom output source lines stop 0 after
                  return front ++ back) := by
            intro o rest hle hrest hstop
            exact ih rest.length (Nat.lt_succ_of_le hle) hrest hstop rfl
          rw [List.length_cons] at hstop
          -- A token of one class stops at the line break, as the line break is in no class.
          have hword : ∀ {fn : Char → Bool} (type : TokenType), fn ch = true →
              (∀ ch' ∈ ['#', '"', '\'', '\n'], fn ch' = false) → (do
                let tokens ← parseTokensFrom output source lines (offset + 1)
                  ((scan (ch :: (text ++ '\n' :: after)) fn).length - 1) (text ++ '\n' :: after)
                return Token.mk type (scan (ch :: (text ++ '\n' :: after)) fn) offset offset {} ::
                  tokens) = (do
                let front ← (do
                  let tokens ← parseTokensFrom output source lines (offset + 1)
                    ((scan (ch :: text) fn).length - 1) text
                  return Token.mk type (scan (ch :: text) fn) offset offset {} :: tokens)
                let back ← parseTokensFrom output source lines stop 0 after
                return front ++ back) := by
            intro fn type hch hfn
            have hscan : scan (ch :: (text ++ '\n' :: after)) fn = scan (ch :: text) fn :=
              @scan_break after (ch :: text) fn (hfn '\n' (by simp))
            have hlength : (scan (ch :: text) fn).length + (text.dropWhile fn).length =
                text.length + 1 := by
              rw [scan_cons_pos hch, List.length_cons, Nat.add_right_comm, ← List.length_append]
              exact congrArg (fun l => l.length + 1) (List.takeWhile_append_dropWhile (p := fn))
            have hdrop : ¬ EndsInLiteral (text.dropWhile fn) := by
              have hcons := @endsInLiteral_dropWhile (ch :: text) fn hfn
              rw [List.dropWhile_cons_of_pos hch] at hcons
              exact fun h => hliteral (hcons.mpr h)
            rw [parseTokensFrom_scan hch, parseTokensFrom_scan hch, hscan,
              dropWhile_break (hfn '\n' (by simp)),
              hrest (List.dropWhile_suffix fn).length_le hdrop (by omega)]
            exact cons_break _ _ _
          rw [List.cons_append, parseTokensFrom, parseTokensFrom]
          generalize (if ch = '"' then TokenType.string else .character) = literal
          dsimp only
          split_ifs with hspace hcomment hident hdigit hquote hbracket hatom
          · refine hrest (Nat.le_refl _) (fun h => hliteral ?_) (by omega)
            exact (@endsInLiteral_append [_] _ (step_space hspace)).mpr h
          · subst hcomment
            -- A comment ends at the line break, which is read next.
            have hlength : (scan text (· ≠ '\n')).length + (text.dropWhile (· ≠ '\n')).length =
                text.length := by
              rw [← List.length_append]
              exact congrArg List.length List.takeWhile_append_dropWhile
            rw [parseTokensFrom_skip_scan, parseTokensFrom_skip_scan, scan_break rfl,
              dropWhile_break rfl]
            exact hrest (List.dropWhile_suffix _).length_le
              (fun h => hliteral (endsInLiteral_comment h)) (by omega)
          · exact hword .ident (by simp only [isIdent, hident, Bool.true_or])
              fun ch' h => (class_apart ch' h).1
          · exact hword .number (by simp only [isNumber, hdigit, Bool.true_or])
              fun ch' h => (class_apart ch' h).2.1
          · have hq : ch = '"' ∨ ch = '\'' := by simpa using hquote
            -- The closing delimiter comes before the line break, which is in no literal.
            by_cases hmem : ch ∈ text
            · obtain ⟨contents, rest, rfl, hfree⟩ := List.eq_append_cons_of_mem hmem
              rw [(endsInLiteral_literal hq hfree).2] at hliteral
              rw [List.length_append, List.length_cons] at hstop
              rw [List.append_assoc, List.cons_append, parseTokensFrom_closed hfree,
                parseTokensFrom_closed hfree, scan_literal hfree, scan_literal hfree,
                hrest (by rw [List.length_append, List.length_cons]; omega) hliteral (by omega)]
              exact cons_break _ _ _
            · exact absurd (@endsInLiteral_literal [] _ _ hq hmem).1 hliteral
          · rw [hrest (Nat.le_refl _) (fun h => hliteral ?_) (by omega)]
            · exact cons_break _ _ _
            · have hstep : ch ≠ '#' ∧ ¬ (ch = '"' ∨ ch = '\'') :=
                ⟨hcomment, fun h => hquote (by simpa using h)⟩
              refine (@endsInLiteral_append [ch] _ ?_).mpr h
              rw [List.foldl_cons, Within.step, if_neg hstep.1, if_neg hstep.2]
              rfl
          · exact hword .atom hatom fun ch' h => (class_apart ch' h).2.2.1
          -- A character of no class: the same diagnostic with and without the rest.
          · cases getLocation source lines offset 1 with
            | error e => rfl
            | ok loc => exact (Output.panic_bind loc _ _).symm

/-- A token that is read from an offset further on. -/
def Token.shift (d : Nat) (t : Token) : Token :=
  { t with offset := t.offset + d, dataOffset := t.dataOffset + d }

/-- What is read does not depend on where the text is, nor on the table of lines. -/
theorem parseTokensFrom_shift {offset' d skip : Nat} (hoffset : offset' = offset + d)
    {tokens : List Token} (h : parseTokensFrom output source lines offset skip text = .ok tokens) :
    parseTokensFrom output' source' lines' offset' skip text =
      .ok (tokens.map (Token.shift d)) := by
  -- One token in front of a list, the shifted token in front of the shifted list.
  have hcons : ∀ {t t' : Token} {all : List Token} {e e' : Except Stop (List Token)},
      t' = t.shift d → (∀ tokens, e = .ok tokens → e' = .ok (tokens.map (Token.shift d))) →
      (do
        let tokens ← e
        return t :: tokens) = .ok all →
      (do
        let tokens ← e'
        return t' :: tokens) = .ok (all.map (Token.shift d)) := by
    intro t t' all e e' ht he h
    obtain ⟨tokens', htokens', hall⟩ := except_bind_ok.mp h
    cases hall
    rw [he _ htokens', ht]
    rfl
  subst hoffset
  induction text generalizing offset skip tokens with
  | nil =>
      rw [parseTokensFrom] at h ⊢
      cases h
      rfl
  | cons ch text ih =>
      have hnext : ∀ {skip : Nat} {tokens : List Token},
          parseTokensFrom output source lines (offset + 1) skip text = .ok tokens →
            parseTokensFrom output' source' lines' (offset + d + 1) skip text =
              .ok (tokens.map (Token.shift d)) := by
        intro skip tokens h
        rw [Nat.add_right_comm]
        exact ih h
      cases skip with
      | succ skip => exact hnext h
      | zero =>
          rw [parseTokensFrom] at h ⊢
          generalize (if ch = '"' then TokenType.string else .character) = literal at h ⊢
          dsimp only at h ⊢
          split_ifs at h ⊢
          · exact hnext h
          · exact hnext h
          · exact hcons rfl (fun _ => hnext) h
          · exact hcons rfl (fun _ => hnext) h
          · exact hcons (by rw [Token.shift, Nat.add_right_comm]) (fun _ => hnext) h
          · exact hcons rfl (fun _ => hnext) h
          · exact hcons rfl (fun _ => hnext) h
          · obtain ⟨loc, -, hpanic⟩ := except_bind_ok.mp h
            exact absurd hpanic Output.panic_ne_ok

/-- Where the lines and the text come from makes no difference to the tokens, as long as
there is no diagnostic. -/
theorem parseTokensFrom_other {tokens : List Token}
    (h : parseTokensFrom output source lines offset 0 text = .ok tokens) :
    parseTokensFrom output' source' lines' offset 0 text = .ok tokens := by
  have hshift := @parseTokensFrom_shift output output' source source' lines lines' offset text
    offset 0 0 rfl tokens h
  rwa [show tokens.map (Token.shift 0) = tokens from List.map_id'' (fun _ => rfl) _] at hshift

/-! ### Blank lines -/

/-- A line of spaces, or of spaces and a comment. -/
def IsBlankLine (line : Str) : Prop :=
  ∃ indent body, '\n' ∉ body ∧
    (line = List.replicate indent ' ' ∨ line = List.replicate indent ' ' ++ '#' :: body)

namespace IsBlankLine

variable {line : Str}

/-- A blank line is a gap. -/
theorem lastGap (h : IsBlankLine line) : LastGap line := by
  have hspaces : ∀ indent, Gap (List.replicate indent ' ') := by
    intro indent
    induction indent with
    | zero => exact .nil
    | succ indent ih => exact .space rfl ih
  obtain ⟨indent, body, hbody, rfl | rfl⟩ := h
  · exact .gap (hspaces indent)
  · exact .comment (hspaces indent) hbody

/-- It has no tokens. -/
theorem parseTokensFrom (h : IsBlankLine line) :
    parseTokensFrom output source lines offset 0 line = .ok [] := by
  refine parseTokensFrom_eq_nil_iff.1.mpr ?_
  have hcomment : ∀ body : Str, '\n' ∉ body → blankFrom true body = true := by
    intro body hbody
    induction body with
    | nil => rfl
    | cons ch body ih =>
        rw [List.mem_cons, not_or] at hbody
        rw [blankFrom, decide_eq_true (Ne.symm hbody.1)]
        exact ih hbody.2
  have hspaces : ∀ indent rest, blankFrom false (List.replicate indent ' ' ++ rest) =
      blankFrom false rest := by
    intro indent rest
    induction indent with
    | zero => rfl
    | succ indent ih => exact ih
  obtain ⟨indent, body, hbody, rfl | rfl⟩ := h
  · have hnil := hspaces indent []
    rw [List.append_nil] at hnil
    rw [hnil]
    rfl
  · rw [hspaces]
    exact hcomment body hbody

end IsBlankLine

/-- Nor have blank lines before a text. -/
theorem parseTokensFrom_blankLines {blank : List Str} (h : ∀ line ∈ blank, IsBlankLine line) :
    parseTokensFrom output source lines offset 0 (unlines '\n' blank ++ text) =
      parseTokensFrom output source lines (offset + (unlines '\n' blank).length) 0 text := by
  induction blank generalizing offset with
  | nil => rfl
  | cons line blank ih =>
      obtain ⟨hline, h⟩ := List.forall_mem_cons.mp h
      rw [unlines_cons, List.append_assoc, List.cons_append,
        parseTokensFrom_break hline.lastGap.not_literal rfl, hline.parseTokensFrom, ih h,
        List.length_append, List.length_cons]
      have hoffset : offset + (line.length + ((unlines '\n' blank).length + 1)) =
          offset + line.length + 1 + (unlines '\n' blank).length := by omega
      rw [hoffset]
      exact bind_pure (Aike.parseTokensFrom output source lines _ 0 text)

end

/-! ### Lines and indents -/

/-- The indent of the line of an offset. -/
def indentAt (text : Str) (offset : Nat) : Nat :=
  leadingSpaces (text.drop (offset - columnOf text offset))

section

variable {before rest : Str} {offset : Nat}

/-- The line of a place is counted in what is before it. -/
theorem lineOf_before (h : offset ≤ before.length) :
    lineOf (before ++ rest) offset = lineOf before offset := by
  rw [lineOf, List.take_append_of_le_length h, lineOf]

/-- The indent of a line is read off the line itself. -/
theorem indentAt_before (h : offset ≤ before.length) :
    indentAt (before ++ '\n' :: rest) offset = indentAt before offset := by
  have hcolumn : columnOf (before ++ '\n' :: rest) offset = columnOf before offset := by
    rw [columnOf, List.take_append_of_le_length h, columnOf]
  rw [indentAt, hcolumn, List.drop_append_of_le_length (Nat.le_trans (Nat.sub_le _ _) h),
    leadingSpaces_line, indentAt]

/-- Behind a text, its newlines are added to the line. -/
theorem lineOf_after :
    lineOf (before ++ rest) (before.length + offset) = before.count '\n' + lineOf rest offset := by
  rw [lineOf, List.take_length_add_append, List.count_append, lineOf]

/-- Behind a newline, indents are read off what follows. -/
theorem indentAt_after :
    indentAt (before ++ '\n' :: rest) (before.length + 1 + offset) = indentAt rest offset := by
  have hcolumn := columnOf_le rest offset
  have hstart : before.length + 1 + offset - columnOf rest offset =
      before.length + (offset - columnOf rest offset + 1) := by omega
  rw [indentAt, columnOf_rest, hstart, List.drop_length_add_append, List.drop_succ_cons, indentAt]

/-- The same behind some lines. -/
theorem indentAt_unlines {blank : List Str} :
    indentAt (unlines '\n' blank ++ rest) ((unlines '\n' blank).length + offset) =
      indentAt rest offset := by
  induction blank with
  | nil =>
      show indentAt rest (0 + offset) = _
      rw [Nat.zero_add]
  | cons line blank ih =>
      have hoffset : (line ++ '\n' :: unlines '\n' blank).length + offset =
          line.length + 1 + ((unlines '\n' blank).length + offset) := by
        rw [List.length_append, List.length_cons]
        omega
      rw [unlines_cons, hoffset, List.append_assoc, List.cons_append, indentAt_after, ih]

end

/-! ### Texts with more lines -/

/-- A text with blank lines before its first line, between two of its lines or after its
last one, where the end of the line before them is in no literal. The text can end
without a newline, before that and after. -/
inductive Inserts : (data text : Str) → Prop
  | first {blank : List Str} {data : Str} (hblank : ∀ line ∈ blank, IsBlankLine line) :
      Inserts data (unlines '\n' blank ++ data)
  | between {before after : Str} {blank : List Str} (hbefore : ¬ EndsInLiteral before)
      (hblank : ∀ line ∈ blank, IsBlankLine line) :
      Inserts (before ++ '\n' :: after) (before ++ '\n' :: (unlines '\n' blank ++ after))
  | last {before line : Str} {blank : List Str} (hbefore : ¬ EndsInLiteral before)
      (hblank : ∀ line ∈ blank, IsBlankLine line) (hline : IsBlankLine line) :
      Inserts before (before ++ '\n' :: (unlines '\n' blank ++ line))
  | lastBreak {before line : Str} {blank : List Str} (hbefore : ¬ EndsInLiteral before)
      (hblank : ∀ line ∈ blank, IsBlankLine line) (hline : IsBlankLine line) :
      Inserts (before ++ ['\n']) (before ++ '\n' :: (unlines '\n' blank ++ line))

/-- A token of a text and what it is in another one: its line is moved, and has the same
indent. -/
structure Token.Carried (data text : Str) (move : Nat → Nat) (t t' : Token) : Prop where
  kind_eq : t'.kind = t.kind
  line_eq : lineOf text t'.offset = move (lineOf data t.offset)
  indent_eq : indentAt text t'.offset = indentAt data t.offset

section

variable {output output' : Output} {source source' : Str} {lines lines' : List Line}
  {data text before : Str} {raw : List Token}

/-- The lines before an insertion stay. -/
theorem carried_before {rest rest' : Str} {move : Nat → Nat} {t : Token}
    (ht : t.offset < before.length) (hmove : ∀ n ≤ before.count '\n', move n = n) :
    t.Carried (before ++ '\n' :: rest) (before ++ '\n' :: rest') move t := by
  have hle : lineOf before t.offset ≤ before.count '\n' :=
    (List.take_sublist _ _).count_le '\n'
  refine ⟨rfl, ?_, ?_⟩
  · rw [lineOf_before ht.le, lineOf_before ht.le, hmove _ hle]
  · rw [indentAt_before ht.le, indentAt_before ht.le]

/-- The lines of the text after inserted ones. -/
theorem carried_unlines {blank : List Str} {t : Token} :
    t.Carried data (unlines '\n' blank ++ data) (fun n => (unlines '\n' blank).count '\n' + n)
      (t.shift (unlines '\n' blank).length) := by
  have hoffset : (t.shift (unlines '\n' blank).length).offset =
      (unlines '\n' blank).length + t.offset := Nat.add_comm _ _
  refine ⟨rfl, ?_, ?_⟩
  · rw [hoffset, lineOf_after]
  · rw [hoffset, indentAt_unlines]

/-- The lines after an insertion. -/
theorem carried_after {after : Str} {blank : List Str} {move : Nat → Nat} {t : Token}
    (ht : before.length + 1 ≤ t.offset)
    (hmove : ∀ n, before.count '\n' < n → move n = n + (unlines '\n' blank).count '\n') :
    t.Carried (before ++ '\n' :: after) (before ++ '\n' :: (unlines '\n' blank ++ after)) move
      (t.shift (unlines '\n' blank).length) := by
  obtain ⟨k, hk⟩ : ∃ k, t.offset = before.length + 1 + k :=
    ⟨t.offset - (before.length + 1), by omega⟩
  have hoffset : (t.shift (unlines '\n' blank).length).offset =
      before.length + 1 + ((unlines '\n' blank).length + k) := by
    show t.offset + _ = _
    omega
  have hline : ∀ rest o, lineOf (before ++ '\n' :: rest) (before.length + 1 + o) =
      before.count '\n' + 1 + lineOf rest o := by
    intro rest o
    have hafter := @lineOf_after (before ++ ['\n']) rest o
    rw [List.append_assoc, List.length_append, List.count_append] at hafter
    exact hafter
  refine ⟨rfl, ?_, ?_⟩
  · rw [hoffset, hline, lineOf_after, hk, hline, hmove _ (by omega)]
    omega
  · rw [hoffset, indentAt_after, indentAt_unlines, hk, indentAt_after]

/-- The tokens of a text are carried to the text with more lines. -/
theorem parseTokens_inserts (h : Inserts data text)
    (hraw : parseTokens output source data lines = .ok raw) :
    ∃ raw' move, parseTokens output' source' text lines' = .ok raw' ∧ StrictMono move ∧
      List.Forall₂ (Token.Carried data text move) raw raw' := by
  -- Every token starts in its text, which is what puts it before the insertion.
  have hbounds : ∀ {before : Str} {front : List Token},
      parseTokensFrom output source lines 0 0 before = .ok front →
        ∀ t ∈ front, t.offset < before.length := by
    intro before front hfront t ht
    have hlt := ((scans_of_parseTokensFrom hfront).bounds t ht).2
    rwa [Nat.zero_add] at hlt
  -- What is added after the last line has no tokens.
  have hlast : ∀ {before line : Str} {blank : List Str}, ¬ EndsInLiteral before →
      (∀ line ∈ blank, IsBlankLine line) → IsBlankLine line →
        parseTokensFrom output' source' lines' 0 0
          (before ++ '\n' :: (unlines '\n' blank ++ line)) = (do
          let front ← parseTokensFrom output' source' lines' 0 0 before
          return front ++ []) := by
    intro before line blank hbefore hblank hline
    rw [parseTokensFrom_break hbefore rfl, parseTokensFrom_blankLines hblank,
      hline.parseTokensFrom]
    rfl
  unfold parseTokens at hraw ⊢
  cases h with
  | @first blank _ hblank =>
      refine ⟨raw.map (Token.shift (unlines '\n' blank).length),
        fun n => (unlines '\n' blank).count '\n' + n, ?_,
        fun _ _ hlt => Nat.add_lt_add_left hlt _, ?_⟩
      · rw [parseTokensFrom_blankLines hblank]
        exact parseTokensFrom_shift rfl hraw
      · exact List.forall₂_map_right_iff.mpr (List.forall₂_same.mpr fun _ _ => carried_unlines)
  | @between before after blank hbefore hblank =>
      rw [parseTokensFrom_break hbefore rfl] at hraw
      obtain ⟨front, hfront, hraw⟩ := except_bind_ok.mp hraw
      obtain ⟨back, hback, hraw⟩ := except_bind_ok.mp hraw
      cases hraw
      -- The lines up to the insertion stay, the others move down by the lines inserted.
      refine ⟨front ++ back.map (Token.shift (unlines '\n' blank).length),
        fun n => if n ≤ before.count '\n' then n else n + (unlines '\n' blank).count '\n',
        ?_, ?_, List.rel_append ?_ (List.forall₂_map_right_iff.mpr (List.forall₂_same.mpr ?_))⟩
      · rw [parseTokensFrom_break hbefore rfl, parseTokensFrom_blankLines hblank,
          parseTokensFrom_other hfront, parseTokensFrom_shift rfl hback]
        rfl
      · intro n n' hlt
        dsimp only
        split_ifs <;> omega
      · refine List.forall₂_same.mpr fun t ht => carried_before (hbounds hfront t ht) ?_
        exact fun n hn => if_pos hn
      · intro t ht
        have hge := ((scans_of_parseTokensFrom hback).bounds t ht).1
        exact carried_after (by omega) fun n hn => if_neg (Nat.not_le_of_lt hn)
  | @last before line blank hbefore hblank hline =>
      refine ⟨raw, id, ?_, strictMono_id, List.forall₂_same.mpr fun t ht => ⟨rfl, ?_, ?_⟩⟩
      · rw [hlast hbefore hblank hline, parseTokensFrom_other hraw]
        exact congrArg Except.ok (List.append_nil raw)
      · exact lineOf_before (hbounds hraw t ht).le
      · exact indentAt_before (hbounds hraw t ht).le
  | @lastBreak before line blank hbefore hblank hline =>
      rw [parseTokensFrom_break hbefore rfl] at hraw
      obtain ⟨front, hfront, hraw⟩ := except_bind_ok.mp hraw
      cases hraw
      refine ⟨front ++ [], id, ?_, strictMono_id, ?_⟩
      · rw [hlast hbefore hblank hline, parseTokensFrom_other hfront]
        rfl
      · rw [List.append_nil]
        exact List.forall₂_same.mpr fun t ht => carried_before (hbounds hfront t ht) fun _ _ => rfl

end

/-! ### The stream -/

/-- A token of a stream and what it is in another one. -/
structure Token.Moved (lines lines' : List Line) (move : Nat → Nat) (t t' : Token) : Prop where
  kind_eq : t'.kind = t.kind
  line_eq : t'.location.line = move t.location.line
  indent_eq : (lines'[t'.location.line]?).map Line.indent =
    (lines[t.location.line]?).map Line.indent

section

variable {lines lines' : List Line} {move : Nat → Nat} {tokens tokens' : List Token}

/-- A token of one kind with another is of its type. -/
theorem Token.type_of_kind {t t' : Token} (h : t'.kind = t.kind) : t'.type = t.type :=
  congrArg Prod.fst h

/-- A token of one kind with another has its text. -/
theorem Token.data_of_kind {t t' : Token} (h : t'.kind = t.kind) : t'.data = t.data :=
  congrArg Prod.snd h

/-- A newline token behind moved tokens is moved: the order of lines is kept, so there is
one where there was one before. -/
theorem insertNewlineAfter_moved (hmove : StrictMono move) {last last' : Token}
    (hlast : last.Moved lines lines' move last')
    (h : List.Forall₂ (Token.Moved lines lines' move) tokens tokens') :
    List.Forall₂ (Token.Moved lines lines' move) (insertNewlineAfter last tokens)
      (insertNewlineAfter last' tokens') := by
  have hline : ∀ {t t' : Token}, t.Moved lines lines' move t' →
      (getLineToken t).Moved lines lines' move (getLineToken t') :=
    fun ht => ⟨rfl, ht.line_eq, ht.indent_eq⟩
  induction h generalizing last last' with
  | nil => exact .cons (hline hlast) .nil
  | @cons t t' tokens tokens' ht h ih =>
      -- The two choices of the source, whether a line continues and whether it is another one,
      -- are the same for the two lists.
      have hcontinue : continueLine last' = continueLine last := by
        unfold continueLine
        rw [Token.type_of_kind hlast.kind_eq, Token.data_of_kind hlast.kind_eq]
      simp only [insertNewlineAfter, hcontinue, hlast.line_eq, ht.line_eq, hmove.lt_iff_lt]
      split
      · exact .cons (hline hlast) (.cons ht (ih ht))
      · exact .cons ht (ih ht)

/-- The same from the first token on. -/
theorem insertNewline_moved (hmove : StrictMono move)
    (h : List.Forall₂ (Token.Moved lines lines' move) tokens tokens') :
    List.Forall₂ (Token.Moved lines lines' move) (insertNewline tokens)
      (insertNewline tokens') := by
  cases h with
  | nil => exact .nil
  | cons ht h => exact .cons ht (insertNewlineAfter_moved hmove ht h)

/-- The brackets of tokens of the same kinds match, or not. -/
theorem matchBracketsFrom_kinds {output output' : Output} {stack stack' rest : List Token}
    (hstack : List.Forall₂ (fun t t' : Token => t'.kind = t.kind) stack stack')
    (h : List.Forall₂ (fun t t' : Token => t'.kind = t.kind) tokens tokens')
    (hrun : matchBracketsFrom output stack tokens = .ok rest) :
    ∃ rest', matchBracketsFrom output' stack' tokens' = .ok rest' ∧
      List.Forall₂ (fun t t' : Token => t'.kind = t.kind) rest rest' := by
  induction h generalizing stack stack' with
  | nil =>
      cases hrun
      exact ⟨stack', rfl, hstack⟩
  | @cons t t' tokens tokens' ht h ih =>
      rw [matchBracketsFrom.eq_def] at hrun ⊢
      dsimp only at hrun ⊢
      rw [Token.type_of_kind ht, Token.data_of_kind ht]
      split_ifs at hrun ⊢
      · exact ih (.cons ht hstack) hrun
      -- A closing bracket: both stacks are empty, or both have an opening one of the same data.
      · cases hstack with
        | nil => exact absurd hrun Output.panic_ne_ok
        | @cons o o' stack stack' ho hstack =>
            obtain ⟨close, hclose, hrun⟩ := except_bind_ok.mp hrun
            dsimp only
            rw [Token.data_of_kind ho, hclose]
            split_ifs at hrun with hne
            · exact absurd hrun Output.panic_ne_ok
            · obtain ⟨rest', hrun', hrest⟩ := ih hstack hrun
              exact ⟨rest', (if_neg hne).trans hrun', hrest⟩
      · exact ih hstack hrun

/-- Brackets are matched by their kinds. -/
theorem matchBrackets_kinds {output output' : Output}
    (h : List.Forall₂ (fun t t' : Token => t'.kind = t.kind) tokens tokens')
    (hrun : matchBrackets output tokens = .ok ()) : matchBrackets output' tokens' = .ok () := by
  obtain ⟨rest, hrest, hrun⟩ := except_bind_ok.mp hrun
  obtain ⟨rest', hrest', hkinds⟩ := @matchBracketsFrom_kinds _ _ output output' _ _ _ .nil h hrest
  unfold matchBrackets
  rw [hrest']
  cases hkinds with
  | nil => rfl
  | cons ho _ =>
      obtain ⟨close, -, hpanic⟩ := except_bind_ok.mp hrun
      exact absurd hpanic Output.panic_ne_ok

end

/-- The table has the indent of the line of a token. -/
theorem indent_of_parseLines {output : Output} {source data : Str} {lines : List Line}
    (hlines : parseLines output source data = .ok lines) {offset : Nat}
    (hlt : offset < data.length) :
    (lines[lineOf data offset]?).map Line.indent = some (indentAt data offset) := by
  obtain ⟨lines', hlines', -, hline⟩ :=
    getLocation_exact output source (no_tab_of_parseLinesFrom hlines) hlt 0
  cases hlines.symm.trans hlines'
  rw [hline]
  rfl

/-- The stream of a text is moved to that of the text with more lines. -/
theorem tokenize_inserts {output output' : Output} {source data text : Str} {tokens : Tokens}
    (h : Inserts data text) (htab : '\t' ∉ text)
    (htokens : tokenize output source data = .ok tokens) :
    ∃ tokens' move, tokenize output' source text = .ok tokens' ∧ StrictMono move ∧
      List.Forall₂ (Token.Moved tokens.lines tokens'.lines move) tokens.tokens tokens'.tokens := by
  obtain ⟨lines, raw, located, hlines, hraw, hlocated, hbrackets, rfl⟩ :=
    tokenize_eq_ok_iff.mp htokens
  obtain ⟨lines', hlines'⟩ : ∃ lines', parseLines output' source text = .ok lines' :=
    parseLinesFrom_of_no_tab htab
  obtain ⟨raw', move, hraw', hmove, hcarried⟩ :=
    @parseTokens_inserts output output' source source lines lines' data text raw h hraw
  have hscans : Scans 0 data raw := scans_of_parseTokensFrom hraw
  have hscans' : Scans 0 text raw' := scans_of_parseTokensFrom hraw'
  rw [locateTokens_eq hlines hscans (Nat.le_refl 0) (Nat.zero_add _).le] at hlocated
  cases hlocated
  have hlocated' := locateTokens_eq hlines' hscans' (Nat.le_refl 0) (Nat.zero_add _).le
  have hmoved : List.Forall₂ (Token.Moved lines lines' move) (raw.map (Token.locate source data))
      (raw'.map (Token.locate source text)) := by
    refine List.forall₂_map_left_iff.mpr (List.forall₂_map_right_iff.mpr ?_)
    refine List.forall₂_iff_get.mpr ⟨hcarried.length_eq, fun i hi hi' => ?_⟩
    have ht := hcarried.get hi hi'
    have hlt := (hscans.bounds _ (raw.get_mem ⟨i, hi⟩)).2
    have hlt' := (hscans'.bounds _ (raw'.get_mem ⟨i, hi'⟩)).2
    rw [Nat.zero_add] at hlt hlt'
    -- Both tables have the indent of the line, and the text of the line is the same.
    refine ⟨ht.kind_eq, ht.line_eq, ?_⟩
    exact (indent_of_parseLines hlines' hlt').trans
      ((congrArg some ht.indent_eq).trans (indent_of_parseLines hlines hlt).symm)
  refine ⟨⟨lines', insertNewline (raw'.map (Token.locate source text))⟩, move, ?_, hmove,
    insertNewline_moved hmove hmoved⟩
  exact tokenize_eq_ok_iff.mpr ⟨lines', raw', _, hlines', hraw', hlocated',
    matchBrackets_kinds (hmoved.imp fun _ _ ht => ht.kind_eq) hbrackets, rfl⟩

end Aike
