import Aike.Proofs.Tokenize.Pieces

/-!
# `Aike.Proofs.Tokenize.Newlines`: where the line tokens are

`insertNewline` compares the lines that two tokens start on. These differ if there is
a line break between the tokens, and also if there is one in the first of them.

`insertNewline_marksLineBreaks_iff`: the line tokens are where the line breaks are,
unless the token after a literal with a line break in it is on the last line of the
literal.
-/

set_option autoImplicit false

namespace Aike

/-! ### Adjacent tokens -/

/-- The text between two tokens. -/
def textBetween (data : Str) (p t : Token) : Str :=
  (data.take t.offset).drop (p.offset + p.text.length)

namespace Scans

variable {offset : Nat} {text : Str} {tokens : List Token}

/-- The text up to the first token. -/
theorem first {t : Token} (h : Scans offset text (t :: tokens)) :
    ∃ gap after, text = gap ++ after ∧ t.offset = offset + gap.length := by
  generalize hall : t :: tokens = all at h
  induction h with
  | nil => cases hall
  | @space offset ch _ _ _ _ ih =>
      obtain ⟨gap, after, rfl, hoffset⟩ := ih hall
      refine ⟨ch :: gap, after, rfl, ?_⟩
      rw [hoffset, List.length_cons]
      omega
  | @comment offset body _ _ _ _ ih =>
      obtain ⟨gap, after, rfl, hoffset⟩ := ih hall
      refine ⟨'#' :: (body ++ '\n' :: gap), after, by simp, ?_⟩
      rw [hoffset, List.length_cons, List.length_append, List.length_cons]
      omega
  | lastComment _ => cases hall
  | token ht _ _ =>
      cases hall
      exact ⟨[], _, rfl, ht.offset_eq⟩
  | cut ht _ =>
      cases hall
      exact ⟨[], _, rfl, ht.offset_eq⟩

/-- The text around two adjacent tokens. -/
theorem adjacent {p t : Token} {i : Nat} (h : Scans offset text tokens) (hp : tokens[i]? = some p)
    (ht : tokens[i + 1]? = some t) :
    ∃ before gap after, text = before ++ (p.text ++ (gap ++ after)) ∧
      p.offset = offset + before.length ∧
        t.offset = offset + before.length + p.text.length + gap.length := by
  induction h generalizing i with
  | nil => cases hp
  | @space offset ch _ _ _ _ ih =>
      obtain ⟨before, gap, after, rfl, hoffset, hoffset'⟩ := ih hp ht
      refine ⟨ch :: before, gap, after, rfl, ?_, ?_⟩
      · rw [hoffset, List.length_cons]
        omega
      · rw [hoffset', List.length_cons]
        omega
  | @comment offset body _ _ _ _ ih =>
      obtain ⟨before, gap, after, rfl, hoffset, hoffset'⟩ := ih hp ht
      refine ⟨'#' :: (body ++ '\n' :: before), gap, after, by simp, ?_, ?_⟩
      · rw [hoffset, List.length_cons, List.length_append, List.length_cons]
        omega
      · rw [hoffset', List.length_cons, List.length_append, List.length_cons]
        omega
  | lastComment _ => cases hp
  | @token offset p' text tokens hread h ih =>
      cases i with
      | zero =>
          cases hp
          -- The first of the two is read here, and the gap after it is what the second one skips.
          cases tokens with
          | nil => cases ht
          | cons t' tokens =>
              cases ht
              obtain ⟨gap, after, rfl, hoffset⟩ := h.first
              exact ⟨[], gap, after, rfl, hread.offset_eq, hoffset⟩
      | succ i =>
          obtain ⟨before, gap, after, rfl, hoffset, hoffset'⟩ := ih hp ht
          refine ⟨p'.text ++ before, gap, after, by rw [List.append_assoc], ?_, ?_⟩
          · rw [hoffset, List.length_append, Nat.add_assoc]
          · rw [hoffset', List.length_append]
            omega
  -- Nothing is read after a literal that is cut off.
  | cut _ _ => cases ht

end Scans

/-- The line of an offset is the number of line breaks before it. -/
theorem lineOf_append {before text : Str} :
    lineOf (before ++ text) before.length = before.count '\n' := by
  rw [lineOf, List.take_left]

/-- The lines of two adjacent tokens differ by the line breaks in the first of them and
by those between them. -/
theorem lineOf_lt_iff {data : Str} {raw : List Token} (h : Scans 0 data raw) {p t : Token} {i : Nat}
    (hp : raw[i]? = some p) (ht : raw[i + 1]? = some t) :
    lineOf data p.offset < lineOf data t.offset ↔
      '\n' ∈ p.text ∨ '\n' ∈ textBetween data p t := by
  obtain ⟨before, gap, after, rfl, hoffset, hoffset'⟩ := h.adjacent hp ht
  rw [Nat.zero_add] at hoffset hoffset'
  have hlength : t.offset = (before ++ p.text ++ gap).length := by
    rw [hoffset', List.length_append, List.length_append]
  have hsplit : before ++ (p.text ++ (gap ++ after)) = before ++ p.text ++ gap ++ after := by
    rw [List.append_assoc, List.append_assoc]
  have hbetween : textBetween (before ++ (p.text ++ (gap ++ after))) p t = gap := by
    rw [textBetween, hsplit, hlength, List.take_left, hoffset, ← List.length_append, List.drop_left]
  rw [hbetween, hoffset, lineOf_append, hsplit, hlength, lineOf_append, List.count_append,
    List.count_append, ← List.count_pos_iff, ← List.count_pos_iff]
  omega

/-- A token with a line break in it is a literal, which continues no line. -/
theorem Token.ReadAt.continueLine_of_break {offset : Nat} {t : Token} (ht : t.ReadAt offset)
    (hbreak : '\n' ∈ t.text) : continueLine t = false := by
  cases hquote : t.quote with
  | none =>
      rw [Token.text, hquote] at hbreak
      exact absurd rfl (ht.plain hquote '\n' hbreak).2.2.2
  | some q =>
      have htype : t.type = .string ∨ t.type = .character := by
        unfold Token.quote at hquote
        split at hquote
        case h_1 h => exact .inl h
        case h_2 h => exact .inr h
        case h_3 => cases hquote
      unfold continueLine
      rcases htype with h | h <;> rw [h] <;> rfl

/-! ### Line tokens -/

/-- What comes in a stream after the first tokens of the text. -/
def afterTokens : Nat → List Token → List Token
  | 0, stream => stream
  | _ + 1, [] => []
  | n + 1, t :: stream =>
      if t.type = .line then afterTokens (n + 1) stream else afterTokens n stream

/-- The line tokens between the token `i` of a text and the one after it. -/
def lineTokensAfter (stream : List Token) (i : Nat) : List Token :=
  (afterTokens (i + 1) stream).takeWhile (·.type = .line)

/-- The line tokens of a stream are where the line breaks between the tokens are, and
at the end. -/
structure MarksLineBreaks (data : Str) (raw stream : List Token) : Prop where
  between : ∀ i p t, raw[i]? = some p → raw[i + 1]? = some t →
    (lineTokensAfter stream i).length ≤ 1 ∧
      ((lineTokensAfter stream i).length = 1 ↔
        '\n' ∈ textBetween data p t ∧ continueLine p = false)
  ending : stream ≠ [] ↔ ∃ l, l.type = .line ∧ afterTokens raw.length stream = [l]

/-- All of the stream comes after no tokens. -/
theorem afterTokens_zero (stream : List Token) : afterTokens 0 stream = stream := by
  cases stream <;> rfl

/-- A token of the text counts as one. -/
theorem afterTokens_cons {t : Token} (ht : t.type ≠ .line) (n : Nat) (stream : List Token) :
    afterTokens (n + 1) (t :: stream) = afterTokens n stream := if_neg ht

/-- After the token `i` it is as if the text had ended and started there. -/
theorem afterTokens_insertNewlineAfter {last p : Token} {tokens : List Token}
    (hline : ∀ t ∈ tokens, t.type ≠ .line) {i : Nat} (hp : tokens[i]? = some p) :
    afterTokens (i + 1) (insertNewlineAfter last tokens) =
      insertNewlineAfter p (tokens.drop (i + 1)) := by
  induction tokens generalizing last i with
  | nil => cases hp
  | cons t tokens ih =>
      obtain ⟨ht, hline⟩ := List.forall_mem_cons.mp hline
      -- A line token before the next token is skipped with it.
      have hstep : afterTokens (i + 1) (insertNewlineAfter last (t :: tokens)) =
          afterTokens i (insertNewlineAfter t tokens) := by
        rw [insertNewlineAfter]
        split
        · have hnewline : (getLineToken last).type = .line := rfl
          rw [afterTokens, if_pos hnewline, afterTokens_cons ht]
        · exact afterTokens_cons ht i _
      rw [hstep]
      cases i with
      | zero =>
          cases hp
          exact afterTokens_zero _
      | succ i => exact ih hline hp

/-- What comes after a token in the stream that `insertNewline` makes is what it makes of
the tokens behind it. -/
theorem afterTokens_insertNewline {p : Token} {tokens : List Token}
    (hline : ∀ t ∈ tokens, t.type ≠ .line) {i : Nat} (hp : tokens[i]? = some p) :
    afterTokens (i + 1) (insertNewline tokens) = insertNewlineAfter p (tokens.drop (i + 1)) := by
  cases tokens with
  | nil => cases hp
  | cons t tokens =>
      obtain ⟨ht, hline⟩ := List.forall_mem_cons.mp hline
      rw [insertNewline, afterTokens_cons ht]
      cases i with
      | zero =>
          cases hp
          exact afterTokens_zero _
      | succ i => exact afterTokens_insertNewlineAfter hline hp

/-- Between two adjacent tokens there is a line token, or nothing. -/
theorem lineTokensAfter_eq {p t : Token} {tokens : List Token}
    (hline : ∀ t ∈ tokens, t.type ≠ .line) {i : Nat} (hp : tokens[i]? = some p)
    (ht : tokens[i + 1]? = some t) :
    lineTokensAfter (insertNewline tokens) i =
      if p.location.line < t.location.line ∧ ¬ continueLine p then [getLineToken p] else [] := by
  obtain ⟨hlt, rfl⟩ := List.getElem?_eq_some_iff.mp ht
  have hnext : (tokens[i + 1] :: insertNewlineAfter tokens[i + 1] (tokens.drop (i + 2))).takeWhile
      (·.type = .line) = [] :=
    List.takeWhile_cons_of_neg
      fun h => hline _ (List.getElem_mem hlt) (of_decide_eq_true h)
  rw [lineTokensAfter, afterTokens_insertNewline hline hp, List.drop_eq_getElem_cons hlt,
    insertNewlineAfter]
  split
  · rw [List.takeWhile_cons_of_pos (by rfl)]
    exact congrArg (getLineToken p :: ·) hnext
  · exact hnext

section

variable {output : Output} {source data : Str} {lines : List Line} {stream raw : List Token}

/-- The stream of a text whose tokens are known. -/
theorem tokenize_stream (h : tokenize output source data = .ok ⟨lines, stream⟩)
    (hraw : parseTokens output source data lines = .ok raw) :
    stream = insertNewline (raw.map (Token.locate source data)) := by
  obtain ⟨lines', raw', located, hlines, hraw', hlocated, -, htokens⟩ := tokenize_eq_ok_iff.mp h
  cases htokens
  cases hraw.symm.trans hraw'
  have hscans : Scans 0 data raw := scans_of_parseTokensFrom hraw
  rw [locateTokens_eq hlines hscans (Nat.le_refl 0) (Nat.zero_add _).le] at hlocated
  rw [← Except.ok.inj hlocated]

/-- `insertNewline` adds line tokens only, so every other token was there before. -/
theorem mem_of_mem_insertNewlineAfter {t last : Token} {tokens : List Token}
    (hline : t.type ≠ .line) (ht : t ∈ insertNewlineAfter last tokens) : t ∈ tokens := by
  induction tokens generalizing last with
  | nil =>
      rw [insertNewlineAfter, List.mem_singleton] at ht
      exact absurd (congrArg Token.type ht) hline
  | cons t' tokens ih =>
      rw [insertNewlineAfter] at ht
      split at ht
      · rw [List.mem_cons, List.mem_cons] at ht
        rcases ht with rfl | rfl | ht
        · exact absurd rfl hline
        · exact List.mem_cons_self
        · exact List.mem_cons_of_mem _ (ih ht)
      · rcases List.mem_cons.mp ht with rfl | ht
        · exact List.mem_cons_self
        · exact List.mem_cons_of_mem _ (ih ht)

/-- What a stream has besides line tokens is from the text. -/
theorem mem_of_mem_insertNewline {t : Token} {tokens : List Token} (hline : t.type ≠ .line)
    (ht : t ∈ insertNewline tokens) : t ∈ tokens := by
  cases tokens with
  | nil => cases ht
  | cons t' tokens =>
      rcases List.mem_cons.mp ht with rfl | ht
      · exact List.mem_cons_self
      · exact List.mem_cons_of_mem _ (mem_of_mem_insertNewlineAfter hline ht)

/-- A literal of a stream is in the text, at its location. -/
theorem tokenize_literal (h : tokenize output source data = .ok ⟨lines, stream⟩) {t : Token}
    {q : Char} (ht : t ∈ stream) (hq : t.quote = some q) :
    ∃ before after, data = before ++ q :: (t.data ++ after) ∧ t.offset = before.length ∧
      t.location.offset = t.offset ∧ t.location.line = lineOf data t.offset := by
  obtain ⟨lines', raw, _, _, hraw, -, -, hstream⟩ := tokenize_eq_ok_iff.mp h
  cases hstream
  have hline : t.type ≠ .line := by
    intro hline
    rw [Token.quote, hline] at hq
    cases hq
  rw [tokenize_stream h hraw] at ht
  obtain ⟨t, hmem, rfl⟩ := List.mem_map.mp (mem_of_mem_insertNewline hline ht)
  have hscans : Scans 0 data raw := scans_of_parseTokensFrom hraw
  obtain ⟨before, after, hdata, hoffset⟩ := hscans.literal hmem hq
  refine ⟨before, after, hdata, ?_, rfl, rfl⟩
  rw [Nat.zero_add] at hoffset
  exact hoffset

/-- The stream ends with one line token, unless it is empty. -/
theorem insertNewline_ending (hline : ∀ t ∈ raw, t.type ≠ .line) :
    insertNewline raw ≠ [] ↔
      ∃ l, l.type = .line ∧ afterTokens raw.length (insertNewline raw) = [l] := by
  cases hlast : raw.getLast? with
  | none =>
      rw [List.getLast?_eq_none_iff.mp hlast]
      exact iff_of_false (fun h => h rfl) fun ⟨l, _, h⟩ => nomatch h
  | some p =>
      have hpos : 0 < raw.length := List.length_pos_of_mem (List.mem_of_getLast? hlast)
      rw [List.getLast?_eq_getElem?] at hlast
      have hafter := afterTokens_insertNewline hline hlast
      rw [Nat.sub_add_cancel hpos, List.drop_length] at hafter
      refine iff_of_true (fun h => ?_) ⟨_, rfl, hafter⟩
      rw [h] at hafter
      cases hraw : raw.length with
      | zero => omega
      | succ n =>
          rw [hraw] at hafter
          cases hafter

/-- The line tokens of a text that tokenizes are where its line breaks are, exactly if
each token with a line break in it also has one before the token after it. -/
theorem insertNewline_marksLineBreaks_iff (h : tokenize output source data = .ok ⟨lines, stream⟩)
    (hraw : parseTokens output source data lines = .ok raw) :
    MarksLineBreaks data raw stream ↔
      ∀ i p t, raw[i]? = some p → raw[i + 1]? = some t →
        '\n' ∈ p.text → '\n' ∈ textBetween data p t := by
  have hscans : Scans 0 data raw := scans_of_parseTokensFrom hraw
  have hline : ∀ t ∈ raw.map (Token.locate source data), t.type ≠ .line := by
    intro t ht
    obtain ⟨t', ht', rfl⟩ := List.mem_map.mp ht
    obtain ⟨offset, hread⟩ := hscans.readAt t' ht'
    exact hread.notLine
  -- the line token of a pair, in terms of the text
  have hpair : ∀ i p t, raw[i]? = some p → raw[i + 1]? = some t →
      (lineTokensAfter stream i).length ≤ 1 ∧ ((lineTokensAfter stream i).length = 1 ↔
        ('\n' ∈ p.text ∨ '\n' ∈ textBetween data p t) ∧ continueLine p = false) := by
    intro i p t hp ht
    have hp' : (raw.map (Token.locate source data))[i]? = some (p.locate source data) := by
      rw [List.getElem?_map, hp]
      rfl
    have ht' : (raw.map (Token.locate source data))[i + 1]? = some (t.locate source data) := by
      rw [List.getElem?_map, ht]
      rfl
    rw [tokenize_stream h hraw, lineTokensAfter_eq hline hp' ht', ← lineOf_lt_iff hscans hp ht,
      ← Bool.not_eq_true]
    by_cases hcond : lineOf data p.offset < lineOf data t.offset ∧ ¬ continueLine p = true
    · have heq : (if (p.locate source data).location.line < (t.locate source data).location.line ∧
          ¬ continueLine (p.locate source data) = true then [getLineToken (p.locate source data)]
          else []) = [getLineToken (p.locate source data)] := if_pos hcond
      rw [heq]
      exact ⟨Nat.le_refl 1, iff_of_true rfl hcond⟩
    · have heq : (if (p.locate source data).location.line < (t.locate source data).location.line ∧
          ¬ continueLine (p.locate source data) = true then [getLineToken (p.locate source data)]
          else []) = [] := if_neg hcond
      rw [heq]
      exact ⟨Nat.zero_le 1, iff_of_false Nat.zero_ne_one hcond⟩
  constructor
  · intro hmarks i p t hp ht hbreak
    have hcontinue : continueLine p = false := by
      obtain ⟨offset, hread⟩ := hscans.readAt p (List.mem_of_getElem? hp)
      exact hread.continueLine_of_break hbreak
    have hone := (hpair i p t hp ht).2.mpr ⟨.inl hbreak, hcontinue⟩
    exact ((hmarks.between i p t hp ht).2.mp hone).1
  · intro hcond
    refine ⟨fun i p t hp ht => ?_, ?_⟩
    · obtain ⟨hle, hiff⟩ := hpair i p t hp ht
      refine ⟨hle, hiff.trans (and_congr_left fun _ => ?_)⟩
      exact ⟨fun hbreak => hbreak.elim (hcond i p t hp ht) id, .inr⟩
    · have hending := insertNewline_ending hline
      rwa [← tokenize_stream h hraw, List.length_map] at hending

end

/-- A literal on two lines, and the next token on a line of its own. -/
theorem insertNewline_marksLineBreaks_apart :
    MarksLineBreaks "\"a\nb\"\nc".toList
        [⟨.string, "a\nb".toList, 0, 1, {}⟩, ⟨.ident, "c".toList, 6, 6, {}⟩]
        (insertNewline [⟨.string, "a\nb".toList, 0, 1, ⟨[], 0, 0, 0, 4⟩⟩,
          ⟨.ident, "c".toList, 6, 6, ⟨[], 2, 0, 6, 1⟩⟩]) ↔
      ∀ i p t, [(⟨.string, "a\nb".toList, 0, 1, {}⟩ : Token),
          ⟨.ident, "c".toList, 6, 6, {}⟩][i]? = some p →
        [(⟨.string, "a\nb".toList, 0, 1, {}⟩ : Token),
          ⟨.ident, "c".toList, 6, 6, {}⟩][i + 1]? = some t →
        '\n' ∈ p.text → '\n' ∈ textBetween "\"a\nb\"\nc".toList p t :=
  @insertNewline_marksLineBreaks_iff {} [] _ [⟨0, 0⟩, ⟨0, 3⟩, ⟨0, 6⟩] _ _ (by decide) (by decide)

/-- There is no line break between the literal and the name after it. -/
theorem insertNewline_marks_no_break :
    ∃ lines raw stream, tokenize {} [] "\"a\nb\"c".toList = .ok ⟨lines, stream⟩ ∧
      parseTokens {} [] "\"a\nb\"c".toList lines = .ok raw ∧
        ¬ MarksLineBreaks "\"a\nb\"c".toList raw stream := by
  refine ⟨[⟨0, 0⟩, ⟨0, 3⟩], [⟨.string, "a\nb".toList, 0, 1, {}⟩, ⟨.ident, "c".toList, 5, 5, {}⟩],
    insertNewline [⟨.string, "a\nb".toList, 0, 1, ⟨[], 0, 0, 0, 4⟩⟩,
      ⟨.ident, "c".toList, 5, 5, ⟨[], 1, 2, 5, 1⟩⟩], by decide, by decide, fun h => ?_⟩
  have hmark := ((h.between 0 _ _ rfl rfl).2.mp (by decide)).1
  exact absurd hmark (by decide)

end Aike
