import Aike.Proofs.Tokenize.Lines
import Aike.Proofs.Tokenize.Scan

/-!
# `Aike.Proofs.Tokenize.Pieces`: a text and its tokens

`parseTokens_lossless_iff`: a text that is accepted is its tokens with gaps between
them, unless a literal is cut off at its end.

`Within` follows a text from the code into comments and literals and back. Gaps and
tokens lead back to the code. `locateTokens_eq` puts the locations of
`Aike.Proofs.Tokenize.Lines` on the tokens.
-/

set_option autoImplicit false

namespace Aike

/-! ### Literals that are cut off -/

/-- What a place in a text is in. -/
inductive Within
  | code
  | comment
  | literal (quote : Char)
  deriving DecidableEq

/-- What the place after a character is in. -/
def Within.step : Within → Char → Within
  | .code, ch =>
      if ch = '#' then .comment else if ch = '"' ∨ ch = '\'' then .literal ch else .code
  | .comment, ch => if ch = '\n' then .code else .comment
  | .literal quote, ch => if ch = quote then .code else .literal quote

/-- What the place after a text is in. -/
def Within.after (text : Str) : Within := text.foldl Within.step .code

/-- The end of the text is in a literal. -/
def EndsInLiteral (text : Str) : Prop := ∃ quote, Within.after text = .literal quote

/-- A comment goes on until the end of its line. -/
theorem foldl_comment {body : Str} (h : '\n' ∉ body) :
    body.foldl Within.step .comment = .comment := by
  induction body with
  | nil => rfl
  | cons ch body ih =>
      rw [List.mem_cons, not_or] at h
      rw [List.foldl_cons, Within.step, if_neg (Ne.symm h.1)]
      exact ih h.2

/-- A literal goes on until its quote. -/
theorem foldl_literal {q : Char} {data : Str} (h : q ∉ data) :
    data.foldl Within.step (.literal q) = .literal q := by
  induction data with
  | nil => rfl
  | cons ch data ih =>
      rw [List.mem_cons, not_or] at h
      rw [List.foldl_cons, Within.step, if_neg (Ne.symm h.1)]
      exact ih h.2

/-- A text without quotes and comments stays in the code. -/
theorem foldl_plain {data : Str} (h : ∀ ch ∈ data, ch ≠ '#' ∧ ch ≠ '"' ∧ ch ≠ '\'' ∧ ch ≠ '\n') :
    data.foldl Within.step .code = .code := by
  induction data with
  | nil => rfl
  | cons ch data ih =>
      obtain ⟨hcomment, hstring, hcharacter, -⟩ := h ch List.mem_cons_self
      have hstep : Within.step .code ch = .code := by
        rw [Within.step, if_neg hcomment, if_neg (not_or.mpr ⟨hstring, hcharacter⟩)]
      rw [List.foldl_cons, hstep]
      exact ih fun ch' hch' => h ch' (List.mem_cons_of_mem _ hch')

/-- A quote opens a literal. -/
theorem step_quote {q : Char} (hq : q = '"' ∨ q = '\'') : Within.step .code q = .literal q := by
  rcases hq with rfl | rfl <;> decide

/-- A space stays in the code. -/
theorem step_space {ch : Char} (h : isSpace ch = true) : Within.step .code ch = .code := by
  have hcomment : ch ≠ '#' := ne_of_class h (by decide)
  have hquote : ¬ (ch = '"' ∨ ch = '\'') :=
    not_or.mpr ⟨ne_of_class h (by decide), ne_of_class h (by decide)⟩
  rw [Within.step, if_neg hcomment, if_neg hquote]

/-- A token leaves the code that it is in. -/
theorem Token.ReadAt.foldl_text {offset : Nat} {t : Token} (ht : t.ReadAt offset) :
    t.text.foldl Within.step .code = .code := by
  cases hquote : t.quote with
  | none =>
      rw [Token.text, hquote]
      exact foldl_plain (ht.plain hquote)
  | some q =>
      obtain ⟨hq, hfree⟩ := ht.literal q hquote
      rw [Token.text, hquote]
      show (q :: (t.data ++ [q])).foldl Within.step .code = .code
      rw [List.foldl_cons, step_quote hq, List.foldl_append, foldl_literal hfree, List.foldl_cons,
        Within.step, if_pos rfl]
      rfl

/-! ### Gaps -/

/-- Spaces, line ends and whole comments. -/
inductive Gap : Str → Prop
  | nil : Gap []
  | space {ch : Char} {gap : Str} (hch : isSpace ch = true) (h : Gap gap) : Gap (ch :: gap)
  | comment {body gap : Str} (hbody : '\n' ∉ body) (h : Gap gap) :
      Gap ('#' :: (body ++ '\n' :: gap))

/-- A gap at the end of a text, where the end of the text can end a comment. -/
inductive LastGap : Str → Prop
  | gap {gap : Str} (h : Gap gap) : LastGap gap
  | comment {gap body : Str} (h : Gap gap) (hbody : '\n' ∉ body) : LastGap (gap ++ '#' :: body)

/-- A text is the texts of tokens, with gaps before, between and after them. -/
inductive Tiles : List Token → Str → Prop
  | last {gap : Str} (h : LastGap gap) : Tiles [] gap
  | token {t : Token} {tokens : List Token} {gap text : Str} (hgap : Gap gap)
      (h : Tiles tokens text) : Tiles (t :: tokens) (gap ++ (t.text ++ text))

/-- A gap leads back to the code: it is spaces, and comments with their newlines. -/
theorem Gap.foldl_eq {gap : Str} (h : Gap gap) : gap.foldl Within.step .code = .code := by
  induction h with
  | nil => rfl
  | space hch _ ih => rwa [List.foldl_cons, step_space hch]
  | comment hbody _ ih =>
      rw [List.foldl_cons, show Within.step .code '#' = .comment from rfl, List.foldl_append,
        foldl_comment hbody, List.foldl_cons]
      exact ih

/-- The gap at the end is no literal: it may end in a comment. -/
theorem LastGap.not_literal {gap : Str} (h : LastGap gap) : ¬ EndsInLiteral gap := by
  rintro ⟨q, hq⟩
  rw [Within.after] at hq
  cases h with
  | gap h =>
      rw [h.foldl_eq] at hq
      cases hq
  | comment h hbody =>
      rw [List.foldl_append, h.foldl_eq, List.foldl_cons,
        show Within.step .code '#' = .comment from rfl, foldl_comment hbody] at hq
      cases hq

/-- Code before a text does not change where the text ends. -/
theorem endsInLiteral_append {before text : Str} (h : before.foldl Within.step .code = .code) :
    EndsInLiteral (before ++ text) ↔ EndsInLiteral text := by
  unfold EndsInLiteral Within.after
  rw [List.foldl_append, h]

namespace Tiles

variable {ch : Char} {body text : Str} {tokens : List Token}

/-- A text that is tiled ends in no literal: each tile leads back to the code. -/
theorem not_literal (h : Tiles tokens text) (hread : ∀ t ∈ tokens, ∃ offset, t.ReadAt offset) :
    ¬ EndsInLiteral text := by
  induction h with
  | last h => exact h.not_literal
  | token hgap _ ih =>
      obtain ⟨⟨offset, ht⟩, hread⟩ := List.forall_mem_cons.mp hread
      rw [endsInLiteral_append hgap.foldl_eq, endsInLiteral_append ht.foldl_text]
      exact ih hread

/-- A space is a part of the gap before the first token. -/
theorem space (hch : isSpace ch = true) (h : Tiles tokens text) : Tiles tokens (ch :: text) := by
  cases h with
  | last h =>
      cases h with
      | gap h => exact .last (.gap (.space hch h))
      | comment h hbody => exact .last (.comment (.space hch h) hbody)
  | token hgap h => exact .token (.space hch hgap) h

/-- So is a comment with its newline. -/
theorem comment (hbody : '\n' ∉ body) (h : Tiles tokens text) :
    Tiles tokens ('#' :: (body ++ '\n' :: text)) := by
  cases h with
  | last h =>
      cases h with
      | gap h => exact .last (.gap (.comment hbody h))
      | comment h hlast =>
          have := LastGap.comment (.comment hbody h) hlast
          rw [List.cons_append, List.append_assoc] at this
          exact .last this
  | @token t _ _ _ hgap h =>
      have := Tiles.token (t := t) (.comment hbody hgap) h
      rwa [List.cons_append, List.append_assoc] at this

end Tiles

/-! ### What is read -/

namespace Scans

variable {offset : Nat} {text : Str} {tokens : List Token}

/-- Each token that was scanned was read at some place. -/
theorem readAt (h : Scans offset text tokens) : ∀ t ∈ tokens, ∃ offset, t.ReadAt offset := by
  induction h with
  | nil => exact List.forall_mem_nil _
  | space _ _ ih => exact ih
  | comment _ _ ih => exact ih
  | lastComment _ => exact List.forall_mem_nil _
  | token ht _ ih => exact List.forall_mem_cons.mpr ⟨⟨_, ht⟩, ih⟩
  | cut ht _ => exact List.forall_mem_singleton.mpr ⟨_, ht⟩

/-- A text that was scanned is tiled, if no literal is cut off at its end. -/
theorem tiles (h : Scans offset text tokens) (hliteral : ¬ EndsInLiteral text) :
    Tiles tokens text := by
  induction h with
  | nil => exact .last (.gap .nil)
  | space hch _ ih =>
      refine (ih fun h => hliteral ?_).space hch
      exact (@endsInLiteral_append [_] _ (step_space hch)).mpr h
  | @comment _ body text _ hbody _ ih =>
      refine (ih fun h => hliteral ?_).comment hbody
      have hcode : ('#' :: (body ++ ['\n'])).foldl Within.step .code = .code :=
        (Gap.comment hbody .nil).foldl_eq
      have := (endsInLiteral_append hcode).mpr h
      rwa [List.cons_append, List.append_assoc] at this
  | @lastComment _ body hbody => exact .last (@LastGap.comment [] body .nil hbody)
  | @token _ t text tokens ht _ ih =>
      refine @Tiles.token t tokens [] text .nil (ih fun h => hliteral ?_)
      exact (endsInLiteral_append ht.foldl_text).mpr h
  | @cut _ t q ht hq =>
      obtain ⟨hq', hfree⟩ := ht.literal q hq
      refine absurd ⟨q, ?_⟩ hliteral
      rw [Within.after, List.foldl_cons, step_quote hq', foldl_literal hfree]

/-- A token is read from the text. -/
theorem bounds (h : Scans offset text tokens) :
    ∀ t ∈ tokens, offset ≤ t.offset ∧ t.offset < offset + text.length := by
  induction h with
  | nil => exact List.forall_mem_nil _
  | space _ _ ih =>
      intro t ht
      have := ih t ht
      rw [List.length_cons]
      omega
  | comment _ _ ih =>
      intro t ht
      have := ih t ht
      rw [List.length_cons, List.length_append, List.length_cons]
      omega
  | lastComment _ => exact List.forall_mem_nil _
  | token ht _ ih =>
      have hpos := List.length_pos_of_ne_nil ht.text_ne
      rw [List.length_append]
      refine List.forall_mem_cons.mpr ⟨?_, fun t ht => ?_⟩
      · rw [ht.offset_eq]
        omega
      · have := ih t ht
        omega
  | cut ht _ =>
      refine List.forall_mem_singleton.mpr ?_
      rw [ht.offset_eq, List.length_cons]
      omega

/-- What a literal has between its delimiters is in the text. -/
theorem literal (h : Scans offset text tokens) {t : Token} {q : Char} (ht : t ∈ tokens)
    (hq : t.quote = some q) :
    ∃ before after, text = before ++ q :: (t.data ++ after) ∧
      t.offset = offset + before.length := by
  induction h with
  | nil => cases ht
  | @space offset ch _ _ _ _ ih =>
      obtain ⟨before, after, htext, hoffset⟩ := ih ht
      refine ⟨ch :: before, after, by rw [htext, List.cons_append], ?_⟩
      rw [hoffset, List.length_cons]
      omega
  | @comment offset body _ _ _ _ ih =>
      obtain ⟨before, after, htext, hoffset⟩ := ih ht
      refine ⟨'#' :: (body ++ '\n' :: before), after, ?_, ?_⟩
      · rw [htext, List.cons_append, List.append_assoc, List.cons_append]
      · rw [hoffset, List.length_cons, List.length_append, List.length_cons]
        omega
  -- A comment has no tokens.
  | lastComment _ => cases ht
  | @token offset t' text _ hread _ ih =>
      rcases List.mem_cons.mp ht with rfl | ht
      · refine ⟨[], q :: text, ?_, hread.offset_eq⟩
        rw [Token.text, hq, List.nil_append, List.cons_append, List.append_assoc,
          List.singleton_append]
      · obtain ⟨before, after, htext, hoffset⟩ := ih ht
        refine ⟨t'.text ++ before, after, by rw [htext, List.append_assoc], ?_⟩
        rw [hoffset, List.length_append, Nat.add_assoc]
  | cut hread hq' =>
      cases List.mem_singleton.mp ht
      cases hq.symm.trans hq'
      exact ⟨[], [], by rw [List.append_nil, List.nil_append], hread.offset_eq⟩

/-- Tokens do not overlap. -/
theorem pairwise (h : Scans offset text tokens) :
    tokens.Pairwise fun p t => p.offset + p.text.length ≤ t.offset := by
  induction h with
  | nil => exact .nil
  | space _ _ ih => exact ih
  | comment _ _ ih => exact ih
  | lastComment _ => exact .nil
  | token ht h ih =>
      refine .cons (fun t' ht' => ?_) ih
      rw [ht.offset_eq]
      exact (h.bounds t' ht').1
  | cut _ _ => exact List.pairwise_singleton _ _

end Scans

/-! ### Locations -/

/-- A token is as long as its text, and ends inside of what is left. -/
theorem Token.ReadAt.length_text {offset : Nat} {t : Token} (ht : t.ReadAt offset) :
    t.offset < t.endOffset ∧ t.endOffset ≤ offset + t.text.length := by
  have hend := ht.endOffset_eq
  have hoffset := ht.offset_eq
  have hpos := List.length_pos_of_ne_nil ht.text_ne
  refine ⟨?_, by omega⟩
  cases hquote : t.quote with
  | none =>
      rw [hquote, Option.toList_none, List.length_nil] at hend
      omega
  | some q =>
      have hlength : t.text.length = t.data.length + 2 := by
        rw [Token.text, hquote, List.length_cons, List.length_append, List.length_singleton]
      rw [hquote, Option.toList_some, List.length_singleton] at hend
      omega

/-- A token of a text, with its location. -/
def Token.locate (source data : Str) (t : Token) : Token :=
  { t with location :=
      ⟨source, lineOf data t.offset, columnOf data t.offset, t.offset, t.endOffset - t.offset⟩ }

section

variable {output : Output} {source data : Str} {lines : List Line}

/-- The location of a place can be read off the text. -/
theorem getLocation_of_parseLines (hlines : parseLines output source data = .ok lines)
    {offset : Nat} (hlt : offset < data.length) (length : Nat) :
    getLocation source lines offset length =
      .ok ⟨source, lineOf data offset, columnOf data offset, offset, length⟩ := by
  obtain ⟨lines', hlines', hlocation, -⟩ :=
    getLocation_exact output source (no_tab_of_parseLinesFrom hlines) hlt length
  cases hlines.symm.trans hlines'
  exact hlocation

/-- The first location is that of the first token. -/
theorem locateTokens_cons (hlines : parseLines output source data = .ok lines)
    {offset last : Nat} {t : Token} {tokens located : List Token} (ht : t.ReadAt offset)
    (hlast : last ≤ offset) (hlt : offset < data.length)
    (h : locateTokens source lines t.endOffset tokens = .ok located) :
    locateTokens source lines last (t :: tokens) = .ok (t.locate source data :: located) := by
  obtain ⟨hend, -⟩ := ht.length_text
  have hlt' : t.offset < data.length := by
    rw [ht.offset_eq]
    exact hlt
  have hlocation := getLocation_of_parseLines hlines hlt' (t.endOffset - t.offset)
  have hafter : t.offset ≥ last := by
    rw [ht.offset_eq]
    exact hlast
  rw [locateTokens]
  show (assertThat (t.offset < t.endOffset) >>= fun _ => assertThat (t.offset ≥ last) >>= fun _ =>
    getLocation source lines t.offset (t.endOffset - t.offset) >>= fun location =>
      locateTokens source lines t.endOffset tokens >>= fun tokens =>
        Except.ok ({ t with location } :: tokens)) = _
  rw [(assertThat_ok (u := ())).mpr hend, (assertThat_ok (u := ())).mpr hafter, hlocation, h]
  rfl

/-- All locations can be read off the text. By induction on the tokens. -/
theorem locateTokens_eq (hlines : parseLines output source data = .ok lines) {offset last : Nat}
    {text : Str} {tokens : List Token} (h : Scans offset text tokens) (hlast : last ≤ offset)
    (hsize : offset + text.length ≤ data.length) :
    locateTokens source lines last tokens = .ok (tokens.map (Token.locate source data)) := by
  induction h generalizing last with
  | nil => rfl
  | space _ _ ih =>
      rw [List.length_cons] at hsize
      exact ih (by omega) (by omega)
  | comment _ _ ih =>
      rw [List.length_cons, List.length_append, List.length_cons] at hsize
      exact ih (by omega) (by omega)
  | lastComment _ => rfl
  | token ht _ ih =>
      have hpos := List.length_pos_of_ne_nil ht.text_ne
      rw [List.length_append] at hsize
      exact locateTokens_cons hlines ht hlast (by omega) (ih ht.length_text.2 (by omega))
  | cut ht _ =>
      rw [List.length_cons] at hsize
      exact locateTokens_cons hlines ht hlast (by omega) rfl

/-- A text that `parseTokens` accepts is its tokens and gaps between them, in order,
exactly if it does not end in a literal. In this case the tokens do not overlap and the
assertions about their order hold. -/
theorem parseTokens_lossless_iff (hlines : parseLines output source data = .ok lines)
    {tokens : List Token} (htokens : parseTokens output source data lines = .ok tokens) :
    (Tiles tokens data ∧ tokens.Pairwise (fun p t => p.offset + p.text.length ≤ t.offset) ∧
        ∃ located, locateTokens source lines 0 tokens = .ok located) ↔
      ¬ EndsInLiteral data := by
  have hscans : Scans 0 data tokens := scans_of_parseTokensFrom htokens
  constructor
  · rintro ⟨htiles, -, -⟩
    exact htiles.not_literal hscans.readAt
  · intro hliteral
    exact ⟨hscans.tiles hliteral, hscans.pairwise, _,
      locateTokens_eq hlines hscans (Nat.le_refl 0) (Nat.zero_add _).le⟩

end

/-- A comment between two tokens, one of them a literal. -/
theorem parseTokens_lossless_comment :
    (Tiles [⟨.string, "a".toList, 0, 1, {}⟩, ⟨.ident, "b".toList, 6, 6, {}⟩] "\"a\"#c\nb".toList ∧
        List.Pairwise (fun p t : Token => p.offset + p.text.length ≤ t.offset)
          [⟨.string, "a".toList, 0, 1, {}⟩, ⟨.ident, "b".toList, 6, 6, {}⟩] ∧
        ∃ located, locateTokens [] [⟨0, 0⟩, ⟨0, 6⟩] 0
          [⟨.string, "a".toList, 0, 1, {}⟩, ⟨.ident, "b".toList, 6, 6, {}⟩] = .ok located) ↔
      ¬ EndsInLiteral "\"a\"#c\nb".toList :=
  @parseTokens_lossless_iff {} [] "\"a\"#c\nb".toList _ (by decide) _ (by decide)

/-- The text is the opening delimiter of a literal and one character. -/
theorem parseTokens_lossless_cut :
    ∃ (tokens : List Token) (lines : List Line),
      parseLines {} [] "\"a".toList = .ok lines ∧ parseTokens {} [] "\"a".toList lines =
        .ok tokens ∧
        ¬ Tiles tokens "\"a".toList := by
  refine ⟨[⟨.string, "a".toList, 0, 1, {}⟩], [⟨0, 0⟩], by decide, by decide, fun h => ?_⟩
  have hread : ∀ t ∈ [(⟨.string, "a".toList, 0, 1, {}⟩ : Token)], ∃ offset, t.ReadAt offset :=
    (@scans_of_parseTokensFrom {} [] [] 0 "\"a".toList _ (by decide)).readAt
  exact h.not_literal hread ⟨'"', by decide⟩

end Aike
