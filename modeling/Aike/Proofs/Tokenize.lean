import Mathlib.Data.List.Pairwise
import Aike.Proofs.Parse.Monad

/-!
# `Aike.Proofs.Tokenize`: what the tokenizer delivers

* `tokenize_sound`: the tokenizer fails no assertion, and the stream that it
  delivers is one that the parser can rely on.
* `tokenize_of_blank` and `tokens_ne_nil_of_not_blank`: it delivers no token exactly for
  a blank text.
-/

set_option autoImplicit false

namespace Aike

variable {α β : Type}

/-! ### Results and diagnostics -/

/-- A result in `P`, or a diagnostic. -/
def Delivers (e : Except Stop α) (P : α → Prop) : Prop :=
  match e with
  | .ok a => P a
  | .error (.panic _) => True
  | .error (.fault _) => False

namespace Delivers

variable {e : Except Stop α} {k : α → Except Stop β} {P : α → Prop} {R : β → Prop}

/-- A weaker property holds, too. -/
theorem mono {P' : α → Prop} (h : Delivers e P) (hP : ∀ a, P a → P' a) : Delivers e P' := by
  unfold Delivers at h ⊢
  split at h
  case h_1 a => exact hP a h
  case h_2 d => trivial
  case h_3 f => exact h

/-- A result that has the property. -/
theorem pure {a : α} (h : P a) : Delivers (pure a) P := h

/-- Two steps: the property of the first one is what the second one starts from. -/
theorem bind (h : Delivers e fun a => Delivers (k a) R) : Delivers (e >>= k) R := by
  cases e with
  | ok a => exact h
  | error e =>
      cases e with
      | panic d => trivial
      | fault f => exact h.elim

/-- A branch: both sides, each with its condition. -/
theorem ite {c : Prop} [Decidable c] {e' : Except Stop α} (h : c → Delivers e P)
    (h' : ¬ c → Delivers e' P) : Delivers (if c then e else e') P := by
  split
  case isTrue hc => exact h hc
  case isFalse hc => exact h' hc

/-- An assertion that holds. -/
theorem assertThat {c : Prop} [Decidable c] {P : Unit → Prop} (hc : c) (h : P ()) :
    Delivers (assertThat c) P := by
  unfold Aike.assertThat
  rw [if_pos hc]
  exact h

/-- A diagnostic is an end, if its location is inside of a known text, so that it can be
printed. -/
theorem panic {output : Output} {loc : Location} {message : Str}
    (h : ∀ contents, output.sources loc.source = some contents →
      loc.offset + loc.length ≤ contents.length) :
    Delivers (output.panic loc message) P := by
  unfold Output.panic
  split
  case h_1 contents heq =>
    rw [if_pos (h contents heq)]
    trivial
  case h_2 heq => trivial

/-- A result that was delivered has the property. -/
theorem of_ok {a : α} (h : Delivers e P) (he : e = .ok a) : P a := by
  subst he
  exact h

end Delivers

/-- A composition has a result if both steps have one. -/
theorem except_bind_ok {e : Except Stop α} {k : α → Except Stop β} {b : β} :
    (e >>= k) = .ok b ↔ ∃ a, e = .ok a ∧ k a = .ok b := by
  cases e with
  | error e => exact ⟨fun h => (nomatch h), fun ⟨_, h, _⟩ => (nomatch h)⟩
  | ok a =>
      constructor
      · exact fun h => ⟨a, rfl, h⟩
      · rintro ⟨a', ha, h⟩
        cases ha
        exact h

/-- An assertion that ends holds. -/
theorem assertThat_ok {c : Prop} [Decidable c] {u : Unit} : assertThat c = .ok u ↔ c := by
  unfold assertThat
  split
  case isTrue hc => exact iff_of_true rfl hc
  case isFalse hc => exact iff_of_false (fun h => (nomatch h)) hc

/-- A run that delivers is a result or a diagnostic. -/
theorem Delivers.cases {e : Except Stop α} {P : α → Prop} (h : Delivers e P) :
    (∃ a, e = .ok a ∧ P a) ∨ ∃ d, e = .error (.panic d) := by
  unfold Delivers at h
  split at h
  case h_1 a => exact .inl ⟨a, rfl, h⟩
  case h_2 d => exact .inr ⟨d, rfl⟩
  case h_3 f => exact h.elim

/-- A diagnostic ends the run. -/
theorem Output.panic_bind {output : Output} (loc : Location) (message : Str)
    (k : α → Except Stop β) :
    (output.panic loc message >>= k) = output.panic loc message := by
  unfold Output.panic
  split
  · split <;> rfl
  · rfl

/-- A diagnostic is no result. -/
theorem Output.panic_ne_ok {output : Output} {loc : Location} {message : Str} {a : α} :
    output.panic loc message ≠ .ok a := by
  unfold Output.panic
  split
  · split <;> exact fun h => nomatch h
  · exact fun h => nomatch h

/-! ### Lines -/

section

variable {output : Output} {source data : Str}

/-- The printer knows the text. -/
def Output.Knows (output : Output) (source data : Str) : Prop :=
  output.sources source = some data

/-- A location in the text can be printed. -/
theorem Output.Knows.fits (h : output.Knows source data) {loc : Location}
    (hsource : loc.source = source) (hle : loc.offset + loc.length ≤ data.length) :
    ∀ contents, output.sources loc.source = some contents →
      loc.offset + loc.length ≤ contents.length := by
  intro contents hcontents
  rw [hsource, h] at hcontents
  cases hcontents
  exact hle

/-- The lines from a place on. The first one starts where the line of the place does. By
induction on the text; a tab is a diagnostic. -/
theorem parseLinesFrom_delivers (h : output.Knows source data) {line start indent offset : Nat}
    {scanning : Bool} {text : Str} (htext : offset + text.length = data.length)
    (hstart : start ≤ offset) :
    Delivers (parseLinesFrom output source line start indent scanning offset text) fun lines =>
      start < data.length → ∃ indent rest, lines = ⟨indent, start⟩ :: rest := by
  induction text generalizing line start indent offset scanning with
  | nil =>
      have hend : offset = data.length := htext
      refine .pure fun hlt => ⟨indent, [], ?_⟩
      rw [if_pos (by omega)]
  | cons ch text ih =>
      have htext' : offset + 1 + text.length = data.length := by
        rw [← htext, List.length_cons]
        omega
      refine .ite (fun _ => ?_) fun _ => .ite (fun _ => .panic (h.fits rfl ?_)) fun _ =>
        .ite (fun _ => ih htext' (by omega)) fun _ => ih htext' (by omega)
      · exact .bind ((ih htext' (Nat.le_refl _)).mono fun lines _ => .pure fun _ =>
          ⟨indent, lines, rfl⟩)
      · show offset + 1 ≤ data.length
        omega

/-- The first line of a text that is not empty starts at its start. -/
theorem parseLines_delivers (h : output.Knows source data) :
    Delivers (parseLines output source data) fun lines =>
      data ≠ [] → ∃ indent rest, lines = ⟨indent, 0⟩ :: rest :=
  (parseLinesFrom_delivers h (Nat.zero_add _) (Nat.le_refl 0)).mono fun _ hlines hne =>
    hlines (List.length_pos_of_ne_nil hne)

/-- The line table of a text that is not empty starts with the start of it. -/
def StartsAtZero (lines : List Line) : Prop := ∃ indent rest, lines = ⟨indent, 0⟩ :: rest

/-- A location that `getLocation` gives. -/
structure Located (source : Str) (lines : List Line) (offset length : Nat) (loc : Location) :
    Prop where
  source_eq : loc.source = source
  line_lt : loc.line < lines.length
  offset_eq : loc.offset = offset
  length_eq : loc.length = length

/-- A location is on a line of the table. There is one, as the first line starts at 0. -/
theorem getLocation_delivers {lines : List Line} (hlines : StartsAtZero lines)
    (offset length : Nat) :
    Delivers (getLocation source lines offset length) (Located source lines offset length) := by
  obtain ⟨indent, rest, rfl⟩ := hlines
  unfold getLocation
  rw [List.takeWhile_cons_of_pos (by simp)]
  have hle := (List.takeWhile_sublist (fun line : Line => decide (line.offset ≤ offset))
    (l := rest)).length_le
  generalize List.takeWhile (fun line : Line => decide (line.offset ≤ offset)) rest = upTo at hle
  obtain ⟨last, hlast⟩ : ∃ last, (({ indent, offset := 0 } : Line) :: upTo).getLast? = some last :=
    ⟨_, List.getLast?_eq_getLast_of_ne_nil (List.cons_ne_nil _ _)⟩
  dsimp only
  rw [hlast]
  refine ⟨rfl, ?_, rfl, rfl⟩
  show upTo.length + 1 - 1 < rest.length + 1
  omega

/-! ### Tokens -/

/-- A token without its place. -/
abbrev TokenKind : Type := TokenType × Str

def Token.kind (t : Token) : TokenKind := (t.type, t.data)

/-- The offset after a token. -/
def Token.endOffset (t : Token) : Nat := t.dataOffset + t.data.length

/-- A token that was read in a text of a size, after `last`. -/
structure Token.ReadAfter (size last : Nat) (t : Token) : Prop where
  last_le : last ≤ t.offset
  le_data : t.offset ≤ t.dataOffset
  lt_end : t.offset < t.endOffset
  end_le : t.endOffset ≤ size
  notLine : t.type ≠ .line
  notEnd : t.type ≠ .end
  identData : t.type = .ident → IsIdentText t.data

/-- Tokens that follow each other, from `last` on. -/
def Spaced (size : Nat) : Nat → List Token → Prop
  | _, [] => True
  | last, t :: tokens => t.ReadAfter size last ∧ Spaced size t.endOffset tokens

/-- Tokens behind a place are behind an earlier one. -/
theorem Spaced.mono {size last last' : Nat} {tokens : List Token} (h : Spaced size last tokens)
    (hle : last' ≤ last) : Spaced size last' tokens := by
  cases tokens with
  | nil => trivial
  | cons t tokens => exact ⟨{ h.1 with last_le := Nat.le_trans hle h.1.last_le }, h.2⟩

/-- A token that was just read, before the rest. -/
theorem Spaced.cons_mk {size offset dataOffset : Nat} {type : TokenType} {contents : Str}
    {tokens : List Token} (hdata : offset ≤ dataOffset)
    (hlt : offset < dataOffset + contents.length) (hle : dataOffset + contents.length ≤ size)
    (hline : type ≠ .line) (hend : type ≠ .end) (hident : type = .ident → IsIdentText contents)
    (h : Spaced size (dataOffset + contents.length) tokens) :
    Spaced size offset (⟨type, contents, offset, dataOffset, {}⟩ :: tokens) :=
  ⟨⟨Nat.le_refl _, hdata, hlt, hle, hline, hend, hident⟩, h⟩

/-- What is scanned is a part of the text. -/
theorem scan_length_le (text : Str) (fn : Char → Bool) : (scan text fn).length ≤ text.length :=
  (List.takeWhile_sublist fn).length_le

/-- A scan that takes the first character. -/
theorem scan_cons_pos {ch : Char} {text : Str} {fn : Char → Bool} (h : fn ch = true) :
    scan (ch :: text) fn = ch :: scan text fn := List.takeWhile_cons_of_pos h

/-- The tokens of a text are behind each other and inside of it. By induction on the text;
what the tokenizer does not know is a diagnostic at one character. -/
theorem parseTokensFrom_delivers (h : output.Knows source data) {lines : List Line}
    (hlines : StartsAtZero lines) {offset skip : Nat} {text : Str}
    (htext : offset + text.length = data.length) :
    Delivers (parseTokensFrom output source lines offset skip text)
      (Spaced data.length (offset + skip)) := by
  induction text generalizing offset skip with
  | nil =>
      cases skip with
      | zero => exact .pure trivial
      | succ skip => exact .pure trivial
  | cons ch text ih =>
      have htext' : offset + 1 + text.length = data.length := by
        rw [← htext, List.length_cons]
        omega
      cases skip with
      | succ skip => exact (ih htext').mono fun tokens ht => ht.mono (by omega)
      | zero =>
          -- a token that is scanned from its first character on
          have hscan : ∀ {type : TokenType} {fn : Char → Bool}, fn ch = true → type ≠ .line →
              type ≠ .end → (type = .ident → fn = isIdent) → Delivers (do
                let tokens ← parseTokensFrom output source lines (offset + 1)
                  ((scan (ch :: text) fn).length - 1) text
                return ⟨type, scan (ch :: text) fn, offset, offset, {}⟩ :: tokens)
                (Spaced data.length (offset + 0)) := by
            intro type fn hfn hline hend hident
            refine .bind ((ih htext').mono fun tokens ht => .pure ?_)
            have hle := scan_length_le (ch :: text) fn
            have hpos : 0 < (scan (ch :: text) fn).length := by
              rw [scan_cons_pos hfn]
              exact Nat.succ_pos _
            rw [List.length_cons] at hle
            exact .cons_mk (Nat.le_refl _) (by omega) (by omega) hline hend
              (fun h => ⟨List.ne_nil_of_length_pos hpos, fun c hc => by
                rw [hident h] at hc
                exact List.all_eq_true.mp List.all_takeWhile c hc⟩) (ht.mono (by omega))
          refine .ite (fun _ => (ih htext').mono fun tokens ht => ht.mono (by omega)) fun _ => ?_
          refine .ite (fun _ => (ih htext').mono fun tokens ht => ht.mono (by omega)) fun _ => ?_
          refine .ite (fun hident => ?_) fun _ => ?_
          · exact hscan (by rw [isIdent, hident, Bool.true_or]) (by decide) (by decide) fun _ => rfl
          refine .ite (fun hdigit => ?_) fun _ => ?_
          · refine hscan ?_ (by decide) (by decide) fun h => nomatch h
            simp only [isNumber, hdigit, Bool.true_or]
          refine .ite (fun _ => ?_) fun _ => ?_
          · refine .bind ((ih htext').mono fun tokens ht => .pure ?_)
            have hle := scan_length_le text (· ≠ ch)
            have hne : ∀ t, t ≠ .string → t ≠ .character →
                (if ch = '\x22' then TokenType.string else .character) ≠ t := by
              intro t h₁ h₂
              split
              · exact h₁.symm
              · exact h₂.symm
            exact .cons_mk (Nat.le_succ _) (by omega) (by omega) (hne _ (by decide) (by decide))
              (hne _ (by decide) (by decide))
              (fun h => absurd h (hne .ident (by decide) (by decide))) (ht.mono (by omega))
          refine .ite (fun _ => ?_) fun _ =>
            .ite (fun hatom => hscan hatom (by decide) (by decide) fun h => nomatch h)
            fun _ => ?_
          · refine .bind ((ih htext').mono fun tokens ht => .pure ?_)
            have hone : [ch].length = 1 := rfl
            exact .cons_mk (Nat.le_refl _) (by omega) (by omega) (by decide) (by decide)
              (fun h => nomatch h) (ht.mono (by omega))
          · refine .bind ((getLocation_delivers hlines offset 1).mono fun loc hloc =>
              .panic (h.fits hloc.source_eq ?_))
            rw [hloc.offset_eq, hloc.length_eq]
            omega

/-! ### Locations -/

/-- A token with its location. -/
structure Token.IsLocated (source : Str) (lines : List Line) (t : Token) : Prop where
  located : Located source lines t.offset (t.endOffset - t.offset) t.location

/-- Each token gets a location on a line of the table, at its offset. -/
theorem locateTokens_delivers {lines : List Line} (hlines : StartsAtZero lines) {size last : Nat}
    {tokens : List Token} (htokens : Spaced size last tokens) :
    Delivers (locateTokens source lines last tokens) fun tokens' =>
      Spaced size last tokens' ∧ (∀ t ∈ tokens', t.IsLocated source lines) ∧
        tokens'.length = tokens.length := by
  induction tokens generalizing last with
  | nil => exact .pure ⟨trivial, fun _ h => absurd h List.not_mem_nil, rfl⟩
  | cons t tokens ih =>
      obtain ⟨ht, hrest⟩ := htokens
      refine .bind (.assertThat ht.lt_end (.bind (.assertThat ht.last_le ?_)))
      refine .bind ((getLocation_delivers hlines _ _).mono fun loc hloc => ?_)
      refine .bind ((ih hrest).mono fun tokens' ⟨hspaced, hall, hlength⟩ => .pure ?_)
      refine ⟨⟨⟨ht.last_le, ht.le_data, ht.lt_end, ht.end_le, ht.notLine, ht.notEnd, ht.identData⟩,
        hspaced⟩, ?_, ?_⟩
      · intro t' ht'
        rcases List.mem_cons.mp ht' with rfl | ht'
        · exact ⟨hloc⟩
        · exact hall t' ht'
      · rw [List.length_cons, List.length_cons, hlength]

/-! ### Brackets -/

/-- A token that `getClosingBracket` accepts. -/
def Token.Opens (t : Token) : Prop :=
  t.data = "\x7b".toList ∨ t.data = "(".toList ∨ t.data = "[".toList

/-- An opening bracket has a closing one. -/
theorem getClosingBracket_delivers {t : Token} (h : t.Opens) :
    Delivers (getClosingBracket t.data) fun _ => True :=
  .bind (.assertThat h (.pure trivial))

/-- Brackets are matched up to a diagnostic, and the stack keeps opening brackets only. So
no assertion about them fails. -/
theorem matchBracketsFrom_delivers {brackets tokens : List Token}
    (hfits : ∀ t ∈ tokens, ∀ contents, output.sources t.location.source = some contents →
      t.location.offset + t.location.length ≤ contents.length)
    (hbrackets : ∀ t ∈ brackets, t.Opens ∧
      ∀ contents, output.sources t.location.source = some contents →
        t.location.offset + t.location.length ≤ contents.length) :
    Delivers (matchBracketsFrom output brackets tokens) fun brackets' =>
      ∀ t ∈ brackets', t.Opens ∧
        ∀ contents, output.sources t.location.source = some contents →
          t.location.offset + t.location.length ≤ contents.length := by
  induction tokens generalizing brackets with
  | nil => exact .pure hbrackets
  | cons t tokens ih =>
      have hrest := fun t' ht' => hfits t' (List.mem_cons_of_mem _ ht')
      have ht := hfits t List.mem_cons_self
      refine .ite (fun _ => .ite (fun hopen => ?_) fun _ => ?_) fun _ => ih hrest hbrackets
      · refine ih hrest fun t' ht' => ?_
        rcases List.mem_cons.mp ht' with rfl | ht'
        · exact ⟨hopen, ht⟩
        · exact hbrackets t' ht'
      · cases brackets with
        | nil => exact .panic ht
        | cons «open» brackets =>
            refine .bind ((getClosingBracket_delivers (hbrackets _ List.mem_cons_self).1).mono
              fun close _ => ?_)
            exact .ite (fun _ => .panic ht) fun _ =>
              ih hrest fun t' ht' => hbrackets t' (List.mem_cons_of_mem _ ht')

/-- The same from an empty stack. -/
theorem matchBrackets_delivers {tokens : List Token}
    (hfits : ∀ t ∈ tokens, ∀ contents, output.sources t.location.source = some contents →
      t.location.offset + t.location.length ≤ contents.length) :
    Delivers (matchBrackets output tokens) fun _ => True := by
  refine .bind ((matchBracketsFrom_delivers hfits fun _ h => absurd h List.not_mem_nil).mono
    fun brackets hbrackets => ?_)
  cases brackets with
  | nil => exact .pure trivial
  | cons «open» brackets =>
      obtain ⟨hopen, hfits⟩ := hbrackets _ List.mem_cons_self
      exact .bind ((getClosingBracket_delivers hopen).mono fun _ _ => .panic hfits)

/-! ### Newlines -/

/-- Each of the tokens is read behind the place. -/
theorem Spaced.mem {size last : Nat} {tokens : List Token} (h : Spaced size last tokens)
    {t : Token} (ht : t ∈ tokens) : t.ReadAfter size last := by
  induction tokens generalizing last with
  | nil => exact absurd ht List.not_mem_nil
  | cons t' tokens ih =>
      obtain ⟨ht', hrest⟩ := h
      rcases List.mem_cons.mp ht with rfl | ht
      · exact ht'
      · have hread := ih hrest ht
        have hlt := ht'.lt_end
        have hlast := ht'.last_le
        exact { hread with last_le := by have := hread.last_le; omega }

/-- Of two tokens the first one ends before the second one starts. -/
theorem Spaced.pairwise {size last : Nat} {tokens : List Token} (h : Spaced size last tokens) :
    tokens.Pairwise fun l r => l.endOffset ≤ r.offset := by
  induction tokens generalizing last with
  | nil => exact .nil
  | cons t tokens ih =>
      obtain ⟨-, hrest⟩ := h
      exact .cons (fun r hr => (hrest.mem hr).last_le) (ih hrest)

/-- A newline token is made from a token, and takes its location. -/
theorem mem_insertNewlineAfter {last t : Token} {tokens : List Token}
    (ht : t ∈ insertNewlineAfter last tokens) :
    t ∈ tokens ∨ ∃ p ∈ last :: tokens, t = getLineToken p := by
  induction tokens generalizing last with
  | nil => exact .inr ⟨last, List.mem_cons_self, List.mem_singleton.mp ht⟩
  | cons t' tokens ih =>
      have hrest : t ∈ t' :: insertNewlineAfter t' tokens →
          t ∈ t' :: tokens ∨ ∃ p ∈ last :: t' :: tokens, t = getLineToken p := by
        intro ht
        rcases List.mem_cons.mp ht with rfl | ht
        · exact .inl List.mem_cons_self
        · rcases ih ht with ht | ⟨p, hp, rfl⟩
          · exact .inl (List.mem_cons_of_mem _ ht)
          · exact .inr ⟨p, List.mem_cons_of_mem _ hp, rfl⟩
      rw [insertNewlineAfter] at ht
      split at ht
      case isTrue =>
        rcases List.mem_cons.mp ht with rfl | ht
        · exact .inr ⟨last, List.mem_cons_self, rfl⟩
        · exact hrest ht
      case isFalse => exact hrest ht

/-- A relation between tokens that any two tokens of the text are in, in order, and
any newline with a token after it. -/
theorem pairwise_insertNewlineAfter {R S : Token → Token → Prop} {last : Token}
    {tokens : List Token} (hline : ∀ l r, r.type = .line → R l r) (hS : ∀ l r, S l r → R l r)
    (hSline : ∀ l r, S l r → R (getLineToken l) r) (h : (last :: tokens).Pairwise S) :
    (last :: insertNewlineAfter last tokens).Pairwise R := by
  induction tokens generalizing last with
  | nil =>
      refine .cons (fun r hr => hline _ _ ?_) (.cons (fun r hr => absurd hr List.not_mem_nil) .nil)
      rw [List.mem_singleton.mp hr]
      rfl
  | cons t tokens ih =>
      obtain ⟨hlast, hrest⟩ := List.pairwise_cons.mp h
      have hafter := ih hrest
      -- what comes after `last` is a newline or a token of the text
      have hmem : ∀ r ∈ t :: insertNewlineAfter t tokens, r.type = .line ∨ S last r := by
        intro r hr
        rcases List.mem_cons.mp hr with rfl | hr
        · exact .inr (hlast r List.mem_cons_self)
        · rcases mem_insertNewlineAfter hr with hr | ⟨p, -, rfl⟩
          · exact .inr (hlast r (List.mem_cons_of_mem _ hr))
          · exact .inl rfl
      have hcons : ∀ l, (∀ r, S last r → R l r) →
          ∀ r ∈ t :: insertNewlineAfter t tokens, R l r := by
        intro l hl r hr
        rcases hmem r hr with hr | hr
        · exact hline l r hr
        · exact hl r hr
      rw [insertNewlineAfter]
      split
      case isTrue =>
        refine .cons (fun r hr => ?_) (.cons (hcons _ (hSline last)) hafter)
        rcases List.mem_cons.mp hr with rfl | hr
        · exact hline _ _ rfl
        · exact hcons last (hS last) r hr
      case isFalse => exact .cons (hcons last (hS last)) hafter

/-! ### Streams -/

/-- The tokens of a text, with their locations and without the newlines. -/
structure LocatedTokens (source data : Str) (lines : List Line) (tokens : List Token) : Prop where
  spaced : Spaced data.length 0 tokens
  located : ∀ t ∈ tokens, t.IsLocated source lines

namespace LocatedTokens

variable {lines : List Line} {tokens : List Token}

/-- A token of the stream: what a diagnostic needs of its location. -/
theorem mem_insertNewline (h : LocatedTokens source data lines tokens) {t : Token}
    (ht : t ∈ insertNewline tokens) :
    t.location.source = source ∧ t.location.line < lines.length ∧
      t.location.offset + t.location.length ≤ data.length ∧ t.type ≠ .end ∧
        (t.type = .ident → IsIdentText t.data) := by
  have htoken : ∀ t ∈ tokens, t.location.source = source ∧ t.location.line < lines.length ∧
      t.location.offset + t.location.length ≤ data.length ∧ t.type ≠ .end ∧
        (t.type = .ident → IsIdentText t.data) ∧ t.location.offset + t.data.length ≤
          data.length := by
    intro t ht
    obtain ⟨-, hdata, hlt, hsize, -, hend, hident⟩ := h.spaced.mem ht
    have hloc := (h.located t ht).located
    have hendOffset : t.endOffset = t.dataOffset + t.data.length := rfl
    refine ⟨hloc.source_eq, hloc.line_lt, ?_, hend, hident, ?_⟩
    · rw [hloc.offset_eq, hloc.length_eq]
      omega
    · rw [hloc.offset_eq]
      omega
  -- A line token stands right after a token of the list, on the same line.
  have hline : ∀ p ∈ tokens, t = getLineToken p → t.location.source = source ∧
      t.location.line < lines.length ∧
        t.location.offset + t.location.length ≤ data.length ∧ t.type ≠ .end ∧
          (t.type = .ident → IsIdentText t.data) := by
    rintro p hp rfl
    obtain ⟨h₁, h₂, -, -, -, h₃⟩ := htoken p hp
    exact ⟨h₁, h₂, h₃, fun h => (nomatch h), fun h => (nomatch h)⟩
  cases tokens with
  | nil => exact absurd ht List.not_mem_nil
  | cons t' tokens =>
      rcases List.mem_cons.mp ht with rfl | ht
      · obtain ⟨h₁, h₂, h₃, h₄, h₅, -⟩ := htoken t List.mem_cons_self
        exact ⟨h₁, h₂, h₃, h₄, h₅⟩
      · rcases mem_insertNewlineAfter ht with ht | ⟨p, hp, heq⟩
        · obtain ⟨h₁, h₂, h₃, h₄, h₅, -⟩ := htoken t (List.mem_cons_of_mem _ ht)
          exact ⟨h₁, h₂, h₃, h₄, h₅⟩
        · exact hline p hp heq

/-- Tokens with newlines between them are still in order: a newline token is at the end of
the token before it, and only tokens that are no newline are compared. -/
theorem pairwise (h : LocatedTokens source data lines tokens) :
    (insertNewline tokens).Pairwise fun l r => r.type ≠ .line →
      l.location.source = r.location.source ∧
        l.location.offset + l.location.length ≤ r.location.offset := by
  cases tokens with
  | nil => exact .nil
  | cons t tokens =>
      refine pairwise_insertNewlineAfter
        (S := fun l r => l.location.source = r.location.source ∧
          l.location.offset + l.location.length ≤ r.location.offset ∧
          l.location.offset + l.data.length ≤ r.location.offset) (fun l r hr hne => absurd hr hne)
        (fun l r hS _ => ⟨hS.1, hS.2.1⟩) (fun l r hS _ => ⟨hS.1, hS.2.2⟩) ?_
      refine h.spaced.pairwise.imp_of_mem fun {l r} hl hr hle => ?_
      have hl' := (h.located l hl).located
      have hr' := (h.located r hr).located
      obtain ⟨-, hdata, hlt, -⟩ := h.spaced.mem hl
      have hendOffset : l.endOffset = l.dataOffset + l.data.length := rfl
      refine ⟨hl'.source_eq.trans hr'.source_eq.symm, ?_, ?_⟩
      · rw [hl'.offset_eq, hl'.length_eq, hr'.offset_eq]
        omega
      · rw [hl'.offset_eq, hr'.offset_eq]
        omega

/-- The newline tokens have their lines in the table, as the tokens before them have. -/
theorem wellLocated (h : LocatedTokens source data lines tokens)
    (hknows : output.Knows source data) :
    Tokens.WellLocated output ⟨lines, insertNewline tokens⟩ where
  inLines _ ht := (h.mem_insertNewline ht).2.1
  fits _ ht := hknows.fits (h.mem_insertNewline ht).1 (h.mem_insertNewline ht).2.2.1
  ordered := h.pairwise

/-- What `tokenize` delivers is sound. -/
theorem sound (h : LocatedTokens source data lines tokens) (hknows : output.Knows source data)
    (hlines : StartsAtZero lines) :
    TokenStream.Sound ⟨output, lines, insertNewline tokens⟩ := by
  have hlocated := (h.wellLocated hknows).located (by
    obtain ⟨indent, rest, rfl⟩ := hlines
    exact Nat.succ_pos _)
  refine ⟨hlocated.fits, hlocated.inLines, fun i hi => ?notEnd, fun i hident => ?identData,
    hlocated.ordered⟩
  case notEnd =>
    rw [TokenStream.tokenAt_of_lt_size _ hi]
    exact (h.mem_insertNewline (List.getElem_mem hi)).2.2.2.1
  case identData =>
    rcases TokenStream.tokenAt_mem_or ⟨output, lines, insertNewline tokens⟩ i with hmem | heq
    · exact (h.mem_insertNewline hmem).2.2.2.2 hident
    · rw [heq] at hident
      cases hident

end LocatedTokens

/-- The tokenizer fails no assertion, the tokens have the locations of the text, and the
parser can rely on what is delivered for a text that is not empty. -/
theorem tokenize_delivers (hknows : output.Knows source data) :
    Delivers (tokenize output source data) fun tokens =>
      data ≠ [] → tokens.WellLocated output ∧ TokenStream.Sound ⟨output, tokens⟩ := by
  refine .bind ((parseLines_delivers hknows).mono fun lines hlines => ?_)
  by_cases hdata : data = []
  · subst hdata
    exact .pure fun h => absurd rfl h
  have hzero : StartsAtZero lines := hlines hdata
  refine .bind ((parseTokensFrom_delivers hknows hzero (Nat.zero_add _)).mono
    fun tokens htokens => ?_)
  refine .bind ((locateTokens_delivers hzero htokens).mono
    fun tokens' ⟨hspaced, hlocated, _⟩ => ?_)
  have hall : LocatedTokens source data lines tokens' := ⟨hspaced, hlocated⟩
  have hfits : ∀ t ∈ tokens', ∀ contents, output.sources t.location.source = some contents →
      t.location.offset + t.location.length ≤ contents.length := by
    intro t ht
    obtain ⟨-, hdata, hlt, hsize, -⟩ := hspaced.mem ht
    have hloc := (hlocated t ht).located
    refine hknows.fits hloc.source_eq ?_
    rw [hloc.offset_eq, hloc.length_eq]
    omega
  exact .bind ((matchBrackets_delivers hfits).mono fun _ _ => .pure fun _ =>
    ⟨hall.wellLocated hknows, hall.sound hknows hzero⟩)

/-- `tokenize` fails no assertion. For a text that is not empty, its stream is sound. -/
theorem tokenize_sound (hknows : output.Knows source data) :
    Delivers (tokenize output source data) fun tokens =>
      data ≠ [] → TokenStream.Sound ⟨output, tokens⟩ :=
  (tokenize_delivers hknows).mono fun _ h hdata => (h hdata).2

/-! ### Blank texts -/

/-- Nothing but spaces, line ends and comments, from inside of a comment or from
outside. -/
def blankFrom : (inComment : Bool) → Str → Bool
  | _, [] => true
  | true, ch :: text => blankFrom (ch ≠ '\n') text
  | false, ch :: text =>
      if isSpace ch then blankFrom false text
      else if ch = '#' then blankFrom true text
      else false

/-- A text without a tab that holds nothing but spaces, line ends and comments. -/
def Blank (text : Str) : Prop := '\t' ∉ text ∧ blankFrom false text = true

instance (text : Str) : Decidable (Blank text) := inferInstanceAs (Decidable (_ ∧ _))

/-- There are no tokens exactly in a blank text. In a comment this holds of what comes
behind it. -/
theorem parseTokensFrom_eq_nil_iff {lines : List Line} {offset : Nat} {text : Str} :
    (parseTokensFrom output source lines offset 0 text = .ok [] ↔ blankFrom false text = true) ∧
      (parseTokensFrom output source lines offset (scan text (· ≠ '\n')).length text = .ok [] ↔
        blankFrom true text = true) := by
  induction text generalizing offset with
  | nil =>
      have hnil : parseTokensFrom output source lines offset 0 [] = .ok [] := rfl
      exact ⟨iff_of_true hnil rfl, iff_of_true hnil rfl⟩
  | cons ch text ih =>
      have hzero : parseTokensFrom output source lines offset 0 (ch :: text) = .ok [] ↔
          blankFrom false (ch :: text) = true := by
        -- a token that was read is there
        have hcons : ∀ (t : Token) (e : Except Stop (List Token)),
            ¬ (e >>= fun tokens => pure (t :: tokens)) = .ok [] := by
          intro t e he
          cases e with
          | error e => cases he
          | ok tokens => cases he
        rw [parseTokensFrom, blankFrom]
        split_ifs with h₁ h₂ h₃ h₄ h₅ h₆ h₇
        · exact ih.1
        · exact ih.2
        all_goals refine iff_of_false ?_ id
        all_goals try exact hcons _ _
        intro h
        cases hloc : getLocation source lines offset 1 with
        | error e =>
            rw [hloc] at h
            cases h
        | ok loc =>
            rw [hloc] at h
            change output.panic loc _ = _ at h
            unfold Output.panic at h
            split at h
            · split at h <;> cases h
            · cases h
      refine ⟨hzero, ?_⟩
      by_cases hch : ch = '\n'
      · subst hch
        exact hzero
      · have hscan : scan (ch :: text) (· ≠ '\n') = ch :: scan text (· ≠ '\n') :=
          scan_cons_pos (decide_eq_true hch)
        rw [hscan, List.length_cons, parseTokensFrom, blankFrom, decide_eq_true hch]
        exact ih.2

/-- A text without tabs has lines: a tab is the only diagnostic. -/
theorem parseLinesFrom_of_no_tab {line start indent offset : Nat} {scanning : Bool} {text : Str}
    (h : '\t' ∉ text) :
    ∃ lines, parseLinesFrom output source line start indent scanning offset text = .ok lines := by
  induction text generalizing line start indent offset scanning with
  | nil => exact ⟨_, rfl⟩
  | cons ch text ih =>
      rw [List.mem_cons, not_or] at h
      rw [parseLinesFrom]
      split_ifs with h₁ h₂ h₃
      · obtain ⟨lines, hlines⟩ := ih h.2
        rw [hlines]
        exact ⟨_, rfl⟩
      · exact absurd h₂.symm h.1
      · exact ih h.2
      · exact ih h.2

/-- A text that has lines has no tab. -/
theorem no_tab_of_parseLinesFrom {line start indent offset : Nat} {scanning : Bool} {text : Str}
    {lines : List Line}
    (h : parseLinesFrom output source line start indent scanning offset text = .ok lines) :
    '\t' ∉ text := by
  induction text generalizing line start indent offset scanning lines with
  | nil => exact List.not_mem_nil
  | cons ch text ih =>
      rw [parseLinesFrom] at h
      rw [List.mem_cons, not_or]
      split_ifs at h with h₁ h₂ h₃
      · refine ⟨by subst h₁; decide, ?_⟩
        cases hrest : parseLinesFrom output source (line + 1) (offset + 1) 0 true
          (offset + 1) text with
        | error e =>
            rw [hrest] at h
            cases h
        | ok rest => exact ih hrest
      · unfold Output.panic at h
        split at h
        · split at h <;> cases h
        · cases h
      · exact ⟨fun heq => h₂ heq.symm, ih h⟩
      · exact ⟨fun heq => h₂ heq.symm, ih h⟩

/-- A blank text has lines, if it is not empty, and no tokens. -/
theorem tokenize_of_blank (h : Blank data) :
    ∃ lines, parseLines output source data = .ok lines ∧
      tokenize output source data = .ok ⟨lines, []⟩ := by
  obtain ⟨lines, hlines⟩ : ∃ lines, parseLines output source data = .ok lines :=
    parseLinesFrom_of_no_tab h.1
  have htokens : parseTokens output source data lines = .ok [] :=
    parseTokensFrom_eq_nil_iff.1.mpr h.2
  refine ⟨lines, hlines, ?_⟩
  unfold tokenize
  rw [hlines]
  show (parseTokens output source data lines >>= _) = _
  rw [htokens]
  rfl

/-- The stages of a run of the tokenizer. -/
theorem tokenize_eq_ok_iff {tokens : Tokens} :
    tokenize output source data = .ok tokens ↔
      ∃ lines raw located, parseLines output source data = .ok lines ∧
        parseTokens output source data lines = .ok raw ∧
        locateTokens source lines 0 raw = .ok located ∧
        matchBrackets output located = .ok () ∧ ⟨lines, insertNewline located⟩ = tokens := by
  unfold tokenize
  simp only [except_bind_ok]
  constructor
  · rintro ⟨lines, hlines, raw, hraw, located, hlocated, _, hbrackets, htokens⟩
    exact ⟨lines, raw, located, hlines, hraw, hlocated, hbrackets, Except.ok.inj htokens⟩
  · rintro ⟨lines, raw, located, hlines, hraw, hlocated, hbrackets, rfl⟩
    exact ⟨lines, hlines, raw, hraw, located, hlocated, (), hbrackets, rfl⟩

/-- Locations are put on the tokens one by one, so none are added or lost. -/
theorem locateTokens_nil_iff {lines : List Line} {last : Nat} {raw located : List Token}
    (h : locateTokens source lines last raw = .ok located) : located = [] ↔ raw = [] := by
  cases raw with
  | nil =>
      cases h
      exact Iff.rfl
  | cons t raw =>
      rw [locateTokens] at h
      simp only [except_bind_ok] at h
      obtain ⟨-, -, -, -, loc, -, rest, -, hcons⟩ := h
      cases hcons
      exact iff_of_false (List.cons_ne_nil _ _) (List.cons_ne_nil _ _)

/-- Any other text has tokens, or there is a diagnostic. -/
theorem tokens_ne_nil_of_not_blank (hblank : ¬ Blank data) {tokens : Tokens}
    (h : tokenize output source data = .ok tokens) : tokens.tokens ≠ [] := by
  obtain ⟨lines, raw, located, hlines, hraw, hlocated, -, rfl⟩ := tokenize_eq_ok_iff.mp h
  intro hnil
  have hlocatedNil : located = [] := by
    cases located with
    | nil => rfl
    | cons t located => exact absurd hnil (List.cons_ne_nil _ _)
  have hrawNil := (locateTokens_nil_iff hlocated).mp hlocatedNil
  subst hrawNil
  exact hblank ⟨no_tab_of_parseLinesFrom hlines, parseTokensFrom_eq_nil_iff.1.mp hraw⟩

end

end Aike
