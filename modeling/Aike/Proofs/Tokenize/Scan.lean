import Mathlib.Data.List.TakeWhile
import Aike.Proofs.Tokenize

/-!
# `Aike.Proofs.Tokenize.Scan`: what the branches of `parseTokens` read

`Scans` has a rule for each branch: a text is read as spaces, comments and tokens,
and as a literal that the text cuts off. `scans_of_parseTokensFrom` says that a run
without a diagnostic is made of these.
-/

set_option autoImplicit false

namespace Aike

/-! ### Characters -/

/-- A character that no line ends with and no panic is about. -/
def Plain (ch : Char) : Prop := ch ≠ '\n' ∧ ch ≠ '\t'

/-- What holds of each element of a list, by evaluation. -/
theorem forall_mem_of_all {α : Type} {p : α → Prop} [DecidablePred p] {l : List α}
    (h : l.all (fun a => decide (p a)) = true) : ∀ a ∈ l, p a := by
  simpa using h

/-- A character of an atom is read by the branch for atoms. -/
theorem of_isAtom : ∀ ch : Char, isAtom ch = true →
    isSpace ch = false ∧ ch ≠ '#' ∧ isIdentStart ch = false ∧ isDigit ch = false ∧
      (ch = '"' || ch = '\'') = false ∧ isBracket ch = false ∧ isIdent ch = false ∧ Plain ch := by
  intro ch h
  have hmem : ch ∈ "!$%&*+,-./:;<=>?@\\^\x60|~".toList := by
    simpa [isAtom, or_assoc] using h
  have hall : ∀ ch ∈ "!$%&*+,-./:;<=>?@\\^\x60|~".toList,
      isSpace ch = false ∧ ch ≠ '#' ∧ isIdentStart ch = false ∧ isDigit ch = false ∧
        (ch = '"' || ch = '\'') = false ∧ isBracket ch = false ∧ isIdent ch = false ∧ ch ≠ '\n' ∧
        ch ≠ '\t' := by
    exact forall_mem_of_all (by decide)
  exact hall ch hmem

/-- Everything that the tokenizer asks about a character is known of a round or square
bracket. -/
theorem of_bracket : ∀ ch ∈ ['(', ')', '[', ']'],
    isSpace ch = false ∧ ch ≠ '#' ∧ isIdentStart ch = false ∧ isDigit ch = false ∧
      (ch = '"' || ch = '\'') = false ∧ isBracket ch = true ∧ isIdent ch = false ∧
      isAtom ch = false ∧ ch ≠ '\n' ∧ ch ≠ '\t' :=
  forall_mem_of_all (by decide)

/-- A character of an identifier is no space, no comment, no atom, and does not end a
line. -/
theorem of_isIdent {ch : Char} (h : isIdent ch = true) :
    isSpace ch = false ∧ ch ≠ '#' ∧ isAtom ch = false ∧ Plain ch := by
  have hne : ∀ ch' : Char, isIdent ch' = false → ch ≠ ch' := by
    rintro ch' hfalse rfl
    rw [h] at hfalse
    cases hfalse
  have hatom : ¬ isAtom ch = true := fun hatom => by
    have hident := (of_isAtom ch hatom).2.2.2.2.2.2.1
    rw [h] at hident
    cases hident
  have hspace : isSpace ch = false := by
    simp [isSpace, hne ' ' (by decide), hne '\r' (by decide), hne '\n' (by decide)]
  exact ⟨hspace, hne _ (by decide), Bool.eq_false_iff.mpr hatom, hne _ (by decide),
    hne _ (by decide)⟩

/-- The scan of a run of characters ends with the run, if the next character is not of
its class. -/
theorem scan_append {fn : Char → Bool} {u text : Str} (hu : ∀ ch ∈ u, fn ch = true)
    (htext : ∀ ch ∈ text.head?, fn ch = false) : scan (u ++ text) fn = u := by
  unfold scan
  rw [List.takeWhile_append_of_pos hu]
  cases text with
  | nil => rw [List.takeWhile_nil, List.append_nil]
  | cons ch text =>
      rw [List.takeWhile_cons_of_neg (by rw [htext ch rfl]; decide), List.append_nil]

/-- Two characters differ if a class has only the first. -/
theorem ne_of_class {fn : Char → Bool} {ch ch' : Char} (h : fn ch = true) (h' : fn ch' = false) :
    ch ≠ ch' := by
  rintro rfl
  rw [h] at h'
  cases h'

/-- What a scan leaves does not start with a character of its class. -/
theorem head_dropWhile {fn : Char → Bool} {text : Str} :
    ∀ ch ∈ (text.dropWhile fn).head?, fn ch = false := by
  intro ch hch
  have h := List.head?_dropWhile_not fn text
  rw [Option.mem_def.mp hch] at h
  exact h

/-! ### Tokens and their texts -/

/-- The delimiter of a literal. -/
def Token.quote (t : Token) : Option Char :=
  match t.type with
  | .string => some '"'
  | .character => some '\''
  | _ => none

/-- The text of a token, with the delimiters of a literal. -/
def Token.text (t : Token) : Str :=
  match t.quote with
  | some q => q :: (t.data ++ [q])
  | none => t.data

/-- A token that is read at an offset. -/
structure Token.ReadAt (offset : Nat) (t : Token) : Prop where
  offset_eq : t.offset = offset
  endOffset_eq : t.endOffset + t.quote.toList.length = offset + t.text.length
  text_ne : t.text ≠ []
  literal : ∀ q ∈ t.quote, (q = '"' ∨ q = '\'') ∧ q ∉ t.data
  plain : t.quote = none → ∀ ch ∈ t.data, ch ≠ '#' ∧ ch ≠ '"' ∧ ch ≠ '\'' ∧ ch ≠ '\n'
  notLine : t.type ≠ .line

/-- A text that is read from an offset on. -/
inductive Scans : (offset : Nat) → Str → List Token → Prop
  | nil {offset : Nat} : Scans offset [] []
  | space {offset : Nat} {ch : Char} {text : Str} {tokens : List Token} (hch : isSpace ch = true)
      (h : Scans (offset + 1) text tokens) : Scans offset (ch :: text) tokens
  | comment {offset : Nat} {body text : Str} {tokens : List Token} (hbody : '\n' ∉ body)
      (h : Scans (offset + 1 + body.length + 1) text tokens) :
      Scans offset ('#' :: (body ++ '\n' :: text)) tokens
  | lastComment {offset : Nat} {body : Str} (hbody : '\n' ∉ body) : Scans offset ('#' :: body) []
  | token {offset : Nat} {t : Token} {text : Str} {tokens : List Token} (ht : t.ReadAt offset)
      (h : Scans (offset + t.text.length) text tokens) : Scans offset (t.text ++ text) (t :: tokens)
  /-- The end of the text takes the place of the delimiter. -/
  | cut {offset : Nat} {t : Token} {q : Char} (ht : t.ReadAt offset) (hq : t.quote = some q) :
      Scans offset (q :: t.data) [t]

section

variable {output : Output} {source : Str} {lines : List Line} {offset : Nat} {text : Str}

/-- The rest of a token is passed over. -/
theorem parseTokensFrom_skip (u : Str) :
    parseTokensFrom output source lines offset u.length (u ++ text) =
      parseTokensFrom output source lines (offset + u.length) 0 text := by
  induction u generalizing offset with
  | nil => rfl
  | cons ch u ih =>
      rw [List.cons_append, List.length_cons, parseTokensFrom, ih, Nat.add_right_comm,
        Nat.add_assoc]

/-- What is left after the characters of a token is the text from the first one that is
not of its class. -/
theorem parseTokensFrom_skip_scan {fn : Char → Bool} :
    parseTokensFrom output source lines offset (scan text fn).length text =
      parseTokensFrom output source lines (offset + (scan text fn).length) 0
        (text.dropWhile fn) := by
  have hskip := @parseTokensFrom_skip output source lines offset (text.dropWhile fn) (scan text fn)
  rwa [show scan text fn ++ text.dropWhile fn = text from List.takeWhile_append_dropWhile] at hskip

/-- After a token that is scanned from its first character on. -/
theorem parseTokensFrom_scan {ch : Char} {fn : Char → Bool} (hch : fn ch = true) :
    parseTokensFrom output source lines (offset + 1) ((scan (ch :: text) fn).length - 1) text =
      parseTokensFrom output source lines (offset + (scan (ch :: text) fn).length) 0
        (text.dropWhile fn) := by
  rw [scan_cons_pos hch, List.length_cons, Nat.add_sub_cancel, parseTokensFrom_skip_scan,
    Nat.add_assoc, Nat.add_comm 1]

/-- The text is over when it is shorter than what is to be skipped. -/
theorem parseTokensFrom_skip_all {skip : Nat} (h : text.length ≤ skip) :
    parseTokensFrom output source lines offset skip text = .ok [] := by
  induction text generalizing offset skip with
  | nil => rw [parseTokensFrom]; rfl
  | cons ch text ih =>
      rw [List.length_cons] at h
      obtain ⟨k, rfl⟩ : ∃ k, skip = k + 1 := ⟨skip - 1, by omega⟩
      rw [parseTokensFrom]
      exact ih (by omega)

/-- After a literal. -/
theorem parseTokensFrom_literal {q : Char} {rest : Str} (h : text.dropWhile (· ≠ q) = q :: rest) :
    parseTokensFrom output source lines offset ((scan text (· ≠ q)).length + 1) text =
      parseTokensFrom output source lines (offset + (scan text (· ≠ q)).length + 1) 0 rest := by
  have hskip := @parseTokensFrom_skip output source lines offset rest (scan text (· ≠ q) ++ [q])
  have hsplit : scan text (· ≠ q) ++ text.dropWhile (· ≠ q) = text :=
    List.takeWhile_append_dropWhile
  rw [h] at hsplit
  rwa [List.append_assoc, List.singleton_append, hsplit, List.length_append,
    List.length_singleton, ← Nat.add_assoc] at hskip

/-- A token of a type that is no literal, of characters of one class. -/
theorem readAt_scan {ch : Char} {fn : Char → Bool} {type : TokenType} (hch : fn ch = true)
    (hfn : ∀ ch' ∈ ['#', '"', '\'', '\n'], fn ch' = false)
    (htype : type = .ident ∨ type = .number ∨ type = .atom) :
    Token.ReadAt offset ⟨type, scan (ch :: text) fn, offset, offset, {}⟩ ∧
      Token.text ⟨type, scan (ch :: text) fn, offset, offset, {}⟩ = scan (ch :: text) fn := by
  have hquote : Token.quote ⟨type, scan (ch :: text) fn, offset, offset, {}⟩ = none := by
    rcases htype with rfl | rfl | rfl <;> rfl
  have htext : Token.text ⟨type, scan (ch :: text) fn, offset, offset, {}⟩ =
      scan (ch :: text) fn := by
    rw [Token.text, hquote]
  refine ⟨⟨rfl, ?_, ?_, ?_, fun _ ch' hch' => ?_, ?_⟩, htext⟩
  · rw [hquote, htext]
    rfl
  · rw [htext, scan_cons_pos hch]
    exact List.cons_ne_nil _ _
  · rw [hquote]
    exact fun _ h => nomatch h
  · have hmem : fn ch' = true := List.mem_takeWhile_imp hch'
    exact ⟨ne_of_class hmem (hfn _ (by simp)), ne_of_class hmem (hfn _ (by simp)),
      ne_of_class hmem (hfn _ (by simp)), ne_of_class hmem (hfn _ (by simp))⟩
  · rcases htype with rfl | rfl | rfl <;> exact fun h => nomatch h

/-- A bracket is a token of one character that is read where it is. -/
theorem readAt_bracket {o : Nat} {ch : Char} (hch : isBracket ch = true) :
    Token.ReadAt o ⟨.bracket, [ch], o, o, {}⟩ := by
  refine ⟨rfl, rfl, List.cons_ne_nil _ _, fun _ h => (nomatch h), fun _ ch' hch' => ?_,
    fun h => nomatch h⟩
  rw [List.mem_singleton.mp hch']
  exact ⟨ne_of_class hch (by decide), ne_of_class hch (by decide), ne_of_class hch (by decide),
    ne_of_class hch (by decide)⟩

/-- A literal, with the text after it or cut off. -/
theorem scans_literal {q : Char} (hq : q = '"' ∨ q = '\'') {tokens : List Token}
    (h : ∀ rest, text.dropWhile (· ≠ q) = q :: rest →
      Scans (offset + 1 + (scan text (· ≠ q)).length + 1) rest tokens)
    (hcut : text.dropWhile (· ≠ q) = [] → tokens = []) :
    Scans offset (q :: text)
      (⟨if q = '"' then .string else .character, scan text (· ≠ q), offset, offset + 1, {}⟩ ::
        tokens) := by
  have hsplit : scan text (· ≠ q) ++ text.dropWhile (· ≠ q) = text :=
    List.takeWhile_append_dropWhile
  -- What is scanned stops before the first delimiter.
  have hfree : q ∉ scan text (· ≠ q) := by
    intro hmem
    have := List.mem_takeWhile_imp hmem
    simp at this
  generalize ht : (⟨if q = '"' then .string else .character, scan text (· ≠ q), offset, offset + 1,
    {}⟩ : Token) = t
  have hquote : t.quote = some q := by
    subst ht
    rcases hq with rfl | rfl <;> rfl
  have hdata : t.data = scan text (· ≠ q) := by rw [← ht]
  have htext : t.text = q :: (scan text (· ≠ q) ++ [q]) := by
    rw [Token.text, hquote, hdata]
  have hlength : t.text.length = (scan text (· ≠ q)).length + 2 := by
    rw [htext, List.length_cons, List.length_append, List.length_singleton]
  have hread : t.ReadAt offset := by
    refine ⟨by rw [← ht], ?_, ?_, ?_, fun h => ?_, ?_⟩
    · rw [hquote, hlength, ← ht]
      show offset + 1 + (scan text (· ≠ q)).length + 1 = _
      omega
    · rw [htext]
      exact List.cons_ne_nil _ _
    · rw [hquote, hdata]
      rintro q' ⟨⟩
      exact ⟨hq, hfree⟩
    · rw [hquote] at h
      cases h
    · subst ht
      rcases hq with rfl | rfl <;> exact fun h => nomatch h
  cases hrest : text.dropWhile (· ≠ q) with
  -- The text ends first, and the literal is cut off.
  | nil =>
      rw [hcut hrest]
      rw [hrest, List.append_nil] at hsplit
      have := Scans.cut hread hquote
      rwa [hdata, hsplit] at this
  -- The delimiter is skipped, and what follows it is read next.
  | cons ch rest =>
      have hch : ch = q := by
        have := @head_dropWhile (· ≠ q) text ch (by rw [hrest]; rfl)
        simpa using this
      subst hch
      have hafter : Scans (offset + t.text.length) rest tokens := by
        have hoffset : offset + t.text.length =
            offset + 1 + (scan text (· ≠ ch)).length + 1 := by omega
        rw [hoffset]
        exact h rest hrest
      have hall := Scans.token hread hafter
      rw [htext, List.cons_append, List.append_assoc, List.singleton_append, ← hrest,
        hsplit] at hall
      exact hall

/-- A token of characters of one class, before what was read after it. -/
theorem Scans.word {ch : Char} {fn : Char → Bool} {type : TokenType} {tokens : List Token}
    (hch : fn ch = true) (hfn : ∀ ch' ∈ ['#', '"', '\'', '\n'], fn ch' = false)
    (htype : type = .ident ∨ type = .number ∨ type = .atom)
    (h : Scans (offset + (scan (ch :: text) fn).length) (text.dropWhile fn) tokens) :
    Scans offset (ch :: text) (⟨type, scan (ch :: text) fn, offset, offset, {}⟩ :: tokens) := by
  obtain ⟨hread, htext⟩ := @readAt_scan offset text ch fn type hch hfn htype
  have hall := Scans.token hread (by rw [htext]; exact h)
  have hsplit : scan (ch :: text) fn ++ text.dropWhile fn = ch :: text := by
    rw [scan_cons_pos hch, List.cons_append]
    exact congrArg (ch :: ·) List.takeWhile_append_dropWhile
  rwa [htext, hsplit] at hall

/-- The classes of the tokens that are no literals. -/
theorem class_apart : ∀ ch ∈ ['#', '"', '\'', '\n'],
    isIdent ch = false ∧ isNumber ch = false ∧ isAtom ch = false ∧ isBracket ch = false :=
  forall_mem_of_all (by decide)

/-- What the tokenizer returns for a text is a way to read that text. The induction is
over the text, and there is a case for each branch of the tokenizer. -/
theorem scans_of_parseTokensFrom {tokens : List Token}
    (h : parseTokensFrom output source lines offset 0 text = .ok tokens) :
    Scans offset text tokens := by
  induction hsize : text.length using Nat.strongRecOn generalizing offset text tokens with
  | ind size ih =>
      subst hsize
      cases text with
      | nil =>
          cases h
          exact .nil
      | cons ch text =>
          -- The recursion: what is read next is an end of the text.
          have hrest : ∀ {offset : Nat} {rest : Str} {tokens : List Token}, rest <:+ text →
              parseTokensFrom output source lines offset 0 rest = .ok tokens →
                Scans offset rest tokens := by
            intro offset rest tokens hsuffix h
            exact ih rest.length (Nat.lt_succ_of_le hsuffix.length_le) h rfl
          have hdrop : ∀ fn : Char → Bool, text.dropWhile fn <:+ text :=
            fun fn => List.dropWhile_suffix fn
          rw [parseTokensFrom] at h
          generalize htype : (if ch = '"' then TokenType.string else .character) = literal at h
          dsimp only at h
          split_ifs at h with hspace hcomment hident hdigit hquote hbracket hatom
          · exact .space hspace (hrest (List.suffix_refl _) h)
          · subst hcomment
            rw [parseTokensFrom_skip_scan] at h
            -- A comment ends before the line break, or with the text.
            have hbody : '\n' ∉ scan text (· ≠ '\n') := by
              intro hmem
              have := List.mem_takeWhile_imp hmem
              simp at this
            have hsplit : scan text (· ≠ '\n') ++ text.dropWhile (· ≠ '\n') = text :=
              List.takeWhile_append_dropWhile
            cases hafter : text.dropWhile (· ≠ '\n') with
            | nil =>
                rw [hafter] at h hsplit
                rw [List.append_nil] at hsplit
                rw [hsplit] at hbody
                cases h
                exact .lastComment hbody
            | cons ch rest =>
                have hch : ch = '\n' := by
                  have := @head_dropWhile (· ≠ '\n') text ch (by rw [hafter]; rfl)
                  simpa using this
                subst hch
                rw [hafter] at h hsplit
                have hall := Scans.comment hbody
                  (hrest ((List.suffix_cons _ rest).trans (hafter ▸ hdrop _)) h)
                rwa [hsplit] at hall
          · have hch : isIdent ch = true := by simp only [isIdent, hident, Bool.true_or]
            rw [parseTokensFrom_scan hch] at h
            obtain ⟨tokens', htokens', hcons⟩ := except_bind_ok.mp h
            rw [← Except.ok.inj hcons]
            exact .word hch (fun ch' h => (class_apart ch' h).1) (.inl rfl)
              (hrest (hdrop _) htokens')
          · have hch : isNumber ch = true := by simp only [isNumber, hdigit, Bool.true_or]
            rw [parseTokensFrom_scan hch] at h
            obtain ⟨tokens', htokens', hcons⟩ := except_bind_ok.mp h
            rw [← Except.ok.inj hcons]
            exact .word hch (fun ch' h => (class_apart ch' h).2.1) (.inr (.inl rfl))
              (hrest (hdrop _) htokens')
          · obtain ⟨tokens', htokens', hcons⟩ := except_bind_ok.mp h
            rw [← Except.ok.inj hcons, ← htype]
            refine scans_literal (by simpa using hquote) (fun rest hq => ?_) fun hnil => ?_
            · rw [parseTokensFrom_literal hq] at htokens'
              exact hrest ((List.suffix_cons ch rest).trans (hq ▸ hdrop _)) htokens'
            -- No delimiter: everything is in the literal, and nothing is left.
            · have hall : scan text (· ≠ ch) = text := by
                have hsplit : scan text (· ≠ ch) ++ text.dropWhile (· ≠ ch) = text :=
                  List.takeWhile_append_dropWhile
                rwa [hnil, List.append_nil] at hsplit
              rw [hall, parseTokensFrom_skip_all (Nat.le_succ _)] at htokens'
              exact (Except.ok.inj htokens').symm
          · obtain ⟨tokens', htokens', hcons⟩ := except_bind_ok.mp h
            rw [← Except.ok.inj hcons]
            have hread := readAt_bracket (o := offset) hbracket
            exact .token hread (hrest (List.suffix_refl _) htokens')
          · rw [parseTokensFrom_scan hatom] at h
            obtain ⟨tokens', htokens', hcons⟩ := except_bind_ok.mp h
            rw [← Except.ok.inj hcons]
            exact .word hatom (fun ch' h => (class_apart ch' h).2.2.1) (.inr (.inr rfl))
              (hrest (hdrop _) htokens')
          -- An unknown character has no tokens.
          · obtain ⟨loc, -, hpanic⟩ := except_bind_ok.mp h
            exact absurd hpanic Output.panic_ne_ok

end

end Aike
