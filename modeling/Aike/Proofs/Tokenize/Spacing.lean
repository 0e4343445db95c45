import Aike.Proofs.Tokenize.OneLine

/-!
# `Aike.Proofs.Tokenize.Spacing`: spaces around arithmetic operators

An arithmetic expression with all its parentheses can be written with a space on each
side of the operators or without. `Arith.tokens` is what is meant in both cases.

`spacing_iff`: both texts have the same tokens exactly if no `+` and no `-` comes right
after an integer literal. `isNumber` holds for the signs, so a number without spaces
goes on with them.
-/

set_option autoImplicit false

namespace Aike

/-! ### Expressions -/

inductive ArithOp
  | add
  | sub
  | mul
  | div
  | rem
  deriving DecidableEq

def ArithOp.char : ArithOp → Char
  | .add => '+'
  | .sub => '-'
  | .mul => '*'
  | .div => '/'
  | .rem => '%'

/-- An identifier. -/
structure IdentName where
  data : Str
  starts : data.head?.any isIdentStart = true
  idents : data.all isIdent = true

/-- An unsigned decimal integer literal. -/
structure IntDigits where
  data : Str
  ne_nil : data ≠ []
  digits : data.all isDigit = true

/-- An arithmetic expression. -/
inductive Arith
  | ident (name : IdentName)
  | int (digits : IntDigits)
  | paren (e : Arith)
  | binary (op : ArithOp) (left right : Arith)

namespace Arith

/-- The text, with a gap on each side of the operators. -/
def text (gap : Str) : Arith → Str
  | ident name => name.data
  | int digits => digits.data
  | paren e => '(' :: (e.text gap ++ [')'])
  | binary op left right =>
      '(' :: (left.text gap ++ (gap ++ (op.char :: (gap ++ (right.text gap ++ [')'])))))

/-- The tokens that are meant. -/
def tokens : Arith → List TokenKind
  | ident name => [(.ident, name.data)]
  | int digits => [(.number, digits.data)]
  | paren e => (.bracket, ['(']) :: (e.tokens ++ [(.bracket, [')'])])
  | binary op left right =>
      (.bracket, ['(']) ::
        (left.tokens ++ ((.atom, [op.char]) :: (right.tokens ++ [(.bracket, [')'])])))

/-- No `+` and no `-` has an integer literal as its left operand. -/
def SignsApart : Arith → Prop
  | ident _ => True
  | int _ => True
  | paren e => e.SignsApart
  | binary op left right =>
      ¬ ((op = .add ∨ op = .sub) ∧ ∃ digits, left = int digits) ∧ left.SignsApart ∧ right.SignsApart

/-- A text that the last token of an expression does not go on in. -/
def Apart (after : Str) : Arith → Prop
  | ident _ => ∀ ch ∈ after.head?, isIdent ch = false
  | int _ => ∀ ch ∈ after.head?, isNumber ch = false
  | _ => True

end Arith

/-! ### Branches of `parseTokens` -/

section

variable {output : Output} {source : Str} {lines : List Line} {offset : Nat} {ch : Char}
  {text : Str}

/-- A range of characters is a range of their numbers. -/
theorem inRange_iff {min max : Char} :
    inRange ch min max = true ↔ min.toNat ≤ ch.toNat ∧ ch.toNat ≤ max.toNat := by
  simp only [inRange, Bool.and_eq_true, decide_eq_true_eq]
  exact Iff.rfl

/-- A digit starts a number and nothing else. -/
theorem of_isDigit (h : isDigit ch = true) :
    isSpace ch = false ∧ ch ≠ '#' ∧ isIdentStart ch = false ∧ Plain ch := by
  have hne : ∀ ch' : Char, isDigit ch' = false → ch ≠ ch' := fun ch' h' => ne_of_class h h'
  refine ⟨?_, hne _ (by decide), ?_, hne _ (by decide), hne _ (by decide)⟩
  · simp [isSpace, hne ' ' (by decide), hne '\r' (by decide), hne '\n' (by decide)]
  · rw [isDigit, inRange_iff] at h
    rw [Bool.eq_false_iff]
    intro hstart
    simp only [isIdentStart, Bool.or_eq_true, inRange_iff, decide_eq_true_eq] at hstart
    have h9 : '9'.toNat = 57 := rfl
    rcases hstart with (hlower | hupper) | hunder
    · have ha : 'a'.toNat = 97 := rfl
      omega
    · have hA : 'A'.toNat = 65 := rfl
      omega
    · have hunder : ch.toNat = 95 := congrArg Char.toNat hunder
      omega

/-- A number goes on with digits. -/
theorem isNumber_of_isDigit (h : isDigit ch = true) : isNumber ch = true := by
  simp only [isNumber, h, Bool.true_or]

/-- A token that starts like an identifier is read up to the first other character. -/
theorem parseTokensFrom_ident (h : isIdentStart ch = true) :
    parseTokensFrom output source lines offset 0 (ch :: text) = (do
      let tokens ← parseTokensFrom output source lines (offset + (scan (ch :: text) isIdent).length)
        0 (text.dropWhile isIdent)
      return ⟨.ident, scan (ch :: text) isIdent, offset, offset, {}⟩ :: tokens) := by
  have hident : isIdent ch = true := by rw [isIdent, h, Bool.true_or]
  obtain ⟨hspace, hcomment, -⟩ := of_isIdent hident
  rw [parseTokensFrom, if_neg (Bool.eq_false_iff.mp hspace), if_neg hcomment, if_pos h,
    ← parseTokensFrom_scan hident]

/-- A token that starts with a digit is read as a number. -/
theorem parseTokensFrom_number (h : isDigit ch = true) :
    parseTokensFrom output source lines offset 0 (ch :: text) = (do
      let tokens ← parseTokensFrom output source lines
        (offset + (scan (ch :: text) isNumber).length)
        0 (text.dropWhile isNumber)
      return ⟨.number, scan (ch :: text) isNumber, offset, offset, {}⟩ :: tokens) := by
  obtain ⟨hspace, hcomment, hident, -⟩ := of_isDigit h
  rw [parseTokensFrom, if_neg (Bool.eq_false_iff.mp hspace), if_neg hcomment,
    if_neg (Bool.eq_false_iff.mp hident), if_pos h, ← parseTokensFrom_scan (isNumber_of_isDigit h)]

/-- A token that starts like punctuation is read as one. -/
theorem parseTokensFrom_atom (h : isAtom ch = true) :
    parseTokensFrom output source lines offset 0 (ch :: text) = (do
      let tokens ← parseTokensFrom output source lines (offset + (scan (ch :: text) isAtom).length)
        0 (text.dropWhile isAtom)
      return ⟨.atom, scan (ch :: text) isAtom, offset, offset, {}⟩ :: tokens) := by
  obtain ⟨hspace, hcomment, hident, hdigit, hquote, hbracket, -⟩ := of_isAtom ch h
  rw [parseTokensFrom, if_neg (Bool.eq_false_iff.mp hspace), if_neg hcomment,
    if_neg (Bool.eq_false_iff.mp hident), if_neg (Bool.eq_false_iff.mp hdigit),
    if_neg (Bool.eq_false_iff.mp hquote), if_neg (Bool.eq_false_iff.mp hbracket), if_pos h,
    ← parseTokensFrom_scan h]

/-- A bracket is a token by itself. -/
theorem parseTokensFrom_bracket (h : ch ∈ ['(', ')', '[', ']']) :
    parseTokensFrom output source lines offset 0 (ch :: text) = (do
      let tokens ← parseTokensFrom output source lines (offset + 1) 0 text
      return ⟨.bracket, [ch], offset, offset, {}⟩ :: tokens) := by
  obtain ⟨hspace, hcomment, hident, hdigit, hquote, hbracket, -⟩ := of_bracket ch h
  rw [parseTokensFrom, if_neg (Bool.eq_false_iff.mp hspace), if_neg hcomment,
    if_neg (Bool.eq_false_iff.mp hident), if_neg (Bool.eq_false_iff.mp hdigit),
    if_neg (Bool.eq_false_iff.mp hquote), if_pos hbracket]

/-! ### Reading a text before another one -/

/-- Before a text, `u` is read as tokens of the kinds `ks`. -/
def Consumes (output : Output) (source : Str) (lines : List Line) (u : Str) (ks : List TokenKind)
    (text : Str) : Prop :=
  ∀ offset, ∃ front, front.map Token.kind = ks ∧
    parseTokensFrom output source lines offset 0 (u ++ text) = (do
      let tokens ← parseTokensFrom output source lines (offset + u.length) 0 text
      return front ++ tokens)

namespace Consumes

variable {u v : Str} {ks ks' : List TokenKind}

/-- The empty text has no tokens. -/
theorem nil : Consumes output source lines [] [] text := by
  intro offset
  refine ⟨[], rfl, ?_⟩
  show parseTokensFrom output source lines offset 0 text =
    parseTokensFrom output source lines offset 0 text >>= fun tokens => .ok tokens
  cases parseTokensFrom output source lines offset 0 text <;> rfl

/-- Two texts one after the other have the tokens of both, if the first one is read so in
front of the second one. -/
theorem append (hu : Consumes output source lines u ks (v ++ text))
    (hv : Consumes output source lines v ks' text) :
    Consumes output source lines (u ++ v) (ks ++ ks') text := by
  intro offset
  obtain ⟨front, hfront, hrun⟩ := hu offset
  obtain ⟨front', hfront', hrun'⟩ := hv (offset + u.length)
  refine ⟨front ++ front', by rw [List.map_append, hfront, hfront'], ?_⟩
  rw [List.append_assoc, hrun, hrun', List.length_append, ← Nat.add_assoc]
  cases parseTokensFrom output source lines (offset + u.length + v.length) 0 text with
  | error e => rfl
  | ok tokens =>
      show Except.ok (front ++ (front' ++ tokens)) = .ok (front ++ front' ++ tokens)
      rw [List.append_assoc]

/-- A space has no tokens. -/
theorem space : Consumes output source lines [' '] [] text := by
  intro offset
  refine ⟨[], rfl, ?_⟩
  show parseTokensFrom output source lines (offset + 1) 0 text =
    parseTokensFrom output source lines (offset + 1) 0 text >>= pure
  exact (bind_pure _).symm

/-- A bracket has one. -/
theorem bracket (h : ch ∈ ['(', ')', '[', ']']) :
    Consumes output source lines [ch] [(.bracket, [ch])] text := by
  intro offset
  exact ⟨[⟨.bracket, [ch], offset, offset, {}⟩], rfl, parseTokensFrom_bracket h⟩

/-- A token of all characters up to one of another class. -/
theorem word {type : TokenType} {fn : Char → Bool} {u : Str} (hu : ∀ x ∈ ch :: u, fn x = true)
    (htext : ∀ x ∈ text.head?, fn x = false)
    (hrun : ∀ offset rest, parseTokensFrom output source lines offset 0 (ch :: rest) = (do
      let tokens ← parseTokensFrom output source lines (offset + (scan (ch :: rest) fn).length) 0
        (rest.dropWhile fn)
      return ⟨type, scan (ch :: rest) fn, offset, offset, {}⟩ :: tokens)) :
    Consumes output source lines (ch :: u) [(type, ch :: u)] text := by
  intro offset
  have hscan : scan (ch :: u ++ text) fn = ch :: u := scan_append hu htext
  have hdrop : (u ++ text).dropWhile fn = text := by
    rw [List.dropWhile_append_of_pos fun x hx => hu x (List.mem_cons_of_mem ch hx)]
    cases text with
    | nil => rfl
    | cons x text => exact List.dropWhile_cons_of_neg (Bool.eq_false_iff.mp (htext x rfl))
  refine ⟨[⟨type, ch :: u, offset, offset, {}⟩], rfl, ?_⟩
  have hstep := hrun offset (u ++ text)
  rw [hdrop] at hstep
  rw [List.cons_append, hstep, ← List.cons_append, hscan]
  rfl

/-- What is read after `u`. -/
theorem rest (h : Consumes output source lines u ks text) {tokens : List Token}
    (hrun : parseTokensFrom output source lines offset 0 (u ++ text) = .ok tokens) :
    ∃ tokens', parseTokensFrom output source lines (offset + u.length) 0 text = .ok tokens' ∧
      ∀ t ∈ tokens', t ∈ tokens := by
  obtain ⟨front, -, heq⟩ := h offset
  rw [heq] at hrun
  obtain ⟨tokens', htokens', hall⟩ := except_bind_ok.mp hrun
  cases hall
  exact ⟨tokens', htokens', fun t ht => List.mem_append_right front ht⟩

end Consumes

/-! ### Expressions that are read as they are meant -/

/-- The character of an operator is punctuation, and no letter. -/
theorem ArithOp.of_char (op : ArithOp) :
    isAtom op.char = true ∧ isIdent op.char = false ∧ Plain op.char := by
  cases op <;> exact ⟨by decide, by decide, by decide, by decide⟩

/-- A number goes on with a sign. -/
theorem ArithOp.isNumber_char (op : ArithOp) :
    isNumber op.char = true ↔ op = .add ∨ op = .sub := by
  cases op <;> decide

namespace Arith

variable {gap after : Str}

/-- An expression does not start like an atom. -/
theorem head_text (e : Arith) (gap after : Str) :
    ∀ ch ∈ (e.text gap ++ after).head?, isAtom ch = false := by
  intro ch hch
  cases e with
  | ident name =>
      obtain ⟨data, hstarts, hidents⟩ := name
      cases data with
      | nil => cases hstarts
      | cons ch' u =>
          cases hch
          exact (of_isIdent (List.all_eq_true.mp hidents ch List.mem_cons_self)).2.2.1
  | int digits =>
      obtain ⟨data, hne, hdigits⟩ := digits
      cases data with
      | nil => exact absurd rfl hne
      | cons ch' u =>
          cases hch
          have hdigit : isDigit ch = true := List.all_eq_true.mp hdigits ch List.mem_cons_self
          rw [Bool.eq_false_iff]
          intro hatom
          rw [(of_isAtom ch hatom).2.2.2.1] at hdigit
          cases hdigit
  | paren e =>
      cases hch
      decide
  | binary op left right =>
      cases hch
      decide

/-- In front of a bracket every expression ends. -/
theorem apart_bracket (e : Arith) : e.Apart (')' :: after) := by
  cases e with
  | ident name =>
      rintro ch ⟨⟩
      decide
  | int digits =>
      rintro ch ⟨⟩
      decide
  | paren e => trivial
  | binary op left right => trivial

/-- So it does in front of a space. -/
theorem apart_space (e : Arith) : e.Apart (' ' :: after) := by
  cases e with
  | ident name =>
      rintro ch ⟨⟩
      decide
  | int digits =>
      rintro ch ⟨⟩
      decide
  | paren e => trivial
  | binary op left right => trivial

/-- In front of an operator it ends but for a literal before a sign. -/
theorem apart_char (e : Arith) {op : ArithOp}
    (h : ¬ ((op = .add ∨ op = .sub) ∧ ∃ digits, e = int digits)) : e.Apart (op.char :: after) := by
  cases e with
  | ident name =>
      rintro ch ⟨⟩
      exact op.of_char.2.1
  | int digits =>
      rintro ch ⟨⟩
      rw [Bool.eq_false_iff]
      exact fun hnumber => h ⟨op.isNumber_char.mp hnumber, digits, rfl⟩
  | paren e => trivial
  | binary op left right => trivial

/-- An expression is read as it is meant if there are spaces or no literal is before
a sign. -/
theorem consumes_text (hgap : gap = [] ∨ gap = [' ']) (e : Arith)
    (hsigns : gap = [] → e.SignsApart) (hafter : e.Apart after) :
    Consumes output source lines (e.text gap) e.tokens after := by
  have hgaps : ∀ text, Consumes output source lines gap [] text := by
    intro text
    rcases hgap with rfl | rfl
    · exact .nil
    · exact .space
  induction e generalizing after with
  | ident name =>
      obtain ⟨data, hstarts, hidents⟩ := name
      cases data with
      | nil => cases hstarts
      | cons ch u =>
          exact .word (List.all_eq_true.mp hidents) hafter fun _ _ => parseTokensFrom_ident hstarts
  | int digits =>
      obtain ⟨data, hne, hdigits⟩ := digits
      cases data with
      | nil => exact absurd rfl hne
      | cons ch u =>
          have hall := List.all_eq_true.mp hdigits
          exact .word (fun ch' h => isNumber_of_isDigit (hall ch' h)) hafter
            fun _ _ => parseTokensFrom_number (hall ch List.mem_cons_self)
  | paren e ih =>
      show Consumes output source lines (['('] ++ (e.text gap ++ [')']))
        ([(.bracket, ['('])] ++ (e.tokens ++ [(.bracket, [')'])])) after
      exact .append (.bracket (by decide))
        (.append (ih hsigns (apart_bracket e)) (.bracket (by decide)))
  | binary op left right ihl ihr =>
      -- The left operand ends before its operator: a space comes between them, or a character
      -- that it cannot go on with.
      have hleft : left.Apart (gap ++ (op.char :: (gap ++ (right.text gap ++ [')']))) ++
          after) := by
        rcases hgap with rfl | rfl
        · exact left.apart_char (hsigns rfl).1
        · exact left.apart_space
      -- The operator is one character, as no operand starts with another one of its class.
      have hop : ∀ ch ∈ (gap ++ (right.text gap ++ [')']) ++ after).head?, isAtom ch = false := by
        rcases hgap with rfl | rfl
        · rw [List.nil_append, List.append_assoc]
          exact right.head_text [] _
        · rintro ch ⟨⟩
          decide
      have hatom : ∀ ch ∈ [op.char], isAtom ch = true :=
        List.forall_mem_singleton.mpr op.of_char.1
      show Consumes output source lines
        (['('] ++ (left.text gap ++ (gap ++ ([op.char] ++ (gap ++ (right.text gap ++ [')']))))))
        ([(.bracket, ['('])] ++ (left.tokens ++ ([] ++ ([(.atom, [op.char])] ++
          ([] ++ (right.tokens ++ [(.bracket, [')'])])))))) after
      refine .append (.bracket (by decide)) (.append (ihl (fun h => (hsigns h).2.1) hleft) ?_)
      refine .append (hgaps _) (.append (.word hatom hop ?_) (.append (hgaps _) ?_))
      · exact fun _ _ => parseTokensFrom_atom op.of_char.1
      · exact .append (ihr (fun h => (hsigns h).2.2) (apart_bracket right)) (.bracket (by decide))

/-! ### A number that goes on with a sign -/

end Arith

/-- A number with a sign in it. -/
def TokenKind.Signed (k : TokenKind) : Prop := k.1 = .number ∧ ('+' ∈ k.2 ∨ '-' ∈ k.2)

/-- A sign behind a number is read as a part of it. -/
theorem signed_number {u : Str} {sign : Char} (hu : ∀ x ∈ ch :: u, isDigit x = true)
    (hsign : sign = '+' ∨ sign = '-') {tokens : List Token}
    (h : parseTokensFrom output source lines offset 0 (ch :: u ++ sign :: text) = .ok tokens) :
    ∃ t ∈ tokens, t.kind.Signed := by
  rw [List.cons_append, parseTokensFrom_number (hu ch List.mem_cons_self)] at h
  obtain ⟨tokens', -, hall⟩ := except_bind_ok.mp h
  cases hall
  refine ⟨_, List.mem_cons_self, rfl, ?_⟩
  have hmem : sign ∈ scan (ch :: (u ++ sign :: text)) isNumber := by
    have hnumber : isNumber sign = true := by rcases hsign with rfl | rfl <;> decide
    unfold scan
    rw [← List.cons_append, List.takeWhile_append_of_pos fun x hx => isNumber_of_isDigit (hu x hx),
      List.takeWhile_cons_of_pos hnumber]
    exact List.mem_append_right _ List.mem_cons_self
  rcases hsign with rfl | rfl
  · exact .inl hmem
  · exact .inr hmem

namespace Arith

/-- Without spaces, a literal before a sign becomes a number with a sign in it. -/
theorem signed_of_not_signsApart (e : Arith) (hsigns : ¬ e.SignsApart) {after : Str}
    {tokens : List Token}
    (h : parseTokensFrom output source lines offset 0 (e.text [] ++ after) = .ok tokens) :
    ∃ t ∈ tokens, t.kind.Signed := by
  have hopen : ∀ {offset : Nat} {text : Str} {tokens : List Token},
      parseTokensFrom output source lines offset 0 ('(' :: text) = .ok tokens →
        ∃ tokens', parseTokensFrom output source lines (offset + 1) 0 text = .ok tokens' ∧
          ∀ t ∈ tokens', t ∈ tokens := by
    intro offset text tokens h
    have hbracket : Consumes output source lines ['('] [(.bracket, ['('])] text :=
      .bracket (by decide)
    exact hbracket.rest h
  induction e generalizing offset after tokens with
  | ident name => exact absurd trivial hsigns
  | int digits => exact absurd trivial hsigns
  | paren e ih =>
      rw [text, List.cons_append, List.append_assoc] at h
      obtain ⟨tokens', htokens', hsub⟩ := hopen h
      obtain ⟨t, ht, hsigned⟩ := ih hsigns htokens'
      exact ⟨t, hsub t ht, hsigned⟩
  | binary op left right ihl ihr =>
      rw [text, List.cons_append, List.append_assoc] at h
      obtain ⟨tokens₁, htokens₁, hsub₁⟩ := hopen h
      by_cases hleft : left.SignsApart
      · by_cases hliteral : (op = .add ∨ op = .sub) ∧ ∃ digits, left = int digits
        -- The sign is read as a part of the number before it.
        · obtain ⟨hop, ⟨data, hne, hdigits⟩, rfl⟩ := hliteral
          cases data with
          | nil => exact absurd rfl hne
          | cons ch u =>
              have hsign : op.char = '+' ∨ op.char = '-' := by
                rcases hop with rfl | rfl
                · exact .inl rfl
                · exact .inr rfl
              obtain ⟨t, ht, hsigned⟩ :=
                signed_number (List.all_eq_true.mp hdigits) hsign htokens₁
              exact ⟨t, hsub₁ t ht, hsigned⟩
        · -- the left operand and the operator are read as they are meant
          have hright : ¬ right.SignsApart := fun hright => hsigns ⟨hliteral, hleft, hright⟩
          obtain ⟨tokens₂, htokens₂, hsub₂⟩ := (consumes_text (.inl rfl) left (fun _ => hleft)
            (left.apart_char hliteral)).rest htokens₁
          have hhead : ∀ ch ∈ ((right.text [] ++ [')']) ++ after).head?, isAtom ch = false := by
            rw [List.append_assoc]
            exact right.head_text [] _
          have hatom : Consumes output source lines [op.char] [(.atom, [op.char])]
              ((right.text [] ++ [')']) ++ after) :=
            .word (List.forall_mem_singleton.mpr op.of_char.1) hhead
              fun _ _ => parseTokensFrom_atom op.of_char.1
          obtain ⟨tokens₃, htokens₃, hsub₃⟩ := hatom.rest htokens₂
          rw [List.append_assoc] at htokens₃
          obtain ⟨t, ht, hsigned⟩ := ihr hright htokens₃
          exact ⟨t, hsub₁ t (hsub₂ t (hsub₃ t ht)), hsigned⟩
      · obtain ⟨t, ht, hsigned⟩ := ihl hleft htokens₁
        exact ⟨t, hsub₁ t ht, hsigned⟩

/-- The tokens that are meant have no sign in a number. -/
theorem not_signed_tokens (e : Arith) : ∀ k ∈ e.tokens, ¬ TokenKind.Signed k := by
  have hother : ∀ {type : TokenType} {data : Str}, type ≠ .number →
      ¬ TokenKind.Signed (type, data) :=
    fun hne hsigned => hne hsigned.1
  induction e with
  | ident name => exact List.forall_mem_singleton.mpr (hother (by decide))
  | int digits =>
      refine List.forall_mem_singleton.mpr fun hsigned => ?_
      have hdigit := List.all_eq_true.mp digits.digits
      rcases hsigned.2 with h | h
      · exact absurd (hdigit _ h) (by decide)
      · exact absurd (hdigit _ h) (by decide)
  | paren e ih =>
      exact List.forall_mem_cons.mpr ⟨hother (by decide),
        List.forall_mem_append.mpr ⟨ih, List.forall_mem_singleton.mpr (hother (by decide))⟩⟩
  | binary op left right ihl ihr =>
      refine List.forall_mem_cons.mpr ⟨hother (by decide), List.forall_mem_append.mpr ⟨ihl, ?_⟩⟩
      exact List.forall_mem_cons.mpr ⟨hother (by decide),
        List.forall_mem_append.mpr ⟨ihr, List.forall_mem_singleton.mpr (hother (by decide))⟩⟩

/-! ### The streams -/

/-- The text of an expression has no quotes, no comments and no newlines. -/
theorem plain_text {gap : Str} (hgap : gap = [] ∨ gap = [' ']) (e : Arith) :
    ∀ ch ∈ e.text gap, Plain ch := by
  have hgaps : ∀ ch ∈ gap, Plain ch := by
    rcases hgap with rfl | rfl
    · exact List.forall_mem_nil _
    · exact List.forall_mem_singleton.mpr ⟨by decide, by decide⟩
  have hopen : Plain '(' := ⟨by decide, by decide⟩
  have hclose : ∀ ch ∈ [')'], Plain ch := List.forall_mem_singleton.mpr ⟨by decide, by decide⟩
  induction e with
  | ident name => exact fun ch hch => (of_isIdent (List.all_eq_true.mp name.idents ch hch)).2.2.2
  | int digits => exact fun ch hch => (of_isDigit (List.all_eq_true.mp digits.digits ch hch)).2.2.2
  | paren e ih => exact List.forall_mem_cons.mpr ⟨hopen, List.forall_mem_append.mpr ⟨ih, hclose⟩⟩
  | binary op left right ihl ihr =>
      have hright : ∀ ch ∈ gap ++ (right.text gap ++ [')']), Plain ch :=
        List.forall_mem_append.mpr ⟨hgaps, List.forall_mem_append.mpr ⟨ihr, hclose⟩⟩
      refine List.forall_mem_cons.mpr ⟨hopen, List.forall_mem_append.mpr ⟨ihl, ?_⟩⟩
      exact List.forall_mem_append.mpr ⟨hgaps, List.forall_mem_cons.mpr ⟨op.of_char.2.2, hright⟩⟩

/-- An expression has tokens. -/
theorem tokens_ne_nil (e : Arith) : e.tokens ≠ [] := by
  cases e <;> exact List.cons_ne_nil _ _

/-- The brackets of an expression match. By induction on it. -/
theorem matched_tokens (e : Arith) : Matched (e.tokens.filter TokenKind.isBracket) := by
  have hopen : ∀ ks : List TokenKind, ((.bracket, ['(']) :: ks : List TokenKind).filter
      TokenKind.isBracket = (.bracket, ['(']) :: ks.filter TokenKind.isBracket :=
    fun ks => List.filter_cons_of_pos rfl
  induction e with
  | ident name => exact .nil
  | int digits => exact .nil
  | paren e ih =>
      rw [tokens, hopen, List.filter_append]
      exact .around (by decide) ih
  | binary op left right ihl ihr =>
      have hop : ((.atom, [op.char]) :: (right.tokens ++ [(.bracket, [')'])]) :
          List TokenKind).filter TokenKind.isBracket =
          right.tokens.filter TokenKind.isBracket ++ [(.bracket, [')'])] := by
        rw [List.filter_cons_of_neg Bool.false_ne_true, List.filter_append]
        rfl
      rw [tokens, hopen, List.filter_append, hop, ← List.append_assoc]
      exact .around (by decide) (ihl.append ihr)

/-- The tokens of a text that is read as it is meant. -/
theorem tokenize_text (output : Output) (source : Str) {gap : Str}
    (hgap : gap = [] ∨ gap = [' ']) (e : Arith)
    (hsigns : gap = [] → e.SignsApart) :
    ∃ tokens, tokenize output source (e.text gap) = .ok tokens ∧
      tokens.tokens.map Token.kind = e.tokens ++ [(.line, [])] := by
  refine tokenize_oneLine (e.plain_text hgap) e.tokens_ne_nil (fun lines => ?_) e.matched_tokens
  have hend : e.Apart [] := by
    cases e <;> first | trivial | exact fun _ h => nomatch h
  have hconsumes : Consumes output source lines (e.text gap) e.tokens [] :=
    consumes_text hgap e hsigns hend
  obtain ⟨front, hfront, hrun⟩ := hconsumes 0
  rw [List.append_nil] at hrun
  refine ⟨front ++ [], hrun, ?_⟩
  rw [List.append_nil, hfront]

end Arith

/-- The tokens are still there with newlines between them. -/
theorem mem_insertNewline_of_mem {t : Token} {tokens : List Token} (ht : t ∈ tokens) :
    t ∈ insertNewline tokens := by
  have hafter : ∀ {tokens : List Token} {last : Token}, t ∈ tokens →
      t ∈ insertNewlineAfter last tokens := by
    intro tokens
    induction tokens with
    | nil => exact fun ht => absurd ht List.not_mem_nil
    | cons t' tokens ih =>
        intro last ht
        have hrest : t ∈ t' :: insertNewlineAfter t' tokens := by
          rcases List.mem_cons.mp ht with rfl | ht
          · exact List.mem_cons_self
          · exact List.mem_cons_of_mem _ (ih ht)
        rw [insertNewlineAfter]
        split
        · exact List.mem_cons_of_mem _ hrest
        · exact hrest
  cases tokens with
  | nil => exact absurd ht List.not_mem_nil
  | cons t' tokens =>
      rcases List.mem_cons.mp ht with rfl | ht
      · exact List.mem_cons_self
      · exact List.mem_cons_of_mem _ (hafter ht)

end

/-- The text without spaces and the text with a space on each side of the operators
have the same tokens exactly if no `+` and no `-` comes right after a literal. -/
theorem spacing_iff (output : Output) (source : Str) (e : Arith) :
    (∃ compact spaced, tokenize output source (e.text []) = .ok compact ∧
        tokenize output source (e.text [' ']) = .ok spaced ∧
        compact.tokens.map Token.kind = spaced.tokens.map Token.kind) ↔ e.SignsApart := by
  obtain ⟨spaced, hspaced, hspacedKinds⟩ := Arith.tokenize_text output source
    (.inr rfl) e fun h => absurd h (List.cons_ne_nil _ _)
  constructor
  · rintro ⟨compact, spaced', hcompact, hspaced', hkinds⟩
    cases hspaced.symm.trans hspaced'
    by_contra hsigns
    obtain ⟨lines, raw, located, hlines, hraw, hlocated, -, rfl⟩ := tokenize_eq_ok_iff.mp hcompact
    have hraw' : parseTokensFrom output source lines 0 0 (e.text [] ++ []) = .ok raw := by
      rw [List.append_nil]
      exact hraw
    obtain ⟨t, ht, hsigned⟩ := e.signed_of_not_signsApart hsigns hraw'
    rw [locateTokens_eq hlines (scans_of_parseTokensFrom hraw) (Nat.le_refl 0) (Nat.zero_add _).le]
      at hlocated
    cases hlocated
    -- the signed number is in the stream, and none is meant
    have hmem : t.kind ∈ (insertNewline (raw.map (Token.locate source (e.text [])))).map
        Token.kind :=
      List.mem_map.mpr ⟨t.locate source (e.text []),
        mem_insertNewline_of_mem (List.mem_map_of_mem ht), rfl⟩
    have hmeant : t.kind ∈ e.tokens ++ [(.line, [])] := by
      rw [← hspacedKinds, ← hkinds]
      exact hmem
    rcases List.mem_append.mp hmeant with hmem | hmem
    · exact e.not_signed_tokens _ hmem hsigned
    · rw [List.mem_singleton.mp hmem] at hsigned
      cases hsigned.1
  · intro hsigns
    obtain ⟨compact, hcompact, hcompactKinds⟩ := Arith.tokenize_text output source (.inl rfl)
      e fun _ => hsigns
    exact ⟨compact, spaced, hcompact, hspaced, hcompactKinds.trans hspacedKinds.symm⟩

/-- `(1+2)` is read as one number in parentheses. -/
theorem spacing_sum :
    ¬ ∀ e : Arith, ∃ compact spaced, tokenize {} [] (e.text []) = .ok compact ∧
      tokenize {} [] (e.text [' ']) = .ok spaced ∧
        compact.tokens.map Token.kind = spaced.tokens.map Token.kind := by
  intro h
  obtain ⟨compact, spaced, hcompact, hspaced, hkinds⟩ :=
    h (.binary .add (.int ⟨"1".toList, by decide, by decide⟩)
      (.int ⟨"2".toList, by decide, by decide⟩))
  change tokenize {} [] "(1+2)".toList = _ at hcompact
  change tokenize {} [] "(1 + 2)".toList = _ at hspaced
  have hone : (tokenize {} [] "(1+2)".toList).map (fun tokens => tokens.tokens.map Token.kind) =
      .ok [(.bracket, "(".toList), (.number, "1+2".toList), (.bracket, ")".toList),
        (.line, [])] := by
    decide
  have hthree : (tokenize {} [] "(1 + 2)".toList).map (fun tokens => tokens.tokens.map Token.kind) =
      .ok [(.bracket, "(".toList), (.number, "1".toList), (.atom, "+".toList),
        (.number, "2".toList), (.bracket, ")".toList), (.line, [])] := by
    decide
  rw [hcompact] at hone
  rw [hspaced] at hthree
  have heq := (Except.ok.inj hone).symm.trans (hkinds.trans (Except.ok.inj hthree))
  exact absurd heq (by decide)

end Aike
