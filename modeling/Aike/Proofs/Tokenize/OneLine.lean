import Aike.Proofs.Tokenize.Pieces

/-!
# `Aike.Proofs.Tokenize.OneLine`: texts on one line

`tokenize_oneLine`: a text on one line whose brackets match each other tokenizes to
the tokens that `parseTokens` reads and one line token.
-/

set_option autoImplicit false

namespace Aike

variable {output : Output} {source : Str}

/-- The tokens of a text, without their places. -/
def Lexes (output : Output) (source : Str) (lines : List Line) (offset : Nat) (text : Str)
    (ks : List TokenKind) : Prop :=
  ∃ tokens, parseTokensFrom output source lines offset 0 text = .ok tokens ∧
    tokens.map Token.kind = ks

/-! ### Brackets -/

/-- Whether a token is a bracket. -/
def TokenKind.isBracket (x : TokenKind) : Bool := x.1 = .bracket

/-- Tokens whose brackets match each other. -/
def Matched (ks : List TokenKind) : Prop :=
  ∀ output brackets tokens rest, tokens.map Token.kind = ks →
    matchBracketsFrom output brackets (tokens ++ rest) = matchBracketsFrom output brackets rest

/-- Only brackets matter to `matchBrackets`. -/
theorem matchBracketsFrom_filter {output : Output} {brackets tokens : List Token} :
    matchBracketsFrom output brackets tokens =
      matchBracketsFrom output brackets (tokens.filter (TokenKind.isBracket ∘ Token.kind)) := by
  induction tokens generalizing brackets with
  | nil => rfl
  | cons t tokens ih =>
      by_cases ht : t.type = .bracket
      · have hkind : (TokenKind.isBracket ∘ Token.kind) t = true := decide_eq_true ht
        rw [List.filter_cons_of_pos hkind]
        cases brackets with
        | nil => simp only [matchBracketsFrom, ih]
        | cons «open» brackets => simp only [matchBracketsFrom, ih]
      · have hkind : ¬ (TokenKind.isBracket ∘ Token.kind) t = true :=
          fun h => ht (of_decide_eq_true h)
        rw [List.filter_cons_of_neg hkind, ← ih]
        exact if_neg ht

namespace Matched

variable {ks ks' : List TokenKind}

/-- No tokens match each other. -/
theorem nil : Matched [] := by
  intro output brackets tokens rest h
  rw [List.map_eq_nil_iff.mp h, List.nil_append]

/-- Tokens that match, followed by tokens that match, do so together. -/
theorem append (h : Matched ks) (h' : Matched ks') : Matched (ks ++ ks') := by
  intro output brackets tokens rest htokens
  obtain ⟨tokens₁, tokens₂, rfl, h₁, h₂⟩ := List.map_eq_append_iff.mp htokens
  rw [List.append_assoc, h output brackets tokens₁ _ h₁, h' output brackets tokens₂ _ h₂]

/-- A pair of brackets around matched tokens. -/
theorem around {lhs rhs : Char} (hpair : (lhs, rhs) ∈ [('(', ')'), ('[', ']')]) (h : Matched ks) :
    Matched ((.bracket, [lhs]) :: ks ++ [(.bracket, [rhs])]) := by
  intro output brackets tokens rest htokens
  obtain ⟨front, back, rfl, hfront, hback⟩ := List.map_eq_append_iff.mp htokens
  obtain ⟨t, inner, rfl, ht, hinner⟩ := List.map_eq_cons_iff.mp hfront
  obtain ⟨t', rfl, ht'⟩ := List.map_eq_singleton_iff.mp hback
  obtain ⟨htype, hdata⟩ := Prod.mk.inj ht
  obtain ⟨htype', hdata'⟩ := Prod.mk.inj ht'
  simp only [List.mem_cons, Prod.mk.injEq, List.not_mem_nil, or_false] at hpair
  -- the first bracket goes on the stack, and the last one takes it off again
  have hopen : matchBracketsFrom output brackets (t :: (inner ++ t' :: rest)) =
      matchBracketsFrom output (t :: brackets) (inner ++ t' :: rest) := by
    refine (if_pos htype).trans (if_pos ?_)
    rw [hdata]
    rcases hpair with ⟨rfl, rfl⟩ | ⟨rfl, rfl⟩ <;> decide
  have hclose : matchBracketsFrom output (t :: brackets) (t' :: rest) =
      matchBracketsFrom output brackets rest := by
    refine (if_pos htype').trans ((if_neg ?_).trans ?_)
    · rw [hdata']
      rcases hpair with ⟨rfl, rfl⟩ | ⟨rfl, rfl⟩ <;> decide
    · show getClosingBracket t.data >>= _ = _
      rw [hdata, hdata']
      rcases hpair with ⟨rfl, rfl⟩ | ⟨rfl, rfl⟩ <;> rfl
  rw [List.append_assoc]
  exact hopen.trans ((h output (t :: brackets) inner _ hinner).trans hclose)

end Matched

/-! ### The stream -/

/-- Tokens on one line are ended by one newline. -/
theorem insertNewlineAfter_oneLine {last : Token} {tokens : List Token}
    (h : ∀ t ∈ last :: tokens, t.location.line = 0) :
    ∃ t, insertNewlineAfter last tokens = tokens ++ [getLineToken t] := by
  induction tokens generalizing last with
  | nil => exact ⟨last, rfl⟩
  | cons t tokens ih =>
      obtain ⟨hlast, htokens⟩ := List.forall_mem_cons.mp h
      obtain ⟨t', ht'⟩ := ih htokens
      have hline : ¬ (last.location.line < t.location.line ∧ ¬ continueLine last) := by
        rw [hlast, htokens t List.mem_cons_self]
        exact fun h => Nat.lt_irrefl 0 h.1
      refine ⟨t', ?_⟩
      rw [insertNewlineAfter, if_neg hline, ht', List.cons_append]

/-- A text without line breaks is one line. -/
theorem lineOf_plain {data : Str} (h : ∀ ch ∈ data, Plain ch) (offset : Nat) :
    lineOf data offset = 0 :=
  List.count_eq_zero.mpr fun hmem => (h '\n' (List.mem_of_mem_take hmem)).1 rfl

/-- A text of one line tokenizes to its tokens and one line token at the end, if its
brackets match. -/
theorem tokenize_oneLine {data : Str} {ks : List TokenKind} (hplain : ∀ ch ∈ data, Plain ch)
    (hks : ks ≠ []) (hlexes : ∀ lines, Lexes output source lines 0 data ks)
    (hmatched : Matched (ks.filter TokenKind.isBracket)) :
    ∃ tokens, tokenize output source data = .ok tokens ∧
      tokens.tokens.map Token.kind = ks ++ [(.line, [])] := by
  obtain ⟨lines, hlines⟩ : ∃ lines, parseLines output source data = .ok lines :=
    parseLinesFrom_of_no_tab fun h => (hplain '\t' h).2 rfl
  obtain ⟨raw, hraw, rfl⟩ := hlexes lines
  have hlocated := locateTokens_eq hlines (scans_of_parseTokensFrom hraw) (Nat.le_refl 0)
    (Nat.zero_add _).le
  have hkinds : (raw.map (Token.locate source data)).map Token.kind = raw.map Token.kind := by
    rw [List.map_map]
    rfl
  -- There is one line, so no line token comes before the end.
  have hline : ∀ t ∈ raw.map (Token.locate source data), t.location.line = 0 := by
    intro t ht
    obtain ⟨t', -, rfl⟩ := List.mem_map.mp ht
    exact lineOf_plain hplain t'.offset
  generalize raw.map (Token.locate source data) = located at hlocated hkinds hline
  -- Matching looks at the brackets alone.
  have hbrackets : matchBrackets output located = .ok () := by
    have hkind : (located.filter (TokenKind.isBracket ∘ Token.kind)).map Token.kind =
        (raw.map Token.kind).filter TokenKind.isBracket := by
      rw [← List.filter_map, hkinds]
    have hrun := hmatched output [] _ [] hkind
    rw [List.append_nil, ← matchBracketsFrom_filter] at hrun
    unfold matchBrackets
    rw [hrun]
    rfl
  cases located with
  | nil => exact absurd hkinds.symm hks
  | cons t located =>
      obtain ⟨t', ht'⟩ := insertNewlineAfter_oneLine hline
      refine ⟨⟨lines, insertNewline (t :: located)⟩, ?_, ?_⟩
      · exact tokenize_eq_ok_iff.mpr ⟨lines, raw, _, hlines, hraw, hlocated, hbrackets, rfl⟩
      · show (t :: insertNewlineAfter t located).map Token.kind = _
        rw [ht', ← List.cons_append, List.map_append, hkinds]
        rfl

end Aike
