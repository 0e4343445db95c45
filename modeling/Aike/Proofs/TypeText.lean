import Aike.Model.FrontEnd
import Aike.Proofs.Parse.TypeText
import Aike.Proofs.Tokenize.OneLine

/-!
# `Aike.Proofs.TypeText`: what is read back of a written type

The tokenizer takes as many characters of punctuation for one token as it can, so
two pieces of punctuation that touch become one token (`lexed`), and `parseType`
knows none of those tokens.

`typeText_roundTrips_iff` says that a written type is read back exactly if no two
of its pieces touch in this way.
-/

set_option autoImplicit false

namespace Aike

open TypeSyntax

/-! ### What the tokenizer makes of pieces -/

/-- The atom that the punctuation read so far makes. -/
def flush (acc : Str) : List TokenKind := if acc = [] then [] else [(.atom, acc)]

/-- The tokens of pieces, after some punctuation. -/
def lexed : Str → List Piece → List TokenKind
  | acc, [] => flush acc
  | acc, .symbol data :: ps => lexed (acc ++ data.toList) ps
  | acc, .word data :: ps => flush acc ++ (.ident, data) :: lexed [] ps
  | acc, .bracket ch :: ps => flush acc ++ (.bracket, [ch]) :: lexed [] ps
  | acc, .space :: ps => flush acc ++ lexed [] ps

/-- No two pieces of punctuation touch, also not one before them. -/
def clear : (touching : Bool) → List Piece → Bool
  | _, [] => true
  | touching, .symbol _ :: ps => !touching && clear true ps
  | _, .word _ :: ps => clear false ps
  | _, .bracket _ :: ps => clear false ps
  | _, .space :: ps => clear false ps

/-- No punctuation makes no atom. -/
@[simp] theorem flush_nil : flush [] = [] := rfl

/-- Some punctuation makes one. -/
theorem flush_of_ne_nil {acc : Str} (h : acc ≠ []) : flush acc = [(.atom, acc)] := if_neg h

/-- All the punctuation is that of the notation. -/
def SymbolsKnown (ps : List Piece) : Prop := ∀ data, Piece.symbol data ∈ ps → data ∈ symbols

/-- What is behind a piece is of the notation, too. -/
theorem SymbolsKnown.tail {p : Piece} {ps : List Piece} (h : SymbolsKnown (p :: ps)) :
    SymbolsKnown ps := fun data hdata => h data (List.mem_cons_of_mem p hdata)

/-- The punctuation of the notation is never empty. -/
theorem symbol_ne_nil {data : String} (h : data ∈ symbols) : data.toList ≠ [] := by
  revert data
  decide

/-- Pieces that stay apart are the tokens. -/
theorem lexed_of_clear {ps : List Piece} (hknown : SymbolsKnown ps) {acc : Str}
    (h : clear (acc ≠ []) ps = true) : lexed acc ps = flush acc ++ pieceTokens ps := by
  induction ps generalizing acc with
  | nil => rw [lexed, pieceTokens_nil, List.append_nil]
  | cons p ps ih =>
      have hcut : clear false ps = true → lexed [] ps = pieceTokens ps := fun h => by
        have hnil : lexed [] ps = flush [] ++ pieceTokens ps := ih hknown.tail (by simpa using h)
        rw [hnil, flush_nil, List.nil_append]
      cases p with
      | word data => rw [lexed, pieceTokens_word, hcut h]
      | bracket ch => rw [lexed, pieceTokens_bracket, hcut h]
      | space => rw [lexed, pieceTokens_space, hcut h]
      | symbol data =>
          have hne := symbol_ne_nil (hknown data List.mem_cons_self)
          rw [clear, Bool.and_eq_true, Bool.not_eq_true', decide_eq_false_iff_not, not_not] at h
          obtain ⟨rfl, hclear⟩ := h
          rw [lexed, List.nil_append, ih hknown.tail (by simpa [hne] using hclear),
            flush_of_ne_nil hne, flush_nil, pieceTokens_symbol, List.nil_append,
              List.singleton_append]

/-- More than one piece of punctuation in one token. -/
def Merged (acc : Str) : Prop := ∃ data ∈ symbols, ∃ ch text, acc = data.toList ++ ch :: text

/-- Longer punctuation than two pieces that touch is no single one either. -/
theorem Merged.append {acc : Str} (h : Merged acc) (text : Str) : Merged (acc ++ text) := by
  obtain ⟨data, hdata, ch, text', rfl⟩ := h
  exact ⟨data, hdata, ch, text' ++ text, by rw [List.append_assoc, List.cons_append]⟩

/-- No punctuation of the notation starts with other punctuation of it. -/
theorem symbols_prefix : ∀ data ∈ symbols, ∀ data' ∈ symbols, data.toList <+: data'.toList →
    data'.toList.length ≤ data.toList.length := by
  decide

/-- The notation has no token of two pieces of punctuation that touch. The symbols are
compared one by one. -/
theorem Merged.not_allowed {acc : Str} (h : Merged acc) : ¬ TokenKind.Allowed (.atom, acc) := by
  obtain ⟨data, hdata, ch, text, rfl⟩ := h
  intro hallowed
  obtain ⟨data', hdata', heq⟩ := List.mem_map.mp (hallowed rfl)
  have hle := symbols_prefix data hdata data' hdata' ⟨_, heq.symm⟩
  rw [heq, List.length_append, List.length_cons] at hle
  omega

/-- Once two pieces touch, there is a token that is not of the notation, whatever follows. -/
theorem lexed_of_merged {acc : Str} (h : Merged acc) (ps : List Piece) :
    ∃ x ∈ lexed acc ps, ¬ x.Allowed := by
  have hne : acc ≠ [] := by
    obtain ⟨data, -, ch, text, rfl⟩ := h
    simp
  have hflush : (TokenType.atom, acc) ∈ flush acc := by
    rw [flush_of_ne_nil hne]
    exact List.mem_singleton_self _
  induction ps generalizing acc with
  | nil => exact ⟨_, hflush, h.not_allowed⟩
  | cons p ps ih =>
      cases p with
      | word data => exact ⟨_, List.mem_append_left _ hflush, h.not_allowed⟩
      | bracket ch => exact ⟨_, List.mem_append_left _ hflush, h.not_allowed⟩
      | space => exact ⟨_, List.mem_append_left _ hflush, h.not_allowed⟩
      | symbol data =>
          have hne' : acc ++ data.toList ≠ [] := List.append_ne_nil_of_left_ne_nil hne _
          refine ih (h.append data.toList) hne' ?_
          rw [flush_of_ne_nil hne']
          exact List.mem_singleton_self _

/-- Where pieces touch, a token is not of the notation. -/
theorem lexed_of_not_clear {ps : List Piece} (hknown : SymbolsKnown ps) {acc : Str}
    (hacc : acc = [] ∨ ∃ data ∈ symbols, acc = data.toList) (h : clear (acc ≠ []) ps = false) :
    ∃ x ∈ lexed acc ps, ¬ x.Allowed := by
  induction ps generalizing acc with
  | nil => cases h
  | cons p ps ih =>
      -- after a piece that is no punctuation
      have hcut : clear false ps = false → ∃ x ∈ lexed [] ps, ¬ x.Allowed := fun h =>
        ih hknown.tail (.inl rfl) (by simpa using h)
      cases p with
      | word data =>
          obtain ⟨x, hx, hnot⟩ := hcut h
          exact ⟨x, List.mem_append_right _ (List.mem_cons_of_mem _ hx), hnot⟩
      | bracket ch =>
          obtain ⟨x, hx, hnot⟩ := hcut h
          exact ⟨x, List.mem_append_right _ (List.mem_cons_of_mem _ hx), hnot⟩
      | space =>
          obtain ⟨x, hx, hnot⟩ := hcut h
          exact ⟨x, List.mem_append_right _ hx, hnot⟩
      | symbol data =>
          have hdata := hknown data List.mem_cons_self
          have hne := symbol_ne_nil hdata
          rw [lexed]
          rcases hacc with rfl | ⟨data', hdata', rfl⟩
          · refine ih hknown.tail (.inr ⟨data, hdata, rfl⟩) ?_
            simpa [clear, hne] using h
          · obtain ⟨ch, text, htext⟩ := List.exists_cons_of_ne_nil hne
            exact lexed_of_merged ⟨data', hdata', ch, text, by rw [htext]⟩ ps

/-! ### Where the pieces of a type touch -/

section Clear

variable {touching : Bool} {ps : List Piece} {data : Str} {symbol : String} {ch : Char}

/-- Punctuation is clear if nothing touches it and it touches nothing. -/
@[simp] theorem clear_symbol :
    clear touching (.symbol symbol :: ps) = (!touching && clear true ps) := rfl

/-- A word keeps apart what is before it and behind it. -/
@[simp] theorem clear_word : clear touching (.word data :: ps) = clear false ps := by
  cases touching <;> rfl

/-- So does a bracket. -/
@[simp] theorem clear_bracket : clear touching (.bracket ch :: ps) = clear false ps := by
  cases touching <;> rfl

/-- So does a space. -/
@[simp] theorem clear_space : clear touching (.space :: ps) = clear false ps := by
  cases touching <;> rfl

/-- What the pieces of a type mean for those around them. -/
def Cleared (s : TypeSyntax) : Prop := ∀ touching ps,
  clear touching (s.pieces ++ ps) =
    (s.separated && !(touching && s.isPointer) && clear s.endsInAngle ps)

/-- In a list with commas, what can touch is the end of an item and the comma behind it,
or what is around the list and its first or last item. -/
theorem clear_commas {ss : List TypeSyntax} (h : ∀ s ∈ ss, Cleared s) (hne : ss ≠ []) :
    clear touching (commas (piecesAll ss) ++ ps) =
      (separatedAll ss && !(touching && ss.head?.any isPointer) &&
        !ss.dropLast.any endsInAngle && clear (ss.getLast?.any endsInAngle) ps) := by
  induction ss generalizing touching with
  | nil => exact absurd rfl hne
  | cons s ss ih =>
      have hs := h s List.mem_cons_self
      cases ss with
      | nil => simp [piecesAll, commas, hs touching, separatedAll]
      | cons next ss =>
          have hrest := @ih false (fun s' hs' => h s' (List.mem_cons_of_mem s hs'))
            (List.cons_ne_nil _ _)
          rw [piecesAll] at hrest
          rw [piecesAll, piecesAll, commas, List.append_assoc, hs touching]
          simp only [Bool.not_and, List.cons_append, clear_symbol, clear_space, hrest, separatedAll,
            List.head?_cons, Option.any_some, Bool.false_and, Bool.not_false, Bool.and_true,
            List.dropLast_cons_cons, List.any_cons, Bool.not_or, List.getLast?_cons_cons]
          ac_rfl

/-- The last one of a list is checked apart from the others. -/
theorem any_eq_dropLast_or {f : TypeSyntax → Bool} {ss : List TypeSyntax} (hne : ss ≠ []) :
    ss.any f = (ss.dropLast.any f || ss.getLast?.any f) := by
  rw [List.getLast?_eq_getLast_of_ne_nil hne, Option.any_some]
  conv_lhs => rw [← List.dropLast_append_getLast hne]
  rw [List.any_append, List.any_cons, List.any_nil, Bool.or_false]

/-- A list with commas that is one item longer. -/
theorem commas_concat {items : List (List Piece)} (hne : items ≠ []) (item : List Piece) :
    commas (items ++ [item]) = commas items ++ .symbol "," :: .space :: item := by
  induction items with
  | nil => exact absurd rfl hne
  | cons first items ih =>
      cases items with
      | nil => rfl
      | cons next items =>
          have ih := ih (List.cons_ne_nil _ _)
          rw [List.cons_append] at ih
          rw [List.cons_append, List.cons_append, commas, ih, commas, List.append_assoc]
          rfl

/-- There are items if there are types. -/
theorem piecesAll_ne_nil {ss : List TypeSyntax} (h : ss ≠ []) : piecesAll ss ≠ [] := by
  cases ss with
  | nil => exact absurd rfl h
  | cons s ss => exact List.cons_ne_nil _ _

/-- Arguments in brackets. A type that ends with `>` touches the comma after it. -/
theorem clear_dots {ss : List TypeSyntax} (h : ∀ s ∈ ss, Cleared s) (varargs : Bool) :
    clear false (commas (piecesAll ss ++ dots varargs) ++ .bracket ch :: ps) =
      (separatedAll ss && !(if varargs then ss else ss.dropLast).any endsInAngle &&
        clear false ps) := by
  by_cases hne : ss = []
  · subst hne
    cases varargs with
    | false => rfl
    | true => rfl
  cases varargs with
  | false =>
      show clear false (commas (piecesAll ss ++ []) ++ _) = _
      rw [List.append_nil, clear_commas h hne, clear_bracket]
      simp
  | true =>
      show clear false (commas (piecesAll ss ++ [[.symbol "..."]]) ++ _) = _
      rw [commas_concat (piecesAll_ne_nil hne), List.append_assoc, clear_commas h hne, if_pos rfl,
        any_eq_dropLast_or hne]
      simp
      ac_rfl

/-- In type arguments the last item can touch the `>`, and the first one the `<`. -/
theorem clear_angles {ss : List TypeSyntax} (h : ∀ s ∈ ss, Cleared s) :
    clear false (angles (piecesAll ss) ++ ps) =
      (separatedAll ss && !ss.head?.any isPointer && !ss.any endsInAngle &&
        clear (!ss.isEmpty) ps) := by
  cases ss with
  | nil => rfl
  | cons s ss =>
      have hcommas := @clear_commas true (.symbol ">" :: ps) _ h (List.cons_ne_nil _ _)
      rw [piecesAll] at hcommas
      rw [piecesAll, angles, List.append_assoc, List.cons_append, clear_symbol,
        List.singleton_append,
        hcommas, any_eq_dropLast_or (List.cons_ne_nil s ss), clear_symbol]
      simp
      ac_rfl

/-- The pieces of a type are clear exactly if the type is separated and does not touch
what is around it. By induction on the type. -/
theorem clear_pieces (s : TypeSyntax) : Cleared s := by
  induction s using TypeSyntax.induct with
  | primitive p =>
      intro touching ps
      simp [pieces, separated, isPointer, endsInAngle]
  | inst name tyargs ih =>
      intro touching ps
      rw [pieces, List.cons_append, clear_word, clear_angles ih]
      simp [separated, isPointer, endsInAngle]
  -- A pointer after a symbol is where two symbols touch.
  | pointer element ih =>
      intro touching ps
      rw [pieces, List.cons_append, clear_symbol, ih true ps]
      simp [separated, isPointer, endsInAngle]
      ac_rfl
  | array element ih =>
      intro touching ps
      rw [pieces, List.append_assoc, List.cons_append, clear_bracket, ih false]
      simp [separated, isPointer, endsInAngle]
  | tuple first second rest ih₁ ih₂ ih =>
      intro touching ps
      -- The fields are at least two, and none of them touches the bracket.
      have hall : ∀ s ∈ first :: second :: rest, Cleared s :=
        List.forall_mem_cons.mpr ⟨ih₁, List.forall_mem_cons.mpr ⟨ih₂, ih⟩⟩
      have hfields := @clear_dots ps ')' _ hall false
      rw [dots, if_neg Bool.false_ne_true, List.append_nil, piecesAll, piecesAll] at hfields
      rw [pieces, List.append_assoc, List.cons_append, clear_bracket,
        List.singleton_append, hfields]
      simp [separated, separatedAll, isPointer, endsInAngle]
      ac_rfl
  | function args ret varargs ih ihret =>
      intro touching ps
      rw [pieces, List.append_assoc, List.cons_append, List.cons_append, clear_word, clear_bracket,
        List.cons_append, clear_dots ih, List.cons_append, clear_symbol, List.cons_append,
        clear_space, ihret]
      simp [separated, isPointer, endsInAngle]
      ac_rfl

end Clear

/-! ### Pieces that can be told apart -/

/-- No word comes first. -/
def StartsApart (ps : List Piece) : Prop := ∀ data, ps.head? ≠ some (.word data)

/-- Pieces of the kinds that the notation has, no two words of which touch. -/
def Readable : List Piece → Prop
  | [] => True
  | .word data :: ps =>
      data.head?.any isIdentStart = true ∧ data.all isIdent = true ∧ StartsApart ps ∧ Readable ps
  | .bracket ch :: ps => ch ∈ ['(', ')', '[', ']'] ∧ Readable ps
  | .symbol data :: ps => data ∈ symbols ∧ Readable ps
  | .space :: ps => Readable ps

/-- Pieces that can be read back have punctuation of the notation only. -/
theorem Readable.symbolsKnown {ps : List Piece} (h : Readable ps) : SymbolsKnown ps := by
  induction ps with
  | nil => exact fun data hdata => absurd hdata List.not_mem_nil
  | cons p ps ih =>
      intro data hdata
      cases p with
      | word d => exact ih h.2.2.2 data (by simpa using hdata)
      | bracket ch => exact ih h.2 data (by simpa using hdata)
      | space => exact ih h data (by simpa using hdata)
      | symbol d =>
          rcases List.mem_cons.mp hdata with heq | hdata
          · cases heq
            exact h.1
          · exact ih h.2 data hdata

/-- Pieces that can be told apart from what comes after them. -/
def ReadableIn (item : List Piece) : Prop :=
  ∀ ps, Readable ps → StartsApart ps → Readable (item ++ ps)

section Readable

variable {ps : List Piece}

/-- Nothing touches nothing. -/
theorem startsApart_nil : StartsApart [] := fun _ h => nomatch h

/-- A bracket touches no word before it. -/
theorem startsApart_bracket {ch : Char} : StartsApart (.bracket ch :: ps) := fun _ h => nomatch h

/-- Nor does punctuation. -/
theorem startsApart_symbol {data : String} :
    StartsApart (.symbol data :: ps) := fun _ h => nomatch h

/-- A list with commas can be read back if its items can. -/
theorem readableIn_commas {items : List (List Piece)} (h : ∀ item ∈ items, ReadableIn item) :
    ReadableIn (commas items) := by
  induction items with
  | nil => exact fun ps hps _ => hps
  | cons item items ih =>
      cases items with
      | nil => exact h item List.mem_cons_self
      | cons next items =>
          intro ps hps hapart
          have hrest := ih (fun item' h' => h item' (List.mem_cons_of_mem item h')) ps hps hapart
          rw [commas, List.append_assoc]
          exact h item List.mem_cons_self _ ⟨by decide, hrest⟩ startsApart_symbol

/-- The pieces of a list of types are those of its types. -/
theorem mem_piecesAll {ss : List TypeSyntax} {item : List Piece} (h : item ∈ piecesAll ss) :
    ∃ s ∈ ss, s.pieces = item := by
  induction ss with
  | nil => exact absurd h List.not_mem_nil
  | cons s ss ih =>
      rcases List.mem_cons.mp h with rfl | h
      · exact ⟨s, List.mem_cons_self, rfl⟩
      · obtain ⟨s', hs', heq⟩ := ih h
        exact ⟨s', List.mem_cons_of_mem s hs', heq⟩

/-- They can be read back if those of the types can. -/
theorem readableIn_piecesAll {ss : List TypeSyntax} (h : ∀ s ∈ ss, ReadableIn s.pieces) :
    ∀ item ∈ piecesAll ss, ReadableIn item := by
  intro item hitem
  obtain ⟨s, hs, rfl⟩ := mem_piecesAll hitem
  exact h s hs

/-- The dots of a function with further arguments can be read back. -/
theorem readableIn_dots (varargs : Bool) : ∀ item ∈ dots varargs, ReadableIn item := by
  intro item hitem ps hps _
  cases varargs with
  | false => cases hitem
  | true =>
      rw [List.mem_singleton.mp hitem]
      exact ⟨by decide, hps⟩

/-- Type arguments can be read back, with what follows them. -/
theorem readableIn_angles {items : List (List Piece)} (h : ∀ item ∈ items, ReadableIn item)
    (hps : Readable ps) (hapart : StartsApart ps) :
    Readable (angles items ++ ps) ∧ StartsApart (angles items ++ ps) := by
  cases items with
  | nil => exact ⟨hps, hapart⟩
  | cons item items =>
      rw [angles, List.append_assoc, List.cons_append]
      refine ⟨⟨by decide, readableIn_commas h _ ⟨by decide, hps⟩ startsApart_symbol⟩, ?_⟩
      exact startsApart_symbol

/-- The pieces of a type can be read back, with what follows them: two words never touch.
By induction on the type. -/
theorem readableIn_pieces (s : TypeSyntax) : ReadableIn s.pieces := by
  induction s using TypeSyntax.induct with
  | primitive p =>
      intro ps hps hapart
      cases p <;> exact ⟨by decide, by decide, hapart, hps⟩
  | inst name tyargs ih =>
      intro ps hps hapart
      obtain ⟨hangles, hstart⟩ := readableIn_angles (readableIn_piecesAll ih) hps hapart
      exact ⟨name.starts, name.idents, hstart, hangles⟩
  | pointer element ih => exact fun ps hps hapart => ⟨by decide, ih ps hps hapart⟩
  | array element ih =>
      intro ps hps _
      rw [pieces, List.append_assoc]
      exact ⟨by decide, ih _ ⟨by decide, hps⟩ startsApart_bracket⟩
  | tuple first second rest ih₁ ih₂ ih =>
      intro ps hps _
      have hall : ∀ s ∈ first :: second :: rest, ReadableIn s.pieces :=
        List.forall_mem_cons.mpr ⟨ih₁, List.forall_mem_cons.mpr ⟨ih₂, ih⟩⟩
      rw [pieces, List.append_assoc]
      exact ⟨by decide, readableIn_commas (readableIn_piecesAll hall) _ ⟨by decide, hps⟩
        startsApart_bracket⟩
  | function args ret varargs ih ihret =>
      intro ps hps hapart
      have hall : ∀ item ∈ piecesAll args ++ dots varargs, ReadableIn item :=
        List.forall_mem_append.mpr ⟨readableIn_piecesAll ih, readableIn_dots varargs⟩
      rw [pieces, List.append_assoc]
      refine ⟨by decide, by decide, startsApart_bracket, by decide, ?_⟩
      exact readableIn_commas hall _ ⟨by decide, by decide, ihret ps hps hapart⟩
        startsApart_bracket

/-- The pieces of a type can be read back. -/
theorem readable_pieces (s : TypeSyntax) : Readable s.pieces := by
  have h := readableIn_pieces s [] trivial startsApart_nil
  rw [List.append_nil] at h
  exact h

end Readable

/-! ### The run of the tokenizer -/

/-- The characters of the notation's punctuation are those that the tokenizer takes for
atoms. -/
theorem symbol_isAtom : ∀ data ∈ symbols, ∀ ch ∈ data.toList, isAtom ch = true := by
  have h : (symbols.all fun data => data.toList.all isAtom) = true := by decide
  simpa using h

section Tokens

variable {output : Output} {source : Str} {lines : List Line} {offset : Nat} {text : Str}
  {ks : List TokenKind}

/-- A space makes no token. -/
theorem Lexes.space (h : Lexes output source lines (offset + 1) text ks) :
    Lexes output source lines offset (' ' :: text) ks := h

/-- A bracket makes one token. -/
theorem Lexes.bracket {ch : Char} (hch : ch ∈ ['(', ')', '[', ']'])
    (h : Lexes output source lines (offset + 1) text ks) :
    Lexes output source lines offset (ch :: text) ((.bracket, [ch]) :: ks) := by
  obtain ⟨hspace, hcomment, hident, hdigit, hquote, hbracket, -⟩ := of_bracket ch hch
  obtain ⟨tokens, htokens, rfl⟩ := h
  refine ⟨⟨.bracket, [ch], offset, offset, {}⟩ :: tokens, ?_, rfl⟩
  rw [parseTokensFrom, if_neg (Bool.eq_false_iff.mp hspace), if_neg hcomment,
    if_neg (Bool.eq_false_iff.mp hident), if_neg (Bool.eq_false_iff.mp hdigit),
      if_neg (Bool.eq_false_iff.mp hquote),
    if_pos hbracket, htokens]
  rfl

/-- A word makes one token, if no further letter follows. -/
theorem Lexes.word {data : Str} (hstart : data.head?.any isIdentStart = true)
    (hdata : data.all isIdent = true) (htext : ∀ ch ∈ text.head?, isIdent ch = false)
    (h : ∀ offset, Lexes output source lines offset text ks) :
    Lexes output source lines offset (data ++ text) ((.ident, data) :: ks) := by
  cases data with
  | nil => cases hstart
  | cons ch u =>
      obtain ⟨tokens, htokens, rfl⟩ := h (offset + 1 + u.length)
      obtain ⟨hspace, hcomment, -⟩ := of_isIdent (List.all_eq_true.mp hdata ch List.mem_cons_self)
      have hscan : scan (ch :: (u ++ text)) isIdent = ch :: u :=
        scan_append (List.all_eq_true.mp hdata) htext
      have hrest : parseTokensFrom output source lines (offset + 1) ((ch :: u).length - 1)
          (u ++ text) = .ok tokens := (parseTokensFrom_skip u).trans htokens
      refine ⟨⟨.ident, ch :: u, offset, offset, {}⟩ :: tokens, ?_, rfl⟩
      have hident : isIdentStart ch = true := hstart
      rw [List.cons_append, parseTokensFrom, if_neg (Bool.eq_false_iff.mp hspace), if_neg hcomment,
        if_pos hident, hscan]
      dsimp only
      rw [hrest]
      rfl

/-- Punctuation makes one token, as long as it goes on. -/
theorem Lexes.flush {acc : Str} (hacc : ∀ ch ∈ acc, isAtom ch = true)
    (htext : ∀ ch ∈ text.head?, isAtom ch = false)
    (h : ∀ offset, Lexes output source lines offset text ks) :
    Lexes output source lines offset (acc ++ text) (flush acc ++ ks) := by
  cases acc with
  | nil => exact h offset
  | cons ch u =>
      obtain ⟨tokens, htokens, rfl⟩ := h (offset + 1 + u.length)
      have hatom := hacc ch List.mem_cons_self
      obtain ⟨hspace, hcomment, hident, hdigit, hquote, hbracket, -⟩ := of_isAtom ch hatom
      have hscan : scan (ch :: (u ++ text)) isAtom = ch :: u := scan_append hacc htext
      have hrest : parseTokensFrom output source lines (offset + 1) ((ch :: u).length - 1)
          (u ++ text) = .ok tokens := (parseTokensFrom_skip u).trans htokens
      refine ⟨⟨.atom, ch :: u, offset, offset, {}⟩ :: tokens, ?_, rfl⟩
      rw [List.cons_append, parseTokensFrom, if_neg (Bool.eq_false_iff.mp hspace), if_neg hcomment,
        if_neg (Bool.eq_false_iff.mp hident), if_neg (Bool.eq_false_iff.mp hdigit),
          if_neg (Bool.eq_false_iff.mp hquote),
        if_neg (Bool.eq_false_iff.mp hbracket), if_pos hatom, hscan]
      dsimp only
      rw [hrest]
      rfl

/-- The text of pieces starts with no character of a word, if no word comes first. -/
theorem StartsApart.head_text {ps : List Piece} (h : StartsApart ps) (hps : Readable ps) :
    ∀ ch ∈ (piecesText ps).head?, isIdent ch = false := by
  intro ch hch
  cases ps with
  | nil => cases hch
  | cons p ps =>
      cases p with
      | word data => exact absurd rfl (h data)
      | bracket ch' =>
          cases hch
          exact (of_bracket ch hps.1).2.2.2.2.2.2.1
      | space =>
          cases hch
          decide
      | symbol data =>
          obtain ⟨ch', u, hdata⟩ := List.exists_cons_of_ne_nil (symbol_ne_nil hps.1)
          have hatom := symbol_isAtom data hps.1 ch' (by rw [hdata]; exact List.mem_cons_self)
          rw [piecesText, List.flatMap_cons, Piece.text, hdata] at hch
          cases hch
          exact (of_isAtom ch hatom).2.2.2.2.2.2.1

/-- The tokenizer makes of pieces what `lexed` says. -/
theorem lexes_pieces {ps : List Piece} (hps : Readable ps) {acc : Str}
    (hacc : ∀ ch ∈ acc, isAtom ch = true) (offset : Nat) :
    Lexes output source lines offset (acc ++ piecesText ps) (lexed acc ps) := by
  induction ps generalizing acc offset with
  | nil =>
      rw [lexed, ← List.append_nil (Aike.flush acc)]
      exact .flush hacc (fun _ h => nomatch h) fun _ => ⟨[], rfl, rfl⟩
  | cons p ps ih =>
      -- What is not a symbol ends the symbols before it, and the rest starts with none.
      have hcut := fun hps offset => @ih hps [] (fun _ h => nomatch h) offset
      rw [piecesText, List.flatMap_cons]
      cases p with
      | word data =>
          obtain ⟨hstart, hdata, hapart, hps⟩ := hps
          have hne : ∀ ch ∈ (data ++ piecesText ps).head?, isAtom ch = false := by
            cases data with
            | nil => cases hstart
            | cons ch u =>
                rintro ch' ⟨⟩
                exact (of_isIdent (List.all_eq_true.mp hdata ch List.mem_cons_self)).2.2.1
          exact .flush hacc hne fun offset =>
            .word hstart hdata (hapart.head_text hps) fun offset => hcut hps offset
      | bracket ch =>
          have hne : ∀ ch' ∈ ([ch] ++ piecesText ps).head?, isAtom ch' = false := by
            rintro ch' ⟨⟩
            exact (of_bracket ch hps.1).2.2.2.2.2.2.2.1
          exact .flush hacc hne fun offset => .bracket hps.1 (hcut hps.2 (offset + 1))
      | space =>
          have hne : ∀ ch' ∈ ([' '] ++ piecesText ps).head?, isAtom ch' = false := by
            rintro ch' ⟨⟩
            decide
          exact .flush hacc hne fun offset => .space (hcut hps (offset + 1))
      -- A symbol goes on with the symbols before it, and they are cut later.
      | symbol data =>
          rw [← List.append_assoc]
          exact ih hps.2 (List.forall_mem_append.mpr ⟨hacc, symbol_isAtom data hps.1⟩) offset

/-- The characters of pieces leave the text on one line. -/
theorem plain_piecesText {ps : List Piece} (h : Readable ps) : ∀ ch ∈ piecesText ps, Plain ch := by
  induction ps with
  | nil => exact fun ch hch => absurd hch List.not_mem_nil
  | cons p ps ih =>
      rw [piecesText, List.flatMap_cons]
      refine List.forall_mem_append.mpr ?_
      cases p with
      | word data =>
          exact ⟨fun ch hch => (of_isIdent (List.all_eq_true.mp h.2.1 ch hch)).2.2.2, ih h.2.2.2⟩
      | bracket ch =>
          refine ⟨fun ch' hch' => ?_, ih h.2⟩
          rw [List.mem_singleton.mp hch']
          exact (of_bracket ch h.1).2.2.2.2.2.2.2.2
      | symbol data =>
          exact ⟨fun ch hch => (of_isAtom ch (symbol_isAtom data h.1 ch hch)).2.2.2.2.2.2.2, ih h.2⟩
      | space =>
          refine ⟨fun ch hch => ?_, ih h⟩
          rw [List.mem_singleton.mp hch]
          exact ⟨by decide, by decide⟩

end Tokens

/-! ### Brackets -/

/-- Touching punctuation changes no brackets: those of the tokens are those of the pieces. -/
theorem lexed_brackets (acc : Str) (ps : List Piece) :
    (lexed acc ps).filter TokenKind.isBracket = (pieceTokens ps).filter TokenKind.isBracket := by
  have hflush : ∀ acc, (flush acc).filter TokenKind.isBracket = [] := by
    intro acc
    unfold flush
    split <;> rfl
  induction ps generalizing acc with
  | nil => exact hflush acc
  | cons p ps ih =>
      cases p with
      | word data =>
          rw [lexed, List.filter_append, hflush, List.nil_append, pieceTokens_word,
            List.filter_cons_of_neg Bool.false_ne_true, List.filter_cons_of_neg Bool.false_ne_true,
            ih]
      | bracket ch =>
          rw [lexed, List.filter_append, hflush, List.nil_append, pieceTokens_bracket,
            List.filter_cons_of_pos rfl, List.filter_cons_of_pos rfl, ih]
      | space => rw [lexed, List.filter_append, hflush, List.nil_append, pieceTokens_space, ih]
      | symbol data =>
          rw [lexed, pieceTokens_symbol, List.filter_cons_of_neg Bool.false_ne_true, ih]

/-- The tokens of pieces that are brackets. -/
def bracketsOf (ps : List Piece) : List TokenKind := (pieceTokens ps).filter TokenKind.isBracket

section BracketsOf

variable {ps qs : List Piece} {data : Str} {symbol : String} {ch : Char}

/-- A word has no brackets. -/
@[simp] theorem bracketsOf_word : bracketsOf (.word data :: ps) = bracketsOf ps :=
  List.filter_cons_of_neg Bool.false_ne_true

/-- Punctuation has none. -/
@[simp] theorem bracketsOf_symbol : bracketsOf (.symbol symbol :: ps) = bracketsOf ps :=
  List.filter_cons_of_neg Bool.false_ne_true

/-- A space has none. -/
@[simp] theorem bracketsOf_space : bracketsOf (.space :: ps) = bracketsOf ps := rfl

/-- A bracket is one. -/
@[simp] theorem bracketsOf_bracket :
    bracketsOf (.bracket ch :: ps) = (.bracket, [ch]) :: bracketsOf ps :=
  List.filter_cons_of_pos rfl

/-- The brackets of pieces one after the other are those of each. -/
@[simp] theorem bracketsOf_append : bracketsOf (ps ++ qs) = bracketsOf ps ++ bracketsOf qs := by
  rw [bracketsOf, pieceTokens_append, List.filter_append]
  rfl

/-- The brackets of a list with commas match if those of its items do. -/
theorem matched_commas {items : List (List Piece)} (h : ∀ item ∈ items, Matched (bracketsOf item)) :
    Matched (bracketsOf (commas items)) := by
  induction items with
  | nil => exact .nil
  | cons item items ih =>
      cases items with
      | nil => exact h item List.mem_cons_self
      | cons next items =>
          rw [commas, bracketsOf_append, bracketsOf_symbol, bracketsOf_space]
          exact (h item List.mem_cons_self).append
            (ih fun item' h' => h item' (List.mem_cons_of_mem item h'))

/-- Those of a list of types match if those of its types do. -/
theorem matched_piecesAll {ss : List TypeSyntax} (h : ∀ s ∈ ss, Matched (bracketsOf s.pieces)) :
    ∀ item ∈ piecesAll ss, Matched (bracketsOf item) := by
  intro item hitem
  obtain ⟨s, hs, rfl⟩ := mem_piecesAll hitem
  exact h s hs

/-- The brackets of a type match. By induction on the type, where each pair is around a
list. -/
theorem matched_pieces (s : TypeSyntax) : Matched (bracketsOf s.pieces) := by
  induction s using TypeSyntax.induct with
  | primitive p =>
      rw [pieces, bracketsOf_word]
      exact .nil
  | inst name tyargs ih =>
      rw [pieces, bracketsOf_word]
      have hall := matched_commas (matched_piecesAll ih)
      cases hitems : piecesAll tyargs with
      | nil => exact .nil
      | cons item items =>
          rw [hitems] at hall
          rw [angles, List.cons_append, bracketsOf_symbol, bracketsOf_append, bracketsOf_symbol]
          exact hall.append .nil
  | pointer element ih =>
      rw [pieces, bracketsOf_symbol]
      exact ih
  | array element ih =>
      rw [pieces, List.cons_append, bracketsOf_bracket, bracketsOf_append, bracketsOf_bracket]
      exact .around (by decide) ih
  | tuple first second rest ih₁ ih₂ ih =>
      have hall : ∀ s ∈ first :: second :: rest, Matched (bracketsOf s.pieces) :=
        List.forall_mem_cons.mpr ⟨ih₁, List.forall_mem_cons.mpr ⟨ih₂, ih⟩⟩
      rw [pieces, List.cons_append, bracketsOf_bracket, bracketsOf_append, bracketsOf_bracket]
      exact .around (by decide) (matched_commas (matched_piecesAll hall))
  | function args ret varargs ih ihret =>
      have hdots : ∀ item ∈ dots varargs, Matched (bracketsOf item) := by
        intro item hitem
        cases varargs with
        | false => cases hitem
        | true =>
            rw [List.mem_singleton.mp hitem, bracketsOf_symbol]
            exact .nil
      have hall : ∀ item ∈ piecesAll args ++ dots varargs, Matched (bracketsOf item) :=
        List.forall_mem_append.mpr ⟨matched_piecesAll ih, hdots⟩
      -- The arguments are in brackets of their own, before the type of the result.
      have hargs : Matched ((.bracket, ['(']) ::
          bracketsOf (commas (piecesAll args ++ dots varargs)) ++ [(.bracket, [')'])]) :=
        .around (by decide) (matched_commas hall)
      have hpieces : bracketsOf (TypeSyntax.function args ret varargs).pieces =
          ((.bracket, ['(']) :: bracketsOf (commas (piecesAll args ++ dots varargs)) ++
            [(.bracket, [')'])]) ++ bracketsOf ret.pieces := by
        simp [pieces]
      rw [hpieces]
      exact hargs.append ihret

end BracketsOf

/-! ### Round trips -/

/-- The file whose contents are a written type. -/
def TypeSyntax.file (s : TypeSyntax) (path : Str) : SourceFile := ⟨path, [], s.text⟩

/-- There are tokens behind some punctuation. -/
theorem lexed_ne_nil {acc : Str} (hacc : acc ≠ []) (ps : List Piece) : lexed acc ps ≠ [] := by
  have hflush : flush acc ≠ [] := by
    rw [flush_of_ne_nil hacc]
    exact List.cons_ne_nil _ _
  induction ps generalizing acc with
  | nil => exact hflush
  | cons p ps ih =>
      cases p with
      | word data => exact List.append_ne_nil_of_left_ne_nil hflush _
      | bracket ch => exact List.append_ne_nil_of_left_ne_nil hflush _
      | space => exact List.append_ne_nil_of_left_ne_nil hflush _
      | symbol data =>
          have hne : acc ++ data.toList ≠ [] := List.append_ne_nil_of_left_ne_nil hacc _
          refine ih hne ?_
          rw [flush_of_ne_nil hne]
          exact List.cons_ne_nil _ _

/-- A type is at least one token. -/
theorem lexed_pieces_ne_nil (s : TypeSyntax) : lexed [] s.pieces ≠ [] := by
  cases s with
  | pointer element =>
      show lexed ([] ++ "*".toList) element.pieces ≠ []
      exact lexed_ne_nil (by decide) _
  | primitive p => exact List.cons_ne_nil _ _
  | inst name tyargs => exact List.cons_ne_nil _ _
  | array element => exact List.cons_ne_nil _ _
  | tuple first second rest => exact List.cons_ne_nil _ _
  | function args ret varargs => exact List.cons_ne_nil _ _

/-- The tokens of a written type are on one line, and there is always a result. -/
theorem tokenize_text (s : TypeSyntax) (path : Str) :
    ∃ tokens, tokenize (.ofFile (s.file path)) path s.text = .ok tokens ∧
      tokens.tokens.map Token.kind = lexed [] s.pieces ++ [(.line, [])] := by
  have hreadable := readable_pieces s
  refine tokenize_oneLine (plain_piecesText hreadable) (lexed_pieces_ne_nil s)
    (fun lines => lexes_pieces hreadable (List.forall_mem_nil _) 0) ?_
  rw [lexed_brackets]
  exact matched_pieces s

/-- The text of a type is read back: `parseType` returns the tree of the type, and
nothing is left but the newline at the end of the file. -/
def RoundTrips (path : Str) (s : TypeSyntax) : Prop :=
  ∃ tokens t j, tokenize (.ofFile (s.file path)) path s.text = .ok tokens ∧
    parseType (parseFuel tokens) ⟨.ofFile (s.file path), tokens⟩ 0 = .ok (t, j) ∧
    t.unlocated = s.tree ∧
    TokenStream.rest ⟨.ofFile (s.file path), tokens⟩ j = [(.line, [])]

/-- A run of `parseType` that leaves the newline only goes past a token at every
other index. -/
theorem allowed_of_rest {ts : TokenStream} {ks : List TokenKind} {n j : Nat} {t : TyTree}
    (hkinds : ts.tokens.tokens.map Token.kind = ks ++ [(.line, [])])
    (hrun : parseType n ts 0 = .ok (t, j)) (hrest : ts.rest j = [(.line, [])]) :
    ∀ x ∈ ks, x.Allowed := by
  intro x hx
  obtain ⟨k, hk, hget⟩ := List.getElem_of_mem hx
  have hlength : ts.tokens.tokens.length = ks.length + 1 := by
    rw [← List.length_map, hkinds, List.length_append]
    rfl
  have hdrop : ts.tokens.tokens.length - j = 1 := by
    rw [← List.length_drop, ← List.length_map, ← TokenStream.rest, hrest]
    rfl
  have hkind : (ts.tokenAt k).kind = x := by
    have hsome : (ts.tokens.tokens.map Token.kind)[k]? = some x := by
      rw [hkinds, List.getElem?_append_left hk, List.getElem?_eq_getElem hk, hget]
    rw [List.getElem?_map] at hsome
    obtain ⟨t', ht', heq⟩ := Option.map_eq_some_iff.mp hsome
    rw [TokenStream.tokenAt, List.getD_eq_getElem?_getD, ht']
    exact heq
  have hallowed := (parseType_goes n t j hrun).2 k (Nat.zero_le k) (by omega)
  rw [hkind] at hallowed
  exact hallowed

/-- In front of a type nothing touches it, so it is clear exactly if it is separated. -/
theorem clear_pieces_nil (s : TypeSyntax) :
    clear (decide (([] : Str) ≠ [])) s.pieces = s.separated := by
  have h := clear_pieces s false []
  rw [List.append_nil, Bool.false_and, Bool.not_false, Bool.and_true, clear, Bool.and_true] at h
  exact h

/-- A type that is read back is separated. Otherwise two pieces touch, so there is a token
that is not of the notation, and all the tokens were gone past by the parser. -/
theorem separated_of_roundTrips {path : Str} {s : TypeSyntax} (h : RoundTrips path s) :
    s.separated = true := by
  obtain ⟨tokens, htokens, hkinds⟩ := tokenize_text s path
  obtain ⟨tokens', t, j, htokens', hrun, -, hrest⟩ := h
  cases htokens.symm.trans htokens'
  by_contra hnot
  -- where pieces touch, one of the tokens is not of the notation
  have hclear : clear (decide (([] : Str) ≠ [])) s.pieces = false := by
    rw [clear_pieces_nil]
    exact Bool.eq_false_of_not_eq_true hnot
  obtain ⟨x, hx, hallowed⟩ :=
    lexed_of_not_clear (readable_pieces s).symbolsKnown (.inl rfl) hclear
  exact hallowed (allowed_of_rest hkinds hrun hrest x hx)

/-- A separated type is read back: the tokens are those that the pieces are meant to be,
and `parseType` reads these. -/
theorem roundTrips_of_separated (path : Str) {s : TypeSyntax} (h : s.separated = true) :
    RoundTrips path s := by
  obtain ⟨tokens, htokens, hkinds⟩ := tokenize_text s path
  have hlexed : lexed [] s.pieces = pieceTokens s.pieces :=
    lexed_of_clear (readable_pieces s).symbolsKnown ((clear_pieces_nil s).trans h)
  rw [hlexed] at hkinds
  have hfuel : (pieceTokens s.pieces).length ≤ parseFuel tokens := by
    have hlength : tokens.tokens.length = (pieceTokens s.pieces).length + 1 := by
      rw [← List.length_map, hkinds, List.length_append]
      rfl
    unfold parseFuel
    omega
  obtain ⟨t, j, hrun, hrest, ht⟩ := @parseType_reads ⟨.ofFile (s.file path), tokens⟩ s _ hfuel 0
    [(.line, [])] hkinds (by simp)
  exact ⟨tokens, t, j, htokens, hrun, ht, hrest⟩

/-- What is written is read back exactly if no two pieces of punctuation touch. -/
theorem typeText_roundTrips_iff (path : Str) (s : TypeSyntax) :
    RoundTrips path s ↔ s.separated = true :=
  ⟨separated_of_roundTrips, roundTrips_of_separated path⟩

/-- `**int` is not read back: the stars are one token. -/
theorem pointerToPointer_not_roundTrips :
    ¬ RoundTrips "a".toList (.pointer (.pointer (.primitive .integer))) := by
  intro h
  have hseparated := separated_of_roundTrips h
  revert hseparated
  decide

end Aike
