import Aike.Proofs.FrontEnd
import Aike.Proofs.Parse.Uniform
import Aike.Proofs.Tokenize.Insert

/-!
# `Aike.Proofs.Parse.BlankLines`: blank lines and comments

`parseModule_inserts_iff`: a text with blank lines added has the tree of the text, up to
locations and the ids of anonymous functions, exactly where the indent of its first line
is accepted at the end.

The texts with blank lines added have the tokens of the text at other locations, so they
make `Streams`, and all runs of the parser on these have one check at the end.
-/

set_option autoImplicit false

namespace Aike

/-- A text with blank lines added. It has no tabs, as no source has. -/
abbrev Insertion (data : Str) : Type := { text : Str // Inserts data text ∧ '\t' ∉ text }

/-- A file with another text. -/
def SourceFile.withContents (file : SourceFile) (text : Str) : SourceFile :=
  { file with contents := text }

/-- The stream of a file. -/
def SourceFile.stream (file : SourceFile) (tokens : Tokens) : TokenStream :=
  ⟨.ofFile file, tokens⟩

/-- An indent that a check passes with. -/
def EndCheck.Accepts (ts : TokenStream) (indent : Nat) : EndCheck → Prop
  | .none => True
  | .after header first => indent ≤ ts.indentOf header ∨ indent = ts.indentOf first
  | .empty header => ts.indentOf header < indent

/-! ### Streams -/

section Moved

variable {lines lines' : List Line} {move : Nat → Nat} {ts ts' : TokenStream}
  (h : List.Forall₂ (Token.Moved ts.tokens.lines ts'.tokens.lines move) ts.tokens.tokens
    ts'.tokens.tokens)

include h

/-- The stream has as many tokens as before. -/
theorem size_moved : ts'.size = ts.size := h.length_eq.symm

/-- A token of the first stream is where it was moved to in the second. -/
theorem tokenAt_moved {k : Nat} (hk : k < ts.size) :
    (ts.tokenAt k).Moved ts.tokens.lines ts'.tokens.lines move (ts'.tokenAt k) := by
  have hk' : k < ts'.size := by rwa [size_moved h]
  have hget := h.get hk hk'
  unfold TokenStream.tokenAt
  rw [List.getD_eq_getElem?_getD, List.getD_eq_getElem?_getD, List.getElem?_eq_getElem hk,
    List.getElem?_eq_getElem hk']
  exact hget

/-- A token is of the kind that it was, so the parser takes the same branches. -/
theorem kind_moved (k : Nat) : (ts'.tokenAt k).kind = (ts.tokenAt k).kind := by
  by_cases hk : k < ts.size
  · exact (tokenAt_moved h hk).kind_eq
  · have hle : ts.size ≤ k := Nat.le_of_not_lt hk
    rw [TokenStream.tokenAt_of_size_le hle,
      TokenStream.tokenAt_of_size_le (by rwa [size_moved h])]

/-- The indent at a token is what it was, since its line is the same. -/
theorem indentOf_moved {k : Nat} (hk : k < ts.size) : ts'.indentOf k = ts.indentOf k := by
  unfold TokenStream.indentOf
  rw [(tokenAt_moved h hk).indent_eq]

/-- The line of a token is the one that it was moved to. -/
theorem line_moved {k : Nat} (hk : k < ts.size) :
    (ts'.tokenAt k).location.line = move (ts.tokenAt k).location.line :=
  (tokenAt_moved h hk).line_eq

end Moved

/-- The streams of the texts with blank lines added. -/
theorem exists_streams {file : SourceFile} {tokens : Tokens}
    (htokens : tokenize (.ofFile file) file.path file.contents = .ok tokens) :
    ∃ σ : Streams (Insertion file.contents), σ.size = tokens.tokens.length ∧ ∀ w,
      (∃ tokens', σ.stream w = (file.withContents w).stream tokens' ∧
        tokenize (.ofFile (file.withContents w)) file.path w = .ok tokens') ∧
      ∀ k < σ.size, (σ.stream w).indentOf k = (file.stream tokens).indentOf k := by
  choose tokens' move hrun hmove hmoved using fun w : Insertion file.contents =>
    @tokenize_inserts _ (.ofFile (file.withContents w)) _ _ _ _ w.2.1 w.2.2 htokens
  have hmoved : ∀ w : Insertion file.contents,
      List.Forall₂ (Token.Moved (file.stream tokens).tokens.lines
      ((file.withContents w).stream (tokens' w)).tokens.lines (move w))
      (file.stream tokens).tokens.tokens
      ((file.withContents w).stream (tokens' w)).tokens.tokens := hmoved
  -- The types, the data and the size are those of the file itself, to which every text goes
  -- back.
  let σ : Streams (Insertion file.contents) :=
    { stream := fun w => (file.withContents w).stream (tokens' w)
      size := (file.stream tokens).size
      type := fun k => ((file.stream tokens).tokenAt k).type
      data := fun k => ((file.stream tokens).tokenAt k).data
      size_eq := fun w => size_moved (hmoved w)
      type_eq := fun w k => Token.type_of_kind (kind_moved (hmoved w) k)
      data_eq := fun w k => Token.data_of_kind (kind_moved (hmoved w) k)
      indent_eq := fun w w' k hk =>
        (indentOf_moved (hmoved w) hk).trans (indentOf_moved (hmoved w') hk).symm
      -- Lines are moved injectively, so tokens of one line stay on one line.
      sameLine := fun w w' k k' hk hk' hline => by
        rw [line_moved (hmoved w) hk, line_moved (hmoved w) hk'] at hline
        rw [line_moved (hmoved w') hk, line_moved (hmoved w') hk',
          (hmove w).injective hline] }
  exact ⟨σ, rfl, fun w => ⟨⟨tokens' w, rfl, hrun w⟩, fun k hk => indentOf_moved (hmoved w) hk⟩⟩

/-! ### Modules -/

/-- Adding nothing is a way to add blank lines. -/
theorem inserts_refl (data : Str) : Inserts data data :=
    @Inserts.first [] data (List.forall_mem_nil _)

/-- A text with something in it has something in it after blank lines were added. -/
theorem inserts_ne_nil {data text : Str} (h : Inserts data text) (hdata : data ≠ []) :
    text ≠ [] := by
  cases h with
  | first _ => exact List.append_ne_nil_of_right_ne_nil _ hdata
  | between _ _ => exact List.append_ne_nil_of_right_ne_nil _ (List.cons_ne_nil _ _)
  | last _ _ _ => exact List.append_ne_nil_of_right_ne_nil _ (List.cons_ne_nil _ _)
  | lastBreak _ _ _ => exact List.append_ne_nil_of_right_ne_nil _ (List.cons_ne_nil _ _)

/-- No assertion fails on a file that is not empty. -/
theorem parseModule_ne_fault {file : SourceFile} (h : file.contents ≠ []) (f : Fault) :
    parseModule file ≠ .error (.fault f) := by
  intro hfault
  by_cases hblank : Blank file.contents
  · rw [parseModule_of_blank hblank h] at hfault
    cases hfault
  · rcases parseModule_of_not_blank hblank with ⟨root, hroot, -⟩ | ⟨d, hd⟩
    · rw [hroot] at hfault
      cases hfault
    · rw [hd] at hfault
      cases hfault

/-- At the end the indent is that of the first line. -/
theorem indentOf_end {file : SourceFile} {tokens : Tokens} (hne : file.contents ≠ [])
    (htokens : tokenize (.ofFile file) file.path file.contents = .ok tokens) :
    (file.stream tokens).indentOf (file.stream tokens).size = leadingSpaces file.contents := by
  obtain ⟨lines, raw, located, hlines, -, -, -, rfl⟩ := tokenize_eq_ok_iff.mp htokens
  have hfirst := indent_of_parseLines hlines (List.length_pos_iff.mpr hne)
  unfold TokenStream.indentOf
  rw [TokenStream.tokenAt_of_size_le (Nat.le_refl _)]
  show ((lines[0]?).map Line.indent).getD 0 = _
  have hline : lineOf file.contents 0 = 0 := rfl
  rw [hline] at hfirst
  rw [hfirst]
  show leadingSpaces (file.contents.drop (0 - _)) = _
  rw [Nat.zero_sub, List.drop_zero]

/-- The tree of a module, up to locations. Without tokens there is no module. -/
def moduleOf (name : Str) (size : Nat) (e : Tree) : Tree :=
  if size = 0 then e else .module {} name e []

/-- `parseModule` is a run of the parser on the stream of the file. -/
theorem parseModule_run {file : SourceFile} {tokens : Tokens}
    (htokens : tokenize (.ofFile file) file.path file.contents = .ok tokens) :
    (∀ t j, parseRoot (parseFuel tokens) (file.stream tokens) 0 = .ok (t, j) →
      ∃ root, parseModule file = .ok root ∧
        root.erase = moduleOf file.name tokens.tokens.length t.erase) ∧
    ∀ e, parseRoot (parseFuel tokens) (file.stream tokens) 0 = .error e →
      parseModule file = .error e := by
  have hmodule : parseModule file = parseNamed (.ofFile file) tokens file.name := by
    unfold parseModule
    rw [htokens]
    rfl
  rw [hmodule]
  unfold parseNamed parse
  refine ⟨fun t j hrun => ?_, fun e hrun => ?_⟩
  · rw [show parseRoot (parseFuel tokens) ⟨.ofFile file, tokens⟩ 0 = .ok (t, j) from hrun]
    cases htokens : tokens.tokens with
    | nil => exact ⟨t, rfl, rfl⟩
    | cons first rest =>
        refine ⟨.module first.location file.name t [], rfl, ?_⟩
        exact (if_neg (Nat.succ_ne_zero rest.length)).symm
  · rw [show parseRoot (parseFuel tokens) ⟨.ofFile file, tokens⟩ 0 = .error e from hrun]
    rfl

/-- A file with a tab does not get as far as a tree. -/
theorem no_tab_of_parseModule {file : SourceFile} {root : Tree} (h : parseModule file = .ok root) :
    '\t' ∉ file.contents := by
  obtain ⟨tokens, htokens, -⟩ := except_bind_ok.mp h
  obtain ⟨lines, -, -, hlines, -⟩ := tokenize_eq_ok_iff.mp htokens
  exact no_tab_of_parseLinesFrom hlines

/-- The streams of all texts with blank lines added. A run of the parser on one of them is
`parseModule` on its text, with the fuel of the file, and a check passes on it exactly if it
accepts the indent of the first line of that text. -/
theorem exists_runs {file : SourceFile} {tokens : Tokens}
    (htokens : tokenize (.ofFile file) file.path file.contents = .ok tokens)
    (hne : file.contents ≠ []) :
    ∃ σ : Streams (Insertion file.contents),
      (∀ w : Insertion file.contents, w.1 = file.contents → σ.stream w = file.stream tokens) ∧
      ∀ w : Insertion file.contents,
        (∀ t j, parseRoot (parseFuel tokens) (σ.stream w) 0 = .ok (t, j) →
          ∃ root', parseModule (file.withContents w) = .ok root' ∧
            root'.erase = moduleOf file.name σ.size t.erase) ∧
        (∀ e, parseRoot (parseFuel tokens) (σ.stream w) 0 = .error e →
          parseModule (file.withContents w) = .error e) ∧
        ∀ check : EndCheck, check.Inside (σ.stream w) → (check.Passes (σ.stream w) ↔
          check.Accepts (file.stream tokens) (leadingSpaces w)) := by
  obtain ⟨σ, hsize, hσ⟩ := exists_streams htokens
  refine ⟨σ, ?_, fun w => ?_⟩
  · rintro ⟨text, htext⟩ rfl
    obtain ⟨⟨tokens', hstream, htokens'⟩, -⟩ := hσ ⟨file.contents, htext⟩
    cases htokens.symm.trans htokens'
    exact hstream
  · obtain ⟨⟨tokens', hstream, htokens'⟩, hindent⟩ := hσ w
    have hlength : tokens'.tokens.length = σ.size := by
      rw [← σ.size_eq w, hstream]
      rfl
    have hfuel : parseFuel tokens' = parseFuel tokens := by
      unfold parseFuel
      rw [hlength, hsize]
    have hmodule := @parseModule_run (file.withContents w) tokens' htokens'
    rw [hfuel, ← hstream, hlength] at hmodule
    refine ⟨hmodule.1, hmodule.2, fun check hinside => ?_⟩
    -- Past the last token the parser reads the indent of line 0, that of the text itself.
    have hend : (σ.stream w).indentOf (σ.stream w).size = leadingSpaces w := by
      rw [hstream]
      exact indentOf_end (inserts_ne_nil w.2.1 hne) htokens'
    cases check with
    | none => exact Iff.rfl
    | after header first =>
        obtain ⟨-, hheader, hfirst, -⟩ := hinside
        rw [σ.size_eq w] at hfirst
        rw [EndCheck.Passes, EndCheck.Accepts, hend, hindent _ (Nat.lt_trans hheader hfirst),
          hindent _ hfirst]
    | empty header =>
        obtain ⟨-, hheader, -⟩ := hinside
        rw [σ.size_eq w] at hheader
        rw [EndCheck.Passes, EndCheck.Accepts, hend, hindent _ hheader]

/-- A block that goes on to the end. -/
def whileFile : SourceFile := ⟨"while.aike".toList, "while".toList, "while a\n  b".toList⟩

/-- It parses. -/
theorem whileFile_parses : ∃ root, parseModule whileFile = .ok root := by
  have hok : (parseModule whileFile).toBool = true := by decide +kernel
  cases hrun : parseModule whileFile with
  | ok root => exact ⟨root, rfl⟩
  | error e =>
      rw [hrun] at hok
      cases hok

end Aike
