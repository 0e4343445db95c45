import Aike.Proofs.Codegen.Monad
import Aike.Proofs.Tokenize.Newlines

/-!
# `Aike.Proofs.Codegen.Assembly`: where errors of LLVM's parser are reported

`codegenFunctionLLVM_location`: for an error at a character of an inline body, the
reported offset is the one of this character if no declaration line was moved before
the header, and the reported line never is.

A character of a body is given by the lines before its line and its column. The
lines without the declaration lines are the body (`splitDeclarationsFromAssembly_eq`).
-/

set_option autoImplicit false

namespace Aike

open Lines

/-! ### The lines of a code -/

/-- A line that is moved before the header. -/
def isDeclaration (line : Str) : Bool := "declare ".toList.isPrefixOf (line.dropWhile (· = ' '))

/-- The lines that are left in the body. -/
def bodyLines (lines : List Str) : List Str := lines.filter fun line => !isDeclaration line

/-- A declaration line is not in the body. -/
theorem bodyLines_cons_pos {line : Str} (h : isDeclaration line = true) (lines : List Str) :
    bodyLines (line :: lines) = bodyLines lines :=
  List.filter_cons_of_neg (by rw [h]; exact Bool.false_ne_true)

/-- Any other line is the next one in the body. -/
theorem bodyLines_cons_neg {line : Str} (h : isDeclaration line = false) (lines : List Str) :
    bodyLines (line :: lines) = line :: bodyLines lines :=
  List.filter_cons_of_pos (by rw [h]; rfl)

/-- What the loop of `splitDeclarationsFromAssembly` does with a line. -/
def splitLine : Str × Str → Str → Str × Str
  | (decl, ir), line =>
      if isDeclaration line then (decl ++ line ++ ['\n'], ir) else (decl, ir ++ line ++ ['\n'])

/-- The loop appends each line, with a line break, to one of the two texts. The induction
is over the lines, from any texts that it has so far. -/
theorem foldl_splitLine (lines : List Str) (decl ir : Str) :
    lines.foldl splitLine (decl, ir) =
      (decl ++ unlines '\n' (lines.filter isDeclaration),
        ir ++ unlines '\n' (bodyLines lines)) := by
  induction lines generalizing decl ir with
  | nil =>
      show (decl, ir) = (decl ++ [], ir ++ [])
      rw [List.append_nil, List.append_nil]
  | cons line lines ih =>
      rw [List.foldl_cons, splitLine]
      cases hline : isDeclaration line with
      | true =>
          rw [if_pos rfl, ih, List.filter_cons_of_pos hline, bodyLines_cons_pos hline, unlines_cons,
            List.append_assoc, List.append_assoc, List.singleton_append]
      | false =>
          rw [if_neg Bool.false_ne_true, ih, List.filter_cons_of_neg (by simp [hline]),
            bodyLines_cons_neg hline, unlines_cons, List.append_assoc, List.append_assoc,
            List.singleton_append]

/-- The two texts are the declaration lines of the code and its other lines, each with a
line break. -/
theorem splitDeclarationsFromAssembly_eq (code : Str) :
    splitDeclarationsFromAssembly code =
      (unlines '\n' ((lines code).filter isDeclaration), unlines '\n' (bodyLines (lines code))) :=
  foldl_splitLine (lines code) [] []

/-- The lines of a code are the code, with a line break after the last one. -/
theorem prefix_unlines (code : Str) : code <+: unlines '\n' (lines code) := by
  have hunlines : unlines '\n' (code.splitOn '\n') = code ++ ['\n'] := unlines_splitOn code
  show code <+: unlines '\n'
    (if (code.splitOn '\n').getLast? = some [] then (code.splitOn '\n').dropLast
      else code.splitOn '\n')
  split
  case isTrue hlast =>
    obtain ⟨init, hinit⟩ := List.getLast?_eq_some_iff.mp hlast
    rw [hinit, unlines_append] at hunlines
    rw [hinit, List.dropLast_concat]
    exact ⟨[], by rw [List.append_nil, List.append_cancel_right hunlines]⟩
  case isFalse =>
    rw [hunlines]
    exact List.prefix_append _ _

/-- There is no line break within a line. -/
theorem not_mem_of_mem_lines {code line : Str} (h : line ∈ lines code) : '\n' ∉ line := by
  have hmem : line ∈ code.splitOn '\n' := by
    unfold lines at h
    dsimp only at h
    split at h
    · exact (List.dropLast_sublist _).subset h
    · exact h
  exact not_mem_of_mem_splitOn hmem
/-! ### Characters of the body -/

/-- A character of a code that is kept in the body: the lines before its line, and its
column. The line break at the end of a line is a character of it. -/
structure Kept (code : Str) (before : List Str) (column : Nat) : Prop where
  line : ∃ line after, lines code = before ++ line :: after ∧ isDeclaration line = false ∧
    column ≤ line.length
  lt : (unlines '\n' before).length + column < code.length

/-- The offset of a character in the code. -/
def codeOffset (before : List Str) (column : Nat) : Nat := (unlines '\n' before).length + column

/-- The offset of a character in the body. -/
def bodyOffset (before : List Str) (column : Nat) : Nat :=
  (unlines '\n' (bodyLines before)).length + column

/-- The lines before a line are split over the two texts, and none of their characters is
lost. It turns an offset in the code into one in the body. -/
theorem length_bodyLines (before : List Str) :
    (unlines '\n' (bodyLines before)).length +
      (unlines '\n' (before.filter isDeclaration)).length = (unlines '\n' before).length := by
  induction before with
  | nil => rfl
  | cons line before ih =>
      cases hline : isDeclaration line with
      | true =>
          rw [List.filter_cons_of_pos hline, bodyLines_cons_pos hline, unlines_cons, unlines_cons,
            List.length_append, List.length_append, List.length_cons, List.length_cons]
          omega
      | false =>
          rw [List.filter_cons_of_neg (by simp [hline]), bodyLines_cons_neg hline, unlines_cons,
            unlines_cons, List.length_append, List.length_append, List.length_cons,
            List.length_cons]
          omega

/-- No characters are written for no lines, and only for them. -/
theorem unlines_eq_nil_iff {lines : List Str} : unlines '\n' lines = [] ↔ lines = [] := by
  cases lines with
  | nil => exact iff_of_true rfl rfl
  | cons line lines =>
      rw [unlines_cons]
      exact iff_of_false (by simp) (List.cons_ne_nil _ _)

/-- The offsets of a character agree if no line before it was moved. -/
theorem bodyOffset_eq_iff {before : List Str} {column : Nat} :
    bodyOffset before column = codeOffset before column ↔
      ∀ line ∈ before, isDeclaration line = false := by
  have hlength := length_bodyLines before
  have hmoved : (unlines '\n' (before.filter isDeclaration)).length = 0 ↔
      ∀ line ∈ before, isDeclaration line = false := by
    rw [List.length_eq_zero_iff, unlines_eq_nil_iff, List.filter_eq_nil_iff]
    simp only [Bool.not_eq_true]
  rw [← hmoved, bodyOffset, codeOffset]
  omega

section

variable {code : Str} {before : List Str} {column : Nat}

/-- What LLVM's parser is given is the header, the lines of the body, and a closing brace. -/
theorem assemblyText_eq (fun_ : Function) (code : Str) :
    (assemblyText fun_ code).2 = (assemblyText fun_ code).1 ++
      unlines '\n' (bodyLines (lines code)) ++ "\n\x7d\n".toList := by
  rw [assemblyText, splitDeclarationsFromAssembly_eq]

/-- A character in the text and in the code: what stands before it in its line, and what
there is from it on. -/
theorem Kept.parts (h : Kept code before column) (fun_ : Function) :
    ∃ start ch textRest codeRest, start.length = column ∧ '\n' ∉ start ∧
      (assemblyText fun_ code).2 = ((assemblyText fun_ code).1 ++
        (unlines '\n' (bodyLines before) ++ start)) ++ ch :: textRest ∧
      code = (unlines '\n' before ++ start) ++ ch :: codeRest := by
  obtain ⟨line, after, hlines, hline, hcolumn⟩ := h.line
  have hfree : '\n' ∉ line :=
    @not_mem_of_mem_lines code line (hlines ▸ List.mem_append_right _ List.mem_cons_self)
  obtain ⟨ch, rest, hrest⟩ : ∃ ch rest, line.drop column ++ ['\n'] = ch :: rest :=
    List.exists_cons_of_ne_nil (List.append_ne_nil_of_right_ne_nil _ (List.cons_ne_nil _ _))
  -- The line and its break, cut at the column.
  have hsplit : line ++ ['\n'] = line.take column ++ ch :: rest := by
    rw [← hrest, ← List.append_assoc, List.take_append_drop]
  have hunlines : ∀ lines : List Str, unlines '\n' (line :: lines) =
      line.take column ++ ch :: (rest ++ unlines '\n' lines) := by
    intro lines
    rw [unlines, List.flatMap_cons, hsplit, List.append_assoc, List.cons_append]
    rfl
  have hlength : (line.take column).length = column := List.length_take_of_le hcolumn
  refine ⟨line.take column, ch, rest ++ unlines '\n' (bodyLines after) ++ "\n\x7d\n".toList, ?_⟩
  -- The text of the body has the line, after the lines before it that are no declarations.
  have htext : (assemblyText fun_ code).2 = ((assemblyText fun_ code).1 ++
      (unlines '\n' (bodyLines before) ++ line.take column)) ++
        ch :: (rest ++ unlines '\n' (bodyLines after) ++ "\n\x7d\n".toList) := by
    have hbody : bodyLines (lines code) = bodyLines before ++ line :: bodyLines after := by
      rw [hlines, bodyLines, List.filter_append]
      exact congrArg _ (bodyLines_cons_neg hline after)
    rw [assemblyText_eq, hbody, unlines_append, hunlines]
    simp only [List.append_assoc, List.cons_append]
  -- The code may end inside its last line, so it has the cut line up to the column only.
  have hprefix : unlines '\n' before ++ line.take column ++ [ch] <+: code := by
    refine List.prefix_of_prefix_length_le ?_ (prefix_unlines code) ?_
    · rw [hlines, unlines_append, hunlines]
      exact ⟨rest ++ unlines '\n' after, by simp only [List.append_assoc, List.singleton_append]⟩
    · rw [List.length_append, List.length_append, hlength]
      exact h.lt
  obtain ⟨codeRest, hcode⟩ := hprefix
  refine ⟨codeRest, hlength, fun hmem => hfree (List.mem_of_mem_take hmem), htext, ?_⟩
  rw [← hcode, List.append_assoc, List.singleton_append]

/-- The line breaks of the header are those of the declaration lines and two more. -/
theorem count_header (code : Str) (fun_ : Function) :
    ((lines code).filter isDeclaration).length + 2 ≤ (assemblyText fun_ code).1.count '\n' := by
  have hfree : ∀ line ∈ (lines code).filter isDeclaration, '\n' ∉ line :=
    fun line h => not_mem_of_mem_lines (List.mem_of_mem_filter h)
  have hend : ") \x7b\nentry:\n".toList.count '\n' = 2 := by decide
  rw [assemblyText, splitDeclarationsFromAssembly_eq]
  show _ ≤ List.count _ (_ ++ _)
  rw [List.count_append, hend]
  simp only [List.count_append, count_unlines hfree]
  omega

end

/-! ### Reported locations -/

/-- Where the error is in the body, no assertion fails, and the location is that of the
code, moved by the place of the error in the body. That is one character further than the
literal, for its opening quote. -/
theorem assemblyLocation_run {location : Location} {start : Nat} {err : SMDiagnostic}
    (hoffset : start ≤ err.offset) (hline : 2 ≤ err.lineNo) (cg : Codegen) :
    ∃ column, assemblyLocation location start err cg =
      .ok ({ location with
        offset := location.offset + 1 + (err.offset - start)
        length := (location.length + (2 ^ 64 - (err.offset - start) % 2 ^ 64)) % 2 ^ 64
        line := location.line + (err.lineNo - 2)
        column }, cg) := by
  refine ⟨if err.lineNo > 2 then err.columnNo - 1 else location.column, ?_⟩
  rw [assemblyLocation, if_pos hoffset, assert, if_pos hline]
  rfl

section

variable {output : Output} {source data : Str} {tokens : Tokens} {t : Token} {cx : CodegenContext}
  {cg : Codegen} {inst : InstanceFrame} {n : Node} {fun_ : Function} {err : SMDiagnostic}

/-- When LLVM's parser rejects the text, one diagnostic is reported at the location that
was found, and nothing else changes. -/
theorem codegenFunctionLLVM_run {code : Str} (hbody : inst.decl.body = some (.llvm n code))
    (hfun : cg.functions[inst.value]? = some fun_) {header text : Str}
    (htext : assemblyText fun_ code = (header, text))
    (herr : cx.parseAssemblyInto cg.functions text = .error err) {location : Location}
    (hlocation : assemblyLocation n.location header.length err cg = .ok (location, cg)) :
    codegenFunctionLLVM cx inst cg = .ok ((), { cg with
      output := cg.output ++ [⟨location, "Error parsing LLVM: ".toList ++ err.message⟩] }) := by
  unfold codegenFunctionLLVM
  rw [hbody]
  refine run_bind.mpr ⟨cg, cg, rfl, run_bind.mpr ⟨fun_, cg, run_assertSome.mpr ⟨hfun, rfl⟩, ?_⟩⟩
  rw [htext]
  refine run_bind.mpr ⟨cg, cg, rfl, ?_⟩
  rw [herr]
  exact run_bind.mpr ⟨location, cg, hlocation, rfl⟩

/-- An error of LLVM's parser at a character of the body is reported at the offset of
this character if no declaration line was moved before the header, and never at its
line. -/
theorem codegenFunctionLLVM_location (htokenize : tokenize output source data = .ok tokens)
    (ht : t ∈ tokens.tokens) (hstring : t.type = .string)
    (hbody : inst.decl.body = some (.llvm n t.data)) (hlocation : n.location = t.location)
    (hfun : cg.functions[inst.value]? = some fun_) {before : List Str} {column : Nat}
    (hkept : Kept t.data before column)
    (herr : cx.parseAssemblyInto cg.functions (assemblyText fun_ t.data).2 = .error err)
    (hoffset : err.offset =
      (assemblyText fun_ t.data).1.length + bodyOffset before column)
    (hline : err.lineNo = lineOf (assemblyText fun_ t.data).2 err.offset + 1) :
    ∃ location, codegenFunctionLLVM cx inst cg = .ok ((), { cg with
        output := cg.output ++ [⟨location, "Error parsing LLVM: ".toList ++ err.message⟩] }) ∧
      (assemblyText fun_ t.data).2[err.offset]? =
        data[t.offset + 1 + codeOffset before column]? ∧
      (location.offset = t.offset + 1 + codeOffset before column ↔
        ∀ line ∈ before, isDeclaration line = false) ∧
      location.line ≠ lineOf data (t.offset + 1 + codeOffset before column) := by
  obtain ⟨start, ch, textRest, codeRest, rfl, hstart, htext, hcode⟩ := hkept.parts fun_
  have hquote : t.quote = some '"' := by rw [Token.quote, hstring]
  obtain ⟨lead, after, hdata, hlead, hstartOffset, hstartLine⟩ :=
    tokenize_literal htokenize ht hquote
  obtain ⟨line, rest, hlines, -, -⟩ := hkept.line
  have hheader := count_header t.data fun_
  have hbefore : before.length = (before.filter isDeclaration).length + (bodyLines before).length :=
    List.length_eq_length_filter_add isDeclaration
  have hmoved : (before.filter isDeclaration).length ≤
      ((lines t.data).filter isDeclaration).length := by
    rw [hlines, List.filter_append, List.length_append]
    exact Nat.le_add_right _ _
  have hfree : ∀ line ∈ before, '\n' ∉ line := fun line h =>
    not_mem_of_mem_lines (hlines ▸ List.mem_append_left _ h)
  -- the place in the text
  have hplace : err.offset = ((assemblyText fun_ t.data).1 ++
      (unlines '\n' (bodyLines before) ++ start)).length := by
    rw [hoffset, bodyOffset, List.length_append, List.length_append]
  have hlineNo : err.lineNo =
      (assemblyText fun_ t.data).1.count '\n' + (bodyLines before).length + 1 := by
    have hbody : ∀ line ∈ bodyLines before, '\n' ∉ line := fun line h =>
      hfree line (List.mem_of_mem_filter h)
    rw [hline, htext, hplace, lineOf_append, List.count_append, List.count_append,
      count_unlines hbody, List.count_eq_zero.mpr hstart]
    rfl
  -- the place in the source
  have hsource : t.offset + 1 + codeOffset before start.length =
      (lead ++ '"' :: (unlines '\n' before ++ start)).length := by
    rw [hlead, codeOffset, List.length_append, List.length_cons, List.length_append]
    omega
  have hdata' : data =
      (lead ++ '"' :: (unlines '\n' before ++ start)) ++ ch :: (codeRest ++ after) := by
    rw [hdata, hcode]
    simp only [List.append_assoc, List.cons_append]
  have hsourceLine : lineOf data (t.offset + 1 + codeOffset before start.length) =
      lead.count '\n' + before.length := by
    rw [hsource, hdata', lineOf_append, List.count_append, List.count_cons_of_ne (by decide),
      List.count_append, count_unlines hfree, List.count_eq_zero.mpr hstart, Nat.add_zero]
  have hstartLine' : t.location.line = lead.count '\n' := by
    rw [hstartLine, hdata, hlead, lineOf_append]
  have hle : (assemblyText fun_ t.data).1.length ≤ err.offset := by
    rw [hoffset]
    exact Nat.le_add_right _ _
  obtain ⟨c, hrun⟩ := @assemblyLocation_run n.location _ err hle (by omega) cg
  refine ⟨_, codegenFunctionLLVM_run hbody hfun rfl herr hrun, ?_, ?_, ?_⟩
  · rw [hsource, hdata', hplace, htext, List.getElem?_append_right (Nat.le_refl _),
      List.getElem?_append_right (Nat.le_refl _), Nat.sub_self, Nat.sub_self]
    rfl
  · show n.location.offset + 1 + (err.offset - (assemblyText fun_ t.data).1.length) = _ ↔ _
    rw [← @bodyOffset_eq_iff before start.length, hlocation, hstartOffset, hoffset,
      Nat.add_sub_cancel_left]
    exact Nat.add_left_cancel_iff
  · show n.location.line + (err.lineNo - 2) ≠ _
    rw [hsourceLine, hlocation, hstartLine', hlineNo]
    omega

end

/-! ### A body with a declaration line -/

namespace OneDeclaration

/-- A file with a function whose body is a declaration line and a line of one character. -/
def data : Str :=
  "inline fn f(): int\n  llvm \"declare void @g()\nx\"\nf()\n()\n".toList

/-- The token of the literal. -/
def token : Token where
  type := .string
  data := "declare void @g()\nx".toList
  offset := 26
  dataOffset := 27
  location := { line := 1, column := 7, offset := 26, length := 20 }

/-- The function that code generation makes for `f`, in a module `m`. -/
def function : Function := { name := "_ZN1m1fEv".toList, ret := .int 32, params := [] }

/-- What LLVM's parser is given. -/
def text : Str := (assemblyText function token.data).2

/-- The offset of the first character of the body. -/
def start : Nat := (assemblyText function token.data).1.length

/-- What LLVM's parser says about the line: no instruction starts with `x`. -/
def error : SMDiagnostic :=
  ⟨start, lineOf text start + 1, 0, "expected instruction opcode".toList⟩

def frame : InstanceFrame where
  value := 0
  decl :=
    { node := ⟨0, {}⟩
      var := ⟨0, .function, "f".toList, {}, none⟩
      tyargs := []
      args := []
      attributes := { inline_ := true }
      body := some (.llvm ⟨1, token.location⟩ token.data) }

def context : CodegenContext where
  program := {}
  store := {}
  fuel := 0
  parseAssemblyInto := fun _ _ => .error error

def state : Codegen := { functions := [function] }

/-- The header comes after the line that is moved, and is two lines. -/
example :
    text = ("declare void @g()\ndefine internal i32 @llvm__ZN1m1fEv() \x7b\n" ++
      "entry:\nx\n\n\x7d\n").toList := by
  decide +kernel

/-- The literal is a token of the file. -/
theorem tokenize_data : ∃ tokens, tokenize {} [] data = .ok tokens ∧ token ∈ tokens.tokens := by
  refine ⟨(tokenize {} [] data).toOption.getD ⟨[], []⟩, ?_, ?_⟩ <;> decide +kernel

/-- The `x` is the first character of a line that is kept, behind the one that is moved. -/
theorem kept : Kept token.data ["declare void @g()".toList] 0 where
  line := ⟨"x".toList, [], by decide +kernel, by decide, Nat.zero_le _⟩
  lt := by decide

/-- The case of a body with one declaration line. -/
theorem codegenFunctionLLVM_location_declaration :
    ∃ location, codegenFunctionLLVM context frame state = .ok ((), { state with
        output := state.output ++ [⟨location, "Error parsing LLVM: ".toList ++ error.message⟩] }) ∧
      text[error.offset]? = data[token.offset + 1 + codeOffset ["declare void @g()".toList] 0]? ∧
      (location.offset = token.offset + 1 + codeOffset ["declare void @g()".toList] 0 ↔
        ∀ line ∈ ["declare void @g()".toList], isDeclaration line = false) ∧
      location.line ≠
        lineOf data (token.offset + 1 + codeOffset ["declare void @g()".toList] 0) := by
  obtain ⟨tokens, htokenize, ht⟩ := tokenize_data
  exact codegenFunctionLLVM_location htokenize ht rfl rfl rfl rfl kept rfl rfl rfl

/-- The reported line is one too many, the reported offset that of the first line, and
the reported column the one before the first. -/
theorem codegenFunctionLLVM_location_wrong :
    text[error.offset]? = some 'x' ∧ data[45]? = some 'x' ∧ lineOf data 45 = 2 ∧
      (codegenFunctionLLVM context frame state).map (fun r => r.2.output) =
        .ok [⟨⟨[], 3, -1, 27, 20⟩,
          "Error parsing LLVM: expected instruction opcode".toList⟩] := by
  decide +kernel

end OneDeclaration

end Aike
