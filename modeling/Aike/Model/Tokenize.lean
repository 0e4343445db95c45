import Aike.Model.Store

/-!
# `Aike.Model.Tokenize`: source texts and their tokens

The model of `compiler/tokenize.cpp`, and of `Output::panic`.

A text is the list of its characters, and an index into it is counted along. The
`data` of a token points into the text, so a token also keeps where it points
(`dataOffset`).

`Output::panic` prints a diagnostic and ends the program. In the model it ends
the run with `Stop.panic`.
-/

set_option autoImplicit false

namespace Aike

/-- What ends the front end without a result. -/
inductive Stop
  /-- `Output::panic`. -/
  | panic (d : Diagnostic)
  | fault (f : Fault)
  deriving DecidableEq, Repr, Inhabited

/-- `Output`: the texts of the sources it knows. -/
structure Output where
  sources : Str → Option Str := fun _ => none

/-- `Output::panic`. The line that it prints is in the text of the source. -/
def Output.panic {α : Type} (output : Output) (loc : Location) (message : Str) : Except Stop α :=
  match output.sources loc.source with
  | some contents =>
      if loc.offset + loc.length ≤ contents.length then .error (.panic ⟨loc, message⟩)
      else .error (.fault .assertion)
  | none => .error (.panic ⟨loc, message⟩)

/-- `assert`. -/
def assertThat (c : Prop) [Decidable c] : Except Stop Unit :=
  if c then .ok () else .error (.fault .assertion)

/-! ### Characters -/

/-- `inRange`. -/
def inRange (ch min max : Char) : Bool := min ≤ ch && ch ≤ max

/-- `isSpace`. -/
def isSpace (ch : Char) : Bool := ch = ' ' || ch = '\r' || ch = '\n'

/-- `isDigit`. -/
def isDigit (ch : Char) : Bool := inRange ch '0' '9'

/-- `isNumber`. -/
def isNumber (ch : Char) : Bool :=
  isDigit ch || ch = '_' || ch = '.' || ch = 'e' || ch = 'E' || ch = '+' || ch = '-'

/-- `isIdentStart`. -/
def isIdentStart (ch : Char) : Bool := inRange ch 'a' 'z' || inRange ch 'A' 'Z' || ch = '_'

/-- `isIdent`. -/
def isIdent (ch : Char) : Bool := isIdentStart ch || isDigit ch

/-- `isBracket`. -/
def isBracket (ch : Char) : Bool :=
  ch = '(' || ch = ')' || ch = '[' || ch = ']' || ch = '\x7b' || ch = '\x7d'

/-- `isAtom`. -/
def isAtom (ch : Char) : Bool :=
  ch = '!' ||
  ch = '$' || ch = '%' || ch = '&' ||
  ch = '*' || ch = '+' || ch = ',' || ch = '-' || ch = '.' || ch = '/' ||
  ch = ':' || ch = ';' || ch = '<' || ch = '=' || ch = '>' || ch = '?' || ch = '@' ||
  ch = '\\' || ch = '^' || ch = '\x60' || ch = '|' || ch = '~'

/-! ### Lines -/

/-- `Line`. -/
structure Line where
  indent : Nat
  offset : Nat
  deriving DecidableEq, Repr, Inhabited

/-- The message about a tab. -/
def tabMessage : Str := "Source files can't have tabs".toList

/-- The loops of `parseLines`, inside a line that starts at `start`: the indent
counted so far, whether it is still being scanned, the offset, and the text from
there on. `line` is `result.size`. -/
def parseLinesFrom (output : Output) (source : Str) :
    (line start indent : Nat) → (scanning : Bool) → (offset : Nat) → Str → Except Stop (List Line)
  | _, start, indent, _, offset, [] =>
      -- a text that ends after a newline has no line after it
      return if start < offset then [⟨indent, start⟩] else []
  | line, start, indent, scanning, offset, ch :: data =>
      if ch = '\n' then do
        let lines ← parseLinesFrom output source (line + 1) (offset + 1) 0 true (offset + 1) data
        return ⟨indent, start⟩ :: lines
      else if ch = '\t' then output.panic ⟨source, line, indent, offset, 1⟩ tabMessage
      else if scanning && ch = ' ' then
        parseLinesFrom output source line start (indent + 1) true (offset + 1) data
      else parseLinesFrom output source line start indent false (offset + 1) data

/-- `parseLines`. -/
def parseLines (output : Output) (source data : Str) : Except Stop (List Line) :=
  parseLinesFrom output source 0 0 0 true 0 data

/-- `getLocation`. The lines are sorted by their offsets, so the lower bound
is where the lines that start at the offset or before it end. -/
def getLocation (source : Str) (lines : List Line) (offset length : Nat) :
    Except Stop Location := do
  let upTo := lines.takeWhile fun line => line.offset ≤ offset
  match upTo.getLast? with
  | none => throw (.fault .assertion)
  | some line => return ⟨source, upTo.length - 1, offset - line.offset, offset, length⟩

/-! ### Tokens -/

/-- `Token::Type`. -/
inductive TokenType
  | atom
  | bracket
  | ident
  | string
  | character
  | number
  | line
  | «end»
  deriving DecidableEq, Repr, Inhabited

/-- `Token`. -/
structure Token where
  type : TokenType
  data : Str := []
  offset : Nat := 0
  dataOffset : Nat := 0
  location : Location := {}
  deriving DecidableEq, Repr, Inhabited

/-- `tokenName`, of a type. -/
def TokenType.tokenName : TokenType → Str
  | .atom => "atom".toList
  | .bracket => "bracket".toList
  | .ident => "identifier".toList
  | .string => "string".toList
  | .character => "character".toList
  | .number => "number".toList
  | .line => "newline".toList
  | .end => "end".toList

/-- `tokenName`. -/
def tokenName (token : Token) : Str :=
  if token.data ≠ [] then "'".toList ++ token.data ++ "'".toList else token.type.tokenName

/-- The message about a character that starts no token. -/
def unknownCharacterMessage (ch : Char) : Str :=
  "Unknown character ".toList ++
    if inRange ch '\x00' ' ' then (toString ch.toNat).toList else ['\'', ch, '\'']

/-- `scan`. -/
def scan (data : Str) (fn : Char → Bool) : Str := data.takeWhile fn

/-- The loop of `parseTokens`, from `offset` on. The first `skip` characters of
the text are part of what was read already: `offset` has moved past them. -/
def parseTokensFrom (output : Output) (source : Str) (lines : List Line) :
    (offset skip : Nat) → Str → Except Stop (List Token)
  | _, _, [] => return []
  | offset, skip + 1, _ :: data => parseTokensFrom output source lines (offset + 1) skip data
  | offset, 0, ch :: data =>
      if isSpace ch then parseTokensFrom output source lines (offset + 1) 0 data
      else if ch = '#' then
        parseTokensFrom output source lines (offset + 1) (scan data (· ≠ '\n')).length data
      else if isIdentStart ch then do
        let contents := scan (ch :: data) isIdent
        let tokens ← parseTokensFrom output source lines (offset + 1) (contents.length - 1) data
        return ⟨.ident, contents, offset, offset, {}⟩ :: tokens
      else if isDigit ch then do
        let contents := scan (ch :: data) isNumber
        let tokens ← parseTokensFrom output source lines (offset + 1) (contents.length - 1) data
        return ⟨.number, contents, offset, offset, {}⟩ :: tokens
      else if ch = '"' || ch = '\'' then do
        let contents := scan data (· ≠ ch)
        -- the terminator is skipped too, and at the end of the text `offset` goes beyond it
        let tokens ← parseTokensFrom output source lines (offset + 1) (contents.length + 1) data
        return ⟨if ch = '"' then .string else .character, contents, offset, offset + 1, {}⟩ ::
          tokens
      else if isBracket ch then do
        let tokens ← parseTokensFrom output source lines (offset + 1) 0 data
        return ⟨.bracket, [ch], offset, offset, {}⟩ :: tokens
      else if isAtom ch then do
        let contents := scan (ch :: data) isAtom
        let tokens ← parseTokensFrom output source lines (offset + 1) (contents.length - 1) data
        return ⟨.atom, contents, offset, offset, {}⟩ :: tokens
      else do
        let loc ← getLocation source lines offset 1
        output.panic loc (unknownCharacterMessage ch)

/-- `parseTokens`. -/
def parseTokens (output : Output) (source data : Str) (lines : List Line) :
    Except Stop (List Token) :=
  parseTokensFrom output source lines 0 0 data

/-- `getClosingBracket`. -/
def getClosingBracket («open» : Str) : Except Stop Str := do
  assertThat («open» = "\x7b".toList ∨ «open» = "(".toList ∨ «open» = "[".toList)
  return if «open» = "\x7b".toList then "\x7d".toList else if «open» = "(".toList then ")".toList
    else "]".toList

/-- The loop of `matchBrackets`, with the tokens of the open brackets, the
innermost first. -/
def matchBracketsFrom (output : Output) (brackets : List Token) :
    List Token → Except Stop (List Token)
  | [] => return brackets
  | t :: tokens =>
      if t.type = .bracket then
        if t.data = "\x7b".toList ∨ t.data = "(".toList ∨ t.data = "[".toList then
          matchBracketsFrom output (t :: brackets) tokens
        else
          match brackets with
          | [] => output.panic t.location ("Unmatched closing bracket ".toList ++ t.data)
          | «open» :: brackets => do
              let close ← getClosingBracket «open».data
              if t.data ≠ close then
                output.panic t.location
                  ("Mismatched closing bracket: expected ".toList ++ close ++
                    " to close bracket at (".toList ++
                    (toString («open».location.line + 1)).toList ++ ",".toList ++
                    (toString («open».location.column + 1)).toList ++ ")".toList)
              else matchBracketsFrom output brackets tokens
      else matchBracketsFrom output brackets tokens

/-- `matchBrackets`. -/
def matchBrackets (output : Output) (tokens : List Token) : Except Stop Unit := do
  match ← matchBracketsFrom output [] tokens with
  | [] => return ()
  | «open» :: _ => do
      let close ← getClosingBracket «open».data
      output.panic «open».location
        ("Unmatched opening bracket: expected ".toList ++ close ++
          " to close but found end of file".toList)

/-- `continueLine`. -/
def continueLine (token : Token) : Bool :=
  (token.type = .atom && token.data ≠ ">".toList) ||
  (token.type = .bracket &&
    (token.data = "(".toList || token.data = "[".toList || token.data = "\x7b".toList))

/-- `getLineToken`. -/
def getLineToken (pt : Token) : Token where
  type := .line
  offset := pt.offset + pt.data.length
  location :=
    { source := pt.location.source
      line := pt.location.line
      column := pt.location.column + pt.data.length
      offset := pt.location.offset + pt.data.length }

/-- The loop of `insertNewline`, after the token `last`. -/
def insertNewlineAfter (last : Token) : List Token → List Token
  | [] => [getLineToken last]
  | t :: tokens =>
      if last.location.line < t.location.line ∧ ¬ continueLine last then
        getLineToken last :: t :: insertNewlineAfter t tokens
      else t :: insertNewlineAfter t tokens

/-- `insertNewline`. -/
def insertNewline : List Token → List Token
  | [] => []
  | t :: tokens => t :: insertNewlineAfter t tokens

/-- `Tokens`. -/
structure Tokens where
  lines : List Line
  tokens : List Token
  deriving DecidableEq, Repr

/-- The loop of `tokenize` that gives the tokens their locations. `last` is where
the token before ends. -/
def locateTokens (source : Str) (lines : List Line) (last : Nat) :
    List Token → Except Stop (List Token)
  | [] => return []
  | t :: tokens => do
      let start := t.offset
      let «end» := t.dataOffset + t.data.length
      assertThat (start < «end»)
      assertThat (start ≥ last)
      let location ← getLocation source lines start («end» - start)
      let tokens ← locateTokens source lines «end» tokens
      return { t with location } :: tokens

/-- `tokenize`. -/
def tokenize (output : Output) (source data : Str) : Except Stop Tokens := do
  let lines ← parseLines output source data
  let tokens ← parseTokens output source data lines
  let tokens ← locateTokens source lines 0 tokens
  matchBrackets output tokens
  return ⟨lines, insertNewline tokens⟩

end Aike
