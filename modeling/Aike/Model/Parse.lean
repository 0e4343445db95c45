import Aike.Model.Tokenize
import Aike.Model.Tree

/-!
# `Aike.Model.Parse`: the parser

The model of `compiler/parse.cpp`. A `TokenStream` is what stays the same while
the parser runs, and the index of the next token is the state of `ParseM`.

The functions of the source call each other in a circle through `parseExpr`. Here
each of them takes the parser for expressions as an argument, and the circle is
closed at the end, where `parsePrimary` takes one unit of fuel for each nested
call. The loops take one for each iteration. `parseFuel` is enough for any stream.
-/

set_option autoImplicit false

namespace Aike

/-! ### Streams of tokens -/

/-- `kEnd`. -/
def kEnd : Token where
  type := .end

/-- `TokenStream`, without the index. -/
structure TokenStream where
  output : Output
  tokens : Tokens

/-- A function on a `TokenStream`: from an index to a result and another index. -/
def ParseM (α : Type) : Type := TokenStream → Nat → Except Stop (α × Nat)

namespace ParseM

variable {α β : Type}

instance : Monad ParseM where
  pure a := fun _ i => .ok (a, i)
  bind m k := fun ts i =>
    match m ts i with
    | .ok (a, j) => k a ts j
    | .error e => .error e

/-- A step that does not touch the stream. -/
def lift (m : Except Stop α) : ParseM α := fun _ i => m.map fun a => (a, i)

/-- The fuel is used up. -/
def outOfFuel : ParseM α := lift (.error (.fault .outOfFuel))

/-- `ts.output->panic`. -/
def panic (loc : Location) (message : Str) : ParseM α := fun ts _ => ts.output.panic loc message

/-- `panic`, under a condition. -/
def panicIf (c : Prop) [Decidable c] (loc : Location) (message : Str) : ParseM Unit :=
  if c then panic loc message else pure ()

end ParseM

namespace TokenStream

/-- The token at an index. -/
def tokenAt (ts : TokenStream) (i : Nat) : Token := ts.tokens.tokens.getD i kEnd

/-- `get`. -/
def get : ParseM Token := fun ts i => .ok (ts.tokenAt i, i)

/-- `get(1)`. -/
def getNext : ParseM Token := fun ts i => .ok (ts.tokenAt (i + 1), i)

/-- `get(-1)`. Before the first token the index wraps around. -/
def getPrev : ParseM Token := fun ts i => .ok (if i = 0 then kEnd else ts.tokenAt (i - 1), i)

/-- `index`. -/
def getIndex : ParseM Nat := fun _ i => .ok (i, i)

/-- `index--`. -/
def stepBack : ParseM Unit := fun _ i => .ok ((), i - 1)

/-- `is`, of a type. -/
def isType (type : TokenType) : ParseM Bool := fun ts i => .ok ((ts.tokenAt i).type = type, i)

/-- `is`, of a type and a text. -/
def is (type : TokenType) (data : String) : ParseM Bool := fun ts i =>
  .ok ((ts.tokenAt i).type = type && (ts.tokenAt i).data = data.toList, i)

/-- `move`. -/
def move : ParseM Unit := do
  ParseM.lift (assertThat (¬ (← isType .end)))
  fun _ i => .ok ((), i + 1)

/-- `expect`, of a type. -/
def expectType (type : TokenType) : ParseM Unit := do
  if ← isType type then return ()
  else
    let t ← get
    ParseM.panic t.location
      ("Expected ".toList ++ type.tokenName ++ ", got ".toList ++ tokenName t)

/-- `expect`, of a type and a text. -/
def expect (type : TokenType) (data : String) : ParseM Unit := do
  if ← is type data then return ()
  else
    let t ← get
    ParseM.panic t.location
      ("Expected '".toList ++ data.toList ++ "', got ".toList ++ tokenName t)

/-- `eat`, of a type. -/
def eatType (type : TokenType) : ParseM Token := do
  expectType type
  let result ← get
  move
  return result

/-- `eat`, of a type and a text. -/
def eat (type : TokenType) (data : String) : ParseM Unit := do
  expect type data
  move

end TokenStream

open TokenStream

/-- The constructor of `Location` that spans two locations. -/
def Location.span (lhs rhs : Location) : Except Stop Location := do
  assertThat (lhs.source = rhs.source)
  assertThat (lhs.offset + lhs.length ≤ rhs.offset)
  return { lhs with length := rhs.offset + rhs.length - lhs.offset }

/-- `getLineIndent`. -/
def getLineIndent (loc : Location) : ParseM Nat := fun ts i =>
  match ts.tokens.lines[loc.line]? with
  | none => .error (.fault .assertion)
  | some line => .ok (line.indent, i)

/-- The message about an indentation. -/
def invalidIndentation (expected : Str) (got : Nat) : Str :=
  "Invalid indentation: expected ".toList ++ expected ++ ", got ".toList ++ (toString got).toList

/-! ### Lists -/

section Lists

variable {α : Type}

/-- The comma after an item, which the last item may lack. -/
def eatComma (type : TokenType) (close : String) : ParseM Unit := do
  if ← is type close then return () else eat .atom ","

/-- The loop over items with commas between them, up to the token `close`. -/
def parseList (type : TokenType) (close : String) (item : ParseM α) : Nat → ParseM (List α)
  | 0 => ParseM.outOfFuel
  | fuel + 1 => do
      if ← is type close then return []
      let a ← item
      eatComma type close
      let as ← parseList type close item fuel
      return a :: as

/-- The loop over arguments with commas between them, up to `)` or `...`, which
makes the list `varargs`. -/
def parseArguments (item : ParseM α) : Nat → ParseM (List α × Bool)
  | 0 => ParseM.outOfFuel
  | fuel + 1 => do
      if ← is .bracket ")" then return ([], false)
      if ← is .atom "..." then
        move
        return ([], true)
      let a ← item
      eatComma .bracket ")"
      let (as, varargs) ← parseArguments item fuel
      return (a :: as, varargs)

/-- The newline after an item of `parseIndent`. A nested block may have consumed
it. -/
def eatNewline : ParseM Unit := do
  if ← isType .line then move
  else if (← getPrev).type ≠ .line then expectType .line
  else return ()

/-- Whether the next line ends the block. -/
def leavesIndent (indent : Option Location) (startIndent firstIndent : Nat) : ParseM Bool := do
  if indent.isSome then
    let t ← get
    let lineIndent ← getLineIndent t.location
    if lineIndent ≤ startIndent then return true
    else
      ParseM.panicIf (lineIndent ≠ firstIndent) t.location
        (invalidIndentation (toString firstIndent).toList lineIndent)
      return false
  else return false

/-- The loop of `parseIndent`. -/
def parseIndentFrom (indent : Option Location) (startIndent firstIndent : Nat) (f : ParseM α) :
    Nat → ParseM (List α)
  | 0 => ParseM.outOfFuel
  | fuel + 1 => do
      if ← isType .end then return []
      let a ← f
      if ← isType .end then return [a]
      eatNewline
      if ← leavesIndent indent startIndent firstIndent then return [a]
      let as ← parseIndentFrom indent startIndent firstIndent f fuel
      return a :: as

/-- The indent of the line that a block belongs to. -/
def getStartIndent (indent : Option Location) : ParseM Nat :=
  match indent with
  | some loc => getLineIndent loc
  | none => pure 0

/-- `parseIndent`, with what the calls of `f` return. -/
def parseIndent (indent : Option Location) (f : ParseM α) (fuel : Nat) : ParseM (List α) := do
  let startIndent ← getStartIndent indent
  let t ← get
  let firstIndent ← getLineIndent t.location
  ParseM.panicIf (indent.isSome ∧ firstIndent ≤ startIndent) t.location
    (invalidIndentation (">".toList ++ (toString startIndent).toList) firstIndent)
  parseIndentFrom indent startIndent firstIndent f fuel

end Lists

/-! ### Types -/

/-- `parseTypeArguments`. -/
def parseTypeArguments (parseType : ParseM TyTree) (fuel : Nat) : ParseM (List TyTree) := do
  if ← is .atom ".<" then
    eat .atom ".<"
    let args ← parseList .atom ">" parseType fuel
    eat .atom ">"
    return args
  else return []

/-- `parseType`. -/
def parseType : Nat → ParseM TyTree
  | 0 => ParseM.outOfFuel
  | fuel + 1 => do
      if ← is .ident "_" then
        move
        return .unknown
      else if ← is .ident "void" then
        move
        return .void
      else if ← is .ident "bool" then
        move
        return .bool
      else if ← is .ident "int" then
        move
        return .integer
      else if ← is .ident "float" then
        move
        return .float
      else if ← is .ident "string" then
        move
        return .string
      else if ← is .bracket "(" then
        eat .bracket "("
        let fields ← parseList .bracket ")" (parseType fuel) fuel
        eat .bracket ")"
        match fields with
        | [] => return .void
        | [field] => return field
        | fields => return .tuple fields
      else if ← is .bracket "[" then
        eat .bracket "["
        let element ← parseType fuel
        eat .bracket "]"
        return .array element
      else if ← is .atom "*" then
        move
        let element ← parseType fuel
        return .pointer element
      else if ← is .ident "fn" then
        move
        eat .bracket "("
        let (args, varargs) ← parseArguments (parseType fuel) fuel
        eat .bracket ")"
        eat .atom ":"
        let ret ← parseType fuel
        return .function args ret varargs
      else if ← isType .ident then
        let name ← eatType .ident
        let tysig ← parseTypeArguments (parseType fuel) fuel
        return .inst ⟨name.data, name.location⟩ tysig
      else
        let t ← get
        ParseM.panic t.location "Expected type".toList

/-- `parseTypeSignature`. -/
def parseTypeSignature (fuel : Nat) : ParseM (List Named) := do
  if ← is .atom "<" then
    eat .atom "<"
    let args ← parseList .atom ">" (do
      let name ← eatType .ident
      return ⟨name.data, name.location⟩) fuel
    eat .atom ">"
    return args
  else return []

/-- `parseTypeAscription`. -/
def parseTypeAscription (fuel : Nat) : ParseM TyTree := do
  if ← is .atom ":" then
    move
    parseType fuel
  else return .unknown

/-! ### Blocks and functions -/

section Expr

variable (parseExpr : ParseM Tree)

/-- `parseBlock`. -/
def parseBlock (indent : Option Location) (fuel : Nat) : ParseM Tree := do
  let body ← parseIndent indent parseExpr fuel
  return .block {} body

/-- The newline after the body of a construct. `parseBlock` reads the one after a
block, so that after an expression is read as well. -/
def skipNewline : ParseM Unit := do
  if ← isType .line then move else return ()

/-- `parseBlockExpr`. -/
def parseBlockExpr (indent : Option Location) (fuel : Nat) : ParseM Tree := do
  if ← isType .line then
    move
    parseBlock parseExpr indent fuel
  else
    let result ← parseExpr
    skipNewline
    return result

/-- `parseFnSignature`: the type of the function and its arguments. -/
def parseFnSignature (fuel : Nat) : ParseM (TyTree × List VarTree) := do
  eat .bracket "("
  let (args, varargs) ← parseArguments (do
    let argname ← eatType .ident
    let type ← parseTypeAscription fuel
    return ({ kind := .argument, name := argname.data, type, location := argname.location } :
      VarTree)) fuel
  eat .bracket ")"
  let ret ← parseTypeAscription fuel
  return (.function (args.map VarTree.type) ret varargs, args)

/-- `parseFn`. -/
def parseFn (fuel : Nat) : ParseM Tree := do
  let start ← get
  eat .ident "fn"
  let sig ← parseFnSignature fuel
  let body ← parseBlockExpr parseExpr (some start.location) fuel
  let decl := .fnDecl start.location
    { kind := .function, name := [], type := sig.1, location := start.location } [] sig.2
    {} (some body)
  let index ← getIndex
  return .fn start.location index decl

/-- `parseFnBody`. -/
def parseFnBody (indent : Option Location) (fuel : Nat) : ParseM Tree := do
  let _ ← eatType .line
  if ← is .ident "llvm" then
    move
    let code ← eatType .string
    return .llvm code.location code.data
  else parseBlock parseExpr indent fuel

/-- An attribute of a function: whether its word is there. -/
def parseAttribute (word : String) : ParseM Bool := do
  if ← is .ident word then
    move
    return true
  else return false

/-- The body of a named function, unless it is implicit. -/
def parseFnDeclBody (bodyImplicit : Bool) (indent : Option Location) (fuel : Nat) :
    ParseM (Option Tree) := do
  if bodyImplicit then return none
  else
    let body ← parseFnBody parseExpr indent fuel
    return some body

/-- `parseFnDecl`. -/
def parseFnDecl (fuel : Nat) : ParseM Tree := do
  let indent ← get
  let inline_ ← parseAttribute "inline"
  let extern_ ← parseAttribute "extern"
  let builtin ← parseAttribute "builtin"
  eat .ident "fn"
  let name ← eatType .ident
  let tysig ← parseTypeSignature fuel
  let sig ← parseFnSignature fuel
  let body ← parseFnDeclBody parseExpr (extern_ || builtin) (some indent.location) fuel
  return .fnDecl {}
    { kind := .function, name := name.data, type := sig.1, location := name.location } tysig sig.2
    { extern_, builtin, inline_ } body

/-! ### Declarations -/

/-- `parseVarDecl`. -/
def parseVarDecl (fuel : Nat) : ParseM Tree := do
  eat .ident "var"
  let name ← eatType .ident
  let type ← parseTypeAscription fuel
  eat .atom "="
  let expr ← parseExpr
  return .varDecl {} { kind := .variable, name := name.data, type, location := name.location } expr

/-- The loop over the names of the fields that a line declares. -/
def parseFieldNames : Nat → ParseM (List Named)
  | 0 => ParseM.outOfFuel
  | fuel + 1 => do
      let name ← eatType .ident
      if ← is .atom "," then
        move
        let names ← parseFieldNames fuel
        return ⟨name.data, name.location⟩ :: names
      else return [⟨name.data, name.location⟩]

/-- The fields that a line of a struct declares. -/
def parseFieldLine (fuel : Nat) : ParseM (List Named × TyTree × Option Tree) := do
  let fnames ← parseFieldNames fuel
  eat .atom ":"
  let ty ← parseType fuel
  if ← is .atom "=" then
    move
    let expr ← parseExpr
    return (fnames, ty, some expr)
  else return (fnames, ty, none)

/-- `parseStructDecl`. -/
def parseStructDecl (fuel : Nat) : ParseM Tree := do
  let indent ← get
  eat .ident "struct"
  let name ← eatType .ident
  let tysig ← parseTypeSignature fuel
  let _ ← eatType .line
  let fields ← parseIndent (some indent.location) (parseFieldLine parseExpr fuel) fuel
  return .tyDecl name.location name.data tysig fields

/-- The loop of `parseImport`: the path and where it is written. -/
def parseImportPath (path : Str) (location : Location) : Nat → ParseM (Str × Location)
  | 0 => ParseM.outOfFuel
  | fuel + 1 => do
      if (← is .atom ".") ∧ (← get).location.line = location.line then
        move
        let name ← eatType .ident
        let location ← ParseM.lift (location.span name.location)
        parseImportPath (path ++ ".".toList ++ name.data) location fuel
      else return (path, location)

/-- `parseImport`. -/
def parseImport (fuel : Nat) : ParseM Tree := do
  eat .ident "import"
  let start ← eatType .ident
  let (path, location) ← parseImportPath start.data start.location fuel
  return .import location path

/-! ### Calls, members and statements -/

/-- `parseCall`. -/
def parseCall (expr : Tree) (start : Location) (self : Option Tree) (fuel : Nat) : ParseM Tree := do
  eat .bracket "("
  let args ← parseList .bracket ")" parseExpr fuel
  let «end» ← get
  eat .bracket ")"
  let location ← ParseM.lift (start.span «end».location)
  return .call location expr (self.toList ++ args)

/-- `parseIndex`. -/
def parseIndex (expr : Tree) : ParseM Tree := do
  let start ← get
  eat .bracket "["
  let index ← parseExpr
  eat .bracket "]"
  return .index start.location expr index

/-- `parseIdent`. -/
def parseIdent (fuel : Nat) : ParseM Tree := do
  let name ← eatType .ident
  let tyargs ← parseTypeArguments (parseType fuel) fuel
  return .ident name.location name.data tyargs

/-- `parseMember`. -/
def parseMember (expr : Tree) (fuel : Nat) : ParseM Tree := do
  eat .atom "."
  let name ← eatType .ident
  if (← is .bracket "(") || (← is .atom ".<") then
    -- backtrack so that we can reuse parseIdent
    stepBack
    let member ← parseIdent fuel
    parseCall parseExpr member name.location (some expr) fuel
  else return .member name.location expr ⟨name.data, name.location⟩

/-- `parseAssign`. -/
def parseAssign (expr : Tree) : ParseM Tree := do
  let t ← get
  eat .atom "="
  let value ← parseExpr
  return .assign t.location expr value

/-- The check that an `else` is indented like its `if`. -/
def checkElse (start : Location) : ParseM Unit := do
  let t ← get
  let ifIndent ← getLineIndent start
  let elseIndent ← getLineIndent t.location
  ParseM.panicIf (ifIndent ≠ elseIndent) t.location
    (invalidIndentation (toString ifIndent).toList elseIndent)

/-- `parseIf`. -/
def parseIf (fuel : Nat) : ParseM Tree := do
  let start ← get
  eat .ident "if"
  let cond ← parseExpr
  let thenbody ← parseBlockExpr parseExpr (some start.location) fuel
  if ← is .ident "else" then
    checkElse start.location
    let _ ← eatType .ident
    let elsebody ← parseBlockExpr parseExpr (some start.location) fuel
    return .ifElse start.location cond thenbody elsebody
  else return .ifThen start.location cond thenbody

/-- The index variable of `for`, if there is one. -/
def parseForIndex : ParseM (Option VarTree) := do
  if ← is .atom "," then
    move
    let name ← eatType .ident
    return some { kind := .value, name := name.data, type := .unknown, location := name.location }
  else return none

/-- `parseFor`. -/
def parseFor (fuel : Nat) : ParseM Tree := do
  let start ← get
  eat .ident "for"
  let name ← eatType .ident
  let var := { kind := .variable, name := name.data, type := .unknown, location := name.location }
  let index ← parseForIndex
  eat .ident "in"
  let expr ← parseExpr
  let body ← parseBlockExpr parseExpr (some start.location) fuel
  return .forIn start.location var index expr body

/-- `parseWhile`. -/
def parseWhile (fuel : Nat) : ParseM Tree := do
  let start ← get
  eat .ident "while"
  let expr ← parseExpr
  let body ← parseBlockExpr parseExpr (some start.location) fuel
  return .while start.location expr body

/-! ### Literals -/

/-- `parseLiteralArray`. -/
def parseLiteralArray (fuel : Nat) : ParseM Tree := do
  let start ← get
  eat .bracket "["
  let elements ← parseList .bracket "]" parseExpr fuel
  eat .bracket "]"
  return .literalArray start.location elements

/-- A field of a struct literal. -/
def parseLiteralField : ParseM (Named × Tree) := do
  let fname ← eatType .ident
  if ← is .atom "=" then
    move
    let expr ← parseExpr
    return (⟨fname.data, fname.location⟩, expr)
  else return (⟨fname.data, fname.location⟩, .ident fname.location fname.data [])

/-- The name of the struct and its type arguments, if they are there. -/
def parseLiteralName (fuel : Nat) : ParseM (Option TyTree × Str) := do
  if ← isType .ident then
    let name ← eatType .ident
    let tyargs ← parseTypeArguments (parseType fuel) fuel
    return (some (.inst ⟨name.data, name.location⟩ tyargs), name.data)
  else return (none, [])

/-- `parseLiteralStruct`. -/
def parseLiteralStruct (fuel : Nat) : ParseM Tree := do
  let start ← get
  let (ty, name) ← parseLiteralName fuel
  eat .bracket "\x7b"
  let fields ← parseList .bracket "\x7d" (parseLiteralField parseExpr) fuel
  eat .bracket "\x7d"
  return .literalStruct start.location ty name fields

/-- The parenthesised case of `parseTerm`. -/
def parseParens (fuel : Nat) : ParseM Tree := do
  let start ← get
  move
  let fields ← parseList .bracket ")" parseExpr fuel
  let «end» ← get
  eat .bracket ")"
  match fields with
  | [] => return .literalVoid (← ParseM.lift (start.location.span «end».location))
  | [field] => return field
  | fields => return .literalTuple (← ParseM.lift (start.location.span «end».location)) fields

end Expr

/-- The value of a string of decimal digits. -/
def digitsValue (digits : Str) : Nat :=
  digits.foldl (fun n ch => 10 * n + (ch.toNat - '0'.toNat)) 0

/-- `strtoll` on a text that starts with a digit, when it reads all of it: the
value, or nothing for `ERANGE`. -/
def strtollLiteral (contents : Str) : Option (Option Int) :=
  if contents.all isDigit then
    some (if digitsValue contents ≤ 0x7fffffffffffffff then some (digitsValue contents) else none)
  else none

/-- The exponent at the end of a floating-point literal. -/
def exponentValue : Str → Option Int
  | [] => some 0
  | ch :: rest =>
      if ch = 'e' ∨ ch = 'E' then
        match rest with
        | '-' :: digits =>
            if digits ≠ [] ∧ digits.all isDigit then some (-(digitsValue digits : Int)) else none
        | '+' :: digits =>
            if digits ≠ [] ∧ digits.all isDigit then some (digitsValue digits) else none
        | digits => if digits ≠ [] ∧ digits.all isDigit then some (digitsValue digits) else none
      else none

/-- The mantissa and the power of ten of a floating-point literal that starts
with a digit. -/
def decimalValue (contents : Str) : Option (Nat × Int) :=
  let whole := contents.takeWhile isDigit
  match contents.drop whole.length with
  | '.' :: rest =>
      let fraction := rest.takeWhile isDigit
      (exponentValue (rest.drop fraction.length)).map fun e =>
        (digitsValue (whole ++ fraction), e - fraction.length)
  | rest => (exponentValue rest).map fun e => (digitsValue whole, e)

/-- `num / den`, rounded half to even. -/
def divideRounded (num den : Nat) : Nat :=
  let q := num / den
  let r := num % den
  if 2 * r < den then q else if 2 * r > den then q + 1 else q + q % 2

/-- The `double` next to `num / den`: its bits, or nothing where `strtod` sets
`ERANGE`, that is beyond the greatest double and for what is inexact below the
least normal one. -/
def roundToDouble (num den : Nat) : Option (BitVec 64) :=
  if num = 0 then some 0
  else
    -- the quotient is between 2 ^ (scale - 1) and 2 ^ (scale + 1)
    let scale := (Nat.log2 num : Int) - Nat.log2 den
    let exponentOf (e : Int) := max e (-1074)
    let mantissaAt (e : Int) :=
      if 0 ≤ e then divideRounded num (den <<< e.toNat)
      else divideRounded (num <<< (-e).toNat) den
    let first := exponentOf (scale - 53)
    let e := if mantissaAt first < 1 <<< 53 then first else exponentOf (scale - 52)
    let mantissa := mantissaAt e
    let (e, mantissa) := if mantissa = 1 <<< 53 then (e + 1, 1 <<< 52) else (e, mantissa)
    if e > 971 then none
    else if mantissa < 1 <<< 52 then
      if (num <<< 1074) % den = 0 then some (BitVec.ofNat 64 mantissa) else none
    else some (BitVec.ofNat 64 (((e + 1075).toNat <<< 52) + (mantissa - 1 <<< 52)))

/-- `strtod` on a text that starts with a digit, when it reads all of it: the
bits of the value, or nothing for `ERANGE`. -/
def strtod (contents : Str) : Option (Option (BitVec 64)) :=
  (decimalValue contents).map fun (mantissa, e) =>
    if 0 ≤ e then roundToDouble (mantissa * Nat.pow 10 e.toNat) 1
    else roundToDouble mantissa (Nat.pow 10 (-e).toNat)

/-- `parseNumber`. -/
def parseNumber : ParseM Tree := do
  let value ← eatType .number
  match strtollLiteral value.data with
  | some (some valueInteger) => return .literalInteger value.location valueInteger
  | some none =>
      ParseM.panic value.location
        ("Invalid integer literal '".toList ++ value.data ++ "'".toList)
  | none =>
      match strtod value.data with
      | some (some valueDouble) => return .literalFloat value.location valueDouble
      | some none =>
          ParseM.panic value.location
            ("Invalid floating-point literal '".toList ++ value.data ++ "'".toList)
      | none =>
          ParseM.panic value.location
            ("Invalid number literal '".toList ++ value.data ++ "'".toList)

/-- `parseTerm`. -/
def parseTerm (parseExpr : ParseM Tree) (fuel : Nat) : ParseM Tree := do
  if ← is .ident "true" then
    let value ← eatType .ident
    return .literalBool value.location true
  else if ← is .ident "false" then
    let value ← eatType .ident
    return .literalBool value.location false
  else if ← isType .number then parseNumber
  else if ← isType .string then
    let value ← eatType .string
    return .literalString value.location value.data
  else if (← is .bracket "\x7b") || ((← isType .ident) && (← getNext).type = .bracket &&
      (← getNext).data = "\x7b".toList) then
    parseLiteralStruct parseExpr fuel
  else if ← is .bracket "[" then parseLiteralArray parseExpr fuel
  else if ← isType .ident then parseIdent fuel
  else if ← is .bracket "(" then parseParens parseExpr fuel
  else
    let t ← get
    ParseM.panic t.location ("Unexpected token ".toList ++ tokenName t)

/-! ### Operators -/

/-- `OpDef`. -/
structure OpDef (Op : Type) where
  priority : Nat
  op : Op
  opname : Option Str

/-- The rows of `parseUnaryOp`. -/
def unaryOps : List (TokenType × String × OpDef UnaryOp) :=
  [(.atom, "+", ⟨1, .plus, some "operatorPlus".toList⟩),
   (.atom, "-", ⟨1, .minus, some "operatorMinus".toList⟩),
   (.ident, "not", ⟨1, .not, none⟩),
   (.atom, "*", ⟨1, .deref, none⟩),
   (.ident, "new", ⟨1, .new, none⟩)]

/-- The rows of `parseBinaryOp`. -/
def binaryOps : List (TokenType × String × OpDef BinaryOp) :=
  [(.atom, "*%", ⟨7, .multiplyWrap, some "operatorMultiplyWrap".toList⟩),
   (.atom, "*", ⟨7, .multiply, some "operatorMultiply".toList⟩),
   (.atom, "/", ⟨7, .divide, some "operatorDivide".toList⟩),
   (.atom, "%", ⟨7, .modulo, some "operatorModulo".toList⟩),
   (.atom, "+%", ⟨6, .addWrap, some "operatorAddWrap".toList⟩),
   (.atom, "+", ⟨6, .add, some "operatorAdd".toList⟩),
   (.atom, "-%", ⟨6, .subtractWrap, some "operatorSubtractWrap".toList⟩),
   (.atom, "-", ⟨6, .subtract, some "operatorSubtract".toList⟩),
   (.atom, "<", ⟨5, .less, some "operatorLess".toList⟩),
   (.atom, "<=", ⟨5, .lessEqual, some "operatorLessEqual".toList⟩),
   (.atom, ">", ⟨5, .greater, some "operatorGreater".toList⟩),
   (.atom, ">=", ⟨5, .greaterEqual, some "operatorGreaterEqual".toList⟩),
   (.atom, "==", ⟨4, .equal, some "operatorEqual".toList⟩),
   (.atom, "!=", ⟨4, .notEqual, some "operatorNotEqual".toList⟩),
   (.ident, "and", ⟨3, .and, none⟩),
   (.ident, "or", ⟨2, .or, none⟩)]

/-- The first row that a token is in. -/
def findOp {Op : Type} (rows : List (TokenType × String × OpDef Op)) (otherwise : OpDef Op)
    (t : Token) : OpDef Op :=
  match rows.find? fun row => t.type = row.1 && t.data = row.2.1.toList with
  | some row => row.2.2
  | none => otherwise

/-- `parseUnaryOp`. -/
def parseUnaryOp : ParseM (OpDef UnaryOp) := do
  return findOp unaryOps ⟨0, .not, none⟩ (← get)

/-- `parseBinaryOp`. -/
def parseBinaryOp : ParseM (OpDef BinaryOp) := do
  return findOp binaryOps ⟨0, .or, none⟩ (← get)

/-- `lowerUnaryOp`. -/
def lowerUnaryOp (uop : OpDef UnaryOp) (expr : Tree) (location : Location) : Tree :=
  match uop.opname with
  | some opname => .call location (.ident location opname []) [expr]
  | none => .unary location uop.op expr

/-- `lowerBinaryOp`. -/
def lowerBinaryOp (bop : OpDef BinaryOp) (left right : Tree) (location : Location) : Tree :=
  match bop.opname with
  | some opname => .call location (.ident location opname []) [left, right]
  | none => .binary location bop.op left right

/-! ### Expressions -/

/-- The loop of `parsePrimary` after a term that starts at `start`. -/
def parsePostfix (parseExpr : ParseM Tree) (start : Location) (term : Tree) : Nat → ParseM Tree
  | 0 => ParseM.outOfFuel
  | fuel + 1 => do
      if ← is .bracket "(" then
        let term ← parseCall parseExpr term start none fuel
        parsePostfix parseExpr start term fuel
      else if ← is .bracket "[" then
        let term ← parseIndex parseExpr term
        parsePostfix parseExpr start term fuel
      else if ← is .atom "." then
        let term ← parseMember parseExpr term fuel
        parsePostfix parseExpr start term fuel
      else return term

/-- The end of `parsePrimary`, where no keyword starts the expression. -/
def parseTermPrimary (parseExpr : ParseM Tree) (fuel : Nat) : ParseM Tree := do
  let start ← get
  let term ← parseTerm parseExpr fuel
  let term ← parsePostfix parseExpr start.location term fuel
  if ← is .atom "=" then parseAssign parseExpr term
  else return term

/-- `parsePrimary`, after the unary operators. -/
def parseKeyword (parseExpr : ParseM Tree) (fuel : Nat) : ParseM Tree := do
  if (← is .ident "extern") || (← is .ident "builtin") || (← is .ident "inline") then
    parseFnDecl parseExpr fuel
  else if ← is .ident "fn" then
    if (← getNext).type = .ident then parseFnDecl parseExpr fuel else parseFn parseExpr fuel
  else if ← is .ident "var" then parseVarDecl parseExpr fuel
  else if ← is .ident "struct" then parseStructDecl parseExpr fuel
  else if ← is .ident "import" then parseImport fuel
  else if ← is .ident "if" then parseIf parseExpr fuel
  else if ← is .ident "for" then parseFor parseExpr fuel
  else if ← is .ident "while" then parseWhile parseExpr fuel
  else parseTermPrimary parseExpr fuel

mutual

/-- `parsePrimary`. -/
def parsePrimary : Nat → ParseM Tree
  | 0 => ParseM.outOfFuel
  | fuel + 1 => do
      let uop ← parseUnaryOp
      if uop.priority ≠ 0 then
        let start ← get
        move
        let expr ← parsePrimary fuel
        return lowerUnaryOp uop expr start.location
      else parseKeyword (parseExpr fuel) fuel

/-- The inner loop of `parseExprClimb`: what is to the right of an operator. -/
def parseExprRight (priority : Nat) : Nat → Tree → ParseM Tree
  | 0, _ => ParseM.outOfFuel
  | fuel + 1, right => do
      let nextop ← parseBinaryOp
      if nextop.priority ≠ 0 ∧ nextop.priority > priority then
        let right ← parseExprClimb nextop.priority fuel right
        parseExprRight priority fuel right
      else return right

/-- `parseExprClimb`. -/
def parseExprClimb (limit : Nat) : Nat → Tree → ParseM Tree
  | 0, _ => ParseM.outOfFuel
  | fuel + 1, left => do
      let op ← parseBinaryOp
      if op.priority ≠ 0 ∧ op.priority ≥ limit then
        let start ← get
        move
        let right ← parsePrimary fuel
        let right ← parseExprRight op.priority fuel right
        parseExprClimb limit fuel (lowerBinaryOp op left right start.location)
      else return left

/-- `parseExpr`. -/
def parseExpr : Nat → ParseM Tree
  | 0 => ParseM.outOfFuel
  | fuel + 1 => do
      let left ← parsePrimary fuel
      parseExprClimb 0 fuel left

end

/-! ### Modules -/

/-- As much fuel as there can be nested calls on a stream. -/
def parseFuel (tokens : Tokens) : Nat := 4 * tokens.tokens.length + 8

/-- `parse`, on the stream. -/
def parseRoot (fuel : Nat) : ParseM Tree := do
  let result ← parseBlock (parseExpr fuel) none fuel
  expectType .end
  return result

/-- `parse`. -/
def parse (output : Output) (tokens : Tokens) : Except Stop Tree :=
  (parseRoot (parseFuel tokens) ⟨output, tokens⟩ 0).map Prod.fst

/-- `parse`, of a module. -/
def parseNamed (output : Output) (tokens : Tokens) (moduleName : Str) : Except Stop Tree := do
  let result ← parse output tokens
  match tokens.tokens with
  | [] => return result
  | t :: _ => return .module t.location moduleName result []

end Aike
