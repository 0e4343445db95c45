import Aike.Lib.Calls
import Aike.Model.Parse

/-!
# `Aike.Proofs.Parse.Calls`: which functions of the parser call which

`Call` has a constructor for each function of the parser and for each of its loops,
with the arguments of the Lean definition: `m` is the fuel of `parseExpr` and `n` that
of the loops. `Call.body` is the text of these definitions, with every call of another
function, every turn of a loop and every `move` left to a handler, and `Call.run`
is the parser itself. `Call.body_run` says that the two agree: answered by the parser, the bodies
are the parser.
-/

set_option autoImplicit false

namespace Aike

open TokenStream Calls

/-- The functions and the loops of the parser. -/
inductive ParseFn
  | move | parseList | parseArguments | parseIndentFrom | parseIndent | parseTypeArguments
  | parseType | typeParameter | parseTypeSignature | parseTypeAscription | parseBlock
  | parseBlockExpr | argument | parseFnSignature | parseFn | parseFnBody | parseFnDecl
  | parseVarDecl | parseFieldNames | parseFieldLine | parseStructDecl | parseImportPath
  | parseImport | parseCall | parseIndex | parseIdent | parseMember | parseAssign | parseIf
  | parseFor | parseWhile | parseLiteralArray | parseLiteralField | parseLiteralStruct
  | parseParens | parseNumber | parseTerm | parsePostfix | parsePrimary | parseExprRight
  | parseExprClimb | parseExpr

/-- A call of the parser, or a turn of a loop. -/
inductive Call : Type → Type 1
  | move : Call Unit
  | parseList {α : Type} (type : TokenType) (close : String) (item : Call α) (n : Nat) :
      Call (List α)
  | parseArguments {α : Type} (item : Call α) (n : Nat) : Call (List α × Bool)
  | parseIndentFrom {α : Type} (indent : Option Location) (startIndent firstIndent : Nat)
      (f : Call α) (n : Nat) : Call (List α)
  | parseIndent {α : Type} (indent : Option Location) (f : Call α) (n : Nat) : Call (List α)
  | parseTypeArguments (n : Nat) : Call (List TyTree)
  | parseType (n : Nat) : Call TyTree
  | typeParameter : Call Named
  | parseTypeSignature (n : Nat) : Call (List Named)
  | parseTypeAscription (n : Nat) : Call TyTree
  | parseBlock (m : Nat) (indent : Option Location) (n : Nat) : Call Tree
  | parseBlockExpr (m : Nat) (indent : Option Location) (n : Nat) : Call Tree
  | argument (n : Nat) : Call VarTree
  | parseFnSignature (n : Nat) : Call (TyTree × List VarTree)
  | parseFn (m n : Nat) : Call Tree
  | parseFnBody (m : Nat) (indent : Option Location) (n : Nat) : Call Tree
  | parseFnDecl (m n : Nat) : Call Tree
  | parseVarDecl (m n : Nat) : Call Tree
  | parseFieldNames (n : Nat) : Call (List Named)
  | parseFieldLine (m n : Nat) : Call (List Named × TyTree × Option Tree)
  | parseStructDecl (m n : Nat) : Call Tree
  | parseImportPath (path : Str) (location : Location) (n : Nat) : Call (Str × Location)
  | parseImport (n : Nat) : Call Tree
  | parseCall (m : Nat) (expr : Tree) (start : Location) (self : Option Tree) (n : Nat) : Call Tree
  | parseIndex (m : Nat) (expr : Tree) : Call Tree
  | parseIdent (n : Nat) : Call Tree
  | parseMember (m : Nat) (expr : Tree) (n : Nat) : Call Tree
  | parseAssign (m : Nat) (expr : Tree) : Call Tree
  | parseIf (m n : Nat) : Call Tree
  | parseFor (m n : Nat) : Call Tree
  | parseWhile (m n : Nat) : Call Tree
  | parseLiteralArray (m n : Nat) : Call Tree
  | parseLiteralField (m : Nat) : Call (Named × Tree)
  | parseLiteralStruct (m n : Nat) : Call Tree
  | parseParens (m n : Nat) : Call Tree
  | parseNumber : Call Tree
  | parseTerm (m n : Nat) : Call Tree
  | parsePostfix (m : Nat) (start : Location) (term : Tree) (n : Nat) : Call Tree
  | parsePrimary (n : Nat) : Call Tree
  | parseExprRight (priority n : Nat) (right : Tree) : Call Tree
  | parseExprClimb (limit n : Nat) (left : Tree) : Call Tree
  | parseExpr (n : Nat) : Call Tree

/-- The function of a call, or its loop. -/
def Call.fn {α : Type} : Call α → ParseFn
  | .move => .move
  | .parseList .. => .parseList
  | .parseArguments .. => .parseArguments
  | .parseIndentFrom .. => .parseIndentFrom
  | .parseIndent .. => .parseIndent
  | .parseTypeArguments _ => .parseTypeArguments
  | .parseType _ => .parseType
  | .typeParameter => .typeParameter
  | .parseTypeSignature _ => .parseTypeSignature
  | .parseTypeAscription _ => .parseTypeAscription
  | .parseBlock .. => .parseBlock
  | .parseBlockExpr .. => .parseBlockExpr
  | .argument _ => .argument
  | .parseFnSignature _ => .parseFnSignature
  | .parseFn .. => .parseFn
  | .parseFnBody .. => .parseFnBody
  | .parseFnDecl .. => .parseFnDecl
  | .parseVarDecl .. => .parseVarDecl
  | .parseFieldNames _ => .parseFieldNames
  | .parseFieldLine .. => .parseFieldLine
  | .parseStructDecl .. => .parseStructDecl
  | .parseImportPath .. => .parseImportPath
  | .parseImport _ => .parseImport
  | .parseCall .. => .parseCall
  | .parseIndex .. => .parseIndex
  | .parseIdent _ => .parseIdent
  | .parseMember .. => .parseMember
  | .parseAssign .. => .parseAssign
  | .parseIf .. => .parseIf
  | .parseFor .. => .parseFor
  | .parseWhile .. => .parseWhile
  | .parseLiteralArray .. => .parseLiteralArray
  | .parseLiteralField _ => .parseLiteralField
  | .parseLiteralStruct .. => .parseLiteralStruct
  | .parseParens .. => .parseParens
  | .parseNumber => .parseNumber
  | .parseTerm .. => .parseTerm
  | .parsePostfix .. => .parsePostfix
  | .parsePrimary _ => .parsePrimary
  | .parseExprRight .. => .parseExprRight
  | .parseExprClimb .. => .parseExprClimb
  | .parseExpr _ => .parseExpr

/-- The parser, call by call. -/
def Call.parser : {α : Type} → Call α → ParseM α
  | _, .move => TokenStream.move
  | _, .parseList type close item n => Aike.parseList type close item.parser n
  | _, .parseArguments item n => Aike.parseArguments item.parser n
  | _, .parseIndentFrom indent startIndent firstIndent f n =>
      Aike.parseIndentFrom indent startIndent firstIndent f.parser n
  | _, .parseIndent indent f n => Aike.parseIndent indent f.parser n
  | _, .parseTypeArguments n => Aike.parseTypeArguments (Aike.parseType n) n
  | _, .parseType n => Aike.parseType n
  | _, .typeParameter => do
      let name ← eatType .ident
      return ⟨name.data, name.location⟩
  | _, .parseTypeSignature n => Aike.parseTypeSignature n
  | _, .parseTypeAscription n => Aike.parseTypeAscription n
  | _, .parseBlock m indent n => Aike.parseBlock (Aike.parseExpr m) indent n
  | _, .parseBlockExpr m indent n => Aike.parseBlockExpr (Aike.parseExpr m) indent n
  | _, .argument n => do
      let argname ← eatType .ident
      let type ← Aike.parseTypeAscription n
      return { kind := .argument, name := argname.data, type, location := argname.location }
  | _, .parseFnSignature n => Aike.parseFnSignature n
  | _, .parseFn m n => Aike.parseFn (Aike.parseExpr m) n
  | _, .parseFnBody m indent n => Aike.parseFnBody (Aike.parseExpr m) indent n
  | _, .parseFnDecl m n => Aike.parseFnDecl (Aike.parseExpr m) n
  | _, .parseVarDecl m n => Aike.parseVarDecl (Aike.parseExpr m) n
  | _, .parseFieldNames n => Aike.parseFieldNames n
  | _, .parseFieldLine m n => Aike.parseFieldLine (Aike.parseExpr m) n
  | _, .parseStructDecl m n => Aike.parseStructDecl (Aike.parseExpr m) n
  | _, .parseImportPath path location n => Aike.parseImportPath path location n
  | _, .parseImport n => Aike.parseImport n
  | _, .parseCall m expr start self n => Aike.parseCall (Aike.parseExpr m) expr start self n
  | _, .parseIndex m expr => Aike.parseIndex (Aike.parseExpr m) expr
  | _, .parseIdent n => Aike.parseIdent n
  | _, .parseMember m expr n => Aike.parseMember (Aike.parseExpr m) expr n
  | _, .parseAssign m expr => Aike.parseAssign (Aike.parseExpr m) expr
  | _, .parseIf m n => Aike.parseIf (Aike.parseExpr m) n
  | _, .parseFor m n => Aike.parseFor (Aike.parseExpr m) n
  | _, .parseWhile m n => Aike.parseWhile (Aike.parseExpr m) n
  | _, .parseLiteralArray m n => Aike.parseLiteralArray (Aike.parseExpr m) n
  | _, .parseLiteralField m => Aike.parseLiteralField (Aike.parseExpr m)
  | _, .parseLiteralStruct m n => Aike.parseLiteralStruct (Aike.parseExpr m) n
  | _, .parseParens m n => Aike.parseParens (Aike.parseExpr m) n
  | _, .parseNumber => Aike.parseNumber
  | _, .parseTerm m n => Aike.parseTerm (Aike.parseExpr m) n
  | _, .parsePostfix m start term n => Aike.parsePostfix (Aike.parseExpr m) start term n
  | _, .parsePrimary n => Aike.parsePrimary n
  | _, .parseExprRight priority n right => Aike.parseExprRight priority n right
  | _, .parseExprClimb limit n left => Aike.parseExprClimb limit n left
  | _, .parseExpr n => Aike.parseExpr n

/-! ### Bodies -/

section Bodies

/-- What answers the calls of the parser. -/
abbrev ParseCalls : Type 1 := (α : Type) → Call α → ParseM α

variable (c : ParseCalls)

/-- `eat`, of a type and a text. -/
def ParseCalls.eat (type : TokenType) (data : String) : ParseM Unit := do
  expect type data
  c _ .move

/-- `eat`, of a type. -/
def ParseCalls.eatType (type : TokenType) : ParseM Token := do
  expectType type
  let result ← get
  c _ .move
  return result

/-- The comma after an item. -/
def ParseCalls.eatComma (type : TokenType) (close : String) : ParseM Unit := do
  if ← is type close then return () else c.eat .atom ","

/-- The newline after an item of a block. -/
def ParseCalls.eatNewline : ParseM Unit := do
  if ← isType .line then c _ .move
  else if (← getPrev).type ≠ .line then expectType .line
  else return ()

/-- The newline after the body of a construct. -/
def ParseCalls.skipNewline : ParseM Unit := do
  if ← isType .line then c _ .move else return ()

/-- A type of one word. -/
def ParseCalls.word (ty : TyTree) : ParseM TyTree := do
  c _ .move
  return ty

/-- The body of `parseType`. -/
def ParseCalls.type (n : Nat) : ParseM TyTree := do
  if ← is .ident "_" then c.word .unknown
  else if ← is .ident "void" then c.word .void
  else if ← is .ident "bool" then c.word .bool
  else if ← is .ident "int" then c.word .integer
  else if ← is .ident "float" then c.word .float
  else if ← is .ident "string" then c.word .string
  else if ← is .bracket "(" then
    c.eat .bracket "("
    let fields ← c _ (.parseList .bracket ")" (.parseType n) n)
    c.eat .bracket ")"
    match fields with
    | [] => return .void
    | [field] => return field
    | fields => return .tuple fields
  else if ← is .bracket "[" then
    c.eat .bracket "["
    let element ← c _ (.parseType n)
    c.eat .bracket "]"
    return .array element
  else if ← is .atom "*" then
    c _ .move
    let element ← c _ (.parseType n)
    return .pointer element
  else if ← is .ident "fn" then
    c _ .move
    c.eat .bracket "("
    let (args, varargs) ← c _ (.parseArguments (.parseType n) n)
    c.eat .bracket ")"
    c.eat .atom ":"
    let ret ← c _ (.parseType n)
    return .function args ret varargs
  else if ← isType .ident then
    let name ← c.eatType .ident
    let tysig ← c _ (.parseTypeArguments n)
    return .inst ⟨name.data, name.location⟩ tysig
  else
    let t ← get
    ParseM.panic t.location "Expected type".toList

/-- `parseAttribute`. -/
def ParseCalls.attribute (word : String) : ParseM Bool := do
  if ← is .ident word then
    c _ .move
    return true
  else return false

/-- `parseFnDeclBody`. -/
def ParseCalls.fnDeclBody (m : Nat) (bodyImplicit : Bool) (indent : Option Location) (n : Nat) :
    ParseM (Option Tree) := do
  if bodyImplicit then return none
  else
    let body ← c _ (.parseFnBody m indent n)
    return some body

/-- `parseForIndex`. -/
def ParseCalls.forIndex : ParseM (Option VarTree) := do
  if ← is .atom "," then
    c _ .move
    let name ← c.eatType .ident
    return some { kind := .value, name := name.data, type := .unknown, location := name.location }
  else return none

/-- `parseLiteralName`. -/
def ParseCalls.literalName (n : Nat) : ParseM (Option TyTree × Str) := do
  if ← isType .ident then
    let name ← c.eatType .ident
    let tyargs ← c _ (.parseTypeArguments n)
    return (some (.inst ⟨name.data, name.location⟩ tyargs), name.data)
  else return (none, [])

/-- The body of `parseTerm`. -/
def ParseCalls.term (m n : Nat) : ParseM Tree := do
  if ← is .ident "true" then
    let value ← c.eatType .ident
    return .literalBool value.location true
  else if ← is .ident "false" then
    let value ← c.eatType .ident
    return .literalBool value.location false
  else if ← isType .number then c _ .parseNumber
  else if ← isType .string then
    let value ← c.eatType .string
    return .literalString value.location value.data
  else if (← is .bracket "\x7b") || ((← isType .ident) && (← getNext).type = .bracket &&
      (← getNext).data = "\x7b".toList) then
    c _ (.parseLiteralStruct m n)
  else if ← is .bracket "[" then c _ (.parseLiteralArray m n)
  else if ← isType .ident then c _ (.parseIdent n)
  else if ← is .bracket "(" then c _ (.parseParens m n)
  else
    let t ← get
    ParseM.panic t.location ("Unexpected token ".toList ++ tokenName t)

/-- `parseTermPrimary`. -/
def ParseCalls.termPrimary (m n : Nat) : ParseM Tree := do
  let start ← get
  let term ← c _ (.parseTerm m n)
  let term ← c _ (.parsePostfix m start.location term n)
  if ← is .atom "=" then c _ (.parseAssign m term)
  else return term

/-- `parseKeyword`. -/
def ParseCalls.keyword (m n : Nat) : ParseM Tree := do
  if (← is .ident "extern") || (← is .ident "builtin") || (← is .ident "inline") then
    c _ (.parseFnDecl m n)
  else if ← is .ident "fn" then
    if (← getNext).type = .ident then c _ (.parseFnDecl m n) else c _ (.parseFn m n)
  else if ← is .ident "var" then c _ (.parseVarDecl m n)
  else if ← is .ident "struct" then c _ (.parseStructDecl m n)
  else if ← is .ident "import" then c _ (.parseImport n)
  else if ← is .ident "if" then c _ (.parseIf m n)
  else if ← is .ident "for" then c _ (.parseFor m n)
  else if ← is .ident "while" then c _ (.parseWhile m n)
  else c.termPrimary m n

/-- The text of each function and of each turn of a loop, with its calls left open. -/
def Call.body : ParseCalls
  | _, .move => TokenStream.move
  | _, .parseList _ _ _ 0 => ParseM.outOfFuel
  | _, .parseList type close item (n + 1) => do
      if ← is type close then return []
      let a ← c _ item
      c.eatComma type close
      let as ← c _ (.parseList type close item n)
      return a :: as
  | _, .parseArguments _ 0 => ParseM.outOfFuel
  | _, .parseArguments item (n + 1) => do
      if ← is .bracket ")" then return ([], false)
      if ← is .atom "..." then
        c _ .move
        return ([], true)
      let a ← c _ item
      c.eatComma .bracket ")"
      let (as, varargs) ← c _ (.parseArguments item n)
      return (a :: as, varargs)
  | _, .parseIndentFrom _ _ _ _ 0 => ParseM.outOfFuel
  | _, .parseIndentFrom indent startIndent firstIndent f (n + 1) => do
      if ← isType .end then return []
      let a ← c _ f
      if ← isType .end then return [a]
      c.eatNewline
      if ← leavesIndent indent startIndent firstIndent then return [a]
      let as ← c _ (.parseIndentFrom indent startIndent firstIndent f n)
      return a :: as
  | _, .parseIndent indent f n => do
      let startIndent ← getStartIndent indent
      let t ← get
      let firstIndent ← getLineIndent t.location
      ParseM.panicIf (indent.isSome ∧ firstIndent ≤ startIndent) t.location
        (invalidIndentation (">".toList ++ (toString startIndent).toList) firstIndent)
      c _ (.parseIndentFrom indent startIndent firstIndent f n)
  | _, .parseTypeArguments n => do
      if ← is .atom ".<" then
        c.eat .atom ".<"
        let args ← c _ (.parseList .atom ">" (.parseType n) n)
        c.eat .atom ">"
        return args
      else return []
  | _, .parseType 0 => ParseM.outOfFuel
  | _, .parseType (n + 1) => c.type n
  | _, .typeParameter => do
      let name ← c.eatType .ident
      return ⟨name.data, name.location⟩
  | _, .parseTypeSignature n => do
      if ← is .atom "<" then
        c.eat .atom "<"
        let args ← c _ (.parseList .atom ">" .typeParameter n)
        c.eat .atom ">"
        return args
      else return []
  | _, .parseTypeAscription n => do
      if ← is .atom ":" then
        c _ .move
        c _ (.parseType n)
      else return .unknown
  | _, .parseBlock m indent n => do
      let body ← c _ (.parseIndent indent (.parseExpr m) n)
      return .block {} body
  | _, .parseBlockExpr m indent n => do
      if ← isType .line then
        c _ .move
        c _ (.parseBlock m indent n)
      else
        let result ← c _ (.parseExpr m)
        c.skipNewline
        return result
  | _, .argument n => do
      let argname ← c.eatType .ident
      let type ← c _ (.parseTypeAscription n)
      return { kind := .argument, name := argname.data, type, location := argname.location }
  | _, .parseFnSignature n => do
      c.eat .bracket "("
      let (args, varargs) ← c _ (.parseArguments (.argument n) n)
      c.eat .bracket ")"
      let ret ← c _ (.parseTypeAscription n)
      return (.function (args.map VarTree.type) ret varargs, args)
  | _, .parseFn m n => do
      let start ← get
      c.eat .ident "fn"
      let sig ← c _ (.parseFnSignature n)
      let body ← c _ (.parseBlockExpr m (some start.location) n)
      let decl := .fnDecl start.location
        { kind := .function, name := [], type := sig.1, location := start.location } [] sig.2 {}
        (some body)
      let index ← getIndex
      return .fn start.location index decl
  | _, .parseFnBody m indent n => do
      let _ ← c.eatType .line
      if ← is .ident "llvm" then
        c _ .move
        let code ← c.eatType .string
        return .llvm code.location code.data
      else c _ (.parseBlock m indent n)
  | _, .parseFnDecl m n => do
      let indent ← get
      let inline_ ← c.attribute "inline"
      let extern_ ← c.attribute "extern"
      let builtin ← c.attribute "builtin"
      c.eat .ident "fn"
      let name ← c.eatType .ident
      let tysig ← c _ (.parseTypeSignature n)
      let sig ← c _ (.parseFnSignature n)
      let body ← c.fnDeclBody m (extern_ || builtin) (some indent.location) n
      return .fnDecl {}
        { kind := .function, name := name.data, type := sig.1, location := name.location } tysig
        sig.2 { extern_, builtin, inline_ } body
  | _, .parseVarDecl m n => do
      c.eat .ident "var"
      let name ← c.eatType .ident
      let type ← c _ (.parseTypeAscription n)
      c.eat .atom "="
      let expr ← c _ (.parseExpr m)
      return .varDecl {} { kind := .variable, name := name.data, type, location := name.location }
        expr
  | _, .parseFieldNames 0 => ParseM.outOfFuel
  | _, .parseFieldNames (n + 1) => do
      let name ← c.eatType .ident
      if ← is .atom "," then
        c _ .move
        let names ← c _ (.parseFieldNames n)
        return ⟨name.data, name.location⟩ :: names
      else return [⟨name.data, name.location⟩]
  | _, .parseFieldLine m n => do
      let fnames ← c _ (.parseFieldNames n)
      c.eat .atom ":"
      let ty ← c _ (.parseType n)
      if ← is .atom "=" then
        c _ .move
        let expr ← c _ (.parseExpr m)
        return (fnames, ty, some expr)
      else return (fnames, ty, none)
  | _, .parseStructDecl m n => do
      let indent ← get
      c.eat .ident "struct"
      let name ← c.eatType .ident
      let tysig ← c _ (.parseTypeSignature n)
      let _ ← c.eatType .line
      let fields ← c _ (.parseIndent (some indent.location) (.parseFieldLine m n) n)
      return .tyDecl name.location name.data tysig fields
  | _, .parseImportPath _ _ 0 => ParseM.outOfFuel
  | _, .parseImportPath path location (n + 1) => do
      if (← is .atom ".") ∧ (← get).location.line = location.line then
        c _ .move
        let name ← c.eatType .ident
        let location ← ParseM.lift (location.span name.location)
        c _ (.parseImportPath (path ++ ".".toList ++ name.data) location n)
      else return (path, location)
  | _, .parseImport n => do
      c.eat .ident "import"
      let start ← c.eatType .ident
      let (path, location) ← c _ (.parseImportPath start.data start.location n)
      return .import location path
  | _, .parseCall m expr start self n => do
      c.eat .bracket "("
      let args ← c _ (.parseList .bracket ")" (.parseExpr m) n)
      let «end» ← get
      c.eat .bracket ")"
      let location ← ParseM.lift (start.span «end».location)
      return .call location expr (self.toList ++ args)
  | _, .parseIndex m expr => do
      let start ← get
      c.eat .bracket "["
      let index ← c _ (.parseExpr m)
      c.eat .bracket "]"
      return .index start.location expr index
  | _, .parseIdent n => do
      let name ← c.eatType .ident
      let tyargs ← c _ (.parseTypeArguments n)
      return .ident name.location name.data tyargs
  | _, .parseMember m expr n => do
      c.eat .atom "."
      let name ← c.eatType .ident
      if (← is .bracket "(") || (← is .atom ".<") then
        stepBack
        let member ← c _ (.parseIdent n)
        c _ (.parseCall m member name.location (some expr) n)
      else return .member name.location expr ⟨name.data, name.location⟩
  | _, .parseAssign m expr => do
      let t ← get
      c.eat .atom "="
      let value ← c _ (.parseExpr m)
      return .assign t.location expr value
  | _, .parseIf m n => do
      let start ← get
      c.eat .ident "if"
      let cond ← c _ (.parseExpr m)
      let thenbody ← c _ (.parseBlockExpr m (some start.location) n)
      if ← is .ident "else" then
        checkElse start.location
        let _ ← c.eatType .ident
        let elsebody ← c _ (.parseBlockExpr m (some start.location) n)
        return .ifElse start.location cond thenbody elsebody
      else return .ifThen start.location cond thenbody
  | _, .parseFor m n => do
      let start ← get
      c.eat .ident "for"
      let name ← c.eatType .ident
      let var := { kind := .variable, name := name.data, type := .unknown,
                   location := name.location }
      let index ← c.forIndex
      c.eat .ident "in"
      let expr ← c _ (.parseExpr m)
      let body ← c _ (.parseBlockExpr m (some start.location) n)
      return .forIn start.location var index expr body
  | _, .parseWhile m n => do
      let start ← get
      c.eat .ident "while"
      let expr ← c _ (.parseExpr m)
      let body ← c _ (.parseBlockExpr m (some start.location) n)
      return .while start.location expr body
  | _, .parseLiteralArray m n => do
      let start ← get
      c.eat .bracket "["
      let elements ← c _ (.parseList .bracket "]" (.parseExpr m) n)
      c.eat .bracket "]"
      return .literalArray start.location elements
  | _, .parseLiteralField m => do
      let fname ← c.eatType .ident
      if ← is .atom "=" then
        c _ .move
        let expr ← c _ (.parseExpr m)
        return (⟨fname.data, fname.location⟩, expr)
      else return (⟨fname.data, fname.location⟩, .ident fname.location fname.data [])
  | _, .parseLiteralStruct m n => do
      let start ← get
      let (ty, name) ← c.literalName n
      c.eat .bracket "\x7b"
      let fields ← c _ (.parseList .bracket "\x7d" (.parseLiteralField m) n)
      c.eat .bracket "\x7d"
      return .literalStruct start.location ty name fields
  | _, .parseParens m n => do
      let start ← get
      c _ .move
      let fields ← c _ (.parseList .bracket ")" (.parseExpr m) n)
      let «end» ← get
      c.eat .bracket ")"
      match fields with
      | [] => return .literalVoid (← ParseM.lift (start.location.span «end».location))
      | [field] => return field
      | fields => return .literalTuple (← ParseM.lift (start.location.span «end».location)) fields
  | _, .parseNumber => do
      let value ← c.eatType .number
      match strtollLiteral value.data with
      | some (some valueInteger) => return .literalInteger value.location valueInteger
      | some none =>
          ParseM.panic value.location
            ("Invalid integer literal '".toList ++ value.data ++ "'".toList)
      | none =>
          match strtod value.data with
          | some (some valueDouble) => return .literalFloat value.location valueDouble
          | some none =>
              ParseM.panic value.location
                ("Invalid floating-point literal '".toList ++ value.data ++ "'".toList)
          | none =>
              ParseM.panic value.location
                ("Invalid number literal '".toList ++ value.data ++ "'".toList)
  | _, .parseTerm m n => c.term m n
  | _, .parsePostfix _ _ _ 0 => ParseM.outOfFuel
  | _, .parsePostfix m start term (n + 1) => do
      if ← is .bracket "(" then
        let term ← c _ (.parseCall m term start none n)
        c _ (.parsePostfix m start term n)
      else if ← is .bracket "[" then
        let term ← c _ (.parseIndex m term)
        c _ (.parsePostfix m start term n)
      else if ← is .atom "." then
        let term ← c _ (.parseMember m term n)
        c _ (.parsePostfix m start term n)
      else return term
  | _, .parsePrimary 0 => ParseM.outOfFuel
  | _, .parsePrimary (n + 1) => do
      let uop ← parseUnaryOp
      if uop.priority ≠ 0 then
        let start ← get
        c _ .move
        let expr ← c _ (.parsePrimary n)
        return lowerUnaryOp uop expr start.location
      else c.keyword n n
  | _, .parseExprRight _ 0 _ => ParseM.outOfFuel
  | _, .parseExprRight priority (n + 1) right => do
      let nextop ← parseBinaryOp
      if nextop.priority ≠ 0 ∧ nextop.priority > priority then
        let right ← c _ (.parseExprClimb nextop.priority n right)
        c _ (.parseExprRight priority n right)
      else return right
  | _, .parseExprClimb _ 0 _ => ParseM.outOfFuel
  | _, .parseExprClimb limit (n + 1) left => do
      let op ← parseBinaryOp
      if op.priority ≠ 0 ∧ op.priority ≥ limit then
        let start ← get
        c _ .move
        let right ← c _ (.parsePrimary n)
        let right ← c _ (.parseExprRight op.priority n right)
        c _ (.parseExprClimb limit n (lowerBinaryOp op left right start.location))
      else return left
  | _, .parseExpr 0 => ParseM.outOfFuel
  | _, .parseExpr (n + 1) => do
      let left ← c _ (.parsePrimary n)
      c _ (.parseExprClimb 0 n left)

end Bodies

/-- The parser, as a handler of its calls. -/
def Call.run : ParseCalls := fun _ F => F.parser

/-- The bodies are those of the parser. -/
theorem Call.body_run : Call.body Call.run = Call.run := by
  funext α F
  cases F with
  | parseList _ _ _ n => cases n <;> rfl
  | parseArguments _ n => cases n <;> rfl
  | parseIndentFrom _ _ _ _ n => cases n <;> rfl
  | parseType n => cases n <;> rfl
  | parseFieldNames n => cases n <;> rfl
  | parseImportPath _ _ n => cases n <;> rfl
  | parsePostfix _ _ _ n => cases n <;> rfl
  | parsePrimary n => cases n <;> rfl
  | parseExprRight _ n _ => cases n <;> rfl
  | parseExprClimb _ n _ => cases n <;> rfl
  | parseExpr n => cases n <;> rfl
  | _ => rfl

end Aike
