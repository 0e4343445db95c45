import Aike.Model.Parse

/-!
# `Aike.Model.TypeText`: how a type is written

What a program means to write where `parseType` reads a type. This is not taken
from `compiler/`: it states the notation by itself, so that the tokenizer and the
parser can be compared with it.

A `TypeSyntax` is a type that the notation can express, and `TypeSyntax.text`
writes it: `*T`, `[T]`, `(T1, T2)`, `fn(T1, T2): R` and `Name.<T1, T2>`, with one
space after each comma and colon. The text is put together from pieces, which
are what the tokens of the text should be.
-/

set_option autoImplicit false

namespace Aike

/-! ### Types -/

/-- A type that is one word. -/
inductive Primitive
  | void
  | bool
  | integer
  | float
  | string
  deriving DecidableEq, Repr

def Primitive.word : Primitive → Str
  | .void => "void".toList
  | .bool => "bool".toList
  | .integer => "int".toList
  | .float => "float".toList
  | .string => "string".toList

def Primitive.tree : Primitive → TyTree
  | .void => .void
  | .bool => .bool
  | .integer => .integer
  | .float => .float
  | .string => .string

/-- The words that do not name a type of the program. -/
def typeWords : List Str :=
  ["_".toList, "void".toList, "bool".toList, "int".toList, "float".toList, "string".toList,
    "fn".toList]

/-- The name of a type: an identifier that has no other meaning in a type. -/
structure TypeName where
  data : Str
  starts : data.head?.any isIdentStart = true
  idents : data.all isIdent = true
  free : data ∉ typeWords

/-- A type that can be written. A tuple has two fields at least. -/
inductive TypeSyntax
  | primitive (p : Primitive)
  | inst (name : TypeName) (tyargs : List TypeSyntax)
  | pointer (element : TypeSyntax)
  | array (element : TypeSyntax)
  | tuple (first second : TypeSyntax) (rest : List TypeSyntax)
  | function (args : List TypeSyntax) (ret : TypeSyntax) (varargs : Bool)

/-! ### Texts -/

/-- A piece of a written type: what is meant to be one token, or a space. -/
inductive Piece
  | word (data : Str)
  | bracket (ch : Char)
  | symbol (data : String)
  | space

def Piece.text : Piece → Str
  | .word data => data
  | .bracket ch => [ch]
  | .symbol data => data.toList
  | .space => [' ']

/-- The punctuation of the notation that is not a bracket. -/
def symbols : List String := [",", ":", "*", "...", ".<", ">"]

/-- The text of pieces in a row. -/
def piecesText (ps : List Piece) : Str := ps.flatMap Piece.text

/-- Items with commas between them. -/
def commas : List (List Piece) → List Piece
  | [] => []
  | [item] => item
  | item :: next :: items => item ++ .symbol "," :: .space :: commas (next :: items)

/-- The dots that make an argument list `varargs`. -/
def dots (varargs : Bool) : List (List Piece) := if varargs then [[.symbol "..."]] else []

/-- The type arguments of a name, which a name without any lacks altogether. -/
def angles : List (List Piece) → List Piece
  | [] => []
  | item :: items => .symbol ".<" :: commas (item :: items) ++ [.symbol ">"]

namespace TypeSyntax

mutual

/-- The pieces of a written type. -/
def pieces : TypeSyntax → List Piece
  | .primitive p => [.word p.word]
  | .inst name tyargs => .word name.data :: angles (piecesAll tyargs)
  | .pointer element => .symbol "*" :: pieces element
  | .array element => .bracket '[' :: pieces element ++ [.bracket ']']
  | .tuple first second rest =>
      .bracket '(' :: commas (pieces first :: pieces second :: piecesAll rest) ++ [.bracket ')']
  | .function args ret varargs =>
      .word "fn".toList :: .bracket '(' :: commas (piecesAll args ++ dots varargs) ++
        .bracket ')' :: .symbol ":" :: .space :: pieces ret

def piecesAll : List TypeSyntax → List (List Piece)
  | [] => []
  | s :: ss => pieces s :: piecesAll ss

end

/-- The text that writes a type. -/
def text (s : TypeSyntax) : Str := piecesText s.pieces

mutual

/-- The tree of a type. The names in it have no locations. -/
def tree : TypeSyntax → TyTree
  | .primitive p => p.tree
  | .inst name tyargs => .inst ⟨name.data, {}⟩ (treeAll tyargs)
  | .pointer element => .pointer (tree element)
  | .array element => .array (tree element)
  | .tuple first second rest => .tuple (tree first :: tree second :: treeAll rest)
  | .function args ret varargs => .function (treeAll args) (tree ret) varargs

def treeAll : List TypeSyntax → List TyTree
  | [] => []
  | s :: ss => tree s :: treeAll ss

end

/-! ### Types whose pieces stay apart -/

/-- Whether a type starts with `*`. -/
def isPointer : TypeSyntax → Bool
  | .pointer _ => true
  | _ => false

/-- Whether a type ends with `>`. -/
def endsInAngle : TypeSyntax → Bool
  | .inst _ tyargs => !tyargs.isEmpty
  | .pointer element => element.endsInAngle
  | .function _ ret _ => ret.endsInAngle
  | _ => false

mutual

/-- No two pieces of punctuation touch: a pointer follows neither `*` nor `.<`, and
a type that ends with `>` stands before neither a comma nor another `>`. -/
def separated : TypeSyntax → Bool
  | .primitive _ => true
  | .inst _ tyargs =>
      separatedAll tyargs && !tyargs.head?.any isPointer && !tyargs.any endsInAngle
  | .pointer element => separated element && !element.isPointer
  | .array element => separated element
  | .tuple first second rest =>
      separated first && separated second && separatedAll rest &&
        !(first :: second :: rest).dropLast.any endsInAngle
  | .function args ret varargs =>
      separatedAll args && separated ret &&
        !(if varargs then args else args.dropLast).any endsInAngle

def separatedAll : List TypeSyntax → Bool
  | [] => true
  | s :: ss => separated s && separatedAll ss

end

end TypeSyntax

/-! ### Trees without locations -/

mutual

/-- The tree without the locations of the names in it. -/
def TyTree.unlocated : TyTree → TyTree
  | .tuple fields => .tuple (unlocatedAll fields)
  | .array element => .array element.unlocated
  | .pointer element => .pointer element.unlocated
  | .function args ret varargs => .function (unlocatedAll args) ret.unlocated varargs
  | .inst name tyargs => .inst ⟨name.name, {}⟩ (unlocatedAll tyargs)
  | t => t

def TyTree.unlocatedAll : List TyTree → List TyTree
  | [] => []
  | t :: ts => t.unlocated :: unlocatedAll ts

end

end Aike
