import Aike.Lib.Precedence
import Aike.Proofs.Parse.Monad
import Aike.Proofs.Tokenize.Scan

/-!
# `Aike.Proofs.Parse.Climb`: precedence climbing

`parseExpr_precedence`: on operands of one token with binary operators between them,
`parseExpr` reads all of these tokens and returns the one ordered tree that they are the
reading of.

`Primary` and `Operator` are tokens with what `parseTerm` and `parseBinaryOp` know of
them. `climbRuns_and_rightRuns` goes by induction on the number of operators that are left: the
outer loop of `parseExprClimb` and the inner one call each other.
-/

set_option autoImplicit false

namespace Aike

open TokenStream Precedence

/-! ### Operands and operators -/

/-- The words that `parsePrimary` does not take for identifiers. -/
def primaryKeywords : List Str :=
  ["not".toList, "new".toList, "extern".toList, "builtin".toList, "inline".toList, "fn".toList,
    "var".toList, "struct".toList, "import".toList, "if".toList, "for".toList, "while".toList]

/-- The tree of an operand of one token. A number is a literal if it has a value. -/
def primaryTree (t : Token) : Option Tree :=
  match t.type with
  | .ident =>
      if t.data = "true".toList then some (.literalBool t.location true)
      else if t.data = "false".toList then some (.literalBool t.location false)
      else if primaryKeywords.any fun word => t.data = word then none
      else some (.ident t.location t.data [])
  | .number =>
      match strtollLiteral t.data, strtod t.data with
      | some value, _ => value.map (.literalInteger t.location)
      | none, some value => value.map (.literalFloat t.location)
      | none, none => none
  | .string => some (.literalString t.location t.data)
  | _ => none

/-- An operand of one token. -/
structure Primary where
  token : Token
  tree : Tree
  tree_eq : primaryTree token = some tree

/-- What `parseBinaryOp` returns at a token. -/
def binaryOp (t : Token) : OpDef BinaryOp := findOp binaryOps ⟨0, .or, none⟩ t

/-- A binary operator. -/
structure Operator where
  token : Token
  isOp : (binaryOp token).priority ≠ 0

def Operator.priority (op : Operator) : Nat := (binaryOp op.token).priority

/-- The tokens of operands with operators between them. -/
def exprTokens (p : Primary) (ops : List (Operator × Primary)) : List Token :=
  p.token :: ops.flatMap fun x => [x.1.token, x.2.token]

/-- The tokens of a tree, in order. -/
def treeTokens : OpTree Primary Operator → List Token
  | .leaf p => [p.token]
  | .node op left right => treeTokens left ++ op.token :: treeTokens right

/-- The lowered tree. -/
def lowerTree : OpTree Primary Operator → Tree
  | .leaf p => p.tree
  | .node op left right =>
      lowerBinaryOp (binaryOp op.token) (lowerTree left) (lowerTree right) op.token.location

/-- A token that no operand goes on at. -/
def EndsPrimary (t : Token) : Prop :=
  t.type ≠ .bracket ∧ ¬ (t.type = .atom ∧ t.data ∈ [".".toList, ".<".toList, "=".toList])

/-- A token that no expression of operands and operators goes on at. -/
def EndsExpr (t : Token) : Prop := (binaryOp t).priority = 0 ∧ EndsPrimary t

/-- The tokens of a tree are those of its leftmost operand and of what stands to the right
of it. It lets a statement about a list of operators be read as one about the tree that is
built of them. -/
theorem treeTokens_eq (t : OpTree Primary Operator) : treeTokens t = exprTokens t.first t.rest := by
  induction t with
  | leaf p => rfl
  | node op left right ihl ihr =>
      rw [treeTokens, ihl, ihr]
      simp [exprTokens, OpTree.first, OpTree.rest]

/-- An operand is known by its token, since the tree follows from it. The uniqueness of
the tree compares operands by their tokens. -/
theorem Primary.eq_of_token {p p' : Primary} (h : p.token = p'.token) : p = p' := by
  obtain ⟨t, tree, htree⟩ := p
  obtain ⟨t', tree', htree'⟩ := p'
  cases h
  cases htree.symm.trans htree'
  rfl

/-- An operator is known by its token, since the other field is a proof. -/
theorem Operator.eq_of_token {op op' : Operator} (h : op.token = op'.token) : op = op' := by
  cases op
  cases op'
  cases h
  rfl

/-- The tokens of an expression are read in one way. -/
theorem exprTokens_injective {p p' : Primary} {ops ops' : List (Operator × Primary)}
    (h : exprTokens p ops = exprTokens p' ops') : p = p' ∧ ops = ops' := by
  obtain ⟨hp, hrest⟩ := List.cons.inj h
  refine ⟨Primary.eq_of_token hp, ?_⟩
  clear h hp
  induction ops generalizing ops' with
  | nil =>
      cases ops' with
      | nil => rfl
      | cons x' ops' => cases hrest
  | cons x ops ih =>
      cases ops' with
      | nil => cases hrest
      | cons x' ops' =>
          obtain ⟨hop, hrest⟩ := List.cons.inj hrest
          obtain ⟨hoperand, hrest⟩ := List.cons.inj hrest
          have hx : x = x' :=
            Prod.ext (Operator.eq_of_token hop) (Primary.eq_of_token hoperand)
          rw [hx, ih hrest]

variable {ts : TokenStream} {i : Nat}

/-! ### Operands -/

/-- A number that has a value is parsed as the literal of that value, and nothing else is
read. -/
theorem parseNumber_run {tree : Tree} (h : (ts.tokenAt i).type = .number)
    (htree : primaryTree (ts.tokenAt i) = some tree) : parseNumber ts i = .ok (tree, i + 1) := by
  have htree' : (match strtollLiteral (ts.tokenAt i).data, strtod (ts.tokenAt i).data with
      | some value, _ => value.map (Tree.literalInteger (ts.tokenAt i).location)
      | none, some value => value.map (Tree.literalFloat (ts.tokenAt i).location)
      | none, none => none) = some tree := by
    unfold primaryTree at htree
    rw [h] at htree
    exact htree
  unfold parseNumber
  rw [bind_run (eatType_run h (by decide))]
  cases hint : strtollLiteral (ts.tokenAt i).data with
  | some value =>
      rw [hint] at htree'
      cases value with
      | none => cases htree'
      | some value =>
          cases htree'
          rfl
  | none =>
      rw [hint] at htree'
      cases hfloat : strtod (ts.tokenAt i).data with
      | none =>
          rw [hfloat] at htree'
          cases htree'
      | some value =>
          rw [hfloat] at htree'
          cases value with
          | none => cases htree'
          | some value =>
              cases htree'
              rfl

/-- An operand starts with no keyword and with no unary operator. -/
theorem primaryTree_ident {t : Token} {tree : Tree} (h : t.type = .ident)
    (htree : primaryTree t = some tree) :
    tree = .literalBool t.location true ∧ t.data = "true".toList ∨
      tree = .literalBool t.location false ∧ t.data = "false".toList ∨
        tree = .ident t.location t.data [] ∧ t.data ≠ "true".toList ∧ t.data ≠ "false".toList ∧
          t.data ∉ primaryKeywords := by
  unfold primaryTree at htree
  rw [h] at htree
  dsimp only at htree
  split_ifs at htree with htrue hfalse hkeyword
  · cases htree
    exact .inl ⟨rfl, htrue⟩
  · cases htree
    exact .inr (.inl ⟨rfl, hfalse⟩)
  · cases htree
    have hmem : t.data ∉ primaryKeywords := fun hmem =>
      hkeyword (List.any_eq_true.mpr ⟨t.data, hmem, decide_eq_true rfl⟩)
    exact .inr (.inr ⟨rfl, htrue, hfalse, hmem⟩)

/-- Only an identifier, a number or a string is an operand of one token, so the other
branches of `parsePrimary` are ruled out for it. -/
theorem primaryTree_type {t : Token} {tree : Tree} (htree : primaryTree t = some tree) :
    t.type = .ident ∨ t.type = .number ∨ t.type = .string := by
  unfold primaryTree at htree
  cases htype : t.type with
  | ident => exact .inl rfl
  | number => exact .inr (.inl rfl)
  | string => exact .inr (.inr rfl)
  | _ =>
      rw [htype] at htree
      cases htree

/-- An identifier is parsed alone when the token after it opens no bracket and no member
list, so it has no type arguments. -/
theorem parseIdent_run {fuel : Nat} (h : (ts.tokenAt i).type = .ident)
    (hnext : EndsPrimary (ts.tokenAt (i + 1))) :
    parseIdent fuel ts i =
      .ok (.ident (ts.tokenAt i).location (ts.tokenAt i).data [], i + 1) := by
  have hangle : ¬ ts.At (i + 1) .atom ".<" := fun hat =>
    hnext.2 ⟨hat.1, by rw [hat.2]; decide⟩
  have hargs : parseTypeArguments (parseType fuel) fuel ts (i + 1) = .ok ([], i + 1) := by
    unfold parseTypeArguments
    rw [ifIs_run_neg hangle]
    rfl
  unfold parseIdent
  rw [bind_run (eatType_run h (by decide)), bind_run hargs]
  rfl

/-- `parseTerm`, at an operand of one token. -/
theorem parseTerm_run {parseExpr : ParseM Tree} {fuel : Nat} {tree : Tree}
    (htree : primaryTree (ts.tokenAt i) = some tree) (hnext : EndsPrimary (ts.tokenAt (i + 1))) :
    parseTerm parseExpr fuel ts i = .ok (tree, i + 1) := by
  have hword : (ts.tokenAt i).type ≠ .bracket := by
    rcases primaryTree_type htree with h | h | h <;> rw [h] <;> decide
  -- No struct literal: the token is no brace, and none follows it.
  have hstruct : ∀ m m' : ParseM Tree, (do
      if (← TokenStream.is .bracket "\x7b") || ((← TokenStream.isType .ident) &&
          (← TokenStream.getNext).type = TokenType.bracket &&
          (← TokenStream.getNext).data = "\x7b".toList) then m else m') ts i = m' ts i := by
    intro m m'
    have hbrace : ((ts.tokenAt i).type = .bracket && (ts.tokenAt i).data = "\x7b".toList) =
        false := by
      rw [decide_eq_false hword, Bool.false_and]
    have hnext' : decide ((ts.tokenAt (i + 1)).type = .bracket) = false := decide_eq_false hnext.1
    show (if (((ts.tokenAt i).type = .bracket && (ts.tokenAt i).data = "\x7b".toList) ||
      (decide ((ts.tokenAt i).type = .ident) && (ts.tokenAt (i + 1)).type = .bracket &&
        (ts.tokenAt (i + 1)).data = "\x7b".toList)) = true then m else m') ts i = _
    rw [hbrace, hnext', Bool.and_false, Bool.false_and, Bool.or_false, if_neg Bool.false_ne_true]
  unfold parseTerm
  rcases primaryTree_type htree with htype | htype | htype
  · rcases primaryTree_ident htype htree with ⟨rfl, hdata⟩ | ⟨rfl, hdata⟩ | ⟨rfl, htrue, hfalse, -⟩
    · rw [ifIs_run_pos ⟨htype, hdata⟩, bind_run (eatType_run htype (by decide))]
      rfl
    · have hne : ¬ ts.At i .ident "true" := by
        rintro ⟨-, h⟩
        rw [hdata] at h
        exact absurd h (by decide)
      rw [ifIs_run_neg hne, ifIs_run_pos ⟨htype, hdata⟩, bind_run (eatType_run htype (by decide))]
      rfl
    -- An identifier comes last, after all that it could be instead.
    · have hne : ¬ ts.At i .ident "true" := fun hat => htrue hat.2
      have hne' : ¬ ts.At i .ident "false" := fun hat => hfalse hat.2
      have hbracket : ¬ ts.At i .bracket "[" := fun hat => hword hat.1
      have hnumber : (ts.tokenAt i).type ≠ .number := by rw [htype]; decide
      have hstring : (ts.tokenAt i).type ≠ .string := by rw [htype]; decide
      rw [ifIs_run_neg hne, ifIs_run_neg hne', ifType_run_neg hnumber, ifType_run_neg hstring,
        hstruct, ifIs_run_neg hbracket, ifType_run_pos htype]
      exact parseIdent_run htype hnext
  · have hne : ∀ data, ¬ ts.At i .ident data := by
      intro data hat
      exact absurd (htype.symm.trans hat.1) (by decide)
    rw [ifIs_run_neg (hne _), ifIs_run_neg (hne _), ifType_run_pos htype]
    exact parseNumber_run htype htree
  · have hne : ∀ data, ¬ ts.At i .ident data := by
      intro data hat
      exact absurd (htype.symm.trans hat.1) (by decide)
    have hnumber : (ts.tokenAt i).type ≠ .number := by rw [htype]; decide
    rw [ifIs_run_neg (hne _), ifIs_run_neg (hne _), ifType_run_neg hnumber, ifType_run_pos htype,
      bind_run (eatType_run htype (by decide))]
    unfold primaryTree at htree
    rw [htype] at htree
    cases htree
    rfl

/-- No word that `parsePrimary` asks for is an operand. -/
theorem not_at_keyword {tree : Tree} (htree : primaryTree (ts.tokenAt i) = some tree)
    {data : String}
    (hdata : data.toList ∈ primaryKeywords) : ¬ ts.At i .ident data := by
  intro hat
  rcases primaryTree_ident hat.1 htree with ⟨-, h⟩ | ⟨-, h⟩ | ⟨-, -, -, h⟩
  · rw [← hat.2, h] at hdata
    exact absurd hdata (by decide)
  · rw [← hat.2, h] at hdata
    exact absurd hdata (by decide)
  · rw [hat.2] at h
    exact h hdata

/-- An operand is no unary operator. -/
theorem unaryOp_priority {tree : Tree} (htree : primaryTree (ts.tokenAt i) = some tree) :
    (findOp unaryOps ⟨0, .not, none⟩ (ts.tokenAt i)).priority = 0 := by
  have hatom : (ts.tokenAt i).type ≠ .atom := by
    rcases primaryTree_type htree with h | h | h <;> rw [h] <;> decide
  have hrows : ∀ row ∈ unaryOps, row.1 = .atom ∨ row.1 = .ident ∧
      row.2.1.toList ∈ primaryKeywords := by
    exact forall_mem_of_all (by decide)
  have hnone : unaryOps.find? (fun row => (ts.tokenAt i).type = row.1 &&
      (ts.tokenAt i).data = row.2.1.toList) = none := by
    rw [List.find?_eq_none]
    intro row hrow hmatch
    rw [Bool.and_eq_true, decide_eq_true_eq, decide_eq_true_eq] at hmatch
    rcases hrows row hrow with h | ⟨h, hkeyword⟩
    · exact hatom (hmatch.1.trans h)
    · exact not_at_keyword htree hkeyword ⟨hmatch.1.trans h, hmatch.2⟩
  rw [findOp, hnone]

/-- Without a bracket, a `.`, a `.<` or a `=` at the index, the operand is complete and
nothing is read. -/
theorem parsePostfix_run {parseExpr : ParseM Tree} {start : Location} {term : Tree} {fuel : Nat}
    (h : EndsPrimary (ts.tokenAt i)) :
    parsePostfix parseExpr start term (fuel + 1) ts i = .ok (term, i) := by
  have hbracket : ∀ data, ¬ ts.At i .bracket data := fun data hat => h.1 hat.1
  have hdot : ¬ ts.At i .atom "." := fun hat => h.2 ⟨hat.1, by rw [hat.2]; decide⟩
  rw [parsePostfix, ifIs_run_neg (hbracket _), ifIs_run_neg (hbracket _), ifIs_run_neg hdot]
  rfl

/-- An operand of one token is parsed as its tree, whichever of the three kinds it is, up
to the token after it. -/
theorem parseTermPrimary_run {parseExpr : ParseM Tree} {fuel : Nat} {tree : Tree}
    (htree : primaryTree (ts.tokenAt i) = some tree) (hnext : EndsPrimary (ts.tokenAt (i + 1))) :
    parseTermPrimary parseExpr (fuel + 1) ts i = .ok (tree, i + 1) := by
  have hassign : ¬ ts.At (i + 1) .atom "=" := fun hat => hnext.2 ⟨hat.1, by rw [hat.2]; decide⟩
  show (parseTerm parseExpr (fuel + 1) >>= fun term =>
    parsePostfix parseExpr (ts.tokenAt i).location term (fuel + 1) >>= fun term =>
      TokenStream.is .atom "=" >>= fun b =>
        if b = true then parseAssign parseExpr term else pure term) ts i = _
  rw [bind_run (parseTerm_run htree hnext), bind_run (parsePostfix_run hnext), ifIs_run_neg hassign]
  rfl

/-- `parsePrimary`, at an operand of one token. -/
theorem parsePrimary_run {fuel : Nat} {tree : Tree}
    (htree : primaryTree (ts.tokenAt i) = some tree) (hnext : EndsPrimary (ts.tokenAt (i + 1))) :
    parsePrimary (fuel + 2) ts i = .ok (tree, i + 1) := by
  have hword : ∀ data : String, data.toList ∈ primaryKeywords → ¬ ts.At i .ident data :=
    fun data hdata => not_at_keyword htree hdata
  have hfalse : ∀ data : String, data.toList ∈ primaryKeywords →
      ((ts.tokenAt i).type = .ident && (ts.tokenAt i).data = data.toList) = false := by
    intro data hdata
    rw [Bool.eq_false_iff]
    intro hb
    rw [Bool.and_eq_true, decide_eq_true_eq, decide_eq_true_eq] at hb
    exact hword data hdata hb
  -- The token is no unary operator and no keyword.
  have hunary : parsePrimary (fuel + 2) ts i =
      parseKeyword (parseExpr (fuel + 1)) (fuel + 1) ts i := by
    rw [parsePrimary]
    show (if (findOp unaryOps ⟨0, .not, none⟩ (ts.tokenAt i)).priority ≠ 0 then _ else
      parseKeyword (parseExpr (fuel + 1)) (fuel + 1) : ParseM Tree) ts i = _
    rw [if_neg (not_not.mpr (unaryOp_priority htree))]
  rw [hunary]
  unfold parseKeyword
  have hdecl : ∀ m m' : ParseM Tree, (do
      if (← TokenStream.is .ident "extern") || (← TokenStream.is .ident "builtin") ||
        (← TokenStream.is .ident "inline") then m else m') ts i = m' ts i := by
    intro m m'
    show (if (((ts.tokenAt i).type = .ident && (ts.tokenAt i).data = "extern".toList) ||
      ((ts.tokenAt i).type = .ident && (ts.tokenAt i).data = "builtin".toList) ||
      ((ts.tokenAt i).type = .ident && (ts.tokenAt i).data = "inline".toList)) = true
      then m else m') ts i = _
    rw [hfalse "extern" (by decide), hfalse "builtin" (by decide), hfalse "inline" (by decide)]
    rfl
  rw [hdecl, ifIs_run_neg (hword _ (by decide)), ifIs_run_neg (hword _ (by decide)),
    ifIs_run_neg (hword _ (by decide)), ifIs_run_neg (hword _ (by decide)),
    ifIs_run_neg (hword _ (by decide)), ifIs_run_neg (hword _ (by decide)),
    ifIs_run_neg (hword _ (by decide))]
  exact parseTermPrimary_run htree hnext

/-! ### The loops -/

/-- The rest of an expression from an index on, with the token after it. -/
structure ExprRest (ts : TokenStream) (after : List Token) (i : Nat)
    (ops : List (Operator × Primary)) :
    Prop where
  drop_eq : ts.tokens.tokens.drop i = (ops.flatMap fun x => [x.1.token, x.2.token]) ++ after
  ends : ∀ t ∈ after.head?, EndsExpr t

/-- The token at an index is the first of those that are left from there, and the others
are left from the next index on. -/
theorem tokenAt_of_drop {t : Token} {tokens : List Token}
    (h : ts.tokens.tokens.drop i = t :: tokens) :
    ts.tokenAt i = t ∧ ts.tokens.tokens.drop (i + 1) = tokens := by
  have hget : ts.tokens.tokens[i]? = some t := by
    rw [← List.head?_drop, h]
    rfl
  constructor
  · rw [tokenAt, List.getD_eq_getElem?_getD, hget]
    rfl
  · rw [← List.tail_drop, h]
    rfl

/-- The token that stands for the end of the stream goes on with no expression. -/
theorem endsExpr_kEnd : EndsExpr kEnd := by
  refine ⟨by decide, by decide, fun h => ?_⟩
  exact absurd h.1 (by decide)

/-- The end of the stream is no operator, so every loop stops there. -/
theorem binaryOp_of_end {t : Token} (h : t.type = .end) : (binaryOp t).priority = 0 := by
  have hrows : ∀ row ∈ binaryOps, row.1 ≠ .end := forall_mem_of_all (by decide)
  have hnone : binaryOps.find? (fun row => t.type = row.1 && t.data = row.2.1.toList) = none := by
    rw [List.find?_eq_none]
    intro row hrow hmatch
    rw [Bool.and_eq_true, decide_eq_true_eq] at hmatch
    exact hrows row hrow (hmatch.1.symm.trans h)
  rw [binaryOp, findOp, hnone]

/-- No operand goes on at a binary operator. -/
theorem Operator.endsPrimary (op : Operator) : EndsPrimary op.token := by
  obtain ⟨t, hop⟩ := op
  show EndsPrimary t
  have hrows : ∀ row ∈ binaryOps, row.1 ≠ .bracket ∧
      ¬ (row.1 = .atom ∧ row.2.1.toList ∈ [".".toList, ".<".toList, "=".toList]) :=
    forall_mem_of_all (by decide)
  unfold binaryOp findOp at hop
  split at hop
  case h_1 row hfind =>
    have hmatch := List.find?_some hfind
    rw [Bool.and_eq_true, decide_eq_true_eq, decide_eq_true_eq] at hmatch
    obtain ⟨hbracket, hatom⟩ := hrows row (List.mem_of_find?_eq_some hfind)
    refine ⟨fun h => hbracket (hmatch.1.symm.trans h), fun h => hatom ⟨hmatch.1.symm.trans h.1, ?_⟩⟩
    rw [← hmatch.2]
    exact h.2
  case h_2 => exact absurd rfl hop

namespace ExprRest

variable {after : List Token} {x : Operator × Primary} {ops : List (Operator × Primary)}

/-- Where an operator is left, its token and that of its operand are the next two, and the
rest starts behind them. -/
theorem cons (h : ExprRest ts after i (x :: ops)) :
    ts.tokenAt i = x.1.token ∧ ts.tokenAt (i + 1) = x.2.token ∧ ExprRest ts after (i + 2) ops := by
  obtain ⟨hop, hdrop⟩ := tokenAt_of_drop h.drop_eq
  obtain ⟨hoperand, hdrop⟩ := tokenAt_of_drop hdrop
  exact ⟨hop, hoperand, hdrop, h.ends⟩

/-- Where no operator is left, the next token ends the expression. -/
theorem nil (h : ExprRest ts after i []) : EndsExpr (ts.tokenAt i) := by
  cases after with
  | nil =>
      have hsize : ts.size ≤ i := List.drop_eq_nil_iff.mp h.drop_eq
      rw [tokenAt_of_size_le hsize]
      exact endsExpr_kEnd
  | cons t after =>
      obtain ⟨ht, -⟩ := tokenAt_of_drop h.drop_eq
      rw [ht]
      exact h.ends t rfl

/-- The operand before the rest ends. -/
theorem endsPrimary (h : ExprRest ts after i ops) : EndsPrimary (ts.tokenAt i) := by
  cases ops with
  | nil => exact h.nil.2
  | cons x ops =>
      rw [h.cons.1]
      exact x.1.endsPrimary

end ExprRest

section

variable {limit fuel : Nat} {left : Tree}

/-- The outer loop stops. -/
theorem parseExprClimb_stop
    (h : ¬ ((binaryOp (ts.tokenAt i)).priority ≠ 0 ∧ (binaryOp (ts.tokenAt i)).priority ≥ limit)) :
    parseExprClimb limit (fuel + 1) left ts i = .ok (left, i) := by
  rw [parseExprClimb]
  show (if (binaryOp (ts.tokenAt i)).priority ≠ 0 ∧
    (binaryOp (ts.tokenAt i)).priority ≥ limit then _
    else pure left : ParseM Tree) ts i = _
  rw [if_neg h]
  rfl

/-- The outer loop takes an operator. -/
theorem parseExprClimb_take {tree right : Tree} {j : Nat}
    (h : (binaryOp (ts.tokenAt i)).priority ≠ 0 ∧ (binaryOp (ts.tokenAt i)).priority ≥ limit)
    (hmove : (ts.tokenAt i).type ≠ .end)
    (hprimary : parsePrimary fuel ts (i + 1) = .ok (tree, i + 2))
    (hright : parseExprRight (binaryOp (ts.tokenAt i)).priority fuel tree ts (i + 2) =
      .ok (right, j)) :
    parseExprClimb limit (fuel + 1) left ts i =
      parseExprClimb limit fuel
        (lowerBinaryOp (binaryOp (ts.tokenAt i)) left right (ts.tokenAt i).location) ts j := by
  rw [parseExprClimb]
  show (if (binaryOp (ts.tokenAt i)).priority ≠ 0 ∧ (binaryOp (ts.tokenAt i)).priority ≥ limit then
      TokenStream.get >>= fun start => TokenStream.move >>= fun _ => parsePrimary fuel >>=
        fun right =>
        parseExprRight (binaryOp (ts.tokenAt i)).priority fuel right >>= fun right =>
          parseExprClimb limit fuel (lowerBinaryOp
            (binaryOp (ts.tokenAt i)) left right start.location)
    else pure left : ParseM Tree) ts i = _
  have hget : TokenStream.get ts i = .ok (ts.tokenAt i, i) := rfl
  rw [if_pos h, bind_run hget, bind_run (move_run hmove), bind_run hprimary, bind_run hright]

/-- The inner loop stops. -/
theorem parseExprRight_stop
    (h : ¬ ((binaryOp (ts.tokenAt i)).priority ≠ 0 ∧ (binaryOp (ts.tokenAt i)).priority > limit)) :
    parseExprRight limit (fuel + 1) left ts i = .ok (left, i) := by
  rw [parseExprRight]
  show (if (binaryOp (ts.tokenAt i)).priority ≠ 0 ∧
    (binaryOp (ts.tokenAt i)).priority > limit then _
    else pure left : ParseM Tree) ts i = _
  rw [if_neg h]
  rfl

/-- The inner loop takes what is stronger. -/
theorem parseExprRight_take {right : Tree} {j : Nat}
    (h : (binaryOp (ts.tokenAt i)).priority ≠ 0 ∧ (binaryOp (ts.tokenAt i)).priority > limit)
    (hclimb : parseExprClimb (binaryOp (ts.tokenAt i)).priority fuel left ts i = .ok (right, j)) :
    parseExprRight limit (fuel + 1) left ts i = parseExprRight limit fuel right ts j := by
  rw [parseExprRight]
  show (if (binaryOp (ts.tokenAt i)).priority ≠ 0 ∧ (binaryOp (ts.tokenAt i)).priority > limit then
      parseExprClimb (binaryOp (ts.tokenAt i)).priority fuel left >>= fun right =>
        parseExprRight limit fuel right
    else pure left : ParseM Tree) ts i = _
  rw [if_pos h, bind_run hclimb]

end

/-- What a run of one of the loops is, from a ready left operand. -/
def ClimbsTo (ts : TokenStream) (after : List Token) (run : Tree → ParseM Tree) (limit : Nat)
    (left : OpTree Primary Operator) (i : Nat) (ops : List (Operator × Primary)) : Prop :=
  ∃ t ops' j, Climbed Operator.priority limit left ops t ops' ∧
    run (lowerTree left) ts i = .ok (lowerTree t, j) ∧ ExprRest ts after j ops' ∧
    i + 2 * ops.length = j + 2 * ops'.length

/-- The outer loop, with so many operators left. -/
def ClimbRuns (ts : TokenStream) (after : List Token) (n : Nat) : Prop :=
  ∀ {ops limit left i fuel}, ops.length ≤ n → 2 * n + 3 ≤ fuel → ExprRest ts after i ops →
    Ready Operator.priority limit left ops →
      ClimbsTo ts after (parseExprClimb limit fuel) limit left i ops

/-- The inner loop, with so many operators left. -/
def RightRuns (ts : TokenStream) (after : List Token) (n : Nat) : Prop :=
  ∀ {ops limit left i fuel}, ops.length ≤ n → 2 * n + 4 ≤ fuel → ExprRest ts after i ops →
    Ready Operator.priority (limit + 1) left ops →
      ClimbsTo ts after (parseExprRight limit fuel) (limit + 1) left i ops

section

variable {after : List Token} {n : Nat}

/-- The priority that the loops read at the index is that of the next operator. -/
theorem ExprRest.binaryOp_eq {x : Operator × Primary} {ops : List (Operator × Primary)}
    (h : ExprRest ts after i (x :: ops)) :
    (binaryOp (ts.tokenAt i)).priority = x.1.priority := by
  rw [h.cons.1]
  rfl

/-- At the end of the operators no loop goes on. -/
theorem ExprRest.priority_eq_zero (h : ExprRest ts after i []) :
    (binaryOp (ts.tokenAt i)).priority = 0 := h.nil.1

/-- The outer loop stops in front of an operator that is weaker than the limit, and
returns its left operand as it is. -/
theorem climbRuns_of_stop {ops : List (Operator × Primary)} {limit fuel : Nat}
    {left : OpTree Primary Operator} (hready : Ready Operator.priority limit left ops)
    (hrest : ExprRest ts after i ops) (hstop : ∀ x ∈ ops.head?, x.1.priority < limit)
    (hfuel : 0 < fuel) : ClimbsTo ts after (parseExprClimb limit fuel) limit left i ops := by
  obtain ⟨fuel, rfl⟩ : ∃ fuel', fuel = fuel' + 1 := ⟨fuel - 1, by omega⟩
  refine ⟨left, ops, i, .stop hready hstop, parseExprClimb_stop ?_, hrest, rfl⟩
  cases ops with
  | nil =>
      rw [hrest.priority_eq_zero]
      exact fun h => h.1 rfl
  | cons x ops =>
      rw [hrest.binaryOp_eq]
      exact fun h => Nat.not_lt.mpr h.2 (hstop x rfl)

/-- The inner loop stops in front of an operator that is no stronger than the last one,
and returns its right operand as it is. -/
theorem rightRuns_of_stop {ops : List (Operator × Primary)} {limit fuel : Nat}
    {left : OpTree Primary Operator} (hready : Ready Operator.priority (limit + 1) left ops)
    (hrest : ExprRest ts after i ops) (hstop : ∀ x ∈ ops.head?, x.1.priority < limit + 1)
    (hfuel : 0 < fuel) : ClimbsTo ts after (parseExprRight limit fuel) (limit + 1) left i ops := by
  obtain ⟨fuel, rfl⟩ : ∃ fuel', fuel = fuel' + 1 := ⟨fuel - 1, by omega⟩
  refine ⟨left, ops, i, .stop hready hstop, parseExprRight_stop ?_, hrest, rfl⟩
  cases ops with
  | nil =>
      rw [hrest.priority_eq_zero]
      exact fun h => h.1 rfl
  | cons x ops =>
      rw [hrest.binaryOp_eq]
      have := hstop x rfl
      exact fun h => Nat.not_lt.mpr h.2 (by omega)

/-- The outer loop takes an operator, and the inner one its right operand. -/
theorem climbRuns_succ (hclimb : ClimbRuns ts after n) (hright : RightRuns ts after n) :
    ClimbRuns ts after (n + 1) := by
  intro ops limit left i fuel hlength hfuel hrest hready
  cases ops with
  | nil => exact climbRuns_of_stop hready hrest (fun _ h => nomatch h) (by omega)
  | cons x ops =>
      by_cases hlimit : limit ≤ x.1.priority
      · obtain ⟨op, p⟩ := x
        obtain ⟨fuel, rfl⟩ : ∃ fuel', fuel = fuel' + 2 + 1 := ⟨fuel - 3, by omega⟩
        obtain ⟨hop, hoperand, hrest'⟩ := hrest.cons
        rw [List.length_cons] at hlength
        have htree : primaryTree (ts.tokenAt (i + 1)) = some p.tree := by
          rw [hoperand]
          exact p.tree_eq
        have hprimary : parsePrimary (fuel + 2) ts (i + 1) = .ok (p.tree, i + 2) :=
          parsePrimary_run htree hrest'.endsPrimary
        have hmove : (ts.tokenAt i).type ≠ .end := by
          intro hend
          have hzero : (binaryOp (ts.tokenAt i)).priority = 0 := binaryOp_of_end hend
          rw [hop] at hzero
          exact op.isOp hzero
        have htake : (binaryOp (ts.tokenAt i)).priority ≠ 0 ∧
            (binaryOp (ts.tokenAt i)).priority ≥ limit := by
          rw [hop]
          exact ⟨op.isOp, hlimit⟩
        -- the right operand, from the operand of one token
        have hoperands : ClimbsTo ts after (parseExprRight op.priority (fuel + 2)) (op.priority + 1)
            (.leaf p) (i + 2) ops := hright (by omega) (by omega) hrest' .leaf
        obtain ⟨right, ops₁, j₁, hclimbed, hrun, hrest₁, hindex₁⟩ := hoperands
        have hshorter : ops₁.length ≤ ops.length := hclimbed.length_le
        -- and on with the operator at the root
        have hgoes : ClimbsTo ts after (parseExprClimb limit (fuel + 2)) limit (.node op left right)
            j₁ ops₁ := hclimb (by omega) (by omega) hrest₁
              (Climbed.ready_node hready hlimit hclimbed)
        obtain ⟨t, ops₂, j₂, hclimbed', hrun', hrest₂, hindex₂⟩ := hgoes
        refine ⟨t, ops₂, j₂, .take hclimbed hclimbed', ?_, hrest₂, ?_⟩
        · have hstep : parseExprRight (binaryOp (ts.tokenAt i)).priority
            (fuel + 2) p.tree ts (i + 2) =
              .ok (lowerTree right, j₁) := by
            rw [hop]
            exact hrun
          rw [parseExprClimb_take htake hmove hprimary hstep, hop]
          exact hrun'
        · rw [List.length_cons]
          omega
      · exact climbRuns_of_stop hready hrest (by
          rintro x' ⟨⟩
          omega) (by omega)

/-- The inner loop takes what is stronger with the outer one. -/
theorem rightRuns_of_climbRuns (hclimb : ClimbRuns ts after n)
    (hright : ∀ m, m < n → RightRuns ts after m) : RightRuns ts after n := by
  intro ops limit left i fuel hlength hfuel hrest hready
  cases ops with
  | nil => exact rightRuns_of_stop hready hrest (fun _ h => nomatch h) (by omega)
  | cons x ops =>
      by_cases hlimit : limit + 1 ≤ x.1.priority
      · obtain ⟨fuel, rfl⟩ : ∃ fuel', fuel = fuel' + 1 := ⟨fuel - 1, by omega⟩
        obtain ⟨hop, -, -⟩ := hrest.cons
        have htake : (binaryOp (ts.tokenAt i)).priority ≠ 0 ∧
            (binaryOp (ts.tokenAt i)).priority > limit := by
          rw [hop]
          exact ⟨x.1.isOp, hlimit⟩
        have hstronger : ClimbsTo ts after (parseExprClimb x.1.priority fuel) x.1.priority left i
            (x :: ops) := hclimb hlength (by omega) hrest hready.next
        obtain ⟨right, ops₁, j₁, hclimbed, hrun, hrest₁, hindex₁⟩ := hstronger
        -- an operator was taken
        have hshorter := hclimbed.length_lt (Nat.le_refl _)
        rw [List.length_cons] at hlength hshorter
        have hgoes : ClimbsTo ts after (parseExprRight limit fuel) (limit + 1) right j₁ ops₁ :=
          hright (n - 1) (by omega) (by omega) (by omega) hrest₁ (hclimbed.ready hlimit)
        obtain ⟨t, ops₂, j₂, hclimbed', hrun', hrest₂, hindex₂⟩ := hgoes
        refine ⟨t, ops₂, j₂, hclimbed.trans hclimbed', ?_, hrest₂, by omega⟩
        have hstep : parseExprClimb (binaryOp (ts.tokenAt i)).priority fuel (lowerTree left) ts i =
            .ok (lowerTree right, j₁) := by
          rw [hop]
          exact hrun
        rw [parseExprRight_take htake hstep]
        exact hrun'
      · exact rightRuns_of_stop hready hrest (by
          rintro x' ⟨⟩
          omega) (by omega)

/-- Both loops climb, by induction on how many operators are left. The outer loop with one
operator less calls the inner one, and the inner loop calls the outer one with a higher
limit on the operators that are left then, which is why the two are proved together. -/
theorem climbRuns_and_rightRuns (n : Nat) : ClimbRuns ts after n ∧ RightRuns ts after n := by
  induction n using Nat.strongRecOn with
  | ind n ih =>
      have hclimb : ClimbRuns ts after n := by
        cases n with
        | zero =>
            intro ops limit left i fuel hlength hfuel hrest hready
            rw [List.length_eq_zero_iff.mp (Nat.le_zero.mp hlength)] at hready hrest ⊢
            exact climbRuns_of_stop hready hrest (fun _ h => nomatch h) (by omega)
        | succ n =>
            obtain ⟨hclimb, hright⟩ := ih n (Nat.lt_succ_self n)
            exact climbRuns_succ hclimb hright
      exact ⟨hclimb, rightRuns_of_climbRuns hclimb fun m hm => (ih m hm).2⟩

/-- `parseExpr` on operands of one token with binary operators between them and a token
after them that they do not go on at: it reads these tokens and returns the one ordered
tree whose tokens they are, lowered. -/
theorem parseExpr_precedence (ts : TokenStream) (i : Nat) (p : Primary)
    (ops : List (Operator × Primary)) (after : List Token)
    (hstream : ts.tokens.tokens.drop i = exprTokens p ops ++ after)
    (hafter : ∀ t ∈ after.head?, EndsExpr t) {fuel : Nat} (hfuel : 2 * ops.length + 4 ≤ fuel) :
    ∃ t : OpTree Primary Operator,
      (treeTokens t = exprTokens p ops ∧ t.Ordered Operator.priority) ∧
        (∀ t', treeTokens t' = exprTokens p ops → t'.Ordered Operator.priority → t' = t) ∧
          parseExpr fuel ts i = .ok (lowerTree t, i + (exprTokens p ops).length) := by
  obtain ⟨fuel, rfl⟩ : ∃ fuel', fuel = fuel' + 2 + 1 := ⟨fuel - 3, by omega⟩
  obtain ⟨hp, hdrop⟩ := tokenAt_of_drop hstream
  have hrest : ExprRest ts after (i + 1) ops := ⟨hdrop, hafter⟩
  have htree : primaryTree (ts.tokenAt i) = some p.tree := by
    rw [hp]
    exact p.tree_eq
  have hclimb : ClimbsTo ts after (parseExprClimb 0 (fuel + 2)) 0 (.leaf p) (i + 1) ops :=
    (climbRuns_and_rightRuns ops.length).1 (Nat.le_refl _) (by omega) hrest .leaf
  obtain ⟨t, ops', j, hclimbed, hrun, hrest', hindex⟩ := hclimb
  -- every operator is taken
  have hnil : ops' = [] := by
    cases ops' with
    | nil => rfl
    | cons x ops' => exact absurd (hclimbed.stops x rfl) (Nat.not_lt_zero _)
  subst hnil
  obtain ⟨taken, htaken, hops⟩ := hclimbed.takes
  have hreading : treeTokens t = exprTokens p ops := by
    rw [treeTokens_eq, hclimbed.first_eq, htaken, hops, List.append_nil]
    rfl
  refine ⟨t, ⟨hreading, hclimbed.ordered⟩, fun t' htokens hordered => ?_, ?_⟩
  · have heq : exprTokens t'.first t'.rest = exprTokens t.first t.rest := by
      rw [← treeTokens_eq, ← treeTokens_eq, htokens, hreading]
    obtain ⟨hfirst, hrest⟩ := exprTokens_injective heq
    exact Ordered.eq_of_reading hordered hclimbed.ordered hfirst hrest
  · have hlength : (exprTokens p ops).length = 2 * ops.length + 1 := by
      rw [exprTokens, List.length_cons, List.length_flatMap]
      simp [Nat.mul_comm]
    have hj : j = i + (exprTokens p ops).length := by
      rw [hlength]
      simp only [List.length_nil] at hindex
      omega
    rw [parseExpr, bind_run (parsePrimary_run htree hrest.endsPrimary)]
    rw [← hj]
    exact hrun

/-- A name of one letter, as an operand. -/
def letterAt (name : Char) (offset : Nat)
    (h : primaryTree ⟨.ident, [name], offset, offset, {}⟩ = some (.ident {} [name] []) := by rfl) :
    Primary :=
  ⟨⟨.ident, [name], offset, offset, {}⟩, .ident {} [name] [], h⟩

/-- `a+b*c-d`, without the first operand. -/
def mixedRest : List (Operator × Primary) :=
  [(⟨⟨.atom, ['+'], 1, 1, {}⟩, by decide⟩, letterAt 'b' 2),
   (⟨⟨.atom, ['*'], 3, 3, {}⟩, by decide⟩, letterAt 'c' 4),
   (⟨⟨.atom, ['-'], 5, 5, {}⟩, by decide⟩, letterAt 'd' 6)]

/-- `a+b*c-d` at the end of a line. -/
def mixedStream : TokenStream where
  output := {}
  tokens := ⟨[⟨0, 0⟩], exprTokens (letterAt 'a' 0) mixedRest ++ [⟨.line, [], 7, 0, {}⟩]⟩

/-- The case of `a+b*c-d`, whose operators have two priorities. -/
theorem parseExpr_precedence_mixed :
    ∃ t : OpTree Primary Operator,
      (treeTokens t = exprTokens (letterAt 'a' 0) mixedRest ∧ t.Ordered Operator.priority) ∧
        (∀ t', treeTokens t' = exprTokens (letterAt 'a' 0) mixedRest →
          t'.Ordered Operator.priority → t' = t) ∧
          parseExpr 10 mixedStream 0 = .ok (lowerTree t, 0 + 7) :=
  parseExpr_precedence mixedStream 0 (letterAt 'a' 0) mixedRest [⟨.line, [], 7, 0, {}⟩] rfl
    (by
      rintro t ⟨⟩
      exact ⟨by decide, by decide, fun h => absurd h.1 (by decide)⟩)
    (by decide)

end

end Aike
