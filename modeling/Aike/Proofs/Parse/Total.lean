import Aike.Proofs.Parse.Calls
import Aike.Proofs.Parse.Monad

/-!
# `Aike.Proofs.Parse.Total`: the parser ends and fails no assertion

`parseSpec` says of every call of the parser at which indices and with how much fuel it
is made, where it ends and what it builds. What reads something moves on (`Advances`),
and what is no statement does not end with a newline (`Inner`). A call made by another
one is further on in the stream, or it is at the same index and of a lower `rank`.

The lemmas for the bodies go function by function. `body_meets` puts them together, and
by `Calls.run_meets` the parser keeps to the spec.
-/

set_option autoImplicit false

namespace Aike

open TokenStream Calls

variable {ts : TokenStream} {i j k : Nat}

/-- A word of the stream is inside of it, and what comes after it too. -/
theorem TokenStream.At.inner {type : TokenType} {data : String} (h : ts.At i type data)
    (hend : type ≠ .end) (hline : type ≠ .line) : ts.Inner i (i + 1) :=
  .step (h.lt_size hend) (h.type_ne hline)

/-- A token of a type that is neither the end nor a newline is inside of the stream. The
variant of `At.inner` for a word of which only the type is known. -/
theorem TokenStream.Inner.of_type {type : TokenType} (h : (ts.tokenAt i).type = type)
    (hend : type ≠ .end) (hline : type ≠ .line) : ts.Inner i (i + 1) := by
  subst h
  exact .step (lt_size_of_type hend) hline

/-! ### Names of modules -/

/-- The name of a module: identifiers with dots between them. -/
structure IsModuleName (name : Str) : Prop where
  ne_nil : name ≠ []
  chars : ∀ ch ∈ name, isIdent ch = true ∨ ch = '.'

/-- An identifier is the name of a module. -/
theorem IsIdentText.isModuleName {text : Str} (h : IsIdentText text) : IsModuleName text :=
  ⟨h.ne_nil, fun ch hch => .inl (h.chars ch hch)⟩

/-- A longer path is a name, too: the dot and the letters behind it are allowed. -/
theorem IsModuleName.append {path text : Str} (h : IsModuleName path) (ht : IsIdentText text) :
    IsModuleName (path ++ ".".toList ++ text) := by
  refine ⟨fun hnil => h.ne_nil ?_, fun ch hch => ?_⟩
  · exact (List.append_eq_nil_iff.mp (List.append_eq_nil_iff.mp hnil).1).1
  · rcases List.mem_append.mp hch with hleft | htext
    · rcases List.mem_append.mp hleft with hpath | hdot
      · exact h.chars ch hpath
      · exact .inr (List.mem_singleton.mp hdot)
    · exact .inl (ht.chars ch htext)

/-! ### The spec -/

/-- A property of trees that the nodes the parser builds have, if their parts do. -/
structure TreeClosed (P : Tree → Prop) : Prop where
  literalVoid : ∀ l, P (.literalVoid l)
  literalBool : ∀ l value, P (.literalBool l value)
  literalInteger : ∀ l value, P (.literalInteger l value)
  literalFloat : ∀ l value, P (.literalFloat l value)
  literalString : ∀ l value, P (.literalString l value)
  literalTuple : ∀ l fields, (∀ t ∈ fields, P t) → P (.literalTuple l fields)
  literalArray : ∀ l elements, (∀ t ∈ elements, P t) → P (.literalArray l elements)
  literalStruct : ∀ l type name fields, (∀ f ∈ fields, P f.2) →
    P (.literalStruct l type name fields)
  ident : ∀ l name tyargs, P (.ident l name tyargs)
  member : ∀ l expr field, P expr → P (.member l expr field)
  block : ∀ l body, (∀ t ∈ body, P t) → P (.block l body)
  call : ∀ l expr args, P expr → (∀ t ∈ args, P t) → P (.call l expr args)
  unary : ∀ l op expr, P expr → P (.unary l op expr)
  binary : ∀ l op left right, P left → P right → P (.binary l op left right)
  index : ∀ l expr idx, P expr → P idx → P (.index l expr idx)
  assign : ∀ l left right, P left → P right → P (.assign l left right)
  ifThen : ∀ l cond thenbody, P cond → P thenbody → P (.ifThen l cond thenbody)
  ifElse : ∀ l cond thenbody elsebody, P cond → P thenbody → P elsebody →
    P (.ifElse l cond thenbody elsebody)
  forIn : ∀ l var index expr body, P expr → P body → P (.forIn l var index expr body)
  whileLoop : ∀ l expr body, P expr → P body → P (.while l expr body)
  fn : ∀ l id decl, P decl → P (.fn l id decl)
  llvm : ∀ l code, P (.llvm l code)
  /-- The type of a function is made of the types of its arguments. -/
  fnDecl : ∀ l var tyargs args attributes body ret varargs,
    var.type = .function (args.map VarTree.type) ret varargs → (∀ t ∈ body, P t) →
      P (.fnDecl l var tyargs args attributes body)
  varDecl : ∀ l var expr, P expr → P (.varDecl l var expr)
  tyDecl : ∀ l name tyargs fields, (∀ f ∈ fields, ∀ t ∈ f.2.2, P t) →
    P (.tyDecl l name tyargs fields)
  /-- An import has the name of a module. -/
  importName : ∀ l name, IsModuleName name → P (.import l name)

/-- A property of trees holds of the imports of a stream, which have names if the stream
is sound. -/
def ImportsClosed (ts : TokenStream) (P : Tree → Prop) : Prop :=
  ∀ l name, (ts.Sound → IsModuleName name) → P (.import l name)

/-- The unary operator at an index. -/
def unaryOpAt (ts : TokenStream) (i : Nat) : OpDef UnaryOp :=
  findOp unaryOps ⟨0, .not, none⟩ (ts.tokenAt i)

/-- The binary operator at an index. -/
def binaryOpAt (ts : TokenStream) (i : Nat) : OpDef BinaryOp :=
  findOp binaryOps ⟨0, .or, none⟩ (ts.tokenAt i)

/-- Of two calls at one index, the one that is made by the other has the lower rank. -/
def ParseFn.rank : ParseFn → Nat
  | .parseBlockExpr => 8
  | .parseBlock => 7
  | .parseIndent => 6
  | .parseIndentFrom | .parseList | .parseArguments => 5
  | .parseExpr => 4
  | .parsePrimary => 3
  | .parseTerm | .parsePostfix | .parseFieldLine | .parseExprRight => 2
  | .move => 0
  | _ => 1

/-- There is fuel for the expressions from an index on. -/
def HasFuel (ts : TokenStream) (m base : Nat) : Prop :=
  ∀ i, base ≤ i → i ≤ ts.size → 3 * (ts.size - i) + 2 ≤ m

/-- Fuel that is enough from an index on is enough from a later one on. -/
theorem HasFuel.mono {m base base' : Nat} (h : HasFuel ts m base) (hle : base ≤ base') :
    HasFuel ts m base' := fun i hi => h i (Nat.le_trans hle hi)

/-- There is fuel for the loops and for the expressions from an index on. -/
structure HasFuels (ts : TokenStream) (m n base : Nat) : Prop where
  exprs : HasFuel ts m base
  loops : ts.size < n + base

/-- `HasFuel.mono`, with the fuel of the loops. -/
theorem HasFuels.mono {m n base base' : Nat} (h : HasFuels ts m n base) (hle : base ≤ base') :
    HasFuels ts m n base' := ⟨h.exprs.mono hle, by have := h.loops; omega⟩

/-- The index that a call ends at. -/
def Call.Ends {α : Type} (ts : TokenStream) (F : Call α) (i j : Nat) : Prop :=
  match F with
  | .move => j = i + 1
  | .parseList type close _ _ => i ≤ j ∧ ts.At j type close
  | .parseArguments .. | .parseIndentFrom .. | .parseIndent .. | .parseTypeSignature _
  | .parseTypeAscription _ | .parseBlock .. | .parseImportPath .. | .parseExprRight .. =>
      i ≤ j ∧ j ≤ ts.size
  | .parseTypeArguments _ | .parsePostfix .. => j = i ∨ ts.Inner i j
  | .parseType _ | .parseCall .. | .parseIndex .. | .parseIdent _ | .parseMember ..
  | .parseLiteralArray .. | .parseLiteralStruct .. | .parseParens .. | .parseNumber
  | .parseTerm .. => ts.Inner i j
  | .parseExprClimb limit _ _ => (i ≤ j ∧ j ≤ ts.size) ∧
      ((binaryOpAt ts i).priority ≠ 0 ∧ (binaryOpAt ts i).priority ≥ limit → i < j)
  | _ => ts.Advances i j

/-- What a call builds. -/
def Call.Good (ts : TokenStream) (P : Tree → Prop) : {α : Type} → Call α → α → Prop
  | _, .parseList _ _ item _, as => ∀ a ∈ as, item.Good ts P a
  | _, .parseIndentFrom _ _ _ f _, as => ∀ a ∈ as, f.Good ts P a
  | _, .parseIndent _ f _, as => ∀ a ∈ as, f.Good ts P a
  | _, .parseFnSignature _, sig =>
      ∃ ret varargs, sig.1 = .function (sig.2.map VarTree.type) ret varargs
  | _, .parseFieldLine _ _, f => ∀ t ∈ f.2.2, P t
  | _, .parseLiteralField _, f => P f.2
  | _, .parseImportPath _ _ _, r => ts.Sound → IsModuleName r.1
  | _, .parseBlock _ _ _, t => P t
  | _, .parseBlockExpr _ _ _, t => P t
  | _, .parseFn _ _, t => P t
  | _, .parseFnBody _ _ _, t => P t
  | _, .parseFnDecl _ _, t => P t
  | _, .parseVarDecl _ _, t => P t
  | _, .parseStructDecl _ _, t => P t
  | _, .parseImport _, t => P t
  | _, .parseCall _ _ _ _ _, t => P t
  | _, .parseIndex _ _, t => P t
  | _, .parseIdent _, t => P t
  | _, .parseMember _ _ _, t => P t
  | _, .parseAssign _ _, t => P t
  | _, .parseIf _ _, t => P t
  | _, .parseFor _ _, t => P t
  | _, .parseWhile _ _, t => P t
  | _, .parseLiteralArray _ _, t => P t
  | _, .parseLiteralStruct _ _, t => P t
  | _, .parseParens _ _, t => P t
  | _, .parseNumber, t => P t
  | _, .parseTerm _ _, t => P t
  | _, .parsePostfix _ _ _ _, t => P t
  | _, .parsePrimary _, t => P t
  | _, .parseExprRight _ _ _, t => P t
  | _, .parseExprClimb _ _ _, t => P t
  | _, .parseExpr _, t => P t
  | _, _, _ => True

/-- A call that a loop may repeat. -/
structure Call.IsItem {α : Type} (ts : TokenStream) (F : Call α) : Prop where
  rank_lt : F.fn.rank < 5
  advances : ∀ i j, F.Ends ts i j → ts.Advances i j

/-- What moves on and calls no loop at its own index can be an item. -/
theorem Call.IsItem.of_fn {α : Type} {F : Call α} (f : ParseFn) (hf : F.fn = f)
    (hrank : f.rank < 5) (hends : ∀ i j, F.Ends ts i j → ts.Advances i j) : F.IsItem ts :=
  ⟨by rw [hf]; exact hrank, hends⟩

/-- Types can be the items of a list: `parseType` reads at least one token. -/
theorem parseType_isItem {n : Nat} : (Call.parseType n).IsItem ts :=
  .of_fn .parseType rfl (by decide) fun _ _ h => Inner.advances h

/-- Expressions can be the items of a list or the lines of a block: `parseExpr` reads at
least one token. -/
theorem parseExpr_isItem {m : Nat} : (Call.parseExpr m).IsItem ts :=
  .of_fn .parseExpr rfl (by decide) fun _ _ h => h

/-- What holds where a call is made. -/
def Call.Pre (ts : TokenStream) (P : Tree → Prop) : {α : Type} → Call α → Nat → Prop
  | _, .move, i => (ts.tokenAt i).type ≠ .end
  | _, .parseList _ _ item n, i | _, .parseArguments item n, i
  | _, .parseIndentFrom _ _ _ item n, i =>
      ts.size < n + i ∧ item.IsItem ts ∧ ∀ j, i ≤ j → j ≤ ts.size → item.Pre ts P j
  | _, .parseIndent indent f n, i => (∀ loc ∈ indent, ts.InTable loc) ∧
      ts.size < n + i ∧ f.IsItem ts ∧ ∀ j, i ≤ j → j ≤ ts.size → f.Pre ts P j
  | _, .parseTypeArguments n, i | _, .parseType n, i | _, .parseTypeSignature n, i
  | _, .parseTypeAscription n, i | _, .argument n, i | _, .parseFnSignature n, i
  | _, .parseFieldNames n, i => ts.size < n + i
  | _, .typeParameter, _ | _, .parseNumber, _ => True
  | _, .parseBlock m indent n, i | _, .parseBlockExpr m indent n, i =>
      (∀ loc ∈ indent, ts.InTable loc) ∧ HasFuels ts m n i
  | _, .parseFnBody m indent n, i =>
      (∀ loc ∈ indent, ts.InTable loc) ∧ HasFuels ts m n (i + 1)
  | _, .parseFieldLine m n, i => HasFuels ts m n i
  | _, .parseFn m n, i | _, .parseFnDecl m n, i | _, .parseVarDecl m n, i
  | _, .parseStructDecl m n, i | _, .parseIf m n, i | _, .parseFor m n, i
  | _, .parseWhile m n, i | _, .parseLiteralArray m n, i | _, .parseLiteralStruct m n, i
  | _, .parseTerm m n, i => HasFuels ts m n (i + 1)
  | _, .parseParens m n, i => ts.At i .bracket "(" ∧ HasFuels ts m n (i + 1)
  | _, .parseImport n, i | _, .parseIdent n, i => ts.size < n + (i + 1)
  | _, .parseImportPath path location n, i =>
      (ts.Sound → IsModuleName path) ∧ (ts.Located → ts.Before location i) ∧ ts.size < n + i
  | _, .parseCall m expr start self n, i => (P expr ∧ ∀ t ∈ self, P t) ∧
      (ts.Located → ts.Before start i) ∧ HasFuels ts m n (i + 1)
  | _, .parseIndex m expr, i | _, .parseAssign m expr, i => P expr ∧ HasFuel ts m (i + 1)
  | _, .parseMember m expr n, i => P expr ∧ HasFuels ts m n (i + 1)
  | _, .parseLiteralField m, i => HasFuel ts m i
  | _, .parsePostfix m start term n, i =>
      P term ∧ (ts.Located → ts.Before start i) ∧ HasFuel ts m (i + 1) ∧ ts.size < n + i
  | _, .parsePrimary n, i => 3 * (ts.size - i) + 1 ≤ n
  | _, .parseExprRight _ n right, i => P right ∧ 3 * (ts.size - i) + 2 ≤ n
  | _, .parseExprClimb _ n left, i => P left ∧ 3 * (ts.size - i) + 1 ≤ n
  | _, .parseExpr n, i => 3 * (ts.size - i) + 2 ≤ n

/-- Where a call ends, and what it builds. -/
def Call.Post {α : Type} (ts : TokenStream) (P : Tree → Prop) (F : Call α) (i : Nat) (a : α)
    (j : Nat) : Prop := F.Ends ts i j ∧ F.Good ts P a


/-! ### Rules -/

/-- What a body may rely on: the calls below its own end as the spec says. -/
structure CallsMeet (ts : TokenStream) (P : Tree → Prop) (c : ParseCalls) (i r : Nat) : Prop where
  pos : 0 < r
  after : ∀ {α : Type} (F : Call α) (k : Nat), i < k → k ≤ ts.size → F.Pre ts P k →
    Halts ts (c _ F) k (F.Post ts P k)
  here : ∀ {α : Type} (F : Call α), F.fn.rank < r → i ≤ ts.size → F.Pre ts P i →
    Halts ts (c _ F) i (F.Post ts P i)

section Rules

variable {P : Tree → Prop} {c : ParseCalls} {r : Nat} {type : TokenType} {data : String}
  (hc : CallsMeet ts P c i r)

include hc

/-- `move` may be called wherever there is a token, at the start of the body or later. It
ends one token further, so this is all that is left to show behind it. -/
theorem CallsMeet.move {Q : Unit → Nat → Prop} (hik : i ≤ k) (hend : (ts.tokenAt k).type ≠ .end)
    (h : Q () (k + 1)) : Halts ts (c _ .move) k Q := by
  have hlt := lt_size_of_type hend
  have hmove : Halts ts (c _ .move) k fun _ j => j = k + 1 ∧ True := by
    rcases Nat.eq_or_lt_of_le hik with rfl | hlt'
    · exact hc.here .move hc.pos (Nat.le_of_lt hlt) hend
    · exact hc.after .move k hlt' (Nat.le_of_lt hlt) hend
  exact hmove.mono fun _ j hj => by
    rw [hj.1]
    exact h

/-- A token that must be there: it is read, or the parser stops with a diagnostic, which
counts as an end. -/
theorem CallsMeet.eat {Q : Unit → Nat → Prop} (hik : i ≤ k) (hend : type ≠ .end)
    (h : ts.At k type data → Q () (k + 1)) : Halts ts (c.eat type data) k Q := by
  refine .bind (.expect fun hat => hc.move hik ?_ (h hat))
  rw [hat.1]
  exact hend

/-- `eat`, when only the type of the token is given. -/
theorem CallsMeet.eatType {Q : Token → Nat → Prop} (hik : i ≤ k) (hend : type ≠ .end)
    (h : (ts.tokenAt k).type = type → Q (ts.tokenAt k) (k + 1)) :
    Halts ts (c.eatType type) k Q := by
  refine .bind (.expectType fun htype => .get (.bind (hc.move hik ?_ (.pure (h htype)))))
  rw [htype]
  exact hend

/-- In a list, an item is followed by the closing token, at which nothing is read, or by a
comma. So there is progress, unless the list is over. -/
theorem CallsMeet.eatComma {close : String} (hik : i ≤ k) :
    Halts ts (c.eatComma type close) k fun _ j =>
      (j = k ∧ ts.At k type close) ∨ (j = k + 1 ∧ k < ts.size) :=
  .ifIs (fun hat => .pure (.inl ⟨rfl, hat⟩)) fun _ =>
    hc.eat hik (by decide) fun hat => .inr ⟨rfl, hat.lt_size (by decide)⟩

/-- `eatNewline` reads a newline token, or nothing: the last token may have been one. -/
theorem CallsMeet.eatNewline (hik : i ≤ k) (hk : k ≤ ts.size) :
    Halts ts c.eatNewline k fun _ j => k ≤ j ∧ j ≤ ts.size := by
  refine .ifType (fun hline => hc.move hik ?_ ?_) fun _ => ?_
  · rw [hline]
    decide
  · refine ⟨by omega, lt_size_of_type ?_⟩
    rw [hline]
    decide
  · show Halts ts (if (if k = 0 then kEnd else ts.tokenAt (k - 1)).type ≠ .line then _ else _) k _
    exact .ite (fun _ => .expectType fun _ => ⟨Nat.le_refl k, hk⟩) fun _ =>
      .pure ⟨Nat.le_refl k, hk⟩

/-- `skipNewline` reads at most one token and never stops. -/
theorem CallsMeet.skipNewline (hik : i ≤ k) (hk : k ≤ ts.size) :
    Halts ts c.skipNewline k fun _ j => k ≤ j ∧ j ≤ ts.size := by
  refine .ifType (fun hline => hc.move hik ?_ ⟨Nat.le_succ k, lt_size_of_type ?_⟩) fun _ =>
    .pure ⟨Nat.le_refl k, hk⟩
  all_goals
    rw [hline]
    decide

/-- A word before a function is read if it is there. -/
theorem CallsMeet.attribute (hik : i ≤ k) (hk : k ≤ ts.size) (word : String) :
    Halts ts (c.attribute word) k fun _ j => k ≤ j ∧ j ≤ ts.size :=
  .ifIs (fun hat => .bind (hc.move hik (hat.type_ne (by decide))
    (.pure ⟨Nat.le_succ k, hat.lt_size (by decide)⟩))) fun _ => .pure ⟨Nat.le_refl k, hk⟩

/-- The index of a `for` is read if there is a comma: two tokens more. -/
theorem CallsMeet.forIndex (hik : i ≤ k) (hk : k ≤ ts.size) :
    Halts ts c.forIndex k fun _ j => k ≤ j ∧ j ≤ ts.size := by
  refine .ifIs (fun hat => ?_) fun _ => .pure ⟨Nat.le_refl k, hk⟩
  refine .bind (hc.move hik (hat.type_ne (by decide))
    (.bind (hc.eatType (by omega) (by decide) fun hname => ?_)))
  exact .pure ⟨by omega, (Inner.of_type hname (by decide) (by decide)).le⟩

end Rules

/-- `leavesIndent` looks lines up and reads nothing. Each line that it asks for is in the
table, so no lookup goes wrong. -/
theorem leavesIndent_halts (indent : Option Location) (startIndent firstIndent : Nat) :
    Halts ts (leavesIndent indent startIndent firstIndent) i fun _ j => j = i := by
  refine .ite (fun _ => .get (.bind (.getLineIndent (inTable i) fun lineIndent => ?_)))
    fun _ => .pure rfl
  refine .ite (fun _ => .pure rfl) fun _ => ?_
  exact .bind (.panicIf (fun hl => hl.fits i) fun _ => .pure rfl)

/-- The same for the indent of the line that a block belongs to. -/
theorem getStartIndent_halts {indent : Option Location}
    (hindent : ∀ loc ∈ indent, ts.InTable loc) :
    Halts ts (getStartIndent indent) i fun _ j => j = i := by
  cases indent with
  | none => exact .pure rfl
  | some loc => exact .getLineIndent (hindent loc rfl) fun _ => rfl

/-- The same for the check that an `else` is below its `if`. -/
theorem checkElse_halts {start : Location} (hline : ts.InTable start) :
    Halts ts (checkElse start) i fun _ j => j = i := by
  refine .get (.bind (.getLineIndent hline fun _ => .bind (.getLineIndent (inTable i) fun _ => ?_)))
  exact .panicIf (fun hl => hl.fits i) fun _ => rfl

/-! ### Bodies -/

section Bodies

variable {α : Type} {P : Tree → Prop} {c : ParseCalls} {m n : Nat}

/-- The body of a call meets its spec, if the calls below do. -/
def BodyHalts {α : Type} (ts : TokenStream) (P : Tree → Prop) (F : Call α) : Prop :=
  ∀ {c : ParseCalls} {i : Nat}, CallsMeet ts P c i F.fn.rank → i ≤ ts.size → F.Pre ts P i →
    Halts ts (Call.body c _ F) i (F.Post ts P i)

/-! #### Loops -/

/-- Each turn of `parseList` reads an item and a comma, so there are at most as many as
tokens. The items are what the item makes, and the closing token is the next one. -/
theorem parseList_halts (type : TokenType) (close : String) (item : Call α) :
    BodyHalts ts P (.parseList type close item n) := by
  intro c i hc hi ⟨hn, hitem, hpre⟩
  match n with
  | 0 => omega
  | n + 1 =>
  refine .ifIs (fun hat => .pure ⟨⟨Nat.le_refl i, hat⟩, List.forall_mem_nil _⟩) fun _ => ?_
  refine .bind ((hc.here item hitem.rank_lt hi (hpre i (Nat.le_refl i) hi)).mono
    fun a j ⟨hends, ha⟩ => ?_)
  obtain ⟨hij, hj⟩ := hitem.advances i j hends
  refine .bind ((hc.eatComma (by omega)).mono fun _ k hk => ?_)
  -- the next turn is one token further at least
  obtain ⟨hik, hk⟩ : i < k ∧ k ≤ ts.size := by omega
  refine .bind ((hc.after (.parseList type close item n) k hik hk
    ⟨by omega, hitem, fun l hl => hpre l (by omega)⟩).mono fun as l ⟨⟨hkl, hat⟩, has⟩ => .pure ?_)
  exact ⟨⟨by omega, hat⟩, List.forall_mem_cons.mpr ⟨ha, has⟩⟩

/-- `parseArguments` is `parseList` with an end of its own, the `...`. -/
theorem parseArguments_halts (item : Call α) : BodyHalts ts P (.parseArguments item n) := by
  intro c i hc hi ⟨hn, hitem, hpre⟩
  match n with
  | 0 => omega
  | n + 1 =>
  refine .ifIs (fun hat => .pure ⟨⟨Nat.le_refl i, hi⟩, trivial⟩) fun _ => ?_
  refine .ifIs (fun hat => ?_) fun _ => ?_
  · have hlt := hat.lt_size (by decide)
    exact .bind (hc.move (Nat.le_refl i) (hat.type_ne (by decide))
      (.pure ⟨⟨by omega, hlt⟩, trivial⟩))
  refine .bind ((hc.here item hitem.rank_lt hi (hpre i (Nat.le_refl i) hi)).mono
    fun a j ⟨hends, _⟩ => ?_)
  obtain ⟨hij, hj⟩ := hitem.advances i j hends
  refine .bind ((hc.eatComma (by omega)).mono fun _ k hk => ?_)
  obtain ⟨hik, hk⟩ : i < k ∧ k ≤ ts.size := by omega
  refine .bind ((hc.after (.parseArguments item n) k hik hk
    ⟨by omega, hitem, fun l hl => hpre l (by omega)⟩).mono fun as l ⟨⟨hkl, hl⟩, _⟩ => .pure ?_)
  exact ⟨⟨by omega, hl⟩, trivial⟩

/-- Each turn of the loop of `parseIndent` reads an item. It ends at the end of the
tokens, and at a line that is not indented like the first one. -/
theorem parseIndentFrom_halts (indent : Option Location) (startIndent firstIndent : Nat)
    (f : Call α) : BodyHalts ts P (.parseIndentFrom indent startIndent firstIndent f n) := by
  intro c i hc hi ⟨hn, hitem, hpre⟩
  match n with
  | 0 => omega
  | n + 1 =>
  refine .ifType (fun _ => .pure ⟨⟨Nat.le_refl i, hi⟩, List.forall_mem_nil _⟩) fun _ => ?_
  refine .bind ((hc.here f hitem.rank_lt hi (hpre i (Nat.le_refl i) hi)).mono
    fun a j ⟨hends, ha⟩ => ?_)
  obtain ⟨hij, hj⟩ := hitem.advances i j hends
  have hone := List.forall_mem_singleton.mpr ha
  refine .ifType (fun _ => .pure ⟨⟨by omega, hj⟩, hone⟩) fun _ => ?_
  refine .bind ((hc.eatNewline (by omega) hj).mono fun _ k ⟨hjk, hk⟩ => ?_)
  refine .bind ((leavesIndent_halts indent startIndent firstIndent).mono fun leaves l hl => ?_)
  subst hl
  refine .ite (fun _ => .pure ⟨⟨by omega, hk⟩, hone⟩) fun _ => ?_
  refine .bind ((hc.after (.parseIndentFrom indent startIndent firstIndent f n) l (by omega) hk
    ⟨by omega, hitem, fun l' hl' => hpre l' (by omega)⟩).mono fun as k' ⟨⟨hlk, hk'⟩, has⟩ =>
      .pure ?_)
  exact ⟨⟨by omega, hk'⟩, List.forall_mem_cons.mpr ⟨ha, has⟩⟩

/-- `parseIndent` looks up two indents and goes into its loop, at the same index: the rank
of the loop is lower. -/
theorem parseIndent_halts (indent : Option Location) (f : Call α) :
    BodyHalts ts P (.parseIndent indent f n) := by
  intro c i hc hi ⟨hindent, hpre⟩
  refine .bind ((getStartIndent_halts hindent).mono fun startIndent j hj => ?_)
  subst hj
  refine .get (.bind (.getLineIndent (inTable j) fun firstIndent => ?_))
  refine .bind (.panicIf (fun hl => hl.fits j) fun _ => ?_)
  have hrank : ParseFn.rank .parseIndentFrom < ParseFn.rank .parseIndent := by decide
  exact hc.here (.parseIndentFrom indent startIndent firstIndent f n) hrank hi hpre

/-! #### Types -/

/-- Type arguments are there or not, and `<` is read before the list. -/
theorem parseTypeArguments_halts : BodyHalts ts P (.parseTypeArguments n) := by
  intro c i hc hi hn
  have hn : ts.size < n + i := hn
  refine .ifIs (fun hat => ?_) fun _ => .pure ⟨.inl rfl, trivial⟩
  have hlt := hat.lt_size (by decide)
  refine .bind (hc.eat (Nat.le_refl i) (by decide) fun _ => ?_)
  refine .bind ((hc.after (.parseList .atom ">" (.parseType n) n) (i + 1) (Nat.lt_succ_self i) hlt
    ⟨by omega, parseType_isItem, fun j hj _ => ?_⟩).mono fun args j ⟨⟨hij, _⟩, _⟩ => ?_)
  · show ts.size < n + j
    omega
  refine .bind (hc.eat (by omega) (by decide) fun hat => .pure ⟨.inr ?_, trivial⟩)
  exact (hat.inner (by decide) (by decide)).of_le (by omega)

/-- A type is a word, or its parts come behind its first token, where `parseType` is
called with less fuel. So there is a type, or a diagnostic at the token. -/
theorem parseType_halts : BodyHalts ts P (.parseType n) := by
  intro c i hc hi hn
  have hn : ts.size < n + i := hn
  match n with
  | 0 => omega
  | n + 1 =>
  -- a word that is a type by itself
  have hword : ∀ {word : String} {t : TyTree}, ts.At i .ident word →
      Halts ts (c.word t) i (Call.Post ts P (.parseType (n + 1)) i) := fun hat =>
    .bind (hc.move (Nat.le_refl i) (hat.type_ne (by decide))
      (.pure ⟨hat.inner (by decide) (by decide), trivial⟩))
  -- the types inside of this one come after its first token
  have hT : ∀ j, i < j → j ≤ ts.size → Halts ts (c _ (.parseType n)) j fun _ k => ts.Inner j k := by
    intro j hij hj
    have hpre : Call.Pre ts P (.parseType n) j := by
      show ts.size < n + j
      omega
    exact (hc.after (.parseType n) j hij hj hpre).mono fun _ k hk => hk.1
  have hpre : ∀ j, i + 1 ≤ j → j ≤ ts.size → Call.Pre ts P (.parseType n) j := by
    intro j hij _
    show ts.size < n + j
    omega
  refine .ifIs hword fun _ => .ifIs hword fun _ => .ifIs hword fun _ => .ifIs hword fun _ =>
    .ifIs hword fun _ => .ifIs hword fun _ => ?_
  refine .ifIs (fun hat => ?tuple) fun _ => .ifIs (fun hat => ?array) fun _ =>
    .ifIs (fun hat => ?pointer) fun _ => .ifIs (fun hat => ?function) fun _ =>
    .ifType (fun htype => ?inst) fun _ => .get (.panic fun hl => hl.fits i)
  case tuple =>
    have hlt := hat.lt_size (by decide)
    refine .bind (hc.eat (Nat.le_refl i) (by decide) fun _ => ?_)
    refine .bind ((hc.after (.parseList .bracket ")" (.parseType n) n) (i + 1)
      (Nat.lt_succ_self i) hlt ⟨by omega, parseType_isItem, hpre⟩).mono
        fun fields j ⟨⟨hij, _⟩, _⟩ => ?_)
    refine .bind (hc.eat (by omega) (by decide) fun hat => ?_)
    have hin : ts.Inner i (j + 1) := (hat.inner (by decide) (by decide)).of_le (by omega)
    match fields with
    | [] => exact .pure ⟨hin, trivial⟩
    | [_] => exact .pure ⟨hin, trivial⟩
    | _ :: _ :: _ => exact .pure ⟨hin, trivial⟩
  case array =>
    have hlt := hat.lt_size (by decide)
    refine .bind (hc.eat (Nat.le_refl i) (by decide) fun _ => ?_)
    refine .bind ((hT (i + 1) (Nat.lt_succ_self i) hlt).mono fun element j hj => ?_)
    have hij := hj.lt
    refine .bind (hc.eat (by omega) (by decide) fun hat => .pure ⟨?_, trivial⟩)
    exact (hat.inner (by decide) (by decide)).of_le (by omega)
  case pointer =>
    have hlt := hat.lt_size (by decide)
    refine .bind (hc.move (Nat.le_refl i) (hat.type_ne (by decide)) ?_)
    refine .bind ((hT (i + 1) (Nat.lt_succ_self i) hlt).mono fun element j hj =>
      .pure ⟨?_, trivial⟩)
    exact hj.of_le (Nat.le_succ i)
  case function =>
    have hlt := hat.lt_size (by decide)
    refine .bind (hc.move (Nat.le_refl i) (hat.type_ne (by decide)) ?_)
    refine .bind (hc.eat (Nat.le_succ i) (by decide) fun hat => ?_)
    have hlt' := hat.lt_size (by decide)
    refine .bind ((hc.after (.parseArguments (.parseType n) n) (i + 1 + 1) (by omega) hlt'
      ⟨by omega, parseType_isItem, fun j hj => hpre j (by omega)⟩).mono
        fun args j ⟨⟨hij, _⟩, _⟩ => ?_)
    refine .bind (hc.eat (by omega) (by decide) fun _ =>
      .bind (hc.eat (by omega) (by decide) fun hat => ?_))
    have hlt'' := hat.lt_size (by decide)
    refine .bind ((hT (j + 1 + 1) (by omega) hlt'').mono fun ret k hk => .pure ⟨?_, trivial⟩)
    exact hk.of_le (by omega)
  case inst =>
    have hname := Inner.of_type htype (by decide) (by decide)
    have hargs : Call.Pre ts P (.parseTypeArguments n) (i + 1) := by
      show ts.size < n + (i + 1)
      omega
    refine .bind (hc.eatType (Nat.le_refl i) (by decide) fun _ => ?_)
    refine .bind ((hc.after (.parseTypeArguments n) (i + 1) (Nat.lt_succ_self i) hname.le
      hargs).mono fun tysig j ⟨hj, _⟩ => .pure ⟨?_, trivial⟩)
    rcases hj with rfl | hj
    · exact hname
    · exact hj.of_le (Nat.le_succ i)

/-- The name of a type parameter is one token. -/
theorem typeParameter_halts : BodyHalts ts P .typeParameter := by
  intro c i hc hi _
  refine .bind (hc.eatType (Nat.le_refl i) (by decide) fun htype => .pure ⟨?_, trivial⟩)
  exact (Inner.of_type htype (by decide) (by decide)).advances

/-- The type parameters of a declaration are there or not, like type arguments. -/
theorem parseTypeSignature_halts : BodyHalts ts P (.parseTypeSignature n) := by
  intro c i hc hi hn
  have hn : ts.size < n + i := hn
  refine .ifIs (fun hat => ?_) fun _ => .pure ⟨⟨Nat.le_refl i, hi⟩, trivial⟩
  have hlt := hat.lt_size (by decide)
  refine .bind (hc.eat (Nat.le_refl i) (by decide) fun _ => ?_)
  refine .bind ((hc.after (.parseList .atom ">" .typeParameter n) (i + 1) (Nat.lt_succ_self i) hlt
    ⟨by omega, ⟨by decide, fun _ _ h => h⟩, fun _ _ _ => trivial⟩).mono
      fun args j ⟨⟨hij, _⟩, _⟩ => ?_)
  refine .bind (hc.eat (by omega) (by decide) fun hat => .pure ⟨⟨by omega, ?_⟩, trivial⟩)
  exact hat.lt_size (by decide)

/-- A type is given behind a colon, or nothing is read. -/
theorem parseTypeAscription_halts : BodyHalts ts P (.parseTypeAscription n) := by
  intro c i hc hi hn
  have hn : ts.size < n + i := hn
  refine .ifIs (fun hat => ?_) fun _ => .pure ⟨⟨Nat.le_refl i, hi⟩, trivial⟩
  have hlt := hat.lt_size (by decide)
  have hpre : Call.Pre ts P (.parseType n) (i + 1) := by
    show ts.size < n + (i + 1)
    omega
  refine .bind (hc.move (Nat.le_refl i) (hat.type_ne (by decide)) ?_)
  refine (hc.after (.parseType n) (i + 1) (Nat.lt_succ_self i) hlt hpre).mono fun _ j ⟨hj, _⟩ => ?_
  exact ⟨⟨by have := hj.lt; omega, hj.le⟩, trivial⟩

/-! #### Blocks and functions -/

/-- A block is `parseIndent` of expressions. There is fuel for each line of it, as the
fuel of expressions is enough at every later index. -/
theorem parseBlock_halts (hP : TreeClosed P) (indent : Option Location) :
    BodyHalts ts P (.parseBlock m indent n) := by
  intro c i hc hi ⟨hindent, hfuels⟩
  have hrank : ParseFn.rank .parseIndent < ParseFn.rank .parseBlock := by decide
  refine .bind ((hc.here (.parseIndent indent (.parseExpr m) n) hrank hi
    ⟨hindent, hfuels.loops, parseExpr_isItem, hfuels.exprs⟩).mono
      fun body j ⟨hj, hbody⟩ => .pure ⟨hj, hP.block _ _ hbody⟩)

/-- The body of a construct is the rest of the line or an indented block. The block comes
behind a newline token, and the expression is called at the same index with a lower rank. -/
theorem parseBlockExpr_halts (indent : Option Location) :
    BodyHalts ts P (.parseBlockExpr m indent n) := by
  intro c i hc hi ⟨hindent, hfuels⟩
  refine .ifType (fun hline => ?_) fun _ => ?_
  · have hne : (ts.tokenAt i).type ≠ .end := by
      rw [hline]
      decide
    refine .bind (hc.move (Nat.le_refl i) hne ?_)
    refine (hc.after (.parseBlock m indent n) (i + 1) (Nat.lt_succ_self i) (lt_size_of_type hne)
      ⟨hindent, hfuels.mono (Nat.le_succ i)⟩).mono fun _ j ⟨⟨hij, hj⟩, ht⟩ => ?_
    exact ⟨⟨by omega, hj⟩, ht⟩
  · have hrank : ParseFn.rank .parseExpr < ParseFn.rank .parseBlockExpr := by decide
    refine .bind ((hc.here (.parseExpr m) hrank hi (hfuels.exprs i (Nat.le_refl i) hi)).mono
      fun result j ⟨⟨hij, hj⟩, hresult⟩ => ?_)
    refine .bind ((hc.skipNewline (by omega) hj).mono fun _ k hk => .pure ?_)
    exact ⟨⟨by omega, hk.2⟩, hresult⟩

/-- An argument is a name and maybe a type. -/
theorem argument_halts : BodyHalts ts P (.argument n) := by
  intro c i hc hi hn
  have hn : ts.size < n + i := hn
  refine .bind (hc.eatType (Nat.le_refl i) (by decide) fun htype => ?_)
  have hname := Inner.of_type htype (by decide) (by decide)
  have hpre : Call.Pre ts P (.parseTypeAscription n) (i + 1) := by
    show ts.size < n + (i + 1)
    omega
  refine .bind ((hc.after (.parseTypeAscription n) (i + 1) (Nat.lt_succ_self i) hname.le
    hpre).mono fun type k ⟨⟨hik, hk⟩, _⟩ => .pure ⟨⟨by omega, hk⟩, trivial⟩)

/-- The signature of a function: its type is made of the types of the arguments, whatever
they are. This is what `TreeClosed.fnDecl` asks for. -/
theorem parseFnSignature_halts : BodyHalts ts P (.parseFnSignature n) := by
  intro c i hc hi hn
  have hn : ts.size < n + i := hn
  refine .bind (hc.eat (Nat.le_refl i) (by decide) fun hat => ?_)
  have hlt := hat.lt_size (by decide)
  refine .bind ((hc.after (.parseArguments (.argument n) n) (i + 1) (Nat.lt_succ_self i) hlt
    ⟨by omega, .of_fn .argument rfl (by decide) fun _ _ h => h, fun j hj _ => ?_⟩).mono
      fun args j ⟨⟨hij, hj⟩, _⟩ => ?_)
  · show ts.size < n + j
    omega
  refine .bind (hc.eat (by omega) (by decide) fun hat' => ?_)
  have hlt' := hat'.lt_size (by decide)
  have hpre : Call.Pre ts P (.parseTypeAscription n) (j + 1) := by
    show ts.size < n + (j + 1)
    omega
  refine .bind ((hc.after (.parseTypeAscription n) (j + 1) (by omega) hlt' hpre).mono
    fun ret k ⟨⟨hjk, hk⟩, _⟩ => .pure ⟨⟨by omega, hk⟩, ret, args.2, rfl⟩)

/-- An anonymous function is its signature and a body, which come behind `fn`. -/
theorem parseFn_halts (hP : TreeClosed P) : BodyHalts ts P (.parseFn m n) := by
  intro c i hc hi hfuels
  have hfuels : HasFuels ts m n (i + 1) := hfuels
  refine .get (.bind (hc.eat (Nat.le_refl i) (by decide) fun hat => ?_))
  have hlt := hat.lt_size (by decide)
  refine .bind ((hc.after (.parseFnSignature n) (i + 1) (Nat.lt_succ_self i) hlt
    hfuels.loops).mono fun sig j ⟨⟨hij, hj⟩, ret, varargs, hsig⟩ => ?_)
  refine .bind ((hc.after (.parseBlockExpr m (some (ts.tokenAt i).location) n) j (by omega) hj
    ⟨inTable_some i, hfuels.mono (by omega)⟩).mono fun body k ⟨⟨hjk, hk⟩, hbody⟩ => ?_)
  refine .getIndex (.pure ⟨⟨by omega, hk⟩, hP.fn _ _ _ ?_⟩)
  exact hP.fnDecl _ _ _ _ _ _ ret varargs hsig (by rintro _ ⟨⟩; exact hbody)

/-- The body of a declaration is a block, or one `llvm` token with its code. Either way a
newline token is read before. -/
theorem parseFnBody_halts (hP : TreeClosed P) (indent : Option Location) :
    BodyHalts ts P (.parseFnBody m indent n) := by
  intro c i hc hi ⟨hindent, hfuels⟩
  refine .bind (hc.eatType (Nat.le_refl i) (by decide) fun hline => ?_)
  have hlt : i < ts.size := lt_size_of_type (by rw [hline]; decide)
  refine .ifIs (fun hat => ?_) fun _ => ?_
  · refine .bind (hc.move (by omega) (hat.type_ne (by decide)) ?_)
    refine .bind (hc.eatType (by omega) (by decide) fun hcode =>
      .pure ⟨⟨by omega, ?_⟩, hP.llvm _ _⟩)
    exact (Inner.of_type hcode (by decide) (by decide)).le
  · refine (hc.after (.parseBlock m indent n) (i + 1) (Nat.lt_succ_self i) hlt
      ⟨hindent, hfuels⟩).mono fun _ j ⟨⟨hij, hj⟩, ht⟩ => ?_
    exact ⟨⟨by omega, hj⟩, ht⟩

/-- A declaration has a body or none; without one nothing is read. -/
theorem CallsMeet.fnDeclBody {r : Nat} (hc : CallsMeet ts P c i r) {indent : Option Location}
    (hindent : ∀ loc ∈ indent, ts.InTable loc) (hik : i < k) (hk : k ≤ ts.size)
    (hfuels : HasFuels ts m n (k + 1)) (bodyImplicit : Bool) :
    Halts ts (c.fnDeclBody m bodyImplicit indent n) k fun body j =>
      k ≤ j ∧ j ≤ ts.size ∧ ∀ t ∈ body, P t :=
  .ite (fun _ => .pure ⟨Nat.le_refl k, hk, by rintro _ ⟨⟩⟩) fun _ =>
    .bind ((hc.after (.parseFnBody m indent n) k hik hk ⟨hindent, hfuels⟩).mono
      fun _ _ ⟨⟨hkj, hj⟩, hbody⟩ => .pure ⟨Nat.le_of_lt hkj, hj, by rintro _ ⟨⟩; exact hbody⟩)

/-- The declaration of a function: up to three attributes, `fn`, the name, the type
parameters, the signature and the body. Each part ends where the next one is called. -/
theorem parseFnDecl_halts (hP : TreeClosed P) : BodyHalts ts P (.parseFnDecl m n) := by
  intro c i hc hi hfuels
  have hfuels : HasFuels ts m n (i + 1) := hfuels
  have hloops := hfuels.loops
  refine .get (.bind ((hc.attribute (Nat.le_refl i) hi _).mono fun _ j₁ h₁ => ?_))
  refine .bind ((hc.attribute (by omega) h₁.2 _).mono fun _ j₂ h₂ => ?_)
  refine .bind ((hc.attribute (by omega) h₂.2 _).mono fun _ j₃ h₃ => ?_)
  refine .bind (hc.eat (by omega) (by decide) fun _ =>
    .bind (hc.eatType (by omega) (by decide) fun hname => ?_))
  have hname := Inner.of_type hname (by decide) (by decide)
  have hpre : Call.Pre ts P (.parseTypeSignature n) (j₃ + 1 + 1) := by
    show ts.size < n + (j₃ + 1 + 1)
    omega
  refine .bind ((hc.after (.parseTypeSignature n) _ (by omega) hname.le hpre).mono
    fun _ j₄ ⟨⟨hle₄, h₄⟩, _⟩ => ?_)
  have hpre : Call.Pre ts P (.parseFnSignature n) j₄ := by
    show ts.size < n + j₄
    omega
  refine .bind ((hc.after (.parseFnSignature n) j₄ (by omega) h₄ hpre).mono
    fun sig j₅ ⟨⟨hlt₅, h₅⟩, ret, varargs, hsig⟩ => ?_)
  refine .bind ((hc.fnDeclBody (inTable_some i) (by omega) h₅ (hfuels.mono (by omega)) _).mono
    fun _ j₆ ⟨hle₆, h₆, hbody⟩ => .pure ⟨⟨by omega, h₆⟩, ?_⟩)
  exact hP.fnDecl _ _ _ _ _ _ ret varargs hsig hbody

/-! #### Declarations -/

/-- A variable is `var`, a name, maybe a type, and its value. -/
theorem parseVarDecl_halts (hP : TreeClosed P) : BodyHalts ts P (.parseVarDecl m n) := by
  intro c i hc hi hfuels
  have hfuels : HasFuels ts m n (i + 1) := hfuels
  have hloops := hfuels.loops
  refine .bind (hc.eat (Nat.le_refl i) (by decide) fun _ =>
    .bind (hc.eatType (by omega) (by decide) fun hname => ?_))
  have hname := Inner.of_type hname (by decide) (by decide)
  have hpre : Call.Pre ts P (.parseTypeAscription n) (i + 1 + 1) := by
    show ts.size < n + (i + 1 + 1)
    omega
  refine .bind ((hc.after (.parseTypeAscription n) _ (by omega) hname.le hpre).mono
    fun _ j ⟨⟨hij, hj⟩, _⟩ => ?_)
  refine .bind (hc.eat (by omega) (by decide) fun hat => ?_)
  have hlt := hat.lt_size (by decide)
  refine .bind ((hc.after (.parseExpr m) (j + 1) (by omega) hlt
    (hfuels.exprs (j + 1) (by omega) hlt)).mono fun expr k ⟨⟨hjk, hk⟩, hexpr⟩ => .pure ?_)
  exact ⟨⟨by omega, hk⟩, hP.varDecl _ _ _ hexpr⟩

/-- The names of some fields, with commas between them: each turn reads a name. -/
theorem parseFieldNames_halts : BodyHalts ts P (.parseFieldNames n) := by
  intro c i hc hi hn
  have hn : ts.size < n + i := hn
  match n with
  | 0 => omega
  | n + 1 =>
  refine .bind (hc.eatType (Nat.le_refl i) (by decide) fun hname => ?_)
  have hname := Inner.of_type hname (by decide) (by decide)
  refine .ifIs (fun hat => ?_) fun _ => .pure ⟨hname.advances, trivial⟩
  have hpre : Call.Pre ts P (.parseFieldNames n) (i + 1 + 1) := by
    show ts.size < n + (i + 1 + 1)
    omega
  refine .bind (hc.move (by omega) (hat.type_ne (by decide)) ?_)
  refine .bind ((hc.after (.parseFieldNames n) _ (by omega) (hat.lt_size (by decide)) hpre).mono
    fun _ j ⟨⟨hij, hj⟩, _⟩ => .pure ⟨⟨by omega, hj⟩, trivial⟩)

/-- A line of fields: names, the type, and maybe a default, which is then one of the trees
in it. -/
theorem parseFieldLine_halts : BodyHalts ts P (.parseFieldLine m n) := by
  intro c i hc hi hfuels
  have hfuels : HasFuels ts m n i := hfuels
  have hloops := hfuels.loops
  have hrank : ParseFn.rank .parseFieldNames < ParseFn.rank .parseFieldLine := by decide
  refine .bind ((hc.here (.parseFieldNames n) hrank hi hloops).mono fun _ j ⟨⟨hij, hj⟩, _⟩ => ?_)
  refine .bind (hc.eat (by omega) (by decide) fun hat => ?_)
  have hlt := hat.lt_size (by decide)
  have hpre : Call.Pre ts P (.parseType n) (j + 1) := by
    show ts.size < n + (j + 1)
    omega
  refine .bind ((hc.after (.parseType n) (j + 1) (by omega) hlt hpre).mono fun ty k ⟨hk, _⟩ => ?_)
  have hjk := hk.lt
  refine .ifIs (fun hat' => ?_) fun _ => .pure ⟨⟨by omega, hk.le⟩, by rintro _ ⟨⟩⟩
  have hlt' := hat'.lt_size (by decide)
  refine .bind (hc.move (by omega) (hat'.type_ne (by decide)) ?_)
  refine .bind ((hc.after (.parseExpr m) (k + 1) (by omega) hlt'
    (hfuels.exprs (k + 1) (by omega) hlt')).mono fun expr l ⟨⟨hkl, hl⟩, hexpr⟩ => .pure ?_)
  exact ⟨⟨by omega, hl⟩, by rintro _ ⟨⟩; exact hexpr⟩

/-- A struct is its name, its type parameters and an indented list of lines of fields. -/
theorem parseStructDecl_halts (hP : TreeClosed P) : BodyHalts ts P (.parseStructDecl m n) := by
  intro c i hc hi hfuels
  have hfuels : HasFuels ts m n (i + 1) := hfuels
  have hloops := hfuels.loops
  refine .get (.bind (hc.eat (Nat.le_refl i) (by decide) fun _ =>
    .bind (hc.eatType (by omega) (by decide) fun hname => ?_)))
  have hname := Inner.of_type hname (by decide) (by decide)
  have hpre : Call.Pre ts P (.parseTypeSignature n) (i + 1 + 1) := by
    show ts.size < n + (i + 1 + 1)
    omega
  refine .bind ((hc.after (.parseTypeSignature n) _ (by omega) hname.le hpre).mono
    fun _ j ⟨⟨hij, hj⟩, _⟩ => ?_)
  refine .bind (hc.eatType (by omega) (by decide) fun hline => ?_)
  have hlt : j < ts.size := lt_size_of_type (by rw [hline]; decide)
  have hitem : (Call.parseFieldLine m n).IsItem ts :=
    .of_fn .parseFieldLine rfl (by decide) fun _ _ h => h
  refine .bind ((hc.after
    (.parseIndent (some (ts.tokenAt i).location) (.parseFieldLine m n) n) (j + 1) (by omega) hlt
    ⟨inTable_some i, by omega, hitem, fun k hk _ => hfuels.mono (by omega)⟩).mono
      fun _ k ⟨⟨hjk, hk⟩, hfields⟩ => .pure ?_)
  exact ⟨⟨by omega, hk⟩, hP.tyDecl _ _ _ _ hfields⟩

/-- The rest of the name of a module, each turn a dot and an identifier. The name stays
one of a module, as the tokens of a sound stream are identifiers. -/
theorem parseImportPath_halts (path : Str) (loc : Location) :
    BodyHalts ts P (.parseImportPath path loc n) := by
  intro c i hc hi ⟨hpath, hloc, hn⟩
  match n with
  | 0 => omega
  | n + 1 =>
  refine .is fun b hb => .get (.ite (fun hif => ?_) fun _ => .pure ⟨⟨Nat.le_refl i, hi⟩, hpath⟩)
  have hat := hb.mp hif.1
  refine .bind (hc.move (Nat.le_refl i) (hat.type_ne (by decide))
    (.bind (hc.eatType (Nat.le_succ i) (by decide) fun hname => ?_)))
  have hname' := Inner.of_type hname (by decide) (by decide)
  have hnotLine : (ts.tokenAt (i + 1)).type ≠ .line := by
    rw [hname]
    decide
  refine .bind (.span hloc (Nat.le_succ i) hname'.le hnotLine fun loc' hsource hspan => ?_)
  -- the span ends where the name ends
  have hloc' : ts.Located → ts.Before loc' (i + 1 + 1) := by
    intro hl k hk hlt hkLine
    obtain ⟨h₁, h₂⟩ := hl.ordered (i + 1) k hk hlt hkLine
    exact ⟨hsource.trans h₁, by omega⟩
  have hpath' : ts.Sound → IsModuleName (path ++ ".".toList ++ (ts.tokenAt (i + 1)).data) :=
    fun hs => (hpath hs).append (hs.identData (i + 1) hname)
  exact (hc.after
    (.parseImportPath (path ++ ".".toList ++ (ts.tokenAt (i + 1)).data) loc' n) (i + 1 + 1)
    (by omega) hname'.le ⟨hpath', hloc', by omega⟩).mono
      fun _ j ⟨⟨hij, hj⟩, hr⟩ => ⟨⟨by omega, hj⟩, hr⟩

/-- An import reads the first identifier and the rest of the name. It builds an import
tree of a module that has a name. -/
theorem parseImport_halts (hI : ImportsClosed ts P) : BodyHalts ts P (.parseImport n) := by
  intro c i hc hi hn
  have hn : ts.size < n + (i + 1) := hn
  refine .bind (hc.eat (Nat.le_refl i) (by decide) fun _ =>
    .bind (hc.eatType (Nat.le_succ i) (by decide) fun hname => ?_))
  have hdata : ts.Sound → IsModuleName (ts.tokenAt (i + 1)).data := fun hs =>
    (hs.identData (i + 1) hname).isModuleName
  have hname := Inner.of_type hname (by decide) (by decide)
  refine .bind ((hc.after
    (.parseImportPath (ts.tokenAt (i + 1)).data (ts.tokenAt (i + 1)).location n) (i + 1 + 1)
    (by omega) hname.le ⟨hdata, fun hl => hl.ordered (i + 1), by omega⟩).mono
      fun r j ⟨⟨hij, hj⟩, hr⟩ => .pure ?_)
  exact ⟨⟨by omega, hj⟩, hI _ _ hr⟩

/-! #### Calls, members and statements -/

/-- A call reads its arguments between parentheses. The location of the call starts at the
term, which is before it in the stream. -/
theorem parseCall_halts (hP : TreeClosed P) (expr : Tree) (start : Location)
    (self : Option Tree) : BodyHalts ts P (.parseCall m expr start self n) := by
  intro c i hc hi ⟨⟨hexpr, hself⟩, hstart, hfuels⟩
  refine .bind (hc.eat (Nat.le_refl i) (by decide) fun hat => ?_)
  have hlt := hat.lt_size (by decide)
  refine .bind ((hc.after (.parseList .bracket ")" (.parseExpr m) n) (i + 1) (Nat.lt_succ_self i)
    hlt ⟨hfuels.loops, parseExpr_isItem, hfuels.exprs⟩).mono
      fun args j ⟨⟨hij, _⟩, hargs⟩ => ?_)
  refine .get (.bind (hc.eat (by omega) (by decide) fun hat' => ?_))
  have hclose := hat'.inner (by decide) (by decide)
  refine .bind (.span hstart (by omega) hclose.le hclose.notLine fun loc _ _ => .pure ?_)
  refine ⟨hclose.of_le (by omega), hP.call _ _ _ hexpr fun t ht => ?_⟩
  rcases List.mem_append.mp ht with ht | ht
  · exact hself t (Option.mem_toList.mp ht)
  · exact hargs t ht

/-- An index is an expression between brackets. -/
theorem parseIndex_halts (hP : TreeClosed P) (expr : Tree) :
    BodyHalts ts P (.parseIndex m expr) := by
  intro c i hc hi ⟨hexpr, hfuel⟩
  refine .get (.bind (hc.eat (Nat.le_refl i) (by decide) fun hat => ?_))
  have hlt := hat.lt_size (by decide)
  refine .bind ((hc.after (.parseExpr m) (i + 1) (Nat.lt_succ_self i) hlt
    (hfuel (i + 1) (Nat.le_refl _) hlt)).mono fun index j ⟨⟨hij, hj⟩, hindex⟩ => ?_)
  refine .bind (hc.eat (by omega) (by decide) fun hat' => .pure ⟨?_, hP.index _ _ _ hexpr hindex⟩)
  exact (hat'.inner (by decide) (by decide)).of_le (by omega)

/-- An identifier may have type arguments. It ends at the last token that it reads. -/
theorem parseIdent_halts (hP : TreeClosed P) : BodyHalts ts P (.parseIdent n) := by
  intro c i hc hi hn
  refine .bind (hc.eatType (Nat.le_refl i) (by decide) fun hname => ?_)
  have hname := Inner.of_type hname (by decide) (by decide)
  refine .bind ((hc.after (.parseTypeArguments n) (i + 1) (Nat.lt_succ_self i) hname.le hn).mono
    fun tyargs j ⟨hj, _⟩ => .pure ⟨?_, hP.ident _ _ _⟩)
  rcases hj with rfl | hj
  · exact hname
  · exact hj.of_le (Nat.le_succ i)

/-- A member is a dot and a name. If it is called, the parser goes back to the name, which
is still behind the dot, and the object is the first argument of the call. -/
theorem parseMember_halts (hP : TreeClosed P) (expr : Tree) :
    BodyHalts ts P (.parseMember m expr n) := by
  intro c i hc hi ⟨hexpr, hfuels⟩
  have hloops := hfuels.loops
  refine .bind (hc.eat (Nat.le_refl i) (by decide) fun hat =>
    .bind (hc.eatType (Nat.le_succ i) (by decide) fun hname => ?_))
  have hname := Inner.of_type hname (by decide) (by decide)
  refine .is fun b _ => .is fun b' _ => .ite (fun _ => ?_) fun _ =>
    .pure ⟨hname.of_le (by omega), hP.member _ _ _ hexpr⟩
  -- one token back, at the name again, which comes after the `.`
  have hident : Call.Pre ts P (.parseIdent n) (i + 1) := by
    show ts.size < n + (i + 1 + 1)
    omega
  have hi' : i + 1 ≤ ts.size := hat.lt_size (by decide)
  show Halts ts (c _ (.parseIdent n) >>= _) (i + 1) _
  refine .bind ((hc.after (.parseIdent n) (i + 1) (Nat.lt_succ_self i) hi' hident).mono
    fun member j ⟨hj, hmember⟩ => ?_)
  have hstart : ts.Located → ts.Before (ts.tokenAt (i + 1)).location j :=
    fun hl => (hl.ordered (i + 1)).mono hj.lt
  have hij : i + 1 < j := hj.lt
  have hself : ∀ t ∈ some expr, P t := by
    rintro _ ⟨⟩
    exact hexpr
  have hcall : Call.Pre ts P
      (.parseCall m member (ts.tokenAt (i + 1)).location (some expr) n) j := by
    have : HasFuels ts m n (j + 1) := hfuels.mono (by omega)
    exact ⟨⟨hmember, hself⟩, hstart, this⟩
  exact (hc.after (.parseCall m member (ts.tokenAt (i + 1)).location (some expr) n) j (by omega)
    hj.le hcall).mono
      fun _ k ⟨hk, ht⟩ => ⟨Inner.of_le hk (by omega), ht⟩

/-- The right side of an assignment is an expression behind the `=`. -/
theorem parseAssign_halts (hP : TreeClosed P) (expr : Tree) :
    BodyHalts ts P (.parseAssign m expr) := by
  intro c i hc hi ⟨hexpr, hfuel⟩
  refine .get (.bind (hc.eat (Nat.le_refl i) (by decide) fun hat => ?_))
  have hlt := hat.lt_size (by decide)
  refine .bind ((hc.after (.parseExpr m) (i + 1) (Nat.lt_succ_self i) hlt
    (hfuel (i + 1) (Nat.le_refl _) hlt)).mono fun value j ⟨⟨hij, hj⟩, hvalue⟩ => .pure ?_)
  exact ⟨⟨by omega, hj⟩, hP.assign _ _ _ hexpr hvalue⟩

/-- An `if` has a condition, a body and maybe an `else`, which is checked to be below it. -/
theorem parseIf_halts (hP : TreeClosed P) : BodyHalts ts P (.parseIf m n) := by
  intro c i hc hi hfuels
  have hfuels : HasFuels ts m n (i + 1) := hfuels
  refine .get (.bind (hc.eat (Nat.le_refl i) (by decide) fun hat => ?_))
  have hlt := hat.lt_size (by decide)
  refine .bind ((hc.after (.parseExpr m) (i + 1) (Nat.lt_succ_self i) hlt
    (hfuels.exprs (i + 1) (Nat.le_refl _) hlt)).mono fun cond j ⟨⟨hij, hj⟩, hcond⟩ => ?_)
  refine .bind ((hc.after (.parseBlockExpr m (some (ts.tokenAt i).location) n) j (by omega) hj
    ⟨inTable_some i, hfuels.mono (by omega)⟩).mono fun thenbody k ⟨⟨hjk, hk⟩, hthen⟩ => ?_)
  refine .ifIs (fun _ => ?_) fun _ => .pure ⟨⟨by omega, hk⟩, hP.ifThen _ _ _ hcond hthen⟩
  refine .bind ((checkElse_halts (inTable i)).mono fun _ k' hk' => ?_)
  subst hk'
  refine .bind (hc.eatType (by omega) (by decide) fun helse => ?_)
  have helse := Inner.of_type helse (by decide) (by decide)
  refine .bind ((hc.after (.parseBlockExpr m (some (ts.tokenAt i).location) n) (k' + 1)
    (by omega) helse.le ⟨inTable_some i, hfuels.mono (by omega)⟩).mono
      fun elsebody l ⟨⟨hkl, hl⟩, helsebody⟩ => .pure ?_)
  exact ⟨⟨by omega, hl⟩, hP.ifElse _ _ _ _ hcond hthen helsebody⟩

/-- A `for` has a variable, maybe an index, an expression and a body. -/
theorem parseFor_halts (hP : TreeClosed P) : BodyHalts ts P (.parseFor m n) := by
  intro c i hc hi hfuels
  have hfuels : HasFuels ts m n (i + 1) := hfuels
  refine .get (.bind (hc.eat (Nat.le_refl i) (by decide) fun _ =>
    .bind (hc.eatType (Nat.le_succ i) (by decide) fun hname => ?_)))
  have hname := Inner.of_type hname (by decide) (by decide)
  refine .bind ((hc.forIndex (by omega) hname.le).mono fun _ j₁ h₁ => ?_)
  refine .bind (hc.eat (by omega) (by decide) fun hat => ?_)
  have hlt := hat.lt_size (by decide)
  refine .bind ((hc.after (.parseExpr m) (j₁ + 1) (by omega) hlt
    (hfuels.exprs (j₁ + 1) (by omega) hlt)).mono fun expr j₂ ⟨⟨hlt₂, h₂⟩, hexpr⟩ => ?_)
  refine .bind ((hc.after (.parseBlockExpr m (some (ts.tokenAt i).location) n) j₂ (by omega) h₂
    ⟨inTable_some i, hfuels.mono (by omega)⟩).mono fun body j₃ ⟨⟨hlt₃, h₃⟩, hbody⟩ => .pure ?_)
  exact ⟨⟨by omega, h₃⟩, hP.forIn _ _ _ _ _ hexpr hbody⟩

/-- A `while` has a condition and a body. -/
theorem parseWhile_halts (hP : TreeClosed P) : BodyHalts ts P (.parseWhile m n) := by
  intro c i hc hi hfuels
  have hfuels : HasFuels ts m n (i + 1) := hfuels
  refine .get (.bind (hc.eat (Nat.le_refl i) (by decide) fun hat => ?_))
  have hlt := hat.lt_size (by decide)
  refine .bind ((hc.after (.parseExpr m) (i + 1) (Nat.lt_succ_self i) hlt
    (hfuels.exprs (i + 1) (Nat.le_refl _) hlt)).mono fun expr j ⟨⟨hij, hj⟩, hexpr⟩ => ?_)
  refine .bind ((hc.after (.parseBlockExpr m (some (ts.tokenAt i).location) n) j (by omega) hj
    ⟨inTable_some i, hfuels.mono (by omega)⟩).mono fun body k ⟨⟨hjk, hk⟩, hbody⟩ => .pure ?_)
  exact ⟨⟨by omega, hk⟩, hP.whileLoop _ _ _ hexpr hbody⟩

/-! #### Literals and terms -/

/-- The elements of an array are expressions, up to the `]`. -/
theorem parseLiteralArray_halts (hP : TreeClosed P) : BodyHalts ts P (.parseLiteralArray m n) := by
  intro c i hc hi hfuels
  have hfuels : HasFuels ts m n (i + 1) := hfuels
  refine .get (.bind (hc.eat (Nat.le_refl i) (by decide) fun hat => ?_))
  have hlt := hat.lt_size (by decide)
  refine .bind ((hc.after (.parseList .bracket "]" (.parseExpr m) n) (i + 1) (Nat.lt_succ_self i)
    hlt ⟨hfuels.loops, parseExpr_isItem, hfuels.exprs⟩).mono
      fun elements j ⟨⟨hij, _⟩, helements⟩ => ?_)
  refine .bind (hc.eat (by omega) (by decide) fun hat' =>
    .pure ⟨?_, hP.literalArray _ _ helements⟩)
  exact (hat'.inner (by decide) (by decide)).of_le (by omega)

/-- A field of a struct literal has a value, or it stands for the variable of its name. -/
theorem parseLiteralField_halts (hP : TreeClosed P) : BodyHalts ts P (.parseLiteralField m) := by
  intro c i hc hi hfuel
  refine .bind (hc.eatType (Nat.le_refl i) (by decide) fun hname => ?_)
  have hname := Inner.of_type hname (by decide) (by decide)
  refine .ifIs (fun hat => ?_) fun _ => .pure ⟨hname.advances, hP.ident _ _ _⟩
  have hlt := hat.lt_size (by decide)
  refine .bind (hc.move (Nat.le_succ i) (hat.type_ne (by decide)) ?_)
  refine .bind ((hc.after (.parseExpr m) (i + 1 + 1) (by omega) hlt
    (hfuel (i + 1 + 1) (by omega) hlt)).mono fun expr j ⟨⟨hij, hj⟩, hexpr⟩ => .pure ?_)
  exact ⟨⟨by omega, hj⟩, hexpr⟩

/-- The name of a struct literal is there or not, with its type arguments. -/
theorem CallsMeet.literalName {r : Nat} (hc : CallsMeet ts P c i r) (hi : i ≤ ts.size)
    (hn : ts.size < n + (i + 1)) :
    Halts ts (c.literalName n) i fun _ j => i ≤ j ∧ j ≤ ts.size := by
  refine .ifType (fun _ => .bind (hc.eatType (Nat.le_refl i) (by decide) fun hname => ?_))
    fun _ => .pure ⟨Nat.le_refl i, hi⟩
  have hname := Inner.of_type hname (by decide) (by decide)
  refine .bind ((hc.after (.parseTypeArguments n) (i + 1) (Nat.lt_succ_self i) hname.le hn).mono
    fun tyargs j ⟨hj, _⟩ => .pure ?_)
  rcases hj with rfl | hj
  · exact ⟨Nat.le_succ i, hname.le⟩
  · exact ⟨by have := hj.lt; omega, hj.le⟩

/-- A struct literal has a name or none, and its fields up to the `}`. -/
theorem parseLiteralStruct_halts (hP : TreeClosed P) :
    BodyHalts ts P (.parseLiteralStruct m n) := by
  intro c i hc hi hfuels
  have hfuels : HasFuels ts m n (i + 1) := hfuels
  have hloops := hfuels.loops
  refine .get (.bind ((hc.literalName hi hloops).mono fun name j hj => ?_))
  refine .bind (hc.eat (by omega) (by decide) fun hat => ?_)
  have hitem : (Call.parseLiteralField m).IsItem ts :=
    .of_fn .parseLiteralField rfl (by decide) fun _ _ h => h
  refine .bind ((hc.after (.parseList .bracket "\x7d" (.parseLiteralField m) n) (j + 1) (by omega)
    (hat.lt_size (by decide))
    ⟨by omega, hitem, fun k hk _ => hfuels.exprs.mono (by omega)⟩).mono
      fun fields k ⟨⟨hjk, _⟩, hfields⟩ => ?_)
  refine .bind (hc.eat (by omega) (by decide) fun hat' =>
    .pure ⟨?_, hP.literalStruct _ _ _ _ hfields⟩)
  exact (hat'.inner (by decide) (by decide)).of_le (by omega)

/-- What is between parentheses is nothing, an expression or a tuple. The location of it
ends at the closing one, which is no newline. -/
theorem parseParens_halts (hP : TreeClosed P) : BodyHalts ts P (.parseParens m n) := by
  intro c i hc hi ⟨hat, hfuels⟩
  refine .get (.bind (hc.move (Nat.le_refl i) (hat.type_ne (by decide)) ?_))
  refine .bind ((hc.after (.parseList .bracket ")" (.parseExpr m) n) (i + 1) (Nat.lt_succ_self i)
    (hat.lt_size (by decide)) ⟨hfuels.loops, parseExpr_isItem, hfuels.exprs⟩).mono
      fun fields j ⟨⟨hij, _⟩, hfields⟩ => ?_)
  refine .get (.bind (hc.eat (by omega) (by decide) fun hat' => ?_))
  have hclose := hat'.inner (by decide) (by decide)
  have hin : ts.Inner i (j + 1) := hclose.of_le (by omega)
  match fields with
  | [] =>
      exact .bind (.span (fun hl => hl.ordered i) hij hclose.le hclose.notLine fun _ _ _ =>
        .pure ⟨hin, hP.literalVoid _⟩)
  | [field] => exact .pure ⟨hin, hfields field List.mem_cons_self⟩
  | _ :: _ :: _ =>
      exact .bind (.span (fun hl => hl.ordered i) hij hclose.le hclose.notLine fun _ _ _ =>
        .pure ⟨hin, hP.literalTuple _ _ hfields⟩)

/-- A number is one token. That it has a value is checked, and otherwise there is a
diagnostic at the token. -/
theorem parseNumber_halts (hP : TreeClosed P) : BodyHalts ts P .parseNumber := by
  intro c i hc hi _
  refine .bind (hc.eatType (Nat.le_refl i) (by decide) fun hvalue => ?_)
  have hvalue := Inner.of_type hvalue (by decide) (by decide)
  split
  · exact .pure ⟨hvalue, hP.literalInteger _ _⟩
  · exact .panic fun hl => hl.fits i
  · split
    · exact .pure ⟨hvalue, hP.literalFloat _ _⟩
    · exact .panic fun hl => hl.fits i
    · exact .panic fun hl => hl.fits i

/-- A term is a literal of one token, or a function of lower rank is called at its first
token. If no term starts there, there is a diagnostic. -/
theorem parseTerm_halts (hP : TreeClosed P) : BodyHalts ts P (.parseTerm m n) := by
  intro c i hc hi hfuels
  have hfuels : HasFuels ts m n (i + 1) := hfuels
  -- a term of one token
  have hword : ∀ {type : TokenType} {f : Token → Tree}, type ≠ .end → type ≠ .line →
      (∀ t, P (f t)) → Halts ts (c.eatType type >>= fun value => pure (f value)) i
        fun t j => ts.Inner i j ∧ P t := fun hend hline hf =>
    .bind (hc.eatType (Nat.le_refl i) hend fun htype => .pure ⟨.of_type htype hend hline, hf _⟩)
  -- a term of another function, at the same token
  have hcall : ∀ F : Call Tree, F.fn.rank < 2 → F.Pre ts P i →
      (∀ j t, F.Post ts P i t j → ts.Inner i j ∧ P t) →
        Halts ts (c _ F) i fun t j => ts.Inner i j ∧ P t := fun F hrank hpre hpost =>
    (hc.here F hrank hi hpre).mono fun t j => hpost j t
  refine .ifIs (fun _ => hword (by decide) (by decide) fun _ => hP.literalBool _ _) fun _ =>
    .ifIs (fun _ => hword (by decide) (by decide) fun _ => hP.literalBool _ _) fun _ =>
    .ifType (fun _ => hcall .parseNumber (Nat.lt_succ_self 1) trivial fun _ _ h => h) fun _ =>
    .ifType (fun _ => hword (by decide) (by decide) fun _ => hP.literalString _ _) fun _ => ?_
  refine .is fun _ _ => .isType fun _ _ => .getNext (.getNext (.ite (fun _ => ?struct) fun _ => ?_))
  case struct => exact hcall (.parseLiteralStruct m n) (Nat.lt_succ_self 1) hfuels fun _ _ h => h
  refine .ifIs (fun _ => ?array) fun _ => .ifType (fun _ => ?ident) fun _ =>
    .ifIs (fun hat => ?parens) fun _ => .get (.panic fun hl => hl.fits i)
  case array => exact hcall (.parseLiteralArray m n) (Nat.lt_succ_self 1) hfuels fun _ _ h => h
  case ident => exact hcall (.parseIdent n) (Nat.lt_succ_self 1) hfuels.loops fun _ _ h => h
  case parens => exact hcall (.parseParens m n) (Nat.lt_succ_self 1) ⟨hat, hfuels⟩ fun _ _ h => h

/-! #### Expressions -/

/-- Each turn of `parsePostfix` reads a call, an index or a member, and the next one is
behind it. It ends at the first token that starts none of them. -/
theorem parsePostfix_halts (start : Location) (term : Tree) :
    BodyHalts ts P (.parsePostfix m start term n) := by
  intro c i hc hi ⟨hterm, hstart, hfuel, hn⟩
  match n with
  | 0 => omega
  | n + 1 =>
  have hfuels : HasFuels ts m n (i + 1) := ⟨hfuel, by omega⟩
  -- a postfix, and the next turn behind it
  have hcall : ∀ F : Call Tree, F.fn.rank < 2 → F.Pre ts P i →
      (∀ j t, F.Post ts P i t j → ts.Inner i j ∧ P t) →
        Halts ts (c _ F >>= fun term => c _ (.parsePostfix m start term n)) i
          (Call.Post ts P (.parsePostfix m start term (n + 1)) i) := by
    intro F hrank hpre hpost
    refine .bind ((hc.here F hrank hi hpre).mono fun term' j h => ?_)
    obtain ⟨hj, hterm'⟩ := hpost j term' h
    have hij := hj.lt
    refine (hc.after (.parsePostfix m start term' n) j hij hj.le
      ⟨hterm', fun hl => (hstart hl).mono (by omega), hfuel.mono (by omega), by omega⟩).mono ?_
    rintro t k ⟨rfl | hk, ht⟩
    · exact ⟨.inr hj, ht⟩
    · exact ⟨.inr (hk.of_le (by omega)), ht⟩
  have hself : ∀ t ∈ (none : Option Tree), P t := by rintro _ ⟨⟩
  refine .ifIs (fun _ => ?call) fun _ => .ifIs (fun _ => ?index) fun _ =>
    .ifIs (fun _ => ?member) fun _ => .pure ⟨.inl rfl, hterm⟩
  case call =>
    exact hcall (.parseCall m term start none n) (Nat.lt_succ_self 1)
      ⟨⟨hterm, hself⟩, hstart, hfuels⟩ fun _ _ h => h
  case index =>
    exact hcall (.parseIndex m term) (Nat.lt_succ_self 1) ⟨hterm, hfuel⟩ fun _ _ h => h
  case member =>
    exact hcall (.parseMember m term n) (Nat.lt_succ_self 1) ⟨hterm, hfuels⟩ fun _ _ h => h

/-- A term, its postfixes and maybe an assignment. The term moves on, so the rest is
called behind it. -/
theorem CallsMeet.termPrimary (hc : CallsMeet ts P c i 3) (hi : i ≤ ts.size)
    (hfuels : HasFuels ts m n (i + 1)) :
    Halts ts (c.termPrimary m n) i fun t j => ts.Advances i j ∧ P t := by
  have hloops := hfuels.loops
  have hrank : ParseFn.rank .parseTerm < 3 := by decide
  refine .get (.bind ((hc.here (.parseTerm m n) hrank hi hfuels).mono fun term j ⟨hj, hterm⟩ => ?_))
  have hin : ts.Inner i j := hj
  have hij := hin.lt
  refine .bind ((hc.after (.parsePostfix m (ts.tokenAt i).location term n) j hij hin.le
    ⟨hterm, fun hl => (hl.ordered i).mono hij, hfuels.exprs.mono (by omega), by omega⟩).mono
      fun term k ⟨hk, hterm⟩ => ?_)
  have hin' : ts.Inner i k := by
    rcases hk with rfl | hk
    · exact hin
    · exact hk.of_le (by omega)
  have hik := hin'.lt
  refine .ifIs (fun _ => ?_) fun _ => .pure ⟨hin'.advances, hterm⟩
  exact (hc.after (.parseAssign m term) k hik hin'.le ⟨hterm, hfuels.exprs.mono (by omega)⟩).mono
    fun _ l ⟨⟨hkl, hl⟩, ht⟩ => ⟨⟨by omega, hl⟩, ht⟩

/-- The functions of the keywords are called at the keyword, and are of lower rank; any
other token starts a term. -/
theorem CallsMeet.keyword (hc : CallsMeet ts P c i 3) (hi : i ≤ ts.size)
    (hfuels : HasFuels ts m n (i + 1)) :
    Halts ts (c.keyword m n) i fun t j => ts.Advances i j ∧ P t := by
  -- the function of a keyword, at the keyword
  have hcall : ∀ F : Call Tree, F.fn.rank < 3 → F.Pre ts P i →
      (∀ j t, F.Post ts P i t j → ts.Advances i j ∧ P t) →
        Halts ts (c _ F) i fun t j => ts.Advances i j ∧ P t := fun F hrank hpre hpost =>
    (hc.here F hrank hi hpre).mono fun t j => hpost j t
  have hfnDecl : Halts ts (c _ (.parseFnDecl m n)) i fun t j => ts.Advances i j ∧ P t :=
    hcall (.parseFnDecl m n) (by show 1 < 3; decide) hfuels fun _ _ h => h
  refine .is fun _ _ => .is fun _ _ => .is fun _ _ => .ite (fun _ => hfnDecl) fun _ => ?_
  refine .ifIs (fun _ => .getNext (.ite (fun _ => hfnDecl) fun _ => ?fn)) fun _ => ?_
  case fn => exact hcall (.parseFn m n) (by show 1 < 3; decide) hfuels fun _ _ h => h
  refine .ifIs (fun _ => ?var) fun _ => .ifIs (fun _ => ?struct) fun _ =>
    .ifIs (fun _ => ?imports) fun _ => .ifIs (fun _ => ?branch) fun _ =>
    .ifIs (fun _ => ?forLoop) fun _ => .ifIs (fun _ => ?whileLoop) fun _ =>
    hc.termPrimary hi hfuels
  case var => exact hcall (.parseVarDecl m n) (by show 1 < 3; decide) hfuels fun _ _ h => h
  case struct => exact hcall (.parseStructDecl m n) (by show 1 < 3; decide) hfuels fun _ _ h => h
  case imports => exact hcall (.parseImport n) (by show 1 < 3; decide) hfuels.loops fun _ _ h => h
  case branch => exact hcall (.parseIf m n) (by show 1 < 3; decide) hfuels fun _ _ h => h
  case forLoop => exact hcall (.parseFor m n) (by show 1 < 3; decide) hfuels fun _ _ h => h
  case whileLoop => exact hcall (.parseWhile m n) (by show 1 < 3; decide) hfuels fun _ _ h => h

end Bodies

/-- The token of an operator is in the row of the operator. -/
theorem findOp_end {Op : Type} {rows : List (TokenType × String × OpDef Op)} {otherwise : OpDef Op}
    {t : Token} (hrows : ∀ row ∈ rows, row.1 ≠ .end) (ht : t.type = .end) :
    findOp rows otherwise t = otherwise := by
  unfold findOp
  have hnone : rows.find? (fun row => t.type = row.1 && t.data = row.2.1.toList) = none := by
    rw [List.find?_eq_none]
    intro row hrow hmatch
    rw [Bool.and_eq_true, decide_eq_true_eq] at hmatch
    exact hrows row hrow (hmatch.1.symm.trans ht)
  rw [hnone]

/-- A token with a unary operator is not the end of the tokens. -/
theorem unaryOp_not_end (h : (unaryOpAt ts i).priority ≠ 0) : (ts.tokenAt i).type ≠ .end :=
  fun hend => h (by rw [unaryOpAt, findOp_end (by decide) hend])

/-- A token with a binary operator is not the end of the tokens. -/
theorem binaryOp_not_end (h : (binaryOpAt ts i).priority ≠ 0) : (ts.tokenAt i).type ≠ .end :=
  fun hend => h (by rw [binaryOpAt, findOp_end (by decide) hend])

section Operators

variable {α : Type} {P : Tree → Prop} {n : Nat} {uop : OpDef UnaryOp} {bop : OpDef BinaryOp}

/-- `parseUnaryOp` looks at the current token and reads nothing, so what comes behind it
starts with the operator at the index. -/
theorem Halts.unaryOp {Q : α → Nat → Prop} {k : OpDef UnaryOp → ParseM α}
    (h : Halts ts (k (unaryOpAt ts i)) i Q) : Halts ts (parseUnaryOp >>= k) i Q := h

/-- `parseBinaryOp` likewise. -/
theorem Halts.binaryOp {Q : α → Nat → Prop} {k : OpDef BinaryOp → ParseM α}
    (h : Halts ts (k (binaryOpAt ts i)) i Q) : Halts ts (parseBinaryOp >>= k) i Q := h

/-- What is built from a unary operator is a unary node, or the call of its function. -/
theorem TreeClosed.lowerUnaryOp (hP : TreeClosed P) {expr : Tree} {loc : Location}
    (hexpr : P expr) : P (lowerUnaryOp uop expr loc) := by
  unfold Aike.lowerUnaryOp
  split
  · exact hP.call _ _ _ (hP.ident _ _ _) (List.forall_mem_singleton.mpr hexpr)
  · exact hP.unary _ _ _ hexpr

/-- What is built from a binary operator is a binary node, or the call of its function. -/
theorem TreeClosed.lowerBinaryOp (hP : TreeClosed P) {left right : Tree} {loc : Location}
    (hleft : P left) (hright : P right) : P (lowerBinaryOp bop left right loc) := by
  unfold Aike.lowerBinaryOp
  split
  · exact hP.call _ _ _ (hP.ident _ _ _)
      (List.forall_mem_cons.mpr ⟨hleft, List.forall_mem_singleton.mpr hright⟩)
  · exact hP.binary _ _ _ _ hleft hright

/-- A primary is a unary operator with a primary behind it, with less fuel, or what a
keyword or a term starts. -/
theorem parsePrimary_halts (hP : TreeClosed P) : BodyHalts ts P (.parsePrimary n) := by
  intro c i hc hi hn
  have hn : 3 * (ts.size - i) + 1 ≤ n := hn
  match n with
  | 0 => omega
  | n + 1 =>
  refine .unaryOp (.ite (fun hop => ?_) fun _ => ?_)
  · -- a unary operator, and what it is applied to
    have hend := unaryOp_not_end hop
    have hlt := lt_size_of_type hend
    have hpre : Call.Pre ts P (.parsePrimary n) (i + 1) := by
      show 3 * (ts.size - (i + 1)) + 1 ≤ n
      omega
    refine .get (.bind (hc.move (Nat.le_refl i) hend (.bind
      ((hc.after (.parsePrimary n) (i + 1) (Nat.lt_succ_self i) hlt hpre).mono
        fun expr j ⟨⟨hij, hj⟩, hexpr⟩ => .pure ?_))))
    exact ⟨⟨by omega, hj⟩, hP.lowerUnaryOp hexpr⟩
  · exact hc.keyword hi ⟨fun j hij hj => by omega, by omega⟩

/-- While a stronger operator comes next, the right operand grows: one turn of the inner
loop of the source reads it by `parseExprClimb`. -/
theorem parseExprRight_halts (priority : Nat) (right : Tree) :
    BodyHalts ts P (.parseExprRight priority n right) := by
  intro c i hc hi ⟨hright, hn⟩
  match n with
  | 0 => omega
  | n + 1 =>
  refine .binaryOp (.ite (fun hop => ?_) fun _ => .pure ⟨⟨Nat.le_refl i, hi⟩, hright⟩)
  have hrank : ParseFn.rank .parseExprClimb < ParseFn.rank .parseExprRight := by decide
  refine .bind ((hc.here (.parseExprClimb (binaryOpAt ts i).priority n right) hrank hi
    ⟨hright, by omega⟩).mono fun right j ⟨⟨⟨_, hj⟩, hmoves⟩, hright⟩ => ?_)
  -- the operator that was seen is one that the climb takes
  have hij : i < j := hmoves ⟨hop.1, Nat.le_refl _⟩
  exact (hc.after (.parseExprRight priority n right) j hij hj ⟨hright, by omega⟩).mono
    fun _ k ⟨⟨hjk, hk⟩, ht⟩ => ⟨⟨by omega, hk⟩, ht⟩

/-- A turn of the climb reads an operator, a primary and what binds stronger. If an
operator of the limit is there, it ends further on. -/
theorem parseExprClimb_halts (hP : TreeClosed P) (limit : Nat) (left : Tree) :
    BodyHalts ts P (.parseExprClimb limit n left) := by
  intro c i hc hi ⟨hleft, hn⟩
  match n with
  | 0 => omega
  | n + 1 =>
  refine .binaryOp (.ite (fun hop => ?_) fun hop =>
    .pure ⟨⟨⟨Nat.le_refl i, hi⟩, fun h => (hop h).elim⟩, hleft⟩)
  have hend := binaryOp_not_end hop.1
  have hlt := lt_size_of_type hend
  have hpre : Call.Pre ts P (.parsePrimary n) (i + 1) := by
    show 3 * (ts.size - (i + 1)) + 1 ≤ n
    omega
  refine .get (.bind (hc.move (Nat.le_refl i) hend (.bind
    ((hc.after (.parsePrimary n) (i + 1) (Nat.lt_succ_self i) hlt hpre).mono
      fun right j ⟨⟨hij, hj⟩, hright⟩ => ?_))))
  refine .bind ((hc.after (.parseExprRight (binaryOpAt ts i).priority n right) j (by omega) hj
    ⟨hright, by omega⟩).mono fun right k ⟨⟨hjk, hk⟩, hright⟩ => ?_)
  have hlower : P (lowerBinaryOp (binaryOpAt ts i) left right (ts.tokenAt i).location) :=
    hP.lowerBinaryOp hleft hright
  have hnext : Call.Pre ts P (.parseExprClimb limit n
      (lowerBinaryOp (binaryOpAt ts i) left right (ts.tokenAt i).location)) k :=
    ⟨hlower, by omega⟩
  exact (hc.after (.parseExprClimb limit n _) k (by omega) hk hnext).mono
      fun _ l ⟨⟨⟨hkl, hl⟩, _⟩, ht⟩ => ⟨⟨⟨by omega, hl⟩, fun _ => by omega⟩, ht⟩

/-- An expression is a primary and a climb from limit 0. -/
theorem parseExpr_halts : BodyHalts ts P (.parseExpr n) := by
  intro c i hc hi hn
  have hn : 3 * (ts.size - i) + 2 ≤ n := hn
  match n with
  | 0 => omega
  | n + 1 =>
  have hrank : ParseFn.rank .parsePrimary < ParseFn.rank .parseExpr := by decide
  have hpre : Call.Pre ts P (.parsePrimary n) i := by
    show 3 * (ts.size - i) + 1 ≤ n
    omega
  refine .bind ((hc.here (.parsePrimary n) hrank hi hpre).mono fun left j ⟨⟨hij, hj⟩, hleft⟩ => ?_)
  exact (hc.after (.parseExprClimb 0 n left) j hij hj ⟨hleft, by omega⟩).mono
    fun _ k ⟨⟨⟨hjk, hk⟩, _⟩, ht⟩ => ⟨⟨by omega, hk⟩, ht⟩

end Operators

/-! ### The parser -/

section Parser

variable {P : Tree → Prop}

/-- The body of every call meets its spec. -/
theorem body_halts (hP : TreeClosed P) (hI : ImportsClosed ts P) {α : Type} (F : Call α)
    (hmove : F.fn ≠ .move) : BodyHalts ts P F := by
  -- One body for each function, under the assumption on all calls that it makes.
  cases F with
  | move => exact absurd rfl hmove
  | parseList type close item n => exact parseList_halts type close item
  | parseArguments item n => exact parseArguments_halts item
  | parseIndentFrom indent startIndent firstIndent f n =>
      exact parseIndentFrom_halts indent startIndent firstIndent f
  | parseIndent indent f n => exact parseIndent_halts indent f
  | parseTypeArguments n => exact parseTypeArguments_halts
  | parseType n => exact parseType_halts
  | typeParameter => exact typeParameter_halts
  | parseTypeSignature n => exact parseTypeSignature_halts
  | parseTypeAscription n => exact parseTypeAscription_halts
  | parseBlock m indent n => exact parseBlock_halts hP indent
  | parseBlockExpr m indent n => exact parseBlockExpr_halts indent
  | argument n => exact argument_halts
  | parseFnSignature n => exact parseFnSignature_halts
  | parseFn m n => exact parseFn_halts hP
  | parseFnBody m indent n => exact parseFnBody_halts hP indent
  | parseFnDecl m n => exact parseFnDecl_halts hP
  | parseVarDecl m n => exact parseVarDecl_halts hP
  | parseFieldNames n => exact parseFieldNames_halts
  | parseFieldLine m n => exact parseFieldLine_halts
  | parseStructDecl m n => exact parseStructDecl_halts hP
  | parseImportPath path location n => exact parseImportPath_halts path location
  | parseImport n => exact parseImport_halts hI
  | parseCall m expr start self n => exact parseCall_halts hP expr start self
  | parseIndex m expr => exact parseIndex_halts hP expr
  | parseIdent n => exact parseIdent_halts hP
  | parseMember m expr n => exact parseMember_halts hP expr
  | parseAssign m expr => exact parseAssign_halts hP expr
  | parseIf m n => exact parseIf_halts hP
  | parseFor m n => exact parseFor_halts hP
  | parseWhile m n => exact parseWhile_halts hP
  | parseLiteralArray m n => exact parseLiteralArray_halts hP
  | parseLiteralField m => exact parseLiteralField_halts hP
  | parseLiteralStruct m n => exact parseLiteralStruct_halts hP
  | parseParens m n => exact parseParens_halts hP
  | parseNumber => exact parseNumber_halts hP
  | parseTerm m n => exact parseTerm_halts hP
  | parsePostfix m start term n => exact parsePostfix_halts start term
  | parsePrimary n => exact parsePrimary_halts hP
  | parseExprRight priority n right => exact parseExprRight_halts priority right
  | parseExprClimb limit n left => exact parseExprClimb_halts hP limit left
  | parseExpr n => exact parseExpr_halts

/-- The order of calls: further on in the stream, or at the same index and of a lower
rank. -/
def callLt (ts : TokenStream) (v' v : Visit Call Nat) : Prop :=
  v'.state ≤ ts.size ∧
    (v.state < v'.state ∨ v.state = v'.state ∧ v'.call.fn.rank < v.call.fn.rank)

/-- Calls are made further on in the stream or with a lower rank, and this can not go on
for ever. The induction of `run_meets` is on this order. -/
theorem callLt_wf : WellFounded (callLt ts) := by
  refine Subrelation.wf (fun {v' v} h => ?_)
    (InvImage.wf (fun v : Visit Call Nat => (ts.size - v.state, v.call.fn.rank))
      (Prod.lex Nat.lt_wfRel Nat.lt_wfRel).wf)
  obtain ⟨hsize, hlt | ⟨heq, hrank⟩⟩ := h
  · exact Prod.Lex.left _ _ (by show ts.size - v'.state < ts.size - v.state; omega)
  · show Prod.Lex _ _ (ts.size - v'.state, _) (ts.size - v.state, _)
    rw [heq]
    exact Prod.Lex.right _ hrank

/-- The errors that end a run: a diagnostic, or an assertion about locations. -/
def Allows (ts : TokenStream) : Stop → Prop
  | .panic _ => True
  | .fault f => f = .assertion ∧ ¬ ts.Located

/-- What the library calls an end is `Halts`, with the stops that the stream allows. -/
theorem ends_allows {α : Type} {m : ParseM α} {Q : α → Nat → Prop} :
    Calls.Ends (Allows ts) (m ts i) Q ↔ Halts ts m i Q := by
  unfold Calls.Ends Halts
  rcases m ts i with (_ | _) | ⟨a, j⟩ <;> exact Iff.rfl

/-- What the calls of the parser keep to. -/
def parseSpec (ts : TokenStream) (P : Tree → Prop) : Spec Call Nat Stop where
  pre v := v.state ≤ ts.size ∧ v.call.Pre ts P v.state
  post v := v.call.Post ts P v.state
  allows := Allows ts
  lt := callLt ts
  lt_wf := callLt_wf
  lt_trans := by
    rintro v₁ v₂ v₃ ⟨h₁, h₁₂⟩ ⟨h₂, h₂₃⟩
    exact ⟨h₁, by omega⟩

/-- Every body meets the spec if the calls below do: one of the lemmas above for each
function. -/
theorem body_meets (hP : TreeClosed P) (hI : ImportsClosed ts P) :
    BodyMeets (parseSpec ts P) Call.body ts := by
  rintro h ⟨α, F, i⟩ ⟨hi, hpre⟩ hcalls
  by_cases hmove : F.fn = .move
  · cases F <;> try cases hmove
    exact ends_allows.mpr (.move hpre ⟨rfl, trivial⟩)
  · have hc : CallsMeet ts P h i F.fn.rank := by
      refine ⟨?_, fun G k hik hk hG => ?_, fun G hrank hi hG => ?_⟩
      · cases hfn : F.fn <;> first | exact absurd hfn hmove | decide
      · exact ends_allows.mp (hcalls ⟨_, G, k⟩ ⟨hk, hG⟩ ⟨hk, .inl hik⟩)
      · exact ends_allows.mp (hcalls ⟨_, G, i⟩ ⟨hi, hG⟩ ⟨hi, .inr ⟨rfl, hrank⟩⟩)
    exact ends_allows.mpr (body_halts hP hI F hmove hc hi hpre)

/-- Every call of the parser, made as the spec says, ends as it says. -/
theorem Call.halts (hP : TreeClosed P) (hI : ImportsClosed ts P) {α : Type} (F : Call α)
    (hi : i ≤ ts.size) (hpre : F.Pre ts P i) : Halts ts F.parser i (F.Post ts P i) :=
  ends_allows.mp (run_meets (v := ⟨α, F, i⟩) (body_meets hP hI) Call.body_run ⟨hi, hpre⟩)

/-- The call for the block that is the whole module. -/
def rootCall (ts : TokenStream) : Call Tree :=
  .parseBlock (parseFuel ts.tokens) none (parseFuel ts.tokens)

/-- There is enough fuel for a whole stream. -/
theorem parseFuel_hasFuels : HasFuels ts (parseFuel ts.tokens) (parseFuel ts.tokens) 0 := by
  refine ⟨fun i _ hi => ?_, ?_⟩
  · unfold parseFuel TokenStream.size
    omega
  · unfold parseFuel TokenStream.size
    omega

/-- The fuel that the parser starts with is enough for the whole stream. -/
theorem rootCall_pre : (rootCall ts).Pre ts P 0 := ⟨by rintro _ ⟨⟩, parseFuel_hasFuels⟩

/-- The whole parser ends, and what it builds is a block of trees with the property. -/
theorem parseRoot_halts (hP : TreeClosed P) (hI : ImportsClosed ts P) :
    Halts ts (parseRoot (parseFuel ts.tokens)) 0 fun t _ =>
      ∃ body, t = .block {} body ∧ ∀ c ∈ body, P c := by
  have hbody : (Call.parseIndent none (.parseExpr (parseFuel ts.tokens))
      (parseFuel ts.tokens)).Pre ts P 0 :=
    ⟨by rintro _ ⟨⟩, parseFuel_hasFuels.loops, parseExpr_isItem, parseFuel_hasFuels.exprs⟩
  refine .bind (.bind ((Call.halts hP hI _ (Nat.zero_le _) hbody).mono fun body j ⟨_, hbody⟩ =>
    .pure ?_))
  exact .bind (.expectType fun _ => .pure ⟨body, rfl, hbody⟩)

/-- A stream parses to a block, or there is a diagnostic. -/
theorem parse_sound {output : Output} {tokens : Tokens}
    (hs : TokenStream.Sound ⟨output, tokens⟩) (hP : TreeClosed P) :
    (∃ body, parse output tokens = .ok (.block {} body) ∧ ∀ c ∈ body, P c) ∨
      ∃ d, parse output tokens = .error (.panic d) := by
  have hroot := (parseRoot_halts hP fun l name h => hP.importName l name (h hs)).meets hs.located
  unfold Meets at hroot
  unfold parse
  split at hroot
  case h_1 t j heq =>
    obtain ⟨body, rfl, hbody⟩ := hroot
    rw [heq]
    exact .inl ⟨body, rfl, hbody⟩
  case h_2 d heq =>
    rw [heq]
    exact .inr ⟨d, rfl⟩
  case h_3 f heq => exact hroot.elim

end Parser

end Aike
