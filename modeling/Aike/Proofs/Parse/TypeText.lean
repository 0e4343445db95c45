import Aike.Model.TypeText
import Aike.Proofs.Tokenize

/-!
# `Aike.Proofs.Parse.TypeText`: `parseType` reads what is written

* `parseType_reads`: where the tokens of a written type come next, `parseType`
  reads them and nothing else, and returns the tree of the type.
* `parseType_goes`: all the punctuation that a successful run of `parseType`
  goes past is punctuation of the notation.
-/

set_option autoImplicit false

namespace Aike

open TokenStream

variable {α β : Type} {ts : TokenStream} {i : Nat}

/-! ### What is left of a stream -/

/-- The tokens from an index on. -/
def TokenStream.rest (ts : TokenStream) (i : Nat) : List TokenKind :=
  (ts.tokens.tokens.drop i).map Token.kind

/-- The token that a piece is meant to be. -/
def Piece.token? : Piece → Option TokenKind
  | .word data => some (.ident, data)
  | .bracket ch => some (.bracket, [ch])
  | .symbol data => some (.atom, data.toList)
  | .space => none

/-- The tokens that pieces are meant to be. -/
def pieceTokens (ps : List Piece) : List TokenKind := ps.filterMap Piece.token?

section

variable {ps qs : List Piece} {data : Str} {symbol : String} {ch : Char}

/-- Nothing is meant by no pieces. -/
@[simp] theorem pieceTokens_nil : pieceTokens [] = [] := rfl

/-- A word is meant to be an identifier. -/
@[simp] theorem pieceTokens_word : pieceTokens (.word data :: ps) =
    (.ident, data) :: pieceTokens ps :=
  rfl

/-- A bracket is meant to be one token. -/
@[simp] theorem pieceTokens_bracket :
    pieceTokens (.bracket ch :: ps) = (.bracket, [ch]) :: pieceTokens ps := rfl

/-- Punctuation is meant to be one token. -/
@[simp] theorem pieceTokens_symbol :
    pieceTokens (.symbol symbol :: ps) = (.atom, symbol.toList) :: pieceTokens ps := rfl

/-- A space is meant to be none. -/
@[simp] theorem pieceTokens_space : pieceTokens (.space :: ps) = pieceTokens ps := rfl

/-- What is meant by pieces one after the other is meant by each of them. -/
@[simp] theorem pieceTokens_append : pieceTokens (ps ++ qs) = pieceTokens ps ++ pieceTokens qs :=
  List.filterMap_append

end

/-- The token at an index is the first of those from there on. -/
theorem rest_eq_cons {x : TokenKind} {xs : List TokenKind} (h : ts.rest i = x :: xs) :
    (ts.tokenAt i).kind = x ∧ ts.rest (i + 1) = xs := by
  unfold rest at h ⊢
  cases hdrop : ts.tokens.tokens.drop i with
  | nil =>
      rw [hdrop] at h
      cases h
  | cons t tokens =>
      rw [hdrop, List.map_cons, List.cons.injEq] at h
      have hget : ts.tokens.tokens[i]? = some t := by
        rw [← List.head?_drop, hdrop]
        rfl
      have htail : ts.tokens.tokens.drop (i + 1) = tokens := by
        rw [← List.tail_drop, hdrop]
        rfl
      constructor
      · rw [tokenAt, List.getD_eq_getElem?_getD, hget]
        exact h.1
      · rw [htail]
        exact h.2

/-- Where nothing is left there is the end of the tokens. -/
theorem tokenAt_of_rest_eq_nil (h : ts.rest i = []) : ts.tokenAt i = kEnd := by
  have hdrop : ts.tokens.tokens.drop i = [] := List.map_eq_nil_iff.mp h
  exact tokenAt_of_size_le (List.drop_eq_nil_iff.mp hdrop)

/-- What is the current token can be read off what is left. -/
theorem at_iff_of_rest {x : TokenKind} {xs : List TokenKind} {type : TokenType} {data : String}
    (h : ts.rest i = x :: xs) : ts.At i type data ↔ x = (type, data.toList) := by
  rw [← (rest_eq_cons h).1]
  exact Prod.mk.injEq .. ▸ Iff.rfl

/-! ### Runs that read -/

/-- The run of `m` from `i` ends with a result in `P`, and `xs` is left. -/
def Reads (ts : TokenStream) (m : ParseM α) (i : Nat) (xs : List TokenKind) (P : α → Prop) : Prop :=
  ∃ a j, m ts i = .ok (a, j) ∧ ts.rest j = xs ∧ P a

namespace Reads

variable {m m' : ParseM α} {k : α → ParseM β} {P : α → Prop} {R : β → Prop}
  {x : TokenKind} {xs ys : List TokenKind} {type : TokenType} {data : String}

/-- A result reads nothing. -/
theorem pure {a : α} (h : ts.rest i = xs) (ha : P a) : Reads ts (Pure.pure a) i xs P :=
  ⟨a, i, rfl, h, ha⟩

/-- A composition reads what its parts read, one after the other. -/
theorem bind (h : Reads ts m i xs P)
    (hk : ∀ a j, ts.rest j = xs → P a → Reads ts (k a) j ys R) : Reads ts (m >>= k) i ys R := by
  obtain ⟨a, j, hm, hrest, ha⟩ := h
  obtain ⟨b, l, hb, hrest', hR⟩ := hk a j hrest ha
  refine ⟨b, l, ?_, hrest', hR⟩
  rw [bind_apply, hm]
  exact hb

/-- A branch on the next token. -/
theorem ifIs (hrest : ts.rest i = x :: xs)
    (h : Reads ts (if x = (type, data.toList) then m else m') i ys P) :
    Reads ts (TokenStream.is type data >>= fun b => if b = true then m else m') i ys P := by
  have hb : ((ts.tokenAt i).type = type && (ts.tokenAt i).data = data.toList) =
      decide (x = (type, data.toList)) := by
    rw [Bool.eq_iff_iff, Bool.and_eq_true, decide_eq_true_iff, decide_eq_true_iff,
      decide_eq_true_iff]
    exact at_iff_of_rest hrest
  obtain ⟨a, j, hm, hj⟩ := h
  refine ⟨a, j, ?_, hj⟩
  show (if ((ts.tokenAt i).type = type && (ts.tokenAt i).data = data.toList) = true then m else m')
    ts i = _
  rw [hb, ← hm]
  simp only [decide_eq_true_iff]

/-- A branch on the token that comes next, where it is the one. -/
theorem ifIs_pos (hrest : ts.rest i = (type, data.toList) :: xs) (h : Reads ts m i ys P) :
    Reads ts (TokenStream.is type data >>= fun b => if b = true then m else m') i ys P := by
  refine ifIs hrest ?_
  rw [if_pos rfl]
  exact h

/-- A branch on the token that comes next, where it is another one. -/
theorem ifIs_neg (hrest : ts.rest i = x :: xs) (hne : x ≠ (type, data.toList))
    (h : Reads ts m' i ys P) :
    Reads ts (TokenStream.is type data >>= fun b => if b = true then m else m') i ys P := by
  refine ifIs hrest ?_
  rw [if_neg hne]
  exact h

/-- A branch on a token that may be missing. -/
theorem ifIs_head (hne : (ts.rest i).head? ≠ some (type, data.toList)) (hend : type ≠ .end)
    (h : Reads ts m' i ys P) :
    Reads ts (TokenStream.is type data >>= fun b => if b = true then m else m') i ys P := by
  cases hrest : ts.rest i with
  | cons x xs =>
      rw [hrest] at hne
      exact ifIs_neg hrest (fun hx => hne (congrArg some hx)) h
  | nil =>
      have htype : ¬ TokenType.end = type := hend ∘ Eq.symm
      obtain ⟨a, j, hm, hj⟩ := h
      refine ⟨a, j, ?_, hj⟩
      show (if ((ts.tokenAt i).type = type && (ts.tokenAt i).data = data.toList) = true then m
        else m') ts i = _
      rw [tokenAt_of_rest_eq_nil hrest, kEnd, decide_eq_false htype, Bool.false_and, ← hm]
      rfl

/-- The type of the current token is looked at, and nothing is read. -/
theorem isType {k : Bool → ParseM α}
    (h : Reads ts (k (decide ((ts.tokenAt i).type = type))) i ys P) :
    Reads ts (TokenStream.isType type >>= k) i ys P := h

/-- A step that reads nothing and has a result. -/
theorem lift {a : α} {e : Except Stop α} (he : e = .ok a) (hrest : ts.rest i = xs) :
    Reads ts (ParseM.lift e) i xs fun _ => True := by
  subst he
  exact ⟨a, i, rfl, hrest, trivial⟩

/-- A branch on the type of the token that comes next, where it has it. -/
theorem ifType_pos (hrest : ts.rest i = x :: xs) (htype : x.1 = type) (h : Reads ts m i ys P) :
    Reads ts (TokenStream.isType type >>= fun b => if b = true then m else m') i ys P := by
  have hb : (ts.tokenAt i).type = type := by
    rw [← htype, ← (rest_eq_cons hrest).1]
    rfl
  obtain ⟨a, j, hm, hj⟩ := h
  refine ⟨a, j, ?_, hj⟩
  show (if decide ((ts.tokenAt i).type = type) = true then m else m') ts i = _
  rw [if_pos (decide_eq_true hb)]
  exact hm

/-- `move` takes one token from what is left. -/
theorem move (hrest : ts.rest i = x :: xs) (hend : x.1 ≠ .end) :
    Reads ts TokenStream.move i xs fun _ => True := by
  have hkind := (rest_eq_cons hrest).1
  have hb : ¬ decide ((ts.tokenAt i).type = .end) = true := by
    rw [decide_eq_true_iff]
    intro htype
    exact hend (hkind ▸ htype)
  refine isType (bind (lift (if_pos hb) hrest) fun _ j hj _ => ?_)
  exact ⟨(), j + 1, rfl, (rest_eq_cons hj).2, trivial⟩

/-- `eat` takes the token that it is given. -/
theorem eat (hrest : ts.rest i = (type, data.toList) :: xs) (hend : type ≠ .end) :
    Reads ts (TokenStream.eat type data) i xs fun _ => True := by
  have hexpect : Reads ts (TokenStream.expect type data) i ((type, data.toList) :: xs)
      fun _ => True := ifIs_pos hrest (pure hrest trivial)
  exact bind hexpect fun _ j hj _ => move hj hend

/-- `eatType` takes a token of the type and returns it. -/
theorem eatType (hrest : ts.rest i = x :: xs) (htype : x.1 = type) (hend : type ≠ .end) :
    Reads ts (TokenStream.eatType type) i xs fun t => t.kind = x := by
  have hexpect : Reads ts (TokenStream.expectType type) i (x :: xs) fun _ => True :=
    ifType_pos hrest htype (pure hrest trivial)
  refine bind hexpect fun _ j hj _ => ?_
  have hget : Reads ts TokenStream.get j (x :: xs) fun t => t.kind = x :=
    ⟨ts.tokenAt j, j, rfl, hj, (rest_eq_cons hj).1⟩
  exact bind hget fun t l hl ht => bind (move hl (htype ▸ hend)) fun _ l' hl' _ => pure hl' ht

end Reads

/-! ### Items with commas between them -/

/-- A token that a written type can start with. -/
def TokenKind.StartsType (x : TokenKind) : Prop :=
  x.1 = .ident ∨ x ∈ [(.bracket, "(".toList), (.bracket, "[".toList), (.atom, "*".toList)]

instance (x : TokenKind) : Decidable x.StartsType := by
  unfold TokenKind.StartsType
  infer_instance

/-- A written type is at least one token, and that is one of those that a type starts
with. -/
theorem TypeSyntax.exists_start (s : TypeSyntax) :
    ∃ x xs, pieceTokens s.pieces = x :: xs ∧ x.StartsType := by
  cases s with
  | primitive p => exact ⟨_, _, by rw [pieces, pieceTokens_word], .inl rfl⟩
  | inst name tyargs => exact ⟨_, _, by rw [pieces, pieceTokens_word], .inl rfl⟩
  | pointer element => exact ⟨_, _, by rw [pieces, pieceTokens_symbol], by decide⟩
  | array element => exact ⟨_, _, by rw [pieces, List.cons_append, pieceTokens_bracket], by decide⟩
  | tuple first second rest =>
      exact ⟨_, _, by rw [pieces, List.cons_append, pieceTokens_bracket], by decide⟩
  | function args ret varargs =>
      exact ⟨_, _, by rw [pieces, List.cons_append, pieceTokens_word], .inl rfl⟩

/-- A token that ends a list of types. -/
def TokenKind.Closes (x : TokenKind) : Prop := x = (.bracket, ")".toList) ∨ x = (.atom, ">".toList)

/-- `T` reads a written type where no type arguments follow it. -/
def ReadsAs (ts : TokenStream) (T : ParseM TyTree) (s : TypeSyntax) : Prop :=
  ∀ i xs, ts.rest i = pieceTokens s.pieces ++ xs → xs.head? ≠ some (.atom, ".<".toList) →
    Reads ts T i xs fun t => t.unlocated = s.tree

section Lists

variable {T : ParseM TyTree} {type : TokenType} {close : String} {xs : List TokenKind}

/-- Behind the last item nothing is read: the closing token stays. -/
theorem eatComma_close (hrest : ts.rest i = (type, close.toList) :: xs) :
    Reads ts (eatComma type close) i ((type, close.toList) :: xs) fun _ => True :=
  .ifIs_pos hrest (.pure hrest trivial)

/-- Behind another item a comma is read. -/
theorem eatComma_comma (hne : (TokenType.atom, ",".toList) ≠ (type, close.toList))
    (hrest : ts.rest i = (.atom, ",".toList) :: xs) :
    Reads ts (eatComma type close) i xs fun _ => True :=
  .ifIs_neg hrest hne (.eat hrest (by decide))

/-- A token that closes a list is none that does not. -/
theorem TokenKind.Closes.ne {x y : TokenKind} (h : x.Closes) (hy : ¬ y.Closes) : y ≠ x := by
  rintro rfl
  exact hy h

instance (x : TokenKind) : Decidable x.Closes := by
  unfold TokenKind.Closes
  infer_instance

/-- A token that a type starts with is none that does not. -/
theorem TokenKind.StartsType.ne {x y : TokenKind} (h : x.StartsType) (hy : ¬ y.StartsType) :
    x ≠ y := by
  rintro rfl
  exact hy h

/-- A closing token starts no type, so a list ends where the parser sees one. -/
theorem TokenKind.Closes.not_starts {x : TokenKind} (h : x.Closes) : ¬ x.StartsType := by
  rcases h with rfl | rfl <;> decide

/-- Behind a type there is no `.<`, which would start type arguments. -/
theorem TokenKind.Closes.head_ne {x : TokenKind} (h : x.Closes) :
    (x :: xs).head? ≠ some (.atom, ".<".toList) := by
  rcases h with rfl | rfl <;> simp

/-- `parseList` reads the types with the commas between them, and leaves the closing
token. By induction on the types: before each one there is no closing token. -/
theorem parseList_reads (hclose : TokenKind.Closes (type, close.toList)) {ss : List TypeSyntax}
    (h : ∀ s ∈ ss, ReadsAs ts T s) {n : Nat} (hn : ss.length < n)
    (hrest : ts.rest i =
      pieceTokens (commas (TypeSyntax.piecesAll ss)) ++ (type, close.toList) :: xs) :
    Reads ts (parseList type close T n) i ((type, close.toList) :: xs)
      fun as => TyTree.unlocatedAll as = TypeSyntax.treeAll ss := by
  induction ss generalizing i n with
  | nil =>
      obtain ⟨n, rfl⟩ : ∃ n', n = n' + 1 := ⟨n - 1, by simp only [List.length_nil] at hn; omega⟩
      exact .ifIs_pos hrest (.pure hrest (by simp only [TyTree.unlocatedAll, TypeSyntax.treeAll]))
  | cons s ss ih =>
      obtain ⟨n, rfl⟩ : ∃ n', n = n' + 1 := ⟨n - 1, by omega⟩
      have hs : ReadsAs ts T s := h s List.mem_cons_self
      have ih := fun i => ih (i := i) (fun s' hs' => h s' (List.mem_cons_of_mem s hs'))
        (n := n) (by rw [List.length_cons] at hn; omega)
      obtain ⟨x, xs', hx, hstart⟩ := s.exists_start
      -- the item, the comma after it, and what is left of the list
      have hitem : ∀ {ys}, ts.rest i = pieceTokens s.pieces ++ ys →
          ys.head? ≠ some (.atom, ".<".toList) →
          (∀ j, ts.rest j = ys → ∃ zs, Reads ts (eatComma type close) j zs (fun _ => True) ∧
            zs = pieceTokens (commas (TypeSyntax.piecesAll ss)) ++ (type, close.toList) :: xs) →
          Reads ts (parseList type close T (n + 1)) i ((type, close.toList) :: xs)
            fun as => TyTree.unlocatedAll as = TypeSyntax.treeAll (s :: ss) := by
        intro ys hys hangle hcomma
        refine .ifIs_neg (hys.trans (by rw [hx, List.cons_append]))
          (hstart.ne hclose.not_starts) ?_
        refine .bind (hs i ys hys hangle) fun t j hj ht => ?_
        obtain ⟨zs, hread, rfl⟩ := hcomma j hj
        refine .bind hread fun _ l hl _ => .bind (ih l hl) fun as l' hl' has => .pure hl' ?_
        rw [TyTree.unlocatedAll, TypeSyntax.treeAll, ht, has]
      cases ss with
      | nil =>
          refine hitem hrest hclose.head_ne fun j hj => ⟨_, eatComma_close hj, rfl⟩
      | cons next ss =>
          have hys : ts.rest i = pieceTokens s.pieces ++ (.atom, ",".toList) ::
              (pieceTokens (commas (TypeSyntax.piecesAll (next :: ss))) ++
                (type, close.toList) :: xs) := by
            rw [hrest]
            simp [TypeSyntax.piecesAll, commas]
          exact hitem hys (by simp) fun j hj =>
            ⟨_, eatComma_comma (hclose.ne (by decide)) hj, rfl⟩

/-- `parseArguments` reads the types, and the dots if they are written. -/
theorem parseArguments_reads {ss : List TypeSyntax} (h : ∀ s ∈ ss, ReadsAs ts T s)
    {varargs : Bool} {n : Nat} (hn : ss.length < n)
    (hrest : ts.rest i =
      pieceTokens (commas (TypeSyntax.piecesAll ss ++ dots varargs)) ++
        (.bracket, ")".toList) :: xs) :
    Reads ts (parseArguments T n) i ((.bracket, ")".toList) :: xs)
      fun r => TyTree.unlocatedAll r.1 = TypeSyntax.treeAll ss ∧ r.2 = varargs := by
  induction ss generalizing i n with
  | nil =>
      obtain ⟨n, rfl⟩ : ∃ n', n = n' + 1 := ⟨n - 1, by simp only [List.length_nil] at hn; omega⟩
      have hnil : TyTree.unlocatedAll [] = TypeSyntax.treeAll [] := by
        simp only [TyTree.unlocatedAll, TypeSyntax.treeAll]
      cases varargs with
      | false => exact .ifIs_pos hrest (.pure hrest ⟨hnil, rfl⟩)
      | true =>
          refine .ifIs_neg hrest (by decide) (.ifIs_pos hrest ?_)
          exact .bind (.move hrest (by decide)) fun _ j hj _ => .pure hj ⟨hnil, rfl⟩
  | cons s ss ih =>
      obtain ⟨n, rfl⟩ : ∃ n', n = n' + 1 := ⟨n - 1, by omega⟩
      have hs : ReadsAs ts T s := h s List.mem_cons_self
      have ih := fun i => ih (i := i) (fun s' hs' => h s' (List.mem_cons_of_mem s hs'))
        (n := n) (by rw [List.length_cons] at hn; omega)
      obtain ⟨x, xs', hx, hstart⟩ := s.exists_start
      have hitem : ∀ {ys}, ts.rest i = pieceTokens s.pieces ++ ys →
          ys.head? ≠ some (.atom, ".<".toList) →
          (∀ j, ts.rest j = ys → ∃ zs, Reads ts (eatComma .bracket ")") j zs (fun _ => True) ∧
            zs = pieceTokens (commas (TypeSyntax.piecesAll ss ++ dots varargs)) ++
              (.bracket, ")".toList) :: xs) →
          Reads ts (parseArguments T (n + 1)) i ((.bracket, ")".toList) :: xs)
            fun r => TyTree.unlocatedAll r.1 = TypeSyntax.treeAll (s :: ss) ∧ r.2 = varargs := by
        intro ys hys hangle hcomma
        have hcons := hys.trans (by rw [hx, List.cons_append])
        refine .ifIs_neg hcons (hstart.ne (by decide)) (.ifIs_neg hcons (hstart.ne (by decide)) ?_)
        refine .bind (hs i ys hys hangle) fun t j hj ht => ?_
        obtain ⟨zs, hread, rfl⟩ := hcomma j hj
        refine .bind hread fun _ l hl _ => .bind (ih l hl) fun r l' hl' hr => .pure hl' ?_
        rw [TyTree.unlocatedAll, TypeSyntax.treeAll, ht, hr.1]
        exact ⟨rfl, hr.2⟩
      -- the items after this one, the dots among them
      cases hitems : TypeSyntax.piecesAll ss ++ dots varargs with
      | nil =>
          rw [hitems] at hitem
          rw [TypeSyntax.piecesAll, List.cons_append, hitems] at hrest
          exact hitem hrest (by simp) fun j hj => ⟨_, eatComma_close hj, rfl⟩
      | cons item items =>
          rw [hitems] at hitem
          rw [TypeSyntax.piecesAll, List.cons_append, hitems] at hrest
          have hys : ts.rest i = pieceTokens s.pieces ++ (.atom, ",".toList) ::
              (pieceTokens (commas (item :: items)) ++ (.bracket, ")".toList) :: xs) := by
            rw [hrest]
            simp [commas]
          exact hitem hys (by simp) fun j hj => ⟨_, eatComma_comma (by decide) hj, rfl⟩

end Lists

/-! ### Types -/

namespace TypeSyntax

/-- Induction on a written type and the types in it. -/
theorem induct {P : TypeSyntax → Prop} (primitive : ∀ p, P (.primitive p))
    (inst : ∀ name tyargs, (∀ s ∈ tyargs, P s) → P (.inst name tyargs))
    (pointer : ∀ element, P element → P (.pointer element))
    (array : ∀ element, P element → P (.array element))
    (tuple : ∀ first second rest, P first → P second → (∀ s ∈ rest, P s) →
      P (.tuple first second rest))
    (function : ∀ args ret varargs, (∀ s ∈ args, P s) → P ret → P (.function args ret varargs)) :
    ∀ s, P s :=
  fun s => TypeSyntax.rec primitive inst pointer array tuple
    (fun args ret varargs => function args ret varargs)
    (List.forall_mem_nil _) (fun _ _ hs hss => List.forall_mem_cons.mpr ⟨hs, hss⟩) s

/-- A written list has a token for each of its types at least, and all of the
tokens of each. -/
theorem length_le_tokens (ss : List TypeSyntax) (items : List (List Piece)) :
    ss.length ≤ (pieceTokens (commas (piecesAll ss ++ items))).length ∧
      ∀ s ∈ ss, (pieceTokens s.pieces).length ≤
        (pieceTokens (commas (piecesAll ss ++ items))).length := by
  induction ss with
  | nil => exact ⟨Nat.zero_le _, List.forall_mem_nil _⟩
  | cons s ss ih =>
      obtain ⟨x, xs, hx, -⟩ := s.exists_start
      -- An item and its comma come before the other items.
      have hcommas : (pieceTokens s.pieces).length +
          (pieceTokens (commas (piecesAll ss ++ items))).length ≤
            (pieceTokens (commas (piecesAll (s :: ss) ++ items))).length := by
        rw [piecesAll, List.cons_append]
        cases piecesAll ss ++ items with
        | nil => simp [commas]
        | cons item items =>
            simp only [commas, pieceTokens_append, pieceTokens_symbol, pieceTokens_space,
              List.length_append, List.length_cons]
            omega
      -- A type has at least one token.
      have hpos : 0 < (pieceTokens s.pieces).length := by
        rw [hx]
        exact Nat.succ_pos _
      constructor
      · rw [List.length_cons]
        omega
      · intro s' hs'
        rcases List.mem_cons.mp hs' with rfl | hs'
        · omega
        · have := ih.2 s' hs'
          omega

/-- The types inside of type arguments are shorter than these, and there are fewer than
there are tokens. This is what the fuel is compared with. -/
theorem length_angles_le (ss : List TypeSyntax) :
    (ss ≠ [] → ss.length < (pieceTokens (angles (piecesAll ss))).length) ∧
      ∀ s ∈ ss, (pieceTokens s.pieces).length ≤ (pieceTokens (angles (piecesAll ss))).length := by
  cases ss with
  | nil => exact ⟨fun h => absurd rfl h, List.forall_mem_nil _⟩
  | cons s ss =>
      have h := length_le_tokens (s :: ss) []
      have hangles : (pieceTokens (angles (piecesAll (s :: ss)))).length =
          (pieceTokens (commas (piecesAll (s :: ss) ++ []))).length + 2 := by
        simp [piecesAll, angles]
      rw [hangles]
      exact ⟨fun _ => by omega, fun s' hs' => by have := h.2 s' hs'; omega⟩

end TypeSyntax

/-- `parseTypeArguments` reads the types between `<` and `>`, or nothing if there are
none. -/
theorem parseTypeArguments_reads {T : ParseM TyTree} {xs : List TokenKind} {ss : List TypeSyntax}
    (h : ∀ s ∈ ss, ReadsAs ts T s) {n : Nat} (hn : ss ≠ [] → ss.length < n)
    (hrest : ts.rest i = pieceTokens (angles (TypeSyntax.piecesAll ss)) ++ xs)
    (hangle : xs.head? ≠ some (.atom, ".<".toList)) :
    Reads ts (parseTypeArguments T n) i xs
      fun as => TyTree.unlocatedAll as = TypeSyntax.treeAll ss := by
  cases ss with
  | nil =>
      have hxs : ts.rest i = xs := hrest
      refine .ifIs_head (hxs ▸ hangle) (by decide) (.pure hxs ?_)
      simp only [TyTree.unlocatedAll, TypeSyntax.treeAll]
  | cons s ss =>
      have hangles : ts.rest i = (.atom, ".<".toList) ::
          (pieceTokens (commas (TypeSyntax.piecesAll (s :: ss))) ++ (.atom, ">".toList) :: xs) := by
        rw [hrest]
        simp [TypeSyntax.piecesAll, angles]
      refine .ifIs_pos hangles (.bind (.eat hangles (by decide)) fun _ j hj _ => ?_)
      refine .bind (parseList_reads (.inr rfl) h (hn (List.cons_ne_nil _ _)) hj)
        fun as l hl has => ?_
      exact .bind (.eat hl (by decide)) fun _ l' hl' _ => .pure hl' has

/-- A type in a type is read by the tokens of the type, and one fewer. -/
theorem exists_fuel {x : TokenKind} {xs : List TokenKind} {n : Nat} (hn : (x :: xs).length ≤ n) :
    ∃ n', n = n' + 1 ∧ xs.length ≤ n' :=
  ⟨n - 1, by rw [List.length_cons] at hn; omega, by rw [List.length_cons] at hn; omega⟩

/-- `parseType` reads a written type, whatever comes behind it. By induction on the type,
with the lemma of each list at the types inside of it. -/
theorem parseType_reads (s : TypeSyntax) {n : Nat} (hn : (pieceTokens s.pieces).length ≤ n) :
    ReadsAs ts (parseType n) s := by
  intro i xs hrest hangle
  induction s using TypeSyntax.induct generalizing n i xs with
  | primitive p =>
      obtain ⟨n, rfl, -⟩ := exists_fuel hn
      have hword : ts.rest i = (.ident, p.word) :: xs := hrest
      have hread : Reads ts (move >>= fun _ => pure p.tree) i xs fun t => t.unlocated = p.tree := by
        refine .bind (.move hword (fun h => nomatch h)) fun _ j hj _ => .pure hj ?_
        cases p <;> rfl
      refine .ifIs_neg hword (by cases p <;> decide) ?_
      cases p with
      | void => exact .ifIs_pos hword hread
      | bool => exact .ifIs_neg hword (by decide) (.ifIs_pos hword hread)
      | integer =>
          exact .ifIs_neg hword (by decide) (.ifIs_neg hword (by decide) (.ifIs_pos hword hread))
      | float =>
          exact .ifIs_neg hword (by decide) (.ifIs_neg hword (by decide)
            (.ifIs_neg hword (by decide) (.ifIs_pos hword hread)))
      | string =>
          exact .ifIs_neg hword (by decide) (.ifIs_neg hword (by decide)
            (.ifIs_neg hword (by decide) (.ifIs_neg hword (by decide) (.ifIs_pos hword hread))))
  | inst name tyargs ih =>
      rw [TypeSyntax.pieces, pieceTokens_word] at hn hrest
      obtain ⟨n, rfl, hlt⟩ := exists_fuel hn
      rw [List.cons_append] at hrest
      have hne : ∀ w ∈ typeWords, (TokenType.ident, name.data) ≠ (.ident, w) := by
        intro w hw heq
        rw [← (Prod.mk.inj heq).2] at hw
        exact name.free hw
      refine .ifIs_neg hrest (hne _ (by decide)) <| .ifIs_neg hrest (hne _ (by decide)) <|
        .ifIs_neg hrest (hne _ (by decide)) <| .ifIs_neg hrest (hne _ (by decide)) <|
        .ifIs_neg hrest (hne _ (by decide)) <| .ifIs_neg hrest (hne _ (by decide)) ?_
      refine .ifIs_neg hrest (by simp) <| .ifIs_neg hrest (by simp) <|
        .ifIs_neg hrest (by simp) <| .ifIs_neg hrest (hne _ (by decide)) ?_
      refine .ifType_pos hrest rfl (.bind (.eatType hrest rfl (by decide)) fun t j hj ht => ?_)
      have hlen := TypeSyntax.length_angles_le tyargs
      have hall : ∀ s ∈ tyargs, ReadsAs ts (parseType n) s := by
        intro s hs i xs hi hangle
        have hle := hlen.2 s hs
        exact ih s hs (by omega) i xs hi hangle
      refine .bind (parseTypeArguments_reads hall ?_ hj hangle) fun as l hl has => .pure hl ?_
      · exact fun hne => Nat.lt_of_lt_of_le (hlen.1 hne) hlt
      · have hname : t.data = name.data := congrArg Prod.snd ht
        rw [TyTree.unlocated, has, hname, TypeSyntax.tree]
  | pointer element ih =>
      rw [TypeSyntax.pieces, pieceTokens_symbol] at hn hrest
      obtain ⟨n, rfl, hlt⟩ := exists_fuel hn
      rw [List.cons_append] at hrest
      refine .ifIs_neg hrest (by simp) <| .ifIs_neg hrest (by simp) <| .ifIs_neg hrest (by simp) <|
        .ifIs_neg hrest (by simp) <| .ifIs_neg hrest (by simp) <| .ifIs_neg hrest (by simp) <|
        .ifIs_neg hrest (by simp) <| .ifIs_neg hrest (by simp) <| .ifIs_pos hrest ?_
      refine .bind (.move hrest (by decide)) fun _ j hj _ => ?_
      refine .bind (ih hlt j xs hj hangle) fun t l hl ht => .pure hl ?_
      rw [TyTree.unlocated, ht, TypeSyntax.tree]
  | array element ih =>
      rw [TypeSyntax.pieces, List.cons_append, pieceTokens_bracket] at hn hrest
      obtain ⟨n, rfl, hlt⟩ := exists_fuel hn
      rw [List.cons_append] at hrest
      rw [pieceTokens_append] at hlt hrest
      refine .ifIs_neg hrest (by simp) <| .ifIs_neg hrest (by simp) <| .ifIs_neg hrest (by simp) <|
        .ifIs_neg hrest (by simp) <| .ifIs_neg hrest (by simp) <| .ifIs_neg hrest (by simp) <|
        .ifIs_neg hrest (by simp) <| .ifIs_pos hrest ?_
      refine .bind (.eat hrest (by decide)) fun _ j hj _ => ?_
      have hlen : (pieceTokens element.pieces).length ≤ n := by
        rw [List.length_append] at hlt
        omega
      refine .bind (ih hlen j ((.bracket, "]".toList) :: xs) ?_ (by simp)) fun t l hl ht => ?_
      · rw [hj, List.append_assoc]
        rfl
      refine .bind (.eat hl (by decide)) fun _ l' hl' _ => .pure hl' ?_
      rw [TyTree.unlocated, ht, TypeSyntax.tree]
  | tuple first second rest ih₁ ih₂ ih =>
      rw [TypeSyntax.pieces, List.cons_append, pieceTokens_bracket] at hn hrest
      obtain ⟨n, rfl, hlt⟩ := exists_fuel hn
      rw [List.cons_append] at hrest
      rw [pieceTokens_append] at hlt hrest
      have hlen := TypeSyntax.length_le_tokens (first :: second :: rest) []
      rw [List.append_nil, TypeSyntax.piecesAll, TypeSyntax.piecesAll] at hlen
      rw [List.length_append] at hlt
      refine .ifIs_neg hrest (by simp) <| .ifIs_neg hrest (by simp) <| .ifIs_neg hrest (by simp) <|
        .ifIs_neg hrest (by simp) <| .ifIs_neg hrest (by simp) <| .ifIs_neg hrest (by simp) <|
        .ifIs_pos hrest (.bind (.eat hrest (by decide)) fun _ j hj _ => ?_)
      have hall : ∀ s ∈ first :: second :: rest, ReadsAs ts (parseType n) s := by
        intro s hs i xs hi hangle
        have hle := hlen.2 s hs
        rcases List.mem_cons.mp hs with rfl | hs
        · exact ih₁ (by omega) i xs hi hangle
        rcases List.mem_cons.mp hs with rfl | hs
        · exact ih₂ (by omega) i xs hi hangle
        · exact ih s hs (by omega) i xs hi hangle
      have hcount : (first :: second :: rest).length < n := by
        have hone : (pieceTokens [Piece.bracket ')']).length = 1 := rfl
        omega
      have hfields : ts.rest j = pieceTokens (commas
          (TypeSyntax.piecesAll (first :: second :: rest))) ++ (.bracket, ")".toList) :: xs := by
        rw [hj, List.append_assoc]
        rfl
      refine .bind (parseList_reads (.inl rfl) hall hcount hfields) fun as l hl has => ?_
      refine .bind (.eat hl (by decide)) fun _ l' hl' _ => ?_
      -- a list of two types at least is a tuple
      rw [TypeSyntax.treeAll, TypeSyntax.treeAll] at has
      match as, has with
      | [], has => simp [TyTree.unlocatedAll] at has
      | [_], has => simp [TyTree.unlocatedAll] at has
      | _ :: _ :: _, has =>
          refine .pure hl' ?_
          rw [TyTree.unlocated, has, TypeSyntax.tree]
  | function args ret varargs ih ihret =>
      rw [TypeSyntax.pieces, List.cons_append, List.cons_append, pieceTokens_word,
        pieceTokens_bracket] at hn hrest
      obtain ⟨n, rfl, hlt⟩ := exists_fuel hn
      rw [List.cons_append, List.cons_append] at hrest
      rw [pieceTokens_append] at hlt hrest
      have hlen := TypeSyntax.length_le_tokens args (dots varargs)
      simp only [pieceTokens_bracket, pieceTokens_symbol, pieceTokens_space, List.length_cons,
        List.length_append] at hlt
      refine .ifIs_neg hrest (by decide) <| .ifIs_neg hrest (by decide) <|
        .ifIs_neg hrest (by decide) <| .ifIs_neg hrest (by decide) <|
        .ifIs_neg hrest (by decide) <| .ifIs_neg hrest (by decide) <|
        .ifIs_neg hrest (by decide) <| .ifIs_neg hrest (by decide) <|
        .ifIs_neg hrest (by decide) <| .ifIs_pos hrest ?_
      refine .bind (.move hrest (by decide)) fun _ j hj _ => ?_
      refine .bind (.eat hj (by decide)) fun _ j hj _ => ?_
      have hall : ∀ s ∈ args, ReadsAs ts (parseType n) s := by
        intro s hs i xs hi hangle
        have hle := hlen.2 s hs
        exact ih s hs (by omega) i xs hi hangle
      have hargs : ts.rest j = pieceTokens (commas
          (TypeSyntax.piecesAll args ++ dots varargs)) ++ (.bracket, ")".toList) ::
            (.atom, ":".toList) :: (pieceTokens ret.pieces ++ xs) := by
        rw [hj, List.append_assoc]
        rfl
      refine .bind (parseArguments_reads hall (by omega) hargs) fun r l hl hr => ?_
      refine .bind (.eat hl (by decide)) fun _ l hl _ => .bind (.eat hl (by decide))
        fun _ l hl _ => ?_
      refine .bind (ihret (by omega) l xs hl hangle) fun t l' hl' ht => .pure hl' ?_
      rw [TyTree.unlocated, ht, hr.1, hr.2, TypeSyntax.tree]

/-! ### What a run goes past -/

/-- A token that is no punctuation, or that of the notation. -/
def TokenKind.Allowed (x : TokenKind) : Prop := x.1 = .atom → x.2 ∈ symbols.map String.toList

/-- All the tokens from `i` up to `j` are allowed. -/
def Past (ts : TokenStream) (i j : Nat) : Prop :=
  i ≤ j ∧ ∀ k, i ≤ k → k < j → (ts.tokenAt k).kind.Allowed

/-- No token is gone past between an index and itself. -/
theorem Past.refl (i : Nat) : Past ts i i := ⟨Nat.le_refl i, fun k hik hki => by omega⟩

/-- What is gone past in two runs is gone past in one of them. -/
theorem Past.trans {i j l : Nat} (h : Past ts i j) (h' : Past ts j l) : Past ts i l := by
  refine ⟨Nat.le_trans h.1 h'.1, fun k hik hkl => ?_⟩
  rcases Nat.lt_or_ge k j with hkj | hjk
  · exact h.2 k hik hkj
  · exact h'.2 k hjk hkl

/-- One token of the notation is gone past. -/
theorem Past.step (h : (ts.tokenAt i).kind.Allowed) : Past ts i (i + 1) := by
  refine ⟨Nat.le_succ i, fun k hik hki => ?_⟩
  have heq : k = i := by omega
  rw [heq]
  exact h

/-- A run of `m` from `i` that ends with a result goes past allowed tokens only. -/
def Goes (ts : TokenStream) (m : ParseM α) (i : Nat) : Prop :=
  ∀ a j, m ts i = .ok (a, j) → Past ts i j

/-- A diagnostic is no result. -/
theorem panic_ne_ok {loc : Location} {message : Str} {r : α × Nat} :
    ParseM.panic loc message ts i ≠ .ok r := by
  intro h
  unfold ParseM.panic Output.panic at h
  split at h
  · split at h <;> cases h
  · cases h

/-- The run of a sequence, taken apart. -/
theorem bind_ok {m : ParseM α} {k : α → ParseM β} {b : β} {l : Nat}
    (h : (m >>= k) ts i = .ok (b, l)) : ∃ a j, m ts i = .ok (a, j) ∧ k a ts j = .ok (b, l) := by
  rw [bind_apply] at h
  cases hm : m ts i with
  | error e =>
      rw [hm] at h
      cases h
  | ok r =>
      obtain ⟨a, j⟩ := r
      rw [hm] at h
      exact ⟨a, j, rfl, h⟩

/-- A successful `move` is one token further. -/
theorem move_ok {u : Unit} {j : Nat} (h : TokenStream.move ts i = .ok (u, j)) : j = i + 1 := by
  obtain ⟨b, j', hb, h⟩ := bind_ok h
  cases hb
  obtain ⟨_, l, hlift, h⟩ := bind_ok h
  unfold ParseM.lift at hlift
  cases hassert : assertThat (¬ decide ((ts.tokenAt i).type = .end) = true) with
  | error e =>
      rw [hassert] at hlift
      cases hlift
  | ok _ =>
      rw [hassert] at hlift
      cases hlift
      cases h
      rfl

/-- A successful `expect` has found the token. -/
theorem expect_ok {type : TokenType} {data : String} {u : Unit} {j : Nat}
    (h : TokenStream.expect type data ts i = .ok (u, j)) : j = i ∧ ts.At i type data := by
  have hrun : (if ((ts.tokenAt i).type = type && (ts.tokenAt i).data = data.toList) = true then
      pure () else TokenStream.get >>= fun t => ParseM.panic t.location
        ("Expected '".toList ++ data.toList ++ "', got ".toList ++ tokenName t) :
          ParseM Unit) ts i =
        .ok (u, j) := h
  split_ifs at hrun with hb
  · rw [Bool.and_eq_true, decide_eq_true_eq, decide_eq_true_eq] at hb
    cases hrun
    exact ⟨rfl, hb⟩
  · exact absurd hrun panic_ne_ok

/-- A successful `expectType` has found the type. -/
theorem expectType_ok {type : TokenType} {u : Unit} {j : Nat}
    (h : TokenStream.expectType type ts i = .ok (u, j)) : j = i ∧ (ts.tokenAt i).type = type := by
  have hrun : (if decide ((ts.tokenAt i).type = type) = true then
      pure () else TokenStream.get >>= fun t => ParseM.panic t.location
        ("Expected ".toList ++ type.tokenName ++ ", got ".toList ++ tokenName t) :
          ParseM Unit) ts i =
        .ok (u, j) := h
  split_ifs at hrun with hb
  · cases hrun
    exact ⟨rfl, of_decide_eq_true hb⟩
  · exact absurd hrun panic_ne_ok

/-- Words, brackets and the punctuation of the notation are tokens of the notation. -/
theorem TokenStream.At.allowed {type : TokenType} {data : String} (h : ts.At i type data)
    (hdata : type = .atom → data ∈ symbols) : (ts.tokenAt i).kind.Allowed := by
  intro htype
  show (ts.tokenAt i).data ∈ _
  rw [h.2]
  exact List.mem_map_of_mem (hdata (h.1.symm.trans htype))

namespace Goes

variable {m m' : ParseM α} {k : α → ParseM β} {type : TokenType} {data : String}

/-- A result goes past nothing. -/
theorem pure {a : α} : Goes ts (Pure.pure a) i := by
  intro b j h
  cases h
  exact .refl i

/-- Without fuel there is no result. -/
theorem outOfFuel : Goes ts (ParseM.outOfFuel : ParseM α) i := fun _ _ h => nomatch h

/-- A composition goes past what its parts go past. -/
theorem bind (h : Goes ts m i) (hk : ∀ a j, m ts i = .ok (a, j) → Goes ts (k a) j) :
    Goes ts (m >>= k) i := by
  intro b l hb
  obtain ⟨a, j, hm, hb⟩ := bind_ok hb
  exact (h a j hm).trans (hk a j hm b l hb)

/-- A branch on the current token: only one side may know it. -/
theorem ifIs (h : ts.At i type data → Goes ts m i) (h' : Goes ts m' i) :
    Goes ts (TokenStream.is type data >>= fun b => if b = true then m else m') i := by
  intro a j ha
  have hrun : (if ((ts.tokenAt i).type = type && (ts.tokenAt i).data = data.toList) = true then m
      else m') ts i = .ok (a, j) := ha
  split_ifs at hrun with hb
  · rw [Bool.and_eq_true, decide_eq_true_eq, decide_eq_true_eq] at hb
    exact h hb a j hrun
  · exact h' a j hrun

/-- A branch on its type likewise. -/
theorem ifType (h : (ts.tokenAt i).type = type → Goes ts m i) (h' : Goes ts m' i) :
    Goes ts (TokenStream.isType type >>= fun b => if b = true then m else m') i := by
  intro a j ha
  have hrun : (if decide ((ts.tokenAt i).type = type) = true then m else m') ts i = .ok (a, j) := ha
  split_ifs at hrun with hb
  · exact h (of_decide_eq_true hb) a j hrun
  · exact h' a j hrun

/-- `move` goes past a token of the notation. -/
theorem move (h : (ts.tokenAt i).kind.Allowed) : Goes ts TokenStream.move i := by
  intro a j hmove
  rw [move_ok hmove]
  exact .step h

/-- `eat` goes past the token that it is given. -/
theorem eat (hdata : type = .atom → data ∈ symbols) : Goes ts (TokenStream.eat type data) i := by
  intro a l h
  obtain ⟨_, j, hexpect, hmove⟩ := bind_ok h
  obtain ⟨rfl, hat⟩ := expect_ok hexpect
  exact move (hat.allowed hdata) a l hmove

/-- An identifier is a token of the notation. -/
theorem eatIdent : Goes ts (TokenStream.eatType .ident) i := by
  intro a l h
  obtain ⟨_, j, hexpect, hmove⟩ := bind_ok h
  obtain ⟨rfl, htype⟩ := expectType_ok hexpect
  have hallowed : (ts.tokenAt j).kind.Allowed := fun hatom => by
    rw [Token.kind, htype] at hatom
    cases hatom
  have hrest : Goes ts (TokenStream.move >>= fun _ => Pure.pure (ts.tokenAt j)) j :=
    bind (move hallowed) fun _ _ _ => pure
  exact hrest a l hmove

end Goes

/-! ### Punctuation of types -/

section Types

variable {T : ParseM TyTree} {type : TokenType} {close : String}

/-- The comma and the closing token are of the notation. -/
theorem eatComma_goes : Goes ts (eatComma type close) i :=
  .ifIs (fun _ => .pure) (.eat (by decide))

/-- `parseList` goes past what its items go past, and past commas. -/
theorem parseList_goes (hT : ∀ i, Goes ts T i) (n : Nat) :
    Goes ts (parseList type close T n) i := by
  induction n generalizing i with
  | zero => exact .outOfFuel
  | succ n ih =>
      refine .ifIs (fun _ => .pure) (.bind (hT i) fun a j _ => .bind eatComma_goes fun _ l _ => ?_)
      exact .bind ih fun _ _ _ => .pure

/-- `parseArguments` likewise, and past the dots. -/
theorem parseArguments_goes (hT : ∀ i, Goes ts T i) (n : Nat) :
    Goes ts (parseArguments T n) i := by
  induction n generalizing i with
  | zero => exact .outOfFuel
  | succ n ih =>
      refine .ifIs (fun _ => .pure) (.ifIs (fun hat => ?_) ?_)
      · exact .bind (.move (hat.allowed (by decide))) fun _ _ _ => .pure
      · refine .bind (hT i) fun a j _ => .bind eatComma_goes fun _ l _ => ?_
        exact .bind ih fun _ _ _ => .pure

/-- `parseTypeArguments` likewise, and past `<` and `>`. -/
theorem parseTypeArguments_goes (hT : ∀ i, Goes ts T i) (n : Nat) :
    Goes ts (parseTypeArguments T n) i := by
  refine .ifIs (fun _ => .bind (.eat (by decide)) fun _ j _ => ?_) .pure
  exact .bind (parseList_goes hT n) fun _ l _ => .bind (.eat (by decide)) fun _ _ _ => .pure

/-- All the punctuation that `parseType` goes past is that of the notation. -/
theorem parseType_goes (n : Nat) : Goes ts (parseType n) i := by
  induction n generalizing i with
  | zero => exact .outOfFuel
  | succ n ih =>
      -- a word that is a type by itself
      have hword : ∀ {word : String} {t : TyTree}, ts.At i .ident word →
          Goes ts (move >>= fun _ => pure t) i := fun hat =>
        .bind (.move (hat.allowed (fun h => nomatch h))) fun _ _ _ => .pure
      refine .ifIs hword <| .ifIs hword <| .ifIs hword <| .ifIs hword <| .ifIs hword <|
        .ifIs hword <| .ifIs (fun _ => ?tuple) <| .ifIs (fun _ => ?array) <|
        .ifIs (fun hat => ?pointer) <| .ifIs (fun hat => ?function) <|
        .ifType (fun _ => ?inst) fun _ _ h => absurd h panic_ne_ok
      case tuple =>
        refine .bind (.eat (by decide)) fun _ j _ => .bind (parseList_goes (fun _ => ih) n)
          fun fields l _ => .bind (.eat (by decide)) fun _ _ _ => ?_
        match fields with
        | [] => exact .pure
        | [_] => exact .pure
        | _ :: _ :: _ => exact .pure
      case array =>
        exact .bind (.eat (by decide)) fun _ _ _ => .bind ih fun _ _ _ =>
          .bind (.eat (by decide)) fun _ _ _ => .pure
      case pointer =>
        exact .bind (.move (hat.allowed (by decide))) fun _ _ _ => .bind ih fun _ _ _ => .pure
      case function =>
        refine .bind (.move (hat.allowed (by decide))) fun _ _ _ => .bind (.eat (by decide))
          fun _ _ _ => .bind (parseArguments_goes (fun _ => ih) n) fun _ _ _ => ?_
        exact .bind (.eat (by decide)) fun _ _ _ => .bind (.eat (by decide)) fun _ _ _ =>
          .bind ih fun _ _ _ => .pure
      case inst =>
        exact .bind .eatIdent fun _ _ _ => .bind (parseTypeArguments_goes (fun _ => ih) n)
          fun _ _ _ => .pure

end Types

end Aike
