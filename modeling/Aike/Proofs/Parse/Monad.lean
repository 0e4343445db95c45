import Aike.Model.Parse

/-!
# `Aike.Proofs.Parse.Monad`: rules for steps of the parser

A run of the parser ends with a result, with a diagnostic, or with a fault.
`Halts ts m i Q` says of the run of `m` from the index `i` that a result and the
index after it are in `Q`, and that it ends with no fault but an assertion about the
locations of the tokens. On a `Located` stream, whose tokens have their lines in the
line table, follow each other, and are inside of the text, these assertions hold, so
that there it ends with no fault at all (`Meets`). `tokenize` makes `Sound` streams.
-/

set_option autoImplicit false

namespace Aike

open TokenStream

variable {α β : Type} {ts : TokenStream} {i j : Nat}

/-! ### Streams -/

/-- The text of an identifier. -/
structure IsIdentText (text : Str) : Prop where
  ne_nil : text ≠ []
  chars : ∀ ch ∈ text, isIdent ch = true

namespace TokenStream

/-- The number of tokens. -/
def size (ts : TokenStream) : Nat := ts.tokens.tokens.length

/-- A diagnostic at a location can be printed. -/
def Fits (ts : TokenStream) (loc : Location) : Prop :=
  ∀ contents, ts.output.sources loc.source = some contents →
    loc.offset + loc.length ≤ contents.length

/-- A location is before every token from `i` on. -/
def Before (ts : TokenStream) (loc : Location) (i : Nat) : Prop :=
  ∀ j, i ≤ j → j < ts.size → (ts.tokenAt j).type ≠ .line →
    loc.source = (ts.tokenAt j).location.source ∧
      loc.offset + loc.length ≤ (ts.tokenAt j).location.offset

/-- What the assertions of the parser are about. -/
structure Located (ts : TokenStream) : Prop where
  fits : ∀ i, ts.Fits (ts.tokenAt i).location
  inLines : ∀ i, (ts.tokenAt i).location.line < ts.tokens.lines.length
  ordered : ∀ i, ts.Before (ts.tokenAt i).location (i + 1)

/-- What `tokenize` promises. -/
structure Sound (ts : TokenStream) : Prop where
  fits : ∀ i, ts.Fits (ts.tokenAt i).location
  inLines : ∀ i, (ts.tokenAt i).location.line < ts.tokens.lines.length
  notEnd : ∀ i, i < ts.size → (ts.tokenAt i).type ≠ .end
  identData : ∀ i, (ts.tokenAt i).type = .ident → IsIdentText (ts.tokenAt i).data
  ordered : ∀ i, ts.Before (ts.tokenAt i).location (i + 1)

/-- The line of a location is in the line table. -/
def InTable (ts : TokenStream) (loc : Location) : Prop :=
  ts.Located → loc.line < ts.tokens.lines.length

/-- The line of every token of a located stream is in the line table. -/
theorem inTable (i : Nat) : ts.InTable (ts.tokenAt i).location := fun hl => hl.inLines i

/-- The same for the line that a block belongs to, given as an option. -/
theorem inTable_some (i : Nat) : ∀ loc ∈ some (ts.tokenAt i).location, ts.InTable loc := by
  rintro loc ⟨⟩
  exact inTable i

/-- A sound stream is located. Its identifiers are not needed for that. -/
theorem Sound.located (hs : ts.Sound) : ts.Located := ⟨hs.fits, hs.inLines, hs.ordered⟩

/-- The indices that a parser which reads something can end at. -/
def Advances (ts : TokenStream) (i j : Nat) : Prop := i < j ∧ j ≤ ts.size

/-- The indices that a parser can end at which does not end with a newline. -/
structure Inner (ts : TokenStream) (i j : Nat) : Prop where
  lt : i < j
  le : j ≤ ts.size
  notLine : (ts.tokenAt (j - 1)).type ≠ .line

/-- What ends behind a token that is no newline moves on. -/
theorem Inner.advances (h : ts.Inner i j) : ts.Advances i j := ⟨h.lt, h.le⟩

/-- The start of a span that ends behind a token that is no newline can be earlier. -/
theorem Inner.of_le {i' : Nat} (h : ts.Inner i' j) (hle : i ≤ i') : ts.Inner i j :=
  ⟨by have := h.lt; omega, h.le, h.notLine⟩

/-- One token that is no newline is such a span. -/
theorem Inner.step (hlt : i < ts.size) (h : (ts.tokenAt i).type ≠ .line) : ts.Inner i (i + 1) :=
  ⟨Nat.lt_succ_self i, hlt, h⟩

/-- What is before an index is before a later one. -/
theorem Before.mono {loc : Location} (h : ts.Before loc i) (hle : i ≤ j) : ts.Before loc j :=
  fun k hk => h k (Nat.le_trans hle hk)

/-- Behind the last token there is the end of the tokens. -/
theorem tokenAt_of_size_le (h : ts.size ≤ i) : ts.tokenAt i = kEnd := by
  rw [tokenAt, List.getD_eq_getElem?_getD, List.getElem?_eq_none h]
  rfl

/-- Before it, there are the tokens of the stream. -/
theorem tokenAt_of_lt_size (ts : TokenStream) (h : i < ts.tokens.tokens.length) :
    ts.tokenAt i = ts.tokens.tokens[i] := by
  rw [tokenAt, List.getD_eq_getElem?_getD, List.getElem?_eq_getElem h]
  rfl

/-- At an index, the stream reads a token of the array or `kEnd`. -/
theorem tokenAt_mem_or (ts : TokenStream) (i : Nat) :
    ts.tokenAt i ∈ ts.tokens.tokens ∨ ts.tokenAt i = kEnd := by
  by_cases hi : i < ts.tokens.tokens.length
  · left
    rw [tokenAt_of_lt_size ts hi]
    exact List.getElem_mem hi
  · exact .inr (tokenAt_of_size_le (Nat.le_of_not_lt hi))

/-- A token that is not the end is one of the stream. -/
theorem lt_size_of_type (h : (ts.tokenAt i).type ≠ .end) : i < ts.size := by
  by_contra hle
  rw [tokenAt_of_size_le (Nat.le_of_not_lt hle)] at h
  exact h rfl

end TokenStream

/-- The locations of the tokens are those of a text: a token's line is in the table, the
text is known up to the token's end, and the tokens follow each other. The constructor of
`Location`, `getLineIndent` and `Output::panic` count on this. No span ends at a line
token, which may stand where the token before it ends. -/
structure Tokens.WellLocated (output : Output) (tokens : Tokens) : Prop where
  inLines : ∀ t ∈ tokens.tokens, t.location.line < tokens.lines.length
  fits : ∀ t ∈ tokens.tokens, TokenStream.Fits ⟨output, tokens⟩ t.location
  ordered : tokens.tokens.Pairwise fun l r => r.type ≠ .line →
    l.location.source = r.location.source ∧
      l.location.offset + l.location.length ≤ r.location.offset

/-- The locations are those that the rules for runs of the parser ask for. `kEnd` has the
default location, which is in line 0, so the table must not be empty. -/
theorem Tokens.WellLocated.located {output : Output} {tokens : Tokens}
    (h : tokens.WellLocated output) (hlines : 0 < tokens.lines.length) :
    TokenStream.Located ⟨output, tokens⟩ := by
  refine ⟨fun i => ?fits, fun i => ?inLines, fun i j hij hj hline => ?ordered⟩
  case fits =>
    rcases tokenAt_mem_or ⟨output, tokens⟩ i with hmem | heq
    · exact h.fits _ hmem
    · rw [heq]
      exact fun contents _ => Nat.zero_le _
  case inLines =>
    rcases tokenAt_mem_or ⟨output, tokens⟩ i with hmem | heq
    · exact h.inLines _ hmem
    · rw [heq]
      exact hlines
  case ordered =>
    have hi : i < tokens.tokens.length := Nat.lt_trans hij hj
    rw [tokenAt_of_lt_size ⟨output, tokens⟩ hj] at hline ⊢
    rw [tokenAt_of_lt_size ⟨output, tokens⟩ hi]
    exact List.pairwise_iff_getElem.mp h.ordered i j hi hj hij hline

/-! ### Runs -/

/-- The run of `m` from `i` ends in `Q` or with a diagnostic. -/
def Meets (ts : TokenStream) (m : ParseM α) (i : Nat) (Q : α → Nat → Prop) : Prop :=
  match m ts i with
  | .ok (a, j) => Q a j
  | .error (.panic _) => True
  | .error (.fault _) => False

/-- The run of `m` from `i` ends in `Q`, with a diagnostic, or at an assertion about
locations. -/
def Halts (ts : TokenStream) (m : ParseM α) (i : Nat) (Q : α → Nat → Prop) : Prop :=
  match m ts i with
  | .ok (a, j) => Q a j
  | .error (.panic _) => True
  | .error (.fault f) => f = .assertion ∧ ¬ ts.Located

variable {m : ParseM α} {k : α → ParseM β} {Q : α → Nat → Prop} {R : β → Nat → Prop}

/-- On a located stream, the only fault that `Halts` leaves open is excluded. -/
theorem Halts.meets (h : Halts ts m i Q) (hl : ts.Located) : Meets ts m i Q := by
  unfold Halts at h
  unfold Meets
  split at h
  case h_1 a j heq => exact h
  case h_2 d heq => trivial
  case h_3 f heq => exact h.2 hl

/-- A weaker postcondition holds, too. -/
theorem Halts.mono {Q' : α → Nat → Prop} (h : Halts ts m i Q) (hQ : ∀ a j, Q a j → Q' a j) :
    Halts ts m i Q' := by
  unfold Halts at h ⊢
  split at h
  case h_1 a j heq => exact hQ a j h
  case h_2 d heq => trivial
  case h_3 f heq => exact h

/-- A result is in the postcondition at the index where it is. -/
theorem Halts.pure {a : α} (h : Q a i) : Halts ts (pure a) i Q := h

/-- A composition, as it runs. -/
theorem bind_apply : (m >>= k) ts i =
    match m ts i with
    | .ok (a, j) => k a ts j
    | .error e => .error e := rfl

/-- A composition whose first part has a result goes on with it. -/
theorem bind_run {a : α} (h : m ts i = .ok (a, j)) : (m >>= k) ts i = k a ts j := by
  rw [bind_apply, h]

/-- A composition whose first part ends in an error ends in it. -/
theorem bind_run_error {e : Stop} (h : m ts i = .error e) : (m >>= k) ts i = .error e := by
  rw [bind_apply, h]

/-- A composition: the postcondition of the first part is what the second part starts
from. -/
theorem Halts.bind (h : Halts ts m i fun a j => Halts ts (k a) j R) : Halts ts (m >>= k) i R := by
  unfold Halts at h ⊢
  rw [bind_apply]
  split at h
  case h_1 a j heq =>
    rw [heq]
    exact h
  case h_2 d heq =>
    rw [heq]
    trivial
  case h_3 f heq =>
    rw [heq]
    exact h

/-- A branch: both sides, each with its condition. -/
theorem Halts.ite {c : Prop} [Decidable c] {m' : ParseM α} (h : c → Halts ts m i Q)
    (h' : ¬ c → Halts ts m' i Q) : Halts ts (if c then m else m') i Q := by
  split
  case isTrue hc => exact h hc
  case isFalse hc => exact h' hc

/-! ### Steps that read -/

/-- The token at an index has a type and a text. -/
def TokenStream.At (ts : TokenStream) (i : Nat) (type : TokenType) (data : String) : Prop :=
  (ts.tokenAt i).type = type ∧ (ts.tokenAt i).data = data.toList

/-- The current token is looked at, and nothing is read. -/
theorem Halts.get {k : Token → ParseM α} (h : Halts ts (k (ts.tokenAt i)) i Q) :
    Halts ts (TokenStream.get >>= k) i Q := h

/-- The next token is looked at, and nothing is read. -/
theorem Halts.getNext {k : Token → ParseM α} (h : Halts ts (k (ts.tokenAt (i + 1))) i Q) :
    Halts ts (TokenStream.getNext >>= k) i Q := h

/-- The index is looked at. -/
theorem Halts.getIndex {k : Nat → ParseM α} (h : Halts ts (k i) i Q) :
    Halts ts (TokenStream.getIndex >>= k) i Q := h

/-- A test of the current token, with what its answer means. -/
theorem Halts.is {type : TokenType} {data : String} {k : Bool → ParseM α}
    (h : ∀ b, (b = true ↔ ts.At i type data) → Halts ts (k b) i Q) :
    Halts ts (TokenStream.is type data >>= k) i Q := by
  refine h _ ?_
  rw [Bool.and_eq_true, decide_eq_true_eq, decide_eq_true_eq]
  exact Iff.rfl

/-- A test of its type, with what its answer means. -/
theorem Halts.isType {type : TokenType} {k : Bool → ParseM α}
    (h : ∀ b, (b = true ↔ (ts.tokenAt i).type = type) → Halts ts (k b) i Q) :
    Halts ts (TokenStream.isType type >>= k) i Q :=
  h _ decide_eq_true_iff

/-- A branch on the current token. -/
theorem Halts.ifIs {type : TokenType} {data : String} {m m' : ParseM α}
    (h : ts.At i type data → Halts ts m i Q) (h' : ¬ ts.At i type data → Halts ts m' i Q) :
    Halts ts (TokenStream.is type data >>= fun b => if b = true then m else m') i Q :=
  .is fun _ hb => .ite (fun hc => h (hb.mp hc)) fun hc => h' fun hat => hc (hb.mpr hat)

/-- A branch on the type of the current token. -/
theorem Halts.ifType {type : TokenType} {m m' : ParseM α}
    (h : (ts.tokenAt i).type = type → Halts ts m i Q)
    (h' : (ts.tokenAt i).type ≠ type → Halts ts m' i Q) :
    Halts ts (TokenStream.isType type >>= fun b => if b = true then m else m') i Q :=
  .isType fun _ hb => .ite (fun hc => h (hb.mp hc)) fun hc => h' fun heq => hc (hb.mpr heq)

/-! ### Steps that report -/

/-- A diagnostic is an end that needs no postcondition. That it can be printed is needed
on located streams only. -/
theorem Halts.panic {loc : Location} {message : Str} (h : ts.Located → ts.Fits loc) :
    Halts ts (ParseM.panic loc message) i Q := by
  unfold Halts ParseM.panic Output.panic
  cases hsource : ts.output.sources loc.source with
  | none => trivial
  | some contents =>
      dsimp only
      by_cases hfits : loc.offset + loc.length ≤ contents.length
      · rw [if_pos hfits]
        trivial
      · rw [if_neg hfits]
        exact ⟨rfl, fun hl => hfits (h hl contents hsource)⟩

/-- Behind a check, what is checked may be used. -/
theorem Halts.panicIf {c : Prop} [Decidable c] {loc : Location} {message : Str}
    {Q : Unit → Nat → Prop} (hfits : ts.Located → ts.Fits loc) (h : ¬ c → Q () i) :
    Halts ts (ParseM.panicIf c loc message) i Q :=
  .ite (fun _ => .panic hfits) fun hc => .pure (h hc)

/-- A step that reads nothing and has a result. -/
theorem Halts.lift {a : α} {e : Except Stop α} (he : e = .ok a) (h : Q a i) :
    Halts ts (ParseM.lift e) i Q := by
  subst he
  exact h

section Steps

variable {type : TokenType} {data : String} {Q : Unit → Nat → Prop}

/-- `move` asserts that there is a token. -/
theorem Halts.move (hend : (ts.tokenAt i).type ≠ .end) (h : Q () (i + 1)) :
    Halts ts TokenStream.move i Q := by
  refine .isType fun b hb => ?_
  have hb' : ¬ b = true := fun hc => hend (hb.mp hc)
  refine .bind (.lift (if_pos hb') ?_)
  exact h

/-- Behind `expectType`, the token has the type. -/
theorem Halts.expectType (h : (ts.tokenAt i).type = type → Q () i) :
    Halts ts (TokenStream.expectType type) i Q :=
  .ifType (fun htype => .pure (h htype)) fun _ => .get (.panic fun hl => hl.fits i)

/-- Behind `expect`, the token is the one. -/
theorem Halts.expect (h : ts.At i type data → Q () i) :
    Halts ts (TokenStream.expect type data) i Q :=
  .ifIs (fun hat => .pure (h hat)) fun _ => .get (.panic fun hl => hl.fits i)

/-- The indent of a line of the table can be looked up. Nothing is known of it. -/
theorem Halts.getLineIndent {loc : Location} {Q : Nat → Nat → Prop}
    (hline : ts.InTable loc) (h : ∀ n, Q n i) :
    Halts ts (Aike.getLineIndent loc) i Q := by
  unfold Halts Aike.getLineIndent
  cases hget : ts.tokens.lines[loc.line]? with
  | none => exact ⟨rfl, fun hl => Nat.not_le_of_lt (hline hl) (List.getElem?_eq_none_iff.mp hget)⟩
  | some line => exact h _

/-- One location after another in one file: what spans them starts where the first one does. -/
theorem Location.span_of_ordered {lhs rhs : Location}
    (h : lhs.source = rhs.source ∧ lhs.offset + lhs.length ≤ rhs.offset) :
    lhs.span rhs = .ok { lhs with length := rhs.offset + rhs.length - lhs.offset } := by
  unfold Location.span assertThat
  rw [if_pos h.1, if_pos h.2]
  rfl

/-- A span over locations that are not in order is an assertion that fails. This is the
only fault of the parser that is about locations. -/
theorem Location.span_of_not_ordered {lhs rhs : Location}
    (h : ¬ (lhs.source = rhs.source ∧ lhs.offset + lhs.length ≤ rhs.offset)) :
    lhs.span rhs = .error (.fault .assertion) := by
  unfold Location.span assertThat
  by_cases hsource : lhs.source = rhs.source
  · rw [if_pos hsource, if_neg fun hoffset => h ⟨hsource, hoffset⟩]
    rfl
  · rw [if_neg hsource]
    rfl

/-- Two locations of the stream span one. -/
theorem Halts.span {loc : Location} {Q : Location → Nat → Prop} {j : Nat}
    (hloc : ts.Located → ts.Before loc i) (hle : i ≤ j) (hj : j < ts.size)
    (hline : (ts.tokenAt j).type ≠ .line)
    (h : ∀ loc' : Location, loc'.source = (ts.tokenAt j).location.source →
      loc'.offset + loc'.length =
        (ts.tokenAt j).location.offset + (ts.tokenAt j).location.length → Q loc' (j + 1)) :
    Halts ts (ParseM.lift (loc.span (ts.tokenAt j).location)) (j + 1) Q := by
  by_cases hordered : loc.source = (ts.tokenAt j).location.source ∧
      loc.offset + loc.length ≤ (ts.tokenAt j).location.offset
  case pos =>
    refine .lift (Location.span_of_ordered hordered) (h _ hordered.1 ?_)
    show loc.offset + (_ - loc.offset) = _
    omega
  case neg =>
    rw [Location.span_of_not_ordered hordered]
    exact ⟨rfl, fun hl => hordered (hloc hl j hle hj hline)⟩

end Steps

/-- A token of one type is of no other. -/
theorem TokenStream.At.type_ne {type : TokenType} {data : String} (h : ts.At i type data)
    {type' : TokenType} (hne : type ≠ type') : (ts.tokenAt i).type ≠ type' := by
  rw [h.1]
  exact hne

/-- A word of the stream is inside of it. -/
theorem TokenStream.At.lt_size {type : TokenType} {data : String} (h : ts.At i type data)
    (hend : type ≠ .end) : i < ts.size := lt_size_of_type (h.type_ne hend)

/-! ### Runs of the steps -/

section Runs

variable {type : TokenType} {data : String} {m m' : ParseM α}

/-- A branch on the current token, where it is another one. -/
theorem ifIs_run_neg (h : ¬ ts.At i type data) :
    (TokenStream.is type data >>= fun b => if b = true then m else m') ts i = m' ts i := by
  have hb : ((ts.tokenAt i).type = type && (ts.tokenAt i).data = data.toList) = false := by
    rw [Bool.eq_false_iff]
    intro hb
    rw [Bool.and_eq_true, decide_eq_true_eq, decide_eq_true_eq] at hb
    exact h hb
  show (if ((ts.tokenAt i).type = type && (ts.tokenAt i).data = data.toList) = true then m
    else m') ts i = _
  rw [hb, if_neg Bool.false_ne_true]

/-- A branch on the current token, where it is the one. -/
theorem ifIs_run_pos (h : ts.At i type data) :
    (TokenStream.is type data >>= fun b => if b = true then m else m') ts i = m ts i := by
  have hb : ((ts.tokenAt i).type = type && (ts.tokenAt i).data = data.toList) = true := by
    rw [Bool.and_eq_true, decide_eq_true_eq, decide_eq_true_eq]
    exact h
  show (if ((ts.tokenAt i).type = type && (ts.tokenAt i).data = data.toList) = true then m
    else m') ts i = _
  rw [hb, if_pos rfl]

/-- A branch on the type of the current token, where it has it. -/
theorem ifType_run_pos (h : (ts.tokenAt i).type = type) :
    (TokenStream.isType type >>= fun b => if b = true then m else m') ts i = m ts i := by
  show (if decide ((ts.tokenAt i).type = type) = true then m else m') ts i = _
  rw [if_pos (decide_eq_true h)]

/-- A branch on the type of the current token, where it has not. -/
theorem ifType_run_neg (h : (ts.tokenAt i).type ≠ type) :
    (TokenStream.isType type >>= fun b => if b = true then m else m') ts i = m' ts i := by
  show (if decide ((ts.tokenAt i).type = type) = true then m else m') ts i = _
  rw [decide_eq_false h, if_neg Bool.false_ne_true]

/-- `move` on a token ends one token further. -/
theorem move_run (h : (ts.tokenAt i).type ≠ .end) : TokenStream.move ts i = .ok ((), i + 1) := by
  have hb : ¬ decide ((ts.tokenAt i).type = .end) = true := by
    rw [decide_eq_true_eq]
    exact h
  have hassert : ParseM.lift (assertThat (¬ decide ((ts.tokenAt i).type = .end) = true)) ts i =
      .ok ((), i) := by
    unfold ParseM.lift assertThat
    rw [if_pos hb]
    rfl
  exact bind_run (k := fun _ => (fun _ i => .ok ((), i + 1) : ParseM Unit)) hassert

/-- `eatType` on a token of the type returns it. -/
theorem eatType_run (h : (ts.tokenAt i).type = type) (hend : type ≠ .end) :
    TokenStream.eatType type ts i = .ok (ts.tokenAt i, i + 1) := by
  have hexpect : TokenStream.expectType type ts i = .ok ((), i) := by
    show (if decide ((ts.tokenAt i).type = type) = true then pure () else _ : ParseM Unit) ts i = _
    rw [if_pos (decide_eq_true h)]
    rfl
  have hmove : TokenStream.move ts i = .ok ((), i + 1) := move_run (by rw [h]; exact hend)
  unfold TokenStream.eatType
  rw [bind_run hexpect]
  show (TokenStream.move >>= fun _ => pure (ts.tokenAt i)) ts i = _
  rw [bind_run hmove]
  rfl

/-- A diagnostic is an error. -/
theorem panic_run_error {loc : Location} {message : Str} :
    ∃ e, (ParseM.panic loc message : ParseM α) ts i = .error e := by
  show ∃ e, (ts.output.panic loc message : Except Stop (α × Nat)) = .error e
  unfold Output.panic
  split
  · split <;> exact ⟨_, rfl⟩
  · exact ⟨_, rfl⟩

/-- `move` at the end fails its assertion. -/
theorem move_run_error (h : (ts.tokenAt i).type = .end) :
    TokenStream.move ts i = .error (.fault .assertion) := by
  have hb : decide ((ts.tokenAt i).type = .end) = true := decide_eq_true h
  have hassert : ParseM.lift (assertThat (¬ decide ((ts.tokenAt i).type = .end) = true)) ts i =
      .error (.fault .assertion) := by
    unfold ParseM.lift assertThat
    rw [if_neg (not_not_intro hb)]
    rfl
  exact bind_run_error (k := fun _ => (fun _ i => .ok ((), i + 1) : ParseM Unit)) hassert

/-- `expectType` on a token of another type is an error. -/
theorem expectType_run_error (h : (ts.tokenAt i).type ≠ type) :
    ∃ e, TokenStream.expectType type ts i = .error e := by
  unfold TokenStream.expectType
  rw [ifType_run_neg h]
  exact panic_run_error

/-- `expect` on another token is an error. -/
theorem expect_run_error (h : ¬ ts.At i type data) :
    ∃ e, TokenStream.expect type data ts i = .error e := by
  unfold TokenStream.expect
  rw [ifIs_run_neg h]
  exact panic_run_error

end Runs

end Aike
