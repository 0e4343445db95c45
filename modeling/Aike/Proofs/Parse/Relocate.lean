import Mathlib.Data.Set.Basic
import Mathlib.Tactic.Choose
import Aike.Proofs.Parse.Monad

/-!
# `Aike.Proofs.Parse.Relocate`: streams with the same tokens at other locations

`Streams` is a family of streams whose tokens agree in everything but their
locations, where what the parser asks of these has one answer: the indent of a token's line, and
whether two tokens are on one line. The end of a stream has no line of its own, and the
parser takes the first one for it. So the indent at the end may differ.

`Uniform` says of a family of runs, one for each stream, that they end at one index with
one result up to locations, except where the indent at the end is asked for. There is at
most one such check (`EndCheck`), and the runs end with a diagnostic exactly where it
does not pass. `Uniform.bind` puts runs together: what comes after a check is at the end
and asks for no other.

A run that ends with a fault makes the family `Uniform` for free. The parser has none.
-/

set_option autoImplicit false

namespace Aike

open TokenStream

/-! ### Trees without locations -/

/-- A name, wherever it is written. -/
def Named.erase (name : Named) : Named := ⟨name.name, {}⟩

mutual

/-- A type, wherever it is written. -/
@[simp] def TyTree.erase : TyTree → TyTree
  | .tuple fields => .tuple (eraseAll fields)
  | .array element => .array (erase element)
  | .pointer element => .pointer (erase element)
  | .function args ret varargs => .function (eraseAll args) (erase ret) varargs
  | .inst name tyargs => .inst name.erase (eraseAll tyargs)
  | type => type

def TyTree.eraseAll : List TyTree → List TyTree
  | [] => []
  | t :: ts => erase t :: eraseAll ts

end

/-- Erasing a list of types erases each of them. -/
theorem TyTree.eraseAll_eq (ts : List TyTree) : TyTree.eraseAll ts = ts.map TyTree.erase := by
  induction ts with
  | nil => rfl
  | cons t ts ih => rw [TyTree.eraseAll, ih, List.map_cons]

/-- A variable, wherever it is written. -/
def VarTree.erase (var : VarTree) : VarTree :=
  { var with type := var.type.erase, location := {} }

mutual

/-- A tree without its locations and without the ids of anonymous functions. -/
@[simp] def Tree.erase : Tree → Tree
  | .literalVoid _ => .literalVoid {}
  | .literalBool _ value => .literalBool {} value
  | .literalInteger _ value => .literalInteger {} value
  | .literalFloat _ value => .literalFloat {} value
  | .literalString _ value => .literalString {} value
  | .literalTuple _ fields => .literalTuple {} (eraseAll fields)
  | .literalArray _ elements => .literalArray {} (eraseAll elements)
  | .literalStruct _ type name fields =>
      .literalStruct {} (type.map TyTree.erase) name (eraseFields fields)
  | .ident _ name tyargs => .ident {} name (tyargs.map TyTree.erase)
  | .member _ expr field => .member {} (erase expr) field.erase
  | .block _ body => .block {} (eraseAll body)
  | .module _ name body autoimports => .module {} name (erase body) autoimports
  | .call _ expr args => .call {} (erase expr) (eraseAll args)
  | .unary _ op expr => .unary {} op (erase expr)
  | .binary _ op left right => .binary {} op (erase left) (erase right)
  | .index _ expr idx => .index {} (erase expr) (erase idx)
  | .assign _ left right => .assign {} (erase left) (erase right)
  | .ifThen _ cond thenbody => .ifThen {} (erase cond) (erase thenbody)
  | .ifElse _ cond thenbody elsebody =>
      .ifElse {} (erase cond) (erase thenbody) (erase elsebody)
  | .forIn _ var idx expr body =>
      .forIn {} var.erase (idx.map VarTree.erase) (erase expr) (erase body)
  | .while _ expr body => .while {} (erase expr) (erase body)
  | .fn _ _ decl => .fn {} 0 (erase decl)
  | .llvm _ code => .llvm {} code
  | .fnDecl _ var tyargs args attributes body =>
      .fnDecl {} var.erase (tyargs.map Named.erase) (args.map VarTree.erase) attributes
        (eraseBody body)
  | .varDecl _ var expr => .varDecl {} var.erase (erase expr)
  | .tyDecl _ name tyargs fields => .tyDecl {} name (tyargs.map Named.erase) (eraseLines fields)
  | .import _ name => .import {} name

def Tree.eraseAll : List Tree → List Tree
  | [] => []
  | t :: ts => erase t :: eraseAll ts

def Tree.eraseFields : List (Named × Tree) → List (Named × Tree)
  | [] => []
  | (name, t) :: fields => (name.erase, erase t) :: eraseFields fields

def Tree.eraseBody : Option Tree → Option Tree
  | none => none
  | some t => some (erase t)

def Tree.eraseLines : List (List Named × TyTree × Option Tree) →
    List (List Named × TyTree × Option Tree)
  | [] => []
  | (names, type, body) :: lines =>
      (names.map Named.erase, type.erase, eraseBody body) :: eraseLines lines

end

/-- A field of a struct literal, wherever it is written. -/
def eraseField (field : Named × Tree) : Named × Tree := (field.1.erase, field.2.erase)

/-- A line of a struct, wherever it is written. -/
def eraseLine (line : List Named × TyTree × Option Tree) : List Named × TyTree × Option Tree :=
  (line.1.map Named.erase, line.2.1.erase, line.2.2.map Tree.erase)

/-- Erasing a list of trees erases each of them. -/
theorem Tree.eraseAll_eq (ts : List Tree) : Tree.eraseAll ts = ts.map Tree.erase := by
  induction ts with
  | nil => rfl
  | cons t ts ih => rw [Tree.eraseAll, ih, List.map_cons]

/-- Erasing fields erases each of them. -/
theorem Tree.eraseFields_eq (fields : List (Named × Tree)) :
    Tree.eraseFields fields = fields.map eraseField := by
  induction fields with
  | nil => rfl
  | cons field fields ih => rw [Tree.eraseFields, ih, List.map_cons]; rfl

/-- Erasing a body erases the tree, if there is one. -/
theorem Tree.eraseBody_eq (body : Option Tree) : Tree.eraseBody body = body.map Tree.erase := by
  cases body with
  | none => rfl
  | some t => rw [Tree.eraseBody]; rfl

/-- Erasing lines of fields erases each of them. -/
theorem Tree.eraseLines_eq (lines : List (List Named × TyTree × Option Tree)) :
    Tree.eraseLines lines = lines.map eraseLine := by
  induction lines with
  | nil => rfl
  | cons line lines ih =>
      obtain ⟨names, type, body⟩ := line
      rw [Tree.eraseLines, ih, Tree.eraseBody_eq]
      rfl

/-! ### Streams -/

/-- A location that spans two others starts where the first one does. -/
theorem Location.span_cases (lhs rhs : Location) :
    lhs.span rhs = .ok { lhs with length := rhs.offset + rhs.length - lhs.offset } ∨
      lhs.span rhs = .error (.fault .assertion) := by
  by_cases h : lhs.source = rhs.source ∧ lhs.offset + lhs.length ≤ rhs.offset
  · exact .inl (Location.span_of_ordered h)
  · exact .inr (Location.span_of_not_ordered h)

/-- The indent of the line of a token, and at the end that of the first line. -/
def TokenStream.indentOf (ts : TokenStream) (k : Nat) : Nat :=
  ((ts.tokens.lines[(ts.tokenAt k).location.line]?).map Line.indent).getD 0

/-- The indent of a line is looked up in the table. It is that of any token on the line. -/
theorem getLineIndent_run {ts : TokenStream} {loc : Location} {i k : Nat}
    (hloc : loc.line = (ts.tokenAt k).location.line) (h : ts.tokens.lines[loc.line]? ≠ none) :
    getLineIndent loc ts i = .ok (ts.indentOf k, i) := by
  unfold getLineIndent TokenStream.indentOf
  rw [← hloc]
  cases hline : ts.tokens.lines[loc.line]? with
  | none => exact absurd hline h
  | some line => rfl

/-- A line that is not in the table is a failed assertion. -/
theorem getLineIndent_run_none {ts : TokenStream} {loc : Location} {i : Nat}
    (h : ts.tokens.lines[loc.line]? = none) :
    getLineIndent loc ts i = .error (.fault .assertion) := by
  unfold getLineIndent
  rw [h]

/-- Streams of the same tokens at other locations. -/
structure Streams (W : Type) where
  stream : W → TokenStream
  size : Nat
  type : Nat → TokenType
  data : Nat → Str
  size_eq : ∀ w, (stream w).size = size
  type_eq : ∀ w k, ((stream w).tokenAt k).type = type k
  data_eq : ∀ w k, ((stream w).tokenAt k).data = data k
  indent_eq : ∀ w w' k, k < size → (stream w).indentOf k = (stream w').indentOf k
  sameLine : ∀ w w' k k', k < size → k' < size →
    ((stream w).tokenAt k).location.line = ((stream w).tokenAt k').location.line →
      ((stream w').tokenAt k).location.line = ((stream w').tokenAt k').location.line

/-- What the indent at the end is asked for: nothing, or whether it fits a block that
ends there, or a block that would start there. The header of a block and its first
token are given by their indices. -/
inductive EndCheck
  | none
  | after (header first : Nat)
  | empty (header : Nat)

/-- The end is not in the block, or indented like its first line; or it is deeper than
the header. -/
def EndCheck.Passes (ts : TokenStream) : EndCheck → Prop
  | .none => True
  | .after header first =>
      ts.indentOf ts.size ≤ ts.indentOf header ∨ ts.indentOf ts.size = ts.indentOf first
  | .empty header => ts.indentOf header < ts.indentOf ts.size

/-- A word after which a block can stand. -/
def TokenStream.Opens (ts : TokenStream) (k : Nat) : Prop :=
  ∃ word ∈ ["if", "for", "while", "fn", "inline", "struct"], ts.At k .ident word

/-- What the tokens that a check is about are. The last token is a newline; the header of
the block is a word that opens one, and the first token of the block starts a line that is
indented further than that of the header. -/
def EndCheck.Inside (ts : TokenStream) : EndCheck → Prop
  | .none => True
  | .after header first =>
      ts.Opens header ∧ header < first ∧ first < ts.size ∧
        (ts.tokenAt (first - 1)).type = .line ∧ (ts.tokenAt (ts.size - 1)).type = .line ∧
        ts.indentOf header < ts.indentOf first
  | .empty header =>
      ts.Opens header ∧ header < ts.size ∧ (ts.tokenAt (ts.size - 1)).type = .line

variable {W : Type}

/-- The runs from `i` on the streams of `S` end at one index with one result up to `er`,
or all with a diagnostic. `base` is an index that they do not end before, and from
the end on there is no check. -/
inductive Uniform (σ : Streams W) {α β : Type} (S : Set W) (base : Nat) (er : α → β)
    (m : W → ParseM α) (i : Nat) : Prop
  | faults {w : W} (hw : w ∈ S) {f : Fault} (h : m w (σ.stream w) i = .error (.fault f))
  | panics (h : ∀ w ∈ S, ∃ d, m w (σ.stream w) i = .error (.panic d))
  | ends (check : EndCheck) (e : β) (j : Nat) (hbase : base ≤ j)
      (hend : check ≠ .none → σ.size ≤ j) (hquiet : σ.size ≤ base → check = .none)
      (hinside : ∀ w, check.Inside (σ.stream w))
      (hok : ∀ w ∈ S, check.Passes (σ.stream w) →
        ∃ a, m w (σ.stream w) i = .ok (a, j) ∧ er a = e)
      (hpanic : ∀ w ∈ S, ¬ check.Passes (σ.stream w) →
        ∃ d, m w (σ.stream w) i = .error (.panic d))

namespace Uniform

variable {σ : Streams W} {α β γ δ : Type} {S : Set W} {b i j : Nat} {er : α → β} {er' : γ → δ}
  {m m' : W → ParseM α} {k : W → α → ParseM γ}

/-- Runs that are the same end in the same way. -/
theorem of_run (h : ∀ w ∈ S, m w (σ.stream w) i = m' w (σ.stream w) j)
    (h' : Uniform σ S b er m' j) : Uniform σ S b er m i := by
  cases h' with
  | faults hw hf => exact .faults hw ((h _ hw).trans hf)
  | panics hd =>
      refine .panics fun w hw => ?_
      rw [h w hw]
      exact hd w hw
  | ends check e j' hbase hend hquiet hinside hok hpanic =>
      refine .ends check e j' hbase hend hquiet hinside (fun w hw hpass => ?_)
        fun w hw hnot => ?_
      · rw [h w hw]
        exact hok w hw hpass
      · rw [h w hw]
        exact hpanic w hw hnot

/-- Runs without a check. -/
theorem pure {a : W → α} {e : β} (hb : b ≤ i) (h : ∀ w ∈ S, er (a w) = e) :
    Uniform σ S b er (fun w => Pure.pure (a w)) i :=
  .ends .none e i hb (fun h => absurd rfl h) (fun _ => rfl) (fun _ => trivial)
    (fun w hw _ => ⟨a w, rfl, h w hw⟩) fun _ _ hnot => absurd trivial hnot

/-- An index further on can be taken for the one that the runs do not end before. -/
theorem raise {b' : Nat} (hb : b ≤ b') (h : Uniform σ S b' er m i) : Uniform σ S b er m i := by
  cases h with
  | faults hw hf => exact .faults hw hf
  | panics hd => exact .panics hd
  | ends check e j hbase hend hquiet hinside hok hpanic =>
      exact .ends check e j (Nat.le_trans hb hbase) hend (fun hle => hquiet (Nat.le_trans hle hb))
        hinside hok hpanic

/-- Runs that fault are uniform: the statement is about runs without one. -/
theorem fault_of (h : ∃ w ∈ S, ∃ f, m w (σ.stream w) i = .error (.fault f)) :
    Uniform σ S b er m i := by
  obtain ⟨w, hw, f, hf⟩ := h
  exact .faults hw hf

/-- No result is promised of runs none of which ends with one. -/
theorem of_error (h : ∀ w ∈ S, ∃ e, m w (σ.stream w) i = .error e) : Uniform σ S b er m i := by
  by_cases hfault : ∃ w ∈ S, ∃ f, m w (σ.stream w) i = .error (.fault f)
  · exact fault_of hfault
  · refine .panics fun w hw => ?_
    obtain ⟨e, he⟩ := h w hw
    cases e with
    | panic d => exact ⟨d, he⟩
    | fault f => exact absurd ⟨w, hw, f, he⟩ hfault

/-- The runs on no stream are uniform. -/
theorem of_mem (h : ∀ w ∈ S, Uniform σ S b er m i) : Uniform σ S b er m i := by
  by_cases hS : ∃ w, w ∈ S
  · obtain ⟨w, hw⟩ := hS
    exact h w hw
  · exact .panics fun w hw => absurd ⟨w, hw⟩ hS

/-- One family of runs and then another. The second one starts where all runs of the
first that pass their check have ended, and if there was a check that is the end. -/
theorem bind (hm : Uniform σ S b er m i)
    (hk : ∀ (S' : Set W) (a : W → α) (e : β) (j : Nat), S' ⊆ S → b ≤ j →
      (∀ w ∈ S', er (a w) = e) → Uniform σ S' j er' (fun w => k w (a w)) j) :
    Uniform σ S b er' (fun w => m w >>= k w) i := by
  cases hm with
  | faults hw hf => exact .faults hw (bind_run_error hf)
  | panics h =>
      refine .panics fun w hw => ?_
      obtain ⟨d, hd⟩ := h w hw
      exact ⟨d, bind_run_error hd⟩
  | ends check e j hbase hend hquiet hinside hok hpanic =>
      have hpanics : ∀ w ∈ S, ¬ check.Passes (σ.stream w) →
          ∃ d, (m w >>= k w) (σ.stream w) i = .error (.panic d) := by
        intro w hw hnot
        obtain ⟨d, hd⟩ := hpanic w hw hnot
        exact ⟨d, bind_run_error hd⟩
      by_cases hpass : ∃ w ∈ S, check.Passes (σ.stream w)
      case neg =>
        exact .panics fun w hw => hpanics w hw fun hp => hpass ⟨w, hw, hp⟩
      case pos =>
        obtain ⟨w₀, hw₀, hp₀⟩ := hpass
        obtain ⟨a₀, -, -⟩ := hok w₀ hw₀ hp₀
        -- the result in each stream whose check passes
        have : Nonempty α := ⟨a₀⟩
        choose! a ha using hok
        have hrun : ∀ w ∈ S, check.Passes (σ.stream w) →
            (m w >>= k w) (σ.stream w) i = k w (a w) (σ.stream w) j := fun w hw hp =>
          bind_run (ha w hw hp).1
        have hrest := hk {w | w ∈ S ∧ check.Passes (σ.stream w)} a e j (fun w hw => hw.1) hbase
          fun w hw => (ha w hw.1 hw.2).2
        cases hrest with
        | faults hw hf => exact .faults hw.1 ((hrun _ hw.1 hw.2).trans hf)
        | panics hd =>
            refine .panics fun w hw => ?_
            by_cases hp : check.Passes (σ.stream w)
            · obtain ⟨d, hd⟩ := hd w ⟨hw, hp⟩
              exact ⟨d, (hrun w hw hp).trans hd⟩
            · exact hpanics w hw hp
        | ends check' e' j' hbase' hend' hquiet' hinside' hok' hpanic' =>
            by_cases hnone : check = .none
            · subst hnone
              refine .ends check' e' j' (Nat.le_trans hbase hbase') hend'
                (fun hle => hquiet' (Nat.le_trans hle hbase)) hinside' (fun w hw hp => ?_)
                fun w hw hnot => ?_
              · obtain ⟨a', ha', he'⟩ := hok' w ⟨hw, trivial⟩ hp
                exact ⟨a', (hrun w hw trivial).trans ha', he'⟩
              · obtain ⟨d, hd⟩ := hpanic' w ⟨hw, trivial⟩ hnot
                exact ⟨d, (hrun w hw trivial).trans hd⟩
            · -- the first check was at the end, and there is no second one
              obtain rfl := hquiet' (hend hnone)
              refine .ends check e' j' (Nat.le_trans hbase hbase')
                (fun h => Nat.le_trans (hend h) hbase') hquiet hinside (fun w hw hp => ?_) hpanics
              obtain ⟨a', ha', he'⟩ := hok' w ⟨hw, hp⟩ trivial
              exact ⟨a', (hrun w hw hp).trans ha', he'⟩

/-- A step of several steps. -/
theorem assoc {f : W → α → ParseM γ} {g : W → γ → ParseM δ} {er : δ → β}
    (h : Uniform σ S b er (fun w => m w >>= fun a => f w a >>= g w) i) :
    Uniform σ S b er (fun w => (m w >>= f w) >>= g w) i := by
  refine h.of_run fun w _ => ?_
  simp only [bind_apply]
  rcases m w (σ.stream w) i with e | ⟨a, j⟩ <;> rfl

/-- One family of runs and then another, where the result of the first one has no
locations. -/
theorem bindEq {m : W → ParseM α} (hm : Uniform σ S b id m i)
    (hk : ∀ (S' : Set W) (a : α) (j : Nat), S' ⊆ S → b ≤ j →
      Uniform σ S' j er' (fun w => k w a) j) :
    Uniform σ S b er' (fun w => m w >>= k w) i := by
  refine bind hm fun S' a e j hS hj ha => (hk S' e j hS hj).of_run fun w hw => ?_
  have hw : a w = e := ha w hw
  rw [hw]

/-- One family of runs and then another, where the first one gives pairs. -/
theorem bindPair {ε : Type} {er : α × ε → β} {m : W → ParseM (α × ε)}
    {k : W → α × ε → ParseM γ} (hm : Uniform σ S b er m i)
    (hk : ∀ (S' : Set W) (a : W → α) (a' : W → ε) (e : β) (j : Nat), S' ⊆ S → b ≤ j →
      (∀ w ∈ S', er (a w, a' w) = e) → Uniform σ S' j er' (fun w => k w (a w, a' w)) j) :
    Uniform σ S b er' (fun w => m w >>= k w) i :=
  bind hm fun S' a e j hS hj ha => hk S' (fun w => (a w).1) (fun w => (a w).2) e j hS hj ha

/-- Runs that are at the end, where they ask for the indent. -/
theorem check {e : β} (check : EndCheck) (hb : b ≤ i) (hi : σ.size ≤ i) (hsize : b < σ.size)
    (hinside : ∀ w, check.Inside (σ.stream w))
    (hok : ∀ w ∈ S, check.Passes (σ.stream w) →
      (∃ a, m w (σ.stream w) i = .ok (a, i) ∧ er a = e) ∨
        ∃ f, m w (σ.stream w) i = .error (.fault f))
    (herror : ∀ w ∈ S, ¬ check.Passes (σ.stream w) → ∃ e, m w (σ.stream w) i = .error e) :
    Uniform σ S b er m i := by
  by_cases hfault : ∃ w ∈ S, ∃ f, m w (σ.stream w) i = .error (.fault f)
  case pos => exact fault_of hfault
  case neg =>
    refine .ends check e i hb (fun _ => hi) (fun hle => ?_) hinside (fun w hw hpass => ?_)
      fun w hw hnot => ?_
    · exact absurd hsize (Nat.not_lt_of_le hle)
    · exact (hok w hw hpass).resolve_right fun h => hfault ⟨w, hw, h⟩
    · obtain ⟨e, he⟩ := herror w hw hnot
      cases e with
      | panic d => exact ⟨d, he⟩
      | fault f => exact absurd ⟨w, hw, f, he⟩ hfault

end Uniform

/-! ### Steps -/

/-- The token of a stream, if it is one of these. -/
def Streams.At (σ : Streams W) (i : Nat) (type : TokenType) (data : String) : Prop :=
  σ.type i = type ∧ σ.data i = data.toList

/-- The streams have the same tokens but for their locations. -/
theorem Streams.at_iff (σ : Streams W) (w : W) {i : Nat} {type : TokenType} {data : String} :
    (σ.stream w).At i type data ↔ σ.At i type data := by
  unfold TokenStream.At Streams.At
  rw [σ.type_eq, σ.data_eq]

/-- A token that is not the end is inside of all streams. -/
theorem Streams.lt_size (σ : Streams W) (w : W) {i : Nat} (h : σ.type i ≠ .end) :
    i < σ.size := by
  rw [← σ.type_eq w] at h
  have hlt := lt_size_of_type h
  rwa [σ.size_eq] at hlt

/-- The same for a word of the streams. -/
theorem Streams.At.lt_size {σ : Streams W} (w : W) {i : Nat} {type : TokenType} {data : String}
    (h : σ.At i type data) (hend : type ≠ .end) : i < σ.size := by
  refine σ.lt_size w ?_
  rw [h.1]
  exact hend

/-- A word after which a block can stand, on all streams. -/
def Streams.Opens (σ : Streams W) (k : Nat) : Prop :=
  ∃ word ∈ ["if", "for", "while", "fn", "inline", "struct"], σ.At k .ident word

/-- A word that opens a block does so in each of the streams. -/
theorem Streams.Opens.stream {σ : Streams W} {k : Nat} (h : σ.Opens k) (w : W) :
    (σ.stream w).Opens k := by
  obtain ⟨word, hword, hat⟩ := h
  exact ⟨word, hword, (σ.at_iff w).mpr hat⟩

/-- The end is where the sentinel is. -/
theorem Streams.tokenAt_of_size_le (σ : Streams W) (w : W) {i : Nat} (h : σ.size ≤ i) :
    (σ.stream w).tokenAt i = kEnd := by
  rw [← σ.size_eq w] at h
  exact TokenStream.tokenAt_of_size_le h

namespace Uniform

variable {σ : Streams W} {α β γ δ : Type} {S : Set W} {b i j : Nat} {er : α → β}
  {m m' : W → ParseM α} {type : TokenType} {data : String}

/-- A branch on the current token goes the same way in all streams. -/
theorem ifIs (h : σ.At i type data → Uniform σ S b er m i)
    (h' : ¬ σ.At i type data → Uniform σ S b er m' i) :
    Uniform σ S b er
      (fun w => TokenStream.is type data >>= fun c => if c = true then m w else m' w) i := by
  by_cases hat : σ.At i type data
  · exact (h hat).of_run fun w _ => ifIs_run_pos ((σ.at_iff w).mpr hat)
  · exact (h' hat).of_run fun w _ => ifIs_run_neg fun hw => hat ((σ.at_iff w).mp hw)

/-- A branch on its type likewise. -/
theorem ifType (h : σ.type i = type → Uniform σ S b er m i)
    (h' : σ.type i ≠ type → Uniform σ S b er m' i) :
    Uniform σ S b er
      (fun w => TokenStream.isType type >>= fun c => if c = true then m w else m' w) i := by
  by_cases htype : σ.type i = type
  · exact (h htype).of_run fun w _ => ifType_run_pos ((σ.type_eq w i).trans htype)
  · refine (h' htype).of_run fun w _ => ifType_run_neg ?_
    rw [σ.type_eq]
    exact htype

/-- A test that has one outcome on all streams. -/
theorem is {k : W → Bool → ParseM α}
    (h : ∀ c, (c = true ↔ σ.At i type data) → Uniform σ S b er (fun w => k w c) i) :
    Uniform σ S b er (fun w => TokenStream.is type data >>= k w) i := by
  refine (h (decide (σ.type i = type) && decide (σ.data i = data.toList)) ?_).of_run fun w _ => ?_
  · rw [Bool.and_eq_true, decide_eq_true_eq, decide_eq_true_eq]
    exact Iff.rfl
  · show k w ((((σ.stream w).tokenAt i).type = type) &&
      (((σ.stream w).tokenAt i).data = data.toList)) _ _ = _
    rw [σ.type_eq, σ.data_eq]

/-- A test of its type has one answer in all streams. -/
theorem isType {k : W → Bool → ParseM α}
    (h : ∀ c, (c = true ↔ σ.type i = type) → Uniform σ S b er (fun w => k w c) i) :
    Uniform σ S b er (fun w => TokenStream.isType type >>= k w) i := by
  refine (h (decide (σ.type i = type)) decide_eq_true_iff).of_run fun w _ => ?_
  show k w (decide (((σ.stream w).tokenAt i).type = type)) _ _ = _
  rw [σ.type_eq]

/-- A condition that is one on all streams. -/
theorem ite {c : W → Prop} [∀ w, Decidable (c w)] (c' : Prop) (hc : ∀ w ∈ S, c w ↔ c')
    (h : c' → Uniform σ S b er m i) (h' : ¬ c' → Uniform σ S b er m' i) :
    Uniform σ S b er (fun w => if c w then m w else m' w) i := by
  by_cases hc' : c'
  · refine (h hc').of_run fun w hw => ?_
    show (if c w then m w else m' w) _ _ = _
    rw [if_pos ((hc w hw).mpr hc')]
  · refine (h' hc').of_run fun w hw => ?_
    show (if c w then m w else m' w) _ _ = _
    rw [if_neg fun hcw => hc' ((hc w hw).mp hcw)]

/-- A result may be given as one value for each stream. -/
theorem pureBind {a : W → γ} {k : W → γ → ParseM α}
    (h : Uniform σ S b er (fun w => k w (a w)) i) :
    Uniform σ S b er (fun w => Pure.pure (a w) >>= k w) i := h

/-- The step back is the same in all streams. -/
theorem stepBack {k : W → Unit → ParseM α} (h : Uniform σ S b er (fun w => k w ()) (i - 1)) :
    Uniform σ S b er (fun w => TokenStream.stepBack >>= k w) i := by
  have hrun : ∀ w ∈ S, (TokenStream.stepBack >>= k w) (σ.stream w) i =
      k w () (σ.stream w) (i - 1) := fun _ _ => rfl
  exact of_run hrun h

/-- What comes after a choice comes after what is chosen. -/
theorem iteBind {c : W → Prop} [∀ w, Decidable (c w)] {g : W → α → ParseM γ} {er : γ → δ}
    (h : Uniform σ S b er (fun w => if c w then m w >>= g w else m' w >>= g w) i) :
    Uniform σ S b er (fun w => (if c w then m w else m' w) >>= g w) i := by
  refine h.of_run fun w _ => ?_
  by_cases hc : c w
  · rw [if_pos hc, if_pos hc]
  · rw [if_neg hc, if_neg hc]

/-- The current token may be used, one for each stream. -/
theorem get {k : W → Token → ParseM α}
    (h : Uniform σ S b er (fun w => k w ((σ.stream w).tokenAt i)) i) :
    Uniform σ S b er (fun w => TokenStream.get >>= k w) i := by
  have hrun : ∀ w ∈ S, (TokenStream.get >>= k w) (σ.stream w) i =
      k w ((σ.stream w).tokenAt i) (σ.stream w) i := fun _ _ => rfl
  exact of_run hrun h

/-- The next token likewise. -/
theorem getNext {k : W → Token → ParseM α}
    (h : Uniform σ S b er (fun w => k w ((σ.stream w).tokenAt (i + 1))) i) :
    Uniform σ S b er (fun w => TokenStream.getNext >>= k w) i := by
  have hrun : ∀ w ∈ S, (TokenStream.getNext >>= k w) (σ.stream w) i =
      k w ((σ.stream w).tokenAt (i + 1)) (σ.stream w) i := fun _ _ => rfl
  exact of_run hrun h

/-- The token before likewise. In front of the first one it is the end. -/
theorem getPrev {k : W → Token → ParseM α}
    (h : Uniform σ S b er
      (fun w => k w (if i = 0 then kEnd else (σ.stream w).tokenAt (i - 1))) i) :
    Uniform σ S b er (fun w => TokenStream.getPrev >>= k w) i := by
  have hrun : ∀ w ∈ S, (TokenStream.getPrev >>= k w) (σ.stream w) i =
      k w (if i = 0 then kEnd else (σ.stream w).tokenAt (i - 1)) (σ.stream w) i :=
    fun _ _ => rfl
  exact of_run hrun h

/-- The index is the same in all streams. -/
theorem getIndex {k : W → Nat → ParseM α} (h : Uniform σ S b er (fun w => k w i) i) :
    Uniform σ S b er (fun w => TokenStream.getIndex >>= k w) i := by
  have hrun : ∀ w ∈ S, (TokenStream.getIndex >>= k w) (σ.stream w) i =
      k w i (σ.stream w) i := fun _ _ => rfl
  exact of_run hrun h

/-- A diagnostic ends the runs of all streams. -/
theorem panic {loc : W → Location} {message : W → Str} :
    Uniform σ S b er (fun w => ParseM.panic (loc w) (message w)) i :=
  .of_error fun _ _ => panic_run_error

/-- A panic under a condition that is one on all streams. -/
theorem panicIf {c : W → Prop} [∀ w, Decidable (c w)] {loc : W → Location} {message : W → Str}
    {k : W → Unit → ParseM α} (c' : Prop) (hc : ∀ w ∈ S, c w ↔ c')
    (h : ¬ c' → Uniform σ S b er (fun w => k w ()) i) :
    Uniform σ S b er (fun w => ParseM.panicIf (c w) (loc w) (message w) >>= k w) i := by
  by_cases hc' : c'
  · refine .of_error fun w hw => ?_
    obtain ⟨e, he⟩ := @panic_run_error Unit (σ.stream w) i (loc w) (message w)
    unfold ParseM.panicIf
    rw [if_pos ((hc w hw).mpr hc')]
    exact ⟨e, bind_run_error he⟩
  · refine (h hc').of_run fun w hw => ?_
    unfold ParseM.panicIf
    rw [if_neg fun hcw => hc' ((hc w hw).mp hcw)]
    rfl

/-- The location that spans two others starts where the first one does. -/
theorem span {start stop : W → Location} {k : W → Location → ParseM α}
    (h : ∀ loc : W → Location, (∀ w, (loc w).line = (start w).line) →
      Uniform σ S b er (fun w => k w (loc w)) i) :
    Uniform σ S b er (fun w => ParseM.lift ((start w).span (stop w)) >>= k w) i := by
  have hlift : ∀ w, ParseM.lift ((start w).span (stop w)) (σ.stream w) i =
      ((start w).span (stop w)).map fun loc => (loc, i) := fun _ => rfl
  by_cases hfault : ∃ w ∈ S, ∃ f, (start w).span (stop w) = .error (.fault f)
  · obtain ⟨w, hw, f, hf⟩ := hfault
    refine .faults hw (f := f) (bind_run_error ?_)
    rw [hlift, hf]
    rfl
  · refine (h (fun w => { start w with
      length := (stop w).offset + (stop w).length - (start w).offset }) fun _ => rfl).of_run
        fun w hw => bind_run ?_
    rcases (start w).span_cases (stop w) with hspan | hspan
    · rw [hlift, hspan]
      rfl
    · exact absurd ⟨w, hw, .assertion, hspan⟩ hfault

/-- `move`. At the end it is a fault. -/
theorem move {k : W → Unit → ParseM α}
    (h : i < σ.size → Uniform σ S b er (fun w => k w ()) (i + 1)) :
    Uniform σ S b er (fun w => TokenStream.move >>= k w) i := by
  refine of_mem fun w₀ _ => ?_
  by_cases hend : σ.type i = .end
  · refine .of_error fun w _ => ⟨.fault .assertion, bind_run_error ?_⟩
    exact move_run_error ((σ.type_eq w i).trans hend)
  · refine (h (σ.lt_size w₀ hend)).of_run fun w _ => bind_run (move_run ?_)
    rw [σ.type_eq]
    exact hend

/-- A step that is the last one of a function. -/
theorem last {x : W → ParseM Unit}
    (h : Uniform σ S b id (fun w => x w >>= fun _ => Pure.pure ()) i) : Uniform σ S b id x i := by
  refine h.of_run fun w _ => ?_
  rw [bind_apply]
  rcases x w (σ.stream w) i with e | ⟨a, j⟩ <;> rfl

/-- `expectType` goes on in all streams or in none. -/
theorem expectType {k : W → Unit → ParseM α}
    (h : σ.type i = type → Uniform σ S b er (fun w => k w ()) i) :
    Uniform σ S b er (fun w => TokenStream.expectType type >>= k w) i := by
  by_cases htype : σ.type i = type
  · refine (h htype).of_run fun w _ => bind_run ?_
    exact ifType_run_pos ((σ.type_eq w i).trans htype)
  · refine .of_error fun w _ => ?_
    have hne : ((σ.stream w).tokenAt i).type ≠ type := by
      rw [σ.type_eq]
      exact htype
    obtain ⟨e, he⟩ := expectType_run_error hne
    exact ⟨e, bind_run_error he⟩

/-- `expect` likewise. -/
theorem expect {k : W → Unit → ParseM α}
    (h : σ.At i type data → Uniform σ S b er (fun w => k w ()) i) :
    Uniform σ S b er (fun w => TokenStream.expect type data >>= k w) i := by
  by_cases hat : σ.At i type data
  · refine (h hat).of_run fun w _ => bind_run ?_
    exact ifIs_run_pos ((σ.at_iff w).mpr hat)
  · refine .of_error fun w _ => ?_
    obtain ⟨e, he⟩ := expect_run_error fun hw => hat ((σ.at_iff w).mp hw)
    exact ⟨e, bind_run_error he⟩

/-- `eat`, where it matters which token is eaten. -/
theorem eatAt {k : W → Unit → ParseM α}
    (h : σ.At i type data → i < σ.size → Uniform σ S b er (fun w => k w ()) (i + 1)) :
    Uniform σ S b er (fun w => TokenStream.eat type data >>= k w) i :=
  .assoc (.expect fun hat => .move (h hat))

/-- `eat` likewise, one token further. -/
theorem eat {k : W → Unit → ParseM α}
    (h : i < σ.size → Uniform σ S b er (fun w => k w ()) (i + 1)) :
    Uniform σ S b er (fun w => TokenStream.eat type data >>= k w) i :=
  .eatAt fun _ => h

/-- `eatType`, where it matters which token is eaten. -/
theorem eatTypeAt {k : W → Token → ParseM α}
    (h : σ.type i = type → i < σ.size →
      Uniform σ S b er (fun w => k w ((σ.stream w).tokenAt i)) (i + 1)) :
    Uniform σ S b er (fun w => TokenStream.eatType type >>= k w) i :=
  .assoc (.expectType fun htype => .assoc (.get (.assoc (.move (h htype)))))

/-- `eatType` likewise. -/
theorem eatType {k : W → Token → ParseM α}
    (h : i < σ.size → Uniform σ S b er (fun w => k w ((σ.stream w).tokenAt i)) (i + 1)) :
    Uniform σ S b er (fun w => TokenStream.eatType type >>= k w) i :=
  .eatTypeAt fun _ => h

/-- The indent of a line on which there is a token. -/
theorem getLineIndent {k : Nat} {loc : W → Location} {c : W → Nat → ParseM α} (hk : k < σ.size)
    (hloc : ∀ w ∈ S, (loc w).line = ((σ.stream w).tokenAt k).location.line)
    (h : ∀ n, (∀ w, (σ.stream w).indentOf k = n) → Uniform σ S b er (fun w => c w n) i) :
    Uniform σ S b er (fun w => Aike.getLineIndent (loc w) >>= c w) i := by
  by_cases hlines : ∃ w ∈ S, (σ.stream w).tokens.lines[(loc w).line]? = none
  · obtain ⟨w, hw, hnone⟩ := hlines
    exact .faults hw (bind_run_error (getLineIndent_run_none hnone))
  · refine of_mem fun w₀ _ => ?_
    refine (h ((σ.stream w₀).indentOf k) fun w => σ.indent_eq w w₀ k hk).of_run
      fun w hw => bind_run ?_
    rw [σ.indent_eq w₀ w k hk]
    exact getLineIndent_run (hloc w hw) fun hnone => hlines ⟨w, hw, hnone⟩

/-- The indent at the end, which differs from stream to stream. -/
theorem getEndIndent {c : W → Nat → ParseM α} (hi : σ.size ≤ i)
    (h : ∀ m : W → Nat, (∀ w, m w = (σ.stream w).indentOf (σ.stream w).size) →
      Uniform σ S b er (fun w => c w (m w)) i) :
    Uniform σ S b er
      (fun w => Aike.getLineIndent ((σ.stream w).tokenAt i).location >>= c w) i := by
  have hend : ∀ w, (σ.stream w).tokenAt i = (σ.stream w).tokenAt (σ.stream w).size := by
    intro w
    rw [σ.tokenAt_of_size_le w hi, TokenStream.tokenAt_of_size_le (Nat.le_refl _)]
  by_cases hlines : ∃ w ∈ S,
      (σ.stream w).tokens.lines[((σ.stream w).tokenAt i).location.line]? = none
  · obtain ⟨w, hw, hnone⟩ := hlines
    exact .faults hw (bind_run_error (getLineIndent_run_none hnone))
  · refine (h (fun w => (σ.stream w).indentOf (σ.stream w).size) fun _ => rfl).of_run
      fun w hw => bind_run ?_
    exact getLineIndent_run (by rw [hend w]) fun hnone => hlines ⟨w, hw, hnone⟩

end Uniform

end Aike
