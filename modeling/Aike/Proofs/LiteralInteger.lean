import Mathlib.Algebra.Ring.Nat
import Mathlib.Algebra.Ring.Int.Defs
import Aike.Lib.Decimal
import Aike.Model.Codegen.Expr
import Aike.Model.FrontEnd
import Aike.Proofs.Tokenize

/-!
# `Aike.Proofs.LiteralInteger`: the value of an integer literal

`parseNumber` checks that a literal is in the range of `long long`, and
`codegenLiteralInteger` makes a constant of 32 bits of it. Nothing in between looks at
the value. `literalInteger_kept_iff`: a literal keeps its value, or is reported, exactly
if it is below `2 ^ 31`, or out of the range that `parseNumber` checks.
-/

set_option autoImplicit false

namespace Aike

/-- The constant that a number is lowered to: it is parsed, its node is allocated, and
code is generated for it. -/
def lowerNumber (cx : CodegenContext) (fuel : Nat) (kind : CodegenKind) (s : Allocation)
    (cg : Codegen) (ts : TokenStream) (i : Nat) : Except Stop Value := do
  let (tree, _) ← parseNumber ts i
  let (root, _) := tree.allocate.run s
  match codegenExpr cx (fuel + 1) root kind cg with
  | .ok (value, _) => return value
  | .error fault => throw (.fault fault)

/-- The number is reported, or lowered to a constant of 32 bits of its value. -/
def KeepsValue (digits : Str) (result : Except Stop Value) : Prop :=
  Delivers result fun value =>
    ∃ n : Int, value = ⟨.int32, .int n⟩ ∧ -2 ^ 31 ≤ n ∧ n < 2 ^ 31 ∧ n = digitsValue digits

variable {ts : TokenStream} {i : Nat} {cx : CodegenContext} {fuel : Nat} {kind : CodegenKind}
  {s : Allocation} {cg : Codegen}

/-- The value of a literal is that of its digits, unless that is above `LLONG_MAX`. -/
theorem strtollLiteral_of_digits {digits : Str} (h : ∀ ch ∈ digits, isDigit ch = true) :
    strtollLiteral digits = some (if digitsValue digits ≤ 0x7fffffffffffffff then
      some (digitsValue digits : Int) else none) := by
  unfold strtollLiteral
  rw [if_pos (List.all_eq_true.mpr h)]

/-- In the range of `long long`, the constant is the value modulo `2 ^ 32`. -/
theorem lowerNumber_of_le (htype : (ts.tokenAt i).type = .number)
    (hdigits : ∀ ch ∈ (ts.tokenAt i).data, isDigit ch = true)
    (hle : digitsValue (ts.tokenAt i).data ≤ 0x7fffffffffffffff) :
    lowerNumber cx fuel kind s cg ts i =
      .ok ⟨.int32, .int ((digitsValue (ts.tokenAt i).data : Int).bmod (2 ^ 32))⟩ := by
  have hparse : parseNumber ts i = .ok (.literalInteger (ts.tokenAt i).location
      (digitsValue (ts.tokenAt i).data), i + 1) := by
    unfold parseNumber
    rw [bind_run (eatType_run htype (by decide)), strtollLiteral_of_digits hdigits, if_pos hle]
    rfl
  unfold lowerNumber
  rw [hparse]
  -- the node is allocated with the number that was parsed, and lowered as it is
  rfl

/-- A number token is lowered to the constant of 32 bits that its value is cut to. -/
theorem lowerNumber_of_data {data : Str} {n : Int} (htype : (ts.tokenAt i).type = .number)
    (hdata : (ts.tokenAt i).data = data) (hdigits : ∀ ch ∈ data, isDigit ch = true)
    (hle : digitsValue data ≤ 0x7fffffffffffffff)
    (hn : (digitsValue data : Int).bmod (2 ^ 32) = n) :
    lowerNumber cx fuel kind s cg ts i = .ok ⟨.int32, .int n⟩ := by
  subst hdata
  rw [lowerNumber_of_le htype hdigits hle, hn]

/-- Beyond it, there is a diagnostic. -/
theorem lowerNumber_of_lt (hfits : ts.Fits (ts.tokenAt i).location)
    (htype : (ts.tokenAt i).type = .number)
    (hdigits : ∀ ch ∈ (ts.tokenAt i).data, isDigit ch = true)
    (hlt : 0x7fffffffffffffff < digitsValue (ts.tokenAt i).data) :
    Delivers (lowerNumber cx fuel kind s cg ts i) fun _ => False := by
  have hparse : Delivers (parseNumber ts i) fun _ => False := by
    unfold parseNumber
    rw [bind_run (eatType_run htype (by decide)), strtollLiteral_of_digits hdigits,
      if_neg (by omega)]
    exact .panic hfits
  -- `parseNumber` ends the run, so nothing is lowered
  exact .bind (hparse.mono fun _ h => h.elim)

/-- The low 32 bits, as a signed number, are the number itself exactly below `2 ^ 31`. -/
theorem bmod_eq_self_iff {n : Nat} : (n : Int).bmod (2 ^ 32) = n ↔ n < 2 ^ 31 := by
  constructor
  · intro h
    have hlt : (n : Int).bmod (2 ^ 32) < _ := Int.bmod_lt (by decide)
    omega
  · intro h
    exact Int.bmod_eq_of_le (by omega) (by omega)

/-- The tokens of a text that is not empty are sound; the empty text has none. -/
theorem tokenAt_fits {output : Output} {source data : Str} {tokens : Tokens}
    (hknows : output.Knows source data) (htokens : tokenize output source data = .ok tokens)
    (htype : (TokenStream.tokenAt ⟨output, tokens⟩ i).type ≠ .end) :
    TokenStream.Fits ⟨output, tokens⟩ (TokenStream.tokenAt ⟨output, tokens⟩ i).location := by
  -- the tokenizer is sound on texts that are not empty
  by_cases hdata : data = []
  · subst hdata
    cases htokens
    exact absurd rfl htype
  · exact ((tokenize_sound hknows).of_ok htokens hdata).fits i

/-- An integer literal is reported, or lowered to a 32-bit constant of its value, exactly
if its value is below `2 ^ 31`, or out of the range of `long long`. -/
theorem literalInteger_kept_iff {output : Output} {source data : Str} {tokens : Tokens}
    (hknows : output.Knows source data) (htokens : tokenize output source data = .ok tokens)
    (htype : (TokenStream.tokenAt ⟨output, tokens⟩ i).type = .number)
    (hdigits : ∀ ch ∈ (TokenStream.tokenAt ⟨output, tokens⟩ i).data, isDigit ch = true) :
    KeepsValue (TokenStream.tokenAt ⟨output, tokens⟩ i).data
        (lowerNumber cx fuel kind s cg ⟨output, tokens⟩ i) ↔
      digitsValue (TokenStream.tokenAt ⟨output, tokens⟩ i).data < 2 ^ 31 ∨
        2 ^ 63 ≤ digitsValue (TokenStream.tokenAt ⟨output, tokens⟩ i).data := by
  have hfits := tokenAt_fits hknows htokens (by rw [htype]; decide)
  generalize (⟨output, tokens⟩ : TokenStream) = ts at *
  unfold KeepsValue
  -- `parseNumber` checks the literal against the largest `long long`
  by_cases hle : digitsValue (ts.tokenAt i).data ≤ 0x7fffffffffffffff
  case neg =>
    exact iff_of_true ((lowerNumber_of_lt hfits htype hdigits (by omega)).mono
      fun _ h => h.elim) (.inr (by omega))
  rw [lowerNumber_of_le htype hdigits hle]
  generalize digitsValue (ts.tokenAt i).data = value at hle
  constructor
  · intro hkept
    -- the constant is the literal modulo `2 ^ 32`, and it has to be the literal
    obtain ⟨n, hvalue, _, _, hn⟩ := hkept
    injection hvalue with _ hoperand
    injection hoperand with hbmod
    exact .inl (bmod_eq_self_iff.mp (hbmod.trans hn))
  · intro hrange
    have hlt : value < 2 ^ 31 := by omega
    have hbmod := bmod_eq_self_iff.mpr hlt
    exact ⟨value, by rw [hbmod], by omega, by omega, rfl⟩

/-- The printer of a run that reads one text. -/
def Output.ofText (data : Str) : Output := ⟨fun _ => some data⟩

/-- A program that has nothing in it. -/
def emptyContext : CodegenContext := ⟨{}, {}, 0, fun functions _ => .ok functions⟩

/-- `7` keeps its value. -/
theorem literalInteger_kept_seven :
    ∃ tokens, tokenize (Output.ofText ['7']) [] ['7'] = .ok tokens ∧
      KeepsValue ['7'] (lowerNumber emptyContext 0 .value {} {}
        ⟨Output.ofText ['7'], tokens⟩ 0) := by
  have hknows : (Output.ofText ['7']).Knows [] ['7'] := rfl
  refine ⟨_, rfl, (literalInteger_kept_iff (i := 0) hknows rfl rfl ?_).mpr (.inl (by decide))⟩
  exact List.all_eq_true.mp rfl

/-- `4294967297` is lowered to the constant 1. -/
theorem literalInteger_wraps :
    ∃ tokens, tokenize (Output.ofText "4294967297".toList) [] "4294967297".toList = .ok tokens ∧
      (TokenStream.tokenAt ⟨Output.ofText "4294967297".toList, tokens⟩ 0).data =
        "4294967297".toList ∧
      lowerNumber emptyContext 0 .value {} {} ⟨Output.ofText "4294967297".toList, tokens⟩ 0 =
        .ok ⟨.int32, .int 1⟩ ∧
      ¬ KeepsValue "4294967297".toList (.ok ⟨.int32, .int 1⟩) := by
  have hbmod : (digitsValue "4294967297".toList : Int).bmod (2 ^ 32) = 1 := by decide
  have hdigits : ∀ ch ∈ "4294967297".toList, isDigit ch = true := List.all_eq_true.mp rfl
  refine ⟨_, rfl, rfl, lowerNumber_of_data rfl rfl hdigits (by decide) hbmod, ?_⟩
  rintro ⟨n, hn, _, _, heq⟩
  cases hn
  exact absurd heq (by decide)

end Aike
