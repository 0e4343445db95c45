import Aike.Proofs.Parse.Total
import Aike.Proofs.Tokenize

/-!
# `Aike.Proofs.Parse.Terminates`: the parser goes forward

`parse_terminates`: on every array with a token the parser ends, no function and no loop
of it is come back to at an index where it has been, and `move` is not called at the end.
It ends at an assertion only if the array is not `WellLocated`, and the arrays that
`tokenize` makes of texts are (`tokenize_wellLocated`).

What is said of paths is said of `Comes`: one call of the parser comes to another one if
its body sees a mark there. `Calls.enters_lt` makes of the spec of all calls that each
of them is further on in the stream or of a lower rank than the one that makes it.
-/

set_option autoImplicit false

namespace Aike

open TokenStream Calls Relation

variable {ts : TokenStream}

/-- A call of the parser, or a turn of a loop, at an index. -/
abbrev ParseVisit : Type 1 := Visit Call Nat

/-- The run of one visit comes to another one, directly. -/
def Comes (ts : TokenStream) : ParseVisit → ParseVisit → Prop :=
  Enters Call.body Call.run (.fault .internalError) ts

/-- A visit that a run of `parse` comes to. -/
def Reached (ts : TokenStream) (v : ParseVisit) : Prop :=
  ReflTransGen (Comes ts) ⟨Tree, rootCall ts, 0⟩ v

section Spec

/-- No property of the trees is needed here. -/
theorem treeClosed_true : TreeClosed fun _ => True := by
  constructor <;> intros <;> trivial

/-- The body of every call meets the specification in which nothing is said about trees. -/
theorem body_meets_true : BodyMeets (parseSpec ts fun _ => True) Call.body ts :=
  body_meets treeClosed_true fun _ _ _ => trivial

/-- The mark is no error of the parser. -/
theorem internalError_not_allowed : ¬ (parseSpec ts fun _ => True).allows (.fault .internalError) :=
  fun h => by cases h.1

/-- Every visit of a run is at an index of the stream and fulfils what its call needs. -/
theorem Reached.pre {v : ParseVisit} (h : Reached ts v) :
    v.state ≤ ts.size ∧ v.call.Pre ts (fun _ => True) v.state :=
  reaches_pre body_meets_true Call.body_run internalError_not_allowed
    ⟨Nat.zero_le _, rootCall_pre⟩ h

/-- Along a path of calls, the index goes up, or it stays and the rank goes down. -/
theorem Reached.path_lt {v v' : ParseVisit} (h : Reached ts v) (hpath : TransGen (Comes ts) v v') :
    callLt ts v' v :=
  Calls.path_lt body_meets_true Call.body_run internalError_not_allowed h.pre hpath

end Spec

/-- The empty text has no tokens, all others have the locations that the parser counts on. -/
theorem tokenize_wellLocated {output : Output} {source data : Str} {tokens : Tokens}
    (hknows : output.Knows source data) (htokenize : tokenize output source data = .ok tokens)
    (htokens : tokens.tokens ≠ []) : tokens.WellLocated output := by
  have hdelivers := tokenize_delivers hknows
  rw [htokenize] at hdelivers
  refine (hdelivers ?_).1
  rintro rfl
  cases htokenize
  exact htokens rfl

/-- The parser ends with a tree, with a diagnostic, or at an assertion that the locations
of the tokens are to blame for. -/
theorem parse_ends (output : Output) (tokens : Tokens) :
    (∃ t, parse output tokens = .ok t) ∨ (∃ d, parse output tokens = .error (.panic d)) ∨
      parse output tokens = .error (.fault .assertion) ∧
        ¬ TokenStream.Located ⟨output, tokens⟩ := by
  have hroot := @parseRoot_halts ⟨output, tokens⟩ _ treeClosed_true fun _ _ _ => trivial
  unfold Halts at hroot
  unfold parse
  split at hroot
  case h_1 t j heq =>
    rw [heq]
    exact .inl ⟨t, rfl⟩
  case h_2 d heq =>
    rw [heq]
    exact .inr (.inl ⟨d, rfl⟩)
  case h_3 f heq =>
    obtain ⟨rfl, hlocated⟩ := hroot
    rw [heq]
    exact .inr (.inr ⟨rfl, hlocated⟩)

/-- On every array with a token and every table of lines, `parse` ends: with a tree, with a
diagnostic, or at an assertion, and this only if the locations of the tokens are not those
of a text. On what `tokenize` delivers it ends with a tree or a diagnostic. Between two
visits of a function or of a loop on a path the index goes up. `move` is called at tokens
only, not at the end. -/
theorem parse_terminates (output : Output) (tokens : Tokens) (htokens : tokens.tokens ≠ []) :
    ((∃ t, parse output tokens = .ok t) ∨ (∃ d, parse output tokens = .error (.panic d)) ∨
      parse output tokens = .error (.fault .assertion) ∧ ¬ tokens.WellLocated output) ∧
    (∀ source data, output.Knows source data → tokenize output source data = .ok tokens →
      (∃ t, parse output tokens = .ok t) ∨ ∃ d, parse output tokens = .error (.panic d)) ∧
    (∀ v v', Reached ⟨output, tokens⟩ v → TransGen (Comes ⟨output, tokens⟩) v v' →
      v.call.fn = v'.call.fn → v.state < v'.state) ∧
    ∀ v, Reached ⟨output, tokens⟩ v → v.call.fn = .move →
      (TokenStream.tokenAt ⟨output, tokens⟩ v.state).type ≠ .end := by
  -- `kEnd` is in line 0, which the table has since it has the line of a token
  have hlocated (h : tokens.WellLocated output) : TokenStream.Located ⟨output, tokens⟩ := by
    obtain ⟨t, ht⟩ := List.exists_mem_of_ne_nil _ htokens
    exact h.located (Nat.zero_lt_of_lt (h.inLines t ht))
  refine ⟨?ends, ?delivered, ?advances, ?moves⟩
  case ends =>
    rcases parse_ends output tokens with h | h | ⟨h, hnot⟩
    · exact .inl h
    · exact .inr (.inl h)
    · exact .inr (.inr ⟨h, fun hwell => hnot (hlocated hwell)⟩)
  case delivered =>
    intro source data hknows htokenize
    rcases parse_ends output tokens with h | h | ⟨-, hnot⟩
    · exact .inl h
    · exact .inr h
    · exact absurd (hlocated (tokenize_wellLocated hknows htokenize htokens)) hnot
  case advances =>
    intro v v' hv hpath hfn
    obtain ⟨-, hlt | ⟨-, hrank⟩⟩ := hv.path_lt hpath
    · exact hlt
    · -- one function has one rank
      rw [hfn] at hrank
      exact absurd hrank (Nat.lt_irrefl _)
  case moves =>
    rintro ⟨α, F, i⟩ hv hfn
    have hpre := hv.pre.2
    cases F <;> cases hfn
    exact hpre

/-- The tokens of a call. -/
def callTokens : Tokens where
  lines := [⟨0, 0⟩]
  tokens :=
    [⟨.ident, "f".toList, 0, 0, ⟨[], 0, 0, 0, 1⟩⟩, ⟨.bracket, "(".toList, 1, 1, ⟨[], 0, 1, 1, 1⟩⟩,
      ⟨.ident, "x".toList, 2, 2, ⟨[], 0, 2, 2, 1⟩⟩, ⟨.bracket, ")".toList, 3, 3, ⟨[], 0, 3, 3, 1⟩⟩,
      ⟨.line, [], 4, 0, ⟨[], 0, 4, 4, 0⟩⟩]

/-- The printer of the text of the call. -/
def callOutput : Output := ⟨fun _ => some "f(x)".toList⟩

/-- The tokens are those of the text `f(x)`. -/
example : tokenize callOutput [] "f(x)".toList = .ok callTokens := by
  decide +kernel

/-- The case of `f(x)`. The run comes to visits within visits, and none of them twice. -/
theorem parse_terminates_call :
    ((∃ t, parse callOutput callTokens = .ok t) ∨
      (∃ d, parse callOutput callTokens = .error (.panic d)) ∨
      parse callOutput callTokens = .error (.fault .assertion) ∧
        ¬ callTokens.WellLocated callOutput) ∧
    (∀ source data, callOutput.Knows source data →
      tokenize callOutput source data = .ok callTokens →
      (∃ t, parse callOutput callTokens = .ok t) ∨
        ∃ d, parse callOutput callTokens = .error (.panic d)) ∧
    (∀ v v', Reached ⟨callOutput, callTokens⟩ v →
      TransGen (Comes ⟨callOutput, callTokens⟩) v v' →
      v.call.fn = v'.call.fn → v.state < v'.state) ∧
    ∀ v, Reached ⟨callOutput, callTokens⟩ v → v.call.fn = .move →
      (TokenStream.tokenAt ⟨callOutput, callTokens⟩ v.state).type ≠ .end :=
  parse_terminates callOutput callTokens (List.cons_ne_nil _ _)

/-- A stream with one token, which no line is in the table for. -/
def noLines : Tokens := { tokens := [{ type := .ident, data := ['x'] }], lines := [] }

/-- Without its line, a token ends the parser at an assertion. -/
theorem parse_noLines : ¬ ∀ output tokens, tokens.tokens ≠ [] →
    (∃ t, parse output tokens = .ok t) ∨ ∃ d, parse output tokens = .error (.panic d) := by
  intro h
  rcases h { sources := fun _ => none } noLines (by decide) with ⟨t, ht⟩ | ⟨d, hd⟩
  · cases ht
  · cases hd

end Aike
