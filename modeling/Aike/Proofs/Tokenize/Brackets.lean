import Aike.Lib.Brackets
import Aike.Proofs.Tokenize

/-!
# `Aike.Proofs.Tokenize.Brackets`: what `matchBrackets` accepts

`matchBrackets_wellNested`: the brackets of the accepted tokens are the balanced
words over the three kinds of brackets. For other tokens the diagnostic is at the
first bracket that closes nothing or the wrong kind, and without such a bracket at
the innermost one that is left open.

`matchBracketsFrom` is the machine of `Brackets.matching`, which skips the other
tokens.
-/

set_option autoImplicit false

namespace Aike

open Brackets

/-- The bracket `c` closes brackets of the kind of `o`. -/
def Token.Closes (o c : Token) : Prop :=
  (o.data = "(".toList ∧ c.data = ")".toList) ∨ (o.data = "[".toList ∧ c.data = "]".toList) ∨
    (o.data = "\x7b".toList ∧ c.data = "\x7d".toList)

instance Token.decidableOpens (t : Token) : Decidable t.Opens := inferInstanceAs (Decidable (_ ∨ _))

instance Token.decidableCloses (o c : Token) :
    Decidable (o.Closes c) := inferInstanceAs (Decidable (_ ∨ _))

/-- The bracket tokens. -/
def brackets (tokens : List Token) : List Token := tokens.filter (·.type = .bracket)

/-- The text of the bracket that closes an open one. -/
def Token.closing (o : Token) : Str :=
  if o.data = "\x7b".toList then "\x7d".toList else if o.data = "(".toList then ")".toList
  else "]".toList

/-- The message about a bracket that closes nothing. -/
def unmatchedClosingMessage (c : Token) : Str := "Unmatched closing bracket ".toList ++ c.data

/-- The message about a bracket in the place of the one that closes `o`. -/
def mismatchedClosingMessage (o : Token) : Str :=
  "Mismatched closing bracket: expected ".toList ++ o.closing ++
    " to close bracket at (".toList ++ (toString (o.location.line + 1)).toList ++ ",".toList ++
    (toString (o.location.column + 1)).toList ++ ")".toList

/-- The message about a bracket that is left open. -/
def unmatchedOpeningMessage (o : Token) : Str :=
  "Unmatched opening bracket: expected ".toList ++ o.closing ++
    " to close but found end of file".toList

namespace Token

variable {o c : Token}

/-- `getClosingBracket` answers the text of the closing bracket for every opening one, and
fails no assertion. -/
theorem getClosingBracket_eq (h : o.Opens) : getClosingBracket o.data = .ok o.closing := by
  have hassert : assertThat (o.data = "\x7b".toList ∨ o.data = "(".toList ∨ o.data = "[".toList) =
      .ok () := assertThat_ok.mpr h
  unfold getClosingBracket
  rw [hassert]
  rfl

/-- Only opening brackets are closed. -/
theorem opens_of_closes (h : o.Closes c) : o.Opens := by
  rcases h with ⟨h, -⟩ | ⟨h, -⟩ | ⟨h, -⟩
  · exact .inr (.inl h)
  · exact .inr (.inr h)
  · exact .inl h

/-- A bracket that closes another one is not opening itself. -/
theorem not_opens_of_closes (h : o.Closes c) : ¬ c.Opens := by
  unfold Opens
  rcases h with ⟨-, h⟩ | ⟨-, h⟩ | ⟨-, h⟩ <;> rw [h] <;> decide

/-- The comparison that `matchBrackets` makes. -/
theorem closes_iff (h : o.Opens) : o.Closes c ↔ c.data = o.closing := by
  unfold Closes closing
  rcases h with h | h | h <;> rw [h] <;> simp

end Token

variable {output : Output}

/-- The end of the machine, as the loop of `matchBrackets` gives it. -/
def matchingResult (output : Output) : Outcome Token → Except Stop (List Token)
  | .left stack => .ok stack
  | .nothing c => output.panic c.location (unmatchedClosingMessage c)
  | .mismatch o c => output.panic c.location (mismatchedClosingMessage o)

section

variable {t o : Token} {stack tokens : List Token}

/-- An opening bracket is pushed onto the stack. -/
theorem matchBracketsFrom_of_opens (hbracket : t.type = .bracket) (ht : t.Opens) :
    matchBracketsFrom output stack (t :: tokens) =
      matchBracketsFrom output (t :: stack) tokens := by
  rw [matchBracketsFrom.eq_def]
  exact (if_pos hbracket).trans (if_pos ht)

/-- A closing bracket with nothing open is the error that it is unmatched. -/
theorem matchBracketsFrom_nil_of_not_opens (hbracket : t.type = .bracket) (ht : ¬ t.Opens) :
    matchBracketsFrom output [] (t :: tokens) =
      output.panic t.location (unmatchedClosingMessage t) := by
  rw [matchBracketsFrom.eq_def]
  exact (if_pos hbracket).trans (if_neg ht)

/-- A closing bracket is compared with the closing text of the innermost open one. It is
popped, or it is the error that it is mismatched. -/
theorem matchBracketsFrom_of_not_opens (hbracket : t.type = .bracket) (ht : ¬ t.Opens)
    (ho : o.Opens) :
    matchBracketsFrom output (o :: stack) (t :: tokens) =
      if t.data ≠ o.closing then output.panic t.location (mismatchedClosingMessage o)
      else matchBracketsFrom output stack tokens := by
  rw [matchBracketsFrom.eq_def]
  refine ((if_pos hbracket).trans (if_neg ht)).trans ?_
  dsimp only
  rw [Token.getClosingBracket_eq ho]
  rfl

/-- A token that is no bracket is passed over. -/
theorem matchBracketsFrom_of_other (hbracket : t.type ≠ .bracket) :
    matchBracketsFrom output stack (t :: tokens) = matchBracketsFrom output stack tokens := by
  rw [matchBracketsFrom.eq_def]
  exact if_neg hbracket

end

/-- The loop of `matchBrackets` is the machine on the bracket tokens. The induction is
over the tokens, for every stack of opening brackets. -/
theorem matchBracketsFrom_eq_matching {stack : List Token} (hstack : ∀ o ∈ stack, o.Opens)
    (tokens : List Token) :
    matchBracketsFrom output stack tokens =
      matchingResult output (matching Token.Opens Token.Closes stack (brackets tokens)) := by
  induction tokens generalizing stack with
  | nil => rfl
  | cons t tokens ih =>
      by_cases hbracket : t.type = .bracket
      · have hcons : brackets (t :: tokens) = t :: brackets tokens :=
          List.filter_cons_of_pos (decide_eq_true hbracket)
        rw [hcons]
        by_cases ht : t.Opens
        · rw [matching_of_opens ht, matchBracketsFrom_of_opens hbracket ht]
          refine ih fun o ho => ?_
          rcases List.mem_cons.mp ho with rfl | ho
          · exact ht
          · exact hstack o ho
        · cases stack with
          -- A closing bracket with nothing open.
          | nil =>
              rw [matching_nil_of_not_opens ht, matchBracketsFrom_nil_of_not_opens hbracket ht]
              rfl
          | cons o stack =>
              -- A closing bracket is compared with the innermost open one.
              have ho : o.Opens := hstack o List.mem_cons_self
              rw [matching_of_not_opens ht, matchBracketsFrom_of_not_opens hbracket ht ho]
              by_cases hclose : o.Closes t
              · rw [if_pos hclose, if_neg (not_not.mpr ((Token.closes_iff ho).mp hclose))]
                exact ih fun o' ho' => hstack o' (List.mem_cons_of_mem _ ho')
              · rw [if_neg hclose, if_pos (fun heq => hclose ((Token.closes_iff ho).mpr heq))]
                rfl
      · have hcons : brackets (t :: tokens) = brackets tokens :=
          List.filter_cons_of_neg (by simp [hbracket])
        rw [matchBracketsFrom_of_other hbracket, hcons]
        exact ih hstack

/-- The end of `matchBrackets`. -/
theorem matchBrackets_eq (output : Output) (tokens : List Token) :
    matchBrackets output tokens =
      match matching Token.Opens Token.Closes [] (brackets tokens) with
      | .left [] => .ok ()
      | .left (o :: _) => output.panic o.location (unmatchedOpeningMessage o)
      | .nothing c => output.panic c.location (unmatchedClosingMessage c)
      | .mismatch o c => output.panic c.location (mismatchedClosingMessage o) := by
  have hspec := matching_spec Token.Opens Token.Closes (brackets tokens)
  unfold matchBrackets
  rw [matchBracketsFrom_eq_matching (fun _ h => absurd h List.not_mem_nil)]
  cases hend : matching Token.Opens Token.Closes [] (brackets tokens) with
  | nothing c => exact Output.panic_bind _ _ _
  | mismatch o c => exact Output.panic_bind _ _ _
  | left stack =>
      rw [hend] at hspec
      cases stack with
      | nil => rfl
      | cons o stack =>
          have ho : o.Opens := LeavesOpen.opens hspec List.mem_cons_self
          show (getClosingBracket o.data >>= _) = _
          rw [Token.getClosingBracket_eq ho]
          rfl

/-- The tokens that `matchBrackets` accepts are those whose brackets are well nested.
In others it names the first bracket that closes nothing or the wrong kind. There
may be none: then it names the innermost of those that are left open. -/
theorem matchBrackets_wellNested (output : Output) (tokens : List Token) :
    (matchBrackets output tokens = .ok () ↔ Balanced Token.Closes (brackets tokens)) ∧
      (¬ Balanced Token.Closes (brackets tokens) →
        (∃ u c v, brackets tokens = u ++ c :: v ∧ ¬ c.Opens ∧
          ((Balanced Token.Closes u ∧
              matchBrackets output tokens = output.panic c.location (unmatchedClosingMessage c)) ∨
            ∃ o stack, LeavesOpen Token.Opens Token.Closes (o :: stack) u ∧ ¬ o.Closes c ∧
              matchBrackets output tokens =
                output.panic c.location (mismatchedClosingMessage o))) ∨
        ∃ o stack, LeavesOpen Token.Opens Token.Closes (o :: stack) (brackets tokens) ∧
          matchBrackets output tokens = output.panic o.location (unmatchedOpeningMessage o)) := by
  have hcloses : ∀ o c, Token.Closes o c → o.Opens ∧ ¬ c.Opens :=
    fun o c h => ⟨Token.opens_of_closes h, Token.not_opens_of_closes h⟩
  have hspec := matching_spec Token.Opens Token.Closes (brackets tokens)
  have haccept : matching Token.Opens Token.Closes [] (brackets tokens) = .left [] ↔
      Balanced Token.Closes (brackets tokens) := matching_eq_left_nil_iff hcloses
  have hrun := matchBrackets_eq output tokens
  cases hend : matching Token.Opens Token.Closes [] (brackets tokens) with
  -- All tokens are read, and what is left open is the result.
  | left stack =>
      rw [hend] at hspec haccept hrun
      cases stack with
      | nil =>
          have hbalanced := haccept.mp rfl
          exact ⟨iff_of_true hrun hbalanced, fun h => absurd hbalanced h⟩
      | cons o stack =>
          refine ⟨?_, fun _ => .inr ⟨o, stack, hspec, hrun⟩⟩
          rw [hrun]
          exact iff_of_false Output.panic_ne_ok fun h => nomatch haccept.mpr h
  -- It stops at the first bracket that closes nothing.
  | nothing c =>
      rw [hend] at hspec haccept hrun
      obtain ⟨u, v, hsplit, hc, hu⟩ := hspec
      refine ⟨?_, fun _ => .inl ⟨u, c, v, hsplit, hc, .inl ⟨hu, hrun⟩⟩⟩
      rw [hrun]
      exact iff_of_false Output.panic_ne_ok fun h => nomatch haccept.mpr h
  -- It stops at the first one that closes a bracket of another kind.
  | mismatch o c =>
      rw [hend] at hspec haccept hrun
      obtain ⟨u, v, stack, hsplit, hc, hclose, hu⟩ := hspec
      refine ⟨?_, fun _ => .inl ⟨u, c, v, hsplit, hc, .inr ⟨o, stack, hu, hclose, hrun⟩⟩⟩
      rw [hrun]
      exact iff_of_false Output.panic_ne_ok fun h => nomatch haccept.mpr h

end Aike
