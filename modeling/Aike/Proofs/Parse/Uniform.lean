import Aike.Proofs.Parse.Relocate

/-!
# `Aike.Proofs.Parse.Uniform`: the parser does not read locations

Each function of the parser, run on `Streams`, is `Uniform`. The lemmas follow the
functions. A function that returns something with locations has it up to `erase`, and an
argument with locations is given as one value for each stream.

`Relocates` says it of a function that takes no such argument, from every index. The
blocks are where the indent at the end is asked for: `leavesIndent_end`, after the last
line of a block, and `parseIndent_uniform`, for a block without lines.
-/

set_option autoImplicit false

namespace Aike

open TokenStream

variable {W : Type} {σ : Streams W}

/-- The runs of a parser are uniform from every index. -/
def Relocates (σ : Streams W) {α β : Type} (er : α → β) (m : ParseM α) : Prop :=
  ∀ {S : Set W} {b i : Nat}, b ≤ i → Uniform σ S b er (fun _ => m) i

variable {α β : Type} {er : α → β} {S : Set W} {b i n : Nat}

/-- Without fuel the runs end with a fault. -/
theorem outOfFuel_uniform : Uniform σ S b er (fun _ => ParseM.outOfFuel) i :=
  .of_error fun _ _ => ⟨_, rfl⟩

/-! ### Lists -/

/-- The comma in a list, or nothing at its end. Both are read off the type and the text of
the token. -/
theorem eatComma_relocates (type : TokenType) (close : String) :
    Relocates σ id (eatComma type close) := by
  intro S b i hb
  refine .ifIs (fun _ => .pure hb fun _ _ => rfl) fun _ => ?_
  exact .last (.eat fun _ => .pure (by omega) fun _ _ => rfl)

section Lists

variable {item : ParseM α} (hitem : Relocates σ er item)

include hitem

/-- A list is read alike if its items are. By induction on the fuel, as in the functions
below that loop. -/
theorem parseList_relocates (type : TokenType) (close : String) (n : Nat) :
    Relocates σ (List.map er) (parseList type close item n) := by
  intro S b i hb
  induction n generalizing S b i with
  | zero => exact outOfFuel_uniform
  | succ n ih =>
      refine .ifIs (fun _ => .pure hb fun _ _ => rfl) fun _ => ?_
      refine .bind (hitem hb) fun S₁ a e j _ _ ha => ?_
      refine .bindEq (eatComma_relocates type close (Nat.le_refl j)) fun S₂ _ k h₂ _ => ?_
      refine .bind (ih (Nat.le_refl k)) fun S₃ as es l h₃ _ has => ?_
      refine .pure (e := e :: es) (Nat.le_refl l) fun w hw => ?_
      rw [List.map_cons, ha w (h₂ (h₃ hw)), has w hw]

/-- The arguments of a function likewise. -/
theorem parseArguments_relocates (n : Nat) :
    Relocates σ (Prod.map (List.map er) id) (parseArguments item n) := by
  intro S b i hb
  induction n generalizing S b i with
  | zero => exact outOfFuel_uniform
  | succ n ih =>
      refine .ifIs (fun _ => .pure hb fun _ _ => rfl) fun _ => ?_
      refine .ifIs (fun _ => .move fun _ => .pure (by omega) fun _ _ => rfl) fun _ => ?_
      refine .bind (hitem hb) fun S₁ a e j _ _ ha => ?_
      refine .bindEq (eatComma_relocates .bracket ")" (Nat.le_refl j)) fun S₂ _ k h₂ _ => ?_
      refine .bindPair (ih (Nat.le_refl k)) fun S₃ as varargs es l h₃ _ has => ?_
      refine .pure (e := (e :: es.1, es.2)) (Nat.le_refl l) fun w hw => ?_
      rw [← has w hw, ← ha w (h₂ (h₃ hw))]
      rfl

end Lists

/-! ### Indents -/

/-- `eatNewline`. It moves past the newline, or stays after it. -/
theorem Uniform.eatNewline {k : W → Unit → ParseM α}
    (h : ∀ j, j = i ∨ (j = i + 1 ∧ σ.type i = .line) → Uniform σ S b er (fun w => k w ()) j) :
    Uniform σ S b er (fun w => Aike.eatNewline >>= k w) i := by
  have hprev : ∀ w ∈ S, (if i = 0 then kEnd else (σ.stream w).tokenAt (i - 1)).type ≠ .line ↔
      (if i = 0 then kEnd.type else σ.type (i - 1)) ≠ .line := by
    intro w _
    rw [apply_ite Token.type, σ.type_eq]
  refine .assoc (.isType fun c hc => .iteBind (.ite _ (fun _ _ => hc) (fun _ => ?_) fun _ => ?_))
  · exact .move fun _ => h (i + 1) (.inr ⟨rfl, ‹_›⟩)
  · refine .assoc (.getPrev (.iteBind (.ite _ hprev (fun _ => ?_) fun _ => ?_)))
    · exact .expectType fun _ => h i (.inl rfl)
    · exact h i (.inl rfl)

section Indents

variable {k first startIndent firstIndent : Nat}

/-- The location of a token, on each stream. -/
def Streams.locationAt (σ : Streams W) (k : Nat) (w : W) : Location :=
  ((σ.stream w).tokenAt k).location

/-- A line that is there leaves the block or does not. -/
theorem Uniform.leavesIndent {g : W → Bool → ParseM α} (hi : i < σ.size)
    (h : ∀ c, Uniform σ S b er (fun w => g w c) i) :
    Uniform σ S b er
      (fun w => Aike.leavesIndent (some (σ.locationAt k w)) startIndent firstIndent >>= g w) i := by
  refine .assoc (.get (.assoc (.getLineIndent hi (fun _ _ => rfl) fun n _ => ?_)))
  refine .iteBind (.ite (n ≤ startIndent) (fun _ _ => Iff.rfl) (fun _ => h true) fun _ => ?_)
  exact .assoc (.panicIf (n ≠ firstIndent) (fun _ _ => Iff.rfl) fun _ => h false)

/-- The end leaves the block, or is indented like its first line, or it is a diagnostic.
What comes after it does not depend on which. -/
theorem Uniform.leavesIndent_end {g : W → Bool → ParseM α} {e : β} (hb : b ≤ i)
    (hi : σ.size ≤ i) (hsize : b < σ.size)
    (hinside : ∀ w, (EndCheck.after k first).Inside (σ.stream w))
    (hstart : ∀ w, (σ.stream w).indentOf k = startIndent)
    (hindent : ∀ w, (σ.stream w).indentOf first = firstIndent)
    (hg : ∀ w ∈ S, ∀ c, (∃ a, g w c (σ.stream w) i = .ok (a, i) ∧ er a = e) ∨
      ∃ f, g w c (σ.stream w) i = .error (.fault f)) :
    Uniform σ S b er
      (fun w => Aike.leavesIndent (some (σ.locationAt k w)) startIndent firstIndent >>= g w) i := by
  refine .assoc (.get (.assoc (.getEndIndent hi fun m hm => ?_)))
  -- At the end the indent is that of the first line, which the streams differ in.
  refine .check (e := e) (.after k first) hb hi hsize hinside (fun w hw hpass => ?_)
    fun w hw hnot => ?_
  · rw [EndCheck.Passes, ← hm w, hstart w, hindent w] at hpass
    by_cases hle : m w ≤ startIndent
    · rw [if_pos hle]
      exact hg w hw true
    · rw [if_neg hle, ParseM.panicIf, if_neg (not_not_intro (hpass.resolve_left hle))]
      exact hg w hw false
  · rw [EndCheck.Passes, ← hm w, hstart w, hindent w, not_or] at hnot
    rw [if_neg hnot.1, ParseM.panicIf, if_pos hnot.2]
    obtain ⟨e, he⟩ := panic_run_error
    exact ⟨e, bind_run_error (bind_run_error he)⟩

end Indents

section Items

variable {item : ParseM α} (hitem : Relocates σ er item) {k first startIndent firstIndent : Nat}

include hitem

/-- The lines of a block are read alike. Behind each line the indent of the next one is
compared with that of the first one, and at the end of the stream that is the check. -/
theorem parseIndentFrom_uniform (hopens : σ.Opens k) (hk : k < first) (hfirst : first < σ.size)
    (hline : σ.type (first - 1) = .line) (hdeeper : startIndent < firstIndent)
    (hstart : ∀ w, (σ.stream w).indentOf k = startIndent)
    (hindent : ∀ w, (σ.stream w).indentOf first = firstIndent) (hb : b ≤ i) (hsize : b < σ.size)
    (n : Nat) :
    Uniform σ S b (List.map er)
      (fun w => parseIndentFrom (some (σ.locationAt k w)) startIndent firstIndent item n) i := by
  induction n generalizing S b i with
  | zero => exact outOfFuel_uniform
  | succ n ih =>
      refine .ifType (fun _ => .pure hb fun _ _ => rfl) fun _ => ?_
      refine .bind (hitem hb) fun S₁ a e j _ _ ha => ?_
      refine .ifType (fun _ => .pure (e := [e]) (Nat.le_refl j) fun w hw => ?_) fun hend => ?_
      · rw [List.map_cons, ha w hw, List.map_nil]
      refine .of_mem fun w _ => ?_
      have hj : j < σ.size := σ.lt_size w hend
      refine .eatNewline fun l hnewline => ?_
      have hjl : j ≤ l := by omega
      by_cases hl : l < σ.size
      case pos =>
        refine .leavesIndent hl fun c => ?_
        refine .ite (c = true) (fun _ _ => Iff.rfl) (fun _ => ?_) fun _ => ?_
        · refine .pure (e := [e]) hjl fun w hw => ?_
          rw [List.map_cons, ha w hw, List.map_nil]
        · refine .bind (ih hjl hj) fun S₂ as es m h₂ _ has => ?_
          refine .pure (e := e :: es) (Nat.le_refl m) fun w hw => ?_
          rw [List.map_cons, ha w (h₂ hw), has w hw]
      case neg =>
        have hl : σ.size ≤ l := Nat.le_of_not_lt hl
        -- the newline that was eaten is the last token
        have hlast := (hnewline.resolve_left (by omega)).2
        have hsize' : σ.size - 1 = j := by omega
        have hinside : ∀ w, (EndCheck.after k first).Inside (σ.stream w) := by
          intro w
          refine ⟨hopens.stream w, hk, (σ.size_eq w).symm ▸ hfirst, ?_, ?_, ?_⟩
          · rw [σ.type_eq, hline]
          · rw [σ.size_eq, σ.type_eq, hsize', hlast]
          · rw [hstart, hindent]
            exact hdeeper
        refine .leavesIndent_end (e := [e]) hjl hl hj hinside hstart hindent fun w hw c => ?_
        have hone : List.map er [a w] = [e] := by rw [List.map_cons, ha w hw, List.map_nil]
        have hend : ((σ.stream w).tokenAt l).type = .end := by
          rw [σ.tokenAt_of_size_le w hl]
          rfl
        cases c with
        | true => exact .inl ⟨[a w], rfl, hone⟩
        | false =>
            cases n with
            | zero => exact .inr ⟨.outOfFuel, rfl⟩
            | succ n =>
                -- the loop ends here as well
                refine .inl ⟨[a w], bind_run ?_, hone⟩
                exact ifType_run_pos hend

/-- The lines of a block, after the newline at `i`. -/
theorem parseIndent_uniform (hopens : σ.Opens k) (hki : k < i) (hline : σ.type i = .line)
    (hi : i < σ.size) (hb : b ≤ i) (n : Nat) :
    Uniform σ S b (List.map er) (fun w => parseIndent (some (σ.locationAt k w)) item n)
      (i + 1) := by
  have hk : k < σ.size := Nat.lt_trans hki hi
  have hsize : b < σ.size := Nat.lt_of_le_of_lt hb hi
  have hb : b ≤ i + 1 := Nat.le_succ_of_le hb
  refine .getLineIndent hk (fun _ _ => rfl) fun startIndent hstart => .get ?_
  by_cases hfirst : i + 1 < σ.size
  case pos =>
    refine .getLineIndent hfirst (fun _ _ => rfl) fun firstIndent hindent => ?_
    refine .panicIf (firstIndent ≤ startIndent) (fun _ _ => and_iff_right rfl) fun hdeeper => ?_
    exact parseIndentFrom_uniform hitem hopens (Nat.lt_succ_of_lt hki) hfirst hline
      (Nat.lt_of_not_le hdeeper) hstart hindent hb hsize n
  -- A header without a block: the check is that the indent at the end is deeper.
  case neg =>
    have hend : σ.size ≤ i + 1 := Nat.le_of_not_lt hfirst
    have hlast : σ.size - 1 = i := by omega
    refine .getEndIndent hend fun m hm => ?_
    have hinside : ∀ w, (EndCheck.empty k).Inside (σ.stream w) := by
      intro w
      refine ⟨hopens.stream w, (σ.size_eq w).symm ▸ hk, ?_⟩
      rw [σ.size_eq, σ.type_eq, hlast, hline]
    refine .check (e := []) (.empty k) hb hend hsize hinside (fun w hw hpass => ?_)
      fun w hw hnot => ?_
    · rw [EndCheck.Passes, ← hm w, hstart w] at hpass
      rw [ParseM.panicIf, if_neg fun h => Nat.not_le_of_lt hpass h.2]
      have hend : ((σ.stream w).tokenAt (i + 1)).type = .end := by
        rw [σ.tokenAt_of_size_le w hend]
        rfl
      cases n with
      | zero => exact .inr ⟨.outOfFuel, rfl⟩
      | succ n => exact .inl ⟨[], ifType_run_pos hend, rfl⟩
    · rw [EndCheck.Passes, ← hm w, hstart w, Nat.not_lt] at hnot
      rw [ParseM.panicIf, if_pos ⟨rfl, hnot⟩]
      obtain ⟨e, he⟩ := panic_run_error
      exact ⟨e, bind_run_error he⟩

/-- No line leaves the block that a module is. -/
theorem parseIndentFrom_root {indents : W → Nat} (hb : b ≤ i) (n : Nat) :
    Uniform σ S b (List.map er)
      (fun w => parseIndentFrom none startIndent (indents w) item n) i := by
  induction n generalizing S b i with
  | zero => exact outOfFuel_uniform
  | succ n ih =>
      refine .ifType (fun _ => .pure hb fun _ _ => rfl) fun _ => ?_
      refine .bind (hitem hb) fun S₁ a e j _ _ ha => ?_
      refine .ifType (fun _ => .pure (e := [e]) (Nat.le_refl j) fun w hw => ?_) fun _ => ?_
      · rw [List.map_cons, ha w hw, List.map_nil]
      refine .eatNewline fun l hnewline => ?_
      have hjl : j ≤ l := by omega
      refine .iteBind (.ite False (fun _ _ => iff_of_false Bool.false_ne_true id) False.elim ?_)
      refine fun _ => .pureBind (.ite False (fun _ _ => iff_of_false Bool.false_ne_true id)
        False.elim fun _ => ?_)
      refine .bind (ih hjl) fun S₂ as es m h₂ _ has => ?_
      refine .pure (e := e :: es) (Nat.le_refl m) fun w hw => ?_
      rw [List.map_cons, ha w (h₂ hw), has w hw]

/-- The lines of the module itself are at no indent, so nothing is asked at the end. -/
theorem parseIndent_root (n : Nat) : Relocates σ (List.map er) (parseIndent none item n) := by
  intro S b i hb
  have hrest : ∀ indents : W → Nat, Uniform σ S b (List.map er)
      (fun w => parseIndentFrom none 0 (indents w) item n) i := fun indents =>
    parseIndentFrom_root hitem hb n
  refine .pureBind (.get ?_)
  by_cases hi : i < σ.size
  · exact .getLineIndent hi (fun _ _ => rfl) fun firstIndent _ => hrest fun _ => firstIndent
  · exact .getEndIndent (Nat.le_of_not_lt hi) fun m _ => hrest m

end Items

/-! ### Types -/

/-- Type arguments are read alike if the types are. -/
theorem parseTypeArguments_relocates {type : ParseM TyTree} (htype : Relocates σ TyTree.erase type)
    (n : Nat) : Relocates σ (List.map TyTree.erase) (parseTypeArguments type n) := by
  intro S b i hb
  refine .ifIs (fun _ => .eat fun _ => ?_) fun _ => .pure hb fun _ _ => rfl
  refine .bind (parseList_relocates htype .atom ">" n (by omega)) fun S₁ args es j _ _ hargs => ?_
  exact .eat fun _ => .pure (by omega) hargs

/-- The type of what is in parentheses. -/
def TyTree.ofFields : List TyTree → TyTree
  | [] => .void
  | [field] => field
  | fields => .tuple fields

/-- The fields of a tuple type, up to locations. -/
theorem TyTree.erase_ofFields (fields : List TyTree) :
    (TyTree.ofFields fields).erase = TyTree.ofFields (fields.map TyTree.erase) := by
  rcases fields with _ | ⟨t, _ | ⟨t', ts⟩⟩
  · rfl
  · rfl
  · show TyTree.erase (.tuple _) = .tuple _
    rw [TyTree.erase, TyTree.eraseAll_eq]
    rfl

/-- A type is read alike. By induction on the fuel, with the lists at the types inside. -/
theorem parseType_relocates (n : Nat) : Relocates σ TyTree.erase (parseType n) := by
  induction n with
  | zero => exact fun _ => outOfFuel_uniform
  | succ n ih =>
      intro S b i hb
      -- the builtin types
      iterate 6
        refine .ifIs (fun _ => .move fun _ => .pure (by omega) fun _ _ => rfl) fun _ => ?_
      refine .ifIs (fun _ => .eat fun _ => ?_) fun _ => ?_
      · refine .bind (parseList_relocates ih .bracket ")" n (by omega))
          fun S₁ fields es j _ _ hfields => .eat fun _ => ?_
        refine .of_run (fun w _ => ?_) (.pure (a := fun w => TyTree.ofFields (fields w))
          (e := TyTree.ofFields es) (Nat.le_succ j) fun w hw => ?_)
        · rcases fields w with _ | ⟨t, _ | ⟨t', ts⟩⟩ <;> rfl
        · rw [TyTree.erase_ofFields, hfields w hw]
      refine .ifIs (fun _ => .eat fun _ => ?_) fun _ => ?_
      · refine .bind (ih (by omega)) fun S₁ element e j _ _ he => .eat fun _ => ?_
        refine .pure (e := .array e) (Nat.le_succ j) fun w hw => ?_
        rw [TyTree.erase, he w hw]
      refine .ifIs (fun _ => .move fun _ => ?_) fun _ => ?_
      · refine .bind (ih (by omega)) fun S₁ element e j _ _ he => ?_
        refine .pure (e := .pointer e) (Nat.le_refl j) fun w hw => ?_
        rw [TyTree.erase, he w hw]
      refine .ifIs (fun _ => .move fun _ => .eat fun _ => ?_) fun _ => ?_
      · refine .bindPair (parseArguments_relocates ih n (by omega))
          fun S₁ args varargs e j _ _ hargs => .eat fun _ => .eat fun _ => ?_
        refine .bind (ih (by omega)) fun S₂ ret e' k h₂ _ hret => ?_
        refine .pure (e := .function e.1 e' e.2) (Nat.le_refl k) fun w hw => ?_
        rw [TyTree.erase, hret w hw, TyTree.eraseAll_eq, ← hargs w (h₂ hw)]
        rfl
      refine .ifType (fun _ => .eatType fun _ => ?_) fun _ => .get .panic
      refine .bind (parseTypeArguments_relocates ih n (by omega)) fun S₁ tyargs es j _ _ hargs => ?_
      refine .pure (e := .inst ⟨σ.data i, {}⟩ es) (Nat.le_refl j) fun w hw => ?_
      rw [TyTree.erase, TyTree.eraseAll_eq, hargs w hw, Named.erase, σ.data_eq]

/-- The type parameters of a declaration are read alike. -/
theorem parseTypeSignature_relocates (n : Nat) :
    Relocates σ (List.map Named.erase) (parseTypeSignature n) := by
  intro S b i hb
  have hname : Relocates σ Named.erase (do
      let name ← eatType .ident
      return ⟨name.data, name.location⟩) := by
    intro S b i hb
    refine .eatType fun _ => .pure (e := ⟨σ.data i, {}⟩) (by omega) fun w _ => ?_
    rw [Named.erase, σ.data_eq]
  refine .ifIs (fun _ => .eat fun _ => ?_) fun _ => .pure hb fun _ _ => rfl
  refine .bind (parseList_relocates hname .atom ">" n (by omega)) fun S₁ args es j _ _ hargs => ?_
  exact .eat fun _ => .pure (by omega) hargs

/-- The type behind a colon is read alike. -/
theorem parseTypeAscription_relocates (n : Nat) :
    Relocates σ TyTree.erase (parseTypeAscription n) := by
  intro S b i hb
  refine .ifIs (fun _ => .move fun _ => ?_) fun _ => .pure hb fun _ _ => rfl
  exact parseType_relocates n (by omega)

/-! ### Blocks and functions -/

/-- The variables of a list, wherever they are written. -/
theorem VarTree.map_type_erase (vars : List VarTree) :
    TyTree.eraseAll (vars.map VarTree.type) = (vars.map VarTree.erase).map VarTree.type := by
  rw [TyTree.eraseAll_eq, List.map_map, List.map_map]
  rfl

/-- A token makes a variable, up to where it is written. -/
theorem VarTree.erase_eq {w : W} {kind : VariableKind} {type : TyTree} {e : TyTree}
    (h : type.erase = e) :
    VarTree.erase
      ⟨kind, ((σ.stream w).tokenAt i).data, type, ((σ.stream w).tokenAt i).location⟩ =
      ⟨kind, σ.data i, e, {}⟩ := by
  rw [VarTree.erase, σ.data_eq, h]

/-- The signature of a function is read alike. -/
theorem parseFnSignature_relocates (n : Nat) :
    Relocates σ (Prod.map TyTree.erase (List.map VarTree.erase)) (parseFnSignature n) := by
  intro S b i hb
  have harg : Relocates σ VarTree.erase (do
      let argname ← eatType .ident
      let type ← parseTypeAscription n
      return ({ kind := .argument, name := argname.data, type, location := argname.location } :
        VarTree)) := by
    intro S b i hb
    refine .eatType fun _ => ?_
    refine .bind (parseTypeAscription_relocates n (by omega)) fun S₁ type e j _ _ htype => ?_
    exact .pure (Nat.le_refl j) fun w hw => VarTree.erase_eq (htype w hw)
  refine .eat fun _ => ?_
  refine .bindPair (parseArguments_relocates harg n (by omega))
    fun S₁ args varargs e j _ _ hargs => .eat fun _ => ?_
  refine .bind (parseTypeAscription_relocates n (by omega)) fun S₂ ret e' k h₂ _ hret => ?_
  refine .pure (e := (.function (e.1.map VarTree.type) e' e.2, e.1)) (Nat.le_refl k) fun w hw => ?_
  have hvars : (args w).map VarTree.erase = e.1 := congrArg Prod.fst (hargs w (h₂ hw))
  have hvarargs : varargs w = e.2 := congrArg Prod.snd (hargs w (h₂ hw))
  rw [Prod.map_apply, TyTree.erase, VarTree.map_type_erase, hvars, hvarargs, hret w hw]

section Expr

variable {E : ParseM Tree} (hE : Relocates σ Tree.erase E) {k : Nat}

include hE

/-- A block behind a newline is read alike, with the check for the line that opens it. -/
theorem parseBlock_uniform (hopens : σ.Opens k) (hki : k < i) (hline : σ.type i = .line)
    (hi : i < σ.size) (hb : b ≤ i) (n : Nat) :
    Uniform σ S b Tree.erase (fun w => parseBlock E (some (σ.locationAt k w)) n) (i + 1) := by
  refine .bind (parseIndent_uniform hE hopens hki hline hi hb n) fun S₁ body es j _ _ hbody => ?_
  refine .pure (e := .block {} es) (Nat.le_refl j) fun w hw => ?_
  rw [Tree.erase, Tree.eraseAll_eq, hbody w hw]

/-- The body of a construct is read alike: a block behind a newline, or an expression. -/
theorem parseBlockExpr_uniform (hopens : σ.Opens k) (hki : k < i) (hb : b ≤ i) (n : Nat) :
    Uniform σ S b Tree.erase (fun w => parseBlockExpr E (some (σ.locationAt k w)) n) i := by
  refine .ifType (fun hline => .move fun hi => ?_) fun _ => ?_
  · exact parseBlock_uniform hE hopens hki hline hi hb n
  · refine .bind (hE hb) fun S₁ result e j _ _ he => ?_
    refine .assoc (.isType fun c hc => .iteBind (.ite _ (fun _ _ => hc) (fun _ => ?_) fun _ => ?_))
    · exact .move fun _ => .pure (Nat.le_succ j) he
    · exact .pure (Nat.le_refl j) he

/-- An anonymous function is read alike. The token `fn` opens its block. -/
theorem parseFn_relocates (n : Nat) : Relocates σ Tree.erase (parseFn E n) := by
  intro S b i hb
  refine .get (.eatAt fun hat _ => .raise (Nat.le_succ_of_le hb) ?_)
  refine .bindPair (parseFnSignature_relocates n (Nat.le_refl (i + 1)))
    fun S₁ type args e j _ hj hsig => ?_
  have hopens : σ.Opens i := ⟨"fn", by decide, hat⟩
  refine .bind (parseBlockExpr_uniform hE hopens (by omega) (Nat.le_refl j) n)
    fun S₂ body e' l h₂ _ hbody => .getIndex ?_
  refine .pure (e := .fn {} 0 (.fnDecl {} ⟨.function, [], e.1, {}⟩ [] e.2 {} (some e')))
    (Nat.le_refl l) fun w hw => ?_
  have htype : (type w).erase = e.1 := congrArg Prod.fst (hsig w (h₂ hw))
  have hargs : (args w).map VarTree.erase = e.2 := congrArg Prod.snd (hsig w (h₂ hw))
  rw [Tree.erase, Tree.erase, Tree.eraseBody, VarTree.erase, htype, hargs, hbody w hw]
  rfl

/-- The body of a declaration is read alike. Inline assembly has no lines to indent. -/
theorem parseFnBody_uniform (hopens : σ.Opens k) (hki : k < i) (hb : b ≤ i) (n : Nat) :
    Uniform σ S b Tree.erase (fun w => parseFnBody E (some (σ.locationAt k w)) n) i := by
  refine .eatTypeAt fun hline hi => ?_
  refine .ifIs (fun _ => .move fun _ => .eatType fun _ => ?_) fun _ => ?_
  · refine .pure (e := .llvm {} (σ.data (i + 1 + 1))) (by omega) fun w _ => ?_
    rw [Tree.erase, σ.data_eq]
  · exact parseBlock_uniform hE hopens hki hline hi hb n

omit hE in
/-- `parseAttribute`. It moves past the word, or stays. -/
theorem Uniform.parseAttribute {word : String} {g : W → Bool → ParseM α}
    (h : ∀ c j, (c = true ∧ σ.At i .ident word ∧ j = i + 1) ∨ (c = false ∧ j = i) →
      Uniform σ S b er (fun w => g w c) j) :
    Uniform σ S b er (fun w => Aike.parseAttribute word >>= g w) i := by
  refine .assoc (.is fun c hc => .iteBind (.ite (c = true) (fun _ _ => Iff.rfl) (fun htrue => ?_)
    fun _ => ?_))
  · exact .assoc (.move fun _ => .pureBind (h true (i + 1) (.inl ⟨rfl, hc.mp htrue, rfl⟩)))
  · exact .pureBind (h false i (.inr ⟨rfl, rfl⟩))

/-- A declaration without a body opens no block, so it need not be at a word that does. -/
theorem parseFnDeclBody_uniform (bodyImplicit : Bool) (hopens : bodyImplicit = false → σ.Opens k)
    (hki : k < i) (hb : b ≤ i) (n : Nat) :
    Uniform σ S b (Option.map Tree.erase)
      (fun w => parseFnDeclBody E bodyImplicit (some (σ.locationAt k w)) n) i := by
  refine .ite (bodyImplicit = true) (fun _ _ => Iff.rfl) (fun _ => .pure hb fun _ _ => rfl)
    fun himplicit => ?_
  have hopens := hopens (Bool.eq_false_iff.mpr himplicit)
  refine .bind (parseFnBody_uniform hE hopens hki hb n) fun S₁ body e j _ _ hbody => ?_
  exact .pure (e := some e) (Nat.le_refl j) fun w hw => congrArg some (hbody w hw)

/-- The declaration of a function is read alike: its first word opens the block,
whichever attribute it is. -/
theorem parseFnDecl_uniform (hb : b ≤ i) (n : Nat) :
    Uniform σ S b Tree.erase (fun _ => parseFnDecl E n) i := by
  refine .get (.parseAttribute fun inline_ j hinline => ?_)
  refine .parseAttribute fun extern_ j' hextern => .parseAttribute fun builtin l hbuiltin => ?_
  refine .eatAt fun hat _ => .eatType fun _ => .raise (show _ ≤ l + 1 + 1 by omega) ?_
  -- A function with a body starts with `inline` or with `fn`.
  have hopens : (extern_ || builtin) = false → σ.Opens i := by
    intro hbody
    obtain ⟨rfl, rfl⟩ := Bool.or_eq_false_iff.mp hbody
    obtain ⟨-, rfl⟩ := hextern.resolve_left (by simp)
    obtain ⟨-, rfl⟩ := hbuiltin.resolve_left (by simp)
    rcases hinline with ⟨-, hinline, -⟩ | ⟨-, rfl⟩
    · exact ⟨"inline", by decide, hinline⟩
    · exact ⟨"fn", by decide, hat⟩
  refine .bind (parseTypeSignature_relocates n (Nat.le_refl (l + 1 + 1)))
    fun S₄ tysig ts l' _ hl' htysig => ?_
  refine .bindPair (parseFnSignature_relocates n (Nat.le_refl l'))
    fun S₅ type args e l₅ h₅ hl₅ hsig => ?_
  refine .bind
    (parseFnDeclBody_uniform hE (extern_ || builtin) hopens (by omega) (Nat.le_refl l₅) n)
    fun S₆ body e' l₆ h₆ _ hbody => ?_
  refine .pure (e := .fnDecl {} ⟨.function, σ.data (l + 1), e.1, {}⟩ ts e.2
    { extern_, builtin, inline_ } e') (Nat.le_refl l₆) fun w hw => ?_
  have htype : (type w).erase = e.1 := congrArg Prod.fst (hsig w (h₆ hw))
  have hargs : (args w).map VarTree.erase = e.2 := congrArg Prod.snd (hsig w (h₆ hw))
  rw [Tree.erase, VarTree.erase_eq htype, htysig w (h₅ (h₆ hw)), hargs, Tree.eraseBody_eq,
    hbody w hw]

/-! ### Declarations -/

/-- A variable is read alike. -/
theorem parseVarDecl_relocates (n : Nat) : Relocates σ Tree.erase (parseVarDecl E n) := by
  intro S b i hb
  refine .eat fun _ => .eatType fun _ => ?_
  refine .bind (parseTypeAscription_relocates n (by omega))
    fun S₁ type e j _ _ htype => .eat fun _ => ?_
  refine .bind (hE (by omega)) fun S₂ expr e' l h₂ _ hexpr => ?_
  refine .pure (e := .varDecl {} ⟨.variable, σ.data (i + 1), e, {}⟩ e') (Nat.le_refl l)
    fun w hw => ?_
  rw [Tree.erase, VarTree.erase_eq (htype w (h₂ hw)), hexpr w hw]

omit hE in
/-- The names of fields are read alike. -/
theorem parseFieldNames_relocates (n : Nat) :
    Relocates σ (List.map Named.erase) (parseFieldNames n) := by
  intro S b i hb
  induction n generalizing S b i with
  | zero => exact outOfFuel_uniform
  | succ n ih =>
      refine .eatType fun _ => .ifIs (fun _ => .move fun _ => ?_) fun _ => ?_
      · refine .bind (ih (by omega)) fun S₁ names es j _ _ hnames => ?_
        refine .pure (e := ⟨σ.data i, {}⟩ :: es) (Nat.le_refl j) fun w hw => ?_
        rw [List.map_cons, Named.erase, σ.data_eq, hnames w hw]
      · refine .pure (e := [⟨σ.data i, {}⟩]) (by omega) fun w _ => ?_
        rw [List.map_cons, Named.erase, σ.data_eq, List.map_nil]

/-- A line of fields is read alike. -/
theorem parseFieldLine_relocates (n : Nat) : Relocates σ eraseLine (parseFieldLine E n) := by
  intro S b i hb
  refine .bind (parseFieldNames_relocates n hb)
    fun S₁ fnames es j _ _ hnames => .eat fun _ => ?_
  refine .bind (parseType_relocates n (by omega)) fun S₂ type e l h₂ _ htype => ?_
  refine .ifIs (fun _ => .move fun _ => ?_) fun _ => ?_
  · refine .bind (hE (by omega)) fun S₃ expr e' l' h₃ _ hexpr => ?_
    refine .pure (e := (es, e, some e')) (Nat.le_refl l') fun w hw => ?_
    rw [eraseLine, hnames w (h₂ (h₃ hw)), htype w (h₃ hw), Option.map_some, hexpr w hw]
  · refine .pure (e := (es, e, none)) (Nat.le_refl l) fun w hw => ?_
    rw [eraseLine, hnames w (h₂ hw), htype w hw, Option.map_none]

/-- A struct is read alike. Its lines are a block that `struct` opens. -/
theorem parseStructDecl_relocates (n : Nat) : Relocates σ Tree.erase (parseStructDecl E n) := by
  intro S b i hb
  refine .get (.eatAt fun hat _ => .eatType fun _ => .raise (show _ ≤ i + 1 + 1 by omega) ?_)
  refine .bind (parseTypeSignature_relocates n (Nat.le_refl (i + 1 + 1)))
    fun S₁ tysig ts j _ hij htysig => .eatTypeAt fun hline hj => ?_
  have hopens : σ.Opens i := ⟨"struct", by decide, hat⟩
  refine .bind (parseIndent_uniform (parseFieldLine_relocates hE n) hopens (by omega) hline
    hj (Nat.le_refl j) n)
    fun S₂ fields es l h₂ _ hfields => ?_
  refine .pure (e := .tyDecl {} (σ.data (i + 1)) ts es) (Nat.le_refl l) fun w hw => ?_
  rw [Tree.erase, σ.data_eq, htysig w (h₂ hw), Tree.eraseLines_eq, hfields w hw]

omit hE in
/-- The path of an import goes on on the line on which it starts. -/
theorem parseImportPath_uniform {path : W → Str} {t : Str} {loc : W → Location}
    (hb : b ≤ i) (hk : k < σ.size) (hpath : ∀ w ∈ S, path w = t)
    (hloc : ∀ w ∈ S, (loc w).line = (σ.locationAt k w).line) (n : Nat) :
    Uniform σ S b Prod.fst (fun w => parseImportPath (path w) (loc w) n) i := by
  induction n generalizing b i path t loc with
  | zero => exact outOfFuel_uniform
  | succ n ih =>
      refine .is fun c hc => .get (.ite (σ.At i .atom "." ∧
        ∃ w ∈ S, (σ.locationAt i w).line = (σ.locationAt k w).line) (fun w hw => ?_)
        (fun _ => .move fun _ => .eatType fun _ => ?_) fun _ => ?_)
      · rw [hloc w hw, hc]
        refine and_congr_right fun hat => ⟨fun h => ⟨w, hw, h⟩, fun ⟨w', _, h⟩ => ?_⟩
        exact σ.sameLine w' w i k (hat.lt_size w nofun) hk h
      · refine .span fun loc' hloc' => ih (t := t ++ ".".toList ++ σ.data (i + 1)) (by omega)
          (fun w hw => ?_) fun w hw => ?_
        · show path w ++ ".".toList ++ ((σ.stream w).tokenAt (i + 1)).data = _
          rw [hpath w hw, σ.data_eq]
        · rw [hloc' w, hloc w hw]
      · exact .pure (e := t) hb hpath

omit hE in
/-- An import is read alike. Its location is a span, which is erased. -/
theorem parseImport_relocates (n : Nat) : Relocates σ Tree.erase (parseImport n) := by
  intro S b i hb
  refine .eat fun _ => .eatType fun hk => ?_
  refine .bindPair (parseImportPath_uniform (by omega) hk (fun w _ => σ.data_eq w (i + 1))
    (fun _ _ => rfl) n) fun S₁ path loc e j _ _ hpath => ?_
  refine .pure (e := .import {} e) (Nat.le_refl j) fun w hw => ?_
  rw [Tree.erase, ← hpath w hw]

/-! ### Calls, members and statements -/

/-- A call is read alike if the trees before it are, wherever it starts. -/
theorem parseCall_uniform {expr : W → Tree} {e : Tree} {start : W → Location}
    {self : W → Option Tree} {o : Option Tree} (hb : b ≤ i)
    (hexpr : ∀ w ∈ S, (expr w).erase = e) (hself : ∀ w ∈ S, (self w).map Tree.erase = o) (n : Nat) :
    Uniform σ S b Tree.erase (fun w => parseCall E (expr w) (start w) (self w) n) i := by
  refine .eat fun _ => ?_
  refine .bind (parseList_relocates hE .bracket ")" n (by omega))
    fun S₁ args es j h₁ _ hargs => .get (.eat fun _ => .span fun loc _ => ?_)
  refine .pure (e := .call {} e (o.toList ++ es)) (Nat.le_succ j) fun w hw => ?_
  rw [Tree.erase, Tree.eraseAll_eq, hexpr w (h₁ hw), List.map_append, hargs w hw, ← hself w (h₁ hw),
    Option.toList_map]

/-- An index is read alike if the tree before it is. -/
theorem parseIndex_uniform {expr : W → Tree} {e : Tree} (hb : b ≤ i)
    (hexpr : ∀ w ∈ S, (expr w).erase = e) :
    Uniform σ S b Tree.erase (fun w => parseIndex E (expr w)) i := by
  refine .get (.eat fun _ => ?_)
  refine .bind (hE (by omega)) fun S₁ index e' j h₁ _ hindex => .eat fun _ => ?_
  refine .pure (e := .index {} e e') (Nat.le_succ j) fun w hw => ?_
  rw [Tree.erase, hexpr w (h₁ hw), hindex w hw]

omit hE in
/-- An identifier is read alike. -/
theorem parseIdent_relocates (n : Nat) : Relocates σ Tree.erase (parseIdent n) := by
  intro S b i hb
  refine .eatType fun _ => ?_
  refine .bind (parseTypeArguments_relocates (parseType_relocates n) n (by omega))
    fun S₁ tyargs es j _ _ htyargs => ?_
  refine .pure (e := .ident {} (σ.data i) es) (Nat.le_refl j) fun w hw => ?_
  rw [Tree.erase, σ.data_eq, htyargs w hw]

/-- A member is read alike if the tree before it is. The step back to its name is the same
in all streams. -/
theorem parseMember_uniform {expr : W → Tree} {e : Tree} (hb : b ≤ i)
    (hexpr : ∀ w ∈ S, (expr w).erase = e) (n : Nat) :
    Uniform σ S b Tree.erase (fun w => parseMember E (expr w) n) i := by
  refine .eat fun _ => .eatType fun _ => ?_
  refine .is fun c hc => .is fun c' hc' => .ite _ (fun _ _ => Iff.rfl) (fun _ => ?_) fun _ => ?_
  · refine .stepBack ?_
    refine .bind (parseIdent_relocates n (by omega)) fun S₁ member e' j h₁ _ hmember => ?_
    refine parseCall_uniform hE (Nat.le_refl j) hmember (o := some e) (fun w hw => ?_) n
    rw [Option.map_some, hexpr w (h₁ hw)]
  · refine .pure (e := .member {} e ⟨σ.data (i + 1), {}⟩) (by omega) fun w hw => ?_
    rw [Tree.erase, Named.erase, hexpr w hw, σ.data_eq]

/-- An assignment is read alike if the left side is. -/
theorem parseAssign_uniform {expr : W → Tree} {e : Tree} (hb : b ≤ i)
    (hexpr : ∀ w ∈ S, (expr w).erase = e) :
    Uniform σ S b Tree.erase (fun w => parseAssign E (expr w)) i := by
  refine .get (.eat fun _ => ?_)
  refine .bind (hE (by omega)) fun S₁ value e' j h₁ _ hvalue => ?_
  refine .pure (e := .assign {} e e') (Nat.le_refl j) fun w hw => ?_
  rw [Tree.erase, hexpr w (h₁ hw), hvalue w hw]

omit hE in
/-- Whether an `else` is below its `if` is read off two indents, or off whether they are
on one line. Both are the same in all streams. -/
theorem checkElse_uniform (hb : b ≤ i) (hk : k < σ.size) (hi : i < σ.size) :
    Uniform σ S b id (fun w => checkElse (σ.locationAt k w)) i := by
  refine .get (.getLineIndent hk (fun _ _ => rfl) fun ifIndent _ => ?_)
  refine .getLineIndent hi (fun _ _ => rfl) fun elseIndent _ => .last ?_
  exact .panicIf (ifIndent ≠ elseIndent) (fun _ _ => Iff.rfl) fun _ => .pure hb fun _ _ => rfl

/-- An `if` is read alike. The `if` opens both bodies. -/
theorem parseIf_relocates (n : Nat) : Relocates σ Tree.erase (parseIf E n) := by
  intro S b i hb
  refine .get (.eatAt fun hat hk => .raise (Nat.le_succ_of_le hb) ?_)
  have hopens : σ.Opens i := ⟨"if", by decide, hat⟩
  refine .bind (hE (Nat.le_refl (i + 1))) fun S₁ cond e j _ hj hcond => ?_
  refine .bind (parseBlockExpr_uniform hE hopens (by omega) (Nat.le_refl j) n)
    fun S₂ thenbody e' l h₂ hl hthen => ?_
  refine .ifIs (fun helse => .of_mem fun w _ => ?_) fun _ => ?_
  · refine .bindEq (checkElse_uniform (Nat.le_refl l) hk (helse.lt_size w nofun))
      fun S₃ _ l₃ h₃ hl₃ => .eatType fun _ => ?_
    refine .bind (parseBlockExpr_uniform hE hopens (by omega) (Nat.le_succ l₃) n)
      fun S₄ elsebody e'' l₄ h₄ _ hbody => ?_
    refine .pure (e := .ifElse {} e e' e'') (Nat.le_refl l₄) fun w hw => ?_
    rw [Tree.erase, hcond w (h₂ (h₃ (h₄ hw))), hthen w (h₃ (h₄ hw)), hbody w hw]
  · refine .pure (e := .ifThen {} e e') (Nat.le_refl l) fun w hw => ?_
    rw [Tree.erase, hcond w (h₂ hw), hthen w hw]

omit hE in
/-- The index of a `for` is read alike. -/
theorem parseForIndex_relocates : Relocates σ (Option.map VarTree.erase) parseForIndex := by
  intro S b i hb
  refine .ifIs (fun _ => .move fun _ => .eatType fun _ => ?_)
    fun _ => .pure hb fun _ _ => rfl
  refine .pure (e := some ⟨.value, σ.data (i + 1), .unknown, {}⟩) (by omega) fun w _ => ?_
  rw [Option.map_some, VarTree.erase_eq rfl]
  rfl

/-- A `for` is read alike. -/
theorem parseFor_relocates (n : Nat) : Relocates σ Tree.erase (parseFor E n) := by
  intro S b i hb
  refine .get (.eatAt fun hat _ => .eatType fun _ => .raise (show _ ≤ i + 1 + 1 by omega) ?_)
  have hopens : σ.Opens i := ⟨"for", by decide, hat⟩
  refine .bind (parseForIndex_relocates (Nat.le_refl (i + 1 + 1)))
    fun S₁ index e j _ hj hindex => .eat fun _ => ?_
  refine .bind (hE (by omega)) fun S₂ expr e' l h₂ hl hexpr => ?_
  refine .bind (parseBlockExpr_uniform hE hopens (by omega) (Nat.le_refl l) n)
    fun S₃ body e'' l' h₃ _ hbody => ?_
  refine .pure (e := .forIn {} ⟨.variable, σ.data (i + 1), .unknown, {}⟩ e e' e'')
    (Nat.le_refl l') fun w hw => ?_
  rw [Tree.erase, VarTree.erase_eq rfl, hindex w (h₂ (h₃ hw)), hexpr w (h₃ hw), hbody w hw]
  rfl

/-- A `while` is read alike. -/
theorem parseWhile_relocates (n : Nat) : Relocates σ Tree.erase (parseWhile E n) := by
  intro S b i hb
  refine .get (.eatAt fun hat _ => .raise (Nat.le_succ_of_le hb) ?_)
  have hopens : σ.Opens i := ⟨"while", by decide, hat⟩
  refine .bind (hE (Nat.le_refl (i + 1))) fun S₁ expr e j _ hj hexpr => ?_
  refine .bind (parseBlockExpr_uniform hE hopens (by omega) (Nat.le_refl j) n)
    fun S₂ body e' l h₂ _ hbody => ?_
  refine .pure (e := .while {} e e') (Nat.le_refl l) fun w hw => ?_
  rw [Tree.erase, hexpr w (h₂ hw), hbody w hw]

/-! ### Literals -/

/-- An array literal is read alike. -/
theorem parseLiteralArray_relocates (n : Nat) :
    Relocates σ Tree.erase (parseLiteralArray E n) := by
  intro S b i hb
  refine .get (.eat fun _ => ?_)
  refine .bind (parseList_relocates hE .bracket "]" n (by omega))
    fun S₁ elements es j _ _ helements => .eat fun _ => ?_
  refine .pure (e := .literalArray {} es) (Nat.le_succ j) fun w hw => ?_
  rw [Tree.erase, Tree.eraseAll_eq, helements w hw]

/-- A field of a struct literal is read alike. -/
theorem parseLiteralField_relocates : Relocates σ eraseField (parseLiteralField E) := by
  intro S b i hb
  refine .eatType fun _ => .ifIs (fun _ => .move fun _ => ?_) fun _ => ?_
  · refine .bind (hE (by omega)) fun S₁ expr e j _ _ hexpr => ?_
    refine .pure (e := (⟨σ.data i, {}⟩, e)) (Nat.le_refl j) fun w hw => ?_
    rw [eraseField, Named.erase, σ.data_eq, hexpr w hw]
  · refine .pure (e := (⟨σ.data i, {}⟩, .ident {} (σ.data i) [])) (by omega) fun w _ => ?_
    rw [eraseField, Named.erase, Tree.erase, σ.data_eq, List.map_nil]

omit hE in
/-- The name of a struct literal is read alike. -/
theorem parseLiteralName_relocates (n : Nat) :
    Relocates σ (Prod.map (Option.map TyTree.erase) id) (parseLiteralName n) := by
  intro S b i hb
  refine .ifType (fun _ => .eatType fun _ => ?_) fun _ => .pure hb fun _ _ => rfl
  refine .bind (parseTypeArguments_relocates (parseType_relocates n) n (by omega))
    fun S₁ tyargs es j _ _ htyargs => ?_
  refine .pure (e := (some (.inst ⟨σ.data i, {}⟩ es), σ.data i)) (Nat.le_refl j) fun w hw => ?_
  rw [Prod.map_apply, Option.map_some, TyTree.erase, Named.erase, TyTree.eraseAll_eq, σ.data_eq,
    htyargs w hw, id]

/-- A struct literal is read alike. -/
theorem parseLiteralStruct_relocates (n : Nat) :
    Relocates σ Tree.erase (parseLiteralStruct E n) := by
  intro S b i hb
  refine .get (.bindPair (parseLiteralName_relocates n hb)
    fun S₁ type name e j _ _ hname => .eat fun _ => ?_)
  refine .bind (parseList_relocates (parseLiteralField_relocates hE) .bracket "\x7d" n (by omega))
    fun S₂ fields es l h₂ _ hfields => .eat fun _ => ?_
  refine .pure (e := .literalStruct {} e.1 e.2 es) (Nat.le_succ l) fun w hw => ?_
  rw [Tree.erase, Tree.eraseFields_eq, hfields w hw, ← hname w (h₂ hw)]
  rfl

/-- What is between parentheses is read alike: which of the three it is depends on the
number of trees. -/
theorem parseParens_relocates (n : Nat) : Relocates σ Tree.erase (parseParens E n) := by
  intro S b i hb
  refine .get (.move fun _ => ?_)
  refine .bind (parseList_relocates hE .bracket ")" n (by omega))
    fun S₁ fields es j _ _ hfields => .get (.eat fun _ => ?_)
  -- the lists of all streams are of one length
  rcases es with _ | ⟨e, _ | ⟨e', es⟩⟩
  · have hvoid : Uniform σ S₁ j Tree.erase (fun w => do
        return .literalVoid (← ParseM.lift ((σ.locationAt i w).span (σ.locationAt j w)))) (j + 1) :=
      .span fun loc _ => .pure (Nat.le_succ j) fun _ _ => rfl
    refine hvoid.of_run fun w hw => ?_
    rw [List.map_eq_nil_iff.mp (hfields w hw)]
    rfl
  · have hfield : ∀ w ∈ S₁, ∃ t, fields w = [t] ∧ t.erase = e := fun w hw => by
      obtain ⟨t, ts, ht, he, hts⟩ := List.map_eq_cons_iff.mp (hfields w hw)
      exact ⟨t, by rw [ht, List.map_eq_nil_iff.mp hts], he⟩
    have hone : Uniform σ S₁ j Tree.erase (fun w => pure ((fields w).headD default)) (j + 1) :=
      .pure (Nat.le_succ j) fun w hw => by
        obtain ⟨t, ht, he⟩ := hfield w hw
        rw [ht]
        exact he
    refine hone.of_run fun w hw => ?_
    obtain ⟨t, ht, -⟩ := hfield w hw
    rw [ht]
    rfl
  · have hmany : ∀ w ∈ S₁, ∃ t t' ts, fields w = t :: t' :: ts := fun w hw => by
      obtain ⟨t, ts, ht, -, hts⟩ := List.map_eq_cons_iff.mp (hfields w hw)
      obtain ⟨t', ts', ht', -, -⟩ := List.map_eq_cons_iff.mp hts
      exact ⟨t, t', ts', by rw [ht, ht']⟩
    have htuple : Uniform σ S₁ j Tree.erase (fun w => do
        return .literalTuple (← ParseM.lift ((σ.locationAt i w).span (σ.locationAt j w)))
          (fields w)) (j + 1) :=
      .span fun loc _ => .pure (e := .literalTuple {} (e :: e' :: es)) (Nat.le_succ j)
        fun w hw => by
        rw [Tree.erase, Tree.eraseAll_eq, hfields w hw]
    refine htuple.of_run fun w hw => ?_
    obtain ⟨t, t', ts, ht⟩ := hmany w hw
    rw [ht]
    rfl

omit hE in
/-- A number is read alike: its value is read off the text. -/
theorem parseNumber_relocates : Relocates σ Tree.erase parseNumber := by
  intro S b i hb
  refine .eatType fun _ => ?_
  -- What is read depends on the data of the token alone, which all streams share.
  cases hint : strtollLiteral (σ.data i) with
  | some value =>
      cases value with
      | some valueInteger =>
          have hvalue : Uniform σ S b Tree.erase
              (fun w => pure (.literalInteger (σ.locationAt i w) valueInteger)) (i + 1) :=
            .pure (by omega) fun _ _ => rfl
          refine hvalue.of_run fun w _ => ?_
          rw [σ.data_eq, hint]
          rfl
      | none =>
          refine .of_error fun w _ => ?_
          rw [σ.data_eq, hint]
          exact panic_run_error
  | none =>
      cases hdouble : strtod (σ.data i) with
      | some value =>
          cases value with
          | some valueDouble =>
              have hvalue : Uniform σ S b Tree.erase
                  (fun w => pure (.literalFloat (σ.locationAt i w) valueDouble)) (i + 1) :=
                .pure (by omega) fun _ _ => rfl
              refine hvalue.of_run fun w _ => ?_
              rw [σ.data_eq, hint, hdouble]
              rfl
          | none =>
              refine .of_error fun w _ => ?_
              rw [σ.data_eq, hint, hdouble]
              exact panic_run_error
      | none =>
          refine .of_error fun w _ => ?_
          rw [σ.data_eq, hint, hdouble]
          exact panic_run_error

/-- A term is read alike. Each test is about the current token or the next one. -/
theorem parseTerm_relocates (n : Nat) : Relocates σ Tree.erase (parseTerm E n) := by
  intro S b i hb
  refine .ifIs (fun _ => .eatType fun _ => .pure (by omega) fun _ _ => rfl) fun _ => ?_
  refine .ifIs (fun _ => .eatType fun _ => .pure (by omega) fun _ _ => rfl) fun _ => ?_
  refine .ifType (fun _ => parseNumber_relocates hb) fun _ => ?_
  refine .ifType (fun _ => .eatType fun _ => ?_) fun _ => ?_
  · refine .pure (e := .literalString {} (σ.data i)) (by omega) fun w _ => ?_
    rw [Tree.erase, σ.data_eq]
  refine .is fun c _ => .isType fun c' _ => .getNext (.getNext (.ite ((c || (c' &&
    decide (σ.type (i + 1) = .bracket) && decide (σ.data (i + 1) = "\x7b".toList))) = true)
    (fun w _ => by rw [σ.type_eq, σ.data_eq]) (fun _ => parseLiteralStruct_relocates hE n hb)
    fun _ => ?_))
  refine .ifIs (fun _ => parseLiteralArray_relocates hE n hb) fun _ => ?_
  refine .ifType (fun _ => parseIdent_relocates n hb) fun _ => ?_
  exact .ifIs (fun _ => parseParens_relocates hE n hb) fun _ => .get .panic

/-! ### Expressions -/

omit hE in
/-- The row of an operator is found by the type and the text of a token. -/
theorem findOp_uniform {Op : Type} {rows : List (TokenType × String × OpDef Op)}
    {otherwise : OpDef Op} {g : W → OpDef Op → ParseM α}
    (h : ∀ op, Uniform σ S b er (fun w => g w op) i) :
    Uniform σ S b er
      (fun w => (do return findOp rows otherwise (← TokenStream.get)) >>= g w) i := by
  refine (h (findOp rows otherwise { type := σ.type i, data := σ.data i })).of_run fun w _ => ?_
  refine bind_run ?_
  show Except.ok (findOp rows otherwise ((σ.stream w).tokenAt i), i) = _
  unfold findOp
  rw [σ.type_eq, σ.data_eq]

omit hE in
/-- A unary operator is lowered alike. -/
theorem erase_lowerUnaryOp (uop : OpDef UnaryOp) (expr : Tree) (location : Location) :
    (lowerUnaryOp uop expr location).erase = lowerUnaryOp uop expr.erase {} := by
  unfold lowerUnaryOp
  cases uop.opname with
  | some opname => rfl
  | none => rfl

omit hE in
/-- A binary operator is lowered alike. -/
theorem erase_lowerBinaryOp (bop : OpDef BinaryOp) (left right : Tree) (location : Location) :
    (lowerBinaryOp bop left right location).erase =
      lowerBinaryOp bop left.erase right.erase {} := by
  unfold lowerBinaryOp
  cases bop.opname with
  | some opname => rfl
  | none => rfl

/-- The postfixes of a term are read alike if the term is. -/
theorem parsePostfix_uniform {start : W → Location} {term : W → Tree} {e : Tree} (hb : b ≤ i)
    (hterm : ∀ w ∈ S, (term w).erase = e) (n : Nat) :
    Uniform σ S b Tree.erase (fun w => parsePostfix E (start w) (term w) n) i := by
  induction n generalizing S b i term e with
  | zero => exact outOfFuel_uniform
  | succ n ih =>
      refine .ifIs (fun _ => ?_) fun _ => .ifIs (fun _ => ?_) fun _ =>
        .ifIs (fun _ => ?_) fun _ => ?_
      · refine .bind (parseCall_uniform hE hb hterm (o := none) (fun _ _ => rfl) n)
          fun S₁ term e j _ _ hterm => ih (Nat.le_refl j) hterm
      · refine .bind (parseIndex_uniform hE hb hterm)
          fun S₁ term e j _ _ hterm => ih (Nat.le_refl j) hterm
      · refine .bind (parseMember_uniform hE hb hterm n)
          fun S₁ term e j _ _ hterm => ih (Nat.le_refl j) hterm
      · exact .pure hb hterm

/-- A term with what follows it is read alike. -/
theorem parseTermPrimary_relocates (n : Nat) :
    Relocates σ Tree.erase (parseTermPrimary E n) := by
  intro S b i hb
  refine .get (.bind (parseTerm_relocates hE n hb) fun S₁ term e j _ _ hterm => ?_)
  refine .bind (parsePostfix_uniform hE (Nat.le_refl j) hterm n) fun S₂ term e l _ _ hterm => ?_
  refine .ifIs (fun _ => ?_) fun _ => .pure (Nat.le_refl l) hterm
  exact parseAssign_uniform hE (Nat.le_refl l) hterm

/-- What a keyword starts is read alike. -/
theorem parseKeyword_relocates (n : Nat) :
    Relocates σ Tree.erase (parseKeyword E n) := by
  intro S b i hb
  refine .of_mem fun w _ => ?_
  refine .is fun c hc => .is fun c' hc' => .is fun c'' hc'' => .ite ((c || c' || c'') = true)
    (fun _ _ => Iff.rfl) (fun h => ?_) fun _ => ?_
  · have hi : i < σ.size := by
      rw [Bool.or_eq_true, Bool.or_eq_true, hc, hc', hc''] at h
      rcases h with (hat | hat) | hat <;> exact hat.lt_size w nofun
    exact parseFnDecl_uniform hE hb n
  refine .ifIs (fun hat => .getNext (.ite (σ.type (i + 1) = .ident) (fun w _ => by rw [σ.type_eq])
    (fun _ => ?_) fun _ => parseFn_relocates hE n hb)) fun _ => ?_
  · exact parseFnDecl_uniform hE hb n
  refine .ifIs (fun _ => parseVarDecl_relocates hE n hb) fun _ => ?_
  refine .ifIs (fun _ => parseStructDecl_relocates hE n hb) fun _ => ?_
  refine .ifIs (fun _ => parseImport_relocates n hb) fun _ => ?_
  refine .ifIs (fun _ => parseIf_relocates hE n hb) fun _ => ?_
  refine .ifIs (fun _ => parseFor_relocates hE n hb) fun _ => ?_
  refine .ifIs (fun _ => parseWhile_relocates hE n hb) fun _ => ?_
  exact parseTermPrimary_relocates hE n hb

end Expr

/-- The functions that call each other, with one amount of fuel. -/
structure ExprRelocates (σ : Streams W) (n : Nat) : Prop where
  primary : Relocates σ Tree.erase (parsePrimary n)
  right : ∀ (priority : Nat) {S : Set W} {b i : Nat} {right : W → Tree} {e : Tree}, b ≤ i →
    (∀ w ∈ S, (right w).erase = e) →
      Uniform σ S b Tree.erase (fun w => parseExprRight priority n (right w)) i
  climb : ∀ (limit : Nat) {S : Set W} {b i : Nat} {left : W → Tree} {e : Tree}, b ≤ i →
    (∀ w ∈ S, (left w).erase = e) →
      Uniform σ S b Tree.erase (fun w => parseExprClimb limit n (left w)) i
  expr : Relocates σ Tree.erase (parseExpr n)

/-- Expressions are read alike. By induction on the fuel, with all functions above at
expressions of less fuel. -/
theorem exprRelocates (n : Nat) : ExprRelocates σ n := by
  induction n with
  | zero =>
      exact ⟨fun _ => outOfFuel_uniform, fun _ _ _ _ _ _ _ _ => outOfFuel_uniform,
        fun _ _ _ _ _ _ _ _ => outOfFuel_uniform, fun _ => outOfFuel_uniform⟩
  | succ n ih =>
      refine ⟨@fun S b i hb => ?_, fun priority S b i right e hb hright => ?_,
        fun limit S b i left e hb hleft => ?_, @fun S b i hb => ?_⟩
      -- The primary: an operator with its operand, or a keyword or a term.
      · refine findOp_uniform fun uop => ?_
        refine .ite (uop.priority ≠ 0) (fun _ _ => Iff.rfl) (fun _ => .get (.move fun _ => ?_))
          fun _ => parseKeyword_relocates ih.expr n hb
        refine .bind (ih.primary (by omega)) fun S₁ expr e j _ _ hexpr => ?_
        refine .pure (e := lowerUnaryOp uop e {}) (Nat.le_refl j) fun w hw => ?_
        rw [erase_lowerUnaryOp, hexpr w hw]
      -- The inner loop: whether it goes on depends on the token only.
      · refine findOp_uniform fun nextop => ?_
        refine .ite (nextop.priority ≠ 0 ∧ nextop.priority > priority) (fun _ _ => Iff.rfl)
          (fun _ => ?_) fun _ => .pure hb hright
        refine .bind (ih.climb nextop.priority hb hright) fun S₁ right e j _ _ hright => ?_
        exact ih.right priority (Nat.le_refl j) hright
      -- The outer loop: what has been parsed on the left keeps its tree.
      · refine findOp_uniform fun op => ?_
        refine .ite (op.priority ≠ 0 ∧ op.priority ≥ limit) (fun _ _ => Iff.rfl)
          (fun _ => .get (.move fun _ => ?_)) fun _ => .pure hb hleft
        refine .bind (ih.primary (by omega)) fun S₁ right e' j h₁ _ hright => ?_
        refine .bind (ih.right op.priority (Nat.le_refl j) hright)
          fun S₂ right e' l h₂ _ hright => ?_
        refine ih.climb limit (Nat.le_refl l) (e := lowerBinaryOp op e e' {}) fun w hw => ?_
        rw [erase_lowerBinaryOp, hleft w (h₁ (h₂ hw)), hright w hw]
      · refine .bind (ih.primary hb) fun S₁ left e j _ _ hleft => ?_
        exact ih.climb 0 (Nat.le_refl j) hleft

/-- The parser, on the streams of one text at other locations. -/
theorem parseRoot_relocates (n : Nat) : Relocates σ Tree.erase (parseRoot n) := by
  intro S b i hb
  have hblock : Relocates σ Tree.erase (parseBlock (parseExpr n) none n) := by
    intro S b i hb
    refine .bind (parseIndent_root (exprRelocates n).expr n hb) fun S₁ body es j _ _ hbody => ?_
    refine .pure (e := .block {} es) (Nat.le_refl j) fun w hw => ?_
    rw [Tree.erase, Tree.eraseAll_eq, hbody w hw]
  refine .bind (hblock hb) fun S₁ result e j _ _ hresult => ?_
  exact .expectType fun _ => .pure (Nat.le_refl j) hresult

end Aike
