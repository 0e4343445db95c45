import Aike.Proofs.Spelling

/-!
# `Aike.Proofs.FnSpelling`: what the name of a function says

An `FnSpelling` is what `mangleFn` reads of a function: what it is called, the type
arguments and the types of the parameters, the same of the functions around it, and the
module. The block in which it is declared is not in it, and the result type only where there
are type arguments.

`mangleFn` is `FnSpelling.encode` of the spelling (`FnSignature.Spells.mangleFn`), and the
spelling is read off the name (`FnSpelling.encode_inj`): the first letter tells what is
around the function, and the types end where the name ends, or at an `E` in the name of a
function that is inside.
-/

set_option autoImplicit false

namespace Aike

open PrefixCode

/-- What a function is called: by a name, or by a number when it has none. -/
inductive FnName
  | named (name : SpelledName)
  | unnamed (id : Int)

/-- What a function is, apart from what is around it. Its types are the result type, if
there are type arguments, and those of the parameters, or `void` for none. -/
structure FnSignature where
  name : FnName
  tyargs : List Spelling
  types : List Spelling
  varargs : Bool

/-- A function as `mangleFn` reads it. -/
inductive FnSpelling
  | top (sig : FnSignature)
  | inModule (name : SpelledName) (sig : FnSignature)
  | inFunction (parent : FnSpelling) (sig : FnSignature)

/-! ### What `mangleFn` makes of it -/

def FnName.encode : FnName → Str
  | .named name => lengthPrefixed name.text
  | .unnamed id => ['U', 't'] ++ toStr id ++ ['_']

namespace FnSignature

def fnName (sig : FnSignature) : Str :=
  sig.name.encode ++ mangleTyargs (Spelling.encodeAll sig.tyargs)

def params (sig : FnSignature) : Str :=
  (Spelling.encodeAll sig.types).flatten ++ if sig.varargs then ['z'] else []

end FnSignature

/-- What stands behind the `_Z`. -/
def FnSpelling.encode : FnSpelling → Str
  | .top sig => sig.fnName ++ sig.params
  | .inModule name sig => 'N' :: (lengthPrefixed name.text ++ (sig.fnName ++ 'E' :: sig.params))
  | .inFunction parent sig => 'Z' :: (encode parent ++ 'E' :: (sig.fnName ++ sig.params))

/-! ### It is read back -/

/-- The text is over, or goes on with an `E`. -/
def Ends (r : Str) : Prop := ∀ ch ∈ r.head?, ch = 'E'

/-- The end of the text stops the types. -/
theorem ends_nil : Ends [] := fun _ h => nomatch h

/-- An `E` stops the types, as no type starts with one. -/
theorem ends_cons (r : Str) : Ends ('E' :: r) := by
  rintro _ ⟨⟩
  rfl

/-- What ends a name is no start of a type, so the types in front of it are read up to it
and no further, with or without the `z` of variable arguments. -/
theorem Ends.stops {r : Str} (h : Ends r) (varargs : Bool) :
    Stops Spelling.Starts ((if varargs then ['z'] else []) ++ r) := by
  cases varargs with
  | true => exact stops_cons (by simp [Spelling.Starts])
  | false =>
      intro ch hch
      rw [h ch hch]
      simp [Spelling.Starts]

/-- A number is read up to the `_` behind it. -/
theorem toStr_append_inj {n m : Int} {r r' : Str} (h : toStr n ++ '_' :: r = toStr m ++ '_' :: r') :
    n = m ∧ r = r' := by
  have hstop : ∀ r : Str, ∀ ch ∈ ('_' :: r).head?, ch.isDigit = false := by
    rintro r _ ⟨⟩
    rfl
  -- a sign is no digit
  have hsign : ∀ {k : Nat} {r r' : Str}, Nat.toDigits 10 k ++ r ≠ '-' :: r' := by
    intro k r r' h
    cases hdigits : Nat.toDigits 10 k with
    | nil => exact Nat.toDigits_ne_nil hdigits
    | cons d ds =>
        have hdigit := Decimal.isDigit_toDigits k d (by rw [hdigits]; exact List.mem_cons_self)
        rw [hdigits] at h
        obtain ⟨rfl, -⟩ := List.cons.inj h
        cases hdigit
  unfold toStr at h
  by_cases hn : n < 0 <;> by_cases hm : m < 0
  · rw [if_pos hn, if_pos hm] at h
    obtain ⟨habs, hrest⟩ := Decimal.toDigits_append_inj (hstop r) (hstop r') (List.cons.inj h).2
    exact ⟨by omega, (List.cons.inj hrest).2⟩
  · rw [if_pos hn, if_neg hm] at h
    exact absurd h.symm hsign
  · rw [if_neg hn, if_pos hm] at h
    exact absurd h hsign
  · rw [if_neg hn, if_neg hm] at h
    obtain ⟨habs, hrest⟩ := Decimal.toDigits_append_inj (hstop r) (hstop r') h
    exact ⟨by omega, (List.cons.inj hrest).2⟩

namespace FnName

/-- A name starts with a digit or with `U`. -/
theorem encode_head (a : FnName) :
    ∃ ch rest, a.encode = ch :: rest ∧ (ch.isDigit = true ∧ (∃ name, a = .named name) ∨
      ch = 'U' ∧ ∃ id, a = .unnamed id) := by
  cases a with
  | unnamed id => exact ⟨'U', _, rfl, .inr ⟨rfl, id, rfl⟩⟩
  | named name =>
      cases hdigits : Nat.toDigits 10 name.text.length with
      | nil => exact absurd hdigits Nat.toDigits_ne_nil
      | cons d ds =>
          refine ⟨d, ds ++ name.text, ?_, .inl ⟨?_, name, rfl⟩⟩
          · rw [encode, lengthPrefixed, hdigits]
            rfl
          · exact Decimal.isDigit_toDigits _ d (by rw [hdigits]; exact List.mem_cons_self)

/-- The name of a function is read back off the front of a text: a length is followed by
that many letters, and `Ut` starts no length. -/
theorem append_inj {a b : FnName} {r r' : Str} (h : a.encode ++ r = b.encode ++ r') :
    a = b ∧ r = r' := by
  obtain ⟨ch, rest, ha, hhead⟩ := a.encode_head
  obtain ⟨ch', rest', hb, hhead'⟩ := b.encode_head
  have hsame : ch = ch' := by
    rw [ha, hb] at h
    exact (List.cons.inj h).1
  rcases hhead with ⟨hdigit, name, rfl⟩ | ⟨rfl, id, rfl⟩ <;>
    rcases hhead' with ⟨hdigit', name', rfl⟩ | ⟨rfl, id', rfl⟩
  · obtain ⟨hname, hrest⟩ := lengthPrefixed_append_inj name.start name'.start h
    exact ⟨congrArg _ (SpelledName.eq_of_text hname), hrest⟩
  · rw [hsame] at hdigit
    cases hdigit
  · rw [← hsame] at hdigit'
    cases hdigit'
  · simp only [encode, List.cons_append, List.nil_append, List.append_assoc, List.cons.injEq,
      true_and] at h
    obtain ⟨hid, hrest⟩ := toStr_append_inj h
    exact ⟨congrArg _ hid, hrest⟩

end FnName

/-- Type arguments, where there are some, are put between an `I` and an `E`. -/
theorem mangleTyargs_encodeAll (a : Spelling) (as : List Spelling) :
    mangleTyargs (Spelling.encodeAll (a :: as)) =
      'I' :: ((Spelling.encodeAll (a :: as)).flatten ++ ['E']) := by
  rw [mangleTyargs, if_pos (show 0 < _ by simp [Spelling.encodeAll])]
  rfl

/-- Type arguments are read up to the `E` behind them. There are none without an `I`. -/
theorem tyargs_append_inj {as bs : List Spelling} {r r' : Str} (hr : ∀ ch ∈ r.head?, ch ≠ 'I')
    (hr' : ∀ ch ∈ r'.head?, ch ≠ 'I')
    (h : mangleTyargs (Spelling.encodeAll as) ++ r = mangleTyargs (Spelling.encodeAll bs) ++ r') :
    as = bs ∧ r = r' := by
  cases as with
  | nil =>
      cases bs with
      | nil => exact ⟨rfl, h⟩
      | cons b bs =>
          have hstart : r = _ := h
          rw [mangleTyargs_encodeAll] at hstart
          exact absurd rfl (hr _ (by rw [hstart]; rfl))
  | cons a as =>
      rw [mangleTyargs_encodeAll] at h
      cases bs with
      | nil =>
          have hstart : _ = r' := h
          exact absurd rfl (hr' _ (by rw [← hstart]; rfl))
      | cons b bs =>
          rw [mangleTyargs_encodeAll] at h
          simp only [List.cons_append, List.append_assoc, List.cons.injEq, true_and] at h
          obtain ⟨hargs, hend⟩ :=
            Spelling.encodeAll_append_inj (Spelling.stops_end r) (Spelling.stops_end r') h
          exact ⟨hargs, (List.cons.inj hend).2⟩

namespace FnSignature

variable {a b : FnSignature} {r r' : Str}

/-- Behind the name of a function are no type arguments. -/
theorem params_head (hr : Ends r) : ∀ ch ∈ (a.params ++ r).head?, ch ≠ 'I' := by
  intro ch hch
  rw [params, List.append_assoc] at hch
  cases htypes : a.types with
  | nil =>
      rw [htypes] at hch
      rintro rfl
      cases hvarargs : a.varargs with
      | true =>
          rw [hvarargs] at hch
          cases hch
      | false =>
          rw [hvarargs] at hch
          cases hr 'I' hch
  | cons t ts =>
      obtain ⟨ch', rest, hcode, hstarts⟩ := t.encode_starts
      rw [htypes, Spelling.encodeAll, List.flatten_cons, hcode] at hch
      cases hch
      rintro rfl
      simp [Spelling.Starts] at hstarts

/-- The types of the parameters are read back, and whether more may follow. -/
theorem params_append_inj (hr : Ends r) (hr' : Ends r') (h : a.params ++ r = b.params ++ r') :
    a.types = b.types ∧ a.varargs = b.varargs ∧ r = r' := by
  rw [params, params, List.append_assoc, List.append_assoc] at h
  obtain ⟨htypes, hrest⟩ := Spelling.encodeAll_append_inj (hr.stops _) (hr'.stops _) h
  refine ⟨htypes, ?_⟩
  cases hva : a.varargs <;> cases hvb : b.varargs <;> rw [hva, hvb] at hrest
  · exact ⟨rfl, hrest⟩
  · cases hr 'z' (by rw [show r = 'z' :: r' from hrest]; rfl)
  · cases hr' 'z' (by rw [show r' = 'z' :: r from hrest.symm]; rfl)
  · exact ⟨rfl, (List.cons.inj hrest).2⟩

/-- A signature is known by its parts. -/
theorem ext_of {a b : FnSignature} (hname : a.name = b.name) (htyargs : a.tyargs = b.tyargs)
    (htypes : a.types = b.types) (hvarargs : a.varargs = b.varargs) : a = b := by
  cases a
  cases b
  cases hname
  cases htyargs
  cases htypes
  cases hvarargs
  rfl

/-- The name of a function and its parameters, with nothing between. -/
theorem append_inj (hr : Ends r) (hr' : Ends r')
    (h : a.fnName ++ (a.params ++ r) = b.fnName ++ (b.params ++ r')) : a = b ∧ r = r' := by
  rw [fnName, fnName, List.append_assoc, List.append_assoc] at h
  obtain ⟨hname, h⟩ := FnName.append_inj h
  obtain ⟨htyargs, h⟩ := tyargs_append_inj (params_head hr) (params_head hr') h
  obtain ⟨htypes, hvarargs, hrest⟩ := params_append_inj hr hr' h
  exact ⟨ext_of hname htyargs htypes hvarargs, hrest⟩

/-- The name of a function and its parameters, with the end of a nested name between. -/
theorem append_end_inj (hr : Ends r) (hr' : Ends r')
    (h : a.fnName ++ 'E' :: (a.params ++ r) = b.fnName ++ 'E' :: (b.params ++ r')) :
    a = b ∧ r = r' := by
  have hend : ∀ r : Str, ∀ ch ∈ ('E' :: r).head?, ch ≠ 'I' := by
    rintro r _ ⟨⟩
    simp
  rw [fnName, fnName, List.append_assoc, List.append_assoc] at h
  obtain ⟨hname, h⟩ := FnName.append_inj h
  obtain ⟨htyargs, h⟩ := tyargs_append_inj (hend _) (hend _) h
  obtain ⟨htypes, hvarargs, hrest⟩ := params_append_inj hr hr' (List.cons.inj h).2
  exact ⟨ext_of hname htyargs htypes hvarargs, hrest⟩

end FnSignature

namespace FnSpelling

/-- The name of a function that is in nothing does not start like that of another one. -/
theorem top_head (sig : FnSignature) :
    ∃ ch rest, (FnSpelling.top sig).encode = ch :: rest ∧ ch ≠ 'N' ∧ ch ≠ 'Z' := by
  obtain ⟨ch, rest, hname, hhead⟩ := sig.name.encode_head
  refine ⟨ch, rest ++ mangleTyargs (Spelling.encodeAll sig.tyargs) ++ sig.params, ?_, ?_⟩
  · rw [encode, FnSignature.fnName, hname]
    rfl
  · rcases hhead with ⟨hdigit, -⟩ | ⟨rfl, -⟩
    · constructor <;> rintro rfl <;> cases hdigit
    · constructor <;> simp

/-- The spelling of a function is read off its name, and what follows goes on with an `E`. -/
theorem append_inj : (a : FnSpelling) → ∀ {b : FnSpelling} {r r' : Str}, Ends r → Ends r' →
    a.encode ++ r = b.encode ++ r' → a = b ∧ r = r' := by
  intro a
  induction a with
  | top sig =>
      intro b r r' hr hr' h
      obtain ⟨ch, rest, hhead, hN, hZ⟩ := top_head sig
      cases b with
      | top sig' =>
          rw [encode, encode, List.append_assoc, List.append_assoc] at h
          obtain ⟨hsig, hrest⟩ := FnSignature.append_inj hr hr' h
          exact ⟨congrArg _ hsig, hrest⟩
      | inModule name sig' =>
          rw [hhead] at h
          exact absurd (List.cons.inj h).1 hN
      | inFunction parent sig' =>
          rw [hhead] at h
          exact absurd (List.cons.inj h).1 hZ
  | inModule name sig =>
      intro b r r' hr hr' h
      cases b with
      | top sig' =>
          obtain ⟨ch, rest, hhead, hN, hZ⟩ := top_head sig'
          rw [hhead] at h
          exact absurd (List.cons.inj h).1.symm hN
      | inModule name' sig' =>
          simp only [encode, List.cons_append, List.append_assoc, List.cons.injEq, true_and] at h
          obtain ⟨hname, h⟩ := lengthPrefixed_append_inj name.start name'.start h
          obtain ⟨hsig, hrest⟩ := FnSignature.append_end_inj hr hr' h
          exact ⟨by rw [SpelledName.eq_of_text hname, hsig], hrest⟩
      | inFunction parent sig' => cases h
  | inFunction parent sig ih =>
      intro b r r' hr hr' h
      cases b with
      | top sig' =>
          obtain ⟨ch, rest, hhead, hN, hZ⟩ := top_head sig'
          rw [hhead] at h
          exact absurd (List.cons.inj h).1.symm hZ
      | inModule name' sig' => cases h
      | inFunction parent' sig' =>
          simp only [encode, List.cons_append, List.append_assoc, List.cons.injEq, true_and] at h
          -- the name of the parent ends at an `E`
          obtain ⟨rfl, hinner⟩ := ih (ends_cons _) (ends_cons _) h
          obtain ⟨hsig, hrest⟩ := FnSignature.append_inj hr hr' (List.cons.inj hinner).2
          exact ⟨by rw [hsig], hrest⟩

/-- No function is spelled by an empty text. -/
theorem encode_ne_nil (a : FnSpelling) : a.encode ≠ [] := by
  cases a with
  | top sig =>
      obtain ⟨ch, rest, hhead, -⟩ := top_head sig
      rw [hhead]
      exact List.cons_ne_nil _ _
  | inModule name sig => exact List.cons_ne_nil _ _
  | inFunction parent sig => exact List.cons_ne_nil _ _

/-- Functions that are spelled alike are the same, with all that is around them. -/
theorem encode_inj {a b : FnSpelling} (h : a.encode = b.encode) : a = b :=
  (append_inj a ends_nil ends_nil (congrArg (· ++ []) h)).1

end FnSpelling

/-! ### The spelling of a function -/

/-- A function is called by its name, or by its number when its name is empty. -/
inductive FnName.Calls : FnName → Str → Int → Prop
  | named (name : SpelledName) (unnamed : Int) : Calls (.named name) name.text unnamed
  | unnamed (id : Int) : Calls (.unnamed id) [] id

/-- The types in the name of a function. -/
def spelledTypes (tyargs : List Spelling) (ret : Spelling) (args : List Spelling) (varargs : Bool) :
    List Spelling :=
  (if tyargs = [] then [] else [ret]) ++ (if args = [] ∧ varargs = false then [.void] else args)

/-- What `mangleFn` is given is spelled so. -/
structure FnSignature.Spells (inst : GenericId → Except Fault Ty) (name : Str) (unnamed : Int)
    (type : Ty) (tyargs : List Ty) (sig : FnSignature) : Prop where
  name : sig.name.Calls name unnamed
  tyargs : Ty.SpellsAll inst tyargs sig.tyargs
  type : ∃ args ret as b, type = .function args ret sig.varargs ∧ Ty.SpellsAll inst args as ∧
    (sig.tyargs ≠ [] → ret.Spells inst b) ∧
    sig.types = spelledTypes sig.tyargs b as sig.varargs

section MangleFn

variable {inst : GenericId → Except Fault Ty} {name : Str} {unnamed : Int} {type : Ty}
  {tyargs : List Ty} {sig : FnSignature} {fuel : Nat}

/-- There are as many spellings as types. -/
theorem Ty.SpellsAll.length_eq {ts : List Ty} {as : List Spelling} (h : Ty.SpellsAll inst ts as) :
    ts.length = as.length := by
  induction ts generalizing as with
  | nil =>
      cases h
      rfl
  | cons t ts ih =>
      cases h with
      | cons _ htail => rw [List.length_cons, List.length_cons, ih htail]

/-- The types of the parameters, as they are written. -/
theorem mangleParams_eq {args : List Ty} {as : List Spelling} (h : Ty.SpellsAll inst args as)
    (varargs : Bool) :
    mangleParams (Spelling.encodeAll as) varargs =
      (Spelling.encodeAll (if as = [] ∧ varargs = false then [.void] else as)).flatten ++
        if varargs then ['z'] else [] := by
  cases as with
  | nil => cases varargs <;> rfl
  | cons a as =>
      have hcons : ¬ ((a :: as) = [] ∧ varargs = false) := fun h => List.cons_ne_nil _ _ h.1
      rw [if_neg hcons, mangleParams, if_neg]
      exact fun h => nomatch h.1

/-- `mangleFn` writes the name or the number of a function as it is spelled. -/
theorem FnName.Calls.encode_eq {a : FnName} (h : a.Calls name unnamed) :
    (if name.length > 0 then mangleName name else ['U', 't'] ++ toStr unnamed ++ ['_']) =
      a.encode := by
  cases h with
  | named spelled =>
      obtain ⟨ch, hch, -⟩ := spelled.start
      have hpos : spelled.text.length > 0 := by
        cases htext : spelled.text with
        | nil =>
            rw [htext] at hch
            cases hch
        | cons => exact Nat.succ_pos _
      rw [if_pos hpos]
      rfl
  | unnamed id => rfl

/-- The name in the name of a function. -/
theorem FnSignature.Spells.mangleFnName (h : sig.Spells inst name unnamed type tyargs) :
    YieldsFrom (fun fuel => mangleFnName inst fuel name unnamed tyargs) sig.fnName := by
  rw [FnSignature.fnName, ← h.name.encode_eq]
  exact .bind h.tyargs.mangle (.pure _)

/-- The result type is written where there are type arguments. -/
theorem spelledRet {ret : Ty} {as : List Spelling} {b : Spelling}
    (htyargs : Ty.SpellsAll inst tyargs as) (hret : as ≠ [] → ret.Spells inst b) :
    YieldsFrom (fun fuel => if tyargs.length > 0 then mangle inst fuel ret else .ok [])
      (Spelling.encodeAll (if as = [] then [] else [b])).flatten := by
  have hlength := htyargs.length_eq
  cases as with
  | nil =>
      have hnone : ¬ tyargs.length > 0 := by simp [hlength]
      simp only [if_neg hnone]
      exact .pure _
  | cons a as =>
      have hsome : tyargs.length > 0 := by simp [hlength]
      simp only [if_pos hsome]
      simpa [Spelling.encodeAll] using (hret (List.cons_ne_nil a as)).mangle

/-- What `mangleFn` does for a function type, as one chain of steps. -/
theorem mangleFn_function (args : List Ty) (ret : Ty) (varargs : Bool) (parent : Str) :
    mangleFn inst fuel name unnamed (.function args ret varargs) tyargs parent =
      (mangleFnName inst fuel name unnamed tyargs >>= fun fnName =>
        (if tyargs.length > 0 then mangle inst fuel ret else .ok []) >>= fun ret =>
          args.mapM (mangle inst fuel) >>= fun args =>
            .ok (['_', 'Z'] ++ mangleNested parent fnName ++ ret ++
              mangleParams args varargs)) := by
  unfold mangleFn
  by_cases hlength : tyargs.length > 0
  · simp only [if_pos hlength]
    rfl
  · simp only [if_neg hlength]
    rfl

/-- `mangleFn` encodes the spelling. -/
theorem FnSignature.Spells.mangleFn (h : sig.Spells inst name unnamed type tyargs) (parent : Str) :
    YieldsFrom (fun fuel => mangleFn inst fuel name unnamed type tyargs parent)
      (['_', 'Z'] ++ mangleNested parent sig.fnName ++ sig.params) := by
  obtain ⟨args, ret, as, b, rfl, hargs, hret, htypes⟩ := h.type
  have hparams : sig.params = (Spelling.encodeAll (if sig.tyargs = [] then [] else [b])).flatten ++
      mangleParams (Spelling.encodeAll as) sig.varargs := by
    rw [FnSignature.params, htypes, spelledTypes, mangleParams_eq hargs,
      Spelling.encodeAll_eq, Spelling.encodeAll_eq, Spelling.encodeAll_eq, List.map_append,
      List.flatten_append, List.append_assoc]
  rw [hparams, ← List.append_assoc]
  simp only [mangleFn_function]
  exact .bind h.mangleFnName (.bind (spelledRet h.tyargs hret) (.bind hargs.mangle (.pure _)))

/-- A function has a name that is an identifier, or a number, so it is called in some way. -/
theorem FnName.exists_calls (h : name ≠ [] → Identifier name) (unnamed : Int) :
    ∃ a, FnName.Calls a name unnamed := by
  by_cases hname : name = []
  · exact ⟨.unnamed unnamed, hname ▸ .unnamed unnamed⟩
  · exact ⟨.named ⟨name, h hname⟩, .named ⟨name, h hname⟩ unnamed⟩

/-- What `mangleFn` writes is spelled in some way, if its names can be read. -/
theorem FnSignature.exists_spells
    (bound : ∀ {g type}, inst g = .ok type → ∀ name ∈ type.structNames, Identifier name)
    {parent code : Str}
    (h : Aike.mangleFn inst fuel name unnamed type tyargs parent = .ok code)
    (hname : name ≠ [] → Identifier name) (htype : ∀ n ∈ type.structNames, Identifier n)
    (htyargs : ∀ n ∈ Ty.structNamesAll tyargs, Identifier n) :
    ∃ sig : FnSignature, sig.Spells inst name unnamed type tyargs := by
  cases type with
  | function args ret varargs =>
      rw [mangleFn_function] at h
      obtain ⟨fnName, hfnName, h⟩ := bind_eq_ok h
      obtain ⟨retCode, hret, h⟩ := bind_eq_ok h
      obtain ⟨argCodes, hargs, -⟩ := bind_eq_ok h
      obtain ⟨tyargCodes, hmangled, -⟩ := bind_eq_ok hfnName
      obtain ⟨a, ha⟩ := FnName.exists_calls hname unnamed
      obtain ⟨as, has⟩ := Ty.exists_spellsAll (Ty.exists_spells bound) hmangled htyargs
      obtain ⟨bs, hbs⟩ := Ty.exists_spellsAll (Ty.exists_spells bound) hargs fun n hn =>
        htype n (List.mem_append_left _ hn)
      -- without type arguments, the result type is not read
      have hb : ∃ b, as ≠ [] → ret.Spells inst b := by
        have hlength := has.length_eq
        by_cases hpos : tyargs.length > 0
        · rw [if_pos hpos] at hret
          obtain ⟨b, hb⟩ := Ty.exists_spells bound hret fun n hn =>
            htype n (List.mem_append_right _ hn)
          exact ⟨b, fun _ => hb⟩
        · refine ⟨.void, fun hne => absurd ?_ hne⟩
          exact List.length_eq_zero_iff.mp (by omega)
      obtain ⟨b, hb⟩ := hb
      exact ⟨⟨a, as, spelledTypes as b bs varargs, varargs⟩, ha, has,
        args, ret, bs, b, rfl, hbs, hb, rfl⟩
  | _ => cases h

/-! ### What is around the function -/

/-- A module is written around the functions at its top between an `N` and an `E`. -/
theorem mangleNested_module (m : SpelledName) (fnName : Str) :
    mangleNested (mangleModule m.text) fnName =
      'N' :: (lengthPrefixed m.text ++ (fnName ++ ['E'])) := by
  show mangleNested (lengthPrefixed m.text) fnName = _
  cases hdigits : Nat.toDigits 10 m.text.length with
  | nil => exact absurd hdigits Nat.toDigits_ne_nil
  | cons d ds =>
      have hdigit := Decimal.isDigit_toDigits _ d (by rw [hdigits]; exact List.mem_cons_self)
      have hne : d ≠ '_' := by
        rintro rfl
        cases hdigit
      rw [lengthPrefixed, hdigits, List.cons_append, mangleNested]
      · simp
      · exact List.cons_ne_nil _ _
      · exact fun c parent h => hne (List.cons.inj h).1

/-- A function is written around those in it between a `Z` and an `E`, without its own
`_Z`. -/
theorem mangleNested_function {parent : Str} (h : parent ≠ []) (fnName : Str) :
    mangleNested ('_' :: 'Z' :: parent) fnName = 'Z' :: (parent ++ 'E' :: fnName) := by
  cases parent with
  | nil => exact absurd rfl h
  | cons c parent => simp [mangleNested]

end MangleFn

end Aike
