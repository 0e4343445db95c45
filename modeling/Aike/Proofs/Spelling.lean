import Aike.Lib.PrefixCode
import Aike.Model.Mangle

/-!
# `Aike.Proofs.Spelling`: what a mangled name says

A `Spelling` is what `mangle` reads of a type: the builtin types, and for a struct the name
that is written and the type arguments. `Spells` gives the spelling of a type under the
bindings of the type parameters. Two things have one spelling though they are different
types: structs of one name, and a struct that is called `string` or `tuple` and the builtin
type.

`mangle` is `Spelling.encode` of the spelling, and this is a prefix code
(`Spelling.readable`): the first letter tells the kind, but for `N`, which stands before a
name; the name is read from behind its length; and the arguments end at an `E` or a `z`,
which starts no type. So types with one mangled name are spelled alike.
-/

set_option autoImplicit false

namespace Aike

open PrefixCode

/-- A name that starts with no digit, as the tokenizer makes them. -/
def Identifier (name : Str) : Prop := ∃ ch ∈ name.head?, ch.isDigit = false

instance (name : Str) : Decidable (Identifier name) :=
  decidable_of_iff (name.head?.any fun ch => !ch.isDigit) (by
    cases h : name.head? <;> simp [Identifier, h])

/-- A name that can be read from behind its length. -/
structure SpelledName where
  text : Str
  start : Identifier text

/-- A name is its text. -/
theorem SpelledName.eq_of_text {name name' : SpelledName} (h : name.text = name'.text) :
    name = name' := by
  cases name
  cases name'
  cases h
  rfl

/-- The name under which `mangle` writes the type `string`. -/
def stringName : SpelledName := ⟨"string".toList, by decide⟩

/-- The name under which `mangle` writes tuples. -/
def tupleName : SpelledName := ⟨"tuple".toList, by decide⟩

/-- A type as `mangle` reads it. A name is followed by type arguments or not. -/
inductive Spelling
  | void
  | bool
  | integer
  | float
  | named (name : SpelledName)
  | applied (name : SpelledName) (args : List Spelling)
  | array (element : Spelling)
  | pointer (element : Spelling)
  | function (args : List Spelling) (ret : Spelling) (varargs : Bool)

/-- A name with type arguments, if there are any. -/
def Spelling.ofName (name : SpelledName) : List Spelling → Spelling
  | [] => .named name
  | a :: as => .applied name (a :: as)

mutual

/-- `Spells inst t a`: the type is spelled `a`, when `inst` gives the types of its type
parameters. -/
inductive Ty.Spells (inst : GenericId → Except Fault Ty) : Ty → Spelling → Prop
  | void : Spells inst .void .void
  | bool : Spells inst .bool .bool
  | integer : Spells inst .integer .integer
  | float : Spells inst .float .float
  | string : Spells inst .string (.named stringName)
  | tuple {fields as} (h : SpellsAll inst fields as) :
      Spells inst (.tuple fields) (.applied tupleName as)
  | array {element a} (h : Spells inst element a) : Spells inst (.array element) (.array a)
  | pointer {element a} (h : Spells inst element a) :
      Spells inst (.pointer element) (.pointer a)
  | function {args as ret a varargs} (hargs : SpellsAll inst args as) (hret : Spells inst ret a) :
      Spells inst (.function args ret varargs) (.function as a varargs)
  | generic {node tyargs g type a} (hinst : inst g = .ok type) (h : Spells inst type a) :
      Spells inst (.inst node tyargs (.generic g)) a
  | struct {node tyargs target as} {name : SpelledName} (htarget : ∀ g, target ≠ .generic g)
      (hname : node.name = name.text) (h : SpellsAll inst tyargs as) :
      Spells inst (.inst node tyargs target) (.ofName name as)

/-- `Spells`, on lists. -/
inductive Ty.SpellsAll (inst : GenericId → Except Fault Ty) : List Ty → List Spelling → Prop
  | nil : SpellsAll inst [] []
  | cons {t a ts as} (head : Spells inst t a) (tail : SpellsAll inst ts as) :
      SpellsAll inst (t :: ts) (a :: as)

end

namespace Spelling

mutual

/-- What `mangle` makes of a type with the spelling. -/
def encode : Spelling → Str
  | .void => ['v']
  | .bool => ['b']
  | .integer => ['i']
  | .float => ['f']
  | .named name => 'N' :: (lengthPrefixed name.text ++ ['E'])
  | .applied name args =>
      'N' :: (lengthPrefixed name.text ++ 'I' :: ((encodeAll args).flatten ++ ['E', 'E']))
  | .array element => ['U', '5', 'a', 'r', 'r', 'a', 'y'] ++ encode element
  | .pointer element => ['U', '3', 'p', 't', 'r'] ++ encode element
  | .function args ret varargs =>
      ['F'] ++ encode ret ++ (encodeAll args).flatten ++ (if varargs then ['z'] else []) ++ ['E']

/-- `encode`, on lists. -/
def encodeAll : List Spelling → List Str
  | [] => []
  | a :: as => encode a :: encodeAll as

end

/-- A list is encoded element by element. -/
theorem encodeAll_eq (as : List Spelling) : encodeAll as = as.map encode := by
  induction as with
  | nil => rfl
  | cons a as ih => rw [encodeAll, ih, List.map_cons]

/-- So its encodings one after the other are a `flatMap`, which the prefix code is about. -/
theorem encodeAll_flatten (as : List Spelling) : (encodeAll as).flatten = as.flatMap encode := by
  rw [encodeAll_eq, List.flatMap_def]

/-! ### The first letter -/

/-- A letter that a type starts with. -/
def Starts (ch : Char) : Prop := ch ∈ ['v', 'b', 'i', 'f', 'N', 'U', 'F']

/-- Each spelling starts with a letter of its kind. -/
theorem encode_starts (a : Spelling) : ∃ ch rest, encode a = ch :: rest ∧ Starts ch := by
  cases a <;> exact ⟨_, _, rfl, by simp [Starts]⟩

/-- No type starts with the `E` that ends a list. -/
theorem stops_end (r : Str) : Stops Starts ('E' :: r) := stops_cons (by simp [Starts])

/-- Nor with the `z` of further arguments. -/
theorem stops_varargs (varargs : Bool) (r : Str) :
    Stops Starts ((if varargs then ['z'] else []) ++ 'E' :: r) := by
  cases varargs with
  | false => exact stops_end r
  | true => exact stops_cons (by simp [Starts])

/-! ### Spellings are readable -/

/-- A spelling of one letter that starts no other spelling. -/
theorem letter_readable {a : Spelling} {ch : Char} (ha : encode a = [ch])
    (hb : ∀ b rest, encode b = ch :: rest → a = b) : Readable encode a := by
  intro b r r' h
  rw [ha] at h
  obtain ⟨ch', rest, hcode, -⟩ := encode_starts b
  rw [hcode] at h
  -- the first letter of the other spelling is the same, and it decides
  obtain ⟨rfl, -⟩ := List.cons.inj h
  cases hb b rest hcode
  rw [← hcode, ha] at h
  exact ⟨rfl, List.append_cancel_left h⟩

/-- A name without arguments is read up to the `E` behind it. One with arguments has an
`I` there. -/
theorem named_readable (name : SpelledName) : Readable encode (.named name) := by
  intro b r r' h
  cases b <;> try cases h
  case named name' =>
    simp only [encode, List.cons_append, List.append_assoc, List.cons.injEq, true_and] at h
    obtain ⟨hname, hrest⟩ := lengthPrefixed_append_inj name.start name'.start h
    cases SpelledName.eq_of_text hname
    cases hrest
    exact ⟨rfl, rfl⟩
  case applied name' args =>
    -- after the name there is an `E`, and not an `I`
    simp only [encode, List.cons_append, List.append_assoc, List.cons.injEq, true_and] at h
    obtain ⟨-, hrest⟩ := lengthPrefixed_append_inj name.start name'.start h
    cases hrest

/-- A name with arguments is read up to the second `E`. -/
theorem applied_readable (name : SpelledName) {args : List Spelling}
    (hargs : ∀ a ∈ args, Readable encode a) : Readable encode (.applied name args) := by
  intro b r r' h
  cases b <;> try cases h
  case named name' =>
    simp only [encode, List.cons_append, List.append_assoc, List.cons.injEq, true_and] at h
    obtain ⟨-, hrest⟩ := lengthPrefixed_append_inj name.start name'.start h
    cases hrest
  case applied name' args' =>
    simp only [encode, encodeAll_flatten, List.cons_append, List.nil_append, List.append_assoc,
      List.cons.injEq, true_and] at h
    obtain ⟨hname, hrest⟩ := lengthPrefixed_append_inj name.start name'.start h
    cases SpelledName.eq_of_text hname
    -- the arguments end at the same `E`, as it starts no type
    obtain ⟨rfl, hend⟩ := flatMap_append_inj encode_starts hargs (stops_end _) (stops_end _)
      (List.cons.inj hrest).2
    cases hend
    exact ⟨rfl, rfl⟩

/-- An array is read if its element is. -/
theorem array_readable {element : Spelling} (helement : Readable encode element) :
    Readable encode (.array element) := by
  intro b r r' h
  cases b <;> try cases h
  case array element' =>
    obtain ⟨rfl, hrest⟩ := helement element' r r' (by simpa [encode] using h)
    exact ⟨rfl, hrest⟩

/-- A pointer is read if its element is. -/
theorem pointer_readable {element : Spelling} (helement : Readable encode element) :
    Readable encode (.pointer element) := by
  intro b r r' h
  cases b <;> try cases h
  case pointer element' =>
    obtain ⟨rfl, hrest⟩ := helement element' r r' (by simpa [encode] using h)
    exact ⟨rfl, hrest⟩

/-- A function is read if its types are: the result, and the arguments up to a letter that
starts no type. -/
theorem function_readable {args : List Spelling} {ret : Spelling} {varargs : Bool}
    (hargs : ∀ a ∈ args, Readable encode a) (hret : Readable encode ret) :
    Readable encode (.function args ret varargs) := by
  intro b r r' h
  cases b <;> try cases h
  case function args' ret' varargs' =>
    simp only [encode, encodeAll_flatten, List.cons_append, List.nil_append, List.append_assoc,
      List.cons.injEq, true_and] at h
    obtain ⟨rfl, hrest⟩ := hret ret' _ _ h
    -- the arguments go up to a `z` or an `E`
    obtain ⟨rfl, hend⟩ := flatMap_append_inj encode_starts hargs (stops_varargs varargs r)
      (stops_varargs varargs' r') hrest
    cases varargs <;> cases varargs' <;> cases hend <;> exact ⟨rfl, rfl⟩

mutual

/-- A spelling is determined by a text that starts with its encoding. -/
theorem readable : (a : Spelling) → Readable encode a
  | .void => letter_readable rfl fun b rest h => by cases b <;> first | rfl | cases h
  | .bool => letter_readable rfl fun b rest h => by cases b <;> first | rfl | cases h
  | .integer => letter_readable rfl fun b rest h => by cases b <;> first | rfl | cases h
  | .float => letter_readable rfl fun b rest h => by cases b <;> first | rfl | cases h
  | .named name => named_readable name
  | .applied name args => applied_readable name (readableAll args)
  | .array element => array_readable (readable element)
  | .pointer element => pointer_readable (readable element)
  | .function args ret _ => function_readable (readableAll args) (readable ret)

/-- The same for each element of a list. -/
theorem readableAll : (as : List Spelling) → ∀ a ∈ as, Readable encode a
  | [] => fun _ h => nomatch h
  | a :: as => by
      intro x hx
      rcases List.mem_cons.mp hx with heq | htail
      · rw [heq]
        exact readable a
      · exact readableAll as x htail

end

/-- Two types with one mangled name are spelled alike. -/
theorem encode_inj {a b : Spelling} (h : encode a = encode b) : a = b :=
  a.readable.eq_of_prefix (h ▸ List.prefix_refl _)

/-- A sequence of spellings is determined by their encodings one after the other, up to a
letter that starts no type. -/
theorem encodeAll_append_inj {as bs : List Spelling} {r r' : Str} (hr : Stops Starts r)
    (hr' : Stops Starts r') (h : (encodeAll as).flatten ++ r = (encodeAll bs).flatten ++ r') :
    as = bs ∧ r = r' := by
  rw [encodeAll_flatten, encodeAll_flatten] at h
  exact flatMap_append_inj encode_starts (readableAll as) hr hr' h

end Spelling

/-! ### `mangle` encodes -/

/-- A run on fuel has the result from some amount of it on, and is out of fuel below. -/
def YieldsFrom {β : Type} (run : Nat → Except Fault β) (result : β) : Prop :=
  ∃ n, ∀ fuel, run fuel = if n ≤ fuel then .ok result else .error .outOfFuel

namespace YieldsFrom

variable {β γ δ : Type} {run : Nat → Except Fault β} {v : β}

/-- A result needs no fuel. -/
theorem pure (v : β) : YieldsFrom (fun _ => .ok v) v :=
  ⟨0, fun fuel => (if_pos (Nat.zero_le fuel)).symm⟩

/-- Two runs one after the other need the fuel of the one that needs more. -/
theorem bind {next : β → Nat → Except Fault γ} {w : γ} (hrun : YieldsFrom run v)
    (hnext : YieldsFrom (next v) w) :
    YieldsFrom (fun fuel => run fuel >>= fun x => next x fuel) w := by
  obtain ⟨n, hn⟩ := hrun
  obtain ⟨m, hm⟩ := hnext
  refine ⟨max n m, fun fuel => ?_⟩
  show run fuel >>= _ = _
  rw [hn]
  -- the two amounts of fuel that are enough
  by_cases hle : n ≤ fuel
  case neg =>
    rw [if_neg hle, if_neg (by omega)]
    rfl
  rw [if_pos hle]
  show next v fuel = _
  rw [hm]
  exact if_congr (by omega) rfl rfl

/-- A call costs one. -/
theorem succ {run' : Nat → Except Fault β} (hzero : run' 0 = .error .outOfFuel)
    (hsucc : ∀ fuel, run' (fuel + 1) = run fuel) (h : YieldsFrom run v) : YieldsFrom run' v := by
  obtain ⟨n, hn⟩ := h
  refine ⟨n + 1, fun fuel => ?_⟩
  cases fuel with
  | zero => rw [hzero, if_neg (Nat.not_succ_le_zero n)]
  | succ fuel =>
      rw [hsucc, hn]
      exact if_congr (by omega) rfl rfl

/-- The result of a run that has one. -/
theorem eq_of_ok {w : β} {fuel : Nat} (h : YieldsFrom run v) (hw : run fuel = .ok w) : w = v := by
  obtain ⟨n, hn⟩ := h
  rw [hn] at hw
  split at hw
  case isTrue => exact (Except.ok.inj hw).symm
  case isFalse => cases hw

end YieldsFrom

variable {inst : GenericId → Except Fault Ty}

/-- A type that is a name: the arguments, and then what is around them. -/
theorem mangle_struct {node : InstanceNode} {tyargs : List Ty} {target : TyTarget}
    (htarget : ∀ g, target ≠ .generic g) (fuel : Nat) :
    mangle inst (fuel + 1) (.inst node tyargs target) =
      (tyargs.mapM (mangle inst fuel) >>= fun tyargs =>
        .ok (['N'] ++ mangleName node.name ++ mangleTyargs tyargs ++ ['E'])) := by
  cases target with
  | unresolved => rfl
  | struct d => rfl
  | generic g => exact absurd rfl (htarget g)

/-- A name with type arguments is written as it is read. -/
theorem encode_ofName (name : SpelledName) (as : List Spelling) :
    (Spelling.ofName name as).encode =
      ['N'] ++ mangleName name.text ++ mangleTyargs (Spelling.encodeAll as) ++ ['E'] := by
  cases as with
  | nil =>
      show 'N' :: (lengthPrefixed name.text ++ ['E']) = ['N'] ++ mangleName name.text ++ [] ++ ['E']
      simp [mangleName, lengthPrefixed]
  | cons a as =>
      rw [Spelling.encodeAll, mangleTyargs, List.length_cons, if_pos (Nat.succ_pos _)]
      simp [Spelling.ofName, Spelling.encode, Spelling.encodeAll, mangleName, lengthPrefixed]

mutual

/-- `mangle` of a type is the encoding of its spelling. -/
theorem Ty.Spells.mangle {t : Ty} {a : Spelling} :
    t.Spells inst a → YieldsFrom (fun fuel => mangle inst fuel t) a.encode
  -- a type of one letter takes one unit of fuel
  | .void => .succ rfl (fun _ => rfl) (.pure _)
  | .bool => .succ rfl (fun _ => rfl) (.pure _)
  | .integer => .succ rfl (fun _ => rfl) (.pure _)
  | .float => .succ rfl (fun _ => rfl) (.pure _)
  | .string => .succ rfl (fun _ => rfl) (.pure _)
  | .tuple h => .succ rfl (fun _ => rfl) (.bind h.mangle (.pure _))
  | .array h => .succ rfl (fun _ => rfl) (.bind h.mangle (.pure _))
  | .pointer h => .succ rfl (fun _ => rfl) (.bind h.mangle (.pure _))
  -- the return type comes first, and then the arguments
  | .function hargs hret =>
      .succ rfl (fun _ => rfl) (.bind hret.mangle (.bind hargs.mangle (.pure _)))
  | .generic (g := g) hinst h =>
      .succ rfl (fun fuel => by
        show (inst g >>= fun type => Aike.mangle inst fuel type) = _
        rw [hinst]
        rfl) h.mangle
  | .struct htarget hname h =>
      .succ rfl (fun fuel => by rw [mangle_struct htarget, hname]) (.bind h.mangle (by
        rw [encode_ofName]
        exact .pure _))

/-- The same for a list of types. -/
theorem Ty.SpellsAll.mangle {ts : List Ty} {as : List Spelling} :
    Ty.SpellsAll inst ts as →
      YieldsFrom (fun fuel => ts.mapM (Aike.mangle inst fuel)) (Spelling.encodeAll as)
  | .nil => .pure []
  | .cons head tail => by
      simp only [List.mapM_cons]
      exact .bind head.mangle (.bind tail.mangle (.pure _))

end

/-! ### What is mangled is spelled -/

mutual

/-- The names of the structs in a type. -/
def Ty.structNames : Ty → List Str
  | .tuple fields => structNamesAll fields
  | .array element => structNames element
  | .pointer element => structNames element
  | .function args ret _ => structNamesAll args ++ structNames ret
  | .inst node tyargs target =>
      match target with
      | .generic _ => []
      | _ => node.name :: structNamesAll tyargs
  | .unknown _ | .void | .bool | .integer | .float | .string => []

/-- `Ty.structNames`, on a list. -/
def Ty.structNamesAll : List Ty → List Str
  | [] => []
  | t :: ts => structNames t ++ structNamesAll ts

end

/-- A run of `mapM` over a list runs the function on its head and on its tail. -/
theorem mapM_cons_eq_ok {β γ : Type} {f : β → Except Fault γ} {x : β} {xs : List β} {ys : List γ}
    (h : (x :: xs).mapM f = .ok ys) : ∃ y ys', f x = .ok y ∧ xs.mapM f = .ok ys' := by
  rw [List.mapM_cons] at h
  cases hy : f x with
  | error e =>
      rw [hy] at h
      cases h
  | ok y =>
      cases hys : xs.mapM f with
      | error e =>
          rw [hy, hys] at h
          cases h
      | ok ys' => exact ⟨y, ys', rfl, rfl⟩

/-- Two steps that end have a result between them. -/
theorem bind_eq_ok {β γ : Type} {m : Except Fault β} {f : β → Except Fault γ} {y : γ}
    (h : m >>= f = .ok y) : ∃ x, m = .ok x ∧ f x = .ok y := by
  cases m with
  | error e => cases h
  | ok x => exact ⟨x, rfl, h⟩

/-- The same for a list, if it holds for its types at this fuel. -/
theorem Ty.exists_spellsAll {fuel : Nat}
    (ih : ∀ {t : Ty} {code : Str}, Aike.mangle inst fuel t = .ok code →
      (∀ name ∈ t.structNames, Identifier name) → ∃ a, t.Spells inst a)
    {ts : List Ty} {codes : List Str} (h : ts.mapM (Aike.mangle inst fuel) = .ok codes)
    (names : ∀ name ∈ Ty.structNamesAll ts, Identifier name) : ∃ as, Ty.SpellsAll inst ts as := by
  induction ts generalizing codes with
  | nil => exact ⟨[], .nil⟩
  | cons t ts ihts =>
      obtain ⟨code, codes', ht, hts⟩ := mapM_cons_eq_ok h
      obtain ⟨a, ha⟩ := ih ht fun name hname => names name (List.mem_append_left _ hname)
      obtain ⟨as, has⟩ := ihts hts fun name hname => names name (List.mem_append_right _ hname)
      exact ⟨a :: as, .cons ha has⟩

/-- A type that `mangle` writes is spelled in some way, if its names can be read and those
of the types that the type parameters are bound to. -/
theorem Ty.exists_spells
    (bound : ∀ {g type}, inst g = .ok type → ∀ name ∈ type.structNames, Identifier name)
    {fuel : Nat} {t : Ty} {code : Str} (h : Aike.mangle inst fuel t = .ok code)
    (names : ∀ name ∈ t.structNames, Identifier name) : ∃ a, t.Spells inst a := by
  induction fuel generalizing t code with
  | zero => cases h
  | succ fuel ih =>
      cases t with
      | void => exact ⟨_, .void⟩
      | bool => exact ⟨_, .bool⟩
      | integer => exact ⟨_, .integer⟩
      | float => exact ⟨_, .float⟩
      | string => exact ⟨_, .string⟩
      | unknown u => cases h
      | tuple fields =>
          obtain ⟨codes, hfields, -⟩ := bind_eq_ok h
          obtain ⟨as, has⟩ := Ty.exists_spellsAll ih hfields names
          exact ⟨_, .tuple has⟩
      | array element =>
          obtain ⟨code, helement, -⟩ := bind_eq_ok h
          obtain ⟨a, ha⟩ := ih helement names
          exact ⟨_, .array ha⟩
      | pointer element =>
          obtain ⟨code, helement, -⟩ := bind_eq_ok h
          obtain ⟨a, ha⟩ := ih helement names
          exact ⟨_, .pointer ha⟩
      | function args ret varargs =>
          obtain ⟨code, hret, h⟩ := bind_eq_ok h
          obtain ⟨codes, hargs, -⟩ := bind_eq_ok h
          obtain ⟨b, hb⟩ := ih hret fun name hname => names name (List.mem_append_right _ hname)
          obtain ⟨as, has⟩ := Ty.exists_spellsAll ih hargs fun name hname =>
            names name (List.mem_append_left _ hname)
          exact ⟨_, .function has hb⟩
      | inst node tyargs target =>
          have hstruct : (∀ g, target ≠ .generic g) →
              (∀ name ∈ node.name :: Ty.structNamesAll tyargs, Identifier name) →
              ∃ a, Ty.Spells inst (.inst node tyargs target) a := by
            intro htarget names
            rw [mangle_struct htarget] at h
            obtain ⟨codes, htyargs, -⟩ := bind_eq_ok h
            obtain ⟨as, has⟩ := Ty.exists_spellsAll ih htyargs fun name hname =>
              names name (List.mem_cons_of_mem _ hname)
            let spelled : SpelledName := ⟨node.name, names _ List.mem_cons_self⟩
            exact ⟨.ofName spelled as, .struct htarget rfl has⟩
          cases target with
          | generic g =>
              obtain ⟨type, hinst, htype⟩ := bind_eq_ok h
              obtain ⟨a, ha⟩ := ih htype (bound hinst)
              exact ⟨a, .generic hinst ha⟩
          | unresolved => exact hstruct nofun names
          | struct d => exact hstruct nofun names

end Aike
