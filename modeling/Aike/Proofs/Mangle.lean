import Aike.Proofs.Spelling
import Aike.Proofs.Tokenize.Spacing

/-!
# `Aike.Proofs.Mangle`: a mangled type determines the type

A `TypeTerm` is what a type says when its type parameters are replaced: no `Unknown`, and
the names of structs in the place of their definitions. `Denotes` gives the term of a type
under an instantiation. Where no struct is called `string` or `tuple` a term is determined by
its spelling (`TypeTerm.spelling_inj`), and so by its mangled name.
-/

set_option autoImplicit false

namespace Aike

open PrefixCode

/-- The name of a struct: an identifier, and not a name that `mangle` uses itself. -/
structure StructName where
  text : Str
  start : ∃ ch ∈ text.head?, isIdentStart ch = true
  ident : ∀ ch ∈ text, isIdent ch = true
  neString : text ≠ "string".toList
  neTuple : text ≠ "tuple".toList
  deriving DecidableEq

namespace StructName

/-- A struct's name is known by its text, since the other fields are proofs. -/
theorem eq_of_text {name name' : StructName} (h : name.text = name'.text) : name = name' := by
  cases name
  cases name'
  cases h
  rfl

/-- An identifier does not start with a digit. -/
theorem head_not_digit (name : StructName) : ∃ ch ∈ name.text.head?, ch.isDigit = false := by
  -- no character is both the start of an identifier and a digit
  obtain ⟨ch, hch, hstart⟩ := name.start
  refine ⟨ch, hch, Bool.eq_false_iff.mpr fun hdigit => ?_⟩
  have hnot := (@of_isDigit ch hdigit).2.2.1
  rw [hstart] at hnot
  cases hnot

end StructName

/-- A type without `Unknown`s and type parameters. -/
inductive TypeTerm
  | void
  | bool
  | integer
  | float
  | string
  | tuple (fields : List TypeTerm)
  | array (element : TypeTerm)
  | pointer (element : TypeTerm)
  | function (args : List TypeTerm) (ret : TypeTerm) (varargs : Bool)
  | struct (name : StructName) (tyargs : List TypeTerm)

mutual

/-- `Denotes inst t a`: the type is the term, when `inst` gives the types of its type
parameters. -/
inductive Ty.Denotes (inst : GenericId → Except Fault Ty) : Ty → TypeTerm → Prop
  | void : Denotes inst .void .void
  | bool : Denotes inst .bool .bool
  | integer : Denotes inst .integer .integer
  | float : Denotes inst .float .float
  | string : Denotes inst .string .string
  | tuple {fields terms} (h : DenotesAll inst fields terms) :
      Denotes inst (.tuple fields) (.tuple terms)
  | array {element a} (h : Denotes inst element a) : Denotes inst (.array element) (.array a)
  | pointer {element a} (h : Denotes inst element a) :
      Denotes inst (.pointer element) (.pointer a)
  | function {args terms ret a varargs} (hargs : DenotesAll inst args terms)
      (hret : Denotes inst ret a) :
      Denotes inst (.function args ret varargs) (.function terms a varargs)
  | generic {node tyargs g type a} (hinst : inst g = .ok type) (h : Denotes inst type a) :
      Denotes inst (.inst node tyargs (.generic g)) a
  | struct {node tyargs target terms} {name : StructName} (htarget : ∀ g, target ≠ .generic g)
      (hname : node.name = name.text) (h : DenotesAll inst tyargs terms) :
      Denotes inst (.inst node tyargs target) (.struct name terms)

/-- `Denotes`, on lists. -/
inductive Ty.DenotesAll (inst : GenericId → Except Fault Ty) : List Ty → List TypeTerm → Prop
  | nil : DenotesAll inst [] []
  | cons {t a ts as} (head : Denotes inst t a) (tail : DenotesAll inst ts as) :
      DenotesAll inst (t :: ts) (a :: as)

end

/-- The name of a struct, as it is read. -/
def StructName.spelled (name : StructName) : SpelledName := ⟨name.text, name.head_not_digit⟩

namespace TypeTerm

mutual

/-- How a type that is the term is spelled. -/
def spelling : TypeTerm → Spelling
  | .void => .void
  | .bool => .bool
  | .integer => .integer
  | .float => .float
  | .string => .named stringName
  | .tuple fields => .applied tupleName (spellingAll fields)
  | .array element => .array (spelling element)
  | .pointer element => .pointer (spelling element)
  | .function args ret varargs => .function (spellingAll args) (spelling ret) varargs
  | .struct name tyargs => .ofName name.spelled (spellingAll tyargs)

/-- `spelling`, on lists. -/
def spellingAll : List TypeTerm → List Spelling
  | [] => []
  | a :: as => spelling a :: spellingAll as

end

/-- Names that are read alike are the same. -/
theorem spelled_inj {name name' : StructName} (h : name.spelled = name'.spelled) : name = name' :=
  StructName.eq_of_text (congrArg SpelledName.text h)

/-- A named spelling is known by its name and its arguments. -/
theorem ofName_inj {name name' : SpelledName} {as bs : List Spelling}
    (h : Spelling.ofName name as = .ofName name' bs) : name = name' ∧ as = bs := by
  cases as <;> cases bs <;> cases h <;> exact ⟨rfl, rfl⟩

/-- A name that is neither `string` nor `tuple` is the name of a struct. -/
theorem ofName_spelled (name : StructName) (as : List Spelling) :
    Spelling.ofName name.spelled as ≠ .named stringName ∧
      ∀ bs, Spelling.ofName name.spelled as ≠ .applied tupleName bs := by
  constructor
  · intro h
    cases as with
    | nil => exact name.neString (congrArg SpelledName.text (Spelling.named.inj h))
    | cons a as => cases h
  · intro bs h
    cases as with
    | nil => cases h
    | cons a as => exact name.neTuple (congrArg SpelledName.text (Spelling.applied.inj h).1)

/-- The spelling of a term that is no struct is not that of one. -/
theorem spelling_ne_struct {a : TypeTerm} (ha : ∀ name tyargs, a ≠ .struct name tyargs)
    (name : StructName) (tyargs : List TypeTerm) : a.spelling ≠ (struct name tyargs).spelling := by
  intro h
  rw [spelling.eq_def (.struct name tyargs)] at h
  cases a with
  | string => exact (ofName_spelled name _).1 h.symm
  | tuple fields => exact (ofName_spelled name _).2 _ h.symm
  | struct name' tyargs' => exact ha name' tyargs' rfl
  | _ => cases tyargs <;> cases h

mutual

/-- Types that are spelled alike are the same. It is here that a struct must not be called
as a type that is built in. The induction is over the first type. -/
theorem spelling_inj : (a : TypeTerm) → {b : TypeTerm} → a.spelling = b.spelling → a = b
  | .struct name tyargs, b, h => by
      by_cases hb : ∀ name tyargs, b ≠ .struct name tyargs
      · exact absurd h.symm (spelling_ne_struct hb name tyargs)
      · simp only [ne_eq, not_forall, not_not] at hb
        obtain ⟨name', tyargs', rfl⟩ := hb
        obtain ⟨hname, htyargs⟩ := ofName_inj h
        rw [spelled_inj hname, spellingAll_inj tyargs htyargs]
  | .tuple fields, b, h => by
      cases b with
      | tuple fields' => rw [spellingAll_inj fields (Spelling.applied.inj h).2]
      | struct name tyargs => exact absurd h (spelling_ne_struct (by simp) name tyargs)
      | _ => cases h
  | .array element, b, h => by
      cases b with
      | array element' => rw [spelling_inj element (Spelling.array.inj h)]
      | struct name tyargs => exact absurd h (spelling_ne_struct (by simp) name tyargs)
      | _ => cases h
  | .pointer element, b, h => by
      cases b with
      | pointer element' => rw [spelling_inj element (Spelling.pointer.inj h)]
      | struct name tyargs => exact absurd h (spelling_ne_struct (by simp) name tyargs)
      | _ => cases h
  | .function args ret varargs, b, h => by
      cases b with
      | function args' ret' varargs' =>
          obtain ⟨hargs, hret, hvarargs⟩ := Spelling.function.inj h
          rw [spellingAll_inj args hargs, spelling_inj ret hret, hvarargs]
      | struct name tyargs => exact absurd h (spelling_ne_struct (by simp) name tyargs)
      | _ => cases h
  | .void, b, h | .bool, b, h | .integer, b, h | .float, b, h | .string, b, h => by
      cases b with
      | struct name tyargs => exact absurd h (spelling_ne_struct (by simp) name tyargs)
      | _ => first | rfl | cases h

/-- The same for lists of types. -/
theorem spellingAll_inj : (as : List TypeTerm) → {bs : List TypeTerm} →
    spellingAll as = spellingAll bs → as = bs
  | [], [], _ => rfl
  | [], _ :: _, h => nomatch h
  | _ :: _, [], h => nomatch h
  | a :: as, b :: bs, h => by
      obtain ⟨hhead, htail⟩ := List.cons.inj h
      rw [spelling_inj a hhead, spellingAll_inj as htail]

end

end TypeTerm

variable {inst : GenericId → Except Fault Ty}

mutual

/-- A type that is a term is spelled like it. -/
theorem Ty.Denotes.spells {t : Ty} {a : TypeTerm} : t.Denotes inst a → t.Spells inst a.spelling
  | .void => .void
  | .bool => .bool
  | .integer => .integer
  | .float => .float
  | .string => .string
  | .tuple h => .tuple h.spells
  | .array h => .array h.spells
  | .pointer h => .pointer h.spells
  | .function hargs hret => .function hargs.spells hret.spells
  | .generic hinst h => .generic hinst h.spells
  | .struct htarget hname h => .struct htarget hname h.spells

/-- Types that denote some terms are spelled as those terms are. -/
theorem Ty.DenotesAll.spells {ts : List Ty} {as : List TypeTerm} :
    Ty.DenotesAll inst ts as → Ty.SpellsAll inst ts (TypeTerm.spellingAll as)
  | .nil => .nil
  | .cons head tail => .cons head.spells tail.spells

end

/-- Types without `Unknown`s and type parameters have mangled names; no mangled name is a
proper prefix of another one; types with one mangled name are the same term; and the mangled
names of several types, one after the other, determine the types. -/
theorem mangle_uniquelyDecodable (inst inst' : GenericId → Except Fault Ty) :
    (∀ t a, Ty.Denotes inst t a → ∃ n m, ∀ fuel, n ≤ fuel → mangle inst fuel t = .ok m) ∧
    (∀ s a t b, Ty.Denotes inst s a → Ty.Denotes inst' t b → ∀ fuel fuel' m m',
      mangle inst fuel s = .ok m → mangle inst' fuel' t = .ok m' → m <+: m' →
        m = m' ∧ a = b) ∧
    ∀ ss as ts bs, Ty.DenotesAll inst ss as → Ty.DenotesAll inst' ts bs →
      ∀ fuel fuel' ms ms', ss.mapM (mangle inst fuel) = .ok ms →
        ts.mapM (mangle inst' fuel') = .ok ms' → ms.flatten = ms'.flatten → as = bs := by
  refine ⟨fun t a ht => ?_, fun s a t b hs ht fuel fuel' m m' hm hm' hstarts => ?_,
    fun ss as ts bs hss hts fuel fuel' ms ms' hms hms' hflatten => ?_⟩
  -- enough fuel gives the encoding of the spelling
  · obtain ⟨n, hn⟩ := ht.spells.mangle
    exact ⟨n, a.spelling.encode, fun fuel hle => (hn fuel).trans (if_pos hle)⟩
  · cases hs.spells.mangle.eq_of_ok hm
    cases ht.spells.mangle.eq_of_ok hm'
    -- a spelling is read off the longer name, and the other one is it
    have heq : a.spelling = b.spelling := a.spelling.readable.eq_of_prefix hstarts
    exact ⟨congrArg _ heq, TypeTerm.spelling_inj a heq⟩
  · cases hss.spells.mangle.eq_of_ok hms
    cases hts.spells.mangle.eq_of_ok hms'
    exact TypeTerm.spellingAll_inj as
      (Spelling.encodeAll_append_inj stops_nil stops_nil (congrArg (· ++ []) hflatten)).1

/-- The name of a struct `list`. -/
def listName : StructName :=
  ⟨"list".toList, ⟨'l', rfl, rfl⟩, List.all_eq_true.mp rfl, by decide, by decide⟩

/-- `list<int>` and an instance of `list<T>` for `int`, by their mangled names. -/
theorem mangle_uniquelyDecodable_list :
    "N4listIiEE".toList = "N4listIiEE".toList ∧
      TypeTerm.struct listName [.integer] = .struct listName [.integer] :=
  (mangle_uniquelyDecodable (fun _ => .ok .integer) fun _ => .ok .integer).2.1
    (.inst ⟨"list".toList, {}, 0⟩ [.integer] (.struct 0)) (.struct listName [.integer])
    (.inst ⟨"list".toList, {}, 0⟩ [.inst ⟨"T".toList, {}, 0⟩ [] (.generic 0)] (.struct 0))
    (.struct listName [.integer])
    (.struct (fun _ => nofun) rfl (.cons .integer .nil))
    (.struct (fun _ => nofun) rfl (.cons (.generic rfl .integer) .nil))
    3 3 _ _ rfl rfl (List.prefix_refl _)

end Aike
