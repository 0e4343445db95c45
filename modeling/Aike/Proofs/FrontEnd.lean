import Aike.Model.FrontEnd
import Aike.Proofs.Modules.Search
import Aike.Proofs.Parse.Total
import Aike.Proofs.Tokenize

/-!
# `Aike.Proofs.FrontEnd`: what the front end makes of files

What becomes of one file: a blank text has no tokens, so `parse` returns a block and not
a module for it (`parseModule_of_blank`), and for the empty text it asks for the indent of
a line that is not there (`parseModule_of_nil`). From any other text it makes a module or a
diagnostic (`parseModule_of_not_blank`).

`frontEnd_safe_iff`: the front end fails no assertion exactly when no file is blank
but for those that a diagnostic about another file comes before.
-/

set_option autoImplicit false

namespace Aike

/-! ### Imports -/

/-- What is gathered from a node is the name of a module. -/
def Ast.NamedImport (a : Ast) : Prop := ∀ i ∈ moduleGatherImportsNode a, IsModuleName i.1

/-- Every import of a tree has a name, whatever identities its nodes are given. -/
def Tree.NamesImports (t : Tree) : Prop :=
  ∀ s, ∀ a ∈ visitAst (t.allocate s).1, a.NamedImport

section NamesImports

/-- A node that is no import names none, so there is nothing to check. -/
theorem namedImport_of_eq_nil {a : Ast} (h : moduleGatherImportsNode a = []) : a.NamedImport := by
  intro i hi
  rw [h] at hi
  exact absurd hi List.not_mem_nil

/-- A node that imports nothing itself. -/
theorem forall_visit_cons {a : Ast} {rest : List Ast} (hnode : moduleGatherImportsNode a = [])
    (hrest : ∀ c ∈ rest, c.NamedImport) : ∀ c ∈ a :: rest, c.NamedImport :=
  List.forall_mem_cons.mpr ⟨namedImport_of_eq_nil hnode, hrest⟩

/-- What holds at every node of two lists holds at every node of both together. -/
theorem forall_visit_append {l₁ l₂ : List Ast} (h₁ : ∀ c ∈ l₁, c.NamedImport)
    (h₂ : ∀ c ∈ l₂, c.NamedImport) : ∀ c ∈ l₁ ++ l₂, c.NamedImport :=
  List.forall_mem_append.mpr ⟨h₁, h₂⟩

/-- The imports of a list of trees have names if those of each tree do, whatever
identities were given out before. -/
theorem namesImports_all {ts : List Tree} (h : ∀ t ∈ ts, t.NamesImports) (s : Allocation) :
    ∀ a ∈ visitAstAll (Tree.allocateAll ts s).1, a.NamedImport := by
  induction ts generalizing s with
  | nil => exact List.forall_mem_nil _
  | cons t ts ih =>
      rw [List.forall_mem_cons] at h
      rw [Tree.allocateAll]
      exact forall_visit_append (h.1 _) (ih h.2 _)

/-- The same for the initial values of a literal's fields. -/
theorem namesImports_fields {fields : List (Named × Tree)}
    (h : ∀ f ∈ fields, f.2.NamesImports) (s : Allocation) :
    ∀ a ∈ visitAstFields (Tree.allocateFields fields s).1, a.NamedImport := by
  induction fields generalizing s with
  | nil => exact List.forall_mem_nil _
  | cons f fields ih =>
      rw [List.forall_mem_cons] at h
      rw [Tree.allocateFields]
      exact forall_visit_append (h.1 _) (ih h.2 _)

/-- The same for a part that a tree may lack. -/
theorem namesImports_option {o : Option Tree} (h : ∀ t ∈ o, t.NamesImports) (s : Allocation) :
    ∀ a ∈ visitAstOption (Tree.allocateOption o s).1, a.NamedImport := by
  cases o with
  | none => exact List.forall_mem_nil _
  | some t => exact h t rfl s

/-- The same for the defaults of grouped fields. Each group allocates its default once. -/
theorem namesImports_defaults {groups : List (List Named × TyTree × Option Tree)}
    (h : ∀ g ∈ groups, ∀ t ∈ g.2.2, t.NamesImports) (s : Allocation) :
    ∀ a ∈ visitAstDefaults ((Tree.allocateGroups groups s).1.map Prod.fst), a.NamedImport := by
  have happend : ∀ (l₁ l₂ : List (FieldDecl × Option Ast)),
      visitAstDefaults (l₁ ++ l₂) = visitAstDefaults l₁ ++ visitAstDefaults l₂ := by
    intro l₁ l₂
    induction l₁ with
    | nil => rfl
    | cons c l₁ ih =>
        rw [List.cons_append, visitAstDefaults, ih, visitAstDefaults, List.append_assoc]
  induction groups generalizing s with
  | nil => exact List.forall_mem_nil _
  | cons g groups ih =>
      rw [List.forall_mem_cons] at h
      rw [Tree.allocateGroups]
      show ∀ a ∈ visitAstDefaults ((_ ++ _ : List ((FieldDecl × Option Ast) × Ty)).map Prod.fst),
        a.NamedImport
      rw [List.map_append, happend, List.map_map]
      refine forall_visit_append ?_ (ih h.2 _)
      -- every name of the group has the same default
      have hdefault := namesImports_option h.1 (g.2.1.allocate s).2
      generalize (Tree.allocateOption g.2.2 (g.2.1.allocate s).2).1 = expr at hdefault
      have hnames : ∀ names : List Named, ∀ a ∈ visitAstDefaults
          (names.map fun name => ((⟨name.name, name.location⟩, expr) : FieldDecl × Option Ast)),
          a.NamedImport := by
        intro names
        induction names with
        | nil => exact List.forall_mem_nil _
        | cons name names ih => exact forall_visit_append hdefault ih
      exact hnames g.1

/-- Every tree that the parser builds names its imports if its parts do. An import itself
takes its name from `parseImport`. -/
theorem treeClosed_namesImports : TreeClosed Tree.NamesImports where
  literalVoid l s := forall_visit_cons rfl (List.forall_mem_nil _)
  literalBool l value s := forall_visit_cons rfl (List.forall_mem_nil _)
  literalInteger l value s := forall_visit_cons rfl (List.forall_mem_nil _)
  literalFloat l value s := forall_visit_cons rfl (List.forall_mem_nil _)
  literalString l value s := forall_visit_cons rfl (List.forall_mem_nil _)
  literalTuple l fields h s := forall_visit_cons rfl (namesImports_all h _)
  literalArray l elements h s := forall_visit_cons rfl (namesImports_all h _)
  literalStruct l type name fields h s := by
    cases type with
    | none => exact forall_visit_cons rfl (namesImports_fields h _)
    | some type => exact forall_visit_cons rfl (namesImports_fields h _)
  ident l name tyargs s := forall_visit_cons rfl (List.forall_mem_nil _)
  member l expr field h s := forall_visit_cons rfl (h _)
  block l body h s := forall_visit_cons rfl (namesImports_all h _)
  call l expr args h hargs s :=
    forall_visit_cons rfl (forall_visit_append (h _) (namesImports_all hargs _))
  unary l op expr h s := forall_visit_cons rfl (h _)
  binary l op left right h h' s := forall_visit_cons rfl (forall_visit_append (h _) (h' _))
  index l expr idx h h' s := forall_visit_cons rfl (forall_visit_append (h _) (h' _))
  assign l left right h h' s := forall_visit_cons rfl (forall_visit_append (h _) (h' _))
  ifThen l cond thenbody h h' s := forall_visit_cons rfl (forall_visit_append (h _) (h' _))
  ifElse l cond thenbody elsebody h h' h'' s :=
    forall_visit_cons rfl (forall_visit_append (forall_visit_append (h _) (h' _)) (h'' _))
  forIn l var index expr body h h' s := forall_visit_cons rfl (forall_visit_append (h _) (h' _))
  whileLoop l expr body h h' s := forall_visit_cons rfl (forall_visit_append (h _) (h' _))
  fn l id decl h s := forall_visit_cons rfl (h _)
  llvm l code s := forall_visit_cons rfl (List.forall_mem_nil _)
  fnDecl l var tyargs args attributes body ret varargs hvar h s :=
    forall_visit_cons rfl (namesImports_option h _)
  varDecl l var expr h s := forall_visit_cons rfl (h _)
  tyDecl l name tyargs fields h s := forall_visit_cons rfl (namesImports_defaults h _)
  importName l name h s := by
    refine List.forall_mem_cons.mpr ⟨fun i hi => ?_, List.forall_mem_nil _⟩
    rw [List.mem_singleton.mp hi]
    exact h

end NamesImports

/-! ### One file -/

/-- A module, as the parser returns it. -/
def Tree.IsModule (name : Str) (root : Tree) : Prop :=
  ∃ l body, root = .module l name body [] ∧ body.NamesImports

/-- A diagnostic ends the parsing of a file. -/
def Rejected (file : SourceFile) : Prop := ∃ d, parseModule file = .error (.panic d)

/-- The output knows the file that it was opened for, so a diagnostic about it can be
printed. -/
theorem knows_ofFile (file : SourceFile) : (Output.ofFile file).Knows file.path file.contents :=
  if_pos rfl

/-- An empty file fails the assertion of the parser that there is a token. -/
theorem parseModule_of_nil {file : SourceFile} (h : file.contents = []) :
    parseModule file = .error (.fault .assertion) := by
  unfold parseModule
  rw [h]
  rfl

/-- A file of blanks parses to an empty block, which is no module. -/
theorem parseModule_of_blank {file : SourceFile} (h : Blank file.contents)
    (hne : file.contents ≠ []) : parseModule file = .ok (.block {} []) := by
  obtain ⟨lines, hlines, htokens⟩ : ∃ lines,
      parseLines (.ofFile file) file.path file.contents = .ok lines ∧
        tokenize (.ofFile file) file.path file.contents = .ok ⟨lines, []⟩ := tokenize_of_blank h
  obtain ⟨indent, rest, rfl⟩ :=
    (parseLines_delivers (knows_ofFile file)).of_ok hlines hne
  unfold parseModule
  rw [htokens]
  rfl

/-- A file that is not blank is a module, or there is a diagnostic. -/
theorem parseModule_of_not_blank {file : SourceFile} (h : ¬ Blank file.contents) :
    (∃ root, parseModule file = .ok root ∧ root.IsModule file.name) ∨ Rejected file := by
  have hne : file.contents ≠ [] := by
    intro hnil
    rw [hnil] at h
    exact h (by decide)
  unfold Rejected parseModule
  rcases (tokenize_sound (knows_ofFile file)).cases with ⟨tokens, htokens, hsound⟩ | ⟨d, hd⟩
  · have htokensNe := tokens_ne_nil_of_not_blank h htokens
    rw [htokens]
    show (∃ root, parseNamed _ tokens _ = _ ∧ _) ∨ ∃ d, parseNamed _ tokens _ = _
    rcases parse_sound (hsound hne) treeClosed_namesImports with ⟨body, hbody, himports⟩ | ⟨d, hd⟩
    · left
      obtain ⟨t, rest, hcons⟩ := List.exists_cons_of_ne_nil htokensNe
      refine ⟨.module t.location file.name (.block {} body) [], ?_, _, _, rfl,
        treeClosed_namesImports.block _ _ himports⟩
      unfold parseNamed
      rw [hbody, hcons]
      rfl
    · right
      refine ⟨d, ?_⟩
      unfold parseNamed
      rw [hd]
      rfl
  · right
    rw [hd]
    exact ⟨d, rfl⟩

/-! ### All files -/

/-- A blank file is excused by a diagnostic about another file, one that was read
before it when it is empty. -/
def Excused (files : List SourceFile) (i : Nat) (file : SourceFile) : Prop :=
  ∃ j other, files[j]? = some other ∧ Rejected other ∧ (file.contents = [] → j < i)

/-- What a file that is not rejected parses to, before and after the prelude is
added. -/
def ParsesTo (disablePrelude : Bool) (file : SourceFile) (root : Tree) : Prop :=
  ∃ parsed, parseModule file = .ok parsed ∧ root = parsed.addPrelude disablePrelude

/-- An empty file is not rejected, as the assertion comes before any diagnostic. -/
theorem not_rejected_of_nil {file : SourceFile} (h : file.contents = []) : ¬ Rejected file := by
  rintro ⟨d, hd⟩
  rw [parseModule_of_nil h] at hd
  cases hd

/-- The files are read in order, up to the first that is rejected or empty. -/
theorem parseModules_cases (disablePrelude : Bool) (files : List SourceFile) :
    (∃ d, parseModules disablePrelude files = .error (.panic d) ∧
      ∃ (j : Nat) (other : SourceFile), files[j]? = some other ∧ Rejected other ∧
        ∀ k < j, ∀ file : SourceFile, files[k]? = some file → file.contents ≠ []) ∨
    (∃ f, parseModules disablePrelude files = .error (.fault f) ∧
      ∃ (k : Nat) (file : SourceFile), files[k]? = some file ∧ file.contents = [] ∧
        ∀ j < k, ∀ other : SourceFile, files[j]? = some other → ¬ Rejected other) ∨
    (∃ roots, parseModules disablePrelude files = .ok roots ∧
      (∀ file ∈ files, ¬ Rejected file ∧ file.contents ≠ []) ∧
      List.Forall₂ (ParsesTo disablePrelude) files roots) := by
  induction files with
  | nil => exact .inr (.inr ⟨[], rfl, List.forall_mem_nil _, .nil⟩)
  | cons file files ih =>
      by_cases hnil : file.contents = []
      · refine .inr (.inl ⟨.assertion, ?_, 0, file, rfl, hnil, fun j hj =>
          absurd hj (Nat.not_lt_zero j)⟩)
        rw [parseModules, parseModule_of_nil hnil]
        rfl
      by_cases hrejected : Rejected file
      · refine .inl ?_
        obtain ⟨d, hd⟩ := hrejected
        refine ⟨d, ?_, 0, file, rfl, ⟨d, hd⟩, fun k hk => absurd hk (Nat.not_lt_zero k)⟩
        rw [parseModules, hd]
        rfl
      obtain ⟨root, hroot⟩ : ∃ root, parseModule file = .ok root := by
        by_cases hblank : Blank file.contents
        · exact ⟨_, parseModule_of_blank hblank hnil⟩
        · obtain ⟨root, hroot, -⟩ := (parseModule_of_not_blank hblank).resolve_right hrejected
          exact ⟨root, hroot⟩
      -- the rest decides
      have hrest : parseModules disablePrelude (file :: files) =
          (parseModules disablePrelude files >>= fun roots =>
            return root.addPrelude disablePrelude :: roots) := by
        rw [parseModules, hroot]
        rfl
      rw [hrest]
      rcases ih with ⟨d, hd, j, other, hj, hother, hbefore⟩ |
        ⟨f, hf, k, empty, hk, hempty, hbefore⟩ | ⟨roots, hroots, hall, hforall⟩
      · refine .inl ⟨d, by rw [hd]; rfl, j + 1, other, hj, hother, fun k hk file' hfile' => ?_⟩
        cases k with
        | zero =>
            cases hfile'
            exact hnil
        | succ k => exact hbefore k (by omega) file' hfile'
      · refine .inr
          (.inl ⟨f, by rw [hf]; rfl, k + 1, empty, hk, hempty, fun j hj other hother => ?_⟩)
        cases j with
        | zero =>
            cases hother
            exact hrejected
        | succ j => exact hbefore j (by omega) other hother
      · refine .inr (.inr ⟨root.addPrelude disablePrelude :: roots, by rw [hroots]; rfl,
          List.forall_mem_cons.mpr ⟨⟨hrejected, hnil⟩, hall⟩, .cons ⟨root, hroot, rfl⟩ hforall⟩)

/-- The root of a module that is called `name`. -/
def IsModuleRoot (name : Str) (root : Tree) : Prop :=
  ∃ l body autoimports, root = .module l name body autoimports

/-- The files, as `compileModules` has read them when it sorts the modules: no name
twice, and every module that is imported was read. -/
structure FilesLoaded (disablePrelude : Bool) (files : List SourceFile) : Prop where
  distinct : (files.map SourceFile.name).Nodup
  closed : ∀ roots, parseModules disablePrelude files = .ok roots →
    ∀ root ∈ (allocateModules roots).1, ∀ i ∈ moduleGatherImports root,
      i.1 ∈ files.map SourceFile.name

/-- The front end ends with a diagnostic, or with one module for each file, and then
`moduleSort` fails no assertion either, and ends where the imports have no cycle. -/
def FrontEndSafe (iteration : ModuleMap → ModuleMap) (disablePrelude : Bool)
    (files : List SourceFile) : Prop :=
  match parseModules disablePrelude files with
  | .error (.panic _) => True
  | .error (.fault _) => False
  | .ok roots =>
      List.Forall₂ (fun file root => IsModuleRoot file.name root) files roots ∧
        (∀ fuel, sortModules fuel iteration roots ≠ .error .assertion) ∧
        (Reach.Acyclic (ImportsModule (allocateModules roots).1) →
          ∃ result, SortsTo iteration (allocateModules roots).1 result [])

section Sorting

variable {disablePrelude : Bool} {files : List SourceFile} {roots : List Tree}

/-- The trees of the modules, with identities. -/
theorem allocateAll_forall₂ (roots : List Tree) (s : Allocation) :
    List.Forall₂ (fun root a => ∃ s, a = (Tree.allocate root s).1) roots
      (Tree.allocateAll roots s).1 := by
  induction roots generalizing s with
  | nil => exact .nil
  | cons root roots ih =>
      rw [Tree.allocateAll]
      exact .cons ⟨s, rfl⟩ (ih _)

/-- The prelude is called by the name of a module, so adding its import keeps the names in
order. -/
theorem isModuleName_prelude : IsModuleName "std.prelude".toList := by
  refine ⟨by decide, fun ch hch => ?_⟩
  have hall : "std.prelude".toList.all (fun ch => isIdent ch || ch = '.') = true := by decide
  simpa using List.all_eq_true.mp hall ch hch

/-- A file that parses to a module: its name and its imports. -/
theorem ParsesTo.module {file : SourceFile} {root : Tree} (h : ParsesTo disablePrelude file root)
    (hblank : ¬ Blank file.contents) (s : Allocation) :
    IsModuleRoot file.name root ∧
      (∃ n body autoimports, (Tree.allocate root s).1 = .module n file.name body autoimports) ∧
      ∀ i ∈ moduleGatherImports (Tree.allocate root s).1, IsModuleName i.1 := by
  obtain ⟨parsed, hparsed, rfl⟩ := h
  have hok : ∀ d, parseModule file ≠ .error (.panic d) := by
    intro d hd
    rw [hparsed] at hd
    cases hd
  obtain ⟨root, hroot, l, body, rfl, himports⟩ :=
    (parseModule_of_not_blank hblank).resolve_right fun ⟨d, hd⟩ => hok d hd
  rw [hparsed] at hroot
  cases hroot
  refine ⟨⟨_, _, _, rfl⟩, ⟨_, _, _, rfl⟩, fun i hi => ?_⟩
  obtain ⟨a, ha, hia⟩ := List.mem_flatMap.mp hi
  rcases List.mem_cons.mp ha with rfl | ha
  · -- the prelude has a name
    obtain ⟨name, hname, rfl⟩ := List.mem_map.mp hia
    show IsModuleName name
    split at hname
    · exact absurd hname List.not_mem_nil
    · rw [List.nil_append] at hname
      rw [List.mem_singleton.mp hname]
      exact isModuleName_prelude
  · exact himports _ a ha i hia

/-- What the files parse to is a list of modules, each called as its file is, that import
nothing but one another. It is what `moduleSort` is stated for. -/
theorem moduleList_of_parses (hloaded : FilesLoaded disablePrelude files)
    (hparses : parseModules disablePrelude files = .ok roots)
    (hforall : List.Forall₂ (ParsesTo disablePrelude) files roots)
    (hblank : ∀ file ∈ files, ¬ Blank file.contents) :
    ModuleList (allocateModules roots).1 ∧
      ∀ root ∈ (allocateModules roots).1, ∀ i ∈ moduleGatherImports root, i.1 ≠ [] := by
  -- File by file: the module has the name of its file, and names its imports.
  have hnames : ∀ (files : List SourceFile) (roots : List Tree) (asts : List Ast),
      List.Forall₂ (ParsesTo disablePrelude) files roots →
      List.Forall₂ (fun root a => ∃ s, a = (Tree.allocate root s).1) roots asts →
      (∀ file ∈ files, ¬ Blank file.contents) →
      asts.map Ast.moduleName = files.map SourceFile.name ∧
      (∀ a ∈ asts, ∃ n name body autoimports, a = .module n name body autoimports) ∧
      ∀ a ∈ asts, ∀ i ∈ moduleGatherImports a, i.1 ≠ [] := by
    intro files roots asts h
    induction h generalizing asts with
    | nil =>
        intro h _
        cases h
        exact ⟨rfl, List.forall_mem_nil _, List.forall_mem_nil _⟩
    | @cons file root files roots hfile _ ih =>
        intro h hblank
        cases h with
        | cons ha hasts =>
            rw [List.forall_mem_cons] at hblank
            obtain ⟨s, rfl⟩ := ha
            obtain ⟨-, ⟨n, body, autoimports, heq⟩, himports⟩ := hfile.module hblank.1 s
            obtain ⟨hnames, hmodules, hnamed⟩ := ih _ hasts hblank.2
            refine ⟨?_, List.forall_mem_cons.mpr ⟨⟨n, _, body, autoimports, heq⟩, hmodules⟩,
              List.forall_mem_cons.mpr ⟨fun i hi => (himports i hi).ne_nil, hnamed⟩⟩
            rw [List.map_cons, List.map_cons, hnames, heq]
            rfl
  obtain ⟨hmap, hmodules, hnamed⟩ :=
    hnames files roots _ hforall (allocateAll_forall₂ roots {}) hblank
  have hmap' : (allocateModules roots).1.map Ast.moduleName = files.map SourceFile.name := hmap
  refine ⟨⟨hmodules, ?_, ?_⟩, hnamed⟩
  · rw [hmap']
    exact hloaded.distinct
  · rw [hmap']
    exact hloaded.closed roots hparses

end Sorting

/-- **No assertion fails.** The front end is safe exactly when every blank file is
excused by a diagnostic about another one. -/
theorem frontEnd_safe_iff {disablePrelude : Bool} {files : List SourceFile}
    {iteration : ModuleMap → ModuleMap} (hloaded : FilesLoaded disablePrelude files)
    (hi : ∀ map, (iteration map).Perm map) :
    FrontEndSafe iteration disablePrelude files ↔
      ∀ i file, files[i]? = some file → Blank file.contents → Excused files i file := by
  unfold FrontEndSafe
  rcases parseModules_cases disablePrelude files with
    ⟨d, hd, j, other, hj, hother, hbefore⟩ | ⟨f, hf, k, empty, hk, hempty, hbefore⟩ |
      ⟨roots, hroots, hall, hforall⟩
  · rw [hd]
    refine iff_of_true trivial fun i file hfile _ => ⟨j, other, hj, hother, fun hnil => ?_⟩
    by_contra hij
    rcases Nat.lt_or_eq_of_le (Nat.le_of_not_lt hij) with hlt | rfl
    · exact hbefore i hlt file hfile hnil
    · rw [hj] at hfile
      cases hfile
      exact not_rejected_of_nil hnil hother
  · rw [hf]
    refine iff_of_false id fun h => ?_
    have hblank : Blank empty.contents := by
      rw [hempty]
      decide
    obtain ⟨j, other, hj, hother, hlt⟩ := h k empty hk hblank
    exact hbefore j (hlt hempty) other hj hother
  · rw [hroots]
    show _ ∧ _ ↔ _
    constructor
    · rintro ⟨hmodules, -⟩ i file hfile hblank
      -- a blank file parses to a block
      have hmem := List.mem_of_getElem? hfile
      obtain ⟨hlt, hget⟩ := List.getElem?_eq_some_iff.mp hfile
      have hlt' : i < roots.length := hforall.length_eq ▸ hlt
      obtain ⟨parsed, hparsed, hroot⟩ := List.forall₂_iff_get.mp hforall |>.2 i hlt hlt'
      obtain ⟨l, body, autoimports, hmodule⟩ := List.forall₂_iff_get.mp hmodules |>.2 i hlt hlt'
      have hfileEq : files.get ⟨i, hlt⟩ = file := hget
      rw [hfileEq, parseModule_of_blank hblank (hall file hmem).2] at hparsed
      cases hparsed
      rw [hroot] at hmodule
      cases hmodule
    · intro h
      have hblank : ∀ file ∈ files, ¬ Blank file.contents := by
        intro file hmem hb
        obtain ⟨i, hlt, hget⟩ := List.mem_iff_getElem.mp hmem
        obtain ⟨j, other, hj, hother, -⟩ :=
          h i file (List.getElem?_eq_some_iff.mpr ⟨hlt, hget⟩) hb
        exact (hall other (List.mem_of_getElem? hj)).1 hother
      obtain ⟨hlist, hnamed⟩ := moduleList_of_parses hloaded hroots hforall hblank
      refine ⟨?_, moduleSort_ne_assertion hlist (hi _) hnamed, fun hacyclic => ?_⟩
      · refine List.forall₂_iff_get.mpr ⟨hforall.length_eq, fun i hfile hroot => ?_⟩
        have hparses := (List.forall₂_iff_get.mp hforall).2 i hfile hroot
        exact (hparses.module (hblank _ (List.getElem_mem hfile)) {}).1
      · obtain ⟨st, n, hn, hempty, -⟩ := exists_run_of_acyclic hlist hacyclic (hi _)
        exact ⟨st.result, n, fun fuel hle =>
          (moduleSort_eq_ok_iff hlist).mpr ⟨st, hn fuel hle, rfl, hempty⟩⟩

/-- A file that imports one module. -/
def importer (name other : String) : SourceFile where
  path := (name ++ ".aike").toList
  name := name.toList
  contents := ("import " ++ other).toList

/-- Two files that import each other. -/
def importers : List SourceFile := [importer "a" "b", importer "b" "a"]

/-- The two files parse, and the modules they import are the two. -/
theorem importers_imports : (parseModules true importers).toOption.map (fun roots =>
    (allocateModules roots).1.map fun root => (moduleGatherImports root).map Prod.fst) =
      some [["b".toList], ["a".toList]] := by
  decide +kernel

/-- The two files may be what the compiler has read: their names differ, and each imports
the other. -/
theorem importers_loaded : FilesLoaded true importers where
  distinct := by decide
  closed roots h root hroot i hi := by
    have himports := importers_imports
    rw [h] at himports
    have hmem : (moduleGatherImports root).map Prod.fst ∈ [["b".toList], ["a".toList]] := by
      rw [← Option.some.inj himports]
      exact List.mem_map_of_mem hroot
    have hname : i.1 ∈ (moduleGatherImports root).map Prod.fst := List.mem_map_of_mem hi
    -- what either file imports is the other one
    rcases List.mem_cons.mp hmem with heq | hmem
    · rw [heq] at hname
      exact List.mem_cons_of_mem _ hname
    · rw [List.mem_singleton.mp hmem, List.mem_singleton] at hname
      exact List.mem_cons.mpr (.inl hname)

/-- The case of two files that import each other. Neither is blank, so the front end is
safe. -/
theorem frontEnd_safe_iff_importers :
    FrontEndSafe id true importers ↔ ∀ i file, importers[i]? = some file →
      Blank file.contents → Excused importers i file :=
  frontEnd_safe_iff importers_loaded fun _ => .rfl

/-- A file without anything in it. -/
def emptyFile : SourceFile := ⟨"empty.aike".toList, "empty".toList, []⟩

/-- A single file without anything in it may be what the compiler has read, since it
parses to nothing that imports. -/
theorem emptyFile_loaded : FilesLoaded true [emptyFile] where
  distinct := List.nodup_singleton _
  closed roots h := by
    change (parseModule emptyFile >>= _) = _ at h
    rw [parseModule_of_nil rfl] at h
    cases h

/-- The front end fails an assertion on an empty file. -/
theorem emptyFile_not_safe : FilesLoaded true [emptyFile] ∧ ¬ FrontEndSafe id true [emptyFile] := by
  refine ⟨emptyFile_loaded, ?_⟩
  unfold FrontEndSafe
  rw [parseModules, parseModule_of_nil rfl]
  exact id

end Aike
