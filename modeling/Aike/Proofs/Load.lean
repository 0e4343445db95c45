import Aike.Model.Load
import Aike.Proofs.FrontEnd

/-!
# `Aike.Proofs.Load`: which files are read, and how often

A module is read once for each name, and its path is either one of the inputs or follows
from its name. The name that `getModuleName` gives to an input is never one that leads to
its path (`getModuleName_getModulePath`), and two imported names that lead to one path are
`std.r` and `library.r` (`getModulePath_eq_iff`). So a path is read once exactly if none of
these meet in a run (`loadModules_once_iff`).

`filesLoaded_of_done`: when nothing is pending, the files are as `frontEnd_safe_iff` takes
them to be.
-/

set_option autoImplicit false

namespace Aike

/-! ### `strrchr` -/

/-- A character that is not in a text has no last place. -/
theorem strrchr_eq_none {text : Str} {ch : Char} (h : ch ∉ text) : strrchr text ch = none := by
  induction text with
  | nil => rfl
  | cons c text ih =>
      rw [List.mem_cons, not_or] at h
      rw [strrchr, ih h.2]
      exact if_neg fun heq => h.1 heq.symm

/-- The last place of a character in two texts is that in the second one, if there is one. -/
theorem strrchr_append (text rest : Str) (ch : Char) :
    strrchr (text ++ rest) ch =
      match strrchr rest ch with
      | some i => some (text.length + i)
      | none => strrchr text ch := by
  induction text with
  | nil =>
      cases h : strrchr rest ch with
      | none => exact h
      | some i => exact h.trans (congrArg some (Nat.zero_add i).symm)
  | cons c text ih =>
      rw [List.cons_append, strrchr, ih]
      cases strrchr rest ch with
      | none => rfl
      | some i => exact congrArg some (Nat.add_right_comm text.length i 1)

/-- The last place is one of the text. -/
theorem strrchr_lt {text : Str} {ch : Char} {i : Nat} (h : strrchr text ch = some i) :
    i < text.length := by
  induction text generalizing i with
  | nil => cases h
  | cons c text ih =>
      rw [strrchr] at h
      cases hrest : strrchr text ch with
      | some j =>
          rw [hrest] at h
          cases h
          exact Nat.succ_lt_succ (ih hrest)
      | none =>
          rw [hrest] at h
          dsimp only at h
          split at h
          case isTrue => cases h; exact Nat.succ_pos _
          case isFalse => cases h

/-! ### Names and paths -/

/-- The path of a module without its extension. -/
def moduleStem (name : Str) : Str :=
  if (dotsToSlashes name).take 4 = "std/".toList then
    "library/".toList ++ (dotsToSlashes name).drop 4
  else dotsToSlashes name

/-- The path of a module is its stem, and what stands behind all of them. -/
theorem getModulePath_eq (name : Str) : getModulePath name = moduleStem name ++ ".aike".toList := by
  unfold getModulePath moduleStem
  dsimp only
  split <;> rfl

/-- The inverse of `dotsToSlashes`, on names of modules. -/
def slashesToDots (path : Str) : Str := path.map fun c => if c = '/' then '.' else c

/-- The name of a module has letters, digits, `_` and dots only. -/
theorem IsModuleName.not_mem {name : Str} (h : IsModuleName name) {ch : Char}
    (hident : isIdent ch = false) (hdot : ch ≠ '.') : ch ∉ name := by
  intro hmem
  rcases h.chars ch hmem with hch | hch
  · rw [hident] at hch
    cases hch
  · exact hdot hch

/-- Dots and slashes can be changed forth and back, as a name has no slashes. -/
theorem slashesToDots_dotsToSlashes {name : Str} (h : IsModuleName name) :
    slashesToDots (dotsToSlashes name) = name := by
  have hslash : '/' ∉ name := h.not_mem (by decide) (by decide)
  unfold slashesToDots dotsToSlashes
  rw [List.map_map]
  -- a name of a module has no slash, so each slash was a dot
  refine (List.map_congr_left fun c hc => ?_).trans (List.map_id name)
  show (if (if c = '.' then '/' else c) = '/' then '.' else if c = '.' then '/' else c) = c
  by_cases hdot : c = '.'
  · rw [if_pos hdot, if_pos rfl, hdot]
  · rw [if_neg hdot, if_neg fun heq : c = '/' => hslash (heq ▸ hc)]

/-- The characters of a name of a module, with the dots replaced. -/
theorem mem_dotsToSlashes {name : Str} (h : IsModuleName name) {ch : Char}
    (hch : ch ∈ dotsToSlashes name) : isIdent ch = true ∨ ch = '/' := by
  obtain ⟨c, hc, rfl⟩ := List.mem_map.mp hch
  by_cases hdot : c = '.'
  · rw [if_pos hdot]
    exact .inr rfl
  · rw [if_neg hdot]
    exact .inl ((h.chars c hc).resolve_right hdot)

/-- No dot and no backslash is in the path before the extension. -/
theorem mem_moduleStem {name : Str} (h : IsModuleName name) {ch : Char}
    (hch : ch ∈ moduleStem name) : isIdent ch = true ∨ ch = '/' := by
  unfold moduleStem at hch
  split at hch
  case isTrue =>
    rcases List.mem_append.mp hch with hlibrary | hrest
    · have hall : "library/".toList.all (fun ch => isIdent ch || ch = '/') = true := by decide
      simpa using List.all_eq_true.mp hall ch hlibrary
    · exact mem_dotsToSlashes h (List.mem_of_mem_drop hrest)
  case isFalse => exact mem_dotsToSlashes h hch

/-- The length of a path, and where the file name in a path of the library starts. -/
theorem moduleStem_length (name : Str) :
    (moduleStem name).length = name.length ∨
      (moduleStem name).length = name.length + 4 ∧
        ∃ i, 7 ≤ i ∧ strrchr (moduleStem name) '/' = some i := by
  have hlength : (dotsToSlashes name).length = name.length := List.length_map _
  unfold moduleStem
  split
  case isFalse => exact .inl hlength
  case isTrue hstd =>
    right
    -- the name has at least the four characters that are replaced by eight
    have hfour : ((dotsToSlashes name).take 4).length = 4 := by
      rw [hstd]
      rfl
    rw [List.length_take] at hfour
    have hlibrary : "library/".toList.length = 8 := rfl
    constructor
    · rw [List.length_append, List.length_drop, hlibrary]
      omega
    -- the last slash is that of `library/`, or it is after it
    · rw [strrchr_append]
      cases strrchr ((dotsToSlashes name).drop 4) '/' with
      | none => exact ⟨7, Nat.le_refl 7, rfl⟩
      | some i => exact ⟨8 + i, by omega, rfl⟩

/-- The name of the file of a module is not the name of the module. -/
theorem getModuleName_getModulePath {name : Str} (h : IsModuleName name) :
    getModuleName (getModulePath name) ≠ name := by
  have hnot : ∀ ch, isIdent ch = false → ch ≠ '/' → ch ∉ moduleStem name := by
    intro ch hident hslash hmem
    rcases mem_moduleStem h hmem with hch | hch
    · rw [hident] at hch
      cases hch
    · exact hslash hch
  -- the dot is that of the extension, and the slash is before it
  have hdot : strrchr (moduleStem name ++ ".aike".toList) '.' = some (moduleStem name).length := by
    rw [strrchr_append]
    rfl
  have hback : strrchr (moduleStem name ++ ".aike".toList) '\\' = none := by
    rw [strrchr_append]
    exact strrchr_eq_none (hnot _ (by decide) (by decide))
  have hslash : strrchr (moduleStem name ++ ".aike".toList) '/' =
      strrchr (moduleStem name) '/' := by
    rw [strrchr_append]
    rfl
  rw [getModulePath_eq]
  unfold getModuleName moduleSlash
  rw [hdot, hback, hslash]
  intro heq
  -- the lengths differ: without a slash the name of the file has the extension, and with one
  -- it loses more than the four characters that `library` adds
  have hlength := moduleStem_length name
  cases hfound : strrchr (moduleStem name) '/' with
  | none =>
      rw [hfound] at heq hlength
      have hpath := congrArg List.length heq
      rw [List.length_append] at hpath
      rcases hlength with hsame | ⟨-, i, -, hi⟩
      · have hextension : ".aike".toList.length = 5 := rfl
        omega
      · cases hi
  | some slash =>
      have hlt := strrchr_lt hfound
      rw [hfound] at heq hlength
      dsimp only at heq
      rw [if_pos hlt] at heq
      have hname := congrArg List.length heq
      rw [List.length_take] at hname
      rcases hlength with hsame | ⟨hlonger, i, hle, hi⟩
      · omega
      · cases hi
        omega

/-- One name is that of a module of the library, the other one that of the same file in
the folder `library`. -/
def Twins (n m : Str) : Prop := ∃ r, n = "std.".toList ++ r ∧ m = "library.".toList ++ r

/-- A module of the library has the path of a name that starts with `library.`. -/
theorem Twins.getModulePath {n m : Str} (h : Twins n m) : getModulePath n = getModulePath m := by
  obtain ⟨r, rfl, rfl⟩ := h
  rw [getModulePath_eq, getModulePath_eq]
  -- only the first of the two names takes the branch for `std/`
  have hstd : moduleStem ("std.".toList ++ r) = "library/".toList ++ dotsToSlashes r := if_pos rfl
  have hlibrary : moduleStem ("library.".toList ++ r) = "library/".toList ++ dotsToSlashes r :=
    if_neg fun h => absurd (show "libr".toList = "std/".toList from h) (by decide)
  rw [hstd, hlibrary]

/-- A name below `std` has the stem of another one exactly if that one is below `library`. -/
theorem twins_of_stem {n m : Str} (hn : IsModuleName n) (hm : IsModuleName m)
    (hstd : (dotsToSlashes n).take 4 = "std/".toList)
    (h : "library/".toList ++ (dotsToSlashes n).drop 4 = dotsToSlashes m) : Twins n m := by
  have hsplit := List.take_append_drop 4 (dotsToSlashes n)
  rw [hstd] at hsplit
  refine ⟨slashesToDots ((dotsToSlashes n).drop 4), ?_, ?_⟩
  · calc n = slashesToDots ("std/".toList ++ (dotsToSlashes n).drop 4) := by
          rw [hsplit, slashesToDots_dotsToSlashes hn]
      _ = _ := List.map_append
  · calc m = slashesToDots ("library/".toList ++ (dotsToSlashes n).drop 4) := by
          rw [h, slashesToDots_dotsToSlashes hm]
      _ = _ := List.map_append

/-- The names that lead to one path. -/
theorem getModulePath_eq_iff {n m : Str} (hn : IsModuleName n) (hm : IsModuleName m) :
    getModulePath n = getModulePath m ↔ n = m ∨ Twins n m ∨ Twins m n := by
  constructor
  · intro h
    rw [getModulePath_eq, getModulePath_eq] at h
    have hstem := List.append_cancel_right h
    unfold moduleStem at hstem
    have heq : dotsToSlashes n = dotsToSlashes m → n = m := fun h => by
      rw [← slashesToDots_dotsToSlashes hn, h, slashesToDots_dotsToSlashes hm]
    -- the two branches of `getModulePath`, for each name
    by_cases hstdn : (dotsToSlashes n).take 4 = "std/".toList
    · rw [if_pos hstdn] at hstem
      by_cases hstdm : (dotsToSlashes m).take 4 = "std/".toList
      · rw [if_pos hstdm] at hstem
        refine .inl (heq ?_)
        rw [← List.take_append_drop 4 (dotsToSlashes n),
          ← List.take_append_drop 4 (dotsToSlashes m), hstdn, hstdm,
          List.append_cancel_left hstem]
      · rw [if_neg hstdm] at hstem
        exact .inr (.inl (twins_of_stem hn hm hstdn hstem))
    · rw [if_neg hstdn] at hstem
      by_cases hstdm : (dotsToSlashes m).take 4 = "std/".toList
      · rw [if_pos hstdm] at hstem
        exact .inr (.inr (twins_of_stem hm hn hstdm hstem.symm))
      · rw [if_neg hstdm] at hstem
        exact .inl (heq hstem)
  · rintro (rfl | h | h)
    · rfl
    · exact h.getModulePath
    · exact h.getModulePath.symm

/-! ### Steps -/

section Steps

variable {readFile : Str → Option Str} {disablePrelude : Bool} {inputs : List Str}
  {s s' : LoadState}

/-- The names that the modules import that were read. -/
def LoadState.imports (s : LoadState) : List Str :=
  (s.modules.flatMap moduleGatherImports).map Prod.fst

/-- The state after a module was read. -/
def LoadState.read (s : LoadState) (pm : PendingModule) (pending : List PendingModule)
    (contents : Str) (root : Tree) : LoadState :=
  let (root, allocation) := root.allocate.run s.allocation
  let imports := (moduleGatherImports root).map importModule
  { pendingModules := pending ++ imports
    readyModules := s.readyModules ++ [pm.name]
    modules := s.modules ++ [root]
    allocation
    files := s.files ++ [⟨pm.path, pm.name, contents⟩]
    entries := s.entries ++ imports }

/-- The module at the front is read, and parses. -/
structure LoadState.Reads (readFile : Str → Option Str) (s : LoadState) (pm : PendingModule)
    (pending : List PendingModule) (contents : Str) (root : Tree) : Prop where
  front : s.pendingModules = pm :: pending
  fresh : pm.name ∉ s.readyModules
  file : readFile pm.path = some contents
  parses : parseModule ⟨pm.path, pm.name, contents⟩ = .ok root

/-- What an iteration does: nothing, or it drops an entry, or it reads a module. -/
theorem loadStep_cases (h : loadStep readFile disablePrelude s = .ok s') :
    (s.pendingModules = [] ∧ s' = s) ∨
      (∃ pm pending, s.pendingModules = pm :: pending ∧ pm.name ∈ s.readyModules ∧
        s' = { s with pendingModules := pending }) ∨
      ∃ pm pending contents root, s.Reads readFile pm pending contents root ∧
        s' = s.read pm pending contents (root.addPrelude disablePrelude) := by
  unfold loadStep at h
  split at h
  case h_1 hnil =>
    cases h
    exact .inl ⟨hnil, rfl⟩
  case h_2 pm pending hcons =>
    split at h
    case isTrue hready =>
      cases h
      exact .inr (.inl ⟨pm, pending, hcons, List.contains_iff_mem.mp hready, rfl⟩)
    case isFalse hready =>
      unfold loadModule at h
      split at h
      case h_1 => cases h
      case h_2 contents hfile =>
        split at h
        case h_1 => cases h
        case h_2 root hroot =>
          cases h
          exact .inr (.inr ⟨pm, pending, contents, root,
            ⟨hcons, fun hmem => hready (List.contains_iff_mem.mpr hmem), hfile, hroot⟩, rfl⟩)

/-- The names that the module imports that an iteration reads, if it reads one. -/
def nextImports (readFile : Str → Option Str) (disablePrelude : Bool) (s : LoadState) :
    List Str :=
  match s.pendingModules with
  | [] => []
  | pm :: _ =>
      if s.readyModules.contains pm.name then []
      else
        match readFile pm.path with
        | none => []
        | some contents =>
            match parseModule ⟨pm.path, pm.name, contents⟩ with
            | .error _ => []
            | .ok root =>
                (moduleGatherImports
                  ((root.addPrelude disablePrelude).allocate.run s.allocation).1).map Prod.fst

/-- What a step is going to add is what the file it reads imports. -/
theorem LoadState.Reads.nextImports {pm : PendingModule} {pending : List PendingModule}
    {contents : Str} {root : Tree} (h : s.Reads readFile pm pending contents root) :
    nextImports readFile disablePrelude s =
      (moduleGatherImports
        ((root.addPrelude disablePrelude).allocate.run s.allocation).1).map Prod.fst := by
  unfold Aike.nextImports
  rw [h.front]
  dsimp only
  rw [if_neg fun hready => h.fresh (List.contains_iff_mem.mp hready), h.file]
  dsimp only
  rw [h.parses]

/-- A step adds these imports at the end. -/
theorem imports_loadStep (h : loadStep readFile disablePrelude s = .ok s') :
    s'.imports = s.imports ++ nextImports readFile disablePrelude s := by
  rcases loadStep_cases h with ⟨hnil, rfl⟩ | ⟨pm, pending, hcons, hready, rfl⟩ |
    ⟨pm, pending, contents, root, hreads, rfl⟩
  -- nothing is pending, or the entry at the front was read before: no module is new
  · have hnext : nextImports readFile disablePrelude s' = [] := by
      unfold nextImports
      rw [hnil]
    rw [hnext, List.append_nil]
  · have hnext : nextImports readFile disablePrelude s = [] := by
      unfold nextImports
      rw [hcons]
      exact if_pos (List.contains_iff_mem.mpr hready)
    rw [hnext, List.append_nil]
    rfl
  · rw [hreads.nextImports]
    show (List.flatMap moduleGatherImports (s.modules ++ [_])).map Prod.fst = _
    rw [List.flatMap_append, List.map_append, List.flatMap_singleton]
    rfl

/-- An iteration that fails reads no module. -/
theorem nextImports_of_error {e : LoadStop} (h : loadStep readFile disablePrelude s = .error e) :
    nextImports readFile disablePrelude s = [] := by
  -- the file is missing or does not parse, so `nextImports` has no module to look at
  unfold loadStep loadModule at h
  split at h
  case h_1 => cases h
  case h_2 pm pending hcons =>
    split at h
    case isTrue hready => cases h
    case isFalse hready =>
      split at h
      case h_1 hfile =>
        unfold nextImports
        rw [hcons]
        dsimp only
        rw [if_neg hready, hfile]
      case h_2 contents hfile =>
        split at h
        case h_1 e' hparse =>
          unfold nextImports
          rw [hcons]
          dsimp only
          rw [if_neg hready, hfile]
          dsimp only
          rw [hparse]
        case h_2 root hparse => cases h

/-! ### The invariant -/

/-- What holds between the iterations. -/
structure LoadInv (inputs : List Str) (s : LoadState) : Prop where
  pending : ∀ e ∈ s.pendingModules, e ∈ s.entries
  entries : s.entries = inputs.map inputModule ++
    (s.modules.flatMap moduleGatherImports).map importModule
  names : s.readyModules = s.files.map SourceFile.name
  nodup : s.readyModules.Nodup
  files : ∀ f ∈ s.files, ∃ e ∈ s.entries, e.name = f.name ∧ e.path = f.path
  named : ∀ n ∈ s.imports, IsModuleName n

/-- At the start the entries are the inputs, which have their paths and names. -/
theorem loadInv_start : LoadInv inputs (loadStart inputs) where
  pending _ h := h
  entries := (List.append_nil _).symm
  names := rfl
  nodup := .nil
  files _ h := nomatch h
  named _ h := nomatch h

/-- A file that parses imports modules by their names. -/
theorem isModuleName_of_parses {file : SourceFile} {root : Tree}
    (h : parseModule file = .ok root) (a : Allocation) :
    ∀ n ∈ (moduleGatherImports
      ((root.addPrelude disablePrelude).allocate.run a).1).map Prod.fst, IsModuleName n := by
  intro n hn
  -- a blank file has no module, and so no imports
  by_cases hblank : Blank file.contents
  · by_cases hnil : file.contents = []
    · rw [parseModule_of_nil hnil] at h
      cases h
    · rw [parseModule_of_blank hblank hnil] at h
      cases h
      cases hn
  · obtain ⟨i, hi, rfl⟩ := List.mem_map.mp hn
    have hparses : ParsesTo disablePrelude file (root.addPrelude disablePrelude) := ⟨root, h, rfl⟩
    exact (hparses.module hblank a).2.2 i hi

/-- A step keeps the invariant: an entry comes from an import that is not known yet, and
has the path that follows from its name. -/
theorem LoadInv.step (hinv : LoadInv inputs s)
    (h : loadStep readFile disablePrelude s = .ok s') : LoadInv inputs s' := by
  have himports := imports_loadStep h
  rcases loadStep_cases h with ⟨-, rfl⟩ | ⟨pm, pending, hcons, -, rfl⟩ |
    ⟨pm, pending, contents, root, hreads, rfl⟩
  · exact hinv
  · refine { hinv with pending := fun e he => hinv.pending e ?_ }
    rw [hcons]
    exact List.mem_cons_of_mem pm he
  -- the module that is read was pending
  · have hfront : ∀ e ∈ pm :: pending, e ∈ s.entries := by
      rw [← hreads.front]
      exact hinv.pending
    refine ⟨fun e he => ?_, ?_, ?_, ?_, fun f hf => ?_, fun n hn => ?_⟩
    · rcases List.mem_append.mp he with hold | hnew
      · exact List.mem_append_left _ (hfront e (List.mem_cons_of_mem pm hold))
      · exact List.mem_append_right _ hnew
    · show s.entries ++ _ = _ ++ (List.flatMap _ (s.modules ++ [_])).map importModule
      rw [hinv.entries, List.flatMap_append, List.map_append, List.flatMap_singleton,
        List.append_assoc]
    · show s.readyModules ++ [pm.name] = (s.files ++ [_]).map SourceFile.name
      rw [hinv.names, List.map_append]
      rfl
    -- the new name is not among those that were read
    · exact List.nodup_append_comm.mp (List.nodup_cons.mpr ⟨hreads.fresh, hinv.nodup⟩)
    · rcases List.mem_append.mp hf with hold | hnew
      · obtain ⟨e, he, hname⟩ := hinv.files f hold
        exact ⟨e, List.mem_append_left _ he, hname⟩
      · rw [List.mem_singleton.mp hnew]
        exact ⟨pm, List.mem_append_left _ (hfront pm List.mem_cons_self), rfl, rfl⟩
    · rw [himports] at hn
      rcases List.mem_append.mp hn with hold | hnew
      · exact hinv.named n hold
      · rw [hreads.nextImports] at hnew
        exact isModuleName_of_parses hreads.parses _ n hnew

/-! ### Files are read once -/

/-- No file is read twice, and entries with one path have one name. -/
structure LoadedOnce (s : LoadState) : Prop where
  once : (s.files.map SourceFile.path).Nodup
  named : ∀ e ∈ s.entries, ∀ e' ∈ s.entries, e.path = e'.path → e.name = e'.name

/-- No name leads to an input, and there are no twins. -/
structure Apart (inputs : List Str) (names : List Str) : Prop where
  inputs : ∀ n ∈ names, getModulePath n ∉ inputs
  twins : ∀ n ∈ names, ∀ m ∈ names, ¬ Twins n m

/-- The entries are those of the inputs and those of the names that are imported. -/
theorem LoadInv.mem_entries (hinv : LoadInv inputs s) {e : PendingModule} (he : e ∈ s.entries) :
    (e.path ∈ inputs ∧ e.name = getModuleName e.path) ∨
      (e.name ∈ s.imports ∧ e.path = getModulePath e.name) := by
  rw [hinv.entries] at he
  rcases List.mem_append.mp he with hinput | himport
  · obtain ⟨file, hfile, rfl⟩ := List.mem_map.mp hinput
    exact .inl ⟨hfile, rfl⟩
  · obtain ⟨i, hi, rfl⟩ := List.mem_map.mp himport
    exact .inr ⟨List.mem_map_of_mem hi, rfl⟩

/-- Each input is an entry from the start on. -/
theorem LoadInv.input_mem (hinv : LoadInv inputs s) {file : Str} (h : file ∈ inputs) :
    inputModule file ∈ s.entries := by
  rw [hinv.entries]
  exact List.mem_append_left _ (List.mem_map_of_mem h)

/-- Each import has an entry with its name. It may be that of an input, whose path is then
the same. -/
theorem LoadInv.import_mem (hinv : LoadInv inputs s) {n : Str} (h : n ∈ s.imports) :
    ∃ e ∈ s.entries, e.name = n ∧ e.path = getModulePath n := by
  obtain ⟨i, hi, rfl⟩ := List.mem_map.mp h
  refine ⟨importModule i, ?_, rfl, rfl⟩
  rw [hinv.entries]
  exact List.mem_append_right _ (List.mem_map_of_mem hi)

/-- No name is its own twin. -/
theorem not_twins_self (n : Str) : ¬ Twins n n := by
  rintro ⟨r, hstd, hlibrary⟩
  rw [hstd] at hlibrary
  exact absurd (List.cons.inj hlibrary).1 (by decide)

/-- Entries with one path have one name exactly if the inputs and the imports are apart. -/
theorem LoadInv.named_iff_apart (hinv : LoadInv inputs s) :
    (∀ e ∈ s.entries, ∀ e' ∈ s.entries, e.path = e'.path → e.name = e'.name) ↔
      Apart inputs s.imports := by
  constructor
  · intro hnamed
    refine ⟨fun n hn hinput => ?_, fun n hn m hm htwins => ?_⟩
    -- the entry of the input has the name of the file, which is another one
    · obtain ⟨e, he, rfl, hpath⟩ := hinv.import_mem hn
      have hname := hnamed _ (hinv.input_mem hinput) e he hpath.symm
      exact getModuleName_getModulePath (hinv.named e.name hn) hname
    -- twins have one path, so they are one name
    · obtain ⟨e, he, rfl, hpath⟩ := hinv.import_mem hn
      obtain ⟨e', he', rfl, hpath'⟩ := hinv.import_mem hm
      have hname := hnamed e he e' he' (by rw [hpath, hpath', htwins.getModulePath])
      rw [hname] at htwins
      exact not_twins_self _ htwins
  · intro hapart e he e' he' hpath
    -- the entries are of inputs or of imports, each of them
    rcases hinv.mem_entries he with ⟨hinput, hname⟩ | ⟨himport, hname⟩ <;>
      rcases hinv.mem_entries he' with ⟨hinput', hname'⟩ | ⟨himport', hname'⟩
    · rw [hname, hname', hpath]
    · rw [hpath, hname'] at hinput
      exact absurd hinput (hapart.inputs _ himport')
    · rw [← hpath, hname] at hinput'
      exact absurd hinput' (hapart.inputs _ himport)
    · rw [hname, hname'] at hpath
      rcases (getModulePath_eq_iff (hinv.named _ himport) (hinv.named _ himport')).mp hpath with
        heq | htwins | htwins
      · exact heq
      · exact absurd htwins (hapart.twins _ himport _ himport')
      · exact absurd htwins (hapart.twins _ himport' _ himport)

/-- A path is read once exactly if the inputs and the imports are apart: an entry is made
once for each name. -/
theorem LoadInv.loadedOnce_iff (hinv : LoadInv inputs s) :
    LoadedOnce s ↔ Apart inputs s.imports := by
  rw [← hinv.named_iff_apart]
  constructor
  · exact fun h => h.named
  · intro hnamed
    refine ⟨?_, hnamed⟩
    have hnodup := hinv.nodup
    rw [hinv.names] at hnodup
    -- two files have different names, so they have different paths
    refine List.pairwise_map.mpr ((List.pairwise_map.mp hnodup).imp_of_mem ?_)
    intro f g hf hg hne hpath
    obtain ⟨e, he, hename, hepath⟩ := hinv.files f hf
    obtain ⟨e', he', hename', hepath'⟩ := hinv.files g hg
    refine hne ?_
    rw [← hename, ← hename']
    exact hnamed e he e' he' (by rw [hepath, hepath', hpath])

/-- The module that an iteration reads imports, with those before it, no name that leads to
an input, and no twins. -/
def StepApart (readFile : Str → Option Str) (disablePrelude : Bool) (inputs : List Str)
    (s : LoadState) : Prop :=
  Apart inputs (s.imports ++ nextImports readFile disablePrelude s)

/-! ### Runs -/

/-- The last iteration of a run. -/
theorem loadModules_succ (n : Nat) (s : LoadState) :
    loadModules readFile disablePrelude (n + 1) s =
      (loadModules readFile disablePrelude n s >>= loadStep readFile disablePrelude) := by
  induction n generalizing s with
  | zero =>
      show (loadStep readFile disablePrelude s >>= Except.ok) = loadStep readFile disablePrelude s
      cases loadStep readFile disablePrelude s <;> rfl
  | succ n ih =>
      rw [loadModules]
      conv => rhs; rw [loadModules]
      cases loadStep readFile disablePrelude s with
      | error e => rfl
      | ok s' => exact ih s'

/-- A run with one step more. -/
theorem loadModules_succ_ok {n : Nat} (h : loadModules readFile disablePrelude (n + 1) s = .ok s') :
    ∃ t, loadModules readFile disablePrelude n s = .ok t ∧
      loadStep readFile disablePrelude t = .ok s' := by
  rw [loadModules_succ] at h
  cases hn : loadModules readFile disablePrelude n s with
  | error e =>
      rw [hn] at h
      cases h
  | ok t =>
      rw [hn] at h
      exact ⟨t, rfl, h⟩

/-- The invariant holds in every state that is reached. -/
theorem loadInv_run {n : Nat}
    (h : loadModules readFile disablePrelude n (loadStart inputs) = .ok s) :
    LoadInv inputs s := by
  induction n generalizing s with
  | zero =>
      cases h
      exact loadInv_start
  | succ n ih =>
      obtain ⟨t, ht, hstep⟩ := loadModules_succ_ok h
      exact (ih ht).step hstep

/-- In a run, no file is read twice and entries with one path have one name, in all states
that are reached, exactly if in all iterations no name that is imported leads to an input
and there are no twins. -/
theorem loadModules_once_iff (readFile : Str → Option Str) (disablePrelude : Bool)
    (inputs : List Str) (n : Nat) :
    (∀ k ≤ n, ∀ s, loadModules readFile disablePrelude k (loadStart inputs) = .ok s →
      LoadedOnce s) ↔
    ∀ k < n, ∀ s, loadModules readFile disablePrelude k (loadStart inputs) = .ok s →
      StepApart readFile disablePrelude inputs s := by
  constructor
  · intro honce k hk s hs
    have hinv := loadInv_run hs
    unfold StepApart
    -- an iteration that fails imports nothing, and otherwise there is a state after it
    cases hstep : loadStep readFile disablePrelude s with
    | error e =>
        rw [nextImports_of_error hstep, List.append_nil]
        exact hinv.loadedOnce_iff.mp (honce k (Nat.le_of_lt hk) s hs)
    | ok s' =>
        have hs' : loadModules readFile disablePrelude (k + 1) (loadStart inputs) = .ok s' := by
          rw [loadModules_succ, hs]
          exact hstep
        rw [← imports_loadStep hstep]
        exact (hinv.step hstep).loadedOnce_iff.mp (honce (k + 1) hk s' hs')
  · intro hapart k hk s hs
    refine (loadInv_run hs).loadedOnce_iff.mpr ?_
    cases k with
    | zero =>
        cases hs
        exact ⟨List.forall_mem_nil _, List.forall_mem_nil _⟩
    | succ k =>
        obtain ⟨t, ht, hstep⟩ := loadModules_succ_ok hs
        rw [imports_loadStep hstep]
        exact hapart k hk t ht

/-- The path and the name of a file. -/
def SourceFile.entry (file : SourceFile) : Str × Str := (file.path, file.name)

/-- A module that imports itself is read under the name of the input and under its own. -/
theorem loadModules_twice :
    ∃ s, loadModules (fun _ => some "import a".toList) true 2 (loadStart ["a.aike".toList]) =
      .ok s ∧ s.files.map SourceFile.entry =
        [("a.aike".toList, "a.aike".toList), ("a.aike".toList, "a".toList)] ∧ ¬ LoadedOnce s := by
  -- `a.aike` is read as `a.aike`, and then for the name `a` once more
  have hrun : ((loadModules (fun _ => some "import a".toList) true 2
      (loadStart ["a.aike".toList])).toOption.map fun s => s.files.map SourceFile.entry) =
        some [("a.aike".toList, "a.aike".toList), ("a.aike".toList, "a".toList)] := by
    decide +kernel
  obtain ⟨s, hs, hfiles⟩ := Option.map_eq_some_iff.mp hrun
  refine ⟨s, ?_, hfiles, fun h => ?_⟩
  · cases hload : loadModules (fun _ => some "import a".toList) true 2
      (loadStart ["a.aike".toList]) with
    | error e =>
        rw [hload] at hs
        cases hs
    | ok s' =>
        rw [hload] at hs
        cases hs
        rfl
  · have hpaths : s.files.map SourceFile.path = ["a.aike".toList, "a.aike".toList] := by
      have hmap := congrArg (List.map Prod.fst) hfiles
      rw [List.map_map] at hmap
      exact hmap
    have honce := h.once
    rw [hpaths] at honce
    exact absurd honce (by decide)

/-! ### What was read -/

/-- Parsing one file more. -/
theorem parseModules_append {files : List SourceFile} {file : SourceFile} {roots : List Tree}
    {root : Tree} (hfiles : parseModules disablePrelude files = .ok roots)
    (hfile : parseModule file = .ok root) :
    parseModules disablePrelude (files ++ [file]) =
      .ok (roots ++ [root.addPrelude disablePrelude]) := by
  induction files generalizing roots with
  | nil =>
      cases hfiles
      rw [List.nil_append, parseModules, hfile]
      rfl
  | cons f files ih =>
      rw [parseModules] at hfiles
      obtain ⟨parsed, hparsed, hbind⟩ := except_bind_ok.mp hfiles
      obtain ⟨rest, hrest, hroots⟩ := except_bind_ok.mp hbind
      cases hroots
      rw [List.cons_append, parseModules, hparsed, ih hrest]
      rfl

/-- The ids of one tree more follow those of the others. -/
theorem allocateAll_append (roots : List Tree) (root : Tree) (a : Allocation) :
    (Tree.allocateAll (roots ++ [root])).run a =
      ((Tree.allocateAll roots a).1 ++ [(root.allocate (Tree.allocateAll roots a).2).1],
        (root.allocate (Tree.allocateAll roots a).2).2) := by
  induction roots generalizing a with
  | nil => rfl
  | cons t roots ih =>
      have hrest : Tree.allocateAll (roots ++ [root]) (t.allocate a).2 = _ := ih (t.allocate a).2
      show ((t.allocate a).1 :: (Tree.allocateAll (roots ++ [root]) (t.allocate a).2).1,
        (Tree.allocateAll (roots ++ [root]) (t.allocate a).2).2) = _
      rw [hrest]
      rfl

/-- What the loop has made of the files that it read. -/
structure FilesRead (disablePrelude : Bool) (s : LoadState) : Prop where
  parsed : ∃ roots, parseModules disablePrelude s.files = .ok roots ∧
    (Tree.allocateAll roots).run {} = (s.modules, s.allocation)
  covered : ∀ n ∈ s.imports, n ∈ s.readyModules ∨ n ∈ s.pendingModules.map PendingModule.name

/-- At the start no file was read. -/
theorem filesRead_start : FilesRead disablePrelude (loadStart inputs) where
  parsed := ⟨[], rfl, rfl⟩
  covered _ h := nomatch h

/-- A step reads one file, parses it and gives its tree ids, as the front end does in
the end with all files. -/
theorem FilesRead.step (hread : FilesRead disablePrelude s)
    (h : loadStep readFile disablePrelude s = .ok s') : FilesRead disablePrelude s' := by
  rcases loadStep_cases h with ⟨-, rfl⟩ | ⟨pm, pending, hcons, hready, rfl⟩ |
    ⟨pm, pending, contents, root, hreads, rfl⟩
  · exact hread
  · refine { hread with covered := fun n hn => ?_ }
    -- the entry that is dropped is one of a module that was read
    rcases hread.covered n hn with hold | hpending
    · exact .inl hold
    · rw [hcons, List.map_cons] at hpending
      rcases List.mem_cons.mp hpending with rfl | hrest
      · exact .inl hready
      · exact .inr hrest
  · obtain ⟨roots, hparsed, hallocated⟩ := hread.parsed
    refine ⟨⟨_, parseModules_append hparsed hreads.parses, ?_⟩, fun n hn => ?_⟩
    -- the identities go on where those of the modules before stop
    · have hpair : Tree.allocateAll roots {} = (s.modules, s.allocation) := hallocated
      rw [allocateAll_append, hpair]
      rfl
    · show n ∈ s.readyModules ++ [pm.name] ∨ n ∈ (pending ++ _).map PendingModule.name
      rw [List.map_append]
      rw [imports_loadStep h] at hn
      rcases List.mem_append.mp hn with hold | hnew
      -- a module that was to be read is read now, or it is pending still
      · rcases hread.covered n hold with hready | hpending
        · exact .inl (List.mem_append_left _ hready)
        · rw [hreads.front, List.map_cons] at hpending
          rcases List.mem_cons.mp hpending with rfl | hrest
          · exact .inl (List.mem_append_right _ List.mem_cons_self)
          · exact .inr (List.mem_append_left _ hrest)
      · right
        refine List.mem_append_right _ ?_
        rw [hreads.nextImports] at hnew
        rw [List.map_map]
        exact hnew

/-- After a run, the files that were read are parsed as the front end parses them. -/
theorem filesRead_run {n : Nat}
    (h : loadModules readFile disablePrelude n (loadStart inputs) = .ok s) :
    FilesRead disablePrelude s := by
  induction n generalizing s with
  | zero =>
      cases h
      exact filesRead_start
  | succ n ih =>
      obtain ⟨t, ht, hstep⟩ := loadModules_succ_ok h
      exact (ih ht).step hstep

/-- When nothing is pending, the files have different names, and every module that is
imported was read. -/
theorem filesLoaded_of_done {n : Nat}
    (h : loadModules readFile disablePrelude n (loadStart inputs) = .ok s)
    (hdone : s.pendingModules = []) : FilesLoaded disablePrelude s.files := by
  have hinv := loadInv_run h
  obtain ⟨⟨roots, hparsed, hallocated⟩, hcovered⟩ := filesRead_run h
  refine ⟨?_, fun roots' hroots' root hroot i hi => ?_⟩
  · rw [← hinv.names]
    exact hinv.nodup
  · rw [hparsed] at hroots'
    cases hroots'
    have hmodules : (allocateModules roots).1 = s.modules := congrArg Prod.fst hallocated
    rw [hmodules] at hroot
    have himport : i.1 ∈ s.imports := List.mem_map_of_mem (List.mem_flatMap.mpr ⟨root, hroot, hi⟩)
    rw [← hinv.names]
    -- what is imported was read, as nothing is pending
    refine (hcovered i.1 himport).resolve_right fun hpending => ?_
    rw [hdone] at hpending
    cases hpending

end Steps

end Aike
