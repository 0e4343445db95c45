import Aike.Model.FrontEnd
import Aike.Model.Modules

/-!
# `Aike.Model.Load`: the modules of a program

The model of `getModuleName`, `getModulePath` and the first loop of `compileModules` of
`compiler/compiler.cpp`. A path is a text without a null character. What `readFile` finds
under a path is a parameter; it answers nothing for a file that cannot be read.

`readyModules` is the list of its keys, in the order in which they are inserted: the value
of a key is its place in the list. Two fields of the state are not in the source: `files`
records the files that are read and parsed, and `entries` all that was ever pending.
-/

set_option autoImplicit false

namespace Aike

/-- `strrchr`: the place of the last occurrence. -/
def strrchr (text : Str) (ch : Char) : Option Nat :=
  match text with
  | [] => none
  | c :: text =>
      match strrchr text ch with
      | some i => some (i + 1)
      | none => if c = ch then some 0 else none

/-- The slash of `getModuleName`: the first of the last `/` and the last `\`. -/
def moduleSlash (path : Str) : Option Nat :=
  match strrchr path '/', strrchr path '\\' with
  | some fs, some bs => some (min fs bs)
  | some fs, none => some fs
  | none, bs => bs

/-- `getModuleName`. -/
def getModuleName (path : Str) : Str :=
  match moduleSlash path, strrchr path '.' with
  | some slash, some dot =>
      if slash < dot then (path.drop (slash + 1)).take (dot - slash - 1) else path.drop slash
  | some slash, none => path.drop slash
  | none, _ => path

/-- The path of a module without its extension, as it is before the test for `std/`. -/
def dotsToSlashes (name : Str) : Str := name.map fun c => if c = '.' then '/' else c

/-- `getModulePath`. -/
def getModulePath (name : Str) : Str :=
  let path := dotsToSlashes name
  if path.take 4 = "std/".toList then "library/".toList ++ path.drop 4 ++ ".aike".toList
  else path ++ ".aike".toList

/-- `PendingModule`. -/
structure PendingModule where
  name : Str
  «import» : Location
  path : Str
  deriving DecidableEq, Repr

/-- The variables of `compileModules` in its first loop. -/
structure LoadState where
  pendingModules : List PendingModule
  readyModules : List Str := []
  modules : List Ast := []
  allocation : Allocation := {}
  files : List SourceFile := []
  entries : List PendingModule

/-- Why the loop ends before nothing is pending. -/
inductive LoadStop
  /-- `Cannot find module`, and `compileModules` returns. -/
  | error (d : Diagnostic)
  | stop (s : Stop)
  deriving DecidableEq, Repr

/-- The entry of a path of `options.inputs`. -/
def inputModule (file : Str) : PendingModule := ⟨getModuleName file, {}, file⟩

/-- The entry of an import. -/
def importModule («import» : Str × Location) : PendingModule :=
  ⟨«import».1, «import».2, getModulePath «import».1⟩

/-- The state before the loop. -/
def loadStart (inputs : List Str) : LoadState where
  pendingModules := inputs.map inputModule
  entries := inputs.map inputModule

/-- The file of an entry, read and parsed, and its entries. -/
def loadModule (readFile : Str → Option Str) (disablePrelude : Bool) (s : LoadState)
    (pm : PendingModule) (pending : List PendingModule) : Except LoadStop LoadState :=
  match readFile pm.path with
  | none => .error (.error ⟨pm.import, "Cannot find module ".toList ++ pm.name⟩)
  | some contents =>
      match parseModule ⟨pm.path, pm.name, contents⟩ with
      | .error e => .error (.stop e)
      | .ok root =>
          let (root, allocation) := ((root.addPrelude disablePrelude).allocate).run s.allocation
          let imports := (moduleGatherImports root).map importModule
          .ok {
            pendingModules := pending ++ imports
            readyModules := s.readyModules ++ [pm.name]
            modules := s.modules ++ [root]
            allocation
            files := s.files ++ [⟨pm.path, pm.name, contents⟩]
            entries := s.entries ++ imports }

/-- One iteration of the loop. -/
def loadStep (readFile : Str → Option Str) (disablePrelude : Bool) (s : LoadState) :
    Except LoadStop LoadState :=
  match s.pendingModules with
  | [] => .ok s
  | pm :: pending =>
      if s.readyModules.contains pm.name then .ok { s with pendingModules := pending }
      else loadModule readFile disablePrelude s pm pending

/-- The loop, for at most a number of iterations. -/
def loadModules (readFile : Str → Option Str) (disablePrelude : Bool) :
    Nat → LoadState → Except LoadStop LoadState
  | 0, s => .ok s
  | n + 1, s => do
      let s ← loadStep readFile disablePrelude s
      loadModules readFile disablePrelude n s

end Aike
