import Mathlib.Data.Char
import Mathlib.Data.List.Lex
import Mathlib.Data.List.Sort
import Aike.Model.Ast
import Aike.Model.Store

/-!
# `Aike.Model.Modules`: the order of modules

The model of `compiler/modules.cpp`.

A map from names to modules is the list of its entries. The order in which the
map is iterated is a parameter of `moduleSort`. The loop over the pending modules
need not end, so it runs on a number of iterations.
-/

set_option autoImplicit false

namespace Aike

/-- `moduleGatherImportsNode`: what the callback is called with. -/
def moduleGatherImportsNode : Ast → List (Str × Location)
  | .module n _ _ autoimports => autoimports.map fun i => (i, n.location)
  | .import n name => [(name, n.location)]
  | _ => []

/-- `moduleGatherImports`. -/
def moduleGatherImports (root : Ast) : List (Str × Location) :=
  (visitAst root).flatMap moduleGatherImportsNode

/-- `ModuleData`. -/
structure ModuleData where
  name : Str
  index : Nat
  imports : List (Str × Location)
  deriving DecidableEq, Repr

/-- `unordered_map<Str, ModuleData>`. -/
abbrev ModuleMap := List ModuleData

/-- `modules.find`. -/
def findModule (modules : ModuleMap) (name : Str) : Option ModuleData :=
  modules.find? fun m => m.name = name

/-- The answer of the first call that answers a name. -/
def firstAnswer (f : Str × Location → Except Fault (Str × Location)) :
    List (Str × Location) → Except Fault (Str × Location)
  | [] => return ([], {})
  | i :: imports => do
      let im ← f i
      if im.1 ≠ [] then return im
      firstAnswer f imports

/-- `findCircularDependencyRec`, for at most `fuel` nested calls. The set
`visited` holds the modules on the way to `import`: what a call inserts it erases
again. -/
def findCircularDependencyRec (modules : ModuleMap) :
    Nat → Str × Location → List Str → Except Fault (Str × Location)
  | 0, _, _ => throw .outOfFuel
  | fuel + 1, «import», visited =>
      if «import».1 ∈ visited then return «import»
      else
        match findModule modules «import».1 with
        | none => throw .assertion
        | some m =>
            firstAnswer (fun i =>
              findCircularDependencyRec modules fuel i («import».1 :: visited)) m.imports

/-- `findCircularDependency`. A way without a module twice has no more modules
than there are. -/
def findCircularDependency (modules : ModuleMap) («import» : Str × Location) :
    Except Fault (Str × Location) :=
  findCircularDependencyRec modules (modules.length + 1) «import» []

/-- `moduleIsReady`. -/
def moduleIsReady (m : ModuleData) (visited : List Str) : Bool :=
  m.imports.all fun i => i.1 ∈ visited

/-- The variables of `moduleSort`, with the errors it has reported. -/
structure SortState where
  pending : List ModuleData
  visited : List Str := []
  result : List Nat := []
  output : List Diagnostic := []

/-- The body of the loop over `pending`. What `pending` holds here is the part
that was written again. -/
def sortStep (st : SortState) (m : ModuleData) : SortState :=
  if moduleIsReady m st.visited then
    { st with result := st.result ++ [m.index], visited := m.name :: st.visited }
  else { st with pending := st.pending ++ [m] }

/-- The loop over `pending`. -/
def sortPass (st : SortState) : SortState :=
  st.pending.foldl sortStep { st with pending := [] }

/-- The error about a cycle. -/
def circularDependency («import» : Str × Location) : Diagnostic :=
  ⟨«import».2, "Circular dependency detected: module ".toList ++ «import».1 ++
    " transitively imports itself".toList⟩

/-- What the loop does when no module is ready and `first` is the first one. -/
def breakCycle (modules : ModuleMap) (first : ModuleData) (st : SortState) :
    Except Fault SortState := do
  let «import» ← findCircularDependency modules (first.name, {})
  if «import».1 = [] then throw .assertion
  return { st with
    output := st.output ++ [circularDependency «import»]
    visited := «import».1 :: st.visited }

/-- The `while` loop of `moduleSort`, for at most `fuel` iterations. -/
def sortPending (modules : ModuleMap) : Nat → SortState → Except Fault SortState
  | 0, st =>
      match st.pending with
      | [] => return st
      | _ :: _ => throw .outOfFuel
  | fuel + 1, st =>
      match st.pending with
      | [] => return st
      | first :: _ => do
          let next := sortPass st
          if next.pending.length = st.pending.length then do
            let next ← breakCycle modules first next
            sortPending modules fuel next
          else sortPending modules fuel next

/-- `moduleSort`, on the map. -/
def moduleSortMap (fuel : Nat) (modules : ModuleMap) : Except Fault SortState :=
  sortPending modules fuel
    { pending := modules.insertionSort fun l r => l.name ≤ r.name }

/-- The entries of the map, and the errors about names, from index `i` on. -/
def moduleMap : List Ast → Nat → ModuleMap → List Diagnostic →
    Except Fault (ModuleMap × List Diagnostic)
  | [], _, modules, output => return (modules, output)
  | root :: roots, i, modules, output =>
      match root with
      | .module n name _ _ =>
          if (findModule modules name).isSome then
            moduleMap roots (i + 1) modules
              (output ++ [⟨n.location, "Duplicate module name ".toList ++ name⟩])
          else moduleMap roots (i + 1) (modules ++ [⟨name, i, moduleGatherImports root⟩]) output
      | _ => throw .assertion

/-- `moduleSort`: the order, and the errors. The map is iterated in the order
that `iteration` puts its entries in. -/
def moduleSort (fuel : Nat) (iteration : ModuleMap → ModuleMap) (modules : List Ast) :
    Except Fault (List Nat × List Diagnostic) := do
  let (map, output) ← moduleMap modules 0 [] []
  let st ← moduleSortMap fuel (iteration map)
  return (st.result, output ++ st.output)

end Aike
