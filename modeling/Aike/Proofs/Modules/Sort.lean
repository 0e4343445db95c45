import Aike.Proofs.Modules.Loop

/-!
# `Aike.Proofs.Modules.Sort`: the order of modules

`moduleSort` is the loop, on the entries of the map sorted by name
(`moduleSort_eq`). The entries come in any order, and their indices are places in
the list that was given. The loop looks at neither.

* `moduleSort_exact_iff`: when `moduleSort` ends, with every module once and an
  error exactly when there is a cycle.
* `moduleSort_acyclic`: without cycles it always does, and the order of names is
  the same whatever the order of the modules.
-/

set_option autoImplicit false

namespace Aike

open Relation Dependency

/-! ### Modules -/

/-- The name of a module. -/
def Ast.moduleName : Ast → Str
  | .module _ name _ _ => name
  | _ => []

/-- Modules with pairwise distinct names, closed under imports. -/
structure ModuleList (modules : List Ast) : Prop where
  isModule : ∀ root ∈ modules, ∃ n name body autoimports, root = .module n name body autoimports
  distinct : (modules.map Ast.moduleName).Nodup
  closed : ∀ root ∈ modules, ∀ i ∈ moduleGatherImports root, i.1 ∈ modules.map Ast.moduleName

/-- Of two modules, the first imports the second. -/
def ImportsModule (modules : List Ast) (a b : Str) : Prop :=
  ∃ root ∈ modules, root.moduleName = a ∧ ∃ i ∈ moduleGatherImports root, i.1 = b

/-- The entry of a module in the map. -/
def moduleEntry (i : Nat) (root : Ast) : ModuleData :=
  ⟨root.moduleName, i, moduleGatherImports root⟩

/-- The entries of the map. -/
def moduleEntries (modules : List Ast) : ModuleMap := modules.mapIdx moduleEntry

/-- A name that no module has is not found. -/
theorem findModule_eq_none {modules : ModuleMap} {name : Str}
    (h : name ∉ modules.map ModuleData.name) : findModule modules name = none := by
  rw [findModule, List.find?_eq_none]
  intro m hm heq
  exact h (of_decide_eq_true heq ▸ List.mem_map_of_mem hm)

section Entries

variable {modules : List Ast}

/-- The map has an entry for each module, in the order of the list, and no error: the
names are distinct. By induction on the list. -/
theorem moduleMap_eq (roots : List Ast) (i : Nat) (map : ModuleMap) (output : List Diagnostic)
    (hroots : ∀ root ∈ roots, ∃ n name body autoimports, root = .module n name body autoimports)
    (hdistinct : (map.map ModuleData.name ++ roots.map Ast.moduleName).Nodup) :
    moduleMap roots i map output =
      .ok (map ++ roots.mapIdx fun j root => moduleEntry (i + j) root, output) := by
  induction roots generalizing i map with
  | nil =>
      rw [List.mapIdx_nil, List.append_nil]
      rfl
  | cons root roots ih =>
      rw [List.forall_mem_cons] at hroots
      obtain ⟨⟨n, name, body, autoimports, rfl⟩, hroots⟩ := hroots
      rw [List.map_cons, List.nodup_middle, List.nodup_cons] at hdistinct
      have hnew : name ∉ map.map ModuleData.name := fun hmem =>
        hdistinct.1 (List.mem_append_left _ hmem)
      rw [moduleMap, findModule_eq_none hnew, Option.isSome_none, if_neg Bool.false_ne_true]
      rw [ih (i + 1) _ hroots]
      · rw [List.mapIdx_cons, List.append_assoc, List.singleton_append]
        simp only [Nat.add_assoc, Nat.add_comm 1]
        rfl
      · rw [List.map_append, List.append_assoc, List.map_singleton, List.singleton_append,
          List.nodup_middle, List.nodup_cons]
        exact hdistinct

/-- The entries have the names of the modules. -/
theorem map_moduleEntries_name (modules : List Ast) :
    (moduleEntries modules).map ModuleData.name = modules.map Ast.moduleName := by
  refine List.ext_getElem (by simp [moduleEntries]) fun i _ _ => ?_
  simp [moduleEntries, moduleEntry]

/-- An entry is that of the module at its index. -/
theorem mem_moduleEntries {m : ModuleData} :
    m ∈ moduleEntries modules ↔ ∃ root, modules[m.index]? = some root ∧
      moduleEntry m.index root = m := by
  rw [moduleEntries, List.mem_mapIdx]
  constructor
  · rintro ⟨i, hi, rfl⟩
    exact ⟨modules[i], List.getElem?_eq_getElem hi, rfl⟩
  · rintro ⟨root, hroot, hm⟩
    obtain ⟨hlt, rfl⟩ := List.getElem?_eq_some_iff.mp hroot
    exact ⟨m.index, hlt, hm⟩

/-- A map has an entry for each module, in some order. -/
theorem exists_entry_iff {map : ModuleMap} (hm : map.Perm (moduleEntries modules))
    {p : Str → List (Str × Location) → Prop} :
    (∃ m ∈ map, p m.name m.imports) ↔
      ∃ root ∈ modules, p root.moduleName (moduleGatherImports root) := by
  simp only [hm.mem_iff, moduleEntries, List.mem_mapIdx]
  constructor
  · rintro ⟨m, ⟨i, hi, rfl⟩, hp⟩
    exact ⟨modules[i], List.getElem_mem hi, hp⟩
  · rintro ⟨root, hroot, hp⟩
    obtain ⟨i, hi, rfl⟩ := List.mem_iff_getElem.mp hroot
    exact ⟨_, ⟨i, hi, rfl⟩, hp⟩

/-- The entries of a list of modules are a map whose imports are all found. The order in
which they are read does not matter. -/
theorem ModuleList.valid (h : ModuleList modules) {map : ModuleMap}
    (hm : map.Perm (moduleEntries modules)) : map.Valid where
  distinct := by
    rw [(hm.map ModuleData.name).nodup_iff, map_moduleEntries_name]
    exact h.distinct
  closed m hmem i hi := by
    rw [(hm.map ModuleData.name).mem_iff, map_moduleEntries_name]
    have hroot := (exists_entry_iff hm (p := fun _ imports => i ∈ imports)).mp ⟨m, hmem, hi⟩
    obtain ⟨root, hroot, hi⟩ := hroot
    exact h.closed root hroot i hi

/-- Who imports whom is the same for the map and for the list. -/
theorem imports_eq {map : ModuleMap} (hm : map.Perm (moduleEntries modules)) :
    map.Imports = ImportsModule modules := by
  funext a b
  exact propext (exists_entry_iff hm (p := fun name imports => name = a ∧ ∃ i ∈ imports, i.1 = b))

end Entries

/-! ### The order of the map does not matter -/

/-- A module that is found is one of the map, with the name. -/
theorem findModule_eq_some {map : ModuleMap} {name : Str} {m : ModuleData}
    (h : findModule map name = some m) : m ∈ map ∧ m.name = name := by
  unfold findModule at h
  have hname := List.find?_some h
  exact ⟨List.mem_of_find?_eq_some h, of_decide_eq_true hname⟩

/-- In a map of distinct names, a module is found exactly if it is in the map. -/
theorem ModuleMap.Valid.findModule_iff {map : ModuleMap} (h : map.Valid) {name : Str}
    {m : ModuleData} : findModule map name = some m ↔ m ∈ map ∧ m.name = name := by
  constructor
  · intro hm
    exact findModule_eq_some hm
  · rintro ⟨hmem, rfl⟩
    cases hfind : findModule map m.name with
    | none =>
        have := List.find?_eq_none.mp hfind m hmem
        exact absurd (decide_eq_true rfl) this
    | some m' =>
        obtain ⟨hmem', hname⟩ := findModule_eq_some hfind
        rw [h.eq_of_name hmem' hmem hname]

/-- Two maps give the same imports to a name. -/
def SameImports (map map' : ModuleMap) : Prop :=
  ∀ name, (findModule map name).map ModuleData.imports =
    (findModule map' name).map ModuleData.imports

section SameImports

variable {map map' : ModuleMap}

/-- Searches that agree on each import have the same first answer. -/
theorem firstAnswer_congr {f g : Str × Location → Except Fault (Str × Location)}
    (h : ∀ i, f i = g i) (imports : List (Str × Location)) :
    firstAnswer f imports = firstAnswer g imports := by
  rw [funext h]

/-- The search for a cycle reads the imports of the modules only. By induction on the
fuel. -/
theorem findCircularDependencyRec_congr (h : SameImports map map') (fuel : Nat)
    («import» : Str × Location) (visited : List Str) :
    findCircularDependencyRec map fuel «import» visited =
      findCircularDependencyRec map' fuel «import» visited := by
  induction fuel generalizing «import» visited with
  | zero => rfl
  | succ fuel ih =>
      unfold findCircularDependencyRec
      have hfind := h «import».1
      cases hm : findModule map «import».1 with
      | none =>
          rw [hm, Option.map_none, eq_comm, Option.map_eq_none_iff] at hfind
          rw [hfind]
      | some m =>
          rw [hm, Option.map_some, eq_comm, Option.map_eq_some_iff] at hfind
          obtain ⟨m', hm', himports⟩ := hfind
          rw [hm']
          show (if _ then _ else firstAnswer _ _) = if _ then _ else firstAnswer _ _
          rw [himports, firstAnswer_congr fun i => ih i _]

/-- The search with the fuel that it starts with, which is the number of modules. -/
theorem findCircularDependency_congr (h : SameImports map map') (hlen : map.length = map'.length)
    («import» : Str × Location) :
    findCircularDependency map «import» = findCircularDependency map' «import» := by
  rw [findCircularDependency, findCircularDependency, hlen, findCircularDependencyRec_congr h]

/-- The maps of the same modules, in any order, give the same imports. -/
theorem sameImports_of_perm {modules modules' : List Ast} (h : ModuleList modules)
    (h' : ModuleList modules') (hp : modules'.Perm modules)
    (hm : map.Perm (moduleEntries modules)) (hm' : map'.Perm (moduleEntries modules')) :
    SameImports map map' := by
  intro name
  have hiff (imports : List (Str × Location)) :
      (∃ m ∈ map, m.name = name ∧ m.imports = imports) ↔
        ∃ m ∈ map', m.name = name ∧ m.imports = imports := by
    rw [exists_entry_iff hm (p := fun n i => n = name ∧ i = imports),
      exists_entry_iff hm' (p := fun n i => n = name ∧ i = imports)]
    simp only [hp.mem_iff]
  refine Option.ext fun imports => ?_
  rw [Option.map_eq_some_iff, Option.map_eq_some_iff]
  simp only [(h.valid hm).findModule_iff, (h'.valid hm').findModule_iff, and_assoc]
  exact hiff imports

end SameImports

/-- The state without the indices of modules. -/
def SortState.eraseIndex (st : SortState) : SortState :=
  { st with
    pending := st.pending.map fun m => { m with index := 0 }
    result := st.result.map fun _ => 0 }

/-- One module of a pass reads no index but to put it on the result. -/
theorem sortStep_eraseIndex (st : SortState) (m : ModuleData) :
    sortStep st.eraseIndex { m with index := 0 } = (sortStep st m).eraseIndex := by
  have hready : moduleIsReady { m with index := 0 } st.visited = moduleIsReady m st.visited := rfl
  unfold sortStep
  rw [show st.eraseIndex.visited = st.visited from rfl, hready]
  cases moduleIsReady m st.visited with
  | true =>
      simp only [if_true, SortState.eraseIndex, List.map_append, List.map_singleton]
  | false =>
      simp only [Bool.false_eq_true, if_false, SortState.eraseIndex, List.map_append,
        List.map_singleton]

/-- A pass reads no index but to put it on the result. -/
theorem sortPass_eraseIndex (st : SortState) :
    sortPass st.eraseIndex = (sortPass st).eraseIndex := by
  have hfold (pending : List ModuleData) (st : SortState) :
      (pending.map fun m => { m with index := 0 }).foldl sortStep st.eraseIndex =
        (pending.foldl sortStep st).eraseIndex := by
    induction pending generalizing st with
    | nil => rfl
    | cons m pending ih =>
        rw [List.map_cons, List.foldl_cons, List.foldl_cons, sortStep_eraseIndex, ih]
  exact hfold st.pending { st with pending := [] }

/-- Breaking a cycle reads no index, and no order of the map. -/
theorem breakCycle_eraseIndex {map map' : ModuleMap} (h : SameImports map map')
    (hlen : map.length = map'.length) (first : ModuleData) (st : SortState) :
    breakCycle map' { first with index := 0 } st.eraseIndex =
      (breakCycle map first st).map SortState.eraseIndex := by
  unfold breakCycle
  rw [← findCircularDependency_congr h hlen]
  cases findCircularDependency map (first.name, {}) with
  | error e => rfl
  | ok i =>
      show (if i.1 = [] then _ else _) = (if i.1 = [] then _ else _ : Except _ _).map _
      by_cases hi : i.1 = []
      · rw [if_pos hi, if_pos hi]
        rfl
      · rw [if_neg hi, if_neg hi]
        rfl

/-- The loop does not look at indices. -/
theorem sortPending_eraseIndex {map map' : ModuleMap} (h : SameImports map map')
    (hlen : map.length = map'.length) (fuel : Nat) (st : SortState) :
    sortPending map' fuel st.eraseIndex =
      (sortPending map fuel st).map SortState.eraseIndex := by
  induction fuel generalizing st with
  | zero =>
      obtain ⟨pending, visited, result, output⟩ := st
      cases pending <;> rfl
  | succ fuel ih =>
      have hpass := sortPass_eraseIndex st
      unfold sortPending
      cases hpending : st.pending with
      | nil =>
          rw [show st.eraseIndex.pending = [] by simp [SortState.eraseIndex, hpending]]
          rfl
      | cons first rest =>
          have hcons : st.eraseIndex.pending =
              { first with index := 0 } :: rest.map fun m => { m with index := 0 } := by
            simp only [SortState.eraseIndex, hpending, List.map_cons]
          rw [hcons]
          show (if (sortPass st.eraseIndex).pending.length = _ then _ else _) =
            (if _ then _ else _ : Except _ _).map _
          -- Both runs have the same number of modules left, so they take the same branch.
          have hlength : (sortPass st.eraseIndex).pending.length =
              (sortPass st).pending.length := by
            rw [hpass]
            exact List.length_map _
          rw [hlength, List.length_cons, List.length_map, List.length_cons]
          by_cases hstuck : (sortPass st).pending.length = rest.length + 1
          · rw [if_pos hstuck, if_pos hstuck, hpass, breakCycle_eraseIndex h hlen]
            cases breakCycle map first (sortPass st) with
            | error e => rfl
            | ok next => exact ih next
          · rw [if_neg hstuck, if_neg hstuck, hpass]
            exact ih _

/-! ### Sorting modules -/

instance : Std.Total fun l r : ModuleData => l.name ≤ r.name :=
  ⟨fun l r => le_total l.name r.name⟩

instance : IsTrans ModuleData fun l r => l.name ≤ r.name :=
  ⟨fun _ _ _ h₁ h₂ => le_trans h₁ h₂⟩

instance : Std.Total fun l r : Str => l ≤ r := ⟨le_total⟩

instance : IsTrans Str fun l r => l ≤ r := ⟨fun _ _ _ h₁ h₂ => le_trans h₁ h₂⟩

/-- The entries of a map in the order of their names. -/
def sorted (map : ModuleMap) : List ModuleData := map.insertionSort fun l r => l.name ≤ r.name

/-- Sorting changes the order only. -/
theorem sorted_perm (map : ModuleMap) : (sorted map).Perm map :=
  List.perm_insertionSort _ map

/-- The entries are sorted by their names. -/
theorem pairwise_sorted (map : ModuleMap) : (sorted map).Pairwise fun l r => l.name ≤ r.name :=
  List.pairwise_insertionSort _ map

/-- The names of modules, in order. -/
def sortedNames (modules : List Ast) : List Str :=
  (modules.map Ast.moduleName).insertionSort fun l r => l ≤ r

section Sorting

variable {modules : List Ast} {iteration : ModuleMap → ModuleMap}

/-- The sorted names are those of the modules, sorted. -/
theorem sorted_map_name {map : ModuleMap} (hm : map.Perm (moduleEntries modules)) :
    (sorted map).map ModuleData.name = sortedNames modules := by
  rw [sorted, List.map_insertionSort _ (fun l r => l ≤ r) _ _ fun _ _ _ _ => Iff.rfl]
  refine List.Perm.eq_of_pairwise (fun _ _ _ _ => le_antisymm)
    (List.pairwise_insertionSort _ _) (List.pairwise_insertionSort _ _) ?_
  have hp : (map.map ModuleData.name).Perm (modules.map Ast.moduleName) := by
    rw [← map_moduleEntries_name]
    exact hm.map _
  exact (List.perm_insertionSort _ _).trans (hp.trans (List.perm_insertionSort _ _).symm)

/-- `moduleSort` is the loop, on the entries of the map in the order of their
names. -/
theorem moduleSort_eq (h : ModuleList modules) (fuel : Nat) :
    moduleSort fuel iteration modules =
      (sortPending (iteration (moduleEntries modules)) fuel
        { pending := sorted (iteration (moduleEntries modules)) }).map
          fun st => (st.result, st.output) := by
  have hmap := moduleMap_eq modules 0 [] [] h.isModule (by simpa using h.distinct)
  simp only [Nat.zero_add, List.nil_append] at hmap
  unfold moduleSort
  rw [hmap]
  show (sortPending (iteration (moduleEntries modules)) fuel
    { pending := sorted (iteration (moduleEntries modules)) } >>= _) = _
  generalize sortPending (iteration (moduleEntries modules)) fuel _ = r
  cases r with
  | error e => rfl
  | ok st => rfl

/-- The runs of `moduleSort` are those of the loop. -/
theorem moduleSort_eq_ok_iff (h : ModuleList modules) {fuel : Nat} {result : List Nat}
    {output : List Diagnostic} :
    moduleSort fuel iteration modules = .ok (result, output) ↔
      ∃ st, sortPending (iteration (moduleEntries modules)) fuel
        { pending := sorted (iteration (moduleEntries modules)) } = .ok st ∧
          st.result = result ∧ st.output = output := by
  rw [moduleSort_eq h]
  generalize sortPending (iteration (moduleEntries modules)) fuel _ = r
  cases r with
  | error e => exact ⟨fun h => (nomatch h), fun ⟨_, h, _⟩ => (nomatch h)⟩
  | ok st =>
      show Except.ok (st.result, st.output) = _ ↔ _
      rw [Except.ok.injEq, Prod.mk.injEq]
      constructor
      · exact fun h => ⟨st, rfl, h⟩
      · rintro ⟨st', hst, h⟩
        cases hst
        exact h

/-- The loop ends, with one result, whatever the fuel is from some number on. -/
def SortsTo (iteration : ModuleMap → ModuleMap) (modules : List Ast) (result : List Nat)
    (output : List Diagnostic) : Prop :=
  ∃ n, ∀ fuel, n ≤ fuel → moduleSort fuel iteration modules = .ok (result, output)

/-- The loop ends exactly if some number of turns takes the remaining modules to none:
what the turns do is `Breakable` on names. So it does not depend on the order of the map. -/
theorem exists_sortsTo_iff (h : ModuleList modules)
    (hi : (iteration (moduleEntries modules)).Perm (moduleEntries modules)) :
    (∃ result output, SortsTo iteration modules result output) ↔
      Breakable (ImportsModule modules) (cycleFrom (moduleEntries modules))
        (sortedNames modules) ∅ := by
  have hloop := sortPending_breakable_iff (h.valid hi) (sorted_perm _)
  rw [imports_eq hi, sorted_map_name hi] at hloop
  -- The search for a cycle does not see the order of the map.
  have hcycle : cycleFrom (iteration (moduleEntries modules)) =
      cycleFrom (moduleEntries modules) := by
    funext name
    unfold cycleFrom
    rw [findCircularDependency_congr
      (sameImports_of_perm h h .rfl hi .rfl) hi.length_eq]
  rw [hcycle] at hloop
  rw [← hloop]
  constructor
  · rintro ⟨result, output, n, hn⟩
    obtain ⟨st, hst, -⟩ := (moduleSort_eq_ok_iff h).mp (hn n le_rfl)
    obtain ⟨hrun, hnil⟩ := sortPending_run hst
    exact ⟨st, sortPending_of_run hrun hnil⟩
  · rintro ⟨st, n, hn⟩
    exact ⟨st.result, st.output, n, fun fuel hle =>
      (moduleSort_eq_ok_iff h).mpr ⟨st, hn fuel hle, rfl, rfl⟩⟩

/-- The indices of the entries are all indices. -/
theorem map_index_perm {done : List ModuleData} (hdone : done.Perm (moduleEntries modules)) :
    (done.map ModuleData.index).Perm (List.range modules.length) := by
  have hindex : (moduleEntries modules).map ModuleData.index = List.range modules.length :=
    List.ext_getElem (by simp [moduleEntries]) fun i _ _ => by simp [moduleEntries, moduleEntry]
  rw [← hindex]
  exact hdone.map _

end Sorting

/-- `moduleSort` ends, with every index once, and with an error about a cycle
exactly when there is one. -/
def SortsExactly (iteration : ModuleMap → ModuleMap) (modules : List Ast) : Prop :=
  ∃ result output, SortsTo iteration modules result output ∧
    result.Perm (List.range modules.length) ∧
    ((∃ i, circularDependency i ∈ output) ↔ ∃ a, TransGen (ImportsModule modules) a a)

/-- **Cycles.** `moduleSort` ends, with every module once and an error exactly when
the imports have a cycle, if and only if every module, taken by name, that does
not settle with the names given that were broken at before, settles when the name
that the search answers from it is given as well. -/
theorem moduleSort_exact_iff {modules : List Ast} {iteration : ModuleMap → ModuleMap}
    (h : ModuleList modules)
    (hi : (iteration (moduleEntries modules)).Perm (moduleEntries modules)) :
    SortsExactly iteration modules ↔
      Breakable (ImportsModule modules) (cycleFrom (moduleEntries modules))
        (sortedNames modules) ∅ := by
  rw [← exists_sortsTo_iff h hi]
  constructor
  · rintro ⟨result, output, hsorts, -⟩
    exact ⟨result, output, hsorts⟩
  · rintro ⟨result, output, n, hn⟩
    obtain ⟨st, hst, rfl, rfl⟩ := (moduleSort_eq_ok_iff h).mp (hn n le_rfl)
    -- A sort that ends has all modules, and reports a cycle exactly if there is one.
    obtain ⟨done, hdone, hresult, hcircular, hcycle, -⟩ :=
      sortPending_result (h.valid hi) (sorted_perm _) hst
    refine ⟨_, _, ⟨n, hn⟩, ?_, ?_⟩
    · rw [hresult]
      exact map_index_perm (hdone.trans hi)
    · rw [← imports_eq hi, ← hcycle]
      constructor
      · rintro ⟨i, hmem⟩
        exact List.ne_nil_of_mem hmem
      · intro hne
        obtain ⟨d, hd⟩ := List.exists_mem_of_ne_nil _ hne
        obtain ⟨i, rfl⟩ := hcircular d hd
        exact ⟨i, hd⟩

/-! ### A loop that does not end -/

/-- The module `name`, with one `import` for each of `imports`. -/
def importing (name : String) (imports : List String) : Ast :=
  .module { id := 0 } name.toList
    (.block { id := 0 } (imports.map fun i => .import { id := 0 } i.toList)) []

/-- Two modules import themselves, and a third one imports both. -/
def twoCycles : List Ast := [importing "a" ["b", "c"], importing "b" ["b"], importing "c" ["c"]]

/-- The modules of the example have distinct names and import each other. -/
theorem twoCycles_list : ModuleList twoCycles where
  isModule root hroot := by
    simp only [twoCycles, List.mem_cons, List.not_mem_nil, or_false] at hroot
    rcases hroot with rfl | rfl | rfl <;> exact ⟨_, _, _, _, rfl⟩
  distinct := by decide
  closed := by decide

/-- Breaking at `b`, which is what the search answers from `a`, does not free `a`. -/
theorem twoCycles_not_breakable :
    ¬ Breakable (ImportsModule twoCycles) (cycleFrom (moduleEntries twoCycles))
      (sortedNames twoCycles) ∅ := by
  have hac : ImportsModule twoCycles "a".toList "c".toList :=
    ⟨_, List.mem_cons_self, rfl, ("c".toList, {}), by decide, rfl⟩
  have hcc : ImportsModule twoCycles "c".toList "c".toList :=
    ⟨importing "c" ["c"], by simp [twoCycles], rfl, ("c".toList, {}), by decide, rfl⟩
  have hwaits (given : Set Str) (hgiven : "c".toList ∉ given) :
      ¬ Settles (ImportsModule twoCycles) given "a".toList := by
    intro h
    have hs := (h.of_dep hac).resolve_left hgiven
    exact hs.not_cycle (.single ⟨hcc, hgiven⟩)
  have hnames : sortedNames twoCycles = ["a".toList, "b".toList, "c".toList] := by decide
  have hsearch : cycleFrom (moduleEntries twoCycles) "a".toList = some "b".toList := by decide
  rw [hnames]
  rintro (⟨h, -⟩ | ⟨-, c, hc, h, -⟩)
  · exact hwaits ∅ (Set.notMem_empty _) h
  · rw [hsearch, Option.some.injEq] at hc
    subst hc
    exact hwaits _ (by simp) h

/-- The loop does not end on these modules. -/
theorem twoCycles_sorts : ModuleList twoCycles ∧ ¬ SortsExactly id twoCycles := by
  refine ⟨twoCycles_list, fun ⟨result, output, hsorts, _⟩ => ?_⟩
  exact twoCycles_not_breakable
    ((exists_sortsTo_iff twoCycles_list .rfl).mp ⟨result, output, hsorts⟩)

/-- The example has two cycles. The first one has to be broken before the second is found. -/
theorem moduleSort_exact_iff_twoCycles :
    SortsExactly id twoCycles ↔ Breakable (ImportsModule twoCycles)
      (cycleFrom (moduleEntries twoCycles)) (sortedNames twoCycles) ∅ :=
  moduleSort_exact_iff twoCycles_list .rfl

/-! ### Modules without cycles -/

/-- The name of the module at an index. -/
def nameAt (modules : List Ast) (i : Nat) : Option Str := modules[i]?.map Ast.moduleName

/-- Every module comes after the modules that it imports. -/
def ImportsFirst (modules : List Ast) (result : List Nat) : Prop :=
  ∀ l₁ i l₂, result = l₁ ++ i :: l₂ → ∀ root, modules[i]? = some root →
    ∀ imp ∈ moduleGatherImports root, some imp.1 ∈ l₁.map (nameAt modules)

section Acyclic

variable {modules modules' : List Ast}

/-- A list of modules in another order is one, too. -/
theorem ModuleList.perm (h : ModuleList modules) (hp : modules'.Perm modules) :
    ModuleList modules' where
  isModule root hroot := h.isModule root (hp.subset hroot)
  distinct := (hp.map _).nodup_iff.mpr h.distinct
  closed root hroot i hi := (hp.map _).mem_iff.mpr (h.closed root (hp.subset hroot) i hi)

/-- Who imports whom does not depend on the order of the list. -/
theorem importsModule_perm (hp : modules'.Perm modules) :
    ImportsModule modules' = ImportsModule modules := by
  funext a b
  simp only [ImportsModule, hp.mem_iff]

/-- There are finitely many modules that import something. -/
theorem finite_importing (modules : List Ast) :
    Set.Finite {a | ∃ b, ImportsModule modules a b} :=
  (modules.map Ast.moduleName).finite_toSet.subset fun _ ⟨_, _, hroot, hname, _⟩ =>
    hname ▸ List.mem_map_of_mem hroot

/-- Without the indices, the sorted entries of the same modules are the same. -/
theorem sorted_eraseIndex (h : ModuleList modules) (hp : modules'.Perm modules)
    {map map' : ModuleMap} (hm : map.Perm (moduleEntries modules))
    (hm' : map'.Perm (moduleEntries modules')) :
    ((sorted map').map fun m => { m with index := 0 }) =
      (sorted map).map fun m => { m with index := 0 } := by
  have hentries (modules : List Ast) :
      ((moduleEntries modules).map fun m => { m with index := 0 }) =
        modules.map (moduleEntry 0) :=
    List.ext_getElem (by simp [moduleEntries]) fun i _ _ => by simp [moduleEntries, moduleEntry]
  have hperm {modules : List Ast} {map : ModuleMap} (hm : map.Perm (moduleEntries modules)) :
      ((sorted map).map fun m => { m with index := 0 }).Perm (modules.map (moduleEntry 0)) := by
    rw [← hentries]
    exact ((sorted_perm map).trans hm).map _
  have hsorted (map : ModuleMap) :
      ((sorted map).map fun m => { m with index := 0 }).Pairwise fun l r => l.name ≤ r.name :=
    List.pairwise_map.mpr (pairwise_sorted map)
  refine List.Perm.eq_of_pairwise (fun m₁ m₂ h₁ h₂ hle hge => ?_) (hsorted _) (hsorted _)
    ((hperm hm').trans ((hp.map _).trans (hperm hm).symm))
  -- two modules of one name are the same module
  obtain ⟨root₁, hroot₁, rfl⟩ := List.mem_map.mp ((hperm hm').subset h₁)
  obtain ⟨root₂, hroot₂, rfl⟩ := List.mem_map.mp ((hperm hm).subset h₂)
  have hname : root₁.moduleName = root₂.moduleName := le_antisymm hle hge
  rw [List.inj_on_of_nodup_map h.distinct (hp.subset hroot₁) hroot₂ hname]

/-- The index of an entry leads to its name. -/
theorem nameAt_index {m : ModuleData} (hm : m ∈ moduleEntries modules) :
    nameAt modules m.index = some m.name := by
  obtain ⟨root, hroot, hentry⟩ := mem_moduleEntries.mp hm
  rw [nameAt, hroot, Option.map_some]
  exact congrArg (fun m => some (ModuleData.name m)) hentry

/-- In the order that the modules were taken in, imports come first. -/
theorem importsFirst_of_closed {done : List ModuleData} (hdone : done.Perm (moduleEntries modules))
    (hclosed : ∀ l₁ m l₂, done = l₁ ++ m :: l₂ → ∀ i ∈ m.imports,
      i.1 ∈ l₁.map ModuleData.name) :
    ImportsFirst modules (done.map ModuleData.index) := by
  intro l₁ i l₂ hsplit root hroot imp himp
  obtain ⟨d₁, d₂, rfl, rfl, hd⟩ := List.map_eq_append_iff.mp hsplit
  obtain ⟨m, d₂, rfl, rfl, rfl⟩ := List.map_eq_cons_iff.mp hd
  have hm : m ∈ moduleEntries modules := hdone.subset (List.mem_append_right _ (.head _))
  obtain ⟨root', hroot', hentry⟩ := mem_moduleEntries.mp hm
  rw [hroot, Option.some.injEq] at hroot'
  subst hroot'
  have hin := hclosed d₁ m d₂ rfl imp (by rw [← hentry]; exact himp)
  obtain ⟨m', hm', hname⟩ := List.mem_map.mp hin
  rw [List.map_map]
  refine List.mem_map.mpr ⟨m', hm', ?_⟩
  rw [← hname]
  exact nameAt_index (hdone.subset (List.mem_append_left _ hm'))

/-- A run on modules without cycles, with the modules as they were taken. -/
theorem exists_run_of_acyclic (h : ModuleList modules)
    (hacyclic : Reach.Acyclic (ImportsModule modules)) {iteration : ModuleMap → ModuleMap}
    (hi : (iteration (moduleEntries modules)).Perm (moduleEntries modules)) :
    ∃ st n, (∀ fuel, n ≤ fuel → sortPending (iteration (moduleEntries modules)) fuel
        { pending := sorted (iteration (moduleEntries modules)) } = .ok st) ∧
      st.output = [] ∧
      ∃ done : List ModuleData, done.Perm (moduleEntries modules) ∧
        st.result = done.map ModuleData.index ∧
        st.visited = (done.map ModuleData.name).reverse ∧
        ImportsFirst modules st.result := by
  have hb : Breakable (ImportsModule modules) (cycleFrom (moduleEntries modules))
      (sortedNames modules) ∅ :=
    breakable_of_settles (settles_of_acyclic hacyclic (finite_importing modules)) _
  obtain ⟨result, output, n₀, hn₀⟩ := (exists_sortsTo_iff h hi).mpr hb
  obtain ⟨st, hst, -⟩ := (moduleSort_eq_ok_iff h).mp (hn₀ n₀ le_rfl)
  obtain ⟨hrun, hnil⟩ := sortPending_run hst
  obtain ⟨n, hn⟩ := sortPending_of_run hrun hnil
  obtain ⟨done, hdone, hresult, -, hcycle, horder⟩ :=
    sortPending_result (h.valid hi) (sorted_perm _) hst
  -- Without a cycle nothing is reported, so no import was broken.
  have hempty : st.output = [] := by
    by_contra hne
    rw [imports_eq hi] at hcycle
    obtain ⟨a, ha⟩ := hcycle.mp hne
    exact hacyclic a ha
  obtain ⟨hvisited, hclosed⟩ := horder hempty
  refine ⟨st, n, hn, hempty, done, hdone.trans hi, hresult, hvisited, ?_⟩
  rw [hresult]
  exact importsFirst_of_closed (hdone.trans hi) hclosed

end Acyclic

/-- **Order.** Without cycles `moduleSort` reports no error. It gives every module
once, after the modules that it imports, and the sequence of names is one and the
same for every order of the modules and every order in which the map is iterated. -/
theorem moduleSort_acyclic {modules : List Ast} (h : ModuleList modules)
    (hacyclic : Reach.Acyclic (ImportsModule modules)) :
    ∃ names : List Str, ∀ modules' iteration, modules'.Perm modules →
      (iteration (moduleEntries modules')).Perm (moduleEntries modules') →
        ∃ result, SortsTo iteration modules' result [] ∧
          result.Perm (List.range modules'.length) ∧ ImportsFirst modules' result ∧
          result.map (nameAt modules') = names.map some := by
  have hid : (id (moduleEntries modules)).Perm (moduleEntries modules) := .rfl
  obtain ⟨st₀, n₀, hn₀, -, done₀, -, -, hvisited₀, -⟩ := exists_run_of_acyclic h hacyclic hid
  refine ⟨done₀.map ModuleData.name, fun modules' iteration hp hi => ?_⟩
  have h' := h.perm hp
  have hacyclic' : Reach.Acyclic (ImportsModule modules') := by
    rw [importsModule_perm hp]
    exact hacyclic
  obtain ⟨st, n, hn, hempty, done, hdone, hresult, hvisited, hfirst⟩ :=
    exists_run_of_acyclic h' hacyclic' hi
  refine ⟨st.result, ⟨n, fun fuel hle => ?_⟩, ?_, hfirst, ?_⟩
  · exact (moduleSort_eq_ok_iff h').mpr ⟨st, hn fuel hle, rfl, hempty⟩
  · rw [hresult]
    exact map_index_perm hdone
  · -- without the indices the two runs are the same run
    have hsame := sameImports_of_perm h h' hp (.refl (moduleEntries modules)) hi
    have hlen : (moduleEntries modules).length = (iteration (moduleEntries modules')).length := by
      rw [hi.length_eq, moduleEntries, moduleEntries, List.length_mapIdx, List.length_mapIdx,
        hp.length_eq]
    have hrun₀ := sortPending_eraseIndex hsame hlen (max n₀ n)
      { pending := sorted (moduleEntries modules) }
    have hself : SameImports (iteration (moduleEntries modules'))
      (iteration (moduleEntries modules')) := fun _ => rfl
    have hrun := sortPending_eraseIndex hself rfl (max n₀ n)
      { pending := sorted (iteration (moduleEntries modules')) }
    have hstart : ({ pending := sorted (iteration (moduleEntries modules')) } :
        SortState).eraseIndex =
          SortState.eraseIndex { pending := sorted (moduleEntries modules) } :=
      congrArg (fun pending => ({ pending } : SortState)) (sorted_eraseIndex h hp .rfl hi)
    have hok₀ : sortPending (moduleEntries modules) (max n₀ n)
        { pending := sorted (moduleEntries modules) } = .ok st₀ := hn₀ _ (le_max_left _ _)
    rw [hstart, hrun₀, hok₀, hn _ (le_max_right _ _)] at hrun
    have herased : st₀.eraseIndex = st.eraseIndex := Except.ok.inj hrun
    have hnames : st₀.eraseIndex.visited = st.eraseIndex.visited := by rw [herased]
    change st₀.visited = st.visited at hnames
    rw [hvisited₀, hvisited, List.reverse_inj] at hnames
    rw [hnames, hresult, List.map_map, List.map_map]
    exact List.map_congr_left fun m hm => nameAt_index (hdone.subset hm)

/-- A module that imports another one. -/
def oneImport : List Ast := [importing "a" ["b"], importing "b" []]

/-- The modules of the example have distinct names, and the imports are among them. -/
theorem oneImport_list : ModuleList oneImport where
  isModule root hroot := by
    simp only [oneImport, List.mem_cons, List.not_mem_nil, or_false] at hroot
    rcases hroot with rfl | rfl <;> exact ⟨_, _, _, _, rfl⟩
  distinct := by decide
  closed := by decide

/-- Two modules, one of which imports the other. -/
theorem moduleSort_acyclic_oneImport :
    ∃ names : List Str, ∀ modules' iteration, modules'.Perm oneImport →
      (iteration (moduleEntries modules')).Perm (moduleEntries modules') →
        ∃ result, SortsTo iteration modules' result [] ∧
          result.Perm (List.range modules'.length) ∧ ImportsFirst modules' result ∧
          result.map (nameAt modules') = names.map some := by
  refine moduleSort_acyclic oneImport_list fun a ha => ?_
  -- only `a` imports something, and not itself
  have hedge : ∀ x y, ImportsModule oneImport x y → x = "a".toList ∧ y = "b".toList := by
    rintro x y ⟨root, hroot, rfl, i, hi, rfl⟩
    simp only [oneImport, List.mem_cons, List.not_mem_nil, or_false] at hroot
    rcases hroot with rfl | rfl
    · obtain rfl : i = ("b".toList, {}) := List.mem_singleton.mp hi
      exact ⟨rfl, rfl⟩
    · exact absurd hi List.not_mem_nil
  obtain ⟨b, hab, hba⟩ := TransGen.head'_iff.mp ha
  obtain ⟨rfl, rfl⟩ := hedge _ _ hab
  rcases ReflTransGen.cases_head hba with heq | ⟨c, hbc, -⟩
  · exact absurd heq (by decide)
  · exact absurd (hedge _ _ hbc).1 (by decide)

end Aike
