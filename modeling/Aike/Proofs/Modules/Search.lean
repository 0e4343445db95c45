import Aike.Proofs.Modules.Sort

/-!
# `Aike.Proofs.Modules.Search`: the search for a cycle

`moduleSort` asserts that a module that is imported is in the map, and that the
search from a module that waits finds a cycle. Both hold when every import has a
name and names a module that is there (`moduleSort_ne_assertion`).
-/

set_option autoImplicit false

namespace Aike

open Relation Dependency

variable {modules : ModuleMap}

/-- Every import has a name. -/
def ModuleMap.Named (modules : ModuleMap) : Prop := ∀ m ∈ modules, ∀ i ∈ m.imports, i.1 ≠ []

/-- No call answers a name, or one of them ends with the fault. -/
theorem firstAnswer_cases {f : Str × Location → Except Fault (Str × Location)}
    (imports : List (Str × Location)) :
    (∀ r, firstAnswer f imports = .ok r → r.1 = [] → ∀ i ∈ imports, ∃ r', f i = .ok r' ∧
      r'.1 = []) ∧
      (∀ e, firstAnswer f imports = .error e → ∃ i ∈ imports, f i = .error e) := by
  induction imports with
  | nil => exact ⟨fun r _ _ i hi => absurd hi List.not_mem_nil, fun e h => (nomatch h)⟩
  | cons i imports ih =>
      cases hi : f i with
      | error e =>
          have hfirst : firstAnswer f (i :: imports) = .error e := by
            rw [firstAnswer, hi]
            rfl
          rw [hfirst]
          refine ⟨fun r h => (nomatch h), fun e' h => ⟨i, List.mem_cons_self, ?_⟩⟩
          rw [hi]
          cases h
          rfl
      | ok answer =>
          have hfirst : firstAnswer f (i :: imports) =
              if answer.1 ≠ [] then .ok answer else firstAnswer f imports := by
            rw [firstAnswer, hi]
            rfl
          rw [hfirst]
          -- An empty answer means none, and the next import is asked.
          by_cases hne : answer.1 ≠ []
          · rw [if_pos hne]
            refine ⟨fun r h hr => ?_, fun e h => (nomatch h)⟩
            cases h
            exact absurd hr hne
          · rw [if_neg hne]
            refine ⟨fun r h hr j hj => ?_, fun e h => ?_⟩
            · rcases List.mem_cons.mp hj with rfl | hj
              · exact ⟨answer, hi, not_not.mp hne⟩
              · exact ih.1 r h hr j hj
            · obtain ⟨j, hj, he⟩ := ih.2 e h
              exact ⟨j, List.mem_cons_of_mem _ hj, he⟩

/-- A search that finds nothing starts at a module that settles. -/
theorem findCircularDependencyRec_spec (hv : modules.Valid) (hnamed : modules.Named) (fuel : Nat)
    {i : Str × Location} {visited : List Str} (hi : i.1 ∈ modules.map ModuleData.name)
    (hne : i.1 ∈ visited → i.1 ≠ []) :
    (∀ r, findCircularDependencyRec modules fuel i visited = .ok r → r.1 = [] →
      Settles modules.Imports ∅ i.1) ∧
      findCircularDependencyRec modules fuel i visited ≠ .error .assertion := by
  induction fuel generalizing i visited with
  | zero => exact ⟨fun r h => (nomatch h), fun h => (nomatch h)⟩
  | succ fuel ih =>
      rw [findCircularDependencyRec]
      by_cases hmem : i.1 ∈ visited
      · rw [if_pos hmem]
        refine ⟨fun r h hr => ?_, fun h => (nomatch h)⟩
        cases h
        exact absurd hr (hne hmem)
      · rw [if_neg hmem]
        obtain ⟨m, hm, hname⟩ := List.mem_map.mp hi
        have hfind : findModule modules i.1 = some m := hv.findModule_iff.mpr ⟨hm, hname⟩
        rw [hfind]
        -- the imports of the module, each searched with one more name on the way
        have hrec : ∀ j ∈ m.imports,
            (∀ r, findCircularDependencyRec modules fuel j (i.1 :: visited) = .ok r → r.1 = [] →
              Settles modules.Imports ∅ j.1) ∧
            findCircularDependencyRec modules fuel j (i.1 :: visited) ≠ .error .assertion :=
          fun j hj => ih (hv.closed m hm j hj) fun _ => hnamed m hm j hj
        obtain ⟨hok, herror⟩ := firstAnswer_cases
          (f := fun j => findCircularDependencyRec modules fuel j (i.1 :: visited)) m.imports
        refine ⟨fun r h hr => .intro fun b hb => .inr ?_, fun h => ?_⟩
        · obtain ⟨m', hm', hname', j, hj, rfl⟩ := hb
          obtain rfl := hv.eq_of_name hm' hm (hname'.trans hname.symm)
          obtain ⟨r', hr', hempty⟩ := hok r h hr j hj
          exact (hrec j hj).1 r' hr' hempty
        · obtain ⟨j, hj, he⟩ := herror _ h
          exact (hrec j hj).2 he

/-- What the loop does to a cycle fails no assertion. -/
theorem breakCycle_ne_assertion (hv : modules.Valid) (hnamed : modules.Named) {st : SortState}
    {first : ModuleData} (hfirst : first ∈ modules)
    (hwaits : ¬ Settles modules.Imports ∅ first.name) :
    breakCycle modules first st ≠ .error .assertion := by
  obtain ⟨hok, herror⟩ := findCircularDependencyRec_spec hv hnamed (modules.length + 1)
    (i := (first.name, {})) (List.mem_map_of_mem hfirst)
    fun h => absurd h List.not_mem_nil
  intro h
  unfold breakCycle findCircularDependency at h
  cases hfind : findCircularDependencyRec modules (modules.length + 1) (first.name, {}) [] with
  | error e =>
      rw [hfind] at h herror
      cases h
      exact herror rfl
  | ok r =>
      rw [hfind] at h
      -- No cycle found means that the module settles.
      by_cases hr : r.1 = []
      · exact hwaits (hok r hfind hr)
      · change (if r.1 = [] then _ else _) = _ at h
        rw [if_neg hr] at h
        cases h

/-- The loop fails no assertion. -/
theorem sortPending_ne_assertion (hv : modules.Valid) (hnamed : modules.Named) (fuel : Nat)
    {st : SortState} {done : List ModuleData} {broken : List Str}
    (hi : SortInv modules st done broken) : sortPending modules fuel st ≠ .error .assertion := by
  induction fuel generalizing st done broken with
  | zero =>
      rw [sortPending]
      split
      · intro h
        cases h
      · intro h
        cases h
  | succ fuel ih =>
      rw [sortPending]
      split
      case h_1 =>
        intro h
        cases h
      case h_2 first rest hpending =>
        by_cases hlen : (sortPass st).pending.length = st.pending.length
        · obtain ⟨hself, hstuck⟩ := sortPass_eq_self hlen
          have hfirst : first ∈ st.pending := hpending ▸ List.mem_cons_self
          -- A module that is left after such a pass waits for one of its imports.
          have hwaits : ¬ Settles modules.Imports ∅ first.name := fun hs =>
            hi.not_settles hv hstuck hfirst (hs.mono (Set.empty_subset _))
          have hbreak : breakCycle modules first (sortPass st) ≠ .error .assertion :=
            breakCycle_ne_assertion hv hnamed
              (hi.perm.subset (List.mem_append_right _ hfirst)) hwaits
          show (if _ then _ else _) ≠ _
          rw [if_pos hlen]
          cases hnext : breakCycle modules first (sortPass st) with
          | error e =>
              rw [hnext] at hbreak
              exact fun h => hbreak (by cases h; rfl)
          | ok next =>
              rw [hself] at hnext
              obtain ⟨i, -, -, rfl⟩ := breakCycle_eq_ok_iff.mp hnext
              exact ih (hi.broke i)
        · show (if _ then _ else _) ≠ _
          rw [if_neg hlen]
          obtain ⟨kept, taken, -, -, hi'⟩ := hi.pass
          exact ih hi'

/-- `moduleSort` fails no assertion. -/
theorem moduleSort_ne_assertion {roots : List Ast} {iteration : ModuleMap → ModuleMap}
    (h : ModuleList roots)
    (hi : (iteration (moduleEntries roots)).Perm (moduleEntries roots))
    (hnamed : ∀ root ∈ roots, ∀ i ∈ moduleGatherImports root, i.1 ≠ []) (fuel : Nat) :
    moduleSort fuel iteration roots ≠ .error .assertion := by
  have hnamed' : ModuleMap.Named (iteration (moduleEntries roots)) := by
    intro m hm i him
    obtain ⟨root, hroot, him⟩ :=
      (exists_entry_iff hi (p := fun _ imports => i ∈ imports)).mp ⟨m, hm, him⟩
    exact hnamed root hroot i him
  have hloop := sortPending_ne_assertion (h.valid hi) hnamed' fuel
    (SortInv.start (sorted (iteration (moduleEntries roots))) (sorted_perm _))
  rw [moduleSort_eq h]
  intro heq
  cases hrun : sortPending (iteration (moduleEntries roots)) fuel
      { pending := sorted (iteration (moduleEntries roots)) } with
  | error e =>
      rw [hrun] at heq hloop
      cases heq
      exact hloop rfl
  | ok st =>
      rw [hrun] at heq
      cases heq

end Aike
