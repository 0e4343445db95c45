import Aike.Model.Modules
import Aike.Lib.Dependency

/-!
# `Aike.Proofs.Modules.Loop`: the loop of `moduleSort`

`moduleSort` goes over the pending modules again and again. A pass takes every
module whose imports were visited (`Pass`), and when it takes none a cycle is
broken: one module on it counts as visited. `SortInv` is what holds between two
iterations, with the modules that were taken and the names that were broken at.

The search for a cycle starts from the first pending module and does not know
what was broken before. When it answers the same module again the loop makes no
progress, so the loop ends exactly when every module that has to wait is freed by
breaking the first cycle that the search finds from it
(`sortPending_breakable_iff`).
-/

set_option autoImplicit false

namespace Aike

open Relation Dependency

/-! ### One pass -/

/-- A pass over `pending` keeps `kept` and takes `done`. -/
inductive Pass : List Str → List ModuleData → List ModuleData → List ModuleData → Prop
  | nil (visited : List Str) : Pass visited [] [] []
  | ready {visited : List Str} {m : ModuleData} {pending kept done : List ModuleData}
      (isReady : moduleIsReady m visited = true)
      (rest : Pass (m.name :: visited) pending kept done) :
      Pass visited (m :: pending) kept (m :: done)
  | wait {visited : List Str} {m : ModuleData} {pending kept done : List ModuleData}
      (isReady : moduleIsReady m visited = false) (rest : Pass visited pending kept done) :
      Pass visited (m :: pending) (m :: kept) done

/-- The fold over some modules is a pass over them, which appends what it keeps and what
it takes to what there was. -/
theorem foldl_sortStep (pending : List ModuleData) (st : SortState) :
    ∃ kept done, Pass st.visited pending kept done ∧
      pending.foldl sortStep st =
        { pending := st.pending ++ kept
          visited := (done.map ModuleData.name).reverse ++ st.visited
          result := st.result ++ done.map ModuleData.index
          output := st.output } := by
  induction pending generalizing st with
  | nil => exact ⟨[], [], .nil _, by simp⟩
  | cons m pending ih =>
      rw [List.foldl_cons, sortStep]
      cases hready : moduleIsReady m st.visited with
      | true =>
          rw [if_pos rfl]
          obtain ⟨kept, done, hpass, heq⟩ := ih
            { st with result := st.result ++ [m.index], visited := m.name :: st.visited }
          exact ⟨kept, m :: done, .ready hready hpass, by rw [heq]; simp⟩
      | false =>
          rw [if_neg Bool.false_ne_true]
          obtain ⟨kept, done, hpass, heq⟩ := ih { st with pending := st.pending ++ [m] }
          exact ⟨m :: kept, done, .wait hready hpass, by rw [heq]; simp⟩

/-- A pass of the loop is one over all modules that are pending. -/
theorem sortPass_eq (st : SortState) :
    ∃ kept done, Pass st.visited st.pending kept done ∧
      sortPass st =
        { pending := kept
          visited := (done.map ModuleData.name).reverse ++ st.visited
          result := st.result ++ done.map ModuleData.index
          output := st.output } :=
  foldl_sortStep st.pending { st with pending := [] }

namespace Pass

variable {visited : List Str} {pending kept done : List ModuleData}

/-- A pass loses no module and has none twice. -/
theorem perm (h : Pass visited pending kept done) : (done ++ kept).Perm pending := by
  induction h with
  | nil => exact .nil
  | ready _ _ ih => exact ih.cons _
  | wait _ _ ih => exact List.perm_middle.trans (ih.cons _)

/-- A pass keeps no more modules than it was given. -/
theorem length_le (h : Pass visited pending kept done) : kept.length ≤ pending.length := by
  have hlen := h.perm.length_eq
  rw [List.length_append] at hlen
  omega

/-- A pass that takes nothing changes nothing, and nothing was ready. -/
theorem stuck (h : Pass visited pending kept done) (hlen : kept.length = pending.length) :
    done = [] ∧ kept = pending ∧ ∀ m ∈ pending, moduleIsReady m visited = false := by
  induction h with
  | nil => exact ⟨rfl, rfl, fun m hm => absurd hm List.not_mem_nil⟩
  | ready _ hrest _ =>
      have hle := hrest.length_le
      rw [List.length_cons] at hlen
      omega
  | wait hready _ ih =>
      rw [List.length_cons, List.length_cons, Nat.add_right_cancel_iff] at hlen
      obtain ⟨rfl, rfl, hall⟩ := ih hlen
      exact ⟨rfl, rfl, List.forall_mem_cons.mpr ⟨hready, hall⟩⟩

/-- The imports of a module that is taken were visited, or taken before it. -/
theorem closed (h : Pass visited pending kept done) {l₁ l₂ : List ModuleData} {m : ModuleData}
    (hdone : done = l₁ ++ m :: l₂) {i : Str × Location} (hi : i ∈ m.imports) :
    i.1 ∈ visited ∨ i.1 ∈ l₁.map ModuleData.name := by
  induction h generalizing l₁ with
  | nil => exact absurd hdone.symm (by simp)
  | wait _ _ ih => exact ih hdone
  | @ready visited m' _ _ _ hready _ ih =>
      cases l₁ with
      | nil =>
          obtain ⟨rfl, -⟩ := List.cons.inj hdone
          have := List.all_eq_true.mp hready i hi
          exact Or.inl (of_decide_eq_true this)
      | cons m₁ l₁ =>
          obtain ⟨rfl, hrest⟩ := List.cons.inj hdone
          rcases ih hrest with hv | hl
          · rcases List.mem_cons.mp hv with hv | hv
            · exact Or.inr (List.mem_cons.mpr (Or.inl hv))
            · exact Or.inl hv
          · exact Or.inr (List.mem_cons_of_mem _ hl)

end Pass

/-! ### What holds between iterations -/

/-- The modules `done` were taken and the names `broken` were broken at. -/
structure SortInv (modules : ModuleMap) (st : SortState) (done : List ModuleData)
    (broken : List Str) : Prop where
  perm : (done ++ st.pending).Perm modules
  result : st.result = done.map ModuleData.index
  visited : ∀ x, x ∈ st.visited ↔ x ∈ broken ∨ x ∈ done.map ModuleData.name
  trail : broken = [] → st.visited = (done.map ModuleData.name).reverse
  output : st.output.length = broken.length
  circular : ∀ d ∈ st.output, ∃ i, d = circularDependency i
  closed : ∀ l₁ m l₂, done = l₁ ++ m :: l₂ → ∀ i ∈ m.imports,
    i.1 ∈ broken ∨ i.1 ∈ l₁.map ModuleData.name

section Invariant

variable {modules : ModuleMap} {st : SortState} {done : List ModuleData} {broken : List Str}

/-- The loop starts with every module pending and none taken. -/
theorem SortInv.start (pending : List ModuleData) (h : pending.Perm modules) :
    SortInv modules { pending } [] [] where
  perm := h
  result := rfl
  visited x := by simp
  trail _ := rfl
  output := rfl
  circular d hd := absurd hd List.not_mem_nil
  closed l₁ m l₂ h := absurd h.symm (by simp)

/-- What a pass preserves. -/
theorem SortInv.pass (h : SortInv modules st done broken) :
    ∃ kept taken, Pass st.visited st.pending kept taken ∧ (sortPass st).pending = kept ∧
      SortInv modules (sortPass st) (done ++ taken) broken := by
  obtain ⟨kept, taken, hpass, heq⟩ := sortPass_eq st
  refine ⟨kept, taken, hpass, by rw [heq], ?_⟩
  rw [heq]
  refine ⟨?_, ?_, fun x => ?_, fun hb => ?_, h.output, h.circular, fun l₁ m l₂ hsplit i hi => ?_⟩
  · rw [List.append_assoc]
    exact (hpass.perm.append_left done).trans h.perm
  · show st.result ++ _ = _
    rw [h.result, List.map_append]
  · rw [List.map_append, List.mem_append, List.mem_append, List.mem_reverse, h.visited]
    tauto
  · rw [List.map_append, List.reverse_append, h.trail hb]
  · -- the module was taken before this pass, or in it
    rcases List.append_eq_append_iff.mp hsplit with ⟨l, rfl, hl⟩ | ⟨l, hdone, hl⟩
    · rcases hpass.closed hl hi with hv | hl
      · rw [h.visited] at hv
        rw [List.map_append, List.mem_append]
        tauto
      · exact Or.inr (by rw [List.map_append]; exact List.mem_append_right _ hl)
    · cases l with
      | nil =>
          rw [List.append_nil] at hdone
          have hnow : taken = [] ++ m :: l₂ := hl.symm
          rcases hpass.closed hnow hi with hv | hl
          · rw [h.visited, hdone] at hv
            exact hv
          · exact absurd hl List.not_mem_nil
      | cons m' l =>
          obtain ⟨rfl, -⟩ := List.cons.inj hl
          exact h.closed l₁ m l hdone i hi

/-- What breaking a cycle preserves. -/
theorem SortInv.broke (h : SortInv modules st done broken) (i : Str × Location) :
    SortInv modules
      { st with output := st.output ++ [circularDependency i], visited := i.1 :: st.visited }
      done (i.1 :: broken) where
  perm := h.perm
  result := h.result
  visited x := by
    rw [List.mem_cons, List.mem_cons, h.visited]
    tauto
  trail hb := absurd hb (List.cons_ne_nil _ _)
  output := by rw [List.length_append, h.output, List.length_singleton, List.length_cons]
  circular d hd := by
    rcases List.mem_append.mp hd with hd | hd
    · exact h.circular d hd
    · exact ⟨i, List.mem_singleton.mp hd⟩
  closed l₁ m l₂ hsplit j hj :=
    (h.closed l₁ m l₂ hsplit j hj).imp_left (List.mem_cons_of_mem _)

end Invariant

/-! ### Modules that wait -/

/-- Of two modules of a map, the first imports the second. -/
def ModuleMap.Imports (modules : ModuleMap) (a b : Str) : Prop :=
  ∃ m ∈ modules, m.name = a ∧ ∃ i ∈ m.imports, i.1 = b

/-- A map has one entry for each name, and every imported name has an entry. -/
structure ModuleMap.Valid (modules : ModuleMap) : Prop where
  distinct : (modules.map ModuleData.name).Nodup
  closed : ∀ m ∈ modules, ∀ i ∈ m.imports, i.1 ∈ modules.map ModuleData.name

section Waiting

variable {modules : ModuleMap} {st : SortState} {done : List ModuleData} {broken : List Str}

/-- Two entries of one name are the same entry. -/
theorem ModuleMap.Valid.eq_of_name (h : modules.Valid) {m m' : ModuleData} (hm : m ∈ modules)
    (hm' : m' ∈ modules) (hname : m.name = m'.name) : m = m' :=
  List.inj_on_of_nodup_map h.distinct hm hm' hname

/-- What was taken settles with the broken names given. -/
theorem SortInv.settles (h : SortInv modules st done broken) (hv : modules.Valid)
    {m : ModuleData} (hm : m ∈ done) : Settles modules.Imports {x | x ∈ broken} m.name := by
  -- by induction on the place of the module among those that were taken
  obtain ⟨l₁, l₂, hsplit⟩ := List.append_of_mem hm
  induction hn : l₁.length using Nat.strong_induction_on generalizing m l₁ l₂ with
  | _ n ih =>
      subst hn
      refine .intro fun b hb => ?_
      obtain ⟨m', hm', hname, i, hi, rfl⟩ := hb
      have hmem : m ∈ modules := h.perm.subset (List.mem_append_left _ hm)
      obtain rfl := hv.eq_of_name hm' hmem hname
      rcases h.closed l₁ m' l₂ hsplit i hi with hb | hl
      · exact Or.inl hb
      · obtain ⟨m₁, hm₁, hname₁⟩ := List.mem_map.mp hl
        obtain ⟨k₁, k₂, rfl⟩ := List.append_of_mem hm₁
        have hdone : done = k₁ ++ m₁ :: (k₂ ++ m' :: l₂) := by rw [hsplit]; simp
        have hlt : k₁.length < (k₁ ++ m₁ :: k₂).length := by
          rw [List.length_append, List.length_cons]
          omega
        have hm₁done : m₁ ∈ done := by rw [hdone]; exact List.mem_append_right _ (.head _)
        rw [← hname₁]
        exact Or.inr (ih _ hlt hm₁done k₁ _ hdone rfl)

/-- When no pending module is ready, none settles with the broken names given. -/
theorem SortInv.not_settles (h : SortInv modules st done broken) (hv : modules.Valid)
    (hstuck : ∀ m ∈ st.pending, moduleIsReady m st.visited = false) {m : ModuleData}
    (hm : m ∈ st.pending) : ¬ Settles modules.Imports {x | x ∈ broken} m.name := by
  intro hs
  -- by induction on the way that the name settles
  generalize hname : m.name = a at hs
  induction hs generalizing m with
  | intro a _ ih =>
      obtain ⟨i, hi, hnew⟩ := List.all_eq_false.mp (hstuck m hm)
      have hnew : i.1 ∉ st.visited := fun hmem => hnew (decide_eq_true hmem)
      have hmem : m ∈ modules := h.perm.subset (List.mem_append_right _ hm)
      obtain ⟨m', hm', hname'⟩ := List.mem_map.mp (hv.closed m hmem i hi)
      rw [h.visited, not_or] at hnew
      rcases List.mem_append.mp (h.perm.symm.subset hm') with hdone | hpending
      · exact hnew.2 (hname' ▸ List.mem_map_of_mem hdone)
      · exact ih i.1 ⟨⟨m, hmem, hname, i, hi, rfl⟩, hnew.1⟩ hpending hname'

/-- What a pass keeps is what was pending, without some modules that settle. -/
theorem Pass.keeps {modules : ModuleMap} {given : Set Str} {visited : List Str}
    {pending kept taken : List ModuleData} (h : Pass visited pending kept taken)
    (hs : ∀ m ∈ taken, Settles modules.Imports given m.name) :
    Keeps modules.Imports given (pending.map ModuleData.name) (kept.map ModuleData.name) := by
  induction h with
  | nil => exact .nil
  | ready _ _ ih =>
      rw [List.forall_mem_cons] at hs
      exact .drop hs.1 (ih hs.2)
  | wait _ _ ih => exact .keep (ih hs)

end Waiting

/-! ### The loop -/

/-- The module that the search answers, when it answers one. -/
def cycleFrom (modules : ModuleMap) (name : Str) : Option Str :=
  match findCircularDependency modules (name, {}) with
  | .ok («import», _) => if «import» = [] then none else some «import»
  | .error _ => none

section Loop

variable {modules : ModuleMap} {st st' : SortState} {done : List ModuleData} {broken : List Str}

/-- A cycle is broken at what the search answers. -/
theorem breakCycle_eq_ok_iff {first : ModuleData} :
    breakCycle modules first st = .ok st' ↔
      ∃ i : Str × Location, findCircularDependency modules (first.name, {}) = .ok i ∧ i.1 ≠ [] ∧
        { st with
          output := st.output ++ [circularDependency i]
          visited := i.1 :: st.visited } = st' := by
  unfold breakCycle
  cases hfind : findCircularDependency modules (first.name, {}) with
  | error e => exact ⟨fun h => (nomatch h), fun ⟨_, h, _⟩ => (nomatch h)⟩
  | ok i =>
      show (if i.1 = [] then _ else _) = _ ↔ _
      by_cases hi : i.1 = []
      · rw [if_pos hi]
        refine ⟨fun h => (nomatch h), fun ⟨j, hj, hne, _⟩ => ?_⟩
        cases hj
        exact absurd hi hne
      · rw [if_neg hi]
        constructor
        · intro h
          cases h
          exact ⟨i, rfl, hi, rfl⟩
        · rintro ⟨j, hj, -, rfl⟩
          cases hj
          rfl

/-- The module that is answered is the name of the import that `findCircularDependency`
returns, unless that is the empty one. -/
theorem cycleFrom_eq_some_iff {name c : Str} :
    cycleFrom modules name = some c ↔
      ∃ i : Str × Location, findCircularDependency modules (name, {}) = .ok i ∧ i.1 ≠ [] ∧
        i.1 = c := by
  unfold cycleFrom
  cases findCircularDependency modules (name, {}) with
  | error e => simp
  | ok i =>
      obtain ⟨x, l⟩ := i
      by_cases hx : x = []
      · simp [hx]
      · simp [hx]

/-- No iteration adds to the modules that are pending. -/
theorem sortPass_length_le (st : SortState) :
    (sortPass st).pending.length ≤ st.pending.length := by
  obtain ⟨kept, taken, hpass, heq⟩ := sortPass_eq st
  rw [heq]
  exact hpass.length_le

/-- One iteration of the loop. -/
inductive Iterates (modules : ModuleMap) : SortState → SortState → Prop
  | pass {st : SortState} (shorter : (sortPass st).pending.length ≠ st.pending.length) :
      Iterates modules st (sortPass st)
  | broke {st st' : SortState} {first : ModuleData} {rest : List ModuleData}
      (pending : st.pending = first :: rest)
      (stuck : (sortPass st).pending.length = st.pending.length)
      (breaks : breakCycle modules first (sortPass st) = .ok st') : Iterates modules st st'

/-- A result of the loop is one of a run of iterations. -/
theorem sortPending_run {fuel : Nat} (h : sortPending modules fuel st = .ok st') :
    ReflTransGen (Iterates modules) st st' ∧ st'.pending = [] := by
  induction fuel generalizing st with
  | zero =>
      unfold sortPending at h
      split at h
      case h_1 hnil =>
        cases h
        exact ⟨.refl, hnil⟩
      case h_2 => exact (nomatch h)
  | succ fuel ih =>
      unfold sortPending at h
      split at h
      case h_1 hnil =>
        cases h
        exact ⟨.refl, hnil⟩
      -- A pass that takes nothing breaks a cycle.
      case h_2 first rest hcons =>
        by_cases hlen : (sortPass st).pending.length = st.pending.length
        · rw [if_pos hlen] at h
          cases hbreak : breakCycle modules first (sortPass st) with
          | error e =>
              rw [hbreak] at h
              exact (nomatch h)
          | ok next =>
              rw [hbreak] at h
              obtain ⟨hrun, hnil⟩ := ih h
              exact ⟨.head (.broke hcons hlen hbreak) hrun, hnil⟩
        · rw [if_neg hlen] at h
          obtain ⟨hrun, hnil⟩ := ih h
          exact ⟨.head (.pass hlen) hrun, hnil⟩

/-- What a run of iterations ends in is the result, with enough fuel. -/
theorem sortPending_of_run (h : ReflTransGen (Iterates modules) st st') (hnil : st'.pending = []) :
    ∃ n, ∀ fuel, n ≤ fuel → sortPending modules fuel st = .ok st' := by
  induction h using ReflTransGen.head_induction_on with
  | refl =>
      refine ⟨0, fun fuel _ => ?_⟩
      cases fuel with
      | zero => rw [sortPending, hnil]; rfl
      | succ fuel => rw [sortPending, hnil]; rfl
  | @head st next hstep _ ih =>
      obtain ⟨n, hn⟩ := ih
      refine ⟨n + 1, fun fuel hle => ?_⟩
      obtain ⟨fuel, rfl⟩ : ∃ k, fuel = k + 1 := ⟨fuel - 1, by omega⟩
      have hnext := hn fuel (by omega)
      cases hstep with
      | pass hlen =>
          cases hpending : st.pending with
          | nil =>
              -- nothing is pending, so a pass is no shorter
              have hle := sortPass_length_le st
              rw [hpending] at hle hlen
              exact absurd (Nat.le_zero.mp hle) hlen
          | cons first rest =>
              rw [sortPending, hpending]
              show (if _ then _ else _) = _
              rw [← hpending, if_neg hlen, hnext]
      | broke hpending hlen hbreak =>
          rw [sortPending, hpending]
          show (if _ then _ else _) = _
          rw [← hpending, if_pos hlen, hbreak]
          exact hnext

/-- A pass that keeps everything changes nothing. -/
theorem sortPass_eq_self (hlen : (sortPass st).pending.length = st.pending.length) :
    sortPass st = st ∧ ∀ m ∈ st.pending, moduleIsReady m st.visited = false := by
  obtain ⟨kept, taken, hpass, heq⟩ := sortPass_eq st
  rw [heq] at hlen
  obtain ⟨rfl, rfl, hstuck⟩ := hpass.stuck hlen
  refine ⟨?_, hstuck⟩
  rw [heq, List.map_nil, List.map_nil, List.append_nil]
  rfl

/-- The names of the pending modules. -/
def SortState.names (st : SortState) : List Str := st.pending.map ModuleData.name

/-- What one iteration preserves: the invariant, and whether the rest can be
broken up. It breaks at a name only when some module does not settle. -/
theorem Iterates.inv (h : Iterates modules st st') (hv : modules.Valid)
    (hi : SortInv modules st done broken) :
    ∃ done' broken', SortInv modules st' done' broken' ∧
      (Breakable modules.Imports (cycleFrom modules) st.names {x | x ∈ broken} ↔
        Breakable modules.Imports (cycleFrom modules) st'.names {x | x ∈ broken'}) ∧
      ((∀ a, Settles modules.Imports {x | x ∈ broken} a) → broken' = broken) := by
  cases h with
  | pass hlen =>
      obtain ⟨kept, taken, hpass, hkept, hi'⟩ := hi.pass
      have hkeeps := hpass.keeps fun m hm => hi'.settles hv (List.mem_append_right _ hm)
      refine ⟨_, broken, hi', ?_, fun _ => rfl⟩
      rw [SortState.names, SortState.names, hkept]
      exact hkeeps.breakable_iff le_rfl
  | @broke _ first rest hpending hlen hbreak =>
      obtain ⟨hself, hstuck⟩ := sortPass_eq_self hlen
      rw [hself] at hbreak
      obtain ⟨i, hfind, hne, rfl⟩ := breakCycle_eq_ok_iff.mp hbreak
      have hfirst := hi.not_settles hv hstuck (hpending ▸ List.mem_cons_self)
      refine ⟨done, i.1 :: broken, hi.broke i, ?_, fun hall => absurd (hall _) hfirst⟩
      have hnames : st.names = first.name :: rest.map ModuleData.name := by
        rw [SortState.names, hpending, List.map_cons]
      have hinsert : {x | x ∈ i.1 :: broken} = Insert.insert i.1 {x | x ∈ broken} := by
        ext x
        exact List.mem_cons
      show Breakable _ _ st.names _ ↔ Breakable _ _ st.names _
      rw [hnames, hinsert]
      exact breakable_cons_iff hfirst (cycleFrom_eq_some_iff.mpr ⟨i, hfind, hne, rfl⟩)

/-- What a run preserves. -/
theorem run_inv (h : ReflTransGen (Iterates modules) st st') (hv : modules.Valid)
    (hi : SortInv modules st done broken) :
    ∃ done' broken', SortInv modules st' done' broken' ∧
      (Breakable modules.Imports (cycleFrom modules) st.names {x | x ∈ broken} ↔
        Breakable modules.Imports (cycleFrom modules) st'.names {x | x ∈ broken'}) ∧
      ((∀ a, Settles modules.Imports {x | x ∈ broken} a) → broken' = broken) := by
  induction h with
  | refl => exact ⟨done, broken, hi, Iff.rfl, fun _ => rfl⟩
  | tail _ hstep ih =>
      obtain ⟨done₁, broken₁, hi₁, hiff₁, hsame₁⟩ := ih
      obtain ⟨done₂, broken₂, hi₂, hiff₂, hsame₂⟩ := hstep.inv hv hi₁
      refine ⟨done₂, broken₂, hi₂, hiff₁.trans hiff₂, fun hall => ?_⟩
      obtain rfl := hsame₁ hall
      exact hsame₂ hall

/-- A pass takes something when a pending module settles. -/
theorem SortInv.pass_shorter (hi : SortInv modules st done broken) (hv : modules.Valid)
    {m : ModuleData} (hm : m ∈ st.pending)
    (hs : Settles modules.Imports {x | x ∈ broken} m.name) :
    (sortPass st).pending.length ≠ st.pending.length := fun hlen =>
  hi.not_settles hv (sortPass_eq_self hlen).2 hm hs

/-- The loop ends when every module that has to wait is freed by its cycle. -/
theorem SortInv.exists_run (hi : SortInv modules st done broken) (hv : modules.Valid)
    (hb : Breakable modules.Imports (cycleFrom modules) st.names {x | x ∈ broken}) :
    ∃ st', ReflTransGen (Iterates modules) st st' ∧ st'.pending = [] := by
  induction hn : st.pending.length using Nat.strong_induction_on generalizing st done broken with
  | _ n ih =>
      -- a pass that takes something leaves fewer modules
      have hpass {st : SortState} {done : List ModuleData} {broken : List Str}
          (hi : SortInv modules st done broken)
          (hb : Breakable modules.Imports (cycleFrom modules) st.names {x | x ∈ broken})
          (hle : st.pending.length ≤ n)
          (hne : (sortPass st).pending.length ≠ st.pending.length) :
          ∃ st', ReflTransGen (Iterates modules) st st' ∧ st'.pending = [] := by
        have hstep : Iterates modules st (sortPass st) := .pass hne
        obtain ⟨done', broken', hi', hiff, -⟩ := hstep.inv hv hi
        have hlt := sortPass_length_le st
        obtain ⟨st', hrun, hnil⟩ := ih _ (by omega) hi' (hiff.mp hb) rfl
        exact ⟨st', .head hstep hrun, hnil⟩
      by_cases hlen : (sortPass st).pending.length = st.pending.length
      · obtain ⟨hself, hstuck⟩ := sortPass_eq_self hlen
        cases hpending : st.pending with
        | nil => exact ⟨st, .refl, hpending⟩
        | cons first rest =>
            have hfirst : first ∈ st.pending := hpending ▸ List.mem_cons_self
            have hnames : st.names = first.name :: rest.map ModuleData.name := by
              rw [SortState.names, hpending, List.map_cons]
            have hwaits := hi.not_settles hv hstuck hfirst
            have hcut := hb
            rw [hnames] at hcut
            obtain ⟨-, c, hc, hs, -⟩ := hcut.resolve_left fun h => hwaits h.1
            obtain ⟨i, hfind, hne, rfl⟩ := cycleFrom_eq_some_iff.mp hc
            have hbreak : breakCycle modules first st = .ok
                { st with
                  output := st.output ++ [circularDependency i]
                  visited := i.1 :: st.visited } :=
              breakCycle_eq_ok_iff.mpr ⟨i, hfind, hne, rfl⟩
            have hstep := Iterates.broke hpending hlen (by rw [hself]; exact hbreak)
            -- with the cycle broken, the next pass takes the first module
            have hi' := hi.broke i
            have hinsert : {x | x ∈ i.1 :: broken} = Insert.insert i.1 {x | x ∈ broken} :=
              Set.ext fun x => List.mem_cons
            have hb' := (breakable_cons_iff hwaits hc).mp (hnames ▸ hb)
            rw [← hinsert] at hs hb'
            obtain ⟨st', hrun, hnil⟩ := hpass hi' (by rw [← hnames] at hb'; exact hb') hn.le
              (hi'.pass_shorter hv hfirst hs)
            exact ⟨st', .head hstep hrun, hnil⟩
      · exact hpass hi hb hn.le hlen

/-- The loop on a valid map: it has a result exactly when every module that has to
wait is freed by its cycle. -/
theorem sortPending_breakable_iff {pending : List ModuleData} (hv : modules.Valid)
    (hp : pending.Perm modules) :
    (∃ st' n, ∀ fuel, n ≤ fuel → sortPending modules fuel { pending } = .ok st') ↔
      Breakable modules.Imports (cycleFrom modules) (pending.map ModuleData.name) ∅ := by
  have hi := SortInv.start pending hp
  have hempty : {x : Str | x ∈ []} = ∅ := by simp
  constructor
  · rintro ⟨st', n, h⟩
    obtain ⟨hrun, hnil⟩ := sortPending_run (h n le_rfl)
    obtain ⟨done, broken, -, hiff, -⟩ := run_inv hrun hv hi
    rw [hempty] at hiff
    refine hiff.mpr ?_
    rw [SortState.names, hnil]
    trivial
  · intro hb
    rw [← hempty] at hb
    obtain ⟨st', hrun, hnil⟩ := hi.exists_run hv hb
    obtain ⟨n, hn⟩ := sortPending_of_run hrun hnil
    exact ⟨st', n, hn⟩

/-- What a result of the loop is: every module once, an error exactly when there is
a cycle, and without one every module after what it imports, as they were
visited. -/
theorem sortPending_result {pending : List ModuleData} (hv : modules.Valid)
    (hp : pending.Perm modules) {fuel : Nat} (h : sortPending modules fuel { pending } = .ok st') :
    ∃ done : List ModuleData, done.Perm modules ∧ st'.result = done.map ModuleData.index ∧
      (∀ d ∈ st'.output, ∃ i, d = circularDependency i) ∧
      (st'.output ≠ [] ↔ ∃ a, TransGen modules.Imports a a) ∧
      (st'.output = [] → st'.visited = (done.map ModuleData.name).reverse ∧
        ∀ l₁ m l₂, done = l₁ ++ m :: l₂ → ∀ i ∈ m.imports, i.1 ∈ l₁.map ModuleData.name) := by
  obtain ⟨hrun, hnil⟩ := sortPending_run h
  obtain ⟨done, broken, hi, -, hsame⟩ := run_inv hrun hv (SortInv.start pending hp)
  have hperm := hi.perm
  rw [hnil, List.append_nil] at hperm
  have hout : st'.output = [] ↔ broken = [] := by
    rw [← List.length_eq_zero_iff, hi.output, List.length_eq_zero_iff]
  refine ⟨done, hperm, hi.result, hi.circular, ⟨fun hne => ?_, ?_⟩,
    fun hempty => ⟨hi.trail (hout.mp hempty), fun l₁ m l₂ hsplit i him => ?_⟩⟩
  · -- without a cycle every module settles, and nothing is broken
    by_contra hacyclic
    have hacyclic : Reach.Acyclic modules.Imports := fun a ha => hacyclic ⟨a, ha⟩
    have hsettles := settles_of_acyclic hacyclic <|
      (modules.map ModuleData.name).finite_toSet.subset fun a ⟨b, m, hm, hname, _⟩ =>
        hname ▸ List.mem_map_of_mem hm
    have hempty : {x : Str | x ∈ []} = ∅ := by simp
    rw [hempty] at hsame
    exact hne (hout.mpr (hsame hsettles))
  · rintro ⟨a, ha⟩ hempty
    obtain rfl := hout.mp hempty
    obtain ⟨b, ⟨m, hm, rfl, -⟩, -⟩ := TransGen.head'_iff.mp ha
    have hs := hi.settles hv (hperm.symm.subset hm)
    simp only [List.not_mem_nil] at hs
    exact Settles.not_self hs ha
  · obtain rfl := hout.mp hempty
    exact (hi.closed l₁ m l₂ hsplit i him).resolve_left List.not_mem_nil

end Loop

end Aike
