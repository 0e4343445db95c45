import Aike.Lib.Flow.Init
import Aike.Proofs.Codegen.Run
import Aike.Proofs.Compile

/-!
# `Aike.Proofs.Codegen.Init`: variables that are read before they are initialised

A `var` is visible until the end of the block around it, and may stand in a part
of that block that is not always run. On every path through an emitted body each
load of a variable comes after the store that initialises its slot
(`Graph.InitialisedFirst`) exactly when the body reads ready variables only.
-/

set_option autoImplicit false

namespace Aike

/-! ### Paths through the emitted code -/

/-- The instructions of a block. -/
def BasicBlock.ops (b : BasicBlock) : List Op := b.instrs.map Instr.op

/-- A path from the first block to the start of a block, with the instructions on
it. -/
inductive Graph.Path (g : Graph) : BlockId → List Op → Prop
  | entry : Path g 0 []
  | step {b c : BlockId} {l : List Op} (path : Path g b l) (edge : c ∈ (g.blocks b).successors) :
      Path g c (l ++ (g.blocks b).ops)

/-- The instruction initialises a slot of the function. -/
def Op.Initialises (f : FunctionId) (n : Nat) : Op → Prop
  | .store _ ⟨_, .slot g m⟩ (some _) => g = f ∧ m = n
  | _ => False

/-- On every path, when a variable is loaded from a slot, the slot is one of the
function, and the path has initialised it. -/
def Graph.InitialisedFirst (f : FunctionId) (g : Graph) : Prop :=
  ∀ b l, g.Path b l → ∀ before address name after,
    (g.blocks b).ops = before ++ .load address (some name) :: after →
      ∀ owner n, address.value = .slot owner n →
        owner = f ∧ ∃ op ∈ l ++ before, op.Initialises f n

/-! ### Instructions and events -/

/-- An instruction has the event that initialises a slot if and only if it stores
a variable there. -/
theorem Op.init_mem_events {f : FunctionId} {n : Nat} {op : Op} :
    .init (some n) ∈ op.events f ↔ op.Initialises f n := by
  cases op with
  | load address name =>
      cases name with
      | none => simp [Op.events, Op.Initialises]
      | some name =>
          simp only [Op.events, Op.Initialises]
          cases address.loc f <;> simp [Flow.Loc.events]
  | store value address init =>
      obtain ⟨type, v⟩ := address
      cases init with
      | none => cases v <;> simp [Op.events, Op.Initialises]
      | some x =>
          cases v with
          | slot g m =>
              simp only [Op.events, Op.Initialises]
              split <;> simp_all [eq_comm]
          | _ => simp [Op.events, Op.Initialises]
  | _ => simp [Op.events, Op.Initialises]

/-- No instruction initialises all slots at once. -/
theorem Op.init_none_not_mem_events {f : FunctionId} {op : Op} : .init none ∉ op.events f := by
  cases op with
  | load address name =>
      cases name with
      | none => simp [Op.events]
      | some name =>
          simp only [Op.events]
          cases address.loc f <;> simp [Flow.Loc.events]
  | store value address init =>
      obtain ⟨type, v⟩ := address
      cases init with
      | none => cases v <;> simp [Op.events]
      | some x =>
          cases v with
          | slot g m =>
              simp only [Op.events]
              split <;> simp
          | _ => simp [Op.events]
  | _ => simp [Op.events]

/-- The load of a variable from a slot is what makes the event of a load. -/
theorem Op.events_eq_load {f : FunctionId} {r : Option Nat} {op : Op} :
    op.events f = [.load r] ↔ ∃ address name owner n, op = .load address (some name) ∧
      address.value = .slot owner n ∧ r = if owner = f then some n else none := by
  cases op with
  | load address name =>
      obtain ⟨type, v⟩ := address
      cases name with
      | none => simp [Op.events]
      | some name =>
          cases v with
          | slot g m =>
              simp only [Op.events, Value.loc, Op.load.injEq, Option.some.injEq]
              split <;> simp_all [Flow.Loc.events, eq_comm]
          | arg g m | reg g m =>
              simp only [Op.events, Value.loc]
              split <;> simp [Flow.Loc.events]
          | _ => simp [Op.events, Value.loc, Flow.Loc.events]
  | store value address init =>
      obtain ⟨type, v⟩ := address
      cases init with
      | none => simp [Op.events]
      | some x =>
          cases v with
          | slot g m =>
              simp only [Op.events]
              split <;> simp
          | _ => simp [Op.events]
  | _ => simp [Op.events]

/-- An instruction is at most one event. -/
theorem Op.length_events_le (f : FunctionId) (op : Op) : (op.events f).length ≤ 1 := by
  cases op with
  | load address name =>
      cases name with
      | none => simp [Op.events]
      | some name =>
          simp only [Op.events]
          cases address.loc f <;> simp [Flow.Loc.events]
  | store value address init =>
      obtain ⟨type, v⟩ := address
      cases init with
      | none => simp [Op.events]
      | some x =>
          cases v with
          | slot g m =>
              simp only [Op.events]
              split <;> simp
          | _ => simp [Op.events]
  | _ => simp [Op.events]

/-- Where each element gives at most one, a result is one of an element. -/
theorem flatMap_eq_append_cons {α β : Type} {g : α → List β} (hg : ∀ a, (g a).length ≤ 1)
    {as : List α} {before after : List β} {b : β} (h : as.flatMap g = before ++ b :: after) :
    ∃ as₁ a as₂, as = as₁ ++ a :: as₂ ∧ as₁.flatMap g = before ∧ g a = [b] := by
  induction as generalizing before with
  | nil => simp at h
  | cons a as ih =>
      rw [List.flatMap_cons] at h
      have hlen := hg a
      match hga : g a with
      | [] =>
          rw [hga, List.nil_append] at h
          obtain ⟨as₁, c, as₂, rfl, rfl, hc⟩ := ih h
          exact ⟨a :: as₁, c, as₂, rfl, by rw [List.flatMap_cons, hga, List.nil_append], hc⟩
      | [x] =>
          rw [hga] at h
          cases before with
          | nil =>
              rw [List.nil_append, List.cons_append, List.cons.injEq] at h
              exact ⟨[], a, as, rfl, rfl, by rw [hga, h.1]⟩
          | cons y before =>
              rw [List.cons_append, List.nil_append, List.cons_append, List.cons.injEq] at h
              obtain ⟨as₁, c, as₂, rfl, rfl, hc⟩ := ih h.2
              exact ⟨a :: as₁, c, as₂, rfl, by rw [List.flatMap_cons, hga, h.1]; rfl, hc⟩
      | x :: y :: l =>
          rw [hga] at hlen
          simp at hlen

section Refines

variable {cx : CodegenContext} {e : Emitted} {s₀ s₁ : Flow.State VarId}

/-- The events of some instructions. -/
def events (f : FunctionId) (ops : List Op) : List Flow.Event := ops.flatMap (Op.events f)

/-- A slot is initialised among the events of some instructions if and only if one of them
does it. -/
theorem init_mem_events {f : FunctionId} {n : Nat} {ops : List Op} :
    .init (some n) ∈ events f ops ↔ ∃ op ∈ ops, op.Initialises f n := by
  simp only [events, List.mem_flatMap, Op.init_mem_events]

/-- The events of a block in the flow graph are those of its instructions in the emitted
body. -/
theorem Emitted.Refines.events_eq (h : e.Refines cx s₀ s₁) (b : BlockId) :
    (s₁.blocks b).events = events e.inst.value (e.graph.blocks b).ops := by
  rw [← h.blocks, events, BasicBlock.ops, List.flatMap_map]
  rfl

/-- The paths of the flow graph are those of the emitted body, with the events of the
instructions on them. -/
theorem Emitted.Refines.path_iff (h : e.Refines cx s₀ s₁) {b : BlockId} {l : List Flow.Event} :
    Flow.Path s₁ b l ↔ ∃ ops, e.graph.Path b ops ∧ events e.inst.value ops = l := by
  constructor
  · intro hp
    induction hp with
    | entry => exact ⟨[], .entry, rfl⟩
    | @step b c l _ edge ih =>
        obtain ⟨ops, hops, rfl⟩ := ih
        rw [← h.blocks] at edge
        refine ⟨ops ++ (e.graph.blocks b).ops, .step hops edge, ?_⟩
        rw [h.events_eq, events, List.flatMap_append]
        rfl
  · rintro ⟨ops, hp, rfl⟩
    induction hp with
    | entry => exact .entry
    | @step b c ops _ edge ih =>
        have hstep : Flow.Path s₁ c (_ ++ (s₁.blocks b).events) :=
          .step ih (by rw [← h.blocks]; exact edge)
        rwa [h.events_eq, events, events, ← List.flatMap_append] at hstep

/-- An emitted body initialises its variables before they are loaded if and only if the
flow graph is safe. It moves the claim from instructions to events. -/
theorem Emitted.Refines.initialisedFirst_iff (h : e.Refines cx s₀ s₁) :
    e.graph.InitialisedFirst e.inst.value ↔ Flow.Safe s₁ := by
  constructor
  · intro hg b l hp before r after hes
    obtain ⟨ops, hops, rfl⟩ := h.path_iff.mp hp
    rw [h.events_eq] at hes
    obtain ⟨as₁, op, as₂, has, rfl, hop⟩ := flatMap_eq_append_cons (Op.length_events_le _) hes
    obtain ⟨address, name, owner, n, rfl, hslot, rfl⟩ := Op.events_eq_load.mp hop
    obtain ⟨rfl, hinit⟩ := hg b ops hops as₁ address name as₂ has owner n hslot
    rw [if_pos rfl, ← events, events, events, ← List.flatMap_append]
    exact init_mem_events.mpr hinit
  · intro hs b ops hops before address name after has owner n hslot
    have hev : (s₁.blocks b).events = events e.inst.value before ++
        .load (if owner = e.inst.value then some n else none) :: events e.inst.value after := by
      have hload : (Op.load address (some name)).events e.inst.value = _ :=
        Op.events_eq_load.mpr ⟨address, name, owner, n, rfl, hslot, rfl⟩
      rw [h.events_eq, has, events, List.flatMap_append, List.flatMap_cons, hload]
      rfl
    have hinit := hs b _ (h.path_iff.mpr ⟨ops, hops, rfl⟩) _ _ _ hev
    rw [events, events, ← List.flatMap_append] at hinit
    split at hinit
    case isTrue howner => exact ⟨howner, init_mem_events.mp hinit⟩
    case isFalse =>
      obtain ⟨op, -, hop⟩ := List.mem_flatMap.mp hinit
      exact absurd hop Op.init_none_not_mem_events

end Refines

/-! ### Definite initialisation -/

/-- The variables that can be read when the body starts: the arguments, and those
that are bound to no slot of another function. -/
def Emitted.ready (e : Emitted) : Set VarId :=
  {x | x ∈ e.args ∨ ∀ v, e.vars x = some v → v.loc e.inst.value ≠ .foreignSlot}

/-- **Initialisation before use.** On every path through an emitted body
each variable is initialised before it is loaded, exactly when the body reads ready
variables only: a `var` makes its variable ready for what comes after it where it
is certain to have run, and unready for the rest. -/
theorem initialisedFirst_iff_safe {cx : CodegenContext} {e : Emitted} {root : Ast}
    {s s' : Codegen} {entry : FunctionId} (h : codegen cx root s = .ok (entry, s'))
    (he : e ∈ s'.emitted) :
    e.graph.InitialisedFirst e.inst.value ↔ (e.outline cx).safe e.ready := by
  obtain ⟨s₀, s₁, hr⟩ := codegen_emitted h he
  have hready : {x | s₀.env x ≠ some .foreignSlot} = e.ready := by
    ext x
    show s₀.env x ≠ _ ↔ x ∈ e.args ∨ _
    rw [hr.env]
    split
    case isTrue hmem => exact iff_of_true (by simp) (Or.inl hmem)
    case isFalse hmem =>
      rw [or_iff_right hmem, ne_eq, Option.map_eq_some_iff]
      simp
  rw [hr.initialisedFirst_iff, hr.lower.safe_iff hr.start, hready]

/-! ### A variable of a branch -/

/-- ```
if true var x = 1
x
()
``` -/
def readAfterBranch : Ast :=
  .module { id := 1 } "m".toList (.block { id := 2 } [
    .ifThen { id := 3 } (.literalBool { id := 4 } true)
      (.varDecl { id := 5 } { id := 1, kind := .variable, name := "x".toList }
        (.literalInteger { id := 6 } 1)),
    .ident { id := 7 } "x".toList,
    .literalVoid { id := 8 }]) []

/-- The case of a variable that only one branch initialises. -/
theorem initialisedFirst_iff_safe_readAfterBranch :
    ∃ cx entry s', codegen cx readAfterBranch {} = .ok (entry, s') ∧
      ∃ e ∈ s'.emitted, (e.graph.InitialisedFirst e.inst.value ↔ (e.outline cx).safe e.ready) := by
  have hrun : (compileAlone freshStore readAfterBranch).toOption.any
      (fun r => r.output.isEmpty && r.codegen.emitted.any fun _ => true) = true := by
    decide +kernel
  obtain ⟨r, -, -, ⟨cx, entry, h⟩, e, he, -⟩ := exists_emitted hrun
  exact ⟨cx, entry, r.codegen, h, e, he, initialisedFirst_iff_safe h he⟩

/-- Whether a block after the first one starts with the load of a variable that
the first block does not initialise. -/
def Emitted.loadsEarly (e : Emitted) : Bool :=
  (e.graph.blocks 0).successors.any fun b =>
    match (e.graph.blocks b).ops with
    | .load ⟨_, .slot _ n⟩ (some _) :: _ =>
        decide (.init (some n) ∉ events e.inst.value (e.graph.blocks 0).ops)
    | _ => false

/-- The branch is accepted, and there is a path to the load without the store. -/
theorem readAfterBranch_loads : ∃ r, compileAlone freshStore readAfterBranch = .ok r ∧
    r.output = [] ∧ ∃ e ∈ r.codegen.emitted, ¬ e.graph.InitialisedFirst e.inst.value := by
  have hrun : (compileAlone freshStore readAfterBranch).toOption.any
      (fun r => r.output.isEmpty && r.codegen.emitted.any Emitted.loadsEarly) = true := by
    decide +kernel
  obtain ⟨r, hr, houtput, -, e, he, hearly⟩ := exists_emitted hrun
  refine ⟨r, hr, houtput, e, he, fun h => ?_⟩
  simp only [Emitted.loadsEarly, List.any_eq_true] at hearly
  obtain ⟨b, hb, hearly⟩ := hearly
  split at hearly
  case h_1 owner n name ops hops =>
    obtain ⟨-, hinit⟩ := h b _ (.step .entry hb) [] _ _ _ hops owner n rfl
    rw [List.append_nil, List.nil_append] at hinit
    exact of_decide_eq_true hearly (init_mem_events.mpr hinit)
  case h_2 => exact Bool.noConfusion hearly

end Aike
