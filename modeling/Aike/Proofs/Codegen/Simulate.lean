import Aike.Lib.Simulation
import Aike.Model.Structured
import Aike.Proofs.Codegen.Run
import Aike.Proofs.Codegen.Segment

/-!
# `Aike.Proofs.Codegen.Simulate`: the emitted code does what the tree means

`EvalContext.eval` gives a tree of the structured language its meaning, and
`ExecContext.step` runs the emitted blocks. Lowering such a tree emits code that
follows the evaluation of the tree from the insert point before to the insert point
after.

* `Codegen.Ready` is what lowering starts from: an open insert block, and storage of
  its own for every variable in scope.
* `Stretch` is what lowering a tree does to the state, `Simulates` is what the code
  does that it adds. `Implements` is both, for every run of the lowering.
* One lemma for each construct goes from the parts to the whole.
* `codegenExpr_implements` is the induction over the tree.
-/

set_option autoImplicit false

namespace Aike

open Simulation

/-! ### States of a run -/

/-- The run is at the insert point. -/
structure Codegen.At (s : Codegen) (m : ExecState) : Prop where
  block : m.block = s.insertBlock
  pc : m.pc = s.current.instrs.length

/-- A value is no result of an instruction from the `k`-th on. -/
def Value.Below (k : Nat) (v : Value) : Prop := ∀ f i, v.value = .reg f i → i < k

section Exec

variable {x : ExecContext} {m : ExecState} {regs regs' : Nat → Val} {v : Value} {k : Nat}

/-- A value that is the result of no later instruction keeps its meaning when later
results are computed. -/
theorem eval_congr (h : v.Below k) (hregs : ∀ i < k, regs' i = regs i) :
    x.eval regs' v = x.eval regs v := by
  unfold ExecContext.eval
  split <;> try rfl
  case _ f i hv => rw [hregs i (h f i hv)]

/-- Where an instruction is next, a step executes it. -/
theorem step_instr {i : Instr} (h : (x.graph.blocks m.block).instrs[m.pc]? = some i) :
    x.step m = x.execInstr m i := by
  unfold ExecContext.step
  simp only [h]

/-- At the end of a block. -/
theorem step_terminator {s : Codegen} {t : Terminator} (hm : s.At m)
    (h : x.graph.blocks s.insertBlock = { s.current with terminator := some t }) :
    x.step m = x.execTerminator m t := by
  unfold ExecContext.step
  simp only [hm.block, hm.pc, h, List.getElem?_eq_none (Nat.le_refl _), Option.bind_some]

/-- A jump to a block without PHI nodes. -/
theorem jump_plain {b : BlockId} (h : (x.graph.blocks b).phis = []) :
    x.jump m b = some { m with block := b, pc := 0 } := by
  unfold ExecContext.jump
  rw [h]
  rfl

/-- A jump to a block with one PHI node. -/
theorem jump_phi {b : BlockId} {phi : Phi} {source : BlockId} {val : Val}
    (h : (x.graph.blocks b).phis = [phi])
    (hin : phi.incoming.find? (fun p => p.2 = m.block) = some (v, source))
    (hv : x.eval m.regs v = some val) :
    x.jump m b = some { m with block := b, pc := 0, regs := update m.regs phi.result val } := by
  unfold ExecContext.jump ExecContext.execPhi
  simp only [h, List.mapM_cons, List.mapM_nil, hin, hv, Option.pure_def, Option.bind_eq_bind,
    Option.bind_some, List.foldl_cons, List.foldl_nil]

end Exec

/-! ### Variables -/

/-- The storage of a variable, when it is a slot of the function. -/
def Codegen.slotOf (s : Codegen) (v : VarId) : Option Nat :=
  match s.vars v with
  | some ⟨.pointer _, .slot f n⟩ => if f = s.func then some n else none
  | _ => none

/-- What lowering starts from, with some variables in scope. -/
structure Codegen.Ready (s : Codegen) (g : TreeScope) : Prop where
  isOpen : s.Open
  stored : ∀ v ∈ g.stored, ∃ type n, s.vars v = some ⟨.pointer type, .slot s.func n⟩ ∧
    type.isVoid = false ∧ n < s.graph.allocas.length
  values : ∀ v ∈ g.values, ∃ value, s.vars v = some value ∧ value.type.isVoid = false ∧
    ((∃ i, value.value = .arg s.func i) ∨ ∃ i < s.nextResult, value.value = .reg s.func i)
  apart : ∀ v ∈ g.stored, ∀ w ∈ g.stored, s.slotOf v = s.slotOf w → v = w

/-- Where the variables of a tree are, for the whole of its run: as they are at the end
of its lowering. -/
structure Layout where
  scope : TreeScope
  vars : VarId → Option Value

/-- The state of the run and the state of the evaluation agree on variables and calls. -/
structure ExecContext.Agrees (x : ExecContext) (l : Layout) (m : ExecState) (e : EvalState) :
    Prop where
  stored : ∀ v ∈ l.scope.stored, ∀ value n, l.vars v = some value → x.slot value = some n →
    m.slots n = e.vars v
  values : ∀ v ∈ l.scope.values, ∀ value, l.vars v = some value →
    x.eval m.regs value = some (e.vars v)
  calls : m.calls = e.calls

/-- The layout is that of a state, as far as the scope of the state goes. Two variables
have two slots, and values were computed before the code starts. -/
structure Layout.Covers (l : Layout) (x : ExecContext) (k : Nat) (s : Codegen) (g : TreeScope) :
    Prop where
  stored : ∀ v ∈ g.stored, v ∈ l.scope.stored ∧ l.vars v = s.vars v
  values : ∀ v ∈ g.values, v ∈ l.scope.values ∧ l.vars v = s.vars v
  apart : ∀ v ∈ l.scope.stored, ∀ w ∈ l.scope.stored, ∀ value value' n, l.vars v = some value →
    l.vars w = some value' → x.slot value = some n → x.slot value' = some n → v = w
  below : ∀ v ∈ l.scope.values, ∀ value, l.vars v = some value → value.Below k

/-! ### Lowering a tree -/

/-- Variables that are in scope stay where they are. -/
structure Carries (g : TreeScope) (s s' : Codegen) (g' : TreeScope) : Prop where
  ready : s'.Ready g'
  func : s'.func = s.func
  results : s.nextResult ≤ s'.nextResult
  stored : ∀ v ∈ g.stored, v ∈ g'.stored ∧ s'.vars v = s.vars v
  values : g'.values = g.values ∧ ∀ v ∈ g.values, s'.vars v = s.vars v

/-- What lowering a tree does to the state. -/
structure Stretch (g : TreeScope) (s s' : Codegen) (g' : TreeScope) : Prop
    extends Carries g s s' g' where
  emits : Emits ∅ s ∅ s'

/-- What is known of the results of instructions. -/
abbrev RegsProp := ExecContext → (Nat → Val) → Prop

/-- What is known depends on the results of the first `k` instructions. -/
def RegsProp.Below (k : Nat) (p : RegsProp) : Prop :=
  ∀ x regs regs', (∀ i < k, regs' i = regs i) → p x regs → p x regs'

/-- Where `pre` holds before, the code that was added follows an evaluation, and
`post` holds of its result. -/
def Simulates {β : Type} (c : EvalContext) (pre : RegsProp) (s s' : Codegen) (g' : TreeScope)
    (post : β → RegsProp) (eval : Nat → EvalState → Option (β × EvalState)) : Prop :=
  ∀ (x : ExecContext) (l : Layout), x.func = s.func → x.world = c.world →
    Contains x.graph ∅ s ∅ s' → ∀ k ≤ s.nextResult, l.Covers x k s' g' →
    ∀ fuel m e, s.At m → x.Agrees l m e → pre x m.regs →
      Follows x.step fuel (eval fuel e) m fun r m' =>
        s'.At m' ∧ x.Agrees l m' r.2 ∧ post r.1 x m'.regs ∧
          ∀ i < s.nextResult, m'.regs i = m.regs i

/-- The state comes before another one in the lowering of a function. -/
structure Codegen.Before (s t : Codegen) : Prop where
  functions : s.functions <+: t.functions
  currentFunction : s.currentFunction = t.currentFunction

/-- The state before some steps of the lowering comes before whatever the state after them
comes before. -/
theorem Codegen.Before.of_steps {cx : CodegenContext} {s s' t : Codegen} (h : s'.Before t)
    (hs : Steps cx s s') : s.Before t where
  functions := hs.frame.functions.trans h.functions
  currentFunction := hs.frame.currentFunction.symm.trans h.currentFunction

/-- The value of a tree is the result of its code. -/
def Value.Fits (v : Value) (val : Val) : RegsProp := fun x regs => x.eval regs v = some val

/-- Nothing is known. -/
def Anything : RegsProp := fun _ _ => True

/-- The value of a tree is void exactly when the tree has no value, and there is one
void value only. -/
structure Value.Shape (v : Value) (h : Bool) : Prop where
  isVoid : v.type.isVoid = !h
  void : h = false → v = codegenVoid

/-- Every run of a lowering before `t` adds code that follows an evaluation. -/
def Implements (c : EvalContext) (t : Codegen) (g : TreeScope) (run : CodegenM Value) (h : Bool)
    (g' : TreeScope) (eval : Nat → EvalState → Option (Val × EvalState)) : Prop :=
  ∀ s v s', run s = .ok (v, s') → s.Ready g → s'.Before t →
    Stretch g s s' g' ∧ v.Below s'.nextResult ∧ v.Shape h ∧
      Simulates c Anything s s' g' v.Fits eval

/-! ### Rules -/

section Rules

variable {c : EvalContext} {s s₁ s' t : Codegen} {g g₁ g' : TreeScope} {pre : RegsProp}
  {β γ : Type}

/-- Variables that stay where they are over two stretches stay there over both. -/
theorem Carries.trans (h₁ : Carries g s s₁ g₁) (h₂ : Carries g₁ s₁ s' g') :
    Carries g s s' g' where
  ready := h₂.ready
  func := h₂.func.trans h₁.func
  results := h₁.results.trans h₂.results
  stored v hv := by
    obtain ⟨hv₁, hvars₁⟩ := h₁.stored v hv
    obtain ⟨hv₂, hvars₂⟩ := h₂.stored v hv₁
    exact ⟨hv₂, hvars₂.trans hvars₁⟩
  values := by
    refine ⟨h₂.values.1.trans h₁.values.1, fun v hv => ?_⟩
    rw [h₂.values.2 v (h₁.values.1 ▸ hv), h₁.values.2 v hv]

/-- Two stretches one after another are one stretch. -/
theorem Stretch.trans (hs : s.Open) (h₁ : Stretch g s s₁ g₁) (h₂ : Stretch g₁ s₁ s' g') :
    Stretch g s s' g' where
  toCarries := h₁.toCarries.trans h₂.toCarries
  emits := h₁.emits.trans hs.insert_lt (Set.notMem_empty _) h₂.emits

/-- The parts of the state that the variables depend on are the same. -/
theorem Codegen.Ready.carries (h : s.Ready g) (ho : s'.Open) (hvars : s'.vars = s.vars)
    (hfunc : s'.func = s.func) (hallocas : s'.graph.allocas = s.graph.allocas)
    (hresults : s.nextResult ≤ s'.nextResult) : Carries g s s' g where
  ready :=
    { isOpen := ho
      stored := by
        rw [hvars, hfunc, hallocas]
        exact h.stored
      values := by
        intro v hv
        obtain ⟨value, hvar, htype, hown⟩ := h.values v hv
        rw [hvars, hfunc]
        exact ⟨value, hvar, htype, hown.imp_right fun ⟨i, hi, hreg⟩ =>
          ⟨i, Nat.lt_of_lt_of_le hi hresults, hreg⟩⟩
      apart := by
        intro v hv w hw
        have hslot : ∀ v, s'.slotOf v = s.slotOf v := fun v => by
          rw [Codegen.slotOf, Codegen.slotOf, hvars, hfunc]
        rw [hslot, hslot]
        exact h.apart v hv w hw }
  func := hfunc
  results := hresults
  stored v hv := ⟨hv, congrFun hvars v⟩
  values := ⟨rfl, fun v _ => congrFun hvars v⟩

/-- A layout that covers the end of a stretch covers its start. -/
theorem Layout.Covers.before {l : Layout} {x : ExecContext} {k : Nat} (h : l.Covers x k s' g')
    (hs : Carries g s s' g') : l.Covers x k s g where
  stored v hv := by
    obtain ⟨hv', hvars⟩ := hs.stored v hv
    obtain ⟨hl, heq⟩ := h.stored v hv'
    exact ⟨hl, heq.trans hvars⟩
  values v hv := by
    obtain ⟨hl, heq⟩ := h.values v (hs.values.1 ▸ hv)
    exact ⟨hl, heq.trans (hs.values.2 v hv)⟩
  apart := h.apart
  below := h.below

/-- One stretch after the other. -/
theorem Simulates.bind {mid : β → RegsProp} {post : γ → RegsProp}
    {eval₁ : Nat → EvalState → Option (β × EvalState)}
    (eval₂ : β → Nat → EvalState → Option (γ × EvalState))
    (hs₁ : Stretch g s s₁ g₁) (hs₂ : Stretch g₁ s₁ s' g')
    (h₁ : Simulates c pre s s₁ g₁ mid eval₁)
    (h₂ : ∀ b, Simulates c (mid b) s₁ s' g' post (eval₂ b)) :
    Simulates c pre s s' g' post fun fuel e => (do
      let (b, e) ← eval₁ fuel e
      eval₂ b fuel e) := by
  intro x l hfunc hworld hcode k hk hl fuel m e hm he hpre
  have hcode₁ := hcode.first hs₂.emits
  have hcode₂ := hcode.second hs₁.emits
  refine (h₁ x l hfunc hworld hcode₁ k hk (hl.before hs₂.toCarries) fuel m e hm he hpre).bind ?_
  rintro ⟨b, e₁⟩ m₁ ⟨hm₁, he₁, hmid, hregs₁⟩
  refine (h₂ b x l (hfunc.trans hs₁.func.symm) hworld hcode₂ k (hk.trans hs₁.results) hl fuel m₁ e₁
    hm₁ he₁ hmid).mono ?_
  rintro ⟨d, e₂⟩ m₂ ⟨hm₂, he₂, hpost, hregs₂⟩
  refine ⟨hm₂, he₂, hpost, fun i hi => ?_⟩
  rw [hregs₂ i (Nat.lt_of_lt_of_le hi hs₁.results), hregs₁ i hi]

/-- What is known of earlier results stays. -/
theorem Simulates.frame {post : β → RegsProp} {eval : Nat → EvalState → Option (β × EvalState)}
    {p : RegsProp} (hp : p.Below s.nextResult) (h : Simulates c pre s s' g' post eval) :
    Simulates c (fun x regs => pre x regs ∧ p x regs) s s' g'
      (fun b x regs => post b x regs ∧ p x regs) eval := by
  intro x l hfunc hworld hcode k hk hl fuel m e hm he hpre
  refine (h x l hfunc hworld hcode k hk hl fuel m e hm he hpre.1).mono ?_
  rintro ⟨b, e'⟩ m' ⟨hm', he', hpost, hregs⟩
  exact ⟨hm', he', ⟨hpost, hp x _ _ hregs hpre.2⟩, hregs⟩

/-- More may be required before and less may be known after. -/
theorem Simulates.mono {pre' : RegsProp} {post post' : β → RegsProp}
    {eval : Nat → EvalState → Option (β × EvalState)} (h : Simulates c pre s s' g' post eval)
    (hpre : ∀ x regs, pre' x regs → pre x regs)
    (hpost : ∀ b x regs, post b x regs → post' b x regs) :
    Simulates c pre' s s' g' post' eval := by
  intro x l hfunc hworld hcode k hk hl fuel m e hm he hpre'
  refine (h x l hfunc hworld hcode k hk hl fuel m e hm he (hpre _ _ hpre')).mono ?_
  rintro ⟨b, e'⟩ m' ⟨hm', he', hb, hregs⟩
  exact ⟨hm', he', hpost _ _ _ hb, hregs⟩

/-- The result of an evaluation is changed. -/
theorem Simulates.map {post : β → RegsProp} {post' : γ → RegsProp}
    {eval : Nat → EvalState → Option (β × EvalState)} (f : β → γ)
    (h : Simulates c pre s s' g' post eval)
    (hpost : ∀ b x regs, post b x regs → post' (f b) x regs) :
    Simulates c pre s s' g' post' (fun fuel e => do
      let (b, e) ← eval fuel e
      return (f b, e)) := by
  intro x l hfunc hworld hcode k hk hl fuel m e hm he hpre
  refine (h x l hfunc hworld hcode k hk hl fuel m e hm he hpre).bind ?_
  rintro ⟨b, e'⟩ m' ⟨hm', he', hb, hregs⟩
  exact .pure ⟨hm', he', hpost _ _ _ hb, hregs⟩

/-- No code was added. -/
theorem Simulates.pure {post : β → RegsProp} (hs : s.SameCode s') {b : β}
    (hpost : ∀ x regs, x.func = s.func → pre x regs → post b x regs) :
    Simulates c pre s s' g' post fun _ e => some (b, e) := by
  intro x l hfunc hworld hcode k hk hl fuel m e hm he hpre
  refine .pure ⟨⟨hm.block.trans hs.insert.symm, ?_⟩, he, hpost x _ hfunc hpre, fun _ _ => rfl⟩
  rw [hm.pc, Codegen.current, Codegen.current, hs.blocks, hs.insert]

/-- One instruction was added. -/
theorem Simulates.instr {post : β → RegsProp} {op : Op} {b : EvalState → β}
    {next : EvalState → EvalState} (hs : s.Open) (hadd : s.SameCode s₁)
    (hresult : s₁.nextResult = s.nextResult)
    (hend : (s₁.inserted op).SameCode s')
    (hexec : ∀ x l k m e, x.func = s.func → x.world = c.world → k ≤ s.nextResult →
      l.Covers x k s' g' → x.Agrees l m e → pre x m.regs →
      ∃ m', x.execInstr m ⟨s.nextResult, op⟩ = some m' ∧ m'.block = m.block ∧ m'.pc = m.pc + 1 ∧
        x.Agrees l m' (next e) ∧ post (b e) x m'.regs ∧
        ∀ i < s.nextResult, m'.regs i = m.regs i) :
    Simulates c pre s s' g' post fun _ e => some (b e, next e) := by
  intro x l hfunc hworld hcode k hk hl fuel m e hm he hpre
  obtain ⟨m', hstep, hblock, hpc, he', hpost, hregs⟩ :=
    hexec x l k m e hfunc hworld hk hl he hpre
  have hcurrent : s₁.current = s.current := by
    rw [Codegen.current, Codegen.current, hadd.blocks, hadd.insert]
  have hopen : s₁.Open := ⟨by rw [hadd.insert, hadd.size]; exact hs.insert_lt,
    hcurrent ▸ hs.unterminated, fun b hb => by
      rw [hadd.blocks]
      exact hs.blank b (hadd.size ▸ hb)⟩
  have hcode₁ : Contains x.graph ∅ s₁ ∅ (s₁.inserted op) := by
    intro b hb hlt hno
    rw [hadd.insert, hadd.size] at hb
    have := hcode b hb (hend.size ▸ hlt) hno
    rwa [hend.blocks, hend.insert] at this
  -- The instruction is where the machine stands.
  have hget := hcode₁.inserted hopen (Set.notMem_empty _)
  rw [hadd.insert, hcurrent, hresult] at hget
  have hrun : x.step m = some m' := by
    rw [step_instr (by rw [hm.block, hm.pc]; exact hget), hstep]
  refine .head hrun (.pure ⟨⟨?_, ?_⟩, he', hpost, hregs⟩)
  · rw [hblock, hm.block, hend.insert]
    exact hadd.insert.symm
  -- It ends one instruction further on in the same block.
  · have hlast : s'.current = (s₁.inserted op).current := by
      rw [Codegen.current, Codegen.current, hend.blocks, hend.insert]
    rw [hpc, hm.pc, hlast, inserted_current, hcurrent, List.length_append]
    rfl

/-- The state differs in what neither code nor variables depend on. -/
structure Codegen.SameWork (s s' : Codegen) : Prop where
  graph : s'.graph = s.graph
  insert : s'.insertBlock = s.insertBlock
  results : s'.nextResult = s.nextResult
  vars : s'.vars = s.vars
  func : s'.func = s.func

/-- A state with the same work has the same code. -/
theorem Codegen.SameWork.code (h : s.SameWork s') : s.SameCode s' :=
  ⟨congrArg Graph.blocks h.graph, congrArg Graph.size h.graph, h.insert⟩

/-- Its block is still open. -/
theorem Codegen.SameWork.isOpen (h : s.SameWork s') (hs : s.Open) : s'.Open := by
  refine ⟨?_, ?_, ?_⟩
  · rw [h.insert, h.graph]
    exact hs.insert_lt
  · rw [Codegen.current, h.insert, h.graph]
    exact hs.unterminated
  · rw [h.graph]
    exact hs.blank

/-- No code is a stretch, from a state to one with the same work. -/
theorem Codegen.SameWork.stretch (h : s.SameWork s') (hs : s.Ready g) : Stretch g s s' g where
  toCarries := hs.carries (h.isOpen hs.isOpen) h.vars h.func (congrArg Graph.allocas h.graph)
    (Nat.le_of_eq h.results.symm)
  emits := .of_same h.code

/-- One instruction is a stretch, since its result is a new one and no variable is
touched. -/
theorem Codegen.Ready.inserted (h : s.Ready g) (op : Op) : Stretch g s (s.inserted op) g where
  toCarries := h.carries (h.isOpen.inserted op) rfl rfl rfl (Nat.le_succ _)
  emits := .inserted s op

/-- The stretch may start a little earlier. -/
theorem Simulates.of_work {post : β → RegsProp} {eval : Nat → EvalState → Option (β × EvalState)}
    (hs : s.SameWork s₁) (h : Simulates c pre s₁ s' g' post eval) :
    Simulates c pre s s' g' post eval := by
  intro x l hfunc hworld hcode k hk hl fuel m e hm he hpre
  have hcurrent : s₁.current = s.current := by
    rw [Codegen.current, Codegen.current, hs.insert, hs.graph]
  have hm₁ : s₁.At m := ⟨hm.block.trans hs.insert.symm, hcurrent ▸ hm.pc⟩
  rw [← hs.results] at hk ⊢
  refine h x l (hfunc.trans hs.func.symm) hworld ?_ k hk hl fuel m e hm₁ he hpre
  intro b hb
  rw [hs.insert, hs.graph] at hb
  exact hcode b hb

/-- A step that leaves the slots, the calls and the earlier results. -/
theorem ExecContext.Agrees.of_regs {x : ExecContext} {l : Layout} {m m' : ExecState}
    {e : EvalState} {k : Nat} (h : x.Agrees l m e) (hl : l.Covers x k s g)
    (hslots : m'.slots = m.slots) (hcalls : m'.calls = m.calls)
    (hregs : ∀ i < k, m'.regs i = m.regs i) : x.Agrees l m' e where
  stored := by
    rw [hslots]
    exact h.stored
  values v hv value hvar := by
    rw [eval_congr (hl.below v hv value hvar) hregs]
    exact h.values v hv value hvar
  calls := hcalls.trans h.calls

/-- The result of an instruction does not touch what came before. -/
theorem result_regs {m : ExecState} {n k : Nat} {op : Op} {val : Val} (hk : k ≤ n) :
    ∀ i < k, (ExecContext.result m ⟨n, op⟩ val).regs i = m.regs i := by
  intro i hi
  exact if_neg (Nat.ne_of_lt (Nat.lt_of_lt_of_le hi hk))

/-- The result of an instruction is what was computed, in the function that it is of. -/
theorem result_fits {x : ExecContext} {m : ExecState} {n : Nat} {op : Op} {type : LType}
    {val : Val} {f : FunctionId} (hf : x.func = f) :
    Value.Fits ⟨type, .reg f n⟩ val x (ExecContext.result m ⟨n, op⟩ val).regs := by
  show (if f = x.func then some (update m.regs n val n) else none) = some val
  rw [if_pos hf.symm, update, if_pos rfl]

end Rules

end Aike
