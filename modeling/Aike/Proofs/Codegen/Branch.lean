import Aike.Proofs.Codegen.Simulate

/-!
# `Aike.Proofs.Codegen.Branch`: constructs that branch

`and`, `or`, conditionals and loops end the insert block, go on in blocks that they
made, and leave the insert point in another block than the one that they found it in.
`Moves` is a stretch of the lowering of such a construct, with blocks that are reserved
at its start and its end. A construct is put together from the stretches of its parts
and the jumps between them (`Moves.stretch`, `Moves.jumped`, `Moves.trans`), and its
code is taken apart again in the same places (`Moves.split`, `Moves.jumps`).
-/

set_option autoImplicit false

namespace Aike

open Simulation

/-- A stretch of the lowering, with what holds of the variables and of the reserved
blocks at its ends. -/
structure Moves (g : TreeScope) (R : Set BlockId) (s : Codegen) (g' : TreeScope)
    (R' : Set BlockId) (s' : Codegen) : Prop extends Carries g s s' g' where
  advances : Advances R s R' s'
  reserves : s'.Reserves R'

variable {c : EvalContext} {s s₁ s' t : Codegen} {g g₁ g₂ g' : TreeScope} {R R₁ R' : Set BlockId}
  {G : Graph}

namespace Moves

/-- Two stretches one after another are one, if the second starts as the first ends. -/
theorem trans (h₁ : Moves g R s g₁ R₁ s₁) (h₂ : Moves g₁ R₁ s₁ g' R' s') :
    Moves g R s g' R' s' where
  toCarries := h₁.toCarries.trans h₂.toCarries
  advances := h₁.advances.trans h₂.advances
  reserves := h₂.reserves

/-- The lowering of a part, which knows of no reserved blocks. -/
theorem stretch (hs : s.Open) (hR : s.Reserves R) (h : Stretch g s s' g') :
    Moves g R s g' R s' where
  toCarries := h.toCarries
  advances := ⟨hs, hR, h.emits.reserve⟩
  reserves := hR.emits h.emits

/-- The end of the insert block, when lowering goes on in a reserved or a new block. -/
theorem jumped {k : Nat} {b : BlockId} (tm : Terminator) (hs : s.Ready g) (hR : s.Reserves R)
    (hb : b ∈ R ∨ (s.graph.size ≤ b ∧ b < s.graph.size + k)) :
    Moves g R s g (afterJump R s k b) (s.jumped k tm b) := by
  obtain ⟨hopen, hreserves, -⟩ := hs.isOpen.jumped (t := tm) hR hb
  exact
    { toCarries := hs.carries hopen rfl rfl rfl (Nat.le_refl _)
      advances := .jumped hs.isOpen hR hb
      reserves := hreserves }

/-- The last state of a construct reserves nothing. -/
theorem release (hs : s.Ready g) (hR : s.Reserves R) : Moves g R s g ∅ s where
  toCarries := hs.carries hs.isOpen rfl rfl rfl (Nat.le_refl _)
  advances := .release hs.isOpen hR ⟨rfl, rfl, rfl⟩
  reserves := .empty s

/-- A stretch that reserves no blocks is one that lowers a tree. -/
theorem toStretch (h : Moves g ∅ s g' ∅ s') : Stretch g s s' g' where
  toCarries := h.toCarries
  emits := h.advances.emits

/-- The code of two stretches. -/
theorem split (h₁ : Moves g R s g₁ R₁ s₁) (h₂ : Moves g₁ R₁ s₁ g' R' s')
    (hG : Contains G R s R' s') : Contains G R s R₁ s₁ ∧ Contains G R₁ s₁ R' s' :=
  ⟨hG.first h₂.advances.emits, hG.second h₁.advances.emits⟩

/-- The code of a jump and of what comes after it. -/
theorem jumps {k : Nat} {tm : Terminator} {b : BlockId} (hs : s.Open) (hR : s.Reserves R)
    (hb : b ∈ R ∨ (s.graph.size ≤ b ∧ b < s.graph.size + k))
    (h : Moves g₁ (afterJump R s k b) (s.jumped k tm b) g' R' s') (hG : Contains G R s R' s') :
    Jumps G R s k tm b R' s' := h.advances.jumps hs hR hb hG

end Moves

/-- The insert block that a jump leaves is not the insert block of what comes after. -/
theorem Moves.insert_ne {k : Nat} {tm : Terminator} {b : BlockId} (hs : s.Open) (hR : s.Reserves R)
    (hb : b ∈ R ∨ (s.graph.size ≤ b ∧ b < s.graph.size + k))
    (h : Moves g (afterJump R s k b) (s.jumped k tm b) g' R' s') :
    s'.insertBlock ≠ s.insertBlock := by
  have hnew : ∀ a, a ∈ R ∨ s.graph.size ≤ a → a ≠ s.insertBlock := by
    rintro a ha rfl
    exact ha.elim hR.insert (Nat.not_le.mpr hs.insert_lt)
  rcases h.advances.emits.insert with heq | hmem | hle
  · rw [heq]
    exact hnew b (hb.imp_right And.left)
  · exact hnew _ (hmem.1.imp_right And.left)
  · exact hnew _ (Or.inr (Nat.le_trans (Nat.le_add_right _ k) hle))

/-! ### Joining two branches -/

/-- The end of the insert block, when lowering goes on with a PHI node. -/
theorem Moves.joined {k : Nat} {tm : Terminator} {b : BlockId} {type : LType}
    {incoming : List (Value × BlockId)} (hs : s.Ready g) (hR : s.Reserves R)
    (hb : b ∈ R ∨ (s.graph.size ≤ b ∧ b < s.graph.size + k)) :
    Moves g R s g ∅ ((s.jumped k tm b).phiAdded type incoming) := by
  have hjump := Moves.jumped tm hs hR hb
  have hend := hjump.trans (.release hjump.ready hjump.reserves)
  have hne : b ≠ s.insertBlock := by
    rintro rfl
    exact hb.elim hR.insert fun h => Nat.not_le.mpr hs.isOpen.insert_lt h.1
  exact
    { toCarries := hjump.toCarries.trans
        (hjump.ready.carries hjump.ready.isOpen.phiAdded rfl rfl rfl (Nat.le_succ _))
      advances := ⟨hs.isOpen, hR, hend.advances.emits.phiAdded hne⟩
      reserves := .empty _ }

/-- The end of a branch is in the graph, and the PHI nodes of the block after it. -/
structure Joins (G : Graph) (s : Codegen) (tm : Terminator) (b : BlockId) (s' : Codegen) :
    Prop where
  block : G.blocks s.insertBlock = { s.current with terminator := some tm }
  phis : (G.blocks b).phis = s'.current.phis

/-- A jump to a block that is reserved or new, with PHI nodes put at its start, leaves
both the end of the branch and the PHI nodes in the graph, whatever is emitted afterwards. -/
theorem Moves.joins {k : Nat} {tm : Terminator} {b : BlockId} {type : LType}
    {incoming : List (Value × BlockId)} (hs : s.Open) (hR : s.Reserves R)
    (hb : b ∈ R ∨ (s.graph.size ≤ b ∧ b < s.graph.size + k))
    (hG : Contains G R s ∅ ((s.jumped k tm b).phiAdded type incoming)) :
    Joins G s tm b ((s.jumped k tm b).phiAdded type incoming) where
  block := by
    have hne : s.insertBlock ≠ b := by
      rintro rfl
      exact hb.elim hR.insert fun h => Nat.not_le.mpr hs.insert_lt h.1
    rw [hG.phiAdded (Or.inl rfl) (Nat.lt_add_right k hs.insert_lt) (Set.notMem_empty _) hne,
      jumped_last]
  phis := by
    obtain ⟨hopen, -, -⟩ := hs.jumped (t := tm) hR hb
    exact (hG b (Or.inr (hb.imp_right And.left)) hopen.insert_lt (Set.notMem_empty _)).1

/-! ### Jumps of the machine -/

section Steps

variable {x : ExecContext} {l : Layout} {m : ExecState} {e : EvalState} {b b' : BlockId}
  {v : Value} {val : Val}

/-- A run that is at the end of a block jumps where the block's `br` does, if no PHI node
is there. -/
theorem step_br (hm : s.At m)
    (hblock : x.graph.blocks s.insertBlock = { s.current with terminator := some (.br b) })
    (hphis : (x.graph.blocks b).phis = []) : x.step m = some { m with block := b, pc := 0 } :=
  (step_terminator hm hblock).trans (jump_plain hphis)

/-- A run that is at the end of a block jumps by the value of its condition. -/
theorem step_condBr (hm : s.At m)
    (hblock : x.graph.blocks s.insertBlock = { s.current with terminator := some (.condBr v b b') })
    (hv : x.eval m.regs v = some val) : x.step m = x.jump m (if val.isTrue then b else b') := by
  rw [step_terminator hm hblock]
  show (x.eval m.regs v).bind _ = _
  rw [hv]
  rfl

/-- The machine comes to a block that the lowering went on in. -/
theorem at_jumped {k : Nat} {tm : Terminator}
    (h : (s.jumped k tm b).current = {}) : (s.jumped k tm b).At { m with block := b, pc := 0 } where
  block := rfl
  pc := by
    rw [h]
    rfl

/-- A jump changes nothing that a tree can tell. -/
theorem ExecContext.Agrees.moved (h : x.Agrees l m e) :
    x.Agrees l { m with block := b, pc := 0 } e := ⟨h.stored, h.values, h.calls⟩

end Steps

/-- Two branches come together: `s` is the end of the last one, and lowering goes on in
`b` with the value `v`, which is that of the branch that control comes from. -/
structure Joining (g : TreeScope) (R : Set BlockId) (s : Codegen) (b : BlockId)
    (incoming : List (Value × BlockId)) (v : Value) (h : Bool) (s' : Codegen) : Prop where
  moves : Moves g R s g ∅ s'
  below : v.Below s'.nextResult
  shape : v.Shape h
  block : ∀ G, Contains G R s ∅ s' →
    G.blocks s.insertBlock = { s.current with terminator := some (.br b) }
  lands : ∀ (x : ExecContext) (l : Layout) (k : Nat), x.func = s.func → k ≤ s.nextResult →
    l.Covers x k s' g → Contains x.graph R s ∅ s' → ∀ m e w source val,
      incoming.find? (fun p => p.2 = m.block) = some (w, source) → w.Fits val x m.regs →
      x.Agrees l m e → ∃ m', x.jump m b = some m' ∧ s'.At m' ∧ x.Agrees l m' e ∧
        v.Fits val x m'.regs ∧ ∀ i < s.nextResult, m'.regs i = m.regs i

section Joining

variable {b : BlockId} (incoming : List (Value × BlockId))

/-- Branches with a value are joined by a PHI node. -/
theorem joining_phi {type : LType} (hs : s.Ready g) (hR : s.Reserves R) (hb : b ∈ R)
    (htype : type.isVoid = false) :
    Joining g R s b incoming ⟨type, .reg s.func s.nextResult⟩ true
      ((s.jumped 0 (.br b) b).phiAdded type incoming) where
  moves := .joined hs hR (Or.inl hb)
  below _ _ h := by
    cases h
    exact Nat.lt_succ_self _
  shape := ⟨htype, nofun⟩
  block _ hG := (Moves.joins hs.isOpen hR (Or.inl hb) hG).block
  lands := by
    intro x l k hfunc hk hl hcode m e w source val hin hw he
    have hphis := (Moves.joins hs.isOpen hR (Or.inl hb) hcode).phis
    have hcurrent := (hs.isOpen.jumped (t := .br b) (k := 0) hR (Or.inl hb)).2.2
    rw [phiAdded_current, hcurrent] at hphis
    have hregs : ∀ i < s.nextResult, update m.regs s.nextResult val i = m.regs i :=
      fun i hi => if_neg (Nat.ne_of_lt hi)
    refine ⟨_, jump_phi hphis hin hw, ⟨rfl, ?_⟩, ?_, ?_, hregs⟩
    · rw [phiAdded_current, hcurrent]
      rfl
    · exact he.of_regs hl rfl rfl fun i hi => hregs i (Nat.lt_of_lt_of_le hi hk)
    · show (if s.func = x.func then some (update m.regs s.nextResult val s.nextResult)
        else none) = _
      rw [if_pos hfunc.symm, update, if_pos rfl]

/-- Branches without a value need none. -/
theorem joining_void (hs : s.Ready g) (hR : s.Reserves R) (hb : b ∈ R)
    (hvoid : ∀ p ∈ incoming, p.1 = codegenVoid) :
    Joining g R s b incoming codegenVoid false (s.jumped 0 (.br b) b) := by
  have hjump := Moves.jumped (k := 0) (.br b) hs hR (Or.inl hb)
  have hend := Moves.release hjump.ready hjump.reserves
  have hcurrent := (hs.isOpen.jumped (t := .br b) (k := 0) hR (Or.inl hb)).2.2
  refine ⟨hjump.trans hend, fun _ _ h => (nomatch h), ⟨rfl, fun _ => rfl⟩,
    fun G hG => (hend.jumps hs.isOpen hR (Or.inl hb) hG).block, ?_⟩
  intro x l k hfunc hk hl hcode m e w source val hin hw he
  have hphis := (hend.jumps hs.isOpen hR (Or.inl hb) hcode).phis
  obtain rfl : w = codegenVoid := hvoid _ (List.mem_of_find?_eq_some hin)
  exact ⟨_, jump_plain hphis, at_jumped hcurrent, he.moved, hw, fun _ _ => rfl⟩

end Joining

/-! ### The constructs -/

section Constructs

variable {cx : CodegenContext} {E : Ast → CodegenKind → CodegenM Value}

/-- The steps that the lowering of expressions takes. -/
abbrev Lowering (cx : CodegenContext) (E : Ast → CodegenKind → CodegenM Value) : Prop :=
  ∀ e kind, Ensures (Steps cx) (E e kind)

/-- What the lowering of an `if` without `else` is: the condition, a branch over the body,
the body in the first of two new blocks, and a jump into the second. -/
theorem run_codegenIfThen {cond thenbody : Ast} {v : Value}
    (h : codegenIfThen E cond thenbody s = .ok (v, s')) :
    ∃ test s₁ w s₂, E cond .value s = .ok (test, s₁) ∧
      E thenbody .value (s₁.jumped 2 (.condBr test s₁.graph.size (s₁.graph.size + 1))
        s₁.graph.size) = .ok (w, s₂) ∧
      v = codegenVoid ∧
      s' = s₂.jumped 0 (.br (s₁.graph.size + 1)) (s₁.graph.size + 1) := by
  obtain ⟨test, s₁, hcond, h⟩ := run_bind.mp h
  obtain ⟨_, _, hblock, h⟩ := run_bind.mp h
  obtain ⟨rfl, rfl⟩ := run_createBlock.mp hblock
  obtain ⟨_, _, hblock, h⟩ := run_bind.mp h
  obtain ⟨rfl, rfl⟩ := run_createBlock.mp hblock
  obtain ⟨_, _, hend, h⟩ := run_bind.mp h
  obtain rfl := run_terminate.mp hend
  obtain ⟨_, _, hpoint, h⟩ := run_bind.mp h
  obtain rfl := run_setInsertPoint.mp hpoint
  obtain ⟨w, s₂, hthen, h⟩ := run_bind.mp h
  obtain ⟨_, _, hend, h⟩ := run_bind.mp h
  obtain rfl := run_terminate.mp hend
  obtain ⟨_, _, hpoint, h⟩ := run_bind.mp h
  obtain rfl := run_setInsertPoint.mp hpoint
  obtain ⟨rfl, rfl⟩ := run_pure.mp h
  exact ⟨test, s₁, w, s₂, hcond, hthen, rfl, rfl⟩

/-- An `if` without `else` implements the evaluation of the condition and, if it is true,
of the body. -/
theorem codegenIfThen_implements {cond thenbody : Ast} {h : Bool}
    {ev₁ ev₂ : Nat → EvalState → Option (Val × EvalState)} (hE : Lowering cx E)
    (hcond : Implements c t g (E cond .value) true g₁ ev₁)
    (hthen : Implements c t g₁ (E thenbody .value) h g' ev₂) :
    Implements c t g (codegenIfThen E cond thenbody) false g' fun fuel e => do
      let (test, e) ← ev₁ fuel e
      if test.isTrue then do
        let (_, e) ← ev₂ fuel e
        return (.void, e)
      else return (.void, e) := by
  intro s v s' hrun hs hbefore
  obtain ⟨test, s₁, w, s₂, hcond_, hthen_, rfl, rfl⟩ := run_codegenIfThen hrun
  have hbefore₂ : s₂.Before t := ⟨hbefore.functions, hbefore.currentFunction⟩
  have hbefore₁ := hbefore₂.of_steps (hE _ _ _ _ _ hthen_)
  -- the stretches of the lowering
  obtain ⟨hst₁, -, -, hsim₁⟩ := hcond s test s₁ hcond_ hs
    ⟨hbefore₁.functions, hbefore₁.currentFunction⟩
  have hmove₁ := Moves.stretch hs.isOpen (.empty s) hst₁
  have hb : s₁.graph.size ∈ (∅ : Set BlockId) ∨
      (s₁.graph.size ≤ s₁.graph.size ∧ s₁.graph.size < s₁.graph.size + 2) :=
    Or.inr ⟨Nat.le_refl _, Nat.lt_add_of_pos_right Nat.two_pos⟩
  have hmove₂ := Moves.jumped (.condBr test s₁.graph.size (s₁.graph.size + 1)) hst₁.ready
    hmove₁.reserves hb
  obtain ⟨hst₃, -, -, hsim₃⟩ := hthen _ w s₂ hthen_ hmove₂.ready hbefore₂
  have hmove₃ := Moves.stretch hmove₂.ready.isOpen hmove₂.reserves hst₃
  have hend : s₁.graph.size + 1 ∈ afterJump ∅ s₁ 2 s₁.graph.size :=
    ⟨Or.inr ⟨Nat.le_succ _, Nat.lt_succ_self _⟩, Nat.succ_ne_self _⟩
  have hmove₄ := Moves.jumped (k := 0) (.br (s₁.graph.size + 1)) hst₃.ready
    hmove₃.reserves (Or.inl hend)
  have hmove₅ := Moves.release hmove₄.ready hmove₄.reserves
  have hrest₃ := hmove₃.trans (hmove₄.trans hmove₅)
  have hrest₂ := hmove₂.trans hrest₃
  refine ⟨(hmove₁.trans hrest₂).toStretch, fun f j h => (nomatch h), ⟨rfl, fun _ => rfl⟩, ?_⟩
  -- the run of the code
  intro x l hfunc hworld hcode k hk hl fuel m e hm he _
  obtain ⟨hcode₁, hcode₂⟩ := hmove₁.split hrest₂ hcode
  have hjump₂ := hrest₃.jumps hst₁.ready.isOpen hmove₁.reserves hb hcode₂
  obtain ⟨hcode₃, hcode₄⟩ := hmove₃.split (hmove₄.trans hmove₅) hjump₂.rest
  have hjump₄ := hmove₅.jumps hst₃.ready.isOpen hmove₃.reserves (Or.inl hend) hcode₄
  have hl₃ := hl.before (hmove₄.trans hmove₅).toCarries
  have hl₁ := hl.before hrest₂.toCarries
  refine (hsim₁ x l hfunc hworld hcode₁ k hk hl₁ fuel m e hm he trivial).bind ?_
  rintro ⟨test_, e₁⟩ m₁ ⟨hm₁, he₁, htest, hregs₁⟩
  have hstep := step_condBr hm₁ hjump₂.block htest
  show Follows x.step fuel (if test_.isTrue then _ else _) m₁ _
  have hlast : (s₂.jumped 0 (.br (s₁.graph.size + 1)) (s₁.graph.size + 1)).current = {} :=
    (hst₃.ready.isOpen.jumped hmove₃.reserves (Or.inl hend)).2.2
  cases hbranch : test_.isTrue with
  | false =>
      rw [hbranch, if_neg Bool.false_ne_true, jump_plain hjump₄.phis] at hstep
      exact .head hstep (.pure ⟨at_jumped hlast, he₁.moved, rfl, hregs₁⟩)
  | true =>
      rw [hbranch, if_pos rfl, jump_plain hjump₂.phis] at hstep
      have hfirst := (hst₁.ready.isOpen.jumped (t := .condBr test s₁.graph.size
        (s₁.graph.size + 1)) (.empty s₁) hb).2.2
      refine .head hstep ((hsim₃ x l (hfunc.trans hst₁.func.symm) hworld
        (hcode₃.unreserve hmove₂.reserves) k (hk.trans hst₁.results) hl₃ fuel _ e₁
        (at_jumped hfirst) he₁.moved trivial).bind ?_)
      rintro ⟨b, e₂⟩ m₂ ⟨hm₂, he₂, -, hregs₂⟩
      refine .head (step_br hm₂ hjump₄.block hjump₄.phis)
        (.pure ⟨at_jumped hlast, he₂.moved, rfl, fun i hi => ?_⟩)
      exact (hregs₂ i (Nat.lt_of_lt_of_le hi hst₁.results)).trans (hregs₁ i hi)

/-- What the lowering of `and` and `or` is: the left operand, a branch over the right one,
the right operand, and a PHI node of the two values. -/
theorem run_codegenBinaryAndOr {and : Bool} {left right : Ast} {v : Value}
    (h : codegenBinaryAndOr E and left right s = .ok (v, s')) :
    ∃ value s₁ w s₂, E left .value s = .ok (value, s₁) ∧
      E right .value (s₁.jumped 2 (.condBr value (s₁.graph.size + if and then 0 else 1)
        (s₁.graph.size + if and then 1 else 0)) s₁.graph.size) = .ok (w, s₂) ∧
      let s₃ := s₂.jumped 0 (.br (s₁.graph.size + 1)) (s₁.graph.size + 1)
      v = ⟨value.type, .reg s₃.func s₃.nextResult⟩ ∧
      s' = s₃.phiAdded value.type [(w, s₂.insertBlock), (value, s₁.insertBlock)] := by
  obtain ⟨value, s₁, hleft, h⟩ := run_bind.mp h
  obtain ⟨_, _, hcurrent, h⟩ := run_bind.mp h
  obtain ⟨rfl, rfl⟩ := run_getInsertBlock.mp hcurrent
  obtain ⟨_, _, hblock, h⟩ := run_bind.mp h
  obtain ⟨rfl, rfl⟩ := run_createBlock.mp hblock
  obtain ⟨_, _, hblock, h⟩ := run_bind.mp h
  obtain ⟨rfl, rfl⟩ := run_createBlock.mp hblock
  obtain ⟨_, _, hend, h⟩ := run_bind.mp h
  obtain rfl := run_terminate.mp hend
  obtain ⟨_, _, hpoint, h⟩ := run_bind.mp h
  obtain rfl := run_setInsertPoint.mp hpoint
  obtain ⟨w, s₂, hright, h⟩ := run_bind.mp h
  obtain ⟨_, _, hend, h⟩ := run_bind.mp h
  obtain rfl := run_terminate.mp hend
  obtain ⟨_, _, hcurrent, h⟩ := run_bind.mp h
  obtain ⟨rfl, rfl⟩ := run_getInsertBlock.mp hcurrent
  obtain ⟨_, _, hpoint, h⟩ := run_bind.mp h
  obtain rfl := run_setInsertPoint.mp hpoint
  obtain ⟨rfl, rfl⟩ := run_createPHI.mp h
  refine ⟨value, s₁, w, s₂, hleft, ?_, rfl, rfl⟩
  cases and <;> exact hright

/-- `and` goes on with its right operand when the left one is true, `or` when it is not. -/
theorem codegenBinaryAndOr_implements {and : Bool} {left right : Ast}
    {ev₁ ev₂ : Nat → EvalState → Option (Val × EvalState)} (hE : Lowering cx E)
    (hleft : Implements c t g (E left .value) true g₁ ev₁)
    (hright : Implements c t g₁ (E right .value) true g' ev₂) :
    Implements c t g (codegenBinaryAndOr E and left right) true g' fun fuel e => do
      let (value, e) ← ev₁ fuel e
      if value.isTrue = and then ev₂ fuel e else return (value, e) := by
  intro s v s' hrun hs hbefore
  obtain ⟨value, s₁, w, s₂, hleft_, hright_, rfl, rfl⟩ := run_codegenBinaryAndOr hrun
  have hbefore₂ : s₂.Before t := ⟨hbefore.functions, hbefore.currentFunction⟩
  have hbefore₁ := hbefore₂.of_steps (hE _ _ _ _ _ hright_)
  -- the stretches of the lowering
  obtain ⟨hst₁, -, hshape₁, hsim₁⟩ := hleft s value s₁ hleft_ hs
    ⟨hbefore₁.functions, hbefore₁.currentFunction⟩
  have hmove₁ := Moves.stretch hs.isOpen (.empty s) hst₁
  have hb : s₁.graph.size ∈ (∅ : Set BlockId) ∨
      (s₁.graph.size ≤ s₁.graph.size ∧ s₁.graph.size < s₁.graph.size + 2) :=
    Or.inr ⟨Nat.le_refl _, Nat.lt_add_of_pos_right Nat.two_pos⟩
  have hmove₂ := Moves.jumped (.condBr value (s₁.graph.size + if and then 0 else 1)
    (s₁.graph.size + if and then 1 else 0)) hst₁.ready hmove₁.reserves hb
  obtain ⟨hst₃, -, -, hsim₃⟩ := hright _ w s₂ hright_ hmove₂.ready hbefore₂
  have hmove₃ := Moves.stretch hmove₂.ready.isOpen hmove₂.reserves hst₃
  have hend : s₁.graph.size + 1 ∈ afterJump ∅ s₁ 2 s₁.graph.size :=
    ⟨Or.inr ⟨Nat.le_succ _, Nat.lt_succ_self _⟩, Nat.succ_ne_self _⟩
  have hjoin := joining_phi [(w, s₂.insertBlock), (value, s₁.insertBlock)]
    hst₃.ready hmove₃.reserves hend hshape₁.isVoid
  have hrest₃ := hmove₃.trans hjoin.moves
  have hrest₂ := hmove₂.trans hrest₃
  refine ⟨(hmove₁.trans hrest₂).toStretch, hjoin.below, hjoin.shape, ?_⟩
  -- the run of the code
  intro x l hfunc hworld hcode k hk hl fuel m e hm he _
  obtain ⟨hcode₁, hcode₂⟩ := hmove₁.split hrest₂ hcode
  have hjump₂ := hrest₃.jumps hst₁.ready.isOpen hmove₁.reserves hb hcode₂
  obtain ⟨hcode₃, hcode₄⟩ := hmove₃.split hjoin.moves hjump₂.rest
  have hl₃ := hl.before hjoin.moves.toCarries
  have hl₁ := hl.before hrest₂.toCarries
  have hfunc₃ : x.func = s₂.func := hfunc.trans ((hst₃.func.trans hst₁.func).symm)
  have hk₃ : k ≤ s₂.nextResult := hk.trans (hst₁.results.trans hst₃.results)
  have hlands := hjoin.lands x l k hfunc₃ hk₃ hl hcode₄
  refine (hsim₁ x l hfunc hworld hcode₁ k hk hl₁ fuel m e hm he trivial).bind ?_
  rintro ⟨value_, e₁⟩ m₁ ⟨hm₁, he₁, hvalue, hregs₁⟩
  have hstep := step_condBr hm₁ hjump₂.block hvalue
  show Follows x.step fuel (if value_.isTrue = and then _ else _) m₁ _
  by_cases hbranch : value_.isTrue = and
  · rw [if_pos hbranch]
    have htarget : (if value_.isTrue then s₁.graph.size + (if and then 0 else 1)
        else s₁.graph.size + if and then 1 else 0) = s₁.graph.size := by
      rw [hbranch]
      cases and <;> rfl
    rw [htarget, jump_plain hjump₂.phis] at hstep
    have hfirst := (hst₁.ready.isOpen.jumped (t := .condBr value
      (s₁.graph.size + if and then 0 else 1) (s₁.graph.size + if and then 1 else 0))
      (.empty s₁) hb).2.2
    refine .head hstep ?_
    have hrun := hsim₃ x l (hfunc.trans hst₁.func.symm) hworld
      (hcode₃.unreserve hmove₂.reserves) k (hk.trans hst₁.results) hl₃ fuel _ e₁
      (at_jumped hfirst) he₁.moved trivial
    refine hrun.tail ?_
    rintro ⟨w_, e₂⟩ m₂ ⟨hm₂, he₂, hw, hregs₂⟩
    have hin : [(w, s₂.insertBlock), (value, s₁.insertBlock)].find? (fun p => p.2 = m₂.block) =
        some (w, s₂.insertBlock) := by
      rw [hm₂.block]
      simp
    obtain ⟨m', hjump, hm', he', hfits, hregs⟩ := hlands m₂ e₂ w s₂.insertBlock w_ hin hw he₂
    have hlast := (step_terminator hm₂ (hjoin.block _ hcode₄)).trans hjump
    refine ⟨m', .single hlast, hm', he', hfits, fun i hi => ?_⟩
    have hi₁ := Nat.lt_of_lt_of_le hi hst₁.results
    rw [hregs i (Nat.lt_of_lt_of_le hi₁ hst₃.results), hregs₂ i hi₁]
    exact hregs₁ i hi
  · rw [if_neg hbranch]
    have htarget : (if value_.isTrue then s₁.graph.size + (if and then 0 else 1)
        else s₁.graph.size + if and then 1 else 0) = s₁.graph.size + 1 := by
      revert hbranch
      cases and <;> cases value_.isTrue <;> simp
    rw [htarget] at hstep
    have hne := hmove₃.insert_ne hst₁.ready.isOpen hmove₁.reserves hb
    have hin : [(w, s₂.insertBlock), (value, s₁.insertBlock)].find? (fun p => p.2 = m₁.block) =
        some (value, s₁.insertBlock) := by
      rw [hm₁.block]
      simp [hne]
    obtain ⟨m', hjump, hm', he', hfits, hregs⟩ := hlands m₁ e₁ value s₁.insertBlock value_ hin
      hvalue he₁
    refine .head (hstep.trans hjump) (.pure ⟨hm', he', hfits, fun i hi => ?_⟩)
    rw [hregs i (Nat.lt_of_lt_of_le hi (hst₁.results.trans hst₃.results))]
    exact hregs₁ i hi

/-- What the lowering of `if` with `else` is: the condition, a branch, both bodies in
blocks of their own, and a PHI node of their values unless they are void. -/
theorem run_codegenIfElse {cond thenbody elsebody : Ast} {v : Value}
    (h : codegenIfElse E cond thenbody elsebody s = .ok (v, s')) :
    ∃ test s₁ w₁ s₂ w₂ s₃, E cond .value s = .ok (test, s₁) ∧
      E thenbody .value (s₁.jumped 3 (.condBr test s₁.graph.size (s₁.graph.size + 1))
        s₁.graph.size) = .ok (w₁, s₂) ∧
      E elsebody .value (s₂.jumped 0 (.br (s₁.graph.size + 2)) (s₁.graph.size + 1)) =
        .ok (w₂, s₃) ∧
      let s₄ := s₃.jumped 0 (.br (s₁.graph.size + 2)) (s₁.graph.size + 2)
      (w₁.type.isVoid = true → v = codegenVoid ∧ s' = s₄) ∧
      (w₁.type.isVoid = false → v = ⟨w₁.type, .reg s₄.func s₄.nextResult⟩ ∧
        s' = s₄.phiAdded w₁.type [(w₁, s₂.insertBlock), (w₂, s₃.insertBlock)]) := by
  obtain ⟨test, s₁, hcond, h⟩ := run_bind.mp h
  obtain ⟨_, _, hblock, h⟩ := run_bind.mp h
  obtain ⟨rfl, rfl⟩ := run_createBlock.mp hblock
  obtain ⟨_, _, hblock, h⟩ := run_bind.mp h
  obtain ⟨rfl, rfl⟩ := run_createBlock.mp hblock
  obtain ⟨_, _, hblock, h⟩ := run_bind.mp h
  obtain ⟨rfl, rfl⟩ := run_createBlock.mp hblock
  obtain ⟨_, _, hend, h⟩ := run_bind.mp h
  obtain rfl := run_terminate.mp hend
  obtain ⟨_, _, hpoint, h⟩ := run_bind.mp h
  obtain rfl := run_setInsertPoint.mp hpoint
  obtain ⟨w₁, s₂, hthen, h⟩ := run_bind.mp h
  obtain ⟨_, _, hend, h⟩ := run_bind.mp h
  obtain rfl := run_terminate.mp hend
  -- The PHI node lists the block that is current at the end of the branch.
  obtain ⟨_, _, hcurrent, h⟩ := run_bind.mp h
  obtain ⟨rfl, rfl⟩ := run_getInsertBlock.mp hcurrent
  obtain ⟨_, _, hpoint, h⟩ := run_bind.mp h
  obtain rfl := run_setInsertPoint.mp hpoint
  obtain ⟨w₂, s₃, helse, h⟩ := run_bind.mp h
  obtain ⟨_, _, hend, h⟩ := run_bind.mp h
  obtain rfl := run_terminate.mp hend
  obtain ⟨_, _, hcurrent, h⟩ := run_bind.mp h
  obtain ⟨rfl, rfl⟩ := run_getInsertBlock.mp hcurrent
  obtain ⟨_, _, hpoint, h⟩ := run_bind.mp h
  obtain rfl := run_setInsertPoint.mp hpoint
  refine ⟨test, s₁, w₁, s₂, w₂, s₃, hcond, hthen, helse, fun hvoid => ?_, fun hvoid => ?_⟩
  · rw [if_pos hvoid] at h
    obtain ⟨rfl, rfl⟩ := run_pure.mp h
    exact ⟨rfl, rfl⟩
  · rw [if_neg (Bool.not_eq_true _ ▸ hvoid)] at h
    obtain ⟨rfl, rfl⟩ := run_createPHI.mp h
    exact ⟨rfl, rfl⟩

/-- An `if` with `else` implements the evaluation of the condition and of the body that it
chooses. -/
theorem codegenIfElse_implements {cond thenbody elsebody : Ast} {h : Bool}
    {ev₁ ev₂ ev₃ : Nat → EvalState → Option (Val × EvalState)} (hE : Lowering cx E)
    (hcond : Implements c t g (E cond .value) true g₁ ev₁)
    (hthen : Implements c t g₁ (E thenbody .value) h g₂ ev₂)
    (helse : Implements c t g₂ (E elsebody .value) h g' ev₃) :
    Implements c t g (codegenIfElse E cond thenbody elsebody) h g' (fun fuel e => do
      let (test, e) ← ev₁ fuel e
      if test.isTrue then ev₂ fuel e else ev₃ fuel e) := by
  intro s v s' hrun hs hbefore
  obtain ⟨test, s₁, w₁, s₂, w₂, s₃, hcond_, hthen_, helse_, hvoid, hphi⟩ := run_codegenIfElse hrun
  have hbefore₃ : s₃.Before t := by
    cases hw : w₁.type.isVoid with
    | true =>
        obtain ⟨-, rfl⟩ := hvoid hw
        exact ⟨hbefore.functions, hbefore.currentFunction⟩
    | false =>
        obtain ⟨-, rfl⟩ := hphi hw
        exact ⟨hbefore.functions, hbefore.currentFunction⟩
  have hbefore₂ : s₂.Before t :=
    let before := hbefore₃.of_steps (hE _ _ _ _ _ helse_)
    ⟨before.functions, before.currentFunction⟩
  have hbefore₁ := hbefore₂.of_steps (hE _ _ _ _ _ hthen_)
  -- the stretches of the lowering
  obtain ⟨hst₁, -, -, hsim₁⟩ := hcond s test s₁ hcond_ hs
    ⟨hbefore₁.functions, hbefore₁.currentFunction⟩
  have hmove₁ := Moves.stretch hs.isOpen (.empty s) hst₁
  have hb : s₁.graph.size ∈ (∅ : Set BlockId) ∨
      (s₁.graph.size ≤ s₁.graph.size ∧ s₁.graph.size < s₁.graph.size + 3) :=
    Or.inr ⟨Nat.le_refl _, Nat.lt_add_of_pos_right (Nat.succ_pos 2)⟩
  have hmove₂ := Moves.jumped (.condBr test s₁.graph.size (s₁.graph.size + 1)) hst₁.ready
    hmove₁.reserves hb
  obtain ⟨hst₃, -, hshape₁, hsim₃⟩ := hthen _ w₁ s₂ hthen_ hmove₂.ready hbefore₂
  have hmove₃ := Moves.stretch hmove₂.ready.isOpen hmove₂.reserves hst₃
  have helsebb : s₁.graph.size + 1 ∈ afterJump ∅ s₁ 3 s₁.graph.size :=
    ⟨Or.inr ⟨Nat.le_succ _, Nat.add_lt_add_left (by decide) _⟩, Nat.succ_ne_self _⟩
  have hendbb : s₁.graph.size + 2 ∈ afterJump ∅ s₁ 3 s₁.graph.size :=
    ⟨Or.inr ⟨Nat.le_add_right _ 2, Nat.add_lt_add_left (by decide) _⟩,
      Nat.ne_of_gt (Nat.lt_add_of_pos_right Nat.two_pos)⟩
  have hmove₄ := Moves.jumped (k := 0) (.br (s₁.graph.size + 2)) hst₃.ready hmove₃.reserves
    (Or.inl helsebb)
  obtain ⟨hst₅, -, hshape₂, hsim₅⟩ := helse _ w₂ s₃ helse_ hmove₄.ready hbefore₃
  have hmove₅ := Moves.stretch hmove₄.ready.isOpen hmove₄.reserves hst₅
  have hendbb' : s₁.graph.size + 2 ∈
      afterJump (afterJump ∅ s₁ 3 s₁.graph.size) s₂ 0 (s₁.graph.size + 1) :=
    ⟨Or.inl hendbb, Nat.ne_of_gt (Nat.lt_succ_self _)⟩
  have hjoin : Joining g' (afterJump (afterJump ∅ s₁ 3 s₁.graph.size) s₂ 0 (s₁.graph.size + 1)) s₃
      (s₁.graph.size + 2) [(w₁, s₂.insertBlock), (w₂, s₃.insertBlock)] v h s' := by
    cases h with
    | true =>
        obtain ⟨rfl, rfl⟩ := hphi hshape₁.isVoid
        exact joining_phi _ hst₅.ready hmove₅.reserves hendbb' hshape₁.isVoid
    | false =>
        obtain ⟨rfl, rfl⟩ := hvoid hshape₁.isVoid
        refine joining_void _ hst₅.ready hmove₅.reserves hendbb' ?_
        intro p hp
        rcases List.mem_pair.mp hp with rfl | rfl
        · exact hshape₁.void rfl
        · exact hshape₂.void rfl
  have hrest₅ := hmove₅.trans hjoin.moves
  have hrest₄ := hmove₄.trans hrest₅
  have hrest₃ := hmove₃.trans hrest₄
  have hrest₂ := hmove₂.trans hrest₃
  refine ⟨(hmove₁.trans hrest₂).toStretch, hjoin.below, hjoin.shape, ?_⟩
  -- the run of the code
  intro x l hfunc hworld hcode k hk hl fuel m e hm he _
  obtain ⟨hcode₁, hcode₂⟩ := hmove₁.split hrest₂ hcode
  have hjump₂ := hrest₃.jumps hst₁.ready.isOpen hmove₁.reserves hb hcode₂
  obtain ⟨hcode₃, hcode₄⟩ := hmove₃.split hrest₄ hjump₂.rest
  have hjump₄ := hrest₅.jumps hst₃.ready.isOpen hmove₃.reserves (Or.inl helsebb) hcode₄
  obtain ⟨hcode₅, hcode₆⟩ := hmove₅.split hjoin.moves hjump₄.rest
  have hl₅ := hl.before hjoin.moves.toCarries
  have hl₃ := hl.before hrest₄.toCarries
  have hl₁ := hl.before hrest₂.toCarries
  have hfunc₂ : x.func = s₂.func := hfunc.trans ((hst₃.func.trans hst₁.func).symm)
  have hfunc₃ : x.func = s₃.func := hfunc₂.trans hst₅.func.symm
  have hresults₂ : s.nextResult ≤ s₂.nextResult := hst₁.results.trans hst₃.results
  have hresults₃ : s.nextResult ≤ s₃.nextResult := hresults₂.trans hst₅.results
  have hlands := hjoin.lands x l k hfunc₃ (hk.trans hresults₃) hl hcode₆
  refine (hsim₁ x l hfunc hworld hcode₁ k hk hl₁ fuel m e hm he trivial).bind ?_
  rintro ⟨test_, e₁⟩ m₁ ⟨hm₁, he₁, htest, hregs₁⟩
  have hstep := step_condBr hm₁ hjump₂.block htest
  show Follows x.step fuel (if test_.isTrue then _ else _) m₁ _
  cases hbranch : test_.isTrue with
  | true =>
      rw [hbranch, if_pos rfl, jump_plain hjump₂.phis] at hstep
      have hfirst := (hst₁.ready.isOpen.jumped (t := .condBr test s₁.graph.size
        (s₁.graph.size + 1)) (.empty s₁) hb).2.2
      refine .head hstep ?_
      have hrun := hsim₃ x l (hfunc.trans hst₁.func.symm) hworld
        (hcode₃.unreserve hmove₂.reserves) k (hk.trans hst₁.results) hl₃ fuel _ e₁
        (at_jumped hfirst) he₁.moved trivial
      refine hrun.tail ?_
      rintro ⟨b, e₂⟩ m₂ ⟨hm₂, he₂, hfits₂, hregs₂⟩
      have hin : [(w₁, s₂.insertBlock), (w₂, s₃.insertBlock)].find? (fun p => p.2 = m₂.block) =
          some (w₁, s₂.insertBlock) := by
        rw [hm₂.block]
        simp
      obtain ⟨m', hjump, hm', he', hfits, hregs⟩ := hlands m₂ e₂ w₁ s₂.insertBlock b hin hfits₂ he₂
      have hlast := (step_terminator hm₂ hjump₄.block).trans hjump
      refine ⟨m', .single hlast, hm', he', hfits, fun i hi => ?_⟩
      rw [hregs i (Nat.lt_of_lt_of_le hi hresults₃), hregs₂ i (Nat.lt_of_lt_of_le hi hst₁.results)]
      exact hregs₁ i hi
  | false =>
      rw [hbranch, if_neg Bool.false_ne_true, jump_plain hjump₄.phis] at hstep
      have hfirst := (hst₃.ready.isOpen.jumped (t := .br (s₁.graph.size + 2)) hmove₃.reserves
        (Or.inl helsebb) (k := 0)).2.2
      refine .head hstep ?_
      have hrun := hsim₅ x l hfunc₂ hworld (hcode₅.unreserve hmove₄.reserves) k
        (hk.trans hresults₂) hl₅ fuel _ e₁ (at_jumped hfirst) he₁.moved trivial
      refine hrun.tail ?_
      rintro ⟨b, e₂⟩ m₂ ⟨hm₂, he₂, hfits₂, hregs₂⟩
      have hne := hmove₅.insert_ne hst₃.ready.isOpen hmove₃.reserves (Or.inl helsebb)
      have hin : [(w₁, s₂.insertBlock), (w₂, s₃.insertBlock)].find? (fun p => p.2 = m₂.block) =
          some (w₂, s₃.insertBlock) := by
        rw [hm₂.block]
        simp [hne.symm]
      obtain ⟨m', hjump, hm', he', hfits, hregs⟩ := hlands m₂ e₂ w₂ s₃.insertBlock b hin hfits₂ he₂
      have hlast := (step_terminator hm₂ (hjoin.block _ hcode₆)).trans hjump
      refine ⟨m', .single hlast, hm', he', hfits, fun i hi => ?_⟩
      rw [hregs i (Nat.lt_of_lt_of_le hi hresults₃), hregs₂ i (Nat.lt_of_lt_of_le hi hresults₂)]
      exact hregs₁ i hi

/-- What the lowering of a loop is: a jump to the block of the condition, the body in a
block that jumps back to it, and the block after the loop. -/
theorem run_codegenWhile {expr body : Ast} {v : Value}
    (h : codegenWhile E expr body s = .ok (v, s')) :
    ∃ test s₁ w s₂,
      E expr .value (s.jumped 3 (.br s.graph.size) s.graph.size) = .ok (test, s₁) ∧
      E body .value (s₁.jumped 0 (.condBr test (s.graph.size + 1) (s.graph.size + 2))
        (s.graph.size + 1)) = .ok (w, s₂) ∧
      v = codegenVoid ∧ s' = s₂.jumped 0 (.br s.graph.size) (s.graph.size + 2) := by
  obtain ⟨_, _, hblock, h⟩ := run_bind.mp h
  obtain ⟨rfl, rfl⟩ := run_createBlock.mp hblock
  obtain ⟨_, _, hblock, h⟩ := run_bind.mp h
  obtain ⟨rfl, rfl⟩ := run_createBlock.mp hblock
  obtain ⟨_, _, hblock, h⟩ := run_bind.mp h
  obtain ⟨rfl, rfl⟩ := run_createBlock.mp hblock
  obtain ⟨_, _, hend, h⟩ := run_bind.mp h
  obtain rfl := run_terminate.mp hend
  obtain ⟨_, _, hpoint, h⟩ := run_bind.mp h
  obtain rfl := run_setInsertPoint.mp hpoint
  obtain ⟨test, s₁, hexpr, h⟩ := run_bind.mp h
  obtain ⟨_, _, hend, h⟩ := run_bind.mp h
  obtain rfl := run_terminate.mp hend
  obtain ⟨_, _, hpoint, h⟩ := run_bind.mp h
  obtain rfl := run_setInsertPoint.mp hpoint
  obtain ⟨w, s₂, hbody, h⟩ := run_bind.mp h
  obtain ⟨_, _, hend, h⟩ := run_bind.mp h
  obtain rfl := run_terminate.mp hend
  obtain ⟨_, _, hpoint, h⟩ := run_bind.mp h
  obtain rfl := run_setInsertPoint.mp hpoint
  obtain ⟨rfl, rfl⟩ := run_pure.mp h
  exact ⟨test, s₁, w, s₂, hexpr, hbody, rfl, rfl⟩

/-- The rounds of a loop, by induction on their number: a condition that is false leaves
the loop, and the jump back to the condition goes with a round. -/
theorem follows_evalWhile {σ : Type} {step : σ → Option σ} {fuel : Nat}
    {cond body : EvalState → Option (Val × EvalState)} (inv fits : EvalState → σ → Prop)
    (tested : Val × EvalState → σ → Prop)
    (hcond : ∀ e m, inv e m → Simulation.Follows step fuel (cond e) m tested)
    (hexit : ∀ test e m, tested (test, e) m → test.isTrue = false →
      ∃ m', step m = some m' ∧ fits e m')
    (hround : ∀ test e m, tested (test, e) m → test.isTrue = true →
      Simulation.Follows step fuel (body e) m fun r m' => ∃ m'', step m' = some m'' ∧ inv r.2 m'')
    {n : Nat} (hn : n ≤ fuel) {e : EvalState} {m : σ} (h : inv e m) :
    Simulation.Follows step n (evalWhile cond body n e) m fits := by
  induction n generalizing e m with
  | zero => exact trivial
  | succ n ih =>
      refine ((hcond e m h).of_le hn).bind ?_
      rintro ⟨test, e₁⟩ m₁ htested
      show Simulation.Follows step (n + 1) (if test.isTrue then _ else _) m₁ fits
      cases htest : test.isTrue with
      | false =>
          obtain ⟨m', hstep, hfits⟩ := hexit test e₁ m₁ htested htest
          exact .head hstep (.pure hfits)
      | true =>
          refine ((hround test e₁ m₁ htested htest).of_le hn).bind ?_
          rintro ⟨_, e₂⟩ m₂ ⟨m₃, hstep, hinv⟩
          exact .round hstep (ih (Nat.le_of_succ_le hn) hinv)

/-- A loop implements the passes of the evaluation, one after another for as long as the
condition is true. -/
theorem codegenWhile_implements {expr body : Ast} {h : Bool}
    {ev₁ ev₂ : Nat → EvalState → Option (Val × EvalState)} (hE : Lowering cx E)
    (hexpr : Implements c t g (E expr .value) true g₁ ev₁)
    (hbody : Implements c t g₁ (E body .value) h g' ev₂) :
    Implements c t g (codegenWhile E expr body) false g' (fun fuel e => do
      let e ← evalWhile (ev₁ fuel) (ev₂ fuel) fuel e
      return (.void, e)) := by
  intro s v s' hrun hs hbefore
  obtain ⟨test, s₁, w, s₂, hexpr_, hbody_, rfl, rfl⟩ := run_codegenWhile hrun
  have hbefore₂ : s₂.Before t := ⟨hbefore.functions, hbefore.currentFunction⟩
  have hbefore₁ : s₁.Before t :=
    let before := hbefore₂.of_steps (hE _ _ _ _ _ hbody_)
    ⟨before.functions, before.currentFunction⟩
  -- the stretches of the lowering
  have hb : s.graph.size ∈ (∅ : Set BlockId) ∨
      (s.graph.size ≤ s.graph.size ∧ s.graph.size < s.graph.size + 3) :=
    Or.inr ⟨Nat.le_refl _, Nat.lt_add_of_pos_right (Nat.succ_pos 2)⟩
  have hmove₁ := Moves.jumped (.br s.graph.size) hs (.empty s) hb
  obtain ⟨hst₂, -, -, hsim₂⟩ := hexpr _ test s₁ hexpr_ hmove₁.ready hbefore₁
  have hmove₂ := Moves.stretch hmove₁.ready.isOpen hmove₁.reserves hst₂
  have hbodybb : s.graph.size + 1 ∈ afterJump ∅ s 3 s.graph.size :=
    ⟨Or.inr ⟨Nat.le_succ _, Nat.add_lt_add_left (by decide) _⟩, Nat.succ_ne_self _⟩
  have hendbb : s.graph.size + 2 ∈ afterJump ∅ s 3 s.graph.size :=
    ⟨Or.inr ⟨Nat.le_add_right _ 2, Nat.add_lt_add_left (by decide) _⟩,
      Nat.ne_of_gt (Nat.lt_add_of_pos_right Nat.two_pos)⟩
  have hmove₃ := Moves.jumped (k := 0) (.condBr test (s.graph.size + 1) (s.graph.size + 2))
    hst₂.ready hmove₂.reserves (Or.inl hbodybb)
  obtain ⟨hst₄, -, -, hsim₄⟩ := hbody _ w s₂ hbody_ hmove₃.ready hbefore₂
  have hmove₄ := Moves.stretch hmove₃.ready.isOpen hmove₃.reserves hst₄
  have hendbb' : s.graph.size + 2 ∈
      afterJump (afterJump ∅ s 3 s.graph.size) s₁ 0 (s.graph.size + 1) :=
    ⟨Or.inl hendbb, Nat.ne_of_gt (Nat.lt_succ_self _)⟩
  have hmove₅ := Moves.jumped (k := 0) (.br s.graph.size) hst₄.ready hmove₄.reserves
    (Or.inl hendbb')
  have hmove₆ := Moves.release hmove₅.ready hmove₅.reserves
  have hrest₄ := hmove₄.trans (hmove₅.trans hmove₆)
  have hrest₃ := hmove₃.trans hrest₄
  have hrest₂ := hmove₂.trans hrest₃
  refine ⟨(hmove₁.trans hrest₂).toStretch, fun f j h => (nomatch h), ⟨rfl, fun _ => rfl⟩, ?_⟩
  -- the run of the code
  intro x l hfunc hworld hcode k hk hl fuel m e hm he _
  have hjump₁ := hrest₂.jumps hs.isOpen (.empty s) hb hcode
  obtain ⟨hcode₂, hcode₃⟩ := hmove₂.split hrest₃ hjump₁.rest
  have hjump₃ := hrest₄.jumps hst₂.ready.isOpen hmove₂.reserves (Or.inl hbodybb) hcode₃
  obtain ⟨hcode₄, hcode₅⟩ := hmove₄.split (hmove₅.trans hmove₆) hjump₃.rest
  have hjump₅ := hmove₆.jumps hst₄.ready.isOpen hmove₄.reserves (Or.inl hendbb') hcode₅
  have hl₄ := hl.before (hmove₅.trans hmove₆).toCarries
  have hl₂ := hl.before hrest₃.toCarries
  have hloop : (s.jumped 3 (.br s.graph.size) s.graph.size).current = {} :=
    (hs.isOpen.jumped (.empty s) hb).2.2
  have hfirst := (hst₂.ready.isOpen.jumped (k := 0)
    (t := .condBr test (s.graph.size + 1) (s.graph.size + 2)) hmove₂.reserves
    (Or.inl hbodybb)).2.2
  have hlast := (hst₄.ready.isOpen.jumped (k := 0) (t := .br s.graph.size) hmove₄.reserves
    (Or.inl hendbb')).2.2
  -- what holds whenever the run is at the condition
  let same (m' : ExecState) : Prop := ∀ i < s.nextResult, m'.regs i = m.regs i
  let inv (e' : EvalState) (m' : ExecState) : Prop :=
    (s.jumped 3 (.br s.graph.size) s.graph.size).At m' ∧ x.Agrees l m' e' ∧ same m'
  let fits (e' : EvalState) (m' : ExecState) : Prop :=
    (s₂.jumped 0 (.br s.graph.size) (s.graph.size + 2)).At m' ∧ x.Agrees l m' e' ∧ same m'
  let tested (r : Val × EvalState) (m' : ExecState) : Prop :=
    s₁.At m' ∧ x.Agrees l m' r.2 ∧ test.Fits r.1 x m'.regs ∧ same m'
  have hentry : inv e { m with block := s.graph.size, pc := 0 } :=
    ⟨at_jumped hloop, he.moved, fun _ _ => rfl⟩
  refine .head (step_br hm hjump₁.block hjump₁.phis) (.bind
    (follows_evalWhile inv fits tested ?_ ?_ ?_ (Nat.le_refl fuel) hentry) ?_)
  · rintro e' m' ⟨hm', he', hsame⟩
    refine (hsim₂ x l hfunc hworld (hcode₂.unreserve hmove₁.reserves) k hk hl₂ fuel m' e' hm' he'
      trivial).mono ?_
    rintro ⟨test_, e₁⟩ m₁ ⟨hm₁, he₁, htest, hregs₁⟩
    exact ⟨hm₁, he₁, htest, fun i hi => (hregs₁ i hi).trans (hsame i hi)⟩
  · rintro test_ e₁ m₁ ⟨hm₁, he₁, htest, hsame⟩ hbranch
    have hstep := step_condBr hm₁ hjump₃.block htest
    rw [hbranch, if_neg Bool.false_ne_true, jump_plain hjump₅.phis] at hstep
    exact ⟨_, hstep, at_jumped hlast, he₁.moved, hsame⟩
  · rintro test_ e₁ m₁ ⟨hm₁, he₁, htest, hsame⟩ hbranch
    have hstep := step_condBr hm₁ hjump₃.block htest
    rw [hbranch, if_pos rfl, jump_plain hjump₃.phis] at hstep
    refine .head hstep ((hsim₄ x l (hfunc.trans hst₂.func.symm) hworld
      (hcode₄.unreserve hmove₃.reserves) k (hk.trans hst₂.results) hl₄ fuel _ e₁
      (at_jumped hfirst) he₁.moved trivial).mono ?_)
    rintro ⟨_, e₂⟩ m₂ ⟨hm₂, he₂, -, hregs₂⟩
    refine ⟨_, step_br hm₂ hjump₅.block hjump₁.phis, at_jumped hloop, he₂.moved, fun i hi => ?_⟩
    exact (hregs₂ i (Nat.lt_of_lt_of_le hi hst₂.results)).trans (hsame i hi)
  · rintro e' m' ⟨hm', he', hsame⟩
    exact .pure ⟨hm', he', rfl, hsame⟩

end Constructs

end Aike
