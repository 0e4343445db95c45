import Aike.Proofs.Codegen.Branch

/-!
# `Aike.Proofs.Codegen.Meaning`: each construct does what it means

One lemma for each kind of node: the code that its lowering adds follows the
evaluation of the node, when the code of its parts does (`Implements`). The lowering
of expressions is a parameter, of which only the steps that it can take are known.

`codegenExpr_implements` puts them together by induction on the number of nested
calls.
-/

set_option autoImplicit false

namespace Aike

open Simulation

variable {cx : CodegenContext} {c : EvalContext} {s s₁ s' t : Codegen} {g g₁ g' : TreeScope}

/-! ### Values -/

/-- A constant needs no code. -/
theorem implements_constant {v : Value} {val : Val} {h : Bool} (hv : ∀ f i, v.value ≠ .reg f i)
    (htype : v.Shape h) (hval : ∀ x regs, v.Fits val x regs) :
    Implements c t g (pure v) h g fun _ e => some (val, e) := by
  intro s v' s' hrun hs _
  obtain ⟨rfl, rfl⟩ := run_pure.mp hrun
  have hsame : s.SameWork s := ⟨rfl, rfl, rfl, rfl, rfl⟩
  refine ⟨hsame.stretch hs, fun f i h => absurd h (hv f i), htype, ?_⟩
  exact Simulates.pure hsame.code fun x regs _ _ => hval x regs

/-- A bool literal is lowered to a constant of one bit and emits nothing. -/
theorem implements_bool (value : Bool) :
    Implements c t g (pure ⟨.int1, .int value.toNat⟩) true g fun _ e => some (.bool value, e) := by
  refine implements_constant (fun _ _ => nofun) ⟨rfl, nofun⟩ fun x regs => ?_
  cases value <;> rfl

/-- An integer literal is lowered to the constant of 32 bits that it is cut to, and
evaluates to the same bits. -/
theorem implements_integer (value : Int) :
    Implements c t g (pure ⟨.int32, .int (value.bmod 0x100000000)⟩) true g fun _ e =>
      some (.int (BitVec.ofInt 32 value), e) := by
  refine implements_constant (fun _ _ => nofun) ⟨rfl, nofun⟩ fun x regs => ?_
  have hwrap : BitVec.ofInt 32 (value.bmod 0x100000000) = BitVec.ofInt 32 value := by
    apply BitVec.eq_of_toInt_eq
    rw [BitVec.toInt_ofInt, BitVec.toInt_ofInt]
    exact Int.bmod_bmod
  show some (Val.int (BitVec.ofInt 32 (value.bmod 0x100000000))) = some _
  rw [hwrap]

/-! ### Variables -/

/-- The storage of a variable in scope. -/
theorem Codegen.Ready.storage (hs : s.Ready g) {n : Node} {var : Variable} {store : Store}
    (reads : store.Reads g n var) (hkind : var.kind = .variable) :
    ∃ type i, s.vars var.id = some ⟨.pointer type, .slot s.func i⟩ ∧ type.isVoid = false ∧
      i < s.graph.allocas.length := hs.stored var.id (reads.stored hkind)

/-- An identifier that is assigned to: its storage. -/
theorem run_codegenIdent_ref {n : Node} {var : Variable} {v : Value}
    (reads : cx.store.Reads g n var) (hkind : var.kind = .variable)
    (h : codegenIdent cx n .ref s = .ok (v, s')) :
    s.vars var.id = some v ∧ s.SameWork s' := by
  unfold codegenIdent at h
  rw [reads.targets] at h
  simp only [hkind, run_bind, run_pure, run_findVar] at h
  obtain ⟨storage, _, ⟨hvar, rfl⟩, rfl, rfl⟩ := h
  exact ⟨hvar, rfl, rfl, rfl, rfl, rfl⟩

/-- A variable that is loaded. -/
theorem codegenLoad_implements {n : Node} {var : Variable} (reads : cx.store.Reads g n var)
    (hkind : var.kind = .variable) :
    Implements c t g (codegenIdent cx n .value) true g fun _ e => some (e.vars var.id, e) := by
  intro s v s' hrun hs _
  unfold codegenIdent at hrun
  rw [reads.targets] at hrun
  simp only [hkind, run_bind, run_findVar] at hrun
  obtain ⟨storage, _, ⟨hvar, rfl⟩, hload⟩ := hrun
  obtain ⟨type, i, hslot, htype, -⟩ := hs.storage reads hkind
  obtain rfl := Option.some.inj (hvar.symm.trans hslot)
  obtain ⟨_, _, helem, hinsert⟩ := run_bind.mp hload
  obtain ⟨rfl, rfl⟩ := run_pure.mp helem
  obtain ⟨rfl, rfl⟩ := run_insert.mp hinsert
  -- The storage is looked up, and one load is inserted.
  have hwork : s.SameWork
      { s with lowered := s.lowered ++ [(var.id, ⟨.pointer type, .slot s.func i⟩)] } :=
    ⟨rfl, rfl, rfl, rfl, rfl⟩
  have hstretch := (hwork.stretch hs).trans hs.isOpen
    ((hwork.stretch hs).ready.inserted (.load ⟨.pointer type, .slot s.func i⟩ var.id))
  refine ⟨hstretch, fun f j h => ?_, ⟨htype, nofun⟩, ?_⟩
  · cases h
    exact Nat.lt_succ_self _
  · refine Simulates.instr hs.isOpen hwork.code rfl ⟨rfl, rfl, rfl⟩ ?_
    intro x l k m e hfunc _ hk hl he _
    obtain ⟨hmem, hlayout⟩ := hl.stored var.id (reads.stored hkind)
    have hx : x.slot ⟨.pointer type, .slot s.func i⟩ = some i := if_pos hfunc.symm
    -- The slot has what the variable has.
    have hval : m.slots i = e.vars var.id :=
      he.stored var.id hmem _ i (hlayout.trans hvar) hx
    let instr : Instr := ⟨s.nextResult, .load ⟨.pointer type, .slot s.func i⟩ var.id⟩
    refine ⟨ExecContext.result m instr (m.slots i), ?_, rfl, rfl, ?_, ?_,
      result_regs (Nat.le_refl _)⟩
    · show (x.slot _).bind _ = _
      rw [hx]
      rfl
    · exact he.of_regs hl rfl rfl (result_regs hk)
    · rw [← hval]
      exact result_fits hfunc

/-- An argument, which is a value. -/
theorem codegenArgument_implements {n : Node} {var : Variable} (reads : cx.store.Reads g n var)
    (hkind : var.kind = .argument ∨ var.kind = .value) :
    Implements c t g (codegenIdent cx n .value) true g fun _ e => some (e.vars var.id, e) := by
  intro s v s' hrun hs _
  have hfind : findVar var s = .ok (v, s') := by
    unfold codegenIdent at hrun
    rw [reads.targets] at hrun
    rcases hkind with hkind | hkind <;> simpa only [hkind] using hrun
  obtain ⟨hvar, rfl⟩ := run_findVar.mp hfind
  have hmem := reads.values hkind
  obtain ⟨value, hvalue, htype, hown⟩ := hs.values var.id hmem
  obtain rfl := Option.some.inj (hvar.symm.trans hvalue)
  have hwork : s.SameWork { s with lowered := s.lowered ++ [(var.id, v)] } :=
    ⟨rfl, rfl, rfl, rfl, rfl⟩
  refine ⟨hwork.stretch hs, fun f j h => ?_, ⟨htype, nofun⟩, ?_⟩
  · rcases hown with ⟨i, harg⟩ | ⟨i, hi, hreg⟩
    · rw [harg] at h
      cases h
    · rw [hreg] at h
      cases h
      exact hi
  · intro x l hfunc _ _ k hk hl fuel m e hm he _
    obtain ⟨hscope, hlayout⟩ := hl.values var.id hmem
    exact .pure ⟨⟨hm.block, hm.pc⟩, he, he.values var.id hscope v (hlayout.trans hvar),
      fun _ _ => rfl⟩

/-- A read of a variable is lowered to a load of its slot, which holds what the variable
has in the evaluation. -/
theorem codegenIdent_implements {n : Node} {var : Variable} (reads : cx.store.Reads g n var) :
    Implements c t g (codegenIdent cx n .value) true g fun _ e => some (e.vars var.id, e) := by
  cases hkind : var.kind with
  | function => exact absurd hkind reads.kind
  | «variable» => exact codegenLoad_implements reads hkind
  | argument => exact codegenArgument_implements reads (Or.inl hkind)
  | value => exact codegenArgument_implements reads (Or.inr hkind)

/-! ### Storing -/

/-- A value is stored in the slot of a variable of the layout. -/
theorem exec_store (n : Nat) (name : Option VarId) {x : ExecContext} {l : Layout} {m : ExecState}
    {e : EvalState} {i k : Nat} {value address : Value} {val : Val} {v : VarId}
    (hl : l.Covers x k s g) (he : x.Agrees l m e) (hv : v ∈ g.stored)
    (hvar : s.vars v = some address) (hslot : x.slot address = some i)
    (hval : value.Fits val x m.regs) :
    ∃ m', x.execInstr m ⟨n, .store value address name⟩ = some m' ∧ m'.block = m.block ∧
      m'.pc = m.pc + 1 ∧ x.Agrees l m' { e with vars := update e.vars v val } ∧
      m'.regs = m.regs := by
  obtain ⟨hmem, hlayout⟩ := hl.stored v hv
  refine ⟨{ m with pc := m.pc + 1, slots := update m.slots i val }, ?_, rfl, rfl, ?_, rfl⟩
  · show (x.slot address).bind _ = _
    rw [hslot]
    show (x.eval m.regs value).bind _ = _
    rw [hval]
    rfl
  · refine ⟨fun w hw other j hother hj => ?_, fun w hw other hother => ?_, he.calls⟩
    · show update m.slots i val j = update e.vars v val w
      -- The slot of one variable changes, and no other variable has that slot.
      by_cases hji : j = i
      · have hwv : w = v := hl.apart w hw v hmem other address i hother (hlayout.trans hvar)
          (hji ▸ hj) hslot
        rw [hji, hwv, update, if_pos rfl, update, if_pos rfl]
      · have hwv : w ≠ v := by
          rintro rfl
          rw [hlayout, hvar] at hother
          cases hother
          rw [hslot] at hj
          exact hji (Option.some.inj hj).symm
        rw [update, if_neg hji, update, if_neg hwv]
        exact he.stored w hw other j hother hj
    · -- storage is no value, so the variable is not the one that is stored
      have hwv : w ≠ v := by
        rintro rfl
        rw [hlayout, hvar] at hother
        cases hother
        have hnone := he.values w hw address (hlayout.trans hvar)
        unfold ExecContext.slot at hslot
        unfold ExecContext.eval at hnone
        split at hslot
        · rename_i haddress
          simp only [haddress, reduceCtorEq] at hnone
        · cases hslot
      show x.eval m.regs other = some (update e.vars v val w)
      rw [update, if_neg hwv]
      exact he.values w hw other hother

/-- The slots after a variable has come into scope. -/
theorem slotOf_declared (s : Codegen) (type : LType) (x v : VarId) (op : Op) :
    Codegen.slotOf { (s.allocated type 1).inserted op with
      vars := update s.vars x (some ⟨.pointer type, .slot s.func s.graph.allocas.length⟩) } v =
      if v = x then some s.graph.allocas.length else s.slotOf v := by
  by_cases hv : v = x
  · simp [Codegen.slotOf, update, hv, Codegen.inserted, Codegen.allocated, Codegen.modifyBlock]
  · rw [if_neg hv]
    unfold Codegen.slotOf
    simp only [update, if_neg hv]
    rfl

/-- A variable comes into scope with a new slot, and an instruction is added. -/
theorem declared_stretch (hs : s.Ready g) {type : LType} {x : VarId} (htype : type.isVoid = false)
    (hne : ∀ v, v ∈ g.stored ∨ v ∈ g.values → v ≠ x) (op : Op) :
    Stretch g s
      { (s.allocated type 1).inserted op with
        vars := update s.vars x (some ⟨.pointer type, .slot s.func s.graph.allocas.length⟩) }
      (g.declare x) where
  ready :=
    { isOpen :=
        let ho := (hs.isOpen.inserted op)
        ⟨ho.insert_lt, ho.unterminated, ho.blank⟩
      stored := by
        intro v hv
        rcases List.mem_cons.mp hv with rfl | hv
        · exact ⟨type, _, if_pos rfl, htype, Nat.lt_succ_self _⟩
        · obtain ⟨type', n, hvar, htype', hn⟩ := hs.stored v hv
          exact ⟨type', n, (if_neg (hne v (Or.inl hv))).trans hvar, htype', Nat.lt_succ_of_lt hn⟩
      values := by
        intro v hv
        obtain ⟨value, hvar, hvoid, hown⟩ := hs.values v hv
        refine ⟨value, (if_neg (hne v (Or.inr hv))).trans hvar, hvoid, hown.imp_right ?_⟩
        rintro ⟨i, hi, hreg⟩
        exact ⟨i, Nat.lt_succ_of_lt hi, hreg⟩
      -- The new variable has a slot that no other one has, as slots are given out in order.
      apart := by
        have hnew : ∀ v ∈ g.stored, s.slotOf v ≠ some s.graph.allocas.length := by
          intro v hv heq
          obtain ⟨type', n, hvar, -, hn⟩ := hs.stored v hv
          rw [Codegen.slotOf, hvar] at heq
          simp only [if_true, Option.some.injEq] at heq
          omega
        intro v hv w hw heq
        rw [slotOf_declared, slotOf_declared] at heq
        rcases List.mem_cons.mp hv with hvx | hv <;> rcases List.mem_cons.mp hw with hwx | hw
        · rw [hvx, hwx]
        · rw [if_pos hvx, if_neg (hne w (Or.inl hw))] at heq
          exact absurd heq.symm (hnew w hw)
        · rw [if_pos hwx, if_neg (hne v (Or.inl hv))] at heq
          exact absurd heq (hnew v hv)
        · rw [if_neg (hne v (Or.inl hv)), if_neg (hne w (Or.inl hw))] at heq
          exact hs.apart v hv w hw heq }
  func := rfl
  results := Nat.le_succ _
  stored v hv := ⟨List.mem_cons_of_mem _ hv, if_neg (hne v (Or.inl hv))⟩
  values := ⟨rfl, fun v hv => if_neg (hne v (Or.inr hv))⟩
  emits :=
    let he := Emits.inserted (R := ∅) s op
    ⟨he.size_le, he.insert, he.frame, he.phis, he.instrs, he.reserved⟩

section Nodes

variable {E : Ast → CodegenKind → CodegenM Value}

/-- `not` is lowered to one instruction on the operand's value. -/
theorem codegenNot_implements {expr : Ast} {ev : Nat → EvalState → Option (Val × EvalState)}
    (hexpr : Implements c t g (E expr .value) true g' ev) :
    Implements c t g (codegenUnary cx E .not expr .value) true g' fun fuel e => do
      let (value, e) ← ev fuel e
      return (value.not, e) := by
  intro s v s' hrun hs hbefore
  obtain ⟨value, s₁, hvalue, hrun⟩ := run_bind.mp hrun
  obtain ⟨rfl, rfl⟩ := run_insert.mp hrun
  obtain ⟨hst, hbelow, hshape, hsim⟩ := hexpr s value s₁ hvalue hs
    ⟨hbefore.functions, hbefore.currentFunction⟩
  have hadd := hst.ready.inserted (.not value)
  refine ⟨hst.trans hs.isOpen hadd, fun f j h => ?_, ⟨hshape.isVoid, nofun⟩, ?_⟩
  · cases h
    exact Nat.lt_succ_self _
  · refine hsim.bind (fun b _ e => some (b.not, e)) hst hadd fun b => ?_
    refine Simulates.instr hst.ready.isOpen ⟨rfl, rfl, rfl⟩ rfl ⟨rfl, rfl, rfl⟩ ?_
    intro x l k m e hfunc _ hk hl he hb
    let instr : Instr := ⟨s₁.nextResult, .not value⟩
    refine ⟨ExecContext.result m instr b.not, ?_, rfl, rfl,
      he.of_regs hl rfl rfl (result_regs hk), result_fits hfunc, result_regs (Nat.le_refl _)⟩
    show (x.eval m.regs value).bind _ = _
    rw [hb]
    rfl

/-- An assignment: the variable is looked up, then the value is computed and stored. -/
theorem codegenAssign_implements {left right : Ast} {n : Node} {var : Variable}
    {ev : Nat → EvalState → Option (Val × EvalState)} (reads : cx.store.Reads g n var)
    (hkind : var.kind = .variable)
    (hleft : ∀ s v s', E left .ref s = .ok (v, s') → codegenIdent cx n .ref s = .ok (v, s'))
    (hright : Implements c t g (E right .value) true g' ev) :
    Implements c t g (codegenAssign E left right) false g' fun fuel e => do
      let (value, e) ← ev fuel e
      return (.void, { e with vars := update e.vars var.id value }) := by
  intro s v s' hrun hs hbefore
  obtain ⟨storage, s₁, hstorage, hrun⟩ := run_bind.mp hrun
  obtain ⟨value, s₂, hvalue, hrun⟩ := run_bind.mp hrun
  obtain ⟨_, _, hstore, hrun⟩ := run_bind.mp hrun
  obtain rfl := run_insertVoid.mp hstore
  obtain ⟨rfl, rfl⟩ := run_pure.mp hrun
  obtain ⟨hvar, hwork⟩ := run_codegenIdent_ref reads hkind (hleft _ _ _ hstorage)
  obtain ⟨type, i, hslot, -⟩ := hs.storage reads hkind
  obtain rfl := Option.some.inj (hvar.symm.trans hslot)
  -- The storage comes first, then the value, and then the store.
  have hst₁ := hwork.stretch hs
  obtain ⟨hst, hbelow, -, hsim⟩ := hright s₁ value s₂ hvalue hst₁.ready
    ⟨hbefore.functions, hbefore.currentFunction⟩
  have hadd := hst.ready.inserted (.store value ⟨.pointer type, .slot s.func i⟩ none)
  refine ⟨hst₁.trans hs.isOpen (hst.trans hst₁.ready.isOpen hadd), fun f j h => (nomatch h),
    ⟨rfl, fun _ => rfl⟩,
    Simulates.of_work hwork (hsim.bind
      (fun b _ e => some (Val.void, { e with vars := update e.vars var.id b })) hst hadd
        fun b => ?_)⟩
  refine Simulates.instr hst.ready.isOpen ⟨rfl, rfl, rfl⟩ rfl ⟨rfl, rfl, rfl⟩ ?_
  intro x l k m e hfunc _ hk hl he hb
  have hmem := (hst.stored var.id (reads.stored hkind)).1
  have hvar₂ := (hst.stored var.id (reads.stored hkind)).2.trans
    ((congrFun hwork.vars var.id).trans hvar)
  have hx : x.slot ⟨.pointer type, .slot s.func i⟩ = some i :=
    if_pos (hfunc.trans (hst.func.trans hwork.func)).symm
  obtain ⟨m', hexec, hblock, hpc, hagrees, hregs⟩ :=
    exec_store s₂.nextResult none hl he hmem hvar₂ hx hb
  exact ⟨m', hexec, hblock, hpc, hagrees, rfl, fun j _ => congrFun hregs j⟩

/-- A declaration: the value is computed, and stored in a new slot. -/
theorem codegenVarDecl_implements {var : Variable} {expr : Ast}
    {ev : Nat → EvalState → Option (Val × EvalState)}
    (hexpr : Implements c t g (E expr .value) true g₁ ev)
    (hfresh : var.id ∉ g₁.stored ∧ var.id ∉ g₁.values) :
    Implements c t g (codegenVarDecl E var expr) false (g₁.declare var.id) fun fuel e => do
      let (value, e) ← ev fuel e
      return (.void, { e with vars := update e.vars var.id value }) := by
  intro s v s' hrun hs hbefore
  obtain ⟨value, s₁, hvalue, hrun⟩ := run_bind.mp hrun
  obtain ⟨storage, _, halloc, hrun⟩ := run_bind.mp hrun
  obtain ⟨rfl, rfl⟩ := run_codegenAlloca.mp halloc
  obtain ⟨_, _, hstore, hrun⟩ := run_bind.mp hrun
  obtain rfl := run_insertVoid.mp hstore
  obtain ⟨_, _, hbind, hrun⟩ := run_bind.mp hrun
  obtain rfl := run_codegenVariable.mp hbind
  obtain ⟨rfl, rfl⟩ := run_pure.mp hrun
  obtain ⟨hst, hbelow, hshape, hsim⟩ := hexpr s value s₁ hvalue hs
    ⟨hbefore.functions, hbefore.currentFunction⟩
  -- The variable is not one of those that the initializer can see.
  have hne : ∀ v, v ∈ g₁.stored ∨ v ∈ g₁.values → v ≠ var.id := by
    rintro v hv rfl
    exact hv.elim hfresh.1 hfresh.2
  have hadd := declared_stretch hst.ready hshape.isVoid hne
    (.store value ⟨.pointer value.type, .slot s₁.func s₁.graph.allocas.length⟩ (some var.id))
  refine ⟨hst.trans hs.isOpen hadd, fun f j h => (nomatch h), ⟨rfl, fun _ => rfl⟩,
    hsim.bind (fun b _ e => some (Val.void, { e with vars := update e.vars var.id b })) hst hadd
      fun b => ?_⟩
  have hslot : s₁.SameCode (s₁.allocated value.type 1) := ⟨rfl, rfl, rfl⟩
  refine Simulates.instr hst.ready.isOpen hslot rfl ⟨rfl, rfl, rfl⟩ ?_
  intro x l k m e hfunc _ hk hl he hb
  have hx : x.slot ⟨.pointer value.type, .slot s₁.func s₁.graph.allocas.length⟩ =
      some s₁.graph.allocas.length := if_pos hfunc.symm
  obtain ⟨m', hexec, hblock, hpc, hagrees, hregs⟩ :=
    exec_store s₁.nextResult (some var.id) hl he (List.mem_cons_self)
      (if_pos rfl) hx hb
  exact ⟨m', hexec, hblock, hpc, hagrees, rfl, fun j _ => congrFun hregs j⟩

/-! ### Trees one after another -/

/-- The trees of a block. The value is that of the last one, and `result` without one. -/
def ImplementsBlock (c : EvalContext) (t : Codegen) (g : TreeScope) (run : Value → CodegenM Value)
    (d h : Bool) (g' : TreeScope) (eval : Val → Nat → EvalState → Option (Val × EvalState)) :
    Prop :=
  ∀ result s v s', run result s = .ok (v, s') → s.Ready g → s'.Before t →
    result.Below s.nextResult → result.Shape d →
      Stretch g s s' g' ∧ v.Below s'.nextResult ∧ v.Shape h ∧
        ∀ val, Simulates c (result.Fits val) s s' g' v.Fits (eval val)

/-- A block without trees is lowered to nothing and keeps the value that it was given. -/
theorem codegenBlock_nil {d : Bool} :
    ImplementsBlock c t g (codegenBlock E · []) d d g fun val _ e => some (val, e) := by
  intro result s v s' hrun hs _ hbelow hshape
  obtain ⟨rfl, rfl⟩ := run_pure.mp hrun
  have hsame : s.SameWork s := ⟨rfl, rfl, rfl, rfl, rfl⟩
  exact ⟨hsame.stretch hs, hbelow, hshape, fun val => .pure hsame.code fun _ _ _ hfits => hfits⟩

/-- A block is lowered tree by tree. The value of the first tree is dropped, unless it is
the last. -/
theorem codegenBlock_cons {a : Ast} {body : List Ast} {d h h' : Bool} (hE : Lowering cx E)
    {ev : Nat → EvalState → Option (Val × EvalState)}
    {evs : Val → Nat → EvalState → Option (Val × EvalState)}
    (hhead : Implements c t g (E a .value) h g₁ ev)
    (htail : ImplementsBlock c t g₁ (codegenBlock E · body) h h' g' evs) :
    ImplementsBlock c t g (codegenBlock E · (a :: body)) d h' g' (fun _ fuel e => do
      let (value, e) ← ev fuel e
      evs value fuel e) := by
  intro result s v s' hrun hs hbefore _ _
  obtain ⟨value, s₁, hvalue, hrest⟩ := run_bind.mp hrun
  have hbefore₁ := hbefore.of_steps (codegenBlock_steps hE _ _ _ _ _ hrest)
  obtain ⟨hst₁, hbelow₁, hshape₁, hsim₁⟩ := hhead s value s₁ hvalue hs hbefore₁
  obtain ⟨hst₂, hbelow₂, hshape₂, hsim₂⟩ :=
    htail value s₁ v s' hrest hst₁.ready hbefore hbelow₁ hshape₁
  refine ⟨hst₁.trans hs.isOpen hst₂, hbelow₂, hshape₂, fun val => ?_⟩
  exact (hsim₁.mono (fun _ _ _ => trivial) fun _ _ _ hfits => hfits).bind evs hst₁ hst₂ hsim₂

/-- The arguments of a call, in order. -/
def ImplementsArgs (c : EvalContext) (t : Codegen) (g : TreeScope) (run : CodegenM (List Value))
    (g' : TreeScope) (eval : Nat → EvalState → Option (List Val × EvalState)) : Prop :=
  ∀ s vs s', run s = .ok (vs, s') → s.Ready g → s'.Before t →
    Stretch g s s' g' ∧
      Simulates c Anything s s' g' (fun vals x regs => vs.mapM (x.eval regs) = some vals) eval

/-- No arguments are lowered to no values. -/
theorem codegenArgs_nil : ImplementsArgs c t g (codegenArgs E []) g fun _ e => some ([], e) := by
  intro s vs s' hrun hs _
  obtain ⟨rfl, rfl⟩ := run_pure.mp hrun
  have hsame : s.SameWork s := ⟨rfl, rfl, rfl, rfl, rfl⟩
  exact ⟨hsame.stretch hs, .pure hsame.code fun _ _ _ _ => rfl⟩

/-- Arguments are lowered one after another, from the left, as they are evaluated. -/
theorem codegenArgs_cons {a : Ast} {args : List Ast} (hE : Lowering cx E)
    {ev : Nat → EvalState → Option (Val × EvalState)}
    {evs : Nat → EvalState → Option (List Val × EvalState)}
    (hhead : Implements c t g (E a .value) true g₁ ev)
    (htail : ImplementsArgs c t g₁ (codegenArgs E args) g' evs) :
    ImplementsArgs c t g (codegenArgs E (a :: args)) g' (fun fuel e => do
      let (value, e) ← ev fuel e
      let (values, e) ← evs fuel e
      return (value :: values, e)) := by
  intro s vs s' hrun hs hbefore
  obtain ⟨value, s₁, hvalue, hrun⟩ := run_bind.mp hrun
  obtain ⟨values, s₂, hvalues, hrun⟩ := run_bind.mp hrun
  obtain ⟨rfl, rfl⟩ := run_pure.mp hrun
  have hbefore₁ := hbefore.of_steps (codegenArgs_steps hE _ _ _ _ hvalues)
  obtain ⟨hst₁, hbelow₁, -, hsim₁⟩ := hhead s value s₁ hvalue hs hbefore₁
  obtain ⟨hst₂, hsim₂⟩ := htail s₁ values s₂ hvalues hst₁.ready hbefore
  refine ⟨hst₁.trans hs.isOpen hst₂, hsim₁.bind (fun value fuel e => do
      let (values, e) ← evs fuel e
      return (value :: values, e)) hst₁ hst₂ fun b => ?_⟩
  -- the first value stays while the others are computed
  have hkeep : RegsProp.Below s₁.nextResult (value.Fits b) := by
    intro x regs regs' hregs hfits
    exact (eval_congr hbelow₁ hregs).trans hfits
  refine Simulates.map (b :: ·) ((hsim₂.frame hkeep).mono (fun _ _ h => ⟨trivial, h⟩)
    fun _ _ _ h => h) ?_
  rintro vals x regs ⟨hvals, hb⟩
  show (value :: values).mapM (x.eval regs) = _
  rw [List.mapM_cons, hb, hvals]
  rfl

/-! ### Calls -/

omit E in
/-- Changes of the module leave the code and the variables of the function alone. -/
theorem ModuleSteps.sameWork (h : ModuleSteps cx s s') : s.SameWork s' := by
  induction h with
  | refl => exact ⟨rfl, rfl, rfl, rfl, rfl⟩
  | tail _ h ih =>
      cases h with
      | type h =>
          cases h with
          | reuse | create | setBody | globals =>
              exact ⟨ih.graph, ih.insert, ih.results, ih.vars, ih.func⟩
      | external | reuse | declare | pend =>
          exact ⟨ih.graph, ih.insert, ih.results, ih.vars, ih.func⟩

/-- The value of a function is a reference to it, with its type, and reading it changes
nothing. -/
theorem run_functionValue {f : FunctionId} {v : Value} (h : functionValue f s = .ok (v, s')) :
    ∃ fun_, s.functions[f]? = some fun_ ∧ v = ⟨fun_.type, .function f⟩ ∧ s' = s := by
  obtain ⟨_, _, hget, h⟩ := run_bind.mp h
  obtain ⟨rfl, rfl⟩ := run_get.mp hget
  obtain ⟨fun_, _, hsome, h⟩ := run_bind.mp h
  obtain ⟨hfun, rfl⟩ := run_assertSome.mp hsome
  obtain ⟨rfl, rfl⟩ := run_pure.mp h
  exact ⟨fun_, hfun, rfl, rfl⟩

/-- A function keeps its name and its place. -/
theorem getFunction_mono {name : Str} {f : FunctionId} (h : s.functions <+: t.functions)
    (hf : s.getFunction name = some f) : t.getFunction name = some f := by
  obtain ⟨rest, hrest⟩ := h
  unfold Codegen.getFunction at hf ⊢
  rw [← hrest, List.findIdx?_append, hf]
  rfl

/-- A function that was asked for is found under its name from then on. -/
theorem codegenFunctionDecl_stable {decl : FnDecl} {id : Int} {type : Ty} {tyargs : List Ty}
    {v : Value} (h : codegenFunctionDecl cx decl id type tyargs s = .ok (v, s')) :
    ∃ f fun_, s'.functions[f]? = some fun_ ∧ v = ⟨fun_.type, .function f⟩ ∧
      ∀ t, s'.Before t → ∃ t', codegenFunctionDecl cx decl id type tyargs t = .ok (v, t') := by
  have hmodule : ModuleSteps cx s s' := codegenFunctionDecl_steps decl id type tyargs s v s' h
  have hsteps := hmodule.steps.frame
  obtain ⟨_, _, hget, h⟩ := run_bind.mp h
  obtain ⟨rfl, rfl⟩ := run_get.mp hget
  obtain ⟨pname, _, hparent, h⟩ := run_bind.mp h
  obtain rfl := (parentName_eq _ _ _).eq hparent
  obtain ⟨name, _, hlift, h⟩ := run_bind.mp h
  obtain ⟨hname, rfl⟩ := run_lift.mp hlift
  obtain ⟨_, _, hget, h⟩ := run_bind.mp h
  obtain ⟨rfl, rfl⟩ := run_get.mp hget
  -- what a later request comes to, when the function is there
  have hagain : ∀ {f fun_}, s'.getFunction name = some f → s'.functions[f]? = some fun_ →
      ∀ t, s'.Before t →
        ∃ t', codegenFunctionDecl cx decl id type tyargs t =
          .ok (⟨fun_.type, .function f⟩, t') := by
    intro f fun_ hf hfun t ht
    have hcurrent : t.currentFunction = s.currentFunction :=
      ht.currentFunction.symm.trans hsteps.currentFunction
    let parent := getFunctionInstance t.currentFunction (cx.store.parent decl.node.id)
    have hpname : parentName cx decl parent t = .ok (pname, t) := by
      show parentName cx decl (getFunctionInstance t.currentFunction _) t = _
      rw [hcurrent]
      exact parentName_mono (hsteps.functions.trans ht.functions) hparent
    have hmangle : mangleFn (getGenericInstance t.currentFunction) cx.fuel decl.var.name id type
        tyargs pname = .ok name := by
      rw [hcurrent]
      exact hname
    have hlater : t.functions[f]? = some fun_ := by
      obtain ⟨hlt, rfl⟩ := List.getElem?_eq_some_iff.mp hfun
      exact List.prefix_iff_getElem?.mp ht.functions f hlt
    let key : FnKey := ⟨decl.node.id, tyargs.map t.currentFunction.concrete,
      parent.head?.map InstanceFrame.value⟩
    let request : FnRequest := ⟨decl, id, type, tyargs, t.currentFunction, parent,
      cx.store.moduleName decl.node.id, pname, key, name, f⟩
    refine ⟨{ t with requests := t.requests ++ [request] }, run_bind.mpr ⟨_, _,
      run_get.mpr ⟨rfl, rfl⟩, run_bind.mpr ⟨_, _, hpname, run_bind.mpr ⟨_, _,
        run_lift.mpr ⟨hmangle, rfl⟩, run_bind.mpr ⟨_, _, run_get.mpr ⟨rfl, rfl⟩, ?_⟩⟩⟩⟩⟩
    rw [getFunction_mono ht.functions hf]
    exact run_bind.mpr ⟨(), _, run_modify.mpr rfl, run_bind.mpr ⟨_, _, run_get.mpr ⟨rfl, rfl⟩,
      run_bind.mpr ⟨_, _, run_assertSome.mpr ⟨hlater, rfl⟩, run_pure.mpr ⟨rfl, rfl⟩⟩⟩⟩
  cases hf : s.getFunction name with
  | some f =>
      rw [hf] at h
      obtain ⟨_, _, hrequest, h⟩ := run_bind.mp h
      obtain rfl := run_modify.mp hrequest
      obtain ⟨fun_, hfun, rfl, rfl⟩ := run_functionValue h
      exact ⟨f, fun_, hfun, rfl, hagain hf hfun⟩
  | none =>
      rw [hf] at h
      obtain ⟨ltype, s₁, htype, h⟩ := run_bind.mp h
      obtain ⟨hfunctions, -⟩ := (codegenType_steps _ _ _ _ _ htype).functions
      obtain ⟨element, _, helement, h⟩ := run_bind.mp h
      obtain rfl := (elementType_eq _).eq helement
      cases element with
      | function ret params =>
          obtain ⟨f, _, hcreate, h⟩ := run_bind.mp h
          simp only [createFunction, run_bind, run_get, run_set, run_pure] at hcreate
          obtain ⟨_, _, ⟨rfl, rfl⟩, _, _, rfl, rfl, rfl⟩ := hcreate
          obtain ⟨_, _, hrequest, h⟩ := run_bind.mp h
          obtain rfl := run_modify.mp hrequest
          obtain ⟨_, _, hassert, h⟩ := run_bind.mp h
          obtain ⟨-, rfl⟩ := run_assert.mp hassert
          obtain ⟨types, _, hfinal, h⟩ := run_bind.mp h
          obtain ⟨-, rfl⟩ := run_mapM_lift.mp hfinal
          obtain ⟨_, _, hpend, h⟩ := run_bind.mp h
          obtain rfl := run_modify.mp hpend
          obtain ⟨fun_, hfun, rfl, rfl⟩ := run_functionValue h
          refine ⟨s₁.functions.length, fun_, hfun, rfl, hagain ?_ hfun⟩
          have hnone : s₁.functions.findIdx? (fun f => f.name = name) = none := by
            rw [hfunctions]
            exact hf
          show (s₁.functions ++ [_]).findIdx? _ = _
          rw [List.findIdx?_append, hnone]
          simp
      | _ => exact (run_throw.mp h).elim

/-- The name of a function is lowered to the function that it leads to. -/
theorem run_codegenIdent_function {n : Node} {var : Variable} {kind : CodegenKind} {v : Value}
    (htargets : cx.store.targets n.id = [var]) (hkind : var.kind = .function)
    (h : codegenIdent cx n kind s = .ok (v, s')) (ht : s'.Before t) :
    s.SameWork s' ∧ ∃ f fun_, t.callee cx n.id = some f ∧ t.functions[f]? = some fun_ ∧
      v = ⟨fun_.type, .function f⟩ := by
  unfold codegenIdent at h
  rw [htargets] at h
  simp only [hkind] at h
  obtain ⟨decl, _, hsome, h⟩ := run_bind.mp h
  obtain ⟨hdecl, rfl⟩ := run_assertSome.mp hsome
  obtain ⟨_, _, hassert, h⟩ := run_bind.mp h
  obtain ⟨hid, rfl⟩ := run_assert.mp hassert
  obtain ⟨type, _, hnode, h⟩ := run_bind.mp h
  obtain ⟨htype, rfl⟩ := run_assertSome.mp hnode
  have hsteps : ModuleSteps cx s s' := codegenFunctionDecl_steps _ _ _ _ _ _ _ h
  obtain ⟨f, fun_, hfun, rfl, hagain⟩ := codegenFunctionDecl_stable h
  -- The same declaration asked for again in the last state gives the same function.
  obtain ⟨t', hagain⟩ := hagain t ht
  refine ⟨hsteps.sameWork, f, fun_, ?_, ?_, rfl⟩
  · have hrun : codegenIdent cx { id := n.id } .value t = .ok (⟨fun_.type, .function f⟩, t') := by
      unfold codegenIdent
      simp only [htargets, hkind]
      exact run_bind.mpr ⟨_, _, run_assertSome.mpr ⟨hdecl, rfl⟩, run_bind.mpr ⟨(), _,
        run_assert.mpr ⟨hid, rfl⟩, run_bind.mpr ⟨_, _, run_assertSome.mpr ⟨htype, rfl⟩, hagain⟩⟩⟩
    unfold Codegen.callee
    rw [hrun]
  · obtain ⟨hlt, rfl⟩ := List.getElem?_eq_some_iff.mp hfun
    exact List.prefix_iff_getElem?.mp ht.functions f hlt

/-- A call: the function is looked up, then the arguments are computed. -/
theorem codegenCall_implements {world : World} {m : Node} {name : Str} {args : List Ast}
    {f : FunctionId} (hE : Lowering cx E)
    (names : (t.evalContext cx world).Names m f args.length)
    (hident : ∀ s v s', E (.ident m name) .value s = .ok (v, s') →
      codegenIdent cx m .value s = .ok (v, s'))
    {evs : Nat → EvalState → Option (List Val × EvalState)}
    (hargs : ImplementsArgs (t.evalContext cx world) t g (codegenArgs E args) g' evs) :
    Implements (t.evalContext cx world) t g (codegenCall cx E (.ident m name) args) (t.returns f) g'
      (fun fuel e => do
        let (args, e) ← evs fuel e
        return (t.evalContext cx world).call e f args) := by
  intro s v s' hrun hs hbefore
  obtain ⟨callee, s₁, hcallee, hrun⟩ := run_bind.mp hrun
  obtain ⟨type, _, hnode, hrun⟩ := run_bind.mp hrun
  obtain ⟨htype, rfl⟩ := run_assertSome.mp hnode
  obtain ⟨types, ret, htype', hlength⟩ := names.type
  obtain rfl := Option.some.inj (htype'.symm.trans htype)
  obtain ⟨values, s₂, hvalues, hrun⟩ := run_bind.mp hrun
  have hargsteps := codegenCallArgs_steps hE _ _ _ _ _ _ hvalues
  obtain ⟨_, _, hassert, hvalues⟩ := run_bind.mp hvalues
  obtain ⟨-, rfl⟩ := run_assert.mp hassert
  obtain ⟨result, s₃, hcall, hrun⟩ := run_bind.mp hrun
  obtain ⟨rfl, rfl⟩ := run_pure.mp hrun
  have hcallsteps : Steps cx s₂ s₃ := createCall_steps _ _ _ _ _ hcall
  have hbefore₂ := hbefore.of_steps hcallsteps
  have hbefore₁ := hbefore₂.of_steps hargsteps
  obtain ⟨var, htargets, hkind⟩ := names.targets
  obtain ⟨hwork, f', fun_, hf', hfun, rfl⟩ :=
    run_codegenIdent_function htargets hkind (hident _ _ _ hcallee) hbefore₁
  obtain rfl := Option.some.inj (names.callee.symm.trans hf')
  -- the call itself
  obtain ⟨element, _, helement, hcall⟩ := run_bind.mp hcall
  obtain ⟨rfl, rfl⟩ := run_pure.mp helement
  obtain ⟨rfl, rfl⟩ := run_insert.mp hcall
  have hreturns : t.returns f = !fun_.ret.isVoid := by
    unfold Codegen.returns
    rw [hfun]
  have hst₁ := hwork.stretch hs
  obtain ⟨hst₂, hsim₂⟩ := hargs s₁ values s₂ hvalues hst₁.ready hbefore₂
  have hst₃ := hst₂.ready.inserted (.call ⟨fun_.type, .function f⟩ values)
  refine ⟨hst₁.trans hs.isOpen (hst₂.trans hst₁.ready.isOpen hst₃), ?_, ?_,
    Simulates.of_work hwork (hsim₂.bind
      (fun vals _ e => some (((t.evalContext cx world).call e f vals).1,
        ((t.evalContext cx world).call e f vals).2)) hst₂ hst₃ fun vals => ?_)⟩
  · intro f j h
    split at h
    · cases h
    · cases h
      exact Nat.lt_succ_self _
  · rw [hreturns]
    cases hvoid : fun_.ret.isVoid with
    | true => exact ⟨rfl, fun _ => rfl⟩
    | false => exact ⟨hvoid, nofun⟩
  · refine Simulates.instr hst₂.ready.isOpen ⟨rfl, rfl, rfl⟩ rfl ⟨rfl, rfl, rfl⟩ ?_
    intro x l k m e hfunc hworld hk hl he hvals
    let instr : Instr := ⟨s₂.nextResult, .call ⟨fun_.type, .function f⟩ values⟩
    let calls := m.calls ++ [⟨f, vals⟩]
    refine ⟨{ ExecContext.result m instr (x.world calls) with calls := calls }, ?_, rfl, rfl,
      ⟨he.stored, fun v hv value hvar => ?_, congrArg (· ++ [⟨f, vals⟩]) he.calls⟩, ?_,
      result_regs (Nat.le_refl _)⟩
    · show (values.mapM (x.eval m.regs)).bind _ = _
      rw [hvals]
      rfl
    · refine (eval_congr (hl.below v hv value hvar) (result_regs hk)).trans ?_
      exact he.values v hv value hvar
    · have hanswer : x.world calls = world (e.calls ++ [⟨f, vals⟩]) := by
        rw [hworld, ← he.calls]
        rfl
      show Value.Fits _ (if t.returns f then world (e.calls ++ [⟨f, vals⟩]) else .void) x _
      rw [hreturns, ← hanswer]
      cases hvoid : fun_.ret.isVoid with
      | true => exact rfl
      | false => exact result_fits hfunc

end Nodes

/-! ### Trees -/

/-- What a run implements is known up to what the evaluation returns for every fuel and
state. -/
theorem Implements.congr {run : CodegenM Value} {h : Bool}
    {eval eval' : Nat → EvalState → Option (Val × EvalState)}
    (himp : Implements c t g run h g' eval) (heq : ∀ fuel e, eval fuel e = eval' fuel e) :
    Implements c t g run h g' eval' := by
  obtain rfl : eval = eval' := funext fun fuel => funext fun e => heq fuel e
  exact himp

section Trees

variable {world : World} {fuel : Nat}

/-- The trees of a block are lowered as each of them is. -/
theorem codegenBlock_implements {body : List Ast} {d h : Bool}
    (ih : ∀ {g root h g'}, (t.evalContext cx world).Structured g root h g' →
      Implements (t.evalContext cx world) t g (codegenExpr cx fuel root .value) h g'
        fun n e => (t.evalContext cx world).eval n root e)
    (hbody : (t.evalContext cx world).StructuredBlock g d body h g') :
    ImplementsBlock (t.evalContext cx world) t g (codegenBlock (codegenExpr cx fuel) · body) d h g'
      fun val n e => (t.evalContext cx world).evalBlock n val body e := by
  have hE : Lowering cx (codegenExpr cx fuel) := fun _ _ => codegenExpr_steps _ _ _
  induction body generalizing g d with
  | nil =>
      cases hbody
      exact codegenBlock_nil
  | cons a body ihbody =>
      cases hbody with
      | cons head tail =>
          exact codegenBlock_cons hE (ih head) (ihbody tail)

/-- And so are the arguments of a call. -/
theorem codegenArgs_implements {args : List Ast}
    (ih : ∀ {g root h g'}, (t.evalContext cx world).Structured g root h g' →
      Implements (t.evalContext cx world) t g (codegenExpr cx fuel root .value) h g'
        fun n e => (t.evalContext cx world).eval n root e)
    (hargs : (t.evalContext cx world).StructuredArgs g args g') :
    ImplementsArgs (t.evalContext cx world) t g (codegenArgs (codegenExpr cx fuel) args) g'
      fun n e => (t.evalContext cx world).evalArgs n args e := by
  have hE : Lowering cx (codegenExpr cx fuel) := fun _ _ => codegenExpr_steps _ _ _
  induction args generalizing g with
  | nil =>
      cases hargs
      exact codegenArgs_nil
  | cons a args ihargs =>
      cases hargs with
      | cons head tail =>
          exact codegenArgs_cons hE (ih head) (ihargs tail)

/-- Lowering a name is looking it up, whatever number of nested calls is left. -/
theorem run_codegenExpr_ident {n : Node} {name : Str} {kind : CodegenKind} {v : Value}
    (h : codegenExpr cx fuel (.ident n name) kind s = .ok (v, s')) :
    codegenIdent cx n kind s = .ok (v, s') := by
  cases fuel with
  | zero => exact (run_throw.mp h).elim
  | succ fuel => exact h

/-- The code of a tree does what the tree means. The induction is on the number of nested
calls, with one case for each kind of node. -/
theorem codegenExpr_implements {root : Ast} {h : Bool}
    (htree : (t.evalContext cx world).Structured g root h g') :
    Implements (t.evalContext cx world) t g (codegenExpr cx fuel root .value) h g'
      fun n e => (t.evalContext cx world).eval n root e := by
  induction fuel generalizing g root h g' with
  -- Without fuel there is no code.
  | zero =>
      intro s v s' hrun
      exact (run_throw.mp hrun).elim
  | succ fuel ih =>
      -- One case for each form of the structured subset.
      have hE : Lowering cx (codegenExpr cx fuel) := fun _ _ => codegenExpr_steps _ _ _
      cases htree with
      | literalVoid =>
          exact implements_constant (fun _ _ => nofun) ⟨rfl, fun _ => rfl⟩ fun _ _ => rfl
      | literalBool => exact implements_bool _
      | literalInteger => exact implements_integer _
      | ident reads =>
          refine (codegenIdent_implements reads).congr fun fuel e => ?_
          have htargets : (t.evalContext cx world).store.targets _ = _ := reads.targets
          simp only [EvalContext.eval, htargets]
      | block body =>
          intro s v s' hrun hs hbefore
          obtain ⟨hst, hbelow, hshape, hsim⟩ := codegenBlock_implements ih body codegenVoid s v s'
            hrun hs hbefore (fun _ _ => nofun) ⟨rfl, fun _ => rfl⟩
          exact ⟨hst, hbelow, hshape, (hsim .void).mono (fun _ _ _ => rfl) fun _ _ _ hfits => hfits⟩
      | call names args =>
          refine (codegenCall_implements hE names (fun _ _ _ => run_codegenExpr_ident)
            (codegenArgs_implements ih args)).congr fun fuel e => ?_
          have hcallee : (t.evalContext cx world).callee _ = _ := names.callee
          simp only [EvalContext.eval, hcallee]
          rfl
      | not expr =>
          have hnot : Implements _ t g (codegenUnary cx (codegenExpr cx fuel) .not _ .value) true g'
              _ := codegenNot_implements (ih expr)
          exact hnot
      | binary op left right =>
          rcases op with rfl | rfl
          · exact codegenBinaryAndOr_implements hE (ih left) (ih right)
          · refine (codegenBinaryAndOr_implements hE (ih left) (ih right)).congr fun n e => ?_
            show ((_ : Option (Val × EvalState)) >>= _) = _ >>= _
            congr 1
            funext ⟨value, e₁⟩
            cases htrue : value.isTrue with
            | true => simp [htrue]
            | false => simp [htrue]
      | assign reads kind right =>
          refine (codegenAssign_implements reads kind (fun _ _ _ => run_codegenExpr_ident)
            (ih right)).congr fun fuel e => ?_
          have htargets : (t.evalContext cx world).store.targets _ = _ := reads.targets
          simp only [EvalContext.eval, htargets]
      | varDecl expr fresh => exact codegenVarDecl_implements (ih expr) fresh
      | ifThen cond thenbody => exact codegenIfThen_implements hE (ih cond) (ih thenbody)
      | ifElse cond thenbody elsebody =>
          exact codegenIfElse_implements hE (ih cond) (ih thenbody) (ih elsebody)
      | «while» expr body => exact codegenWhile_implements hE (ih expr) (ih body)

/-- At the insert point there is no more code. -/
theorem halts_at {x : ExecContext} {m : ExecState} (hs : s.Open) (hgraph : x.graph = s.graph)
    (hm : s.At m) : x.step m = none := by
  unfold ExecContext.step
  rw [hgraph, hm.block, hm.pc]
  simp only [List.getElem?_eq_none (Nat.le_refl _)]
  rw [hs.unterminated]
  rfl

/-- The end of a lowering covers its variables. -/
theorem Carries.covers {x : ExecContext} (hs : s.Ready g) (h : Carries g s s' g') :
    Layout.Covers ⟨g', s'.vars⟩ x s.nextResult s' g' where
  stored v hv := ⟨hv, rfl⟩
  values v hv := ⟨hv, rfl⟩
  apart := by
    intro v hv w hw value value' n hvalue hvalue' hn hn'
    obtain ⟨type, i, hvar, -⟩ := h.ready.stored v hv
    obtain ⟨type', i', hvar', -⟩ := h.ready.stored w hw
    obtain rfl := Option.some.inj (hvar.symm.trans hvalue)
    obtain rfl := Option.some.inj (hvar'.symm.trans hvalue')
    -- A slot is one of this function, so equal indices are equal slots.
    have hslot : ∀ {a}, (if s'.func = x.func then some a else none) = some n → a = n := by
      intro a ha
      split at ha
      · exact Option.some.inj ha
      · cases ha
    refine h.ready.apart v hv w hw ?_
    unfold Codegen.slotOf
    rw [hvar, hvar']
    show (if s'.func = s'.func then some i else none) = if s'.func = s'.func then some i' else none
    rw [hslot hn, hslot hn']
  below := by
    intro v hv value hvalue f i hreg
    have hv₀ : v ∈ g.values := h.values.1 ▸ hv
    obtain ⟨value', hvar, -, hown⟩ := hs.values v hv₀
    obtain rfl := Option.some.inj (hvar.symm.trans ((h.values.2 v hv₀).symm.trans hvalue))
    -- A value is an argument, or a result of before.
    rcases hown with ⟨j, harg⟩ | ⟨j, hj, hreg'⟩
    · rw [harg] at hreg
      cases hreg
    · rw [hreg'] at hreg
      cases hreg
      exact hj

/-- The code that a tree is lowered to refines the evaluation of the tree. From the insert
point before the tree, and with any values of the variables, it comes to the insert point
after the tree exactly when the evaluation ends, and it has then made the same calls, and
left the same values in the variables and in the value of the tree. -/
theorem codegenExpr_refines {root : Ast} {h : Bool} {v : Value} {args : Nat → Val}
    {m : ExecState} {e : EvalState}
    (hrun : codegenExpr cx fuel root .value s = .ok (v, s')) (hs : s.Ready g)
    (htree : (s'.evalContext cx world).Structured g root h g') (hm : s.At m)
    (he : ExecContext.Agrees ⟨s.func, s'.graph, args, world⟩ ⟨g', s'.vars⟩ m e) :
    let x : ExecContext := ⟨s.func, s'.graph, args, world⟩
    let eval := fun rounds => (s'.evalContext cx world).eval rounds root e
    ((∃ m', Star x.step m m' ∧ s'.At m') ↔ ∃ rounds, (eval rounds).isSome) ∧
      ∀ rounds value e' m', eval rounds = some (value, e') → Star x.step m m' → s'.At m' →
        x.Agrees ⟨g', s'.vars⟩ m' e' ∧ v.Fits value x m'.regs := by
  obtain ⟨hst, -, -, hsim⟩ := codegenExpr_implements htree s v s' hrun hs ⟨List.prefix_rfl, rfl⟩
  let x : ExecContext := ⟨s.func, s'.graph, args, world⟩
  -- The whole graph is there while this part of it runs.
  have hcode : Contains s'.graph ∅ s ∅ s' := fun _ _ _ _ => ⟨rfl, List.prefix_rfl, fun _ => rfl⟩
  -- Whoever has reached the end has halted, so the rounds and the steps determine each other.
  have hmatch : Matches x.step m (fun rounds => (s'.evalContext cx world).eval rounds root e) s'.At
      fun r m' => s'.At m' ∧ x.Agrees ⟨g', s'.vars⟩ m' r.2 ∧ v.Fits r.1 x m'.regs ∧
        ∀ i < s.nextResult, m'.regs i = m.regs i :=
    { follows := fun rounds => hsim x ⟨g', s'.vars⟩ rfl rfl hcode s.nextResult (Nat.le_refl _)
        (hst.toCarries.covers hs) rounds m e hm he trivial
      fits_done := fun _ _ hfits => hfits.1
      done_halts := fun m' hm' => halts_at hst.ready.isOpen rfl hm' }
  refine ⟨hmatch.reaches_iff, fun rounds value e' m' heval hstar hm' => ?_⟩
  obtain ⟨-, he', hfits, -⟩ := hmatch.fits_of_star heval hstar hm'
  exact ⟨he', hfits⟩

end Trees

/-! ### A loop that calls a function once -/

namespace FlagLoop

def flag : Variable := ⟨0, .variable, [], {}, none⟩

def touch : Variable := ⟨1, .function, [], {}, some 7⟩

/-- The lines `touch()` and `flag = false`. -/
def body : List Ast :=
  [.call ⟨6, {}⟩ (.ident ⟨8, {}⟩ []) [],
    .assign ⟨9, {}⟩ (.ident ⟨4, {}⟩ []) (.literalBool ⟨10, {}⟩ false)]

/-- `var flag = true`, then the body for as long as `flag` holds, then `flag`. -/
def root : Ast :=
  .block ⟨0, {}⟩
    [.varDecl ⟨1, {}⟩ flag (.literalBool ⟨2, {}⟩ true),
      .while ⟨3, {}⟩ (.ident ⟨4, {}⟩ []) (.block ⟨5, {}⟩ body),
      .ident ⟨4, {}⟩ []]

def context : CodegenContext where
  program := { fnDecl := fun _ => some ⟨⟨7, {}⟩, touch, [], [], {}, none⟩ }
  store :=
    { targets := fun n => if n = 8 then [touch] else [flag]
      nodeType := fun _ => some (.function [] .void false) }
  fuel := 3
  parseAssemblyInto := fun functions _ => .ok functions

/-- An empty function. -/
def start : Codegen := { graph := { size := 1 } }

/-- The tree is lowered without an error. -/
theorem root_isOk : (codegenExpr context 5 root .value start).isOk = true := by decide +kernel

/-- The state after the tree was lowered. -/
def finish : Codegen :=
  match codegenExpr context 5 root .value start with
  | .ok (_, s) => s
  | .error _ => start

/-- The lowering ends in the state that was named `finish`. -/
theorem root_lowered : ∃ v, codegenExpr context 5 root .value start = .ok (v, finish) := by
  have hok := root_isOk
  unfold finish
  split
  case h_1 v s hrun => exact ⟨v, hrun⟩
  case h_2 e hrun =>
    rw [hrun] at hok
    cases hok

/-- The lowering starts in an open block, without a variable in scope. -/
theorem start_ready : start.Ready ⟨[], []⟩ where
  isOpen := ⟨Nat.one_pos, rfl, fun _ _ => rfl⟩
  stored _ h := nomatch h
  values _ h := nomatch h
  apart _ h := nomatch h

/-- All identifiers but the one that is called refer to the variable. -/
theorem reads_flag (n : NodeId) (h : n ≠ 8) :
    context.store.Reads ⟨[flag.id], []⟩ ⟨n, {}⟩ flag where
  targets := if_neg h
  stored _ := List.mem_singleton.mpr rfl
  values h := h.elim nofun nofun
  kind := nofun

/-- The call goes to the first function of the module. -/
theorem callee_touch : finish.callee context 8 = some 0 := by decide +kernel

/-- The tree is structured: its loop and its call are of the forms that the evaluation
covers. -/
theorem root_structured {s : Codegen} {world : World} (hcallee : s.callee context 8 = some 0) :
    (s.evalContext context world).Structured ⟨[], []⟩ root true ⟨[flag.id], []⟩ := by
  have hflag : (s.evalContext context world).Structured ⟨[flag.id], []⟩ (.ident ⟨4, {}⟩ []) true
      ⟨[flag.id], []⟩ := .ident (reads_flag 4 (by decide))
  have hbody : (s.evalContext context world).StructuredBlock ⟨[flag.id], []⟩ false body false
      ⟨[flag.id], []⟩ :=
    .cons (.call (f := 0) ⟨hcallee, ⟨touch, rfl, rfl⟩, ⟨[], .void, rfl, rfl⟩⟩ (.nil _))
      (.cons (.assign (reads_flag 4 (by decide)) rfl (.literalBool _ _ _)) (.nil _ _))
  exact .block (.cons (.varDecl (.literalBool _ _ _) ⟨nofun, nofun⟩)
    (.cons (.while hflag (.block hbody)) (.cons hflag (.nil _ _))))

/-- The evaluation ends, as the second pass finds the variable false. -/
theorem root_isSome :
    ((finish.evalContext context fun _ => .void).eval 2 root ⟨fun _ => .void, []⟩).isSome := by
  decide +kernel

/-- The code comes to its end: it calls the function, and the second round is the last. -/
theorem root_reaches :
    let x : ExecContext := ⟨0, finish.graph, fun _ => .void, fun _ => .void⟩
    ∃ m', Star x.step ⟨0, 0, fun _ => .void, fun _ => .void, []⟩ m' ∧ finish.At m' := by
  obtain ⟨v, hrun⟩ := root_lowered
  exact (codegenExpr_refines (e := ⟨fun _ => .void, []⟩) hrun start_ready
    (root_structured callee_touch) ⟨rfl, rfl⟩
    ⟨fun _ _ _ _ _ _ => rfl, fun _ h => (nomatch h), rfl⟩).1.mpr ⟨2, root_isSome⟩

end FlagLoop

end Aike
