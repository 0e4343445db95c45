import Aike.Proofs.Codegen.Monad

/-!
# `Aike.Proofs.Codegen.Builder`: what the steps of the builder do

One lemma for each operation that code is built with: the result, and the state
after it. The operations that give an instruction a result look its type up
first, so a run of theirs is a run of `insert` with some type.
-/

set_option autoImplicit false

namespace Aike

variable {s s' : Codegen}

instance : Carried (@Eq Codegen) where
  refl _ := rfl
  trans := Eq.trans

/-- What a step that changes nothing leaves. -/
theorem Ensures.eq {α : Type} {m : CodegenM α} {a : α} (h : Ensures Eq m)
    (hm : m s = .ok (a, s')) : s = s' := h s a s' hm

/-! ### Looking things up -/

/-- The type behind a pointer or an array is looked up without a change of the state. -/
theorem elementType_eq (type : LType) : Ensures Eq (elementType type) := by
  unfold elementType
  split
  · exact .pure _
  · exact .throw _

/-- The fields of a struct type are looked up, a named one in the module. -/
theorem structFields_eq (type : LType) : Ensures Eq (structFields type) := by
  unfold structFields
  split
  · exact .pure _
  · exact .bind_get fun _ => .bind (.assertSome _) fun _ => .assertSome _
  · exact .throw _

/-- A field of a struct type is looked up. -/
theorem fieldType_eq (type : LType) (index : Nat) : Ensures Eq (fieldType type index) :=
  .bind (structFields_eq type) fun _ => .assertSome _

/-- The type of a node is what the type checker wrote on it. -/
theorem nodeType_eq (cx : CodegenContext) (n : Node) : Ensures Eq (nodeType cx n) := .assertSome _

/-- A function as a value is looked up in the module. -/
theorem functionValue_eq (f : FunctionId) : Ensures Eq (functionValue f) :=
  .bind_get fun _ => .bind (.assertSome _) fun _ => .pure _

/-- The arguments of a function are looked up in the module. -/
theorem getFunctionArguments_eq (f : FunctionId) : Ensures Eq (getFunctionArguments f) :=
  .bind_get fun _ => .bind (.assertSome _) fun _ => .pure _

/-- The name of what a function is declared in is looked up: a function of the module, or
the name of the module. -/
theorem parentName_eq (cx : CodegenContext) (decl : FnDecl) (parent : FunctionInstance) :
    Ensures Eq (parentName cx decl parent) := by
  unfold parentName
  split
  · exact .bind_get fun _ => .bind (.assertSome _) fun _ => .pure _
  · split
    · exact .pure _
    · exact .pure _

/-! ### Blocks and instructions -/

/-- A new block gets the next number. -/
theorem run_createBlock {b : BlockId} :
    createBlock s = .ok (b, s') ↔
      s.graph.size = b ∧ { s with graph := { s.graph with size := s.graph.size + 1 } } = s' := by
  simp only [createBlock, run_bind, run_get, run_set, run_pure]
  constructor
  · rintro ⟨_, _, ⟨rfl, rfl⟩, _, _, rfl, rfl, rfl⟩
    exact ⟨rfl, rfl⟩
  · rintro ⟨rfl, rfl⟩
    exact ⟨_, _, ⟨rfl, rfl⟩, (), _, rfl, rfl, rfl⟩

/-- The current block is the result. -/
theorem run_getInsertBlock {b : BlockId} :
    getInsertBlock s = .ok (b, s') ↔ s.insertBlock = b ∧ s = s' := by
  simp only [getInsertBlock, run_bind, run_get, run_pure]
  constructor
  · rintro ⟨_, _, ⟨rfl, rfl⟩, rfl, rfl⟩
    exact ⟨rfl, rfl⟩
  · rintro ⟨rfl, rfl⟩
    exact ⟨_, _, ⟨rfl, rfl⟩, rfl, rfl⟩

/-- The current block is set. -/
theorem run_setInsertPoint {b : BlockId} {a : Unit} :
    setInsertPoint b s = .ok (a, s') ↔ { s with insertBlock := b } = s' := run_modify

/-- The state after an instruction was added. -/
def Codegen.inserted (s : Codegen) (op : Op) : Codegen :=
  { s.modifyBlock s.insertBlock fun b =>
      { b with instrs := b.instrs ++ [⟨s.nextResult, op⟩] } with nextResult := s.nextResult + 1 }

/-- An instruction is added to the current block, and its result is the next register. -/
theorem run_insert {op : Op} {type : LType} {v : Value} :
    insert op type s = .ok (v, s') ↔ ⟨type, .reg s.func s.nextResult⟩ = v ∧ s.inserted op = s' := by
  simp only [insert, run_bind, run_get, run_set, run_pure]
  constructor
  · rintro ⟨_, _, ⟨rfl, rfl⟩, _, _, rfl, rfl, rfl⟩
    exact ⟨rfl, rfl⟩
  · rintro ⟨rfl, rfl⟩
    exact ⟨_, _, ⟨rfl, rfl⟩, (), _, rfl, rfl, rfl⟩

/-- An instruction without a result is added to the current block. -/
theorem run_insertVoid {op : Op} {a : Unit} :
    insertVoid op s = .ok (a, s') ↔ s.inserted op = s' := by
  simp only [insertVoid, run_bind, run_insert, run_pure]
  constructor
  · rintro ⟨_, _, ⟨-, rfl⟩, -, rfl⟩
    rfl
  · rintro rfl
    exact ⟨_, _, ⟨rfl, rfl⟩, trivial, rfl⟩

/-- The state after the insert block was ended. -/
def Codegen.terminated (s : Codegen) (t : Terminator) : Codegen :=
  s.modifyBlock s.insertBlock fun b => { b with terminator := some t }

/-- The current block gets its end. -/
theorem run_terminate {t : Terminator} {a : Unit} :
    terminate t s = .ok (a, s') ↔ s.terminated t = s' := run_modify

/-- The state after a PHI node was added. -/
def Codegen.phiAdded (s : Codegen) (type : LType) (incoming : List (Value × BlockId)) : Codegen :=
  { s.modifyBlock s.insertBlock fun b =>
      { b with phis := b.phis ++ [⟨s.nextResult, type, incoming⟩] } with
    nextResult := s.nextResult + 1 }

/-- A PHI is added to the current block, and its result is the next register. -/
theorem run_createPHI {type : LType} {incoming : List (Value × BlockId)} {v : Value} :
    createPHI type incoming s = .ok (v, s') ↔
      ⟨type, .reg s.func s.nextResult⟩ = v ∧ s.phiAdded type incoming = s' := by
  simp only [createPHI, run_bind, run_get, run_set, run_pure]
  constructor
  · rintro ⟨_, _, ⟨rfl, rfl⟩, _, _, rfl, rfl, rfl⟩
    exact ⟨rfl, rfl⟩
  · rintro ⟨rfl, rfl⟩
    exact ⟨_, _, ⟨rfl, rfl⟩, (), _, rfl, rfl, rfl⟩

/-- The state after a block was added to the PHI node that a block starts with. -/
def Codegen.incomingAdded (s : Codegen) (b : BlockId) (value : Value) (incoming : BlockId) :
    Codegen :=
  s.modifyBlock b fun block =>
    { block with phis := block.phis.modifyHead fun phi =>
        { phi with incoming := phi.incoming ++ [(value, incoming)] } }

/-- A PHI gets one more edge. It is the last one of the block. -/
theorem run_addIncoming {b incoming : BlockId} {value : Value} {a : Unit} :
    addIncoming b value incoming s = .ok (a, s') ↔ s.incomingAdded b value incoming = s' :=
  run_modify

/-- The state after a slot was given out. -/
def Codegen.allocated (s : Codegen) (type : LType) (size : Nat) : Codegen :=
  { s with graph := { s.graph with allocas := ⟨type, size⟩ :: s.graph.allocas } }

/-- A slot is added to those of the function, and its address is the result. -/
theorem run_codegenAlloca {type : LType} {size : Nat} {v : Value} :
    codegenAlloca type size s = .ok (v, s') ↔
      ⟨.pointer type, .slot s.func s.graph.allocas.length⟩ = v ∧ s.allocated type size = s' := by
  simp only [codegenAlloca, run_bind, run_get, run_set, run_pure]
  constructor
  · rintro ⟨_, _, ⟨rfl, rfl⟩, _, _, rfl, rfl, rfl⟩
    exact ⟨rfl, rfl⟩
  · rintro ⟨rfl, rfl⟩
    exact ⟨_, _, ⟨rfl, rfl⟩, (), _, rfl, rfl, rfl⟩

/-- A variable is bound to a value. -/
theorem run_codegenVariable {var : Variable} {value : Value} {a : Unit} :
    codegenVariable var value s = .ok (a, s') ↔
      { s with vars := update s.vars var.id (some value) } = s' := run_modify

/-- A variable that is read has a value, and this is recorded. -/
theorem run_findVar {var : Variable} {v : Value} :
    findVar var s = .ok (v, s') ↔
      s.vars var.id = some v ∧ { s with lowered := s.lowered ++ [(var.id, v)] } = s' := by
  simp only [findVar, lowered, run_bind, run_get, run_assertSome, run_modify, run_pure]
  constructor
  · rintro ⟨_, _, ⟨rfl, rfl⟩, _, _, ⟨h, rfl⟩, _, _, rfl, rfl, rfl⟩
    exact ⟨h, rfl⟩
  · rintro ⟨h, rfl⟩
    exact ⟨_, _, ⟨rfl, rfl⟩, _, _, ⟨h, rfl⟩, (), _, rfl, rfl, rfl⟩

/-! ### Instructions with a type that is looked up -/

section Typed

variable {v : Value}

/-- A load is an instruction with the type behind the address. -/
theorem run_createLoad {address : Value} {name : Option VarId}
    (h : createLoad address name s = .ok (v, s')) :
    ∃ type, insert (.load address name) type s = .ok (v, s') := by
  obtain ⟨type, _, h₁, h₂⟩ := run_bind.mp h
  rw [← (elementType_eq _).eq h₁] at h₂
  exact ⟨type, h₂⟩

/-- Taking a field out is an instruction with the type of the field. -/
theorem run_createExtractValue {aggregate : Value} {index : Nat}
    (h : createExtractValue aggregate index s = .ok (v, s')) :
    ∃ type, insert (.extractValue aggregate index) type s = .ok (v, s') := by
  obtain ⟨type, _, h₁, h₂⟩ := run_bind.mp h
  rw [← (fieldType_eq _ _).eq h₁] at h₂
  exact ⟨type, h₂⟩

/-- A call is an instruction with the result type of the callee. -/
theorem run_createCall {callee : Value} {args : List Value}
    (h : createCall callee args s = .ok (v, s')) :
    ∃ type, insert (.call callee args) type s = .ok (v, s') := by
  obtain ⟨type, _, h₁, h₂⟩ := run_bind.mp h
  rw [← (elementType_eq _).eq h₁] at h₂
  cases type with
  | function ret params => exact ⟨ret, h₂⟩
  | _ => exact (run_throw.mp h₂).elim

end Typed

end Aike
