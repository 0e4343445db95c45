import Aike.Model.Execute
import Aike.Proofs.Codegen.Builder
import Mathlib.Data.Set.Insert

/-!
# `Aike.Proofs.Codegen.Segment`: stretches of emitted code

Lowering goes on at the end of the insert block and in blocks that it makes. Between
making a block and going on in it, the block is reserved. `Emits R s R' s'` says what
a stretch of the lowering leaves alone: it goes from `s` with the blocks `R` reserved
to `s'` with `R'` reserved. `Contains G R s R' s'` says that the code which was added
on the way is in a graph `G`, where more code may follow.

* `Emits.trans`: stretches are put together.
* `Contains.first`, `Contains.second`: the code of the parts is there when the code
  of the whole is.
* `Codegen.jumped`: ending the insert block and going on in a reserved one.
-/

set_option autoImplicit false

namespace Aike

/-- The block at the insert point. -/
abbrev Codegen.current (s : Codegen) : BasicBlock := s.graph.blocks s.insertBlock

/-- Code can be added: the insert block has no end yet, and blocks that were not made
are blank. -/
structure Codegen.Open (s : Codegen) : Prop where
  insert_lt : s.insertBlock < s.graph.size
  unterminated : s.current.terminator = none
  blank : ∀ b, s.graph.size ≤ b → s.graph.blocks b = {}

/-- The reserved blocks are blank, and none of them is the insert block. -/
structure Codegen.Reserves (s : Codegen) (R : Set BlockId) : Prop where
  lt : ∀ b ∈ R, b < s.graph.size
  blank : ∀ b ∈ R, s.graph.blocks b = {}
  insert : s.insertBlock ∉ R

/-- No blocks are reserved at first. -/
theorem Codegen.Reserves.empty (s : Codegen) : s.Reserves ∅ where
  lt _ h := h.elim
  blank _ h := h.elim
  insert h := h.elim

/-- The code and the insert point are the same. -/
structure Codegen.SameCode (s s' : Codegen) : Prop where
  blocks : s'.graph.blocks = s.graph.blocks
  size : s'.graph.size = s.graph.size
  insert : s'.insertBlock = s.insertBlock

/-- A stretch of the lowering. -/
structure Emits (R : Set BlockId) (s : Codegen) (R' : Set BlockId) (s' : Codegen) : Prop where
  size_le : s.graph.size ≤ s'.graph.size
  insert : s'.insertBlock = s.insertBlock ∨ s'.insertBlock ∈ R ∨ s.graph.size ≤ s'.insertBlock
  frame : ∀ b < s.graph.size, b ≠ s.insertBlock → b ∉ R → s'.graph.blocks b = s.graph.blocks b
  phis : (s'.graph.blocks s.insertBlock).phis = s.current.phis
  instrs : s.current.instrs <+: (s'.graph.blocks s.insertBlock).instrs
  reserved : ∀ b ∈ R', b ∈ R ∨ s.graph.size ≤ b

/-- The code of a stretch is in a graph. In the last block more may follow. -/
def Contains (G : Graph) (R : Set BlockId) (s : Codegen) (R' : Set BlockId) (s' : Codegen) : Prop :=
  ∀ b, (b = s.insertBlock ∨ b ∈ R ∨ s.graph.size ≤ b) → b < s'.graph.size → b ∉ R' →
    (G.blocks b).phis = (s'.graph.blocks b).phis ∧
      (s'.graph.blocks b).instrs <+: (G.blocks b).instrs ∧
      (b ≠ s'.insertBlock → G.blocks b = s'.graph.blocks b)

variable {R R₁ R' : Set BlockId} {s s₁ s' : Codegen} {G : Graph}

/-! ### Putting stretches together -/

/-- What changes no code is an empty stretch. -/
theorem Emits.of_same (h : s.SameCode s') : Emits R s R s' where
  size_le := Nat.le_of_eq h.size.symm
  insert := Or.inl h.insert
  frame b _ _ _ := by rw [h.blocks]
  phis := by rw [h.blocks]
  instrs := ⟨[], by rw [h.blocks, List.append_nil]⟩
  reserved _ hb := Or.inl hb

/-- Stretches are put together. What the second one leaves alone includes the blocks of
the first one that are ended. -/
theorem Emits.trans (hs : s.insertBlock < s.graph.size) (hR : s.insertBlock ∉ R)
    (h₁ : Emits R s R₁ s₁) (h₂ : Emits R₁ s₁ R' s') : Emits R s R' s' := by
  -- a block that the first stretch leaves alone is out of reach for the second
  have hkeep : ∀ b < s.graph.size, b ∉ R → b ∉ R₁ := by
    intro b hb hbR hbR₁
    rcases h₁.reserved b hbR₁ with h | h
    · exact hbR h
    · exact Nat.not_lt.mpr h hb
  have hframe : ∀ b < s.graph.size, b ∉ R → b ≠ s₁.insertBlock →
      s'.graph.blocks b = s₁.graph.blocks b := by
    intro b hb hbR hne
    exact h₂.frame b (Nat.lt_of_lt_of_le hb h₁.size_le) hne (hkeep b hb hbR)
  have hinsert : (s₁.graph.blocks s.insertBlock).phis = (s'.graph.blocks s.insertBlock).phis ∧
      (s₁.graph.blocks s.insertBlock).instrs <+: (s'.graph.blocks s.insertBlock).instrs := by
    by_cases heq : s.insertBlock = s₁.insertBlock
    · rw [heq]
      exact ⟨h₂.phis.symm, h₂.instrs⟩
    · rw [hframe _ hs hR heq]
      exact ⟨rfl, List.prefix_rfl⟩
  refine ⟨h₁.size_le.trans h₂.size_le, ?_, ?_, hinsert.1 ▸ h₁.phis, h₁.instrs.trans hinsert.2, ?_⟩
  · rcases h₂.insert with h | h | h
    · rw [h]
      exact h₁.insert
    · exact Or.inr (h₁.reserved _ h)
    · exact Or.inr (Or.inr (h₁.size_le.trans h))
  · intro b hb hne hbR
    rw [hframe b hb hbR, h₁.frame b hb hne hbR]
    rintro rfl
    rcases h₁.insert with h | h | h
    · exact hne h
    · exact hbR h
    · exact Nat.not_lt.mpr h hb
  · intro b hb
    rcases h₂.reserved b hb with h | h
    · exact h₁.reserved b h
    · exact Or.inr (h₁.size_le.trans h)

/-- A stretch that knows of no reserved blocks leaves them alone. -/
theorem Emits.reserve (h : Emits ∅ s ∅ s') : Emits R s R s' where
  size_le := h.size_le
  insert := h.insert.imp_right fun h => h.imp_left fun h => h.elim
  frame b hb hne _ := h.frame b hb hne (Set.notMem_empty b)
  phis := h.phis
  instrs := h.instrs
  reserved _ hb := Or.inl hb

/-- A stretch that reserves nothing leaves the reserved blocks alone. -/
theorem Codegen.Reserves.emits (hR : s.Reserves R) (h : Emits ∅ s ∅ s') : s'.Reserves R where
  lt b hb := Nat.lt_of_lt_of_le (hR.lt b hb) h.size_le
  blank b hb := by
    rw [h.frame b (hR.lt b hb) (fun heq => hR.insert (heq ▸ hb)) (Set.notMem_empty b)]
    exact hR.blank b hb
  insert hmem := by
    rcases h.insert with heq | hno | hle
    · exact hR.insert (heq ▸ hmem)
    · exact hno
    · exact absurd (hR.lt _ hmem) (Nat.not_lt.mpr hle)

/-! ### Finding the code of a part -/

/-- The code of the second part is in the graph that the code of the whole is in. -/
theorem Contains.second (h₁ : Emits R s R₁ s₁) (h : Contains G R s R' s') :
    Contains G R₁ s₁ R' s' := by
  intro b hb
  refine h b ?_
  rcases hb with rfl | hb | hb
  · exact h₁.insert
  · exact Or.inr (h₁.reserved b hb)
  · exact Or.inr (Or.inr (h₁.size_le.trans hb))

/-- So is the code of the first part: the second one only adds to its last block. -/
theorem Contains.first (h₂ : Emits R₁ s₁ R' s') (h : Contains G R s R' s') :
    Contains G R s R₁ s₁ := by
  intro b hb hlt' hbR₁
  have hb' : b ∉ R' := by
    intro hmem
    rcases h₂.reserved b hmem with h | h
    · exact hbR₁ h
    · exact Nat.not_lt.mpr h hlt'
  obtain ⟨hphis, hinstrs, heq⟩ := h b hb (Nat.lt_of_lt_of_le hlt' h₂.size_le) hb'
  by_cases hne : b = s₁.insertBlock
  · rw [hne] at hphis hinstrs ⊢
    exact ⟨hphis.trans h₂.phis, h₂.instrs.trans hinstrs, fun h => absurd rfl h⟩
  · have hframe := h₂.frame b hlt' hne hbR₁
    rw [hframe] at hphis hinstrs heq
    refine ⟨hphis, hinstrs, fun _ => heq ?_⟩
    rintro rfl
    rcases h₂.insert with h | h | h
    · exact hne h
    · exact hbR₁ h
    · exact Nat.not_lt.mpr h hlt'

/-- The code of a stretch, without the blocks that were reserved around it. -/
theorem Contains.unreserve (hR : s.Reserves R) (h : Contains G R s R s') :
    Contains G ∅ s ∅ s' := by
  intro b hb hlt _
  refine h b (hb.imp_right fun h => Or.inr (h.resolve_left (Set.notMem_empty b))) hlt ?_
  intro hmem
  rcases hb with rfl | hno | hle
  · exact hR.insert hmem
  · exact hno
  · exact absurd (hR.lt b hmem) (Nat.not_lt.mpr hle)

/-! ### Steps of the builder -/

/-- An instruction does not end the block. -/
theorem Codegen.Open.inserted (h : s.Open) (op : Op) : (s.inserted op).Open where
  insert_lt := h.insert_lt
  unterminated := by
    show (update s.graph.blocks s.insertBlock _ s.insertBlock).terminator = none
    rw [update, if_pos rfl]
    exact h.unterminated
  blank b hb := by
    show update s.graph.blocks s.insertBlock _ b = {}
    rw [update, if_neg (Nat.ne_of_gt (Nat.lt_of_lt_of_le h.insert_lt hb))]
    exact h.blank b hb

/-- It is the last one of the block. -/
theorem inserted_current (s : Codegen) (op : Op) :
    (s.inserted op).current =
      { s.current with instrs := s.current.instrs ++ [⟨s.nextResult, op⟩] } := by
  show update s.graph.blocks s.insertBlock _ s.insertBlock = _
  rw [update, if_pos rfl]

/-- It changes no other block. -/
theorem inserted_block (s : Codegen) (op : Op) {b : BlockId} (h : b ≠ s.insertBlock) :
    (s.inserted op).graph.blocks b = s.graph.blocks b := by
  show update s.graph.blocks s.insertBlock _ b = _
  rw [update, if_neg h]

/-- It is a stretch of its own. -/
theorem Emits.inserted (s : Codegen) (op : Op) : Emits R s R (s.inserted op) where
  size_le := Nat.le_refl _
  insert := Or.inl rfl
  frame b _ hne _ := inserted_block s op hne
  phis := by
    show (s.inserted op).current.phis = _
    rw [inserted_current]
  instrs := by
    show s.current.instrs <+: (s.inserted op).current.instrs
    rw [inserted_current]
    exact List.prefix_append _ _
  reserved _ hb := Or.inl hb

/-- The instruction that was added is in the graph. -/
theorem Contains.inserted {op : Op} (h : Contains G R s R (s.inserted op)) (hs : s.Open)
    (hR : s.insertBlock ∉ R) :
    (G.blocks s.insertBlock).instrs[s.current.instrs.length]? = some ⟨s.nextResult, op⟩ := by
  obtain ⟨-, ⟨rest, hinstrs⟩, -⟩ := h s.insertBlock (Or.inl rfl) hs.insert_lt hR
  have hcurrent : ((s.inserted op).graph.blocks s.insertBlock).instrs =
      s.current.instrs ++ [⟨s.nextResult, op⟩] :=
    congrArg BasicBlock.instrs (inserted_current s op)
  rw [← hinstrs, hcurrent, List.append_assoc, List.getElem?_append_right (Nat.le_refl _),
    Nat.sub_self]
  rfl

/-- End the insert block and go on in another one, after `k` blocks were made. -/
def Codegen.jumped (s : Codegen) (k : Nat) (t : Terminator) (b : BlockId) : Codegen :=
  { { s with graph := { s.graph with size := s.graph.size + k } }.terminated t with
    insertBlock := b }

section Jump

variable {k : Nat} {t : Terminator} {b : BlockId}

/-- Ending a block changes no other block. -/
theorem jumped_block {a : BlockId} (h : a ≠ s.insertBlock) :
    (s.jumped k t b).graph.blocks a = s.graph.blocks a := by
  show update s.graph.blocks s.insertBlock _ a = _
  rw [update, if_neg h]

/-- The block that was ended has the terminator. -/
theorem jumped_last :
    (s.jumped k t b).graph.blocks s.insertBlock = { s.current with terminator := some t } := by
  show update s.graph.blocks s.insertBlock _ s.insertBlock = _
  rw [update, if_pos rfl]

/-- The blocks that are reserved after a jump. -/
def afterJump (R : Set BlockId) (s : Codegen) (k : Nat) (b : BlockId) : Set BlockId :=
  {a | (a ∈ R ∨ (s.graph.size ≤ a ∧ a < s.graph.size + k)) ∧ a ≠ b}

/-- Ending a block and going on in another one is a stretch. The other block is reserved
no more. -/
theorem Emits.jumped (hb : b ∈ R ∨ s.graph.size ≤ b) :
    Emits R s (afterJump R s k b) (s.jumped k t b) where
  size_le := Nat.le_add_right _ _
  insert := Or.inr hb
  frame _ _ hne _ := jumped_block hne
  phis := by rw [jumped_last]
  instrs := ⟨[], by rw [jumped_last, List.append_nil]⟩
  reserved _ ha := ha.1.imp_right And.left

/-- The other block is blank, so the code is open there. -/
theorem Codegen.Open.jumped (h : s.Open) (hR : s.Reserves R)
    (hb : b ∈ R ∨ (s.graph.size ≤ b ∧ b < s.graph.size + k)) :
    (s.jumped k t b).Open ∧ (s.jumped k t b).Reserves (afterJump R s k b) ∧
      (s.jumped k t b).current = {} := by
  have hlt := h.insert_lt
  -- A block that is reserved or not yet made is another one than the current block.
  have hnew : ∀ a, a ∈ R ∨ s.graph.size ≤ a → (s.jumped k t b).graph.blocks a = {} := by
    intro a ha
    have hne : a ≠ s.insertBlock := by
      rintro rfl
      exact ha.elim hR.insert (Nat.not_le.mpr hlt)
    rw [jumped_block hne]
    exact ha.elim (hR.blank a) (h.blank a)
  have hcurrent : (s.jumped k t b).current = {} := hnew b (hb.imp_right And.left)
  refine ⟨⟨?_, ?_, ?_⟩, ⟨?_, ?_, ?_⟩, hcurrent⟩
  · show b < s.graph.size + k
    rcases hb with hb | hb
    · exact Nat.lt_add_right k (hR.lt b hb)
    · exact hb.2
  · rw [hcurrent]
  · intro a ha
    exact hnew a (Or.inr (Nat.le_trans (Nat.le_add_right _ k) ha))
  · intro a ha
    show a < s.graph.size + k
    rcases ha.1 with ha | ha
    · exact Nat.lt_add_right k (hR.lt a ha)
    · exact ha.2
  · intro a ha
    exact hnew a (ha.1.imp_right And.left)
  · intro hmem
    exact hmem.2 rfl

/-- The block that was ended is in the graph. -/
theorem Contains.jumped (h : Contains G R s (afterJump R s k b) (s.jumped k t b)) (hs : s.Open)
    (hR : s.Reserves R) (hb : b ∈ R ∨ s.graph.size ≤ b) :
    G.blocks s.insertBlock = { s.current with terminator := some t } := by
  have hlt := hs.insert_lt
  have hne : s.insertBlock ≠ b := by
    rintro rfl
    exact hb.elim hR.insert (Nat.not_le.mpr hlt)
  have hnot : s.insertBlock ∉ afterJump R s k b := by
    rintro ⟨hmem | hmem, -⟩
    · exact hR.insert hmem
    · exact Nat.not_lt.mpr hmem.1 hlt
  have hlt' : s.insertBlock < (s.jumped k t b).graph.size := Nat.lt_add_right k hlt
  obtain ⟨-, -, heq⟩ := h s.insertBlock (Or.inl rfl) hlt' hnot
  rw [heq hne, jumped_last]

end Jump

/-! ### PHI nodes -/

section Phi

variable {type : LType} {incoming : List (Value × BlockId)}

/-- A PHI is the last one of its block. -/
theorem phiAdded_current :
    (s.phiAdded type incoming).current =
      { s.current with phis := s.current.phis ++ [⟨s.nextResult, type, incoming⟩] } := by
  show update s.graph.blocks s.insertBlock _ s.insertBlock = _
  rw [update, if_pos rfl]

/-- It changes no other block. -/
theorem phiAdded_block {b : BlockId} (h : b ≠ s.insertBlock) :
    (s.phiAdded type incoming).graph.blocks b = s.graph.blocks b := by
  show update s.graph.blocks s.insertBlock _ b = _
  rw [update, if_neg h]

/-- It does not end the block. -/
theorem Codegen.Open.phiAdded (h : s.Open) : (s.phiAdded type incoming).Open where
  insert_lt := h.insert_lt
  unterminated := by
    rw [phiAdded_current]
    exact h.unterminated
  blank b hb := by
    rw [phiAdded_block (Nat.ne_of_gt (Nat.lt_of_lt_of_le h.insert_lt hb))]
    exact h.blank b hb

/-- A PHI node in a block that the stretch went on in. -/
theorem Emits.phiAdded (h : Emits R s R' s') (hne : s'.insertBlock ≠ s.insertBlock) :
    Emits R s R' (s'.phiAdded type incoming) where
  size_le := h.size_le
  insert := h.insert
  frame b hb hbs hbR := by
    have hb' : b ≠ s'.insertBlock := by
      rintro rfl
      rcases h.insert with heq | hmem | hle
      · exact hne heq
      · exact hbR hmem
      · exact Nat.not_lt.mpr hle hb
    rw [phiAdded_block hb', h.frame b hb hbs hbR]
  phis := by rw [phiAdded_block hne.symm, h.phis]
  instrs := by
    rw [phiAdded_block hne.symm]
    exact h.instrs
  reserved := h.reserved

/-- The rest of the code is in the graph as well. -/
theorem Contains.phiAdded (h : Contains G R s R' (s'.phiAdded type incoming)) {b : BlockId}
    (hb : b = s.insertBlock ∨ b ∈ R ∨ s.graph.size ≤ b) (hlt : b < s'.graph.size) (hR : b ∉ R')
    (hne : b ≠ s'.insertBlock) : G.blocks b = s'.graph.blocks b := by
  rw [(h b hb hlt hR).2.2 hne, phiAdded_block hne]

end Phi

/-! ### A stretch with what it starts from -/

/-- A stretch that starts with an open insert block. -/
structure Advances (R : Set BlockId) (s : Codegen) (R' : Set BlockId) (s' : Codegen) : Prop where
  isOpen : s.Open
  reserves : s.Reserves R
  emits : Emits R s R' s'

/-- Two parts that go on are put together. -/
theorem Advances.trans (h₁ : Advances R s R₁ s₁) (h₂ : Advances R₁ s₁ R' s') :
    Advances R s R' s' where
  isOpen := h₁.isOpen
  reserves := h₁.reserves
  emits := h₁.emits.trans h₁.isOpen.insert_lt h₁.reserves.insert h₂.emits

/-- Reserved blocks are given up at the end. -/
theorem Advances.release (hs : s.Open) (hR : s.Reserves R) (h : s.SameCode s') :
    Advances R s ∅ s' where
  isOpen := hs
  reserves := hR
  emits :=
    let same := Emits.of_same (R := R) h
    ⟨same.size_le, same.insert, same.frame, same.phis, same.instrs, fun _ hb => hb.elim⟩

/-- The insert block of the start keeps its PHI nodes. -/
theorem Advances.phis (h : Advances R s R' s') (hG : Contains G R s R' s') :
    (G.blocks s.insertBlock).phis = s.current.phis := by
  have hlt := h.isOpen.insert_lt
  have hnot : s.insertBlock ∉ R' := by
    intro hmem
    rcases h.emits.reserved _ hmem with hR | hle
    · exact h.reserves.insert hR
    · exact Nat.not_lt.mpr hle hlt
  rw [(hG _ (Or.inl rfl) (Nat.lt_of_lt_of_le hlt h.emits.size_le) hnot).1, h.emits.phis]

/-- A jump, with the rest of the code after it. -/
structure Jumps (G : Graph) (R : Set BlockId) (s : Codegen) (k : Nat) (t : Terminator)
    (b : BlockId) (R' : Set BlockId) (s' : Codegen) : Prop where
  block : G.blocks s.insertBlock = { s.current with terminator := some t }
  phis : (G.blocks b).phis = []
  rest : Contains G (afterJump R s k b) (s.jumped k t b) R' s'

/-- What the start of a jump has to meet. -/
theorem Advances.jumped {k : Nat} {t : Terminator} {b : BlockId} (hs : s.Open) (hR : s.Reserves R)
    (hb : b ∈ R ∨ (s.graph.size ≤ b ∧ b < s.graph.size + k)) :
    Advances R s (afterJump R s k b) (s.jumped k t b) :=
  ⟨hs, hR, .jumped (hb.imp_right And.left)⟩

/-- What comes behind a jump is a stretch from the jump on. -/
theorem Advances.jumps {k : Nat} {t : Terminator} {b : BlockId} (hs : s.Open) (hR : s.Reserves R)
    (hb : b ∈ R ∨ (s.graph.size ≤ b ∧ b < s.graph.size + k))
    (h : Advances (afterJump R s k b) (s.jumped k t b) R' s') (hG : Contains G R s R' s') :
    Jumps G R s k t b R' s' := by
  have hjump : Advances R s (afterJump R s k b) (s.jumped k t b) := .jumped hs hR hb
  have hrest := hG.second hjump.emits
  obtain ⟨-, -, hcurrent⟩ := hs.jumped (t := t) hR hb
  refine ⟨(hG.first h.emits).jumped hs hR (hb.imp_right And.left), ?_, hrest⟩
  have hphis := h.phis hrest
  rwa [hcurrent] at hphis

end Aike
