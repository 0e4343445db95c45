import Aike.Lib.Flow.Basic
import Mathlib.Data.Set.Insert

/-!
# `Aike.Lib.Flow.Frame`: what lowering leaves alone

Lowering a tree adds to the current block, adds blocks, and touches nothing else
(`Extends`). Its edges lead into blocks that it reserved itself, and come from
those or from the block it started in.

* `Open` is the invariant of the graph under construction.
* `Lower.frame`: lowering keeps `Open` and does nothing but extend.
* `Lower.current_eq` and `Lower.next_le_current`: it goes on in another block exactly
  when the tree has a construct that ends a block (`Tree.splits`).
-/

set_option autoImplicit false

namespace Flow

variable {α : Type}

/-! ### One field of a block -/

section Fields

variable (s : State α) (b c a : Nat) (T : Set Nat) (es : List Event) (p : List Nat)

/-- A jump adds no PHI. -/
@[simp] theorem jump_phis : ((s.jump T).blocks b).phis = (s.blocks b).phis := by
  rw [State.jump_blocks]
  split <;> rfl

/-- A jump adds no event. -/
@[simp] theorem jump_events : ((s.jump T).blocks b).events = (s.blocks b).events := by
  rw [State.jump_blocks]
  split <;> rfl

/-- A jump gives the current block its successors, and no other one. -/
@[simp] theorem jump_succ :
    ((s.jump T).blocks b).succ = if b = s.current then T else (s.blocks b).succ := by
  rw [State.jump_blocks]
  split <;> rfl

/-- Events are no PHI. -/
@[simp] theorem emit_phis : ((s.emit es).blocks b).phis = (s.blocks b).phis := by
  rw [State.emit_blocks]
  split <;> rfl

/-- Events are no edge. -/
@[simp] theorem emit_succ : ((s.emit es).blocks b).succ = (s.blocks b).succ := by
  rw [State.emit_blocks]
  split <;> rfl

/-- A PHI is no event. -/
@[simp] theorem phi_events : ((s.phi p).blocks b).events = (s.blocks b).events := by
  rw [State.phi_blocks]
  split <;> rfl

/-- A PHI is no edge. -/
@[simp] theorem phi_succ : ((s.phi p).blocks b).succ = (s.blocks b).succ := by
  rw [State.phi_blocks]
  split <;> rfl

/-- A further edge of a PHI is no event. -/
@[simp] theorem addIncoming_events :
    ((s.addIncoming c a).blocks b).events = (s.blocks b).events := by
  rw [State.addIncoming_blocks]
  split <;> rfl

/-- A further edge of a PHI is no edge of the graph. -/
@[simp] theorem addIncoming_succ :
    ((s.addIncoming c a).blocks b).succ = (s.blocks b).succ := by
  rw [State.addIncoming_blocks]
  split <;> rfl

end Fields

/-- The graph is open at the current block: that block is not ended yet, and
blocks that were not reserved are blank. -/
structure Open (s : State α) : Prop where
  blank : ∀ b, s.next ≤ b → s.blocks b = {}
  current_lt : s.current < s.next
  succ_current : (s.blocks s.current).succ = ∅
  succ_lt : ∀ a b, b ∈ (s.blocks a).succ → b < s.next

/-- The state in which lowering starts: one block, with nothing in it, and
no variable with a slot of this code. -/
structure Start (s : State α) : Prop where
  blocks : ∀ b, s.blocks b = {}
  current : s.current = 0
  next : s.next = 1
  env : ∀ x n, s.env x ≠ some (.slot n)

/-- The graph with one empty block is open. -/
theorem Start.isOpen {s : State α} (h : Start s) : Open s where
  blank b _ := h.blocks b
  current_lt := by rw [h.current, h.next]; omega
  succ_current := by rw [h.blocks]
  succ_lt a b hab := by
    rw [h.blocks] at hab
    exact absurd hab (Set.notMem_empty b)

/-- `t` is `s` with code added at the end of the current block and in new blocks. -/
structure Extends (s t : State α) : Prop where
  next_le : s.next ≤ t.next
  current : t.current = s.current ∨ s.next ≤ t.current
  blocks : ∀ b < s.next, b ≠ s.current → t.blocks b = s.blocks b
  phis : (t.blocks s.current).phis = (s.blocks s.current).phis
  events : ∃ es, (t.blocks s.current).events = (s.blocks s.current).events ++ es
  succ_subset : ∀ a, (s.blocks a).succ ⊆ (t.blocks a).succ
  edges : ∀ a b, b ∈ (t.blocks a).succ →
    b ∈ (s.blocks a).succ ∨ (s.next ≤ b ∧ (a = s.current ∨ s.next ≤ a))
  slots_le : s.slots ≤ t.slots

namespace Extends

variable {s t u : State α}

/-- Nothing was added. -/
theorem refl (s : State α) : Extends s s where
  next_le := Nat.le_refl _
  current := Or.inl rfl
  blocks _ _ _ := rfl
  phis := rfl
  events := ⟨[], (List.append_nil _).symm⟩
  succ_subset _ := subset_rfl
  edges _ _ h := Or.inl h
  slots_le := Nat.le_refl _

/-- A block that was reserved and is not the current one is not touched. -/
theorem blank_of_reserved (h : Extends s t) {b : Nat} (hb : b < s.next) (hne : b ≠ s.current)
    (hblank : s.blocks b = {}) : t.blocks b = {} := by
  rw [h.blocks b hb hne, hblank]

/-- Two extensions make one. The current block of the first one is past the start, so what
the second one leaves alone includes all older blocks. -/
theorem trans (hs : s.current < s.next) (h₁ : Extends s t) (h₂ : Extends t u) : Extends s u := by
  have hle := Nat.le_trans h₁.next_le h₂.next_le
  -- Either the second part goes on in the block where the first started, or it
  -- does not see that block.
  have hcur : t.current = s.current ∨ u.blocks s.current = t.blocks s.current := by
    rcases h₁.current with heq | hge
    · exact Or.inl heq
    · refine Or.inr (h₂.blocks _ (by have := h₁.next_le; omega) (by omega))
  refine ⟨hle, ?_, ?_, ?_, ?_, ?_, ?_, Nat.le_trans h₁.slots_le h₂.slots_le⟩
  · rcases h₂.current with heq | hge
    · rw [heq]
      exact h₁.current
    · exact Or.inr (Nat.le_trans h₁.next_le hge)
  · intro b hb hne
    have hbt : b ≠ t.current := by
      rcases h₁.current with heq | hge
      · rwa [heq]
      · omega
    rw [h₂.blocks b (Nat.lt_of_lt_of_le hb h₁.next_le) hbt, h₁.blocks b hb hne]
  · rcases hcur with heq | heq
    · rw [← heq, h₂.phis, heq, h₁.phis]
    · rw [heq, h₁.phis]
  · obtain ⟨es, hes⟩ := h₁.events
    rcases hcur with heq | heq
    · obtain ⟨es', hes'⟩ := h₂.events
      rw [heq] at hes'
      exact ⟨es ++ es', by rw [hes', hes, List.append_assoc]⟩
    · exact ⟨es, by rw [heq, hes]⟩
  · exact fun a => (h₁.succ_subset a).trans (h₂.succ_subset a)
  · intro a b hab
    rcases h₂.edges a b hab with hab | ⟨hb, ha⟩
    · exact h₁.edges a b hab
    · refine Or.inr ⟨Nat.le_trans h₁.next_le hb, ?_⟩
      rcases ha with ha | ha
      · rw [ha]
        exact h₁.current
      · exact Or.inr (Nat.le_trans h₁.next_le ha)

/-! Each operation extends, as long as it adds to blocks that `s` does not have. -/

/-- Reserving blocks adds no code. -/
theorem reserve (h : Extends s t) (k : Nat) : Extends s (t.reserve k) where
  __ := h
  next_le := Nat.le_trans h.next_le (Nat.le_add_right _ _)

/-- Giving out slots adds no code. -/
theorem alloc (h : Extends s t) (k : Nat) : Extends s (t.alloc k) where
  __ := h
  slots_le := Nat.le_trans h.slots_le (Nat.le_add_right _ _)

/-- Going on in a new block adds no code. -/
theorem enter (h : Extends s t) {b : Nat} (hb : s.next ≤ b) : Extends s (t.enter b) where
  __ := h
  current := Or.inr hb

/-- A jump from the current block into new blocks is an extension: the edges lead where
they may, and the block had none before. -/
theorem jump (h : Extends s t) (ho : (t.blocks t.current).succ = ∅) {T : Set Nat}
    (hts : ∀ b ∈ T, s.next ≤ b) : Extends s (t.jump T) := by
  refine ⟨h.next_le, h.current, fun b hb hne => ?_, ?_, ?_, fun a => ?_, fun a b hab => ?_,
    h.slots_le⟩
  · have hbt : b ≠ t.current := by
      rcases h.current with heq | hge
      · rwa [heq]
      · omega
    rw [State.jump_blocks, if_neg hbt, h.blocks b hb hne]
  · rw [jump_phis, h.phis]
  · obtain ⟨es, hes⟩ := h.events
    exact ⟨es, by rw [jump_events, hes]⟩
  · have hsub := h.succ_subset a
    rw [jump_succ]
    split
    case isTrue heq =>
      rw [heq, ho, Set.subset_empty_iff] at hsub
      rw [heq, hsub]
      exact Set.empty_subset _
    case isFalse => exact hsub
  · rw [jump_succ] at hab
    split at hab
    case isTrue heq =>
      refine Or.inr ⟨hts b hab, ?_⟩
      rw [heq]
      exact h.current
    case isFalse => exact h.edges a b hab

/-- Events go to the end of the current block. -/
theorem emit (h : Extends s t) (es : List Event) : Extends s (t.emit es) := by
  obtain ⟨es', hes'⟩ := h.events
  refine ⟨h.next_le, h.current, fun b hb hne => ?_, ?_, ?_, fun a => ?_, fun a b hab => ?_,
    h.slots_le⟩
  · have hbt : b ≠ t.current := by
      rcases h.current with heq | hge
      · rwa [heq]
      · omega
    rw [State.emit_blocks, if_neg hbt, h.blocks b hb hne]
  · rw [emit_phis, h.phis]
  · rw [State.emit_blocks]
    split
    · exact ⟨es' ++ es, by rw [hes', List.append_assoc]⟩
    · exact ⟨es', hes'⟩
  · rw [emit_succ]
    exact h.succ_subset a
  · exact h.edges a b (by rwa [emit_succ] at hab)

/-- A PHI is added to a new block only, so the block at the start keeps its own. -/
theorem phi (h : Extends s t) (hs : s.current < s.next) (ht : s.next ≤ t.current)
    (incoming : List Nat) : Extends s (t.phi incoming) := by
  have hne : ∀ b, b < s.next → b ≠ t.current := fun b hb => by omega
  refine ⟨h.next_le, h.current, fun b hb hbs => ?_, ?_, ?_, fun a => ?_, fun a b hab => ?_,
    h.slots_le⟩
  · rw [State.phi_blocks, if_neg (hne b hb), h.blocks b hb hbs]
  · rw [State.phi_blocks, if_neg (hne _ hs), h.phis]
  · rw [State.phi_blocks, if_neg (hne _ hs)]
    exact h.events
  · rw [phi_succ]
    exact h.succ_subset a
  · exact h.edges a b (by rwa [phi_succ] at hab)

/-- A further edge of a PHI of a new block likewise. -/
theorem addIncoming (h : Extends s t) (hs : s.current < s.next) {target : Nat}
    (ht : s.next ≤ target) (incoming : Nat) : Extends s (t.addIncoming target incoming) := by
  have hne : ∀ b, b < s.next → b ≠ target := fun b hb => by omega
  refine ⟨h.next_le, h.current, fun b hb hbs => ?_, ?_, ?_, fun a => ?_, fun a b hab => ?_,
    h.slots_le⟩
  · rw [State.addIncoming_blocks, if_neg (hne b hb), h.blocks b hb hbs]
  · rw [State.addIncoming_blocks, if_neg (hne _ hs), h.phis]
  · rw [State.addIncoming_blocks, if_neg (hne _ hs)]
    exact h.events
  · rw [addIncoming_succ]
    exact h.succ_subset a
  · exact h.edges a b (by rwa [addIncoming_succ] at hab)

/-- Binding a variable adds no code. -/
theorem setEnv [DecidableEq α] (h : Extends s t) (x : α) (l : Loc) :
    Extends s (t.setEnv x l) where
  __ := h

/-- Binding some variables adds no code. -/
theorem bindAll [DecidableEq α] (h : Extends s t) (xs : List α) : Extends s (t.bindAll xs) where
  __ := h

/-- A mention of a variable adds no code. -/
theorem mention (h : Extends s t) (x : α) (l : Loc) : Extends s (t.mention x l) where
  __ := h

/-- Declaring a variable initialises its slot, which is an event of the current block. -/
theorem declare [DecidableEq α] (h : Extends s t) (x : α) : Extends s (t.declare x) where
  __ := h.emit [.init (some t.slots)]
  slots_le := Nat.le_trans h.slots_le (Nat.le_succ _)

end Extends

namespace Open

variable {s t : State α}

/-- Giving out slots leaves the graph open. -/
theorem alloc (h : Open s) (k : Nat) : Open (s.alloc k) where
  __ := h

/-- Reserving blocks leaves the graph open: they are blank. -/
theorem reserve (h : Open s) (k : Nat) : Open (s.reserve k) where
  __ := h
  blank b hb := h.blank b (by simp at hb; omega)
  current_lt := by have := h.current_lt; simp; omega
  succ_lt a b hab := by have := h.succ_lt a b hab; simp; omega

/-- End the current block, and go on in a block that is reserved and blank. -/
theorem branch (h : Open s) {T : Set Nat} {b : Nat} (hts : ∀ c ∈ T, c < s.next)
    (hb : b < s.next) (hblank : s.blocks b = {}) (hne : b ≠ s.current) :
    Open ((s.jump T).enter b) where
  blank c hc := by
    have hcs : s.next ≤ c := hc
    have := h.current_lt
    rw [State.enter_blocks, State.jump_blocks, if_neg (by omega), h.blank c hcs]
  current_lt := hb
  succ_current := by
    simp only [State.enter_blocks, State.enter_current, jump_succ, if_neg hne, hblank]
  succ_lt a c hac := by
    simp only [State.enter_blocks, jump_succ] at hac
    split at hac
    · exact hts c hac
    · exact h.succ_lt a c hac

/-- Events leave the current block without an end. -/
theorem emit (h : Open s) (es : List Event) : Open (s.emit es) where
  blank b hb := by
    have hbs : s.next ≤ b := hb
    have := h.current_lt
    rw [State.emit_blocks, if_neg (by omega), h.blank b hbs]
  current_lt := h.current_lt
  succ_current := by simpa using h.succ_current
  succ_lt a b hab := h.succ_lt a b (by rwa [emit_succ] at hab)

/-- So does a PHI. -/
theorem phi (h : Open s) (incoming : List Nat) : Open (s.phi incoming) where
  blank b hb := by
    have hbs : s.next ≤ b := hb
    have := h.current_lt
    rw [State.phi_blocks, if_neg (by omega), h.blank b hbs]
  current_lt := h.current_lt
  succ_current := by simpa using h.succ_current
  succ_lt a b hab := h.succ_lt a b (by rwa [phi_succ] at hab)

/-- A further edge of a PHI adds nothing to blocks that are not reserved. -/
theorem addIncoming (h : Open s) (target incoming : Nat) (ht : target < s.next) :
    Open (s.addIncoming target incoming) where
  blank b hb := by
    have hbs : s.next ≤ b := hb
    rw [State.addIncoming_blocks, if_neg (by omega), h.blank b hbs]
  current_lt := h.current_lt
  succ_current := by
    rw [State.addIncoming_current, addIncoming_succ]
    exact h.succ_current
  succ_lt a b hab := h.succ_lt a b (by rwa [addIncoming_succ] at hab)

/-- Binding a variable leaves the graph open. -/
theorem setEnv [DecidableEq α] (h : Open s) (x : α) (l : Loc) : Open (s.setEnv x l) where
  __ := h

/-- Binding some variables leaves the graph open. -/
theorem bindAll [DecidableEq α] (h : Open s) (xs : List α) : Open (s.bindAll xs) where
  __ := h

/-- A mention of a variable leaves the graph open. -/
theorem mention (h : Open s) (x : α) (l : Loc) : Open (s.mention x l) where
  __ := h

/-- Declaring a variable leaves the graph open. -/
theorem declare [DecidableEq α] (h : Open s) (x : α) : Open (s.declare x) where
  __ := h.emit [.init (some s.slots)]

end Open

/-! ### The blocks of a construct

A construct reserves blocks and enters them one after another. Seen from the
state `s` where it reserved them, the states on the way are in the region of `s`,
and a block that was not entered yet is pending. -/

/-- `t` extends `s` and is past the blocks of `s`. -/
structure Region (s t : State α) : Prop where
  isOpen : Open t
  isExtension : Extends s t
  inside : s.next ≤ t.current

/-- The block is reserved, and nothing was added to it. -/
structure Pending (s : State α) (b : Nat) : Prop where
  lt : b < s.next
  ne : b ≠ s.current
  blank : s.blocks b = {}

section Region

variable {s t u : State α} {k b c : Nat} {T : Set Nat}

/-- A block that waits is still waiting after code that goes on elsewhere: an extension
does not touch the blocks before it. -/
theorem Pending.extend (h : Pending t b) (hx : Extends t u) (hu : b ≠ u.current) : Pending u b where
  lt := Nat.lt_of_lt_of_le h.lt hx.next_le
  ne := hu
  blank := hx.blank_of_reserved h.lt h.ne h.blank

/-- A pending block stays pending while something is lowered. -/
theorem Pending.lower (h : Pending t b) (hx : Extends t u) : Pending u b := by
  refine h.extend hx ?_
  have hlt := h.lt
  rcases hx.current with heq | hge
  · rw [heq]
    exact h.ne
  · omega

/-- Of two reserved blocks, one is entered and the other one goes on waiting. -/
theorem Pending.branch (h : Pending t b) (hne : b ≠ c) : Pending ((t.jump T).enter c) b where
  lt := h.lt
  ne := hne
  blank := by rw [State.enter_blocks, State.jump_blocks, if_neg h.ne, h.blank]

/-- The blocks that a construct reserves are pending when it enters one of them. -/
theorem Pending.split (ho : Open s) (hb : s.next ≤ b) (hbk : b < s.next + k) (hne : b ≠ c) :
    Pending (((s.reserve k).jump T).enter c) b where
  lt := hbk
  ne := hne
  blank := by
    have := ho.current_lt
    rw [State.enter_blocks, State.jump_blocks, State.reserve_current, if_neg (by omega),
      State.reserve_blocks, ho.blank b hb]

/-- Reserve blocks, end the current one and go on in one of the reserved ones. -/
theorem Region.split (ho : Open s) (hts : ∀ c ∈ T, s.next ≤ c ∧ c < s.next + k)
    (hb : s.next ≤ b) (hbk : b < s.next + k) :
    Region s (((s.reserve k).jump T).enter b) where
  isOpen := by
    have := ho.current_lt
    refine (ho.reserve k).branch (fun c hc => (hts c hc).2) hbk (ho.blank b hb) ?_
    show b ≠ s.current
    omega
  isExtension :=
    (((Extends.refl s).reserve k).jump ho.succ_current fun c hc => (hts c hc).1).enter hb
  inside := hb

/-- Lowering something inside a region. -/
theorem Region.lower (h : Region s t) (hs : s.current < s.next) (hu : Open u ∧ Extends t u) :
    Region s u where
  isOpen := hu.1
  isExtension := h.isExtension.trans hs hu.2
  inside := by
    have hinside := h.inside
    have hle := h.isExtension.next_le
    rcases hu.2.current with heq | hge <;> omega

/-- End the current block with a jump past the blocks of `s`, and go on in a
pending block. -/
theorem Region.branch (ho : Open t) (hx : Extends s t)
    (hts : ∀ c ∈ T, s.next ≤ c ∧ c < t.next) (hb : s.next ≤ b) (hpending : Pending t b) :
    Region s ((t.jump T).enter b) where
  isOpen := ho.branch (fun c hc => (hts c hc).2) hpending.lt hpending.blank hpending.ne
  isExtension := (hx.jump ho.succ_current fun c hc => (hts c hc).1).enter hb
  inside := hb

/-- A PHI at the current block keeps a region, as this is past the blocks of the start. -/
theorem Region.phi (h : Region s t) (hs : s.current < s.next) (incoming : List Nat) :
    Region s (t.phi incoming) where
  isOpen := h.isOpen.phi incoming
  isExtension := h.isExtension.phi hs h.inside incoming
  inside := h.inside

/-- A further edge of a PHI of the region keeps it. -/
theorem Region.addIncoming (h : Region s t) (hs : s.current < s.next) (hb : s.next ≤ b)
    (hbt : b < t.next) (incoming : Nat) : Region s (t.addIncoming b incoming) where
  isOpen := h.isOpen.addIncoming b incoming hbt
  isExtension := h.isExtension.addIncoming hs hb incoming
  inside := h.inside

/-- Binding some variables keeps a region. -/
theorem Region.bindAll [DecidableEq α] (h : Region s t) (xs : List α) :
    Region s (t.bindAll xs) where
  isOpen := h.isOpen.bindAll xs
  isExtension := h.isExtension.bindAll xs
  inside := h.inside

end Region

/-! ### Lowering -/

variable [DecidableEq α] {f : Tree α} {s s' : State α}

omit [DecidableEq α] in
/-- The state in which the second branch of a conditional is lowered. -/
theorem Lower.ifElse_else {s₁ s₂ : State α} (ho : Open s₁)
    (hl₂ : Open s₂ ∧ Extends (((s₁.reserve 3).jump {s₁.next, s₁.next + 1}).enter s₁.next) s₂) :
    Open ((s₂.jump {s₁.next + 2}).enter (s₁.next + 1)) := by
  have hr₁ : Region s₁ _ := .split (k := 3) (T := {s₁.next, s₁.next + 1}) (b := s₁.next) ho
    (by simp) (by omega) (by omega)
  have helse := (Pending.split (k := 3) (b := s₁.next + 1) (c := s₁.next)
    (T := {s₁.next, s₁.next + 1}) ho (by omega) (by omega) (by omega)).lower hl₂.2
  have hend := (Pending.split (k := 3) (b := s₁.next + 2) (c := s₁.next)
    (T := {s₁.next, s₁.next + 1}) ho (by omega) (by omega) (by omega)).lower hl₂.2
  have hr₂ := hr₁.lower ho.current_lt hl₂
  exact (Region.branch (T := {s₁.next + 2}) hr₂.isOpen hr₂.isExtension
    (by simpa using hend.lt) (by omega) helse).isOpen

omit [DecidableEq α] in
/-- The block after code that may be skipped, in the region of what decides on it. -/
theorem Lower.optional_region {s₁ s₂ : State α} (ho : Open s₁)
    (ih₂ : Open (((s₁.reserve 2).jump {s₁.next, s₁.next + 1}).enter s₁.next) →
      Open s₂ ∧ Extends (((s₁.reserve 2).jump {s₁.next, s₁.next + 1}).enter s₁.next) s₂) :
    Region s₁ ((s₂.jump {s₁.next + 1}).enter (s₁.next + 1)) := by
  have hr₁ : Region s₁ _ := .split (k := 2) (T := {s₁.next, s₁.next + 1}) (b := s₁.next) ho
    (by simp) (by omega) (by omega)
  have hafter := Pending.split (k := 2) (b := s₁.next + 1) (c := s₁.next)
    (T := {s₁.next, s₁.next + 1}) ho (by omega) (by omega) (by omega)
  have hl₂ := ih₂ hr₁.isOpen
  have hr₂ := hr₁.lower ho.current_lt hl₂
  have hafter := hafter.lower hl₂.2
  exact Region.branch (T := {s₁.next + 1}) hr₂.isOpen hr₂.isExtension
    (by simpa using hafter.lt) (by omega) hafter

omit [DecidableEq α] in
/-- The last block of a conditional, in the region of its condition. -/
theorem Lower.ifElse_region {s₁ s₂ s₃ : State α} (ho : Open s₁)
    (ih₂ : Open (((s₁.reserve 3).jump {s₁.next, s₁.next + 1}).enter s₁.next) →
      Open s₂ ∧ Extends (((s₁.reserve 3).jump {s₁.next, s₁.next + 1}).enter s₁.next) s₂)
    (ih₃ : Open ((s₂.jump {s₁.next + 2}).enter (s₁.next + 1)) →
      Open s₃ ∧ Extends ((s₂.jump {s₁.next + 2}).enter (s₁.next + 1)) s₃) :
    Region s₁ ((s₃.jump {s₁.next + 2}).enter (s₁.next + 2)) := by
  have hlt := ho.current_lt
  have hr₁ : Region s₁ _ := .split (k := 3) (T := {s₁.next, s₁.next + 1}) (b := s₁.next) ho
    (by simp) (by omega) (by omega)
  have helse := Pending.split (k := 3) (b := s₁.next + 1) (c := s₁.next)
    (T := {s₁.next, s₁.next + 1}) ho (by omega) (by omega) (by omega)
  have hend := Pending.split (k := 3) (b := s₁.next + 2) (c := s₁.next)
    (T := {s₁.next, s₁.next + 1}) ho (by omega) (by omega) (by omega)
  have hl₂ := ih₂ hr₁.isOpen
  have hr₂ := hr₁.lower hlt hl₂
  -- Neither branch has been entered by the code of the first one.
  have helse := helse.lower hl₂.2
  have hend := hend.lower hl₂.2
  have hr₃ := Region.branch (T := {s₁.next + 2}) hr₂.isOpen hr₂.isExtension
    (by simpa using hend.lt) (by omega) helse
  have hend := hend.branch (T := {s₁.next + 2}) (c := s₁.next + 1) (by omega)
  have hl₃ := ih₃ hr₃.isOpen
  have hr₄ := hr₃.lower hlt hl₃
  have hend := hend.lower hl₃.2
  exact Region.branch (T := {s₁.next + 2}) hr₄.isOpen hr₄.isExtension
    (by simpa using hend.lt) (by omega) hend

omit [DecidableEq α] in
/-- The state in which the body of a loop is lowered. -/
theorem Lower.while_body {s₁ : State α} (ho : Open s)
    (hl₁ : Open s₁ ∧ Extends (((s.reserve 3).jump {s.next}).enter s.next) s₁) :
    Open ((s₁.jump {s.next + 1, s.next + 2}).enter (s.next + 1)) := by
  have hr₁ : Region s _ := .split (k := 3) (T := {s.next}) (b := s.next) ho
    (by simp) (by omega) (by omega)
  have hbody := (Pending.split (k := 3) (b := s.next + 1) (c := s.next) (T := {s.next}) ho
    (by omega) (by omega) (by omega)).lower hl₁.2
  have hend := (Pending.split (k := 3) (b := s.next + 2) (c := s.next) (T := {s.next}) ho
    (by omega) (by omega) (by omega)).lower hl₁.2
  have hr₂ := hr₁.lower ho.current_lt hl₁
  exact (Region.branch (T := {s.next + 1, s.next + 2}) hr₂.isOpen hr₂.isExtension
    (by simpa using ⟨hbody.lt, hend.lt⟩) (by omega) hbody).isOpen

omit [DecidableEq α] in
/-- The head of a loop over a sequence is pending when the sequence is lowered. -/
theorem Lower.forIn_head {s₁ : State α} (ho : Open s)
    (hl₁ : Open s₁ ∧ Extends (s.reserve 2) s₁) : Pending s₁ s.next := by
  have hlt := ho.current_lt
  exact Pending.lower ⟨by simp, by simp; omega, by simp [ho.blank]⟩ hl₁.2

/-- The state in which the body of a loop over a sequence is lowered. -/
theorem Lower.forIn_body (xs : List α) {s₁ : State α} (ho : Open s)
    (hl₁ : Open s₁ ∧ Extends (s.reserve 2) s₁) :
    Open ((((s₁.jump {s.next, s.next + 1}).enter s.next).phi [s.current]).bindAll xs) := by
  have hlt := ho.current_lt
  have hhead := Lower.forIn_head ho hl₁
  have hend : Pending s₁ (s.next + 1) :=
    Pending.lower ⟨by simp, by simp; omega, by simp [ho.blank]⟩ hl₁.2
  have hx₁ : Extends s s₁ := ((Extends.refl s).reserve 2).trans hlt hl₁.2
  exact (((Region.branch (T := {s.next, s.next + 1}) hl₁.1 hx₁
    (by simpa using ⟨hhead.lt, hend.lt⟩) (by omega) hhead).phi hlt [s.current]).bindAll xs).isOpen

omit [DecidableEq α] in
/-- The block after a loop. -/
theorem Lower.while_region {s₁ s₂ : State α} (ho : Open s)
    (ih₁ : Open (((s.reserve 3).jump {s.next}).enter s.next) →
      Open s₁ ∧ Extends (((s.reserve 3).jump {s.next}).enter s.next) s₁)
    (ih₂ : Open ((s₁.jump {s.next + 1, s.next + 2}).enter (s.next + 1)) →
      Open s₂ ∧ Extends ((s₁.jump {s.next + 1, s.next + 2}).enter (s.next + 1)) s₂) :
    Region s ((s₂.jump {s.next}).enter (s.next + 2)) := by
  have hlt := ho.current_lt
  have hr₁ : Region s _ := .split (k := 3) (T := {s.next}) (b := s.next) ho
    (by simp) (by omega) (by omega)
  have hbody := Pending.split (k := 3) (b := s.next + 1) (c := s.next) (T := {s.next}) ho
    (by omega) (by omega) (by omega)
  have hend := Pending.split (k := 3) (b := s.next + 2) (c := s.next) (T := {s.next}) ho
    (by omega) (by omega) (by omega)
  have hl₁ := ih₁ hr₁.isOpen
  have hr₂ := hr₁.lower hlt hl₁
  have hbody := hbody.lower hl₁.2
  have hend := hend.lower hl₁.2
  have hr₃ := Region.branch (T := {s.next + 1, s.next + 2}) hr₂.isOpen hr₂.isExtension
    (by simpa using ⟨hbody.lt, hend.lt⟩) (by omega) hbody
  have hend := hend.branch (T := {s.next + 1, s.next + 2}) (c := s.next + 1) (by omega)
  have hl₂ := ih₂ hr₃.isOpen
  have hr₄ := hr₃.lower hlt hl₂
  have hend := hend.lower hl₂.2
  have hhead : s.next < s₂.next := by have := hend.lt; omega
  exact Region.branch (T := {s.next}) hr₄.isOpen hr₄.isExtension
    (by simpa using hhead) (by omega) hend

/-- The block after a loop over a sequence. -/
theorem Lower.forIn_region {xs : List α} {s₁ s₂ : State α} (ho : Open s)
    (ih₁ : Open (s.reserve 2) → Open s₁ ∧ Extends (s.reserve 2) s₁)
    (ih₂ : Open ((((s₁.jump {s.next, s.next + 1}).enter s.next).phi [s.current]).bindAll xs) →
      Open s₂ ∧ Extends
        ((((s₁.jump {s.next, s.next + 1}).enter s.next).phi [s.current]).bindAll xs) s₂) :
    Region s
      (((s₂.jump {s.next, s.next + 1}).addIncoming s.next s₂.current).enter (s.next + 1)) := by
  have hlt := ho.current_lt
  have hhead : Pending (s.reserve 2) s.next := ⟨by simp, by simp; omega, by simp [ho.blank]⟩
  have hend : Pending (s.reserve 2) (s.next + 1) := ⟨by simp, by simp; omega, by simp [ho.blank]⟩
  have hl₁ := ih₁ (ho.reserve 2)
  have hx₁ : Extends s s₁ := ((Extends.refl s).reserve 2).trans hlt hl₁.2
  have hhead := hhead.lower hl₁.2
  have hend := hend.lower hl₁.2
  have hr₂ := ((Region.branch (T := {s.next, s.next + 1}) hl₁.1 hx₁
    (by simpa using ⟨hhead.lt, hend.lt⟩) (by omega) hhead).phi hlt [s.current]).bindAll xs
  have hend := hend.branch (T := {s.next, s.next + 1}) (c := s.next) (by omega)
  have hend : Pending
      ((((s₁.jump {s.next, s.next + 1}).enter s.next).phi [s.current]).bindAll xs) (s.next + 1) :=
    ⟨hend.lt, hend.ne, by
      rw [State.bindAll_blocks, State.phi_blocks, if_neg hend.ne, hend.blank]⟩
  have hl₂ := ih₂ hr₂.isOpen
  have hr₃ := hr₂.lower hlt hl₂
  have hend := hend.lower hl₂.2
  have hhead : s.next < s₂.next := by have := hend.lt; omega
  have hr₄ := (Region.branch (T := {s.next, s.next + 1}) hr₃.isOpen hr₃.isExtension
    (by simpa using ⟨hhead, hend.lt⟩) (by omega) hend).addIncoming hlt (Nat.le_refl _) hhead
      s₂.current
  exact ⟨hr₄.isOpen, hr₄.isExtension, hr₄.inside⟩

/-- Lowering keeps the graph open, and only extends it. -/
theorem Lower.frame (h : Lower f s s') : Open s → Open s' ∧ Extends s s' := by
  induction h with
  | skip s k => exact fun ho => ⟨ho.alloc k, (Extends.refl s).alloc k⟩
  -- The parts that end no block stay where they are, the others end in a region of their own.
  | seq _ _ ih₁ ih₂ =>
      intro ho
      obtain ⟨ho₁, hx₁⟩ := ih₁ ho
      obtain ⟨ho₂, hx₂⟩ := ih₂ ho₁
      exact ⟨ho₂, hx₁.trans ho.current_lt hx₂⟩
  | bind s x => exact fun ho => ⟨ho.setEnv x _, (Extends.refl s).setEnv x _⟩
  | declare s x => exact fun ho => ⟨ho.declare x, (Extends.refl s).declare x⟩
  | @read s x l _ =>
      exact fun ho => ⟨(ho.emit _).mention x l, ((Extends.refl s).emit _).mention x l⟩
  | @mention s x l _ => exact fun ho => ⟨ho.mention x l, (Extends.refl s).mention x l⟩
  | trap s =>
      intro ho
      have hr : Region s _ := .split (k := 2) (T := {s.next, s.next + 1}) ho (by simp)
        (b := s.next + 1) (by omega) (by omega)
      exact ⟨hr.isOpen, hr.isExtension⟩
  | @shortCircuit _ _ s s₁ s₂ _ _ ih₁ ih₂ =>
      intro ho
      obtain ⟨ho₁, hx₁⟩ := ih₁ ho
      have hr := (Lower.optional_region ho₁ ih₂).phi ho₁.current_lt [s₂.current, s₁.current]
      exact ⟨hr.isOpen, hx₁.trans ho.current_lt hr.isExtension⟩
  | @ifElse _ _ _ s s₁ s₂ s₃ _ _ _ ih₁ ih₂ ih₃ =>
      intro ho
      obtain ⟨ho₁, hx₁⟩ := ih₁ ho
      have hr := Lower.ifElse_region ho₁ ih₂ ih₃
      exact ⟨hr.isOpen, hx₁.trans ho.current_lt hr.isExtension⟩
  | @ifElsePhi _ _ _ s s₁ s₂ s₃ _ _ _ ih₁ ih₂ ih₃ =>
      intro ho
      obtain ⟨ho₁, hx₁⟩ := ih₁ ho
      have hr := (Lower.ifElse_region ho₁ ih₂ ih₃).phi ho₁.current_lt [s₂.current, s₃.current]
      exact ⟨hr.isOpen, hx₁.trans ho.current_lt hr.isExtension⟩
  | @ifThen _ _ s s₁ s₂ _ _ ih₁ ih₂ =>
      intro ho
      obtain ⟨ho₁, hx₁⟩ := ih₁ ho
      have hr := Lower.optional_region ho₁ ih₂
      exact ⟨hr.isOpen, hx₁.trans ho.current_lt hr.isExtension⟩
  | @«while» _ _ s s₁ s₂ _ _ ih₁ ih₂ =>
      intro ho
      have hr := Lower.while_region ho ih₁ ih₂
      exact ⟨hr.isOpen, hr.isExtension⟩
  | @forIn _ xs _ s s₁ s₂ _ _ ih₁ ih₂ =>
      intro ho
      have hr := Lower.forIn_region ho ih₁ ih₂
      exact ⟨hr.isOpen, hr.isExtension⟩

/-! ### Ending a block -/

/-- Whether lowering the tree ends the block that it starts in. -/
def Tree.splits : Tree α → Bool
  | .skip | .bind _ | .declare _ | .read _ | .mention _ => false
  | .seq f g => f.splits || g.splits
  | .trap | .shortCircuit _ _ | .ifElse _ _ _ | .ifThen _ _ | .while _ _ | .forIn _ _ _ => true

/-- A tree without a construct that ends a block goes on in its block. -/
theorem Lower.current_eq (h : Lower f s s') : f.splits = false → s'.current = s.current := by
  induction h with
  | skip | bind | declare | read | mention => exact fun _ => rfl
  | seq _ _ ih₁ ih₂ =>
      intro hns
      rw [Tree.splits, Bool.or_eq_false_iff] at hns
      rw [ih₂ hns.2, ih₁ hns.1]
  | _ => intro hns; simp [Tree.splits] at hns

/-- A tree that ends the block it starts in goes on in a new one. -/
theorem Lower.next_le_current (h : Lower f s s') :
    Open s → f.splits = true → s.next ≤ s'.current := by
  induction h with
  | skip | bind | declare | read | mention => intro _ hs; simp [Tree.splits] at hs
  | @seq f g s s₁ s₂ h₁ h₂ ih₁ ih₂ =>
      intro ho hs
      obtain ⟨ho₁, hx₁⟩ := h₁.frame ho
      have hle := hx₁.next_le
      rw [Tree.splits, Bool.or_eq_true] at hs
      rcases hs with hs | hs
      · have hge := ih₁ ho hs
        rcases (h₂.frame ho₁).2.current with heq | hge' <;> omega
      · exact Nat.le_trans hle (ih₂ ho₁ hs)
  | trap s => exact fun _ _ => Nat.le_succ _
  | shortCircuit h₁ _ _ _ | ifElse h₁ _ _ _ _ _ | ifElsePhi h₁ _ _ _ _ _ | ifThen h₁ _ _ _ =>
      intro ho _
      have hle := (h₁.frame ho).2.next_le
      simp only [State.enter_current, State.phi_current]
      omega
  | «while» | forIn => intro _ _; simp

end Flow
