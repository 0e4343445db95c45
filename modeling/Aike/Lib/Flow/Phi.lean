import Aike.Lib.Flow.Frame

/-!
# `Aike.Lib.Flow.Phi`: PHI nodes list the predecessors of their block

A PHI node has to list the predecessors of its own block, each once (`Matched`).
The short-circuit operators and the conditional list the blocks that were
current after their operands were lowered, and those are the predecessors. The
loop over a sequence lists the block that was current before its sequence was
lowered, which is right only when the sequence ends no block.

`Lower.matched_iff` is the exact statement: all PHI nodes match exactly when no
loop in the tree is over a sequence that ends a block (`Tree.plainSequences`).
-/

set_option autoImplicit false

namespace Flow

variable {α : Type}

/-- Every PHI node of the block lists exactly the predecessors of the block, each
once. -/
def Matched (s : State α) (b : Nat) : Prop :=
  ∀ p ∈ (s.blocks b).phis, p.Nodup ∧ ∀ a, a ∈ p ↔ b ∈ (s.blocks a).succ

/-- The PHI nodes of the blocks from `n` on match. -/
def MatchedFrom (s : State α) (n : Nat) : Prop := ∀ b, n ≤ b → Matched s b

/-- No loop is over a sequence that ends a block. -/
def Tree.plainSequences : Tree α → Prop
  | .skip | .bind _ | .declare _ | .read _ | .mention _ | .trap => True
  | .seq f g | .shortCircuit f g | .ifThen f g | .while f g =>
      f.plainSequences ∧ g.plainSequences
  | .ifElse c t e => c.plainSequences ∧ t.plainSequences ∧ e.plainSequences
  | .forIn q _ b => q.splits = false ∧ q.plainSequences ∧ b.plainSequences

section Matched

variable {s t : State α} {b m n : Nat}

/-- A block without PHI nodes matches. -/
theorem matched_of_phis_nil (h : (s.blocks b).phis = []) : Matched s b := by
  simp [Matched, h]

/-- There is nothing in blocks that are not reserved. -/
theorem matchedFrom_next (h : Open s) : MatchedFrom s s.next := fun b hb =>
  matched_of_phis_nil (by rw [h.blank b hb])

/-- One block more. -/
theorem matchedFrom_succ : MatchedFrom s n ↔ Matched s n ∧ MatchedFrom s (n + 1) := by
  constructor
  · exact fun h => ⟨h n (Nat.le_refl _), fun b hb => h b (by omega)⟩
  · rintro ⟨hn, h⟩ b hb
    rcases Nat.eq_or_lt_of_le hb with rfl | hlt
    · exact hn
    · exact h b hlt

/-- An extension leaves the PHI nodes of older blocks. -/
theorem Extends.phis_eq (h : Extends s t) (hb : b < s.next) :
    (t.blocks b).phis = (s.blocks b).phis := by
  by_cases hne : b = s.current
  · rw [hne, h.phis]
  · rw [h.blocks b hb hne]

/-- Code that is added later does not give a block more predecessors. -/
theorem Extends.mem_succ_iff (h : Extends s t) (hb : b < s.next) (a : Nat) :
    b ∈ (t.blocks a).succ ↔ b ∈ (s.blocks a).succ := by
  constructor
  · intro hab
    rcases h.edges a b hab with hab | ⟨hge, -⟩
    · exact hab
    · omega
  · exact fun hab => h.succ_subset a hab

/-- It leaves their predecessors too: a new edge leads into a new block. -/
theorem Extends.matched_iff (h : Extends s t) (hb : b < s.next) : Matched t b ↔ Matched s b := by
  simp only [Matched, h.phis_eq hb, h.mem_succ_iff hb]

/-- What was lowered first matches in the end if it matched at first. -/
theorem Extends.matchedFrom_iff (ho : Open s) (h : Extends s t) (hm : m ≤ s.next) :
    MatchedFrom t m ↔ MatchedFrom s m ∧ MatchedFrom t s.next := by
  constructor
  · intro ht
    refine ⟨fun b hb => ?_, fun b hb => ht b (Nat.le_trans hm hb)⟩
    by_cases hlt : b < s.next
    · exact (h.matched_iff hlt).mp (ht b hb)
    · exact matchedFrom_next ho b (by omega)
  · rintro ⟨hs, ht⟩ b hb
    by_cases hlt : b < s.next
    · exact (h.matched_iff hlt).mpr (hs b hb)
    · exact ht b (by omega)

/-- The PHI nodes of a block are those it had when a tree was lowered, if it was
reserved then. -/
theorem phis_eq_nil_of_lower (hx : Extends s t) (hn : n < s.next)
    (hblank : (s.blocks n).phis = []) : (t.blocks n).phis = [] := by
  rw [hx.phis_eq hn, hblank]

/-- Nothing leads to a block that is not reserved. -/
theorem not_mem_succ_of_next_le (ho : Open s) {a : Nat} (hn : s.next ≤ n) :
    n ∉ (s.blocks a).succ := fun h => by
  have := ho.succ_lt a n h
  omega

/-- A jump matters to the blocks it leads to. -/
theorem matched_jump_iff {T : Set Nat} (ho : (s.blocks s.current).succ = ∅) (hb : b ∉ T) :
    Matched (s.jump T) b ↔ Matched s b := by
  have hsucc : ∀ a, b ∈ ((s.jump T).blocks a).succ ↔ b ∈ (s.blocks a).succ := by
    intro a
    rw [jump_succ]
    split
    case isTrue ha => simp [ha, ho, hb]
    case isFalse => rfl
  simp only [Matched, jump_phis, hsucc]

/-- A PHI of the current block is no PHI of another one. -/
theorem matched_phi_iff {p : List Nat} (hb : b ≠ s.current) :
    Matched (s.phi p) b ↔ Matched s b := by
  have hphis : ((s.phi p).blocks b).phis = (s.blocks b).phis := by
    rw [State.phi_blocks, if_neg hb]
  simp only [Matched, hphis, phi_succ]

/-- Nor is a further edge of one. -/
theorem matched_addIncoming_iff {c p : Nat} (hb : b ≠ c) :
    Matched (s.addIncoming c p) b ↔ Matched s b := by
  have hphis : ((s.addIncoming c p).blocks b).phis = (s.blocks b).phis := by
    rw [State.addIncoming_blocks, if_neg hb]
  simp only [Matched, hphis, addIncoming_succ]

/-- The current block jumps to a block that one other block leads to. A PHI node of the two
matches there. -/
theorem matched_meet {a : Nat} {p : List Nat} (hblank : (s.blocks b).phis = [])
    (hsucc : ∀ c, b ∈ (s.blocks c).succ ↔ c = a) (hnodup : p.Nodup)
    (hmem : ∀ c, c ∈ p ↔ c = s.current ∨ c = a) :
    Matched (((s.jump {b}).enter b).phi p) b := by
  have hphis : ((((s.jump {b}).enter b).phi p).blocks b).phis = [p] := by
    rw [State.phi_blocks, State.enter_current, if_pos rfl]
    show (((s.jump {b}).blocks b).phis ++ _) = _
    rw [jump_phis, hblank]
    rfl
  intro q hq
  rw [hphis, List.mem_singleton] at hq
  subst hq
  refine ⟨hnodup, fun c => ?_⟩
  rw [phi_succ, State.enter_blocks, jump_succ, hmem]
  split
  case isTrue hc => simp [hc]
  case isFalse hc => rw [hsucc, or_iff_right hc]

end Matched

/-! ### The constructs -/

variable [DecidableEq α] {f g c t e b q : Tree α} {xs : List α} {s s' s₁ s₂ s₃ : State α}

/-- A short-circuit operator lists the block after its left side and the block
after its right side, and those two jump to the block of the PHI node. -/
theorem matchedFrom_shortCircuit (ho : Open s₁)
    (hr : Lower g (((s₁.reserve 2).jump {s₁.next, s₁.next + 1}).enter s₁.next) s₂) :
    MatchedFrom (((s₂.jump {s₁.next + 1}).enter (s₁.next + 1)).phi [s₂.current, s₁.current])
        s₁.next
      ↔ MatchedFrom s₂ (s₁.next + 2) := by
  have hlt := ho.current_lt
  have hu : Region s₁ _ := .split (k := 2) (T := {s₁.next, s₁.next + 1}) (b := s₁.next) ho
    (by simp) (by omega) (by omega)
  obtain ⟨ho₂, hx₂⟩ := hr.frame hu.isOpen
  have hcur₂ := (hu.lower hlt ⟨ho₂, hx₂⟩).inside
  have hafter : Pending s₂ (s₁.next + 1) := (Pending.split (k := 2) (c := s₁.next) ho (by omega)
    (by omega) (by omega)).lower hx₂
  have hnext : Matched (((s₂.jump {s₁.next + 1}).enter (s₁.next + 1)).phi
      [s₂.current, s₁.current]) s₁.next := by
    rw [matched_phi_iff (by simp)]
    refine matched_of_phis_nil ?_
    rw [State.enter_blocks, jump_phis]
    refine phis_eq_nil_of_lower hx₂ (by simp) ?_
    rw [State.enter_blocks, jump_phis, State.reserve_blocks, ho.blank _ (Nat.le_refl _)]
  -- Its end is reached from the left side, and now from the right side.
  have hsucc : ∀ a, s₁.next + 1 ∈ (s₂.blocks a).succ ↔ a = s₁.current := by
    intro a
    rw [hx₂.mem_succ_iff (by simp)]
    simp only [State.enter_blocks, jump_succ, State.reserve_current, State.reserve_blocks]
    split
    case isTrue ha => simp [ha]
    case isFalse ha =>
      refine iff_of_false (fun hmem => ?_) ha
      exact not_mem_succ_of_next_le ho (Nat.le_succ _) hmem
  have hphi : Matched (((s₂.jump {s₁.next + 1}).enter (s₁.next + 1)).phi
      [s₂.current, s₁.current]) (s₁.next + 1) :=
    matched_meet (by rw [hafter.blank]) hsucc (by simp; omega) (by simp)
  rw [matchedFrom_succ, matchedFrom_succ]
  simp only [hnext, hphi, true_and]
  refine forall₂_congr fun b hb => ?_
  rw [matched_phi_iff (by simp; omega)]
  exact matched_jump_iff ho₂.succ_current (by simp; omega)

section IfElse

variable (ho : Open s₁)
  (ht : Lower t (((s₁.reserve 3).jump {s₁.next, s₁.next + 1}).enter s₁.next) s₂)
  (he : Lower e ((s₂.jump {s₁.next + 2}).enter (s₁.next + 1)) s₃)

include ho ht he

/-- The states after the branches of a conditional. -/
theorem ifElse_frames :
    Extends (((s₁.reserve 3).jump {s₁.next, s₁.next + 1}).enter s₁.next) s₂
      ∧ Open ((s₂.jump {s₁.next + 2}).enter (s₁.next + 1))
      ∧ Extends ((s₂.jump {s₁.next + 2}).enter (s₁.next + 1)) s₃ ∧ Open s₂ ∧ Open s₃ := by
  have hu : Region s₁ _ := .split (k := 3) (T := {s₁.next, s₁.next + 1}) (b := s₁.next) ho
    (by simp) (by omega) (by omega)
  obtain ⟨ho₂, hx₂⟩ := ht.frame hu.isOpen
  have hv := Lower.ifElse_else ho ⟨ho₂, hx₂⟩
  obtain ⟨ho₃, hx₃⟩ := he.frame hv
  exact ⟨hx₂, hv, hx₃, ho₂, ho₃⟩

/-- The three blocks of a conditional have no PHI nodes before the last is
entered. -/
theorem phis_ifElse {i : Nat} (hi : i < 3) : (s₃.blocks (s₁.next + i)).phis = [] := by
  obtain ⟨hx₂, -, hx₃, -, -⟩ := ifElse_frames ho ht he
  have hle := hx₂.next_le
  simp only [State.enter_next, State.jump_next, State.reserve_next] at hle
  refine phis_eq_nil_of_lower hx₃ (by simp; omega) ?_
  rw [State.enter_blocks, jump_phis]
  refine phis_eq_nil_of_lower hx₂ (by simpa using hi) ?_
  rw [State.enter_blocks, jump_phis, State.reserve_blocks, ho.blank _ (by omega)]

/-- The branches of a conditional match when they did when they were lowered. -/
theorem matchedFrom_branches :
    MatchedFrom ((s₃.jump {s₁.next + 2}).enter (s₁.next + 2)) (s₁.next + 3)
      ↔ MatchedFrom s₂ (s₁.next + 3) ∧ MatchedFrom s₃ s₂.next := by
  obtain ⟨hx₂, hov, hx₃, ho₂, ho₃⟩ := ifElse_frames ho ht he
  have hle := hx₂.next_le
  simp only [State.enter_next, State.jump_next, State.reserve_next] at hle
  have h₃ : MatchedFrom ((s₃.jump {s₁.next + 2}).enter (s₁.next + 2)) (s₁.next + 3)
      ↔ MatchedFrom s₃ (s₁.next + 3) :=
    forall₂_congr fun b hb => matched_jump_iff ho₃.succ_current (by simp; omega)
  have h₂ : MatchedFrom ((s₂.jump {s₁.next + 2}).enter (s₁.next + 1)) (s₁.next + 3)
      ↔ MatchedFrom s₂ (s₁.next + 3) :=
    forall₂_congr fun b hb => matched_jump_iff ho₂.succ_current (by simp; omega)
  rw [h₃, hx₃.matchedFrom_iff hov (by simpa using hle), h₂]
  rfl

/-- A branch with an `else` has its blocks, and those of the two bodies. Its own have no
PHI here, as this one is added behind. -/
theorem matchedFrom_ifElse :
    MatchedFrom ((s₃.jump {s₁.next + 2}).enter (s₁.next + 2)) s₁.next
      ↔ MatchedFrom s₂ (s₁.next + 3) ∧ MatchedFrom s₃ s₂.next := by
  have hnil : ∀ i < 3, Matched ((s₃.jump {s₁.next + 2}).enter (s₁.next + 2)) (s₁.next + i) :=
    fun i hi => matched_of_phis_nil (by
      rw [State.enter_blocks, jump_phis, phis_ifElse ho ht he hi])
  have h₀ := hnil 0 (by omega)
  have h₁ := hnil 1 (by omega)
  have h₂ := hnil 2 (by omega)
  rw [← matchedFrom_branches ho ht he, matchedFrom_succ, matchedFrom_succ, matchedFrom_succ]
  simp only [Nat.add_zero] at h₀
  simp only [h₀, h₁, h₂, true_and]

/-- A conditional with a value lists the blocks after its branches. -/
theorem matchedFrom_ifElsePhi :
    MatchedFrom (((s₃.jump {s₁.next + 2}).enter (s₁.next + 2)).phi [s₂.current, s₃.current])
        s₁.next
      ↔ MatchedFrom s₂ (s₁.next + 3) ∧ MatchedFrom s₃ s₂.next := by
  obtain ⟨hx₂, hov, hx₃, ho₂, ho₃⟩ := ifElse_frames ho ht he
  have hle := hx₂.next_le
  have hlt₂ := ho₂.current_lt
  have hcur₂ := hx₂.current
  have hcur₃ := hx₃.current
  simp only [State.enter_next, State.enter_current, State.jump_next, State.reserve_next]
    at hle hcur₂ hcur₃
  -- The blocks of the two branches have no PHI nodes.
  have hnil : ∀ i < 2, Matched (((s₃.jump {s₁.next + 2}).enter (s₁.next + 2)).phi
      [s₂.current, s₃.current]) (s₁.next + i) := fun i hi => by
    rw [matched_phi_iff (by simp; omega)]
    exact matched_of_phis_nil (by
      rw [State.enter_blocks, jump_phis, phis_ifElse ho ht he (by omega)])
  -- The end is reached from the then branch, and now from the else branch.
  have hsucc : ∀ a, s₁.next + 2 ∈ (s₃.blocks a).succ ↔ a = s₂.current := by
    intro a
    rw [hx₃.mem_succ_iff (by simp; omega), State.enter_blocks, jump_succ]
    split
    case isTrue ha => simp [ha]
    case isFalse ha =>
      refine iff_of_false (fun hmem => ?_) ha
      rw [hx₂.mem_succ_iff (by simp), State.enter_blocks, jump_succ] at hmem
      split at hmem
      · simp at hmem
      · exact not_mem_succ_of_next_le ho (by omega) hmem
  have hphi : Matched (((s₃.jump {s₁.next + 2}).enter (s₁.next + 2)).phi
      [s₂.current, s₃.current]) (s₁.next + 2) :=
    matched_meet (phis_ifElse ho ht he (by omega)) hsucc (by simp; omega) (by simp [or_comm])
  have h₀ := hnil 0 (by omega)
  have h₁ := hnil 1 (by omega)
  rw [← matchedFrom_branches ho ht he, matchedFrom_succ, matchedFrom_succ, matchedFrom_succ]
  simp only [Nat.add_zero] at h₀
  simp only [h₀, h₁, hphi, true_and]
  exact forall₂_congr fun b hb => matched_phi_iff (by simp; omega)

end IfElse

/-- A branch without an `else` has its blocks and those of the body. -/
theorem matchedFrom_ifThen (ho : Open s₁)
    (ht : Lower t (((s₁.reserve 2).jump {s₁.next, s₁.next + 1}).enter s₁.next) s₂) :
    MatchedFrom ((s₂.jump {s₁.next + 1}).enter (s₁.next + 1)) s₁.next
      ↔ MatchedFrom s₂ (s₁.next + 2) := by
  have hu : Region s₁ _ := .split (k := 2) (T := {s₁.next, s₁.next + 1}) (b := s₁.next) ho
    (by simp) (by omega) (by omega)
  obtain ⟨ho₂, hx₂⟩ := ht.frame hu.isOpen
  have hnil : ∀ i < 2, Matched ((s₂.jump {s₁.next + 1}).enter (s₁.next + 1)) (s₁.next + i) :=
    fun i hi => matched_of_phis_nil (by
      rw [State.enter_blocks, jump_phis]
      refine phis_eq_nil_of_lower hx₂ (by simpa using hi) ?_
      rw [State.enter_blocks, jump_phis, State.reserve_blocks, ho.blank _ (by omega)])
  have h₀ := hnil 0 (by omega)
  have h₁ := hnil 1 (by omega)
  rw [matchedFrom_succ, matchedFrom_succ]
  simp only [Nat.add_zero] at h₀
  simp only [h₀, h₁, true_and]
  exact forall₂_congr fun b hb => matched_jump_iff ho₂.succ_current (by simp; omega)

/-- A loop has its blocks, those of the condition and those of the body. -/
theorem matchedFrom_while (ho : Open s)
    (hc : Lower c (((s.reserve 3).jump {s.next}).enter s.next) s₁)
    (hb : Lower b ((s₁.jump {s.next + 1, s.next + 2}).enter (s.next + 1)) s₂) :
    MatchedFrom ((s₂.jump {s.next}).enter (s.next + 2)) s.next
      ↔ MatchedFrom s₁ (s.next + 3) ∧ MatchedFrom s₂ s₁.next := by
  have hu : Region s _ := .split (k := 3) (T := {s.next}) (b := s.next) ho
    (by simp) (by omega) (by omega)
  obtain ⟨ho₁, hx₁⟩ := hc.frame hu.isOpen
  have hbody := (Pending.split (k := 3) (b := s.next + 1) (c := s.next) (T := {s.next}) ho
    (by omega) (by omega) (by omega)).lower hx₁
  have hend := (Pending.split (k := 3) (b := s.next + 2) (c := s.next) (T := {s.next}) ho
    (by omega) (by omega) (by omega)).lower hx₁
  have hr₁ := hu.lower ho.current_lt ⟨ho₁, hx₁⟩
  have hv := Region.branch (T := {s.next + 1, s.next + 2}) hr₁.isOpen hr₁.isExtension
    (by simpa using ⟨hbody.lt, hend.lt⟩) (b := s.next + 1) (by omega) hbody
  obtain ⟨ho₂, hx₂⟩ := hb.frame hv.isOpen
  have hle := hx₁.next_le
  simp only [State.enter_next, State.jump_next, State.reserve_next] at hle
  -- None of the three blocks of the loop has a PHI node.
  have hnil : ∀ i < 3, Matched ((s₂.jump {s.next}).enter (s.next + 2)) (s.next + i) :=
    fun i hi => matched_of_phis_nil (by
      rw [State.enter_blocks, jump_phis]
      refine phis_eq_nil_of_lower hx₂ (by simp; omega) ?_
      rw [State.enter_blocks, jump_phis]
      refine phis_eq_nil_of_lower hx₁ (by simpa using hi) ?_
      rw [State.enter_blocks, jump_phis, State.reserve_blocks, ho.blank _ (by omega)])
  have h₀ := hnil 0 (by omega)
  have h₁ := hnil 1 (by omega)
  have h₂ := hnil 2 (by omega)
  -- The jump back leads to the condition, and the one after it to the body and the end.
  have hlast : MatchedFrom ((s₂.jump {s.next}).enter (s.next + 2)) (s.next + 3)
      ↔ MatchedFrom s₂ (s.next + 3) :=
    forall₂_congr fun b hb => matched_jump_iff ho₂.succ_current (by simp; omega)
  have hcond : MatchedFrom ((s₁.jump {s.next + 1, s.next + 2}).enter (s.next + 1)) (s.next + 3)
      ↔ MatchedFrom s₁ (s.next + 3) :=
    forall₂_congr fun b hb => matched_jump_iff ho₁.succ_current (by simp; omega)
  rw [matchedFrom_succ, matchedFrom_succ, matchedFrom_succ]
  simp only [Nat.add_zero] at h₀
  simp only [h₀, h₁, h₂, true_and]
  rw [hlast, hx₂.matchedFrom_iff hv.isOpen (by simpa using hle), hcond]
  rfl

/-- A loop over a sequence lists the block before the sequence was lowered and
the block after the body, and it is the block after the sequence that jumps to
the loop. -/
theorem matchedFrom_forIn (ho : Open s) (hq : Lower q (s.reserve 2) s₁)
    (hb : Lower b ((((s₁.jump {s.next, s.next + 1}).enter s.next).phi [s.current]).bindAll xs) s₂) :
    MatchedFrom
        (((s₂.jump {s.next, s.next + 1}).addIncoming s.next s₂.current).enter (s.next + 1)) s.next
      ↔ s₁.current = s.current ∧ MatchedFrom s₁ (s.next + 2) ∧ MatchedFrom s₂ s₁.next := by
  have hlt := ho.current_lt
  obtain ⟨ho₁, hx₁⟩ := hq.frame (ho.reserve 2)
  have hx : Extends s s₁ := ((Extends.refl s).reserve 2).trans hlt hx₁
  have hle := hx₁.next_le
  have hlt₁ := ho₁.current_lt
  have hhead : Pending s₁ s.next :=
    Pending.lower ⟨by simp, by simp; omega, by simp [ho.blank]⟩ hx₁
  have hend : Pending s₁ (s.next + 1) :=
    Pending.lower ⟨by simp, by simp; omega, by simp [ho.blank]⟩ hx₁
  have hv := ((Region.branch (T := {s.next, s.next + 1}) ho₁ hx
    (by simpa using ⟨hhead.lt, hend.lt⟩) (by omega) hhead).phi hlt [s.current]).bindAll xs
  obtain ⟨ho₂, hx₂⟩ := hb.frame hv.isOpen
  have hcur₂ := hx₂.current
  simp only [State.reserve_next] at hle
  simp only [State.bindAll_current, State.phi_current, State.enter_current, State.bindAll_next,
    State.phi_next, State.enter_next, State.jump_next] at hcur₂
  have hphisv : ((((s₁.jump {s.next, s.next + 1}).enter s.next).phi [s.current]).blocks
      s.next).phis = [[s.current]] := by
    rw [State.phi_blocks, State.enter_current, if_pos rfl]
    show (((s₁.jump {s.next, s.next + 1}).blocks s.next).phis ++ _) = _
    rw [jump_phis, hhead.blank]
    rfl
  -- The PHI node lists the block before the range, and then that at the end of the body.
  have hphis : ((((s₂.jump {s.next, s.next + 1}).addIncoming s.next s₂.current).enter
      (s.next + 1)).blocks s.next).phis = [[s.current, s₂.current]] := by
    rw [State.enter_blocks, State.addIncoming_blocks, if_pos rfl]
    show List.map _ ((s₂.jump {s.next, s.next + 1}).blocks s.next).phis = _
    rw [jump_phis, hx₂.phis_eq (by simp; omega), State.bindAll_blocks, hphisv]
    rfl
  -- The body is entered from the block after the range.
  have hsucc : ∀ a, s.next ∈ (s₂.blocks a).succ ↔ a = s₁.current := by
    intro a
    rw [hx₂.mem_succ_iff (by simp; omega), State.bindAll_blocks, phi_succ, State.enter_blocks,
      jump_succ]
    split
    case isTrue ha => simp [ha]
    case isFalse ha =>
      refine iff_of_false (fun hmem => ?_) ha
      rw [hx₁.mem_succ_iff (by simp)] at hmem
      exact not_mem_succ_of_next_le ho (Nat.le_refl _) hmem
  -- So it matches exactly if the range has ended no block.
  have hloop : Matched (((s₂.jump {s.next, s.next + 1}).addIncoming s.next s₂.current).enter
      (s.next + 1)) s.next ↔ s₁.current = s.current := by
    have hmatched : Matched (((s₂.jump {s.next, s.next + 1}).addIncoming s.next
        s₂.current).enter (s.next + 1)) s.next
          ↔ [s.current, s₂.current].Nodup
            ∧ ∀ a, a ∈ [s.current, s₂.current] ↔ a = s₂.current ∨ a = s₁.current := by
      rw [Matched, hphis, List.forall_mem_singleton]
      refine and_congr_right fun _ => forall_congr' fun a => ?_
      rw [State.enter_blocks, addIncoming_succ, jump_succ]
      split
      case isTrue ha => simp [ha]
      case isFalse ha => rw [hsucc, or_iff_right ha]
    rw [hmatched]
    constructor
    · rintro ⟨-, h⟩
      have hcur := (h s.current).mp (by simp)
      rcases hcur with heq | heq <;> omega
    · intro heq
      refine ⟨by simp; omega, fun a => ?_⟩
      rw [heq]
      simp [or_comm]
  have hnil : Matched (((s₂.jump {s.next, s.next + 1}).addIncoming s.next s₂.current).enter
      (s.next + 1)) (s.next + 1) := by
    refine matched_of_phis_nil ?_
    rw [State.enter_blocks, State.addIncoming_blocks, if_neg (by omega), jump_phis]
    refine phis_eq_nil_of_lower hx₂ (by simpa using hend.lt) ?_
    rw [State.bindAll_blocks, State.phi_blocks, State.enter_current, if_neg (by omega),
      State.enter_blocks, jump_phis, hend.blank]
  have hlast : MatchedFrom (((s₂.jump {s.next, s.next + 1}).addIncoming s.next
      s₂.current).enter (s.next + 1)) (s.next + 2) ↔ MatchedFrom s₂ (s.next + 2) :=
    forall₂_congr fun b hb => by
      show Matched ((s₂.jump {s.next, s.next + 1}).addIncoming s.next s₂.current) b ↔ _
      rw [matched_addIncoming_iff (by omega),
        matched_jump_iff ho₂.succ_current (by simp; omega)]
  have hseq : MatchedFrom ((((s₁.jump {s.next, s.next + 1}).enter s.next).phi
      [s.current]).bindAll xs) (s.next + 2) ↔ MatchedFrom s₁ (s.next + 2) :=
    forall₂_congr fun b hb => by
      show Matched (((s₁.jump {s.next, s.next + 1}).enter s.next).phi [s.current]) b ↔ _
      rw [matched_phi_iff (by simp; omega)]
      exact matched_jump_iff ho₁.succ_current (by simp; omega)
  rw [matchedFrom_succ, matchedFrom_succ, hloop, hlast,
    hx₂.matchedFrom_iff hv.isOpen (by simpa using hle), hseq]
  simp only [hnil, true_and]
  rfl

/-! ### The whole tree -/

/-- **PHI nodes.** Those of the blocks that lowering a tree adds match exactly
when no loop in the tree is over a sequence that ends a block. -/
theorem Lower.matched_iff (h : Lower f s s') :
    Open s → (MatchedFrom s' s.next ↔ f.plainSequences) := by
  induction h with
  | skip s k => exact fun ho => iff_of_true (matchedFrom_next (ho.alloc k)) trivial
  | bind s x => exact fun ho => iff_of_true (matchedFrom_next (ho.setEnv x .value)) trivial
  | declare s x => exact fun ho => iff_of_true (matchedFrom_next (ho.declare x)) trivial
  | @read s x l _ =>
      exact fun ho => iff_of_true (matchedFrom_next ((ho.emit l.events).mention x l)) trivial
  | @mention s x l _ => exact fun ho => iff_of_true (matchedFrom_next (ho.mention x l)) trivial
  -- What the second part adds leaves the blocks of the first part as they are.
  | @seq f g s s₁ s₂ h₁ h₂ ih₁ ih₂ =>
      intro ho
      obtain ⟨ho₁, hx₁⟩ := h₁.frame ho
      rw [(h₂.frame ho₁).2.matchedFrom_iff ho₁ hx₁.next_le, ih₁ ho, ih₂ ho₁]
      rfl
  | trap s =>
      intro ho
      have hr : Region s _ := .split (k := 2) (T := {s.next, s.next + 1}) ho (by simp)
        (b := s.next + 1) (by omega) (by omega)
      refine iff_of_true (fun b hb => matched_of_phis_nil ?_) trivial
      rw [State.enter_blocks, jump_phis, State.reserve_blocks, ho.blank b hb]
  | @shortCircuit f g s s₁ s₂ h₁ h₂ ih₁ ih₂ =>
      intro ho
      obtain ⟨ho₁, hx₁⟩ := h₁.frame ho
      have hx := ((Lower.shortCircuit (.refl s₁) h₂).frame ho₁).2
      have hu : Region s₁ _ := .split (k := 2) (T := {s₁.next, s₁.next + 1}) (b := s₁.next) ho₁
        (by simp) (by omega) (by omega)
      rw [hx.matchedFrom_iff ho₁ hx₁.next_le, ih₁ ho, matchedFrom_shortCircuit ho₁ h₂]
      exact and_congr_right fun _ => ih₂ hu.isOpen
  | @ifElse c t e s s₁ s₂ s₃ h₁ h₂ h₃ ih₁ ih₂ ih₃ =>
      intro ho
      obtain ⟨ho₁, hx₁⟩ := h₁.frame ho
      have hx := ((Lower.ifElse (.refl s₁) h₂ h₃).frame ho₁).2
      have hu : Region s₁ _ := .split (k := 3) (T := {s₁.next, s₁.next + 1}) (b := s₁.next) ho₁
        (by simp) (by omega) (by omega)
      obtain ⟨-, hov, -, -, -⟩ := ifElse_frames ho₁ h₂ h₃
      rw [hx.matchedFrom_iff ho₁ hx₁.next_le, ih₁ ho, matchedFrom_ifElse ho₁ h₂ h₃]
      exact and_congr_right fun _ => and_congr (ih₂ hu.isOpen) (ih₃ hov)
  | @ifElsePhi c t e s s₁ s₂ s₃ h₁ h₂ h₃ ih₁ ih₂ ih₃ =>
      intro ho
      obtain ⟨ho₁, hx₁⟩ := h₁.frame ho
      have hx := ((Lower.ifElsePhi (.refl s₁) h₂ h₃).frame ho₁).2
      have hu : Region s₁ _ := .split (k := 3) (T := {s₁.next, s₁.next + 1}) (b := s₁.next) ho₁
        (by simp) (by omega) (by omega)
      obtain ⟨-, hov, -, -, -⟩ := ifElse_frames ho₁ h₂ h₃
      rw [hx.matchedFrom_iff ho₁ hx₁.next_le, ih₁ ho, matchedFrom_ifElsePhi ho₁ h₂ h₃]
      exact and_congr_right fun _ => and_congr (ih₂ hu.isOpen) (ih₃ hov)
  | @ifThen c t s s₁ s₂ h₁ h₂ ih₁ ih₂ =>
      intro ho
      obtain ⟨ho₁, hx₁⟩ := h₁.frame ho
      have hx := ((Lower.ifThen (.refl s₁) h₂).frame ho₁).2
      have hu : Region s₁ _ := .split (k := 2) (T := {s₁.next, s₁.next + 1}) (b := s₁.next) ho₁
        (by simp) (by omega) (by omega)
      rw [hx.matchedFrom_iff ho₁ hx₁.next_le, ih₁ ho, matchedFrom_ifThen ho₁ h₂]
      exact and_congr_right fun _ => ih₂ hu.isOpen
  | @«while» c b s s₁ s₂ h₁ h₂ ih₁ ih₂ =>
      intro ho
      have hu : Region s _ := .split (k := 3) (T := {s.next}) (b := s.next) ho
        (by simp) (by omega) (by omega)
      have hv := Lower.while_body ho (h₁.frame hu.isOpen)
      rw [matchedFrom_while ho h₁ h₂]
      exact and_congr (ih₁ hu.isOpen) (ih₂ hv)
  | @forIn q xs b s s₁ s₂ h₁ h₂ ih₁ ih₂ =>
      intro ho
      have hv := Lower.forIn_body xs ho (h₁.frame (ho.reserve 2))
      -- The range ends a block exactly if it goes on in another one.
      have hcur : s₁.current = s.current ↔ q.splits = false := by
        constructor
        · intro heq
          cases hs : q.splits with
          | false => rfl
          | true =>
              have hge := h₁.next_le_current (ho.reserve 2) hs
              have hlt := ho.current_lt
              simp only [State.reserve_next] at hge
              omega
        · exact fun hs => h₁.current_eq hs
      rw [matchedFrom_forIn ho h₁ h₂, hcur]
      exact and_congr_right fun _ => and_congr (ih₁ (ho.reserve 2)) (ih₂ hv)

end Flow
