import Aike.Lib.Flow.Frame
import Mathlib.Data.Set.Lattice

/-!
# `Aike.Lib.Flow.Init`: loads after initialisation

Every path through the lowered code should initialise a slot before it loads it
(`Safe`). Which slots are initialised on all paths to a block is the solution of
a dataflow problem. `Solution s I` says that `I` solves it: what `I` gives for a
block holds on every path, and what it does not give fails on some path. The
second half makes the solution exact, and the statement about paths equivalent
to a check of each block by itself (`safe_iff_loadsKnown`).

Lowering a tree keeps a solution up to date, and what it does to it can be read
off the tree. A variable is ready where its slot is initialised on all paths,
or where it is a value. A branch that may be skipped leaves the variables declared
in it unready (`Tree.passBy`), because their slots belong to it.

`Lower.safe_iff` is the exact statement: all paths are safe exactly when the tree
reads ready variables only (`Tree.safe`).
-/

set_option autoImplicit false

namespace Flow

variable {α : Type}

/-! ### Paths -/

/-- A path from the entry to the start of a block, with the events on it. -/
inductive Path (s : State α) : Nat → List Event → Prop
  | entry : Path s 0 []
  | step {b c : Nat} {l : List Event} (path : Path s b l) (edge : c ∈ (s.blocks b).succ) :
      Path s c (l ++ (s.blocks b).events)

/-- On every path a load is of a slot that the path has initialised. -/
def Safe (s : State α) : Prop :=
  ∀ b l, Path s b l → ∀ before r after,
    (s.blocks b).events = before ++ .load r :: after → .init r ∈ l ++ before

/-- The slots that events initialise. -/
def inits (es : List Event) : Set (Option Nat) := {r | .init r ∈ es}

/-- `I` gives for each block the slots that are initialised on all paths to it. -/
structure Solution (s : State α) (I : Nat → Set (Option Nat)) : Prop where
  entry : I 0 = ∅
  sound : ∀ a b, b ∈ (s.blocks a).succ → I b ⊆ I a ∪ inits (s.blocks a).events
  exact : ∀ b r, r ∉ I b → ∃ l, Path s b l ∧ .init r ∉ l

/-- Every load is of a slot that is initialised on all paths to its block, or
before it in the block. -/
def LoadsKnown (s : State α) (I : Nat → Set (Option Nat)) : Prop :=
  ∀ b before r after, (s.blocks b).events = before ++ .load r :: after →
    r ∈ I b ∨ .init r ∈ before

/-- The slots that are initialised on all paths to the end of the current block. -/
def Known (s : State α) (I : Nat → Set (Option Nat)) : Set (Option Nat) :=
  I s.current ∪ inits (s.blocks s.current).events

section Path

variable {s : State α} {I : Nat → Set (Option Nat)} {b : Nat} {l : List Event}

/-- A slot that the solution gives for a block is initialised on each path to it. By
induction on the path. -/
theorem Solution.init_mem_of_path (h : Solution s I) (hp : Path s b l) :
    ∀ r ∈ I b, .init r ∈ l := by
  induction hp with
  | entry =>
      intro r hr
      simp [h.entry] at hr
  | step _ edge ih =>
      intro r hr
      rcases h.sound _ _ edge hr with hr | hr
      · exact List.mem_append_left _ (ih r hr)
      · exact List.mem_append_right _ hr

/-- Paths are safe exactly when each block is, by a solution. -/
theorem safe_iff_loadsKnown (h : Solution s I) : Safe s ↔ LoadsKnown s I := by
  constructor
  · intro hsafe b before r after hes
    -- A slot that is not in the solution is missed by some path, and that path is not safe.
    by_contra hr
    rw [not_or] at hr
    obtain ⟨l, hp, hl⟩ := h.exact b r hr.1
    exact (List.mem_append.mp (hsafe b l hp before r after hes)).elim hl hr.2
  · intro hk b l hp before r after hes
    exact List.mem_append.mpr ((hk b before r after hes).imp (h.init_mem_of_path hp r) id)

/-- A path stays when blocks get successors and the current block gets events. -/
theorem Path.mono {t : State α} (hopen : (s.blocks s.current).succ = ∅)
    (hsucc : ∀ a, (s.blocks a).succ ⊆ (t.blocks a).succ)
    (hevents : ∀ a, a ≠ s.current → (t.blocks a).events = (s.blocks a).events)
    (hp : Path s b l) : Path t b l := by
  induction hp with
  | entry => exact .entry
  | @step a c l _ edge ih =>
      -- No path has gone through the current block yet, as it has no successors.
      have ha : a ≠ s.current := by
        rintro rfl
        rw [hopen] at edge
        exact edge
      rw [← hevents a ha]
      exact .step ih (hsucc a edge)

/-- Paths and solutions see the events and the successors of blocks. -/
theorem Solution.congr {t : State α} (h : Solution s I)
    (hsucc : ∀ a, (t.blocks a).succ = (s.blocks a).succ)
    (hevents : ∀ a, (t.blocks a).events = (s.blocks a).events) : Solution t I where
  entry := h.entry
  sound a b hab := by
    rw [hsucc] at hab
    rw [hevents]
    exact h.sound a b hab
  exact b r hr := by
    obtain ⟨l, hp, hl⟩ := h.exact b r hr
    refine ⟨l, ?_, hl⟩
    clear hl hr
    induction hp with
    | entry => exact .entry
    | step _ edge ih =>
        rw [← hevents]
        exact .step ih (by rwa [hsucc])

/-- Whether loads are known depends on the events only. -/
theorem loadsKnown_congr {t : State α} (hevents : ∀ a, (t.blocks a).events = (s.blocks a).events) :
    LoadsKnown t I ↔ LoadsKnown s I := by
  simp only [LoadsKnown, hevents]

end Path

/-! ### The operations -/

/-- The solution after a jump from a block where `known` are initialised. -/
def meetAt (I : Nat → Set (Option Nat)) (T : Set Nat) (known : Set (Option Nat)) :
    Nat → Set (Option Nat) := fun b => {r | r ∈ I b ∧ (b ∈ T → r ∈ known)}

section Operations

variable {s : State α} {I : Nat → Set (Option Nat)} {T : Set Nat} {known : Set (Option Nat)}
  {b : Nat}

/-- A jump can only take slots away from a solution. -/
theorem meetAt_subset : meetAt I T known b ⊆ I b := fun _ hr => hr.1

/-- It takes none away where it does not lead. -/
theorem meetAt_of_not_mem (h : b ∉ T) : meetAt I T known b = I b := by
  ext r
  simp [meetAt, h]

/-- Where it leads, what is known at its start is left. -/
theorem meetAt_of_mem (h : b ∈ T) : meetAt I T known b = I b ∩ known := by
  ext r
  simp [meetAt, h]

/-- It takes none away where less is known than at its start. -/
theorem meetAt_of_subset (h : I b ⊆ known) : meetAt I T known b = I b := by
  ext r
  exact ⟨fun hr => hr.1, fun hr => ⟨hr, fun _ => h hr⟩⟩

/-- A jump leads to blank blocks, or back to a block where less is known than
here. -/
def JumpOk (s : State α) (I : Nat → Set (Option Nat)) (T : Set Nat) : Prop :=
  ∀ b ∈ T, s.blocks b = {} ∨ I b ⊆ Known s I

/-- A jump keeps the solution, with less known at its targets. A target was blank, so
there was no path to it, or it is the head of a loop, where less is known anyway. -/
theorem Solution.jump (h : Solution s I) (ho : (s.blocks s.current).succ = ∅)
    (hts : JumpOk s I T) : Solution (s.jump T) (meetAt I T (Known s I)) where
  entry := by
    have hsub : meetAt I T (Known s I) 0 ⊆ I 0 := meetAt_subset
    rwa [h.entry, Set.subset_empty_iff] at hsub
  sound a b hab := by
    rw [jump_succ] at hab
    rw [jump_events]
    split at hab
    -- The new edges: the target knows no more than what is known here.
    case isTrue ha =>
      have hself : meetAt I T (Known s I) s.current = I s.current :=
        meetAt_of_subset Set.subset_union_left
      rw [ha, hself, meetAt_of_mem hab]
      exact Set.inter_subset_right
    -- An old edge comes from another block, whose solution stays: a target of the jump is
    -- blank, with no edges, or knows less than what is known here.
    case isFalse ha =>
      have hsame : meetAt I T (Known s I) a = I a := by
        by_cases hat : a ∈ T
        · rcases hts a hat with hblank | hsub
          · rw [hblank] at hab
            exact absurd hab (Set.notMem_empty b)
          · exact meetAt_of_subset hsub
        · exact meetAt_of_not_mem hat
      rw [hsame]
      exact meetAt_subset.trans (h.sound a b hab)
  exact b r hr := by
    have hmono : ∀ {b l}, Path s b l → Path (s.jump T) b l := fun hp =>
      hp.mono ho
        (fun a => by
          rw [jump_succ]
          split
          case isTrue ha => rw [ha, ho]; exact Set.empty_subset _
          case isFalse => exact subset_rfl)
        (fun a _ => jump_events s a T)
    by_cases hrI : r ∈ I b
    · -- The path that misses the slot comes through the new edge.
      by_cases hb : b ∈ T
      · rw [meetAt_of_mem hb] at hr
        have hrK : r ∉ I s.current ∧ .init r ∉ (s.blocks s.current).events := by
          rw [← not_or]
          exact fun hK => hr ⟨hrI, hK⟩
        obtain ⟨l, hp, hl⟩ := h.exact s.current r hrK.1
        refine ⟨l ++ (s.blocks s.current).events, ?_, ?_⟩
        · have hstep := Path.step (c := b) (hmono hp) (by rw [jump_succ, if_pos rfl]; exact hb)
          rwa [jump_events] at hstep
        · rw [List.mem_append, not_or]
          exact ⟨hl, hrK.2⟩
      · rw [meetAt_of_not_mem hb] at hr
        exact absurd hrI hr
    · obtain ⟨l, hp, hl⟩ := h.exact b r hrI
      exact ⟨l, hmono hp, hl⟩

/-- A jump keeps loads known: the targets that lose something have no events. -/
theorem loadsKnown_jump_iff (hts : JumpOk s I T) :
    LoadsKnown (s.jump T) (meetAt I T (Known s I)) ↔ LoadsKnown s I := by
  refine forall_congr' fun b => ?_
  rw [jump_events]
  by_cases hb : b ∈ T
  · rcases hts b hb with hblank | hsub
    · simp [hblank]
    · rw [meetAt_of_subset hsub]
  · rw [meetAt_of_not_mem hb]

/-- Events in the current block do not change the paths to any block. -/
theorem Solution.emit (h : Solution s I) (ho : (s.blocks s.current).succ = ∅)
    (es : List Event) : Solution (s.emit es) I where
  entry := h.entry
  sound a b hab := by
    rw [emit_succ] at hab
    have ha : a ≠ s.current := by
      rintro rfl
      rw [ho] at hab
      exact hab
    rw [State.emit_blocks, if_neg ha]
    exact h.sound a b hab
  exact b r hr := by
    obtain ⟨l, hp, hl⟩ := h.exact b r hr
    refine ⟨l, hp.mono ho (fun a => by rw [emit_succ]) fun a ha => ?_, hl⟩
    rw [State.emit_blocks, if_neg ha]

/-- Events add what they initialise. -/
theorem known_emit (es : List Event) : Known (s.emit es) I = Known s I ∪ inits es := by
  ext r
  simp [Known, inits, or_assoc]

/-- An event that is added to the current block is a load of a slot known there,
or no load. -/
theorem loadsKnown_emit_iff (e : Event) :
    LoadsKnown (s.emit [e]) I ↔ LoadsKnown s I ∧ ∀ r, e = .load r → r ∈ Known s I := by
  constructor
  · intro h
    refine ⟨fun b before r after hes => ?_, fun r hr => ?_⟩
    · by_cases hb : b = s.current
      · refine h b before r (after ++ [e]) ?_
        rw [State.emit_blocks, if_pos hb]
        show (s.blocks b).events ++ _ = _
        rw [hes, List.append_assoc]
        rfl
      · refine h b before r after ?_
        rw [State.emit_blocks, if_neg hb, hes]
    · refine h s.current (s.blocks s.current).events r [] ?_
      rw [State.emit_blocks, if_pos rfl, hr]
  · rintro ⟨h, he⟩ b before r after hes
    rw [State.emit_blocks] at hes
    split at hes
    case isTrue hb =>
      -- The load is the last event, or one that was there.
      rcases List.eq_nil_or_concat after with rfl | ⟨after, e', rfl⟩
      · obtain ⟨hbefore, hlast⟩ := List.append_inj' hes rfl
        rw [List.cons.injEq] at hlast
        rw [← hbefore, hb]
        exact he r hlast.1
      · rw [List.concat_eq_append, ← List.cons_append, ← List.append_assoc] at hes
        exact h b before r after (List.append_inj' hes rfl).1
    case isFalse => exact h b before r after hes

end Operations

/-! ### Ready variables -/

/-- A variable bound to this can be read where `known` are initialised. -/
def Loc.known (known : Set (Option Nat)) : Loc → Prop
  | .slot n => some n ∈ known
  | .foreignSlot => none ∈ known
  | .value | .foreignValue => True

/-- The variables in `ready` are those that can be read where `known` are
initialised. -/
def Ready (s : State α) (known : Set (Option Nat)) (ready : Set α) : Prop :=
  ∀ x l, s.env x = some l → (x ∈ ready ↔ l.known known)

/-- The slots in the environment have been given out. -/
def EnvBounded (s : State α) : Prop := ∀ x n, s.env x = some (.slot n) → n < s.slots

/-- Only slots that have been given out are known. -/
def KnownBounded (s : State α) (known : Set (Option Nat)) : Prop :=
  ∀ r ∈ known, ∃ n < s.slots, r = some n

/-- The ready variables after the tree, where the tree may have been skipped. -/
def Tree.passBy : Tree α → Set α → Set α
  | .skip, ready | .read _, ready | .mention _, ready | .trap, ready => ready
  | .bind x, ready => insert x ready
  | .declare x, ready => ready \ {x}
  | .seq f g, ready | .shortCircuit f g, ready | .ifThen f g, ready | .while f g, ready =>
      g.passBy (f.passBy ready)
  | .ifElse c t e, ready => e.passBy (t.passBy (c.passBy ready))
  | .forIn q xs b, ready => b.passBy (q.passBy ready ∪ {x | x ∈ xs})

/-- The ready variables after the tree. -/
def Tree.after : Tree α → Set α → Set α
  | .skip, ready | .read _, ready | .mention _, ready | .trap, ready => ready
  | .bind x, ready | .declare x, ready => insert x ready
  | .seq f g, ready => g.after (f.after ready)
  | .shortCircuit f g, ready | .ifThen f g, ready | .while f g, ready =>
      g.passBy (f.after ready)
  | .ifElse c t e, ready => e.passBy (t.passBy (c.after ready))
  | .forIn q xs b, ready => b.passBy (q.after ready ∪ {x | x ∈ xs})

/-- The tree reads ready variables only. -/
def Tree.safe : Tree α → Set α → Prop
  | .skip, _ | .bind _, _ | .declare _, _ | .mention _, _ | .trap, _ => True
  | .read x, ready => x ∈ ready
  | .seq f g, ready | .shortCircuit f g, ready | .ifThen f g, ready | .while f g, ready =>
      f.safe ready ∧ g.safe (f.after ready)
  | .ifElse c t e, ready =>
      c.safe ready ∧ t.safe (c.after ready) ∧ e.safe (t.passBy (c.after ready))
  | .forIn q xs b, ready => q.safe ready ∧ b.safe (q.after ready ∪ {x | x ∈ xs})

variable [DecidableEq α] {f : Tree α} {s s' : State α} {known : Set (Option Nat)}
  {ready : Set α}

/-- Lowering gives out slots and binds variables to those. -/
theorem Lower.envBounded (h : Lower f s s') :
    EnvBounded s → EnvBounded s' ∧ s.slots ≤ s'.slots := by
  induction h with
  | skip s k =>
      exact fun he => ⟨fun y n hy => Nat.lt_of_lt_of_le (he y n hy) (Nat.le_add_right _ _),
        Nat.le_add_right _ _⟩
  | trap | read | mention => exact fun he => ⟨he, Nat.le_refl _⟩
  | bind s x =>
      refine fun he => ⟨fun y n hy => ?_, Nat.le_refl _⟩
      rw [State.setEnv_env] at hy
      split at hy
      · simp at hy
      · exact he y n hy
  -- The one case that gives out a slot.
  | declare s x =>
      refine fun he => ⟨fun y n hy => ?_, Nat.le_succ _⟩
      rw [State.declare_env] at hy
      rw [State.declare_slots]
      split at hy
      · rw [Option.some.injEq, Loc.slot.injEq] at hy
        omega
      · have := he y n hy
        omega
  | seq _ _ ih₁ ih₂ | shortCircuit _ _ ih₁ ih₂ | ifThen _ _ ih₁ ih₂ | «while» _ _ ih₁ ih₂ =>
      intro he
      obtain ⟨he₁, hle₁⟩ := ih₁ he
      obtain ⟨he₂, hle₂⟩ := ih₂ he₁
      exact ⟨he₂, Nat.le_trans hle₁ hle₂⟩
  | ifElse _ _ _ ih₁ ih₂ ih₃ | ifElsePhi _ _ _ ih₁ ih₂ ih₃ =>
      intro he
      obtain ⟨he₁, hle₁⟩ := ih₁ he
      obtain ⟨he₂, hle₂⟩ := ih₂ he₁
      obtain ⟨he₃, hle₃⟩ := ih₃ he₂
      exact ⟨he₃, Nat.le_trans hle₁ (Nat.le_trans hle₂ hle₃)⟩
  | @forIn q xs b s s₁ s₂ _ _ ih₁ ih₂ =>
      intro he
      obtain ⟨he₁, hle₁⟩ := ih₁ he
      obtain ⟨he₂, hle₂⟩ := ih₂ fun y n hy => by
        rw [State.bindAll_env] at hy
        split at hy
        · simp at hy
        · exact he₁ y n hy
      exact ⟨he₂, Nat.le_trans hle₁ hle₂⟩

omit [DecidableEq α] in
/-- What has been given out stays so. -/
theorem KnownBounded.mono (h : KnownBounded s known) (hle : s.slots ≤ s'.slots) :
    KnownBounded s' known := fun r hr => by
  obtain ⟨n, hn, rfl⟩ := h r hr
  exact ⟨n, Nat.lt_of_lt_of_le hn hle, rfl⟩

/-- A variable that is a value is ready. -/
theorem Ready.setEnv (h : Ready s known ready) (x : α) :
    Ready (s.setEnv x .value) known (insert x ready) := by
  intro y l hy
  rw [State.setEnv_env] at hy
  split at hy
  case isTrue hyx =>
    rw [Option.some.injEq] at hy
    simp [← hy, Loc.known, hyx]
  case isFalse hyx => simp [h y l hy, hyx]

/-- Some variables that are values are ready. -/
theorem Ready.bindAll (h : Ready s known ready) (xs : List α) :
    Ready (s.bindAll xs) known (ready ∪ {x | x ∈ xs}) := by
  intro y l hy
  rw [State.bindAll_env] at hy
  split at hy
  case isTrue hyx =>
    rw [Option.some.injEq] at hy
    simp [← hy, Loc.known, hyx]
  case isFalse hyx => simp [h y l hy, hyx]

/-- What can be read after a tree where only what was known before it is known. -/
theorem Lower.ready_passBy (h : Lower f s s') :
    ∀ {ready : Set α}, EnvBounded s → KnownBounded s known → Ready s known ready →
      Ready s' known (f.passBy ready) := by
  induction h with
  | skip | trap | read | mention => exact fun _ _ hr => hr
  | bind s x => exact fun _ _ hr => hr.setEnv x
  -- The variable gets a slot of its own, which is new and so is not known.
  | declare s x =>
      intro ready _ hk hr y l hy
      rw [State.declare_env] at hy
      split at hy
      case isTrue hyx =>
        rw [Option.some.injEq] at hy
        have hnew : some s.slots ∉ known := fun hmem => by
          obtain ⟨n, hn, heq⟩ := hk _ hmem
          rw [Option.some.injEq] at heq
          omega
        simp [← hy, Loc.known, hyx, hnew, Tree.passBy]
      case isFalse hyx => simp [hyx, Tree.passBy, hr y l hy]
  | seq h₁ _ ih₁ ih₂ | shortCircuit h₁ _ ih₁ ih₂ | ifThen h₁ _ ih₁ ih₂
  | «while» h₁ _ ih₁ ih₂ =>
      intro ready he hk hr
      obtain ⟨he₁, hle₁⟩ := h₁.envBounded he
      exact ih₂ he₁ (KnownBounded.mono hk hle₁) (ih₁ he hk hr)
  | ifElse h₁ h₂ _ ih₁ ih₂ ih₃ | ifElsePhi h₁ h₂ _ ih₁ ih₂ ih₃ =>
      intro ready he hk hr
      obtain ⟨he₁, hle₁⟩ := h₁.envBounded he
      have hk₁ := KnownBounded.mono hk hle₁
      obtain ⟨he₂, hle₂⟩ := h₂.envBounded he₁
      exact ih₃ he₂ (KnownBounded.mono hk₁ hle₂) (ih₂ he₁ hk₁ (ih₁ he hk hr))
  -- The loop variables are values, and can be read anywhere.
  | @forIn q xs b s s₁ s₂ h₁ _ ih₁ ih₂ =>
      intro ready he hk hr
      obtain ⟨he₁, hle₁⟩ := h₁.envBounded he
      refine ih₂ (fun y n hy => ?_) (KnownBounded.mono hk hle₁) ((ih₁ he hk hr).bindAll xs)
      rw [State.bindAll_env] at hy
      split at hy
      · simp at hy
      · exact he₁ y n hy

/-! ### Lowering -/

variable {I I' I₁ I₂ I₃ : Nat → Set (Option Nat)} {t u : State α}

/-- What holds of the state, a solution and the ready variables while a tree is
lowered. Blocks that no code jumps to yet have every slot in the solution. -/
structure Analysis (s : State α) (I : Nat → Set (Option Nat)) (ready : Set α) : Prop where
  isOpen : Open s
  solution : Solution s I
  top : ∀ b, s.next ≤ b → I b = Set.univ
  bounded : KnownBounded s (Known s I)
  env : EnvBounded s
  isReady : Ready s (Known s I) ready

/-- What lowering does to a solution: nothing on the blocks there were, and it
makes only new slots known. -/
structure Continues (s : State α) (I : Nat → Set (Option Nat)) (s' : State α)
    (I' : Nat → Set (Option Nat)) : Prop where
  old : ∀ b < s.next, I' b = I b
  known : Known s I ⊆ Known s' I'
  fresh : ∀ r ∈ Known s' I', r ∈ Known s I ∨ ∃ n, s.slots ≤ n ∧ r = some n

omit [DecidableEq α] in
/-- Two parts of the code one after the other. -/
theorem Continues.trans (h₁ : Continues s I t I₁) (h₂ : Continues t I₁ u I₂)
    (hnext : s.next ≤ t.next) (hslots : s.slots ≤ t.slots) : Continues s I u I₂ where
  old b hb := by rw [h₂.old b (Nat.lt_of_lt_of_le hb hnext), h₁.old b hb]
  known := h₁.known.trans h₂.known
  fresh r hr := by
    rcases h₂.fresh r hr with hr | ⟨n, hn, rfl⟩
    · exact h₁.fresh r hr
    · exact Or.inr ⟨n, Nat.le_trans hslots hn, rfl⟩

omit [DecidableEq α] in
/-- Reserving blocks changes nothing. -/
theorem Analysis.reserve (h : Analysis s I ready) (k : Nat) : Analysis (s.reserve k) I ready where
  __ := h
  isOpen := h.isOpen.reserve k
  solution := h.solution.congr (fun _ => rfl) fun _ => rfl
  top b hb := h.top b (by simp at hb; omega)

omit [DecidableEq α] in
/-- End the current block and go on in a pending one, where `known` is what the
solution now gives. -/
theorem Analysis.branch {ready' : Set α} {T : Set Nat} {b : Nat} (h : Analysis s I ready)
    (hlt : ∀ c ∈ T, c < s.next) (hts : JumpOk s I T) (hb : Pending s b)
    (hI : meetAt I T (Known s I) b = known) (hk : KnownBounded s known)
    (hr : Ready s known ready') :
    Analysis ((s.jump T).enter b) (meetAt I T (Known s I)) ready'
      ∧ Known ((s.jump T).enter b) (meetAt I T (Known s I)) = known := by
  have hknown : Known ((s.jump T).enter b) (meetAt I T (Known s I)) = known := by
    rw [Known, State.enter_current, State.enter_blocks, jump_events, hb.blank, hI]
    simp [inits]
  refine ⟨⟨h.isOpen.branch hlt hb.lt hb.blank hb.ne, ?_, fun c hc => ?_, ?_, h.env, ?_⟩, hknown⟩
  · exact (h.solution.jump h.isOpen.succ_current hts).congr (fun _ => rfl) fun _ => rfl
  · have hcs : s.next ≤ c := hc
    rw [meetAt_of_not_mem fun hmem => by have := hlt c hmem; omega, h.top c hcs]
  · rw [hknown]
    exact hk
  · rw [hknown]
    exact hr

omit [DecidableEq α] in
/-- Reserve blocks, end the current one and go on in one of them: what is known
stays known. -/
theorem Analysis.split {T : Set Nat} {b k : Nat} (h : Analysis s I ready)
    (hts : ∀ c ∈ T, s.next ≤ c ∧ c < s.next + k) (hb : b ∈ T) :
    Analysis (((s.reserve k).jump T).enter b) (meetAt I T (Known s I)) ready
      ∧ Known (((s.reserve k).jump T).enter b) (meetAt I T (Known s I)) = Known s I := by
  have hbs := hts b hb
  have hcur := h.isOpen.current_lt
  have hblank : ∀ c ∈ T, s.blocks c = {} := fun c hc => h.isOpen.blank c (hts c hc).1
  refine (h.reserve k).branch (fun c hc => (hts c hc).2) (fun c hc => Or.inl (hblank c hc))
    ⟨hbs.2, by simp; omega, hblank b hb⟩ ?_ h.bounded h.isReady
  show meetAt I T (Known s I) b = Known s I
  rw [meetAt_of_mem hb, h.top b hbs.1, Set.univ_inter]

omit [DecidableEq α] in
/-- What a branch leaves known at a block that another branch jumped to with
`known`: the branch adds slots that only it knows. -/
theorem Continues.meet (h : Continues s I t I₁) (hk : Known s I = known) :
    known ∩ Known t I₁ = known := by
  rw [Set.inter_eq_left, ← hk]
  exact h.known

omit [DecidableEq α] in
/-- Two branches from the same block know together what was known there. -/
theorem Continues.meet_branches (h₁ : Continues s I t I₁) (hk₁ : Known s I = known)
    (hb : KnownBounded t (Known t I₁)) (h₂ : Continues u I₂ s' I₃) (hk₂ : Known u I₂ = known)
    (hslots : u.slots = t.slots) : Known t I₁ ∩ Known s' I₃ = known := by
  ext r
  constructor
  · rintro ⟨hr₁, hr₂⟩
    -- What only the second branch initialised is a new slot, which the first one has not.
    rcases h₂.fresh r hr₂ with hr | ⟨n, hn, rfl⟩
    · rwa [← hk₂]
    · obtain ⟨m, hm, heq⟩ := hb _ hr₁
      rw [Option.some.injEq] at heq
      omega
  · intro hr
    refine ⟨h₁.known ?_, h₂.known ?_⟩
    · rwa [hk₁]
    · rwa [hk₂]

omit [DecidableEq α] in
/-- What a PHI node changes is not looked at. -/
theorem Analysis.phi (h : Analysis s I ready) (p : List Nat) :
    Analysis (s.phi p) I ready ∧ Known (s.phi p) I = Known s I := by
  have hknown : Known (s.phi p) I = Known s I := by
    rw [Known, State.phi_current, phi_events, Known]
  refine ⟨⟨h.isOpen.phi p, h.solution.congr (phi_succ s · p) (phi_events s · p), h.top, ?_, h.env,
    ?_⟩, hknown⟩
  · rw [hknown]
    exact h.bounded
  · rw [hknown]
    exact h.isReady

omit [DecidableEq α] in
/-- A further edge of a PHI changes nothing. -/
theorem Analysis.addIncoming (h : Analysis s I ready) {b : Nat} (hb : b < s.next) (a : Nat) :
    Analysis (s.addIncoming b a) I ready ∧ Known (s.addIncoming b a) I = Known s I := by
  have hknown : Known (s.addIncoming b a) I = Known s I := by
    rw [Known, State.addIncoming_current, addIncoming_events, Known]
  refine ⟨⟨h.isOpen.addIncoming b a hb, h.solution.congr (addIncoming_succ s · b a)
    (addIncoming_events s · b a), h.top, ?_, h.env, ?_⟩, hknown⟩
  · rw [hknown]
    exact h.bounded
  · rw [hknown]
    exact h.isReady

/-- Binding some variables to values makes them ready. -/
theorem Analysis.bindAll (h : Analysis s I ready) (xs : List α) :
    Analysis (s.bindAll xs) I (ready ∪ {x | x ∈ xs}) where
  isOpen := h.isOpen.bindAll xs
  solution := h.solution.congr (fun _ => rfl) fun _ => rfl
  top := h.top
  bounded := h.bounded
  env y n hy := by
    rw [State.bindAll_env] at hy
    split at hy
    · simp at hy
    · exact h.env y n hy
  isReady := h.isReady.bindAll xs

/-- What lowering a tree does to an analysis. -/
def Analyses (f : Tree α) (s s' : State α) : Prop :=
  ∀ I ready, Analysis s I ready →
    ∃ I', Analysis s' I' (f.after ready) ∧ Continues s I s' I'
      ∧ (LoadsKnown s' I' ↔ LoadsKnown s I ∧ f.safe ready)

omit [DecidableEq α] in
/-- The empty tree: nothing is read and no slot initialised. -/
theorem analyses_skip (s : State α) (k : Nat) : Analyses .skip s (s.alloc k) := by
  intro I ready h
  refine ⟨I, ⟨h.isOpen.alloc k, h.solution.congr (fun _ => rfl) fun _ => rfl, h.top,
    fun r hr => ?_, fun y n hy => ?_, h.isReady⟩,
    ⟨fun _ _ => rfl, subset_rfl, fun _ hr => Or.inl hr⟩, by simp [Tree.safe, LoadsKnown]⟩
  · obtain ⟨n, hn, rfl⟩ := h.bounded r hr
    exact ⟨n, Nat.lt_of_lt_of_le hn (Nat.le_add_right _ _), rfl⟩
  · exact Nat.lt_of_lt_of_le (h.env y n hy) (Nat.le_add_right _ _)

/-- A variable is bound to a value. -/
theorem analyses_bind (s : State α) (x : α) : Analyses (.bind x) s (s.setEnv x .value) := by
  intro I ready h
  refine ⟨I, ⟨h.isOpen.setEnv x _, h.solution.congr (fun _ => rfl) fun _ => rfl, h.top, h.bounded,
    fun y n hy => ?_, h.isReady.setEnv x⟩,
    ⟨fun _ _ => rfl, subset_rfl, fun _ hr => Or.inl hr⟩, by simp [Tree.safe, LoadsKnown]⟩
  rw [State.setEnv_env] at hy
  split at hy
  · simp at hy
  · exact h.env y n hy

/-- A variable is declared: a new slot is initialised and from there on known. -/
theorem analyses_declare (s : State α) (x : α) : Analyses (.declare x) s (s.declare x) := by
  intro I ready h
  have hknown : Known (s.declare x) I = insert (some s.slots) (Known s I) := by
    show Known (s.emit [.init (some s.slots)]) I = _
    rw [known_emit]
    ext r
    simp [inits, or_comm]
  have hnew : some s.slots ∉ Known s I := fun hmem => by
    obtain ⟨n, hn, heq⟩ := h.bounded _ hmem
    rw [Option.some.injEq] at heq
    omega
  refine ⟨I, ⟨h.isOpen.declare x, ?_, h.top, ?_, ?_, ?_⟩, ⟨fun _ _ => rfl, ?_, ?_⟩, ?_⟩
  · exact (h.solution.emit h.isOpen.succ_current [.init (some s.slots)]).congr (fun _ => rfl)
      fun _ => rfl
  · rw [hknown]
    intro r hr
    rcases hr with rfl | hr
    · exact ⟨s.slots, by simp, rfl⟩
    · obtain ⟨n, hn, rfl⟩ := h.bounded r hr
      exact ⟨n, by simp; omega, rfl⟩
  · exact ((Lower.declare s x).envBounded h.env).1
  · rw [hknown]
    intro y l hy
    rw [State.declare_env] at hy
    split at hy
    case isTrue hyx =>
      rw [Option.some.injEq] at hy
      simp [← hy, Loc.known, hyx, Tree.after]
    case isFalse hyx =>
      -- Another variable: its slot is an older one, so the new one does not make it ready.
      have hy' := h.isReady y l hy
      cases l with
      | slot n =>
          have hn := h.env y n hy
          have hne : n ≠ s.slots := by omega
          simpa [Tree.after, hyx, Loc.known, hne] using hy'
      | _ => simpa [Tree.after, hyx, Loc.known] using hy'
  · rw [hknown]
    exact Set.subset_insert _ _
  · rw [hknown]
    intro r hr
    rcases hr with rfl | hr
    · exact Or.inr ⟨s.slots, Nat.le_refl _, rfl⟩
    · exact Or.inl hr
  · show LoadsKnown (s.emit [.init (some s.slots)]) I ↔ _
    rw [loadsKnown_emit_iff]
    simp [Tree.safe]

omit [DecidableEq α] in
/-- A variable is read. This is the one event that can be wrong, and it is right exactly
if the variable is ready. -/
theorem analyses_read {x : α} {l : Loc} (hx : s.env x = some l) :
    Analyses (.read x) s ((s.emit l.events).mention x l) := by
  intro I ready h
  have hinits : inits l.events = ∅ := by
    cases l <;> simp [inits, Loc.events]
  have hknown : Known ((s.emit l.events).mention x l) I = Known s I := by
    show Known (s.emit l.events) I = _
    rw [known_emit, hinits, Set.union_empty]
  refine ⟨I, ⟨(h.isOpen.emit _).mention x l, ?_, h.top, ?_, h.env, ?_⟩, ⟨fun _ _ => rfl, ?_, ?_⟩,
    ?_⟩
  · exact (h.solution.emit h.isOpen.succ_current l.events).congr (fun _ => rfl) fun _ => rfl
  · rw [hknown]
    exact h.bounded
  · rw [hknown]
    exact h.isReady
  · rw [hknown]
  · rw [hknown]
    exact fun r hr => Or.inl hr
  · show LoadsKnown (s.emit l.events) I ↔ LoadsKnown s I ∧ x ∈ ready
    -- The load is of a slot that is known exactly if the variable is ready.
    rw [h.isReady x l hx]
    cases l with
    | slot n =>
        rw [Loc.events, loadsKnown_emit_iff]
        simp [Loc.known]
    | foreignSlot =>
        rw [Loc.events, loadsKnown_emit_iff]
        simp [Loc.known]
    | value | foreignValue =>
        rw [Loc.events, Loc.known, and_true]
        exact loadsKnown_congr fun a => by
          rw [State.emit_blocks]
          split <;> simp

/-- One tree after the other, each with the ready variables of the one before. -/
theorem analyses_seq {f g : Tree α} {s s₁ s₂ : State α} (h₁ : Lower f s s₁)
    (ih₁ : Analyses f s s₁) (ih₂ : Analyses g s₁ s₂) : Analyses (.seq f g) s s₂ := by
  intro I ready h
  obtain ⟨I₁, ha₁, hc₁, hl₁⟩ := ih₁ I ready h
  obtain ⟨I₂, ha₂, hc₂, hl₂⟩ := ih₂ I₁ _ ha₁
  have hx := (h₁.frame h.isOpen).2
  refine ⟨I₂, ha₂, hc₁.trans hc₂ hx.next_le hx.slots_le, ?_⟩
  rw [hl₂, hl₁, and_assoc]
  rfl

/-- Code that is lowered in a block of its own and may be skipped: what was known
before it is known after it. -/
theorem analysis_optional {g : Tree α} {s₁ s₂ : State α} (ha₁ : Analysis s₁ I₁ ready)
    (h₂ : Lower g (((s₁.reserve 2).jump {s₁.next, s₁.next + 1}).enter s₁.next) s₂)
    (ih₂ : Analyses g (((s₁.reserve 2).jump {s₁.next, s₁.next + 1}).enter s₁.next) s₂) :
    ∃ I', Analysis ((s₂.jump {s₁.next + 1}).enter (s₁.next + 1)) I' (g.passBy ready)
      ∧ Continues s₁ I₁ ((s₂.jump {s₁.next + 1}).enter (s₁.next + 1)) I'
      ∧ (LoadsKnown ((s₂.jump {s₁.next + 1}).enter (s₁.next + 1)) I'
          ↔ LoadsKnown s₁ I₁ ∧ g.safe ready) := by
  have hts : ∀ c ∈ ({s₁.next, s₁.next + 1} : Set Nat), s₁.next ≤ c ∧ c < s₁.next + 2 := by simp
  obtain ⟨hau, hku⟩ := ha₁.split hts (b := s₁.next) (by simp)
  have hjump : JumpOk s₁ I₁ {s₁.next, s₁.next + 1} :=
    fun c hc => Or.inl (ha₁.isOpen.blank c (hts c hc).1)
  have hIu : meetAt I₁ {s₁.next, s₁.next + 1} (Known s₁ I₁) (s₁.next + 1) = Known s₁ I₁ := by
    rw [meetAt_of_mem (by simp), ha₁.top _ (by omega), Set.univ_inter]
  have hafter := Pending.split (k := 2) (b := s₁.next + 1) (c := s₁.next)
    (T := {s₁.next, s₁.next + 1}) ha₁.isOpen (by omega) (by omega) (by omega)
  obtain ⟨I₂, ha₂, hc₂, hl₂⟩ := ih₂ _ ready hau
  have hx₂ := (h₂.frame hau.isOpen).2
  have hafter := hafter.lower hx₂
  -- The block after it is reached from before the code and from its end.
  have hmeet : meetAt I₂ {s₁.next + 1} (Known s₂ I₂) (s₁.next + 1) = Known s₁ I₁ := by
    rw [meetAt_of_mem (by simp), hc₂.old _ (by simp), hIu, hc₂.meet hku]
  have hbounded : KnownBounded s₂ (Known s₁ I₁) := ha₁.bounded.mono hx₂.slots_le
  have hready : Ready s₂ (Known s₁ I₁) (g.passBy ready) := by
    rw [← hku]
    exact h₂.ready_passBy hau.env hau.bounded hau.isReady
  have hblank : JumpOk s₂ I₂ {s₁.next + 1} := by
    rintro c rfl
    exact Or.inl hafter.blank
  obtain ⟨ha, hk⟩ := ha₂.branch (by simpa using hafter.lt) hblank hafter hmeet hbounded hready
  refine ⟨_, ha, ⟨fun b hb => ?_, ?_, ?_⟩, ?_⟩
  · rw [meetAt_of_not_mem (by simp; omega), hc₂.old b (by simp; omega),
      meetAt_of_not_mem (by simp; omega)]
  · rw [hk]
  · rw [hk]
    exact fun r hr => Or.inl hr
  · have hlu := loadsKnown_jump_iff hjump
    exact (loadsKnown_jump_iff hblank).trans (hl₂.trans (and_congr_left' hlu))

/-- A short-circuit operator: the block after it is reached past the right operand, too,
so only what is known before that stays. -/
theorem analyses_shortCircuit {f g : Tree α} {s s₁ s₂ : State α} (h₁ : Lower f s s₁)
    (h₂ : Lower g (((s₁.reserve 2).jump {s₁.next, s₁.next + 1}).enter s₁.next) s₂)
    (ih₁ : Analyses f s s₁)
    (ih₂ : Analyses g (((s₁.reserve 2).jump {s₁.next, s₁.next + 1}).enter s₁.next) s₂) :
    Analyses (.shortCircuit f g) s
      (((s₂.jump {s₁.next + 1}).enter (s₁.next + 1)).phi [s₂.current, s₁.current]) := by
  intro I ready h
  obtain ⟨I₁, ha₁, hc₁, hl₁⟩ := ih₁ I ready h
  have hx := (h₁.frame h.isOpen).2
  obtain ⟨I', ha, hc, hl⟩ := analysis_optional ha₁ h₂ ih₂
  obtain ⟨hap, hkp⟩ := ha.phi [s₂.current, s₁.current]
  have hc := hc₁.trans hc hx.next_le hx.slots_le
  refine ⟨I', hap, ⟨hc.old, ?_, ?_⟩, ?_⟩
  · rw [hkp]
    exact hc.known
  · rw [hkp]
    exact hc.fresh
  · rw [loadsKnown_congr (phi_events _ · _), hl, hl₁, and_assoc]
    rfl

/-- A branch without an `else` likewise. -/
theorem analyses_ifThen {c t : Tree α} {s s₁ s₂ : State α} (h₁ : Lower c s s₁)
    (h₂ : Lower t (((s₁.reserve 2).jump {s₁.next, s₁.next + 1}).enter s₁.next) s₂)
    (ih₁ : Analyses c s s₁)
    (ih₂ : Analyses t (((s₁.reserve 2).jump {s₁.next, s₁.next + 1}).enter s₁.next) s₂) :
    Analyses (.ifThen c t) s ((s₂.jump {s₁.next + 1}).enter (s₁.next + 1)) := by
  intro I ready h
  obtain ⟨I₁, ha₁, hc₁, hl₁⟩ := ih₁ I ready h
  have hx := (h₁.frame h.isOpen).2
  obtain ⟨I', ha, hc, hl⟩ := analysis_optional ha₁ h₂ ih₂
  refine ⟨I', ha, hc₁.trans hc hx.next_le hx.slots_le, ?_⟩
  rw [hl, hl₁, and_assoc]
  rfl

/-- The end of a conditional: what was known after its condition is known after
it. -/
theorem analysis_ifElse {t e : Tree α} {s₁ s₂ s₃ : State α} (ha₁ : Analysis s₁ I₁ ready)
    (h₂ : Lower t (((s₁.reserve 3).jump {s₁.next, s₁.next + 1}).enter s₁.next) s₂)
    (h₃ : Lower e ((s₂.jump {s₁.next + 2}).enter (s₁.next + 1)) s₃)
    (ih₂ : Analyses t (((s₁.reserve 3).jump {s₁.next, s₁.next + 1}).enter s₁.next) s₂)
    (ih₃ : Analyses e ((s₂.jump {s₁.next + 2}).enter (s₁.next + 1)) s₃) :
    ∃ I', Analysis ((s₃.jump {s₁.next + 2}).enter (s₁.next + 2)) I' (e.passBy (t.passBy ready))
      ∧ Continues s₁ I₁ ((s₃.jump {s₁.next + 2}).enter (s₁.next + 2)) I'
      ∧ (LoadsKnown ((s₃.jump {s₁.next + 2}).enter (s₁.next + 2)) I'
          ↔ (LoadsKnown s₁ I₁ ∧ t.safe ready) ∧ e.safe (t.passBy ready)) := by
  have hts : ∀ c ∈ ({s₁.next, s₁.next + 1} : Set Nat), s₁.next ≤ c ∧ c < s₁.next + 3 := by simp
  obtain ⟨hau, hku⟩ := ha₁.split hts (b := s₁.next) (by simp)
  have hjump : JumpOk s₁ I₁ {s₁.next, s₁.next + 1} :=
    fun c hc => Or.inl (ha₁.isOpen.blank c (hts c hc).1)
  have helse := Pending.split (k := 3) (b := s₁.next + 1) (c := s₁.next)
    (T := {s₁.next, s₁.next + 1}) ha₁.isOpen (by omega) (by omega) (by omega)
  have hend := Pending.split (k := 3) (b := s₁.next + 2) (c := s₁.next)
    (T := {s₁.next, s₁.next + 1}) ha₁.isOpen (by omega) (by omega) (by omega)
  obtain ⟨I₂, ha₂, hc₂, hl₂⟩ := ih₂ _ ready hau
  have hx₂ := (h₂.frame hau.isOpen).2
  have hle₂ := hx₂.next_le
  simp only [State.enter_next, State.jump_next, State.reserve_next] at hle₂
  have helse := helse.lower hx₂
  have hend := hend.lower hx₂
  -- The else branch starts with what the condition left known.
  have hIelse : meetAt I₂ {s₁.next + 2} (Known s₂ I₂) (s₁.next + 1) = Known s₁ I₁ := by
    rw [meetAt_of_not_mem (by simp), hc₂.old _ (by simp), meetAt_of_mem (by simp),
      ha₁.top _ (by omega), Set.univ_inter]
  have hblank₂ : JumpOk s₂ I₂ {s₁.next + 2} := by
    rintro c rfl
    exact Or.inl hend.blank
  have hready₂ : Ready s₂ (Known s₁ I₁) (t.passBy ready) := by
    rw [← hku]
    exact h₂.ready_passBy hau.env hau.bounded hau.isReady
  obtain ⟨hav, hkv⟩ := ha₂.branch (by simpa using hend.lt) hblank₂ helse hIelse
    (ha₁.bounded.mono hx₂.slots_le) hready₂
  have hend := hend.branch (T := {s₁.next + 2}) (c := s₁.next + 1) (by omega)
  obtain ⟨I₃, ha₃, hc₃, hl₃⟩ := ih₃ _ _ hav
  have hx₃ := (h₃.frame hav.isOpen).2
  have hend := hend.lower hx₃
  -- At the end both branches have jumped.
  have hIend : meetAt I₃ {s₁.next + 2} (Known s₃ I₃) (s₁.next + 2) = Known s₁ I₁ := by
    rw [meetAt_of_mem (by simp), hc₃.old _ (by simp; omega), meetAt_of_mem (by simp),
      hc₂.old _ (by simp), meetAt_of_not_mem (by simp), ha₁.top _ (by omega), Set.univ_inter]
    exact hc₂.meet_branches hku ha₂.bounded hc₃ hkv rfl
  have hblank₃ : JumpOk s₃ I₃ {s₁.next + 2} := by
    rintro c rfl
    exact Or.inl hend.blank
  have hready₃ : Ready s₃ (Known s₁ I₁) (e.passBy (t.passBy ready)) := by
    rw [← hkv]
    exact h₃.ready_passBy hav.env hav.bounded hav.isReady
  obtain ⟨ha, hk⟩ := ha₃.branch (by simpa using hend.lt) hblank₃ hend hIend
    (ha₁.bounded.mono (Nat.le_trans hx₂.slots_le hx₃.slots_le)) hready₃
  refine ⟨_, ha, ⟨fun b hb => ?_, ?_, ?_⟩, ?_⟩
  · rw [meetAt_of_not_mem (by simp; omega), hc₃.old b (by simp; omega),
      meetAt_of_not_mem (by simp; omega), hc₂.old b (by simp; omega),
      meetAt_of_not_mem (by simp; omega)]
  · rw [hk]
  · rw [hk]
    exact fun r hr => Or.inl hr
  · have hl₁ := loadsKnown_jump_iff hjump
    have hlv := loadsKnown_jump_iff hblank₂
    exact (loadsKnown_jump_iff hblank₃).trans (hl₃.trans (and_congr_left'
      (hlv.trans (hl₂.trans (and_congr_left' hl₁)))))

/-- A branch with an `else`: each body starts with what is known after the condition, and
neither adds to it. -/
theorem analyses_ifElse {c t e : Tree α} {s s₁ s₂ s₃ : State α} (h₁ : Lower c s s₁)
    (h₂ : Lower t (((s₁.reserve 3).jump {s₁.next, s₁.next + 1}).enter s₁.next) s₂)
    (h₃ : Lower e ((s₂.jump {s₁.next + 2}).enter (s₁.next + 1)) s₃)
    (ih₁ : Analyses c s s₁)
    (ih₂ : Analyses t (((s₁.reserve 3).jump {s₁.next, s₁.next + 1}).enter s₁.next) s₂)
    (ih₃ : Analyses e ((s₂.jump {s₁.next + 2}).enter (s₁.next + 1)) s₃) :
    Analyses (.ifElse c t e) s ((s₃.jump {s₁.next + 2}).enter (s₁.next + 2)) := by
  intro I ready h
  obtain ⟨I₁, ha₁, hc₁, hl₁⟩ := ih₁ I ready h
  have hx := (h₁.frame h.isOpen).2
  obtain ⟨I', ha, hc, hl⟩ := analysis_ifElse ha₁ h₂ h₃ ih₂ ih₃
  refine ⟨I', ha, hc₁.trans hc hx.next_le hx.slots_le, ?_⟩
  rw [hl, hl₁, and_assoc, and_assoc]
  rfl

omit [DecidableEq α] in
/-- A PHI node at the end does not change the analysis. -/
theorem Analyses.phi (h : Analyses f s s') (p : List Nat) : Analyses f s (s'.phi p) := by
  intro I ready ha
  obtain ⟨I', ha', hc, hl⟩ := h I ready ha
  obtain ⟨hap, hkp⟩ := ha'.phi p
  refine ⟨I', hap, ⟨hc.old, ?_, ?_⟩, ?_⟩
  · rw [hkp]
    exact hc.known
  · rw [hkp]
    exact hc.fresh
  · rw [loadsKnown_congr (phi_events _ · _), hl]

/-- A loop: the jump back leads to a block where less is known, so it changes nothing. -/
theorem analyses_while {c b : Tree α} {s s₁ s₂ : State α}
    (h₁ : Lower c (((s.reserve 3).jump {s.next}).enter s.next) s₁)
    (h₂ : Lower b ((s₁.jump {s.next + 1, s.next + 2}).enter (s.next + 1)) s₂)
    (ih₁ : Analyses c (((s.reserve 3).jump {s.next}).enter s.next) s₁)
    (ih₂ : Analyses b ((s₁.jump {s.next + 1, s.next + 2}).enter (s.next + 1)) s₂) :
    Analyses (.while c b) s ((s₂.jump {s.next}).enter (s.next + 2)) := by
  intro I ready h
  have hts : ∀ c ∈ ({s.next} : Set Nat), s.next ≤ c ∧ c < s.next + 3 := by simp
  obtain ⟨hau, hku⟩ := h.split hts (b := s.next) (by simp)
  have hjump : JumpOk s I {s.next} := fun c hc => Or.inl (h.isOpen.blank c (hts c hc).1)
  have hbody := Pending.split (k := 3) (b := s.next + 1) (c := s.next) (T := {s.next}) h.isOpen
    (by omega) (by omega) (by omega)
  have hend := Pending.split (k := 3) (b := s.next + 2) (c := s.next) (T := {s.next}) h.isOpen
    (by omega) (by omega) (by omega)
  obtain ⟨I₁, ha₁, hc₁, hl₁⟩ := ih₁ _ ready hau
  have hx₁ := (h₁.frame hau.isOpen).2
  have hle₁ := hx₁.next_le
  simp only [State.enter_next, State.jump_next, State.reserve_next] at hle₁
  have hbody := hbody.lower hx₁
  have hend := hend.lower hx₁
  -- The body and the end have no predecessor until the condition is evaluated.
  have hItop : ∀ c, s.next < c → c < s.next + 3 → I₁ c = Set.univ := fun c hc hc' => by
    rw [hc₁.old c (by simpa using hc'), meetAt_of_not_mem (by simp; omega), h.top c (by omega)]
  have hblank₁ : JumpOk s₁ I₁ {s.next + 1, s.next + 2} := by
    rintro c (rfl | rfl)
    · exact Or.inl hbody.blank
    · exact Or.inl hend.blank
  have hIbody : ∀ c ∈ ({s.next + 1, s.next + 2} : Set Nat),
      meetAt I₁ {s.next + 1, s.next + 2} (Known s₁ I₁) c = Known s₁ I₁ := fun c hc => by
    have hclt : s.next < c ∧ c < s.next + 3 := by
      rcases hc with rfl | hc
      · omega
      · rw [Set.mem_singleton_iff] at hc
        omega
    rw [meetAt_of_mem hc, hItop c hclt.1 hclt.2, Set.univ_inter]
  obtain ⟨hav, hkv⟩ := ha₁.branch (by simpa using ⟨hbody.lt, hend.lt⟩) hblank₁ hbody
    (hIbody _ (by simp)) ha₁.bounded ha₁.isReady
  have hend := hend.branch (T := {s.next + 1, s.next + 2}) (c := s.next + 1) (by omega)
  obtain ⟨I₂, ha₂, hc₂, hl₂⟩ := ih₂ _ _ hav
  have hx₂ := (h₂.frame hav.isOpen).2
  have hend := hend.lower hx₂
  -- The jump back is to a block where no more is known than before the loop.
  have hback : I₂ s.next ⊆ Known s₂ I₂ := by
    rw [hc₂.old _ (by simp; omega), meetAt_of_not_mem (by simp), hc₁.old _ (by simp),
      meetAt_of_mem (by simp), h.top _ (Nat.le_refl _), Set.univ_inter, ← hku]
    refine hc₁.known.trans ?_
    rw [← hkv]
    exact hc₂.known
  have hblank₂ : JumpOk s₂ I₂ {s.next} := by
    rintro c rfl
    exact Or.inr hback
  -- The loop ends after its condition, so only that has run for sure.
  have hIend : meetAt I₂ {s.next} (Known s₂ I₂) (s.next + 2) = Known s₁ I₁ := by
    rw [meetAt_of_not_mem (by simp), hc₂.old _ (by simp; omega), hIbody _ (by simp)]
  have hready : Ready s₂ (Known s₁ I₁) (b.passBy (c.after ready)) := by
    rw [← hkv]
    exact h₂.ready_passBy hav.env hav.bounded hav.isReady
  have hhead : s.next < s₂.next := by have := hend.lt; omega
  obtain ⟨ha, hk⟩ := ha₂.branch (by simpa using hhead) hblank₂ hend hIend
    (ha₁.bounded.mono hx₂.slots_le) hready
  refine ⟨_, ha, ⟨fun b hb => ?_, ?_, ?_⟩, ?_⟩
  · rw [meetAt_of_not_mem (by simp; omega), hc₂.old b (by simp; omega),
      meetAt_of_not_mem (by simp; omega), hc₁.old b (by simp; omega),
      meetAt_of_not_mem (by simp; omega)]
  · rw [hk, ← hku]
    exact hc₁.known
  · rw [hk, ← hku]
    exact hc₁.fresh
  · have hlu := loadsKnown_jump_iff hjump
    have hlv := loadsKnown_jump_iff hblank₁
    refine (loadsKnown_jump_iff hblank₂).trans (hl₂.trans ?_)
    rw [Tree.safe, ← and_assoc]
    exact and_congr_left' (hlv.trans (hl₁.trans (and_congr_left' hlu)))

/-- A loop over a sequence: its variables are values, and the rest as for a loop. -/
theorem analyses_forIn {q b : Tree α} {xs : List α} {s s₁ s₂ : State α}
    (h₁ : Lower q (s.reserve 2) s₁)
    (h₂ : Lower b
      ((((s₁.jump {s.next, s.next + 1}).enter s.next).phi [s.current]).bindAll xs) s₂)
    (ih₁ : Analyses q (s.reserve 2) s₁)
    (ih₂ : Analyses b
      ((((s₁.jump {s.next, s.next + 1}).enter s.next).phi [s.current]).bindAll xs) s₂) :
    Analyses (.forIn q xs b) s
      (((s₂.jump {s.next, s.next + 1}).addIncoming s.next s₂.current).enter (s.next + 1)) := by
  intro I ready h
  have hlt := h.isOpen.current_lt
  obtain ⟨I₁, ha₁, hc₁, hl₁⟩ := ih₁ I ready (h.reserve 2)
  have hx₁ := (h₁.frame (h.isOpen.reserve 2)).2
  have hle₁ := hx₁.next_le
  simp only [State.reserve_next] at hle₁
  have hhead : Pending s₁ s.next :=
    Pending.lower ⟨by simp, by simp; omega, by simp [h.isOpen.blank]⟩ hx₁
  have hend : Pending s₁ (s.next + 1) :=
    Pending.lower ⟨by simp, by simp; omega, by simp [h.isOpen.blank]⟩ hx₁
  have hblank₁ : JumpOk s₁ I₁ {s.next, s.next + 1} := by
    rintro c (rfl | rfl)
    · exact Or.inl hhead.blank
    · exact Or.inl hend.blank
  -- The body and the end are entered from the range, which has been evaluated.
  have hI₁ : ∀ c ∈ ({s.next, s.next + 1} : Set Nat),
      meetAt I₁ {s.next, s.next + 1} (Known s₁ I₁) c = Known s₁ I₁ := fun c hc => by
    have hcr : s.next ≤ c ∧ c < s.next + 2 := by
      rcases hc with rfl | hc
      · omega
      · rw [Set.mem_singleton_iff] at hc
        omega
    rw [meetAt_of_mem hc, hc₁.old c (by simpa using hcr.2), h.top c hcr.1, Set.univ_inter]
  obtain ⟨hav, hkv⟩ := ha₁.branch (by simpa using ⟨hhead.lt, hend.lt⟩) hblank₁ hhead
    (hI₁ _ (by simp)) ha₁.bounded ha₁.isReady
  obtain ⟨hap, hkp⟩ := hav.phi [s.current]
  have hend := hend.branch (T := {s.next, s.next + 1}) (c := s.next) (by omega)
  have hend : Pending
      ((((s₁.jump {s.next, s.next + 1}).enter s.next).phi [s.current]).bindAll xs) (s.next + 1) :=
    ⟨hend.lt, hend.ne, by
      rw [State.bindAll_blocks, State.phi_blocks, if_neg hend.ne, hend.blank]⟩
  have hab := hap.bindAll xs
  obtain ⟨I₂, ha₂, hc₂, hl₂⟩ := ih₂ _ _ hab
  have hkb : Known ((((s₁.jump {s.next, s.next + 1}).enter s.next).phi [s.current]).bindAll xs)
      (meetAt I₁ {s.next, s.next + 1} (Known s₁ I₁)) = Known s₁ I₁ := hkp.trans hkv
  have hx₂ := (h₂.frame hab.isOpen).2
  have hend := hend.lower hx₂
  -- The jump back and the jump out are to blocks with what the sequence left known.
  have hI₂ : ∀ c ∈ ({s.next, s.next + 1} : Set Nat), I₂ c = Known s₁ I₁ := fun c hc => by
    have hcr : c < s.next + 2 := by
      rcases hc with rfl | hc
      · omega
      · rw [Set.mem_singleton_iff] at hc
        omega
    rw [hc₂.old c (by simp; omega), hI₁ c hc]
  have hsub : Known s₁ I₁ ⊆ Known s₂ I₂ := by
    rw [← hkb]
    exact hc₂.known
  have hblank₂ : JumpOk s₂ I₂ {s.next, s.next + 1} := fun c hc =>
      Or.inr (by rw [hI₂ c hc]; exact hsub)
  have hIend : meetAt I₂ {s.next, s.next + 1} (Known s₂ I₂) (s.next + 1) = Known s₁ I₁ := by
    rw [meetAt_of_subset (by rw [hI₂ _ (by simp)]; exact hsub), hI₂ _ (by simp)]
  have hready : Ready s₂ (Known s₁ I₁) (b.passBy (q.after ready ∪ {x | x ∈ xs})) := by
    rw [← hkb]
    exact h₂.ready_passBy hab.env hab.bounded hab.isReady
  have hheadlt : s.next < s₂.next := by have := hend.lt; omega
  obtain ⟨ha, hk⟩ := ha₂.branch (by simpa using ⟨hheadlt, hend.lt⟩) hblank₂ hend hIend
    (ha₁.bounded.mono hx₂.slots_le) hready
  obtain ⟨haa, hka⟩ := ha.addIncoming (b := s.next) hheadlt s₂.current
  have hc : Continues s I s₁ I₁ := ⟨fun c hc => hc₁.old c (by simp; omega), hc₁.known, hc₁.fresh⟩
  refine ⟨_, haa, ⟨fun c hcs => ?_, ?_, ?_⟩, ?_⟩
  · rw [meetAt_of_not_mem (by simp; omega), hc₂.old c (by simp; omega),
      meetAt_of_not_mem (by simp; omega), hc.old c hcs]
  · show _ ⊆ Known (((s₂.jump _).enter (s.next + 1)).addIncoming s.next s₂.current) _
    rw [hka, hk]
    exact hc.known
  · show ∀ r ∈ Known (((s₂.jump _).enter (s.next + 1)).addIncoming s.next s₂.current) _, _
    rw [hka, hk]
    exact hc.fresh
  · have hlv := loadsKnown_jump_iff hblank₁
    have hlp : LoadsKnown ((((s₁.jump {s.next, s.next + 1}).enter s.next).phi
        [s.current]).bindAll xs) (meetAt I₁ {s.next, s.next + 1} (Known s₁ I₁))
          ↔ LoadsKnown s₁ I₁ := (loadsKnown_congr (phi_events _ · _)).trans hlv
    show LoadsKnown ((s₂.jump _).addIncoming s.next s₂.current) _ ↔ _
    rw [loadsKnown_congr (addIncoming_events _ · _ _)]
    refine (loadsKnown_jump_iff hblank₂).trans (hl₂.trans ?_)
    rw [Tree.safe, ← and_assoc]
    exact and_congr_left' (hlp.trans hl₁)

/-- Lowering keeps an analysis up to date as the tree says. -/
theorem Lower.analyses (h : Lower f s s') : Analyses f s s' := by
  induction h with
  | skip s k => exact analyses_skip s k
  | bind s x => exact analyses_bind s x
  | declare s x => exact analyses_declare s x
  | read bound => exact analyses_read bound
  | @mention s x l _ =>
      exact fun I _ h => ⟨I,
        ⟨h.isOpen.mention x l, h.solution.congr (fun _ => rfl) fun _ => rfl, h.top, h.bounded,
          h.env, h.isReady⟩,
        ⟨fun _ _ => rfl, subset_rfl, fun _ hr => Or.inl hr⟩, by simp [Tree.safe, LoadsKnown]⟩
  | trap s =>
      intro I ready h
      have hts : ∀ c ∈ ({s.next, s.next + 1} : Set Nat), s.next ≤ c ∧ c < s.next + 2 := by simp
      obtain ⟨ha, hk⟩ := h.split hts (b := s.next + 1) (by simp)
      refine ⟨_, ha, ⟨fun b hb => ?_, ?_, ?_⟩, ?_⟩
      · exact meetAt_of_not_mem (by simp; omega)
      · rw [hk]
      · rw [hk]
        exact fun r hr => Or.inl hr
      · rw [Tree.safe, and_true]
        exact loadsKnown_jump_iff fun c hc => Or.inl (h.isOpen.blank c (hts c hc).1)
  | seq h₁ _ ih₁ ih₂ => exact analyses_seq h₁ ih₁ ih₂
  | shortCircuit h₁ h₂ ih₁ ih₂ => exact analyses_shortCircuit h₁ h₂ ih₁ ih₂
  | ifElse h₁ h₂ h₃ ih₁ ih₂ ih₃ => exact analyses_ifElse h₁ h₂ h₃ ih₁ ih₂ ih₃
  | ifElsePhi h₁ h₂ h₃ ih₁ ih₂ ih₃ => exact (analyses_ifElse h₁ h₂ h₃ ih₁ ih₂ ih₃).phi _
  | ifThen h₁ h₂ ih₁ ih₂ => exact analyses_ifThen h₁ h₂ ih₁ ih₂
  | «while» h₁ h₂ ih₁ ih₂ => exact analyses_while h₁ h₂ ih₁ ih₂
  | forIn h₁ h₂ ih₁ ih₂ => exact analyses_forIn h₁ h₂ ih₁ ih₂

omit [DecidableEq α] in
/-- Before any code nothing is initialised, and a variable is ready if it is no slot of
other code. -/
theorem Start.analysis (h : Start s) :
    Analysis s (fun b => {_r | b ≠ 0}) {x | s.env x ≠ some .foreignSlot} where
  isOpen := h.isOpen
  -- At the start there is one block and no edge: only the empty path leads to the entry.
  solution := {
    entry := by simp
    sound := fun a b hab => by
      rw [h.blocks] at hab
      exact absurd hab (Set.notMem_empty b)
    exact := fun b r hr => by
      simp only [ne_eq, Set.mem_ofPred_eq, not_not] at hr
      exact ⟨[], by rw [hr]; exact .entry, List.not_mem_nil⟩ }
  top b hb := by
    have hb0 : b ≠ 0 := by rw [h.next] at hb; omega
    simp [hb0]
  bounded r hr := by simp [Known, h.current, h.blocks, inits] at hr
  env x n hx := absurd hx (h.env x n)
  isReady x l hx := by
    cases l with
    | slot n => exact absurd hx (h.env x n)
    | _ => simp [hx, Loc.known, Known, h.current, h.blocks, inits]

/-- **Initialisation before use.** On every path through the lowered code each
load is of a slot that the path has initialised, exactly when the tree reads
ready variables only, where at first those are ready that have no slot of other
code. -/
theorem Lower.safe_iff (h : Lower f s s') (hs : Start s) :
    Safe s' ↔ f.safe {x | s.env x ≠ some .foreignSlot} := by
  obtain ⟨I', ha, -, hl⟩ := h.analyses _ _ hs.analysis
  rw [safe_iff_loadsKnown ha.solution, hl, and_iff_right]
  intro b before r after hes
  rw [hs.blocks] at hes
  simp at hes

end Flow
