import Mathlib.Data.Set.Insert
import Aike.Lib.Reach

/-!
# `Aike.Lib.Dependency`: settling what depends on other things

`dep a b` says that `a` depends on `b`. A node settles when everything that it
depends on is given or settles before it (`Settles`). Without cycles everything
settles with nothing given (`settles_of_acyclic`), and what lies on a cycle does
not (`Settles.not_cycle`).

`Breakable search as given` is about going through nodes in turn, where a node
that does not settle gets one more node as given, the one that `search` answers.
-/

set_option autoImplicit false

namespace Dependency

open Relation

variable {α : Type*} {dep : α → α → Prop} {given given' : Set α} {a b : α}

/-- Everything that `a` depends on, directly or not, comes to an end or to a
given node. -/
def Settles (dep : α → α → Prop) (given : Set α) (a : α) : Prop :=
  Acc (fun b a => dep a b ∧ b ∉ given) a

/-- What depends on nodes that settle or are given settles. -/
theorem Settles.intro (h : ∀ b, dep a b → b ∈ given ∨ Settles dep given b) :
    Settles dep given a :=
  ⟨a, fun b hb => (h b hb.1).resolve_left hb.2⟩

/-- What a node that settles depends on settles or is given. -/
theorem Settles.of_dep (h : Settles dep given a) (hab : dep a b) :
    b ∈ given ∨ Settles dep given b := by
  by_cases hb : b ∈ given
  · exact Or.inl hb
  · exact Or.inr (Acc.inv h ⟨hab, hb⟩)

/-- More settles when more is given. -/
theorem Settles.mono (h : Settles dep given a) (hsub : given ⊆ given') :
    Settles dep given' a := by
  induction h with
  | intro a _ ih =>
      refine ⟨a, fun b hb => ih b ⟨hb.1, fun hg => hb.2 (hsub hg)⟩⟩

/-- A node on a cycle without given nodes does not settle. -/
theorem Settles.not_cycle (h : Settles dep given a) :
    ¬ TransGen (fun a b => dep a b ∧ b ∉ given) a a := by
  induction h with
  | intro a _ ih =>
      intro hcycle
      obtain ⟨b, hab, hba⟩ := TransGen.head'_iff.mp hcycle
      exact ih b hab (TransGen.tail' hba hab)

/-- With nothing given, a node on a cycle does not settle. -/
theorem Settles.not_self (h : Settles dep ∅ a) : ¬ TransGen dep a a := by
  intro hcycle
  refine h.not_cycle (TransGen.mono (fun a b hab => ⟨hab, Set.notMem_empty b⟩) a a hcycle)

/-- Without cycles everything settles. -/
theorem settles_of_acyclic (h : Reach.Acyclic dep) (hfin : Set.Finite {a | ∃ b, dep a b}) (a : α) :
    Settles dep ∅ a :=
  Subrelation.accessible (fun hb => hb.1) ((h.wellFounded hfin).apply a)

/-- Go through nodes in turn. What does not settle has to settle with the node
that `search` answers given as well, and that node stays given. -/
def Breakable (dep : α → α → Prop) (search : α → Option α) : List α → Set α → Prop
  | [], _ => True
  | a :: as, given =>
      (Settles dep given a ∧ Breakable dep search as given) ∨
        (¬ Settles dep given a ∧ ∃ c, search a = some c ∧ Settles dep (insert c given) a ∧
          Breakable dep search as (insert c given))

/-- `as'` is `as` without some nodes that settle. -/
inductive Keeps (dep : α → α → Prop) (given : Set α) : List α → List α → Prop
  | nil : Keeps dep given [] []
  | keep {a : α} {as as' : List α} (h : Keeps dep given as as') :
      Keeps dep given (a :: as) (a :: as')
  | drop {a : α} {as as' : List α} (settles : Settles dep given a) (h : Keeps dep given as as') :
      Keeps dep given (a :: as) as'

variable {search : α → Option α}

/-- What settles anyway does not matter. -/
theorem Keeps.breakable_iff {as as' : List α} (h : Keeps dep given as as') :
    ∀ {given' : Set α}, given ⊆ given' →
      (Breakable dep search as given' ↔ Breakable dep search as' given') := by
  induction h with
  | nil => exact fun _ => Iff.rfl
  | keep _ ih =>
      intro given' hsub
      have hcut (c : α) := ih (hsub.trans (Set.subset_insert c given'))
      simp only [Breakable, ih hsub, hcut]
  | drop hs _ ih =>
      intro given' hsub
      have hs' := hs.mono hsub
      simp only [Breakable, ih hsub, hs', true_and, not_true_eq_false, false_and, or_false]

/-- Where the first node does not settle, its turn comes again with what `search`
answers given. -/
theorem breakable_cons_iff {c : α} {as : List α} (h : ¬ Settles dep given a)
    (hc : search a = some c) :
    Breakable dep search (a :: as) given ↔ Breakable dep search (a :: as) (insert c given) := by
  constructor
  · rintro (⟨hs, -⟩ | ⟨-, c', hc', hs, hb⟩)
    · exact absurd hs h
    · rw [hc, Option.some.injEq] at hc'
      subst hc'
      exact Or.inl ⟨hs, hb⟩
  · rintro (⟨hs, hb⟩ | ⟨hn, c', hc', hs, -⟩)
    · exact Or.inr ⟨h, c, hc, hs, hb⟩
    · -- the search answers what is given already
      rw [hc, Option.some.injEq] at hc'
      subst hc'
      rw [Set.insert_eq_of_mem (Set.mem_insert c given)] at hs
      exact absurd hs hn

/-- Nothing has to be given where everything settles. -/
theorem breakable_of_settles (h : ∀ a, Settles dep given a) (as : List α) :
    Breakable dep search as given := by
  induction as with
  | nil => trivial
  | cons a as ih => exact Or.inl ⟨h a, ih⟩

end Dependency
