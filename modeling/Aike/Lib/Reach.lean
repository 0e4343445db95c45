import Mathlib.Logic.Relation
import Mathlib.Order.WellFounded
import Mathlib.Order.WellFoundedSet

/-!
# `Aike.Lib.Reach`: graphs without cycles

A directed graph is a relation `r : α → α → Prop`. The facts here are about one
way of growing it, where a node `u` gets edges to the nodes of a set `S`:

* `acyclic_addFrom_iff`: the grown graph has no cycle exactly when the old one
  has none and no node of `S` leads back to `u`.
* `Acyclic.wellFounded`: when only finitely many nodes have an edge leaving
  them, an acyclic graph can be followed by well-founded recursion.
* `exists_fixpoint`: values for the nodes of such a graph, where the value of a
  node is given by those of its successors.
-/

set_option autoImplicit false

namespace Reach

open Relation

variable {α : Type*}

/-- No node leads back to itself. -/
def Acyclic (r : α → α → Prop) : Prop := ∀ a, ¬ TransGen r a a

/-- The graph `r` with edges from `u` to every node of `S`. -/
def addFrom (r : α → α → Prop) (u : α) (S : Set α) : α → α → Prop :=
  fun a b => r a b ∨ (a = u ∧ b ∈ S)

/-- A relation without cycles has none when edges are left out. -/
theorem Acyclic.mono {r s : α → α → Prop} (h : ∀ a b, r a b → s a b) (hs : Acyclic s) :
    Acyclic r :=
  fun a hr => hs a (TransGen.mono h a a hr)

/-- A path of the grown graph is an old path, or it reaches `u` by an old path
and goes on from `S` by another. -/
theorem transGen_addFrom {r : α → α → Prop} {u : α} {S : Set α} {a b : α}
    (h : TransGen (addFrom r u S) a b) :
    TransGen r a b ∨ (ReflTransGen r a u ∧ ∃ s ∈ S, ReflTransGen r s b) := by
  induction h with
  | single hab =>
      rcases hab with hab | ⟨rfl, hb⟩
      · exact Or.inl (.single hab)
      · exact Or.inr ⟨.refl, _, hb, .refl⟩
  | tail _ hcb ih =>
      rcases hcb with hcb | ⟨rfl, hb⟩
      · rcases ih with ih | ⟨hau, s, hs, hsc⟩
        · exact Or.inl (ih.tail hcb)
        · exact Or.inr ⟨hau, s, hs, hsc.tail hcb⟩
      · rcases ih with ih | ⟨hau, -⟩
        · exact Or.inr ⟨ih.to_reflTransGen, _, hb, .refl⟩
        · exact Or.inr ⟨hau, _, hb, .refl⟩

/-- Growing an acyclic graph at `u` keeps it acyclic exactly when no new target
leads back to `u`. -/
theorem acyclic_addFrom_iff {r : α → α → Prop} {u : α} {S : Set α} :
    Acyclic (addFrom r u S) ↔ Acyclic r ∧ ∀ s ∈ S, ¬ ReflTransGen r s u := by
  constructor
  · intro h
    refine ⟨h.mono fun a b hab => Or.inl hab, fun s hs hsu => h u ?_⟩
    have hus : addFrom r u S u s := Or.inr ⟨rfl, hs⟩
    exact TransGen.head' hus (ReflTransGen.mono (fun a b hab => Or.inl hab) s u hsu)
  · rintro ⟨hr, hS⟩ a ha
    rcases transGen_addFrom ha with ha | ⟨hau, s, hs, hsa⟩
    · exact hr a ha
    · exact hS s hs (hsa.trans hau)

/-- In an acyclic graph with finitely many nodes that have a successor, the
successors of a node are below it in a well-founded order. -/
theorem Acyclic.wellFounded {r : α → α → Prop} (h : Acyclic r)
    (hfin : Set.Finite {a | ∃ b, r a b}) : WellFounded (fun b a => r a b) := by
  have := hfin.to_subtype
  let below (x y : {a | ∃ b, r a b}) : Prop := TransGen r y.1 x.1
  have : IsTrans _ below := ⟨fun x y z hxy hyz => hyz.trans hxy⟩
  have : Std.Irrefl below := ⟨fun x => h x.1⟩
  have hwf : WellFounded below := Finite.wellFounded_of_trans_of_irrefl below
  have hsource : ∀ x : {a | ∃ b, r a b}, Acc (fun b a => r a b) x.1 := by
    intro x
    induction x using hwf.induction with
    | _ x ih =>
        refine ⟨_, fun b hxb => ?_⟩
        by_cases hb : ∃ c, r b c
        · exact ih ⟨b, hb⟩ (.single hxb)
        · exact ⟨_, fun c hbc => absurd ⟨c, hbc⟩ hb⟩
  refine ⟨fun a => ⟨_, fun b _ => ?_⟩⟩
  by_cases hb : ∃ c, r b c
  · exact hsource ⟨b, hb⟩
  · exact ⟨_, fun c hbc => absurd ⟨c, hbc⟩ hb⟩

/-- Values for the nodes of a graph that can be followed by well-founded recursion: `F`
says what the value of a node is, and looks at the values of its successors only. -/
theorem exists_fixpoint {β : Type*} [Inhabited β] {r : α → α → Prop}
    (hwf : WellFounded (fun b a => r a b)) (F : α → (α → β) → β)
    (hF : ∀ a f g, (∀ b, r a b → f b = g b) → F a f = F a g) :
    ∃ f : α → β, ∀ a, f a = F a f := by
  classical
  let step (a : α) (rec : ∀ b, r a b → β) : β :=
    F a fun b => if h : r a b then rec b h else default
  refine ⟨hwf.fix step, fun a => ?_⟩
  rw [hwf.fix_eq]
  exact hF a _ _ fun b hb => dif_pos hb

end Reach
