import Mathlib.Data.Set.Card

/-!
# `Aike.Lib.Search`: search in a graph by marking

The nodes of the graph hold cells, and a cell refers to a node or to nothing. A search
starts from the cells `roots`. It has marked some nodes and still has to look at the cells
in `pending`; a cell that it looks at leaves `pending`, and when the cell refers to a node
without a mark, the node is marked and its cells are pending.

Nothing is said about the order: `pending` is a set, and an order of work that keeps the
set can be anything.

* `Searching.look`, `Searching.mark`: what the two steps keep.
* `Searching.marked_iff`: with nothing pending, exactly the nodes that can be reached are
  marked.
-/

set_option autoImplicit false

namespace Search

variable {N W : Type*} (target : W → Option N) (cells : N → Set W) (roots : Set W)

/-- A node that a root refers to, or a cell of a node that can be reached. -/
inductive Reached : N → Prop
  | root {w : W} {n : N} : w ∈ roots → target w = some n → Reached n
  | step {m : N} {w : W} {n : N} : Reached m → w ∈ cells m → target w = some n → Reached n

/-- A cell that a search has to look at. -/
def Seen (marked : Set N) (w : W) : Prop := w ∈ roots ∨ ∃ m ∈ marked, w ∈ cells m

/-- What holds all along a search. -/
structure Searching (marked : Set N) (pending : Set W) : Prop where
  reached : ∀ n ∈ marked, Reached target cells roots n
  seen : ∀ w ∈ pending, Seen cells roots marked w
  followed : ∀ w, Seen cells roots marked w → w ∈ pending ∨ ∀ n, target w = some n → n ∈ marked

namespace Searching

variable {target : W → Option N} {cells : N → Set W} {roots : Set W} {marked : Set N}
  {pending pending' : Set W} {w : W} {n : N}

/-- The start: no marks, and the roots are pending. -/
theorem start (target : W → Option N) (cells : N → Set W) (roots : Set W) :
    Searching target cells roots ∅ roots where
  reached := by simp
  seen := fun w hw => Or.inl hw
  followed := by
    intro w hw
    rcases hw with hw | ⟨m, hm, -⟩
    · exact Or.inl hw
    · exact absurd hm (Set.notMem_empty m)

/-- A search looks at a cell that refers to nothing new. -/
theorem look (h : Searching target cells roots marked pending)
    (hw : ∀ n, target w = some n → n ∈ marked) (hsub : pending' ⊆ pending)
    (hrest : ∀ v ∈ pending, v = w ∨ v ∈ pending') :
    Searching target cells roots marked pending' where
  reached := h.reached
  seen := fun v hv => h.seen v (hsub hv)
  followed := by
    intro v hv
    rcases h.followed v hv with hv | hv
    · rcases hrest v hv with rfl | hv
      · exact Or.inr hw
      · exact Or.inl hv
    · exact Or.inr hv

/-- A search looks at a cell that refers to a node without a mark. -/
theorem mark (h : Searching target cells roots marked pending) (hw : w ∈ pending)
    (hn : target w = some n) (hsub : pending' ⊆ pending ∪ cells n)
    (hcells : cells n ⊆ pending') (hrest : ∀ v ∈ pending, v = w ∨ v ∈ pending') :
    Searching target cells roots (insert n marked) pending' := by
  -- The node can be reached, as the cell is a root or in a node that can be.
  have hreached : Reached target cells roots n := by
    rcases h.seen w hw with hroot | ⟨m, hm, hcell⟩
    · exact .root hroot hn
    · exact .step (h.reached m hm) hcell hn
  have hmono : ∀ v, Seen cells roots marked v → Seen cells roots (insert n marked) v := by
    intro v hv
    rcases hv with hv | ⟨m, hm, hv⟩
    · exact Or.inl hv
    · exact Or.inr ⟨m, Set.mem_insert_of_mem n hm, hv⟩
  constructor
  · intro k hk
    rcases hk with rfl | hk
    · exact hreached
    · exact h.reached k hk
  · intro v hv
    rcases hsub hv with hv | hv
    · exact hmono v (h.seen v hv)
    · exact Or.inr ⟨n, Set.mem_insert n marked, hv⟩
  · intro v hv
    -- The cells of the new node are pending; the others were followed before.
    by_cases hold : Seen cells roots marked v
    · rcases h.followed v hold with hv | hv
      · rcases hrest v hv with rfl | hv
        · exact Or.inr fun k hk => by
            rw [hn, Option.some.injEq] at hk
            exact hk ▸ Set.mem_insert n marked
        · exact Or.inl hv
      · exact Or.inr fun k hk => Set.mem_insert_of_mem n (hv k hk)
    · rcases hv with hv | ⟨m, rfl | hm, hv⟩
      · exact absurd (Or.inl hv) hold
      · exact Or.inl (hcells hv)
      · exact absurd (Or.inr ⟨m, hm, hv⟩) hold

/-- A node that can be reached is marked when nothing is pending. -/
theorem marked_of_reached (h : Searching target cells roots marked ∅)
    (hn : Reached target cells roots n) : n ∈ marked := by
  have hall : ∀ w, Seen cells roots marked w → ∀ n, target w = some n → n ∈ marked := by
    intro w hw
    rcases h.followed w hw with hw | hw
    · exact absurd hw (Set.notMem_empty w)
    · exact hw
  induction hn with
  | root hroot hn => exact hall _ (Or.inl hroot) _ hn
  | step _ hcell hn ih => exact hall _ (Or.inr ⟨_, ih, hcell⟩) _ hn

/-- With nothing pending, the marks are on the nodes that can be reached. -/
theorem marked_iff (h : Searching target cells roots marked ∅) (n : N) :
    n ∈ marked ↔ Reached target cells roots n :=
  ⟨h.reached n, h.marked_of_reached⟩

end Searching

end Search
