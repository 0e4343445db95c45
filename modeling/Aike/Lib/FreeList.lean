import Mathlib.Data.List.Nodup

/-!
# `Aike.Lib.FreeList`: lists in a memory

A singly linked list is a pointer to its first node and a function `next` that gives the
pointer in each node; the null pointer is `0`. `Spells next head xs` says that they spell
out the list `xs`. A free list is such a list, where a node is put in and taken out at the
front.
-/

set_option autoImplicit false

/-- The pointers from `head` on lead through `xs` and end with the null pointer. -/
def Spells (next : Nat → Nat) : Nat → List Nat → Prop
  | head, [] => head = 0
  | head, x :: xs => head = x ∧ x ≠ 0 ∧ Spells next (next x) xs

namespace Spells

variable {next next' : Nat → Nat} {head x : Nat} {xs : List Nat}

/-- A list depends on the pointers in its nodes. -/
theorem congr (h : Spells next head xs) (hsame : ∀ a ∈ xs, next' a = next a) :
    Spells next' head xs := by
  induction xs generalizing head with
  | nil => exact h
  | cons x xs ih =>
      rcases h with ⟨hhead, hx, hrest⟩
      have hnext : next' x = next x := hsame x List.mem_cons_self
      exact ⟨hhead, hx, hnext ▸ ih hrest fun a ha => hsame a (List.mem_cons_of_mem x ha)⟩

/-- A node that points to the front of a list is the front of a longer one. -/
theorem push (h : Spells next head xs) (hx : x ≠ 0) (hnew : next' x = head)
    (hsame : ∀ a ∈ xs, next' a = next a) : Spells next' x (x :: xs) := by
  have hrest := h.congr hsame
  rw [← hnew] at hrest
  exact ⟨rfl, hx, hrest⟩

/-- A pointer that is not null is that of the first node, and the rest is a list. -/
theorem pop (h : Spells next head xs) (hne : head ≠ 0) :
    ∃ ys, xs = head :: ys ∧ Spells next (next head) ys := by
  cases xs with
  | nil => exact absurd h hne
  | cons x xs =>
      rcases h with ⟨rfl, -, hrest⟩
      exact ⟨xs, rfl, hrest⟩

/-- The pointer to a list is null or that of a node. -/
theorem head_mem (h : Spells next head xs) : head = 0 ∨ head ∈ xs := by
  cases xs with
  | nil => exact Or.inl h
  | cons x xs => exact Or.inr (h.1 ▸ List.mem_cons_self)

/-- The null pointer spells the empty list only. -/
theorem eq_nil (h : Spells next 0 xs) : xs = [] := by
  cases xs with
  | nil => rfl
  | cons x xs => exact absurd h.1.symm h.2.1

/-- The pointers spell out one list. -/
theorem unique {ys : List Nat} (h : Spells next head xs) (h' : Spells next head ys) : xs = ys := by
  induction xs generalizing head ys with
  | nil =>
      have hnull : head = 0 := h
      subst hnull
      exact h'.eq_nil.symm
  | cons x xs ih =>
      rcases h with ⟨rfl, hx, hrest⟩
      cases ys with
      | nil => exact absurd h' hx
      | cons y ys =>
          rcases h' with ⟨rfl, -, hrest'⟩
          rw [ih hrest hrest']

end Spells
