import Mathlib.Data.List.Induction
import Mathlib.Data.List.Nodup

/-!
# `Aike.Lib.Linked`: doubly linked lists

A doubly linked list is a list of nodes and a partial map `link` that gives for each of
them the node before it and the node after it. `Linked link head tail xs` says that the
pointers `head` and `tail` and the links spell out the list `xs`, in which no node occurs
twice.

* `Linked.push`: what links a new node after the last one adds it at the end.
* `Linked.pop`: what unlinks the first node leaves the rest.
* `Linked.frame`: nodes outside of the list may be linked in any way.
-/

set_option autoImplicit false

namespace Linked

variable {α : Type*}

/-- The two pointers of a node. -/
structure Links (α : Type*) where
  prev : Option α
  next : Option α

/-- The links of the nodes `xs` run from one to the next, between a node before the first
and a node after the last. -/
def Chain (link : α → Option (Links α)) (before after : Option α) : List α → Prop
  | [] => True
  | x :: xs => link x = some ⟨before, xs.head?.or after⟩ ∧ Chain link (some x) after xs

/-- A chain starts with a node that is linked to the one before it and to the next, and
goes on from there. -/
theorem chain_cons {link : α → Option (Links α)} {before after : Option α} {x : α}
    {xs : List α} :
    Chain link before after (x :: xs)
      ↔ link x = some ⟨before, xs.head?.or after⟩ ∧ Chain link (some x) after xs :=
  Iff.rfl

/-- A chain is two chains that meet. -/
theorem chain_append {link : α → Option (Links α)} {before after : Option α} {xs ys : List α} :
    Chain link before after (xs ++ ys)
      ↔ Chain link before (ys.head?.or after) xs
        ∧ Chain link (xs.getLast?.or before) after ys := by
  induction xs generalizing before with
  | nil => simp [Chain]
  | cons x xs ih =>
      have hlast : (x :: xs).getLast?.or before = xs.getLast?.or (some x) := by
        rw [List.getLast?_cons]
        cases xs.getLast? <;> rfl
      have hhead : ((xs ++ ys).head?).or after = xs.head?.or (ys.head?.or after) := by
        rw [List.head?_append, Option.or_assoc]
      rw [List.cons_append, chain_cons, chain_cons, ih, hlast, hhead, and_assoc]

/-- A chain depends on the links of its nodes only. -/
theorem Chain.congr {link link' : α → Option (Links α)} {before after : Option α} {xs : List α}
    (h : Chain link before after xs) (hsame : ∀ a ∈ xs, link' a = link a) :
    Chain link' before after xs := by
  induction xs generalizing before with
  | nil => trivial
  | cons x xs ih =>
      obtain ⟨hx, hxs⟩ := h
      refine ⟨?_, ih hxs fun a ha => hsame a (List.mem_cons_of_mem _ ha)⟩
      rw [hsame x List.mem_cons_self]
      exact hx

/-- Every node of a chain has links. -/
theorem Chain.exists_links {link : α → Option (Links α)} {before after : Option α} {xs : List α}
    (h : Chain link before after xs) {a : α} (ha : a ∈ xs) : ∃ l, link a = some l := by
  induction xs generalizing before with
  | nil => simp at ha
  | cons x xs ih =>
      rcases List.mem_cons.mp ha with rfl | ha
      · exact ⟨_, h.1⟩
      · exact ih h.2 ha

end Linked

open Linked in
/-- The pointers `head` and `tail` and the links spell out `xs`. -/
structure Linked {α : Type*} (link : α → Option (Links α)) (head tail : Option α)
    (xs : List α) : Prop where
  head_eq : head = xs.head?
  tail_eq : tail = xs.getLast?
  nodup : xs.Nodup
  chain : Chain link none none xs

namespace Linked

variable {α : Type*} {link link' : α → Option (Links α)} {head tail : Option α} {x : α}
  {xs : List α}

/-- Without nodes, both pointers are null. -/
theorem nil (link : α → Option (Links α)) : Linked link none none [] :=
  ⟨rfl, rfl, .nil, trivial⟩

/-- The list is empty when one of the pointers is null. -/
theorem eq_nil_of_tail (h : Linked link head none xs) : xs = [] :=
  List.getLast?_eq_none_iff.mp h.tail_eq.symm

/-- A list stays as it is when the links of other nodes change. -/
theorem frame (h : Linked link head tail xs) (hsame : ∀ a ∈ xs, link' a = link a) :
    Linked link' head tail xs :=
  ⟨h.head_eq, h.tail_eq, h.nodup, h.chain.congr hsame⟩

/-- A node that is linked after the last one is at the end of the list. -/
theorem push (h : Linked link head tail xs) (hx : x ∉ xs)
    (hnew : link' x = some ⟨tail, none⟩)
    (hlast : ∀ t, tail = some t → ∃ l, link t = some l ∧ link' t = some ⟨l.prev, some x⟩)
    (hframe : ∀ a ∈ xs, tail ≠ some a → link' a = link a) :
    Linked link' (head.or (some x)) (some x) (xs ++ [x]) := by
  refine ⟨?_, ?_, ?_, ?_⟩
  · rw [h.head_eq, List.head?_append]
    rfl
  · rw [List.getLast?_append]
    rfl
  · exact List.nodup_append.mpr ⟨h.nodup, List.nodup_singleton x, fun a ha b hb => by
      rw [List.mem_singleton.mp hb]
      exact fun heq => hx (heq ▸ ha)⟩
  · rw [chain_append]
    refine ⟨?_, ?_, trivial⟩
    · -- The nodes before the last one keep their links.
      cases xs using List.reverseRecOn with
      | nil => trivial
      | append_singleton ys t =>
          -- The old last node is the one whose link changes.
          have ht : tail = some t := by rw [h.tail_eq, List.getLast?_concat]
          have hchain := chain_append.mp h.chain
          obtain ⟨l, hl, hl'⟩ := hlast t ht
          have hl₂ : link t = some ⟨ys.getLast?.or none, none⟩ := hchain.2.1
          rw [hl, Option.some.injEq] at hl₂
          refine chain_append.mpr ⟨hchain.1.congr fun a ha => ?_, ?_, trivial⟩
          · refine hframe a (List.mem_append_left _ ha) fun hat => ?_
            rw [ht, Option.some.injEq] at hat
            have hnodup := (List.nodup_append.mp h.nodup).2.2 a ha t (by simp)
            exact hnodup hat.symm
          · rw [hl', hl₂]
            rfl
    · rw [hnew, h.tail_eq]
      cases xs.getLast? <;> rfl

/-- What is left when the first node is unlinked. -/
theorem pop (h : Linked link head tail (x :: xs))
    (hfirst : ∀ y, xs.head? = some y → ∃ l, link y = some l ∧ link' y = some ⟨none, l.next⟩)
    (hframe : ∀ a ∈ xs.tail, link' a = link a) :
    Linked link' xs.head? xs.getLast? xs := by
  refine ⟨rfl, rfl, h.nodup.of_cons, ?_⟩
  cases xs with
  | nil => trivial
  | cons y ys =>
      obtain ⟨-, hy, hys⟩ := h.chain
      obtain ⟨l, hl, hl'⟩ := hfirst y rfl
      rw [hl, Option.some.injEq] at hy
      refine ⟨?_, hys.congr hframe⟩
      rw [hl', hy]

/-- The links of the first node. -/
theorem link_head (h : Linked link head tail (x :: xs)) : link x = some ⟨none, xs.head?⟩ := by
  have hx := h.chain.1
  rwa [Option.or_none] at hx

end Linked
