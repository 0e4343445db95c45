import Mathlib.Data.List.Basic

/-!
# `Aike.Lib.Precedence`: trees of binary operators

A tree of binary operators is read from left to right as its first operand and then
each operator with the operand after it. Operators have a priority, and a tree is
`Ordered` if stronger operators are below weaker ones and equal ones associate to the
left.

* `Ordered.eq_of_reading`: what is read has one ordered tree at most. The operator at
  the root is the last of the weakest ones.
* `Climbed` is what a loop of precedence climbing makes of its left operand, and
  `Ready` what it needs. `Climbed.stop`, `Climbed.take` and `Climbed.trans` are its
  steps.
-/

set_option autoImplicit false

namespace Precedence

/-- A tree of operators over operands. -/
inductive OpTree (π ο : Type)
  | leaf (p : π)
  | node (op : ο) (left right : OpTree π ο)

variable {π ο : Type}

namespace OpTree

/-- The operand that is read first. -/
def first : OpTree π ο → π
  | leaf p => p
  | node _ left _ => left.first

/-- The operators that are read, each with the operand after it. -/
def rest : OpTree π ο → List (ο × π)
  | leaf _ => []
  | node op left right => left.rest ++ (op, right.first) :: right.rest

/-- The operator at the root. -/
def root? : OpTree π ο → Option ο
  | leaf _ => none
  | node op _ _ => some op

/-- At each operator, the one at the root of the left operand is at least as strong and
the one at the root of the right operand is stronger. -/
def Ordered (prio : ο → Nat) : OpTree π ο → Prop
  | leaf _ => True
  | node op left right =>
      (∀ o ∈ left.root?, prio op ≤ prio o) ∧ (∀ o ∈ right.root?, prio op < prio o) ∧
        left.Ordered prio ∧ right.Ordered prio

end OpTree

open OpTree

variable {prio : ο → Nat}

/-! ### One tree for a reading -/

/-- In an ordered tree no operator is weaker than the one at the root. -/
theorem Ordered.le_of_mem {t : OpTree π ο} (h : t.Ordered prio) {bound : Nat}
    (hroot : ∀ o ∈ t.root?, bound ≤ prio o) : ∀ x ∈ t.rest, bound ≤ prio x.1 := by
  induction t generalizing bound with
  | leaf p => exact fun x hx => absurd hx List.not_mem_nil
  | node op left right ihl ihr =>
      intro x hx
      obtain ⟨hleft, hright, hl, hr⟩ := h
      have hop : bound ≤ prio op := hroot op rfl
      rcases List.mem_append.mp hx with hx | hx
      · exact ihl hl (fun o ho => Nat.le_trans hop (hleft o ho)) x hx
      · rcases List.mem_cons.mp hx with rfl | hx
        · exact hop
        · exact ihr hr (fun o ho => Nat.le_trans hop (Nat.le_of_lt (hright o ho))) x hx

/-- In an ordered tree the operators right of the root are stronger than it. -/
theorem Ordered.lt_of_mem {op : ο} {left right : OpTree π ο}
    (h : (node op left right).Ordered prio) :
    ∀ x ∈ right.rest, prio op < prio x.1 := by
  obtain ⟨-, hright, -, hr⟩ := h
  exact @Ordered.le_of_mem π ο prio right hr (prio op + 1) hright

/-- Two splits of a list at an element are the same if neither can be inside of the
other. -/
theorem split_unique {α : Type} {u u' v v' : List α} {x x' : α}
    (h : u ++ x :: v = u' ++ x' :: v') (hv : ∀ y ∈ v, y ≠ x' ∨ x ∉ u')
    (hv' : ∀ y ∈ v', y ≠ x ∨ x' ∉ u) : u = u' ∧ x = x' ∧ v = v' := by
  rcases List.append_eq_append_iff.mp h with ⟨w, hu, hx⟩ | ⟨w, hu, hx⟩
  · cases w with
    | nil =>
        rw [List.append_nil] at hu
        cases hx
        exact ⟨hu.symm, rfl, rfl⟩
    | cons y w =>
        -- `x'` is in `v` and `x` is in `u'`
        cases hx
        have hmem : x' ∈ w ++ x' :: v' := List.mem_append_right w List.mem_cons_self
        have hmem' : x ∈ u' := by
          rw [hu]
          exact List.mem_append_right u List.mem_cons_self
        rcases hv x' hmem with hne | hnot
        · exact absurd rfl hne
        · exact absurd hmem' hnot
  · cases w with
    | nil =>
        rw [List.append_nil] at hu
        cases hx
        exact ⟨hu, rfl, rfl⟩
    | cons y w =>
        cases hx
        have hmem : x ∈ w ++ x :: v := List.mem_append_right w List.mem_cons_self
        have hmem' : x' ∈ u := by
          rw [hu]
          exact List.mem_append_right u' List.mem_cons_self
        rcases hv' x hmem with hne | hnot
        · exact absurd rfl hne
        · exact absurd hmem' hnot

/-- What is read has one ordered tree at most. -/
theorem Ordered.eq_of_reading {t t' : OpTree π ο} (h : t.Ordered prio) (h' : t'.Ordered prio)
    (hfirst : t.first = t'.first) (hrest : t.rest = t'.rest) : t = t' := by
  induction t generalizing t' with
  | leaf p =>
      cases t' with
      | leaf p' => exact congrArg leaf hfirst
      | node op' left' right' =>
          have hnil : ([] : List (ο × π)) =
              left'.rest ++ (op', right'.first) :: right'.rest := hrest
          simp at hnil
  | node op left right ihl ihr =>
      cases t' with
      | leaf p' =>
          have hnil : left.rest ++ (op, right.first) :: right.rest = [] := hrest
          simp at hnil
      | node op' left' right' =>
          have hright := Ordered.lt_of_mem h
          have hright' := Ordered.lt_of_mem h'
          obtain ⟨hroot, -, hl, hr⟩ := h
          obtain ⟨hroot', -, hl', hr'⟩ := h'
          have hleft := Ordered.le_of_mem hl hroot
          have hleft' := Ordered.le_of_mem hl' hroot'
          -- left of a root nothing is weaker than it, right of it nothing is as weak
          obtain ⟨hlrest, hpair, hrrest⟩ := @split_unique _ left.rest left'.rest right.rest
            right'.rest (op, right.first) (op', right'.first) hrest
            (by
              intro y hy
              by_contra hcon
              rw [not_or, not_not, not_not] at hcon
              obtain ⟨rfl, hmem⟩ := hcon
              exact absurd (hright _ hy) (Nat.not_lt.mpr (hleft' _ hmem)))
            (by
              intro y hy
              by_contra hcon
              rw [not_or, not_not, not_not] at hcon
              obtain ⟨rfl, hmem⟩ := hcon
              exact absurd (hright' _ hy) (Nat.not_lt.mpr (hleft _ hmem)))
          obtain ⟨rfl, hfirst'⟩ := Prod.mk.inj hpair
          rw [ihl hl hl' hfirst hlrest, ihr hr hr' hfirst' hrrest]

/-! ### Climbing -/

/-- What a loop that takes operators from `limit` on needs of its left operand: the next
operator is not stronger than the one at its root. -/
structure Ready (prio : ο → Nat) (limit : Nat) (left : OpTree π ο) (ops : List (ο × π)) : Prop where
  ordered : left.Ordered prio
  root : ∀ o ∈ left.root?, limit ≤ prio o
  above : ∀ o ∈ left.root?, ∀ x ∈ ops.head?, prio x.1 ≤ prio o

/-- What the loop makes of its left operand, and the operators that it leaves. -/
structure Climbed (prio : ο → Nat) (limit : Nat) (left : OpTree π ο) (ops : List (ο × π))
    (t : OpTree π ο) (ops' : List (ο × π)) : Prop where
  first_eq : t.first = left.first
  takes : ∃ taken, t.rest = left.rest ++ taken ∧ ops = taken ++ ops'
  ordered : t.Ordered prio
  root : ∀ o ∈ t.root?, limit ≤ prio o
  stops : ∀ x ∈ ops'.head?, prio x.1 < limit

/-- An operand is ready for any operators, as it has none at its root. -/
theorem Ready.leaf {limit : Nat} {p : π} {ops : List (ο × π)} : Ready prio limit (leaf p) ops :=
  ⟨trivial, fun _ h => (nomatch h), fun _ h => (nomatch h)⟩

/-- Ready to take the next operator, and those that are as strong. -/
theorem Ready.next {limit : Nat} {left : OpTree π ο} {x : ο × π} {ops : List (ο × π)}
    (h : Ready prio limit left (x :: ops)) : Ready prio (prio x.1) left (x :: ops) :=
  ⟨h.ordered, fun o ho => h.above o ho x rfl, h.above⟩

namespace Climbed

variable {limit limit' : Nat} {left right t t' : OpTree π ο} {op : ο} {p : π}
  {ops ops' ops'' : List (ο × π)}

/-- The loop ends before an operator that is weaker. -/
theorem stop (h : Ready prio limit left ops) (hstop : ∀ x ∈ ops.head?, prio x.1 < limit) :
    Climbed prio limit left ops left ops :=
  ⟨rfl, ⟨[], (List.append_nil _).symm, rfl⟩, h.ordered, h.root, hstop⟩

/-- Another loop can go on with what a loop has made. -/
theorem ready (h : Climbed prio limit' left ops t ops') (hle : limit ≤ limit') :
    Ready prio limit t ops' := by
  refine ⟨h.ordered, fun o ho => Nat.le_trans hle (h.root o ho), fun o ho x hx => ?_⟩
  exact Nat.le_trans (Nat.le_of_lt (h.stops x hx)) (h.root o ho)

/-- A loop that stops, and goes on from where it stopped, climbs all the way. -/
theorem trans (h : Climbed prio limit' left ops t ops') (h' : Climbed prio limit t ops' t' ops'') :
    Climbed prio limit left ops t' ops'' := by
  obtain ⟨taken, hrest, hops⟩ := h.takes
  obtain ⟨taken', hrest', hops'⟩ := h'.takes
  refine ⟨h'.first_eq.trans h.first_eq, ⟨taken ++ taken', ?_, ?_⟩, h'.ordered, h'.root, h'.stops⟩
  · rw [hrest', hrest, List.append_assoc]
  · rw [hops, hops', List.append_assoc]

/-- A loop leaves no more operators than it was given. -/
theorem length_le (h : Climbed prio limit left ops t ops') : ops'.length ≤ ops.length := by
  obtain ⟨taken, -, rfl⟩ := h.takes
  rw [List.length_append]
  exact Nat.le_add_left _ _

/-- A loop that can take an operator takes one. -/
theorem length_lt {x : ο × π} (h : Climbed prio limit left (x :: ops) t ops')
    (hlimit : limit ≤ prio x.1) : ops'.length < (x :: ops).length := by
  obtain ⟨taken, -, hops⟩ := h.takes
  cases taken with
  | nil =>
      rw [List.nil_append] at hops
      exact absurd (h.stops x (by rw [← hops]; rfl)) (Nat.not_lt.mpr hlimit)
  | cons y taken =>
      rw [hops, List.cons_append, List.length_cons, List.length_append]
      omega

/-- Ready to go on after an operator and its right operand. -/
theorem ready_node (h : Ready prio limit left ((op, p) :: ops)) (hlimit : limit ≤ prio op)
    (hright : Climbed prio (prio op + 1) (leaf p) ops right ops') :
    Ready prio limit (node op left right) ops' := by
  refine ⟨⟨fun o ho => h.above o ho _ rfl, hright.root, h.ordered, hright.ordered⟩, ?_, ?_⟩
  · rintro o ⟨⟩
    exact hlimit
  · rintro o ⟨⟩ x hx
    exact Nat.le_of_lt_succ (hright.stops x hx)

/-- The loop takes an operator with its right operand and goes on. -/
theorem take (hright : Climbed prio (prio op + 1) (leaf p) ops right ops')
    (h : Climbed prio limit (node op left right) ops' t ops'') :
    Climbed prio limit left ((op, p) :: ops) t ops'' := by
  obtain ⟨taken, hrest, rfl⟩ := hright.takes
  obtain ⟨taken', hrest', rfl⟩ := h.takes
  refine ⟨h.first_eq, ⟨(op, p) :: (taken ++ taken'), ?_, by simp⟩, h.ordered, h.root, h.stops⟩
  calc t.rest
      = left.rest ++ (op, right.first) :: right.rest ++ taken' := hrest'
    _ = left.rest ++ (op, right.first) :: (right.rest ++ taken') := by
        rw [List.append_assoc, List.cons_append]
    _ = left.rest ++ (op, p) :: (taken ++ taken') := by
        rw [hright.first_eq, hrest]
        rfl

end Climbed

end Precedence
