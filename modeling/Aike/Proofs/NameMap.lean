import Mathlib.Data.List.Induction
import Aike.Model.Resolve

/-!
# `Aike.Proofs.NameMap`: the scopes of a name map

A `NameMap` keeps its bindings twice: in a map from names to chains, and in a stack.
`NameMap.ofBindings` is the map with some bindings, and `pop` takes away the latest.

`nameMap_scoped` is about runs: the bindings of a name are the pushed values that no
`pop` has taken away since.
-/

set_option autoImplicit false

namespace Aike

namespace NameMap

variable {α : Type}

/-- The map with some bindings of names, latest first. -/
def ofBindings : List (Str × α) → NameMap α
  | [] => {}
  | b :: bs => (ofBindings bs).push b.1 b.2

/-- The values of a name are those of its bindings, the latest first. -/
theorem data_ofBindings (bs : List (Str × α)) (name : Str) :
    (ofBindings bs).data name = (bs.filter fun b => b.1 = name).map Prod.snd := by
  induction bs with
  | nil => rfl
  | cons b bs ih =>
      show (if name = b.1 then b.2 :: (ofBindings bs).data b.1 else (ofBindings bs).data name) = _
      by_cases h : name = b.1
      · subst h
        rw [if_pos rfl, ih, List.filter_cons_of_pos (by simp), List.map_cons]
      · rw [if_neg h, ih, List.filter_cons_of_neg (by simpa using fun heq => h heq.symm)]

/-- The map has as many entries on its stack as there are bindings. -/
theorem top_ofBindings (bs : List (Str × α)) : (ofBindings bs).top = bs.length := by
  induction bs with
  | nil => rfl
  | cons b bs ih => exact congrArg (· + 1) ih

/-- Cutting back takes away the bindings that were added. -/
theorem pop_ofBindings (added bs : List (Str × α)) :
    (ofBindings (added ++ bs)).pop bs.length = ofBindings bs := by
  induction added with
  | nil =>
      cases bs with
      | nil => rfl
      | cons b bs =>
          show popTo _ _ ((b.1, _) :: (ofBindings bs).stack) = _
          have htop : (ofBindings bs).stack.length = bs.length := top_ofBindings bs
          rw [popTo, if_neg (by rw [htop, List.length_cons]; omega)]
          rfl
  | cons b added ih =>
      show popTo _ _ ((b.1, _) :: (ofBindings (added ++ bs)).stack) = _
      have htop : (ofBindings (added ++ bs)).stack.length = added.length + bs.length := by
        rw [← List.length_append]
        exact top_ofBindings _
      rw [popTo, if_pos (by rw [htop]; omega), ← ih]
      -- what the binding shadowed comes back
      refine congrArg (fun data => popTo _ data _) (funext fun name => ?_)
      show (if name = b.1 then (ofBindings (added ++ bs)).data b.1 else
        if name = b.1 then _ else _) = _
      by_cases h : name = b.1
      · rw [if_pos h, h]
      · rw [if_neg h, if_neg h]
        rfl

end NameMap

/-! ### Runs -/

/-- An operation on a name map. `pop` is given the offset that `top` returned after the
first `mark` operations. -/
inductive NameOp (α : Type)
  | push (name : Str) (value : α)
  | pop (mark : Nat)

namespace NameOp

variable {α : Type}

/-- The mark of a `pop`. -/
def mark? : NameOp α → Option Nat
  | .push _ _ => none
  | .pop mark => some mark

/-- Each offset was obtained before it is used, and no offset that was obtained earlier
was used in between. -/
def Nested (ops : List (NameOp α)) : Prop :=
  ∀ n < ops.length, ∀ mark ∈ ops[n]?.bind mark?, mark ≤ n ∧
    ∀ k < n, mark ≤ k → ∀ mark' ∈ ops[k]?.bind mark?, mark ≤ mark'

instance (ops : List (NameOp α)) : Decidable (Nested ops) :=
  inferInstanceAs (Decidable (∀ n < ops.length, _))

/-- One operation, where `tops` is what `top` returned at first and after each operation
so far. -/
def apply (m : NameMap α) (tops : List Nat) : NameOp α → NameMap α
  | .push name value => m.push name value
  | .pop mark => m.pop (tops.getD mark 0)

/-- Some operations: the map, and what `top` returned. -/
def runFrom : NameMap α → List Nat → List (NameOp α) → NameMap α × List Nat
  | m, tops, [] => (m, tops)
  | m, tops, op :: ops =>
      let m := op.apply m tops
      runFrom m (tops ++ [m.top]) ops

/-- Some operations on the empty map. -/
def run (ops : List (NameOp α)) : NameMap α := (runFrom {} [0] ops).1

/-- The operation takes away what operation number `t` pushed. -/
def takesAway (t : Nat) (op : NameOp α) : Bool := op.mark?.any fun mark => decide (mark ≤ t)

/-- What is pushed and not taken away later, latest first, from operation number `t` on. -/
def liveFrom : Nat → List (NameOp α) → List (Str × α)
  | _, [] => []
  | t, .push name value :: ops =>
      liveFrom (t + 1) ops ++ if ops.any (takesAway t) then [] else [(name, value)]
  | t, .pop _ :: ops => liveFrom (t + 1) ops

/-- What is pushed and not taken away later, latest first. -/
def live (ops : List (NameOp α)) : List (Str × α) := liveFrom 0 ops

/-! ### What an operation does to the live bindings -/

section

variable {t mark : Nat} {ops before after : List (NameOp α)}

/-- A `pop` takes away what was pushed from its mark on. -/
theorem takesAway_iff {op : NameOp α} : op.takesAway t = true ↔ ∃ mark ∈ op.mark?, mark ≤ t := by
  cases op with
  | push name value => exact iff_of_false Bool.false_ne_true fun ⟨_, h, _⟩ => nomatch h
  | pop mark =>
      rw [show takesAway t (.pop mark : NameOp α) = decide (mark ≤ t) from rfl, decide_eq_true_eq]
      exact ⟨fun h => ⟨mark, rfl, h⟩, fun ⟨_, rfl, h⟩ => h⟩

/-- A push at the end is live, as nothing comes after it. -/
theorem liveFrom_append_push (name : Str) (value : α) :
    liveFrom t (ops ++ [.push name value]) = (name, value) :: liveFrom t ops := by
  induction ops generalizing t with
  | nil => rfl
  | cons op ops ih =>
      cases op with
      | push name' value' =>
          have hany : (ops ++ [NameOp.push name value]).any (takesAway t) =
              ops.any (takesAway t) := by
            rw [List.any_append]
            exact Bool.or_false _
          rw [List.cons_append, liveFrom, ih, hany, liveFrom, List.cons_append]
      | pop mark =>
          rw [List.cons_append, liveFrom, ih, liveFrom]

/-- Operations that take away nothing from before them add to what is live. -/
theorem liveFrom_append (h : ∀ op ∈ after, ∀ mark ∈ op.mark?, t + before.length ≤ mark) :
    liveFrom t (before ++ after) = liveFrom (t + before.length) after ++ liveFrom t before := by
  induction before generalizing t with
  | nil => rw [List.nil_append, liveFrom, List.append_nil, List.length_nil, Nat.add_zero]
  | cons op before ih =>
      rw [List.length_cons, Nat.add_comm _ 1, ← Nat.add_assoc] at h ⊢
      cases op with
      | push name value =>
          have hafter : after.any (takesAway t) = false := by
            rw [List.any_eq_false]
            intro op hop htakes
            obtain ⟨mark, hmark, hle⟩ := takesAway_iff.mp htakes
            have := h op hop mark hmark
            omega
          rw [List.cons_append, liveFrom, ih h, List.any_append, hafter, Bool.or_false, liveFrom,
            List.append_assoc]
      | pop mark => rw [List.cons_append, liveFrom, ih h, liveFrom]

/-- A `pop` takes away everything that was pushed after its offset was obtained. -/
theorem liveFrom_append_pop (h : mark ≤ t) : liveFrom t (ops ++ [.pop mark]) = [] := by
  induction ops generalizing t with
  | nil => rfl
  | cons op ops ih =>
      have hrest : liveFrom (t + 1) (ops ++ [.pop mark]) = [] := ih (Nat.le_succ_of_le h)
      cases op with
      | push name value =>
          have hany : (ops ++ [NameOp.pop mark]).any (takesAway t) = true := by
            rw [List.any_append, Bool.or_eq_true]
            exact .inr (Bool.or_eq_true_iff.mpr (.inl (takesAway_iff.mpr ⟨mark, rfl, h⟩)))
          rw [List.cons_append, liveFrom, hrest, if_pos hany, List.append_nil]
      | pop mark' => rw [List.cons_append, liveFrom, hrest]

end

/-! ### Nested offsets -/

variable {ops : List (NameOp α)} {op : NameOp α} {mark : Nat}

/-- What comes first in a nested sequence is nested. -/
theorem Nested.of_append {after : List (NameOp α)} (h : Nested (ops ++ after)) : Nested ops := by
  intro n hn mark hmark
  have hget : ∀ k < ops.length, (ops ++ after)[k]? = ops[k]? := fun k hk =>
    List.getElem?_append_left hk
  obtain ⟨hle, hbetween⟩ := h n (by rw [List.length_append]; omega) mark (by rwa [hget n hn])
  refine ⟨hle, fun k hk hmarkk mark' hmark' => hbetween k hk hmarkk mark' ?_⟩
  rwa [hget k (by omega)]

/-- A `pop` at the end of a nested sequence has a mark within it. -/
theorem Nested.le (h : Nested (ops ++ [.pop mark])) : mark ≤ ops.length := by
  have hlast : (ops ++ [.pop mark])[ops.length]? = some (.pop mark) := List.getElem?_concat_length
  refine (h ops.length (by rw [List.length_append]; exact Nat.lt_succ_self _) mark ?_).1
  rw [hlast]
  rfl

/-- What comes between an offset and its use takes away nothing from before. -/
theorem Nested.between (h : Nested (ops ++ [.pop mark])) :
    ∀ op ∈ ops.drop mark, ∀ mark' ∈ op.mark?, mark ≤ mark' := by
  have hlast : (ops ++ [.pop mark])[ops.length]? = some (.pop mark) := List.getElem?_concat_length
  intro op hop mark' hmark'
  obtain ⟨k, hk, rfl⟩ := List.mem_iff_getElem.mp hop
  rw [List.length_drop] at hk
  have hget : (ops ++ [.pop mark])[mark + k]? = some (ops.drop mark)[k] := by
    rw [List.getElem?_append_left (by omega), List.getElem_drop, List.getElem?_eq_getElem]
  refine (h ops.length (by rw [List.length_append]; exact Nat.lt_succ_self _) mark ?_).2
    (mark + k) (by omega) (Nat.le_add_right _ _) mark' ?_
  · rw [hlast]
    rfl
  · rw [hget]
    exact hmark'

/-- A `pop` leaves what was live when its offset was obtained. -/
theorem live_append_pop (h : Nested (ops ++ [.pop mark])) :
    live (ops ++ [.pop mark]) = live (ops.take mark) ∧
      ∃ added, live ops = added ++ live (ops.take mark) := by
  have hlength : 0 + (ops.take mark).length = mark := by
    rw [Nat.zero_add, List.length_take, Nat.min_eq_left h.le]
  have hbetween : ∀ op ∈ ops.drop mark, ∀ mark' ∈ op.mark?, 0 + (ops.take mark).length ≤ mark' := by
    rw [hlength]
    exact h.between
  have hpop : ∀ op ∈ ops.drop mark ++ [.pop mark], ∀ mark' ∈ op.mark?,
      0 + (ops.take mark).length ≤ mark' := by
    refine List.forall_mem_append.mpr ⟨hbetween, List.forall_mem_singleton.mpr ?_⟩
    rintro _ ⟨⟩
    exact Nat.le_of_eq hlength
  have hops := liveFrom_append hbetween
  have hall := liveFrom_append hpop
  rw [List.take_append_drop] at hops
  rw [← List.append_assoc, List.take_append_drop, hlength, liveFrom_append_pop (Nat.le_refl mark),
    List.nil_append] at hall
  exact ⟨hall, _, hops⟩

/-! ### What a run keeps -/

/-- The last operation is applied to the map that the ones before it leave, with the
offsets that they returned. -/
theorem runFrom_append {m : NameMap α} {tops : List Nat} :
    runFrom m tops (ops ++ [op]) =
      (op.apply (runFrom m tops ops).1 (runFrom m tops ops).2,
        (runFrom m tops ops).2 ++
          [(op.apply (runFrom m tops ops).1 (runFrom m tops ops).2).top]) := by
  induction ops generalizing m tops with
  | nil => rfl
  | cons op' ops ih =>
      rw [List.cons_append, runFrom, runFrom]
      exact ih

/-- What `top` returned after each number of operations. -/
def liveTops (ops : List (NameOp α)) : List Nat :=
  (List.range (ops.length + 1)).map fun t => (live (ops.take t)).length

/-- After each operation there are as many live bindings as `top` returns. -/
theorem liveTops_append :
    liveTops (ops ++ [op]) = liveTops ops ++ [(live (ops ++ [op])).length] := by
  have hearlier : ∀ t ∈ List.range (ops.length + 1),
      (live ((ops ++ [op]).take t)).length = (live (ops.take t)).length := by
    intro t ht
    rw [List.take_append_of_le_length (Nat.le_of_lt_succ (List.mem_range.mp ht))]
  have hlength : ops.length + 1 = (ops ++ [op]).length := by
    rw [List.length_append, List.length_singleton]
  rw [liveTops, List.range_succ, List.map_append, List.map_singleton, List.take_length, liveTops,
    ← hlength, List.map_congr_left hearlier]

/-- The mark was taken when the map had the bindings of the operations before it. -/
theorem liveTops_getD (h : mark ≤ ops.length) :
    (liveTops ops).getD mark 0 = (live (ops.take mark)).length := by
  have hlt : mark < ops.length + 1 := Nat.lt_succ_of_le h
  rw [liveTops, List.getD_eq_getElem?_getD, List.getElem?_map, List.getElem?_range hlt]
  rfl

/-- The map has the live bindings, and each offset is how many there were. -/
theorem runFrom_eq (h : Nested ops) :
    runFrom {} [0] ops = (NameMap.ofBindings (live ops), liveTops ops) := by
  induction ops using List.reverseRecOn with
  | nil => rfl
  | append_singleton ops op ih =>
      have hstep : op.apply (NameMap.ofBindings (live ops)) (liveTops ops) =
          NameMap.ofBindings (live (ops ++ [op])) := by
        cases op with
        | push name value =>
            rw [show live (ops ++ [.push name value]) = (name, value) :: live ops from
              liveFrom_append_push name value]
            rfl
        | pop mark =>
            obtain ⟨hlive, added, hadded⟩ := live_append_pop h
            rw [apply, liveTops_getD h.le, hadded, NameMap.pop_ofBindings, hlive]
      rw [runFrom_append, ih h.of_append, hstep, NameMap.top_ofBindings, liveTops_append]

/-- The map after a nested sequence is the one with its live bindings. The induction is
over the operations, from the end, and a `pop` finds the offset that was returned when the
bindings up to its mark were the live ones. -/
theorem run_eq (h : Nested ops) : run ops = NameMap.ofBindings (live ops) := by
  rw [run, runFrom_eq h]

/-- The offset of a `pop` is not above the top of the stack, as the source asserts. -/
theorem Nested.offset_le (h : Nested (ops ++ [.pop mark])) :
    (runFrom {} [0] ops).2.getD mark 0 ≤ (run ops).top := by
  obtain ⟨-, added, hadded⟩ := live_append_pop h
  rw [run_eq h.of_append, runFrom_eq h.of_append, NameMap.top_ofBindings]
  show (liveTops ops).getD mark 0 ≤ (live ops).length
  rw [liveTops_getD h.le, hadded, List.length_append]
  exact Nat.le_add_left _ _

end NameOp

open NameOp

/-- The map after some operations is a scoped environment. The bindings of a name are
what was pushed and not taken away since, latest first, and a `pop` brings back what
there was when its offset was obtained. Its assertion holds. -/
structure IsScoped {α : Type} (ops : List (NameOp α)) : Prop where
  findAll : ∀ name, (run ops).findAll name =
    ((live ops).filter fun b => b.1 = name).map Prod.snd
  find : ∀ name, (run ops).find name = ((run ops).findAll name).head?
  restores : ∀ before mark, ops = before ++ [.pop mark] → ∀ name,
    (run ops).findAll name = (run (before.take mark)).findAll name ∧
      (run ops).find name = (run (before.take mark)).find name
  asserted : ∀ before mark, ops = before ++ [.pop mark] →
    (runFrom {} [0] before).2.getD mark 0 ≤ (run before).top

/-- After a nested sequence, the map answers what the live bindings say, latest first. A
`pop` brings back the answers from before its mark, and never fails its assertion. -/
theorem nameMap_scoped {α : Type} (ops : List (NameOp α)) (h : Nested ops) : IsScoped ops := by
  refine ⟨fun name => ?_, fun name => rfl, ?_, ?_⟩
  · rw [run_eq h]
    exact NameMap.data_ofBindings _ _
  · rintro before mark rfl name
    have htake : Nested (before.take mark) := by
      rw [← List.take_append_drop mark before, List.append_assoc] at h
      exact h.of_append
    have hmap : run (before ++ [.pop mark]) = run (before.take mark) := by
      rw [run_eq h, run_eq htake, (live_append_pop h).1]
    rw [hmap]
    exact ⟨rfl, rfl⟩
  · rintro before mark rfl
    exact h.offset_le

/-- Two scopes, with a name that the inner one shadows. -/
theorem nameMap_scoped_shadow :
    IsScoped [.push "a".toList 1, .push "a".toList 2, .push "b".toList 3, .pop 1] :=
  nameMap_scoped _ (by decide)

end Aike
