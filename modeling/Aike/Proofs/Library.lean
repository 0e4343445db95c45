import Aike.Model.Library
import Aike.Proofs.Prelude

/-!
# `Aike.Proofs.Library`: the array functions compute the functions on lists

A function of the library makes a new block and fills it from its start. The invariant of
each loop (`forIn_ends`) is the list that was written so far: after `i` iterations the
block is `filled` with a list that depends on the first `i` elements. The blocks that were
there before do not change, since every store goes to the block at the end.
-/

set_option autoImplicit false

namespace Aike.Prelude

open Llvm

variable {V T U S σ : Type}

/-! ### Indices -/

/-- An index below `2 ^ 31` is the same number as a signed one. -/
theorem toInt_ofNat {i : Nat} (h : i < 2 ^ 31) : (BitVec.ofNat 32 i).toInt = i := by
  have hnat : (BitVec.ofNat 32 i).toNat = i := by
    rw [BitVec.toNat_ofNat, Nat.mod_eq_of_lt (by omega)]
  rw [BitVec.toInt_eq_toNat_of_lt (by omega), hnat]

/-- A size that is not negative. -/
theorem size_eq {size : Int32} {n : Nat} (h : size.toInt = n) :
    n < 2 ^ 31 ∧ size = BitVec.ofNat 32 n := by
  have hlt : size.toInt < 2 ^ 31 := BitVec.toInt_lt
  have hn : n < 2 ^ 31 := by omega
  exact ⟨hn, BitVec.eq_of_toInt_eq (by rw [h, toInt_ofNat hn])⟩

/-- Two such indices are compared as numbers by the signed `<` of the loops. -/
theorem slt_ofNat {i n : Nat} (hi : i < 2 ^ 31) (hn : n < 2 ^ 31) :
    (BitVec.ofNat 32 i).slt (BitVec.ofNat 32 n) = decide (i < n) := by
  rw [BitVec.slt, toInt_ofNat hi, toInt_ofNat hn]
  exact decide_eq_decide.mpr Int.ofNat_lt

/-- The bounds check compares unsigned, and does so as on numbers. -/
theorem ofNat_le_ofNat {i n : Nat} (hi : i < 2 ^ 31) (hn : n < 2 ^ 31) :
    BitVec.ofNat 32 n ≤ BitVec.ofNat 32 i ↔ n ≤ i := by
  rw [BitVec.le_def, BitVec.toNat_ofNat, BitVec.toNat_ofNat, Nat.mod_eq_of_lt (by omega),
    Nat.mod_eq_of_lt (by omega)]

/-- To add one to an index is to add one to its bits. -/
theorem ofNat_add_one (i : Nat) : BitVec.ofNat 32 i + 1 = BitVec.ofNat 32 (i + 1) :=
  (BitVec.ofNat_add i 1).symm

/-! ### Steps -/

/-- What holds after `i` iterations holds at the end after all of them. -/
theorem forIn_ends {fuel n : Nat} {a : Arr T} {s : σ} {body : Slot → Int32 → σ → Run V σ}
    {m : Memory V} (hsize : a.size.toInt = n) (hfuel : n ≤ fuel) (I : Nat → σ → Memory V → Prop)
    (hzero : I 0 s m)
    (hstep : ∀ i < n, ∀ s m, I i s m →
      Ends (body ⟨a.pointer, i⟩ (BitVec.ofNat 32 i) s) m (I (i + 1))) :
    Ends (forIn fuel a s body) m (I n) := by
  obtain ⟨hn, hsize⟩ := size_eq hsize
  have hloop : ∀ (fuel i : Nat) (s : σ) (m : Memory V), i < n → n ≤ i + fuel → I i s m →
      Ends (forLoop a body fuel (BitVec.ofNat 32 i) s) m (I n) := by
    intro fuel
    induction fuel with
    | zero =>
        intro i s m hi hle
        omega
    | succ fuel ih =>
        intro i s m hi hle hI
        have hbody := hstep i hi s m hI
        rw [forLoop, toInt_ofNat (by omega)]
        refine .bind (hbody.mono fun s' m' hI' => ?_)
        dsimp only
        rw [ofNat_add_one, hsize, slt_ofNat (by omega) hn]
        refine .ite (fun hlt => ?_) fun hnot => ?_
        · exact ih (i + 1) s' m' (of_decide_eq_true hlt) (by omega) hI'
        · have heq : i + 1 = n := by
            have hge : ¬ i + 1 < n := fun h => hnot (decide_eq_true h)
            omega
          rw [← heq]
          exact .pure hI'
  unfold forIn
  have hslt : BitVec.slt 0 a.size = decide (0 < n) := by
    rw [hsize]
    exact slt_ofNat (by decide) hn
  rw [hslt]
  refine .ite (fun hpos => ?_) fun hnot => ?_
  · exact hloop fuel 0 s m (of_decide_eq_true hpos) (by omega) hzero
  · have heq : n = 0 := by
      have hge : ¬ 0 < n := fun h => hnot (decide_eq_true h)
      omega
    rw [heq]
    exact .pure hzero

/-- The checked `+ 1` of a loop does not trap while the next index is below `2 ^ 31`. -/
theorem operatorAdd_one {i : Nat} (h : i + 1 < 2 ^ 31) :
    operatorAdd (BitVec.ofNat 32 i) 1 = .ok (BitVec.ofNat 32 (i + 1)) := by
  have hone : (1 : Int32).toInt = 1 := rfl
  have hoverflow : (BitVec.ofNat 32 i).saddOverflow 1 = false := by
    unfold BitVec.saddOverflow
    rw [toInt_ofNat (by omega), hone, ← Bool.decide_or]
    exact decide_eq_false (by omega)
  unfold operatorAdd trapOnOverflow saddWithOverflow
  rw [hoverflow, ofNat_add_one]
  rfl

/-- An index below the size passes the bounds check of `[]`, and refers to the cell of its
place in the block. -/
theorem indexRef_ends {m : Memory V} {b : Arr U} {i n : Nat} {Q : Slot → Memory V → Prop}
    (hsize : b.size.toInt = n) (hi : i < n) (h : Q ⟨b.pointer, i⟩ m) :
    Ends (indexRef b (BitVec.ofNat 32 i)) m Q := by
  obtain ⟨hn, hsize⟩ := size_eq hsize
  unfold indexRef
  rw [hsize]
  refine .ite (fun hle => ?_) fun _ => .pure ?_
  · rw [ofNat_le_ofNat (by omega) hn] at hle
    omega
  -- below `2 ^ 31` the unsigned comparison and the signed offset mean the same number
  · rw [toInt_ofNat (by omega)]
    exact h

/-! ### Arrays in the memory -/

section Arrays

variable [Layout V T] [Layout V U] [Layout V S] {m : Memory V} {a : Arr T} {xs : List T}

/-- The cells of a list. -/
def cells (V : Type) [Layout V T] (xs : List T) : List V := xs.map Layout.toCell

/-- The cell at an index has the element at that index. -/
theorem cells_getElem? {i : Nat} {x : T} (hx : xs[i]? = some x) :
    (cells V xs)[i]? = some (Layout.toCell x) := by
  rw [cells, List.getElem?_map, hx]
  rfl

/-- An array is in the memory with its elements. An array without elements needs no block,
as `[]` has none. -/
structure Holds (m : Memory V) (a : Arr T) (xs : List T) : Prop where
  size : a.size.toInt = xs.length
  block : xs ≠ [] → m.blocks[a.pointer]? = some (cells V xs)

/-- A run makes an array of a list, and the blocks before it are as they were. -/
def Computes (run : Run V (Arr U)) (m : Memory V) (ys : List U) : Prop :=
  Ends run m fun b m' => Holds m' b ys ∧ m.blocks <+: m'.blocks

/-- A cell that was written as a value of the type is read as that value. -/
theorem loadAs_ends {b i : Nat} {cs : List V} {x : T} {Q : T → Memory V → Prop}
    (hblock : m.blocks[b]? = some cs) (hcell : cs[i]? = some (Layout.toCell x)) (h : Q x m) :
    Ends (loadAs T ⟨b, i⟩) m Q := by
  refine .bind (.load hblock hcell (.pure ?_))
  rw [Layout.ofCell_toCell]
  exact h

/-- The variable of a loop over an array, in a memory with more blocks. -/
theorem Holds.loadAs (ha : Holds m a xs) {cs : List V} {i : Nat} {x : T} (hx : xs[i]? = some x)
    {Q : T → Memory V → Prop} (h : Q x (m.push cs)) :
    Ends (loadAs T ⟨a.pointer, i⟩) (m.push cs) Q := by
  -- without elements there is no iteration
  have hne : xs ≠ [] := by
    rintro rfl
    cases hx
  exact loadAs_ends (Memory.push_old cs (ha.block hne)) (cells_getElem? hx) h

/-! ### Blocks that are filled -/

variable [Inhabited V]

/-- The memory with a block that starts with a list and has room for some more cells. -/
def filled (m : Memory V) (xs : List T) (k : Nat) : Memory V :=
  m.push (cells V xs ++ List.replicate k default)

/-- `newarr` makes a block of its own, at the end of the memory, with its cells at their
default. -/
theorem newarr_ends {size : Int32} {n : Nat} {Q : Arr U → Memory V → Prop}
    (hsize : size.toInt = n) (h : Q ⟨m.blocks.length, size⟩ (filled m ([] : List U) n)) :
    Ends (newarr size) m Q := by
  obtain ⟨hn, rfl⟩ := size_eq hsize
  have hnat : (BitVec.ofNat 32 n).toNat = n := by
    rw [BitVec.toNat_ofNat, Nat.mod_eq_of_lt (by omega)]
  refine .bind (.alloc (.pure ?_))
  rw [hnat]
  exact h

/-- The next cell of a block that is filled. -/
theorem storeAs_ends {ys : List U} {y : U} {i k : Nat} {Q : Unit → Memory V → Prop}
    (hi : i = ys.length) (h : Q () (filled m (ys ++ [y]) k)) :
    Ends (storeAs ⟨m.blocks.length, i⟩ y) (filled m ys (k + 1)) Q := by
  have hlength : i = (cells V ys).length := by
    rw [cells, List.length_map, hi]
  rw [hlength]
  refine .store_next ?_
  rw [filled, cells, List.map_append] at h
  exact h

/-- A block that is full. -/
theorem holds_filled {b : Arr U} {ys : List U} (hpointer : b.pointer = m.blocks.length)
    (hsize : b.size.toInt = ys.length) : Holds (filled m ys 0) b ys := by
  refine ⟨hsize, fun _ => ?_⟩
  rw [hpointer, filled, m.push_last]
  exact congrArg some (List.append_nil _)

/-! ### The functions -/

/-- The array is made of what the function answers at each index. -/
theorem array_computes {fuel n : Nat} {size : Int32} (hsize : size.toInt = n) (hfuel : n ≤ fuel)
    (f : Int32 → T) :
    Computes (array fuel size fun i => pure (f i)) m
      ((List.range n).map fun i => f (BitVec.ofNat 32 i)) := by
  -- the invariant: the block starts with the values of the indices so far
  refine .bind (newarr_ends hsize (.bind ((forIn_ends hsize hfuel
    (fun i _ m' => m' = filled m ((List.range i).map fun j => f (BitVec.ofNat 32 j)) (n - i))
    rfl ?step).mono fun _ m' hm' => .pure ?_)))
  case step =>
    rintro i hi _ _ rfl
    have hroom : n - i = n - (i + 1) + 1 := by omega
    rw [hroom]
    refine .bind (.pure (storeAs_ends (by simp) ?_))
    rw [List.range_succ, List.map_append]
    rfl
  · rw [hm', Nat.sub_self]
    exact ⟨holds_filled rfl (by simpa using hsize), m.prefix_push _⟩

/-- The elements of the array are mapped, in order. -/
theorem map_computes {fuel : Nat} (ha : Holds m a xs) (hfuel : xs.length ≤ fuel) (f : T → U) :
    Computes (map fuel a fun x => pure (f x)) m (xs.map f) := by
  -- the invariant: the block starts with the images of the elements so far
  refine .bind (newarr_ends ha.size (.bind ((forIn_ends ha.size hfuel
    (fun i _ m' => m' = filled m ((xs.take i).map f) (xs.length - i)) rfl ?step).mono
      fun _ m' hm' => .pure ?_)))
  case step =>
    rintro i hi _ _ rfl
    obtain ⟨x, hx⟩ : ∃ x, xs[i]? = some x := ⟨_, List.getElem?_eq_getElem hi⟩
    have hroom : xs.length - i = xs.length - (i + 1) + 1 := by omega
    rw [hroom]
    refine .bind (indexRef_ends ha.size hi (.bind (ha.loadAs hx
      (.bind (.pure (storeAs_ends (by simp; omega) ?_))))))
    rw [List.take_add_one, hx, List.map_append]
    rfl
  · rw [hm', Nat.sub_self, List.take_length]
    refine ⟨holds_filled rfl ?_, m.prefix_push _⟩
    show a.size.toInt = _
    rw [List.length_map, ha.size]

/-- A value of a block at the end, below a block that is filled. -/
theorem indexValue_ends {b : Arr U} {ys zs : List U} {k l i : Nat} {y : U}
    {Q : U → Memory V → Prop} (hpointer : b.pointer = m.blocks.length)
    (hsize : b.size.toInt = ys.length + k) (hy : ys[i]? = some y)
    (h : Q y (filled (filled m ys k) zs l)) :
    Ends (indexValue b (BitVec.ofNat 32 i)) (filled (filled m ys k) zs l) Q := by
  obtain ⟨hi, -⟩ := List.getElem?_eq_some_iff.mp hy
  -- the index is in the block, which has `k` cells more than elements
  refine .bind (@indexRef_ends _ _ _ _ _ (ys.length + k) _ (by omega) (by omega) ?_)
  have hcell : (cells V ys ++ List.replicate k default)[i]? = some (Layout.toCell y) := by
    rw [List.getElem?_append_left (by rw [cells, List.length_map]; exact hi)]
    exact cells_getElem? hy
  rw [hpointer]
  exact loadAs_ends (Memory.push_old _ (m.push_last _)) hcell h

/-- The elements that pass are kept, in order. -/
theorem filter_computes {fuel : Nat} (ha : Holds m a xs) (hfuel : xs.length ≤ fuel)
    (p : T → Bool) : Computes (filter fuel a fun x => pure (p x)) m (xs.filter p) := by
  obtain ⟨hn, -⟩ := size_eq ha.size
  have hle : (xs.filter p).length ≤ xs.length := List.length_filter_le _ _
  -- the invariant of the first loop: `count` elements were kept, and they fill the block
  refine .bind (newarr_ends ha.size (.bind ((forIn_ends ha.size hfuel
    (fun i count m' => ∃ ys, ys = (xs.take i).filter p ∧ count = BitVec.ofNat 32 ys.length ∧
      m' = filled m ys (xs.length - ys.length)) ⟨[], rfl, rfl, rfl⟩ ?select).mono ?_)))
  case select =>
    rintro i hi _ _ ⟨ys, hys, rfl, rfl⟩
    obtain ⟨x, hx⟩ : ∃ x, xs[i]? = some x := ⟨_, List.getElem?_eq_getElem hi⟩
    have htake : (xs.take (i + 1)).filter p = ys ++ [x].filter p := by
      rw [List.take_add_one, hx, List.filter_append, hys]
      rfl
    -- fewer were kept than were looked at, so the store is in the block
    have hlt : ys.length < xs.length := by
      have htaken : ys.length ≤ (xs.take i).length := hys ▸ List.length_filter_le _ _
      rw [List.length_take] at htaken
      omega
    refine .bind (ha.loadAs hx (.bind (.pure (.ite (fun hp => ?_) fun hnot => ?_))))
    · have hroom : xs.length - ys.length = xs.length - (ys.length + 1) + 1 := by omega
      rw [hroom]
      refine .bind (indexRef_ends ha.size hlt (.bind (ha.loadAs hx (.bind (storeAs_ends rfl
        (.lift (operatorAdd_one (by omega)) ⟨ys ++ [x], ?_, ?_, ?_⟩))))))
      · rw [htake, List.filter_cons_of_pos hp, List.filter_nil]
      · rw [List.length_append, List.length_singleton]
      · rw [List.length_append, List.length_singleton]
    · refine .pure ⟨ys, ?_, rfl, rfl⟩
      rw [htake, List.filter_cons_of_neg hnot, List.filter_nil, List.append_nil]
  rintro _ _ ⟨ys, hys, rfl, rfl⟩
  rw [List.take_length] at hys
  rw [← hys] at hle ⊢
  have hcount : (BitVec.ofNat 32 ys.length).toInt = ys.length := toInt_ofNat (by omega)
  -- the second loop copies the elements that were kept to a block of their number
  refine .bind (newarr_ends hcount (.bind ((forIn_ends hcount (by omega)
    (fun i _ m' => m' = filled (filled m ys (xs.length - ys.length)) (ys.take i) (ys.length - i))
    rfl ?copy).mono fun _ m' hm' => .pure ?_)))
  case copy =>
    rintro i hi _ _ rfl
    obtain ⟨y, hy⟩ : ∃ y, ys[i]? = some y := ⟨_, List.getElem?_eq_getElem hi⟩
    have hroom : ys.length - i = ys.length - (i + 1) + 1 := by omega
    have hsize : a.size.toInt = ys.length + (xs.length - ys.length : Nat) := by
      rw [ha.size]
      omega
    rw [hroom]
    refine .bind (indexRef_ends hcount hi (.bind (indexValue_ends rfl hsize hy
      (storeAs_ends (by rw [List.length_take]; omega) ?_))))
    rw [List.take_add_one, hy]
    rfl
  · rw [hm', Nat.sub_self, List.take_length]
    exact ⟨holds_filled rfl hcount, (m.prefix_push _).trans (Memory.prefix_push _ _)⟩

omit [Layout V S] [Inhabited V] in
/-- The elements are folded from the left, and the memory is left as it was. -/
theorem reduce_computes {fuel : Nat} (ha : Holds m a xs) (hfuel : xs.length ≤ fuel)
    (f : S → T → S) (s : S) :
    Ends (reduce fuel a (fun r x => (pure (f r x) : Run V S)) s) m fun r m' =>
      r = xs.foldl f s ∧ m' = m := by
  -- the loop stores nothing: the memory is the same in every iteration
  refine (forIn_ends ha.size hfuel (fun i r m' => r = (xs.take i).foldl f s ∧ m' = m)
    ⟨rfl, rfl⟩ ?step).mono ?_
  case step =>
    rintro i hi _ _ ⟨rfl, rfl⟩
    obtain ⟨x, hx⟩ : ∃ x, xs[i]? = some x := ⟨_, List.getElem?_eq_getElem hi⟩
    refine .bind (loadAs_ends (ha.block (List.ne_nil_of_length_pos (by omega)))
      (cells_getElem? hx) (.pure ⟨?_, rfl⟩))
    rw [List.take_add_one, hx, List.foldl_append]
    rfl
  rintro _ _ ⟨rfl, rfl⟩
  rw [List.take_length]
  exact ⟨rfl, rfl⟩

/-- The array is made of the results of folding the first elements, from none of them to
all. There is one more of them than elements, which must have an index. -/
theorem scan_computes {fuel : Nat} (ha : Holds m a xs) (hfuel : xs.length ≤ fuel)
    (hsize : xs.length + 1 < 2 ^ 31) (f : S → T → S) (s : S) :
    Computes (scan fuel a (fun t x => pure (f t x)) s) m
      ((List.range (xs.length + 1)).map fun i => (xs.take i).foldl f s) := by
  obtain ⟨hn, hlength⟩ := size_eq ha.size
  have hadd : operatorAdd (length a) 1 = .ok (BitVec.ofNat 32 (xs.length + 1)) := by
    unfold length
    rw [hlength]
    exact operatorAdd_one hsize
  have hcount : (BitVec.ofNat 32 (xs.length + 1)).toInt = (xs.length + 1 : Nat) :=
    toInt_ofNat hsize
  have hroom : ∀ i ≤ xs.length, xs.length + 1 - i = xs.length + 1 - (i + 1) + 1 := by omega
  -- the invariant: the values up to an element are in the block, and its own one is in `t`
  refine .bind (.lift hadd (.bind (newarr_ends hcount (.bind ((forIn_ends ha.size hfuel
    (fun i t m' => t = (xs.take i).foldl f s ∧
      m' = filled m ((List.range i).map fun j => (xs.take j).foldl f s) (xs.length + 1 - i))
    ⟨rfl, rfl⟩ ?step).mono ?_)))))
  case step =>
    rintro i hi _ _ ⟨rfl, rfl⟩
    obtain ⟨x, hx⟩ : ∃ x, xs[i]? = some x := ⟨_, List.getElem?_eq_getElem hi⟩
    rw [hroom i (by omega)]
    refine .bind (indexRef_ends hcount (by omega) (.bind (storeAs_ends (by simp) (.bind
      (ha.loadAs hx (.pure ⟨?_, ?_⟩))))))
    · rw [List.take_add_one, hx, List.foldl_append]
      rfl
    · rw [List.range_succ, List.map_append]
      rfl
  rintro _ _ ⟨rfl, rfl⟩
  have hlast : length a = BitVec.ofNat 32 xs.length := hlength
  -- the last value is stored after the loop, in the one cell that is left
  rw [hroom _ (Nat.le_refl _), hlast]
  refine .bind (indexRef_ends hcount (by omega) (.bind (storeAs_ends (by simp) (.pure ⟨?_, ?_⟩))))
  · rw [Nat.sub_self, List.range_succ, List.map_append]
    refine holds_filled rfl ?_
    rw [hcount]
    simp
  · exact m.prefix_push _

/-- The functions of the library compute the functions on lists: an array has its list,
and no run of them traps or changes a block that was there. -/
theorem arrayLibrary_computes {fuel : Nat} :
    (∀ (size : Int32) (n : Nat) (f : Int32 → T), size.toInt = n → n ≤ fuel →
      Computes (array fuel size fun i => pure (f i)) m
        ((List.range n).map fun i => f (BitVec.ofNat 32 i))) ∧
    ∀ (a : Arr T) (xs : List T), Holds m a xs → xs.length ≤ fuel →
      (∀ f : T → U, Computes (map fuel a fun x => pure (f x)) m (xs.map f)) ∧
      (∀ p : T → Bool, Computes (filter fuel a fun x => pure (p x)) m (xs.filter p)) ∧
      (∀ (f : S → T → S) (s : S),
        Ends (reduce fuel a (fun r x => (pure (f r x) : Run V S)) s) m fun r m' =>
          r = xs.foldl f s ∧ m' = m) ∧
      ∀ (f : S → T → S) (s : S), xs.length + 1 < 2 ^ 31 →
        Computes (scan fuel a (fun t x => pure (f t x)) s) m
          ((List.range (xs.length + 1)).map fun i => (xs.take i).foldl f s) := by
  refine ⟨fun _ _ f hsize hfuel => array_computes hsize hfuel f, fun a xs ha hfuel => ?_⟩
  exact ⟨map_computes ha hfuel, filter_computes ha hfuel, reduce_computes ha hfuel,
    fun f s hsize => scan_computes ha hfuel hsize f s⟩

end Arrays

/-- A memory with the values of one type. -/
instance : Layout T T := ⟨id, id, fun _ => rfl⟩

/-- `[1, 2, 3]` is the first block. -/
theorem arrayLibrary_computes_three :
    let m : Memory Int32 := ⟨[[1, 2, 3]]⟩
    let a : Arr Int32 := ⟨0, 3⟩
    Computes (map 3 a fun x => pure (x * x)) m [1, 4, 9] ∧
    Computes (filter 3 a fun x => pure (BitVec.slt 1 x)) m [2, 3] ∧
    Computes (scan 3 a (fun s x => pure (s + x)) (0 : Int32)) m [0, 1, 3, 6] := by
  intro m a
  have ha : Holds m a [1, 2, 3] := ⟨rfl, fun _ => rfl⟩
  have hall := (arrayLibrary_computes (m := m) (U := Int32) (S := Int32)).2 a [1, 2, 3] ha
    (Nat.le_refl 3)
  exact ⟨hall.1 _, hall.2.1 _, hall.2.2.2 _ _ (by decide)⟩

/-- `tests/library/transformers.aike`. -/
example : (do
    let a ← array 3 3 fun i => pure (i + 1)
    let b ← map 3 a fun x => pure (x * x)
    let c ← filter 3 b fun x => pure (BitVec.slt 1 x)
    reduce 3 c (fun s e => pure (s + e)) (0 : Int32) : Run Int32 Int32).run' ⟨[]⟩ = .ok 13 := by
  decide

end Aike.Prelude
