import Mathlib.Data.Nat.Basic
import Mathlib.Tactic.Ring

/-!
# `Aike.Lib.Bytes`: memory in bytes

A memory is a function from addresses to bytes. A word is eight bytes, the lowest first.

* `readWord_writeWord`: what is written is read back, modulo `2 ^ 64`.
* `readWord_congr`: a word depends on its eight bytes.
* `writeWord_outside`, `zero_outside`, `copy_outside`: what a write leaves alone.
-/

set_option autoImplicit false

/-- A memory. -/
abbrev Bytes := Nat → UInt8

namespace Bytes

variable {m m' : Bytes} {a b n : Nat}

/-- The number that `n` bytes from `a` on spell. -/
def read (m : Bytes) : Nat → Nat → Nat
  | _, 0 => 0
  | a, n + 1 => (m a).toNat + 256 * read m (a + 1) n

/-- The word at an address. -/
def readWord (m : Bytes) (a : Nat) : Nat := m.read a 8

/-- The bytes of `w` at `a`, `n` of them. -/
def write (m : Bytes) (a n w : Nat) : Bytes := fun b =>
  if a ≤ b ∧ b < a + n then UInt8.ofNat (w / 256 ^ (b - a)) else m b

/-- A word at an address. -/
def writeWord (m : Bytes) (a w : Nat) : Bytes := m.write a 8 w

/-- Zeros, `n` of them from `a` on. -/
def zero (m : Bytes) (a n : Nat) : Bytes := fun b => if a ≤ b ∧ b < a + n then 0 else m b

/-- The bytes of the memory from `src` on, at `dst`. -/
def copy (m : Bytes) (dst src n : Nat) : Bytes := fun b =>
  if dst ≤ b ∧ b < dst + n then m (src + (b - dst)) else m b

/-- Within the bytes that are written, there are those of the number, the lowest first. -/
theorem write_inside (w : Nat) (h : a ≤ b) (h' : b < a + n) :
    m.write a n w b = UInt8.ofNat (w / 256 ^ (b - a)) := if_pos ⟨h, h'⟩

/-- A write leaves the other bytes alone. -/
theorem write_outside (w : Nat) (h : b < a ∨ a + n ≤ b) : m.write a n w b = m b :=
  if_neg (by omega)

/-- So does the write of a word. -/
theorem writeWord_outside (w : Nat) (h : b < a ∨ a + 8 ≤ b) : m.writeWord a w b = m b :=
  write_outside w h

/-- Zeroing leaves the other bytes alone. -/
theorem zero_outside (h : b < a ∨ a + n ≤ b) : m.zero a n b = m b := if_neg (by omega)

/-- Within the bytes that are zeroed, there are zeros. -/
theorem zero_inside (h : a ≤ b) (h' : b < a + n) : m.zero a n b = 0 := if_pos ⟨h, h'⟩

/-- A copy leaves the bytes outside of its target alone. -/
theorem copy_outside {src : Nat} (h : b < a ∨ a + n ≤ b) : m.copy a src n b = m b :=
  if_neg (by omega)

/-- Within its target, there are the bytes that the source had before. -/
theorem copy_inside {src : Nat} (h : a ≤ b) (h' : b < a + n) :
    m.copy a src n b = m (src + (b - a)) := if_pos ⟨h, h'⟩

/-- The bytes that are read decide the number. -/
theorem read_congr (h : ∀ b, a ≤ b → b < a + n → m b = m' b) : m.read a n = m'.read a n := by
  induction n generalizing a with
  | zero => rfl
  | succ n ih =>
      simp only [read]
      rw [h a (by omega) (by omega), ih fun b hb hb' => h b (by omega) (by omega)]

/-- A word depends on its eight bytes only. -/
theorem readWord_congr (h : ∀ b, a ≤ b → b < a + 8 → m b = m' b) :
    m.readWord a = m'.readWord a := read_congr h

/-- What `n` bytes spell is below the number of their values. -/
theorem read_lt (m : Bytes) (a n : Nat) : m.read a n < 256 ^ n := by
  induction n generalizing a with
  | zero => simp [read]
  | succ n ih =>
      have hbyte : (m a).toNat < 256 := (m a).toNat_lt
      have hrest := ih (a + 1)
      simp only [read, Nat.pow_succ]
      omega

/-- A word is below `2 ^ 64`. -/
theorem readWord_lt (m : Bytes) (a : Nat) : m.readWord a < 2 ^ 64 := m.read_lt a 8

/-- What is written is read back. -/
theorem read_write (m : Bytes) (a n w : Nat) : (m.write a n w).read a n = w % 256 ^ n := by
  induction n generalizing a w m with
  | zero => simp [read, Nat.mod_one]
  | succ n ih =>
      -- The bytes after the first are those of `w / 256`.
      have hrest : (m.write a (n + 1) w).read (a + 1) n
          = (m.write (a + 1) n (w / 256)).read (a + 1) n := by
        apply read_congr
        intro b hb hb'
        rw [write_inside w (by omega) (by omega), write_inside _ hb hb', Nat.div_div_eq_div_mul,
          ← Nat.pow_succ', show b - a = b - (a + 1) + 1 by omega]
      have hfirst : (m.write a (n + 1) w a).toNat = w % 256 := by
        rw [write_inside w (Nat.le_refl a) (by omega)]
        simp
      simp only [read]
      rw [hrest, hfirst, ih, Nat.pow_succ', Nat.mod_mul]

/-- The word that was written is read back, cut to 64 bits. -/
theorem readWord_writeWord (m : Bytes) (a w : Nat) :
    (m.writeWord a w).readWord a = w % 2 ^ 64 := read_write m a 8 w

end Bytes
