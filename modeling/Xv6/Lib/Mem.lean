/-
# Byte memories and little-endian words

A memory maps addresses to bytes. Every store of a machine is a `splice`: the
bytes of one interval are replaced and the rest stays. `word16` and `word32`
read little-endian words, `setWord32` stores one.
-/
import Mathlib.Tactic

/-- A memory: the byte at each address. -/
abbrev Mem := ℕ → UInt8

namespace Mem

/-- `m` with the `len` bytes from `a` on replaced by `f 0`, `f 1`, .. -/
def splice (m : Mem) (a len : ℕ) (f : ℕ → UInt8) : Mem :=
  fun x => if a ≤ x ∧ x < a + len then f (x - a) else m x

variable {m m' : Mem} {a len x : ℕ} {f : ℕ → UInt8}

theorem splice_of_mem (h : a ≤ x) (h' : x < a + len) :
    m.splice a len f x = f (x - a) := if_pos ⟨h, h'⟩

theorem splice_add (m : Mem) (a len o : ℕ) (f : ℕ → UInt8) (h : o < len) :
    m.splice a len f (a + o) = f o := by
  rw [splice_of_mem (by omega) (by omega), Nat.add_sub_cancel_left]

theorem splice_of_lt (h : x < a) : m.splice a len f x = m x := if_neg (by omega)

theorem splice_of_ge (h : a + len ≤ x) : m.splice a len f x = m x := if_neg (by omega)

/-! ### Words -/

/-- Byte `o` of a 16-bit word, least significant first. -/
def byte16 (w : UInt16) (o : ℕ) : UInt8 := UInt8.ofNat (w.toNat / 256 ^ o)

/-- Byte `o` of a 32-bit word, least significant first. -/
def byte32 (w : UInt32) (o : ℕ) : UInt8 := UInt8.ofNat (w.toNat / 256 ^ o)

def word16 (m : Mem) (a : ℕ) : UInt16 :=
  UInt16.ofNat ((m a).toNat + 256 * (m (a + 1)).toNat)

def word32 (m : Mem) (a : ℕ) : UInt32 :=
  UInt32.ofNat ((m a).toNat + 256 * (m (a + 1)).toNat + 65536 * (m (a + 2)).toNat +
    16777216 * (m (a + 3)).toNat)

def setWord32 (m : Mem) (a : ℕ) (w : UInt32) : Mem := m.splice a 4 (byte32 w)

theorem word16_of_bytes {w : UInt16} (h : ∀ o < 2, m (a + o) = byte16 w o) : m.word16 a = w := by
  have h0 := h 0 (by omega)
  have h1 := h 1 (by omega)
  rw [Nat.add_zero] at h0
  apply UInt16.toNat_inj.mp
  simp only [word16, h0, h1, byte16, UInt16.toNat_ofNat', UInt8.toNat_ofNat', Nat.pow_zero, Nat.pow_one]
  have := w.toNat_lt
  omega

theorem word32_of_bytes {w : UInt32} (h : ∀ o < 4, m (a + o) = byte32 w o) : m.word32 a = w := by
  have h0 := h 0 (by omega)
  have h1 := h 1 (by omega)
  have h2 := h 2 (by omega)
  have h3 := h 3 (by omega)
  rw [Nat.add_zero] at h0
  apply UInt32.toNat_inj.mp
  simp only [word32, h0, h1, h2, h3, byte32, UInt32.toNat_ofNat', UInt8.toNat_ofNat']
  have := w.toNat_lt
  omega

theorem byte32_word32 (m : Mem) (a : ℕ) {o : ℕ} (ho : o < 4) : byte32 (m.word32 a) o = m (a + o) := by
  have h0 := (m a).toNat_lt
  have h1 := (m (a + 1)).toNat_lt
  have h2 := (m (a + 2)).toNat_lt
  have h3 := (m (a + 3)).toNat_lt
  apply UInt8.toNat_inj.mp
  rw [byte32, word32, UInt8.toNat_ofNat', UInt32.toNat_ofNat']
  rcases (by omega : o = 0 ∨ o = 1 ∨ o = 2 ∨ o = 3) with rfl | rfl | rfl | rfl
  · rw [show a + 0 = a from rfl, Nat.pow_zero]
    omega
  all_goals omega

theorem word32_congr (h : ∀ x, a ≤ x → x < a + 4 → m' x = m x) : m'.word32 a = m.word32 a := by
  simp only [word32, h a (by omega) (by omega), h (a + 1) (by omega) (by omega),
    h (a + 2) (by omega) (by omega), h (a + 3) (by omega) (by omega)]

theorem word16_congr (h : ∀ x, a ≤ x → x < a + 2 → m' x = m x) : m'.word16 a = m.word16 a := by
  simp only [word16, h a (by omega) (by omega), h (a + 1) (by omega) (by omega)]

@[simp] theorem word32_setWord32 (m : Mem) (a : ℕ) (w : UInt32) : (m.setWord32 a w).word32 a = w :=
  word32_of_bytes fun o ho => splice_add m a 4 o (byte32 w) ho

theorem word32_setWord32_ne (m : Mem) {b : ℕ} (w : UInt32) (h : b + 4 ≤ a ∨ a + 4 ≤ b) :
    (m.setWord32 a w).word32 b = m.word32 b := by
  apply word32_congr
  intro x h1 h2
  rcases h with h | h
  · exact splice_of_lt (by omega)
  · exact splice_of_ge (by omega)

end Mem
