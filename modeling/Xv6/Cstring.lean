/-
# string.c on byte lists

A C string is the list of its bytes; past the end of the list there is the
terminating NUL. `cname n p` is what a field of `n` bytes can know of `p`: the bytes
up to the first NUL, at most `n` of them. `strncmp` compares exactly that
(`strncmp_eq_zero`), and `strncpy` keeps it (`cname_strncpy`).
-/
import Mathlib.Tactic

namespace Xv6

/-- A C string, without its NUL. -/
abbrev Str := List UInt8

/-- The byte a pointer to the string points at, `*p`. -/
def byte0 : Str → UInt8
  | [] => 0
  | c :: _ => c

/-- Compare at most `n` bytes of `p` and `q`. -/
def strncmp : Str → Str → ℕ → ℤ
  | _, _, 0 => 0
  | p, q, n + 1 =>
    let a := byte0 p
    let b := byte0 q
    if a ≠ 0 ∧ a = b then strncmp p.tail q.tail n else (a.toNat : ℤ) - b.toNat

/-- The `n` bytes `strncpy(s, t, n)` stores at `s`: `t` up to its NUL, then
NULs. -/
def strncpy : Str → ℕ → Str
  | _, 0 => []
  | t, n + 1 => if byte0 t = 0 then List.replicate (n + 1) 0 else byte0 t :: strncpy t.tail n

/-- The name a field of `n` bytes holds: up to the first NUL, at most `n` bytes. -/
def cname : ℕ → Str → Str
  | 0, _ => []
  | n + 1, p => if byte0 p = 0 then [] else byte0 p :: cname n p.tail

theorem cname_take : ∀ (n : ℕ) (p : Str), cname n (p.take n) = cname n p
  | 0, _ => rfl
  | _ + 1, [] => rfl
  | n + 1, c :: p => by
    rw [List.take_succ_cons, cname, cname, byte0, List.tail_cons, byte0, List.tail_cons, cname_take n p]

/-- Of a string, a field of `n` bytes holds the first `n`. -/
theorem cname_eq_take : ∀ {n : ℕ} {t : Str}, 0 ∉ t → cname n t = t.take n
  | 0, _, _ => rfl
  | n + 1, [], _ => rfl
  | n + 1, c :: t, h => by
    have hc : c ≠ 0 := fun h0 => h (h0 ▸ List.mem_cons_self)
    rw [cname, byte0, if_neg hc, List.tail_cons, cname_eq_take (List.not_mem_of_not_mem_cons h),
      List.take_succ_cons]

theorem strncpy_length : ∀ (t : Str) (n : ℕ), (strncpy t n).length = n
  | _, 0 => rfl
  | t, n + 1 => by
    rw [strncpy]
    split
    · simp
    · simp [strncpy_length t.tail n]

/-- `strncpy` keeps the name. -/
theorem cname_strncpy : ∀ (n : ℕ) (t : Str), cname n (strncpy t n) = cname n t
  | 0, _ => rfl
  | n + 1, t => by
    rw [strncpy]
    by_cases h : byte0 t = 0
    · rw [if_pos h, cname, List.replicate_succ, byte0, if_pos rfl, cname, if_pos h]
    · rw [if_neg h, cname, byte0, if_neg h, List.tail_cons, cname_strncpy n t.tail, cname, if_neg h]

/-- What `strncpy` stores is determined by the name. -/
theorem strncpy_congr : ∀ (n : ℕ) (t u : Str), cname n t = cname n u → strncpy t n = strncpy u n
  | 0, _, _, _ => rfl
  | n + 1, t, u, h => by
    rw [cname, cname] at h
    rw [strncpy, strncpy]
    by_cases ht : byte0 t = 0
    · by_cases hu : byte0 u = 0
      · rw [if_pos ht, if_pos hu]
      · rw [if_pos ht, if_neg hu] at h
        cases h
    · by_cases hu : byte0 u = 0
      · rw [if_neg ht, if_pos hu] at h
        cases h
      · rw [if_neg ht, if_neg hu] at h ⊢
        simp only [List.cons.injEq] at h
        rw [h.1, strncpy_congr n t.tail u.tail h.2]

/-- **`strncmp` compares names.** -/
theorem strncmp_eq_zero : ∀ (n : ℕ) (p q : Str), strncmp p q n = 0 ↔ cname n p = cname n q
  | 0, _, _ => by simp [strncmp, cname]
  | n + 1, p, q => by
    simp only [strncmp, cname]
    by_cases hp : byte0 p = 0
    · rw [if_neg fun h => h.1 hp, if_pos hp, hp]
      by_cases hq : byte0 q = 0
      · rw [if_pos hq, hq]
        simp
      · have hq' : (byte0 q).toNat ≠ 0 := fun h => hq (UInt8.toNat_inj.mp h)
        rw [if_neg hq, UInt8.toNat_zero]
        constructor
        · intro h
          omega
        · intro h
          cases h
    · rw [if_neg hp]
      by_cases hpq : byte0 p = byte0 q
      · rw [if_pos ⟨hp, hpq⟩, if_neg (hpq ▸ hp), ← hpq, strncmp_eq_zero n p.tail q.tail]
        simp
      · rw [if_neg fun h => hpq h.2]
        have hne : (byte0 p).toNat ≠ (byte0 q).toNat := fun h => hpq (UInt8.toNat_inj.mp h)
        constructor
        · intro h
          omega
        · intro h
          split at h
          · cases h
          · exact absurd (List.cons.inj h).1 hpq

/-! ### Sixteen-byte identities

User names and passwords, process ids and inode owners are fields of 16 bytes. -/

/-- A `char[16]`. -/
abbrev Ident := Vector UInt8 16

namespace Ident

/-- The field after `strncpy(field, t, 16)`. -/
def ofStr (t : Str) : Ident := ⟨(strncpy t 16).toArray, by simp [strncpy_length]⟩

def name (a : Ident) : Str := cname 16 a.toList

theorem toList_ofStr (t : Str) : (ofStr t).toList = strncpy t 16 := by
  simp [ofStr, Vector.toList]

@[simp] theorem name_ofStr (t : Str) : (ofStr t).name = cname 16 t := by
  rw [name, toList_ofStr, cname_strncpy]

theorem ofStr_congr {t u : Str} (h : cname 16 t = cname 16 u) : ofStr t = ofStr u := by
  apply Vector.toList_inj.mp
  rw [toList_ofStr, toList_ofStr, strncpy_congr 16 t u h]

end Ident

/-- `!strncmp(a, t, 16)`. -/
def sameId (a : Ident) (t : Str) : Bool := strncmp a.toList t 16 = 0

theorem sameId_iff {a : Ident} {t : Str} : sameId a t = true ↔ a.name = cname 16 t := by
  rw [sameId, decide_eq_true_iff, strncmp_eq_zero, Ident.name]

def root : Str := [114, 111, 111, 116]

/-- `!strncmp(id, "root", 16)`. -/
def isRoot (a : Ident) : Bool := sameId a root

end Xv6
