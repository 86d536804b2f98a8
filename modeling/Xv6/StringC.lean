/-
# string.c on memory

strncpy and strncmp as the loops of string.c, over a memory of which a part may not be touched: a
byte read or written there is a fault. What they leave and return is what Cstring.lean says of byte
lists (`strncpy_spec`, `strncmp_spec`).

An identity is a field of 16 bytes, and goes from field to field by `strncpy(.., .., 16)`. Whatever
was in the fields before, the last one holds the name it started from, and `strncmp` tells names
apart (`identity_law`). No byte after a field is needed, so a name of 16 bytes has no NUL.
-/
import Xv6.Cstring

namespace Xv6.StringC

open Function (update update_self update_of_ne)

/-- The byte at each address, where there is one. -/
abbrev Memory := ℕ → Option UInt8

/-- `*s = c` -/
def store (m : Memory) (s : ℕ) (c : UInt8) : Option Memory := do
  let _ ← m s
  some (Function.update m s (some c))

def strncmp (m : Memory) : ℕ → ℕ → ℕ → Option ℤ
  | _, _, 0 => some 0
  | p, q, n + 1 => do
    let a ← m p
    let b ← m q
    if a ≠ 0 ∧ a = b then strncmp m (p + 1) (q + 1) n else some ((a.toNat : ℤ) - b.toNat)

/-- The first loop of `strncpy`, with what it leaves in `n` and `s`. -/
def copyLoop : ℕ → ℕ → ℕ → Memory → Option (ℤ × ℕ × Memory)
  | 0, s, _, m => some (-1, s, m) -- `n-- > 0` fails, and takes 1 off all the same
  | n + 1, s, t, m => do
    let c ← m t
    let m ← store m s c
    if c ≠ 0 then copyLoop n (s + 1) (t + 1) m else some (n, s + 1, m)

/-- The second loop. -/
def fillLoop : ℕ → ℕ → Memory → Option Memory
  | 0, _, m => some m
  | n + 1, s, m => do
    let m ← store m s 0
    fillLoop n (s + 1) m

def strncpy (m : Memory) (s t n : ℕ) : Option Memory := do
  let (n, s, m) ← copyLoop n s t m
  fillLoop n.toNat s m

/-! ### What is in memory -/

/-- The bytes at `s`. -/
def Holds (m : Memory) (s : ℕ) (x : Str) : Prop := ∀ i c, x[i]? = some c → m (s + i) = some c

/-- There are `n` bytes at `s`. -/
def Field (m : Memory) (n s : ℕ) : Prop := ∀ i, i < n → (m (s + i)).isSome

structure CString (m : Memory) (p : ℕ) (x : Str) : Prop where
  nonzero : 0 ∉ x
  holds : Holds m p (x ++ [0])

/-- A loop that stops after `n` bytes or a NUL reads `x` at `p`. -/
def Reads (m : Memory) : ℕ → ℕ → Str → Prop
  | 0, _, _ => True
  | n + 1, p, x => m p = some (byte0 x) ∧ (byte0 x ≠ 0 → Reads m n (p + 1) x.tail)

section

variable {m m' : Memory} {n p q s t : ℕ} {x y : Str} {c : UInt8}

theorem holds_cons : Holds m s (c :: x) ↔ m s = some c ∧ Holds m (s + 1) x := by
  constructor
  · intro h
    refine ⟨h 0 c rfl, fun i d hd => ?_⟩
    rw [Nat.add_assoc, Nat.add_comm 1 i]
    exact h (i + 1) d hd
  · rintro ⟨h0, h⟩ i d hd
    cases i with
    | zero =>
      cases hd
      exact h0
    | succ i =>
      rw [Nat.add_comm i 1, ← Nat.add_assoc]
      exact h i d hd

theorem Field.head (h : Field m (n + 1) s) : ∃ c, m s = some c :=
  Option.isSome_iff_exists.mp (h 0 (Nat.succ_pos n))

theorem Field.tail (h : Field m (n + 1) s) : Field m n (s + 1) := fun i hi => by
  rw [Nat.add_assoc, Nat.add_comm 1 i]
  exact h (i + 1) (by omega)

theorem Field.congr (h : Field m n s) (hm : ∀ a, (m a).isSome → (m' a).isSome) : Field m' n s :=
  fun i hi => hm _ (h i hi)

theorem Holds.field (h : Holds m s x) : Field m x.length s := fun i hi => by
  rw [h i x[i] (List.getElem?_eq_getElem hi)]
  rfl

/-- Any field can be read. -/
theorem Field.holds (h : Field m n s) : ∃ x, x.length = n ∧ Holds m s x := by
  induction n generalizing s with
  | zero => exact ⟨[], rfl, fun i c hc => by cases hc⟩
  | succ n ih =>
    obtain ⟨c, hc⟩ := h.head
    obtain ⟨x, hlen, hx⟩ := ih h.tail
    exact ⟨c :: x, by rw [List.length_cons, hlen], holds_cons.mpr ⟨hc, hx⟩⟩

theorem reads_field (hx : x.length = n) (h : Holds m p x) : Reads m n p x := by
  subst hx
  induction x generalizing p with
  | nil => trivial
  | cons c x ih =>
    obtain ⟨h0, h⟩ := holds_cons.mp h
    exact ⟨h0, fun _ => ih h⟩

theorem CString.reads (h : CString m p x) (n : ℕ) : Reads m n p x := by
  obtain ⟨h0, h⟩ := h
  induction x generalizing p n with
  | nil =>
    cases n with
    | zero => trivial
    | succ n => exact ⟨(holds_cons.mp h).1, fun hne => absurd rfl hne⟩
  | cons c x ih =>
    cases n with
    | zero => trivial
    | succ n =>
      obtain ⟨h₀, h⟩ := holds_cons.mp h
      exact ⟨h₀, fun _ => ih n (List.not_mem_of_not_mem_cons h0) h⟩

/-- What strncpy stores of a string. -/
theorem strncpy_eq_take (h0 : 0 ∉ x) : Xv6.strncpy x n = x.take n ++ List.replicate (n - x.length) 0 := by
  induction x generalizing n with
  | nil => cases n <;> rfl
  | cons c x ih =>
    cases n with
    | zero =>
      rw [List.length_cons, Nat.zero_sub]
      rfl
    | succ n =>
      have hc : c ≠ 0 := fun heq => h0 (heq ▸ List.mem_cons_self)
      rw [Xv6.strncpy, byte0, if_neg hc, List.tail_cons, ih (List.not_mem_of_not_mem_cons h0),
        List.take_succ_cons, List.length_cons,
        Nat.add_sub_add_right, List.cons_append]

/-- The bytes that the loop reads are those of the name and the NUL after it. -/
theorem Reads.congr (h : Reads m n p x)
    (hm : ∀ i, i < n → i ≤ (cname n x).length → m' (p + i) = m (p + i)) : Reads m' n p x := by
  induction n generalizing p x with
  | zero => trivial
  | succ n ih =>
    obtain ⟨h0, h⟩ := h
    refine ⟨(hm 0 (by omega) (Nat.zero_le _)).trans h0, fun hne => ih (h hne) fun i hi hle => ?_⟩
    rw [Nat.add_assoc, Nat.add_comm 1 i]
    refine hm (i + 1) (by omega) ?_
    rw [cname, if_neg hne, List.length_cons]
    omega

/-! ### strncmp -/

theorem strncmp_spec (hp : Reads m n p x) (hq : Reads m n q y) :
    strncmp m p q n = some (Xv6.strncmp x y n) := by
  induction n generalizing p q x y with
  | zero => rfl
  | succ n ih =>
    obtain ⟨hp0, hp⟩ := hp
    obtain ⟨hq0, hq⟩ := hq
    rw [strncmp, hp0, hq0, Xv6.strncmp]
    by_cases h : byte0 x ≠ 0 ∧ byte0 x = byte0 y
    · have hne : byte0 y ≠ 0 := h.2 ▸ h.1
      simp only [Option.bind_eq_bind, Option.bind_some, if_pos h]
      exact ih (hp h.1) (hq hne)
    · simp only [Option.bind_eq_bind, Option.bind_some, if_neg h]

/-! ### strncpy -/

theorem store_of_some {d : UInt8} (h : m s = some d) : store m s c = some (update m s (some c)) := by
  rw [store, h]
  rfl

/-- What a call leaves: `x` at `s`, and the rest of memory as it was. -/
structure Stored (m : Memory) (s : ℕ) (x : Str) (m' : Memory) : Prop where
  holds : Holds m' s x
  rest : ∀ a, a < s ∨ s + x.length ≤ a → m' a = m a

theorem Stored.nil : Stored m s [] m := ⟨fun i c hc => (by cases hc), fun _ _ => rfl⟩

theorem Stored.cons (h : Stored (update m s (some c)) (s + 1) x m') : Stored m s (c :: x) m' := by
  have hne : ∀ a, a ≠ s → update m s (some c) a = m a := fun a ha => update_of_ne ha _ _
  refine ⟨holds_cons.mpr ⟨?_, h.holds⟩, fun a ha => ?_⟩
  · rw [h.rest s (by omega)]
    exact update_self ..
  · rw [List.length_cons] at ha
    rw [h.rest a (by omega)]
    exact hne a (by omega)

theorem Field.update (h : Field m n s) : Field (update m t (some c)) n s := by
  refine h.congr fun a ha => ?_
  by_cases hat : a = t
  · rw [hat, update_self]
    rfl
  · rwa [update_of_ne hat]

theorem fillLoop_spec (h : Field m n s) : ∃ m', fillLoop n s m = some m' ∧
    Stored m s (List.replicate n 0) m' := by
  induction n generalizing m s with
  | zero => exact ⟨m, rfl, Stored.nil⟩
  | succ n ih =>
    obtain ⟨d, hd⟩ := h.head
    obtain ⟨m', hrun, hst⟩ := ih (h.tail.update (t := s) (c := 0))
    refine ⟨m', ?_, hst.cons⟩
    rw [fillLoop, store_of_some hd]
    exact hrun

/-- The counter that the loops share comes out right: `n` bytes are stored. -/
theorem strncpy_spec (ht : Reads m n t x) (hs : Field m n s)
    (hst : ∀ i, i < n → i ≤ (cname n x).length → t + i < s ∨ s + n ≤ t + i) :
    ∃ m', strncpy m s t n = some m' ∧ Stored m s (Xv6.strncpy x n) m' := by
  induction n generalizing m s t x with
  | zero => exact ⟨m, rfl, Stored.nil⟩
  | succ n ih =>
    obtain ⟨ht0, ht⟩ := ht
    obtain ⟨d, hd⟩ := hs.head
    rw [strncpy, copyLoop, ht0, Xv6.strncpy]
    simp only [Option.bind_eq_bind, Option.bind_some, store_of_some hd]
    by_cases h0 : byte0 x = 0
    · rw [if_neg (not_not.mpr h0), if_pos h0]
      obtain ⟨m', hrun, hst⟩ := fillLoop_spec (hs.tail.update (t := s) (c := byte0 x))
      rw [h0] at hrun hst
      refine ⟨m', ?_, hst.cons⟩
      rw [h0]
      exact hrun
    · rw [if_pos h0, if_neg h0]
      rw [cname, if_neg h0, List.length_cons] at hst
      have hsame : Reads (update m s (some (byte0 x))) n (t + 1) x.tail := by
        refine (ht h0).congr fun i hi hle => update_of_ne ?_ _ _
        have := hst (i + 1) (by omega) (by omega)
        omega
      obtain ⟨m', hrun, hst'⟩ := ih hsame hs.tail.update fun i hi hle => by
        have := hst (i + 1) (by omega) (by omega)
        omega
      exact ⟨m', hrun, hst'.cons⟩

/-! ### Identities -/

/-- The name at `t` is copied to the first of the fields, from there to the next, and so on. -/
def chain (m : Memory) (t : ℕ) : List ℕ → Option (ℕ × Memory)
  | [] => some (t, m)
  | s :: fields => do
    let m ← strncpy m s t 16
    chain m s fields

/-- Two fields that do not meet. -/
def Apart (s t : ℕ) : Prop := s + 16 ≤ t ∨ t + 16 ≤ s

theorem Stored.field (h : Stored m s x m') (ht : Field m n t) : Field m' n t := by
  refine ht.congr fun a ha => ?_
  by_cases hin : s ≤ a ∧ a < s + x.length
  · have := h.holds.field (a - s) (by omega)
    rwa [Nat.add_sub_cancel' hin.1] at this
  · rwa [h.rest a (by omega)]

/-- The last field holds the name, whatever the fields held before. -/
theorem chain_spec (hs : Holds m s (Xv6.strncpy x 16)) {fields : List ℕ}
    (hfield : ∀ f ∈ fields, Field m 16 f) (hchain : (s :: fields).IsChain Apart) :
    ∃ last m', chain m s fields = some (last, m') ∧ Holds m' last (Xv6.strncpy x 16) := by
  induction fields generalizing m s with
  | nil => exact ⟨s, m, rfl, hs⟩
  | cons f fields ih =>
    obtain ⟨hapart, hchain⟩ := List.isChain_cons_cons.mp hchain
    have hlen := strncpy_length x 16
    obtain ⟨m1, hrun, hst⟩ := strncpy_spec (reads_field hlen hs) (hfield f List.mem_cons_self)
      fun i hi _ => by
      unfold Apart at hapart
      omega
    have hkeep : Xv6.strncpy (Xv6.strncpy x 16) 16 = Xv6.strncpy x 16 :=
      strncpy_congr 16 _ _ (cname_strncpy 16 x)
    rw [hkeep] at hst
    obtain ⟨last, m', hrest, hlast⟩ :=
      ih hst.holds (fun g hg => hst.field (hfield g (List.mem_cons_of_mem _ hg))) hchain
    refine ⟨last, m', ?_, hlast⟩
    rw [chain, hrun]
    exact hrest

end

/-- **Identities of 16 bytes.** A string goes through any chain of fields: the last one then holds
its first 16 bytes, with NULs after them, and compares equal to the strings with the same 16 bytes.
Of fields with any contents the bytes up to the first NUL are compared, which is an equivalence. -/
theorem identity_law {m : Memory} {a f : ℕ} {x : Str} {fields : List ℕ} (ha : CString m a x)
    (hfirst : a + x.length < f ∨ f + 16 ≤ a) (hfield : ∀ g ∈ f :: fields, Field m 16 g)
    (hchain : (f :: fields).IsChain Apart) :
    (∃ last m', chain m a (f :: fields) = some (last, m') ∧
      Holds m' last (x.take 16 ++ List.replicate (16 - x.length) 0) ∧ ∀ b y, CString m' b y → ∃ r,
      strncmp m' last b 16 = some r ∧ (r = 0 ↔ x.take 16 = y.take 16)) ∧
    (∀ m p q y z, y.length = 16 → z.length = 16 → Holds m p y → Holds m q z →
      ∃ r, strncmp m p q 16 = some r ∧ (r = 0 ↔ cname 16 y = cname 16 z)) ∧
    ∀ m : Memory, Equivalence fun p q : { p // Field m 16 p } => strncmp m p q 16 = some 0 := by
  refine ⟨?_, fun m p q y z hy hz hp hq => ?_, fun m => ?_⟩
  · have hlen := strncpy_length x 16
    obtain ⟨m1, hrun, hst⟩ := strncpy_spec (ha.reads 16) (hfield f List.mem_cons_self) fun i hi hle => by
      rw [cname_eq_take ha.nonzero, List.length_take] at hle
      omega
    obtain ⟨last, m', hrest, hlast⟩ :=
      chain_spec hst.holds (fun g hg => hst.field (hfield g (List.mem_cons_of_mem _ hg))) hchain
    refine ⟨last, m', ?_, ?_, fun b y hb => ⟨_, strncmp_spec (reads_field hlen hlast) (hb.reads 16), ?_⟩⟩
    · rw [chain, hrun]
      exact hrest
    · rwa [← strncpy_eq_take ha.nonzero]
    · rw [strncmp_eq_zero, cname_strncpy, cname_eq_take ha.nonzero, cname_eq_take hb.nonzero]
  · exact ⟨_, strncmp_spec (reads_field hy hp) (reads_field hz hq), strncmp_eq_zero ..⟩
  · have hname : ∀ p : { p // Field m 16 p }, ∃ x, Reads m 16 p x := fun p => by
      obtain ⟨x, hlen, hx⟩ := p.2.holds
      exact ⟨x, reads_field hlen hx⟩
    choose name hreads using hname
    have hiff : ∀ p q : { p // Field m 16 p }, strncmp m p q 16 = some 0 ↔ cname 16 (name p) =
      cname 16 (name q) := fun p q => by
      rw [strncmp_spec (hreads p) (hreads q), Option.some.injEq, strncmp_eq_zero]
    simp only [hiff]
    exact ⟨fun p => rfl, fun h => h.symm, fun h h' => h.trans h'⟩

/-- The string "r" is at 0, and 7 in every byte after it. -/
theorem identity_law_r :
    ∃ last m', chain (fun i => some (if i = 0 then 114 else if i = 1 then 0 else 7)) 0 [16, 40] =
    some (last, m') ∧ Holds m' last (114 :: List.replicate 15 0) := by
  have ha : CString (fun i => some (if i = 0 then 114 else if i = 1 then 0 else 7)) 0 [114] :=
    ⟨by decide, holds_cons.mpr ⟨rfl, holds_cons.mpr ⟨rfl, Stored.nil.holds⟩⟩⟩
  have hchain : [16, 40].IsChain Apart :=
    List.isChain_cons_cons.mpr ⟨.inl (by decide), List.isChain_singleton 40⟩
  obtain ⟨⟨last, m', hrun, hlast, -⟩, -⟩ := identity_law ha (.inl (by decide)) (fun g _ i _ => rfl) hchain
  exact ⟨last, m', hrun, hlast⟩

end Xv6.StringC
