/-
# Arguments of system calls

The first half of syscall.c, and the argument loop of `sys_exec`. A process has its memory at the
addresses below `sz`; the kernel reads it with addresses that the process has chosen, so each of
them is compared with `sz` first. All arithmetic on addresses is modulo 2^32, and a size is an
`int`.

With `sz` below `KERNBASE` the comparisons are enough: an address that passes is below 2^31, and so
is a size, so that their sum does not wrap around. What the kernel then reads or writes is memory of
the process (`validated`).
-/
import Mathlib.Tactic

namespace Xv6.User

/-- Addresses from here on are the kernel's. -/
abbrev KERNBASE : UInt32 := 0x80000000

/-- How many arguments `exec` takes. -/
abbrev MAXARG : ℕ := 32

/-- The calling process: its size, the `%esp` saved in its trap frame, and its memory. -/
structure Proc where
  sz : UInt32
  esp : UInt32
  mem : UInt32 → UInt8

section

variable (u : Proc)

def word (addr : UInt32) : UInt32 :=
  (u.mem addr).toUInt32 ||| (u.mem (addr + 1)).toUInt32 <<< 8 ||| (u.mem (addr + 2)).toUInt32 <<< 16 |||
    (u.mem (addr + 3)).toUInt32 <<< 24

def fetchint (addr : UInt32) : Option UInt32 :=
  if u.sz ≤ addr ∨ u.sz < addr + 4 then none else some (word u addr)

theorem succ_toNat {s ep : UInt32} (h : s < ep) : (s + 1).toNat = s.toNat + 1 := by
  have hs := UInt32.lt_iff_toNat_lt.mp h
  have := ep.toNat_lt
  rw [UInt32.toNat_add, UInt32.toNat_one]
  omega

/-- The loop of `fetchstr`: the first NUL from `s` on. -/
def scan (s : UInt32) : Option UInt32 :=
  if s < u.sz then
    if u.mem s = 0 then some s else scan (s + 1)
  else none
termination_by u.sz.toNat - s.toNat
decreasing_by
  rename_i h _
  have := UInt32.lt_iff_toNat_lt.mp h
  rw [succ_toNat h]
  omega

/-- Fetch the string at `addr`: what `*pp` is set to, if it is, and the return value. -/
def fetchstr (addr : UInt32) : Option UInt32 × Int32 :=
  if u.sz ≤ addr then (none, -1)
  else (some addr, match scan u addr with
    | some s => (s - addr).toInt32
    | none => -1)

def argint (n : UInt32) : Option UInt32 := fetchint u (u.esp + 4 + 4 * n)

/-- Fetch the `n`th argument as a pointer to a block of `size` bytes. -/
def argptr (n : UInt32) (size : Int32) : Option UInt32 :=
  match argint u n with
  | none => none
  | some i => if size < 0 ∨ u.sz ≤ i ∨ u.sz < i + size.toUInt32 then none else some i

def argstr (n : UInt32) : Option UInt32 × Int32 :=
  match argint u n with
  | none => (none, -1)
  | some addr => fetchstr u addr

/-- The loop of `sys_exec` from `argv[i]` on, with `fuel` entries of `argv` left: what it stores
there, and whether it ends with a null pointer. -/
def argvFrom (uargv : UInt32) : ℕ → ℕ → List UInt32 × Bool
  | 0, _ => ([], false)
  | fuel + 1, i =>
    match fetchint u (uargv + UInt32.ofNat (4 * i)) with
    | none => ([], false)
    | some uarg =>
      if uarg = 0 then ([0], true)
      else
        let (pp, r) := fetchstr u uarg
        if r < 0 then (pp.toList, false)
        else
          let (argv, ok) := argvFrom uargv fuel (i + 1)
          (pp.toList ++ argv, ok)

/-- The `argv` of `sys_exec`. -/
def execArgv (uargv : UInt32) : List UInt32 × Bool := argvFrom u uargv MAXARG 0

/-- `sys_exec` up to the call of `exec`: its arguments. -/
def sysExec : Option (UInt32 × List UInt32) :=
  match argstr u 0, argint u 1 with
  | (some path, r), some uargv =>
    if r < 0 then none
    else match execArgv u uargv with
      | (argv, true) => some (path, argv)
      | (_, false) => none
  | _, _ => none

/-! ### What may be accessed -/

/-- The `n` bytes at `p` are memory of the process. -/
def Within (p : UInt32) (n : ℕ) : Prop := ∀ k < n, p + UInt32.ofNat k < u.sz

/-- There is a string of `len` bytes at `p`: it and the NUL after it are memory of the process. -/
structure IsStr (p : UInt32) (len : ℕ) : Prop where
  within : Within u p (len + 1)
  nul : u.mem (p + UInt32.ofNat len) = 0
  body : ∀ k < len, u.mem (p + UInt32.ofNat k) ≠ 0

/-- What the checks of syscall.c and `sys_exec` let through. -/
structure Validated : Prop where
  fetchint : ∀ addr v, fetchint u addr = some v → Within u addr 4
  argint : ∀ n v, argint u n = some v → Within u (u.esp + 4 + 4 * n) 4
  argptr : ∀ n size p, argptr u n size = some p → 0 ≤ size ∧ Within u p size.toNatClampNeg
  fetchstr : ∀ addr, 0 ≤ (fetchstr u addr).2 →
    (fetchstr u addr).1 = some addr ∧ IsStr u addr (fetchstr u addr).2.toNatClampNeg
  /-- `fetchstr` fails only if there is no string. -/
  nostr : ∀ addr, (User.fetchstr u addr).2 < 0 → ∀ len, ¬IsStr u addr len
  argstr : ∀ n, 0 ≤ (argstr u n).2 → ∃ addr, (argstr u n).1 = some addr ∧
    IsStr u addr (argstr u n).2.toNatClampNeg
  /-- Whatever becomes of the call, `argv` is not overrun. -/
  argv : ∀ uargv, (execArgv u uargv).1.length ≤ MAXARG
  exec : ∀ path argv, sysExec u = some (path, argv) → (∃ len, IsStr u path len) ∧
    ∃ ptrs, argv = ptrs ++ [0] ∧ argv.length ≤ MAXARG ∧ ∀ p ∈ ptrs, ∃ len, IsStr u p len

end

section

variable {u : Proc} {addr s p : UInt32}

theorem toNat_add_ofNat {k : ℕ} (h : p.toNat + k < 2 ^ 32) : (p + UInt32.ofNat k).toNat = p.toNat +
    k := by
  rw [UInt32.toNat_add, UInt32.toNat_ofNat', Nat.mod_eq_of_lt (show k < 2 ^ 32 by omega),
    Nat.mod_eq_of_lt h]

open UInt32 (lt_iff_toNat_lt le_iff_toNat_le)

/-- A block below the size, in natural numbers. -/
theorem within_of_le {n : ℕ} (h : p.toNat + n ≤ u.sz.toNat) : Within u p n := fun k hk => by
  have := u.sz.toNat_lt
  rw [lt_iff_toNat_lt, toNat_add_ofNat (by omega)]
  omega

/-- A block in the memory does not wrap around: it would contain the address `sz`. -/
theorem Within.le {n : ℕ} (h : Within u p n) (hn : 0 < n) : p.toNat + n ≤ u.sz.toNat := by
  have hp := p.toNat_lt
  have hsz := u.sz.toNat_lt
  have h0 := h 0 hn
  rw [lt_iff_toNat_lt, toNat_add_ofNat (by omega)] at h0
  by_contra hlt
  have := h (u.sz.toNat - p.toNat) (by omega)
  rw [lt_iff_toNat_lt, toNat_add_ofNat (by omega)] at this
  omega

theorem fetchint_ok (hsz : u.sz < KERNBASE) {v : UInt32} (h : fetchint u addr = some v) :
    Within u addr 4 := by
  have hsz := UInt32.lt_iff_toNat_lt.mp hsz
  rw [fetchint] at h
  split at h
  · cases h
  · rename_i hno
    rw [not_or, UInt32.not_le, UInt32.not_lt, lt_iff_toNat_lt, le_iff_toNat_le,
      UInt32.toNat_add] at hno
    have h4 : (4 : UInt32).toNat = 4 := rfl
    have hk : KERNBASE.toNat = 2 ^ 31 := rfl
    exact within_of_le (by omega)

theorem argptr_ok (hsz : u.sz < KERNBASE) {n : UInt32} {size : Int32} (h : argptr u n size = some p) :
    0 ≤ size ∧ Within u p size.toNatClampNeg := by
  have hsz := UInt32.lt_iff_toNat_lt.mp hsz
  have hk : KERNBASE.toNat = 2 ^ 31 := rfl
  rw [argptr] at h
  split at h
  · cases h
  · split at h
    · cases h
    · rename_i hno
      cases h
      rw [not_or, not_or, Int32.not_lt, UInt32.not_le, UInt32.not_lt, lt_iff_toNat_lt,
        le_iff_toNat_le,
        UInt32.toNat_add] at hno
      obtain ⟨h0, hlt, hle⟩ := hno
      have := size.toNatClampNeg_lt
      rw [Int32.toNat_toUInt32_of_le h0] at hle
      exact ⟨h0, within_of_le (by omega)⟩

/-! ### Strings -/

/-- What the loop of `fetchstr` finds: the first NUL, or that there is none. -/
theorem scan_spec (s : UInt32) : match scan u s with
    | some e => s.toNat ≤ e.toNat ∧ e < u.sz ∧ u.mem e = 0 ∧ ∀ a, s ≤ a → a < e → u.mem a ≠ 0
    | none => ∀ a, s ≤ a → a < u.sz → u.mem a ≠ 0 := by
  fun_induction scan u s with
  | case1 s hlt h0 =>
    refine ⟨le_rfl, hlt, h0, fun a h1 h2 => ?_⟩
    rw [le_iff_toNat_le] at h1
    rw [lt_iff_toNat_lt] at h2
    omega
  | case2 s hlt h0 ih =>
    -- `s` itself is not NUL, so what holds from `s + 1` on holds from `s` on
    have hstep : ∀ a, s ≤ a → s + 1 ≤ a ∨ u.mem a ≠ 0 := fun a ha => by
      by_cases has : a = s
      · exact .inr (has ▸ h0)
      · rw [← UInt32.toNat_inj] at has
        rw [le_iff_toNat_le] at ha ⊢
        rw [succ_toNat hlt]
        exact .inl (by omega)
    split at ih
    · obtain ⟨h1, h2, h3, h4⟩ := ih
      rw [succ_toNat hlt] at h1
      exact ⟨by omega, h2, h3, fun a ha hae => (hstep a ha).elim (fun ha => h4 a ha hae) id⟩
    · exact fun a ha hae => (hstep a ha).elim (fun ha => ih a ha hae) id
  | case3 s hge =>
    intro a h1 h2
    rw [lt_iff_toNat_lt] at h2 hge
    rw [le_iff_toNat_le] at h1
    omega

/-- A distance in the memory of a process is an `int` that is not negative. -/
theorem toInt32_nonneg {x : UInt32} (h : x.toNat < 2 ^ 31) :
    0 ≤ x.toInt32 ∧ x.toInt32.toNatClampNeg = x.toNat := by
  have h0 : 0 ≤ x.toInt32 := by
    rw [Int32.le_iff_toInt_le]
    show (0 : ℤ) ≤ x.toBitVec.toInt
    rw [BitVec.toInt_eq_toNat_of_lt (by rw [UInt32.toNat_toBitVec]; omega)]
    exact Int.natCast_nonneg _
  exact ⟨h0, by rw [← Int32.toNat_toUInt32_of_le h0, UInt32.toUInt32_toInt32]⟩

/-- The first NUL ends a string. -/
theorem isStr_of_nul {e : UInt32} (hle : addr.toNat ≤ e.toNat) (he : e < u.sz) (h0 : u.mem e = 0)
    (hno : ∀ a, addr ≤ a → a < e → u.mem a ≠ 0) : IsStr u addr (e - addr).toNat := by
  have hlt := e.toNat_lt
  have hsub : (e - addr).toNat = e.toNat - addr.toNat :=
    UInt32.toNat_sub_of_le _ _ (UInt32.le_iff_toNat_le.mpr hle)
  have hnat : ∀ k, k ≤ (e - addr).toNat → (addr + UInt32.ofNat k).toNat = addr.toNat + k := fun k hk =>
    toNat_add_ofNat (by omega)
  refine ⟨within_of_le ?_, ?_, fun k hk => hno _ ?_ ?_⟩
  · rw [lt_iff_toNat_lt] at he
    omega
  · rw [show addr + UInt32.ofNat (e - addr).toNat = e from UInt32.toNat_inj.mp
      (by rw [hnat _ le_rfl]; omega), h0]
  · rw [le_iff_toNat_le, hnat k hk.le]
    omega
  · rw [lt_iff_toNat_lt, hnat k hk.le]
    omega

/-- `fetchstr` returns the length of the string, or a negative number if there is none. -/
theorem fetchstr_ok (hsz : u.sz < KERNBASE) (addr : UInt32) :
    (0 ≤ (fetchstr u addr).2 ∧ (fetchstr u addr).1 = some addr ∧
      IsStr u addr (fetchstr u addr).2.toNatClampNeg) ∨
      ((fetchstr u addr).2 < 0 ∧ ∀ len, ¬IsStr u addr len) := by
  have hsz := UInt32.lt_iff_toNat_lt.mp hsz
  have hk : KERNBASE.toNat = 2 ^ 31 := rfl
  rw [fetchstr]
  split_ifs with hge
  · refine .inr ⟨by decide, fun len h => ?_⟩
    have := h.within.le (Nat.succ_pos _)
    rw [le_iff_toNat_le] at hge
    omega
  · have hscan := scan_spec (u := u) addr
    cases he : scan u addr with
    | none =>
      rw [he] at hscan
      refine .inr ⟨by show (-1 : Int32) < 0; decide, fun len h => ?_⟩
      have hle := h.within.le (Nat.succ_pos _)
      refine hscan _ ?_ (h.within len (Nat.lt_succ_self _)) h.nul
      rw [le_iff_toNat_le, toNat_add_ofNat (by omega)]
      omega
    | some e =>
      rw [he] at hscan
      obtain ⟨hle, hlt, h0, hno⟩ := hscan
      have hsub : (e - addr).toNat = e.toNat - addr.toNat :=
        UInt32.toNat_sub_of_le _ _ (UInt32.le_iff_toNat_le.mpr hle)
      obtain ⟨hpos, hnat⟩ := toInt32_nonneg (x := e - addr) (by rw [lt_iff_toNat_lt] at hlt; omega)
      exact .inl ⟨hpos, rfl, hnat ▸ isStr_of_nul hle hlt h0 hno⟩

theorem argstr_ok (hsz : u.sz < KERNBASE) {n : UInt32} (h : 0 ≤ (argstr u n).2) :
    ∃ addr, (argstr u n).1 = some addr ∧ IsStr u addr (argstr u n).2.toNatClampNeg := by
  rw [argstr] at h ⊢
  split at h
  · exact absurd h (by decide)
  · rename_i addr _
    rcases fetchstr_ok hsz addr with h' | h'
    · exact ⟨addr, h'.2⟩
    · exact absurd h (Int32.not_le.mpr h'.1)

/-! ### The arguments of `exec` -/

theorem length_toList_le (pp : Option UInt32) : pp.toList.length ≤ 1 := by cases pp <;> simp

theorem argvFrom_length (uargv : UInt32) : ∀ fuel i : ℕ, (argvFrom u uargv fuel i).1.length ≤ fuel
  | 0, _ => le_rfl
  | fuel + 1, i => by
    have ih := argvFrom_length uargv fuel (i + 1)
    rw [argvFrom]
    split
    · exact Nat.zero_le _
    · rename_i uarg _
      have hone := length_toList_le (fetchstr u uarg).1
      split
      · exact Nat.succ_le_succ (Nat.zero_le _)
      · simp only
        split
        · exact hone.trans (Nat.succ_le_succ (Nat.zero_le _))
        · rw [List.length_append]
          omega

/-- The pointers stored, up to the null pointer, are pointers to strings. -/
theorem argvFrom_ok (hsz : u.sz < KERNBASE) (uargv : UInt32) : ∀ fuel i : ℕ,
    (argvFrom u uargv fuel i).2 = true → ∃ ptrs, (argvFrom u uargv fuel i).1 = ptrs ++ [0] ∧
      ∀ p ∈ ptrs, ∃ len, IsStr u p len
  | 0, _, h => by cases h
  | fuel + 1, i, h => by
    have ih := argvFrom_ok hsz uargv fuel (i + 1)
    rw [argvFrom] at h ⊢
    split at h
    · cases h
    · rename_i uarg _
      by_cases h0 : uarg = 0
      · rw [if_pos h0]
        exact ⟨[], rfl, nofun⟩
      · rw [if_neg h0] at h ⊢
        simp only at h ⊢
        split at h
        · cases h
        · rename_i hr
          rw [if_neg hr]
          obtain ⟨ptrs, hptrs, hstr⟩ := ih h
          rcases fetchstr_ok hsz uarg with ⟨-, hpp, hs⟩ | h'
          · refine ⟨uarg :: ptrs, by rw [hptrs, hpp]; rfl, fun p hp => ?_⟩
            rcases List.mem_cons.mp hp with rfl | hp
            · exact ⟨_, hs⟩
            · exact hstr p hp
          · exact absurd h'.1 hr

/-- **The kernel touches only memory of the process.** -/
theorem validated (hsz : u.sz < KERNBASE) : Validated u where
  fetchint := fun _ _ => fetchint_ok hsz
  argint := fun _ _ => fetchint_ok hsz
  argptr := fun _ _ _ => argptr_ok hsz
  fetchstr := fun addr h => by
    rcases fetchstr_ok hsz addr with h' | h'
    · exact h'.2
    · exact absurd h (Int32.not_le.mpr h'.1)
  nostr := fun addr h => by
    rcases fetchstr_ok hsz addr with h' | h'
    · exact absurd h (Int32.not_lt.mpr h'.1)
    · exact h'.2
  argstr := fun _ => argstr_ok hsz
  argv := fun uargv => argvFrom_length uargv MAXARG 0
  exec := fun path argv h => by
    rw [sysExec] at h
    split at h
    · rename_i path' r uargv hpath _
      split at h
      · cases h
      · rename_i hr
        have hstr := argstr_ok hsz (n := 0) (by rw [hpath]; exact Int32.not_lt.mp hr)
        split at h
        · rename_i argv' hargv
          cases h
          obtain ⟨addr, haddr, hs⟩ := hstr
          rw [hpath] at haddr
          cases haddr
          have hlen := argvFrom_length (u := u) uargv MAXARG 0
          obtain ⟨ptrs, hptrs, hall⟩ := argvFrom_ok hsz uargv MAXARG 0 (by rw [← execArgv, hargv])
          rw [← execArgv, hargv] at hptrs hlen
          exact ⟨⟨_, hs⟩, ptrs, hptrs, hlen, hall⟩
        · cases h
    · cases h

/-- A process that calls `exec` with the path "ls" and itself as the only argument. -/
def lsProc : Proc where
  sz := 4096
  esp := 64
  mem := fun a =>
    if a = 68 ∨ a = 96 then 80           -- the path, and argv[0]
    else if a = 72 then 96               -- argv
    else if a = 80 then 108 else if a = 81 then 115 else 0

theorem scan_ls : scan lsProc 80 = some 82 := by
  rw [scan, if_pos (by decide), if_neg (by decide), scan, if_pos (by decide), if_neg (by decide), scan,
    if_pos (by decide), if_pos (by decide)]
  rfl

theorem fetchstr_ls : fetchstr lsProc 80 = (some 80, 2) := by
  rw [fetchstr, if_neg (by decide), scan_ls]
  rfl

theorem validated_ls : sysExec lsProc = some (80, [80, 0]) ∧ Validated lsProc := by
  refine ⟨?_, validated (by decide)⟩
  have h0 : argint lsProc 0 = some 80 := by decide
  have h1 : argint lsProc 1 = some 96 := by decide
  have h2 : fetchint lsProc (96 + UInt32.ofNat (4 * 0)) = some 80 := by decide
  have h3 : fetchint lsProc (96 + UInt32.ofNat (4 * 1)) = some 0 := by decide
  have hend : argvFrom lsProc 96 31 (0 + 1) = ([0], true) := by
    rw [argvFrom, h3]
    rfl
  have hargv : execArgv lsProc 96 = ([80, 0], true) := by
    rw [execArgv, argvFrom, h2]
    simp only [fetchstr_ls, hend]
    decide
  simp only [sysExec, argstr, h0, h1, fetchstr_ls, hargv]
  decide

end

end Xv6.User
