/-
# The account table

`utable` of sysfile.c: ten slots of a name and a password, and an `online`
flag for each. `accountcheck`, `addUser` and `deleteUser` change it under
`utable.lock`; `usysinit` builds it at boot from the file `useraccount`, or
makes the file if there is none.

`addUser` takes the first slot whose `online` flag is 0, and a boot that loads
the file clears all the flags. So the first `addUser` after such a boot goes to
slot 0, over root. That is the only way the table goes wrong
(`Accounts.tableOk_iff`): root has a slot and no two slots have the same name exactly as
long as no `addUser` takes slot 0.
-/
import Xv6.Cstring
import Xv6.Param

namespace Xv6

open Function (update update_self update_of_ne)

/-- Slots of the account table. -/
abbrev NUM_USER : ℕ := 10

/-- `sizeof(utable.user)`. -/
abbrev userBytes : ℕ := 320

/-- `utable`, less its lock and its inode. -/
structure UTable where
  user : Fin NUM_USER → Ident × Ident
  online : Fin NUM_USER → Bool

namespace UTable

/-- The first slot that satisfies `p`, as the loops over the table find it. -/
def first (p : Fin NUM_USER → Bool) : Option (Fin NUM_USER) := (List.finRange NUM_USER).find? p

/-- The slot a name is in. -/
def lookup (t : UTable) (username : Str) : Option (Fin NUM_USER) :=
  first fun i => sameId (t.user i).1 username

/-- The slot `addUser` takes. -/
def free (t : UTable) : Option (Fin NUM_USER) := first fun i => !t.online i

/-- `accountcheck`: the slot that matches goes online; `none` is the return
value -1. -/
def accountcheck (t : UTable) (id pw : Str) : Option UTable :=
  (first fun i => sameId (t.user i).1 id && sameId (t.user i).2 pw).map fun i =>
    { t with online := update t.online i true }

/-- `addUser` up to the release of the lock. -/
def insert (t : UTable) (username password : Str) : Option UTable :=
  if (t.lookup username).isSome then none
  else t.free.map fun i =>
    { user := update t.user i (Ident.ofStr username, Ident.ofStr password)
      online := update t.online i true }

/-- A field of NULs. -/
def noName : Ident := Vector.replicate 16 0

/-- `deleteUser` up to the release of the lock. -/
def remove (t : UTable) (username : Str) : Option UTable :=
  if strncmp username root 16 = 0 then none
  else (t.lookup username).map fun i =>
    { user := update t.user i (noName, noName)
      online := update t.online i false }

/-- The table `usysinit` starts from. -/
def cleared : UTable := ⟨fun _ => (noName, noName), fun _ => false⟩

/-- The string "0000". -/
def rootPw : Str := [48, 48, 48, 48]

/-- Slot 0 is set to root/0000. -/
def setRoot (t : UTable) : UTable :=
  { t with user := update t.user 0 (Ident.ofStr root, Ident.ofStr rootPw) }

/-- The table of a first boot: root's account, online. -/
def initial : UTable :=
  { cleared.setRoot with online := update cleared.online 0 true }

/-- Byte `k` of `utable.user`, an array `[NUM_USER][2][16]`. -/
def byteAt (t : UTable) (k : ℕ) : UInt8 :=
  if h : k / 32 < NUM_USER then
    (if k % 32 < 16 then (t.user ⟨k / 32, h⟩).1 else (t.user ⟨k / 32, h⟩).2).toList.getD (k % 16) 0
  else 0

/-- The bytes of `utable.user`. -/
def bytes (t : UTable) : Str := (List.range userBytes).map t.byteAt

/-- The field at offset `k` of a buffer. -/
def field (buf : Str) (k : ℕ) : Ident := Vector.ofFn fun j => buf.getD (k + j) 0

/-- A cleared table after `buf` was read over `utable.user`. -/
def ofBytes (buf : Str) : UTable :=
  { cleared with user := fun i => (field buf (32 * i), field buf (32 * i + 16)) }

/-- The table of a boot that finds the file, which holds `buf`. -/
def load (buf : Str) : UTable := (ofBytes (buf.take userBytes)).setRoot

/-! ### Reading back what was written -/

theorem bytes_length (t : UTable) : t.bytes.length = userBytes := by simp [bytes]

variable {k : ℕ} {q : Fin NUM_USER → Bool} {t' : UTable}

theorem getD_bytes (t : UTable) (h : k < userBytes) : t.bytes.getD k 0 = t.byteAt k := by
  rw [bytes, List.getD_eq_getElem?_getD, List.getElem?_map, List.getElem?_range h]
  rfl

theorem byteAt_name (t : UTable) (i : Fin NUM_USER) {j : ℕ} (h : j < 16) :
    t.byteAt (32 * i + j) = (t.user i).1.toList.getD j 0 := by
  have hi : (32 * (i : ℕ) + j) / 32 = i := by omega
  have hlt : (32 * (i : ℕ) + j) / 32 < NUM_USER := by rw [hi]; exact i.isLt
  have hs : (⟨(32 * (i : ℕ) + j) / 32, hlt⟩ : Fin NUM_USER) = i := Fin.ext hi
  rw [byteAt, dif_pos hlt, hs, if_pos (by omega)]
  congr 1
  omega

theorem byteAt_password (t : UTable) (i : Fin NUM_USER) {j : ℕ} (h : j < 16) :
    t.byteAt (32 * i + 16 + j) = (t.user i).2.toList.getD j 0 := by
  have hi : (32 * (i : ℕ) + 16 + j) / 32 = i := by omega
  have hlt : (32 * (i : ℕ) + 16 + j) / 32 < NUM_USER := by rw [hi]; exact i.isLt
  have hs : (⟨(32 * (i : ℕ) + 16 + j) / 32, hlt⟩ : Fin NUM_USER) = i := Fin.ext hi
  rw [byteAt, dif_pos hlt, hs, if_neg (by omega)]
  congr 1
  omega

theorem field_eq {buf : Str} {a : Ident}
    (h : ∀ j < 16, buf.getD (k + j) 0 = a.toList.getD j 0) : field buf k = a := by
  apply Vector.ext
  intro j hj
  rw [field, Vector.getElem_ofFn, h j hj]
  simp [hj]

theorem ofBytes_bytes (t : UTable) : ofBytes t.bytes = { t with online := fun _ => false } := by
  rw [ofBytes, cleared]
  congr 1
  funext i
  have hi : (i : ℕ) < 10 := i.isLt
  have hsz : userBytes = 320 := rfl
  apply Prod.ext
  · exact field_eq fun j hj => by rw [getD_bytes _ (by omega), byteAt_name t i hj]
  · exact field_eq fun j hj => by rw [getD_bytes _ (by omega), byteAt_password t i hj]

/-- **A boot reloads the table that was written**, with slot 0 set to
root/0000 and every account offline. -/
theorem load_bytes (t : UTable) (rest : Str) :
    load (t.bytes ++ rest) = { t with online := fun _ => false }.setRoot := by
  rw [load, List.take_append_of_le_length (by rw [bytes_length]), List.take_of_length_le
    (by rw [bytes_length]), ofBytes_bytes]

/-! ### Slots and names -/

variable {t : UTable} {u p : Str} {i j : Fin NUM_USER}

def nameOf (t : UTable) (i : Fin NUM_USER) : Str := (t.user i).1.name

theorem first_some (h : first q = some i) : q i = true :=
  List.find?_some h

theorem first_none (h : first q = none) (i : Fin NUM_USER) : q i = false := by
  simpa using List.find?_eq_none.mp h i (List.mem_finRange i)

theorem nameOf_of_lookup (h : t.lookup u = some i) : t.nameOf i = cname 16 u :=
  sameId_iff.mp (first_some h)

theorem nameOf_ne_of_lookup (h : t.lookup u = none) (i : Fin NUM_USER) :
    t.nameOf i ≠ cname 16 u := by
  intro hi
  have hs : sameId (t.user i).1 u = true := sameId_iff.mpr hi
  rw [first_none h i] at hs
  cases hs

theorem insert_some (h : t.insert u p = some t') : t.lookup u = none ∧
    ∃ i, t.free = some i ∧ t'.user = update t.user i (Ident.ofStr u, Ident.ofStr p) := by
  rw [insert] at h
  split at h
  · cases h
  · rename_i hl
    obtain ⟨i, hi, rfl⟩ := Option.map_eq_some_iff.mp h
    exact ⟨by simpa using hl, i, hi, rfl⟩

theorem remove_some (h : t.remove u = some t') : cname 16 u ≠ root ∧
    ∃ i, t.lookup u = some i ∧ t'.user = update t.user i (noName, noName) := by
  rw [remove] at h
  split at h
  · cases h
  · rename_i hr
    obtain ⟨i, hi, rfl⟩ := Option.map_eq_some_iff.mp h
    exact ⟨fun he => hr ((strncmp_eq_zero 16 u root).mpr he), i, hi, rfl⟩

theorem accountcheck_user (h : t.accountcheck u p = some t') : t'.user = t.user := by
  obtain ⟨i, -, rfl⟩ := Option.map_eq_some_iff.mp h
  rfl

/-- No two distinct slots hold equal non-empty names. -/
def Distinct (t : UTable) : Prop :=
  ∀ i j, i ≠ j → t.nameOf i ≠ [] → t.nameOf i ≠ t.nameOf j

theorem Distinct.congr {t : UTable} (h : t.Distinct) (hn : ∀ i, t'.nameOf i = t.nameOf i) :
    t'.Distinct := by
  intro i j hij
  rw [hn i, hn j]
  exact h i j hij

/-- Giving a slot the empty name or a name no other slot has. -/
theorem Distinct.update (h : t.Distinct) {e : Ident × Ident} (hu : t'.user = update t.user i e)
    (hn : e.1.name = [] ∨ ∀ j, t.nameOf j ≠ e.1.name) : t'.Distinct := by
  have hi : t'.nameOf i = e.1.name := by rw [nameOf, hu, update_self]
  have hne : ∀ j, j ≠ i → t'.nameOf j = t.nameOf j := fun j hj => by
    rw [nameOf, hu, update_of_ne hj, nameOf]
  intro a b hab hna
  by_cases ha : a = i
  · subst ha
    rw [hi] at hna ⊢
    rw [hne b (Ne.symm hab)]
    rcases hn with hn | hn
    · exact absurd hn hna
    · exact (hn b).symm
  · rw [hne a ha] at hna ⊢
    by_cases hb : b = i
    · subst hb
      rw [hi]
      rcases hn with hn | hn
      · rw [hn]; exact hna
      · exact hn a
    · rw [hne b hb]
      exact h a b hab hna

theorem nameOf_setRoot_zero (t : UTable) : t.setRoot.nameOf 0 = root := by
  simp only [nameOf, setRoot, update_self, Ident.name_ofStr]
  rfl

theorem nameOf_setRoot_ne (t : UTable) (h : i ≠ 0) : t.setRoot.nameOf i = t.nameOf i := by
  simp only [nameOf, setRoot, update_of_ne h]

/-- The table a boot loads from a file written when slot 0 was root's has the
same names. -/
theorem nameOf_load_bytes (h0 : t.nameOf 0 = root) (rest : Str) (i : Fin NUM_USER) :
    (load (t.bytes ++ rest)).nameOf i = t.nameOf i := by
  rw [load_bytes]
  by_cases hi : i = 0
  · rw [hi, nameOf_setRoot_zero, h0]
  · rw [nameOf_setRoot_ne _ hi, nameOf, nameOf]

/-- Some slot holds root, and no two slots hold the same name. -/
structure Ok (t : UTable) : Prop where
  root : ∃ i, t.nameOf i = root
  distinct : t.Distinct

end UTable

/-! ### Boots and calls -/

/-- The table and the bytes of the file `useraccount`, once there is one. -/
structure Accounts where
  table : UTable
  file : Option Str

/-- A boot, or a call by a root process. -/
inductive AccountOp where
  | boot
  | addUser (username password : Str)
  | deleteUser (username : Str)
  | accountcheck (id pw : Str)

namespace Accounts

/-- `writei(utable.ip, utable.user[0][0], 0, sizeof(utable.user))`. -/
def store (a : Accounts) (t : UTable) : Accounts :=
  ⟨t, a.file.map fun f => t.bytes ++ f.drop userBytes⟩

def step (a : Accounts) : AccountOp → Accounts
  | .boot =>
    match a.file with
    | none => ⟨UTable.initial, some UTable.initial.bytes⟩
    | some f => ⟨UTable.load f, some f⟩
  | .addUser username password =>
    match a.table.insert username password with
    | none => a
    | some t => a.store t
  | .deleteUser username =>
    match a.table.remove username with
    | none => a
    | some t => a.store t
  | .accountcheck id pw =>
    match a.table.accountcheck id pw with
    | none => a
    | some t => ⟨t, a.file⟩

/-- The first boot of an image without the file. -/
def booted : Accounts := step ⟨UTable.cleared, none⟩ .boot

def run (ops : List AccountOp) : Accounts := ops.foldl step booted

/-- `addUser(username, ..)` would take root's slot: the name is new and the
first slot with `online == 0` is slot 0. -/
def TakesRoot (t : UTable) (username : Str) : Prop :=
  t.lookup username = none ∧ t.free = some 0

/-- What every step keeps while nobody takes slot 0: root is in it, names are
distinct, and they are so in the table the file would load. -/
structure Sound (a : Accounts) : Prop where
  root : a.table.nameOf 0 = root
  distinct : a.table.Distinct
  file : ∃ f, a.file = some f ∧ (UTable.load f).Distinct

variable {a : Accounts}

theorem Sound.ok (h : a.Sound) : a.table.Ok := ⟨⟨0, h.root⟩, h.distinct⟩

/-- A sound table is written to the file. -/
theorem Sound.store (h : a.Sound) {t : UTable} (hr : t.nameOf 0 = Xv6.root)
    (hd : t.Distinct) : (a.store t).Sound := by
  obtain ⟨f, hf, -⟩ := h.file
  refine ⟨hr, hd, _, ?_, hd.congr (UTable.nameOf_load_bytes hr (f.drop userBytes))⟩
  rw [Accounts.store, hf]
  rfl

theorem distinct_initial : UTable.initial.Distinct := by
  intro i j hij hi
  have h0 : ∀ k : Fin NUM_USER, k ≠ 0 → UTable.initial.nameOf k = [] := by decide
  by_cases h : i = 0
  · subst h
    rw [h0 j (Ne.symm hij)]
    exact hi
  · exact absurd (h0 i h) hi

theorem sound_booted : booted.Sound := by
  have hr : UTable.initial.nameOf 0 = root := by decide
  refine ⟨hr, distinct_initial, _, rfl, ?_⟩
  have := UTable.nameOf_load_bytes hr []
  rw [List.append_nil] at this
  exact distinct_initial.congr this

theorem sound_step (h : a.Sound) (op : AccountOp)
    (hop : ∀ u p, op = .addUser u p → ¬ TakesRoot a.table u) : (step a op).Sound := by
  cases op with
  | boot =>
    obtain ⟨f, hf, hd⟩ := h.file
    rw [step, hf]
    exact ⟨UTable.nameOf_setRoot_zero _, hd, f, rfl, hd⟩
  | addUser u p =>
    rw [step]
    cases ht : a.table.insert u p with
    | none => exact h
    | some t =>
      obtain ⟨hl, i, hi, hu⟩ := UTable.insert_some ht
      have hi0 : (0 : Fin NUM_USER) ≠ i := fun h0 => hop u p rfl ⟨hl, h0 ▸ hi⟩
      refine h.store ?_ (h.distinct.update hu (Or.inr fun j => ?_))
      · rw [UTable.nameOf, hu, update_of_ne hi0]
        exact h.root
      · rw [Ident.name_ofStr]
        exact UTable.nameOf_ne_of_lookup hl j
  | deleteUser u =>
    rw [step]
    cases ht : a.table.remove u with
    | none => exact h
    | some t =>
      obtain ⟨hr, i, hi, hu⟩ := UTable.remove_some ht
      have hi0 : (0 : Fin NUM_USER) ≠ i := fun h0 => by
        have := UTable.nameOf_of_lookup hi
        rw [← h0, h.root] at this
        exact hr this.symm
      refine h.store ?_ (h.distinct.update hu (Or.inl (by decide)))
      rw [UTable.nameOf, hu, update_of_ne hi0]
      exact h.root
  | accountcheck u p =>
    rw [step]
    cases ht : a.table.accountcheck u p with
    | none => exact h
    | some t =>
      have hn : ∀ i, t.nameOf i = a.table.nameOf i := fun i => by
        rw [UTable.nameOf, UTable.accountcheck_user ht, UTable.nameOf]
      exact ⟨(hn 0).trans h.root, h.distinct.congr hn, h.file⟩

/-- Taking slot 0 leaves no slot with the name root. -/
theorem not_ok_of_takesRoot (h : a.Sound) {u p : Str} (ht : TakesRoot a.table u) :
    ¬ (step a (.addUser u p)).table.Ok := by
  obtain ⟨hl, hf⟩ := ht
  have hu : cname 16 u ≠ root := fun he => UTable.nameOf_ne_of_lookup hl 0 (by rw [h.root, he])
  have hins : ∃ t, a.table.insert u p = some t := by
    rw [UTable.insert, hl, hf]
    exact ⟨_, rfl⟩
  obtain ⟨t, hins⟩ := hins
  obtain ⟨-, i, hi, htu⟩ := UTable.insert_some hins
  obtain rfl : i = 0 := by rw [hf] at hi; exact (Option.some.inj hi).symm
  rintro ⟨⟨j, hj⟩, -⟩
  rw [step, hins] at hj
  simp only [store, UTable.nameOf, htu] at hj
  by_cases h0 : j = 0
  · subst h0
    rw [update_self, Ident.name_ofStr] at hj
    exact hu hj
  · rw [update_of_ne h0] at hj
    have hr : a.table.nameOf 0 ≠ [] := by rw [h.root]; decide
    exact h.distinct 0 j (Ne.symm h0) hr (h.root.trans hj.symm)

theorem run_take_succ (ops : List AccountOp) (n : ℕ) :
    run (ops.take (n + 1)) = ops[n]?.elim (run (ops.take n)) (step (run (ops.take n))) := by
  rw [run, List.take_add_one, List.foldl_append]
  cases ops[n]? <;> rfl

/-- **When the account table is right.** Along a sequence of boots and calls by
root, every state has a slot for root and distinct names exactly when no
`addUser` of the sequence takes slot 0. -/
theorem tableOk_iff (ops : List AccountOp) : (∀ n, (run (ops.take n)).table.Ok) ↔
    ∀ n u p, ops[n]? = some (.addUser u p) → ¬ TakesRoot (run (ops.take n)).table u := by
  constructor
  · intro hok
    have hgood : ∀ n, (run (ops.take n)).Sound → ∀ u p, ops[n]? = some (.addUser u p) →
        ¬ TakesRoot (run (ops.take n)).table u := by
      intro n hs u p hop ht
      apply not_ok_of_takesRoot (p := p) hs ht
      have := hok (n + 1)
      rw [run_take_succ, hop] at this
      exact this
    have hsound : ∀ n, (run (ops.take n)).Sound := by
      intro n
      induction n with
      | zero => exact sound_booted
      | succ n ih =>
        rw [run_take_succ]
        cases hop : ops[n]? with
        | none => exact ih
        | some op => exact sound_step ih op fun u p he => hgood n ih u p (he ▸ hop)
    exact fun n => hgood n (hsound n)
  · intro hgood n
    have hsound : (run (ops.take n)).Sound := by
      induction n with
      | zero => exact sound_booted
      | succ n ih =>
        rw [run_take_succ]
        cases hop : ops[n]? with
        | none => exact ih
        | some op => exact sound_step ih op fun u p he => hgood n u p (he ▸ hop)
    exact hsound.ok

def alice : Str := [97, 108, 105, 99, 101]

/-- A second boot, and then root adds alice: she takes root's slot. -/
theorem root_overwritten : ¬ (run [.boot, .addUser alice alice]).table.Ok := by
  have hs : (run [.boot]).Sound := sound_step sound_booted .boot fun u p h => by cases h
  have ht : TakesRoot (run [.boot]).table alice := ⟨by decide, by decide⟩
  exact not_ok_of_takesRoot hs ht

end Accounts

end Xv6
