/-
# Making a home directory

`addUser` looks for the name in the root directory without its lock, one entry after the other, and
enters the name later, with the lock held. Meanwhile other processes enter and remove names there:
`create` for `open`, `mkdir` and `mknod`, `link` and `unlink`. What they do while they hold the lock
is one step. The directory is the list of its entries; other directories and the inodes are not
modelled.

No name is ever entered twice (`distinct_next`), because whoever enters a name looks for it first,
with the lock held. But where `link` returns -1 if it finds the name, `addUser` panics. So it must
not happen that somebody enters the name while `addUser` is between its search and `dirlink`
(`mkdir_in_between`).
-/
import Xv6.Account
import Xv6.Fs.Dir
import Xv6.Lib.Machine

namespace Xv6.AddUser

/-- The entries that fit in `MAXFILE` blocks. -/
abbrev MAXENTS : ℕ := MAXFILE * BSIZE / 16

/-- An entry in use with this name. -/
def named (name : Str) (de : Dirent) : Bool := de.inum ≠ 0 ∧ namecmp name de.name = 0

/-- The place of the name. -/
def dirlookup (ents : List Dirent) (name : Str) : Option ℕ := ents.findIdx? (named name)

/-- Where `dirlink` writes: the first unused entry, or the end. -/
def free (ents : List Dirent) : ℕ := ents.findIdx (·.inum = 0)

/-- `writei` of an entry. -/
def put (ents : List Dirent) (off : ℕ) (de : Dirent) : List Dirent :=
  if off < ents.length then ents.set off de else ents ++ [de]

/-- Where a process is in `addUser`. -/
inductive Pc where
  | idle
  /-- In the loop of `dirlookup`, at an entry. -/
  | search (username : Str) (off : ℕ)
  /-- No such name was found; `ilock(dp)` is next. -/
  | make (username : Str)

/-- The name that `addUser` is to enter. -/
def Pc.username : Pc → Option Str
  | .idle => none
  | .search u _ | .make u => some u

structure State (P : Type) where
  /-- The root directory. -/
  ents : List Dirent
  utable : UTable
  pc : P → Pc

inductive Act (P : Type) where
  /-- `addUser` by a process of root, up to the release of `utable.lock`. -/
  | addUser (p : P) (username password : Str)
  /-- A round of the loop of `dirlookup`. -/
  | search (p : P)
  /-- `addUser` with the directory locked, for the inode from `ialloc`. -/
  | make (p : P) (inum : ℕ)
  /-- `create` with the directory locked; the permissions may not allow it. -/
  | create (name : Str) (inum : ℕ) (permitted : Bool)
  /-- `sys_link` with the directory locked. -/
  | link (name : Str) (inum : ℕ)
  /-- `sys_unlink` with the directory locked; the permissions may not allow it, or the name is that
  of a directory that is not empty. -/
  | unlink (name : Str) (permitted : Bool)

section

variable {P : Type} [DecidableEq P]

namespace State

def at_ (s : State P) (p : P) (x : Pc) : State P := { s with pc := Function.update s.pc p x }

/-- `dirlink`; the caller says what follows when it returns -1. -/
def dirlink (s : State P) (name : Str) (inum : ℕ) (fails : Outcome (State P)) : Outcome (State P) :=
  match dirlookup s.ents name with
  | some _ => fails
  | none =>
    if free s.ents < MAXENTS then .next {
      s with ents := put s.ents (free s.ents) ⟨inum, strncpy name 14⟩ }
    else .panic "dirlink"

end State

def step (s : State P) : Act P → Outcome (State P)
  | .addUser p username password =>
    match s.pc p with
    | .idle =>
      match s.utable.insert username password with
      | none => .next s
      | some t => .next { s.at_ p (.search username 0) with utable := t }
    | _ => .blocked
  | .search p =>
    match s.pc p with
    | .search username off =>
      match s.ents[off]? with
      | none => .next (s.at_ p (.make username))
      | some de => .next (s.at_ p (if named username de then .idle else .search username (off + 1)))
    | _ => .blocked
  | .make p inum =>
    match s.pc p with
    | .make username =>
      if inum = 0 then .panic "create: ialloc" else (s.at_ p .idle).dirlink username inum (.panic
        "create: dirlink")
    | _ => .blocked
  | .create name inum permitted =>
    if (dirlookup s.ents name).isSome ∨ permitted = false then .next s
    else if inum = 0 then .panic "create: ialloc"
    else s.dirlink name inum (.panic "create: dirlink")
  | .link name inum => if inum = 0 then .blocked else s.dirlink name inum (.next s)
  | .unlink name permitted =>
    if permitted = false ∨ namecmp name dot = 0 ∨ namecmp name dotdot = 0 then .next s
    else match dirlookup s.ents name with
      | none => .next s
      | some off => .next { s with ents := put s.ents off ⟨0, List.replicate 14 0⟩ }

end

/-! ### Every run -/

/-- No two entries in use have the same name. -/
def Distinct (ents : List Dirent) : Prop :=
  ∀ (i j : ℕ) (de de' : Dirent), ents[i]? = some de → ents[j]? = some de' → de.inum ≠ 0 →
    named de.name de' = true → i = j

/-- The name is not in the first entries. -/
def Absent (ents : List Dirent) (name : Str) (n : ℕ) : Prop :=
  ∀ i < n, ∀ de, ents[i]? = some de → named name de = false

section

variable {ents : List Dirent} {name name' : Str} {off n : ℕ} {de : Dirent}

theorem named_iff : named name de = true ↔ de.inum ≠ 0 ∧ cname 14 name = cname 14 de.name := by
  simp [named, namecmp, strncmp_eq_zero]

theorem named_congr (h : namecmp name name' = 0) : named name de = named name' de := by
  rw [Bool.eq_iff_iff, named_iff, named_iff, (strncmp_eq_zero 14 name name').mp h]

theorem dirlookup_none (h : dirlookup ents name = none) (n : ℕ) : Absent ents name n := fun _ _ de hde =>
  List.findIdx?_eq_none_iff.mp h de (List.mem_of_getElem? hde)

theorem dirlookup_eq_none (h : Absent ents name ents.length) : dirlookup ents name = none := by
  refine List.findIdx?_eq_none_iff.mpr fun de hde => ?_
  obtain ⟨i, hi⟩ := List.mem_iff_getElem?.mp hde
  exact h i (List.getElem?_eq_some_iff.mp hi).1 de hi

theorem dirlookup_lt (h : dirlookup ents name = some off) : off < ents.length :=
  (List.findIdx?_eq_some_iff_getElem.mp h).1

theorem getElem?_put (h : off ≤ ents.length) (i : ℕ) :
    (put ents off de)[i]? = if i = off then some de else ents[i]? := by
  unfold put
  split
  · rename_i hlt
    rw [List.getElem?_set]
    grind
  · have : off = ents.length := by omega
    rw [List.getElem?_append]
    grind

theorem Absent.put (h : Absent ents name n) (hoff : off ≤ ents.length) (hde : named name de = false) :
    Absent (put ents off de) name n := by
  intro i hi de' hde'
  rw [getElem?_put hoff] at hde'
  split at hde'
  · exact Option.some_inj.mp hde' ▸ hde
  · exact h i hi de' hde'

/-- A name that is not there can be entered. -/
theorem Distinct.put (h : Distinct ents) (hoff : off ≤ ents.length)
    (hde : de.inum ≠ 0 → dirlookup ents de.name = none) : Distinct (put ents off de) := by
  intro i j de1 de2 h1 h2 hlive hnamed
  rw [getElem?_put hoff] at h1 h2
  have hsymm : named de2.name de1 = true := by
    rw [named_iff] at hnamed ⊢
    exact ⟨hlive, hnamed.2.symm⟩
  by_cases hi : i = off <;> by_cases hj : j = off
  · rw [hi, hj]
  · rw [if_pos hi] at h1
    rw [if_neg hj] at h2
    obtain rfl := Option.some_inj.mp h1
    rw [dirlookup_none (hde hlive) (j + 1) j (by omega) de2 h2] at hnamed
    cases hnamed
  · rw [if_neg hi] at h1
    rw [if_pos hj] at h2
    obtain rfl := Option.some_inj.mp h2
    rw [dirlookup_none (hde (named_iff.mp hnamed).1) (i + 1) i (by omega) de1 h1] at hsymm
    cases hsymm
  · rw [if_neg hi] at h1
    rw [if_neg hj] at h2
    exact h i j de1 de2 h1 h2 hlive hnamed

theorem free_le (ents : List Dirent) : free ents ≤ ents.length := List.findIdx_le_length

theorem dirlookup_strncpy (ents : List Dirent) (name : Str) :
    dirlookup ents (strncpy name 14) = dirlookup ents name := by
  have : named (strncpy name 14) = named name := by
    funext de
    exact named_congr ((strncmp_eq_zero ..).mpr (cname_strncpy 14 name))
  rw [dirlookup, dirlookup, this]

end

section

variable {P : Type} {s : State P} {a : Act P} {ents : List Dirent}

theorem dirlink_next {s' : State P} {name : Str} {inum : ℕ} {fails : Outcome (State P)}
    (hs : s.dirlink name inum fails = .next s') :
    (dirlookup s.ents name ≠ none ∧ fails = .next s') ∨
    (dirlookup s.ents name = none ∧
      s' = { s with ents := put s.ents (free s.ents) ⟨inum, strncpy name 14⟩ }) := by
  unfold State.dirlink at hs
  split at hs
  · rename_i h
    exact .inl ⟨by simp [h], hs⟩
  · rename_i h
    split at hs <;> cases hs
    exact .inr ⟨h, rfl⟩

/-- The name that a step is to enter. -/
def enters (s : State P) : Act P → Option Str
  | .make p _ =>
    match s.pc p with
    | .make username => some username
    | _ => none
  | .create name _ _ | .link name _ => some name
  | _ => none

/-- What a step can do to the directory. -/
inductive Change (s : State P) (a : Act P) : List Dirent → Prop where
  | same : Change s a s.ents
  | enter (name : Str) (inum : ℕ) (henters : enters s a = some name) (hnone : dirlookup s.ents name = none) :
    Change s a (put s.ents (free s.ents) ⟨inum, strncpy name 14⟩)
  | remove (off : ℕ) (hoff : off < s.ents.length) : Change s a (put s.ents off ⟨0, List.replicate 14 0⟩)

theorem Change.distinct (hc : Change s a ents) (h : Distinct s.ents) : Distinct ents := by
  cases hc with
  | same => exact h
  | enter name inum henters hnone => exact h.put (free_le _) fun _ => (dirlookup_strncpy ..).trans hnone
  | remove off hoff => exact h.put hoff.le fun hne => absurd rfl hne

/-- What a search has passed does not have the name. -/
def Pc.Missed (ents : List Dirent) : Pc → Prop
  | .idle => True
  | .search username off => Absent ents username off
  | .make username => ∀ n, Absent ents username n

theorem Pc.Missed.put {off : ℕ} {de : Dirent} {x : Pc} (h : x.Missed ents)
    (hoff : off ≤ ents.length) (hde : ∀ u, x.username = some u → named u de = false) :
    x.Missed (put ents off de) := by
  cases x with
  | idle => trivial
  | search u n => exact Absent.put h hoff (hde u rfl)
  | make u => exact fun n => (h n).put hoff (hde u rfl)

/-- The process is in `addUser` for this name. -/
def State.Seeks (s : State P) (q : P) (name : Str) : Prop := ∃ u, (s.pc q).username = some u ∧
    namecmp u name = 0

/-- Nobody enters a name that another process is in `addUser` for. -/
def Apart (s : State P) (a : Act P) : Prop :=
  ∀ name, enters s a = some name → dirlookup s.ents name = none → ∀ q, (∀ inum, a ≠ .make q inum) →
    ¬ s.Seeks q name

theorem missed_change {q : P} (hc : Change s a ents) (hg : Apart s a)
    (hq : ∀ inum, a ≠ .make q inum) (h : (s.pc q).Missed s.ents) : (s.pc q).Missed ents := by
  cases hc with
  | same => exact h
  | enter name inum henters hnone =>
    refine h.put (free_le _) fun u hu => ?_
    have hseeks := hg name henters hnone q hq
    simp only [named, decide_eq_false_iff_not]
    rintro ⟨-, hname⟩
    refine hseeks ⟨u, hu, ?_⟩
    rw [namecmp, strncmp_eq_zero] at hname ⊢
    rw [hname, cname_strncpy]
  | remove off hoff => exact h.put hoff.le fun u _ => by simp [named]

end

section

variable {P : Type} [DecidableEq P] {s s' : State P} {a : Act P}

theorem change_next (hs : step s a = .next s') : Change s a s'.ents := by
  cases a with
  | addUser | search =>
    simp only [step] at hs
    split at hs
    · split at hs <;> cases hs <;> exact .same
    · cases hs
  | make p inum =>
    simp only [step] at hs
    split at hs
    · rename_i username hpc
      split at hs
      · cases hs
      · obtain ⟨-, ⟨⟩⟩ | ⟨hnone, rfl⟩ := dirlink_next hs
        exact .enter username inum (by simp [enters, hpc]) hnone
    · cases hs
  | create name inum permitted =>
    simp only [step] at hs
    split at hs
    · cases hs
      exact .same
    · split at hs
      · cases hs
      · obtain ⟨-, ⟨⟩⟩ | ⟨hnone, rfl⟩ := dirlink_next hs
        exact .enter name inum rfl hnone
  | link name inum =>
    simp only [step] at hs
    split at hs
    · cases hs
    · obtain ⟨-, ⟨⟩⟩ | ⟨hnone, rfl⟩ := dirlink_next hs
      · exact .same
      · exact .enter name inum rfl hnone
  | unlink name permitted =>
    simp only [step] at hs
    split at hs
    · cases hs
      exact .same
    · split at hs
      · cases hs
        exact .same
      · rename_i off hoff
        cases hs
        exact .remove off (dirlookup_lt hoff)

/-- Whatever the order of the steps, no name is entered twice. -/
theorem distinct_next (h : Distinct s.ents) (hs : step s a = .next s') : Distinct s'.ents :=
  (change_next hs).distinct h

open State (at_)

theorem pc_next (hs : step s a = .next s') (q : P) :
    s'.pc q = .idle ∨ (s'.pc q = s.pc q ∧ ∀ inum, a ≠ .make q inum) ∨
    (s'.ents = s.ents ∧ ((∃ u, s'.pc q = .search u 0) ∨ ∃ u off, s.pc q = .search u off ∧
      ((s.ents[off]? = none ∧ s'.pc q = .make u) ∨
        ∃ de, s.ents[off]? = some de ∧ named u de = false ∧ s'.pc q = .search u (off + 1)))) := by
  cases a with
  | addUser p username password =>
    simp only [step] at hs
    split at hs
    · split at hs
      · cases hs
        exact .inr (.inl ⟨rfl, nofun⟩)
      · cases hs
        by_cases hq : q = p
        · exact .inr (.inr ⟨rfl, .inl ⟨username, by simp [at_, hq]⟩⟩)
        · exact .inr (.inl ⟨by simp [at_, hq], nofun⟩)
    · cases hs
  | search p =>
    simp only [step] at hs
    split at hs
    · rename_i username off hpc
      by_cases hq : q = p
      · subst hq
        split at hs <;> cases hs
        · rename_i hend
          exact .inr (.inr ⟨rfl, .inr ⟨username, off, hpc, .inl ⟨hend, by simp [at_]⟩⟩⟩)
        · rename_i de hde
          cases hname : named username de with
          | true => exact .inl (by simp [at_])
          | false =>
            exact .inr (.inr ⟨rfl, .inr ⟨username, off, hpc, .inr ⟨de, hde, hname, by simp [at_]⟩⟩⟩)
      · split at hs <;> cases hs <;> exact .inr (.inl ⟨by simp [at_, hq], nofun⟩)
    · cases hs
  | make p inum =>
    simp only [step] at hs
    split at hs
    · split at hs
      · cases hs
      · obtain ⟨-, ⟨⟩⟩ | ⟨-, rfl⟩ := dirlink_next hs
        by_cases hq : q = p
        · exact .inl (by simp [at_, hq])
        · refine .inr (.inl ⟨by simp [at_, hq], ?_⟩)
          rintro inum ⟨⟩
          exact hq rfl
    · cases hs
  | create name inum permitted =>
    simp only [step] at hs
    split at hs
    · cases hs
      exact .inr (.inl ⟨rfl, nofun⟩)
    · split at hs
      · cases hs
      · obtain ⟨-, ⟨⟩⟩ | ⟨-, rfl⟩ := dirlink_next hs
        exact .inr (.inl ⟨rfl, nofun⟩)
  | link name inum =>
    simp only [step] at hs
    split at hs
    · cases hs
    · obtain ⟨-, ⟨⟩⟩ | ⟨-, rfl⟩ := dirlink_next hs <;> exact .inr (.inl ⟨rfl, nofun⟩)
  | unlink name permitted =>
    simp only [step] at hs
    split at hs
    · cases hs
      exact .inr (.inl ⟨rfl, nofun⟩)
    · split at hs <;> cases hs <;> exact .inr (.inl ⟨rfl, nofun⟩)

theorem missed_next (h : ∀ q, (s.pc q).Missed s.ents) (hg : Apart s a) (hs : step s a = .next s')
    (q : P) : (s'.pc q).Missed s'.ents := by
  rcases pc_next hs q with hq | ⟨hq, hne⟩ | ⟨hents,
    ⟨u, hq⟩ | ⟨u, off, hpc, ⟨hend, hq⟩ | ⟨de, hde, hname, hq⟩⟩⟩
  · rw [hq]
    trivial
  · rw [hq]
    exact missed_change (change_next hs) hg hne (h q)
  · rw [hq]
    exact fun i hi => absurd hi (Nat.not_lt_zero i)
  · have hq' := h q
    rw [hpc] at hq'
    rw [hq, hents]
    intro n i hi de hde
    have hlt : i < off := by
      have := (List.getElem?_eq_some_iff.mp hde).1
      have := List.getElem?_eq_none_iff.mp hend
      omega
    exact hq' i hlt de hde
  · have hq' := h q
    rw [hpc] at hq'
    rw [hq, hents]
    intro i hi de' hde'
    by_cases hi' : i = off
    · subst hi'
      rw [hde] at hde'
      exact Option.some_inj.mp hde' ▸ hname
    · exact hq' i (by omega) de' hde'

open Outcome (message)

/-- `create` looks for the name with the lock held, so its `dirlink` succeeds; that of `addUser`
does if no name was missed. -/
theorem no_panic_of_missed (h : ∀ q, (s.pc q).Missed s.ents) (a : Act P) :
    (step s a).message ≠ some "create: dirlink" := by
  have hdirlink : ∀ (t : State P) name inum, dirlookup t.ents name = none →
      (t.dirlink name inum (.panic "create: dirlink")).message ≠ some "create: dirlink" := by
    intro t name inum hnone
    unfold State.dirlink
    rw [hnone]
    dsimp only
    split <;> simp [message]
  cases a with
  | addUser | search =>
    simp only [step]
    split
    · split <;> simp [message]
    · simp [message]
  | make p inum =>
    simp only [step]
    split
    · rename_i username hpc
      split
      · simp [message]
      · have hmissed := h p
        rw [hpc] at hmissed
        exact hdirlink _ _ _ (dirlookup_eq_none (hmissed _))
    · simp [message]
  | create name inum permitted =>
    simp only [step]
    split
    · simp [message]
    · rename_i hor
      push Not at hor
      split
      · simp [message]
      · exact hdirlink _ _ _ (by simpa using hor.1)
  | link name inum =>
    simp only [step]
    split
    · simp [message]
    · unfold State.dirlink
      split
      · simp [message]
      · split <;> simp [message]
  | unlink name permitted =>
    simp only [step]
    split
    · simp [message]
    · split <;> simp [message]

/-- Nobody is in `addUser`. -/
def init (ents : List Dirent) (utable : UTable) : State P := ⟨ents, utable, fun _ => .idle⟩

/-- In every run no name is entered twice. If nobody enters a name that another process is in
`addUser` for, `addUser` does not panic. -/
theorem apart_of_reach {ents : List Dirent} (utable : UTable) (hents : Distinct ents) :
    (∀ s : State P, Machine.Reach step (fun _ _ => True) (init ents utable) s → Distinct s.ents) ∧
    ∀ (s : State P) (a : Act P), Machine.Reach step Apart (init ents utable) s →
      (step s a).message ≠ some "create: dirlink" := by
  refine ⟨fun s h => ?_, fun s a h => ?_⟩
  · exact h.inv (I := fun s => Distinct s.ents) hents fun _ _ _ h _ hs => distinct_next h hs
  · exact no_panic_of_missed (h.inv (I := fun s => ∀ q, (s.pc q).Missed s.ents) (fun _ => trivial)
      fun _ _ _ h hg hs =>
      missed_next h hg hs) a

end

/-- An empty root directory. -/
def bareRoot : List Dirent := [⟨1, strncpy dot 14⟩, ⟨1, strncpy dotdot 14⟩]

theorem distinct_bareRoot : Distinct bareRoot := by
  intro i j de de' hi hj _ hnamed
  obtain ⟨hi', rfl⟩ := List.getElem?_eq_some_iff.mp hi
  obtain ⟨hj', rfl⟩ := List.getElem?_eq_some_iff.mp hj
  have hi2 : i < 2 := hi'
  have hj2 : j < 2 := hj'
  interval_cases i <;> interval_cases j
  · rfl
  · exact absurd hnamed (show ¬ named (strncpy dot 14) ⟨1, strncpy dotdot 14⟩ = true by decide)
  · exact absurd hnamed (show ¬ named (strncpy dotdot 14) ⟨1, strncpy dot 14⟩ = true by decide)
  · rfl

/-- A user is added, and nobody else enters the name. -/
theorem apart_of_reach_bareRoot : ∃ s : State (Fin 1),
    Machine.Reach step Apart (init bareRoot UTable.initial) s ∧ (s.pc 0).username = some [117] ∧
    Distinct s.ents ∧ (step s (.make 0 3)).message ≠ some "create: dirlink" := by
  obtain ⟨s, hs, hs'⟩ := Machine.exists_reach step (fun s a => enters s a = none)
    (init bareRoot UTable.initial : State (Fin 1)) [.addUser 0 [117] [112], .search 0, .search 0,
      .search 0]
    (fun s => (s.pc 0).username) (some [117]) (by decide +kernel)
  obtain ⟨hdistinct, hpanic⟩ := apart_of_reach (P := Fin 1) UTable.initial distinct_bareRoot
  refine ⟨s, hs.mono ?_, hs', hdistinct s (hs.mono fun _ _ _ => trivial), hpanic s _ (hs.mono ?_)⟩ <;>
  · intro s a henters name hname
    rw [henters] at hname
    cases hname

/-- `mkdir` between the search and `dirlink` makes `addUser` panic. -/
theorem mkdir_in_between : ∃ s : State (Fin 1), Machine.Reach step (fun _ _ => True)
    (init bareRoot UTable.initial) s ∧ step s (.make 0 3) = .panic "create: dirlink" := by
  obtain ⟨s, hs, hs'⟩ := Machine.exists_reach step (fun _ _ => True)
    (init bareRoot UTable.initial : State (Fin 1))
    [.addUser 0 [117] [112], .search 0, .search 0, .search 0, .create [117] 2 true]
      (fun s => (step s (.make 0 3)).message)
    (some "create: dirlink") (by decide +kernel)
  exact ⟨s, hs, Outcome.eq_panic hs'⟩

end Xv6.AddUser
