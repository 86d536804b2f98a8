/-
# System calls and transactions

Which system calls keep the discipline of log.c and of the inode locks: as many
`end_op`s as `begin_op`s, never nested, `log_write` only in between, and no
sleep lock held at the return. All of them, but for two return paths
(`balanced_iff`): `usysinit` returns without `end_op` when the directory of
`./useraccount` cannot be reached, and `deleteUser` returns without `iunlock` when
the account file cannot be written.
-/
import Xv6.Fs.Discipline
import Xv6.Blocks

namespace Xv6

open Prog
open Function (update_self update_of_ne)

section

variable {sb : Superblock} {D : Multiset Slot → Multiset Slot → Bool → Fs → Prop}
  {Has : Slot → Multiset Slot → Prop} {c : Origin} {H L : Multiset Slot} {b : Bool} {k : Slot}
  {who : Caller}

/-- How `setupAccounts` leaves the references, the locks and the transaction. Only where it succeeds
does it matter which references it has. -/
def SetupLeaves (D : Multiset Slot → Multiset Slot → Bool → Fs → Prop) (H : Multiset Slot)
    (s : Fs) : Setup → Prop
  | .unreachable => D H 0 true s
  | .unwritten => ∃ H dp, D H (dp ::ₘ 0) false s
  | .unread => ∃ H, D H 0 false s
  | .made ip => D (ip ::ₘ H) 0 true s
  | .read ip _ => D (ip ::ₘ H) 0 true s

/-- The references `findHome` has taken: to the root directory and to what it
found there. -/
def homing (H : Multiset Slot) : Option (Slot × Option (Slot × ℕ)) → Multiset Slot
  | none => H
  | some (dp, found) => taking (dp ::ₘ H) found

namespace Steps

variable (h : Steps sb D Has) {dp ip : Slot}

include h

/-! ### exec -/

theorem loaduvm (offset sz : ℕ) : ∀ fuel i : ℕ, Keeps (D H L true) (loaduvm sb k offset sz fuel i) Any
  | 0, _ => .ret
  | fuel + 1, i => by
    refine .ite (fun _ => .ret) fun _ => (h.readi _ _).bind fun r => ?_
    exact .ite (fun _ => loaduvm offset sz fuel _) fun _ => .ret

theorem loadSegments (mem : ExecMem) :
    ∀ n off sz : ℕ, Keeps (D H L true) (loadSegments sb mem k n off sz) Any
  | 0, _, _ => .ret
  | n + 1, off, sz => by
    refine (h.readi _ _).bind fun r => ?_
    cases r with
    | none => exact .ret
    | some ph =>
      refine .ite (fun _ => .ret) fun _ => .ite (fun _ => loadSegments mem n _ _) fun _ =>
        .ite (fun _ => .ret) fun _ => ?_
      exact (h.loaduvm _ _ _ _).bind fun _ => .ite (fun _ => loadSegments mem n _ _) fun _ => .ret

theorem loadImage (mem : ExecMem) : Keeps (D H L true) (loadImage sb mem k) Any := by
  refine (h.readi _ _).bind fun r => ?_
  cases r with
  | none => exact .ret
  | some elf => exact .ite (fun _ => .ret) fun _ => h.loadSegments mem _ _ _

theorem exec (hcwd : Has who.cwd H) (path : Str) (mem : ExecMem) :
    Keeps (D H L false) (exec sb who path mem) Any := by
  refine h.beginOp.bind fun _ => (h.namei hcwd _).bind fun r => ?_
  match r with
  | none => exact h.ended _
  | some ip =>
    refine h.ilock.bind fun _ => keeps_inode.bind fun _ => .ite (fun _ => h.failed) fun _ => ?_
    refine (h.loadImage mem).bind fun _ => .ite (fun _ => ?_) fun _ => h.failed
    exact h.iunlockput.bind fun _ => h.endOp.bind fun _ => .ret

/-! ### Files and accounts -/

theorem readInOp (off n : ℕ) : Keeps (D H L false) (readInOp sb k off n) Any :=
  h.beginOp.bind fun _ => h.ilock.bind fun _ => (h.readi _ _).bind fun _ => h.iunlock.bind fun _ =>
    h.endOp.bind fun _ => .ret

theorem writeInOp (src : Str) (off : ℕ) : Keeps (D H L false) (writeInOp sb k src off) Any :=
  h.beginOp.bind fun _ => h.ilock.bind fun _ => (h.writei _ _).bind fun _ => h.iunlock.bind fun _ =>
    h.endOp.bind fun _ => .ret

theorem putInOp : Triple (D (k ::ₘ H) L false) (putInOp sb k) (fun _ => D H L false) Any :=
  h.beginOp.bind fun _ => h.iput.bind fun _ => h.endOp

theorem stat : Keeps (D H L b) (do Xv6.ilock sb k; Xv6.iunlock k) Any := h.ilock.bind fun _ => h.iunlock

/-- `openInode` returns its inode locked, in a transaction. -/
theorem openInode (hcwd : Has who.cwd H) (path : Str) (omode : UInt32) :
    Triple (D H L false) (openInode sb who path omode) (fun r => D (taken H r) (taken L r) r.isSome)
    Any := by
  refine h.beginOp.bind fun _ => .ite (fun _ => ?_) fun _ => ?_
  · refine (h.create hcwd _ _ _ _).bind fun r => ?_
    match r with
    | none => exact h.endOp.bind fun _ => .done fun _ h => h
    | some ip => exact .done fun _ h => h
  · refine (h.namei hcwd _).bind fun r => ?_
    match r with
    | none => exact h.endOp.bind fun _ => .done fun _ h => h
    | some ip =>
      refine h.ilock.bind fun _ => keeps_inode.bind fun _ => .ite (fun _ => ?_) fun _ =>
        .done fun _ h => h
      exact h.iunlockput.bind fun _ => h.endOp.bind fun _ => .done fun _ h => h

theorem chdirTo (hcwd : Has who.cwd (who.cwd ::ₘ H)) (path : Str) :
    Triple (D (who.cwd ::ₘ H) L true) (chdirTo sb who path)
    (fun r => D (r.getD who.cwd ::ₘ H) L false) Any := by
  refine (h.namei hcwd _).bind fun r => ?_
  match r with
  | none => exact h.endOp.bind fun _ => .done fun _ h => h
  | some ip =>
    refine h.ilock.bind fun _ => keeps_inode.bind fun _ => .ite (fun _ => ?_) fun _ => ?_
    · exact h.iunlockput.bind fun _ => h.endOp.bind fun _ => .done fun _ h => h
    · rw [taken, Multiset.cons_swap]
      exact h.iunlock.bind fun _ => h.iput.bind fun _ => h.endOp.bind fun _ => .done fun _ h => h

theorem makeAccounts (name : Str) :
    Triple (D (dp ::ₘ H) (dp ::ₘ 0) true) (makeAccounts sb dp name)
    (fun r s => SetupLeaves D H s r) Any := by
  refine keeps_inode.bind fun _ => (h.ialloc _ _).bind fun ip => h.ilock.bind fun _ =>
    (h.modD _).bind fun _ => ?_
  refine h.iupdate.bind fun _ => keeps_inode.bind fun _ => (h.dirlink _ _).bind fun _ => ?_
  refine .ite (fun _ => .stop trivial) fun _ => (h.writei _ _).bind fun r => ?_
  cases r with
  | none => exact h.iunlock.bind fun _ => h.endOp.bind fun _ => .done fun s hs => ⟨_, dp, hs⟩
  | some n =>
    rw [Multiset.cons_swap ip dp, Multiset.cons_swap ip dp]
    refine h.iupdate.bind fun _ => h.iupdate.bind fun _ => h.iunlockput.bind fun _ => ?_
    exact h.iunlock.bind fun _ => .done fun _ h => h

theorem readAccounts (hcwd : Has who.cwd H) :
    Triple (D (ip ::ₘ dp ::ₘ H) (dp ::ₘ 0) true) (readAccounts sb who dp ip)
    (fun r s => SetupLeaves D H s r) Any := by
  rw [Multiset.cons_swap]
  refine h.iunlockput.bind fun _ => h.ilock.bind fun _ => (h.namei (h.has hcwd) _).bind fun r => ?_
  match r with
  | none => exact .stop trivial
  | some ip' =>
    refine (h.readi _ _).bind fun r => ?_
    -- The lock held is that of `ip`, so unlocking another inode is a panic.
    by_cases hip : ip' = ip
    · subst hip
      cases r with
      | none => exact h.iunlock.bind fun _ => h.endOp.bind fun _ => .done fun s hs => ⟨_, hs⟩
      | some buf => exact h.iunlockput.bind fun _ => .done fun _ h => h
    · have hno : ip' ∉ (ip ::ₘ 0 : Multiset Slot) := by simpa using hip
      cases r with
      | none => exact h.held.bind fun _ _ hk => absurd hk hno
      | some buf =>
        refine Triple.bind (Q := fun _ _ => False) ?_ fun _ _ hf => hf.elim
        exact h.held.bind fun _ _ hk => absurd hk hno

theorem setupAccounts (hcwd : Has who.cwd H) :
    Triple (D H 0 true) (setupAccounts sb who) (fun r s => SetupLeaves D H s r) Any := by
  refine (h.namex hcwd pathname true).bind fun r => ?_
  match r with
  | none => exact .done fun _ h => h
  | some (dp, name) =>
    refine h.ilock.bind fun _ => (h.dirlookup _).bind fun r => ?_
    match r with
    | none => exact h.makeAccounts name
    | some (ip, off) => exact h.readAccounts hcwd

theorem makeHome (username : Str) :
    Triple (D (dp ::ₘ H) L true) (makeHome sb dp username) (fun _ => D H L true) Any := by
  refine keeps_inode.bind fun _ => (h.ialloc _ _).bind fun ip => h.ilock.bind fun _ =>
    h.ilock.bind fun _ => ?_
  refine (h.modD _).bind fun _ => h.iupdate.bind fun _ => (h.addNlink _).bind fun _ =>
    keeps_inode.bind fun _ => ?_
  refine (h.linkDots _ _).bind fun _ => (h.dirlink _ _).bind fun _ => .ite (fun _ => .stop trivial)
    fun _ => ?_
  exact h.iupdate.bind fun _ => h.iupdate.bind fun _ => h.iunlockput.bind fun _ => h.iunlockput

theorem findHome (hcwd : Has who.cwd H) (table username : Str) :
    Triple (D H L true) (findHome sb who ip table username) (fun r => D (homing H r) L true) Any := by
  refine h.ilock.bind fun _ => (h.writei _ _).bind fun _ => h.iunlock.bind fun _ =>
    (h.namei hcwd _).bind fun r => ?_
  match r with
  | none => exact .done fun _ h => h
  | some dp => exact (h.dirlookup _).bind fun found => .done fun _ h => h

/-- `addUser` keeps its references if it finds the home directory. -/
theorem homeDone (r : Option (Slot × Option (Slot × ℕ))) (username : Str) : Triple (D (homing H r) L true)
    (homeDone sb username r)
    (fun _ => D (if (r.bind Prod.snd).isSome then homing H r else H) L false) Any := by
  match r with
  | none => exact h.ended _
  | some (dp, none) => exact (h.makeHome _).bind fun _ => h.ended 0
  | some (dp, some found) => exact h.ended 0

theorem deleteUserFs (table : Str) : Triple (D H L true) (deleteUserFs sb ip table)
    (fun r => D H (if r = -1 then ip ::ₘ L else L) false) Any := by
  refine h.ilock.bind fun _ => (h.writei _ _).bind fun r => ?_
  cases r with
  | none => exact h.endOp.bind fun _ => .done fun _ h => h
  | some n => exact h.iunlock.bind fun _ => h.endOp.bind fun _ => .done fun _ h => h

end Steps

end

/-! ### The kernel -/

/-- Some references aside, the caller holds the locks `L` and the record since `t` is
well bracketed. -/
def Locked (t : List Event) (L : Multiset Slot) (b : Bool) (s : Fs) : Prop :=
  ∃ ref name H, Disc ⟨ref, name, t⟩ H L b s

/-- An unused file is not that of an inode. -/
def Kernel.Closed (K : Kernel) : Prop := ∀ f, (K.file f).ref = 0 → (K.file f).type ≠ .inode

structure Held (t : List Event) (L : Multiset Slot) (b : Bool) (K : Kernel) : Prop where
  fs : Locked t L b K.fs
  closed : K.Closed

section

variable {sb : Superblock} {t : List Event} {L : Multiset Slot} {b : Bool} {K : Kernel} {s : Fs}
  {k : Slot} {p : Fin NPROC} {f : Fin NFILE} {α : Type} {x : FsM α} {K' : Kernel}

/-- A reference that is not the caller's, counted as the caller's. -/
theorem Disc.adopt {ref : Slot → ℤ} {name : Slot → ℕ × ℕ} {H : Multiset Slot}
    (h : Disc ⟨ref, name, t⟩ H L b s) (k : Slot) :
    Disc ⟨Function.update ref k (ref k - 1), name, t⟩ (k ::ₘ H) L b s := by
  refine ⟨fun j => ?_, h.nodup, h.trace⟩
  obtain ⟨h1, h2, h3⟩ := h.slot j
  by_cases hj : j = k
  · subst hj
    simp only at h1 h2
    refine ⟨?_, fun hp => h2 ?_, h3⟩
    · simp only [update_self, Multiset.count_cons_self, h1]
      push_cast
      ring
    · simp only [update_self] at hp
      omega
  · refine (SlotDisc.cons_ref hj).mpr ⟨?_, fun hp => h2 ?_, h3⟩
    · simp only [update_of_ne hj]
      exact h1
    · simpa only [update_of_ne hj] using hp

/-! ### Changes of the kernel's own tables -/

theorem held_onFs {L' : α → Multiset Slot} {b' : α → Bool} (h : Held t L b K)
    (hx : ∀ c H, Triple (Disc c H L b) x (fun a s => ∃ H', Disc c H' (L' a) (b' a) s) Any) :
    Sat (onFs x) K (fun a K' => Held t (L' a) (b' a) K' ∧ K'.file = K.file) Any := by
  obtain ⟨⟨ref, name, H, hd⟩, hc⟩ := h
  exact .zoom ((hx _ H _ hd).post fun a s ⟨H', h'⟩ => ⟨⟨⟨ref, name, H', h'⟩, hc⟩, rfl⟩)

/-- One that gives back what it takes. -/
theorem keeps_held (hx : ∀ c H, Keeps (Disc c H L b) x Any) : Keeps (Held t L b) (onFs x) Any :=
  fun _ h => (held_onFs h fun c H => (hx c H).post fun _ _ h' => ⟨H, h'⟩).post fun _ _ h' => h'.1

/-- One that gives back a reference of somebody else. -/
theorem held_puts {L' : Multiset Slot} {b' : Bool} (k : Slot)
    (hx : ∀ c H, Triple (Disc c (k ::ₘ H) L b) x (fun _ => Disc c H L' b') Any) :
    Triple (Held t L b) (onFs x) (fun _ => Held t L' b') Any := fun K h => by
  obtain ⟨⟨ref, name, H, hd⟩, hc⟩ := h
  exact .zoom ((hx _ H _ (hd.adopt k)).post fun _ s h' => ⟨⟨_, name, H, h'⟩, hc⟩)

theorem held_modProc (g : Proc → Proc) : Keeps (Held t L b) (modProc p g) Any :=
  fun _ h => .modify ⟨h.fs, h.closed⟩

theorem held_modFile (h : Held t L b K) {g : File → File}
    (hg : (g (K.file f)).ref = 0 → (g (K.file f)).type ≠ .inode) :
    Sat (modFile f g) K (fun _ K' => Held t L b K' ∧ K'.file f = g (K.file f)) Any := by
  refine .modify ⟨⟨h.fs, fun j => ?_⟩, update_self ..⟩
  by_cases hj : j = f
  · subst hj
    simpa only [update_self] using hg
  · simpa only [update_of_ne hj] using h.closed j

theorem held_filealloc (h : Held t L b K) :
    Sat filealloc K (fun r K' => Held t L b K' ∧ ∀ f, r = some f →
      (K'.file f).ref = 1 ∧ (K'.file f).type ≠ .inode) Any := by
  rw [filealloc]
  refine .get_bind ?_
  split
  · exact .pure ⟨h, fun f hf => by cases hf⟩
  · rename_i f hf
    have h0 : (K.file f).ref = 0 := by simpa using List.find?_some hf
    refine .bind (held_modFile h fun h1 => by cases h1) fun _ K1 h1 => .pure ⟨h1.1, fun g hg => ?_⟩
    obtain rfl : f = g := Option.some.inj hg
    rw [h1.2]
    exact ⟨rfl, h.closed f h0⟩

theorem held_fdalloc (h : Held t L b K) :
    Sat (fdalloc p f) K (fun _ K' => Held t L b K' ∧ K'.file = K.file) Any := by
  rw [fdalloc]
  refine .get_bind ?_
  split
  · exact .pure ⟨h, rfl⟩
  · exact .modify_bind (.pure ⟨⟨h.fs, h.closed⟩, rfl⟩)

theorem held_fileclose (h : Held t L b K) (hb : (K.file f).type = .inode → b = false) :
    Sat (fileclose sb f) K (fun _ => Held t L b) Any := by
  refine .get_bind (.ite (fun _ => .stop trivial) fun _ => .ite (fun hr => ?_) fun _ => ?_)
  · exact (held_modFile h fun h0 => by simp only at h0; omega).post fun _ _ h1 => h1.1
  · refine .bind (held_modFile h fun _ => by simp) fun _ K1 h1 => .when (fun hi => ?_) fun _ => h1.1
    obtain rfl := hb hi
    exact ((keeps_deref fun _ _ => trivial) _).bind (fun ip => held_puts ip fun _ _ =>
      (disc_steps sb).putInOp) _ h1.1

theorem held_filedup : Keeps (Held t L b) (filedup f) Any := fun K h => by
  refine .get_bind (.ite (fun _ => .stop trivial) fun hr => ?_)
  exact (held_modFile h fun h0 => by simp only at h0; omega).post fun _ _ h1 => h1.1

theorem held_setOff (n : ℕ) :
    Keeps (Held t L b) (modFile f fun x => { x with off := (x.off + n) % 2 ^ 32 }) Any :=
  fun _ h => (held_modFile h (h.closed f)).post fun _ _ h1 => h1.1

theorem held_piped {w : Bool} : Keeps (Held t L b) (modFile f (piped w)) Any := fun _ h =>
  (held_modFile h fun _ => by simp [piped]).post fun _ _ h1 => h1.1

theorem held_calls (sb : Superblock) : FileCalls sb (Held t L false) Any where
  stops := fun _ _ => trivial
  modProc := fun _ => held_modProc _
  setOff := fun _ => held_setOff
  filedup := fun _ => held_filedup
  fileclose := fun _ _ h => held_fileclose h fun _ => rfl
  readInOp := fun _ _ _ => keeps_held fun _ _ => (disc_steps sb).readInOp _ _
  filewrite := fun _ => keeps_filewrite (fun _ _ => trivial) held_setOff
    fun _ _ _ => keeps_held fun _ _ => (disc_steps sb).writeInOp _ _
  stat := fun _ => keeps_held fun _ _ => (disc_steps sb).stat
  pipealloc := keeps_pipealloc (fun _ h => (held_filealloc h).post fun _ _ h' => h'.1)
    (fun _ _ => held_piped)
    fun _ _ h => held_fileclose h fun _ => rfl

/-- A call on names that keeps the locks. -/
theorem held_asCaller {x : Caller → FsM ℤ} (hx : ∀ who c H, Keeps (Disc c H 0 false) (x who) Any) :
    Keeps (Held t 0 false) (asCaller p x) Any :=
  (keeps_caller fun _ _ => trivial).bind fun who => keeps_held (hx who)

/-! ### Calls on files -/

theorem held_failed {ip : Slot} : Triple (Held t (ip ::ₘ 0) true) (onFs (failed sb ip))
    (fun _ => Held t 0 false) Any :=
  held_puts ip fun _ _ => (disc_steps sb).failed

theorem held_sysOpen (path : Option Str) (omode : Option UInt32) :
    Keeps (Held t 0 false) (sysOpen sb p path omode) Any := by
  match path, omode with
  | none, _ => exact .ret
  | some _, none => exact .ret
  | some path, some omode =>
    refine (keeps_caller fun _ _ => trivial).bind fun who K h => ?_
    refine .bind (Q := fun r K' => Held t (taken 0 r) r.isSome K' ∧ K'.file = K.file)
      (held_onFs h fun c H =>
      ((disc_steps sb).openInode trivial path omode).post fun r _ h' => ⟨taken H r, h'⟩) fun r K1 h1 => ?_
    match r with
    | none => exact .pure h1.1
    | some ip =>
      refine (held_filealloc h1.1).bind fun f K2 h2 => ?_
      cases f with
      | none => exact held_failed _ h2.1
      | some f =>
        refine (held_fdalloc h2.1).bind fun fd K3 h3 => ?_
        have hf := h2.2 f rfl
        rw [← h3.2] at hf
        cases fd with
        | none =>
          exact (held_fileclose h3.1 fun hi => absurd hi hf.2).bind fun _ K4 h4 => held_failed _ h4
        | some fd =>
          have hend : ∀ c H, Triple (Disc c H (ip ::ₘ 0) true) (do iunlock ip; endOp)
            (fun _ => Disc c H 0 false) Any :=
            fun _ _ => (disc_steps sb).iunlock.bind fun _ => disc_endOp
          refine .bind (Q := fun _ K' => Held t 0 false K' ∧ K'.file = K3.file) (held_onFs h3.1 fun c H =>
            (hend c H).post fun _ _ h' => ⟨H, h'⟩) fun _ K4 h4 => ?_
          refine .bind (held_modFile h4.1 fun h0 => ?_) fun _ K5 h5 => .pure h5.1
          rw [h4.2] at h0
          exact absurd (hf.1.symm.trans h0) (by decide)

theorem held_sysChdir (path : Option Str) : Keeps (Held t 0 false) (sysChdir sb p path) Any := by
  refine (keeps_caller fun _ _ => trivial).bind fun who => ?_
  refine Triple.bind (Q := fun _ => Held t 0 true) (fun K h => (held_onFs h fun c H =>
    disc_beginOp.post fun _ _ h' => ⟨H, h'⟩).post fun _ _ h' => h'.1) fun _ K h => ?_
  cases path with
  | none =>
    exact (held_onFs h fun c H => ((disc_steps sb).ended _).post fun _ _ h' => ⟨H, h'⟩).post
      fun _ _ h' => h'.1
  | some path =>
    obtain ⟨⟨ref, name, H, hd⟩, hc⟩ := h
    refine .bind (Q := fun _ => Held t 0 false)
      (.zoom (((disc_steps sb).chdirTo trivial path _ (hd.adopt who.cwd)).post
      fun r s h' => ⟨⟨_, name, _, h'⟩, hc⟩)) fun r K2 h2 => ?_
    cases r with
    | none => exact .pure h2
    | some ip => exact (held_modProc _).bind (fun _ => .ret) _ h2

/-! ### Calls on processes -/

theorem held_allocproc (kstack : Bool) : Keeps (Held t L b) (allocproc kstack) Any := by
  refine Keeps.get.bind fun K => ?_
  split
  · exact .ret
  · refine Triple.bind (Q := fun _ => Held t L b) ?_ fun _ => (held_modProc _).bind fun _ => .ret
    exact Triple.modify fun _ h => ⟨h.fs, h.closed⟩

theorem held_forkAs (id : Str) (mem : ForkMem) : Keeps (Held t L false) (forkAs p id mem) Any := by
  refine (held_allocproc _).bind fun r => ?_
  cases r with
  | none => exact .ret
  | some np =>
    refine .ite (fun _ => (held_modProc _).bind fun _ => .ret) fun _ => ?_
    refine (held_modProc _).bind fun _ =>
      (keeps_dupFiles (fun _ => held_filedup) (fun _ _ => held_modProc _) _).bind fun _ =>
        Keeps.get.bind fun _ => ?_
    refine ((keeps_deref fun _ _ => trivial) _).bind fun cwd => ?_
    refine Triple.bind (Q := fun _ => Held t L false) (fun K h => ?_) fun _ => ?_
    · exact (held_onFs h fun c H => disc_idup.post fun _ _ h' => ⟨_, h'.2⟩).post
        fun _ _ h' => h'.1
    · exact (held_modProc _).bind fun _ => Keeps.get.bind fun _ => .ret

theorem held_exit : Keeps (Held t L false) (exit sb p) Any := by
  refine .ite (fun _ => .stop trivial) fun _ => ?_
  refine Triple.bind (Q := fun _ => Held t L false) (.modify fun _ h => ⟨h.fs, h.closed⟩) fun _ => ?_
  refine ((held_calls sb).closeFiles _).bind fun _ => Keeps.get.bind fun _ =>
    ((keeps_deref fun _ _ => trivial) _).bind fun cwd => ?_
  refine (held_puts cwd fun _ _ => (disc_steps sb).putInOp).bind fun _ =>
    (held_modProc _).bind fun _ => ?_
  refine Triple.bind (Q := fun _ => Held t L false) (.modify fun _ h => ⟨h.fs, h.closed⟩) fun _ => ?_
  exact (held_modProc _).bind fun _ => .ret

theorem held_wait : Keeps (Held t L b) (wait p) Any := by
  refine Keeps.get.bind fun K => ?_
  split
  · exact (held_modProc _).bind fun _ => .ret
  · exact .ite (fun _ => .ret) fun _ => .stop trivial

theorem held_accountcheck (id pw : Str) : Keeps (Held t L b) (accountcheck id pw) Any := fun K h => by
  rw [accountcheck]
  refine .get_bind ?_
  split
  · exact .pure h
  · exact .modify_bind (.pure ⟨h.fs, h.closed⟩)

/-! ### Every call -/

/-- Between `K` and `K'` the log calls are well bracketed, and no inode is locked at
the end. -/
def Balanced (K K' : Kernel) : Prop :=
  (∃ w, K'.fs.trace = K.fs.trace ++ w ∧ bracket false w = some false) ∧ K'.fs.Unlocked

/-- What `ilock` makes of an entry's copy of the inode. -/
def Fs.loaded (sb : Superblock) (s : Fs) (k : Slot) : Dinode :=
  if (s.icache k).valid then (s.icache k).d else (dinodeAt sb s.disk (s.icache k).inum).copyId

/-- The calls that leave the transaction open or an inode locked: `usysinit` if
`nameiparent` does not find the directory of the account file, and `deleteUser` if the
account file is a device that nothing drives. -/
def Broken (sb : Superblock) (p : Fin NPROC) : Call → Kernel → Prop
  | .usysinit, K => accountsDir sb p K = none
  | .deleteUser (some username), K => isRoot (K.proc p).id ∧ (K.utable.remove username).isSome ∧
      ∃ ip, K.utableIp = some ip ∧ (K.fs.loaded sb ip).type = T_DEV ∧
        !hasDriver (K.fs.loaded sb ip).major
  | _, _ => False

theorem held_origin (hc : K.Closed) (hu : K.fs.Unlocked) : Held K.fs.trace 0 false K :=
  ⟨⟨_, _, 0, disc_origin hu⟩, hc⟩

theorem balanced_of_held (h : Held K.fs.trace 0 false K') : Balanced K K' := by
  obtain ⟨ref, name, H, hd⟩ := h.fs
  exact ⟨hd.trace, fun k => by simp [(hd.slot k).lock]⟩

theorem not_balanced_of_open (h : Locked K.fs.trace L true K'.fs) : ¬Balanced K K' := by
  rintro ⟨⟨w, hw, hb⟩, -⟩
  obtain ⟨ref, name, H, hd⟩ := h
  obtain ⟨w', hw', hb'⟩ := hd.trace
  obtain rfl : w = w' := List.append_cancel_left (hw.symm.trans hw')
  rw [hb] at hb'
  cases hb'

theorem not_balanced_of_lock (h : Locked K.fs.trace (k ::ₘ L) b K'.fs) : ¬Balanced K K' := by
  rintro ⟨-, hu⟩
  obtain ⟨ref, name, H, hd⟩ := h
  have hk := (hd.slot k).lock
  rw [hu k] at hk
  simp at hk

theorem held_accountsReady (h : Held t 0 true K) (ip : Slot) (table : UTable) :
    Sat (accountsReady ip table) K (fun _ => Held t 0 false) Any := by
  obtain ⟨⟨ref, name, H, hd⟩, hc⟩ := h
  refine .modify_bind (.bind (Q := fun _ => Held t 0 false) (.zoom ?_) fun _ K1 h1 => .pure h1)
  exact (disc_endOp _ hd).post fun _ s h1 => ⟨⟨ref, name, H, h1⟩, hc⟩

/-- In a sound state `usysinit` reaches `end_op` if it finds the directory of the account file. -/
theorem reached_usysinit (hI : Intact sb K) {cwd : Slot} (hcwd : (K.proc p).cwd = some cwd) :
    Sat (do beginOp; setupAccounts sb ⟨(K.proc p).id, cwd⟩ : FsM Setup) K.fs
      (fun r _ => if accountsDir sb p K = none then r = .unreachable else r.Reached) Any := by
  obtain ⟨A, h⟩ := hI.start ∅ Set.univ
  obtain ⟨q, hq⟩ := h.cwd_mem hcwd
  refine .bind (ok_beginOp h.fs).run.returns fun _ s1 ⟨h1, hrun1⟩ => ?_
  refine (ok_setupAccounts h1 hq fun _ _ _ _ _ => Set.mem_univ _).returns.post fun r s2 ⟨_, x, s3,
    hrun3, hr⟩ => ?_
  have hrun : (do beginOp; nameiparent sb ⟨(K.proc p).id, cwd⟩ pathname : FsM (Option (Slot × Str)))
    K.fs =
      .ok (x, s3) := (bind_run hrun1).trans hrun3
  cases x with
  | none | some => simpa [accountsDir, hcwd, hrun, Except.toOption] using hr

theorem balanced_usysinit (hI : Intact sb K) (hc : K.Closed) (hu : K.fs.Unlocked) :
    Sat (usysinit sb p) K (fun _ K' => K'.Closed ∧ (Balanced K K' ↔ ¬Broken sb p .usysinit K))
      Any := by
  refine .modify_bind (caller_bind trivial fun cwd hcwd => ?_)
  have hfs : Sat (do beginOp; setupAccounts sb ⟨(K.proc p).id, cwd⟩ : FsM Setup) K.fs
      (fun r s => SetupLeaves (Disc K.fs.origin) 0 s r) Any :=
    (disc_beginOp.bind fun _ => (disc_steps sb).setupAccounts trivial) _ (disc_origin hu)
  refine .bind (Q := fun r K' => SetupLeaves (Disc K.fs.origin) 0 K'.fs r ∧ K'.Closed ∧
    if accountsDir sb p K = none then r = .unreachable else r.Reached)
    (.zoom ((hfs.and (reached_usysinit hI hcwd)).post fun r s hr => ⟨hr.1, hc, hr.2⟩)) ?_
  intro r K1 ⟨h1, hc1, hr⟩
  by_cases hdir : accountsDir sb p K = none
  · rw [if_pos hdir] at hr
    subst hr
    exact .pure ⟨hc1, iff_of_false (not_balanced_of_open ⟨_, _, _, h1⟩) (not_not.mpr hdir)⟩
  · rw [if_neg hdir] at hr
    have of_held : ∀ {K'}, Held K.fs.trace 0 false K' → K'.Closed ∧
      (Balanced K K' ↔ ¬Broken sb p .usysinit K) :=
      fun h' => ⟨h'.closed, iff_of_true (balanced_of_held h') hdir⟩
    match r with
    | .unreachable => exact hr.elim
    | .unwritten => exact hr.elim
    | .unread =>
      obtain ⟨H, hd⟩ := h1
      exact .pure (of_held ⟨⟨_, _, H, hd⟩, hc1⟩)
    | .made ip => exact (held_accountsReady ⟨⟨_, _, _, h1⟩, hc1⟩ _ _).post fun _ _ => of_held
    | .read ip buf => exact (held_accountsReady ⟨⟨_, _, _, h1⟩, hc1⟩ _ _).post fun _ _ => of_held

theorem ilock_loaded : Sat (ilock sb k) s (fun _ s' => (s'.icache k).d = s.loaded sb k) Any := by
  refine .get_bind (.ite (fun _ => .stop trivial) fun _ => ?_)
  have hlock : Sat (acquiresleep k) s (fun _ s' =>
      s' = s.setInode k { s.icache k with lock := true }) Any :=
    .get_bind (.ite (fun _ => .stop trivial) fun _ => .modify rfl)
  refine hlock.bind fun _ s1 h1 => .ite (fun hv => .pure ?_) fun hv => .get_bind ?_
  · rw [h1, Fs.setInode_self, Fs.loaded, if_pos hv]
  · refine .modify_bind (.ite (fun _ => .stop trivial) fun _ => .pure ?_)
    rw [Fs.setInode_self, Fs.loaded, if_neg hv, h1, Fs.setInode_disk, dinodeAt]

theorem deleteUserFs_fails (table : UTable) : Sat (deleteUserFs sb k table.bytes) s
    (fun r _ => r = -1 ↔ (s.loaded sb k).type = T_DEV ∧ !hasDriver (s.loaded sb k).major)
      Any := by
  refine ilock_loaded.bind fun _ s1 h1 => (writei_table table).bind fun r s2 h2 => ?_
  rw [← h1, ← h2]
  cases r with
  | none => exact Sat.any.bind fun _ _ _ => .pure (by simp)
  | some n => exact Sat.any.bind fun _ _ _ => Sat.any.bind fun _ _ _ => .pure (by simp)

theorem loaded_beginOp : Sat beginOp s (fun _ s' => s'.loaded sb = s.loaded sb) Any :=
  .get_bind (.ite (fun _ => .stop trivial) fun _ => .modify rfl)

theorem balanced_deleteUser (hc : K.Closed) (hu : K.fs.Unlocked) (username : Str) :
    Sat (deleteUser sb p username) K (fun _ K' => K'.Closed ∧
      (Balanced K K' ↔ ¬Broken sb p (.deleteUser (some username)) K)) Any := by
  have hsame : Balanced K K := balanced_of_held (held_origin hc hu)
  rw [deleteUser]
  refine .get_bind (.ite (fun hr => ?_) fun hr => ?_)
  · refine .pure ⟨hc, iff_of_true hsame fun hb => ?_⟩
    simp [hb.1] at hr
  · rw [Bool.not_eq_true, Bool.not_eq_false'] at hr
    split
    · rename_i hrem
      refine .pure ⟨hc, iff_of_true hsame fun hb => ?_⟩
      simpa [hrem] using hb.2.1
    · rename_i table hrem
      refine .modify_bind (.bind (Q := fun _ K' => Disc K.fs.origin 0 0 true K'.fs ∧ K'.Closed ∧
        K'.fs.loaded sb = K.fs.loaded sb) (.zoom ?_) fun _ K1 h1 => ?_)
      · exact ((disc_beginOp _ (disc_origin hu)).and loaded_beginOp).post fun _ s hs => ⟨hs.1, hc, hs.2⟩
      · obtain ⟨hd1, hc1, hl1⟩ := h1
        cases hip : K.utableIp with
        | none => exact .stop trivial
        | some ip =>
          have hbroken : Broken sb p (.deleteUser (some username)) K ↔
              (K.fs.loaded sb ip).type = T_DEV ∧ !hasDriver (K.fs.loaded sb ip).major := by
            simp [Broken, hr, hrem, hip]
          refine .zoom ((((disc_steps sb).deleteUserFs _ _ hd1).and (deleteUserFs_fails table)).post
            fun r s hs => ⟨hc1, ?_⟩)
          obtain ⟨hd2, hfail⟩ := hs
          rw [hl1, ← hbroken] at hfail
          rw [← hfail]
          by_cases hm : r = -1
          · rw [if_pos hm] at hd2
            exact iff_of_false (not_balanced_of_lock ⟨_, _, 0, hd2⟩) (not_not.mpr hm)
          · rw [if_neg hm] at hd2
            exact iff_of_true (balanced_of_held ⟨⟨_, _, 0, hd2⟩, hc1⟩) hm

theorem held_addUser (h : Held t 0 false K) (username password : Str) :
    Sat (addUser sb p username password) K (fun _ => Held t 0 false) Any := by
  rw [addUser]
  refine .get_bind (.ite (fun _ => .pure h) fun _ => ?_)
  split
  · exact .pure h
  · obtain ⟨⟨ref, name, H, hd⟩, hc⟩ := h
    refine .modify_bind (caller_bind trivial fun cwd _ => ?_)
    refine .bind (Q := fun _ K' => Disc ⟨ref, name, t⟩ H 0 true K'.fs ∧ K'.Closed)
      (.zoom ((disc_beginOp _ hd).post fun _ s hs => ⟨hs, hc⟩)) fun _ K1 h1 => ?_
    cases K.utableIp with
    | none => exact .stop trivial
    | some ip =>
      refine .zoom (((disc_steps sb).findHome trivial _ _ _ h1.1).bind fun r s hs => ?_)
      exact ((disc_steps sb).homeDone r username _ hs).post fun _ s' hs' => ⟨⟨ref, name, _, hs'⟩, h1.2⟩

theorem held_chmod (path : Str) (mode : UInt32) :
    Keeps (Held t 0 false) (asCaller p fun c => chmod sb c path mode) Any := by
  refine (keeps_caller fun _ _ => trivial).bind fun who K h => (held_onFs h fun c H => ?_).post
    fun _ _ h' => h'.1
  refine disc_beginOp.bind fun _ => ((disc_steps sb).namei trivial path).bind fun r => ?_
  cases r with
  | none => exact ((disc_steps sb).ended _).post fun _ _ h' => ⟨H, h'⟩
  | some ip => exact ((disc_steps sb).chmodInode mode).post fun _ _ h' => ⟨_, h'⟩

/-- **Every call but the broken ones keeps the discipline.** From a state in which no
inode is locked, a call that returns has made as many `end_op`s as `begin_op`s, not
nested, has called `log_write` only in between, and holds no inode lock, exactly if it
is not one of the two in `Broken`. Only of `usysinit` this needs a sound file system, in which
a file just made can be written. -/
theorem balanced_iff {call : Call} {r : ℤ} {K' : Kernel} (hc : K.Closed) (hu : K.fs.Unlocked)
    (hI : call = .usysinit → Intact sb K) (hrun : syscall sb p call K = .ok (r, K')) :
    K'.Closed ∧ (Balanced K K' ↔ ¬Broken sb p call K) := by
  have h := held_origin hc hu
  have of_held : ∀ {x : KM ℤ}, Keeps (Held K.fs.trace 0 false) x Any → x K = .ok (r, K') →
    ¬Broken sb p call K →
      K'.Closed ∧ (Balanced K K' ↔ ¬Broken sb p call K) := fun hx hrun hb =>
    have h' := (hx K h).of_ok hrun
    ⟨h'.closed, iff_of_true (balanced_of_held h') hb⟩
  match call with
  | .fork mem => exact of_held (Keeps.get.bind fun _ => held_forkAs _ mem) hrun id
  | .fork2 none mem => exact of_held .ret hrun id
  | .fork2 (some username) mem => exact of_held (held_forkAs _ mem) hrun id
  | .exit => exact of_held held_exit hrun id
  | .wait => exact of_held held_wait hrun id
  | .pipe ptr kalloc => exact of_held ((held_calls sb).sysPipe ptr kalloc) hrun id
  | .read fd n ptr piperead => exact of_held ((held_calls sb).sysRead fd n ptr piperead) hrun id
  | .write fd src pipewrite => exact of_held ((held_calls sb).sysWrite fd src pipewrite) hrun id
  | .kill pid => exact of_held ((held_calls sb).kill pid) hrun id
  | .exec (some path) mem =>
    exact of_held (held_asCaller fun _ _ _ => (disc_steps sb).exec trivial path mem) hrun id
  | .exec none mem => exact of_held .ret hrun id
  | .fstat fd ptr => exact of_held ((held_calls sb).sysFstat fd ptr) hrun id
  | .chdir path => exact of_held (held_sysChdir path) hrun id
  | .dup fd => exact of_held ((held_calls sb).sysDup fd) hrun id
  | .open path omode => exact of_held (held_sysOpen path omode) hrun id
  | .mknod path major minor =>
    exact of_held (held_asCaller fun _ _ _ => (disc_steps sb).sysMknod trivial path major minor) hrun id
  | .unlink path =>
    exact of_held (held_asCaller fun _ _ _ => (disc_steps sb).sysUnlink trivial path) hrun id
  | .link old new =>
    exact of_held (held_asCaller fun _ _ _ => (disc_steps sb).sysLink trivial old new) hrun id
  | .mkdir path =>
    exact of_held (held_asCaller fun _ _ _ => (disc_steps sb).sysMkdir trivial path) hrun id
  | .close fd => exact of_held ((held_calls sb).sysClose fd) hrun id
  | .usysinit => exact (balanced_usysinit (hI rfl) hc hu).of_ok hrun
  | .addUser (some username) (some password) =>
    exact of_held (fun _ h => held_addUser h username password) hrun id
  | .addUser none _ => exact of_held .ret hrun id
  | .addUser (some _) none => exact of_held .ret hrun id
  | .deleteUser (some username) => exact (balanced_deleteUser hc hu username).of_ok hrun
  | .deleteUser none => exact of_held .ret hrun id
  | .accountcheck (some id') (some pw) => exact of_held (held_accountcheck id' pw) hrun id
  | .accountcheck none _ => exact of_held .ret hrun id
  | .accountcheck (some _) none => exact of_held .ret hrun id
  | .chmod (some path) (some mode) => exact of_held (held_chmod path mode) hrun id
  | .chmod none _ => exact of_held .ret hrun id
  | .chmod (some _) none => exact of_held .ret hrun id
  | .plain call r => exact of_held .ret hrun id

end

theorem boot_closed (disk : Disk) (tty : List (Option Str)) : (boot disk tty).Closed :=
  fun _ _ => by simp [boot, File.zero]

theorem boot_unlocked (disk : Disk) (tty : List (Option Str)) : (boot disk tty).fs.Unlocked := by
  intro k
  by_cases hk : k = 0
  · subst hk
    rfl
  · simp [boot, update_of_ne hk, Inode.zero]

def slash : Str := [47]

set_option maxRecDepth 100000 in
/-- The first `usysinit` makes the account file in the root directory. -/
theorem balanced_iff_usysinit : ∃ r K', syscall smallSb 0 .usysinit (boot (bareDisk 61) []) =
    .ok (r, K') ∧ Balanced (boot (bareDisk 61) []) K' := by
  have hrun : (syscall smallSb 0 .usysinit (boot (bareDisk 61) [])).toBool = true ∧
      accountsDir smallSb 0 (boot (bareDisk 61) []) = some ROOTINO := by
    decide +kernel
  rcases h : syscall smallSb 0 .usysinit (boot (bareDisk 61) []) with e | ⟨r, K'⟩
  · rw [h] at hrun
    cases hrun.1
  · refine ⟨r, K', rfl, (balanced_iff (boot_closed _ _) (boot_unlocked _ _)
      (fun _ => intact_boot fsck_bareDisk.image.diskOk []) h).2.mpr fun hb => ?_⟩
    rw [Broken, hrun.2] at hb
    cases hb

set_option maxRecDepth 100000 in
/-- Root takes the search permission of "/" away; `usysinit` then returns in the middle of
its transaction. -/
theorem usysinit_unbalanced : ∃ log K, Reach smallSb (boot (bareDisk 61) []) log K ∧
    log.map Turn.move = [⟨0, .chmod (some slash) (some 0)⟩, ⟨0, .usysinit⟩] ∧
    ∃ t ∈ log, ¬Balanced t.before t.after := by
  have hrun : (play smallSb (boot (bareDisk 61) [])
      [⟨0, .chmod (some slash) (some 0)⟩, ⟨0, .usysinit⟩]).map (fun x => x.1.any fun t =>
        decide (t.after.fs.trace = t.before.fs.trace ++ [.beginOp])) = some true := by
    decide +kernel
  obtain ⟨log, K, hr, hms, hopen⟩ := exists_reach hrun
  obtain ⟨t, ht, htrace⟩ := List.any_eq_true.mp hopen
  refine ⟨log, K, hr, hms, t, ht, ?_⟩
  rintro ⟨⟨w, hw, hb⟩, -⟩
  obtain rfl : w = [.beginOp] := List.append_cancel_left (hw.symm.trans (of_decide_eq_true htrace))
  cases hb

end Xv6
