/-
# Directories and paths keep the file system sound

The functions of fs.c on directories, and the calls of sysfile.c on names, take a sound file system
to a sound one. A directory entry names an inode of the disk, so `iget` is only asked for those; a
new entry is written where an entry begins.

Who may write a directory is in the start `c` of the call: `Allows` says that the directories which
grant the caller write permission are among them. The calls that check the permission then need no
more (`ok_sysUnlink`, `ok_create`); `link` does not check it, and has to be told (`ok_linkTo`).
-/
import Xv6.Fs.Writing

namespace Xv6

open Prog
open Multiset (mem_cons_self mem_cons_of_mem)

/-- The pointers held, with the one that a search has returned. -/
def finding {α : Type} (H : Multiset Handle) : Option (Slot × α) → Multiset Handle
  | none => H
  | some (k, _) => (k, none) ::ₘ H

/-- The call may write the directories that grant the caller write permission. -/
def Allows (sb : Superblock) (c : Ctx) (id : Ident) : Prop :=
  ∀ j, (inoOf sb c.disk j).type = T_DIR →
    grants id (inoOf sb c.disk j) MODE_WUSR MODE_WOTH = true ∨ j ∈ c.mode → j ∈ c.content

section

variable {sb : Superblock} {c : Ctx} {H : Multiset Handle} {N : List Fact} {s s' : Fs}
  {i off inum : ℕ} {j k : Slot} {ty : Int16} {q : Option (ℕ × Int16)} {α : Type} {f : Fact}
  {id : Ident} {dp ip : Slot} {type : Int16}

/-! ### What is known -/

theorem Ok.learn (h : Ok sb c H N s) (hf : f.Holds sb c s) : Ok sb c H (f :: N) s :=
  { h with
    facts := fun f' hf' => by
      rcases List.mem_cons.mp hf' with rfl | hf'
      · exact hf
      · exact h.facts f' hf' }

theorem Ok.unlearn (h : Ok sb c H (f :: N) s) : Ok sb c H N s :=
  h.mono le_rfl fun _ hf => List.mem_cons_of_mem _ hf

theorem sat_unlearn {x : FsM α} (h : Sat x s (fun _ => Ok sb c H (f :: N)) Fine) :
    Sat x s (fun _ => Ok sb c H N) Fine :=
  h.post fun _ _ h' => h'.unlearn

theorem Ok.swap {x y : Handle} (h : Ok sb c (x ::ₘ y ::ₘ H) N s) : Ok sb c (y ::ₘ x ::ₘ H) N s :=
  Multiset.cons_swap x y H ▸ h

/-- A new inode may be written. -/
theorem Ok.may_of_dead (h : Ok sb c H N s) (hd : Fact.dead i ∈ N) : Ok sb c H (.may i :: N) s :=
  h.learn fun hl => absurd hl (h.facts _ hd)

theorem grants_congr {d d' : Dinode} (hid : d.id = d'.id) (hm : d.mode = d'.mode)
    (usr oth : UInt32) : grants id d usr oth = grants id d' usr oth := by
  rw [grants, grants, owns, owns, hid, hm]

/-- The write permission of a directory, checked with the directory locked, is that of the
start of the call. -/
theorem Ok.permitted (h : Ok sb c H N s) (hal : Allows sb c id) (hk : (k, some (i, T_DIR)) ∈ H)
    (hp : permits id (s.icache k).d MODE_WUSR MODE_WOTH = true) : Ok sb c H (.may i :: N) s := by
  obtain ⟨-, -, hi, hd, hty, -⟩ := h.at_known hk
  refine h.learn fun hl => ?_
  have hs := h.since i hi hl
  rw [hd, permits, hty] at hp
  have hg : grants id (inoOf sb s.disk i) MODE_WUSR MODE_WOTH = true := by simpa [T_DIR, T_DEV] using hp
  refine hal i (hs.type.symm.trans hty) (hs.mode.imp (fun hm => ?_) fun hm => hm)
  rw [← grants_congr hs.owner hm]
  exact hg

/-! ### Directories -/

/-- An entry of a directory names an inode of the disk. -/
theorem ok_readDirent (h : Ok sb c H N s) (hk : (k, some (i, T_DIR)) ∈ H) (hoff : off % 16 = 0)
    {msg : String} (hmsg : Fine (.panic msg)) :
    Sat (readDirent sb k off msg) s (fun de s' => s' = s ∧ de.inum < sb.ninodes) Fine := by
  obtain ⟨-, -, hi, -, hty, -⟩ := h.at_known hk
  refine (ok_readi h hk off 16).bind fun buf s1 h1 => ?_
  obtain ⟨rfl, hbuf⟩ := h1.2 (by decide)
  match buf with
  | none => exact .stop hmsg
  | some buf =>
    refine .ite (fun hlen => .pure ⟨rfl, ?_⟩) fun _ => .stop hmsg
    have hb := hbuf buf rfl
    rw [hb, List.length_map, List.length_range] at hlen
    have := h.disk.dirs i hi hty off hoff (by omega)
    rw [hlen] at hb
    rw [hb]
    simpa [Dirent.ofBytes, entryAt] using this

theorem ok_lookupFrom (h : Ok sb c H N s) (hk : (k, some (i, T_DIR)) ∈ H) (name : Str) :
    ∀ (fuel off : ℕ), off % 16 = 0 → Sat (lookupFrom sb k name fuel off) s
      (fun r s' => Ok sb c (finding H r) N s' ∧ ∀ x, r = some x → x.2 % 16 = 0) Fine
  | 0, _, _ => .pure ⟨h, fun _ he => by cases he⟩
  | fuel + 1, off, hoff => by
    refine .get_bind (.ite (fun _ => .pure ⟨h, fun _ he => by cases he⟩) fun _ => ?_)
    refine (ok_readDirent h hk hoff (by simp [Fine])).read fun de hde => ?_
    refine .ite (fun _ => ?_) fun _ => ok_lookupFrom h hk name fuel (off + 16) (by omega)
    rw [(h.slot k (h.ref_pos hk)).dev]
    exact (ok_iget h hde).bind fun j s2 h2 => .pure ⟨h2.1, fun x he => by cases he; exact hoff⟩

theorem ok_dirlookup (h : Ok sb c H N s) (hk : (k, some (i, ty)) ∈ H) (name : Str) :
    Sat (dirlookup sb k name) s (fun r s' => Ok sb c (finding H r) N s' ∧ ty = T_DIR ∧
      ∀ x, r = some x → x.2 % 16 = 0) Fine := by
  obtain ⟨-, -, -, hd, hty, -⟩ := h.at_known hk
  refine .get_bind (.ite (fun hdir => ?_) fun _ => .stop (by simp [Fine]))
  obtain rfl : ty = T_DIR := by rw [← hty, ← hd, hdir]
  exact (ok_lookupFrom h hk name _ 0 rfl).post fun _ _ h1 => ⟨h1.1, rfl, h1.2⟩

theorem ok_emptyFrom (h : Ok sb c H N s) (hk : (k, some (i, T_DIR)) ∈ H) :
    ∀ (fuel off : ℕ), off % 16 = 0 → Sat (emptyFrom sb k fuel off) s (fun off' s' => s' = s ∧
      off' % 16 = 0) Fine
  | 0, _, hoff => .pure ⟨rfl, hoff⟩
  | fuel + 1, off, hoff => by
    refine .get_bind (.ite (fun _ => .pure ⟨rfl, hoff⟩) fun _ => ?_)
    refine (ok_readDirent h hk hoff (by simp [Fine])).read fun de hde => ?_
    exact .ite (fun _ => .pure ⟨rfl, hoff⟩) fun _ => ok_emptyFrom h hk fuel (off + 16) (by omega)

/-- The bytes of an entry, written where an entry begins. -/
theorem entryWrite_bytes (hmay : Fact.may i ∈ N) (hoff : off % 16 = 0) (hnum : inum < sb.ninodes)
    (name : Str) : EntryWrite sb N i (Dirent.bytes inum name) off := by
  refine ⟨hmay, hoff, by simp [Dirent.bytes, strncpy_length], ?_⟩
  simp [Dirent.bytes]
  omega

theorem entryWrite_unused (hmay : Fact.may i ∈ N) (hoff : off % 16 = 0) :
    EntryWrite sb N i Dirent.unused off :=
  ⟨hmay, hoff, rfl, by have := sb.root_lt; simp [Dirent.unused]; omega⟩

/-- **`dirlink` writes an entry** into a directory that may be written. -/
theorem ok_dirlink (h : Ok sb c H N s) (hk : (k, some (i, ty)) ∈ H) (hmay : Fact.may i ∈ N) (name : Str)
    (hnum : inum < sb.ninodes) : Sat (dirlink sb k name inum) s (fun _ => Ok sb c H N) Fine := by
  refine (ok_dirlookup h hk name).bind fun r s1 ⟨h1, hty, _⟩ => ?_
  match r with
  | some (j, _) => exact (ok_iput h1).bind fun _ s2 h2 => .pure h2
  | none =>
    subst hty
    refine .get_bind ((ok_emptyFrom h1 hk _ 0 rfl).read fun off hoff => ?_)
    refine (ok_writei h1 hk _ _ fun _ => entryWrite_bytes hmay hoff hnum name).bind fun r s3 h3 => ?_
    exact .ite (fun _ => .pure h3) fun _ => .stop (by simp [Fine])

theorem ok_linkDots (h : Ok sb c H N s) (hk : (k, some (i, ty)) ∈ H) (hmay : Fact.may i ∈ N) {parent : ℕ}
    (hnum : inum < sb.ninodes) (hparent : parent < sb.ninodes) :
    Sat (linkDots sb k inum parent) s (fun _ => Ok sb c H N) Fine := by
  refine (ok_dirlink h hk hmay _ hnum).bind fun _ s1 h1 => .ite (fun _ => ?_) fun _ =>
    .stop (by simp [Fine])
  refine (ok_dirlink h1 hk hmay _ hparent).bind fun _ s2 h2 => ?_
  exact .ite (fun _ => .pure h2) fun _ => .stop (by simp [Fine])

/-! ### Paths -/

theorem ok_dropped (h : Ok sb c ((k, q) ::ₘ H) N s) :
    Sat (dropped sb k : FsM (Option α)) s (fun r s' => r = none ∧ Ok sb c H N s') Fine :=
  (ok_iunlockput h).bind fun _ _ h1 => .pure ⟨rfl, h1⟩

theorem ok_namexDone (h : Ok sb c ((k, none) ::ₘ H) N s) (parent : Bool) (name : Str) :
    Sat (namexFrom.done sb parent k name) s (fun r => Ok sb c (finding H r) N) Fine := by
  refine .ite (fun _ => ?_) fun _ => .pure h
  exact (ok_iput h).bind fun _ _ h1 => .pure h1

variable {who : Caller}

theorem ok_namexFrom (parent : Bool) : ∀ (fuel : ℕ) (k : Slot) (path name : Str) {s : Fs},
    Ok sb c ((k, none) ::ₘ H) N s →
    Sat (namexFrom sb who parent fuel k path name) s (fun r => Ok sb c (finding H r) N) Fine
  | 0, k, _, name, s, h => ok_namexDone h parent name
  | fuel + 1, k, path, name, s, h => by
    have hdrop : ∀ {q s}, Ok sb c ((k, q) ::ₘ H) N s → Sat (dropped sb k : FsM (Option (Slot × Str))) s
        (fun r => Ok sb c (finding H r) N) Fine := fun h =>
      (ok_dropped h).post fun r _ ⟨hr, h1⟩ => by rw [hr]; exact h1
    rw [namexFrom]
    split
    · exact ok_namexDone h parent name
    · rename_i name path _
      refine (ok_ilock h).bind fun _ s1 ⟨i, ty, h1, _⟩ => .get_bind ?_
      refine .ite (fun _ => hdrop h1) fun _ => .ite (fun _ => hdrop h1) fun _ => ?_
      refine .ite (fun _ => ?_) fun _ => ?_
      · exact (ok_iunlock h1.forget).bind fun _ s2 h2 => .pure h2
      · refine (ok_dirlookup h1 (mem_cons_self _ _) name).bind fun r s2 ⟨h2, _⟩ => ?_
        match r with
        | none => exact hdrop h2
        | some (next, _) =>
          exact (ok_iunlockput h2.swap).bind fun _ s3 h3 => ok_namexFrom parent fuel next path name h3

/-- **A path leads to an inode that is then held.** -/
theorem ok_namex (h : Ok sb c H N s) (hcwd : (who.cwd, q) ∈ H) (path : Str) (parent : Bool) :
    Sat (namex sb who path parent) s (fun r => Ok sb c (finding H r) N) Fine := by
  have hstart : Sat (startInode who path) s (fun k => Ok sb c ((k, none) ::ₘ H) N) Fine := by
    refine .ite (fun _ => ?_) fun _ => ?_
    · exact (ok_iget h sb.root_lt).post fun _ _ h1 => h1.1
    · exact (ok_idup h hcwd).post fun j _ h1 => by rw [h1.1]; exact h1.2.forget
  exact hstart.bind fun k s1 h1 => ok_namexFrom parent _ k path [] h1

/-- The pointers held, with the one to the inode of a path. -/
def naming (H : Multiset Handle) : Option Slot → Multiset Handle
  | none => H
  | some k => (k, none) ::ₘ H

theorem ok_namei (h : Ok sb c H N s) (hcwd : (who.cwd, q) ∈ H) (path : Str) :
    Sat (namei sb who path) s (fun r => Ok sb c (naming H r) N) Fine := by
  refine (ok_namex h hcwd path false).bind fun r s1 h1 => .pure ?_
  cases r <;> exact h1

/-! ### The calls on names -/

theorem ok_ended (h : Ok sb c H N s) (r : ℤ) : Sat (ended r) s (fun _ => Ok sb c H N) Fine :=
  (ok_endOp h).bind fun _ _ h1 => .pure h1

theorem ok_failed (h : Ok sb c ((k, q) ::ₘ H) N s) : Sat (failed sb k) s (fun _ => Ok sb c H N) Fine :=
  (ok_iunlockput h).bind fun _ _ h1 => ok_ended h1 _

theorem ok_linkBad (h : Ok sb c ((k, q) ::ₘ H) N s) :
    Sat (linkBad sb k) s (fun _ => Ok sb c H N) Fine := by
  refine (ok_ilock h).bind fun _ s1 ⟨i, ty, h1, _⟩ => ?_
  exact (ok_addNlink h1 (mem_cons_self _ _) _).bind fun _ s2 h2 => ok_failed h2

/-- The pointers held after the first half of `sys_link`. -/
def joining (H : Multiset Handle) : Option (Slot × Option (Slot × Str)) → Multiset Handle
  | none => H
  | some (ip, r) => finding ((ip, none) ::ₘ H) r

theorem ok_linkFrom (h : Ok sb c H N s) (hcwd : (who.cwd, q) ∈ H) (old new : Str) :
    Sat (linkFrom sb who old new) s (fun r => Ok sb c (joining H r) N) Fine := by
  refine (ok_beginOp h).bind fun _ s1 h1 => (ok_namei h1 hcwd _).bind fun r s2 h2 => ?_
  match r with
  | none => exact (ok_endOp h2).bind fun _ s3 h3 => .pure h3
  | some ip =>
    refine (ok_ilock h2).bind fun _ s3 ⟨i, ty, h3, _⟩ => .get_bind (.ite (fun _ => ?_) fun _ => ?_)
    · exact (ok_failed h3).bind fun _ s4 h4 => .pure h4
    · refine (ok_addNlink h3 (mem_cons_self _ _) _).bind fun _ s4 h4 => ?_
      refine (ok_iunlock h4.forget).bind fun _ s5 h5 => ?_
      exact (ok_namex h5 (mem_cons_of_mem hcwd) _ true).bind fun r s6 h6 => .pure h6

/-- The second half of `sys_link`, into a directory that may be written. -/
theorem ok_linkTo {r : Option (Slot × Str)} (h : Ok sb c (finding ((ip, none) ::ₘ H) r) N s)
    (hmay : ∀ dp name, r = some (dp, name) → (Fact.may (s.icache dp).inum).Holds sb c s) :
    Sat (linkTo sb ip r) s (fun _ => Ok sb c H N) Fine := by
  match r with
  | none => exact ok_linkBad h
  | some (dp, name) =>
    have h := h.learn (hmay dp name rfl)
    refine sat_unlearn (f := .may (s.icache dp).inum) ?_
    refine (ok_ilock h).bind fun _ s1 ⟨i, ty, h1, hi, _⟩ => .get_bind (.get_bind ?_)
    have hip := (h1.slot ip (h1.ref_pos (mem_cons_of_mem (mem_cons_self _ _)))).inum
    refine .ite (fun _ => ?_) fun _ => ?_
    · exact (ok_iunlockput h1).bind fun _ s2 h2 => ok_linkBad h2
    · refine (ok_dirlink h1 (mem_cons_self _ _) (hi ▸ List.mem_cons_self) _ hip).bind
        fun _ s2 h2 => ?_
      refine .ite (fun _ => ?_) fun _ => ?_
      · refine (ok_iunlockput h2).bind fun _ s3 h3 => (ok_iput h3).bind fun _ s4 h4 => ?_
        exact ok_ended h4 0
      · exact (ok_iunlockput h2).bind fun _ s3 h3 => ok_linkBad h3

theorem ok_emptyDirFrom (h : Ok sb c H N s) (hk : (k, some (i, T_DIR)) ∈ H) :
    ∀ (fuel off : ℕ), off % 16 = 0 → Sat (emptyDirFrom sb k fuel off) s (fun _ s' => s' = s) Fine
  | 0, _, _ => .pure rfl
  | fuel + 1, off, hoff => by
    refine .get_bind (.ite (fun _ => .pure rfl) fun _ => ?_)
    refine (ok_readDirent h hk hoff (by simp [Fine])).read fun de hde => ?_
    exact .ite (fun _ => .pure rfl) fun _ => ok_emptyDirFrom h hk fuel (off + 16) (by omega)

theorem ok_dirBusy (h : Ok sb c H N s) (hk : (k, some (i, ty)) ∈ H) :
    Sat (dirBusy sb k ty) s (fun _ => Ok sb c H N) Fine := by
  refine .ite (fun hty => ?_) fun _ => .pure h
  subst hty
  refine .bind (.get_bind (ok_emptyDirFrom h hk _ 32 rfl)) fun _ s1 heq => .pure ?_
  rw [heq]
  exact h

theorem ok_unlinkEntry {i' : ℕ}
    (h : Ok sb c ((ip, some (i', ty)) ::ₘ (dp, some (i, T_DIR)) ::ₘ H) N s) (hmay : Fact.may i ∈ N)
    (hoff : off % 16 = 0) : Sat (unlinkEntry sb dp ip off) s (fun _ => Ok sb c H N) Fine := by
  have hdp : (dp, some (i, T_DIR)) ∈ (ip, some (i', ty)) ::ₘ (dp, some (i, T_DIR)) ::ₘ H :=
    mem_cons_of_mem (mem_cons_self _ _)
  refine (ok_writei h hdp _ _ fun _ => entryWrite_unused hmay hoff).bind fun r s1 h1 => ?_
  refine .ite (fun _ => .stop (by simp [Fine])) fun _ => .get_bind ?_
  refine .bind (.when (fun _ => ok_addNlink h1 hdp _) fun _ => h1) fun _ s2 h2 => ?_
  refine (ok_iunlockput h2.swap).bind fun _ s3 h3 => ?_
  refine (ok_addNlink h3 (mem_cons_self _ _) _).bind fun _ s4 h4 => ?_
  exact (ok_iunlockput h4).bind fun _ s5 h5 => ok_ended h5 0

/-- **`unlink` writes a directory that grants it.** -/
theorem ok_sysUnlink (h : Ok sb c H N s) (hcwd : (who.cwd, q) ∈ H) (hal : Allows sb c who.id)
    (path : Option Str) : Sat (sysUnlink sb who path) s (fun _ => Ok sb c H N) Fine := by
  cases path with
  | none => exact .pure h
  | some path =>
    refine (ok_beginOp h).bind fun _ s1 h1 => (ok_namex h1 hcwd _ true).bind fun r s2 h2 => ?_
    match r with
    | none => exact ok_ended h2 _
    | some (dp, name) =>
      refine (ok_ilock h2).bind fun _ s3 ⟨i, ty, h3, _⟩ =>
        .get_bind (.ite (fun _ => ok_failed h3) fun hp => ?_)
      refine .ite (fun _ => ok_failed h3) fun _ => ?_
      -- the directory is not known to be one before the search
      by_cases hty : ty = T_DIR
      · subst hty
        have h3 := h3.permitted hal (mem_cons_self _ _) (by simpa using hp)
        refine sat_unlearn (f := .may i) ?_
        refine (ok_dirlookup h3 (mem_cons_self _ _) _).bind fun r s4 ⟨h4, _, hoff⟩ => ?_
        match r with
        | none => exact ok_failed h4
        | some (ip, off) =>
          refine (ok_ilock h4).bind fun _ s5 ⟨i', ty', h5, _⟩ => .get_bind ?_
          refine .ite (fun _ => .stop (by simp [Fine])) fun _ => ?_
          have hty' : (s5.icache ip).d.type = ty' := (h5.known _ (mem_cons_self _ _) _ _ rfl).2.2
          rw [hty']
          refine (ok_dirBusy h5 (mem_cons_self _ _)).bind fun _ s6 h6 =>
            .ite (fun _ => ?_) fun _ => ?_
          · exact (ok_iunlockput h6).bind fun _ s7 h7 => ok_failed h7
          · exact ok_unlinkEntry h6 List.mem_cons_self (hoff _ rfl)
      · exact (ok_dirlookup h3 (mem_cons_self _ _) _).bind fun r s4 h4 => absurd h4.2.1 hty

/-! ### Creating -/

/-- `ialloc` takes the first inode that is free on disk. -/
theorem sat_iallocFrom {Q : Slot → Fs → Prop} {E : Stop → Prop} {dev : ℕ}
    (hno : E (.panic "ialloc: no inodes"))
    (hfree : ∀ i, 0 < i → i < sb.ninodes → (inoOf sb s.disk i).type = 0 → Sat (do
      logWrite sb (sb.IBLOCK i) ((newDinode ty).write (s.disk (sb.IBLOCK i)) (64 * (i % 8)))
      iget dev i) s Q E) : ∀ fuel inum : ℕ, 0 < inum → inum + fuel ≤ sb.ninodes →
      Sat (iallocFrom sb dev ty fuel inum) s Q E
  | 0, _, _, _ => .stop hno
  | fuel + 1, inum, hpos, hlt => .get_bind (.ite (fun h0 => hfree inum hpos (by omega) h0)
      fun _ => sat_iallocFrom hno hfree fuel (inum + 1) (by omega) (by omega))

/-- `ialloc` returns an entry of an inode that was free; it may be written. -/
theorem ok_ialloc (h : Ok sb c H N s) :
    Sat (ialloc sb ROOTDEV ty) s (fun k s' => ∃ i, Ok sb c ((k, none) ::ₘ H) (.may i :: .dead i :: N) s' ∧
      (s'.icache k).inum = i ∧ (inoOf sb s'.disk i).type = ty ∧ 0 < i ∧ (inoOf sb s.disk i).type = 0 ∧
      s'.disk = setDinode sb s.disk i (newDinode ty)) Fine := by
  refine sat_iallocFrom (by simp [Fine]) (fun i hpos hi h0 => ?_) _ _ Nat.one_pos
    (by have := sb.root_lt; omega)
  refine (wrote_logWrite _ _).bind fun _ s1 hw => ?_
  refine ((ok_iget (h.newDinode hi h0 hw) hi).and (inum_iget (s := s1) ROOTDEV i)).post
    fun k s2 hgot => ?_
  obtain ⟨⟨h2, hnum⟩, -, hd⟩ := hgot
  have hdisk : s2.disk = setDinode sb s.disk i (newDinode ty) := hd.trans hw.disk
  refine ⟨i, h2.may_of_dead List.mem_cons_self, hnum, ?_, hpos, h0, hdisk⟩
  rw [hdisk]
  exact congrArg Dinode.type ((inoOf_setDinode (newDinode ty) i).trans (if_pos rfl))

theorem ok_createNew (h : Ok sb c ((dp, some (i, T_DIR)) ::ₘ H) N s) (hmay : Fact.may i ∈ N)
    (name : Str) (ht : type ≠ 0) (major minor : Int16) :
    Sat (createNew sb who dp name type major minor) s
      (fun ip s' => ∃ j, Ok sb c ((ip, some (j, type)) ::ₘ H) (.dead j :: N) s') Fine := by
  have hdp := h.at_known (mem_cons_self _ _)
  refine .get_bind ?_
  rw [(h.slot dp (h.ref_pos (mem_cons_self _ _))).dev, hdp.1]
  refine (ok_ialloc h).bind fun ip s1 ⟨j, h1, hj, hty, _⟩ => ?_
  refine (ok_ilock h1).bind fun _ s2 ⟨j', ty', h2, hj', hd⟩ => ?_
  obtain rfl : j' = j := hj'.trans hj
  have hip : (ip, some (j', ty')) ∈ (ip, some (j', ty')) ::ₘ (dp, some (i, T_DIR)) ::ₘ H :=
    mem_cons_self _ _
  have hdp' : (dp, some (i, T_DIR)) ∈ (ip, some (j', ty')) ::ₘ (dp, some (i, T_DIR)) ::ₘ H :=
    mem_cons_of_mem (mem_cons_self _ _)
  obtain rfl : ty' = type := by rw [← (h2.at_known hip).2.2.2.2.1, hd, hty]
  refine .assoc ((ok_initInode h2 hip (by simp) _ _ _).bind fun _ s3 h3 => .get_bind ?_)
  obtain ⟨hnum, -, hlt, -⟩ := h3.at_known hip
  rw [hnum]
  have hmay' : Fact.may i ∈ Fact.may j' :: Fact.dead j' :: N := by simp [hmay]
  refine .bind (Q := fun _ => Ok sb c _ _) (.when (fun _ => ?_) fun _ => h3) fun _ s4 h4 => ?_
  · exact (ok_addNlink h3 hdp' _).bind fun _ s4 h4 => ok_linkDots h4 hip List.mem_cons_self hlt hdp.2.2.1
  · refine (ok_dirlink h4 hdp' hmay' _ hlt).bind fun _ s5 h5 => ?_
    refine .ite (fun _ => ?_) fun _ => .stop (by simp [Fine])
    exact (ok_iunlockput h5.swap).bind fun _ s6 h6 => .pure ⟨j', h6.unlearn⟩

/-- What `create` returns: an inode of the type, locked. -/
def Creates (sb : Superblock) (c : Ctx) (H : Multiset Handle) (N : List Fact) (type : Int16) (s : Fs) :
    Option Slot → Prop
  | none => Ok sb c H N s
  | some ip => ∃ j, Ok sb c ((ip, some (j, type)) ::ₘ H) N s

/-- `create` returns an inode that was there only if it grants the caller write permission. -/
theorem ok_create_permits (h : Ok sb c H N s) (hcwd : (who.cwd, q) ∈ H) (hal : Allows sb c who.id)
    (path : Str) (ht : type ≠ 0) (major minor : Int16) :
    Sat (create sb who path type major minor) s (fun r s' => Creates sb c H N type s' r ∧ ∀ ip,
      r = some ip → permits who.id (s'.icache ip).d MODE_WUSR MODE_WOTH = true ∨
      ¬Live sb c s' (s'.icache ip).inum) Fine := by
  have hdrop : ∀ {k q s}, Ok sb c ((k, q) ::ₘ H) N s → Sat (dropped sb k : FsM (Option Slot)) s
      (fun r s' => Creates sb c H N type s' r ∧ ∀ ip, r = some ip →
        permits who.id (s'.icache ip).d MODE_WUSR MODE_WOTH = true ∨
          ¬Live sb c s' (s'.icache ip).inum) Fine := fun h =>
    (ok_dropped h).post fun r _ ⟨hr, h1⟩ => by
      subst hr
      exact ⟨h1, fun ip he => by cases he⟩
  refine (ok_namex h hcwd path true).bind fun r s1 h1 => ?_
  match r with
  | none => exact .pure ⟨h1, fun ip he => by cases he⟩
  | some (dp, name) =>
    refine (ok_ilock h1).bind fun _ s2 ⟨i, ty, h2, _⟩ => ?_
    refine (ok_dirlookup h2 (mem_cons_self _ _) _).bind fun r s3 ⟨h3, hty, _⟩ => ?_
    match r with
    | some (ip, _) =>
      refine (ok_iunlockput h3.swap).bind fun _ s4 h4 =>
        (ok_ilock h4).bind fun _ s5 ⟨j, ty', h5, _⟩ => .get_bind ?_
      refine .ite (fun _ => hdrop h5) fun hp => .ite (fun hf => ?_) fun _ => hdrop h5
      have hty' := (h5.known _ (mem_cons_self _ _) _ _ rfl).2.2
      obtain rfl : ty' = type := by rw [← hty', hf.1]; exact hf.2
      refine .pure ⟨⟨j, h5⟩, fun ip' he => .inl ?_⟩
      cases he
      simpa using hp
    | none =>
      refine .get_bind (.ite (fun _ => hdrop h3) fun hp => ?_)
      subst hty
      have h3 := Ok.permitted (k := dp) h3 hal (mem_cons_self _ _) (by simpa using hp)
      refine (ok_createNew h3 List.mem_cons_self _ ht _ _).bind fun ip s4 ⟨j, h4⟩ => ?_
      refine .pure ⟨⟨j, h4.unlearn.unlearn⟩, fun ip' he => .inr ?_⟩
      cases he
      rw [(h4.at_known (mem_cons_self _ _)).1]
      exact h4.facts _ List.mem_cons_self

theorem ok_create (h : Ok sb c H N s) (hcwd : (who.cwd, q) ∈ H) (hal : Allows sb c who.id) (path : Str) (ht : type ≠ 0) (major minor : Int16) :
    Sat (create sb who path type major minor) s (fun r s' => Creates sb c H N type s' r) Fine :=
  (ok_create_permits h hcwd hal path ht major minor).post fun _ _ h1 => h1.1

theorem ok_created (r : Option Slot) (h : Creates sb c H N type s r) :
    Sat (created sb r) s (fun _ => Ok sb c H N) Fine := by
  cases r with
  | none => exact ok_ended h _
  | some ip =>
    obtain ⟨j, h⟩ := h
    exact (ok_iunlockput h).bind fun _ _ h1 => ok_ended h1 0

theorem ok_sysMkdir (h : Ok sb c H N s) (hcwd : (who.cwd, q) ∈ H) (hal : Allows sb c who.id)
    (path : Option Str) : Sat (sysMkdir sb who path) s (fun _ => Ok sb c H N) Fine := by
  refine (ok_beginOp h).bind fun _ s1 h1 => ?_
  cases path with
  | none => exact ok_ended h1 _
  | some path => exact (ok_create h1 hcwd hal _ (by decide) _ _).bind fun r s2 h2 => ok_created r h2

theorem ok_sysMknod (h : Ok sb c H N s) (hcwd : (who.cwd, q) ∈ H) (hal : Allows sb c who.id)
    (path : Option Str) (major minor : Option Int32) :
    Sat (sysMknod sb who path major minor) s (fun _ => Ok sb c H N) Fine := by
  refine (ok_beginOp h).bind fun _ s1 h1 => ?_
  split
  · exact (ok_create h1 hcwd hal _ (by decide) _ _).bind fun r s2 h2 => ok_created r h2
  · exact ok_ended h1 _

/-! ### Modes -/

theorem ok_unlocked (h : Ok sb c H N s) (r : ℤ) : Sat (unlocked k r) s (fun _ => Ok sb c H N) Fine :=
  (ok_iunlock h).bind fun _ _ h1 => ok_ended h1 r

/-- **`chmod` sets the mode of an inode that the caller owns.** -/
theorem ok_chmodInode (h : Ok sb c ((k, none) ::ₘ H) N s) (mode : UInt32)
    (hmode : owns who.id (inoOf sb c.disk (s.icache k).inum) = true → (s.icache k).inum ∈ c.mode) :
    Sat (chmodInode sb who k mode) s (fun _ => Ok sb c H N) Fine := by
  refine (ok_ilock h).bind fun _ s1 ⟨i, ty, h1, hi, _⟩ => .get_bind ?_
  rw [← hi] at hmode
  have hk : (k, some (i, ty)) ∈ (k, some (i, ty)) ::ₘ H := mem_cons_self _ _
  obtain ⟨-, -, hlt, hd, -⟩ := h1.at_known hk
  refine .ite (fun _ => (ok_unlocked h1.tail _)) fun howns => ?_
  refine .ite (fun _ => (ok_unlocked h1.tail _)) fun hdev => ?_
  refine .assoc (.bind (ok_update h1 hk (fun _ => ⟨rfl, rfl, rfl⟩)
    (fun d hd => by rw [copyId_eq_iff] at hd ⊢; exact hd) fun hl => ⟨fun _ => rfl, .inr (hmode ?_)⟩)
    fun _ s2 h2 => ok_unlocked h2.tail 0)
  have hs := h1.since i hlt hl
  rw [owns, ← hs.owner, ← hd, ← owns]
  simpa [hdev] using howns

end

end Xv6
