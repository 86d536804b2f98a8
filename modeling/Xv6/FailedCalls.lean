/-
# Calls on names that fail

A call on names that returns -1 has changed nothing: not a directory, an inode or its contents, nor
the caller's descriptors or current directory. Most of them fail before they write anything, so that
the walk (`Walking`) is all that has happened. `link` has then already counted the new link, in the
inode and on disk, and takes it back; in between it resolves the new path on a disk with the wrong
count (`Bumped`).

`open` with `O_CREATE` is the exception: it makes the file first and allocates the file structure
and the descriptor after. If one of the tables is full it returns -1 and leaves the new file there
(`created_and_failed`). It gets that far if the path names nothing in a directory that it leads to
and that may be written (`NamesNew`).
-/
import Xv6.Home

namespace Xv6

open Prog
open Function (update update_self update_of_ne)
open Multiset (mem_cons_self mem_singleton_self)

/-- Every inode is the same, with the same contents. -/
structure Unchanged (sb : Superblock) (D D' : Disk) : Prop where
  ino : ∀ i, i < sb.ninodes → inoOf sb D' i = inoOf sb D i
  content : ∀ i, i < sb.ninodes → (inoOf sb D i).type ≠ 0 → ∀ x, byteOf D' (inoOf sb D i) x =
    byteOf D (inoOf sb D i) x

/-- The path leads to a directory that has no entry with the last name, and that the caller may
write. -/
def NamesNew (sb : Superblock) (who : Caller) (s : Fs) (path : Str) : Prop :=
  ∃ i, follow sb (searchable who.id) s.disk true (startInum who path s) (components path) = some i ∧
    entryNamed s.disk (inoOf sb s.disk i) ((components path).getLastD []) = none ∧
    permits who.id (inoOf sb s.disk i) MODE_WUSR MODE_WOTH = true

/-- The inode in the entry has a link, and an inode that was free in `D` is not. -/
def Fresh (sb : Superblock) (D : Disk) (ip : Slot) (s : Fs) : Prop :=
  (s.icache ip).d.nlink ≠ 0 ∧ ∃ j, j < sb.ninodes ∧ (inoOf sb D j).type = 0 ∧ (inoOf sb s.disk j).type ≠ 0

section

variable {sb : Superblock} {c : Ctx} {H : Multiset Handle} {N : List Fact} {s₀ s s' : Fs}
  {X : Multiset (Slot × ℕ)} {L : Multiset Slot} {i j : ℕ} {k ip dp : Slot} {ty : Int16}
  {who : Caller} {q : Option (ℕ × Int16)} {name : Str} {E : Stop → Prop} {D : Disk} {b : Fs}

theorem Unchanged.refl (D : Disk) : Unchanged sb D D := ⟨fun _ _ => rfl, fun _ _ _ _ => rfl⟩

theorem Walking.unchanged (h : Walking sb s₀ X L s) : Unchanged sb s₀.disk s.disk := by
  rw [h.disk]
  exact .refl _

/-! ### What a call does around a walk -/

section

variable (h : Walking sb s₀ X L s)
include h

theorem Walking.log (hd : s'.disk = s.disk) (hc : s'.icache = s.icache)
    (hf : ∀ i, s'.frees i = s.frees i) : Walking sb s₀ X L s' := by
  refine ⟨h.sound, h.nonneg, hd.trans h.disk, fun i => (hf i).trans (h.frees i), ?_, ?_, ?_, ?_, ?_,
    ?_, ?_⟩
  · rw [hd, hc]
    exact h.slot
  · rw [hc]
    exact h.uniq
  · rw [hc]
    exact h.ref
  · rw [hc]
    exact h.inum
  · rw [hc]
    exact h.pins
  · rw [hc]
    exact h.locked
  · rw [hc]
    exact h.lock

theorem walk_beginOp : Sat beginOp s (fun _ => Walking sb s₀ X L) Any :=
  .get_bind (.ite (fun _ => .stop trivial) fun _ => .modify (h.log rfl rfl fun i => by simp [Fs.frees]))

theorem walk_endOp : Sat endOp s (fun _ => Walking sb s₀ X L) E :=
  .modify (h.log rfl rfl fun i => by simp [Fs.frees])

theorem walk_ended (r : ℤ) : Sat (ended r) s (fun _ => Walking sb s₀ X L) E :=
  (walk_endOp h).bind fun _ _ h1 => .pure h1

theorem lock_pin (hk : (k, i) ∈ X) :
    Sat (ilock sb k) s (fun _ s' => k ∉ L ∧ Walking sb s₀ X (k ::ₘ L) s') Any :=
  (walk_ilock (G := False) h (h.ref_pos hk) (h.inum_of_mem hk) False.elim).returns

end

theorem put_pin (h : Walking sb s₀ ((k, i) ::ₘ X) (k ::ₘ L) s) (hheld : OrphansHeld sb s₀) (hk : k ∉ L) :
    Sat (iunlockput sb k) s (fun _ => Walking sb s₀ X L) Any :=
  (walk_iunlockput (G := False) h hheld hk False.elim).returns

theorem walk_failed (h : Walking sb s₀ ((k, i) ::ₘ X) (k ::ₘ L) s) (hheld : OrphansHeld sb s₀)
    (hk : k ∉ L) : Sat (failed sb k) s (fun _ => Walking sb s₀ X L) Any :=
  (put_pin h hheld hk).bind fun _ _ h1 => walk_ended h1 (-1)

/-- The loop of `isdirempty` only reads. -/
theorem walk_emptyDirFrom (h : Walking sb s₀ X L s) (hk : (k, i) ∈ X) (hl : k ∈ L)
    (hdir : (inoOf sb s₀.disk i).type = T_DIR) : ∀ fuel n : ℕ,
    Sat (emptyDirFrom sb k fuel (16 * n)) s (fun _ s' => s' = s) Any
  | 0, _ => .pure rfl
  | fuel + 1, n => by
    refine .get_bind (.ite (fun _ => .pure rfl) fun hlt => ?_)
    rw [(h.copy (h.inum_of_mem hk) hl).1] at hlt
    refine (walk_readDirent (G := False) h hk hl hdir (by omega) False.elim).returns.read fun de _ => ?_
    exact .ite (fun _ => .pure rfl) fun _ => walk_emptyDirFrom h hk hl hdir fuel (n + 1)

theorem walk_dirBusy (h : Walking sb s₀ X L s) (hk : (k, i) ∈ X) (hl : k ∈ L) :
    Sat (dirBusy sb k (s.icache k).d.type) s (fun _ s' => s' = s) Any := by
  refine .ite (fun hdir => ?_) fun _ => .pure rfl
  rw [(h.copy (h.inum_of_mem hk) hl).1] at hdir
  exact .bind (.get_bind (walk_emptyDirFrom h hk hl hdir _ 2)) fun _ _ h1 => .pure h1

theorem unlinkEntry_returns (dp ip : Slot) (off : ℕ) :
    Sat (unlinkEntry sb dp ip off) s (fun r _ => r = 0) Any := by
  refine Sat.any.bind fun _ _ _ => .ite (fun _ => .stop trivial) fun _ => .get_bind ?_
  exact Sat.any.bind fun _ _ _ => Sat.any.bind fun _ _ _ => Sat.any.bind fun _ _ _ =>
    Sat.any.bind fun _ _ _ =>
      .bind .any fun _ _ _ => .pure rfl

theorem created_returns {r : Option Slot} (hr : r ≠ none) :
    Sat (created sb r) s (fun r _ => r = 0) Any := by
  cases r with
  | none => exact absurd rfl hr
  | some ip => exact Sat.any.bind fun _ _ _ => .bind .any fun _ _ _ => .pure rfl

/-- What `namei` has returned. -/
def Arrived (sb : Superblock) (s₀ s : Fs) : Option Slot → Prop
  | none => Walking sb s₀ 0 0 s
  | some k => ∃ i, Walking sb s₀ {(k, i)} 0 s

theorem walk_namei (h : Walking sb s₀ 0 0 s) (hheld : OrphansHeld sb s₀)
    (hpos : 0 < (s₀.icache who.cwd).ref) (path : Str) :
    Sat (namei sb who path) s (fun r s' => Arrived sb s₀ s' r) Any := by
  refine (walk_namex (G := False) h hheld hpos path false False.elim).returns.bind fun r s1 h1 => ?_
  match r with
  | none => exact .pure h1.2
  | some (k, _) =>
    obtain ⟨i, -, -, h1⟩ := h1
    exact .pure ⟨i, h1⟩

/-! ### A new file -/

/-- A file that has been made has a link, from then until it is returned. -/
theorem fresh_createNew (h : Ok sb c ((dp, some (i, T_DIR)) ::ₘ H) N s) (hmay : Fact.may i ∈ N)
    (name : Str) (major minor : Int16) :
    Sat (createNew sb who dp name T_FILE major minor) s (fun ip s' => Fresh sb s.disk ip s') Any := by
  have hdp := h.at_known (mem_cons_self _ _)
  refine .get_bind ?_
  rw [(h.slot dp (h.ref_pos (mem_cons_self _ _))).dev, hdp.1]
  refine (ok_ialloc h).returns.bind fun ip s1 ⟨j, h1, hj, hty, _, hfree, _⟩ => ?_
  have hji : j ≠ i := by
    rintro rfl
    rw [hdp.2.2.2.2.1] at hfree
    cases hfree
  refine (ok_ilock h1).returns.bind fun _ s2 ⟨j', ty', h2, hj', hd⟩ => ?_
  obtain rfl : j' = j := hj'.trans hj
  have hip : (ip, some (j', ty')) ∈ (ip, some (j', ty')) ::ₘ (dp, some (i, T_DIR)) ::ₘ H :=
    mem_cons_self _ _
  have hdp' : (dp, some (i, T_DIR)) ∈ (ip, some (j', ty')) ::ₘ (dp, some (i, T_DIR)) ::ₘ H :=
    Multiset.mem_cons_of_mem (mem_cons_self _ _)
  refine .assoc (.bind (Sat.and (disk_update h2 hip _) (ok_initInode h2 hip (by simp) _ _ _).returns)
    fun _ s3 ⟨hd3, h3⟩ => .get_bind ?_)
  obtain ⟨hnum, -, hlt, -⟩ := h3.at_known hip
  rw [hnum]
  refine .bind (Q := fun _ s4 => s4 = s3) (.when (fun hdir => absurd hdir (by decide)) fun _ => rfl) ?_
  rintro _ _ rfl
  refine .bind
    (Sat.and (entered_dirlink h3 hdp' name j') (ok_dirlink h3 hdp' (by simp [hmay]) _ hlt).returns)
    fun r s5 ⟨he, h5⟩ => .ite (fun hr => ?_) fun _ => .stop trivial
  obtain ⟨n, he⟩ := he hr
  refine (frame_iunlockput h5.swap).returns.bind fun _ s6 ⟨h6, hframe⟩ => .pure ?_
  rw [(h5.at_known hdp').1] at hframe
  obtain ⟨-, -, -, hd6, hty6, h0⟩ := h6.at_known (mem_cons_self _ _)
  refine ⟨?_, j', hlt, hfree, by rw [hty6]; exact h0⟩
  rw [hd6, hframe.ino j' hlt hji, he.frame.ino j' hlt hji, hd3, inoOf_setDinode, if_pos rfl]
  exact (by decide : (1 : Int16) ≠ 0)

/-- What `create` has returned: nothing; an inode that was there, locked; or a new one. -/
def Finished (sb : Superblock) (who : Caller) (s₀ : Fs) (path : Str) (type : Int16) (s : Fs) :
    Option Slot → Prop
  | none => ¬NamesNew sb who s₀ path ∧ Walking sb s₀ 0 0 s
  | some ip => NamesNew sb who s₀ path ∧ (type = T_FILE → Fresh sb s₀.disk ip s) ∨
      ¬NamesNew sb who s₀ path ∧ ∃ j, Walking sb s₀ {(ip, j)} {ip} s

theorem walk_create (h : Walking sb s₀ 0 0 s) (hok : Ok sb c H N s) (hal : Allows sb c who.id)
    (hcwd : (who.cwd, q) ∈ H) (hheld : OrphansHeld sb s₀) (hpos : 0 < (s₀.icache who.cwd).ref)
    (path : Str) (type major minor : Int16) :
    Sat (create sb who path type major minor) s
      (fun r s' => Finished sb who s₀ path type s' r) Any := by
  have hdrop : ∀ {k i s1}, ¬NamesNew sb who s₀ path → Walking sb s₀ ((k, i) ::ₘ 0) {k} s1 →
      Sat (dropped sb k : FsM (Option Slot)) s1 (fun r s' => Finished sb who s₀ path type s' r)
        Any := fun hno h =>
    (walk_dropped (G := False) h hheld False.elim).returns.post fun r _ ⟨hr, h1⟩ => by
      subst hr
      exact ⟨hno, h1⟩
  refine .bind (Sat.and (walk_namex (G := False) h hheld hpos path true False.elim).returns
    (ok_namex hok hcwd path true).returns) fun r s1 ⟨h1, hok1⟩ => ?_
  match r with
  | none =>
    refine .pure ⟨fun ⟨i, hi, _⟩ => ?_, h1.2⟩
    rw [h1.1] at hi
    cases hi
  | some (dp, name) =>
    obtain ⟨i, hfollow, rfl, h1⟩ := h1
    have hnew : NamesNew sb who s₀ path ↔ entryNamed s₀.disk (inoOf sb s₀.disk i)
      ((components path).getLastD []) = none ∧
        permits who.id (inoOf sb s₀.disk i) MODE_WUSR MODE_WOTH = true := by
      simp only [NamesNew, hfollow, Option.some.injEq, exists_eq_left']
    have hmem := mem_cons_self (dp, i) (0 : Multiset (Slot × ℕ))
    refine .bind (Sat.and (lock_pin h1 hmem) (ok_ilock hok1).returns)
      fun _ s2 ⟨⟨hdp, h2⟩, i', ty, hok2, hi', _⟩ => ?_
    obtain rfl : i' = i := hi'.trans (h1.inum_of_mem hmem)
    refine .bind
      (Sat.and (walk_dirlookup (G := False) h2 hmem (mem_cons_self _ _) False.elim _).returns
        (ok_dirlookup hok2 (mem_cons_self _ _) _).returns)
      fun r s3 ⟨⟨_, h3⟩, hok3, hty, _⟩ => ?_
    match r with
    | some (ip, off) =>
      obtain ⟨j, hfound, -, h3⟩ := h3
      have hno : ¬NamesNew sb who s₀ path := fun h => by
        have hnone := (hnew.mp h).1
        rw [entryNamed, hfound] at hnone
        cases hnone
      rw [Multiset.cons_swap] at h3
      refine (put_pin h3 hheld hdp).bind fun _ s4 h4 => ?_
      have hmem' := mem_cons_self (ip, (entryOf s₀.disk (inoOf sb s₀.disk i') j).inum)
        (0 : Multiset (Slot × ℕ))
      refine (lock_pin h4 hmem').bind fun _ s5 h5 => .get_bind ?_
      exact .ite (fun _ => hdrop hno h5.2) fun _ =>
        .ite (fun _ => .pure (.inr ⟨hno, _, h5.2⟩)) fun _ => hdrop hno h5.2
    | none =>
      obtain ⟨hnone, h3⟩ := h3
      have hd : (s3.icache dp).d = inoOf sb s₀.disk i' :=
        (h3.copy (h3.inum_of_mem hmem) (mem_cons_self _ _)).1
      refine .get_bind (.ite (fun hp => hdrop (fun h => ?_) h3) fun hp => ?_)
      · rw [hd, (hnew.mp h).2] at hp
        cases hp
      · have hmake : NamesNew sb who s₀ path :=
          hnew.mpr ⟨by rw [entryNamed, hnone]; rfl, by simpa [hd] using hp⟩
        by_cases ht : type = T_FILE
        · subst ht hty
          have hok4 := Ok.permitted (k := dp) hok3 hal (mem_cons_self _ _) (by simpa using hp)
          refine (fresh_createNew hok4 List.mem_cons_self _ _ _).bind fun ip s4 h4 =>
            .pure (.inl ⟨hmake, fun _ => ?_⟩)
          rwa [h3.disk] at h4
        · exact Sat.any.bind fun ip s4 _ => .pure (.inl ⟨hmake, fun he => absurd he ht⟩)

/-! ### The calls -/

/-- If the call has failed, it has changed no inode. -/
def Fails (sb : Superblock) (s : Fs) (r : ℤ) (s' : Fs) : Prop := r = -1 → Unchanged sb s.disk s'.disk

/-- A walk is all that the call has done. -/
theorem unchanged_of_walking {x : FsM ℤ} {s1 : Fs}
    (hx : Sat x s1 (fun _ => Walking sb s 0 0) (fun _ => True)) : Sat x s1 (Fails sb s) Any :=
  hx.post fun _ _ h1 _ => h1.unchanged

section

variable (h : Ok sb c H N s) (hheld : OrphansHeld sb s) (hcwd : (who.cwd, q) ∈ H)

include h hheld hcwd

/-- The walk of a call, in its transaction. -/
theorem walk_begin (path : Str) (parent : Bool) : Sat (do beginOp; namex sb who path parent) s
    (fun r s' => Leads sb who s 0 parent (startInum who path s) (components path) [] s' r) Any :=
  (walk_beginOp h.walking).bind fun _ _ h1 =>
    (walk_namex (G := False) h1 hheld (h.ref_pos hcwd) path parent False.elim).returns

theorem failed_sysUnlink (path : Option Str) : Sat (sysUnlink sb who path) s (Fails sb s) Any := by
  cases path with
  | none => exact .pure fun _ => .refl _
  | some path =>
    refine .assoc ((walk_begin h hheld hcwd path true).bind fun r s1 h₁ => ?_)
    match r with
    | none => exact unchanged_of_walking (walk_ended h₁.2 _)
    | some (dp, name) =>
      obtain ⟨i, -, -, h₁⟩ := h₁
      have hmem := mem_cons_self (dp, i) (0 : Multiset (Slot × ℕ))
      refine (lock_pin h₁ hmem).bind fun _ s2 ⟨hdp, h2⟩ => .get_bind ?_
      refine .ite (fun _ => unchanged_of_walking (walk_failed h2 hheld hdp)) fun _ => ?_
      refine .ite (fun _ => unchanged_of_walking (walk_failed h2 hheld hdp)) fun _ => ?_
      refine (walk_dirlookup (G := False) h2 hmem (mem_cons_self _ _) False.elim
        name).returns.bind fun r s3 ⟨_, h3⟩ => ?_
      match r with
      | none => exact unchanged_of_walking (walk_failed h3.2 hheld hdp)
      | some (ip, off) =>
        obtain ⟨j, -, -, h3⟩ := h3
        have hmem' := mem_cons_self (ip, (entryOf s.disk (inoOf sb s.disk i) j).inum)
          ((dp, i) ::ₘ 0)
        refine (lock_pin h3 hmem').bind fun _ s4 ⟨hip, h4⟩ => .get_bind ?_
        refine .ite (fun _ => .stop trivial) fun _ => ?_
        refine (walk_dirBusy h4 hmem' (mem_cons_self _ _)).bind fun busy s5 heq => ?_
        cases heq.symm
        refine .ite (fun _ => ?_) fun _ => (unlinkEntry_returns dp ip off).post fun r _ hr h1 => ?_
        · refine (put_pin h4 hheld hip).bind fun _ s5 h5 => ?_
          exact unchanged_of_walking (walk_failed h5 hheld hdp)
        · rw [hr] at h1
          cases h1

variable (hal : Allows sb c who.id)

include hal

/-- What comes of `create` in a transaction. -/
theorem walk_beginCreate (path : Str) (type major minor : Int16) :
    Sat (do beginOp; create sb who path type major minor) s
      (fun r s' => Finished sb who s path type s' r) Any :=
  .bind (Sat.and (walk_beginOp h.walking) (ok_beginOp h).returns) fun _ _ ⟨h1, hok1⟩ =>
    walk_create h1 hok1 hal hcwd hheld (h.ref_pos hcwd) path type major minor

/-- The end of `mkdir` and `mknod`. -/
theorem failed_created (path : Str) (type major minor : Int16) : Sat (do
    beginOp
    let r ← create sb who path type major minor
    created sb r) s (Fails sb s) Any := by
  refine .assoc ((walk_beginCreate h hheld hcwd hal path type major minor).bind fun r s1 h1 => ?_)
  cases r with
  | none => exact unchanged_of_walking (walk_ended h1.2 _)
  | some ip =>
    refine (created_returns (by simp)).post fun r _ hr h1 => ?_
    rw [hr] at h1
    cases h1

omit hheld hcwd hal in
theorem failed_begin : Sat (do beginOp; ended (-1)) s (Fails sb s) Any :=
  unchanged_of_walking ((walk_beginOp h.walking).bind fun _ _ h1 => walk_ended h1 _)

theorem failed_sysMkdir (path : Option Str) : Sat (sysMkdir sb who path) s (Fails sb s) Any := by
  cases path with
  | none => exact failed_begin h
  | some path => exact failed_created h hheld hcwd hal path T_DIR 0 0

theorem failed_sysMknod (path : Option Str) (major minor : Option Int32) :
    Sat (sysMknod sb who path major minor) s (Fails sb s) Any := by
  match path, major, minor with
  | some path, some major, some minor =>
      exact failed_created h hheld hcwd hal path T_DEV major.toInt16 minor.toInt16
  | none, _, _ => exact failed_begin h
  | some _, none, _ => exact failed_begin h
  | some _, some _, none => exact failed_begin h

/-- `openInode` has changed nothing, unless it has made the file. -/
theorem walk_openInode (path : Str) (omode : UInt32) :
    Sat (openInode sb who path omode) s (fun r s' => match r with
    | none => ¬(omode &&& O_CREATE ≠ 0 ∧ NamesNew sb who s path) ∧ Walking sb s 0 0 s'
    | some ip => (omode &&& O_CREATE ≠ 0 ∧ NamesNew sb who s path) ∧ Fresh sb s.disk ip s' ∨
        ¬(omode &&& O_CREATE ≠ 0 ∧ NamesNew sb who s path) ∧
          ∃ j, Walking sb s {(ip, j)} {ip} s') Any := by
  by_cases hc : omode &&& O_CREATE ≠ 0
  · simp only [openInode, if_pos hc]
    refine .assoc ((walk_beginCreate h hheld hcwd hal path T_FILE 0 0).bind fun r s1 h1 => ?_)
    cases r with
    | none => exact (walk_endOp h1.2).bind fun _ _ h2 => .pure ⟨fun hnew => h1.1 hnew.2, h2⟩
    | some ip =>
      refine .pure (h1.imp (fun hf => ⟨⟨hc, hf.1⟩, hf.2 rfl⟩) fun hw => ⟨fun hnew => ?_, hw.2⟩)
      exact hw.1 hnew.2
  · have hold : ¬(omode &&& O_CREATE ≠ 0 ∧ NamesNew sb who s path) := fun hnew => hc hnew.1
    refine (walk_beginOp h.walking).bind fun _ s1 h1 => .ite (fun h => absurd h hc) fun _ => ?_
    refine (walk_namei h1 hheld (h.ref_pos hcwd) path).bind fun r s2 h2 => ?_
    cases r with
    | none => exact (walk_endOp h2).bind fun _ _ h3 => .pure ⟨hold, h3⟩
    | some ip =>
      obtain ⟨i, h2⟩ := h2
      have hmem := mem_cons_self (ip, i) (0 : Multiset (Slot × ℕ))
      refine (lock_pin h2 hmem).bind fun _ s3 h3 =>
        .get_bind (.ite (fun _ => ?_) fun _ => .pure (.inr ⟨hold, i, h3.2⟩))
      refine (put_pin h3.2 hheld h3.1).bind fun _ s4 h4 => ?_
      exact (walk_endOp h4).bind fun _ _ h5 => .pure ⟨hold, h5⟩

end

/-- The file that has been made stays. -/
theorem fresh_failed (h : Fresh sb D ip s) :
    Sat (failed sb ip) s (fun _ s' => ¬Unchanged sb D s'.disk) Any := by
  obtain ⟨hlink, j, hj, hfree, hty⟩ := h
  refine (disk_iunlockput fun hc => hlink hc.2.1).bind fun _ s1 hd =>
    .modify_bind (.pure fun hu => hty ?_)
  rw [← hd, ← hfree]
  exact congrArg Dinode.type (hu.ino j hj)

/-- `iunlockput(ip); end_op(); return -1;` after `openInode`. -/
theorem failed_exact {new : Prop} (hheld : OrphansHeld sb s₀)
    (h : new ∧ Fresh sb s₀.disk ip s ∨ ¬new ∧ ∃ j, Walking sb s₀ {(ip, j)} {ip} s) :
    Sat (failed sb ip) s (fun _ s' => Unchanged sb s₀.disk s'.disk ↔ ¬new) Any := by
  obtain ⟨hnew, hf⟩ | ⟨hold, j, hw⟩ := h
  · exact (fresh_failed hf).post fun _ _ hno => iff_of_false hno (not_not.mpr hnew)
  · exact (walk_failed (X := 0) (L := 0) hw hheld (Multiset.notMem_zero ip)).post fun _ _ h1 =>
      iff_of_true h1.unchanged hold

theorem walk_chdirTo (h : Walking sb s₀ 0 0 s) (hheld : OrphansHeld sb s₀)
    (hpos : 0 < (s₀.icache who.cwd).ref) (path : Str) :
    Sat (chdirTo sb who path) s (fun r s' => r = none → Walking sb s₀ 0 0 s') Any := by
  refine (walk_namei h hheld hpos path).bind fun r s1 h1 => ?_
  cases r with
  | none => exact (walk_endOp h1).bind fun _ _ h2 => .pure fun _ => h2
  | some ip =>
    obtain ⟨i, h1⟩ := h1
    have hmem := mem_cons_self (ip, i) (0 : Multiset (Slot × ℕ))
    refine (lock_pin h1 hmem).bind fun _ s2 ⟨hip, h2⟩ => .get_bind (.ite (fun _ => ?_) fun _ => ?_)
    · refine (put_pin h2 hheld hip).bind fun _ s3 h3 => ?_
      exact (walk_endOp h3).bind fun _ _ h4 => .pure fun _ => h4
    · exact Sat.any.bind fun _ _ _ => Sat.any.bind fun _ _ _ => Sat.any.bind fun _ _ _ =>
        .pure fun hn => by cases hn

/-! ### Link -/

/-- The inode with `n` links more. -/
def relinked (d : Dinode) (n : Int16) : Dinode := { d with nlink := d.nlink + n }

theorem copyId_relinked {d : Dinode} (h : d.copyId = d) (n : Int16) :
    (relinked d n).copyId = relinked d n := by
  rw [copyId_eq_iff] at h ⊢
  exact h

theorem relinked_back (d : Dinode) : relinked (relinked d 1) (-1) = d := by
  cases d
  simp [relinked, Int16.add_assoc]

/-- The state after `link` has counted the new link of inode `i`, in entry `ip`, and before it
resolves the new path. -/
structure Bumped (sb : Superblock) (s : Fs) (ip : Slot) (i : ℕ) (b : Fs) : Prop where
  base : Walking sb b 0 0 b
  held : OrphansHeld sb b
  type : i < sb.ninodes ∧ (inoOf sb s.disk i).type ≠ 0
  ino : ∀ l, inoOf sb b.disk l = if l = i then relinked (inoOf sb s.disk i) 1 else inoOf sb s.disk l
  data : ∀ n, sb.nmeta ≤ n → b.disk n = s.disk n
  refs : ∀ k, (s.icache k).ref ≤ (b.icache k).ref
  entry : 0 < (b.icache ip).ref ∧ (b.icache ip).inum = i
  last : (inoOf sb s.disk i).nlink = 0 → (b.icache ip).ref ≠ 1

/-- `ip->nlink += n; iupdate(ip);` of an inode that is as on disk. -/
theorem run_addNlink (hi : (s.icache k).inum = i) (hd : (s.icache k).d = inoOf sb D i)
    (hdisk : s.disk = D) (n : Int16) : Sat (addNlink sb k n) s (fun _ s' =>
      s'.icache = update s.icache k { s.icache k with d := relinked (inoOf sb D i) n } ∧
      s'.disk = setDinode sb D i (relinked (inoOf sb D i) n)) Any := by
  have hcopy : (relinked (inoOf sb D i) n).copyId = relinked (inoOf sb D i) n :=
    copyId_relinked (copyId_inoOf D i) n
  refine .bind
    (Q := fun _ s1 => s1 = s.setInode k { s.icache k with d := relinked (s.icache k).d n })
      (.modify rfl) ?_
  rintro _ _ rfl
  refine wrote_iupdate.returns.post fun _ s' hw => ?_
  have hdisk' := hw.disk
  have hcache := hw.icache
  rw [hd] at hdisk' hcache
  refine ⟨hcache, ?_⟩
  rw [hdisk', Fs.setInode_self, Fs.setInode_disk, hcopy, hi, hdisk]

/-- The count goes up, and the lock is given back. -/
theorem bumped_addNlink (hheld : OrphansHeld sb s₀) (hw : Walking sb s₀ {(ip, i)} {ip} s)
    (hok : Ok sb c ((ip, some (j, ty)) ::ₘ H) N s) :
    Sat (do addNlink sb ip 1; iunlock ip) s (fun _ b => Bumped sb s₀ ip i b) Any := by
  have hmem : (ip, i) ∈ ({(ip, i)} : Multiset (Slot × ℕ)) := mem_singleton_self _
  have hinum := hw.inum_of_mem hmem
  have hpos := hw.ref_pos hmem
  obtain ⟨hd, hty⟩ := hw.copy hinum (mem_singleton_self ip)
  refine .bind (Sat.and (ok_addNlink hok (mem_cons_self _ _) 1).returns
    (run_addNlink hinum hd hw.disk 1))
    fun _ s2 ⟨hok2, hc2, hd2⟩ => ?_
  refine (Sat.and (ok_iunlock hok2).returns (.get_bind (.ite (fun _ => .stop trivial) fun _ =>
    .modify (P := fun _ s' => s' = s2.setInode ip { s2.icache ip with lock := false }) rfl))).post ?_
  rintro _ b ⟨hokb, rfl⟩
  -- references and i-numbers are those of the walk
  have hsame : ∀ k, ((s2.setInode ip { s2.icache ip with lock := false }).icache k).ref =
    (s.icache k).ref ∧
      ((s2.setInode ip { s2.icache ip with lock := false }).icache k).inum = (s.icache k).inum := by
    refine Fs.forall_setInode (P := fun k e => e.ref = (s.icache k).ref ∧
      e.inum = (s.icache k).inum) ?_ fun k _ => ?_
    · rw [hc2, update_self]
      exact ⟨rfl, rfl⟩
    · rw [hc2]
      by_cases hk : k = ip
      · subst hk
        rw [update_self]
        exact ⟨rfl, rfl⟩
      · rw [update_of_ne hk]
        exact ⟨rfl, rfl⟩
  have hino : ∀ l, inoOf sb s2.disk l =
      if l = i then relinked (inoOf sb s₀.disk i) 1 else inoOf sb s₀.disk l := fun l => by
    rw [hd2, inoOf_setDinode, copyId_relinked (copyId_inoOf s₀.disk i)]
  refine ⟨hokb.walking, fun l hl htl hnl => ?_, ⟨hw.lt hmem, hty⟩, hino, fun n hn => ?_, fun k =>
    ?_, ?_, fun h0 => ?_⟩
  · by_cases hli : l = i
    · exact ⟨ip, by rw [(hsame ip).1]; exact hpos, by rw [(hsame ip).2, hinum, hli]⟩
    · simp only [Fs.setInode_disk, hino, if_neg hli] at htl hnl
      obtain ⟨k, hk, hkl⟩ := hheld l hl htl hnl
      refine ⟨k, ?_, by rw [(hsame k).2, hw.inum k hk, hkl]⟩
      rw [(hsame k).1, hw.ref k]
      omega
  · rw [Fs.setInode_disk, hd2, setDinode_data (hw.lt hmem) hn]
  · rw [(hsame k).1, hw.ref k]
    omega
  · rw [(hsame ip).1, (hsame ip).2]
    exact ⟨hpos, hinum⟩
  · obtain ⟨k, hk, hki⟩ := hheld i (hw.lt hmem) hty h0
    have hkref := hw.ref k
    obtain rfl : k = ip := hw.uniq k ip (by omega) hpos ((hw.inum k hk).trans (hki.trans hinum.symm))
    have hgrip := grip_pos hmem
    rw [(hsame k).1]
    omega

/-- The label `bad` of `link` takes the link back. -/
theorem failed_linkBad (hdisk : DiskOk sb s₀.disk) (hb : Bumped sb s₀ ip i b)
    (hw : Walking sb b 0 0 s) : Sat (linkBad sb ip) s (fun _ s' => Unchanged sb s₀.disk s'.disk) Any := by
  have href : ∀ k, (s.icache k).ref = (b.icache k).ref := fun k => (hw.ref k).trans (Int.add_zero _)
  have hinum : (s.icache ip).inum = i := (hw.inum ip hb.entry.1).trans hb.entry.2
  refine (walk_ilock (G := False) hw (by rw [href]; exact hb.entry.1) hinum False.elim).returns.bind
    fun _ s1 ⟨_, h₁⟩ => ?_
  have hinum1 : (s1.icache ip).inum = i := (h₁.inum ip hb.entry.1).trans hb.entry.2
  have href1 : (s1.icache ip).ref = (b.icache ip).ref := (h₁.ref ip).trans (Int.add_zero _)
  obtain ⟨hd, -⟩ := h₁.copy hinum1 (mem_cons_self _ _)
  refine (run_addNlink hinum1 hd h₁.disk (-1)).bind fun _ s2 ⟨hc2, hd2⟩ => ?_
  have hback : relinked (inoOf sb b.disk i) (-1) = inoOf sb s₀.disk i := by rw [hb.ino i,
    if_pos rfl, relinked_back]
  rw [hback] at hc2 hd2
  have hsame : Unchanged sb s₀.disk s2.disk := by
    have hdata : ∀ n, sb.nmeta ≤ n → s2.disk n = s₀.disk n := fun n hn => by
      rw [hd2, setDinode_data hb.type.1 hn, hb.data n hn]
    refine ⟨fun l hl => ?_, fun l hl ht x => (untouched_meta hdisk.own hl ht hdata).byteOf x⟩
    rw [hd2, inoOf_setDinode, copyId_inoOf]
    by_cases hli : l = i
    · rw [if_pos hli, hli]
    · rw [if_neg hli, hb.ino l, if_neg hli]
  refine (disk_iunlockput ?_).bind fun _ s3 h3 => .bind (Q := fun _ s' => s'.disk = s3.disk) (.modify rfl)
    fun _ s4 h4 => .pure (by rw [h4, h3]; exact hsame)
  rw [hc2, update_self]
  rintro ⟨-, hn, h1⟩
  exact hb.last hn (href1.symm.trans h1)

/-- `dirlink` that finds the name gives back the inode it found. -/
theorem walk_dirlink (h : Walking sb s₀ X L s) (hheld : OrphansHeld sb s₀) (hk : (k, i) ∈ X)
    (hl : k ∈ L) (name : Str) (inum : ℕ) :
    Sat (dirlink sb k name inum) s (fun r s' => r = false → Walking sb s₀ X L s') Any := by
  refine (walk_dirlookup (G := False) h hk hl False.elim name).returns.bind fun r s1 ⟨_, h1⟩ => ?_
  match r with
  | some (j, off) =>
    obtain ⟨n, -, -, h1⟩ := h1
    exact (walk_iput (G := False) h1 hheld False.elim).returns.bind fun _ _ h2 => .pure fun _ => h2
  | none =>
    refine .get_bind (Sat.any.bind fun _ _ _ => Sat.any.bind fun _ _ _ =>
      .ite (fun _ => .pure fun hf => ?_) fun _ =>
      .stop trivial)
    cases hf

/-- Where `link` is once the new path has been resolved. -/
def Linking (sb : Superblock) (s₀ b s : Fs) : Slot × Option (Slot × Str) → Prop
  | (ip, none) => (∃ i, Bumped sb s₀ ip i b) ∧ Walking sb b 0 0 s
  | (ip, some (dp, _)) => (∃ i, Bumped sb s₀ ip i b) ∧ ∃ j, Walking sb b {(dp, j)} 0 s

theorem failed_linkTo {ip : Slot} {r : Option (Slot × Str)} (hdisk : DiskOk sb s₀.disk)
    (h : Linking sb s₀ b s (ip, r)) : Sat (linkTo sb ip r) s (Fails sb s₀) Any := by
  have hbad : ∀ {i s1}, Bumped sb s₀ ip i b → Walking sb b 0 0 s1 →
      Sat (linkBad sb ip) s1 (Fails sb s₀) Any := fun hb hw =>
    (failed_linkBad hdisk hb hw).post fun _ _ hu _ => hu
  match r with
  | none =>
    obtain ⟨⟨i, hb⟩, hw⟩ := h
    exact hbad hb hw
  | some (dp, name) =>
    obtain ⟨⟨i, hb⟩, j, hw⟩ := h
    have hmem : (dp, j) ∈ ({(dp, j)} : Multiset (Slot × ℕ)) := mem_singleton_self _
    refine (lock_pin hw hmem).bind fun _ s1 ⟨hdp, h₁⟩ => .get_bind (.get_bind ?_)
    have hput : ∀ {s2}, Walking sb b {(dp, j)} (dp ::ₘ 0) s2 → Sat (do iunlockput sb dp; linkBad sb ip) s2
        (Fails sb s₀) Any := fun h2 =>
      (put_pin (X := 0) h2 hb.held hdp).bind fun _ _ h3 => hbad hb h3
    refine .ite (fun _ => hput h₁) fun _ => ?_
    refine (walk_dirlink h₁ hb.held hmem (mem_cons_self _ _) name _).bind fun linked s2 h2 => ?_
    refine .ite (fun _ => ?_) fun hl => hput (h2 (by simpa using hl))
    refine Sat.any.bind fun _ _ _ => Sat.any.bind fun _ _ _ => .bind .any fun _ _ _ => .pure fun h1 => ?_
    cases h1

section

variable (h : Ok sb c H N s) (hheld : OrphansHeld sb s) (hcwd : (who.cwd, q) ∈ H)

include h hheld hcwd

theorem walk_linkFrom (old new : Str) : Sat (linkFrom sb who old new) s (fun r s' => match r with
    | none => Walking sb s 0 0 s'
    | some x => ∃ b, Linking sb s b s' x) Any := by
  have hpos := h.ref_pos hcwd
  refine .bind (Sat.and (walk_beginOp h.walking) (ok_beginOp h).returns) fun _ s1 ⟨h1, hok1⟩ => ?_
  refine .bind (Sat.and (walk_namei h1 hheld hpos old) (ok_namei hok1 hcwd old).returns)
    fun r s2 ⟨h2, hok2⟩ => ?_
  cases r with
  | none => exact (walk_endOp h2).bind fun _ _ h3 => .pure h3
  | some ip =>
    obtain ⟨i, h2⟩ := h2
    have hmem : (ip, i) ∈ ({(ip, i)} : Multiset (Slot × ℕ)) := mem_singleton_self _
    refine .bind (Sat.and (lock_pin h2 hmem) (ok_ilock hok2).returns) fun _ s3 ⟨⟨hip, h3⟩, j, ty,
      hok3, _⟩ => .get_bind (.ite (fun _ => ?_) fun _ => ?_)
    · exact (walk_failed (X := 0) h3 hheld hip).bind fun _ _ h4 => .pure h4
    · refine .assoc ((bumped_addNlink hheld h3 hok3).bind fun _ b hb => ?_)
      refine (walk_namex (G := False) hb.base hb.held (hpos.trans_le (hb.refs _)) new true
        False.elim).returns.bind fun r s4 h4 => ?_
      match r with
      | none => exact .pure ⟨b, ⟨i, hb⟩, h4.2⟩
      | some (dp, _) =>
        obtain ⟨j, -, -, h4⟩ := h4
        exact .pure ⟨b, ⟨i, hb⟩, j, h4⟩

theorem failed_sysLink (old new : Option Str) : Sat (sysLink sb who old new) s (Fails sb s) Any := by
  match old, new with
  | some old, some new =>
    refine (walk_linkFrom h hheld hcwd old new).bind fun r s1 h1 => ?_
    match r with
    | none => exact .pure fun _ => h1.unchanged
    | some (ip, r) =>
      obtain ⟨b, h1⟩ := h1
      exact failed_linkTo h.disk h1
  | none, _ => exact .pure fun _ => .refl _
  | some _, none => exact .pure fun _ => .refl _

end

end

/-! ### The kernel -/

def OnNames : Call → Prop
  | .open _ _ => True
  | .mkdir _ => True
  | .mknod _ _ _ => True
  | .link _ _ => True
  | .unlink _ => True
  | .chdir _ => True
  | _ => False

/-- The call is an `open` that makes a file. -/
def Makes (sb : Superblock) (p : Fin NPROC) (K : Kernel) : Call → Prop
  | .open (some path) (some omode) => ∃ cwd, (K.proc p).cwd = some cwd ∧
      omode &&& O_CREATE ≠ 0 ∧ NamesNew sb ⟨(K.proc p).id, cwd⟩ K.fs path
  | _ => False

/-- There is a free file structure, and a free descriptor. -/
def Roomy (p : Fin NPROC) (K : Kernel) : Prop := (∃ f, (K.file f).ref = 0) ∧ ∃ fd,
    (K.proc p).ofile fd = none

/-- Files that are free have been closed. -/
def Closed (K : Kernel) : Prop := ∀ f, (K.file f).ref = 0 → (K.file f).type ≠ .inode

/-- The disk, the processes and the open files are the same. -/
structure SameNames (sb : Superblock) (K K' : Kernel) : Prop where
  disk : Unchanged sb K.fs.disk K'.fs.disk
  proc : K'.proc = K.proc
  file : ∀ f, 0 < (K.file f).ref → K'.file f = K.file f

section

variable {sb : Superblock} {K K' : Kernel} {p : Fin NPROC} {call : Call}

theorem SameNames.of_fs {s : Fs} (h : Unchanged sb K.fs.disk s.disk) :
    SameNames sb K { K with fs := s } :=
  ⟨h, rfl, fun _ _ => rfl⟩

variable (h : Intact sb K) (hheld : OrphansHeld sb K.fs)

include h in
theorem failed_asCaller {x : Caller → FsM ℤ}
    (hx : ∀ {c H who q}, Ok sb c H [] K.fs → (who.cwd, q) ∈ H → Allows sb c who.id →
      Sat (x who) K.fs (Fails sb K.fs) Any) :
    Sat (asCaller p x) K (fun r K' => r = -1 → SameNames sb K K') Any := by
  obtain ⟨A, h⟩ := h.start ∅ Set.univ
  refine caller_bind trivial fun cwd hcwd => ?_
  obtain ⟨q, hq⟩ := h.cwd_mem hcwd
  exact .zoom ((hx h.fs hq fun j _ _ => Set.mem_univ j).post fun _ _ hu hr => .of_fs (hu hr))

include h hheld in
theorem failed_sysChdir (path : Option Str) :
    Sat (sysChdir sb p path) K (fun r K' => r = -1 → SameNames sb K K') Any := by
  obtain ⟨A, h⟩ := h.start ∅ ∅
  refine caller_bind trivial fun cwd hcwd => ?_
  obtain ⟨q, hq⟩ := h.cwd_mem hcwd
  refine onFs_bind (walk_beginOp h.fs.walking) fun _ s h₁ => ?_
  cases path with
  | none => exact .zoom ((walk_ended h₁ _).post fun _ _ h2 _ => .of_fs h2.unchanged)
  | some path =>
    refine onFs_bind (walk_chdirTo h₁ hheld (h.fs.ref_pos hq) path) fun r s2 h2 => ?_
    cases r with
    | none => exact .pure fun _ => .of_fs (h2 rfl).unchanged
    | some ip => exact .modify_bind (.pure fun h1 => by cases h1)

/-- The first free file structure. -/
theorem sat_filealloc (K : Kernel) : Sat filealloc K (fun r K' => match r with
    | none => K' = K ∧ ∀ f, (K.file f).ref ≠ 0
    | some f => (K.file f).ref = 0 ∧
        K' = { K with file := update K.file f { K.file f with ref := 1 } }) Any := by
  refine .get_bind ?_
  split
  · rename_i hnone
    refine .pure ⟨rfl, fun f => ?_⟩
    have := List.find?_eq_none.mp hnone f (List.mem_finRange f)
    simpa using this
  · rename_i f hf
    have h0 := List.find?_some hf
    exact .modify_bind (.pure ⟨by simpa using h0, rfl⟩)

/-- The first free descriptor. -/
theorem sat_fdalloc (K : Kernel) (f : Fin NFILE) : Sat (fdalloc p f) K (fun r K' => r = none →
    K' = K ∧ ∀ fd, (K.proc p).ofile fd ≠ none) Any := by
  refine .get_bind ?_
  split
  · rename_i hnone
    refine .pure fun _ => ⟨rfl, fun fd => ?_⟩
    have := List.find?_eq_none.mp hnone fd (List.mem_finRange fd)
    simpa using this
  · exact .modify_bind (.pure fun hn => by cases hn)

/-- A file that was just allocated is closed. -/
theorem sat_fileclose (K : Kernel) (f : Fin NFILE) (h1 : (K.file f).ref = 1)
    (ht : (K.file f).type ≠ .inode) :
    Sat (fileclose sb f) K (fun _ K' => K'.fs = K.fs ∧ K'.proc = K.proc ∧ ∀ f', f' ≠ f →
      K'.file f' = K.file f') Any := by
  refine .get_bind (.ite (fun _ => .stop trivial) fun _ => .ite (fun hlt => ?_) fun _ => .modify_bind ?_)
  · rw [h1] at hlt
    cases hlt
  · exact .when (fun hc => absurd hc ht) fun _ => ⟨rfl, rfl, fun f' hf => update_of_ne hf _ _⟩

include h hheld in
/-- An `open` that has failed has changed something if it made a file, and then there was no room
for it. -/
theorem failed_sysOpen (hclosed : Closed K) (path : Option Str) (omode : Option UInt32) :
    Sat (sysOpen sb p path omode) K (fun r K' => r = -1 →
      (SameNames sb K K' ↔ ¬Makes sb p K (.open path omode)) ∧
      (Makes sb p K (.open path omode) → ¬Roomy p K)) Any := by
  have hfetch : (SameNames sb K K ↔ ¬False) ∧ (False → ¬Roomy p K) :=
    ⟨iff_of_true ⟨.refl _, rfl, fun _ _ => rfl⟩ id, False.elim⟩
  match path, omode with
  | none, _ => exact .pure fun _ => hfetch
  | some _, none => exact .pure fun _ => hfetch
  | some path, some omode =>
    obtain ⟨A, h⟩ := h.start ∅ Set.univ
    refine caller_bind trivial fun cwd hcwd => ?_
    obtain ⟨q, hq⟩ := h.cwd_mem hcwd
    have hmakes : Makes sb p K (.open (some path) (some omode)) ↔
        omode &&& O_CREATE ≠ 0 ∧ NamesNew sb ⟨(K.proc p).id, cwd⟩ K.fs path := by
      simp only [Makes, hcwd, Option.some.injEq, exists_eq_left']
    simp only [hmakes]
    refine onFs_bind (walk_openInode h.fs hheld hq (fun j _ _ => Set.mem_univ j) path omode)
      fun r s h₁ => ?_
    cases r with
    | none => exact .pure fun _ => ⟨iff_of_true (.of_fs h₁.2.unchanged) h₁.1, fun hc => absurd hc h₁.1⟩
    | some ip =>
      have hfailed := failed_exact hheld h₁
      refine (sat_filealloc _).bind fun f K2 h2 => ?_
      cases f with
      | none =>
        obtain ⟨rfl, hfull⟩ := h2
        refine .zoom (hfailed.post fun _ s' hiff _ =>
          ⟨⟨fun hs => hiff.mp hs.disk, fun hno => .of_fs (hiff.mpr hno)⟩, fun _ hroom => ?_⟩)
        obtain ⟨f, hf⟩ := hroom.1
        exact hfull f hf
      | some f =>
        obtain ⟨h0, rfl⟩ := h2
        refine (sat_fdalloc _ f).bind fun fd K3 h3 => ?_
        cases fd with
        | none =>
          obtain ⟨rfl, hfull⟩ := h3 rfl
          refine (sat_fileclose _ f (by simp) (by simpa using hclosed f h0)).bind
            fun _ K4 ⟨hfs, hproc, hfile⟩ => ?_
          have hsame : ∀ f', 0 < (K.file f').ref → K4.file f' = K.file f' := fun f' hf' => by
            have hne : f' ≠ f := by
              rintro rfl
              exact hf'.ne' h0
            exact (hfile f' hne).trans (update_of_ne hne _ _)
          refine .zoom ?_
          rw [hfs]
          refine hfailed.post fun _ s' hiff _ =>
            ⟨⟨fun hs => hiff.mp hs.disk, fun hno => ⟨hiff.mpr hno, hproc, hsame⟩⟩, fun _ hroom =>
              ?_⟩
          obtain ⟨fd, hfd⟩ := hroom.2
          exact hfull fd hfd
        | some fd =>
          refine Sat.any.bind fun _ _ _ => .modify_bind (.pure fun h1 => ?_)
          have := Int.natCast_nonneg fd.val
          rw [h1] at this
          cases this

/-- **A call on names that fails has changed nothing**, unless it is an `open` that makes a file it
has no room to open. Then it has. -/
theorem failed_changes_nothing (h : Intact sb K) (hheld : OrphansHeld sb K.fs) (hclosed : Closed K)
    (hcall : OnNames call) (hret : syscall sb p call K = .ok (-1, K')) :
    SameNames sb K K' ↔ (Makes sb p K call → Roomy p K) := by
  match call with
  | .open path omode =>
    obtain ⟨hiff, hfull⟩ := (failed_sysOpen h hheld hclosed path omode).of_ok hret rfl
    rw [hiff]
    exact ⟨fun hno hm => absurd hm hno, fun hroom hm => hfull hm (hroom hm)⟩
  | .mkdir path =>
    exact iff_of_true
      ((failed_asCaller h fun hok hq hal => failed_sysMkdir hok hheld hq hal path).of_ok hret rfl)
        False.elim
  | .mknod path major minor =>
    exact iff_of_true
      ((failed_asCaller h fun hok hq hal => failed_sysMknod hok hheld hq hal path major minor).of_ok
        hret rfl)
      False.elim
  | .link old new =>
    exact iff_of_true ((failed_asCaller h fun hok hq _ => failed_sysLink hok hheld hq old new).of_ok
      hret rfl) False.elim
  | .unlink path =>
    exact iff_of_true ((failed_asCaller h fun hok hq _ => failed_sysUnlink hok hheld hq path).of_ok
      hret rfl) False.elim
  | .chdir path => exact iff_of_true ((failed_sysChdir h hheld path).of_ok hret rfl) False.elim

end

/-! ### Runs -/

/-- The file "f" in a directory "d". -/
def openNew : Call := .open (some [100, 47, 102]) (some O_CREATE)

set_option maxRecDepth 100000 in
/-- There is no directory "d" to make it in. -/
theorem failed_changes_nothing_open : ∃ K', syscall smallSb 0 openNew (boot (bareDisk 61) []) =
    .ok (-1, K') ∧ SameNames smallSb (boot (bareDisk 61) []) K' := by
  have hrun : ((syscall smallSb 0 openNew (boot (bareDisk 61) [])).toOption.any fun x => x.1 = -1) =
    true ∧
      (∀ i < 16, (inoOf smallSb (bareDisk 61) i).type = 0 ∨ (inoOf smallSb (bareDisk 61) i).nlink ≠ 0) ∧
      ((boot (bareDisk 61) []).proc 0).cwd.all
        (fun cwd => follow smallSb (searchable ((boot (bareDisk 61) []).proc 0).id)
        (bareDisk 61) true (startInum ⟨((boot (bareDisk 61) []).proc 0).id, cwd⟩ [100, 47, 102]
          (boot (bareDisk 61) []).fs)
        (components [100, 47, 102]) = none) = true := by
    decide +kernel
  obtain ⟨hrun, hlinks, hno⟩ := hrun
  rcases hret : syscall smallSb 0 openNew (boot (bareDisk 61) []) with e | ⟨r, K'⟩
  · rw [hret] at hrun
    cases hrun
  · rw [hret] at hrun
    obtain rfl : r = -1 := of_decide_eq_true hrun
    have hheld : OrphansHeld smallSb (boot (bareDisk 61) []).fs := fun i hi hty hnl =>
      absurd hnl ((hlinks i hi).resolve_left hty)
    have hcall : OnNames openNew := trivial
    refine ⟨K', rfl, (failed_changes_nothing (intact_boot fsck_bareDisk.image.diskOk []) hheld
      (fun f _ => by simp [boot, File.zero]) hcall hret).mpr ?_⟩
    rintro ⟨cwd, hcwd, -, i, hi, -⟩
    rw [hcwd] at hno
    cases hi.symm.trans (of_decide_eq_true hno)

/-- Root opens the root directory, duplicates the descriptor until there is no other, and makes the
file "f". -/
def fullCalls : List Move :=
  ⟨0, .open (some dot) (some 0)⟩ :: List.replicate 15 ⟨0, .dup (some 0)⟩ ++
    [⟨0, .open (some [102]) (some 0x200)⟩]

set_option maxRecDepth 100000 in
/-- The `open` returns -1, but the file is there. -/
theorem created_and_failed : Image smallSb (bareDisk 61) ∧ ∃ log K,
    Reach smallSb (boot (bareDisk 61) []) log K ∧ log.map Turn.move = fullCalls ∧ ∃ t ∈ log,
    t.r = -1 ∧ OnNames t.move.call ∧ ¬SameNames smallSb t.before t.after := by
  have hrun : (play smallSb (boot (bareDisk 61) []) fullCalls).map (fun x => x.1.getLast?.any fun t =>
      t.r = -1 && ((inoOf smallSb t.before.fs.disk 2).type =
        0 && (inoOf smallSb t.after.fs.disk 2).type = T_FILE)) = some true := by
    decide +kernel
  obtain ⟨log, K, hr, hms, hobs⟩ := exists_reach hrun
  obtain ⟨t, ht, hbad⟩ := (Option.any_eq_true _ _).mp hobs
  simp only [Bool.and_eq_true, decide_eq_true_eq] at hbad
  obtain ⟨hret, hbefore, hafter⟩ := hbad
  have hmove : t.move = ⟨0, .open (some [102]) (some 0x200)⟩ := by
    have hlast : (log.map Turn.move).getLast? = some t.move := by rw [List.getLast?_map, ht]; rfl
    rw [hms] at hlast
    exact (Option.some.inj hlast).symm
  refine ⟨fsck_bareDisk.image, log, K, hr, hms, t, List.mem_of_getLast? ht, hret,
    by rw [hmove]; trivial, fun hsame => ?_⟩
  rw [hsame.disk.ino 2 (by decide), hbefore] at hafter
  cases hafter

end Xv6
