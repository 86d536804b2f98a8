/-
# System calls keep the file system sound

Every system call takes a kernel with a sound file system to one, with three exceptions: the
account calls that change the user table write the account file and make a home directory
without looking at what they write to. `addUser` searches the root directory without having read its
inode, so the copy in the cache has to be there already; and `addUser` and `deleteUser` write
the table to `utable.ip`, which must not be a directory (`Sane`).

The pointers that processes and open files hold are counted (`bag`); a file that is open for
writing is not a directory (`Sound`).
-/
import Xv6.FileCalls
import Xv6.Fs.Names

namespace Xv6

open Prog
open Function (update update_self update_of_ne)
open Multiset (mem_cons_self mem_cons_of_mem cons_add add_cons)

section

variable {sb : Superblock} {c : Ctx} {H : Multiset Handle} {N : List Fact} {s s' : Fs} {i : ℕ}
  {j k : Slot} {ty : Int16} {q : Option (ℕ × Int16)} {who : Caller} {α : Type} {dp ip root : Slot}

/-! ### exec.c -/

theorem ok_loaduvm (hk : (k, some (i, ty)) ∈ H) (offset sz : ℕ) : ∀ (fuel n : ℕ) {s : Fs}, Ok sb c H N s →
    Sat (loaduvm sb k offset sz fuel n) s (fun _ => Ok sb c H N) Fine
  | 0, _, _, h => .pure h
  | fuel + 1, n, s, h => by
    refine .ite (fun _ => .pure h) fun _ => (ok_readi h hk _ _).bind fun r s1 h1 => ?_
    exact .ite (fun _ => ok_loaduvm hk offset sz fuel _ h1.1) fun _ => .pure h1.1

theorem ok_loadSegments (hk : (k, some (i, ty)) ∈ H) (mem : ExecMem) : ∀ (n off sz : ℕ) {s : Fs},
    Ok sb c H N s → Sat (loadSegments sb mem k n off sz) s (fun _ => Ok sb c H N) Fine
  | 0, _, _, _, h => .pure h
  | n + 1, off, sz, s, h => by
    refine (ok_readi h hk _ _).bind fun r s1 h1 => ?_
    match r with
    | none => exact .pure h1.1
    | some ph =>
      refine .ite (fun _ => .pure h1.1) fun _ => .ite (fun _ => ok_loadSegments hk mem n _ _ h1.1)
        fun _ => ?_
      refine .ite (fun _ => .pure h1.1) fun _ => (ok_loaduvm hk _ _ _ _ h1.1).bind fun r s2 h2 => ?_
      exact .ite (fun _ => ok_loadSegments hk mem n _ _ h2) fun _ => .pure h2

theorem ok_loadImage (h : Ok sb c H N s) (hk : (k, some (i, ty)) ∈ H) (mem : ExecMem) :
    Sat (loadImage sb mem k) s (fun _ => Ok sb c H N) Fine := by
  refine (ok_readi h hk _ _).bind fun r s1 h1 => ?_
  match r with
  | none => exact .pure h1.1
  | some elf => exact .ite (fun _ => .pure h1.1) fun _ => ok_loadSegments hk mem _ _ _ h1.1

theorem ok_exec (h : Ok sb c H N s) (hcwd : (who.cwd, q) ∈ H) (path : Str) (mem : ExecMem) :
    Sat (exec sb who path mem) s (fun _ => Ok sb c H N) Fine := by
  refine (ok_beginOp h).bind fun _ s1 h1 => (ok_namei h1 hcwd _).bind fun r s2 h2 => ?_
  match r with
  | none => exact ok_ended h2 _
  | some ip =>
    refine (ok_ilock h2).bind fun _ s3 ⟨i, ty, h3, _⟩ =>
      .get_bind (.ite (fun _ => ok_failed h3) fun _ => ?_)
    refine (ok_loadImage h3 (mem_cons_self _ _) mem).bind fun r s4 h4 =>
      .ite (fun _ => ?_) fun _ => ?_
    · exact (ok_iunlockput h4).bind fun _ s5 h5 => (ok_endOp h5).bind fun _ s6 h6 => .pure h6
    · exact ok_failed h4

/-! ### file.c and sysfile.c -/

theorem ok_putInOp (h : Ok sb c ((k, q) ::ₘ H) N s) : Sat (putInOp sb k) s (fun _ => Ok sb c H N) Fine :=
  (ok_beginOp h).bind fun _ _ h1 => (ok_iput h1).bind fun _ _ h2 => ok_endOp h2

theorem ok_readInOp (h : Ok sb c H N s) (off n : ℕ) :
    Sat (readInOp sb k off n) s (fun _ => Ok sb c H N) Fine := by
  refine (ok_beginOp h).bind fun _ s1 h1 => (ok_ilock_valid h1).bind fun _ s2 ⟨h2, hpos, hv, _⟩ => ?_
  obtain ⟨H', h2', hk, -, hback⟩ := h2.pin hpos hv
  refine (ok_readi h2' hk off n).bind fun r s3 h3 => (ok_iunlock (hback _ _ h3.1)).bind fun _ s4 h4 => ?_
  exact (ok_endOp h4).bind fun _ s5 h5 => .pure h5

/-- A write to a file that is not a directory. -/
theorem ok_writeInOp (h : Ok sb c H N s) (hk : (k, some (i, ty)) ∈ H) (hty : ty ≠ T_DIR) (src : Str)
    (off : ℕ) : Sat (writeInOp sb k src off) s (fun _ => Ok sb c H N) Fine := by
  refine (ok_beginOp h).bind fun _ s1 h1 => (ok_ilock_valid h1).bind fun _ s2 h2 => ?_
  refine (ok_writei h2.1 hk src off fun hdir => absurd hdir hty).bind fun r s3 h3 => ?_
  exact (ok_iunlock h3).bind fun _ s4 h4 => (ok_endOp h4).bind fun _ s5 h5 => .pure h5

/-- What `openInode` returns: an inode, locked, that is not a directory if it is open for
writing. -/
def Opens (sb : Superblock) (c : Ctx) (H : Multiset Handle) (N : List Fact) (omode : UInt32) (s : Fs) :
    Option Slot → Prop
  | none => Ok sb c H N s
  | some ip => ∃ i ty, Ok sb c ((ip, some (i, ty)) ::ₘ H) N s ∧
      (omode &&& O_WRONLY ≠ 0 ∨ omode &&& O_RDWR ≠ 0 → ty ≠ T_DIR)

/-- The check that an `open` with this `omode` makes of an inode that is there. -/
def passes (id : Ident) (d : Dinode) (omode : UInt32) : Bool :=
  if omode &&& O_CREATE ≠ 0 then permits id d MODE_WUSR MODE_WOTH else mayOpen id d omode

theorem ok_openInode_passes (h : Ok sb c H N s) (hcwd : (who.cwd, q) ∈ H) (hal : Allows sb c who.id)
    (path : Str) (omode : UInt32) :
    Sat (openInode sb who path omode) s (fun r s' => Opens sb c H N omode s' r ∧ ∀ ip, r = some ip →
      passes who.id (s'.icache ip).d omode = true ∨ ¬Live sb c s' (s'.icache ip).inum) Fine := by
  refine (ok_beginOp h).bind fun _ s1 h1 => .ite (fun hc => ?_) fun hc => ?_
  · refine (ok_create_permits h1 hcwd hal path (by decide) 0 0).bind fun r s2 ⟨h2, hp⟩ => ?_
    match r with
    | none => exact (ok_endOp h2).bind fun _ s3 h3 => .pure ⟨h3, fun ip he => by cases he⟩
    | some ip =>
      obtain ⟨i, h2⟩ := h2
      refine .pure ⟨⟨i, T_FILE, h2, fun _ => by decide⟩, fun ip' he => ?_⟩
      rw [passes, if_pos hc]
      exact hp ip' he
  · refine (ok_namei h1 hcwd path).bind fun r s2 h2 => ?_
    match r with
    | none => exact (ok_endOp h2).bind fun _ s3 h3 => .pure ⟨h3, fun ip he => by cases he⟩
    | some ip =>
      refine (ok_ilock h2).bind fun _ s3 ⟨i, ty, h3, _⟩ => .get_bind (.ite (fun _ => ?_) fun hno => ?_)
      · refine (ok_iunlockput h3).bind fun _ s4 h4 => (ok_endOp h4).bind fun _ s5 h5 =>
          .pure ⟨h5, fun ip he => ?_⟩
        cases he
      · rw [not_or, not_and, not_not] at hno
        refine .pure ⟨⟨i, ty, h3, fun hw hdir => ?_⟩, fun ip' he => .inl ?_⟩
        · have hty := (h3.known _ (mem_cons_self _ _) _ _ rfl).2.2
          rw [hno.2 (hty.trans hdir)] at hw
          exact hw.elim (fun h => h (by decide)) fun h => h (by decide)
        · cases he
          rw [passes, if_neg hc]
          simpa using hno.1

theorem ok_openInode (h : Ok sb c H N s) (hcwd : (who.cwd, q) ∈ H) (hal : Allows sb c who.id) (path : Str)
    (omode : UInt32) : Sat (openInode sb who path omode) s (fun r s' => Opens sb c H N omode s' r) Fine :=
  (ok_openInode_passes h hcwd hal path omode).post fun _ _ h1 => h1.1

/-- The pointers of a process after `chdir`: to the old directory or to the new one. -/
theorem ok_chdirTo (h : Ok sb c ((who.cwd, none) ::ₘ H) N s) (path : Str) :
    Sat (chdirTo sb who path) s (fun r s' => Ok sb c ((r.getD who.cwd, none) ::ₘ H) N s') Fine := by
  refine (ok_namei h (mem_cons_self _ _) path).bind fun r s1 h1 => ?_
  match r with
  | none => exact (ok_endOp h1).bind fun _ s2 h2 => .pure h2
  | some ip =>
    refine (ok_ilock h1).bind fun _ s2 ⟨i, ty, h2, _⟩ => .get_bind (.ite (fun _ => ?_) fun _ => ?_)
    · exact (ok_iunlockput h2).bind fun _ s3 h3 => (ok_endOp h3).bind fun _ s4 h4 => .pure h4
    · refine (ok_iunlock h2.forget).bind fun _ s3 h3 => (ok_iput h3.swap).bind fun _ s4 h4 => ?_
      exact (ok_endOp h4).bind fun _ s5 h5 => .pure h5

/-! ### The account file -/

/-- A table cannot be written only to a device that nothing drives. -/
theorem writei_table (table : UTable) : Sat (writei sb k table.bytes 0) s
    (fun r _ => r = none ↔ (s.icache k).d.type = T_DEV ∧ !hasDriver (s.icache k).d.major)
      Any := by
  have hlen : table.bytes.length = 320 := table.bytes_length
  refine .get_bind (.ite (fun hT => .ite (fun hd => ?_) fun hd => ?_) fun hT => ?_)
  · refine Sat.any.bind fun _ _ _ => Sat.any.bind fun _ _ _ => .pure ?_
    simp [hd]
  · exact .pure (by simpa [hT] using hd)
  · refine .ite (fun hoff => ?_) fun _ => .ite (fun hbig => ?_) fun _ => ?_
    · omega
    · rw [maxfile_bytes] at hbig
      omega
    · refine Sat.any.bind fun _ _ _ => Sat.any.bind fun _ _ _ => .pure ?_
      simp [hT]

/-- The file-system part of `usysinit` has found a directory, and written what it made. -/
def Setup.Reached : Setup → Prop
  | .unreachable => False
  | .unwritten => False
  | _ => True

theorem ok_makeAccounts (h : Ok sb c ((dp, some (i, T_DIR)) ::ₘ H) N s)
    (hmay : Fact.may i ∈ N) (name : Str) :
    Sat (makeAccounts sb dp name) s (fun r s' => Ok sb c H N s' ∧ r.Reached) Fine := by
  refine .get_bind ?_
  rw [(h.slot dp (h.ref_pos (mem_cons_self _ _))).dev]
  refine (ok_ialloc h).bind fun ip s1 ⟨j, h1, hj, hty, _⟩ => ?_
  refine (ok_ilock h1).bind fun _ s2 hs2 => ?_
  obtain ⟨j', ty', h2, hj', hd⟩ := hs2
  obtain rfl : j' = j := hj'.trans hj
  have hip : (ip, some (j', ty')) ∈ (ip, some (j', ty')) ::ₘ (dp, some (i, T_DIR)) ::ₘ H :=
    mem_cons_self _ _
  have hdp : (dp, some (i, T_DIR)) ∈ (ip, some (j', ty')) ::ₘ (dp, some (i, T_DIR)) ::ₘ H :=
    mem_cons_of_mem (mem_cons_self _ _)
  obtain rfl : ty' = T_FILE := by rw [← (h2.at_known hip).2.2.2.2.1, hd, hty]
  refine .assoc ((ok_initInode h2 hip (by simp) _ _ _).bind fun _ s3 h3 => .get_bind ?_)
  obtain ⟨hnum, -, hlt, -⟩ := h3.at_known hip
  rw [hnum]
  refine (ok_dirlink h3 hdp (by simp [hmay]) _ hlt).bind fun r s4 h4 => ?_
  refine .ite (fun _ => .stop (by simp [Fine])) fun _ => ?_
  have hfile : (s4.icache ip).d.type = T_FILE := (h4.known _ hip _ _ rfl).2.2
  refine .bind ((ok_writei h4 hip _ _ fun hdir => by cases hdir).and (writei_table _))
    fun r s5 hwrote => ?_
  obtain ⟨h5, hnone⟩ := hwrote
  cases r with
  | none =>
    -- a file just made is not a device
    rw [hfile] at hnone
    exact absurd (hnone.mp rfl).1 (by decide)
  | some _ =>
    refine (ok_iupdate h5 hdp).bind fun _ s6 h6 => (ok_iupdate h6 hip).bind fun _ s7 h7 => ?_
    refine (ok_iunlockput h7.swap).bind fun _ s8 h8 => (ok_iunlock h8).bind fun _ s9 h9 => ?_
    exact .pure ⟨h9.tail.unlearn.unlearn, trivial⟩

/-- `iunlock` of an entry that is not locked is a panic. -/
theorem iunlock_unlocked (hl : (s.icache k).lock = false) : Sat (iunlock k) s (fun _ _ => False) Fine :=
  .get_bind (.ite (fun _ => .stop (by simp [Fine])) fun hno => absurd (.inl (by simp [hl])) hno)

theorem unlocked_bmap (hl : (s.icache k).lock = false) (bn : ℕ) :
    Sat (bmap sb k bn) s (fun _ s' => (s'.icache k).lock = false) Fine := by
  have hor : ∀ {s : Fs} {addr : UInt32} {store : ℕ → FsM Unit}, (s.icache k).lock = false →
      (∀ b s', (s'.icache k).lock = false →
        Sat (store b) s' (fun _ s' => (s'.icache k).lock = false) Fine) →
      Sat (orAlloc sb addr store) s (fun _ s' => (s'.icache k).lock = false) Fine := fun hl hst =>
    .ite (fun _ => (wrote_ballocFrom _ _).bind fun b s1 h1 =>
      (hst b s1 (by rw [h1.2.2.icache]; exact hl)).bind fun _ _ h2 => .pure h2) fun _ => .pure hl
  refine .get_bind ?_
  split
  · exact hor hl fun b s1 h1 => .modify (by simpa using h1)
  · refine .ite (fun _ => ?_) fun _ => .stop (by simp [Fine])
    refine (hor hl fun b s1 h1 => .modify (by simpa using h1)).bind fun a s1 h1 => .get_bind ?_
    exact hor h1 fun b s2 h2 => (wrote_logWrite _ _).post fun _ s3 h3 => by rw [h3.icache]; exact h2

/-- Whatever is in the cache, `readi` does not lock the entry. -/
theorem unlocked_readLoop : ∀ (fuel off n : ℕ) {s : Fs}, (s.icache k).lock = false →
    Sat (readLoop sb k fuel off n) s (fun _ s' => (s'.icache k).lock = false) Fine
  | 0, _, _, _, hl => .pure hl
  | fuel + 1, off, n, s, hl => by
    refine .ite (fun _ => .pure hl) fun _ => (unlocked_bmap hl _).bind fun b s1 h1 => .get_bind ?_
    exact (unlocked_readLoop fuel _ _ h1).bind fun _ s2 h2 => .pure h2

theorem unlocked_readi (hl : (s.icache k).lock = false) (off n : ℕ) :
    Sat (readi sb k off n) s (fun _ s' => (s'.icache k).lock = false) Fine := by
  refine .get_bind (.ite (fun _ => .ite (fun _ => ?_) fun _ => .pure hl) fun _ => ?_)
  · exact (iunlock_unlocked hl).bind fun _ _ hf => hf.elim
  · exact .ite (fun _ => .pure hl) fun _ => (unlocked_readLoop _ _ _ hl).bind fun _ _ h1 => .pure h1

theorem ok_readAccounts (h : Ok sb c ((ip, none) ::ₘ (dp, q) ::ₘ H) N s)
    {q' : Option (ℕ × Int16)} (hcwd : (who.cwd, q') ∈ H) :
    Sat (readAccounts sb who dp ip) s (fun r s' => Ok sb c H N s' ∧ r.Reached) Fine := by
  refine (ok_iunlockput h.swap).bind fun _ s1 h1 => (ok_ilock h1).bind fun _ s2 hs2 => ?_
  obtain ⟨i, ty, h2, -⟩ := hs2
  refine (ok_namei h2 (mem_cons_of_mem hcwd) _).bind fun r s3 h3 => ?_
  cases r with
  | none => exact .stop (by simp [Fine])
  | some ip' =>
    -- an inode that is locked is valid; unlocking another is a panic
    by_cases hl : (s3.icache ip').lock = true
    · have hv := (h3.locks ip' hl).2
      have hq : Handle.Holds s3 (ip', some ((s3.icache ip').inum, (s3.icache ip').d.type)) :=
        fun _ _ he => by
        cases he
        exact ⟨rfl, hv, rfl⟩
      have h3 := Ok.know (k := ip') h3 hq
      refine (ok_readi h3 (mem_cons_self _ _) _ _).bind fun r s4 hs4 => ?_
      have h4 := hs4.1
      cases r with
      | none =>
        exact (ok_iunlock h4).bind fun _ s5 h5 => (ok_endOp h5).bind fun _ s6 h6 =>
          .pure ⟨h6.tail.tail, trivial⟩
      | some buf => exact (ok_iunlockput h4).bind fun _ s5 h5 => .pure ⟨h5.tail, trivial⟩
    · rw [Bool.not_eq_true] at hl
      refine (unlocked_readi hl _ _).bind fun r s4 h4 => ?_
      cases r with
      | none => exact (iunlock_unlocked h4).bind fun _ _ hf => hf.elim
      | some buf =>
        refine .bind (Q := fun _ _ => False) ?_ fun _ _ hf => hf.elim
        exact (iunlock_unlocked h4).bind fun _ _ hf => hf.elim

/-- The file-system part of `usysinit`, when it may write the directory of the account file. It
fails only if there is no such directory. -/
theorem ok_setupAccounts (h : Ok sb c H N s) (hcwd : (who.cwd, q) ∈ H)
    (hmay : ∀ dp name s1, nameiparent sb who pathname s = .ok (some (dp, name), s1) →
      (Fact.may (s1.icache dp).inum).Holds sb c s1) :
    Sat (setupAccounts sb who) s (fun r s' => Ok sb c H N s' ∧ ∃ x s1,
      nameiparent sb who pathname s = .ok (x, s1) ∧
      if x = none then r = .unreachable else r.Reached) Fine := by
  refine .bind (ok_namex h hcwd pathname true).run fun r s1 ⟨h1, hrun⟩ => ?_
  match r with
  | none => exact .pure ⟨h1, none, s1, hrun, rfl⟩
  | some (dp, name) =>
    have h1 := h1.learn (hmay dp name s1 hrun)
    refine Sat.post (Q := fun r s' => Ok sb c H (.may (s1.icache dp).inum :: N) s' ∧ r.Reached) ?_
      fun r s' h' => ⟨h'.1.unlearn, some (dp, name), s1, hrun, h'.2⟩
    refine (ok_ilock h1).bind fun _ s2 ⟨i, ty, h2, hi, _⟩ => ?_
    refine (ok_dirlookup h2 (mem_cons_self _ _) _).bind fun r s3 ⟨h3, hty, _⟩ => ?_
    subst hty
    match r with
    | none => exact ok_makeAccounts h3 (hi ▸ List.mem_cons_self) name
    | some (ip, _) => exact ok_readAccounts h3 hcwd

/-! ### Users -/

/-- The table is written to a file that is not a directory. -/
theorem ok_writeTable (h : Ok sb c H N s) (hv : 0 < (s.icache k).ref ∧ (s.icache k).valid = true)
    (hfile : (inoOf sb s.disk (s.icache k).inum).type ≠ T_DIR) (table : Str) :
    Sat (writei sb k table 0) s (fun _ => Ok sb c H N) Fine := by
  obtain ⟨H', h', hk, -, hback⟩ := h.pin hv.1 hv.2
  refine (ok_writei h' hk table 0 fun hdir => absurd ?_ hfile).post fun _ _ h1 => hback _ _ h1
  rw [← ((h.slot k hv.1).copy hv.2).1, hdir]

/-- The pointers held after the search for a home directory. -/
def homeHandles (H : Multiset Handle) : Option (Slot × Option (Slot × ℕ)) → Multiset Handle
  | none => H
  | some (dp, found) => finding ((dp, none) ::ₘ H) found

/-- The search for a home directory: the root directory is not locked for it, so its copy in the
cache has to be there. -/
theorem ok_findHome (h : Ok sb c H N s) (hroot : (root, some (ROOTINO, ty)) ∈ H)
    (hfile : (inoOf sb s.disk (s.icache ip).inum).type ≠ T_DIR) (table username : Str) :
    Sat (findHome sb who ip table username) s (fun r s' => Ok sb c (homeHandles H r) N s' ∧
      ∀ x, r = some x → (s'.icache x.1).inum = ROOTINO) Fine := by
  refine (ok_ilock_valid h).bind fun _ s1 ⟨h1, hpos, hv, hnum, hd⟩ => ?_
  refine .bind (ok_writeTable h1 ⟨hpos, hv⟩ (by rw [hnum ip, hd]; exact hfile) table) fun _ s2 h2 => ?_
  refine (ok_iunlock h2).bind fun _ s3 h3 => sat_nameiRoot sb who ?_
  refine (ok_iget h3 sb.root_lt).bind fun dp s4 ⟨h4, hdp⟩ => ?_
  have hmem : (root, some (ROOTINO, ty)) ∈ (dp, none) ::ₘ H := mem_cons_of_mem hroot
  obtain rfl : dp = root := h4.uniq dp root (h4.ref_pos (mem_cons_self _ _)) (h4.ref_pos hmem)
    (hdp.trans (h4.at_known hmem).1.symm)
  refine (ok_dirlookup h4 hmem username).bind fun found s5 ⟨h5, _⟩ => .pure ⟨h5, fun x hx => ?_⟩
  obtain rfl := Option.some.inj hx
  have hmem5 : (dp, some (ROOTINO, ty)) ∈ finding ((dp, none) ::ₘ H) found := by
    cases found with
    | none => exact hmem
    | some x => exact mem_cons_of_mem hmem
  exact (h5.at_known hmem5).1

/-- A home directory is made in the root directory. -/
theorem ok_makeHome (h : Ok sb c ((dp, none) ::ₘ H) N s) (hdp : (dp, some (i, ty)) ∈ H)
    (hmay : Fact.may i ∈ N) (username : Str) :
    Sat (makeHome sb dp username) s (fun _ => Ok sb c H N) Fine := by
  obtain ⟨hdev, hlt, -⟩ := h.slot dp (h.ref_pos (mem_cons_self _ _))
  refine .get_bind ?_
  rw [hdev]
  refine (ok_ialloc h).bind fun ip s1 ⟨j, h1, hj, _⟩ => ?_
  refine (ok_ilock_valid h1).bind fun _ s2 ⟨h2, _, _, hnum, _⟩ => ?_
  refine (ok_ilock h2).bind fun _ s3 ⟨j', ty', h3, hj', _⟩ => ?_
  obtain rfl : j' = j := hj'.trans ((hnum ip).trans hj)
  have hip : (ip, some (j', ty')) ∈ (ip, some (j', ty')) ::ₘ (dp, none) ::ₘ H :=
    mem_cons_self _ _
  have hdp' : (dp, some (i, ty)) ∈ (ip, some (j', ty')) ::ₘ (dp, none) ::ₘ H :=
    mem_cons_of_mem (mem_cons_of_mem hdp)
  refine .assoc ((ok_initInode h3 hip (by simp) _ _ _).bind fun _ s4 h4 => ?_)
  refine (ok_addNlink h4 hdp' _).bind fun _ s5 h5 => .get_bind ?_
  obtain ⟨hjnum, -, hjlt, -⟩ := h5.at_known hip
  rw [hjnum]
  refine (ok_linkDots h5 hip List.mem_cons_self hjlt hlt).bind fun _ s6 h6 => ?_
  refine (ok_dirlink h6 hdp' (by simp [hmay]) _ hjlt).bind fun r s7 h7 => ?_
  refine .ite (fun _ => .stop (by simp [Fine])) fun _ => ?_
  refine (ok_iupdate h7 hip).bind fun _ s8 h8 => (ok_iupdate h8 hdp').bind fun _ s9 h9 => ?_
  refine (ok_iunlockput h9).bind fun _ s10 h10 => (ok_iunlockput h10).post fun _ _ h11 => ?_
  exact h11.unlearn.unlearn

/-- `addUser` after the change of the table, with the root directory in the cache. -/
theorem ok_addUserFs (h : Ok sb c H N s) (hroot : (root, some (ROOTINO, ty)) ∈ H)
    (hfile : (inoOf sb s.disk (s.icache ip).inum).type ≠ T_DIR) (hmay : ROOTINO ∈ c.content)
    (table username : Str) : Sat (addUserFs sb who ip table username) s (fun _ => Ok sb c H N) Fine := by
  refine (ok_findHome h hroot hfile table username).bind fun r s1 ⟨h1, hr⟩ => ?_
  match r with
  | none => exact ok_ended h1 _
  | some (dp, some (home, _)) => exact (ok_ended h1 _).post fun _ _ h2 => h2.tail.tail
  | some (dp, none) =>
    have h1 := h1.learn (f := .may ROOTINO) fun _ => hmay
    have hmem : (root, some (ROOTINO, ty)) ∈ (dp, none) ::ₘ H := mem_cons_of_mem hroot
    obtain rfl : dp = root := h1.uniq dp root (h1.ref_pos (mem_cons_self _ _)) (h1.ref_pos hmem)
      ((hr _ rfl).trans (h1.at_known hmem).1.symm)
    refine sat_unlearn (f := .may ROOTINO) ?_
    exact (ok_makeHome h1 hroot List.mem_cons_self username).bind fun _ s2 h2 => ok_ended h2 0

theorem ok_deleteUserFs (h : Ok sb c H N s)
    (hfile : (inoOf sb s.disk (s.icache ip).inum).type ≠ T_DIR) (table : Str) :
    Sat (deleteUserFs sb ip table) s (fun _ => Ok sb c H N) Fine := by
  refine (ok_ilock_valid h).bind fun _ s1 ⟨h1, hpos, hv, hnum, hd⟩ => ?_
  refine .bind (ok_writeTable h1 ⟨hpos, hv⟩ (by rw [hnum ip, hd]; exact hfile) table) fun r s2 h2 => ?_
  match r with
  | none => exact ok_ended h2 _
  | some _ => exact (ok_iunlock h2).bind fun _ s3 h3 => ok_ended h3 0

end

/-! ### The kernel -/

/-- Who holds a pointer to an inode: an open file, or a process with its current directory. -/
abbrev Holder := Fin NFILE ⊕ Fin NPROC

/-- The pointers that are held. -/
def bag (A : Holder → Option Handle) : Multiset Handle := ∑ x, (A x).elim 0 fun h => {h}

/-- The file system is sound with the pointers of `A` and those of `H`, and `A` has those of
the files and processes. -/
structure Holding (sb : Superblock) (c : Ctx) (H : Multiset Handle) (A : Holder → Option Handle)
    (K : Kernel) : Prop where
  fs : Ok sb c (H + bag A) [] K.fs
  file : ∀ f k, (K.file f).type = .inode → (K.file f).ip = some k → ∃ q, A (.inl f) = some (k, q) ∧
    ((K.file f).writable = true → ∃ i ty, q = some (i, ty) ∧ ty ≠ T_DIR)
  cwd : ∀ p k, (K.proc p).cwd = some k → ∃ q, A (.inr p) = some (k, q)

/-- The kernel is sound, with the pointers of `H` held by the call. -/
def Sound (sb : Superblock) (c : Ctx) (H : Multiset Handle) (K : Kernel) : Prop := ∃ A, Holding sb c H A K

section

variable {A : Holder → Option Handle} {x : Holder} {h : Handle}

theorem bag_eq (A : Holder → Option Handle) (x : Holder) :
    bag A = ((A x).elim 0 fun h => {h}) + bag (update A x none) := by
  rw [bag, bag, ← Finset.add_sum_erase _ _ (Finset.mem_univ x),
    ← Finset.add_sum_erase (s := Finset.univ) (a := x) _ (Finset.mem_univ x), update_self]
  simp only [Option.elim_none, zero_add]
  congr 1
  exact Finset.sum_congr rfl fun y hy => by rw [update_of_ne (Finset.ne_of_mem_erase hy)]

theorem bag_take (hx : A x = some h) : bag A = h ::ₘ bag (update A x none) := by
  rw [bag_eq A x, hx]
  rfl

theorem bag_put : bag (update A x (some h)) = h ::ₘ bag (update A x none) := by
  rw [bag_take (update_self x (some h) A), Function.update_idem]

theorem bag_erase_le (A : Holder → Option Handle) (x : Holder) : bag (update A x none) ≤ bag A := by
  rw [bag_eq A x]
  exact Multiset.le_add_left _ _

theorem mem_bag (hx : A x = some h) : h ∈ bag A := by
  rw [bag_take hx]
  exact mem_cons_self _ _

end

section

variable {sb : Superblock} {c : Ctx} {H : Multiset Handle} {A : Holder → Option Handle} {K K' : Kernel}
  {p : Fin NPROC} {f : Fin NFILE} {i : ℕ} {k : Slot} {ty : Int16} {q : Option (ℕ × Int16)}
  {who : Caller} {α : Type}

/-! ### Changes of the kernel's own tables -/

namespace Holding

variable {x : FsM α} {s : Fs} {H' : Multiset Handle} {v : Option Handle}

section

variable (h : Holding sb c H A K)
include h

theorem onFs {Q : α → Fs → Prop} (hx : Sat x K.fs Q Fine) :
    Sat (onFs x) K (fun a K' => Q a K'.fs ∧ (∀ H', Ok sb c (H' + bag A) [] K'.fs → Holding sb c H' A K') ∧
      K'.file = K.file ∧ K'.proc = K.proc) Fine :=
  .zoom (hx.post fun _ _ hq => ⟨hq, fun _ hok => ⟨hok, h.file, h.cwd⟩, rfl, rfl⟩)

/-- One that keeps the pointers. -/
theorem onFs_same
    (hx : Sat x K.fs (fun _ => Ok sb c (H + bag A) []) Fine) :
    Sat (Xv6.onFs x) K (fun _ K' => Holding sb c H A K' ∧ K'.file = K.file ∧ K'.proc = K.proc) Fine :=
  (h.onFs hx).post fun _ _ ⟨hq, hh, hf, hp⟩ => ⟨hh H hq, hf, hp⟩

/-- Processes change, but not their current directories. -/
theorem proc {proc : Fin NPROC → Proc}
    (hp : ∀ p, (proc p).cwd = (K.proc p).cwd) : Holding sb c H A { K with proc := proc } :=
  ⟨h.fs, h.file, fun p k hk => h.cwd p k (by rw [← hp]; exact hk)⟩

theorem modProc {g : Proc → Proc} (hg : (g (K.proc p)).cwd = (K.proc p).cwd) :
    Sat (modProc p g) K (fun _ K' => Holding sb c H A K' ∧ K'.file = K.file) Fine := by
  refine .modify ⟨h.proc fun p' => ?_, rfl⟩
  by_cases hp : p' = p
  · rw [hp, update_self, hg]
  · rw [update_of_ne hp]

/-- A file changes, but not the inode it is of. -/
theorem modFile {g : File → File} (hg : (g (K.file f)).type = .inode →
    (K.file f).type = .inode ∧ (g (K.file f)).ip = (K.file f).ip ∧ (g (K.file f)).writable =
    (K.file f).writable) : Sat (modFile f g) K (fun _ K' => Holding sb c H A K' ∧ K'.proc = K.proc)
    Fine := by
  refine .modify ⟨⟨h.fs, fun f' k ht hk => ?_, h.cwd⟩, rfl⟩
  by_cases hf : f' = f
  · subst hf
    simp only [update_self] at ht hk ⊢
    obtain ⟨h1, h2, h3⟩ := hg ht
    rw [h3]
    exact h.file f' k h1 (h2 ▸ hk)
  · simp only [update_of_ne hf] at ht hk ⊢
    exact h.file f' k ht hk

/-- A file changes, and what it holds with it. -/
theorem setFile {y : File}
    (hs : Ok sb c (H' + bag (update A (.inl f) v)) [] s)
    (hy : ∀ k, y.type = .inode → y.ip = some k → ∃ q, v = some (k, q) ∧
      (y.writable = true → ∃ i ty, q = some (i, ty) ∧ ty ≠ T_DIR)) :
    Holding sb c H' (update A (.inl f) v) { K with fs := s, file := update K.file f y } := by
  refine ⟨hs, fun f' k ht hk => ?_, fun p' k hk => ?_⟩
  · by_cases hf : f' = f
    · subst hf
      simp only [update_self] at ht hk ⊢
      exact hy k ht hk
    · simp only [update_of_ne hf] at ht hk ⊢
      rw [update_of_ne fun h => hf (Sum.inl.inj h)]
      exact h.file f' k ht hk
  · rw [update_of_ne (by simp)]
    exact h.cwd p' k hk

/-- A process changes, and what it holds with it. -/
theorem setProc {y : Proc} (hs : Ok sb c (H' + bag (update A (.inr p) v)) [] s)
    (hy : ∀ k, y.cwd = some k → ∃ q, v = some (k, q)) :
    Holding sb c H' (update A (.inr p) v) { K with fs := s, proc := update K.proc p y } := by
  refine ⟨hs, fun f' k ht hk => ?_, fun p' k hk => ?_⟩
  · rw [update_of_ne (by simp)]
    exact h.file f' k ht hk
  · by_cases hp : p' = p
    · subst hp
      simp only [update_self] at hk ⊢
      exact hy k hk
    · simp only [update_of_ne hp] at hk
      rw [update_of_ne fun h => hp (Sum.inr.inj h)]
      exact h.cwd p' k hk

end

/-- A pointer of the call becomes that of a holder. -/
theorem give (h : Holding sb c ((k, q) ::ₘ H) A K) (x : Holder) :
    Ok sb c (H + bag (update A x (some (k, q)))) [] K.fs := by
  have := h.fs
  rw [cons_add] at this
  rw [bag_put, add_cons]
  exact this.mono (Multiset.cons_le_cons _ (add_le_add le_rfl (bag_erase_le A x))) fun _ hf => hf

/-- The pointer of a holder becomes one of the call. -/
theorem take (h : Ok sb c (H + bag A) [] K.fs) {x : Holder} (hx : A x = some (k, q)) :
    Ok sb c ((k, q) ::ₘ (H + bag (update A x none))) [] K.fs := by
  rw [bag_take hx, add_cons] at h
  exact h

end Holding

theorem fine_ilock : Fine (.panic "ilock") := by simp [Fine]

/-- The current directory of a process is held. -/
theorem Holding.cwd_mem (h : Holding sb c H A K) (hcwd : (K.proc p).cwd = some k) :
    ∃ q, (k, q) ∈ H + bag A := by
  obtain ⟨q, hq⟩ := h.cwd p k hcwd
  exact ⟨q, Multiset.mem_add.mpr (.inr (mem_bag hq))⟩

/-- A call on names that keeps the pointers. -/
theorem sound_asCaller {x : Caller → FsM ℤ} (h : Sound sb c 0 K)
    (hx : ∀ cwd H q, (K.proc p).cwd = some cwd → (cwd, q) ∈ H → Ok sb c H [] K.fs →
      Sat (x ⟨(K.proc p).id, cwd⟩) K.fs (fun _ => Ok sb c H []) Fine) :
    Sat (asCaller p x) K (fun _ => Sound sb c 0) Fine := by
  obtain ⟨A, h⟩ := h
  refine caller_bind fine_ilock fun cwd hcwd => ?_
  obtain ⟨q, hq⟩ := h.cwd_mem hcwd
  exact (h.onFs_same (hx cwd _ q hcwd hq h.fs)).post fun _ _ h1 => ⟨A, h1.1⟩

/-! ### Calls on files -/

theorem sound_filealloc (h : Holding sb c H A K) :
    Sat filealloc K (fun _ K' => Holding sb c H A K' ∧ K'.proc = K.proc) Fine := by
  rw [filealloc]
  refine .get_bind ?_
  split
  · exact .pure ⟨h, rfl⟩
  · exact .bind (h.modFile fun ht => ⟨ht, rfl, rfl⟩) fun _ K1 h1 => .pure h1

theorem sound_fdalloc (h : Holding sb c H A K) :
    Sat (fdalloc p f) K (fun _ K' => Holding sb c H A K' ∧ K'.file = K.file) Fine := by
  rw [fdalloc]
  refine .get_bind ?_
  split
  · exact .pure ⟨h, rfl⟩
  · exact .bind (h.modProc rfl) fun _ K1 h1 => .pure h1

theorem sound_filedup : Keeps (Holding sb c H A) (filedup f) Fine := fun K h => by
  refine .get_bind (.ite (fun _ => .stop (by simp [Fine])) fun _ => ?_)
  exact (h.modFile fun ht => ⟨ht, rfl, rfl⟩).post fun _ _ h1 => h1.1

/-- The last reference to a file gives its pointer back. -/
theorem sound_fileclose (h : Sound sb c H K) : Sat (fileclose sb f) K (fun _ => Sound sb c H) Fine := by
  obtain ⟨A, h⟩ := h
  refine .get_bind (.ite (fun _ => .stop (by simp [Fine])) fun _ => .ite (fun _ => ?_) fun _ => ?_)
  · exact (h.modFile fun ht => ⟨ht, rfl, rfl⟩).post fun _ _ h1 => ⟨A, h1.1⟩
  · refine .modify_bind (.when (fun ht => ?_) fun _ => ?_)
    · refine (sat_deref fine_ilock _ _).read fun k hk => .zoom ?_
      obtain ⟨q, hq, -⟩ := h.file f k ht hk
      refine (ok_putInOp (Holding.take h.fs hq)).post fun _ s1 h1 => ⟨_, h.setFile h1 fun k' ht' => ?_⟩
      cases ht'
    · have hle := add_le_add (le_refl H) (bag_erase_le A (.inl f))
      refine ⟨_, h.setFile (h.fs.mono hle fun _ hf => hf) fun k' ht' => ?_⟩
      cases ht'

theorem sound_setOff (n : ℕ) : Keeps (Holding sb c H A)
    (modFile f fun x => { x with off := (x.off + n) % 2 ^ 32 }) Fine :=
  fun _ h => (h.modFile fun ht => ⟨ht, rfl, rfl⟩).post fun _ _ h1 => h1.1

theorem sound_filewrite (src : Str) (pipewrite : ℤ) :
    Keeps (Sound sb c H) (filewrite sb f src pipewrite) Fine := fun K h => by
  refine .get_bind (.ite (fun _ => .pure h) fun hw => ?_)
  obtain ⟨A, h⟩ := h
  cases ht : (K.file f).type with
  | pipe => exact .pure ⟨A, h⟩
  | none => exact .stop (by simp [Fine])
  | inode =>
    refine (sat_deref fine_ilock _ K).read fun k hk => ?_
    obtain ⟨q, hq, hwr⟩ := h.file f k ht hk
    obtain ⟨i, ty, rfl, hty⟩ := hwr (by simpa using hw)
    -- `A` says all along that the file is not a directory
    have hmem : (k, some (i, ty)) ∈ H + bag A := Multiset.mem_add.mpr (.inr (mem_bag hq))
    have hloop : Keeps (Holding sb c H A) (filewriteFrom sb f k src.length src) Fine :=
      keeps_filewriteFrom (fun _ he => he) sound_setOff (fun src off _ h =>
        (h.onFs_same (ok_writeInOp h.fs hmem hty src off)).post fun _ _ h1 => h1.1) _ _
    exact (hloop _ h).bind fun _ K2 h2 => .pure ⟨A, h2⟩

/-- What keeps the holders keeps the kernel sound. -/
theorem keeps_sound {x : KM α} (hx : ∀ A, Keeps (Holding sb c H A) x Fine) :
    Keeps (Sound sb c H) x Fine :=
  fun K ⟨A, h⟩ => (hx A K h).post fun _ _ h1 => ⟨A, h1⟩

theorem sound_onFs {x : FsM α} (hx : ∀ H s, Ok sb c H [] s → Sat x s (fun _ => Ok sb c H []) Fine) :
    Keeps (Sound sb c H) (onFs x) Fine :=
  keeps_sound fun _ _ h => (h.onFs_same (hx _ _ h.fs)).post fun _ _ h1 => h1.1

theorem sound_modProc {g : Proc → Proc} (hg : ∀ x, (g x).cwd = x.cwd) :
    Keeps (Sound sb c H) (modProc p g) Fine :=
  keeps_sound fun _ _ h => (h.modProc (hg _)).post fun _ _ h1 => h1.1

theorem sound_calls : FileCalls sb (Sound sb c H) Fine where
  stops := fun _ he => he
  modProc := fun hg => sound_modProc fun x => (hg x).1
  setOff := fun _ n => keeps_sound fun _ => sound_setOff n
  filedup := fun _ => keeps_sound fun _ => sound_filedup
  fileclose := fun _ _ h => sound_fileclose h
  readInOp := fun _ _ _ => sound_onFs fun _ _ h => ok_readInOp h _ _
  filewrite := fun _ => sound_filewrite
  stat := fun _ => sound_onFs fun _ _ h => (ok_ilock_valid h).bind fun _ _ h1 => ok_iunlock h1.1
  pipealloc := keeps_pipealloc (keeps_sound fun _ _ h => (sound_filealloc h).post fun _ _ h1 => h1.1)
    (fun _ _ => keeps_sound fun _ _ h => (h.modFile fun ht => by cases ht).post fun _ _ h1 => h1.1)
    fun _ _ h => sound_fileclose h

/-- An `open` that fails gives back the inode it had. -/
theorem sound_failed (h : Sound sb c ((k, q) ::ₘ H) K) :
    Sat (onFs (failed sb k)) K (fun _ => Sound sb c H) Fine := by
  obtain ⟨A, h⟩ := h
  have hfs := h.fs
  rw [cons_add] at hfs
  exact (h.onFs (ok_failed hfs)).post fun _ _ ⟨h1, hh, _⟩ => ⟨A, hh _ h1⟩

theorem sound_sysOpen (h : Sound sb c 0 K) (hal : Allows sb c (K.proc p).id) (path : Option Str)
    (omode : Option UInt32) : Sat (sysOpen sb p path omode) K (fun _ => Sound sb c 0) Fine := by
  match path, omode with
  | none, _ => exact .pure h
  | some _, none => exact .pure h
  | some path, some omode =>
    obtain ⟨A, h⟩ := h
    refine caller_bind fine_ilock fun cwd hcwd => ?_
    obtain ⟨q, hq⟩ := h.cwd_mem hcwd
    refine (h.onFs (ok_openInode h.fs hq hal path omode)).bind fun r K2 ⟨h2, hh, _⟩ => ?_
    match r with
    | none => exact .pure ⟨A, hh _ h2⟩
    | some ip =>
      obtain ⟨i, ty, h2, hw⟩ := h2
      have h2 := hh ((ip, some (i, ty)) ::ₘ 0) (by rw [cons_add]; exact h2)
      refine (sound_filealloc h2).bind fun f K3 h3 => ?_
      match f with
      | none => exact sound_failed ⟨A, h3.1⟩
      | some f =>
        refine (sound_fdalloc h3.1).bind fun fd K4 h4 => ?_
        match fd with
        | none => exact (sound_fileclose ⟨A, h4.1⟩).bind fun _ K5 h5 => sound_failed h5
        | some fd =>
          refine .bind (h4.1.onFs_same ?_) fun _ K5 h5 => .modify_bind (.pure ?_)
          · exact (ok_iunlock h4.1.fs).bind fun _ s1 h1 => ok_endOp h1
          · refine ⟨_, h5.1.setFile (h5.1.give (.inl f)) fun k _ hk => ?_⟩
            cases hk
            exact ⟨_, rfl, fun hwr => ⟨i, ty, rfl, hw (by simpa [opened] using hwr)⟩⟩

theorem sound_sysChdir (h : Sound sb c H K) (path : Option Str) :
    Sat (sysChdir sb p path) K (fun _ => Sound sb c H) Fine := by
  obtain ⟨A, h⟩ := h
  refine caller_bind fine_ilock fun cwd hcwd => ?_
  refine (h.onFs_same (ok_beginOp h.fs)).bind fun _ K2 ⟨h2, _, hproc⟩ => ?_
  match path with
  | none => exact (h2.onFs_same (ok_ended h2.fs _)).post fun _ _ h3 => ⟨A, h3.1⟩
  | some path =>
    obtain ⟨q, hq⟩ := h.cwd p _ hcwd
    refine .bind (Q := fun r K3 => ∃ s, K3 = { K2 with fs := s } ∧
      Ok sb c (H + bag (update A (.inr p) (some (r.getD cwd, none)))) [] s)
      (.zoom ((ok_chdirTo (Holding.take h2.fs hq).forget path).post fun r s h3 => ⟨s, rfl, ?_⟩))
      fun r K3 ⟨s, heq, h3⟩ => ?_
    · rw [bag_put, add_cons]
      exact h3
    · subst heq
      cases r with
      | none =>
        have h4 := h2.setProc (y := K2.proc p) h3 fun k hk => ?_
        · rw [Function.update_eq_self] at h4
          exact .pure ⟨_, h4⟩
        · rw [hproc, hcwd] at hk
          cases hk
          exact ⟨none, rfl⟩
      | some ip =>
        refine .modify_bind (.pure ⟨_, h2.setProc h3 fun k hk => ?_⟩)
        cases hk
        exact ⟨none, rfl⟩

/-! ### Processes -/

theorem sound_allocproc (h : Holding sb c H A K) (kstack : Bool) :
    Sat (allocproc kstack) K (fun _ => Holding sb c H A) Fine := by
  rw [allocproc]
  refine .get_bind ?_
  split
  · exact .pure h
  · have h1 : Holding sb c H A { K with nextpid := K.nextpid + 1 } := ⟨h.fs, h.file, h.cwd⟩
    exact .modify_bind (.bind (h1.modProc rfl) fun _ K2 h2 => .pure h2.1)

theorem sound_forkAs (h : Sound sb c H K) (id : Str) (mem : ForkMem) :
    Sat (forkAs p id mem) K (fun _ => Sound sb c H) Fine := by
  obtain ⟨A, h⟩ := h
  refine (sound_allocproc h mem.kstack).bind fun r K1 h1 => ?_
  match r with
  | none => exact .pure ⟨A, h1⟩
  | some np =>
    refine .ite (fun _ => ?_) fun _ => ?_
    · exact .bind (h1.modProc rfl) fun _ K2 h2 => .pure ⟨A, h2.1⟩
    · refine .bind (h1.modProc rfl) fun _ K2 h2 => ?_
      have hdup : Keeps (Holding sb c H A) (dupFiles p np (List.finRange NOFILE)) Fine :=
        keeps_dupFiles (fun _ => sound_filedup) (fun _ _ _ h => (h.modProc rfl).post fun _ _ h1 => h1.1) _
      refine (hdup _ h2.1).bind fun _ K3 h3 => .get_bind ?_
      refine (sat_deref fine_ilock _ K3).read fun k hcwd => ?_
      obtain ⟨q, hq⟩ := h3.cwd_mem hcwd
      refine (h3.onFs (ok_idup h3.fs hq)).bind fun j K5 ⟨⟨hj, h5⟩, hh, _⟩ => ?_
      subst hj
      have h5 := hh ((j, q) ::ₘ H) (by rw [cons_add]; exact h5)
      refine .modify_bind (.get_bind (.pure ⟨_, h5.setProc (h5.give (.inr np)) fun k hk => ?_⟩))
      cases hk
      exact ⟨q, rfl⟩

theorem sound_exit (h : Sound sb c H K) : Sat (exit sb p) K (fun _ => Sound sb c H) Fine := by
  obtain ⟨A, h⟩ := h
  refine .ite (fun _ => .stop (by simp [Fine])) fun _ => .modify_bind ?_
  have h1 : Holding sb c H A { K with proc := fun q =>
      if (K.proc q).pid = (K.proc p).pid ∧ q ≠ p then reaped (K.proc q) else K.proc q } :=
    h.proc fun q => by split <;> rfl
  refine (sound_calls.closeFiles _ _ ⟨A, h1⟩).bind fun _ K2 hK2 => .get_bind ?_
  obtain ⟨A, h2⟩ := hK2
  refine (sat_deref fine_ilock _ K2).read fun k hcwd => ?_
  obtain ⟨q, hq⟩ := h2.cwd p k hcwd
  refine .bind (Q := fun _ K3 => ∃ s, K3 = { K2 with fs := s } ∧
    Ok sb c (H + bag (update A (.inr p) none)) [] s)
    (.zoom ((ok_putInOp (Holding.take h2.fs hq)).post fun _ s h3 => ⟨s, rfl, h3⟩)) fun _ K3 hK3 => ?_
  obtain ⟨s, rfl, h3⟩ := hK3
  refine .modify_bind (.modify_bind ?_)
  have h4 := h2.setProc (y := { K2.proc p with cwd := none }) h3 fun k hk => by cases hk
  have h5 : Holding sb c H (update A (.inr p) none) { K2 with
      fs := s, proc := fun q => adopted p (update K2.proc p { K2.proc p with cwd := none } q) } :=
    h4.proc fun q => by rw [adopted]; split <;> rfl
  exact .bind (h5.modProc rfl) fun _ K6 h6 => .pure ⟨_, h6.1⟩

theorem sound_wait (h : Sound sb c H K) : Sat (wait p) K (fun _ => Sound sb c H) Fine := by
  obtain ⟨A, h⟩ := h
  rw [wait]
  refine .get_bind ?_
  split
  · exact .bind (h.modProc rfl) fun _ K1 h1 => .pure ⟨A, h1.1⟩
  · exact .ite (fun _ => .pure ⟨A, h⟩) fun _ => .stop (by simp [Fine])

end

/-! ### What a call writes -/

section

variable (sb : Superblock) (p : Fin NPROC) (K : Kernel)

/-- The inode that the path of a `chmod` by `p` names. -/
def named (path : Str) : Option ℕ := do
  let cwd ← (K.proc p).cwd
  let (r, s) ← ((do beginOp; namei sb ⟨(K.proc p).id, cwd⟩ path : FsM (Option Slot)) K.fs).toOption
  let ip ← r
  pure (s.icache ip).inum

/-- The directory that a `link` by `p` goes into. -/
def linkDir (old new : Str) : Option ℕ := do
  let cwd ← (K.proc p).cwd
  let (r, s) ← (linkFrom sb ⟨(K.proc p).id, cwd⟩ old new K.fs).toOption
  let (_, r) ← r
  let (dp, _) ← r
  pure (s.icache dp).inum

/-- The directory of the account file, as a `usysinit` by `p` finds it. -/
def accountsDir : Option ℕ := do
  let cwd ← (K.proc p).cwd
  let (r, s)
    ← ((do beginOp; nameiparent sb ⟨(K.proc p).id, cwd⟩ pathname : FsM (Option (Slot × Str)))
      K.fs).toOption
  let (dp, _) ← r
  pure (s.icache dp).inum

/-- The account file is not a directory. -/
def AccountFile : Prop :=
  ∀ k, K.utableIp = some k → (inoOf sb K.fs.disk (K.fs.icache k).inum).type ≠ T_DIR

/-- The inode is in the cache, and has been read. -/
def Fs.Caches (s : Fs) (i : ℕ) : Prop :=
  ∃ k, 0 < (s.icache k).ref ∧ (s.icache k).valid = true ∧ (s.icache k).inum = i

/-- The calls that keep the file system sound: all but an `addUser` that finds the root
directory not in the cache, and an `addUser` or `deleteUser` that writes the table over a
directory. -/
def Sane : Call → Prop
  | .addUser (some username) (some password) => isRoot (K.proc p).id →
      (K.utable.insert username password).isSome → AccountFile sb K ∧ K.fs.Caches ROOTINO
  | .deleteUser (some username) => isRoot (K.proc p).id → (K.utable.remove username).isSome →
  AccountFile sb K
  | _ => True

/-- The directories and modes that the call sets are among those it may set. -/
def Covers (c : Ctx) : Call → Prop
  | .open _ _ => Allows sb c (K.proc p).id
  | .mknod _ _ _ => Allows sb c (K.proc p).id
  | .mkdir _ => Allows sb c (K.proc p).id
  | .unlink _ => Allows sb c (K.proc p).id
  | .link (some old) (some new) => ∀ i, linkDir sb p K old new = some i → i ∈ c.content
  | .usysinit => ∀ i, accountsDir sb p K = some i → i ∈ c.content
  | .addUser (some username) (some password) => isRoot (K.proc p).id →
      (K.utable.insert username password).isSome → ROOTINO ∈ c.content
  | .chmod (some path) (some _) => ∀ i, named sb p K path = some i →
      owns (K.proc p).id (inoOf sb c.disk i) = true → i ∈ c.mode
  | _ => True

end

section

variable {sb : Superblock} {c : Ctx} {H : Multiset Handle} {A : Holder → Option Handle} {K K' : Kernel}
  {p : Fin NPROC}

/-! ### Links, modes and accounts -/

theorem sound_link (h : Sound sb c 0 K) (old new : Option Str) (hc : Covers sb p K c (.link old new)) :
    Sat (asCaller p fun who => sysLink sb who old new) K (fun _ => Sound sb c 0) Fine := by
  refine sound_asCaller h fun cwd H q hcwd hq h => ?_
  match old, new with
  | none, _ => exact .pure h
  | some _, none => exact .pure h
  | some old, some new =>
    refine .bind (ok_linkFrom h hq old new).run fun r s1 ⟨h1, hrun⟩ => ?_
    match r with
    | none => exact .pure h1
    | some (ip, r) =>
      refine ok_linkTo h1 fun dp name hr _ => hc _ ?_
      subst hr
      simp [linkDir, hcwd, hrun, Except.toOption]

theorem sound_chmod (h : Sound sb c 0 K) (path : Str) (mode : UInt32)
    (hc : Covers sb p K c (.chmod (some path) (some mode))) :
    Sat (asCaller p fun who => chmod sb who path mode) K (fun _ => Sound sb c 0) Fine := by
  refine sound_asCaller h fun cwd H q hcwd hq h => ?_
  refine .bind (ok_beginOp h).run fun _ s1 ⟨h1, hrun1⟩ => .bind (ok_namei h1 hq path).run
    fun r s2 ⟨h2, hrun2⟩ => ?_
  match r with
  | none => exact ok_ended h2 _
  | some ip =>
    refine ok_chmodInode h2 mode fun howns => hc _ ?_ howns
    have hrun : (do beginOp; namei sb ⟨(K.proc p).id, cwd⟩ path : FsM (Option Slot)) K.fs =
      .ok (some ip, s2) :=
      (bind_run hrun1).trans hrun2
    simp [named, hcwd, hrun, Except.toOption]

theorem sound_accountcheck (h : Sound sb c H K) (id pw : Str) :
    Sat (accountcheck id pw) K (fun _ => Sound sb c H) Fine := by
  obtain ⟨A, h⟩ := h
  refine .get_bind ?_
  split
  · exact .pure ⟨A, h⟩
  · exact .modify_bind (.pure ⟨A, h.fs, h.file, h.cwd⟩)

theorem sound_accountsReady (h : Holding sb c H A K) (ip : Slot) (t : UTable) :
    Sat (accountsReady ip t) K (fun _ => Sound sb c H) Fine := by
  have h1 : Holding sb c H A { K with utable := t, utableIp := some ip } := ⟨h.fs, h.file, h.cwd⟩
  exact .modify_bind ((h1.onFs_same (ok_endOp h1.fs)).bind fun _ K2 h2 => .pure ⟨A, h2.1⟩)

theorem sound_usysinit (h : Sound sb c 0 K) (hc : Covers sb p K c .usysinit) :
    Sat (usysinit sb p) K (fun _ => Sound sb c 0) Fine := by
  obtain ⟨A, h⟩ := h
  have h1 : Holding sb c 0 A { K with utable := UTable.cleared } := ⟨h.fs, h.file, h.cwd⟩
  refine .modify_bind (caller_bind fine_ilock fun cwd hcwd => ?_)
  obtain ⟨q, hq⟩ := h1.cwd_mem hcwd
  have hcwd : (K.proc p).cwd = some cwd := hcwd
  refine .bind (h1.onFs_same ?_) fun r K2 ⟨h2, _⟩ => ?_
  · refine .bind (ok_beginOp h1.fs).run fun _ s1 ⟨hs1, hrun1⟩ => ?_
    refine (ok_setupAccounts hs1 hq fun dp name s2 hrun2 _ => hc _ ?_).post fun _ _ => And.left
    have hrun :
      (do beginOp; nameiparent sb ⟨(K.proc p).id, cwd⟩ pathname : FsM (Option (Slot × Str))) K.fs =
        .ok (some (dp, name), s2) := (bind_run hrun1).trans hrun2
    simp [accountsDir, hcwd, hrun, Except.toOption]
  · cases r with
    | unreachable | unread => exact .pure ⟨A, h2⟩
    | unwritten => exact .modify_bind (.pure ⟨A, h2.fs, h2.file, h2.cwd⟩)
    | made ip => exact sound_accountsReady h2 ip _
    | read ip buf => exact sound_accountsReady h2 ip _

/-- `begin_op` changes neither the disk nor the cache. -/
theorem run_beginOp {s : Fs} : Sat beginOp s (fun _ s' => s'.icache = s.icache ∧ s'.disk = s.disk)
    fun _ => True :=
  .get_bind (.ite (fun _ => .stop trivial) fun _ => .modify ⟨rfl, rfl⟩)

theorem sound_addUser (h : Sound sb c 0 K) (username password : Str)
    (hs : Sane sb p K (.addUser (some username) (some password)))
    (hc : Covers sb p K c (.addUser (some username) (some password))) :
    Sat (addUser sb p username password) K (fun _ => Sound sb c 0) Fine := by
  refine .get_bind (.ite (fun _ => .pure h) fun hroot => ?_)
  have hroot : isRoot (K.proc p).id = true := by simpa using hroot
  split
  · exact .pure h
  · rename_i t ht
    obtain ⟨A, h⟩ := h
    obtain ⟨hfile, r, hpos, hv, hnum⟩ := hs hroot (by simp [ht])
    have hmay := hc hroot (by simp [ht])
    have h1 : Holding sb c 0 A { K with utable := t } := ⟨h.fs, h.file, h.cwd⟩
    refine .modify_bind (caller_bind fine_ilock fun cwd _ => ?_)
    refine .bind (h1.onFs (Sat.and (ok_beginOp h1.fs) run_beginOp)) fun _ K2 ⟨⟨hs2, hcache, hdisk⟩,
      hh, _⟩ => ?_
    refine (sat_deref fine_ilock _ _).read fun ip hip => ?_
    -- the root directory in the cache counts as held during the call
    rw [← congrFun hcache r] at hpos hv hnum
    obtain ⟨H', h', hmem, -, hback⟩ := hs2.pin hpos hv
    rw [hnum] at hmem
    refine ((hh 0 hs2).onFs (ok_addUserFs h' hmem ?_ hmay _ _)).post fun _ _ ⟨h4, hh', _⟩ =>
      ⟨A, hh' 0 (hback _ _ h4)⟩
    rw [hcache, hdisk]
    exact hfile ip hip

theorem sound_deleteUser (h : Sound sb c 0 K) (username : Str)
    (hs : Sane sb p K (.deleteUser (some username))) :
    Sat (deleteUser sb p username) K (fun _ => Sound sb c 0) Fine := by
  refine .get_bind (.ite (fun _ => .pure h) fun hroot => ?_)
  have hroot : isRoot (K.proc p).id = true := by simpa using hroot
  split
  · exact .pure h
  · rename_i t ht
    obtain ⟨A, h⟩ := h
    have hfile := hs hroot (by simp [ht])
    have h1 : Holding sb c 0 A { K with utable := t } := ⟨h.fs, h.file, h.cwd⟩
    refine .modify_bind (.bind (h1.onFs (Sat.and (ok_beginOp h1.fs) run_beginOp))
      fun _ K2 ⟨⟨hs2, hcache, hdisk⟩, hh, _⟩ => ?_)
    refine (sat_deref fine_ilock _ _).read fun ip hip => ?_
    refine ((hh 0 hs2).onFs_same (ok_deleteUserFs hs2 ?_ _)).post fun _ _ h4 => ⟨A, h4.1⟩
    rw [hcache, hdisk]
    exact hfile ip hip

/-- **Every system call keeps the kernel sound**, if it is sane, and changes of the inodes that were
there only what it may. -/
theorem sound_syscall (h : Sound sb c 0 K) (call : Call) (hs : Sane sb p K call)
    (hc : Covers sb p K c call) : Sat (syscall sb p call) K (fun _ => Sound sb c 0) Fine := by
  cases call with
  | fork mem => exact .get_bind (sound_forkAs h _ mem)
  | fork2 username mem =>
    cases username with
    | none => exact .pure h
    | some username => exact sound_forkAs h username mem
  | exit => exact sound_exit h
  | wait => exact sound_wait h
  | pipe ptr kalloc => exact sound_calls.sysPipe ptr kalloc K h
  | read fd n ptr piperead => exact sound_calls.sysRead fd n ptr piperead K h
  | write fd src pipewrite => exact sound_calls.sysWrite fd src pipewrite K h
  | kill pid => exact sound_calls.kill pid K h
  | exec path mem =>
    cases path with
    | none => exact .pure h
    | some path => exact sound_asCaller h fun cwd H q _ hq h => ok_exec h hq path mem
  | fstat fd ptr => exact sound_calls.sysFstat fd ptr K h
  | chdir path => exact sound_sysChdir h path
  | dup fd => exact sound_calls.sysDup fd K h
  | «open» path omode => exact sound_sysOpen h hc path omode
  | mknod path major minor =>
    exact sound_asCaller h fun cwd H q _ hq h => ok_sysMknod h hq (by exact hc) path major minor
  | unlink path => exact sound_asCaller h fun cwd H q _ hq h => ok_sysUnlink h hq (by exact hc) path
  | link old new => exact sound_link h old new hc
  | mkdir path => exact sound_asCaller h fun cwd H q _ hq h => ok_sysMkdir h hq (by exact hc) path
  | close fd => exact sound_calls.sysClose fd K h
  | usysinit => exact sound_usysinit h hc
  | addUser id pw =>
    match id, pw with
    | none, _ => exact .pure h
    | some _, none => exact .pure h
    | some id, some pw => exact sound_addUser h id pw hs hc
  | deleteUser id =>
    cases id with
    | none => exact .pure h
    | some id => exact sound_deleteUser h id hs
  | accountcheck id pw =>
    match id, pw with
    | none, _ => exact .pure h
    | some _, none => exact .pure h
    | some id, some pw => exact sound_accountcheck h id pw
  | chmod path mode =>
    match path, mode with
    | none, _ => exact .pure h
    | some _, none => exact .pure h
    | some path, some mode => exact sound_chmod h path mode hc
  | plain call r => exact .pure h

/-! ### Runs -/

/-- The start of a call, with the modes and directories that it may set. -/
def Kernel.ctx (K : Kernel) (mode content : Set ℕ) : Ctx := ⟨K.fs.disk, K.fs.frees, mode, content⟩

/-- The kernel is sound, whatever the last call was. -/
def Intact (sb : Superblock) (K : Kernel) : Prop := ∃ c, Sound sb c 0 K

theorem since_refl (mode content : Set ℕ) (i : ℕ) : Since sb (K.ctx mode content) K.fs.disk i :=
  ⟨rfl, rfl, .inl rfl, fun _ => .inr ⟨rfl, fun _ _ => rfl⟩⟩

theorem Intact.start (h : Intact sb K) (mode content : Set ℕ) : Sound sb (K.ctx mode content) 0 K := by
  obtain ⟨c, A, h⟩ := h
  have hfs := h.fs
  exact ⟨A, ⟨hfs.disk, hfs.slot, hfs.uniq, hfs.refs, hfs.locks, hfs.known, fun _ => le_rfl,
    fun i _ _ => since_refl mode content i, fun _ hf => by cases hf⟩, h.file, h.cwd⟩

theorem covers_univ (call : Call) : Covers sb p K (K.ctx Set.univ Set.univ) call := by
  rw [Covers.eq_def]
  split <;> simp [Allows, Kernel.ctx]

/-- A sane call keeps the kernel sound and does not free a free block. -/
theorem Intact.call (h : Intact sb K) {call : Call} (hs : Sane sb p K call) :
    Sat (syscall sb p call) K (fun _ => Intact sb) Fine :=
  (sound_syscall (h.start Set.univ Set.univ) call hs (covers_univ call)).post fun _ _ h' => ⟨_, h'⟩

theorem bag_none : bag (fun _ => none) = 0 := Finset.sum_eq_zero fun _ _ => rfl

theorem bag_single (x : Holder) (h : Handle) : bag (update (fun _ => none) x (some h)) = {h} := by
  rw [bag_put, Function.update_eq_self_iff.mpr rfl, bag_none]
  rfl

/-- The cache at the start has the root directory, in its first entry. -/
theorem boot_icache (disk : Disk) (tty : List (Option Str)) (k : Slot) : (boot disk tty).fs.icache k =
    if k = 0 then { Inode.zero with dev := ROOTDEV, inum := ROOTINO, ref := 1 } else Inode.zero := by
  by_cases hk : k = 0
  · simp [boot, hk]
  · simp [boot, hk]

/-- Only init has a current directory. -/
theorem boot_cwd (disk : Disk) (tty : List (Option Str)) (q : Fin NPROC) :
    ((boot disk tty).proc q).cwd = if q = initproc then some 0 else none := by
  by_cases hq : q = initproc
  · simp [boot, hq]
  · simp [boot, hq, Proc.zero]

/-- A cache with one entry in use, for one pointer that is held. -/
theorem ok_single {s : Fs} {ip : Inode} (hd : DiskOk sb s.disk)
    (hk : ∀ k, s.icache k = if k = 0 then ip else Inode.zero) (hip : SlotOk sb s.disk ip)
    (hone : ip.ref = 1) (hl : ip.lock = false) : Ok sb ⟨s.disk, s.frees, ∅, ∅⟩ {(0, none)} [] s := by
  have hfree : ∀ k, 0 < (s.icache k).ref → k = 0 := fun k hpos => by
    by_contra hne
    rw [hk k, if_neg hne] at hpos
    cases hpos
  refine ⟨hd, fun k hpos => ?_, fun j k hj hk' _ => (hfree j hj).trans (hfree k hk').symm, fun k =>
    ?_, fun k hk' => ?_,
    fun x hx i ty he => ?_, fun _ => le_rfl, fun i _ _ =>
      ⟨rfl, rfl, .inl rfl, fun _ => .inr ⟨rfl, fun _ _ => rfl⟩⟩,
    fun _ hf => by cases hf⟩
  · rw [hfree k hpos, hk, if_pos rfl]
    exact hip
  · rw [hk k]
    by_cases h0 : k = 0
    · simp [held, h0, hone]
    · simp [held, h0, Inode.zero]
  · rw [hk] at hk'
    split at hk'
    · rw [hl] at hk'
      cases hk'
    · cases hk'
  · rw [Multiset.mem_singleton.mp hx] at he
    cases he

theorem intact_boot {disk : Disk} (hd : DiskOk sb disk) (tty : List (Option Str)) :
    Intact sb (boot disk tty) := by
  have hfs : Ok sb ((boot disk tty).ctx ∅ ∅) {(0, none)} [] (boot disk tty).fs :=
    ok_single hd (boot_icache disk tty) ⟨rfl, sb.root_lt, fun hv => by cases hv⟩ rfl rfl
  refine ⟨(boot disk tty).ctx ∅ ∅, update (fun _ => none) (.inr initproc) (some (0, none)), ?_,
    fun f k ht => ?_, fun q k hk => ?_⟩
  · rw [bag_single, zero_add]
    exact hfs
  · cases ht
  · rw [boot_cwd] at hk
    split at hk
    · rename_i hq
      cases hk
      exact ⟨none, by rw [hq, update_self]⟩
    · cases hk

/-- **Every state that sane calls reach is sound.** -/
theorem intact_reach {K0 : Kernel} {log : List Turn} (h0 : Intact sb K0) (hr : Reach sb K0 log K)
    (hs : ∀ t ∈ log, Sane sb t.move.p t.before t.move.call) : Intact sb K ∧ ∀ t ∈ log,
    Intact sb t.before := by
  induction hr with
  | refl => exact ⟨h0, fun _ ht => by cases ht⟩
  | step hr hstep ih =>
    obtain ⟨hK, hlog⟩ := ih fun t ht => hs t (List.mem_append_left _ ht)
    have hsane := hs _ (List.mem_append_right _ (List.mem_singleton_self _))
    refine ⟨(hK.call hsane).of_ok hstep.ret, fun t ht => ?_⟩
    rcases List.mem_append.mp ht with ht | ht
    · exact hlog t ht
    · rw [List.mem_singleton.mp ht]
      exact hK

end

end Xv6
