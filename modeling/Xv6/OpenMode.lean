/-
# What an open file may be used for

`sys_open` decides on the permission before it decides what the file may be used for, and by other
tests. Without `O_CREATE` it compares `omode` with the three access modes and checks nothing for any
other value. With `O_CREATE` the check of a file that is there is the one in `create`, for write
permission. `readable` and `writable` are then computed from the bits of `omode`.

An open file is within the mode of its inode where the two agree, `ReadTested` for `readable` and
`WriteTested` for `writable`. For any other `omode` there is a file that it opens beyond its mode:
`O_CREATE` with `O_RDONLY` reads a file that only grants writing, and `O_WRONLY | O_RDWR` is not
checked at all.
-/
import Xv6.Permissions

namespace Xv6

open Prog

/-- A file that this `omode` makes readable is checked for read permission. -/
def ReadTested (omode : UInt32) : Prop := omode = O_RDONLY ∨ omode = O_RDWR ∨ omode &&& O_WRONLY ≠ 0

/-- A file that this `omode` makes writable is checked for write permission. -/
def WriteTested (omode : UInt32) : Prop :=
  omode &&& O_CREATE ≠ 0 ∨ omode = O_WRONLY ∨ omode = O_RDWR ∨ omode &&& O_WRONLY = 0 ∧
    omode &&& O_RDWR = 0

/-- The turn is an `open` with this `omode` that returned a descriptor, of the file `x` on inode
`i`. -/
structure Opening (t : Turn) (omode : UInt32) (x : File) (i : ℕ) : Prop where
  call : ∃ path, t.move.call = .open path (some omode)
  file : ∃ (fd : Fin NOFILE) (f : Fin NFILE), t.r = fd.val ∧ (t.after.proc t.move.p).ofile fd =
    some f ∧ t.after.file f = x
  inode : ∃ k, x.ip = some k ∧ (t.after.fs.icache k).inum = i

/-- The same, of a call in a sound state, and an inode that was there before it, is there after it
and is not a device. -/
structure OpenedFor (sb : Superblock) (t : Turn) (omode : UInt32) (x : File) (i : ℕ) :
    Prop extends Opening t omode x i where
  intact : Intact sb t.before
  step : Step sb t.before t.move t.r t.after
  keeps : t.Keeps sb i
  plain : (inoOf sb t.before.fs.disk i).type ≠ T_DEV

/-- The caller's class has the permission on the inode as it was before the call. -/
def Turn.Grants (t : Turn) (sb : Superblock) (i : ℕ) (usr oth : UInt32) : Prop :=
  grants (t.before.proc t.move.p).id (inoOf sb t.before.fs.disk i) usr oth = true

section

variable {sb : Superblock} {c : Ctx} {id : Ident} {d : Dinode} {omode : UInt32} {s s' : Fs}
  {k : Slot} {K K' : Kernel} {p : Fin NPROC} {i : ℕ} {x : File} {t : Turn} {usr oth : UInt32}
  {who : Caller} {path : Str} {ip : Slot} {f : Fin NFILE} {fd : Fin NOFILE}

/-! ### The checks and the bits -/

theorem grants_of_permits (hdev : d.type ≠ T_DEV) (h : permits id d usr oth = true) :
    grants id d usr oth = true := by
  unfold permits at h
  simpa [hdev] using h

/-- `O_RDWR` asks for both permissions. -/
theorem both_of_passes (hp : passes id d O_RDWR = true) :
    permits id d MODE_WUSR MODE_WOTH = true ∧ permits id d MODE_RUSR MODE_ROTH = true := by
  rw [passes, if_neg (by decide)] at hp
  simpa [mayOpen, O_RDONLY, O_WRONLY, O_RDWR] using hp

theorem read_of_passes (hdev : d.type ≠ T_DEV) (ht : ReadTested omode) (hp : passes id d omode = true)
    (hr : omode &&& O_WRONLY = 0) : grants id d MODE_RUSR MODE_ROTH = true := by
  apply grants_of_permits hdev
  rcases ht with rfl | rfl | hw
  · simpa [passes, mayOpen, O_RDONLY] using hp
  · exact (both_of_passes hp).2
  · exact absurd hr hw

theorem write_of_passes (hdev : d.type ≠ T_DEV) (ht : WriteTested omode) (hp : passes id d omode = true)
    (hw : omode &&& O_WRONLY ≠ 0 ∨ omode &&& O_RDWR ≠ 0) : grants id d MODE_WUSR MODE_WOTH = true := by
  apply grants_of_permits hdev
  rcases ht with hc | rfl | rfl | ⟨h0, h1⟩
  · rw [passes, if_pos hc] at hp
    exact hp
  · simpa [passes, mayOpen, O_RDONLY, O_WRONLY, O_CREATE] using hp
  · exact (both_of_passes hp).1
  · rcases hw with hw | hw
    · exact absurd h0 hw
    · exact absurd h1 hw

/-! ### The call -/

/-- The inode in the entry has passed the check of `open`, if it is one that was there at the start.
-/
def Passed (sb : Superblock) (c : Ctx) (id : Ident) (omode : UInt32) (k : Slot) (s : Fs) : Prop :=
  ∀ i, (s.icache k).inum = i → i < sb.ninodes → Live sb c s i → passes id (inoOf sb c.disk i) omode = true

theorem Passed.congr (h : Passed sb c id omode k s) (hinum : (s'.icache k).inum = (s.icache k).inum)
    (hfrees : ∀ i, s'.frees i = s.frees i) : Passed sb c id omode k s' := by
  intro i hi hlt hl
  exact h i (hinum ▸ hi) hlt ⟨hl.1, hfrees i ▸ hl.2⟩

theorem passes_congr {d' : Dinode} (htype : d.type = d'.type) (hid : d.id = d'.id)
    (hmode : d.mode = d'.mode) : passes id d omode = passes id d' omode := by
  have hperm : ∀ usr oth, permits id d usr oth = permits id d' usr oth := fun usr oth => by
    rw [permits, permits, htype, grants_congr hid hmode]
  rw [passes, passes, mayOpen, mayOpen, hperm, hperm]

/-- The inode that `openInode` returns is checked as it was at the start. -/
theorem passed_openInode {H : Multiset Handle} {q : Option (ℕ × Int16)}
    (h : Ok sb c H [] s) (hmode : c.mode = ∅) (hcwd : (who.cwd, q) ∈ H) (hal : Allows sb c who.id)
    (path : Str) (omode : UInt32) :
    Sat (openInode sb who path omode) s (fun r s' => ∀ ip, r = some ip → Passed sb c who.id omode ip
      s') Any := by
  refine (ok_openInode_passes h hcwd hal path omode).mono (fun r s' h1 ip hip => ?_) fun _ _ => trivial
  subst hip
  obtain ⟨⟨i, ty, hok, -⟩, hpass⟩ := h1
  obtain ⟨hinum, -, -, hd, -, -⟩ := hok.at_known (Multiset.mem_cons_self _ _)
  intro i' hi' hlt hl
  obtain rfl : i' = i := hi'.symm.trans hinum
  have hs := hok.since i' hlt hl
  have hm := hs.mode.resolve_right (by rw [hmode]; exact Set.notMem_empty i')
  rw [← passes_congr hs.type hs.owner hm, ← hd]
  exact (hpass ip rfl).resolve_right (by rw [hinum]; exact fun hdead => hdead hl)

/-- `iunlock(ip); end_op();` changes no inode. -/
theorem passed_unlock (h : Passed sb c id omode k s) :
    Sat (do iunlock k; endOp) s (fun _ => Passed sb c id omode k) Any := by
  refine .bind (Q := fun _ => Passed sb c id omode k) ?_ fun _ s1 h1 => .modify ?_
  · refine .get_bind (.ite (fun _ => .stop trivial) fun _ => .modify ?_)
    exact h.congr (by simp) fun _ => rfl
  · exact h1.congr rfl fun i => by simp [Fs.frees]

theorem failed_returns (k : Slot) (K : Kernel) : Sat (onFs (failed sb k)) K (fun r _ => r = -1) Any :=
  .zoom (.bind .any fun _ _ _ => .bind .any fun _ _ _ => .pure rfl)

/-- How an `open` by `who` that returned `fd` has gone. -/
structure OpenRun (sb : Superblock) (p : Fin NPROC) (K : Kernel) (who : Caller) (path : Str)
    (omode : UInt32) (ip : Slot) (f : Fin NFILE) (fd : Fin NOFILE) (K' : Kernel) : Prop where
  whose : who.id = (K.proc p).id ∧ (K.proc p).cwd = some who.cwd
  run : ∃ s K1 K2 s', openInode sb who path omode K.fs = .ok (some ip, s) ∧
    filealloc { K with fs := s } = .ok (some f, K1) ∧ fdalloc p f K1 = .ok (some fd, K2) ∧
    (do iunlock ip; endOp) K2.fs = .ok ((), s') ∧ K1.fs = s ∧ K2.fs = s ∧
    (K2.proc p).ofile fd = some f ∧
    K' = { K2 with fs := s', file := Function.update K2.file f (opened ip omode (K2.file f)) }

theorem sat_sysOpen (path : Str) : Sat (sysOpen sb p (some path) (some omode)) K (fun r K' => 0 ≤ r →
    ∃ who ip f fd, r = fd.val ∧ OpenRun sb p K who path omode ip f fd K') Any := by
  have hneg : ∀ {r : ℤ} {P : Prop}, r = -1 → 0 ≤ r → P := fun hr h0 => absurd h0 (by rw [hr]; decide)
  refine caller_bind trivial fun cwd hcwd => onFs_bind Sat.any.run fun r s ⟨_, hopen⟩ => ?_
  match r with
  | none => exact .pure (hneg rfl)
  | some ip =>
    have hfile : Sat filealloc { K with fs := s } (fun _ K1 => K1.fs = s) Any := by
      refine .get_bind ?_
      split
      · exact .pure rfl
      · exact .modify_bind (.pure rfl)
    refine .bind hfile.run fun f K1 ⟨h1, hfile⟩ => ?_
    match f with
    | none => exact (failed_returns ip K1).post fun _ _ => hneg
    | some f =>
      have hdesc : Sat (fdalloc p f) K1 (fun fd K2 => K2.fs = s ∧
          ∀ n, fd = some n → (K2.proc p).ofile n = some f) Any := by
        refine .get_bind ?_
        split
        · exact .pure ⟨h1, fun n he => by cases he⟩
        · refine .modify_bind (.pure ⟨h1, fun n he => ?_⟩)
          cases he
          simp
      refine .bind hdesc.run fun fd K2 ⟨⟨h2, hfd⟩, hdesc⟩ => ?_
      match fd with
      | none => exact Sat.any.bind fun _ K3 _ => (failed_returns ip K3).post fun _ _ => hneg
      | some fd =>
        refine onFs_bind Sat.any.run fun _ s' ⟨_, hdone⟩ => .modify_bind (.pure fun _ => ?_)
        exact ⟨⟨_, cwd⟩, ip, f, fd, rfl, ⟨rfl, hcwd⟩, s, K1, K2, s', hopen, hfile, hdesc, hdone, h1,
          h2, hfd fd rfl, rfl⟩

/-- Up to the bits of the file, an `open` goes as one with another `omode` does if the check is the
same. -/
theorem OpenRun.congr {omode' : UInt32} (h : OpenRun sb p K who path omode' ip f fd K')
    (heq : openInode sb who path omode = openInode sb who path omode') :
    ∃ K'', sysOpen sb p (some path) (some omode) K = .ok (fd.val, K'') ∧
      OpenRun sb p K who path omode ip f fd K'' ∧ K''.fs = K'.fs := by
  obtain ⟨⟨hid, hcwd⟩, s, K1, K2, s', hopen, hfile, hdesc, hdone, h1, h2, hfd, rfl⟩ := h
  rw [← heq] at hopen
  refine ⟨_, ?_, ⟨⟨hid, hcwd⟩, s, K1, K2, s', hopen, hfile, hdesc, hdone, h1, h2, hfd, rfl⟩, rfl⟩
  have hwho : caller p K = .ok (who, K) := by
    obtain ⟨id, cwd⟩ := who
    cases hid
    simp only [caller, deref]
    rw [bind_run (show Prog.get K = .ok (K, K) from rfl), hcwd]
    rfl
  have hopen' : onFs (openInode sb who path omode) K = .ok (some ip, { K with fs := s }) := zoom_run hopen
  have hdone' : onFs (do iunlock ip; endOp) K2 = .ok ((), { K2 with fs := s' }) := zoom_run hdone
  exact (bind_run hwho).trans
    ((bind_run hopen').trans ((bind_run hfile).trans ((bind_run hdesc).trans (bind_run hdone'))))

/-- A descriptor that `sys_open` returns is of the file it has opened, on an inode that passed the
check. -/
theorem OpenRun.passed (h : Intact sb K) (hrun : OpenRun sb p K who path omode ip f fd K') :
    Passed sb (K.ctx ∅ Set.univ) (K.proc p).id omode ip K'.fs := by
  obtain ⟨A, h⟩ := h.start ∅ Set.univ
  obtain ⟨⟨hid, hcwd⟩, s, K1, K2, s', hopen, -, -, hdone, -, rfl, -, rfl⟩ := hrun
  obtain ⟨q, hq⟩ := h.cwd_mem hcwd
  rw [← hid]
  have hpass := (passed_openInode h.fs rfl hq (fun j _ _ => Set.mem_univ j) path omode).of_ok hopen ip rfl
  exact (passed_unlock hpass).of_ok hdone

theorem OpenedFor.within (h : OpenedFor sb t omode x i) :
    (ReadTested omode → x.readable = true → t.Grants sb i MODE_RUSR MODE_ROTH) ∧
    (WriteTested omode → x.writable = true → t.Grants sb i MODE_WUSR MODE_WOTH) := by
  obtain ⟨⟨⟨path, hcall⟩, ⟨fd, f, hr, hfd, rfl⟩, k, hk, hinum⟩, hintact, hstep, hi, hdev⟩ := h
  have hret := hstep.ret
  rw [hcall] at hret
  cases path with
  | none =>
    have : -1 = t.r := congrArg Prod.fst (Except.ok.inj hret)
    omega
  | some path =>
    obtain ⟨who, ip, f', fd', hr', hrun⟩ := (sat_sysOpen path).of_ok hret (hr ▸ Int.natCast_nonneg _)
    have hpass := hrun.passed hintact
    obtain ⟨-, _, _, K2, _, -, -, -, -, -, -, hfd', hafter⟩ := hrun
    obtain rfl : fd' = fd := by
      rw [hr] at hr'
      exact (Fin.ext (Int.natCast_inj.mp hr')).symm
    obtain rfl : f' = f := by
      rw [hafter, hfd'] at hfd
      exact Option.some.inj hfd
    have hfile : t.after.file f' = opened ip omode (K2.file f') := by
      rw [hafter]
      exact Function.update_self ..
    obtain rfl : ip = k := by
      rw [hfile] at hk
      exact Option.some.inj hk
    have hp := hpass i hinum hi.1 ⟨hi.2.1, hi.2.2.le⟩
    rw [hfile]
    constructor
    · intro ht hread
      exact read_of_passes hdev ht hp (by simpa [opened] using hread)
    · intro ht hwrite
      exact write_of_passes hdev ht hp (by simpa [opened] using hwrite)

/-! ### Modes that are not checked -/

/-- With `O_CREATE` only that bit counts. -/
theorem openInode_create (who : Caller) (path : Str) (h : omode &&& O_CREATE ≠ 0) :
    openInode sb who path omode = openInode sb who path O_CREATE := by
  simp only [openInode, if_pos h, if_pos (show O_CREATE &&& O_CREATE ≠ 0 by decide)]

/-- The values that are none of the three go through alike. -/
theorem openInode_other (who : Caller) (path : Str) (h : omode &&& O_CREATE = 0)
    (h0 : omode ≠ O_RDONLY) (h1 : omode ≠ O_WRONLY) (h2 : omode ≠ O_RDWR) :
    openInode sb who path omode = openInode sb who path 3 := by
  have hmay : ∀ id d, mayOpen id d omode = mayOpen id d 3 := fun id d => by
    rw [mayOpen, if_neg h0, if_neg h1, if_neg h2]
    rfl
  simp only [openInode, if_neg (not_not.mpr h), if_neg (show ¬(3 &&& O_CREATE ≠ 0) by decide), hmay,
    ne_eq, h0,
    show ¬(3 : UInt32) = O_RDONLY by decide]

end

/-- A root directory with the files "r", "w" and "n" of root's: the first grants its owner reading,
the second writing, the third nothing. -/
def modesDisk : Disk :=
  smallDisk [{ smallInode T_DIR 1 80 [36] with mode := 61 },
    { smallInode T_FILE 1 0 [] with mode := MODE_RUSR },
      { smallInode T_FILE 1 0 [] with mode := MODE_WUSR }, { smallInode T_FILE 1 0 [] with mode := 0 }]
    [255, 255, 255, 255, 31]
    [Dirent.bytes 1 dot ++ Dirent.bytes 1 dotdot ++ Dirent.bytes 2 [114] ++ Dirent.bytes 3 [119] ++
      Dirent.bytes 4 [110]]

set_option maxRecDepth 100000 in
theorem fsck_modesDisk : Fsck smallSb modesDisk [(1, 0, 36)] := by decide +kernel

/-- An `open` by init on `modesDisk` returns a descriptor, on inode `i`. -/
def opensInode (path : Str) (omode : UInt32) (i : ℕ) : Bool :=
  match sysOpen smallSb 0 (some path) (some omode) (boot modesDisk []) with
  | .ok (r, K') => r = 0 && ((K'.fs.icache ((K'.file 0).ip.getD 0)).inum = i &&
      (K'.proc 0).ofile 0 = some 0 && K'.fs.frees i = 0)
  | .error _ => false

variable {omode : UInt32}

/-- What init opens on `modesDisk` with one `omode`, it opens with another that is checked alike. -/
theorem exists_opened {path : Str} {omode' : UInt32} {i : ℕ} (hi : i < 5)
    (h : opensInode path omode' i = true) (htype : (inoOf smallSb modesDisk i).type = T_FILE)
    (heq : ∀ who, openInode smallSb who path omode = openInode smallSb who path omode') :
    ∃ r K' k y, OpenedFor smallSb ⟨boot modesDisk [], ⟨0, .open (some path) (some omode)⟩, r, K'⟩
    omode (opened k omode y) i := by
  unfold opensInode at h
  split at h
  · rename_i r K' hrun
    simp only [Bool.and_eq_true, decide_eq_true_eq] at h
    obtain ⟨rfl, ⟨hinum, hofile⟩, hfrees⟩ := h
    obtain ⟨who, ip, f, fd, hfd, ho⟩ := (sat_sysOpen path).of_ok hrun le_rfl
    obtain ⟨K'', hrun', ho', hfs⟩ := ho.congr (heq who)
    have hip : (K'.file 0).ip = some ip := by
      obtain ⟨-, _, _, K2, _, -, -, -, -, -, -, hf, rfl⟩ := ho
      obtain rfl : fd = 0 := Fin.ext (Int.natCast_inj.mp hfd.symm)
      obtain rfl : f = 0 := Option.some.inj (hf.symm.trans hofile)
      simp [opened]
    rw [hip, Option.getD_some, ← hfs] at hinum
    obtain ⟨-, _, _, K2, _, -, -, -, -, -, -, hf, hafter⟩ := ho'
    refine ⟨fd.val, K'', ip, K2.file f,
      ⟨⟨⟨_, rfl⟩, ⟨fd, f, rfl, by rw [hafter]; exact hf, by rw [hafter]; simp⟩, ip, rfl, hinum⟩,
      intact_boot fsck_modesDisk.image.diskOk [], ⟨rfl, hrun'⟩, ⟨hi.trans (by decide), ?_, ?_⟩, ?_⟩⟩
    · show (inoOf smallSb modesDisk i).type ≠ 0
      rw [htype]
      decide
    · show K''.fs.frees i = _
      rw [hfs, hfrees]
      rfl
    · show (inoOf smallSb modesDisk i).type ≠ T_DEV
      rw [htype]
      decide
  · cases h

set_option maxRecDepth 100000 in
/-- "w" may not be read, nor "n" read or written. -/
theorem modesDisk_denies : opensInode [119] O_CREATE 3 = true ∧ opensInode [110] 3 4 = true ∧
    ((inoOf smallSb modesDisk 3).type = T_FILE ∧ (inoOf smallSb modesDisk 4).type = T_FILE) ∧
    grants ((boot modesDisk []).proc 0).id (inoOf smallSb modesDisk 3) MODE_RUSR MODE_ROTH = false ∧
    grants ((boot modesDisk []).proc 0).id (inoOf smallSb modesDisk 4) MODE_RUSR MODE_ROTH = false ∧
    grants ((boot modesDisk []).proc 0).id (inoOf smallSb modesDisk 4) MODE_WUSR MODE_WOTH = false := by
  decide +kernel

/-- On `modesDisk` this `omode` opens a file for what the caller's class may not do. -/
def Exceeds (omode : UInt32) (able : File → Bool) (usr oth : UInt32) : Prop :=
  ∃ t x i, t.before = boot modesDisk [] ∧ OpenedFor smallSb t omode x i ∧ able x = true ∧
    ¬t.Grants smallSb i usr oth

theorem exceeds_read (h : ¬ReadTested omode) : Exceeds omode File.readable MODE_RUSR MODE_ROTH := by
  obtain ⟨hw, hn, ⟨hwt, hnt⟩, hwno, hnno, -⟩ := modesDisk_denies
  simp only [ReadTested, not_or, not_not] at h
  obtain ⟨h0, h2, hbit⟩ := h
  have hread : ∀ k y, (opened k omode y).readable = true := fun k y => by simp [opened, hbit]
  by_cases hc : omode &&& O_CREATE = 0
  · have h1 : omode ≠ O_WRONLY := fun h1 => by
      rw [h1] at hbit
      exact absurd hbit (by decide)
    obtain ⟨r, K', k, y, ho⟩ := exists_opened (by decide) hn hnt fun who =>
      openInode_other who _ hc h0 h1 h2
    exact ⟨_, _, 4, rfl, ho, hread k y, Bool.eq_false_iff.mp hnno⟩
  · obtain ⟨r, K', k, y, ho⟩ := exists_opened (by decide) hw hwt fun who => openInode_create who _ hc
    exact ⟨_, _, 3, rfl, ho, hread k y, Bool.eq_false_iff.mp hwno⟩

theorem exceeds_write (h : ¬WriteTested omode) :
    Exceeds omode File.writable MODE_WUSR MODE_WOTH := by
  obtain ⟨-, hn, ⟨-, hnt⟩, -, -, hnno⟩ := modesDisk_denies
  simp only [WriteTested, not_or, not_and_or, not_not] at h
  obtain ⟨hc, h1, h2, hbits⟩ := h
  have h0 : omode ≠ O_RDONLY := by
    rintro rfl
    exact absurd hbits (by decide)
  obtain ⟨r, K', k, y, ho⟩ := exists_opened (by decide) hn hnt fun who =>
    openInode_other who _ hc h0 h1 h2
  exact ⟨_, _, 4, rfl, ho, by simpa [opened] using hbits, Bool.eq_false_iff.mp hnno⟩

/-- **An open file is readable only if the caller's class may read the inode, and writable only if
it may write it**, whatever the state, for just those values of `omode` with which the permission is
checked. -/
theorem open_within_mode (omode : UInt32) :
    (ReadTested omode ↔ ∀ sb t x i, OpenedFor sb t omode x i → x.readable = true →
      t.Grants sb i MODE_RUSR MODE_ROTH) ∧
    (WriteTested omode ↔ ∀ sb t x i, OpenedFor sb t omode x i → x.writable = true →
      t.Grants sb i MODE_WUSR MODE_WOTH) := by
  refine ⟨⟨fun ht sb t x i ho => ho.within.1 ht, fun hall => ?_⟩, fun ht sb t x i ho =>
    ho.within.2 ht, fun hall => ?_⟩
  · by_contra hno
    obtain ⟨t, x, i, -, ho, hread, hdenied⟩ := exceeds_read hno
    exact hdenied (hall _ t x i ho hread)
  · by_contra hno
    obtain ⟨t, x, i, -, ho, hwrite, hdenied⟩ := exceeds_write hno
    exact hdenied (hall _ t x i ho hwrite)

set_option maxRecDepth 100000 in
/-- "r" is opened for reading. -/
theorem open_within_mode_reading : ∃ t x, OpenedFor smallSb t O_RDONLY x 2 ∧ x.readable = true ∧
    t.Grants smallSb 2 MODE_RUSR MODE_ROTH := by
  have hobs : opensInode [114] O_RDONLY 2 = true ∧ (inoOf smallSb modesDisk 2).type = T_FILE := by
    decide +kernel
  obtain ⟨r, K', k, y, ho⟩ := exists_opened (by decide) hobs.1 hobs.2 fun _ => rfl
  exact ⟨_, _, ho, rfl, (open_within_mode O_RDONLY).1.mp (.inl rfl) _ _ _ _ ho rfl⟩

/-- `O_CREATE` reads a file that may only be written, and `O_WRONLY | O_RDWR` writes one that may
not be. -/
theorem open_exceeds_mode : Image smallSb modesDisk ∧
    Exceeds O_CREATE File.readable MODE_RUSR MODE_ROTH ∧
    Exceeds 3 File.writable MODE_WUSR MODE_WOTH :=
  ⟨fsck_modesDisk.image, exceeds_read (by unfold ReadTested; decide),
    exceeds_write (by unfold WriteTested; decide)⟩

end Xv6
