/-
# Who changes directories, owners and modes

What a call may do to the inodes that were there before it: in a run of sane calls, the owner of an
inode never changes and its mode only by a `chmod` of root or the owner (`authority_of_reach`), on
disk and in the cache; and a directory gets or loses an entry only if it granted the caller write
permission (`mediated_of_reach`), for all calls but the three that do not look: `link`, `usysinit`
and `addUser` (`Checked`).

`link` without the permission is `link_unchecked`. An account file that is a directory lets a user
name be read as a directory entry for an inode beyond the inode blocks; through it the inode blocks
can be written (`owner_overwritten`).
-/
import Xv6.Blocks

namespace Xv6

open Prog

section

variable (sb : Superblock)

/-- `d` is inode `i` on disk, or a copy of it in the cache. -/
def Fs.Copies (s : Fs) (i : ℕ) (d : Dinode) : Prop :=
  d = inoOf sb s.disk i ∨
    ∃ k, 0 < (s.icache k).ref ∧ (s.icache k).valid = true ∧ (s.icache k).inum = i ∧ (s.icache k).d = d

/-- The inode was there before the call and has not been freed by it. -/
def Turn.Keeps (t : Turn) (i : ℕ) : Prop :=
  i < sb.ninodes ∧ (inoOf sb t.before.fs.disk i).type ≠ 0 ∧ t.after.fs.frees i = t.before.fs.frees i

/-- A `chmod` of inode `i` by root or the owner. -/
def Chmods (p : Fin NPROC) (K : Kernel) (call : Call) (i : ℕ) : Prop :=
  ∃ path mode, call = .chmod (some path) (some mode) ∧ named sb p K path = some i ∧
    owns (K.proc p).id (inoOf sb K.fs.disk i) = true

/-- The call has left every owner as it was, and every mode that it was not to set. -/
def Authority (t : Turn) : Prop :=
  ∀ i, t.Keeps sb i → ∀ d d', t.before.fs.Copies sb i d → t.after.fs.Copies sb i d' →
    d'.id = d.id ∧ (d'.mode = d.mode ∨ Chmods sb t.move.p t.before t.move.call i)

/-- Inode `i` grants the process write permission. -/
def Writable (p : Fin NPROC) (K : Kernel) (i : ℕ) : Prop :=
  grants (K.proc p).id (inoOf sb K.fs.disk i) MODE_WUSR MODE_WOTH = true

/-- The 14 bytes of the name in the directory entry at `off`. -/
def nameAt (D : Disk) (d : Dinode) (off : ℕ) : Str := (List.range 14).map fun j =>
    byteOf D d (off + 2 + j)

/-- The entries of a directory that are in use. -/
def dirEntries (D : Disk) (d : Dinode) : Set (ℕ × Str) :=
  { e | ∃ off, off % 16 = 0 ∧ off + 16 ≤ d.size.toNat ∧ entryAt D d off ≠ 0 ∧
    e = (entryAt D d off, nameAt D d off) }

/-- Every directory with other entries than before granted the caller write permission. -/
def Mediated (t : Turn) : Prop :=
  ∀ i, t.Keeps sb i → (inoOf sb t.before.fs.disk i).type = T_DIR →
    dirEntries t.after.fs.disk (inoOf sb t.after.fs.disk i) ≠
      dirEntries t.before.fs.disk (inoOf sb t.before.fs.disk i) → Writable sb t.move.p t.before i

/-- The calls that write a directory without a check find the permission there: a `link` in the
directory of the new name, a `usysinit` in that of the account file, and an `addUser` that gets to
the home directory in the root directory. -/
def Checked (p : Fin NPROC) (K : Kernel) : Call → Prop
  | .link (some old) (some new) => ∀ i, linkDir sb p K old new = some i → Writable sb p K i
  | .usysinit => ∀ i, accountsDir sb p K = some i → Writable sb p K i
  | .addUser (some username) (some password) => isRoot (K.proc p).id →
      (K.utable.insert username password).isSome → Writable sb p K ROOTINO
  | _ => True

variable {sb} {D D' : Disk} {K : Kernel} {p : Fin NPROC} {call : Call} {t : Turn} {i : ℕ}
    {content : Set ℕ}

/-! ### One call -/

/-- The modes that a call may set. -/
def modeSet (sb : Superblock) (p : Fin NPROC) (K : Kernel) (call : Call) :
    Set ℕ := { i | Chmods sb p K call i }

theorem allows_of_writable (hcall : ∀ path mode, call ≠ .chmod path mode)
    (hw : ∀ i, Writable sb p K i → i ∈ content) : Allows sb (K.ctx (modeSet sb p K call) content)
    (K.proc p).id := by
  rintro j - (hj | ⟨path, mode, hc, -⟩)
  · exact hw j hj
  · exact absurd hc (hcall _ _)

/-- The directories that grant write permission, and those that are written without a look, are all
a call writes. -/
theorem covers_modeSet (hw : ∀ i, Writable sb p K i → i ∈ content)
    (hc : Checked sb p K call ∨ content = Set.univ) :
    Covers sb p K (K.ctx (modeSet sb p K call) content) call := by
  have huniv : content = Set.univ → ∀ i, i ∈ content := fun h i => h ▸ Set.mem_univ i
  unfold Covers
  split
  · exact allows_of_writable (fun _ _ => by simp) hw
  · exact allows_of_writable (fun _ _ => by simp) hw
  · exact allows_of_writable (fun _ _ => by simp) hw
  · exact allows_of_writable (fun _ _ => by simp) hw
  · exact fun i hi => hc.elim (fun hc => hw i (hc i hi)) fun h => huniv h i
  · exact fun i hi => hc.elim (fun hc => hw i (hc i hi)) fun h => huniv h i
  · exact fun h1 h2 => hc.elim (fun hc => hw _ (hc h1 h2)) fun h => huniv h _
  · exact fun i hi ho => ⟨_, _, rfl, hi, ho⟩
  · trivial

/-- What a sane call has made of an inode that it did not free. -/
theorem since_turn (h : Intact sb t.before) (hstep : Step sb t.before t.move t.r t.after)
    (hs : Sane sb t.move.p t.before t.move.call) (hw : ∀ i, Writable sb t.move.p t.before i → i ∈ content)
    (hc : Checked sb t.move.p t.before t.move.call ∨ content = Set.univ) (hi : t.Keeps sb i) :
    Since sb (t.before.ctx (modeSet sb t.move.p t.before t.move.call) content) t.after.fs.disk i := by
  obtain ⟨A, hafter⟩ :=
    (sound_syscall (h.start _ content) t.move.call hs (covers_modeSet hw hc)).of_ok hstep.ret
  exact hafter.fs.since i hi.1 ⟨hi.2.1, hi.2.2.le⟩

theorem Intact.copies (h : Intact sb K) {d : Dinode} (hd : K.fs.Copies sb i d) :
    d = inoOf sb K.fs.disk i := by
  obtain ⟨c, A, h⟩ := h
  rcases hd with hd | ⟨k, hpos, hv, rfl, rfl⟩
  · exact hd
  · exact ((h.fs.slot k hpos).copy hv).1

theorem Intact.after (h : Intact sb t.before) (hstep : Step sb t.before t.move t.r t.after)
    (hs : Sane sb t.move.p t.before t.move.call) : Intact sb t.after := (h.call hs).of_ok hstep.ret

theorem authority_turn (h : Intact sb t.before) (hstep : Step sb t.before t.move t.r t.after)
    (hs : Sane sb t.move.p t.before t.move.call) : Authority sb t := by
  intro i hi d d' hd hd'
  rw [h.copies hd, (h.after hstep hs).copies hd']
  have hsince := since_turn h hstep hs (fun i _ => Set.mem_univ i) (.inr rfl) hi
  exact ⟨hsince.owner, hsince.mode⟩

/-- Entries are the same if the bytes are. -/
theorem dirEntries_congr {d d' : Dinode} (hsize : d'.size = d.size)
    (hb : ∀ x, x < d.size.toNat → byteOf D' d' x = byteOf D d x) : dirEntries D' d' = dirEntries D d := by
  have hentry : ∀ off, off + 16 ≤ d.size.toNat → entryAt D' d' off = entryAt D d off ∧
    nameAt D' d' off = nameAt D d off :=
    fun off hoff => by
      refine ⟨by rw [entryAt, entryAt, hb _ (by omega),
        hb _ (by omega)], List.map_congr_left fun j hj => hb _ ?_⟩
      have := List.mem_range.mp hj
      omega
  ext e
  refine exists_congr fun off => and_congr_right fun _ => ?_
  rw [hsize]
  refine and_congr_right fun hoff => ?_
  rw [(hentry off hoff).1, (hentry off hoff).2]

theorem mediated_turn (h : Intact sb t.before) (hstep : Step sb t.before t.move t.r t.after)
    (hs : Sane sb t.move.p t.before t.move.call) (hc : Checked sb t.move.p t.before t.move.call) :
    Mediated sb t := by
  intro i hi hty hne
  have hw : ∀ i, Writable sb t.move.p t.before i → i ∈ { i | Writable sb t.move.p t.before i } :=
    fun _ hw => hw
  have hsince := since_turn h hstep hs hw (.inl hc) hi
  rcases hsince.content hty with hw | ⟨hsize, hb⟩
  · exact hw
  · exact absurd (dirEntries_congr hsize hb) hne

/-! ### Runs -/

variable {disk : Disk} {tty : List (Option Str)} {log : List Turn}

/-- **Authority over owner and mode.** -/
theorem authority_of_reach (hi : Image sb disk) (hr : Reach sb (boot disk tty) log K)
    (hs : ∀ t ∈ log, Sane sb t.move.p t.before t.move.call) : ∀ t ∈ log, Authority sb t := fun t ht =>
  authority_turn ((intact_reach (intact_boot hi.diskOk tty) hr hs).2 t ht) (hr.turn ht) (hs t ht)

/-- **Directories are written with permission**, if the calls that do not look for it have it. -/
theorem mediated_of_reach (hi : Image sb disk) (hr : Reach sb (boot disk tty) log K)
    (hs : ∀ t ∈ log, Sane sb t.move.p t.before t.move.call)
    (hc : ∀ t ∈ log, Checked sb t.move.p t.before t.move.call) : ∀ t ∈ log, Mediated sb t := fun t ht =>
  mediated_turn ((intact_reach (intact_boot hi.diskOk tty) hr hs).2 t ht) (hr.turn ht) (hs t ht) (hc t ht)

end

set_option maxRecDepth 100000 in
theorem authority_chmod : ∃ log K, Reach smallSb (boot (bareDisk 61) []) log K ∧
    log.map Turn.move = [⟨0, .chmod (some [47]) (some 63)⟩] ∧ ∀ t ∈ log, Authority smallSb t := by
  have hrun : (play smallSb (boot (bareDisk 61) []) [⟨0, .chmod (some [47]) (some 63)⟩]).map
    (fun x => x.1.map Turn.r) =
      some [0] := by
    decide +kernel
  obtain ⟨log, K, hr, hms, -⟩ := exists_reach hrun
  refine ⟨log, K, hr, hms, authority_of_reach fsck_bareDisk.image hr fun t ht => ?_⟩
  rw [List.mem_singleton.mp (move_mem hms ht)]
  trivial

theorem mediated_mkdir : ∃ log K, Reach smallSb (boot (bareDisk 61) []) log K ∧
    log.map Turn.move = [⟨0, .mkdir (some [100])⟩] ∧ ∀ t ∈ log, Mediated smallSb t := by
  obtain ⟨log, K, hr, hms, hmove⟩ := reach_mkdir
  refine ⟨log, K, hr, hms, mediated_of_reach fsck_bareDisk.image hr (fun t ht => ?_) fun t ht => ?_⟩
  · rw [hmove t ht]
    trivial
  · rw [hmove t ht]
    trivial

/-- The entries of a directory in use, in order. -/
def entryList (D : Disk) (d : Dinode) : List (ℕ × Str) :=
  ((List.range (d.size.toNat / 16)).map fun j => (entryAt D d (16 * j), nameAt D d (16 * j))).filter
    fun e => e.1 ≠ 0

theorem mem_entryList {D : Disk} {d : Dinode} {e : ℕ × Str} : e ∈ entryList D d ↔ e ∈ dirEntries D d := by
  simp only [entryList, List.mem_filter, List.mem_map, List.mem_range, decide_eq_true_eq, ne_eq]
  constructor
  · rintro ⟨⟨j, hj, rfl⟩, h0⟩
    exact ⟨16 * j, by omega, by omega, h0, rfl⟩
  · rintro ⟨off, h1, h2, h0, rfl⟩
    refine ⟨⟨off / 16, by omega, ?_⟩, h0⟩
    rw [show 16 * (off / 16) = off by omega]

/-- Root makes a file in "/", takes the write permission of "/" away and links the file there. -/
def linkCalls : List Move :=
  [⟨0, .open (some [102]) (some 0x201)⟩, ⟨0, .chmod (some [47]) (some 8)⟩,
    ⟨0, .link (some [102]) (some [103])⟩]

set_option maxRecDepth 100000 in
/-- `link` makes an entry in a directory without write permission. -/
theorem link_unchecked : Image smallSb (bareDisk 61) ∧ ∃ log K,
    Reach smallSb (boot (bareDisk 61) []) log K ∧ log.map Turn.move = linkCalls ∧ ∃ t ∈ log,
    ¬Mediated smallSb t := by
  have hrun : (play smallSb (boot (bareDisk 61) []) linkCalls).map (fun x => x.1.any fun t =>
      (inoOf smallSb t.before.fs.disk 1).type = T_DIR && (t.after.fs.frees 1 = t.before.fs.frees 1 &&
        (grants (t.before.proc t.move.p).id (inoOf smallSb t.before.fs.disk 1) MODE_WUSR MODE_WOTH =
          false &&
          (entryList t.after.fs.disk (inoOf smallSb t.after.fs.disk 1)).any fun e =>
            e ∉ entryList t.before.fs.disk (inoOf smallSb t.before.fs.disk 1)))) = some true := by
    decide +kernel
  obtain ⟨log, K, hr, hms, hobs⟩ := exists_reach hrun
  obtain ⟨t, ht, hbad⟩ := List.any_eq_true.mp hobs
  simp only [Bool.and_eq_true, decide_eq_true_eq, List.any_eq_true, mem_entryList] at hbad
  obtain ⟨hty, hfrees, hno, e, he, hne⟩ := hbad
  refine ⟨fsck_bareDisk.image, log, K, hr, hms, t, ht, fun h => ?_⟩
  have hw := h 1 ⟨by decide, by rw [hty]; decide, hfrees⟩ hty fun heq => hne (heq ▸ he)
  rw [Writable, hno] at hw
  cases hw

/-- A disk of 72 blocks, otherwise like the small one. -/
def wideSb : Superblock := { smallSb with size := 72, size_lt := by decide }

/-- The string "useraccount". -/
def useraccount : Str := [117, 115, 101, 114, 97, 99, 99, 111, 117, 110, 116]

/-- A disk with a directory "useraccount", and a file "f" whose one block, number 64, looks like
inodes: the second of them is a file with block 32, where the inodes of the disk begin. -/
def forgedDisk : Disk :=
  Function.update
    (smallDisk [{ smallInode T_DIR 2 64 [36] with mode := 61 },
      { smallInode T_DIR 1 32 [37] with mode := 61 },
        smallInode T_FILE 1 512 [64]]
      [255, 255, 255, 255, 63, 0, 0, 0, 1]
      [Dirent.bytes 1 dot ++ Dirent.bytes 1 dotdot ++ Dirent.bytes 2 useraccount ++ Dirent.bytes 3 [102],
        Dirent.bytes 2 dot ++ Dirent.bytes 1 dotdot])
    64 ({ smallInode T_FILE 1 512 [32] with mode := 63 }.write (fun _ => 0) 64)

set_option maxRecDepth 100000 in
theorem fsck_forgedDisk : Fsck wideSb forgedDisk [(1, 0, 36), (2, 0, 37), (3, 0, 64)] := by decide +kernel

/-- The account file is the directory. A user is added whose name, as a directory entry, is "x" for
inode 257, which is in block 64; then "useraccount/x" is written. -/
def forgedCalls : List Move :=
  [⟨0, .usysinit⟩, ⟨0, .addUser (some [1, 1, 120]) (some [117])⟩,
    ⟨0, .open (some (useraccount ++ [47, 120])) (some 2)⟩,
    ⟨0, .write (some 0) (some (List.replicate 128 7)) 0⟩]

/-- The call has overwritten the inode of the root directory on disk, owner and mode included, while
the cache keeps it as it was. -/
structure Overwritten (t : Turn) : Prop where
  type : (inoOf wideSb t.before.fs.disk 1).type = T_DIR
  frees : t.after.fs.frees 1 = t.before.fs.frees 1
  owner : (inoOf wideSb t.after.fs.disk 1).id ≠ (inoOf wideSb t.before.fs.disk 1).id
  ref : 0 < (t.after.fs.icache 0).ref
  lock : (t.after.fs.icache 0).lock = false
  valid : (t.after.fs.icache 0).valid = true
  inum : (t.after.fs.icache 0).inum = 1
  mode : (t.after.fs.icache 0).d.mode ≠ (inoOf wideSb t.after.fs.disk 1).mode

set_option maxRecDepth 100000 in
theorem run_forgedCalls : ∃ log K, Reach wideSb (boot forgedDisk []) log K ∧ log.map Turn.move =
    forgedCalls ∧ ∃ t ∈ log, Overwritten t := by
  have hrun : (play wideSb (boot forgedDisk []) forgedCalls).map (fun x => x.1.any fun t =>
      (inoOf wideSb t.before.fs.disk 1).type = T_DIR && (t.after.fs.frees 1 = t.before.fs.frees 1 &&
        ((inoOf wideSb t.after.fs.disk 1).id.toList.headD 0 ≠
          (inoOf wideSb t.before.fs.disk 1).id.toList.headD 0 &&
          ((0 < (t.after.fs.icache 0).ref && (t.after.fs.icache 0).lock =
            false) && ((t.after.fs.icache 0).valid = true &&
            ((t.after.fs.icache 0).inum = 1 &&
              (t.after.fs.icache 0).d.mode ≠ (inoOf wideSb t.after.fs.disk 1).mode)))))) = some true := by
    decide +kernel
  obtain ⟨log, K, hr, hms, hobs⟩ := exists_reach hrun
  obtain ⟨t, ht, hbad⟩ := List.any_eq_true.mp hobs
  simp only [Bool.and_eq_true, decide_eq_true_eq] at hbad
  obtain ⟨hty, hfrees, hid, ⟨href, hl⟩, hv, hinum, hmode⟩ := hbad
  exact ⟨log, K, hr, hms, t, ht, hty, hfrees, fun h => hid (by rw [h]), href, hl, hv, hinum, hmode⟩

/-- A write to a file changes the owner of another inode. -/
theorem owner_overwritten : Image wideSb forgedDisk ∧ ∃ log K, Reach wideSb (boot forgedDisk []) log K ∧
    log.map Turn.move = forgedCalls ∧ ∃ t ∈ log, ¬Authority wideSb t := by
  obtain ⟨log, K, hr, hms, t, ht, hbad⟩ := run_forgedCalls
  refine ⟨fsck_forgedDisk.image, log, K, hr, hms, t, ht, fun h => hbad.owner ?_⟩
  exact (h 1 ⟨by decide, by rw [hbad.type]; decide, hbad.frees⟩ _ _ (.inl rfl) (.inl rfl)).1

end Xv6
