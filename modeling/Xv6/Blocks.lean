/-
# Every used block has one owner

`BlockInv` is the invariant of the block layer in fs.c's own terms: the bitmap marks the
metadata and what inodes point at, no block is pointed at twice, and contents have exactly
the blocks that their size needs. Sane calls keep it, from every image in which, besides,
inodes point into the data area and directories name inodes of the disk (`Image`).

An `addUser` that finds the root directory not in the cache breaks it: `dirlookup` is
called on an entry that has not been read, and `bmap` then allocates blocks for the inode that
the entry held before (`addUser_leaks_block`).
-/
import Xv6.Soundness

namespace Xv6

open Prog

section

variable (sb : Superblock) (D : Disk)

/-- Address `n` of inode `i`, which is in use, is `b`. Addresses 0 to 6 are the direct ones,
7 to 134 the entries of the indirect block, and 135 is the indirect block. -/
def PointsAt (i n b : ℕ) : Prop :=
  i < sb.ninodes ∧ (inoOf sb D i).type ≠ 0 ∧ n < 136 ∧ ptr D (inoOf sb D i) n = b

def Referenced (b : ℕ) : Prop := b ≠ 0 ∧ ∃ i n, PointsAt sb D i n b

/-- How many blocks the contents need: the size over `BSIZE`, rounded up. -/
def Dinode.blocks (d : Dinode) : ℕ := (d.size.toNat + 511) / 512

structure BlockInv : Prop where
  marked : ∀ b, b < sb.size → (usedAt sb D b = true ↔ b < sb.nmeta ∨ Referenced sb D b)
  once : ∀ b i j n m, b ≠ 0 → PointsAt sb D i n b → PointsAt sb D j m b → i = j ∧ n = m
  block : ∀ i, i < sb.ninodes → (inoOf sb D i).type = T_FILE ∨ (inoOf sb D i).type = T_DIR →
    ∀ n, n < 135 → (ptr D (inoOf sb D i) n ≠ 0 ↔ n < (inoOf sb D i).blocks)
  indirect : ∀ i, i < sb.ninodes → (inoOf sb D i).type = T_FILE ∨ (inoOf sb D i).type = T_DIR →
    (ptr D (inoOf sb D i) 135 ≠ 0 ↔ 7 < (inoOf sb D i).blocks)

/-- An image with the invariant, in which inodes point into the data area and are free,
directories, files or devices, and directories name inodes of the disk. -/
structure Image : Prop extends BlockInv sb D where
  data : ∀ b, Referenced sb D b → sb.nmeta ≤ b ∧ b < sb.size
  types : ∀ i, i < sb.ninodes → (inoOf sb D i).type = 0 ∨ (inoOf sb D i).type = T_DIR ∨
    (inoOf sb D i).type = T_FILE ∨ (inoOf sb D i).type = T_DEV
  dirs : ∀ i, i < sb.ninodes → (inoOf sb D i).type = T_DIR → DirOk sb D (inoOf sb D i)

end

section

variable {sb : Superblock} {D : Disk} {i n b : ℕ}

/-! ### Sound disks -/

theorem Dinode.lt_blocks (d : Dinode) : n < d.blocks ↔ n * 512 < d.size.toNat := by
  rw [Dinode.blocks]
  omega

theorem ptr_lt_of_ne_zero {d : Dinode} (h : ptr D d n ≠ 0) : n < 136 := by
  by_contra hn
  rw [ptr, dif_neg (by omega), if_neg (by omega), if_neg (by omega)] at h
  exact h rfl

theorem pointsAt_iff (hb : b ≠ 0) : PointsAt sb D i n b ↔ sites sb D (inoOf sb D) (i, n) = b := by
  rw [PointsAt, sites]
  constructor
  · rintro ⟨hi, ht, -, hp⟩
    rw [if_pos ⟨hi, ht⟩, hp]
  · intro h
    split_ifs at h with hx
    · exact ⟨hx.1, hx.2, ptr_lt_of_ne_zero (h ▸ hb), h⟩
    · exact absurd h.symm hb

theorem referenced_iff (hb : b ≠ 0) : Referenced sb D b ↔ ∃ x, sites sb D (inoOf sb D) x = b := by
  constructor
  · rintro ⟨-, i, n, hp⟩
    exact ⟨(i, n), (pointsAt_iff hb).mp hp⟩
  · rintro ⟨⟨i, n⟩, hx⟩
    exact ⟨hb, i, n, (pointsAt_iff hb).mpr hx⟩

theorem Image.diskOk (h : Image sb D) : DiskOk sb D := by
  refine ⟨⟨sb.nmeta_pos, fun b hlo hhi => (h.marked b hhi).mpr (.inl hlo), fun x hx => h.data _ ?_,
    fun x y hx hxy => ?_,
    fun b hlo hhi => ?_, fun b hb => hb.elim⟩, fun i hi ht hdev => ?_, h.dirs⟩
  · exact (referenced_iff hx).mpr ⟨x, rfl⟩
  · obtain ⟨h1, h2⟩ := h.once _ x.1 y.1 x.2 y.2 hx ((pointsAt_iff hx).mpr rfl)
      ((pointsAt_iff hx).mpr hxy.symm)
    exact Prod.ext h1 h2
  · have hb : b ≠ 0 := by
      have := sb.nmeta_pos
      omega
    rw [h.marked b hhi, referenced_iff hb, or_iff_right (by omega), Set.mem_empty_iff_false, or_false]
  · have hty : (inoOf sb D i).type = T_FILE ∨ (inoOf sb D i).type = T_DIR := by
      obtain h0 | h1 | h2 | h3 := h.types i hi
      · exact absurd h0 ht
      · exact .inr h1
      · exact .inl h2
      · exact absurd h3 hdev
    exact ⟨fun n hn => by rw [h.block i hi hty n hn, Dinode.lt_blocks],
      by rw [h.indirect i hi hty, Dinode.lt_blocks]⟩

theorem DiskOk.blockInv (h : DiskOk sb D) : BlockInv sb D := by
  have hshape : ∀ i, i < sb.ninodes → (inoOf sb D i).type = T_FILE ∨ (inoOf sb D i).type = T_DIR →
      Shaped D (inoOf sb D i) (inoOf sb D i).size.toNat := fun i hi hty =>
    h.shape i hi (by rcases hty with h | h <;> rw [h] <;> decide)
      (by rcases hty with h | h <;> rw [h] <;> decide)
  refine ⟨fun b hb => ?_, fun b i j n m hb hi hj => ?_, fun i hi hty n hn => ?_, fun i hi hty => ?_⟩
  · rcases Nat.lt_or_ge b sb.nmeta with hlo | hlo
    · exact iff_of_true (h.own.low b hlo hb) (.inl hlo)
    · have hb0 : b ≠ 0 := by
        have := sb.nmeta_pos
        omega
      rw [h.own.marked b hlo hb, referenced_iff hb0, or_iff_right (by omega : ¬b < sb.nmeta),
        Set.mem_empty_iff_false,
        or_false]
  · rw [pointsAt_iff hb] at hi hj
    exact Prod.mk.inj (h.own.inj _ _ (hi ▸ hb) (hi.trans hj.symm))
  · rw [(hshape i hi hty).block n hn, Dinode.lt_blocks]
  · rw [(hshape i hi hty).indirect, Dinode.lt_blocks]

/-- **Block ownership.** From an image, sane calls reach only states with the block invariant, and
none of them frees a free block. -/
theorem blockInv_of_reach {disk : Disk} {tty : List (Option Str)} {log : List Turn} {K : Kernel}
    (hi : Image sb disk) (hr : Reach sb (boot disk tty) log K)
    (hs : ∀ t ∈ log, Sane sb t.move.p t.before t.move.call) :
    BlockInv sb K.fs.disk ∧ ∀ p call, Sane sb p K call →
      syscall sb p call K ≠ .error (.panic "freeing free block") := by
  obtain ⟨hK, -⟩ := intact_reach (intact_boot hi.diskOk tty) hr hs
  refine ⟨?_, fun p call hsane hrun => (hK.call hsane).of_stop hrun rfl⟩
  obtain ⟨c, A, h⟩ := hK
  exact h.fs.disk.blockInv

end

/-! ### Checking an image -/

section

variable (sb : Superblock) (D : Disk)

/-- `P` lists all references: who (inode and address) points at which block, in the data area. -/
def RefsListed (P : List (ℕ × ℕ × ℕ)) : Prop :=
  (∀ i < sb.ninodes, (inoOf sb D i).type = 0 ∨ ∀ n < 136,
    ptr D (inoOf sb D i) n = 0 ∨ (i, n, ptr D (inoOf sb D i) n) ∈ P) ∧
  ∀ x ∈ P, PointsAt sb D x.1 x.2.1 x.2.2 ∧ sb.nmeta ≤ x.2.2 ∧ x.2.2 < sb.size

/-- The bitmap has the metadata and the blocks of the list, each once. -/
def BitmapListed (P : List (ℕ × ℕ × ℕ)) : Prop :=
  (P.map fun x => x.2.2).Nodup ∧
  ∀ b < sb.size, (usedAt sb D b = true ↔ b < sb.nmeta ∨ b ∈ P.map fun x => x.2.2)

/-- Inode `i` is one that the file system knows, with the blocks it needs; a directory names
inodes of the disk. -/
def InodeChecked (i : ℕ) : Prop :=
  (inoOf sb D i).type = 0 ∨ (inoOf sb D i).type = T_DEV ∨
    (((inoOf sb D i).type = T_DIR ∧ ∀ j < (inoOf sb D i).size.toNat / 16,
        entryAt D (inoOf sb D i) (16 * j) < sb.ninodes) ∨ (inoOf sb D i).type = T_FILE) ∧
      (∀ n < 135, (ptr D (inoOf sb D i) n ≠ 0 ↔ n < (inoOf sb D i).blocks)) ∧
      (ptr D (inoOf sb D i) 135 ≠ 0 ↔ 7 < (inoOf sb D i).blocks)

instance (i n b : ℕ) : Decidable (PointsAt sb D i n b) := inferInstanceAs (Decidable (_ ∧ _ ∧ _ ∧ _))

instance (P : List (ℕ × ℕ × ℕ)) : Decidable (RefsListed sb D P) :=
  @instDecidableAnd _ _ inferInstance inferInstance

instance (P : List (ℕ × ℕ × ℕ)) : Decidable (BitmapListed sb D P) := inferInstanceAs (Decidable (_ ∧ _))

instance (i : ℕ) : Decidable (InodeChecked sb D i) := inferInstanceAs (Decidable (_ ∨ _ ∨ _))

/-- A check of an image against the list of all its references. -/
def Fsck (P : List (ℕ × ℕ × ℕ)) : Prop :=
  RefsListed sb D P ∧ BitmapListed sb D P ∧ ∀ i < sb.ninodes, InodeChecked sb D i

instance (P : List (ℕ × ℕ × ℕ)) : Decidable (Fsck sb D P) := inferInstanceAs (Decidable (_ ∧ _ ∧ _))

variable {sb D}

theorem Fsck.image {P : List (ℕ × ℕ × ℕ)} (h : Fsck sb D P) : Image sb D := by
  obtain ⟨⟨hall, hreal⟩, ⟨hone, hbits⟩, hino⟩ := h
  have hmem : ∀ i n b, b ≠ 0 → PointsAt sb D i n b → (i, n, b) ∈ P := fun i n b hb hp => by
    obtain ⟨hi, ht, hn, rfl⟩ := hp
    exact ((hall i hi).resolve_left ht n hn).resolve_left hb
  have hshape : ∀ i, i < sb.ninodes → (inoOf sb D i).type = T_FILE ∨ (inoOf sb D i).type = T_DIR →
      (∀ n < 135, (ptr D (inoOf sb D i) n ≠ 0 ↔ n < (inoOf sb D i).blocks)) ∧
        (ptr D (inoOf sb D i) 135 ≠ 0 ↔ 7 < (inoOf sb D i).blocks) := fun i hi hty => by
    rcases hino i hi with h0 | h3 | ⟨-, h⟩
    · rcases hty with h | h <;> rw [h0] at h <;> cases h
    · rcases hty with h | h <;> rw [h3] at h <;> cases h
    · exact h
  refine ⟨⟨fun b hb => ?_, fun b i j n m hb hi hj => ?_, fun i hi hty => (hshape i hi hty).1,
    fun i hi hty => (hshape i hi hty).2⟩, fun b ⟨hb, i, n, hp⟩ => (hreal _ (hmem i n b hb hp)).2,
      fun i hi => ?_,
    fun i hi hty off h1 h2 => ?_⟩
  · rw [hbits b hb]
    refine or_congr_right ⟨fun hx => ?_, fun ⟨hb0, i, n, hp⟩ =>
      List.mem_map.mpr ⟨_, hmem i n b hb0 hp, rfl⟩⟩
    obtain ⟨x, hP, rfl⟩ := List.mem_map.mp hx
    have := hreal x hP
    have := sb.nmeta_pos
    exact ⟨by omega, x.1, x.2.1, (hreal x hP).1⟩
  · have := List.inj_on_of_nodup_map hone (hmem i n b hb hi) (hmem j m b hb hj) rfl
    obtain ⟨h1, h2⟩ := Prod.mk.inj this
    exact ⟨h1, (Prod.mk.inj h2).1⟩
  · rcases hino i hi with h0 | h3 | ⟨⟨h1, -⟩ | h2, -⟩
    · exact .inl h0
    · exact .inr (.inr (.inr h3))
    · exact .inr (.inl h1)
    · exact .inr (.inr (.inl h2))
  · rcases hino i hi with h0 | h3 | ⟨⟨-, hdir⟩ | h2, -⟩
    · rw [h0] at hty
      cases hty
    · rw [h3] at hty
      cases hty
    · have := hdir (off / 16) (by omega)
      rwa [show 16 * (off / 16) = off by omega] at this
    · rw [h2] at hty
      cases hty

/-- A block is not referenced if each inode in use has no indirect block and has it at none of its
addresses. -/
theorem not_referenced (h : ∀ i < sb.ninodes, (inoOf sb D i).type = 0 ∨
    (inoOf sb D i).addrs 7 = 0 ∧ ∀ n, (inoOf sb D i).addrs n ≠ UInt32.ofNat b) :
    ¬Referenced sb D b := by
  rintro ⟨h0, i, n, hi, ht, -, hp⟩
  obtain ⟨h7, hne⟩ := (h i hi).resolve_left ht
  unfold ptr at hp
  split at hp
  · exact hne _ (by rw [← hp, UInt32.ofNat_toNat])
  · rw [h7] at hp
    split at hp
    · exact h0 hp.symm
    · split at hp
      · exact h0 hp.symm
      · exact h0 hp.symm

end

/-! ### Runs -/

set_option maxRecDepth 100000 in
theorem fsck_bareDisk : Fsck smallSb (bareDisk 61) [(1, 0, 36)] := by decide +kernel

set_option maxRecDepth 100000 in
/-- Root makes the directory "d". -/
theorem reach_mkdir : ∃ log K, Reach smallSb (boot (bareDisk 61) []) log K ∧
    log.map Turn.move = [⟨0, .mkdir (some [100])⟩] ∧ ∀ t ∈ log, t.move = ⟨0, .mkdir (some [100])⟩ := by
  have hrun : (play smallSb (boot (bareDisk 61) []) [⟨0, .mkdir (some [100])⟩]).map
    (fun x => x.1.map Turn.r) =
      some [0] := by
    decide +kernel
  obtain ⟨log, K, hr, hms, -⟩ := exists_reach hrun
  exact ⟨log, K, hr, hms, fun t ht => List.mem_singleton.mp (move_mem hms ht)⟩

theorem blockInv_mkdir : ∃ log K, Reach smallSb (boot (bareDisk 61) []) log K ∧
    log.map Turn.move = [⟨0, .mkdir (some [100])⟩] ∧ BlockInv smallSb K.fs.disk ∧
    ∀ p call, Sane smallSb p K call → syscall smallSb p call K ≠
    .error (.panic "freeing free block") := by
  obtain ⟨log, K, hr, hms, hmove⟩ := reach_mkdir
  refine ⟨log, K, hr, hms, blockInv_of_reach fsck_bareDisk.image hr fun t ht => ?_⟩
  rw [hmove t ht]
  trivial

open Dirent (bytes)

/-- A disk with a directory "b" of eight blocks and a directory "d" with a file "x". -/
def leakDisk : Disk :=
  smallDisk [{ smallInode T_DIR 3 64 [36] with mode := 61 },
      { smallInode T_DIR 1 3600 [38, 39, 40, 41, 42, 43, 44, 37] with mode := 61 },
      { smallInode T_DIR 1 48 [46] with mode := 61 }, smallInode T_FILE 1 0 []]
    [255, 255, 255, 255, 255, 127]
    [bytes 1 dot ++ bytes 1 dotdot ++ bytes 2 [98] ++ bytes 3 [100], [45],
      bytes 2 dot ++ bytes 1 dotdot, [], [], [], [], [], [], [],
      bytes 3 dot ++ bytes 1 dotdot ++ bytes 4 [120]]

set_option maxRecDepth 100000 in
theorem fsck_leakDisk : Fsck smallSb leakDisk [(1, 0, 36), (2, 0, 38), (2, 1, 39), (2, 2, 40),
    (2, 3, 41), (2, 4, 42), (2, 5, 43), (2, 6, 44), (2, 7, 45), (2, 135, 37),
    (3, 0, 46)] := by decide +kernel

/-- Root leaves "/" for "/d" and has "x" and "/b" read into the cache, in the entry that "/" had.
Then "/b" is removed, a new file takes its indirect block, and `addUser` looks for a home directory
in "/". -/
def leakCalls : List Move :=
  [⟨0, .usysinit⟩, ⟨0, .chdir (some [100])⟩, ⟨0, .open (some [120]) (some 0)⟩,
    ⟨0, .open (some [47, 98]) (some 0)⟩,
    ⟨0, .close (some 0)⟩, ⟨0, .close (some 1)⟩, ⟨0, .unlink (some [47, 98])⟩,
      ⟨0, .open (some [120]) (some 0)⟩,
    ⟨0, .open (some [103]) (some 0x201)⟩, ⟨0, .write (some 1) (some [0]) 0⟩,
      ⟨0, .addUser (some [117]) (some [117])⟩]

set_option maxRecDepth 100000 in
/-- `addUser` searches the root directory through an entry of the cache that has not been read. It
takes the size and the addresses of the directory that was there before, and `bmap` allocates a
block that nothing points at. -/
theorem addUser_leaks_block : Image smallSb leakDisk ∧ ∃ log K, Reach smallSb (boot leakDisk []) log K ∧
    log.map Turn.move = leakCalls ∧ ¬BlockInv smallSb K.fs.disk := by
  have hrun : (play smallSb (boot leakDisk []) leakCalls).map (fun x : List Turn × Kernel => 
      (usedAt smallSb x.2.fs.disk 38, (List.range 16).all fun i =>
        (inoOf smallSb x.2.fs.disk i).type = 0 ||
        ((inoOf smallSb x.2.fs.disk i).addrs 7 = 0 &&
          (List.finRange 8).all fun n => (inoOf smallSb x.2.fs.disk i).addrs n ≠ UInt32.ofNat 38))) =
      some (true, true) := by
    decide +kernel
  obtain ⟨log, K, hr, hms, hobs⟩ := exists_reach hrun
  simp only [Prod.mk.injEq, List.all_eq_true, List.mem_range, Bool.or_eq_true, Bool.and_eq_true,
    decide_eq_true_eq,
    List.mem_finRange, true_imp_iff] at hobs
  refine ⟨fsck_leakDisk.image, log, K, hr, hms, fun h => ?_⟩
  rcases (h.marked 38 (by decide)).mp hobs.1 with hlt | href
  · exact absurd hlt (by decide)
  · exact not_referenced hobs.2 href

end Xv6
