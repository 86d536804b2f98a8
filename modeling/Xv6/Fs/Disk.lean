/-
# The disk format

fs.h: the superblock, the inodes packed eight to a block, and the bitmap of
used blocks. A disk gives the contents of each block as `bread` returns them,
so what the log has not yet installed is already there.

The rest of the development reads a disk through `dinodeAt` and `usedAt` and
changes it through `setDinode` and `setUsed`. What each change does to each
reading is said here once; it rests on the layout, which a `Superblock` carries:
the inode blocks end before the bitmap and the bitmap before the data blocks.

Sizes are written out: a block has `BSIZE` = 512 bytes, an inode 64, so there
are `IPB` = 8 inodes in a block; a bitmap block has `BPB` = 4096 bits; an inode
has `NDIRECT` = 7 direct addresses and an indirect block with `NINDIRECT` = 128.
-/
import Xv6.RedoLog
import Xv6.Cstring
import Xv6.Param

namespace Xv6

open Function (update update_self update_of_ne)

export RedoLog (Block Disk)

/-- Root i-number. -/
abbrev ROOTINO : ℕ := 1
abbrev ROOTDEV : ℕ := 1

def T_DIR : Int16 := 1
def T_FILE : Int16 := 2
def T_DEV : Int16 := 3

def MODE_RUSR : UInt32 := 32
def MODE_WUSR : UInt32 := 16
def MODE_XUSR : UInt32 := 8
def MODE_ROTH : UInt32 := 4
def MODE_WOTH : UInt32 := 2
def MODE_XOTH : UInt32 := 1

/-- `struct superblock`, with the order of the areas that mkfs lays out:
log, inode blocks, free bit map, data blocks. -/
structure Superblock where
  size : ℕ
  ninodes : ℕ
  nlog : ℕ
  logstart : ℕ
  inodestart : ℕ
  bmapstart : ℕ
  log_le : logstart + nlog ≤ inodestart
  inodes_le : inodestart + (ninodes / 8 + 1) ≤ bmapstart
  root_lt : ROOTINO < ninodes
  size_lt : size < 2 ^ 32

namespace Superblock

variable (sb : Superblock)

/-- Block containing inode `i`. -/
def IBLOCK (i : ℕ) : ℕ := i / 8 + sb.inodestart

/-- Block of free map containing bit for block `b`. -/
def BBLOCK (b : ℕ) : ℕ := b / 4096 + sb.bmapstart

/-- The metadata blocks are those below the first data block. -/
def nmeta : ℕ := sb.bmapstart + (sb.size / 4096 + 1)

theorem IBLOCK_lt {i : ℕ} (h : i < sb.ninodes) : sb.IBLOCK i < sb.bmapstart := by
  have := sb.inodes_le
  have := Nat.div_le_div_right (c := 8) h.le
  rw [IBLOCK]
  omega

theorem BBLOCK_ge (b : ℕ) : sb.bmapstart ≤ sb.BBLOCK b := Nat.le_add_left _ _

theorem BBLOCK_lt {b : ℕ} (h : b < sb.size) : sb.BBLOCK b < sb.nmeta := by
  have := Nat.div_le_div_right (c := 4096) h.le
  rw [BBLOCK, nmeta]
  omega

theorem bmapstart_lt : sb.bmapstart < sb.nmeta := by
  rw [nmeta]
  omega

theorem nmeta_pos : 0 < sb.nmeta := by
  have := sb.bmapstart_lt
  omega

end Superblock

/-- On-disk inode structure. -/
structure Dinode where
  type : Int16
  major : Int16
  minor : Int16
  nlink : Int16
  size : UInt32
  addrs : Fin 8 → UInt32
  id : Ident
  mode : UInt32
  deriving DecidableEq

/-- A direct address is an address. -/
theorem direct_lt {n : ℕ} (h : n < 7) : n < 8 := h.trans (by decide)

namespace Dinode

def zero : Dinode := ⟨0, 0, 0, 0, 0, fun _ => 0, Vector.replicate 16 0, 0⟩

def byte (d : Dinode) (o : ℕ) : UInt8 :=
  if o < 2 then Mem.byte16 d.type.toUInt16 o
  else if o < 4 then Mem.byte16 d.major.toUInt16 (o - 2)
  else if o < 6 then Mem.byte16 d.minor.toUInt16 (o - 4)
  else if o < 8 then Mem.byte16 d.nlink.toUInt16 (o - 6)
  else if o < 12 then Mem.byte32 d.size (o - 8)
  else if h : o < 44 then Mem.byte32 (d.addrs ⟨(o - 12) / 4, by omega⟩) ((o - 12) % 4)
  else if o < 60 then d.id.toList.getD (o - 44) 0
  else Mem.byte32 d.mode (o - 60)

/-- The inode at offset `o` of a block. -/
def read (bp : Block) (o : ℕ) : Dinode where
  type := (bp.word16 o).toInt16
  major := (bp.word16 (o + 2)).toInt16
  minor := (bp.word16 (o + 4)).toInt16
  nlink := (bp.word16 (o + 6)).toInt16
  size := bp.word32 (o + 8)
  addrs := fun n => bp.word32 (o + 12 + 4 * n)
  id := Vector.ofFn fun j => bp (o + 44 + j)
  mode := bp.word32 (o + 60)

/-- The block with `d` stored at offset `o`. -/
def write (d : Dinode) (bp : Block) (o : ℕ) : Block := bp.splice o 64 d.byte

/-- `d` with its owner field copied by `strncpy`, as `ilock` and `iupdate` copy
it: what follows the NUL is cleared. -/
def copyId (d : Dinode) : Dinode := { d with id := Ident.ofStr d.id.toList }

@[simp] theorem copyId_copyId (d : Dinode) : d.copyId.copyId = d.copyId := by
  simp only [copyId]
  congr 1
  apply Ident.ofStr_congr
  rw [Ident.toList_ofStr, cname_strncpy]

theorem read_write (d : Dinode) (bp : Block) (o : ℕ) : read (d.write bp o) o = d := by
  have hb : ∀ x < 64, d.write bp o (o + x) = d.byte x := fun x hx =>
    Mem.splice_add bp o 64 x d.byte hx
  have h16 : ∀ (p : ℕ) (w : UInt16), (∀ x < 2, d.byte (p + x) = Mem.byte16 w x) → p + 2 ≤ 64 →
      (d.write bp o).word16 (o + p) = w := fun p w hw hp => Mem.word16_of_bytes fun x hx => by
    rw [Nat.add_assoc, hb _ (by omega), hw x hx]
  have h32 : ∀ (p : ℕ) (w : UInt32), (∀ x < 4, d.byte (p + x) = Mem.byte32 w x) → p + 4 ≤ 64 →
      (d.write bp o).word32 (o + p) = w := fun p w hw hp => Mem.word32_of_bytes fun x hx => by
    rw [Nat.add_assoc, hb _ (by omega), hw x hx]
  have hty := h16 0 d.type.toUInt16 (fun x hx => by interval_cases x <;> rfl) (by decide)
  have hma := h16 2 d.major.toUInt16 (fun x hx => by interval_cases x <;> rfl) (by decide)
  have hmi := h16 4 d.minor.toUInt16 (fun x hx => by interval_cases x <;> rfl) (by decide)
  have hnl := h16 6 d.nlink.toUInt16 (fun x hx => by interval_cases x <;> rfl) (by decide)
  have hsz := h32 8 d.size (fun x hx => by interval_cases x <;> rfl) (by decide)
  have hmo := h32 60 d.mode (fun x hx => by interval_cases x <;> rfl) (by decide)
  have had : ∀ n : Fin 8, (d.write bp o).word32 (o + (12 + 4 * n)) = d.addrs n := by
    intro n
    refine h32 _ _ (fun x hx => ?_) (by omega)
    have hn : (12 + 4 * (n : ℕ) + x - 12) / 4 = n := by omega
    have hx' : (12 + 4 * (n : ℕ) + x - 12) % 4 = x := by omega
    rw [byte, if_neg (by omega), if_neg (by omega), if_neg (by omega), if_neg (by omega),
      if_neg (by omega), dif_pos (by omega), hx']
    congr 2
    exact Fin.ext hn
  have hid : ∀ j (hj : j < 16), d.write bp o (o + (44 + j)) = d.id[j] := by
    intro j hj
    rw [hb _ (by omega), byte, if_neg (by omega), if_neg (by omega), if_neg (by omega),
      if_neg (by omega), if_neg (by omega), dif_neg (by omega), if_pos (by omega)]
    simp [hj]
  simp only [read]
  rw [Nat.add_zero] at hty
  simp only [hty, hma, hmi, hnl, hsz, hmo, Nat.add_assoc, had]
  cases d with
  | mk type major minor nlink size addrs id mode =>
    simp only [Int16.toInt16_toUInt16, mk.injEq, true_and, and_true]
    apply Vector.ext
    intro j hj
    rw [Vector.getElem_ofFn]
    exact hid j hj

/-- A block that keeps the bytes of an inode keeps the inode. -/
theorem read_congr {bp bp' : Block} {o : ℕ} (h : ∀ x, o ≤ x → x < o + 64 → bp' x = bp x) :
    read bp' o = read bp o := by
  simp only [read]
  congr 1
  · rw [Mem.word16_congr fun x h1 h2 => h x (by omega) (by omega)]
  · rw [Mem.word16_congr fun x h1 h2 => h x (by omega) (by omega)]
  · rw [Mem.word16_congr fun x h1 h2 => h x (by omega) (by omega)]
  · rw [Mem.word16_congr fun x h1 h2 => h x (by omega) (by omega)]
  · exact Mem.word32_congr fun x h1 h2 => h x (by omega) (by omega)
  · funext n
    exact Mem.word32_congr fun x h1 h2 => h x (by omega) (by omega)
  · congr 1
    funext j
    exact h _ (by omega) (by omega)
  · exact Mem.word32_congr fun x h1 h2 => h x (by omega) (by omega)

end Dinode

/-! ### The bitmap -/

/-- `1 << (bi % 8)`. -/
def mask (bi : ℕ) : UInt8 := 1 <<< UInt8.ofNat (bi % 8)

/-- Bit `bi` of a bitmap block is set. -/
def marked (bp : Block) (bi : ℕ) : Bool := bp (bi / 8) &&& mask bi ≠ 0

theorem mask_getLsbD (bi : ℕ) {j : ℕ} (hj : j < 8) :
    (mask bi).toBitVec.getLsbD j = decide (j = bi % 8) := by
  have h8 : bi % 8 < 8 := Nat.mod_lt _ (by decide)
  interval_cases h : bi % 8 <;> interval_cases j <;> simp [mask, h]

theorem marked_eq (bp : Block) (bi : ℕ) :
    marked bp bi = (bp (bi / 8)).toBitVec.getLsbD (bi % 8) := by
  have h8 : bi % 8 < 8 := Nat.mod_lt _ (by decide)
  rw [marked]
  by_cases hb : (bp (bi / 8)).toBitVec.getLsbD (bi % 8) = true
  · rw [hb, decide_eq_true_iff]
    intro h0
    have := congrArg (fun x : UInt8 => x.toBitVec.getLsbD (bi % 8)) h0
    simp only [UInt8.toBitVec_and, BitVec.getLsbD_and, hb, mask_getLsbD bi h8] at this
    simp at this
  · rw [Bool.not_eq_true] at hb
    rw [hb, decide_eq_false_iff_not, not_not]
    apply UInt8.toBitVec_inj.mp
    apply BitVec.eq_of_getLsbD_eq
    intro j hj
    rw [UInt8.toBitVec_and, BitVec.getLsbD_and, mask_getLsbD bi hj]
    by_cases hji : j = bi % 8
    · simp [hji, hb]
    · simp [hji]

/-- `bp->data[bi/8] |= m` if `v`, and `&= ~m` if not. -/
def setMark (bp : Block) (bi : ℕ) (v : Bool) : Block :=
  update bp (bi / 8) (if v then bp (bi / 8) ||| mask bi else bp (bi / 8) &&& ~~~mask bi)

theorem marked_setMark (bp : Block) (bi bj : ℕ) (v : Bool) :
    marked (setMark bp bi v) bj = if bj = bi then v else marked bp bj := by
  have h8 : bj % 8 < 8 := Nat.mod_lt _ (by decide)
  rw [marked_eq, marked_eq, setMark]
  by_cases hbyte : bj / 8 = bi / 8
  · rw [hbyte, update_self]
    have hiff : bj = bi ↔ bj % 8 = bi % 8 := by omega
    cases v
    · simp only [Bool.false_eq_true, if_false, UInt8.toBitVec_and, UInt8.toBitVec_not,
        BitVec.getLsbD_and, BitVec.getLsbD_not, mask_getLsbD bi h8]
      by_cases h : bj % 8 = bi % 8 <;> simp [hiff, h, h8]
    · simp only [if_true, UInt8.toBitVec_or, BitVec.getLsbD_or, mask_getLsbD bi h8]
      by_cases h : bj % 8 = bi % 8 <;> simp [hiff, h]
  · rw [update_of_ne hbyte, if_neg fun h => hbyte (by rw [h])]

/-! ### Reading and changing a disk -/

section

variable (sb : Superblock)

/-- The inode `i` on disk. -/
def dinodeAt (disk : Disk) (i : ℕ) : Dinode := .read (disk (sb.IBLOCK i)) (64 * (i % 8))

/-- The block of inode `i` after `d` is stored there. -/
def inodeBlock (disk : Disk) (i : ℕ) (d : Dinode) : Block :=
  d.write (disk (sb.IBLOCK i)) (64 * (i % 8))

/-- The disk after `d` is stored as inode `i`. -/
def setDinode (disk : Disk) (i : ℕ) (d : Dinode) : Disk :=
  update disk (sb.IBLOCK i) (inodeBlock sb disk i d)

/-- Block `b` is marked used in the bitmap. -/
def usedAt (disk : Disk) (b : ℕ) : Bool := marked (disk (sb.BBLOCK b)) (b % 4096)

/-- The bitmap block of `b` after `b` is marked used or free. -/
def bitmapBlock (disk : Disk) (b : ℕ) (v : Bool) : Block :=
  setMark (disk (sb.BBLOCK b)) (b % 4096) v

/-- The disk after block `b` is marked used or free. -/
def setUsed (disk : Disk) (b : ℕ) (v : Bool) : Disk :=
  update disk (sb.BBLOCK b) (bitmapBlock sb disk b v)

variable {sb} {disk : Disk} {i j b c : ℕ}

@[simp] theorem dinodeAt_setDinode_self (d : Dinode) :
    dinodeAt sb (setDinode sb disk i d) i = d := by
  rw [dinodeAt, setDinode, update_self]
  exact Dinode.read_write d _ _

theorem dinodeAt_setDinode_ne (d : Dinode) (h : j ≠ i) :
    dinodeAt sb (setDinode sb disk i d) j = dinodeAt sb disk j := by
  rw [dinodeAt, dinodeAt, setDinode]
  by_cases hb : sb.IBLOCK j = sb.IBLOCK i
  · rw [hb, update_self]
    apply Dinode.read_congr
    intro x h1 h2
    simp only [Superblock.IBLOCK] at hb
    rcases Nat.lt_or_ge (j % 8) (i % 8) with hlt | hge
    · exact Mem.splice_of_lt (by omega)
    · exact Mem.splice_of_ge (by omega)
  · rw [update_of_ne hb]

/-- A write outside the inode blocks keeps every inode. -/
theorem dinodeAt_update (hi : i < sb.ninodes) (hb : sb.bmapstart ≤ b) (data : Block) :
    dinodeAt sb (update disk b data) i = dinodeAt sb disk i := by
  have := sb.IBLOCK_lt hi
  rw [dinodeAt, dinodeAt, update_of_ne (by omega)]

theorem dinodeAt_setUsed (hi : i < sb.ninodes) (v : Bool) :
    dinodeAt sb (setUsed sb disk b v) i = dinodeAt sb disk i :=
  dinodeAt_update hi (sb.BBLOCK_ge b) _

theorem usedAt_setUsed (v : Bool) :
    usedAt sb (setUsed sb disk b v) c = if c = b then v else usedAt sb disk c := by
  rw [usedAt, usedAt, setUsed]
  by_cases hb : sb.BBLOCK c = sb.BBLOCK b
  · rw [hb, update_self, bitmapBlock, marked_setMark]
    simp only [Superblock.BBLOCK] at hb
    have hiff : c % 4096 = b % 4096 ↔ c = b := by omega
    simp only [hiff]
  · rw [update_of_ne hb, if_neg fun h => hb (by rw [h])]

/-- A write outside the bitmap keeps the bitmap. -/
theorem usedAt_update (hc : c < sb.size) (hb : b < sb.bmapstart ∨ sb.nmeta ≤ b) (data : Block) :
    usedAt sb (update disk b data) c = usedAt sb disk c := by
  have h1 := sb.BBLOCK_ge c
  have h2 := sb.BBLOCK_lt hc
  rw [usedAt, usedAt, update_of_ne (by omega)]

theorem usedAt_setDinode (hi : i < sb.ninodes) (hc : c < sb.size) (d : Dinode) :
    usedAt sb (setDinode sb disk i d) c = usedAt sb disk c :=
  usedAt_update hc (.inl (sb.IBLOCK_lt hi)) _

/-- Neither changes a data block. -/
theorem setDinode_data (hi : i < sb.ninodes) (hb : sb.nmeta ≤ b) (d : Dinode) :
    setDinode sb disk i d b = disk b := by
  have := sb.IBLOCK_lt hi
  have := sb.bmapstart_lt
  exact update_of_ne (by omega) _ _

theorem setUsed_data (hc : c < sb.size) (hb : sb.nmeta ≤ b) (v : Bool) :
    setUsed sb disk c v b = disk b := by
  have := sb.BBLOCK_lt hc
  exact update_of_ne (by omega) _ _

end

end Xv6
