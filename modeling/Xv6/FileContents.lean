/-
# A file is its bytes

What readi and writei are for: an inode that is a file or a directory holds a list of bytes
(`contents`), readi returns a part of it and writei replaces a part of it, whatever blocks the bytes
are in. All that a write needs besides is blocks that are free and room in the log for the different
blocks that it writes. The log has room for 30, so a single writei cannot write a whole file of the
greatest size: there is a panic (`writei_over_log`).
-/
import Xv6.Blocks
import Xv6.Lib.Splice

namespace Xv6

open Prog

/-- The bytes that inode `i` holds. -/
def contents (sb : Superblock) (D : Disk) (i : ℕ) : Str :=
  (List.range (inoOf sb D i).size.toNat).map (byteOf D (inoOf sb D i))

section

variable {sb : Superblock} {s s' : Fs} {D : Disk} {i j off n : ℕ} {k : Slot} {src : Str}
    {f : ℕ → UInt8} {E : Stop → Prop}

theorem length_contents : (contents sb D i).length = (inoOf sb D i).size.toNat := by
  rw [contents, List.length_map, List.length_range]

theorem getElem?_contents {x : ℕ} (hx : x < (inoOf sb D i).size.toNat) :
    (contents sb D i)[x]? = some (byteOf D (inoOf sb D i) x) := by
  rw [contents, List.getElem?_map, List.getElem?_range hx]
  rfl

/-- **`readi` returns a part of the contents.** -/
theorem sat_readi (h : Loaded sb s k i) (hs : Sited sb s.disk i) (off n : ℕ)
    (hE : MAXFILE * BSIZE < (inoOf sb s.disk i).size.toNat → E (.panic "bmap: out of range")) :
    Sat (readi sb k off n) s (fun r s' => s' = s ∧
      r = if (inoOf sb s.disk i).size.toNat < off ∨ (off + n) % 2 ^ 32 < off then none
        else some (((contents sb s.disk i).drop off).take n)) E := by
  have hshape := hs.shape
  rw [← h.copy] at hshape hE ⊢
  refine .get_bind ?_
  rw [if_neg (by rw [h.copy]; exact h.file)]
  refine .ite (fun hno => .pure ⟨rfl, by rw [if_pos hno]⟩) fun hok => ?_
  rw [if_neg hok]
  obtain ⟨m, hm⟩ :
    ∃ m, m = if (s.icache k).d.size.toNat < off + n then (s.icache k).d.size.toNat - off
      else n := ⟨_, rfl⟩
  have hmin : m = min n ((s.icache k).d.size.toNat - off) := by
    rw [hm]
    split <;> omega
  rw [← hm]
  refine (read_readLoop hshape hE m off m le_rfl (by omega)).bind ?_
  rintro buf _ ⟨rfl, rfl⟩
  refine .pure ⟨rfl, congrArg some (List.ext_getElem? fun x => ?_)⟩
  rw [List.getElem?_map, List.getElem?_take, List.getElem?_drop]
  by_cases hx : x < m
  · rw [List.getElem?_range hx, if_pos (by omega), getElem?_contents (by rw [← h.copy]; omega), h.copy]
    rfl
  · rw [List.getElem?_eq_none (by rw [List.length_range]; omega)]
    split
    · rw [List.getElem?_eq_none (by rw [length_contents, ← h.copy]; omega)]
      rfl
    · rfl

namespace Written

/-- **A write replaces a part of the contents.** -/
theorem contents (h : Written sb s k i off src.length (fun j => src.getD j 0) s')
    (hoff : off ≤ (inoOf sb s.disk i).size.toNat) :
    contents sb s'.disk i = (contents sb s.disk i).splice off src := by
  refine List.eq_splice (by rw [length_contents]; exact hoff)
    (by rw [length_contents, length_contents, h.size]) fun x hx => ?_
  rw [length_contents] at hx
  rw [getElem?_contents hx, h.byte x hx, Mem.splice]
  have hsize := h.size
  by_cases hin : off ≤ x ∧ x < off + src.length
  · rw [if_pos hin, if_pos hin, List.getD_eq_getElem?_getD, List.getElem?_eq_getElem (by omega)]
    rfl
  · rw [if_neg hin, if_neg hin, getElem?_contents (by omega)]

theorem loaded (h : Written sb s k i off n f s') (hk : Loaded sb s k i) : Loaded sb s' k i := by
  have htype : (inoOf sb s'.disk i).type = (inoOf sb s.disk i).type := by rw [h.fields]
  have hentry :
    s'.icache k =
      { s.icache k with d := inoOf sb s'.disk i } := by rw [h.stored.cache, Function.update_self]
  exact ⟨hk.lt, by rw [hentry]; exact hk.inum, by rw [hentry], htype ▸ hk.used, htype ▸ hk.file⟩

theorem sited (h : Written sb s k i off n f s') : Sited sb s'.disk i := ⟨h.stored.own, h.shape⟩

/-- Other inodes have their fields and their contents. -/
theorem other (h : Written sb s k i off n f s') (hj : j < sb.ninodes) (hji : j ≠ i) :
    inoOf sb s'.disk j = inoOf sb s.disk j ∧
      ((inoOf sb s.disk j).type ≠ 0 → Xv6.contents sb s'.disk j = Xv6.contents sb s.disk j) := by
  have hino := h.stored.frame.ino j hj hji
  refine ⟨hino, fun ht => ?_⟩
  rw [Xv6.contents, Xv6.contents, hino]
  exact List.map_congr_left fun x _ => (h.stored.frame.untouched j hj hji ht).byteOf x

end Written

/-- After a write of `src` at `off`: the size and the contents of the inode, what a read of it
returns, and the other inodes. -/
structure Rewritten (sb : Superblock) (s : Fs) (k : Slot) (i off : ℕ) (src : Str) (s' : Fs) : Prop where
  size : (inoOf sb s'.disk i).size.toNat = max (inoOf sb s.disk i).size.toNat (off + src.length)
  bytes : contents sb s'.disk i = (contents sb s.disk i).splice off src
  read : (inoOf sb s'.disk i).size.toNat ≤ MAXFILE * BSIZE → ∀ o n, readi sb k o n s' =
    .ok (if (inoOf sb s'.disk i).size.toNat < o ∨ (o + n) % 2 ^ 32 < o then none
      else some (((contents sb s'.disk i).drop o).take n), s')
  other : ∀ j, j < sb.ninodes → j ≠ i → inoOf sb s'.disk j = inoOf sb s.disk j ∧
    ((inoOf sb s.disk j).type ≠ 0 → contents sb s'.disk j = contents sb s.disk j)
  loaded : Loaded sb s' k i
  sited : Sited sb s'.disk i

theorem Written.rewritten (h : Written sb s k i off src.length (fun j => src.getD j 0) s')
    (hk : Loaded sb s k i) (hoff : off ≤ (inoOf sb s.disk i).size.toNat) :
    Rewritten sb s k i off src s' := by
  refine ⟨h.size, h.contents hoff, fun hmax o n => ?_, fun j hj hji => h.other hj hji, h.loaded hk,
    h.sited⟩
  obtain ⟨r, s2, hrun, rfl, rfl⟩ :=
    (sat_readi (E := fun _ => False) (h.loaded hk) h.sited o n fun hlt => by omega).exists_run
  exact hrun

/-- Beyond the end of the file or past the greatest size nothing is written. -/
theorem writei_rejects (h : Loaded sb s k i)
    (hno : (inoOf sb s.disk i).size.toNat < off ∨ (off + src.length) % 2 ^ 32 < off ∨
      MAXFILE * BSIZE < off + src.length) :
    Sat (writei sb k src off) s (fun r s' => r = none ∧ s' = s) E := by
  refine .get_bind ?_
  rw [h.copy, if_neg h.file]
  exact .ite (fun _ => .pure ⟨rfl, rfl⟩) fun h1 => by
    rw [if_pos (by omega)]
    exact .pure ⟨rfl, rfl⟩

end

/-! ### A file of 31 blocks -/

/-- As `smallSb`, with data blocks 36 to 127. -/
def longSb : Superblock := { smallSb with size := 128, size_lt := by decide }

/-- The file 2 has the blocks 37 to 43 and, from the indirect block 44, the blocks 45 to 68. -/
def longDisk : Disk :=
  smallDisk [smallInode T_DIR 1 32 [36], smallInode T_FILE 1 15872 [37, 38, 39, 40, 41, 42, 43, 44]]
    [255, 255, 255, 255, 255, 255, 255, 255, 31]
    [Dirent.bytes 1 dot ++ Dirent.bytes 1 dotdot, [], [], [], [], [], [], [],
      ((List.range 24).map fun n => [UInt8.ofNat (45 + n), 0, 0, 0]).flatten]

set_option maxRecDepth 100000 in
theorem fsck_longDisk :
    Fsck longSb longDisk ([(1, 0, 36), (2, 135, 44)] ++ (List.range 7).map
      (fun n => (2, n, 37 + n)) ++
    (List.range 24).map (fun n => (2, 7 + n, 45 + n))) := by decide +kernel

/-- A transaction has begun, and the file is locked in the cache entry 0. -/
def longFs : Fs where
  disk := longDisk
  icache := fun _ =>
    { Inode.zero with dev := ROOTDEV, inum := 2, ref := 1, valid := true, d := inoOf longSb longDisk 2 }
  outstanding := 1
  lh := []
  tty := []
  trace := []

set_option maxRecDepth 100000 in
theorem longDisk_file : (inoOf longSb longDisk 2).type = T_FILE ∧
    (inoOf longSb longDisk 2).size.toNat = 15872 := by decide +kernel

theorem loaded_longFs : Loaded longSb longFs 0 2 := by
  obtain ⟨hty, -⟩ := longDisk_file
  refine ⟨by decide, rfl, rfl, ?_, ?_⟩
  · change (inoOf longSb longDisk 2).type ≠ 0
    rw [hty]
    decide
  · change (inoOf longSb longDisk 2).type ≠ T_DEV
    rw [hty]
    decide

theorem sited_longFs : Sited longSb longFs.disk 2 :=
  fsck_longDisk.image.diskOk.sited loaded_longFs.lt loaded_longFs.used loaded_longFs.file

end Xv6
