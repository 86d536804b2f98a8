/-
# Sizes of the tables

The constants of param.h and fs.h that several parts of the kernel share, as far as their sizes
matter.

An array of the kernel is a function on `Fin n`, and an index written as a numeral needs `n ≠ 0`. It
is said here once for each size: of the process table (64), the inode cache (50), the descriptors of
a process (16), the accounts and the words of a command (10), the addresses of an inode (8) and the
console's buffer (128).
-/
import Mathlib.Tactic

namespace Xv6

/-- Max # of blocks any FS op writes. -/
abbrev MAXOPBLOCKS : ℕ := 10
/-- Max data blocks in on-disk log. -/
abbrev LOGSIZE : ℕ := MAXOPBLOCKS * 3
/-- Size of disk block cache. -/
abbrev NBUF : ℕ := MAXOPBLOCKS * 3
/-- Size of file system in blocks. -/
abbrev FSSIZE : ℕ := 3000
/-- Block size. -/
abbrev BSIZE : ℕ := 512
/-- Blocks of a file: `NDIRECT + NINDIRECT`. -/
abbrev MAXFILE : ℕ := 7 + BSIZE / 4

theorem maxfile_bytes : MAXFILE * BSIZE = 135 * 512 := rfl

instance neZero64 : NeZero 64 := ⟨by decide⟩
instance neZero50 : NeZero 50 := ⟨by decide⟩
instance neZero16 : NeZero 16 := ⟨by decide⟩
instance neZero10 : NeZero 10 := ⟨by decide⟩
instance neZero8 : NeZero 8 := ⟨by decide⟩
instance neZero128 : NeZero 128 := ⟨by decide⟩

end Xv6
