/-
# mkfs

The program that makes the file-system image. Its state is the image, as sectors, and the two
counters: the next free inode and the next free block. Past the end of the image a read fails, and a
write makes the image longer. A run may end with `exit(1)` or with a failed assertion.

A host file is its name, as it is given to mkfs, and its bytes, unless it cannot be opened. `trace`
is a record of the blocks taken and of the sectors that `winode` has written; nothing reads it.
-/
import Xv6.Fs.Contents

namespace Xv6.Mkfs

open Prog

abbrev NINODES : ℕ := 200
abbrev nlog : ℕ := LOGSIZE
abbrev nbitmap : ℕ := FSSIZE / (512 * 8) + 1
abbrev ninodeblocks : ℕ := NINODES / 8 + 1
/-- Number of meta blocks (boot, sb, nlog, inode, bitmap). -/
abbrev nmeta : ℕ := 2 + nlog + ninodeblocks + nbitmap
abbrev nblocks : ℕ := FSSIZE - nmeta

theorem nmeta_eq : nmeta = 59 := rfl

theorem fssize_eq : FSSIZE = 3000 := rfl

/-- What mkfs writes as the superblock. -/
def sb : Superblock where
  size := FSSIZE
  ninodes := NINODES
  nlog := nlog
  logstart := 2
  inodestart := 2 + nlog
  bmapstart := 2 + nlog + ninodeblocks
  log_le := by decide
  inodes_le := by decide
  root_lt := by decide
  size_lt := by decide

/-- The fields of `struct superblock` in their order. -/
def sbWords : List ℕ := [sb.size, nblocks, sb.ninodes, sb.nlog, sb.logstart, sb.inodestart, sb.bmapstart]

/-- The block with the superblock in it. -/
def sbBlock : Block := fun x =>
  if x < 28 then Mem.byte32 (UInt32.ofNat (sbWords.getD (x / 4) 0)) (x % 4) else 0

/-- How mkfs ends early. -/
inductive Halt where
  /-- `perror(..); exit(1);` -/
  | exit
  /-- A failed assertion. -/
  | abort
  deriving DecidableEq

inductive Event where
  /-- `freeblock++` -/
  | block (b : ℕ)
  /-- `winode` writes to the sector. -/
  | inode (sec : ℕ)
  deriving DecidableEq

structure Image where
  disk : Disk
  /-- The length of the image in sectors. -/
  len : ℕ
  freeinode : ℕ
  freeblock : ℕ
  trace : List Event

abbrev M := Prog Halt Image

/-- Where `lseek(fsfd, sec * BSIZE, 0)` goes. -/
def seek (sec : ℕ) : ℕ := sec * 512 % 2 ^ 32 / 512

def wsect (sec : ℕ) (buf : Block) : M Unit :=
  modify fun s =>
    { s with disk := Function.update s.disk (seek sec) buf, len := max s.len (seek sec + 1) }

def rsect (sec : ℕ) : M Block := do
  let s ← get
  if seek sec < s.len then pure (s.disk (seek sec)) else stop .exit

def winode (inum : ℕ) (ip : Dinode) : M Unit := do
  let buf ← rsect (sb.IBLOCK inum)
  wsect (sb.IBLOCK inum) (ip.write buf (64 * (inum % 8)))
  modify fun s => { s with trace := s.trace ++ [.inode (seek (sb.IBLOCK inum))] }

def rinode (inum : ℕ) : M Dinode := do
  let buf ← rsect (sb.IBLOCK inum)
  pure (.read buf (64 * (inum % 8)))

/-- What `ialloc` stores as the new inode. -/
def newDinode (type : Int16) : Dinode :=
  { Dinode.zero with
    type := type
    nlink := 1
    id := Ident.ofStr root
    mode := MODE_RUSR ||| MODE_WUSR ||| MODE_XUSR ||| MODE_ROTH ||| MODE_XOTH }

def ialloc (type : Int16) : M ℕ := do
  let s ← get
  modify fun s => { s with freeinode := s.freeinode + 1 }
  winode s.freeinode (newDinode type)
  pure s.freeinode

/-- The block that `balloc` writes: the first `used` bits are set. -/
def bitmap (used : ℕ) : Block := (List.range used).foldl (fun buf i => setMark buf i true) fun _ => 0

def balloc (used : ℕ) : M Unit :=
  if used < 512 * 8 then wsect sb.bmapstart (bitmap used) else stop .abort

/-- `freeblock++` -/
def takeBlock : M ℕ := do
  let s ← get
  modify fun s => { s with freeblock := s.freeblock + 1, trace := s.trace ++ [.block s.freeblock] }
  pure s.freeblock

/-- `if(xint(din.addrs[n]) == 0) din.addrs[n] = xint(freeblock++);` -/
def setBlock (din : Dinode) (n : Fin 8) : M Dinode :=
  if din.addrs n = 0 then do
    let b ← takeBlock
    pure (setAddr n b din)
  else pure din

/-- The block for index `fbn` of the file, from the indirect block. -/
def entry (din : Dinode) (fbn : ℕ) : M (Dinode × ℕ) := do
  let indirect ← rsect (din.addrs 7).toNat
  if indirect.word32 (4 * (fbn - 7)) = 0 then do
    let b ← takeBlock
    wsect (din.addrs 7).toNat (indirect.setWord32 (4 * (fbn - 7)) (UInt32.ofNat b))
    pure (din, (UInt32.ofNat b).toNat)
  else pure (din, (indirect.word32 (4 * (fbn - 7))).toNat)

/-- The block for index `fbn` of the file. -/
def place (din : Dinode) (fbn : ℕ) : M (Dinode × ℕ) :=
  if h : fbn < 7 then do
    let din ← setBlock din ⟨fbn, direct_lt h⟩
    pure (din, (din.addrs ⟨fbn, direct_lt h⟩).toNat)
  else do
    let din ← setBlock din 7
    entry din fbn

/-- The loop of `iappend`: the inode and the offset when all of `p` is written. A round writes a
byte at least, so the length of `p` is fuel enough. -/
def appendLoop : ℕ → Dinode → ℕ → Str → M (Dinode × ℕ)
  | 0, din, off, _ => pure (din, off)
  | fuel + 1, din, off, p =>
    if p.length = 0 then pure (din, off)
    else if 135 ≤ off / 512 then stop .abort
    else do
      let (din, x) ← place din (off / 512)
      let n1 := min p.length ((off / 512 + 1) * 512 - off)
      let buf ← rsect x
      wsect x (buf.splice (off - off / 512 * 512) n1 fun j => p.getD j 0)
      appendLoop fuel din (off + n1) (p.drop n1)

def iappend (inum : ℕ) (p : Str) : M Unit := do
  let din ← rinode inum
  let (din, off) ← appendLoop p.length din din.size.toNat p
  winode inum { din with size := UInt32.ofNat off }

/-- A file of the host; `data` is `none` if it cannot be opened. Names are strings of C. -/
structure HostFile where
  name : Str
  data : Option Str
  nul : 0 ∉ name

/-- What the reads of 512 bytes return, up to the end of the file. -/
def reads : ℕ → Str → List Str
  | 0, _ => []
  | fuel + 1, data => if data.length = 0 then [] else data.take 512 :: reads fuel (data.drop 512)

/-- Append one piece after the other. -/
def appendAll (inum : ℕ) : List Str → M Unit
  | [] => pure ()
  | p :: ps => do
    iappend inum p
    appendAll inum ps

/-- Skip leading _ in name when writing to file system. -/
def strip : Str → Str
  | 95 :: name => name
  | name => name

/-- A round of the loop over the arguments. -/
def addFile (f : HostFile) : M Unit :=
  if 47 ∈ f.name then stop .abort
  else
    match f.data with
    | none => stop .exit
    | some data => do
      let inum ← ialloc T_FILE
      iappend ROOTINO (Dirent.bytes inum (strip f.name))
      appendAll inum (reads data.length data)

def addFiles : List HostFile → M Unit
  | [] => pure ()
  | f :: fs => do
    addFile f
    addFiles fs

/-- `for(i = 0; i < n; i++) wsect(i, zeroes);` -/
def zeroSects : ℕ → M Unit
  | 0 => pure ()
  | n + 1 => do
    zeroSects n
    wsect n fun _ => 0

theorem zeroSects_zero : zeroSects 0 = pure () := rfl

theorem zeroSects_succ (n : ℕ) : zeroSects (n + 1) = zeroSects n >>= fun _ => wsect n fun _ => 0 := rfl

-- `main` has three thousand rounds of it, which are not to be evaluated
attribute [irreducible] zeroSects

/-- Fix size of root inode dir. -/
def fixRoot : M Unit := do
  let din ← rinode ROOTINO
  winode ROOTINO { din with size := UInt32.ofNat ((din.size.toNat / 512 + 1) * 512) }

def main (files : List HostFile) : M Unit := do
  modify fun s => { s with freeblock := nmeta }
  zeroSects FSSIZE
  wsect 1 sbBlock
  let rootino ← ialloc T_DIR
  if rootino ≠ ROOTINO then stop .abort
  else do
    iappend rootino (Dirent.bytes rootino dot)
    iappend rootino (Dirent.bytes rootino dotdot)
    addFiles files
    fixRoot
    let s ← get
    balloc s.freeblock

/-- Before `main`: the image has been truncated. -/
def start : Image := ⟨fun _ _ => 0, 0, 1, 0, []⟩

end Xv6.Mkfs
