/-
# Inodes and their contents

fs.c up to `writei`, with the calls of log.c it makes: allocating and freeing blocks and inodes, the
inode cache, and reading and writing what an inode holds.

A function of the source is a program over `Fs` that may stop: when `ip->ref`, an `int`, would pass
its greatest value, by a panic, or by a sleep nobody else will end, since a call here runs alone.
Spin locks are left out for the same reason; an inode's sleep lock is the flag `lock`. The buffer
cache is not in the state: `bread` reads the disk, and a changed buffer goes to it with `logWrite`.
`trace` is a record of the log calls and of the inodes freed; no function reads it.

Loops whose bound is a number in the source take it as `fuel`, and it is always enough: each round
of `readLoop` and `writeLoop` handles a byte at least.
-/
import Xv6.Lib.Prog
import Xv6.Fs.Disk

namespace Xv6

open Prog

/-- Entries of the inode cache. -/
abbrev NINODE : ℕ := 50

/-- A pointer to an inode: its entry in the cache. -/
abbrev Slot := Fin NINODE

/-- In-memory copy of an inode. -/
structure Inode where
  dev : ℕ
  inum : ℕ
  ref : ℤ
  /-- The sleep lock is held. -/
  lock : Bool
  valid : Bool
  /-- The fields copied from disk. -/
  d : Dinode

inductive Event where
  | beginOp
  | endOp
  | logWrite (blockno : ℕ)
  /-- `iput` frees the inode. -/
  | free (inum : ℕ)
  deriving DecidableEq

/-- Why a call does not return. -/
inductive Stop where
  | panic (msg : String)
  | sleep
  /-- A count in an `int` is at its greatest value and goes up. -/
  | overflow
  deriving DecidableEq

/-- The file system: the disk, `icache`, `log`, what the console will read, and
the record. -/
structure Fs where
  disk : Disk
  icache : Slot → Inode
  /-- `log.outstanding`. -/
  outstanding : ℤ
  /-- The block numbers of `log.lh`. -/
  lh : List ℕ
  /-- The results of the coming `consoleread`s. -/
  tty : List (Option Str)
  trace : List Event

namespace Fs

def setInode (s : Fs) (k : Slot) (ip : Inode) : Fs :=
  { s with icache := Function.update s.icache k ip }

variable (s : Fs) (k : Slot) (ip : Inode)

@[simp] theorem setInode_self : (s.setInode k ip).icache k = ip := Function.update_self ..

@[simp] theorem setInode_disk : (s.setInode k ip).disk = s.disk := rfl

variable {s k ip}

theorem setInode_ne {j : Slot} (h : j ≠ k) : (s.setInode k ip).icache j = s.icache j :=
  Function.update_of_ne h ..

@[simp] theorem setInode_setInode (ip' : Inode) :
  (s.setInode k ip).setInode k ip' = s.setInode k ip' := by
  simp [setInode]

/-- What holds of every entry after one is set. -/
theorem forall_setInode {P : Slot → Inode → Prop} (hk : P k ip) (hne : ∀ j, j ≠ k → P j (s.icache j))
    (j : Slot) : P j ((s.setInode k ip).icache j) := by
  by_cases h : j = k
  · subst h
    rw [setInode_self]
    exact hk
  · rw [setInode_ne h]
    exact hne j h

end Fs

abbrev FsM := Prog Stop Fs

section

variable (sb : Superblock)

/-! ### log.c -/

/-- Called at the start of each FS system call. -/
def beginOp : FsM Unit := do
  let s ← get
  if LOGSIZE < s.lh.length + (s.outstanding + 1) * MAXOPBLOCKS then stop .sleep
  else modify fun s =>
    { s with outstanding := s.outstanding + 1, trace := s.trace ++ [.beginOp] }

/-- Called at the end of each FS system call; the last one out commits. -/
def endOp : FsM Unit :=
  modify fun s =>
    { s with
      outstanding := s.outstanding - 1
      lh := if s.outstanding - 1 = 0 then [] else s.lh
      trace := s.trace ++ [.endOp] }

def bread (blockno : ℕ) : FsM Block := do
  let s ← get
  pure (s.disk blockno)

/-- The caller has set the buffer of `blockno` to `data`. -/
def logWrite (blockno : ℕ) (data : Block) : FsM Unit := do
  let s ← get
  if LOGSIZE ≤ s.lh.length ∨ sb.nlog ≤ s.lh.length + 1 then stop (.panic "too big a transaction")
  else if s.outstanding < 1 then stop (.panic "log_write outside of trans")
  else modify fun s =>
    { s with
      disk := Function.update s.disk blockno data
      lh := if blockno ∈ s.lh then s.lh else s.lh ++ [blockno]
      trace := s.trace ++ [.logWrite blockno] }

/-! ### Blocks -/

def bzero (bno : ℕ) : FsM Unit := logWrite sb bno fun _ => 0

/-- `balloc` from block `b` on: its two loops run through the block numbers in
order. -/
def ballocFrom : ℕ → ℕ → FsM ℕ
  | 0, _ => stop (.panic "balloc: out of blocks")
  | fuel + 1, b => do
    let bp ← bread (sb.BBLOCK b)
    if marked bp (b % 4096) then ballocFrom fuel (b + 1)
    else do
      logWrite sb (sb.BBLOCK b) (setMark bp (b % 4096) true)
      bzero sb b
      pure b

/-- Allocate a zeroed disk block. -/
def balloc : FsM ℕ := ballocFrom sb sb.size 0

def bfree (b : ℕ) : FsM Unit := do
  let bp ← bread (sb.BBLOCK b)
  if marked bp (b % 4096) then logWrite sb (sb.BBLOCK b) (setMark bp (b % 4096) false)
  else stop (.panic "freeing free block")

/-! ### The inode cache -/

def inode (k : Slot) : FsM Inode := do
  let s ← get
  pure (s.icache k)

def modInode (k : Slot) (f : Inode → Inode) : FsM Unit :=
  modify fun s => s.setInode k (f (s.icache k))

/-- Change the fields that live on disk. -/
def modD (k : Slot) (f : Dinode → Dinode) : FsM Unit := modInode k fun ip => { ip with d := f ip.d }

/-- The first entry of the cache that satisfies `q`. -/
def findSlot (s : Fs) (q : Inode → Bool) : Option Slot :=
  (List.finRange NINODE).find? fun k => q (s.icache k)

/-- The greatest `int`. -/
def INT_MAX : ℤ := 2147483647

/-- `ip->ref++`. -/
def incRef (k : Slot) : FsM Unit := do
  let ip ← inode k
  if ip.ref = INT_MAX then stop .overflow else modInode k fun ip => { ip with ref := ip.ref + 1 }

/-- Find the inode with number `inum` on device `dev` and return the in-memory
copy, or recycle an entry for it. -/
def iget (dev inum : ℕ) : FsM Slot := do
  let s ← get
  match findSlot s fun ip => decide (0 < ip.ref) && (ip.dev == dev && ip.inum == inum) with
  | some k => do
    incRef k
    pure k
  | none =>
    match findSlot s fun ip => ip.ref == 0 with
    | none => stop (.panic "iget: no inodes")
    | some k => do
      modInode k fun ip => { ip with dev := dev, inum := inum, ref := 1, valid := false }
      pure k

def idup (k : Slot) : FsM Slot := do
  incRef k
  pure k

/-- What `iget` does: an entry in use has one reference more, or a free one is taken, as none in use
has the inode. -/
def Got (dev inum : ℕ) (s : Fs) (k : Slot) (s' : Fs) : Prop :=
  (0 < (s.icache k).ref ∧ (s.icache k).dev = dev ∧ (s.icache k).inum = inum ∧
      s' = s.setInode k { s.icache k with ref := (s.icache k).ref + 1 }) ∨
    ((s.icache k).ref = 0 ∧
      (∀ j, 0 < (s.icache j).ref → ¬((s.icache j).dev = dev ∧ (s.icache j).inum = inum)) ∧
      s' = s.setInode k { s.icache k with dev := dev, inum := inum, ref := 1, valid := false })

section

variable {s : Fs} {k : Slot} {E : Stop → Prop} {dev inum : ℕ}

theorem sat_incRef (h : (s.icache k).ref = INT_MAX → E .overflow) :
    Sat (incRef k) s (fun _ s' => s' = s.setInode k { s.icache k with ref := (s.icache k).ref + 1 }) E :=
  .get_bind (.ite (fun hmax => .stop (h hmax)) fun _ => .modify rfl)

theorem sat_iget (hfull : (∀ k, (s.icache k).ref ≠ 0) → E (.panic "iget: no inodes"))
    (hmax : ∀ k, (s.icache k).ref = INT_MAX → (s.icache k).dev = dev → (s.icache k).inum = inum →
      E .overflow) :
    Sat (iget dev inum) s (Got dev inum s) E := by
  refine .get_bind ?_
  rcases hfind : findSlot s fun ip => decide (0 < ip.ref) && (ip.dev == dev && ip.inum == inum) with _ | k
  · have hnone := List.find?_eq_none.mp hfind
    rcases hfree : findSlot s fun ip => ip.ref == 0 with _ | k
    · have hused := List.find?_eq_none.mp hfree
      exact .stop (hfull fun k => by simpa using hused k (List.mem_finRange k))
    · have hk := List.find?_some hfree
      refine .modify_bind (.pure (.inr ⟨by simpa using hk, fun j hj => ?_, rfl⟩))
      simpa [hj] using hnone j (List.mem_finRange j)
  · have hk := List.find?_some hfind
    simp only [Bool.and_eq_true, decide_eq_true_eq, beq_iff_eq] at hk
    obtain ⟨hpos, hdev, hinum⟩ := hk
    refine (sat_incRef fun h => hmax k h hdev hinum).bind ?_
    rintro _ _ rfl
    exact .pure (.inl ⟨hpos, hdev, hinum, rfl⟩)

theorem iget_got : Sat (iget dev inum) s (Got dev inum s) Any :=
  sat_iget (fun _ => trivial) fun _ _ _ _ => trivial

end

def acquiresleep (k : Slot) : FsM Unit := do
  let ip ← inode k
  if ip.lock then stop .sleep else modInode k fun ip => { ip with lock := true }

def releasesleep (k : Slot) : FsM Unit := modInode k fun ip => { ip with lock := false }

/-- The mode `ialloc` gives to a new inode. -/
def initialMode (type : Int16) : UInt32 :=
  if type = T_FILE then MODE_RUSR ||| MODE_WUSR ||| MODE_ROTH
  else if type = T_DIR then MODE_RUSR ||| MODE_WUSR ||| MODE_XUSR ||| MODE_ROTH ||| MODE_XOTH
  else if type = T_DEV then
    MODE_RUSR ||| MODE_WUSR ||| MODE_XUSR ||| MODE_ROTH ||| MODE_WOTH ||| MODE_XOTH
  else 0

/-- What `ialloc` stores as the new inode. -/
def newDinode (type : Int16) : Dinode :=
  { Dinode.zero with type := type, mode := initialMode type, id := Ident.ofStr root }

def iallocFrom (dev : ℕ) (type : Int16) : ℕ → ℕ → FsM Slot
  | 0, _ => stop (.panic "ialloc: no inodes")
  | fuel + 1, inum => do
    let bp ← bread (sb.IBLOCK inum)
    if (Dinode.read bp (64 * (inum % 8))).type = 0 then do
      logWrite sb (sb.IBLOCK inum) ((newDinode type).write bp (64 * (inum % 8)))
      iget dev inum
    else iallocFrom dev type fuel (inum + 1)

/-- Allocate an inode on device `dev`. -/
def ialloc (dev : ℕ) (type : Int16) : FsM Slot := iallocFrom sb dev type (sb.ninodes - 1) 1

/-- Copy a modified in-memory inode to disk. -/
def iupdate (k : Slot) : FsM Unit := do
  let ip ← inode k
  let bp ← bread (sb.IBLOCK ip.inum)
  logWrite sb (sb.IBLOCK ip.inum) (ip.d.copyId.write bp (64 * (ip.inum % 8)))

/-- `ip->nlink++; iupdate(ip);`, or `--`. -/
def addNlink (k : Slot) (n : Int16) : FsM Unit := do
  modD k fun d => { d with nlink := d.nlink + n }
  iupdate sb k

/-- Lock the given inode. Reads the inode from disk if necessary. -/
def ilock (k : Slot) : FsM Unit := do
  let ip ← inode k
  if ip.ref < 1 then stop (.panic "ilock")
  else do
    acquiresleep k
    if ip.valid then pure ()
    else do
      let bp ← bread (sb.IBLOCK ip.inum)
      let d := (Dinode.read bp (64 * (ip.inum % 8))).copyId
      modInode k fun ip => { ip with valid := true, d := d }
      if d.type = 0 then stop (.panic "ilock: no type") else pure ()

def iunlock (k : Slot) : FsM Unit := do
  let ip ← inode k
  if !ip.lock ∨ ip.ref < 1 then stop (.panic "iunlock") else releasesleep k

/-! ### Inode content -/

def setAddr (n : Fin 8) (b : ℕ) (d : Dinode) : Dinode :=
  { d with addrs := Function.update d.addrs n (UInt32.ofNat b) }

/-- `if (addr == 0) addr = balloc(..)`, with the new address stored. -/
def orAlloc (addr : UInt32) (store : ℕ → FsM Unit) : FsM ℕ :=
  if addr = 0 then do
    let b ← balloc sb
    store b
    pure b
  else pure addr.toNat

/-- Return the disk block address of the `bn`th block in the inode. If there is
no such block, `bmap` allocates one. -/
def bmap (k : Slot) (bn : ℕ) : FsM ℕ := do
  let ip ← inode k
  if h : bn < 7 then
    orAlloc sb (ip.d.addrs ⟨bn, by omega⟩) fun b => modD k (setAddr ⟨bn, by omega⟩ b)
  else if bn - 7 < 128 then do
    let a ← orAlloc sb (ip.d.addrs 7) fun b => modD k (setAddr 7 b)
    let bp ← bread a
    orAlloc sb (bp.word32 (4 * (bn - 7))) fun b =>
      logWrite sb a (bp.setWord32 (4 * (bn - 7)) (UInt32.ofNat b))
  else stop (.panic "bmap: out of range")

/-- The loop of `itrunc` over direct addresses. -/
def truncDirect (k : Slot) : List (Fin 8) → FsM Unit
  | [] => pure ()
  | n :: ns => do
    let ip ← inode k
    if ip.d.addrs n = 0 then truncDirect k ns
    else do
      bfree sb (ip.d.addrs n).toNat
      modD k (setAddr n 0)
      truncDirect k ns

/-- The loop of `itrunc` over the addresses in the indirect block. -/
def bfreeAll : List UInt32 → FsM Unit
  | [] => pure ()
  | a :: as =>
    if a = 0 then bfreeAll as
    else do
      bfree sb a.toNat
      bfreeAll as

/-- The addresses in an indirect block. -/
def entries (bp : Block) : List UInt32 := (List.range 128).map fun j => bp.word32 (4 * j)

def truncIndirect (k : Slot) : FsM Unit := do
  let ip ← inode k
  if ip.d.addrs 7 = 0 then pure ()
  else do
    let bp ← bread (ip.d.addrs 7).toNat
    bfreeAll sb (entries bp)
    bfree sb (ip.d.addrs 7).toNat
    modD k (setAddr 7 0)

/-- Truncate inode (discard contents). -/
def itrunc (k : Slot) : FsM Unit := do
  truncDirect sb k [0, 1, 2, 3, 4, 5, 6]
  truncIndirect sb k
  modD k fun d => { d with size := 0 }
  iupdate sb k

/-- The last reference to an inode without links goes: it is freed. -/
def ifree (k : Slot) : FsM Unit := do
  modify fun s => { s with trace := s.trace ++ [.free (s.icache k).inum] }
  itrunc sb k
  modD k fun d => { d with type := 0 }
  iupdate sb k
  modInode k fun ip => { ip with valid := false }

/-- Drop a reference to an in-memory inode. -/
def iput (k : Slot) : FsM Unit := do
  acquiresleep k
  let ip ← inode k
  when (ip.valid ∧ ip.d.nlink = 0 ∧ ip.ref = 1) (ifree sb k)
  releasesleep k
  modInode k fun ip => { ip with ref := ip.ref - 1 }

/-- Common idiom: unlock, then put. -/
def iunlockput (k : Slot) : FsM Unit := do
  iunlock k
  iput sb k

/-- `devsw[major]` has its functions: the major number is in range and is that
of the console, the only driver. -/
def hasDriver (major : Int16) : Bool :=
  decide (0 ≤ major) && decide (major < 10) && decide (major = 1)

/-- What the keyboard gives to a `consoleread` of `n` bytes; `none` if the
process is killed while it waits. -/
def ttyRead (n : ℕ) : FsM (Option Str) := do
  let s ← get
  if n = 0 then pure (some [])
  else match s.tty with
    | [] => stop .sleep
    | r :: rest => do
      modify fun s => { s with tty := rest }
      pure (r.map fun line => line.take n)

def consoleread (k : Slot) (n : ℕ) : FsM (Option Str) := do
  iunlock k
  let r ← ttyRead n
  ilock sb k
  pure r

def consolewrite (k : Slot) (n : ℕ) : FsM (Option ℕ) := do
  iunlock k
  ilock sb k
  pure (some n)

/-- The loop of `readi`, with `n` bytes to go. -/
def readLoop (k : Slot) : ℕ → ℕ → ℕ → FsM Str
  | 0, _, _ => pure []
  | fuel + 1, off, n =>
    if n = 0 then pure []
    else do
      let b ← bmap sb k (off / 512)
      let bp ← bread b
      let m := min n (512 - off % 512)
      let rest ← readLoop k fuel (off + m) (n - m)
      pure ((List.range m).map (fun j => bp (off % 512 + j)) ++ rest)

/-- Read data from inode; `none` is the return value -1. -/
def readi (k : Slot) (off n : ℕ) : FsM (Option Str) := do
  let ip ← inode k
  if ip.d.type = T_DEV then
    if hasDriver ip.d.major then consoleread sb k n else pure none
  else if ip.d.size.toNat < off ∨ (off + n) % 2 ^ 32 < off then pure none
  else do
    let n := if ip.d.size.toNat < off + n then ip.d.size.toNat - off else n
    let data ← readLoop sb k n off n
    pure (some data)

/-- The loop of `writei`, with `src` to go. -/
def writeLoop (k : Slot) : ℕ → ℕ → Str → FsM Unit
  | 0, _, _ => pure ()
  | fuel + 1, off, src =>
    if src.length = 0 then pure ()
    else do
      let b ← bmap sb k (off / 512)
      let m := min src.length (512 - off % 512)
      let bp ← bread b
      logWrite sb b (bp.splice (off % 512) m fun j => src.getD j 0)
      writeLoop k fuel (off + m) (src.drop m)

/-- `ip->size = off; iupdate(ip);` -/
def setSize (k : Slot) (size : ℕ) : FsM Unit := do
  modD k fun d => { d with size := UInt32.ofNat size }
  iupdate sb k

/-- Write data to inode; `none` is the return value -1. -/
def writei (k : Slot) (src : Str) (off : ℕ) : FsM (Option ℕ) := do
  let ip ← inode k
  if ip.d.type = T_DEV then
    if hasDriver ip.d.major then consolewrite sb k src.length else pure none
  else if ip.d.size.toNat < off ∨ (off + src.length) % 2 ^ 32 < off then pure none
  else if MAXFILE * BSIZE < off + src.length then pure none
  else do
    writeLoop sb k src.length off src
    when (0 < src.length ∧ ip.d.size.toNat < off + src.length) (setSize sb k (off + src.length))
    pure (some src.length)

end

end Xv6
