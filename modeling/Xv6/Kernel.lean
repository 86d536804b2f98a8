/-
# The kernel: processes, files and system calls

proc.c, file.c, exec.c and the rest of sysfile.c over the file system of
`Xv6.Fs`. A system call runs alone, from its entry to its return, and takes
the kernel from state to state; a run is a sequence of calls by live processes
(`Reach`).

An argument that cannot be fetched is `none`. What a call reads of memory, and
whether an allocation of memory succeeds, comes with the call. Address spaces,
scheduling, pipes' contents and the calls on them are not in the state.
-/
import Xv6.Fs.Dir
import Xv6.Account

namespace Xv6

open Prog
open Function (update)

/-! ### exec.c -/

/-- A little-endian word of a buffer. -/
def le16 (buf : Str) (o : ℕ) : ℕ := (buf.getD o 0).toNat + 256 * (buf.getD (o + 1) 0).toNat

def le32 (buf : Str) (o : ℕ) : ℕ := le16 buf o + 65536 * le16 buf (o + 2)

/-- Which allocations of an `exec` succeed: the page directory, the memory of
each segment, the stack, and copying the arguments. -/
structure ExecMem where
  setupkvm : Bool
  segment : ℕ → Bool
  stack : Bool
  args : Bool

/-- `allocuvm` from `oldsz` to `newsz`; 0 if it fails. -/
def allocuvm (ok : Bool) (oldsz newsz : ℕ) : ℕ :=
  if 2 ^ 31 ≤ newsz then 0 else if newsz < oldsz then oldsz else if ok then newsz else 0

section

variable (sb : Superblock) (c : Caller)

/-- `loaduvm` from byte `i` on. -/
def loaduvm (k : Slot) (offset sz : ℕ) : ℕ → ℕ → FsM Bool
  | 0, _ => pure true
  | fuel + 1, i =>
    if sz ≤ i then pure true
    else do
      let r ← readi sb k ((offset + i) % 2 ^ 32) (min (sz - i) 4096)
      if r.map List.length = some (min (sz - i) 4096) then loaduvm k offset sz fuel (i + 4096)
      else pure false

/-- The loop of `exec` over the program headers, with `n` to go; `false` is a jump
to `bad`. -/
def loadSegments (mem : ExecMem) (k : Slot) : ℕ → ℕ → ℕ → FsM Bool
  | 0, _, _ => pure true
  | n + 1, off, sz => do
    let r ← readi sb k off 32
    match r with
    | none => pure false
    | some ph =>
      if ph.length ≠ 32 then pure false
      else if le32 ph 0 ≠ 1 then loadSegments mem k n ((off + 32) % 2 ^ 32) sz
      else
        let vaddr := le32 ph 8
        let filesz := le32 ph 16
        let memsz := le32 ph 20
        let sz := allocuvm (mem.segment n) sz (vaddr + memsz)
        if memsz < filesz ∨ 2 ^ 32 ≤ vaddr + memsz ∨ sz = 0 ∨ vaddr % 4096 ≠ 0 then pure false
        else do
          let loaded ← loaduvm sb k (le32 ph 4) filesz (filesz / 4096 + 1) 0
          if loaded then loadSegments mem k n ((off + 32) % 2 ^ 32) sz else pure false

/-- The image is read and in memory. -/
def loadImage (mem : ExecMem) (k : Slot) : FsM Bool := do
  let r ← readi sb k 0 52
  match r with
  | none => pure false
  | some elf =>
    if elf.length ≠ 52 ∨ le32 elf 0 ≠ 0x464C457F ∨ !mem.setupkvm then pure false
    else loadSegments sb mem k (le16 elf 44) (le32 elf 28) 0

def exec (path : Str) (mem : ExecMem) : FsM ℤ := do
  beginOp
  let r ← namei sb c path
  match r with
  | none => ended (-1)
  | some ip => do
    ilock sb ip
    let i ← inode ip
    if !grants c.id i.d MODE_XUSR MODE_XOTH then failed sb ip
    else do
      let loaded ← loadImage sb mem ip
      if loaded then do
        iunlockput sb ip
        endOp
        -- past this point the jump to `bad` finds `ip` zero
        pure (if mem.stack && mem.args then 0 else -1)
      else failed sb ip

end

/-! ### The state -/

abbrev NPROC : ℕ := 64
abbrev NOFILE : ℕ := 16
abbrev NFILE : ℕ := 100

inductive FdType where
  | none
  | pipe
  | inode
  deriving DecidableEq

/-- `struct file`; of a pipe only that it is one. -/
structure File where
  type : FdType
  ref : ℤ
  readable : Bool
  writable : Bool
  ip : Option Slot
  off : ℕ

inductive ProcState where
  | unused
  | embryo
  | runnable
  | zombie
  deriving DecidableEq

/-- `struct proc`: what the calls below use of it. -/
structure Proc where
  state : ProcState
  pid : Int32
  parent : Option (Fin NPROC)
  killed : Bool
  ofile : Fin NOFILE → Option (Fin NFILE)
  cwd : Option Slot
  id : Ident

structure Kernel where
  fs : Fs
  file : Fin NFILE → File
  proc : Fin NPROC → Proc
  nextpid : Int32
  utable : UTable
  /-- `utable.ip`. -/
  utableIp : Option Slot

abbrev KM := Prog Stop Kernel

def initproc : Fin NPROC := 0

/-- Run a program of the file system. -/
def onFs {α : Type} (x : FsM α) : KM α := zoom Kernel.fs (fun K s => { K with fs := s }) x

variable {α : Type} {K : Kernel} {sb : Superblock} {ms : List Move}

/-- A program of the file system leaves the tables alone. -/
theorem onFs_bind {β : Type} {x : FsM α} {f : α → KM β} {Q : α → Fs → Prop}
    {R : β → Kernel → Prop} {E : Stop → Prop} (hx : Sat x K.fs Q E)
    (hf : ∀ a s, Q a s → Sat (f a) { K with fs := s } R E) : Sat (onFs x >>= f) K R E :=
  .bind (Q := fun a K' => ∃ s, K' = { K with fs := s } ∧ Q a s)
    (.zoom (hx.post fun _ s hq => ⟨s, rfl, hq⟩))
    fun a _ ⟨s, hK, hq⟩ => hK ▸ hf a s hq

def modProc (p : Fin NPROC) (f : Proc → Proc) : KM Unit :=
  modify fun K => { K with proc := update K.proc p (f (K.proc p)) }

def modFile (f : Fin NFILE) (g : File → File) : KM Unit :=
  modify fun K => { K with file := update K.file f (g (K.file f)) }

def setUtable (t : UTable) : KM Unit := modify fun K => { K with utable := t }

/-- Use a pointer to an inode. A null pointer is a panic in `ilock`. -/
def deref (ip : Option Slot) : KM Slot :=
  match ip with
  | none => stop (.panic "ilock")
  | some k => pure k

/-- `myproc()` as the file system sees it. -/
def caller (p : Fin NPROC) : KM Caller := do
  let K ← get
  let cwd ← deref (K.proc p).cwd
  pure ⟨(K.proc p).id, cwd⟩

section

variable (sb : Superblock)

/-! ### file.c -/

def filealloc : KM (Option (Fin NFILE)) := do
  let K ← get
  match (List.finRange NFILE).find? fun f => (K.file f).ref == 0 with
  | none => pure none
  | some f => do
    modFile f fun x => { x with ref := 1 }
    pure (some f)

/-- Increment ref count for file `f`. -/
def filedup (f : Fin NFILE) : KM Unit := do
  let K ← get
  if (K.file f).ref < 1 then stop (.panic "filedup") else modFile f fun x => { x with ref := x.ref + 1 }

/-- `begin_op(); iput(ip); end_op();` -/
def putInOp (ip : Slot) : FsM Unit := do
  beginOp
  iput sb ip
  endOp

def fileclose (f : Fin NFILE) : KM Unit := do
  let K ← get
  let ff := K.file f
  if ff.ref < 1 then stop (.panic "fileclose")
  else if 0 < ff.ref - 1 then modFile f fun x => { x with ref := x.ref - 1 }
  else do
    modFile f fun x => { x with ref := 0, type := .none }
    when (ff.type = .inode) do
      let ip ← deref ff.ip
      onFs (putInOp sb ip)

def filestat (f : File) : KM ℤ :=
  if f.type = .inode then do
    let ip ← deref f.ip
    onFs (do ilock sb ip; iunlock ip)
    pure 0
  else pure (-1)

/-- `begin_op(); ilock(ip); r = readi(..); iunlock(ip); end_op();` -/
def readInOp (ip : Slot) (off n : ℕ) : FsM (Option Str) := do
  beginOp
  ilock sb ip
  let r ← readi sb ip off n
  iunlock ip
  endOp
  pure r

/-- Read from file `f`; `piperead` is what a read of a pipe returns. -/
def fileread (f : Fin NFILE) (n : ℕ) (piperead : ℤ) : KM ℤ := do
  let K ← get
  let x := K.file f
  if !x.readable then pure (-1)
  else match x.type with
    | .pipe => pure piperead
    | .inode => do
      let ip ← deref x.ip
      let r ← onFs (readInOp sb ip x.off n)
      match r with
      | none => pure (-1)
      | some data => do
        modFile f fun x => { x with off := (x.off + data.length) % 2 ^ 32 }
        pure data.length
    | .none => stop (.panic "fileread")

/-- One transaction of `filewrite`. -/
def writeInOp (ip : Slot) (src : Str) (off : ℕ) : FsM (Option ℕ) := do
  beginOp
  ilock sb ip
  let r ← writei sb ip src off
  iunlock ip
  endOp
  pure r

/-- The loop of `filewrite`, with `src` to go: at most `max` = 1536 bytes at a
time. -/
def filewriteFrom (f : Fin NFILE) (ip : Slot) : ℕ → Str → KM Bool
  | 0, _ => pure true
  | fuel + 1, src =>
    if src.length = 0 then pure true
    else do
      let K ← get
      let n1 := min src.length 1536
      let r ← onFs (writeInOp sb ip (src.take n1) (K.file f).off)
      match r with
      | none => pure false
      | some r => do
        modFile f fun x => { x with off := (x.off + r) % 2 ^ 32 }
        if r ≠ n1 then stop (.panic "short filewrite") else filewriteFrom f ip fuel (src.drop r)

/-- Write to file `f`; `pipewrite` is what a write to a pipe returns. -/
def filewrite (f : Fin NFILE) (src : Str) (pipewrite : ℤ) : KM ℤ := do
  let K ← get
  let x := K.file f
  if !x.writable then pure (-1)
  else match x.type with
    | .pipe => pure pipewrite
    | .inode => do
      let ip ← deref x.ip
      let all ← filewriteFrom sb f ip src.length src
      pure (if all then (src.length : ℤ) else -1)
    | .none => stop (.panic "filewrite")

/-! ### File descriptors -/

variable (p : Fin NPROC)

/-- Fetch a file descriptor and the file it stands for. -/
def argfd (fd : Option ℤ) : KM (Option (Fin NOFILE × Fin NFILE)) := do
  let K ← get
  match fd with
  | none => pure none
  | some fd =>
    if h : 0 ≤ fd ∧ fd < 16 then
      let n : Fin NOFILE := ⟨fd.toNat, by show fd.toNat < 16; omega⟩
      pure (((K.proc p).ofile n).map fun f => (n, f))
    else pure none

def setOfile (fd : Fin NOFILE) (f : Option (Fin NFILE)) : KM Unit :=
  modProc p fun x => { x with ofile := update x.ofile fd f }

/-- Allocate a file descriptor for the given file. -/
def fdalloc (f : Fin NFILE) : KM (Option (Fin NOFILE)) := do
  let K ← get
  match (List.finRange NOFILE).find? fun fd => ((K.proc p).ofile fd).isNone with
  | none => pure none
  | some fd => do
    setOfile p fd (some f)
    pure (some fd)

def sysDup (fd : Option ℤ) : KM ℤ := do
  let r ← argfd p fd
  match r with
  | none => pure (-1)
  | some (_, f) => do
    let fd ← fdalloc p f
    match fd with
    | none => pure (-1)
    | some fd => do
      filedup f
      pure fd

/-- `ptr` says that the `n` bytes at the pointer are in the address space. -/
def sysRead (fd : Option ℤ) (n : Option ℤ) (ptr : Bool) (piperead : ℤ) : KM ℤ := do
  let r ← argfd p fd
  match r, n with
  | some (_, f), some n => if n < 0 ∨ !ptr then pure (-1) else fileread sb f n.toNat piperead
  | _, _ => pure (-1)

/-- `src` is the bytes at the pointer, if it is valid. -/
def sysWrite (fd : Option ℤ) (src : Option Str) (pipewrite : ℤ) : KM ℤ := do
  let r ← argfd p fd
  match r, src with
  | some (_, f), some src => filewrite sb f src pipewrite
  | _, _ => pure (-1)

def sysClose (fd : Option ℤ) : KM ℤ := do
  let r ← argfd p fd
  match r with
  | none => pure (-1)
  | some (fd, f) => do
    setOfile p fd none
    fileclose sb f
    pure 0

def sysFstat (fd : Option ℤ) (ptr : Bool) : KM ℤ := do
  let r ← argfd p fd
  match r with
  | none => pure (-1)
  | some (_, f) => if !ptr then pure (-1) else do
    let K ← get
    filestat sb (K.file f)

/-! ### sys_open, sys_chdir, sys_pipe -/

def O_RDONLY : UInt32 := 0
def O_WRONLY : UInt32 := 1
def O_RDWR : UInt32 := 2
def O_CREATE : UInt32 := 0x200

/-- The permission check of an `open` without `O_CREATE`. An `omode` that is none of
the three is not checked. -/
def mayOpen (id : Ident) (d : Dinode) (omode : UInt32) : Bool :=
  if omode = O_RDONLY then permits id d MODE_RUSR MODE_ROTH
  else if omode = O_WRONLY then permits id d MODE_WUSR MODE_WOTH
  else if omode = O_RDWR then
    permits id d MODE_WUSR MODE_WOTH && permits id d MODE_RUSR MODE_ROTH
  else true

/-- `sys_open` up to the allocation of the file: the inode, locked, in a
transaction; or `none`, with the transaction ended. -/
def openInode (c : Caller) (path : Str) (omode : UInt32) : FsM (Option Slot) := do
  beginOp
  if omode &&& O_CREATE ≠ 0 then do
    let r ← create sb c path T_FILE 0 0
    match r with
    | none => do
      endOp
      pure none
    | some ip => pure (some ip)
  else do
    let r ← namei sb c path
    match r with
    | none => do
      endOp
      pure none
    | some ip => do
      ilock sb ip
      let i ← inode ip
      if !mayOpen c.id i.d omode ∨ (i.d.type = T_DIR ∧ omode ≠ O_RDONLY) then do
        iunlockput sb ip
        endOp
        pure none
      else pure (some ip)

/-- What `sys_open` makes of the file it allocated. -/
def opened (ip : Slot) (omode : UInt32) (f : File) : File :=
  { f with
    type := .inode
    ip := some ip
    off := 0
    readable := omode &&& O_WRONLY = 0
    writable := omode &&& O_WRONLY ≠ 0 ∨ omode &&& O_RDWR ≠ 0 }

def sysOpen (path : Option Str) (omode : Option UInt32) : KM ℤ :=
  match path, omode with
  | some path, some omode => do
    let c ← caller p
    let r ← onFs (openInode sb c path omode)
    match r with
    | none => pure (-1)
    | some ip => do
      let f ← filealloc
      match f with
      | none => onFs (failed sb ip)
      | some f => do
        let fd ← fdalloc p f
        match fd with
        | none => do
          fileclose sb f
          onFs (failed sb ip)
        | some fd => do
          onFs (do iunlock ip; endOp)
          modFile f (opened ip omode)
          pure fd
  | _, _ => pure (-1)

/-- `sys_chdir` up to the change of `cwd`: the new directory, if there is one. -/
def chdirTo (c : Caller) (path : Str) : FsM (Option Slot) := do
  let r ← namei sb c path
  match r with
  | none => do
    endOp
    pure none
  | some ip => do
    ilock sb ip
    let i ← inode ip
    if !permits c.id i.d MODE_XUSR MODE_XOTH ∨ i.d.type ≠ T_DIR then do
      iunlockput sb ip
      endOp
      pure none
    else do
      iunlock ip
      iput sb c.cwd
      endOp
      pure (some ip)

def sysChdir (path : Option Str) : KM ℤ := do
  let c ← caller p
  onFs beginOp
  match path with
  | none => onFs (ended (-1))
  | some path => do
    let r ← onFs (chdirTo sb c path)
    match r with
    | none => pure (-1)
    | some ip => do
      modProc p fun x => { x with cwd := some ip }
      pure 0

/-- What `pipealloc` makes of a file it allocated. -/
def piped (writable : Bool) (f : File) : File :=
  { f with type := .pipe, readable := !writable, writable := writable }

/-- `pipealloc`; `kalloc` says that there is a page for the pipe. -/
def pipealloc (kalloc : Bool) : KM (Option (Fin NFILE × Fin NFILE)) := do
  let f0 ← filealloc
  match f0 with
  | none => pure none
  | some f0 => do
    let f1 ← filealloc
    match f1 with
    | none => do
      fileclose sb f0
      pure none
    | some f1 =>
      if kalloc then do
        modFile f0 (piped false)
        modFile f1 (piped true)
        pure (some (f0, f1))
      else do
        fileclose sb f0
        fileclose sb f1
        pure none

def sysPipe (ptr : Bool) (kalloc : Bool) : KM ℤ :=
  if !ptr then pure (-1)
  else do
    let r ← pipealloc sb kalloc
    match r with
    | none => pure (-1)
    | some (rf, wf) => do
      let fd0 ← fdalloc p rf
      match fd0 with
      | none => do
        fileclose sb rf
        fileclose sb wf
        pure (-1)
      | some fd0 => do
        let fd1 ← fdalloc p wf
        match fd1 with
        | none => do
          setOfile p fd0 none
          fileclose sb rf
          fileclose sb wf
          pure (-1)
        | some _ => pure 0

/-! ### proc.c -/

/-- Which allocations of a `fork` succeed: the kernel stack and the copy of the
address space. -/
structure ForkMem where
  kstack : Bool
  copyuvm : Bool

/-- `strncpy(p->id, "root", 4)`: the rest of the field stays. -/
def rootPrefixed (id : Ident) : Ident :=
  Vector.ofFn fun j => if j < 4 then root.getD j 0 else id.toList.getD j 0

/-- Look in the process table for an UNUSED proc. -/
def allocproc (kstack : Bool) : KM (Option (Fin NPROC)) := do
  let K ← get
  match (List.finRange NPROC).find? fun q => (K.proc q).state = .unused with
  | none => pure none
  | some np => do
    modify fun K => { K with nextpid := K.nextpid + 1 }
    modProc np fun x => { x with
      state := if kstack then .embryo else .unused
      pid := K.nextpid
      id := rootPrefixed x.id }
    pure (if kstack then some np else none)

/-- The loop of `fork` over the open files. -/
def dupFiles (np : Fin NPROC) : List (Fin NOFILE) → KM Unit
  | [] => pure ()
  | fd :: fds => do
    let K ← get
    match (K.proc p).ofile fd with
    | none => dupFiles np fds
    | some f => do
      filedup f
      setOfile np fd (some f)
      dupFiles np fds

/-- `fork` and `fork2`: the child's id is `strncpy(np->id, id, 16)`. -/
def forkAs (id : Str) (mem : ForkMem) : KM ℤ := do
  let r ← allocproc mem.kstack
  match r with
  | none => pure (-1)
  | some np =>
    if !mem.copyuvm then do
      modProc np fun x => { x with state := .unused }
      pure (-1)
    else do
      modProc np fun x => { x with parent := some p, id := Ident.ofStr id }
      dupFiles p np (List.finRange NOFILE)
      let K ← get
      let cwd ← deref (K.proc p).cwd
      let cwd ← onFs (idup cwd)
      modProc np fun x => { x with cwd := some cwd, state := .runnable }
      let K ← get
      pure (K.proc np).pid.toInt

def fork (mem : ForkMem) : KM ℤ := do
  let K ← get
  forkAs p (K.proc p).id.toList mem

def fork2 (username : Option Str) (mem : ForkMem) : KM ℤ :=
  match username with
  | none => pure (-1)
  | some username => forkAs p username mem

/-- The loop of `exit` that closes the files. -/
def closeFiles : List (Fin NOFILE) → KM Unit
  | [] => pure ()
  | fd :: fds => do
    let K ← get
    match (K.proc p).ofile fd with
    | none => closeFiles fds
    | some f => do
      fileclose sb f
      setOfile p fd none
      closeFiles fds

/-- What `exit` and `wait` make of a process that is gone. -/
def reaped (x : Proc) : Proc := { x with state := .unused, pid := 0, parent := none, killed := false }

/-- Children of `p` are passed to init. -/
def adopted (x : Proc) : Proc := if x.parent = some p then { x with parent := some initproc } else x

def exit : KM ℤ :=
  if p = initproc then stop (.panic "init exiting")
  else do
    modify fun K => { K with proc := fun q =>
      if (K.proc q).pid = (K.proc p).pid ∧ q ≠ p then reaped (K.proc q) else K.proc q }
    closeFiles sb p (List.finRange NOFILE)
    let K ← get
    let cwd ← deref (K.proc p).cwd
    onFs (putInOp sb cwd)
    modProc p fun x => { x with cwd := none }
    modify fun K => { K with proc := fun q => adopted p (K.proc q) }
    modProc p fun x => { x with state := .zombie }
    pure 0

/-- Wait for a child process to exit and return its pid. -/
def wait : KM ℤ := do
  let K ← get
  match (List.finRange NPROC).find? fun q =>
      (K.proc q).parent = some p ∧ (K.proc q).state = .zombie with
  | some q => do
    modProc q reaped
    pure (K.proc q).pid.toInt
  | none =>
    if (∀ q, (K.proc q).parent ≠ some p) ∨ (K.proc p).killed then pure (-1) else stop .sleep

def kill (pid : Option Int32) : KM ℤ := do
  let K ← get
  match pid with
  | none => pure (-1)
  | some pid =>
    match (List.finRange NPROC).find? fun q => (K.proc q).pid = pid with
    | none => pure (-1)
    | some q => do
      modProc q fun x => { x with killed := true }
      pure 0

/-! ### The account calls -/

def accountcheck (id pw : Str) : KM ℤ := do
  let K ← get
  match K.utable.accountcheck id pw with
  | none => pure (-1)
  | some t => do
    setUtable t
    pure 0

/-- The string "./useraccount". -/
def pathname : Str := [46, 47, 117, 115, 101, 114, 97, 99, 99, 111, 117, 110, 116]

/-- How the file-system part of `usysinit` ends. -/
inductive Setup where
  /-- There is no directory to look in. -/
  | unreachable
  /-- The new file could not be written. -/
  | unwritten
  /-- The file could not be read. -/
  | unread
  /-- The file is new. -/
  | made (ip : Slot)
  /-- The file was there, with these bytes. -/
  | read (ip : Slot) (buf : Str)

/-- The branch of `usysinit` that makes the file. -/
def makeAccounts (dp : Slot) (name : Str) : FsM Setup := do
  let d ← inode dp
  let ip ← ialloc sb d.dev T_FILE
  ilock sb ip
  modD ip (initInode 0 0 root)
  iupdate sb ip
  let i ← inode ip
  let linked ← dirlink sb dp name i.inum
  if !linked then stop (.panic "create: dirlink")
  else do
    let r ← writei sb ip UTable.initial.bytes 0
    match r with
    | none => do
      iunlock ip
      endOp
      pure .unwritten
    | some _ => do
      iupdate sb dp
      iupdate sb ip
      iunlockput sb dp
      iunlock ip
      pure (.made ip)

/-- The branch of `usysinit` that reads the file. The path is resolved again with
the inode locked; should that fail, null is unlocked. -/
def readAccounts (c : Caller) (dp ip : Slot) : FsM Setup := do
  iunlockput sb dp
  ilock sb ip
  let r ← namei sb c pathname
  match r with
  | none => stop (.panic "iunlock")
  | some ip => do
    let r ← readi sb ip 0 userBytes
    match r with
    | none => do
      iunlock ip
      endOp
      pure .unread
    | some buf => do
      iunlockput sb ip
      pure (.read ip buf)

/-- The file-system part of `usysinit`, in its transaction. -/
def setupAccounts (c : Caller) : FsM Setup := do
  let r ← nameiparent sb c pathname
  match r with
  | none => pure .unreachable
  | some (dp, name) => do
    ilock sb dp
    let found ← dirlookup sb dp name
    match found with
    | none => makeAccounts sb dp name
    | some (ip, _) => readAccounts sb c dp ip

/-- `utable.ip = ip; end_op(); return 0;`, with the table. -/
def accountsReady (ip : Slot) (t : UTable) : KM ℤ := do
  modify fun K => { K with utable := t, utableIp := some ip }
  onFs endOp
  pure 0

def usysinit : KM ℤ := do
  setUtable UTable.cleared
  let c ← caller p
  let r ← onFs (do beginOp; setupAccounts sb c)
  match r with
  | .unreachable => pure (-1)
  | .unwritten => do
    setUtable UTable.initial
    pure (-1)
  | .unread => pure (-1)
  | .made ip => accountsReady ip UTable.initial
  | .read ip buf => accountsReady ip (UTable.load buf)

/-- `addUser` from the new directory on. -/
def makeHome (dp : Slot) (username : Str) : FsM Unit := do
  let d ← inode dp
  let ip ← ialloc sb d.dev T_DIR
  ilock sb dp
  ilock sb ip
  modD ip (initInode 0 0 username)
  iupdate sb ip
  addNlink sb dp 1
  let i ← inode ip
  linkDots sb ip i.inum d.inum
  let linked ← dirlink sb dp username i.inum
  if !linked then stop (.panic "create: dirlink")
  else do
    iupdate sb ip
    iupdate sb dp
    iunlockput sb ip
    iunlockput sb dp

/-- `addUser` after the change of the table, up to the search of the root
directory, which is made without its lock: the directory and what was found. -/
def findHome (c : Caller) (ip : Slot) (table username : Str) :
    FsM (Option (Slot × Option (Slot × ℕ))) := do
  ilock sb ip
  let _ ← writei sb ip table 0
  iunlock ip
  let r ← namei sb c [47]
  match r with
  | none => pure none
  | some dp => do
    let found ← dirlookup sb dp username
    pure (some (dp, found))

/-- The end of `addUser`: a home directory is made if none was found. -/
def homeDone (username : Str) : Option (Slot × Option (Slot × ℕ)) → FsM ℤ
  | none => ended (-1)
  | some (dp, none) => do
    makeHome sb dp username
    ended 0
  | some (_, some _) => ended 0

/-- `addUser` after the change of the table. -/
def addUserFs (c : Caller) (ip : Slot) (table username : Str) : FsM ℤ := do
  let r ← findHome sb c ip table username
  homeDone sb username r

def addUser (username password : Str) : KM ℤ := do
  let K ← get
  if !isRoot (K.proc p).id then pure (-1)
  else match K.utable.insert username password with
    | none => pure (-1)
    | some t => do
      setUtable t
      let c ← caller p
      onFs beginOp
      let ip ← deref K.utableIp
      onFs (addUserFs sb c ip t.bytes username)

/-- `deleteUser` after the change of the table. -/
def deleteUserFs (ip : Slot) (table : Str) : FsM ℤ := do
  ilock sb ip
  let r ← writei sb ip table 0
  match r with
  | none => ended (-1)
  | some _ => do
    iunlock ip
    ended 0

def deleteUser (username : Str) : KM ℤ := do
  let K ← get
  if !isRoot (K.proc p).id then pure (-1)
  else match K.utable.remove username with
    | none => pure (-1)
    | some t => do
      setUtable t
      onFs beginOp
      let ip ← deref K.utableIp
      onFs (deleteUserFs sb ip t.bytes)

/-! ### System calls -/

/-- The calls that touch nothing of the state. -/
inductive Plain where
  | getpid
  | sbrk
  | sleep
  | uptime
  | myfunction
  | getppid
  | yield
  | test
  | getlev
  | setpriority
  | threadCreate
  | threadExit
  | threadJoin
  deriving DecidableEq

/-- The system calls with their arguments. -/
inductive Call where
  | fork (mem : ForkMem)
  | fork2 (username : Option Str) (mem : ForkMem)
  | exit
  | wait
  | pipe (ptr kalloc : Bool)
  | read (fd n : Option ℤ) (ptr : Bool) (piperead : ℤ)
  | write (fd : Option ℤ) (src : Option Str) (pipewrite : ℤ)
  | kill (pid : Option Int32)
  | exec (path : Option Str) (mem : ExecMem)
  | fstat (fd : Option ℤ) (ptr : Bool)
  | chdir (path : Option Str)
  | dup (fd : Option ℤ)
  | open (path : Option Str) (omode : Option UInt32)
  | mknod (path : Option Str) (major minor : Option Int32)
  | unlink (path : Option Str)
  | link (old new : Option Str)
  | mkdir (path : Option Str)
  | close (fd : Option ℤ)
  | usysinit
  | addUser (id pw : Option Str)
  | deleteUser (id : Option Str)
  | accountcheck (id pw : Option Str)
  | chmod (pathname : Option Str) (mode : Option UInt32)
  | plain (call : Plain) (r : ℤ)

/-- A call on names, made by `p`. -/
def asCaller (x : Caller → FsM ℤ) : KM ℤ := do
  let c ← caller p
  onFs (x c)

/-- What the call does when process `p` makes it. -/
def syscall : Call → KM ℤ
  | .fork mem => fork p mem
  | .fork2 username mem => fork2 p username mem
  | .exit => exit sb p
  | .wait => wait p
  | .pipe ptr kalloc => sysPipe sb p ptr kalloc
  | .read fd n ptr piperead => sysRead sb p fd n ptr piperead
  | .write fd src pipewrite => sysWrite sb p fd src pipewrite
  | .kill pid => kill pid
  | .exec (some path) mem => asCaller p fun c => exec sb c path mem
  | .exec none _ => pure (-1)
  | .fstat fd ptr => sysFstat sb p fd ptr
  | .chdir path => sysChdir sb p path
  | .dup fd => sysDup p fd
  | .open path omode => sysOpen sb p path omode
  | .mknod path major minor => asCaller p fun c => sysMknod sb c path major minor
  | .unlink path => asCaller p fun c => sysUnlink sb c path
  | .link old new => asCaller p fun c => sysLink sb c old new
  | .mkdir path => asCaller p fun c => sysMkdir sb c path
  | .close fd => sysClose sb p fd
  | .usysinit => usysinit sb p
  | .addUser (some id) (some pw) => addUser sb p id pw
  | .addUser _ _ => pure (-1)
  | .deleteUser (some id) => deleteUser sb p id
  | .deleteUser none => pure (-1)
  | .accountcheck (some id) (some pw) => accountcheck id pw
  | .accountcheck _ _ => pure (-1)
  | .chmod (some pathname) (some mode) => asCaller p fun c => chmod sb c pathname mode
  | .chmod _ _ => pure (-1)
  | .plain _ r => pure r

end

/-! ### Runs -/

/-- A cache entry, a file and a process of zero bytes. -/
def Inode.zero : Inode := ⟨0, 0, 0, false, false, Dinode.zero⟩
def File.zero : File := ⟨.none, 0, false, false, none, 0⟩
def Proc.zero : Proc := ⟨.unused, 0, none, false, fun _ => none, none, Vector.replicate 16 0⟩

/-- The kernel when init starts: `userinit` has made it, with the root
directory as its current directory. -/
def boot (disk : Disk) (tty : List (Option Str)) : Kernel where
  fs :=
    { disk := disk
      icache := update (fun _ => Inode.zero) 0
        { Inode.zero with dev := ROOTDEV, inum := ROOTINO, ref := 1 }
      outstanding := 0
      lh := []
      tty := tty
      trace := [] }
  file := fun _ => File.zero
  proc := update (fun _ => Proc.zero) initproc
    { Proc.zero with state := .runnable, pid := 1, cwd := some 0, id := Ident.ofStr root }
  nextpid := 2
  utable := ⟨fun _ => (UTable.noName, UTable.noName), fun _ => false⟩
  utableIp := none

/-- A step of a run: who makes which call. -/
structure Move where
  p : Fin NPROC
  call : Call

/-- One call of a run: a live process makes it, and it returns `r`. -/
structure Step (sb : Superblock) (K : Kernel) (m : Move) (r : ℤ) (K' : Kernel) : Prop where
  live : (K.proc m.p).state = .runnable
  ret : syscall sb m.p m.call K = .ok (r, K')

/-- A call that was made: the state before it, what it returned and the state after
it. -/
structure Turn where
  before : Kernel
  move : Move
  r : ℤ
  after : Kernel

/-- `K` is reached from `K₀` by the calls of the list. -/
inductive Reach (sb : Superblock) (K₀ : Kernel) : List Turn → Kernel → Prop where
  | refl : Reach sb K₀ [] K₀
  | step {log : List Turn} {K K' : Kernel} {m : Move} {r : ℤ} (hr : Reach sb K₀ log K)
      (hs : Step sb K m r K') : Reach sb K₀ (log ++ [⟨K, m, r, K'⟩]) K'

namespace Reach

variable {sb : Superblock} {K₀ K K' : Kernel} {log : List Turn} {m : Move} {r : ℤ}

/-- Every turn of a run is a step. -/
theorem turn (h : Reach sb K₀ log K) {t : Turn} (ht : t ∈ log) :
    Step sb t.before t.move t.r t.after := by
  induction h with
  | refl => cases ht
  | step _ hs ih =>
    rcases List.mem_append.mp ht with ht | ht
    · exact ih ht
    · cases List.mem_singleton.mp ht
      exact hs

/-- What a turn leaves is reached too. -/
theorem after (h : Reach sb K₀ log K) {t : Turn} (ht : t ∈ log) : ∃ log', Reach sb K₀ log' t.after := by
  induction h with
  | refl => cases ht
  | step hr hs ih =>
    rcases List.mem_append.mp ht with ht | ht
    · exact ih ht
    · rw [List.mem_singleton.mp ht]
      exact ⟨_, .step hr hs⟩

theorem trans {log' : List Turn} (h : Reach sb K₀ log K) (h' : Reach sb K log' K') :
    Reach sb K₀ (log ++ log') K' := by
  induction h' with
  | refl => rwa [List.append_nil]
  | step _ hs ih =>
    rw [← List.append_assoc]
    exact .step ih hs

end Reach

def play (sb : Superblock) : Kernel → List Move → Option (List Turn × Kernel)
  | K, [] => some ([], K)
  | K, m :: ms =>
    if (K.proc m.p).state = .runnable then
      match syscall sb m.p m.call K with
      | .ok (r, K') => (play sb K' ms).map fun (log, K'') => (⟨K, m, r, K'⟩ :: log, K'')
      | .error _ => none
    else none

theorem reach_play : ∀ {ms : List Move} {log : List Turn} {K K' : Kernel},
    play sb K ms = some (log, K') → Reach sb K log K' ∧ log.map Turn.move = ms
  | [], log, K, K', h => by
    cases h
    exact ⟨.refl, rfl⟩
  | m :: ms, log, K, K', h => by
    rw [play] at h
    split at h
    · rename_i hlive
      split at h
      · rename_i r K1 hrun
        obtain ⟨⟨log', K2⟩, h', heq⟩ := Option.map_eq_some_iff.mp h
        obtain ⟨rfl, rfl⟩ := Prod.mk.inj heq
        obtain ⟨hr, hms⟩ := reach_play h'
        exact ⟨.trans (.step .refl ⟨hlive, hrun⟩) hr, by rw [List.map_cons, hms]⟩
      · cases h
    · cases h

/-- A run given by what can be computed of it. -/
theorem exists_reach {f : List Turn × Kernel → α} {a : α} (h : (play sb K ms).map f = some a) :
    ∃ log K', Reach sb K log K' ∧ log.map Turn.move = ms ∧ f (log, K') = a := by
  obtain ⟨⟨log, K'⟩, hplay, hf⟩ := Option.map_eq_some_iff.mp h
  obtain ⟨hr, hms⟩ := reach_play hplay
  exact ⟨log, K', hr, hms, hf⟩

theorem move_mem {log : List Turn} (h : log.map Turn.move = ms) {t : Turn}
    (ht : t ∈ log) : t.move ∈ ms := h ▸ List.mem_map_of_mem ht

/-! ### Small disks

For concrete runs: sixteen inodes, and data blocks 36 to 63. -/

def smallSb : Superblock where
  size := 64
  ninodes := 16
  nlog := 30
  logstart := 2
  inodestart := 32
  bmapstart := 35
  log_le := by decide
  inodes_le := by decide
  root_lt := by decide
  size_lt := by decide

/-- An inode of root's with links, size and direct addresses. -/
def smallInode (type : Int16) (nlink : Int16) (size : UInt32) (addrs : List UInt32) : Dinode :=
  { newDinode type with nlink := nlink, size := size, addrs := fun n => addrs.getD n 0 }

/-- The disk with these inodes from number 1 on, this bitmap and these data
blocks from 36 on. -/
def smallDisk (inodes : List Dinode) (bitmap : Str) (blocks : List Str) : Disk := fun b =>
  if b = 32 then fun j => ((Dinode.zero :: inodes).getD (j / 64) Dinode.zero).byte (j % 64)
  else if b = 35 then fun j => bitmap.getD j 0
  else if b < 36 then fun _ => 0
  else fun j => (blocks.getD (b - 36) []).getD j 0

/-- A root directory with "." and ".." in block 36, and nothing else. -/
def bareDisk (mode : UInt32) : Disk :=
  smallDisk [{ smallInode T_DIR 1 32 [36] with mode := mode }] [255, 255, 255, 255, 31]
    [Dirent.bytes 1 dot ++ Dirent.bytes 1 dotdot]

end Xv6
