/-
# Directories, paths and the calls on names

The rest of fs.c, and the parts of sysfile.c that need only the caller's name
and current directory. A directory is a file of 16-byte entries: an i-number and
a name of `DIRSIZ` = 14 bytes.

Permissions are checked per caller class: the user bits of the mode for root
and the owner, the others' bits for everyone else (`grants`). The search check of
`namex` is its own: for others it reads `!ip->mode & MODE_XOTH`, which refuses only
mode 0 (`searchable`).
-/
import Xv6.Fs.Inode

namespace Xv6

open Prog

structure Dirent where
  inum : ℕ
  name : Str
  deriving DecidableEq

namespace Dirent

/-- The entry in 16 bytes read from a directory. -/
def ofBytes (buf : Str) : Dirent :=
  ⟨(buf.getD 0 0).toNat + 256 * (buf.getD 1 0).toNat, buf.drop 2⟩

/-- The 16 bytes of an entry: `de.inum = inum; strncpy(de.name, name, DIRSIZ)`. -/
def bytes (inum : ℕ) (name : Str) : Str :=
  UInt8.ofNat inum :: UInt8.ofNat (inum / 256) :: strncpy name 14

/-- The 16 bytes of an unused entry. -/
def unused : Str := List.replicate 16 0

end Dirent

def namecmp (s t : Str) : ℤ := strncmp s t 14

section

variable (sb : Superblock)

/-- `readi(dp, (char*)&de, off, sizeof(de)) != sizeof(de)` is a panic. -/
def readDirent (dp : Slot) (off : ℕ) (msg : String) : FsM Dirent := do
  let buf ← readi sb dp off 16
  match buf with
  | none => stop (.panic msg)
  | some buf => if buf.length = 16 then pure (Dirent.ofBytes buf) else stop (.panic msg)

/-- The loop of `dirlookup`. -/
def lookupFrom (dp : Slot) (name : Str) : ℕ → ℕ → FsM (Option (Slot × ℕ))
  | 0, _ => pure none
  | fuel + 1, off => do
    let ip ← inode dp
    if ip.d.size.toNat ≤ off then pure none
    else do
      let de ← readDirent sb dp off "dirlookup read"
      if de.inum ≠ 0 ∧ namecmp name de.name = 0 then do
        let k ← iget ip.dev de.inum
        pure (some (k, off))
      else lookupFrom dp name fuel (off + 16)

/-- How many rounds a loop over the entries of a directory makes at most. -/
def Inode.rounds (ip : Inode) : ℕ := ip.d.size.toNat / 16 + 1

/-- Look for a directory entry in a directory: its inode and the byte offset of
the entry. -/
def dirlookup (dp : Slot) (name : Str) : FsM (Option (Slot × ℕ)) := do
  let ip ← inode dp
  if ip.d.type = T_DIR then lookupFrom sb dp name ip.rounds 0
  else stop (.panic "dirlookup not DIR")

/-- The loop of `dirlink` that looks for an empty entry. -/
def emptyFrom (dp : Slot) : ℕ → ℕ → FsM ℕ
  | 0, off => pure off
  | fuel + 1, off => do
    let ip ← inode dp
    if ip.d.size.toNat ≤ off then pure off
    else do
      let de ← readDirent sb dp off "dirlink read"
      if de.inum = 0 then pure off else emptyFrom dp fuel (off + 16)

/-- Write a new directory entry into the directory `dp`; `false` is the return
value -1. -/
def dirlink (dp : Slot) (name : Str) (inum : ℕ) : FsM Bool := do
  let found ← dirlookup sb dp name
  match found with
  | some (k, _) => do
    iput sb k
    pure false
  | none => do
    let ip ← inode dp
    let off ← emptyFrom sb dp ip.rounds 0
    let r ← writei sb dp (Dirent.bytes inum name) off
    if r = some 16 then pure true else stop (.panic "dirlink")

end

/-! ### Paths -/

/-- Copy the next path element from path: the element and the rest of the
path, or `none` if there is no name to remove. -/
def skipelem (path : Str) : Option (Str × Str) :=
  let path := path.dropWhile (· = 47)
  if byte0 path = 0 then none
  else
    let inName : UInt8 → Bool := fun c => c ≠ 47 ∧ c ≠ 0
    some ((path.takeWhile inName).take 14, (path.dropWhile inName).dropWhile (· = 47))

/-- The caller is of the class "user" for this inode. -/
def owns (id : Ident) (d : Dinode) : Bool := isRoot id || sameId id d.id.toList

/-- The mode has the bit for the caller's class. -/
def grants (id : Ident) (d : Dinode) (usr oth : UInt32) : Bool :=
  if owns id d then d.mode &&& usr ≠ 0 else d.mode &&& oth ≠ 0

/-- The check `if(ip->type != T_DEV)`, then the bit of the caller's class. -/
def permits (id : Ident) (d : Dinode) (usr oth : UInt32) : Bool :=
  d.type = T_DEV || grants id d usr oth

/-- The search check of `namex`. For others, `(!ip->mode & MODE_XOTH)` is true of
mode 0 only. -/
def searchable (id : Ident) (d : Dinode) : Bool :=
  d.type = T_DEV || (if owns id d then d.mode &&& MODE_XUSR ≠ 0 else d.mode ≠ 0)

/-- The caller of a file-system call: its id and its current directory. -/
structure Caller where
  id : Ident
  cwd : Slot

section

variable (sb : Superblock) (c : Caller)

/-- `iunlockput(ip); return 0;` -/
def dropped {α : Type} (k : Slot) : FsM (Option α) := do
  iunlockput sb k
  pure none

/-- The loop of `namex`, and what follows it. A round takes a byte of the path at
least, so the length of the path is fuel enough. -/
def namexFrom (parent : Bool) : ℕ → Slot → Str → Str → FsM (Option (Slot × Str))
  | 0, ip, _, name => done parent ip name
  | fuel + 1, ip, path, name =>
    match skipelem path with
    | none => done parent ip name
    | some (name, path) => do
      ilock sb ip
      let i ← inode ip
      if !searchable c.id i.d then dropped sb ip
      else if i.d.type ≠ T_DIR then dropped sb ip
      else if parent ∧ byte0 path = 0 then do
        iunlock ip
        pure (some (ip, name))
      else do
        let next ← dirlookup sb ip name
        match next with
        | none => dropped sb ip
        | some (next, _) => do
          iunlockput sb ip
          namexFrom parent fuel next path name
where
  /-- After the loop. -/
  done (parent : Bool) (ip : Slot) (name : Str) : FsM (Option (Slot × Str)) :=
    if parent then do
      iput sb ip
      pure none
    else pure (some (ip, name))

/-- Where a path starts: at the root or at the current directory. -/
def startInode (path : Str) : FsM Slot :=
  if byte0 path = 47 then iget ROOTDEV ROOTINO else idup c.cwd

/-- Look up and return the inode for a path name. With `parent`, return the
inode for the parent and the final path element. -/
def namex (path : Str) (parent : Bool) : FsM (Option (Slot × Str)) := do
  let ip ← startInode c path
  namexFrom sb c parent path.length ip path []

def namei (path : Str) : FsM (Option Slot) := do
  let r ← namex sb c path false
  pure (r.map Prod.fst)

/-- The path "/" has no names to look up: `namei` of it is `iget` of the root. -/
theorem sat_nameiRoot {β : Type} {f : Option Slot → FsM β} {Q : β → Fs → Prop} {E : Stop → Prop} {s : Fs}
    (h : Sat (iget ROOTDEV ROOTINO >>= fun k => f (some k)) s Q E) :
    Sat (namei sb c [47] >>= f) s Q E := by
  unfold namei namex
  rw [Sat, bind_assoc_run, bind_assoc_run]
  exact h

def nameiparent (path : Str) : FsM (Option (Slot × Str)) := namex sb c path true

/-! ### sysfile.c -/

/-- `iunlockput(ip); end_op(); return -1;` -/
def failed (k : Slot) : FsM ℤ := do
  iunlockput sb k
  endOp
  pure (-1)

/-- `end_op(); return r;` -/
def ended (r : ℤ) : FsM ℤ := do
  endOp
  pure r

/-- The label `bad` of `sys_link`. -/
def linkBad (ip : Slot) : FsM ℤ := do
  ilock sb ip
  addNlink sb ip (-1)
  failed sb ip

/-- The first half of `sys_link`: the inode at `old`, with one link more, and the
directory to link it into with the name, if there is one. -/
def linkFrom (old new : Str) : FsM (Option (Slot × Option (Slot × Str))) := do
  beginOp
  let r ← namei sb c old
  match r with
  | none => do
    endOp
    pure none
  | some ip => do
    ilock sb ip
    let i ← inode ip
    if i.d.type = T_DIR then do
      let _ ← failed sb ip
      pure none
    else do
      addNlink sb ip 1
      iunlock ip
      let r ← nameiparent sb c new
      pure (some (ip, r))

/-- The second half of `sys_link`. -/
def linkTo (ip : Slot) : Option (Slot × Str) → FsM ℤ
  | none => linkBad sb ip
  | some (dp, name) => do
    ilock sb dp
    let d ← inode dp
    let i ← inode ip
    if d.dev ≠ i.dev then do
      iunlockput sb dp
      linkBad sb ip
    else do
      let linked ← dirlink sb dp name i.inum
      if linked then do
        iunlockput sb dp
        iput sb ip
        ended 0
      else do
        iunlockput sb dp
        linkBad sb ip

/-- Create the path `new` as a link to the same inode as `old`. -/
def sysLink (old new : Option Str) : FsM ℤ :=
  match old, new with
  | some old, some new => do
    let r ← linkFrom sb c old new
    match r with
    | none => pure (-1)
    | some (ip, r) => linkTo sb ip r
  | _, _ => pure (-1)

/-- The loop of `isdirempty`. -/
def emptyDirFrom (dp : Slot) : ℕ → ℕ → FsM Bool
  | 0, _ => pure true
  | fuel + 1, off => do
    let ip ← inode dp
    if ip.d.size.toNat ≤ off then pure true
    else do
      let de ← readDirent sb dp off "isdirempty: readi"
      if de.inum ≠ 0 then pure false else emptyDirFrom dp fuel (off + 16)

/-- Is the directory `dp` empty except for "." and ".." ? -/
def isdirempty (dp : Slot) : FsM Bool := do
  let ip ← inode dp
  emptyDirFrom sb dp ip.rounds 32

/-- `ip->type == T_DIR && !isdirempty(ip)`. -/
def dirBusy (ip : Slot) (type : Int16) : FsM Bool :=
  if type = T_DIR then do
    let empty ← isdirempty sb ip
    pure !empty
  else pure false

/-- The end of `sys_unlink`: the entry at `off` of `dp` is cleared and `ip` has
one link less. -/
def unlinkEntry (dp ip : Slot) (off : ℕ) : FsM ℤ := do
  let r ← writei sb dp Dirent.unused off
  if r ≠ some 16 then stop (.panic "unlink: writei")
  else do
    let i ← inode ip
    when (i.d.type = T_DIR) (addNlink sb dp (-1))
    iunlockput sb dp
    addNlink sb ip (-1)
    iunlockput sb ip
    ended 0

def dot : Str := [46]
def dotdot : Str := [46, 46]

def sysUnlink (path : Option Str) : FsM ℤ :=
  match path with
  | none => pure (-1)
  | some path => do
    beginOp
    let r ← nameiparent sb c path
    match r with
    | none => ended (-1)
    | some (dp, name) => do
      ilock sb dp
      let d ← inode dp
      if !permits c.id d.d MODE_WUSR MODE_WOTH then failed sb dp
      -- Cannot unlink "." or "..".
      else if namecmp name dot = 0 ∨ namecmp name dotdot = 0 then failed sb dp
      else do
        let r ← dirlookup sb dp name
        match r with
        | none => failed sb dp
        | some (ip, off) => do
          ilock sb ip
          let i ← inode ip
          if i.d.nlink < 1 then stop (.panic "unlink: nlink < 1")
          else do
            let busy ← dirBusy sb ip i.d.type
            if busy then do
              iunlockput sb ip
              failed sb dp
            else unlinkEntry sb dp ip off

/-- The entries "." and ".." of a new directory. -/
def linkDots (ip : Slot) (inum parent : ℕ) : FsM Unit := do
  let a ← dirlink sb ip dot inum
  if a then do
    let b ← dirlink sb ip dotdot parent
    if b then pure () else stop (.panic "create dots")
  else stop (.panic "create dots")

/-- The fields a new inode is given, with the owner. -/
def initInode (major minor : Int16) (user : Str) (d : Dinode) : Dinode :=
  { d with major := major, minor := minor, nlink := 1, id := Ident.ofStr user }

/-- The end of `create`: a new inode, linked into `dp`. -/
def createNew (dp : Slot) (name : Str) (type major minor : Int16) : FsM Slot := do
  let d ← inode dp
  let ip ← ialloc sb d.dev type
  ilock sb ip
  modD ip (initInode major minor c.id.toList)
  iupdate sb ip
  let i ← inode ip
  when (type = T_DIR) do
    addNlink sb dp 1
    linkDots sb ip i.inum d.inum
  let linked ← dirlink sb dp name i.inum
  if linked then do
    iunlockput sb dp
    pure ip
  else stop (.panic "create: dirlink")

def create (path : Str) (type major minor : Int16) : FsM (Option Slot) := do
  let r ← nameiparent sb c path
  match r with
  | none => pure none
  | some (dp, name) => do
    ilock sb dp
    let found ← dirlookup sb dp name
    match found with
    | some (ip, _) => do
      iunlockput sb dp
      ilock sb ip
      let i ← inode ip
      if !permits c.id i.d MODE_WUSR MODE_WOTH then dropped sb ip
      else if type = T_FILE ∧ i.d.type = T_FILE then pure (some ip)
      else dropped sb ip
    | none => do
      let d ← inode dp
      if !permits c.id d.d MODE_WUSR MODE_WOTH then dropped sb dp
      else do
        let ip ← createNew sb c dp name type major minor
        pure (some ip)

/-- The end of `sys_mkdir` and `sys_mknod`. -/
def created (r : Option Slot) : FsM ℤ :=
  match r with
  | none => ended (-1)
  | some ip => do
    iunlockput sb ip
    ended 0

def sysMkdir (path : Option Str) : FsM ℤ := do
  beginOp
  match path with
  | none => ended (-1)
  | some path => do
    let r ← create sb c path T_DIR 0 0
    created sb r

/-- `create` takes the device numbers as `short`s. -/
def sysMknod (path : Option Str) (major minor : Option Int32) : FsM ℤ := do
  beginOp
  match path, major, minor with
  | some path, some major, some minor => do
    let r ← create sb c path T_DEV major.toInt16 minor.toInt16
    created sb r
  | _, _, _ => ended (-1)

/-- `iunlock(ip); end_op(); return r;` -/
def unlocked (ip : Slot) (r : ℤ) : FsM ℤ := do
  iunlock ip
  ended r

/-- `chmod` once the path is resolved. -/
def chmodInode (ip : Slot) (mode : UInt32) : FsM ℤ := do
  ilock sb ip
  let i ← inode ip
  if i.d.type ≠ T_DEV ∧ !owns c.id i.d then unlocked ip (-1)
  else if i.d.type = T_DEV then unlocked ip (-1)
  else do
    modD ip fun d => { d with mode := mode }
    iupdate sb ip
    unlocked ip 0

def chmod (pathname : Str) (mode : UInt32) : FsM ℤ := do
  beginOp
  let r ← namei sb c pathname
  match r with
  | none => ended (-1)
  | some ip => chmodInode sb c ip mode

end

end Xv6
