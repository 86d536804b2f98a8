/-
# Locks, references and transactions

What each function of fs.c does to the reference counts, to the sleep locks and to the record of log
calls. None of it depends on what is on the disk, so it holds from any state.

`Disc c H L b s` says where the file system stands against the start `c` of a call: the caller has
taken the references `H` and holds the locks `L`, everything else about counts and locks is as it
was, and the log calls since then are well bracketed, in a transaction (`b`) or not. Each function
has one lemma that says how it moves `H`, `L` and `b`. That lemma is for any such `D`, given what
the steps do that fs.c is made of (`Steps`).
-/
import Xv6.Fs.Dir

namespace Xv6

open Prog
open Multiset (count_cons_of_ne cons_swap count_cons_self)

/-- Follow a record of log calls: `none` if `begin_op` is nested, or if `end_op` or
`log_write` is outside a transaction; else whether the end is inside one. -/
def bracket : Bool → List Event → Option Bool
  | b, [] => some b
  | false, .beginOp :: w => bracket true w
  | true, .endOp :: w => bracket false w
  | true, .logWrite _ :: w => bracket true w
  | b, .free _ :: w => bracket b w
  | _, _ :: _ => none

theorem bracket_append : ∀ (w w' : List Event) (b : Bool),
    bracket b (w ++ w') = (bracket b w).bind fun b' => bracket b' w'
  | [], _, _ => rfl
  | .beginOp :: w, w', false => bracket_append w w' true
  | .beginOp :: _, _, true => rfl
  | .endOp :: w, w', true => bracket_append w w' false
  | .endOp :: _, _, false => rfl
  | .logWrite _ :: w, w', true => bracket_append w w' true
  | .logWrite _ :: _, _, false => rfl
  | .free _ :: w, w', true => bracket_append w w' true
  | .free _ :: w, w', false => bracket_append w w' false

/-- Where a call started: the reference counts that are not the caller's, the inodes
they belong to, and the record. -/
structure Origin where
  ref : Slot → ℤ
  name : Slot → ℕ × ℕ
  trace : List Event

/-- What the caller's references `H` and locks `L` make of an entry. -/
structure SlotDisc (c : Origin) (H L : Multiset Slot) (k : Slot) (ip : Inode) : Prop where
  ref : ip.ref = c.ref k + H.count k
  name : 0 < c.ref k → (ip.dev, ip.inum) = c.name k
  lock : ip.lock = decide (k ∈ L)

/-- The caller holds references `H` and locks `L`, and is in a transaction if `b`. -/
structure Disc (c : Origin) (H L : Multiset Slot) (b : Bool) (s : Fs) : Prop where
  slot : ∀ k, SlotDisc c H L k (s.icache k)
  nodup : L.Nodup
  trace : ∃ w, s.trace = c.trace ++ w ∧ bracket false w = some b

/-- The state at the start of a call. -/
def Fs.origin (s : Fs) : Origin where
  ref := fun k => (s.icache k).ref
  name := fun k => ((s.icache k).dev, (s.icache k).inum)
  trace := s.trace

/-- No sleep lock is held. -/
def Fs.Unlocked (s : Fs) : Prop := ∀ k, (s.icache k).lock = false

theorem disc_origin {s : Fs} (hs : s.Unlocked) : Disc s.origin 0 0 false s where
  slot := fun k => ⟨by simp [Fs.origin], fun _ => rfl, by simp [hs k]⟩
  nodup := Multiset.nodup_zero
  trace := ⟨[], by simp [Fs.origin], rfl⟩

section

variable {sb : Superblock} {c : Origin} {H L : Multiset Slot} {b : Bool} {s : Fs} {j k : Slot}
  {ip : Inode} {P : Fs → Prop} {E : Stop → Prop}

/-- Another slot's reference or lock says nothing about this one. -/
theorem SlotDisc.cons_ref (hj : j ≠ k) : SlotDisc c (k ::ₘ H) L j ip ↔ SlotDisc c H L j ip := by
  constructor <;> rintro ⟨h1, h2, h3⟩ <;> refine ⟨?_, h2, h3⟩
  · rwa [count_cons_of_ne hj] at h1
  · rwa [count_cons_of_ne hj]

theorem SlotDisc.cons_lock (hj : j ≠ k) : SlotDisc c H (k ::ₘ L) j ip ↔ SlotDisc c H L j ip := by
  have hiff : j ∈ k ::ₘ L ↔ j ∈ L := by rw [Multiset.mem_cons, or_iff_right hj]
  constructor <;> rintro ⟨h1, h2, h3⟩ <;> refine ⟨h1, h2, ?_⟩
  · rwa [decide_eq_decide.mpr hiff] at h3
  · rwa [decide_eq_decide.mpr hiff]

/-! ### The steps everything is made of -/

/-- How the steps of fs.c move a statement `D` about references, locks and transactions. A reference
can be doubled if there is one in the sense of `Has`. -/
structure Steps (sb : Superblock) (D : Multiset Slot → Multiset Slot → Bool → Fs → Prop)
    (Has : Slot → Multiset Slot → Prop) : Prop where
  has : ∀ {H j k}, Has k H → Has k (j ::ₘ H)
  /-- A change of other fields of an entry. -/
  modInode : ∀ {H L b k} {f : Inode → Inode}, (∀ ip, (f ip).ref = ip.ref ∧ (f ip).lock = ip.lock ∧
    (f ip).dev = ip.dev ∧
    (f ip).inum = ip.inum) → Keeps (D H L b) (modInode k f) Any
  beginOp : ∀ {H L}, Triple (D H L false) beginOp (fun _ => D H L true) Any
  endOp : ∀ {H L}, Triple (D H L true) endOp (fun _ => D H L false) Any
  logWrite : ∀ {H L} (n : ℕ) (data : Block), Keeps (D H L true) (logWrite sb n data) Any
  free : ∀ {H L} (k : Slot),
    Keeps (D H L true) (modify fun s => { s with trace := s.trace ++ [.free (s.icache k).inum] } :
      FsM Unit) Any
  iget : ∀ {H L b} (dev inum : ℕ), Triple (D H L b) (iget dev inum) (fun k => D (k ::ₘ H) L b) Any
  idup : ∀ {H L b k}, Has k H → Triple (D H L b) (idup k) (fun j s => j = k ∧ D (k ::ₘ H) L b s) Any
  unref : ∀ {H L b k}, Triple (D (k ::ₘ H) L b) (Xv6.modInode k fun ip =>
    { ip with ref := ip.ref - 1 }) (fun _ => D H L b) Any
  acquiresleep : ∀ {H L b k}, Triple (D H L b) (acquiresleep k) (fun _ => D H (k ::ₘ L) b) Any
  releasesleep : ∀ {H L b k}, Triple (D H (k ::ₘ L) b) (releasesleep k) (fun _ => D H L b) Any
  /-- `iunlock` returns only if the caller holds the lock. -/
  held : ∀ {H L b k}, Triple (D H L b) (iunlock k) (fun _ _ => k ∈ L) Any
  ttyRead : ∀ {H L b} (n : ℕ), Keeps (D H L b) (ttyRead n) Any

/-- The references after a lookup: one more if it found something. -/
def taking {α : Type} (H : Multiset Slot) : Option (Slot × α) → Multiset Slot
  | none => H
  | some (k, _) => k ::ₘ H

/-- The references after `namei` or `create`: one more if there is an inode. -/
def taken (H : Multiset Slot) : Option Slot → Multiset Slot
  | none => H
  | some k => k ::ₘ H

/-- The references after the first half of `sys_link`: to the inode, and to the
directory if there is one. -/
def linking (H : Multiset Slot) : Option (Slot × Option (Slot × Str)) → Multiset Slot
  | none => H
  | some (ip, r) => taking (ip ::ₘ H) r

theorem keeps_inode : Keeps P (inode k) E := fun _ h => h

theorem keeps_bread {n : ℕ} : Keeps P (bread n) E := fun _ h => h

namespace Steps

variable {D : Multiset Slot → Multiset Slot → Bool → Fs → Prop} {Has : Slot → Multiset Slot → Prop}
  (h : Steps sb D Has) {α : Type} {dp : Slot}

include h

theorem modD (f : Dinode → Dinode) : Keeps (D H L b) (modD k f) Any := h.modInode fun _ =>
    ⟨rfl, rfl, rfl, rfl⟩

/-! ### Locks -/

theorem iunlock : Triple (D H (k ::ₘ L) b) (iunlock k) (fun _ => D H L b) Any :=
  keeps_inode.bind fun _ => .ite (fun _ => .stop trivial) fun _ => h.releasesleep

theorem ilock : Triple (D H L b) (ilock sb k) (fun _ => D H (k ::ₘ L) b) Any := by
  refine keeps_inode.bind fun _ => .ite (fun _ => .stop trivial) fun _ => ?_
  refine h.acquiresleep.bind fun _ => .ite (fun _ => .ret) fun _ => keeps_bread.bind fun _ => ?_
  refine Triple.bind (h.modInode ?_) fun _ => .ite (fun _ => .stop trivial) fun _ => .ret
  exact fun _ => ⟨rfl, rfl, rfl, rfl⟩

/-! ### Blocks and inodes -/

theorem ballocFrom : ∀ fuel n : ℕ, Keeps (D H L true) (ballocFrom sb fuel n) Any
  | 0, _ => .stop trivial
  | fuel + 1, n => by
    refine keeps_bread.bind fun _ => .ite (fun _ => ballocFrom fuel (n + 1)) fun _ => ?_
    exact (h.logWrite _ _).bind fun _ => (h.logWrite _ _).bind fun _ => .ret

theorem bfree (n : ℕ) : Keeps (D H L true) (bfree sb n) Any :=
  keeps_bread.bind fun _ => .ite (fun _ => h.logWrite _ _) fun _ => .stop trivial

theorem iupdate : Keeps (D H L true) (iupdate sb k) Any :=
  keeps_inode.bind fun _ => keeps_bread.bind fun _ => h.logWrite _ _

theorem iallocFrom (dev : ℕ) (type : Int16) : ∀ fuel inum : ℕ,
    Triple (D H L true) (iallocFrom sb dev type fuel inum) (fun k => D (k ::ₘ H) L true) Any
  | 0, _ => .stop trivial
  | fuel + 1, inum => by
    refine keeps_bread.bind fun _ => .ite (fun _ => ?_) fun _ => iallocFrom dev type fuel (inum + 1)
    exact (h.logWrite _ _).bind fun _ => h.iget dev inum

theorem ialloc (dev : ℕ) (type : Int16) : Triple (D H L true) (ialloc sb dev type)
    (fun k => D (k ::ₘ H) L true) Any :=
  h.iallocFrom dev type _ _

/-! ### Contents -/

theorem orAlloc (addr : UInt32) {store : ℕ → FsM Unit} (hs : ∀ n, Keeps (D H L true) (store n) Any) :
    Keeps (D H L true) (orAlloc sb addr store) Any := by
  refine .ite (fun _ => ?_) fun _ => .ret
  exact (h.ballocFrom _ _).bind fun n => (hs n).bind fun _ => .ret

theorem bmap (bn : ℕ) : Keeps (D H L true) (bmap sb k bn) Any := by
  refine keeps_inode.bind fun _ => ?_
  split
  · exact h.orAlloc _ fun _ => h.modD _
  · refine .ite (fun _ => ?_) fun _ => .stop trivial
    refine (h.orAlloc _ fun _ => h.modD _).bind fun a => ?_
    exact keeps_bread.bind fun _ => h.orAlloc _ fun _ => h.logWrite _ _

theorem truncDirect : ∀ ns : List (Fin 8), Keeps (D H L true) (truncDirect sb k ns) Any
  | [] => .ret
  | n :: ns => by
    refine keeps_inode.bind fun _ => .ite (fun _ => truncDirect ns) fun _ => ?_
    exact (h.bfree _).bind fun _ => (h.modD _).bind fun _ => truncDirect ns

theorem bfreeAll : ∀ as : List UInt32, Keeps (D H L true) (bfreeAll sb as) Any
  | [] => .ret
  | _ :: as => .ite (fun _ => bfreeAll as) fun _ => (h.bfree _).bind fun _ => bfreeAll as

theorem truncIndirect : Keeps (D H L true) (truncIndirect sb k) Any := by
  refine keeps_inode.bind fun _ => .ite (fun _ => .ret) fun _ => keeps_bread.bind fun _ => ?_
  exact (h.bfreeAll _).bind fun _ => (h.bfree _).bind fun _ => h.modD _

theorem itrunc : Keeps (D H L true) (itrunc sb k) Any :=
  (h.truncDirect _).bind fun _ => h.truncIndirect.bind fun _ => (h.modD _).bind fun _ => h.iupdate

theorem ifree : Keeps (D H L true) (ifree sb k) Any := by
  refine (h.free k).bind fun _ => h.itrunc.bind fun _ => (h.modD _).bind fun _ => ?_
  exact h.iupdate.bind fun _ => h.modInode fun _ => ⟨rfl, rfl, rfl, rfl⟩

/-- `iput` gives a reference back. -/
theorem iput : Triple (D (k ::ₘ H) L true) (iput sb k) (fun _ => D H L true) Any := by
  refine h.acquiresleep.bind fun _ => keeps_inode.bind fun _ => (Keeps.when fun _ => h.ifree).bind
    fun _ => ?_
  exact h.releasesleep.bind fun _ => h.unref

theorem iunlockput : Triple (D (k ::ₘ H) (k ::ₘ L) true) (iunlockput sb k) (fun _ => D H L true) Any :=
  h.iunlock.bind fun _ => h.iput

/-- Something done between `iunlock` and `ilock`: the lock is held at the end as it
was before, or nothing returns. -/
theorem around {x : FsM α} (hx : ∀ {L : Multiset Slot}, Keeps (D H L b) x Any) :
    Keeps (D H L b) (do Xv6.iunlock k; let r ← x; Xv6.ilock sb k; pure r) Any := by
  by_cases hk : k ∈ L
  · obtain ⟨L', rfl⟩ := Multiset.exists_cons_of_mem hk
    exact h.iunlock.bind fun _ => hx.bind fun r => h.ilock.bind fun _ => .ret
  · exact h.held.bind fun _ _ hk' => absurd hk' hk

theorem consoleread (n : ℕ) : Keeps (D H L b) (consoleread sb k n) Any := h.around (h.ttyRead n)

theorem consolewrite (n : ℕ) : Keeps (D H L b) (consolewrite sb k n) Any :=
  h.around (x := pure (some n)) .ret

theorem readLoop : ∀ fuel off n : ℕ, Keeps (D H L true) (readLoop sb k fuel off n) Any
  | 0, _, _ => .ret
  | fuel + 1, off, n => by
    refine .ite (fun _ => .ret) fun _ => (h.bmap _).bind fun a => keeps_bread.bind fun _ => ?_
    exact (readLoop fuel _ _).bind fun _ => .ret

theorem readi (off n : ℕ) : Keeps (D H L true) (readi sb k off n) Any := by
  refine keeps_inode.bind fun _ => .ite (fun _ => ?_) fun _ => ?_
  · exact .ite (fun _ => h.consoleread n) fun _ => .ret
  · exact .ite (fun _ => .ret) fun _ => (h.readLoop _ _ _).bind fun _ => .ret

theorem writeLoop : ∀ (fuel off : ℕ) (src : Str), Keeps (D H L true) (writeLoop sb k fuel off src) Any
  | 0, _, _ => .ret
  | fuel + 1, off, src => by
    refine .ite (fun _ => .ret) fun _ => (h.bmap _).bind fun a => keeps_bread.bind fun _ => ?_
    exact (h.logWrite _ _).bind fun _ => writeLoop fuel _ _

theorem writei (src : Str) (off : ℕ) : Keeps (D H L true) (writei sb k src off) Any := by
  refine keeps_inode.bind fun _ => .ite (fun _ => ?_) fun _ => ?_
  · exact .ite (fun _ => h.consolewrite _) fun _ => .ret
  · refine .ite (fun _ => .ret) fun _ => .ite (fun _ => .ret) fun _ => (h.writeLoop _ _ _).bind
      fun _ => ?_
    refine (Keeps.when fun _ => ?_).bind fun _ => .ret
    exact (h.modD _).bind fun _ => h.iupdate

/-! ### Directories and paths -/

theorem addNlink (n : Int16) : Keeps (D H L true) (addNlink sb k n) Any := (h.modD _).bind fun _ =>
    h.iupdate

theorem readDirent (off : ℕ) (msg : String) : Keeps (D H L true) (readDirent sb k off msg) Any := by
  refine (h.readi off 16).bind fun buf => ?_
  cases buf with
  | none => exact .stop trivial
  | some buf => exact .ite (fun _ => .ret) fun _ => .stop trivial

theorem lookupFrom (name : Str) : ∀ fuel off : ℕ,
    Triple (D H L true) (lookupFrom sb k name fuel off) (fun r => D (taking H r) L true) Any
  | 0, _ => .done fun _ h => h
  | fuel + 1, off => by
    refine keeps_inode.bind fun _ => .ite (fun _ => .done fun _ h => h) fun _ =>
      (h.readDirent off _).bind fun de => ?_
    refine .ite (fun _ => ?_) fun _ => lookupFrom name fuel (off + 16)
    exact (h.iget _ _).bind fun k => .done fun _ h => h

theorem dirlookup (name : Str) : Triple (D H L true) (dirlookup sb k name)
    (fun r => D (taking H r) L true) Any :=
  keeps_inode.bind fun _ => .ite (fun _ => h.lookupFrom name _ _) fun _ => .stop trivial

theorem emptyFrom : ∀ fuel off : ℕ, Keeps (D H L true) (emptyFrom sb k fuel off) Any
  | 0, _ => .ret
  | fuel + 1, off => by
    refine keeps_inode.bind fun _ => .ite (fun _ => .ret) fun _ => (h.readDirent off _).bind fun de => ?_
    exact .ite (fun _ => .ret) fun _ => emptyFrom fuel (off + 16)

theorem dirlink (name : Str) (inum : ℕ) : Keeps (D H L true) (dirlink sb k name inum) Any := by
  refine (h.dirlookup name).bind fun r => ?_
  match r with
  | some (j, off) => exact h.iput.bind fun _ => .ret
  | none =>
    refine keeps_inode.bind fun _ => (h.emptyFrom _ _).bind fun off => (h.writei _ _).bind fun r => ?_
    exact .ite (fun _ => .ret) fun _ => .stop trivial

theorem linkDots (inum parent : ℕ) : Keeps (D H L true) (linkDots sb k inum parent) Any := by
  refine (h.dirlink _ _).bind fun _ => .ite (fun _ => ?_) fun _ => .stop trivial
  exact (h.dirlink _ _).bind fun _ => .ite (fun _ => .ret) fun _ => .stop trivial

/-- `dropped` returns nothing. -/
theorem dropped {Q : Option α → Fs → Prop} (hQ : Q none = D H L true) :
    Triple (D (k ::ₘ H) (k ::ₘ L) true) (dropped sb k) Q Any :=
  h.iunlockput.bind fun _ => hQ ▸ .done fun _ h => h

theorem namexDone (parent : Bool) (name : Str) :
    Triple (D (k ::ₘ H) L true) (namexFrom.done sb parent k name) (fun r => D (taking H r) L true) Any :=
  .ite (fun _ => h.iput.bind fun _ => .done fun _ h => h) fun _ => .done fun _ h => h

variable {who : Caller}

theorem namexFrom (parent : Bool) : ∀ (fuel : ℕ) (k : Slot) (path name : Str),
    Triple (D (k ::ₘ H) L true) (namexFrom sb who parent fuel k path name)
    (fun r => D (taking H r) L true) Any
  | 0, k, _, name => h.namexDone parent name
  | fuel + 1, k, path, name => by
    rw [Xv6.namexFrom]
    split
    · exact h.namexDone parent name
    · rename_i name path _
      refine h.ilock.bind fun _ => keeps_inode.bind fun _ => .ite (fun _ => h.dropped rfl) fun _ => ?_
      refine .ite (fun _ => h.dropped rfl) fun _ =>
        .ite (fun _ => h.iunlock.bind fun _ => .done fun _ h => h) fun _ => ?_
      refine (h.dirlookup name).bind fun r => ?_
      match r with
      | none => exact h.dropped rfl
      | some (next, off) =>
        rw [taking, cons_swap]
        exact h.iunlockput.bind fun _ => namexFrom parent fuel next path name

theorem namex (hcwd : Has who.cwd H) (path : Str) (parent : Bool) :
    Triple (D H L true) (namex sb who path parent) (fun r => D (taking H r) L true) Any := by
  have hstart : Triple (D H L true) (startInode who path) (fun k => D (k ::ₘ H) L true) Any :=
    .ite (fun _ => h.iget _ _) fun _ => (h.idup hcwd).post fun j s hj => hj.1 ▸ hj.2
  exact hstart.bind fun k => h.namexFrom parent _ k path []

theorem namei (hcwd : Has who.cwd H) (path : Str) :
    Triple (D H L true) (namei sb who path) (fun r => D (taken H r) L true) Any := by
  refine (h.namex hcwd path false).bind fun r => ?_
  cases r <;> exact .done fun _ h => h

/-! ### The calls on names -/

theorem ended (r : ℤ) : Triple (D H L true) (ended r) (fun _ => D H L false) Any :=
  h.endOp.bind fun _ => .ret

theorem failed : Triple (D (k ::ₘ H) (k ::ₘ L) true) (failed sb k) (fun _ => D H L false) Any :=
  h.iunlockput.bind fun _ => h.endOp.bind fun _ => .ret

theorem linkBad : Triple (D (k ::ₘ H) L true) (linkBad sb k) (fun _ => D H L false) Any :=
  h.ilock.bind fun _ => (h.addNlink _).bind fun _ => h.failed

theorem linkFrom (hcwd : Has who.cwd H) (old new : Str) :
    Triple (D H L false) (linkFrom sb who old new) (fun r => D (linking H r) L r.isSome) Any := by
  refine h.beginOp.bind fun _ => (h.namei hcwd _).bind fun r => ?_
  match r with
  | none => exact h.endOp.bind fun _ => .done fun _ h => h
  | some ip =>
    refine h.ilock.bind fun _ => keeps_inode.bind fun _ =>
      .ite (fun _ => h.failed.bind fun _ => .done fun _ h => h) fun _ => ?_
    refine (h.addNlink _).bind fun _ => h.iunlock.bind fun _ => ?_
    exact (h.namex (h.has hcwd) _ true).bind fun r => .done fun _ h => h

theorem linkTo {ip : Slot} {r : Option (Slot × Str)} :
    Triple (D (taking (ip ::ₘ H) r) L true) (linkTo sb ip r) (fun _ => D H L false) Any := by
  match r with
  | none => exact h.linkBad
  | some (dp, name) =>
    refine h.ilock.bind fun _ => keeps_inode.bind fun _ => keeps_inode.bind fun _ =>
      .ite (fun _ => ?_) fun _ => ?_
    · exact h.iunlockput.bind fun _ => h.linkBad
    · refine (h.dirlink _ _).bind fun _ => .ite (fun _ => ?_) fun _ => ?_
      · exact h.iunlockput.bind fun _ => h.iput.bind fun _ => h.ended 0
      · exact h.iunlockput.bind fun _ => h.linkBad

theorem sysLink (hcwd : Has who.cwd H) (old new : Option Str) :
    Keeps (D H L false) (sysLink sb who old new) Any := by
  match old, new with
  | none, _ => exact .ret
  | some _, none => exact .ret
  | some old, some new =>
    refine (h.linkFrom hcwd old new).bind fun r => ?_
    match r with
    | none => exact .ret
    | some (ip, r) => exact h.linkTo

theorem emptyDirFrom : ∀ fuel off : ℕ, Keeps (D H L true) (emptyDirFrom sb k fuel off) Any
  | 0, _ => .ret
  | fuel + 1, off => by
    refine keeps_inode.bind fun _ => .ite (fun _ => .ret) fun _ => (h.readDirent off _).bind fun de => ?_
    exact .ite (fun _ => .ret) fun _ => emptyDirFrom fuel (off + 16)

theorem dirBusy (type : Int16) : Keeps (D H L true) (dirBusy sb k type) Any := by
  refine .ite (fun _ => ?_) fun _ => .ret
  exact (keeps_inode.bind fun _ => h.emptyDirFrom _ _).bind fun _ => .ret

theorem unlinkEntry {ip : Slot} (off : ℕ) :
    Triple (D (ip ::ₘ dp ::ₘ H) (ip ::ₘ dp ::ₘ L) true) (unlinkEntry sb dp ip off)
    (fun _ => D H L false) Any := by
  rw [cons_swap ip dp, cons_swap ip dp]
  refine (h.writei _ _).bind fun r => .ite (fun _ => .stop trivial) fun _ => keeps_inode.bind fun _ => ?_
  refine (Keeps.when fun _ => h.addNlink _).bind fun _ => h.iunlockput.bind fun _ => ?_
  exact (h.addNlink _).bind fun _ => h.iunlockput.bind fun _ => h.ended 0

theorem sysUnlink (hcwd : Has who.cwd H) (path : Option Str) :
    Keeps (D H L false) (sysUnlink sb who path) Any := by
  cases path with
  | none => exact .ret
  | some path =>
    refine h.beginOp.bind fun _ => (h.namex hcwd _ true).bind fun r => ?_
    match r with
    | none => exact h.ended _
    | some (dp, name) =>
      refine h.ilock.bind fun _ => keeps_inode.bind fun _ => .ite (fun _ => h.failed) fun _ => ?_
      refine .ite (fun _ => h.failed) fun _ => (h.dirlookup _).bind fun r => ?_
      match r with
      | none => exact h.failed
      | some (ip, off) =>
        refine h.ilock.bind fun _ => keeps_inode.bind fun _ => .ite (fun _ => .stop trivial) fun _ => ?_
        refine (h.dirBusy _).bind fun _ => .ite (fun _ => ?_) fun _ => h.unlinkEntry off
        exact h.iunlockput.bind fun _ => h.failed

theorem createNew (name : Str) (type major minor : Int16) :
    Triple (D (dp ::ₘ H) (dp ::ₘ L) true) (createNew sb who dp name type major minor)
    (fun ip => D (ip ::ₘ H) (ip ::ₘ L) true) Any := by
  refine keeps_inode.bind fun _ => (h.ialloc _ _).bind fun ip => h.ilock.bind fun _ =>
    (h.modD _).bind fun _ => ?_
  refine h.iupdate.bind fun _ => keeps_inode.bind fun _ => (Keeps.when fun _ => ?_).bind fun _ => ?_
  · exact (h.addNlink _).bind fun _ => h.linkDots _ _
  · refine (h.dirlink _ _).bind fun _ => .ite (fun _ => ?_) fun _ => .stop trivial
    rw [cons_swap ip dp, cons_swap ip dp]
    exact h.iunlockput.bind fun _ => .done fun _ h => h

/-- `create` returns its inode locked. -/
theorem create (hcwd : Has who.cwd H) (path : Str) (type major minor : Int16) :
    Triple (D H L true) (create sb who path type major minor)
    (fun r => D (taken H r) (taken L r) true) Any := by
  refine (h.namex hcwd path true).bind fun r => ?_
  match r with
  | none => exact .done fun _ h => h
  | some (dp, name) =>
    refine h.ilock.bind fun _ => (h.dirlookup _).bind fun r => ?_
    match r with
    | some (ip, off) =>
      rw [taking, taking, cons_swap]
      refine h.iunlockput.bind fun _ => h.ilock.bind fun _ => keeps_inode.bind fun _ => ?_
      exact .ite (fun _ => h.dropped rfl) fun _ => .ite (fun _ => .done fun _ h => h) fun _ =>
        h.dropped rfl
    | none =>
      refine keeps_inode.bind fun _ => .ite (fun _ => h.dropped rfl) fun _ => ?_
      exact (h.createNew _ _ _ _).bind fun ip => .done fun _ h => h

theorem created (r : Option Slot) : Triple (D (taken H r) (taken L r) true) (created sb r)
    (fun _ => D H L false) Any := by
  cases r with
  | none => exact h.ended _
  | some ip => exact h.iunlockput.bind fun _ => h.ended 0

theorem sysMkdir (hcwd : Has who.cwd H) (path : Option Str) :
    Keeps (D H L false) (sysMkdir sb who path) Any := by
  refine h.beginOp.bind fun _ => ?_
  cases path with
  | none => exact h.ended _
  | some path => exact (h.create hcwd _ _ _ _).bind fun r => h.created r

theorem sysMknod (hcwd : Has who.cwd H) (path : Option Str) (major minor : Option Int32) :
    Keeps (D H L false) (sysMknod sb who path major minor) Any := by
  refine h.beginOp.bind fun _ => ?_
  split
  · exact (h.create hcwd _ _ _ _).bind fun r => h.created r
  · exact h.ended _

theorem unlocked (r : ℤ) : Triple (D H (k ::ₘ L) true) (unlocked k r) (fun _ => D H L false) Any :=
  h.iunlock.bind fun _ => h.ended r

/-- `chmod` keeps a reference to what the path names. -/
theorem chmodInode (mode : UInt32) : Triple (D (k ::ₘ H) L true) (chmodInode sb who k mode)
    (fun _ => D (k ::ₘ H) L false) Any := by
  refine h.ilock.bind fun _ => keeps_inode.bind fun _ => .ite (fun _ => h.unlocked _) fun _ => ?_
  refine .ite (fun _ => h.unlocked _) fun _ => (h.modD _).bind fun _ => ?_
  exact h.iupdate.bind fun _ => h.unlocked 0

end Steps

/-! ### Counts from any start -/

/-- An event that the bracketing allows. -/
theorem Disc.event (h : Disc c H L b s) {s' : Fs} {e : Event} {b' : Bool}
    (hc : s'.icache = s.icache) (ht : s'.trace = s.trace ++ [e]) (he : bracket b [e] = some b') :
    Disc c H L b' s' := by
  obtain ⟨w, hw, hb⟩ := h.trace
  refine ⟨hc ▸ h.slot, h.nodup, w ++ [e], ?_, ?_⟩
  · rw [ht, hw, List.append_assoc]
  · rw [bracket_append, hb]
    exact he

/-- One more reference to an inode in use. -/
theorem Disc.take (h : Disc c H L b s) :
    Disc c (k ::ₘ H) L b (s.setInode k { s.icache k with ref := (s.icache k).ref + 1 }) := by
  refine ⟨Fs.forall_setInode (P := SlotDisc c (k ::ₘ H) L) ?_
    fun j hj => (SlotDisc.cons_ref hj).mpr (h.slot j), h.nodup, h.trace⟩
  obtain ⟨h1, h2, h3⟩ := h.slot k
  refine ⟨?_, h2, h3⟩
  rw [count_cons_self, h1]
  push_cast
  ring

/-- A free entry is recycled: no reference that was there before is to it. -/
theorem Disc.recycle (h : Disc c H L b s) (h0 : (s.icache k).ref = 0) (dev inum : ℕ) :
    Disc c (k ::ₘ H) L b (s.setInode k
      { s.icache k with dev := dev, inum := inum, ref := 1, valid := false }) := by
  refine ⟨Fs.forall_setInode (P := SlotDisc c (k ::ₘ H) L) ?_
    fun j hj => (SlotDisc.cons_ref hj).mpr (h.slot j), h.nodup, h.trace⟩
  obtain ⟨h1, -, h3⟩ := h.slot k
  rw [h0] at h1
  refine ⟨?_, fun hp => ?_, h3⟩
  · rw [count_cons_self]
    push_cast
    omega
  · omega

theorem disc_modInode {f : Inode → Inode} (hf : ∀ ip, (f ip).ref = ip.ref ∧ (f ip).lock = ip.lock ∧
    (f ip).dev = ip.dev ∧ (f ip).inum = ip.inum) : Keeps (Disc c H L b) (modInode k f) Any :=
    fun s h => by
  refine .modify ⟨Fs.forall_setInode (P := SlotDisc c H L) ?_ fun j _ => h.slot j, h.nodup,
    h.trace⟩
  obtain ⟨h1, h2, h3, h4⟩ := hf (s.icache k)
  obtain ⟨g1, g2, g3⟩ := h.slot k
  exact ⟨h1.trans g1, fun hp => by rw [h3, h4, g2 hp], h2.trans g3⟩

theorem disc_iget (dev inum : ℕ) : Triple (Disc c H L b) (iget dev inum)
    (fun k => Disc c (k ::ₘ H) L b) Any := fun s h =>
  iget_got.post fun k s' hgot => by
    obtain ⟨-, -, -, rfl⟩ | ⟨h0, -, rfl⟩ := hgot
    · exact h.take
    · exact h.recycle h0 dev inum

theorem disc_unref : Triple (Disc c (k ::ₘ H) L b) (modInode k fun ip => { ip with ref := ip.ref - 1 })
    (fun _ => Disc c H L b) Any := fun s h => by
  refine .modify ⟨Fs.forall_setInode (P := SlotDisc c H L) ?_
    fun j hj => (SlotDisc.cons_ref hj).mp (h.slot j), h.nodup, h.trace⟩
  obtain ⟨h1, h2, h3⟩ := h.slot k
  refine ⟨?_, h2, h3⟩
  simp only [h1, count_cons_self]
  push_cast
  ring

theorem disc_acquiresleep : Triple (Disc c H L b) (acquiresleep k)
    (fun _ => Disc c H (k ::ₘ L) b) Any := fun s h => by
  refine .get_bind (.ite (fun _ => .stop trivial) fun hl => ?_)
  obtain ⟨h1, h2, h3⟩ := h.slot k
  rw [Bool.not_eq_true] at hl
  rw [hl, eq_comm, decide_eq_false_iff_not] at h3
  exact .modify ⟨Fs.forall_setInode (P := SlotDisc c H (k ::ₘ L)) ⟨h1, h2, by simp⟩
    fun j hj => (SlotDisc.cons_lock hj).mpr (h.slot j), Multiset.nodup_cons.mpr ⟨h3, h.nodup⟩, h.trace⟩

theorem disc_releasesleep : Triple (Disc c H (k ::ₘ L) b) (releasesleep k)
    (fun _ => Disc c H L b) Any := fun s h => by
  obtain ⟨hnot, hnd⟩ := Multiset.nodup_cons.mp h.nodup
  obtain ⟨h1, h2, -⟩ := h.slot k
  exact .modify ⟨Fs.forall_setInode (P := SlotDisc c H L) ⟨h1, h2, by simp [hnot]⟩
    fun j hj => (SlotDisc.cons_lock hj).mp (h.slot j), hnd, h.trace⟩

theorem disc_held : Triple (Disc c H L b) (iunlock k) (fun _ _ => k ∈ L) Any := fun s h => by
  refine .get_bind (.ite (fun _ => .stop trivial) fun hn => .modify ?_)
  by_contra hk
  have hl : (s.icache k).lock = false := by rw [(h.slot k).lock]; simp [hk]
  exact hn (.inl (by simp [hl]))

theorem disc_ttyRead (n : ℕ) : Keeps (Disc c H L b) (ttyRead n) Any := fun s h => by
  refine .get_bind (.ite (fun _ => .pure h) fun _ => ?_)
  split
  · exact .stop trivial
  · exact .modify_bind (.pure ⟨h.slot, h.nodup, h.trace⟩)

theorem disc_beginOp : Triple (Disc c H L false) beginOp (fun _ => Disc c H L true) Any := fun _ h =>
  .get_bind (.ite (fun _ => .stop trivial) fun _ => .modify (h.event rfl rfl rfl))

theorem disc_endOp : Triple (Disc c H L true) endOp (fun _ => Disc c H L false) Any := fun _ h =>
  .modify (h.event rfl rfl rfl)

theorem disc_idup : Triple (Disc c H L b) (idup k) (fun j s => j = k ∧ Disc c (k ::ₘ H) L b s)
    Any := fun _ h =>
  (sat_incRef fun _ => trivial).bind fun _ _ heq => .pure ⟨rfl, heq ▸ h.take⟩

theorem disc_steps (sb : Superblock) : Steps sb (Disc c) fun _ _ => True where
  has := id
  modInode := disc_modInode
  beginOp := disc_beginOp
  endOp := disc_endOp
  logWrite := fun _ _ _ h => .get_bind (.ite (fun _ => .stop trivial) fun _ =>
    .ite (fun _ => .stop trivial)
    fun _ => .modify (h.event rfl rfl rfl))
  free := fun _ _ h => .modify (h.event rfl rfl rfl)
  iget := disc_iget
  idup := fun _ => disc_idup
  unref := disc_unref
  acquiresleep := disc_acquiresleep
  releasesleep := disc_releasesleep
  held := disc_held
  ttyRead := disc_ttyRead

end

end Xv6
