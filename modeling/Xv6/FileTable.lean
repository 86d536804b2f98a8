/-
# Open files

The file table of file.c and the descriptors of the processes: `open`, `close`, `dup` and `pipe`,
and what `fork`, `exit` and `wait` do with files. Any number of processes call them. What a call
does with `ftable.lock` or the lock of a pipe held is one step, and so is each write to a
descriptor; `State.todo` has the steps that a process is still to make. Whether `open` finds the
inode and whether there is memory comes with the call. The inode, the offset and the bytes in a pipe
are not modelled. A pipe is a number, and counts how often its page is freed.

A reference is a descriptor, or it is in the hands of a call that is not finished; two calls have it
the other way around: `dup` takes the descriptor first, and `exit` gives the reference back first
(`Op.refs`).
-/
import Xv6.Lib.Machine
import Xv6.Param

namespace Xv6.Files

open Function (update update_apply update_self update_of_ne)
open List (map_cons sum_cons map_nil sum_nil find?_some)

inductive FileType where
  | FD_NONE
  | FD_PIPE
  | FD_INODE
  deriving DecidableEq

/-- `struct file`, without its inode and offset. -/
structure File where
  type : FileType
  ref : ℕ
  readable : Bool
  writable : Bool
  pipe : ℕ
  deriving DecidableEq

/-- The flags of a `struct pipe`, and how often its page was given to `kfree`. -/
structure Pipe where
  readopen : Bool
  writeopen : Bool
  frees : ℕ
  deriving DecidableEq

/-- `p->readopen` or `p->writeopen` -/
def Pipe.open_ (x : Pipe) (writable : Bool) : Bool := if writable then x.writeopen else x.readopen

inductive Life where
  | UNUSED
  | EMBRYO
  | live
  | ZOMBIE
  deriving DecidableEq

/-- The steps that a call is still to make. -/
inductive Op (P : Type) (nfile nofile : ℕ) where
  | filedup (f : Fin nfile)
  | fileclose (f : Fin nfile)
  | pipeclose (id : ℕ) (writable : Bool)
  /-- `sys_open`: `fdalloc(f)` -/
  | openFd (f : Fin nfile) (readable writable : Bool)
  /-- `sys_open`: `f->type = FD_INODE` and the flags -/
  | openSet (f : Fin nfile) (readable writable : Bool)
  /-- `pipealloc`: the second `filealloc()` -/
  | pipeFile (f0 : Fin nfile)
  /-- `pipealloc`: `kalloc()`, and the rest -/
  | pipePage (f0 f1 : Fin nfile)
  /-- `sys_pipe`: `fdalloc(rf)` -/
  | pipeFd0 (rf wf : Fin nfile)
  /-- `sys_pipe`: `fdalloc(wf)` -/
  | pipeFd1 (fd0 : Fin nofile) (rf wf : Fin nfile)
  /-- `fork`: `filedup(curproc->ofile[fd])` if there is one -/
  | copyFd (np : P) (fd : Fin nofile)
  /-- `fork`: `np->ofile[fd] = f` -/
  | giveFd (np : P) (fd : Fin nofile) (f : Fin nfile)
  /-- `fork`: `np->state = RUNNABLE` -/
  | runChild (np : P)
  /-- `exit`: `fileclose(curproc->ofile[fd])` if there is one -/
  | exitFd (fd : Fin nofile)
  /-- `exit`: `curproc->ofile[fd] = 0` -/
  | clearFd (fd : Fin nofile) (f : Fin nfile)
  /-- `exit`: `curproc->state = ZOMBIE` -/
  | zombie
  deriving DecidableEq

structure State (P : Type) (nfile nofile : ℕ) where
  file : Fin nfile → File
  ofile : P → Fin nofile → Option (Fin nfile)
  life : P → Life
  todo : P → List (Op P nfile nofile)
  pipe : ℕ → Pipe
  /-- How many pipes there have been. -/
  npipe : ℕ
  pid : P → Int32
  nextpid : Int32
  initproc : P
  /-- How often `allocproc` has found a slot for `fork` or `fork2`. -/
  forks : ℕ

inductive Act (P : Type) (nofile : ℕ) where
  /-- `found` says whether there is an inode that may be opened. -/
  | open_ (p : P) (found readable writable : Bool)
  | close (p : P) (fd : Fin nofile)
  | dup (p : P) (fd : Fin nofile)
  | pipe (p : P)
  /-- `fork` or `fork2` into a slot; `memory` says whether there is enough for the kernel stack and
  the pages. -/
  | fork (p np : P) (memory : Bool)
  | exit (p : P)
  /-- `wait` finds a zombie. -/
  | reap (np : P)
  /-- The next step of a call; `memory` is the result of `kalloc`. -/
  | run (p : P) (memory : Bool)

section

variable {P : Type} [DecidableEq P] {nfile nofile : ℕ}

namespace State

def setFile (s : State P nfile nofile) (f : Fin nfile) (x : File) : State P nfile nofile :=
  { s with file := update s.file f x }

def setFd (s : State P nfile nofile) (p : P) (fd : Fin nofile) (x : Option (Fin nfile)) :
    State P nfile nofile :=
  { s with ofile := update s.ofile p (update (s.ofile p) fd x) }

def setLife (s : State P nfile nofile) (p : P) (x : Life) : State P nfile nofile :=
  { s with life := update s.life p x }

def will (s : State P nfile nofile) (p : P) (l : List (Op P nfile nofile)) : State P nfile nofile :=
  { s with todo := update s.todo p l }

/-- The file that `filealloc` takes. -/
def freeFile (s : State P nfile nofile) : Option (Fin nfile) := (List.finRange nfile).find? fun f =>
    (s.file f).ref = 0

/-- `filealloc`, with the file it takes. -/
def filealloc (s : State P nfile nofile) (f : Fin nfile) : State P nfile nofile :=
  s.setFile f { s.file f with ref := 1 }

/-- The descriptor that `fdalloc` takes. -/
def freeFd (s : State P nfile nofile) (p : P) : Option (Fin nofile) :=
  (List.finRange nofile).find? fun fd => s.ofile p fd = none

/-- `fileclose`; `rest` is what follows. -/
def fileclose (s : State P nfile nofile) (p : P) (f : Fin nfile) (rest : List (Op P nfile nofile)) :
    Outcome (State P nfile nofile) :=
  let x := s.file f
  if x.ref < 1 then .panic "fileclose"
  else if 0 < x.ref - 1 then .next ((s.setFile f { x with ref := x.ref - 1 }).will p rest)
  else
    .next ((s.setFile f { x with ref := 0, type := .FD_NONE }).will p
      (if x.type = .FD_PIPE then .pipeclose x.pipe x.writable :: rest else rest))

/-- The fields that `pipealloc` sets. -/
def setPipe (s : State P nfile nofile) (f0 f1 : Fin nfile) : State P nfile nofile :=
  let s1 :=
    s.setFile f0
      { s.file f0 with type := .FD_PIPE, readable := true, writable := false, pipe := s.npipe }
  let s2 :=
    s1.setFile f1
      { s1.file f1 with type := .FD_PIPE, readable := false, writable := true, pipe := s.npipe }
  { s2 with pipe := update s.pipe s.npipe ⟨true, true, 0⟩, npipe := s.npipe + 1 }

def pipeclose (s : State P nfile nofile) (id : ℕ) (writable : Bool) : State P nfile nofile :=
  let x := s.pipe id
  let y : Pipe := if writable then { x with writeopen := false } else { x with readopen := false }
  let z := if y.readopen = false ∧ y.writeopen = false then { y with frees := y.frees + 1 } else y
  { s with pipe := update s.pipe id z }

/-- `allocproc` finds the slot. -/
def allocproc (s : State P nfile nofile) (np : P) : State P nfile nofile :=
  { s with pid := update s.pid np s.nextpid, nextpid := s.nextpid + 1, forks := s.forks + 1 }

/-- The loop of `exit` finds `q`. -/
def Same (s : State P nfile nofile) (p q : P) : Prop := s.pid q = s.pid p ∧ q ≠ p

instance (s : State P nfile nofile) (p q : P) : Decidable (s.Same p q) :=
    inferInstanceAs (Decidable (_ ∧ _))

/-- The loop of `exit` over the slots with the pid of `p`. A process that it finds does nothing any
more. -/
def teardown (s : State P nfile nofile) (p : P) : State P nfile nofile :=
  { s with
    life := fun q => if s.Same p q then .UNUSED else s.life q
    pid := fun q => if s.Same p q then 0 else s.pid q
    todo := fun q => if s.Same p q then [] else s.todo q }

end State

/-- A step of a call; `rest` is what follows. -/
def exec (s : State P nfile nofile) (p : P) (memory : Bool) (rest : List (Op P nfile nofile)) :
    Op P nfile nofile → Outcome (State P nfile nofile)
  | .filedup f =>
    if (s.file f).ref < 1 then .panic "filedup"
    else .next ((s.setFile f { s.file f with ref := (s.file f).ref + 1 }).will p rest)
  | .fileclose f => s.fileclose p f rest
  | .pipeclose id writable => .next ((s.pipeclose id writable).will p rest)
  | .openFd f r w =>
    match s.freeFd p with
    | none => .next (s.will p (.fileclose f :: rest))
    | some fd => .next ((s.setFd p fd (some f)).will p (.openSet f r w :: rest))
  | .openSet f r w =>
    .next ((s.setFile f { s.file f with type := .FD_INODE, readable := r, writable := w }).will p rest)
  | .pipeFile f0 =>
    match s.freeFile with
    | none => .next (s.will p (.fileclose f0 :: rest))
    | some f1 => .next ((s.filealloc f1).will p (.pipePage f0 f1 :: rest))
  | .pipePage f0 f1 =>
    if memory then .next ((s.setPipe f0 f1).will p (.pipeFd0 f0 f1 :: rest))
    else .next (s.will p (.fileclose f0 :: .fileclose f1 :: rest))
  | .pipeFd0 rf wf =>
    match s.freeFd p with
    | none => .next (s.will p (.fileclose rf :: .fileclose wf :: rest))
    | some fd => .next ((s.setFd p fd (some rf)).will p (.pipeFd1 fd rf wf :: rest))
  | .pipeFd1 fd0 rf wf =>
    match s.freeFd p with
    | none => .next ((s.setFd p fd0 none).will p (.fileclose rf :: .fileclose wf :: rest))
    | some fd => .next ((s.setFd p fd (some wf)).will p rest)
  | .copyFd np fd =>
    match s.ofile p fd with
    | none => .next (s.will p rest)
    | some f =>
      if (s.file f).ref < 1 then .panic "filedup"
      else .next ((s.setFile f { s.file f with ref := (s.file f).ref + 1 }).will p
        (.giveFd np fd f :: rest))
  | .giveFd np fd f => .next ((s.setFd np fd (some f)).will p rest)
  | .runChild np => .next ((s.setLife np .live).will p rest)
  | .exitFd fd =>
    match s.ofile p fd with
    | none => .next (s.will p rest)
    | some f => s.fileclose p f (.clearFd fd f :: rest)
  | .clearFd fd _ => .next ((s.setFd p fd none).will p rest)
  | .zombie => .next ((s.setLife p .ZOMBIE).will p rest)

/-- What `fork` has to do with files. -/
def forkWork (np : P) : List (Op P nfile nofile) := (List.finRange nofile).map (.copyFd np) ++
    [.runChild np]

/-- What `exit` has to do with files. -/
def exitWork : List (Op P nfile nofile) := (List.finRange nofile).map .exitFd ++ [.zombie]

/-- One step. A call begins when the process has finished its last one. -/
def step [Fintype P] (s : State P nfile nofile) : Act P nofile → Outcome (State P nfile nofile)
  | .run p memory =>
    match s.todo p with
    | [] => .blocked
    | op :: rest => exec s p memory rest op
  | .reap np =>
    if s.life np = .ZOMBIE then .next { s.setLife np
      .UNUSED with pid := update s.pid np 0 } else .blocked
  | .open_ p found r w =>
    if s.life p = .live ∧ s.todo p = [] then
      match found, s.freeFile with
      | true, some f => .next ((s.filealloc f).will p [.openFd f r w])
      | _, _ => .next s
    else .blocked
  | .close p fd =>
    if s.life p = .live ∧ s.todo p = [] then
      match s.ofile p fd with
      | none => .next s
      | some f => .next ((s.setFd p fd none).will p [.fileclose f])
    else .blocked
  | .dup p fd =>
    if s.life p = .live ∧ s.todo p = [] then
      match s.ofile p fd, s.freeFd p with
      | some f, some fd' => .next ((s.setFd p fd' (some f)).will p [.filedup f])
      | _, _ => .next s
    else .blocked
  | .pipe p =>
    if s.life p = .live ∧ s.todo p = [] then
      match s.freeFile with
      | none => .next s
      | some f0 => .next ((s.filealloc f0).will p [.pipeFile f0])
    else .blocked
  | .fork p np memory =>
    if s.life p = .live ∧ s.todo p = [] ∧ s.life np = .UNUSED then
      if memory then .next (((s.allocproc np).setLife np .EMBRYO).will p (forkWork np))
      -- the slot is free again, and keeps its pid
      else .next (s.allocproc np)
    else .blocked
  | .exit p =>
    if s.life p = .live ∧ s.todo p = [] then
      if p = s.initproc then .panic "init exiting"
      -- a free slot has no kernel stack
      else if ∃ q, s.Same p q ∧ s.life q = .UNUSED then .panic "kfree"
      else .next ((s.teardown p).will p exitWork)
    else .blocked

/-- One process, and no open files. -/
def init (p : P) : State P nfile nofile where
  file := fun _ => ⟨.FD_NONE, 0, false, false, 0⟩
  ofile := fun _ _ => none
  life := fun q => if q = p then .live else .UNUSED
  todo := fun _ => []
  pipe := fun _ => ⟨false, false, 0⟩
  npipe := 0
  pid := fun q => if q = p then 1 else 0
  nextpid := 2
  initproc := p
  forks := 0

end

/-! ### Counting references -/

section

variable {P : Type} {nfile nofile : ℕ}

/-- The references to `f` that a step to be made stands for. -/
def Op.refs (f : Fin nfile) : Op P nfile nofile → ℤ
  | .fileclose g | .openFd g _ _ | .pipeFile g | .giveFd _ _ g => if g = f then 1 else 0
  | .pipePage g h | .pipeFd0 g h => (if g = f then 1 else 0) + if h = f then 1 else 0
  | .pipeFd1 _ _ h => if h = f then 1 else 0
  | .filedup g | .clearFd _ g => if g = f then -1 else 0
  | _ => 0

/-- The files that a call has taken and that have no type yet. -/
def Op.news (f : Fin nfile) : Op P nfile nofile → ℤ
  | .openFd g _ _ | .openSet g _ _ | .pipeFile g => if g = f then 1 else 0
  | .pipePage g h => (if g = f then 1 else 0) + if h = f then 1 else 0
  | _ => 0

/-- The rest of `exit`, between two descriptors. -/
def Calm : List (Op P nfile nofile) → Prop
  | [] => True
  | .exitFd _ :: l => Calm l
  | .zombie :: l => l = []
  | _ => False

/-- The rest of `fork`, between two descriptors. -/
def Forking : List (Op P nfile nofile) → Prop
  | [] => True
  | .copyFd .. :: l => Forking l
  | .runChild _ :: l => l = []
  | _ => False

/-- What the descriptors of a process must be like before the steps. -/
def Fits (row : Fin nofile → Option (Fin nfile)) : List (Op P nfile nofile) → Prop
  | [] => True
  | .filedup f :: l => l = [] ∧ ∃ i j, i ≠ j ∧ row i = some f ∧ row j = some f
  | .clearFd fd f :: l => row fd = some f ∧ Calm l
  | .pipeFd1 fd rf _ :: l => l = [] ∧ row fd = some rf
  | .openSet f _ _ :: l => l = [] ∧ ∃ fd, row fd = some f
  | .openFd .. :: l | .pipeFile _ :: l | .pipePage .. :: l | .pipeFd0 .. :: l | .zombie :: l => l = []
  | .exitFd _ :: l => Calm l
  | .copyFd .. :: l | .giveFd .. :: l => Forking l
  | .runChild _ :: l => l = []
  | .fileclose _ :: l | .pipeclose .. :: l => Fits row l

/-- One descriptor. -/
def points (f : Fin nfile) (x : Option (Fin nfile)) : ℤ := if x = some f then 1 else 0

/-- The references to `f` that belong to process `q`. -/
def own (s : State P nfile nofile) (q : P) (f : Fin nfile) : ℤ :=
  ∑ fd, points f (s.ofile q fd) + ((s.todo q).map (Op.refs f)).sum

theorem points_nonneg (f : Fin nfile) (x : Option (Fin nfile)) : 0 ≤ points f x := by
  unfold points
  split <;> decide

variable {row : Fin nofile → Option (Fin nfile)} {f : Fin nfile} {l : List (Op P nfile nofile)}

theorem Calm.refs (h : Calm l) : (l.map (Op.refs f)).sum = 0 ∧ (l.map (Op.news f)).sum = 0 := by
  induction l with
  | nil => exact ⟨rfl, rfl⟩
  | cons op l ih =>
    cases op with
    | exitFd fd => simpa [Op.refs, Op.news] using ih h
    | zombie =>
      obtain rfl : l = [] := h
      simp [Op.refs, Op.news]
    | _ => exact h.elim

theorem Forking.refs (h : Forking l) : (l.map (Op.refs f)).sum = 0 ∧ (l.map (Op.news f)).sum = 0 := by
  induction l with
  | nil => exact ⟨rfl, rfl⟩
  | cons op l ih =>
    cases op with
    | copyFd np fd => simpa [Op.refs, Op.news] using ih h
    | runChild np =>
      obtain rfl : l = [] := h
      simp [Op.refs, Op.news]
    | _ => exact h.elim

theorem Calm.toFits (h : Calm l) : Fits row l := by
  cases l with
  | nil => trivial
  | cons op l =>
    cases op with
    | exitFd | zombie => exact h
    | _ => exact h.elim

theorem Forking.toFits (h : Forking l) : Fits row l := by
  cases l with
  | nil => trivial
  | cons op l =>
    cases op with
    | copyFd | runChild => exact h
    | _ => exact h.elim

theorem le_sum_points {fd : Fin nofile} (h : row fd = some f) : 1 ≤ ∑ i, points f (row i) := by
  have h1 : points f (row fd) = 1 := by simp [points, h]
  exact h1 ▸ Finset.single_le_sum (fun i _ => points_nonneg f (row i)) (Finset.mem_univ fd)

theorem two_le_sum_points {i j : Fin nofile} (hne : i ≠ j) (hi : row i = some f) (hj : row j = some f) :
    2 ≤ ∑ i, points f (row i) := by
  have h1 : points f (row i) = 1 := by simp [points, hi]
  have h2 : points f (row j) = 1 := by simp [points, hj]
  have hsum : ∑ k ∈ {i, j}, points f (row k) = 2 := by
    rw [Finset.sum_pair hne, h1, h2]
    rfl
  exact hsum ▸ Finset.sum_le_sum_of_subset_of_nonneg (Finset.subset_univ _) fun k _ _ =>
    points_nonneg f (row k)

/-- Nobody owes more references than it has descriptors, and a call owns the files it has taken. -/
theorem Fits.le (h : Fits row l) :
    (l.map (Op.news f)).sum ≤ ∑ fd, points f (row fd) + (l.map (Op.refs f)).sum := by
  have hrow : 0 ≤ ∑ fd, points f (row fd) := Finset.sum_nonneg fun fd _ => points_nonneg f (row fd)
  induction l with
  | nil => simpa using hrow
  | cons op l ih =>
    rw [map_cons, sum_cons, map_cons, sum_cons]
    cases op with
    | filedup g =>
      obtain ⟨rfl, i, j, hne, hi, hj⟩ := h
      have : g = f → 2 ≤ ∑ fd, points f (row fd) := fun hg => hg ▸ two_le_sum_points hne hi hj
      simp only [Op.refs, Op.news, map_nil, sum_nil]
      omega
    | clearFd fd g =>
      obtain ⟨hfd, hcalm⟩ := h
      have : g = f → 1 ≤ ∑ fd, points f (row fd) := fun hg => hg ▸ le_sum_points hfd
      rw [hcalm.refs.1, hcalm.refs.2]
      simp only [Op.refs, Op.news]
      omega
    | pipeFd1 fd rf wf =>
      obtain ⟨rfl, -⟩ := h
      simp only [Op.refs, Op.news, map_nil, sum_nil]
      omega
    | openSet g r w =>
      obtain ⟨rfl, fd, hfd⟩ := h
      have : g = f → 1 ≤ ∑ fd, points f (row fd) := fun hg => hg ▸ le_sum_points hfd
      simp only [Op.refs, Op.news, map_nil, sum_nil]
      omega
    | exitFd fd =>
      have hcalm : Calm l := h
      simpa [hcalm.refs, Op.refs, Op.news] using hrow
    | copyFd | giveFd =>
      have hfork : Forking l := h
      rw [hfork.refs.1, hfork.refs.2]
      simp only [Op.refs, Op.news]
      omega
    | openFd g r w | pipeFile g | pipePage g g' | pipeFd0 g g' | zombie | runChild =>
      obtain rfl : l = [] := h
      simp only [Op.refs, Op.news, map_nil, sum_nil]
      omega
    | fileclose | pipeclose =>
      have := ih h
      simp only [Op.refs, Op.news]
      omega

/-- The files without a type that process `q` has taken. -/
def news (s : State P nfile nofile) (q : P) (f : Fin nfile) : ℤ := ((s.todo q).map (Op.news f)).sum

theorem news_nonneg (s : State P nfile nofile) (q : P) (f : Fin nfile) : 0 ≤ news s q f := by
  refine List.sum_nonneg fun x hx => ?_
  obtain ⟨op, -, rfl⟩ := List.mem_map.mp hx
  cases op <;> simp only [Op.news] <;> omega

end

section

variable {P : Type} [Fintype P] {nfile nofile : ℕ} {s s' : State P nfile nofile} {p q : P} {f : Fin nfile}

structure Refs (s : State P nfile nofile) : Prop where
  count : ∀ f, ((s.file f).ref : ℤ) = ∑ q, own s q f
  fits : ∀ q, Fits (s.ofile q) (s.todo q)
  unused : ∀ f, (s.file f).ref = 0 → (s.file f).type = .FD_NONE
  fresh : ∀ q f, 0 < news s q f → (s.file f).ref = 1 ∧ (s.file f).type = .FD_NONE

theorem Refs.news_le (h : Refs s) (q : P) (f : Fin nfile) : news s q f ≤ own s q f := (h.fits q).le

theorem Refs.own_nonneg (h : Refs s) (q : P) (f : Fin nfile) : 0 ≤ own s q f :=
  (news_nonneg s q f).trans (h.news_le q f)

theorem Refs.own_le (h : Refs s) (q : P) (f : Fin nfile) : own s q f ≤ (s.file f).ref := by
  rw [h.count f]
  exact Finset.single_le_sum (fun r _ => h.own_nonneg r f) (Finset.mem_univ q)

theorem Refs.own_add_le [DecidableEq P] (h : Refs s) (hne : p ≠ q) (f : Fin nfile) :
    own s p f + own s q f ≤ (s.file f).ref := by
  have hpair : ∑ r ∈ {p, q}, own s r f = own s p f + own s q f := Finset.sum_pair hne
  rw [h.count f, ← hpair]
  exact Finset.sum_le_sum_of_subset_of_nonneg (Finset.subset_univ _) fun r _ _ => h.own_nonneg r f

/-- A step of `p` on its own descriptors. -/
theorem Refs.move [DecidableEq P] (h : Refs s)
    (hother : ∀ q ≠ p, s'.ofile q = s.ofile q ∧ s'.todo q = s.todo q)
    (hown : ∀ f, own s' p f - own s p f = (s'.file f).ref - (s.file f).ref)
    (hfits : Fits (s'.ofile p) (s'.todo p)) (htouch : ∀ f, s'.file f ≠ s.file f → 1 ≤ own s p f ∨
      (s.file f).ref = 0)
    (hunused : ∀ f, s'.file f ≠ s.file f → (s'.file f).ref = 0 → (s'.file f).type = .FD_NONE)
    (hfresh : ∀ f, 0 < news s' p f → (s'.file f).ref = 1 ∧ (s'.file f).type = .FD_NONE) : Refs s' where
  count f := by
    have hsum : ∑ q, (own s' q f - own s q f) = own s' p f - own s p f := by
      refine Fintype.sum_eq_single p fun q hq => ?_
      rw [own, own, (hother q hq).1, (hother q hq).2, sub_self]
    rw [Finset.sum_sub_distrib, ← h.count f, hown f] at hsum
    omega
  fits q := by
    by_cases hq : q = p
    · exact hq ▸ hfits
    · rw [(hother q hq).1, (hother q hq).2]
      exact h.fits q
  unused f hf := by
    by_cases hsame : s'.file f = s.file f
    · rw [hsame] at hf ⊢
      exact h.unused f hf
    · exact hunused f hsame hf
  fresh q f hq := by
    by_cases hqp : q = p
    · exact hfresh f (hqp ▸ hq)
    · rw [news, (hother q hqp).2] at hq
      obtain ⟨href, htype⟩ := h.fresh q f hq
      by_cases hsame : s'.file f = s.file f
      · rw [hsame]
        exact ⟨href, htype⟩
      · -- the file has one reference, which is that of `q`
        have := h.own_add_le (Ne.symm hqp) f
        have := h.news_le q f
        have hq' : 0 < news s q f := hq
        rcases htouch f hsame with h1 | h0 <;> omega

variable [DecidableEq P] {l l' rest : List (Op P nfile nofile)} {memory : Bool}

section

variable (h : Refs s)
include h

/-- A step on the file table. -/
theorem Refs.set (htodo : s.todo p = l) (g : Fin nfile) (x : File)
    (hrefs : ∀ f, (l'.map (Op.refs f)).sum - (l.map (Op.refs f)).sum =
      if f = g then (x.ref : ℤ) - (s.file g).ref else 0)
    (hfits : Fits (s.ofile p) l') (htouch : 1 ≤ own s p g ∨ (s.file g).ref = 0)
    (hunused : x.ref = 0 → x.type = .FD_NONE) (hfresh : ∀ f, 0 < (l'.map (Op.news f)).sum → f = g ∧
      x.ref = 1 ∧ x.type = .FD_NONE ∨ f ≠ g ∧ 0 < (l.map (Op.news f)).sum) :
      Refs ((s.setFile g x).will p l') := by
  have hfile : ∀ f, ((s.setFile g x).will p l').file f = if f = g then x else s.file f := fun f =>
    update_apply ..
  have hchange : ∀ f, ((s.setFile g x).will p l').file f ≠ s.file f → f = g := fun f hf => by
    by_contra hne
    simp [hfile, hne] at hf
  have htodo' : ((s.setFile g x).will p l').todo p = l' := update_self ..
  refine h.move (p := p) (fun q hq => ⟨rfl, update_of_ne hq _ _⟩) (fun f => ?_)
    (htodo'.symm ▸ hfits) (fun f hf => ?_)
    (fun f hf => ?_) fun f hf => ?_
  · have hr := hrefs f
    rw [own, own, htodo, htodo', hfile]
    show _ + _ - (_ + _) = _
    have hrow : ((s.setFile g x).will p l').ofile p = s.ofile p := rfl
    rw [hrow]
    split_ifs at hr with hfg
    · subst hfg
      rw [if_pos rfl]
      omega
    · rw [if_neg hfg]
      omega
  · exact hchange f hf ▸ htouch
  · rw [hfile, if_pos (hchange f hf)]
    exact hunused
  · rw [news, htodo'] at hf
    rw [hfile]
    rcases hfresh f hf with ⟨rfl, hx⟩ | ⟨hne, hold⟩
    · rw [if_pos rfl]
      exact hx
    · rw [if_neg hne]
      exact h.fresh p f (by rwa [news, htodo])

/-- A step on the descriptors of the process. -/
theorem Refs.fd (htodo : s.todo p = l) (fd : Fin nofile) (y : Option (Fin nfile))
    (hrefs : ∀ f, points f y - points f (s.ofile p fd) + (l'.map (Op.refs f)).sum =
      (l.map (Op.refs f)).sum)
    (hfits : Fits (update (s.ofile p) fd y) l')
    (hfresh : ∀ f, 0 < (l'.map (Op.news f)).sum → 0 < (l.map (Op.news f)).sum) :
    Refs ((s.setFd p fd y).will p l') := by
  have htodo' : ((s.setFd p fd y).will p l').todo p = l' := update_self ..
  have hrow : ((s.setFd p fd y).will p l').ofile p = update (s.ofile p) fd y := update_self ..
  refine h.move (p := p) (fun q hq => ⟨update_of_ne hq _ _, update_of_ne hq _ _⟩) (fun f => ?_)
    (htodo'.symm ▸ hrow.symm ▸ hfits) (fun f hf => absurd rfl hf) (fun f hf => absurd rfl hf)
      fun f hf => ?_
  · have hr := hrefs f
    rw [own, own, htodo, htodo', hrow, sum_update (points f)]
    show _ = ((s.file f).ref : ℤ) - (s.file f).ref
    omega
  · rw [news, htodo'] at hf
    exact h.fresh p f (by rw [news, htodo]; exact hfresh f hf)

theorem Refs.skip (htodo : s.todo p = l)
    (hrefs : ∀ f, (l'.map (Op.refs f)).sum = (l.map (Op.refs f)).sum) (hfits : Fits (s.ofile p) l')
    (hfresh : ∀ f, 0 < (l'.map (Op.news f)).sum → 0 < (l.map (Op.news f)).sum) : Refs (s.will p l') := by
  have htodo' : (s.will p l').todo p = l' := update_self ..
  refine h.move (p := p) (fun q hq => ⟨rfl, update_of_ne hq _ _⟩) (fun f => ?_)
    (htodo'.symm ▸ hfits) (fun f hf => absurd rfl hf) (fun f hf => absurd rfl hf) fun f hf => ?_
  · rw [own, own, htodo, htodo', hrefs]
    show _ = ((s.file f).ref : ℤ) - (s.file f).ref
    have hrow : (s.will p l').ofile p = s.ofile p := rfl
    rw [hrow]
    omega
  · rw [news, htodo'] at hf
    exact h.fresh p f (by rw [news, htodo]; exact hfresh f hf)

omit [DecidableEq P] in
theorem Refs.fits_todo (htodo : s.todo p = l) : Fits (s.ofile p) l := htodo ▸ h.fits p

theorem refs_filedup {f : Fin nfile} (htodo : s.todo p = .filedup f :: rest)
    (hs : exec s p memory rest (.filedup f) = .next s') : Refs s' := by
  obtain ⟨rfl, i, j, hne, hi, hj⟩ := h.fits_todo htodo
  have htwo := two_le_sum_points hne hi hj
  rw [exec] at hs
  split at hs <;> cases hs
  refine h.set htodo f _ (fun g => ?_) trivial (.inl ?_) (by simp) (by simp)
  · grind [Op.refs]
  · rw [own, htodo]
    grind [Op.refs]

/-- `fileclose` by a process that owns a reference; `l` gives it back. -/
theorem refs_fileclose {f : Fin nfile} (htodo : s.todo p = l) (hown : 1 ≤ own s p f)
    (hrefs : ∀ g, (rest.map (Op.refs g)).sum = (l.map (Op.refs g)).sum - if g = f then 1 else 0)
    (hnews : ∀ g, 0 < (rest.map (Op.news g)).sum → g ≠ f ∧ 0 < (l.map (Op.news g)).sum)
    (hfits : Fits (s.ofile p) rest) (hs : s.fileclose p f rest = .next s') : Refs s' := by
  rw [State.fileclose] at hs
  split at hs
  · cases hs
  · rename_i hpos
    split at hs <;> cases hs
    · rename_i hlt
      refine h.set htodo f _ (fun g => ?_) hfits (.inl hown) (fun h0 => ?_) (fun g hg => ?_)
      · rw [hrefs]
        grind
      · simp only at h0
        omega
      · exact .inr (hnews g hg)
    · rename_i hlt
      refine h.set htodo f _ (fun g => ?_) ?_ (.inl hown) (fun _ => rfl) (fun g hg => ?_)
      · have : (((if (s.file f).type = .FD_PIPE then
            Op.pipeclose (s.file f).pipe (s.file f).writable :: rest else rest).map (Op.refs g)).sum) =
            (rest.map (Op.refs g)).sum := by
          split <;> simp [Op.refs]
        rw [this, hrefs]
        grind
      · split
        · exact hfits
        · exact hfits
      · have : (((if (s.file f).type = .FD_PIPE then
            Op.pipeclose (s.file f).pipe (s.file f).writable :: rest else rest).map (Op.news g)).sum) =
            (rest.map (Op.news g)).sum := by
          split <;> simp [Op.news]
        rw [this] at hg
        exact .inr (hnews g hg)

theorem refs_openFd {f : Fin nfile} {r w : Bool} (htodo : s.todo p = .openFd f r w :: rest)
    (hs : exec s p memory rest (.openFd f r w) = .next s') : Refs s' := by
  obtain rfl : rest = [] := h.fits_todo htodo
  rw [exec] at hs
  split at hs <;> cases hs
  · exact h.skip htodo (fun g => rfl) trivial (fun g hg => by simp [Op.news] at hg)
  · rename_i fd hfd
    have hnone : s.ofile p fd = none := by simpa using find?_some hfd
    refine h.fd htodo fd _ (fun g => ?_) ⟨rfl, fd, by simp⟩ (fun g hg => hg)
    grind [Op.refs, points]

theorem refs_openSet {f : Fin nfile} {r w : Bool} (htodo : s.todo p = .openSet f r w :: rest)
    (hs : exec s p memory rest (.openSet f r w) = .next s') : Refs s' := by
  obtain ⟨rfl, fd, hfd⟩ := h.fits_todo htodo
  have hone : (s.file f).ref = 1 := (h.fresh p f (by simp [news, htodo, Op.news])).1
  rw [exec] at hs
  cases hs
  refine h.set htodo f _ (fun g => ?_) trivial (.inl ?_) (fun h0 => ?_) (by simp)
  · simp [Op.refs]
  · have := le_sum_points hfd
    simpa [own, htodo, Op.refs] using this
  · simp [hone] at h0

theorem refs_pipeFile {f : Fin nfile} (htodo : s.todo p = .pipeFile f :: rest)
    (hs : exec s p memory rest (.pipeFile f) = .next s') : Refs s' := by
  obtain rfl : rest = [] := h.fits_todo htodo
  rw [exec] at hs
  split at hs <;> cases hs
  · exact h.skip htodo (fun g => rfl) trivial (fun g hg => by simp [Op.news] at hg)
  · rename_i f1 hf1
    have hzero : (s.file f1).ref = 0 := by simpa using find?_some hf1
    have hone : (s.file f).ref = 1 := (h.fresh p f (by simp [news, htodo, Op.news])).1
    have hne : f ≠ f1 := by
      rintro rfl
      omega
    refine h.set htodo f1 _ (fun g => ?_) rfl (.inr hzero) (by simp) (fun g hg => ?_)
    · grind [Op.refs]
    · have htype := h.unused f1 hzero
      grind [Op.news]

theorem refs_pipePage {f0 f1 : Fin nfile} (htodo : s.todo p = .pipePage f0 f1 :: rest)
    (hs : exec s p memory rest (.pipePage f0 f1) = .next s') : Refs s' := by
  obtain rfl : rest = [] := h.fits_todo htodo
  have hnews : ∀ g, news s p g = (if f0 = g then 1 else 0) + if f1 = g then 1 else 0 := fun g => by
    simp [news, htodo, Op.news]
  have hone : ∀ g, g = f0 ∨ g = f1 → (s.file g).ref = 1 ∧ 1 ≤ own s p g := by
    intro g hg
    have hpos : 0 < news s p g := by
      rw [hnews]
      grind
    exact ⟨(h.fresh p g hpos).1, hpos.trans_le (h.news_le p g)⟩
  rw [exec] at hs
  split at hs <;> cases hs
  · have htodo' : ((s.setPipe f0 f1).will p [.pipeFd0 f0 f1]).todo p = [.pipeFd0 f0 f1] := update_self ..
    have href : ∀ g, (((s.setPipe f0 f1).will p [.pipeFd0 f0 f1]).file g).ref = (s.file g).ref := by
      intro g
      simp only [State.will, State.setPipe, State.setFile, update_apply]
      grind
    have hchange : ∀ g, ((s.setPipe f0 f1).will p [.pipeFd0 f0 f1]).file g ≠ s.file g → g = f0 ∨
      g = f1 := by
      intro g hg
      simp only [State.will, State.setPipe, State.setFile, update_apply] at hg
      grind
    refine h.move (p := p) (fun q hq => ⟨rfl, update_of_ne hq _ _⟩) (fun g => ?_) ?_
      (fun g hg => ?_) (fun g hg h0 => ?_)
      fun g hg => ?_
    · rw [own, own, htodo, htodo', href]
      show _ + _ - (_ + _) = _
      have hrow : ((s.setPipe f0 f1).will p [.pipeFd0 f0 f1]).ofile p = s.ofile p := rfl
      rw [hrow]
      simp [Op.refs]
    · rw [htodo']
      rfl
    · exact .inl (hone g (hchange g hg)).2
    · rw [href, (hone g (hchange g hg)).1] at h0
      cases h0
    · simp [news, htodo', Op.news] at hg
  · exact h.skip htodo (fun g => by simp [Op.refs]) trivial (fun g hg => by simp [Op.news] at hg)

theorem refs_pipeFd0 {rf wf : Fin nfile} (htodo : s.todo p = .pipeFd0 rf wf :: rest)
    (hs : exec s p memory rest (.pipeFd0 rf wf) = .next s') : Refs s' := by
  obtain rfl : rest = [] := h.fits_todo htodo
  rw [exec] at hs
  split at hs <;> cases hs
  · exact h.skip htodo (fun g => by simp [Op.refs]) trivial (fun g hg => by simp [Op.news] at hg)
  · rename_i fd hfd
    have hnone : s.ofile p fd = none := by simpa using find?_some hfd
    refine h.fd htodo fd _ (fun g => ?_) ⟨rfl, by simp⟩ (fun g hg => by simp [Op.news] at hg)
    grind [Op.refs, points]

theorem refs_pipeFd1 {fd0 : Fin nofile} {rf wf : Fin nfile}
    (htodo : s.todo p = .pipeFd1 fd0 rf wf :: rest)
    (hs : exec s p memory rest (.pipeFd1 fd0 rf wf) = .next s') : Refs s' := by
  obtain ⟨rfl, hfd0⟩ := h.fits_todo htodo
  rw [exec] at hs
  split at hs <;> cases hs
  · refine h.fd htodo fd0 _ (fun g => ?_) trivial (fun g hg => by simp [Op.news] at hg)
    grind [Op.refs, points]
  · rename_i fd hfd
    have hnone : s.ofile p fd = none := by simpa using find?_some hfd
    refine h.fd htodo fd _ (fun g => ?_) trivial (fun g hg => by simp at hg)
    grind [Op.refs, points]

theorem refs_copyFd {np : P} {fd : Fin nofile} (htodo : s.todo p = .copyFd np fd :: rest)
    (hs : exec s p memory rest (.copyFd np fd) = .next s') : Refs s' := by
  have hfork : Forking rest := h.fits_todo htodo
  rw [exec] at hs
  split at hs
  · cases hs
    exact h.skip htodo (fun g => by simp [Op.refs]) hfork.toFits (fun g hg => by simp [hfork.refs] at hg)
  · rename_i f hf
    split at hs <;> cases hs
    refine h.set htodo f _ (fun g => ?_) hfork (.inl ?_) (by simp) (fun g hg => ?_)
    · grind [Op.refs]
    · have := le_sum_points hf
      simpa [own, htodo, Op.refs, hfork.refs] using this
    · simp [Op.news, hfork.refs] at hg

theorem refs_exitFd {fd : Fin nofile} (htodo : s.todo p = .exitFd fd :: rest)
    (hs : exec s p memory rest (.exitFd fd) = .next s') : Refs s' := by
  have hcalm : Calm rest := h.fits_todo htodo
  rw [exec] at hs
  split at hs
  · cases hs
    exact h.skip htodo (fun g => by simp [Op.refs]) hcalm.toFits (fun g hg => by simp [hcalm.refs] at hg)
  · rename_i f hf
    have hfits' : Fits (s.ofile p) (.clearFd fd f :: rest) := ⟨hf, hcalm⟩
    refine refs_fileclose h htodo ?_ (fun g => ?_) (fun g hg => ?_) hfits' hs
    · have := le_sum_points hf
      simpa [own, htodo, Op.refs, hcalm.refs] using this
    · grind [Op.refs]
    · simp [Op.news, hcalm.refs] at hg

theorem refs_clearFd {fd : Fin nofile} {f : Fin nfile} (htodo : s.todo p = .clearFd fd f :: rest)
    (hs : exec s p memory rest (.clearFd fd f) = .next s') : Refs s' := by
  obtain ⟨hfd, hcalm⟩ := h.fits_todo htodo
  rw [exec] at hs
  cases hs
  refine h.fd htodo fd _ (fun g => ?_) hcalm.toFits (fun g hg => by simp [hcalm.refs] at hg)
  grind [Op.refs, points]

theorem refs_giveFd {np : P} {fd : Fin nofile} {f : Fin nfile}
    (htodo : s.todo p = .giveFd np fd f :: rest) (hnp : np ≠ p) (hidle : s.todo np = [])
    (hnone : s.ofile np fd = none) (hs : exec s p memory rest (.giveFd np fd f) = .next s') :
    Refs s' := by
  have hfork : Forking rest := h.fits_todo htodo
  rw [exec] at hs
  cases hs
  have hp : ∀ g, own ((s.setFd np fd (some f)).will p rest) p g = own s p g - points g (some f) := by
    intro g
    rw [own, own, htodo]
    simp [State.setFd, State.will, Ne.symm hnp, Op.refs, points, hfork.refs]
  have hnp' : ∀ g, own ((s.setFd np fd (some f)).will p rest) np g = own s np g + points g (some f) := by
    intro g
    have hrow : ((s.setFd np fd (some f)).will p rest).ofile np = update (s.ofile np) fd (some f) :=
      update_self ..
    have htodo' : ((s.setFd np fd (some f)).will p rest).todo np = s.todo np := update_of_ne hnp _ _
    rw [own, own, hrow, htodo', sum_update (points g), hnone]
    simp [points]
    omega
  refine ⟨fun g => ?_, fun q => ?_, h.unused, fun q g hq => ?_⟩
  · have hsum : ∑ q, (own ((s.setFd np fd (some f)).will p rest) q g - own s q g) =
      -points g (some f) + points g (some f) := by
      rw [Fintype.sum_eq_add p np (Ne.symm hnp) fun q hq => ?_]
      · rw [hp, hnp']
        omega
      · simp [own, State.setFd, State.will, hq.1, hq.2]
    rw [Finset.sum_sub_distrib, ← h.count g] at hsum
    show ((s.file g).ref : ℤ) = _
    omega
  · by_cases hqp : q = p
    · subst hqp
      simpa [State.will] using hfork.toFits
    · by_cases hqn : q = np
      · subst hqn
        simp [State.will, State.setFd, hqp, hidle, Fits]
      · simpa [State.will, State.setFd, hqp, hqn] using h.fits q
  · by_cases hqp : q = p
    · subst hqp
      simp [news, State.will, hfork.refs] at hq
    · exact h.fresh q g (by simpa [news, State.will, State.setFd, hqp] using hq)

end

end

end Xv6.Files
