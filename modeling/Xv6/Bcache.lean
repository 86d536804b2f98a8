/-
# The buffer cache

bio.c, with `log_write` of log.c and the two disk drivers, ide.c and memide.c. Buffers are used in
sessions: a session asks for a block (`bget`), waits for its lock, has it read if need be, may
change it, gives it to the log or to the disk, and releases it. A process may have several sessions
at a time, and sessions interleave as they like. A commit is made of such sessions: it reads log
blocks, the header and home blocks, copies, calls `bwrite` and `brelse`, and clears `log.lh.n` at
the end.

ide.c keeps the requests in a queue and serves the first one in its interrupt handler; memide.c
serves a request at once. A drive reports no errors.

Whatever the interleaving, a session finds in its block what was last written to it through the
cache, no block is in two buffers, and the disk changes by `bwrite` alone (`coherent_of_reach`). The
driver takes one bit of a device number, so this is for devices that are different drives
(`Drives`): two numbers for one drive are two names for each of its blocks (`drive_twice`).
-/
import Xv6.Lib.Machine
import Xv6.Param

namespace Xv6.Bcache

open Function (update update_apply)

/-- The struct `buf`; of the flags, `B_VALID` and `B_DIRTY`, and of the lock who holds it. The 512
bytes of a block are a `B`. -/
structure Buf (P B : Type) where
  valid : Bool
  dirty : Bool
  dev : ℕ
  blockno : ℕ
  lock : Option P
  refcnt : ℕ
  data : B

/-- ide.c, and whether there is a second disk; or memide.c, and the blocks of its disk. -/
inductive Driver where
  | ide (havedisk1 : Bool)
  | memide (disksize : ℕ)

/-- Where a session for block `blockno` of `dev` is. -/
inductive Pc where
  | idle
  /-- In `acquiresleep`, called by `bget`. -/
  | waiting (i : Fin NBUF) (dev blockno : ℕ)
  /-- In `iderw`, called by `bread`. -/
  | reading (i : Fin NBUF) (dev blockno : ℕ)
  /-- After `bread`; `changed` if the data has been changed since the last `log_write` or `bwrite`.
  -/
  | holding (i : Fin NBUF) (dev blockno : ℕ) (changed : Bool)
  /-- In `iderw`, called by `bwrite`. -/
  | writing (i : Fin NBUF) (dev blockno : ℕ)
  deriving DecidableEq

namespace Pc

/-- The buffer, and the block it was asked for. -/
def on : Pc → Option (Fin NBUF × ℕ × ℕ)
  | .idle => none
  | .waiting i d b | .reading i d b | .holding i d b _ | .writing i d b => some (i, d, b)

/-- The buffer whose lock the session has. -/
def locks : Pc → Option (Fin NBUF)
  | .idle | .waiting _ _ _ => none
  | .reading i _ _ | .holding i _ _ _ | .writing i _ _ => some i

/-- The buffer that the session has asked the driver to read. -/
def reads : Pc → Option (Fin NBUF)
  | .reading i _ _ => some i
  | _ => none

/-- The buffer that the session has asked the driver to write. -/
def writes : Pc → Option (Fin NBUF)
  | .writing i _ _ => some i
  | _ => none

/-- The buffer that the session has read. -/
def has : Pc → Option (Fin NBUF)
  | .holding i _ _ _ | .writing i _ _ => some i
  | _ => none

/-- The session has changed the data and has yet to say so. -/
def changed : Pc → Bool
  | .holding _ _ _ c => c
  | _ => false

/-- The session's share in `refcnt`. -/
def uses (i : Fin NBUF) : Pc → ℤ
  | .idle => 0
  | .waiting j _ _ | .reading j _ _ | .holding j _ _ _ | .writing j _ _ => if j = i then 1 else 0

end Pc

structure State (P B : Type) where
  buf : Fin NBUF → Buf P B
  /-- The list of `bcache.head`, from `next` on. -/
  lru : List (Fin NBUF)
  /-- The blocks of the two drives. -/
  disk : ℕ → ℕ → B
  idequeue : List (Fin NBUF)
  /-- `log.lh` -/
  lh : List ℕ
  pc : P → Pc
  /-- What `log_write` or `bwrite` last got for a block. -/
  latest : ℕ → ℕ → Option B

inductive Act (P B : Type) where
  | bget (p : P) (dev blockno : ℕ)
  /-- The lock of the buffer is acquired, and `bread` goes on. -/
  | acquire (p : P)
  /-- Change the data. -/
  | modify (p : P) (data : B)
  | logWrite (p : P)
  | bwrite (p : P)
  | brelse (p : P)
  | ideintr
  /-- Wake up in `iderw`. -/
  | wake (p : P)
  /-- `log.lh.n = 0` -/
  | clear

section

variable {P B : Type} [DecidableEq P]

namespace State

def setBuf (s : State P B) (i : Fin NBUF) (y : Buf P B) : State P B :=
  { s with buf := update s.buf i y }

def at_ (s : State P B) (p : P) (x : Pc) : State P B := { s with pc := update s.pc p x }

/-- What was last written to the block through the cache, or else what was on the disk at the start.
-/
def content (disk₀ : ℕ → ℕ → B) (s : State P B) (dev blockno : ℕ) : B :=
  (s.latest dev blockno).getD (disk₀ (dev % 2) blockno)

/-- The data of buffer `i` is written. -/
def record (s : State P B) (i : Fin NBUF) : State P B :=
  let b := s.buf i
  { s with latest := update s.latest b.dev (update (s.latest b.dev) b.blockno (some b.data)) }

/-- Sync the buffer with the disk. -/
def serve (s : State P B) (i : Fin NBUF) : State P B :=
  let b := s.buf i
  if b.dirty then
    { s.setBuf i { b with valid := true, dirty := false } with
      disk := update s.disk (b.dev % 2) (update (s.disk (b.dev % 2)) b.blockno b.data) }
  else s.setBuf i { b with valid := true, data := s.disk (b.dev % 2) b.blockno }

/-- Start the request for buffer `i`, when it is the first one. -/
def idestart (s : State P B) (i : Fin NBUF) : Outcome (State P B) :=
  if FSSIZE ≤ (s.buf i).blockno then .panic "incorrect blockno" else .next s

def iderw (drv : Driver) (s : State P B) (p : P) (i : Fin NBUF) : Outcome (State P B) :=
  let b := s.buf i
  if b.lock ≠ some p then .panic "iderw: buf not locked"
  else if b.valid ∧ !b.dirty then .panic "iderw: nothing to do"
  else match drv with
    | .ide havedisk1 =>
      if b.dev ≠ 0 ∧ !havedisk1 then .panic "iderw: ide disk 1 not present"
      else
        let s' := { s with idequeue := s.idequeue ++ [i] }
        if s.idequeue = [] then s'.idestart i else .next s'
    | .memide disksize =>
      if b.dev ≠ 1 then .panic "iderw: request not for disk 1"
      else if disksize ≤ b.blockno then .panic "iderw: block out of range"
      else .next (s.serve i)

def ideintr (s : State P B) : Outcome (State P B) :=
  match s.idequeue with
  | [] => .next s
  | i :: q =>
    let s' := { s with idequeue := q }.serve i
    match q with
    | [] => .next s'
    | j :: _ => s'.idestart j

def bget (s : State P B) (p : P) (dev blockno : ℕ) : Outcome (State P B) :=
  match s.lru.find? fun i => (s.buf i).dev = dev ∧ (s.buf i).blockno = blockno with
  | some i =>
    .next ((s.setBuf i { s.buf i with refcnt := (s.buf i).refcnt + 1 }).at_ p
      (.waiting i dev blockno))
  | none =>
    match s.lru.reverse.find? fun i => (s.buf i).refcnt = 0 ∧ !(s.buf i).dirty with
    | some i =>
      .next ((s.setBuf i { s.buf i with
        dev := dev, blockno := blockno, valid := false, dirty := false, refcnt :=
          1 }).at_ p (.waiting i dev blockno))
    | none => .panic "bget: no buffers"

/-- `bread` with the lock. -/
def bread (drv : Driver) (s : State P B) (p : P) (i : Fin NBUF) (dev blockno : ℕ) : Outcome (State P B) :=
  let s' := s.setBuf i { s.buf i with lock := some p }
  if (s.buf i).valid then .next (s'.at_ p (.holding i dev blockno false))
  else (s'.at_ p (.reading i dev blockno)).iderw drv p i

def bwrite (drv : Driver) (s : State P B) (p : P) (i : Fin NBUF) (dev blockno : ℕ) :
    Outcome (State P B) :=
  if (s.buf i).lock ≠ some p then .panic "bwrite"
  else (((s.setBuf i { s.buf i with dirty := true }).record i).at_ p
    (.writing i dev blockno)).iderw drv p i

/-- `log_write`, in a transaction, with a log of `size` blocks. -/
def logWrite (size : ℕ) (s : State P B) (p : P) (i : Fin NBUF) (dev blockno : ℕ) : Outcome (State P B) :=
  if LOGSIZE ≤ s.lh.length ∨ size ≤ s.lh.length + 1 then .panic "too big a transaction"
  else
    .next { ((s.setBuf i { s.buf i with dirty := true }).record i).at_ p
      (.holding i dev blockno false) with
      lh := if (s.buf i).blockno ∈ s.lh then s.lh else s.lh ++ [(s.buf i).blockno] }

def brelse (s : State P B) (p : P) (i : Fin NBUF) : Outcome (State P B) :=
  let b := s.buf i
  if b.lock ≠ some p then .panic "brelse"
  else
    .next { (s.setBuf i { b with lock := none, refcnt := b.refcnt - 1 }).at_ p .idle with
      lru := if b.refcnt - 1 = 0 then i :: s.lru.erase i else s.lru }

end State

/-- `binit`: the buffers are zeros, and the last one is the first of the list. -/
def init (zero : B) (disk : ℕ → ℕ → B) : State P B where
  buf := fun _ => ⟨false, false, 0, 0, none, 0, zero⟩
  lru := (List.finRange NBUF).reverse
  disk := disk
  idequeue := []
  lh := []
  pc := fun _ => .idle
  latest := fun _ _ => none

def step (drv : Driver) (size : ℕ) (s : State P B) : Act P B → Outcome (State P B)
  | .bget p dev blockno => if s.pc p = .idle then s.bget p dev blockno else .blocked
  | .acquire p =>
    match s.pc p with
    | .waiting i dev blockno => if (s.buf i).lock = none then s.bread drv p i dev blockno else .blocked
    | _ => .blocked
  | .modify p data =>
    match s.pc p with
    | .holding i dev blockno _ =>
      .next ((s.setBuf i { s.buf i with data := data }).at_ p (.holding i dev blockno true))
    | _ => .blocked
  | .logWrite p =>
    match s.pc p with
    | .holding i dev blockno _ => s.logWrite size p i dev blockno
    | _ => .blocked
  | .bwrite p =>
    match s.pc p with
    | .holding i dev blockno _ => s.bwrite drv p i dev blockno
    | _ => .blocked
  | .brelse p =>
    match s.pc p with
    | .holding i _ _ _ => s.brelse p i
    | _ => .blocked
  | .ideintr => s.ideintr
  | .wake p =>
    match s.pc p with
    | .reading i dev blockno | .writing i dev blockno =>
      if (s.buf i).valid ∧ !(s.buf i).dirty then .next (s.at_ p
        (.holding i dev blockno false)) else .blocked
    | _ => .blocked
  | .clear => .next { s with lh := [] }

/-- How the cache is used: blocks of devices in `D`, and after a change of the data a `log_write` or
`bwrite` before `brelse`. -/
def Proper (D : ℕ → Prop) (s : State P B) : Act P B → Prop
  | .bget _ dev _ => D dev
  | .brelse p => (s.pc p).changed = false
  | _ => True

/-! ### What an action can do -/

/-- What `iderw` makes of a state that it does not panic in. -/
def Io (i : Fin NBUF) (s s' : State P B) : Prop := s' = { s with idequeue := s.idequeue ++ [i] } ∨
    s' = s.serve i

inductive Next (s : State P B) : Act P B → State P B → Prop where
  | found {p : P} {i : Fin NBUF} (hp : s.pc p = .idle) :
      Next s (.bget p (s.buf i).dev (s.buf i).blockno)
        ((s.setBuf i { s.buf i with refcnt := (s.buf i).refcnt + 1 }).at_ p
          (.waiting i (s.buf i).dev (s.buf i).blockno))
  | recycle {p : P} {i : Fin NBUF} {d b : ℕ} (hp : s.pc p = .idle)
      (hno : ∀ j ∈ s.lru, ¬((s.buf j).dev = d ∧ (s.buf j).blockno = b)) (href : (s.buf i).refcnt = 0)
      (hd : (s.buf i).dirty = false) :
      Next s (.bget p d b) ((s.setBuf i { s.buf i with
        dev := d, blockno := b, valid := false, dirty := false, refcnt := 1 }).at_ p (.waiting i d b))
  | lock {p : P} {i : Fin NBUF} {d b : ℕ} (hp : s.pc p = .waiting i d b) (hl : (s.buf i).lock = none)
      (hv : (s.buf i).valid = true) :
      Next s (.acquire p) ((s.setBuf i { s.buf i with lock := some p }).at_ p (.holding i d b false))
  | read {p : P} {i : Fin NBUF} {d b : ℕ} {s' : State P B} (hp : s.pc p = .waiting i d b) (hl : (s.buf i).lock = none)
      (hv : (s.buf i).valid = false)
      (hio : Io i ((s.setBuf i { s.buf i with lock := some p }).at_ p (.reading i d b)) s') :
        Next s (.acquire p) s'
  | modify {p : P} {i : Fin NBUF} {d b : ℕ} {c : Bool} {data : B} (hp : s.pc p = .holding i d b c) :
      Next s (.modify p data) ((s.setBuf i { s.buf i with data := data }).at_ p (.holding i d b true))
  | logWrite {p : P} {i : Fin NBUF} {d b : ℕ} {c : Bool} {lh : List ℕ} (hp : s.pc p = .holding i d b c) :
      Next s (.logWrite p)
        { ((s.setBuf i { s.buf i with dirty := true }).record i).at_ p
          (.holding i d b false) with lh := lh }
  | bwrite {p : P} {i : Fin NBUF} {d b : ℕ} {c : Bool} {s' : State P B} (hp : s.pc p = .holding i d b c)
      (hio : Io i (((s.setBuf i { s.buf i with dirty := true }).record i).at_ p (.writing i d b)) s') :
      Next s (.bwrite p) s'
  | brelse {p : P} {i : Fin NBUF} {d b : ℕ} {c : Bool} {lru : List (Fin NBUF)} (hp : s.pc p = .holding i d b c)
      (hlru : ∀ j, j ∈ s.lru → j ∈ lru) :
      Next s (.brelse p)
        { (s.setBuf i { s.buf i with lock := none, refcnt := (s.buf i).refcnt - 1 }).at_ p
          .idle with
        lru := lru }
  | serve {i : Fin NBUF} {q : List (Fin NBUF)} (hq : s.idequeue = i :: q) :
      Next s .ideintr ({ s with idequeue := q }.serve i)
  | still : Next s .ideintr s
  | wake {p : P} {i : Fin NBUF} {d b : ℕ} (hp : s.pc p = .reading i d b ∨ s.pc p = .writing i d b)
      (hv : (s.buf i).valid = true) (hd : (s.buf i).dirty = false) :
      Next s (.wake p) (s.at_ p (.holding i d b false))
  | clear : Next s .clear { s with lh := [] }

variable {drv : Driver} {size : ℕ} {s s' : State P B} {a : Act P B} {p : P} {i : Fin NBUF}

theorem io_of_iderw (h : s.iderw drv p i = .next s') : Io i s s' := by
  rw [State.iderw.eq_def] at h
  simp only at h
  split at h
  · cases h
  split at h
  · cases h
  cases drv with
  | ide havedisk1 =>
    simp only at h
    split at h
    · cases h
    split at h
    · rw [State.idestart] at h
      split at h <;> cases h
      exact .inl rfl
    · cases h
      exact .inl rfl
  | memide disksize =>
    simp only at h
    split at h
    · cases h
    split at h <;> cases h
    exact .inr rfl

theorem next_of_step (h : step drv size s a = .next s') : Next s a s' := by
  cases a with
  | bget p d b =>
    rw [step] at h
    split at h
    · rename_i hp
      rw [State.bget] at h
      split at h
      · rename_i i hi
        have := List.find?_some hi
        simp only [decide_eq_true_eq] at this
        obtain ⟨rfl, rfl⟩ := this
        cases h
        exact .found hp
      · rename_i hno
        split at h
        · rename_i i hi
          have := List.find?_some hi
          simp only [decide_eq_true_eq, Bool.not_eq_true'] at this
          cases h
          refine .recycle hp (fun j hj hname => ?_) this.1 this.2
          exact List.find?_eq_none.mp hno j hj (decide_eq_true hname)
        · cases h
    · cases h
  | acquire p =>
    rw [step] at h
    split at h
    · rename_i i d b hp
      split at h
      · rename_i hl
        rw [State.bread] at h
        simp only at h
        split_ifs at h with hv
        · cases h
          exact .lock hp hl hv
        · exact .read hp hl (by simpa using hv) (io_of_iderw h)
      · cases h
    · cases h
  | modify p data =>
    rw [step] at h
    split at h <;> cases h
    exact .modify ‹_›
  | logWrite p =>
    rw [step] at h
    split at h
    · rw [State.logWrite] at h
      split at h <;> cases h
      exact .logWrite ‹_›
    · cases h
  | bwrite p =>
    rw [step] at h
    split at h
    · rw [State.bwrite] at h
      split at h
      · cases h
      · exact .bwrite ‹_› (io_of_iderw h)
    · cases h
  | brelse p =>
    rw [step] at h
    split at h
    · rename_i i d b c hp
      rw [State.brelse] at h
      simp only at h
      split at h <;> cases h
      refine .brelse hp fun j hj => ?_
      split
      · by_cases hji : j = i
        · simp [hji]
        · exact List.mem_cons_of_mem _ ((List.mem_erase_of_ne hji).mpr hj)
      · exact hj
    · cases h
  | ideintr =>
    rw [step, State.ideintr] at h
    split at h
    · cases h
      exact .still
    · rename_i i q hq
      simp only at h
      split at h
      · cases h
        exact .serve hq
      · rw [State.idestart] at h
        split at h <;> cases h
        exact .serve hq
  | wake p =>
    rw [step] at h
    split at h
    · split at h
      · rename_i hp hf
        cases h
        exact .wake (.inl hp) hf.1 (by simpa using hf.2)
      · cases h
    · split at h
      · rename_i hp hf
        cases h
        exact .wake (.inr hp) hf.1 (by simpa using hf.2)
      · cases h
    · cases h
  | clear =>
    cases h
    exact .clear

/-! ### Every run -/

section

@[grind =] theorem at_pc (x : Pc) (q : P) :
  (s.at_ p x).pc q = if q = p then x else s.pc q := update_apply ..
@[grind =] theorem at_buf (x : Pc) (j : Fin NBUF) : (s.at_ p x).buf j = s.buf j := rfl
@[grind =] theorem at_lru (x : Pc) : (s.at_ p x).lru = s.lru := rfl
@[grind =] theorem at_disk (x : Pc) (r b : ℕ) : (s.at_ p x).disk r b = s.disk r b := rfl
@[grind =] theorem at_idequeue (x : Pc) : (s.at_ p x).idequeue = s.idequeue := rfl
@[grind =] theorem at_latest (x : Pc) (d b : ℕ) : (s.at_ p x).latest d b = s.latest d b := rfl

omit [DecidableEq P]

@[grind =] theorem setBuf_buf (y : Buf P B) (j : Fin NBUF) :
  (s.setBuf i y).buf j = if j = i then y else s.buf j :=
  update_apply ..
@[grind =] theorem setBuf_pc (y : Buf P B) (q : P) : (s.setBuf i y).pc q = s.pc q := rfl
@[grind =] theorem setBuf_lru (y : Buf P B) : (s.setBuf i y).lru = s.lru := rfl
@[grind =] theorem setBuf_disk (y : Buf P B) (r b : ℕ) : (s.setBuf i y).disk r b = s.disk r b := rfl
@[grind =] theorem setBuf_idequeue (y : Buf P B) : (s.setBuf i y).idequeue = s.idequeue := rfl
@[grind =] theorem setBuf_latest (y : Buf P B) (d b : ℕ) : (s.setBuf i y).latest d b = s.latest d b := rfl

@[grind =] theorem record_buf (j : Fin NBUF) : (s.record i).buf j = s.buf j := rfl
@[grind =] theorem record_pc (q : P) : (s.record i).pc q = s.pc q := rfl
@[grind =] theorem record_lru : (s.record i).lru = s.lru := rfl
@[grind =] theorem record_disk (r b : ℕ) : (s.record i).disk r b = s.disk r b := rfl
@[grind =] theorem record_idequeue : (s.record i).idequeue = s.idequeue := rfl

@[grind =] theorem record_latest (d b : ℕ) : (s.record i).latest d b =
    if d = (s.buf i).dev ∧ b = (s.buf i).blockno then some (s.buf i).data else s.latest d b := by
  simp only [State.record, update_apply]
  split <;> split <;> simp_all

@[grind =] theorem serve_buf (j : Fin NBUF) : (s.serve i).buf j = if j = i then
    { s.buf i with
      valid := true, dirty := false,
      data := if (s.buf i).dirty then (s.buf i).data else s.disk ((s.buf i).dev % 2) (s.buf i).blockno }
    else s.buf j := by
  by_cases hd : (s.buf i).dirty = true
  · simp only [State.serve, hd, if_true]
    exact setBuf_buf ..
  · simp only [State.serve, hd, Bool.false_eq_true, if_false]
    exact setBuf_buf ..

@[grind =] theorem serve_disk (r b : ℕ) : (s.serve i).disk r b =
    if (s.buf i).dirty ∧ r = (s.buf i).dev % 2 ∧ b = (s.buf i).blockno then
      (s.buf i).data else s.disk r b := by
  by_cases hd : (s.buf i).dirty = true
  · simp only [State.serve, hd, if_true, update_apply, true_and]
    split <;> split <;> simp_all
  · simp [State.serve, hd, setBuf_disk]

@[grind =] theorem serve_pc (q : P) : (s.serve i).pc q = s.pc q := by
  rw [State.serve]
  split <;> rfl

@[grind =] theorem serve_lru : (s.serve i).lru = s.lru := by
  rw [State.serve]
  split <;> rfl

@[grind =] theorem serve_idequeue : (s.serve i).idequeue = s.idequeue := by
  rw [State.serve]
  split <;> rfl

@[grind =] theorem serve_latest (d b : ℕ) : (s.serve i).latest d b = s.latest d b := by
  rw [State.serve]
  split <;> rfl

end

/-- Session `p` has asked for buffer `i`: to be read if it is not valid, to be written if it is
dirty. -/
def Asks (s : State P B) (p : P) (i : Fin NBUF) : Prop :=
  (s.pc p).reads = some i ∧ (s.buf i).valid = false ∨ (s.pc p).writes = some i ∧ (s.buf i).dirty = true

structure Sessions (D : ℕ → Prop) (s : State P B) : Prop where
  lru : ∀ i, i ∈ s.lru
  name : ∀ p i d b, (s.pc p).on = some (i, d, b) → D d ∧ (s.buf i).dev = d ∧ (s.buf i).blockno = b
  lock : ∀ p i, (s.pc p).locks = some i ↔ (s.buf i).lock = some p
  uniq : ∀ i j, D (s.buf i).dev → (s.buf i).dev = (s.buf j).dev → (s.buf i).blockno =
    (s.buf j).blockno → i = j

structure Flags (D : ℕ → Prop) (s : State P B) : Prop where
  fresh : ∀ i, (s.buf i).valid = true → D (s.buf i).dev
  dirty : ∀ i, (s.buf i).dirty = true → (s.buf i).valid = true
  held : ∀ p i, (s.pc p).has = some i → (s.buf i).valid = true

/-- The queue holds requests of those who have the lock. -/
structure Queue (s : State P B) : Prop where
  nodup : s.idequeue.Nodup
  locked : ∀ i ∈ s.idequeue, (s.buf i).lock ≠ none
  asked : ∀ i ∈ s.idequeue, ∀ p, (s.buf i).lock = some p → Asks s p i

/-- The holder of the lock has changed the data. -/
def State.touched (s : State P B) (i : Fin NBUF) : Bool :=
  match (s.buf i).lock with
  | none => false
  | some p => (s.pc p).changed

structure Data (D : ℕ → Prop) (disk₀ : ℕ → ℕ → B) (s : State P B) : Prop where
  cached : ∀ i, (s.buf i).valid = true → s.touched i = false →
    (s.buf i).data = s.content disk₀ (s.buf i).dev (s.buf i).blockno
  clean : ∀ i, D (s.buf i).dev → (s.buf i).dirty = false →
    s.disk ((s.buf i).dev % 2) (s.buf i).blockno = s.content disk₀ (s.buf i).dev (s.buf i).blockno
  absent : ∀ d b, D d → (∀ i, ¬((s.buf i).dev = d ∧ (s.buf i).blockno = b)) →
    s.disk (d % 2) b = s.content disk₀ d b

variable {D : ℕ → Prop} {disk₀ : ℕ → ℕ → B}

theorem Pc.locks_of_has {x : Pc} (h : x.has = some i) : x.locks = some i := by
  cases x <;> simp_all [Pc.has, Pc.locks]

theorem Pc.on_of_locks {x : Pc} (h : x.locks = some i) : ∃ d b, x.on = some (i, d, b) := by
  cases x <;> simp_all [Pc.on, Pc.locks]

omit [DecidableEq P] in
/-- Buffers that are locked are blocks of the devices in use. -/
theorem Sessions.named (h : Sessions D s) (hl : (s.buf i).lock = some p) : D (s.buf i).dev := by
  obtain ⟨d, b, hon⟩ := Pc.on_of_locks ((h.lock p i).mpr hl)
  obtain ⟨hd, rfl, -⟩ := h.name p i d b hon
  exact hd

/-- What a session does before a request, if any. -/
theorem sessions_next (h : Sessions D s) (hg : Proper D s a)
    (hrefs : ∀ i, (s.buf i).refcnt = 0 → ∀ p d b, (s.pc p).on ≠ some (i, d, b)) (hn : Next s a s') :
    Sessions D s' := by
  cases hn with
  | found | recycle => constructor <;> grind [Sessions, Proper, Pc.on, Pc.locks]
  | lock hp hl hv => constructor <;> grind [Sessions, Pc.on, Pc.locks]
  | read hp hl hv hio => rcases hio with rfl | rfl <;> constructor <;> grind [Sessions, Pc.on, Pc.locks]
  | modify hp => constructor <;> grind [Sessions, Pc.on, Pc.locks]
  | logWrite hp => constructor <;> grind [Sessions, Pc.on, Pc.locks]
  | bwrite hp hio => rcases hio with rfl | rfl <;> constructor <;> grind [Sessions, Pc.on, Pc.locks]
  | brelse hp hlru => constructor <;> grind [Sessions, Pc.on, Pc.locks]
  | serve hq => constructor <;> grind [Sessions, Pc.on, Pc.locks]
  | still => exact h
  | wake hp hv hd => constructor <;> grind [Sessions, Pc.on, Pc.locks]
  | clear => exact ⟨h.lru, h.name, h.lock, h.uniq⟩

theorem flags_next (h : Flags D s) (hs : Sessions D s) (hq : Queue s) (hg : Proper D s a)
    (hrefs : ∀ i, (s.buf i).refcnt = 0 → (s.buf i).lock = none) (hn : Next s a s') : Flags D s' := by
  cases hn with
  | found | lock | modify | logWrite | brelse | wake => constructor <;> grind [Flags, Pc.has]
  | recycle hp hno href hd => constructor <;> grind [Flags, Sessions, Proper, Pc.has, Pc.locks_of_has]
  | @read p i d b s' hp hl hv hio =>
    have hname := hs.name p i d b (by rw [hp]; rfl)
    rcases hio with rfl | rfl <;> constructor <;> grind [Flags, Pc.has]
  | bwrite hp hio => rcases hio with rfl | rfl <;> constructor <;> grind [Flags, Pc.has]
  | @serve i q hi =>
    obtain ⟨p, hl⟩ := Option.ne_none_iff_exists'.mp (hq.locked i (by simp [hi]))
    have hname := hs.named hl
    constructor <;> grind [Flags]
  | still => exact h
  | clear => exact ⟨h.fresh, h.dirty, h.held⟩

theorem queue_next (h : Queue s) (hs : Sessions D s)
    (hrefs : ∀ i, (s.buf i).refcnt = 0 → (s.buf i).lock = none) (hn : Next s a s') : Queue s' := by
  cases hn with
  | found hp => constructor <;> grind [Queue, Asks, Pc.reads, Pc.writes]
  | recycle hp hno href hd => constructor <;> grind [Queue, Asks, Pc.reads, Pc.writes]
  | lock hp hl hv => constructor <;> grind [Queue, Asks, Pc.reads, Pc.writes]
  | read hp hl hv hio =>
    rcases hio with rfl | rfl <;> constructor <;> grind [Queue, Asks, Pc.reads, Pc.writes]
  | modify hp => constructor <;> grind [Queue, Asks, Pc.reads, Pc.writes]
  | logWrite hp => constructor <;> grind [Queue, Asks, Pc.reads, Pc.writes]
  | @bwrite p i d b c s' hp hio =>
    have hl := (hs.lock p i).mp (by rw [hp]; rfl)
    rcases hio with rfl | rfl <;> constructor <;> grind [Queue, Asks, Pc.reads, Pc.writes]
  | @brelse p i d b c lru hp hlru =>
    have hl := (hs.lock p i).mp (by rw [hp]; rfl)
    constructor <;> grind [Queue, Asks, Pc.reads, Pc.writes]
  | serve hi => constructor <;> grind [Queue, Asks]
  | still => exact h
  | wake hp hv hd => constructor <;> grind [Queue, Sessions, Asks, Pc.locks, Pc.reads, Pc.writes]
  | clear => exact ⟨h.nodup, h.locked, h.asked⟩

/-- The devices are different drives. -/
structure Drives (D : ℕ → Prop) : Prop where
  ne_zero : ¬D 0
  inj : ∀ d d', D d → D d' → d % 2 = d' % 2 → d = d'

omit [DecidableEq P] in
/-- Who is in `iderw` has changed nothing since. -/
theorem touched_of_asks (hl : (s.buf i).lock = some p)
    (hp : (s.pc p).reads = some i ∨ (s.pc p).writes = some i) : s.touched i = false := by
  rw [State.touched, hl]
  cases hx : s.pc p <;> simp_all [Pc.reads, Pc.writes, Pc.changed]

section

variable (h : Data D disk₀ s) (hs : Sessions D s) (hf : Flags D s)
include h hs hf

/-- The data of a buffer that nobody has changed. -/
theorem cached_next (hq : Queue s)
    (hg : Proper D s a) (hn : Next s a s') : ∀ i, (s'.buf i).valid = true → s'.touched i = false →
    (s'.buf i).data = s'.content disk₀ (s'.buf i).dev (s'.buf i).blockno := by
  intro j
  cases hn with
  | found | recycle | lock | wake => grind [State.content, Data, State.touched, Pc.changed]
  | @read p i d b s' hp hl hv hio =>
    obtain ⟨hd, rfl, rfl⟩ := hs.name p i d b (by rw [hp]; rfl)
    rcases hio with rfl | rfl <;> grind [State.content, Data, State.touched, Pc.changed, Flags]
  | @modify p i d b c data hp =>
    have hl := (hs.lock p i).mp (by rw [hp]; rfl)
    grind [State.content, Data, State.touched, Pc.changed]
  | @logWrite p i d b c lh hp =>
    have hl := (hs.lock p i).mp (by rw [hp]; rfl)
    have hv := hf.held p i (by rw [hp]; rfl)
    grind [State.content, Data, State.touched, Pc.changed, Sessions, Flags]
  | @bwrite p i d b c s' hp hio =>
    have hl := (hs.lock p i).mp (by rw [hp]; rfl)
    have hv := hf.held p i (by rw [hp]; rfl)
    rcases hio with rfl | rfl <;> grind [State.content, Data, State.touched, Pc.changed, Sessions, Flags]
  | @brelse p i d b c lru hp hlru =>
    have hl := (hs.lock p i).mp (by rw [hp]; rfl)
    grind [State.content, Data, State.touched, Proper]
  | @serve i q hi =>
    obtain ⟨p, hl⟩ := Option.ne_none_iff_exists'.mp (hq.locked i (by simp [hi]))
    have hd := hs.named hl
    have hc := touched_of_asks hl ((hq.asked i (by simp [hi]) p hl).imp And.left And.left)
    grind [State.content, Data, State.touched, Flags]
  | still | clear => exact h.cached j

theorem clean_next (hq : Queue s) (hD : Drives D) (hg : Proper D s a) (hn : Next s a s') :
    ∀ i, D (s'.buf i).dev → (s'.buf i).dirty = false →
      s'.disk ((s'.buf i).dev % 2) (s'.buf i).blockno = s'.content disk₀ (s'.buf i).dev
      (s'.buf i).blockno := by
  intro j
  cases hn with
  | found | lock | modify | brelse | wake => grind [State.content, Data]
  | @recycle p i d b hp hno href hd =>
    have habs := h.absent d b hg fun k => hno k (hs.lru k)
    grind [State.content, Data]
  | @read p i d b s' hp hl hv hio =>
    obtain ⟨hd, rfl, rfl⟩ := hs.name p i d b (by rw [hp]; rfl)
    rcases hio with rfl | rfl <;> grind [State.content, Data, Flags]
  | @logWrite p i d b c lh hp =>
    grind [State.content, Data, Sessions]
  | @bwrite p i d b c s' hp hio =>
    obtain ⟨hd, rfl, rfl⟩ := hs.name p i d b (by rw [hp]; rfl)
    rcases hio with rfl | rfl <;> grind [State.content, Data, Sessions, Drives]
  | @serve i q hi =>
    obtain ⟨p, hl⟩ := Option.ne_none_iff_exists'.mp (hq.locked i (by simp [hi]))
    have hd := hs.named hl
    have hc := touched_of_asks hl ((hq.asked i (by simp [hi]) p hl).imp And.left And.left)
    grind [State.content, Data, Flags, Drives]
  | still | clear => exact h.clean j

theorem absent_next (hq : Queue s) (hD : Drives D) (hn : Next s a s') {d b : ℕ} (hd : D d)
    (hno : ∀ i, ¬((s'.buf i).dev = d ∧ (s'.buf i).blockno = b)) :
    s'.disk (d % 2) b = s'.content disk₀ d b := by
  cases hn with
  | found | lock | modify | brelse | wake =>
    refine h.absent d b hd fun j => ?_
    have := hno j
    grind
  | @recycle p i d' b' hp hno' href hd' =>
    by_cases hi : (s.buf i).dev = d ∧ (s.buf i).blockno = b
    · obtain ⟨rfl, rfl⟩ := hi
      exact h.clean i hd hd'
    · refine h.absent d b hd fun j => ?_
      have := hno j
      grind
  | @read p i d' b' s' hp hl hv hio =>
    have habs := h.absent d b hd fun j => by
      have := hno j
      rcases hio with rfl | rfl <;> grind
    obtain ⟨hd', rfl, rfl⟩ := hs.name p i d' b' (by rw [hp]; rfl)
    rcases hio with rfl | rfl <;> grind [State.content, Flags]
  | @logWrite p i d' b' c lh hp =>
    have habs := h.absent d b hd fun j => by
      have := hno j
      grind
    have := hno i
    grind [State.content]
  | @bwrite p i d' b' c s' hp hio =>
    have habs := h.absent d b hd fun j => by
      have := hno j
      rcases hio with rfl | rfl <;> grind
    obtain ⟨hd', rfl, rfl⟩ := hs.name p i d' b' (by rw [hp]; rfl)
    have := hno i
    rcases hio with rfl | rfl <;> grind [State.content, Drives]
  | @serve i q hi =>
    obtain ⟨p, hl⟩ := Option.ne_none_iff_exists'.mp (hq.locked i (by simp [hi]))
    have hd' := hs.named hl
    have habs := h.absent d b hd fun j => by
      have := hno j
      grind
    have := hno i
    grind [State.content, Drives]
  | still | clear => exact h.absent d b hd hno

end

/-- Buffers are of device 0, as at the start, or were asked for. -/
theorem devs_next (h : ∀ i, (s.buf i).dev = 0 ∨ D (s.buf i).dev) (hg : Proper D s a)
    (hn : Next s a s') (i : Fin NBUF) : (s'.buf i).dev = 0 ∨ D (s'.buf i).dev := by
  have := h i
  cases hn with
  | read hp hl hv hio => rcases hio with rfl | rfl <;> grind
  | bwrite hp hio => rcases hio with rfl | rfl <;> grind
  | recycle hp hno href hd => grind [Proper]
  | _ => grind

section

variable [Fintype P]

/-- `refcnt` counts the sessions on the buffer. -/
def Refs (s : State P B) : Prop := ∀ i, ((s.buf i).refcnt : ℤ) = ∑ p, (s.pc p).uses i

namespace Refs

theorem move {x : Pc} (h : Refs s) (hpc : s'.pc = update s.pc p x)
    (hr : ∀ i, ((s'.buf i).refcnt : ℤ) = (s.buf i).refcnt - (s.pc p).uses i + x.uses i) :
    Refs s' := fun i => by
  rw [hr i, h i, hpc, sum_update]

omit [DecidableEq P] in
theorem pos (h : Refs s) {d b : ℕ} (hon : (s.pc p).on = some (i, d, b)) : 0 < (s.buf i).refcnt := by
  have h0 : ∀ q ∈ Finset.univ, 0 ≤ (s.pc q).uses i := fun q _ => by
    cases s.pc q <;> simp only [Pc.uses] <;> grind
  have h1 : (s.pc p).uses i = 1 := by
    cases hx : s.pc p <;> simp_all [Pc.on, Pc.uses]
  have := Finset.single_le_sum h0 (Finset.mem_univ p)
  have := h i
  omega

theorem next (h : Refs s) (hn : Next s a s') : Refs s' := by
  cases hn with
  | @found p i hp => exact h.move rfl fun j => by grind [Pc.uses]
  | @recycle p i d b hp hno href hd => exact h.move rfl fun j => by grind [Pc.uses]
  | lock hp hl hv => exact h.move rfl fun j => by grind [Pc.uses]
  | read hp hl hv hio =>
    rcases hio with rfl | rfl
    · exact h.move rfl fun j => by grind [Pc.uses]
    · exact h.move (funext fun q => serve_pc q) fun j => by grind [Pc.uses]
  | modify hp => exact h.move rfl fun j => by grind [Pc.uses]
  | logWrite hp => exact h.move rfl fun j => by grind [Pc.uses]
  | bwrite hp hio =>
    rcases hio with rfl | rfl
    · exact h.move rfl fun j => by grind [Pc.uses]
    · exact h.move (funext fun q => serve_pc q) fun j => by grind [Pc.uses]
  | @brelse p i d b c lru hp hlru =>
    have := h.pos (by rw [hp]; rfl : (s.pc p).on = some (i, d, b))
    exact h.move rfl fun j => by grind [Pc.uses]
  | serve hq =>
    intro j
    have := h j
    grind
  | still | clear => exact h
  | wake hp hv hd => exact h.move rfl fun j => by grind [Pc.uses]

end Refs

structure Inv (D : ℕ → Prop) (disk₀ : ℕ → ℕ → B) (s : State P B) : Prop where
  refs : Refs s
  devs : ∀ i, (s.buf i).dev = 0 ∨ D (s.buf i).dev
  sessions : Sessions D s
  flags : Flags D s
  queue : Queue s
  data : Data D disk₀ s

theorem inv_next (hD : Drives D) (h : Inv D disk₀ s) (hg : Proper D s a) (hn : Next s a s') :
    Inv D disk₀ s' := by
  have hfree : ∀ i, (s.buf i).refcnt = 0 → ∀ p d b, (s.pc p).on ≠ some (i, d, b) :=
    fun i hi p d b hon => by
    have := h.refs.pos hon
    omega
  have hopen : ∀ i, (s.buf i).refcnt = 0 → (s.buf i).lock = none := fun i hi => by
    by_contra hl
    obtain ⟨p, hl⟩ := Option.ne_none_iff_exists'.mp hl
    obtain ⟨d, b, hon⟩ := Pc.on_of_locks ((h.sessions.lock p i).mpr hl)
    exact hfree i hi p d b hon
  exact ⟨h.refs.next hn, devs_next h.devs hg hn, sessions_next h.sessions hg hfree hn,
    flags_next h.flags h.sessions h.queue hg hopen hn, queue_next h.queue h.sessions hopen hn,
    cached_next h.data h.sessions h.flags h.queue hg hn, clean_next h.data h.sessions h.flags
      h.queue hD hg hn,
    fun _ _ hd hno => absent_next h.data h.sessions h.flags h.queue hD hn hd hno⟩

omit [DecidableEq P] in
theorem inv_init (hD : Drives D) (zero : B) : Inv D disk₀ (init zero disk₀ : State P B) where
  refs := fun _ => by simp [init, Pc.uses]
  devs := fun _ => .inl rfl
  sessions := ⟨fun i => by simp [init], fun _ _ _ _ h => (nomatch h),
    fun p i => ⟨fun h => (nomatch h), fun h => (nomatch h)⟩, fun _ _ h => absurd h hD.ne_zero⟩
  flags := ⟨fun _ h => (nomatch h), fun _ h => (nomatch h), fun _ _ h => (nomatch h)⟩
  queue := ⟨List.nodup_nil, fun _ h => (nomatch h), fun _ h => (nomatch h)⟩
  data := ⟨fun _ h => (nomatch h), fun _ _ _ => rfl, fun _ _ _ _ => rfl⟩

/-- What the cache is for. -/
structure Coherent (drv : Driver) (size : ℕ) (disk₀ : ℕ → ℕ → B) (s : State P B) : Prop where
  /-- Who has read a block has what was last written to it, until they change it. -/
  read : ∀ p i dev blockno, s.pc p = .holding i dev blockno false →
    (s.buf i).data = s.content disk₀ dev blockno
  uniq : ∀ i j, (s.buf i).dev ≠ 0 → (s.buf i).dev = (s.buf j).dev → (s.buf i).blockno =
    (s.buf j).blockno → i = j
  pinned : ∀ a s', step drv size s a = .next s' → ∀ i, (s.buf i).dirty = true ∨ 0 < (s.buf i).refcnt →
    (s'.buf i).dev = (s.buf i).dev ∧ (s'.buf i).blockno = (s.buf i).blockno ∧
      ((s.buf i).valid = true → (s'.buf i).valid = true)
  /-- A drive changes when a session in `bwrite` has asked for that. -/
  home : ∀ a s', step drv size s a = .next s' → ∀ r b, s'.disk r b ≠ s.disk r b →
    ∃ p i d, d % 2 = r ∧ (s.pc p = .writing i d b ∨ a = .bwrite p ∧ ∃ c, s.pc p = .holding i d b c)

omit [Fintype P] in
/-- Only `bget` gives a buffer another block, and only one with no use. -/
theorem pinned_next (hn : Next s a s') (hi : (s.buf i).dirty = true ∨ 0 < (s.buf i).refcnt) :
    (s'.buf i).dev = (s.buf i).dev ∧ (s'.buf i).blockno = (s.buf i).blockno ∧
      ((s.buf i).valid = true → (s'.buf i).valid = true) := by
  cases hn with
  | read hp hl hv hio => rcases hio with rfl | rfl <;> grind
  | bwrite hp hio => rcases hio with rfl | rfl <;> grind
  | _ => grind

omit [Fintype P] in
theorem home_next (hs : Sessions D s) (hf : Flags D s) (hq : Queue s) (hn : Next s a s') {r b : ℕ}
    (hne : s'.disk r b ≠ s.disk r b) :
    ∃ p i d, d % 2 = r ∧ (s.pc p = .writing i d b ∨ a = .bwrite p ∧ ∃ c, s.pc p = .holding i d b c) := by
  cases hn with
  | read hp hl hv hio => rcases hio with rfl | rfl <;> grind [Flags]
  | @bwrite p i d b' c s' hp hio =>
    obtain ⟨-, hd, hb⟩ := hs.name p i d b' (by rw [hp]; rfl)
    refine ⟨p, i, d, ?_⟩
    rcases hio with rfl | rfl <;> grind
  | @serve i q hi =>
    obtain ⟨p, hl⟩ := Option.ne_none_iff_exists'.mp (hq.locked i (by simp [hi]))
    have hdirty : (s.buf i).dirty = true := by grind
    rcases hq.asked i (by simp [hi]) p hl with ⟨-, hv⟩ | ⟨hw, -⟩
    · rw [hf.dirty i hdirty] at hv
      cases hv
    · obtain ⟨d, b', hp⟩ : ∃ d b', s.pc p = .writing i d b' := by
        cases hx : s.pc p <;> simp_all [Pc.writes]
      obtain ⟨-, hd, hb⟩ := hs.name p i d b' (by rw [hp]; rfl)
      exact ⟨p, i, d, by grind⟩
  | _ => exact absurd rfl hne

omit [DecidableEq P] [Fintype P] in
/-- A session that has changed nothing has what was last written. -/
theorem read_of_data (hs : Sessions D s) (hf : Flags D s) (h : Data D disk₀ s) {d b : ℕ}
    (hp : s.pc p = .holding i d b false) : (s.buf i).data = s.content disk₀ d b := by
  obtain ⟨-, rfl, rfl⟩ := hs.name p i d b (by rw [hp]; rfl)
  have hl := (hs.lock p i).mp (by rw [hp]; rfl)
  refine h.cached i (hf.held p i (by rw [hp]; rfl)) ?_
  rw [State.touched, hl]
  simp only [hp, Pc.changed]

/-- **The cache is coherent.** However sessions on the blocks of different drives interleave, and
whichever driver serves them. -/
theorem coherent_of_reach (hD : Drives D) {zero : B}
    (h : Machine.Reach (step drv size) (Proper D) (init zero disk₀ : State P B) s) :
    Coherent drv size disk₀ s := by
  have hinv : Inv D disk₀ s := h.inv (inv_init hD zero) fun _ _ _ hi hg hs =>
    inv_next hD hi hg (next_of_step hs)
  refine ⟨fun p i d b hp => read_of_data hinv.sessions hinv.flags hinv.data hp, fun i j h0 => ?_,
    fun a s' hs i hi => pinned_next (next_of_step hs) hi,
    fun a s' hs r b hne => home_next hinv.sessions hinv.flags hinv.queue (next_of_step hs) hne⟩
  exact hinv.sessions.uniq i j ((hinv.devs i).resolve_left h0)

end

instance (D : ℕ → Prop) [DecidablePred D] (s : State P B) (a : Act P B) : Decidable (Proper D s a) := by
  cases a <;> unfold Proper <;> infer_instance

/-- One session asks for a block, has it read, changes it, writes it, and releases it. -/
def update (p : P) (dev blockno : ℕ) (data : B) : List (Act P B) :=
  [.bget p dev blockno, .acquire p, .ideintr, .wake p, .modify p data, .bwrite p, .ideintr, .wake p,
    .brelse p]

end

set_option maxRecDepth 100000 in
/-- After a write to block 5, another session finds it. -/
theorem coherent_update : ∃ s : State (Fin 2) ℕ, (s.pc 1, (s.buf 0).data) = (.holding 0 1 5 false, 7) ∧
    Coherent (.ide true) LOGSIZE (fun _ _ => 0) s := by
  obtain ⟨s, hs, hf⟩ := Machine.exists_reach (step (.ide true) LOGSIZE) (Proper (· = 1))
    (init 0 fun _ _ => 0 : State (Fin 2) ℕ) (update 0 1 5 7 ++ [.bget 1 1 5, .acquire 1])
    (fun s => (s.pc 1, (s.buf 0).data)) (.holding 0 1 5 false, 7) (by decide +kernel)
  exact ⟨s, hf, coherent_of_reach ⟨by decide, fun d d' h h' _ => h.trans h'.symm⟩ hs⟩

set_option maxRecDepth 100000 in
/-- Devices 1 and 3 are one drive: a write to block 5 of the one is found in block 5 of the other.
-/
theorem drive_twice : ∃ s : State (Fin 1) ℕ,
    Machine.Reach (step (.ide true) LOGSIZE) (Proper (· ≠ 0)) (init 0 fun _ _ => 0) s ∧
      ¬Coherent (.ide true) LOGSIZE (fun _ _ => 0) s := by
  obtain ⟨s, hs, hf⟩ := Machine.exists_reach (step (.ide true) LOGSIZE) (Proper (· ≠ 0))
    (init 0 fun _ _ => 0 : State (Fin 1) ℕ)
      (update 0 1 5 7 ++ [.bget 0 3 5, .acquire 0, .ideintr, .wake 0])
    (fun s => (s.pc 0, (s.buf 1).data, s.content (fun _ _ => 0) 3 5)) (.holding 1 3 5 false, 7, 0)
      (by decide +kernel)
  simp only [Prod.mk.injEq] at hf
  refine ⟨s, hs, fun hc => ?_⟩
  have := hc.read 0 1 3 5 hf.1
  omega

end Xv6.Bcache
