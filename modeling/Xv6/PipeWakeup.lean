/-
# Sleeping on a pipe

pipe.c, with `sleep`, `wakeup` and `kill` of proc.c, step by step: `p->lock` and `ptable.lock` have
holders, a writer stores one byte at a time, and `sleep` acquires `ptable.lock`, releases `p->lock`
and only then is the process SLEEPING. `wakeup` and `kill` need `ptable.lock` and let go of it at
once, so each is one step.

An end of the pipe is closed when its last descriptor is, so nobody is reading or writing there
then.

Whoever makes a sleeper's condition false holds `p->lock` and owes a `wakeup`, which it pays before
it lets go of the lock. There is one exception. A writer that has filled the pipe and finds itself
killed returns at once, and what it has stored is not announced (`killed_writer`).
-/
import Xv6.Pipe

namespace Xv6.Pipes.Wakeup

/-- `&p->nread` and `&p->nwrite` -/
inductive Chan where
  | nread
  | nwrite
  deriving DecidableEq

/-- What a process has called. -/
inductive Job where
  /-- `pipewrite`, with bytes left to store. -/
  | write (left : List UInt8)
  /-- `piperead`, with room for `n` bytes. -/
  | read (n : ℕ)
  deriving DecidableEq

/-- Where a process is in pipe.c. -/
inductive Pc where
  | idle
  /-- `acquire(&p->lock)` is next. -/
  | acquire (j : Job)
  /-- The loop of `pipewrite`, with `n` bytes stored since the lock was acquired. -/
  | store (left : List UInt8) (n : ℕ)
  /-- The pipe is full: `p->readopen == 0 || myproc()->killed` is next. -/
  | full (left : List UInt8) (n : ℕ)
  /-- `wakeup(&p->nread)` in the loop of `pipewrite`. -/
  | wake (left : List UInt8)
  /-- The condition of the first loop of `piperead`. -/
  | poll (n : ℕ)
  /-- `myproc()->killed` in that loop. -/
  | test (n : ℕ)
  /-- The second loop of `piperead`. -/
  | copy (n : ℕ)
  /-- `sleep` is called; `acquire(&ptable.lock)` is next. -/
  | sleep (j : Job)
  /-- In `sleep` with both locks. -/
  | both (j : Job)
  /-- In `sleep`, with `ptable.lock`; `SLEEPING` is next. -/
  | doze (j : Job)
  /-- SLEEPING -/
  | asleep (j : Job)
  /-- In `pipeclose`, `acquire(&p->lock)` is next. -/
  | close (writable : Bool)
  /-- `pipeclose` is to clear its flag. -/
  | shut (writable : Bool)
  /-- The last `wakeup` of each function. -/
  | finish (c : Chan)
  /-- `release(&p->lock)` and return. -/
  | release
  deriving DecidableEq

/-- What `pipewrite` and `piperead` sleep on. -/
def Job.chan : Job → Chan
  | .read _ => .nread
  | .write _ => .nwrite

/-- With the lock acquired. -/
def Job.start : Job → Pc
  | .write left => .store left 0
  | .read n => .poll n

/-- What `pipeclose` wakes. -/
def wakes (writable : Bool) : Chan := if writable then .nread else .nwrite

structure State (P : Type) where
  pipe : Pipe
  pc : P → Pc
  killed : P → Bool
  /-- Who holds `p->lock`. -/
  lock : Option P
  /-- Who holds `ptable.lock`. -/
  ptable : Option P

inductive Act (P : Type) where
  | call (p : P) (j : Job)
  | pipeclose (p : P) (writable : Bool)
  /-- The next step of a process in pipe.c. -/
  | run (p : P)
  | kill (p : P)

/-- `p->writeopen` and `p->readopen` -/
def Pipe.open_ (s : Pipe) (writable : Bool) : Bool := if writable then s.writeopen else s.readopen

/-- `p->writeopen = 0` and `p->readopen = 0` -/
def Pipe.shut (s : Pipe) (writable : Bool) : Pipe :=
  if writable then { s with writeopen := false } else { s with readopen := false }

/-- `wakeup` on a channel, as seen by one process. -/
def Pc.woken (c : Chan) : Pc → Pc
  | .asleep j => if j.chan = c then .acquire j else .asleep j
  | x => x

/-- In `pipewrite` or `piperead`. -/
def Pc.uses (writable : Bool) : Pc → Bool
  | .store .. | .full .. | .wake _ => writable
  | .poll _ | .test _ | .copy _ => !writable
  | .acquire j | .sleep j | .both j | .doze j | .asleep j => writable == (j.chan == .nwrite)
  | _ => false

/-- In `pipeclose`, before the flag is cleared. -/
def Pc.closes (writable : Bool) : Pc → Bool
  | .close w | .shut w => w == writable
  | _ => false

section

variable {P : Type} [DecidableEq P]

namespace State

def at_ (s : State P) (p : P) (x : Pc) : State P := { s with pc := Function.update s.pc p x }

def wakeup (s : State P) (c : Chan) : State P := { s with pc := fun q => (s.pc q).woken c }

end State

/-- `pipealloc` -/
def init (data : Fin PIPESIZE → UInt8) : State P :=
  ⟨⟨data, 0, 0, true, true⟩, fun _ => .idle, fun _ => false, none, none⟩

/-- The next step of a process in pipe.c. -/
def advance (s : State P) (p : P) : Outcome (State P) :=
  match s.pc p with
  | .idle => .blocked
  | .acquire j => if s.lock = none then .next { s.at_ p j.start with lock := some p } else .blocked
  | .store [] _ => .next (s.at_ p (.finish .nread))
  | .store (b :: left) n =>
    if s.pipe.Full then .next (s.at_ p (.full (b :: left) n))
    else .next { s.at_ p (.store left (n + 1)) with pipe := s.pipe.put b }
  | .full left _ =>
    if s.pipe.readopen = false ∨ s.killed p then .next (s.at_ p .release)
    else .next (s.at_ p (.wake left))
  | .wake left =>
    if s.ptable = none then .next ((s.wakeup .nread).at_ p (.sleep (.write left))) else .blocked
  | .poll n =>
    if s.pipe.nread = s.pipe.nwrite ∧ s.pipe.writeopen then .next (s.at_ p (.test n))
    else .next (s.at_ p (.copy n))
  | .test n => if s.killed p then .next (s.at_ p .release) else .next (s.at_ p (.sleep (.read n)))
  | .copy 0 => .next (s.at_ p (.finish .nwrite))
  | .copy (n + 1) =>
    if s.pipe.nread = s.pipe.nwrite then .next (s.at_ p (.finish .nwrite))
    else .next { s.at_ p (.copy n) with pipe := { s.pipe with nread := s.pipe.nread + 1 } }
  | .sleep j => if s.ptable = none then .next { s.at_ p (.both j) with ptable := some p } else .blocked
  | .both j => .next { s.at_ p (.doze j) with lock := none }
  | .doze j => .next { s.at_ p (.asleep j) with ptable := none }
  | .asleep _ => .blocked
  | .close writable =>
    if s.lock = none then .next { s.at_ p (.shut writable) with lock := some p } else .blocked
  | .shut writable => .next { s.at_ p (.finish (wakes writable)) with pipe := Pipe.shut s.pipe writable }
  | .finish c => if s.ptable = none then .next ((s.wakeup c).at_ p .release) else .blocked
  | .release => .next { s.at_ p .idle with lock := none }

/-- A process in `pipewrite` or `piperead` has that end of the pipe open. -/
def Opened (s : State P) (writable : Bool) : Prop :=
  Pipe.open_ s.pipe writable = true ∧ ∀ q, (s.pc q).closes writable = false

instance [Fintype P] (s : State P) (writable : Bool) : Decidable (Opened s writable) := by
  unfold Opened
  infer_instance

def step [Fintype P] (s : State P) : Act P → Outcome (State P)
  | .call p j =>
    if s.pc p = .idle ∧ Opened s (j.chan == .nwrite) then .next (s.at_ p (.acquire j)) else .blocked
  | .pipeclose p w =>
    if s.pc p = .idle ∧ Opened s w ∧ ∀ q, (s.pc q).uses
    w = false then .next (s.at_ p (.close w)) else .blocked
  | .run p => advance s p
  | .kill p =>
    if s.ptable = none then
      .next { s.at_ p
        (((s.pc p).woken .nread).woken .nwrite) with killed := Function.update s.killed p true }
    else .blocked

end

/-! ### Every run -/

namespace Pc

/-- The places where a process holds `p->lock`. -/
def holds : Pc → Bool
  | .idle | .acquire _ | .doze _ | .asleep _ | .close _ => false
  | _ => true

/-- The places where a process holds `ptable.lock`. -/
def holdsTable : Pc → Bool
  | .both _ | .doze _ => true
  | _ => false

/-- A process that sleeps on `c`, or can do nothing else. -/
def waits (c : Chan) : Pc → Bool
  | .doze j | .asleep j => j.chan = c
  | _ => false

/-- A process that has found that it must sleep on `c`. -/
def tested (c : Chan) : Pc → Bool
  | .test _ => c = .nread
  | .wake _ => c = .nwrite
  | .sleep j | .both j => j.chan = c
  | _ => false

/-- A process that will wake those who sleep on `c` before it releases `p->lock`. -/
def owes (c : Chan) : Pc → Bool
  | .store _ n | .full _ n => c = .nread ∧ 0 < n
  | .wake _ => c = .nread
  | .copy _ => c = .nwrite
  | .finish c' => c' = c
  | _ => false

/-- A process that has found the pipe full. -/
def isFull : Pc → Bool
  | .full .. => true
  | _ => false

variable {x : Pc} {c c' : Chan} {w : Bool}

theorem holds_of_tested (h : x.tested c = true) : x.holds = true := by
  cases x <;> simp_all [tested, holds]

theorem holds_of_owes (h : x.owes c = true) : x.holds = true := by
  cases x <;> simp_all [owes, holds]

theorem holds_of_isFull (h : x.isFull = true) : x.holds = true := by
  cases x <;> simp_all [isFull, holds]

theorem uses_of_waits (h : x.waits .nread = true) : x.uses false = true := by
  cases x <;> simp_all [waits, uses]

/-- `wakeup` moves sleepers only. -/
theorem woken_eq (x : Pc) (c : Chan) : x.woken c = x ∨ ∃ j, x = .asleep j ∧ x.woken c = .acquire j ∧
    j.chan = c := by
  cases x with
  | asleep j =>
    by_cases hj : j.chan = c <;> simp [woken, hj]
  | _ => exact .inl rfl

theorem waits_woken (h : (x.woken c).waits c' = true) : x.waits c' = true := by
  rcases woken_eq x c with hx | ⟨j, rfl, hx, -⟩
  · rwa [hx] at h
  · simp [hx, waits] at h

/-- What does not tell a sleeper from one that has been woken. -/
theorem woken_congr {β : Type} (f : Pc → β) (hf : ∀ j, f (.acquire j) = f (.asleep j)) :
    f (x.woken c) = f x := by
  rcases woken_eq x c with hx | ⟨j, rfl, hx, -⟩
  · rw [hx]
  · rw [hx, hf]

end Pc

/-- What those who sleep on `c` wait for has not come. -/
def Cond (s : Pipe) : Chan → Prop
  | .nread => s.nread = s.nwrite ∧ s.writeopen = true
  | .nwrite => s.Full ∧ s.readopen = true

section

variable {P : Type} {q : P} {x y : Pc}

/-- Who has the locks. -/
structure Locks (s : State P) : Prop where
  lock : ∀ p, s.lock = some p ↔ (s.pc p).holds = true
  ptable : ∀ p, s.ptable = some p ↔ (s.pc p).holdsTable = true

/-- Nobody uses an end that is closed, or being closed. -/
structure Users (s : State P) : Prop where
  closed : ∀ w q, Pipe.open_ s.pipe w = false → (s.pc q).uses w = false
  closing : ∀ w p q, (s.pc p).closes w = true → (s.pc q).uses w = false

/-- Those who sleep have a reason to, or whoever holds `p->lock` will wake them. -/
structure Sleepers (s : State P) : Prop where
  full : ∀ p, (s.pc p).isFull = true → s.pipe.Full
  tested : ∀ p c, (s.pc p).tested c = true → Cond s.pipe c
  waits : ∀ q c, (s.pc q).waits c = true → Cond s.pipe c ∨ ∃ p, (s.pc p).owes c = true

/-- The others stay where they are or are woken. -/
def Others (s s' : State P) (p : P) : Prop := ∀ q ≠ p, s'.pc q = s.pc q ∨ ∃ c, s'.pc q = (s.pc q).woken c

variable {s s' : State P} {p : P}

theorem Others.congr (h : Others s s' p) {β : Type} (f : Pc → β)
    (hf : ∀ j, f (.acquire j) = f (.asleep j)) (hq : q ≠ p) : f (s'.pc q) = f (s.pc q) := by
  rcases h q hq with h | ⟨c, h⟩
  · rw [h]
  · rw [h, Pc.woken_congr f hf]

theorem Others.waits (h : Others s s' p) (hq : q ≠ p) {c : Chan} (hw : (s'.pc q).waits c = true) :
    (s.pc q).waits c = true := by
  rcases h q hq with h | ⟨c, h⟩
  · rwa [h] at hw
  · rw [h] at hw
    exact Pc.waits_woken hw

/-- The process that holds `p->lock` is the only one. -/
theorem Locks.alone (h : Locks s) (hp : (s.pc p).holds = true)
    (hq : (s.pc q).holds = true) : q = p := by
  have hp' := (h.lock p).mpr hp
  have hq' := (h.lock q).mpr hq
  exact Option.some_inj.mp (hq'.symm.trans hp')

/-- A step of the process that holds `p->lock`: what must hold of it alone. -/
theorem Sleepers.holder (h : Sleepers s) (hl : Locks s) (hp : (s.pc p).holds = true)
    (hothers : Others s s' p) (hfull : (s'.pc p).isFull = true → s'.pipe.Full)
    (htested : ∀ c, (s'.pc p).tested c = true → Cond s'.pipe c)
    (hself : ∀ c, (s'.pc p).waits c = true → Cond s'.pipe c)
    (hwaits : ∀ q c, q ≠ p → (s'.pc q).waits c = true → Cond s.pipe c ∨ (s.pc p).owes c = true →
      Cond s'.pipe c ∨ (s'.pc p).owes c = true) : Sleepers s' := by
  have hidle : ∀ q, (s'.pc q).holds = true → q ≠ p → False := fun q hq hne =>
    hne (hl.alone hp (hothers.congr Pc.holds (fun _ => rfl) hne ▸ hq))
  refine ⟨fun q hq => ?_, fun q c hq => ?_, fun q c hq => ?_⟩ <;> by_cases hne : q = p
  · exact hfull (hne ▸ hq)
  · exact (hidle q (Pc.holds_of_isFull hq) hne).elim
  · exact htested c (hne ▸ hq)
  · exact (hidle q (Pc.holds_of_tested hq) hne).elim
  · exact .inl (hself c (hne ▸ hq))
  · refine (hwaits q c hne hq ?_).imp id fun h => ⟨p, h⟩
    refine (h.waits q c (hothers.waits hne hq)).imp id fun ⟨r, hr⟩ => ?_
    exact hl.alone hp (Pc.holds_of_owes hr) ▸ hr

/-- A step of a process that does not hold `p->lock`. -/
theorem Sleepers.other (h : Sleepers s) (hp : (s.pc p).holds = false) (hothers : Others s s' p)
    (hpipe : s'.pipe = s.pipe) (hfull : (s'.pc p).isFull = false)
    (htested : ∀ c, (s'.pc p).tested c = false)
    (hself : ∀ c, (s'.pc p).waits c = true → (s.pc p).waits c = true) : Sleepers s' := by
  refine ⟨fun q hq => ?_, fun q c hq => ?_, fun q c hq => ?_⟩
  · have hne : q ≠ p := by
      rintro rfl
      simp [hfull] at hq
    exact hpipe ▸ h.full q (hothers.congr Pc.isFull (fun _ => rfl) hne ▸ hq)
  · have hne : q ≠ p := by
      rintro rfl
      simp [htested] at hq
    exact hpipe ▸ h.tested q c (hothers.congr (Pc.tested c) (fun _ => rfl) hne ▸ hq)
  · have hwaits : (s.pc q).waits c = true := by
      by_cases hne : q = p
      · subst hne
        exact hself c hq
      · exact hothers.waits hne hq
    refine (h.waits q c hwaits).imp (hpipe ▸ id) fun ⟨r, hr⟩ => ⟨r, ?_⟩
    have hne : r ≠ p := by
      rintro rfl
      simp [Pc.holds_of_owes hr] at hp
    exact hothers.congr (Pc.owes c) (fun _ => rfl) hne ▸ hr

/-- One holder, before and after a step of `p`. -/
theorem holder_iff {f f' : P → Bool} {l l' : Option P} (h : ∀ q, l = some q ↔ f q = true)
    (hother : ∀ q ≠ p, f' q = f q)
    (hp : (l' = l ∧ f' p = f p) ∨ (l = none ∧ l' = some p ∧ f' p = true) ∨
      (f p = true ∧ l' = none ∧ f' p = false))
    (q : P) : l' = some q ↔ f' q = true := by
  have hq := h q
  have hp' := h p
  by_cases hqp : q = p
  · grind
  · grind

theorem Locks.move (h : Locks s) (hothers : Others s s' p)
    (hlock : (s'.lock = s.lock ∧ (s'.pc p).holds = (s.pc p).holds) ∨
      (s.lock = none ∧ s'.lock = some p ∧ (s'.pc p).holds = true) ∨
      ((s.pc p).holds = true ∧ s'.lock = none ∧ (s'.pc p).holds = false))
    (hptable : (s'.ptable = s.ptable ∧ (s'.pc p).holdsTable = (s.pc p).holdsTable) ∨
      (s.ptable = none ∧ s'.ptable = some p ∧ (s'.pc p).holdsTable = true) ∨
      ((s.pc p).holdsTable = true ∧ s'.ptable = none ∧ (s'.pc p).holdsTable = false)) : Locks s' where
  lock := holder_iff h.lock (fun _ => hothers.congr Pc.holds fun _ => rfl) hlock
  ptable := holder_iff h.ptable (fun _ => hothers.congr Pc.holdsTable fun _ => rfl) hptable

theorem Users.move (h : Users s) (hothers : Others s s' p)
    (huses : ∀ w, (s'.pc p).uses w = true → (s.pc p).uses w = true ∨ Opened s w)
    (hcloses : ∀ w, (s'.pc p).closes w = true → (s.pc p).closes w = true ∨ ∀ q, (s.pc q).uses w = false)
    (hopen : ∀ w, Pipe.open_ s'.pipe w = false → Pipe.open_ s.pipe w = false ∨ (s.pc p).closes w =
      true) : Users s' := by
  have hboth : ∀ w, (s'.pc p).closes w = true → (s'.pc p).uses w = false := by
    intro w
    cases s'.pc p <;> simp [Pc.closes, Pc.uses]
  have huse : ∀ w, ∀ q ≠ p, (s'.pc q).uses w = (s.pc q).uses w :=
    fun w _ => hothers.congr (Pc.uses w) fun _ => rfl
  have hclose : ∀ w, ∀ q ≠ p, (s'.pc q).closes w = (s.pc q).closes w := fun w _ =>
    hothers.congr (Pc.closes w) fun _ => rfl
  obtain ⟨hclosed, hclosing⟩ := h
  constructor
  · intro w q hw
    grind [Opened]
  · intro w r q hw
    grind [Opened]

structure Inv (s : State P) : Prop extends Locks s, Users s, Sleepers s

/-- A step of the process that holds `p->lock`, from `x` to `y`. -/
theorem Inv.holder (h : Inv s) (hx : s.pc p = x) (hy : s'.pc p = y) (hp : x.holds = true)
    (hothers : Others s s' p)
    (hlock : (s'.lock = s.lock ∧ y.holds = true) ∨ (s'.lock = none ∧ y.holds = false))
    (hptable : (s'.ptable = s.ptable ∧ y.holdsTable = x.holdsTable) ∨
      (s.ptable = none ∧ s'.ptable = some p ∧ y.holdsTable = true))
    (huses : ∀ w, y.uses w = true → x.uses w = true)
    (hcloses : ∀ w, y.closes w = true → x.closes w = true)
    (hopen : ∀ w, Pipe.open_ s'.pipe w = false → Pipe.open_ s.pipe w = false ∨ x.closes w = true)
    (hfull : y.isFull = true → s'.pipe.Full) (htested : ∀ c, y.tested c = true → Cond s'.pipe c)
    (hself : ∀ c, y.waits c = true → Cond s'.pipe c)
    (hwaits : ∀ q c, q ≠ p → (s'.pc q).waits c = true → Cond s.pipe c ∨ x.owes c = true →
      Cond s'.pipe c ∨ y.owes c = true) : Inv s' := by
  subst hx hy
  exact ⟨h.toLocks.move hothers (by grind) (by grind),
    h.toUsers.move hothers (fun w hw => .inl (huses w hw)) (fun w hw => .inl (hcloses w hw)) hopen,
    h.toSleepers.holder h.toLocks hp hothers hfull htested hself hwaits⟩

/-- A step of another process, from `x` to `y`. -/
theorem Inv.other (h : Inv s) (hx : s.pc p = x) (hy : s'.pc p = y) (hp : x.holds = false)
    (hothers : Others s s' p) (hpipe : s'.pipe = s.pipe)
    (hlock : (s'.lock = s.lock ∧ y.holds = false) ∨ (s.lock = none ∧ s'.lock = some p ∧ y.holds = true))
    (hptable : (s'.ptable = s.ptable ∧ y.holdsTable = x.holdsTable) ∨
      (x.holdsTable = true ∧ s'.ptable = none ∧ y.holdsTable = false))
    (huses : ∀ w, y.uses w = true → x.uses w = true ∨ Opened s w)
    (hcloses : ∀ w, y.closes w = true → x.closes w = true ∨ ∀ q, (s.pc q).uses w = false)
    (hfull : y.isFull = false) (htested : ∀ c, y.tested c = false)
    (hself : ∀ c, y.waits c = true → x.waits c = true) : Inv s' := by
  subst hx hy
  exact ⟨h.toLocks.move hothers (by grind) (by grind), h.toUsers.move hothers huses hcloses
    fun w hw => .inl (hpipe ▸ hw),
    h.toSleepers.other hp hothers hpipe hfull htested hself⟩

theorem inv_init (data : Fin PIPESIZE → UInt8) : Inv (init data : State P) := by
  refine ⟨⟨?_, ?_⟩, ⟨?_, ?_⟩, ⟨?_, ?_, ?_⟩⟩ <;>
    simp [init, Pc.holds, Pc.holdsTable, Pc.uses, Pc.closes, Pc.isFull, Pc.tested, Pc.waits]

/-- After `wakeup` nobody waits. -/
theorem waits_wakeup (h : Locks s) (ht : s.ptable = none) (c : Chan) (q : P) :
    ((s.pc q).woken c).waits c = false := by
  have hdoze : (s.pc q).holdsTable = false := by
    simpa [ht] using h.ptable q
  cases hq : s.pc q with
  | asleep j =>
    by_cases hj : j.chan = c <;> simp [Pc.woken, Pc.waits, hj]
  | doze j => simp [hq, Pc.holdsTable] at hdoze
  | _ => rfl

end

section

variable {P : Type} [DecidableEq P] {s s' : State P} {p : P} {left : List UInt8} {n : ℕ} {j : Job}
  {w : Bool}

/-- A writer that has stored something and is killed at a full pipe leaves no sleeping reader
behind. -/
def Prompt (s : State P) : Act P → Prop
  | .run p =>
    match s.pc p with
    | .full _ n => s.killed p = true → 0 < n → ∀ q, (s.pc q).waits .nread = false
    | _ => True
  | _ => True

instance [Fintype P] (s : State P) (a : Act P) : Decidable (Prompt s a) := by
  unfold Prompt
  split
  · split <;> infer_instance
  · infer_instance

theorem others_at (s : State P) (p : P) (x : Pc) : Others s (s.at_ p x) p := fun _ hq =>
  .inl (Function.update_of_ne hq _ _)

theorem others_wakeup (s : State P) (p : P) (c : Chan) (x : Pc) :
    Others s ((s.wakeup c).at_ p x) p := fun _ hq =>
  .inr ⟨c, Function.update_of_ne hq _ _⟩

/-- Who waits after a `wakeup` waits on another channel. -/
theorem waits_ne {x : Pc} {c c' : Chan} {q : P} (h : Locks s) (ht : s.ptable = none) (hq : q ≠ p)
    (hw : (((s.wakeup c).at_ p x).pc q).waits c' = true) : c' ≠ c := by
  rintro rfl
  simp [State.at_, State.wakeup, hq, waits_wakeup h ht] at hw

@[simp]
theorem at_self (s : State P) (p : P) (x : Pc) : (s.at_ p x).pc p = x := Function.update_self ..

section

variable (h : Inv s)
include h

/-- A step of the process that holds `p->lock`, in which nothing but its place changes. -/
theorem Inv.at_ {x y : Pc} (hx : s.pc p = x) (hp : x.holds = true) (hy : y.holds = true)
    (htable : x.holdsTable = false) (htable' : y.holdsTable = false)
    (huses : ∀ w, y.uses w = true → x.uses w = true)
    (hcloses : ∀ w, y.closes w = true → x.closes w = true) (hfull : y.isFull = true → s.pipe.Full)
    (htested : ∀ c, y.tested c = true → Cond s.pipe c) (hself : ∀ c, y.waits c = false)
    (howes : ∀ q c, (s.pc q).waits c = true → x.owes c = true → y.owes c = true) : Inv (s.at_ p y) := by
  refine h.holder hx (at_self s p y) hp (others_at s p y) (.inl ⟨rfl, hy⟩)
    (.inl ⟨rfl, by rw [htable, htable']⟩) huses
    hcloses (fun w => .inl) hfull htested (fun c => by simp [hself]) fun q c hq hw => ?_
  exact .imp id fun hx => howes q c ((others_at s p y).waits hq hw) hx

section

variable (hs : advance s p = .next s')
include hs

/-- The loop of `pipewrite`. -/
theorem inv_store (hpc : s.pc p = .store left n) : Inv s' := by
  cases left with
  | nil =>
    simp only [advance, hpc] at hs
    cases hs
    refine h.at_ hpc rfl rfl rfl rfl nofun nofun nofun nofun (fun _ => rfl) fun q c _ => ?_
    simp +contextual [Pc.owes]
  | cons b left =>
    simp only [advance, hpc] at hs
    split at hs <;> cases hs
    · rename_i hfull
      exact h.at_ hpc rfl rfl rfl rfl (fun _ => id) nofun (fun _ => hfull) nofun (fun _ =>
        rfl) fun _ _ _ => id
    · rename_i hfull
      refine h.holder hpc (at_self ..) rfl (others_at s p (.store left (n + 1))) (.inl ⟨rfl, rfl⟩)
        (.inl ⟨rfl, rfl⟩)
        (fun _ => id) nofun (fun _ => .inl) nofun nofun nofun fun q c _ _ hc => ?_
      -- a sleeping writer cannot be: the pipe was not full
      cases c with
      | nread => simp [Pc.owes]
      | nwrite => simp [Cond, hfull, Pc.owes] at hc

/-- A writer at a full pipe. -/
theorem inv_full (hg : Prompt s (.run p)) (hpc : s.pc p = .full left n) : Inv s' := by
  have hfull := h.full p (by rw [hpc]; rfl)
  simp only [advance, Prompt, hpc] at hs hg
  split at hs <;> cases hs
  · rename_i hor
    refine h.at_ hpc rfl rfl rfl rfl nofun nofun nofun nofun (fun _ => rfl) fun q c hq howes => ?_
    obtain ⟨rfl, hn⟩ : c = .nread ∧ 0 < n := by simpa [Pc.owes] using howes
    rcases hor with hclosed | hkilled
    · have := h.closed false q (by simpa [Pipe.open_] using hclosed)
      rw [Pc.uses_of_waits hq] at this
      cases this
    · have := hg hkilled hn q
      rw [hq] at this
      cases this
  · rename_i hor
    push Not at hor
    refine h.at_ hpc rfl rfl rfl rfl (fun _ => id) nofun nofun (fun c hc => ?_) (fun _ =>
      rfl) fun q c _ => ?_
    · obtain rfl : c = .nwrite := by simpa [Pc.tested] using hc
      exact ⟨hfull, by simpa using hor.1⟩
    · simp +contextual [Pc.owes]

theorem inv_wake (hpc : s.pc p = .wake left) : Inv s' := by
  simp only [advance, hpc] at hs
  split at hs <;> cases hs
  rename_i ht
  refine h.holder hpc (at_self ..) rfl (others_wakeup s p .nread _) (.inl ⟨rfl, rfl⟩)
    (.inl ⟨rfl, rfl⟩) ?_ nofun (fun _ => .inl)
    nofun (fun c hc => h.tested p c (hpc ▸ ?_)) nofun fun q c hq hw => ?_
  · simp [Pc.uses, Job.chan]
  · simpa [Pc.tested, Job.chan, eq_comm] using hc
  · simp [Pc.owes, waits_ne h.toLocks ht hq hw]
    exact id

/-- The loops of `piperead`. -/
theorem inv_poll (hpc : s.pc p = .poll n) : Inv s' := by
  simp only [advance, hpc] at hs
  split at hs <;> cases hs
  · rename_i hempty
    refine h.at_ hpc rfl rfl rfl rfl (fun _ => id) nofun nofun (fun c hc => ?_) (fun _ => rfl) nofun
    obtain rfl : c = .nread := by simpa [Pc.tested] using hc
    exact hempty
  · exact h.at_ hpc rfl rfl rfl rfl (fun _ => id) nofun nofun nofun (fun _ => rfl) nofun

theorem inv_test (hpc : s.pc p = .test n) : Inv s' := by
  simp only [advance, hpc] at hs
  split at hs <;> cases hs
  · exact h.at_ hpc rfl rfl rfl rfl nofun nofun nofun nofun (fun _ => rfl) nofun
  · refine h.at_ hpc rfl rfl rfl rfl ?_ nofun nofun (fun c hc => h.tested p c (hpc ▸ ?_)) (fun _ =>
      rfl) nofun
    · simp [Pc.uses, Job.chan]
    · simpa [Pc.tested, Job.chan, eq_comm] using hc

theorem inv_copy (hpc : s.pc p = .copy n) : Inv s' := by
  have hdone : Inv (s.at_ p (.finish .nwrite)) := by
    refine h.at_ hpc rfl rfl rfl rfl nofun nofun nofun nofun (fun _ => rfl) fun q c _ => ?_
    simp +contextual [Pc.owes]
  cases n with
  | zero =>
    simp only [advance, hpc] at hs
    cases hs
    exact hdone
  | succ n =>
    simp only [advance, hpc] at hs
    split at hs <;> cases hs
    · exact hdone
    · rename_i hne
      refine h.holder hpc (at_self ..) rfl (others_at s p (.copy n)) (.inl ⟨rfl, rfl⟩) (.inl ⟨rfl, rfl⟩)
        (fun _ => id) nofun (fun _ => .inl) nofun nofun nofun fun q c _ _ hc => ?_
      -- a sleeping reader cannot be: the pipe was not empty
      cases c with
      | nread => simp [Cond, hne, Pc.owes] at hc
      | nwrite => simp [Pc.owes]

theorem inv_sleep (hpc : s.pc p = .sleep j) : Inv s' := by
  simp only [advance, hpc] at hs
  split at hs <;> cases hs
  rename_i ht
  refine h.holder hpc (at_self ..) rfl (others_at s p (.both j)) (.inl ⟨rfl, rfl⟩) (.inr ⟨ht, rfl, rfl⟩)
    (fun _ => id) nofun (fun _ => .inl) nofun (fun c hc =>
      h.tested p c (hpc ▸ hc)) nofun fun _ _ _ _ => id

theorem inv_both (hpc : s.pc p = .both j) : Inv s' := by
  simp only [advance, hpc] at hs
  cases hs
  refine h.holder hpc (at_self ..) rfl (others_at s p (.doze j)) (.inr ⟨rfl, rfl⟩) (.inl ⟨rfl, rfl⟩)
    (fun _ => id) nofun (fun _ => .inl) nofun nofun (fun c hc =>
      h.tested p c (hpc ▸ hc)) fun _ _ _ _ => id

theorem inv_doze (hpc : s.pc p = .doze j) : Inv s' := by
  simp only [advance, hpc] at hs
  cases hs
  exact h.other hpc (at_self ..) rfl (others_at s p (.asleep j)) rfl (.inl ⟨rfl, rfl⟩)
    (.inr ⟨rfl, rfl, rfl⟩)
    (fun _ => .inl) nofun rfl (fun _ => rfl) fun _ => id

theorem inv_acquire (hpc : s.pc p = .acquire j) : Inv s' := by
  simp only [advance, hpc] at hs
  split at hs <;> cases hs
  rename_i hl
  cases j with
  | write left =>
    refine h.other hpc (at_self ..) rfl (others_at s p (.store left 0)) rfl (.inr ⟨hl, rfl, rfl⟩)
      (.inl ⟨rfl, rfl⟩)
      (fun w hw => .inl ?_) nofun rfl (fun _ => rfl) nofun
    simpa [Pc.uses, Job.start, Job.chan] using hw
  | read n =>
    refine h.other hpc (at_self ..) rfl (others_at s p (.poll n)) rfl (.inr ⟨hl, rfl, rfl⟩)
      (.inl ⟨rfl, rfl⟩)
      (fun w hw => .inl ?_) nofun rfl (fun _ => rfl) nofun
    cases w
    · rfl
    · exact hw

theorem inv_close (hpc : s.pc p = .close w) : Inv s' := by
  simp only [advance, hpc] at hs
  split at hs <;> cases hs
  rename_i hl
  exact h.other hpc (at_self ..) rfl (others_at s p (.shut w)) rfl (.inr ⟨hl, rfl, rfl⟩) (.inl ⟨rfl, rfl⟩)
    nofun (fun _ => .inl) rfl (fun _ => rfl) nofun

theorem inv_shut (hpc : s.pc p = .shut w) : Inv s' := by
  simp only [advance, hpc] at hs
  cases hs
  refine h.holder hpc (at_self ..) rfl (others_at s p (.finish (wakes w))) (.inl ⟨rfl, rfl⟩)
    (.inl ⟨rfl, rfl⟩)
    nofun nofun (fun w' => ?_) nofun nofun nofun fun q c _ _ hc => ?_
  · cases w <;> cases w' <;> simp [Pipe.shut, Pipe.open_, Pc.closes]
  · -- those who slept on the other channel sleep on
    cases w <;> cases c <;> simp_all [Pc.owes, wakes, Cond, Pipe.shut, Pipe.Full]

/-- The last `wakeup`. -/
theorem inv_finish {c : Chan} (hpc : s.pc p = .finish c) : Inv s' := by
  simp only [advance, hpc] at hs
  split at hs <;> cases hs
  rename_i ht
  refine h.holder hpc (at_self ..) rfl (others_wakeup s p c _) (.inl ⟨rfl, rfl⟩) (.inl ⟨rfl, rfl⟩)
    nofun nofun
    (fun _ => .inl) nofun nofun nofun fun q c' hq hw => ?_
  exact Or.imp_right fun howes =>
    absurd (by simpa [Pc.owes, eq_comm] using howes) (waits_ne h.toLocks ht hq hw)

theorem inv_release (hpc : s.pc p = .release) : Inv s' := by
  simp only [advance, hpc] at hs
  cases hs
  exact h.holder hpc (at_self ..) rfl (others_at s p .idle) (.inr ⟨rfl, rfl⟩) (.inl ⟨rfl, rfl⟩)
    nofun nofun (fun _ => .inl) nofun nofun nofun fun _ _ _ _ => id

theorem inv_advance (hg : Prompt s (.run p)) : Inv s' := by
  cases hpc : s.pc p with
  | idle | asleep => simp [advance, hpc] at hs
  | acquire j => exact inv_acquire h hs hpc
  | store left n => exact inv_store h hs hpc
  | full left n => exact inv_full h hs hg hpc
  | wake left => exact inv_wake h hs hpc
  | poll n => exact inv_poll h hs hpc
  | test n => exact inv_test h hs hpc
  | copy n => exact inv_copy h hs hpc
  | sleep j => exact inv_sleep h hs hpc
  | both j => exact inv_both h hs hpc
  | doze j => exact inv_doze h hs hpc
  | close w => exact inv_close h hs hpc
  | shut w => exact inv_shut h hs hpc
  | finish c => exact inv_finish h hs hpc
  | release => exact inv_release h hs hpc

end

theorem inv_kill :
    Inv { s.at_ p
      (((s.pc p).woken .nread).woken .nwrite) with killed := Function.update s.killed p true } := by
  by_cases hasleep : ∃ j, s.pc p = .asleep j
  · obtain ⟨j, hpc⟩ := hasleep
    have hwoken : (((s.pc p).woken .nread).woken .nwrite) = .acquire j := by
      rw [hpc]
      cases j <;> rfl
    rw [hwoken]
    exact h.other hpc (at_self ..) rfl (others_at s p (.acquire j)) rfl (.inl ⟨rfl, rfl⟩)
      (.inl ⟨rfl, rfl⟩)
      (fun _ => .inl) nofun rfl (fun _ => rfl) nofun
  · have hsame : (((s.pc p).woken .nread).woken .nwrite) = s.pc p := by
      cases hpc : s.pc p with
      | asleep j => exact absurd ⟨j, hpc⟩ hasleep
      | _ => rfl
    rw [hsame, State.at_, Function.update_eq_self]
    exact ⟨⟨h.lock, h.ptable⟩, ⟨h.closed, h.closing⟩, ⟨h.full, h.tested, h.waits⟩⟩

end

variable [Fintype P]

theorem inv_next {a : Act P} (h : Inv s) (hg : Prompt s a) (hs : step s a = .next s') : Inv s' := by
  cases a with
  | call p j =>
    simp only [step] at hs
    split at hs <;> cases hs
    rename_i hidle
    refine h.other hidle.1 (at_self ..) rfl (others_at s p (.acquire j)) rfl (.inl ⟨rfl, rfl⟩)
      (.inl ⟨rfl, rfl⟩)
      (fun w hw => .inr ?_) nofun rfl (fun _ => rfl) nofun
    obtain rfl : w = (j.chan == .nwrite) := by simpa [Pc.uses] using hw
    exact hidle.2
  | pipeclose p w =>
    simp only [step] at hs
    split at hs <;> cases hs
    rename_i hidle
    refine h.other hidle.1 (at_self ..) rfl (others_at s p (.close w)) rfl (.inl ⟨rfl, rfl⟩)
      (.inl ⟨rfl, rfl⟩)
      nofun (fun w' hw => .inr ?_) rfl (fun _ => rfl) nofun
    obtain rfl : w = w' := by simpa [Pc.closes] using hw
    exact hidle.2.2
  | run p => exact inv_advance h hs hg
  | kill p =>
    simp only [step] at hs
    split at hs <;> cases hs
    exact inv_kill h

/-- Whoever sleeps on a pipe that nobody has locked has a reason to. -/
theorem asleep_of_reach {data : Fin PIPESIZE → UInt8} (h : Machine.Reach step Prompt (init data) s)
    (hl : s.lock = none) :
    (∀ q n, s.pc q = .asleep (.read n) → s.pipe.nread = s.pipe.nwrite ∧ s.pipe.writeopen = true) ∧
    ∀ q left, s.pc q = .asleep (.write left) → s.pipe.nwrite = s.pipe.nread + 512 ∧
    s.pipe.readopen = true := by
  have hinv : Inv s := h.inv (inv_init data) fun _ _ _ h hg hs => inv_next h hg hs
  have hcond : ∀ q j, s.pc q = .asleep j → Cond s.pipe j.chan := by
    intro q j hq
    refine (hinv.waits q j.chan (by simp [hq, Pc.waits])).resolve_right fun ⟨r, hr⟩ => ?_
    have := (hinv.lock r).mpr (Pc.holds_of_owes hr)
    rw [hl] at this
    cases this
  exact ⟨fun q n hq => hcond q _ hq, fun q left hq => hcond q _ hq⟩

end

/-- A reader goes to sleep. -/
def readerSleeps : List (Act (Fin 2)) := .call 0 (.read 1) :: List.replicate 6 (.run 0)

theorem asleep_of_reach_reader : ∃ s : State (Fin 2), Machine.Reach step Prompt (init fun _ => 0) s ∧
    s.pc 0 = .asleep (.read 1) ∧ s.pipe.nread = s.pipe.nwrite ∧ s.pipe.writeopen = true := by
  obtain ⟨s, hs, hs'⟩ := Machine.exists_reach step Prompt (init fun _ => 0) readerSleeps
    (fun s => decide (s.lock = none ∧ s.pc 0 = .asleep (.read 1))) true (by decide +kernel)
  obtain ⟨hl, hpc⟩ := of_decide_eq_true hs'
  exact ⟨s, hs, hpc, (asleep_of_reach hs hl).1 0 1 hpc⟩

/-- A writer fills the pipe and is killed before it wakes the reader, which sleeps on beside a full
pipe. -/
theorem killed_writer :
    ∃ s : State (Fin 2), Machine.Reach step (fun _ _ => True) (init fun _ => 0) s ∧ s.lock = none ∧
      s.pc 0 = .asleep (.read 1) ∧ s.pipe.nwrite = s.pipe.nread + 512 := by
  obtain ⟨s, hs, hs'⟩ := Machine.exists_reach step (fun _ _ => True) (init fun _ => 0)
    (readerSleeps ++ .call 1 (.write (List.replicate 513 7)) :: List.replicate 514 (.run 1) ++
      [.kill 1, .run 1, .run 1])
    (fun s => decide (s.lock = none ∧ s.pc 0 = .asleep (.read 1) ∧ s.pipe.nwrite = s.pipe.nread +
      512)) true
    (by decide +kernel)
  exact ⟨s, hs, of_decide_eq_true hs'⟩

end Xv6.Pipes.Wakeup
