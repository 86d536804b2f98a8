/-
# The multilevel feedback queue

The scheduler of proc.c with `MLFQ_SCHED`, one processor, and any `MLFQ_K`. It is the process table
of `ProcTable` with a level `qlvl`, a count of ticks `tq` and a priority for each slot, the process
that runs, and the clock. A timer interrupt is one action, as are a round of the scheduler and what
the running process does with `ptable.lock` held. `Mode` says where a process is in `trap`.

`tq` and `qlvl` are natural numbers. A process needs `4 * L + 2` ticks to leave level `L`, hence `2
* L ^ 2` ticks to get there, and there is a boost every 100 ticks: no `int` overflows (`Inv.small`).
-/
import Xv6.ProcTable

namespace Xv6.Mlfq

open Function (update update_apply)

/-- What is done to `tq`. -/
inductive Event where
  /-- `update_tq` -/
  | charge
  /-- `qlvl_down` -/
  | down
  /-- The level and the ticks are set to zero. -/
  | reset
  deriving DecidableEq

/-- What `struct proc` has for the scheduler. -/
structure Quantum where
  tq : ℕ
  qlvl : ℕ
  priority : Int32
  /-- What was done to `tq`, the last thing first. -/
  log : List Event
  deriving DecidableEq

namespace Quantum

/-- `update_tq` -/
def charge (x : Quantum) : Quantum := { x with tq := x.tq + 1, log := .charge :: x.log }

/-- `qlvl_down` -/
def down (x : Quantum) : Quantum := { x with tq := 0, qlvl := x.qlvl + 1, log := .down :: x.log }

/-- `p->tq = 0; p->qlvl = 0;` -/
def reset (x : Quantum) : Quantum := { x with tq := 0, qlvl := 0, log := .reset :: x.log }

end Quantum

/-- Where a process is. -/
inductive Mode where
  /-- In user code. A new process is here before it has run, too. -/
  | user
  /-- In a system call, with interrupts on. -/
  | sys
  /-- In `trap`, after the `yield`, on its way back to user code. -/
  | back
  /-- In `exit`, called with interrupts off. -/
  | off
  deriving DecidableEq

structure State (N : ℕ) where
  table : ProcTable.State N
  /-- `c->proc` -/
  cur : Option (Fin N)
  ticks : UInt32
  quantum : Fin N → Quantum
  mode : Fin N → Mode
  /-- The process sleeps on `&ticks`. -/
  onTicks : Fin N → Bool

inductive Act (N : ℕ) where
  /-- A round of the loop of the scheduler. -/
  | schedule
  /-- A timer interrupt. -/
  | timer
  /-- The running process enters a system call, or the trap `T_PRACTICE`, which is like one. -/
  | syscall
  /-- The running process calls `fork`, `exit`, `wait`, `kill` or `sleep`. -/
  | call (a : ProcTable.Act N)
  /-- The system call `yield` -/
  | yield_
  /-- The loop of the system call `sleep` -/
  | sleep_
  /-- `setpriority` finds the slot. -/
  | setpriority (p : Fin N) (priority : Int32)
  | sysret
  /-- The end of `trap`, after the `yield`. -/
  | trapret
  /-- Another interrupt in user code, or a fault there. -/
  | trap (fault : Bool)
  /-- Something else than the clock wakes a process. -/
  | wakeup (p : Fin N)

/-- An action of the table that the running process takes. -/
def Calls {N : ℕ} : ProcTable.Act N → Prop
  | .dispatch _ | .yield _ | .wakeup _ => False
  | _ => True

instance {N : ℕ} : ∀ a : ProcTable.Act N, Decidable (Calls a)
  | .dispatch _ | .yield _ | .wakeup _ => inferInstanceAs (Decidable False)
  | .fork _ | .forkFail _ | .setParent _ | .forkDone _ | .exit _ | .exitDone _ | .wait _
  | .waitLoop _ | .kill _ _ | .sleep _ =>
    inferInstanceAs (Decidable True)

section

variable {N : ℕ} {x : Quantum} {m : Mode} {a : Act N}

/-- The loop of the scheduler over the table, for one slot. -/
def better (K : ℕ) (s : State N) (pSelect : Option (Fin N)) (p : Fin N) : Option (Fin N) :=
  if (s.table.proc p).state ≠ .runnable ∨ (s.quantum p).qlvl = K then pSelect
  else
    match pSelect with
    | none => some p
    | some c =>
      if (s.quantum p).qlvl < (s.quantum c).qlvl then some p
      else if (s.quantum c).qlvl = (s.quantum p).qlvl then
        if (s.quantum c).tq = 0 ∧ (s.quantum c).priority < (s.quantum p).priority then some p
        else if (s.quantum c).tq = 0 ∧ (s.quantum p).tq ≠ 0 then some p
        else some c
      else some c

/-- The process that the scheduler chooses. -/
def select (K : ℕ) (s : State N) : Option (Fin N) := (List.finRange N).foldl (better K s) none

namespace State

def setQuantum (s : State N) (p : Fin N) (x : Quantum) :
    State N := { s with quantum := update s.quantum p x }

def setMode (s : State N) (p : Fin N) (x : Mode) :
    State N := { s with mode := update s.mode p x }

/-- Another state of the table; the scheduler goes on if the process does not run any more. -/
def setTable (s : State N) (t : ProcTable.State N) : State N :=
  { s with table := t, cur := s.cur.filter fun p => (t.proc p).state = .running }

/-- `swtch` to the process -/
def run (s : State N) (p : Fin N) : State N :=
  { s with table := s.table.set p { s.table.proc p with state := .running }, cur := some p }

def yield (s : State N) (p : Fin N) :
    State N := s.setTable (s.table.set p { s.table.proc p with state := .runnable })

/-- What `allocproc` does with the slot that it finds. -/
def newQuantum (s : State N) : ProcTable.Act N → State N
  | .fork _ =>
    match s.table.find fun y => y.state = .unused with
    | none => s
    | some np => (s.setQuantum np { (s.quantum np).reset with priority := 0 }).setMode np .user
  | _ => s

/-- `wakeup(&ticks)`, for one slot -/
def wokenProc (s : State N) (i : Fin N) : ProcTable.Proc N :=
  if (s.table.proc i).state = .sleeping ∧ (s.table.proc i).chan = some .other ∧ s.onTicks i = true then
    { s.table.proc i with state := .runnable }
  else s.table.proc i

/-- `wakeup(&ticks)` -/
def wakeTicks (s : State N) : State N := { s with table := { s.table with proc := s.wokenProc } }

/-- `update_tq`, if a process runs -/
def updateTq (s : State N) : State N :=
  match s.cur with
  | none => s
  | some p => s.setQuantum p (s.quantum p).charge

def priorityBoost (s : State N) : State N := { s with quantum := fun p => (s.quantum p).reset }

/-- The timer interrupt with `tickslock` held. -/
def tick (s : State N) : State N :=
  let s1 := { s with ticks := s.ticks + 1 }
  let s2 := s1.wakeTicks.updateTq
  if s2.ticks % 100 = 0 then s2.priorityBoost else s2

def qlvlDown (s : State N) (p : Fin N) : State N := s.setQuantum p (s.quantum p).down

/-- What `trap` does to the process that the timer has interrupted. -/
def preempt (s : State N) (p : Fin N) : State N :=
  let s := if (s.quantum p).tq ≥ (s.quantum p).qlvl * 4 + 2 then s.qlvlDown p else s
  let s := if s.mode p = .user then s.setMode p .back else s
  s.yield p

end State

/-- What the process table makes of the action. -/
def onTable [NeZero N] (s : State N) (a : ProcTable.Act N) : Outcome (State N) :=
  match ProcTable.step s.table a with
  | .blocked => .blocked
  | .panic msg => .panic msg
  | .next t => .next (s.setTable t)

/-- `exit`, called by `trap` -/
def exitTrap [NeZero N] (s : State N) (p : Fin N) (mode : Mode) : Outcome (State N) :=
  onTable (s.setMode p mode) (.exit p)

/-- `trap` at a timer interrupt, up to the return of `yield`. -/
def State.timer [NeZero N] (s : State N) : Outcome (State N) :=
  let s := s.tick
  match s.cur with
  | none => .next s
  | some p =>
    if (s.table.proc p).killed = true ∧ s.mode p = .user then exitTrap s p .off
    else if (s.table.proc p).state = .running then .next (s.preempt p)
    else .next s

/-- What the running process does in the mode. -/
def stepIn [NeZero N] (s : State N) (p : Fin N) : Mode → Act N → Outcome (State N)
  | .user, .syscall =>
    if (s.table.proc p).killed = true then exitTrap s p .sys else .next (s.setMode p .sys)
  | .user, .trap fault =>
    let s := if fault then { s with table := s.table.set p { s.table.proc p with killed := true } } else s
    if (s.table.proc p).killed = true then exitTrap s p .off else .next s
  | .back, .trapret =>
    if (s.table.proc p).killed = true then exitTrap s p .off else .next (s.setMode p .user)
  | .sys, .sysret =>
    if s.table.pc p = .user then
      if (s.table.proc p).killed = true then exitTrap s p .sys else .next (s.setMode p .user)
    else .blocked
  | .sys, .yield_ =>
    if s.table.pc p = .user then .next ((s.setQuantum p (s.quantum p).reset).yield p) else .blocked
  | .sys, .sleep_ =>
    if s.table.pc p = .user then
      onTable { s.setQuantum p
        (s.quantum p).reset with onTicks := update s.onTicks p true } (.sleep p)
    else .blocked
  | .sys, .setpriority q priority => .next (s.setQuantum q { s.quantum q with priority := priority })
  | .sys, .call a | .off, .call a =>
    if a.by_ = p ∧ Calls
      a then onTable { s.newQuantum
        a with onTicks := update s.onTicks p false } a else .blocked
  | _, _ => .blocked

/-- One action. Interrupts come in user code, in system calls, and when no process runs. -/
def step [NeZero N] (K : ℕ) (s : State N) (a : Act N) : Outcome (State N) :=
  match s.cur, a with
  | none, .schedule =>
    match select K s with
    | none => .next s
    | some p => .next (s.run p)
  | none, .timer => s.timer
  | some p, .timer => if s.mode p = .user ∨ s.mode p = .sys then s.timer else .blocked
  | _, .wakeup p => if s.onTicks p = true then .blocked else onTable s (.wakeup p)
  | none, _ => .blocked
  | some p, a => stepIn s p (s.mode p) a

/-- When the first process has been made. -/
def init [NeZero N] : State N where
  table := ProcTable.init
  cur := none
  ticks := 0
  quantum := fun _ => ⟨0, 0, 0, []⟩
  mode := fun _ => .user
  onTicks := fun _ => false

/-- The ticks charged to a process since it got to its level or its ticks were set to zero. -/
def charged : List Event → ℕ
  | .charge :: l => charged l + 1
  | _ => 0

/-! ### The scheduler and the process table -/

/-- The scheduler chooses a process that can run and is not at the last level. -/
theorem select_spec {K : ℕ} {s : State N} {p : Fin N} (h : select K s = some p) :
    (s.table.proc p).state = .runnable ∧ (s.quantum p).qlvl ≠ K := by
  have hfold : ∀ (l : List (Fin N)) (c : Option (Fin N)),
      (∀ q, c = some q → (s.table.proc q).state = .runnable ∧ (s.quantum q).qlvl ≠ K) →
      l.foldl (better K s) c = some p → (s.table.proc p).state = .runnable ∧ (s.quantum p).qlvl ≠ K := by
    intro l
    induction l with
    | nil =>
      intro c hc hp
      exact hc p hp
    | cons q l ih =>
      intro c hc hp
      apply ih _ _ hp
      intro r hr
      unfold better at hr
      split_ifs at hr with hq
      · exact hc r hr
      · have hq' : (s.table.proc q).state = .runnable ∧ (s.quantum q).qlvl ≠ K := by
          rw [not_or, not_not] at hq
          exact hq
        split at hr
        · cases hr
          exact hq'
        · rename_i c'
          have hcases : r = q ∨ r = c' := by
            split at hr
            · exact .inl (Option.some.inj hr).symm
            · split at hr
              · split at hr
                · exact .inl (Option.some.inj hr).symm
                · split at hr
                  · exact .inl (Option.some.inj hr).symm
                  · exact .inr (Option.some.inj hr).symm
              · exact .inr (Option.some.inj hr).symm
          rcases hcases with rfl | rfl
          · exact hq'
          · exact hc r rfl
  exact hfold _ none nofun h

section Table

variable {s t : ProcTable.State N} {p q : Fin N}

theorem running_of_set {y : ProcTable.Proc N} (h : ((s.set p y).proc q).state = .running)
    (hy : y.state = .running → (s.proc p).state = .running) : (s.proc q).state = .running := by
  rw [ProcTable.set_proc] at h
  split_ifs at h with hq
  · exact hq ▸ hy h
  · exact h

theorem running_of_alloc (h : ((s.alloc p).proc q).state = .running) : (s.proc q).state = .running := by
  unfold ProcTable.State.alloc at h
  split at h
  · exact h
  · exact running_of_set h nofun

theorem running_of_teardown {u : Fin N → ProcTable.Proc N}
    (h : (ProcTable.teardown p u q).state = .running) : (u q).state = .running := by
  unfold ProcTable.teardown at h
  split at h
  · cases h
  · exact h

theorem running_of_leave [NeZero N] (h : ((s.leave p).proc q).state = .running) :
    (s.proc q).state = .running := by
  classical
  rw [ProcTable.leave_state] at h
  split at h
  · cases h
  · split at h
    · cases h
    · exact h

theorem running_of_waitRound (h : ((s.waitRound p).proc q).state = .running) :
    (s.proc q).state = .running := by
  unfold ProcTable.State.waitRound at h
  split at h
  · rw [ProcTable.reap_proc] at h
    split at h
    · cases h
    · exact h
  · split at h
    · exact h
    · exact running_of_set h nofun

theorem running_of_kill {pid : Int32} (h : ((s.kill pid).2.proc q).state = .running) :
    (s.proc q).state = .running := by
  unfold ProcTable.State.kill at h
  split at h
  · exact h
  · refine running_of_set h fun hy => ?_
    simp only at hy
    split at hy
    · cases hy
    · exact hy

/-- Only the scheduler makes a process run. -/
theorem running_of_stepOf [NeZero N] {a : ProcTable.Act N} (hs : ProcTable.stepOf s a = .next t)
    (h : (t.proc q).state = .running) : (s.proc q).state = .running := by
  cases a with
  | fork p =>
    simp only [ProcTable.stepOf] at hs
    split at hs <;> cases hs
    exact running_of_alloc h
  | forkFail | forkDone | sleep =>
    simp only [ProcTable.stepOf] at hs
    split at hs <;> cases hs
    exact running_of_set h (by simp)
  | setParent p =>
    simp only [ProcTable.stepOf] at hs
    split at hs <;> cases hs
    exact running_of_set h id
  | exit p =>
    simp only [ProcTable.stepOf] at hs
    split at hs
    · split at hs <;> cases hs
      exact running_of_teardown h
    · cases hs
  | exitDone p =>
    simp only [ProcTable.stepOf] at hs
    split at hs <;> cases hs
    exact running_of_leave h
  | wait p =>
    simp only [ProcTable.stepOf] at hs
    split at hs <;> cases hs
    exact h
  | waitLoop p =>
    simp only [ProcTable.stepOf] at hs
    split at hs <;> cases hs
    exact running_of_set (running_of_waitRound h) id
  | kill p pid =>
    simp only [ProcTable.stepOf] at hs
    split at hs <;> cases hs
    exact running_of_kill h
  | yield p =>
    cases hs
    exact running_of_set h (by simp)
  | dispatch p | wakeup p => cases hs

end Table

/-! ### Every run

A process that does not run and is in user code has not run yet: one that the timer stops in user
code is in `trap`, and checks `killed` before it goes back. So a killed process in user code is new,
and has no ticks. -/

/-- What holds in every state, also in the middle of a timer interrupt. -/
structure Base (K : ℕ) (s : State N) : Prop where
  one : ∀ q, (s.table.proc q).state = .running ↔ s.cur = some q
  level : ∀ q, (s.quantum q).qlvl ≤ K
  running : ∀ q, s.cur = some q → (s.quantum q).qlvl < K
  others : ∀ q, s.cur ≠ some q →
    (s.quantum q).tq ≤ 4 * (s.quantum q).qlvl + 1 ∧ (s.mode q = .user → (s.quantum q).tq = 0)
  charged : ∀ q, (s.quantum q).tq = charged (s.quantum q).log
  small : ∀ q, 2 * (s.quantum q).qlvl ^ 2 + (s.quantum q).tq ≤ s.ticks.toNat % 100

structure Inv (K : ℕ) (s : State N) : Prop extends Base K s where
  tq : ∀ p, s.cur = some p → (s.quantum p).tq ≤ 4 * (s.quantum p).qlvl + 1
  fresh : ∀ p, s.cur = some p → s.mode p = .user → (s.table.proc p).killed = true → (s.quantum p).tq = 0

variable {K : ℕ} {s s' : State N} {p q : Fin N}

/-- What a quantum may be at any time. -/
structure Good (K : ℕ) (ticks : UInt32) (x : Quantum) : Prop where
  level : x.qlvl ≤ K
  tq : x.tq ≤ 4 * x.qlvl + 1
  charged : x.tq = charged x.log
  small : 2 * x.qlvl ^ 2 + x.tq ≤ ticks.toNat % 100

theorem good_reset (K : ℕ) (ticks : UInt32) (x : Quantum) : Good K ticks x.reset :=
  ⟨Nat.zero_le _, Nat.zero_le _, rfl, Nat.zero_le _⟩

theorem Inv.setQuantum (h : Inv K s) (hx : Good K s.ticks x) (hrun : s.cur = some p → x.qlvl < K)
    (hfresh : x.tq = 0 ∨ x.tq = (s.quantum p).tq) : Inv K (s.setQuantum p x) := by
  have hquantum :
    ∀ q, (s.setQuantum p x).quantum q =
      if q = p then x else s.quantum q := fun q => update_apply ..
  have hzero : (s.quantum p).tq = 0 → x.tq = 0 := fun h0 => hfresh.elim id fun hsame => hsame.trans h0
  refine ⟨⟨h.one, fun q => ?_, fun q hq => ?_, fun q hq => ?_, fun q => ?_, fun q => ?_⟩,
    fun q hq => ?_, fun q hq hm hk => ?_⟩ <;>
    rw [hquantum] <;> split
  · exact hx.level
  · exact h.level q
  · rename_i hqp
    exact hrun (hqp ▸ hq)
  · exact h.running q hq
  · rename_i hqp
    subst hqp
    exact ⟨hx.tq, fun hm => hzero ((h.others q hq).2 hm)⟩
  · exact h.others q hq
  · exact hx.charged
  · exact h.charged q
  · exact hx.small
  · exact h.small q
  · exact hx.tq
  · exact h.tq q hq
  · rename_i hqp
    subst hqp
    exact hzero (h.fresh q hq hm hk)
  · exact h.fresh q hq hm hk

theorem Base.setMode {x : Mode} (h : Base K s) (hx : s.cur ≠ some p → x = .user → (s.quantum p).tq = 0) :
    Base K (s.setMode p x) := by
  refine ⟨h.one, h.level, h.running, fun q hq => ?_, h.charged, h.small⟩
  refine ⟨(h.others q hq).1, fun hmode => ?_⟩
  by_cases hqp : q = p
  · subst hqp
    exact hx hq (by simpa [State.setMode] using hmode)
  · exact (h.others q hq).2 (by simpa [State.setMode, hqp] using hmode)

/-- The table changes, and no process begins to run. -/
theorem Base.setTable {t : ProcTable.State N} (h : Base K s)
    (hrun : ∀ q, (t.proc q).state = .running → (s.table.proc q).state = .running)
    (hcur : ∀ p, s.cur = some p → (t.proc p).state ≠ .running →
      (s.quantum p).tq ≤ 4 * (s.quantum p).qlvl + 1 ∧ (s.mode p = .user → (s.quantum p).tq = 0)) :
      Base K (s.setTable t) := by
  have hiff : ∀ q, (s.setTable t).cur = some q ↔ s.cur = some q ∧ (t.proc q).state = .running := by
    intro q
    rw [State.setTable, Option.filter_eq_some_iff]
    simp
  refine ⟨fun q => ?_, h.level, fun q hq => h.running q ((hiff q).mp hq).1, fun q hq => ?_,
    h.charged, h.small⟩
  · rw [hiff, ← h.one]
    exact ⟨fun hq => ⟨hrun q hq, hq⟩, And.right⟩
  · by_cases hsame : s.cur = some q
    · exact hcur q hsame fun hq' => hq ((hiff q).mpr ⟨hsame, hq'⟩)
    · exact h.others q hsame

theorem setQuantum_self (s : State N) (p : Fin N) : s.setQuantum p (s.quantum p) = s := by
  simp [State.setQuantum]

theorem setMode_self (s : State N) (p : Fin N) : s.setMode p (s.mode p) = s := by
  simp [State.setMode]

/-- The running process gives up the processor. -/
theorem Base.yield (h : Base K s) (hcur : s.cur = some p) (hlevel : x.qlvl ≤ K)
    (htq : x.tq ≤ 4 * x.qlvl + 1) (hcharged : x.tq = Mlfq.charged x.log)
    (hsmall : 2 * x.qlvl ^ 2 + x.tq ≤ s.ticks.toNat % 100) (hm : m = .user → x.tq = 0) :
    Inv K (((s.setQuantum p x).setMode p m).yield p) := by
  have hnone : (((s.setQuantum p x).setMode p m).yield p).cur = none := by
    simp [State.yield, State.setTable, State.setMode, State.setQuantum, hcur]
  have hquantum : ∀ q, (((s.setQuantum p x).setMode p m).yield p).quantum q =
    if q = p then x else s.quantum q := fun q =>
    update_apply ..
  have hmode : ∀ q, (((s.setQuantum p x).setMode p m).yield p).mode q =
    if q = p then m else s.mode q := fun q =>
    update_apply ..
  have hother : ∀ q, q ≠ p → s.cur ≠ some q := fun q hq h' => hq (Option.some.inj (h'.symm.trans hcur))
  refine ⟨⟨fun q => ?_, fun q => ?_, fun q hq => ?_, fun q _ => ?_, fun q => ?_, fun q => ?_⟩,
    fun q hq => ?_, fun q hq => ?_⟩
  · rw [hnone]
    refine ⟨fun hq => ?_, nofun⟩
    have hq' : ((s.table.set p { s.table.proc p with state := .runnable }).proc q).state = .running := hq
    rw [ProcTable.set_proc] at hq'
    split at hq'
    · cases hq'
    · rename_i hqp
      exact absurd ((h.one q).mp hq') (hother q hqp)
  · rw [hquantum]
    split
    · exact hlevel
    · exact h.level q
  · simp [hnone] at hq
  · rw [hquantum, hmode]
    split_ifs with hqp
    · exact ⟨htq, hm⟩
    · exact h.others q (hother q hqp)
  · rw [hquantum]
    split
    · exact hcharged
    · exact h.charged q
  · rw [hquantum]
    split
    · exact hsmall
    · exact h.small q
  · simp [hnone] at hq
  · simp [hnone] at hq

theorem Inv.tq_le (h : Inv K s) (q : Fin N) : (s.quantum q).tq ≤ 4 * (s.quantum q).qlvl + 1 := by
  by_cases hq : s.cur = some q
  · exact h.tq q hq
  · exact (h.others q hq).1

/-- The running process, in the kernel, does something to the table. -/
theorem Base.onTable [NeZero N] {a : ProcTable.Act N} (h : Base K s) (hcur : s.cur = some p)
    (hmode : s.mode p ≠ .user) (htq : (s.quantum p).tq ≤ 4 * (s.quantum p).qlvl + 1) (ha : Calls a)
    (hs : onTable s a = .next s') : Inv K s' := by
  unfold Mlfq.onTable at hs
  split at hs <;> cases hs
  rename_i t ht
  have hstep : ProcTable.stepOf s.table a = .next t := by
    cases a <;> simp only [ProcTable.step] at ht <;>
      first | exact ha.elim | (split at ht; exact ht; cases ht)
  have hone : ∀ q, s.cur = some q → q = p := fun q hq => Option.some.inj (hq.symm.trans hcur)
  have hbase : Base K (s.setTable t) := by
    refine h.setTable (fun q hq => running_of_stepOf hstep hq) fun q hq _ => ?_
    rw [hone q hq]
    exact ⟨htq, fun hm => absurd hm hmode⟩
  have hstay : ∀ q, (s.setTable t).cur = some q → q = p := fun q hq =>
    hone q (Option.filter_eq_some_iff.mp hq).1
  refine ⟨hbase, fun q hq => ?_, fun q hq hm => ?_⟩
  · exact hstay q hq ▸ htq
  · exact absurd (hstay q hq ▸ hm) hmode

theorem Base.exitTrap [NeZero N] (h : Base K s) (hcur : s.cur = some p) (hm : m ≠ .user)
    (htq : (s.quantum p).tq ≤ 4 * (s.quantum p).qlvl + 1) (hs : exitTrap s p m = .next s') :
    Inv K s' := by
  have hbase : Base K (s.setMode p m) := h.setMode fun hne => absurd hcur hne
  have hexit : Calls (.exit p) := trivial
  exact hbase.onTable hcur (by simpa [State.setMode] using hm) htq hexit hs

/-- The quantum of a process after `update_tq`. -/
def chargedQuantum (s : State N) (q : Fin N) : Quantum :=
  if s.cur = some q then (s.quantum q).charge else s.quantum q

theorem updateTq_eq (s : State N) : s.updateTq = { s with quantum := chargedQuantum s } := by
  unfold State.updateTq
  split
  · rename_i hcur
    have hsame : chargedQuantum s = s.quantum := funext fun q => by simp [chargedQuantum, hcur]
    rw [hsame]
  · rename_i p hcur
    have hquantum : update s.quantum p (s.quantum p).charge = chargedQuantum s := by
      funext q
      rw [chargedQuantum, hcur, update_apply]
      by_cases hq : q = p
      · simp [hq]
      · simp [hq, Ne.symm hq]
    rw [State.setQuantum, hquantum]

/-- What the timer does with `tickslock` held. -/
theorem tick_eq (s : State N) : s.tick = { s with
    ticks := s.ticks + 1
    table := { s.table with proc := s.wokenProc }
    quantum := fun q =>
      if (s.ticks + 1) % 100 = 0 then (chargedQuantum s q).reset else chargedQuantum s q } := by
  unfold State.tick
  simp only [updateTq_eq]
  split
  · rename_i hboost
    have hboost' : (s.ticks + 1) % 100 = 0 := hboost
    simp only [hboost', if_true]
    rfl
  · rename_i hboost
    have hboost' : ¬ (s.ticks + 1) % 100 = 0 := hboost
    simp only [hboost', if_false]
    rfl

theorem wokenProc_running (s : State N) (q : Fin N) :
    (s.wokenProc q).state = .running ↔ (s.table.proc q).state = .running := by
  unfold State.wokenProc
  split_ifs with h
  · simp [h.1]
  · rfl

theorem wokenProc_killed (s : State N) (q : Fin N) :
    (s.wokenProc q).killed = (s.table.proc q).killed := by
  unfold State.wokenProc
  split <;> rfl

/-- The clock goes on by one, or there is a boost. -/
theorem ticks_next (n : UInt32) (h : ¬ (n + 1) % 100 = 0) : (n + 1).toNat % 100 = n.toNat % 100 + 1 := by
  have hmod : (n + 1).toNat % 100 ≠ 0 := by
    intro h0
    apply h
    apply UInt32.toNat_inj.mp
    simpa using h0
  have hadd : (n + 1).toNat = (n.toNat + 1) % 2 ^ 32 := by simp
  have hlt := n.toNat_lt
  by_cases hwrap : n.toNat + 1 = 2 ^ 32
  · rw [hadd, hwrap] at hmod
    exact absurd rfl hmod
  · have hsucc : (n + 1).toNat = n.toNat + 1 := by
      rw [hadd]
      exact Nat.mod_eq_of_lt (by omega)
    rw [hsucc] at hmod ⊢
    omega

theorem charged_chargedQuantum (h : Base K s) (q : Fin N) :
    (chargedQuantum s q).tq = charged (chargedQuantum s q).log := by
  unfold chargedQuantum
  split
  · show (s.quantum q).tq + 1 = charged (s.quantum q).log + 1
    rw [h.charged]
  · exact h.charged q

theorem qlvl_chargedQuantum (s : State N) (q : Fin N) :
    (chargedQuantum s q).qlvl = (s.quantum q).qlvl := by
  unfold chargedQuantum
  split <;> rfl

theorem tq_chargedQuantum (s : State N) (q : Fin N) : (chargedQuantum s q).tq ≤ (s.quantum q).tq + 1 := by
  unfold chargedQuantum
  split
  · exact le_rfl
  · exact Nat.le_succ _

/-- In the middle of a timer interrupt. -/
theorem Inv.tick (h : Inv K s) (hK : 1 ≤ K) : Base K s.tick := by
  rw [tick_eq]
  refine ⟨fun q => (wokenProc_running s q).trans (h.one q), fun q => ?_, fun q hq => ?_, fun q hq =>
    ?_, fun q => ?_, fun q => ?_⟩ <;>
    simp only <;> split
  · exact Nat.zero_le _
  · exact qlvl_chargedQuantum s q ▸ h.level q
  · exact hK
  · exact qlvl_chargedQuantum s q ▸ h.running q hq
  · exact ⟨Nat.zero_le _, fun _ => rfl⟩
  · rw [chargedQuantum, if_neg hq]
    exact h.others q hq
  · rfl
  · exact charged_chargedQuantum h.toBase q
  · exact Nat.zero_le _
  · rename_i hboost
    rw [ticks_next _ hboost, qlvl_chargedQuantum]
    have := h.small q
    have := tq_chargedQuantum s q
    omega

/-- The process that the timer has interrupted. -/
theorem Inv.tick_cur (h : Inv K s) (hcur : s.cur = some p) :
    (s.tick.quantum p).tq ≤ 4 * (s.tick.quantum p).qlvl + 2 ∧
      ((s.tick.table.proc p).killed = true → s.mode p = .user → (s.tick.quantum p).tq ≤ 1) := by
  rw [tick_eq]
  have hle := tq_chargedQuantum s p
  have htq := h.tq p hcur
  simp only
  split
  · exact ⟨Nat.zero_le _, fun _ _ => Nat.zero_le _⟩
  · rw [qlvl_chargedQuantum]
    refine ⟨by omega, fun hkilled hmode => ?_⟩
    have := h.fresh p hcur hmode (wokenProc_killed s p ▸ hkilled)
    omega

/-- How the timer leaves the process that it has interrupted. -/
def preempted (x : Quantum) : Quantum := if x.tq ≥ x.qlvl * 4 + 2 then x.down else x

/-- The mode of a process that the timer has stopped. -/
def stopped (m : Mode) : Mode := if m = .user then .back else m

theorem preempt_eq (s : State N) (p : Fin N) :
    s.preempt p = ((s.setQuantum p (preempted (s.quantum p))).setMode p (stopped (s.mode p))).yield
    p := by
  have hquantum : (if (s.quantum p).tq ≥ (s.quantum p).qlvl * 4 + 2 then s.qlvlDown p else s) =
      s.setQuantum p (preempted (s.quantum p)) := by
    unfold preempted
    split
    · rfl
    · exact (setQuantum_self s p).symm
  have hmode : ∀ s : State N, (if s.mode p = .user then s.setMode p .back else s) =
    s.setMode p (stopped (s.mode p)) := by
    intro s
    unfold stopped
    split
    · rfl
    · exact (setMode_self s p).symm
  unfold State.preempt
  simp only [hquantum, hmode]
  rfl

/-- A process that leaves level `L` has had `2 * (L + 1) ^ 2` ticks since the last boost. -/
theorem preempted_spec {n : ℕ} (hlevel : x.qlvl < K)
    (hcharged : x.tq = charged x.log) (hsmall : 2 * x.qlvl ^ 2 + x.tq ≤ n) :
    (preempted x).qlvl ≤ K ∧ (preempted x).tq ≤ 4 * (preempted x).qlvl + 1 ∧
      (preempted x).tq = charged (preempted x).log ∧ 2 * (preempted x).qlvl ^ 2 + (preempted x).tq ≤
      n := by
  unfold preempted
  split_ifs with hdue
  · refine ⟨hlevel, Nat.zero_le _, rfl, ?_⟩
    calc 2 * (x.qlvl + 1) ^ 2 + 0 = 2 * x.qlvl ^ 2 + (x.qlvl * 4 + 2) := by ring
      _ ≤ 2 * x.qlvl ^ 2 + x.tq := Nat.add_le_add_left hdue _
      _ ≤ n := hsmall
  · exact ⟨hlevel.le, by omega, hcharged, hsmall⟩

section

variable (h : Inv K s)
include h

theorem inv_timer [NeZero N] (hK : 1 ≤ K) (hs : s.timer = .next s') : Inv K s' := by
  have hbase := h.tick hK
  have hcur' : s.tick.cur = s.cur := by rw [tick_eq]
  have hmode' : s.tick.mode = s.mode := by rw [tick_eq]
  unfold State.timer at hs
  simp only at hs
  split at hs
  · rename_i hnone
    cases hs
    exact ⟨hbase, fun q hq => by simp [hnone] at hq, fun q hq => by simp [hnone] at hq⟩
  · rename_i p hcur
    obtain ⟨htq, hkilled⟩ := h.tick_cur (hcur' ▸ hcur)
    split at hs
    · rename_i hexit
      have := hkilled hexit.1 (hmode' ▸ hexit.2)
      exact hbase.exitTrap hcur (by decide) (by omega) hs
    · split_ifs at hs with hstate
      · cases hs
        obtain ⟨hlevel, hle, hcharged, hsmall⟩ :=
          preempted_spec (hbase.running p hcur) (hbase.charged p) (hbase.small p)
        rw [preempt_eq]
        apply hbase.yield hcur hlevel hle hcharged hsmall
        unfold stopped
        split_ifs with hmode
        · nofun
        · exact fun hm => absurd hm hmode
      · exact absurd ((hbase.one p).mpr hcur) hstate

theorem Inv.setMode (hcur : s.cur = some p)
    (hm : m = .user → (s.table.proc p).killed = true → (s.quantum p).tq = 0) : Inv K (s.setMode p m) := by
  refine ⟨h.toBase.setMode fun hne => absurd hcur hne, h.tq, fun q hq hmode hkilled => ?_⟩
  obtain rfl : p = q := Option.some.inj (hcur.symm.trans hq)
  exact hm (by simpa [State.setMode] using hmode) hkilled

/-- `allocproc` takes a slot. -/
theorem Inv.newQuantum {a : ProcTable.Act N} (hcur : s.cur = some p) :
    Inv K (s.newQuantum a) ∧ (s.newQuantum a).cur = s.cur ∧ (s.newQuantum a).mode p = s.mode p := by
  unfold State.newQuantum
  split
  · split
    · exact ⟨h, rfl, rfl⟩
    · rename_i np hnp
      have hunused : (s.table.proc np).state = .unused := by simpa using ProcTable.find_spec hnp
      have hne : s.cur ≠ some np := fun hnp' => by
        rw [(h.one np).mpr hnp'] at hunused
        cases hunused
      have hpnp : p ≠ np := by
        rintro rfl
        exact hne hcur
      have hset : Inv K (s.setQuantum np { (s.quantum np).reset with priority := 0 }) :=
        h.setQuantum ⟨Nat.zero_le _, Nat.zero_le _, rfl, Nat.zero_le _⟩ (fun h' => absurd h' hne)
          (.inl rfl)
      refine ⟨⟨hset.toBase.setMode fun _ _ => ?_, hset.tq, fun q hq hm hk => ?_⟩, rfl, ?_⟩
      · simp [State.setQuantum, Quantum.reset]
      · obtain rfl : p = q := Option.some.inj (hcur.symm.trans hq)
        exact hset.fresh p hq (by simpa [State.setMode, hpnp] using hm) hk
      · simp [State.setMode, State.setQuantum, hpnp]
  · exact ⟨h, rfl, rfl⟩

theorem inv_call [NeZero N] {a : ProcTable.Act N} {f : Fin N → Bool} (hcur : s.cur = some p)
    (hmode : s.mode p ≠ .user) (ha : Calls a)
    (hs : onTable { s.newQuantum a with onTicks := f } a = .next s') : Inv K s' := by
  obtain ⟨hnew, hcur', hmode'⟩ := h.newQuantum hcur (a := a)
  have hbase : Base K { s.newQuantum a with onTicks := f } :=
    ⟨hnew.one, hnew.level, hnew.running, hnew.others, hnew.charged, hnew.small⟩
  exact hbase.onTable (hcur'.trans hcur) (hmode' ▸ hmode) (hnew.tq p (hcur'.trans hcur)) ha hs

theorem inv_stepIn [NeZero N] (hK : 1 ≤ K) (hcur : s.cur = some p)
    (hs : stepIn s p (s.mode p) a = .next s') : Inv K s' := by
  have htq := h.tq p hcur
  generalize hmode : s.mode p = m at hs
  unfold stepIn at hs
  split at hs
  · -- `syscall`
    split at hs
    · exact h.toBase.exitTrap hcur (by decide) htq hs
    · cases hs
      exact h.setMode hcur nofun
  · -- another trap
    rename_i fault
    cases fault with
    | false =>
      simp only [Bool.false_eq_true, if_false] at hs
      split at hs
      · exact h.toBase.exitTrap hcur (by decide) htq hs
      · cases hs
        exact h
    | true =>
      have hbase : Base K { s with table := s.table.set p { s.table.proc p with killed := true } } := by
        refine ⟨fun q => ?_, h.level, h.running, h.others, h.charged, h.small⟩
        have hstate : ((s.table.set p { s.table.proc p with killed := true }).proc q).state =
          (s.table.proc q).state := by
          rw [ProcTable.set_proc]
          split_ifs with hq
          · rw [hq]
          · rfl
        exact hstate ▸ h.one q
      simp only [if_true, ProcTable.set_proc] at hs
      exact hbase.exitTrap hcur (by decide) htq hs
  · -- `trapret`
    split_ifs at hs with hkilled
    · exact h.toBase.exitTrap hcur (by decide) htq hs
    · cases hs
      exact h.setMode hcur fun _ hk => absurd hk hkilled
  · -- `sysret`
    split at hs
    · split_ifs at hs with hkilled
      · exact h.toBase.exitTrap hcur (by decide) htq hs
      · cases hs
        exact h.setMode hcur fun _ hk => absurd hk hkilled
    · cases hs
  · -- `yield_`
    split at hs <;> cases hs
    have hreset := good_reset K s.ticks (s.quantum p)
    have := h.toBase.yield hcur hreset.level hreset.tq hreset.charged hreset.small (m := s.mode p)
      fun _ => rfl
    rwa [show s.mode p = (s.setQuantum p (s.quantum p).reset).mode p from rfl, setMode_self] at this
  · -- `sleep_`
    split at hs
    · have hset := h.setQuantum (p := p) (good_reset K s.ticks (s.quantum p)) (fun _ => hK) (.inl rfl)
      have hbase :
        Base K { s.setQuantum p
          (s.quantum p).reset with onTicks := update s.onTicks p true } :=
        ⟨hset.one, hset.level, hset.running, hset.others, hset.charged, hset.small⟩
      have hsleep : Calls (.sleep p) := trivial
      exact hbase.onTable hcur (by simp [State.setQuantum, hmode]) (hset.tq p hcur) hsleep hs
    · cases hs
  · -- `setpriority`
    cases hs
    rename_i q priority
    exact h.setQuantum ⟨h.level q, h.tq_le q, h.charged q, h.small q⟩ (h.running q) (.inr rfl)
  · split at hs
    · rename_i hcall
      exact inv_call h hcur (by simp [hmode]) hcall.2 hs
    · cases hs
  · split at hs
    · rename_i hcall
      exact inv_call h hcur (by simp [hmode]) hcall.2 hs
    · cases hs
  · cases hs

theorem inv_wakeup [NeZero N] (hs : onTable s (.wakeup q) = .next s') : Inv K s' := by
  unfold onTable at hs
  split at hs <;> cases hs
  rename_i t ht
  simp only [ProcTable.step] at ht
  split at ht <;> cases ht
  rename_i hsleep
  have hcur : s.cur ≠ some q := fun hq => by
    rw [(h.one q).mpr hq] at hsleep
    cases hsleep.1
  have hsame : ∀ p, s.cur = some p → (s.table.set q { s.table.proc q with state := .runnable }).proc
    p = s.table.proc p := by
    intro p hp
    rw [ProcTable.set_proc, if_neg]
    rintro rfl
    exact hcur hp
  have hcur' : ∀ p, (s.setTable (s.table.set q { s.table.proc q with state := .runnable })).cur =
    some p → s.cur = some p :=
    fun p hp => (Option.filter_eq_some_iff.mp hp).1
  refine ⟨h.toBase.setTable (fun r hr => running_of_set hr (by simp)) fun p hp hne => ?_,
    fun p hp => h.tq p (hcur' p hp),
    fun p hp hm hk => h.fresh p (hcur' p hp) hm ?_⟩
  · rw [hsame p hp] at hne
    exact absurd ((h.one p).mpr hp) hne
  · exact hsame p (hcur' p hp) ▸ hk

theorem inv_run (hcur : s.cur = none) (hp : (s.quantum p).qlvl ≠ K) : Inv K (s.run p) := by
  have hcur' : ∀ q, (s.run p).cur = some q → p = q := fun q hq => Option.some.inj hq
  refine ⟨⟨fun q => ?_, h.level, fun q hq => ?_, fun q _ => h.others q (by simp [hcur]), h.charged,
    h.small⟩, fun q _ => h.tq_le q,
    fun q _ hm _ => (h.others q (by simp [hcur])).2 hm⟩
  · show ((s.table.set p _).proc q).state = .running ↔ some p = some q
    rw [ProcTable.set_proc]
    split_ifs with hq
    · simp [hq]
    · rw [h.one q, hcur]
      simpa using Ne.symm hq
  · obtain rfl := hcur' q hq
    exact lt_of_le_of_ne (h.level p) hp

theorem inv_next [NeZero N] (hK : 1 ≤ K) (hs : step K s a = .next s') : Inv K s' := by
  unfold step at hs
  split at hs
  · rename_i hcur
    split at hs <;> cases hs
    · exact h
    · rename_i p hp
      exact inv_run h hcur (select_spec hp).2
  · exact inv_timer h hK hs
  · split at hs
    · exact inv_timer h hK hs
    · cases hs
  · split at hs
    · cases hs
    · exact inv_wakeup h hs
  · cases hs
  · rename_i hcur _ _
    exact inv_stepIn h hK hcur hs

end

theorem inv_init [NeZero N] : Inv K (init : State N) := by
  refine ⟨⟨fun q => ?_, fun q => Nat.zero_le _, nofun, fun q _ => ⟨Nat.zero_le _, fun _ => rfl⟩,
    fun q => rfl,
    fun q => Nat.zero_le _⟩, nofun, nofun⟩
  refine ⟨fun hq => ?_, nofun⟩
  simp only [init, ProcTable.init] at hq
  split at hq <;> cases hq

/-! ### Demotion -/

theorem onTable_quantum [NeZero N] {a : ProcTable.Act N} (hs : onTable s a = .next s') :
    s'.quantum = s.quantum := by
  unfold onTable at hs
  split at hs <;> cases hs
  rfl

theorem setQuantum_qlvl_le (hx : x.qlvl ≤ (s.quantum p).qlvl) (q : Fin N) :
    ((s.setQuantum p x).quantum q).qlvl ≤ (s.quantum q).qlvl := by
  have hquantum :
    (s.setQuantum p x).quantum q = if q = p then x else s.quantum q := update_apply ..
  rw [hquantum]
  split_ifs with hq
  · rwa [hq]
  · exact le_rfl

theorem newQuantum_qlvl_le (s : State N) (a : ProcTable.Act N) (q : Fin N) :
    ((s.newQuantum a).quantum q).qlvl ≤ (s.quantum q).qlvl := by
  unfold State.newQuantum
  split
  · split
    · exact le_rfl
    · exact setQuantum_qlvl_le (Nat.zero_le _) q
  · exact le_rfl

/-- No level goes up but at a timer interrupt. -/
theorem stepIn_qlvl_le [NeZero N] (hs : stepIn s p m a = .next s') (q : Fin N) :
    (s'.quantum q).qlvl ≤ (s.quantum q).qlvl := by
  have hexit : ∀ {s : State N} {m : Mode}, exitTrap s p m = .next s' → (s'.quantum q).qlvl ≤
    (s.quantum q).qlvl := by
    intro s m h
    rw [onTable_quantum h]
    exact le_rfl
  unfold stepIn at hs
  split at hs
  · split at hs
    · exact hexit hs
    · cases hs
      exact le_rfl
  · rename_i fault
    cases fault <;> simp only [Bool.false_eq_true, if_false, if_true] at hs <;> split at hs
    · exact hexit hs
    · cases hs
      exact le_rfl
    · exact (onTable_quantum hs) ▸ le_rfl
    · cases hs
      exact le_rfl
  · split at hs
    · exact hexit hs
    · cases hs
      exact le_rfl
  · split at hs
    · split at hs
      · exact hexit hs
      · cases hs
        exact le_rfl
    · cases hs
  · split at hs <;> cases hs
    exact setQuantum_qlvl_le (Nat.zero_le _) q
  · split at hs
    · rw [onTable_quantum hs]
      exact setQuantum_qlvl_le (Nat.zero_le _) q
    · cases hs
  · rename_i r priority
    cases hs
    exact setQuantum_qlvl_le (p := r) (x := { s.quantum r with priority := priority }) le_rfl q
  · split at hs
    · rw [onTable_quantum hs]
      exact newQuantum_qlvl_le s _ q
    · cases hs
  · split at hs
    · rw [onTable_quantum hs]
      exact newQuantum_qlvl_le s _ q
    · cases hs
  · cases hs

theorem step_qlvl_le [NeZero N] (ha : a ≠ .timer) (hs : step K s a = .next s') (q : Fin N) :
    (s'.quantum q).qlvl ≤ (s.quantum q).qlvl := by
  unfold step at hs
  split at hs
  · split at hs <;> cases hs <;> exact le_rfl
  · exact absurd rfl ha
  · exact absurd rfl ha
  · split at hs
    · cases hs
    · rw [onTable_quantum hs]
  · cases hs
  · exact stepIn_qlvl_le hs q

theorem tick_cases (s : State N) (q : Fin N) : (s.tick.quantum q).qlvl = (s.quantum q).qlvl ∨
    (s.tick.quantum q).qlvl = 0 ∧ (s.tick.quantum q).tq = 0 := by
  rw [tick_eq]
  simp only
  split
  · exact .inr ⟨rfl, rfl⟩
  · exact .inl (qlvl_chargedQuantum s q)

/-- What a timer interrupt leaves. -/
theorem timer_quantum [NeZero N] (h : Inv K s) (hs : s.timer = .next s') (q : Fin N) :
    s'.quantum q = s.tick.quantum q ∧ (s.cur = some q → (s.tick.table.proc q).killed = true ∧
      s.mode q = .user) ∨ s.cur = some q ∧ s'.quantum q = preempted (s.tick.quantum q) := by
  have hcur' : s.tick.cur = s.cur := by rw [tick_eq]
  have hmode' : s.tick.mode = s.mode := by rw [tick_eq]
  have hrun : ∀ p, s.cur = some p → (s.tick.table.proc p).state = .running := by
    intro p hp
    rw [tick_eq]
    exact (wokenProc_running s p).mpr ((h.one p).mpr hp)
  unfold State.timer at hs
  simp only [hcur', hmode'] at hs
  split at hs
  · rename_i hcur
    cases hs
    exact .inl ⟨rfl, fun hq => by simp [hcur] at hq⟩
  · rename_i p hcur
    split at hs
    · rename_i hexit
      refine .inl ⟨congrFun (onTable_quantum hs) q, fun hq => ?_⟩
      rw [hcur] at hq
      exact Option.some.inj hq ▸ hexit
    · rw [if_pos (hrun p hcur)] at hs
      cases hs
      rw [preempt_eq]
      by_cases hq : q = p
      · subst hq
        exact .inr ⟨hcur, Function.update_self ..⟩
      · refine .inl ⟨Function.update_of_ne hq _ _, fun hq' => ?_⟩
        rw [hcur] at hq'
        exact absurd (Option.some.inj hq').symm hq

/-- A process leaves its level, for the next one, at the timer interrupt that charges it the last of
its ticks there. -/
theorem raised_iff [NeZero N] (h : Inv K s) (hK : 1 ≤ K) (hs : step K s a = .next s')
    (q : Fin N) : (s'.quantum q).qlvl ≤ (s.quantum q).qlvl + 1 ∧
    ((s.quantum q).qlvl < (s'.quantum q).qlvl ↔
      a = .timer ∧ s.cur = some q ∧ charged (s.tick.quantum q).log = 4 * (s.quantum q).qlvl + 2) := by
  by_cases ha : a = .timer
  · subst ha
    have htimer : s.timer = .next s' := by
      unfold step at hs
      split at hs
      all_goals first | exact hs | (split at hs; exact hs; cases hs) | simp_all
    have htick := tick_cases s q
    rw [← (h.tick hK).charged q]
    rcases timer_quantum h htimer q with ⟨hsame, hkilled⟩ | ⟨hcur, hpre⟩
    · rw [hsame]
      refine ⟨by omega, fun hlt => by omega, fun ⟨_, hcur, hdue⟩ => ?_⟩
      -- a killed process in user code is new
      have := (h.tick_cur hcur).2 (hkilled hcur).1 (hkilled hcur).2
      omega
    · obtain ⟨htq, -⟩ := h.tick_cur hcur
      rw [hpre]
      unfold preempted
      split_ifs with hdue
      · -- there was no boost, as the process has ticks
        have hlevel : (s.tick.quantum q).qlvl = (s.quantum q).qlvl :=
          htick.resolve_right fun h0 => by omega
        show (s.tick.quantum q).qlvl + 1 ≤ _ ∧ (_ < (s.tick.quantum q).qlvl + 1 ↔ _)
        rw [hlevel] at hdue htq ⊢
        exact ⟨le_rfl, fun _ => ⟨rfl, hcur, by omega⟩, fun _ => Nat.lt_succ_self _⟩
      · refine ⟨by omega, fun hlt => by omega, fun ⟨_, _, hfull⟩ => absurd hdue ?_⟩
        omega
  · have := step_qlvl_le ha hs q
    exact ⟨by omega, fun hlt => by omega, fun hq => absurd hq.1 ha⟩

/-- In every state: a level is at most `MLFQ_K`, that of the running process is less, and a process
has fewer ticks than its level allows; all these numbers are small. A process is demoted exactly
when it has been charged the ticks of its level. -/
theorem levels_of_reach [NeZero N] (hK : 1 ≤ K) (h : Machine.Reach (step K) (fun _ _ => True) init s) :
    (∀ q, (s.quantum q).qlvl ≤ K ∧ (s.quantum q).tq ≤ 4 * (s.quantum q).qlvl + 1 ∧
      2 * (s.quantum q).qlvl ^ 2 + (s.quantum q).tq < 100) ∧
      (∀ q, (s.table.proc q).state = .running → (s.quantum q).qlvl < K) ∧
        ∀ a s', step K s a = .next s' → ∀ q, (s'.quantum q).qlvl ≤ (s.quantum q).qlvl + 1 ∧
          ((s.quantum q).qlvl < (s'.quantum q).qlvl ↔
            a = .timer ∧ s.cur = some q ∧ charged (s.tick.quantum q).log = 4 * (s.quantum q).qlvl +
            2) := by
  have hinv : Inv K s := h.inv (I := Inv K) inv_init fun _ _ _ h _ hs => inv_next h hK hs
  refine ⟨fun q => ⟨hinv.level q, hinv.tq_le q, ?_⟩, fun q hq => hinv.running q ((hinv.one q).mp hq),
    fun a s' hs q => raised_iff hinv hK hs q⟩
  exact (hinv.small q).trans_lt (Nat.mod_lt _ (by decide))

/-- The first process is charged two ticks. -/
def twoTicks : List (Act 64) := [.schedule, .timer, .schedule, .trapret, .timer]

theorem levels_of_reach_twoTicks : ∃ s : State 64, Machine.Reach (step 5) (fun _ _ => True) init s ∧
    (s.quantum 0).qlvl = 1 ∧ (s.quantum 0).tq = 0 ∧ (s.quantum 0).tq ≤ 4 * (s.quantum 0).qlvl + 1 := by
  obtain ⟨s, hs, hs'⟩ := Machine.exists_reach (step 5) (fun _ _ => True) (init : State 64) twoTicks
    (fun s => decide ((s.quantum 0).qlvl = 1 ∧ (s.quantum 0).tq = 0)) true (by decide +kernel)
  obtain ⟨hlevel, htq⟩ := of_decide_eq_true hs'
  exact ⟨s, hs, hlevel, htq, ((levels_of_reach (by decide) hs).1 0).2.1⟩

end

end Xv6.Mlfq
