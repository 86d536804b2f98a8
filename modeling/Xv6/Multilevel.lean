/-
# The multilevel scheduler

The MULTILEVEL build of `scheduler`, on any number of processors, over the process table of
`ProcTable`. A scheduler holds `ptable.lock` from `acquire` to `release`, but for the time in which
a process that it has switched to runs: that process releases the lock, and takes it again before it
switches back. So a pass over the table is interleaved with all that processes do, up to the moment
at which it has an odd process to run: if it has run no even one, nobody else has had the lock since
the pass began (`Best`).

`p->pid % 2 == 1` is false of a negative odd pid, which `allocproc` gives out after 2³¹ − 1 calls of
`fork`. Such a process is passed over, and never run (`negative_pid`).
-/
import Xv6.ProcTable

namespace Xv6.Multilevel

open ProcTable (ProcState)
open Function (update_self)

/-- Where a processor is. -/
inductive Cpu (N : ℕ) where
  /-- Before `acquire` -/
  | idle
  /-- In the loop over the table, before slot `i`, with the lock. -/
  | scan (i : ℕ) (procOdd : Option (Fin N)) (evenprocExist : Bool)
  /-- Running `p`, which the loop has come to. -/
  | even (p : Fin N) (procOdd : Option (Fin N))
  /-- Running `proc_odd`. -/
  | odd (p : Fin N)
  deriving DecidableEq

/-- `c->proc` -/
def Cpu.proc {N : ℕ} : Cpu N → Option (Fin N)
  | .even p _ | .odd p => some p
  | _ => none

/-- What the loop finds in a slot. -/
structure Visit (N : ℕ) where
  slot : Fin N
  state : ProcState
  pid : Int32
  deriving DecidableEq

/-- A pass over the table: what it found, and what it ran. -/
structure Pass (N : ℕ) where
  visits : List (Visit N)
  ran : List (Fin N)
  deriving DecidableEq

structure State (N C : ℕ) where
  table : ProcTable.State N
  cpu : Fin C → Cpu N
  /-- The scheduler that has `ptable.lock`. -/
  lock : Option (Fin C)
  /-- The pass that each processor is in. -/
  pass : Fin C → Pass N
  /-- The passes that have ended. -/
  log : List (Pass N)

inductive Act (N C : ℕ) where
  | acquire (c : Fin C)
  /-- A round of the loop, or what comes after the last one. -/
  | look (c : Fin C)
  /-- A process, or an interrupt, does something to the table. -/
  | proc (a : ProcTable.Act N)

section

variable {N C : ℕ} {x : Int32} {q : Fin N} {o' : Option (Fin N)} {t : ProcTable.State N}
  {a : ProcTable.Act N}

/-- What `fork` does without the lock. -/
def Unlocked : ProcTable.Act N → Prop
  | .forkFail _ | .setParent _ => True
  | _ => False

instance : ∀ a : ProcTable.Act N, Decidable (Unlocked a)
  | .forkFail _ | .setParent _ => inferInstanceAs (Decidable True)
  | .fork _ | .forkDone _ | .exit _ | .exitDone _ | .wait _ | .waitLoop _ | .kill _ _ | .dispatch _
  | .yield _ | .sleep _ | .wakeup _ =>
    inferInstanceAs (Decidable False)

namespace State

def at_ (s : State N C) (c : Fin C) (x : Cpu N) : State N C := { s with cpu := Function.update s.cpu c x }

def setPass (s : State N C) (c : Fin C) (P : Pass N) : State N C :=
  { s with pass := Function.update s.pass c P }

/-- The loop has come to `p`. -/
def visit (s : State N C) (c : Fin C) (p : Fin N) : State N C :=
  s.setPass c
    { s.pass c with visits := (s.pass c).visits ++ [⟨p, (s.table.proc p).state, (s.table.proc p).pid⟩] }

/-- `p->state = RUNNING; swtch(&(c->scheduler), p->context);` -/
def dispatch (s : State N C) (c : Fin C) (p : Fin N) (x : Cpu N) : State N C :=
  { (s.setPass c { s.pass c with ran := (s.pass c).ran ++ [p] }).at_ c x with
    table := s.table.set p { s.table.proc p with state := .running }
    lock := none }

def release (s : State N C) (c : Fin C) : State N C :=
  { s.at_ c .idle with lock := none, log := s.log ++ [s.pass c] }

/-- A round of the loop, at slot `p`. -/
def round (s : State N C) (c : Fin C) (p : Fin N) (procOdd : Option (Fin N))
    (evenprocExist : Bool) : State N C :=
  if (s.table.proc p).state ≠ .runnable then s.at_ c (.scan (p + 1) procOdd evenprocExist)
  else if (s.table.proc p).pid % 2 = 0 then s.dispatch c p (.even p procOdd)
  else if (s.table.proc p).pid % 2 = 1 then
    match procOdd with
    | none => s.at_ c (.scan (p + 1) (some p) evenprocExist)
    | some q =>
      if (s.table.proc q).pid > (s.table.proc p).pid then s.at_ c (.scan (p + 1) (some p) evenprocExist)
      else s.at_ c (.scan (p + 1) (some q) evenprocExist)
  else s.at_ c (.scan (p + 1) procOdd evenprocExist)

/-- After the loop. -/
def finish (s : State N C) (c : Fin C) (procOdd : Option (Fin N)) (evenprocExist : Bool) : State N C :=
  match procOdd with
  | some q => if evenprocExist = false then s.dispatch c q (.odd q) else s.release c
  | none => s.release c

/-- The scheduler goes on, with the lock, when `c->proc` has switched back. -/
def resume (s : State N C) (c : Fin C) : State N C :=
  match s.cpu c with
  | .even p procOdd => { s.at_ c (.scan (p + 1) procOdd true) with lock := some c }
  | .odd _ => s.release c
  | _ => s

/-- The processor that runs `p`. -/
def cpuOf (s : State N C) (p : Fin N) : Option (Fin C) := (List.finRange C).find? fun c =>
    (s.cpu c).proc = some p

/-- The process has done something; unless it still runs, it has called `sched`. -/
def switched (s : State N C) (p : Fin N) : State N C :=
  if (s.table.proc p).state = .running then s
  else
    match s.cpuOf p with
    | some c => s.resume c
    | none => s

end State

/-- The table after an action of a process, or of an interrupt. -/
def onTable [NeZero N] (s : State N C) (a : ProcTable.Act N) : Outcome (State N C) :=
  match ProcTable.step s.table a with
  | .blocked => .blocked
  | .panic msg => .panic msg
  | .next t => .next { s with table := t }

def step [NeZero N] (s : State N C) : Act N C → Outcome (State N C)
  | .acquire c =>
    if s.cpu c = .idle ∧ s.lock = none then
      .next { (s.setPass c ⟨[], []⟩).at_ c (.scan 0 none false) with lock := some c }
    else .blocked
  | .look c =>
    match s.cpu c with
    | .scan i procOdd evenprocExist =>
      if h : i < N then .next ((s.visit c ⟨i, h⟩).round c ⟨i, h⟩ procOdd evenprocExist)
      else .next (s.finish c procOdd evenprocExist)
    | _ => .blocked
  | .proc (.dispatch _) => .blocked
  | .proc (.wakeup p) => if s.lock = none then onTable s (.wakeup p) else .blocked
  | .proc a =>
    if s.lock = none ∨ Unlocked a then
      match onTable s a with
      | .next s' => .next (s'.switched a.by_)
      | o => o
    else .blocked

/-- When the first process has been made. -/
def init [NeZero N] : State N C where
  table := ProcTable.init
  cpu := fun _ => .idle
  lock := none
  pass := fun _ => ⟨[], []⟩
  log := []

def Act.forks : Act N C → Bool
  | .proc a => a.forks
  | _ => false

/-- `fork` is called fewer than `n` times. -/
abbrev Few (n : ℕ) : State N C → Act N C → Prop := Machine.Seldom Act.forks (·.table.forks) n

/-- The pass has come to every slot, and has run exactly once each process with an even pid that it
found `RUNNABLE`. -/
structure Pass.Ok (P : Pass N) : Prop where
  all : P.visits.map Visit.slot = List.finRange N
  once : ∀ v ∈ P.visits, v.state = .runnable → Even v.pid.toInt → P.ran.count v.slot = 1

/-- What the scheduler runs, and what its passes have done. -/
structure Dispatches [NeZero N] (s : State N C) : Prop where
  odd : ∀ c s', step s (.look c) = .next s' → ∀ p, (s'.cpu c).proc = some p →
    Odd (s.table.proc p).pid.toInt →
    ∀ q, (s.table.proc q).state = .runnable →
      ¬Even (s.table.proc q).pid.toInt ∧
        (Odd (s.table.proc q).pid.toInt → (s.table.proc p).pid ≤ (s.table.proc q).pid)
  now : ∀ c, ∀ v ∈ (s.pass c).visits, v.state = .runnable → Even v.pid.toInt →
    (s.pass c).ran.count v.slot = 1
  pass : ∀ P ∈ s.log, P.Ok

/-! ### Remainders -/

theorem toInt_mod_two (x : Int32) : (x % 2).toInt = x.toInt.tmod 2 := by
  rw [Int32.toInt_mod]
  rfl

theorem mod_two_eq_zero : x % 2 = 0 ↔ Even x.toInt := by
  rw [← Int32.toInt_inj, toInt_mod_two, Int.even_iff]
  show x.toInt.tmod 2 = 0 ↔ _
  rw [Int.tmod_eq_emod]
  split <;> omega

theorem mod_two_eq_one : x % 2 = 1 ↔ Odd x.toInt ∧ 0 < x.toInt := by
  rw [← Int32.toInt_inj, toInt_mod_two, Int.odd_iff]
  show x.toInt.tmod 2 = 1 ↔ _
  rw [Int.tmod_eq_emod]
  split <;> omega

/-! ### The pass -/

/-- A pass that has come to the first `n` slots. -/
structure Pass.Upto (P : Pass N) (n : ℕ) : Prop where
  visits : P.visits.map Visit.slot = (List.finRange N).take n
  once : ∀ v ∈ P.visits, v.state = .runnable → Even v.pid.toInt → P.ran.count v.slot = 1
  ran : ∀ p ∈ P.ran, p.val < n

theorem take_finRange_succ (p : Fin N) :
    (List.finRange N).take (p + 1) = (List.finRange N).take p ++ [p] := by
  rw [List.take_add_one, List.getElem?_eq_getElem (by simp)]
  simp

theorem mem_take_finRange {p : Fin N} (h : q ∈ (List.finRange N).take p) : q.val < p.val := by
  obtain ⟨i, hi, rfl⟩ := List.mem_take_iff_getElem.mp h
  simp at hi ⊢
  omega

namespace Pass.Upto

variable {P : Pass N} {p : Fin N} {v : Visit N}

theorem slot_lt (h : P.Upto p) (hv : v ∈ P.visits) : v.slot.val < p.val := by
  apply mem_take_finRange
  rw [← h.visits]
  exact List.mem_map_of_mem hv

/-- The loop goes on without running what it has found. -/
theorem skip (h : P.Upto p) (hslot : v.slot = p) (hv : v.state = .runnable → ¬Even v.pid.toInt) :
    Pass.Upto ⟨P.visits ++ [v], P.ran⟩ (p + 1) where
  visits := by
    rw [List.map_append, h.visits, take_finRange_succ, List.map_singleton, hslot]
  once u hu hrun heven := by
    rcases List.mem_append.mp hu with hold | hnew
    · exact h.once u hold hrun heven
    · rw [List.mem_singleton.mp hnew] at hrun heven
      exact absurd heven (hv hrun)
  ran q hq := (h.ran q hq).trans (Nat.lt_succ_self _)

/-- The loop runs what it has found. -/
theorem run (h : P.Upto p) (hslot : v.slot = p) : Pass.Upto ⟨P.visits ++ [v], P.ran ++ [p]⟩ (p + 1) where
  visits := by
    rw [List.map_append, h.visits, take_finRange_succ, List.map_singleton, hslot]
  once u hu hrun heven := by
    rw [List.count_append, List.count_singleton]
    rcases List.mem_append.mp hu with hold | hnew
    · have hne : p ≠ u.slot := fun heq => absurd (h.slot_lt hold) (by rw [heq]; exact lt_irrefl _)
      rw [h.once u hold hrun heven, if_neg (by simpa using hne)]
    · have hnone : P.ran.count p = 0 := List.count_eq_zero.mpr fun hp => lt_irrefl _ (h.ran p hp)
      rw [List.mem_singleton.mp hnew, hslot, hnone, if_pos (by simp)]
  ran q hq := by
    rcases List.mem_append.mp hq with hold | hnew
    · exact (h.ran q hold).trans (Nat.lt_succ_self _)
    · rw [List.mem_singleton.mp hnew]
      exact Nat.lt_succ_self _

theorem ok (h : P.Upto N) : P.Ok where
  all := by
    rw [h.visits, List.take_of_length_le (by simp)]
  once := h.once

/-- A pass that has run nothing may end with any process. -/
theorem ok_odd (h : P.Upto N) (hran : P.ran = []) (q : Fin N) : Pass.Ok ⟨P.visits, P.ran ++ [q]⟩ where
  all := h.ok.all
  once u hu hrun heven := by
    have := h.once u hu hrun heven
    rw [hran, List.count_nil] at this
    cases this

end Pass.Upto

/-! ### Every run -/

/-- No process in the first `i` slots is `RUNNABLE` with an even pid, and `proc_odd` has the
smallest pid of those that are. -/
structure Best (t : ProcTable.State N) (i : ℕ) (procOdd : Option (Fin N)) : Prop where
  before : ∀ j : Fin N, j.val < i → (t.proc j).state = .runnable →
    Odd (t.proc j).pid.toInt ∧ ∃ q, procOdd = some q ∧ (t.proc q).pid ≤ (t.proc j).pid
  best : ∀ q, procOdd = some q → (t.proc q).state = .runnable

/-- How far the pass of a processor is. -/
def Cpu.At (P : Pass N) : Cpu N → Prop
  | .idle => ∀ v ∈ P.visits, v.state = .runnable → Even v.pid.toInt → P.ran.count v.slot = 1
  | .scan i _ evenprocExist => i ≤ N ∧ P.Upto i ∧ (evenprocExist = false → P.ran = [])
  | .even p _ => P.Upto (p + 1)
  | .odd _ => P.Ok

variable [NeZero N]

structure Inv (s : State N C) : Prop where
  table : ProcTable.Inv s.table
  lock : ∀ c i o e, s.cpu c = .scan i o e → s.lock = some c
  best : ∀ c i o, s.cpu c = .scan i o false → Best s.table i o
  pass : ∀ c, (s.cpu c).At (s.pass c)
  log : ∀ P ∈ s.log, P.Ok

variable {s s' : State N C} {c : Fin C} {p : Fin N} {i : ℕ} {o : Option (Fin N)} {e : Bool}

theorem inv_init : Inv (init : State N C) where
  table := ProcTable.inv_init
  lock c i o e h := by cases h
  best c i o h := by cases h
  pass c v hv := by cases hv
  log P hP := by cases hP

/-- No other scheduler is in its loop. -/
theorem Inv.alone (h : Inv s) (hlock : s.lock = none ∨ s.lock = some c) {d : Fin C} (hd : d ≠ c) :
    s.cpu d ≠ .scan i o e := by
  intro hscan
  have := h.lock d i o e hscan
  rcases hlock with hnone | hsome
  · rw [hnone] at this
    cases this
  · rw [hsome] at this
    exact hd (Option.some.inj this).symm

/-- A move of one processor. -/
theorem Inv.move (h : Inv s) (hlock : s.lock = none ∨ s.lock = some c)
    (hcpu : ∀ d, d ≠ c → s'.cpu d = s.cpu d ∧ s'.pass d = s.pass d) (htable : ProcTable.Inv s'.table)
    (hheld : ∀ i o e, s'.cpu c = .scan i o e → s'.lock = some c)
    (hbest : ∀ i o, s'.cpu c = .scan i o false → Best s'.table i o) (hpass : (s'.cpu c).At (s'.pass c))
    (hlog : ∀ P ∈ s'.log, P ∈ s.log ∨ P.Ok) : Inv s' := by
  refine ⟨htable, fun d i o e hd => ?_, fun d i o hd => ?_, fun d => ?_, fun P hP =>
    (hlog P hP).elim (h.log P) id⟩
  · by_cases hdc : d = c
    · subst hdc
      exact hheld i o e hd
    · rw [(hcpu d hdc).1] at hd
      exact absurd hd (h.alone hlock hdc)
  · by_cases hdc : d = c
    · subst hdc
      exact hbest i o hd
    · rw [(hcpu d hdc).1] at hd
      exact absurd hd (h.alone hlock hdc)
  · by_cases hdc : d = c
    · subst hdc
      exact hpass
    · rw [(hcpu d hdc).1, (hcpu d hdc).2]
      exact h.pass d

/-- The loop goes on to the next slot. -/
theorem inv_goOn (h : Inv s) (hscan : s.cpu c = .scan p o e)
    (hodd : (s.table.proc p).state = .runnable → ¬Even (s.table.proc p).pid.toInt)
    (hbest : e = false → Best s.table (p + 1) o') : Inv ((s.visit c p).at_ c (.scan (p + 1) o' e)) := by
  have hpass := h.pass c
  rw [hscan] at hpass
  obtain ⟨-, hupto, hran⟩ := hpass
  refine h.move (c := c) (.inr (h.lock c _ _ _ hscan)) (fun d hd => ?_) h.table (fun i o e _ => ?_)
    (fun i o hi => ?_) ?_
    fun P hP => .inl hP
  · simp [State.at_, State.visit, State.setPass, hd]
  · exact h.lock c _ _ _ hscan
  · simp only [State.at_, State.visit, State.setPass, update_self, Cpu.scan.injEq] at hi
    obtain ⟨rfl, rfl, rfl⟩ := hi
    exact hbest rfl
  · simp only [State.at_, State.visit, State.setPass, update_self]
    exact ⟨p.isLt, hupto.skip rfl hodd, hran⟩

/-- The scheduler switches to a process that is `RUNNABLE`, in `s` or after the visit of a slot. -/
theorem inv_dispatch {r : State N C} {x : Cpu N} (h : Inv s) (hlock : s.lock = some c)
    (hp : (s.table.proc p).state = .runnable) (hx : ∀ i o e, x ≠ .scan i o e)
    (hr : r.table = s.table ∧ r.cpu = s.cpu ∧ r.log = s.log ∧ ∀ d, d ≠ c → r.pass d = s.pass d)
    (hpass : x.At { r.pass c with ran := (r.pass c).ran ++ [p] }) : Inv (r.dispatch c p x) := by
  obtain ⟨hrt, hrc, hrl, hrp⟩ := hr
  have htable : ProcTable.step s.table (.dispatch p) = .next (r.dispatch c p x).table := by
    rw [State.dispatch, hrt]
    exact if_pos hp
  have hcpu : (r.dispatch c p x).cpu c = x := update_self ..
  refine h.move (c := c) (.inr hlock) (fun d hd => ?_)
    (ProcTable.inv_next (a := .dispatch p) h.table nofun htable)
    (fun i o e hi => ?_) (fun i o hi => ?_) ?_ fun P hP => .inl (hrl ▸ hP)
  · simp [State.dispatch, State.at_, State.setPass, hd, hrc, hrp]
  · exact absurd (hcpu.symm.trans hi) (hx i o e)
  · exact absurd (hcpu.symm.trans hi) (hx i o false)
  · rw [hcpu]
    simpa [State.dispatch, State.at_, State.setPass] using hpass

theorem inv_release (h : Inv s) (hlock : s.lock = none ∨ s.lock = some c) (hpass : (s.pass c).Ok) :
    Inv (s.release c) := by
  have hcpu : (s.release c).cpu c = .idle := update_self ..
  refine h.move (c := c) hlock (fun d hd => ?_) h.table (fun i o e hi => ?_) (fun i o hi => ?_) ?_
    fun P hP => ?_
  · simp [State.release, State.at_, hd]
  · rw [hcpu] at hi
    cases hi
  · rw [hcpu] at hi
    cases hi
  · rw [hcpu]
    exact hpass.once
  · rcases List.mem_append.mp hP with hold | hnew
    · exact .inl hold
    · rw [List.mem_singleton.mp hnew]
      exact .inr hpass

theorem Inv.pid_nonneg (h : Inv s) (p : Fin N) : 0 ≤ (s.table.proc p).pid.toInt := by
  obtain ⟨m, -, hnum⟩ := h.table.numbered
  exact (hnum.range p).1

omit [NeZero N] in
/-- The best of the slots before `p` and `p`. -/
theorem Best.next (h : Best t p o)
    (hodd : (t.proc p).state = .runnable → Odd (t.proc p).pid.toInt ∧ ∃ q, o' = some q ∧
      (t.proc q).pid ≤ (t.proc p).pid)
    (hle : ∀ q, o = some q → ∃ r, o' = some r ∧ (t.proc r).pid ≤ (t.proc q).pid)
    (hrun : ∀ q, o' = some q → (t.proc q).state = .runnable) : Best t (p + 1) o' where
  before j hj hstate := by
    rcases Nat.lt_succ_iff_lt_or_eq.mp hj with hlt | heq
    · obtain ⟨hjodd, q, hq, hqj⟩ := h.before j hlt hstate
      obtain ⟨r, hr, hrq⟩ := hle q hq
      exact ⟨hjodd, r, hr, Int32.le_trans hrq hqj⟩
    · rw [Fin.ext heq] at hstate ⊢
      exact hodd hstate
  best := hrun

theorem inv_round (h : Inv s) (hscan : s.cpu c = .scan p o e) : Inv ((s.visit c p).round c p o e) := by
  have hbest := h.best c p o
  unfold State.round
  have htable : (s.visit c p).table = s.table := rfl
  rw [htable]
  split
  · rename_i hstate
    refine inv_goOn h hscan (fun hrun => absurd hrun hstate) fun he => ?_
    subst he
    exact (hbest hscan).next (fun hrun => absurd hrun hstate) (fun q hq => ⟨q, hq, Int32.le_refl _⟩)
      (hbest hscan).best
  · rename_i hstate
    rw [not_not] at hstate
    split
    · have hpass := h.pass c
      rw [hscan] at hpass
      refine inv_dispatch h (h.lock c _ _ _ hscan) hstate (fun _ _ _ hx => by cases hx)
        ⟨rfl, rfl, rfl, fun d hd => Function.update_of_ne hd _ _⟩ ?_
      simp only [State.visit, State.setPass, update_self]
      exact hpass.2.1.run rfl
    · -- the pid is odd, as it is not negative
      rename_i heven
      rw [mod_two_eq_zero] at heven
      have hodd : Odd (s.table.proc p).pid.toInt := Int.not_even_iff_odd.mp heven
      have hone : (s.table.proc p).pid % 2 = 1 := by
        rw [mod_two_eq_one]
        have := h.pid_nonneg p
        have ⟨k, hk⟩ := hodd
        exact ⟨hodd, by omega⟩
      rw [if_pos hone]
      split
      · refine inv_goOn h hscan (fun _ => heven) fun he => ?_
        subst he
        refine (hbest hscan).next (fun _ => ⟨hodd, p, rfl, Int32.le_refl _⟩)
          (fun q hq => by cases hq) fun q hq => ?_
        cases hq
        exact hstate
      · rename_i q
        split_ifs with hlt
        · refine inv_goOn h hscan (fun _ => heven) fun he => ?_
          subst he
          refine (hbest hscan).next (fun _ => ⟨hodd, p, rfl, Int32.le_refl _⟩) (fun r hr => ?_)
            fun r hr => ?_
          · cases hr
            exact ⟨p, rfl, Int32.le_of_lt hlt⟩
          · cases hr
            exact hstate
        · refine inv_goOn h hscan (fun _ => heven) fun he => ?_
          subst he
          exact (hbest hscan).next (fun _ => ⟨hodd, q, rfl, Int32.not_lt.mp hlt⟩)
            (fun r hr => ⟨r, hr, Int32.le_refl _⟩)
            (hbest hscan).best

theorem inv_finish (h : Inv s) (hscan : s.cpu c = .scan i o e) (hi : ¬i < N) : Inv (s.finish c o e) := by
  have hlock := h.lock c _ _ _ hscan
  have hpass := h.pass c
  rw [hscan] at hpass
  obtain ⟨hle, hupto, hran⟩ := hpass
  obtain rfl : i = N := by omega
  unfold State.finish
  split
  · rename_i q
    split_ifs with he
    · subst he
      refine inv_dispatch h hlock ((h.best c _ _ hscan).best q rfl) (fun _ _ _ hx => by cases hx)
        ⟨rfl, rfl, rfl, fun _ _ => rfl⟩ ?_
      exact hupto.ok_odd (hran rfl) q
    · exact inv_release h (.inr hlock) hupto.ok
  · exact inv_release h (.inr hlock) hupto.ok

theorem inv_resume (h : Inv s) (hlock : s.lock = none) (c : Fin C) : Inv (s.resume c) := by
  have hpass := h.pass c
  unfold State.resume
  split
  · rename_i p o hcpu
    rw [hcpu] at hpass
    refine h.move (c := c) (.inl hlock) (fun d hd => ?_) h.table (fun _ _ _ _ => rfl) (fun i o hi =>
      ?_) ?_ fun P hP => .inl hP
    · simp [State.at_, hd]
    · simp [State.at_] at hi
    · simp only [State.at_, update_self]
      exact ⟨p.isLt, hpass, fun he => by cases he⟩
  · rename_i p hcpu
    rw [hcpu] at hpass
    exact inv_release h (.inl hlock) hpass
  · exact h

theorem inv_switched (h : Inv s) (hlock : s.lock = none) (p : Fin N) : Inv (s.switched p) := by
  unfold State.switched
  split
  · exact h
  · split
    · exact inv_resume h hlock _
    · exact h

/-- Something happens to the table while no scheduler has the lock. -/
theorem Inv.setTable (h : Inv s) (hlock : s.lock = none) (ht : ProcTable.Inv t) :
    Inv { s with table := t } :=
  ⟨ht, h.lock, fun c i o hc => absurd (h.lock c _ _ _ hc) (by simp [hlock]), h.pass, h.log⟩

/-- What `fork` does to the slot of the new process without the lock. -/
theorem unlocked_spec {t' : ProcTable.State N} (h : ProcTable.Inv t)
    (ha : Unlocked a) (hs : ProcTable.step t a = .next t') : (t'.proc a.by_).state = .running ∧
      ∀ j, (t'.proc j).pid = (t.proc j).pid ∧
      ((t'.proc j).state = .runnable ↔ (t.proc j).state = .runnable) := by
  have hset : ∀ (p np : Fin N) (y : ProcTable.Proc N) (x : ProcTable.Pc N), (t.proc p).state = .running →
      (t.proc np).state = .embryo → y.pid = (t.proc np).pid → y.state ≠ .runnable →
      (((t.set np y).at_ p x).proc p).state = .running ∧
        ∀ j, (((t.set np y).at_ p x).proc j).pid = (t.proc j).pid ∧
          ((((t.set np y).at_ p x).proc j).state = .runnable ↔ (t.proc j).state = .runnable) := by
    intro p np y x hp hnp hpid hy
    have hne : p ≠ np := fun heq => by rw [heq, hnp] at hp; cases hp
    refine ⟨by simp [hne, hp], fun j => ?_⟩
    rw [ProcTable.at_proc, ProcTable.set_proc]
    by_cases hj : j = np
    · simp [hj, hpid, hy, hnp]
    · simp [hj]
  cases a with
  | forkFail p =>
    simp only [ProcTable.step] at hs
    split at hs
    · rename_i hp
      simp only [ProcTable.stepOf] at hs
      split at hs
      · rename_i np hpc
        cases hs
        exact hset p np _ _ hp (h.child p np (by rw [hpc]; rfl)) rfl (fun h => by cases h)
      · cases hs
    · cases hs
  | setParent p =>
    simp only [ProcTable.step] at hs
    split at hs
    · rename_i hp
      simp only [ProcTable.stepOf] at hs
      split at hs
      · rename_i np hpc
        cases hs
        have hnp := h.child p np (by rw [hpc]; rfl)
        exact hset p np _ _ hp hnp rfl (fun h => by rw [hnp] at h; cases h)
      · cases hs
    · cases hs
  | _ => exact ha.elim

theorem Inv.setUnlocked (h : Inv s) (ht : ProcTable.Inv t)
    (hsame : ∀ j, (t.proc j).pid = (s.table.proc j).pid ∧
      ((t.proc j).state = .runnable ↔ (s.table.proc j).state = .runnable)) :
      Inv { s with table := t } := by
  refine ⟨ht, h.lock, fun c i o hc => ?_, h.pass, h.log⟩
  have hbest := h.best c i o hc
  constructor
  · intro j hj hrun
    obtain ⟨hodd, q, hq, hle⟩ := hbest.before j hj ((hsame j).2.mp hrun)
    dsimp only
    rw [(hsame j).1]
    exact ⟨hodd, q, hq, by rwa [(hsame q).1]⟩
  · intro q hq
    exact (hsame q).2.mpr (hbest.best q hq)

theorem inv_acquire (h : Inv s) (hlock : s.lock = none) :
    Inv { (s.setPass c ⟨[], []⟩).at_ c (.scan 0 none false) with lock := some c } := by
  refine h.move (c := c) (.inl hlock) (fun d hd => ?_) h.table (fun _ _ _ _ => rfl) (fun i o hi =>
    ?_) ?_ fun P hP => .inl hP
  · simp [State.at_, State.setPass, hd]
  · simp only [State.at_, State.setPass, update_self, Cpu.scan.injEq] at hi
    obtain ⟨rfl, rfl, -⟩ := hi
    exact ⟨fun j hj => absurd hj (Nat.not_lt_zero _), fun q hq => by cases hq⟩
  · simp only [State.at_, State.setPass, update_self]
    exact ⟨Nat.zero_le _, ⟨by simp, by simp, by simp⟩, fun _ => rfl⟩

theorem onTable_next (hs : onTable s a = .next s') :
    ∃ t, ProcTable.step s.table a = .next t ∧ s' = { s with table := t } := by
  unfold onTable at hs
  split at hs
  · cases hs
  · cases hs
  · rename_i t ht
    cases hs
    exact ⟨t, ht, rfl⟩

/-- What a step is, if a process takes it. -/
theorem step_proc (hs : step s (.proc a) = .next s') :
    ∃ t, ProcTable.step s.table a = .next t ∧ (s.lock = none ∧ s' = { s with table := t } ∨
      (s.lock = none ∨ Unlocked a) ∧ s' = ({ s with table := t } : State N C).switched a.by_) := by
  cases a with
  | dispatch p => cases hs
  | wakeup p =>
    simp only [step] at hs
    split at hs
    · rename_i hlock
      obtain ⟨t, ht, rfl⟩ := onTable_next hs
      exact ⟨t, ht, .inl ⟨hlock, rfl⟩⟩
    · cases hs
  | _ =>
    simp only [step] at hs
    split at hs
    · rename_i hlock
      split at hs
      · rename_i s1 hs1
        obtain ⟨t, ht, rfl⟩ := onTable_next hs1
        cases hs
        exact ⟨t, ht, .inr ⟨hlock, rfl⟩⟩
      · rename_i hne
        exact absurd hs (hne _)
    · cases hs

theorem inv_proc (h : Inv s) (hfew : ProcTable.Few (2 ^ 31 - 1) s.table a)
    (hs : step s (.proc a) = .next s') : Inv s' := by
  obtain ⟨t, ht, hcases⟩ := step_proc hs
  have htinv := ProcTable.inv_next h.table hfew ht
  rcases hcases with ⟨hlock, rfl⟩ | ⟨hlock | hun, rfl⟩
  · exact h.setTable hlock htinv
  · exact inv_switched (h.setTable hlock htinv) hlock a.by_
  · obtain ⟨hrun, hsame⟩ := unlocked_spec h.table hun ht
    unfold State.switched
    rw [if_pos hrun]
    exact h.setUnlocked htinv hsame

theorem step_look (hs : step s (.look c) = .next s') : ∃ i o e, s.cpu c = .scan i o e ∧
    ((∃ h : i < N, s' = (s.visit c ⟨i, h⟩).round c ⟨i, h⟩ o e) ∨ ¬i < N ∧ s' = s.finish c o e) := by
  simp only [step] at hs
  split at hs
  · rename_i i o e hscan
    refine ⟨i, o, e, hscan, ?_⟩
    split_ifs at hs with hi
    · exact .inl ⟨hi, (Outcome.next.inj hs).symm⟩
    · exact .inr ⟨hi, (Outcome.next.inj hs).symm⟩
  · cases hs

theorem inv_next {a : Act N C} (h : Inv s) (hfew : Few (2 ^ 31 - 1) s a)
    (hs : step s a = .next s') : Inv s' := by
  cases a with
  | acquire c =>
    simp only [step] at hs
    split at hs
    · rename_i hc
      cases hs
      exact inv_acquire h hc.2
    · cases hs
  | look c =>
    obtain ⟨i, o, e, hscan, ⟨hi, rfl⟩ | ⟨hi, rfl⟩⟩ := step_look hs
    · exact inv_round h hscan
    · exact inv_finish h hscan hi
  | proc a => exact inv_proc h hfew hs

omit [NeZero N] in
/-- What the loop runs has an even pid. -/
theorem even_of_round (h : ((s.round c p o e).cpu c).proc = some q) :
    Even (s.table.proc q).pid.toInt := by
  unfold State.round at h
  split at h
  · simp [State.at_, Cpu.proc] at h
  · split at h
    · rename_i heven
      have hq : p = q := by simpa [State.dispatch, State.at_, Cpu.proc] using h
      subst hq
      exact mod_two_eq_zero.mp heven
    · split at h
      · split at h
        · simp [State.at_, Cpu.proc] at h
        · split at h <;> simp [State.at_, Cpu.proc] at h
      · simp [State.at_, Cpu.proc] at h

/-- When the scheduler runs a process with an odd pid, it has not let go of the lock since it came
to the first slot. -/
theorem Inv.odd (h : Inv s) (hs : step s (.look c) = .next s') (hp : (s'.cpu c).proc = some p)
    (hodd : Odd (s.table.proc p).pid.toInt) (q : Fin N) (hq : (s.table.proc q).state = .runnable) :
    Odd (s.table.proc q).pid.toInt ∧ (s.table.proc p).pid ≤ (s.table.proc q).pid := by
  obtain ⟨i, o, e, hscan, ⟨hi, rfl⟩ | ⟨hi, rfl⟩⟩ := step_look hs
  · exact absurd (even_of_round hp) (Int.not_even_iff_odd.mpr hodd)
  · unfold State.finish at hp
    split at hp
    · rename_i r
      split_ifs at hp with he
      · subst he
        have hr : r = p := by simpa [State.dispatch, State.at_, Cpu.proc] using hp
        subst hr
        obtain ⟨hqodd, r', hr', hle⟩ := (h.best c i _ hscan).before q (by omega) hq
        cases hr'
        exact ⟨hqodd, hle⟩
      · simp [State.release, State.at_, Cpu.proc] at hp
    · simp [State.release, State.at_, Cpu.proc] at hp

/-- **The multilevel scheduler.** -/
theorem dispatches_of_reach (h : Machine.Reach step (Few (2 ^ 31 - 1)) init s) : Dispatches s := by
  have hinv : Inv s := h.inv inv_init fun _ _ _ h hg hs => inv_next h hg hs
  refine ⟨fun c s' hs p hp hodd q hq => ?_, fun c v hv hrun heven => ?_, hinv.log⟩
  · obtain ⟨hqodd, hle⟩ := hinv.odd hs hp hodd q hq
    exact ⟨Int.not_even_iff_odd.mpr hqodd, fun _ => hle⟩
  · have hpass := hinv.pass c
    cases hcpu : s.cpu c with
    | idle =>
      rw [hcpu] at hpass
      exact hpass v hv hrun heven
    | scan i o e =>
      rw [hcpu] at hpass
      exact hpass.2.1.once v hv hrun heven
    | even | odd =>
      rw [hcpu] at hpass
      exact hpass.once v hv hrun heven

end

/-- The first process runs, forks a child and yields; then the child, with the pid 2, runs in the
next pass. -/
def childRuns : List (Act 64 1) :=
  .acquire 0 :: List.replicate 65 (.look 0) ++
    [.proc (.fork 0), .proc (.setParent 0), .proc (.forkDone 0), .proc (.yield 0), .acquire 0,
      .look 0, .look 0,
      .proc (.sleep 1)] ++ List.replicate 63 (.look 0)

theorem dispatches_of_reach_childRuns : ∃ s : State 64 1, Machine.Reach step (Few (2 ^ 31 - 1)) init s ∧
    s.log.map Pass.ran = [[0], [1]] ∧ Dispatches s := by
  obtain ⟨s, hs, hran⟩ := Machine.exists_reach step (Few (2 ^ 31 - 1)) (init : State 64 1) childRuns
    (fun s => s.log.map Pass.ran) [[0], [1]] (by decide +kernel)
  exact ⟨s, hs, hran, dispatches_of_reach hs⟩

/-! ### Negative pids -/

section

variable {N C : ℕ} [NeZero N] {s : State N C} {c : Fin C} {o : Option (Fin N)} {e : Bool}

/-- The loop passes over the slot. -/
def PassedOver (t : ProcTable.State N) (j : Fin N) : Prop :=
  (t.proc j).state ≠ .runnable ∨ (t.proc j).pid % 2 ≠ 0 ∧ (t.proc j).pid % 2 ≠ 1

omit [NeZero N] in
theorem round_of_passedOver {p : Fin N} (h : PassedOver s.table p) :
    s.round c p o e = s.at_ c (.scan (p + 1) o e) := by
  unfold State.round
  split
  · rfl
  · rename_i hrun
    obtain ⟨h0, h1⟩ := h.resolve_left hrun
    rw [if_neg h0, if_neg h1]

/-- To the end of the loop, over slots that are passed over. -/
theorem reach_skip : ∀ {d i : ℕ} {s : State N C}, i + d = N →
    s.cpu c = .scan i o e → (∀ j : Fin N, i ≤ j → PassedOver s.table j) → ∃ s',
    Machine.Reach step (fun _ _ => True) s s' ∧
      s'.table = s.table ∧ s'.cpu c = .scan N o e
  | 0, i, s, hi, hscan, _ => by
    rw [Nat.add_zero] at hi
    exact ⟨s, .refl, rfl, hi ▸ hscan⟩
  | d + 1, i, s, hi, hscan, hover => by
    have hlt : i < N := by omega
    have hlook : step s (.look c) = .next ((s.visit c ⟨i, hlt⟩).at_ c (.scan (i + 1) o e)) := by
      simp only [step]
      rw [hscan]
      dsimp only
      rw [dif_pos hlt, round_of_passedOver (s := s.visit c ⟨i, hlt⟩) (hover ⟨i, hlt⟩ (le_refl i))]
    obtain ⟨s', hreach, htable, hcpu⟩ :=
      reach_skip (d := d) (i := i + 1) (s := (s.visit c ⟨i, hlt⟩).at_ c (.scan (i + 1) o e))
      (by omega) (update_self ..) fun j hj => hover j (by omega)
    exact ⟨s', (Machine.Reach.next .refl trivial hlook).trans hreach, htable, hcpu⟩

/-- A pass in which the first slot is the only one that is not passed over, up to the end of the
loop. -/
theorem reach_pass (hidle : s.cpu c = .idle) (hlock : s.lock = none)
    (hrun : (s.table.proc 0).state = .runnable) (hpid : (s.table.proc 0).pid = 1)
    (hover : ∀ j : Fin N, 0 < j.val → PassedOver s.table j) :
    ∃ s', Machine.Reach step (fun _ _ => True) s s' ∧ s'.table = s.table ∧
      step s' (.look c) = .next (s'.dispatch c 0 (.odd 0)) := by
  have hpos : 0 < N := Nat.pos_of_ne_zero (NeZero.ne N)
  have hacquire :
    step s (.acquire c) =
      .next { (s.setPass c ⟨[], []⟩).at_ c (.scan 0 none false) with lock := some c } :=
    if_pos ⟨hidle, hlock⟩
  generalize hs1 :
    ({ (s.setPass c ⟨[], []⟩).at_ c (.scan 0 none false) with lock := some c } : State N C) =
      s1 at hacquire
  have htable1 : s1.table = s.table := by rw [← hs1]; rfl
  have hscan1 : s1.cpu c = .scan 0 none false := by rw [← hs1]; exact update_self ..
  have hlook : step s1 (.look c) = .next ((s1.visit c 0).at_ c (.scan 1 (some 0) false)) := by
    simp only [step]
    rw [hscan1]
    dsimp only
    rw [dif_pos hpos]
    have hzero : (⟨0, hpos⟩ : Fin N) = 0 := rfl
    unfold State.round
    have hvisit : (s1.visit c ⟨0, hpos⟩).table = s.table := htable1
    rw [hvisit, hzero, if_neg (not_not.mpr hrun), hpid, if_neg (by decide), if_pos (by decide)]
    rfl
  obtain ⟨s', hreach, htable, hcpu⟩ := reach_skip (c := c) (d := N - 1) (i := 1)
    (s := (s1.visit c 0).at_ c (.scan 1 (some 0) false)) (by omega) (update_self ..) fun j hj => by
      show PassedOver s1.table j
      rw [htable1]
      exact hover j hj
  refine ⟨s', (Machine.Reach.next (.next .refl trivial hacquire) trivial hlook).trans hreach,
    htable.trans htable1, ?_⟩
  simp only [step]
  rw [hcpu]
  dsimp only
  rw [dif_neg (lt_irrefl N)]
  rfl

end

variable {s : State 64 1} {t : ProcTable.State 64}

/-- A process does something and runs on. -/
theorem step_of_running {a : ProcTable.Act 64} (hlock : s.lock = none)
    (ha : ∀ p, a ≠ .dispatch p ∧ a ≠ .wakeup p) (hs : ProcTable.step s.table a = .next t)
    (hrun : (t.proc a.by_).state = .running) : step s (.proc a) = .next { s with table := t } := by
  cases a with
  | dispatch p => exact absurd rfl (ha p).1
  | wakeup p => exact absurd rfl (ha p).2
  | _ =>
    simp only [step, onTable]
    rw [if_pos (.inl hlock), hs]
    exact congrArg Outcome.next (if_pos hrun)

/-- The first process, run at the end of a pass, yields. -/
theorem step_of_yield (hlock : s.lock = none) (hcpu : s.cpu 0 = .odd 0)
    (hs : ProcTable.step s.table (.yield 0) = .next t) (hrun : (t.proc 0).state ≠ .running) :
    step s (.proc (.yield 0)) = .next (({ s with table := t } : State 64 1).release 0) := by
  have hof : ({ s with table := t } : State 64 1).cpuOf 0 = some 0 := by
    have hall : List.finRange 1 = [0] := rfl
    simp [State.cpuOf, hall, hcpu, Cpu.proc]
  have hswitched : ({ s with table := t } : State 64 1).switched 0 =
    ({ s with table := t } : State 64 1).release 0 := by
    unfold State.switched
    rw [if_neg hrun, hof]
    simp only [State.resume, hcpu]
  simp only [step, onTable]
  rw [if_pos (.inl hlock), hs]
  exact congrArg Outcome.next hswitched

/-- Calls of `fork` that find no memory. -/
theorem reach_failed (hlock : s.lock = none) : ∀ m, Machine.Reach step (fun _ _ => True)
    { s with table := ProcTable.failed 0 } { s with table := ProcTable.failed m }
  | 0 => .refl
  | m + 1 => by
    have hfork := step_of_running (s := { s with table := ProcTable.failed m }) (a := .fork 0) hlock
      (by simp)
      (ProcTable.step_failed m) rfl
    have hfail := step_of_running (s := { s with table := ProcTable.forked m }) (a := .forkFail 0)
      hlock (by simp)
      (ProcTable.step_forked m) rfl
    exact .next (.next (reach_failed hlock m) trivial hfork) trivial hfail

/-- A call that does, and a `yield`. -/
theorem reach_yield (hlock : s.lock = none) (hcpu : s.cpu 0 = .odd 0) (m : ℕ) :
    ∃ s', Machine.Reach step (fun _ _ => True) { s with table := ProcTable.failed m } s' ∧
    s'.cpu 0 = .idle ∧
      s'.lock = none ∧ s'.table.proc 0 = ⟨.runnable, 1, none, false, none⟩ ∧
      s'.table.proc 1 = ⟨.runnable, Int32.ofNat (m + 2), some 0, false, none⟩ ∧
      ∀ j : Fin 64, 1 < j.val → (s'.table.proc j).state = .unused := by
  let t1 := ((ProcTable.forked m).set 1 { (ProcTable.forked m).proc 1 with parent := some 0 }).at_ 0
    (.ready 1)
  let t2 := (t1.set 1 { t1.proc 1 with state := .runnable }).at_ 0 .user
  let t3 := t2.set 0 { t2.proc 0 with state := .runnable }
  have hfork := step_of_running (s := { s with table := ProcTable.failed m }) (a := .fork 0) hlock
    (by simp)
    (ProcTable.step_failed m) rfl
  have hparent := step_of_running (s := { s with table := ProcTable.forked m }) (a := .setParent 0)
    (t := t1) hlock (by simp)
    rfl rfl
  have hdone := step_of_running (s := { s with table := t1 }) (a := .forkDone 0) (t := t2) hlock
    (by simp) rfl rfl
  have hyield := step_of_yield (s := { s with table := t2 }) (t := t3) hlock hcpu rfl
    (fun h => by cases h)
  refine ⟨_, .next (.next (.next (.next .refl trivial hfork) trivial hparent) trivial hdone) trivial
    hyield,
    rfl, rfl, rfl, rfl, fun j hj => ?_⟩
  have h0 : j ≠ 0 := by rintro rfl; exact absurd hj (by decide)
  have h1 : j ≠ 1 := by rintro rfl; exact absurd hj (by decide)
  simp [State.release, State.at_, t3, t2, t1, ProcTable.forked, ProcTable.failed, h0, h1]

/-- After 2³¹ − 1 calls of `fork` that found no memory, the next makes a process with the pid
−2147483647. The scheduler runs the first process, which has the pid 1, although the new one is
`RUNNABLE` and has the smaller odd pid. -/
theorem negative_pid : ∃ s s' : State 64 1, Machine.Reach step (fun _ _ => True) init s ∧
    step s (.look 0) = .next s' ∧ (s'.cpu 0).proc = some 0 ∧ (s.table.proc 0).pid = 1 ∧
    (s.table.proc 1).state = .runnable ∧ (s.table.proc 1).pid.toInt = -2147483647 := by
  obtain ⟨s1, hs1, ht1, hlook1⟩ := reach_pass (s := (init : State 64 1)) (c := 0) rfl rfl rfl rfl
    fun j hj => by
    refine .inl ?_
    have hne : j ≠ ProcTable.initproc := by rintro rfl; exact lt_irrefl _ hj
    simp [init, ProcTable.init, hne]
  have htable : (s1.dispatch 0 0 (.odd 0)).table = ProcTable.failed 0 := by
    have := ProcTable.step_init
    unfold State.dispatch
    rw [ht1]
    exact Outcome.next.inj this
  have hdispatched : Machine.Reach step (fun _ _ => True) init
      { s1.dispatch 0 0 (.odd 0) with table := ProcTable.failed 0 } := by
    rw [← htable]
    exact hs1.next trivial hlook1
  obtain ⟨s2, hs2, hidle, hlock, h0, h1, hrest⟩ := reach_yield (s := s1.dispatch 0 0 (.odd 0)) rfl
    rfl (2 ^ 31 - 1)
  obtain ⟨s, hs, ht, hlook⟩ := reach_pass hidle hlock (by rw [h0]) (by rw [h0]) fun j hj => by
    rcases Nat.lt_or_ge 1 j.val with hlt | hle
    · refine .inl ?_
      rw [hrest j hlt]
      decide
    · have hj1 : j = 1 := Fin.ext (by show j.val = 1; omega)
      rw [hj1, PassedOver, h1]
      exact .inr ⟨by decide, by decide⟩
  refine ⟨s, _, (hdispatched.trans (reach_failed rfl _)).trans (hs2.trans hs), hlook, ?_, ?_, ?_, ?_⟩
  · simp [State.dispatch, State.at_, Cpu.proc]
  · rw [ht, h0]
  · rw [ht, h1]
  · rw [ht, h1]
    decide

end Xv6.Multilevel
