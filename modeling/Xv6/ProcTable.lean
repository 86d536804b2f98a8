/-
# The process table

`fork`, `exit`, `wait` and `kill` of proc.c, with any number of slots in the table and any number of
processors. What runs with `ptable.lock` held is one action, so every state here is one in which the
lock is free. What `fork` writes without the lock is an action of its own: it sets `parent` of the
new process, and `allocproc` and `fork` put the slot back to `UNUSED` when they find no memory. A
slot that is put back keeps its `pid`, and nobody clears `killed` but `wait` and `exit`.

A process may be preempted, and may sleep for other reasons, at any time. `fork2` is `fork` here, as
the two differ in the user of the new process only.
-/
import Xv6.Lib.Machine
import Xv6.Param

namespace Xv6.ProcTable

open Function (update update_apply)

inductive ProcState where
  | unused
  | embryo
  | sleeping
  | runnable
  | running
  | zombie
  deriving DecidableEq

/-- Neither free, nor being made, nor gone. -/
def ProcState.Live (x : ProcState) : Prop := x = .sleeping ∨ x = .runnable ∨ x = .running

/-- What a process sleeps on: a process, as `wait` does, or something else. -/
inductive Chan (N : ℕ) where
  | proc (q : Fin N)
  | other
  deriving DecidableEq

structure Proc (N : ℕ) where
  state : ProcState
  pid : Int32
  parent : Option (Fin N)
  killed : Bool
  chan : Option (Chan N)
  deriving DecidableEq

/-- Where a process is in proc.c. -/
inductive Pc (N : ℕ) where
  /-- Anywhere else. -/
  | user
  /-- In `fork`, with the slot `np` from `allocproc`; `np->parent` is to be set. -/
  | forking (np : Fin N)
  /-- In `fork`, with `np` to be made `RUNNABLE`. -/
  | ready (np : Fin N)
  /-- In `exit`, closing files. -/
  | exiting
  /-- In the loop of `wait`. -/
  | waiting
  deriving DecidableEq

/-- The slot that a process is filling. -/
def Pc.child {N : ℕ} : Pc N → Option (Fin N)
  | .forking np | .ready np => some np
  | _ => none

/-- A return of `wait`: to whom, and of what. -/
structure Ret (N : ℕ) where
  p : Fin N
  r : Int32
  deriving DecidableEq

structure State (N : ℕ) where
  proc : Fin N → Proc N
  pc : Fin N → Pc N
  nextpid : Int32
  /-- How often `fork` and `fork2` have been called. -/
  forks : ℕ
  /-- What `wait` has returned. -/
  log : List (Ret N)

inductive Act (N : ℕ) where
  /-- Call `fork` or `fork2`: `allocproc`, up to the release of the lock. -/
  | fork (p : Fin N)
  /-- There is no memory for the kernel stack or for the address space. -/
  | forkFail (p : Fin N)
  /-- `np->parent = curproc` -/
  | setParent (p : Fin N)
  /-- `np->state = RUNNABLE` -/
  | forkDone (p : Fin N)
  | exit (p : Fin N)
  /-- `exit` from its second `acquire` on. -/
  | exitDone (p : Fin N)
  | wait (p : Fin N)
  /-- A round of the loop of `wait`. -/
  | waitLoop (p : Fin N)
  | kill (p : Fin N) (pid : Int32)
  /-- The scheduler runs the process. -/
  | dispatch (p : Fin N)
  | yield (p : Fin N)
  /-- Sleep in some other function. -/
  | sleep (p : Fin N)
  | wakeup (p : Fin N)

section

variable {N : ℕ} {s' : State N} {np p q : Fin N} {y : Proc N} {x : Pc N} {m : ℕ} {a : Act N}

def wakeup1 (chan : Option (Chan N)) (t : Fin N → Proc N) : Fin N → Proc N := fun i =>
  if (t i).state = .sleeping ∧ (t i).chan = chan then { t i with state := .runnable } else t i

/-- The loop of `exit` over the slots with the same pid. -/
def teardown (p : Fin N) (t : Fin N → Proc N) : Fin N → Proc N := fun i =>
  if (t i).pid = (t p).pid ∧ i ≠ p then { t
    i with pid := 0, parent := none, killed := false, state := .unused } else t i

def initproc [NeZero N] : Fin N := 0

/-- Pass abandoned children to init. -/
def reparent [NeZero N] (p : Fin N) (t : Fin N → Proc N) : Fin N → Proc N := fun i =>
  if (t i).parent = some p then { t i with parent := some initproc } else t i

/-- Wake init if it gets a zombie. -/
def abandon [NeZero N] (p : Fin N) (t : Fin N → Proc N) : Fin N → Proc N :=
  if ∃ i, (t i).parent = some p ∧ (t i).state = .zombie then wakeup1 (some
    (.proc initproc)) (reparent p t)
  else reparent p t

namespace State

def set (s : State N) (i : Fin N) (y : Proc N) : State N := { s with proc := update s.proc i y }

def at_ (s : State N) (p : Fin N) (x : Pc N) : State N := { s with pc := update s.pc p x }

/-- The first slot with the property. -/
def find (s : State N) (f : Proc N → Bool) : Option (Fin N) := (List.finRange N).find? fun i =>
    f (s.proc i)

/-- `allocproc` with the lock held, called by `p`. -/
def alloc (s : State N) (p : Fin N) : State N :=
  match s.find fun y => y.state = .unused with
  | none => s
  | some np => { (s.set np { s.proc np with state := .embryo, pid := s.nextpid }).at_ p (.forking np) with
      nextpid := s.nextpid + 1 }

/-- The last part of `exit`. -/
def leave [NeZero N] (s : State N) (p : Fin N) : State N :=
  let t := abandon p (wakeup1 ((s.proc p).parent.map .proc) s.proc)
  { s.at_ p .user with proc := update t p { t p with state := .zombie } }

/-- A slot that `wait` has found: `p->pid = 0; p->parent = 0; p->killed = 0; p->state = UNUSED;` -/
def reap (s : State N) (p q : Fin N) : State N :=
  { (s.set q { s.proc q with pid := 0, parent := none, killed := false, state := .unused }).at_ p
    .user with
    log := s.log ++ [⟨p, (s.proc q).pid⟩] }

/-- A round of the loop of `wait`. -/
def waitRound (s : State N) (p : Fin N) : State N :=
  match s.find fun y => y.parent = some p ∧ y.state = .zombie with
  | some q => s.reap p q
  | none =>
    if (∀ q, (s.proc q).parent ≠ some p) ∨ (s.proc p).killed then { s.at_ p
      .user with log := s.log ++ [⟨p, -1⟩] }
    else s.set p { s.proc p with state := .sleeping, chan := some (.proc p) }

/-- `kill`: the return value and the next state. -/
def kill (s : State N) (pid : Int32) : ℤ × State N :=
  match s.find fun y => y.pid = pid with
  | none => (-1, s)
  | some q => (0, s.set q { s.proc q with
      killed := true, state := if (s.proc q).state = .sleeping then .runnable else (s.proc q).state })

end State

/-- The table when the first process has been made. -/
def init [NeZero N] : State N where
  proc := fun i => if i = initproc then ⟨.runnable, 1, none, false, none⟩ else ⟨.unused, 0, none,
    false, none⟩
  pc := fun _ => .user
  nextpid := 2
  forks := 0
  log := []

/-- What a running process does. -/
def stepOf [NeZero N] (s : State N) : Act N → Outcome (State N)
  | .fork p => if s.pc p = .user then .next { s.alloc p with forks := s.forks + 1 } else .blocked
  | .forkFail p =>
    match s.pc p with
    | .forking np => .next ((s.set np { s.proc np with state := .unused }).at_ p .user)
    | _ => .blocked
  | .setParent p =>
    match s.pc p with
    | .forking np => .next ((s.set np { s.proc np with parent := some p }).at_ p (.ready np))
    | _ => .blocked
  | .forkDone p =>
    match s.pc p with
    | .ready np => .next ((s.set np { s.proc np with state := .runnable }).at_ p .user)
    | _ => .blocked
  | .exit p =>
    if s.pc p = .user then
      if p = initproc then .panic "init exiting" else .next { s.at_ p
        .exiting with proc := teardown p s.proc }
    else .blocked
  | .exitDone p => if s.pc p = .exiting then .next (s.leave p) else .blocked
  | .wait p => if s.pc p = .user then .next (s.at_ p .waiting) else .blocked
  | .waitLoop p =>
    -- after a sleep, `p->chan = 0` comes first
    if s.pc p = .waiting then .next ((s.set p { s.proc p with chan := none }).waitRound p) else .blocked
  | .kill p pid => if s.pc p = .user then .next (s.kill pid).2 else .blocked
  | .yield p => .next (s.set p { s.proc p with state := .runnable })
  | .sleep p =>
    if s.pc p = .waiting then .blocked
    else .next (s.set p { s.proc p with state := .sleeping, chan := some .other })
  | _ => .blocked

/-- Who takes the action. -/
def Act.by_ : Act N → Fin N
  | .fork p | .forkFail p | .setParent p | .forkDone p | .exit p | .exitDone p | .wait p
  | .waitLoop p | .kill p _
  | .dispatch p | .yield p | .sleep p | .wakeup p => p

def step [NeZero N] (s : State N) : Act N → Outcome (State N)
  | .dispatch p =>
    if (s.proc p).state = .runnable then .next (s.set p { s.proc p with state := .running }) else .blocked
  | .wakeup p =>
    if (s.proc p).state = .sleeping ∧ (s.proc p).chan = some .other then
      .next (s.set p { s.proc p with state := .runnable })
    else .blocked
  | a => if (s.proc a.by_).state = .running then stepOf s a else .blocked

/-! ### Every run -/

section Access

variable (s : State N) (i j p : Fin N) (y : Proc N) (x : Pc N) {f : Proc N → Bool}

@[simp, grind =]
theorem set_proc : (s.set i y).proc j = if j = i then y else s.proc j := by
  simp [State.set, update_apply]

@[simp, grind =]
theorem set_pc : (s.set i y).pc j = s.pc j := rfl

@[simp, grind =]
theorem at_pc : (s.at_ i x).pc j = if j = i then x else s.pc j := by
  simp [State.at_, update_apply]

@[simp, grind =]
theorem at_proc : (s.at_ i x).proc j = s.proc j := rfl

@[simp, grind =]
theorem set_log : (s.set i y).log = s.log := rfl

@[simp, grind =]
theorem at_log : (s.at_ i x).log = s.log := rfl

@[simp, grind =]
theorem reap_proc :
    (s.reap p i).proc j = if j = i then ⟨.unused, 0, none, false,
      (s.proc i).chan⟩ else s.proc j := by
  simp [State.reap]

@[grind =]
theorem child_eq_some {x : Pc N} : x.child = some i ↔ x = .forking i ∨ x = .ready i := by
  cases x <;> simp [Pc.child]

theorem find_spec {s : State N} {i : Fin N} (h : s.find f = some i) : f (s.proc i) = true := by
  simpa using List.find?_some h

theorem find_eq_some {s : State N} {i : Fin N} (hi : f (s.proc i) = true)
    (hlt : ∀ j < i, f (s.proc j) = false) : s.find f = some i := by
  refine List.find?_eq_some_iff_getElem.mpr ⟨hi, i, by simp, by simp, fun j hj => ?_⟩
  simpa using hlt ⟨j, by omega⟩ hj

theorem find_none {s : State N} (h : s.find f = none) (i : Fin N) : f (s.proc i) = false := by
  simpa using List.find?_eq_none.mp h i (List.mem_finRange i)

end Access

variable {s : State N}

/-- Who sleeps in `wait`. -/
def State.Asleep (s : State N) (p : Fin N) : Prop := (s.proc p).state = .sleeping ∧ s.pc p = .waiting

/-- What those who sleep in `wait` wait for. -/
structure Waits (s : State N) : Prop where
  chan : ∀ p, s.Asleep p → (s.proc p).chan = some (.proc p)
  kids : ∀ p, s.Asleep p → ∃ q, (s.proc q).parent = some p
  zombie : ∀ p q, s.Asleep p → (s.proc q).parent = some p → (s.proc q).state ≠ .zombie
  killed : ∀ p, s.Asleep p → (s.proc p).killed = false


attribute [local grind] ProcState.Live State.Asleep

/-- Nobody falls asleep, no sleeper loses a child, and no child of a sleeper becomes a zombie. -/
theorem Waits.keep (h : Waits s)
    (hsleep : ∀ r, s'.Asleep r → s.Asleep r ∧ (s'.proc r).chan = (s.proc r).chan ∧
      (s'.proc r).killed = (s.proc r).killed)
    (hkids : ∀ r q, s'.Asleep r → (s.proc q).parent = some r → (s'.proc q).parent = some r)
    (hzombie : ∀ r q, s'.Asleep r → (s'.proc q).parent = some r → (s'.proc q).state = .zombie →
      (s.proc q).parent = some r ∧ (s.proc q).state = .zombie) : Waits s' where
  chan r hr := (hsleep r hr).2.1.trans (h.chan r (hsleep r hr).1)
  kids r hr := (h.kids r (hsleep r hr).1).imp fun q => hkids r q hr
  zombie r q hr hq hz := h.zombie r q (hsleep r hr).1 (hzombie r q hr hq hz).1 (hzombie r q hr hq hz).2
  killed r hr := (hsleep r hr).2.2.trans (h.killed r (hsleep r hr).1)

theorem waits_set (h : Waits s) (hparent : y.parent = (s.proc p).parent)
    (hstate : y.state = (s.proc p).state ∨ y.state ≠ .zombie)
    (hsleep : y.state = .sleeping → s.pc p ≠ .waiting) : Waits (s.set p y) := by
  refine h.keep ?_ ?_ ?_ <;> grind

section

variable (h : Waits s) (hp : (s.proc p).state = .running)
include h hp

theorem waits_at : Waits (s.at_ p x) := by
  have hawake : (s.proc p).state ≠ .sleeping := by simp [hp]
  refine h.keep ?_ ?_ ?_ <;> grind

theorem waits_reap (hq : (s.proc q).parent = some p) : Waits (s.reap p q) := by
  rw [State.reap]
  have hawake : (s.proc p).state ≠ .sleeping := by simp [hp]
  refine h.keep ?_ ?_ ?_ <;> grind

theorem waits_setParent
    (hnone : (s.proc np).parent = none) (hembryo : (s.proc np).state = .embryo) :
    Waits ((s.set np { s.proc np with parent := some p }).at_ p (.ready np)) := by
  have hawake : (s.proc p).state ≠ .sleeping := by simp [hp]
  refine h.keep ?_ ?_ ?_ <;> grind

theorem waits_alloc : Waits { s.alloc p with forks := s.forks + 1 } := by
  have hawake : (s.proc p).state ≠ .sleeping := by simp [hp]
  rw [State.alloc]
  split <;> refine h.keep ?_ ?_ ?_ <;> grind

end

theorem waits_doze (h : Waits s) (hkid : ∃ q, (s.proc q).parent = some p)
    (hz : ∀ q, (s.proc q).parent = some p → (s.proc q).state ≠ .zombie) (hk : (s.proc p).killed = false) :
    Waits (s.set p { s.proc p with state := .sleeping, chan := some (.proc p) }) := by
  have hasleep : ∀ r, (s.set p { s.proc p with state := .sleeping, chan := some (.proc p) }).Asleep
    r → r = p ∨
      s.Asleep r := by
    grind
  refine ⟨fun r hr => ?_, fun r hr => ?_, fun r q hr => ?_, fun r hr => ?_⟩ <;>
    rcases hasleep r hr with rfl | hr'
  · simp
  · grind [h.chan r hr']
  · obtain ⟨q, hq⟩ := hkid
    exact ⟨q, by grind⟩
  · obtain ⟨q, hq⟩ := h.kids r hr'
    exact ⟨q, by grind⟩
  · grind
  · grind [h.zombie r q hr']
  · grind
  · grind [h.killed r hr']

/-- Pids count up from 1: `m` of them have been given to children. A pid that `wait` has returned is
gone. -/
structure Numbered (s : State N) (m : ℕ) : Prop where
  nextpid : s.nextpid = Int32.ofNat (m + 2)
  range : ∀ i, 0 ≤ (s.proc i).pid.toInt ∧ (s.proc i).pid.toInt ≤ m + 1
  nonzero : ∀ i, (s.proc i).state ≠ .unused → (s.proc i).pid ≠ 0
  distinct : ∀ i j, (s.proc i).pid = (s.proc j).pid → (s.proc i).pid ≠ 0 → i = j
  gone : ∀ e ∈ s.log, e.r = -1 ∨ (0 < e.r.toInt ∧ e.r.toInt ≤ m + 1 ∧ ∀ i, (s.proc i).pid ≠ e.r)
  once : ((s.log.map Ret.r).filter (· ≠ -1)).Nodup

section

variable (h : Numbered s m)
include h

theorem Numbered.same (hnext : s'.nextpid = s.nextpid)
    (hpid : ∀ i, (s'.proc i).pid = (s.proc i).pid)
    (hstate : ∀ i, (s'.proc i).state ≠ .unused → (s.proc i).state ≠ .unused) (hlog : s'.log = s.log) :
    Numbered s' m where
  nextpid := hnext.trans h.nextpid
  range i := hpid i ▸ h.range i
  nonzero i hi := hpid i ▸ h.nonzero i (hstate i hi)
  distinct i j hij hi := h.distinct i j (hpid i ▸ hpid j ▸ hij) (hpid i ▸ hi)
  gone e he := by
    simpa only [hpid] using h.gone e (hlog ▸ he)
  once := hlog ▸ h.once

theorem Numbered.toInt_nextpid (hm : m + 2 < 2 ^ 31) : s.nextpid.toInt = m + 2 := by
  rw [h.nextpid, Int32.toInt_ofNat_of_lt hm]
  rfl

theorem Numbered.alloc (hm : m + 2 < 2 ^ 31) :
    Numbered (s.alloc p) m ∨ Numbered (s.alloc p) (m + 1) := by
  have hnext := h.toInt_nextpid hm
  have hnew : ∀ i, (s.proc i).pid ≠ s.nextpid := by
    intro i hi
    have := (h.range i).2
    rw [hi] at this
    omega
  have hzero : s.nextpid ≠ 0 := by
    intro h0
    rw [h0] at hnext
    exact absurd hnext (by simp; omega)
  rw [State.alloc]
  split
  · exact .inl h
  · rename_i np hfind
    refine .inr ⟨?_, ?_, ?_, ?_, ?_, h.once⟩
    · rw [Nat.add_right_comm, Int32.ofNat_add]
      exact congrArg (· + 1) h.nextpid
    · intro i
      have := h.range i
      grind
    · have := h.nonzero
      grind
    · have := h.distinct
      grind
    · intro e he
      refine (h.gone e he).imp_right fun ⟨h1, h2, h3⟩ => ⟨h1, by omega, fun i => ?_⟩
      have hr : e.r ≠ s.nextpid := by
        intro hr
        rw [hr] at h2
        omega
      grind

theorem Numbered.reap (hq : (s.proc q).state ≠ .unused) : Numbered (s.reap p q) m := by
  rw [State.reap]
  have hpos : 0 < (s.proc q).pid.toInt := by
    refine (h.range q).1.lt_of_ne fun h0 => h.nonzero q hq ?_
    exact Int32.toInt_inj.mp h0.symm
  have hneg : (s.proc q).pid ≠ -1 := by
    intro h1
    rw [h1] at hpos
    exact absurd hpos (by decide)
  have hdistinct := h.distinct
  refine ⟨h.nextpid, ?_, ?_, ?_, ?_, ?_⟩
  · intro i
    have := h.range i
    by_cases hi : i = q
    · subst hi
      simp
      omega
    · simpa [hi] using this
  · have := h.nonzero
    grind
  · grind
  · intro e he
    rcases List.mem_append.mp he with he | he
    · refine (h.gone e he).imp_right fun ⟨h1, h2, h3⟩ => ⟨h1, h2, fun i => ?_⟩
      have h0 : e.r ≠ 0 := by
        intro h0
        rw [h0] at h1
        exact absurd h1 (by decide)
      grind
    · rw [List.mem_singleton] at he
      subst he
      refine .inr ⟨hpos, (h.range q).2, fun i => ?_⟩
      have := h.nonzero q hq
      grind
  · have hnot : (s.proc q).pid ∉ (s.log.map Ret.r).filter (· ≠ -1) := by
      intro hmem
      obtain ⟨e, he, her⟩ := List.mem_map.mp (List.mem_filter.mp hmem).1
      rcases h.gone e he with h1 | ⟨-, -, h1⟩
      · exact hneg (her ▸ h1)
      · exact h1 q her.symm
    simp only [List.map_append, List.map_cons, List.map_nil, List.filter_append]
    rw [List.nodup_append]
    grind [h.once]

theorem Numbered.fail :
    Numbered { s.at_ p .user with log := s.log ++ [⟨p, -1⟩] } m where
  nextpid := h.nextpid
  range := h.range
  nonzero := h.nonzero
  distinct := h.distinct
  gone e he := by
    rcases List.mem_append.mp he with he | he
    · exact h.gone e he
    · exact .inl (List.mem_singleton.mp he ▸ rfl)
  once := by
    simpa using h.once

theorem teardown_eq (hp : (s.proc p).state = .running) : teardown p s.proc = s.proc := by
  funext i
  refine if_neg fun ⟨hpid, hi⟩ => hi (h.distinct i p hpid ?_)
  exact hpid ▸ h.nonzero p (by simp [hp])

end

/-- What a step of the machine returns from `wait`: the pid of a zombie child, or -1. -/
def Returned (s s' : State N) : Prop :=
  s'.log = s.log ∨ ∃ p r, s'.log = s.log ++ [⟨p, r⟩] ∧
    ((r = -1 ∧ ((∀ q, (s.proc q).parent ≠ some p) ∨ (s.proc p).killed = true)) ∨
      ∃ q, (s.proc q).state = .zombie ∧ (s.proc q).parent = some p ∧ (s.proc q).pid = r)

theorem alloc_log (s : State N) (p : Fin N) : (s.alloc p).log = s.log := by
  rw [State.alloc]
  split <;> rfl

theorem kill_log (s : State N) (pid : Int32) : (s.kill pid).2.log = s.log := by
  rw [State.kill]
  split <;> rfl

theorem returned_waitRound (s : State N) (p : Fin N) : Returned s (s.waitRound p) := by
  rw [State.waitRound]
  split
  · rename_i q hfind
    obtain ⟨hq, hz⟩ : (s.proc q).parent = some p ∧ (s.proc q).state = .zombie := by
      simpa using find_spec hfind
    exact .inr ⟨p, _, rfl, .inr ⟨q, hz, hq, rfl⟩⟩
  · split_ifs with hor
    · exact .inr ⟨p, _, rfl, .inl ⟨rfl, hor⟩⟩
    · exact .inl rfl

section Leave

variable (p i : Fin N) (t : Fin N → Proc N) (chan : Option (Chan N))

theorem wakeup1_eq : wakeup1 chan t i = { t i with
    state := if (t i).state = .sleeping ∧ (t i).chan = chan then .runnable else (t i).state } := by
  unfold wakeup1
  split <;> rfl

theorem wakeup1_zombie : (wakeup1 chan t i).state = .zombie ↔ (t i).state = .zombie := by
  grind [wakeup1_eq]

theorem wakeup1_parent : (wakeup1 chan t i).parent = (t i).parent := by
  rw [wakeup1_eq]

end Leave

variable [NeZero N]

/-- Who is whose parent, and who is making whom. -/
structure Kin (s : State N) : Prop where
  unused : ∀ i, (s.proc i).state = .unused → (s.proc i).parent = none
  live : ∀ i q, (s.proc i).parent = some q → (s.proc q).state.Live
  parent : ∀ i, (s.proc i).state ≠ .unused → (s.proc i).state ≠ .embryo → i ≠ initproc →
    (s.proc i).parent ≠ none
  root : (s.proc initproc).parent = none
  other : ∀ i, (s.proc i).parent ≠ some i
  initproc : (s.proc initproc).state.Live
  stays : s.pc ProcTable.initproc ≠ .exiting
  busy : ∀ p, s.pc p ≠ .user → (s.proc p).state.Live
  child : ∀ p np, (s.pc p).child = some np → (s.proc np).state = .embryo
  one : ∀ p p' np, (s.pc p).child = some np → (s.pc p').child = some np → p = p'
  forking : ∀ p np, s.pc p = .forking np → (s.proc np).parent = none
  ready : ∀ p np, s.pc p = .ready np → (s.proc np).parent = some p

theorem kin_set (h : Kin s) (hparent : y.parent = (s.proc p).parent)
    (hstate : y.state = (s.proc p).state ∨ (y.state.Live ∧ (s.proc p).state.Live)) :
    Kin (s.set p y) := by
  cases h
  constructor <;> grind

theorem kin_at (h : Kin s) (hp : (s.proc p).state = .running) (hx : ∀ np, x.child ≠ some np)
    (hexit : x = .exiting → p ≠ initproc) : Kin (s.at_ p x) := by
  cases h
  constructor <;> grind

theorem kin_forkFail (h : Kin s) (hpc : s.pc p = .forking np) :
    Kin ((s.set np { s.proc np with state := .unused }).at_ p .user) := by
  cases h
  constructor <;> grind

section

variable (h : Kin s) (hp : (s.proc p).state = .running)
include h hp

theorem kin_setParent (hpc : s.pc p = .forking np) :
    Kin ((s.set np { s.proc np with parent := some p }).at_ p (.ready np)) := by
  cases h
  constructor <;> grind

theorem kin_forkDone (hpc : s.pc p = .ready np) :
    Kin ((s.set np { s.proc np with state := .runnable }).at_ p .user) := by
  cases h
  constructor <;> grind

theorem kin_alloc : Kin { s.alloc p with forks := s.forks + 1 } := by
  have hlive : (s.proc p).state ≠ .unused := by simp [hp]
  rw [State.alloc]
  split
  · exact { h with }
  · rename_i np hfind
    have hfree := find_spec hfind
    cases h
    constructor <;> grind

end

theorem kin_reap (h : Kin s) (hq : (s.proc q).parent = some p)
    (hz : (s.proc q).state = .zombie) : Kin (s.reap p q) := by
  rw [State.reap]
  cases h
  constructor <;> grind

section Leave

variable (s : State N) (p i : Fin N) (t : Fin N → Proc N) 

theorem reparent_eq : reparent p t i = { t i with
    parent := if (t i).parent = some p then some initproc else (t i).parent } := by
  unfold reparent
  split <;> rfl

theorem abandon_eq : abandon p t i = { reparent p t i with
    state := if (∃ i, (t i).parent = some p ∧ (t i).state = .zombie) ∧ (t i).state = .sleeping ∧
      (t i).chan = some (.proc initproc) then .runnable else (t i).state } := by
  unfold abandon
  split
  · rename_i hz
    simp only [wakeup1_eq, reparent_eq, hz, true_and]
  · rename_i hz
    simp only [reparent_eq, hz, false_and, if_false]

/-- Whom an exit wakes: the parent, and init when it gets a zombie. -/
def Woken : Prop :=
  (s.proc i).state = .sleeping ∧ ((s.proc i).chan = (s.proc p).parent.map .proc ∨
    ((s.proc i).chan = some (.proc initproc) ∧ ∃ j, (s.proc j).parent = some p ∧ (s.proc j).state =
      .zombie))

theorem leave_eq : (s.leave p).proc i = { s.proc i with
    state := ((s.leave p).proc i).state
    parent := if (s.proc i).parent = some p then some initproc else (s.proc i).parent } := by
  unfold State.leave
  by_cases h : i = p
  · subst h
    simp [abandon_eq, reparent_eq, wakeup1_eq]
  · simp [h, abandon_eq, reparent_eq, wakeup1_eq]

theorem leave_state [DecidablePred (Woken s p)] : ((s.leave p).proc i).state =
    if i = p then .zombie else if Woken s p i then .runnable else (s.proc i).state := by
  unfold State.leave
  by_cases h : i = p
  · subst h
    simp
  · simp only [h, Function.update_of_ne, ne_eq, not_false_eq_true, abandon_eq, wakeup1_zombie,
      wakeup1_parent, if_false]
    grind [wakeup1_eq, Woken]

@[local grind =]
theorem leave_pc : (s.leave p).pc i = if i = p then .user else s.pc i := by
  simp [State.leave, State.at_, update_apply]

end Leave

theorem kin_leave (h : Kin s) (hp : (s.proc p).state = .running) (hpc : s.pc p = .exiting) :
    Kin (s.leave p) := by
  classical
  have heq := leave_eq s p
  have hst := leave_state s p
  have hpc' := leave_pc s p
  have hwoken : ∀ i, Woken s p i → (s.proc i).state = .sleeping := fun _ h => h.1
  have hne : p ≠ initproc := fun hp => h.stays (hp ▸ hpc)
  generalize s.leave p = s' at *
  cases h
  constructor <;> grind

theorem waits_leave (h : Waits s) (hk : Kin s) (hp : (s.proc p).state = .running) :
    Waits (s.leave p) := by
  classical
  have heq := leave_eq s p
  have hst := leave_state s p
  have hpc' := leave_pc s p
  have hother := hk.other p
  have hawake : (s.proc p).state ≠ .sleeping := by simp [hp]
  generalize s.leave p = s' at *
  refine h.keep ?_ ?_ fun r q hr hq hz => ?_
  · grind
  · grind
  · -- whoever gets a zombie is woken
    have hr' : s.Asleep r := by grind
    have hnot : ¬ Woken s p r := by grind
    grind [Woken, h.chan r hr']

structure Inv (s : State N) : Prop extends Kin s, Waits s where
  few : s.forks + 2 ≤ 2 ^ 31
  numbered : ∃ m ≤ s.forks, Numbered s m

def Act.forks : Act N → Bool
  | .fork _ => true
  | _ => false

/-- `fork` is called fewer than `n` times. -/
abbrev Few (n : ℕ) : State N → Act N → Prop := Machine.Seldom Act.forks State.forks n

theorem inv_init : Inv (init : State N) where
  unused := by grind [init]
  live := by grind [init]
  parent := by grind [init]
  root := by grind [init]
  other := by grind [init]
  initproc := by grind [init]
  stays := by grind [init]
  busy := by grind [init]
  child := by grind [init]
  one := by grind [init]
  forking := by grind [init]
  ready := by grind [init]
  chan := by grind [init]
  kids p h := by simp [State.Asleep, init] at h
  zombie := by grind [init]
  killed := by grind [init]
  few := by norm_num [init]
  numbered := ⟨0, Nat.zero_le _, ⟨rfl, by
    intro i
    rw [init]
    dsimp only
    split <;> simp, by grind [init], by grind [init], by simp [init], by simp [init]⟩⟩

section

variable (h : Inv s)
include h

/-- A process that stays what it is. -/
theorem inv_set (hparent : y.parent = (s.proc p).parent)
    (hpid : y.pid = (s.proc p).pid)
    (hstate : y.state = (s.proc p).state ∨ (y.state.Live ∧ (s.proc p).state.Live))
    (hsleep : y.state = .sleeping → s.pc p ≠ .waiting) : Inv (s.set p y) where
  toKin := kin_set h.toKin hparent hstate
  toWaits := waits_set h.toWaits hparent (by grind) hsleep
  few := h.few
  numbered := by
    obtain ⟨m, hm, hnum⟩ := h.numbered
    exact ⟨m, hm, hnum.same rfl (by grind) (by grind) rfl⟩

/-- A process that goes elsewhere. -/
theorem inv_at (hp : (s.proc p).state = .running)
    (hx : ∀ np, x.child ≠ some np) (hexit : x = .exiting → p ≠ initproc) : Inv (s.at_ p x) where
  toKin := kin_at h.toKin hp hx hexit
  toWaits := waits_at h.toWaits hp
  few := h.few
  numbered := by
    obtain ⟨m, hm, hnum⟩ := h.numbered
    exact ⟨m, hm, hnum.same rfl (fun _ => rfl) (fun _ => id) rfl⟩

theorem inv_fork (hp : (s.proc p).state = .running)
    (hfew : s.forks + 1 < 2 ^ 31 - 1) : Inv { s.alloc p with forks := s.forks + 1 } where
  toKin := kin_alloc h.toKin hp
  toWaits := waits_alloc h.toWaits hp
  few := by
    dsimp only
    omega
  numbered := by
    obtain ⟨m, hm, hnum⟩ := h.numbered
    rcases hnum.alloc (p := p) (by omega) with hnum | hnum
    · exact ⟨m, by dsimp only; omega, hnum.same rfl (fun _ => rfl) (fun _ => id) rfl⟩
    · exact ⟨m + 1, by dsimp only; omega, hnum.same rfl (fun _ => rfl) (fun _ => id) rfl⟩

theorem inv_forkFail (hp : (s.proc p).state = .running)
    (hpc : s.pc p = .forking np) : Inv ((s.set np { s.proc np with state := .unused }).at_ p .user) where
  toKin := kin_forkFail h.toKin hpc
  toWaits := waits_at (waits_set h.toWaits rfl (by simp) (by simp)) (by grind [h.child p np])
  few := h.few
  numbered := by
    obtain ⟨m, hm, hnum⟩ := h.numbered
    exact ⟨m, hm, hnum.same rfl (by grind) (by grind) rfl⟩

theorem inv_setParent (hp : (s.proc p).state = .running)
    (hpc : s.pc p = .forking np) :
    Inv ((s.set np { s.proc np with parent := some p }).at_ p (.ready np)) where
  toKin := kin_setParent h.toKin hp hpc
  toWaits := waits_setParent h.toWaits hp (h.forking p np hpc) (h.child p np (by simp [hpc, Pc.child]))
  few := h.few
  numbered := by
    obtain ⟨m, hm, hnum⟩ := h.numbered
    exact ⟨m, hm, hnum.same rfl (by grind) (by grind) rfl⟩

theorem inv_forkDone (hp : (s.proc p).state = .running)
    (hpc : s.pc p = .ready np) : Inv ((s.set np { s.proc np with state := .runnable }).at_ p .user) where
  toKin := kin_forkDone h.toKin hp hpc
  toWaits := waits_at (waits_set h.toWaits rfl (by simp) (by simp)) (by grind [h.child p np])
  few := h.few
  numbered := by
    obtain ⟨m, hm, hnum⟩ := h.numbered
    exact ⟨m, hm, hnum.same rfl (by grind) (by grind [h.child p np]) rfl⟩

theorem inv_leave (hp : (s.proc p).state = .running) (hpc : s.pc p = .exiting) :
    Inv (s.leave p) where
  toKin := kin_leave h.toKin hp hpc
  toWaits := waits_leave h.toWaits h.toKin hp
  few := h.few
  numbered := by
    classical
    obtain ⟨m, hm, hnum⟩ := h.numbered
    have hpid : ∀ i, ((s.leave p).proc i).pid = (s.proc i).pid := fun i => by rw [leave_eq]
    exact ⟨m, hm, hnum.same rfl hpid (by grind [leave_state, Woken]) rfl⟩

/-- A round of the loop of `wait` keeps the invariant. -/
theorem inv_waitRound (hp : (s.proc p).state = .running) : Inv (s.waitRound p) := by
  obtain ⟨m, hm, hnum⟩ := h.numbered
  rw [State.waitRound]
  split
  · rename_i q hfind
    obtain ⟨hq, hz⟩ : (s.proc q).parent = some p ∧ (s.proc q).state = .zombie := by
      simpa using find_spec hfind
    exact ⟨kin_reap h.toKin hq hz, waits_reap h.toWaits hp hq, h.few, m, hm, hnum.reap (by simp [hz])⟩
  · rename_i hfind
    have hz := find_none hfind
    split_ifs with hnot
    · have h' : Inv (s.at_ p .user) := inv_at h hp (by simp [Pc.child]) (by simp)
      exact ⟨⟨h'.unused, h'.live, h'.parent, h'.root, h'.other, h'.initproc, h'.stays, h'.busy,
        h'.child, h'.one,
        h'.forking, h'.ready⟩, ⟨h'.chan, h'.kids, h'.zombie, h'.killed⟩, h.few, m, hm, hnum.fail⟩
    · push Not at hnot
      refine ⟨kin_set h.toKin rfl (by grind), waits_doze h.toWaits hnot.1 (by simpa using hz)
        (by simpa using hnot.2),
        h.few, m, hm, hnum.same rfl (by grind) (by grind) rfl⟩

theorem inv_kill {pid : Int32} : Inv (s.kill pid).2 := by
  rw [State.kill]
  split
  · exact h
  · refine inv_set h rfl rfl ?_ ?_ <;> grind

open Act (by_)

theorem inv_stepOf (hg : Few (2 ^ 31 - 1) s a)
    (hp : (s.proc a.by_).state = .running) (hs : stepOf s a = .next s') : Inv s' := by
  cases a with
  | fork p =>
    have := hg rfl
    grind [stepOf, inv_fork, by_]
  | forkFail p => grind [stepOf, inv_forkFail, by_]
  | setParent p => grind [stepOf, inv_setParent, by_]
  | forkDone p => grind [stepOf, inv_forkDone, by_]
  | exit p =>
    obtain ⟨m, -, hnum⟩ := h.numbered
    have hteardown : teardown p s.proc = s.proc := teardown_eq hnum hp
    have hat : p ≠ initproc → Inv (s.at_ p .exiting) := fun hne => inv_at h hp (by simp [Pc.child])
      fun _ => hne
    rw [stepOf, hteardown] at hs
    grind [State.at_]
  | exitDone p => grind [stepOf, inv_leave, by_]
  | wait p =>
    have := inv_at (x := .waiting) h hp (by simp [Pc.child]) (by simp)
    grind [stepOf, by_]
  | waitLoop p =>
    have hset : Inv (s.set p { s.proc p with chan := none }) :=
      inv_set h rfl rfl (.inl rfl) (by simp_all [by_])
    have := inv_waitRound hset (p := p) (by grind [by_])
    grind [stepOf]
  | kill p pid =>
    have : Inv (s.kill pid).2 := inv_kill h
    grind [stepOf]
  | yield p =>
    have := inv_set (y := { s.proc p with state := .runnable }) h rfl rfl
      (.inr (by grind [by_])) (by simp)
    grind [stepOf]
  | sleep p =>
    have := inv_set (y := { s.proc p with state := .sleeping, chan := some .other }) h rfl rfl
      (.inr (by grind [by_]))
    grind [stepOf]
  | dispatch | wakeup => cases hs

theorem inv_next (hg : Few (2 ^ 31 - 1) s a) (hs : step s a = .next s') : Inv s' := by
  cases a with
  | dispatch p =>
    have := inv_set (y := { s.proc p with state := .running }) h rfl rfl
    grind [step]
  | wakeup p =>
    have := inv_set (y := { s.proc p with state := .runnable }) h rfl rfl
    grind [step]
  | _ =>
    simp only [step] at hs
    split at hs
    · exact inv_stepOf h hg ‹_› hs
    · cases hs

end

theorem returned_next (hs : step s a = .next s') : Returned s s' := by
  cases a with
  | waitLoop p =>
    have hround := returned_waitRound (s.set p { s.proc p with chan := none }) p
    have hs' : s' = (s.set p { s.proc p with chan := none }).waitRound p := by
      grind [step, stepOf]
    have hsame : ∀ i, (s.set p { s.proc p with chan := none }).proc i =
        { s.proc i with chan := if i = p then none else (s.proc i).chan } := by
      intro i
      rw [set_proc]
      split_ifs with hi
      · rw [hi]
      · rfl
    simpa only [Returned, hsame, set_log, hs'] using hround
  | _ => grind [step, stepOf, Returned, alloc_log, kill_log, State.leave]

/-- The protocol of `exit` and `wait`. -/
structure Protocol (s : State N) : Prop where
  positive : ∀ i, (s.proc i).state ≠ .unused → 0 < (s.proc i).pid
  distinct : ∀ i j, (s.proc i).state ≠ .unused → (s.proc j).state ≠ .unused → (s.proc i).pid =
    (s.proc j).pid → i = j
  zombie : ∀ i, (s.proc i).state = .zombie →
    ∃ q, (s.proc i).parent = some q ∧ (s.proc q).state ≠ .unused ∧ (s.proc q).state ≠ .zombie
  asleep : ∀ p, s.Asleep p → (∃ q, (s.proc q).state ≠ .unused ∧ (s.proc q).parent = some p) ∧
    (∀ q, (s.proc q).parent = some p → (s.proc q).state ≠ .zombie) ∧ (s.proc p).killed = false
  once : ((s.log.map Ret.r).filter (· ≠ -1)).Nodup
  returned : ∀ a s', step s a = .next s' → Returned s s'

theorem protocol_of_reach (h : Machine.Reach step (Few (2 ^ 31 - 1)) init s) : Protocol s := by
  have hinv : Inv s := h.inv inv_init fun _ _ _ h hg hs => inv_next h hg hs
  obtain ⟨m, hm, hnum⟩ := hinv.numbered
  refine ⟨fun i hi => ?_, fun i j hi _ hij => hnum.distinct i j hij (hnum.nonzero i hi), fun i hi =>
    ?_, fun p hp => ?_,
    hnum.once, fun a s' hs => returned_next hs⟩
  · rw [Int32.lt_iff_toInt_lt]
    refine (hnum.range i).1.lt_of_ne fun h0 => hnum.nonzero i hi ?_
    exact Int32.toInt_inj.mp h0.symm
  · have hne : i ≠ initproc := by
      rintro rfl
      have := hinv.initproc
      grind
    obtain ⟨q, hq⟩ := Option.ne_none_iff_exists'.mp (hinv.parent i (by simp [hi]) (by simp [hi]) hne)
    have := hinv.live i q hq
    exact ⟨q, hq, by grind, by grind⟩
  · obtain ⟨q, hq⟩ := hinv.kids p hp
    refine ⟨⟨q, fun hu => ?_, hq⟩, fun q => hinv.zombie p q hp, hinv.killed p hp⟩
    rw [hinv.unused q hu] at hq
    cases hq


/-- The first process forks a child, waits for it, and the child exits. -/
def exitWait : List (Act 64) :=
  [.dispatch 0, .fork 0, .setParent 0, .forkDone 0, .wait 0, .waitLoop 0, .dispatch 1, .exit 1,
    .exitDone 1]

theorem protocol_of_reach_exitWait : ∃ s : State 64, Machine.Reach step (Few (2 ^ 31 - 1)) init s ∧
    (s.proc 0).state = .runnable ∧ (s.proc 1).state = .zombie ∧ (s.proc 1).parent = some 0 ∧
    Protocol s := by
  obtain ⟨s, hs, hs'⟩ := Machine.exists_reach step (Few (2 ^ 31 - 1)) init exitWait
    (fun s => decide ((s.proc 0).state = .runnable ∧ (s.proc 1).state = .zombie ∧
      (s.proc 1).parent = some 0)) true
    (by decide +kernel)
  obtain ⟨h0, h1, h2⟩ := of_decide_eq_true hs'
  exact ⟨s, hs, h0, h1, h2, protocol_of_reach hs⟩

/-! ### Pids past the largest `int` -/

/-- After `m` calls of `fork` by the first process that found no memory. -/
def failed (m : ℕ) : State 64 where
  proc := fun i => if i = 0 then ⟨.running, 1, none, false, none⟩
    else ⟨.unused, if i = 1 ∧ m ≠ 0 then Int32.ofNat (m + 1) else 0, none, false, none⟩
  pc := fun _ => .user
  nextpid := Int32.ofNat (m + 2)
  forks := m
  log := []

/-- In one more call. -/
def forked (m : ℕ) : State 64 where
  proc := update (failed m).proc 1 ⟨.embryo, Int32.ofNat (m + 2), none, false, none⟩
  pc := update (failed m).pc 0 (.forking 1)
  nextpid := Int32.ofNat (m + 3)
  forks := m + 1
  log := []

theorem step_failed (m : ℕ) : step (failed m) (.fork 0) = .next (forked m) := by
  have hfind : (failed m).find (fun y => y.state = .unused) = some 1 := by
    refine find_eq_some (by simp [failed]) fun j hj => ?_
    have : j = 0 := by omega
    simp [failed, this]
  have hpid : Int32.ofNat (m + 2) + 1 = Int32.ofNat (m + 3) := (Int32.ofNat_add (m + 2) 1).symm
  have halloc : { (failed m).alloc 0 with forks := m + 1 } = forked m := by
    rw [State.alloc, hfind]
    simp [failed, forked, State.set, State.at_, hpid, -Int32.ofNat_add]
  rw [← halloc]
  rfl

theorem step_forked (m : ℕ) : step (forked m) (.forkFail 0) = .next (failed (m + 1)) := by
  have hset : (((forked m).set 1 { (forked m).proc 1 with state := .unused }).at_ 0 .user) =
    failed (m + 1) := by
    rw [failed, State.mk.injEq]
    refine ⟨funext fun i => ?_, funext fun i => ?_, rfl, rfl, rfl⟩
    · by_cases hi : i = 1 <;> simp [forked, failed, hi, -Int32.ofNat_add]
    · by_cases hi : i = 0 <;> simp [forked, failed, hi]
  rw [← hset]
  rfl

theorem step_init : step (init : State 64) (.dispatch 0) = .next (failed 0) := by
  have hset : (init : State 64).set 0 { (init : State 64).proc 0 with state := .running } = failed 0 := by
    rw [failed, State.mk.injEq]
    refine ⟨funext fun i => ?_, rfl, rfl, rfl, rfl⟩
    by_cases hi : i = 0 <;> simp [init, initproc, hi]
  rw [← hset]
  rfl

theorem reach_failed (hm : m < 2 ^ 31) : Machine.Reach step (Few (2 ^ 31)) init (failed m) := by
  induction m with
  | zero => exact .next (a := .dispatch 0) .refl nofun step_init
  | succ m ih =>
    have hfew : Few (2 ^ 31) (failed m) (.fork 0) := fun _ => hm
    exact .next (a := .forkFail 0) (.next (ih (by omega)) hfew (step_failed m)) nofun (step_forked m)

/-- The last of 2³¹ − 1 calls of `fork` makes a process with the pid −2³¹. -/
theorem pid_overflow : ∃ s : State 64, Machine.Reach step (Few (2 ^ 31)) init s ∧ s.forks = 2 ^ 31 - 1 ∧
    (s.proc 1).state ≠ .unused ∧ (s.proc 1).pid < 0 := by
  refine ⟨forked (2 ^ 31 - 2), .next (reach_failed (by norm_num)) ?_ (step_failed _), rfl, ?_, ?_⟩
  · exact fun _ => (by norm_num : 2 ^ 31 - 2 + 1 < 2 ^ 31)
  · simp [forked]
  · simp only [forked, Function.update_self]
    decide

end

end Xv6.ProcTable
