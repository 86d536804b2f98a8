/-
# Concurrent operations on the log

`begin_op`, `log_write`, `end_op` and `commit` of log.c, with `sleep` and `wakeup` of proc.c, by any
number of processes. Each process has a place in this code (`Pc`), and an action takes one process
on to where it next needs a lock or looks at what others may change. What is done between acquiring
and releasing a spin lock is one action, unless a second lock is acquired in between: `sleep` and
`wakeup` acquire `ptable.lock` with `log.lock` held. The tests at the start of `log_write` are made
without the lock, so they are an action of their own.

`trace` and the numbers and block sets of operations are a record; no action depends on them.
`commit` with an empty log touches no block; the record shows it as a commit of no blocks.

The log keeps operations apart from commits (`isolated`): a commit starts when all operations have
ended, and has the blocks of all operations since the last commit. Nobody sleeps who could be
admitted. But the room that `begin_op` counts on is one block more than the log has: three
operations that log ten blocks each make `log_write` panic (`thirty_blocks`). With nine blocks each
they do not (`fits`).
-/
import Xv6.Lib.Machine
import Xv6.Param

namespace Xv6.GroupCommit

open List (mem_append mem_singleton)

/-- Where a process is in log.c. -/
inductive Pc where
  /-- In no operation. -/
  | idle
  /-- In `begin_op`, before the loop's test; `log.lock` is to be acquired. -/
  | entering
  /-- Refused, in `sleep` with `log.lock` held. -/
  | sleepy
  /-- In `sleep` with `ptable.lock` held, and `log.lock` released. -/
  | dozing
  /-- SLEEPING on `&log`. -/
  | asleep
  /-- In operation `op`, which has logged the blocks `mine`. -/
  | running (op : ℕ) (mine : Finset ℕ)
  /-- In `log_write` of block `b`, after the tests. -/
  | logging (op : ℕ) (mine : Finset ℕ) (b : ℕ)
  /-- In `end_op` with `log.lock` held, at `wakeup`. -/
  | waking
  /-- In `commit`, before the log is written. -/
  | writing
  /-- In `commit`, with the header on disk. -/
  | installing
  /-- `commit` has returned. -/
  | committed
  /-- In `end_op` after the commit, with `log.lock` held, at `wakeup`. -/
  | clearing
  deriving DecidableEq

inductive Event where
  | enter (op : ℕ)
  | log (op b : ℕ)
  | finish (op : ℕ)
  /-- The log is written, with these block numbers in the header. -/
  | commit (blocks : List ℕ)
  /-- The log is empty again. -/
  | cleared
  deriving DecidableEq

/-- `struct log`, the two locks if they are held from one action to the next, and the
processes. -/
structure State (P : Type) where
  /-- Who holds `log.lock`. -/
  lock : Option P
  /-- Who holds `ptable.lock`. -/
  ptable : Option P
  outstanding : ℤ
  committing : Bool
  /-- The block numbers of `log.lh`. -/
  lh : List ℕ
  pc : P → Pc
  /-- The number of the next operation. -/
  op : ℕ
  trace : List Event

inductive Act (P : Type) where
  /-- Call `begin_op`. -/
  | start (p : P)
  /-- The test of `begin_op`. -/
  | enter (p : P)
  /-- `acquire(&ptable.lock); release(lk);` of `sleep`. -/
  | doze (p : P)
  /-- `p->state = SLEEPING; sched();` -/
  | sleep (p : P)
  /-- Call `log_write`; its tests. -/
  | check (p : P) (b : ℕ)
  /-- The rest of `log_write`. -/
  | append (p : P)
  /-- `end_op` up to `wakeup` or `commit`. -/
  | finish (p : P)
  /-- `wakeup(&log); release(&log.lock);` -/
  | wake (p : P)
  /-- `write_log(); write_head();` -/
  | write (p : P)
  /-- `install_trans(); log.lh.n = 0; write_head();` -/
  | install (p : P)
  /-- `acquire(&log.lock); log.committing = 0;` -/
  | clear (p : P)
  /-- Somebody kills a process that sleeps. -/
  | kill (p : P)

/-- `wakeup1`: a process that sleeps is to run again. -/
def Pc.woken : Pc → Pc
  | .asleep => .entering
  | x => x

namespace State

variable {P : Type} [DecidableEq P]

def at_ (s : State P) (p : P) (x : Pc) : State P := { s with pc := Function.update s.pc p x }

/-- `begin_op` would not let an operation in. -/
def Refuses (s : State P) : Prop :=
  s.committing = true ∨ (LOGSIZE : ℤ) < s.lh.length + (s.outstanding + 1) * MAXOPBLOCKS

instance (s : State P) : Decidable s.Refuses := inferInstanceAs (Decidable (_ ∨ _))

/-- `log_write` finds the log full; `nlog` is `log.size`. -/
def Full (nlog : ℕ) (s : State P) : Prop := LOGSIZE ≤ s.lh.length ∨ nlog ≤ s.lh.length + 1

instance (nlog : ℕ) (s : State P) : Decidable (s.Full nlog) := inferInstanceAs (Decidable (_ ∨ _))

/-- `wakeup(&log); release(&log.lock);`, and `end_op` returns. -/
def wakeAll (s : State P) (p : P) : State P :=
  { s with lock := none, pc := fun q => if q = p then .idle else (s.pc q).woken }

end State

section

variable {P : Type} [DecidableEq P] {w : Pc → ℤ} {G : State P → Act P → Prop} {x : Pc} {k n : ℕ}

/-- All is quiet: the state after `initlog`. -/
def init : State P := ⟨none, none, 0, false, [], fun _ => .idle, 0, []⟩

def step (nlog : ℕ) (s : State P) : Act P → Outcome (State P)
  | .start p => if s.pc p = .idle then .next (s.at_ p .entering) else .blocked
  | .enter p =>
    if s.pc p = .entering ∧ s.lock = none then
      if s.Refuses then .next { s.at_ p .sleepy with lock := some p }
      else .next { s.at_ p (.running s.op ∅) with
        outstanding := s.outstanding + 1, op := s.op + 1, trace := s.trace ++ [.enter s.op] }
    else .blocked
  | .doze p =>
    if s.pc p = .sleepy ∧ s.ptable = none then .next { s.at_ p
      .dozing with lock := none, ptable := some p }
    else .blocked
  | .sleep p => if s.pc p = .dozing then .next { s.at_ p .asleep with ptable := none } else .blocked
  | .check p b =>
    match s.pc p with
    | .running n D =>
      if s.Full nlog then .panic "too big a transaction"
      else if s.outstanding < 1 then .panic "log_write outside of trans"
      else .next (s.at_ p (.logging n D b))
    | _ => .blocked
  | .append p =>
    match s.pc p with
    | .logging n D b =>
      if s.lock = none then
        .next { s.at_ p (.running n (insert b D)) with
          lh := if b ∈ s.lh then s.lh else s.lh ++ [b], trace := s.trace ++ [.log n b] }
      else .blocked
    | _ => .blocked
  | .finish p =>
    match s.pc p with
    | .running n _ =>
      if s.lock = none then
        if s.committing then .panic "log.committing"
        else if s.outstanding - 1 = 0 then
          .next { s.at_ p .writing with
            outstanding := s.outstanding - 1, committing := true, trace := s.trace ++ [.finish n] }
        else
          .next { s.at_ p .waking with
            outstanding := s.outstanding - 1, lock := some p, trace := s.trace ++ [.finish n] }
      else .blocked
    | _ => .blocked
  | .wake p =>
    if (s.pc p = .waking ∨ s.pc p = .clearing) ∧ s.ptable = none then .next (s.wakeAll p) else .blocked
  | .write p =>
    if s.pc p = .writing then .next { s.at_ p
      .installing with trace := s.trace ++ [.commit s.lh] } else .blocked
  | .install p =>
    if s.pc p = .installing then .next { s.at_ p
      .committed with lh := [], trace := s.trace ++ [.cleared] }
    else .blocked
  | .clear p =>
    if s.pc p = .committed ∧ s.lock = none then
      .next { s.at_ p .clearing with committing := false, lock := some p }
    else .blocked
  | .kill p => if s.pc p = .asleep ∧ s.ptable = none then .next (s.at_ p .entering) else .blocked

/-! ### What an action does -/

/-- The actions, with all that is known of the state before. -/
inductive Next (nlog : ℕ) (s : State P) : Act P → State P → Prop where
  | start {p : P} (hp : s.pc p = .idle) : Next nlog s (.start p) (s.at_ p .entering)
  | enter {p : P} (hp : s.pc p = .entering) (hl : s.lock = none) (hr : ¬s.Refuses) :
      Next nlog s (.enter p) { s.at_ p (.running s.op ∅) with
        outstanding := s.outstanding + 1, op := s.op + 1, trace := s.trace ++ [.enter s.op] }
  | refuse {p : P} (hp : s.pc p = .entering) (hl : s.lock = none) (hr : s.Refuses) :
      Next nlog s (.enter p) { s.at_ p .sleepy with lock := some p }
  | doze {p : P} (hp : s.pc p = .sleepy) (ht : s.ptable = none) :
      Next nlog s (.doze p) { s.at_ p .dozing with lock := none, ptable := some p }
  | sleep {p : P} (hp : s.pc p = .dozing) : Next nlog s (.sleep p) { s.at_ p .asleep with ptable := none }
  | check {p : P} {b n : ℕ} {D : Finset ℕ} (hp : s.pc p = .running n D) (hf : ¬s.Full nlog) :
      Next nlog s (.check p b) (s.at_ p (.logging n D b))
  | append {p : P} {b n : ℕ} {D : Finset ℕ} (hp : s.pc p = .logging n D b) (hl : s.lock = none) :
      Next nlog s (.append p) { s.at_ p (.running n (insert b D)) with
        lh := if b ∈ s.lh then s.lh else s.lh ++ [b], trace := s.trace ++ [.log n b] }
  | last {p : P} {n : ℕ} {D : Finset ℕ} (hp : s.pc p = .running n D) (hl : s.lock = none)
      (hc : s.committing = false) (ho : s.outstanding = 1) :
      Next nlog s (.finish p) { s.at_ p .writing with
        outstanding := s.outstanding - 1, committing := true, trace := s.trace ++ [.finish n] }
  | finish {p : P} {n : ℕ} {D : Finset ℕ} (hp : s.pc p = .running n D) (hl : s.lock = none)
      (hc : s.committing = false) (ho : s.outstanding ≠ 1) :
      Next nlog s (.finish p) { s.at_ p .waking with
        outstanding := s.outstanding - 1, lock := some p, trace := s.trace ++ [.finish n] }
  | wake {p : P} (hp : s.pc p = .waking ∨ s.pc p = .clearing) (ht : s.ptable = none) :
      Next nlog s (.wake p) (s.wakeAll p)
  | write {p : P} (hp : s.pc p = .writing) :
      Next nlog s (.write p) { s.at_ p .installing with trace := s.trace ++ [.commit s.lh] }
  | install {p : P} (hp : s.pc p = .installing) :
      Next nlog s (.install p) { s.at_ p .committed with lh := [], trace := s.trace ++ [.cleared] }
  | clear {p : P} (hp : s.pc p = .committed) (hl : s.lock = none) :
      Next nlog s (.clear p) { s.at_ p .clearing with committing := false, lock := some p }
  | kill {p : P} (hp : s.pc p = .asleep) : Next nlog s (.kill p) (s.at_ p .entering)

theorem next_of_step {nlog : ℕ} {s s' : State P} {a : Act P} (h : step nlog s a = .next s') :
    Next nlog s a s' := by
  cases a <;> simp only [step] at h
  case start p =>
    split at h <;> cases h
    exact .start ‹_›
  case enter p =>
    split at h
    · rename_i hp
      split at h <;> cases h
      · exact .refuse hp.1 hp.2 ‹_›
      · exact .enter hp.1 hp.2 ‹_›
    · cases h
  case doze p =>
    split at h <;> cases h
    rename_i hp
    exact .doze hp.1 hp.2
  case sleep p =>
    split at h <;> cases h
    exact .sleep ‹_›
  case check p b =>
    split at h
    · rename_i hp
      split at h
      · cases h
      · split at h <;> cases h
        exact .check hp ‹_›
    · cases h
  case append p =>
    split at h
    · rename_i hp
      split at h <;> cases h
      exact .append hp ‹_›
    · cases h
  case finish p =>
    split at h
    · rename_i hp
      split at h
      · rename_i hl
        split at h
        · cases h
        · rename_i hc
          split at h <;> cases h
          · exact .last hp hl (by simpa using hc) (by omega)
          · exact .finish hp hl (by simpa using hc) (by omega)
      · cases h
    · cases h
  case wake p =>
    split at h <;> cases h
    rename_i hp
    exact .wake hp.1 hp.2
  case write p =>
    split at h <;> cases h
    exact .write ‹_›
  case install p =>
    split at h <;> cases h
    exact .install ‹_›
  case clear p =>
    split at h <;> cases h
    rename_i hp
    exact .clear hp.1 hp.2
  case kill p =>
    split at h <;> cases h
    rename_i hp
    exact .kill hp.1

/-! ### The state -/

namespace Pc

/-- Holds `log.lock` from one action to the next. -/
def holdsLog : Pc → Bool
  | .sleepy | .waking | .clearing => true
  | _ => false

/-- Counts 1 in an operation. -/
def act : Pc → ℤ
  | .running _ _ | .logging _ _ _ => 1
  | _ => 0

/-- Counts 1 between setting and clearing `log.committing`. -/
def commits : Pc → ℤ
  | .writing | .installing | .committed => 1
  | _ => 0

/-- Sleeps, or is about to. -/
def rests : Pc → Bool
  | .sleepy | .dozing | .asleep => true
  | _ => false

/-- Is about to wake the others. -/
def rouses : Pc → Bool
  | .waking | .clearing => true
  | _ => false

theorem act_nonneg (x : Pc) : 0 ≤ x.act := by cases x <;> simp [act]

theorem commits_nonneg (x : Pc) : 0 ≤ x.commits := by cases x <;> simp [commits]

theorem woken_act (x : Pc) : x.woken.act = x.act := by cases x <;> rfl

theorem woken_commits (x : Pc) : x.woken.commits = x.commits := by cases x <;> rfl

theorem woken_holdsLog (x : Pc) : x.woken.holdsLog = x.holdsLog := by cases x <;> rfl

theorem woken_dozing {x : Pc} : x.woken = .dozing ↔ x = .dozing := by cases x <;> simp [woken]

theorem woken_committed {x : Pc} : x.woken = .committed ↔ x = .committed := by cases x <;> simp [woken]

/-- Whom `wakeup` does not find asleep, and who is about to sleep all the same, has a lock. -/
theorem woken_rests {x : Pc} (h : x.woken.rests = true) : x.holdsLog = true ∨ x = .dozing := by
  cases x <;> simp_all [woken, rests, holdsLog]

end Pc

/-- The holder of `log.lock` is about to wake the others. -/
def State.Rousing (s : State P) : Prop := ∃ q, s.lock = some q ∧ (s.pc q).rouses = true

variable {nlog : ℕ} {s s' : State P} {a : Act P} {p : P}

theorem at_pc (x : Pc) (q : P) :
    (s.at_ p x).pc q = if q = p then x else s.pc q := Function.update_apply ..

theorem wakeAll_pc (q : P) : (s.wakeAll p).pc q = if q = p then .idle else (s.pc q).woken := rfl

variable [Fintype P]

structure Inv (s : State P) : Prop where
  lock : ∀ p, (s.pc p).holdsLog = true ↔ s.lock = some p
  ptable : ∀ p, s.pc p = .dozing ↔ s.ptable = some p
  count : ∑ p, (s.pc p).act = s.outstanding
  committing : ∑ p, (s.pc p).commits = s.committing.toNat
  alone : s.committing = true → s.outstanding = 0
  empty : s.committing = false → s.outstanding = 0 → s.lh = []
  cleared : ∀ p, s.pc p = .committed → s.lh = []
  tested : ∀ p, (s.pc p).rests = true → s.Refuses ∨ s.Rousing

theorem sum_at (w : Pc → ℤ) (x : Pc) : ∑ q, w ((s.at_ p x).pc q) = ∑ q, w (s.pc q) - w (s.pc p) + w x :=
  sum_update w s.pc p x

/-- `wakeup` by a process that does not count changes no count. -/
theorem sum_wakeAll (hw : ∀ x : Pc, w x.woken = w x) (hp : w (s.pc p) = w .idle) :
    ∑ q, w ((s.wakeAll p).pc q) = ∑ q, w (s.pc q) := by
  refine Finset.sum_congr rfl fun q _ => ?_
  rw [wakeAll_pc]
  split_ifs with hq
  · rw [hq, hp]
  · exact hw _

omit [DecidableEq P] in
theorem le_sum (hw : ∀ x, 0 ≤ w x) (s : State P) (p : P) : w (s.pc p) ≤ ∑ q, w (s.pc q) :=
  Finset.single_le_sum (f := fun q => w (s.pc q)) (fun _ _ => hw _) (Finset.mem_univ p)

namespace Inv

omit [DecidableEq P] in
/-- Who is in an operation is counted. -/
theorem active (h : Inv s) (hp : (s.pc p).act = 1) : 1 ≤ s.outstanding := by
  rw [← h.count, ← hp]
  exact le_sum Pc.act_nonneg s p

omit [DecidableEq P] in
theorem committer (h : Inv s) (hp : (s.pc p).commits = 1) : s.committing = true := by
  have := le_sum Pc.commits_nonneg s p
  rw [h.committing, hp] at this
  cases hc : s.committing
  · rw [hc] at this
    cases this
  · rfl

omit [DecidableEq P] in
theorem init : Inv (init : State P) := by
  constructor <;> simp [GroupCommit.init, Pc.holdsLog, Pc.act, Pc.commits, Pc.rests]

section

variable (h : Inv s)
include h

omit [DecidableEq P] in
theorem nonneg : 0 ≤ s.outstanding := by
  rw [← h.count]
  exact Finset.sum_nonneg fun q _ => Pc.act_nonneg _

theorem count_next (hn : Next nlog s a s') : ∑ p, (s'.pc p).act = s'.outstanding := by
  cases hn with
  | start hp | refuse hp | doze hp | sleep hp | check hp | append hp | write hp | install hp
  | clear hp | kill hp =>
    exact (sum_at Pc.act _).trans (by rw [h.count, hp]; simp [Pc.act, State.at_])
  | enter hp | last hp | finish hp =>
    exact (sum_at Pc.act _).trans (by rw [h.count, hp]; simp [Pc.act])
  | wake hp =>
    refine (sum_wakeAll Pc.woken_act ?_).trans h.count
    rcases hp with hp | hp <;> rw [hp] <;> rfl

theorem committing_next (hn : Next nlog s a s') : ∑ p, (s'.pc p).commits = s'.committing.toNat := by
  cases hn with
  | start hp | enter hp | refuse hp | doze hp | sleep hp | check hp | append hp | finish hp
  | write hp | install hp | kill hp =>
    exact (sum_at Pc.commits _).trans (by rw [h.committing, hp]; simp [Pc.commits, State.at_])
  | last hp _ hc => exact (sum_at Pc.commits _).trans (by rw [h.committing, hp, hc]; simp [Pc.commits])
  | clear hp =>
    have := h.committer (by rw [hp]; rfl)
    exact (sum_at Pc.commits _).trans (by rw [h.committing, hp, this]; simp [Pc.commits])
  | wake hp =>
    refine (sum_wakeAll Pc.woken_commits ?_).trans h.committing
    rcases hp with hp | hp <;> rw [hp] <;> rfl

/-- Locks are held by whom the place says. -/
theorem locks_next (hn : Next nlog s a s') :
    (∀ p, (s'.pc p).holdsLog = true ↔ s'.lock = some p) ∧ ∀ p, s'.pc p = .dozing ↔
    s'.ptable = some p := by
  have hlock := h.lock
  have hptable := h.ptable
  cases hn with
  | start hp | enter hp | doze hp | sleep hp | check hp | append hp | last hp | write hp
  | install | kill | refuse | finish | clear =>
    constructor <;> grind [at_pc, Pc.holdsLog, State.at_]
  | wake hp =>
    constructor <;> grind [wakeAll_pc, Pc.holdsLog, Pc.woken_holdsLog, Pc.woken_dozing, State.wakeAll]

theorem alone_next (hn : Next nlog s a s') : s'.committing = true → s'.outstanding = 0 := by
  have halone := h.alone
  cases hn with
  | enter _ _ hr => exact fun hc => absurd (.inl hc) hr
  | last _ _ _ ho => exact fun _ => by rw [ho]; rfl
  | finish _ _ hc => exact fun hc' => by rw [show s.committing = true from hc'] at hc; cases hc
  | clear => exact fun hc => by cases hc
  | _ => exact halone

theorem empty_next (hn : Next nlog s a s') :
    s'.committing = false → s'.outstanding = 0 → s'.lh = [] := by
  have hempty := h.empty
  cases hn with
  | enter =>
    have := h.nonneg
    intro _ ho
    simp only at ho
    omega
  | append hp =>
    have := h.active (by rw [hp]; rfl)
    intro _ ho
    simp only [State.at_] at ho
    omega
  | last => exact fun hc => by cases hc
  | finish _ _ _ ho => exact fun _ ho' => absurd (by simp only at ho'; omega) ho
  | install => exact fun _ _ => rfl
  | clear hp => exact fun _ _ => h.cleared _ hp
  | _ => exact hempty

theorem cleared_next (hn : Next nlog s a s') : ∀ p, s'.pc p = .committed → s'.lh = [] := by
  have hcleared := h.cleared
  cases hn with
  | append hp =>
    intro q hq
    have hact := h.active (by rw [hp]; rfl)
    have hq' : s.pc q = .committed := by
      simp only [at_pc] at hq
      split at hq
      · cases hq
      · exact hq
    have := h.alone (h.committer (by rw [hq']; rfl))
    omega
  | install => exact fun _ _ => rfl
  | wake => grind [wakeAll_pc, Pc.woken_committed, State.wakeAll]
  | _ => grind [at_pc, State.at_]

/-- No one sleeps without a reason that lasts: the state refuses new operations, or the holder of
the lock is going to wake all sleepers. -/
theorem tested_next (hn : Next nlog s a s') :
    ∀ p, (s'.pc p).rests = true → s'.Refuses ∨ s'.Rousing := by
  have htested := h.tested
  have hlock := h.lock
  cases hn with
  | start | sleep | check | write | kill | enter | doze | append =>
    grind [at_pc, State.at_, Pc.rests, Pc.rouses, Pc.holdsLog, State.Rousing, State.Refuses]
  | refuse _ _ hr => exact fun _ _ => .inl hr
  | last => exact fun _ _ => .inl (.inl rfl)
  | finish | clear => exact fun _ _ => .inr ⟨_, rfl, by simp [at_pc, Pc.rouses]⟩
  | install hp => exact fun _ _ => .inl (.inl (h.committer (by rw [hp]; rfl)))
  | wake hp ht =>
    -- nobody is about to sleep: that takes one of the two locks
    have hptable := h.ptable
    grind [wakeAll_pc, Pc.woken_rests, Pc.rests, Pc.holdsLog]

theorem next (hn : Next nlog s a s') : Inv s' :=
  ⟨(h.locks_next hn).1, (h.locks_next hn).2, h.count_next hn, h.committing_next hn, h.alone_next hn,
    h.empty_next hn, h.cleared_next hn, h.tested_next hn⟩

/-- Only one process commits at a time. -/
theorem committer_unique {q : P} (hp : (s.pc p).commits = 1)
    (hq : (s.pc q).commits = 1) : q = p := by
  by_contra hne
  have hle := le_sum Pc.commits_nonneg (s.at_ p .idle) q
  rw [sum_at, h.committing, h.committer hp, hp, at_pc, if_neg hne, hq] at hle
  simp [Pc.commits] at hle

end

omit [DecidableEq P] in
theorem not_installing (h : Inv s) (hc : s.committing = false) (q : P) : s.pc q ≠ .installing :=
    fun hq => by
  rw [h.committer (by rw [hq]; rfl)] at hc
  cases hc

end Inv

theorem inv_of_reach (h : Machine.Reach (step nlog) G init s) : Inv s :=
  h.inv Inv.init fun _ _ _ hi _ hs => hi.next (next_of_step hs)

/-! ### The record -/

/-- What has happened since the log was emptied last. -/
def since (t : List Event) : List Event := t.foldl (fun l e => if e = .cleared then [] else l ++ [e]) []

theorem since_snoc (t : List Event) (e : Event) :
    since (t ++ [e]) = if e = .cleared then [] else since t ++ [e] := by
  rw [since, List.foldl_append]
  rfl

theorem since_subset (t : List Event) : since t ⊆ t := by
  induction t using List.reverseRecOn with
  | nil => exact List.Subset.refl _
  | append_singleton t e ih =>
    rw [since_snoc]
    split
    · exact List.nil_subset _
    · exact fun x hx => by
        rcases List.mem_append.mp hx with hx | hx
        · exact List.mem_append_left _ (ih hx)
        · exact List.mem_append_right _ hx

theorem snoc_eq_append_cons {α : Type} {t l r : List α} {e x : α} (h : t ++ [e] = l ++ x :: r) :
    (∃ r', t = l ++ x :: r') ∨ (l = t ∧ x = e) := by
  rcases List.eq_nil_or_concat r with rfl | ⟨r', y, rfl⟩
  · obtain ⟨ht, he⟩ := List.append_inj' h rfl
    exact .inr ⟨ht.symm, (List.cons.inj he).1.symm⟩
  · rw [List.concat_eq_append, ← List.cons_append, ← List.append_assoc] at h
    exact .inl ⟨r', (List.append_inj' h rfl).1⟩

/-- The commit of the blocks `bs` after `pre`, in the record `t`, is right: it is the only one since
the log was emptied; the operations admitted since then have ended; and `bs` is all that they ever
log. -/
structure Commits (t pre : List Event) (bs : List ℕ) : Prop where
  single : ∀ cs, .commit cs ∉ since pre
  nodup : bs.Nodup
  ended : ∀ n, .enter n ∈ since pre → .finish n ∈ pre
  all : ∀ b, b ∈ bs ↔ ∃ n, .enter n ∈ since pre ∧ .log n b ∈ t

theorem Commits.snoc {t pre : List Event} {bs : List ℕ} {e : Event} (h : Commits t pre bs)
    (he : ∀ n b, e = .log n b → .enter n ∉ since pre) : Commits (t ++ [e]) pre bs := by
  refine ⟨h.single, h.nodup, h.ended, fun b => ?_⟩
  rw [h.all]
  refine exists_congr fun n => and_congr_right fun hn => ?_
  rw [mem_append, mem_singleton, or_iff_left fun hl => he n b hl.symm hn]

/-- The operation a process is in. -/
def Pc.op : Pc → Option ℕ
  | .running n _ | .logging n _ _ => some n
  | _ => none

theorem Pc.woken_op (x : Pc) : x.woken.op = x.op := by cases x <;> rfl

theorem Pc.woken_installing : x.woken = .installing ↔ x = .installing := by cases x <;> simp [woken]

theorem Pc.act_of_op (h : x.op = some n) : x.act = 1 := by cases x <;> simp_all [op, act]

omit [DecidableEq P] in
theorem Inv.not_committing (h : Inv s) (hp : (s.pc p).op = some n) : s.committing = false := by
  have := h.active (Pc.act_of_op hp)
  by_contra hc
  have := h.alone (by simpa using hc)
  omega

omit [DecidableEq P] in
theorem Inv.no_op (h : Inv s) (hc : s.committing = true) (q : P) : (s.pc q).op = none := by
  by_contra hq
  obtain ⟨n, hn⟩ := Option.ne_none_iff_exists'.mp hq
  rw [h.not_committing hn] at hc
  cases hc

omit [Fintype P] in
theorem op_at_none (h : ∀ q, (s.pc q).op = none) (hx : x.op = none) (q : P) :
    ((s.at_ p x).pc q).op = none := by
  rw [at_pc]
  split
  · exact hx
  · exact h q

/-- The record fits the state. -/
structure Rec (s : State P) : Prop where
  admitted : ∀ n, .enter n ∈ s.trace → n < s.op
  logged : ∀ n b, .log n b ∈ s.trace → .enter n ∈ s.trace
  finished : ∀ n, .finish n ∈ s.trace → .enter n ∈ s.trace
  opened : ∀ p n, (s.pc p).op = some n → .enter n ∈ since s.trace ∧ .finish n ∉ s.trace
  unique : ∀ p q n, (s.pc p).op = some n → (s.pc q).op = some n → p = q
  closed : ∀ n, .enter n ∈ s.trace → .finish n ∉ s.trace → ∃ p, (s.pc p).op = some n
  nodup : s.lh.Nodup
  blocks : ∀ b, b ∈ s.lh ↔ ∃ n, .enter n ∈ since s.trace ∧ .log n b ∈ s.trace
  pending : ∀ bs, .commit bs ∈ since s.trace → ∃ p, s.pc p = .installing
  latest : ∀ p, s.pc p = .installing → ∃ pre bs, s.trace = pre ++ [.commit bs]
  commits : ∀ pre bs post, s.trace = pre ++ .commit bs :: post → Commits s.trace pre bs
  clears : ∀ pre post, s.trace = pre ++ .cleared :: post → ∃ pre' bs, pre = pre' ++ [.commit bs]

namespace Rec

omit [DecidableEq P] [Fintype P] in
theorem init : Rec (init : State P) := by
  constructor <;> simp [GroupCommit.init, Pc.op, since]

omit [DecidableEq P] [Fintype P] in
/-- An action that the record does not show. -/
theorem silent (h : Rec s) (ht : s'.trace = s.trace) (ho : s'.op = s.op) (hl : s'.lh = s.lh)
    (hp : ∀ q, (s'.pc q).op = (s.pc q).op) (hi : ∀ q, s'.pc q = .installing ↔ s.pc q = .installing) :
    Rec s' := by
  cases h
  constructor <;> simp only [ht, ho, hl, hp, hi] <;> assumption

variable {x : Pc} {e : Event} {n : ℕ} {D : Finset ℕ}

omit [Fintype P] in
/-- One process moves, in its operation or out of any. -/
theorem silent_at (h : Rec s) (hx : x.op = (s.pc p).op) (hi : x ≠ .installing)
    (hp : s.pc p ≠ .installing) (ht : s'.trace = s.trace) (ho : s'.op = s.op) (hl : s'.lh = s.lh)
    (hpc : s'.pc = (s.at_ p x).pc) : Rec s' := by
  refine h.silent ht ho hl (fun q => ?_) fun q => ?_
  · rw [hpc, at_pc]
    split_ifs with hq
    · rw [hq, hx]
    · rfl
  · rw [hpc, at_pc]
    split_ifs with hq
    · simp only [hq, hi, hp]
    · rfl

omit [DecidableEq P] [Fintype P] in
theorem commits_snoc (h : Rec s) (he : ∀ bs, e ≠ .commit bs)
    (hlog : ∀ n b, e = .log n b → .finish n ∉ s.trace) (pre : List Event) (bs : List ℕ)
    (post : List Event) (heq : s.trace ++ [e] = pre ++ .commit bs :: post) :
    Commits (s.trace ++ [e]) pre bs := by
  rcases snoc_eq_append_cons heq with ⟨post', ht⟩ | ⟨-, hx⟩
  · have hc := h.commits _ _ _ ht
    refine hc.snoc fun n b hl hn => hlog n b hl ?_
    rw [ht]
    exact List.mem_append_left _ (hc.ended n hn)
  · exact absurd hx.symm (he bs)

omit [DecidableEq P] [Fintype P] in
theorem clears_snoc (h : Rec s) (he : e ≠ .cleared) (pre post : List Event)
    (heq : s.trace ++ [e] = pre ++ .cleared :: post) : ∃ pre' bs, pre = pre' ++ [.commit bs] := by
  rcases snoc_eq_append_cons heq with ⟨post', ht⟩ | ⟨-, hx⟩
  · exact h.clears _ _ ht
  · exact absurd hx.symm he

omit [DecidableEq P] [Fintype P] in
theorem admit_mem (h : Rec s) {q : P} (hq : (s.pc q).op = some n) : .enter n ∈ s.trace :=
  since_subset _ (h.opened q n hq).1

section

variable (h : Rec s) (hi : Inv s)
include h hi

theorem next_admit (hp : s.pc p = .entering) (hc : s.committing = false) :
    Rec { s.at_ p (.running s.op ∅) with
        outstanding := s.outstanding + 1, op := s.op + 1, trace := s.trace ++ [.enter s.op] } := by
  have hnew : .enter s.op ∉ s.trace := fun hm => absurd (h.admitted _ hm) (lt_irrefl _)
  have hquiet := hi.not_installing hc
  constructor <;> simp only [since_snoc, mem_append, mem_singleton, reduceCtorEq, if_false]
  case admitted =>
    rintro n (hn | hn)
    · exact Nat.lt_succ_of_lt (h.admitted n hn)
    · cases hn
      exact Nat.lt_succ_self _
  case logged => grind [h.logged]
  case finished => grind [h.finished]
  case opened => grind [at_pc, Pc.op, h.opened, h.finished]
  case unique => grind [at_pc, Pc.op, h.unique, h.admit_mem]
  case closed =>
    rintro n (hn | hn) hf
    · obtain ⟨q, hq⟩ := h.closed n hn (by simpa using hf)
      exact ⟨q, by grind [at_pc, Pc.op]⟩
    · cases hn
      exact ⟨p, by simp [at_pc, Pc.op]⟩
  case nodup => exact h.nodup
  case blocks => grind [State.at_, h.blocks, h.logged]
  case pending => grind [h.pending]
  case latest => grind [at_pc]
  case commits => exact h.commits_snoc (by simp) (by simp)
  case clears => exact h.clears_snoc (by simp)

theorem next_append {b : ℕ} (hp : s.pc p = .logging n D b) :
    Rec { s.at_ p (.running n (insert b D)) with
        lh := if b ∈ s.lh then s.lh else s.lh ++ [b], trace := s.trace ++ [.log n b] } := by
  have hop : (s.pc p).op = some n := by rw [hp]; rfl
  obtain ⟨hin, hopen⟩ := h.opened p n hop
  have hquiet := hi.not_installing (hi.not_committing hop)
  have hpc : ∀ q, ((s.at_ p (.running n (insert b D))).pc q).op = (s.pc q).op := fun q => by
    rw [at_pc]
    split_ifs with hq
    · rw [hq, hop]
      rfl
    · rfl
  constructor <;> simp only [since_snoc, mem_append, mem_singleton, reduceCtorEq, if_false, hpc]
  case admitted => exact fun m hm => h.admitted m (by simpa using hm)
  case logged => grind [h.logged, h.admit_mem]
  case finished => grind [h.finished]
  case opened => grind [h.opened]
  case unique => exact h.unique
  case closed => grind [h.closed]
  case nodup => grind [h.nodup, List.nodup_append]
  case blocks => grind [h.blocks]
  case pending => grind [h.pending]
  case latest => grind [at_pc]
  case commits => exact h.commits_snoc (by simp) fun m c hm => by cases hm; exact hopen
  case clears => exact h.clears_snoc (by simp)

/-- `end_op`, up to `commit` or `wakeup`. -/
theorem next_finish (hp : s.pc p = .running n D)
    (hx : x.op = none) (hxi : x ≠ .installing) (hpc : s'.pc = (s.at_ p x).pc) (hlh : s'.lh = s.lh)
    (hop : s'.op = s.op) (htr : s'.trace = s.trace ++ [.finish n]) : Rec s' := by
  have hopp : (s.pc p).op = some n := by rw [hp]; rfl
  have hin := h.admit_mem hopp
  have hquiet := hi.not_installing (hi.not_committing hopp)
  constructor <;>
    simp only [hpc, hlh, hop, htr, since_snoc, mem_append, mem_singleton, reduceCtorEq,
      if_false]
  case admitted => exact fun m hm => h.admitted m (by simpa using hm)
  case logged => grind [h.logged]
  case finished => grind [h.finished]
  case opened =>
    -- the operation of another process is another one
    intro q m hq
    have hne : q ≠ p := by grind [at_pc]
    rw [at_pc, if_neg hne] at hq
    refine ⟨.inl (h.opened q m hq).1, ?_⟩
    rintro (hf | hf)
    · exact (h.opened q m hq).2 hf
    · cases hf
      exact hne (h.unique q p n hq hopp)
  case unique => grind [at_pc, h.unique]
  case closed =>
    intro m hm hf
    obtain ⟨q, hq⟩ := h.closed m (by simpa using hm) fun hf' => hf (.inl hf')
    exact ⟨q, by grind [at_pc]⟩
  case nodup => exact h.nodup
  case blocks => simpa using h.blocks
  case pending => grind [h.pending]
  case latest => grind [at_pc]
  case commits => exact h.commits_snoc (by simp) (by simp)
  case clears => exact h.clears_snoc (by simp)

theorem next_write (hp : s.pc p = .writing) :
    Rec { s.at_ p .installing with trace := s.trace ++ [.commit s.lh] } := by
  have hcommit : (s.pc p).commits = 1 := by rw [hp]; rfl
  have hidle : ∀ q, (s.pc q).op = none := fun q => hi.no_op (hi.committer hcommit) q
  have hsingle : ∀ q, s.pc q ≠ .installing := fun q hq => by
    rw [hi.committer_unique (q := q) hcommit (by rw [hq]; rfl), hp] at hq
    cases hq
  have hpc := op_at_none (p := p) (x := .installing) hidle rfl
  constructor <;> simp only [since_snoc, mem_append, mem_singleton, reduceCtorEq, if_false, hpc]
  case admitted => exact fun m hm => h.admitted m (by simpa using hm)
  case logged => grind [h.logged]
  case finished => grind [h.finished]
  case opened => exact fun _ _ hq => by cases hq
  case unique => exact fun _ _ _ hq => by cases hq
  case closed => grind [h.closed]
  case nodup => exact h.nodup
  case blocks => simpa [State.at_] using h.blocks
  case pending => exact fun _ _ => ⟨p, by simp [at_pc]⟩
  case latest => exact fun _ _ => ⟨_, _, rfl⟩
  case commits =>
    intro pre bs post heq
    rcases snoc_eq_append_cons heq with ⟨post', ht⟩ | ⟨rfl, hx⟩
    · exact (h.commits _ _ _ ht).snoc (by simp)
    · cases hx
      refine ⟨fun cs hcs => ?_, h.nodup, fun n hn => ?_, by simpa using h.blocks⟩
      · obtain ⟨q, hq⟩ := h.pending cs hcs
        exact hsingle q hq
      · by_contra hf
        obtain ⟨q, hq⟩ := h.closed n (since_subset _ hn) hf
        rw [hidle q] at hq
        cases hq
  case clears => exact h.clears_snoc (by simp)

theorem next_install (hp : s.pc p = .installing) :
    Rec { s.at_ p .committed with lh := [], trace := s.trace ++ [.cleared] } := by
  have hcommit : (s.pc p).commits = 1 := by rw [hp]; rfl
  have hidle : ∀ q, (s.pc q).op = none := fun q => hi.no_op (hi.committer hcommit) q
  have hpc := op_at_none (p := p) (x := .committed) hidle rfl
  constructor <;> simp only [since_snoc, mem_append, mem_singleton, reduceCtorEq, if_true, hpc]
  case admitted => exact fun m hm => h.admitted m (by simpa using hm)
  case logged => grind [h.logged]
  case finished => grind [h.finished]
  case opened => exact fun _ _ hq => by cases hq
  case unique => exact fun _ _ _ hq => by cases hq
  case closed => grind [h.closed]
  case nodup => exact List.nodup_nil
  case blocks => simp
  case pending => simp
  case latest =>
    intro q hq
    rw [at_pc] at hq
    split at hq
    · cases hq
    · rename_i hne
      exact absurd (hi.committer_unique hcommit (by rw [hq]; rfl)) hne
  case commits => exact h.commits_snoc (by simp) (by simp)
  case clears =>
    intro pre post heq
    rcases snoc_eq_append_cons heq with ⟨post', ht⟩ | ⟨rfl, -⟩
    · exact h.clears _ _ ht
    · exact h.latest p hp

theorem next (hn : Next nlog s a s') : Rec s' := by
  cases hn with
  | enter hp _ hr => exact h.next_admit hi hp (by simpa using fun hc => hr (.inl hc))
  | append hp => exact h.next_append hi hp
  | last hp | finish hp => exact h.next_finish hi hp rfl (by simp) rfl rfl rfl rfl
  | write hp => exact h.next_write hi hp
  | install hp => exact h.next_install hi hp
  | wake hp =>
    refine h.silent rfl rfl rfl (fun q => ?_) fun q => ?_ <;> rw [wakeAll_pc] <;> split
    · grind [Pc.op]
    · exact Pc.woken_op _
    · grind
    · exact Pc.woken_installing
  | _ hp => exact h.silent_at (by rw [hp]; rfl) (by simp) (by simp [hp]) rfl rfl rfl rfl

end

end Rec

theorem rec_of_reach (h : Machine.Reach (step nlog) G init s) : Rec s := by
  induction h with
  | refl => exact .init
  | next h _ hs ih => exact ih.next (inv_of_reach h) (next_of_step hs)

/-! ### Isolation -/

/-- An operation is admitted or logs a block. -/
def Event.Works : Event → Prop
  | .enter _ | .log _ _ => True
  | _ => False

/-- Operations and commits do not mix. -/
structure Isolated (nlog : ℕ) (s : State P) : Prop where
  /-- During a commit there is no operation, and until it ends none is admitted and none logs a
  block. -/
  quiet : s.committing = true → s.outstanding = 0 ∧
    ∀ s', Machine.Reach (step nlog) (fun s _ => s.committing = true) s s' →
      ∃ t, s'.trace = s.trace ++ t ∧ ∀ e ∈ t, ¬e.Works
  nodup : s.lh.Nodup
  /-- The log has the blocks of the operations admitted since it was emptied. -/
  blocks : ∀ b, b ∈ s.lh ↔ ∃ n, .enter n ∈ since s.trace ∧ .log n b ∈ s.trace
  /-- Every commit is the only one since the log was emptied, comes after the end of every operation
  admitted since, and has all their blocks. -/
  commits : ∀ pre bs post, s.trace = pre ++ .commit bs :: post → Commits s.trace pre bs
  /-- The log is emptied right after a commit and at no other time. -/
  clears : ∀ pre post, s.trace = pre ++ .cleared :: post → ∃ pre' bs, pre = pre' ++ [.commit bs]
  /-- Who sleeps in `begin_op` would not be admitted. -/
  awake : ∀ p, (s.pc p).rests = true → s.Refuses

theorem Inv.quiet_next (h : Inv s) (hc : s.committing = true) (hn : Next nlog s a s') :
    ∃ t, s'.trace = s.trace ++ t ∧ ∀ e ∈ t, ¬e.Works := by
  cases hn with
  | enter _ _ hr => exact absurd (.inl hc) hr
  | append hp =>
    rw [h.not_committing (congrArg Pc.op hp)] at hc
    cases hc
  | last _ _ hc' | finish _ _ hc' =>
    rw [hc] at hc'
    cases hc'
  | write | install => exact ⟨_, rfl, by simp [Event.Works]⟩
  | _ => exact ⟨[], (List.append_nil _).symm, by simp⟩

theorem Inv.quiet_run (h : Inv s) (hr : Machine.Reach (step nlog) (fun s _ => s.committing = true) s s') :
    Inv s' ∧ ∃ t, s'.trace = s.trace ++ t ∧ ∀ e ∈ t, ¬e.Works := by
  induction hr with
  | refl => exact ⟨h, [], (List.append_nil _).symm, by simp⟩
  | next _ hc hs ih =>
    obtain ⟨hi, t, ht, hw⟩ := ih
    obtain ⟨t', ht', hw'⟩ := hi.quiet_next hc (next_of_step hs)
    refine ⟨hi.next (next_of_step hs), t ++ t', by rw [ht', ht, List.append_assoc], fun e he => ?_⟩
    exact (List.mem_append.mp he).elim (hw e) (hw' e)

/-- **Group commit isolates.** Whatever the processes do, and in whatever order. -/
theorem isolated (h : Machine.Reach (step nlog) (fun _ _ => True) init s) (hl : s.lock = none) :
    Isolated nlog s := by
  have hi := inv_of_reach h
  have hr := rec_of_reach h
  refine ⟨fun hc => ⟨hi.alone hc, fun s' hs' => (hi.quiet_run hs').2⟩, hr.nodup, hr.blocks, hr.commits,
    hr.clears, fun p hp => ?_⟩
  rcases hi.tested p hp with href | ⟨q, hq, -⟩
  · exact href
  · rw [hl] at hq
    cases hq

/-- Two operations log the blocks 5, 6 and 6, 7 and end. -/
theorem isolated_two : ∃ s : State (Fin 2), Machine.Reach (step LOGSIZE) (fun _ _ => True) init s ∧
    s.committing = true ∧ s.lh = [5, 6, 7] ∧ Isolated LOGSIZE s := by
  obtain ⟨s, hs, hf⟩ := Machine.exists_reach (step LOGSIZE) (fun _ _ => True) init
    [.start 0, .start 1, .enter 0, .enter 1, .check 0 5, .append 0, .check 1 6, .check 0 6, .append 0,
      .append 1, .check 1 7, .append 1, .finish 0, .wake 0, .finish 1]
    (fun s : State (Fin 2) => (s.lock, s.committing, s.lh)) (none, true, [5, 6, 7]) (by decide +kernel)
  simp only [Prod.mk.injEq] at hf
  exact ⟨s, hs, hf.2.1, hf.2.2, isolated hs hf.1⟩

/-! ### Room in the log -/

/-- The blocks that the operation has logged. -/
def Pc.mine : Pc → Finset ℕ
  | .running _ D | .logging _ D _ => D
  | _ => ∅

/-- The blocks that the operation has logged, or is about to. -/
def Pc.spent : Pc → Finset ℕ
  | .running _ D => D
  | .logging _ D b => insert b D
  | _ => ∅

/-- No operation logs more than `k` blocks. -/
def Within (k : ℕ) (s : State P) : Act P → Prop
  | .check p b => (insert b (s.pc p).mine).card ≤ k
  | _ => True

instance (k : ℕ) (s : State P) (a : Act P) : Decidable (Within k s a) :=
  match a with
  | .check _ _ => inferInstanceAs (Decidable (_ ≤ _))
  | .start _ | .enter _ | .doze _ | .sleep _ | .append _ | .finish _ | .wake _ | .write _
  | .install _ | .clear _
  | .kill _ => .isTrue trivial

/-- How many of `k` blocks the operation has left. -/
def Pc.left (k : ℕ) : Pc → ℤ
  | .running _ D | .logging _ D _ => k - D.card
  | _ => 0

theorem Pc.left_le (k : ℕ) (x : Pc) : x.left k ≤ k * x.act := by cases x <;> simp [left, act]

theorem Pc.left_nonneg (h : x.spent.card ≤ k) : 0 ≤ x.left k := by
  cases x with
  | running n D => simpa [left, spent] using h
  | logging n D b =>
    have := Finset.card_le_card (Finset.subset_insert b D)
    simp only [spent] at h
    simp only [left]
    omega
  | _ => exact le_refl _

theorem Pc.woken_left (k : ℕ) (x : Pc) : x.woken.left k = x.left k := by cases x <;> rfl

theorem Pc.woken_mine (x : Pc) : x.woken.mine = x.mine := by cases x <;> rfl

theorem Pc.woken_spent (x : Pc) : x.woken.spent = x.spent := by cases x <;> rfl

/-- With what the operations have left, the log has room for one block more. -/
structure Fit (k : ℕ) (s : State P) : Prop where
  own : ∀ p, ∀ b ∈ (s.pc p).mine, b ∈ s.lh
  small : ∀ p, (s.pc p).spent.card ≤ k
  room : s.lh.length + ∑ p, (s.pc p).left k + 2 ≤ (LOGSIZE : ℤ)


namespace Fit

variable {k : ℕ}

omit [DecidableEq P] in
theorem init : Fit k (init : State P) := by
  constructor <;> simp [GroupCommit.init, Pc.mine, Pc.spent, Pc.left]

theorem own_next (h : Fit k s) (hi : Inv s) (hn : Next nlog s a s') : ∀ p, ∀ b ∈ (s'.pc p).mine,
    b ∈ s'.lh := by
  have hown := h.own
  cases hn with
  | @install p hp =>
    intro q b hb
    have hno := op_at_none (p := p) (x := .committed) (hi.no_op (hi.committer (by rw [hp]; rfl))) rfl q
    generalize (State.at_ s p Pc.committed).pc q = x at hno hb
    cases x <;> simp_all [Pc.op, Pc.mine]
  | wake hp => grind [wakeAll_pc, Pc.woken_mine, Pc.mine, State.wakeAll]
  | append hp => grind [at_pc, Pc.mine, State.at_]
  | _ hp => grind [at_pc, Pc.mine, State.at_]

theorem small_next (h : Fit k s) (hn : Next nlog s a s') (hw : Within k s a) :
    ∀ p, (s'.pc p).spent.card ≤ k := by
  have hsmall := h.small
  cases hn with
  | check hp =>
    grind [Within, Pc.mine, at_pc, Pc.spent]
  | wake hp => grind [wakeAll_pc, Pc.woken_spent, Pc.spent, Finset.card_empty]
  | _ hp => grind [at_pc, Pc.spent, Finset.card_empty]

/-- The room when one process moves. -/
theorem room_at (h : Fit k s) (x : Pc) {m : ℕ} (hx : m + x.left k ≤ s.lh.length + (s.pc p).left k) :
    m + ∑ q, ((s.at_ p x).pc q).left k + 2 ≤ (LOGSIZE : ℤ) := by
  have hroom := h.room
  rw [sum_at]
  omega

omit [DecidableEq P] in
theorem left_le (hi : Inv s) : ∑ p, (s.pc p).left k ≤ k * s.outstanding := by
  rw [← hi.count, Finset.mul_sum]
  exact Finset.sum_le_sum fun p _ => Pc.left_le k _

theorem room_next (h : Fit k s) (hk : k + 1 ≤ MAXOPBLOCKS) (hi : Inv s) (hn : Next nlog s a s') :
    s'.lh.length + ∑ p, (s'.pc p).left k + 2 ≤ (LOGSIZE : ℤ) := by
  have hroom := h.room
  cases hn with
  | @enter p hp hl hr =>
    -- beside another operation, each of the two gives back one of the ten blocks that are counted
    -- for it
    rw [State.Refuses, not_or, not_lt] at hr
    have hsum : ∑ p, (s.pc p).left k ≤ k * s.outstanding := left_le hi
    have hempty := hi.empty (by simpa using hr.1)
    have htest : (s.lh.length : ℤ) + (s.outstanding + 1) * 10 ≤ 30 := hr.2
    have hk : k + 1 ≤ 10 := hk
    show (s.lh.length : ℤ) + ∑ q, ((s.at_ p (.running s.op ∅)).pc q).left k + 2 ≤ 30
    rw [sum_at, hp, show Pc.left k .entering = 0 from rfl, show Pc.left k (.running s.op ∅) =
      k by simp [Pc.left]]
    rcases hi.nonneg.eq_or_lt with h0 | hpos
    · rw [← h0, mul_zero] at hsum
      rw [hempty h0.symm, List.length_nil]
      omega
    · have : k * s.outstanding ≤ 9 * s.outstanding := mul_le_mul_of_nonneg_right (by omega) hpos.le
      omega
  | @append p b n D hp hl =>
    refine h.room_at _ ?_
    rw [hp]
    simp only [Pc.left]
    split_ifs with hb
    · have := Finset.card_le_card (Finset.subset_insert b D)
      omega
    · have hD : b ∉ D := fun hD => hb (h.own p b (by rw [hp]; exact hD))
      rw [Finset.card_insert_of_notMem hD, List.length_append]
      push_cast
      simp only [List.length_singleton]
      omega
  | last hp | finish hp => exact h.room_at _ (add_le_add (le_refl _) (Pc.left_nonneg (h.small _)))
  | install hp => exact h.room_at _ (by rw [hp]; simp [Pc.left])
  | wake hp =>
    refine le_of_eq_of_le ?_ hroom
    congr 2
    refine sum_wakeAll (Pc.woken_left k) ?_
    rcases hp with hp | hp <;> rw [hp] <;> rfl
  | _ hp => exact h.room_at _ (by rw [hp]; exact le_refl _)

theorem next (h : Fit k s) (hk : k + 1 ≤ MAXOPBLOCKS) (hi : Inv s) (hn : Next nlog s a s')
    (hw : Within k s a) : Fit k s' :=
  ⟨h.own_next hi hn, h.small_next hn hw, h.room_next hk hi hn⟩

end Fit

theorem fit_of_reach (hk : k + 1 ≤ MAXOPBLOCKS)
    (h : Machine.Reach (step nlog) (Within k) init s) : Fit k s := by
  induction h with
  | refl => exact .init
  | next h hw hs ih => exact ih.next hk (inv_of_reach h) (next_of_step hs) hw

omit [Fintype P] in
/-- When an action panics. -/
theorem panic_cases {msg : String} (h : step nlog s a = .panic msg) :
    ∃ p n D, s.pc p = .running n D ∧ (s.Full nlog ∨ s.outstanding < 1 ∨ s.committing = true) := by
  cases a <;> simp only [step] at h
  case check p b =>
    split at h
    · rename_i n D hp
      split at h
      · exact ⟨p, n, D, hp, .inl ‹_›⟩
      · split at h
        · exact ⟨p, n, D, hp, .inr (.inl ‹_›)⟩
        · cases h
    · cases h
  case finish p =>
    split at h
    · rename_i n D hp
      split at h
      · split at h
        · exact ⟨p, n, D, hp, .inr (.inr ‹_›)⟩
        · split at h <;> cases h
      · cases h
    · cases h
  all_goals (repeat' split at h) <;> cases h

/-- **Nine blocks each fit.** When no operation logs more than nine blocks, on a log as mkfs lays it
out, nothing in log.c panics. -/
theorem fits (h : Machine.Reach (step LOGSIZE) (Within (MAXOPBLOCKS - 1)) init s) (a : Act P)
    (msg : String) : step LOGSIZE s a ≠ .panic msg := by
  intro hpanic
  obtain ⟨p, n, D, hp, hwhy⟩ := panic_cases hpanic
  have hi := inv_of_reach h
  have hact : 1 ≤ s.outstanding := hi.active (by rw [hp]; rfl)
  rcases hwhy with hfull | hout | hc
  · have hfit := fit_of_reach (by decide) h
    have hroom := hfit.room
    have hnonneg : 0 ≤ ∑ p, (s.pc p).left (MAXOPBLOCKS - 1) :=
      Finset.sum_nonneg fun q _ => Pc.left_nonneg (hfit.small q)
    rcases hfull with hfull | hfull <;> omega
  · omega
  · rw [hi.not_committing (congrArg Pc.op hp)] at hc
    cases hc

/-- Three operations are admitted, and log `k` blocks each. -/
def threeOps (k : ℕ) : List (Act (Fin 3)) :=
  [.start 0, .start 1, .start 2, .enter 0, .enter 1, .enter 2] ++
    (List.range (3 * k)).flatMap fun i => [.check (Fin.ofNat 3 i) i, .append (Fin.ofNat 3 i)]

theorem fits_three : ∃ s : State (Fin 3), Machine.Reach (step LOGSIZE) (Within (MAXOPBLOCKS - 1)) init s ∧
    s.lh.length = 27 ∧ ∀ a msg, step LOGSIZE s a ≠ .panic msg := by
  obtain ⟨s, hs, hf⟩ := Machine.exists_reach (step LOGSIZE) (Within (MAXOPBLOCKS - 1)) init
    (threeOps 9) (fun s : State (Fin 3) => s.lh.length) 27 (by decide +kernel)
  exact ⟨s, hs, hf, fits hs⟩

/-- Ten blocks each do not fit: the thirtieth `log_write` panics. -/
theorem thirty_blocks : ∃ s : State (Fin 3), Machine.Reach (step LOGSIZE) (Within MAXOPBLOCKS) init s ∧
    Within MAXOPBLOCKS s (.check 2 29) ∧ step LOGSIZE s (.check 2 29) =
    .panic "too big a transaction" := by
  obtain ⟨s, hs, hf⟩ := Machine.exists_reach (step LOGSIZE) (Within MAXOPBLOCKS) init
    ((threeOps 10).take 64)
    (fun s : State (Fin 3) => (decide (Within MAXOPBLOCKS s (.check 2 29)),
      (step LOGSIZE s (.check 2 29)).message))
    (true, some "too big a transaction") (by decide +kernel)
  simp only [Prod.mk.injEq, decide_eq_true_eq] at hf
  exact ⟨s, hs, hf.1, Outcome.eq_panic hf.2⟩

end

end Xv6.GroupCommit
