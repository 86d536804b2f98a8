/-
# Reading from the terminal

`consoleintr` and `consoleread` of console.c, and what stands between `consoleread` and the log:
`fileread` opens an operation, calls `readi`, which for the console is `consoleread`, and ends the
operation when it has returned. `exec` and `usysinit` also call `readi` in an operation. The log is
that of `GroupCommit`; the other system calls are any use of it.

What is done with `cons.lock` held is one action. `sleep` and `wakeup` acquire `ptable.lock` in it,
so it waits until nobody holds that.

A process that waits for a line is in an operation all the time (`counted_of_asleep`). So the log is
not committed before somebody types a line, and few readers are enough to make `begin_op` refuse
everybody (`reader_keeps_log`). If no reader has to wait, the log is free whenever the processes are
idle (`free_of_fed`).
-/
import Xv6.GroupCommit
import Xv6.Lib.Ring
import Xv6.Param

namespace Xv6.Console

abbrev INPUT_BUF : ℕ := 128

structure Input where
  buf : Fin INPUT_BUF → UInt8
  /-- Read index -/
  r : UInt32
  /-- Write index -/
  w : UInt32
  /-- Edit index -/
  e : UInt32

abbrev slot (i : UInt32) : Fin INPUT_BUF := Ring.slot INPUT_BUF i

namespace Input

/-- The loop for `C('U')`, for as many rounds as there are characters from `w` to `e`. -/
def killLine : ℕ → Input → Input
  | 0, s => s
  | k + 1, s =>
    if s.e ≠ s.w ∧ s.buf (slot (s.e - 1)) ≠ 0x0a then killLine k { s with e := s.e - 1 } else s

/-- A character is stored; a line that is complete, or a full buffer, is given to the readers. -/
def store (s : Input) (c : UInt8) : Input × Bool :=
  let s' := { s with buf := Function.update s.buf (slot s.e) c, e := s.e + 1 }
  if c = 0x0a ∨ c = 0x04 ∨ s'.e = s'.r + 128 then ({ s' with w := s'.e }, true) else (s', false)

/-- One round of `consoleintr`, and whether it calls `wakeup`. -/
def key (s : Input) (c : UInt8) : Input × Bool :=
  if c = 0x10 then (s, false)
  else if c = 0x15 then (killLine (s.e - s.w).toNat s, false)
  else if c = 0x08 ∨ c = 0x7f then (if s.e ≠ s.w then { s with e := s.e - 1 } else s, false)
  else if c ≠ 0 ∧ s.e - s.r < 128 then s.store (if c = 0x0d then 0x0a else c)
  else (s, false)

/-- `consoleintr` with the characters that `getc` returns. -/
def consoleintr (s : Input) (cs : List UInt8) : Input × Bool :=
  cs.foldl (fun x c => ((x.1.key c).1, x.2 || (x.1.key c).2)) (s, false)

/-- What the loop of `consoleread` comes to. -/
structure Drained where
  /-- What it copies to `dst`. -/
  bytes : List UInt8
  /-- What is left of `n`. -/
  n : ℕ
  /-- The loop has ended; if not, it is where it finds no input. -/
  ended : Bool
  input : Input

/-- The loop of `consoleread`, until it ends or finds no input. -/
def drain (target : ℕ) : ℕ → Input → Drained
  | 0, s => ⟨[], 0, true, s⟩
  | n + 1, s =>
    if s.r = s.w then ⟨[], n + 1, false, s⟩
    else
      let c := s.buf (slot s.r)
      let s' := { s with r := s.r + 1 }
      if c = 0x04 then ⟨[], n + 1, true, if n + 1 < target then { s' with r := s'.r - 1 } else s'⟩
      else if c = 0x0a then ⟨[c], n, true, s'⟩
      else
        let d := drain target n s'
        { d with bytes := c :: d.bytes }

end Input

/-- Where a process is in a read of the console. -/
inductive Tty where
  | out
  /-- In `begin_op` of `fileread`. -/
  | opening (n : ℕ)
  /-- In `consoleread`, called by `fileread` or not; `cons.lock` is to be acquired. -/
  | reading (file : Bool) (target n : ℕ)
  /-- SLEEPING on `&input.r`. -/
  | asleep (file : Bool) (target n : ℕ)
  /-- In `fileread` after `readi`; `end_op` is next. -/
  | closing
  deriving DecidableEq

namespace Tty

/-- `consoleread` returns. -/
def returned (file : Bool) : Tty := if file then .closing else .out

/-- `wakeup1` -/
def woken : Tty → Tty
  | .asleep file target n => .reading file target n
  | x => x

def sleeping : Tty → Bool
  | .asleep _ _ _ => true
  | _ => false

/-- Inside the operation, in `consoleread` or on the way to `end_op`. -/
def inside : Tty → Bool
  | .reading _ _ _ | .asleep _ _ _ | .closing => true
  | _ => false

end Tty

/-- The log, the terminal and the processes. -/
structure State (P : Type) where
  log : GroupCommit.State P
  input : Input
  tty : P → Tty
  killed : P → Bool

inductive Act (P : Type) where
  /-- Call `fileread` on the console. -/
  | fileread (p : P) (n : ℕ)
  /-- `fileread` goes on to `readi`. -/
  | readi (p : P)
  /-- Another system call reads the console, in its operation. -/
  | devread (p : P) (n : ℕ)
  /-- `consoleread` with `cons.lock` held. -/
  | consoleread (p : P)
  /-- Characters are typed. -/
  | consoleintr (cs : List UInt8)
  /-- An action in log.c. -/
  | log (a : GroupCommit.Act P)
  | kill (p : P)

variable {P : Type} [DecidableEq P]

/-- The process an action of the log is by. -/
def proc : GroupCommit.Act P → P
  | .start p | .enter p | .doze p | .sleep p | .check p _ | .append p | .finish p | .wake p | .write p
  | .install p | .clear p | .kill p => p

/-- What a process may do with the log; `fileread` is in `begin_op` or at `end_op`. -/
def Tty.allows : Tty → GroupCommit.Act P → Bool
  | .out, .kill _ => false
  | .out, _ => true
  | .opening _, .enter _ | .opening _, .doze _ | .opening _, .sleep _ => true
  | .closing, .finish _ => true
  | _, _ => false

/-- After an action of the log `fileread` has returned, or is where it was. -/
def Tty.after : Tty → Tty
  | .closing => .out
  | x => x

namespace State

def at_ (s : State P) (p : P) (x : Tty) : State P := { s with tty := Function.update s.tty p x }

def kill (s : State P) (p : P) : State P :=
  { s.at_ p (s.tty p).woken with
    log := if s.log.pc p = .asleep then s.log.at_ p .entering else s.log
    killed := Function.update s.killed p true }

end State

def init : State P := ⟨GroupCommit.init, ⟨fun _ => 0, 0, 0, 0⟩, fun _ => .out, fun _ => false⟩

def step (nlog : ℕ) (s : State P) : Act P → Outcome (State P)
  | .fileread p n =>
    if s.tty p = .out ∧ s.log.pc
    p = .idle then .next { s.at_ p (.opening n) with log := s.log.at_ p .entering }
    else .blocked
  | .readi p =>
    match s.tty p, s.log.pc p with
    | .opening n, .running _ _ => .next (s.at_ p (.reading true n n))
    | _, _ => .blocked
  | .devread p n =>
    match s.tty p, s.log.pc p with
    | .out, .running _ _ => .next (s.at_ p (.reading false n n))
    | _, _ => .blocked
  | .consoleread p =>
    match s.tty p with
    | .reading file target n =>
      let d := s.input.drain target n
      if d.ended ∨ s.killed p then .next { s.at_ p (.returned file) with input := d.input }
      else if s.log.ptable = none then .next { s.at_ p (.asleep file target d.n) with input := d.input }
      else .blocked
    | _ => .blocked
  | .consoleintr cs =>
    let x := s.input.consoleintr cs
    if x.2 = false then .next { s with input := x.1 }
    else if s.log.ptable = none then .next { s with input := x.1, tty := fun q => (s.tty q).woken }
    else .blocked
  | .log a =>
    if (s.tty (proc a)).allows a then
      match GroupCommit.step nlog s.log a with
      | .next l => .next { s.at_ (proc a) (s.tty (proc a)).after with log := l }
      | .panic msg => .panic msg
      | .blocked => .blocked
    else .blocked
  | .kill p => if s.log.ptable = none then .next (s.kill p) else .blocked

/-! ### What an action does -/

/-- The actions, with what is known of the state before. -/
inductive Next (nlog : ℕ) (s : State P) : Act P → State P → Prop where
  | fileread {p : P} {n : ℕ} (ht : s.tty p = .out) (hp : s.log.pc p = .idle) :
      Next nlog s (.fileread p n) { s.at_ p (.opening n) with log := s.log.at_ p .entering }
  | readi {p : P} {n op : ℕ} {D : Finset ℕ} (ht : s.tty p = .opening n) (hp : s.log.pc p = .running op D) :
      Next nlog s (.readi p) (s.at_ p (.reading true n n))
  | devread {p : P} {n op : ℕ} {D : Finset ℕ} (ht : s.tty p = .out) (hp : s.log.pc p = .running op D) :
      Next nlog s (.devread p n) (s.at_ p (.reading false n n))
  | returned {p : P} {file : Bool} {target n : ℕ} (ht : s.tty p = .reading file target n) :
      Next nlog s (.consoleread p)
        { s.at_ p (.returned file) with input := (s.input.drain target n).input }
  | asleep {p : P} {file : Bool} {target n : ℕ} (ht : s.tty p = .reading file target n)
      (he : (s.input.drain target n).ended = false) (hk : s.killed p = false) :
      Next nlog s (.consoleread p) { s.at_ p (.asleep file target (s.input.drain target n).n) with
        input := (s.input.drain target n).input }
  | typed {cs : List UInt8} : Next nlog s (.consoleintr cs) { s with input := (s.input.consoleintr cs).1 }
  | lines {cs : List UInt8} : Next nlog s (.consoleintr cs) { s with
      input := (s.input.consoleintr cs).1, tty := fun q => (s.tty q).woken }
  | log {a : GroupCommit.Act P} {l : GroupCommit.State P} (ha : (s.tty (proc a)).allows a = true)
      (hl : GroupCommit.step nlog s.log a = .next l) :
      Next nlog s (.log a) { s.at_ (proc a) (s.tty (proc a)).after with log := l }
  | kill {p : P} (ht : s.log.ptable = none) : Next nlog s (.kill p) (s.kill p)

variable {nlog : ℕ} {s s' : State P} {a : Act P}

theorem next_of_step (h : step nlog s a = .next s') : Next nlog s a s' := by
  cases a <;> simp only [step] at h
  case fileread p n =>
    split at h <;> cases h
    rename_i hp
    exact .fileread hp.1 hp.2
  case readi p =>
    split at h <;> cases h
    exact .readi ‹_› ‹_›
  case devread p n =>
    split at h <;> cases h
    exact .devread ‹_› ‹_›
  case consoleread p =>
    split at h
    · rename_i ht
      split at h
      · cases h
        exact .returned ht
      · rename_i hd
        rw [not_or, Bool.not_eq_true, Bool.not_eq_true] at hd
        split at h <;> cases h
        exact .asleep ht hd.1 hd.2
    · cases h
  case consoleintr cs =>
    split at h
    · cases h
      exact .typed
    · split at h <;> cases h
      exact .lines
  case log a =>
    split at h
    · split at h <;> cases h
      exact .log ‹_› ‹_›
    · cases h
  case kill p =>
    split at h <;> cases h
    exact .kill ‹_›

/-- The log takes an action of its own, or none. -/
theorem Next.log_step (h : Next nlog s a s') :
    s'.log = s.log ∨ ∃ b, GroupCommit.step nlog s.log b = .next s'.log := by
  cases h with
  | @fileread p n ht hp => exact .inr ⟨.start p, by rw [GroupCommit.step, if_pos hp]⟩
  | log ha hl => exact .inr ⟨_, hl⟩
  | @kill p ht =>
    by_cases hp : s.log.pc p = .asleep
    · exact .inr ⟨.kill p, by simp [GroupCommit.step, State.kill, hp, ht]⟩
    · exact .inl (if_neg hp)
  | _ => exact .inl rfl

variable {G : State P → Act P → Prop} {l : GroupCommit.State P} {b : GroupCommit.Act P} {p : P}
  {x : Tty}

theorem log_reach (h : Machine.Reach (step nlog) G init s) :
    Machine.Reach (GroupCommit.step nlog) (fun _ _ => True) GroupCommit.init s.log := by
  induction h with
  | refl => exact .refl
  | next _ _ hs ih =>
    rcases (next_of_step hs).log_step with heq | ⟨b, hb⟩
    · rw [heq]
      exact ih
    · exact .next ih trivial hb

/-! ### Who waits for input is in an operation -/

theorem act_of_ne {l' : GroupCommit.State P} {q : P}
    (h : GroupCommit.Next nlog l b l') (hq : q ≠ proc b) : (l'.pc q).act = (l.pc q).act := by
  cases h with
  | wake => exact (congrArg GroupCommit.Pc.act (if_neg hq)).trans (GroupCommit.Pc.woken_act _)
  | _ => exact congrArg GroupCommit.Pc.act ((GroupCommit.at_pc _ q).trans (if_neg hq))

theorem at_tty (x : Tty) (q : P) : (s.at_ p x).tty q = if q = p then x else s.tty q :=
  Function.update_apply ..

theorem Tty.woken_inside (x : Tty) : x.woken.inside = x.inside := by cases x <;> rfl

theorem Tty.woken_sleeping (x : Tty) : x.woken.sleeping = false := by cases x <;> rfl

theorem Tty.after_sleeping (x : Tty) : x.after.sleeping = x.sleeping := by cases x <;> rfl

omit [DecidableEq P] in
theorem Tty.not_inside_of_allows (h : x.allows b = true) : x.after.inside = false := by
  cases x <;> first | rfl | cases h

/-- Who is in `consoleread` is counted in `log.outstanding`. -/
def Held (s : State P) : Prop := ∀ p, (s.tty p).inside = true → (s.log.pc p).act = 1

theorem Held.at (h : Held s) (hp : (s.log.pc p).act = 1) : Held (s.at_ p x) := by
  intro q hq
  by_cases hqp : q = p
  · rw [hqp]
    exact hp
  · rw [at_tty, if_neg hqp] at hq
    exact h q hq

theorem held_next (h : Held s) (hn : Next nlog s a s') : Held s' := by
  cases hn with
  | @fileread p n ht hp =>
    intro q hq
    by_cases hqp : q = p
    · simp [at_tty, hqp, Tty.inside] at hq
    · simp only [at_tty, if_neg hqp] at hq
      simp only [GroupCommit.at_pc, if_neg hqp]
      exact h q hq
  | readi ht hp | devread ht hp => exact h.at (by rw [hp]; rfl)
  | returned ht => exact h.at (h _ (by rw [ht]; rfl))
  | asleep ht => exact h.at (h _ (by rw [ht]; rfl))
  | typed => exact h
  | lines => exact fun q hq => h q (by rwa [Tty.woken_inside] at hq)
  | @log b l ha hl =>
    intro q hq
    by_cases hqp : q = proc b
    · simp only [at_tty, if_pos hqp, Tty.not_inside_of_allows ha] at hq
      cases hq
    · simp only [at_tty, if_neg hqp] at hq
      exact (act_of_ne (GroupCommit.next_of_step hl) hqp).trans (h q hq)
  | @kill p =>
    intro q hq
    have hq' : (s.tty q).inside = true := by
      simp only [State.kill, at_tty] at hq
      split_ifs at hq with hqp
      · rwa [Tty.woken_inside, ← hqp] at hq
      · exact hq
    have hact := h q hq'
    simp only [State.kill]
    split_ifs with hp
    · by_cases hqp : q = p
      · rw [hqp, hp] at hact
        cases hact
      · rw [GroupCommit.at_pc, if_neg hqp, hact]
    · exact hact

theorem held_of_reach (h : Machine.Reach (step nlog) G init s) : Held s :=
  h.inv (fun _ hp => by cases hp) fun _ _ _ hi _ hs => held_next hi (next_of_step hs)

variable [Fintype P]

/-- **Readers keep the log open.** Those who sleep in `consoleread` are counted in
`log.outstanding`, whatever else happens. -/
theorem counted_of_asleep {G : State P → Act P → Prop} (h : Machine.Reach (step nlog) G init s) :
    (Finset.univ.filter fun p => (s.tty p).sleeping = true).card ≤ s.log.outstanding := by
  have hheld := held_of_reach h
  rw [← (GroupCommit.inv_of_reach (log_reach h)).count, Finset.card_filter]
  push_cast
  refine Finset.sum_le_sum fun p _ => ?_
  split_ifs with hp
  · rw [hheld p (by cases hx : s.tty p <;> simp_all [Tty.sleeping, Tty.inside])]
  · exact GroupCommit.Pc.act_nonneg _

/-! ### A terminal without waiting readers -/

/-- The terminal does not hold up the log: nobody who sleeps in `consoleread` is counted in
`log.outstanding`, and when the others are idle, all that was logged is committed and `begin_op`
admits. -/
structure Free (s : State P) : Prop where
  uncounted : ∀ p, (s.tty p).sleeping = true → (s.log.pc p).act = 0
  open_ : (∀ p, s.log.pc p = .idle ∨ (s.tty p).sleeping = true) →
    s.log.outstanding = 0 ∧ s.log.lh = [] ∧ ¬s.log.Refuses

/-- `consoleread` finds enough input to end its loop, or the process is killed. -/
def Fed (s : State P) : Act P → Prop
  | .consoleread p =>
    match s.tty p with
    | .reading _ target n => (s.input.drain target n).ended = true ∨ s.killed p = true
    | _ => True
  | _ => True

/-- No process sleeps in `consoleread`. -/
def Awake (s : State P) : Prop := ∀ p, (s.tty p).sleeping = false

omit [Fintype P] in
theorem Awake.at (h : Awake s) (hx : x.sleeping = false) : Awake (s.at_ p x) := by
  intro q
  rw [at_tty]
  split
  · exact hx
  · exact h q

omit [Fintype P] in
theorem awake_next (h : Awake s) (hn : Next nlog s a s') (hf : Fed s a) : Awake s' := by
  cases hn with
  | asleep ht he hk => simp [Fed, ht, he, hk] at hf
  | typed => exact h
  | lines => exact fun q => Tty.woken_sleeping _
  | log => exact h.at (x := Tty.after _) (by rw [Tty.after_sleeping, h])
  | kill => exact h.at (Tty.woken_sleeping _)
  | @returned p file => exact h.at (x := .returned file) (by cases file <;> rfl)
  | _ => exact h.at rfl

omit [DecidableEq P] in
/-- With every process idle the log is empty, and open. -/
theorem open_of_idle (h : GroupCommit.Inv l) (hidle : ∀ p, l.pc p = .idle) :
    l.outstanding = 0 ∧ l.lh = [] ∧ ¬l.Refuses := by
  have hout : l.outstanding = 0 := by
    rw [← h.count]
    exact Finset.sum_eq_zero fun p _ => by rw [hidle p]; rfl
  have hc : l.committing = false := by
    have hsum := h.committing
    rw [Finset.sum_eq_zero fun p _ => by rw [hidle p]; rfl] at hsum
    cases hc : l.committing
    · rfl
    · rw [hc] at hsum
      cases hsum
  have hlh := h.empty hc hout
  exact ⟨hout, hlh, by simp [GroupCommit.State.Refuses, hc, hout, hlh]⟩

/-- **A terminal where no reader has to wait leaves the log free.** -/
theorem free_of_fed (h : Machine.Reach (step nlog) Fed init s) : Free s := by
  have hawake : Awake s := h.inv (fun _ => rfl) fun _ _ _ hi hf hs => awake_next hi (next_of_step hs) hf
  refine ⟨fun p hp => ?_, fun hidle => open_of_idle (GroupCommit.inv_of_reach (log_reach h)) fun p => ?_⟩
  · rw [hawake p] at hp
    cases hp
  · exact (hidle p).resolve_right (by rw [hawake p]; simp)

instance (s : State P) (a : Act P) : Decidable (Fed s a) :=
  match a with
  | .consoleread p =>
    match h : s.tty p with
    | .reading _ target n =>
      decidable_of_iff ((s.input.drain target n).ended = true ∨ s.killed p = true)
        (by simp [Fed, h])
    | .out | .opening _ | .asleep _ _ _ | .closing => .isTrue (by simp [Fed, h])
  | .fileread _ _ | .readi _ | .devread _ _ | .consoleintr _ | .log _ | .kill _ => .isTrue trivial

/-- A process calls `fileread` and, with its operation open, goes on to the console. -/
def readCall {k : ℕ} (p : Fin k) (n : ℕ) : List (Act (Fin k)) :=
  [.fileread p n, .log (.enter p), .readi p, .consoleread p]

theorem counted_of_asleep_one : ∃ s : State (Fin 1), (s.tty 0).sleeping = true ∧
    1 ≤ s.log.outstanding := by
  obtain ⟨s, hs, hf⟩ := Machine.exists_reach (step 30) (fun _ _ => True) init (readCall 0 10)
    (fun s : State (Fin 1) => ((Finset.univ.filter fun p => (s.tty p).sleeping = true).card,
      (s.tty 0).sleeping)) (1, true)
    (by decide +kernel)
  simp only [Prod.mk.injEq] at hf
  have hle := counted_of_asleep hs
  rw [hf.1] at hle
  exact ⟨s, hf.2, hle⟩

/-- A line is typed and read while another process logs block 7. -/
theorem free_line : ∃ s : State (Fin 2), Machine.Reach (step 30) Fed init s ∧
    s.log.trace.length = 7 ∧ s.input.r = 3 ∧ Free s := by
  obtain ⟨s, hs, hf⟩ := Machine.exists_reach (step 30) Fed init
    ([.consoleintr [0x68, 0x69, 0x0d], .log (.start 1), .log (.enter 1)] ++ readCall 0 10 ++
      [.log (.check 1 7), .log (.append 1), .log (.finish 1), .log (.wake 1), .log (.finish 0),
        .log (.write 0),
        .log (.install 0), .log (.clear 0), .log (.wake 0)])
    (fun s : State (Fin 2) => (s.log.trace.length, s.input.r)) (7, 3) (by decide +kernel)
  simp only [Prod.mk.injEq] at hf
  exact ⟨s, hs, hf.1, hf.2, free_of_fed hs⟩

/-- Two readers wait for a line. The block 7 of an operation that has ended is not committed, and no
operation is admitted any more, though every process is idle or waits for input. -/
theorem reader_keeps_log : ∃ s : State (Fin 4), Machine.Reach (step 30) (fun _ _ => True) init s ∧
    (∀ p, s.log.pc p = .idle ∨ (s.tty p).sleeping = true) ∧ s.log.outstanding = 2 ∧ s.log.lh = [7] ∧
    s.log.Refuses ∧ ¬Free s := by
  obtain ⟨s, hs, hf⟩ := Machine.exists_reach (step 30) (fun _ _ => True) init
    (readCall 0 10 ++ readCall 1 10 ++
      [.log (.start 3), .log (.enter 3), .log (.check 3 7), .log (.append 3), .log (.finish 3),
        .log (.wake 3)])
    (fun s : State (Fin 4) => (decide (∀ p, s.log.pc p = .idle ∨ (s.tty p).sleeping = true),
      s.log.outstanding, s.log.lh, decide s.log.Refuses)) (true, 2, [7], true) (by decide +kernel)
  simp only [Prod.mk.injEq, decide_eq_true_eq] at hf
  obtain ⟨hidle, hout, hlh, href⟩ := hf
  exact ⟨s, hs, hidle, hout, hlh, href, fun hfree => (hfree.open_ hidle).2.2 href⟩

end Xv6.Console
