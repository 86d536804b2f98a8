/-
# Whose priority a process may set

`sys_setpriority` in the MLFQ build, over the process table. The loop of `setpriority` looks for a
slot with the pid and compares the pid of its parent with that of the caller; it looks at neither
the state of the slot nor whether there is a parent. Free slots, the first process and a process
that is being made have none: their pids (0 and 1 among them) make the kernel dereference a null
pointer, and a child that has exited passes for one that has not (`setpriority_null`).
-/
import Xv6.ProcTable

namespace Xv6.ProcTable

open Function (update)

section

variable {N : ℕ}

/-- The loop of `setpriority` over the slots, called by `p`: the return value and the priorities, or
a null pointer is dereferenced. -/
def setpriorityFrom (s : State N) (p : Fin N) (pid priority : Int32) (prio : Fin N → Int32) :
    List (Fin N) → Option (ℤ × (Fin N → Int32))
  | [] => some (-1, prio)
  | i :: is =>
    if (s.proc i).pid = pid then
      match (s.proc i).parent with
      | none => none
      | some q =>
        if (s.proc q).pid = (s.proc p).pid then some (0, update prio i priority)
        else setpriorityFrom s p pid priority prio is
    else setpriorityFrom s p pid priority prio is

def setpriority (s : State N) (p : Fin N) (pid priority : Int32) (prio : Fin N → Int32) :
    Option (ℤ × (Fin N → Int32)) :=
  setpriorityFrom s p pid priority prio (List.finRange N)

def sysSetpriority (s : State N) (p : Fin N) (pid priority : Int32) (prio : Fin N → Int32) :
    Option (ℤ × (Fin N → Int32)) :=
  if priority < 0 ∨ priority > 10 then some (-2, prio) else setpriority s p pid priority prio

/-- Slot `i` is a child of `p`, with the pid, that has not exited. -/
def State.IsChild (s : State N) (p : Fin N) (pid : Int32) (i : Fin N) : Prop :=
  (s.proc i).state.Live ∧ (s.proc i).parent = some p ∧ (s.proc i).pid = pid

instance (s : State N) (p : Fin N) (pid : Int32) (i : Fin N) : Decidable (s.IsChild p pid i) := by
  unfold State.IsChild ProcState.Live
  infer_instance

/-- Every slot with the pid has a parent, and is not a child of `p` that has exited. -/
def State.Names (s : State N) (p : Fin N) (pid : Int32) : Prop :=
  ∀ i, (s.proc i).pid = pid → (s.proc i).parent ≠ none ∧
    ((s.proc i).parent = some p → (s.proc i).state ≠ .zombie)

instance (s : State N) (p : Fin N) (pid : Int32) : Decidable (s.Names p pid) := by
  unfold State.Names
  infer_instance

variable {s : State N} {p : Fin N} {pid priority : Int32} {prio : Fin N → Int32}

/-- If all slots with the pid have a parent, the loop stops at the first of them whose parent has
the caller's pid. -/
theorem setpriorityFrom_eq (hparent : ∀ i, (s.proc i).pid = pid → (s.proc i).parent ≠ none) :
    ∀ is : List (Fin N), setpriorityFrom s p pid priority prio is =
      match is.find? fun i => (s.proc i).pid = pid ∧ ∃ q, (s.proc i).parent = some q ∧
        (s.proc q).pid = (s.proc p).pid with
      | some i => some (0, update prio i priority)
      | none => some (-1, prio)
  | [] => rfl
  | i :: is => by
    unfold setpriorityFrom
    by_cases hpid : (s.proc i).pid = pid
    · obtain ⟨q, hq⟩ := Option.ne_none_iff_exists'.mp (hparent i hpid)
      rw [if_pos hpid, hq]
      dsimp only
      by_cases heq : (s.proc q).pid = (s.proc p).pid
      · rw [if_pos heq, List.find?_cons_of_pos (by simp [hpid, hq, heq])]
      · rw [if_neg heq, List.find?_cons_of_neg (by simp [hq, heq]), setpriorityFrom_eq hparent is]
    · rw [if_neg hpid, List.find?_cons_of_neg (by simp [hpid]), setpriorityFrom_eq hparent is]

/-- The first slot with the pid has no parent. -/
theorem setpriorityFrom_null : ∀ {is : List (Fin N)} {i : Fin N},
    (is.find? fun i => (s.proc i).pid = pid) = some i → (s.proc i).parent = none →
    setpriorityFrom s p pid priority prio is = none
  | j :: is, i, hfind, hparent => by
    unfold setpriorityFrom
    by_cases hpid : (s.proc j).pid = pid
    · rw [List.find?_cons_of_pos (by simpa using hpid)] at hfind
      cases hfind
      rw [if_pos hpid, hparent]
    · rw [List.find?_cons_of_neg (by simpa using hpid)] at hfind
      rw [if_neg hpid, setpriorityFrom_null hfind hparent]

/-- A process that is being made and has a parent is being made by it. -/
def Made (s : State N) : Prop := ∀ i q, (s.proc i).state = .embryo → (s.proc i).parent = some q →
    s.pc q = .ready i

theorem made_alloc [NeZero N] (hinv : Inv s) (h : Made s) (huser : s.pc p = .user) :
    Made (s.alloc p) := by
  unfold State.alloc
  split
  · exact h
  · rename_i np hfind
    have hfree := hinv.unused np (by simpa using find_spec hfind)
    intro i q hi hq
    by_cases hnp : i = np
    · subst hnp
      simp [hfree] at hq
    · have hold := h i q (by simpa [hnp] using hi) (by simpa [hnp] using hq)
      have hqp : q ≠ p := by
        rintro rfl
        rw [huser] at hold
        cases hold
      simpa [hqp] using hold

theorem made_waitRound (h : Made s) (hpc : s.pc p = .waiting) : Made (s.waitRound p) := by
  have hne : ∀ i q, s.pc q = .ready i → q ≠ p := by
    rintro i q hq rfl
    rw [hpc] at hq
    cases hq
  have hpc' : ∀ i q, s.pc q = .ready i → (s.at_ p .user).pc q = .ready i := fun i q hq => by
    rw [at_pc, if_neg (hne i q hq), hq]
  unfold State.waitRound
  split
  · rename_i r hfind
    intro i q hi hq
    rw [reap_proc] at hi hq
    split at hi
    · cases hi
    · rename_i hir
      rw [if_neg hir] at hq
      exact hpc' i q (h i q hi hq)
  · split
    · exact fun i q hi hq => hpc' i q (h i q hi hq)
    · intro i q hi hq
      have hip : i ≠ p := by
        rintro rfl
        simp at hi
      exact h i q (by simpa [hip] using hi) (by simpa [hip] using hq)

variable [NeZero N]

theorem made_leave (h : Made s) (hpc : s.pc p = .exiting) : Made (s.leave p) := by
  classical
  intro i q hi hq
  rw [leave_state] at hi
  rw [leave_eq] at hq
  rw [leave_pc]
  grind [Made]

theorem made_next {a : Act N} {s' : State N} (hinv : Inv s) (h : Made s)
    (hs : step s a = .next s') : Made s' := by
  cases a with
  | fork p =>
    have halloc := made_alloc (p := p) hinv h
    have hs' : s.pc p = .user ∧ s' = { s.alloc p with forks := s.forks + 1 } := by grind [step, stepOf]
    exact hs'.2 ▸ halloc hs'.1
  | exit p =>
    obtain ⟨m, -, hnum⟩ := hinv.numbered
    have hteardown : (s.proc p).state = .running → teardown p s.proc = s.proc := teardown_eq hnum
    grind [step, stepOf, Made, State.at_, Act.by_]
  | exitDone p =>
    have := made_leave (p := p) h
    grind [step, stepOf]
  | waitLoop p =>
    have hset : Made (s.set p { s.proc p with chan := none }) := by grind [Made]
    have := made_waitRound (p := p) hset
    grind [step, stepOf]
  | kill p pid =>
    have : Made (s.kill pid).2 := by
      unfold State.kill
      split <;> grind [Made]
    grind [step, stepOf]
  | _ => grind [step, stepOf, Made, Act.by_]

/-- `setpriority` finds the child, if there is one. -/
theorem setpriority_eq (hinv : Inv s) (hmade : Made s) (hp : (s.proc p).state = .running)
    (huser : s.pc p = .user) (hnames : s.Names p pid) :
    (∀ i, s.IsChild p pid i → setpriority s p pid priority prio =
      some (0, update prio i priority)) ∧
      ((¬∃ i, s.IsChild p pid i) → setpriority s p pid priority prio = some (-1, prio)) := by
  obtain ⟨m, -, hnum⟩ := hinv.numbered
  have hcaller : (s.proc p).pid ≠ 0 := hnum.nonzero p (by rw [hp]; decide)
  have hchild :
    ∀ i, ((s.proc i).pid = pid ∧ ∃ q, (s.proc i).parent = some q ∧ (s.proc q).pid =
      (s.proc p).pid) ↔
      s.IsChild p pid i := by
    intro i
    constructor
    · rintro ⟨hpid, q, hq, heq⟩
      obtain rfl : q = p := hnum.distinct q p heq (heq ▸ hcaller)
      refine ⟨?_, hq, hpid⟩
      have hzombie := (hnames i hpid).2 hq
      have hunused : (s.proc i).state ≠ .unused := fun h => by
        rw [hinv.unused i h] at hq
        cases hq
      have hembryo : (s.proc i).state ≠ .embryo := fun h => by
        have := hmade i q h hq
        rw [huser] at this
        cases this
      cases hstate : (s.proc i).state <;> simp_all [ProcState.Live]
    · rintro ⟨-, hq, hpid⟩
      exact ⟨hpid, p, hq, rfl⟩
  have hone : ∀ i j, s.IsChild p pid i → s.IsChild p pid j → i = j := by
    rintro i j ⟨hlive, -, hi⟩ ⟨-, -, hj⟩
    exact hnum.distinct i j (hi.trans hj.symm) (hnum.nonzero i fun h =>
      by rw [h] at hlive; simp [ProcState.Live] at hlive)
  unfold setpriority
  rw [setpriorityFrom_eq fun i hi => (hnames i hi).1]
  simp only [hchild]
  constructor
  · intro i hi
    cases hfind : (List.finRange N).find? fun i => decide (s.IsChild p pid i) with
    | none => exact absurd hi (by simpa using List.find?_eq_none.mp hfind i (List.mem_finRange i))
    | some j => rw [hone i j hi (by simpa using List.find?_some hfind)]
  · intro hnone
    rw [List.find?_eq_none.mpr fun i _ => by simpa using fun hi => hnone ⟨i, hi⟩]

/-- **Who may set a priority.** In every state that the processes reach, for a process `p` in a
system call. -/
theorem setpriority_of_reach (h : Machine.Reach step (Few (2 ^ 31 - 1)) init s)
    (hp : (s.proc p).state = .running) (huser : s.pc p = .user) (pid priority : Int32)
    (prio : Fin N → Int32) :
    (priority < 0 ∨ 10 < priority → sysSetpriority s p pid priority prio = some (-2, prio)) ∧
      (0 ≤ priority → priority ≤ 10 → s.Names p pid →
        (∀ i, s.IsChild p pid i → sysSetpriority s p pid priority prio =
          some (0, update prio i priority)) ∧
          ((¬∃ i, s.IsChild p pid i) → sysSetpriority s p pid priority prio =
            some (-1, prio))) := by
  have hinit : Made (init : State N) := by
    intro i q hi
    unfold init at hi
    dsimp only at hi
    split at hi <;> cases hi
  obtain ⟨hinv, hmade⟩ := h.inv (I := fun s => Inv s ∧ Made s) ⟨inv_init, hinit⟩ fun _ _ _ hi hg hs =>
    ⟨inv_next hi.1 hg hs, made_next hi.1 hi.2 hs⟩
  unfold sysSetpriority
  constructor
  · intro hout
    rw [if_pos hout]
  · intro hlo hhi hnames
    rw [if_neg (not_or.mpr ⟨Int32.not_lt.mpr hlo, Int32.not_lt.mpr hhi⟩)]
    exact setpriority_eq hinv hmade hp huser hnames

end

/-- The first process forks a child and sets its priority; its own is not its to set, nor is that of
a process that is not there. -/
theorem setpriority_of_reach_child : ∃ s : State 64, Machine.Reach step (Few (2 ^ 31 - 1)) init s ∧
    s.IsChild 0 2 1 ∧ sysSetpriority s 0 2 11 (fun _ => 0) = some (-2, fun _ => 0) ∧
    sysSetpriority s 0 2 5 (fun _ => 0) = some (0, update (fun _ => 0) 1 5) ∧
    sysSetpriority s 0 3 5 (fun _ => 0) = some (-1, fun _ => 0) := by
  obtain ⟨s, hs, hs'⟩ := Machine.exists_reach step (Few (2 ^ 31 - 1)) (init : State 64)
    [.dispatch 0, .fork 0, .setParent 0, .forkDone 0]
    (fun s => decide ((s.proc 0).state = .running ∧ s.pc 0 = .user ∧ s.Names 0 2 ∧ s.Names 0 3 ∧
      s.IsChild 0 2 1 ∧
      ¬∃ i, s.IsChild 0 3 i)) true (by decide +kernel)
  obtain ⟨hp, huser, h2, h3, hchild, hnone⟩ := of_decide_eq_true hs'
  have hset := setpriority_of_reach hs hp huser
  exact ⟨s, hs, hchild, (hset 2 11 _).1 (by decide), ((hset 2 5 _).2 (by decide) (by decide) h2).1 1
    hchild,
    ((hset 3 5 _).2 (by decide) (by decide) h3).2 hnone⟩

/-- The first process dereferences a null pointer with the pid 0, which free slots have, and with
its own; and it sets the priority of a child that has exited. -/
theorem setpriority_null :
    (∃ s : State 64, Machine.Reach step (Few (2 ^ 31 - 1)) init s ∧ (s.proc 0).state = .running ∧
      s.pc 0 = .user ∧ (∀ prio, sysSetpriority s 0 0 5 prio = none) ∧ ∀ prio,
      sysSetpriority s 0 1 5 prio = none) ∧
    ∃ s : State 64, Machine.Reach step (Few (2 ^ 31 - 1)) init s ∧ (s.proc 0).state = .running ∧
    s.pc 0 = .user ∧
      (s.proc 1).state = .zombie ∧ (s.proc 1).pid = 2 ∧
      ∀ prio, sysSetpriority s 0 2 5 prio = some (0, update prio 1 5) := by
  constructor
  · obtain ⟨s, hs, hs'⟩ := Machine.exists_reach step (Few (2 ^ 31 - 1)) (init : State 64) [.dispatch 0]
      (fun s => decide ((s.proc 0).state = .running ∧ s.pc 0 = .user ∧ (s.proc 0).parent = none ∧
        (s.proc 1).parent = none ∧
        s.find (fun y => y.pid = 0) = some 1 ∧ s.find (fun y => y.pid = 1) = some 0)) true
          (by decide +kernel)
    obtain ⟨hp, huser, hparent0, hparent1, hfind0, hfind1⟩ := of_decide_eq_true hs'
    exact ⟨s, hs, hp, huser, fun prio => setpriorityFrom_null hfind0 hparent1,
      fun prio => setpriorityFrom_null hfind1 hparent0⟩
  · obtain ⟨s, hs, hs'⟩ := Machine.exists_reach step (Few (2 ^ 31 - 1)) (init : State 64)
      [.dispatch 0, .fork 0, .setParent 0, .forkDone 0, .dispatch 1, .exit 1, .exitDone 1]
      (fun s => decide ((s.proc 0).state = .running ∧ s.pc 0 = .user ∧ (s.proc 1).state = .zombie ∧
        (s.proc 1).pid = 2 ∧
        (∀ i, (s.proc i).pid = 2 → (s.proc i).parent ≠ none) ∧
        (List.finRange 64).find? (fun i => (s.proc i).pid = 2 ∧ ∃ q, (s.proc i).parent = some q ∧
          (s.proc q).pid = (s.proc 0).pid) = some 1)) true (by decide +kernel)
    obtain ⟨hp, huser, hzombie, hpid, hparent, hfind⟩ := of_decide_eq_true hs'
    refine ⟨s, hs, hp, huser, hzombie, hpid, fun prio => ?_⟩
    have hset : setpriorityFrom s 0 2 5 prio (List.finRange 64) = _ :=
      setpriorityFrom_eq hparent (List.finRange 64)
    rw [hfind] at hset
    exact hset

end Xv6.ProcTable
