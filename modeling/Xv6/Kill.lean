/-
# Whom `kill` hits

`kill` sets `killed` in the first slot of the process table that has the pid. It does not look at
the state of the slot. The pid of a free slot is 0, or the pid of a process that `fork` could not
finish, and `allocproc` does not clear `killed`: so the next process in that slot is killed before
it has run (`kill_free_slot`).
-/
import Xv6.ProcTable

namespace Xv6.ProcTable

section

variable {N : ℕ} {s : State N} {pid : Int32} {p : Fin N} {a : Act N}

/-- Every slot with the pid has a process in it that is not being made. -/
def State.Aimed (s : State N) (pid : Int32) : Prop :=
  ∀ i, (s.proc i).pid = pid → (s.proc i).state ≠ .unused ∧ (s.proc i).state ≠ .embryo

instance (s : State N) (pid : Int32) : Decidable (s.Aimed pid) := by
  unfold State.Aimed
  infer_instance

/-- Neither a free slot nor a process being made has been killed. -/
def Fresh (s : State N) : Prop :=
  ∀ i, (s.proc i).state = .unused ∨ (s.proc i).state = .embryo → (s.proc i).killed = false

theorem kill_eq_zero (h : s.Aimed pid) :
    (s.kill pid).1 = 0 ↔ ∃ i, (s.proc i).state ≠ .unused ∧ (s.proc i).pid = pid := by
  rw [State.kill]
  split
  · rename_i hfind
    simpa using fun i _ => by simpa using find_none hfind i
  · rename_i q hfind
    have hq : (s.proc q).pid = pid := by simpa using find_spec hfind
    simpa using ⟨q, (h q hq).1, hq⟩

theorem kill_changes {i : Fin N} (h : s.Aimed pid) (hi : (s.kill pid).2.proc i ≠ s.proc i) :
    (s.proc i).state ≠ .unused ∧ (s.proc i).pid = pid := by
  rw [State.kill] at hi
  split at hi
  · exact absurd rfl hi
  · rename_i q hfind
    have hq : (s.proc q).pid = pid := by simpa using find_spec hfind
    have hiq : i = q := by grind
    exact hiq ▸ ⟨(h q hq).1, hq⟩

theorem fresh_kill (h : Fresh s) (ha : s.Aimed pid) : Fresh (s.kill pid).2 := by
  rw [State.kill]
  split
  · exact h
  · rename_i q hfind
    have hq := ha q (by simpa using find_spec hfind)
    grind [Fresh]

theorem fresh_alloc (h : Fresh s) : Fresh (s.alloc p) := by
  rw [State.alloc]
  split
  · exact h
  · rename_i np hfind
    have hfree := find_spec hfind
    grind [Fresh]

theorem fresh_waitRound (h : Fresh s) : Fresh (s.waitRound p) := by
  rw [State.waitRound]
  split
  · grind [Fresh]
  · split
    · exact h
    · grind [Fresh]

/-- `fork` is called fewer than 2³¹ − 1 times, and `kill` with the pids of processes. -/
def Careful (s : State N) : Act N → Prop
  | .kill _ pid => s.Aimed pid
  | a => Few (2 ^ 31 - 1) s a

instance (s : State N) (a : Act N) : Decidable (Careful s a) := by
  unfold Careful
  split <;> infer_instance

theorem Careful.few (h : Careful s a) : Few (2 ^ 31 - 1) s a := by
  cases a with
  | kill p pid => exact fun hf => by cases hf
  | _ => exact h

variable [NeZero N]

theorem fresh_leave (h : Fresh s) : Fresh (s.leave p) := by
  classical
  intro i hi
  have := h i
  have := leave_state s p i
  rw [leave_eq]
  grind [Woken]

theorem fresh_next {s' : State N} (hinv : Inv s) (h : Fresh s) (hg : Careful s a)
    (hs : step s a = .next s') : Fresh s' := by
  cases a with
  | kill p pid =>
    have := fresh_kill h hg
    grind [step, stepOf]
  | fork p =>
    have halloc := fresh_alloc (p := p) h
    have hs' : s' = { s.alloc p with forks := s.forks + 1 } := by grind [step, stepOf]
    exact hs' ▸ halloc
  | forkFail p =>
    have := hinv.child p
    grind [step, stepOf, Fresh]
  | exit p =>
    have hs' : s' = { s.at_ p .exiting with proc := teardown p s.proc } := by grind [step, stepOf]
    have hfresh : ∀ i, (teardown p s.proc i).state = .unused ∨ (teardown p s.proc i).state = .embryo →
        (teardown p s.proc i).killed = false := by
      intro i
      have := h i
      unfold teardown
      split
      · exact fun _ => rfl
      · exact this
    exact hs' ▸ hfresh
  | exitDone p =>
    have := fresh_leave (p := p) h
    grind [step, stepOf]
  | waitLoop p =>
    have hset : Fresh (s.set p { s.proc p with chan := none }) := by grind [Fresh]
    have := fresh_waitRound (p := p) hset
    grind [step, stepOf]
  | _ => grind [step, stepOf, Fresh]

/-- `kill` succeeds if there is such a process, and changes nothing else. No free slot has been
killed, nor has any process that `fork` hands to the scheduler. -/
theorem kill_of_reach (h : Machine.Reach step Careful init s) :
    (∀ pid, s.Aimed pid → ((s.kill pid).1 = 0 ↔ ∃ i, (s.proc i).state ≠ .unused ∧ (s.proc i).pid = pid) ∧
      ∀ i, (s.kill pid).2.proc i ≠ s.proc i → (s.proc i).state ≠ .unused ∧ (s.proc i).pid = pid) ∧
    (∀ i, (s.proc i).state = .unused → (s.proc i).killed = false) ∧
    ∀ p np s', s.pc p = .ready np → step s (.forkDone p) = .next s' → (s'.proc np).killed = false := by
  have hinit : Fresh (init : State N) := by
    intro i _
    unfold init
    dsimp only
    split <;> rfl
  obtain ⟨hinv, hfresh⟩ := h.inv (I := fun s => Inv s ∧ Fresh s) ⟨inv_init, hinit⟩ fun _ _ _ hi hg hs =>
    ⟨inv_next hi.1 hg.few hs, fresh_next hi.1 hi.2 hg hs⟩
  refine ⟨fun pid ha => ⟨kill_eq_zero ha, fun i => kill_changes ha⟩, fun i hi => hfresh i (.inl hi), ?_⟩
  intro p np s' hpc hs
  have hchild := hinv.child p np (by simp [hpc, Pc.child])
  grind [step, stepOf, hfresh np (.inr hchild)]

end

/-- The first process can be killed, and its child starts with `killed` clear. -/
theorem kill_of_reach_child : ∃ s : State 64, Machine.Reach step Careful init s ∧ (s.kill 1).1 = 0 ∧
    (s.proc 2).state = .unused ∧ (s.proc 2).killed = false ∧ s.pc 0 = .ready 1 ∧
    ∀ s', step s (.forkDone 0) = .next s' → (s'.proc 1).killed = false := by
  obtain ⟨s, hs, hs'⟩ := Machine.exists_reach step Careful (init : State 64)
    [.dispatch 0, .kill 0 1, .fork 0, .setParent 0]
    (fun s => decide (s.Aimed 1 ∧ (s.proc 0).state ≠ .unused ∧ (s.proc 0).pid = 1 ∧
      (s.proc 2).state = .unused ∧
      s.pc 0 = .ready 1)) true (by decide +kernel)
  obtain ⟨haimed, h0, hpid, h2, hpc⟩ := of_decide_eq_true hs'
  obtain ⟨hkill, hfree, hchild⟩ := kill_of_reach hs
  exact ⟨s, hs, (hkill 1 haimed).1.mpr ⟨0, h0, hpid⟩, h2, hfree 2 h2, hpc, fun s' => hchild 0 1 s' hpc⟩

/-- After `kill(0)` a free slot has been killed, although nothing has the pid 0, and the child of
the next `fork` is `RUNNABLE` and killed. -/
theorem kill_free_slot :
    (∃ s : State 64, Machine.Reach step (fun _ _ => True) init s ∧ (s.kill 0).1 = 0 ∧
      (∀ i, (s.proc i).state ≠ .unused → (s.proc i).pid ≠ 0)) ∧
    (∃ s : State 64, Machine.Reach step (fun _ _ => True) init s ∧ (s.proc 1).state = .unused ∧
      (s.proc 1).killed = true) ∧
    ∃ s : State 64, Machine.Reach step (fun _ _ => True) init s ∧ (s.proc 1).state = .runnable ∧
      (s.proc 1).pid = 2 ∧ (s.proc 1).killed = true := by
  refine ⟨?_, ?_, ?_⟩
  · refine (Machine.exists_reach step (fun _ _ => True) (init : State 64) [.dispatch 0]
      (fun s => decide ((s.kill 0).1 = 0 ∧ ∀ i, (s.proc i).state ≠ .unused → (s.proc i).pid ≠ 0)) true
      (by decide +kernel)).imp fun s => And.imp_right of_decide_eq_true
  · refine (Machine.exists_reach step (fun _ _ => True) (init : State 64) [.dispatch 0, .kill 0 0]
      (fun s => decide ((s.proc 1).state = .unused ∧ (s.proc 1).killed = true)) true
      (by decide +kernel)).imp fun s => And.imp_right of_decide_eq_true
  · refine (Machine.exists_reach step (fun _ _ => True) (init : State 64)
      [.dispatch 0, .kill 0 0, .fork 0, .setParent 0, .forkDone 0]
      (fun s => decide ((s.proc 1).state = .runnable ∧ (s.proc 1).pid = 2 ∧ (s.proc 1).killed =
        true)) true
      (by decide +kernel)).imp fun s => And.imp_right of_decide_eq_true

end Xv6.ProcTable
