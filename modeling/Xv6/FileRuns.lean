/-
# Runs of the file calls

The three invariants hold in every state of a run, as long as no pid is given twice: `exit` ends
every process that has the pid of the caller, with its files open. After 2³² calls of `fork` the
pids begin again, and then a reference is lost.

When all calls have returned, the references are the descriptors.
-/
import Xv6.FilePipes

namespace Xv6.Files

open Function (update update_apply update_self update_of_ne comp_def)

section

variable {P : Type} {nfile nofile : ℕ}

/-- The pids in the table are different numbers that `allocproc` has given. -/
structure Pids (s : State P nfile nofile) : Prop where
  next : s.nextpid = Int32.ofNat (s.forks + 2)
  given : ∀ q, s.pid q = 0 ∨ ∃ k, k < s.forks + 2 ∧ s.pid q = Int32.ofNat k
  nonzero : ∀ q, s.life q ≠ .UNUSED → s.pid q ≠ 0
  distinct : ∀ q r, s.pid q = s.pid r → s.pid q ≠ 0 → q = r

theorem ofNat_inj {a b : ℕ} (ha : a < 2 ^ 32) (hb : b < 2 ^ 32)
    (h : Int32.ofNat a = Int32.ofNat b) : a = b := by
  have hbits : BitVec.ofNat 32 a = BitVec.ofNat 32 b := congrArg Int32.toBitVec h
  have := congrArg BitVec.toNat hbits
  rwa [BitVec.toNat_ofNat, BitVec.toNat_ofNat, Nat.mod_eq_of_lt ha, Nat.mod_eq_of_lt hb] at this

variable {s s' : State P nfile nofile} {p : P}

theorem Pids.same (h : Pids s) (hpid : s'.pid = s.pid) (hnext : s'.nextpid = s.nextpid)
    (hforks : s'.forks = s.forks) (hlife : ∀ q, s'.life q ≠ .UNUSED → s.life q ≠ .UNUSED) : Pids s' where
  next := by rw [hnext, hforks, h.next]
  given := by
    rw [hpid, hforks]
    exact h.given
  nonzero q hq := hpid ▸ h.nonzero q (hlife q hq)
  distinct := hpid ▸ h.distinct

theorem Pids.nextpid_ne_zero (h : Pids s) (hfew : s.forks + 2 < 2 ^ 32) : s.nextpid ≠ 0 := by
  intro h0
  have := ofNat_inj (b := 0) hfew (by norm_num) (h.next.symm.trans h0)
  omega

/-- No other process has the pid of a live one. -/
theorem Pids.not_same (h : Pids s) (hlive : s.life p = .live) (q : P) : ¬ s.Same p q := by
  rintro ⟨hpid, hne⟩
  have hzero : s.pid p ≠ 0 := h.nonzero p (by simp [hlive])
  exact hne (h.distinct q p hpid (hpid ▸ hzero))

/-- The references do not depend on the states of the processes and of the pipes. -/
theorem Refs.congr [Fintype P] (h : Refs s) (hfile : s'.file = s.file) (hofile : s'.ofile = s.ofile)
    (htodo : s'.todo = s.todo) : Refs s' := by
  refine ⟨fun f => ?_, fun q => ?_, fun f => ?_, fun q f => ?_⟩
  · simp only [own, hfile, hofile, htodo]
    exact h.count f
  · rw [hofile, htodo]
    exact h.fits q
  · rw [hfile]
    exact h.unused f
  · simp only [news, hfile, htodo]
    exact h.fresh q f

theorem forking_forkWork (np : P) : Forking (forkWork np : List (Op P nfile nofile)) := by
  have hall : ∀ l : List (Fin nofile),
      Forking (l.map (Op.copyFd np) ++ [.runChild np] : List (Op P nfile nofile)) := by
    intro l
    induction l with
    | nil => rfl
    | cons fd l ih => exact ih
  exact hall _

theorem calm_exitWork : Calm (exitWork : List (Op P nfile nofile)) := by
  have hall : ∀ l : List (Fin nofile),
      Calm (l.map Op.exitFd ++ [.zombie] : List (Op P nfile nofile)) := by
    intro l
    induction l with
    | nil => rfl
    | cons fd l ih => exact ih
  exact hall _

theorem shutting_forkWork (np : P) (id : ℕ) (w : Bool) :
    shutting id w (forkWork np : List (Op P nfile nofile)) = 0 := by
  simp [shutting, forkWork, Op.shuts, comp_def]

theorem shutting_exitWork (id : ℕ) (w : Bool) :
    shutting id w (exitWork : List (Op P nfile nofile)) = 0 := by
  simp [shutting, exitWork, Op.shuts, comp_def]

end

section

variable {P : Type} [DecidableEq P] {nfile nofile : ℕ} {s s' : State P nfile nofile} {p : P}
  {memory : Bool} {op : Op P nfile nofile} {rest : List (Op P nfile nofile)}

theorem Pids.teardown_eq (h : Pids s) (hlive : s.life p = .live) : s.teardown p = s := by
  simp [State.teardown, h.not_same hlive]

theorem Pids.allocproc (h : Pids s) {np : P} (hfew : s.forks + 2 < 2 ^ 32) : Pids (s.allocproc np) := by
  have hpid :
    ∀ q, (s.allocproc np).pid q = if q = np then s.nextpid else s.pid q := fun q => update_apply ..
  have hnew : ∀ q, s.pid q ≠ s.nextpid := by
    intro q hq
    rw [h.next] at hq
    rcases h.given q with h0 | ⟨k, hk, hqk⟩
    · have := ofNat_inj (a := 0) (by norm_num) hfew (h0.symm.trans hq)
      omega
    · have := ofNat_inj (by omega) hfew (hqk.symm.trans hq)
      omega
  have hzero := h.nextpid_ne_zero hfew
  refine ⟨?_, fun q => ?_, fun q hq => ?_, fun q r hqr hq => ?_⟩
  · show s.nextpid + 1 = Int32.ofNat (s.forks + 2 + 1)
    rw [h.next, Int32.ofNat_add (s.forks + 2) 1]
    rfl
  · rw [hpid]
    split
    · exact .inr ⟨s.forks + 2, Nat.lt_succ_self _, h.next⟩
    · exact (h.given q).imp id fun ⟨k, hk, hqk⟩ => ⟨k, Nat.lt_succ_of_lt hk, hqk⟩
  · rw [hpid]
    split
    · exact hzero
    · exact h.nonzero q hq
  · have hdistinct := h.distinct q r
    rw [hpid, hpid] at hqr
    rw [hpid] at hq
    grind

theorem exec_pid (hs : exec s p memory rest op = .next s') :
    s'.pid = s.pid ∧ s'.nextpid = s.nextpid ∧ s'.forks = s.forks ∧ ∀ q, s'.life q = s.life q ∨
    op = .runChild q ∨ s'.life q = .ZOMBIE ∧ q = p := by
  have hclose : ∀ {f : Fin nfile} {l : List (Op P nfile nofile)}, s.fileclose p f l = .next s' →
      s'.pid = s.pid ∧ s'.nextpid = s.nextpid ∧ s'.forks = s.forks ∧ s'.life = s.life := by
    intro f l hs
    rw [State.fileclose] at hs
    split at hs
    · cases hs
    · split at hs <;> cases hs <;> exact ⟨rfl, rfl, rfl, rfl⟩
  cases op with
  | fileclose f =>
    obtain ⟨h1, h2, h3, h4⟩ := hclose hs
    exact ⟨h1, h2, h3, fun q => .inl (congrFun h4 q)⟩
  | exitFd fd =>
    rw [exec] at hs
    split at hs
    · cases hs
      exact ⟨rfl, rfl, rfl, fun q => .inl rfl⟩
    · obtain ⟨h1, h2, h3, h4⟩ := hclose hs
      exact ⟨h1, h2, h3, fun q => .inl (congrFun h4 q)⟩
  | runChild np =>
    cases hs
    refine ⟨rfl, rfl, rfl, fun q => ?_⟩
    by_cases hq : q = np
    · exact .inr (.inl (hq ▸ rfl))
    · exact .inl (update_of_ne hq _ _)
  | zombie =>
    cases hs
    refine ⟨rfl, rfl, rfl, fun q => ?_⟩
    by_cases hq : q = p
    · exact .inr (.inr ⟨by simp [State.will, State.setLife, hq], hq⟩)
    · exact .inl (update_of_ne hq _ _)
  | pipeclose | openSet | giveFd | clearFd =>
    cases hs
    exact ⟨rfl, rfl, rfl, fun q => .inl rfl⟩
  | filedup | openFd | pipeFile | pipePage | pipeFd0 | pipeFd1 =>
    rw [exec] at hs
    split at hs <;> cases hs <;> exact ⟨rfl, rfl, rfl, fun q => .inl rfl⟩
  | copyFd np fd =>
    rw [exec] at hs
    split at hs
    · cases hs
      exact ⟨rfl, rfl, rfl, fun q => .inl rfl⟩
    · split at hs <;> cases hs
      exact ⟨rfl, rfl, rfl, fun q => .inl rfl⟩

theorem pids_exec (h : Pids s) (hprocs : Procs s) (htodo : s.todo p = op :: rest)
    (hs : exec s p memory rest op = .next s') : Pids s' := by
  obtain ⟨hpid, hnext, hforks, hlife⟩ := exec_pid hs
  refine h.same hpid hnext hforks fun q hq => ?_
  rcases hlife q with hsame | rfl | ⟨-, rfl⟩
  · exact hsame ▸ hq
  · rw [hprocs.makes p q (by simp [htodo, Op.makes])]
    decide
  · rw [hprocs.work q (by simp [htodo])]
    decide

theorem procs_exec [Fintype P] (hrefs : Refs s) (h : Procs s) (htodo : s.todo p = op :: rest)
    (hs : exec s p memory rest op = .next s') : Procs s' := by
  have hfits := hrefs.fits_todo htodo
  cases op with
  | copyFd np fd => exact procs_copyFd h htodo hfits hs
  | giveFd np fd f => exact procs_giveFd h htodo hfits hs
  | exitFd fd => exact procs_exitFd h htodo hs
  | clearFd fd f => exact procs_clearFd h htodo hs
  | runChild np =>
    obtain rfl : rest = [] := hfits
    exact procs_runChild h htodo hs
  | zombie =>
    obtain rfl : rest = [] := hfits
    exact procs_zombie h htodo hs
  | _ => exact procs_plain h htodo rfl hfits hs

theorem refs_exec [Fintype P] (h : Refs s) (hprocs : Procs s) (htodo : s.todo p = op :: rest)
    (hs : exec s p memory rest op = .next s') : Refs s' := by
  have hfits := h.fits p
  rw [htodo] at hfits
  cases op with
  | filedup f => exact refs_filedup h htodo hs
  | fileclose f =>
    have hrest : Fits (s.ofile p) rest := hfits
    have hown : ∀ g, (rest.map (Op.news g)).sum + (if f = g then 1 else 0) ≤ own s p g := by
      intro g
      have hle := hrest.le (f := g)
      rw [own, htodo, List.map_cons, List.sum_cons, Op.refs]
      omega
    have hnonneg : 0 ≤ (rest.map (Op.news f)).sum := by
      have := news_nonneg s p f
      simpa [news, htodo, Op.news] using this
    have hone := hown f
    rw [if_pos rfl] at hone
    refine refs_fileclose h htodo (by omega) (fun g => by simp [Op.refs]; grind) (fun g hg => ?_) hrest hs
    have hnews : 0 < ((Op.fileclose f :: rest).map (Op.news g)).sum := by simpa [Op.news] using hg
    refine ⟨?_, hnews⟩
    rintro rfl
    -- a file that has no type yet has one reference only
    have href := (h.fresh p g (by rwa [news, htodo])).1
    have hle := h.own_le p g
    rw [href] at hle
    omega
  | pipeclose id w =>
    have hskip : Refs (s.will p rest) :=
      h.skip htodo (fun g => by simp [Op.refs]) hfits fun g hg => by simpa [Op.news] using hg
    cases hs
    exact hskip.congr rfl rfl rfl
  | openFd f r w => exact refs_openFd h htodo hs
  | openSet f r w => exact refs_openSet h htodo hs
  | pipeFile f0 => exact refs_pipeFile h htodo hs
  | pipePage f0 f1 => exact refs_pipePage h htodo hs
  | pipeFd0 rf wf => exact refs_pipeFd0 h htodo hs
  | pipeFd1 fd0 rf wf => exact refs_pipeFd1 h htodo hs
  | copyFd np fd => exact refs_copyFd h htodo hs
  | giveFd np fd f =>
    have hmem : np ∈ (s.todo p).filterMap Op.makes := by simp [htodo, Op.makes]
    obtain ⟨-, hne, hidle⟩ := hprocs.child hmem
    exact refs_giveFd h htodo hne hidle (hprocs.target p np fd (by simp [htodo, Op.target])) hs
  | runChild | zombie =>
    obtain rfl : rest = [] := hfits
    have hskip : Refs (s.will p []) :=
      h.skip htodo (fun g => by simp [Op.refs]) trivial fun g hg => by simp at hg
    cases hs
    exact hskip.congr rfl rfl rfl
  | exitFd fd => exact refs_exitFd h htodo hs
  | clearFd fd f => exact refs_clearFd h htodo hs

theorem procs_begin {l' : List (Op P nfile nofile)} (h : Procs s) (hlive : s.life p = .live)
    (hidle : s.todo p = []) (hlife : s'.life = s.life) (hofile : ∀ q ≠ p, s'.ofile q = s.ofile q)
    (htodo : s'.todo = update s.todo p l') (hplain : ∀ x ∈ l', x.plain = true) : Procs s' := by
  obtain ⟨htarget, hmakes, hzombie⟩ := filterMap_target_plain hplain
  refine h.move hidle (by rw [htodo, update_self]) hlive hlife
    (fun q hq => ⟨hofile q hq, by rw [htodo, update_of_ne hq]⟩) ?_ ?_ fun hz => absurd hz hzombie
  · rw [htarget]
    exact List.nil_sublist _
  · simp [hmakes]

end

/-! ### Every run -/

section

variable {P : Type} [Fintype P] [DecidableEq P] {nfile nofile : ℕ} {s s' : State P nfile nofile}
  {p : P} {f : Fin nfile} {fd : Fin nofile} {np : P}

structure Inv (s : State P nfile nofile) : Prop where
  refs : Refs s
  procs : Procs s
  pipes : Pipes s
  pids : Pids s

def Act.forks : Act P nofile → Bool
  | .fork .. => true
  | _ => false

/-- All pids so far are different numbers. -/
abbrev Few : State P nfile nofile → Act P nofile → Prop :=
  Machine.Seldom Act.forks State.forks (2 ^ 32 - 1)

theorem inv_init (p : P) : Inv (init p : State P nfile nofile) where
  refs := ⟨fun f =>
    by simp [init, own, points], fun q => trivial, fun f _ => rfl, fun q f hf => by simp [init,
      news] at hf⟩
  procs := by
    refine ⟨fun q hq => ?_, fun q _ fd => rfl, fun q np fd h => ?_, fun q => ?_, fun q np h => ?_,
      fun q q' np h => ?_,
      fun q h => ?_⟩ <;> simp_all [init]
  pipes := ⟨fun id w => by simp [init, ends, Pipe.open_], fun id => by simp [init], fun id _ => rfl⟩
  pids := by
    refine ⟨rfl, fun q => ?_, fun q hq => ?_, fun q r h hq => ?_⟩
    · by_cases h : q = p
      · exact .inr ⟨1, by simp [init], by simp [init, h]⟩
      · exact .inl (by simp [init, h])
    · have hqp : q = p := by
        by_contra hne
        simp [init, hne] at hq
      simp [init, hqp]
    · grind [init]

section

variable (h : Inv s) (hlive : s.life p = .live) (hidle : s.todo p = [])
include h hlive hidle

/-- `filealloc` at the start of a call. -/
theorem inv_filealloc {op : Op P nfile nofile} (hf : s.freeFile = some f)
    (hrefs : ∀ g, op.refs g = if f = g then 1 else 0)
    (hnews : ∀ g, op.news g = if f = g then 1 else 0) (hshuts : ∀ id w, op.shuts id w = 0)
    (hfits : Fits (s.ofile p) [op]) (hplain : op.plain = true) : Inv ((s.filealloc f).will p [op]) := by
  have hzero : (s.file f).ref = 0 := by simpa using List.find?_some hf
  refine ⟨h.refs.set hidle f _ (fun g => ?_) hfits (.inr hzero) (by simp) (fun g hg => ?_),
    procs_begin h.procs hlive hidle rfl (fun _ _ => rfl) rfl (by simpa using hplain),
    h.pipes.set hidle f _ fun id w => ?_, h.pids.same rfl rfl rfl fun _ => id⟩
  · grind
  · have htype := h.refs.unused f hzero
    grind
  · simp [ends, hshuts]

theorem inv_open {r w : Bool} (hf : s.freeFile = some f) : Inv ((s.filealloc f).will p [.openFd f r w]) :=
  inv_filealloc h hlive hidle hf (fun _ => rfl) (fun _ => rfl) (fun _ _ => rfl) rfl rfl

theorem inv_pipe (hf : s.freeFile = some f) : Inv ((s.filealloc f).will p [.pipeFile f]) :=
  inv_filealloc h hlive hidle hf (fun _ => rfl) (fun _ => rfl) (fun _ _ => rfl) rfl rfl

theorem inv_close (hf : s.ofile p fd = some f) :
    Inv ((s.setFd p fd none).will p [.fileclose f]) := by
  refine ⟨h.refs.fd hidle fd _ (fun g => ?_) trivial (fun g hg => by simp [Op.news] at hg),
    procs_begin h.procs hlive hidle rfl (fun q hq => update_of_ne hq _ _) rfl (by simp [Op.plain]),
    h.pipes.skip rfl rfl rfl hidle rfl (fun id w => by simp [Op.shuts]),
      h.pids.same rfl rfl rfl fun _ => id⟩
  grind [Op.refs, points]

theorem inv_dup {fd' : Fin nofile} (hf : s.ofile p fd = some f) (hfd : s.freeFd p = some fd') :
    Inv ((s.setFd p fd' (some f)).will p [.filedup f]) := by
  have hnone : s.ofile p fd' = none := by simpa using List.find?_some hfd
  have hne : fd ≠ fd' := by
    rintro rfl
    simp [hf] at hnone
  refine ⟨h.refs.fd hidle fd' _ (fun g => ?_) ⟨rfl, fd, fd', hne, by simp [hne, hf], by simp⟩
      (fun g hg => by simp [Op.news] at hg),
    procs_begin h.procs hlive hidle rfl (fun q hq => update_of_ne hq _ _) rfl (by simp [Op.plain]),
    h.pipes.skip rfl rfl rfl hidle rfl (fun id w => by simp [Op.shuts]),
      h.pids.same rfl rfl rfl fun _ => id⟩
  grind [Op.refs, points]

end

theorem Inv.allocproc (h : Inv s) (hfew : s.forks + 2 < 2 ^ 32) : Inv (s.allocproc np) :=
  ⟨h.refs.congr rfl rfl rfl, ⟨h.procs.work, h.procs.bare, h.procs.target, h.procs.once,
    h.procs.makes, h.procs.one, h.procs.leaves⟩,
    ⟨h.pipes.ends, h.pipes.frees, h.pipes.old⟩, h.pids.allocproc hfew⟩

theorem inv_fork (h : Inv s) (hlive : s.life p = .live) (hidle : s.todo p = [])
    (hnp : s.life np = .UNUSED) (hfew : s.forks + 2 < 2 ^ 32) :
    Inv (((s.allocproc np).setLife np .EMBRYO).will p (forkWork np)) := by
  have h1 : Inv (s.allocproc np) := h.allocproc hfew
  have hfork : Forking (forkWork np : List (Op P nfile nofile)) := forking_forkWork np
  have hrefs : Refs ((s.allocproc np).will p (forkWork np)) :=
    h1.refs.skip hidle (fun g => by simp [hfork.refs]) hfork.toFits fun g hg => by simp [hfork.refs] at hg
  refine ⟨hrefs.congr rfl rfl rfl, procs_fork h1.procs hlive hidle hnp,
    h1.pipes.skip rfl rfl rfl hidle rfl (shutting_forkWork np),
      ⟨h1.pids.next, h1.pids.given, fun q hq => ?_, h1.pids.distinct⟩⟩
  by_cases hq' : q = np
  · have hpid : (s.allocproc np).pid np = s.nextpid := update_self ..
    rw [hq']
    exact hpid ▸ h.pids.nextpid_ne_zero hfew
  · exact h1.pids.nonzero q (by simpa [State.will, State.setLife, hq'] using hq)

theorem inv_exit (h : Inv s) (hlive : s.life p = .live) (hidle : s.todo p = []) :
    Inv (s.will p exitWork) := by
  have hcalm : Calm (exitWork : List (Op P nfile nofile)) := calm_exitWork
  exact ⟨h.refs.skip hidle (fun g => by simp [hcalm.refs]) hcalm.toFits
    fun g hg => by simp [hcalm.refs] at hg,
    procs_exit h.procs hlive hidle, h.pipes.skip rfl rfl rfl hidle rfl shutting_exitWork,
      h.pids.same rfl rfl rfl fun _ => id⟩

theorem inv_reap (h : Inv s) (hzombie : s.life np = .ZOMBIE) :
    Inv { s.setLife np .UNUSED with pid := update s.pid np 0 } := by
  have hprocs : Procs (s.setLife np .UNUSED) := by
    refine h.procs.relife np .UNUSED (fun hne => ?_) (fun _ => h.procs.bare np (.inr hzombie))
      fun q hq => ?_
    · rw [h.procs.work np hne] at hzombie
      cases hzombie
    · rw [h.procs.makes q np hq] at hzombie
      cases hzombie
  refine ⟨h.refs.congr rfl rfl rfl,
    ⟨hprocs.work, hprocs.bare, hprocs.target, hprocs.once, hprocs.makes, hprocs.one, hprocs.leaves⟩,
    ⟨h.pipes.ends, h.pipes.frees, h.pipes.old⟩, h.pids.next, fun q => ?_, fun q hq => ?_,
      fun q r hqr hq => ?_⟩
  · have := h.pids.given q
    grind [State.setLife, update_apply]
  · have hne : q ≠ np := by
      rintro rfl
      simp [State.setLife] at hq
    have hq' : s.life q ≠ .UNUSED := by simpa [State.setLife, hne] using hq
    simpa [hne] using h.pids.nonzero q hq'
  · have := h.pids.distinct q r
    grind [update_apply]

theorem inv_next {a : Act P nofile} (h : Inv s) (hg : Few s a) (hs : step s a = .next s') : Inv s' := by
  cases a with
  | run p memory =>
    simp only [step] at hs
    split at hs
    · cases hs
    · rename_i op rest htodo
      exact ⟨refs_exec h.refs h.procs htodo hs, procs_exec h.refs h.procs htodo hs,
        pipes_exec h.refs h.pipes htodo hs,
        pids_exec h.pids h.procs htodo hs⟩
  | reap np =>
    simp only [step] at hs
    split at hs <;> cases hs
    rename_i hzombie
    exact inv_reap h hzombie
  | open_ p found r w =>
    simp only [step] at hs
    split at hs
    · rename_i hready
      split at hs <;> cases hs
      · rename_i f hf
        exact inv_open h hready.1 hready.2 hf
      · exact h
    · cases hs
  | close p fd =>
    simp only [step] at hs
    split at hs
    · rename_i hready
      split at hs <;> cases hs
      · exact h
      · rename_i f hf
        exact inv_close h hready.1 hready.2 hf
    · cases hs
  | dup p fd =>
    simp only [step] at hs
    split at hs
    · rename_i hready
      split at hs <;> cases hs
      · rename_i hf hfd
        exact inv_dup h hready.1 hready.2 hf hfd
      · exact h
    · cases hs
  | pipe p =>
    simp only [step] at hs
    split at hs
    · rename_i hready
      split at hs <;> cases hs
      · exact h
      · rename_i f0 hf
        exact inv_pipe h hready.1 hready.2 hf
    · cases hs
  | fork p np memory =>
    simp only [step] at hs
    split at hs
    · rename_i hready
      have hfew : s.forks + 2 < 2 ^ 32 := by
        have := hg rfl
        omega
      split at hs <;> cases hs
      · exact inv_fork h hready.1 hready.2.1 hready.2.2 hfew
      · exact h.allocproc hfew
    · cases hs
  | exit p =>
    simp only [step] at hs
    split at hs
    · rename_i hready
      split at hs
      · cases hs
      · split at hs <;> cases hs
        rw [h.pids.teardown_eq hready.1]
        exact inv_exit h hready.1 hready.2
    · cases hs

theorem inv_of_reach (h : Machine.Reach step Few (init p) s) : Inv s :=
  h.inv (I := Inv) (inv_init p) fun _ _ _ h hg hs => inv_next h hg hs

end

section

variable {P : Type} [Fintype P] {nfile nofile : ℕ}

/-- All calls have returned. -/
def State.Quiet (s : State P nfile nofile) : Prop := ∀ q, s.todo q = []

/-- How many descriptors there are for the file. -/
def State.descriptors (s : State P nfile nofile) (f : Fin nfile) : ℕ :=
  (Finset.univ.filter fun x : P × Fin nofile => s.ofile x.1 x.2 = some f).card

/-- There is a descriptor for an end of the pipe. -/
def State.Used (s : State P nfile nofile) (id : ℕ) : Prop :=
  ∃ q fd f, s.ofile q fd = some f ∧ (s.file f).type = .FD_PIPE ∧ (s.file f).pipe = id

theorem sum_points (s : State P nfile nofile) (f : Fin nfile) :
    ∑ q, ∑ fd, points f (s.ofile q fd) = s.descriptors f := by
  rw [State.descriptors, Finset.card_filter, ← Finset.univ_product_univ, Finset.sum_product]
  push_cast
  rfl

variable {s : State P nfile nofile} {p : P}

theorem Inv.ref_eq (h : Inv s) (hquiet : s.Quiet) (f : Fin nfile) : (s.file f).ref = s.descriptors f := by
  have hcount := h.refs.count f
  simp only [own, hquiet _, List.map_nil, List.sum_nil, add_zero] at hcount
  exact_mod_cast hcount.trans (sum_points s f)

/-- A file that is an end of a pipe keeps the end open. -/
theorem Pipes.open_of_file (h : Pipes s) {f : Fin nfile} (htype : (s.file f).type = .FD_PIPE) :
    (s.pipe (s.file f).pipe).open_ (s.file f).writable = true := by
  by_contra hclosed
  have hsum := h.ends (s.file f).pipe (s.file f).writable
  have hle : Files.ends (s.file f).pipe (s.file f).writable (s.file f) ≤
      ∑ g, Files.ends (s.file f).pipe (s.file f).writable (s.file g) :=
    Finset.single_le_sum (fun g _ => ends_nonneg _ _ (s.file g)) (Finset.mem_univ f)
  have hone : Files.ends (s.file f).pipe (s.file f).writable (s.file f) = 1 := by simp [Files.ends, htype]
  have hnonneg : 0 ≤ ∑ q, shutting (s.file f).pipe (s.file f).writable (s.todo q) :=
    Finset.sum_nonneg fun q _ => shutting_nonneg ..
  rw [if_neg hclosed] at hsum
  omega

/-- An end that is open and not being closed is a file. -/
theorem Pipes.file_of_open (h : Pipes s) (hquiet : s.Quiet) {id : ℕ} {w : Bool}
    (hopen : (s.pipe id).open_ w = true) : ∃ f, (s.file f).type = .FD_PIPE ∧ (s.file f).pipe = id := by
  have hsum := h.ends id w
  simp only [hquiet _, shutting_nil, Finset.sum_const_zero, add_zero, if_pos hopen] at hsum
  obtain ⟨f, -, hf⟩ := Finset.exists_ne_zero_of_sum_ne_zero (hsum ▸ one_ne_zero : ∑ f,
    Files.ends id w (s.file f) ≠ 0)
  unfold Files.ends at hf
  exact ⟨f, by grind⟩

theorem Inv.frees_eq (h : Inv s) (hquiet : s.Quiet) {id : ℕ} (hid : id < s.npipe) :
    (s.pipe id).frees = 0 ∧ s.Used id ∨ (s.pipe id).frees = 1 ∧ ¬ s.Used id := by
  have hfrees := h.pipes.frees id
  by_cases hclosed : (s.pipe id).readopen = false ∧ (s.pipe id).writeopen = false
  · refine .inr ⟨by rw [hfrees, if_pos ⟨hid, hclosed⟩], ?_⟩
    rintro ⟨q, fd, f, -, htype, rfl⟩
    have hopen := h.pipes.open_of_file htype
    cases hw : (s.file f).writable <;> simp [hw, Pipe.open_, hclosed] at hopen
  · refine .inl ⟨by rw [hfrees, if_neg fun hc => hclosed hc.2], ?_⟩
    have hopen : ∃ w, (s.pipe id).open_ w = true := by
      rcases not_and_or.mp hclosed with hr | hw
      · exact ⟨false, by simpa [Pipe.open_] using hr⟩
      · exact ⟨true, by simpa [Pipe.open_] using hw⟩
    obtain ⟨w, hw⟩ := hopen
    obtain ⟨f, htype, hpipe⟩ := h.pipes.file_of_open hquiet hw
    have hpos : (s.file f).ref ≠ 0 := fun h0 => by
      rw [h.refs.unused f h0] at htype
      cases htype
    rw [h.ref_eq hquiet, State.descriptors, Finset.card_ne_zero] at hpos
    obtain ⟨⟨q, fd⟩, hx⟩ := hpos
    exact ⟨q, fd, f, by simpa using hx, htype, hpipe⟩

variable [DecidableEq P]

/-- In every state no pipe has been freed twice, and no file is an end of a freed pipe. When all
calls have returned, the references to a file are its descriptors, a file without references has no
type, and the pipes that have been freed are those without descriptors. -/
theorem quiet_of_reach (h : Machine.Reach step Few (init p) s) :
    (∀ id, (s.pipe id).frees ≤ 1) ∧
    (∀ f, (s.file f).type = .FD_PIPE → (s.pipe (s.file f).pipe).frees = 0) ∧
      (s.Quiet → (∀ f, (s.file f).ref = s.descriptors f) ∧
        (∀ f, (s.file f).ref = 0 → (s.file f).type = .FD_NONE) ∧ ∀ id < s.npipe, (s.pipe id).frees =
        1 ↔ ¬ s.Used id) := by
  have hinv := inv_of_reach h
  refine ⟨fun id => ?_, fun f htype => ?_, fun hquiet =>
    ⟨hinv.ref_eq hquiet, hinv.refs.unused, fun id hid => ?_⟩⟩
  · rw [hinv.pipes.frees id]
    split <;> omega
  · rw [hinv.pipes.frees, if_neg]
    rintro ⟨-, hr, hw⟩
    have hopen := hinv.pipes.open_of_file htype
    cases hwf : (s.file f).writable <;> simp [hwf, Pipe.open_, hr, hw] at hopen
  · rcases hinv.frees_eq hquiet hid with ⟨hzero, hused⟩ | ⟨hone, hunused⟩
    · simp [hzero, hused]
    · simp [hone, hunused]

end

/-- `fork` to its end, for `n` open descriptors of the caller. -/
def callFork (p np : Fin 64) (n : ℕ) : List (Act (Fin 64) 16) :=
  .fork p np true :: List.replicate (17 + n) (.run p true)

def callOpen (p : Fin 64) : List (Act (Fin 64) 16) := [.open_ p true true false, .run p true, .run p true]

def callPipe (p : Fin 64) : List (Act (Fin 64) 16) := .pipe p :: List.replicate 4 (.run p true)

/-- A pipe that a parent shares with its child; then the parent closes its two ends. -/
def sharedPipe : List (Act (Fin 64) 16) :=
  callPipe 0 ++ callFork 0 1 2 ++ [.close 0 0, .run 0 true, .close 0 1, .run 0 true]

theorem quiet_of_reach_sharedPipe : ∃ s : State (Fin 64) 100 16, Machine.Reach step Few (init 0) s ∧
    s.Quiet ∧ s.Used 0 ∧ (s.pipe 0).frees = 0 ∧ s.descriptors 0 = 1 ∧ (s.file 0).ref =
    s.descriptors 0 := by
  obtain ⟨s, hs, hs'⟩ := Machine.exists_reach step Few (init 0 : State (Fin 64) 100 16) sharedPipe
    (fun s => decide ((∀ q, s.todo q = []) ∧ s.npipe = 1 ∧ (s.pipe 0).frees = 0 ∧ (s.file 0).ref =
      1)) true (by decide +kernel)
  obtain ⟨hquiet, hnpipe, hfrees, href⟩ := of_decide_eq_true hs'
  obtain ⟨-, -, hq⟩ := quiet_of_reach hs
  obtain ⟨hrefs, -, hpipes⟩ := hq hquiet
  refine ⟨s, hs, hquiet, ?_, hfrees, by rw [← hrefs, href], hrefs 0⟩
  by_contra hunused
  have := (hpipes 0 (by omega)).mpr hunused
  omega

/-! ### Pids that come again -/

section

variable {P : Type} [DecidableEq P] {nfile nofile : ℕ} {s : State P nfile nofile} {p np : P}

/-- After `m + 1` calls of `fork` that found a slot, but no memory. -/
def State.again (s : State P nfile nofile) (np : P) (m : ℕ) : State P nfile nofile :=
  { s with
    pid := update s.pid np (s.nextpid + Int32.ofNat m)
    nextpid := s.nextpid + Int32.ofNat (m + 1)
    forks := s.forks + (m + 1) }

theorem allocproc_again (s : State P nfile nofile) (np : P) (m : ℕ) :
    (s.again np m).allocproc np = s.again np (m + 1) := by
  have hnext : s.nextpid + Int32.ofNat (m + 1) + 1 = s.nextpid + Int32.ofNat (m + 1 + 1) := by
    rw [Int32.ofNat_add (m + 1) 1, ← Int32.add_assoc]
    rfl
  simp [State.again, State.allocproc, hnext, -Int32.ofNat_add]
  rfl

theorem reach_again [Fintype P] (hlive : s.life p = .live) (hidle : s.todo p = [])
    (hnp : s.life np = .UNUSED) (m : ℕ) : Machine.Reach step (fun _ _ => True) s (s.again np m) := by
  induction m with
  | zero =>
    refine .next (a := .fork p np false) .refl trivial ?_
    simp [step, hlive, hidle, hnp, State.again, State.allocproc]
  | succ m ih =>
    refine .next (a := .fork p np false) ih trivial ?_
    rw [← allocproc_again]
    simp [step, hlive, hidle, hnp, State.again]

end

/-- The first process has made a child with the pid 2, which has opened a file. -/
def opened : State (Fin 64) 100 16 :=
  (Machine.play step (fun _ _ => True) (init 0) (callFork 0 1 0 ++ callOpen 1)).getD (init 0)

theorem reach_opened : Machine.Reach step (fun _ _ => True) (init 0) opened := by
  have hplay : Machine.play step (fun _ _ => True) (init 0) (callFork 0 1 0 ++ callOpen 1) =
    some opened := by
    refine (Option.some_get ?_).symm
    decide +kernel
  exact Machine.reach_play hplay

/-- The next child has the pid 2 again, and exits. The first process opens another file, and forks
into the slot that `exit` has torn down. -/
def collide : List (Act (Fin 64) 16) :=
  callFork 0 2 0 ++ .exit 2 :: List.replicate 17 (.run 2 true) ++ callOpen 0 ++ callFork 0 1 1

/-- After 2³² calls of `fork`, the file of the process that was torn down keeps a reference, and
there is no descriptor for it. -/
theorem lost_reference : ∃ s : State (Fin 64) 100 16, Machine.Reach step (fun _ _ => True)
    (init 0) s ∧ s.Quiet ∧ (s.file 0).ref = 1 ∧ s.descriptors 0 = 0 := by
  have hagain : Machine.Reach step (fun _ _ => True) (init 0) (opened.again 2 (2 ^ 32 - 2)) :=
    reach_opened.trans (reach_again (p := 0) (by decide +kernel) (by decide +kernel)
      (by decide +kernel) _)
  obtain ⟨s, hs, hs'⟩ := Machine.exists_reach step (fun _ _ => True) (opened.again 2 (2 ^ 32 - 2)) collide
    (fun s => decide ((∀ q, s.todo q = []) ∧ (s.file 0).ref = 1 ∧ ∀ q fd, s.ofile q fd ≠ some 0))
      true (by decide +kernel)
  obtain ⟨hquiet, href, hnone⟩ := of_decide_eq_true hs'
  refine ⟨s, hagain.trans hs, hquiet, href,
    Finset.card_eq_zero.mpr (Finset.filter_eq_empty_iff.mpr fun x _ => hnone x.1 x.2)⟩

end Xv6.Files
