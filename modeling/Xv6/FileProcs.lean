/-
# Processes and their descriptors

Only a live process is in a call. A slot that is free, or whose process is gone, has no descriptors:
`exit` clears them all. The child of a `fork` is filled by one process, which gives it each
descriptor once.
-/
import Xv6.FileTable

namespace Xv6.Files

open Function (update update_apply update_self update_of_ne)
open List (filterMap_append filterMap_map nil_append sublist_cons_self mem_cons_of_mem
  mem_append_right)

section

variable {P : Type} {nfile nofile : ℕ} {np : P}

/-- The descriptor of a child that a step is to fill. -/
def Op.target : Op P nfile nofile → Option (P × Fin nofile)
  | .copyFd np fd | .giveFd np fd _ => some (np, fd)
  | _ => none

/-- The child that a step is about. -/
def Op.makes : Op P nfile nofile → Option P
  | .copyFd np _ | .giveFd np _ _ | .runChild np => some np
  | _ => none

structure Procs (s : State P nfile nofile) : Prop where
  work : ∀ q, s.todo q ≠ [] → s.life q = .live
  bare : ∀ q, s.life q = .UNUSED ∨ s.life q = .ZOMBIE → ∀ fd, s.ofile q fd = none
  target : ∀ p np fd, (np, fd) ∈ (s.todo p).filterMap Op.target → s.ofile np fd = none
  once : ∀ p, ((s.todo p).filterMap Op.target).Nodup
  makes : ∀ p np, np ∈ (s.todo p).filterMap Op.makes → s.life np = .EMBRYO
  one : ∀ p p' np, np ∈ (s.todo p).filterMap Op.makes → np ∈ (s.todo p').filterMap Op.makes → p = p'
  leaves : ∀ p, .zombie ∈ s.todo p → ∀ fd, s.ofile p fd = none ∨ .exitFd fd ∈ s.todo p ∨ ∃ f,
    .clearFd fd f ∈ s.todo p

theorem Forking.no_zombie : ∀ {l : List (Op P nfile nofile)}, Forking l → Op.zombie ∉ l
  | [], _ => by simp
  | .copyFd np fd :: l, h => by
    have := Forking.no_zombie (l := l) h
    simpa using this
  | .runChild np :: l, h => by
    obtain rfl : l = [] := h
    simp

theorem target_forkWork (np : P) :
    (forkWork np : List (Op P nfile nofile)).filterMap Op.target = (List.finRange nofile).map
    fun fd => (np, fd) := by
  rw [forkWork, filterMap_append, filterMap_map]
  simp [Op.target, Function.comp_def]

theorem makes_forkWork {r : P}
    (h : r ∈ (forkWork np : List (Op P nfile nofile)).filterMap Op.makes) : r = np := by
  rw [forkWork, filterMap_append, filterMap_map] at h
  simp [Op.makes] at h
  grind

/-- A step that is about no other process and not of `exit`. -/
def Op.plain : Op P nfile nofile → Bool
  | .copyFd .. | .giveFd .. | .runChild _ | .exitFd _ | .clearFd .. | .zombie => false
  | _ => true

theorem filterMap_target_plain {new : List (Op P nfile nofile)} (h : ∀ x ∈ new, x.plain = true) :
    new.filterMap Op.target = [] ∧ new.filterMap Op.makes = [] ∧ Op.zombie ∉ new := by
  refine ⟨List.filterMap_eq_nil_iff.mpr fun x hx => ?_, List.filterMap_eq_nil_iff.mpr fun x hx =>
    ?_, fun hz => ?_⟩
  · have := h x hx
    cases x <;> simp_all [Op.plain, Op.target]
  · have := h x hx
    cases x <;> simp_all [Op.plain, Op.makes]
  · exact absurd (h _ hz) (by simp [Op.plain])

variable {s s' : State P nfile nofile} {p : P} {l l' : List (Op P nfile nofile)}

theorem makes_of_target {l : List (Op P nfile nofile)} {fd : Fin nofile}
    (h : (np, fd) ∈ l.filterMap Op.target) : np ∈ l.filterMap Op.makes := by
  obtain ⟨op, hop, htarget⟩ := List.mem_filterMap.mp h
  refine List.mem_filterMap.mpr ⟨op, hop, ?_⟩
  cases op <;> simp_all [Op.target, Op.makes]

/-- The child of a process that is forking. -/
theorem Procs.child (h : Procs s) (hnp : np ∈ (s.todo p).filterMap Op.makes) :
    s.life np = .EMBRYO ∧ np ≠ p ∧ s.todo np = [] := by
  have hembryo := h.makes p np hnp
  refine ⟨hembryo, ?_, ?_⟩
  · rintro rfl
    have := h.work np (fun h0 => by simp [h0] at hnp)
    rw [hembryo] at this
    cases this
  · by_contra hne
    rw [h.work np hne] at hembryo
    cases hembryo

/-- A step of `p` on its own descriptors. -/
theorem Procs.move (h : Procs s) (htodo : s.todo p = l) (htodo' : s'.todo p = l')
    (hlive : s.life p = .live) (hlife : s'.life = s.life)
    (hother : ∀ q ≠ p, s'.ofile q = s.ofile q ∧ s'.todo q = s.todo q)
    (htarget : (l'.filterMap Op.target).Sublist (l.filterMap Op.target))
    (hmakes : ∀ np ∈ l'.filterMap Op.makes, np ∈ l.filterMap Op.makes)
    (hleaves : .zombie ∈ l' → ∀ fd, s'.ofile p fd = none ∨ .exitFd fd ∈ l' ∨ ∃ f, .clearFd fd f ∈
      l') : Procs s' := by
  have hsub : ∀ q np, np ∈ (s'.todo q).filterMap Op.makes → np ∈ (s.todo q).filterMap Op.makes := by
    intro q np hnp
    by_cases hq : q = p
    · subst hq
      rw [htodo'] at hnp
      rw [htodo]
      exact hmakes np hnp
    · rwa [(hother q hq).2] at hnp
  refine ⟨fun q hq => ?_, fun q hq fd => ?_, fun q np fd hnp => ?_, fun q => ?_, fun q np hnp => ?_,
    fun q q' np hq hq' => ?_,
    fun q hq fd => ?_⟩
  · rw [hlife]
    by_cases hqp : q = p
    · exact hqp ▸ hlive
    · exact h.work q ((hother q hqp).2 ▸ hq)
  · have hqp : q ≠ p := by
      rintro rfl
      rw [hlife, hlive] at hq
      rcases hq with hq | hq <;> cases hq
    rw [(hother q hqp).1]
    exact h.bare q (hlife ▸ hq) fd
  · have hmem : (np, fd) ∈ (s.todo q).filterMap Op.target := by
      by_cases hqp : q = p
      · subst hqp
        rw [htodo'] at hnp
        exact htodo ▸ htarget.subset hnp
      · rwa [(hother q hqp).2] at hnp
    have hnpp : np ≠ p := by
      rintro rfl
      have := h.makes q np (makes_of_target hmem)
      rw [hlive] at this
      cases this
    rw [(hother np hnpp).1]
    exact h.target q np fd hmem
  · by_cases hqp : q = p
    · subst hqp
      rw [htodo']
      exact htarget.nodup (htodo ▸ h.once q)
    · rw [(hother q hqp).2]
      exact h.once q
  · rw [hlife]
    exact h.makes q np (hsub q np hnp)
  · exact h.one q q' np (hsub q np hq) (hsub q' np hq')
  · by_cases hqp : q = p
    · subst hqp
      rw [htodo'] at hq ⊢
      exact hleaves hq fd
    · rw [(hother q hqp).2] at hq ⊢
      rw [(hother q hqp).1]
      exact h.leaves q hq fd

end

section

variable {P : Type} [DecidableEq P] {nfile nofile : ℕ} {s s' : State P nfile nofile} {p : P}
  {memory : Bool} {op : Op P nfile nofile} {rest : List (Op P nfile nofile)} {f : Fin nfile}
  {np : P} {fd : Fin nofile}

/-- What `fileclose` leaves alone. -/
theorem fileclose_cases (hs : s.fileclose p f rest = .next s') :
    s'.ofile = s.ofile ∧ s'.life = s.life ∧
      ∃ new : List (Op P nfile nofile), s'.todo = update s.todo p (new ++ rest) ∧ ∀ x ∈ new,
      x.plain = true := by
  rw [State.fileclose] at hs
  split at hs
  · cases hs
  · split at hs <;> cases hs
    · exact ⟨rfl, rfl, [], rfl, by simp⟩
    · refine ⟨rfl, rfl,
        if (s.file f).type = .FD_PIPE then [.pipeclose (s.file f).pipe
          (s.file f).writable] else [], ?_, ?_⟩
      · show update s.todo p _ = _
        split <;> rfl
      · intro x hx
        split at hx
        · rw [List.mem_singleton.mp hx]
          rfl
        · cases hx

/-- What the plain steps leave alone. -/
theorem exec_cases (hop : op.plain = true) (hfits : Fits (s.ofile p) (op :: rest))
    (hs : exec s p memory rest op = .next s') :
    s'.life = s.life ∧ (∀ q ≠ p, s'.ofile q = s.ofile q) ∧ (s'.ofile p = s.ofile p ∨ rest = []) ∧
      ∃ new : List (Op P nfile nofile), s'.todo = update s.todo p (new ++ rest) ∧ ∀ x ∈ new,
      x.plain = true := by
  have hfd : ∀ (fd : Fin nofile) y (l : List (Op P nfile nofile)), ∀ q ≠ p,
      ((s.setFd p fd y).will p l).ofile q = s.ofile q := fun fd y l q hq => update_of_ne hq _ _
  cases op with
  | filedup f =>
    rw [exec] at hs
    split at hs <;> cases hs
    exact ⟨rfl, fun _ _ => rfl, .inl rfl, [], rfl, by simp⟩
  | fileclose f =>
    obtain ⟨hofile, hlife, hnew⟩ := fileclose_cases hs
    exact ⟨hlife, fun _ _ => by rw [hofile], .inl (by rw [hofile]), hnew⟩
  | pipeclose | openSet =>
    cases hs
    exact ⟨rfl, fun _ _ => rfl, .inl rfl, [], rfl, by simp⟩
  | openFd f r w =>
    rw [exec] at hs
    split at hs <;> cases hs
    · exact ⟨rfl, fun _ _ => rfl, .inl rfl, [.fileclose f], rfl, by simp [Op.plain]⟩
    · exact ⟨rfl, hfd _ _ _, .inr hfits, [.openSet f r w], rfl, by simp [Op.plain]⟩
  | pipeFile f0 =>
    rw [exec] at hs
    split at hs <;> cases hs
    · exact ⟨rfl, fun _ _ => rfl, .inl rfl, [.fileclose f0], rfl, by simp [Op.plain]⟩
    · exact ⟨rfl, fun _ _ => rfl, .inl rfl, [.pipePage f0 _], rfl, by simp [Op.plain]⟩
  | pipePage f0 f1 =>
    rw [exec] at hs
    split at hs <;> cases hs
    · exact ⟨rfl, fun _ _ => rfl, .inl rfl, [.pipeFd0 f0 f1], rfl, by simp [Op.plain]⟩
    · exact ⟨rfl, fun _ _ => rfl, .inl rfl, [.fileclose f0, .fileclose f1], rfl, by simp [Op.plain]⟩
  | pipeFd0 rf wf =>
    rw [exec] at hs
    split at hs <;> cases hs
    · exact ⟨rfl, fun _ _ => rfl, .inl rfl, [.fileclose rf, .fileclose wf], rfl, by simp [Op.plain]⟩
    · exact ⟨rfl, hfd _ _ _, .inr hfits, [.pipeFd1 _ rf wf], rfl, by simp [Op.plain]⟩
  | pipeFd1 fd0 rf wf =>
    rw [exec] at hs
    split at hs <;> cases hs
    · exact ⟨rfl, hfd _ _ _, .inr hfits.1, [.fileclose rf, .fileclose wf], rfl, by simp [Op.plain]⟩
    · exact ⟨rfl, hfd _ _ _, .inr hfits.1, [], rfl, by simp⟩
  | _ => cases hop

section

variable (h : Procs s)
include h

theorem procs_plain (htodo : s.todo p = op :: rest) (hop : op.plain = true)
    (hfits : Fits (s.ofile p) (op :: rest)) (hs : exec s p memory rest op = .next s') : Procs s' := by
  obtain ⟨hlife, hother, hrow, new, hnew, hplain⟩ := exec_cases hop hfits hs
  obtain ⟨htarget, hmakes, hzombie⟩ := filterMap_target_plain hplain
  refine h.move htodo (by rw [hnew, update_self]) (h.work p (by simp [htodo])) hlife
    (fun q hq => ⟨hother q hq, by rw [hnew, update_of_ne hq]⟩) ?_ ?_ ?_
  · rw [filterMap_append, htarget, nil_append]
    exact (sublist_cons_self op rest).filterMap _
  · intro np hnp
    rw [filterMap_append, hmakes, nil_append] at hnp
    exact (sublist_cons_self op rest).filterMap _ |>.subset hnp
  · intro hz fd
    have hz' : Op.zombie ∈ rest := (List.mem_append.mp hz).resolve_left hzombie
    rcases hrow with hrow | hrow
    · have hleaves := h.leaves p (by rw [htodo]; exact mem_cons_of_mem _ hz') fd
      rw [htodo] at hleaves
      rw [hrow]
      refine hleaves.imp id (Or.imp (fun hmem => ?_) fun ⟨f, hmem⟩ => ⟨f, ?_⟩)
      · refine mem_append_right _ ((List.mem_cons.mp hmem).resolve_left ?_)
        rintro rfl
        cases hop
      · refine mem_append_right _ ((List.mem_cons.mp hmem).resolve_left ?_)
        rintro rfl
        cases hop
    · rw [hrow] at hz'
      cases hz'

theorem procs_copyFd (htodo : s.todo p = .copyFd np fd :: rest)
    (hfork : Forking rest) (hs : exec s p memory rest (.copyFd np fd) = .next s') : Procs s' := by
  have hlive := h.work p (by simp [htodo])
  rw [exec] at hs
  split at hs
  · cases hs
    refine h.move htodo (update_self ..) hlive rfl (fun q hq => ⟨rfl, update_of_ne hq _ _⟩)
      ((sublist_cons_self _ rest).filterMap _)
        (fun np hnp => ((sublist_cons_self _ rest).filterMap _).subset hnp)
      fun hz => absurd hz hfork.no_zombie
  · rename_i f hf
    split at hs <;> cases hs
    refine h.move htodo (update_self ..) hlive rfl (fun q hq => ⟨rfl, update_of_ne hq _ _⟩)
      (List.Sublist.refl _) (fun np hnp => hnp) fun hz => ?_
    exact absurd hz (by simpa using hfork.no_zombie)

theorem procs_exitFd (htodo : s.todo p = .exitFd fd :: rest)
    (hs : exec s p memory rest (.exitFd fd) = .next s') : Procs s' := by
  have hlive := h.work p (by simp [htodo])
  rw [exec] at hs
  split at hs
  · rename_i hnone
    cases hs
    refine h.move htodo (update_self ..) hlive rfl (fun q hq => ⟨rfl, update_of_ne hq _ _⟩)
      ((sublist_cons_self _ rest).filterMap _)
        (fun np hnp => ((sublist_cons_self _ rest).filterMap _).subset hnp)
      fun hz fd' => ?_
    have hleaves := h.leaves p (by rw [htodo]; exact mem_cons_of_mem _ hz) fd'
    rw [htodo] at hleaves
    by_cases hfd : fd' = fd
    · exact .inl (hfd ▸ hnone)
    · simpa [State.will, hfd] using hleaves
  · rename_i f hf
    obtain ⟨hofile, hlife, new, hnew, hplain⟩ := fileclose_cases hs
    obtain ⟨htarget, hmakes, hzombie⟩ := filterMap_target_plain hplain
    refine h.move htodo (by rw [hnew, update_self]) hlive hlife
      (fun q hq => ⟨by rw [hofile], by rw [hnew, update_of_ne hq]⟩) ?_ ?_ fun hz fd' => ?_
    · rw [filterMap_append, htarget, nil_append]
      exact List.Sublist.refl _
    · intro np hnp
      rwa [filterMap_append, hmakes, nil_append] at hnp
    · have hz' : Op.zombie ∈ rest := by simpa [hzombie] using hz
      have hleaves := h.leaves p (by rw [htodo]; exact mem_cons_of_mem _ hz') fd'
      rw [htodo] at hleaves
      rw [hofile]
      by_cases hfd : fd' = fd
      · exact .inr (.inr ⟨f, by simp [hfd]⟩)
      · have hleaves' : s.ofile p fd' = none ∨ Op.exitFd fd' ∈ rest ∨ ∃ f, Op.clearFd fd' f ∈ rest := by
          simpa [hfd] using hleaves
        refine hleaves'.imp id (Or.imp (fun hmem => ?_) (Exists.imp fun g hmem => ?_))
        · exact mem_append_right _ (mem_cons_of_mem _ hmem)
        · exact mem_append_right _ (mem_cons_of_mem _ hmem)

theorem procs_clearFd (htodo : s.todo p = .clearFd fd f :: rest)
    (hs : exec s p memory rest (.clearFd fd f) = .next s') : Procs s' := by
  have hlive := h.work p (by simp [htodo])
  cases hs
  refine h.move htodo (update_self ..) hlive rfl
    (fun q hq => ⟨update_of_ne hq _ _, update_of_ne hq _ _⟩)
    ((sublist_cons_self _ rest).filterMap _)
      (fun np hnp => ((sublist_cons_self _ rest).filterMap _).subset hnp)
    fun hz fd' => ?_
  have hleaves := h.leaves p (by rw [htodo]; exact mem_cons_of_mem _ hz) fd'
  rw [htodo] at hleaves
  by_cases hfd : fd' = fd
  · exact .inl (by simp [State.will, State.setFd, hfd])
  · simpa [State.will, State.setFd, hfd] using hleaves

theorem Procs.relife (r : P) (x : Life) (hwork : s.todo r ≠ [] → x = .live)
    (hbare : x = .UNUSED ∨ x = .ZOMBIE → ∀ fd, s.ofile r fd = none)
    (hmakes : ∀ q, r ∈ (s.todo q).filterMap Op.makes → x = .EMBRYO) : Procs (s.setLife r x) := by
  have hlife : ∀ q, (s.setLife r x).life q = if q = r then x else s.life q := fun q => update_apply ..
  refine ⟨fun q hq => ?_, fun q hq => ?_, h.target, h.once, fun q np hnp => ?_, h.one, h.leaves⟩
  · rw [hlife]
    split_ifs with hqr
    · exact hwork (hqr ▸ hq)
    · exact h.work q hq
  · rw [hlife] at hq
    split_ifs at hq with hqr
    · exact hqr ▸ hbare hq
    · exact h.bare q hq
  · rw [hlife]
    split_ifs with hnr
    · exact hmakes q (hnr ▸ hnp)
    · exact h.makes q np hnp

/-- A descriptor of a process that is being made is filled. -/
theorem Procs.give (y : Option (Fin nfile)) (hembryo : s.life np = .EMBRYO)
    (htarget : ∀ q, (np, fd) ∉ (s.todo q).filterMap Op.target) : Procs (s.setFd np fd y) := by
  have hofile : ∀ q fd', ¬ (q = np ∧ fd' = fd) → (s.setFd np fd y).ofile q fd' = s.ofile q fd' := by
    intro q fd' hne
    simp only [State.setFd, update_apply]
    grind
  refine ⟨h.work, fun q hq fd' => ?_, fun q r fd' hr => ?_, h.once, h.makes, h.one, fun q hz fd' => ?_⟩
  · rw [hofile q fd' ?_]
    · exact h.bare q hq fd'
    · rintro ⟨rfl, -⟩
      have hq' : s.life q = .UNUSED ∨ s.life q = .ZOMBIE := hq
      rw [hembryo] at hq'
      rcases hq' with hq' | hq' <;> cases hq'
  · rw [hofile r fd' ?_]
    · exact h.target q r fd' hr
    · rintro ⟨rfl, rfl⟩
      exact htarget q hr
  · rw [hofile q fd' ?_]
    · exact h.leaves q hz fd'
    · rintro ⟨rfl, -⟩
      have := h.work q (List.ne_nil_of_mem hz)
      rw [hembryo] at this
      cases this

/-- A step that leaves nothing new to do. -/
theorem Procs.tail (htodo : s.todo p = op :: rest) (hz : Op.zombie ∉ rest) :
    Procs (s.will p rest) :=
  h.move htodo (update_self ..) (h.work p (by simp [htodo])) rfl
    (fun q hq => ⟨rfl, update_of_ne hq _ _⟩) ((sublist_cons_self _ rest).filterMap _)
    (fun _ hnp => ((sublist_cons_self _ rest).filterMap _).subset hnp) fun hz' => absurd hz' hz

theorem procs_giveFd (htodo : s.todo p = .giveFd np fd f :: rest) (hfork : Forking rest)
    (hs : exec s p memory rest (.giveFd np fd f) = .next s') : Procs s' := by
  have hmem : np ∈ (s.todo p).filterMap Op.makes := by simp [htodo, Op.makes]
  have honce := h.once p
  rw [htodo] at honce
  cases hs
  refine (h.tail htodo hfork.no_zombie).give (some f) (h.child hmem).1 fun q hq => ?_
  by_cases hqp : q = p
  · subst hqp
    have hq' : (np, fd) ∈ rest.filterMap Op.target := by simpa [State.will] using hq
    simp [Op.target] at honce hq'
    grind
  · have hq' : (np, fd) ∈ (s.todo q).filterMap Op.target := by simpa [State.will, hqp] using hq
    exact hqp (h.one q p np (makes_of_target hq') hmem)

theorem procs_runChild (htodo : s.todo p = [.runChild np])
    (hs : exec s p memory [] (.runChild np) = .next s') : Procs s' := by
  have hmem : np ∈ (s.todo p).filterMap Op.makes := by simp [htodo, Op.makes]
  cases hs
  refine (h.tail htodo (by simp)).relife np .live (fun _ => rfl) (by simp) fun q hq => ?_
  by_cases hqp : q = p
  · simp [State.will, hqp] at hq
  · have hq' : np ∈ (s.todo q).filterMap Op.makes := by simpa [State.will, hqp] using hq
    exact absurd (h.one q p np hq' hmem) hqp

theorem procs_zombie (htodo : s.todo p = [.zombie])
    (hs : exec s p memory [] .zombie = .next s') : Procs s' := by
  have hlive := h.work p (by simp [htodo])
  have hbare : ∀ fd, s.ofile p fd = none := fun fd => by
    simpa [htodo] using h.leaves p (by simp [htodo]) fd
  cases hs
  have htail := h.tail htodo (by simp)
  refine htail.relife p .ZOMBIE (by simp [State.will]) (fun _ => hbare) fun q hq => ?_
  have := htail.makes q p hq
  rw [show (s.will p []).life p = s.life p from rfl, hlive] at this
  cases this

theorem procs_fork (hlive : s.life p = .live) (hidle : s.todo p = [])
    (hnp : s.life np = .UNUSED) : Procs ((s.setLife np .EMBRYO).will p (forkWork np)) := by
  have hnew : ∀ q, np ∉ (s.todo q).filterMap Op.makes := fun q hq => by
    rw [h.makes q np hq] at hnp
    cases hnp
  have hnpp : np ≠ p := by
    rintro rfl
    rw [hnp] at hlive
    cases hlive
  have h1 : Procs (s.setLife np .EMBRYO) := h.relife np .EMBRYO
    (fun hne => by rw [h.work np hne] at hnp; cases hnp) (by simp) fun q hq => rfl
  have htodo : ∀ q, ((s.setLife np .EMBRYO).will p (forkWork np)).todo q =
    if q = p then forkWork np else s.todo q :=
    fun q => update_apply ..
  refine ⟨fun q hq => ?_, h1.bare, fun q r fd hr => ?_, fun q => ?_, fun q r hr => ?_,
    fun q q' r hr hr' => ?_,
    fun q hz fd => ?_⟩
  · by_cases hqp : q = p
    · subst hqp
      show update s.life np .EMBRYO q = .live
      rw [update_of_ne (Ne.symm hnpp), hlive]
    · rw [htodo, if_neg hqp] at hq
      exact h1.work q hq
  · rw [htodo] at hr
    split at hr
    · rw [target_forkWork] at hr
      obtain ⟨fd', -, heq⟩ := List.mem_map.mp hr
      cases heq
      exact h.bare np (.inl hnp) fd
    · exact h1.target q r fd hr
  · rw [htodo]
    split
    · rw [target_forkWork]
      exact (List.nodup_finRange nofile).map fun _ _ heq => (Prod.mk.inj heq).2
    · exact h1.once q
  · rw [htodo] at hr
    split at hr
    · rw [makes_forkWork hr]
      exact update_self ..
    · exact h1.makes q r hr
  · rw [htodo] at hr hr'
    split at hr <;> split at hr'
    · simp_all
    · rw [makes_forkWork hr] at hr'
      exact absurd hr' (hnew q')
    · rw [makes_forkWork hr'] at hr
      exact absurd hr (hnew q)
    · exact h.one q q' r hr hr'
  · rw [htodo] at hz
    split_ifs at hz with hqp
    · simp [forkWork] at hz
    · rw [htodo, if_neg hqp]
      exact h.leaves q hz fd

theorem procs_exit (hlive : s.life p = .live) (hidle : s.todo p = []) :
    Procs (s.will p exitWork) := by
  refine h.move hidle (update_self ..) hlive rfl (fun q hq => ⟨rfl, update_of_ne hq _ _⟩) ?_ ?_
    fun _ fd => .inr (.inl ?_)
  · rw [exitWork, filterMap_append, filterMap_map]
    simp [Op.target]
  · rw [exitWork, filterMap_append, filterMap_map]
    simp [Op.makes]
  · simp [exitWork]

end

end

end Xv6.Files
