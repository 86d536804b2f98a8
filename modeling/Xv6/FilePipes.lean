/-
# Pipes and descriptors

An open end of a pipe is one file of the file table, or it is just being closed. So the page of the
pipe is freed once, by whoever closes the second end, and that happens when no descriptor is left
for either end.
-/
import Xv6.FileProcs

namespace Xv6.Files

open Function (update update_self update_of_ne)

section

variable {P : Type} {nfile nofile : ℕ} {id : ℕ} {w : Bool} {f0 f1 : Fin nfile}

/-- The file is an end of the pipe. -/
def ends (id : ℕ) (w : Bool) (x : File) : ℤ :=
  if x.type = .FD_PIPE ∧ x.pipe = id ∧ x.writable = w then 1 else 0

theorem ends_nonneg (id : ℕ) (w : Bool) (x : File) : 0 ≤ ends id w x := by
  unfold ends
  split <;> decide

/-- The end of the pipe is being closed. -/
def Op.shuts (id : ℕ) (w : Bool) : Op P nfile nofile → ℤ
  | .pipeclose id' w' => if id' = id ∧ w' = w then 1 else 0
  | _ => 0

/-- How often a call is still to close the end. -/
def shutting (id : ℕ) (w : Bool) (l : List (Op P nfile nofile)) : ℤ := (l.map (Op.shuts id w)).sum

@[simp]
theorem shutting_cons (id : ℕ) (w : Bool) (op : Op P nfile nofile) (l : List (Op P nfile nofile)) :
    shutting id w (op :: l) = op.shuts id w + shutting id w l := by
  simp [shutting]

@[simp]
theorem shutting_nil (id : ℕ) (w : Bool) : shutting id w ([] : List (Op P nfile nofile)) = 0 := rfl

theorem shutting_nonneg (id : ℕ) (w : Bool) (l : List (Op P nfile nofile)) : 0 ≤ shutting id w l := by
  refine List.sum_nonneg fun x hx => ?_
  obtain ⟨op, -, rfl⟩ := List.mem_map.mp hx
  cases op <;> simp only [Op.shuts] <;> omega

/-- An open end of a pipe is one file, or is being closed. The page is freed when both ends are
closed. -/
structure Pipes [Fintype P] (s : State P nfile nofile) : Prop where
  ends : ∀ id w, ∑ f, ends id w (s.file f) + ∑ q, shutting id w (s.todo q) =
    if (s.pipe id).open_ w = true then 1 else 0
  frees : ∀ id, (s.pipe id).frees =
    if id < s.npipe ∧ (s.pipe id).readopen = false ∧ (s.pipe id).writeopen = false then 1 else 0
  old : ∀ id, s.npipe ≤ id → s.pipe id = ⟨false, false, 0⟩

/-- What `pipeclose` does to its pipe. -/
theorem pipeclose_pipe (s : State P nfile nofile) (id : ℕ) (w : Bool) (id' : ℕ) (hid : id' ≠ id) :
    (s.pipeclose id w).pipe id' = s.pipe id' := update_of_ne hid _ _

theorem pipeclose_open (s : State P nfile nofile) (id : ℕ) (w w' : Bool) :
    ((s.pipeclose id w).pipe id).open_ w' = if w' = w then false else (s.pipe id).open_ w' := by
  simp only [State.pipeclose, update_self]
  cases w <;> cases w' <;> cases hr : (s.pipe id).readopen <;> cases hw : (s.pipe id).writeopen <;>
    simp [Pipe.open_, hr, hw]

theorem pipeclose_frees (s : State P nfile nofile) (id : ℕ) (w : Bool) :
    ((s.pipeclose id w).pipe id).frees = (s.pipe id).frees +
    if (s.pipe id).open_ (!w) = true then 0 else 1 := by
  simp only [State.pipeclose, update_self]
  cases w <;> cases hr : (s.pipe id).readopen <;> cases hw : (s.pipe id).writeopen <;>
    simp [Pipe.open_, hr, hw]

variable [Fintype P] {s s' : State P nfile nofile} {p : P}

/-- An end that is being closed is open. -/
theorem Pipes.open_of_shutting (h : Pipes s) (hp : 0 < shutting id w (s.todo p)) :
    (s.pipe id).open_ w = true ∧ id < s.npipe := by
  have hfiles : 0 ≤ ∑ f, Files.ends id w (s.file f) := Finset.sum_nonneg fun f _ => ends_nonneg ..
  have hle : shutting id w (s.todo p) ≤ ∑ q, shutting id w (s.todo q) :=
    Finset.single_le_sum (fun q _ => shutting_nonneg id w (s.todo q)) (Finset.mem_univ p)
  have hopen : (s.pipe id).open_ w = true := by
    by_contra hclosed
    have := h.ends id w
    rw [if_neg hclosed] at this
    omega
  refine ⟨hopen, lt_of_not_ge fun hid => ?_⟩
  rw [h.old id hid] at hopen
  cases w <;> cases hopen

/-- The two files that `pipealloc` has taken. -/
theorem Refs.pipePage_files (h : Refs s) (htodo : s.todo p = [.pipePage f0 f1]) :
    f0 ≠ f1 ∧ (s.file f0).type = .FD_NONE ∧ (s.file f1).type = .FD_NONE := by
  have hnews : ∀ g, news s p g = (if f0 = g then 1 else 0) + if f1 = g then 1 else 0 := fun g => by
    simp [news, htodo, Op.news]
  have h0 := h.fresh p f0 (by rw [hnews]; grind)
  have h1 := h.fresh p f1 (by rw [hnews]; grind)
  refine ⟨?_, h0.2, h1.2⟩
  rintro rfl
  -- one reference cannot stand for both
  have hle := (h.news_le p f0).trans (h.own_le p f0)
  rw [hnews, h0.1] at hle
  simp at hle

variable [DecidableEq P] {memory : Bool} {op : Op P nfile nofile} {l l' rest : List (Op P nfile nofile)}

theorem Pipes.set (h : Pipes s) (htodo : s.todo p = l) (g : Fin nfile) (x : File)
    (hends : ∀ id w, Files.ends id w x - Files.ends id w (s.file g) + shutting id w l' =
      shutting id w l) :
    Pipes ((s.setFile g x).will p l') := by
  refine ⟨fun id w => ?_, h.frees, h.old⟩
  have h0 := h.ends id w
  have h1 := hends id w
  show ∑ f, Files.ends id w (update s.file g x f) + ∑ q, shutting id w (update s.todo p l' q) =
    if (s.pipe id).open_ w = true then 1 else 0
  rw [sum_update (Files.ends id w), sum_update (shutting id w), htodo]
  omega

theorem Pipes.skip (h : Pipes s) (hfile : s'.file = s.file) (hpipe : s'.pipe = s.pipe)
    (hnpipe : s'.npipe = s.npipe) (htodo : s.todo p = l) (htodo' : s'.todo = update s.todo p l')
    (hends : ∀ id w, shutting id w l' = shutting id w l) : Pipes s' := by
  refine ⟨fun id w => ?_, fun id => ?_, fun id hid => ?_⟩
  · have h0 := h.ends id w
    have h1 := hends id w
    rw [hfile, htodo', sum_update (shutting id w), htodo, hpipe]
    omega
  · rw [hpipe, hnpipe]
    exact h.frees id
  · rw [hpipe]
    exact h.old id (hnpipe ▸ hid)

theorem pipes_fileclose {f : Fin nfile} (h : Pipes s) (htodo : s.todo p = l)
    (hends : ∀ id w, shutting id w rest = shutting id w l) (hs : s.fileclose p f rest = .next s') :
    Pipes s' := by
  rw [State.fileclose] at hs
  split at hs
  · cases hs
  · split at hs <;> cases hs
    · refine h.set htodo f _ fun id w => ?_
      rw [hends]
      simp [ends]
    · refine h.set htodo f _ fun id w => ?_
      rw [← hends]
      split_ifs with hpipe
      · simp [ends, hpipe, Op.shuts]
      · simp [ends, hpipe]

theorem pipes_pipeclose (h : Pipes s) (htodo : s.todo p = .pipeclose id w :: rest) :
    Pipes ((s.pipeclose id w).will p rest) := by
  have hpos : 0 < shutting id w (s.todo p) := by
    have := shutting_nonneg id w rest
    rw [htodo, shutting_cons, Op.shuts]
    simp
    omega
  obtain ⟨hopen, hlt⟩ := h.open_of_shutting hpos
  refine ⟨fun id' w' => ?_, fun id' => ?_, fun id' hid => ?_⟩
  · have h0 := h.ends id' w'
    show ∑ f, Files.ends id' w' (s.file f) + ∑ q, shutting id' w' (update s.todo p rest q) =
      if ((s.pipeclose id w).pipe id').open_ w' = true then 1 else 0
    rw [sum_update (shutting id' w'), htodo, shutting_cons, Op.shuts]
    by_cases hid : id' = id
    · subst hid
      rw [pipeclose_open]
      by_cases hw : w' = w
      · subst hw
        rw [if_pos hopen] at h0
        simp
        omega
      · rw [if_neg hw]
        simp [Ne.symm hw]
        omega
    · rw [pipeclose_pipe s id w id' hid]
      simp [Ne.symm hid]
      omega
  · show ((s.pipeclose id w).pipe id').frees =
      if id' < s.npipe ∧ ((s.pipeclose id w).pipe id').readopen = false ∧
      ((s.pipeclose id w).pipe id').writeopen = false then 1 else 0
    by_cases hid : id' = id
    · subst hid
      have hr := pipeclose_open s id' w false
      have hw := pipeclose_open s id' w true
      have hf := h.frees id'
      rw [pipeclose_frees]
      cases w <;> simp_all [Pipe.open_] <;> grind
    · rw [pipeclose_pipe s id w id' hid]
      exact h.frees id'
  · have hne : id' ≠ id := by
      rintro rfl
      exact absurd hid (not_le.mpr hlt)
    show (s.pipeclose id w).pipe id' = _
    rw [pipeclose_pipe s id w id' hne]
    exact h.old id' hid

theorem pipes_pipePage (h : Pipes s) (htodo : s.todo p = [.pipePage f0 f1])
    (hne : f0 ≠ f1) (h0 : (s.file f0).type = .FD_NONE) (h1 : (s.file f1).type = .FD_NONE) :
    Pipes ((s.setPipe f0 f1).will p [.pipeFd0 f0 f1]) := by
  have hpipe : ∀ id, ((s.setPipe f0 f1).will p [.pipeFd0 f0 f1]).pipe id =
      if id = s.npipe then ⟨true, true, 0⟩ else s.pipe id := fun id => Function.update_apply ..
  have hnpipe : ((s.setPipe f0 f1).will p [.pipeFd0 f0 f1]).npipe = s.npipe + 1 := rfl
  refine ⟨fun id w => ?_, fun id => ?_, fun id hid => ?_⟩
  · have hsum := h.ends id w
    have hold := h.old id
    show ∑ f, Files.ends id w (update (update s.file f0 _) f1 _ f) +
      ∑ q, shutting id w (update s.todo p [.pipeFd0 f0 f1] q) = _
    rw [sum_update (Files.ends id w), sum_update (Files.ends id w), sum_update (shutting id w),
      htodo, hpipe]
    simp only [update_of_ne hne.symm, Files.ends, h0, h1, shutting_cons, shutting_nil, Op.shuts]
    simp only [Files.ends] at hsum
    by_cases hid : id = s.npipe
    · subst hid
      rw [hold le_rfl] at hsum
      cases w <;> simp_all [Pipe.open_] <;> omega
    · simp_all [Ne.symm hid]
  · rw [hpipe, hnpipe]
    have := h.frees id
    grind
  · rw [hpipe]
    have := h.old id
    grind

theorem pipes_exec (hrefs : Refs s) (h : Pipes s) (htodo : s.todo p = op :: rest)
    (hs : exec s p memory rest op = .next s') : Pipes s' := by
  cases op with
  | filedup f =>
    rw [exec] at hs
    split at hs <;> cases hs
    exact h.set htodo f _ fun id w => by simp [ends, Op.shuts]
  | fileclose f => exact pipes_fileclose h htodo (fun id w => by simp [Op.shuts]) hs
  | pipeclose id w =>
    cases hs
    exact pipes_pipeclose h htodo
  | openFd f r w =>
    rw [exec] at hs
    split at hs <;> cases hs
    · exact h.skip rfl rfl rfl htodo rfl fun id w => by simp [Op.shuts]
    · exact h.skip rfl rfl rfl htodo rfl fun id w => by simp [Op.shuts]
  | openSet f r w =>
    have htype := (hrefs.fresh p f ?_).2
    · cases hs
      exact h.set htodo f _ fun id w => by simp [ends, Op.shuts, htype]
    · obtain ⟨rfl, -⟩ := hrefs.fits_todo htodo
      simp [news, htodo, Op.news]
  | pipeFile f0 =>
    rw [exec] at hs
    split at hs <;> cases hs
    · exact h.skip rfl rfl rfl htodo rfl fun id w => by simp [Op.shuts]
    · exact h.set htodo _ _ fun id w => by simp [ends, Op.shuts]
  | pipePage f0 f1 =>
    obtain rfl : rest = [] := hrefs.fits_todo htodo
    rw [exec] at hs
    split at hs <;> cases hs
    · obtain ⟨hne, h0, h1⟩ := hrefs.pipePage_files htodo
      exact pipes_pipePage h htodo hne h0 h1
    · exact h.skip rfl rfl rfl htodo rfl fun id w => by simp [Op.shuts]
  | pipeFd0 rf wf | pipeFd1 fd0 rf wf =>
    rw [exec] at hs
    split at hs <;> cases hs
    · exact h.skip rfl rfl rfl htodo rfl fun id w => by simp [Op.shuts]
    · exact h.skip rfl rfl rfl htodo rfl fun id w => by simp [Op.shuts]
  | copyFd np fd =>
    rw [exec] at hs
    split at hs
    · cases hs
      exact h.skip rfl rfl rfl htodo rfl fun id w => by simp [Op.shuts]
    · split at hs <;> cases hs
      exact h.set htodo _ _ fun id w => by simp [ends, Op.shuts]
  | giveFd | runChild | clearFd | zombie =>
    cases hs
    exact h.skip rfl rfl rfl htodo rfl fun id w => by simp [Op.shuts]
  | exitFd fd =>
    rw [exec] at hs
    split at hs
    · cases hs
      exact h.skip rfl rfl rfl htodo rfl fun id w => by simp [Op.shuts]
    · exact pipes_fileclose h htodo (fun id w => by simp [Op.shuts]) hs

end

end Xv6.Files
