/-
# The calls on open files

What `dup`, `read`, `write`, `close`, `fstat`, `pipe` and `kill` keep, and the loop of `exit` that
closes the files. They take the tables of the kernel and the file system only through a few
functions, so whatever statement those functions keep (`FileCalls`), the calls keep.
-/
import Xv6.Kernel

namespace Xv6

open Prog

/-- The functions under the calls on files keep `I`. None but those that free blocks stops with
"freeing free block". -/
structure FileCalls (sb : Superblock) (I : Kernel → Prop) (E : Stop → Prop) : Prop where
  stops : ∀ e, e ≠ .panic "freeing free block" → E e
  modProc : ∀ {p} {g : Proc → Proc}, (∀ x, (g x).cwd = x.cwd ∧ (g x).state = x.state ∧
    (g x).pid = x.pid ∧ (g x).id = x.id) →
    Keeps I (modProc p g) E
  setOff : ∀ f n, Keeps I (modFile f fun x => { x with off := (x.off + n) % 2 ^ 32 }) E
  filedup : ∀ f, Keeps I (filedup f) E
  fileclose : ∀ f, Keeps I (fileclose sb f) E
  readInOp : ∀ k off n, Keeps I (onFs (readInOp sb k off n)) E
  filewrite : ∀ f src pipewrite, Keeps I (filewrite sb f src pipewrite) E
  stat : ∀ k, Keeps I (onFs (do ilock sb k; iunlock k)) E
  pipealloc : ∀ kalloc, Keeps I (pipealloc sb kalloc) E

section

variable {sb : Superblock} {I : Kernel → Prop} {E : Stop → Prop} {p np : Fin NPROC} {f : Fin NFILE}

theorem sat_deref (hE : E (.panic "ilock")) (ip : Option Slot) (K : Kernel) :
    Sat (deref ip) K (fun k K' => K' = K ∧ ip = some k) E := by
  cases ip with
  | none => exact .stop hE
  | some k => exact .pure ⟨rfl, rfl⟩

theorem caller_bind {α : Type} {y : Caller → KM α} {K : Kernel} {Q : α → Kernel → Prop}
    (hE : E (.panic "ilock")) (hy : ∀ cwd, (K.proc p).cwd = some cwd → Sat (y ⟨(K.proc p).id, cwd⟩)
      K Q E) : Sat (caller p >>= y) K Q E := by
  have hread : Sat (caller p) K (fun who K' => K' = K ∧ ∃ cwd, (K.proc p).cwd = some cwd ∧
    who = ⟨(K.proc p).id, cwd⟩) E :=
    .get_bind ((sat_deref hE _ K).read fun k hk => .pure ⟨rfl, k, hk, rfl⟩)
  exact hread.read fun _ ⟨cwd, hcwd, heq⟩ => heq ▸ hy cwd hcwd

section

variable (hE : ∀ e, e ≠ .panic "freeing free block" → E e)
include hE

theorem keeps_deref (ip : Option Slot) : Keeps I (deref ip) E :=
  fun K h => (sat_deref (hE _ (by simp)) ip K).post fun _ _ ⟨heq, _⟩ => heq ▸ h

theorem keeps_caller : Keeps I (caller p) E :=
  Keeps.get.bind fun _ => (keeps_deref hE _).bind fun _ => .ret

theorem keeps_filewriteFrom
    (hoff : ∀ n, Keeps I (modFile f fun x => { x with off := (x.off + n) % 2 ^ 32 }) E) {ip : Slot}
    (hwrite : ∀ src off, Keeps I (onFs (writeInOp sb ip src off)) E) :
    ∀ (fuel : ℕ) (src : Str), Keeps I (filewriteFrom sb f ip fuel src) E
  | 0, _ => .ret
  | fuel + 1, src => by
    refine .ite (fun _ => .ret) fun _ => Keeps.get.bind fun _ => (hwrite _ _).bind fun r => ?_
    cases r with
    | none => exact .ret
    | some r =>
      refine (hoff r).bind fun _ => .ite (fun _ => .stop (hE _ (by simp))) fun _ => ?_
      exact keeps_filewriteFrom hoff hwrite fuel _

/-- What one transaction of `filewrite` keeps, `filewrite` keeps. -/
theorem keeps_filewrite
    (hoff : ∀ n, Keeps I (modFile f fun x => { x with off := (x.off + n) % 2 ^ 32 }) E)
    (hwrite : ∀ k src off, Keeps I (onFs (writeInOp sb k src off)) E) (src : Str) (pipewrite : ℤ) :
    Keeps I (filewrite sb f src pipewrite) E := by
  refine Keeps.get.bind fun K => .ite (fun _ => .ret) fun _ => ?_
  cases (K.file f).type with
  | pipe => exact .ret
  | none => exact .stop (hE _ (by simp))
  | inode => exact (keeps_deref hE _).bind fun k =>
      (keeps_filewriteFrom hE hoff (hwrite k) _ _).bind fun _ => .ret

end

theorem keeps_pipealloc (halloc : Keeps I filealloc E) (hpiped : ∀ f w, Keeps I (modFile f (piped w)) E)
    (hclose : ∀ f, Keeps I (fileclose sb f) E) (kalloc : Bool) : Keeps I (pipealloc sb kalloc) E := by
  refine halloc.bind fun f0 => ?_
  cases f0 with
  | none => exact .ret
  | some f0 =>
    refine halloc.bind fun f1 => ?_
    cases f1 with
    | none => exact (hclose _).bind fun _ => .ret
    | some f1 =>
      refine .ite (fun _ => ?_) fun _ => ?_
      · exact (hpiped _ _).bind fun _ => (hpiped _ _).bind fun _ => .ret
      · exact (hclose _).bind fun _ => (hclose _).bind fun _ => .ret

theorem keeps_dupFiles (hdup : ∀ f, Keeps I (filedup f) E) (hset : ∀ fd x, Keeps I (setOfile np fd x) E) :
    ∀ fds : List (Fin NOFILE), Keeps I (dupFiles p np fds) E
  | [] => .ret
  | fd :: fds => by
    refine Keeps.get.bind fun _ => ?_
    split
    · exact keeps_dupFiles hdup hset fds
    · exact (hdup _).bind fun _ => (hset _ _).bind fun _ => keeps_dupFiles hdup hset fds

theorem keeps_argfd (fd : Option ℤ) : Keeps I (argfd p fd) E := by
  refine Keeps.get.bind fun _ => ?_
  cases fd with
  | none => exact .ret
  | some fd =>
    simp only
    split <;> exact .ret

namespace FileCalls

variable (h : FileCalls sb I E)

include h

theorem setOfile (fd : Fin NOFILE) (x : Option (Fin NFILE)) : Keeps I (setOfile p fd x) E :=
  h.modProc fun _ => ⟨rfl, rfl, rfl, rfl⟩

theorem fdalloc : Keeps I (fdalloc p f) E := by
  refine Keeps.get.bind fun _ => ?_
  split
  · exact .ret
  · exact (h.setOfile _ _).bind fun _ => .ret

theorem sysDup (fd : Option ℤ) : Keeps I (sysDup p fd) E := by
  refine (keeps_argfd fd).bind fun r => ?_
  match r with
  | none => exact .ret
  | some (_, f) =>
    refine h.fdalloc.bind fun fd => ?_
    cases fd with
    | none => exact .ret
    | some fd => exact (h.filedup f).bind fun _ => .ret

theorem fileread (n : ℕ) (piperead : ℤ) : Keeps I (fileread sb f n piperead) E := by
  refine Keeps.get.bind fun K => .ite (fun _ => .ret) fun _ => ?_
  cases (K.file f).type with
  | pipe => exact .ret
  | none => exact .stop (h.stops _ (by simp))
  | inode =>
    refine (keeps_deref h.stops _).bind fun ip => (h.readInOp _ _ _).bind fun r => ?_
    cases r with
    | none => exact .ret
    | some data => exact (h.setOff f data.length).bind fun _ => .ret

theorem sysRead (fd n : Option ℤ) (ptr : Bool) (piperead : ℤ) :
    Keeps I (sysRead sb p fd n ptr piperead) E := by
  refine (keeps_argfd fd).bind fun r => ?_
  split
  · exact .ite (fun _ => .ret) fun _ => h.fileread _ _
  · exact .ret

theorem sysWrite (fd : Option ℤ) (src : Option Str) (pipewrite : ℤ) :
    Keeps I (sysWrite sb p fd src pipewrite) E := by
  refine (keeps_argfd fd).bind fun r => ?_
  split
  · exact h.filewrite _ _ _
  · exact .ret

theorem sysClose (fd : Option ℤ) : Keeps I (sysClose sb p fd) E := by
  refine (keeps_argfd fd).bind fun r => ?_
  match r with
  | none => exact .ret
  | some (fd, f) => exact (h.setOfile _ _).bind fun _ => (h.fileclose f).bind fun _ => .ret

theorem sysFstat (fd : Option ℤ) (ptr : Bool) : Keeps I (sysFstat sb p fd ptr) E := by
  refine (keeps_argfd fd).bind fun r => ?_
  match r with
  | none => exact .ret
  | some (_, f) =>
    refine .ite (fun _ => .ret) fun _ => Keeps.get.bind fun _ => .ite (fun _ => ?_) fun _ => .ret
    exact (keeps_deref h.stops _).bind fun ip => (h.stat ip).bind fun _ => .ret

theorem closed (f f' : Fin NFILE) (r : ℤ) :
    Keeps I (do Xv6.fileclose sb f; Xv6.fileclose sb f'; pure r) E :=
  (h.fileclose f).bind fun _ => (h.fileclose f').bind fun _ => .ret

theorem sysPipe (ptr kalloc : Bool) : Keeps I (sysPipe sb p ptr kalloc) E := by
  refine .ite (fun _ => .ret) fun _ => (h.pipealloc kalloc).bind fun r => ?_
  match r with
  | none => exact .ret
  | some (rf, wf) =>
    refine h.fdalloc.bind fun fd0 => ?_
    cases fd0 with
    | none => exact h.closed rf wf _
    | some fd0 =>
      refine h.fdalloc.bind fun fd1 => ?_
      cases fd1 with
      | some _ => exact .ret
      | none => exact (h.setOfile _ _).bind fun _ => h.closed rf wf _

theorem closeFiles : ∀ fds : List (Fin NOFILE), Keeps I (closeFiles sb p fds) E
  | [] => .ret
  | fd :: fds => by
    refine Keeps.get.bind fun _ => ?_
    split
    · exact closeFiles fds
    · exact (h.fileclose _).bind fun _ => (h.setOfile _ _).bind fun _ => closeFiles fds

theorem kill (pid : Option Int32) : Keeps I (kill pid) E := by
  refine Keeps.get.bind fun _ => ?_
  cases pid with
  | none => exact .ret
  | some pid =>
    simp only
    split
    · exact .ret
    · refine Triple.bind (h.modProc ?_) fun _ => .ret
      exact fun _ => ⟨rfl, rfl, rfl, rfl⟩

end FileCalls

end

end Xv6
