/-
# Who a process is, and who may change the accounts

The kernel tells processes apart by the 16 bytes of `p->id`. A process gets them
when it is made, by `fork` from its parent or by `fork2` from an argument, and keeps
them. `fork2` takes any name from anyone: whether a new identity was authenticated
is up to the program that calls it (login.c). Only where root alone calls `fork2` for other
names than the caller's does nobody come by an identity that its maker neither had nor
authenticated (`legit_of_reach`).

The names and passwords of `utable` and the inode behind it change only in `addUser`
and `deleteUser`, which root alone can make, and in `usysinit`, which anyone can
(`accounts_of_reach`).
-/
import Xv6.Transactions

namespace Xv6

open Prog
open Function (update_of_ne)

/-- The names, the passwords and `utable.ip` are the same. -/
structure SameAccounts (K K' : Kernel) : Prop where
  user : K'.utable.user = K.utable.user
  ip : K'.utableIp = K.utableIp

/-- Nothing has happened to the identities of the processes since `K₀`, nor to the
accounts. -/
structure Quiet (K₀ K : Kernel) : Prop where
  proc : ∀ q, (K.proc q).state = (K₀.proc q).state ∧ (K.proc q).id = (K₀.proc q).id
  accounts : SameAccounts K₀ K

section

variable {sb : Superblock} {K₀ K : Kernel} {p np : Fin NPROC} {f : Fin NFILE} {α : Type}
  {K' : Kernel} {call : Call} {t : Turn}

theorem Quiet.refl (K : Kernel) : Quiet K K := ⟨fun _ => ⟨rfl, rfl⟩, ⟨rfl, rfl⟩⟩

theorem SameAccounts.trans {K1 : Kernel} (h : SameAccounts K₀ K1) (h' : SameAccounts K1 K) :
    SameAccounts K₀ K := ⟨h'.user.trans h.user, h'.ip.trans h.ip⟩

theorem quiet_onFs {x : FsM α} : Keeps (Quiet K₀) (onFs x) Any := fun _ h =>
  .zoom (Sat.any.post fun _ _ _ => ⟨h.proc, h.accounts.user, h.accounts.ip⟩)

theorem quiet_modFile {g : File → File} : Keeps (Quiet K₀) (modFile f g) Any := fun _ h =>
  .modify ⟨h.proc, h.accounts.user, h.accounts.ip⟩

theorem quiet_modProc {g : Proc → Proc} (hg : ∀ x, (g x).state = x.state ∧ (g x).id = x.id) :
    Keeps (Quiet K₀) (modProc p g) Any := fun K h => by
  refine .modify ⟨fun q => ?_, h.accounts.user, h.accounts.ip⟩
  by_cases hq : q = p
  · subst hq
    simp only [Function.update_self]
    exact ⟨(hg _).1.trans (h.proc q).1, (hg _).2.trans (h.proc q).2⟩
  · simp only [update_of_ne hq]
    exact h.proc q

theorem quiet_deref (ip : Option Slot) : Keeps (Quiet K₀) (deref ip) Any :=
  keeps_deref (fun _ _ => trivial) ip

theorem quiet_caller : Keeps (Quiet K₀) (caller p) Any := keeps_caller fun _ _ => trivial

/-! ### Files -/

theorem quiet_filealloc : Keeps (Quiet K₀) filealloc Any := by
  refine Keeps.get.bind fun K => ?_
  split
  · exact .ret
  · exact quiet_modFile.bind fun _ => .ret

theorem quiet_filedup : Keeps (Quiet K₀) (filedup f) Any :=
  Keeps.get.bind fun _ => .ite (fun _ => .stop trivial) fun _ => quiet_modFile

theorem quiet_fileclose : Keeps (Quiet K₀) (fileclose sb f) Any := by
  refine Keeps.get.bind fun K => .ite (fun _ => .stop trivial) fun _ =>
    .ite (fun _ => quiet_modFile) fun _ => ?_
  exact quiet_modFile.bind fun _ => Keeps.when fun _ => (quiet_deref _).bind fun _ => quiet_onFs

theorem quiet_calls (sb : Superblock) (K₀ : Kernel) : FileCalls sb (Quiet K₀) Any where
  stops := fun _ _ => trivial
  modProc := fun hg => quiet_modProc fun x => ⟨(hg x).2.1, (hg x).2.2.2⟩
  setOff := fun _ _ => quiet_modFile
  filedup := fun _ => quiet_filedup
  fileclose := fun _ => quiet_fileclose
  readInOp := fun _ _ _ => quiet_onFs
  filewrite := fun _ => keeps_filewrite (fun _ _ => trivial) (fun _ => quiet_modFile) fun _ _ _ =>
    quiet_onFs
  stat := fun _ => quiet_onFs
  pipealloc := keeps_pipealloc quiet_filealloc (fun _ _ => quiet_modFile) fun _ => quiet_fileclose

theorem quiet_sysOpen (path : Option Str) (omode : Option UInt32) :
    Keeps (Quiet K₀) (sysOpen sb p path omode) Any := by
  match path, omode with
  | none, _ => exact .ret
  | some _, none => exact .ret
  | some path, some omode =>
    refine quiet_caller.bind fun who => quiet_onFs.bind fun r => ?_
    cases r with
    | none => exact .ret
    | some ip =>
      refine quiet_filealloc.bind fun f => ?_
      cases f with
      | none => exact quiet_onFs
      | some f =>
        refine (quiet_calls sb K₀).fdalloc.bind fun fd => ?_
        cases fd with
        | none => exact quiet_fileclose.bind fun _ => quiet_onFs
        | some fd => exact quiet_onFs.bind fun _ => quiet_modFile.bind fun _ => .ret

theorem quiet_sysChdir (path : Option Str) : Keeps (Quiet K₀) (sysChdir sb p path) Any := by
  refine quiet_caller.bind fun who => quiet_onFs.bind fun _ => ?_
  cases path with
  | none => exact quiet_onFs
  | some path =>
    refine quiet_onFs.bind fun r => ?_
    cases r with
    | none => exact .ret
    | some ip =>
      refine Triple.bind (quiet_modProc ?_) fun _ => .ret
      exact fun _ => ⟨rfl, rfl⟩

theorem quiet_asCaller {x : Caller → FsM ℤ} : Keeps (Quiet K₀) (asCaller p x) Any :=
  quiet_caller.bind fun _ => quiet_onFs

/-! ### Processes -/

theorem quiet_dupFiles : ∀ fds : List (Fin NOFILE), Keeps (Quiet K₀) (dupFiles p np fds) Any :=
  keeps_dupFiles (fun _ => quiet_filedup) fun _ _ => quiet_modProc fun _ => ⟨rfl, rfl⟩

theorem quiet_accountcheck (id pw : Str) : Keeps (Quiet K₀) (accountcheck id pw) Any := fun K h => by
  rw [accountcheck]
  refine .get_bind ?_
  split
  · exact .pure h
  · rename_i t ht
    refine .modify_bind (.pure ⟨h.proc, ?_, h.accounts.ip⟩)
    exact (UTable.accountcheck_user ht).trans h.accounts.user

/-- The processes that are there in `K` were there in `K₀`, under the same ids. -/
def NoNew (K₀ K : Kernel) : Prop :=
  ∀ q, (K.proc q).state ≠ .unused → (K₀.proc q).state ≠ .unused ∧ (K.proc q).id = (K₀.proc q).id

theorem Quiet.noNew (h : Quiet K₀ K) : NoNew K₀ K := fun q hq => by
  rw [(h.proc q).1] at hq
  exact ⟨hq, (h.proc q).2⟩

theorem noNew_of_others {q : Fin NPROC} (hq : (K.proc q).state = .unused)
    (ho : ∀ q', q' ≠ q → K.proc q' = K₀.proc q') : NoNew K₀ K := by
  intro q' hlive
  have hne : q' ≠ q := fun h => hlive (h ▸ hq)
  rw [ho q' hne] at hlive ⊢
  exact ⟨hlive, rfl⟩

/-- What `allocproc` returns, and that it touches no other process. -/
def Allocated (K K' : Kernel) : Option (Fin NPROC) → Prop
  | none => NoNew K K'
  | some np => ∀ q, q ≠ np → K'.proc q = K.proc q

theorem allocproc_spec (kstack : Bool) :
    Sat (allocproc kstack) K (fun r K' => SameAccounts K K' ∧ Allocated K K' r) Any := by
  rw [allocproc]
  refine .get_bind ?_
  split
  · exact .pure ⟨⟨rfl, rfl⟩, (Quiet.refl K).noNew⟩
  · rename_i np hnp
    refine .modify_bind (.modify_bind (.pure ⟨⟨rfl, rfl⟩, ?_⟩))
    cases kstack with
    | true => exact fun q hq => by simp [update_of_ne hq]
    | false =>
      refine noNew_of_others (q := np) (by simp) fun q hq => ?_
      simp [update_of_ne hq]

/-- What `fork` or `fork2` does: every process was there before, or has this id. -/
structure ForkEffect (id : Str) (K K' : Kernel) : Prop where
  accounts : SameAccounts K K'
  made : ∀ q, (K'.proc q).state ≠ .unused →
    ((K.proc q).state ≠ .unused ∧ (K'.proc q).id = (K.proc q).id) ∨ (K'.proc q).id = Ident.ofStr id

theorem forkAs_spec (id : Str) (mem : ForkMem) :
    Sat (forkAs p id mem) K (fun _ => ForkEffect id K) Any := by
  refine (allocproc_spec _).bind fun r K1 ⟨hacc, halloc⟩ => ?_
  cases r with
  | none => exact .pure ⟨hacc, fun q hq => .inl (halloc q hq)⟩
  | some np =>
    refine .ite (fun _ => ?_) fun _ => ?_
    · refine .modify_bind
        (.pure ⟨⟨hacc.user, hacc.ip⟩, fun q hq =>
          .inl (noNew_of_others (q := np) (by simp) (fun q hq => ?_) q hq)⟩)
      simp [update_of_ne hq, halloc q hq]
    · refine .modify_bind ((quiet_dupFiles _ _ (Quiet.refl _)).bind fun _ K3 h3 => .get_bind ?_)
      refine (quiet_deref _ _ h3).bind fun cwd K4 h4 => (quiet_onFs _ h4).bind fun cwd' K5 h5 => ?_
      refine .modify_bind
        (.get_bind (.pure ⟨hacc.trans ⟨h5.accounts.user, h5.accounts.ip⟩, fun q hq => ?_⟩))
      have h := h5.proc q
      by_cases hqn : q = np
      · subst hqn
        exact .inr (by simpa using h.2)
      · simp only [update_of_ne hqn, halloc q hqn] at h hq ⊢
        exact .inl ⟨h.1 ▸ hq, h.2⟩

@[simp] theorem adopted_state (x : Proc) : (adopted p x).state = x.state := by
  unfold adopted
  split <;> rfl

@[simp] theorem adopted_id (x : Proc) : (adopted p x).id = x.id := by
  unfold adopted
  split <;> rfl

theorem exit_spec (hlive : (K.proc p).state ≠ .unused) : Sat (exit sb p) K (fun _ K' =>
    SameAccounts K K' ∧ NoNew K K') Any := by
  refine .ite (fun _ => .stop trivial) fun _ => .modify_bind ?_
  refine ((quiet_calls sb _).closeFiles _ _ (Quiet.refl _)).bind fun _ K1 h1 => .get_bind ?_
  refine (quiet_deref _ _ h1).bind fun cwd K2 h2 => (quiet_onFs _ h2).bind fun _ K3 h3 => ?_
  refine .modify_bind (.modify_bind (.modify_bind (.pure ⟨⟨h3.accounts.user, h3.accounts.ip⟩, ?_⟩)))
  intro q hq
  have h := h3.proc q
  by_cases hqp : q = p
  · subst hqp
    refine ⟨hlive, ?_⟩
    simp only [ne_eq, not_true, and_false, if_false] at h
    simp [h.2]
  · simp only [update_of_ne hqp, adopted_state, adopted_id] at hq ⊢
    rw [h.1] at hq
    rw [h.2]
    by_cases hpid : (K.proc q).pid = (K.proc p).pid ∧ q ≠ p
    · simp only [if_pos hpid] at hq
      exact absurd rfl hq
    · simp only [if_neg hpid] at hq ⊢
      exact ⟨hq, trivial⟩

theorem wait_spec : Sat (wait p) K (fun _ K' => SameAccounts K K' ∧ NoNew K K') Any := by
  rw [wait]
  refine .get_bind ?_
  split
  · rename_i q hq
    refine .modify_bind (.pure ⟨⟨rfl, rfl⟩, noNew_of_others (q := q) (by simp [reaped]) fun q' hq' => ?_⟩)
    simp [update_of_ne hq']
  · exact .ite (fun _ => .pure ⟨⟨rfl, rfl⟩, (Quiet.refl K).noNew⟩) fun _ => .stop trivial

/-! ### The account calls -/

theorem accountsReady_spec (ip : Slot) (t : UTable) :
    Sat (accountsReady ip t) K (fun _ K' => K'.proc = K.proc) Any :=
  .modify_bind (.bind (Q := fun _ K' => K'.proc = K.proc) (.zoom (Sat.any.post fun _ _ _ => rfl))
    fun _ _ h => .pure h)

theorem usysinit_spec : Sat (usysinit sb p) K (fun _ K' => K'.proc = K.proc) Any := by
  refine .modify_bind (caller_bind trivial fun cwd _ => ?_)
  refine .bind (Q := fun _ K' => K'.proc = K.proc)
    (.zoom (Sat.any.post fun _ _ _ => rfl)) fun r K1 h1 => ?_
  cases r with
  | unreachable | unread => exact .pure h1
  | unwritten => exact .modify_bind (.pure h1)
  | made ip => exact (accountsReady_spec ip _).post fun _ _ h2 => h2.trans h1
  | read ip buf => exact (accountsReady_spec ip _).post fun _ _ h2 => h2.trans h1

/-- `addUser` and `deleteUser` are root's. -/
def RootOnly (p : Fin NPROC) (K K' : Kernel) : Prop :=
  K'.proc = K.proc ∧ (isRoot (K.proc p).id = false → SameAccounts K K')

theorem addUser_spec (username password : Str) :
    Sat (addUser sb p username password) K (fun _ => RootOnly p K) Any := by
  have hsame : RootOnly p K K := ⟨rfl, fun _ => ⟨rfl, rfl⟩⟩
  rw [addUser]
  refine .get_bind (.ite (fun _ => .pure hsame) fun hr => ?_)
  rw [Bool.not_eq_true, Bool.not_eq_false'] at hr
  split
  · exact .pure hsame
  · refine .modify_bind (caller_bind trivial fun cwd _ => ?_)
    refine .bind (Q := fun _ K' => K'.proc = K.proc)
      (.zoom (Sat.any.post fun _ _ _ => rfl)) fun _ K2 h2 => ?_
    cases K.utableIp with
    | none => exact .stop trivial
    | some ip => exact .zoom (Sat.any.post fun _ _ _ => ⟨h2, fun hn => by simp [hr] at hn⟩)

theorem deleteUser_spec (username : Str) :
    Sat (deleteUser sb p username) K (fun _ => RootOnly p K) Any := by
  have hsame : RootOnly p K K := ⟨rfl, fun _ => ⟨rfl, rfl⟩⟩
  rw [deleteUser]
  refine .get_bind (.ite (fun _ => .pure hsame) fun hr => ?_)
  rw [Bool.not_eq_true, Bool.not_eq_false'] at hr
  split
  · exact .pure hsame
  · refine .modify_bind (.bind (Q := fun _ K' => K'.proc = K.proc)
      (.zoom (Sat.any.post fun _ _ _ => rfl)) fun _ K2 h2 => ?_)
    cases K.utableIp with
    | none => exact .stop trivial
    | some ip => exact .zoom (Sat.any.post fun _ _ _ => ⟨h2, fun hn => by simp [hr] at hn⟩)

/-- What each call does to identities and accounts. -/
def Effect (p : Fin NPROC) (K K' : Kernel) : Call → Prop
  | .fork _ => ForkEffect (K.proc p).id.toList K K'
  | .fork2 (some u) _ => ForkEffect u K K'
  | .exit => SameAccounts K K' ∧ NoNew K K'
  | .wait => SameAccounts K K' ∧ NoNew K K'
  | .usysinit => K'.proc = K.proc
  | .addUser _ _ => RootOnly p K K'
  | .deleteUser _ => RootOnly p K K'
  | _ => Quiet K K'

theorem effect_syscall (hlive : (K.proc p).state ≠ .unused) (call : Call) :
    Sat (syscall sb p call) K (fun _ K' => Effect p K K' call) Any := by
  have h := Quiet.refl K
  have hroot : RootOnly p K K := ⟨rfl, fun _ => ⟨rfl, rfl⟩⟩
  match call with
  | .fork mem => exact .get_bind (forkAs_spec _ mem)
  | .fork2 none mem => exact .pure h
  | .fork2 (some u) mem => exact forkAs_spec u mem
  | .exit => exact exit_spec hlive
  | .wait => exact wait_spec
  | .pipe ptr kalloc => exact (quiet_calls sb K).sysPipe ptr kalloc K h
  | .read fd n ptr piperead => exact (quiet_calls sb K).sysRead fd n ptr piperead K h
  | .write fd src pipewrite => exact (quiet_calls sb K).sysWrite fd src pipewrite K h
  | .kill pid => exact (quiet_calls sb K).kill pid K h
  | .exec (some path) mem => exact quiet_asCaller K h
  | .exec none mem => exact .pure h
  | .fstat fd ptr => exact (quiet_calls sb K).sysFstat fd ptr K h
  | .chdir path => exact quiet_sysChdir path K h
  | .dup fd => exact (quiet_calls sb K).sysDup fd K h
  | .open path omode => exact quiet_sysOpen path omode K h
  | .mknod path major minor => exact quiet_asCaller K h
  | .unlink path => exact quiet_asCaller K h
  | .link old new => exact quiet_asCaller K h
  | .mkdir path => exact quiet_asCaller K h
  | .close fd => exact (quiet_calls sb K).sysClose fd K h
  | .usysinit => exact usysinit_spec
  | .addUser (some username) (some password) => exact addUser_spec username password
  | .addUser none _ => exact .pure hroot
  | .addUser (some _) none => exact .pure hroot
  | .deleteUser (some username) => exact deleteUser_spec username
  | .deleteUser none => exact .pure hroot
  | .accountcheck (some id) (some pw) => exact quiet_accountcheck id pw K h
  | .accountcheck none _ => exact .pure h
  | .accountcheck (some _) none => exact .pure h
  | .chmod (some path) (some mode) => exact quiet_asCaller K h
  | .chmod none _ => exact .pure h
  | .chmod (some _) none => exact .pure h
  | .plain call r => exact .pure h

/-! ### Identities along a run -/

/-- The process in this slot has had `accountcheck` succeed for the name `u`: the slot has not been
free since. -/
def Authenticated (log : List Turn) (p : Fin NPROC) (u : Str) : Prop :=
  ∃ pre t post, log = pre ++ t :: post ∧ t.move.p = p ∧ t.r = 0 ∧
    (∃ id pw, t.move.call = .accountcheck (some id) (some pw) ∧ cname 16 id = u) ∧
    ∀ t' ∈ post, (t'.after.proc p).state ≠ .unused

/-- Every process after the call was there before under the same id, or its name is
the caller's, or the caller is root or has authenticated for it. -/
def Legit (log : List Turn) (t : Turn) : Prop :=
  ∀ q, (t.after.proc q).state ≠ .unused →
    ((t.before.proc q).state ≠ .unused ∧ (t.after.proc q).id = (t.before.proc q).id) ∨
    (t.after.proc q).id.name = (t.before.proc t.move.p).id.name ∨
    isRoot (t.before.proc t.move.p).id ∨ Authenticated log t.move.p (t.after.proc q).id.name

/-- A `fork2` is by root, or for the caller's own name. -/
def Turn.Modest (t : Turn) : Prop :=
  match t.move.call with
  | .fork2 (some u) _ => isRoot (t.before.proc t.move.p).id = true ∨ cname 16 u =
      (t.before.proc t.move.p).id.name
  | _ => True

instance (t : Turn) : Decidable t.Modest := by
  unfold Turn.Modest
  split <;> infer_instance

theorem noNew_of_proc (h : K'.proc = K.proc) : NoNew K K' := fun q hq => by
  rw [h] at hq ⊢
  exact ⟨hq, rfl⟩

/-- Only `fork` and `fork2` make processes. -/
theorem Effect.cases (h : Effect p K K' call) :
    (∃ mem, call = .fork mem ∧ ForkEffect (K.proc p).id.toList K K') ∨
      (∃ u mem, call = .fork2 (some u) mem ∧ ForkEffect u K K') ∨ NoNew K K' := by
  cases call
  case fork mem => exact .inl ⟨mem, rfl, h⟩
  case fork2 u mem =>
    cases u with
    | none => exact .inr (.inr h.noNew)
    | some u => exact .inr (.inl ⟨u, mem, rfl, h⟩)
  case exit => exact .inr (.inr h.2)
  case wait => exact .inr (.inr h.2)
  case usysinit => exact .inr (.inr (noNew_of_proc h))
  case addUser => exact .inr (.inr (noNew_of_proc h.1))
  case deleteUser => exact .inr (.inr (noNew_of_proc h.1))
  all_goals exact .inr (.inr (Quiet.noNew h))

theorem effect_step (hs : Step sb t.before t.move t.r t.after) :
    Effect t.move.p t.before t.after t.move.call :=
  (effect_syscall (by rw [hs.live]; decide) t.move.call).of_ok hs.ret

theorem legit_step {log : List Turn} (hs : Step sb t.before t.move t.r t.after)
    (hm : t.Modest) : Legit log t := by
  have hmade : ∀ {u}, ForkEffect u t.before t.after →
      (cname 16 u = (t.before.proc t.move.p).id.name ∨ isRoot (t.before.proc t.move.p).id) →
        Legit log t := by
    intro u h hu q hq
    refine (h.made q hq).imp id fun hid => ?_
    rw [hid, Ident.name_ofStr]
    exact hu.imp id .inl
  obtain ⟨mem, hcall, hf⟩ | ⟨u, mem, hcall, hf⟩ | hno := (effect_step hs).cases
  · exact hmade hf (.inl rfl)
  · rw [Turn.Modest, hcall] at hm
    exact hmade hf hm.symm
  · exact fun q hq => .inl (hno q hq)

/-- **No process comes by an identity but by `fork2`.** Along any run in which `fork2` is called by
root, or for the caller's own name, every new process has its maker's name, or a maker that is root
or has authenticated for the name, and every other process keeps its id. -/
theorem legit_of_reach {log : List Turn} (h : Reach sb K₀ log K) (hm : ∀ t ∈ log, t.Modest) :
    ∀ pre t post, log = pre ++ t :: post → Legit pre t := by
  rintro pre t post rfl
  have ht : t ∈ pre ++ t :: post := List.mem_append_right _ List.mem_cons_self
  exact legit_step (h.turn ht) (hm t ht)

/-! ### Accounts -/

theorem Effect.accounts (h : Effect p K K' call)
    (hid : isRoot (K.proc p).id = false) (hcall : call ≠ .usysinit) : SameAccounts K K' := by
  cases call
  case fork mem => exact ForkEffect.accounts h
  case fork2 u mem =>
    cases u with
    | none => exact Quiet.accounts h
    | some u => exact ForkEffect.accounts h
  case exit => exact h.1
  case wait => exact h.1
  case usysinit => exact absurd rfl hcall
  case addUser => exact h.2 hid
  case deleteUser => exact h.2 hid
  all_goals exact Quiet.accounts h

/-- **Who is not root changes the accounts by `usysinit` only.** Along any run in which nobody else
calls `usysinit`, a call by a process that is not root leaves all names and passwords and the inode
behind the table as they were. -/
theorem accounts_of_reach {log : List Turn} (h : Reach sb K₀ log K)
    (hu : ∀ t ∈ log, t.move.call = .usysinit → isRoot (t.before.proc t.move.p).id = true) :
    ∀ t ∈ log, isRoot (t.before.proc t.move.p).id = false → SameAccounts t.before t.after := by
  intro t ht hid
  refine (effect_step (h.turn ht)).accounts hid fun hcall => ?_
  rw [hu t ht hcall] at hid
  cases hid

end

def bob : Str := [98, 111, 98]

/-- All memory is there. -/
def ForkMem.ok : ForkMem := ⟨true, true⟩

/-- Root makes a process for bob, and bob's process another one, and a directory. -/
def bobCalls : List Move :=
  [⟨0, .usysinit⟩, ⟨0, .fork2 (some bob) ForkMem.ok⟩, ⟨1, .fork2 (some bob) ForkMem.ok⟩,
    ⟨2, .mkdir (some [100])⟩]

set_option maxRecDepth 100000 in
theorem run_bobCalls : ∃ log K, Reach smallSb (boot (bareDisk 63) []) log K ∧ log.map Turn.move =
    bobCalls ∧ log.map Turn.r = [0, 2, 3, 0] ∧ (∀ t ∈ log, t.Modest) ∧
    (∀ t ∈ log, t.move.call = .usysinit → isRoot (t.before.proc t.move.p).id = true) ∧
    ∃ t ∈ log, t.move.p = 2 ∧ isRoot (t.before.proc t.move.p).id = false := by
  have hrun : (play smallSb (boot (bareDisk 63) []) bobCalls).map (fun x => (x.1.map Turn.r,
      (x.1.all fun t => decide t.Modest && (isRoot (t.before.proc t.move.p).id || decide (t.move.p ≠ 0))),
      x.1.any fun t => decide (t.move.p = 2) && !isRoot (t.before.proc t.move.p).id)) =
        some ([0, 2, 3, 0], true, true) := by
    decide +kernel
  obtain ⟨log, K, hr, hms, hobs⟩ := exists_reach hrun
  simp only [Prod.mk.injEq, List.all_eq_true, List.any_eq_true, Bool.and_eq_true, Bool.or_eq_true,
    decide_eq_true_eq,
    Bool.not_eq_true'] at hobs
  obtain ⟨hret, hall, hany⟩ := hobs
  refine ⟨log, K, hr, hms, hret, fun t ht => (hall t ht).1, fun t ht hcall =>
    (hall t ht).2.resolve_right fun hp => hp ?_, hany⟩
  have hmem := move_mem hms ht
  simp only [bobCalls, List.mem_cons, List.not_mem_nil, or_false] at hmem
  rcases hmem with hm | hm | hm | hm <;> rw [hm] at hcall ⊢ <;> cases hcall

theorem legit_bobCalls : ∃ log K, Reach smallSb (boot (bareDisk 63) []) log K ∧ log.map Turn.move =
    bobCalls ∧ log.map Turn.r = [0, 2, 3, 0] ∧ ∀ pre t post, log = pre ++ t :: post → Legit pre t := by
  obtain ⟨log, K, hr, hms, hret, hm, -⟩ := run_bobCalls
  exact ⟨log, K, hr, hms, hret, legit_of_reach hr hm⟩

theorem accounts_bobCalls : ∃ log K, Reach smallSb (boot (bareDisk 63) []) log K ∧
    log.map Turn.move = bobCalls ∧ ∃ t ∈ log, t.move.p = 2 ∧ SameAccounts t.before t.after := by
  obtain ⟨log, K, hr, hms, -, -, hu, t, ht, hp, hid⟩ := run_bobCalls
  exact ⟨log, K, hr, hms, t, ht, hp, accounts_of_reach hr hu t ht hid⟩

set_option maxRecDepth 100000 in
/-- Bob's process makes a process of root's, without any password. -/
theorem fork2_escalates : ∃ log K, Reach smallSb (boot (bareDisk 61) []) log K ∧
    log.map Turn.move = [⟨0, .fork2 (some bob) ForkMem.ok⟩, ⟨1, .fork2 (some root) ForkMem.ok⟩] ∧
    ¬∀ pre t post, log = pre ++ t :: post → Legit pre t := by
  have hrun : (play smallSb (boot (bareDisk 61) [])
      [⟨0, .fork2 (some bob) ForkMem.ok⟩, ⟨1, .fork2 (some root) ForkMem.ok⟩]).map
        (fun x => x.1.map fun t =>
        ((t.before.proc 2).state, (t.after.proc 2).state, (t.before.proc t.move.p).id.name,
          (t.after.proc 2).id.name)) =
      some [(.unused, .unused, root, []), (.unused, .runnable, bob, root)] := by
    decide +kernel
  obtain ⟨log, K, hr, hms, hobs⟩ := exists_reach hrun
  refine ⟨log, K, hr, hms, fun hl => ?_⟩
  obtain ⟨t1, _, rfl, hm1, hms⟩ := List.map_eq_cons_iff.mp hms
  obtain ⟨t2, _, rfl, hm2, hms⟩ := List.map_eq_cons_iff.mp hms
  obtain rfl := List.map_eq_nil_iff.mp hms
  simp only [List.map_cons, List.map_nil, List.cons.injEq, Prod.mk.injEq, and_true] at hobs
  obtain ⟨-, hfree, hlive, hby, hname⟩ := hobs
  obtain ⟨hold, -⟩ | hsame | hroot | ⟨pre, t, post, heq, -, -, ⟨id, pw, hcall, -⟩, -⟩ :=
    hl [t1] t2 [] rfl 2 (by rw [hlive]; decide)
  · exact hold hfree
  · rw [hname, hby] at hsame
    cases hsame
  · rw [isRoot, sameId_iff, hby] at hroot
    cases hroot
  · have ht : t ∈ [t1] := heq ▸ List.mem_append_right _ List.mem_cons_self
    rw [List.mem_singleton.mp ht, hm1] at hcall
    cases hcall

set_option maxRecDepth 100000 in
/-- Bob goes to a directory without `useraccount` and calls `usysinit`: the table is
rebuilt, with root's password back at "0000", and the file behind it is a new one. -/
theorem usysinit_resets : ∃ log K, Reach smallSb (boot (bareDisk 61) []) log K ∧
    log.map Turn.move = [⟨0, .usysinit⟩, ⟨0, .addUser (some bob) (some bob)⟩,
      ⟨0, .fork2 (some bob) ForkMem.ok⟩, ⟨1, .chdir (some bob)⟩, ⟨1, .usysinit⟩] ∧
    ∃ t ∈ log, isRoot (t.before.proc t.move.p).id = false ∧
      t.after.utable.user ≠ t.before.utable.user ∧ t.after.utableIp ≠ t.before.utableIp := by
  have hrun : (play smallSb (boot (bareDisk 61) []) [⟨0, .usysinit⟩, ⟨0, .addUser (some bob) (some bob)⟩,
      ⟨0, .fork2 (some bob) ForkMem.ok⟩, ⟨1, .chdir (some bob)⟩, ⟨1, .usysinit⟩]).map (fun x =>
        x.1.any fun t => !isRoot (t.before.proc t.move.p).id &&
          (decide (t.after.utable.user 1 ≠ t.before.utable.user 1) &&
            decide (t.after.utableIp ≠ t.before.utableIp))) = some true := by
    decide +kernel
  obtain ⟨log, K, hr, hms, hobs⟩ := exists_reach hrun
  obtain ⟨t, ht, hbad⟩ := List.any_eq_true.mp hobs
  simp only [Bool.and_eq_true, Bool.not_eq_true', decide_eq_true_eq] at hbad
  exact ⟨log, K, hr, hms, t, ht, hbad.1, fun h => hbad.2.1 (by rw [h]), hbad.2.2⟩

end Xv6
