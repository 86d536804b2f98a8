/-
# References of the account and permission calls

What `chmod`, `addUser`, `deleteUser` and `accountcheck` do to the reference counts of the
inode cache. `deleteUser` and `accountcheck` leave them alone. `chmod` never puts
the inode that `namei` gave it, and `addUser` puts neither the root directory nor
the entry it finds there if the new user's directory exists: each such call
leaves counts one higher than it found them.
-/
import Xv6.Home
import Xv6.Transactions

namespace Xv6

open Prog

/-- The reference counts are the same, and so are the inodes that were in use. -/
def Kept (s s' : Fs) : Prop :=
  ∀ k, (s'.icache k).ref = (s.icache k).ref ∧ (0 < (s.icache k).ref →
    ((s'.icache k).dev, (s'.icache k).inum) = ((s.icache k).dev, (s.icache k).inum))

/-- The permission and account calls. -/
def Call.onAccounts : Call → Bool
  | .chmod _ _ => true
  | .addUser _ _ => true
  | .deleteUser _ => true
  | .accountcheck _ _ => true
  | _ => false

/-- What the path names to process `p`, at the start of a call. -/
def resolved (sb : Superblock) (p : Fin NPROC) (K : Kernel) (path : Str) : Option Slot := do
  let cwd ← (K.proc p).cwd
  let (ip, _) ← ((do beginOp; namei sb ⟨(K.proc p).id, cwd⟩ path : FsM (Option Slot)) K.fs).toOption
  ip

/-- What an `addUser` that has stored the table `t` finds under the new user's name
in the root directory. -/
def homeOf (sb : Superblock) (p : Fin NPROC) (K : Kernel) (t : UTable) (username : Str) :
    Option Slot := do
  let cwd ← (K.proc p).cwd
  let ip ← K.utableIp
  let (r, _) ← ((do beginOp; findHome sb ⟨(K.proc p).id, cwd⟩ ip t.bytes username :
    FsM (Option (Slot × Option (Slot × ℕ)))) K.fs).toOption
  let (_, found) ← r
  let (home, _) ← found
  pure home

/-- The calls that leak a reference: a `chmod` of something that exists, and an
`addUser` of a new user who has a directory. -/
def Leaks (sb : Superblock) (p : Fin NPROC) : Call → Kernel → Prop
  | .chmod (some path) (some _), K => (resolved sb p K path).isSome
  | .addUser (some username) (some password), K => isRoot (K.proc p).id ∧
      ∃ t, K.utable.insert username password = some t ∧ (homeOf sb p K t username).isSome
  | _, _ => False

/-- Root adds a user there is room for, and the root directory has an entry of that name. -/
def Called (sb : Superblock) (p : Fin NPROC) (K : Kernel) (username password : Str) : Prop :=
  isRoot (K.proc p).id ∧ (K.utable.insert username password).isSome ∧
    entryNamed K.fs.disk (inoOf sb K.fs.disk ROOTINO) username ≠ none

section

variable {sb : Superblock} {p : Fin NPROC} {K : Kernel} {s s' : Fs} {k : Slot}
  {H L : Multiset Slot} {b : Bool}

theorem kept_of_disc (h : Disc s.origin 0 L b s') : Kept s s' := fun k =>
  ⟨by simpa [Fs.origin] using (h.slot k).ref, (h.slot k).name⟩

theorem not_kept_of_disc (h : Disc s.origin (k ::ₘ H) L b s') : ¬Kept s s' := by
  intro hk
  have h1 := (h.slot k).ref
  rw [(hk k).1, Multiset.count_cons_self] at h1
  simp only [Fs.origin] at h1
  push_cast at h1
  omega

theorem kept_chmod (hu : K.fs.Unlocked) (path : Str) (mode : UInt32) :
    Sat (asCaller p fun c => chmod sb c path mode) K (fun _ K' => Kept K.fs K'.fs ↔
      ¬(resolved sb p K path).isSome) Any := by
  refine caller_bind trivial fun cwd hcwd => ?_
  have hfind : Sat (do beginOp; namei sb ⟨(K.proc p).id, cwd⟩ path : FsM (Option Slot)) K.fs
      (fun r => Disc K.fs.origin (taken 0 r) 0 true) Any :=
    (disc_beginOp.bind fun _ => (disc_steps sb).namei trivial path) _ (disc_origin hu)
  refine .zoom (.assoc (hfind.run.bind fun r s1 h1 => ?_))
  have hres : resolved sb p K path = r := by
    simp [resolved, hcwd, h1.2, Except.toOption]
  rw [hres]
  cases r with
  | none => exact ((disc_steps sb).ended _ _ h1.1).post fun _ s2 h2 =>
      iff_of_true (kept_of_disc h2) (by simp)
  | some ip =>
    refine ((disc_steps sb).chmodInode (H := 0) mode _ h1.1).post fun _ s2 h2 => ?_
    exact iff_of_false (not_kept_of_disc h2) (by simp)

/-- In a sound state the search finds what the root directory has. -/
theorem found_home {username password : Str} {t : UTable} {who : Caller} {ip : Slot} {s1 s2 : Fs}
    {r : Option (Slot × Option (Slot × ℕ))} (hI : Intact sb K)
    (hs : Sane sb p K (.addUser (some username) (some password))) (hroot : isRoot (K.proc p).id = true)
    (ht : K.utable.insert username password = some t) (hip : K.utableIp = some ip)
    (h1 : beginOp K.fs = .ok ((), s1)) (h2 : findHome sb who ip t.bytes username s1 = .ok (r, s2)) :
    (r.bind Prod.snd).isSome ↔ entryNamed K.fs.disk (inoOf sb K.fs.disk ROOTINO) username ≠ none := by
  obtain ⟨A, h⟩ := hI.start ∅ ∅
  obtain ⟨hfile, root, hpos, hv, hnum⟩ := hs hroot (by simp [ht])
  obtain ⟨hcache, hdisk⟩ := run_beginOp.of_ok h1
  rw [← congrFun hcache root] at hpos hv hnum
  obtain ⟨H', h', hmem, -, -⟩ := ((ok_beginOp h.fs).of_ok h1).pin hpos hv
  rw [hnum] at hmem
  obtain ⟨x, rfl, -, -, hx⟩ :=
    (found_findHome h' hmem (by rw [hcache, hdisk]; exact hfile ip hip) _ _).of_ok h2
  rw [hdisk] at hx
  rw [Option.bind_some, ← Option.ne_none_iff_isSome, ne_eq, hx]

theorem kept_addUser (hu : K.fs.Unlocked) (username password : Str) :
    Sat (addUser sb p username password) K (fun _ K' => (Kept K.fs K'.fs ↔
      ¬Leaks sb p (.addUser (some username) (some password)) K) ∧
      (Intact sb K → Sane sb p K (.addUser (some username) (some password)) →
        (Leaks sb p (.addUser (some username) (some password)) K ↔
          Called sb p K username password))) Any := by
  have hsame : Kept K.fs K.fs := fun _ => ⟨rfl, fun _ => rfl⟩
  rw [addUser]
  refine .get_bind (.ite (fun hr => .pure ⟨iff_of_true hsame fun hl => ?_, fun _ _ => ?_⟩) fun hr => ?_)
  · simp [hl.1] at hr
  · simp_all [Leaks, Called]
  · rw [Bool.not_eq_true, Bool.not_eq_false'] at hr
    split
    · rename_i hins
      have hno : ¬Leaks sb p (.addUser (some username) (some password)) K := by simp [Leaks, hins]
      exact .pure ⟨iff_of_true hsame hno, fun _ _ => iff_of_false hno (by simp [Called, hins])⟩
    · rename_i t hins
      refine .modify_bind (caller_bind trivial fun cwd hcwd => ?_)
      have hleak : Leaks sb p (.addUser (some username) (some password)) K ↔
          (homeOf sb p K t username).isSome := by simp [Leaks, hr, hins]
      rw [hleak]
      cases hip : K.utableIp with
      | none => exact Sat.any.bind fun _ _ _ => .stop trivial
      | some ip =>
        refine .bind (Q := fun _ K' => Disc K.fs.origin 0 0 true K'.fs ∧ beginOp K.fs = .ok ((), K'.fs))
          (.zoom (disc_beginOp _ (disc_origin hu)).run) fun _ K1 h1 => .zoom ?_
        refine ((disc_steps sb).findHome trivial t.bytes username _ h1.1).run.bind fun r s2 h2 => ?_
        have hhome : homeOf sb p K t username = (r.bind Prod.snd).map Prod.fst := by
          have hcwd : (K.proc p).cwd = some cwd := hcwd
          have hrun := (bind_run (f := fun _ => findHome sb ⟨_, cwd⟩ ip t.bytes username) h1.2).trans h2.2
          simp only [homeOf, hcwd, hip, Option.bind_eq_bind, Option.bind_some, hrun, Except.toOption]
          rcases r with _ | ⟨dp, _ | found⟩ <;> rfl
        rw [hhome, Option.isSome_map]
        refine ((disc_steps sb).homeDone r username _ h2.1).post fun _ s3 h3 => ⟨?_, fun hI hs => ?_⟩
        · rcases r with _ | ⟨dp, _ | found⟩
          · exact iff_of_true (kept_of_disc h3) (by simp)
          · exact iff_of_true (kept_of_disc h3) (by simp)
          · exact iff_of_false (not_kept_of_disc (k := found.1) (H := {dp}) h3) (by simp)
        · rw [found_home hI hs hr hins hip h1.2 h2.2]
          simp [Called, hr, hins]

theorem kept_deleteUser (hu : K.fs.Unlocked) (username : Str) :
    Sat (deleteUser sb p username) K (fun _ K' => Kept K.fs K'.fs) Any := by
  have hsame : Kept K.fs K.fs := fun _ => ⟨rfl, fun _ => rfl⟩
  rw [deleteUser]
  refine .get_bind (.ite (fun _ => .pure hsame) fun _ => ?_)
  split
  · exact .pure hsame
  · refine .modify_bind (.bind (Q := fun _ K' => Disc K.fs.origin 0 0 true K'.fs)
      (.zoom (disc_beginOp _ (disc_origin hu))) fun _ K1 h1 => ?_)
    cases K.utableIp with
    | none => exact .stop trivial
    | some ip => exact .zoom (((disc_steps sb).deleteUserFs _ _ h1).post fun _ s2 h2 => kept_of_disc h2)

theorem kept_accountcheck (id pw : Str) :
    Sat (accountcheck id pw) K (fun _ K' => Kept K.fs K'.fs) Any := by
  rw [accountcheck]
  refine .get_bind ?_
  split
  · exact .pure fun _ => ⟨rfl, fun _ => rfl⟩
  · exact .modify_bind (.pure fun _ => ⟨rfl, fun _ => rfl⟩)

/-- **The account calls keep the references, but for two leaks.** From a state in which
no inode is locked, a call of `chmod`, `addUser`, `deleteUser` or `accountcheck` that
returns leaves the reference counts of all inodes as they were exactly if it is not
one of the two in `Leaks`. In a sound state `addUser` is one of them if the root directory has
an entry under the new user's name. -/
theorem kept_iff {call : Call} {r : ℤ} {K' : Kernel} (hu : K.fs.Unlocked)
    (hcall : call.onAccounts) (hrun : syscall sb p call K = .ok (r, K')) :
    (Kept K.fs K'.fs ↔ ¬Leaks sb p call K) ∧ ∀ username password, call = .addUser (some username)
    (some password) →
      Intact sb K → Sane sb p K call → (Leaks sb p call K ↔ Called sb p K username password) := by
  have hcalled : ∀ username password, call = .addUser (some username) (some password) → Intact sb K →
      Sane sb p K call → (Leaks sb p call K ↔ Called sb p K username password) := by
    rintro username password rfl
    exact ((kept_addUser hu username password).of_ok hrun).2
  refine ⟨?_, hcalled⟩
  have hfail : syscall sb p call K = .ok (-1, K) → ¬Leaks sb p call K →
      (Kept K.fs K'.fs ↔ ¬Leaks sb p call K) := by
    intro h hl
    cases h.symm.trans hrun
    exact iff_of_true (fun _ => ⟨rfl, fun _ => rfl⟩) hl
  match call with
  | .chmod (some path) (some mode) => exact (kept_chmod hu path mode).of_ok hrun
  | .addUser (some username) (some password) => exact ((kept_addUser hu username password).of_ok hrun).1
  | .deleteUser (some username) => exact iff_of_true ((kept_deleteUser hu username).of_ok hrun) id
  | .accountcheck (some id') (some pw) => exact iff_of_true ((kept_accountcheck id' pw).of_ok hrun) id
  | .chmod none _ => exact hfail rfl id
  | .chmod (some _) none => exact hfail rfl id
  | .addUser none _ => exact hfail rfl id
  | .addUser (some _) none => exact hfail rfl id
  | .deleteUser none => exact hfail rfl id
  | .accountcheck none _ => exact hfail rfl id
  | .accountcheck (some _) none => exact hfail rfl id

end

set_option maxRecDepth 100000 in
theorem kept_iff_chmod : ∃ r K', syscall smallSb 0 (.chmod (some [102]) (some 63))
    (boot (bareDisk 61) []) = .ok (r, K') ∧ (Kept (boot (bareDisk 61) []).fs K'.fs ↔
      ¬Leaks smallSb 0 (.chmod (some [102]) (some 63)) (boot (bareDisk 61) [])) := by
  have hrun : (syscall smallSb 0 (.chmod (some [102]) (some 63)) (boot (bareDisk 61) [])).toBool =
    true := by
    decide +kernel
  rcases h : syscall smallSb 0 (.chmod (some [102]) (some 63)) (boot (bareDisk 61) []) with e | ⟨r, K'⟩
  · rw [h] at hrun
    cases hrun
  · exact ⟨r, K', rfl, (kept_iff (boot_unlocked _ _) rfl h).1⟩

set_option maxRecDepth 100000 in
/-- One `chmod("/", ..)` takes the count of the root directory from 1 to 2. -/
theorem chmod_leaks : ∃ log K, Reach smallSb (boot (bareDisk 61) []) log K ∧
    log.map Turn.move = [⟨0, .chmod (some slash) (some 63)⟩] ∧ ¬Kept (boot (bareDisk 61) []).fs K.fs := by
  have hrun : (play smallSb (boot (bareDisk 61) []) [⟨0, .chmod (some slash) (some 63)⟩]).map
      (fun x => (x.2.fs.icache 0).ref) = some 2 := by
    decide +kernel
  obtain ⟨log, K, hr, hms, href⟩ := exists_reach hrun
  refine ⟨log, K, hr, hms, fun hk => ?_⟩
  have h1 := (hk 0).1
  rw [href] at h1
  cases h1

end Xv6
