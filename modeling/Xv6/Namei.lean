/-
# namei and nameiparent agree

Both are the loop of namex, which stops one name early for nameiparent. From every state, namei of a
path with names does what nameiparent and a search of the directory that it returns do: the same
steps, with the directory unlocked and locked again in between, so that the two return the same
inode and stop for the same reason (`namei_eq`). A path without names is its start for namei and
nothing for nameiparent. Either takes one reference, to the inode that it returns, and no other.

Where no inode without links is let go, giving the directory back frees nothing, and namei returns
an inode exactly if nameiparent returns a directory in which the last name leads to it
(`namei_agrees`).
-/
import Xv6.Search
import Xv6.Fs.Discipline

namespace Xv6

open Prog

section

variable (sb : Superblock)

/-- Look for the last name in the directory that `nameiparent` has returned, and give the directory
back. -/
def lookupLast : Option (Slot × Str) → FsM (Option (Slot × Str))
  | none => pure none
  | some (dp, name) => do
    ilock sb dp
    let r ← dirlookup sb dp name
    match r with
    | none => dropped sb dp
    | some (ip, _) => do
      iunlockput sb dp
      pure (some (ip, name))

end

section

variable {sb : Superblock} {s s' s₁ : Fs} {k dp : Slot} {who : Caller} {path name : Str}
  {r : Option Slot} {off : ℕ} {s2 s3 : Fs}

theorem ilock_leaves (h : ilock sb k s = .ok ((), s')) :
    (s'.icache k).lock = true ∧ (s'.icache k).valid = true ∧ 1 ≤ (s'.icache k).ref := by
  have hsat :
    Sat (ilock sb k) s (fun _ s' => (s'.icache k).lock = true ∧ (s'.icache k).valid = true ∧
      1 ≤ (s'.icache k).ref)
      Any := by
    refine .get_bind (.ite (fun _ => .stop trivial) fun href => ?_)
    refine .bind (Q := fun _ s' => s' = s.setInode k { s.icache k with lock := true }) ?_ ?_
    · exact .get_bind (.ite (fun _ => .stop trivial) fun _ => .modify rfl)
    · rintro _ _ rfl
      refine .ite (fun hv => .pure ?_) fun _ =>
        .get_bind (.modify_bind (.ite (fun _ => .stop trivial) fun _ => .pure ?_))
      · rw [Fs.setInode_self]
        exact ⟨rfl, hv, by simp only; omega⟩
      · rw [Fs.setInode_self, Fs.setInode_self]
        exact ⟨rfl, rfl, by simp only; omega⟩
  exact hsat.of_ok h

/-- To unlock and lock again changes nothing. -/
theorem relock {α : Type} (hl : (s.icache k).lock = true) (hv : (s.icache k).valid = true)
    (href : 1 ≤ (s.icache k).ref) (f : FsM α) : (do iunlock k; ilock sb k; f : FsM α) s = f s := by
  have h1 : Sat (iunlock k) s (fun _ s' => s' = s.setInode k { s.icache k with lock := false })
    fun _ => False := sat_iunlock href hl
  obtain ⟨_, s₁, hrun1, hs1⟩ := h1.exists_run
  have hk : s₁.icache k = { s.icache k with lock := false } := by rw [hs1, Fs.setInode_self]
  have h2 : Sat (ilock sb k) s₁ (fun _ s' => s' = s) fun _ => False := by
    refine .get_bind ?_
    rw [hk]
    refine .ite (fun hlt => ?_) fun _ => ?_
    · simp only at hlt
      omega
    · refine .bind (Q := fun _ s' => s' = s) ?_ ?_
      · refine .get_bind ?_
        rw [hk]
        refine .ite (fun hf => by simp at hf) fun _ => .modify ?_
        rw [hs1, Fs.setInode_self, Fs.setInode_setInode]
        simp only [← hl]
        simp [Fs.setInode]
      · rintro _ _ rfl
        exact .ite (fun _ => .pure rfl) fun hno => absurd hv hno
  obtain ⟨_, s2, hrun2, rfl⟩ := h2.exists_run
  rw [bind_run hrun1, bind_run hrun2]

/-- A branch that gives up does so whatever is to follow. -/
theorem dropped_bind (k : Slot) (s : Fs) :
    (dropped sb k >>= lookupLast sb) s = (dropped sb k : FsM (Option (Slot × Str))) s := by
  unfold dropped
  rw [bind_assoc_run]
  rfl

theorem namexFrom_end (parent : Bool) (fuel : ℕ) (k : Slot) (hend : components path = []) :
    namexFrom sb who parent fuel k path name = namexFrom.done sb parent k name := by
  cases fuel with
  | zero => rfl
  | succ fuel =>
    rcases components_skipelem path with ⟨hskip, -⟩ | ⟨next, rest, -, hcons, -, -⟩
    · rw [namexFrom, hskip]
    · rw [hend] at hcons
      cases hcons

/-- **The two loops.** With names to go, the loop of `namei` is the loop of `nameiparent` and the
search for the last name. -/
theorem namexFrom_eq (fuel : ℕ) (k : Slot) (path name : Str) (s : Fs) (hlen : path.length ≤ fuel)
    (hne : components path ≠ []) : namexFrom sb who false fuel k path name s =
    (namexFrom sb who true fuel k path name >>= lookupLast sb) s := by
  induction fuel generalizing k path name s with
  | zero =>
    rw [List.length_eq_zero_iff.mp (by omega : path.length = 0)] at hne
    exact absurd rfl hne
  | succ fuel ih =>
    rcases components_skipelem path with ⟨-, hnil⟩ | ⟨next, rest, hskip, -, hshort, hend⟩
    · exact absurd hnil hne
    · rw [namexFrom, namexFrom, hskip]
      simp only
      rw [bind_assoc_run]
      refine bind_congr fun _ s₁ hlock => ?_
      obtain ⟨hl, hv, href⟩ := ilock_leaves hlock
      rw [bind_assoc_run]
      refine bind_congr fun ip s2 hinode => ?_
      obtain rfl : s₁ = s2 := (Prod.mk.inj (Except.ok.inj hinode)).2
      by_cases hsearch : (!searchable who.id ip.d) = true
      · rw [if_pos hsearch, if_pos hsearch, dropped_bind]
      · rw [if_neg hsearch, if_neg hsearch]
        by_cases hdir : ip.d.type ≠ T_DIR
        · rw [if_pos hdir, if_pos hdir, dropped_bind]
        · rw [if_neg hdir, if_neg hdir, if_neg (by simp)]
          by_cases hlast : byte0 rest = 0
          · -- the last name: the directory is unlocked, and locked again for the search
            rw [if_pos ⟨trivial, hlast⟩, bind_assoc_run]
            change _ = (do iunlock k; lookupLast sb (some (k, next)) : FsM _) s₁
            unfold lookupLast
            simp only
            rw [relock hl hv href]
            refine bind_congr fun r s3 _ => ?_
            cases r with
            | none => rfl
            | some x =>
              simp only
              refine bind_congr fun _ s4 _ => ?_
              rw [namexFrom_end false fuel x.1 (hend.mp hlast)]
              rfl
          · rw [if_neg fun h => hlast h.2, bind_assoc_run]
            refine bind_congr fun r s3 _ => ?_
            cases r with
            | none =>
              simp only
              rw [dropped_bind]
            | some x =>
              simp only
              rw [bind_assoc_run]
              refine bind_congr fun _ s4 _ => ?_
              exact ih x.1 rest next s4 (by omega) fun h => hlast (hend.mpr h)

/-- **`namei` is `nameiparent` and a search for the last name**, from every state. -/
theorem namei_eq (hne : components path ≠ []) (s : Fs) : namei sb who path s =
    (do let r ← nameiparent sb who path; let r ← lookupLast sb r; pure (r.map Prod.fst) :
      FsM (Option Slot)) s := by
  unfold namei nameiparent namex
  rw [bind_assoc_run, bind_assoc_run]
  refine bind_congr fun k s₁ _ => ?_
  rw [← bind_assoc_run]
  have h : namexFrom sb who false path.length k path [] s₁ = _ :=
    namexFrom_eq path.length k path [] s₁ le_rfl hne
  rcases hrun : namexFrom sb who false path.length k path [] s₁ with e | ⟨r, s2⟩
  · rw [bind_stop hrun, bind_stop (h.symm.trans hrun)]
  · rw [bind_run hrun, bind_run (h.symm.trans hrun)]

/-- A path without names. -/
theorem namei_start (hend : components path = []) (s : Fs) :
    namei sb who path s = (do let k ← startInode who path; pure (some k) : FsM (Option Slot)) s ∧
    nameiparent sb who path s =
    (do let k ← startInode who path; iput sb k; pure none : FsM (Option (Slot × Str))) s := by
  unfold namei nameiparent namex
  rw [bind_assoc_run]
  constructor
  · refine bind_congr fun k s₁ _ => ?_
    rw [namexFrom_end false path.length k hend]
    rfl
  · refine bind_congr fun k s₁ _ => ?_
    rw [namexFrom_end true path.length k hend]
    rfl

/-! ### References -/

/-- The calls of the log since some time are well bracketed, and a transaction is open. -/
def InTransaction (s : Fs) : Prop := ∃ t w, s.trace = t ++ w ∧ bracket false w = some true

/-- From `s` to `s'` one reference has been taken, to the entry `r` if there is one. Entries in use
are for the same inodes. -/
structure OneMore (s s' : Fs) (r : Option Slot) : Prop where
  ref : ∀ j, (s'.icache j).ref = (s.icache j).ref + if r = some j then 1 else 0
  entry : ∀ j, 0 < (s.icache j).ref → ((s'.icache j).dev, (s'.icache j).inum) =
    ((s.icache j).dev, (s.icache j).inum)

/-- The entries that are locked. -/
def Fs.locks (s : Fs) : Multiset Slot := (Finset.univ.filter fun k => (s.icache k).lock = true).val

theorem disc_here (h : InTransaction s) : ∃ t, Disc { s.origin with trace := t } 0 s.locks true s := by
  obtain ⟨t, w, hw, hb⟩ := h
  refine ⟨t, fun k => ⟨?_, fun _ => rfl, ?_⟩, Finset.nodup _, w, hw, hb⟩
  · rw [Multiset.count_zero]
    exact (Int.add_zero _).symm
  · cases hl : (s.icache k).lock <;> simp [Fs.locks, hl]

theorem Disc.oneMore {t : List Event} {L : Multiset Slot}
    (h : Disc { s.origin with trace := t } (taken 0 r) L true s') : OneMore s s' r := by
  refine ⟨fun j => ?_, fun j hj => (h.slot j).name hj⟩
  rw [(h.slot j).ref]
  cases r with
  | none => simp [taken, Fs.origin]
  | some k =>
    by_cases hk : k = j
    · simp [taken, Fs.origin, hk]
    · simp [taken, Fs.origin, hk, Ne.symm hk]

theorem oneMore_namei (h : InTransaction s)
    (hrun : namei sb who path s = .ok (r, s')) : OneMore s s' r := by
  obtain ⟨t, hd⟩ := disc_here h
  exact (((disc_steps sb).namei trivial path _ hd).of_ok hrun).oneMore

theorem oneMore_nameiparent (h : InTransaction s) {r : Option (Slot × Str)}
    (hrun : nameiparent sb who path s = .ok (r, s')) : OneMore s s' (r.map Prod.fst) := by
  obtain ⟨t, hd⟩ := disc_here h
  have hd' := ((disc_steps sb).namex trivial path true _ hd).of_ok hrun
  refine Disc.oneMore (L := s.locks) (t := t) ?_
  cases r <;> exact hd'

/-! ### Returning -/

theorem dirlookup_dir {r : Option (Slot × ℕ)} (h : dirlookup sb dp name s = .ok (r, s')) :
    (s.icache dp).d.type = T_DIR := by
  have hsat : Sat (dirlookup sb dp name) s (fun _ _ => (s.icache dp).d.type = T_DIR) Any :=
    .get_bind (.ite (fun hdir => Sat.any.post fun _ _ _ => hdir) fun _ => .stop trivial)
  exact hsat.of_ok h

/-- What `namei` has done when it returns. -/
theorem of_namei (hne : components path ≠ []) (h : namei sb who path s = .ok (some k, s')) :
    ∃ dp name s₁ s2 off s3, nameiparent sb who path s = .ok (some (dp, name), s₁) ∧ ilock sb dp s₁ =
    .ok ((), s2) ∧
      (s2.icache dp).d.type = T_DIR ∧ dirlookup sb dp name s2 = .ok (some (k, off), s3) := by
  rw [namei_eq hne] at h
  obtain ⟨r, s₁, hparent, h⟩ := bind_ok h
  obtain ⟨q, s2, hlast, h⟩ := bind_ok h
  have hq : q.map Prod.fst = some k := (Prod.mk.inj (Except.ok.inj h)).1
  cases r with
  | none =>
    rw [← (Prod.mk.inj (Except.ok.inj hlast)).1] at hq
    cases hq
  | some x =>
    obtain ⟨dp, name⟩ := x
    obtain ⟨_, s2, hlock, hlast⟩ := bind_ok hlast
    obtain ⟨found, s3, hlook, hlast⟩ := bind_ok hlast
    cases found with
    | none =>
      obtain ⟨_, s4, -, hnone⟩ := bind_ok hlast
      rw [← (Prod.mk.inj (Except.ok.inj hnone)).1] at hq
      cases hq
    | some y =>
      obtain ⟨ip, off⟩ := y
      obtain ⟨_, s4, -, hsome⟩ := bind_ok hlast
      rw [← (Prod.mk.inj (Except.ok.inj hsome)).1] at hq
      obtain rfl := Option.some.inj hq
      exact ⟨dp, name, s₁, s2, off, s3, hparent, hlock, dirlookup_dir hlook, hlook⟩

/-- The steps of `namei`, if the directory can be given back. -/
theorem namei_of {s4 : Fs} (hne : components path ≠ [])
    (hparent : nameiparent sb who path s = .ok (some (dp, name), s₁))
    (hlock : ilock sb dp s₁ = .ok ((), s2))
    (hlook : dirlookup sb dp name s2 = .ok (some (k, off), s3))
    (hput : iunlockput sb dp s3 = .ok ((), s4)) : namei sb who path s = .ok (some k, s4) := by
  rw [namei_eq hne, bind_run hparent]
  unfold lookupLast
  rw [bind_assoc_run, bind_run hlock, bind_assoc_run, bind_run hlook]
  change ((iunlockput sb dp >>= _) >>= _) s3 = _
  rw [bind_assoc_run, bind_run hput]
  rfl

/-- A lock that `ilock` has got was free at the start of the walk. -/
theorem lock_free_of_ilock (h : InTransaction s)
    (hparent : nameiparent sb who path s = .ok (some (dp, name), s₁))
    (hlock : ilock sb dp s₁ = .ok ((), s2)) : (s.icache dp).lock = false := by
  obtain ⟨t, hd⟩ := disc_here h
  have hd1 := ((disc_steps sb).namex trivial path true _ hd).of_ok hparent
  have hfree : (s₁.icache dp).lock = false := by
    have hsat : Sat (ilock sb dp) s₁ (fun _ _ => (s₁.icache dp).lock = false) Any := by
      refine .get_bind (.ite (fun _ => .stop trivial) fun _ => ?_)
      refine .bind (Q := fun _ _ => (s₁.icache dp).lock = false) ?_ fun _ _ hf =>
        Sat.any.post fun _ _ _ => hf
      exact .get_bind (.ite (fun _ => .stop trivial) fun hl => .modify (by simpa using hl))
    exact hsat.of_ok hlock
  rw [(hd.slot dp).lock, ← (hd1.slot dp).lock, hfree]

variable {c : Ctx} {H : Multiset Handle} {N : List Fact} {q : Option (ℕ × Int16)}

/-- In a sound file system nothing is freed when the directory is given back. -/
theorem iunlockput_returns (htr : InTransaction s) (h : Ok sb c H N s) (hcwd : (who.cwd, q) ∈ H)
    (hkept : OrphansHeld sb s) (hparent : nameiparent sb who path s = .ok (some (dp, name), s₁))
    (hlock : ilock sb dp s₁ = .ok ((), s2))
    (hlook : dirlookup sb dp name s2 = .ok (some (k, off), s3)) :
    ∃ s4, iunlockput sb dp s3 = .ok ((), s4) := by
  obtain ⟨j, -, -, hw1⟩ :=
    (walk_namex (G := False) h.walking hkept (h.ref_pos hcwd) path true False.elim).of_ok hparent
  have hmem : (dp, j) ∈ (dp, j) ::ₘ (0 : Multiset (Slot × ℕ)) := Multiset.mem_cons_self _ _
  obtain ⟨-, hw2⟩ :=
    (walk_ilock (G := False) hw1 (hw1.ref_pos hmem) (hw1.inum_of_mem hmem) False.elim).of_ok hlock
  have hin : dp ∈ dp ::ₘ (0 : Multiset Slot) := Multiset.mem_cons_self _ _
  obtain ⟨-, i, -, -, hw3⟩ := (walk_dirlookup (G := False) hw2 hmem hin False.elim name).of_ok hlook
  rw [Multiset.cons_swap] at hw3
  have hsat := walk_iunlockput (G := True) (L := 0) hw3 hkept (Multiset.notMem_zero dp) fun _ =>
    lock_free_of_ilock htr hparent hlock
  rcases hrun : iunlockput sb dp s3 with e | ⟨_, s4⟩
  · exact absurd trivial (hsat.of_stop hrun)
  · exact ⟨s4, rfl⟩

/-- **`namei` and `nameiparent` agree.** -/
theorem namei_agrees (htr : InTransaction s) (path : Str) :
    (components path ≠ [] → namei sb who path s =
      (do let r ← nameiparent sb who path; let r ← lookupLast sb r; pure (r.map Prod.fst) :
        FsM (Option Slot)) s) ∧
    (components path ≠ [] → ∀ c H N q, Ok sb c H N s → (who.cwd, q) ∈ H → OrphansHeld sb s → ∀ k,
      (∃ s', namei sb who path s = .ok (some k, s')) ↔
        ∃ dp name s₁ s₂ off s₃, nameiparent sb who path s = .ok (some (dp, name), s₁) ∧
        ilock sb dp s₁ = .ok ((), s₂) ∧
          (s₂.icache dp).d.type = T_DIR ∧ dirlookup sb dp name s₂ = .ok (some (k, off), s₃)) ∧
    (components path = [] →
      namei sb who path s = (do let k ← startInode who path; pure (some k) : FsM (Option Slot)) s ∧
      nameiparent sb who path s =
      (do let k ← startInode who path; iput sb k; pure none : FsM (Option (Slot × Str))) s) ∧
    (∀ r s', namei sb who path s = .ok (r, s') → OneMore s s' r) ∧
    ∀ r s', nameiparent sb who path s = .ok (r, s') → OneMore s s' (r.map Prod.fst) := by
  refine ⟨fun hne => namei_eq hne s, fun hne c H N q h hcwd hkept k =>
    ⟨fun ⟨s', hrun⟩ => of_namei hne hrun, ?_⟩,
    fun hend => namei_start hend s, fun r s' => oneMore_namei htr, fun r s' => oneMore_nameiparent htr⟩
  rintro ⟨dp, name, s₁, s₂, off, s₃, hparent, hlock, -, hlook⟩
  obtain ⟨s4, hput⟩ := iunlockput_returns htr h hcwd hkept hparent hlock hlook
  exact ⟨s4, namei_of hne hparent hlock hlook hput⟩

end

set_option maxRecDepth 100000 in
/-- Root finds "." in the root directory, and has one reference more. -/
theorem namei_agrees_dot : ∃ s', namei smallSb ⟨Ident.ofStr root, 0⟩ dot
      { (boot (bareDisk 61) []).fs with outstanding := 1, trace := [.beginOp] } = .ok (some 0, s') ∧
    OneMore { (boot (bareDisk 61) []).fs with outstanding := 1, trace := [.beginOp] } s' (some 0) := by
  have hrun : (match namei smallSb ⟨Ident.ofStr root, 0⟩ dot
        { (boot (bareDisk 61) []).fs with outstanding := 1, trace := [.beginOp] } with
      | .ok (r, _) => decide (r = some 0)
      | .error _ => false) = true := by decide +kernel
  rcases hret : namei smallSb ⟨Ident.ofStr root, 0⟩ dot
      { (boot (bareDisk 61) []).fs with outstanding := 1, trace := [.beginOp] } with e | ⟨r, s'⟩
  · rw [hret] at hrun
    cases hrun
  · rw [hret] at hrun
    obtain rfl := of_decide_eq_true hrun
    exact ⟨s', rfl, (namei_agrees ⟨[], [.beginOp], rfl, rfl⟩ dot).2.2.2.1 _ s' hret⟩

end Xv6
