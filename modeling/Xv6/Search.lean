/-
# Search permission

A path leads through directories, and each of them has to grant the caller execute permission. What
`namex` tests is `searchable`, which for a caller of the class "others" refuses only mode 0.

`Path` is where names lead, and through which directories, with no reference to `namex`.
`search_permission` says that `namex` gets to where the names lead if the directories grant it; and
if it gets anywhere, they have granted it, unless one of them is `Lax`: it has a mode, but not the
bit `MODE_XOTH`. A walk through such a directory succeeds (`searched_unreadable`).
-/
import Xv6.Blocks
import Xv6.Fs.Walk

namespace Xv6

open Prog

/-! ### Where names lead -/

section

variable (sb : Superblock) (D : Disk)

/-- The names lead from inode `i` to another, each looked up in the next of the directories. -/
inductive Path : ℕ → List Str → List ℕ → ℕ → Prop where
  | nil (i : ℕ) : Path i [] [] i
  | cons {i j l : ℕ} {name : Str} {names : List Str} {dirs : List ℕ} (hdir : (inoOf sb D i).type = T_DIR)
      (hname : entryNamed D (inoOf sb D i) name = some j) (hrest : Path j names dirs l) :
        Path i (name :: names) (i :: dirs) l

/-- What a walk from `i` is to return, and the directories that it is to search: the inode that the
names lead to; with `parent`, the directory to look the last name up in. -/
def Resolves (parent : Bool) (i : ℕ) (names : List Str) (dirs : List ℕ) (last : Str) (j : ℕ) : Prop :=
  if parent then ∃ init before, names = init ++ [last] ∧ dirs = before ++ [j] ∧ Path sb D i init before j ∧
    (inoOf sb D j).type = T_DIR
  else Path sb D i names dirs j

end

section

variable {sb : Superblock} {D : Disk} {i j l : ℕ} {names : List Str} {dirs dirs' : List ℕ}
    {last last' : Str} {parent : Bool}

theorem Path.det (h : Path sb D i names dirs j) (h' : Path sb D i names dirs' l) :
    dirs = dirs' ∧ j = l := by
  induction h generalizing dirs' with
  | nil i => cases h'; exact ⟨rfl, rfl⟩
  | cons hdir hname hrest ih =>
    cases h' with
    | cons _ hname' hrest' =>
      obtain rfl := Option.some.inj (hname.symm.trans hname')
      obtain ⟨rfl, rfl⟩ := ih hrest'
      exact ⟨rfl, rfl⟩

theorem Resolves.det (h : Resolves sb D parent i names dirs last j)
    (h' : Resolves sb D parent i names dirs' last' l) : dirs = dirs' := by
  cases parent with
  | false => exact (Path.det h h').1
  | true =>
    obtain ⟨init, before, rfl, rfl, hp, -⟩ := h
    obtain ⟨init', before', heq, rfl, hp', -⟩ := h'
    obtain ⟨rfl, -⟩ := List.append_inj' heq rfl
    obtain ⟨rfl, rfl⟩ := hp.det hp'
    rfl

variable {ok : Dinode → Bool}

theorem path_of_follow : ∀ {names : List Str} {i : ℕ}, follow sb ok D false i names = some j →
    ∃ dirs, Path sb D i names dirs j ∧ ∀ d ∈ dirs, ok (inoOf sb D d) = true
  | [], i, h => by
    obtain rfl : i = j := Option.some.inj h
    exact ⟨[], .nil i, by simp⟩
  | name :: names, i, h => by
    rw [follow] at h
    split at h
    · rename_i hok
      rw [if_neg (by simp)] at h
      obtain ⟨l, hl, hrest⟩ := Option.bind_eq_some_iff.mp h
      obtain ⟨dirs, hp, hdirs⟩ := path_of_follow hrest
      exact ⟨i :: dirs, .cons hok.2 hl hp, by simpa [hok.1] using hdirs⟩
    · cases h

theorem follow_of_path (h : Path sb D i names dirs j) (hok : ∀ d ∈ dirs, ok (inoOf sb D d) = true) :
    follow sb ok D false i names = some j := by
  induction h with
  | nil i => rfl
  | cons hdir hname hrest ih =>
    rw [follow, if_pos ⟨hok _ List.mem_cons_self, hdir⟩, if_neg (by simp), hname, Option.bind_some]
    exact ih fun d hd => hok d (List.mem_cons_of_mem _ hd)

/-- The parent is where all names but the last lead. -/
theorem follow_parent : ∀ (names : List Str) (i : ℕ), follow sb ok D true i (names ++ [last]) =
    (follow sb ok D false i names).filter fun j => ok (inoOf sb D j) ∧ (inoOf sb D j).type = T_DIR
  | [], i => by
    rw [List.nil_append, follow, follow]
    by_cases h : ok (inoOf sb D i) = true ∧ (inoOf sb D i).type = T_DIR
    · simp [h, Option.filter_some]
    · simp [h, Option.filter_some]
  | name :: names, i => by
    rw [List.cons_append, follow, follow]
    split
    · rw [if_neg (by simp), if_neg (by simp)]
      cases entryNamed D (inoOf sb D i) name with
      | none => rfl
      | some j => exact follow_parent names j
    · rfl

/-- What `follow` returns. -/
theorem follow_eq_some (hlast : parent = true → last = names.getLastD []) :
    follow sb ok D parent i names = some j ↔ ∃ dirs, Resolves sb D parent i names dirs last j ∧
    ∀ d ∈ dirs, ok (inoOf sb D d) = true := by
  cases parent with
  | false => exact ⟨path_of_follow, fun ⟨_, hp, hok⟩ => follow_of_path hp hok⟩
  | true =>
    rcases names.eq_nil_or_concat' with rfl | ⟨init, name, rfl⟩
    · constructor
      · intro h
        cases h
      · rintro ⟨_, ⟨init, _, hnil, -⟩, -⟩
        exact absurd hnil (by simp)
    · obtain rfl : last = name := by simpa using hlast rfl
      rw [follow_parent, Option.filter_eq_some_iff]
      constructor
      · rintro ⟨hf, hj⟩
        obtain ⟨hj, hdir⟩ := of_decide_eq_true hj
        obtain ⟨dirs, hp, hok⟩ := path_of_follow hf
        refine ⟨dirs ++ [j], ⟨init, dirs, rfl, rfl, hp, hdir⟩, fun d hd => ?_⟩
        rcases List.mem_append.mp hd with hd | hd
        · exact hok d hd
        · rwa [List.mem_singleton.mp hd]
      · rintro ⟨_, ⟨init', dirs, heq, rfl, hp, hdir⟩, hok⟩
        obtain rfl : init = init' := List.append_cancel_right heq
        have hj := hok j (List.mem_append_right _ (List.mem_singleton_self j))
        exact ⟨follow_of_path hp fun d hd => hok d (List.mem_append_left _ hd), decide_eq_true ⟨hj, hdir⟩⟩

theorem Resolves.last_eq (h : Resolves sb D parent i names dirs last j) (hp : parent = true) :
    last = names.getLastD [] := by
  subst hp
  obtain ⟨init, _, rfl, -⟩ := h
  simp

theorem Resolves.dir (h : Resolves sb D parent i names dirs last j) :
    ∀ d ∈ dirs, (inoOf sb D d).type = T_DIR := by
  have hpath : ∀ {i names dirs j}, Path sb D i names dirs j → ∀ d ∈ dirs, (inoOf sb D d).type =
    T_DIR := fun hp => by
    induction hp with
    | nil i => simp
    | cons hdir _ _ ih => simpa [hdir] using ih
  cases parent with
  | false => exact hpath h
  | true =>
    obtain ⟨init, before, -, rfl, hp, hdir⟩ := h
    simpa [or_imp, forall_and, hdir] using hpath hp

end

/-! ### The walk of the kernel -/

/-- The directory grants the caller execute permission. -/
def Executable (id : Ident) (d : Dinode) : Prop := grants id d MODE_XUSR MODE_XOTH = true

/-- The directory is not the caller's and does not grant others execute permission, but its mode is
not 0. -/
def Lax (id : Ident) (d : Dinode) : Prop := owns id d = false ∧ d.mode ≠ 0 ∧ d.mode &&& MODE_XOTH = 0

variable {id : Ident} {d : Dinode}

theorem Lax.not_executable (h : Lax id d) : ¬Executable id d := by
  simp [Executable, grants, h.1, h.2.2]

/-- What the test of `namex` lets the caller search. -/
theorem searchable_iff (hdir : d.type = T_DIR) :
    searchable id d = true ↔ Executable id d ∨ Lax id d := by
  have hdev : ¬d.type = T_DEV := by
    rw [hdir]
    decide
  unfold searchable Executable Lax grants
  rw [decide_eq_false hdev, Bool.false_or]
  cases owns id d with
  | true => simp
  | false =>
    by_cases hx : d.mode &&& MODE_XOTH = 0
    · simp [hx]
    · have hne : d.mode ≠ 0 := fun h0 => hx (by rw [h0]; simp)
      simp [hx, hne]

/-- The names lead somewhere through directories that `namex` lets the caller search, one of which
is lax. -/
def Slips (sb : Superblock) (D : Disk) (id : Ident) (parent : Bool) (i : ℕ) (names : List Str) : Prop :=
  ∃ dirs last j, Resolves sb D parent i names dirs last j ∧
    (∀ d ∈ dirs, Executable id (inoOf sb D d) ∨ Lax id (inoOf sb D d)) ∧ ∃ d ∈ dirs, Lax id (inoOf sb D d)

/-- The names lead to inode `j` through directories that grant the caller execute permission. -/
def Granted (sb : Superblock) (D : Disk) (id : Ident) (parent : Bool) (i : ℕ) (names : List Str)
    (last : Str) (j : ℕ) : Prop :=
  ∃ dirs, Resolves sb D parent i names dirs last j ∧ ∀ d ∈ dirs, Executable id (inoOf sb D d)

section

variable {sb : Superblock} {c : Ctx} {H : Multiset Handle} {N : List Fact} {s : Fs} {who : Caller}
    {q : Option (ℕ × Int16)}

/-- At the start nothing has been taken. -/
theorem Ok.walking (h : Ok sb c H N s) : Walking sb s 0 0 s where
  sound := h.disk
  nonneg := fun k => (Int.natCast_nonneg _).trans (h.refs k)
  disk := rfl
  frees := fun _ => rfl
  slot := h.slot
  uniq := h.uniq
  ref := fun _ => (Int.add_zero _).symm
  inum := fun _ _ => rfl
  pins := fun x hx => absurd hx (Multiset.notMem_zero x)
  locked := fun k hk => absurd hk (Multiset.notMem_zero k)
  lock := fun _ hl => .inl hl

/-- Where `follow` leads, a walk gets to. -/
theorem namex_of_follow (h : Ok sb c H N s) (hcwd : (who.cwd, q) ∈ H) (hkept : OrphansHeld sb s)
    (hready : Ready sb s 0) {path : Str} {parent : Bool} {j : ℕ}
    (hf : follow sb (searchable who.id) s.disk parent (startInum who path s) (components path) = some j) :
    ∃ k s', namex sb who path parent s = .ok (some (k, (components path).getLastD []), s') ∧
    (s'.icache k).inum = j := by
  have hspec := walk_namex (G := True) h.walking hkept (h.ref_pos hcwd) path parent fun _ =>
    ⟨hready, by rw [hf]; rfl⟩
  rcases hrun : namex sb who path parent s with e | ⟨r, s'⟩
  · exact absurd trivial (hspec.of_stop hrun)
  · have hr := hspec.of_ok hrun
    match r with
    | none =>
      rw [hr.1] at hf
      cases hf
    | some (k, last) =>
      obtain ⟨j', hj', rfl, hw⟩ := hr
      refine ⟨k, s', rfl, ?_⟩
      rw [hw.inum_of_mem (Multiset.mem_cons_self _ _)]
      exact Option.some.inj (hj'.symm.trans hf)

/-- **A walk gets to the inode that the names lead to if all directories on the way grant the caller
execute permission. If it gets anywhere, they have, exactly if it does not slip through a lax one.**
-/
theorem search_permission (h : Ok sb c H N s) (hcwd : (who.cwd, q) ∈ H) (hkept : OrphansHeld sb s)
    (path : Str) (parent : Bool) :
    (¬Slips sb s.disk who.id parent (startInum who path s) (components path) →
      ∀ k last s', namex sb who path parent s = .ok (some (k, last), s') → Granted sb s.disk who.id
        parent (startInum who path s) (components path) last (s'.icache k).inum) ∧
    (Ready sb s 0 →
      (∀ last j, Granted sb s.disk who.id parent (startInum who path s) (components path) last j →
        ∃ k last' s', namex sb who path parent s = .ok (some (k, last'), s') ∧ (s'.icache k).inum = j ∧
          (parent = true → last' = last)) ∧
      (Slips sb s.disk who.id parent (startInum who path s) (components path) →
        ∃ k last s', namex sb who path parent s = .ok (some (k, last), s') ∧ ¬Granted sb s.disk who.id
          parent (startInum who path s) (components path) last (s'.icache k).inum)) := by
  refine ⟨fun hno k last s' hrun => ?_, fun hready => ⟨?_, ?_⟩⟩
  · obtain ⟨j, hj, hlast, hw⟩ :=
      (walk_namex (G := False) h.walking hkept (h.ref_pos hcwd) path parent False.elim).of_ok hrun
    rw [hw.inum_of_mem (Multiset.mem_cons_self _ _)]
    obtain ⟨dirs, hres, hok⟩ := (follow_eq_some fun _ => hlast).mp hj
    have hok' := fun d hd => (searchable_iff (hres.dir d hd)).mp (hok d hd)
    exact ⟨dirs, hres, fun d hd => (hok' d hd).resolve_right fun hlax =>
      hno ⟨dirs, last, j, hres, hok', d, hd, hlax⟩⟩
  · rintro last j ⟨dirs, hres, hexec⟩
    obtain ⟨k, s', hrun, hinum⟩ := namex_of_follow h hcwd hkept hready
      ((follow_eq_some hres.last_eq).mpr ⟨dirs, hres, fun d hd =>
        (searchable_iff (hres.dir d hd)).mpr (.inl (hexec d hd))⟩)
    exact ⟨k, _, s', hrun, hinum, fun hp => (hres.last_eq hp).symm⟩
  · rintro ⟨dirs, last, j, hres, hpass, d, hd, hlax⟩
    obtain ⟨k, s', hrun, -⟩ := namex_of_follow h hcwd hkept hready
      ((follow_eq_some hres.last_eq).mpr ⟨dirs, hres, fun d hd =>
        (searchable_iff (hres.dir d hd)).mpr (hpass d hd)⟩)
    refine ⟨k, _, s', hrun, fun hclaim => ?_⟩
    obtain ⟨dirs', hres', hexec⟩ := hclaim
    exact hlax.not_executable (hexec d (hres.det hres' ▸ hd))

end

/-! ### Runs -/

/-- Decidable on a small disk: inodes have links, and directories whole entries. -/
theorem kept_ready_boot (disk : Disk) (hn : ∀ i < 16, (inoOf smallSb disk i).type = 0 ∨
    (inoOf smallSb disk i).nlink ≠ 0) (ht : ∀ i < 16, (inoOf smallSb disk i).type = T_DIR →
      (inoOf smallSb disk i).size.toNat % 16 = 0 ∧ (inoOf smallSb disk i).size.toNat ≤ MAXFILE * BSIZE) :
    OrphansHeld smallSb (boot disk []).fs ∧ Ready smallSb (boot disk []).fs 0 := by
  have href : ∀ k, k ≠ 0 → ((boot disk []).fs.icache k).ref = 0 := fun k hk => by
    rw [boot_icache, if_neg hk]
    rfl
  refine ⟨fun i hi hty hnl => absurd hnl ((hn i hi).resolve_left hty), fun k => ?_, ht, fun k => ?_,
    fun k => ?_⟩
  · rw [boot_icache]
    split <;> rfl
  · by_cases hk : k = 1
    · exact ⟨2, by rw [hk]; decide, href 2 (by decide), rfl⟩
    · exact ⟨1, Ne.symm hk, href 1 (by decide), rfl⟩
  · rw [boot_icache, show grip 0 k = 0 from rfl]
    split <;> decide

/-- The user "u", in the root directory. -/
def userU : Caller := ⟨Ident.ofStr [117], 0⟩

set_option maxRecDepth 100000 in
/-- "u" gets from the root directory to itself. -/
theorem search_permission_root : ∃ k last s',
    namex smallSb userU [47, 46] false (boot (bareDisk 61) []).fs = .ok (some (k, last), s') ∧
      (s'.icache k).inum = ROOTINO ∧
      Granted smallSb (bareDisk 61) userU.id false ROOTINO [dot] last (s'.icache k).inum := by
  obtain ⟨A, h⟩ := (intact_boot fsck_bareDisk.image.diskOk []).start ∅ ∅
  obtain ⟨q, hq⟩ := h.cwd_mem (p := initproc) (k := 0) (by rw [boot_cwd, if_pos rfl])
  obtain ⟨hkept, hready⟩ := kept_ready_boot (bareDisk 61) (by decide +kernel) (by decide +kernel)
  have hfollow : follow smallSb (fun d => grants userU.id d MODE_XUSR MODE_XOTH) (bareDisk 61) false
      ROOTINO [dot] = some ROOTINO := by decide +kernel
  obtain ⟨dirs, hres, hexec⟩ : ∃ dirs, Resolves smallSb (bareDisk 61) false ROOTINO [dot] dirs []
    ROOTINO ∧ _ := (follow_eq_some fun hf => by cases hf).mp hfollow
  obtain ⟨hsafe, hgoes⟩ := @search_permission smallSb _ _ _ _ userU q h.fs hq hkept [47, 46] false
  obtain ⟨k, last, s', hrun, hinum, -⟩ := (hgoes hready).1 [] ROOTINO ⟨dirs, hres, hexec⟩
  refine ⟨k, last, s', hrun, hinum, hsafe (fun hslip => ?_) k last s' hrun⟩
  obtain ⟨dirs', _, _, hres', -, d, hd, hlax⟩ := hslip
  exact hlax.not_executable (hexec d (hres'.det hres ▸ hd))

/-- A directory "d" of root's that others may only read. -/
def barredDisk : Disk :=
  smallDisk [{ smallInode T_DIR 2 48 [36] with mode := 61 },
    { smallInode T_DIR 1 32 [37] with mode := MODE_ROTH }]
    [255, 255, 255, 255, 63]
    [Dirent.bytes 1 dot ++ Dirent.bytes 1 dotdot ++ Dirent.bytes 2 [100], Dirent.bytes 2 dot ++
      Dirent.bytes 1 dotdot]

set_option maxRecDepth 100000 in
/-- "u" walks through a directory that does not grant others execute permission. -/
theorem searched_unreadable : Image smallSb barredDisk ∧ ∃ k last s',
    namex smallSb userU [47, 100, 47, 46] false (boot barredDisk []).fs = .ok (some (k, last), s') ∧
      ¬∃ j, Granted smallSb barredDisk userU.id false ROOTINO (components [47, 100, 47, 46]) last j := by
  have hfsck : Fsck smallSb barredDisk [(1, 0, 36), (2, 0, 37)] := by decide +kernel
  have hrun : (namex smallSb userU [47, 100, 47, 46] false (boot barredDisk []).fs).toOption.any
      (fun x => x.1.isSome) = true ∧ follow smallSb (fun d => grants userU.id d MODE_XUSR MODE_XOTH)
        barredDisk false ROOTINO (components [47, 100, 47, 46]) = none := by
    decide +kernel
  refine ⟨hfsck.image, ?_⟩
  rcases hn : namex smallSb userU [47, 100, 47, 46] false (boot barredDisk []).fs with
    e | ⟨_ | ⟨k, last⟩, s'⟩
  · rw [hn] at hrun
    cases hrun.1
  · rw [hn] at hrun
    cases hrun.1
  · refine ⟨k, last, s', rfl, fun hgranted => ?_⟩
    obtain ⟨j, dirs, hj⟩ := hgranted
    have hsome : follow smallSb (fun d => grants userU.id d MODE_XUSR MODE_XOTH) barredDisk false
      ROOTINO (components [47, 100, 47, 46]) = some j :=
      (follow_eq_some fun hf => by cases hf).mpr ⟨dirs, hj⟩
    cases hrun.2.symm.trans hsome

end Xv6
