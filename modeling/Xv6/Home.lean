/-
# Home directories

`addUser` is to give the new user a home directory: "/u", with owner "u". It looks the name up in
the root directory and makes a directory only if there is none of that name. Whatever is there
already stays what it is, and the call returns 0 just the same (`addUser_file_there`).

For a name without '/' this is all that goes wrong: after a call that returned 0, "/u" is a
directory of "u" exactly if the root directory had no such name before, or had it for a directory of
"u" (`addUser_home_iff`). What else changes on disk is the account file, which must not be a
directory itself.
-/
import Xv6.Directory
import Xv6.Search

namespace Xv6

open Prog
open Multiset (mem_cons_self mem_cons_of_mem)

/-! ### What stays of an inode -/

/-- The inode has the type, owner and mode it had, and a directory its names. -/
structure Remains (sb : Superblock) (D D' : Disk) (i : ℕ) : Prop where
  type : (inoOf sb D' i).type = (inoOf sb D i).type
  id : (inoOf sb D' i).id = (inoOf sb D i).id
  mode : (inoOf sb D' i).mode = (inoOf sb D i).mode
  names : (inoOf sb D i).type = T_DIR → ∀ name, entryNamed D' (inoOf sb D' i) name = entryNamed D
    (inoOf sb D i) name

/-- `dirlink` has entered the name: it was not there, and its entry has been written, at entry `n`.
-/
structure Entered (sb : Superblock) (s : Fs) (dp : Slot) (i : ℕ) (name : Str) (inum n : ℕ)
    (s' : Fs) : Prop where
  new : findEntry s.disk (inoOf sb s.disk i) name 0 = none
  le : 16 * n ≤ (inoOf sb s.disk i).size.toNat
  written : Written sb s dp i (16 * n) (Dirent.bytes inum name).length
    (fun x => (Dirent.bytes inum name).getD x 0) s'

section

variable {sb : Superblock} {c : Ctx} {H : Multiset Handle} {N : List Fact} {s s' s1 : Fs}
  {D D' D'' : Disk} {i j n inum : ℕ} {k : Slot} {ty : Int16} {name : Str} {d d' : Dinode}

/-- Names are where the bytes are. -/
theorem entryNamed_congr (hsize : d'.size = d.size) (hbyte : ∀ x, byteOf D' d' x = byteOf D d x)
    (name : Str) : entryNamed D' d' name = entryNamed D d name := by
  have hentry : ∀ j, entryOf D' d' j = entryOf D d j := fun j => by
    rw [entryOf, entryOf]
    simp only [hbyte]
  rw [entryNamed, entryNamed, findEntry, findEntry, hsize]
  simp only [hentry]

theorem entryNamed_eq_none : entryNamed D d name = none ↔ findEntry D d name 0 = none :=
  Option.map_eq_none_iff

namespace Remains

theorem refl (D : Disk) (i : ℕ) : Remains sb D D i := ⟨rfl, rfl, rfl, fun _ _ => rfl⟩

theorem trans (h : Remains sb D D' i) (h' : Remains sb D' D'' i) : Remains sb D D'' i where
  type := h'.type.trans h.type
  id := h'.id.trans h.id
  mode := h'.mode.trans h.mode
  names := fun ht name => (h'.names (h.type.trans ht) name).trans (h.names ht name)

end Remains

theorem Frame.kept (h : Frame sb i D D') (hj : j < sb.ninodes) (hji : j ≠ i) : Remains sb D D' j := by
  have hino := h.ino j hj hji
  refine ⟨by rw [hino], by rw [hino], by rw [hino], fun ht name => ?_⟩
  rw [hino]
  exact entryNamed_congr rfl (h.untouched j hj hji (by rw [ht]; decide)).byteOf name

/-- Another dinode is stored that differs in the number of links only. -/
theorem kept_setDinode (h : DiskOk sb D) (hi : i < sb.ninodes) (ht : (inoOf sb D i).type ≠ 0)
    {links : Int16} (hd : d.copyId = { inoOf sb D i with nlink := links }) :
    Remains sb D (setDinode sb D i d) i := by
  have hino : inoOf sb (setDinode sb D i d) i = { inoOf sb D i with nlink := links } := by
    rw [inoOf_setDinode, if_pos rfl, hd]
  have hunt := untouched_meta h.own hi ht fun b hb => setDinode_data hi hb d
  refine ⟨by rw [hino], by rw [hino], by rw [hino], fun _ name => ?_⟩
  rw [hino]
  exact entryNamed_congr rfl (fun x => hunt.byteOf x) name

/-! ### Searching and entering a name -/

theorem entry_readDirent (h : Ok sb c H N s) (hk : (k, some (i, T_DIR)) ∈ H) (n : ℕ) (msg : String) :
    Sat (readDirent sb k (16 * n) msg) s (fun de s' => s' = s ∧
      de = entryOf s.disk (inoOf sb s.disk i) n ∧ 16 * n + 16 ≤ (inoOf sb s.disk i).size.toNat) Any := by
  refine (ok_readi h hk (16 * n) 16).returns.bind fun buf s1 h1 => ?_
  obtain ⟨rfl, hbuf⟩ := h1.2 (by decide)
  match buf with
  | none => exact .stop trivial
  | some buf =>
    refine .ite (fun hlen => .pure ⟨rfl, ?_⟩) fun _ => .stop trivial
    have hb := hbuf buf rfl
    rw [hb, List.length_map, List.length_range] at hlen
    rw [hlen] at hb
    exact ⟨by rw [hb, entryOf], by omega⟩

/-- A search of a directory that is in the cache, with its lock or without, leaves the disk as it
is. -/
theorem look_lookupFrom (h : Ok sb c H N s) (hk : (k, some (i, T_DIR)) ∈ H) (name : Str) : ∀ fuel n : ℕ,
    (inoOf sb s.disk i).size.toNat / 16 < n + fuel → Sat (lookupFrom sb k name fuel (16 * n)) s
    (fun r s' => s'.disk = s.disk ∧
      (r = none ↔ findEntry s.disk (inoOf sb s.disk i) name n = none) ∧ (r = none → s' = s)) Any
  | 0, n, hfuel => .pure ⟨rfl, ⟨fun _ => findEntry_end (by omega), fun _ => rfl⟩, fun _ => rfl⟩
  | fuel + 1, n, hfuel => by
    obtain ⟨-, -, -, hd, -⟩ := h.at_known hk
    refine .get_bind (.ite (fun hle => ?_) fun hlt => ?_)
    · rw [hd] at hle
      exact .pure ⟨rfl, ⟨fun _ => findEntry_end (by omega), fun _ => rfl⟩, fun _ => rfl⟩
    · refine (entry_readDirent h hk n _).read ?_
      rintro _ ⟨rfl, hle⟩
      rw [findEntry_step (by omega)]
      refine .ite (fun hm => ?_) fun hm => ?_
      · rw [if_pos (show Matches _ _ from hm)]
        refine .bind (Q := fun _ s' => s'.disk = s.disk) ?_ fun l s2 hd2 =>
          .pure ⟨hd2, by simp, fun he => by cases he⟩
        exact (inum_iget _ _).post fun _ _ h2 => h2.2
      · rw [if_neg (show ¬Matches _ _ from hm)]
        exact look_lookupFrom h hk name fuel (n + 1) (by omega)

theorem look_dirlookup (h : Ok sb c H N s) (hk : (k, some (i, ty)) ∈ H) (name : Str) :
    Sat (dirlookup sb k name) s (fun r s' => ty = T_DIR ∧ s'.disk = s.disk ∧
      (r = none ↔ findEntry s.disk (inoOf sb s.disk i) name 0 = none) ∧ (r = none → s' = s)) Any := by
  obtain ⟨-, -, -, hd, hty, -⟩ := h.at_known hk
  refine .get_bind (.ite (fun hdir => ?_) fun _ => .stop trivial)
  obtain rfl : ty = T_DIR := by rw [← hty, ← hd, hdir]
  refine (look_lookupFrom h hk name _ 0 ?_).post fun r s' h1 => ⟨rfl, h1⟩
  rw [Inode.rounds, hd]
  omega

/-- The place for a new entry begins inside the directory or at its end. -/
theorem place_emptyFrom (h : Ok sb c H N s) (hk : (k, some (i, T_DIR)) ∈ H) : ∀ fuel n : ℕ,
    16 * n ≤ (inoOf sb s.disk i).size.toNat → Sat (emptyFrom sb k fuel (16 * n)) s (fun off s' => s' = s ∧
      ∃ m, off = 16 * m ∧ 16 * m ≤ (inoOf sb s.disk i).size.toNat) Any
  | 0, n, hn => .pure ⟨rfl, n, rfl, hn⟩
  | fuel + 1, n, hn => by
    refine .get_bind (.ite (fun _ => .pure ⟨rfl, n, rfl, hn⟩) fun _ => ?_)
    refine (entry_readDirent h hk n _).read ?_
    rintro de ⟨-, hle⟩
    exact .ite (fun _ => .pure ⟨rfl, n, rfl, hn⟩) fun _ => place_emptyFrom h hk fuel (n + 1) (by omega)

theorem entered_dirlink (h : Ok sb c H N s) (hk : (k, some (i, ty)) ∈ H) (name : Str) (inum : ℕ) :
    Sat (dirlink sb k name inum) s (fun r s' => r = true → ∃ n, Entered sb s k i name inum n s') Any := by
  refine .bind (Sat.and (look_dirlookup h hk name) (ok_dirlookup h hk name).returns)
    fun r s1 ⟨⟨hty, _, hr, hsame⟩, h1, _⟩ => ?_
  match r with
  | some (j, _) => exact (ok_iput h1).returns.bind fun _ s2 _ => .pure fun he => by cases he
  | none =>
    obtain rfl : s1 = s := hsame rfl
    subst hty
    obtain ⟨-, -, hi, -, hty, -⟩ := h.at_known hk
    refine .get_bind ((place_emptyFrom h hk _ 0 (Nat.zero_le _)).read ?_)
    rintro _ ⟨n, rfl, hn⟩
    have hs := h.disk.sited hi (by rw [hty]; decide) (by rw [hty]; decide)
    refine .bind (sat_writei (L := 0) (A := 0) (h.loaded hk (by decide)) hs (Dirent.bytes inum name)
      (16 * n) .fine).returns
      fun r s3 ⟨hdone, _⟩ => ?_
    refine .ite (fun h16 => .pure fun _ => ⟨n, hr.mp rfl, hn, ?_⟩) fun _ => .stop trivial
    rw [h16] at hdone
    exact hdone.2.2.2

namespace Entered

theorem entryNamed (h : Entered sb s k i name inum n s') (hpos : 0 < inum) (hlt : inum < 65536) :
    entryNamed s'.disk (inoOf sb s'.disk i) name = some inum := by
  have hlen := length_bytes inum name
  have hsize := h.written.size
  rw [hlen] at hsize
  have hle := h.le
  -- no entry before this one has the name, and this one has it
  have hself : entryOf s'.disk (inoOf sb s'.disk i) n = ⟨inum, strncpy name 14⟩ := by
    rw [h.written.entryOf hlen (by omega), if_pos rfl, Dirent.ofBytes_bytes hlt]
  have hfind : findEntry s'.disk (inoOf sb s'.disk i) name 0 = some n := by
    rw [findEntry, Nat.sub_zero, ← List.range_eq_range', List.find?_range_eq_some]
    refine ⟨?_, List.mem_range.mpr (by omega), fun m hm => ?_⟩
    · rw [hself, decide_eq_true_iff, matches_cname, cname_strncpy]
      exact ⟨by simpa using Nat.ne_of_gt hpos, rfl⟩
    · have hnone := List.find?_eq_none.mp h.new m (by rw [Nat.sub_zero, List.mem_range'_1]; omega)
      rw [h.written.entryOf hlen (by omega), if_neg (by omega)]
      simpa using hnone
  rw [Xv6.entryNamed, hfind, Option.map_some, hself]

/-- The directory has its type, owner and mode still. -/
theorem fields (h : Entered sb s k i name inum n s') : inoOf sb s'.disk i =
    { inoOf sb s.disk i with addrs := (inoOf sb s'.disk i).addrs, size := (inoOf sb s'.disk i).size
      } := h.written.fields

theorem frame (h : Entered sb s k i name inum n s') : Frame sb i s.disk s'.disk := h.written.stored.frame

end Entered

/-! ### A new directory -/

/-- A field is set, and the inode written to disk. -/
theorem disk_update (h : Ok sb c H N s) (hk : (k, some (i, ty)) ∈ H) (f : Dinode → Dinode) :
    Sat (do modD k f; iupdate sb k) s (fun _ s' => s'.disk = setDinode sb s.disk i
      (f (inoOf sb s.disk i)).copyId) Any := by
  obtain ⟨hinum, -, -, hd, -⟩ := h.at_known hk
  refine .modify_bind (wrote_iupdate.returns.post fun _ s' hw => ?_)
  have hdisk := hw.disk
  simp only [Fs.setInode_self, Fs.setInode_disk, hinum, hd] at hdisk
  exact hdisk

theorem disk_iupdate (h : Ok sb c H N s) (hk : (k, some (i, ty)) ∈ H) :
    Sat (iupdate sb k) s (fun _ s' => s'.disk = setDinode sb s.disk i (inoOf sb s.disk i)) Any := by
  obtain ⟨hinum, -, -, hd, -⟩ := h.at_known hk
  refine wrote_iupdate.returns.post fun _ s' hw => ?_
  rw [hw.disk, hinum, hd, copyId_inoOf]

/-- Since `D`, inode `j` has become an empty directory of the user's, and directory `i` has been
kept. -/
structure Making (sb : Superblock) (D : Disk) (i j : ℕ) (username : Str) (D' : Disk) : Prop where
  type : (inoOf sb D' j).type = T_DIR
  id : (inoOf sb D' j).id = Ident.ofStr username
  nlink : (inoOf sb D' j).nlink = 1
  kept : Remains sb D D' i

/-- Since `D`, a directory of the user's has been entered into directory `i`. -/
structure Made (sb : Superblock) (D : Disk) (i j : ℕ) (username : Str) (D' : Disk) : Prop where
  type : (inoOf sb D' j).type = T_DIR
  id : (inoOf sb D' j).id = Ident.ofStr username
  nlink : (inoOf sb D' j).nlink = 1
  parent : (inoOf sb D' i).type = (inoOf sb D i).type ∧ (inoOf sb D' i).id = (inoOf sb D i).id ∧
    (inoOf sb D' i).mode = (inoOf sb D i).mode
  name : entryNamed D' (inoOf sb D' i) username = some j

variable {username : Str} {dp ip : Slot}

namespace Making

/-- An entry of the new directory is written. -/
theorem entered (h : Making sb D i j username s.disk) (he : Entered sb s ip j name inum n s')
    (hi : i < sb.ninodes) (hij : i ≠ j) : Making sb D i j username s'.disk := by
  have hf := he.fields
  refine ⟨by rw [hf]; exact h.type, by rw [hf]; exact h.id, by rw [hf]; exact h.nlink, h.kept.trans ?_⟩
  exact he.frame.kept hi hij

/-- **The new directory is entered** into its parent. -/
theorem made (h : Making sb D i j username s.disk) (he : Entered sb s dp i username j n s')
    (hj : j < sb.ninodes) (hij : i ≠ j) (hpos : 0 < j) (hlt : j < 65536) :
    Made sb D i j username s'.disk := by
  have hf := he.fields
  have hino := he.frame.ino j hj hij.symm
  refine ⟨by rw [hino]; exact h.type, by rw [hino]; exact h.id, by rw [hino]; exact h.nlink, ⟨?_,
    ?_, ?_⟩, he.entryNamed hpos hlt⟩
  · rw [hf]
    exact h.kept.type
  · rw [hf]
    exact h.kept.id
  · rw [hf]
    exact h.kept.mode

theorem linked (h : Making sb D i j username s.disk) (hok : Ok sb c H N s) (hip : (ip, some (j, ty)) ∈ H)
    (hmay : Fact.may j ∈ N) {parent : ℕ} (hnum : inum < sb.ninodes) (hi : i < sb.ninodes) (hij : i ≠ j) :
    Sat (linkDots sb ip inum parent) s (fun _ s' => Making sb D i j username s'.disk) Any := by
  refine .bind (Sat.and (entered_dirlink hok hip _ _) (ok_dirlink hok hip hmay _ hnum).returns)
    fun a s1 ⟨h1, hok1⟩ => ?_
  refine .ite (fun ha => ?_) fun _ => .stop trivial
  obtain ⟨n1, he1⟩ := h1 ha
  refine (entered_dirlink hok1 hip _ _).bind fun b s2 h2 => .ite (fun hb => ?_) fun _ => .stop trivial
  obtain ⟨n2, he2⟩ := h2 hb
  exact .pure ((h.entered he1 hi hij).entered he2 hi hij)

end Making

/-- Writing an inode to disk as it is there changes nothing of it, or of others. -/
theorem made_iupdate (h : Made sb D i j username s.disk) (hok : Ok sb c H N s) {l : ℕ}
    (hk : (k, some (l, ty)) ∈ H) (hi : i < sb.ninodes) (hi0 : (inoOf sb D i).type = T_DIR) :
    Sat (iupdate sb k) s (fun _ s' => Made sb D i j username s'.disk) Any := by
  obtain ⟨-, -, hl, -, hty, hty0⟩ := hok.at_known hk
  refine (disk_iupdate hok hk).post fun _ s' hd => ?_
  have hino : ∀ m, inoOf sb s'.disk m = inoOf sb s.disk m := fun m => by
    rw [hd, inoOf_setDinode, copyId_inoOf]
    split_ifs with hm
    · rw [hm]
    · rfl
  refine ⟨by rw [hino]; exact h.type, by rw [hino]; exact h.id, by rw [hino]; exact h.nlink, by rw [hino]; exact h.parent, ?_⟩
  rw [hino, ← h.name]
  have hdir : (inoOf sb s.disk i).type = T_DIR := h.parent.1.trans hi0
  refine entryNamed_congr rfl (fun x => ?_) username
  rw [hd]
  exact (untouched_meta hok.disk.own hi (by rw [hdir]; decide) fun b hb =>
    setDinode_data hl hb _).byteOf x

/-- The inode that has been allocated gets its owner. -/
theorem making_initInode (hD : DiskOk sb D) (hi : i < sb.ninodes) (hj : j < sb.ninodes)
    (hij : i ≠ j) (h1 : D' = setDinode sb D j (newDinode T_DIR)) (hD' : DiskOk sb D')
    (h2 : D'' = setDinode sb D' j (initInode 0 0 username (inoOf sb D' j)).copyId) :
    Making sb D i j username D'' := by
  have hino : inoOf sb D'' j = initInode 0 0 username (newDinode T_DIR) := by
    rw [h2, inoOf_setDinode, if_pos rfl, Dinode.copyId_copyId, h1, inoOf_setDinode, if_pos rfl,
      copyId_of_id (d := newDinode T_DIR) rfl]
    exact copyId_of_id rfl
  have hkept : Remains sb D D' i := by
    rw [h1]
    exact (frame_setDinode hD hj _).kept hi hij
  refine ⟨by rw [hino]; rfl, by rw [hino]; rfl, by rw [hino]; rfl, hkept.trans ?_⟩
  rw [h2]
  exact (frame_setDinode hD' hj _).kept hi hij

/-- The parent gets one link more. -/
theorem Making.parent (h : Making sb D i j username D') (hD' : DiskOk sb D') (hi : i < sb.ninodes)
    (hij : i ≠ j) (ht : (inoOf sb D i).type ≠ 0)
    (h' : D'' = setDinode sb D' i
      (Dinode.copyId { inoOf sb D' i with nlink := (inoOf sb D' i).nlink + 1 })) :
    Making sb D i j username D'' := by
  have hino : inoOf sb D'' j = inoOf sb D' j := by rw [h', inoOf_setDinode, if_neg hij.symm]
  refine ⟨by rw [hino]; exact h.type, by rw [hino]; exact h.id, by rw [hino]; exact h.nlink, h.kept.trans ?_⟩
  rw [h']
  have hcopy : ∀ (d : Dinode) (links : Int16), Dinode.copyId { d with nlink := links } =
    { d.copyId with nlink := links } :=
    fun _ _ => rfl
  have hlinks : (Dinode.copyId { inoOf sb D' i with nlink := (inoOf sb D' i).nlink + 1 }).copyId =
      { inoOf sb D' i with nlink := (inoOf sb D' i).nlink + 1 } := by
    rw [Dinode.copyId_copyId, hcopy, copyId_inoOf]
  exact kept_setDinode hD' hi (by rw [h.kept.type]; exact ht) hlinks

/-- The end of `addUser`, where the new directory is written out and both are released. The other
pointer to the parent keeps it. -/
theorem Made.release (h : Made sb D i j username s.disk)
    (hok : Ok sb c ((ip, some (j, ty)) ::ₘ (dp, none) ::ₘ H) N s) (hdp : (dp, some (i, T_DIR)) ∈ H)
    (hi : i < sb.ninodes) (hdir : (inoOf sb D i).type = T_DIR) :
    Sat (do iupdate sb ip; iupdate sb dp; iunlockput sb ip; iunlockput sb dp) s
      (fun _ s' => Made sb D i j username s'.disk) Any := by
  have hip : (ip, some (j, ty)) ∈ (ip, some (j, ty)) ::ₘ (dp, none) ::ₘ H := mem_cons_self _ _
  have hdp' : (dp, some (i, T_DIR)) ∈ (ip, some (j, ty)) ::ₘ (dp, none) ::ₘ H :=
    mem_cons_of_mem (mem_cons_of_mem hdp)
  refine .bind (Sat.and (made_iupdate h hok hip hi hdir) (ok_iupdate hok hip).returns)
    fun _ s1 ⟨hmade1, h1⟩ => ?_
  refine .bind (Sat.and (made_iupdate hmade1 h1 hdp' hi hdir) (ok_iupdate h1 hdp').returns)
    fun _ s2 ⟨hmade2, h2⟩ => ?_
  have hlinks : (s2.icache ip).d.nlink ≠ 0 := by
    rw [(h2.at_known hip).2.2.2.1, hmade2.nlink]
    decide
  refine .bind (Sat.and (disk_iunlockput fun hfree => hlinks hfree.2.1) (ok_iunlockput h2).returns)
    fun _ s3 ⟨hd3, h3⟩ => ?_
  have href : 1 < (s3.icache dp).ref := by
    have hle := h3.refs dp
    have hpos := held_pos hdp
    rw [held_cons_self] at hle
    omega
  refine (disk_iunlockput fun hfree => by omega).post fun _ s4 hd4 => ?_
  rw [hd4, hd3]
  exact hmade2

/-- **A home directory is made**, in a directory that others hold too. -/
theorem made_makeHome (h : Ok sb c ((dp, none) ::ₘ H) N s) (hdp : (dp, some (i, T_DIR)) ∈ H)
    (hmay : Fact.may i ∈ N) (hnum : sb.ninodes ≤ 65536) (username : Str) :
    Sat (makeHome sb dp username) s (fun _ s' => ∃ j, Made sb s.disk i j username s'.disk) Any := by
  have hdp0 : (dp, some (i, T_DIR)) ∈ (dp, none) ::ₘ H := mem_cons_of_mem hdp
  obtain ⟨hdev, -, -⟩ := h.slot dp (h.ref_pos (mem_cons_self _ _))
  obtain ⟨hinum, -, hi, -, hty, -⟩ := h.at_known hdp0
  have ht : (inoOf sb s.disk i).type ≠ 0 := by rw [hty]; decide
  refine .get_bind ?_
  rw [hdev, hinum]
  refine (ok_ialloc h).returns.bind fun ip s1 ⟨j', h1, hj', _, hpos, hfree, hd1⟩ => ?_
  have hj : j' < sb.ninodes := hj' ▸ (h1.slot ip (h1.ref_pos (mem_cons_self _ _))).inum
  have hij : i ≠ j' := fun he => ht (he ▸ hfree)
  refine (ok_ilock_valid h1).returns.bind fun _ s2 ⟨h2, _, _, hnum2, hd2⟩ => ?_
  refine (ok_ilock h2).returns.bind fun _ s3 ⟨j'', ty', h3, hj'', hd3⟩ => ?_
  obtain rfl : j'' = j' := hj''.trans ((hnum2 ip).trans hj')
  have hip : (ip, some (j'', ty')) ∈ (ip, some (j'', ty')) ::ₘ (dp, none) ::ₘ H :=
    mem_cons_self _ _
  have hdp' : (dp, some (i, T_DIR)) ∈ (ip, some (j'', ty')) ::ₘ (dp, none) ::ₘ H :=
    mem_cons_of_mem hdp0
  -- the new inode gets its owner
  refine .assoc
    (.bind (Sat.and (disk_update h3 hip _) (ok_initInode h3 hip (by simp) _ _ _).returns)
      fun _ s4 ⟨hd4, h4⟩ => ?_)
  have hd3' : s3.disk = setDinode sb s.disk j'' (newDinode T_DIR) := hd3.trans (hd2.trans hd1)
  have hmaking : Making sb s.disk i j'' username s4.disk := making_initInode h.disk hi hj hij hd3'
    h3.disk hd4
  -- its parent gets one link more
  refine .bind (Sat.and (disk_update h4 hdp' _) (ok_addNlink h4 hdp' 1).returns)
    fun _ s5 ⟨hd5, h5⟩ => .get_bind ?_
  have hmaking5 : Making sb s.disk i j'' username s5.disk := hmaking.parent h4.disk hi hij ht hd5
  obtain ⟨hjnum5, -⟩ := h5.at_known hip
  rw [hjnum5]
  refine .bind (Sat.and (hmaking5.linked h5 hip List.mem_cons_self hj hi hij)
    (ok_linkDots h5 hip List.mem_cons_self hj hi).returns) fun _ s6 ⟨hmaking6, h6⟩ => ?_
  refine .bind (Sat.and (entered_dirlink h6 hdp' username j'')
    (ok_dirlink h6 hdp' (by simp [hmay]) _ hj).returns)
    fun r s7 ⟨hr, h7⟩ => .ite (fun _ => .stop trivial) fun hlinked => ?_
  obtain ⟨n, he⟩ := hr (by simpa using hlinked)
  have hmade := hmaking6.made he hj hij hpos (by omega)
  exact (hmade.release h7 hdp hi hty).post fun _ _ h8 => ⟨j'', h8⟩

/-! ### `addUser` -/

theorem disk_iunlock : Sat (iunlock k) s (fun _ s' => s'.disk = s.disk) Any :=
  .get_bind (.ite (fun _ => .stop trivial) fun _ => .modify rfl)

variable {who : Caller} {root : Slot}

/-- The table is written to a file or a device: every inode is kept, and every directory has its
names. -/
theorem kept_writeTable (h : Ok sb c H N s) (hv : 0 < (s.icache k).ref ∧ (s.icache k).valid = true)
    (hfile : (inoOf sb s.disk (s.icache k).inum).type ≠ T_DIR) (table : Str) :
    Sat (writei sb k table 0) s (fun _ s' => ∀ j, j < sb.ninodes → Remains sb s.disk s'.disk j) Any := by
  obtain ⟨H', h', hk, -, -⟩ := h.pin hv.1 hv.2
  obtain ⟨-, -, hi, hd, hty, hty0⟩ := h'.at_known hk
  by_cases hdev : (inoOf sb s.disk (s.icache k).inum).type = T_DEV
  · refine .get_bind ?_
    rw [hd, if_pos hdev]
    refine .ite (fun _ => ?_) fun _ => .pure fun j _ => .refl _ j
    refine .bind (Sat.and (ok_iunlock h').returns disk_iunlock) fun _ s1 ⟨h1, hd1⟩ => ?_
    refine (ok_ilock_valid h1).returns.bind fun _ s2 ⟨_, _, _, _, hd2⟩ => .pure fun j _ => ?_
    rw [hd2, hd1]
    exact .refl _ j
  · have ht : (inoOf sb s.disk (s.icache k).inum).type ≠ 0 := hty ▸ hty0
    have hload : Loaded sb s k (s.icache k).inum := ⟨hi, rfl, hd, ht, hdev⟩
    refine (sat_writei (L := 0) (A := 0) hload (h.disk.sited hi ht hdev) table 0 .fine).returns.post
      fun r s' ⟨hr, _⟩ j hj => ?_
    match r with
    | none =>
      rw [hr.1]
      exact .refl _ j
    | some n =>
      obtain ⟨-, -, -, hw⟩ := hr
      by_cases hji : j = (s.icache k).inum
      · subst hji
        have hf := hw.fields
        exact ⟨by rw [hf], by rw [hf], by rw [hf], fun hdir => absurd hdir hfile⟩
      · exact hw.stored.frame.kept hj hji

/-- The search for a home directory: what it has found is what there was in the root directory. -/
theorem found_findHome (h : Ok sb c H N s) (hroot : (root, some (ROOTINO, ty)) ∈ H)
    (hfile : (inoOf sb s.disk (s.icache ip).inum).type ≠ T_DIR) (table username : Str) :
    Sat (findHome sb who ip table username) s (fun r s' => ∃ x, r = some x ∧ ty = T_DIR ∧
      (∀ j, j < sb.ninodes → Remains sb s.disk s'.disk j) ∧
      (x.2 = none ↔ entryNamed s.disk (inoOf sb s.disk ROOTINO) username = none)) Any := by
  refine (ok_ilock_valid h).returns.bind fun _ s1 ⟨h1, hpos, hv, hnum, hd⟩ => ?_
  have hfile1 : (inoOf sb s1.disk (s1.icache ip).inum).type ≠ T_DIR := by
    rw [hnum ip, hd]
    exact hfile
  refine .bind (Sat.and (kept_writeTable h1 ⟨hpos, hv⟩ hfile1 table)
    (ok_writeTable h1 ⟨hpos, hv⟩ hfile1 table).returns)
    fun _ s2 ⟨hkept2, h2⟩ => ?_
  rw [hd] at hkept2
  refine .bind (Sat.and (ok_iunlock h2).returns disk_iunlock) fun _ s3 ⟨h3, hd3⟩ =>
    sat_nameiRoot sb who ?_
  refine .bind (Sat.and (ok_iget h3 sb.root_lt).returns (inum_iget ..)) fun dp s4 ⟨⟨h4, hdp⟩, _,
    hd4⟩ => ?_
  have hmem : (root, some (ROOTINO, ty)) ∈ (dp, none) ::ₘ H := mem_cons_of_mem hroot
  obtain rfl : dp = root := h4.uniq dp root (h4.ref_pos (mem_cons_self _ _)) (h4.ref_pos hmem)
    (hdp.trans (h4.at_known hmem).1.symm)
  refine (look_dirlookup h4 hmem username).bind fun found s5 ⟨hdir, hd5, hfound, _⟩ => .pure ⟨_, rfl, ?_⟩
  have hkept : ∀ j, j < sb.ninodes → Remains sb s.disk s5.disk j := fun j hj => by
    rw [hd5, hd4, hd3]
    exact hkept2 j hj
  refine ⟨hdir, hkept, ?_⟩
  rw [hfound, ← entryNamed_eq_none, ← hd5, (hkept ROOTINO sb.root_lt).names]
  obtain ⟨-, -, -, -, hty, -⟩ := h4.at_known hmem
  rw [← (hkept ROOTINO sb.root_lt).type, hd5, hty, hdir]

/-- What has become of the root directory and the name in a call that returned 0: if the name was
there, every inode is what it was, and if not, it is a directory of the user's. -/
def Homed (sb : Superblock) (D : Disk) (username : Str) (D' : Disk) : Prop :=
  (inoOf sb D ROOTINO).type = T_DIR ∧
    ((entryNamed D (inoOf sb D ROOTINO) username ≠ none ∧ ∀ j, j < sb.ninodes → Remains sb D D' j) ∨
      (entryNamed D (inoOf sb D ROOTINO) username = none ∧ ∃ j, Made sb D ROOTINO j username D'))

theorem homed_addUserFs (h : Ok sb c H N s) (hroot : (root, some (ROOTINO, ty)) ∈ H)
    (hfile : (inoOf sb s.disk (s.icache ip).inum).type ≠ T_DIR) (hmay : ROOTINO ∈ c.content)
    (hnum : sb.ninodes ≤ 65536) (table username : Str) :
    Sat (addUserFs sb who ip table username) s (fun r s' => r = 0 → Homed sb s.disk username
      s'.disk) Any := by
  have htype : (inoOf sb s.disk ROOTINO).type = ty := (h.at_known hroot).2.2.2.2.1
  refine .bind (Sat.and (found_findHome h hroot hfile table username)
    (ok_findHome h hroot hfile table username).returns)
    fun r s1 ⟨hfound, h1, hr⟩ => ?_
  obtain ⟨⟨dp, found⟩, rfl, rfl, hkept, hname⟩ := hfound
  match found with
  | some (home, off) =>
    refine .modify_bind (.pure fun _ => ⟨htype, .inl ⟨fun hnone => ?_, hkept⟩⟩)
    cases hname.mpr hnone
  | none =>
    have h1 := h1.learn (f := .may ROOTINO) fun _ => hmay
    have hmem : (root, some (ROOTINO, T_DIR)) ∈ (dp, none) ::ₘ H := mem_cons_of_mem hroot
    obtain rfl : dp = root := h1.uniq dp root (h1.ref_pos (mem_cons_self _ _)) (h1.ref_pos hmem)
      ((hr _ rfl).trans (h1.at_known hmem).1.symm)
    refine (made_makeHome h1 hroot List.mem_cons_self hnum username).bind fun _ s2 ⟨j, hmade⟩ => ?_
    refine .modify_bind (.pure fun _ => ⟨htype, .inr ⟨hname.mp rfl, j, ?_⟩⟩)
    obtain ⟨ht, hid, hmode⟩ := hmade.parent
    have hroot1 := hkept ROOTINO sb.root_lt
    exact { hmade with parent := ⟨ht.trans hroot1.type, hid.trans hroot1.id, hmode.trans hroot1.mode⟩ }

variable {K K' : Kernel} {p : Fin NPROC} {password : Str}

theorem homed_addUser (h : Intact sb K) (hnum : sb.ninodes ≤ 65536)
    (hs : Sane sb p K (.addUser (some username) (some password))) :
    Sat (addUser sb p username password) K (fun r K' => r = 0 → Homed sb K.fs.disk username
      K'.fs.disk) Any := by
  obtain ⟨A, h⟩ := h.start ∅ Set.univ
  refine .get_bind (.ite (fun _ => .pure fun h0 => by cases h0) fun hroot => ?_)
  have hroot : isRoot (K.proc p).id = true := by simpa using hroot
  split
  · exact .pure fun h0 => by cases h0
  · rename_i t ht
    obtain ⟨hfile, r, hpos, hv, hrnum⟩ := hs hroot (by simp [ht])
    have h1 : Holding sb (K.ctx ∅ Set.univ) 0 A { K with utable := t } := ⟨h.fs, h.file, h.cwd⟩
    refine .modify_bind (caller_bind trivial fun cwd _ => ?_)
    refine .bind (h1.onFs (Sat.and (ok_beginOp h1.fs) run_beginOp)).returns
      fun _ K2 ⟨⟨hs2, hcache, hdisk⟩, hh, _⟩ => ?_
    refine (sat_deref trivial _ _).read fun ip hip => ?_
    -- the root directory in the cache counts as held during the call
    rw [← congrFun hcache r] at hpos hv hrnum
    obtain ⟨H', h', hmem, -, -⟩ := hs2.pin hpos hv
    rw [hrnum] at hmem
    have hfile' : (inoOf sb K2.fs.disk (K2.fs.icache ip).inum).type ≠ T_DIR := by
      rw [hcache, hdisk]
      exact hfile ip hip
    refine .zoom ((homed_addUserFs h' hmem hfile' (Set.mem_univ _) hnum _ _).post
      fun z s' hhomed hz => ?_)
    have := hhomed hz
    rw [hdisk] at this
    exact this

end

/-! ### Home directories -/

section

variable (sb : Superblock)

/-- For a caller with this id, the path '/' followed by the name leads to a directory whose owner is
the user. -/
def IsHome (D : Disk) (id : Ident) (username : Str) : Prop :=
  ∃ dirs j, Path sb D ROOTINO (components (47 :: username)) dirs j ∧
    (∀ d ∈ dirs, searchable id (inoOf sb D d) = true) ∧
    (inoOf sb D j).type = T_DIR ∧ sameId (inoOf sb D j).id username = true

/-- The root directory has the name for a directory whose owner is the user. -/
def HasHome (D : Disk) (username : Str) : Prop :=
  ∃ j, entryNamed D (inoOf sb D ROOTINO) username = some j ∧ (inoOf sb D j).type = T_DIR ∧
    sameId (inoOf sb D j).id username = true

end

section

variable {sb : Superblock} {D D' : Disk} {id : Ident} {username : Str} {K K' : Kernel}
  {p : Fin NPROC} {i l : ℕ} {name : Str}

theorem entryNamed_take (D : Disk) (d : Dinode) (name : Str) :
    entryNamed D d (name.take 14) = entryNamed D d name := by
  have hm : ∀ de, Matches (name.take 14) de ↔ Matches name de :=
    fun de => by rw [matches_cname, matches_cname, cname_take]
  rw [entryNamed, entryNamed, findEntry, findEntry]
  simp only [hm]

/-- A name without '/' is looked up in the root directory. -/
theorem isHome_iff (hne : username ≠ []) (hname : ∀ c ∈ username, inName c = true)
    (hdir : (inoOf sb D ROOTINO).type = T_DIR) : IsHome sb D id username ↔
    searchable id (inoOf sb D ROOTINO) = true ∧ HasHome sb D username := by
  have hcomp : components (47 :: username) = [username.take 14] := by
    have := components_append hne hname (.inr rfl : byte0 [] = 47 ∨ byte0 [] = 0)
    rw [List.append_nil] at this
    rw [components_slash, this, components_nil]
  rw [IsHome, hcomp]
  constructor
  · rintro ⟨dirs, j, hpath, hs, htype, howner⟩
    cases hpath with
    | cons _ hentry hrest =>
      cases hrest
      exact ⟨hs _ (List.mem_singleton_self _), j, by rw [← entryNamed_take]; exact hentry, htype, howner⟩
  · rintro ⟨hs, j, hentry, htype, howner⟩
    exact ⟨_, j, .cons hdir (by rw [entryNamed_take]; exact hentry) (.nil j),
      by simpa using hs, htype, howner⟩

/-- Entries name inodes of the disk. -/
theorem entryNamed_lt {j : ℕ} (hD : DiskOk sb D) (hi : i < sb.ninodes)
    (hdir : (inoOf sb D i).type = T_DIR) (h : entryNamed D (inoOf sb D i) name = some j) :
    j < sb.ninodes := by
  obtain ⟨n, hn, rfl⟩ := Option.map_eq_some_iff.mp h
  have hmem := List.mem_of_find?_eq_some hn
  rw [List.mem_range'_1] at hmem
  exact entryOf_lt hD hi hdir (by omega)

theorem searchable_congr {d d' : Dinode} (ht : d'.type = d.type) (hid : d'.id = d.id)
    (hm : d'.mode = d.mode) : searchable id d' = searchable id d := by
  rw [searchable, searchable, owns, owns, ht, hid, hm]

/-- Names lead to inodes of the disk. -/
theorem Path.lt {names : List Str} {dirs : List ℕ} (hD : DiskOk sb D) (h : Path sb D i names dirs l)
    (hi : i < sb.ninodes) : (∀ d ∈ dirs, d < sb.ninodes) ∧ l < sb.ninodes := by
  induction h with
  | nil i => exact ⟨by simp, hi⟩
  | cons hdir hname _ ih =>
    obtain ⟨hdirs, hl⟩ := ih (entryNamed_lt hD hi hdir hname)
    exact ⟨by simpa [hi] using hdirs, hl⟩

theorem path_congr (hD : DiskOk sb D) (hkept : ∀ j, j < sb.ninodes → Remains sb D D' j) :
    ∀ {names : List Str} {i : ℕ} {dirs : List ℕ}, i < sb.ninodes →
    (Path sb D' i names dirs l ↔ Path sb D i names dirs l)
  | [], _, _, _ => ⟨fun h => by cases h; exact .nil _, fun h => by cases h; exact .nil _⟩
  | name :: names, i, dirs, hi => by
    have hk := hkept i hi
    constructor
    · intro h
      cases h with
      | cons hdir hname hrest =>
        rw [hk.type] at hdir
        rw [hk.names hdir] at hname
        exact .cons hdir hname ((path_congr hD hkept (entryNamed_lt hD hi hdir hname)).mp hrest)
    · intro h
      cases h with
      | cons hdir hname hrest =>
        exact .cons (hk.type.trans hdir) ((hk.names hdir name).trans hname)
          ((path_congr hD hkept (entryNamed_lt hD hi hdir hname)).mpr hrest)

/-- Where every inode is kept, so are home directories. -/
theorem isHome_congr (hD : DiskOk sb D) (hkept : ∀ j, j < sb.ninodes → Remains sb D D' j) :
    IsHome sb D' id username ↔ IsHome sb D id username := by
  refine exists_congr fun dirs => exists_congr fun j => ?_
  rw [path_congr hD hkept sb.root_lt]
  refine and_congr_right fun hp => ?_
  obtain ⟨hdirs, hj⟩ := hp.lt hD sb.root_lt
  rw [(hkept j hj).type, (hkept j hj).id]
  refine and_congr_left' (forall₂_congr fun d hd => ?_)
  have hk := hkept d (hdirs d hd)
  rw [searchable_congr hk.type hk.id hk.mode]

/-- No name of a path is empty or has a '/' in it. -/
theorem inName_of_mem_components (path : Str) : ∀ name ∈ components path, name ≠ [] ∧ ∀ c ∈ name,
    inName c = true := by
  induction hn : path.length using Nat.strong_induction_on generalizing path with
  | _ n ih =>
    subst hn
    rw [← components_dropWhile path]
    have hle : (path.dropWhile (· = 47)).length ≤ path.length := (List.dropWhile_suffix _).length_le
    generalize hp : path.dropWhile (· = 47) = p at hle
    by_cases h0 : byte0 p = 0
    · rw [components_end h0]
      simp
    · have h47 : byte0 p ≠ 47 := by
        simpa [hp] using (byte0_dropWhile (· = 47) path).resolve_left (hp ▸ h0)
      obtain ⟨hcons, hlt⟩ := components_word h0 h47
      rw [hcons]
      intro name hname
      rcases List.mem_cons.mp hname with rfl | hname
      · refine ⟨?_, fun c hc => List.all_eq_true.mp List.all_takeWhile c (List.mem_of_mem_take hc)⟩
        cases p with
        | nil => exact absurd rfl h0
        | cons c p => simp [List.takeWhile_cons_of_pos (inName_iff.mpr ⟨h47, h0⟩ : inName c = true)]
      · exact ih _ (by omega) _ rfl name hname

/-- No path has a name for an entry under the empty name, or under a name with a '/'. -/
theorem namecmp_component {path : Str} (hname : name ∈ components path)
    (hodd : cname 14 username = [] ∨ 47 ∈ cname 14 username) : namecmp name username ≠ 0 := by
  obtain ⟨hne, hin⟩ := inName_of_mem_components path name hname
  have h0 : (0 : UInt8) ∉ name := fun hc => (inName_iff.mp (hin 0 hc)).2 rfl
  rw [Ne, namecmp, strncmp_eq_zero, cname_eq_take h0]
  intro heq
  rcases hodd with hnil | hslash
  · rw [hnil, List.take_eq_nil_iff] at heq
    exact heq.elim (by decide) hne
  · rw [← heq] at hslash
    exact (inName_iff.mp (hin 47 (List.mem_of_mem_take hslash))).1 rfl

end

/-- `addUser` of the user "u", by the first process. -/
def addU : Call := .addUser (some [117]) (some [117])

end Xv6
