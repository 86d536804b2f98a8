/-
# A directory is a map from names to inodes

The entries of a directory are slots: empty, or with a name and an i-number. Names count as fields
of `DIRSIZ` bytes hold them (`cname 14`). As long as no two entries have the same name, a directory
is a finite map (`dirNames`): dirlookup returns what the map has under the name, dirlink puts a new
name into the first empty entry, or behind the last one, and unlink clears an entry.

dirlink of a name that is there returns -1, but not always: it gives back the inode that it has
found by `iput`, which takes the inode's lock. The name "." leads to the directory itself, and that
is locked by the caller: `link(old, ".")` waits for itself.
-/
import Xv6.FileContents
import Xv6.Fs.Walk
import Xv6.Lib.Slots

namespace Xv6

open Prog

/-- What is in an entry of a directory: the name, as 14 bytes hold it, and the i-number. -/
def dirSlot (D : Disk) (d : Dinode) (j : ℕ) : Option (Str × ℕ) :=
  if (entryOf D d j).inum = 0 then none else some (cname 14 (entryOf D d j).name, (entryOf D d j).inum)

/-- What directory `i` has under a name: the i-number, and the offset of the entry. -/
def dirNames (sb : Superblock) (D : Disk) (i : ℕ) (name : Str) : Option (ℕ × ℕ) :=
  (Slots.lookup (dirSlot D (inoOf sb D i)) ((inoOf sb D i).size.toNat / 16) (cname 14 name)).map
    fun e => (e.1, 16 * e.2)

/-- The first empty entry of directory `i`, or the number of its entries. -/
def firstFree (sb : Superblock) (D : Disk) (i : ℕ) : ℕ :=
  Slots.firstFree (dirSlot D (inoOf sb D i)) ((inoOf sb D i).size.toNat / 16)

/-- Entry `dp` of the cache, locked, is inode `i`: a directory of whole entries in which no name is
twice. -/
structure Directory (sb : Superblock) (s : Fs) (dp : Slot) (i : ℕ) : Prop where
  loaded : Loaded sb s dp i
  sited : Sited sb s.disk i
  type : (inoOf sb s.disk i).type = T_DIR
  whole : (inoOf sb s.disk i).size.toNat % 16 = 0
  max : (inoOf sb s.disk i).size.toNat ≤ MAXFILE * BSIZE
  distinct : Slots.Distinct (dirSlot s.disk (inoOf sb s.disk i)) ((inoOf sb s.disk i).size.toNat / 16)

section

variable {sb : Superblock} {s s' s₁ : Fs} {D : Disk} {d : Dinode} {i j n off m inum dev : ℕ}
  {dp k : Slot} {name src : Str} {msg : String} {E : Stop → Prop}

/-! ### Looking up -/

theorem contents_slice (h : off + n ≤ (inoOf sb D i).size.toNat) :
    ((contents sb D i).drop off).take n = (List.range n).map fun x => byteOf D (inoOf sb D i)
    (off + x) := by
  refine List.ext_getElem? fun x => ?_
  rw [List.getElem?_take, List.getElem?_drop, List.getElem?_map]
  split_ifs with hx
  · rw [getElem?_contents (by omega), List.getElem?_range hx]
    rfl
  · rw [List.getElem?_eq_none (by rw [List.length_range]; omega)]
    rfl

theorem matches_iff_dirSlot : Matches name (entryOf D d j) ↔ (dirSlot D d j).map Prod.fst =
    some (cname 14 name) := by
  rw [matches_cname, dirSlot]
  split_ifs with h
  · simp [h]
  · simp [h, eq_comm]

/-- The map in terms of the entries. -/
theorem dirNames_eq (sb : Superblock) (D : Disk) (i : ℕ) (name : Str) : dirNames sb D i name =
    (findEntry D (inoOf sb D i) name 0).map fun j => ((entryOf D (inoOf sb D i) j).inum, 16 * j) := by
  have hfind : Slots.find (dirSlot D (inoOf sb D i)) ((inoOf sb D i).size.toNat / 16) (cname 14 name) =
      findEntry D (inoOf sb D i) name 0 := by
    rw [Slots.find, findEntry, Nat.sub_zero, List.range_eq_range']
    congr 1
    funext j
    exact decide_eq_decide.mpr matches_iff_dirSlot.symm
  rw [dirNames, Slots.lookup, hfind]
  rcases hf : findEntry D (inoOf sb D i) name 0 with _ | j
  · rfl
  · rw [Option.bind_some, Option.map_map, Option.map_some]
    have hm : Matches name (entryOf D (inoOf sb D i) j) := by
      have := List.find?_some hf
      simpa using this
    rw [dirSlot, if_neg hm.1]
    rfl

theorem run_readDirent (h : Directory sb s dp i) (hj : j < (inoOf sb s.disk i).size.toNat / 16)
    (msg : String) : readDirent sb dp (16 * j) msg s = .ok (entryOf s.disk (inoOf sb s.disk i) j, s) := by
  have hmax := h.max
  have hmaxfile := maxfile_bytes
  obtain ⟨r, s₁, hrun, rfl, rfl⟩ :=
    (sat_readi (E := fun _ => False) h.loaded h.sited (16 * j) 16 fun hlt => by omega).exists_run
  rw [if_neg (by omega), contents_slice (by omega)] at hrun
  have hlen :
    ((List.range 16).map fun x => byteOf s₁.disk (inoOf sb s₁.disk i) (16 * j + x)).length =
      16 := by
    rw [List.length_map, List.length_range]
  rw [readDirent, bind_run hrun]
  simp only [hlen, if_true]
  rfl

theorem run_lookupFrom (h : Directory sb s dp i) (name : Str) (fuel n : ℕ)
    (hfuel : (inoOf sb s.disk i).size.toNat / 16 < n + fuel) : lookupFrom sb dp name fuel (16 * n) s =
      match findEntry s.disk (inoOf sb s.disk i) name n with
      | none => .ok (none, s)
      | some j => (do
        let k ← iget (s.icache dp).dev (entryOf s.disk (inoOf sb s.disk i) j).inum
        pure (some (k, 16 * j)) : FsM (Option (Slot × ℕ))) s := by
  have hwhole := h.whole
  induction fuel generalizing n with
  | zero =>
    rw [findEntry_end (by omega)]
    rfl
  | succ fuel ih =>
    rw [lookupFrom, bind_run (show inode dp s = .ok (s.icache dp, s) from rfl), h.loaded.copy]
    by_cases hle : (inoOf sb s.disk i).size.toNat ≤ 16 * n
    · rw [if_pos hle, findEntry_end (by omega)]
      rfl
    · rw [if_neg hle, bind_run (run_readDirent h (by omega) _), findEntry_step (by omega)]
      by_cases hm : Matches name (entryOf s.disk (inoOf sb s.disk i) n)
      · rw [if_pos hm, if_pos (show _ ∧ _ from hm)]
      · rw [if_neg hm, if_neg (show ¬(_ ∧ _) from hm), show 16 * n + 16 = 16 * (n + 1)
          by omega, ih (n + 1) (by omega)]

/-- **`dirlookup` looks into the map.** -/
theorem run_dirlookup (h : Directory sb s dp i) (name : Str) : dirlookup sb dp name s =
    match dirNames sb s.disk i name with
    | none => .ok (none, s)
    | some (m, off) => (do
      let k ← iget (s.icache dp).dev m
      pure (some (k, off)) : FsM (Option (Slot × ℕ))) s := by
  rw [dirlookup, bind_run (show inode dp s = .ok (s.icache dp, s) from rfl), h.loaded.copy, if_pos h.type,
    show lookupFrom sb dp name (s.icache dp).rounds 0 s = lookupFrom sb dp name (s.icache dp).rounds
      (16 * 0) s from rfl,
    run_lookupFrom h name _ 0 (by rw [Inode.rounds, h.loaded.copy]; omega), dirNames_eq]
  cases findEntry s.disk (inoOf sb s.disk i) name 0 with
  | none | some => rfl

theorem firstFree_spec (sb : Superblock) (D : Disk) (i : ℕ) :
    (∀ j, j < firstFree sb D i → dirSlot D (inoOf sb D i) j ≠ none) ∧
    (firstFree sb D i < (inoOf sb D i).size.toNat / 16 ∧
      dirSlot D (inoOf sb D i) (firstFree sb D i) = none ∨
      firstFree sb D i = (inoOf sb D i).size.toNat / 16) := Slots.firstFree_spec ..

theorem run_emptyFrom (h : Directory sb s dp i) (fuel n : ℕ)
    (hn : n ≤ (inoOf sb s.disk i).size.toNat / 16)
    (hfuel : (inoOf sb s.disk i).size.toNat / 16 < n + fuel)
    (hall : ∀ j, j < n → dirSlot s.disk (inoOf sb s.disk i) j ≠ none) :
    emptyFrom sb dp fuel (16 * n) s = .ok (16 * firstFree sb s.disk i, s) := by
  have hwhole := h.whole
  obtain ⟨hbefore, hat⟩ := firstFree_spec sb s.disk i
  generalize firstFree sb s.disk i = f at hbefore hat ⊢
  -- the loop has not gone past the first empty entry
  have hle : n ≤ f := by
    by_contra hlt
    rcases hat with ⟨-, hnone⟩ | heq
    · exact hall f (by omega) hnone
    · omega
  induction fuel generalizing n with
  | zero => omega
  | succ fuel ih =>
    rw [emptyFrom, bind_run (show inode dp s = .ok (s.icache dp, s) from rfl), h.loaded.copy]
    by_cases hend : (inoOf sb s.disk i).size.toNat ≤ 16 * n
    · have hfn : f = n := by
        rcases hat with ⟨hlt, -⟩ | heq <;> omega
      rw [if_pos hend, hfn]
      rfl
    · rw [if_neg hend, bind_run (run_readDirent h (by omega) _)]
      by_cases h0 : (entryOf s.disk (inoOf sb s.disk i) n).inum = 0
      · have hfn : f = n := by
          by_contra hne
          exact hbefore n (by omega) (by rw [dirSlot, if_pos h0])
        rw [if_pos h0, hfn]
        rfl
      · have hne : dirSlot s.disk (inoOf sb s.disk i) n ≠ none := by
          rw [dirSlot, if_neg h0]
          simp
        have hfn : f ≠ n := fun hfn => by
          rcases hat with ⟨-, hnone⟩ | heq
          · exact hne (hfn ▸ hnone)
          · omega
        rw [if_neg h0, show 16 * n + 16 = 16 * (n + 1) by omega]
        refine ih (n + 1) (by omega) (by omega) (fun j hj => ?_) (by omega)
        rcases Nat.lt_or_ge j n with hlt | hge
        · exact hall j hlt
        · rw [show j = n by omega]
          exact hne

/-! ### Writing an entry -/

/-- The entries after a write of one. -/
theorem Written.entryOf (h : Written sb s dp i (16 * j) src.length (fun x => src.getD x 0) s')
    (hlen : src.length = 16) (hn : 16 * n + 16 ≤ (inoOf sb s'.disk i).size.toNat) :
    entryOf s'.disk (inoOf sb s'.disk i) n =
    if n = j then Dirent.ofBytes src else entryOf s.disk (inoOf sb s.disk i) n := by
  rw [Xv6.entryOf]
  have hbyte : ∀ x, x < 16 → byteOf s'.disk (inoOf sb s'.disk i) (16 * n + x) =
      if n = j then src.getD x 0 else byteOf s.disk (inoOf sb s.disk i) (16 * n + x) := fun x hx => by
    rw [h.byte _ (by omega), Mem.splice]
    by_cases hnj : n = j
    · rw [if_pos (by omega), if_pos hnj, hnj, Nat.add_sub_cancel_left]
    · rw [if_neg (by omega), if_neg hnj]
  by_cases hnj : n = j
  · rw [if_pos hnj, ← map_range_getD hlen]
    congr 1
    exact List.map_congr_left fun x hx => by rw [hbyte x (List.mem_range.mp hx), if_pos hnj]
  · rw [if_neg hnj, Xv6.entryOf]
    congr 1
    exact List.map_congr_left fun x hx => by rw [hbyte x (List.mem_range.mp hx), if_neg hnj]

/-- In a transaction, with room in the log for `n` blocks. -/
def InOp (sb : Superblock) (s : Fs) (n : ℕ) : Prop := 1 ≤ s.outstanding ∧ s.lh.length + n ≤
    LOGSIZE ∧ s.lh.length + n < sb.nlog

theorem InOp.mono (h : InOp sb s n) (hm : m ≤ n) : InOp sb s m :=
  ⟨h.1, by have := h.2.1; omega, by have := h.2.2; omega⟩

/-- At most two blocks are allocated for an entry. -/
theorem newBlocks_entry {size : ℕ} (hoff : off ≤ size) : newBlocks size off 16 ≤ 2 := by
  unfold newBlocks blocksFor
  split <;> split <;> omega

/-- An entry of 16 bytes is written. -/
theorem run_writeEntry (h : Loaded sb s dp i) (hs : Sited sb s.disk i) (hlen : src.length = 16)
    (hoff : 16 * j ≤ (inoOf sb s.disk i).size.toNat) (hmax : 16 * j + 16 ≤ MAXFILE * BSIZE)
    (hop : InOp sb s (2 + 3 * newBlocks (inoOf sb s.disk i).size.toNat (16 * j) 16))
    (hfree : newBlocks (inoOf sb s.disk i).size.toNat (16 * j) 16 ≤ (freeBlocks sb s.disk).card) :
    ∃ s', writei sb dp src (16 * j) s = .ok (some 16, s') ∧ Written sb s dp i (16 * j) src.length
    (fun x => src.getD x 0) s' := by
  obtain ⟨hout, h30, hlog⟩ := hop
  have hmaxfile := maxfile_bytes
  obtain ⟨size, hsize⟩ : ∃ size, size = (inoOf sb s.disk i).size.toNat := ⟨_, rfl⟩
  have hdemand : s.demand sb (0 + logBlocks size (16 * j) 16) (0 + newBlocks size (16 * j) 16) ≤
      s.lh.length + (2 + 3 * newBlocks size (16 * j) 16) := by
    unfold Fs.demand logBlocks rounds
    split_ifs <;> omega
  have hroom : Room sb (fun _ => False) s.outstanding (0 + logBlocks size (16 * j) src.length)
      (0 + newBlocks size (16 * j) src.length) s := by
    rw [hlen]
    rw [← hsize] at h30 hlog hfree
    exact ⟨rfl, fun hno => hno (by omega), by omega, by omega⟩
  rw [hsize] at hroom
  obtain ⟨r, s', hrun, hdone, -⟩ := (sat_writei h hs src (16 * j) hroom).exists_run
  cases r with
  | none =>
    obtain ⟨-, hno⟩ := hdone
    rw [hlen, Nat.mod_eq_of_lt (by omega)] at hno
    omega
  | some n =>
    obtain ⟨hn, -, -, hw⟩ := hdone
    rw [hn, hlen] at hrun
    exact ⟨s', hrun, hw⟩

theorem Written.directory (h : Written sb s dp i off n (fun x => src.getD x 0) s')
    (hd : Directory sb s dp i) (hwhole : (inoOf sb s'.disk i).size.toNat % 16 = 0)
    (hmax : (inoOf sb s'.disk i).size.toNat ≤ MAXFILE * BSIZE)
    (hdist : Slots.Distinct (dirSlot s'.disk (inoOf sb s'.disk i))
      ((inoOf sb s'.disk i).size.toNat / 16)) :
    Directory sb s' dp i :=
  ⟨h.loaded hd.loaded, h.sited, by rw [h.fields]; exact hd.type, hwhole, hmax, hdist⟩

theorem length_bytes (inum : ℕ) (name : Str) : (Dirent.bytes inum name).length = 16 := by
  rw [Dirent.bytes, List.length_cons, List.length_cons, strncpy_length]

theorem namecmp_iff (name name' : Str) : namecmp name name' = 0 ↔ cname 14 name = cname 14 name' :=
  strncmp_eq_zero 14 name name'

/-- How `dirlink` has changed a directory: the name is in the first empty entry, or in a new one if
there is none. -/
structure Linked (sb : Superblock) (s : Fs) (dp : Slot) (i : ℕ) (name : Str) (inum : ℕ) (s' : Fs) :
    Prop where
  directory : Directory sb s' dp i
  names : ∀ name', dirNames sb s'.disk i name' = if namecmp name' name = 0 then
    some (inum, 16 * firstFree sb s.disk i) else dirNames sb s.disk i name'
  size : (inoOf sb s'.disk i).size.toNat =
    if firstFree sb s.disk i < (inoOf sb s.disk i).size.toNat / 16
    then (inoOf sb s.disk i).size.toNat else (inoOf sb s.disk i).size.toNat + 16

/-- There is an empty entry, or the directory may grow by one. -/
def RoomFor (sb : Superblock) (s : Fs) (i : ℕ) : Prop :=
  (∃ j, j < (inoOf sb s.disk i).size.toNat / 16 ∧ dirSlot s.disk (inoOf sb s.disk i) j = none) ∨
    ((inoOf sb s.disk i).size.toNat + 16 ≤ MAXFILE * BSIZE ∧
      newBlocks (inoOf sb s.disk i).size.toNat (inoOf sb s.disk i).size.toNat 16 ≤
        (freeBlocks sb s.disk).card)

/-- The entry `dirlink` writes. -/
theorem Written.linked (h : Written sb s dp i (16 * j) (Dirent.bytes inum name).length
    (fun x => (Dirent.bytes inum name).getD x 0) s') (hd : Directory sb s dp i)
    (hnew : dirNames sb s.disk i name = none) (hpos : 0 < inum) (hlt : inum < 2 ^ 16)
    (hj : j = firstFree sb s.disk i) (hmax : 16 * j + 16 ≤ MAXFILE * BSIZE) : Linked sb s dp i name inum s' := by
  have hlen := length_bytes inum name
  obtain ⟨-, hat⟩ := firstFree_spec sb s.disk i
  rw [← hj] at hat
  have hwhole := hd.whole
  have hmax0 := hd.max
  have hsize := h.size
  rw [hlen] at hsize
  have hsize' : (inoOf sb s'.disk i).size.toNat = if j < (inoOf sb s.disk i).size.toNat / 16 then
      (inoOf sb s.disk i).size.toNat else (inoOf sb s.disk i).size.toNat + 16 := by
    rw [hsize]
    split
    · omega
    · rcases hat with ⟨hlt, -⟩ | heq <;> omega
  obtain ⟨hw', hm'⟩ : (inoOf sb s'.disk i).size.toNat % 16 = 0 ∧ (inoOf sb s'.disk i).size.toNat ≤
    MAXFILE * BSIZE := by
    rw [hsize']
    split
    · exact ⟨hwhole, hmax0⟩
    · rcases hat with ⟨hlt, -⟩ | heq <;> omega
  have hput : Slots.Put (dirSlot s.disk (inoOf sb s.disk i)) ((inoOf sb s.disk i).size.toNat / 16)
      (dirSlot s'.disk (inoOf sb s'.disk i)) ((inoOf sb s'.disk i).size.toNat / 16) j
        (cname 14 name) inum := by
    refine ⟨by omega, by omega, fun hlt => ?_, ?_, fun n hn hnj => ⟨?_, ?_⟩⟩
    · rcases hat with ⟨-, hnone⟩ | heq
      · exact hnone
      · omega
    · rw [dirSlot, h.entryOf hlen (by omega), if_pos rfl, Dirent.ofBytes_bytes (by omega),
        if_neg (show ¬inum = 0 by omega)]
      simp only
      rw [cname_strncpy]
    · rw [hsize'] at hn
      split at hn
      · exact hn
      · rcases hat with ⟨hlt, -⟩ | heq <;> omega
    · rw [dirSlot, dirSlot, h.entryOf hlen (by omega), if_neg hnj]
  have hnone : Slots.lookup (dirSlot s.disk (inoOf sb s.disk i))
    ((inoOf sb s.disk i).size.toNat / 16) (cname 14 name) = none := by
    rw [dirNames, Option.map_eq_none_iff] at hnew
    exact hnew
  refine ⟨h.directory hd hw' hm' (hput.distinct hd.distinct hnone), fun name' => ?_, by rw [hsize', hj]⟩
  rw [dirNames, hput.lookup hd.distinct hnone, dirNames, ← hj]
  by_cases heq : namecmp name' name = 0
  · rw [if_pos heq, if_pos ((namecmp_iff ..).mp heq)]
    rfl
  · rw [if_neg heq, if_neg fun h => heq ((namecmp_iff ..).mpr h)]

/-- **`dirlink` of a new name.** -/
theorem run_dirlink_new (h : Directory sb s dp i) (hnew : dirNames sb s.disk i name = none)
    (hpos : 0 < inum) (hlt : inum < 2 ^ 16) (hop : InOp sb s 8) (hroom : RoomFor sb s i) :
    ∃ s', dirlink sb dp name inum s = .ok (true, s') ∧ Linked sb s dp i name inum s' := by
  obtain ⟨j, hj⟩ : ∃ j, j = firstFree sb s.disk i := ⟨_, rfl⟩
  obtain ⟨hbefore, hat⟩ := firstFree_spec sb s.disk i
  rw [← hj] at hbefore hat
  have hwhole := h.whole
  have hmax := h.max
  have hlook : dirlookup sb dp name s = .ok (none, s) := by rw [run_dirlookup h, hnew]
  have hempty := run_emptyFrom h (s.icache dp).rounds 0 (Nat.zero_le _)
    (by rw [Inode.rounds, h.loaded.copy]; omega)
    fun j hj => absurd hj (Nat.not_lt_zero j)
  rw [← hj, Nat.mul_zero] at hempty
  -- where the entry goes there is room
  obtain ⟨hoff, hend, hfree⟩ : 16 * j ≤ (inoOf sb s.disk i).size.toNat ∧ 16 * j + 16 ≤ MAXFILE * BSIZE ∧
      newBlocks (inoOf sb s.disk i).size.toNat (16 * j) 16 ≤ (freeBlocks sb s.disk).card := by
    rcases hat with ⟨hin, -⟩ | heq
    · refine ⟨by omega, by omega, ?_⟩
      unfold newBlocks
      rw [max_eq_left (by omega), Nat.sub_self]
      exact Nat.zero_le _
    · have h16 : 16 * j = (inoOf sb s.disk i).size.toNat := by omega
      rcases hroom with ⟨a, ha, hnone⟩ | ⟨hgrow, hblocks⟩
      · exact absurd hnone (hbefore a (by omega))
      · exact ⟨by omega, by omega, by rw [h16]; exact hblocks⟩
  obtain ⟨s', hwrite, hw⟩ := run_writeEntry h.loaded h.sited (length_bytes inum name) hoff hend
    (hop.mono (by have := newBlocks_entry hoff; omega)) hfree
  refine ⟨s', ?_, hw.linked h hnew hpos hlt hj hend⟩
  rw [dirlink, bind_run hlook]
  change (inode dp >>= _) s = _
  rw [bind_run (show inode dp s = .ok (s.icache dp, s) from rfl), bind_run hempty, bind_run hwrite,
    if_pos rfl]
  rfl

/-- How clearing its entry has changed a directory. -/
structure Unlinked (sb : Superblock) (s : Fs) (dp : Slot) (i : ℕ) (name : Str) (s' : Fs) : Prop where
  directory : Directory sb s' dp i
  names : ∀ name', dirNames sb s'.disk i name' =
    if namecmp name' name = 0 then none else dirNames sb s.disk i name'
  size : (inoOf sb s'.disk i).size.toNat = (inoOf sb s.disk i).size.toNat

theorem dirNames_eq_some (h : Directory sb s dp i) (hname : dirNames sb s.disk i name = some (m, off)) :
    ∃ j, off = 16 * j ∧ j < (inoOf sb s.disk i).size.toNat / 16 ∧
      dirSlot s.disk (inoOf sb s.disk i) j = some (cname 14 name, m) := by
  obtain ⟨⟨v, j⟩, hl, heq⟩ := Option.map_eq_some_iff.mp hname
  obtain ⟨rfl, rfl⟩ := Prod.mk.inj heq
  obtain ⟨hj, hslot⟩ := (Slots.lookup_eq_some h.distinct).mp hl
  exact ⟨j, rfl, hj, hslot⟩

/-- **Clearing the entry of a name**, as unlink does. -/
theorem run_unlink (h : Directory sb s dp i) (hname : dirNames sb s.disk i name = some (m, off))
    (hop : InOp sb s 2) : ∃ s', writei sb dp Dirent.unused off s = .ok (some 16, s') ∧
    Unlinked sb s dp i name s' := by
  obtain ⟨j, rfl, hj, hslot⟩ := dirNames_eq_some h hname
  have hwhole := h.whole
  have hmax := h.max
  have hlen : Dirent.unused.length = 16 := rfl
  have hnew : newBlocks (inoOf sb s.disk i).size.toNat (16 * j) 16 = 0 := by
    unfold newBlocks
    rw [max_eq_left (by omega), Nat.sub_self]
  obtain ⟨s', hrun, hw⟩ := run_writeEntry (j := j) h.loaded h.sited hlen (by omega) (by omega)
    (by rw [hnew]; exact hop)
    (by rw [hnew]; exact Nat.zero_le _)
  have hsize : (inoOf sb s'.disk i).size.toNat = (inoOf sb s.disk i).size.toNat := by
    rw [hw.size, hlen]
    omega
  have hclear : Slots.Clear (dirSlot s.disk (inoOf sb s.disk i)) ((inoOf sb s.disk i).size.toNat / 16)
      (dirSlot s'.disk (inoOf sb s'.disk i)) j := by
    refine ⟨?_, fun n hn hnj => ?_⟩
    · rw [dirSlot, hw.entryOf (n := j) hlen (by omega), if_pos rfl]
      exact if_pos rfl
    · rw [dirSlot, dirSlot, hw.entryOf (n := n) hlen (by omega), if_neg hnj]
  refine ⟨s', hrun, hw.directory h (by omega) (by omega)
    (by rw [hsize]; exact hclear.distinct h.distinct), fun name' => ?_, hsize⟩
  rw [dirNames, hsize, hclear.lookup h.distinct hj hslot, dirNames]
  by_cases heq : namecmp name' name = 0
  · rw [if_pos heq, if_pos ((namecmp_iff ..).mp heq)]
    rfl
  · rw [if_neg heq, if_neg fun h => heq ((namecmp_iff ..).mpr h)]

/-! ### A name that is there -/

/-- Nothing has changed but entries of the cache that are not in use. -/
structure SameInUse (s s' : Fs) : Prop where
  disk : s'.disk = s.disk
  trace : s'.trace = s.trace
  log : s'.lh = s.lh ∧ s'.outstanding = s.outstanding
  ref : ∀ j, (s'.icache j).ref = (s.icache j).ref
  entry : ∀ j, 0 < (s.icache j).ref → s'.icache j = s.icache j

/-- A directory has what `dirlookup` returns under the name. -/
theorem dirNames_of_dirlookup (h : Directory sb s dp i)
    (hlook : dirlookup sb dp name s = .ok (some (k, off), s₁)) :
    ∃ m, dirNames sb s.disk i name = some (m, off) ∧ (s₁.icache k).inum = m ∧
    iget (s.icache dp).dev m s = .ok (k, s₁) := by
  rw [run_dirlookup h] at hlook
  rcases hn : dirNames sb s.disk i name with _ | ⟨m, o⟩
  · rw [hn] at hlook
    cases hlook
  · rw [hn] at hlook
    obtain ⟨l, s2, hget, hpure⟩ := bind_ok hlook
    have hpair := Prod.mk.inj (Except.ok.inj hpure)
    obtain ⟨rfl, rfl⟩ := Prod.mk.inj (Option.some.inj hpair.1)
    obtain rfl := hpair.2
    refine ⟨m, rfl, ?_, hget⟩
    exact ((inum_iget _ m).of_ok hget).1

/-- `dirlink` of a name that is there is `iput` of the inode under the name. -/
theorem dirlink_found (hlook : dirlookup sb dp name s = .ok (some (k, off), s₁)) (inum : ℕ) :
    dirlink sb dp name inum s = (iput sb k >>= fun _ => pure false) s₁ := by
  rw [dirlink, bind_run hlook]

/-- It returns -1, if the inode under the name is not locked. -/
theorem run_dirlink_old (h : Directory sb s dp i)
    (hlook : dirlookup sb dp name s = .ok (some (k, off), s₁)) (hlock : (s₁.icache k).lock = false)
    (inum : ℕ) : ∃ s', dirlink sb dp name inum s = .ok (false, s') ∧ SameInUse s s' := by
  obtain ⟨m, -, -, hget⟩ := dirNames_of_dirlookup h hlook
  have hgot := iget_got.of_ok hget
  have hkeep : (s₁.icache k).valid = false ∨ (s₁.icache k).d.nlink ≠ 0 ∨ (s₁.icache k).ref ≠ 1 := by
    obtain ⟨hpos, -, -, rfl⟩ | ⟨-, -, rfl⟩ := hgot
    · refine .inr (.inr ?_)
      rw [Fs.setInode_self]
      simp only
      omega
    · exact .inl (by rw [Fs.setInode_self])
  have hsat : Sat (iput sb k) s₁ _ fun _ => False := sat_iput hlock hkeep
  obtain ⟨_, _, hput, rfl⟩ := hsat.exists_run
  refine ⟨_, by rw [dirlink_found hlook, bind_run hput]; rfl, ?_⟩
  obtain ⟨hpos, -, -, rfl⟩ | ⟨hzero, -, rfl⟩ := hgot <;> rw [Fs.setInode_self, Fs.setInode_setInode]
  · have hsame : s.setInode k { s.icache k with ref := (s.icache k).ref + 1 - 1 } =
      s := by simp [Fs.setInode]
    rw [hsame]
    exact ⟨rfl, rfl, ⟨rfl, rfl⟩, fun _ => rfl, fun _ _ => rfl⟩
  · refine ⟨rfl, rfl, ⟨rfl, rfl⟩, fun j => ?_, fun j hj => ?_⟩
    · by_cases hjk : j = k
      · rw [hjk, Fs.setInode_self, hzero]
        rfl
      · rw [Fs.setInode_ne hjk]
    · have hjk : j ≠ k := fun hjk => hj.ne' (hjk ▸ hzero)
      rw [Fs.setInode_ne hjk]

/-- It waits, if the inode is locked. -/
theorem dirlink_waits (hlook : dirlookup sb dp name s = .ok (some (k, off), s₁))
    (hlock : (s₁.icache k).lock = true) (inum : ℕ) : dirlink sb dp name inum s = .error .sleep := by
  have hwait : acquiresleep k s₁ = .error .sleep := by
    rw [acquiresleep, bind_run (show inode k s₁ = .ok (s₁.icache k, s₁) from rfl), if_pos hlock]
    rfl
  rw [dirlink_found hlook, iput, bind_stop (bind_stop hwait)]

/-- The caller has locked the directory, and nothing else is locked. No other entry of the cache is
for it. -/
structure Alone (s : Fs) (dp : Slot) : Prop where
  pos : 0 < (s.icache dp).ref
  lock : ∀ j, (s.icache j).lock = true ↔ j = dp
  uniq : ∀ j, 0 < (s.icache j).ref → (s.icache j).dev = (s.icache dp).dev → (s.icache j).inum =
    (s.icache dp).inum → j = dp

/-- Then the inode under the name is locked if it is the directory. -/
theorem Alone.lock_found (ha : Alone s dp) (h : Directory sb s dp i)
    (hlook : dirlookup sb dp name s = .ok (some (k, off), s₁)) : (s₁.icache k).lock = true ↔
    (s₁.icache k).inum = i := by
  obtain ⟨m, -, -, hget⟩ := dirNames_of_dirlookup h hlook
  obtain ⟨hpos, hdev, -, rfl⟩ | ⟨h0, hnone, rfl⟩ := iget_got.of_ok hget <;>
    rw [Fs.setInode_self] <;> simp only [ha.lock]
  · exact ⟨fun hk => hk ▸ h.loaded.inum, fun hi => ha.uniq k hpos hdev (hi.trans h.loaded.inum.symm)⟩
  · refine ⟨fun hk => absurd ha.pos ?_, fun hm => absurd ⟨rfl, ?_⟩ (hnone dp ha.pos)⟩
    · rw [← hk, h0]
      exact lt_irrefl 0
    · rw [hm, h.loaded.inum]

end

/-- The root directory is locked, in a transaction. -/
def lockedRoot : Fs :=
  { (boot (bareDisk 61) []).fs with
    icache := fun k => if k = 0 then { Inode.zero with
      dev := ROOTDEV, inum := ROOTINO, ref := 1, lock := true, valid := true, d :=
        inoOf smallSb (bareDisk 61) 1 } else Inode.zero
    outstanding := 1 }

set_option maxRecDepth 100000 in
theorem directory_lockedRoot : Directory smallSb lockedRoot 0 1 := by
  have htype : (inoOf smallSb lockedRoot.disk 1).type = T_DIR := by decide +kernel
  have hsize : (inoOf smallSb lockedRoot.disk 1).size.toNat = 32 := by decide +kernel
  have hkeys : ∀ i < 2, ∀ j < 2, (dirSlot lockedRoot.disk (inoOf smallSb lockedRoot.disk 1) i).isSome →
      (dirSlot lockedRoot.disk (inoOf smallSb lockedRoot.disk 1) i).map Prod.fst =
        (dirSlot lockedRoot.disk (inoOf smallSb lockedRoot.disk 1) j).map Prod.fst →
          i = j := by decide +kernel
  have hused : (inoOf smallSb lockedRoot.disk 1).type ≠ 0 := by
    rw [htype]
    decide
  have hfile : (inoOf smallSb lockedRoot.disk 1).type ≠ T_DEV := by
    rw [htype]
    decide
  refine ⟨⟨by decide, rfl, rfl, hused, hfile⟩, fsck_bareDisk.image.diskOk.sited (by decide) hused
    hfile, htype, by rw [hsize],
    by rw [hsize]; decide, ?_⟩
  rw [hsize]
  exact Slots.distinct_of_keys hkeys

end Xv6
