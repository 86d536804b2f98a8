/-
# The kernel reads the image of mkfs

mkfs and fs.c have the layout of the file system in common and no code. What the kernel finds under
`/` and the name of a file is the file: `namei` gets to the inode that mkfs made for it, and `readi`
returns the bytes that `iappend` was given. The entries that `dirlookup` passes on the way are those
of the files before; it does not get to the part of the root directory for which there may be no
block.
-/
import Xv6.MkfsImage
import Xv6.Fs.Walk

namespace Xv6.Mkfs

open Prog
open Function (update_self update_of_ne)
open List (flatten_cons getD_eq_getElem?_getD getD_cons_succ length_cons)

/-! ### Names -/

theorem strip_sub {name : Str} {c : UInt8} (h : c ∈ strip name) : c ∈ name := by
  unfold strip at h
  split at h
  · exact List.mem_cons_of_mem _ h
  · exact h

/-- All of it is in the name. -/
theorem span_inName : ∀ {t : Str}, 47 ∉ t → 0 ∉ t →
    t.takeWhile (fun c => decide (c ≠ 47 ∧ c ≠ 0)) = t ∧
    t.dropWhile (fun c => decide (c ≠ 47 ∧ c ≠ 0)) = []
  | [], _, _ => ⟨rfl, rfl⟩
  | c :: t, hs, h0 => by
    rw [List.mem_cons, not_or] at hs h0
    obtain ⟨htake, hdrop⟩ := span_inName hs.2 h0.2
    have hc : decide (c ≠ 47 ∧ c ≠ 0) = true := decide_eq_true ⟨Ne.symm hs.1, Ne.symm h0.1⟩
    rw [List.takeWhile_cons, List.dropWhile_cons, if_pos hc, if_pos hc, htake]
    exact ⟨rfl, hdrop⟩

/-- The only element of a path. -/
theorem skipelem_single : ∀ {t : Str}, t ≠ [] → 47 ∉ t → 0 ∉ t → skipelem (47 :: t) = some (t.take 14, [])
  | [], hne, _, _ => absurd rfl hne
  | c :: t, _, hs, h0 => by
    obtain ⟨htake, hrest⟩ := span_inName hs h0
    rw [List.mem_cons, not_or] at hs h0
    have hdrop : (47 :: c :: t).dropWhile (· = 47) = c :: t := by
      rw [List.dropWhile_cons_of_pos (by rfl), List.dropWhile_cons_of_neg (by simpa using Ne.symm hs.1)]
    have hbyte : byte0 (c :: t) ≠ 0 := Ne.symm h0.1
    unfold skipelem
    simp only [hdrop, if_neg hbyte, htake, hrest, List.dropWhile_nil]

/-! ### The root directory -/

/-- The entries of the files, the first with inode `i`. -/
def fileEntries : ℕ → List HostFile → List Str
  | _, [] => []
  | i, f :: fs => Dirent.bytes i (strip f.name) :: fileEntries (i + 1) fs

/-- The entries of the root directory. -/
def rootEntries (files : List HostFile) : List Str :=
  Dirent.bytes ROOTINO dot :: Dirent.bytes ROOTINO dotdot :: fileEntries 2 files

theorem filled_flatten : ∀ (fs : List HostFile) (A : ℕ → Str) (i : ℕ), 2 ≤ i →
    filled A i fs ROOTINO = A ROOTINO ++ (fileEntries i fs).flatten
  | [], A, i, _ => (List.append_nil _).symm
  | f :: fs, A, i, hi => by
    have hne : ROOTINO ≠ i := by
      show 1 ≠ i
      omega
    rw [filled, filled_flatten fs _ (i + 1) (by omega), update_of_ne hne, update_self, List.append_assoc,
      fileEntries, flatten_cons]

theorem contents_root (files : List HostFile) : contents files ROOTINO = (rootEntries files).flatten := by
  rw [contents, filled_flatten _ _ _ le_rfl, update_self, rootEntries, flatten_cons,
    flatten_cons, List.append_assoc]

/-- Later files change no inode before theirs. -/
theorem filled_lt : ∀ (fs : List HostFile) (A : ℕ → Str) (i j : ℕ), 2 ≤ j → j < i → filled A i fs j = A j
  | [], A, i, j, _, _ => rfl
  | f :: fs, A, i, j, h2, hj => by
    have hne : j ≠ ROOTINO := by
      show j ≠ 1
      omega
    rw [filled, filled_lt fs _ (i + 1) j h2 (by omega), update_of_ne (by omega), update_of_ne hne]

theorem filled_file : ∀ (fs : List HostFile) (A : ℕ → Str) (i k : ℕ) (f : HostFile), 2 ≤ i →
    fs[k]? = some f → filled A i fs (i + k) = f.bytes
  | [], _, _, _, _, _, hf => by cases hf
  | g :: fs, A, i, 0, f, hi, hf => by
    cases hf
    rw [Nat.add_zero, filled, filled_lt fs _ (i + 1) i hi (by omega), update_self]
  | g :: fs, A, i, k + 1, f, hi, hf => by
    rw [filled, show i + (k + 1) = i + 1 + k by ring]
    exact filled_file fs _ (i + 1) k f (by omega) hf

theorem fileEntries_get : ∀ (fs : List HostFile) (i k : ℕ), (fileEntries i fs)[k]? =
    fs[k]?.map fun f => Dirent.bytes (i + k) (strip f.name)
  | [], _, _ => rfl
  | f :: fs, i, 0 => rfl
  | f :: fs, i, k + 1 => by
    rw [fileEntries, List.getElem?_cons_succ, fileEntries_get fs (i + 1) k, List.getElem?_cons_succ,
      show i + 1 + k = i + (k + 1) by ring]

theorem flatten_getD : ∀ (L : List Str) (j x : ℕ), (∀ e ∈ L, e.length = 16) → x < 16 →
    L.flatten.getD (16 * j + x) 0 = (L.getD j []).getD x 0
  | [], j, x, _, _ => by simp
  | e :: L, 0, x, h, hx => by
    have he := h e List.mem_cons_self
    rw [flatten_cons, Nat.mul_zero, Nat.zero_add, getD_eq_getElem?_getD,
      List.getElem?_append_left (by omega),
      List.getD_cons_zero, getD_eq_getElem?_getD]
  | e :: L, j + 1, x, h, hx => by
    have he := h e List.mem_cons_self
    rw [flatten_cons, getD_cons_succ,
      ← flatten_getD L j x (fun e he => h e (List.mem_cons_of_mem _ he)) hx,
      getD_eq_getElem?_getD, List.getElem?_append_right (by omega), getD_eq_getElem?_getD]
    congr 2
    omega

/-! ### The cache of inodes -/

/-- No inode is locked, what has been read of the inodes in use is what the disk has, and there is
room for references. -/
structure Settled (fs : Fs) : Prop where
  lock : ∀ k, (fs.icache k).lock = false
  copy : ∀ k, 0 < (fs.icache k).ref → (fs.icache k).dev = ROOTDEV → (fs.icache k).valid = true →
    (fs.icache k).d = inoOf sb fs.disk (fs.icache k).inum
  room : ∀ k, ∃ l, l ≠ k ∧ (fs.icache l).ref = 0
  small : ∀ k, (fs.icache k).ref < INT_MAX

/-- The entry is in use for the inode. Nobody has locked it, and if it has been read, it is a copy
of the disk's. -/
structure Entry (fs : Fs) (i : ℕ) (k : Slot) : Prop where
  dev : (fs.icache k).dev = ROOTDEV
  inum : (fs.icache k).inum = i
  ref : 0 < (fs.icache k).ref
  lock : (fs.icache k).lock = false
  copy : (fs.icache k).valid = true → (fs.icache k).d = inoOf sb fs.disk i

section

variable {fs fs' : Fs} {j k : Slot} {inum : ℕ} {E : Stop → Prop} {v m n : ℕ} {name : Str} {msg : String}

/-- What `iget` returns. -/
theorem entry_of_got (h : Got ROOTDEV inum fs k fs') (hlock : (fs.icache k).lock = false)
    (hcopy : 0 < (fs.icache k).ref → (fs.icache k).dev = ROOTDEV → (fs.icache k).valid = true →
      (fs.icache k).d = inoOf sb fs.disk (fs.icache k).inum) :
    Entry fs' inum k ∧ fs'.disk = fs.disk ∧ ∀ j, j ≠ k → fs'.icache j = fs.icache j := by
  obtain ⟨hpos, hdev, rfl, rfl⟩ | ⟨-, -, rfl⟩ := h <;>
    refine ⟨⟨?_, ?_, ?_, ?_, fun hv => ?_⟩, rfl, fun j hj => Fs.setInode_ne hj⟩ <;>
      simp only [Fs.setInode_self] at *
  · exact hdev
  · omega
  · exact hlock
  · exact hcopy hpos hdev hv
  · exact one_pos
  · exact hlock
  · cases hv

/-- The lock reads the inode, if nobody has before. -/
theorem Entry.ilock (h : Entry fs inum k) (htype : (inoOf sb fs.disk inum).type ≠ 0) :
    Sat (ilock sb k) fs (fun _ fs' => fs' = fs.setInode k
      { fs.icache k with lock := true, valid := true, d := inoOf sb fs.disk inum }) E := by
  refine (sat_ilock h.ref h.lock ?_ fun _ => ?_).post fun _ _ hs => ?_
  · rw [h.inum]
    exact h.copy
  · rwa [h.inum]
  · rwa [h.inum] at hs

/-- An inode with links is only unlocked and put. -/
theorem iunlockput_linked (hpos : 0 < (fs.icache k).ref) (hlock : (fs.icache k).lock = true)
    (hnlink : (fs.icache k).d.nlink ≠ 0) : Sat (iunlockput sb k) fs (fun _ fs' => fs' = fs.setInode k
      { fs.icache k with lock := false, ref := (fs.icache k).ref - 1 }) E := by
  refine (sat_iunlock hpos hlock).bind ?_
  rintro _ _ rfl
  refine (sat_iput (by simp) (.inr (.inl (by simpa using hnlink)))).post fun _ _ h => h.trans ?_
  rw [Fs.setInode_self, Fs.setInode_setInode]

/-- `readi` over the whole size. -/
theorem readi_all (htype : (fs.icache k).d.type ≠ T_DEV) (hs : Shaped fs.disk (fs.icache k).d v)
    (hv : v ≤ MAXFILE * BSIZE) (hsize : (fs.icache k).d.size.toNat = v) : Sat (readi sb k 0 v) fs
      (fun buf _ => buf = some ((List.range v).map fun x => byteOf fs.disk (fs.icache k).d x)) E := by
  refine .get_bind (.ite (fun h => absurd h htype) fun _ => .ite (fun h => ?_) fun _ => ?_)
  · omega
  · rw [if_neg (by omega)]
    refine (read_readLoop hs (fun h => absurd h (by omega)) v 0 v le_rfl (by omega)).bind ?_
    rintro buf _ ⟨rfl, rfl⟩
    simp only [Nat.zero_add]
    exact .pure rfl

/-! ### Looking up a name -/

theorem readDirent_sat (htype : (fs.icache k).d.type ≠ T_DEV)
    (hs : Shaped fs.disk (fs.icache k).d v) (hv : v ≤ MAXFILE * BSIZE) (hj : 16 * n + 16 ≤ v)
    (hsize : v ≤ (fs.icache k).d.size.toNat) : Sat (readDirent sb k (16 * n) msg) fs
      (fun de fs' => fs' = fs ∧ de = entryOf fs.disk (fs.icache k).d n) E := by
  have hmaxfile := maxfile_bytes
  refine .bind (Q := fun buf fs' => fs' = fs ∧
    buf = some ((List.range 16).map fun x => byteOf fs.disk (fs.icache k).d (16 * n + x)))
    ?_ ?_
  · refine .get_bind (.ite (fun h => absurd h htype) fun _ => .ite (fun h => ?_) fun _ => ?_)
    · omega
    · rw [if_neg (by omega)]
      refine (read_readLoop hs (fun h => absurd h (by omega)) 16 (16 * n) 16 le_rfl hj).bind ?_
      rintro buf _ ⟨rfl, rfl⟩
      exact .pure ⟨rfl, rfl⟩
  · rintro _ _ ⟨rfl, rfl⟩
    refine .ite (fun _ => .pure ⟨rfl, rfl⟩) fun h => absurd ?_ h
    rw [List.length_map, List.length_range]

/-- The loop of `dirlookup` gets to the first entry with the name. -/
theorem lookupFrom_sat {Q : Slot → Fs → Prop} (htype : (fs.icache k).d.type ≠ T_DEV)
    (hs : Shaped fs.disk (fs.icache k).d v) (hv : v ≤ MAXFILE * BSIZE) (hm : 16 * m + 16 ≤ v)
    (hsize : v ≤ (fs.icache k).d.size.toNat)
    (hbefore : ∀ j < m, ¬Matches name (entryOf fs.disk (fs.icache k).d j))
    (hat : Matches name (entryOf fs.disk (fs.icache k).d m))
    (hget : Sat (iget (fs.icache k).dev (entryOf fs.disk (fs.icache k).d m).inum) fs Q E) :
    ∀ (fuel n : ℕ), n ≤ m → m < n + fuel → Sat (lookupFrom sb k name fuel (16 * n)) fs (fun r fs' =>
      ∃ j, r = some (j, 16 * m) ∧ Q j fs') E
  | 0, n, hn, hfuel => by omega
  | fuel + 1, n, hn, hfuel => by
    refine .get_bind (.ite (fun h => absurd h (by omega)) fun _ => ?_)
    refine (readDirent_sat htype hs hv (by omega) hsize).bind ?_
    rintro _ _ ⟨hfs, rfl⟩
    cases hfs.symm
    by_cases heq : n = m
    · subst heq
      refine .ite (fun _ => hget.bind fun j fs' hj => .pure ⟨j, rfl, hj⟩) fun h => absurd hat h
    · refine .ite (fun h => absurd h (hbefore n (by omega))) fun _ => ?_
      exact lookupFrom_sat htype hs hv hm hsize hbefore hat hget fuel (n + 1) (by omega) (by omega)

/-- The path `/t` leads to the inode in the first entry with the name `t`. -/
theorem namei_sat {t : Str} {c : Caller} {d : Dinode} (hset : Settled fs)
    (hd : inoOf sb fs.disk ROOTINO = d) (hdir : d.type = T_DIR) (hsearch : searchable c.id d = true)
    (hnlink : d.nlink ≠ 0) (hs : Shaped fs.disk d v) (hv : v ≤ MAXFILE * BSIZE)
    (hm : 16 * m + 16 ≤ v) (hsize : v ≤ d.size.toNat) (hne : t ≠ []) (hslash : 47 ∉ t)
    (hnul : 0 ∉ t) (hbefore : ∀ j < m, ¬Matches (t.take 14) (entryOf fs.disk d j))
    (hat : Matches (t.take 14) (entryOf fs.disk d m)) (hinum : (entryOf fs.disk d m).inum = inum)
    (hroot : inum ≠ ROOTINO) :
    Sat (namei sb c (47 :: t)) fs (fun r fs' => ∃ k, r = some k ∧ fs'.disk = fs.disk ∧
      Entry fs' inum k) E := by
  refine .bind (Q := fun r fs' => ∃ k name, r = some (k, name) ∧ fs'.disk = fs.disk ∧
    Entry fs' inum k) ?_ ?_
  swap
  · rintro _ fs' ⟨k, name, rfl, h⟩
    exact .pure ⟨k, rfl, h⟩
  refine .bind (Q := fun k fs' => Entry fs' ROOTINO k ∧ fs'.disk = fs.disk ∧ ∀ j, j ≠ k →
    fs'.icache j = fs.icache j) ?_ ?_
  · refine .ite (fun _ => ?_) fun h => absurd rfl h
    refine (sat_iget (fun hfull => ?_) fun k hmax => ?_).post fun k _ hgot =>
      entry_of_got hgot (hset.lock k) (hset.copy k)
    · obtain ⟨l, -, hl⟩ := hset.room 0
      exact absurd hl (hfull l)
    · exact absurd hmax (hset.small k).ne
  rintro k0 fs1 ⟨hk0, hdisk1, hother1⟩
  rw [length_cons, namexFrom, skipelem_single hne hslash hnul]
  refine (hk0.ilock ?_).bind ?_
  · rw [hdisk1, hd, hdir]
    decide
  rintro _ _ rfl
  rw [hdisk1, hd]
  generalize hfs2 : fs1.setInode k0 _ = fs2
  have hroot2 : fs2.icache k0 = { fs1.icache k0 with lock := true, valid := true, d := d } := by
    rw [← hfs2, Fs.setInode_self]
  have hother : ∀ j, j ≠ k0 → fs2.icache j = fs.icache j :=
    fun j hj => by rw [← hfs2, Fs.setInode_ne hj, hother1 j hj]
  have hdisk : fs2.disk = fs.disk := by rw [← hfs2, Fs.setInode_disk, hdisk1]
  have hd2 : (fs2.icache k0).d = d := by rw [hroot2]
  have hin2 : (fs2.icache k0).inum = ROOTINO := by rw [hroot2]; exact hk0.inum
  have hpos2 : 0 < (fs2.icache k0).ref := by rw [hroot2]; exact hk0.ref
  refine .get_bind ?_
  rw [hd2]
  refine .ite (fun h => by simp [hsearch] at h) fun _ => .ite (fun h => absurd hdir h) fun _ =>
    .ite (fun h => absurd h.1 (by decide)) fun _ => ?_
  refine .bind (Q := fun r fs' => ∃ j, r = some (j, 16 * m) ∧ j ≠ k0 ∧ Entry fs' inum j ∧
    fs'.disk = fs.disk ∧
    ∀ l, l ≠ j → fs'.icache l = fs2.icache l) ?_ ?_
  · refine .get_bind (.ite (fun _ => ?_) fun h => absurd (hd2 ▸ hdir) h)
    refine lookupFrom_sat ?_ ?_ hv hm ?_ ?_ ?_ ?_ _ 0 (Nat.zero_le m) ?_
    · rw [hd2, hdir]
      decide
    · rwa [hd2, hdisk]
    · rwa [hd2]
    · rwa [hd2, hdisk]
    · rwa [hd2, hdisk]
    · rw [hd2, hdisk, hinum, hroot2]
      simp only [hk0.dev]
      have hfar : ∀ j, (fs2.icache j).inum = inum → j ≠ k0 := fun j hj heq =>
        hroot (hj.symm.trans (heq ▸ hin2))
      refine (sat_iget (fun hfull => ?_) fun j hmax _ hj => ?_).post fun j fs3 hgot => ?_
      · obtain ⟨l, hl, h0⟩ := hset.room k0
        exact absurd (hother l hl ▸ h0) (hfull l)
      · rw [hother j (hfar j hj)] at hmax
        exact absurd hmax (hset.small j).ne
      · have hj : j ≠ k0 := by
          obtain ⟨-, -, hj, -⟩ | ⟨h0, -, -⟩ := hgot
          · exact hfar j hj
          · exact fun heq => hpos2.ne' (heq ▸ h0)
        have hentry := entry_of_got hgot (by rw [hother j hj]; exact hset.lock j)
          (by rw [hother j hj, hdisk]; exact hset.copy j)
        rw [hdisk] at hentry
        exact ⟨hj, hentry⟩
    · rw [Inode.rounds, hd2]
      omega
  rintro _ fs3 ⟨j, rfl, hj, hentry, hdisk3, hother3⟩
  have hk3 : fs3.icache k0 = fs2.icache k0 := hother3 k0 hj.symm
  refine (iunlockput_linked ?_ ?_ ?_).bind ?_
  · rwa [hk3]
  · rw [hk3, hroot2]
  · rwa [hk3, hd2]
  rintro _ _ rfl
  have hdone : ∀ (n : ℕ) (fs : Fs) (Q : Option (Slot × Str) → Fs → Prop), Q (some (j, t.take 14)) fs →
      Sat (namexFrom sb c false n j [] (t.take 14)) fs Q E := by
    intro n fs Q hQ
    cases n with
    | zero | succ => exact hQ
  refine hdone _ _ _ ⟨j, _, rfl, hdisk3, ?_⟩
  constructor <;> simp only [Fs.setInode_ne hj, Fs.setInode_disk]
  · exact hentry.dev
  · exact hentry.inum
  · exact hentry.ref
  · exact hentry.lock
  · exact hentry.copy

end

/-! ### The image -/

/-- The kernel finds a file of root with these bytes under the path. -/
def ReadsAs (c : Caller) (path : Str) (fs : Fs) (bytes : Str) : Prop :=
  Sat (namei sb c path) fs (fun r fs₁ => ∃ k, r = some k ∧ Sat (ilock sb k) fs₁ (fun _ fs₂ =>
    (fs₂.icache k).d.type = T_FILE ∧ (fs₂.icache k).d.id = Ident.ofStr root ∧
      Sat (readi sb k 0 (fs₂.icache k).d.size.toNat) fs₂ (fun buf _ => buf = some bytes) fun _ => False)
    fun _ => False) fun _ => False

/-- The kernel gets from the image what was put into it. -/
structure Agrees (s : Image) (files : List HostFile) : Prop where
  /-- The superblock has the fields that the kernel works with. -/
  super : ∀ k < 7, (s.disk 1).word32 (4 * k) = UInt32.ofNat (sbWords.getD k 0)
  /-- Under the name of a file, or what else has the same first `DIRSIZ` bytes, is the file. -/
  reads : ∀ f ∈ files, ∀ t : Str, t.take 14 = (strip f.name).take 14 → 47 ∉ t → 0 ∉ t →
    ∀ (c : Caller) (fs : Fs),
    fs.disk = s.disk → Settled fs → ReadsAs c (47 :: t) fs f.bytes
  range : ∀ i n, i < NINODES → ptr s.disk (dinodeAt sb s.disk i) n ≠ 0 →
    nmeta ≤ ptr s.disk (dinodeAt sb s.disk i) n ∧ ptr s.disk (dinodeAt sb s.disk i) n < s.freeblock
  distinct : ∀ i j n m, i < NINODES → j < NINODES → ptr s.disk (dinodeAt sb s.disk i) n ≠ 0 →
    ptr s.disk (dinodeAt sb s.disk i) n = ptr s.disk (dinodeAt sb s.disk j) m → i = j ∧ n = m
  used : ∀ b < FSSIZE, usedAt sb s.disk b = true ↔ b < s.freeblock

/-- The names are such that each file can be found. -/
structure Named (files : List HostFile) : Prop where
  nonempty : ∀ f ∈ files, strip f.name ≠ []
  dots : ∀ f ∈ files, strip f.name ≠ dot ∧ strip f.name ≠ dotdot
  distinct : (files.map fun f => (strip f.name).take 14).Nodup

theorem bitmap_succ (n : ℕ) : bitmap (n + 1) = setMark (bitmap n) n true := by
  rw [bitmap, List.range_succ, List.foldl_append]
  rfl

theorem marked_bitmap : ∀ (used b : ℕ), marked (bitmap used) b = decide (b < used)
  | 0, b => by
    show decide (0 &&& mask b ≠ 0) = _
    simp
  | used + 1, b => by
    rw [bitmap_succ, marked_setMark, marked_bitmap used b]
    by_cases h : b = used
    · rw [if_pos h, h, decide_eq_true (Nat.lt_succ_self used)]
    · rw [if_neg h]
      exact decide_eq_decide.mpr (by omega)

section

variable {s : Image} {A : ℕ → Str} {i n : ℕ} {files : List HostFile} {f : HostFile} {k : ℕ}
  {t : Str}

theorem ptr_copyId (D : Disk) (d : Dinode) (n : ℕ) : ptr D d.copyId n = ptr D d n :=
  ptr_congr rfl (fun _ => rfl) n

section

variable (h : Made s A) (hi : 1 ≤ i) (hlt : i < s.freeinode)
include h hi hlt

theorem Made.ptr_inoOf (n : ℕ) :
    ptr (finish s).disk (inoOf sb (finish s).disk i) n = ptr s.disk (dinodeAt sb s.disk i) n := by
  rw [inoOf, ptr_copyId, h.ptr_finish hi hlt n]

theorem Made.shaped : Shaped (finish s).disk (inoOf sb (finish s).disk i) (A i).length := by
  refine shaped_iff.mpr fun n hn => ?_
  rw [h.ptr_inoOf hi hlt]
  exact (h.held i hi hlt).blocks n hn

theorem Made.byteOf_finish {x : ℕ}
    (hx : x < (A i).length) : byteOf (finish s).disk (inoOf sb (finish s).disk i) x = (A i).getD x 0 := by
  rw [← h.data i hi hlt x hx, byteOf, byteOf, h.ptr_inoOf hi hlt]
  by_cases hne : x / 512 < 135 ∧ ptr s.disk (dinodeAt sb s.disk i) (x / 512) ≠ 0
  · rw [if_pos hne, if_pos hne, finish_data ((h.held i hi hlt).range _ hne.2).1]
  · rw [if_neg hne, if_neg hne]

end

theorem fileEntries_length : ∀ (fs : List HostFile) (i : ℕ), ∀ e ∈ fileEntries i fs, e.length = 16
  | [], _, e, he => by cases he
  | f :: fs, i, e, he => by
    rcases List.mem_cons.mp he with rfl | he
    · exact length_dirent ..
    · exact fileEntries_length fs (i + 1) e he

theorem rootEntries_length {e : Str} (he : e ∈ rootEntries files) : e.length = 16 := by
  rcases List.mem_cons.mp he with rfl | he
  · exact length_dirent ..
  rcases List.mem_cons.mp he with rfl | he
  · exact length_dirent ..
  · exact fileEntries_length files 2 e he

theorem length_fileEntries : ∀ (fs : List HostFile) (i : ℕ), (fileEntries i fs).length = fs.length
  | [], _ => rfl
  | f :: fs, i => by rw [fileEntries, length_cons, length_fileEntries fs (i + 1), length_cons]

/-- Entry `j` of the root directory. -/
theorem Made.entryOf_root (h : Made s (contents files)) (hlt : 1 < s.freeinode)
    (hn : n < files.length + 2) : entryOf (finish s).disk (inoOf sb (finish s).disk ROOTINO) n =
    Dirent.ofBytes ((rootEntries files).getD n []) := by
  have hlen : n < (rootEntries files).length := by
    rw [rootEntries, length_cons, length_cons, length_fileEntries]
    exact hn
  have he : (rootEntries files).getD n [] ∈ rootEntries files := by
    rw [getD_eq_getElem?_getD, List.getElem?_eq_getElem hlen, Option.getD_some]
    exact List.getElem_mem hlen
  rw [entryOf, ← map_range_getD (rootEntries_length he)]
  congr 1
  refine List.map_congr_left fun x hx => ?_
  rw [List.mem_range] at hx
  rw [h.byteOf_finish le_rfl hlt (by rw [length_root]; omega), contents_root]
  exact flatten_getD _ n x (fun e => rootEntries_length) hx

/-- The entry of file `k`. -/
theorem Made.entryOf_file (h : Made s (contents files)) (hinode : s.freeinode = files.length + 2)
    (hk : files[k]? = some f) : entryOf (finish s).disk (inoOf sb (finish s).disk ROOTINO)
    (k + 2) = ⟨k + 2, strncpy (strip f.name) 14⟩ := by
  have hlt : k < files.length := (List.getElem?_eq_some_iff.mp hk).1
  have h200 := h.inodes
  rw [h.entryOf_root (by omega) (by omega), rootEntries, getD_cons_succ, getD_cons_succ,
    getD_eq_getElem?_getD,
    fileEntries_get, hk, Option.map_some, Option.getD_some, Dirent.ofBytes_bytes (by omega), Nat.add_comm]

theorem matches_iff {name : Str} : Matches name ⟨i, strncpy t 14⟩ ↔ i ≠ 0 ∧ cname 14 name =
    cname 14 t := by
  rw [Matches, namecmp, strncmp_eq_zero, cname_strncpy]

theorem eq_of_take {u : Str} (h : t.take 14 = u) (hu : u.length < 14) : t = u := by
  rw [← h, List.length_take] at hu
  rw [← h, List.take_of_length_le (by omega)]

/-- Which entry of the root directory has the name. -/
theorem Made.matches_root (h : Made s (contents files)) (hinode : s.freeinode = files.length + 2)
    (hnamed : Named files) (hk : files[k]? = some f)
    (ht : t.take 14 = (strip f.name).take 14) (hnul : 0 ∉ t) :
    Matches (t.take 14) (entryOf (finish s).disk (inoOf sb (finish s).disk ROOTINO) (k + 2)) ∧
      ∀ j < k + 2, ¬Matches (t.take 14)
      (entryOf (finish s).disk (inoOf sb (finish s).disk ROOTINO) j) := by
  have hlt : k < files.length := (List.getElem?_eq_some_iff.mp hk).1
  have hmem := List.mem_of_getElem? hk
  have hname : cname 14 (t.take 14) = t.take 14 := by
    rw [cname_eq_take fun hm => hnul (List.mem_of_mem_take hm), List.take_take, min_self]
  have hfile : ∀ g : HostFile, cname 14 (strip g.name) = (strip g.name).take 14 := fun g =>
    cname_eq_take fun hm => g.nul (strip_sub hm)
  refine ⟨?_, fun j hj hmatch => ?_⟩
  · rw [h.entryOf_file hinode hk, matches_iff, hname, hfile, ht]
    exact ⟨by omega, rfl⟩
  · match j, hj, hmatch with
    | 0, _, hmatch =>
      rw [h.entryOf_root (by omega) (by omega), rootEntries, List.getD_cons_zero,
        Dirent.ofBytes_bytes (by decide), matches_iff, hname,
        ht] at hmatch
      exact (hnamed.dots f hmem).1 (eq_of_take hmatch.2 (by decide))
    | 1, _, hmatch =>
      rw [h.entryOf_root (by omega) (by omega), rootEntries, getD_cons_succ,
        List.getD_cons_zero, Dirent.ofBytes_bytes (by decide),
        matches_iff, hname, ht] at hmatch
      exact (hnamed.dots f hmem).2 (eq_of_take hmatch.2 (by decide))
    | j + 2, hj, hmatch =>
      have hg : files[j]? = some files[j] := List.getElem?_eq_getElem (by omega)
      rw [h.entryOf_file hinode hg, matches_iff, hname, hfile, ht] at hmatch
      have hjk : j = k := by
        refine (List.getElem?_inj ?_ hnamed.distinct).mp ?_
        · rw [List.length_map]
          omega
        · rw [List.getElem?_map, List.getElem?_map, hg, hk, Option.map_some, Option.map_some, hmatch.2]
      omega

theorem Made.root_fields (h : Made s A) (hlt : 1 < s.freeinode) :
    inoOf sb (finish s).disk ROOTINO =
    { newDinode
      T_DIR with size := (dinodeAt sb (finish s).disk ROOTINO).size, addrs :=
      (dinodeAt sb s.disk ROOTINO).addrs } := by
  rw [inoOf, dinodeAt_finish_root, h.fields ROOTINO le_rfl hlt]
  exact copyId_of_id rfl

theorem Made.file_fields (h : Made s A) (hi : 2 ≤ i) (hlt : i < s.freeinode) :
    inoOf sb (finish s).disk i =
    { newDinode
      T_FILE with size := UInt32.ofNat (A i).length, addrs := (dinodeAt sb s.disk i).addrs } := by
  have hne : i ≠ ROOTINO := by
    show i ≠ 1
    omega
  have h200 := h.inodes
  rw [inoOf, dinodeAt_finish (by omega) hne, h.fields i (by omega) hlt, typeOf, if_neg hne]
  exact copyId_of_id rfl

/-- Everybody may search a directory of mkfs. -/
theorem searchable_of_mode (id : Ident) {d : Dinode} (hmode : d.mode = (newDinode T_DIR).mode) :
    searchable id d = true := by
  unfold searchable
  rw [hmode]
  split <;> simp +decide

theorem Made.readsAs (h : Made s (contents files)) (hinode : s.freeinode = files.length + 2)
    (hnamed : Named files) (hfiles : files.length < 199) (hk : files[k]? = some f)
    (ht : t.take 14 = (strip f.name).take 14) (hslash : 47 ∉ t) (hnul : 0 ∉ t) (c : Caller)
    {fs : Fs} (hdisk : fs.disk = (finish s).disk) (hset : Settled fs) :
    ReadsAs c (47 :: t) fs f.bytes := by
  have hlt : k < files.length := (List.getElem?_eq_some_iff.mp hk).1
  have hmem := List.mem_of_getElem? hk
  have hroot := h.root_fields (by omega)
  obtain ⟨hat, hbefore⟩ := h.matches_root hinode hnamed hk ht hnul
  have hone : ROOTINO < s.freeinode := show 1 < s.freeinode by omega
  have hshaped := h.shaped le_rfl hone
  have hsize := h.root_size hone hfiles
  have hbytes : contents files (k + 2) = f.bytes := by
    rw [Nat.add_comm]
    exact filled_file files _ 2 k f le_rfl hk
  have hfile := h.file_fields (by omega) (show k + 2 < s.freeinode by omega)
  have hne : t ≠ [] := by
    rintro rfl
    have hnil : (strip f.name).take 14 = [] := ht.symm
    exact hnamed.nonempty f hmem (eq_of_take hnil (by decide))
  have hinum : (entryOf fs.disk (inoOf sb fs.disk ROOTINO) (k + 2)).inum = k + 2 := by
    rw [hdisk, h.entryOf_file hinode hk]
  refine (namei_sat hset rfl ?_ (searchable_of_mode c.id ?_) ?_ (hdisk ▸ hshaped) ?_ ?_ ?_ hne
    hslash hnul ?_ (hdisk ▸ hat) hinum
    ?_).post ?_
  · rw [hdisk, hroot]
    rfl
  · rw [hdisk, hroot]
  · rw [hdisk, hroot]
    show (newDinode T_DIR).nlink ≠ 0
    decide
  · rw [length_root, maxfile_bytes]
    omega
  · rw [length_root]
    omega
  · rw [length_root, hdisk, hroot]
    show _ ≤ (dinodeAt sb (finish s).disk ROOTINO).size.toNat
    rw [hsize]
    unfold rounded
    omega
  · intro j hj
    rw [hdisk]
    exact hbefore j hj
  · show k + 2 ≠ 1
    omega
  rintro _ fs1 ⟨j, rfl, hdisk1, hentry⟩
  refine ⟨j, rfl, (hentry.ilock ?_).post ?_⟩
  · rw [hdisk1, hdisk, hfile]
    show (newDinode T_FILE).type ≠ 0
    decide
  rintro _ _ rfl
  rw [Fs.setInode_self, hdisk1, hdisk]
  refine ⟨by rw [hfile]; rfl, by rw [hfile]; rfl, ?_⟩
  have hlen := h.size (k + 2) (by omega) (by omega)
  have hsize2 : (inoOf sb (finish s).disk (k + 2)).size.toNat = (contents files (k + 2)).length := by
    rw [hfile]
    exact toNat_ofNat_of_lt (by rw [maxfile_bytes] at hlen; omega)
  rw [hsize2]
  refine (readi_all ?_ ?_ hlen ?_).post ?_
  · rw [Fs.setInode_self, hfile]
    show (newDinode T_FILE).type ≠ T_DEV
    decide
  · rw [Fs.setInode_self, Fs.setInode_disk, hdisk1, hdisk]
    exact h.shaped (by omega) (by omega)
  · rw [Fs.setInode_self]
    exact hsize2
  rintro _ _ rfl
  rw [Fs.setInode_self, Fs.setInode_disk, hdisk1, hdisk, ← hbytes]
  refine congrArg some ?_
  refine Eq.trans (List.map_congr_left fun x hx => ?_) (map_range_getD rfl)
  exact h.byteOf_finish (by omega) (by omega) (List.mem_range.mp hx)

theorem word32_sbBlock {k : ℕ} (hk : k < 7) :
    sbBlock.word32 (4 * k) = UInt32.ofNat (sbWords.getD k 0) := by
  refine Mem.word32_of_bytes fun o ho => ?_
  rw [sbBlock, if_pos (by omega), show (4 * k + o) / 4 = k by omega, show (4 * k + o) % 4 = o by omega]

theorem finish_super : (finish s).disk 1 = s.disk 1 := by
  rw [finish_disk, update_of_ne (by decide), setDinode_super _ _ (by decide)]

theorem usedAt_finish {b : ℕ} (hb : b < FSSIZE) :
    usedAt sb (finish s).disk b = decide (b < s.freeblock) := by
  rw [fssize_eq] at hb
  have hblock : sb.BBLOCK b = sb.bmapstart := by
    show b / 4096 + sb.bmapstart = sb.bmapstart
    omega
  rw [usedAt, hblock, finish_disk, update_self, Nat.mod_eq_of_lt (by omega), marked_bitmap]

/-- **The kernel reads what mkfs has written.** -/
theorem kernel_reads (hnamed : Named files) (hfit : Fits files) (hfiles : files.length + 1 < NINODES) :
    ∃ s, main files start = .ok ((), s) ∧ Agrees s files := by
  have h199 : files.length < 199 := Nat.succ_lt_succ_iff.mp hfiles
  obtain ⟨s, hrun, h, hinode⟩ := main_run h199 hfit
  have hused : ∀ i n, i < 200 → ptr (finish s).disk (dinodeAt sb (finish s).disk i) n ≠ 0 → 1 ≤ i ∧
    i < s.freeinode := by
    intro i n hi hn
    refine not_not.mp fun hout => hn ?_
    refine ptr_zero _ _ ?_
    rw [addrs_finish hi, h.free i (by omega) hi]
    rfl
  refine ⟨_, hrun, fun k hk => ?_, fun f hf t ht hslash hnul c fs hdisk hset => ?_, fun i n hi hn => ?_,
    fun i j n m hi hj hn hnm => ?_, fun b hb => ?_⟩
  · rw [finish_super, h.super]
    exact word32_sbBlock hk
  · obtain ⟨k, hk⟩ := List.mem_iff_getElem?.mp hf
    exact h.readsAs hinode hnamed h199 hk ht hslash hnul c hdisk hset
  · obtain ⟨h1, hlt⟩ := hused i n hi hn
    rw [h.ptr_finish h1 hlt] at hn ⊢
    exact (h.held i h1 hlt).range n hn
  · obtain ⟨h1, hlt⟩ := hused i n hi hn
    obtain ⟨h1', hlt'⟩ := hused j m hj (hnm ▸ hn)
    rw [h.ptr_finish h1 hlt] at hn hnm
    rw [h.ptr_finish h1' hlt'] at hnm
    obtain rfl := h.apart i j n m h1 hlt h1' hlt' hn hnm
    exact ⟨rfl, (h.held i h1 hlt).inj n m hn hnm⟩
  · rw [usedAt_finish hb, decide_eq_true_iff]
    rfl

end

theorem kernel_reads_twoFiles : ∃ s, main twoFiles start = .ok ((), s) ∧ Agrees s twoFiles :=
  kernel_reads ⟨by decide, by decide, by decide⟩ fits_twoFiles (by decide)

end Xv6.Mkfs
