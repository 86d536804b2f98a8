/-
# Path walks

What `namex` does, in full. It follows the names of the path through the directories of the disk
(`follow`), each of which has to pass the search test, and apart from the references that it takes
and gives back it changes nothing (`Walking`).

An inode without links that nobody points at any more is freed by the `iput` of the last reference
to it. No walk does that, provided that the inodes without links are in use before it
(`OrphansHeld`): `iput` then never gives back the last one.

Every result is about a run from a state that stands to the start `s₀` of the walk as it may, and
says both what the run returns and when it gets there: it stops only if `G` fails, where `G` is what
the caller knows about locks, room in the cache and the sizes of directories.
-/
import Xv6.Fs.Writing

namespace Xv6

open Prog
open Multiset (map_cons mem_cons_self mem_cons_of_mem notMem_zero)

/-! ### Names -/

/-- The names in a path: what stands between slashes, up to the NUL. The first `DIRSIZ` bytes count.
-/
def components (path : Str) : List Str :=
  (((path.takeWhile (· ≠ 0)).splitOn 47).filter (· ≠ [])).map (·.take 14)

theorem components_nil : components [] = [] := rfl

theorem components_slash (path : Str) : components (47 :: path) = components path := by
  unfold components
  rw [List.takeWhile_cons_of_pos (by decide), List.splitOn, List.splitOn,
    List.splitOnP_cons_eq_if_modifyHead,
    if_pos (by decide), List.filter_cons_of_neg (by decide)]

theorem components_dropWhile : ∀ path : Str, components (path.dropWhile (· = 47)) = components path
  | [] => rfl
  | c :: path => by
    by_cases hc : c = 47
    · rw [hc, List.dropWhile_cons_of_pos (by decide), components_slash, components_dropWhile path]
    · rw [List.dropWhile_cons_of_neg (by simpa using hc)]

/-- No name where the NUL is. -/
theorem components_end {path : Str} (h : byte0 path = 0) : components path = [] := by
  cases path with
  | nil => rfl
  | cons c path =>
    obtain rfl : c = 0 := h
    rfl

def inName (c : UInt8) : Bool := c ≠ 47 ∧ c ≠ 0

theorem inName_iff {c : UInt8} : inName c = true ↔ c ≠ 47 ∧ c ≠ 0 := decide_eq_true_iff

/-- A name, what ends it, and the rest. -/
theorem components_append {w rest : Str} (hne : w ≠ []) (hw : ∀ c ∈ w, inName c = true)
    (hrest : byte0 rest = 47 ∨ byte0 rest = 0) :
    components (w ++ rest) = w.take 14 :: components rest := by
  have htake : (w ++ rest).takeWhile (· ≠ 0) = w ++ rest.takeWhile (· ≠ 0) :=
    List.takeWhile_append_of_pos fun c hc => by simpa using (inName_iff.mp (hw c hc)).2
  have hsep : ∀ c ∈ w, (c == 47) = false := fun c hc => by simpa using (inName_iff.mp (hw c hc)).1
  rcases hrest with h | h
  · obtain ⟨rest, rfl⟩ : ∃ r, rest = 47 :: r := by
      cases rest with
      | nil => cases h
      | cons c r => exact ⟨r, by rw [show c = 47 from h]⟩
    rw [components_slash]
    unfold components
    rw [htake, List.takeWhile_cons_of_pos (by decide), List.splitOn,
      List.splitOnP_append_cons_of_forall_mem hsep 47 rfl]
    simp [hne, List.splitOn]
  · have hnil : rest.takeWhile (· ≠ 0) = [] := by
      cases rest with
      | nil => rfl
      | cons c r => rw [show c = 0 from h, List.takeWhile_cons_of_neg (by decide)]
    unfold components
    rw [htake, hnil, List.append_nil, List.splitOn, List.splitOnP_eq_singleton hsep]
    simp [hne]

/-- Where `dropWhile` stops. -/
theorem byte0_dropWhile (p : UInt8 → Bool) : ∀ path : Str, byte0 (path.dropWhile p) = 0 ∨
    p (byte0 (path.dropWhile p)) = false
  | [] => .inl rfl
  | c :: path => by
    by_cases hc : p c
    · rw [List.dropWhile_cons_of_pos hc]
      exact byte0_dropWhile p path
    · rw [List.dropWhile_cons_of_neg hc]
      exact .inr (Bool.not_eq_true _ ▸ hc)

/-- A path that begins with a name. -/
theorem components_word {p : Str} (h0 : byte0 p ≠ 0) (h47 : byte0 p ≠ 47) :
    components p = (p.takeWhile inName).take 14 :: components (p.dropWhile inName) ∧
      (p.dropWhile inName).length < p.length := by
  have hstop : byte0 (p.dropWhile inName) = 47 ∨ byte0 (p.dropWhile inName) = 0 := by
    rcases byte0_dropWhile inName p with h | h
    · exact .inr h
    · by_contra hno
      rw [not_or] at hno
      rw [inName_iff.mpr hno] at h
      cases h
  cases p with
  | nil => exact absurd rfl h0
  | cons c q =>
    have hc : inName c = true := inName_iff.mpr ⟨h47, h0⟩
    constructor
    · conv_lhs => rw [← List.takeWhile_append_dropWhile (p := inName) (l := c :: q)]
      refine components_append ?_ (fun c hc => List.all_eq_true.mp List.all_takeWhile c hc) hstop
      rw [List.takeWhile_cons_of_pos hc]
      exact List.cons_ne_nil _ _
    · rw [List.dropWhile_cons_of_pos hc]
      exact Nat.lt_succ_of_le (List.dropWhile_suffix _).length_le

/-- **`skipelem` takes the names of a path one by one.** -/
theorem components_skipelem (path : Str) : (skipelem path = none ∧ components path = []) ∨
    ∃ name rest, skipelem path = some (name, rest) ∧ components path = name :: components rest ∧
      rest.length < path.length ∧ (byte0 rest = 0 ↔ components rest = []) := by
  have hslash : ∀ l : Str, byte0 (l.dropWhile (· = 47)) ≠ 0 → byte0 (l.dropWhile (· = 47)) ≠ 47 :=
    fun l h0 => by
    simpa using (byte0_dropWhile (· = 47) l).resolve_left h0
  obtain ⟨p, hp⟩ : ∃ p, p = path.dropWhile (· = 47) := ⟨_, rfl⟩
  have hlen : p.length ≤ path.length := hp ▸ (List.dropWhile_suffix _).length_le
  rw [← components_dropWhile path]
  unfold skipelem
  simp only [← hp]
  by_cases h0 : byte0 p = 0
  · left
    rw [if_pos h0, components_end h0]
    exact ⟨rfl, rfl⟩
  · right
    rw [if_neg h0]
    obtain ⟨hcomp, hshort⟩ := components_word h0 (hp ▸ hslash path (hp ▸ h0))
    obtain ⟨rest, hrest⟩ : ∃ r, r = (p.dropWhile inName).dropWhile (· = 47) := ⟨_, rfl⟩
    have hle : rest.length ≤ (p.dropWhile inName).length := hrest ▸ (List.dropWhile_suffix _).length_le
    refine ⟨(p.takeWhile inName).take 14, rest,
      by rw [hrest]; rfl, ?_, by omega, components_end, fun hnil => ?_⟩
    · rw [hcomp, hrest, components_dropWhile]
    · -- a rest that does not end begins with a name
      by_contra hne
      rw [(components_word hne (hrest ▸ hslash _ (hrest ▸ hne))).1] at hnil
      cases hnil

/-! ### Directories of the disk -/

def entryOf (D : Disk) (d : Dinode) (j : ℕ) : Dirent :=
  .ofBytes ((List.range 16).map fun x => byteOf D d (16 * j + x))

theorem Dirent.ofBytes_bytes {i : ℕ} (hi : i < 65536) (name : Str) :
    Dirent.ofBytes (Dirent.bytes i name) = ⟨i, strncpy name 14⟩ := by
  unfold Dirent.ofBytes Dirent.bytes
  rw [List.getD_cons_zero, List.getD_cons_succ, List.getD_cons_zero, List.drop_succ_cons,
    List.drop_succ_cons, List.drop_zero]
  simp only [UInt8.toNat_ofNat', Dirent.mk.injEq, and_true]
  omega

theorem map_range_getD {e : Str} {n : ℕ} (h : e.length = n) :
    (List.range n).map (fun x => e.getD x 0) = e := by
  refine List.ext_getElem (by rw [List.length_map, List.length_range, h]) fun x h1 h2 => ?_
  rw [List.getElem_map, List.getElem_range, List.getD_eq_getElem?_getD, List.getElem?_eq_getElem h2,
    Option.getD_some]

def Matches (name : Str) (de : Dirent) : Prop := de.inum ≠ 0 ∧ namecmp name de.name = 0

instance (name : Str) (de : Dirent) : Decidable (Matches name de) := inferInstanceAs (Decidable (_ ∧ _))

/-- Names are compared as fields of 14 bytes hold them. -/
theorem matches_cname {name : Str} {de : Dirent} : Matches name de ↔ de.inum ≠ 0 ∧ cname 14 name =
    cname 14 de.name := by
  rw [Matches, namecmp, strncmp_eq_zero]

/-- The first entry with the name, from entry `j` on. -/
def findEntry (D : Disk) (d : Dinode) (name : Str) (j : ℕ) : Option ℕ :=
  (List.range' j (d.size.toNat / 16 - j)).find? fun j => Matches name (entryOf D d j)

/-- The i-number that a directory has under a name. -/
def entryNamed (D : Disk) (d : Dinode) (name : Str) : Option ℕ :=
  (findEntry D d name 0).map fun j => (entryOf D d j).inum

section

variable (sb : Superblock) (ok : Dinode → Bool) (D : Disk)

/-- Where the names lead from inode `i`, through directories that are `ok`; with `parent`, the
directory that the last one is looked up in. -/
def follow (parent : Bool) : ℕ → List Str → Option ℕ
  | i, [] => if parent then none else some i
  | i, name :: rest =>
    if ok (inoOf sb D i) ∧ (inoOf sb D i).type = T_DIR then
      if parent ∧ rest = [] then some i
      else (entryNamed D (inoOf sb D i) name).bind fun j => follow parent j rest
    else none

end

/-- Inodes that no directory names are in use. -/
def OrphansHeld (sb : Superblock) (s : Fs) : Prop :=
  ∀ i, i < sb.ninodes → (inoOf sb s.disk i).type ≠ 0 → (inoOf sb s.disk i).nlink = 0 →
    ∃ k, 0 < (s.icache k).ref ∧ (s.icache k).inum = i

/-- How many of the pointers are to the entry. -/
def grip (X : Multiset (Slot × ℕ)) (k : Slot) : ℕ := (X.map Prod.fst).count k

/-- Since `s₀` the walk has taken the pointers of `X`, each to an entry with its i-number, and the
locks of `L`. Otherwise entries have only been read. -/
structure Walking (sb : Superblock) (s₀ : Fs) (X : Multiset (Slot × ℕ)) (L : Multiset Slot)
    (s : Fs) : Prop where
  sound : DiskOk sb s₀.disk
  nonneg : ∀ k, 0 ≤ (s₀.icache k).ref
  disk : s.disk = s₀.disk
  frees : ∀ i, s.frees i = s₀.frees i
  slot : ∀ k, 0 < (s.icache k).ref → SlotOk sb s.disk (s.icache k)
  uniq : ∀ j k, 0 < (s.icache j).ref → 0 < (s.icache k).ref → (s.icache j).inum =
    (s.icache k).inum → j = k
  ref : ∀ k, (s.icache k).ref = (s₀.icache k).ref + grip X k
  inum : ∀ k, 0 < (s₀.icache k).ref → (s.icache k).inum = (s₀.icache k).inum
  pins : ∀ x ∈ X, (s.icache x.1).inum = x.2
  locked : ∀ k ∈ L, 0 < (s.icache k).ref ∧ (s.icache k).lock = true ∧ (s.icache k).valid = true
  lock : ∀ k, (s.icache k).lock = true → (s₀.icache k).lock = true ∨ k ∈ L

section

variable {sb : Superblock} {s₀ s s' : Fs} {X X' : Multiset (Slot × ℕ)} {L L' : Multiset Slot}
  {i j n : ℕ} {k l : Slot} {G : Prop} {name : Str} {msg : String} {who : Caller} {D : Disk}
  {d : Dinode}

theorem grip_cons_self : grip ((k, i) ::ₘ X) k = grip X k + 1 := by
  rw [grip, map_cons, Multiset.count_cons_self, grip]

theorem grip_cons_ne (h : l ≠ k) : grip ((k, i) ::ₘ X) l = grip X l := by
  rw [grip, map_cons, Multiset.count_cons_of_ne h, grip]

theorem grip_cons_le : grip ((k, i) ::ₘ X) l ≤ grip X l + 1 := by
  rcases eq_or_ne l k with rfl | h
  · exact grip_cons_self.le
  · exact (grip_cons_ne h).le.trans (Nat.le_succ _)

theorem grip_pos (h : (k, i) ∈ X) : 0 < grip X k :=
  Multiset.count_pos.mpr (Multiset.mem_map_of_mem Prod.fst h)

namespace Walking

section

variable (h : Walking sb s₀ X L s)
include h

theorem ref_pos (hk : (k, i) ∈ X) : 0 < (s.icache k).ref := by
  have h1 := grip_pos hk
  have h2 := h.ref k
  have h3 := h.nonneg k
  omega

theorem inum_of_mem (hk : (k, i) ∈ X) : (s.icache k).inum = i := h.pins _ hk

theorem lt (hk : (k, i) ∈ X) : i < sb.ninodes := by
  have := (h.slot k (h.ref_pos hk)).inum
  rwa [h.pins _ hk] at this

theorem copy (hi : (s.icache k).inum = i) (hl : k ∈ L) :
    (s.icache k).d = inoOf sb s₀.disk i ∧ (inoOf sb s₀.disk i).type ≠ 0 := by
  obtain ⟨hpos, -, hv⟩ := h.locked k hl
  obtain ⟨hd, ht⟩ := (h.slot k hpos).copy hv
  rw [hi, h.disk] at hd
  exact ⟨hd, hd ▸ ht⟩

/-- One entry of the cache has changed. -/
theorem setSlot {ip : Inode} (hslot : 0 < ip.ref → SlotOk sb s.disk ip)
    (huniq : 0 < ip.ref → ∀ j, j ≠ k → 0 < (s.icache j).ref → (s.icache j).inum ≠ ip.inum)
    (href : ip.ref = (s₀.icache k).ref + grip X' k) (hother : ∀ j, j ≠ k → grip X' j = grip X j)
    (hinum : 0 < (s₀.icache k).ref → ip.inum = (s₀.icache k).inum)
    (hpins : ∀ i, (k, i) ∈ X' → ip.inum = i) (hsub : ∀ x ∈ X', x.1 ≠ k → x ∈ X)
    (hlocked : k ∈ L' → 0 < ip.ref ∧ ip.lock = true ∧ ip.valid = true)
    (hL : ∀ j, j ≠ k → (j ∈ L' ↔ j ∈ L)) (hlock : ip.lock = true → (s₀.icache k).lock = true ∨
      k ∈ L') : Walking sb s₀ X' L' (s.setInode k ip) where
  sound := h.sound
  nonneg := h.nonneg
  disk := h.disk
  frees := h.frees
  slot := Fs.forall_setInode (P := fun _ ip => 0 < ip.ref → SlotOk sb s.disk ip) hslot fun j _ => h.slot j
  uniq := fun j l hj hl heq => by
    by_cases hjk : j = k
    · by_cases hlk : l = k
      · rw [hjk, hlk]
      · rw [hjk, Fs.setInode_self] at hj heq
        rw [Fs.setInode_ne hlk] at hl heq
        exact absurd heq.symm (huniq hj l hlk hl)
    · rw [Fs.setInode_ne hjk] at hj heq
      by_cases hlk : l = k
      · rw [hlk, Fs.setInode_self] at hl heq
        exact absurd heq (huniq hl j hjk hj)
      · rw [Fs.setInode_ne hlk] at hl heq
        exact h.uniq j l hj hl heq
  ref := Fs.forall_setInode (P := fun j ip => ip.ref = (s₀.icache j).ref + grip X' j) href fun j hj => by
    rw [hother j hj]
    exact h.ref j
  inum := Fs.forall_setInode (P := fun j ip => 0 < (s₀.icache j).ref → ip.inum = (s₀.icache j).inum) hinum
    fun j _ => h.inum j
  pins := fun x hx => by
    obtain ⟨j, i⟩ := x
    by_cases hj : j = k
    · subst hj
      rw [Fs.setInode_self]
      exact hpins i hx
    · simp only [Fs.setInode_ne hj]
      exact h.pins _ (hsub _ hx hj)
  locked := Fs.forall_setInode (P := fun j ip => j ∈ L' → 0 < ip.ref ∧ ip.lock = true ∧
    ip.valid = true) hlocked
    fun j hj hl => h.locked j ((hL j hj).mp hl)
  lock := Fs.forall_setInode (P := fun j ip => ip.lock = true → (s₀.icache j).lock = true ∨ j ∈ L') hlock
    fun j hj hl => (h.lock j hl).imp id (hL j hj).mpr

/-- An entry in use changes, with its i-number and its references as they are. -/
theorem refit {ip : Inode} (hpos : 0 < (s.icache k).ref)
    (hdev : ip.dev = (s.icache k).dev) (hinum : ip.inum = (s.icache k).inum)
    (href : ip.ref = (s.icache k).ref) (hcopy : ip.valid → ip.d = inoOf sb s.disk ip.inum ∧ ip.d.type ≠ 0)
    (hlocked : k ∈ L' → ip.lock = true ∧ ip.valid = true) (hL : ∀ j, j ≠ k → (j ∈ L' ↔ j ∈ L))
    (hlock : ip.lock = true → (s₀.icache k).lock = true ∨ k ∈ L') :
    Walking sb s₀ X L' (s.setInode k ip) := by
  have hslot := h.slot k hpos
  refine h.setSlot (fun _ => ⟨hdev.trans hslot.dev, hinum ▸ hslot.inum, hcopy⟩) (fun _ j hj hjr heq => ?_)
    (href.trans (h.ref k)) (fun _ _ => rfl) (fun h0 => hinum.trans (h.inum k h0)) (fun i hi =>
      hinum.trans (h.pins _ hi))
    (fun _ hx _ => hx) (fun hl => ⟨href ▸ hpos, hlocked hl⟩) hL hlock
  exact hj (h.uniq j k hjr hpos (heq.trans hinum))

end

end Walking

/-! ### References and locks -/

/-- One more reference to an entry in use. -/
theorem walk_ref (h : Walking sb s₀ X L s) (hpos : 0 < (s.icache k).ref) (hi : (s.icache k).inum = i) :
    Walking sb s₀ ((k, i) ::ₘ X) L (s.setInode k { s.icache k with ref := (s.icache k).ref + 1 }) := by
  have hslot := h.slot k hpos
  refine h.setSlot (fun _ => ⟨hslot.dev, hslot.inum, hslot.copy⟩) (fun _ j hj hjr heq =>
    hj (h.uniq j k hjr hpos heq)) ?_
    (fun j hj => grip_cons_ne hj) (h.inum k) (fun i' hi' => ?_) (fun x hx hxk => ?_)
    (fun hl => ⟨hpos.trans (by simp), (h.locked k hl).2⟩) (fun _ _ => Iff.rfl) (h.lock k)
  · rw [grip_cons_self, h.ref k]
    push_cast
    ring
  · rcases Multiset.mem_cons.mp hi' with heq | hmem
    · cases heq
      exact hi
    · exact h.pins _ hmem
  · rcases Multiset.mem_cons.mp hx with rfl | hx
    · exact absurd rfl hxk
    · exact hx

theorem walk_idup (h : Walking sb s₀ X L s) (hpos : 0 < (s.icache k).ref) (hi : (s.icache k).inum = i)
    (hmax : G → (s.icache k).ref < INT_MAX) :
    Sat (idup k) s (fun j s' => j = k ∧ Walking sb s₀ ((k, i) ::ₘ X) L s') fun _ => ¬G :=
  (sat_incRef fun hfull hg => (hmax hg).ne hfull).bind fun _ _ heq =>
    .pure ⟨rfl, heq ▸ walk_ref h hpos hi⟩

/-- There is room for a reference: an entry is free, and no count is at its greatest value. -/
def CanGet (s : Fs) : Prop := (∃ k, (s.icache k).ref = 0) ∧ ∀ k, (s.icache k).ref < INT_MAX

theorem walk_iget (h : Walking sb s₀ X L s) (hi : i < sb.ninodes) (hroom : G → CanGet s) :
    Sat (iget ROOTDEV i) s (fun k => Walking sb s₀ ((k, i) ::ₘ X) L) fun _ => ¬G := by
  refine (sat_iget (fun hfull hg => ?_) fun k hmax _ _ hg => ((hroom hg).2 k).ne hmax).post
    fun k s' hgot => ?_
  · obtain ⟨k, hk⟩ := (hroom hg).1
    exact hfull k hk
  obtain ⟨hpos, -, hinum, rfl⟩ | ⟨h0, hnone, rfl⟩ := hgot
  · exact walk_ref h hpos hinum
  · have href := h.ref k
    have hnn := h.nonneg k
    have hgrip : grip X k = 0 := by omega
    refine h.setSlot (fun _ => ⟨rfl, hi, fun hv => by cases hv⟩) (fun _ j _ hjr heq => ?_) ?_
      (fun j hj => grip_cons_ne hj) (fun h0 => ?_) (fun i' hi' => ?_) (fun x hx hxk => ?_) (fun hl => ?_)
      (fun _ _ => Iff.rfl) (h.lock k)
    · exact hnone j hjr ⟨(h.slot j hjr).dev, heq⟩
    · rw [grip_cons_self, hgrip]
      push_cast
      omega
    · omega
    · rcases Multiset.mem_cons.mp hi' with heq | hmem
      · cases heq
        rfl
      · have := grip_pos hmem
        omega
    · rcases Multiset.mem_cons.mp hx with rfl | hx
      · exact absurd rfl hxk
      · exact hx
    · have := (h.locked k hl).1
      omega

theorem walk_ilock (h : Walking sb s₀ X L s) (hpos : 0 < (s.icache k).ref) (hi : (s.icache k).inum = i)
    (hG : G → (s.icache k).lock = false ∧ (inoOf sb s₀.disk i).type ≠ 0) :
    Sat (ilock sb k) s (fun _ s' => k ∉ L ∧ Walking sb s₀ X (k ::ₘ L) s') fun _ => ¬G := by
  have hother : ∀ j, j ≠ k → (j ∈ k ::ₘ L ↔ j ∈ L) := fun j hj => by simp [hj]
  refine .get_bind (.ite (fun hlt => absurd hpos (by omega)) fun _ => ?_)
  refine .bind (Q := fun _ s' => k ∉ L ∧ s' = s.setInode k { s.icache k with lock := true }) ?_ ?_
  · refine .get_bind (.ite (fun hl => .stop fun hg => ?_) fun hl => .modify ⟨fun hk => hl ?_, rfl⟩)
    · rw [(hG hg).1] at hl
      cases hl
    · exact (h.locked k hk).2.1
  · rintro _ _ ⟨hk, rfl⟩
    refine .ite (fun hv => .pure ⟨hk, ?_⟩) fun hv => .get_bind (.modify_bind
      (.ite (fun h0 => .stop fun hg => (hG hg).2 ?_) fun ht => .pure ⟨hk, ?_⟩))
    · exact h.refit hpos rfl rfl rfl (h.slot k hpos).copy (fun _ => ⟨rfl, hv⟩) hother fun _ =>
        .inr (mem_cons_self k L)
    · rw [← hi, ← h.disk]
      exact h0
    · rw [Fs.setInode_self, Fs.setInode_setInode]
      exact h.refit hpos rfl rfl rfl (fun _ => ⟨rfl, ht⟩) (fun _ => ⟨rfl, rfl⟩) hother fun _ =>
        .inr (mem_cons_self k L)

theorem walk_iunlock (h : Walking sb s₀ X (k ::ₘ L) s) (hk : k ∉ L) :
    Sat (iunlock k) s (fun _ => Walking sb s₀ X L) fun _ => ¬G := by
  obtain ⟨hpos, hl, -⟩ := h.locked k (mem_cons_self k L)
  refine .get_bind (.ite (fun hno => ?_) fun _ => .modify ?_)
  · rcases hno with hno | hno
    · rw [hl] at hno
      cases hno
    · omega
  · exact h.refit hpos rfl rfl rfl (h.slot k hpos).copy (fun hmem => absurd hmem hk)
      (fun j hj => by simp [hj])
      fun hf => by cases hf

/-- **The walk gives back no last reference to an inode without links.** -/
theorem walk_iput (h : Walking sb s₀ ((k, i) ::ₘ X) L s) (hkept : OrphansHeld sb s₀)
    (hG : G → (s.icache k).lock = false) : Sat (iput sb k) s (fun _ => Walking sb s₀ X L) fun _ =>
    ¬G := by
  have hmem : (k, i) ∈ (k, i) ::ₘ X := mem_cons_self _ _
  have hpos := h.ref_pos hmem
  refine .bind (Q := fun _ s' => (s.icache k).lock = false ∧
    s' = s.setInode k { s.icache k with lock := true }) ?_ ?_
  · refine .get_bind (.ite (fun hl => .stop fun hg => ?_) fun hl => .modify ⟨by simpa using hl, rfl⟩)
    rw [hG hg] at hl
    cases hl
  · rintro _ _ ⟨hl, rfl⟩
    refine .get_bind (.bind (Q := fun _ s' => s' = s.setInode k { s.icache k with lock := true })
      (.when (fun hc => ?_) fun _ => rfl) ?_)
    · -- somebody else points at an inode without links
      rw [Fs.setInode_self] at hc
      obtain ⟨hv, hn, h1⟩ := hc
      obtain ⟨-, hlt, hcopy⟩ := h.slot k hpos
      obtain ⟨hd, ht⟩ := hcopy hv
      rw [hd, h.disk] at hn ht
      obtain ⟨j, hj, hji⟩ := hkept _ hlt ht hn
      have hjref := h.ref j
      obtain rfl : j = k := h.uniq j k (by omega) hpos ((h.inum j hj).trans hji)
      rw [grip_cons_self] at hjref
      push_cast at hjref
      simp only at h1
      omega
    · rintro _ _ rfl
      refine .modify_bind (.modify ?_)
      rw [Fs.setInode_self, Fs.setInode_setInode, Fs.setInode_self, Fs.setInode_setInode]
      have hslot := h.slot k hpos
      refine h.setSlot (fun _ => ⟨hslot.dev, hslot.inum, hslot.copy⟩) (fun _ j hj hjr heq =>
        hj (h.uniq j k hjr hpos heq)) ?_
        (fun j hj => (grip_cons_ne hj).symm) (h.inum k)
          (fun i' hi' => h.pins _ (mem_cons_of_mem hi'))
        (fun x hx _ => mem_cons_of_mem hx) (fun hkl => ?_) (fun _ _ => Iff.rfl)
          fun hf => by cases hf
      · have := h.ref k
        rw [grip_cons_self] at this
        push_cast at this
        simp only
        omega
      · rw [(h.locked k hkl).2.1] at hl
        cases hl

theorem walk_iunlockput (h : Walking sb s₀ ((k, i) ::ₘ X) (k ::ₘ L) s) (hkept : OrphansHeld sb s₀)
    (hk : k ∉ L) (hG : G → (s₀.icache k).lock = false) :
    Sat (iunlockput sb k) s (fun _ => Walking sb s₀ X L) fun _ => ¬G := by
  refine (walk_iunlock h hk).bind fun _ s1 h1 => walk_iput h1 hkept fun hg => ?_
  by_contra hl
  rcases h1.lock k (by simpa using hl) with h0 | h0
  · rw [hG hg] at h0
    cases h0
  · exact hk h0

/-! ### Directories -/

/-- The directories of the disk consist of whole entries. -/
def Tidy (sb : Superblock) (D : Disk) : Prop :=
  ∀ i, i < sb.ninodes → (inoOf sb D i).type = T_DIR → (inoOf sb D i).size.toNat % 16 = 0 ∧
    (inoOf sb D i).size.toNat ≤ MAXFILE * BSIZE

theorem walk_readDirent (h : Walking sb s₀ X L s) (hk : (k, i) ∈ X) (hl : k ∈ L)
    (hdir : (inoOf sb s₀.disk i).type = T_DIR) (hn : 16 * n < (inoOf sb s₀.disk i).size.toNat)
    (hG : G → Tidy sb s₀.disk) :
    Sat (readDirent sb k (16 * n) msg) s (fun de s' => s' = s ∧
      de = entryOf s₀.disk (inoOf sb s₀.disk i) n ∧ 16 * n + 16 ≤ (inoOf sb s₀.disk i).size.toNat)
      fun _ => ¬G := by
  obtain ⟨hd, ht⟩ := h.copy (h.inum_of_mem hk) hl
  have hi := h.lt hk
  have hsize : G → (inoOf sb s₀.disk i).size.toNat % 16 = 0 ∧ (inoOf sb s₀.disk i).size.toNat ≤
    MAXFILE * BSIZE :=
    fun hg => hG hg i hi hdir
  obtain ⟨v, hv⟩ : ∃ v, v = (inoOf sb s₀.disk i).size.toNat := ⟨_, rfl⟩
  rw [← hv] at hsize hn ⊢
  have hshape : Shaped s.disk (s.icache k).d v := by
    rw [hd, h.disk, hv]
    exact h.sound.shape i hi ht (by rw [hdir]; decide)
  refine .bind (Q := fun buf s' => s' = s ∧ (buf = none → ¬G) ∧ ∀ b, buf = some b →
    b = (List.range (min 16 (v - 16 * n))).map
    fun x => byteOf s₀.disk (inoOf sb s₀.disk i) (16 * n + x)) ?_ ?_
  · refine .get_bind (.ite (fun hdev => ?_) fun _ => .ite (fun hno => ?_) fun _ => ?_)
    · rw [hd, hdir] at hdev
      cases hdev
    · refine .pure ⟨rfl, fun _ hg => ?_, fun _ he => by cases he⟩
      have := (hsize hg).2
      rw [maxfile_bytes] at this
      rw [hd, ← hv] at hno
      omega
    · rw [hd, ← hv]
      obtain ⟨m, hm⟩ : ∃ m, m = if v < 16 * n + 16 then v - 16 * n else 16 := ⟨_, rfl⟩
      have hmin : m = min 16 (v - 16 * n) := by
        rw [hm]
        split <;> omega
      rw [← hm, ← hmin]
      refine (read_readLoop hshape (fun hlt hg => ?_) m (16 * n) m le_rfl (by omega)).bind ?_
      · have := (hsize hg).2
        omega
      · rintro buf _ ⟨rfl, rfl⟩
        rw [hd, h.disk]
        exact .pure ⟨rfl, fun he => absurd he (by simp), fun b he => (Option.some.inj he).symm⟩
  · rintro buf _ ⟨rfl, hnone, hbuf⟩
    cases buf with
    | none => exact .stop (hnone rfl)
    | some buf =>
      have hb := hbuf buf rfl
      have hlen : buf.length = min 16 (v - 16 * n) := by rw [hb, List.length_map, List.length_range]
      refine .ite (fun h16 => .pure ⟨rfl, ?_, by omega⟩) fun h16 => .stop fun hg => h16 ?_
      · rw [hb, entryOf, ← hlen, h16]
      · have := (hsize hg).1
        omega

/-- What a search of a directory has returned. -/
def Finds (sb : Superblock) (s₀ : Fs) (X : Multiset (Slot × ℕ)) (L : Multiset Slot) (d : Dinode)
    (name : Str) (n : ℕ) (s : Fs) : Option (Slot × ℕ) → Prop
  | none => findEntry s₀.disk d name n = none ∧ Walking sb s₀ X L s
  | some (k, off) => ∃ j, findEntry s₀.disk d name n = some j ∧ off = 16 * j ∧ 
      Walking sb s₀ ((k, (entryOf s₀.disk d j).inum) ::ₘ X) L s

theorem findEntry_end (h : d.size.toNat / 16 ≤ n) : findEntry D d name n = none := by
  rw [findEntry, Nat.sub_eq_zero_of_le h]
  rfl

theorem findEntry_step (h : n < d.size.toNat / 16) : findEntry D d name n =
    if Matches name (entryOf D d n) then some n else findEntry D d name (n + 1) := by
  rw [findEntry, findEntry, show d.size.toNat / 16 - n = (d.size.toNat / 16 - (n + 1)) +
    1 by omega, List.range'_succ,
    List.find?_cons]
  by_cases hm : Matches name (entryOf D d n)
  · simp [hm]
  · simp [hm]

/-- The i-numbers of entries are those of inodes. -/
theorem entryOf_lt (hd : DiskOk sb D) (hi : i < sb.ninodes)
    (hdir : (inoOf sb D i).type = T_DIR) (hn : 16 * n + 16 ≤ (inoOf sb D i).size.toNat) :
    (entryOf D (inoOf sb D i) n).inum < sb.ninodes := by
  have := hd.dirs i hi hdir (16 * n) (by omega) hn
  simpa [entryOf, Dirent.ofBytes, entryAt] using this

theorem walk_lookupFrom (h : Walking sb s₀ X L s) (hk : (k, i) ∈ X) (hl : k ∈ L)
    (hdir : (inoOf sb s₀.disk i).type = T_DIR) (hG : G → Tidy sb s₀.disk ∧ CanGet s) (name : Str) :
    ∀ (fuel n : ℕ), (inoOf sb s₀.disk i).size.toNat / 16 < n + fuel →
    Sat (lookupFrom sb k name fuel (16 * n)) s
      (fun r s' => Finds sb s₀ X L (inoOf sb s₀.disk i) name n s' r) fun _ => ¬G
  | 0, n, hfuel => .pure ⟨findEntry_end (by omega), h⟩
  | fuel + 1, n, hfuel => by
    refine .get_bind (.ite (fun hle => .pure ⟨findEntry_end ?_, h⟩) fun hlt => ?_)
    · rw [(h.copy (h.inum_of_mem hk) hl).1] at hle
      omega
    · rw [(h.copy (h.inum_of_mem hk) hl).1] at hlt
      refine (walk_readDirent h hk hl hdir (by omega) fun hg => (hG hg).1).read ?_
      rintro _ ⟨rfl, hle⟩
      have hstep : findEntry s₀.disk (inoOf sb s₀.disk i) name n = _ := findEntry_step (by omega)
      refine .ite (fun hm => ?_) fun hm => ?_
      · rw [if_pos (show Matches _ _ from hm)] at hstep
        rw [(h.slot k (h.ref_pos hk)).dev]
        refine (walk_iget h (entryOf_lt h.sound (h.lt hk) hdir hle) fun hg => (hG hg).2).bind
          fun l s1 h1 =>
          .pure ⟨n, hstep, rfl, h1⟩
      · rw [if_neg (show ¬Matches _ _ from hm)] at hstep
        refine (walk_lookupFrom h hk hl hdir hG name fuel (n + 1) (by omega)).post fun r s1 h1 => ?_
        unfold Finds at h1 ⊢
        rw [hstep]
        exact h1

/-- **`dirlookup` finds the first entry with the name.** -/
theorem walk_dirlookup (h : Walking sb s₀ X L s) (hk : (k, i) ∈ X) (hl : k ∈ L)
    (hG : G → (inoOf sb s₀.disk i).type = T_DIR ∧ Tidy sb s₀.disk ∧ CanGet s) (name : Str) :
    Sat (dirlookup sb k name) s (fun r s' => (inoOf sb s₀.disk i).type = T_DIR ∧
      Finds sb s₀ X L (inoOf sb s₀.disk i) name 0 s' r) fun _ => ¬G := by
  have hd := (h.copy (h.inum_of_mem hk) hl).1
  refine .get_bind (.ite (fun hdir => ?_) fun hdir => .stop fun hg => hdir ?_)
  · rw [hd] at hdir
    refine (walk_lookupFrom h hk hl hdir (fun hg => (hG hg).2) name _ 0 ?_).post fun r s1 h1 => ⟨hdir, h1⟩
    rw [Inode.rounds, hd]
    omega
  · rw [hd]
    exact (hG hg).1

/-! ### Paths -/

/-- What a walk finds there before it: no lock is held, directories consist of whole entries, and
whatever else has been taken, two entries of the cache are free and no count of references is near
its greatest value. -/
structure Ready (sb : Superblock) (s₀ : Fs) (X : Multiset (Slot × ℕ)) : Prop where
  lock : ∀ k, (s₀.icache k).lock = false
  tidy : Tidy sb s₀.disk
  room : ∀ k, ∃ l, l ≠ k ∧ (s₀.icache l).ref = 0 ∧ grip X l = 0
  small : ∀ k, (s₀.icache k).ref + grip X k + 1 < INT_MAX

theorem Walking.ref_lt (h : Walking sb s₀ X L s) (hr : Ready sb s₀ X) (k : Slot) :
    (s.icache k).ref < INT_MAX := by
  have := hr.small k
  rw [h.ref k]
  omega

/-- What a walk has returned: a pointer to the inode that the names lead to, and the last of the
names. -/
def Leads (sb : Superblock) (who : Caller) (s₀ : Fs) (X : Multiset (Slot × ℕ)) (parent : Bool)
    (i : ℕ) (names : List Str) (name : Str) (s : Fs) : Option (Slot × Str) → Prop
  | none => follow sb (searchable who.id) s₀.disk parent i names = none ∧ Walking sb s₀ X 0 s
  | some (k, last) => ∃ j, follow sb (searchable who.id) s₀.disk parent i names = some j ∧
  last = names.getLastD name ∧
      Walking sb s₀ ((k, j) ::ₘ X) 0 s

/-- A lock that the walk does not hold is free. -/
theorem Walking.lock_free (h : Walking sb s₀ X L s) (hk : k ∉ L) (h0 : (s₀.icache k).lock = false) :
    (s.icache k).lock = false := by
  by_contra hl
  rcases h.lock k (by simpa using hl) with h1 | h1
  · rw [h0] at h1
    cases h1
  · exact hk h1

theorem walk_dropped {α : Type} (h : Walking sb s₀ ((k, i) ::ₘ X) {k} s) (hkept : OrphansHeld sb s₀)
    (hG : G → (s₀.icache k).lock = false) :
    Sat (dropped sb k : FsM (Option α)) s (fun r s' => r = none ∧ Walking sb s₀ X 0 s') fun _ => ¬G :=
  (walk_iunlockput (L := 0) h hkept (notMem_zero k) hG).bind fun _ _ h1 => .pure ⟨rfl, h1⟩

theorem walk_namexDone (h : Walking sb s₀ ((k, i) ::ₘ X) 0 s) (hkept : OrphansHeld sb s₀)
    (hG : G → Ready sb s₀ X) (parent : Bool) :
    Sat (namexFrom.done sb parent k name) s (fun r s' => Leads sb who s₀ X parent i [] name s' r)
    fun _ => ¬G := by
  cases parent with
  | false => exact .pure ⟨i, rfl, rfl, h⟩
  | true =>
    refine (walk_iput h hkept fun hg => ?_).bind fun _ _ h1 => .pure ⟨rfl, h1⟩
    exact h.lock_free (notMem_zero k) ((hG hg).lock k)

/-- The loop of `namex` follows the names. -/
theorem walk_namexFrom (hkept : OrphansHeld sb s₀) (hG : G → Ready sb s₀ X) (parent : Bool) :
    ∀ (fuel : ℕ) (k : Slot) (path name : Str) {i : ℕ} {s : Fs}, path.length ≤ fuel →
    Walking sb s₀ ((k, i) ::ₘ X) 0 s →
      (G → (follow sb (searchable who.id) s₀.disk parent i (components path)).isSome) →
      Sat (namexFrom sb who parent fuel k path name) s
        (fun r s' => Leads sb who s₀ X parent i (components path) name s' r) fun _ => ¬G
  | 0, k, path, name, i, s, hlen, h, _ => by
    obtain rfl : path = [] := List.length_eq_zero_iff.mp (by omega)
    exact walk_namexDone h hkept hG parent
  | fuel + 1, k, path, name, i, s, hlen, h, hsome => by
    rw [namexFrom]
    rcases components_skipelem path with ⟨hskip, hnil⟩ | ⟨next, rest, hskip, hcons, hshort, hend⟩
    · rw [hskip, hnil]
      exact walk_namexDone h hkept hG parent
    · rw [hskip, hcons]
      rw [hcons] at hsome
      have hmem : (k, i) ∈ (k, i) ::ₘ X := mem_cons_self _ _
      have hgood : G → searchable who.id (inoOf sb s₀.disk i) = true ∧ (inoOf sb s₀.disk i).type =
        T_DIR := fun hg => by
        by_contra hno
        have := hsome hg
        rw [follow, if_neg hno] at this
        cases this
      refine (walk_ilock h (h.ref_pos hmem) (h.inum_of_mem hmem) fun hg =>
        ⟨h.lock_free (notMem_zero k) ((hG hg).lock k), ?_⟩).bind fun _ s1 ⟨_, h1⟩ => .get_bind ?_
      · rw [(hgood hg).2]
        decide
      have hkl : k ∈ k ::ₘ (0 : Multiset Slot) := mem_cons_self _ _
      rw [(h1.copy (h1.inum_of_mem hmem) hkl).1]
      have hdrop : ∀ {s2}, Walking sb s₀ ((k, i) ::ₘ X) (k ::ₘ 0) s2 →
          follow sb (searchable who.id) s₀.disk parent i (next :: components rest) = none →
          Sat (dropped sb k : FsM (Option (Slot × Str))) s2
            (fun r s' => Leads sb who s₀ X parent i (next :: components rest) name s' r) fun _ =>
              ¬G := fun h2 hno =>
        (walk_dropped h2 hkept fun hg => (hG hg).lock k).post fun r _ ⟨hr, h3⟩ => by
          subst hr
          exact ⟨hno, h3⟩
      refine .ite (fun hs => hdrop h1 ?_) fun hs => .ite (fun hdir => hdrop h1 ?_) fun hdir => ?_
      · rw [follow, if_neg (fun hc => by simp [hc.1] at hs)]
      · rw [follow, if_neg (fun hc => hdir hc.2)]
      have hok : searchable who.id (inoOf sb s₀.disk i) = true ∧ (inoOf sb s₀.disk i).type = T_DIR :=
        ⟨by simpa using hs, by simpa using hdir⟩
      refine .ite (fun hpar => ?_) fun hpar => ?_
      · refine (walk_iunlock h1 (notMem_zero k)).bind fun _ s2 h2 => .pure ⟨i, ?_, ?_, h2⟩
        · rw [follow, if_pos hok, if_pos ⟨hpar.1, hend.mp hpar.2⟩]
        · rw [hend.mp hpar.2]
          rfl
      have hfollow : follow sb (searchable who.id) s₀.disk parent i (next :: components rest) =
          (entryNamed s₀.disk (inoOf sb s₀.disk i) next).bind fun j =>
            follow sb (searchable who.id) s₀.disk parent j (components rest) := by
        rw [follow, if_pos hok, if_neg (fun hc => hpar ⟨hc.1, hend.mpr hc.2⟩)]
      rw [hfollow] at hsome
      refine (walk_dirlookup h1 hmem hkl (fun hg => ⟨hok.2, (hG hg).tidy, ?_⟩) next).bind
        fun r s2 ⟨_, h2⟩ => ?_
      · obtain ⟨l, hlk, hl0, hlX⟩ := (hG hg).room k
        refine ⟨⟨l, by rw [h1.ref l, hl0, grip_cons_ne hlk, hlX]; rfl⟩, fun l => ?_⟩
        have hsmall := (hG hg).small l
        have hle : grip ((k, i) ::ₘ X) l ≤ grip X l + 1 := grip_cons_le
        rw [h1.ref l]
        omega
      match r with
      | none =>
        refine hdrop h2.2 ?_
        rw [hfollow, entryNamed, h2.1]
        rfl
      | some (l, off) =>
        obtain ⟨j, hj, -, h2⟩ := h2
        have hnamed : entryNamed s₀.disk (inoOf sb s₀.disk i) next =
          some (entryOf s₀.disk (inoOf sb s₀.disk i) j).inum := by
          rw [entryNamed, hj]
          rfl
        rw [hnamed] at hfollow hsome
        rw [Multiset.cons_swap] at h2
        refine (walk_iunlockput (L := 0) h2 hkept (notMem_zero k) fun hg =>
          (hG hg).lock k).bind fun _ s3 h3 => ?_
        refine (walk_namexFrom hkept hG parent fuel l rest next (by omega) h3 hsome).post
          fun r s4 h4 => ?_
        match r with
        | none => exact ⟨hfollow.trans h4.1, h4.2⟩
        | some (l', last) =>
          obtain ⟨j', hj', hlast, h4⟩ := h4
          exact ⟨j', hfollow.trans hj', by rw [hlast, List.getLastD_cons], h4⟩

/-- The inode that a walk starts at. -/
def startInum (who : Caller) (path : Str) (s : Fs) : ℕ :=
  if byte0 path = 47 then ROOTINO else (s.icache who.cwd).inum

/-- **`namex` follows the names of the path**, from the root or from the current directory. -/
theorem walk_namex (h : Walking sb s₀ X 0 s) (hkept : OrphansHeld sb s₀)
    (hcwd : 0 < (s₀.icache who.cwd).ref) (path : Str) (parent : Bool) (hG : G → Ready sb s₀ X ∧
      (follow sb (searchable who.id) s₀.disk parent (startInum who path s₀) (components path)).isSome) :
    Sat (namex sb who path parent) s
      (fun r s' => Leads sb who s₀ X parent (startInum who path s₀) (components path) [] s' r)
      fun _ => ¬G := by
  refine .bind (Q := fun k s1 => Walking sb s₀ ((k, startInum who path s₀) ::ₘ X) 0 s1) ?_ fun k s1 h1 =>
    walk_namexFrom hkept (fun hg => (hG hg).1) parent _ k path [] le_rfl h1 fun hg => (hG hg).2
  refine .ite (fun hc => ?_) fun hc => ?_
  · rw [startInum, if_pos hc]
    refine walk_iget h sb.root_lt fun hg => ?_
    obtain ⟨l, -, hl0, hlX⟩ := (hG hg).1.room 0
    exact ⟨⟨l, by rw [h.ref l, hl0, hlX]; rfl⟩, fun l => (h.ref_lt (hG hg).1 l)⟩
  · rw [startInum, if_neg hc]
    have hpos : 0 < (s.icache who.cwd).ref := by
      have := h.ref who.cwd
      omega
    refine (walk_idup h hpos (h.inum _ hcwd) fun hg => h.ref_lt (hG hg).1 _).post fun j s1 ⟨hj, h1⟩ => ?_
    rw [hj]
    exact h1

end

end Xv6
