/-
# The image of mkfs

What the finished image is. The size of the root directory is rounded up after its blocks were
taken, to the next multiple of 512 above it: if the entries just fill a block, there is no block for
the last part.
-/
import Xv6.MkfsSpec

namespace Xv6.Mkfs

open Prog

section

variable {s : Image} {A : ℕ → Str} {i n : ℕ} {files : List HostFile}

theorem finish_data {c : ℕ} (hc : nmeta ≤ c) : (finish s).disk c = s.disk c := by
  have hmap : sb.bmapstart = 58 := rfl
  rw [finish_disk, Function.update_of_ne (by rw [nmeta_eq] at hc; omega), setDinode_ge (by decide) hc]

theorem finish_IBLOCK (hi : i < 200) : (finish s).disk (sb.IBLOCK i) = setDinode sb s.disk ROOTINO
    { dinodeAt sb s.disk
      ROOTINO with size := UInt32.ofNat (rounded (dinodeAt sb s.disk ROOTINO).size.toNat) }
      (sb.IBLOCK i) := by
  have hmap : sb.bmapstart = 58 := rfl
  have hrange := IBLOCK_range hi
  rw [finish_disk, Function.update_of_ne (by omega)]

theorem dinodeAt_finish (hi : i < 200) (hne : i ≠ ROOTINO) :
    dinodeAt sb (finish s).disk i = dinodeAt sb s.disk i := by
  rw [dinodeAt, finish_IBLOCK hi]
  exact dinodeAt_setDinode_ne _ hne

theorem dinodeAt_finish_root : dinodeAt sb (finish s).disk ROOTINO = { dinodeAt sb s.disk ROOTINO with
    size := UInt32.ofNat (rounded (dinodeAt sb s.disk ROOTINO).size.toNat) } := by
  rw [dinodeAt, finish_IBLOCK (by decide)]
  exact dinodeAt_setDinode_self _

theorem addrs_finish (hi : i < 200) : (dinodeAt sb (finish s).disk i).addrs =
    (dinodeAt sb s.disk i).addrs := by
  by_cases hne : i = ROOTINO
  · rw [hne, dinodeAt_finish_root]
  · rw [dinodeAt_finish hi hne]

/-- The inodes have the blocks that they had. -/
theorem Made.ptr_finish (h : Made s A) (hi : 1 ≤ i) (hlt : i < s.freeinode) (n : ℕ) :
    ptr (finish s).disk (dinodeAt sb (finish s).disk i) n = ptr s.disk (dinodeAt sb s.disk i) n := by
  refine ptr_congr (addrs_finish (hlt.trans_le h.inodes)) (fun h7 => finish_data ?_) n
  exact ((h.held i hi hlt).range 135 (addrs_ne_zero.mp h7)).1

theorem Made.size_toNat (h : Made s A) (hi : 1 ≤ i) (hlt : i < s.freeinode) :
    (dinodeAt sb s.disk i).size.toNat = (A i).length := by
  have hsize := h.size i hi hlt
  rw [maxfile_bytes] at hsize
  rw [h.fields i hi hlt]
  exact toNat_ofNat_of_lt (by omega)

theorem filled_root : ∀ (fs : List HostFile) (A : ℕ → Str) (i : ℕ), 2 ≤ i →
    (filled A i fs ROOTINO).length = (A ROOTINO).length + 16 * fs.length
  | [], A, i, _ => rfl
  | f :: fs, A, i, hi => by
    have hne : ROOTINO ≠ i := by
      show 1 ≠ i
      omega
    rw [filled, filled_root fs _ (i + 1) (by omega), Function.update_of_ne hne,
      Function.update_self, List.length_append,
      length_dirent, List.length_cons]
    ring

theorem length_root : (contents files ROOTINO).length = 16 * (files.length + 2) := by
  rw [contents, filled_root _ _ _ le_rfl, Function.update_self, List.length_append, length_dirent,
    length_dirent]
  ring

theorem rounded_lt (hfiles : files.length < 199) : rounded (16 * (files.length + 2)) < 2 ^ 32 := by
  unfold rounded
  omega

/-- The size of the root directory. -/
theorem Made.root_size (h : Made s (contents files)) (hlt : 1 < s.freeinode)
    (hfiles : files.length < 199) : (dinodeAt sb (finish s).disk ROOTINO).size.toNat =
    rounded (16 * (files.length + 2)) := by
  rw [dinodeAt_finish_root]
  show (UInt32.ofNat _).toNat = _
  rw [h.size_toNat le_rfl hlt, length_root]
  exact toNat_ofNat_of_lt (rounded_lt hfiles)

end

/-- What an image should be. -/
structure WellFormed (s : Image) : Prop where
  blocks : ∀ b, Event.block b ∈ s.trace → b < FSSIZE
  inodes : s.freeinode ≤ NINODES
  writes : ∀ sec, Event.inode sec ∈ s.trace → sb.inodestart ≤ sec ∧ sec < sb.bmapstart
  /-- There is a block for each index below `ceil(size/BSIZE)`. -/
  allocated : ∀ i, i < NINODES → ∀ n, n * 512 < (dinodeAt sb s.disk i).size.toNat →
    ptr s.disk (dinodeAt sb s.disk i) n ≠ 0

section

variable {s : Image} {files : List HostFile} {i n : ℕ}

section

variable (h : Made s (contents files)) (hinode : s.freeinode = files.length + 2)
  (hfiles : files.length < 199)
include h hinode hfiles

theorem Made.allocated (hroot : (files.length + 2) % 32 ≠ 0) (hi : i < 200)
    (hn : n * 512 < (dinodeAt sb (finish s).disk i).size.toNat) :
    ptr (finish s).disk (dinodeAt sb (finish s).disk i) n ≠ 0 := by
  by_cases hused : 1 ≤ i ∧ i < s.freeinode
  · obtain ⟨h1, hlt⟩ := hused
    have hsize := h.size i h1 hlt
    rw [maxfile_bytes] at hsize
    have hneed : n < 135 ∧ n * 512 < (contents files i).length := by
      by_cases hne : i = ROOTINO
      · subst hne
        rw [h.root_size hlt hfiles] at hn
        rw [length_root]
        unfold rounded at hn
        omega
      · rw [dinodeAt_finish hi hne, h.size_toNat h1 hlt] at hn
        omega
    rw [h.ptr_finish h1 hlt, (h.held i h1 hlt).blocks n (by omega), mem_need hneed.1]
    exact hneed.2
  · have hne : i ≠ ROOTINO := by
      rintro rfl
      exact hused ⟨le_rfl, hinode ▸ Nat.lt_add_left _ (by decide)⟩
    rw [dinodeAt_finish hi hne, h.free i (by omega) hi] at hn
    exact absurd hn (Nat.not_lt_zero _)

/-- Where the entries of the root directory just fill its blocks, there is none for the end of it.
-/
theorem Made.not_wellFormed (hroot : (files.length + 2) % 32 = 0) : ¬WellFormed (finish s) :=
    fun hwell => by
  have hlt : 1 < s.freeinode := by omega
  have hindex : (files.length + 2) / 32 < 135 := by omega
  refine hwell.allocated ROOTINO (by decide) ((files.length + 2) / 32) ?_ ?_
  · rw [h.root_size hlt hfiles]
    unfold rounded
    omega
  · have hneed := (h.held ROOTINO le_rfl hlt).blocks ((files.length + 2) / 32) (by omega)
    rw [length_root, mem_need hindex] at hneed
    rw [h.ptr_finish le_rfl hlt]
    exact not_not.mp fun hne => absurd (hneed.mp hne) (by omega)

theorem Made.wellFormed (hroot : (files.length + 2) % 32 ≠ 0) : WellFormed (finish s) := by
  have hfull := h.full
  have htrace : ∀ e ∈ (finish s).trace, e.Ok s.freeblock := by
    intro e he
    rw [finish, List.mem_append, List.mem_singleton] at he
    rcases he with he | rfl
    · exact h.room.trace e he
    · exact IBLOCK_range (by decide)
  refine ⟨fun b hb => ?_, ?_, fun sec hsec => htrace _ hsec, fun i hi n hn =>
    h.allocated hinode hfiles hroot hi hn⟩
  · exact (htrace _ hb).2.trans_le hfull
  · show s.freeinode ≤ 200
    omega

end

/-! ### The number of inodes

Whatever else becomes of the image, each file takes an inode number. -/

theorem inodes_rsect (sec : ℕ) : Keeps (·.freeinode = i) (rsect sec) Any :=
  Keeps.get.bind fun _ => .ite (fun _ => .ret) fun _ => .stop trivial

theorem inodes_wsect (sec : ℕ) (buf : Block) : Keeps (·.freeinode = i) (wsect sec buf) Any :=
  .modify fun _ h => h

theorem inodes_winode (inum : ℕ) (d : Dinode) : Keeps (·.freeinode = i) (winode inum d) Any :=
  (inodes_rsect _).bind fun _ => (inodes_wsect _ _).bind fun _ => .modify fun _ h => h

theorem inodes_rinode (inum : ℕ) : Keeps (·.freeinode = i) (rinode inum) Any :=
  (inodes_rsect _).bind fun _ => .ret

theorem inodes_takeBlock : Keeps (·.freeinode = i) takeBlock Any :=
  Keeps.get.bind fun _ => Triple.bind (Q := fun _ s => s.freeinode = i) (.modify fun _ h => h)
    fun _ => .ret

theorem inodes_setBlock (d : Dinode) (m : Fin 8) : Keeps (·.freeinode = i) (setBlock d m) Any :=
  .ite (fun _ => inodes_takeBlock.bind fun _ => .ret) fun _ => .ret

theorem inodes_place (d : Dinode) (m : ℕ) : Keeps (·.freeinode = i) (place d m) Any := by
  unfold place
  split
  · exact (inodes_setBlock _ _).bind fun _ => .ret
  · refine (inodes_setBlock _ _).bind fun _ => (inodes_rsect _).bind fun _ =>
      .ite (fun _ => ?_) fun _ => .ret
    exact inodes_takeBlock.bind fun _ => (inodes_wsect _ _).bind fun _ => .ret

theorem inodes_appendLoop : ∀ (fuel : ℕ) (d : Dinode) (off : ℕ) (p : Str),
    Keeps (·.freeinode = i) (appendLoop fuel d off p) Any
  | 0, _, _, _ => .ret
  | fuel + 1, d, off, p => by
    refine .ite (fun _ => .ret) fun _ => .ite (fun _ => .stop trivial) fun _ =>
      (inodes_place _ _).bind fun _ => ?_
    exact (inodes_rsect _).bind fun _ => (inodes_wsect _ _).bind fun _ => inodes_appendLoop fuel _ _ _

theorem inodes_iappend (inum : ℕ) (p : Str) : Keeps (·.freeinode = i) (iappend inum p) Any :=
  (inodes_rinode _).bind fun _ => (inodes_appendLoop _ _ _ _).bind fun _ => inodes_winode _ _

theorem inodes_appendAll (inum : ℕ) : ∀ ps : List Str, Keeps (·.freeinode = i) (appendAll inum ps) Any
  | [] => .ret
  | p :: ps => (inodes_iappend inum p).bind fun _ => inodes_appendAll inum ps

theorem inodes_ialloc (type : Int16) : Triple (·.freeinode = i) (ialloc type)
    (fun r s => r = i ∧ s.freeinode = i + 1) Any := by
  intro s hs
  refine .get_bind (.modify_bind ?_)
  exact (inodes_winode _ _ _ (show _ = i + 1 by rw [hs])).bind fun _ _ h => .pure ⟨hs, h⟩

theorem inodes_addFiles : ∀ (fs : List HostFile) (i : ℕ),
    Triple (·.freeinode = i) (addFiles fs) (fun _ s => s.freeinode = i + fs.length) Any
  | [], _ => .ret
  | f :: fs, i => by
    refine Triple.bind (Q := fun _ s => s.freeinode = i + 1) ?_ fun _ =>
      (inodes_addFiles fs (i + 1)).post fun _ s h => ?_
    · refine .ite (fun _ => .stop trivial) fun _ => ?_
      split
      · exact .stop trivial
      · refine (inodes_ialloc _).bind fun inum s ⟨_, h⟩ => ?_
        exact ((inodes_iappend _ _).bind fun _ => inodes_appendAll _ _) s h
    · rw [List.length_cons]
      omega

theorem inodes_fixRoot : Keeps (·.freeinode = i) fixRoot Any := (inodes_rinode _).bind fun _ =>
    inodes_winode _ _

theorem inodes_balloc (used : ℕ) : Keeps (·.freeinode = i) (balloc used) Any :=
  .ite (fun _ => inodes_wsect _ _) fun _ => .stop trivial

theorem inodes_main (files : List HostFile) :
    Sat (main files) start (fun _ s => s.freeinode = files.length + 2) Any := by
  refine .modify_bind ((zeroSects_sat FSSIZE (by norm_num)).bind ?_)
  rintro _ s1 rfl
  refine .modify_bind ((inodes_ialloc (i := 1) _ _ rfl).bind fun r s2 ⟨_, h2⟩ =>
    .ite (fun _ => .stop trivial) fun _ => ?_)
  refine ((inodes_iappend _ _).bind fun _ => (inodes_iappend _ _).bind fun _ =>
    (inodes_addFiles files _).bind fun _ => ?_) s2 h2
  refine inodes_fixRoot.bind fun _ => Keeps.get.bind fun _ => (inodes_balloc _).post fun _ s h => ?_
  rw [h]
  omega

/-- **The image of a run of mkfs is well formed exactly if** there are inodes enough and the entries
of the root directory do not just fill its blocks. -/
theorem main_wellFormed (hrun : main files start = .ok ((), s)) :
    WellFormed s ↔ files.length < 199 ∧ (files.length + 2) % 32 ≠ 0 := by
  constructor
  · intro hwell
    have hfiles : files.length < 199 := by
      have hinodes : s.freeinode ≤ 200 := hwell.inodes
      have := (inodes_main files).of_ok hrun
      omega
    obtain ⟨-, s0, h, hinode, rfl⟩ := (main_sat hfiles).of_ok hrun
    exact ⟨hfiles, fun hroot => h.not_wellFormed hinode hfiles hroot hwell⟩
  · rintro ⟨hfiles, hroot⟩
    obtain ⟨-, s0, h, hinode, rfl⟩ := (main_sat hfiles).of_ok hrun
    exact h.wellFormed hinode hfiles hroot

end

/-- Two files of the host, the first named as the programs are and with two blocks of contents. -/
def twoFiles : List HostFile :=
  [⟨[95, 97], some (List.replicate 600 7), by decide⟩, ⟨[98], some [], by decide⟩]

theorem fits_twoFiles : Fits twoFiles := by
  refine ⟨fun f hf => ?_, by decide +kernel⟩
  rcases List.mem_cons.mp hf with rfl | hf
  · exact ⟨by decide, nofun, by decide +kernel⟩
  · rw [List.mem_singleton.mp hf]
    exact ⟨by decide, nofun, by decide⟩

theorem main_wellFormed_twoFiles : ∃ s, main twoFiles start = .ok ((), s) ∧ WellFormed s := by
  obtain ⟨s, hrun, -, -⟩ := main_run (by decide) fits_twoFiles
  exact ⟨_, hrun, (main_wellFormed hrun).mpr (by decide)⟩

/-- An empty file of the host, with the name `a`. -/
def emptyFile : HostFile := ⟨[97], some [], by decide⟩

theorem fits_replicate {n : ℕ} (hn : n < 199) : Fits (List.replicate n emptyFile) := by
  have hblocks : ∀ n, fileBlocks (List.replicate n emptyFile) = 0 := by
    intro n
    induction n with
    | zero => rfl
    | succ n ih =>
      rw [List.replicate_succ, fileBlocks, ih]
      rfl
  refine ⟨fun f hf => ?_, ?_⟩
  · rw [List.eq_of_mem_replicate hf]
    exact ⟨by decide, by simp [emptyFile], by decide⟩
  · have hmono : blocksOf (16 * (n + 2)) ≤ blocksOf (16 * 200) := blocksOf_mono (by omega)
    have h200 : blocksOf (16 * 200) = 7 := by decide
    rw [hblocks, List.length_replicate, nmeta_eq, fssize_eq]
    omega

/-- With thirty files the entries of the root directory fill one block, and its size is that of two.
-/
theorem main_fullBlock : ∃ s, main (List.replicate 30 emptyFile) start = .ok ((), s) ∧ ¬WellFormed s := by
  have hlen : (List.replicate 30 emptyFile).length = 30 := List.length_replicate
  obtain ⟨s, hrun, hmade, hinode⟩ := main_run (hlen ▸ by decide) (fits_replicate (n := 30) (by decide))
  exact ⟨_, hrun, hmade.not_wellFormed hinode (hlen ▸ by decide) (by rw [hlen])⟩

end Xv6.Mkfs
