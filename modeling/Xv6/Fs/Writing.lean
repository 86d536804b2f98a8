/-
# Reading and writing contents

Within its size an inode has all the blocks it needs, so `bmap` gives a block and
changes nothing, and `readi` returns the bytes of the contents.

A write may need more blocks. `Writing` says where a write to inode `i` stands: the blocks it
has (`S`), those allocated but not yet pointed at (`F`), and that its first `v` bytes are
those of `g`; no other inode has changed. The new addresses are in the cached copy only, until
`writei` stores it with the new size; a write that allocates also grows the inode, so it does
store it (`clean`).
-/
import Xv6.Fs.Freeing
import Xv6.Fs.Room

namespace Xv6

open Prog
open Function (update update_eq_self update_idem update_self update_of_ne)

/-- The addresses that contents of `u` bytes need. -/
def need (u : ℕ) : Set ℕ := { n | (n < 135 ∧ n * 512 < u) ∨ (n = 135 ∧ 7 * 512 < u) }

instance (n u : ℕ) : Decidable (n ∈ need u) :=
  inferInstanceAs (Decidable ((n < 135 ∧ n * 512 < u) ∨ (n = 135 ∧ 7 * 512 < u)))

/-- On the way from `s` to `s'` inode `i` of entry `k` has become `d`, with blocks at `S`, the
blocks of `F` in flight, and the first `v` bytes of its contents those of `g`. -/
structure Writing (sb : Superblock) (s : Fs) (k : Slot) (i : ℕ) (d : Dinode) (S F : Set ℕ) (v : ℕ)
    (g : Mem) (s' : Fs) : Prop where
  cache : s'.icache = update s.icache k { s.icache k with d := d }
  fields : d = { inoOf sb s.disk i with addrs := d.addrs }
  frees : ∀ j, s'.frees j = s.frees j
  ino : ∀ j, j < sb.ninodes → inoOf sb s'.disk j = inoOf sb s.disk j
  own : Owned sb.nmeta sb.size (sites sb s'.disk (update (inoOf sb s.disk) i d))
    (usedAt sb s'.disk) F
  frame : ∀ j, j < sb.ninodes → j ≠ i → (inoOf sb s.disk j).type ≠ 0 →
    Untouched s.disk s'.disk (inoOf sb s.disk j)
  blocks : ∀ n, n ≤ 135 → (ptr s'.disk d n ≠ 0 ↔ n ∈ S)
  content : ∀ x, x < v → byteOf s'.disk d x = g x
  grow : need (inoOf sb s.disk i).size.toNat ⊆ S
  clean : S ⊆ need (inoOf sb s.disk i).size.toNat → d = inoOf sb s.disk i

/-- From `s` to `s'` the `n` bytes from `off` on of the contents of inode `i` have become those of
`f`. The file is longer if it has to be, and nothing else has changed. -/
structure Written (sb : Superblock) (s : Fs) (k : Slot) (i off n : ℕ) (f : ℕ → UInt8) (s' : Fs) :
    Prop where
  stored : Stored sb s s' k i (inoOf sb s'.disk i)
  fields : inoOf sb s'.disk i =
    { inoOf sb s.disk i with addrs := (inoOf sb s'.disk i).addrs, size := (inoOf sb s'.disk i).size }
  size : (inoOf sb s'.disk i).size.toNat = max (inoOf sb s.disk i).size.toNat (off + n)
  shape : Shaped s'.disk (inoOf sb s'.disk i) (inoOf sb s'.disk i).size.toNat
  byte : ∀ x, x < (inoOf sb s'.disk i).size.toNat →
    byteOf s'.disk (inoOf sb s'.disk i) x = Mem.splice (byteOf s.disk (inoOf sb s.disk i)) off n f x

section

variable {sb : Superblock} {c : Ctx} {H : Multiset Handle} {N : List Fact} {s s' s1 s2 : Fs} {D D' : Disk}
  {i n b u v bn off : ℕ} {k : Slot} {d d' : Dinode} {S F : Set ℕ} {g : Mem} {ty : Int16}
  {E : Stop → Prop} {o : ℤ} {L A : ℕ} {f : ℕ → UInt8}

theorem mem_need (hn : n < 135) : n ∈ need u ↔ n * 512 < u := by
  simp only [need, Set.mem_ofPred_eq]
  omega

theorem mem_need_indirect : 135 ∈ need u ↔ 7 * 512 < u := by
  simp [need]

/-- What one more byte at the start of block `bn` needs. -/
theorem need_direct (hbn : bn < 7) (hu : bn * 512 ≤ u) :
    insert bn (need u) = need (max u (bn * 512 + 1)) := by
  ext n
  simp only [Set.mem_insert_iff, need, Set.mem_ofPred_eq]
  omega

theorem need_entry (h7 : 7 ≤ bn) (hlt : bn < 135) (hu : bn * 512 ≤ u) :
    insert bn (insert 135 (need u)) = need (max u (bn * 512 + 1)) := by
  ext n
  simp only [Set.mem_insert_iff, need, Set.mem_ofPred_eq]
  omega

/-- How many blocks contents of `u` bytes need, with the indirect block. -/
def blocksFor (u : ℕ) : ℕ := (u + 511) / 512 + if 7 * 512 < u then 1 else 0

theorem blocksFor_mono {w : ℕ} (h : u ≤ w) : blocksFor u ≤ blocksFor w := by
  unfold blocksFor
  split <;> split <;> omega

/-- How many blocks `len` bytes from `off` on are in. -/
def rounds (off len : ℕ) : ℕ := if len = 0 then 0 else (off % 512 + len + 511) / 512

/-- How many blocks a write of `n` bytes at `off` to a file of `size` bytes allocates. -/
def newBlocks (size off n : ℕ) : ℕ := blocksFor (max size (off + n)) - blocksFor size

/-- The indirect block is not in the log. -/
def owed (d : Dinode) (lh : List ℕ) : ℕ := if d.addrs 7 ≠ 0 ∧ (d.addrs 7).toNat ∈ lh then 0 else 1

/-- The blocks, besides those of the bitmap, that the log gets with the block `bn` of contents of
`u` bytes: the block, if it is new, and the indirect block with its address. -/
def dues (u : ℕ) (d : Dinode) (lh : List ℕ) (bn : ℕ) : ℕ :=
  if bn ∈ need u then 0 else if bn < 7 then 1 else 1 + owed d lh

theorem rounds_step {len m : ℕ} (h0 : len ≠ 0) (hm : m = min len (512 - off % 512)) :
    rounds off len = rounds (off + m) (len - m) + 1 := by
  unfold rounds
  rw [if_neg h0]
  split <;> omega

theorem shaped_iff : Shaped D d u ↔ ∀ n, n ≤ 135 → (ptr D d n ≠ 0 ↔ n ∈ need u) := by
  constructor
  · intro h n hn
    by_cases h5 : n = 135
    · rw [h5, mem_need_indirect]
      exact h.indirect
    · rw [mem_need (by omega)]
      exact h.block n (by omega)
  · intro h
    refine ⟨fun n hn => ?_, ?_⟩
    · rw [h n (by omega), mem_need hn]
    · rw [h 135 le_rfl, mem_need_indirect]

/-! ### Reading -/

/-- The address of a block that is there. -/
theorem read_bmap {E : Stop → Prop} (hb : bn < 135 → ptr s.disk (s.icache k).d bn ≠ 0)
    (hE : 135 ≤ bn → E (.panic "bmap: out of range")) :
    Sat (bmap sb k bn) s
      (fun b s' => s' = s ∧ bn < 135 ∧ b = ptr s.disk (s.icache k).d bn) E := by
  refine .get_bind ?_
  split
  · rename_i h7
    have hp : ptr s.disk (s.icache k).d bn = ((s.icache k).d.addrs ⟨bn, by omega⟩).toNat := dif_pos h7
    refine .ite (fun h0 => ?_) fun _ => .pure ⟨rfl, by omega, hp.symm⟩
    exact absurd (hp.trans (by rw [h0]; rfl)) (hb (by omega))
  · rename_i h7
    refine .ite (fun hlt => ?_) fun hge => .stop (hE (by omega))
    have hlt' : bn < 135 := by omega
    have hne := hb hlt'
    have ha : (s.icache k).d.addrs 7 ≠ 0 := fun h0 => hne (by
      rw [ptr, dif_neg h7, if_pos hlt', if_pos h0])
    have hp : ptr s.disk (s.icache k).d bn =
        ((s.disk ((s.icache k).d.addrs 7).toNat).word32 (4 * (bn - 7))).toNat := by
      rw [ptr, dif_neg h7, if_pos hlt', if_neg ha]
    rw [orAlloc, if_neg ha]
    refine .get_bind (.ite (fun h0 => ?_) fun _ => .pure ⟨rfl, hlt', hp.symm⟩)
    exact absurd (hp.trans (by rw [h0]; rfl)) hne

/-- The loop of `readi`, within the size. -/
theorem read_readLoop {E : Stop → Prop} (hs : Shaped s.disk (s.icache k).d v)
    (hE : MAXFILE * BSIZE < v → E (.panic "bmap: out of range")) : ∀ (fuel off n : ℕ), n ≤ fuel →
    off + n ≤ v → Sat (readLoop sb k fuel off n) s
      (fun buf s' => s' = s ∧ buf = (List.range n).map fun j => byteOf s.disk (s.icache k).d (off + j)) E
  | 0, off, n, hn, _ => by
    obtain rfl : n = 0 := by omega
    exact .pure ⟨rfl, rfl⟩
  | fuel + 1, off, n, hn, hv => by
    refine .ite (fun h0 => .pure ⟨rfl, by rw [h0]; rfl⟩) fun h0 => ?_
    have hptr : off / 512 < 135 → ptr s.disk (s.icache k).d (off / 512) ≠ 0 := fun hlt =>
      (hs.block _ hlt).mpr (by omega)
    refine (read_bmap hptr fun hge => hE (by rw [maxfile_bytes]; omega)).bind fun b s1 h1 => ?_
    obtain ⟨heq, hlt, rfl⟩ := h1
    cases heq.symm
    refine .get_bind ((read_readLoop hs hE fuel _ _ (by omega) (by omega)).bind fun rest s2 h2 =>
      .pure ?_)
    obtain ⟨rfl, rfl⟩ := h2
    refine ⟨rfl, ?_⟩
    obtain ⟨m, hm⟩ : ∃ m, m = min n (512 - off % 512) := ⟨_, rfl⟩
    rw [← hm]
    have hn' : n = m + (n - m) := by omega
    conv_rhs => rw [hn', List.range_add, List.map_append, List.map_map]
    congr 1
    · refine List.map_congr_left fun j hj => ?_
      rw [List.mem_range] at hj
      rw [byteOf, show (off + j) / 512 = off / 512 by omega, if_pos ⟨hlt, hptr hlt⟩]
      congr 1
      omega
    · refine List.map_congr_left fun j _ => ?_
      rw [Function.comp_apply, Nat.add_assoc]

/-- **`readi` returns the bytes of the contents** and changes nothing, except on a device. -/
theorem ok_readi (h : Ok sb c H N s) (hk : (k, some (i, ty)) ∈ H) (off n : ℕ) :
    Sat (readi sb k off n) s (fun r s' => Ok sb c H N s' ∧ (ty ≠ T_DEV → s' = s ∧ ∀ buf, r = some buf →
      buf = (List.range (min n ((inoOf sb s.disk i).size.toNat - off))).map fun j =>
        byteOf s.disk (inoOf sb s.disk i) (off + j))) Fine := by
  obtain ⟨-, -, hi, hd, hty, hty0⟩ := h.at_known hk
  refine .get_bind (.ite (fun hdev => ?_) fun hdev => ?_)
  · have hdev' : ty = T_DEV := by rw [← hty, ← hd, hdev]
    refine .ite (fun _ => ?_) fun _ => .pure ⟨h, fun hne => absurd hdev' hne⟩
    refine (ok_iunlock h).bind fun _ s1 h1 => ?_
    refine .bind (Q := fun _ => Ok sb c H N) (.get_bind (.ite (fun _ => .pure h1) fun _ => ?_))
      fun r s2 h2 => (ok_ilock_valid h2).bind fun _ s3 h3 => .pure ⟨h3.1, fun hne => absurd hdev' hne⟩
    cases s1.tty with
    | nil => exact .stop (by simp [Fine])
    | cons r rest => exact .modify_bind (.pure (h1.of_cache rfl (fun _ => rfl) rfl))
  · have hshape : Shaped s.disk (s.icache k).d (s.icache k).d.size.toNat := by
      rw [hd] at hdev ⊢
      exact h.disk.shape i hi (hty ▸ hty0) hdev
    refine .ite (fun _ => .pure ⟨h, fun _ => ⟨rfl, fun _ he => by cases he⟩⟩) fun hoff => ?_
    rw [← hd]
    obtain ⟨m, hm⟩ :
      ∃ m, m = if (s.icache k).d.size.toNat < off + n then (s.icache k).d.size.toNat - off else n :=
      ⟨_, rfl⟩
    have hmin : m = min n ((s.icache k).d.size.toNat - off) := by
      rw [hm]
      split <;> omega
    rw [← hm]
    refine (read_readLoop hshape (fun _ => by simp [Fine]) m off m le_rfl
      (by omega)).bind fun buf s1 h1 => .pure ?_
    obtain ⟨rfl, rfl⟩ := h1
    exact ⟨h, fun _ => ⟨rfl, fun buf he => by rw [← Option.some.inj he, hmin]⟩⟩

/-! ### Allocating -/

theorem Wrote.trans (h : Wrote s s1 D) (h' : Wrote s1 s2 D') : Wrote s s2 D' :=
  ⟨h'.disk, h'.icache.trans h.icache, fun i => (h'.frees i).trans (h.frees i)⟩

/-- `balloc` marks a free block and zeroes it. -/
theorem wrote_ballocFrom : ∀ (fuel b0 : ℕ), Sat (ballocFrom sb fuel b0) s (fun b s' => b < b0 + fuel ∧
    usedAt sb s.disk b = false ∧ Wrote s s' (update (setUsed sb s.disk b true) b fun _ => 0)) Fine
  | 0, _ => .stop (by simp [Fine])
  | fuel + 1, b0 => by
    refine .get_bind (.ite (fun _ => ?_) fun hfree => ?_)
    · exact (wrote_ballocFrom fuel (b0 + 1)).post fun b s' h => ⟨by omega, h.2⟩
    · refine (wrote_logWrite _ _).bind fun _ s1 h1 => (wrote_logWrite _ _).bind fun _ s2 h2 => .pure ?_
      refine ⟨by omega, by simpa [usedAt] using hfree, ?_⟩
      rw [h1.disk] at h2
      exact h1.trans h2

namespace Untouched

theorem trans {D'' : Disk} (h : Untouched D D' d) (h' : Untouched D' D'' d) : Untouched D D'' d :=
  ⟨fun n => (h'.ptr n).trans (h.ptr n), fun n hn h0 => by
    rw [← h.ptr n] at h0 ⊢
    rw [h'.data n hn h0, h.ptr n, h.data n hn (h.ptr n ▸ h0)]⟩

end Untouched

namespace Writing

theorem type_ne (h : Writing sb s k i d S F v g s1) (ht : (inoOf sb s.disk i).type ≠ 0) : d.type ≠ 0 := by
  rw [h.fields]
  exact ht

theorem type_self (h : Writing sb s k i d S F v g s1) (ht : (inoOf sb s.disk i).type ≠ 0) :
    (update (inoOf sb s.disk) i d i).type ≠ 0 := by
  rw [update_self]
  exact h.type_ne ht

variable (hi : i < sb.ninodes) (ht : (inoOf sb s.disk i).type ≠ 0)
include hi ht

variable {m : ℕ}

section

variable (h : Writing sb s k i d S F v g s1)
include h

/-- Two addresses of the inode that are not 0 are different. -/
theorem ptr_inj (hn : ptr s1.disk d n ≠ 0) (heq : ptr s1.disk d n = ptr s1.disk d m) : n = m := by
  have := Xv6.ptr_inj (n := n) (m := m) h.own hi hi (h.type_self ht) (h.type_self ht)
  rw [update_self] at this
  exact (this hn heq).2

/-- No other inode points at a block of this one. -/
theorem ptr_ne {j : ℕ} (hj : j < sb.ninodes) (hji : j ≠ i)
    (htj : (inoOf sb s.disk j).type ≠ 0) (hn : ptr s1.disk (inoOf sb s.disk j) n ≠ 0) :
    ptr s1.disk (inoOf sb s.disk j) n ≠ ptr s1.disk d m := by
  have := Xv6.ptr_inj (n := n) (m := m) h.own hj hi (by rw [update_of_ne hji]; exact htj)
    (h.type_self ht)
  rw [update_self, update_of_ne hji] at this
  exact fun heq => hji (this hn heq).1

theorem site_self (n : ℕ) :
    sites sb s1.disk (update (inoOf sb s.disk) i d) (i, n) = ptr s1.disk d n := by
  rw [sites_eq hi (h.type_self ht), update_self]

/-- A block of the inode is a data block. -/
theorem ptr_range (hn : ptr s1.disk d n ≠ 0) :
    sb.nmeta ≤ ptr s1.disk d n ∧ ptr s1.disk d n < sb.size := by
  have := h.own.range (i, n)
  rw [h.site_self hi ht] at this
  exact this hn

end

/-- A new block is in flight. -/
theorem alloc (h : Writing sb s k i d S ∅ v g s1) (hb : b < sb.size) (hfree : usedAt sb s1.disk b = false)
    (hw : Wrote s1 s2 (update (setUsed sb s1.disk b true) b fun _ => 0)) :
    Writing sb s k i d S {b} v g s2 := by
  obtain ⟨hlo, hsite, -⟩ := h.own.unmarked hb hfree
  have hbmap := sb.bmapstart_lt
  have hdata : ∀ c, sb.nmeta ≤ c → c ≠ b → s2.disk c = s1.disk c := fun c hc hcb => by
    rw [hw.disk, update_of_ne hcb, setUsed_data hb hc]
  have hunt : ∀ j, j < sb.ninodes → (update (inoOf sb s.disk) i d j).type ≠ 0 →
      Untouched s1.disk s2.disk (update (inoOf sb s.disk) i d j) := fun j hj htj =>
    untouched h.own hj htj hdata fun n hn heq => hsite (j, n) (by rw [sites_eq hj htj, heq])
  have hself := hunt i hi
  rw [update_self] at hself
  have hself := hself (h.type_ne ht)
  refine ⟨hw.icache.trans h.cache, h.fields, fun j => (hw.frees j).trans (h.frees j), fun j hj => ?_, ?_,
    fun j hj hji htj => ?_, fun n hn => by rw [hself.ptr]; exact h.blocks n hn,
    fun x hx => by rw [hself.byteOf]; exact h.content x hx, h.grow, h.clean⟩
  · rw [inoOf, hw.disk, dinodeAt_update hj (by omega), dinodeAt_setUsed hj, ← inoOf, h.ino j hj]
  · have hm : ∀ c, c < sb.size → usedAt sb s2.disk c =
      if c = b then true else usedAt sb s1.disk c := fun c hc => by
      rw [hw.disk, usedAt_update hc (.inr hlo), usedAt_setUsed]
    have := h.own.alloc hb hfree hm
    rw [insert_empty_eq] at this
    exact this.congr (sites_congr (fun _ _ => Iff.rfl) fun j hj htj => (hunt j hj htj).ptr) fun _ _ => rfl
  · have := hunt j hj
    rw [update_of_ne hji] at this
    exact (h.frame j hj hji htj).trans (this htj)

/-- `balloc`, in a write. -/
theorem balloc (h : Writing sb s k i d S ∅ v g s1) (hr : Room sb E o (L + 1) (A + 1) s1) :
    Sat (balloc sb) s1 (fun b s2 => Writing sb s k i d S {b} v g s2 ∧ Room sb E o L A s2 ∧
      (∀ c, c ∈ s1.lh ∨ c = b → c ∈ s2.lh) ∧ b ≠ 0 ∧ b < 2 ^ 32 ∧
      (∀ x, s2.disk b x = 0) ∧ ∀ n, ptr s1.disk d n ≠ 0 →
        s2.disk (ptr s1.disk d n) = s1.disk (ptr s1.disk d n)) E := by
  refine (room_balloc hr).post fun b s2 ⟨hb, hfree, hw, hr2, hlh⟩ => ?_
  obtain ⟨hlo, hsite, -⟩ := h.own.unmarked hb hfree
  have hpos := sb.nmeta_pos
  have hsize := sb.size_lt
  refine ⟨h.alloc hi ht hb hfree hw, hr2 hlo, hlh, by omega, by omega, fun x => ?_, fun n hn => ?_⟩
  · rw [hw.disk, update_self]
  · have hne : ptr s1.disk d n ≠ b := fun heq => hsite (i, n) ((h.site_self hi ht n).trans heq)
    rw [hw.disk, update_of_ne hne, setUsed_data hb (h.ptr_range hi ht hn).1]

/-- The block in flight is pointed at by address `n`. -/
theorem attach (h : Writing sb s k i d S {b} v g s1) (hv : ∀ x, x < v → x / 512 < 135 → x / 512 ∈ S)
    (hn : n ≤ 135) (hnS : n ∉ S) (hb : b ≠ 0) (hd' : d' = { d with addrs := d'.addrs })
    (hcache : s2.icache = update s.icache k { s.icache k with d := d' })
    (hfrees : ∀ j, s2.frees j = s1.frees j)
    (hino : ∀ j, j < sb.ninodes → inoOf sb s2.disk j = inoOf sb s1.disk j)
    (hused : ∀ c, c < sb.size → usedAt sb s2.disk c = usedAt sb s1.disk c)
    (hframe : ∀ j, j < sb.ninodes → j ≠ i → (inoOf sb s.disk j).type ≠ 0 →
      Untouched s1.disk s2.disk (inoOf sb s.disk j))
    (hptr : ∀ m, ptr s2.disk d' m = if m = n then b else ptr s1.disk d m)
    (hdata : ∀ m, m < 135 → ptr s1.disk d m ≠ 0 → s2.disk (ptr s1.disk d m) = s1.disk (ptr s1.disk d m)) :
    Writing sb s k i d' (insert n S) ∅ v g s2 := by
  have ht' : d'.type ≠ 0 := by
    rw [hd']
    exact h.type_ne ht
  have hfields : d' = { inoOf sb s.disk i with addrs := d'.addrs } := by
    rw [hd', h.fields]
  have hsites : ∀ x, sites sb s2.disk (update (inoOf sb s.disk) i d') x =
      if x = (i, n) then b else sites sb s1.disk (update (inoOf sb s.disk) i d) x := by
    rintro ⟨j, m⟩
    by_cases hji : j = i
    · subst hji
      rw [h.site_self hi ht, sites_eq hi (by rw [update_self]; exact ht'), update_self, hptr]
      simp only [Prod.mk.injEq, true_and]
    · rw [if_neg fun h => hji (Prod.mk.inj h).1, sites, sites]
      simp only [update_of_ne hji]
      by_cases hc : j < sb.ninodes ∧ (inoOf sb s.disk j).type ≠ 0
      · rw [if_pos hc, if_pos hc, (hframe j hc.1 hji hc.2).ptr]
      · rw [if_neg hc, if_neg hc]
  refine ⟨hcache, hfields, fun j => (hfrees j).trans (h.frees j), fun j hj =>
    (hino j hj).trans (h.ino j hj), ?_,
    fun j hj hji htj => (h.frame j hj hji htj).trans (hframe j hj hji htj), fun m hm => ?_,
      fun x hx => ?_,
    h.grow.trans (Set.subset_insert n S), fun hS => ?_⟩
  · have hz : ptr s1.disk d n = 0 := by
      by_contra h0
      exact hnS ((h.blocks n hn).mp h0)
    have hself := (hsites (i, n)).trans (if_pos rfl)
    have := h.own.attach (Set.mem_singleton b) ((h.site_self hi ht n).trans hz) hself fun y hy =>
      (hsites y).trans (if_neg hy)
    rw [Set.sdiff_self] at this
    exact this.congr (fun _ => rfl) hused
  · rw [hptr, Set.mem_insert_iff]
    by_cases hmn : m = n
    · simp [hmn, hb]
    · rw [if_neg hmn, h.blocks m hm]
      simp [hmn]
  · rw [← h.content x hx, byteOf, byteOf]
    by_cases hlt : x / 512 < 135
    · have hmem := hv x hx hlt
      have hne := (h.blocks _ hlt.le).mpr hmem
      have hxn : x / 512 ≠ n := fun heq => hnS (heq ▸ hmem)
      rw [hptr, if_neg hxn, hdata _ hlt hne]
    · rw [if_neg fun h => hlt h.1, if_neg fun h => hlt h.1]
  · exact absurd (h.grow (hS (Set.mem_insert n S))) hnS

theorem setAddr (h : Writing sb s k i d S {b} v g s1) (hr : Room sb E o L A s1)
    (hv : ∀ x, x < v → x / 512 < 135 → x / 512 ∈ S) (hn : n ≤ 135) (hnS : n ∉ S) (hb : b ≠ 0) {a : Fin 8}
    (hptr : ∀ m, ptr s1.disk (Xv6.setAddr a b d) m = if m = n then b else ptr s1.disk d m) :
    Sat (modD k (Xv6.setAddr a b)) s1 (fun _ s2 => Writing sb s k i (Xv6.setAddr a b d)
      (insert n S) ∅ v g s2 ∧ Room sb E o L A s2 ∧ s2.disk = s1.disk ∧ s2.lh = s1.lh) E := by
  refine .modify ⟨h.attach hi ht hv hn hnS hb rfl ?_ (fun _ => rfl) (fun _ _ => rfl) (fun _ _ => rfl)
    (fun _ _ _ _ => ⟨fun _ => rfl, fun _ _ _ => rfl⟩) hptr fun _ _ _ => rfl,
      hr.of_same rfl rfl fun _ _ => rfl, rfl, rfl⟩
  simp only [Fs.setInode, h.cache, update_self, update_idem]

theorem setEntry (h : Writing sb s k i d S {b} v g s1) (hr : Room sb E o (L + 1) A s1)
    (hv : ∀ x, x < v → x / 512 < 135 → x / 512 ∈ S) {e : ℕ} (he : e < 128) (heS : e + 7 ∉ S)
    (hb : b ≠ 0) (hlt : b < 2 ^ 32) (h7 : d.addrs 7 ≠ 0) :
    Sat (logWrite sb (d.addrs 7).toNat ((s1.disk (d.addrs 7).toNat).setWord32 (4 * e)
      (UInt32.ofNat b))) s1 (fun _ s2 => Writing sb s k i d (insert (e + 7) S) ∅ v g s2 ∧
        ptr s2.disk d (e + 7) = b ∧ Room sb E o (if (d.addrs 7).toNat ∈ s1.lh then L + 1 else L) A s2 ∧
        ∀ c, c ∈ s2.lh ↔ c ∈ s1.lh ∨ c = (d.addrs 7).toNat) E := by
  have hrange := h.ptr_range hi ht (addrs_ne_zero.mp h7)
  rw [ptr_indirect] at hrange
  refine (room_logWrite hr (.inr hrange.1) _).post fun _ s2 ⟨hw, hr2⟩ => ?_
  have hptr : ∀ m, ptr s2.disk d m = if m = e + 7 then b else ptr s1.disk d m := fun m => by
    rw [hw.disk]
    exact ptr_setEntry h7 he hlt m
  obtain ⟨hlo, hhi⟩ := hrange
  have hbmap := sb.bmapstart_lt
  have hother : ∀ c, c ≠ (d.addrs 7).toNat → s2.disk c = s1.disk c := fun c hc => by
    rw [hw.disk, update_of_ne hc]
  refine ⟨h.attach hi ht hv (by omega) heS hb rfl (hw.icache.trans h.cache) hw.frees (fun j hj => ?_)
    (fun c hc => ?_) (fun j hj hji htj => ?_) hptr fun m hm hne => hother _ fun heq => ?_,
    (hptr _).trans (if_pos rfl), hr2⟩
  · rw [inoOf, hw.disk, dinodeAt_update hj (by omega), inoOf]
  · rw [hw.disk, usedAt_update hc (.inr hlo)]
  · have := untouched (b := (d.addrs 7).toNat) h.own hj
      (by rw [update_of_ne hji]; exact htj) (fun c _ hc => hother c hc) fun n hn => ?_
    · rwa [update_of_ne hji] at this
    · rw [update_of_ne hji] at hn ⊢
      exact h.ptr_ne (m := 135) hi ht hj hji htj hn
  · have := h.ptr_inj (m := 135) hi ht hne heq
    omega

/-- Bytes are written to a block of the inode. -/
theorem splice (h : Writing sb s k i d S ∅ v g s1) (hr : Room sb E o (L + 1) A s1)
    (f : ℕ → UInt8) (hlt : off / 512 < 135) (hS : off / 512 ∈ S) (hoff : off ≤ v)
    (hm : off % 512 + m ≤ 512) : Sat (logWrite sb (ptr s1.disk d (off / 512))
      ((s1.disk (ptr s1.disk d (off / 512))).splice (off % 512) m f)) s1
      (fun _ s2 => Writing sb s k i d S ∅ (max v (off + m)) (g.splice off m f) s2 ∧
        Room sb E o (if ptr s1.disk d (off / 512) ∈ s1.lh then L + 1 else L) A s2 ∧
        ∀ c, c ∈ s2.lh ↔ c ∈ s1.lh ∨ c = ptr s1.disk d (off / 512)) E := by
  have hne := (h.blocks _ hlt.le).mpr hS
  obtain ⟨hlo, hhi⟩ := h.ptr_range hi ht hne
  refine (room_logWrite hr (.inr hlo) _).post fun _ s2 ⟨hw, hr2⟩ => ⟨?_, hr2⟩
  have hbmap := sb.bmapstart_lt
  have hother : ∀ c, c ≠ ptr s1.disk d (off / 512) → s2.disk c = s1.disk c := fun c hc => by
    rw [hw.disk, update_of_ne hc]
  have hptr : ∀ n, ptr s2.disk d n = ptr s1.disk d n := ptr_congr rfl fun h7 => hother _ fun heq => by
    have := h.ptr_inj (n := 135) (m := off / 512) hi ht (addrs_ne_zero.mp h7) heq
    omega
  have hframe : ∀ j, j < sb.ninodes → j ≠ i → (inoOf sb s.disk j).type ≠ 0 →
      Untouched s1.disk s2.disk (inoOf sb s.disk j) := fun j hj hji htj => by
    have := untouched (b := ptr s1.disk d (off / 512)) h.own hj
      (by rw [update_of_ne hji]; exact htj) (fun c _ hc => hother c hc) fun n hn => ?_
    · rwa [update_of_ne hji] at this
    · rw [update_of_ne hji] at hn ⊢
      exact h.ptr_ne hi ht hj hji htj hn
  refine ⟨hw.icache.trans h.cache, h.fields, fun j => (hw.frees j).trans (h.frees j), fun j hj => ?_, ?_,
    fun j hj hji htj => (h.frame j hj hji htj).trans (hframe j hj hji htj),
    fun n hn => by rw [hptr]; exact h.blocks n hn, fun x hx => ?_, h.grow, h.clean⟩
  · rw [inoOf, hw.disk, dinodeAt_update hj (by omega), ← inoOf, h.ino j hj]
  · refine h.own.congr (sites_congr (fun _ _ => Iff.rfl) fun j hj htj n => ?_) fun c hc => by
      rw [hw.disk, usedAt_update hc (.inr hlo)]
    by_cases hji : j = i
    · rw [hji, update_self, hptr]
    · rw [update_of_ne hji] at htj ⊢
      exact (hframe j hj hji htj).ptr n
  · -- the bytes written, those beside them in the block, and those of other blocks
    by_cases hin : off ≤ x ∧ x < off + m
    · have hx' : x / 512 = off / 512 := by omega
      rw [byteOf, hx', hptr, if_pos ⟨hlt, hne⟩, hw.disk, update_self,
        Mem.splice_of_mem (by omega) (by omega), Mem.splice_of_mem hin.1 hin.2]
      congr 1
      omega
    · have hxv : x < v := by omega
      rw [show g.splice off m f x = g x from if_neg hin, ← h.content x hxv, byteOf, byteOf, hptr]
      by_cases hc : x / 512 < 135 ∧ ptr s1.disk d (x / 512) ≠ 0
      · rw [if_pos hc, if_pos hc]
        by_cases hx' : x / 512 = off / 512
        · rw [hx', hw.disk, update_self, Mem.splice, if_neg]
          omega
        · rw [hother _ fun heq => hx' (h.ptr_inj hi ht hc.2 heq)]
      · rw [if_neg hc, if_neg hc]

/-! ### The block of a write -/

omit hi ht in
theorem cached (h : Writing sb s k i d S F v g s1) : (s1.icache k).d = d := by
  rw [h.cache, update_self]

omit hi ht in
theorem owed_mono {d' : Dinode} {lh lh' : List ℕ} (h7 : d'.addrs 7 = d.addrs 7) (h : ∀ c ∈ lh, c ∈ lh') :
    owed d' lh' ≤ owed d lh := by
  unfold owed
  rw [h7]
  split
  · exact Nat.zero_le _
  · rename_i hno
    rw [if_neg fun hc => hno ⟨hc.1, h _ hc.2⟩]

/-- The block `b` at address `n` was there, or it is new and has `P`. -/
def Placed (sb : Superblock) (s : Fs) (k : Slot) (i : ℕ) (d : Dinode) (S : Set ℕ) (v : ℕ) (g : Mem)
    (n : ℕ) (P : ℕ → Dinode → Fs → Prop) (s1 : Fs) (b : ℕ) (s2 : Fs) : Prop :=
  ∃ d', Writing sb s k i d' (insert n S) ∅ v g s2 ∧ (n ∈ S ∧ d' = d ∧ s2 = s1 ∨ n ∉ S ∧ P b d' s2) ∧
    b = ptr s2.disk d' n

/-- The block at address `n`, allocated if it was not there. -/
theorem orAlloc {P : ℕ → Dinode → Fs → Prop} (h : Writing sb s k i d S ∅ v g s1)
    (hout : n ∉ S → Room sb E o (L + 1) (A + 1) s1) (hn : n ≤ 135) {addr : UInt32}
    (haddr : ptr s1.disk d n = addr.toNat) {store : ℕ → FsM Unit}
    (hstore : ∀ b s2, n ∉ S → Writing sb s k i d S {b} v g s2 → Room sb E o L A s2 →
      (∀ c, c ∈ s1.lh ∨ c = b → c ∈ s2.lh) → b ≠ 0 → b < 2 ^ 32 → (∀ x, s2.disk b x = 0) →
      (∀ m, ptr s1.disk d m ≠ 0 → s2.disk (ptr s1.disk d m) = s1.disk (ptr s1.disk d m)) →
      Sat (store b) s2 (fun _ s3 => ∃ d', Writing sb s k i d' (insert n S) ∅ v g s3 ∧ P b d' s3 ∧
        ptr s3.disk d' n = b) E) :
    Sat (orAlloc sb addr store) s1 (Placed sb s k i d S v g n P s1) E := by
  refine .ite (fun h0 => ?_) fun h0 => ?_
  · have hnS : n ∉ S := fun hmem => (h.blocks n hn).mpr hmem (by rw [haddr, h0]; rfl)
    refine (h.balloc hi ht (hout hnS)).bind fun b s2 ⟨h2, hr2, hlh, hb, hlt, hz, hkeep⟩ => ?_
    refine (hstore b s2 hnS h2 hr2 hlh hb hlt hz hkeep).bind fun _ s3 ⟨d', h3, hP, hp⟩ =>
      .pure ⟨d', h3, .inr ⟨hnS, hP⟩, hp.symm⟩
  · have hmem : n ∈ S := (h.blocks n hn).mp fun hz => h0 (UInt32.toNat_inj.mp (haddr.symm.trans hz))
    refine .pure ⟨d, ?_, .inl ⟨hmem, rfl, rfl⟩, haddr.symm⟩
    rwa [Set.insert_eq_of_mem hmem]

omit hi ht in
theorem addrs_zero (h : Writing sb s k i d S F v g s1) (hn : 135 ∉ S) : d.addrs 7 = 0 := by
  by_contra h0
  exact hn ((h.blocks 135 le_rfl).mp (addrs_ne_zero.mp h0))

section

variable (h : Writing sb s k i d S ∅ v g s1) (hin : ∀ x, x < v → x / 512 < 135 → x / 512 ∈ S)
include h hin

theorem direct (h7 : bn < 7) (hr : bn ∉ S → Room sb E o (L + 1) (A + 1) s1) :
    Sat (Xv6.orAlloc sb (d.addrs ⟨bn, Nat.lt_succ_of_lt h7⟩) fun b =>
      modD k (Xv6.setAddr ⟨bn, Nat.lt_succ_of_lt h7⟩ b)) s1
      (Placed sb s k i d S v g bn (fun b d' s2 => Room sb E o L A s2 ∧ b ∈ s2.lh ∧
        owed d' s2.lh ≤ owed d s1.lh) s1) E := by
  refine h.orAlloc hi ht hr (by omega) (dif_pos h7) fun b s2 hnS h2 hr2 hlh hb hlt _ _ => ?_
  refine (h2.setAddr hi ht hr2 hin (by omega) hnS hb fun m => ptr_setAddr h7 hlt m).post
    fun _ s3 h3 => ?_
  obtain ⟨h3, hr3, hdisk, hlog⟩ := h3
  rw [← hlog] at hlh
  refine ⟨_, h3, ⟨hr3, hlh b (.inr rfl), ?_⟩, ?_⟩
  · exact owed_mono (setAddr_ne (Fin.ne_of_val_ne h7.ne') _) fun c hc => hlh c (.inl hc)
  · rw [hdisk, ptr_setAddr h7 hlt, if_pos rfl]

theorem indirect (hr : 135 ∉ S → Room sb E o (L + 1) (A + 1) s1) :
    Sat (Xv6.orAlloc sb (d.addrs 7) fun b => modD k (Xv6.setAddr 7 b)) s1
      (Placed sb s k i d S v g 135 (fun _ d' s2 => Room sb E o L A s2 ∧ owed d' s2.lh = 0) s1) E := by
  refine h.orAlloc hi ht hr le_rfl (ptr_indirect s1.disk d) fun b s2 hnS h2 hr2 hlh hb hlt hz _ => ?_
  have h0 := h2.addrs_zero hnS
  refine (h2.setAddr hi ht hr2 hin le_rfl hnS hb fun m => ptr_setIndirect h0 hlt hz m).post
    fun _ s3 hs3 => ⟨_, hs3.1, ⟨hs3.2.1, ?_⟩, ?_⟩
  · have hself : ((Xv6.setAddr 7 b d).addrs 7).toNat = b := by rw [setAddr_self, toNat_ofNat_of_lt hlt]
    refine if_pos ⟨fun hz => hb ?_, ?_⟩
    · rw [← hself, hz]
      rfl
    · rw [hself, hs3.2.2.2]
      exact hlh b (.inr rfl)
  · rw [hs3.2.2.1, ptr_setIndirect h0 hlt hz, if_pos rfl]

theorem entry (h7 : 7 ≤ bn) (hlt : bn < 135) (h135 : 135 ∈ S) (hL : bn ∉ S → 1 ≤ L)
    (hr : bn ∉ S → Room sb E o (L + owed d s1.lh + 1) (A + 1) s1) :
    Sat (Xv6.orAlloc sb ((s1.disk (d.addrs 7).toNat).word32 (4 * (bn - 7))) fun b =>
      logWrite sb (d.addrs 7).toNat
        ((s1.disk (d.addrs 7).toNat).setWord32 (4 * (bn - 7)) (UInt32.ofNat b))) s1
      (Placed sb s k i d S v g bn (fun b d' s2 => Room sb E o L A s2 ∧ b ∈ s2.lh ∧ owed d' s2.lh = 0)
        s1) E := by
  have h135 := (h.blocks 135 le_rfl).mpr h135
  have ha7 : d.addrs 7 ≠ 0 := addrs_ne_zero.mpr h135
  have hp : ptr s1.disk d bn = ((s1.disk (d.addrs 7).toNat).word32 (4 * (bn - 7))).toNat := by
    rw [ptr, dif_neg (by omega), if_pos hlt, if_neg ha7]
  refine h.orAlloc hi ht hr (by omega) hp fun b s2 hnS h2 hr2 hlh hb hlt _ hkeep => ?_
  have hbn : bn - 7 + 7 = bn := by omega
  have hblock := hkeep 135 h135
  rw [ptr_indirect] at hblock
  rw [← hblock]
  have hL1 := hL hnS
  rw [← hbn] at hnS
  obtain ⟨L', hL'⟩ : ∃ L', L + owed d s1.lh = L' + 1 := ⟨L + owed d s1.lh - 1, by omega⟩
  rw [hL'] at hr2
  refine (h2.setEntry hi ht hr2 hin (by omega) hnS hb hlt ha7).post fun _ s3 h3 => ?_
  obtain ⟨h3, hp3, hr3, hlh3⟩ := h3
  rw [hbn] at h3 hp3
  refine ⟨d, h3, ⟨hr3.mono ?_ le_rfl, (hlh3 b).mpr (.inl (hlh b (.inr rfl))),
    if_pos ⟨ha7, (hlh3 _).mpr (.inr rfl)⟩⟩, hp3⟩
  split
  · omega
  · rename_i hno
    have hone : owed d s1.lh = 1 := if_neg fun hc => hno (hlh _ (.inl hc.2))
    omega

end

/-- **`bmap` gives the block of a write**, and allocates it if the write goes past the
blocks that are there. -/
theorem bmap (h : Writing sb s k i d (need u) ∅ v g s1) (hu : bn * 512 ≤ u) (hv : v ≤ u)
    (hr : bn < 135 → Room sb E o (L + dues u d s1.lh bn)
      (A + (blocksFor (max u (bn * 512 + 1)) - blocksFor u)) s1)
    (hL : bn < 135 → bn ∉ need u → 1 ≤ L) (hE : 135 ≤ bn → E (.panic "bmap: out of range")) :
    Sat (bmap sb k bn) s1 (fun b s2 => bn < 135 ∧ ∃ d',
      Writing sb s k i d' (need (max u (bn * 512 + 1))) ∅ v g s2 ∧ Room sb E o L A s2 ∧
      (bn ∉ need u → b ∈ s2.lh) ∧ owed d' s2.lh ≤
      (if bn ∈ need u ∨ bn < 7 then owed d s1.lh else 0) ∧ b = ptr s2.disk d' bn) E := by
  have hin : ∀ x, x < v → x / 512 < 135 → x / 512 ∈ need u := fun x hx hlt =>
    (mem_need hlt).mpr (by omega)
  refine .get_bind ?_
  rw [h.cached]
  split
  · rename_i h7
    have hr := hr (by omega)
    have hcost : bn ∉ need u → 1 ≤ blocksFor (max u (bn * 512 + 1)) - blocksFor u := fun hn => by
      rw [mem_need (by omega)] at hn
      unfold blocksFor
      split <;> split <;> omega
    refine (h.direct (L := L) (A := A) hi ht hin h7 fun hn =>
      hr.mono (by rw [dues, if_neg hn, if_pos h7]) (by have := hcost hn; omega)).post fun b s2 hs2 => ?_
    obtain ⟨d', h2, hcase, hb⟩ := hs2
    refine ⟨by omega, d', need_direct h7 hu ▸ h2, ?_⟩
    rw [if_pos (.inr h7)]
    rcases hcase with ⟨hmem, rfl, rfl⟩ | ⟨_, hr2, hlog, howed⟩
    · exact ⟨hr.mono (by omega) (by omega), fun hn => absurd hmem hn, le_rfl, hb⟩
    · exact ⟨hr2, fun _ => hlog, howed, hb⟩
  · rename_i h7
    refine .ite (fun hlt => ?_) fun hge => .stop (hE (by omega))
    have h7' : 7 ≤ bn := by omega
    have hlt' : bn < 135 := by omega
    have hr := hr hlt'
    have hdues : bn ∉ need u → dues u d s1.lh bn = 1 + owed d s1.lh :=
      fun hn => by rw [dues, if_neg hn, if_neg h7]
    -- the indirect block comes with its first entry
    have hfirst : 135 ∉ need u → bn ∉ need u := fun hn hbn =>
      hn (mem_need_indirect.mpr ((Nat.mul_le_mul_right 512 h7').trans_lt ((mem_need hlt').mp hbn)))
    have hcost : (if bn ∈ need u then 0 else 1) + (if 135 ∈ need u then 0 else 1) ≤
        blocksFor (max u (bn * 512 + 1)) - blocksFor u := by
      simp only [mem_need hlt', mem_need_indirect, blocksFor]
      split <;> split <;> split <;> omega
    have hmem : bn ∈ insert 135 (need u) ↔ bn ∈ need u := by
      rw [Set.mem_insert_iff]
      exact or_iff_right (by omega)
    refine (h.indirect (L := L + 1) (A := A + 1) hi ht hin fun hn => hr.mono ?_ ?_).bind
      fun a s2 hs2 => ?_
    · have howed : owed d s1.lh = 1 := if_neg fun hc => hc.1 (h.addrs_zero hn)
      have := hdues (hfirst hn)
      omega
    · rw [if_neg hn, if_neg (hfirst hn)] at hcost
      omega
    · obtain ⟨d2, h2, hcase, ha⟩ := hs2
      rw [ptr_indirect] at ha
      subst ha
      have hroom : bn ∉ need u → Room sb E o (L + owed d2 s2.lh + 1) (A + 1) s2 := fun hn => by
        rcases hcase with ⟨hS, rfl, rfl⟩ | ⟨_, hr2, h0⟩
        · rw [if_neg hn, if_pos hS] at hcost
          exact hr.mono (by rw [hdues hn]; omega) (by omega)
        · rw [h0]
          exact hr2
      refine .get_bind ((h2.entry (L := L) (A := A) hi ht
        (fun x hx hlt => Set.mem_insert_of_mem _ (hin x hx hlt)) h7' hlt' (Set.mem_insert ..)
        (fun hn => hL hlt' (mt hmem.mpr hn)) fun hn => hroom (mt hmem.mpr hn)).post fun b s3 h3 => ?_)
      obtain ⟨d3, h3, hcase3, hb⟩ := h3
      refine ⟨hlt', d3, need_entry h7' hlt' hu ▸ h3, ?_⟩
      rcases hcase3 with ⟨hS, rfl, rfl⟩ | ⟨hn, hr3, hlog, howed⟩
      · have hbnS := hmem.mp hS
        rcases hcase with ⟨_, rfl, rfl⟩ | ⟨hn, -⟩
        · rw [if_pos (.inl hbnS)]
          exact ⟨hr.mono (by omega) (by omega), fun hn => absurd hbnS hn, le_rfl, hb⟩
        · exact absurd hbnS (hfirst hn)
      · exact ⟨hr3, fun _ => hlog, by omega, hb⟩

omit hi ht in
theorem write_nil (h : Writing sb s k i d (need u) ∅ v g s1) (hoff : off ≤ v) (hvu : v ≤ u) {n : ℕ}
    (hn : n = 0) (f : ℕ → UInt8) : Writing sb s k i d (need (max u (off + n))) ∅ (max v (off + n))
    (g.splice off n f) s1 := by
  rw [max_eq_left (show off + n ≤ u by omega), max_eq_left (show off + n ≤ v by omega)]
  convert h using 1
  funext x
  rw [Mem.splice, if_neg (by omega)]

omit hi ht in
/-- The first `m` bytes have been written, and then the others. -/
theorem write_append {src : Str} (hm : m ≤ src.length)
    (h : Writing sb s k i d (need (max (max u (off + m)) (off + m + (src.drop m).length))) ∅
      (max (max v (off + m)) (off + m + (src.drop m).length))
      ((g.splice off m fun j => src.getD j 0).splice (off + m) (src.drop m).length fun j =>
        (src.drop m).getD j 0) s1) :
    Writing sb s k i d (need (max u (off + src.length))) ∅ (max v (off + src.length))
      (g.splice off src.length fun j => src.getD j 0) s1 := by
  rw [List.length_drop, max_assoc, max_assoc,
    max_eq_right (show off + m ≤ off + m + (src.length - m) by omega),
    show off + m + (src.length - m) = off + src.length by omega] at h
  convert h using 1
  funext x
  simp only [Mem.splice, List.getD_eq_getElem?_getD, List.getElem?_drop]
  by_cases h1 : off + m ≤ x ∧ x < off + m + (src.length - m)
  · rw [if_pos h1, if_pos (by omega), show m + (x - (off + m)) = x - off by omega]
  · rw [if_neg h1]
    by_cases h2 : off ≤ x ∧ x < off + m
    · rw [if_pos h2, if_pos (by omega)]
    · rw [if_neg h2, if_neg (by omega)]

/-- The loop of `writei`: the bytes from `off` on are those of `src`. -/
theorem writeLoop (fuel off : ℕ) (src : Str) (h : Writing sb s k i d (need u) ∅ v g s1) (hoff : off ≤ v)
    (hvu : v ≤ u) (hfuel : src.length ≤ fuel)
    (hr : Room sb E o
      (L + rounds off src.length +
        (if newBlocks u off src.length = 0 ∨ off + src.length ≤ 7 * 512 then 0
      else owed d s1.lh)) (A + newBlocks u off src.length) s1)
    (hL : newBlocks u off src.length ≠ 0 → 1 ≤ L)
    (hE : MAXFILE * BSIZE < off + src.length → E (.panic "bmap: out of range")) :
    Sat (writeLoop sb k fuel off src) s1 (fun _ s2 => ∃ d',
      Writing sb s k i d' (need (max u (off + src.length))) ∅ (max v (off + src.length))
      (g.splice off src.length fun j => src.getD j 0) s2 ∧ Room sb E o L A s2) E := by
  induction fuel generalizing off src d u v g s1 with
  | zero => exact .pure ⟨d, h.write_nil hoff hvu (by omega) _, hr.mono (by omega) (by omega)⟩
  | succ fuel ih =>
    refine .ite (fun h0 => .pure ⟨d, h.write_nil hoff hvu h0 _, hr.mono (by omega) (by omega)⟩)
      fun h0 => ?_
    obtain ⟨m, hm⟩ : ∃ m, m = min src.length (512 - off % 512) := ⟨_, rfl⟩
    have hlen : (src.drop m).length = src.length - m := List.length_drop
    rw [← hm]
    have hneed : need (max u (off / 512 * 512 + 1)) = need (max u (off + m)) := by
      ext n
      simp only [need, Set.mem_ofPred_eq]
      omega
    have hblocks : blocksFor (max u (off / 512 * 512 + 1)) = blocksFor (max u (off + m)) := by
      unfold blocksFor
      split <;> split <;> omega
    -- this round and the others
    have hrounds : rounds off src.length = rounds (off + m) (src.drop m).length + 1 := by
      rw [hlen]
      exact rounds_step h0 hm
    have hend : off + m + (src.drop m).length = off + src.length := by omega
    have hnew : newBlocks (max u (off + m)) (off + m) (src.drop m).length +
      (blocksFor (max u (off / 512 * 512 + 1)) - blocksFor u) =
        newBlocks u off src.length := by
      unfold newBlocks
      rw [hblocks, hend, max_assoc, max_eq_right (show off + m ≤ off + src.length by omega)]
      have h1 : blocksFor u ≤ blocksFor (max u (off + m)) := blocksFor_mono (by omega)
      have h2 : blocksFor (max u (off + m)) ≤ blocksFor (max u (off + src.length)) :=
        blocksFor_mono (by omega)
      omega
    have hfresh : off / 512 < 135 → off / 512 ∉ need u → newBlocks u off src.length ≠ 0 :=
      fun hlt hn => by
      rw [mem_need hlt] at hn
      have : blocksFor u < blocksFor (max u (off / 512 * 512 + 1)) := by
        unfold blocksFor
        split <;> split <;> omega
      omega
    -- what the indirect block costs in the others
    obtain ⟨x, hx⟩ : ∃ x, x =
      if newBlocks (max u (off + m)) (off + m) (src.drop m).length = 0 ∨ off + src.length ≤ 7 * 512
      then 0 else if off / 512 ∈ need u ∨ off / 512 < 7 then owed d s1.lh else 0 := ⟨_, rfl⟩
    have hsum : off / 512 < 135 → x + dues u d s1.lh (off / 512) ≤
        (if off / 512 ∈ need u then 0 else 1) + if newBlocks u off src.length = 0 ∨
          off + src.length ≤ 7 * 512 then 0 else owed d s1.lh := fun hlt => by
      rw [hx, dues]
      by_cases hn : off / 512 ∈ need u
      · rw [if_pos hn, if_pos hn, if_pos (show off / 512 ∈ need u ∨ off / 512 < 7 from .inl hn)]
        split_ifs <;> omega
      · have hf := hfresh hlt hn
        rw [if_neg hn, if_neg hn]
        by_cases h7 : off / 512 < 7
        · rw [if_pos h7, if_pos (show off / 512 ∈ need u ∨ off / 512 < 7 from .inr h7)]
          split_ifs <;> omega
        · rw [if_neg h7, if_neg (not_or.mpr ⟨hn, h7⟩), ite_self, if_neg (by omega)]
          omega
    refine (h.bmap hi ht (L := L + rounds (off + m) (src.drop m).length +
      (if off / 512 ∈ need u then 1 else 0) + x)
      (A := A + newBlocks (max u (off + m)) (off + m) (src.drop m).length)
        (show off / 512 * 512 ≤ u by omega) hvu
      (fun hlt => hr.mono ?_ (by omega)) (fun hlt hn => by have := hL (hfresh hlt hn); omega)
      fun hge => hE (by rw [maxfile_bytes]; omega)).bind
      fun b s2 ⟨hlt, d', h₂, hr2, hlog, howed, hb⟩ => ?_
    · have := hsum hlt
      split_ifs at this ⊢ <;> omega
    subst hb
    have hmem : off / 512 ∈ need (max u (off / 512 * 512 + 1)) := (mem_need hlt).mpr (by omega)
    obtain ⟨L', hL'⟩ : ∃ L', L + rounds (off + m) (src.drop m).length +
      (if off / 512 ∈ need u then 1 else 0) + x = L' + 1 := by
      refine ⟨_, (Nat.sub_add_cancel ?_).symm⟩
      split_ifs with hn
      · omega
      · have := hL (hfresh hlt hn)
        omega
    rw [hL'] at hr2
    refine .get_bind ((h₂.splice hi ht hr2 _ hlt hmem hoff (by omega)).bind
      fun _ s3 ⟨h3, hr3, hlh3⟩ => ?_)
    rw [hneed] at h3
    have howed3 : owed d' s3.lh ≤ owed d' s2.lh := owed_mono rfl fun c hc => (hlh3 c).mpr (.inl hc)
    refine (ih (off + m) (src.drop m) h3 (by omega) (by omega) (by omega) (hr3.mono ?_ le_rfl)
      (fun hne => hL (by omega))
      fun hlt => hE (by omega)).post fun _ s4 ⟨d4, h4, hr4⟩ => ⟨d4, write_append (by omega) h4, hr4⟩
    have hxle : (if newBlocks (max u (off + m)) (off + m) (src.drop m).length = 0 ∨
        off + m + (src.drop m).length ≤ 7 * 512 then 0 else owed d' s3.lh) ≤ x := by
      rw [hx, hend]
      split
      · exact le_rfl
      · exact howed3.trans howed
    by_cases hn : off / 512 ∈ need u
    · rw [if_pos hn] at hL'
      have hge : L' ≤ if ptr s2.disk d' (off / 512) ∈ s2.lh then L' + 1 else L' := by split <;> omega
      omega
    · rw [if_neg hn] at hL'
      rw [if_pos (hlog hn)]
      omega

/-! ### The whole write -/

/-- The inode has been stored with what the write has made of it. -/
theorem stored (h : Writing sb s k i d S ∅ v g s1) (hd' : d' = { d with size := d'.size })
    (hcache : s2.icache = update s.icache k { s.icache k with d := d' })
    (hfrees : ∀ j, s2.frees j = s1.frees j)
    (hino : ∀ j, j < sb.ninodes → inoOf sb s2.disk j = if j = i then d' else inoOf sb s1.disk j)
    (hdata : ∀ b, sb.nmeta ≤ b → s2.disk b = s1.disk b)
    (hused : ∀ b, b < sb.size → usedAt sb s2.disk b = usedAt sb s1.disk b) :
    Stored sb s s2 k i d' ∧ (∀ n, ptr s2.disk d' n = ptr s1.disk d n) ∧
      ∀ x, byteOf s2.disk d' x = byteOf s1.disk d x := by
  have haddrs : d'.addrs = d.addrs := by rw [hd']
  have hself : Untouched s1.disk s2.disk d := by
    have := untouched_meta h.own hi (h.type_self ht) hdata
    rwa [update_self] at this
  have hptr : ∀ n, ptr s2.disk d' n = ptr s1.disk d n := fun n => by
    rw [← hself.ptr n]
    exact ptr_congr haddrs (fun _ => rfl) n
  have hother : ∀ j, j < sb.ninodes → j ≠ i → (inoOf sb s.disk j).type ≠ 0 →
      Untouched s1.disk s2.disk (inoOf sb s.disk j) := fun j hj hji htj => by
    have := untouched_meta h.own hj (by rw [update_of_ne hji]; exact htj) hdata
    rwa [update_of_ne hji] at this
  refine ⟨⟨hcache, by rw [hino i hi, if_pos rfl], fun j => (hfrees j).trans (h.frees j), ⟨fun
    j hj hji => ?_,
    fun j hj hji htj => (h.frame j hj hji htj).trans (hother j hj hji htj)⟩, ?_⟩, hptr, fun x => ?_⟩
  · rw [hino j hj, if_neg hji, h.ino j hj]
  · refine h.own.congr (sites_congr (fun j hj => ?_) fun j hj htj n => ?_) hused
    · rw [hino j hj]
      by_cases hji : j = i
      · rw [if_pos hji, hji, update_self, hd']
      · rw [if_neg hji, update_of_ne hji, h.ino j hj]
    · rw [hino j hj]
      by_cases hji : j = i
      · rw [if_pos hji, hji, update_self, hptr]
      · rw [update_of_ne hji] at htj ⊢
        rw [if_neg hji, h.ino j hj, (hother j hj hji htj).ptr]
  · rw [← hself.byteOf, byteOf, byteOf, hptr, hself.ptr]

theorem written (h : Writing sb s k i d (need u) ∅ u (Mem.splice (byteOf s.disk (inoOf sb s.disk i))
    off n f) s1) (hu : u = max (inoOf sb s.disk i).size.toNat (off + n))
    (hd' : d' = { d with size := d'.size }) (hsize : d'.size.toNat = u)
    (hcache : s2.icache = update s.icache k { s.icache k with d := d' })
    (hfrees : ∀ j, s2.frees j = s1.frees j)
    (hino : ∀ j, j < sb.ninodes → inoOf sb s2.disk j = if j = i then d' else inoOf sb s1.disk j)
    (hdata : ∀ b, sb.nmeta ≤ b → s2.disk b = s1.disk b)
    (hused : ∀ b, b < sb.size → usedAt sb s2.disk b = usedAt sb s1.disk b) :
      Written sb s k i off n f s2 := by
  obtain ⟨hs, hptr, hbyte⟩ := h.stored hi ht hd' hcache hfrees hino hdata hused
  have hself := hs.self
  refine ⟨by rw [hself]; exact hs, ?_, by rw [hself, hsize, hu], ?_, fun x hx => ?_⟩
  · rw [hself, hd', h.fields]
  · rw [hself, hsize]
    exact shaped_iff.mpr fun n hn => by rw [hptr]; exact h.blocks n hn
  · rw [hself, hsize] at hx
    rw [hself, hbyte, h.content x hx]

end Writing

/-- Entry `k` of the cache has a true copy of inode `i`, which is a file or a directory. -/
structure Loaded (sb : Superblock) (s : Fs) (k : Slot) (i : ℕ) : Prop where
  lt : i < sb.ninodes
  inum : (s.icache k).inum = i
  copy : (s.icache k).d = inoOf sb s.disk i
  used : (inoOf sb s.disk i).type ≠ 0
  file : (inoOf sb s.disk i).type ≠ T_DEV

/-- Every used block has one owner, and the contents of inode `i` the blocks they need. -/
structure Sited (sb : Superblock) (D : Disk) (i : ℕ) : Prop where
  own : Owned sb.nmeta sb.size (sites sb D (inoOf sb D)) (usedAt sb D) ∅
  shape : Shaped D (inoOf sb D i) (inoOf sb D i).size.toNat

theorem Ok.loaded (h : Ok sb c H N s) (hk : (k, some (i, ty)) ∈ H) (hdev : ty ≠ T_DEV) :
    Loaded sb s k i := by
  obtain ⟨hinum, -, hi, hd, hty, hty0⟩ := h.at_known hk
  exact ⟨hi, hinum, hd, hty ▸ hty0, hty ▸ hdev⟩

theorem DiskOk.sited (h : DiskOk sb D) (hi : i < sb.ninodes) (ht : (inoOf sb D i).type ≠ 0)
    (hdev : (inoOf sb D i).type ≠ T_DEV) : Sited sb D i := ⟨h.own, h.shape i hi ht hdev⟩

/-- A write to the contents of inode `i` begins. -/
theorem Loaded.writing (h : Loaded sb s k i) (hs : Sited sb s.disk i) :
    Writing sb s k i (inoOf sb s.disk i) (need (inoOf sb s.disk i).size.toNat) ∅
    (inoOf sb s.disk i).size.toNat
      (byteOf s.disk (inoOf sb s.disk i)) s := by
  refine ⟨?_, rfl, fun _ => rfl, fun _ _ => rfl, ?_, fun _ _ _ _ => ⟨fun _ => rfl, fun _ _ _ => rfl⟩,
    shaped_iff.mp hs.shape, fun _ _ => rfl, subset_rfl, fun _ => rfl⟩
  · rw [← h.copy, update_eq_self]
  · rw [update_eq_self]
    exact hs.own

/-- What `writei` comes to: all is written, or it returns -1 and has done nothing. -/
def WriteDone (sb : Superblock) (s : Fs) (k : Slot) (i off : ℕ) (src : Str) (s' : Fs) : Option ℕ → Prop
  | none => s' = s ∧ ((inoOf sb s.disk i).size.toNat < off ∨ (off + src.length) % 2 ^ 32 < off ∨
    MAXFILE * BSIZE < off + src.length)
  | some n => n = src.length ∧ off ≤ (inoOf sb s.disk i).size.toNat ∧ off + src.length ≤ MAXFILE * BSIZE ∧
      Written sb s k i off src.length (fun j => src.getD j 0) s'

/-- How many different blocks a write puts in the log, besides those of the bitmap: the data, the
inode if it grows, and the indirect block if it gets a new address. -/
def logBlocks (size off n : ℕ) : ℕ :=
  rounds off n + (if size < off + n then 1 else 0) +
    if newBlocks size off n = 0 ∨ off + n ≤ 7 * 512 then 0 else 1

/-- **`writei` replaces the bytes from `off` on by those of `src`.** -/
theorem sat_writei (h : Loaded sb s k i) (hs : Sited sb s.disk i) (src : Str) (off : ℕ)
    (hr : Room sb E o (L + logBlocks (inoOf sb s.disk i).size.toNat off src.length)
      (A + newBlocks (inoOf sb s.disk i).size.toNat off src.length) s) :
    Sat (writei sb k src off) s (fun r s' => WriteDone sb s k i off src s' r ∧ Room sb E o L A s') E := by
  have hi := h.lt
  have ht := h.used
  have hw := h.writing hs
  obtain ⟨size, hsize⟩ : ∃ n, n = (inoOf sb s.disk i).size.toNat := ⟨_, rfl⟩
  have hnone : (inoOf sb s.disk i).size.toNat < off ∨ (off + src.length) % 2 ^ 32 < off ∨
      MAXFILE * BSIZE < off + src.length → WriteDone sb s k i off src s none ∧ Room sb E o L A s :=
    fun p => ⟨⟨rfl, p⟩, hr.mono (by omega) (by omega)⟩
  refine .get_bind ?_
  rw [h.copy, if_neg h.file]
  refine .ite (fun hno => .pure (hnone (by omega))) fun hoff =>
    .ite (fun hno => .pure (hnone (by omega))) fun hmax => ?_
  rw [← hsize] at hw hoff hr ⊢
  have hloop : Room sb E o (L + (if size < off + src.length then 1 else 0) + rounds off src.length +
      (if newBlocks size off src.length = 0 ∨ off + src.length ≤ 7 * 512 then 0
        else owed (inoOf sb s.disk i) s.lh)) (A + newBlocks size off src.length) s := by
    refine hr.mono ?_ le_rfl
    have : owed (inoOf sb s.disk i) s.lh ≤ 1 := by
      unfold owed
      split <;> omega
    unfold logBlocks
    split_ifs <;> omega
  have hgrows : newBlocks size off src.length ≠ 0 → size < off + src.length := fun hne => by
    by_contra hle
    rw [newBlocks, max_eq_left (by omega), Nat.sub_self] at hne
    exact hne rfl
  refine (hw.writeLoop hi ht src.length off src (by omega) le_rfl le_rfl hloop
    (fun hne => by rw [if_pos (hgrows hne)]; omega) fun hlt => by omega).bind fun _ s1 ⟨d, h1, hr1⟩ => ?_
  refine .bind (Q := fun _ s2 => Written sb s k i off src.length (fun j => src.getD j 0) s2 ∧
    Room sb E o L A s2)
    (.when (fun hgrow => .modify_bind ?_) fun hgrow => ⟨?_, hr1.mono (by omega) le_rfl⟩)
    fun _ s2 ⟨h2, hr2⟩ => .pure ⟨⟨rfl, by omega, by omega, h2⟩, hr2⟩
  · have hmaxeq : max size (off + src.length) = off + src.length := by omega
    rw [hmaxeq] at h1
    rw [if_pos (by omega)] at hr1
    have hr' : Room sb E o (L + 1) A (s1.setInode k
        { s1.icache k with d := { (s1.icache k).d with size := UInt32.ofNat (off + src.length) } }) :=
      hr1.of_same rfl rfl fun _ _ => rfl
    refine (room_iupdate hr' ?_).post fun _ s2 ⟨hw2, hr2⟩ => ⟨?_, hr2⟩
    · simp only [Fs.setInode_self, h1.cache, update_self, h.inum]
      exact hi
    obtain ⟨d', hd'⟩ : ∃ d', d' = { d with size := UInt32.ofNat (off + src.length) } := ⟨_, rfl⟩
    have hid : d'.copyId = d' := by
      have hsame : d'.id = (inoOf sb s.disk i).id := by rw [hd', h1.fields]
      rw [copyId_eq_iff, hsame]
      exact copyId_eq_iff.mp (copyId_inoOf s.disk i)
    have hdisk := hw2.disk
    have hcache := hw2.icache
    simp only [Fs.setInode, h1.cache, update_self, update_idem, ← hd', hid] at hdisk hcache
    rw [h.inum] at hdisk
    have hsz : d'.size.toNat = off + src.length := by
      rw [hd']
      exact toNat_ofNat_of_lt (by rw [maxfile_bytes] at hmax; omega)
    refine h1.written hi ht (by omega) (by rw [hd']) hsz hcache hw2.frees (fun j hj => ?_)
      (fun b hb => ?_)
      fun b hb => ?_
    · rw [hdisk, inoOf_setDinode, hid]
    · rw [hdisk, setDinode_data hi hb]
    · rw [hdisk, usedAt_setDinode hi hb]
  · have hmaxeq : max size (off + src.length) = size := by omega
    rw [hmaxeq] at h1
    have hd1 : d = inoOf sb s.disk i := h1.clean (hsize ▸ subset_rfl)
    subst hd1
    refine h1.written hi ht (by omega) rfl hsize.symm h1.cache (fun _ => rfl) (fun j hj =>
      ?_) (fun _ _ => rfl)
      fun _ _ => rfl
    rw [h1.ino j hj]
    split_ifs with hji
    · rw [hji]
    · rfl

/-- What a write to a directory has to be: an entry, for an inode of the disk, in a
directory that may be written. -/
structure EntryWrite (sb : Superblock) (N : List Fact) (i : ℕ) (src : Str) (off : ℕ) : Prop where
  may : .may i ∈ N
  aligned : off % 16 = 0
  length : src.length = 16
  inum : (src.getD 0 0).toNat + 256 * (src.getD 1 0).toNat < sb.ninodes

/-- A write keeps the file system sound. -/
theorem Ok.written {src : Str} (h : Ok sb c H N s) (hk : (k, some (i, ty)) ∈ H)
    (hoff : off ≤ (inoOf sb s.disk i).size.toNat)
    (hw : Written sb s k i off src.length (fun j => src.getD j 0) s')
    (hdir : ty = T_DIR → EntryWrite sb N i src off) : Ok sb c H N s' := by
  obtain ⟨-, -, hi, -, hty, -⟩ := h.at_known hk
  have hself : (inoOf sb s'.disk i).type = ty := by rw [hw.fields, hty]
  refine h.store hk hw.stored hself (fun _ => hw.shape) (fun hty' off' h1 h2 => ?_) fun hl hsince => ?_
  · -- the entries of a directory are those that were there, and the new one
    obtain ⟨-, hal, hlen, hnum⟩ := hdir hty'
    have hsize := hw.size
    rw [entryAt, hw.byte _ (by omega), hw.byte _ (by omega)]
    by_cases heq : off' = off
    · subst heq
      rw [Mem.splice_of_mem (by omega) (by omega), Mem.splice_of_mem (by omega) (by omega)]
      simpa using hnum
    · rw [Mem.splice, if_neg (by omega), Mem.splice, if_neg (by omega)]
      exact h.disk.dirs i hi (hty.trans hty') off' h1 (by omega)
  · have htype : (inoOf sb s'.disk i).type = (inoOf sb s.disk i).type := by rw [hw.fields]
    have hid : (inoOf sb s'.disk i).id = (inoOf sb s.disk i).id := by rw [hw.fields]
    have hmode : (inoOf sb s'.disk i).mode = (inoOf sb s.disk i).mode := by rw [hw.fields]
    refine ⟨htype.trans hsince.type, hid.trans hsince.owner, hmode.symm ▸ hsince.mode, fun hcd => .inl ?_⟩
    exact h.facts _ (hdir (hty.symm.trans (hsince.type.trans hcd))).may hl

/-- **`writei` keeps the file system sound.** -/
theorem ok_writei (h : Ok sb c H N s) (hk : (k, some (i, ty)) ∈ H) (src : Str) (off : ℕ)
    (hdir : ty = T_DIR → EntryWrite sb N i src off) :
    Sat (writei sb k src off) s (fun _ => Ok sb c H N) Fine := by
  obtain ⟨-, -, hi, hd, hty, hty0⟩ := h.at_known hk
  by_cases hdev : ty = T_DEV
  · refine .get_bind ?_
    rw [hd, if_pos (hty.trans hdev)]
    refine .ite (fun _ => ?_) fun _ => .pure h
    exact (ok_iunlock h).bind fun _ s1 h1 => (ok_ilock_valid h1).bind fun _ s2 h2 => .pure h2.1
  · have hs := h.disk.sited hi (hty ▸ hty0) (hty ▸ hdev)
    refine (sat_writei (L := 0) (A := 0) (h.loaded hk hdev) hs src off .fine).post fun r s' ⟨hr, _⟩ => ?_
    match r with
    | none => exact hr.1 ▸ h
    | some n => exact h.written hk hr.2.1 hr.2.2.2 hdir

end

end Xv6
