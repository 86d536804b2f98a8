/-
# What the inodes of a disk hold

An inode points at blocks: with addresses 0 to 6 directly, with 7 to 134 through the
entries of its indirect block, and at that block itself (here address 135). The bytes
of its contents are those of the first 135.

A block belongs to what points at it. So a write to a block leaves alone every
inode that does not point at the block (`untouched`), and what the three ways to store
an address do to one inode is said by `ptr_setAddr`, `ptr_setIndirect` and `ptr_setEntry`.
-/
import Xv6.Fs.Dir
import Xv6.Lib.Owned

namespace Xv6

/-- What address `n` of the inode holds. -/
def ptr (D : Disk) (d : Dinode) (n : ℕ) : ℕ :=
  if h : n < 7 then (d.addrs ⟨n, direct_lt h⟩).toNat
  else if n < 135 then
    if d.addrs 7 = 0 then 0 else ((D (d.addrs 7).toNat).word32 (4 * (n - 7))).toNat
  else if n = 135 then (d.addrs 7).toNat
  else 0

/-- Byte `x` of the contents. -/
def byteOf (D : Disk) (d : Dinode) (x : ℕ) : UInt8 :=
  if x / 512 < 135 ∧ ptr D d (x / 512) ≠ 0 then D (ptr D d (x / 512)) (x % 512) else 0

/-- Contents of `v` bytes have exactly the blocks they need. -/
structure Shaped (D : Disk) (d : Dinode) (v : ℕ) : Prop where
  block : ∀ n, n < 135 → (ptr D d n ≠ 0 ↔ n * 512 < v)
  indirect : ptr D d 135 ≠ 0 ↔ 7 * 512 < v

/-- The i-number in the directory entry at `off`. -/
def entryAt (D : Disk) (d : Dinode) (off : ℕ) : ℕ :=
  (byteOf D d off).toNat + 256 * (byteOf D d (off + 1)).toNat

section

variable (sb : Superblock)

/-- The inode `i`, as `ilock` copies it. -/
def inoOf (D : Disk) (i : ℕ) : Dinode := (dinodeAt sb D i).copyId

/-- What each address of each inode in use holds. -/
def sites (D : Disk) (T : ℕ → Dinode) (x : ℕ × ℕ) : ℕ :=
  if x.1 < sb.ninodes ∧ (T x.1).type ≠ 0 then ptr D (T x.1) x.2 else 0

/-- The entries of a directory name inodes of the disk. -/
def DirOk (D : Disk) (d : Dinode) : Prop :=
  ∀ off, off % 16 = 0 → off + 16 ≤ d.size.toNat → entryAt D d off < sb.ninodes

end

/-- The inode points at the same blocks, with the same data. -/
structure Untouched (D D' : Disk) (d : Dinode) : Prop where
  ptr : ∀ n, ptr D' d n = ptr D d n
  data : ∀ n, n < 135 → Xv6.ptr D d n ≠ 0 → D' (Xv6.ptr D d n) = D (Xv6.ptr D d n)

namespace Untouched

variable {sb : Superblock} {D D' : Disk} {d : Dinode}

theorem byteOf (h : Untouched D D' d) (x : ℕ) : byteOf D' d x = byteOf D d x := by
  rw [Xv6.byteOf, Xv6.byteOf, h.ptr]
  by_cases hx : x / 512 < 135 ∧ Xv6.ptr D d (x / 512) ≠ 0
  · rw [if_pos hx, if_pos hx, h.data _ hx.1 hx.2]
  · rw [if_neg hx, if_neg hx]

theorem shaped (h : Untouched D D' d) {v : ℕ} (hs : Shaped D d v) : Shaped D' d v :=
  ⟨fun n hn => by rw [h.ptr]; exact hs.block n hn, by rw [h.ptr]; exact hs.indirect⟩

theorem dirOk (h : Untouched D D' d) (hd : DirOk sb D d) : DirOk sb D' d := fun off h1 h2 => by
  rw [entryAt, h.byteOf, h.byteOf]
  exact hd off h1 h2

end Untouched

section

variable {sb : Superblock} {D D' : Disk} {T : ℕ → Dinode} {d d' : Dinode} {i j b n m : ℕ}
  {mark : ℕ → Bool} {F : Set ℕ}

theorem sites_eq (hi : i < sb.ninodes) (ht : (T i).type ≠ 0) (n : ℕ) :
    sites sb D T (i, n) = ptr D (T i) n := if_pos ⟨hi, ht⟩

/-- The addresses of an inode depend on its `addrs` and on its indirect block. -/
theorem ptr_congr (ha : d'.addrs = d.addrs)
    (hD : d.addrs 7 ≠ 0 → D' (d.addrs 7).toNat = D (d.addrs 7).toNat) (n : ℕ) :
    ptr D' d' n = ptr D d n := by
  unfold ptr
  rw [ha]
  by_cases h7 : d.addrs 7 = 0
  · simp only [h7, if_true]
  · simp only [hD h7]

theorem ptr_indirect (D : Disk) (d : Dinode) : ptr D d 135 = (d.addrs 7).toNat := rfl

theorem addrs_ne_zero : d.addrs 7 ≠ 0 ↔ ptr D d 135 ≠ 0 := by
  rw [ptr_indirect, ne_eq, ne_eq, ← UInt32.toNat_inj]
  rfl

/-- **A write to a block leaves alone who does not point at it.** -/
theorem untouched (h : Owned sb.nmeta sb.size (sites sb D T) mark F) (hj : j < sb.ninodes)
    (ht : (T j).type ≠ 0) (hD : ∀ c, sb.nmeta ≤ c → c ≠ b → D' c = D c)
    (hb : ∀ n, ptr D (T j) n ≠ 0 → ptr D (T j) n ≠ b) : Untouched D D' (T j) := by
  have hsame : ∀ n, ptr D (T j) n ≠ 0 → D' (ptr D (T j) n) = D (ptr D (T j) n) := by
    intro n hn
    have hr := h.range (j, n)
    rw [sites_eq hj ht] at hr
    exact hD _ (hr hn).1 (hb n hn)
  exact ⟨fun n => ptr_congr rfl (fun h7 => hsame 135 (addrs_ne_zero.mp h7)) n, fun n _ => hsame n⟩

/-- No two inodes point at one block, nor does one twice. -/
theorem ptr_inj (h : Owned sb.nmeta sb.size (sites sb D T) mark F) (hi : i < sb.ninodes)
    (hj : j < sb.ninodes) (hti : (T i).type ≠ 0) (htj : (T j).type ≠ 0) (hn : ptr D (T i) n ≠ 0)
    (heq : ptr D (T i) n = ptr D (T j) m) : i = j ∧ n = m := by
  have := h.inj (i, n) (j, m)
  rw [sites_eq hi hti, sites_eq hj htj] at this
  exact Prod.mk.inj (this hn heq)

/-! ### Storing an address -/

theorem toNat_ofNat_of_lt (hb : b < 2 ^ 32) : (UInt32.ofNat b).toNat = b := by
  rw [UInt32.toNat_ofNat', Nat.mod_eq_of_lt hb]

theorem setAddr_self (n : Fin 8) (d : Dinode) : (setAddr n b d).addrs n = UInt32.ofNat b :=
  Function.update_self ..

theorem setAddr_ne {k n : Fin 8} (h : k ≠ n) (d : Dinode) : (setAddr n b d).addrs k = d.addrs k :=
  Function.update_of_ne h ..

theorem ptr_setAddr (hn : n < 7) (hb : b < 2 ^ 32) (m : ℕ) :
    ptr D (setAddr ⟨n, by omega⟩ b d) m = if m = n then b else ptr D d m := by
  have h7 : (setAddr ⟨n, by omega⟩ b d).addrs 7 = d.addrs 7 :=
    setAddr_ne (Fin.ne_of_val_ne hn.ne') d
  unfold ptr
  rw [h7]
  by_cases hm : m < 7
  · rw [dif_pos hm, dif_pos hm]
    by_cases hmn : m = n
    · subst hmn
      rw [if_pos rfl, setAddr_self, toNat_ofNat_of_lt hb]
    · rw [if_neg hmn, setAddr_ne fun h => hmn (congrArg Fin.val h)]
  · rw [dif_neg hm, dif_neg hm, if_neg (show ¬m = n by omega)]

/-- The address of an indirect block of zeros. -/
theorem ptr_setIndirect (h0 : d.addrs 7 = 0) (hb : b < 2 ^ 32) (hz : ∀ x, D b x = 0) (m : ℕ) :
    ptr D (setAddr 7 b d) m = if m = 135 then b else ptr D d m := by
  unfold ptr
  rw [setAddr_self, toNat_ofNat_of_lt hb, h0]
  by_cases hm : m < 7
  · rw [dif_pos hm, dif_pos hm, if_neg (by omega), setAddr_ne (Fin.ne_of_val_ne hm.ne)]
  · rw [dif_neg hm, dif_neg hm]
    by_cases hm' : m < 135
    · simp only [if_pos hm', if_neg (show ¬m = 135 by omega), if_true]
      simp [Mem.word32, hz]
    · simp only [if_neg hm']
      by_cases hm5 : m = 135 <;> simp [hm5]

theorem ptr_setEntry {e : ℕ} (h7 : d.addrs 7 ≠ 0) (he : e < 128) (hb : b < 2 ^ 32) (m : ℕ) :
    ptr (Function.update D (d.addrs 7).toNat
      ((D (d.addrs 7).toNat).setWord32 (4 * e) (UInt32.ofNat b))) d m =
      if m = e + 7 then b else ptr D d m := by
  unfold ptr
  by_cases hm : m < 7
  · rw [dif_pos hm, dif_pos hm, if_neg (by omega)]
  · rw [dif_neg hm, dif_neg hm]
    by_cases hm' : m < 135
    · simp only [if_pos hm', if_neg h7, Function.update_self]
      by_cases hme : m = e + 7
      · rw [if_pos hme, show 4 * (m - 7) = 4 * e by omega, Mem.word32_setWord32, toNat_ofNat_of_lt hb]
      · rw [if_neg hme, Mem.word32_setWord32_ne]
        omega
    · simp only [if_neg hm', if_neg (show ¬m = e + 7 by omega)]

end

/-! ### Transactions and locks -/

section

open Prog

variable {sb : Superblock} {s : Fs} {k : Slot} {E : Stop → Prop}

theorem sat_beginOp (hb : LOGSIZE < s.lh.length + (s.outstanding + 1) * MAXOPBLOCKS → E .sleep) :
    Sat beginOp s (fun _ s' => s' = { s with outstanding := s.outstanding + 1, trace := s.trace ++
      [.beginOp] }) E :=
  .get_bind (.ite (fun hfull => .stop (hb hfull)) fun _ => .modify rfl)

/-- `ilock` of an inode that nobody has locked leaves a copy of it in the cache. -/
theorem sat_ilock (href : 1 ≤ (s.icache k).ref) (hlock : (s.icache k).lock = false)
    (hcopy : (s.icache k).valid = true → (s.icache k).d = inoOf sb s.disk (s.icache k).inum)
    (htype : (s.icache k).valid = false → (inoOf sb s.disk (s.icache k).inum).type ≠ 0) :
    Sat (ilock sb k) s (fun _ s' => s' = s.setInode k
      { s.icache k with lock := true, valid := true, d := inoOf sb s.disk (s.icache k).inum }) E := by
  refine .get_bind (.ite (fun hlt => absurd hlt (by omega)) fun _ => ?_)
  refine .bind (Q := fun _ s' => s' = s.setInode k { s.icache k with lock := true }) ?_ ?_
  · exact .get_bind (.ite (fun h => by simp [hlock] at h) fun _ => .modify rfl)
  · rintro _ _ rfl
    refine .ite (fun hv => .pure ?_) fun hv => .get_bind (.modify_bind ?_)
    · rw [← hcopy hv, ← hv]
    · refine .ite (fun h => absurd h (htype (by simpa using hv))) fun _ => .pure ?_
      rw [Fs.setInode_self, Fs.setInode_setInode]
      rfl

theorem sat_iunlock (href : 1 ≤ (s.icache k).ref) (hlock : (s.icache k).lock = true) :
    Sat (iunlock k) s (fun _ s' => s' = s.setInode k { s.icache k with lock := false }) E := by
  refine .get_bind (.ite (fun h => ?_) fun _ => .modify rfl)
  simp [hlock] at h
  omega

/-- One reference less, if it is not the last one to an inode without links. -/
theorem sat_iput (hlock : (s.icache k).lock = false)
    (hkeep : (s.icache k).valid = false ∨ (s.icache k).d.nlink ≠ 0 ∨ (s.icache k).ref ≠ 1) :
    Sat (iput sb k) s (fun _ s' => s' = s.setInode k { s.icache k with ref := (s.icache k).ref -
      1 }) E := by
  refine .bind (Q := fun _ s' => s' = s.setInode k { s.icache k with lock := true }) ?_ ?_
  · exact .get_bind (.ite (fun h => by simp [hlock] at h) fun _ => .modify rfl)
  · rintro _ _ rfl
    refine .get_bind (.bind (Q := fun _ s' => s' = s.setInode k { s.icache k with lock := true }) ?_ ?_)
    · refine .when (fun h => ?_) fun _ => rfl
      rw [Fs.setInode_self] at h
      obtain ⟨hv, hn, hr⟩ := h
      rcases hkeep with hno | hno | hno
      · exact absurd hv (by simp [hno])
      · exact absurd hn hno
      · exact absurd hr hno
    · rintro _ _ rfl
      refine .modify_bind (.modify ?_)
      rw [Fs.setInode_self, Fs.setInode_setInode, Fs.setInode_self, Fs.setInode_setInode, ← hlock]

end

end Xv6
