/-
# How much of the log a write takes

filewrite writes at most 1536 bytes in a transaction, so that a transaction writes no more than
MAXOPBLOCKS = 10 different blocks. The count: a write that does not begin at a block's start touches
four blocks, the first of which is there already; the other three are new, each with a bit in a
bitmap block of its own; the first of them may need an indirect block, with a bit of its own; and
there is the inode.

`cost` is the number of different blocks written so far, with what the indirect block may still
cost. One round of writei adds at most two to it, or one if the block is there (`sat_round`), and a
transaction ends with at most ten (`sat_window`). Of the file system only this is needed: that the
blocks of the metadata are marked used, and that the direct blocks of the inode are not among them.
Otherwise `balloc` could return block 0, which an inode takes for no block.
-/
import Xv6.FileWrite
import Xv6.Transactions

namespace Xv6

open Prog

/-- Since the events `t₀`, when the log had `l₀` blocks, the blocks `w` have been passed to
`log_write`. -/
structure Within (t₀ : List Event) (l₀ : ℕ) (o : ℤ) (w : List ℕ) (s : Fs) : Prop where
  trace : s.trace = t₀ ++ w.map .logWrite
  length : s.lh.length ≤ l₀ + w.toFinset.card
  mem : ∀ b ∈ w, b ∈ s.lh
  out : s.outstanding = o

/-- The different blocks of `w`, and those that the indirect block of `d` may still add: its bitmap
block and itself, or only itself. -/
def cost (d : Dinode) (w : List ℕ) : ℕ :=
  w.toFinset.card + if d.addrs 7 = 0 then 2 else if (d.addrs 7).toNat ∈ w then 0 else 1

/-- The blocks of the metadata are marked used. -/
def MetaUsed (sb : Superblock) (D : Disk) : Prop := ∀ c, c < sb.size → c < sb.nmeta → usedAt sb D c = true

/-- As long as `d` has no indirect block, no block of the metadata is free or in `d`. -/
def Clean (sb : Superblock) (D : Disk) (d : Dinode) : Prop :=
  d.addrs 7 = 0 → MetaUsed sb D ∧ ∀ n, d.addrs n = 0 ∨ sb.nmeta ≤ (d.addrs n).toNat

/-- As long as `d` has no indirect block, the block of a write that begins inside of it is there. -/
def There (d : Dinode) (off : ℕ) : Prop :=
  d.type ≠ T_DEV → d.addrs 7 = 0 → off % 512 ≠ 0 → ∃ h : off / 512 < 7, d.addrs ⟨off / 512, by omega⟩ ≠ 0

/-- The panic of `log_write` is the only stop that matters. With at most nine blocks in the log
before each, it happens only if the log had too many at the start. -/
structure OnlyFull (sb : Superblock) (E : Stop → Prop) (l₀ : ℕ) : Prop where
  other : ∀ e, e ≠ .panic "too big a transaction" → E e
  full : ¬(l₀ + 9 < LOGSIZE ∧ l₀ + 10 < sb.nlog) → E (.panic "too big a transaction")

section

variable {sb : Superblock} {s s' : Fs} {D D' : Disk} {d d' : Dinode} {t₀ : List Event}
  {l₀ b off : ℕ} {o : ℤ} {w : List ℕ} {data : Block} {k : Slot} {E : Stop → Prop}

/-! ### Counting -/

theorem card_append (w : List ℕ) (b : ℕ) : (w ++ [b]).toFinset.card = w.toFinset.card +
    if b ∈ w then 0 else 1 := by
  have hset : (w ++ [b]).toFinset = insert b w.toFinset := by
    ext c
    simp
  rw [hset]
  split_ifs with h
  · rw [Finset.insert_eq_of_mem (List.mem_toFinset.mpr h), Nat.add_zero]
  · rw [Finset.card_insert_of_notMem (by rwa [List.mem_toFinset])]

theorem card_append_le (w : List ℕ) (b : ℕ) : (w ++ [b]).toFinset.card ≤ w.toFinset.card + 1 := by
  rw [card_append]
  split <;> omega

theorem cost_append (d : Dinode) (w : List ℕ) (b : ℕ) :
    cost d (w ++ [b]) ≤ cost d w + if b ∈ w then 0 else 1 := by
  unfold cost
  rw [card_append]
  by_cases h0 : d.addrs 7 = 0
  · rw [if_pos h0, if_pos h0]
    omega
  · rw [if_neg h0, if_neg h0]
    by_cases hw : (d.addrs 7).toNat ∈ w
    · rw [if_pos hw, if_pos (List.mem_append_left _ hw)]
      omega
    · rw [if_neg hw]
      have : (if (d.addrs 7).toNat ∈ w ++ [b] then 0 else 1) ≤ 1 := by split <;> omega
      omega

theorem cost_append_le (d : Dinode) (w : List ℕ) (b : ℕ) : cost d (w ++ [b]) ≤ cost d w + 1 := by
  have := cost_append d w b
  split at this <;> omega

/-- The indirect block has been counted. -/
theorem cost_indirect (h : d.addrs 7 ≠ 0) (w : List ℕ) :
    cost d (w ++ [(d.addrs 7).toNat]) = cost d w := by
  unfold cost
  rw [if_neg h, if_neg h, card_append, if_pos (List.mem_append_right _ (List.mem_singleton_self _))]
  rfl

theorem card_le_cost (d : Dinode) (w : List ℕ) : w.toFinset.card ≤ cost d w := Nat.le_add_right ..

theorem cost_congr (h : d'.addrs 7 = d.addrs 7) (w : List ℕ) : cost d' w = cost d w := by
  unfold cost
  rw [h]

namespace Within

theorem of_same (h : Within t₀ l₀ o w s) (ht : s'.trace = s.trace) (hl : s'.lh = s.lh)
    (ho : s'.outstanding = s.outstanding) : Within t₀ l₀ o w s' :=
  ⟨ht.trans h.trace, by rw [hl]; exact h.length, by rw [hl]; exact h.mem, ho.trans h.out⟩

theorem logged (h : Within t₀ l₀ o w s) (b : ℕ) (data : Block) : Within t₀ l₀ o (w ++ [b])
    (s.logged b data) := by
  have hlh : (s.logged b data).lh = if b ∈ s.lh then s.lh else s.lh ++ [b] := rfl
  refine ⟨?_, ?_, fun c hc => ?_, h.out⟩
  · change s.trace ++ [.logWrite b] = _
    rw [h.trace, List.map_append, List.append_assoc]
    rfl
  · have := h.length
    rw [hlh, card_append]
    by_cases hb : b ∈ s.lh
    · rw [if_pos hb]
      omega
    · rw [if_neg hb, if_neg fun hw => hb (h.mem b hw), List.length_append, List.length_singleton]
      omega
  · rw [hlh]
    rcases List.mem_append.mp hc with hw | hb
    · split
      · exact h.mem c hw
      · exact List.mem_append_left _ (h.mem c hw)
    · rw [List.mem_singleton.mp hb]
      split
      · assumption
      · exact List.mem_append_right _ (List.mem_singleton_self b)

end Within

/-! ### The metadata -/

theorem MetaUsed.setUsed (h : MetaUsed sb D) (b : ℕ) : MetaUsed sb (setUsed sb D b true) :=
    fun c hc hm => by
  rw [usedAt_setUsed]
  split
  · rfl
  · exact h c hc hm

theorem MetaUsed.update (h : MetaUsed sb D) (hb : b < sb.bmapstart ∨ sb.nmeta ≤ b) (data : Block) :
    MetaUsed sb (Function.update D b data) := fun c hc hm => by
  rw [usedAt_update hc hb]
  exact h c hc hm

/-- A free block is a data block. -/
theorem MetaUsed.le_of_free (h : MetaUsed sb D) (hb : b < sb.size) (hfree : usedAt sb D b = false) :
    sb.nmeta ≤ b := by
  by_contra hlt
  rw [h b hb (by omega)] at hfree
  cases hfree

end

/-! ### One block -/

section

variable {sb : Superblock} {s s' : Fs} {t₀ : List Event} {l₀ b bn off : ℕ} {o : ℤ} {w : List ℕ}
  {k : Slot} {E : Stop → Prop} {len m : ℕ}

theorem sat_log (hA : OnlyFull sb E l₀) (h : Within t₀ l₀ o w s) (hcard : w.toFinset.card ≤ 9)
    (b : ℕ) (data : Block) : Sat (logWrite sb b data) s (fun _ s' => s' = s.logged b data) E := by
  have := h.length
  refine .get_bind (.ite (fun hfull => .stop (hA.full (by omega))) fun _ =>
    .ite (fun _ => .stop (hA.other _ (by simp))) fun _ => .modify rfl)

/-- `balloc` writes the bitmap and the block. -/
theorem sat_ballocFrom (hA : OnlyFull sb E l₀) (h : Within t₀ l₀ o w s)
    (hcard : w.toFinset.card + 1 ≤ 9) (fuel b0 : ℕ) (hsize : b0 + fuel = sb.size) :
    Sat (ballocFrom sb fuel b0) s (fun b s' => b < sb.size ∧ usedAt sb s.disk b = false ∧
      s'.icache = s.icache ∧ s'.disk = Function.update (setUsed sb s.disk b true) b (fun _ => 0) ∧
      Within t₀ l₀ o (w ++ [sb.BBLOCK b] ++ [b]) s') E := by
  induction fuel generalizing b0 with
  | zero => exact .stop (hA.other _ (by simp))
  | succ fuel ih =>
    refine .get_bind (.ite (fun _ => ih (b0 + 1) (by omega)) fun hfree => ?_)
    refine (sat_log hA h (by omega) _ _).bind ?_
    rintro _ _ rfl
    have h1 := h.logged (sb.BBLOCK b0) (setMark (s.disk (sb.BBLOCK b0)) (b0 % 4096) true)
    refine (sat_log hA h1 ((card_append_le ..).trans hcard) _ _).bind ?_
    rintro _ _ rfl
    exact .pure ⟨by omega, by simpa [usedAt] using hfree, rfl, rfl, h1.logged b0 _⟩

theorem ofNat_ne_zero (h0 : b ≠ 0) (hb : b < 2 ^ 32) : UInt32.ofNat b ≠ 0 := fun h => by
  have := congrArg UInt32.toNat h
  rw [toNat_ofNat_of_lt hb] at this
  exact h0 this

/-- After `bmap` of the block of the write at `off`: what has been written, the inode with its new
addresses, and the block. -/
structure Mapped (sb : Superblock) (t₀ : List Event) (l₀ : ℕ) (o : ℤ) (k : Slot) (bn c : ℕ) (s : Fs)
    (b : ℕ) (s' : Fs) (w : List ℕ) : Prop where
  within : Within t₀ l₀ o w s'
  cost : cost (s'.icache k).d w + (if b ∈ w then 0 else 1) ≤ c
  entry : s'.icache k = { s.icache k with d := { (s.icache k).d with addrs := (s'.icache k).d.addrs } }
  clean : Clean sb s'.disk (s'.icache k).d
  direct : (s'.icache k).d.addrs 7 = 0 → ∃ h : bn < 7, (s'.icache k).d.addrs ⟨bn, by omega⟩ ≠ 0 ∧
    b = ((s'.icache k).d.addrs ⟨bn, by omega⟩).toNat

/-- A direct block is allocated. -/
theorem mapped_direct (h : bn < 7) (hc : Clean sb s.disk (s.icache k).d) (hb : b < sb.size)
    (hfree : usedAt sb s.disk b = false) (hi : s'.icache = s.icache)
    (hdisk : s'.disk = Function.update (setUsed sb s.disk b true) b (fun _ => 0))
    (hw : Within t₀ l₀ o (w ++ [sb.BBLOCK b] ++ [b]) s') :
    Mapped sb t₀ l₀ o k bn (cost (s.icache k).d w + 2) s b
      (s'.setInode k { s'.icache k with d := setAddr ⟨bn, by omega⟩ b (s'.icache k).d })
      (w ++ [sb.BBLOCK b] ++ [b]) := by
  have hlt : b < 2 ^ 32 := hb.trans sb.size_lt
  have h7 : (7 : Fin 8) ≠ ⟨bn, by omega⟩ := Fin.ne_of_val_ne h.ne'
  have hdata : (s.icache k).d.addrs 7 = 0 → sb.nmeta ≤ b := fun h0 => (hc h0).1.le_of_free hb hfree
  have hentry :
    (s'.setInode k { s'.icache k with d := setAddr ⟨bn, by omega⟩ b (s'.icache k).d }).icache k =
      { s.icache k with d := setAddr ⟨bn, by omega⟩ b (s.icache k).d } := by rw [Fs.setInode_self, hi]
  refine ⟨hw.of_same rfl rfl rfl, ?_, ?_, ?_, ?_⟩
  · rw [hentry, if_pos (List.mem_append_right _ (List.mem_singleton_self b)),
      cost_congr (setAddr_ne h7 _), Nat.add_zero]
    have h1 := cost_append_le (s.icache k).d (w ++ [sb.BBLOCK b]) b
    have h2 := cost_append_le (s.icache k).d w (sb.BBLOCK b)
    omega
  · rw [hentry]
    rfl
  · rw [hentry, Fs.setInode_disk, hdisk]
    intro h0
    have h0' : (s.icache k).d.addrs 7 = 0 := (setAddr_ne h7 _).symm.trans h0
    obtain ⟨hm, hd⟩ := hc h0'
    refine ⟨(hm.setUsed b).update (.inr (hdata h0')) _, fun n => ?_⟩
    by_cases hn : n = ⟨bn, by omega⟩
    · right
      rw [hn, setAddr_self, toNat_ofNat_of_lt hlt]
      exact hdata h0'
    · rw [setAddr_ne hn]
      exact hd n
  · rw [hentry]
    intro h0
    have := hdata ((setAddr_ne h7 _).symm.trans h0)
    have := sb.nmeta_pos
    exact ⟨h, by rw [setAddr_self]; exact ofNat_ne_zero (by omega) hlt, by rw [setAddr_self,
      toNat_ofNat_of_lt hlt]⟩

/-- The indirect block, which has been counted from the start. -/
theorem sat_indirect (hA : OnlyFull sb E l₀) (h : Within t₀ l₀ o w s)
    (hc : Clean sb s.disk (s.icache k).d) (hcost : cost (s.icache k).d w ≤ 9) :
    Sat (orAlloc sb ((s.icache k).d.addrs 7) fun b => modD k (setAddr 7 b)) s (fun a s' => ∃ w',
      Within t₀ l₀ o w' s' ∧ (s'.icache k).d.addrs 7 ≠ 0 ∧ a = ((s'.icache k).d.addrs 7).toNat ∧
      cost (s'.icache k).d w' ≤ cost (s.icache k).d w ∧
      s'.icache k = { s.icache k with d := { (s.icache k).d with addrs := (s'.icache k).d.addrs } })
      E := by
  refine .ite (fun h0 => ?_) fun h0 => .pure ⟨w, h, h0, rfl, le_rfl, rfl⟩
  have hcost0 : cost (s.icache k).d w = w.toFinset.card + 2 := by
    unfold cost
    rw [if_pos h0]
  refine (sat_ballocFrom hA h (by omega) sb.size 0 (Nat.zero_add _)).bind ?_
  rintro b s1 ⟨hb, hfree, hi, -, hw⟩
  have hlt : b < 2 ^ 32 := hb.trans sb.size_lt
  have hmeta := (hc h0).1.le_of_free hb hfree
  have hpos := sb.nmeta_pos
  have hentry : (s1.setInode k { s1.icache k with d := setAddr 7 b (s1.icache k).d }).icache k =
      { s.icache k with d := setAddr 7 b (s.icache k).d } := by rw [Fs.setInode_self, hi]
  have h7 : (setAddr 7 b (s.icache k).d).addrs 7 = UInt32.ofNat b := setAddr_self ..
  have hne : (setAddr 7 b (s.icache k).d).addrs 7 ≠ 0 := by
    rw [h7]
    exact ofNat_ne_zero (by omega) hlt
  refine .modify_bind (.pure ⟨w ++ [sb.BBLOCK b] ++ [b], hw.of_same rfl rfl rfl, ?_, ?_, ?_, ?_⟩)
  · rw [hentry]
    exact hne
  · rw [hentry, h7, toNat_ofNat_of_lt hlt]
  · rw [hentry, hcost0]
    unfold cost
    rw [if_neg hne, h7, toNat_ofNat_of_lt hlt,
      if_pos (List.mem_append_right _ (List.mem_singleton_self b)), Nat.add_zero]
    exact (card_append_le ..).trans (Nat.add_le_add_right (card_append_le ..) 1)
  · rw [hentry]
    rfl

/-- **`bmap`** costs at most two blocks, with the data block itself. -/
theorem sat_bmap (hA : OnlyFull sb E l₀) (h : Within t₀ l₀ o w s) (hc : Clean sb s.disk (s.icache k).d)
    (hcost : cost (s.icache k).d w + 2 ≤ 9) :
    Sat (bmap sb k bn) s (fun b s' => ∃ w', Mapped sb t₀ l₀ o k bn (cost (s.icache k).d w + 2) s b
      s' w') E := by
  have hone : ∀ (b : ℕ) (w' : List ℕ), (if b ∈ w' then 0 else 1) ≤ 1 := fun b w' => by split <;> omega
  refine .get_bind ?_
  split
  · rename_i h7
    refine .ite (fun h0 => ?_) fun h0 => .pure ⟨w, h, ?_, rfl, hc, fun _ => ⟨h7, h0, rfl⟩⟩
    · have hle := card_le_cost (s.icache k).d w
      refine (sat_ballocFrom hA h (by omega) sb.size 0 (Nat.zero_add _)).bind ?_
      rintro b s1 ⟨hb, hfree, hi, hdisk, hw⟩
      exact .modify_bind (.pure ⟨_, mapped_direct h7 hc hb hfree hi hdisk hw⟩)
    · have := hone ((s.icache k).d.addrs ⟨bn, by omega⟩).toNat w
      omega
  · refine .ite (fun hlt => ?_) fun _ => .stop (hA.other _ (by simp))
    refine (sat_indirect hA h hc (by omega)).bind ?_
    rintro _ s1 ⟨w1, hw1, h7, rfl, hcost1, hentry⟩
    have hclean : ∀ D, Clean sb D (s1.icache k).d := fun D h0 => absurd h0 h7
    refine .get_bind (.ite (fun _ => ?_) fun _ => .pure ⟨w1, hw1, ?_, hentry, hclean _, fun h0 =>
      absurd h0 h7⟩)
    · have hle := card_le_cost (s1.icache k).d w1
      refine (sat_ballocFrom hA hw1 (by omega) sb.size 0 (Nat.zero_add _)).bind ?_
      rintro b s2 ⟨-, -, hi, -, hw2⟩
      have hcost2 := (cost_append_le (s1.icache k).d (w1 ++ [sb.BBLOCK b]) b).trans
        (Nat.add_le_add_right (cost_append_le (s1.icache k).d w1 (sb.BBLOCK b)) 1)
      -- the indirect block is written too
      refine (sat_log hA hw2 ((card_le_cost (s1.icache k).d _).trans (by omega)) _ _).bind ?_
      rintro _ _ rfl
      have hi3 : ∀ data, ((s2.logged ((s1.icache k).d.addrs 7).toNat data).icache k) =
        s1.icache k := fun data => by
        rw [← hi]
        rfl
      refine .pure ⟨_, hw2.logged _ _, ?_, ?_, ?_, ?_⟩
      · rw [hi3, cost_indirect h7, if_pos (by simp)]
        omega
      · rw [hi3]
        exact hentry
      · rw [hi3]
        exact hclean _
      · rw [hi3]
        exact fun h0 => absurd h0 h7
    · have := hone ((s1.disk ((s1.icache k).d.addrs 7).toNat).word32 (4 * (bn - 7))).toNat w1
      omega

/-! ### The loop of writei -/

/-- While writing: what has been written, and how the inode in entry `k` stands for a write at
`off`. -/
structure Writes (sb : Superblock) (t₀ : List Event) (l₀ : ℕ) (o : ℤ) (k : Slot) (off c : ℕ)
    (s : Fs) (s' : Fs) (w : List ℕ) : Prop where
  within : Within t₀ l₀ o w s'
  cost : cost (s'.icache k).d w ≤ c
  entry : s'.icache k = { s.icache k with d := { (s.icache k).d with addrs := (s'.icache k).d.addrs } }
  clean : Clean sb s'.disk (s'.icache k).d
  there : There (s'.icache k).d off

/-- One round adds two blocks, or one if its block is there. -/
def share (d : Dinode) (off : ℕ) : ℕ := if d.addrs 7 = 0 ∧ off % 512 ≠ 0 then 1 else 2

/-- **One round of `writei`.** -/
theorem sat_round (hA : OnlyFull sb E l₀) (h : Within t₀ l₀ o w s) (hc : Clean sb s.disk (s.icache k).d)
    (ht : There (s.icache k).d off) (hdev : (s.icache k).d.type ≠ T_DEV)
    (hcost : cost (s.icache k).d w + share (s.icache k).d off ≤ 9)
    (hm : m ≤ 512 - off % 512) (f : Block → Block) {rest : FsM Unit} {Q : Unit → Fs → Prop}
    (hrest : ∀ s' w', Writes sb t₀ l₀ o k (off + m)
      (cost (s.icache k).d w + share (s.icache k).d off) s s' w' → Sat rest s' Q E) :
    Sat (do let b ← bmap sb k (off / 512); let bp ← bread b; logWrite sb b (f bp); rest) s Q E := by
  -- the block is found or allocated, at a cost that counts its own write
  have hmap : Sat (bmap sb k (off / 512)) s (fun b s' => ∃ w',
      Mapped sb t₀ l₀ o k (off / 512) (cost (s.icache k).d w + share (s.icache k).d off) s b s' w')
        E := by
    unfold share at hcost ⊢
    split_ifs with hin
    · obtain ⟨h7, hne⟩ := ht hdev hin.1 hin.2
      have hptr : ptr s.disk (s.icache k).d (off / 512) =
        ((s.icache k).d.addrs ⟨off / 512, by omega⟩).toNat := dif_pos h7
      refine (read_bmap (fun _ h0 => hne (UInt32.toNat.inj (hptr.symm.trans h0))) fun _ =>
        hA.other _ (by simp)).post ?_
      rintro _ _ ⟨rfl, -, rfl⟩
      refine ⟨w, h, ?_, rfl, hc, fun _ => ⟨h7, hne, hptr⟩⟩
      split <;> omega
    · rw [if_neg hin] at hcost
      exact sat_bmap hA h hc hcost
  refine hmap.bind fun b s1 ⟨w1, hmp⟩ => .get_bind ?_
  have hle := card_le_cost (s1.icache k).d w1
  have hcost1 := hmp.cost
  refine (sat_log hA hmp.within (by omega) _ _).bind ?_
  rintro _ _ rfl
  refine hrest _ (w1 ++ [b]) ⟨hmp.within.logged _ _, (cost_append ..).trans hcost1, hmp.entry,
    fun h0 => ?_, fun _ h0 hin => ?_⟩
  · obtain ⟨hmeta, hdata⟩ := hmp.clean h0
    obtain ⟨h7, hne, hb⟩ := hmp.direct h0
    have hb' : sb.nmeta ≤ b := by
      rw [hb]
      exact (hdata _).resolve_left hne
    exact ⟨hmeta.update (.inr hb') _, hdata⟩
  · obtain ⟨h7, hne, -⟩ := hmp.direct h0
    have hsame : (off + m) / 512 = off / 512 := by omega
    refine ⟨by omega, ?_⟩
    simp only [hsame]
    exact hne

/-- What the rounds of a write of `len` bytes add. -/
def budget (d : Dinode) (off len : ℕ) : ℕ :=
  2 * rounds off len - if d.addrs 7 = 0 ∧ off % 512 ≠ 0 then 1 else 0

theorem share_add_budget {d d' : Dinode} (h0 : len ≠ 0) (hm : m = min len (512 - off % 512)) :
    share d off + budget d' (off + m) (len - m) ≤ budget d off len := by
  have hstep := rounds_step h0 hm
  unfold budget share
  split <;> omega

/-- **The loop of `writei`.** -/
theorem sat_writeLoop (hA : OnlyFull sb E l₀) (fuel off : ℕ) (src : Str) {s : Fs} {w : List ℕ}
    (h : Within t₀ l₀ o w s) (hc : Clean sb s.disk (s.icache k).d) (ht : There (s.icache k).d off)
    (hdev : (s.icache k).d.type ≠ T_DEV)
    (hcost : cost (s.icache k).d w + budget (s.icache k).d off src.length ≤ 9)
    (hfuel : src.length ≤ fuel) :
    Sat (writeLoop sb k fuel off src) s (fun _ s' => ∃ w', Writes sb t₀ l₀ o k (off + src.length)
      (cost (s.icache k).d w + budget (s.icache k).d off src.length) s s' w') E := by
  induction fuel generalizing off src s w with
  | zero =>
    rw [show src.length = 0 by omega]
    exact .pure ⟨w, h, Nat.le_add_right .., rfl, hc, ht⟩
  | succ fuel ih =>
    refine .ite (fun h0 => .pure ⟨w, h, Nat.le_add_right .., rfl, hc, by rw [h0]; exact ht⟩) fun h0 => ?_
    obtain ⟨m, hm⟩ : ∃ m, m = min src.length (512 - off % 512) := ⟨_, rfl⟩
    have hlen : (src.drop m).length = src.length - m := List.length_drop
    have hbudget : ∀ d', share (s.icache k).d off + budget d' (off + m) (src.drop m).length ≤
      budget (s.icache k).d off src.length :=
      fun d' => by
        rw [hlen]
        exact share_add_budget h0 hm
    have := hbudget (s.icache k).d
    rw [← hm]
    refine sat_round hA h hc ht hdev (by omega) (m := m) (by omega)
      (fun bp => bp.splice (off % 512) m fun j => src.getD j 0)
      fun s1 w1 h1 => ?_
    have hb := hbudget (s1.icache k).d
    have hcost1 := h1.cost
    have hdev1 : (s1.icache k).d.type ≠ T_DEV := by
      rw [h1.entry]
      exact hdev
    refine (ih (off + m) (src.drop m) h1.within h1.clean h1.there hdev1 (by omega) (by omega)).post ?_
    rintro _ s2 ⟨w2, h2⟩
    refine ⟨w2, h2.within, h2.cost.trans (by omega), ?_, h2.clean, ?_⟩
    · rw [h2.entry, h1.entry]
    · rw [show off + src.length = off + m + (src.drop m).length by omega]
      exact h2.there

/-! ### One transaction -/

/-- At most nine blocks, before the inode is written. -/
theorem cost_nil_add_budget (d : Dinode) (off : ℕ) (hlen : len ≤ 1536) :
    cost d [] + budget d off len ≤ 9 := by
  have hnil : cost d [] = if d.addrs 7 = 0 then 2 else 1 := by
    unfold cost
    simp
  have hrounds : rounds off len ≤ if off % 512 = 0 then 3 else 4 := by
    unfold rounds
    split <;> split <;> omega
  rw [hnil]
  unfold budget
  by_cases h7 : d.addrs 7 = 0
  · rw [if_pos h7]
    by_cases hin : off % 512 = 0
    · rw [if_pos hin] at hrounds
      omega
    · rw [if_neg hin] at hrounds
      rw [if_pos ⟨h7, hin⟩]
      omega
  · rw [if_neg h7]
    split at hrounds <;> omega

/-- The inode in entry `k` is ready for a write at `off`. -/
structure Prepared (sb : Superblock) (s : Fs) (k : Slot) (off : ℕ) : Prop where
  inum : (s.icache k).inum < sb.ninodes
  clean : Clean sb s.disk (s.loaded sb k)
  there : There (s.loaded sb k) off

theorem loaded_valid (h : (s.icache k).valid = true) : s.loaded sb k = (s.icache k).d := if_pos h

/-- After a `writei` of at most 1536 bytes: at most ten blocks have been written. -/
structure Footprint (sb : Superblock) (t₀ : List Event) (l₀ : ℕ) (o : ℤ) (k : Slot) (off : ℕ)
    (r : Option ℕ) (s' : Fs) (w : List ℕ) : Prop where
  within : Within t₀ l₀ o w s'
  card : w.toFinset.card ≤ 10
  valid : (s'.icache k).valid = true
  inum : (s'.icache k).inum < sb.ninodes
  clean : Clean sb s'.disk (s'.icache k).d
  there : ∀ n, r = some n → There (s'.icache k).d ((off + n) % 2 ^ 32)

theorem sat_lock (hA : OnlyFull sb E l₀) : Sat (ilock sb k) s (fun _ s' => s' = s.setInode k
    { s.icache k with lock := true, valid := true, d := s.loaded sb k }) E := by
  refine .get_bind (.ite (fun _ => .stop (hA.other _ (by simp))) fun _ => ?_)
  refine .bind (Q := fun _ s' => s' = s.setInode k { s.icache k with lock := true }) ?_ ?_
  · exact .get_bind (.ite (fun _ => .stop (hA.other _ (by simp))) fun _ => .modify rfl)
  · rintro _ _ rfl
    refine .ite (fun hv => .pure ?_) fun hv => .get_bind (.modify_bind ?_)
    · rw [loaded_valid hv, ← hv]
    · refine .ite (fun _ => .stop (hA.other _ (by simp))) fun _ => .pure ?_
      rw [Fs.setInode_self, Fs.setInode_setInode, Fs.loaded, if_neg hv]
      rfl

theorem sat_unlock (hA : OnlyFull sb E l₀) :
    Sat (iunlock k) s (fun _ s' => s' = s.setInode k { s.icache k with lock := false }) E :=
  .get_bind (.ite (fun _ => .stop (hA.other _ (by simp))) fun _ => .modify rfl)

/-- **One `writei`.** -/
theorem sat_writei_footprint (hA : OnlyFull sb E l₀) (h : Within t₀ l₀ o [] s)
    (hv : (s.icache k).valid = true) (hp : Prepared sb s k off) (src : Str) (hlen : src.length ≤ 1536) :
    Sat (writei sb k src off) s (fun r s' => ∃ w, Footprint sb t₀ l₀ o k off r s' w) E := by
  have hc := hp.clean
  have ht := hp.there
  rw [loaded_valid hv] at hc ht
  -- nothing is written
  have hsame : Footprint sb t₀ l₀ o k off none s [] :=
    ⟨h, by simp, hv, hp.inum, hc, fun _ hn => by cases hn⟩
  refine .get_bind (.ite (fun hdev => .ite (fun _ => ?_) fun _ => .pure ⟨[], hsame⟩) fun hdev => ?_)
  · refine (sat_unlock hA).bind ?_
    rintro _ _ rfl
    refine (sat_lock hA).bind ?_
    rintro _ _ rfl
    obtain ⟨s1, hs1⟩ : ∃ s1, s1 = s.setInode k { s.icache k with lock := false } := ⟨_, rfl⟩
    have hk : s1.icache k = { s.icache k with lock := false } := by rw [hs1, Fs.setInode_self]
    have hloaded : s1.loaded sb k = (s.icache k).d := by rw [loaded_valid (by rw [hk]; exact hv), hk]
    rw [← hs1]
    refine .pure ⟨[], h.of_same (by rw [hs1]; rfl) (by rw [hs1]; rfl) (by rw [hs1]; rfl),
      by simp, ?_, ?_, ?_,
      fun n _ hno => absurd ?_ hno⟩
    · rw [Fs.setInode_self]
    · rw [Fs.setInode_self, hk]
      exact hp.inum
    · rw [Fs.setInode_self, hloaded, Fs.setInode_disk, hs1]
      exact hc
    · rw [Fs.setInode_self, hloaded]
      exact hdev
  · refine .ite (fun _ => .pure ⟨[], hsame⟩) fun _ => .ite (fun _ => .pure ⟨[], hsame⟩) fun hmax => ?_
    have hnine := cost_nil_add_budget (s.icache k).d off hlen
    refine (sat_writeLoop hA src.length off src h hc ht hdev hnine le_rfl).bind fun _ s1 ⟨w1, h1⟩ => ?_
    have hcard : w1.toFinset.card ≤ 9 := (card_le_cost _ _).trans (h1.cost.trans hnine)
    have hinum : (s1.icache k).inum < sb.ninodes := by
      rw [h1.entry]
      exact hp.inum
    have hvalid : (s1.icache k).valid = true := by
      rw [h1.entry]
      exact hv
    refine .bind (Q := fun _ s2 => ∃ w2, Footprint sb t₀ l₀ o k off (some src.length) s2 w2) ?_
      fun _ s2 hq => .pure hq
    have hmod : (off + src.length) % 2 ^ 32 = off + src.length := Nat.mod_eq_of_lt (by omega)
    refine .when (fun _ => ?_) fun _ => ⟨w1, h1.within, by omega, hvalid, hinum, h1.clean, fun n hn => ?_⟩
    · refine .modify_bind (.get_bind (.get_bind ?_))
      have hw1 : Within t₀ l₀ o w1 (s1.setInode k { s1.icache k with d := { (s1.icache k).d with
          size := UInt32.ofNat (off + src.length) } }) := h1.within.of_same rfl rfl rfl
      refine (sat_log hA hw1 hcard _ _).post ?_
      rintro _ _ rfl
      have hentry : ∀ b data, ((s1.setInode k { s1.icache k with d := { (s1.icache k).d with
          size := UInt32.ofNat (off + src.length) } }).logged b data).icache k =
            { s1.icache k with d := { (s1.icache k).d with size := UInt32.ofNat (off + src.length) }
              } := fun b data =>
        Fs.setInode_self ..
      refine ⟨_, hw1.logged _ _, (card_append_le ..).trans (by omega), ?_, ?_, ?_, fun n hn => ?_⟩
      · rw [hentry]
        exact hvalid
      · rw [hentry]
        exact hinum
      · rw [hentry]
        intro h0
        obtain ⟨hm, hd⟩ := h1.clean h0
        refine ⟨hm.update (.inl ?_) _, hd⟩
        rw [Fs.setInode_self]
        exact sb.IBLOCK_lt hinum
      · cases hn
        rw [hentry, hmod]
        exact h1.there
    · cases hn
      rw [hmod]
      exact h1.there

/-- The events of a transaction that passes the blocks `w` to `log_write`. -/
def window (w : List ℕ) : List Event := .beginOp :: w.map .logWrite ++ [.endOp]

/-- **One transaction of `filewrite`.** -/
theorem sat_window (hA : OnlyFull sb E s.lh.length) (hp : Prepared sb s k off) (src : Str)
    (hlen : src.length ≤ 1536) :
    Sat (writeInOp sb k src off) s (fun r s' =>
      (∃ w, s'.trace = s.trace ++ window w ∧ w.toFinset.card ≤ 10) ∧
      (∀ n, r = some n → Prepared sb s' k ((off + n) % 2 ^ 32)) ∧
      (s.outstanding = 0 → s'.outstanding = 0 ∧ s'.lh = [])) E := by
  refine (sat_beginOp fun _ => hA.other _ (by simp)).bind ?_
  rintro _ _ rfl
  refine (sat_lock hA).bind ?_
  rintro _ _ rfl
  obtain ⟨s1, hs1⟩ : ∃ s1 : Fs,
    s1 = { s with outstanding := s.outstanding + 1, trace := s.trace ++ [.beginOp] } := ⟨_, rfl⟩
  have hi : s1.icache = s.icache := by rw [hs1]
  have hd : s1.disk = s.disk := by rw [hs1]
  have hloaded : s1.loaded sb k = s.loaded sb k := by rw [Fs.loaded, Fs.loaded, hi, hd]
  rw [← hs1, hloaded, hi]
  have hin : Within (s.trace ++ [.beginOp]) s.lh.length (s.outstanding + 1) []
      (s1.setInode k { s.icache k with lock := true, valid := true, d := s.loaded sb k }) :=
    ⟨by rw [hs1]; exact (List.append_nil _).symm, by rw [hs1]; exact Nat.le_add_right ..,
      fun _ hb => absurd hb List.not_mem_nil, by rw [hs1]; rfl⟩
  have hp1 :
    Prepared sb (s1.setInode k { s.icache k with lock := true, valid := true, d := s.loaded sb k })
      k off := by
    have hl :
      (s1.setInode k { s.icache k with lock := true, valid := true, d := s.loaded sb k }).loaded sb
        k = s.loaded sb k := by
      rw [loaded_valid (by rw [Fs.setInode_self]), Fs.setInode_self]
    refine ⟨?_, ?_, by rw [hl]; exact hp.there⟩
    · rw [Fs.setInode_self]
      exact hp.inum
    · rw [hl, Fs.setInode_disk, hd]
      exact hp.clean
  refine (sat_writei_footprint hA hin (by rw [Fs.setInode_self]) hp1 src hlen).bind ?_
  rintro r s2 ⟨w, hw⟩
  refine (sat_unlock hA).bind ?_
  rintro _ _ rfl
  refine .modify_bind (.pure ⟨⟨w, ?_, hw.card⟩, fun n hn => ?_, fun h0 => ?_⟩)
  · change s2.trace ++ [.endOp] = _
    rw [hw.within.trace, window]
    simp
  · have hk : (s2.setInode k { s2.icache k with lock := false }).icache k =
      { s2.icache k with lock := false } := Fs.setInode_self ..
    have hl : ∀ (o' : ℤ) lh' t', Fs.loaded sb { s2.setInode k { s2.icache k with lock := false } with
        outstanding := o', lh := lh', trace := t' } k = (s2.icache k).d := fun o' lh' t' => by
      rw [loaded_valid (by rw [hk]; exact hw.valid), hk]
    refine ⟨?_, ?_, ?_⟩
    · rw [hk]
      exact hw.inum
    · rw [hl]
      exact hw.clean
    · rw [hl]
      exact hw.there n hn
  · have hout := hw.within.out
    rw [h0] at hout
    change s2.outstanding - 1 = 0 ∧ (if s2.outstanding - 1 = 0 then [] else s2.lh) = []
    rw [hout]
    exact ⟨rfl, rfl⟩

/-! ### All transactions -/

variable {K K' : Kernel} {f : Fin NFILE}

/-- The file system is in no transaction, and its log has room for ten blocks. -/
def LogIdle (sb : Superblock) (s : Fs) : Prop := s.outstanding = 0 ∧ s.lh = [] ∧ 11 ≤ sb.nlog

/-- Since `s` there have been transactions of at most ten blocks each. -/
def Windows (s s' : Fs) : Prop :=
  ∃ ws : List (List ℕ), s'.trace = s.trace ++ (ws.map window).flatten ∧ ∀ w ∈ ws, w.toFinset.card ≤ 10

/-- The first transactions of `filewrite`, however many. -/
theorem sat_windows (hE : ∀ e, e ≠ .panic "too big a transaction" → E e) (fuel : ℕ) (src : Str)
    (hfull : ¬LogIdle sb K.fs → E (.panic "too big a transaction"))
    (hp : Prepared sb K.fs k (K.file f).off) :
    Sat (filewriteFrom sb f k fuel src) K (fun _ K' => Windows K.fs K'.fs) E := by
  have hnil : ∀ K : Kernel, Windows K.fs K.fs :=
    fun K => ⟨[], (List.append_nil _).symm, fun _ hw => absurd hw List.not_mem_nil⟩
  induction fuel generalizing src K with
  | zero => exact .pure (hnil K)
  | succ fuel ih =>
    refine .ite (fun _ => .pure (hnil K)) fun _ => .get_bind ?_
    have hA : OnlyFull sb E K.fs.lh.length := ⟨hE, fun hno => hfull fun ⟨_, hlh, h11⟩ => hno (by
      rw [hlh]
      exact ⟨by decide, by rw [List.length_nil]; omega⟩)⟩
    have hlen : (src.take (min src.length 1536)).length ≤ 1536 := by
      rw [List.length_take]
      omega
    refine onFs_bind (sat_window hA hp _ hlen) ?_
    rintro r s1 ⟨⟨w, htrace, hcard⟩, hprep, hidle⟩
    have hone : Windows K.fs s1 :=
      ⟨[w], by rw [htrace]; simp, fun v hv => by rw [List.mem_singleton.mp hv]; exact hcard⟩
    cases r with
    | none => exact .pure hone
    | some n =>
      refine .modify_bind (.ite (fun _ => .stop (hE _ (by simp))) fun _ => ?_)
      refine (ih (K := K.advanced f n s1) (src.drop n) (fun hno => hfull fun ⟨h0, _, h11⟩ => hno ?_)
        ?_).post ?_
      · obtain ⟨h1, h2⟩ := hidle h0
        exact ⟨h1, h2, h11⟩
      · rw [Kernel.advanced_off]
        exact hprep n rfl
      · rintro _ K' ⟨ws, htrace', hall⟩
        refine ⟨w :: ws, ?_, fun v hv => ?_⟩
        · rw [htrace', show (K.advanced f n s1).fs.trace = s1.trace from rfl, htrace, List.map_cons,
            List.flatten_cons, List.append_assoc]
        · rcases List.mem_cons.mp hv with rfl | hv
          · exact hcard
          · exact hall v hv

/-- The blocks of an inode are there up to its size. -/
theorem prepared (hi : (s.icache k).inum < sb.ninodes) (hm : MetaUsed sb s.disk)
    (hd : ∀ n, (s.loaded sb k).addrs n = 0 ∨ sb.nmeta ≤ ((s.loaded sb k).addrs n).toNat)
    (ha : ∀ n, n < 135 → n < ((s.loaded sb k).size.toNat + 511) / 512 → ptr s.disk (s.loaded sb k) n ≠ 0)
    (hoff : off ≤ (s.loaded sb k).size.toNat) : Prepared sb s k off := by
  refine ⟨hi, fun _ => ⟨hm, hd⟩, fun _ h7 hin => ?_⟩
  -- no block of the file is beyond the direct ones
  have hsmall : ¬7 < ((s.loaded sb k).size.toNat + 511) / 512 := fun hlt => by
    refine ha 7 (by decide) hlt ?_
    rw [ptr, dif_neg (by decide), if_pos (by decide), if_pos h7]
  refine ⟨by omega, fun h0 => ha (off / 512) (by omega) (by omega) ?_⟩
  rw [ptr, dif_pos (by omega), h0]
  rfl

/-- **The log footprint of `filewrite`.** Each transaction of a write passes at most MAXOPBLOCKS
different blocks to `log_write`: in a write that returns, and in the first transactions of one that
does not. An idle log that has room for ten blocks is never too small. -/
theorem filewrite_footprint (hip : (K.file f).ip = some k) (hi : (K.fs.icache k).inum < sb.ninodes)
    (hm : MetaUsed sb K.fs.disk)
    (hd : ∀ n, (K.fs.loaded sb k).addrs n = 0 ∨ sb.nmeta ≤ ((K.fs.loaded sb k).addrs n).toNat)
    (ha : ∀ n, n < 135 → n < ((K.fs.loaded sb k).size.toNat + 511) / 512 →
      ptr K.fs.disk (K.fs.loaded sb k) n ≠ 0)
    (hoff : (K.file f).off ≤ (K.fs.loaded sb k).size.toNat) (src : Str) (pipewrite : ℤ) :
    (∀ r K', filewrite sb f src pipewrite K = .ok (r, K') → Windows K.fs K'.fs) ∧
    (∀ m all K', filewriteFrom sb f k m src K = .ok (all, K') → Windows K.fs K'.fs) ∧
    (LogIdle sb K.fs → filewrite sb f src pipewrite K ≠ .error (.panic "too big a transaction")) := by
  have hp := prepared hi hm hd ha hoff
  have hfrom : ∀ m, Sat (filewriteFrom sb f k m src) K (fun _ K' => Windows K.fs K'.fs)
      fun e => e = .panic "too big a transaction" → ¬LogIdle sb K.fs := fun m =>
    sat_windows (fun e he h => absurd h he) m src (fun hno _ => hno) hp
  have hall : Sat (filewrite sb f src pipewrite) K (fun _ K' => Windows K.fs K'.fs)
      fun e => e = .panic "too big a transaction" → ¬LogIdle sb K.fs := by
    have hnil : Windows K.fs K.fs :=
      ⟨[], (List.append_nil _).symm, fun _ hw => absurd hw List.not_mem_nil⟩
    refine .get_bind (.ite (fun _ => .pure hnil) fun _ => ?_)
    cases (K.file f).type with
    | none => exact .stop fun h => by simp at h
    | pipe => exact .pure hnil
    | inode =>
      rw [hip]
      exact (hfrom src.length).bind fun _ _ hw => .pure hw
  exact ⟨fun r K' hrun => hall.of_ok hrun, fun m all K' hrun => (hfrom m).of_ok hrun,
    fun hidle hrun => hall.of_stop hrun rfl hidle⟩

end

set_option maxRecDepth 100000 in
/-- Three bytes over the end of the long file. -/
theorem filewrite_footprint_longKernel : LogIdle longSb longKernel.fs ∧
    (∀ r K', filewrite longSb 0 [1, 2, 3] 0 longKernel = .ok (r, K') → Windows longKernel.fs K'.fs) ∧
    filewrite longSb 0 [1, 2, 3] 0 longKernel ≠ .error (.panic "too big a transaction") := by
  have hloaded : longKernel.fs.loaded longSb 0 = inoOf longSb longDisk 2 := rfl
  have hsize : (longKernel.fs.loaded longSb 0).size.toNat = 15872 := longDisk_file.2
  have hm : ∀ c < 128, c < longSb.nmeta → usedAt longSb longDisk c = true := by decide +kernel
  have hmeta : MetaUsed longSb longKernel.fs.disk := hm
  have hd : ∀ n, (inoOf longSb longDisk 2).addrs n = 0 ∨ longSb.nmeta ≤
    ((inoOf longSb longDisk 2).addrs n).toNat := by decide +kernel
  have hall := filewrite_footprint (f := 0) (k := 0) (K := longKernel) rfl (by decide) hmeta hd
    (fun n hn hlt => by
    rw [hsize] at hlt
    exact (sited_longFs.shape.block n hn).mpr
      (by rw [show (inoOf longSb longFs.disk 2).size.toNat = 15872 from longDisk_file.2]; omega))
    (by rw [hsize]; decide) [1, 2, 3] 0
  have hidle : LogIdle longSb longKernel.fs := ⟨rfl, rfl, by decide⟩
  exact ⟨hidle, hall.1, hall.2.2 hidle⟩

end Xv6
