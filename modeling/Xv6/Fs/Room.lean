/-
# Room for a write

A write to the contents of an inode stops for three reasons that have nothing to do with the inode:
the log is full, it is made outside a transaction, or no block is free. `Room E L A` says that each
of the three that may happen, in `L` more writes of blocks and `A` allocations, is one of those that
`E` allows. So one proof serves both for what holds of a write that returns, with an `E` that has
all three, and for the write that does return, with an `E` that has none.

The log keeps a block once. What counts is the number of different blocks, and an allocation that
marks its bit in a block of the bitmap that is in the log already needs no other for it (`demand`).
-/
import Xv6.Fs.Sound

namespace Xv6

open Prog
open Function (update)

/-- The blocks that are not marked used. -/
def freeBlocks (sb : Superblock) (D : Disk) : Finset ℕ := (Finset.range sb.size).filter fun b =>
    usedAt sb D b = false

/-- The blocks of the bitmap that are not in the log. -/
def unlogged (sb : Superblock) (lh : List ℕ) :
    Finset ℕ := (Finset.range sb.size).image sb.BBLOCK \ lh.toFinset

/-- How many blocks the log has at most with `L` more of them and `A` allocations. -/
def Fs.demand (sb : Superblock) (s : Fs) (L A : ℕ) : ℕ := s.lh.length + L + min A (unlogged sb s.lh).card

/-- With `o` calls in a transaction, `E` allows what may stop `L` writes of different blocks and `A`
allocations, which also write the bitmap. -/
structure Room (sb : Superblock) (E : Stop → Prop) (o : ℤ) (L A : ℕ) (s : Fs) : Prop where
  out : s.outstanding = o
  log : ¬(s.demand sb L A ≤ LOGSIZE ∧ s.demand sb L A < sb.nlog) → E (.panic "too big a transaction")
  trans : o < 1 → E (.panic "log_write outside of trans")
  free : (freeBlocks sb s.disk).card < A → E (.panic "balloc: out of blocks")

/-- The state after `log_write`. -/
def Fs.logged (s : Fs) (b : ℕ) (data : Block) : Fs :=
  let lh := if b ∈ s.lh then s.lh else s.lh ++ [b]
  { s with disk := Function.update s.disk b data, lh := lh, trace := s.trace ++ [.logWrite b] }

section

variable {sb : Superblock} {E : Stop → Prop} {s s' : Fs} {D D' : Disk} {o : ℤ} {L L' A A' b : ℕ}
    {k : Slot} {data : Block}

theorem freeBlocks_congr (h : ∀ b, b < sb.size → usedAt sb D' b = usedAt sb D b) :
    freeBlocks sb D' = freeBlocks sb D :=
  Finset.filter_congr fun b hb => by rw [h b (Finset.mem_range.mp hb)]

theorem card_freeBlocks (hb : b < sb.size) (hfree : usedAt sb D b = false)
    (h : ∀ c, c < sb.size → usedAt sb D' c = if c = b then true else usedAt sb D c) :
    (freeBlocks sb D').card + 1 = (freeBlocks sb D).card := by
  have hmem : b ∈ freeBlocks sb D := Finset.mem_filter.mpr ⟨Finset.mem_range.mpr hb, hfree⟩
  have herase : freeBlocks sb D' = (freeBlocks sb D).erase b := by
    ext c
    simp only [freeBlocks, Finset.mem_filter, Finset.mem_range, Finset.mem_erase]
    by_cases hc : c < sb.size
    · rw [h c hc]
      by_cases hcb : c = b
      · simp [hcb]
      · simp [hcb]
    · simp [hc]
  rw [herase, Finset.card_erase_add_one hmem]

theorem wrote_logged : Wrote s (s.logged b data) (update s.disk b data) :=
  ⟨rfl, rfl, fun i => by simp [Fs.frees, Fs.logged]⟩

theorem mem_logged {c : ℕ} : c ∈ (s.logged b data).lh ↔ c ∈ s.lh ∨ c = b := by
  unfold Fs.logged
  simp only
  split
  · rename_i hb
    exact ⟨.inl, fun hc => hc.elim id fun heq => heq ▸ hb⟩
  · rw [List.mem_append, List.mem_singleton]

theorem length_logged : (s.logged b data).lh.length = s.lh.length + if b ∈ s.lh then 0 else 1 := by
  unfold Fs.logged
  simp only
  split
  · rfl
  · exact List.length_append

theorem demand_mono (hL : L' ≤ L) (hA : A' ≤ A) : s.demand sb L' A' ≤ s.demand sb L A := by
  unfold Fs.demand
  omega

theorem demand_logged :
    (s.logged b data).demand sb L A ≤ s.demand sb (if b ∈ s.lh then L else L + 1) A := by
  have hle : (unlogged sb (s.logged b data).lh).card ≤ (unlogged sb s.lh).card := by
    refine Finset.card_le_card (Finset.sdiff_subset_sdiff (Finset.Subset.refl _) fun c hc => ?_)
    rw [List.mem_toFinset] at hc ⊢
    exact mem_logged.mpr (.inl hc)
  unfold Fs.demand
  rw [length_logged]
  split <;> omega

/-- A block of the bitmap is written for an allocation. -/
theorem demand_bitmap (hb : b < sb.size) : (s.logged (sb.BBLOCK b) data).demand sb L A ≤
    s.demand sb L (A + 1) := by
  by_cases hmem : sb.BBLOCK b ∈ s.lh
  · exact demand_logged.trans (demand_mono (by rw [if_pos hmem]) (Nat.le_succ A))
  · have hone : (unlogged sb (s.logged (sb.BBLOCK b) data).lh).card + 1 = (unlogged sb s.lh).card := by
      have herase : unlogged sb (s.logged (sb.BBLOCK b) data).lh = (unlogged sb s.lh).erase
        (sb.BBLOCK b) := by
        ext c
        simp only [unlogged, Finset.mem_sdiff, Finset.mem_erase, List.mem_toFinset, mem_logged, not_or]
        tauto
      rw [herase, Finset.card_erase_add_one]
      rw [unlogged, Finset.mem_sdiff, List.mem_toFinset]
      exact ⟨Finset.mem_image_of_mem _ (Finset.mem_range.mpr hb), hmem⟩
    unfold Fs.demand
    rw [length_logged, if_neg hmem]
    omega

namespace Room

/-- All three are among the panics that a sound file system may run into. -/
theorem fine : Room sb Fine s.outstanding L A s :=
  ⟨rfl, fun _ => by simp [Fine], fun _ => by simp [Fine], fun _ => by simp [Fine]⟩

theorem mono (h : Room sb E o L A s) (hL : L' ≤ L) (hA : A' ≤ A) : Room sb E o L' A' s := by
  have hle : s.demand sb L' A' ≤ s.demand sb L A := demand_mono hL hA
  exact ⟨h.out, fun hno => h.log fun hok => hno ⟨hle.trans hok.1, hle.trans_lt hok.2⟩, h.trans,
    fun hlt => h.free (by omega)⟩

/-- Only the cache and data blocks have changed. -/
theorem of_same (h : Room sb E o L A s) (hlh : s'.lh = s.lh) (hout : s'.outstanding = s.outstanding)
    (hused : ∀ b, b < sb.size → usedAt sb s'.disk b = usedAt sb s.disk b) : Room sb E o L A s' :=
  ⟨hout.trans h.out, by unfold Fs.demand; rw [hlh]; exact h.log, h.trans,
    by rw [freeBlocks_congr hused]; exact h.free⟩

end Room

theorem sat_logWrite (h : Room sb E o (L + 1) A s) (b : ℕ) (data : Block) :
    Sat (logWrite sb b data) s (fun _ s' => s' = s.logged b data) E := by
  refine .get_bind (.ite (fun hfull => .stop (h.log ?_)) fun _ =>
    .ite (fun hout => .stop (h.trans (h.out ▸ hout))) fun _ => .modify rfl)
  unfold Fs.demand
  omega

/-- A block outside the bitmap is written. If the log has it already, it has room for as many others
as before. -/
theorem room_logWrite (h : Room sb E o (L + 1) A s) (hb : b < sb.bmapstart ∨ sb.nmeta ≤ b)
    (data : Block) : Sat (logWrite sb b data) s (fun _ s' => Wrote s s' (update s.disk b data) ∧
      Room sb E o (if b ∈ s.lh then L + 1 else L) A s' ∧ ∀ c, c ∈ s'.lh ↔ c ∈ s.lh ∨ c = b) E := by
  refine (sat_logWrite h b data).post ?_
  rintro _ _ rfl
  have hused : ∀ c, c < sb.size → usedAt sb (s.logged b data).disk c = usedAt sb s.disk c := fun c hc =>
    usedAt_update hc hb data
  have hle : (s.logged b data).demand sb (if b ∈ s.lh then L + 1 else L) A ≤ s.demand sb (L + 1) A :=
    demand_logged.trans (demand_mono (by split <;> omega) le_rfl)
  refine ⟨wrote_logged, ⟨h.out, fun hno => h.log fun hok => hno (by omega), h.trans, ?_⟩, fun c =>
    mem_logged⟩
  rw [freeBlocks_congr hused]
  exact h.free

/-- `balloc` marks a free block and zeroes it. -/
theorem room_ballocFrom : ∀ (fuel b0 : ℕ), Room sb E o (L + 1) (A + 1) s → b0 + fuel = sb.size →
    (∀ b, b < b0 → usedAt sb s.disk b = true) → Sat (ballocFrom sb fuel b0) s (fun b s' => b < sb.size ∧
      usedAt sb s.disk b = false ∧ Wrote s s' (update (setUsed sb s.disk b true) b fun _ => 0) ∧
      (sb.nmeta ≤ b → Room sb E o L A s') ∧ ∀ c, c ∈ s.lh ∨ c = b → c ∈ s'.lh) E
  | 0, b0, h, hsize, hall => by
    refine .stop (h.free ?_)
    have hnone : freeBlocks sb s.disk = ∅ := by
      refine Finset.filter_eq_empty_iff.mpr fun b hb => ?_
      rw [hall b (by rw [Finset.mem_range] at hb; omega)]
      simp
    rw [hnone, Finset.card_empty]
    omega
  | fuel + 1, b0, h, hsize, hall => by
    refine .get_bind (.ite (fun hmark => ?_) fun hfree => ?_)
    · refine room_ballocFrom fuel (b0 + 1) h (by omega) fun b hb => ?_
      rcases Nat.lt_or_ge b b0 with hlt | hge
      · exact hall b hlt
      · rw [show b = b0 by omega]
        exact hmark
    · have hfree' : usedAt sb s.disk b0 = false := by simpa [usedAt] using hfree
      refine (sat_logWrite h _ _).bind ?_
      rintro _ _ rfl
      -- the two blocks written
      obtain ⟨s1, hs1⟩ :
        ∃ s1, s1 = s.logged (sb.BBLOCK b0) (setMark (s.disk (sb.BBLOCK b0)) (b0 % 4096) true) :=
          ⟨_, rfl⟩
      have hdem1 : ∀ L, s1.demand sb L A ≤ s.demand sb L (A + 1) :=
        fun L => hs1 ▸ demand_bitmap (by omega)
      have hw1 : Wrote s s1 (setUsed sb s.disk b0 true) := hs1 ▸ wrote_logged
      have hout1 : s1.outstanding = s.outstanding := hs1 ▸ rfl
      have hmem1 : ∀ c, c ∈ s.lh → c ∈ s1.lh := fun c hc => by
        rw [hs1]
        exact mem_logged.mpr (.inl hc)
      rw [← hs1]
      have h1 : Room sb E o (L + 1) 0 s1 := ⟨hout1.trans h.out, fun hno => h.log fun hok => hno (by
        have h2 : s1.demand sb (L + 1) 0 ≤ s1.demand sb (L + 1) A := demand_mono le_rfl (Nat.zero_le A)
        have := hdem1 (L + 1)
        omega), h.trans, fun hlt => absurd hlt (Nat.not_lt_zero _)⟩
      refine (sat_logWrite h1 b0 fun _ => 0).bind ?_
      rintro _ s2 rfl
      have hdem2 : (s1.logged b0 fun _ => 0).demand sb L A ≤ s1.demand sb (L + 1) A :=
        demand_logged.trans (demand_mono (by split <;> omega) le_rfl)
      refine .pure ⟨by omega, hfree', ⟨?_, hw1.icache, fun i => ?_⟩, fun hdata => ⟨hout1.trans h.out,
        fun hno => h.log fun hok => hno (by have := hdem1 (L + 1); omega), h.trans, ?_⟩,
        fun c hc => mem_logged.mpr (hc.imp (hmem1 c) id)⟩
      · show update s1.disk b0 _ = _
        rw [hw1.disk]
      · rw [(wrote_logged (s := s1)).frees i, hw1.frees i]
      · have hcard : (freeBlocks sb (s1.logged b0 fun _ => 0).disk).card + 1 =
          (freeBlocks sb s.disk).card :=
          card_freeBlocks (by omega) hfree' fun c hc => by
            show usedAt sb (update s1.disk b0 _) c = _
            rw [usedAt_update hc (.inr hdata), hw1.disk, usedAt_setUsed]
        exact fun hlt => h.free (by omega)

theorem room_balloc (h : Room sb E o (L + 1) (A + 1) s) : Sat (balloc sb) s (fun b s' => b < sb.size ∧
    usedAt sb s.disk b = false ∧ Wrote s s' (update (setUsed sb s.disk b true) b fun _ => 0) ∧
    (sb.nmeta ≤ b → Room sb E o L A s') ∧ ∀ c, c ∈ s.lh ∨ c = b → c ∈ s'.lh) E :=
  room_ballocFrom sb.size 0 h (Nat.zero_add _) fun b hb => absurd hb (Nat.not_lt_zero b)

theorem room_iupdate (h : Room sb E o (L + 1) A s) (hi : (s.icache k).inum < sb.ninodes) :
    Sat (iupdate sb k) s (fun _ s' =>
      Wrote s s' (setDinode sb s.disk (s.icache k).inum (s.icache k).d.copyId) ∧
      Room sb E o L A s') E :=
  .get_bind (.get_bind ((room_logWrite h (.inl (sb.IBLOCK_lt hi)) _).post fun _ _ ⟨hw, hr, _⟩ =>
    ⟨hw, hr.mono (by split <;> omega) le_rfl⟩))

end

end Xv6
