/-
# What mkfs writes

`iappend` appends: afterwards the inode has the blocks that its new size needs, new blocks are the
next ones, and no other inode has changed. It fails only if the file gets too large or the image is
full. So after each round of the loop over the arguments the inodes hold what `contents` says.
-/
import Xv6.Mkfs
import Xv6.Fs.Writing

namespace Xv6.Mkfs

open Prog
open Function (update update_idem update_self update_of_ne)
open List (length_nil getD_eq_getElem?_getD length_append flatten_cons)

/-- How many blocks contents of `n` bytes take, with the indirect block. -/
def blocksOf (n : ℕ) : ℕ := (n + 511) / 512 + if 7 * 512 < n then 1 else 0

theorem blocksOf_mono {n m : ℕ} (h : n ≤ m) : blocksOf n ≤ blocksOf m := by
  have hdiv : (n + 511) / 512 ≤ (m + 511) / 512 := Nat.div_le_div_right (by omega)
  unfold blocksOf
  split <;> split <;> omega

/-- What is recorded is in its place. -/
def Event.Ok (fb : ℕ) : Event → Prop
  | .block b => nmeta ≤ b ∧ b < fb
  | .inode sec => sb.inodestart ≤ sec ∧ sec < sb.bmapstart

/-- The image has its full length, and from `freeblock` on it is empty. -/
structure Room (s : Image) : Prop where
  len : s.len = FSSIZE
  low : nmeta ≤ s.freeblock
  zero : ∀ c, s.freeblock ≤ c → ∀ x, s.disk c x = 0
  trace : ∀ e ∈ s.trace, e.Ok s.freeblock

/-- The inode has blocks of its own below `fb` at the addresses in `S`. -/
structure Held (D : Disk) (fb : ℕ) (din : Dinode) (S : Set ℕ) : Prop where
  range : ∀ n, ptr D din n ≠ 0 → nmeta ≤ ptr D din n ∧ ptr D din n < fb
  inj : ∀ n m, ptr D din n ≠ 0 → ptr D din n = ptr D din m → n = m
  blocks : ∀ n, n ≤ 135 → (ptr D din n ≠ 0 ↔ n ∈ S)

/-- On the way from `s` to `s'` the inode `din` has become `din'`: it has kept its blocks and its
first `v` bytes, its new blocks were free, and nothing else has changed. -/
structure Grown (s s' : Image) (din din' : Dinode) (v : ℕ) : Prop where
  fields : din' = { din with addrs := din'.addrs }
  inodes : s'.freeinode = s.freeinode
  grow : s.freeblock ≤ s'.freeblock
  keep : ∀ n, ptr s.disk din n ≠ 0 → ptr s'.disk din' n = ptr s.disk din n
  fresh : ∀ n, ptr s.disk din n = 0 → ptr s'.disk din' n ≠ 0 → s.freeblock ≤ ptr s'.disk din' n
  frame : ∀ c, c < s.freeblock → (∀ n, ptr s.disk din n ≠ c) → s'.disk c = s.disk c
  bytes : ∀ y, y < v → byteOf s'.disk din' y = byteOf s.disk din y

section

variable {s s' s'' : Image} {D D' : Disk} {din din' din'' : Dinode} {S : Set ℕ}
  {fb n v v' b off : ℕ} {n1 sec : ℕ} {α : Type} {E : Halt → Prop} {p : Str} {Q : α → Image → Prop}

theorem Grown.refl (s : Image) (din : Dinode) (v : ℕ) : Grown s s din din v :=
  ⟨rfl, rfl, le_rfl, fun _ _ => rfl, fun _ h0 h => absurd h0 h, fun _ _ _ => rfl, fun _ _ => rfl⟩

theorem Grown.trans (h : Grown s s' din din' v) (h' : Grown s' s'' din' din'' v') (hv : v ≤ v') :
    Grown s s'' din din'' v := by
  refine ⟨?_, h'.inodes.trans h.inodes, h.grow.trans h'.grow, fun n hn => ?_, fun n h0 hn => ?_,
    fun c hc hne => ?_, fun y hy => ?_⟩
  · rw [h'.fields, h.fields]
  · rw [h'.keep n (h.keep n hn ▸ hn), h.keep n hn]
  · by_cases hmid : ptr s'.disk din' n = 0
    · exact h.grow.trans (h'.fresh n hmid hn)
    · rw [h'.keep n hmid]
      exact h.fresh n h0 hmid
  · rw [h'.frame c (hc.trans_le h.grow) fun n hn => ?_, h.frame c hc hne]
    by_cases h0 : ptr s.disk din n = 0
    · by_cases hmid : ptr s'.disk din' n = 0
      · exact hne n (h0.trans (hmid.symm.trans hn))
      · have := h.fresh n h0 hmid
        omega
    · exact hne n (h.keep n h0 ▸ hn)
  · rw [h'.bytes y (hy.trans_le hv), h.bytes y hy]

theorem seek_eq (h : sec < 2 ^ 23) : seek sec = sec := by
  unfold seek
  omega

theorem ptr_direct (D : Disk) (din : Dinode) (hn : n < 7) :
    ptr D din n = (din.addrs ⟨n, direct_lt hn⟩).toNat := dif_pos hn

/-! ### Taking blocks -/

/-- The next block becomes the inode's block at address `n`. -/
theorem Held.attach (h : Held D fb din S) (hlow : nmeta ≤ fb)
    (hptr : ∀ m, ptr D' din' m = if m = n then fb else ptr D din m) :
    Held D' (fb + 1) din' (insert n S) := by
  have hmeta := nmeta_eq
  have hpos : fb ≠ 0 := by omega
  refine ⟨fun m hm => ?_, fun m k hm hmk => ?_, fun m hm => ?_⟩
  · rw [hptr] at hm ⊢
    split_ifs with hne
    · exact ⟨hlow, Nat.lt_succ_self _⟩
    · rw [if_neg hne] at hm
      exact ⟨(h.range m hm).1, Nat.lt_succ_of_lt (h.range m hm).2⟩
  · rw [hptr] at hm
    rw [hptr, hptr] at hmk
    by_cases h1 : m = n <;> by_cases h2 : k = n
    · rw [h1, h2]
    · rw [if_pos h1, if_neg h2] at hmk
      have := (h.range k (hmk ▸ hpos)).2
      omega
    · rw [if_neg h1] at hm
      rw [if_neg h1, if_pos h2] at hmk
      have := (h.range m hm).2
      omega
    · rw [if_neg h1] at hm
      rw [if_neg h1, if_neg h2] at hmk
      exact h.inj m k hm hmk
  · rw [hptr, Set.mem_insert_iff]
    by_cases h1 : m = n
    · simp [h1, hpos]
    · rw [if_neg h1, or_iff_right h1]
      exact h.blocks m hm

/-- Nothing but the indirect block changes when the inode takes the next block. -/
theorem Grown.attach (h : Held s.disk s.freeblock din S) (hzero : ∀ x, s.disk s.freeblock x = 0)
    (h0 : ptr s.disk din n = 0)
    (hptr : ∀ m, ptr s'.disk din' m = if m = n then s.freeblock else ptr s.disk din m)
    (hdisk : ∀ c, c ≠ ptr s.disk din 135 → s'.disk c = s.disk c)
    (hindirect : ptr s.disk din 135 ≠ s.freeblock)
    (hfields : din' = { din with addrs := din'.addrs }) (hinodes : s'.freeinode = s.freeinode)
    (hfree : s'.freeblock = s.freeblock + 1) : Grown s s' din din' v := by
  refine ⟨hfields, hinodes, by omega, fun m hm => ?_, fun m hm hm' => ?_,
    fun c _ hne => hdisk c (hne 135).symm, fun y _ => ?_⟩
  · rw [hptr, if_neg]
    rintro rfl
    exact hm h0
  · rw [hptr] at hm' ⊢
    split_ifs with hne
    · exact le_rfl
    · rw [if_neg hne] at hm'
      exact absurd hm hm'
  · unfold byteOf
    rw [hptr]
    by_cases hy : y / 512 < 135
    · split
      · rename_i hyn
        rw [hdisk _ hindirect.symm, hzero, hyn, h0]
        simp
      · by_cases hp : ptr s.disk din (y / 512) = 0
        · simp [hp]
        · have hne : ptr s.disk din (y / 512) ≠ ptr s.disk din 135 := fun heq => by
            have := h.inj _ _ hp heq
            omega
          rw [hdisk _ hne]
    · simp [hy]

/-- After `freeblock++`. -/
def Image.took (s : Image) : Image :=
  { s with freeblock := s.freeblock + 1, trace := s.trace ++ [.block s.freeblock] }

theorem takeBlock_bind {f : ℕ → M α}
    (h : Sat (f s.freeblock) s.took Q E) : Sat (takeBlock >>= f) s Q E := h

theorem rsect_sat (hsec : sec < 2 ^ 23) (hE : s.len ≤ sec → E .exit) :
    Sat (rsect sec) s (fun buf s' => s' = s ∧ buf = s.disk sec ∧ sec < s.len) E := by
  unfold rsect
  rw [seek_eq hsec]
  exact .get_bind (.ite (fun h => .pure ⟨rfl, rfl, h⟩) fun h => .stop (hE (by omega)))

theorem Event.Ok.mono {e : Event} (h : e.Ok fb) (hle : fb ≤ v) : e.Ok v := by
  cases e with
  | block b => exact ⟨h.1, h.2.trans_le hle⟩
  | inode sec => exact h

/-- A block is taken, and perhaps a block below it is written. -/
theorem Room.take (h : Room s) (hdisk : ∀ c, s.freeblock < c → s'.disk c = s.disk c)
    (hlen : s'.len = s.len) (hfree : s'.freeblock = s.freeblock + 1)
    (htrace : s'.trace = s.trace ++ [.block s.freeblock]) : Room s' := by
  have hlow := h.low
  refine ⟨hlen.trans h.len, by omega, fun c hc x => ?_, fun e he => ?_⟩
  · rw [hdisk c (by omega)]
    exact h.zero c (by omega) x
  · rw [htrace, List.mem_append, List.mem_singleton] at he
    rcases he with he | rfl
    · exact (h.trace e he).mono (by omega)
    · exact ⟨hlow, by omega⟩

/-- What taking a block for address `n` comes to. -/
structure Took (s s' : Image) (din din' : Dinode) (S : Set ℕ) (n : ℕ) : Prop where
  room : Room s'
  held : Held s'.disk s'.freeblock din' (insert n S)
  grown : ∀ v, Grown s s' din din' v
  count : n ∈ S ∧ s'.freeblock = s.freeblock ∨
    n ∉ S ∧ s'.freeblock = s.freeblock + 1 ∧ ptr s'.disk din' n = s.freeblock

section

variable (h : Room s) (hheld : Held s.disk s.freeblock din S)
include h hheld

theorem Took.none (hn : n ∈ S) : Took s s din din S n := by
  refine ⟨h, ?_, Grown.refl s din, .inl ⟨hn, rfl⟩⟩
  rwa [Set.insert_eq_of_mem hn]

/-- `setBlock` for a direct address. -/
theorem setBlock_sat (hfb : s.freeblock ≤ FSSIZE) (hn : n < 7) :
    Sat (setBlock din ⟨n, by omega⟩) s (fun din' s' => Took s s' din din' S n) E := by
  have hmeta := nmeta_eq
  have hfssize := fssize_eq
  have hptr : ptr s.disk din n = (din.addrs ⟨n, direct_lt hn⟩).toNat := dif_pos hn
  have hiff := hheld.blocks n (by omega)
  have hindirect : ptr s.disk din 135 ≠ s.freeblock := fun heq => by
    have := (hheld.range 135 (by have := h.low; omega)).2
    omega
  refine .ite (fun h0 => takeBlock_bind (.pure ?_)) fun h0 => .pure (Took.none h hheld (hiff.mp ?_))
  · have h0' : ptr s.disk din n = 0 := by rw [hptr, h0]; rfl
    have hnew : ∀ m, ptr s.disk (setAddr ⟨n, by omega⟩ s.freeblock din) m =
      if m = n then s.freeblock else ptr s.disk din m :=
      ptr_setAddr hn (by omega)
    have hmem : n ∉ S := fun hmem => hiff.mpr hmem h0'
    exact ⟨h.take (fun _ _ => rfl) rfl rfl rfl, hheld.attach h.low hnew,
      fun v => Grown.attach hheld (h.zero _ le_rfl) h0' hnew (fun _ _ => rfl) hindirect rfl rfl rfl,
      .inr ⟨hmem, rfl, (hnew n).trans (if_pos rfl)⟩⟩
  · rw [hptr]
    exact fun hz => h0 (UInt32.toNat_inj.mp hz)

/-- `setBlock` for the indirect block. -/
theorem setIndirect_sat (hfb : s.freeblock ≤ FSSIZE) :
    Sat (setBlock din 7) s (fun din' s' => Took s s' din din' S 135) E := by
  have hfssize := fssize_eq
  have hmeta := nmeta_eq
  have hiff := hheld.blocks 135 le_rfl
  refine .ite (fun h0 => takeBlock_bind (.pure ?_)) fun h0 => .pure (Took.none h hheld (hiff.mp ?_))
  · have h0' : ptr s.disk din 135 = 0 := by rw [ptr_indirect, h0]; rfl
    have hnew : ∀ m, ptr s.disk (setAddr 7 s.freeblock din) m =
      if m = 135 then s.freeblock else ptr s.disk din m :=
      ptr_setIndirect h0 (by omega) (h.zero _ le_rfl)
    have hmem : 135 ∉ S := fun hmem => hiff.mpr hmem h0'
    have hindirect : ptr s.disk din 135 ≠ s.freeblock := by
      have := h.low
      omega
    exact ⟨h.take (fun _ _ => rfl) rfl rfl rfl, hheld.attach h.low hnew,
      fun v => Grown.attach hheld (h.zero _ le_rfl) h0' hnew (fun _ _ => rfl) hindirect rfl rfl rfl,
      .inr ⟨hmem, rfl, (hnew 135).trans (if_pos rfl)⟩⟩
  · exact addrs_ne_zero.mp h0

end

theorem wsect_bind {buf : Block} {f : Unit → M α} (hsec : sec < s.len) (hlen : s.len ≤ 2 ^ 23)
    (h : Sat (f ()) { s with disk := update s.disk sec buf } Q E) :
    Sat (wsect sec buf >>= f) s Q E := by
  unfold wsect
  rw [seek_eq (by omega)]
  refine .modify_bind ?_
  rwa [max_eq_left hsec]

theorem entry_sat (h : Room s) (hheld : Held s.disk s.freeblock din S) (hmem : 135 ∈ S)
    (hfb : s.freeblock ≤ FSSIZE + 1) (h7 : 7 ≤ n) (hn : n < 135)
    (hE : ptr s.disk din 135 = FSSIZE → E .exit) :
    Sat (entry din n) s (fun r s' => Took s s' din r.1 S n ∧ r.2 = ptr s'.disk r.1 n ∧
      ptr s.disk din 135 < FSSIZE) E := by
  have hmeta := nmeta_eq
  have hfssize := fssize_eq
  have h135 : ptr s.disk din 135 ≠ 0 := (hheld.blocks 135 le_rfl).mpr hmem
  have ha : din.addrs 7 ≠ 0 := addrs_ne_zero.mpr h135
  have hrange := hheld.range 135 h135
  rw [ptr_indirect] at hrange
  have hptr : ptr s.disk din n = ((s.disk (din.addrs 7).toNat).word32 (4 * (n - 7))).toNat := by
    rw [ptr, dif_neg (by omega), if_pos hn, if_neg ha]
  have hlen := h.len
  have hlow := h.low
  refine (rsect_sat (by omega) fun hge => hE ?_).bind ?_
  · rw [ptr_indirect]
    omega
  rintro buf s1 ⟨rfl, rfl, hlt⟩
  refine .ite (fun h0 => takeBlock_bind (wsect_bind hlt (hlen.trans_le (by decide)) (.pure ?_)))
    fun h0 => .pure ⟨?_, hptr.symm, ?_⟩
  · have h0' : ptr s1.disk din n = 0 := by rw [hptr, h0]; rfl
    have hnew : ∀ m, ptr (update s1.disk (din.addrs 7).toNat
        ((s1.disk (din.addrs 7).toNat).setWord32 (4 * (n - 7)) (UInt32.ofNat s1.freeblock))) din m =
          if m = n then s1.freeblock else ptr s1.disk din m := by
      intro m
      rw [ptr_setEntry ha (by omega) (by omega), show n - 7 + 7 = n by omega]
    have hmem' : n ∉ S := fun hmem' => (hheld.blocks n (by omega)).mpr hmem' h0'
    refine ⟨⟨h.take (fun c hc => update_of_ne (by omega) _ _) rfl rfl rfl, hheld.attach hlow hnew,
      fun v => ?_,
      .inr ⟨hmem', rfl, (hnew n).trans (if_pos rfl)⟩⟩, ?_, ?_⟩
    · refine Grown.attach hheld (h.zero _ le_rfl) h0' hnew (fun c hc => update_of_ne ?_ _ _) ?_ rfl
        rfl rfl
      · rwa [ptr_indirect] at hc
      · rw [ptr_indirect]
        omega
    · show (UInt32.ofNat s1.freeblock).toNat = _
      rw [toNat_ofNat_of_lt (by omega)]
      exact ((hnew n).trans (if_pos rfl)).symm
    · rw [ptr_indirect]
      omega
  · exact Took.none h hheld ((hheld.blocks n (by omega)).mp fun hz =>
      h0 (UInt32.toNat_inj.mp (hptr.symm.trans hz)))
  · rw [ptr_indirect]
    omega

theorem need_succ_direct (h : off / 512 < 7) : insert (off / 512) (need off) = need (off + 1) := by
  ext m
  simp only [Set.mem_insert_iff, need, Set.mem_ofPred_eq]
  omega

theorem need_succ_entry (h7 : 7 ≤ off / 512) (h : off / 512 < 135) :
    insert (off / 512) (insert 135 (need off)) = need (off + 1) := by
  ext m
  simp only [Set.mem_insert_iff, need, Set.mem_ofPred_eq]
  omega

/-- What finding the block for the byte at `off` comes to. -/
structure Placed (s s' : Image) (din din' : Dinode) (off x : ℕ) : Prop where
  room : Room s'
  held : Held s'.disk s'.freeblock din' (need (off + 1))
  grown : ∀ v, Grown s s' din din' v
  block : x = ptr s'.disk din' (off / 512)
  count : s'.freeblock + blocksOf off = s.freeblock + blocksOf (off + 1)
  last : s'.freeblock ≤ FSSIZE ∨ s'.freeblock = x + 1

theorem place_sat (h : Room s) (hheld : Held s.disk s.freeblock din (need off))
    (hfb : s.freeblock ≤ FSSIZE) (hoff : off / 512 < 135) :
    Sat (place din (off / 512)) s (fun r s' => Placed s s' din r.1 off r.2)
      fun _ => FSSIZE + blocksOf off < s.freeblock + blocksOf (off + 1) := by
  have hfssize := fssize_eq
  unfold place
  split_ifs with h7
  · refine (setBlock_sat h hheld hfb h7).bind fun din' s' took => .pure ?_
    have hmem := mem_need (u := off) hoff
    refine ⟨took.room, need_succ_direct h7 ▸ took.held, took.grown, ?_, ?_, ?_⟩
    · exact (ptr_direct _ _ h7).symm
    · rcases took.count with ⟨hin, hcount⟩ | ⟨hout, hcount, -⟩
      · rw [hmem] at hin
        rw [hcount]
        unfold blocksOf
        split <;> split <;> omega
      · rw [hmem] at hout
        rw [hcount]
        unfold blocksOf
        split <;> split <;> omega
    · rcases took.count with ⟨-, hcount⟩ | ⟨-, hcount, hnew⟩
      · exact .inl (hcount ▸ hfb)
      · refine .inr ?_
        rw [hcount, ← hnew, ptr_direct _ _ h7]
  · refine (setIndirect_sat h hheld hfb).bind fun din1 s1 took1 => ?_
    have hmem1 := mem_need_indirect (u := off)
    have hfb1 : s1.freeblock ≤ FSSIZE + 1 := by
      rcases took1.count with ⟨-, hcount⟩ | ⟨-, hcount, -⟩ <;> omega
    have hE : ptr s1.disk din1 135 = FSSIZE → FSSIZE + blocksOf off < s.freeblock +
      blocksOf (off + 1) := by
      intro hfull
      have hlt := (took1.held.range 135 (by omega)).2
      rcases took1.count with ⟨-, hcount⟩ | ⟨hout, -, hnew⟩
      · omega
      · rw [hmem1] at hout
        obtain rfl : off = 3584 := by omega
        rw [← hnew, hfull]
        decide
    refine (entry_sat took1.room took1.held (Set.mem_insert _ _) hfb1 (by omega) hoff hE).post
      fun r s2 ⟨took2, hblock, hlt⟩ => ?_
    have hmem2 := mem_need (u := off) hoff
    refine ⟨took2.room, need_succ_entry (by omega) hoff ▸ took2.held, fun v =>
      (took1.grown v).trans (took2.grown v) le_rfl, hblock, ?_, ?_⟩
    · unfold blocksOf
      rcases took1.count with ⟨hin1, hcount1⟩ | ⟨hout1, hcount1, -⟩ <;>
        rcases took2.count with ⟨hin2, hcount2⟩ | ⟨hout2, hcount2, -⟩
      all_goals
        simp only [Set.mem_insert_iff, hmem1, hmem2] at *
        split <;> split <;> omega
    · rcases took2.count with ⟨-, hcount2⟩ | ⟨-, hcount2, hnew2⟩
      · rcases took1.count with ⟨-, hcount1⟩ | ⟨-, hcount1, hnew1⟩ <;> omega
      · omega

/-! ### Appending -/

/-- What appending `p` at `off` comes to. -/
structure Appended (s s' : Image) (din din' : Dinode) (off : ℕ) (p : Str) : Prop where
  room : Room s'
  full : s'.freeblock ≤ FSSIZE
  held : Held s'.disk s'.freeblock din' (need (off + p.length))
  grown : Grown s s' din din' off
  size : p ≠ [] → off + p.length ≤ MAXFILE * BSIZE
  data : ∀ j, j < p.length → byteOf s'.disk din' (off + j) = p.getD j 0
  count : s'.freeblock + blocksOf off = s.freeblock + blocksOf (off + p.length)

/-- The inode cannot take so many bytes, or there are not enough blocks. -/
def Over (fb off len : ℕ) : Prop := MAXFILE * BSIZE < off + len ∨ FSSIZE + blocksOf off < fb +
    blocksOf (off + len)

/-- Bytes are written to the block of the byte at `off`. -/
theorem write_block (h : Room s)
    (hheld : Held s.disk s.freeblock din (need (off + 1))) (hoff : off / 512 < 135) (hpos : 0 < n1)
    (hn1 : off + n1 ≤ (off / 512 + 1) * 512) (hs' : s' = { s with disk := s'.disk })
    (hupdate : s'.disk = update s.disk (ptr s.disk din (off / 512))
      ((s.disk (ptr s.disk din (off / 512))).splice (off - off / 512 * 512) n1 fun j => p.getD j 0)) :
    Room s' ∧ Held s'.disk s'.freeblock din (need (off + n1)) ∧ Grown s s' din din off ∧
      ∀ j, j < n1 → byteOf s'.disk din (off + j) = p.getD j 0 := by
  have hne : ptr s.disk din (off / 512) ≠ 0 :=
    (hheld.blocks _ (by omega)).mpr ((mem_need hoff).mpr (by omega))
  have hlt := (hheld.range _ hne).2
  have hfree : s'.freeblock = s.freeblock := by rw [hs']
  have hdisk : ∀ c, c ≠ ptr s.disk din (off / 512) → s'.disk c = s.disk c := fun c hc => by
    rw [hupdate]
    exact update_of_ne hc _ _
  have hself : s'.disk (ptr s.disk din (off / 512)) =
      (s.disk (ptr s.disk din (off / 512))).splice (off - off / 512 * 512) n1 fun j => p.getD j 0 := by
    rw [hupdate]
    exact update_self ..
  have hother : ∀ m, m ≠ off / 512 → ptr s.disk din m ≠ 0 → ptr s.disk din m ≠ ptr s.disk din
    (off / 512) := fun m hm h0 heq =>
    hm (hheld.inj m _ h0 heq)
  have hptr : ∀ m, ptr s'.disk din m = ptr s.disk din m := by
    intro m
    apply ptr_congr rfl
    intro h7
    rw [← ptr_indirect s.disk din]
    exact hdisk _ (hother 135 (by omega) (addrs_ne_zero.mp h7))
  have hneed : need (off + n1) = need (off + 1) := by
    ext m
    simp only [need, Set.mem_ofPred_eq]
    omega
  refine ⟨?_, ?_, ?_, fun j hj => ?_⟩
  · refine ⟨?_, hfree ▸ h.low, fun c hc x => ?_, ?_⟩
    · rw [hs']
      exact h.len
    · rw [hdisk c (by omega)]
      exact h.zero c (by omega) x
    · rw [hs']
      exact h.trace
  · rw [hneed, hfree]
    refine ⟨fun m hm => ?_, fun m k hm hmk => ?_, fun m hm => ?_⟩
    · rw [hptr] at hm ⊢
      exact hheld.range m hm
    · rw [hptr] at hm
      rw [hptr, hptr] at hmk
      exact hheld.inj m k hm hmk
    · rw [hptr]
      exact hheld.blocks m hm
  · refine ⟨rfl, by rw [hs'], hfree.ge, fun m _ => hptr m, fun m h0 hm => absurd h0 (hptr m ▸ hm),
      fun c _ hc => hdisk c (hc _).symm, fun y hy => ?_⟩
    unfold byteOf
    rw [hptr]
    by_cases hsame : y / 512 = off / 512
    · rw [hsame, hself, Mem.splice_of_lt (by omega)]
    · by_cases h0 : ptr s.disk din (y / 512) = 0
      · simp [h0]
      · rw [hdisk _ (hother _ hsame h0)]
  · unfold byteOf
    rw [hptr, show (off + j) / 512 = off / 512 by omega, if_pos ⟨hoff, hne⟩, hself]
    rw [Mem.splice_of_mem (by omega) (by omega)]
    congr 1
    omega

theorem blocksOf_same (hpos : 0 < n1) (hn1 : off + n1 ≤ (off / 512 + 1) * 512) :
    blocksOf (off + n1) = blocksOf (off + 1) := by
  unfold blocksOf
  split <;> split <;> omega

theorem Appended.nil (h : Room s) (hheld : Held s.disk s.freeblock din (need off))
    (hfb : s.freeblock ≤ FSSIZE) : Appended s s din din off [] :=
  ⟨h, hfb, hheld, Grown.refl s din off, fun hne => absurd rfl hne, fun j hj =>
    absurd hj (Nat.not_lt_zero j), rfl⟩

theorem appendLoop_sat : ∀ (fuel : ℕ) {s : Image} {din : Dinode} {off : ℕ} {p : Str},
    p.length ≤ fuel → Room s → Held s.disk s.freeblock din (need off) → s.freeblock ≤ FSSIZE →
    Sat (appendLoop fuel din off p) s (fun r s' => r.2 = off + p.length ∧ Appended s s' din r.1 off p)
      fun _ => Over s.freeblock off p.length
  | 0, s, din, off, p, hp, h, hheld, hfb => by
    obtain rfl : p = [] := List.eq_nil_of_length_eq_zero (by omega)
    exact .pure ⟨rfl, .nil h hheld hfb⟩
  | fuel + 1, s, din, off, p, hp, h, hheld, hfb => by
    have hmaxfile := maxfile_bytes
    have hfssize := fssize_eq
    refine .ite (fun h0 => ?_) fun h0 => .ite (fun hmax => .stop (.inl (by omega))) fun hmax => ?_
    · obtain rfl : p = [] := List.eq_nil_of_length_eq_zero h0
      exact .pure ⟨rfl, .nil h hheld hfb⟩
    have hoff : off / 512 < 135 := by omega
    have hmono : blocksOf (off + 1) ≤ blocksOf (off + p.length) := blocksOf_mono (by omega)
    refine .bind ((place_sat h hheld hfb hoff).mono (fun _ _ hq => hq) fun _ he => .inr (by omega)) ?_
    rintro ⟨din1, x⟩ s1 ⟨hroom, hheld1, hgrown, hx, hcount, hlast⟩
    simp only at hx hheld1 hgrown hcount hlast
    obtain ⟨n1, hn1⟩ : ∃ n1, n1 = min p.length ((off / 512 + 1) * 512 - off) := ⟨_, rfl⟩
    have hne : ptr s1.disk din1 (off / 512) ≠ 0 :=
      (hheld1.blocks _ (by omega)).mpr ((mem_need hoff).mpr (by omega))
    have hlt := (hheld1.range _ hne).2
    have hlen := hroom.len
    have hfb1 : s1.freeblock ≤ FSSIZE + 2 := by
      unfold blocksOf at hcount
      split at hcount <;> split at hcount <;> omega
    rw [← hx] at hlt
    refine (rsect_sat (by omega) fun hge => .inr (by omega)).bind ?_
    rintro buf s2 ⟨rfl, rfl, hx'⟩
    rw [← hn1]
    refine wsect_bind hx' (hlen.trans_le (by decide)) ?_
    have hpos : 0 < n1 := by omega
    have hle : off + n1 ≤ (off / 512 + 1) * 512 := by omega
    generalize hs3 : ({ s2 with disk := update s2.disk x _ } : Image) = s3
    have hupdate : s3.disk = update s2.disk (ptr s2.disk din1 (off / 512))
        ((s2.disk (ptr s2.disk din1 (off / 512))).splice (off - off / 512 * 512) n1 fun j =>
          p.getD j 0) := by
      rw [← hs3, ← hx]
    obtain ⟨hroom3, hheld3, hgrown3, hdata3⟩ := write_block hroom hheld1 hoff hpos hle
      (by rw [← hs3]) hupdate
    have hfree3 : s3.freeblock = s2.freeblock := by rw [← hs3]
    have hsame := blocksOf_same hpos hle
    have hdrop : (p.drop n1).length = p.length - n1 := List.length_drop
    have hsum : off + n1 + (p.drop n1).length = off + p.length := by omega
    refine (appendLoop_sat fuel (by omega) hroom3 hheld3 (by omega)).mono ?_ fun _ he => ?_
    · rintro ⟨din4, off4⟩ s4 ⟨hoff4, happ⟩
      simp only at hoff4 happ
      have hgrown4 := happ.grown
      refine ⟨by simp only; omega, happ.room, happ.full, hsum ▸ happ.held,
        (hgrown off).trans (hgrown3.trans hgrown4 (by omega)) le_rfl, fun _ => ?_, fun j hj => ?_, ?_⟩
      · by_cases hnil : p.drop n1 = []
        · rw [hnil, length_nil] at hdrop
          omega
        · have := happ.size hnil
          omega
      · by_cases hj1 : j < n1
        · rw [happ.grown.bytes _ (by omega), hdata3 j hj1]
        · have := happ.data (j - n1) (by omega)
          rw [show off + n1 + (j - n1) = off + j by omega] at this
          rw [this, getD_eq_getElem?_getD, List.getElem?_drop, show n1 + (j - n1) =
            j by omega, ← getD_eq_getElem?_getD]
      · have := happ.count
        rw [hsum] at this
        omega
    · unfold Over at he ⊢
      rw [hsum] at he
      omega

/-! ### The image so far -/

def typeOf (i : ℕ) : Int16 := if i = ROOTINO then T_DIR else T_FILE

/-- The inodes that there are hold `A`. -/
structure Made (s : Image) (A : ℕ → Str) : Prop where
  room : Room s
  full : s.freeblock ≤ FSSIZE
  inodes : s.freeinode ≤ 200
  fields : ∀ i, 1 ≤ i → i < s.freeinode → dinodeAt sb s.disk i =
    { newDinode (typeOf i) with size := UInt32.ofNat (A i).length, addrs := (dinodeAt sb s.disk i).addrs }
  size : ∀ i, 1 ≤ i → i < s.freeinode → (A i).length ≤ MAXFILE * BSIZE
  held : ∀ i, 1 ≤ i → i < s.freeinode → Held s.disk s.freeblock (dinodeAt sb s.disk i) (need (A i).length)
  apart : ∀ i j n m, 1 ≤ i → i < s.freeinode → 1 ≤ j → j < s.freeinode →
    ptr s.disk (dinodeAt sb s.disk i) n ≠ 0 →
    ptr s.disk (dinodeAt sb s.disk i) n = ptr s.disk (dinodeAt sb s.disk j) m → i = j
  data : ∀ i, 1 ≤ i → i < s.freeinode → ∀ x, x < (A i).length →
    byteOf s.disk (dinodeAt sb s.disk i) x = (A i).getD x 0
  free : ∀ i, i = 0 ∨ s.freeinode ≤ i → i < 200 → dinodeAt sb s.disk i = Dinode.zero
  super : s.disk 1 = sbBlock

variable {A : ℕ → Str} {i j : ℕ} {d : Dinode}

theorem IBLOCK_range (hi : i < 200) : 32 ≤ sb.IBLOCK i ∧ sb.IBLOCK i < 58 := by
  show 32 ≤ i / 8 + 32 ∧ i / 8 + 32 < 58
  omega

theorem winode_sat (hlen : s.len = FSSIZE) (hi : i < 200) :
    Sat (winode i d) s (fun _ s' =>
      s' = { s with disk := setDinode sb s.disk i d, trace := s.trace ++ [.inode (sb.IBLOCK i)] })
      E := by
  have hfssize := fssize_eq
  have hrange := IBLOCK_range hi
  refine (rsect_sat (by omega) fun hge => absurd hge (by omega)).bind ?_
  rintro buf s1 ⟨rfl, rfl, hlt⟩
  refine wsect_bind hlt (hlen.trans_le (by decide)) (.modify ?_)
  rw [seek_eq (by omega)]
  rfl

theorem rinode_sat (hlen : s.len = FSSIZE) (hi : i < 200) :
    Sat (rinode i) s (fun d s' => s' = s ∧ d = dinodeAt sb s.disk i) E := by
  have hfssize := fssize_eq
  have hrange := IBLOCK_range hi
  refine (rsect_sat (by omega) fun hge => absurd hge (by omega)).bind ?_
  rintro buf s1 ⟨rfl, rfl, hlt⟩
  exact .pure ⟨rfl, rfl⟩

/-- An inode whose blocks have not changed. -/
theorem untouched_of_blocks (hD : ∀ n, ptr D d n ≠ 0 → D' (ptr D d n) = D (ptr D d n)) :
    Untouched D D' d :=
  ⟨fun n => ptr_congr rfl (fun h7 => hD 135 (addrs_ne_zero.mp h7)) n, fun n _ => hD n⟩

theorem Held.congr (h : Held D fb d S) (hD : ∀ n, ptr D' din' n = ptr D d n) (hfb : fb ≤ v) :
    Held D' v din' S := by
  refine ⟨fun n hn => ?_, fun n m hn hnm => ?_, fun n hn => ?_⟩
  · rw [hD] at hn ⊢
    exact ⟨(h.range n hn).1, (h.range n hn).2.trans_le hfb⟩
  · rw [hD] at hn
    rw [hD, hD] at hnm
    exact h.inj n m hn hnm
  · rw [hD]
    exact h.blocks n hn

/-- Writing an inode leaves the blocks from `nmeta` on alone. -/
theorem setDinode_ge (hi : i < 200) {c : ℕ} (hc : nmeta ≤ c) : setDinode sb D i d c = D c :=
  setDinode_data hi hc d

theorem setDinode_super (D : Disk) (d : Dinode) (hi : i < 200) : setDinode sb D i d 1 = D 1 := by
  have hrange := IBLOCK_range hi
  unfold setDinode
  exact update_of_ne (by omega) _ _

theorem Room.winode (h : Room s) (hi : i < 200) :
    Room { s with disk := setDinode sb s.disk i d, trace := s.trace ++ [.inode (sb.IBLOCK i)] } := by
  have hlow := h.low
  refine ⟨h.len, h.low, fun c hc x => ?_, fun e he => ?_⟩
  · have hc' : s.freeblock ≤ c := hc
    show setDinode sb s.disk i d c x = 0
    rw [setDinode_ge hi (by omega)]
    exact h.zero c hc x
  · rw [List.mem_append, List.mem_singleton] at he
    rcases he with he | rfl
    · exact h.trace e he
    · exact IBLOCK_range hi

theorem ptr_zero (D : Disk) (n : ℕ) (hd : d.addrs = fun _ => 0) : ptr D d n = 0 := by
  unfold ptr
  simp [hd]

theorem Held.zero (D : Disk) (fb : ℕ) (hd : d.addrs = fun _ => 0) : Held D fb d (need 0) := by
  refine ⟨fun n hn => absurd (ptr_zero D n hd) hn, fun n m hn _ => absurd (ptr_zero D n hd) hn,
    fun n hn => ?_⟩
  rw [ptr_zero D n hd, need, Set.mem_ofPred_eq]
  omega

/-- Inode `i` now holds `B`, and the others are as they were. -/
theorem Made.put {B : Str} (h : Made s A) (hroom : Room s') (hfull : s'.freeblock ≤ FSSIZE)
    (hgrow : s.freeblock ≤ s'.freeblock) (hi : 1 ≤ i) (hlt : i < s'.freeinode) (hle : s'.freeinode ≤ 200)
    (hinodes : ∀ j, j ≠ i → (j < s'.freeinode ↔ j < s.freeinode))
    (hothers : ∀ j, j ≠ i → j < 200 → dinodeAt sb s'.disk j = dinodeAt sb s.disk j)
    (hfields : dinodeAt sb s'.disk i = { newDinode (typeOf i) with
      size := UInt32.ofNat B.length, addrs := (dinodeAt sb s'.disk i).addrs })
    (hsize : B.length ≤ MAXFILE * BSIZE) (hheld : Held s'.disk s'.freeblock (dinodeAt sb s'.disk i)
      (need B.length))
    (hdata : ∀ x, x < B.length → byteOf s'.disk (dinodeAt sb s'.disk i) x = B.getD x 0)
    (hframe : ∀ c, nmeta ≤ c → c < s.freeblock → (∀ n, ptr s.disk (dinodeAt sb s.disk i) n ≠ c) →
      s'.disk c = s.disk c)
    (hold : ∀ n m j, j ≠ i → 1 ≤ j → j < s.freeinode → ptr s'.disk (dinodeAt sb s'.disk i) n ≠ 0 →
      ptr s'.disk (dinodeAt sb s'.disk i) n ≠ ptr s.disk (dinodeAt sb s.disk j) m)
    (hnot : ∀ n m j, j ≠ i → 1 ≤ j → j < s.freeinode → ptr s.disk (dinodeAt sb s.disk j) m ≠ 0 →
      ptr s.disk (dinodeAt sb s.disk i) n ≠ ptr s.disk (dinodeAt sb s.disk j) m)
    (hsuper : s'.disk 1 = s.disk 1) : Made s' (update A i B) := by
  have hsame : ∀ j, j ≠ i → 1 ≤ j → j < s.freeinode → Untouched s.disk s'.disk
    (dinodeAt sb s.disk j) := by
    intro j hj h1 hj'
    refine untouched_of_blocks fun m hm => ?_
    have hrange := (h.held j h1 hj').range m hm
    exact hframe _ hrange.1 hrange.2 fun n => hnot n m j hj h1 hj' hm
  have hptr : ∀ j, j ≠ i → 1 ≤ j → j < s'.freeinode → ∀ n,
      ptr s'.disk (dinodeAt sb s'.disk j) n = ptr s.disk (dinodeAt sb s.disk j) n := by
    intro j hj h1 hj' n
    rw [hothers j hj (by omega)]
    exact (hsame j hj h1 ((hinodes j hj).mp hj')).ptr n
  refine ⟨hroom, hfull, hle, fun j h1 hj' => ?_, fun j h1 hj' => ?_, fun j h1 hj' => ?_,
    fun j k n m h1 hj' h1' hk' hn hnm => ?_,
    fun j h1 hj' x hx => ?_, fun j hj' h200 => ?_, hsuper.trans h.super⟩
  · by_cases hj : j = i
    · subst hj
      rw [update_self]
      exact hfields
    · rw [update_of_ne hj, hothers j hj (by omega)]
      exact h.fields j h1 ((hinodes j hj).mp hj')
  · by_cases hj : j = i
    · subst hj
      rw [update_self]
      exact hsize
    · rw [update_of_ne hj]
      exact h.size j h1 ((hinodes j hj).mp hj')
  · by_cases hj : j = i
    · subst hj
      rw [update_self]
      exact hheld
    · rw [update_of_ne hj]
      exact (h.held j h1 ((hinodes j hj).mp hj')).congr (hptr j hj h1 hj') hgrow
  · by_cases hj : j = i <;> by_cases hk : k = i
    · rw [hj, hk]
    · rw [hptr k hk h1' hk'] at hnm
      subst hj
      exact absurd hnm (hold n m k hk h1' ((hinodes k hk).mp hk') hn)
    · rw [hptr j hj h1 hj'] at hnm
      subst hk
      have hn' : ptr s'.disk (dinodeAt sb s'.disk k) m ≠ 0 := hnm ▸ hptr j hj h1 hj' n ▸ hn
      exact absurd hnm.symm (hold m n j hj h1 ((hinodes j hj).mp hj') hn')
    · rw [hptr j hj h1 hj'] at hn
      rw [hptr j hj h1 hj', hptr k hk h1' hk'] at hnm
      exact h.apart j k n m h1 ((hinodes j hj).mp hj') h1' ((hinodes k hk).mp hk') hn hnm
  · by_cases hj : j = i
    · subst hj
      rw [update_self] at hx ⊢
      exact hdata x hx
    · rw [update_of_ne hj] at hx ⊢
      have hj'' := (hinodes j hj).mp hj'
      rw [hothers j hj (by omega), (hsame j hj h1 hj'').byteOf]
      exact h.data j h1 hj'' x hx
  · have hj : j ≠ i := by omega
    have hfree := hinodes j hj
    rw [hothers j hj h200]
    exact h.free j (by omega) h200

/-- `ialloc` makes an empty file. -/
theorem ialloc_sat (h : Made s A) (hroom : s.freeinode < 200) (hpos : 1 ≤ s.freeinode) :
    Sat (ialloc (typeOf s.freeinode)) s (fun r s' => r = s.freeinode ∧ s'.freeinode = s.freeinode + 1 ∧
      s'.freeblock = s.freeblock ∧ Made s' (update A r [])) E := by
  refine .get_bind (.modify_bind ?_)
  have hzero := h.free s.freeinode (.inr le_rfl) hroom
  have hblock := IBLOCK_range hroom
  generalize hi : s.freeinode = i at *
  have hgen : Room { s with freeinode := i + 1 } := ⟨h.room.len, h.room.low, h.room.zero, h.room.trace⟩
  refine (winode_sat (s := { s with freeinode := i + 1 }) h.room.len hroom).bind ?_
  rintro _ s' rfl
  refine .pure ⟨rfl, rfl, rfl, h.put (hgen.winode hroom) h.full le_rfl hpos (Nat.lt_succ_self _)
    hroom (fun j hj => ?_)
    (fun j hj _ => dinodeAt_setDinode_ne _ hj) ?_ (Nat.zero_le _) ?_
      (fun x hx => absurd hx (Nat.not_lt_zero x))
    (fun c hc _ _ => setDinode_ge hroom hc) (fun n m j hj h1 hj' hn => ?_)
      (fun n m j hj h1 hj' hm => ?_) ?_⟩
  · show j < i + 1 ↔ j < s.freeinode
    omega
  · rw [dinodeAt_setDinode_self]
    rfl
  · exact .zero _ _ (by rw [dinodeAt_setDinode_self]; rfl)
  · exact absurd (ptr_zero _ n (by rw [dinodeAt_setDinode_self]; rfl)) hn
  · rw [hzero, ptr_zero _ n rfl]
    exact hm.symm
  · exact setDinode_super s.disk (newDinode (typeOf i)) hroom

/-- `iappend` appends to the contents of the inode. -/
theorem iappend_sat (h : Made s A) (hi : 1 ≤ i) (hlt : i < s.freeinode) :
    Sat (iappend i p) s (fun _ s' => s'.freeinode = s.freeinode ∧
      s'.freeblock + blocksOf (A i).length = s.freeblock + blocksOf ((A i).length + p.length) ∧
      Made s' (update A i (A i ++ p))) fun _ => Over s.freeblock (A i).length p.length := by
  have hmaxfile := maxfile_bytes
  have hmeta := nmeta_eq
  have hfssize := fssize_eq
  have h200 : i < 200 := hlt.trans_le h.inodes
  refine (rinode_sat h.room.len h200).bind ?_
  rintro din s1 ⟨rfl, rfl⟩
  have hsize := h.size i hi hlt
  have hoff : (dinodeAt sb s1.disk i).size.toNat = (A i).length := by
    rw [h.fields i hi hlt]
    exact toNat_ofNat_of_lt (by omega)
  rw [hoff]
  refine (appendLoop_sat _ le_rfl h.room (h.held i hi hlt) h.full).bind ?_
  rintro ⟨din, off⟩ s2 ⟨hoff', happ⟩
  simp only at hoff' happ
  have hfields := happ.grown.fields
  have hgrow := happ.grown.grow
  refine (winode_sat (d := { din with size := UInt32.ofNat off }) happ.room.len h200).mono ?_
    fun _ he => he
  rintro _ s3 rfl
  have hmeta : ∀ c, c ≠ 0 → c < nmeta → s2.disk c = s1.disk c := fun c h0 hc => by
    have hlow := h.room.low
    refine happ.grown.frame c (by omega) fun n hn => ?_
    have := (h.held i hi hlt).range n (hn ▸ h0)
    omega
  have hdata : ∀ c, nmeta ≤ c → setDinode sb s2.disk i { din with size := UInt32.ofNat off } c =
    s2.disk c :=
    fun c hc => setDinode_ge h200 hc
  have hsame : Untouched s2.disk (setDinode sb s2.disk i { din with size := UInt32.ofNat off }) din :=
    untouched_of_blocks fun n hn => hdata _ (happ.held.range n hn).1
  have hlen : (A i ++ p).length = (A i).length + p.length := length_append
  have hother : ∀ j m, j ≠ i → 1 ≤ j → j < s1.freeinode → ∀ n, ptr s1.disk (dinodeAt sb s1.disk i) n ≠ 0 →
      ptr s1.disk (dinodeAt sb s1.disk i) n ≠ ptr s1.disk (dinodeAt sb s1.disk j) m :=
    fun j m hj h1 hj' n hn hnm => hj (h.apart i j n m hi hlt h1 hj' hn hnm).symm
  refine ⟨happ.grown.inodes, happ.count, h.put (happ.room.winode h200) happ.full hgrow hi ?_ ?_
    (fun j _ => ?_)
    (fun j hj hj' => ?_) ?_ ?_ ?_ (fun x hx => ?_)
    (fun c hc hc' hne => (hdata c hc).trans (happ.grown.frame c hc' hne)) (fun n m j hj h1 hj' hn => ?_)
    (fun n m j hj h1 hj' hm hnm => hother j m hj h1 hj' n (hnm ▸ hm) hnm)
    ((setDinode_super s2.disk { din with size := UInt32.ofNat off } h200).trans
      (hmeta 1 (by omega) (by omega)))⟩
  · exact hlt.trans_eq happ.grown.inodes.symm
  · exact happ.grown.inodes.trans_le h.inodes
  · exact iff_of_eq (congrArg _ happ.grown.inodes)
  · have hrange := IBLOCK_range hj'
    rw [dinodeAt_setDinode_ne _ hj, dinodeAt, dinodeAt, hmeta _ (by omega) (by omega)]
  · rw [dinodeAt_setDinode_self, hfields, h.fields i hi hlt, hoff', hlen]
  · rw [hlen]
    by_cases hp : p = []
    · rw [hp, length_nil]
      exact hsize
    · exact happ.size hp
  · rw [dinodeAt_setDinode_self, hlen]
    exact happ.held.congr hsame.ptr le_rfl
  · rw [dinodeAt_setDinode_self]
    refine (hsame.byteOf x).trans ?_
    by_cases hx' : x < (A i).length
    · rw [happ.grown.bytes x hx', h.data i hi hlt x hx', getD_eq_getElem?_getD,
        getD_eq_getElem?_getD,
        List.getElem?_append_left hx']
    · have := happ.data (x - (A i).length) (by omega)
      rw [show (A i).length + (x - (A i).length) = x by omega] at this
      rw [this, getD_eq_getElem?_getD, getD_eq_getElem?_getD, List.getElem?_append_right
        (by omega)]
  · rw [dinodeAt_setDinode_self] at hn ⊢
    have hn' : ptr s2.disk din n ≠ 0 := fun h0 => hn ((hsame.ptr n).trans h0)
    refine ne_of_eq_of_ne (hsame.ptr n) ?_
    by_cases h0 : ptr s1.disk (dinodeAt sb s1.disk i) n = 0
    · intro hnm
      have hfresh := happ.grown.fresh n h0 hn'
      have := (h.held j h1 hj').range m (hnm ▸ hn')
      omega
    · rw [happ.grown.keep n h0]
      exact hother j m hj h1 hj' n h0

/-- One piece after the other. -/
theorem appendAll_sat : ∀ (ps : List Str) {s : Image} {A : ℕ → Str}, Made s A → 1 ≤ i → i < s.freeinode →
    Sat (appendAll i ps) s (fun _ s' => s'.freeinode = s.freeinode ∧
      s'.freeblock + blocksOf (A i).length = s.freeblock + blocksOf ((A i).length + ps.flatten.length) ∧
      Made s' (update A i (A i ++ ps.flatten))) fun _ => Over s.freeblock (A i).length ps.flatten.length
  | [], s, A, h, _, _ => by
    refine .pure ⟨rfl, rfl, ?_⟩
    rwa [List.flatten_nil, List.append_nil, Function.update_eq_self]
  | p :: ps, s, A, h, hi, hlt => by
    have hlen : (p :: ps).flatten.length = p.length +
      ps.flatten.length := by rw [flatten_cons, length_append]
    have hmono :
      blocksOf ((A i).length + p.length) ≤ blocksOf ((A i).length + (p :: ps).flatten.length) :=
      blocksOf_mono (by omega)
    refine .bind ((iappend_sat h hi hlt).mono (fun _ _ hq => hq) fun _ he => ?_) ?_
    · unfold Over at he ⊢
      omega
    rintro _ s1 ⟨hinode, hcount, hmade⟩
    have hsum : (A i ++ p).length + ps.flatten.length = (A i).length + (p :: ps).flatten.length := by
      rw [length_append]
      omega
    have hrest := appendAll_sat ps hmade hi (hinode ▸ hlt)
    rw [update_self, update_idem, List.append_assoc, ← flatten_cons, hsum] at hrest
    have hpiece : (A i ++ p).length = (A i).length + p.length := length_append
    refine hrest.mono ?_ fun _ he => ?_
    · rintro _ s2 ⟨hinode2, hcount2, hmade2⟩
      rw [hpiece] at hcount2
      exact ⟨hinode2.trans hinode, by omega, hmade2⟩
    · unfold Over at he ⊢
      rw [hsum, hpiece] at he
      omega

theorem reads_flatten : ∀ (fuel : ℕ) (data : Str), data.length ≤ fuel → (reads fuel data).flatten = data
  | 0, data, h => (List.eq_nil_of_length_eq_zero (by omega)).symm
  | fuel + 1, data, h => by
    unfold reads
    split_ifs with h0
    · exact (List.eq_nil_of_length_eq_zero h0).symm
    · rw [flatten_cons, reads_flatten fuel _ (by rw [List.length_drop]; omega),
        List.take_append_drop]

end

/-! ### The files -/

def HostFile.bytes (f : HostFile) : Str := f.data.getD []

/-- mkfs can take the file. -/
structure HostFile.Ok (f : HostFile) : Prop where
  slash : 47 ∉ f.name
  opens : f.data ≠ none
  size : f.bytes.length ≤ MAXFILE * BSIZE

/-- The blocks that the contents of the files take. -/
def fileBlocks : List HostFile → ℕ
  | [] => 0
  | f :: fs => blocksOf f.bytes.length + fileBlocks fs

/-- mkfs can take the files, with `fb` the next free block and a directory of `dir` bytes. -/
def Fit (fb dir : ℕ) (fs : List HostFile) : Prop :=
  (∀ f ∈ fs, f.Ok) ∧ fb + blocksOf (dir + 16 * fs.length) + fileBlocks fs ≤ FSSIZE + blocksOf dir

open Dirent (bytes)

/-- The files get the inodes from `i` on and entries in the root directory. -/
def filled (A : ℕ → Str) : ℕ → List HostFile → ℕ → Str
  | _, [] => A
  | i, f :: fs =>
    filled (update (update A ROOTINO (A ROOTINO ++ bytes i (strip f.name)))
      i f.bytes) (i + 1) fs

section

variable {s s' : Image} {A : ℕ → Str} {i : ℕ} {f : HostFile} {fs files : List HostFile}
  {E : Halt → Prop}

theorem length_dirent (i : ℕ) (name : Str) : (bytes i name).length = 16 := by
  simp [bytes, strncpy_length]

theorem addFile_sat (h : Made s A) (hroot : (A ROOTINO).length = 16 * s.freeinode)
    (hlow : 2 ≤ s.freeinode) (hroom : s.freeinode < 200) :
    Sat (addFile f) s (fun _ s' => f.Ok ∧ s'.freeinode = s.freeinode + 1 ∧
      s'.freeblock + blocksOf (16 * s.freeinode) = s.freeblock + blocksOf (16 * s.freeinode + 16) +
      blocksOf f.bytes.length ∧
      Made s' (update (update A ROOTINO (A ROOTINO ++ bytes s.freeinode (strip f.name)))
        s.freeinode f.bytes))
      fun _ => ¬(f.Ok ∧ s.freeblock + blocksOf (16 * s.freeinode + 16) + blocksOf f.bytes.length ≤
        FSSIZE + blocksOf (16 * s.freeinode)) := by
  have hmaxfile := maxfile_bytes
  refine .ite (fun hslash => .stop fun hok => hok.1.slash hslash) fun hslash => ?_
  rcases hdata : f.data with _ | data
  · exact .stop fun hok => hok.1.opens hdata
  have hbytes : f.bytes = data := by rw [HostFile.bytes, hdata, Option.getD_some]
  obtain ⟨i, hi⟩ : ∃ i, i = s.freeinode := ⟨_, rfl⟩
  rw [← hi] at hlow hroom hroot ⊢
  have hne : ROOTINO ≠ i := by
    show 1 ≠ i
    omega
  have htype : T_FILE = typeOf i := (if_neg hne.symm).symm
  simp only
  rw [htype, hi]
  refine (ialloc_sat h (hi ▸ hroom) (by omega)).bind ?_
  rintro r s1 ⟨rfl, hinode1, hblock1, hmade1⟩
  rw [← hi] at hinode1 hmade1 ⊢
  have happ := iappend_sat (p := bytes i (strip f.name)) hmade1 le_rfl
    (show ROOTINO < s1.freeinode by
    show 1 < s1.freeinode
    omega)
  rw [update_of_ne hne, length_dirent, hroot, Function.update_comm hne.symm] at happ
  have hmono : blocksOf (16 * i) ≤ blocksOf (16 * i + 16) := blocksOf_mono (by omega)
  refine .bind (happ.mono (fun _ _ hq => hq) fun _ he hok => ?_) ?_
  · unfold Over at he
    omega
  rintro _ s2 ⟨hinode2, hblock2, hmade2⟩
  have hall := appendAll_sat (reads data.length data) hmade2 (by omega) (by omega : i < s2.freeinode)
  rw [update_self, reads_flatten _ _ le_rfl, update_idem, List.nil_append, length_nil,
    Nat.zero_add] at hall
  have h0 : blocksOf 0 = 0 := rfl
  rw [hbytes]
  refine hall.mono ?_ fun _ he hok => ?_
  · rintro _ s3 ⟨hinode3, hblock3, hmade3⟩
    have hsize := hmade3.size i (by omega) (by omega)
    rw [update_self] at hsize
    exact ⟨⟨hslash, by rw [hdata]; nofun, hbytes ▸ hsize⟩, by omega, by omega, hmade3⟩
  · have := hbytes ▸ hok.1.size
    rw [Over, Nat.zero_add] at he
    omega

theorem Fit.cons {fb dir : ℕ} : Fit fb dir (f :: fs) ↔ (f.Ok ∧ ∀ g ∈ fs, g.Ok) ∧
    fb + blocksOf (dir + 16 + 16 * fs.length) + (blocksOf f.bytes.length + fileBlocks fs) ≤ FSSIZE +
    blocksOf dir := by
  rw [Fit, List.forall_mem_cons, List.length_cons, fileBlocks, show dir + 16 * (fs.length + 1) =
    dir + 16 + 16 * fs.length by ring]

theorem addFiles_sat : ∀ (fs : List HostFile) {s : Image} {A : ℕ → Str}, Made s A →
    (A ROOTINO).length = 16 * s.freeinode → 2 ≤ s.freeinode → s.freeinode + fs.length ≤ 200 →
    Sat (addFiles fs) s (fun _ s' => s'.freeinode = s.freeinode + fs.length ∧
      Made s' (filled A s.freeinode fs) ∧ Fit s.freeblock (16 * s.freeinode) fs) fun _ =>
      ¬Fit s.freeblock (16 * s.freeinode) fs
  | [], s, A, h, _, _, _ => by
    refine .pure ⟨rfl, h, nofun, ?_⟩
    have hfull := h.full
    show s.freeblock + blocksOf (16 * s.freeinode) + 0 ≤ _
    omega
  | f :: fs, s, A, h, hroot, hlow, hroom => by
    rw [List.length_cons] at hroom ⊢
    have hmono :
      blocksOf (16 * s.freeinode + 16) ≤ blocksOf (16 * s.freeinode + 16 + 16 * fs.length) :=
        blocksOf_mono (by omega)
    refine .bind ((addFile_sat h hroot hlow (by omega)).mono (fun _ _ hq => hq) fun _ he hfit => he ?_) ?_
    · rw [Fit.cons] at hfit
      exact ⟨hfit.1.1, by omega⟩
    rintro _ s1 ⟨hok, hinode, hcount, hmade⟩
    have hne : ROOTINO ≠ s.freeinode := by
      show 1 ≠ s.freeinode
      omega
    have hroot' : (update (update A ROOTINO (A ROOTINO ++ bytes s.freeinode (strip f.name)))
        s.freeinode f.bytes ROOTINO).length = 16 * s1.freeinode := by
      rw [update_of_ne hne, update_self, length_append, length_dirent, hroot, hinode]
      omega
    have hfit : Fit s1.freeblock (16 * s1.freeinode) fs ↔ Fit s.freeblock (16 * s.freeinode)
      (f :: fs) := by
      rw [Fit.cons, Fit, hinode, show 16 * (s.freeinode + 1) = 16 * s.freeinode + 16 by ring]
      constructor
      · exact fun hf => ⟨⟨hok, hf.1⟩, by omega⟩
      · exact fun hf => ⟨hf.1.2, by omega⟩
    refine (addFiles_sat fs hmade hroot' (by omega) (by omega)).mono ?_ fun _ he hf => he (hfit.mpr hf)
    rintro _ s2 ⟨hinode2, hmade2, hfit2⟩
    refine ⟨by omega, ?_, hfit.mp hfit2⟩
    rw [hinode] at hmade2
    exact hmade2

theorem zeroSects_sat : ∀ (n : ℕ), n ≤ 2 ^ 23 →
    Sat (zeroSects n) s (fun _ s' =>
      s' = { s with disk := fun c => if c < n then fun _ => 0 else s.disk c, len := max s.len n }) E
  | 0, _ => by
    rw [zeroSects_zero]
    refine .pure ?_
    simp
  | n + 1, hn => by
    rw [zeroSects_succ]
    refine (zeroSects_sat n (by omega)).bind ?_
    rintro _ s1 rfl
    refine .modify ?_
    rw [seek_eq (by omega)]
    congr 1
    · funext c
      by_cases hc : c = n
      · rw [hc, update_self, if_pos (Nat.lt_succ_self n)]
      · rw [update_of_ne hc]
        exact if_congr (by omega) rfl rfl
    · show max (max s.len n) (n + 1) = max s.len (n + 1)
      omega

/-- What the inodes hold in the end. -/
def contents (files : List HostFile) : ℕ → Str :=
  filled (update (fun _ => []) ROOTINO (bytes ROOTINO dot ++ bytes ROOTINO
    dotdot)) 2 files

/-- The size of the root directory after rounding. -/
def rounded (n : ℕ) : ℕ := (n / 512 + 1) * 512

/-- `fixRoot` and `balloc`, on the image. -/
def finish (s : Image) : Image :=
  { s with
    disk := update (setDinode sb s.disk ROOTINO { dinodeAt sb s.disk ROOTINO with
      size := UInt32.ofNat (rounded (dinodeAt sb s.disk ROOTINO).size.toNat) }) sb.bmapstart
        (bitmap s.freeblock)
    trace := s.trace ++ [.inode (sb.IBLOCK ROOTINO)] }

theorem finish_disk (s : Image) :
    (finish s).disk =
    update (setDinode sb s.disk ROOTINO
      { dinodeAt sb s.disk
        ROOTINO with size := UInt32.ofNat (rounded (dinodeAt sb s.disk ROOTINO).size.toNat) })
        sb.bmapstart (bitmap s.freeblock) := rfl

/-- The image before there is a file. -/
def blank : Image := ⟨update (fun _ _ => 0) 1 sbBlock, FSSIZE, 1, nmeta, []⟩

theorem made_blank : Made blank fun _ => [] := by
  have hmeta := nmeta_eq
  refine ⟨⟨rfl, le_rfl, fun c hc x => ?_, nofun⟩,
    by decide, by decide, fun i h1 hi => ?_, fun i h1 hi => ?_, fun i h1 hi => ?_,
    fun i j n m h1 hi => ?_, fun i h1 hi => ?_, fun i _ hi => ?_, rfl⟩
  · have hc' : nmeta ≤ c := hc
    show update (fun _ _ => 0) 1 sbBlock c x = 0
    rw [update_of_ne (by omega)]
  · exact absurd hi (Nat.not_lt.mpr h1)
  · exact absurd hi (Nat.not_lt.mpr h1)
  · exact absurd hi (Nat.not_lt.mpr h1)
  · exact absurd hi (Nat.not_lt.mpr h1)
  · exact absurd hi (Nat.not_lt.mpr h1)
  · have hrange := IBLOCK_range hi
    show Dinode.read (update (fun _ _ => 0) 1 sbBlock (sb.IBLOCK i)) _ = _
    rw [update_of_ne (by omega)]
    rfl

/-- mkfs can take the files. -/
def Fits (files : List HostFile) : Prop :=
  (∀ f ∈ files, f.Ok) ∧ nmeta + blocksOf (16 * (files.length + 2)) + fileBlocks files ≤ FSSIZE

theorem fixRoot_sat (h : Made s A) : Sat fixRoot s (fun _ s' => s' = { s with
    disk := setDinode sb s.disk ROOTINO { dinodeAt sb s.disk ROOTINO with
      size := UInt32.ofNat (rounded (dinodeAt sb s.disk ROOTINO).size.toNat) }
    trace := s.trace ++ [.inode (sb.IBLOCK ROOTINO)] }) E := by
  refine (rinode_sat h.room.len (by decide)).bind ?_
  rintro din s1 ⟨rfl, rfl⟩
  exact winode_sat h.room.len (by decide)

theorem balloc_sat (hlen : s.len = FSSIZE) (hfull : s.freeblock ≤ FSSIZE) :
    Sat (balloc s.freeblock) s (fun _ s' =>
      s' = { s with disk := update s.disk sb.bmapstart (bitmap s.freeblock) }) E := by
  have hfssize := fssize_eq
  refine .ite (fun _ => .modify ?_) fun hge => absurd (show s.freeblock < 4096 by omega) hge
  have hmax : max s.len (seek sb.bmapstart + 1) = s.len := by
    have : seek sb.bmapstart = 58 := by decide
    omega
  rw [hmax, show seek sb.bmapstart = sb.bmapstart by decide]

theorem main_sat (hfiles : files.length < 199) : Sat (main files) start
    (fun _ s' => Fits files ∧ ∃ s, Made s (contents files) ∧ s.freeinode = files.length + 2 ∧
      s' = finish s)
    fun _ => ¬Fits files := by
  have hfssize := fssize_eq
  have hmeta := nmeta_eq
  have hmaxfile := maxfile_bytes
  refine .modify_bind ((zeroSects_sat FSSIZE (by norm_num)).bind ?_)
  rintro _ s1 rfl
  refine .modify_bind ?_
  have hblank : ({ start with
      disk := update (fun c => if c < FSSIZE then fun _ => 0 else start.disk c) (seek 1) sbBlock
      freeblock := nmeta
      len := max (max start.len FSSIZE) (seek 1 + 1) } : Image) = blank := by
    have hdisk : (fun c => if c < FSSIZE then fun _ => 0 else start.disk c) = fun _ _ => 0 := by
      funext c
      exact ite_self _
    rw [hdisk]
    rfl
  simp only [hblank]
  rw [show T_DIR = typeOf blank.freeinode from rfl]
  refine (ialloc_sat made_blank (by decide) (by decide)).bind ?_
  rintro _ s1 ⟨rfl, hinode1, hblock1, hmade1⟩
  refine .ite (fun hne => absurd rfl hne) fun _ => ?_
  rw [show blank.freeinode = ROOTINO from rfl] at *
  have hone : ROOTINO < 2 := by decide
  have h0 : blocksOf 0 = 0 := by decide
  have h16 : blocksOf (0 + 16) = 1 := by decide
  have h16' : blocksOf 16 = 1 := by decide
  have h32' : blocksOf (16 + 16) = 1 := by decide
  have h32 : blocksOf 32 = 1 := by decide
  have hfb : blank.freeblock = nmeta := rfl
  have happ1 := iappend_sat (p := bytes ROOTINO dot) hmade1 le_rfl (hinode1.symm ▸ hone)
  rw [update_self, update_idem, length_dirent, List.nil_append, length_nil] at happ1
  refine .bind (happ1.mono (fun _ _ hq => hq) fun _ he => ?_) ?_
  · rw [Over, hblock1, hfb] at he
    omega
  rintro _ s2 ⟨hinode2, hblock2, hmade2⟩
  have happ2 := iappend_sat (p := bytes ROOTINO dotdot) hmade2 le_rfl
    (hinode2.trans hinode1 ▸ hone)
  rw [update_self, update_idem, length_dirent, length_dirent] at happ2
  refine .bind (happ2.mono (fun _ _ hq => hq) fun _ he => ?_) ?_
  · rw [Over] at he
    omega
  rintro _ s3 ⟨hinode3, hblock3, hmade3⟩
  have hi : s3.freeinode = 2 := hinode3.trans (hinode2.trans hinode1)
  have hb : s3.freeblock = 60 := by omega
  have hfit : Fit s3.freeblock (16 * s3.freeinode) files ↔ Fits files := by
    rw [Fit, Fits, hi, hb, show 16 * 2 = 32 from rfl, h32, show 32 + 16 * files.length =
      16 * (files.length + 2) by ring]
    exact and_congr_right fun _ => by omega
  refine .bind ((addFiles_sat files hmade3 ?_ (by omega) (by omega)).mono (fun _ _ hq => hq)
    fun _ he hf => he (hfit.mpr hf)) ?_
  · rw [update_self, length_append, length_dirent, length_dirent, hi]
  rintro _ s4 ⟨hinode4, hmade4, hfit4⟩
  rw [hi] at hmade4 hinode4
  refine (fixRoot_sat hmade4).bind ?_
  rintro _ s5 rfl
  refine .get_bind (Sat.post (balloc_sat ?_ ?_) ?_)
  · exact hmade4.room.len
  · exact hmade4.full
  rintro _ s6 rfl
  exact ⟨hfit.mp hfit4, s4, hmade4, by omega, rfl⟩

/-- mkfs takes what fits. -/
theorem main_run (hfiles : files.length < 199) (hfit : Fits files) :
    ∃ s, main files start = .ok ((), finish s) ∧ Made s (contents files) ∧ s.freeinode =
    files.length + 2 := by
  rcases hx : main files start with e | ⟨⟨⟩, s'⟩
  · exact absurd hfit ((main_sat hfiles).of_stop hx)
  · obtain ⟨-, s, hmade, hinode, rfl⟩ := (main_sat hfiles).of_ok hx
    exact ⟨s, rfl, hmade, hinode⟩

end

end Xv6.Mkfs
