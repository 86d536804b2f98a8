/-
# Freeing an inode

The last reference to an inode without links goes: `iput` frees its blocks and then the
inode. The blocks are freed in the order of the addresses: the direct ones, the entries of
the indirect block, and the indirect block itself. `Freeing` says where that stands: the
blocks at addresses from `m` on are in flight, those before are free, and no other block
or inode has changed.

Every block is marked used when its turn comes, so `bfree` does not panic.
-/
import Xv6.Fs.Sound

namespace Xv6

open Prog
open Function (update update_idem update_self update_of_ne)

section

variable (sb : Superblock)

/-- On the way from `D` to `D'` inode `i` has lost its blocks up to address `m`. -/
structure Freeing (D : Disk) (i m : ℕ) (D' : Disk) : Prop where
  own : Owned sb.nmeta sb.size (sites sb D (update (inoOf sb D) i Dinode.zero)) (usedAt sb D')
    { b | b ≠ 0 ∧ ∃ n, m ≤ n ∧ ptr D (inoOf sb D i) n = b }
  ino : ∀ j, j < sb.ninodes → inoOf sb D' j = inoOf sb D j
  data : ∀ b, sb.nmeta ≤ b → D' b = D b

/-- The same of a state: the copy in entry `k` has the addresses from `m` on. -/
structure Truncating (s : Fs) (k : Slot) (i m : ℕ) (s' : Fs) : Prop where
  disk : Freeing sb s.disk i m s'.disk
  frees : ∀ j, s'.frees j = s.frees j
  cache : ∃ d, s'.icache = update s.icache k { s.icache k with d := d } ∧
    ∀ n : Fin 8, m ≤ n → d.addrs n = (inoOf sb s.disk i).addrs n

end

section

variable {sb : Superblock} {c : Ctx} {H : Multiset Handle} {N : List Fact} {s s' s1 : Fs} {D D' : Disk}
  {i m b : ℕ} {k : Slot} {q : Option (ℕ × Int16)}

theorem ptr_of_ge (n : ℕ) (h : 136 ≤ n) (d : Dinode) : ptr D d n = 0 := by
  rw [ptr, dif_neg (by omega), if_neg (by omega), if_neg (by omega)]

/-! ### The disk -/

namespace Freeing

theorem start (h : DiskOk sb D) (hi : i < sb.ninodes) (ht : (inoOf sb D i).type ≠ 0) :
    Freeing sb D i 0 D := by
  have hX : ∀ x : ℕ × ℕ, x.1 = i → sites sb D (update (inoOf sb D) i Dinode.zero) x = 0 := by
    intro x hx
    rw [sites, if_neg]
    rintro ⟨-, h0⟩
    simp [hx, Dinode.zero] at h0
  refine ⟨?_, fun _ _ => rfl, fun _ _ => rfl⟩
  convert h.own.detach (X := fun x => x.1 = i) hX fun x hx => ?_ using 1
  · ext b
    simp only [Set.empty_union, Set.mem_ofPred_eq, and_congr_right_iff]
    intro _
    constructor
    · rintro ⟨n, -, hn⟩
      exact ⟨(i, n), rfl, by rw [sites_eq hi ht, hn]⟩
    · rintro ⟨⟨j, n⟩, rfl, hn⟩
      exact ⟨n, n.zero_le, by rw [← hn, sites_eq hi ht]⟩
  · rw [sites, sites, update_of_ne hx]

/-- There is nothing at the next addresses. -/
theorem skip (h : Freeing sb D i m D') {m' : ℕ} (hm : m ≤ m')
    (h0 : ∀ n, m ≤ n → n < m' → ptr D (inoOf sb D i) n = 0) : Freeing sb D i m' D' := by
  refine ⟨?_, h.ino, h.data⟩
  convert h.own using 1
  ext b
  simp only [Set.mem_ofPred_eq, and_congr_right_iff]
  intro hb
  constructor
  · rintro ⟨n, hn, rfl⟩
    exact ⟨n, by omega, rfl⟩
  · rintro ⟨n, hn, rfl⟩
    by_cases hlt : n < m'
    · exact absurd (h0 n hn hlt) hb
    · exact ⟨n, by omega, rfl⟩

/-- The block at the next address is marked free. -/
theorem bfree (h : Freeing sb D i m D') (h₀ : DiskOk sb D) (hi : i < sb.ninodes)
    (ht : (inoOf sb D i).type ≠ 0) (hb : ptr D (inoOf sb D i) m ≠ 0) :
    Freeing sb D i (m + 1) (setUsed sb D' (ptr D (inoOf sb D i) m) false) := by
  have hmem : ptr D (inoOf sb D i) m ∈ { b | b ≠ 0 ∧ ∃ n, m ≤ n ∧ ptr D (inoOf sb D i) n = b } :=
    ⟨hb, m, le_rfl, rfl⟩
  have hlt := (h.own.flight _ hmem).1.2
  refine ⟨?_, fun j hj => ?_, fun c hc => by rw [setUsed_data hlt hc, h.data c hc]⟩
  · convert h.own.release hmem fun c _ => usedAt_setUsed false using 1
    ext c
    simp only [Set.mem_ofPred_eq, Set.mem_sdiff, Set.mem_singleton_iff]
    constructor
    · rintro ⟨hc, n, hn, rfl⟩
      refine ⟨⟨hc, n, by omega, rfl⟩, fun heq => ?_⟩
      have := (ptr_inj h₀.own hi hi ht ht hc heq).2
      omega
    · rintro ⟨⟨hc, n, hn, rfl⟩, hne⟩
      have : n ≠ m := fun hnm => hne (by rw [hnm])
      exact ⟨hc, n, by omega, rfl⟩
  · rw [inoOf, dinodeAt_setUsed hj, ← inoOf, h.ino j hj]

/-- **The blocks are gone, and the inode is marked free.** -/
theorem finish (h : Freeing sb D i 136 D') (h₀ : DiskOk sb D) (hi : i < sb.ninodes) (d d' : Dinode)
    (ht : d'.type = 0) : Frame sb i D (setDinode sb (setDinode sb D' i d) i d') ∧
      DiskOk sb (setDinode sb (setDinode sb D' i d) i d') := by
  have hino : ∀ j, j < sb.ninodes → inoOf sb (setDinode sb (setDinode sb D' i d) i d') j =
      if j = i then d'.copyId else inoOf sb D j := fun j hj => by
    rw [inoOf_setDinode, inoOf_setDinode, h.ino j hj]
    split <;> rfl
  have hdata : ∀ b, sb.nmeta ≤ b → setDinode sb (setDinode sb D' i d) i d' b = D b := fun b hb => by
    rw [setDinode_data hi hb, setDinode_data hi hb, h.data b hb]
  have hframe : Frame sb i D (setDinode sb (setDinode sb D' i d) i d') :=
    ⟨fun j hj hji => by rw [hino j hj, if_neg hji], fun j hj _ htj => untouched_meta h₀.own hj htj hdata⟩
  have hself : (inoOf sb (setDinode sb (setDinode sb D' i d) i d') i).type = 0 := by
    rw [hino i hi, if_pos rfl]
    exact ht
  have hnone : { b | b ≠ 0 ∧ ∃ n, 136 ≤ n ∧ ptr D (inoOf sb D i) n = b } = ∅ :=
    Set.eq_empty_of_forall_notMem fun b ⟨hb, n, hn, hp⟩ => hb (hp ▸ ptr_of_ge n hn _)
  refine ⟨hframe, h₀.step hframe ?_ (fun h0 => absurd hself h0) fun hdir => ?_⟩
  · refine (hnone ▸ h.own).congr (fun x => sites_congr (fun j hj => ?_) (fun j hj htj n => ?_) x)
      fun b hb => ?_
    · by_cases hji : j = i
      · subst hji
        simp [hself, Dinode.zero]
      · rw [hino j hj, if_neg hji, update_of_ne hji]
    · have hji : j ≠ i := by
        rintro rfl
        simp [Dinode.zero] at htj
      rw [update_of_ne hji] at htj ⊢
      rw [hframe.ino j hj hji, (hframe.untouched j hj hji htj).ptr]
    · rw [usedAt_setDinode hi hb, usedAt_setDinode hi hb]
  · rw [hself] at hdir
    cases hdir

end Freeing

/-! ### The loops -/

section

variable (h₀ : DiskOk sb s.disk) (hi : i < sb.ninodes) (ht : (inoOf sb s.disk i).type ≠ 0)
include h₀ hi ht

theorem truncating_bfree (h : Truncating sb s k i m s1) (hb : ptr s.disk (inoOf sb s.disk i) m ≠ 0) :
    Sat (bfree sb (ptr s.disk (inoOf sb s.disk i) m)) s1 (fun _ => Truncating sb s k i (m + 1)) Fine := by
  obtain ⟨d, hcache, haddr⟩ := h.cache
  refine .get_bind (.ite (fun _ => ?_) fun hno => ?_)
  · refine (wrote_logWrite _ _).post fun _ s2 hw => ⟨?_, fun j => (hw.frees j).trans (h.frees j),
      d, hw.icache.trans hcache, fun n hn => haddr n (by omega)⟩
    rw [hw.disk]
    exact h.disk.bfree h₀ hi ht hb
  · exact absurd (h.disk.own.marked_of_mem ⟨hb, m, le_rfl, rfl⟩) hno

/-- The loop over direct addresses, from `m` on. -/
theorem truncating_truncDirect : ∀ (ns : List (Fin 8)) {m : ℕ} {s1 : Fs}, ns.map Fin.val =
    List.range' m ns.length → m + ns.length = 7 → Truncating sb s k i m s1 →
    Sat (truncDirect sb k ns) s1 (fun _ => Truncating sb s k i 7) Fine
  | [], m, s1, _, hm, h => by
    obtain rfl : m = 7 := by simpa using hm
    exact .pure h
  | n :: ns, m, s1, hns, hm, h => by
    simp only [List.map_cons, List.length_cons, List.range'_succ, List.cons.injEq] at hns hm
    obtain ⟨hn, hns⟩ := hns
    obtain ⟨d, hcache, haddr⟩ := h.cache
    have hd : (s1.icache k).d.addrs n = (inoOf sb s.disk i).addrs n := by
      rw [hcache, update_self]
      exact haddr n (by omega)
    have hptr : ptr s.disk (inoOf sb s.disk i) m = ((s1.icache k).d.addrs n).toNat := by
      rw [ptr, dif_pos (by omega), hd]
      congr 2
      exact Fin.ext hn.symm
    refine .get_bind (.ite (fun h0 => ?_) fun h0 => ?_)
    · refine truncating_truncDirect ns hns (by omega) ⟨h.disk.skip (by omega) fun n' h1 h2 => ?_,
        h.frees, d, hcache,
        fun n hn => haddr n (by omega)⟩
      obtain rfl : n' = m := by omega
      rw [hptr, h0]
      rfl
    · have hb : ptr s.disk (inoOf sb s.disk i) m ≠ 0 := by
        rw [hptr]
        exact fun h' => h0 (UInt32.toNat_inj.mp h')
      refine .bind (hptr ▸ truncating_bfree h₀ hi ht h hb) fun _ s2 h₂ => ?_
      obtain ⟨d2, hcache2, haddr2⟩ := h₂.cache
      refine .modify_bind (truncating_truncDirect ns hns (by omega) ⟨h₂.disk, h₂.frees,
        setAddr n 0 d2, ?_, fun n' hn' => ?_⟩)
      · simp only [Fs.setInode, hcache2, update_self, update_idem]
      · rw [setAddr_ne (fun hnn => by subst hnn; omega), haddr2 n' hn']

/-- The loop over the entries of the indirect block. -/
theorem truncating_bfreeAll : ∀ (as : List UInt32) {m : ℕ} {s1 : Fs},
    (∀ j (hj : j < as.length), as[j].toNat = ptr s.disk (inoOf sb s.disk i) (m + j)) →
    Truncating sb s k i m s1 →
    Sat (bfreeAll sb as) s1 (fun _ => Truncating sb s k i (m + as.length)) Fine
  | [], _, _, _, h => .pure h
  | a :: as, m, s1, has, h => by
    have ha : a.toNat = ptr s.disk (inoOf sb s.disk i) m := has 0 (by simp)
    have has' : ∀ j (hj : j < as.length), as[j].toNat = ptr s.disk (inoOf sb s.disk i) (m + 1 + j) := by
      intro j hj
      have := has (j + 1) (by simpa using hj)
      rwa [List.getElem_cons_succ, show m + (j + 1) = m + 1 + j by omega] at this
    rw [List.length_cons, show m + (as.length + 1) = m + 1 + as.length by omega]
    refine .ite (fun h0 => ?_) fun h0 => ?_
    · obtain ⟨d, hcache, haddr⟩ := h.cache
      refine truncating_bfreeAll as has' ⟨h.disk.skip (by omega) fun n' h1 h2 => ?_, h.frees, d, hcache,
        fun n hn => haddr n (by omega)⟩
      obtain rfl : n' = m := by omega
      rw [← ha, h0]
      rfl
    · have hb : ptr s.disk (inoOf sb s.disk i) m ≠ 0 := by
        rw [← ha]
        exact fun h' => h0 (UInt32.toNat_inj.mp h')
      exact .bind (ha ▸ truncating_bfree h₀ hi ht h hb) fun _ s2 h₂ => truncating_bfreeAll as has' h₂

theorem truncating_truncIndirect (h : Truncating sb s k i 7 s1) :
    Sat (truncIndirect sb k) s1 (fun _ => Truncating sb s k i 136) Fine := by
  obtain ⟨d, hcache, haddr⟩ := h.cache
  have hd : (s1.icache k).d.addrs 7 = (inoOf sb s.disk i).addrs 7 := by
    rw [hcache, update_self]
    exact haddr 7 le_rfl
  refine .get_bind (.ite (fun h0 => .pure ?_) fun h0 => .get_bind ?_)
  · rw [hd] at h0
    refine ⟨h.disk.skip (by omega) fun n h1 h2 => ?_, h.frees, d, hcache, fun n hn => by omega⟩
    rw [ptr, dif_neg (by omega), h0]
    split <;> simp
  · rw [hd] at h0 ⊢
    have h135 : ptr s.disk (inoOf sb s.disk i) 135 ≠ 0 := addrs_ne_zero.mp h0
    have hrange := h₀.own.range (i, 135)
    rw [sites_eq hi ht] at hrange
    have hblock : s1.disk ((inoOf sb s.disk i).addrs 7).toNat =
      s.disk ((inoOf sb s.disk i).addrs 7).toNat :=
      h.disk.data _ (hrange h135).1
    have hentries : ∀ j (hj : j < (entries (s1.disk ((inoOf sb s.disk i).addrs 7).toNat)).length),
        (entries (s1.disk ((inoOf sb s.disk i).addrs 7).toNat))[j].toNat =
          ptr s.disk (inoOf sb s.disk i) (7 + j) := by
      intro j hj
      have hj' : j < 128 := by simpa [entries] using hj
      rw [hblock, ptr, dif_neg (by omega), if_pos (by omega), if_neg h0]
      simp [entries]
    refine (truncating_bfreeAll h₀ hi ht _ hentries h).bind fun _ s2 h₂ => ?_
    rw [show 7 + (entries (s1.disk ((inoOf sb s.disk i).addrs 7).toNat)).length =
      135 by simp [entries]] at h₂
    have hlast := truncating_bfree h₀ hi ht h₂ h135
    rw [ptr_indirect] at hlast
    refine hlast.bind fun _ s3 h3 => .modify ?_
    obtain ⟨d3, hcache3, -⟩ := h3.cache
    refine ⟨h3.disk, h3.frees, setAddr 7 0 d3, ?_, fun n hn => by omega⟩
    simp only [Fs.setInode, hcache3, update_self, update_idem]

end

/-! ### The inode -/

/-- What `ifree` does, from the state in which it has noted the inode. -/
theorem freed_itrunc (h₀ : DiskOk sb s.disk) (hi : i < sb.ninodes) (ht : (inoOf sb s.disk i).type ≠ 0)
    (hd : (s.icache k).d = inoOf sb s.disk i) (hinum : (s.icache k).inum = i) :
    Sat (itrunc sb k) s (fun _ s' =>
      (∃ d D', Freeing sb s.disk i 136 D' ∧ s'.disk = setDinode sb D' i d) ∧
      (∀ j, s'.frees j = s.frees j) ∧ ∃ d, s'.icache = update s.icache k { s.icache k with d := d })
      Fine := by
  have hstart : Truncating sb s k i 0 s :=
    ⟨.start h₀ hi ht, fun _ => rfl, (s.icache k).d, (Function.update_eq_self k s.icache).symm,
      fun n _ => by rw [hd]⟩
  refine (truncating_truncDirect h₀ hi ht _ (by decide) (by decide) hstart).bind fun _ s1 h1 => ?_
  refine (truncating_truncIndirect h₀ hi ht h1).bind fun _ s2 h2 => .modify_bind ?_
  obtain ⟨d, hcache, -⟩ := h2.cache
  refine wrote_iupdate.post fun _ s3 hw => ⟨⟨Dinode.copyId { d with size := 0 }, s2.disk, h2.disk, ?_⟩,
    fun j => (hw.frees j).trans (h2.frees j), { d with size := 0 }, ?_⟩
  · rw [hw.disk]
    simp only [Fs.setInode_self, Fs.setInode_disk]
    rw [hcache, update_self, hinum]
  · rw [hw.icache]
    simp only [Fs.setInode, hcache, update_self, update_idem]

/-- What `ifree` does: the inode is free on disk, and its entry not valid. -/
structure Freed (sb : Superblock) (s : Fs) (k : Slot) (i : ℕ) (s' : Fs) : Prop where
  frame : Frame sb i s.disk s'.disk
  disk : DiskOk sb s'.disk
  frees : ∀ j, s'.frees j = s.frees j + if j = i then 1 else 0
  cache : ∃ d, s'.icache = update s.icache k { s.icache k with d := d, valid := false }

theorem freed_ifree (h₀ : DiskOk sb s.disk) (hi : i < sb.ninodes) (ht : (inoOf sb s.disk i).type ≠ 0)
    (hd : (s.icache k).d = inoOf sb s.disk i) (hinum : (s.icache k).inum = i) :
    Sat (ifree sb k) s (fun _ => Freed sb s k i) Fine := by
  refine .modify_bind (.bind (freed_itrunc h₀ hi ht hd hinum) fun _ s1 h1 => ?_)
  obtain ⟨⟨d, D', hfree, hdisk⟩, hfrees, d1, hcache⟩ := h1
  refine .modify_bind (wrote_iupdate.bind fun _ s2 hw => .modify ?_)
  have hdisk2 := hw.disk
  have hcache2 := hw.icache
  simp only [Fs.setInode, hdisk, hcache, update_self, update_idem, hinum] at hdisk2 hcache2
  obtain ⟨hframe, hok⟩ := hfree.finish h₀ hi d _ (show (Dinode.copyId { d1 with type := 0 }).type =
    0 from rfl)
  rw [← hdisk2] at hframe hok
  refine ⟨hframe, hok, fun j => ?_, { d1 with type := 0 }, ?_⟩
  · refine (hw.frees j).trans ((hfrees j).trans ?_)
    rw [Fs.frees, List.count_append, ← Fs.frees, hinum]
    by_cases hji : j = i
    · simp [hji]
    · simp [hji, Ne.symm hji]
  · simp only [Fs.setInode, hcache2, update_self, update_idem, hinum]

section

variable (h : Ok sb c ((k, q) ::ₘ H) N s)
include h

/-- The inode that was freed is not in use, and the lock on its entry is released. -/
theorem Ok.freed (hf : Freed sb s k i s1) (hinum : (s.icache k).inum = i)
    (href : (s.icache k).ref = 1) :
    Ok sb c ((k, none) ::ₘ H) N (s1.setInode k { s1.icache k with lock := false }) := by
  have hpos : 0 < (s.icache k).ref := by omega
  have hlast : held H k = 0 := by
    have := h.refs k
    rw [held_cons_self] at this
    omega
  have huniq : ∀ j, 0 < (s.icache j).ref → (s.icache j).inum = i → j = k := fun j hj hji =>
    h.uniq j k hj hpos (hji.trans hinum.symm)
  obtain ⟨d, hcache1⟩ := hf.cache
  have hcache : (s1.setInode k { s1.icache k with lock := false }).icache = update s.icache k
      { s.icache k with d := d, valid := false, lock := false } := by
    simp only [Fs.setInode, hcache1, update_self, update_idem]
  have hself := congrFun hcache k
  rw [update_self] at hself
  have hother : ∀ j, j ≠ k → (s1.setInode k { s1.icache k with lock := false }).icache j = s.icache j :=
    fun j hj => by rw [hcache, update_of_ne hj]
  refine h.forget.step (i := i) hf.frame hf.disk (fun j => ?_) (fun j hj => ?_) (fun j => ?_)
    (fun j hj hji hv => ?_)
    (fun j hji hl => ?_) (fun j ty hj => ?_) fun _ hl => ?_
  · exact (Nat.le_add_right _ _).trans (hf.frees j).ge
  · exact hother j fun hjk => hj (hjk ▸ hinum)
  · by_cases hjk : j = k
    · rw [hjk, hself]
      exact ⟨rfl, rfl, rfl⟩
    · rw [hother j hjk]
      exact ⟨rfl, rfl, rfl⟩
  · rw [huniq j hj hji, hself] at hv
    cases hv
  · by_cases hjk : j = k
    · rw [hjk, hself] at hl
      cases hl
    · rw [hother j hjk] at hl ⊢
      exact h.locks j hl
  · rcases Multiset.mem_cons.mp hj with hj | hj
    · cases (Prod.mk.inj hj).2
    · have hmem : (j, some (i, ty)) ∈ (k, q) ::ₘ H := Multiset.mem_cons_of_mem hj
      have hjk := huniq j (h.ref_pos hmem) (h.known _ hmem i ty rfl).1
      have := held_pos (hjk ▸ hj)
      omega
  · have h1 := hl.2
    have h2 := h.frees i
    rw [show (s1.setInode k _).frees i = s1.frees i from rfl, hf.frees, if_pos rfl] at h1
    omega

/-- **`iput` gives a pointer back, and frees the inode if it has to.** No other is affected. -/
theorem frame_iput : Sat (iput sb k) s
    (fun _ s' => Ok sb c H N s' ∧ Frame sb (s.icache k).inum s.disk s'.disk) Fine := by
  have hpos := h.ref_pos (Multiset.mem_cons_self (k, q) H)
  refine run_acquiresleep.bind fun _ s1 h1 => .get_bind ?_
  obtain ⟨hl, rfl⟩ := h1
  refine .bind (Q := fun _ s2 => Ok sb c ((k, none) ::ₘ H) N
    (s2.setInode k { s2.icache k with lock := false }) ∧
      Frame sb (s.icache k).inum s.disk s2.disk) (.when (fun hc => ?_) fun _ => ?_)
    fun _ s2 ⟨h2, hf⟩ => .modify_bind ((ok_unref h2 (by simp)).and (.modify hf))
  · simp only [Fs.setInode_self] at hc
    have h1 := ok_setLock (k := k) h true fun _ => ⟨hpos, hc.1⟩
    obtain ⟨-, hi, hcopy⟩ := h.slot k hpos
    obtain ⟨hd, ht⟩ := hcopy hc.1
    refine (freed_ifree h1.disk hi (hd ▸ ht) ?_ ?_).post fun _ s2 hf => ⟨h1.freed hf ?_ ?_, hf.frame⟩
    · rw [Fs.setInode_self]
      exact hd
    · rw [Fs.setInode_self]
    · rw [Fs.setInode_self]
    · rw [Fs.setInode_self]
      exact hc.2.2
  · have h1 := ok_setLock (k := k) h.forget false fun hb => by cases hb
    rw [Fs.setInode_setInode, Fs.setInode_self]
    exact ⟨h1, fun _ _ _ => rfl, fun _ _ _ _ => ⟨fun _ => rfl, fun _ _ _ => rfl⟩⟩

theorem ok_iput : Sat (iput sb k) s (fun _ => Ok sb c H N) Fine :=
  (frame_iput h).post fun _ _ h1 => h1.1

theorem frame_iunlockput : Sat (iunlockput sb k) s
    (fun _ s' => Ok sb c H N s' ∧ Frame sb (s.icache k).inum s.disk s'.disk) Fine := by
  have hkeep :
    Sat (iunlock k) s (fun _ s' => s'.disk = s.disk ∧ (s'.icache k).inum = (s.icache k).inum)
      fun _ => True :=
    .get_bind (.ite (fun _ => .stop trivial) fun _ => .modify ⟨rfl, by simp⟩)
  refine ((ok_iunlock h).and hkeep).bind fun _ s1 ⟨h1, hd, hi⟩ => ?_
  rw [← hd, ← hi]
  exact frame_iput h1

theorem ok_iunlockput : Sat (iunlockput sb k) s (fun _ => Ok sb c H N) Fine :=
  (frame_iunlockput h).post fun _ _ h1 => h1.1

end

/-- `iput` that does not free. -/
theorem disk_iunlockput (hno : ¬((s.icache k).valid = true ∧ (s.icache k).d.nlink = 0 ∧
    (s.icache k).ref = 1)) : Sat (iunlockput sb k) s (fun _ s' => s'.disk = s.disk) fun _ => True := by
  refine .bind (Q := fun _ s' => ∃ b, s' = s.setInode k { s.icache k with lock := b }) ?_ ?_
  · exact .get_bind (.ite (fun _ => .stop trivial) fun _ => .modify ⟨false, rfl⟩)
  · rintro _ _ ⟨b, rfl⟩
    refine .bind (Q := fun _ s' => s' = s.setInode k { s.icache k with lock := true }) ?_ ?_
    · refine .get_bind (.ite (fun _ => .stop trivial) fun _ => .modify ?_)
      rw [Fs.setInode_self, Fs.setInode_setInode]
    · rintro _ _ rfl
      refine .get_bind (.bind (Q := fun _ s' => s'.disk = s.disk) (.when (fun hc => ?_) fun _ =>
        rfl) fun _ _ h1 =>
        .modify_bind (.modify h1))
      rw [Fs.setInode_self] at hc
      exact absurd hc hno

end

end Xv6
