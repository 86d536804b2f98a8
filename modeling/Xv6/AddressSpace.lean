/-
# Address spaces

setupkvm of vm.c makes a page directory with the kernel's half of an address space in it, allocuvm
and deallocuvm (Vm.lean) change the user's half, and freevm gives all of it back.

`Frames` says which frames are in somebody's hands and which are free. An `AddressSpace` is a page
directory with what is in the user's half (`Space`) and with the page tables of the kernel's half,
none of whose pages are the user's; the frames in other hands are the `H` of it. setupkvm takes free
frames for an address space, freevm makes them free again, and the frames in `H` have kept their
contents in the meantime.
-/
import Mathlib.Data.Set.Function
import Xv6.Copyout
import Mathlib.Order.CompletePartialOrder

namespace Xv6.Vm

open Prog
open Function (update update_of_ne)

/-! ### vm.c -/

/-- Start of extended memory. -/
def EXTMEM : ℕ := 0x100000

/-- Top of physical memory. -/
def PHYSTOP : ℕ := 0xE000000

/-- Other devices are at high addresses. -/
def DEVSPACE : ℕ := 0xFE000000

/-- Address where the kernel is linked. -/
def KERNLINK : ℕ := KERNBASE + EXTMEM

/-- Where the linker has put the kernel's data: on a page of its own, after the text. -/
structure Linkage where
  data : ℕ
  aligned : data % 4096 = 0
  above : KERNLINK < data
  below : data < KERNBASE + PHYSTOP

/-- An entry of `kmap`. -/
structure Kmap where
  virt : ℕ
  physStart : UInt32
  physEnd : UInt32
  perm : UInt32

/-- `k->phys_end - k->phys_start` -/
def Kmap.size (k : Kmap) : ℕ := (k.physEnd - k.physStart).toNat

/-- The kernel's mappings, which are present in every process's page table. -/
def kmap (ld : Linkage) : List Kmap :=
  [⟨KERNBASE, 0, UInt32.ofNat EXTMEM, PTE_W⟩,
   ⟨KERNLINK, UInt32.ofNat (KERNLINK - KERNBASE), UInt32.ofNat (ld.data - KERNBASE), 0⟩,
   ⟨ld.data, UInt32.ofNat (ld.data - KERNBASE), UInt32.ofNat PHYSTOP, PTE_W⟩,
   ⟨DEVSPACE, UInt32.ofNat DEVSPACE, 0, PTE_W⟩]

section

variable (lo pgdir : ℕ)

/-- The loop of `freevm` over the page directory, with `n` entries to go. -/
def freeTables : ℕ → ℕ → VmM Unit
  | 0, _ => pure ()
  | n + 1, i => do
    let m ← get
    when (present (m.word pgdir i)) (kfree lo (frameOf (m.word pgdir i)))
    freeTables n (i + 1)

/-- Free a page table and all the physical memory pages in the user part. -/
def freevm : VmM Unit :=
  if pgdir = 0 then stop "freevm: no pgdir"
  else do
    let _ ← deallocuvm lo pgdir KERNBASE 0
    freeTables lo pgdir 1024 0
    kfree lo pgdir

/-- The loop of `setupkvm`. -/
def mapKernel : List Kmap → VmM (Option ℕ)
  | [] => pure (some pgdir)
  | k :: rest => do
    let mapped ← mappages pgdir k.virt k.size (k.physStart.toNat / 4096) k.perm
    if mapped then mapKernel rest
    else do
      freevm lo pgdir
      pure none

/-- Set up kernel part of a page table. -/
def setupkvm (ld : Linkage) : VmM (Option ℕ) := do
  let r ← kalloc
  match r with
  | none => pure none
  | some pgdir => do
    memset pgdir 0
    if DEVSPACE < KERNBASE + PHYSTOP then stop "PHYSTOP too high"
    else mapKernel lo pgdir (kmap ld)

/-- Clear PTE_U on a page. -/
def clearpteu (uva : ℕ) : VmM Unit := do
  let pte ← walkpgdir pgdir uva false
  match pte with
  | none => stop "clearpteu"
  | some (pgtab, i) => do
    let m ← get
    setWord pgtab i (m.word pgtab i &&& ~~~PTE_U)

end

/-! ### Frames in hand -/

/-- The frames of `H` are in somebody's hands, and the others from `lo` on are free. -/
structure Frames (lo : ℕ) (H : Set ℕ) (m : Mem) : Prop where
  pos : 0 < lo
  nodup : m.freelist.Nodup
  hand : ∀ f ∈ H, lo ≤ f ∧ f < NFRAME
  free : ∀ f, f ∈ m.freelist ↔ lo ≤ f ∧ f < NFRAME ∧ f ∉ H

/-- The frames of the page directory, its user page tables and its user pages. -/
def siteSet (m : Mem) (pgdir : ℕ) : Set ℕ := { f | f ≠ 0 ∧ ∃ x, sites m pgdir x = f }

section

variable {lo pgdir d e f t v u : ℕ} {F H H' K K' : Set ℕ} {m m' m'' : Mem} {w : UInt32}
  {perm : UInt32}

/-- Frames are as free as the hands leave them. -/
theorem Frames.same_free (h : Frames lo H m) (h' : Frames lo H m') (f : ℕ) :
    f ∈ m'.freelist ↔ f ∈ m.freelist := by
  rw [h.free, h'.free]

theorem sat_kalloc_frames (h : Frames lo H m) : Sat kalloc m (fun r m' => match r with
    | none => m' = m ∧ m.freelist = []
    | some f =>
      Frames lo (insert f H) m' ∧ f ∉ H ∧ m'.word = m.word ∧ m.freelist.length =
      m'.freelist.length + 1)
    fun _ => False := by
  refine .get_bind ?_
  split
  · rename_i hnil
    exact .pure ⟨rfl, hnil⟩
  · rename_i f rest hcons
    have hnd := h.nodup
    rw [hcons, List.nodup_cons] at hnd
    have hfree : ∀ g, g ∈ f :: rest ↔ lo ≤ g ∧ g < NFRAME ∧ g ∉ H := hcons ▸ h.free
    obtain ⟨hlo, hhi, hf⟩ := (hfree f).mp List.mem_cons_self
    refine .modify_bind (.pure ⟨⟨h.pos, hnd.2, fun g hg => ?_, fun g => ?_⟩, hf, rfl, by rw [hcons]; rfl⟩)
    · rcases Set.mem_insert_iff.mp hg with rfl | hg
      · exact ⟨hlo, hhi⟩
      · exact h.hand g hg
    · have hg := hfree g
      rw [List.mem_cons] at hg
      rw [Set.mem_insert_iff, not_or]
      constructor
      · intro hmem
        obtain ⟨h1, h2, h3⟩ := hg.mp (.inr hmem)
        exact ⟨h1, h2, fun heq => hnd.1 (heq ▸ hmem), h3⟩
      · rintro ⟨h1, h2, hne, h3⟩
        exact (hg.mpr ⟨h1, h2, h3⟩).resolve_left hne

theorem sat_kfree_frames (h : Frames lo H m) (hf : f ∈ H) : Sat (kfree lo f) m
    (fun _ m' => Frames lo (H \ {f}) m' ∧ ∀ g, g ≠ f → m'.word g = m.word g) fun _ => False := by
  obtain ⟨hlo, hhi⟩ := h.hand f hf
  unfold Sat
  rw [kfree_run hlo hhi]
  refine ⟨⟨h.pos, List.nodup_cons.mpr ⟨fun hmem => ((h.free f).mp hmem).2.2 hf, h.nodup⟩,
    fun g hg => h.hand g hg.1,
    fun g => ?_⟩, fun g hg => update_of_ne hg ..⟩
  have hg := h.free g
  rw [show (freed m f).freelist = f :: m.freelist from rfl, List.mem_cons, hg, Set.mem_sdiff,
    Set.mem_singleton_iff]
  constructor
  · rintro (rfl | ⟨h1, h2, h3⟩)
    · exact ⟨hlo, hhi, fun hno => hno.2 rfl⟩
    · exact ⟨h1, h2, fun hno => h3 hno.1⟩
  · rintro ⟨h1, h2, h3⟩
    by_cases hgf : g = f
    · exact .inl hgf
    · exact .inr ⟨h1, h2, fun hgH => h3 ⟨hgH, hgf⟩⟩

theorem Frames.write (h : Frames lo H m) (p : ℕ → UInt32) :
    Frames lo H { m with word := update m.word f p } :=
  ⟨h.pos, h.nodup, h.hand, h.free⟩

theorem Space.frames (h : Space lo pgdir F m) : Frames lo (siteSet m pgdir ∪ F) m := by
  refine ⟨h.own.pos, h.nodup, fun f hf => ?_, fun f => ⟨fun hf => ?_, fun ⟨hlo, hhi, hno⟩ => ?_⟩⟩
  · rcases hf with ⟨h0, x, rfl⟩ | hf
    · exact h.own.range x h0
    · exact (h.own.flight f hf).1
  · obtain ⟨hlo, hsite, hF⟩ := h.free hf
    refine ⟨hlo, h.range f hf, ?_⟩
    rintro (⟨-, x, hx⟩ | hf')
    · exact hsite x hx
    · exact hF hf'
  · by_contra hfree
    have hpos := h.own.pos
    rcases (h.own.marked f hlo hhi).mp (by simpa using hfree) with ⟨x, hx⟩ | hF
    · exact hno (.inl ⟨by omega, x, hx⟩)
    · exact hno (.inr hF)

/-- The user's half of an address space among the frames in hand. -/
theorem Space.of_frames (hf : Frames lo (siteSet m pgdir ∪ F) m) (hd : Disjoint (siteSet m pgdir) F)
    (hinj : ∀ x y, sites m pgdir x ≠ 0 → sites m pgdir x = sites m pgdir y → x = y) (hdir : pgdir ≠ 0)
    (htab : ∀ d, d < 512 → present (m.word pgdir d) = true → frameOf (m.word pgdir d) ≠ 0)
    (hpage : ∀ v, v < NPAGE → present (pte m pgdir v) = true → frameOf (pte m pgdir v) ≠ 0) :
    Space lo pgdir F m := by
  refine ⟨⟨hf.pos, fun b hb _ => ?_, fun x hx => hf.hand _ (.inl ⟨hx, x, rfl⟩), hinj,
    fun b hlo hhi => ?_, fun b hb => ?_⟩,
    hf.nodup, fun f hmem => ((hf.free f).mp hmem).2.1, hdir, htab, hpage⟩
  · rw [decide_eq_true_iff, hf.free]
    omega
  · have hpos := hf.pos
    rw [decide_eq_true_iff, hf.free]
    constructor
    · intro hno
      have hmem : b ∈ siteSet m pgdir ∪ F := by
        by_contra hb
        exact hno ⟨hlo, hhi, hb⟩
      rcases hmem with ⟨-, x, hx⟩ | hb
      · exact .inl ⟨x, hx⟩
      · exact .inr hb
    · rintro (⟨x, hx⟩ | hb) ⟨-, -, hno⟩
      · exact hno (.inl ⟨by omega, x, hx⟩)
      · exact hno (.inr hb)
  · have hpos := hf.pos
    have hrange := hf.hand b (.inr hb)
    exact ⟨hrange, fun x hx => Set.disjoint_left.mp hd ⟨by omega, x, hx⟩ hb⟩

/-! ### Address spaces -/

/-- The page directory, with its user half, the page tables `K` of the kernel's half, and `H` in
other hands. -/
structure AddressSpace (lo pgdir : ℕ) (K H : Set ℕ) (m : Mem) : Prop where
  space : Space lo pgdir (K ∪ H) m
  apart : Disjoint K H
  tables : Set.BijOn (fun d => frameOf (m.word pgdir d)) { d | 512 ≤ d ∧ d < 1024 ∧
    present (m.word pgdir d) = true } K
  kernel : ∀ v, NPAGE ≤ v → v < 2 ^ 20 → user (pte m pgdir v) = false

namespace AddressSpace

section

variable (h : AddressSpace lo pgdir K H m) (hd : d < 1024) (hp : present (m.word pgdir d) = true)
include h hd hp

/-- A page table is one of the user's half, or in `K`. -/
theorem table_cases :
    (d < 512 ∧ sites m pgdir (.table d) = frameOf (m.word pgdir d)) ∨
    (512 ≤ d ∧ frameOf (m.word pgdir d) ∈ K) := by
  rcases Nat.lt_or_ge d 512 with hlt | hge
  · exact .inl ⟨hlt, site_table hlt hp⟩
  · exact .inr ⟨hge, h.tables.mapsTo ⟨hge, hd, hp⟩⟩

theorem dir_ne_table : pgdir ≠ frameOf (m.word pgdir d) := by
  rcases h.table_cases hd hp with ⟨hlt, -⟩ | ⟨-, hK⟩
  · exact h.space.dir_ne_table hlt hp
  · exact (h.space.own.flight _ (.inl hK)).2 .dir

theorem table_inj (he : e < 1024) (hp' : present (m.word pgdir e) = true)
    (heq : frameOf (m.word pgdir d) = frameOf (m.word pgdir e)) : d = e := by
  rcases h.table_cases hd hp with ⟨hlt, hs⟩ | ⟨hge, hK⟩ <;>
    rcases h.table_cases he hp' with ⟨hlt', hs'⟩ | ⟨hge', hK'⟩
  · exact h.space.table_inj hlt hp hlt' hp' heq
  · exact absurd (hs.trans heq) ((h.space.own.flight _ (.inl hK')).2 _)
  · exact absurd (hs'.trans heq.symm) ((h.space.own.flight _ (.inl hK)).2 _)
  · exact h.tables.injOn ⟨hge, hd, hp⟩ ⟨hge', he, hp'⟩ heq

theorem table_notMem : frameOf (m.word pgdir d) ∉ H := fun hmem => by
  rcases h.table_cases hd hp with ⟨-, hs⟩ | ⟨-, hK⟩
  · exact (h.space.own.flight _ (.inr hmem)).2 _ hs
  · exact Set.disjoint_left.mp h.apart hK hmem

end

section

variable (h : AddressSpace lo pgdir K H m)
include h

theorem dir_notMem : pgdir ∉ H := fun hmem =>
  (h.space.own.flight _ (.inr hmem)).2 .dir rfl

/-- A page of the user's half. -/
theorem page_site (hv : v < NPAGE)
    (hp : present (pte m pgdir v) = true) : sites m pgdir (.page v) = frameOf (pte m pgdir v) ∧
    frameOf (pte m pgdir v) ≠ 0 :=
  ⟨site_page hv hp, h.space.page v hv hp⟩

theorem frames : Frames lo (siteSet m pgdir ∪ (K ∪ H)) m :=
  h.space.frames

/-- The user's half has changed. -/
theorem of_upper (hs : Space lo pgdir (K ∪ H) m')
    (hup : Upper pgdir m m') (hK : ∀ f ∈ K, m'.word f = m.word f) : AddressSpace lo pgdir K H m' := by
  have hset : { d | 512 ≤ d ∧ d < 1024 ∧ present (m'.word pgdir d) = true } =
      { d | 512 ≤ d ∧ d < 1024 ∧ present (m.word pgdir d) = true } := by
    ext d
    simp only [Set.mem_ofPred_eq]
    constructor
    · rintro ⟨h1, h2, h3⟩
      exact ⟨h1, h2, by rwa [hup d h1] at h3⟩
    · rintro ⟨h1, h2, h3⟩
      exact ⟨h1, h2, by rwa [hup d h1]⟩
  refine ⟨hs, h.apart, ?_, fun v h1 h2 => ?_⟩
  · rw [hset]
    exact h.tables.congr fun d hd => by simp only [hup d hd.1]
  · have hge : 512 ≤ v / 1024 := by
      have : 0x80000 ≤ v := h1
      omega
    rw [pte_congr (hup _ hge) fun hp => by rw [hK _ (h.tables.mapsTo ⟨hge, by omega, hp⟩)]]
    exact h.kernel v h1 h2

end

end AddressSpace

/-! ### freevm -/

/-- The page tables from entry `i` of a page directory on. -/
def tablesFrom (dir : ℕ → UInt32) (i : ℕ) : Set ℕ :=
  { f | ∃ d, i ≤ d ∧ d < 1024 ∧ present (dir d) = true ∧ frameOf (dir d) = f }

section

variable {dir : ℕ → UInt32} (hH : pgdir ∉ H) (hne : ∀ d, d < 1024 → present (dir d) = true →
  pgdir ≠ frameOf (dir d)) (hinj : ∀ d e, d < 1024 → present (dir d) = true → e < 1024 →
    present (dir e) = true → frameOf (dir d) = frameOf (dir e) → d = e)
  (hout : ∀ d, d < 1024 → present (dir d) = true → frameOf (dir d) ∉ H)

include hH hne hinj hout

theorem sat_freeTables (n i : ℕ) (m : Mem) (hi : i + n = 1024) (hdir : m.word pgdir = dir)
    (hf : Frames lo (insert pgdir (tablesFrom dir i ∪ H)) m) : Sat (freeTables lo pgdir n i) m
      (fun _ m' => Frames lo (insert pgdir H) m' ∧ ∀ f ∈ H, m'.word f = m.word f) fun _ => False := by
  induction n generalizing i m with
  | zero =>
    have hnone : tablesFrom dir i = ∅ :=
      Set.eq_empty_iff_forall_notMem.mpr fun f ⟨d, h1, h2, _⟩ => by omega
    rw [hnone, Set.empty_union] at hf
    exact .pure ⟨hf, fun _ _ => rfl⟩
  | succ n ih =>
    unfold freeTables
    refine .get_bind ?_
    rw [hdir]
    have hi' : i < 1024 := by omega
    by_cases hp : present (dir i) = true
    · have hmem : frameOf (dir i) ∈ insert pgdir (tablesFrom dir i ∪ H) :=
        .inr (.inl ⟨i, le_rfl, hi', hp, rfl⟩)
      have hset : insert pgdir (tablesFrom dir i ∪ H) \ {frameOf (dir i)} = insert pgdir
        (tablesFrom dir (i + 1) ∪ H) := by
        ext f
        simp only [Set.mem_sdiff, Set.mem_insert_iff, Set.mem_union, Set.mem_singleton_iff]
        constructor
        · rintro ⟨rfl | ⟨d, h1, h2, h3, rfl⟩ | hf, hfi⟩
          · exact .inl rfl
          · have hdi : d ≠ i := fun heq => hfi (by rw [heq])
            exact .inr (.inl ⟨d, by omega, h2, h3, rfl⟩)
          · exact .inr (.inr hf)
        · rintro (rfl | ⟨d, h1, h2, h3, rfl⟩ | hf)
          · exact ⟨.inl rfl, hne i hi' hp⟩
          · refine ⟨.inr (.inl ⟨d, by omega, h2, h3, rfl⟩), fun heq => ?_⟩
            have := hinj d i h2 h3 hi' hp heq
            omega
          · exact ⟨.inr (.inr hf), fun heq => hout i hi' hp (heq ▸ hf)⟩
      unfold Prog.when
      rw [if_pos hp]
      refine (sat_kfree_frames hf hmem).bind ?_
      rintro _ m1 ⟨hf1, hw1⟩
      rw [hset] at hf1
      refine (ih (i + 1) m1 (by omega) (by rw [hw1 _ (hne i hi' hp), hdir]) hf1).post ?_
      rintro _ m2 ⟨hf2, hw2⟩
      refine ⟨hf2, fun f hf => ?_⟩
      rw [hw2 f hf, hw1 f fun heq => hout i hi' hp (heq ▸ hf)]
    · have hset : tablesFrom dir i = tablesFrom dir (i + 1) := by
        ext f
        constructor
        · rintro ⟨d, h1, h2, h3, rfl⟩
          have hdi : d ≠ i := fun heq => hp (heq ▸ h3)
          exact ⟨d, by omega, h2, h3, rfl⟩
        · rintro ⟨d, h1, h2, h3, rfl⟩
          exact ⟨d, by omega, h2, h3, rfl⟩
      unfold Prog.when
      rw [if_neg hp]
      exact ih (i + 1) m (by omega) hdir (hset ▸ hf)

end

/-- Without pages, an address space is its page directory and page tables. -/
theorem AddressSpace.bare (h : AddressSpace lo pgdir K H m)
    (habs : ∀ v, v < NPAGE → present (pte m pgdir v) = false) :
    siteSet m pgdir ∪ (K ∪ H) = insert pgdir (tablesFrom (m.word pgdir) 0 ∪ H) := by
  ext f
  constructor
  · rintro (⟨h0, x, rfl⟩ | hK | hH)
    · cases x with
      | dir => exact .inl rfl
      | table d =>
        have hd : d < 512 ∧ present (m.word pgdir d) = true := by
          by_contra hd
          exact h0 (if_neg hd)
        exact .inr (.inl ⟨d, Nat.zero_le _, by omega, hd.2, (site_table hd.1 hd.2).symm⟩)
      | page v =>
        refine absurd (if_neg fun hv => ?_) h0
        rw [habs v hv.1] at hv
        cases hv.2
    · obtain ⟨d, ⟨-, hd, hp⟩, rfl⟩ := h.tables.surjOn hK
      exact .inr (.inl ⟨d, Nat.zero_le _, hd, hp, rfl⟩)
    · exact .inr (.inr hH)
  · rintro (rfl | ⟨d, -, hd, hp, rfl⟩ | hH)
    · exact .inl ⟨h.space.dir, .dir, rfl⟩
    · rcases h.table_cases hd hp with ⟨hlt, hs⟩ | ⟨-, hK⟩
      · exact .inl ⟨h.space.table d hlt hp, _, hs⟩
      · exact .inr (.inl hK)
    · exact .inr (.inr hH)

/-- freevm gives back all frames of an address space. -/
theorem sat_freevm (h : AddressSpace lo pgdir K H m) : Sat (freevm lo pgdir) m
    (fun _ m' => Frames lo H m' ∧ ∀ f ∈ H, m'.word f = m.word f) fun _ => False := by
  unfold freevm
  rw [if_neg h.space.dir]
  refine (sat_deallocuvm le_rfl (by decide) h.space).bind ?_
  rintro _ m1 ⟨-, hs1, hun⟩
  have h1 : AddressSpace lo pgdir K H m1 := h.of_upper hs1 (.of_dir hun.dir) fun f hf =>
    hun.keeps.other f (.inl hf)
  have habs : ∀ v, v < NPAGE → present (pte m1 pgdir v) = false := fun v hv => by
    have hv' : v < 0x80000 := hv
    refine hun.absent v hv ⟨Nat.zero_le _, ?_⟩
    show 4096 * v < 0x80000000
    omega
  have hf1 := h1.frames
  rw [h1.bare habs] at hf1
  refine (sat_freeTables h1.dir_notMem (fun d => h1.dir_ne_table) (fun d e => h1.table_inj)
    (fun d => h1.table_notMem)
    1024 0 m1 rfl rfl hf1).bind ?_
  rintro _ m2 ⟨hf2, hw2⟩
  refine (sat_kfree_frames hf2 (Set.mem_insert ..)).post ?_
  rintro _ m3 ⟨hf3, hw3⟩
  rw [Set.insert_sdiff_of_mem _ (Set.mem_singleton _), Set.sdiff_singleton_eq_self h.dir_notMem] at hf3
  refine ⟨hf3, fun f hf => ?_⟩
  rw [hw3 f fun heq => h.dir_notMem (heq ▸ hf), hw2 f hf, hun.keeps.other f (.inr hf)]

/-! ### Entries of the kernel's half -/

theorem and_pteU_eq_zero {w : UInt32} : w &&& PTE_U = 0 ↔ w.toNat.testBit 2 = false := by
  rw [UInt32.ext_iff, UInt32.toNat_and]
  show w.toNat &&& 2 ^ 2 = 0 ↔ _
  constructor
  · intro h
    have := congrArg (Nat.testBit · 2) h
    simp only [Nat.testBit_and, Nat.testBit_two_pow, Nat.zero_testBit] at this
    simpa using this
  · intro h
    refine Nat.eq_of_testBit_eq fun i => ?_
    rw [Nat.testBit_and, Nat.testBit_two_pow, Nat.zero_testBit]
    by_cases hi : i = 2
    · rw [hi, h, Bool.false_and]
    · rw [decide_eq_false (Ne.symm hi), Bool.and_false]

/-- An entry without `PTE_U` is not the user's. -/
theorem user_entry (hperm : perm &&& PTE_U = 0) (pa : ℕ) : user (entry pa perm) = false := by
  have hpa : (UInt32.ofNat (4096 * pa)).toNat.testBit 2 = false := by
    rw [UInt32.toNat_ofNat', show 4096 * pa % 2 ^ 32 = 2 ^ 12 * (pa % 2 ^ 20)
      by omega, Nat.testBit_two_pow_mul]
    rfl
  have hbit : entry pa perm &&& PTE_U = 0 := by
    unfold entry
    rw [and_pteU_eq_zero, UInt32.toNat_or, UInt32.toNat_or, Nat.testBit_or, Nat.testBit_or, hpa,
      and_pteU_eq_zero.mp hperm]
    rfl
  unfold user
  simp [hbit]
theorem PDX_any (hv : v < 2 ^ 20) : PDX (4096 * v) = v / 1024 := by
  unfold PDX
  omega

theorem Space.setUpper (h : Space lo pgdir F m) (hd : 512 ≤ d) :
    Space lo pgdir F (setPde m pgdir d w) := by
  have hdir : ∀ e, e < 512 → (setPde m pgdir d w).word pgdir e = m.word pgdir e :=
    fun e he => setPde_ne (by omega)
  have hpte : ∀ v, v < NPAGE → pte (setPde m pgdir d w) pgdir v = pte m pgdir v := fun v hv =>
    pte_congr (hdir _ (div_lt hv)) fun hp =>
      congrFun (update_of_ne (h.dir_ne_table (div_lt hv) hp).symm ..) _
  refine ⟨by rw [sites_congr hdir hpte]; exact h.own, h.nodup, h.range, h.dir, fun e he => ?_, fun v hv => ?_⟩
  · rw [hdir e he]
    exact h.table e he
  · rw [hpte v hv]
    exact h.page v hv

namespace AddressSpace

section

variable (h : AddressSpace lo pgdir K H m) (hv : v < 2 ^ 20)
    (htab : present (m.word pgdir (v / 1024)) = true)

include h hv htab

theorem setPte_dir : (setPte m pgdir v w).word pgdir = m.word pgdir :=
  setPte_frame (h.dir_ne_table (by omega) htab)

theorem pte_setPte (hu : u < 2 ^ 20) :
    pte (setPte m pgdir v w) pgdir u = if u = v then w else pte m pgdir u :=
  pte_setPte_of (h.setPte_dir hv htab) htab fun hp => h.table_inj (by omega) hp (by omega) htab

theorem setPte_other : ∀ f ∈ H, (setPte m pgdir v w).word f = m.word f := fun _ hf =>
  setPte_frame fun heq => h.table_notMem (by omega) htab (heq ▸ hf)

/-- A page of the kernel's half is mapped. -/
theorem setKernel (hge : NPAGE ≤ v) (hw : user w = false) :
    AddressSpace lo pgdir K H (setPte m pgdir v w) := by
  have hge' : 0x80000 ≤ v := hge
  have hK : frameOf (m.word pgdir (v / 1024)) ∈ K := h.tables.mapsTo ⟨by omega, by omega, htab⟩
  refine ⟨(h.space.write (.inl hK) _).1, h.apart, ?_, fun u h1 h2 => ?_⟩
  · rw [h.setPte_dir hv htab]
    exact h.tables
  · rw [h.pte_setPte hv htab h2]
    split
    · exact hw
    · exact h.kernel u h1 h2

end

end AddressSpace

/-- The page tables of the kernel's half. -/
def kernelTables (m : Mem) (pgdir : ℕ) : Finset ℕ := (Finset.Ico 512 1024).filter fun d =>
    present (m.word pgdir d) = true

theorem card_kernelTables (m : Mem) (pgdir : ℕ) : (kernelTables m pgdir).card ≤ 512 :=
  (Finset.card_filter_le _ _).trans (by simp)

/-- Between `m` and `m'` free frames have become page tables of the kernel's half. -/
structure Building (lo pgdir : ℕ) (H : Set ℕ) (m m' : Mem) : Prop where
  space : ∃ K, AddressSpace lo pgdir K H m'
  other : ∀ f ∈ H, m'.word f = m.word f
  low : ∀ u, u < NPAGE → pte m' pgdir u = pte m pgdir u
  count : m'.freelist.length + (kernelTables m' pgdir).card = m.freelist.length +
    (kernelTables m pgdir).card

theorem Building.refl (h : AddressSpace lo pgdir K H m) : Building lo pgdir H m m :=
  ⟨⟨K, h⟩, fun _ _ => rfl, fun _ _ => rfl, rfl⟩

theorem Building.trans (h : Building lo pgdir H m m') (h' : Building lo pgdir H m' m'') :
    Building lo pgdir H m m'' :=
  ⟨h'.space, fun f hf => (h'.other f hf).trans (h.other f hf), fun u hu =>
    (h'.low u hu).trans (h.low u hu),
    h'.count.trans h.count⟩

/-- A new page table, empty as yet. -/
theorem AddressSpace.addTable (h : AddressSpace lo pgdir K H m)
    (hz : Zeroed lo pgdir (K ∪ H) t m m') (hd : 512 ≤ d) (hd' : d < 1024)
    (habs : present (m.word pgdir d) = false) : Building lo pgdir H m (setPde m' pgdir d (userEntry t)) ∧
      ∀ u, u < 2 ^ 20 → pte (setPde m' pgdir d (userEntry t)) pgdir u = pte m pgdir u := by
  have htm : t ∈ insert t (K ∪ H) := Set.mem_insert ..
  have hlt : t < NFRAME := (hz.space.own.flight t htm).1.2
  have htd : t ≠ pgdir := fun heq => (hz.space.own.flight t htm).2 .dir heq.symm
  have hself : (setPde m' pgdir d (userEntry t)).word pgdir d = userEntry t := setPde_self
  have hne : ∀ e, e ≠ d → (setPde m' pgdir d (userEntry t)).word pgdir e = m.word pgdir e :=
    fun e he => by
    rw [setPde_ne he, hz.dir]
  have hframe : ∀ f, f ≠ pgdir → (setPde m' pgdir d (userEntry t)).word f = m'.word f := fun f hf =>
    update_of_ne hf ..
  have hpte : ∀ u, u < 2 ^ 20 → pte (setPde m' pgdir d (userEntry t)) pgdir u = pte m pgdir u :=
    fun u hu => by
    by_cases hud : u / 1024 = d
    · unfold pte
      rw [hud, hself, if_pos (present_userEntry hlt), if_neg (by simp [habs]),
        frameOf_userEntry hlt, hframe t htd, hz.zero]
    · refine pte_congr (hne _ hud) fun hp => ?_
      rw [hframe _ (h.dir_ne_table (by omega) hp).symm]
      rcases h.table_cases (by omega) hp with ⟨hlt', -⟩ | ⟨-, hK⟩
      · have hu' : u < NPAGE := by
          show u < 0x80000
          omega
        have := hz.keeps.pte u hu' trivial
        unfold pte at this
        rwa [hz.dir, if_pos hp, if_pos hp] at this
      · rw [hz.keeps.other _ (.inl hK)]
  have hhas : ∀ e, present ((setPde m' pgdir d (userEntry t)).word pgdir e) = true ↔
      e = d ∨ present (m.word pgdir e) = true := fun e => by
    by_cases he : e = d
    · rw [he, hself]
      exact iff_of_true (present_userEntry hlt) (.inl rfl)
    · rw [hne e he, or_iff_right he]
  refine ⟨⟨⟨insert t K, ?_, ?_, ?_, fun u h1 h2 => ?_⟩, fun f hf => ?_, fun u hu =>
    hpte u (hu.trans (by decide)), ?_⟩, hpte⟩
  · rw [Set.insert_union]
    exact hz.space.setUpper hd
  · rw [Set.disjoint_insert_left]
    exact ⟨fun hH => hz.new (.inr hH), h.apart⟩
  · have hset :
      { e | 512 ≤ e ∧ e < 1024 ∧ present ((setPde m' pgdir d (userEntry t)).word pgdir e) = true } =
        insert d { e | 512 ≤ e ∧ e < 1024 ∧ present (m.word pgdir e) = true } := by
      ext e
      simp only [Set.mem_ofPred_eq, Set.mem_insert_iff, hhas e]
      constructor
      · rintro ⟨h1, h2, h3 | h3⟩
        · exact .inl h3
        · exact .inr ⟨h1, h2, h3⟩
      · rintro (rfl | ⟨h1, h2, h3⟩)
        · exact ⟨hd, hd', .inl rfl⟩
        · exact ⟨h1, h2, .inr h3⟩
    have hold : Set.BijOn (fun e => frameOf ((setPde m' pgdir d (userEntry t)).word pgdir e))
        { e | 512 ≤ e ∧ e < 1024 ∧ present (m.word pgdir e) = true } K := h.tables.congr fun e he => by
      have hed : e ≠ d := fun heq => by
        have hp := he.2.2
        rw [heq, habs] at hp
        cases hp
      simp only [hne e hed]
    have hnew : frameOf ((setPde m' pgdir d (userEntry t)).word pgdir d) =
      t := by rw [hself, frameOf_userEntry hlt]
    have := hold.insert (a := d) fun hK => hz.new (.inl (by rwa [hnew] at hK))
    rwa [hnew, ← hset] at this
  · rw [hpte u h2]
    exact h.kernel u h1 h2
  · rw [hframe f fun heq => h.dir_notMem (heq ▸ hf), hz.keeps.other f (.inr hf)]
  · have hset : kernelTables (setPde m' pgdir d (userEntry t)) pgdir =
      insert d (kernelTables m pgdir) := by
      ext e
      simp only [kernelTables, Finset.mem_filter, Finset.mem_insert, Finset.mem_Ico, hhas e]
      constructor
      · rintro ⟨h1, h3 | h3⟩
        · exact .inl h3
        · exact .inr ⟨h1, h3⟩
      · rintro (rfl | ⟨h1, h3⟩)
        · exact ⟨⟨hd, hd'⟩, .inl rfl⟩
        · exact ⟨h1, .inr h3⟩
    have hnotin : d ∉ kernelTables m pgdir := by simp [kernelTables, habs]
    rw [hset, Finset.card_insert_of_notMem hnotin, hz.cost]
    show m'.freelist.length + _ = _
    omega

/-! ### setupkvm -/

theorem sat_walkKernel (h : AddressSpace lo pgdir K H m) (hge : NPAGE ≤ v) (hv : v < 2 ^ 20) :
    Sat (walkpgdir pgdir (4096 * v) true) m (fun r m' => match r with
      | none => m' = m ∧ m.freelist = []
      | some p => p = (frameOf (m'.word pgdir (v / 1024)), v % 1024) ∧ Building lo pgdir H m m' ∧
          (∀ u, u < 2 ^ 20 → pte m' pgdir u = pte m pgdir u) ∧
          ∀ d, present (m'.word pgdir d) = true ↔ d = v / 1024 ∨ present (m.word pgdir d) =
          true) fun _ => False := by
  have hge' : 0x80000 ≤ v := hge
  refine .get_bind ?_
  rw [PDX_any hv, PTX_page]
  by_cases hp : present (m.word pgdir (v / 1024)) = true
  · simp only [hp, if_true]
    exact .pure ⟨rfl, .refl h, fun _ _ => rfl, fun d =>
      ⟨.inr, fun hd => hd.elim (fun heq => heq ▸ hp) fun h => h⟩⟩
  · simp only [hp, Bool.not_true, Bool.false_eq_true, if_false]
    refine (sat_kalloc h.space).bind fun r m1 hr => ?_
    cases r with
    | none =>
      obtain ⟨rfl, hnil⟩ := hr
      exact .pure ⟨rfl, hnil⟩
    | some t =>
      obtain ⟨h1, htF, hword, hlist⟩ := hr
      have hz := h1.zeroed htF hword hlist
      refine .modify_bind (.modify_bind (.pure ?_))
      generalize { m1 with word := update m1.word t fun _ => 0 } = m2 at hz ⊢
      have hlt : t < NFRAME := (hz.space.own.flight t (Set.mem_insert ..)).1.2
      obtain ⟨hb, hpte⟩ := h.addTable (d := v / 1024) hz (by omega) (by omega) (by simpa using hp)
      refine ⟨?_, hb, hpte, fun d => ?_⟩
      · show (t, _) = (frameOf ((setPde m2 pgdir (v / 1024) (userEntry t)).word pgdir (v / 1024)), _)
        rw [setPde_self, frameOf_userEntry hlt]
      · show present ((setPde m2 pgdir (v / 1024) (userEntry t)).word pgdir d) = true ↔ _
        by_cases hd : d = v / 1024
        · rw [hd, setPde_self]
          exact iff_of_true (present_userEntry hlt) (.inl rfl)
        · rw [setPde_ne hd, hz.dir, or_iff_right hd]

/-- A round of `mappages` in the kernel's half, and what comes after it. -/
theorem sat_mapRound {pa : ℕ} {x : VmM Bool} {Q : Bool → Mem → Prop}
    (hperm : perm &&& PTE_U = 0) (h : AddressSpace lo pgdir K H m) (hge : NPAGE ≤ v)
    (hv : v < 2 ^ 20) (habs : present (pte m pgdir v) = false) (hfail : m.freelist = [] → Q false m)
    (hx : ∀ m', Building lo pgdir H m m' → (∀ u, u < 2 ^ 20 → u ≠ v → pte m' pgdir u = pte m pgdir u) →
      (∀ d, present (m'.word pgdir d) = true ↔ d = v / 1024 ∨ present (m.word pgdir d) = true) →
      Sat x m' Q fun _ => False) :
    Sat (do
      let r ← walkpgdir pgdir (4096 * v) true
      match r with
      | none => pure false
      | some (pgtab, i) => do
        let m ← get
        if present (m.word pgtab i) then stop "remap"
        else do
          setWord pgtab i (entry pa perm)
          x) m Q fun _ => False := by
  refine (sat_walkKernel h hge hv).bind fun r m1 hr => ?_
  cases r with
  | none =>
    obtain ⟨rfl, hnil⟩ := hr
    exact .pure (hfail hnil)
  | some p =>
    obtain ⟨rfl, hb, hpte, hdirs⟩ := hr
    obtain ⟨K1, h1⟩ := hb.space
    have htab : present (m1.word pgdir (v / 1024)) = true := (hdirs _).mpr (.inl rfl)
    have hword : m1.word (frameOf (m1.word pgdir (v / 1024))) (v % 1024) = pte m1 pgdir v :=
      (if_pos htab).symm
    refine .get_bind ?_
    simp only [hword, hpte v hv, habs, Bool.false_eq_true, if_false]
    refine .modify_bind (hx (setPte m1 pgdir v (entry pa perm)) ?_ (fun u hu huv => ?_) fun d => ?_)
    · have hdir := h1.setPte_dir (w := entry pa perm) hv htab
      refine hb.trans ⟨⟨K1, h1.setKernel hv htab hge (user_entry hperm pa)⟩,
        h1.setPte_other hv htab, fun u hu => ?_, ?_⟩
      · rw [h1.pte_setPte hv htab (hu.trans (by decide)), if_neg (hu.trans_le hge).ne]
      · unfold kernelTables
        rw [hdir]
        rfl
    · rw [h1.pte_setPte hv htab hu, if_neg huv, hpte u hu]
    · rw [h1.setPte_dir hv htab]
      exact hdirs d

/-- What mapping the pages `v` to `v + n` of the kernel's half comes to. -/
def KernelMapped (lo pgdir : ℕ) (H : Set ℕ) (v n : ℕ) (m : Mem) (r : Bool) (m' : Mem) : Prop :=
  Building lo pgdir H m m' ∧ match r with
    | true => (∀ u, v + n < u → u < 2 ^ 20 → present (pte m' pgdir u) = false) ∧
        ∀ d, present (m'.word pgdir d) = true ↔ (v / 1024 ≤ d ∧ d ≤ (v + n) / 1024) ∨
          present (m.word pgdir d) = true
    | false => m'.freelist = []

theorem sat_mapFrom (hperm : perm &&& PTE_U = 0) (n v pa : ℕ) (m : Mem)
    (h : ∃ K, AddressSpace lo pgdir K H m) (hge : NPAGE ≤ v) (hv : v + n < 2 ^ 20)
    (habs : ∀ u, v ≤ u → u < 2 ^ 20 → present (pte m pgdir u) = false) :
    Sat (mapFrom pgdir perm n (4096 * v) pa) m (KernelMapped lo pgdir H v n m) fun _ => False := by
  obtain ⟨K, h⟩ := h
  induction n generalizing v pa m K with
  | zero =>
    unfold mapFrom
    refine sat_mapRound hperm h hge hv (habs v le_rfl hv) (fun hnil => ⟨.refl h, hnil⟩)
      fun m' hb hpte hdirs => ?_
    refine .pure ⟨hb, fun u h1 h2 => ?_, fun d => ?_⟩
    · rw [hpte u h2 (by omega)]
      exact habs u (by omega) h2
    · rw [hdirs d, show (v / 1024 ≤ d ∧ d ≤ (v + 0) / 1024) ↔ d = v / 1024 by omega]
  | succ n ih =>
    unfold mapFrom
    refine sat_mapRound hperm h hge (by omega) (habs v le_rfl (by omega)) (fun hnil => ⟨.refl h, hnil⟩)
      fun m' hb hpte hdirs => ?_
    obtain ⟨K', h'⟩ := hb.space
    refine (ih (v + 1) (pa + 1) m' (hge.trans (by omega)) (by omega) (fun u h1 h2 => ?_) K' h').post ?_
    · rw [hpte u h2 (by omega)]
      exact habs u (by omega) h2
    · rintro (_ | _) m'' ⟨hb', hr⟩
      · exact ⟨hb.trans hb', hr⟩
      · refine ⟨hb.trans hb', fun u h1 h2 => hr.1 u (by omega) h2, fun d => ?_⟩
        rw [hr.2 d, hdirs d, ← or_assoc]
        refine or_congr_left ?_
        omega

/-- A page directory entry that is about addresses of `k`. -/
def Kmap.Covers (k : Kmap) (d : ℕ) : Prop := k.virt / 2 ^ 22 ≤ d ∧ d ≤ (k.virt + k.size - 1) / 2 ^ 22

/-- Whole pages of the kernel's half from page `v` on, one part after the other, and none for the
user. -/
def Ascending : ℕ → List Kmap → Prop
  | _, [] => True
  | v, k :: rest =>
    ∃ a n, k.virt = 4096 * a ∧ k.size = 4096 * (n + 1) ∧ v ≤ a ∧ a + n < 2 ^ 20 ∧ k.perm &&& PTE_U =
    0 ∧
      Ascending (a + n + 1) rest

theorem sat_mapKernel (ks : List Kmap) (v : ℕ) (m : Mem) (hks : Ascending v ks)
    (h : ∃ K, AddressSpace lo pgdir K H m) (hge : NPAGE ≤ v)
    (habs : ∀ u, v ≤ u → u < 2 ^ 20 → present (pte m pgdir u) = false) :
    Sat (mapKernel lo pgdir ks) m (fun r m' => match r with
      | some p => p = pgdir ∧ Building lo pgdir H m m' ∧
          ∀ d, present (m'.word pgdir d) = true ↔ (∃ k ∈ ks, k.Covers d) ∨ present (m.word pgdir d) = true
      | none => Frames lo H m' ∧ (∀ f ∈ H, m'.word f = m.word f) ∧
          m.freelist.length + (kernelTables m pgdir).card ≤ 512) fun _ => False := by
  induction ks generalizing v m with
  | nil =>
    obtain ⟨K, h⟩ := h
    exact .pure ⟨rfl, .refl h, fun d =>
      ⟨.inr, fun hd => hd.elim (fun ⟨k, hk, _⟩ => by cases hk) fun h => h⟩⟩
  | cons k rest ih =>
    obtain ⟨a, n, hvirt, hsize, hva, hlt, hperm, hrest⟩ := hks
    have hn : (PGROUNDDOWN (4096 * a + 4096 * (n + 1) - 1) - PGROUNDDOWN (4096 * a)) / 4096 = n := by
      unfold PGROUNDDOWN
      omega
    have ha : PGROUNDDOWN (4096 * a) = 4096 * a := by
      unfold PGROUNDDOWN
      omega
    have hcov : ∀ d, k.Covers d ↔ a / 1024 ≤ d ∧ d ≤ (a + n) / 1024 := fun d => by
      unfold Kmap.Covers
      rw [hvirt, hsize]
      omega
    unfold mapKernel mappages
    rw [hvirt, hsize, hn, ha]
    refine (sat_mapFrom hperm n a _ m h (hge.trans hva) hlt fun u h1 h2 =>
      habs u (hva.trans h1) h2).bind ?_
    rintro (_ | _) m1 ⟨hb, hr⟩
    · obtain ⟨K1, h₁⟩ := hb.space
      simp only [Bool.false_eq_true, if_false]
      refine (sat_freevm h₁).bind ?_
      rintro _ m2 ⟨hf2, hw2⟩
      refine .pure ⟨hf2, fun f hf => (hw2 f hf).trans (hb.other f hf), ?_⟩
      have hcount := hb.count
      have hcard := card_kernelTables m1 pgdir
      rw [show m1.freelist = [] from hr, List.length_nil] at hcount
      omega
    · simp only [if_true]
      refine (ih (a + n + 1) m1 hrest hb.space (hge.trans (by omega)) fun u h1 h2 =>
        hr.1 u (by omega) h2).post ?_
      rintro (_ | p) m2 hr2
      · obtain ⟨hf2, hw2, hcount2⟩ := hr2
        exact ⟨hf2, fun f hf => (hw2 f hf).trans (hb.other f hf), hb.count ▸ hcount2⟩
      · obtain ⟨rfl, hb2, hdirs2⟩ := hr2
        refine ⟨rfl, hb.trans hb2, fun d => ?_⟩
        rw [hdirs2 d, hr.2 d, ← hcov d, ← or_assoc]
        refine or_congr_left ?_
        simp only [List.mem_cons, exists_eq_or_imp]
        exact or_comm

/-- The entries that setupkvm makes: for physical memory and for the devices above `DEVSPACE`. -/
def KernelDir (dir : ℕ → UInt32) : Prop :=
  ∀ d, 512 ≤ d → (present (dir d) = true ↔ d ≤ 567 ∨ 1016 ≤ d ∧ d ≤ 1023)

theorem toNat_sub_ofNat {a b : ℕ} (ha : a < 2 ^ 32) (hb : b < 2 ^ 32) :
    (UInt32.ofNat a - UInt32.ofNat b).toNat = (2 ^ 32 - b + a) % 2 ^ 32 := by
  rw [UInt32.toNat_sub, UInt32.toNat_ofNat_of_lt' ha, UInt32.toNat_ofNat_of_lt' hb]

/-- Where the parts of `kmap` begin, and how many pages they have. -/
theorem kmap_parts (ld : Linkage) : ∃ a, ld.data = 4096 * a ∧ 0x80100 < a ∧ a < 0x8E000 ∧
    (kmap ld).map (fun k => (k.virt, k.size)) = [(4096 * 0x80000, 4096 * 0x100),
      (4096 * 0x80100, 4096 * (a - 0x80100)), (4096 * a, 4096 * (0x8E000 - a)),
      (4096 * 0xFE000, 4096 * 0x2000)] := by
  have h1 := ld.aligned
  have h2 : 0x80100000 < ld.data := ld.above
  have h3 : ld.data < 0x8E000000 := ld.below
  refine ⟨ld.data / 4096, by omega, by omega, by omega, ?_⟩
  have s2 := toNat_sub_ofNat (a := ld.data - 0x80000000) (b := 0x100000) (by omega) (by norm_num)
  have s3 := toNat_sub_ofNat (a := 0xE000000) (b := ld.data - 0x80000000) (by norm_num) (by omega)
  simp only [kmap, Kmap.size, List.map_cons, List.map_nil, KERNBASE, KERNLINK, EXTMEM, PHYSTOP, DEVSPACE,
    Nat.add_sub_cancel_left, s2, s3, List.cons.injEq, Prod.mk.injEq, and_true]
  refine ⟨⟨by norm_num, rfl⟩, ⟨by norm_num, by omega⟩, ⟨by omega, by omega⟩, by norm_num, rfl⟩

theorem ascending_kmap (ld : Linkage) : Ascending NPAGE (kmap ld) := by
  obtain ⟨a, -, h1, h2, hparts⟩ := kmap_parts ld
  simp only [kmap, List.map_cons, List.map_nil, List.cons.injEq, Prod.mk.injEq, and_true] at hparts
  obtain ⟨⟨v1, s1⟩, ⟨v2, s2⟩, ⟨v3, s3⟩, v4, s4⟩ := hparts
  have hW : PTE_W &&& PTE_U = 0 := by decide
  have h0 : 0 &&& PTE_U = 0 := by decide
  exact ⟨0x80000, 0xFF, v1, s1, le_rfl,
    by norm_num, hW, 0x80100, a - 0x80101, v2, s2.trans (by omega), by norm_num, by omega, h0,
    a, 0x8DFFF - a, v3, s3.trans (by omega),
      by omega, by omega, hW, 0xFE000, 0x1FFF, v4, s4, by omega, by norm_num, hW, trivial⟩

theorem covers_kmap (ld : Linkage) (d : ℕ) : (∃ k ∈ kmap ld, k.Covers d) ↔ (512 ≤ d ∧ d ≤ 567) ∨
    1016 ≤ d ∧ d ≤ 1023 := by
  obtain ⟨a, -, h1, h2, hparts⟩ := kmap_parts ld
  have hmap : (∃ k ∈ kmap ld, k.Covers d) ↔
      ∃ p ∈ (kmap ld).map fun k => (k.virt, k.size), p.1 / 2 ^ 22 ≤ d ∧ d ≤ (p.1 + p.2 - 1) / 2 ^ 22 := by
    simp only [List.mem_map, exists_exists_and_eq_and]
    rfl
  rw [hmap, hparts]
  simp only [List.mem_cons, List.not_mem_nil, or_false, exists_eq_or_imp, exists_eq_left]
  omega

/-- A page directory with nothing in it. -/
theorem Frames.empty_dir (h : Frames lo (insert pgdir H) m) (hd : pgdir ∉ H)
    (hzero : m.word pgdir = fun _ => 0) : AddressSpace lo pgdir ∅ H m ∧ ∀ v, pte m pgdir v = 0 := by
  have hpte : ∀ v, pte m pgdir v = 0 := fun v => by
    unfold pte
    rw [hzero, if_neg (by simp)]
  have hsites : ∀ x, sites m pgdir x = match x with
      | .dir => pgdir
      | _ => 0 := fun x => by
    cases x with
    | dir => rfl
    | table d => simp [sites, hzero]
    | page v => simp [sites, hpte]
  have hpos : pgdir ≠ 0 := by
    have := h.pos
    have := (h.hand pgdir (Set.mem_insert ..)).1
    omega
  have hset : siteSet m pgdir = {pgdir} := by
    ext f
    constructor
    · rintro ⟨h0, x, rfl⟩
      cases x with
      | dir => rfl
      | table | page => exact absurd (hsites _) h0
    · rintro rfl
      exact ⟨hpos, .dir, rfl⟩
  have hdirs : ∀ d, present (m.word pgdir d) = false := fun d => by rw [hzero, present_zero]
  refine ⟨⟨Space.of_frames ?_ ?_ ?_ hpos ?_ ?_, Set.empty_disjoint _, ?_, ?_⟩, hpte⟩
  · rwa [hset, Set.empty_union, Set.singleton_union]
  · rw [hset, Set.empty_union, Set.disjoint_singleton_left]
    exact hd
  · intro x y hx hxy
    rw [hsites] at hx hxy
    rw [hsites] at hxy
    cases x with
    | dir =>
      cases y with
      | dir => rfl
      | table | page => exact absurd hxy hpos
    | table | page => exact absurd rfl hx
  · intro d _ hp
    rw [hdirs] at hp
    cases hp
  · intro v _ hp
    rw [hpte] at hp
    cases hp
  · have hnone : { d | 512 ≤ d ∧ d < 1024 ∧ present (m.word pgdir d) = true } = ∅ :=
      Set.eq_empty_iff_forall_notMem.mpr fun d hd => by
        have := hd.2.2
        rw [hdirs] at this
        cases this
    rw [hnone]
    exact Set.bijOn_empty _
  · intro v _ _
    rw [hpte]
    rfl

/-- setupkvm makes an address space without user pages; frames enough are there if more than 512
are. -/
theorem sat_setupkvm {ld : Linkage} (h : Frames lo H m) : Sat (setupkvm lo ld) m (fun r m' => match r with
    | some pgdir =>
      (∃ K, AddressSpace lo pgdir K H m') ∧ (∀ f ∈ H, m'.word f = m.word f) ∧
      KernelDir (m'.word pgdir) ∧
        (∀ v, v < NPAGE → present (pte m' pgdir v) = false) ∧ m.freelist.length ≤ m'.freelist.length + 513
    | none =>
      Frames lo H m' ∧ (∀ f ∈ H, m'.word f = m.word f) ∧ m.freelist.length ≤ 513) fun _ =>
      False := by
  unfold setupkvm
  refine (sat_kalloc_frames h).bind fun r m1 hr => ?_
  cases r with
  | none =>
    obtain ⟨rfl, hnil⟩ := hr
    exact .pure ⟨h, fun _ _ => rfl, by simp [hnil]⟩
  | some pgdir =>
    obtain ⟨h1, hd, hw1, hlen⟩ := hr
    refine .modify_bind ?_
    rw [if_neg (by unfold DEVSPACE KERNBASE PHYSTOP; norm_num)]
    have hw2 : ∀ f ∈ H, ({ m1 with word := update m1.word pgdir fun _ => 0 } : Mem).word f =
      m.word f := fun f hf => by
      have hne : f ≠ pgdir := fun heq => hd (heq ▸ hf)
      rw [← hw1]
      exact update_of_ne hne ..
    have hzero : ({ m1 with word := update m1.word pgdir fun _ => 0 } : Mem).word pgdir = fun _ => 0 :=
      Function.update_self ..
    have h2 : Frames lo (insert pgdir H) { m1 with word := update m1.word pgdir fun _ => 0 } := h1.write _
    have hlen2 : ({ m1 with word := update m1.word pgdir fun _ => 0 } : Mem).freelist.length + 1 =
      m.freelist.length :=
      hlen.symm
    generalize ({ m1 with word := update m1.word pgdir fun _ => 0 } : Mem) = m2 at hw2 hzero h2 hlen2 ⊢
    obtain ⟨has, hpte⟩ := h2.empty_dir hd hzero
    have hnone : kernelTables m2 pgdir = ∅ := by
      unfold kernelTables
      rw [hzero]
      simp
    refine (sat_mapKernel (kmap ld) NPAGE m2 (ascending_kmap ld) ⟨_, has⟩ le_rfl
      fun u _ _ => by rw [hpte]; rfl).post ?_
    rintro (_ | p) m3 hr
    · obtain ⟨hf, hw, hcount⟩ := hr
      rw [hnone, Finset.card_empty] at hcount
      exact ⟨hf, fun f hf => (hw f hf).trans (hw2 f hf), by omega⟩
    · obtain ⟨rfl, hb, hdirs⟩ := hr
      refine ⟨hb.space, fun f hf => (hb.other f hf).trans (hw2 f hf), fun d hd => ?_, fun v hv => ?_, ?_⟩
      · rw [hdirs d, covers_kmap, hzero]
        simp [hd]
      · rw [hb.low v hv, hpte]
        rfl
      · have hcount := hb.count
        have hcard := card_kernelTables m3 p
        rw [hnone, Finset.card_empty] at hcount
        omega

end

end Xv6.Vm
