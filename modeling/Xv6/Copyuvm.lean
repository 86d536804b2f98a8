/-
# copyuvm

fork gives the child a copy of the parent's memory: copyuvm of vm.c makes a new address space with
setupkvm, and for each page of the parent takes a frame, copies the contents and maps it with the
flags of the parent's entry. Where a frame is lacking, for a page or for a page table, it gives back
all that it has built.

The parent is any page directory whose frames are not free (`Backed`); it need not be an address
space of its own kind, and two of its pages may be one frame. A copy has a frame for each page, so
it never gets beyond the number of frames there are, whatever `sz` is.
-/
import Xv6.AddressSpace

namespace Xv6.Vm

open Prog
open Function (update)

def PTE_FLAGS (w : UInt32) : UInt32 := w &&& 0xFFF

/-- `memmove(mem, src, PGSIZE)`, from the frame of `src` to that of `mem`. -/
def copyFrame (mem src : ℕ) : VmM Unit := modify fun m =>
    { m with word := update m.word mem (m.word src) }

section

variable (lo : ℕ) (ld : Linkage) (cur pgdir : ℕ)

/-- The loop of `copyuvm`; `false` is a jump to `bad`. -/
def copyPages (d sz : ℕ) : ℕ → ℕ → VmM Bool
  | 0, _ => pure true
  | fuel + 1, i =>
    if sz ≤ i then pure true
    else do
      let pte ← walkpgdir pgdir i false
      match pte with
      | none => stop "copyuvm: pte should exist"
      | some (pgtab, j) => do
        let m ← get
        if !present (m.word pgtab j) then stop "copyuvm: page not present"
        else do
          let mem ← kalloc
          match mem with
          | none => pure false
          | some mem => do
            let src ← kernelFrame cur (frameOf (m.word pgtab j))
            copyFrame mem src
            let mapped ← mappages d i 4096 mem (PTE_FLAGS (m.word pgtab j))
            if mapped then copyPages d sz fuel (i + 4096)
            else do
              kfree lo mem
              pure false

/-- Given a parent process's page table, create a copy of it for a child. -/
def copyuvm (sz : ℕ) : VmM (Option ℕ) := do
  let d ← setupkvm lo ld
  match d with
  | none => pure none
  | some d => do
    let copied ← copyPages lo cur pgdir d sz (sz / 4096 + 1) 0
    if copied then pure (some d)
    else do
      freevm lo d
      pure none

end

/-! ### Flags -/

section

variable {lo cur pgdir d sz f v : ℕ} {ld : Linkage} {H K : Set ℕ} {m m₀ m₁ m' : Mem} {w : UInt32}

theorem toNat_flags (w : UInt32) : (PTE_FLAGS w).toNat = w.toNat % 4096 := by
  unfold PTE_FLAGS
  rw [UInt32.toNat_and]
  exact Nat.and_two_pow_sub_one_eq_mod _ 12

theorem flags_lt (w : UInt32) : (PTE_FLAGS w).toNat < 4096 := by
  rw [toNat_flags]
  exact Nat.mod_lt _ (by norm_num)

/-- The flags of an entry that is made with the flags of another. -/
theorem flags_entry (hf : f < NFRAME) (hp : present w = true) :
    PTE_FLAGS (entry f (PTE_FLAGS w)) = PTE_FLAGS w := by
  have hor : (PTE_FLAGS w ||| PTE_P).toNat = (PTE_FLAGS w).toNat := by
    have hodd : (PTE_FLAGS w).toNat % 2 = 1 := by
      have := present_iff.mp hp
      rw [toNat_flags]
      omega
    rw [UInt32.toNat_or]
    show (PTE_FLAGS w).toNat ||| 1 = _
    refine Nat.eq_of_testBit_eq fun i => ?_
    rw [Nat.testBit_or]
    cases i with
    | zero => simp [Nat.testBit_zero, hodd]
    | succ i => simp [Nat.testBit_succ]
  obtain ⟨heq, hlt⟩ := toNat_entry hf (flags_lt w)
  apply UInt32.toNat_inj.mp
  rw [toNat_flags, heq, Nat.mul_add_mod, Nat.mod_eq_of_lt hlt, hor]

/-! ### The loop -/

/-- A page directory whose frames are in hand, with all pages below `sz`. -/
structure Backed (m : Mem) (pgdir sz : ℕ) (H : Set ℕ) : Prop where
  dir : pgdir ∈ H
  table : ∀ j, j < 1024 → present (m.word pgdir j) = true → frameOf (m.word pgdir j) ∈ H
  page : ∀ v, v < NPAGE → present (pte m pgdir v) = true → frameOf (pte m pgdir v) ∈ H
  mapped : ∀ v, 4096 * v < sz → present (pte m pgdir v) = true

/-- The parent is the same as long as the frames in hand are. -/
theorem Backed.pte_same (h : Backed m₀ pgdir sz H) (hw : ∀ f ∈ H, m.word f = m₀.word f)
    (hv : v < 2 ^ 20) : pte m pgdir v = pte m₀ pgdir v :=
  pte_congr (by rw [hw pgdir h.dir]) fun hp => by rw [hw _ (h.table _ (by omega) hp)]

theorem Frames.length_le (h : Frames lo H m) : m.freelist.length ≤ NFRAME := by
  have hsub : m.freelist ⊆ List.range NFRAME := fun f hf => List.mem_range.mpr ((h.free f).mp hf).2.1
  have := (h.nodup.subperm hsub).length_le
  rwa [List.length_range] at this

/-- How many page tables `v` pages have. -/
def tables (v : ℕ) : ℕ := (v + 1023) / 1024

/-- The state of the loop before page `v`: `m₀` is memory at the call and `m₁` after setupkvm. -/
structure Copying (lo : ℕ) (K H : Set ℕ) (pgdir d v : ℕ) (m₀ m₁ m : Mem) : Prop where
  space : AddressSpace lo d K H m
  other : ∀ f ∈ H, m.word f = m₀.word f
  upper : Upper d m₁ m
  kernel : ∀ f ∈ K, m.word f = m₁.word f
  copied : ∀ u, u < v → ∃ f, f < NFRAME ∧ pte m d u = entry f (PTE_FLAGS (pte m₀ pgdir u)) ∧
    m.word f = m₀.word (frameOf (pte m₀ pgdir u))
  absent : ∀ u, v ≤ u → u < NPAGE → present (pte m d u) = false
  count : m.freelist.length + v ≤ NFRAME
  /-- It has cost a frame for each page, and one for each page table. -/
  spent : m₁.freelist.length ≤ m.freelist.length + v + tables v

section

variable (h : Copying lo K H pgdir d v m₀ m₁ m)
include h

theorem Copying.lt : v < NPAGE := by
  have := h.count
  have hN : NFRAME < NPAGE := by decide
  omega

/-- A page needs a table of its own only if it is the first of a table. -/
theorem Copying.tables_succ : tables v + fresh m d v ≤ tables (v + 1) := by
  unfold tables
  by_cases hv : v % 1024 = 0
  · have : fresh m d v ≤ 1 := by
      unfold fresh
      split <;> omega
    omega
  · obtain ⟨f, hf, hpte, -⟩ := h.copied (v - 1) (by omega)
    have hp : present (m.word d (v / 1024)) = true := by
      rw [show v / 1024 = (v - 1) / 1024 by omega]
      by_contra hno
      have := present_entry hf (flags_lt (pte m₀ pgdir (v - 1)))
      rw [← hpte, pte, if_neg hno] at this
      cases this
    rw [fresh, if_pos hp]
    omega

/-- A page has been copied to frame `f`, and is mapped. -/
theorem Copying.next (hf : f < NFRAME)
    (hs : Space lo d (K ∪ H) m') (hk : Keeps d (· ≠ v) (K ∪ H) m m') (hup : Upper d m m')
    (hpte : pte m' d v = entry f (PTE_FLAGS (pte m₀ pgdir v)))
    (hw : m'.word f = m₀.word (frameOf (pte m₀ pgdir v)))
    (hlen : m.freelist.length = m'.freelist.length + 1 + fresh m d v) :
    Copying lo K H pgdir d (v + 1) m₀ m₁ m' := by
  have hv := h.lt
  refine ⟨h.space.of_upper hs hup fun f hf => hk.other f (.inl hf), fun f hf =>
    (hk.other f (.inr hf)).trans (h.other f hf),
    h.upper.trans hup, fun f hf => (hk.other f (.inl hf)).trans (h.kernel f hf), fun u hu => ?_,
      fun u hu hlt => ?_, ?_, ?_⟩
  · by_cases huv : u = v
    · rw [huv]
      exact ⟨f, hf, hpte, hw⟩
    · obtain ⟨g, hg, hgpte, hgw⟩ := h.copied u (by omega)
      have hgp : present (pte m d u) = true := by
        rw [hgpte]
        exact present_entry hg (flags_lt _)
      have hpage := hk.page u (by omega) huv hgp
      rw [hgpte, frameOf_entry hg (flags_lt _)] at hpage
      exact ⟨g, hg, by rw [hk.pte u (by omega) huv, hgpte], by rw [hpage, hgw]⟩
  · rw [hk.pte u hlt (by omega)]
    exact h.absent u (by omega) hlt
  · have := h.count
    omega
  · have := h.spent
    have := h.tables_succ
    omega

end

/-- What the loop comes to: all pages are copied, or there are not frames enough and it is left with
what there is to free. -/
def CopiedAll (lo : ℕ) (K H : Set ℕ) (pgdir d sz : ℕ) (m₀ m₁ : Mem) (r : Bool) (m : Mem) : Prop :=
  match r with
  | true => ∃ v, (∀ u, 4096 * u < sz ↔ u < v) ∧ Copying lo K H pgdir d v m₀ m₁ m
  | false => AddressSpace lo d K H m ∧ (∀ f ∈ H, m.word f = m₀.word f) ∧
      m₁.freelist.length < (sz + 4095) / 4096 + tables ((sz + 4095) / 4096)

theorem tables_mono {u : ℕ} (h : u ≤ v) : tables u ≤ tables v := Nat.div_le_div_right (by omega)

theorem Copying.sat_copyPages (hb : Backed m₀ pgdir sz H) (fuel v : ℕ) (m : Mem)
    (h : Copying lo K H pgdir d v m₀ m₁ m) (hle : 4096 * v < sz + 4096)
    (hfuel : sz ≤ 4096 * v + 4096 * fuel) :
    Sat (copyPages lo cur pgdir d sz fuel (4096 * v)) m (CopiedAll lo K H pgdir d sz m₀ m₁) fun _ =>
    False := by
  induction fuel generalizing v m with
  | zero => exact .pure ⟨v, fun u => by omega, h⟩
  | succ fuel ih =>
    unfold copyPages
    refine .ite (fun hge => .pure ⟨v, fun u => by omega, h⟩) fun hlt => ?_
    have hv := h.lt
    have hspent := h.spent
    have htables := h.tables_succ
    have hmono : tables (v + 1) ≤ tables ((sz + 4095) / 4096) := tables_mono (by omega)
    have hp := hb.mapped v (by omega)
    have hsame : pte m pgdir v = pte m₀ pgdir v := hb.pte_same h.other (hv.trans (by decide))
    have htab : present (m.word pgdir (v / 1024)) = true := by
      by_contra hno
      rw [← hsame, pte, if_neg hno] at hp
      cases hp
    refine (sat_find hv).bind ?_
    rintro r m2 ⟨rfl, hr⟩
    rw [if_pos htab] at hr
    subst hr
    have hword : m2.word (frameOf (m2.word pgdir (v / 1024))) (v % 1024) = pte m₀ pgdir v :=
      (if_pos htab).symm.trans hsame
    refine .get_bind ?_
    simp only [hword, hp, Bool.not_true, Bool.false_eq_true, if_false]
    refine (sat_kalloc h.space.space).bind fun r m3 hr => ?_
    cases r with
    | none =>
      obtain ⟨rfl, hnil⟩ := hr
      rw [hnil, List.length_nil] at hspent
      exact .pure ⟨h.space, h.other, by omega⟩
    | some f =>
      obtain ⟨hs3, hfF, hw3, hlist⟩ := hr
      have hsrc := hb.page v hv hp
      have hfm : f ∈ insert f (K ∪ H) := Set.mem_insert ..
      have hset : insert f (K ∪ H) \ {f} = K ∪ H := by
        rw [Set.insert_sdiff_of_mem _ (Set.mem_singleton f), Set.sdiff_singleton_eq_self hfF]
      refine (sat_kernelFrame (h.space.space.own.flight _ (.inr hsrc)).1.2).bind ?_
      rintro src m4 ⟨rfl, rfl⟩
      -- the frame gets the contents of the parent's page
      obtain ⟨hs5, hk5⟩ := hs3.write hfm (m4.word (frameOf (pte m₀ pgdir v)))
      rw [hset] at hk5
      have hdir5 : update m4.word f (m4.word (frameOf (pte m₀ pgdir v))) d = m2.word d := by
        have hdf : d ≠ f := (hs3.own.flight f hfm).2 .dir
        rw [Function.update_of_ne hdf, hw3]
      have hcont : update m4.word f (m4.word (frameOf (pte m₀ pgdir v))) f =
        m₀.word (frameOf (pte m₀ pgdir v)) := by
        rw [Function.update_self, hw3, h.other _ hsrc]
      have hk2 :
        Keeps d (fun _ => True) (K ∪ H) m2
          { m4 with word := update m4.word f (m4.word (frameOf (pte m₀ pgdir v))) } :=
        Keeps.trans (.of_word hw3) hk5
      refine .modify_bind ?_
      have hfree : m2.freelist.length = m4.freelist.length + 1 := by
        rw [hlist]
        rfl
      generalize hm5 :
        ({ m4 with word := update m4.word f (m4.word (frameOf (pte m₀ pgdir v))) } : Mem) =
          m5
        at hs5 hk2 ⊢
      have hdir : m5.word d = m2.word d := hm5 ▸ hdir5
      have hcont : m5.word f = m₀.word (frameOf (pte m₀ pgdir v)) := hm5 ▸ hcont
      have hlen : m5.freelist = m4.freelist := by rw [← hm5]
      have hfresh : fresh m5 d v = fresh m2 d v := by
        unfold fresh
        rw [hdir]
      have habs : present (pte m5 d v) = false := by
        rw [hk2.pte v hv trivial]
        exact h.absent v le_rfl hv
      refine (sat_mappage hs5 hv hfm habs (flags_lt _)).bind fun r m6 hr => ?_
      cases r with
      | true =>
        obtain ⟨hs6, hk6, -, hup6, hpte6, ht⟩ := hr
        rw [hset] at hs6
        simp only [if_true]
        have hcost := ht.cost
        rw [hlen, hfresh] at hcost
        refine ih (v + 1) m6 (h.next (hs3.own.flight f hfm).1.2 hs6 ?_ ?_ hpte6 ?_ ?_) (by omega)
          (by omega)
        · exact (hk2.mono (fun _ _ => trivial) subset_rfl).trans
            (hk6.mono (fun _ h => h) (Set.subset_insert ..))
        · exact Upper.trans (.of_dir hdir) hup6
        · rw [hk6.other f hfm, hcont]
        · omega
      | false =>
        obtain ⟨hs6, hk6, -, hup6, hfew⟩ := hr
        rw [hlen, hfresh] at hfew
        simp only [Bool.false_eq_true, if_false]
        refine (sat_kfree hs6 hfm).bind ?_
        rintro _ m7 ⟨hs7, hk7, hdir7⟩
        rw [hset] at hs7 hk7
        have hk := (hk2.trans (hk6.mono (fun _ h => h) (Set.subset_insert ..))).trans hk7
        refine .pure ⟨h.space.of_upper hs7 ?_ fun f hf => hk.other f (.inl hf), fun f hf => ?_, by omega⟩
        · exact Upper.trans (.of_dir hdir) (hup6.trans (.of_dir hdir7))
        · rw [hk.other f (.inr hf), h.other f hf]

/-! ### The copy -/

/-- `d` is a copy of `pgdir`, made of frames that were free. `m₁` is memory after setupkvm. -/
structure Cloned (lo : ℕ) (H : Set ℕ) (pgdir sz : ℕ) (m m₁ : Mem) (d : ℕ) (m' : Mem) : Prop where
  space : ∃ K, AddressSpace lo d K H m'
  size : sz < KERNBASE
  mapped : ∀ v, v < NPAGE → (present (pte m' d v) = true ↔ 4096 * v < sz)
  fresh : ∀ v, 4096 * v < sz → frameOf (pte m' d v) ∈ m.freelist
  distinct : ∀ u v, 4096 * u < sz → 4096 * v < sz → frameOf (pte m' d u) = frameOf (pte m' d v) → u = v
  contents : ∀ v, 4096 * v < sz → m'.word (frameOf (pte m' d v)) = m.word (frameOf (pte m pgdir v))
  flags : ∀ v, 4096 * v < sz → PTE_FLAGS (pte m' d v) = PTE_FLAGS (pte m pgdir v)
  /-- No page is a page of the parent, and no page table one of the parent's. -/
  pages : ∀ u v, 4096 * u < sz → v < NPAGE → present (pte m pgdir v) = true → frameOf (pte m' d u) ≠
    frameOf (pte m pgdir v)
  tables : ∀ i j, i < 1024 → j < 1024 → present (m'.word d i) = true → present (m.word pgdir j) = true →
    frameOf (m'.word d i) ≠ frameOf (m.word pgdir j)
  kernel : ∀ v, NPAGE ≤ v → v < 2 ^ 20 → pte m' d v = pte m₁ d v

theorem Copying.cloned (h : Copying lo K H pgdir d v m₀ m₁ m) (hf : Frames lo H m₀)
    (hb : Backed m₀ pgdir sz H) (h₁ : AddressSpace lo d K H m₁) (hv : ∀ u, 4096 * u < sz ↔ u < v) :
    Cloned lo H pgdir sz m₀ m₁ d m := by
  have hlt := h.lt
  have hlt' : v < 0x80000 := hlt
  have hpage : ∀ u, 4096 * u < sz → u < NPAGE ∧ present (pte m d u) = true := fun u hu => by
    obtain ⟨f, hf, hpte, -⟩ := h.copied u ((hv u).mp hu)
    refine ⟨((hv u).mp hu).trans hlt, ?_⟩
    rw [hpte]
    exact present_entry hf (flags_lt _)
  -- the frame of a page of the copy is one of its own
  have hown : ∀ u, 4096 * u < sz → frameOf (pte m d u) ∉ H ∧ frameOf (pte m d u) ∈ m₀.freelist :=
    fun u hu => by
    obtain ⟨hu', hp⟩ := hpage u hu
    obtain ⟨hsite, hne⟩ := h.space.page_site hu' hp
    have hH : frameOf (pte m d u) ∉ H := fun hmem => (h.space.space.own.flight _ (.inr hmem)).2 _ hsite
    obtain ⟨hlo, hhi⟩ := h.space.space.own.range (.page u) (by rwa [hsite])
    rw [hsite] at hlo hhi
    exact ⟨hH, (hf.free _).mpr ⟨hlo, hhi, hH⟩⟩
  refine ⟨⟨K, h.space⟩, ?_, fun u hu => ⟨fun hp => ?_, fun hsz => (hpage u hsz).2⟩, fun u hu =>
    (hown u hu).2, fun u w hu hw heq => ?_,
    fun u hu => ?_, fun u hu => ?_, fun u w hu hw hp heq => ?_, fun i j hi hj hpi hpj heq => ?_,
      fun u h1 h2 => ?_⟩
  · have := (hv v).not.mpr (by omega)
    show sz < 0x80000000
    omega
  · by_contra hsz
    have habs := h.absent u (Nat.le_of_not_lt ((hv u).not.mp hsz)) hu
    rw [habs] at hp
    cases hp
  · obtain ⟨hu', hp⟩ := hpage u hu
    obtain ⟨hw', hp'⟩ := hpage w hw
    obtain ⟨hsite, hne⟩ := h.space.page_site hu' hp
    obtain ⟨hsite', -⟩ := h.space.page_site hw' hp'
    have := h.space.space.own.inj (.page u) (.page w) (by rwa [hsite]) (by rw [hsite, hsite', heq])
    exact Site.page.inj this
  · obtain ⟨f, hf, hpte, hw⟩ := h.copied u ((hv u).mp hu)
    rw [hpte, frameOf_entry hf (flags_lt _), hw]
  · obtain ⟨f, hf, hpte, -⟩ := h.copied u ((hv u).mp hu)
    rw [hpte, flags_entry hf (hb.mapped u hu)]
  · exact (hown u hu).1 (heq ▸ hb.page w hw hp)
  · exact h.space.table_notMem hi hpi (heq ▸ hb.table j hj hpj)
  · have hge : 512 ≤ u / 1024 := by
      have : 0x80000 ≤ u := h1
      omega
    exact pte_congr (h.upper _ hge) fun hp => by rw [h.kernel _ (h₁.tables.mapsTo ⟨hge, by omega, hp⟩)]

/-- What copyuvm comes to. In both cases the parent, its memory and whatever else is in hand are as
they were. -/
structure Copyuvm (lo : ℕ) (ld : Linkage) (H : Set ℕ) (pgdir sz : ℕ) (m : Mem) (r : Option ℕ)
    (m' : Mem) : Prop where
  other : ∀ f ∈ H, m'.word f = m.word f
  parent : ∀ v, v < 2 ^ 20 → pte m' pgdir v = pte m pgdir v
  cloned : ∀ d, r = some d → ∃ m₁, setupkvm lo ld m = .ok (some d, m₁) ∧ Cloned lo H pgdir sz m m₁ d m'
  failed : r = none → m'.freelist.Perm m.freelist
  /-- There is a copy if there are frames for the pages, for their tables, and for the kernel's
  half. -/
  enough : 513 + (sz + 4095) / 4096 + tables ((sz + 4095) / 4096) < m.freelist.length → r ≠ none

theorem Copyuvm.of_failed (hf : Frames lo H m) (hb : Backed m pgdir sz H) (hf' : Frames lo H m')
    (hw : ∀ f ∈ H, m'.word f = m.word f)
    (hfew : m.freelist.length ≤ 513 + (sz + 4095) / 4096 + tables ((sz + 4095) / 4096)) :
    Copyuvm lo ld H pgdir sz m none m' :=
  ⟨hw, fun _ hv => hb.pte_same hw hv, fun _ hd => (by cases hd),
    fun _ => (List.perm_ext_iff_of_nodup hf'.nodup hf.nodup).mpr fun f => hf.same_free hf' f,
      fun h => by omega⟩

end

/-- **copyuvm makes a copy of the parent's memory, or gives back every frame that it took.** -/
theorem copyuvm_clones (lo : ℕ) (ld : Linkage) (cur pgdir sz : ℕ) (H : Set ℕ) (m : Mem)
    (hf : Frames lo H m) (hb : Backed m pgdir sz H) :
    ∃ r m', copyuvm lo ld cur pgdir sz m = .ok (r, m') ∧ Copyuvm lo ld H pgdir sz m r m' := by
  refine Sat.exists_run ?_
  unfold copyuvm
  refine (sat_setupkvm hf).run.bind fun r m₁ hr => ?_
  obtain ⟨hr, hrun⟩ := hr
  cases r with
  | none => exact .pure (.of_failed hf hb hr.1 hr.2.1 (by omega))
  | some d =>
    obtain ⟨⟨K, h1⟩, hw1, -, habs, hcost⟩ := hr
    have hlen : m₁.freelist.length ≤ NFRAME := h1.frames.length_le
    have hstart : Copying lo K H pgdir d 0 m m₁ m₁ :=
      ⟨h1, hw1, .of_dir rfl, fun _ _ => rfl, fun u hu => absurd hu (Nat.not_lt_zero u),
        fun u _ hu => habs u hu, hlen, by omega⟩
    refine (Copying.sat_copyPages hb _ 0 m₁ hstart (by omega) (by omega)).bind fun r m2 hr => ?_
    cases r with
    | true =>
      obtain ⟨v, hv, h2⟩ := hr
      simp only [if_true]
      refine .pure ⟨h2.other, fun v hv => hb.pte_same h2.other hv, fun e he => ?_, fun h =>
        (by cases h), fun _ h => by cases h⟩
      cases he
      exact ⟨m₁, hrun, h2.cloned hf hb h1 hv⟩
    | false =>
      obtain ⟨h2, hw2, hfew⟩ := hr
      simp only [Bool.false_eq_true, if_false]
      refine (sat_freevm h2).bind ?_
      rintro _ m3 ⟨hf3, hw3⟩
      exact .pure (.of_failed hf hb hf3 (fun f hf => (hw3 f hf).trans (hw2 f hf)) (by omega))

/-! ### A process with one page -/

open Growproc (onePage)

/-- The frames that are not free. -/
abbrev taken : Set ℕ := { f | 100 ≤ f ∧ f < NFRAME ∧ ¬(103 ≤ f ∧ f < 1103) }

theorem frames_onePage : Frames 100 taken onePage := by
  refine ⟨by norm_num, List.nodup_range', fun f hf => ⟨hf.1, hf.2.1⟩, fun f => List.mem_range'_1.trans ?_⟩
  show _ ↔ 100 ≤ f ∧ f < 0xE000 ∧ ¬(100 ≤ f ∧ f < 0xE000 ∧ ¬(103 ≤ f ∧ f < 1103))
  omega

theorem backed_onePage : Backed onePage 100 4096 taken := by
  refine ⟨by decide, fun j _ hp => ?_, fun v _ hp => ?_, fun v hv => ?_⟩
  · rw [Growproc.dir_onePage] at hp ⊢
    by_cases hj : j = 0
    · rw [if_pos hj]
      decide
    · rw [if_neg hj] at hp
      cases hp
  · rw [Growproc.pte_onePage] at hp ⊢
    by_cases hv : v = 0
    · rw [if_pos hv]
      decide
    · rw [if_neg hv] at hp
      cases hp
  · rw [Growproc.pte_onePage, if_pos (by omega)]
    decide

/-- A kernel with one page of text. -/
def textPage : Linkage := ⟨0x80101000, by decide, by decide, by decide⟩

/-- The process of `onePage` forks, and there is a copy of its memory. -/
theorem copyuvm_clones_onePage : (Frames 100 taken onePage ∧ Backed onePage 100 4096 taken) ∧
    ∃ d m₁ m', copyuvm 100 textPage 100 100 4096 onePage = .ok (some d, m') ∧
      setupkvm 100 textPage onePage = .ok (some d, m₁) ∧ Cloned 100 taken 100 4096 onePage m₁ d m' := by
  obtain ⟨r, m', hrun, h⟩ := copyuvm_clones 100 textPage 100 100 4096 taken onePage frames_onePage
    backed_onePage
  cases r with
  | none =>
    have hlen : onePage.freelist.length = 1000 := List.length_range'
    exact absurd rfl (h.enough (by rw [hlen]; decide))
  | some d =>
    obtain ⟨m₁, hset, hc⟩ := h.cloned d rfl
    exact ⟨⟨frames_onePage, backed_onePage⟩, d, m₁, m', hrun, hset, hc⟩

end Xv6.Vm
