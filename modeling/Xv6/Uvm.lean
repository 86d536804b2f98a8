/-
# Exact growth and release of user memory

What the two functions that change the size of a user address space come to, frame by frame.
allocuvm maps the pages between the two sizes and no others, each to a frame that was free, or it
gives back every frame that it took for a page; page tables that it made on the way stay. deallocuvm
unmaps the pages between the sizes that are there and frees the frame of each once. It skips a page
directory entry at a time where there is no table, and each round of its loop takes it further:
rounds beyond the bound of the model do nothing.

Frames are accounted for by `Space` alone: a frame that was free and is not any more has to be in
the address space.
-/
import Xv6.Growproc

namespace Xv6.Vm

open Prog

/-- `u` is one of the pages of `[PGROUNDUP(lower), upper)`. -/
def Between (lower upper u : ℕ) : Prop := PGROUNDUP lower ≤ 4096 * u ∧ 4096 * u < upper

/-- The address space has the pages up to `newsz`, the new ones zero, writable and in frames that
were free. -/
structure Extended (lo pgdir : ℕ) (F : Set ℕ) (oldsz newsz : ℕ) (m m' : Mem) : Prop where
  space : Space lo pgdir F m'
  new : ∀ u, Between oldsz (PGROUNDUP newsz) u → ∃ f, f ∈ m.freelist ∧ f ∉ m'.freelist ∧
    pte m' pgdir u = userEntry f ∧ m'.word f = fun _ => 0
  distinct : ∀ u v, Between oldsz (PGROUNDUP newsz) u → Between oldsz (PGROUNDUP newsz) v →
    frameOf (pte m' pgdir u) = frameOf (pte m' pgdir v) → u = v
  kept : Keeps pgdir (fun u => ¬Between oldsz (PGROUNDUP newsz) u) F m m'

/-- The user mappings are as they were, and the frames that have been taken are those of new page
tables. -/
structure Restored (lo pgdir : ℕ) (F : Set ℕ) (m m' : Mem) : Prop where
  space : Space lo pgdir F m'
  unmoved : Growproc.Unmoved pgdir m m'
  taken : ∀ f, f ∈ m.freelist → f ∉ m'.freelist →
    ∃ d, present (m.word pgdir d) = false ∧ present (m'.word pgdir d) = true ∧
      frameOf (m'.word pgdir d) = f
  other : ∀ f ∈ F, m'.word f = m.word f

/-- The pages from `newsz` to `oldsz` that were there are not any more, and their frames are free.
Otherwise only entries of these pages have changed. -/
structure Shrunk (lo pgdir : ℕ) (F : Set ℕ) (oldsz newsz : ℕ) (m m' : Mem) : Prop where
  space : Space lo pgdir F m'
  gone : ∀ u, Between newsz oldsz u → present (pte m' pgdir u) = false
  freed : ∃ L, m'.freelist = L ++ m.freelist ∧ L.Nodup ∧
    ∀ f, f ∈ L ↔ ∃ u, Between newsz oldsz u ∧ present (pte m pgdir u) = true ∧ frameOf (pte m pgdir u) = f
  kept : Keeps pgdir (fun u => ¬Between newsz oldsz u) F m m'
  dir : m'.word pgdir = m.word pgdir
  word : ∀ f, m'.word f ≠ m.word f → ∃ u, Between newsz oldsz u ∧ present (pte m pgdir u) = true ∧
    (f = frameOf (pte m pgdir u) ∨ f = frameOf (m.word pgdir (u / 1024)))

section

variable {lo pgdir oldsz newsz f u v : ℕ} {F : Set ℕ} {U : ℕ → Prop} {m m' : Mem}

theorem between_iff (hsz : newsz ≤ KERNBASE) : Between newsz oldsz u ↔ newsz ≤ 4096 * u ∧
    4096 * u < oldsz := by
  unfold Between
  rw [PGROUNDUP_eq hsz]
  omega

theorem between_roundup (hold : oldsz ≤ KERNBASE) (hnew : newsz ≤ KERNBASE) :
    Between oldsz (PGROUNDUP newsz) u ↔ (oldsz + 4095) / 4096 ≤ u ∧ 4096 * u < newsz := by
  unfold Between
  rw [PGROUNDUP_eq hold, PGROUNDUP_eq hnew]
  omega

theorem lt_npage (hsz : oldsz ≤ KERNBASE) (hu : 4096 * u < oldsz) : u < NPAGE := by
  have : oldsz ≤ 0x80000000 := hsz
  show u < 0x80000
  omega

/-! ### Which frames have changed hands -/

/-- The frame of a new page was free. -/
theorem Space.was_free (h : Space lo pgdir F m) (h' : Space lo pgdir F m') (hg : Grows pgdir m m')
    (hk : Keeps pgdir U F m m') (hU : ∀ v, v < NPAGE → present (pte m pgdir v) = true → U v)
    (hu : u < NPAGE) (habs : present (pte m pgdir u) = false) (hp : present (pte m' pgdir u) = true) :
    frameOf (pte m' pgdir u) ∈ m.freelist := by
  have hsite := site_page hu hp
  have hne : sites m' pgdir (.page u) ≠ 0 := by
    rw [hsite]
    exact h'.page u hu hp
  obtain ⟨hlo, hhi⟩ := h'.own.range (.page u) hne
  rw [← hsite]
  by_contra hno
  -- it was in some hand, and is still
  rcases (h.own.marked _ hlo hhi).mp (by simpa using hno) with ⟨x, hx⟩ | hF
  · have hx' : sites m' pgdir x = sites m' pgdir (.page u) := by
      cases x with
      | dir => exact hx
      | table d =>
        have hd : d < 512 ∧ present (m.word pgdir d) = true := by
          by_contra hd
          exact hne (hx.symm.trans (if_neg hd))
        rw [← hx]
        simp only [sites, hg d hd.2]
      | page v =>
        have hv : v < NPAGE ∧ present (pte m pgdir v) = true := by
          by_contra hv
          exact hne (hx.symm.trans (if_neg hv))
        rw [← hx]
        simp only [sites, hk.pte v hv.1 (hU v hv.1 hv.2)]
    have hxu := h'.own.inj x (.page u) (hx' ▸ hne) hx'
    subst hxu
    exact hne (hx.symm.trans (if_neg (by simp [habs])))
  · exact (h'.own.flight _ hF).2 (.page u) rfl

/-- A frame that was free and is not has become a page table, unless there are new pages. -/
theorem Space.taken (h : Space lo pgdir F m) (h' : Space lo pgdir F m') (hg : Grows pgdir m m')
    (hpage : ∀ v, v < NPAGE → present (pte m' pgdir v) = true → present (pte m pgdir v) = true ∧
      pte m' pgdir v = pte m pgdir v)
    (hf : f ∈ m.freelist) (hf' : f ∉ m'.freelist) :
    ∃ d, present (m.word pgdir d) = false ∧ present (m'.word pgdir d) = true ∧
    frameOf (m'.word pgdir d) = f := by
  obtain ⟨hlo, hsite, hF⟩ := h.free hf
  have hpos := h.own.pos
  rcases (h'.own.marked f hlo (h.range f hf)).mp (by simpa using hf') with ⟨x, hx⟩ | hF'
  · cases x with
    | dir => exact absurd hx (hsite .dir)
    | table d =>
      have hd : d < 512 ∧ present (m'.word pgdir d) = true := by
        by_contra hd
        have : f = 0 := hx.symm.trans (if_neg hd)
        omega
      rw [site_table hd.1 hd.2] at hx
      refine ⟨d, ?_, hd.2, hx⟩
      by_contra hp
      rw [Bool.not_eq_false] at hp
      rw [hg d hp] at hx
      exact hsite (.table d) ((site_table hd.1 hp).trans hx)
    | page v =>
      have hv : v < NPAGE ∧ present (pte m' pgdir v) = true := by
        by_contra hv
        have : f = 0 := hx.symm.trans (if_neg hv)
        omega
      obtain ⟨hp, heq⟩ := hpage v hv.1 hv.2
      rw [site_page hv.1 hv.2, heq] at hx
      exact absurd ((site_page hv.1 hp).trans hx) (hsite (.page v))
  · exact absurd hF' hF

/-! ### The loop of deallocuvm ends -/

/-- Once there are rounds enough, more of them make no difference. -/
theorem deallocFrom_fuel (hsz : oldsz ≤ KERNBASE) (k : ℕ) :
    ∀ (fuel v : ℕ), oldsz ≤ 4096 * v + 4096 * fuel → deallocFrom lo pgdir oldsz (fuel + k)
    (4096 * v) = deallocFrom lo pgdir oldsz fuel (4096 * v)
  | 0, v, hfuel => by
    rw [Nat.zero_add]
    cases k with
    | zero => rfl
    | succ k =>
      unfold deallocFrom
      rw [if_pos (by omega)]
  | fuel + 1, v, hfuel => by
    rw [show fuel + 1 + k = fuel + k + 1 by omega]
    unfold deallocFrom
    by_cases hle : oldsz ≤ 4096 * v
    · rw [if_pos hle, if_pos hle]
    · rw [if_neg hle, if_neg hle]
      have hv : v < NPAGE := lt_npage hsz (by omega)
      have hskip : (PDX (4096 * v) + 1) * 2 ^ 22 = 4096 * ((v / 1024 + 1) * 1024) := by
        rw [PDX_page hv]
        omega
      have hnone := deallocFrom_fuel hsz k fuel ((v / 1024 + 1) * 1024) (by omega)
      have hsome := deallocFrom_fuel hsz k fuel (v + 1) (by omega)
      rw [Nat.mul_add, Nat.mul_one] at hsome
      congr 1
      funext r
      cases r with
      | none =>
        simp only [hskip]
        exact hnone
      | some p => simp only [hsome]

/-! ### The two functions -/

theorem alloc_spec (h : Space lo pgdir F m) (hle : oldsz ≤ newsz) (hsz : newsz < KERNBASE)
    (habs : ∀ u, u < NPAGE → PGROUNDUP oldsz ≤ 4096 * u → present (pte m pgdir u) = false) :
    Sat (allocuvm lo pgdir oldsz newsz) m (fun r m' => r = newsz ∧ Extended lo pgdir F oldsz newsz m m' ∨
      r = 0 ∧ Restored lo pgdir F m m') fun _ => False := by
  have hold : oldsz ≤ KERNBASE := by omega
  have habs' : ∀ u, u < NPAGE → oldsz ≤ 4096 * u → present (pte m pgdir u) = false := fun u hu hou =>
    habs u hu (by rw [PGROUNDUP_eq hold]; omega)
  have hrange : ∀ u, Between oldsz (PGROUNDUP newsz) u ↔ (oldsz + 4095) / 4096 ≤ u ∧
    4096 * u < newsz := fun u =>
    between_roundup hold hsz.le
  refine (sat_allocuvm hsz hle h habs').post ?_
  rintro r m' ⟨⟨h', ⟨rfl, hfill, -⟩ | ⟨rfl, hc, -⟩⟩, hg, -, hent⟩
  · have hfill := hfill.congr hrange
    have hpage : ∀ u, Between oldsz (PGROUNDUP r) u → u < NPAGE :=
      fun u hu => lt_npage hsz.le ((hrange u).mp hu).2
    refine .inl ⟨rfl, h', fun u hu => ?_, fun u v hu hv heq => ?_, hfill.keeps⟩
    · have hu' := (hrange u).mp hu
      obtain ⟨f, hf, hpte⟩ := hent rfl (by omega) u hu'.1 hu'.2
      have hframe : frameOf (pte m' pgdir u) = f := by rw [hpte, frameOf_userEntry hf]
      have hp := hfill.new u (hpage u hu) hu
      have hfree : f ∈ m.freelist := by
        rw [← hframe]
        refine h.was_free h' hg hfill.keeps (fun v hv hpv hbv => ?_) (hpage u hu)
          (habs u (hpage u hu) hu.1) hp
        rw [habs v hv hbv.1] at hpv
        cases hpv
      refine ⟨f, hfree, fun hmem => ?_, hpte, ?_⟩
      · exact (h'.free hmem).2.1 (.page u) ((site_page (hpage u hu) hp).trans hframe)
      · rw [← hframe]
        exact hfill.zero u (hpage u hu) hu
    · have hpu := hfill.new u (hpage u hu) hu
      have hpv := hfill.new v (hpage v hv) hv
      have := h'.own.inj (.page u) (.page v)
        (by rw [site_page (hpage u hu) hpu]; exact h'.page u (hpage u hu) hpu)
        (by rw [site_page (hpage u hu) hpu, site_page (hpage v hv) hpv, heq])
      exact Site.page.inj this
  · -- what has been cleared was not there before
    have hunmoved : Growproc.Unmoved pgdir m m' := fun v hv => by
      by_cases hR : oldsz ≤ 4096 * v ∧ 4096 * v < newsz
      · rw [habs' v hv hR.1, hc.absent v hv hR]
        exact ⟨rfl, fun hp => by cases hp⟩
      · exact ⟨by rw [hc.keeps.pte v hv hR], fun hp => ⟨hc.keeps.pte v hv hR, hc.keeps.page v hv hR hp⟩⟩
    refine .inr ⟨rfl, h', hunmoved, fun f hf hf' => h.taken h' hg (fun v hv hp => ?_) hf hf',
      hc.keeps.other⟩
    have hp' : present (pte m pgdir v) = true := by rw [← (hunmoved v hv).1, hp]
    exact ⟨hp', ((hunmoved v hv).2 hp').1⟩

theorem Shrunk.refl (h : Space lo pgdir F m) (hle : oldsz ≤ newsz) (hsz : newsz ≤ KERNBASE) :
    Shrunk lo pgdir F oldsz newsz m m := by
  have hno : ∀ u, ¬Between newsz oldsz u := fun u hu => by
    rw [between_iff hsz] at hu
    omega
  refine ⟨h, fun u hu => absurd hu (hno u), ⟨[], rfl, List.nodup_nil, fun f => ?_⟩, .refl m, rfl,
    fun f hf => absurd rfl hf⟩
  exact iff_of_false (by simp) fun ⟨u, hu, _⟩ => hno u hu

theorem Unmapped.shrunk (h' : Space lo pgdir F m') (hsz : oldsz ≤ KERNBASE) (hle : newsz ≤ oldsz)
    (hun : Unmapped pgdir (fun u => newsz ≤ 4096 * u ∧ 4096 * u < oldsz) F m m') :
    Shrunk lo pgdir F oldsz newsz m m' := by
  have hun : Unmapped pgdir (Between newsz oldsz) F m m' := hun.congr fun u => between_iff (hle.trans hsz)
  have hpage : ∀ u, Between newsz oldsz u → u < NPAGE := fun u hu => lt_npage hsz hu.2
  obtain ⟨L, hL, hmem⟩ := hun.freed
  refine ⟨h', fun u hu => hun.absent u (hpage u hu) hu, ⟨L, hL, ?_, fun f => ?_⟩, hun.keeps,
    hun.dir, fun f hf => ?_⟩
  · have := h'.nodup
    rw [hL] at this
    exact this.of_append_left
  · rw [hmem]
    exact ⟨fun ⟨u, _, hu⟩ => ⟨u, hu⟩, fun ⟨u, hu⟩ => ⟨u, hpage u hu.1, hu⟩⟩
  · obtain ⟨u, -, hu⟩ := hun.word f hf
    exact ⟨u, hu⟩

theorem dealloc_spec (h : Space lo pgdir F m) (hle : newsz ≤ oldsz) (hsz : oldsz ≤ KERNBASE) :
    Sat (deallocuvm lo pgdir oldsz newsz) m (fun r m' => r = newsz ∧ Shrunk lo pgdir F oldsz newsz m
      m') fun _ => False := by
  rcases Nat.lt_or_ge newsz oldsz with hlt | hge
  · refine (sat_deallocuvm hsz hlt h).post ?_
    rintro r m' ⟨rfl, h', hun⟩
    exact ⟨rfl, hun.shrunk h' hsz hle⟩
  · unfold deallocuvm
    rw [if_pos hge]
    exact .pure ⟨by omega, .refl h hge (by omega)⟩

end

/-- **User memory grows and shrinks exactly.** -/
theorem allocuvm_deallocuvm (lo pgdir : ℕ) (F : Set ℕ) (m : Mem) (h : Space lo pgdir F m) :
    (∀ oldsz newsz, oldsz ≤ newsz → newsz < KERNBASE →
      (∀ u, u < NPAGE → PGROUNDUP oldsz ≤ 4096 * u → present (pte m pgdir u) = false) →
      ∃ r m', allocuvm lo pgdir oldsz newsz m = .ok (r, m') ∧
        (r = newsz ∧ Extended lo pgdir F oldsz newsz m m' ∨ r = 0 ∧ Restored lo pgdir F m m')) ∧
    ∀ oldsz newsz, newsz ≤ oldsz → oldsz ≤ KERNBASE →
      (∃ m', deallocuvm lo pgdir oldsz newsz m = .ok (newsz, m') ∧ Shrunk lo pgdir F oldsz newsz m m') ∧
      ∀ k, deallocFrom lo pgdir oldsz (oldsz / 4096 + 1 + k) (PGROUNDUP newsz) =
        deallocFrom lo pgdir oldsz (oldsz / 4096 + 1) (PGROUNDUP newsz) := by
  refine ⟨fun oldsz newsz hle hsz habs => (alloc_spec h hle hsz habs).exists_run,
    fun oldsz newsz hle hsz => ⟨?_, fun k => ?_⟩⟩
  · obtain ⟨r, m', hrun, rfl, hs⟩ := (dealloc_spec h hle hsz).exists_run
    exact ⟨m', hrun, hs⟩
  · rw [PGROUNDUP_eq (hle.trans hsz)]
    exact deallocFrom_fuel hsz k _ _ (by omega)

/-- A process with one page gets a second one, and then loses both. -/
theorem allocuvm_deallocuvm_one_page : Space 100 100 Growproc.others Growproc.onePage ∧
    (∃ r m', allocuvm 100 100 4096 8192 Growproc.onePage = .ok (r, m') ∧
      (r = 8192 ∧ Extended 100 100 Growproc.others 4096 8192 Growproc.onePage m' ∨
        r = 0 ∧ Restored 100 100 Growproc.others Growproc.onePage m')) ∧
    ∃ m', deallocuvm 100 100 4096 0 Growproc.onePage = .ok (0, m') ∧
      Shrunk 100 100 Growproc.others 4096 0 Growproc.onePage m' := by
  obtain ⟨halloc, hdealloc⟩ := allocuvm_deallocuvm 100 100 Growproc.others Growproc.onePage
    Growproc.space_onePage
  refine ⟨Growproc.space_onePage, halloc 4096 8192 (by norm_num) (by decide) fun u _ hu => ?_,
    (hdealloc 4096 0 (by norm_num) (by decide)).1⟩
  have hu : 4096 ≤ 4096 * u := hu
  rw [Growproc.pte_onePage, if_neg (by omega)]
  rfl

end Xv6.Vm
