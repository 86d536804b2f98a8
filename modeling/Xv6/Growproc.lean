/-
# sbrk

growproc of proc.c grows or shrinks the memory of the process that calls it, over the page tables of
Vm.lean and under `ptable.lock`. Sizes are 32-bit numbers, and so is `sz + n`: with an `n` below
`-sz` it wraps around.

It does what it should exactly where the new size is between 1 and `KERNBASE` and there are frames
enough. Elsewhere it returns -1 with the lock held; brings the size down to 0 by unmapping every
page and saying that it failed; and takes a size below 0 for nothing to do.
-/
import Xv6.Vm
import Xv6.Param

namespace Xv6.Vm.Growproc

open Prog

/-- What sbrk needs of a process. -/
structure Proc where
  pid : Int32
  sz : UInt32
  pgdir : ℕ

/-- The process table, with its slots in `ι`, and memory. -/
structure State (ι : Type) where
  mem : Mem
  /-- `ptable.lock` is held. -/
  locked : Bool
  proc : ι → Proc

section

variable {ι : Type} [DecidableEq ι] {sz' : ℕ}

def onMem {α : Type} (x : VmM α) : Prog String (State ι) α :=
  zoom State.mem (fun s m => { s with mem := m }) x

def acquire : Prog String (State ι) Unit := do
  let s ← get
  if s.locked then stop "acquire"
  else modify fun s => { s with locked := true }

def release : Prog String (State ι) Unit := do
  let s ← get
  if !s.locked then stop "release"
  else modify fun s => { s with locked := false }

/-- The size as a 32-bit number. -/
def newSize (sz : UInt32) (n : Int32) : ℕ := (sz + n.toUInt32).toNat

/-- Grow or shrink, by the sign of `n`. -/
def resize (lo pgdir : ℕ) (sz : UInt32) (n : Int32) : VmM ℕ :=
  if 0 < n then allocuvm lo pgdir sz.toNat (newSize sz n)
  else if n < 0 then deallocuvm lo pgdir sz.toNat (newSize sz n)
  else pure sz.toNat

/-- Every thread of the process of `cur`, known by its pid, gets the size. -/
def setSizes (proc : ι → Proc) (cur : ι) (sz : UInt32) : ι → Proc := fun p =>
  if (proc p).pid = (proc cur).pid then { proc p with sz := sz } else proc p

/-- Grow current process's memory by n bytes. Return 0 on success, -1 on failure. -/
def growproc (lo : ℕ) (cur : ι) (n : Int32) : Prog String (State ι) ℤ := do
  acquire
  let s ← get
  let sz ← onMem (resize lo (s.proc cur).pgdir (s.proc cur).sz n)
  if n ≠ 0 ∧ sz = 0 then pure (-1)
  else do
    modify fun s => { s with proc := setSizes s.proc cur (UInt32.ofNat sz) }
    modify fun s =>
      { s with proc := Function.update s.proc cur { s.proc cur with sz := UInt32.ofNat sz } }
    release
    pure 0

/-! ### The contract -/

variable {lo pgdir : ℕ} {F : Set ℕ} {m m' : Mem} {p : Proc} {n : Int32} {sz : UInt32} {cur : ι}
    {s : State ι}

/-- The pages below `PGROUNDUP(sz)` are the mapped user pages. -/
def Fills (m : Mem) (p : Proc) : Prop :=
  p.sz.toNat ≤ KERNBASE ∧ ∀ v, v < NPAGE → (present (pte m p.pgdir v) = true ↔ 4096 * v < p.sz.toNat)

/-- The memory below `sz` has become the memory below `sz'`: the pages of both are the same, with
their contents, and the new ones zero. -/
structure Grew (pgdir : ℕ) (m m' : Mem) (sz sz' : ℕ) : Prop where
  mapped : ∀ v, v < NPAGE → (present (pte m' pgdir v) = true ↔ 4096 * v < sz')
  pte : ∀ v, v < NPAGE → 4096 * v < sz → 4096 * v < sz' → pte m' pgdir v = pte m pgdir v
  kept : ∀ v, v < NPAGE → 4096 * v < sz → 4096 * v < sz' →
    m'.word (frameOf (Vm.pte m pgdir v)) = m.word (frameOf (Vm.pte m pgdir v))
  zero : ∀ v, v < NPAGE → sz ≤ 4096 * v → 4096 * v < sz' → m'.word (frameOf (Vm.pte m' pgdir v)) =
    fun _ => 0

/-- The user mappings are what they were, with the contents of the pages. -/
def Unmoved (pgdir : ℕ) (m m' : Mem) : Prop :=
  ∀ v, v < NPAGE → present (pte m' pgdir v) = present (pte m pgdir v) ∧
    (present (pte m pgdir v) = true → pte m' pgdir v = pte m pgdir v ∧
      m'.word (frameOf (pte m pgdir v)) = m.word (frameOf (pte m pgdir v)))

/-- The new size is one that a process can have, and there are frames for the pages and their
tables. -/
def Fits (m : Mem) (p : Proc) (n : Int32) : Prop :=
  0 ≤ p.sz.toNat + n.toInt ∧ p.sz.toNat + n.toInt < KERNBASE ∧ (n < 0 → p.sz.toNat + n.toInt ≠ 0) ∧
    (0 < n → need m p.pgdir ((p.sz.toNat + 4095) / 4096)
      (((p.sz.toNat + n.toInt).toNat + 4095) / 4096) ≤ m.freelist.length)

instance : Decidable (Fits m p n) := by
  unfold Fits
  infer_instance

/-- There are fewer frames than pages below `KERNBASE`. -/
theorem Fills.lt (h : Fills m p) (hs : Space lo p.pgdir F m) : p.sz.toNat < KERNBASE := by
  refine lt_of_le_of_ne h.1 fun heq => ?_
  have hp : ∀ v, v < NPAGE → present (pte m p.pgdir v) = true := fun v hv => by
    have hv' : v < 0x80000 := hv
    rw [h.2 v hv, heq]
    show 4096 * v < 0x80000000
    omega
  have hframe : ∀ v, v < NPAGE → frameOf (pte m p.pgdir v) < NFRAME := fun v hv => by
    have := hs.own.range (.page v)
    rw [site_page hv (hp v hv)] at this
    exact (this (hs.page v hv (hp v hv))).2
  have hinj : Function.Injective fun v : Fin NPAGE =>
      (⟨frameOf (pte m p.pgdir v), hframe v v.2⟩ : Fin NFRAME) := fun v u hvu => by
    have heq : frameOf (pte m p.pgdir v) = frameOf (pte m p.pgdir u) := Fin.mk.inj hvu
    have := hs.own.inj (.page v) (.page u)
      (by rw [site_page v.2 (hp v v.2)]; exact hs.page v v.2 (hp v v.2))
      (by rw [site_page v.2 (hp v v.2), site_page u.2 (hp u u.2), heq])
    exact Fin.ext (Site.page.inj this)
  have hcard := Fintype.card_le_of_injective _ hinj
  rw [Fintype.card_fin, Fintype.card_fin] at hcard
  exact absurd hcard (by decide)

/-! ### The size as an integer -/

theorem neg_iff : n < 0 ↔ n.toInt < 0 := by rw [Int32.lt_iff_toInt_lt, Int32.toInt_zero]

theorem pos_iff : 0 < n ↔ 0 < n.toInt := by rw [Int32.lt_iff_toInt_lt, Int32.toInt_zero]

theorem toNat_toUInt32 (n : Int32) :
    (n.toUInt32.toNat : ℤ) = if n.toInt < 0 then n.toInt + 2 ^ 32 else n.toInt := by
  have h : n.toInt = if 2 * n.toUInt32.toNat < 2 ^ 32 then (n.toUInt32.toNat : ℤ)
      else n.toUInt32.toNat - 2 ^ 32 :=
    BitVec.toInt_eq_toNat_cond n.toBitVec
  have hlt : n.toUInt32.toNat < 2 ^ 32 := n.toUInt32.toNat_lt
  split at h <;> split <;> omega

/-- An `n` from `-sz` on gives the size it should, and one below a size that is larger. -/
theorem newSize_eq (hsz : sz.toNat < KERNBASE) (n : Int32) :
    (newSize sz n : ℤ) =
    if sz.toNat + n.toInt < 0 then sz.toNat + n.toInt + 2 ^ 32 else sz.toNat + n.toInt := by
  have hK : sz.toNat < 0x80000000 := hsz
  have hn := toNat_toUInt32 n
  have hlo : -2 ^ 31 ≤ n.toInt := n.minValue_le_toInt
  have hhi : n.toInt < 2 ^ 31 := n.toInt_lt
  unfold newSize
  rw [UInt32.toNat_add]
  split at hn <;> split <;> omega

/-! ### Growing and shrinking -/

theorem Grew.refl (h : Fills m p) : Grew p.pgdir m m p.sz.toNat p.sz.toNat :=
  ⟨h.2, fun _ _ _ _ => rfl, fun _ _ _ _ => rfl, fun _ _ _ _ => by omega⟩

theorem Unmoved.refl : Unmoved pgdir m m := fun _ _ => ⟨rfl, fun _ => ⟨rfl, rfl⟩⟩

theorem Fills.grew_filled (h : Fills m p) (hle : p.sz.toNat ≤ sz')
    (hf : Filled p.pgdir (fun u => (p.sz.toNat + 4095) / 4096 ≤ u ∧ 4096 * u < sz') F m m') :
    Grew p.pgdir m m' p.sz.toNat sz' := by
  refine ⟨fun v hv => ?_, fun v hv hlt _ => hf.keeps.pte v hv (by omega),
    fun v hv hlt _ => hf.keeps.page v hv (by omega) ((h.2 v hv).mpr hlt), fun v hv hge hlt =>
      hf.zero v hv (by omega)⟩
  by_cases hR : (p.sz.toNat + 4095) / 4096 ≤ v ∧ 4096 * v < sz'
  · exact iff_of_true (hf.new v hv hR) hR.2
  · rw [hf.keeps.pte v hv hR, h.2 v hv]
    omega

theorem Fills.grew_cleared (h : Fills m p)
    (hc : Cleared p.pgdir (fun u => sz' ≤ 4096 * u ∧ 4096 * u < p.sz.toNat) F m m')
    (hle : sz' ≤ p.sz.toNat) : Grew p.pgdir m m' p.sz.toNat sz' := by
  refine ⟨fun v hv => ?_, fun v hv _ hlt => hc.keeps.pte v hv (by omega),
    fun v hv hlt hlt' => hc.keeps.page v hv (by omega) ((h.2 v hv).mpr hlt), fun v hv hge hlt => by omega⟩
  by_cases hR : sz' ≤ 4096 * v ∧ 4096 * v < p.sz.toNat
  · rw [hc.absent v hv hR]
    exact iff_of_false (by simp) (by omega)
  · rw [hc.keeps.pte v hv hR, h.2 v hv]
    omega

/-- Pages that were not mapped before the call are not after it. -/
theorem Fills.unmoved_cleared (h : Fills m p)
    (hc : Cleared p.pgdir (fun u => p.sz.toNat ≤ 4096 * u ∧ 4096 * u < sz') F m m') :
    Unmoved p.pgdir m m' := fun v hv => by
  by_cases hR : p.sz.toNat ≤ 4096 * v ∧ 4096 * v < sz'
  · have habs : present (pte m p.pgdir v) = false := by
      rw [← Bool.not_eq_true, h.2 v hv]
      omega
    rw [habs, hc.absent v hv hR]
    exact ⟨rfl, fun h => by cases h⟩
  · exact ⟨by rw [hc.keeps.pte v hv hR], fun hp => ⟨hc.keeps.pte v hv hR, hc.keeps.page v hv hR hp⟩⟩

/-- What `resize` comes to: the size it returns is 0 where the call fails. -/
structure Resized (lo : ℕ) (F : Set ℕ) (p : Proc) (n : Int32) (m : Mem) (sz : ℕ) (m' : Mem) : Prop where
  space : Space lo p.pgdir F m'
  other : ∀ f ∈ F, m'.word f = m.word f
  range : sz < 2 ^ 32
  grew : 0 ≤ p.sz.toNat + n.toInt → ¬(n ≠ 0 ∧ sz = 0) →
    p.sz.toNat + n.toInt < KERNBASE ∧ (sz : ℤ) = p.sz.toNat + n.toInt ∧ Grew p.pgdir m m' p.sz.toNat sz
  failed : n ≠ 0 ∧ sz = 0 → ¬(n < 0 ∧ p.sz.toNat + n.toInt = 0) → Unmoved p.pgdir m m'
  /-- It fails, unless there is room, or the size wraps and was not 0. -/
  fits : ¬(n ≠ 0 ∧ sz = 0) ↔ Fits m p n ∨ 0 < p.sz.toNat ∧ p.sz.toNat + n.toInt < 0

section

variable (hs : Space lo p.pgdir F m) (hf : Fills m p)

include hs hf

theorem sat_grow (hn : 0 < n) :
    Sat (allocuvm lo p.pgdir p.sz.toNat (newSize p.sz n)) m (Resized lo F p n m) fun _ => False := by
  have hw := newSize_eq (hf.lt hs) n
  have hne : n ≠ 0 := fun heq => by simp [heq] at hn
  have hpos : 0 < n.toInt := pos_iff.mp hn
  rw [if_neg (by omega)] at hw
  by_cases hK : KERNBASE ≤ newSize p.sz n
  · unfold allocuvm
    rw [if_pos hK]
    refine .pure ⟨hs, fun _ _ => rfl, by norm_num, fun _ h0 => absurd ⟨hne, rfl⟩ h0, fun _ _ => .refl,
      iff_of_false (not_not.mpr ⟨hne, rfl⟩) ?_⟩
    rintro (⟨-, hlt, -⟩ | ⟨-, hlt⟩)
    · omega
    · omega
  · refine (sat_allocuvm (by omega) (by omega) hs fun u hu hle => ?_).post ?_
    · rw [← Bool.not_eq_true, hf.2 u hu]
      omega
    · have hnat : (p.sz.toNat + n.toInt).toNat = newSize p.sz n := by omega
      rintro r m' ⟨⟨hs', ⟨rfl, hfill, hfree⟩ | ⟨rfl, hc, hfew⟩⟩, -, -⟩
      · refine ⟨hs', hfill.keeps.other, UInt32.toNat_lt _, fun _ _ =>
          ⟨by omega, hw, hf.grew_filled (by omega) hfill⟩,
          fun h0 =>
            by omega, iff_of_true (by omega) (.inl
              ⟨by omega, by omega, fun hneg => ?_, fun _ => by rwa [hnat]⟩)⟩
        rw [neg_iff] at hneg
        omega
      · refine ⟨hs', hc.keeps.other,
          by norm_num, fun _ h0 => absurd ⟨hne, rfl⟩ h0, fun _ _ => hf.unmoved_cleared hc,
          iff_of_false (not_not.mpr ⟨hne, rfl⟩) ?_⟩
        rintro (⟨-, -, -, hfit⟩ | hlt)
        · have := hfit hn
          rw [hnat] at this
          omega
        · omega

theorem sat_shrink (hn : n < 0) :
    Sat (deallocuvm lo p.pgdir p.sz.toNat (newSize p.sz n)) m (Resized lo F p n m) fun _ => False := by
  have hw := newSize_eq (hf.lt hs) n
  have hneg : n.toInt < 0 := neg_iff.mp hn
  have hne : n ≠ 0 := fun heq => by simp [heq] at hn
  have hK : p.sz.toNat ≤ 0x80000000 := hf.1
  by_cases hwrap : p.sz.toNat + n.toInt < 0
  · -- below 0 the new size wraps around, and there is nothing to free
    rw [if_pos hwrap] at hw
    have hlo : -2 ^ 31 ≤ n.toInt := n.minValue_le_toInt
    unfold deallocuvm
    rw [if_pos (by omega)]
    refine .pure ⟨hs, fun _ _ => rfl, UInt32.toNat_lt _, fun h0 => by omega, fun _ _ => .refl,
      fun h0 => .inr ⟨Nat.pos_of_ne_zero fun hz => h0 ⟨hne, hz⟩, hwrap⟩, ?_⟩
    rintro (⟨hfit, -⟩ | hpos)
    · omega
    · omega
  · rw [if_neg hwrap] at hw
    refine (sat_deallocuvm hf.1 (by omega) hs).post ?_
    rintro r m' ⟨rfl, hs', hun⟩
    have hc := hun.toCleared
    have hlt := hf.lt hs
    refine ⟨hs', hc.keeps.other, UInt32.toNat_lt _, fun _ _ =>
      ⟨by omega, hw, hf.grew_cleared hc (by omega)⟩, fun h0 h0' => ?_,
      fun h0 => .inl ⟨by omega, by omega, fun _ heq => h0 ⟨hne, by omega⟩, fun hpos => ?_⟩, ?_⟩
    · exact absurd ⟨hn, by omega⟩ h0'
    · rw [pos_iff] at hpos
      omega
    · rintro (⟨-, -, hfit, -⟩ | hneg) ⟨-, h0⟩
      · have := hfit hn
        omega
      · omega

theorem sat_resize : Sat (resize lo p.pgdir p.sz n) m (Resized lo F p n m) fun _ => False := by
  unfold resize
  refine .ite (sat_grow hs hf) fun hpos => .ite (sat_shrink hs hf) fun hneg => .pure ?_
  rw [pos_iff] at hpos
  rw [neg_iff] at hneg
  have h0 : n.toInt = 0 := by omega
  have hn : n = 0 := Int32.toInt_inj.mp h0
  have := hf.lt hs
  refine ⟨hs, fun _ _ => rfl, UInt32.toNat_lt _, fun _ _ => ⟨by omega, by omega, .refl hf⟩, fun h =>
    absurd hn h.1,
    iff_of_true (fun h => h.1 hn) (.inl ⟨by omega, by omega, fun hlt => ?_, fun hlt => ?_⟩)⟩
  · exact absurd (neg_iff.mp hlt) hneg
  · exact absurd (pos_iff.mp hlt) hpos

end

/-! ### The call -/

omit [DecidableEq ι] in
theorem sat_acquire (hl : s.locked = false) :
    Sat acquire s (fun _ s' => s' = { s with locked := true }) fun _ => False := by
  refine .get_bind ?_
  rw [if_neg (by simp [hl])]
  exact .modify rfl

omit [DecidableEq ι] in
theorem sat_release (hl : s.locked = true) :
    Sat release s (fun _ s' => s' = { s with locked := false }) fun _ => False := by
  refine .get_bind ?_
  rw [if_neg (by simp [hl])]
  exact .modify rfl

omit [DecidableEq ι] in
theorem setSizes_self (proc : ι → Proc) (cur : ι) (sz : UInt32) :
    setSizes proc cur sz cur = { proc cur with sz := sz } := if_pos rfl

/-- The loop has already done the caller. -/
theorem update_setSizes (proc : ι → Proc) (cur : ι) (sz : UInt32) :
    Function.update (setSizes proc cur sz) cur { proc cur with sz := sz } = setSizes proc cur sz := by
  rw [← setSizes_self]
  exact Function.update_eq_self ..

/-- What a call of growproc keeps to. -/
structure Contract (lo : ℕ) (F : Set ℕ) (s : State ι) (cur : ι) (n : Int32) (r : ℤ) (s' : State ι) :
    Prop where
  returns : r = 0 ∨ r = -1
  space : Space lo (s.proc cur).pgdir F s'.mem
  /-- Memory in other hands is as it was. -/
  other : ∀ f ∈ F, s'.mem.word f = s.mem.word f
  /-- On success, unless `sz + n` is below 0, that is the new size, for all threads of the process,
  and the process has the pages below it. -/
  grown : 0 ≤ (s.proc cur).sz.toNat + n.toInt → r = 0 →
    (s.proc cur).sz.toNat + n.toInt < KERNBASE ∧
    ((s'.proc cur).sz.toNat : ℤ) = (s.proc cur).sz.toNat + n.toInt ∧
    Grew (s.proc cur).pgdir s.mem s'.mem (s.proc cur).sz.toNat (s'.proc cur).sz.toNat ∧
    s'.proc = setSizes s.proc cur (s'.proc cur).sz
  /-- On failure, unless `n` is `-sz`, the process has the size and the pages it had. -/
  failed : ¬(n < 0 ∧ (s.proc cur).sz.toNat + n.toInt = 0) → r = -1 →
    s'.proc = s.proc ∧ Unmoved (s.proc cur).pgdir s.mem s'.mem
  /-- The lock is released on success only. -/
  lock : s'.locked = false ↔ r = 0
  /-- The call succeeds where there is room, and where the size wraps and was not 0. -/
  fits : r = 0 ↔ Fits s.mem (s.proc cur) n ∨ 0 < (s.proc cur).sz.toNat ∧ (s.proc cur).sz.toNat +
    n.toInt < 0

/-- What a call of growproc should come to. -/
structure Meets (s : State ι) (cur : ι) (n : Int32) (r : ℤ) (s' : State ι) : Prop where
  grown : r = 0 → 0 ≤ (s.proc cur).sz.toNat + n.toInt ∧ (s.proc cur).sz.toNat + n.toInt < KERNBASE ∧
    ((s'.proc cur).sz.toNat : ℤ) = (s.proc cur).sz.toNat + n.toInt ∧
    Grew (s.proc cur).pgdir s.mem s'.mem (s.proc cur).sz.toNat (s'.proc cur).sz.toNat
  failed : r = -1 → (s'.proc cur).sz = (s.proc cur).sz ∧ Unmoved (s.proc cur).pgdir s.mem s'.mem
  unlocked : s'.locked = false

omit [DecidableEq ι] in
/-- Where there is no room, the lock stays held or the call succeeds with a negative size. -/
theorem Contract.meets_iff {r : ℤ} {s' : State ι} (h : Contract lo F s cur n r s') :
    Meets s cur n r s' ↔ Fits s.mem (s.proc cur) n := by
  constructor
  · intro hm
    have hr := h.lock.mp hm.unlocked
    exact (h.fits.mp hr).resolve_right fun hneg => not_lt.mpr (hm.grown hr).1 hneg.2
  · intro hfit
    have hr := h.fits.mpr (.inl hfit)
    obtain ⟨hlt, hsz, hgrew, -⟩ := h.grown hfit.1 hr
    exact ⟨fun _ => ⟨hfit.1, hlt, hsz, hgrew⟩, fun hr' => by omega, h.lock.mpr hr⟩

theorem sat_growproc (hs : Space lo (s.proc cur).pgdir F s.mem) (hf : Fills s.mem (s.proc cur))
    (hl : s.locked = false) : Sat (growproc lo cur n) s (Contract lo F s cur n) fun _ => False := by
  unfold growproc
  refine (sat_acquire hl).bind ?_
  rintro _ s1 rfl
  refine .get_bind ?_
  have hres : Sat (onMem (resize lo (s.proc cur).pgdir (s.proc cur).sz n)) { s with locked := true }
      (fun sz s2 => ∃ m', s2 = { s with locked := true, mem := m' } ∧ Resized lo F (s.proc cur) n
        s.mem sz m') fun _ => False :=
    .zoom ((sat_resize hs hf).post fun sz m' h => ⟨m', rfl, h⟩)
  refine hres.bind ?_
  rintro sz _ ⟨m', rfl, h⟩
  refine .ite (fun h0 => ?_) fun h0 => ?_
  · exact .pure ⟨.inr rfl, h.space, h.other, fun _ h1 =>
      by omega, fun h1 _ => ⟨rfl, h.failed h0 h1⟩, by simp,
      iff_of_false (by decide) (h.fits.not.mp (not_not.mpr h0))⟩
  · have hsz : (UInt32.ofNat sz).toNat = sz := UInt32.toNat_ofNat_of_lt' h.range
    refine .modify_bind (.modify_bind ((sat_release rfl).bind ?_))
    rintro _ _ rfl
    refine .pure ⟨.inl rfl, h.space, h.other, fun h1 _ => ?_, fun _ h1 => by omega, by simp,
      iff_of_true rfl (h.fits.mp h0)⟩
    obtain ⟨hlt, heq, hgrew⟩ := h.grew h1 h0
    simp only [setSizes_self, update_setSizes, hsz]
    exact ⟨hlt, heq, hgrew, trivial⟩

/-- **The contract of growproc**, for a process that has the pages below its size and no others:
what a call keeps to, and that it is what it should be exactly where there is room. -/
theorem growproc_contract (lo : ℕ) (F : Set ℕ) (s : State ι) (cur : ι) (n : Int32)
    (hs : Space lo (s.proc cur).pgdir F s.mem) (hf : Fills s.mem (s.proc cur)) (hl : s.locked = false) :
    Sat (growproc lo cur n) s (fun r s' => Contract lo F s cur n r s' ∧
      (Meets s cur n r s' ↔ Fits s.mem (s.proc cur) n)) fun _ => False :=
  (sat_growproc hs hf hl).post fun _ _ h => ⟨h, h.meets_iff⟩

end

/-! ### A process with one page -/

/-- Frame 100 is the page directory, 101 a page table and 102 the page; the next thousand are free.
-/
def onePage : Mem where
  word f i := if f = 100 ∧ i = 0 then userEntry 101 else if f = 101 ∧ i = 0 then userEntry 102 else 0
  freelist := List.range' 103 1000

/-- The rest of memory. -/
def others : Set ℕ := { f | 1103 ≤ f ∧ f < NFRAME }

def start : State (Fin 64) where
  mem := onePage
  locked := false
  proc p := if p = 0 then { pid := 1, sz := 4096, pgdir := 100 } else { pid := 0, sz := 0, pgdir := 0 }

theorem dir_onePage (d : ℕ) : onePage.word 100 d = if d = 0 then userEntry 101 else 0 := by
  by_cases hd : d = 0
  · simp [onePage, hd]
  · simp [onePage, hd]

theorem pte_onePage (v : ℕ) : pte onePage 100 v = if v = 0 then userEntry 102 else 0 := by
  unfold pte
  rw [dir_onePage]
  by_cases hd : v / 1024 = 0
  · rw [if_pos hd, if_pos (by decide), show frameOf (userEntry 101) = 101 from by decide]
    have hmod : v % 1024 = v := by omega
    by_cases hv : v = 0
    · simp [onePage, hv]
    · simp [onePage, hmod, hv]
  · rw [if_neg hd, if_neg (by decide), if_neg (by omega)]

/-- The frames of `onePage`, each in one place. -/
def framesOfOnePage : Site → ℕ
  | .dir => 100
  | .table d => if d = 0 then 101 else 0
  | .page v => if v = 0 then 102 else 0

theorem sites_onePage : sites onePage 100 = framesOfOnePage := by
  funext x
  cases x with
  | dir => rfl
  | table d =>
    simp only [sites, framesOfOnePage, dir_onePage]
    by_cases hd : d = 0
    · rw [if_pos hd, if_pos hd, hd]
      decide
    · rw [if_neg hd, if_neg hd]
      exact if_neg (by simp)
  | page v =>
    simp only [sites, framesOfOnePage, pte_onePage]
    by_cases hv : v = 0
    · rw [if_pos hv, if_pos hv, hv]
      decide
    · rw [if_neg hv, if_neg hv]
      exact if_neg (by simp)

theorem framesOfOnePage_cases (x : Site) : framesOfOnePage x = 0 ∨ (framesOfOnePage x = 100 ∧ x = .dir) ∨
    (framesOfOnePage x = 101 ∧ x = .table 0) ∨ (framesOfOnePage x = 102 ∧ x = .page 0) := by
  cases x with
  | dir => simp [framesOfOnePage]
  | table d => by_cases hd : d = 0 <;> simp [framesOfOnePage, hd]
  | page v => by_cases hv : v = 0 <;> simp [framesOfOnePage, hv]

theorem space_onePage : Space 100 100 others onePage := by
  have hN : NFRAME = 57344 := rfl
  have hlist : ∀ f, f ∈ onePage.freelist ↔ 103 ≤ f ∧ f < 1103 := fun f => List.mem_range'_1
  refine ⟨⟨by norm_num, fun b hlo _ => ?_, fun x hx => ?_, fun x y hx hxy => ?_, fun b hlo hhi => ?_, fun b hb => ⟨⟨?_, hb.2⟩, fun x hx => ?_⟩⟩,
    List.nodup_range', fun f hf => ?_, by norm_num, fun d _ hp => ?_, fun v _ hp => ?_⟩
  · simp [hlist]
    omega
  · rw [sites_onePage] at hx ⊢
    have := framesOfOnePage_cases x
    omega
  · rw [sites_onePage] at hx hxy
    rcases framesOfOnePage_cases x with h | ⟨h, rfl⟩ | ⟨h, rfl⟩ | ⟨h, rfl⟩ <;>
      rcases framesOfOnePage_cases y with h' | ⟨h', rfl⟩ | ⟨h', rfl⟩ | ⟨h', rfl⟩ <;> first | rfl | omega
  · rw [sites_onePage, decide_eq_true_iff, hlist]
    constructor
    · intro hb
      by_cases h1 : b < 103
      · have : b = 100 ∨ b = 101 ∨ b = 102 := by omega
        rcases this with rfl | rfl | rfl
        · exact .inl ⟨.dir, rfl⟩
        · exact .inl ⟨.table 0, rfl⟩
        · exact .inl ⟨.page 0, rfl⟩
      · exact .inr ⟨by omega, hhi⟩
    · rintro (⟨x, rfl⟩ | hb)
      · have := framesOfOnePage_cases x
        omega
      · have := hb.1
        omega
  · have := hb.1
    omega
  · rw [sites_onePage] at hx
    have := hb.1
    have := framesOfOnePage_cases x
    omega
  · rw [hlist] at hf
    omega
  · rw [dir_onePage] at hp ⊢
    by_cases hd : d = 0
    · rw [if_pos hd]
      decide
    · rw [if_neg hd] at hp
      cases hp
  · rw [pte_onePage] at hp ⊢
    by_cases hv : v = 0
    · rw [if_pos hv]
      decide
    · rw [if_neg hv] at hp
      cases hp

theorem fills_start : Fills start.mem (start.proc 0) := by
  refine ⟨by decide, fun v _ => ?_⟩
  show present (pte onePage 100 v) = true ↔ 4096 * v < 4096
  rw [pte_onePage]
  by_cases hv : v = 0
  · rw [if_pos hv, hv]
    decide
  · rw [if_neg hv]
    exact iff_of_false (by decide) (by omega)

theorem growproc_contract_one_byte : ∃ r s', growproc 100 0 1 start = .ok (r, s') ∧
    Meets start 0 1 r s' := by
  obtain ⟨r, s', hrun, -, hmeets⟩ :=
    (growproc_contract 100 others start 0 1 space_onePage fills_start rfl).exists_run
  exact ⟨r, s', hrun, hmeets.mpr (by decide +kernel)⟩

/-- Growth beyond `KERNBASE` fails with the lock held. Shrinking to nothing fails as well, with the
size as it was but the page gone. Shrinking by more than there is succeeds. -/
theorem growproc_breaks_contract : (Space 100 100 others start.mem ∧ Fills start.mem (start.proc 0)) ∧
    (∃ s', growproc 100 0 0x7fffffff start = .ok (-1, s') ∧ s'.locked = true) ∧
    (∃ s', growproc 100 0 (-4096) start = .ok (-1, s') ∧ (s'.proc 0).sz = 4096 ∧
      present (pte start.mem 100 0) = true ∧ present (pte s'.mem 100 0) = false) ∧
    ∃ s', growproc 100 0 (-4097) start = .ok (0, s') ∧ (s'.proc 0).sz = 4096 :=
  ⟨⟨space_onePage, fills_start⟩, ⟨_, rfl, rfl⟩, ⟨_, rfl, rfl, rfl, rfl⟩, _, rfl, rfl⟩

end Xv6.Vm.Growproc
