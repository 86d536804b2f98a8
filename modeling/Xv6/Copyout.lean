/-
# copyout

The kernel writes to an address space that need not be the current one: copyout of vm.c goes through
the page tables a page at a time (`uva2ka`) and writes to the frame of the page, as far as the pages
are the user's. Addresses are 32-bit numbers and wrap around.

`uva2ka` does not look at whether there is a page table: where `walkpgdir` returns a null pointer it
reads the entry at address 0, that is, the first word of the memory of the current process. So
copyout keeps to the user's pages if the first page that is not one has a page table (`HasTable`).
If it has none, the kernel may write to any frame of memory, or it traps.
-/
import Mathlib.Data.List.GetD
import Xv6.Lib.Mem
import Xv6.Growproc

namespace Xv6.Vm

open Prog

/-! ### Bytes of a frame -/

def byte (m : Mem) (f x : ℕ) : UInt8 := Mem.byte32 (m.word f (x / 4)) (x % 4)

/-- The memory after `memmove`. -/
def moved (m : Mem) (f off : ℕ) (src : List UInt8) : Mem :=
  let bytes := Mem.splice (byte m f) off src.length fun j => src.getD j 0
  { m with word := Function.update m.word f fun i => Mem.word32 bytes (4 * i) }

/-- `memmove` to the frame, from byte `off` on. -/
def memmove (f off : ℕ) (src : List UInt8) : VmM Unit := modify fun m => moved m f off src

/-- `*pte & PTE_P` and `*pte & PTE_U` -/
def user (w : UInt32) : Bool := present w && w &&& PTE_U ≠ 0

section

variable (cur pgdir : ℕ)

/-- The word at address 0, in the address space of the current process. -/
def nullWord : VmM UInt32 := do
  let m ← get
  if present (pte m cur 0) then pure (m.word (frameOf (pte m cur 0)) 0) else stop "trap"

/-- The frame that the kernel reaches at `P2V(pa)`, with `pa` the address of frame `f`. Physical
memory is mapped above `KERNBASE`. Nothing but devices is above that, until addresses wrap around to
the pages of the current process. -/
def kernelFrame (f : ℕ) : VmM ℕ := do
  let m ← get
  if f < NFRAME then pure f
  else if f < NPAGE then stop "trap"
  else if present (pte m cur (f - NPAGE)) then pure (frameOf (pte m cur (f - NPAGE)))
  else stop "trap"

/-- Map user virtual address to kernel address: the frame of it. -/
def uva2ka (uva : ℕ) : VmM (Option ℕ) := do
  let pte ← walkpgdir pgdir uva false
  let w ← match pte with
    | some (pgtab, i) => do
      let m ← get
      pure (m.word pgtab i)
    | none => nullWord cur
  if !present w then pure none
  else if w &&& PTE_U = 0 then pure none
  -- `P2V` of the frame at `KERNBASE` is the null pointer
  else if frameOf w = NPAGE then pure none
  else pure (some (frameOf w))

/-- The loop of `copyout`. A round copies a byte at least. -/
def copyFrom : ℕ → ℕ → List UInt8 → VmM ℤ
  | 0, _, _ => pure 0
  | fuel + 1, va, buf =>
    if buf.length = 0 then pure 0
    else do
      let va0 := PGROUNDDOWN va
      let pa0 ← uva2ka cur pgdir va0
      match pa0 with
      | none => pure (-1)
      | some pa0 => do
        let n := min (4096 - (va - va0)) buf.length
        let f ← kernelFrame cur pa0
        memmove f (va - va0) (buf.take n)
        copyFrom fuel ((va0 + 4096) % 2 ^ 32) (buf.drop n)

/-- Copy the bytes of `buf` to user address `va` in page table `pgdir`. -/
def copyout (va : ℕ) (buf : List UInt8) : VmM ℤ := copyFrom cur pgdir buf.length va buf

end

section

variable {cur pgdir va f g off n c : ℕ} {m m' m'' : Mem} {buf buf' src : List UInt8}
    {cell cell' : ℕ → ℕ × ℕ}

theorem moved_word (hg : g ≠ f) : (moved m f off src).word g = m.word g := Function.update_of_ne hg ..

theorem byte_moved (x : ℕ) : byte (moved m f off src) f x =
    Mem.splice (byte m f) off src.length (fun j => src.getD j 0) x := by
  unfold moved
  rw [byte]
  simp only [Function.update_self]
  rw [Mem.byte32_word32 _ _ (Nat.mod_lt _ (by norm_num)), Nat.div_add_mod]

theorem byte_congr (h : m'.word f = m.word f) (x : ℕ) : byte m' f x = byte m f x := by
  unfold byte
  rw [h]

/-! ### What has been copied -/

/-- Byte `i` of `buf` is where `cell i` says, a frame and a place in it. Otherwise memory is the
same. -/
structure Copied (cell : ℕ → ℕ × ℕ) (buf : List UInt8) (m m' : Mem) : Prop where
  freelist : m'.freelist = m.freelist
  byte : ∀ i, i < buf.length → byte m' (cell i).1 (cell i).2 = buf.getD i 0
  same : ∀ f x, (∀ i, i < buf.length → cell i ≠ (f, x)) → Vm.byte m' f x = Vm.byte m f x
  word : ∀ f, (∀ i, i < buf.length → (cell i).1 ≠ f) → m'.word f = m.word f

namespace Copied

theorem nil (cell : ℕ → ℕ × ℕ) (m : Mem) : Copied cell [] m m :=
  ⟨rfl, fun _ h => absurd h (Nat.not_lt_zero _), fun _ _ _ => rfl, fun _ _ => rfl⟩

theorem congr (h : Copied cell buf m m') (heq : ∀ i, i < buf.length → cell' i = cell i) :
    Copied cell' buf m m' where
  freelist := h.freelist
  byte i hi := by
    rw [heq i hi]
    exact h.byte i hi
  same f x hx := h.same f x fun i hi => heq i hi ▸ hx i hi
  word f hf := h.word f fun i hi => heq i hi ▸ hf i hi

theorem moved (m : Mem) (f off : ℕ) {src : List UInt8} (h0 : 0 < src.length) :
    Copied (fun i => (f, off + i)) src m (moved m f off src) where
  freelist := rfl
  byte i hi := by rw [byte_moved, Mem.splice_add _ _ _ _ _ hi]
  same g x hx := by
    by_cases hg : g = f
    · rw [hg, byte_moved]
      refine if_neg fun hin => hx (x - off) (by omega) ?_
      rw [hg, Nat.add_sub_cancel' hin.1]
    · rw [byte_congr (moved_word hg)]
  word g hg := moved_word (Ne.symm (hg 0 h0))

/-- One part is copied and then the next. -/
theorem append (h : Copied cell buf m m') (h' : Copied (fun i => cell (buf.length + i)) buf' m' m'')
    (hne : ∀ i j, i < buf.length → j < buf'.length → cell (buf.length + j) ≠ cell i) :
    Copied cell (buf ++ buf') m m'' where
  freelist := h'.freelist.trans h.freelist
  byte i hi := by
    rw [List.length_append] at hi
    by_cases hlt : i < buf.length
    · rw [h'.same _ _ fun j hj => hne i j hlt hj, h.byte i hlt, List.getD_append _ _ _ _ hlt]
    · have hb := h'.byte (i - buf.length) (by omega)
      rw [Nat.add_sub_cancel' (by omega)] at hb
      rw [hb, List.getD_append_right _ _ _ _ (by omega)]
  same f x hx := by
    rw [List.length_append] at hx
    rw [h'.same f x fun i hi => hx _ (by omega), h.same f x fun i hi => hx i (by omega)]
  word f hf := by
    rw [List.length_append] at hf
    rw [h'.word f fun i hi => hf _ (by omega), h.word f fun i hi => hf i (by omega)]

end Copied

/-! ### The bytes of the range -/

/-- The page of byte `i` of those from address `va` on. -/
def pageAt (va i : ℕ) : ℕ := (va + i) % 2 ^ 32 / 4096

/-- The page table entry for it. -/
def pteAt (m : Mem) (pgdir va i : ℕ) : UInt32 := pte m pgdir (pageAt va i)

/-- The page directory entry for it. -/
def pdeAt (m : Mem) (pgdir va i : ℕ) : UInt32 := m.word pgdir (pageAt va i / 1024)

/-- Where the byte is in memory. -/
def place (m : Mem) (pgdir va i : ℕ) : ℕ × ℕ := (frameOf (pteAt m pgdir va i), (va + i) % 4096)

/-- How many of the `len` bytes from `va` on come before the first page that is not the user's. -/
def extent (m : Mem) (pgdir va len : ℕ) : ℕ := (List.range len).findIdx fun i =>
    !user (pteAt m pgdir va i)

/-- Page `b` is looked up after byte `a` has been written. -/
def Precedes (va a b : ℕ) : Prop := (va % 4096 + a) / 4096 < (va % 4096 + b) / 4096

/-- The `n` bytes are in different places of physical memory, and none is in the page directory or a
page table that is read after it has been written. -/
structure Apart (m : Mem) (pgdir va len n : ℕ) : Prop where
  range : ∀ i, i < n → frameOf (pteAt m pgdir va i) < NFRAME
  inj : ∀ i j, i < j → j < n → place m pgdir va j ≠ place m pgdir va i
  look : ∀ i j, i < n → j ≤ n → j < len → Precedes va i j → frameOf (pteAt m pgdir va i) ≠ pgdir ∧
    (present (pdeAt m pgdir va j) = true → frameOf (pteAt m pgdir va i) ≠ frameOf (pdeAt m pgdir va j))

/-- If there is a page that is not the user's, it has a page table. -/
def HasTable (m : Mem) (pgdir va len n : ℕ) : Prop := n < len → present (pdeAt m pgdir va n) = true

/-- The first `n` bytes are in pages of the user, and the next one, if there is one, is not. -/
structure Extends (m : Mem) (pgdir va len n : ℕ) : Prop where
  le : n ≤ len
  user : ∀ i, i < n → user (pteAt m pgdir va i) = true
  stop : n < len → Vm.user (pteAt m pgdir va n) = false

theorem extends_extent (m : Mem) (pgdir va len : ℕ) : Extends m pgdir va len (extent m pgdir va len) := by
  have hlen : (List.range len).length = len := List.length_range
  have hle : extent m pgdir va len ≤ (List.range len).length := List.findIdx_le_length
  refine ⟨hle.trans_eq hlen, fun i hi => ?_, fun hlt => ?_⟩
  · have hno := List.not_of_lt_findIdx hi
    simpa using hno
  · have hyes := List.findIdx_getElem (w := (by rw [hlen]; exact hlt :
      (List.range len).findIdx (fun i => !user (pteAt m pgdir va i)) < (List.range len).length))
    simpa [extent] using hyes

theorem present_of_user {i : ℕ} (h : user (pteAt m pgdir va i) = true) :
    present (pdeAt m pgdir va i) = true := by
  by_contra hp
  rw [pteAt, pte, if_neg (show ¬present (m.word pgdir (pageAt va i / 1024)) = true from hp)] at h
  cases h

/-! ### A round -/

theorem sat_find_any (hva : va < 2 ^ 32) :
    Sat (walkpgdir pgdir (PGROUNDDOWN va) false) m (fun r m' => m' = m ∧
      r = if present (pdeAt m pgdir va 0) = true then some (frameOf (pdeAt m pgdir va 0),
        va / 4096 % 1024) else none)
    fun _ => False := by
  have hpdx : PDX (PGROUNDDOWN va) = pageAt va 0 / 1024 := by
    unfold PDX PGROUNDDOWN pageAt
    omega
  have hptx : PTX (PGROUNDDOWN va) = va / 4096 % 1024 := by
    unfold PTX PGROUNDDOWN
    omega
  unfold walkpgdir
  refine .get_bind ?_
  rw [hpdx, hptx, ← pdeAt]
  by_cases hp : present (pdeAt m pgdir va 0) = true
  · simp only [hp, if_true]
    exact .pure ⟨rfl, rfl⟩
  · simp only [hp, Bool.not_false, if_true]
    exact .pure ⟨rfl, rfl⟩

theorem sat_nullWord (hcur : present (m.word cur 0) = false) :
    Sat (nullWord cur) m (fun _ _ => False) fun e => e = "trap" := by
  refine .get_bind ?_
  have hpte : pte m cur 0 = 0 := if_neg (by rw [Nat.zero_div, hcur]; decide)
  rw [hpte]
  exact .stop rfl

/-- `uva2ka`, of a process that has no memory at address 0 if there is no page table. -/
theorem sat_uva2ka (hva : va < 2 ^ 32) (hcur : present (pdeAt m pgdir va 0) = false →
    present (m.word cur 0) = false) (hrange : user (pteAt m pgdir va 0) = true →
      frameOf (pteAt m pgdir va 0) < NFRAME) :
    Sat (uva2ka cur pgdir (PGROUNDDOWN va)) m (fun r m' => m' = m ∧ present (pdeAt m pgdir va 0) = true ∧
      r = if user (pteAt m pgdir va 0) = true then some (frameOf (pteAt m pgdir va 0)) else none)
      fun e => present (pdeAt m pgdir va 0) = false ∧ e = "trap" := by
  unfold uva2ka
  refine .bind ((sat_find_any hva).mono (fun _ _ h => h) fun _ => False.elim) ?_
  rintro r m' ⟨rfl, hr⟩
  by_cases ht : present (pdeAt m' pgdir va 0) = true
  · rw [if_pos ht] at hr
    subst hr
    have hpage : pageAt va 0 = va / 4096 := by
      unfold pageAt
      omega
    have hw : m'.word (frameOf (pdeAt m' pgdir va 0)) (va / 4096 % 1024) = pteAt m' pgdir va 0 := by
      rw [pteAt, pte, if_pos (show present (m'.word pgdir (pageAt va 0 / 1024)) = true from ht), ← hpage]
      rfl
    refine .get_bind ?_
    simp only [hw]
    show Sat (if !present (pteAt m' pgdir va 0) then _ else _) m' _ _
    generalize pteAt m' pgdir va 0 = w at hrange ⊢
    unfold user at hrange ⊢
    by_cases hp : present w = true
    · rw [if_neg (by simp [hp])]
      by_cases hU : w &&& PTE_U = 0
      · rw [if_pos hU]
        exact .pure ⟨rfl, ht, by simp [hU]⟩
      · have hu : (present w && decide (w &&& PTE_U ≠ 0)) = true := by simp [hp, hU]
        have hlt := hrange hu
        rw [if_neg hU, if_neg (by unfold NFRAME at hlt; unfold NPAGE; omega), if_pos hu]
        exact .pure ⟨rfl, ht, rfl⟩
    · rw [if_pos (by simp [hp])]
      exact .pure ⟨rfl, ht, by simp [hp]⟩
  · rw [if_neg ht] at hr
    subst hr
    rw [Bool.not_eq_true] at ht
    exact .bind ((sat_nullWord (hcur ht)).mono (fun _ _ => False.elim) fun e he => ⟨ht, he⟩)
      fun _ _ => False.elim

theorem sat_kernelFrame {E : String → Prop} (hf : f < NFRAME) :
    Sat (kernelFrame cur f) m (fun g m' => g = f ∧ m' = m) E := by
  refine .get_bind ?_
  rw [if_pos hf]
  exact .pure ⟨rfl, rfl⟩

section

variable (hx : Extends m pgdir va buf.length n)

include hx

/-- There is nothing to copy. -/
theorem Extends.empty (h0 : buf.length = 0) : HasTable m pgdir va buf.length n ∧
    (0 : ℤ) = (if n = buf.length then 0 else -1) ∧ Copied (place m pgdir va) (buf.take n) m m := by
  have hle := hx.le
  obtain rfl : n = 0 := by omega
  exact ⟨fun hlt => by omega, by rw [if_pos h0.symm], .nil _ _⟩

/-- A round is within a page. -/
theorem Extends.round_le (hc : c = min (4096 - va % 4096) buf.length) (h0 : 0 < n) : c ≤ n := by
  by_contra hlt
  have hpage : pageAt va n = pageAt va 0 := by
    unfold pageAt
    omega
  have hle := hx.le
  have hstop := hx.stop (by omega)
  rw [pteAt, hpage] at hstop
  exact absurd (hx.user 0 h0) (by rw [pteAt, hstop]; decide)

end

/-- The rest of the range is as it was before the round. -/
theorem Apart.next {va' : ℕ} (ha : Apart m pgdir va buf.length n) (h0 : 0 < n)
    (hc : c = min (4096 - va % 4096) buf.length) (hva' : va' = (PGROUNDDOWN va + 4096) % 2 ^ 32)
    (hm : ∀ g, g ≠ frameOf (pteAt m pgdir va 0) → m'.word g = m.word g) :
    ∀ i, c + i ≤ n → c + i < buf.length → pteAt m' pgdir va' i = pteAt m pgdir va (c + i) ∧
      pdeAt m' pgdir va' i = pdeAt m pgdir va (c + i) ∧ place m' pgdir va' i =
      place m pgdir va (c + i) := by
  intro i hi hlt
  have hpage : pageAt va' i = pageAt va (c + i) := by
    rw [hva']
    unfold pageAt PGROUNDDOWN
    omega
  have hoff : (va' + i) % 4096 = (va + (c + i)) % 4096 := by
    rw [hva']
    unfold PGROUNDDOWN
    omega
  obtain ⟨hdir, htab⟩ := ha.look 0 (c + i) h0 hi hlt (by unfold Precedes; omega)
  have hpde : m'.word pgdir = m.word pgdir := hm pgdir hdir.symm
  have hpte : pte m' pgdir (pageAt va (c + i)) = pte m pgdir (pageAt va (c + i)) :=
    pte_congr (congrFun hpde _) fun hp => congrFun (hm _ (htab hp).symm) _
  refine ⟨by rw [pteAt, hpage, hpte, pteAt], by rw [pdeAt, hpage, hpde, pdeAt], ?_⟩
  rw [place, pteAt, hpage, hpte, hoff, place, pteAt]

/-- What the loop does, in a process that has no memory at address 0 if a page table is missing. -/
theorem sat_copyFrom (fuel va : ℕ) (buf : List UInt8) (m : Mem) (n : ℕ) (hva : va < 2 ^ 32)
    (hlen : buf.length < 2 ^ 32) (hfuel : buf.length ≤ fuel) (hx : Extends m pgdir va buf.length n)
    (ha : Apart m pgdir va buf.length n) (hcur : ¬HasTable m pgdir va buf.length n →
      present (m.word cur 0) = false ∧ ∀ i, i < n → frameOf (pteAt m pgdir va i) ≠ cur) :
    Sat (copyFrom cur pgdir fuel va buf) m (fun r m' => HasTable m pgdir va buf.length n ∧
      r = (if n = buf.length then 0 else -1) ∧ Copied (place m pgdir va) (buf.take n) m m')
      fun e => ¬HasTable m pgdir va buf.length n ∧ e = "trap" := by
  induction fuel generalizing va buf m n with
  | zero => exact .pure (hx.empty (by omega))
  | succ fuel ih =>
    unfold copyFrom
    refine .ite (fun h0 => .pure (hx.empty h0)) fun hpos => ?_
    have hle := hx.le
    -- the first page is the user's unless the extent is empty
    have hfirst : user (pteAt m pgdir va 0) = true ↔ 0 < n := by
      refine ⟨fun hu => ?_, hx.user 0⟩
      by_contra h0
      obtain rfl : n = 0 := by omega
      rw [hx.stop (by omega)] at hu
      cases hu
    have hmiss : present (pdeAt m pgdir va 0) = false → ¬HasTable m pgdir va buf.length n :=
      fun hp ht => by
      rcases Nat.eq_zero_or_pos n with rfl | h0
      · rw [ht (by omega)] at hp
        cases hp
      · rw [present_of_user (hfirst.mpr h0)] at hp
        cases hp
    refine .bind
      ((sat_uva2ka hva (fun hp => (hcur (hmiss hp)).1) fun hu => ha.range 0 (hfirst.mp hu)).mono
      (fun _ _ h => h) fun e he => ⟨hmiss he.1, he.2⟩) ?_
    rintro r m1 ⟨rfl, hp, hr⟩
    by_cases hu : user (pteAt m1 pgdir va 0) = true
    · have h0 := hfirst.mp hu
      rw [if_pos hu] at hr
      subst hr
      have hoff : va - PGROUNDDOWN va = va % 4096 := by
        unfold PGROUNDDOWN
        omega
      simp only [hoff]
      obtain ⟨c, hc⟩ : ∃ c, c = min (4096 - va % 4096) buf.length := ⟨_, rfl⟩
      rw [← hc]
      have hcn := hx.round_le hc h0
      have htake : (buf.take c).length = c := by
        rw [List.length_take]
        omega
      have hmoved :
        Copied (place m1 pgdir va) (buf.take c) m1
          (moved m1 (frameOf (pteAt m1 pgdir va 0)) (va % 4096) (buf.take c)) := by
        refine (Copied.moved _ _ _ (by omega)).congr fun i hi => ?_
        have hpage : pageAt va i = pageAt va 0 := by
          unfold pageAt
          omega
        rw [place, pteAt, hpage, ← pteAt, show (va + i) % 4096 = va % 4096 + i by omega]
      refine (sat_kernelFrame (ha.range 0 h0)).bind ?_
      rintro f m2 ⟨rfl, rfl⟩
      refine .modify_bind ?_
      obtain ⟨va', hva'⟩ : ∃ a, a = (PGROUNDDOWN va + 4096) % 2 ^ 32 := ⟨_, rfl⟩
      obtain ⟨m3, hm3⟩ : ∃ m3, m3 = moved m2 (frameOf (pteAt m2 pgdir va 0)) (va % 4096)
        (buf.take c) := ⟨_, rfl⟩
      rw [← hm3] at hmoved ⊢
      rw [← hva']
      have hword : ∀ g, g ≠ frameOf (pteAt m2 pgdir va 0) → m3.word g = m2.word g := fun g hg => by
        rw [hm3]
        exact moved_word hg
      have hnext := ha.next h0 hc hva' hword
      have hdrop : (buf.drop c).length = buf.length - c := List.length_drop
      have htab : HasTable m3 pgdir va' (buf.drop c).length (n - c) ↔
        HasTable m2 pgdir va buf.length n := by
        unfold HasTable
        rw [hdrop]
        by_cases hlt : n < buf.length
        · have heq := (hnext (n - c) (by omega) (by omega)).2.1
          rw [Nat.add_sub_cancel' hcn] at heq
          rw [heq]
          exact ⟨fun h _ => h (by omega), fun h _ => h hlt⟩
        · exact ⟨fun _ h => absurd h hlt, fun _ h => by omega⟩
      refine (ih va' (buf.drop c) m3 (n - c) ?_ ?_ ?_ ?_ ?_ ?_).mono ?_ fun e he =>
        ⟨mt htab.mpr he.1, he.2⟩
      · rw [hva']
        exact Nat.mod_lt _ (by norm_num)
      · omega
      · omega
      · refine ⟨by omega, fun i hi => ?_, fun hlt => ?_⟩
        · rw [(hnext i (by omega) (by omega)).1]
          exact hx.user _ (by omega)
        · rw [(hnext (n - c) (by omega) (by omega)).1, Nat.add_sub_cancel' hcn]
          exact hx.stop (by omega)
      · refine ⟨fun i hi => ?_, fun i j hij hj => ?_, fun i j hi hj hlt hpre => ?_⟩
        · rw [(hnext i (by omega) (by omega)).1]
          exact ha.range _ (by omega)
        · rw [(hnext i (by omega) (by omega)).2.2, (hnext j (by omega) (by omega)).2.2]
          exact ha.inj _ _ (by omega) (by omega)
        · rw [(hnext i (by omega) (by omega)).1, (hnext j (by omega) (by omega)).2.1]
          refine ha.look _ _ (by omega) (by omega) (by omega) ?_
          unfold Precedes at hpre ⊢
          rw [hva'] at hpre
          unfold PGROUNDDOWN at hpre
          omega
      · intro hno
        obtain ⟨hnull, hother⟩ := hcur (mt htab.mpr hno)
        rw [hword cur (hother 0 h0).symm]
        refine ⟨hnull, fun i hi => ?_⟩
        rw [(hnext i (by omega) (by omega)).1]
        exact hother _ (by omega)
      · rintro r m4 ⟨ht, rfl, hcopied⟩
        refine ⟨htab.mp ht, ?_, ?_⟩
        · rw [hdrop]
          exact if_congr (by omega) rfl rfl
        · have hsplit : buf.take n = buf.take c ++ (buf.drop c).take (n - c) := by
            rw [← List.take_add, Nat.add_sub_cancel' hcn]
          have hrest : ((buf.drop c).take (n - c)).length = n - c := by
            rw [List.length_take, hdrop]
            omega
          rw [hsplit]
          refine hmoved.append (hcopied.congr fun i hi => ?_) fun i j hi hj => ?_
          · rw [hrest] at hi
            rw [htake, (hnext i (by omega) (by omega)).2.2]
          · rw [htake] at hi ⊢
            rw [hrest] at hj
            exact ha.inj _ _ (by omega) (by omega)
    · have h0 : n = 0 := by
        have := mt hfirst.mpr hu
        omega
      rw [if_neg hu] at hr
      subst hr h0
      exact .pure ⟨fun _ => hp, by rw [if_neg (Ne.symm hpos)], .nil _ _⟩

end

open Growproc (onePage)

theorem extent_onePage : extent onePage 100 4095 2 = 1 := by decide

theorem apart_onePage : Apart onePage 100 4095 2 1 := by
  refine ⟨fun i hi => ?_, fun i j hij hj => by omega, fun i j hi hj _ hpre => ?_⟩
  · obtain rfl : i = 0 := by omega
    decide
  · obtain rfl : i = 0 := by omega
    obtain rfl : j = 1 := by
      unfold Precedes at hpre
      omega
    decide

/-- The process of `onePage` has put an entry for frame 300 at its address 0. -/
def baited : Mem where
  word f i := if f = 102 ∧ i = 0 then userEntry 300 else onePage.word f i
  freelist := []

end Xv6.Vm
