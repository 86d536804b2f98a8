/-
# User memory

The page tables of vm.c and the page allocator of kalloc.c. Physical memory is page frames of 1024
words, the first `lo` of which belong to the kernel; a page directory and a page table are frames
like any other, read as entries. The free list is a list of frames.

`Space` says that the frames are each in one hand: the free list's, that of the page directory in
question (itself, its tables or its pages, `Site`), or another's (`F`). `Keeps` says which pages a
change of memory has left alone, with their contents. The functions have one spec each in these
terms: a page is mapped or it is not, and everything else is as it was.
-/
import Xv6.Lib.Prog
import Xv6.Lib.Owned

namespace Xv6.Vm

open Prog
open Function (update update_of_ne)
open Set (mem_insert subset_insert)

/-- Addresses from here on are the kernel's. -/
def KERNBASE : ℕ := 0x80000000

/-- Page frames below the top of physical memory, `PHYSTOP`. -/
def NFRAME : ℕ := 0xE000

/-- Pages below `KERNBASE`. -/
def NPAGE : ℕ := 0x80000

/-- Physical memory, and `kmem.freelist`. -/
structure Mem where
  /-- The words of each page frame. -/
  word : ℕ → ℕ → UInt32
  freelist : List ℕ

/-- A program of the memory; it stops with a panic. -/
abbrev VmM := Prog String Mem

def PTE_P : UInt32 := 1
def PTE_W : UInt32 := 2
def PTE_U : UInt32 := 4

/-- `*pte & PTE_P` -/
def present (w : UInt32) : Bool := w &&& PTE_P ≠ 0

/-- The frame at `PTE_ADDR(w)`. -/
def frameOf (w : UInt32) : ℕ := (w >>> 12).toNat

/-- `pa | perm | PTE_P`, with `pa` the address of frame `f`. -/
def entry (f : ℕ) (perm : UInt32) : UInt32 := UInt32.ofNat (4096 * f) ||| perm ||| PTE_P

/-- Page directory index and page table index. -/
def PDX (va : ℕ) : ℕ := va / 2 ^ 22 % 1024
def PTX (va : ℕ) : ℕ := va / 4096 % 1024

def PGROUNDUP (sz : ℕ) : ℕ := (sz + 4095) % 2 ^ 32 / 4096 * 4096
def PGROUNDDOWN (a : ℕ) : ℕ := a / 4096 * 4096

/-! ### kalloc.c -/

/-- `memset(v, c, PGSIZE)`, for the frame of `v` and the word of four `c`. -/
def memset (f : ℕ) (w : UInt32) : VmM Unit := modify fun m =>
    { m with word := update m.word f fun _ => w }

def setWord (f i : ℕ) (w : UInt32) : VmM Unit :=
  modify fun m => { m with word := update m.word f (update (m.word f) i w) }

def kalloc : VmM (Option ℕ) := do
  let m ← get
  match m.freelist with
  | [] => pure none
  | f :: rest => do
    modify fun m => { m with freelist := rest }
    pure (some f)

section

variable (lo : ℕ)

def kfree (f : ℕ) : VmM Unit :=
  if f < lo ∨ NFRAME ≤ f then stop "kfree"
  else do
    memset f 0x01010101
    modify fun m => { m with freelist := f :: m.freelist }

/-! ### vm.c -/

variable (pgdir : ℕ)

/-- The place of the page table entry for `va`: the frame of the table and the index. With `alloc`,
create the page table if need be. -/
def walkpgdir (va : ℕ) (alloc : Bool) : VmM (Option (ℕ × ℕ)) := do
  let m ← get
  let pde := m.word pgdir (PDX va)
  if present pde then pure (some (frameOf pde, PTX va))
  else if !alloc then pure none
  else do
    let r ← kalloc
    match r with
    | none => pure none
    | some pgtab => do
      memset pgtab 0
      setWord pgdir (PDX va) (entry pgtab (PTE_W ||| PTE_U))
      pure (some (pgtab, PTX va))

/-- The loop of `mappages`, with `n` pages to map after this one. -/
def mapFrom (perm : UInt32) : ℕ → ℕ → ℕ → VmM Bool
  | n, a, pa => do
    let r ← walkpgdir pgdir a true
    match r with
    | none => pure false
    | some (pgtab, i) => do
      let m ← get
      if present (m.word pgtab i) then stop "remap"
      else do
        setWord pgtab i (entry pa perm)
        match n with
        | 0 => pure true
        | n + 1 => mapFrom perm n (a + 4096) (pa + 1)

/-- Map the addresses from `va` on to the frames from `pa` on. -/
def mappages (va size pa : ℕ) (perm : UInt32) : VmM Bool :=
  mapFrom pgdir perm ((PGROUNDDOWN (va + size - 1) - PGROUNDDOWN va) / 4096) (PGROUNDDOWN va) pa

/-- The loop of `deallocuvm`. A round moves on by a page at least. -/
def deallocFrom (oldsz : ℕ) : ℕ → ℕ → VmM Unit
  | 0, _ => pure ()
  | fuel + 1, a =>
    if oldsz ≤ a then pure ()
    else do
      let pte ← walkpgdir pgdir a false
      match pte with
      | none => deallocFrom oldsz fuel ((PDX a + 1) * 2 ^ 22)
      | some (pgtab, i) => do
        let m ← get
        if present (m.word pgtab i) then
          if frameOf (m.word pgtab i) = 0 then stop "kfree"
          else do
            kfree lo (frameOf (m.word pgtab i))
            setWord pgtab i 0
            deallocFrom oldsz fuel (a + 4096)
        else deallocFrom oldsz fuel (a + 4096)

/-- Deallocate user pages to bring the process size from `oldsz` to `newsz`. Returns the new process
size. -/
def deallocuvm (oldsz newsz : ℕ) : VmM ℕ :=
  if oldsz ≤ newsz then pure oldsz
  else do
    deallocFrom lo pgdir oldsz (oldsz / 4096 + 1) (PGROUNDUP newsz)
    pure newsz

/-- The loop of `allocuvm`. -/
def allocFrom (oldsz newsz : ℕ) : ℕ → ℕ → VmM ℕ
  | 0, _ => pure newsz
  | fuel + 1, a =>
    if newsz ≤ a then pure newsz
    else do
      let mem ← kalloc
      match mem with
      | none => do
        let _ ← deallocuvm lo pgdir newsz oldsz
        pure 0
      | some mem => do
        memset mem 0
        let mapped ← mappages pgdir a 4096 mem (PTE_W ||| PTE_U)
        if mapped then allocFrom oldsz newsz fuel (a + 4096)
        else do
          let _ ← deallocuvm lo pgdir newsz oldsz
          kfree lo mem
          pure 0

/-- Allocate page tables and physical memory to grow process from `oldsz` to `newsz`. Returns the
new size, or 0 on error. -/
def allocuvm (oldsz newsz : ℕ) : VmM ℕ :=
  if KERNBASE ≤ newsz then pure 0
  else if newsz < oldsz then pure oldsz
  else allocFrom lo pgdir oldsz newsz (newsz / 4096 + 1) (PGROUNDUP oldsz)

end

/-! ### Entries -/

section

variable {f : ℕ} {perm : UInt32}

/-- The entries that the kernel makes for user pages and page tables. -/
def userEntry (f : ℕ) : UInt32 := entry f (PTE_W ||| PTE_U)

/-- An entry is the address of the frame with the flags below it. -/
theorem toNat_entry (hf : f < NFRAME) (hperm : perm.toNat < 4096) :
    (entry f perm).toNat = 4096 * f + (perm ||| PTE_P).toNat ∧ (perm ||| PTE_P).toNat < 4096 := by
  have hf : f < 0xE000 := hf
  have hlow : (perm ||| PTE_P).toNat < 2 ^ 12 := by
    rw [UInt32.toNat_or]
    exact Nat.or_lt_two_pow hperm (by decide)
  refine ⟨?_, hlow⟩
  unfold entry
  rw [UInt32.or_assoc, UInt32.toNat_or, UInt32.toNat_ofNat', Nat.mod_eq_of_lt (by omega)]
  show 2 ^ 12 * f ||| _ = _
  rw [← Nat.two_pow_add_eq_or_of_lt hlow]

theorem present_iff {w : UInt32} : present w = true ↔ w.toNat % 2 = 1 := by
  unfold present
  rw [decide_eq_true_iff, Ne, UInt32.ext_iff, UInt32.toNat_and]
  show ¬(w.toNat &&& 1 = 0) ↔ _
  rw [Nat.and_one_is_mod]
  omega

theorem frameOf_eq (w : UInt32) : frameOf w = w.toNat / 4096 := by
  unfold frameOf
  simp [UInt32.toNat_shiftRight, Nat.shiftRight_eq_div_pow]

@[simp] theorem present_zero : present 0 = false := rfl

theorem present_entry (hf : f < NFRAME) (hperm : perm.toNat < 4096) :
    present (entry f perm) = true := by
  obtain ⟨heq, -⟩ := toNat_entry hf hperm
  have hodd : (perm ||| PTE_P).toNat % 2 = 1 := by
    rw [UInt32.toNat_or]
    exact Nat.or_mod_two_eq_one.mpr (.inr rfl)
  rw [present_iff, heq]
  omega

theorem frameOf_entry (hf : f < NFRAME) (hperm : perm.toNat < 4096) :
    frameOf (entry f perm) = f := by
  obtain ⟨heq, hlt⟩ := toNat_entry hf hperm
  rw [frameOf_eq, heq]
  omega

theorem present_userEntry (hf : f < NFRAME) : present (userEntry f) = true := present_entry hf (by decide)

theorem frameOf_userEntry (hf : f < NFRAME) : frameOf (userEntry f) = f := frameOf_entry hf (by decide)

end

/-! ### Who has which frame -/

section

variable (m : Mem) (pgdir : ℕ)

/-- The page table entry of page `v`, 0 if there is no table for it. -/
def pte (v : ℕ) : UInt32 :=
  if present (m.word pgdir (v / 1024)) then m.word (frameOf (m.word pgdir (v / 1024))) (v % 1024) else 0

/-- What a user address space is made of: the page directory, page tables, pages. -/
inductive Site where
  | dir
  | table (d : ℕ)
  | page (v : ℕ)

/-- The frame of each, 0 for none. -/
def sites : Site → ℕ
  | .dir => pgdir
  | .table d => if d < 512 ∧ present (m.word pgdir d) then frameOf (m.word pgdir d) else 0
  | .page v => if v < NPAGE ∧ present (pte m pgdir v) then frameOf (pte m pgdir v) else 0

end

/-- The frames from `lo` on are free, or in the address space, or in other hands (`F`). -/
structure Space (lo pgdir : ℕ) (F : Set ℕ) (m : Mem) : Prop where
  own : Owned lo NFRAME (sites m pgdir) (fun f => decide (f ∉ m.freelist)) F
  nodup : m.freelist.Nodup
  range : ∀ f ∈ m.freelist, f < NFRAME
  dir : pgdir ≠ 0
  table : ∀ d, d < 512 → present (m.word pgdir d) = true → frameOf (m.word pgdir d) ≠ 0
  page : ∀ v, v < NPAGE → present (pte m pgdir v) = true → frameOf (pte m pgdir v) ≠ 0

/-- The pages of `U` are mapped as before, with the same contents, and the frames of `F` have their
contents, too. -/
structure Keeps (pgdir : ℕ) (U : ℕ → Prop) (F : Set ℕ) (m m' : Mem) : Prop where
  pte : ∀ v, v < NPAGE → U v → pte m' pgdir v = pte m pgdir v
  page : ∀ v, v < NPAGE → U v → present (Vm.pte m pgdir v) = true →
    m'.word (frameOf (Vm.pte m pgdir v)) = m.word (frameOf (Vm.pte m pgdir v))
  other : ∀ f ∈ F, m'.word f = m.word f

section

variable {lo pgdir : ℕ} {F F' : Set ℕ} {m m' m'' : Mem} {U V : ℕ → Prop} {d f t v : ℕ} {w : UInt32}
  {newsz oldsz v' : ℕ}

theorem Keeps.of_word (hw : m'.word = m.word) : Keeps pgdir U F m m' :=
  ⟨fun _ _ _ => by unfold Vm.pte; rw [hw], fun _ _ _ _ => by rw [hw], fun _ _ => by rw [hw]⟩

theorem Keeps.refl (m : Mem) : Keeps pgdir U F m m := .of_word rfl

theorem Keeps.trans (h : Keeps pgdir U F m m') (h' : Keeps pgdir U F m' m'') : Keeps pgdir U F m m'' :=
  ⟨fun v hv hU => (h'.pte v hv hU).trans (h.pte v hv hU), fun v hv hU hp => by
    have := h'.page v hv hU (by rw [h.pte v hv hU]; exact hp)
    rw [h.pte v hv hU] at this
    rw [this, h.page v hv hU hp], fun f hf => (h'.other f hf).trans (h.other f hf)⟩

theorem Keeps.mono (h : Keeps pgdir U F m m') (hU : ∀ v, V v → U v) (hF : F' ⊆ F) :
    Keeps pgdir V F' m m' :=
  ⟨fun v hv hV => h.pte v hv (hU v hV), fun v hv hV => h.page v hv (hU v hV), fun f hf =>
    h.other f (hF hf)⟩

/-- The page tables that were there are there, each in its place. -/
def Grows (pgdir : ℕ) (m m' : Mem) : Prop := ∀ d, present (m.word pgdir d) = true →
    m'.word pgdir d = m.word pgdir d

theorem Grows.of_dir (h : m'.word pgdir = m.word pgdir) : Grows pgdir m m' := fun d _ => by rw [h]

theorem Grows.trans (h : Grows pgdir m m') (h' : Grows pgdir m' m'') : Grows pgdir m m'' := fun d hd =>
  (h' d (by rw [h d hd]; exact hd)).trans (h d hd)

/-- The kernel's half of the page directory is the same. -/
def Upper (pgdir : ℕ) (m m' : Mem) : Prop := ∀ d, 512 ≤ d → m'.word pgdir d = m.word pgdir d

theorem Upper.of_dir (h : m'.word pgdir = m.word pgdir) : Upper pgdir m m' := fun d _ => by rw [h]

theorem Upper.trans (h : Upper pgdir m m') (h' : Upper pgdir m' m'') : Upper pgdir m m'' := fun d hd =>
  (h' d hd).trans (h d hd)

theorem site_table (hd : d < 512) (hp : present (m.word pgdir d) = true) :
    sites m pgdir (.table d) = frameOf (m.word pgdir d) := if_pos ⟨hd, hp⟩

theorem site_page (hv : v < NPAGE) (hp : present (pte m pgdir v) = true) :
    sites m pgdir (.page v) = frameOf (pte m pgdir v) := if_pos ⟨hv, hp⟩

namespace Space

/-- A free frame is in nobody's hands. -/
theorem free (h : Space lo pgdir F m) (hf : f ∈ m.freelist) : lo ≤ f ∧ (∀ x, sites m pgdir x ≠ f) ∧
    f ∉ F :=
  h.own.unmarked (h.range f hf) (by simpa using hf)

theorem dir_ne_table (h : Space lo pgdir F m) (hd : d < 512) (hp : present (m.word pgdir d) = true) :
    pgdir ≠ frameOf (m.word pgdir d) := fun heq => by
  have := h.own.inj .dir (.table d) h.dir (by rw [site_table hd hp]; exact heq)
  cases this

theorem table_inj {e : ℕ} (h : Space lo pgdir F m) (hd : d < 512)
    (hp : present (m.word pgdir d) = true) (he : e < 512) (hp' : present (m.word pgdir e) = true)
    (heq : frameOf (m.word pgdir d) = frameOf (m.word pgdir e)) : d = e := by
  have := h.own.inj (.table d) (.table e) (by rw [site_table hd hp]; exact h.table d hd hp)
    (by rw [site_table hd hp, site_table he hp', heq])
  cases this
  rfl

end Space

/-- The sites are the same if the directory and the entries are. -/
theorem sites_congr (hdir : ∀ d, d < 512 → m'.word pgdir d = m.word pgdir d)
    (hpte : ∀ v, v < NPAGE → pte m' pgdir v = pte m pgdir v) : sites m' pgdir = sites m pgdir := by
  funext x
  cases x with
  | dir => rfl
  | table d =>
    by_cases hd : d < 512
    · simp only [sites, hdir d hd]
    · simp only [sites, hd, false_and, if_false]
  | page v =>
    by_cases hv : v < NPAGE
    · simp only [sites, hpte v hv]
    · simp only [sites, hv, false_and, if_false]

theorem div_lt (hv : v < NPAGE) : v / 1024 < 512 := by
  have : v < 0x80000 := hv
  omega

/-- Entries are the same if the directory and the tables are. -/
theorem pte_congr (hdir : m'.word pgdir (v / 1024) = m.word pgdir (v / 1024))
    (htab : present (m.word pgdir (v / 1024)) = true →
      m'.word (frameOf (m.word pgdir (v / 1024))) (v % 1024) =
      m.word (frameOf (m.word pgdir (v / 1024))) (v % 1024)) :
    pte m' pgdir v = pte m pgdir v := by
  unfold pte
  rw [hdir]
  split_ifs with hp
  · exact htab hp
  · rfl

/-- A change of frames in other hands, or free ones. -/
theorem outside (hw : ∀ f, m'.word f ≠ m.word f → ∀ x, sites m pgdir x ≠ f) :
    (∀ v, v < NPAGE → pte m' pgdir v = pte m pgdir v) ∧ sites m' pgdir = sites m pgdir ∧
      ∀ x, m'.word (sites m pgdir x) = m.word (sites m pgdir x) := by
  have hsite : ∀ x, m'.word (sites m pgdir x) = m.word (sites m pgdir x) := fun x => by
    by_contra hne
    exact hw _ hne x rfl
  have hpte : ∀ v, v < NPAGE → pte m' pgdir v = pte m pgdir v := fun v hv => by
    refine pte_congr (congrFun (hsite .dir) _) fun hp => ?_
    have := hsite (.table (v / 1024))
    rw [site_table (div_lt hv) hp] at this
    rw [this]
  exact ⟨hpte, sites_congr (fun d _ => congrFun (hsite .dir) d) hpte, hsite⟩

/-! ### The allocator -/

theorem sat_kalloc (h : Space lo pgdir F m) : Sat kalloc m (fun r m' => match r with
    | none => m' = m ∧ m.freelist = []
    | some f => Space lo pgdir (insert f F) m' ∧ f ∉ F ∧ m'.word = m.word ∧ m.freelist =
    f :: m'.freelist) fun _ => False := by
  refine .get_bind ?_
  split
  · rename_i hnil
    exact .pure ⟨rfl, hnil⟩
  · rename_i f rest hcons
    have hf : f ∈ m.freelist := hcons ▸ List.mem_cons_self
    have hnd := h.nodup
    rw [hcons, List.nodup_cons] at hnd
    refine .modify_bind
      (.pure ⟨⟨?_, hnd.2, fun g hg => h.range g (hcons ▸ List.mem_cons_of_mem _ hg), h.dir, h.table,
        h.page⟩,
      (h.free hf).2.2, rfl, hcons⟩)
    refine h.own.alloc (h.range f hf) (by simpa using hf) fun c _ => ?_
    by_cases hc : c = f
    · rw [if_pos hc, hc]
      simpa using hnd.1
    · rw [if_neg hc, hcons]
      simp [hc]

/-- A frame in other hands is written. -/
theorem Space.write (h : Space lo pgdir F m) (hf : f ∈ F) (p : ℕ → UInt32) :
    Space lo pgdir F { m with word := update m.word f p } ∧
      Keeps pgdir (fun _ => True) (F \ {f}) m { m with word := update m.word f p } := by
  have hother : ∀ g, g ≠ f → update m.word f p g = m.word g := fun g hg => update_of_ne hg ..
  have hout : ∀ g, update m.word f p g ≠ m.word g → ∀ x, sites m pgdir x ≠ g := fun g hg x => by
    have hgf : g = f := by
      by_contra hne
      exact hg (hother g hne)
    rw [hgf]
    exact (h.own.flight f hf).2 x
  obtain ⟨hpte, hsites, hword⟩ :=
    outside (show ∀ g, ({ m with word := update m.word f p } : Mem).word g ≠ _ → _ from hout)
  have hdir : ∀ d, update m.word f p pgdir d = m.word pgdir d := fun d => congrFun (hword .dir) d
  refine ⟨⟨by rw [hsites]; exact h.own, h.nodup, h.range, h.dir, fun d hd => ?_, fun v hv => ?_⟩,
    fun v hv _ => hpte v hv,
    fun v hv _ hp => ?_, fun g hg => hother g hg.2⟩
  · show present (update m.word f p pgdir d) = true → frameOf (update m.word f p pgdir d) ≠ 0
    rw [hdir d]
    exact h.table d hd
  · rw [hpte v hv]
    exact h.page v hv
  · have := hword (.page v)
    rwa [site_page hv hp] at this

/-- A frame in other hands is given back. -/
theorem Space.release (h : Space lo pgdir F m) (hf : f ∈ F) :
    Space lo pgdir (F \ {f}) { m with freelist := f :: m.freelist } := by
  obtain ⟨⟨hlo, hhi⟩, -⟩ := h.own.flight f hf
  have hnew : f ∉ m.freelist := fun hmem => (h.free hmem).2.2 hf
  refine ⟨h.own.release hf fun c _ => ?_, List.nodup_cons.mpr ⟨hnew, h.nodup⟩, fun g hg => ?_,
    h.dir, h.table, h.page⟩
  · by_cases hc : c = f
    · simp [hc]
    · simp [hc]
  · rcases List.mem_cons.mp hg with rfl | hg
    · exact hhi
    · exact h.range g hg

/-- The memory after `kfree(f)`. -/
def freed (m : Mem) (f : ℕ) : Mem :=
  { word := update m.word f fun _ => 0x01010101, freelist := f :: m.freelist }

theorem kfree_run (hlo : lo ≤ f) (hhi : f < NFRAME) : kfree lo f m = .ok ((), freed m f) := by
  unfold kfree
  rw [if_neg (by omega)]
  rfl

theorem Space.freed (h : Space lo pgdir F m) (hf : f ∈ F) : Space lo pgdir (F \ {f}) (freed m f) ∧
    Keeps pgdir (fun _ => True) (F \ {f}) m (freed m f) ∧ (freed m f).word pgdir = m.word pgdir := by
  obtain ⟨hwr, hk⟩ := h.write hf fun _ => 0x01010101
  exact ⟨hwr.release hf, hk.trans (.of_word rfl), update_of_ne ((h.own.flight f hf).2 .dir) ..⟩

theorem sat_kfree (h : Space lo pgdir F m) (hf : f ∈ F) :
    Sat (kfree lo f) m (fun _ m' => Space lo pgdir (F \ {f}) m' ∧ Keeps pgdir (fun _ => True)
      (F \ {f}) m m' ∧ m'.word pgdir = m.word pgdir) fun _ => False := by
  obtain ⟨⟨hlo, hhi⟩, -⟩ := h.own.flight f hf
  unfold Sat
  rw [kfree_run hlo hhi]
  exact h.freed hf

/-! ### Entries are set -/

/-- The memory after the entry of page `v` is set. -/
def setPte (m : Mem) (pgdir v : ℕ) (w : UInt32) : Mem :=
  let t := frameOf (m.word pgdir (v / 1024))
  { m with word := update m.word t (update (m.word t) (v % 1024) w) }

theorem setPte_frame (hf : f ≠ frameOf (m.word pgdir (v / 1024))) :
    (setPte m pgdir v w).word f = m.word f :=
  update_of_ne hf ..

theorem pte_setPte_of {u : ℕ} (hdir : (setPte m pgdir v w).word pgdir = m.word pgdir)
    (htab : present (m.word pgdir (v / 1024)) = true) (hinj : present (m.word pgdir (u / 1024)) = true →
      frameOf (m.word pgdir (u / 1024)) = frameOf (m.word pgdir (v / 1024)) → u / 1024 = v / 1024) :
    pte (setPte m pgdir v w) pgdir u = if u = v then w else pte m pgdir u := by
  split
  · next huv =>
    unfold pte
    rw [huv, hdir, if_pos htab]
    simp [setPte]
  · refine pte_congr (by rw [hdir]) fun hp => ?_
    by_cases hd : u / 1024 = v / 1024
    · -- the same table, another place in it
      have hmod : u % 1024 ≠ v % 1024 := by omega
      rw [hd]
      simp [setPte, hmod]
    · rw [setPte_frame fun heq => hd (hinj hp heq)]

theorem freed_setPte (hne : frameOf (m.word pgdir (v / 1024)) ≠ f) : freed (setPte m pgdir v w) f =
    let t := frameOf (m.word pgdir (v / 1024))
    { freed m f with word := update (freed m f).word t (update ((freed m f).word t) (v % 1024) w) } := by
  have ht : (freed m f).word (frameOf (m.word pgdir (v / 1024))) =
    m.word (frameOf (m.word pgdir (v / 1024))) :=
    update_of_ne hne ..
  simp only [ht]
  simp only [freed, setPte, Function.update_comm hne]

section

variable (h : Space lo pgdir F m) (hv : v < NPAGE) (htab : present (m.word pgdir (v / 1024)) = true)

include h hv htab

theorem setPte_dir : (setPte m pgdir v w).word pgdir = m.word pgdir :=
  setPte_frame (h.dir_ne_table (div_lt hv) htab)

theorem pte_setPte_self : pte (setPte m pgdir v w) pgdir v = w :=
  (pte_setPte_of (setPte_dir h hv htab) htab fun _ _ => rfl).trans (if_pos rfl)

theorem pte_setPte_ne {u : ℕ} (hu : u < NPAGE) (hne : u ≠ v) :
    pte (setPte m pgdir v w) pgdir u = pte m pgdir u :=
  (pte_setPte_of (setPte_dir h hv htab) htab fun hp => h.table_inj (div_lt hu) hp (div_lt hv)
    htab).trans (if_neg hne)

theorem sites_setPte_ne {x : Site} (hx : x ≠ .page v) :
    sites (setPte m pgdir v w) pgdir x = sites m pgdir x := by
  cases x with
  | dir => rfl
  | table d => simp only [sites, setPte_dir h hv htab]
  | page u =>
    by_cases hu : u < NPAGE
    · simp only [sites, pte_setPte_ne h hv htab hu fun heq => hx (by rw [heq])]
    · simp only [sites, hu, false_and, if_false]

theorem keeps_setPte : Keeps pgdir (· ≠ v) F m (setPte m pgdir v w) := by
  have hsite : sites m pgdir (.table (v / 1024)) = frameOf (m.word pgdir (v / 1024)) :=
    site_table (div_lt hv) htab
  refine ⟨fun u hu hne => pte_setPte_ne h hv htab hu hne, fun u hu _ hp => setPte_frame fun heq => ?_,
    fun f hf => setPte_frame fun heq => (h.own.flight f hf).2 _ (hsite.trans heq.symm)⟩
  have := h.own.inj (.page u) (.table (v / 1024)) (by rw [site_page hu hp]; exact h.page u hu hp)
    (by rw [site_page hu hp, hsite, heq])
  cases this

theorem Space.attachPage {perm : UInt32} (hf : f ∈ F) (habs : present (pte m pgdir v) = false)
    (hperm : perm.toNat < 4096) : Space lo pgdir (F \ {f}) (setPte m pgdir v (entry f perm)) := by
  have hlt : f < NFRAME := (h.own.flight f hf).1.2
  have hself := pte_setPte_self (w := entry f perm) h hv htab
  refine ⟨h.own.attach hf (x := .page v) ?_ ?_ fun y hy => sites_setPte_ne h hv htab hy, h.nodup,
    h.range, h.dir, ?_,
    fun u hu hp => ?_⟩
  · simp [sites, habs]
  · rw [site_page hv (by rw [hself]; exact present_entry hlt hperm), hself, frameOf_entry hlt hperm]
  · rw [setPte_dir h hv htab]
    exact h.table
  · by_cases hne : u = v
    · rw [hne, hself, frameOf_entry hlt hperm]
      have := h.own.pos
      have := (h.own.flight f hf).1
      omega
    · rw [pte_setPte_ne h hv htab hu hne] at hp ⊢
      exact h.page u hu hp

/-- A page is unmapped, and its frame in other hands. -/
theorem Space.detachPage (hp : present (pte m pgdir v) = true) :
    Space lo pgdir (insert (frameOf (pte m pgdir v)) F) (setPte m pgdir v 0) := by
  have hself := pte_setPte_self (w := 0) h hv htab
  refine ⟨?_, h.nodup, h.range, h.dir, ?_, fun u hu hp => ?_⟩
  · have hset : insert (frameOf (pte m pgdir v)) F = F ∪ { b | b ≠ 0 ∧ ∃ y, y = Site.page v ∧
      sites m pgdir y = b } := by
      ext b
      have := h.page v hv hp
      simp only [Set.mem_insert_iff, Set.mem_union, Set.mem_ofPred_eq, exists_eq_left, site_page hv hp]
      grind
    rw [hset]
    exact h.own.detach (fun y hy => by rw [hy]; simp [sites, hself]) fun y hy =>
      sites_setPte_ne h hv htab hy
  · rw [setPte_dir h hv htab]
    exact h.table
  · by_cases hne : u = v
    · rw [hne, hself] at hp
      cases hp
    · rw [pte_setPte_ne h hv htab hu hne] at hp ⊢
      exact h.page u hu hp

end

/-- The memory after the entry of page table `d` is set. -/
def setPde (m : Mem) (pgdir d : ℕ) (w : UInt32) : Mem :=
  { m with word := update m.word pgdir (update (m.word pgdir) d w) }

theorem setPde_self : (setPde m pgdir d w).word pgdir d = w := by simp [setPde]

theorem setPde_ne {e : ℕ} (he : e ≠ d) :
    (setPde m pgdir d w).word pgdir e = m.word pgdir e := by simp [setPde, he]

/-- An empty page table is put in the page directory. -/
theorem Space.attachTable (h : Space lo pgdir F m) (hd : d < 512)
    (habs : present (m.word pgdir d) = false) (ht : t ∈ F) (hzero : m.word t = fun _ => 0) :
    Space lo pgdir (F \ {t}) (setPde m pgdir d (userEntry t)) ∧
      Keeps pgdir (fun _ => True) F m (setPde m pgdir d (userEntry t)) := by
  have hlt : t < NFRAME := (h.own.flight t ht).1.2
  have hself : (setPde m pgdir d (userEntry t)).word pgdir d = userEntry t := setPde_self
  have hne : ∀ e, e ≠ d → (setPde m pgdir d (userEntry t)).word pgdir e = m.word pgdir e :=
    fun _ => setPde_ne
  have hframe : ∀ f, f ≠ pgdir → (setPde m pgdir d (userEntry t)).word f = m.word f := fun f hf =>
    update_of_ne hf ..
  have hother : ∀ f ∈ F, f ≠ pgdir := fun f hf heq => (h.own.flight f hf).2 .dir heq.symm
  have hpte : ∀ v, v < NPAGE → pte (setPde m pgdir d (userEntry t)) pgdir v = pte m pgdir v :=
    fun v hv => by
    by_cases hvd : v / 1024 = d
    · -- the page had no table, and now has one with nothing in it
      unfold pte
      rw [hvd, hself, if_pos (present_userEntry hlt), if_neg (by simp [habs]), frameOf_userEntry hlt,
        hframe t (hother t ht), hzero]
    · exact pte_congr (hne _ hvd) fun hp => by rw [hframe _ (h.dir_ne_table (div_lt hv) hp).symm]
  have hsites : ∀ x, x ≠ .table d → sites (setPde m pgdir d (userEntry t)) pgdir x = sites m pgdir
    x := fun x hx => by
    cases x with
    | dir => rfl
    | table e => simp only [sites, hne e fun heq => hx (by rw [heq])]
    | page v =>
      by_cases hv : v < NPAGE
      · simp only [sites, hpte v hv]
      · simp only [sites, hv, false_and, if_false]
  refine ⟨⟨?_, h.nodup, h.range, h.dir, fun e he hp => ?_, fun v hv => ?_⟩, fun v hv _ => hpte v hv,
    fun v hv _ hp => hframe _ fun heq => ?_, fun f hf => hframe f (hother f hf)⟩
  · refine h.own.attach ht (x := .table d) (by simp [sites, habs]) ?_ hsites
    rw [site_table hd (by rw [hself]; exact present_userEntry hlt), hself, frameOf_userEntry hlt]
  · by_cases hed : e = d
    · rw [hed, hself, frameOf_userEntry hlt]
      have := h.own.pos
      have := (h.own.flight t ht).1
      omega
    · rw [hne e hed] at hp ⊢
      exact h.table e he hp
  · rw [hpte v hv]
    exact h.page v hv
  · have := h.own.inj .dir (.page v) h.dir (by rw [site_page hv hp]; exact heq.symm)
    cases this

/-! ### Page table entries are found -/

theorem PDX_page (hv : v < NPAGE) : PDX (4096 * v) = v / 1024 := by
  have : v < 0x80000 := hv
  unfold PDX
  omega

theorem PTX_page : PTX (4096 * v) = v % 1024 := by
  unfold PTX
  omega

/-- What `walkpgdir` finds without `alloc`. -/
theorem sat_find (hv : v < NPAGE) : Sat (walkpgdir pgdir (4096 * v) false) m (fun r m' => m' = m ∧
    r = if present (m.word pgdir (v / 1024)) = true then some (frameOf (m.word pgdir (v / 1024)),
      v % 1024) else none)
    fun _ => False := by
  refine .get_bind ?_
  rw [PDX_page hv, PTX_page]
  by_cases hp : present (m.word pgdir (v / 1024)) = true
  · simp only [hp, if_true]
    exact .pure ⟨rfl, rfl⟩
  · simp only [hp, Bool.not_false, if_true]
    exact .pure ⟨rfl, rfl⟩

/-- Memory after a frame `t` was allocated and filled with zeros. -/
structure Zeroed (lo pgdir : ℕ) (F : Set ℕ) (t : ℕ) (m m' : Mem) : Prop where
  space : Space lo pgdir (insert t F) m'
  new : t ∉ F
  keeps : Keeps pgdir (fun _ => True) F m m'
  zero : m'.word t = fun _ => 0
  dir : m'.word pgdir = m.word pgdir
  cost : m.freelist.length = m'.freelist.length + 1

theorem Space.zeroed (h : Space lo pgdir (insert t F) m') (ht : t ∉ F) (hw : m'.word = m.word)
    (hlist : m.freelist = t :: m'.freelist) :
    Zeroed lo pgdir F t m { m' with word := update m'.word t fun _ => 0 } := by
  have htm : t ∈ insert t F := mem_insert ..
  obtain ⟨h', hk⟩ := h.write htm fun _ => 0
  have hdir : pgdir ≠ t := (h.own.flight t htm).2 .dir
  refine ⟨h', ht, Keeps.trans (.of_word hw) (hk.mono (fun _ h => h) fun f hf =>
    ⟨Set.mem_insert_of_mem _ hf, fun heq => ?_⟩),
    Function.update_self .., ?_, by rw [hlist]; rfl⟩
  · exact ht (heq ▸ hf)
  · rw [← hw]
    exact update_of_ne hdir ..

/-- Whether `walkpgdir` has to make a table. -/
def fresh (m : Mem) (pgdir v : ℕ) : ℕ := if present (m.word pgdir (v / 1024)) = true then 0 else 1

/-- The page directory is the same but for the table of page `v`, which is there, for one free frame
if it is new. -/
structure Tabled (pgdir v : ℕ) (m m' : Mem) : Prop where
  has : present (m'.word pgdir (v / 1024)) = true
  same : ∀ d, d ≠ v / 1024 → m'.word pgdir d = m.word pgdir d
  cost : m.freelist.length = m'.freelist.length + fresh m pgdir v

/-- With `alloc` it finds a place, unless it needs a frame and there is none. -/
theorem sat_walkpgdir (h : Space lo pgdir F m) (hv : v < NPAGE) :
    Sat (walkpgdir pgdir (4096 * v) true) m (fun r m' => Space lo pgdir F m' ∧
      Keeps pgdir (fun _ => True) F m m' ∧ Grows pgdir m m' ∧ Upper pgdir m m' ∧ match r with
      | none => m.freelist.length < fresh m pgdir v
      | some p => Tabled pgdir v m m' ∧ p = (frameOf (m'.word pgdir (v / 1024)), v % 1024)) fun _ =>
      False := by
  refine .get_bind ?_
  rw [PDX_page hv, PTX_page]
  by_cases hp : present (m.word pgdir (v / 1024)) = true
  · simp only [hp, if_true]
    exact .pure ⟨h, .refl m, .of_dir rfl, .of_dir rfl,
      ⟨hp, fun _ _ => rfl, by rw [fresh, if_pos hp, Nat.add_zero]⟩, rfl⟩
  · have hfresh : fresh m pgdir v = 1 := if_neg hp
    simp only [hp, Bool.not_true, Bool.false_eq_true, if_false]
    refine (sat_kalloc h).bind fun r m1 hr => ?_
    cases r with
    | none =>
      obtain ⟨rfl, hnil⟩ := hr
      exact .pure ⟨h, .refl _, .of_dir rfl, .of_dir rfl, by simp [hnil, hfresh]⟩
    | some t =>
      obtain ⟨h1, htF, hword, hlist⟩ := hr
      have hz := h1.zeroed htF hword hlist
      refine .modify_bind (.modify_bind (.pure ?_))
      generalize { m1 with word := update m1.word t fun _ => 0 } = m2 at hz ⊢
      obtain ⟨h3, hk⟩ := hz.space.attachTable (div_lt hv) (by rw [hz.dir]; simpa using hp)
        (mem_insert ..) hz.zero
      have hlt : t < NFRAME := (hz.space.own.flight t (mem_insert ..)).1.2
      have hhas : present ((setPde m2 pgdir (v / 1024) (userEntry t)).word pgdir (v / 1024)) = true := by
        rw [setPde_self]
        exact present_userEntry hlt
      rw [Set.insert_sdiff_of_mem _ (Set.mem_singleton t), Set.sdiff_singleton_eq_self htF] at h3
      have hsame : ∀ d, d ≠ v / 1024 → (setPde m2 pgdir (v / 1024) (userEntry t)).word pgdir d =
        m.word pgdir d :=
        fun d hdv => by rw [setPde_ne hdv, hz.dir]
      refine ⟨h3, hz.keeps.trans (hk.mono (fun _ h => h) (subset_insert ..)), fun d hd =>
        hsame d fun heq => hp (heq ▸ hd),
        fun d hd => hsame d (lt_of_lt_of_le (div_lt hv) hd).ne', ⟨hhas, hsame, ?_⟩, ?_⟩
      · rw [hz.cost, hfresh]
      · show (t, _) = (frameOf ((setPde m2 pgdir (v / 1024) (userEntry t)).word pgdir (v / 1024)), _)
        rw [setPde_self, frameOf_userEntry hlt]

theorem sat_mappage {perm : UInt32} (h : Space lo pgdir F m) (hv : v < NPAGE) (hf : f ∈ F)
    (habs : present (pte m pgdir v) = false) (hperm : perm.toNat < 4096) :
    Sat (mappages pgdir (4096 * v) 4096 f perm) m (fun r m' => match r with
      | true => Space lo pgdir (F \ {f}) m' ∧ Keeps pgdir (· ≠ v) F m m' ∧ Grows pgdir m m' ∧
      Upper pgdir m m' ∧
          pte m' pgdir v = entry f perm ∧ Tabled pgdir v m m'
      | false => Space lo pgdir F m' ∧ Keeps pgdir (fun _ => True) F m m' ∧ Grows pgdir m m' ∧
      Upper pgdir m m' ∧
          m.freelist.length < fresh m pgdir v)
      fun _ => False := by
  have hlast : (PGROUNDDOWN (4096 * v + 4096 - 1) - PGROUNDDOWN (4096 * v)) / 4096 = 0 := by
    unfold PGROUNDDOWN
    omega
  have hstart : PGROUNDDOWN (4096 * v) = 4096 * v := by
    unfold PGROUNDDOWN
    omega
  unfold mappages
  rw [hlast, hstart]
  unfold mapFrom
  refine (sat_walkpgdir h hv).bind fun r m1 hr => ?_
  obtain ⟨h1, hk, hg, hup, hr⟩ := hr
  cases r with
  | none => exact .pure ⟨h1, hk, hg, hup, hr⟩
  | some p =>
    obtain ⟨ht, rfl⟩ := hr
    have habs1 : present (pte m1 pgdir v) = false := by rw [hk.pte v hv trivial, habs]
    have hword : m1.word (frameOf (m1.word pgdir (v / 1024))) (v % 1024) = pte m1 pgdir v :=
      (if_pos ht.has).symm
    refine .get_bind ?_
    simp only [hword, habs1, Bool.false_eq_true, if_false]
    have hdir := setPte_dir (w := entry f perm) h1 hv ht.has
    refine .modify_bind (.pure ⟨h1.attachPage hv ht.has hf habs1 hperm, ?_, hg.trans (.of_dir hdir),
      hup.trans (.of_dir hdir), pte_setPte_self h1 hv ht.has, ?_⟩)
    · exact (hk.mono (fun _ _ => trivial) subset_rfl).trans (keeps_setPte h1 hv ht.has)
    · exact ⟨(congrFun hdir _).symm ▸ ht.has, fun d hd => (congrFun hdir d).trans (ht.same d hd), ht.cost⟩

/-! ### Deallocation -/

/-- The pages of `R` are gone, the others as before. -/
structure Cleared (pgdir : ℕ) (R : ℕ → Prop) (F : Set ℕ) (m m' : Mem) : Prop where
  keeps : Keeps pgdir (fun u => ¬R u) F m m'
  absent : ∀ u, u < NPAGE → R u → present (pte m' pgdir u) = false

variable {R R' : ℕ → Prop}

theorem Cleared.of_absent (h : ∀ u, u < NPAGE → R u → present (pte m pgdir u) = false) :
    Cleared pgdir R F m m :=
  ⟨.refl m, h⟩

theorem Cleared.trans (h : Cleared pgdir R F m m') (h' : Cleared pgdir R' F m' m'') :
    Cleared pgdir (fun u => R u ∨ R' u) F m m'' := by
  refine ⟨(h.keeps.mono (fun u hu hR => hu (.inl hR)) subset_rfl).trans
    (h'.keeps.mono (fun u hu hR => hu (.inr hR)) subset_rfl), fun u hu hR => ?_⟩
  by_cases hR' : R' u
  · exact h'.absent u hu hR'
  · rw [h'.keeps.pte u hu hR']
    exact h.absent u hu (hR.resolve_right hR')

theorem Cleared.mono (h : Cleared pgdir R F m m') (hF : F' ⊆ F) : Cleared pgdir R F' m m' :=
  ⟨h.keeps.mono (fun _ h => h) hF, h.absent⟩

theorem Cleared.before (h : Cleared pgdir R F m m') (h' : Keeps pgdir (fun _ => True) F m' m'') :
    Cleared pgdir R F m m'' :=
  ⟨h.keeps.trans (h'.mono (fun _ _ => trivial) subset_rfl),
    fun u hu hR => by rw [h'.pte u hu trivial]; exact h.absent u hu hR⟩

/-- Pages that are cleared in the end may have been anything in between. -/
theorem Cleared.after (h' : Cleared pgdir R F m' m'') (h : Keeps pgdir (fun u => ¬R u) F m m') :
    Cleared pgdir R F m m'' :=
  ⟨h.trans h'.keeps, h'.absent⟩

/-- The pages of `R` are gone, and their frames are free, each of them once. Nothing else has
changed. -/
structure Unmapped (pgdir : ℕ) (R : ℕ → Prop) (F : Set ℕ) (m m' : Mem) :
    Prop extends Cleared pgdir R F m m' where
  dir : m'.word pgdir = m.word pgdir
  freed : ∃ L, m'.freelist = L ++ m.freelist ∧
    ∀ f, f ∈ L ↔ ∃ u, u < NPAGE ∧ R u ∧ present (Vm.pte m pgdir u) = true ∧ frameOf (Vm.pte m pgdir u) = f
  word : ∀ f, m'.word f ≠ m.word f → ∃ u, u < NPAGE ∧ R u ∧ present (Vm.pte m pgdir u) = true ∧
    (f = frameOf (Vm.pte m pgdir u) ∨ f = frameOf (m.word pgdir (u / 1024)))

theorem Unmapped.of_absent (h : ∀ u, u < NPAGE → R u → present (pte m pgdir u) = false) :
    Unmapped pgdir R F m m := by
  refine ⟨.of_absent h, rfl, ⟨[], rfl, fun f => iff_of_false (by simp) ?_⟩, fun f hf => absurd rfl hf⟩
  rintro ⟨u, hu, hR, hp, -⟩
  rw [h u hu hR] at hp
  cases hp

theorem Unmapped.trans (h : Unmapped pgdir R F m m') (h' : Unmapped pgdir R' F m' m'') :
    Unmapped pgdir (fun u => R u ∨ R' u) F m m'' := by
  -- a page that is there after the first part was there before it, with the same entry
  have hthere : ∀ u, u < NPAGE → present (pte m' pgdir u) = true → ¬R u ∧ pte m' pgdir u =
    pte m pgdir u := fun u hu hp => by
    have hR : ¬R u := fun hR => by
      rw [h.absent u hu hR] at hp
      cases hp
    exact ⟨hR, h.keeps.pte u hu hR⟩
  refine ⟨h.toCleared.trans h'.toCleared, h'.dir.trans h.dir, ?_, fun f hf => ?_⟩
  · obtain ⟨L, hL, hmem⟩ := h.freed
    obtain ⟨L', hL', hmem'⟩ := h'.freed
    refine ⟨L' ++ L, by rw [hL', hL, List.append_assoc], fun f => ?_⟩
    rw [List.mem_append, hmem, hmem']
    constructor
    · rintro (⟨u, hu, hR, hp, rfl⟩ | ⟨u, hu, hR, hp, rfl⟩)
      · obtain ⟨-, heq⟩ := hthere u hu hp
        rw [heq] at hp ⊢
        exact ⟨u, hu, .inr hR, hp, rfl⟩
      · exact ⟨u, hu, .inl hR, hp, rfl⟩
    · rintro ⟨u, hu, hR, hp, rfl⟩
      by_cases hRu : R u
      · exact .inr ⟨u, hu, hRu, hp, rfl⟩
      · have heq := h.keeps.pte u hu hRu
        exact .inl ⟨u, hu, hR.resolve_left hRu, by rw [heq]; exact hp, by rw [heq]⟩
  · by_cases hf' : m'.word f = m.word f
    · rw [← hf'] at hf
      obtain ⟨u, hu, hR, hp, hor⟩ := h'.word f hf
      obtain ⟨-, heq⟩ := hthere u hu hp
      rw [heq] at hp hor
      rw [h.dir] at hor
      exact ⟨u, hu, .inr hR, hp, hor⟩
    · obtain ⟨u, hu, hR, hp, hor⟩ := h.word f hf'
      exact ⟨u, hu, .inl hR, hp, hor⟩

theorem Unmapped.congr (h : Unmapped pgdir R F m m') (hR : ∀ u, R' u ↔ R u) :
    Unmapped pgdir R' F m m' := by
  have : R' = R := funext fun u => propext (hR u)
  rwa [this]

/-- One page is unmapped: its frame is freed before the entry is. -/
theorem sat_unmap (h : Space lo pgdir F m) (hv : v < NPAGE)
    (htab : present (m.word pgdir (v / 1024)) = true) (hp : present (pte m pgdir v) = true) :
    Sat (do kfree lo (frameOf (pte m pgdir v)); setWord (frameOf
      (m.word pgdir (v / 1024))) (v % 1024) 0) m (fun _ m' => Space lo pgdir F m' ∧
        Unmapped pgdir (· = v) F m m') fun _ => False := by
  have hsite := site_page hv hp
  have hne := h.page v hv hp
  obtain ⟨hlo, hhi⟩ := h.own.range (.page v) (by rwa [hsite])
  rw [hsite] at hlo hhi
  -- the two steps the other way round
  have h1 := h.detachPage hv htab hp
  have hmem : frameOf (pte m pgdir v) ∈ insert (frameOf (pte m pgdir v)) F := mem_insert ..
  have hnF : frameOf (pte m pgdir v) ∉ F := fun hF => (h.own.flight _ hF).2 _ hsite
  obtain ⟨h2, hk, -⟩ := h1.freed hmem
  rw [Set.insert_sdiff_of_mem _ (Set.mem_singleton _), Set.sdiff_singleton_eq_self hnF] at h2 hk
  have hne' : frameOf (m.word pgdir (v / 1024)) ≠ frameOf (pte m pgdir v) := fun heq => by
    have := h.own.inj (.page v) (.table (v / 1024)) (by rwa [hsite])
      (by rw [hsite, site_table (div_lt hv) htab, heq])
    cases this
  have hcleared : Cleared pgdir (· = v) F m (setPte m pgdir v 0) :=
    ⟨keeps_setPte h hv htab, fun u _ hu => by rw [show u = v from hu, pte_setPte_self h hv htab]; rfl⟩
  have hrun :
    (do kfree lo (frameOf (pte m pgdir v)); setWord (frameOf
      (m.word pgdir (v / 1024))) (v % 1024) 0 : VmM Unit) m =
      .ok ((), freed (setPte m pgdir v 0) (frameOf (pte m pgdir v))) := by
    rw [bind_run (kfree_run hlo hhi), freed_setPte hne']
    rfl
  have hdir : pgdir ≠ frameOf (pte m pgdir v) := fun heq => by
    have := h.own.inj .dir (.page v) h.dir (by rw [hsite]; exact heq)
    cases this
  unfold Sat
  rw [hrun]
  refine ⟨h2, hcleared.before hk, ?_, ⟨[frameOf (pte m pgdir v)], rfl, fun f => ?_⟩, fun f hf =>
    ⟨v, hv, rfl, hp, ?_⟩⟩
  · show update (setPte m pgdir v 0).word _ _ pgdir = _
    rw [update_of_ne hdir, setPte_dir h hv htab]
  · rw [List.mem_singleton]
    constructor
    · rintro rfl
      exact ⟨v, hv, rfl, hp, rfl⟩
    · rintro ⟨u, -, rfl, -, rfl⟩
      rfl
  · by_contra hno
    rw [not_or] at hno
    exact hf ((update_of_ne hno.1 ..).trans (setPte_frame hno.2))

/-- The loop frees the pages from `v` on up to `oldsz`. -/
theorem sat_deallocFrom (hsz : oldsz ≤ KERNBASE) (fuel v : ℕ) (m : Mem)
    (h : Space lo pgdir F m) (hfuel : oldsz ≤ 4096 * v + 4096 * fuel) :
    Sat (deallocFrom lo pgdir oldsz fuel (4096 * v)) m
      (fun _ m' => Space lo pgdir F m' ∧ Unmapped pgdir (fun u => v ≤ u ∧ 4096 * u < oldsz) F m m')
      fun _ => False := by
  induction fuel generalizing v m with
  | zero => exact .pure ⟨h, .of_absent fun u _ hu => by omega⟩
  | succ fuel ih =>
    have hK : oldsz ≤ 0x80000000 := hsz
    unfold deallocFrom
    refine .ite (fun hle => .pure ⟨h, .of_absent fun u _ hu => by omega⟩) fun hlt => ?_
    have hv : v < NPAGE := by
      show v < 0x80000
      omega
    refine (sat_find hv).bind ?_
    rintro r m1 ⟨rfl, hr⟩
    by_cases htab : present (m1.word pgdir (v / 1024)) = true
    · rw [if_pos htab] at hr
      have hword : m1.word (frameOf (m1.word pgdir (v / 1024))) (v % 1024) = pte m1 pgdir v :=
        (if_pos htab).symm
      subst hr
      refine .get_bind ?_
      simp only [hword]
      by_cases hp : present (pte m1 pgdir v) = true
      · simp only [hp, if_true, h.page v hv hp, if_false]
        refine .assoc ((sat_unmap h hv htab hp).bind ?_)
        rintro _ m2 ⟨h2, hc⟩
        refine (ih (v + 1) m2 h2 (by omega)).post ?_
        rintro _ m3 ⟨h3, hc'⟩
        exact ⟨h3, (hc.trans hc').congr fun u => by omega⟩
      · simp only [hp, Bool.false_eq_true, if_false]
        refine (ih (v + 1) m1 h (by omega)).post ?_
        rintro _ m3 ⟨h3, hc'⟩
        have hc : Unmapped pgdir (· = v) F m1 m1 := .of_absent fun u _ hu => by
          rw [show u = v from hu]
          simpa using hp
        exact ⟨h3, (hc.trans hc').congr fun u => by omega⟩
    · -- no table: the pages of it are all absent
      rw [if_neg htab] at hr
      subst hr
      have hnext : (PDX (4096 * v) + 1) * 2 ^ 22 = 4096 * ((v / 1024 + 1) * 1024) := by
        rw [PDX_page hv]
        omega
      simp only [hnext]
      refine (ih _ m1 h (by omega)).post ?_
      rintro _ m3 ⟨h3, hc'⟩
      have hc : Unmapped pgdir (fun u => (v ≤ u ∧ u / 1024 = v / 1024) ∧ 4096 * u < oldsz) F m1
        m1 := .of_absent fun u _ hu => by
        unfold pte
        rw [hu.1.2, if_neg htab]
        rfl
      exact ⟨h3, (hc.trans hc').congr fun u => by omega⟩

/-- The pages below `PGROUNDUP(sz)` are those that begin below `sz`. -/
theorem PGROUNDUP_eq {sz : ℕ} (hsz : sz ≤ KERNBASE) : PGROUNDUP sz = 4096 * ((sz + 4095) / 4096) := by
  have : sz ≤ 0x80000000 := hsz
  unfold PGROUNDUP
  omega

theorem sat_deallocuvm (hsz : oldsz ≤ KERNBASE) (hlt : newsz < oldsz) (h : Space lo pgdir F m) :
    Sat (deallocuvm lo pgdir oldsz newsz) m (fun r m' => r = newsz ∧ Space lo pgdir F m' ∧
      Unmapped pgdir (fun u => newsz ≤ 4096 * u ∧ 4096 * u < oldsz) F m m') fun _ => False := by
  unfold deallocuvm
  rw [if_neg (by omega), PGROUNDUP_eq (hlt.le.trans hsz)]
  refine (sat_deallocFrom hsz _ _ m h (by omega)).bind ?_
  rintro _ m' ⟨h', hc⟩
  exact .pure ⟨rfl, h', hc.congr fun u => by omega⟩

/-! ### Allocation -/

/-- The pages of `R` are there and zero, the others as before. -/
structure Filled (pgdir : ℕ) (R : ℕ → Prop) (F : Set ℕ) (m m' : Mem) : Prop where
  keeps : Keeps pgdir (fun u => ¬R u) F m m'
  new : ∀ u, u < NPAGE → R u → present (pte m' pgdir u) = true
  zero : ∀ u, u < NPAGE → R u → m'.word (frameOf (pte m' pgdir u)) = fun _ => 0

theorem Filled.trans (h : Filled pgdir R F m m') (h' : Filled pgdir R' F m' m'') :
    Filled pgdir (fun u => R u ∨ R' u) F m m'' := by
  refine ⟨(h.keeps.mono (fun u hu hR => hu (.inl hR)) subset_rfl).trans
    (h'.keeps.mono (fun u hu hR => hu (.inr hR)) subset_rfl), fun u hu hR => ?_, fun u hu hR => ?_⟩
  · by_cases hR' : R' u
    · exact h'.new u hu hR'
    · rw [h'.keeps.pte u hu hR']
      exact h.new u hu (hR.resolve_right hR')
  · by_cases hR' : R' u
    · exact h'.zero u hu hR'
    · have hR := hR.resolve_right hR'
      rw [h'.keeps.pte u hu hR', h'.keeps.page u hu hR' (h.new u hu hR), h.zero u hu hR]

theorem Filled.congr (h : Filled pgdir R F m m') (hR : ∀ u, R' u ↔ R u) : Filled pgdir R' F m m' := by
  have : R' = R := funext fun u => propext (hR u)
  rwa [this]

/-- The page tables that pages `v` to `v'` lack. -/
def lacking (m : Mem) (pgdir v v' : ℕ) : Finset ℕ :=
  ((Finset.Ico v v').image (· / 1024)).filter fun d => present (m.word pgdir d) = false

/-- How many frames it takes to map pages `v` to `v'`: the pages, and tables for them. -/
def need (m : Mem) (pgdir v v' : ℕ) : ℕ := v' - v + (lacking m pgdir v v').card

theorem card_erase_lacking (hv : v < v') :
    ((lacking m pgdir v v').erase (v / 1024)).card + fresh m pgdir v = (lacking m pgdir v v').card := by
  unfold fresh
  split_ifs with hp
  · rw [Finset.erase_eq_of_notMem, Nat.add_zero]
    simp [lacking, hp]
  · refine Finset.card_erase_add_one ?_
    exact Finset.mem_filter.mpr ⟨Finset.mem_image_of_mem _ (Finset.mem_Ico.mpr ⟨le_rfl, hv⟩),
      by simpa using hp⟩

theorem le_need (hv : v < v') : 1 + fresh m pgdir v ≤ need m pgdir v v' := by
  have herase : ((lacking m pgdir v v').erase (v / 1024)).card + fresh m pgdir v =
    (lacking m pgdir v v').card :=
    card_erase_lacking hv
  unfold need
  omega

theorem need_step (hv : v < v') (hhas : present (m'.word pgdir (v / 1024)) = true)
    (hsame : ∀ d, d ≠ v / 1024 → m'.word pgdir d = m.word pgdir d) :
    need m' pgdir (v + 1) v' + 1 + fresh m pgdir v = need m pgdir v v' := by
  have herase : (lacking m pgdir v v').erase (v / 1024) = lacking m' pgdir (v + 1) v' := by
    ext d
    simp only [lacking, Finset.mem_filter, Finset.mem_image, Finset.mem_Ico, Finset.mem_erase]
    by_cases hd : d = v / 1024
    · simp [hd, hhas]
    · rw [hsame d hd]
      constructor
      · rintro ⟨-, ⟨u, hu, rfl⟩, habs⟩
        exact ⟨⟨u, ⟨lt_of_le_of_ne hu.1 fun heq => hd (heq ▸ rfl), hu.2⟩, rfl⟩, habs⟩
      · rintro ⟨⟨u, hu, rfl⟩, habs⟩
        exact ⟨hd, ⟨u, ⟨by omega, hu.2⟩, rfl⟩, habs⟩
  have hcard : ((lacking m pgdir v v').erase (v / 1024)).card + fresh m pgdir v =
    (lacking m pgdir v v').card :=
    card_erase_lacking hv
  rw [herase] at hcard
  unfold need
  omega

/-- A page is allocated, filled with zeros and mapped. -/
theorem Zeroed.mapped (hz : Zeroed lo pgdir F f m m') (hk : Keeps pgdir (· ≠ v) (insert f F) m' m'')
    (hpte : pte m'' pgdir v = userEntry f) : Filled pgdir (· = v) F m m'' := by
  have hlt : f < NFRAME := (hz.space.own.flight f (mem_insert ..)).1.2
  refine ⟨(hz.keeps.mono (fun _ _ => trivial) subset_rfl).trans
    (hk.mono (fun _ h => h) (subset_insert ..)),
    fun u _ hu => ?_, fun u _ hu => ?_⟩
  · rw [show u = v from hu, hpte]
    exact present_userEntry hlt
  · rw [show u = v from hu, hpte, frameOf_userEntry hlt, hk.other f (mem_insert ..), hz.zero]

/-- What an allocation of the pages from `v` on comes to: it maps them all, or it runs out of frames
and has the pages from `oldsz` on unmapped. -/
def Allocated (lo pgdir : ℕ) (F : Set ℕ) (oldsz newsz v : ℕ) (m : Mem) (r : ℕ) (m' : Mem) : Prop :=
  Space lo pgdir F m' ∧
    (r = newsz ∧ Filled pgdir (fun u => v ≤ u ∧ 4096 * u < newsz) F m m' ∧
        need m pgdir v ((newsz + 4095) / 4096) ≤ m.freelist.length ∨
      r = 0 ∧ Cleared pgdir (fun u => oldsz ≤ 4096 * u ∧ 4096 * u < newsz) F m m' ∧
        m.freelist.length < need m pgdir v ((newsz + 4095) / 4096))

/-- The entries of the pages from `v` on are those of user pages. -/
def Entered (pgdir newsz v : ℕ) (m' : Mem) : Prop :=
  ∀ u, v ≤ u → 4096 * u < newsz → ∃ f, f < NFRAME ∧ pte m' pgdir u = userEntry f

/-- There is no page left to allocate. -/
theorem Space.allocated (h : Space lo pgdir F m) (hle : newsz ≤ 4096 * v) :
    Allocated lo pgdir F oldsz newsz v m newsz m ∧ Grows pgdir m m ∧ Upper pgdir m m ∧
      (newsz = newsz → 0 < newsz → Entered pgdir newsz v m) := by
  refine ⟨⟨h, .inl ⟨rfl, ⟨.refl m, fun u _ hu => by omega, fun u _ hu => by omega⟩, ?_⟩⟩,
    .of_dir rfl, .of_dir rfl,
    fun _ _ u hu hlt => by omega⟩
  rw [need, Nat.sub_eq_zero_of_le (by omega), lacking, Finset.Ico_eq_empty (by omega)]
  exact Nat.zero_le _

theorem sat_allocFrom (hsz : newsz < KERNBASE) (fuel v : ℕ) (m : Mem)
    (h : Space lo pgdir F m) (hold : oldsz ≤ 4096 * v) (hfuel : newsz ≤ 4096 * v + 4096 * fuel)
    (habs : ∀ u, u < NPAGE → v ≤ u → 4096 * u < newsz → present (pte m pgdir u) = false) :
    Sat (allocFrom lo pgdir oldsz newsz fuel (4096 * v)) m (fun r m' => Allocated lo pgdir F oldsz
      newsz v m r m' ∧ Grows pgdir m m' ∧ Upper pgdir m m' ∧
      (r = newsz → 0 < newsz → Entered pgdir newsz v m')) fun _ => False := by
  induction fuel generalizing v m with
  | zero =>
    exact .pure (h.allocated (by omega))
  | succ fuel ih =>
    have hK : newsz < 0x80000000 := hsz
    unfold allocFrom
    refine .ite (fun hle => .pure (h.allocated hle)) fun hlt => ?_
    have hv : v < NPAGE := by
      show v < 0x80000
      omega
    have hneed : 1 + fresh m pgdir v ≤ need m pgdir v ((newsz + 4095) / 4096) := le_need (by omega)
    refine (sat_kalloc h).bind fun r m1 hr => ?_
    cases r with
    | none =>
      obtain ⟨rfl, hnil⟩ := hr
      refine (sat_deallocuvm hsz.le (by omega) h).bind ?_
      rintro _ m' ⟨-, h', hc⟩
      exact .pure ⟨⟨h', .inr ⟨rfl, hc.toCleared, by rw [hnil, List.length_nil]; omega⟩⟩, .of_dir hc.dir,
        .of_dir hc.dir, fun h0 hpos => absurd h0.symm hpos.ne'⟩
    | some f =>
      obtain ⟨h1, hfF, hword, hlist⟩ := hr
      have hz := h1.zeroed hfF hword hlist
      refine .modify_bind ?_
      generalize { m1 with word := update m1.word f fun _ => 0 } = m2 at hz ⊢
      have hfresh : fresh m2 pgdir v = fresh m pgdir v := by
        unfold fresh
        rw [hz.dir]
      have habs2 : present (pte m2 pgdir v) = false := by
        rw [hz.keeps.pte v hv trivial]
        exact habs v hv le_rfl (by omega)
      have hset : insert f F \ {f} = F := by
        rw [Set.insert_sdiff_of_mem _ (Set.mem_singleton f), Set.sdiff_singleton_eq_self hfF]
      refine (sat_mappage hz.space hv (mem_insert ..) habs2 (by decide)).bind fun r m3 hr => ?_
      cases r with
      | true =>
        obtain ⟨h3, hk, hg, hup, hpte, ht⟩ := hr
        have hpte : pte m3 pgdir v = userEntry f := hpte
        have hlt' : f < NFRAME := (hz.space.own.flight f (mem_insert ..)).1.2
        have hgrows : Grows pgdir m m3 := Grows.trans (.of_dir hz.dir) hg
        have hupper : Upper pgdir m m3 := Upper.trans (.of_dir hz.dir) hup
        have hfill := hz.mapped hk hpte
        rw [hset] at h3
        simp only [if_true]
        refine (ih (v + 1) m3 h3 (by omega) (by omega) fun u hu hvu hun => ?_).post ?_
        · rw [hfill.keeps.pte u hu (by omega)]
          exact habs u hu (by omega) hun
        · have hstep : need m3 pgdir (v + 1) ((newsz + 4095) / 4096) + 1 + fresh m pgdir v =
              need m pgdir v ((newsz + 4095) / 4096) :=
            need_step (by omega) ht.has fun d hd => (ht.same d hd).trans (congrFun hz.dir d)
          have := hz.cost
          have := ht.cost
          rintro r m' ⟨⟨h', ⟨hr, hfill', hfree⟩ | ⟨hr, hc, hfew⟩⟩, hg', hup', hent⟩
          · refine ⟨⟨h', .inl ⟨hr, (hfill.trans hfill').congr fun u => by omega, by omega⟩⟩,
              hgrows.trans hg', hupper.trans hup',
              fun _ hpos u hu hun => ?_⟩
            by_cases huv : u = v
            · exact ⟨f, hlt', by rw [huv, hfill'.keeps.pte v hv (by omega), hpte]⟩
            · exact hent hr hpos u (by omega) hun
          · refine ⟨⟨h', .inr ⟨hr, hc.after (hfill.keeps.mono (fun u hu heq => hu ?_) subset_rfl),
              by omega⟩⟩, hgrows.trans hg',
              hupper.trans hup', fun h0 hpos => by omega⟩
            rw [show u = v from heq]
            omega
      | false =>
        obtain ⟨h3, hk, hg, hup, hfew⟩ := hr
        simp only [Bool.false_eq_true, if_false]
        refine (sat_deallocuvm hsz.le (by omega) h3).bind ?_
        rintro _ m4 ⟨-, h4, hc⟩
        refine (sat_kfree h4 (mem_insert f F)).bind ?_
        rintro _ m5 ⟨h5, hk5, hdir5⟩
        rw [hset] at h5 hk5
        have hkeep := hz.keeps.trans (hk.mono (fun _ h => h) (subset_insert ..))
        have hcost := hz.cost
        have hdir : m5.word pgdir = m4.word pgdir := hdir5
        refine .pure ⟨⟨h5, .inr ⟨rfl, ((hc.toCleared.mono (subset_insert ..)).before hk5).after
          (hkeep.mono (fun _ _ => trivial) subset_rfl), by omega⟩⟩, ?_, ?_, fun h0 hpos => by omega⟩
        · exact (Grows.of_dir hz.dir).trans (hg.trans (.of_dir (hdir.trans hc.dir)))
        · exact (Upper.of_dir hz.dir).trans (hup.trans (.of_dir (hdir.trans hc.dir)))

theorem sat_allocuvm (hsz : newsz < KERNBASE) (hle : oldsz ≤ newsz) (h : Space lo pgdir F m)
    (habs : ∀ u, u < NPAGE → oldsz ≤ 4096 * u → present (pte m pgdir u) = false) :
    Sat (allocuvm lo pgdir oldsz newsz) m (fun r m' => Allocated lo pgdir F oldsz newsz
      ((oldsz + 4095) / 4096) m r m' ∧ Grows pgdir m m' ∧ Upper pgdir m m' ∧
      (r = newsz → 0 < newsz → Entered pgdir newsz ((oldsz + 4095) / 4096) m')) fun _ => False := by
  unfold allocuvm
  rw [if_neg (by omega), if_neg (by omega), PGROUNDUP_eq (by omega)]
  exact sat_allocFrom hsz _ _ m h (by omega) (by omega) fun u hu hvu _ => habs u hu (by omega)

end

end Xv6.Vm
