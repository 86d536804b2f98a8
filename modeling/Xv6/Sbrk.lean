/-
# How much malloc asks for

malloc of umalloc.c over sbrk of the kernel: the number of units, their size in bytes and the `int`
that sbrk takes are 32-bit numbers. For requests up to 0x7ffffff0 bytes they are what they should
be: `malloc` returns 0, or a block that is large enough and in pages that the process has, and the
process never gets smaller (`malloc_size`).

Above that, sbrk is asked for a negative number of bytes, which shrinks the process or does nothing;
above 0xfffffff8 the units wrap to 1, and `malloc` returns a block with no room in it
(`malloc_no_room`).
-/
import Xv6.Growproc
import Xv6.Umalloc

namespace Xv6.Sbrk

open Prog Chain Umalloc
open Vm (Space KERNBASE NPAGE present pte)
open Vm.Growproc (growproc Fills Contract sat_growproc)

section

variable {ι : Type} [DecidableEq ι] {got got' : List (ℕ × ℕ)} {nu : UInt32}

def size (cur : ι) (w : Vm.Growproc.State ι) : ℕ := (w.proc cur).sz.toNat

/-- `sys_sbrk`. A kernel that has stopped returns nothing at all. -/
def sysSbrk (lo : ℕ) (cur : ι) : Os (Vm.Growproc.State ι) where
  sbrk n w :=
    let addr := size cur w
    match growproc lo cur n w with
    | .ok (r, w') => if r < 0 then (none, w') else (some addr, w')
    | .error _ => (none, w)

/-- The process has the pages below its size, and can call sbrk. -/
structure Process (lo : ℕ) (G : Set ℕ) (cur : ι) (w : Vm.Growproc.State ι) : Prop where
  space : Space lo (w.proc cur).pgdir G w.mem
  fills : Fills w.mem (w.proc cur)
  unlocked : w.locked = false

variable {lo base : ℕ} {G : Set ℕ} {cur : ι} {w w' : Vm.Growproc.State ι} {n : Int32} {nbytes : UInt32}
  {s : Umalloc.State (Vm.Growproc.State ι)} {F : List (ℕ × ℕ)}

/-! ### sbrk -/

omit [DecidableEq ι] in
theorem fills_of_unmoved {m' : Vm.Mem} {p : Vm.Growproc.Proc} {m : Vm.Mem} (h : Fills m p)
    (hu : Vm.Growproc.Unmoved p.pgdir m m') : Fills m' p := by
  refine ⟨h.1, fun v hv => ?_⟩
  rw [(hu v hv).1]
  exact h.2 v hv

/-- The process grows by what it asks for, or stays as it is. -/
theorem sbrk_spec (h : Process lo G cur w) (hn : 0 < n.toInt) :
    (∃ w', (sysSbrk lo cur).sbrk n w = (some (size cur w), w') ∧ size cur w' = size cur w +
      n.toInt.toNat ∧ Process lo G cur w') ∨
    ∃ w', (sysSbrk lo cur).sbrk n w = (none, w') ∧ size cur w' = size cur w ∧
    Fills w'.mem (w'.proc cur) := by
  obtain ⟨r, w', hrun, hc⟩ := (sat_growproc (n := n) h.space h.fills h.unlocked).exists_run
  have hneg : ¬n < 0 := by
    rw [Vm.Growproc.neg_iff]
    omega
  unfold sysSbrk
  dsimp only
  rw [hrun]
  rcases hc.returns with hr | hr
  · obtain ⟨hlt, hsz, hgrew, hproc⟩ := hc.grown (by omega) hr
    have hpgdir : (w'.proc cur).pgdir = (w.proc cur).pgdir := by
      rw [hproc, Vm.Growproc.setSizes_self]
    refine .inl ⟨w', if_neg (by omega), ?_, hpgdir ▸ hc.space, ⟨by omega, ?_⟩, hc.lock.mpr hr⟩
    · unfold size
      omega
    · rw [hpgdir]
      exact hgrew.mapped
  · obtain ⟨hproc, hun⟩ := hc.failed (fun h => hneg h.1) hr
    refine .inr ⟨w', if_pos (by omega), by unfold size; rw [hproc], ?_⟩
    rw [hproc]
    exact fills_of_unmoved h.fills hun

theorem freshAt (h : Process lo G cur w) : FreshAt (sysSbrk lo cur) (size cur) w := by
  refine ⟨fun n p w' hn hs => ?_, fun n w' hn hs => ?_⟩
  · rcases sbrk_spec h hn with ⟨w1, hs1, hsz, -⟩ | ⟨w1, hs1, -⟩
    · rw [hs1] at hs
      cases hs
      exact ⟨le_refl _, hsz.ge⟩
    · rw [hs1] at hs
      cases hs
  · rcases sbrk_spec h hn with ⟨w1, hs1, -⟩ | ⟨w1, hs1, hsz, -⟩
    · rw [hs1] at hs
      cases hs
    · rw [hs1] at hs
      cases hs
      exact hsz.ge

/-! ### malloc -/

/-- The process has got `got` from sbrk, and is larger by as much. -/
inductive Grown (lo : ℕ) (G : Set ℕ) (cur : ι) (w : Vm.Growproc.State ι) (got : List (ℕ × ℕ)) :
    Vm.Growproc.State ι → List (ℕ × ℕ) → Prop where
  | same {w' : Vm.Growproc.State ι} (hsz : size cur w' = size cur w)
      (hf : Fills w'.mem (w'.proc cur)) : Grown lo G cur w got w' got
  | more {w' : Vm.Growproc.State ι} {k : ℕ} (hsz : size cur w' = size cur w + k)
      (hp : Process lo G cur w') : Grown lo G cur w got w' ((size cur w, k) :: got)

omit [DecidableEq ι] in
theorem Grown.fills (h : Grown lo G cur w got w' got') : Fills w'.mem (w'.proc cur) := by
  cases h with
  | same _ hf => exact hf
  | more _ hp => exact hp.fills

theorem request_eq : (request nu).toNat = max 4096 nu.toNat := by
  unfold request
  split_ifs with hlt
  · have hlt : nu.toNat < 4096 := UInt32.lt_iff_toNat_lt.mp hlt
    rw [max_eq_left hlt.le]
    rfl
  · have hge : ¬nu.toNat < 4096 := fun h => hlt (UInt32.lt_iff_toNat_lt.mpr h)
    rw [max_eq_right (by omega)]

theorem grown_of_asked (h : Process lo G cur w) (hpos : 0 < nu.toNat) (hk : nu.toNat * 8 < 2 ^ 31)
    (ha : Asked (sysSbrk lo cur) nu w got w' got') : Grown lo G cur w got w' got' := by
  have hbytes := toInt_bytes (request_lt hk)
  have hle := le_request nu
  have hn : 0 < (request nu * 8).toInt32.toInt := by
    rw [hbytes]
    omega
  cases ha with
  | nothing => exact .same rfl h.fills
  | failed hs =>
    rcases sbrk_spec h hn with ⟨w1, hs1, -⟩ | ⟨w1, hs1, hsz, hf⟩
    · rw [hs1] at hs
      cases hs
    · rw [hs1] at hs
      cases hs
      exact .same hsz hf
  | given hs =>
    rcases sbrk_spec h hn with ⟨w1, hs1, hsz, hp⟩ | ⟨w1, hs1, -⟩
    · rw [hs1] at hs
      cases hs
      rw [hbytes] at hsz
      exact .more hsz hp
    · rw [hs1] at hs
      cases hs

/-- The number of units and the `int` that sbrk takes are what they should be exactly up to
0x7ffffff0 bytes: beyond, the bytes to ask for are more than an `int` can be. -/
theorem exact_iff : ((units nbytes).toNat = (nbytes.toNat + 7) / 8 + 1 ∧
    (request (units nbytes) * 8).toInt32.toInt = 8 * max 4096 ((nbytes.toNat + 7) / 8 + 1)) ↔
    nbytes.toNat ≤ 0x7ffffff0 := by
  constructor
  · rintro ⟨-, hbytes⟩
    have hlt : (request (units nbytes) * 8).toInt32.toInt < 2 ^ 31 := Int32.toInt_lt _
    omega
  · intro hn
    have hunits := units_eq (show Umalloc.Small nbytes by unfold Umalloc.Small; omega)
    refine ⟨hunits, ?_⟩
    rw [toInt_bytes (request_lt (by omega)), request_eq, hunits]
    push_cast
    rfl

/-- **Up to 0x7ffffff0 bytes, and no further, nothing wraps**: `malloc` returns 0, or a block with
room for them whose bytes sbrk has given and whose pages the process has; the process is larger by
what sbrk has given. -/
theorem malloc_size (hinv : Inv (size cur) base s F) (hproc : Process lo G cur s.os) :
    (((units nbytes).toNat = (nbytes.toNat + 7) / 8 + 1 ∧
      (request (units nbytes) * 8).toInt32.toInt = 8 * max 4096 ((nbytes.toNat + 7) / 8 + 1)) ↔
      nbytes.toNat ≤ 0x7ffffff0) ∧
    (nbytes.toNat ≤ 0x7ffffff0 → ∃ N r h w got,
      (∀ fuel, N ≤ fuel → malloc (sysSbrk lo cur).logged base fuel nbytes s.heap (s.os, s.got) =
        some (r, h, w, got)) ∧
      Grown lo G cur s.os s.got w got ∧
      (∃ F', Inv (size cur) base ⟨h, w, got, if r = 0 then s.live else ⟨r - 8, (units nbytes).toNat,
        nbytes.toNat⟩ :: s.live⟩ F') ∧
      (r = 0 ∨ nbytes.toNat ≤ 8 * (h.size (r - 8) - 1) ∧ ∀ x, r - 8 ≤ x → x < r - 8 + 8 * h.size (r - 8) →
        0 < cover 1 got x ∧ present (pte w.mem (w.proc cur).pgdir (x / 4096)) = true)) := by
  refine ⟨exact_iff, fun hn => ?_⟩
  have hunits := (exact_iff.mpr hn).1
  have hsmall : Umalloc.Small nbytes := by
    unfold Umalloc.Small
    omega
  obtain ⟨N, r, h, w, got, hend, hasked, F', hinv'⟩ := hinv.malloc (freshAt hproc) hsmall
  have hgrown := grown_of_asked hproc (by omega) (by omega) hasked
  refine ⟨N, r, h, w, got, hend, hgrown, ⟨F', hinv'⟩, ?_⟩
  rcases Nat.eq_zero_or_pos r with h0 | h0
  · exact .inl h0
  · rw [if_neg (by omega)] at hinv'
    obtain ⟨hsize, -, hroom⟩ := hinv'.live _ List.mem_cons_self
    dsimp only at hsize hroom
    refine .inr ⟨hsize ▸ hroom, fun x hlo hhi => ?_⟩
    rw [hsize] at hhi
    have hlive :
      0 < cover 8 (List.map Live.block (⟨r - 8, (units nbytes).toNat, nbytes.toNat⟩ :: s.live)) x :=
      cover_pos.mpr ⟨_, List.mem_cons_self, hlo, hhi⟩
    have hgot : 0 < cover 1 got x := by
      have := hinv'.bytes x
      dsimp only at this
      omega
    have hx : x < size cur w := (hinv'.range x hgot).2
    have hfills := hgrown.fills
    have hK : size cur w ≤ 0x80000000 := hfills.1
    refine ⟨hgot, (hfills.2 (x / 4096) ?_).mpr ?_⟩
    · show x / 4096 < 0x80000
      omega
    · unfold size at hx
      omega

end

/-! ### A heap with one free block -/

/-- The process of one page, with three units of it free. -/
def threeUnits : Umalloc.State (Vm.Growproc.State (Fin 64)) where
  heap := { ptr := fun x =>
    if x = 8 then 16 else 8, size := fun x => if x = 16 then 3 else 0, freep := 8 }
  os := Vm.Growproc.start
  got := [(16, 24)]
  live := []

theorem inv_threeUnits : Inv (size 0) 8 threeUnits [(16, 3)] := by
  have hsz : size 0 threeUnits.os = 4096 := rfl
  have hgot : ∀ x, cover 1 threeUnits.got x = if 16 ≤ x ∧ x < 40 then 1 else 0 := fun x => by
    show cover 1 [(16, 24)] x = _
    rw [cover_cons, cover_nil, Nat.zero_add]
    rfl
  refine ⟨.inr ⟨⟨rfl, rfl, rfl⟩, rfl, ⟨by decide, by decide, trivial⟩, List.mem_cons_self⟩,
    fun b hb => absurd hb List.not_mem_nil,
    fun x => ?_, fun x => ?_, fun x hx => ?_, by decide, by rw [hsz]; decide⟩
  · rw [hgot, cover_cons, cover_nil, Nat.zero_add]
    exact Nat.add_zero _
  · rw [hgot]
    split <;> omega
  · rw [hgot] at hx
    rw [hsz]
    split at hx <;> omega

theorem process_start : Process 100 Vm.Growproc.others (0 : Fin 64) Vm.Growproc.start :=
  ⟨Vm.Growproc.space_onePage, Vm.Growproc.fills_start, rfl⟩

set_option maxRecDepth 10000 in
/-- A request of 100 bytes does not fit in three units: sbrk gives 32768 bytes more, of which
`malloc` takes the last. -/
theorem malloc_size_hundred :
    ∃ N h w, (∀ fuel, N ≤ fuel → malloc (sysSbrk 100 0).logged 8 fuel 100 threeUnits.heap
      (threeUnits.os, threeUnits.got) = some (36760, h, w, [(4096, 32768), (16, 24)])) ∧
    Grown 100 Vm.Growproc.others 0 threeUnits.os threeUnits.got w [(4096, 32768), (16, 24)] ∧
    100 ≤ 8 * (h.size 36752 - 1) := by
  obtain ⟨N, r, h, w, got, hend, hgrown, -, hroom⟩ :=
    (malloc_size inv_threeUnits process_start).2 (show (100 : UInt32).toNat ≤ 0x7ffffff0 by decide)
  have hrun : (malloc (sysSbrk 100 0).logged 8 4 100 threeUnits.heap (threeUnits.os, threeUnits.got)).map
      (fun x => (x.1, x.2.2.2)) = some (36760, [(4096, 32768), (16, 24)]) := by decide +kernel
  obtain ⟨x, hx, hxr⟩ := Option.map_eq_some_iff.mp hrun
  cases (loop_mono hx (Nat.le_max_left 4 N)).symm.trans (hend _ (Nat.le_max_right 4 N))
  cases hxr
  exact ⟨N, h, w, hend, hgrown, (hroom.resolve_left (by decide)).1⟩

/-- A request of 0xffffffff bytes gets a header and nothing after it; one of 0xfffffff0 bytes asks
sbrk for -8. -/
theorem malloc_no_room : Inv (size 0) 8 threeUnits [(16, 3)] ∧
    Process 100 Vm.Growproc.others (0 : Fin 64) threeUnits.os ∧
    (∃ h, malloc (sysSbrk 100 0).logged 8 1 0xffffffff threeUnits.heap
      (threeUnits.os, threeUnits.got) = some (40, h, threeUnits.os, threeUnits.got) ∧ h.size 32 = 1) ∧
    (request (units 0xfffffff0) * 8).toInt32 = -8 ∧ Vm.Growproc.newSize 4096 (-8) = 4088 := by
  refine ⟨inv_threeUnits, process_start, ⟨_, rfl, rfl⟩, by decide, by decide⟩

end Xv6.Sbrk
