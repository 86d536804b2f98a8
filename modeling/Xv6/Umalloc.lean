/-
# malloc and free

umalloc.c: the free blocks are in a circular list through `base`, in the order of their addresses.
`free` looks for the place of the block, and joins it with its neighbours; `malloc` looks for a
block that is large enough, cuts its end off, and asks sbrk for more if it has come around. What
sbrk does is a parameter (`Os`); here it gives memory above all that it gave before, or fails
(`Fresh`). A loop that does not end runs out of fuel.

The program may write to its blocks, but not to headers. Whatever it does, every byte that sbrk gave
is in one block, free or in use, and no free block is left beside another (`heap_invariant`).
-/
import Xv6.Lib.Chain

namespace Xv6.Umalloc

open Chain
open Function (update update_self update_of_ne)
open List (length_cons mem_cons_self mem_cons_of_mem length_append append_nil append_of_mem
  mem_append_right append_assoc map_append cons_append map_cons not_mem_nil mem_map_of_mem)

/-- The headers in memory, by their addresses, and `freep`. -/
structure Heap where
  ptr : ℕ → ℕ
  size : ℕ → ℕ
  freep : ℕ

/-- The loop of `free`. -/
def search (h : Heap) (bp : ℕ) : ℕ → ℕ → Option ℕ
  | 0, _ => none
  | fuel + 1, p =>
    if p < bp ∧ bp < h.ptr p then some p
    else if h.ptr p ≤ p ∧ (p < bp ∨ bp < h.ptr p) then some p
    else search h bp fuel (h.ptr p)

/-- Join `bp` with the block after it, or point to that. -/
def joinNext (h : Heap) (bp p : ℕ) : Heap :=
  if bp + 8 * h.size bp = h.ptr p then
    { h with
      size := update h.size bp (h.size bp + h.size (h.ptr p))
      ptr := update h.ptr bp (h.ptr (h.ptr p)) }
  else { h with ptr := update h.ptr bp (h.ptr p) }

/-- Join the block before `bp` with it, or point to it. -/
def joinPrev (h : Heap) (bp p : ℕ) : Heap :=
  if p + 8 * h.size p = bp then
    { h with
      size := update h.size p (h.size p + h.size bp)
      ptr := update h.ptr p (h.ptr bp) }
  else { h with ptr := update h.ptr p bp }

def free (fuel : ℕ) (h : Heap) (ap : ℕ) : Option Heap := do
  let bp := ap - 8
  let p ← search h bp fuel h.freep
  some { joinPrev (joinNext h bp p) bp p with freep := p }

/-- `nunits` of `malloc`, with `sizeof(Header)` 8. -/
def units (nbytes : UInt32) : UInt32 := (nbytes + 8 - 1) / 8 + 1

/-- What `sbrk(n)` returns, and what becomes of the process. -/
structure Os (σ : Type) where
  sbrk : Int32 → σ → Option ℕ × σ

section

variable {σ : Type}

/-- The units that `morecore` asks for. -/
def request (nu : UInt32) : UInt32 := if nu < 4096 then 4096 else nu

/-- `freep` after the new block is freed, or `none` for 0. -/
def morecore (os : Os σ) (fuel : ℕ) (nu : UInt32) (h : Heap) (w : σ) : Option (Option ℕ × Heap × σ) :=
  let nu := request nu
  match os.sbrk (nu * 8).toInt32 w with
  | (none, w) => some (none, h, w)
  | (some p, w) => do
    let h ← free fuel { h with size := update h.size p nu.toNat } (p + 8)
    some (some h.freep, h, w)

/-- The block `p`, after `prevp`, is large enough: take it, or the end of it. -/
def take (nunits : ℕ) (prevp p : ℕ) (h : Heap) : ℕ × Heap :=
  if h.size p = nunits then (p + 8,
    { h with ptr := update h.ptr prevp (h.ptr p), freep := prevp })
  else
    let q := p + 8 * (h.size p - nunits)
    (q + 8, { h with
      size := update (update h.size p (h.size p - nunits)) q nunits
      freep := prevp })

/-- The loop of `malloc`. -/
def loop (os : Os σ) (nunits : UInt32) : ℕ → ℕ → ℕ → Heap → σ → Option (ℕ × Heap × σ)
  | 0, _, _, _, _ => none
  | fuel + 1, prevp, p, h, w =>
    if nunits.toNat ≤ h.size p then some ((take nunits.toNat prevp p h).1,
      (take nunits.toNat prevp p h).2, w)
    else if p = h.freep then do
      let r ← morecore os fuel nunits h w
      match r with
      | (none, h, w) => some (0, h, w)
      | (some p, h, w) => loop os nunits fuel p (h.ptr p) h w
    else loop os nunits fuel p (h.ptr p) h w

/-- The list with `base` alone. -/
def Heap.start (base : ℕ) (h : Heap) : Heap :=
  if h.freep = 0 then ⟨update h.ptr base base, update h.size base 0, base⟩ else h

def malloc (os : Os σ) (base fuel : ℕ) (nbytes : UInt32) (h : Heap) (w : σ) : Option (ℕ × Heap × σ) :=
  let h := h.start base
  loop os (units nbytes) fuel h.freep (h.ptr h.freep) h w

end

/-- The free blocks, without `base`. -/
structure Listed (base : ℕ) (h : Heap) (F : List (ℕ × ℕ)) : Prop where
  path : Chain.Path h.ptr h.size base F base
  zero : h.size base = 0
  apart : Apart 8 base F
  freep : h.freep ∈ base :: F.map Prod.fst

section

variable {h h' : Heap} {base bp a b z lo p n fuel : ℕ} {F L R S : List (ℕ × ℕ)} {c : ℕ × ℕ}
  {k q : ℕ}

/-! ### The loop of free -/

/-- From below `bp`, the loop stops at the last node below it. -/
theorem search_below (hpath : Chain.Path h.ptr h.size a S z) (hap : Apart 8 lo S) (halo : a ≤ lo)
    (ha : a < bp) (hS : ∀ b ∈ S, b.1 < bp) (hz : bp < z ∨ z ≤ last a S) (hfuel : S.length < fuel) :
    search h bp fuel a = some (last a S) := by
  induction S generalizing a lo fuel with
  | nil =>
    obtain ⟨fuel, rfl⟩ : ∃ k, fuel = k + 1 := ⟨fuel - 1, by omega⟩
    have hptr : h.ptr a = z := hpath
    unfold search
    rw [hptr]
    rcases hz with hz | hz
    · rw [if_pos ⟨ha, hz⟩]
      rfl
    · have hz : z ≤ a := hz
      rw [if_neg (by omega), if_pos ⟨hz, .inl ha⟩]
      rfl
  | cons c S ih =>
    rw [length_cons] at hfuel
    obtain ⟨fuel, rfl⟩ : ∃ k, fuel = k + 1 := ⟨fuel - 1, by omega⟩
    have hac : a < c.1 := lt_of_le_of_lt halo hap.1
    have hc := hS c mem_cons_self
    unfold search
    rw [hpath.1, if_neg (by omega), if_neg (by omega)]
    exact ih hpath.2.2 hap.2.2 (Nat.le_add_right _ _) hc
      (fun b hb => hS b (mem_cons_of_mem _ hb)) hz (by omega)

/-- From above `bp`, it goes on to `base`. -/
theorem search_above (hpath : Chain.Path h.ptr h.size a S base) (hap : Apart 8 lo S) (halo : a ≤ lo)
    (ha : bp < a) (hbase : base < bp) : search h bp (fuel + (S.length + 1)) a =
    search h bp fuel base := by
  induction S generalizing a lo with
  | nil =>
    have hptr : h.ptr a = base := hpath
    show search h bp (fuel + 1) a = _
    rw [search, hptr, if_neg (by omega), if_neg (by omega)]
  | cons c S ih =>
    have hac : a < c.1 := lt_of_le_of_lt halo hap.1
    rw [length_cons, ← Nat.add_assoc, search, hpath.1, if_neg (by omega), if_neg (by omega)]
    exact ih hpath.2.2 hap.2.2 (Nat.le_add_right _ _) (by omega)

/-- **The loop of free stops at the node before `bp`.** -/
theorem search_eq (hl : Listed base h (L ++ R)) (hbase : base < bp) (hL : ∀ b ∈ L, b.1 < bp)
    (hR : ∀ b ∈ R, bp < b.1) (hfuel : (L ++ R).length + 1 < fuel) :
    search h bp fuel h.freep = some (last base L) := by
  rw [length_append] at hfuel
  obtain ⟨hapL, hapR⟩ := apart_append.mp hl.apart
  obtain ⟨z, hpathL, hz⟩ : ∃ z, Chain.Path h.ptr h.size base L z ∧ (bp < z ∨ z ≤ last base L) := by
    have hpath := hl.path
    cases R with
    | nil =>
      rw [append_nil] at hpath
      refine ⟨base, hpath, .inr ?_⟩
      rcases List.mem_cons.mp (last_mem (a := base) (L := L)) with heq | hmem
      · exact heq.ge
      · obtain ⟨b, hb, heq⟩ := List.mem_map.mp hmem
        have := (hapL.mem hb).1
        omega
    | cons c R => exact ⟨c.1, (path_append.mp hpath).1, .inl (hR c mem_cons_self)⟩
  have hfrom : ∀ fuel, L.length < fuel → search h bp fuel base = some (last base L) := fun fuel hfuel =>
    search_below hpathL hapL (le_refl _) hbase hL hz hfuel
  rcases List.mem_cons.mp hl.freep with heq | hmem
  · rw [heq]
    exact hfrom fuel (by omega)
  · obtain ⟨b, hb, heq⟩ := List.mem_map.mp hmem
    rw [← heq]
    rcases List.mem_append.mp hb with hb | hb
    · obtain ⟨L1, L2, rfl⟩ := append_of_mem hb
      rw [length_append, length_cons] at hfuel
      rw [last_append] at hz ⊢
      exact search_below (path_append.mp hpathL).2.2 (apart_append.mp hapL).2.2.2
        (Nat.le_add_right _ _) (hL b hb)
        (fun c hc => hL c (mem_append_right _ (mem_cons_of_mem _ hc))) hz (by omega)
    · obtain ⟨R1, R2, rfl⟩ := append_of_mem hb
      rw [length_append, length_cons] at hfuel
      have hpath := hl.path
      rw [← append_assoc] at hpath
      obtain ⟨k, rfl⟩ : ∃ k, fuel = k + (R2.length + 1) := ⟨fuel - (R2.length + 1), by omega⟩
      rw [search_above (path_append.mp hpath).2.2 (apart_append.mp hapR).2.2.2
        (Nat.le_add_right _ _) (hR b hb) hbase]
      exact hfrom k (by omega)

/-! ### free -/

/-- What `bp` has become when it is joined with the block after it: a block `n` or more, with the
rest `R` of the list. -/
structure Headed (base : ℕ) (h h' : Heap) (bp n : ℕ) (R : List (ℕ × ℕ)) (n' : ℕ)
    (R' : List (ℕ × ℕ)) : Prop where
  path : Chain.Path h'.ptr h'.size bp R' base
  size : h'.size bp = n'
  le : n ≤ n'
  apart : Apart 8 (bp + 8 * n') R'
  cover : ∀ x, cover 8 ((bp, n') :: R') x = cover 8 ((bp, n) :: R) x
  same : ∀ y, y ≠ bp → h'.ptr y = h.ptr y ∧ h'.size y = h.size y

theorem joinNext_spec (hsize : h.size bp = n) (hn : 0 < n) (hbase : base < bp)
    (hp : Chain.Path h.ptr h.size p R base) (hap : Apart 8 lo R) (hR : ∀ b ∈ R, bp + 8 * n ≤ b.1) :
    ∃ n' R', Headed base h (joinNext h bp p) bp n R n' R' := by
  have hne : ∀ y ∈ R.map Prod.fst, y ≠ bp := fun y hy heq => by
    obtain ⟨b, hb, rfl⟩ := List.mem_map.mp hy
    have := hR b hb
    omega
  unfold joinNext
  rw [hsize]
  cases R with
  | nil =>
    have hptr : h.ptr p = base := hp
    rw [if_neg (by omega)]
    refine ⟨n, [], ?_, hsize, le_refl _, trivial, fun _ => rfl, fun y hy => ⟨update_of_ne hy _ _, rfl⟩⟩
    show update h.ptr bp (h.ptr p) bp = base
    rw [update_self, hptr]
  | cons c R =>
    obtain ⟨hptr, hc, hpath⟩ := hp
    have hcbp : c.1 ≠ bp := hne c.1 mem_cons_self
    have hR' : ∀ y ∈ R.map Prod.fst, y ≠ bp := fun y hy => hne y (mem_cons_of_mem _ hy)
    split_ifs with hadj
    · rw [hptr] at hadj ⊢
      have hend : bp + 8 * (n + c.2) = c.1 + 8 * c.2 := by omega
      refine ⟨n + c.2, R, ?_, ?_, Nat.le_add_right _ _, hend ▸ hap.2.2, fun x => ?_, fun y hy => ?_⟩
      · refine hpath.congr (update_self ..) (fun y hy => ?_) fun y hy => ?_
        · exact update_of_ne (hR' y hy) _ _
        · exact update_of_ne (hR' y hy) _ _
      · show update h.size bp _ bp = _
        rw [update_self, hc]
      · have hjoin := cover_join (u := 8) (x := x) (L := []) (R := R) bp n c.2
        rwa [hadj] at hjoin
      · exact ⟨update_of_ne hy _ _, update_of_ne hy _ _⟩
    · rw [hptr] at hadj ⊢
      have hlt : bp + 8 * n < c.1 := lt_of_le_of_ne (hR c mem_cons_self) hadj
      refine ⟨n, c :: R, ⟨update_self .., hc, ?_⟩, hsize, le_refl _, ⟨hlt, hap.2⟩, fun _ => rfl,
        fun y hy => ?_⟩
      · exact hpath.congr (update_of_ne hcbp _ _) (fun y hy => update_of_ne (hR' y hy) _ _)
          fun y hy => rfl
      · exact ⟨update_of_ne hy _ _, rfl⟩

/-- The list after `free`. -/
structure Freed (base : ℕ) (h h' : Heap) (L : List (ℕ × ℕ)) (bp n : ℕ) (R F' : List (ℕ × ℕ)) : Prop where
  path : Chain.Path h'.ptr h'.size base F' base
  zero : h'.size base = 0
  apart : Apart 8 base F'
  node : last base L ∈ base :: F'.map Prod.fst
  cover : ∀ x, cover 8 F' x = cover 8 (L ++ (bp, n) :: R) x
  size : ∀ y, y ≠ bp → y ∉ L.map Prod.fst → h'.size y = h.size y
  large : ∃ b ∈ F', n ≤ b.2

theorem mem_last_append : last base L ∈ base :: (L ++ R).map Prod.fst := by
  rcases List.mem_cons.mp (last_mem (a := base) (L := L)) with heq | hmem
  · rw [heq]
    exact mem_cons_self
  · rw [map_append]
    exact mem_cons_of_mem _ (List.mem_append_left _ hmem)

theorem joinPrev_spec (hp : Chain.Path h.ptr h.size base L z) (hzero : h.size base = 0)
    (hapL : Apart 8 base L) (hbound : bound 8 base L ≤ bp) (hbase : base < bp) (hn : 0 < n)
    (hsize : h.size bp = n) (hpR : Chain.Path h.ptr h.size bp R base)
    (hapR : Apart 8 (bp + 8 * n) R) : ∃ F', Freed base h (joinPrev h bp (last base L)) L bp n R F' := by
  have hend := hp.bound_eq (u := 8) hzero
  have hRgt : ∀ y ∈ R.map Prod.fst, bp < y := fun y hy => lt_of_le_of_lt (Nat.le_add_right _ _)
    (hapR.lt_of_mem hy)
  have hlast := hapL.node_lt (by decide) hbase hbound last_mem
  have hRne : ∀ y ∈ R.map Prod.fst, y ≠ last base L := fun y hy heq => by
    have := hRgt y hy
    omega
  unfold joinPrev
  split_ifs with hadj
  · -- the block before is not `base`
    rcases List.eq_nil_or_concat L with rfl | ⟨L', q, hL⟩
    · rw [last, hzero] at hadj
      omega
    · rw [List.concat_eq_append] at hL
      subst hL
      have hq : last base (L' ++ [q]) = q.1 := last_append
      obtain ⟨hpL', hqs, -⟩ := path_append.mp hp
      obtain ⟨hapL', hapq⟩ := apart_append.mp hapL
      have hnodup := hapL.nodup
      rw [map_append, List.map_singleton, ← cons_append] at hnodup
      have hne : ∀ y ∈ base :: L'.map Prod.fst, y ≠ q.1 := fun y hy =>
        (List.nodup_append.mp hnodup).2.2 y hy q.1 (List.mem_singleton_self _)
      rw [hq] at hadj hRne hlast ⊢
      rw [hqs] at hadj ⊢
      refine ⟨L' ++ (q.1, q.2 + n) :: R, path_append.mpr ⟨?_, ?_, ?_⟩, ?_,
        apart_append.mpr ⟨hapL', hapq.1, ?_, ?_⟩, ?_, fun x => ?_,
        fun y hy hyL => ?_, (q.1, q.2 + n), mem_append_right _ mem_cons_self,
          Nat.le_add_left _ _⟩
      · exact hpL'.congr (update_of_ne (hne base mem_cons_self) _ _)
          (fun y hy => update_of_ne (hne y (mem_cons_of_mem _ hy)) _ _)
          fun y hy => update_of_ne (hne y (mem_cons_of_mem _ hy)) _ _
      · show update h.size q.1 _ q.1 = _
        rw [update_self, hsize]
      · exact hpR.congr (update_self ..) (fun y hy => update_of_ne (hRne y hy) _ _)
          fun y hy => update_of_ne (hRne y hy) _ _
      · show update h.size q.1 _ base = 0
        rw [update_of_ne (hne base mem_cons_self), hzero]
      · show 0 < q.2 + n
        omega
      · show Apart 8 (q.1 + 8 * (q.2 + n)) R
        rwa [show q.1 + 8 * (q.2 + n) = bp + 8 * n by omega]
      · rw [hq, map_append, map_cons]
        exact mem_cons_of_mem _ (mem_append_right _ mem_cons_self)
      · rw [cover_join, hadj, append_assoc]
        rfl
      · refine update_of_ne (fun heq => hyL ?_) _ _
        rw [heq, map_append]
        exact mem_append_right _ (List.mem_singleton_self _)
  · have hbp : bp ≠ last base L := by omega
    refine ⟨L ++ (bp, n) :: R, path_append.mpr ⟨hp.setLast hapL.nodup bp, hsize, ?_⟩, hzero,
      apart_append.mpr ⟨hapL, ?_, hn, hapR⟩,
      mem_last_append, fun _ => rfl, fun y _ _ => rfl, (bp, n),
        mem_append_right _ mem_cons_self, le_refl _⟩
    · exact hpR.congr (update_of_ne hbp _ _) (fun y hy => update_of_ne (hRne y hy) _ _) fun _ _ => rfl
    · show bound 8 base L < bp
      omega

/-- **free puts the block in its place**, joined with its neighbours, with fuel for one round. -/
theorem free_spec (hl : Listed base h F) (hbase : base < bp) (hn : 0 < n) (hsize : h.size bp = n)
    (hdisj : ∀ b ∈ F, b.1 + 8 * b.2 ≤ bp ∨ bp + 8 * n ≤ b.1) :
    ∃ h' F', (∀ fuel, F.length + 1 < fuel → free fuel h (bp + 8) = some h') ∧ Listed base h' F' ∧
      (∀ x, cover 8 F' x = cover 8 F x + cover 8 [(bp, n)] x) ∧
      (∀ y, y ≠ bp → y ∉ F.map Prod.fst → h'.size y = h.size y) ∧ ∃ b ∈ F', n ≤ b.2 := by
  have hne : ∀ b ∈ F, b.1 ≠ bp := fun b hb heq => by
    have := (hl.apart.mem hb).2.1
    have := hdisj b hb
    omega
  obtain ⟨L, R, rfl, hL, hR⟩ := hl.apart.split hne
  obtain ⟨hapL, hapR⟩ := apart_append.mp hl.apart
  have hLle : bound 8 base L ≤ bp := Apart.bound_le hbase.le fun b hb => by
    have := hL b hb
    have := hdisj b (List.mem_append_left _ hb)
    omega
  have hRle : ∀ b ∈ R, bp + 8 * n ≤ b.1 := fun b hb => by
    have := hR b hb
    have := hdisj b (mem_append_right _ hb)
    omega
  obtain ⟨z, hpL, hpR⟩ : ∃ z, Chain.Path h.ptr h.size base L z ∧
    Chain.Path h.ptr h.size (last base L) R base := by
    have hpath := hl.path
    cases R with
    | nil =>
      rw [append_nil] at hpath
      exact ⟨base, hpath, hpath.ptr_last⟩
    | cons c R =>
      obtain ⟨h1, h2, h3⟩ := path_append.mp hpath
      exact ⟨c.1, h1, h1.ptr_last, h2, h3⟩
  obtain ⟨n', R', hhead⟩ := joinNext_spec hsize hn hbase hpR hapR hRle
  have hsame : ∀ y ∈ base :: L.map Prod.fst, y ≠ bp :=
    fun y hy => (hapL.node_lt (by decide) hbase hLle hy).ne
  have hpL' : Chain.Path (joinNext h bp (last base L)).ptr (joinNext h bp (last base L)).size base L z :=
    hpL.congr (hhead.same base (hsame base mem_cons_self)).1
      (fun y hy => (hhead.same y (hsame y (mem_cons_of_mem _ hy))).1)
      fun y hy => (hhead.same y (hsame y (mem_cons_of_mem _ hy))).2
  have hzero' : (joinNext h bp (last base L)).size base = 0 :=
    (hhead.same base (hsame base mem_cons_self)).2.trans hl.zero
  obtain ⟨F', hfreed⟩ := joinPrev_spec hpL' hzero' hapL hLle hbase (lt_of_lt_of_le hn hhead.le)
    hhead.size hhead.path hhead.apart
  refine ⟨{ joinPrev (joinNext h bp (last base L)) bp (last base L) with freep := last base L }, F',
    fun fuel hfuel => ?_,
    ⟨hfreed.path, hfreed.zero, hfreed.apart, hfreed.node⟩, fun x => ?_, fun y hy hyF => ?_, ?_⟩
  · unfold free
    dsimp only
    rw [Nat.add_sub_cancel, search_eq hl hbase hL hR hfuel]
    rfl
  · have hc := hhead.cover x
    rw [hfreed.cover, cover_append, hc, cover_head, cover_append]
    ring
  · rw [map_append, List.mem_append, not_or] at hyF
    exact (hfreed.size y hy hyF.1).trans (hhead.same y hy).2
  · obtain ⟨b, hb, hle⟩ := hfreed.large
    exact ⟨b, hb, hhead.le.trans hle⟩

/-! ### malloc -/

/-- The list after `malloc`, and the block that it took: `n` units at `q`. -/
structure Taken (base : ℕ) (h h' : Heap) (F : List (ℕ × ℕ)) (q n : ℕ) (F' : List (ℕ × ℕ)) : Prop where
  listed : Listed base h' F'
  size : h'.size q = n
  bytes : ∀ x, cover 8 F x = cover 8 F' x + cover 8 [(q, n)] x
  same : ∀ y, y ≠ q → y ∉ F.map Prod.fst → h'.size y = h.size y

/-- A block of the list is large enough. -/
theorem take_spec (hl : Listed base h (L ++ c :: R)) (hn : 0 < n) (hle : n ≤ c.2) :
    ∃ q F', (take n (last base L) c.1 h).1 = q + 8 ∧ Taken base h (take n (last base L) c.1 h).2
    (L ++ c :: R) q n F' := by
  obtain ⟨hpL, hc, hpR⟩ := path_append.mp hl.path
  obtain ⟨hapL, hapc⟩ := apart_append.mp hl.apart
  have hRgt : ∀ y ∈ R.map Prod.fst, c.1 + 8 * c.2 < y := fun y hy => hapc.2.2.lt_of_mem hy
  have hLlt : ∀ y ∈ base :: L.map Prod.fst, y < c.1 := fun y hy =>
    hapL.node_lt (by decide) (lt_of_le_of_lt hapL.le_bound hapc.1) hapc.1.le hy
  have hlast := hLlt _ last_mem
  unfold take
  rw [hc]
  split_ifs with heq
  · refine ⟨c.1, L ++ R, rfl, ⟨?_, hl.zero, ?_, mem_last_append⟩, hc.trans heq, fun x => ?_,
      fun _ _ _ => rfl⟩
    · -- the pointer before `c` goes past it
      have hRne : ∀ y ∈ R.map Prod.fst, y ≠ last base L := fun y hy heq => by
        have := hRgt y hy
        omega
      cases R with
      | nil =>
        rw [append_nil]
        have hptr : h.ptr c.1 = base := hpR
        rw [hptr]
        exact hpL.setLast hapL.nodup base
      | cons d R =>
        rw [hpR.1]
        refine path_append.mpr ⟨hpL.setLast hapL.nodup d.1, hpR.2.1, hpR.2.2.congr ?_ ?_ fun _ _ => rfl⟩
        · exact update_of_ne (hRne d.1 mem_cons_self) _ _
        · exact fun y hy => update_of_ne (hRne y (mem_cons_of_mem _ hy)) _ _
    · exact apart_append.mpr ⟨hapL, hapc.2.2.mono (by have := hapc.1; omega)⟩
    · have hcn : c = (c.1, n) := Prod.ext rfl heq
      rw [hcn, cover_append, cover_append, cover_head]
      ring
  · have heq : n < c.2 := lt_of_le_of_ne hle fun h => heq h.symm
    obtain ⟨q, hq⟩ : ∃ q, q = c.1 + 8 * (c.2 - n) := ⟨_, rfl⟩
    dsimp only
    rw [← hq]
    have hLne : ∀ y ∈ base :: L.map Prod.fst, y ≠ q ∧ y ≠ c.1 := fun y hy => by
      have := hLlt y hy
      omega
    have hRne : ∀ y ∈ R.map Prod.fst, y ≠ q ∧ y ≠ c.1 := fun y hy => by
      have := hRgt y hy
      omega
    have hother : ∀ y, y ≠ q → y ≠ c.1 → update (update h.size c.1 (c.2 - n)) q n y = h.size y :=
      fun y h1 h2 => by
      rw [update_of_ne h1, update_of_ne h2]
    refine ⟨q, L ++ (c.1, c.2 - n) :: R, rfl,
      ⟨path_append.mpr ⟨?_, ?_, ?_⟩, ?_, apart_append.mpr ⟨hapL, hapc.1, ?_, ?_⟩, mem_last_append⟩,
        ?_,
      fun x => ?_, fun y hy hyF => ?_⟩
    · exact hpL.congr rfl (fun _ _ => rfl) fun y hy => by
        obtain ⟨h1, h2⟩ := hLne y (mem_cons_of_mem _ hy)
        exact hother y h1 h2
    · show update (update h.size c.1 (c.2 - n)) q n c.1 = c.2 - n
      rw [update_of_ne (by omega), update_self]
    · exact hpR.congr rfl (fun _ _ => rfl) fun y hy => hother y (hRne y hy).1 (hRne y hy).2
    · obtain ⟨h1, h2⟩ := hLne base mem_cons_self
      exact (hother base h1 h2).trans hl.zero
    · show 0 < c.2 - n
      omega
    · exact hapc.2.2.mono (by dsimp only; omega)
    · exact update_self ..
    · have hjoin := cover_join (u := 8) (x := x) (L := L) (R := R) c.1 (c.2 - n) n
      rw [← hq, show c.2 - n + n = c.2 by omega] at hjoin
      refine hjoin.trans ?_
      rw [cover_append, cover_append, cover_head, cover_head (b := (q, n)), cover_head (L := R)]
      ring
    · refine hother y hy fun heq => hyF ?_
      rw [heq, map_append, map_cons]
      exact mem_append_right _ mem_cons_self

/-! ### The loop of malloc -/

theorem first_fit (k : ℕ) (S : List (ℕ × ℕ)) :
    (∀ b ∈ S, b.2 < k) ∨ ∃ S1 c S2, S = S1 ++ c :: S2 ∧ k ≤ c.2 ∧ ∀ b ∈ S1, b.2 < k := by
  induction S with
  | nil => exact .inl fun b hb => absurd hb not_mem_nil
  | cons c S ih =>
    rcases Nat.lt_or_ge c.2 k with hlt | hge
    · rcases ih with hall | ⟨S1, d, S2, rfl, hd, hS1⟩
      · refine .inl fun b hb => ?_
        rcases List.mem_cons.mp hb with rfl | hb
        · exact hlt
        · exact hall b hb
      · refine .inr ⟨c :: S1, d, S2, rfl, hd, fun b hb => ?_⟩
        rcases List.mem_cons.mp hb with rfl | hb
        · exact hlt
        · exact hS1 b hb
    · exact .inr ⟨[], c, S, rfl, hge, fun b hb => absurd hb not_mem_nil⟩

variable {σ : Type} {os : Os σ} {nunits : UInt32} {w : σ}

/-- Blocks that are too small are passed. -/
theorem loop_small (hpath : Chain.Path h.ptr h.size a S z) (hsmall : ∀ b ∈ S, b.2 < nunits.toNat)
    (hne : h.freep ∉ S.map Prod.fst) (fuel : ℕ) : loop os nunits (fuel + S.length) a (h.ptr a) h w =
    loop os nunits fuel (last a S) z h w := by
  induction S generalizing a with
  | nil =>
    have hptr : h.ptr a = z := hpath
    rw [hptr]
    rfl
  | cons c S ih =>
    obtain ⟨hptr, hc, hpath⟩ := hpath
    rw [map_cons, List.mem_cons, not_or] at hne
    have hlt := hsmall c mem_cons_self
    rw [hptr, length_cons, ← Nat.add_assoc, loop, hc, if_neg (by omega), if_neg fun h =>
      hne.1 h.symm]
    exact ih hpath (fun b hb => hsmall b (mem_cons_of_mem _ hb)) hne.2

/-- The first block that is large enough is taken. -/
theorem loop_fit {S1 S2 : List (ℕ × ℕ)}
    (hpath : Chain.Path h.ptr h.size a (S1 ++ c :: S2) z) (hsmall : ∀ b ∈ S1, b.2 < nunits.toNat)
    (hne : h.freep ∉ (S1 ++ c :: S2).map Prod.fst) (hle : nunits.toNat ≤ c.2) (fuel : ℕ) :
    loop os nunits (fuel + 1 + S1.length) a (h.ptr a) h w =
      some ((take nunits.toNat (last a S1) c.1 h).1, (take nunits.toNat (last a S1) c.1 h).2, w) := by
  obtain ⟨hp1, hc, -⟩ := path_append.mp hpath
  rw [map_append, List.mem_append, not_or] at hne
  rw [loop_small hp1 hsmall hne.1, loop, hc, if_pos hle]

/-- A block of the list is large enough, and the loop takes the end of it. -/
def Found (os : Os σ) (nunits : UInt32) (base : ℕ) (h : Heap) (w : σ) (F : List (ℕ × ℕ)) : Prop :=
  ∃ L c R, F = L ++ c :: R ∧ nunits.toNat ≤ c.2 ∧ ∃ j ≤ F.length + 1, ∀ fuel,
    loop os nunits (fuel + 1 + j) h.freep (h.ptr h.freep) h w =
      some ((take nunits.toNat (last base L) c.1 h).1, (take nunits.toNat (last base L) c.1 h).2, w)

/-- No block is large enough, and the loop comes around. -/
def Around (os : Os σ) (nunits : UInt32) (h : Heap) (w : σ) (F : List (ℕ × ℕ)) : Prop :=
  (∀ b ∈ F, b.2 < nunits.toNat) ∧ h.size h.freep < nunits.toNat ∧ ∃ j ≤ F.length + 1, ∃ prevp, ∀ fuel,
    loop os nunits (fuel + j) h.freep (h.ptr h.freep) h w = loop os nunits fuel prevp h.freep h w

/-- **The loop of malloc goes around once.** -/
theorem scan_spec (os : Os σ) (hl : Listed base h F) (hpos : 0 < nunits.toNat) (w : σ) :
    Found os nunits base h w F ∨ Around os nunits h w F := by
  have hnodup := hl.apart.nodup
  rcases List.mem_cons.mp hl.freep with heq | hmem
  · have hne : h.freep ∉ F.map Prod.fst := heq ▸ (List.nodup_cons.mp hnodup).1
    rcases first_fit nunits.toNat F with hsmall | ⟨S1, c, S2, rfl, hle, hsmall⟩
    · refine .inr
        ⟨hsmall, by rw [heq, hl.zero]; exact hpos, F.length, Nat.le_succ _, last base F, fun fuel => ?_⟩
      rw [heq]
      exact loop_small hl.path hsmall hne fuel
    · refine .inl ⟨S1, c, S2, rfl, hle, S1.length, ?_, fun fuel => ?_⟩
      · rw [length_append]
        omega
      · rw [heq]
        exact loop_fit hl.path hsmall hne hle fuel
  · obtain ⟨f, hf, heq⟩ := List.mem_map.mp hmem
    obtain ⟨L, R, rfl⟩ := append_of_mem hf
    rw [map_append, map_cons, ← cons_append] at hnodup
    obtain ⟨-, hnodupR, hdisj⟩ := List.nodup_append.mp hnodup
    have hneR : h.freep ∉ R.map Prod.fst := heq ▸ (List.nodup_cons.mp hnodupR).1
    have hneL : h.freep ∉ base :: L.map Prod.fst :=
      fun hmem => hdisj h.freep hmem f.1 mem_cons_self heq.symm
    rw [List.mem_cons, not_or] at hneL
    obtain ⟨hpL, hfs, hpR⟩ := path_append.mp hl.path
    rw [heq] at hpL hfs hpR
    have hlen : (L ++ f :: R).length = L.length + R.length + 1 := by
      rw [length_append, length_cons]
      omega
    rcases first_fit nunits.toNat R with hsmallR | ⟨R1, c, R2, rfl, hle, hsmall⟩
    · -- on to `base`, and to the blocks before
      have hround : ∀ fuel, loop os nunits (fuel + 1 + R.length) h.freep (h.ptr h.freep) h w =
          loop os nunits fuel base (h.ptr base) h w := fun fuel => by
        rw [loop_small hpR hsmallR hneR, loop, hl.zero, if_neg (by omega), if_neg fun h => hneL.1 h.symm]
      rcases first_fit nunits.toNat L with hsmallL | ⟨L1, c, L2, rfl, hle, hsmall⟩
      · have hback : ∀ fuel, loop os nunits (fuel + L.length + 1 + R.length) h.freep (h.ptr h.freep) h w =
            loop os nunits fuel (last base L) h.freep h w := fun fuel => by
          rw [hround, loop_small hpL hsmallL hneL.2]
        rcases Nat.lt_or_ge f.2 nunits.toNat with hlt | hge
        · refine .inr ⟨fun b hb => ?_, hfs ▸ hlt, L.length + 1 + R.length,
            by omega, last base L, fun fuel => ?_⟩
          · rcases List.mem_append.mp hb with hb | hb
            · exact hsmallL b hb
            · rcases List.mem_cons.mp hb with rfl | hb
              · exact hlt
              · exact hsmallR b hb
          · rw [← hback, show fuel + (L.length + 1 + R.length) = fuel + L.length + 1 + R.length by omega]
        · refine .inl ⟨L, f, R, rfl, hge, L.length + 1 + R.length, by omega, fun fuel => ?_⟩
          rw [show fuel + 1 + (L.length + 1 + R.length) = fuel + 1 + L.length + 1 +
            R.length by omega, hback, loop, hfs, if_pos hge, heq]
      · refine .inl ⟨L1, c, L2 ++ f :: R,
          by rw [append_assoc,
            cons_append], hle, L1.length + 1 + R.length, ?_, fun fuel => ?_⟩
        · rw [hlen, length_append]
          omega
        · rw [show fuel + 1 + (L1.length + 1 + R.length) = fuel + 1 + L1.length + 1 +
            R.length by omega, hround]
          exact loop_fit hpL hsmall hneL.2 hle fuel
    · refine .inl ⟨L ++ f :: R1, c, R2,
        by rw [append_assoc, cons_append], hle, R1.length, ?_, fun fuel => ?_⟩
      · rw [hlen, length_append]
        omega
      · rw [last_append, heq]
        exact loop_fit hpR hsmall hneR hle fuel

/-! ### malloc with sbrk -/

/-- sbrk gives memory above all that it gave before, or fails; `top` is the end of what there is. -/
structure FreshAt (os : Os σ) (top : σ → ℕ) (w : σ) : Prop where
  grant : ∀ n p w', 0 < n.toInt → os.sbrk n w = (some p, w') → top w ≤ p ∧ p + n.toInt.toNat ≤ top w'
  fail : ∀ n w', 0 < n.toInt → os.sbrk n w = (none, w') → top w ≤ top w'

/-- So it does at any time. -/
def Fresh (os : Os σ) (top : σ → ℕ) : Prop := ∀ w, FreshAt os top w

/-- `malloc` has taken `n` units at `q`, where it got the blocks `G` from sbrk. -/
structure Allocated (base : ℕ) (h h' : Heap) (F G : List (ℕ × ℕ)) (q n : ℕ) (F' : List (ℕ × ℕ)) :
    Prop where
  listed : Listed base h' F'
  size : h'.size q = n
  bytes : ∀ x, cover 8 F x + cover 8 G x = cover 8 F' x + cover 8 [(q, n)] x
  same : ∀ y, cover 8 F y = 0 → cover 8 G y = 0 → h'.size y = h.size y

/-- What `malloc` comes to. -/
inductive Result (os : Os σ) (base : ℕ) (nunits : UInt32) (h : Heap) (w : σ) (F : List (ℕ × ℕ)) :
    ℕ → Heap → σ → Prop where
  | failed {w' : σ} (hs : os.sbrk (request nunits * 8).toInt32 w = (none, w')) : Result os base nunits h w F 0 h w'
  | old {q : ℕ} {h' : Heap} {F' : List (ℕ × ℕ)} (ha : Allocated base h h' F [] q nunits.toNat F') :
      Result os base nunits h w F (q + 8) h' w
  | new {p q : ℕ} {h' : Heap} {w' : σ} {F' : List (ℕ × ℕ)} (hs : os.sbrk (request nunits * 8).toInt32 w = (some p, w'))
      (ha : Allocated base h h' F [(p, (request nunits).toNat)] q nunits.toNat F') :
        Result os base nunits h w F (q + 8) h' w'

theorem cover_single_self (q : ℕ) (hn : 0 < n) : cover 8 [(q, n)] q = 1 := by
  rw [cover_cons, cover_nil, if_pos ⟨le_refl _, by dsimp only; omega⟩]

theorem Taken.size_same {F' : List (ℕ × ℕ)} (h1 : Taken base h h' F q n F')
    (hl : Listed base h F) (hn : 0 < n) {y : ℕ} (hy : cover 8 F y = 0) : h'.size y = h.size y := by
  refine h1.same y (fun heq => ?_) fun hmem => ?_
  · have := h1.bytes y
    rw [heq, cover_single_self q hn, ← heq] at this
    omega
  · have := hl.apart.cover_node (by decide) hmem
    omega

theorem le_request (nunits : UInt32) : nunits.toNat ≤ (request nunits).toNat := by
  unfold request
  split_ifs with hlt
  · exact (UInt32.lt_iff_toNat_lt.mp hlt).le
  · exact le_refl _

theorem request_lt (hk : nunits.toNat * 8 < 2 ^ 31) : (request nunits).toNat * 8 < 2 ^ 31 := by
  unfold request
  split
  · decide
  · exact hk

theorem toInt_bytes {nu : UInt32} (hk : nu.toNat * 8 < 2 ^ 31) :
    (nu * 8).toInt32.toInt = (8 * nu.toNat : ℕ) := by
  have hn : (nu * 8).toNat = 8 * nu.toNat := by
    rw [UInt32.toNat_mul, show (8 : UInt32).toNat = 8 from rfl]
    omega
  show (nu * 8).toBitVec.toInt = _
  rw [BitVec.toInt_eq_toNat_of_lt]
  · show ((nu * 8).toNat : ℤ) = _
    rw [hn]
  · show 2 * (nu * 8).toNat < 2 ^ 32
    omega

variable {top : σ → ℕ}

/-- sbrk has given the block at `p`: it is put in the list, and the loop goes around once more. -/
theorem grow_spec (os : Os σ) (hl : Listed base h F) (hpos : 0 < nunits.toNat) (hbase : base < p)
    (hp : ∀ b ∈ F, b.1 + 8 * b.2 ≤ p) (w : σ) : ∃ N h1 r h' q F', (∀ fuel, N ≤ fuel →
        free fuel { h with size := update h.size p (request nunits).toNat } (p + 8) = some h1 ∧
        loop os nunits fuel h1.freep (h1.ptr h1.freep) h1 w = some (r, h', w)) ∧
      r = q + 8 ∧ Allocated base h h' F [(p, (request nunits).toNat)] q nunits.toNat F' := by
  have hle := le_request nunits
  have hne : ∀ y ∈ base :: F.map Prod.fst, y ≠ p := fun y hy =>
    (hl.apart.node_lt (by decide) hbase (Apart.bound_le hbase.le hp) hy).ne
  have hl' : Listed base { h with size := update h.size p (request nunits).toNat } F := by
    refine ⟨hl.path.congr rfl (fun _ _ => rfl) fun y hy => ?_, ?_, hl.apart, hl.freep⟩
    · exact update_of_ne (hne y (mem_cons_of_mem _ hy)) _ _
    · exact (update_of_ne (hne base mem_cons_self) _ _).trans hl.zero
  obtain ⟨h1, F1, hfree, hl1, hcover, hsame, b, hb, hlarge⟩ :=
    free_spec hl' hbase (by omega) (update_self ..) fun b hb => .inl (hp b hb)
  rcases scan_spec os hl1 hpos w with ⟨L, c, R, rfl, hc, j, -, hloop⟩ | ⟨hsmall, -⟩
  · obtain ⟨q, F', hq, htaken⟩ := take_spec hl1 hpos hc
    refine ⟨F.length + 2 + (1 + j), h1, _, (take nunits.toNat (last base L) c.1 h1).2, q, F',
      fun fuel hfuel => ⟨hfree fuel (by omega), ?_⟩, hq, htaken.listed, htaken.size, fun x => ?_,
        fun y hy hy' => ?_⟩
    · rw [show fuel = fuel - 1 - j + 1 + j by omega]
      exact hloop _
    · rw [← hcover, htaken.bytes]
    · have hy1 : cover 8 (L ++ c :: R) y = 0 := by rw [hcover, hy, hy']
      have hyp : y ≠ p := fun heq => by
        rw [heq, cover_single_self p (by omega)] at hy'
        cases hy'
      refine (htaken.size_same hl1 hpos hy1).trans
        ((hsame y hyp fun hmem => ?_).trans (update_of_ne hyp _ _))
      have := hl.apart.cover_node (by decide) hmem
      omega
  · have := hsmall b hb
    omega

/-- **The loop of malloc ends**, with a block or without. -/
theorem loop_spec (hos : FreshAt os top w) (hl : Listed base h F) (hpos : 0 < nunits.toNat)
    (hk : nunits.toNat * 8 < 2 ^ 31) (hbase : base < top w) (htop : ∀ b ∈ F, b.1 + 8 * b.2 ≤ top w) :
    ∃ N r h' w', (∀ fuel, N ≤ fuel → loop os nunits fuel h.freep (h.ptr h.freep) h w = some (r, h', w')) ∧
      Result os base nunits h w F r h' w' := by
  rcases scan_spec os hl hpos w with ⟨L, c, R, rfl, hc, j, -, hloop⟩ | ⟨hsmall, hfreep, j, -, prevp,
    hloop⟩
  · obtain ⟨q, F', hq, htaken⟩ := take_spec hl hpos hc
    refine ⟨1 + j, q + 8, (take nunits.toNat (last base L) c.1 h).2, w, fun fuel hfuel => ?_, ?_⟩
    · rw [show fuel = fuel - 1 - j + 1 + j by omega, ← hq]
      exact hloop _
    · exact .old ⟨htaken.listed, htaken.size, fun x =>
        by rw [htaken.bytes, cover_nil, Nat.add_zero], fun y hy _ => htaken.size_same hl hpos hy⟩
  · -- the loop is at `freep`
    have hround : ∀ fuel, j + 1 ≤ fuel → loop os nunits fuel h.freep (h.ptr h.freep) h w =
        (morecore os (fuel - j - 1) nunits h w).bind fun r => match r with
          | (none, h, w) => some (0, h, w)
          | (some p, h, w) => loop os nunits (fuel - j - 1) p (h.ptr p) h w := fun fuel hfuel => by
      obtain ⟨k, rfl⟩ : ∃ k, fuel = k + 1 + j := ⟨fuel - j - 1, by omega⟩
      rw [hloop, loop, if_neg (by omega), if_pos rfl, show k + 1 + j - j - 1 = k by omega]
      rfl
    rcases hs : os.sbrk (request nunits * 8).toInt32 w with ⟨_ | p, w'⟩
    · refine ⟨j + 1, 0, h, w', fun fuel hfuel => ?_, .failed hs⟩
      rw [hround fuel hfuel]
      unfold morecore
      dsimp only
      rw [hs]
      rfl
    · have hbytes := toInt_bytes (request_lt hk)
      have hreq := le_request nunits
      obtain ⟨hlow, -⟩ := hos.grant _ p w' (by rw [hbytes]; omega) hs
      obtain ⟨N, h1, r, h', q, F', hrun, hr, halloc⟩ :=
        grow_spec os hl hpos (by omega) (fun b hb => (htop b hb).trans hlow) w'
      refine ⟨j + 1 + N, r, h', w', fun fuel hfuel => ?_, hr ▸ .new hs halloc⟩
      obtain ⟨hfree, hloop1⟩ := hrun (fuel - j - 1) (by omega)
      rw [hround fuel (by omega)]
      unfold morecore
      dsimp only
      rw [hs]
      dsimp only
      rw [hfree]
      exact hloop1

/-! ### Fuel -/

theorem search_mono (hs : search h bp fuel p = some q) (hle : fuel ≤ k) :
    search h bp k p = some q := by
  induction fuel generalizing p k with
  | zero => cases hs
  | succ fuel ih =>
    obtain ⟨k, rfl⟩ : ∃ j, k = j + 1 := ⟨k - 1, by omega⟩
    unfold search at hs ⊢
    split_ifs at hs ⊢
    · exact hs
    · exact hs
    · exact ih hs (by omega)

theorem free_mono {ap : ℕ} (hf : free fuel h ap = some h') (hle : fuel ≤ k) :
    free k h ap = some h' := by
  unfold free at hf ⊢
  simp only [Option.bind_eq_bind, Option.bind_eq_some_iff] at hf ⊢
  obtain ⟨p, hs, hp⟩ := hf
  exact ⟨p, search_mono hs hle, hp⟩

theorem morecore_mono {r : Option ℕ × Heap × σ} (hm : morecore os fuel nunits h w = some r)
    (hle : fuel ≤ k) : morecore os k nunits h w = some r := by
  unfold morecore at hm ⊢
  dsimp only at hm ⊢
  split
  · rename_i w' hs
    rw [hs] at hm
    exact hm
  · rename_i p w' hs
    rw [hs] at hm
    simp only [Option.bind_eq_bind, Option.bind_eq_some_iff] at hm ⊢
    obtain ⟨h1, hf, hr⟩ := hm
    exact ⟨h1, free_mono hf hle, hr⟩

theorem loop_mono {prevp : ℕ} {r : ℕ × Heap × σ} (hl : loop os nunits fuel prevp p h w = some r)
    (hle : fuel ≤ k) : loop os nunits k prevp p h w = some r := by
  induction fuel generalizing prevp p h w k with
  | zero => cases hl
  | succ fuel ih =>
    obtain ⟨k, rfl⟩ : ∃ j, k = j + 1 := ⟨k - 1, by omega⟩
    unfold loop at hl ⊢
    split_ifs at hl ⊢
    · exact hl
    · simp only [Option.bind_eq_bind, Option.bind_eq_some_iff] at hl ⊢
      obtain ⟨r1, hm, hr⟩ := hl
      refine ⟨r1, morecore_mono hm (by omega), ?_⟩
      obtain ⟨_ | p', h1, w1⟩ := r1
      · exact hr
      · exact ih hr (by omega)
    · exact ih hl (by omega)

end

/-! ### Every sequence of calls -/

/-- A block in use: its header, its size, and the bytes that were asked for. -/
structure Live where
  addr : ℕ
  units : ℕ
  nbytes : ℕ

def Live.block (b : Live) : ℕ × ℕ := (b.addr, b.units)

/-- The process; `got` is what sbrk gave to `malloc`, by address and bytes. -/
structure State (σ : Type) where
  heap : Heap
  os : σ
  got : List (ℕ × ℕ)
  live : List Live

section

variable {σ : Type} {n : Int32} {w w' : σ × List (ℕ × ℕ)}

/-- Keep a record of what sbrk gives. -/
def Os.logged (os : Os σ) : Os (σ × List (ℕ × ℕ)) where
  sbrk n w := match os.sbrk n w.1 with
    | (none, w') => (none, w', w.2)
    | (some p, w') => (some p, w', (p, n.toInt.toNat) :: w.2)

/-- The request is small enough. -/
def Small (nbytes : UInt32) : Prop := ((nbytes.toNat + 7) / 8 + 1) * 8 < 2 ^ 31

/-- What the program must not write to: `base`, and memory from sbrk that is not in a block of its
own. -/
def Kept (base : ℕ) (s : State σ) (x : ℕ) : Prop :=
  x = base ∨ 0 < cover 1 s.got x ∧ ∀ b ∈ s.live, ¬(b.addr < x ∧ x < b.addr + 8 * b.units)

/-- What can happen: calls of malloc and free, writes of the program, and other use of sbrk. -/
inductive Run (os : Os σ) (top : σ → ℕ) (base : ℕ) (s : State σ) : State σ → Prop where
  | malloc {nbytes : UInt32} {fuel r : ℕ} {h : Heap} {w : σ} {got : List (ℕ × ℕ)} (hn : Small nbytes)
      (hm : malloc os.logged base fuel nbytes s.heap (s.os, s.got) = some (r, h, w, got)) :
      Run os top base s ⟨h, w, got, if r = 0 then s.live else ⟨r - 8, (units nbytes).toNat,
        nbytes.toNat⟩ :: s.live⟩
  | free {L R : List Live} {b : Live} {fuel : ℕ} {h : Heap} (hb : s.live = L ++ b :: R) (hf : free fuel s.heap (b.addr + 8) = some h) :
      Run os top base s { s with heap := h, live := L ++ R }
  | write {ptr size : ℕ → ℕ} (hk : ∀ x, Kept base s x → ptr x = s.heap.ptr x ∧ size x = s.heap.size x) :
      Run os top base s { s with heap := { s.heap with ptr, size } }
  | sbrk {w : σ} (hw : top s.os ≤ top w) : Run os top base s { s with os := w }

open Live (block)

/-- The heap, with the list `F` of free blocks: every byte that sbrk gave is in one block, and no
other byte is. -/
structure Inv (top : σ → ℕ) (base : ℕ) (s : State σ) (F : List (ℕ × ℕ)) : Prop where
  listed : (s.heap.freep = 0 ∧ F = [] ∧ s.live = []) ∨ Listed base s.heap F
  live : ∀ b ∈ s.live, s.heap.size b.addr = b.units ∧ 0 < b.units ∧ b.nbytes ≤ 8 * (b.units - 1)
  bytes : ∀ x, cover 8 F x + cover 8 (s.live.map block) x = cover 1 s.got x
  once : ∀ x, cover 1 s.got x ≤ 1
  range : ∀ x, 0 < cover 1 s.got x → base + 8 ≤ x ∧ x < top s.os
  low : 0 < base ∧ base + 8 ≤ top s.os

variable {os : Os σ} {top : σ → ℕ} {base : ℕ} {s s' : State σ} {F : List (ℕ × ℕ)} {nbytes : UInt32}

theorem units_eq (hn : Small nbytes) : (units nbytes).toNat = (nbytes.toNat + 7) / 8 + 1 := by
  unfold Small at hn
  unfold units
  have h8 : (8 : UInt32).toNat = 8 := rfl
  have h1 : (1 : UInt32).toNat = 1 := rfl
  rw [UInt32.toNat_add, UInt32.toNat_div, UInt32.toNat_sub, UInt32.toNat_add, h8, h1]
  omega

theorem logged_none (hs : os.logged.sbrk n w = (none, w')) :
    os.sbrk n w.1 = (none, w'.1) ∧ w'.2 = w.2 := by
  unfold Os.logged at hs
  dsimp only at hs
  split at hs
  · rename_i hs'
    cases hs
    exact ⟨hs', rfl⟩
  · cases hs

theorem logged_some {p : ℕ}
    (hs : os.logged.sbrk n w = (some p, w')) : os.sbrk n w.1 = (some p, w'.1) ∧
    w'.2 = (p, n.toInt.toNat) :: w.2 := by
  unfold Os.logged at hs
  dsimp only at hs
  split at hs
  · cases hs
  · rename_i hs'
    cases hs
    exact ⟨hs', rfl⟩

theorem FreshAt.logged {w : σ} (hos : FreshAt os top w) (got : List (ℕ × ℕ)) :
    FreshAt os.logged (fun w => top w.1) (w, got) :=
  ⟨fun n p w' hn hs => hos.grant n p w'.1 hn (logged_some hs).1, fun n w' hn hs =>
    hos.fail n w'.1 hn (logged_none hs).1⟩

/-- What `malloc` asks of sbrk: nothing, or one time for the units it needs. -/
inductive Asked (os : Os σ) (nunits : UInt32) (w : σ) (got : List (ℕ × ℕ)) : σ → List (ℕ × ℕ) → Prop where
  | nothing : Asked os nunits w got w got
  | failed {w' : σ} (hs : os.sbrk (request nunits * 8).toInt32 w = (none, w')) : Asked os nunits w got w' got
  | given {w' : σ} {p : ℕ} (hs : os.sbrk (request nunits * 8).toInt32 w = (some p, w')) :
      Asked os nunits w got w' ((p, 8 * (request nunits).toNat) :: got)

/-- What sbrk gave is one block of the list. -/
theorem cover_grant (p n : ℕ) (got : List (ℕ × ℕ)) (x : ℕ) :
    cover 1 ((p, 8 * n) :: got) x = cover 1 got x + cover 8 [(p, n)] x := by
  rw [cover_cons, cover_cons, cover_nil, Nat.one_mul]
  dsimp only
  omega

namespace Inv

/-! #### Blocks do not meet -/

theorem le_one (h : Inv top base s F) (x : ℕ) : cover 8 F x + cover 8 (s.live.map block) x ≤ 1 := by
  rw [h.bytes]
  exact h.once x

theorem apart (h : Inv top base s F) : Apart 8 base F := by
  rcases h.listed with ⟨-, rfl, -⟩ | hl
  · trivial
  · exact hl.apart

theorem live_pos (h : Inv top base s F) {c : ℕ × ℕ} (hc : c ∈ s.live.map block) : 0 < c.2 := by
  obtain ⟨b, hb, rfl⟩ := List.mem_map.mp hc
  exact (h.live b hb).2.1

variable {b : Live} {n p : ℕ} {w : σ} {ptr size : ℕ → ℕ}

section

variable (h : Inv top base s F)
include h

theorem live_cover (hb : b ∈ s.live) : 0 < cover 8 (s.live.map block) b.addr := by
  have := (h.live b hb).2.1
  exact cover_pos.mpr ⟨b.block, mem_map_of_mem hb, le_refl _,
    by unfold block; dsimp only; omega⟩

/-- A block in use is not where a free one begins. -/
theorem notMem_free (hb : b ∈ s.live) : cover 8 F b.addr = 0 ∧ b.addr ∉ F.map Prod.fst := by
  have h1 := h.live_cover hb
  have h2 := h.le_one b.addr
  refine ⟨by omega, fun hmem => ?_⟩
  have := h.apart.cover_node (by decide) hmem
  omega

theorem live_range (hb : b ∈ s.live) : base + 8 ≤ b.addr ∧ b.addr < top s.os := by
  have h1 := h.live_cover hb
  have h2 := h.bytes b.addr
  exact h.range b.addr (by omega)

theorem free_le_top {b : ℕ × ℕ} (hb : b ∈ F) : b.1 + 8 * b.2 ≤ top s.os := by
  have hpos := (h.apart.mem hb).2.1
  have h1 : 0 < cover 8 F (b.1 + 8 * b.2 - 1) := cover_pos.mpr ⟨b, hb, by omega, by omega⟩
  have h2 := h.bytes (b.1 + 8 * b.2 - 1)
  have := (h.range (b.1 + 8 * b.2 - 1) (by omega)).2
  omega

theorem live_apart {c : Live} (hb : b ∈ s.live) (hc : c ∈ s.live)
    (hne : b.addr ≠ c.addr) : b.addr + 8 * b.units ≤ c.addr ∨ c.addr + 8 * c.units ≤ b.addr := by
  have hpair := pairwise_of_cover (u := 8) (by decide)
    (fun x => (Nat.le_add_left _ _).trans (h.le_one x)) fun b hb => h.live_pos hb
  have : Std.Symm fun b c : ℕ × ℕ => b.1 + 8 * b.2 ≤ c.1 ∨ c.1 + 8 * c.2 ≤ b.1 := ⟨fun _ _ => Or.symm⟩
  exact hpair.forall (mem_map_of_mem hb) (mem_map_of_mem hc) fun heq =>
    hne (congrArg Prod.fst heq)

end

/-! #### Each step -/

section

variable (h : Inv top base s F)
include h

theorem start : Listed base (s.heap.start base) F ∧
    ∀ b ∈ s.live, (s.heap.start base).size b.addr = s.heap.size b.addr := by
  unfold Heap.start
  rcases h.listed with ⟨h0, rfl, hlive⟩ | hl
  · rw [if_pos h0]
    refine ⟨⟨update_self .., update_self .., trivial, mem_cons_self⟩, fun b hb => ?_⟩
    rw [hlive] at hb
    exact absurd hb not_mem_nil
  · have hne : s.heap.freep ≠ 0 := fun h0 => by
      have hlow := h.low.1
      rcases List.mem_cons.mp hl.freep with heq | hmem
      · omega
      · have := hl.apart.lt_of_mem hmem
        omega
    rw [if_neg hne]
    exact ⟨hl, fun _ _ => rfl⟩

theorem once_grant (hp : top s.os ≤ p) (x : ℕ) : cover 1 ((p, n) :: s.got) x ≤ 1 := by
  rw [cover_cons]
  split_ifs with hin
  · rcases Nat.eq_zero_or_pos (cover 1 s.got x) with h0 | h0
    · omega
    · have := (h.range x h0).2
      dsimp only at hin
      omega
  · have := h.once x
    omega

theorem range_grant (hp : top s.os ≤ p)
    (hw : p + n ≤ top w) {x : ℕ} (hx : 0 < cover 1 ((p, n) :: s.got) x) : base + 8 ≤ x ∧ x < top w := by
  have := h.low.2
  obtain ⟨c, hc, h1, h2⟩ := cover_pos.mp hx
  rcases List.mem_cons.mp hc with rfl | hc
  · dsimp only at h1 h2
    omega
  · have := h.range x (cover_pos.mpr ⟨c, hc, h1, h2⟩)
    omega

theorem allocated {h' : Heap} {G F' got : List (ℕ × ℕ)}
    (ha : Allocated base (s.heap.start base) h' F G b.addr b.units F')
    (hgot : ∀ x, cover 1 got x = cover 1 s.got x + cover 8 G x) (honce : ∀ x, cover 1 got x ≤ 1)
    (hrange : ∀ x, 0 < cover 1 got x → base + 8 ≤ x ∧ x < top w) (hw : top s.os ≤ top w)
    (hpos : 0 < b.units) (hb : b.nbytes ≤ 8 * (b.units - 1)) :
    Inv top base ⟨h', w, got, b :: s.live⟩ F' := by
  refine ⟨.inr ha.listed, fun c hc => ?_, fun x => ?_, honce, hrange, h.low.1, h.low.2.trans hw⟩
  · rcases List.mem_cons.mp hc with rfl | hc
    · exact ⟨ha.size, hpos, hb⟩
    · obtain ⟨hsize, hrest⟩ := h.live c hc
      have h1 := h.live_cover hc
      have h2 := h.bytes c.addr
      have h3 := hgot c.addr
      have h4 := honce c.addr
      have hsame := ha.same c.addr (h.notMem_free hc).1 (by omega)
      exact ⟨(hsame.trans (h.start.2 c hc)).trans hsize, hrest⟩
  · have h1 := ha.bytes x
    have h2 := h.bytes x
    have h3 := hgot x
    have h4 : cover 8 (((b :: s.live).map block)) x = cover 8 [(b.addr, b.units)] x +
      cover 8 (s.live.map block) x := by
      rw [map_cons, cover_head]
      rfl
    dsimp only
    omega

theorem malloc (hos : FreshAt os top s.os) (hn : Small nbytes) :
    ∃ N r h' w got, (∀ fuel, N ≤ fuel → malloc os.logged base fuel nbytes s.heap (s.os, s.got) =
      some (r, h', w, got)) ∧ Asked os (units nbytes) s.os s.got w got ∧
      ∃ F', Inv top base ⟨h', w, got, if r = 0 then s.live else ⟨r - 8, (units nbytes).toNat,
        nbytes.toNat⟩ :: s.live⟩ F' := by
  have hunits := units_eq hn
  have hk : (units nbytes).toNat * 8 < 2 ^ 31 := by
    rw [hunits]
    exact hn
  have hlow := h.low
  obtain ⟨N, r, h', ⟨w, got⟩, hrun, hres⟩ := loop_spec (hos.logged s.got) h.start.1 (by omega) hk
    (by dsimp only; omega)
    fun b hb => h.free_le_top hb
  refine ⟨N, r, h', w, got, hrun, ?_⟩
  have hbytes := toInt_bytes (request_lt hk)
  have hreq := le_request (units nbytes)
  generalize hu : (s.os, s.got) = u at hres
  generalize hv : (w, got) = v at hres
  cases hres with
  | failed hs =>
    subst hu hv
    obtain ⟨hs, hgot⟩ := logged_none hs
    have hw : top s.os ≤ top w := hos.fail _ _ (by rw [hbytes]; omega) hs
    have hgot : got = s.got := hgot
    rw [if_pos rfl, hgot]
    refine ⟨.failed hs, F, .inr h.start.1, fun b hb => ?_, h.bytes, h.once, fun x hx => ?_, h.low.1,
      h.low.2.trans hw⟩
    · obtain ⟨hsize, hrest⟩ := h.live b hb
      exact ⟨(h.start.2 b hb).trans hsize, hrest⟩
    · exact ⟨(h.range x hx).1, (h.range x hx).2.trans_le hw⟩
  | @old q h' F' ha =>
    cases hu.trans hv.symm
    refine ⟨.nothing, F', ?_⟩
    rw [if_neg (by omega), Nat.add_sub_cancel]
    exact h.allocated ha
      (fun x => rfl) h.once h.range (le_refl _) (by dsimp only; omega) (by dsimp only; omega)
  | @new p q h' v F' hs ha =>
    subst hu hv
    obtain ⟨hs, hgot⟩ := logged_some hs
    obtain ⟨hp, hw⟩ := hos.grant _ _ _ (by rw [hbytes]; omega) hs
    have hgot : got = (p, 8 * (request (units nbytes)).toNat) :: s.got := by
      rw [hbytes] at hgot
      exact hgot
    rw [hbytes] at hw
    dsimp only at hp hw
    rw [if_neg (by omega), Nat.add_sub_cancel, hgot]
    refine ⟨.given hs, F', ?_⟩
    exact h.allocated ha (fun x => cover_grant ..) (fun x => h.once_grant hp x)
      (fun x hx => h.range_grant hp hw hx)
      (by omega) (by dsimp only; omega) (by dsimp only; omega)

theorem free {L R : List Live} (hb : s.live = L ++ b :: R) :
    ∃ N h', (∀ fuel, N ≤ fuel → free fuel s.heap (b.addr + 8) = some h') ∧
      ∃ F', Inv top base { s with heap := h', live := L ++ R } F' := by
  have hmem : b ∈ s.live := by
    rw [hb]
    exact mem_append_right _ mem_cons_self
  have hlive := h.live b hmem
  have hrange := h.live_range hmem
  have hl : Listed base s.heap F := by
    refine h.listed.resolve_left fun hempty => ?_
    rw [hempty.2.2] at hmem
    exact not_mem_nil hmem
  obtain ⟨h', F', hrun, hl', hcover, hsame, -⟩ := free_spec hl (by omega) hlive.2.1 hlive.1 fun c hc =>
    disjoint_of_cover (by decide) h.le_one hc (mem_map_of_mem hmem) (hl.apart.mem hc).2.1 hlive.2.1
  have hsplit : ∀ x, cover 8 (s.live.map block) x = cover 8 [(b.addr, b.units)] x +
    cover 8 ((L ++ R).map block) x := fun x => by
    rw [hb, map_append, map_append, map_cons, cover_append, cover_append, cover_head]
    unfold block
    omega
  refine ⟨F.length + 2, h', fun fuel hfuel => hrun fuel (by omega), F', .inr hl', fun c hc => ?_,
    fun x => ?_, h.once, h.range, h.low⟩
  · have hc' : c ∈ s.live := by
      rw [hb]
      rcases List.mem_append.mp hc with hc | hc
      · exact List.mem_append_left _ hc
      · exact mem_append_right _ (mem_cons_of_mem _ hc)
    obtain ⟨hsize, hrest⟩ := h.live c hc'
    refine ⟨(hsame c.addr (fun heq => ?_) (h.notMem_free hc').2).trans hsize, hrest⟩
    -- two blocks at one address would cover it twice
    have h1 := h.le_one c.addr
    have h2 := hsplit c.addr
    have h3 : 0 < cover 8 ((L ++ R).map block) c.addr :=
      cover_pos.mpr ⟨c.block, mem_map_of_mem hc, le_refl _, by unfold block; dsimp only; omega⟩
    rw [heq, cover_single_self _ hlive.2.1, ← heq] at h2
    omega
  · have h1 := h.bytes x
    have h2 := hsplit x
    have h3 := hcover x
    dsimp only
    omega

theorem write (hk : ∀ x, Kept base s x → ptr x = s.heap.ptr x ∧ size x = s.heap.size x) :
    Inv top base { s with heap := { s.heap with ptr, size } } F := by
  have hfree : ∀ y ∈ F.map Prod.fst, Kept base s y := fun y hy => by
    have h1 := h.apart.cover_node (by decide) hy
    have h2 := h.bytes y
    have h3 := h.once y
    refine .inr ⟨by omega, fun c hc hin => ?_⟩
    have : 0 < cover 8 (s.live.map block) y :=
      cover_pos.mpr ⟨c.block, mem_map_of_mem hc, hin.1.le, hin.2⟩
    omega
  have hlive : ∀ b ∈ s.live, Kept base s b.addr := fun b hb => by
    have h1 := h.live_cover hb
    have h2 := h.bytes b.addr
    refine .inr ⟨by omega, fun c hc hin => ?_⟩
    have := (h.live b hb).2.1
    rcases h.live_apart hb hc (by omega) with h' | h'
    · omega
    · omega
  refine ⟨?_, fun b hb => ?_, h.bytes, h.once, h.range, h.low⟩
  · refine h.listed.imp id fun hl => ⟨?_, (hk base (.inl rfl)).2.trans hl.zero, hl.apart, hl.freep⟩
    exact hl.path.congr (hk base (.inl rfl)).1 (fun y hy => (hk y (hfree y hy)).1) fun y hy =>
      (hk y (hfree y hy)).2
  · obtain ⟨hsize, hrest⟩ := h.live b hb
    exact ⟨(hk b.addr (hlive b hb)).2.trans hsize, hrest⟩

theorem sbrk (hw : top s.os ≤ top w) : Inv top base { s with os := w } F :=
  ⟨h.listed, h.live, h.bytes, h.once, fun x hx => ⟨(h.range x hx).1, (h.range x hx).2.trans_le hw⟩,
    h.low.1, h.low.2.trans hw⟩

theorem step (hos : Fresh os top) (hrun : Run os top base s s') : ∃ F', Inv top base s' F' := by
  cases hrun with
  | @malloc nbytes fuel r h1 w got hn hm =>
    obtain ⟨N, r', h', w', got', hend, -, F', hinv⟩ := h.malloc (hos s.os) hn
    have heq := (loop_mono hm (Nat.le_max_left fuel N)).symm.trans (hend _ (Nat.le_max_right fuel N))
    cases heq
    exact ⟨F', hinv⟩
  | @free L R b fuel h1 hb hf =>
    obtain ⟨N, h', hend, F', hinv⟩ := h.free hb
    have heq := (free_mono hf (Nat.le_max_left fuel N)).symm.trans (hend _ (Nat.le_max_right fuel N))
    cases heq
    exact ⟨F', hinv⟩
  | write hk => exact ⟨F, h.write hk⟩
  | sbrk hw => exact ⟨F, h.sbrk hw⟩

end

/-- Before the first call, `freep` is 0. -/
theorem init (hpos : 0 < base) (hbase : base + 8 ≤ top w) :
    Inv top base ⟨⟨ptr, size, 0⟩, w, [], []⟩ [] := by
  refine ⟨.inl ⟨rfl, rfl, rfl⟩, fun b hb => absurd hb not_mem_nil, fun _ => rfl, fun x => ?_,
    fun x hx => ?_, hpos, hbase⟩
  · exact Nat.zero_le 1
  · exact absurd hx (Nat.lt_irrefl 0)

theorem run (h : Inv top base s F) (hos : Fresh os top)
    (hrun : Relation.ReflTransGen (Run os top base) s s') : ∃ F', Inv top base s' F' := by
  induction hrun with
  | refl => exact ⟨F, h⟩
  | tail _ hstep ih =>
    obtain ⟨F1, h1⟩ := ih
    exact h1.step hos hstep

end Inv

/-- The heap is as it should be: the list of free blocks is in order and has no neighbours in it,
the blocks do not meet and have all the memory from sbrk, each block in use is large enough, and the
next call ends. -/
structure Sound (os : Os σ) (base : ℕ) (s : State σ) (F : List (ℕ × ℕ)) : Prop where
  listed : (s.heap.freep = 0 ∧ F = [] ∧ s.live = []) ∨ Listed base s.heap F
  disjoint : (F ++ s.live.map block).Pairwise fun b c => b.1 + 8 * b.2 ≤ c.1 ∨ c.1 + 8 * c.2 ≤ b.1
  exact : ∀ x, (∃ b ∈ F ++ s.live.map block, b.1 ≤ x ∧ x < b.1 + 8 * b.2) ↔ ∃ g ∈ s.got,
    g.1 ≤ x ∧ x < g.1 + g.2
  large : ∀ b ∈ s.live, s.heap.size b.addr = b.units ∧ b.nbytes ≤ 8 * (b.units - 1)
  mallocEnds : ∀ nbytes, Small nbytes → ∃ N r, ∀ fuel, N ≤ fuel → malloc os.logged base fuel nbytes
    s.heap (s.os, s.got) = some r
  freeEnds : ∀ b ∈ s.live, ∃ N h', ∀ fuel, N ≤ fuel → free fuel s.heap (b.addr + 8) = some h'

theorem Inv.sound (h : Inv top base s F) (hos : Fresh os top) : Sound os base s F := by
  have hcover : ∀ x, cover 8 (F ++ s.live.map block) x = cover 1 s.got x := fun x => by
    rw [cover_append]
    exact h.bytes x
  refine ⟨h.listed, ?_, fun x => ?_, fun b hb => ?_, fun nbytes hn => ?_, fun b hb => ?_⟩
  · refine pairwise_of_cover (by decide) (fun x => (hcover x).trans_le (h.once x)) fun b hb => ?_
    rcases List.mem_append.mp hb with hb | hb
    · exact (h.apart.mem hb).2.1
    · exact h.live_pos hb
  · have hiff : 0 < cover 8 (F ++ s.live.map block) x ↔ 0 < cover 1 s.got x := by rw [hcover]
    rw [cover_pos, cover_pos] at hiff
    simpa only [Nat.one_mul] using hiff
  · exact ⟨(h.live b hb).1, (h.live b hb).2.2⟩
  · obtain ⟨N, r, h', w, got, hend, -⟩ := h.malloc (hos s.os) hn
    exact ⟨N, _, hend⟩
  · obtain ⟨L, R, hsplit⟩ := append_of_mem hb
    obtain ⟨N, h', hend, -⟩ := h.free hsplit
    exact ⟨N, h', hend⟩

/-- **The heap is sound** after any sequence of calls. -/
theorem heap_invariant (hos : Fresh os top) (hpos : 0 < base) {w : σ} (hbase : base + 8 ≤ top w)
    {ptr size : ℕ → ℕ} (hrun : Relation.ReflTransGen (Run os top base) ⟨⟨ptr, size, 0⟩, w, [], []⟩
      s) : ∃ F, Sound os base s F := by
  obtain ⟨F, hinv⟩ := (Inv.init hpos hbase).run hos hrun
  exact ⟨F, hinv.sound hos⟩

end

/-- sbrk that never fails. -/
def bump : Os ℕ := ⟨fun n w => (some w, w + n.toInt.toNat)⟩

theorem bump_fresh : Fresh bump id := by
  intro w
  refine ⟨fun n p w' _ hs => ?_, fun n w' _ hs => ?_⟩
  · cases hs
    exact ⟨le_refl _, le_refl _⟩
  · cases hs

/-- Ten bytes, two units and the header, are taken twice from the end of the first memory from sbrk;
given back, they are one free block with the rest of it. -/
theorem heap_invariant_coalesced : ∃ s, Relation.ReflTransGen (Run bump id 8)
    ⟨⟨id, id, 0⟩, 16, [], []⟩ s ∧ s.live = [] ∧ s.heap.size 16 = 4096 ∧ ∃ F, Sound bump 8 s F := by
  have hten : Small 10 := by
    unfold Small
    decide
  have hrun : Relation.ReflTransGen (Run bump id 8) ⟨⟨id, id, 0⟩, 16, [], []⟩ _ :=
    (((Relation.ReflTransGen.single (@Run.malloc _ bump id 8 _ 10 5 _ _ _ _ hten rfl)).tail
      (@Run.malloc _ bump id 8 _ 10 5 _ _ _ _ hten rfl)).tail
      (@Run.free _ bump id 8 _ [⟨32736, 3, 10⟩] [] ⟨32760, 3, 10⟩ 5 _ rfl rfl)).tail
      (@Run.free _ bump id 8 _ [] [] ⟨32736, 3, 10⟩ 5 _ rfl rfl)
  exact ⟨_, hrun, rfl, rfl, heap_invariant bump_fresh (by decide) (by decide) hrun⟩

end Xv6.Umalloc
