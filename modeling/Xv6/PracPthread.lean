/-
# The merge sort with four threads

prac_pthread.c: four threads run `merge_sort_`, each on its quarter of `arr`; main creates them,
joins them, and merges the quarters with three calls of `merge`. Each read and write of `arr` is a
move of its own, and so is each call of `merge`; the threads' moves come in any order.

The threads touch their own quarters only, so each of them sorts its quarter as if it were alone.
The final calls compute their splits anew, and for every length these are the bounds of the
quarters.
-/
import Xv6.Lib.Machine
import Xv6.Lib.Threads

namespace Xv6.PracPthread

open Threads
open Function (update update_self update_of_ne)
open List (length_cons)

def NUM_THREADS : ℕ := 4

/-- A call of `merge`. -/
structure Call where
  low : ℕ
  mid : ℕ
  high : ℕ

/-- Code over the cells of `arr`. -/
abbrev ArrM := Code ℕ ℤ Call

/-! ### The program -/

/-- `for(i = 0; i < n; i++) left[i] = arr[i + low];` -/
def load (low : ℕ) : ℕ → ArrM (List ℤ)
  | 0 => pure []
  | n + 1 => do
    let v ← Code.get low
    let rest ← load (low + 1) n
    pure (v :: rest)

/-- `while(i < n1 && j < n2)`: the lists are what `left` has from `i` on and `right` from `j` on. -/
def mergeLoop : List ℤ → List ℤ → ℕ → ArrM (List ℤ × List ℤ × ℕ)
  | x :: left, y :: right, k =>
    if x ≤ y then do
      Code.put k x
      mergeLoop left (y :: right) (k + 1)
    else do
      Code.put k y
      mergeLoop (x :: left) right (k + 1)
  | left, right, k => pure (left, right, k)
termination_by left right _ => left.length + right.length

/-- `while(i < n1) arr[k++] = left[i++];` -/
def storeAll : List ℤ → ℕ → ArrM ℕ
  | [], k => pure k
  | x :: left, k => do
    Code.put k x
    storeAll left (k + 1)

/-- The two loops after the first: what is left of either side. -/
def storeRest (r : List ℤ × List ℤ × ℕ) : ArrM Unit := do
  let k ← storeAll r.1 r.2.2
  let _ ← storeAll r.2.1 k
  pure ()

def merge (low mid high : ℕ) : ArrM Unit := do
  Code.event ⟨low, mid, high⟩
  let left ← load low (mid - low + 1)
  let right ← load (mid + 1) (high - mid)
  let r ← mergeLoop left right low
  storeRest r

def mergeSort (low high : ℕ) : ArrM Unit :=
  if _h : low < high then do
    mergeSort low (low + (high - low) / 2)
    mergeSort (low + (high - low) / 2 + 1) high
    merge low (low + (high - low) / 2) high
  else pure ()
termination_by high - low

/-- `merge_sort_` of thread `taskid`, for an array of length `maxNum`. -/
def mergeSortThread (maxNum taskid : ℕ) : ArrM Unit :=
  let low := taskid * (maxNum / NUM_THREADS)
  let high := (taskid + 1) * (maxNum / NUM_THREADS) - 1
  let mid := low + (high - low) / 2
  if low < high then do
    mergeSort low mid
    mergeSort (mid + 1) high
    merge low mid high
  else pure ()

/-- What main does after the joins. -/
def finalMerges (maxNum : ℕ) : ArrM Unit := do
  merge 0 ((maxNum / 2 - 1) / 2) (maxNum / 2 - 1)
  merge (maxNum / 2) (maxNum / 2 + (maxNum - 1 - maxNum / 2) / 2) (maxNum - 1)
  merge 0 ((maxNum - 1) / 2) (maxNum - 1)

/-- Where main is: in the loop of `pthread_create`, in the loop of `pthread_join`, or in the final
calls. -/
inductive Main where
  | create (i : ℕ)
  | join (i : ℕ)
  | merges (c : ArrM Unit)

/-- The threads with a smaller number exist. -/
def Main.created : Main → ℕ
  | create i => i
  | _ => NUM_THREADS

structure Sys where
  arr : ℕ → ℤ
  workers : Fin NUM_THREADS → ArrM Unit
  main : Main

inductive Who where
  | main
  | worker (t : Fin NUM_THREADS)

def start (maxNum : ℕ) (arr : ℕ → ℤ) : Sys := ⟨arr, fun t => mergeSortThread maxNum t, .create 0⟩

def stepMain (maxNum : ℕ) (s : Sys) : Outcome Sys :=
  match s.main with
  | .create i =>
    if i < NUM_THREADS then .next { s with main := .create (i + 1) } else .next {
      s with main := .join 0 }
  | .join i =>
    if h : i < NUM_THREADS then
      if (s.workers ⟨i, h⟩).done then .next { s with main := .join (i + 1) } else .blocked
    else .next { s with main := .merges (finalMerges maxNum) }
  | .merges c =>
    match c.step s.arr with
    | none => .blocked
    | some (c, arr) => .next { s with arr, main := .merges c }

def stepWorker (s : Sys) (t : Fin NUM_THREADS) : Outcome Sys :=
  if t < s.main.created then
    match (s.workers t).step s.arr with
    | none => .blocked
    | some (c, arr) => .next { s with arr, workers := update s.workers t c }
  else .blocked

def step (maxNum : ℕ) (s : Sys) : Who → Outcome Sys
  | .main => stepMain maxNum s
  | .worker t => stepWorker s t

/-- Main has returned from the last call. -/
def Sys.finished (s : Sys) : Bool :=
  match s.main with
  | .merges c => c.done
  | _ => false

/-! ### Parts of the array -/

/-- `arr[lo]` up to `arr[hi - 1]`. -/
def seg (f : ℕ → ℤ) (lo hi : ℕ) : List ℤ := (List.range' lo (hi - lo)).map f

def Sorted (l : List ℤ) : Prop := l.Pairwise (· ≤ ·)

/-- The list is written to the cells from `k` on. -/
def place (f : ℕ → ℤ) : ℕ → List ℤ → ℕ → ℤ
  | _, [] => f
  | k, x :: l => place (update f k x) (k + 1) l

/-- The cells from `lo` to `hi` are permuted, the others are as they were. -/
structure Permuted (lo hi : ℕ) (f g : ℕ → ℤ) : Prop where
  perm : (seg g lo hi).Perm (seg f lo hi)
  same : ∀ i, i < lo ∨ hi ≤ i → g i = f i

/-- The call of `merge` gets two adjacent sorted ranges, of cells of `R`. -/
structure Merging (R : Set ℕ) (c : Call) (f : ℕ → ℤ) : Prop where
  left : c.low ≤ c.mid
  right : c.mid < c.high
  cells : ∀ i, c.low ≤ i → i ≤ c.high → i ∈ R
  sorted_left : Sorted (seg f c.low (c.mid + 1))
  sorted_right : Sorted (seg f (c.mid + 1) (c.high + 1))

section

variable {f g h f₀ : ℕ → ℤ} {lo mid hi low high k n m i : ℕ} {l xs ys : List ℤ} {R : Set ℕ}
  {N : Call → (ℕ → ℤ) → Prop} {Q : Unit → (ℕ → ℤ) → Prop} {b maxNum : ℕ} {c : ArrM Unit}
  {t : Fin NUM_THREADS} {s s' : Sys} {arr : ℕ → ℤ} {workers : Fin NUM_THREADS → ArrM Unit}

theorem seg_congr (hfg : ∀ i, lo ≤ i → i < hi → f i = g i) : seg f lo hi = seg g lo hi := by
  unfold seg
  refine List.map_congr_left fun i hi => ?_
  rw [List.mem_range'_1] at hi
  exact hfg i hi.1 (by omega)

theorem length_seg : (seg f lo hi).length = hi - lo := by
  unfold seg
  rw [List.length_map, List.length_range']

theorem seg_append (h1 : lo ≤ mid) (h2 : mid ≤ hi) : seg f lo hi = seg f lo mid ++ seg f mid hi := by
  unfold seg
  rw [← List.map_append, show hi - lo = (mid - lo) +
    (hi - mid) by omega, ← List.range'_append_1, Nat.add_sub_cancel' h1]

theorem seg_cons (hlt : lo < hi) : seg f lo hi = f lo :: seg f (lo + 1) hi := by
  unfold seg
  rw [show hi - lo = (hi - (lo + 1)) + 1 by omega, List.range'_succ, List.map_cons]

theorem seg_nil (hle : hi ≤ lo) : seg f lo hi = [] := by
  unfold seg
  rw [Nat.sub_eq_zero_of_le hle]
  rfl

theorem place_outside (hi : i < k ∨ k + l.length ≤ i) : place f k l i = f i := by
  induction l generalizing f k with
  | nil => rfl
  | cons x l ih =>
    rw [length_cons] at hi
    rw [place, ih (by omega), update_of_ne (by omega)]

theorem seg_place : seg (place f k l) k (k + l.length) = l := by
  induction l generalizing f k with
  | nil => exact seg_nil (le_refl _)
  | cons x l ih =>
    rw [length_cons, seg_cons (by omega), place, place_outside (.inl (Nat.lt_succ_self k)),
      update_self,
      show k + (l.length + 1) = k + 1 + l.length by omega, ih]

theorem Permuted.trans (h1 : Permuted lo hi f g) (h2 : Permuted lo hi g h) : Permuted lo hi f h :=
  ⟨h2.perm.trans h1.perm, fun i hi => (h2.same i hi).trans (h1.same i hi)⟩

theorem Permuted.refl (lo hi : ℕ) (f : ℕ → ℤ) : Permuted lo hi f f := ⟨List.Perm.refl _, fun _ _ => rfl⟩

/-- A part that is not permuted. -/
theorem Permuted.seg_eq (h : Permuted lo hi f g) (hout : high ≤ lo ∨ hi ≤ low) :
    seg g low high = seg f low high :=
  seg_congr fun i h1 h2 => h.same i (by omega)

theorem Permuted.widen (h : Permuted lo hi f g) (hle : lo ≤ hi) (h1 : low ≤ lo) (h2 : hi ≤ high) :
    Permuted low high f g := by
  refine ⟨?_, fun i hi => h.same i (by omega)⟩
  rw [seg_append h1 (hle.trans h2), seg_append hle h2, seg_append h1 (hle.trans h2),
    seg_append (f := f) hle h2,
    h.seg_eq (.inl (le_refl lo)), h.seg_eq (.inr (le_refl hi))]
  exact (h.perm.append_right _).append_left _

theorem local_sorted (hR : ∀ i, lo ≤ i → i < hi → i ∈ R) : Local R fun f => Sorted (seg f lo hi) :=
    fun f g hfg hs => by
  have heq : seg f lo hi = seg g lo hi := seg_congr fun i h1 h2 => hfg i (hR i h1 h2)
  dsimp only at hs ⊢
  rwa [heq] at hs

theorem local_merging (R : Set ℕ) (c : Call) : Local R (Merging R c) := fun f g hfg hm =>
  ⟨hm.left, hm.right, hm.cells,
    local_sorted (fun i h1 h2 => hm.cells i h1 (by have := hm.right; omega)) f g hfg hm.sorted_left,
    local_sorted (fun i h1 h2 => hm.cells i (by have := hm.left; omega) (by omega)) f g hfg
      hm.sorted_right⟩

/-! ### merge -/

theorem wp_load {Q : List ℤ → (ℕ → ℤ) → Prop} (n low : ℕ) (hR : ∀ i, low ≤ i → i < low + n → i ∈ R)
    (hQ : Q (seg f low (low + n)) f) : Wp R N Q (load low n) f := by
  induction n generalizing low Q with
  | zero =>
    rw [seg_nil (by omega)] at hQ
    exact hQ
  | succ n ih =>
    rw [seg_cons (by omega), show low + (n + 1) = low + 1 + n by omega] at hQ
    unfold load
    refine Wp.bind
      (Wp.get (hR low (le_refl _) (by omega))
        (Wp.bind (ih (low + 1) (fun i h1 h2 => hR i (by omega) (by omega)) ?_)))
    exact hQ

theorem wp_storeAll {Q : ℕ → (ℕ → ℤ) → Prop} (l : List ℤ) (k : ℕ)
    (hR : ∀ i, k ≤ i → i < k + l.length → i ∈ R) (hQ : Q (k + l.length) (place f k l)) :
    Wp R N Q (storeAll l k) f := by
  induction l generalizing k f with
  | nil => exact hQ
  | cons x l ih =>
    rw [length_cons] at hR hQ
    unfold storeAll
    refine Wp.bind
      (Wp.put (hR k (le_refl _) (by omega)) (ih (k + 1) (fun i h1 h2 => hR i (by omega) (by omega))
        ?_))
    rwa [show k + 1 + l.length = k + (l.length + 1) by omega]

theorem place_append (f : ℕ → ℤ) (k : ℕ) (xs ys : List ℤ) :
    place (place f k xs) (k + xs.length) ys = place f k (xs ++ ys) := by
  induction xs generalizing f k with
  | nil => rfl
  | cons x xs ih =>
    rw [List.cons_append, place, place, length_cons, ← ih, show k + (xs.length + 1) = k + 1 +
      xs.length by omega]

theorem wp_storeRest (xs ys : List ℤ) (k : ℕ)
    (hR : ∀ i, k ≤ i → i < k + (xs.length + ys.length) → i ∈ R) (hQ : Q () (place f k (xs ++ ys))) :
    Wp R N Q (storeRest (xs, ys, k)) f := by
  unfold storeRest
  refine Wp.bind (wp_storeAll xs k (fun i h1 h2 => hR i h1 (by omega)) (Wp.bind ?_))
  refine wp_storeAll ys _ (fun i h1 h2 => hR i (by omega) (by omega)) (Wp.pure ?_)
  rwa [place_append]

/-- The three loops that write put the merged list from `k` on. -/
theorem wp_mergeLoop (xs ys : List ℤ) (k : ℕ) (f : ℕ → ℤ)
    (hR : ∀ i, k ≤ i → i < k + (xs.length + ys.length) → i ∈ R) (hQ : Q () (place f k (xs.merge ys))) :
    Wp R N (fun r g => Wp R N Q (storeRest r) g) (mergeLoop xs ys k) f := by
  induction xs, ys, k using mergeLoop.induct generalizing f with
  | case1 x xs y ys k hxy ih =>
    rw [List.cons_merge_cons_pos _ _ _ (by simpa using hxy)] at hQ
    rw [length_cons] at hR
    rw [mergeLoop, if_pos hxy]
    refine Wp.bind
      (Wp.put (hR k (le_refl _) (by omega)) (ih _ (fun i h1 h2 => hR i (by omega) (by omega)) hQ))
  | case2 x xs y ys k hxy ih =>
    rw [List.cons_merge_cons_neg _ _ _ (by simpa using hxy)] at hQ
    rw [mergeLoop, if_neg hxy]
    refine Wp.bind (Wp.put (hR k (le_refl _) (by rw [length_cons]; omega))
      (ih _ (fun i h1 h2 => hR i (by omega) ?_) hQ))
    rw [length_cons] at h2 ⊢
    rw [length_cons]
    omega
  | case3 xs ys k hne =>
    rw [mergeLoop.eq_2 _ _ _ hne]
    refine Wp.pure (wp_storeRest xs ys k hR ?_)
    -- one of the two sides is used up
    rcases xs with _ | ⟨x, xs⟩
    · rwa [List.nil_merge] at hQ
    · rcases ys with _ | ⟨y, ys⟩
      · rwa [List.merge_right, ← List.append_nil (x :: xs)] at hQ
      · exact absurd rfl (hne x xs y ys rfl)

theorem sorted_merge (hx : Sorted xs) (hy : Sorted ys) : Sorted (xs.merge ys) := by
  unfold Sorted at *
  have := @List.pairwise_merge ℤ (fun a b => decide (a ≤ b)) (fun a b c => by simpa using le_trans)
    (fun a b => by simpa using le_total a b) xs ys (by simpa using hx) (by simpa using hy)
  simpa using this

/-- **merge sorts the range of its two parts.** -/
theorem wp_merge (hm : Merging R ⟨low, mid, high⟩ f)
    (hQ : ∀ g, Permuted low (high + 1) f g → Sorted (seg g low (high + 1)) → Q () g) :
    Wp R (Merging R) Q (merge low mid high) f := by
  have hlm : low ≤ mid := hm.left
  have hmh : mid < high := hm.right
  have hcells : ∀ i, low ≤ i → i ≤ high → i ∈ R := hm.cells
  have hsl : Sorted (seg f low (mid + 1)) := hm.sorted_left
  have hsr : Sorted (seg f (mid + 1) (high + 1)) := hm.sorted_right
  have hn1 : low + (mid - low + 1) = mid + 1 := by omega
  have hn2 : mid + 1 + (high - mid) = high + 1 := by omega
  obtain ⟨l, hl⟩ : ∃ l, l = (seg f low (mid + 1)).merge (seg f (mid + 1) (high + 1)) := ⟨_, rfl⟩
  have hlen : low + l.length = high + 1 := by
    rw [hl, List.length_merge, length_seg, length_seg]
    omega
  have hseg : seg (place f low l) low (high + 1) = l := by rw [← hlen, seg_place]
  unfold merge
  refine Wp.bind (Wp.event hm (Wp.bind ?_))
  refine wp_load _ _ (fun i h1 h2 => hcells i h1 (by omega)) (Wp.bind ?_)
  refine wp_load _ _ (fun i h1 h2 => hcells i (by omega) (by omega)) (Wp.bind ?_)
  rw [hn1, hn2]
  refine wp_mergeLoop _ _ low f (fun i h1 h2 => hcells i h1 ?_)
    (hQ _ ⟨?_, fun i hi => place_outside ?_⟩ ?_)
  · rw [length_seg, length_seg] at h2
    omega
  · rw [← hl, hseg, hl, seg_append (f := f) (show low ≤ mid + 1 by omega)
      (show mid + 1 ≤ high + 1 by omega)]
    exact List.merge_perm_append _
  · rw [← hl]
    omega
  · rw [← hl, hseg, hl]
    exact sorted_merge hsl hsr

/-- The same, by the bounds of the two ranges. -/
theorem wp_adjacent {a c : ℕ} (hmid : mid + 1 = b) (hhigh : high + 1 = c) (hab : a < b)
    (hbc : b < c) (hR : ∀ i, a ≤ i → i < c → i ∈ R) (h1 : Sorted (seg f a b))
    (h2 : Sorted (seg f b c)) (hQ : ∀ g, Permuted a c f g → Sorted (seg g a c) → Q () g) :
    Wp R (Merging R) Q (merge a mid high) f := by
  subst hmid hhigh
  exact wp_merge ⟨Nat.lt_succ_iff.mp hab,
    by dsimp only; omega, fun i h1 h2 => hR i h1 (Nat.lt_succ_iff.mpr h2), h1, h2⟩ hQ

/-! ### merge_sort -/

/-- The two halves and the merge of them. -/
theorem wp_halves {c1 c2 : ArrM Unit} (hlm : low ≤ mid) (hmh : mid < high)
    (hR : ∀ i, low ≤ i → i ≤ high → i ∈ R)
    (h1 : ∀ (Q' : Unit → (ℕ → ℤ) → Prop) (f : ℕ → ℤ),
      (∀ g, Permuted low (mid + 1) f g → Sorted (seg g low (mid + 1)) → Q' () g) →
      Wp R (Merging R) Q' c1 f)
    (h2 : ∀ (Q' : Unit → (ℕ → ℤ) → Prop) (f : ℕ → ℤ),
      (∀ g, Permuted (mid + 1) (high + 1) f g → Sorted (seg g (mid + 1) (high + 1)) → Q' () g) →
      Wp R (Merging R) Q' c2 f)
    (hQ : ∀ g, Permuted low (high + 1) f g → Sorted (seg g low (high + 1)) → Q () g) :
    Wp R (Merging R) Q (do c1; c2; merge low mid high) f := by
  refine Wp.bind (h1 _ f fun g1 hp1 hs1 => Wp.bind (h2 _ g1 fun g2 hp2 hs2 => ?_))
  have hleft : Sorted (seg g2 low (mid + 1)) := by rwa [hp2.seg_eq (.inl (le_refl _))]
  refine wp_merge ⟨hlm, hmh, hR, hleft, hs2⟩ fun g hp hs => hQ g ?_ hs
  exact (hp1.widen (by omega) (le_refl _) (by omega)).trans
    ((hp2.widen (by omega) (by omega) (le_refl _)).trans hp)

theorem sorted_single (hle : hi ≤ lo + 1) : Sorted (seg f lo hi) := by
  rcases Nat.lt_or_ge lo hi with hlt | hge
  · rw [seg_cons hlt, seg_nil hle]
    exact List.pairwise_singleton _ _
  · rw [seg_nil hge]
    exact List.Pairwise.nil

/-- **merge_sort sorts its range.** -/
theorem wp_mergeSort (low high : ℕ) (hle : low ≤ high) (hR : ∀ i, low ≤ i → i ≤ high → i ∈ R)
    (hQ : ∀ g, Permuted low (high + 1) f g → Sorted (seg g low (high + 1)) → Q () g) :
    Wp R (Merging R) Q (mergeSort low high) f := by
  induction low, high using mergeSort.induct generalizing f Q with
  | case1 low high hlt ih1 ih2 =>
    unfold mergeSort
    rw [dif_pos hlt]
    refine wp_halves (by omega) (by omega) hR
      (fun Q' f h' => ih1 (by omega) (fun i h1 h2 => hR i h1 (by omega)) h')
      (fun Q' f h' => ih2 (by omega) (fun i h1 h2 => hR i (by omega) h2) h') hQ
  | case2 low high hge =>
    unfold mergeSort
    rw [dif_neg hge]
    exact hQ f (Permuted.refl _ _ _) (sorted_single (by omega))

/-! ### The quarters -/

/-- The cells of thread `t`. -/
def quarter (k t : ℕ) : Set ℕ := {i | t * k ≤ i ∧ i < (t + 1) * k}

/-- The quarter of thread `t` is sorted, and has what it had in `f₀`. -/
def SortedQuarter (k : ℕ) (f₀ : ℕ → ℤ) (t : ℕ) (g : ℕ → ℤ) : Prop :=
  Sorted (seg g (t * k) ((t + 1) * k)) ∧ (seg g (t * k) ((t + 1) * k)).Perm (seg f₀ (t * k) ((t + 1) * k))

theorem local_sortedQuarter (k : ℕ) (f₀ : ℕ → ℤ) (t : ℕ) :
    Local (quarter k t) (SortedQuarter k f₀ t) := fun f g hfg hs => by
  have heq : seg f (t * k) ((t + 1) * k) = seg g (t * k) ((t + 1) * k) := seg_congr fun i h1 h2 =>
    hfg i ⟨h1, h2⟩
  unfold SortedQuarter at *
  rwa [heq] at hs

theorem disjoint_quarter {t t' : ℕ} (hne : t ≠ t') : Disjoint (quarter k t) (quarter k t') := by
  rw [Set.disjoint_left]
  rintro i ⟨h1, h2⟩ ⟨h3, h4⟩
  rcases Nat.lt_or_gt_of_ne hne with hlt | hgt
  · have := Nat.mul_le_mul_right k (show t + 1 ≤ t' from hlt)
    omega
  · have := Nat.mul_le_mul_right k (show t' + 1 ≤ t from hgt)
    omega

/-- A thread's code sorts its quarter. -/
theorem wp_thread (hk : 0 < k) (t : ℕ) :
    Wp (quarter k t) (Merging (quarter k t)) (fun _ => SortedQuarter k f₀ t)
    (mergeSortThread (4 * k) t) f₀ := by
  have hmul : (t + 1) * k = t * k + k := Nat.succ_mul t k
  have hdiv : 4 * k / NUM_THREADS = k := Nat.mul_div_cancel_left k (by decide)
  unfold mergeSortThread
  rw [hdiv]
  obtain ⟨high, hhigh⟩ : ∃ high, high = (t + 1) * k - 1 := ⟨_, rfl⟩
  have hend : high + 1 = (t + 1) * k := by omega
  have hR : ∀ i, t * k ≤ i → i ≤ high → i ∈ quarter k t := fun i h1 h2 => ⟨h1, by omega⟩
  dsimp only
  rw [← hhigh]
  split_ifs with hlt
  · refine wp_halves (by omega) (by omega) hR
      (fun Q' f h' => wp_mergeSort _ _ (by omega) (fun i h1 h2 => hR i h1 (by omega)) h')
      (fun Q' f h' => wp_mergeSort _ _ (by omega) (fun i h1 h2 => hR i (by omega) h2) h')
        fun g hp hs => ?_
    rw [hend] at hp hs
    exact ⟨hs, hp.perm⟩
  · refine ⟨sorted_single (by omega), List.Perm.refl _⟩

/-- **The final calls put the quarters together**: their splits are the bounds of the quarters. -/
theorem wp_finalMerges (hk : 0 < k) (hs : ∀ t < 4, Sorted (seg f (t * k) ((t + 1) * k)))
    (hQ : ∀ g, Permuted 0 (4 * k) f g → Sorted (seg g 0 (4 * k)) → Q () g) :
    Wp (Set.Iio (4 * k)) (Merging (Set.Iio (4 * k))) Q (finalMerges (4 * k)) f := by
  have hs0 : Sorted (seg f 0 k) := by simpa using hs 0 (by decide)
  have hs1 : Sorted (seg f k (2 * k)) := by simpa using hs 1 (by decide)
  have hs2 : Sorted (seg f (2 * k) (3 * k)) := by simpa using hs 2 (by decide)
  have hs3 : Sorted (seg f (3 * k) (4 * k)) := by simpa using hs 3 (by decide)
  have hR : ∀ c, c ≤ 4 * k → ∀ i, i < c → i ∈ Set.Iio (4 * k) := fun c hc i hi =>
    Set.mem_Iio.mpr (by omega)
  unfold finalMerges
  refine Wp.bind (wp_adjacent (b := k) (c := 2 * k) (by omega) (by omega) (by omega) (by omega)
    (fun i _ => hR _ (by omega) i) hs0 hs1 fun g1 hp1 hl => Wp.bind ?_)
  have hg2 : Sorted (seg g1 (2 * k) (3 * k)) := by rwa [hp1.seg_eq (.inr (le_refl _))]
  have hg3 : Sorted (seg g1 (3 * k) (4 * k)) := by rwa [hp1.seg_eq (.inr (by omega))]
  refine wp_adjacent (b := 3 * k) (c := 4 * k) (by omega) (by omega) (by omega) (by omega)
    (fun i _ => hR _ (by omega) i) ?_ hg3 fun g2 hp2 hr => ?_
  · rwa [show 4 * k / 2 = 2 * k by omega]
  · rw [show 4 * k / 2 = 2 * k by omega] at hp2 hr
    have hg : Sorted (seg g2 0 (2 * k)) := by rwa [hp2.seg_eq (.inl (le_refl _))]
    refine wp_adjacent (b := 2 * k) (c := 4 * k) (by omega) (by omega) (by omega) (by omega)
      (fun i _ => hR _ (by omega) i) hg hr
      fun g hp hs => hQ g ?_ hs
    exact (hp1.widen (by omega) (le_refl _) (by omega)).trans
      ((hp2.widen (by omega) (by omega) (le_refl _)).trans hp)

/-- The quarters together are the array. -/
theorem permuted_quarters (hq : ∀ t < 4, (seg g (t * k) ((t + 1) * k)).Perm (seg f (t * k) ((t + 1) * k)))
    (hout : ∀ i, 4 * k ≤ i → g i = f i) : Permuted 0 (4 * k) f g := by
  refine ⟨?_, fun i hi => hout i (by omega)⟩
  have split : ∀ f : ℕ → ℤ, seg f 0 (4 * k) =
      seg f (0 * k) ((0 + 1) * k) ++
        (seg f (1 * k) ((1 + 1) * k) ++
          (seg f (2 * k) ((2 + 1) * k) ++ seg f (3 * k) ((3 + 1) * k))) :=
    fun f => by
      rw [← seg_append (by omega) (by omega), ← seg_append (by omega) (by omega), show (0 + 1) * k =
        1 * k by omega,
        ← seg_append (by omega) (by omega), Nat.zero_mul]
  rw [split, split]
  exact (hq 0 (by decide)).append
    ((hq 1 (by decide)).append ((hq 2 (by decide)).append (hq 3 (by decide))))

/-! ### Every interleaving -/

/-- While the threads work: each of them is on its way to sort its quarter. -/
structure Working (k : ℕ) (f₀ : ℕ → ℤ) (s : Sys) : Prop where
  workers : ∀ t : Fin NUM_THREADS, Wp (quarter k t) (Merging (quarter k t))
    (fun _ => SortedQuarter k f₀ t) (s.workers t) s.arr
  outside : ∀ i, 4 * k ≤ i → s.arr i = f₀ i

/-- The array is sorted, and is a permutation of `f₀`. -/
def Result (k : ℕ) (f₀ g : ℕ → ℤ) : Prop := Permuted 0 (4 * k) f₀ g ∧ Sorted (seg g 0 (4 * k))

/-- The invariant, by where main is. -/
def Inv (k : ℕ) (f₀ : ℕ → ℤ) (s : Sys) : Prop :=
  match s.main with
  | .create _ => Working k f₀ s
  | .join i => Working k f₀ s ∧ ∀ t : Fin NUM_THREADS, t < i → (s.workers t).done = true
  | .merges c =>
    (∀ t, (s.workers t).done = true) ∧ Wp (Set.Iio (4 * k)) (Merging (Set.Iio (4 * k)))
      (fun _ => Result k f₀) c s.arr

theorem inv_start (hk : 0 < k) (f₀ : ℕ → ℤ) : Inv k f₀ (start (4 * k) f₀) :=
  ⟨fun _ => wp_thread hk _, fun _ _ => rfl⟩

theorem quarter_lt (hi : i ∈ quarter k t) : i < 4 * k := by
  have := Nat.mul_le_mul_right k (show t.val + 1 ≤ 4 from t.isLt)
  have := hi.2
  omega

theorem Working.step (hw : Working k f₀ s) (hs : (s.workers t).step s.arr = some (c, arr)) :
    Working k f₀ { s with arr, workers := update s.workers t c } := by
  refine ⟨fun t' => ?_, fun i hi => ?_⟩
  · dsimp only
    by_cases ht : t' = t
    · rw [ht, update_self]
      exact (hw.workers t).step hs
    · rw [update_of_ne ht]
      exact (hw.workers t').step_other (local_merging _) (fun _ => local_sortedQuarter _ _ _)
        (hw.workers t) hs
        (disjoint_quarter fun h => ht (Fin.ext h.symm))
  · rw [← hw.outside i hi]
    exact (hw.workers t).step_outside hs fun hmem => absurd (quarter_lt hmem) (by omega)

theorem done_update {t' : Fin NUM_THREADS}
    {arr' : ℕ → ℤ} (hs : (workers t).step arr = some (c, arr'))
    (hd : (workers t').done = true) : (update workers t c t').done = true := by
  have hne : t' ≠ t := fun h => by
    rw [h] at hd
    cases hw : workers t <;> rw [hw] at hs hd <;> cases hs <;> cases hd
  rwa [update_of_ne hne]

theorem inv_stepWorker (hinv : Inv k f₀ s) (hs : stepWorker s t = .next s') : Inv k f₀ s' := by
  unfold stepWorker at hs
  split at hs
  · split at hs
    · cases hs
    · rename_i c arr hstep
      cases hs
      obtain ⟨arr0, workers, main⟩ := s
      unfold Inv at hinv ⊢
      cases main with
      | create i => exact hinv.step hstep
      | join i => exact ⟨hinv.1.step hstep, fun t' ht' => done_update hstep (hinv.2 t' ht')⟩
      | merges c' =>
        -- no thread has a move any more
        have hd : (workers t).done = true := hinv.1 t
        dsimp only at hstep
        cases hw : workers t <;> rw [hw] at hstep hd <;> cases hstep <;> cases hd
  · cases hs

theorem inv_stepMain (hk : 0 < k) (hinv : Inv k f₀ s)
    (hs : stepMain (4 * k) s = .next s') : Inv k f₀ s' := by
  obtain ⟨arr, workers, main⟩ := s
  unfold stepMain at hs
  unfold Inv at hinv
  cases main with
  | create i =>
    dsimp only at hs hinv
    split at hs
    · cases hs
      exact ⟨hinv.workers, hinv.outside⟩
    · cases hs
      exact ⟨⟨hinv.workers, hinv.outside⟩, fun t ht => absurd ht (Nat.not_lt_zero _)⟩
  | join i =>
    dsimp only at hs hinv
    obtain ⟨hw, hdone⟩ := hinv
    split at hs
    · split at hs
      · rename_i hi hd
        cases hs
        refine ⟨⟨hw.workers, hw.outside⟩, fun t ht => ?_⟩
        rcases Nat.lt_succ_iff_lt_or_eq.mp ht with hlt | heq
        · exact hdone t hlt
        · rw [show t = ⟨i, hi⟩ from Fin.ext heq]
          exact hd
      · cases hs
    · rename_i hi
      cases hs
      have hall : ∀ t : Fin NUM_THREADS, (workers t).done = true :=
        fun t => hdone t (by have := t.isLt; omega)
      have hq : ∀ t < 4, SortedQuarter k f₀ t arr := fun t ht => by
        obtain ⟨_, h⟩ := (hw.workers ⟨t, ht⟩).done (hall _)
        exact h
      have hperm := permuted_quarters (fun t ht => (hq t ht).2) hw.outside
      exact ⟨hall, wp_finalMerges hk (fun t ht => (hq t ht).1) fun g hp hs => ⟨hperm.trans hp, hs⟩⟩
  | merges c =>
    dsimp only at hs hinv
    split at hs
    · cases hs
    · rename_i c' arr' hstep
      cases hs
      exact ⟨hinv.1, hinv.2.step hstep⟩

theorem inv_step {a : Who} (hk : 0 < k) (hinv : Inv k f₀ s)
    (hs : step (4 * k) s a = .next s') : Inv k f₀ s' := by
  cases a with
  | main => exact inv_stepMain hk hinv hs
  | worker t => exact inv_stepWorker hinv hs

/-- What the invariant says of the next moves: each thread is in its own quarter, and every call of
`merge` gets two adjacent sorted ranges. -/
structure Safe (k : ℕ) (s : Sys) : Prop where
  worker_touches : ∀ (t : Fin NUM_THREADS) i, (s.workers t).touches = some i → i ∈ quarter k t
  worker_merges : ∀ (t : Fin NUM_THREADS) c, (s.workers t).noted = some c → Merging (quarter k t) c s.arr
  main_touches : ∀ c i, s.main = .merges c → c.touches = some i → i < 4 * k
  main_merges : ∀ c e, s.main = .merges c → c.noted = some e → Merging (Set.Iio (4 * k)) e s.arr

theorem Working.safe (hw : Working k f₀ s) (hm : ∀ c, s.main ≠ .merges c) : Safe k s :=
  ⟨fun t _ hi => (hw.workers t).touches hi, fun t _ hc => (hw.workers t).noted hc, fun c _ h =>
    absurd h (hm c),
    fun c _ h => absurd h (hm c)⟩

theorem not_of_done (hd : c.done = true) : c.touches = none ∧ c.noted = none := by
  cases c with
  | ret a => exact ⟨rfl, rfl⟩
  | _ => cases hd

theorem Inv.safe (hinv : Inv k f₀ s) : Safe k s := by
  obtain ⟨arr, workers, main⟩ := s
  unfold Inv at hinv
  cases main with
  | create i => exact hinv.safe fun c h => by cases h
  | join i => exact hinv.1.safe fun c h => by cases h
  | merges c =>
    obtain ⟨hd, hc⟩ := hinv
    refine ⟨fun t i hi => ?_, fun t e he => ?_, fun c' i h hi => ?_, fun c' e h he => ?_⟩
    · rw [(not_of_done (hd t)).1] at hi
      cases hi
    · rw [(not_of_done (hd t)).2] at he
      cases he
    · cases h
      exact hc.touches hi
    · cases h
      exact hc.noted he

/-- Main has ended with the result, or there is a move. -/
theorem Inv.ends (hinv : Inv k f₀ s) :
    s.finished = true ∧ Result k f₀ s.arr ∨ s.finished = false ∧ ∃ a s', step (4 * k) s a = .next s' := by
  obtain ⟨arr, workers, main⟩ := s
  unfold Inv at hinv
  cases main with
  | create i =>
    refine .inr ⟨rfl, .main, ?_⟩
    unfold step stepMain
    dsimp only
    split <;> exact ⟨_, rfl⟩
  | join i =>
    refine .inr ⟨rfl, ?_⟩
    by_cases hi : i < NUM_THREADS
    · -- the thread that main waits for is done or has a move
      rcases (workers ⟨i, hi⟩).step_or_done arr with hd | ⟨⟨c, arr'⟩, hs⟩
      · refine ⟨.main, { arr, workers, main := .join (i + 1) }, ?_⟩
        unfold step stepMain
        dsimp only
        rw [dif_pos hi, if_pos hd]
      · refine ⟨.worker ⟨i, hi⟩,
          { arr := arr', workers := update workers ⟨i, hi⟩ c, main := .join i }, ?_⟩
        unfold step stepWorker
        dsimp only
        rw [if_pos (show i < (Main.join i).created from hi), hs]
    · refine ⟨.main, { arr, workers, main := .merges (finalMerges (4 * k)) }, ?_⟩
      unfold step stepMain
      dsimp only
      rw [dif_neg hi]
  | merges c =>
    rcases c.step_or_done arr with hd | ⟨⟨c', arr'⟩, hs⟩
    · obtain ⟨_, hr⟩ := hinv.2.done hd
      exact .inl ⟨hd, hr⟩
    · refine .inr ⟨?_, .main, { arr := arr', workers, main := .merges c' }, ?_⟩
      · cases c with
        | ret a => cases hs
        | _ => rfl
      · unfold step stepMain
        dsimp only
        rw [hs]

/-! ### Every interleaving ends -/

/-- Of code that returns nothing: at most `n` moves. -/
abbrev AtMost (c : ArrM Unit) (n : ℕ) : Prop := c.Within (fun _ => True) n

theorem within_load (n low : ℕ) : (load low n).Within (fun l => l.length = n) n := by
  induction n generalizing low with
  | zero => exact Code.Within.pure rfl
  | succ n ih =>
    have h : (load low (n + 1)).Within (fun l => l.length = n + 1) (1 + (n + 0)) := by
      refine (Code.within_get low).bind fun v _ => (ih (low + 1)).bind fun l hl => Code.Within.pure ?_
      rw [length_cons, hl]
    exact h.mono (by omega)

theorem within_storeAll (l : List ℤ) (k : ℕ) : (storeAll l k).Within (fun _ => True) l.length := by
  induction l generalizing k with
  | nil => exact Code.Within.pure trivial
  | cons x l ih =>
    rw [length_cons, Nat.add_comm]
    exact (Code.within_put k x).bind fun _ _ => ih (k + 1)

theorem within_storeRest (xs ys : List ℤ) (k : ℕ) : AtMost (storeRest (xs, ys, k))
    (xs.length + ys.length) := by
  have h : AtMost (storeRest (xs, ys, k)) (xs.length + (ys.length + 0)) :=
    (within_storeAll xs k).bind fun _ _ => (within_storeAll ys _).bind fun _ _ => Code.Within.pure trivial
  exact h

/-- The loop takes a value off one of the lists with each move, and what it leaves is stored with a
move for each value. -/
theorem within_mergeLoop (xs ys : List ℤ) (k : ℕ) : AtMost (mergeLoop xs ys k >>= storeRest)
    (xs.length + ys.length) := by
  induction xs, ys, k using mergeLoop.induct with
  | case1 x xs y ys k hxy ih =>
    rw [mergeLoop, if_pos hxy]
    have h : AtMost ((Code.put k x >>= fun _ => mergeLoop xs (y :: ys) (k + 1)) >>= storeRest)
      (1 + (xs.length + (y :: ys).length)) :=
      ⟨by omega, ih.mono (by omega)⟩
    exact h.mono (by rw [length_cons (a := x)]; omega)
  | case2 x xs y ys k hxy ih =>
    rw [mergeLoop, if_neg hxy]
    have h : AtMost ((Code.put k y >>= fun _ => mergeLoop (x :: xs) ys (k + 1)) >>= storeRest)
      (1 + ((x :: xs).length + ys.length)) :=
      ⟨by omega, ih.mono (by omega)⟩
    exact h.mono (by rw [length_cons (a := y)]; omega)
  | case3 xs ys k hne =>
    rw [mergeLoop.eq_2 _ _ _ hne]
    exact within_storeRest xs ys k

theorem within_merge (low mid high : ℕ) : ∃ n, AtMost (merge low mid high) n := by
  refine ⟨1 + ((mid - low + 1) + ((high - mid) + ((mid - low + 1) + (high - mid)))),
    (Code.within_event _).bind fun _ _ =>
    (within_load (mid - low + 1) low).bind fun left hl => (within_load (high - mid) (mid + 1)).bind
      fun right hr => ?_⟩
  have := within_mergeLoop left right low
  rw [hl, hr] at this
  exact this

theorem within_mergeSort (low high : ℕ) : ∃ n, AtMost (mergeSort low high) n := by
  induction low, high using mergeSort.induct with
  | case1 low high hlt ih1 ih2 =>
    obtain ⟨n1, h1⟩ := ih1
    obtain ⟨n2, h2⟩ := ih2
    obtain ⟨n3, h3⟩ := within_merge low (low + (high - low) / 2) high
    unfold mergeSort
    rw [dif_pos hlt]
    exact ⟨_, h1.bind fun _ _ => h2.bind fun _ _ => h3⟩
  | case2 low high hge =>
    unfold mergeSort
    rw [dif_neg hge]
    exact ⟨0, Code.Within.pure trivial⟩

theorem within_thread (maxNum t : ℕ) : ∃ n, AtMost (mergeSortThread maxNum t) n := by
  unfold mergeSortThread
  dsimp only
  split
  · obtain ⟨n1, h1⟩ := within_mergeSort (t * (maxNum / NUM_THREADS)) _
    obtain ⟨n2, h2⟩ := within_mergeSort _ ((t + 1) * (maxNum / NUM_THREADS) - 1)
    obtain ⟨n3, h3⟩ := within_merge _ _ _
    exact ⟨_, h1.bind fun _ _ => h2.bind fun _ _ => h3⟩
  · exact ⟨0, Code.Within.pure trivial⟩

theorem within_finalMerges (maxNum : ℕ) : ∃ n, AtMost (finalMerges maxNum) n := by
  obtain ⟨n1, h1⟩ := within_merge 0 ((maxNum / 2 - 1) / 2) (maxNum / 2 - 1)
  obtain ⟨n2, h2⟩ := within_merge (maxNum / 2) (maxNum / 2 + (maxNum - 1 - maxNum / 2) / 2) (maxNum - 1)
  obtain ⟨n3, h3⟩ := within_merge 0 ((maxNum - 1) / 2) (maxNum - 1)
  exact ⟨_, h1.bind fun _ _ => h2.bind fun _ _ => h3⟩

/-- The moves main has left at most, if the final calls have `b`. -/
def MainLeft (b : ℕ) : Main → ℕ → Prop
  | .create i, n => n = (NUM_THREADS - i) + 1 + (NUM_THREADS + 1 + b)
  | .join i, n => n = (NUM_THREADS - i) + 1 + b
  | .merges c, n => AtMost c n

/-- The moves all threads have left at most. -/
def Left (b : ℕ) (s : Sys) (n : ℕ) : Prop :=
  ∃ (w : Fin NUM_THREADS → ℕ) (m : ℕ), (∀ t, AtMost (s.workers t) (w t)) ∧ MainLeft b s.main m ∧
    n = m + ∑ t, w t

theorem left_stepMain {main : Main} (hb : AtMost (finalMerges maxNum) b)
    (hm : MainLeft b main m) (hs : stepMain maxNum ⟨arr, workers, main⟩ = .next s') :
    s'.workers = workers ∧ ∃ m' < m, MainLeft b s'.main m' := by
  unfold stepMain at hs
  cases main with
  | create i =>
    dsimp only at hs
    obtain rfl : m = (NUM_THREADS - i) + 1 + (NUM_THREADS + 1 + b) := hm
    split at hs
    · cases hs
      exact ⟨rfl, _, by omega, rfl⟩
    · cases hs
      exact ⟨rfl, _, by omega, rfl⟩
  | join i =>
    dsimp only at hs
    obtain rfl : m = (NUM_THREADS - i) + 1 + b := hm
    split at hs
    · split at hs
      · cases hs
        exact ⟨rfl, _, by omega, rfl⟩
      · cases hs
    · cases hs
      exact ⟨rfl, b, by omega, hb⟩
  | merges c =>
    dsimp only at hs
    split at hs
    · cases hs
    · rename_i c' arr' hstep
      cases hs
      obtain ⟨hpos, hc'⟩ := Code.Within.step hm hstep
      exact ⟨rfl, m - 1, by omega, hc'⟩

theorem left_step (hb : AtMost (finalMerges maxNum) b) (s : Sys) (a : Who) (s' : Sys)
    (n : ℕ) (hn : Left b s n) (hs : step maxNum s a = .next s') : ∃ n' < n, Left b s' n' := by
  obtain ⟨w, m, hw, hm, rfl⟩ := hn
  cases a with
  | main =>
    obtain ⟨hsame, m', hlt, hm'⟩ := left_stepMain hb hm hs
    exact ⟨m' + ∑ t, w t, by omega, w, m', fun t => hsame ▸ hw t, hm', rfl⟩
  | worker t =>
    unfold step stepWorker at hs
    dsimp only at hs
    split at hs
    · split at hs
      · cases hs
      · rename_i c arr hstep
        cases hs
        obtain ⟨hpos, hc⟩ := (hw t).step hstep
        have hsum := sum_update_add (fun n : ℕ => n) w t (w t - 1)
        refine ⟨m + ∑ t', update w t (w t - 1) t',
          by omega, update w t (w t - 1), m, fun t' => ?_, hm, rfl⟩
        dsimp only
        by_cases ht : t' = t
        · rw [ht, update_self, update_self]
          exact hc
        · rw [update_of_ne ht, update_of_ne ht]
          exact hw t'
    · cases hs

theorem left_start (maxNum : ℕ) (f₀ : ℕ → ℤ) : ∃ n, Left b (start maxNum f₀) n := by
  choose w hw using within_thread maxNum
  exact ⟨_, fun t => w t, _, fun t => hw t, rfl, rfl⟩

end

end Xv6.PracPthread
