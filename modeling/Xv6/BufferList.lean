/-
# The list of buffers

bio.c with the pointers `next` and `prev` of its buffers and of `bcache.head`: the loop of `binit`,
the two loops of `bget`, and the assignments of `brelse`. What is done with `bcache.lock` is one
step; a sleep lock is acquired and released in steps of its own, and the flag `B_DIRTY`, which
belongs to the driver and the log, changes at any time.

The pointers always make one list of all buffers (`Listed`), which is `lru` of `Xv6.Bcache`: `bget`
searches it from either end, and `brelse` moves a buffer to its front (`walk_of_reach`). So the list
is in the order in which the buffers were last released, and `bget` takes the one that was released
longest ago.
-/
import Xv6.Lib.Links
import Xv6.Lib.Machine
import Xv6.Bcache

namespace Xv6.BufferList

open Links
open Function (update update_self update_of_ne)

/-- What `bget` and `brelse` look at of a struct `buf`. -/
structure Buf (P : Type) where
  dirty : Bool
  dev : ℕ
  blockno : ℕ
  lock : Option P
  refcnt : ℕ

/-- Where a session with a buffer is. -/
inductive Pc where
  | idle
  /-- In `acquiresleep`, called by `bget`. -/
  | waiting (i : Fin NBUF)
  | holding (i : Fin NBUF)
  /-- In `brelse`, after `releasesleep`. -/
  | releasing (i : Fin NBUF)
  deriving DecidableEq

/-- The session's share in `refcnt`. -/
def Pc.uses (i : Fin NBUF) : Pc → ℤ
  | .idle => 0
  | .waiting j | .holding j | .releasing j => if j = i then 1 else 0

structure State (P : Type) where
  links : Links (Fin NBUF)
  buf : Fin NBUF → Buf P
  pc : P → Pc
  /-- The number of times that a `refcnt` has dropped to zero. -/
  now : ℕ
  /-- When that of a buffer last did. -/
  dropped : Fin NBUF → Option ℕ

inductive Act (P : Type) where
  | bget (p : P) (dev blockno : ℕ)
  | acquiresleep (p : P)
  | releasesleep (p : P)
  | brelse (p : P)
  | flags (i : Fin NBUF) (dirty : Bool)

/-- `binit`, whatever the pointers were. -/
def binit {P : Type} (l : Links (Fin NBUF)) : State P where
  links := (List.finRange NBUF).foldl link ((l.setPrev none none).setNext none none)
  buf := fun _ => ⟨false, 0, 0, none, 0⟩
  pc := fun _ => .idle
  now := 0
  dropped := fun _ => none

section

variable {P : Type} [DecidableEq P]

namespace State

def setBuf (s : State P) (i : Fin NBUF) (y : Buf P) :
    State P := { s with buf := update s.buf i y }

def at_ (s : State P) (p : P) (x : Pc) : State P := { s with pc := update s.pc p x }

/-- The buffer is for this block. -/
def cached (s : State P) (dev blockno : ℕ) (i : Fin NBUF) : Bool := (s.buf i).dev = dev ∧
    (s.buf i).blockno = blockno

def unused (s : State P) (i : Fin NBUF) : Bool := (s.buf i).refcnt = 0 ∧ !(s.buf i).dirty

/-- The buffer that has the block gets one more user. -/
def share (s : State P) (p : P) (i : Fin NBUF) : State P :=
  (s.setBuf i { s.buf i with refcnt := (s.buf i).refcnt + 1 }).at_ p (.waiting i)

/-- The buffer is taken for another block. -/
def recycle (s : State P) (p : P) (dev blockno : ℕ) (i : Fin NBUF) : State P :=
  (s.setBuf i { s.buf i with dev, blockno, dirty := false, refcnt := 1 }).at_ p (.waiting i)

def bget (s : State P) (p : P) (dev blockno : ℕ) : Outcome (State P) :=
  match walk s.links.next (s.cached dev blockno) (NBUF + 1) (s.links.next none) with
  | none => .blocked
  | some (some i) => .next (s.share p i)
  | some none =>
    match walk s.links.prev s.unused (NBUF + 1) (s.links.prev none) with
    | none => .blocked
    | some (some i) => .next (s.recycle p dev blockno i)
    | some none => .panic "bget: no buffers"

/-- `brelse` with `bcache.lock`. -/
def brelse (s : State P) (p : P) (i : Fin NBUF) : State P :=
  let b := s.buf i
  let s' := (s.setBuf i { b with refcnt := b.refcnt - 1 }).at_ p .idle
  if b.refcnt - 1 = 0 then
    { s' with links := (s.links.unlink i).link i, now := s.now + 1, dropped := update s.dropped i (some s.now) }
  else s'

end State

def step (s : State P) : Act P → Outcome (State P)
  | .bget p dev blockno => if s.pc p = .idle then s.bget p dev blockno else .blocked
  | .acquiresleep p =>
    match s.pc p with
    | .waiting i =>
      if (s.buf i).lock = none then .next ((s.setBuf i { s.buf i with lock := some p }).at_ p
        (.holding i)) else .blocked
    | _ => .blocked
  | .releasesleep p =>
    match s.pc p with
    | .holding i =>
      if (s.buf i).lock ≠ some p then .panic "brelse"
      else .next ((s.setBuf i { s.buf i with lock := none }).at_ p (.releasing i))
    | _ => .blocked
  | .brelse p =>
    match s.pc p with
    | .releasing i => .next (s.brelse p i)
    | _ => .blocked
  | .flags i dirty => .next (s.setBuf i { s.buf i with dirty })

/-- Buffer `i` was released after `j`, or `j` never was. -/
def Recent (s : State P) (i j : Fin NBUF) : Prop := ∀ t, s.dropped j = some t → ∃ t', s.dropped i =
    some t' ∧ t < t'

/-- The list of all buffers, the one that was last released first. -/
structure Ordered (s : State P) (L : List (Fin NBUF)) : Prop where
  listed : Listed s.links L
  all : ∀ i, i ∈ L
  recent : L.Pairwise (Recent s)
  past : ∀ i t, s.dropped i = some t → t < s.now

variable {s s' : State P} {p : P} {i : Fin NBUF} {L : List (Fin NBUF)} {a : Act P}

/-! ### The order of the list -/

omit [DecidableEq P] in
theorem Ordered.congr (h : Ordered s L) (hl : s'.links = s.links) (hd : s'.dropped = s.dropped)
    (hn : s'.now = s.now) : Ordered s' L := by
  refine ⟨hl ▸ h.listed, h.all, h.recent.imp fun {i j} hij => ?_, fun i t ht => ?_⟩
  · unfold Recent at hij ⊢
    rwa [hd]
  · rw [hn]
    exact h.past i t (hd ▸ ht)

omit [DecidableEq P] in
theorem Ordered.length (h : Ordered s L) : L.length < NBUF + 1 := by
  have := h.listed.nodup.length_le_card
  rw [Fintype.card_fin] at this
  omega

omit [DecidableEq P] in
/-- A buffer that is released goes to the front. -/
theorem Ordered.move (h : Ordered s L) (hl : s'.links = (s.links.unlink i).link i)
    (hd : s'.dropped = update s.dropped i (some s.now)) (hn : s'.now = s.now + 1) :
    Ordered s' (i :: L.erase i) := by
  have hne : ∀ j ∈ L.erase i, j ≠ i := fun j hj => ((h.listed.nodup.mem_erase_iff).mp hj).1
  refine ⟨hl ▸ h.listed.move (h.all i), fun j => ?_,
    List.pairwise_cons.mpr ⟨fun j hj t ht => ?_, ?_⟩, fun j t ht => ?_⟩
  · by_cases hji : j = i
    · exact hji ▸ List.mem_cons_self
    · exact List.mem_cons_of_mem _ ((List.mem_erase_of_ne hji).mpr (h.all j))
  · rw [hd, update_of_ne (hne j hj)] at ht
    exact ⟨s.now, by rw [hd, update_self], h.past j t ht⟩
  · have hold : (L.erase i).Pairwise (Recent s) := h.recent.sublist List.erase_sublist
    refine hold.imp_of_mem fun {j k} hj hk hjk t ht => ?_
    rw [hd, update_of_ne (hne k hk)] at ht
    rw [hd, update_of_ne (hne j hj)]
    exact hjk t ht
  · rw [hn]
    rw [hd] at ht
    by_cases hji : j = i
    · rw [hji, update_self] at ht
      cases ht
      exact Nat.lt_succ_self _
    · rw [update_of_ne hji] at ht
      exact Nat.lt_succ_of_lt (h.past j t ht)

/-- What `bget` comes to: a buffer that has the block, or of the unused ones the one that was
released longest ago, or a panic if there is none. -/
inductive Got (s : State P) (p : P) (dev blockno : ℕ) : Outcome (State P) → Prop where
  | shared (i : Fin NBUF) (hc : s.cached dev blockno i = true) : Got s p dev blockno (.next (s.share p i))
  | recycled (i : Fin NBUF) (hc : ∀ j, s.cached dev blockno j = false) (hu : s.unused i = true)
      (hold : ∀ j, s.unused j = true → j ≠ i → Recent s j i) :
        Got s p dev blockno (.next (s.recycle p dev blockno i))
  | none (hc : ∀ j, s.cached dev blockno j = false) (hu : ∀ j, s.unused j = false) :
      Got s p dev blockno (.panic "bget: no buffers")

theorem bget_of_ordered (h : Ordered s L) (p : P) (dev blockno : ℕ) :
    Got s p dev blockno (s.bget p dev blockno) := by
  unfold State.bget
  rw [h.listed.walk_next _ h.length]
  cases hfind : L.find? (s.cached dev blockno) with
  | some i => exact .shared i (List.find?_some hfind)
  | none =>
    have hc : ∀ j, s.cached dev blockno j = false := fun j => by
      have := List.find?_eq_none.mp hfind j (h.all j)
      simpa using this
    dsimp only
    rw [h.listed.walk_prev _ h.length]
    cases hback : L.reverse.find? s.unused with
    | none =>
      refine .none hc fun j => ?_
      have := List.find?_eq_none.mp hback j (List.mem_reverse.mpr (h.all j))
      simpa using this
    | some i =>
      refine .recycled i hc (List.find?_some hback) fun j hj hji => ?_
      -- all after `i` in the list are in use, so `j` is before it
      obtain ⟨hui, as, bs, hsplit, has⟩ := List.find?_eq_some_iff_append.mp hback
      have hrev : L.reverse.Pairwise fun x y => Recent s y x := List.pairwise_reverse.mpr h.recent
      rw [hsplit] at hrev
      have hmem : j ∈ as ++ i :: bs := hsplit ▸ List.mem_reverse.mpr (h.all j)
      rcases List.mem_append.mp hmem with hjas | hjbs
      · have := has j hjas
        rw [hj] at this
        cases this
      · rcases List.mem_cons.mp hjbs with rfl | hjbs
        · exact absurd rfl hji
        · exact (List.pairwise_cons.mp (List.pairwise_append.mp hrev).2.1).1 j hjbs

omit [DecidableEq P] in
theorem listed_binit (l : Links (Fin NBUF)) :
    Listed (binit l : State P).links (List.finRange NBUF).reverse := by
  have hfold : ∀ (K : List (Fin NBUF)) (l : Links (Fin NBUF)) (L : List (Fin NBUF)), Listed l L →
    (K ++ L).Nodup →
      Listed (K.foldl link l) (K.reverse ++ L) := by
    intro K
    induction K with
    | nil => exact fun l L h _ => h
    | cons i K ih =>
      intro l L h hnodup
      obtain ⟨hi, hnodup⟩ := List.nodup_cons.mp (List.cons_append ▸ hnodup)
      have := ih (l.link i) (i :: L) (h.link fun hL => hi (List.mem_append_right _ hL)) ?_
      · rwa [List.reverse_cons, List.append_assoc]
      · exact (List.perm_middle.nodup_iff).mpr (List.nodup_cons.mpr ⟨hi, hnodup⟩)
  rw [← List.append_nil (List.reverse _)]
  refine hfold _ _ [] (listed_nil ?_ ?_) (by rw [List.append_nil]; exact List.nodup_finRange _)
  · rw [next_setNext, update_self]
  · rw [prev_setNext, prev_setPrev, update_self]

omit [DecidableEq P] in
theorem ordered_binit (l : Links (Fin NBUF)) : ∃ L, Ordered (binit l : State P) L := by
  refine ⟨(List.finRange NBUF).reverse, listed_binit l, fun i => by simp, ?_, fun i t ht => by cases ht⟩
  · refine List.Pairwise.imp (R := fun _ _ => True) (fun _ t ht => by cases ht) ?_
    exact List.pairwise_of_forall fun _ _ => trivial

/-! ### Every sequence of calls -/

/-- `refcnt` counts the sessions on the buffer. -/
def Refs [Fintype P] (s : State P) : Prop := ∀ i, ((s.buf i).refcnt : ℤ) = ∑ p, (s.pc p).uses i

section

variable [Fintype P]

namespace Refs

variable {x : Pc} {y : Buf P}

theorem move (h : Refs s) (hpc : s'.pc = update s.pc p x)
    (hr : ∀ i, ((s'.buf i).refcnt : ℤ) = (s.buf i).refcnt - (s.pc p).uses i + x.uses i) :
    Refs s' := fun i => by
  rw [hr i, h i, hpc, sum_update]

theorem same (h : Refs s) (hx : ∀ j, x.uses j = (s.pc p).uses j)
    (hy : y.refcnt = (s.buf i).refcnt) : Refs ((s.setBuf i y).at_ p x) := by
  refine h.move rfl fun j => ?_
  have hbuf : (((s.setBuf i y).at_ p x).buf j).refcnt = (s.buf j).refcnt := by
    show (update s.buf i y j).refcnt = _
    by_cases hji : j = i
    · rw [hji, update_self, hy]
    · rw [update_of_ne hji]
  rw [hbuf, hx j, sub_add_cancel]

theorem change (h : Refs s) (hother : ∀ j, j ≠ i → x.uses j = (s.pc p).uses j)
    (hy : (y.refcnt : ℤ) = (s.buf i).refcnt - (s.pc p).uses i + x.uses i) :
    Refs ((s.setBuf i y).at_ p x) := by
  refine h.move rfl fun j => ?_
  show ((update s.buf i y j).refcnt : ℤ) = _
  by_cases hji : j = i
  · rw [hji, update_self, hy]
  · rw [update_of_ne hji, hother j hji, sub_add_cancel]

omit [DecidableEq P] in
theorem pos (h : Refs s) (hu : (s.pc p).uses i = 1) : 0 < (s.buf i).refcnt := by
  have h0 : ∀ q ∈ Finset.univ, 0 ≤ (s.pc q).uses i := fun q _ => by
    unfold Pc.uses
    split
    · exact le_refl 0
    all_goals split <;> decide
  have := Finset.single_le_sum h0 (Finset.mem_univ p)
  have := h i
  omega

end Refs

structure Inv (s : State P) : Prop where
  ordered : ∃ L, Ordered s L
  refs : Refs s

theorem uses_self {x : Pc} (hx : x = .waiting i ∨ x = .holding i ∨ x = .releasing i) : x.uses i = 1 := by
  rcases hx with rfl | rfl | rfl <;> exact if_pos rfl

theorem uses_other {x : Pc} (hx : x = .waiting i ∨ x = .holding i ∨ x = .releasing i) {j : Fin NBUF}
    (hji : j ≠ i) : x.uses j = 0 := by
  rcases hx with rfl | rfl | rfl <;> exact if_neg (Ne.symm hji)

theorem inv_bget {dev blockno : ℕ} (h : Inv s) (hp : s.pc p = .idle)
    (hs : s.bget p dev blockno = .next s') : Inv s' := by
  obtain ⟨L, hL⟩ := h.ordered
  have hgot := bget_of_ordered hL p dev blockno
  rw [hs] at hgot
  cases hgot with
  | shared i hc =>
    refine ⟨⟨L, hL.congr rfl rfl rfl⟩, h.refs.change (fun j hji => ?_) ?_⟩
    · rw [hp, uses_other (.inl rfl) hji]
      rfl
    · rw [hp, uses_self (.inl rfl)]
      show (((s.buf i).refcnt + 1 : ℕ) : ℤ) = (s.buf i).refcnt - 0 + 1
      omega
  | recycled i hc hu hold =>
    have h0 : (s.buf i).refcnt = 0 := by
      have := hu
      unfold State.unused at this
      simp only [decide_eq_true_eq] at this
      exact this.1
    refine ⟨⟨L, hL.congr rfl rfl rfl⟩, h.refs.change (fun j hji => ?_) ?_⟩
    · rw [hp, uses_other (.inl rfl) hji]
      rfl
    · rw [hp, uses_self (.inl rfl), h0]
      rfl

theorem inv_brelse (h : Inv s) (hp : s.pc p = .releasing i) : Inv (s.brelse p i) := by
  obtain ⟨L, hL⟩ := h.ordered
  have hpos := h.refs.pos (uses_self (.inr (.inr hp)))
  have hrefs : Refs ((s.setBuf i { s.buf i with refcnt := (s.buf i).refcnt - 1 }).at_ p .idle) := by
    refine h.refs.change (fun j hji => ?_) ?_
    · rw [uses_other (.inr (.inr hp)) hji]
      rfl
    · rw [uses_self (.inr (.inr hp))]
      show (((s.buf i).refcnt - 1 : ℕ) : ℤ) = (s.buf i).refcnt - 1 + 0
      omega
  unfold State.brelse
  dsimp only
  split
  · exact ⟨⟨_, hL.move rfl rfl rfl⟩, hrefs⟩
  · exact ⟨⟨L, hL.congr rfl rfl rfl⟩, hrefs⟩

theorem inv_step (h : Inv s) (hs : step s a = .next s') : Inv s' := by
  obtain ⟨L, hL⟩ := h.ordered
  cases a with
  | bget p dev blockno =>
    unfold step at hs
    dsimp only at hs
    split at hs
    · rename_i hp
      exact inv_bget h hp hs
    · cases hs
  | acquiresleep p =>
    unfold step at hs
    dsimp only at hs
    split at hs
    · rename_i i hp
      split at hs
      · cases hs
        exact ⟨⟨L, hL.congr rfl rfl rfl⟩, h.refs.same (fun j => by rw [hp]; rfl) rfl⟩
      · cases hs
    · cases hs
  | releasesleep p =>
    unfold step at hs
    dsimp only at hs
    split at hs
    · rename_i i hp
      split at hs
      · cases hs
      · cases hs
        exact ⟨⟨L, hL.congr rfl rfl rfl⟩, h.refs.same (fun j => by rw [hp]; rfl) rfl⟩
    · cases hs
  | brelse p =>
    unfold step at hs
    dsimp only at hs
    split at hs
    · rename_i i hp
      cases hs
      exact inv_brelse h hp
    · cases hs
  | flags i dirty =>
    cases hs
    refine ⟨⟨L, hL.congr rfl rfl rfl⟩, fun j => Eq.trans ?_ (h.refs j)⟩
    show ((update s.buf i _ j).refcnt : ℤ) = _
    by_cases hji : j = i
    · rw [hji, update_self]
    · rw [update_of_ne hji]

omit [DecidableEq P] in
theorem inv_binit (l : Links (Fin NBUF)) : Inv (binit l : State P) :=
  ⟨ordered_binit l, fun _ => by simp [binit, Pc.uses]⟩

/-- **The pointers make one list of all buffers, in the order of their last release**, after every
sequence of calls; both loops of `bget` end; and the buffer that it takes for another block is, of
the unused ones, the one released longest ago. -/
theorem buffer_list {l : Links (Fin NBUF)}
    (h : Machine.Reach step (fun _ _ => True) (binit l : State P) s) :
    (∃ L, Listed s.links L ∧ (∀ i, L.count i = 1) ∧ L.Pairwise (Recent s)) ∧
    (∀ u, s.links.prev (s.links.next u) = u ∧ s.links.next (s.links.prev u) = u) ∧
    (∀ p dev blockno, s.pc p = .idle → Got s p dev blockno (step s (.bget p dev blockno))) ∧ ∀ p i,
    s.pc p = .releasing i → 0 < (s.buf i).refcnt := by
  have hinv : Inv s := h.inv (inv_binit l) fun _ _ _ hinv _ hs => inv_step hinv hs
  obtain ⟨L, hL⟩ := hinv.ordered
  refine ⟨⟨L, hL.listed, fun i => List.count_eq_one_of_mem hL.listed.nodup (hL.all i), hL.recent⟩,
    hL.listed.inverse hL.all,
    fun p dev blockno hp => ?_, fun p i hp => hinv.refs.pos (uses_self (.inr (.inr hp)))⟩
  unfold step
  dsimp only
  rw [if_pos hp]
  exact bget_of_ordered hL p dev blockno

end

/-! ### The list of the cache -/

/-- The pointers when an action of the cache takes place. -/
def follow {B : Type} (l : Links (Fin NBUF)) (s : Bcache.State P B) : Bcache.Act P B → Links (Fin NBUF)
  | .brelse p =>
    match s.pc p with
    | .holding i _ _ _ => if (s.buf i).refcnt - 1 = 0 then (l.unlink i).link i else l
    | _ => l
  | _ => l

variable {B : Type} {drv : Bcache.Driver} {size : ℕ} {l : Links (Fin NBUF)}

theorem linked_step {s s' : Bcache.State P B} {a : Bcache.Act P B} (h : Listed l s.lru)
    (hall : ∀ i, i ∈ s.lru) (hs : Bcache.step drv size s a = .next s') :
    Listed (follow l s a) s'.lru ∧ ∀ i, i ∈ s'.lru := by
  have same : s'.lru = s.lru → Listed l s'.lru ∧ ∀ i, i ∈ s'.lru := fun heq => by
    rw [heq]
    exact ⟨h, hall⟩
  have hn := Bcache.next_of_step hs
  cases hn with
  | brelse hp hlru =>
    rename_i p i d b c lru
    unfold follow
    dsimp only
    rw [hp]
    unfold Bcache.step at hs
    simp only [hp] at hs
    unfold Bcache.State.brelse at hs
    dsimp only at hs
    split at hs
    · cases hs
    · obtain rfl : lru = if (s.buf i).refcnt - 1 = 0 then i :: s.lru.erase i else s.lru :=
        (congrArg Bcache.State.lru (Outcome.next.inj hs)).symm
      dsimp only
      split
      · refine ⟨h.move (hall i), fun j => ?_⟩
        by_cases hji : j = i
        · exact hji ▸ List.mem_cons_self
        · exact List.mem_cons_of_mem _ ((List.mem_erase_of_ne hji).mpr (hall j))
      · exact ⟨h, hall⟩
  | read hp hl hv hio =>
    rcases hio with rfl | rfl
    · exact same rfl
    · exact same Bcache.serve_lru
  | bwrite hp hio =>
    rcases hio with rfl | rfl
    · exact same rfl
    · exact same Bcache.serve_lru
  | serve hq => exact same Bcache.serve_lru
  | _ => exact same rfl

/-- The cache, and its pointers beside it. -/
def stepBoth (drv : Bcache.Driver) (size : ℕ) (x : Links (Fin NBUF) × Bcache.State P B)
    (a : Bcache.Act P B) : Outcome (Links (Fin NBUF) × Bcache.State P B) :=
  match Bcache.step drv size x.2 a with
  | .next s' => .next (follow x.1 x.2 a, s')
  | .panic msg => .panic msg
  | .blocked => .blocked

/-- **To search `lru` of the cache is to follow the pointers**, from either end and in every state.
-/
theorem walk_of_reach {zero : B} {disk : ℕ → ℕ → B} {x : Links (Fin NBUF) × Bcache.State P B}
    (h : Machine.Reach (stepBoth drv size) (fun _ _ => True)
      ((binit l : State P).links, Bcache.init zero disk) x)
    (test : Fin NBUF → Bool) :
    walk x.1.next test (NBUF + 1) (x.1.next none) = some (x.2.lru.find? test) ∧
      walk x.1.prev test (NBUF + 1) (x.1.prev none) = some (x.2.lru.reverse.find? test) := by
  have hinv : Listed x.1 x.2.lru ∧ ∀ i, i ∈ x.2.lru :=
    h.inv (I := fun x => Listed x.1 x.2.lru ∧ ∀ i, i ∈ x.2.lru)
    ⟨listed_binit (P := P) l, fun i => by simp [Bcache.init]⟩ fun x a x' hi _ hs => by
      unfold stepBoth at hs
      split at hs <;> cases hs
      exact linked_step hi.1 hi.2 ‹_›
  have hlen : x.2.lru.length < NBUF + 1 := hinv.1.nodup.length_le_card.trans_lt (by simp)
  exact ⟨hinv.1.walk_next test hlen, hinv.1.walk_prev test hlen⟩

end

set_option maxRecDepth 100000 in
/-- A block has been read, written and released: its buffer is the first of the list, and `buf[1]`
the last. -/
theorem walk_of_reach_update : ∃ x : Links (Fin NBUF) × Bcache.State (Fin 1) ℕ,
    Machine.Reach (stepBoth (.ide true) LOGSIZE) (fun _ _ => True)
      ((binit ⟨id, id⟩ : State (Fin 1)).links, Bcache.init 0 fun _ _ => 0) x ∧
    walk x.1.next (fun _ => true) (NBUF + 1) (x.1.next none) = some (some 0) ∧
    walk x.1.prev (fun _ => true) (NBUF + 1) (x.1.prev none) = some (some 1) := by
  obtain ⟨x, hx, hf⟩ := Machine.exists_reach (stepBoth (.ide true) LOGSIZE) (fun _ _ => True)
    ((binit ⟨id, id⟩ : State (Fin 1)).links, (Bcache.init 0 fun _ _ => 0 : Bcache.State (Fin 1) ℕ))
      (Bcache.update 0 1 5 7)
    (fun x => (x.2.lru.find? fun _ => true, x.2.lru.reverse.find? fun _ => true)) (some 0, some 1)
      (by decide +kernel)
  obtain ⟨hnext, hprev⟩ := walk_of_reach hx fun _ => true
  rw [(Prod.mk.inj hf).1] at hnext
  rw [(Prod.mk.inj hf).2] at hprev
  exact ⟨x, hx, hnext, hprev⟩

/-- One buffer is used once; `buf[0]` was the last of the list. -/
theorem buffer_list_once : ∃ s : State (Fin 1), s.links.next none = some 0 ∧
    (∃ L, Listed s.links L ∧ (∀ i, L.count i = 1) ∧ L.Pairwise (Recent s)) ∧
    ∀ p dev blockno, s.pc p = .idle → Got s p dev blockno (step s (.bget p dev blockno)) := by
  obtain ⟨s, hs, hf⟩ := Machine.exists_reach step (fun _ _ => True) (binit ⟨fun _ => none, fun _ => none⟩)
    [.bget (0 : Fin 1) 1 5, .acquiresleep 0, .releasesleep 0, .brelse 0]
      (fun s => s.links.next none) (some 0) (by decide +kernel)
  obtain ⟨hlist, -, hgot, -⟩ := buffer_list hs
  exact ⟨s, hf, hlist, hgot⟩

end Xv6.BufferList
