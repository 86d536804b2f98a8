/-
# Waiting for the disk

ide.c serves the requests in the order in which they came. A session of the buffer cache that waits
in `iderw` can go on once there has been an interrupt for each request before its own and one for
its own, whatever other sessions do in the meantime (`iderw_served`): no request is lost, and none
overtakes another.
-/
import Xv6.Bcache

namespace Xv6.Bcache

variable {P B : Type} [DecidableEq P] {drv : Driver} {size : ℕ} {s s' : State P B} {a : Act P B}
  {p : P} {i : Fin NBUF} {D : ℕ → Prop} {disk₀ : ℕ → ℕ → B}

/-- The buffer that the session waits for in `iderw`. -/
def Pc.awaits : Pc → Option (Fin NBUF)
  | .reading i _ _ | .writing i _ _ => some i
  | _ => none

/-- `(b->flags & (B_VALID|B_DIRTY)) == B_VALID` -/
def State.Synced (s : State P B) (i : Fin NBUF) : Prop := (s.buf i).valid = true ∧ (s.buf i).dirty = false

def Act.isIntr : Act P B → Bool
  | .ideintr => true
  | _ => false

/-- Session `p` waits for buffer `i`, which is synced or has fewer than `n` requests before it. -/
structure Pending (s : State P B) (p : P) (i : Fin NBUF) (n : ℕ) : Prop where
  awaits : (s.pc p).awaits = some i
  queued : s.Synced i ∨ ∃ l r, s.idequeue = l ++ i :: r ∧ l.length < n

omit [DecidableEq P] in
theorem ideintr_cases (hs : s.ideintr = .next s') : s.idequeue = [] ∧ s' = s ∨
    ∃ i q, s.idequeue = i :: q ∧ s' = { s with idequeue := q }.serve i := by
  rw [State.ideintr] at hs
  split at hs
  · cases hs
    exact .inl ⟨‹_›, rfl⟩
  · rename_i i q hq
    refine .inr ⟨i, q, hq, ?_⟩
    simp only at hs
    split at hs
    · cases hs
      rfl
    · rw [State.idestart] at hs
      split at hs <;> cases hs
      rfl

omit [DecidableEq P] in
theorem Io.idequeue (h : Io i s s') : ∃ t, s'.idequeue = s.idequeue ++ t := by
  rcases h with rfl | rfl
  · exact ⟨[i], rfl⟩
  · exact ⟨[], by rw [serve_idequeue, List.append_nil]⟩

/-- Only an interrupt takes a request from the queue. -/
theorem idequeue_next (hn : Next s a s') (ha : a ≠ .ideintr) : ∃ t, s'.idequeue = s.idequeue ++ t := by
  cases hn with
  | read hp hl hv hio => exact hio.idequeue
  | bwrite hp hio => exact hio.idequeue
  | serve | still => exact absurd rfl ha
  | _ => exact ⟨[], (List.append_nil _).symm⟩

/-- A session stays in `iderw` until it wakes, and the buffer stays as the driver left it: others do
not have its lock. -/
theorem awaits_next [Fintype P] (h : Inv D disk₀ s) (hn : Next s a s') (ha : a ≠ .wake p)
    (hp : (s.pc p).awaits = some i) : (s'.pc p).awaits = some i ∧ (s.Synced i → s'.Synced i) := by
  have hl : (s.buf i).lock = some p :=
    (h.sessions.lock p i).mp (by cases hx : s.pc p <;> simp_all [Pc.awaits, Pc.locks])
  obtain ⟨d, b, hon⟩ := Pc.on_of_locks ((h.sessions.lock p i).mpr hl)
  have hpos := h.refs.pos hon
  have hlock := h.sessions.lock
  unfold State.Synced
  cases hn with
  | @read q j d b s' hq hl' hv hio => rcases hio with rfl | rfl <;> grind [Pc.awaits]
  | @bwrite q j d b c s' hq hio =>
    have := (hlock q j).mp (by rw [hq]; rfl)
    rcases hio with rfl | rfl <;> grind [Pc.awaits]
  | @logWrite q j d b c lh hq =>
    have := (hlock q j).mp (by rw [hq]; rfl)
    grind [Pc.awaits]
  | _ => grind [Pc.awaits]

theorem Pending.step [Fintype P] {n : ℕ} (h : Inv D disk₀ s) (hw : Pending s p i n)
    (hs : step drv size s a = .next s') (ha : a ≠ .wake p) : Pending s' p i (n - a.isIntr.toNat) := by
  have hn := next_of_step hs
  obtain ⟨hawaits, hsync⟩ := awaits_next h hn ha hw.awaits
  refine ⟨hawaits, ?_⟩
  rcases hw.queued with hi | ⟨l, r, hq, hlt⟩
  · exact .inl (hsync hi)
  by_cases hintr : a = .ideintr
  · subst hintr
    rcases ideintr_cases hs with ⟨h0, -⟩ | ⟨j, q, hj, rfl⟩
    · simp [h0] at hq
    · rw [hj] at hq
      cases l with
      | nil =>
        cases hq
        exact .inl (by unfold State.Synced; grind)
      | cons x l =>
        obtain ⟨rfl, rfl⟩ := List.cons.inj hq
        refine .inr ⟨l, r, serve_idequeue, ?_⟩
        simp only [List.length_cons, Act.isIntr, Bool.toNat_true] at hlt ⊢
        omega
  · obtain ⟨t, ht⟩ := idequeue_next hn hintr
    have : a.isIntr = false := by cases a <;> simp_all [Act.isIntr]
    exact .inr ⟨l, r ++ t, by rw [ht, hq, List.append_assoc, List.cons_append], by simpa [this] using hlt⟩

/-- Whoever waits in `iderw` has been served, or has a request in the queue. -/
def Waits (s : State P B) : Prop := ∀ p i, (s.pc p).awaits = some i → s.Synced i ∨ i ∈ s.idequeue

theorem waits_next [Fintype P] (h : Inv D disk₀ s) (hw : Waits s) (hn : Next s a s') : Waits s' := by
  intro p i hp
  by_cases hold : (s.pc p).awaits = some i
  · have ha : a ≠ .wake p := by
      rintro rfl
      cases hn
      grind [Pc.awaits]
    rcases hw p i hold with hi | hi
    · exact .inl ((awaits_next h hn ha hold).2 hi)
    by_cases hintr : a = .ideintr
    · subst hintr
      cases hn with
      | serve hq => grind [State.Synced]
      | still => exact .inr hi
    · obtain ⟨t, ht⟩ := idequeue_next hn hintr
      exact .inr (ht ▸ List.mem_append_left t hi)
  · -- the request is new
    cases hn with
    | read hq hl hv hio => rcases hio with rfl | rfl <;> grind [Pc.awaits, State.Synced]
    | bwrite hq hio => rcases hio with rfl | rfl <;> grind [Pc.awaits, State.Synced]
    | _ => grind [Pc.awaits]

theorem Pending.play [Fintype P] [DecidablePred D] (hD : Drives D) :
    ∀ {as : List (Act P B)} {s : State P B} {n : ℕ}, Inv D disk₀ s → Pending s p i n →
    (∀ a ∈ as, a ≠ .wake p) →
      Machine.play (Bcache.step drv size) (Proper D) s as = some s' →
      Pending s' p i (n - as.countP Act.isIntr)
  | [], s, n, _, hw, _, hrun => by
    cases hrun
    simpa using hw
  | a :: as, s, n, h, hw, hstay, hrun => by
    rw [Machine.play] at hrun
    split at hrun
    · rename_i hg
      split at hrun
      · rename_i s1 hs
        have hrest := Pending.play hD (inv_next hD h hg (next_of_step hs))
          (hw.step h hs (hstay a List.mem_cons_self))
            (fun x hx => hstay x (List.mem_cons_of_mem a hx)) hrun
        have hcount : (a :: as).countP Act.isIntr = a.isIntr.toNat + as.countP Act.isIntr := by
          cases hx : a.isIntr <;> simp [hx, Nat.add_comm]
        rwa [hcount, ← Nat.sub_sub]
      · cases hrun
    · cases hrun

section

variable [Fintype P] (hD : Drives D) {zero : B}
  (h : Machine.Reach (step drv size) (Proper D) (init zero disk₀ : State P B) s)

include hD h

theorem waits_of_reach : Inv D disk₀ s ∧ Waits s :=
  h.inv (I := fun s => Inv D disk₀ s ∧ Waits s) ⟨inv_init hD zero, fun p i hp =>
    by cases hp⟩ fun _ _ _ hi hg hs =>
    ⟨inv_next hD hi.1 hg (next_of_step hs), waits_next hi.1 hi.2 (next_of_step hs)⟩

/-- "Only one process at a time can use a buffer": two sessions never have one block. -/
theorem exclusive_of_reach {q : P} {j : Fin NBUF} (hpq : p ≠ q) (hp : (s.pc p).locks = some i)
    (hq : (s.pc q).locks = some j) : (s.buf i).dev ≠ (s.buf j).dev ∨ (s.buf i).blockno ≠
    (s.buf j).blockno := by
  have hs : Sessions D s := (waits_of_reach hD h).1.sessions
  have hl := (hs.lock p i).mp hp
  rw [← not_and_or]
  rintro ⟨hdev, hno⟩
  obtain rfl := hs.uniq i j (hs.named hl) hdev hno
  exact hpq (Option.some.inj (hl.symm.trans ((hs.lock q i).mp hq)))

/-- **A request is served in its turn.** A session that waits in `iderw` can go on after an
interrupt for each request before its own and one for its own, whatever the other sessions do. -/
theorem iderw_served [DecidablePred D] (hp : (s.pc p).awaits = some i) {as : List (Act P B)}
    (hrun : Machine.play (step drv size) (Proper D) s as = some s') (hstay : ∀ a ∈ as, a ≠ .wake p)
    (hintr : s.idequeue.idxOf i < as.countP Act.isIntr) :
    (s'.pc p).awaits = some i ∧ ∃ s'', step drv size s' (.wake p) = .next s'' := by
  obtain ⟨hinv, hwaits⟩ := waits_of_reach hD h
  have hw : Pending s p i (s.idequeue.idxOf i + 1) := ⟨hp, (hwaits p i hp).imp_right fun hi => by
    obtain ⟨l, r, hq, hl⟩ := List.eq_append_cons_of_mem hi
    exact ⟨l, r, hq, by simp [hq, List.idxOf_append_of_notMem hl]⟩⟩
  obtain ⟨hawaits, hq⟩ := hw.play hD hinv hstay hrun
  rw [Nat.sub_eq_zero_of_le hintr] at hq
  obtain ⟨hv, hd⟩ : s'.Synced i := hq.resolve_right fun ⟨l, r, _, hlt⟩ => Nat.not_lt_zero _ hlt
  refine ⟨hawaits, ?_⟩
  rw [step]
  cases hx : s'.pc p <;> simp_all [Pc.awaits]

end

theorem drives_one : Drives (· = 1) := ⟨by decide, fun _ _ h h' _ => h.trans h'.symm⟩

/-- Two sessions ask for different blocks. -/
def twoReads (p q : P) : List (Act P ℕ) := [.bget p 1 5, .acquire p, .bget q 1 6, .acquire q]

set_option maxRecDepth 100000 in
theorem exclusive_of_reach_two : ∃ s : State (Fin 2) ℕ, (s.pc 1).locks = some 1 ∧
    ((s.buf 0).dev ≠ (s.buf 1).dev ∨ (s.buf 0).blockno ≠ (s.buf 1).blockno) := by
  obtain ⟨s, hs, hf⟩ := Machine.exists_reach (step (.ide true) LOGSIZE) (Proper (· = 1))
    (init 0 fun _ _ => 0)
    (twoReads (0 : Fin 2) 1) (fun s => ((s.pc 0).locks, (s.pc 1).locks)) (some 0, some 1)
      (by decide +kernel)
  obtain ⟨h0, h1⟩ := Prod.mk.inj hf
  exact ⟨s, h1, exclusive_of_reach drives_one hs (by decide) h0 h1⟩

set_option maxRecDepth 100000 in
/-- The first session goes on between the interrupts. -/
theorem iderw_served_second : ∃ s' s'' : State (Fin 2) ℕ, step (.ide true) LOGSIZE s' (.wake 1) =
    .next s'' := by
  obtain ⟨s, hs, hf⟩ := Machine.exists_reach (step (.ide true) LOGSIZE) (Proper (· = 1))
    (init 0 fun _ _ => 0)
    (twoReads (0 : Fin 2) 1) (fun s => ((s.pc 1).awaits, s.idequeue.idxOf 1,
      (Machine.play (step (.ide true) LOGSIZE) (Proper (· = 1)) s
        [.ideintr, .wake 0, .ideintr]).isSome)) (some 1, 1, true)
    (by decide +kernel)
  simp only [Prod.mk.injEq] at hf
  obtain ⟨s', hs'⟩ := Option.isSome_iff_exists.mp hf.2.2
  obtain ⟨-, s'', hw⟩ := iderw_served drives_one hs hf.1 hs' (by simp) (by rw [hf.2.1]; decide)
  exact ⟨s', s'', hw⟩

end Xv6.Bcache
