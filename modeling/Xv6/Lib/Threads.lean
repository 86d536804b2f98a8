/-
# Threads over shared cells

`Code` is what one thread does: it reads cells and writes cells, one at a time, and notes events,
and between two of these it computes with what is its own. `Code.step` is its next move on the cells
that all threads share.

`Wp R N c f Q`: from the cells `f` the code `c`, alone, touches no cell outside of `R`, notes an
event only when `N` holds of the cells, and ends with `Q`. If `N` and `Q` are about the cells of
`R`, a move of a thread that touches only other cells changes nothing of it (`Wp.congr`), so it
holds in every interleaving if the threads' cells are apart.
-/
import Mathlib.Tactic
import Mathlib.Order.CompletePartialOrder

namespace Threads

open Function (update update_self update_of_ne)

/-- Code of a thread over cells `ι` of values `β`, with events `ε`. -/
inductive Code (ι β ε : Type) (α : Type) where
  | ret (a : α)
  | read (i : ι) (k : β → Code ι β ε α)
  | write (i : ι) (v : β) (k : Code ι β ε α)
  | note (e : ε) (k : Code ι β ε α)

variable {ι β ε α γ : Type}

namespace Code

def bind : Code ι β ε α → (α → Code ι β ε γ) → Code ι β ε γ
  | ret a, k => k a
  | read i c, k => read i fun v => (c v).bind k
  | write i v c, k => write i v (c.bind k)
  | note e c, k => note e (c.bind k)

instance : Monad (Code ι β ε) where
  pure := ret
  bind := bind

def get (i : ι) : Code ι β ε β := read i ret

def put (i : ι) (v : β) : Code ι β ε Unit := write i v (ret ())

def event (e : ε) : Code ι β ε Unit := note e (ret ())

/-- The next move, if there is one. -/
def step [DecidableEq ι] (f : ι → β) : Code ι β ε α → Option (Code ι β ε α × (ι → β))
  | ret _ => none
  | read i k => some (k (f i), f)
  | write i v k => some (k, update f i v)
  | note _ k => some (k, f)

/-- The cell that the next move reads or writes. -/
def touches : Code ι β ε α → Option ι
  | read i _ => some i
  | write i _ _ => some i
  | _ => none

/-- The event that the next move notes. -/
def noted : Code ι β ε α → Option ε
  | note e _ => some e
  | _ => none

def done : Code ι β ε α → Bool
  | ret _ => true
  | _ => false

/-- Whatever it reads, the code makes at most `n` moves, and what it ends with is in `P`. -/
def Within (P : α → Prop) : Code ι β ε α → ℕ → Prop
  | ret a, _ => P a
  | read _ k, n => 0 < n ∧ ∀ v, (k v).Within P (n - 1)
  | write _ _ k, n => 0 < n ∧ k.Within P (n - 1)
  | note _ k, n => 0 < n ∧ k.Within P (n - 1)

end Code

/-- From `f`, the code stays in the cells `R`, notes what `N` allows, and ends with `Q`. -/
def Wp [DecidableEq ι] (R : Set ι) (N : ε → (ι → β) → Prop) (Q : α → (ι → β) → Prop) :
    Code ι β ε α → (ι → β) → Prop
  | .ret a, f => Q a f
  | .read i k, f => i ∈ R ∧ Wp R N Q (k (f i)) f
  | .write i v k, f => i ∈ R ∧ Wp R N Q k (update f i v)
  | .note e k, f => N e f ∧ Wp R N Q k f

/-- A condition on the cells that only looks at those of `R`. -/
def Local (R : Set ι) (P : (ι → β) → Prop) : Prop := ∀ f g, (∀ i ∈ R, f i = g i) → P f → P g

section

variable [DecidableEq ι] {R R' : Set ι} {N : ε → (ι → β) → Prop} {Q : α → (ι → β) → Prop}
  {c c' : Code ι β ε α} {f f' g : ι → β} {i : ι} {v : β} {e : ε}

/-! ### Rules for code -/

theorem Wp.bind {k : α → Code ι β ε γ} {Q : γ → (ι → β) → Prop}
    (h : Wp R N (fun a g => Wp R N Q (k a) g) c f) : Wp R N Q (c >>= k) f := by
  induction c generalizing f with
  | ret a => exact h
  | read i c ih => exact ⟨h.1, ih _ h.2⟩
  | write i v c ih => exact ⟨h.1, ih h.2⟩
  | note e c ih => exact ⟨h.1, ih h.2⟩

theorem Wp.pure {a : α} (h : Q a f) : Wp R N Q (pure a) f := h

theorem Wp.get {Q : β → (ι → β) → Prop} (hi : i ∈ R) (h : Q (f i) f) : Wp R N Q (Code.get i) f := ⟨hi, h⟩

theorem Wp.put {Q : Unit → (ι → β) → Prop} (hi : i ∈ R) (h : Q () (update f i v)) :
    Wp R N Q (Code.put i v) f := ⟨hi, h⟩

theorem Wp.event {Q : Unit → (ι → β) → Prop} (he : N e f) (h : Q () f) :
    Wp R N Q (Code.event e) f := ⟨he, h⟩

/-- What code does is decided by its own cells. -/
theorem Wp.congr (hN : ∀ e, Local R (N e)) (hQ : ∀ a, Local R (Q a)) (h : Wp R N Q c f)
    (hfg : ∀ i ∈ R, f i = g i) : Wp R N Q c g := by
  induction c generalizing f g with
  | ret a => exact hQ a f g hfg h
  | read i c ih => exact ⟨h.1, hfg i h.1 ▸ ih _ h.2 hfg⟩
  | write i v c ih =>
    refine ⟨h.1, ih h.2 fun j hj => ?_⟩
    by_cases hji : j = i
    · rw [hji, update_self, update_self]
    · rw [update_of_ne hji, update_of_ne hji, hfg j hj]
  | note e c ih => exact ⟨hN e f g hfg h.1, ih h.2 hfg⟩

/-! ### Rules for a move -/

theorem Wp.step (h : Wp R N Q c f) (hs : c.step f = some (c', f')) : Wp R N Q c' f' := by
  cases c with
  | ret a => cases hs
  | read | write | note =>
    cases hs
    exact h.2

/-- A move changes no cell outside of `R`. -/
theorem Wp.step_outside (h : Wp R N Q c f) (hs : c.step f = some (c', f')) (hi : i ∉ R) : f' i = f i := by
  cases c with
  | ret a => cases hs
  | read | note =>
    cases hs
    rfl
  | write j v k =>
    cases hs
    exact update_of_ne (fun hij : i = j => hi (hij ▸ h.1)) _ _

/-- The move of a thread with other cells. -/
theorem Wp.step_other {Q2 : γ → (ι → β) → Prop} {N2 : ε → (ι → β) → Prop} {d : Code ι β ε γ}
    (hN : ∀ e, Local R' (N2 e)) (hQ : ∀ a, Local R' (Q2 a)) (hd : Wp R' N2 Q2 d f)
    (h : Wp R N Q c f) (hs : c.step f = some (c', f')) (hR : Disjoint R R') : Wp R' N2 Q2 d f' :=
  hd.congr hN hQ fun _ hi => (h.step_outside hs (hR.notMem_of_mem_right hi)).symm

theorem Wp.touches (h : Wp R N Q c f) (hi : c.touches = some i) : i ∈ R := by
  cases c <;> cases hi <;> exact h.1

theorem Wp.noted (h : Wp R N Q c f) (he : c.noted = some e) : N e f := by
  cases c <;> cases he
  exact h.1

theorem Wp.done (h : Wp R N Q c f) (hd : c.done = true) : ∃ a, Q a f := by
  cases c with
  | ret a => exact ⟨a, h⟩
  | _ => cases hd

/-- Code that has not ended can move. -/
theorem Code.step_or_done (c : Code ι β ε α) (f : ι → β) : c.done = true ∨ ∃ r, c.step f = some r := by
  cases c with
  | ret a => exact .inl rfl
  | _ => exact .inr ⟨_, rfl⟩

end

/-! ### Rules for the number of moves -/

namespace Code

section

variable {c c' : Code ι β ε α} {f f' : ι → β} {n : ℕ} {P : α → Prop}

theorem Within.mono {m : ℕ} (h : c.Within P m) (hn : m ≤ n) : c.Within P n := by
  induction c generalizing m n with
  | ret a => exact h
  | read i c ih => exact ⟨by have := h.1; omega, fun v => ih v (h.2 v) (by omega)⟩
  | write i v c ih => exact ⟨by have := h.1; omega, ih h.2 (by omega)⟩
  | note e c ih => exact ⟨by have := h.1; omega, ih h.2 (by omega)⟩

theorem Within.bind {k : α → Code ι β ε γ} {P' : γ → Prop} {m : ℕ} (h : c.Within P m)
    (hk : ∀ a, P a → (k a).Within P' n) : (c >>= k).Within P' (m + n) := by
  induction c generalizing m with
  | ret a => exact (hk a h).mono (by omega)
  | read i c ih =>
    refine ⟨by have := h.1; omega, fun v => ?_⟩
    rw [Nat.sub_add_comm h.1]
    exact ih v (h.2 v)
  | write i v c ih =>
    refine ⟨by have := h.1; omega, ?_⟩
    rw [Nat.sub_add_comm h.1]
    exact ih h.2
  | note e c ih =>
    refine ⟨by have := h.1; omega, ?_⟩
    rw [Nat.sub_add_comm h.1]
    exact ih h.2

theorem Within.pure {a : α} (h : P a) : Within P (pure a : Code ι β ε α) n := h

theorem within_get (i : ι) : (get i : Code ι β ε β).Within (fun _ => True) 1 :=
  ⟨Nat.one_pos, fun _ => trivial⟩

theorem within_put (i : ι) (v : β) : (put i v : Code ι β ε Unit).Within (fun _ => True) 1 :=
  ⟨Nat.one_pos, trivial⟩

theorem within_event (e : ε) : (event e : Code ι β ε Unit).Within (fun _ => True) 1 :=
  ⟨Nat.one_pos, trivial⟩

theorem Within.step [DecidableEq ι] (h : c.Within P n) (hs : c.step f = some (c', f')) :
    0 < n ∧ c'.Within P (n - 1) := by
  cases c with
  | ret a => cases hs
  | read i k =>
    cases hs
    exact ⟨h.1, h.2 _⟩
  | write | note =>
    cases hs
    exact h

end

end Code

end Threads
