/-
# Programs over a state that may stop

A program takes a state and either returns a value and the next state or
stops for good with a reason. `Sat x s Q E` says what a run of `x` from `s`
comes to: `Q` of its value and final state if it returns, `E` of the reason if
it stops. The rules below take a program apart along its binds.

`Triple P x Q E` says it of every state with `P`, and has the rules of Hoare logic.
-/
import Mathlib.Tactic

/-- A program over states `σ` that may stop with a reason in `ε`. -/
def Prog (ε σ α : Type) : Type := σ → Except ε (α × σ)

namespace Prog

variable {ε σ τ α β : Type} {g : σ → σ} {γ : Type} {c : Prop} {y : Prog ε σ α} {view : τ → σ}
  {put : τ → σ → τ} {t : τ}

instance : Monad (Prog ε σ) where
  pure a := fun s => .ok (a, s)
  bind x f := fun s =>
    match x s with
    | .ok (a, s') => f a s'
    | .error e => .error e

def stop (e : ε) : Prog ε σ α := fun _ => .error e

def get : Prog ε σ σ := fun s => .ok (s, s)

def modify (f : σ → σ) : Prog ε σ Unit := fun s => .ok ((), f s)

def when (c : Prop) [Decidable c] (x : Prog ε σ Unit) : Prog ε σ Unit := if c then x else pure ()

/-- Run a program on a part of the state. -/
def zoom (view : τ → σ) (put : τ → σ → τ) (x : Prog ε σ α) : Prog ε τ α := fun t =>
  match x (view t) with
  | .ok (a, s) => .ok (a, put t s)
  | .error e => .error e

/-- What a run of `x` from `s` comes to. -/
def Sat (x : Prog ε σ α) (s : σ) (Q : α → σ → Prop) (E : ε → Prop) : Prop :=
  match x s with
  | .ok (a, s') => Q a s'
  | .error e => E e

variable {x : Prog ε σ α} {s s' : σ} {a : α} {f : α → Prog ε σ β} {e : ε}
  {Q Q' : α → σ → Prop} {R : β → σ → Prop} {E E' : ε → Prop}

theorem bind_run (h : x s = .ok (a, s')) : (x >>= f) s = f a s' := by
  show (match x s with
    | .ok (a, s') => f a s'
    | .error e => .error e) = f a s'
  rw [h]

theorem bind_stop (h : x s = .error e) : (x >>= f) s = .error e := by
  show (match x s with
    | .ok (a, s') => f a s'
    | .error e => .error e) = .error e
  rw [h]

/-- A run of `x >>= f` that returns is a run of `x` and one of `f`. -/
theorem bind_ok {b : β} {s'' : σ} (h : (x >>= f) s = .ok (b, s'')) :
    ∃ a s', x s = .ok (a, s') ∧ f a s' = .ok (b, s'') := by
  rcases hx : x s with e | ⟨a, s'⟩
  · rw [bind_stop hx] at h
    cases h
  · rw [bind_run hx] at h
    exact ⟨a, s', rfl, h⟩

/-- Two ways to go on that agree where `x` leads. -/
theorem bind_congr {g : α → Prog ε σ β} (h : ∀ a s', x s = .ok (a, s') → f a s' = g a s') :
    (x >>= f) s = (x >>= g) s := by
  rcases hx : x s with e | ⟨a, s'⟩
  · rw [bind_stop hx, bind_stop hx]
  · rw [bind_run hx, bind_run hx, h a s' hx]

theorem bind_assoc_run {g : β → Prog ε σ γ} :
    ((x >>= f) >>= g) s = (x >>= fun a => f a >>= g) s := by
  rcases hx : x s with e | ⟨a, s'⟩
  · rw [bind_stop (bind_stop hx), bind_stop hx]
  · rw [bind_run hx]
    rcases hf : f a s' with e | ⟨b, s''⟩
    · rw [bind_stop ((bind_run hx).trans hf), bind_stop hf]
    · rw [bind_run ((bind_run hx).trans hf), bind_run hf]

theorem Sat.of_ok (h : Sat x s Q E) (hx : x s = .ok (a, s')) : Q a s' := by
  rw [Sat, hx] at h
  exact h

theorem Sat.of_stop (h : Sat x s Q E) (hx : x s = .error e) : E e := by
  rw [Sat, hx] at h
  exact h

theorem sat_iff : Sat x s Q E ↔
    (∀ a s', x s = .ok (a, s') → Q a s') ∧ ∀ e, x s = .error e → E e := by
  constructor
  · exact fun h => ⟨fun _ _ hx => h.of_ok hx, fun _ hx => h.of_stop hx⟩
  · rintro ⟨h1, h2⟩
    rw [Sat]
    rcases hx : x s with e | ⟨a, s'⟩
    · exact h2 e hx
    · exact h1 a s' hx

theorem Sat.mono (h : Sat x s Q E) (hQ : ∀ a s', Q a s' → Q' a s') (hE : ∀ e, E e → E' e) :
    Sat x s Q' E' :=
  sat_iff.mpr ⟨fun a s' hx => hQ a s' (h.of_ok hx), fun e hx => hE e (h.of_stop hx)⟩

/-- Weaken what is said of the result. -/
theorem Sat.post (h : Sat x s Q E) (hQ : ∀ a s', Q a s' → Q' a s') : Sat x s Q' E :=
  h.mono hQ fun _ he => he

/-- A program that does not stop satisfies what is asked of those that do. -/
theorem Sat.sure (h : Sat x s Q fun _ => False) : Sat x s Q E :=
  h.mono (fun _ _ hq => hq) fun _ hf => hf.elim

/-- The run of a program that does not stop. -/
theorem Sat.exists_run (h : Sat x s Q fun _ => False) : ∃ a s', x s = .ok (a, s') ∧ Q a s' := by
  rcases hx : x s with e | ⟨a, s'⟩
  · exact (h.of_stop hx).elim
  · exact ⟨a, s', rfl, h.of_ok hx⟩

/-- What it returns, whatever it may stop with. -/
theorem Sat.returns (h : Sat x s Q E) : Sat x s Q fun _ => True :=
  h.mono (fun _ _ hq => hq) fun _ _ => trivial

theorem Sat.and (h : Sat x s Q E) (h' : Sat x s Q' fun _ => True) :
    Sat x s (fun a s' => Q a s' ∧ Q' a s') E :=
  sat_iff.mpr ⟨fun _ _ hx => ⟨h.of_ok hx, h'.of_ok hx⟩, fun _ hx => h.of_stop hx⟩

/-- Nothing is said. -/
theorem Sat.any : Sat x s (fun _ _ => True) fun _ => True :=
  sat_iff.mpr ⟨fun _ _ _ => trivial, fun _ _ => trivial⟩

/-- The result is that of the run. -/
theorem Sat.run (h : Sat x s Q E) : Sat x s (fun a s' => Q a s' ∧ x s = .ok (a, s')) E :=
  sat_iff.mpr ⟨fun _ _ hx => ⟨h.of_ok hx, hx⟩, fun _ hx => h.of_stop hx⟩

theorem Sat.pure (h : Q a s) : Sat (pure a) s Q E := h

theorem Sat.stop (h : E e) : Sat (stop e) s Q E := h

theorem Sat.modify {P : Unit → σ → Prop} (h : P () (g s)) : Sat (modify g) s P E := h

/-- A run of `x >>= f` goes as `x` and then as `f` on what `x` returned. -/
theorem Sat.bind (h : Sat x s Q E) (hf : ∀ a s', Q a s' → Sat (f a) s' R E) :
    Sat (x >>= f) s R E := by
  rcases hx : x s with e | ⟨a, s'⟩
  · rw [Sat, bind_stop hx]
    exact h.of_stop hx
  · rw [Sat, bind_run hx]
    exact hf a s' (h.of_ok hx)

/-- The first two parts of a program, taken as one. -/
theorem Sat.assoc {g : β → Prog ε σ γ} {P : γ → σ → Prop}
    (h : Sat ((x >>= f) >>= g) s P E) : Sat (x >>= fun a => f a >>= g) s P E := by
  rwa [Sat, ← bind_assoc_run]

/-- `x` only reads. -/
theorem Sat.read {P : α → Prop} (h : Sat x s (fun a s' => s' = s ∧ P a) E)
    (hf : ∀ a, P a → Sat (f a) s R E) : Sat (x >>= f) s R E :=
  h.bind fun a _ ⟨heq, ha⟩ => heq ▸ hf a ha

theorem Sat.get_bind {f : σ → Prog ε σ β} (h : Sat (f s) s R E) : Sat (Prog.get >>= f) s R E := h

theorem Sat.modify_bind {f : Unit → Prog ε σ β} (h : Sat (f ()) (g s) R E) :
    Sat (Prog.modify g >>= f) s R E := h

theorem Sat.ite [Decidable c] (hx : c → Sat x s Q E)
    (hy : ¬c → Sat y s Q E) : Sat (if c then x else y) s Q E := by
  split
  · exact hx ‹_›
  · exact hy ‹_›

theorem Sat.when [Decidable c] {y : Prog ε σ Unit} {P : Unit → σ → Prop}
    (hy : c → Sat y s P E) (hn : ¬c → P () s) : Sat (Prog.when c y) s P E :=
  Sat.ite hy fun hc => Sat.pure (hn hc)

theorem zoom_run (h : x (view t) = .ok (a, s)) : zoom view put x t = .ok (a, put t s) := by
  rw [zoom, h]

/-- A program on a part of the state, seen from the whole. -/
theorem Sat.zoom {P : α → τ → Prop}
    (h : Sat x (view t) (fun a s => P a (put t s)) E) : Sat (zoom view put x) t P E := by
  rw [Sat] at h ⊢
  rw [Prog.zoom]
  rcases hx : x (view t) with e | ⟨a, s'⟩ <;> rw [hx] at h <;> exact h

/-! ### Triples -/

def Any (_ : ε) : Prop := True

/-- From a state with `P`, a run of `x` comes to `Q`, or stops for a reason in `E`. -/
def Triple (P : σ → Prop) (x : Prog ε σ α) (Q : α → σ → Prop) (E : ε → Prop) : Prop :=
  ∀ s, P s → Sat x s Q E

/-- `x` keeps `P`. -/
abbrev Keeps (P : σ → Prop) (x : Prog ε σ α) (E : ε → Prop) : Prop := Triple P x (fun _ => P) E

variable {P P' : σ → Prop}

theorem Triple.done (h : ∀ s, P s → Q a s) : Triple P (pure a) Q E := h

theorem Triple.ret : Triple P (pure a) (fun _ => P) E := .done fun _ h => h

theorem Triple.stop (h : E e) : Triple P (stop e) Q E := fun _ _ => h

theorem Triple.bind (hx : Triple P x Q E) (hf : ∀ a, Triple (Q a) (f a) R E) : Triple P (x >>= f) R E :=
  fun s h => (hx s h).bind hf

theorem Triple.post (hx : Triple P x Q E) (hQ : ∀ a s, Q a s → Q' a s) : Triple P x Q' E :=
  fun s h => (hx s h).post hQ

theorem Triple.ite [Decidable c] (hx : c → Triple P x Q E)
    (hy : ¬c → Triple P y Q E) : Triple P (if c then x else y) Q E :=
    fun s h => Sat.ite (fun hc => hx hc s h) fun hc => hy hc s h

theorem Keeps.get : Keeps P get E := fun _ h => h

theorem Keeps.when [Decidable c] {y : Prog ε σ Unit} (hy : c → Keeps P y E) :
    Keeps P (when c y) E :=
  Triple.ite hy fun _ => Triple.ret

theorem Triple.modify {R : Unit → σ → Prop} (h : ∀ s, P s → R () (g s)) :
    Triple P (modify g) R E := h

end Prog
