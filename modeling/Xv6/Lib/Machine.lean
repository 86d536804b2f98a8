/-
# Machines that step, block or stop

A machine takes an action in a state: the action is not possible now, or the machine stops with a
message, or there is a next state. `Reach` is the states that actions lead to, where each action
meets a condition `G` in the state it is taken in.

Machines of several processes have a place for each process. `sum_update_add` says what one
process's move does to a sum over all places.
-/
import Mathlib.Tactic

/-- What an action comes to. -/
inductive Outcome (σ : Type) where
  | blocked
  | panic (msg : String)
  | next (s : σ)

def Outcome.message {σ : Type} : Outcome σ → Option String
  | .panic msg => some msg
  | _ => none

theorem Outcome.eq_panic {σ : Type} {o : Outcome σ} {msg : String} (h : o.message = some msg) :
    o = .panic msg := by
  cases o <;> cases h
  rfl

namespace Machine

variable {σ α : Type} {step : σ → α → Outcome σ} {G : σ → α → Prop} {s₀ s s' : σ}

/-- `s` is reached from `s₀` by actions that meet `G`. -/
inductive Reach (step : σ → α → Outcome σ) (G : σ → α → Prop) (s₀ : σ) : σ → Prop where
  | refl : Reach step G s₀ s₀
  | next {s s' : σ} {a : α} (h : Reach step G s₀ s) (hg : G s a) (hs : step s a = .next s') :
      Reach step G s₀ s'

/-- What holds at the start and is kept by every action holds in every state reached. -/
theorem Reach.inv {I : σ → Prop} (h0 : I s₀)
    (hstep : ∀ s a s', I s → G s a → step s a = .next s' → I s') (h : Reach step G s₀ s) : I s := by
  induction h with
  | refl => exact h0
  | next _ hg hs ih => exact hstep _ _ _ ih hg hs

theorem Reach.mono {G' : σ → α → Prop} (h : Reach step G s₀ s) (hG : ∀ s a, G s a → G' s a) :
    Reach step G' s₀ s := by
  induction h with
  | refl => exact .refl
  | next _ hg hs ih => exact .next ih (hG _ _ hg) hs

theorem Reach.trans (h : Reach step G s₀ s) (h' : Reach step G s s') : Reach step G s₀ s' := by
  induction h' with
  | refl => exact h
  | next _ hg hs ih => exact .next ih hg hs

/-- The actions that count are taken fewer than `n` times; `count` is how often they have been. -/
def Seldom (counted : α → Bool) (count : σ → ℕ) (n : ℕ) (s : σ) (a : α) : Prop := counted a = true →
    count s + 1 < n

instance (counted : α → Bool) (count : σ → ℕ) (n : ℕ) (s : σ) (a : α) :
    Decidable (Seldom counted count n s a) :=
  inferInstanceAs (Decidable (_ → _))

variable [∀ s a, Decidable (G s a)]

/-- Take the actions one after the other, if each of them is possible and meets `G`. -/
def play (step : σ → α → Outcome σ) (G : σ → α → Prop) [∀ s a, Decidable (G s a)] : σ → List α → Option σ
  | s, [] => some s
  | s, a :: as =>
    if G s a then
      match step s a with
      | .next s' => play step G s' as
      | _ => none
    else none

theorem reach_play : ∀ {as : List α} {s s' : σ}, play step G s as = some s' → Reach step G s s'
  | [], s, s', h => by
    cases h
    exact .refl
  | a :: as, s, s', h => by
    rw [play] at h
    split at h
    · rename_i hg
      split at h
      · rename_i s1 hs
        exact (Reach.next .refl hg hs).trans (reach_play h)
      · cases h
    · cases h

/-- If every action uses up something, no run is longer than what there is of it at the start. -/
theorem play_length_le {left : σ → ℕ → Prop}
    (hstep : ∀ s a s' n, left s n → step s a = .next s' → ∃ n' < n, left s' n') :
    ∀ {as : List α} {s s' : σ} {n : ℕ}, left s n → play step G s as = some s' → as.length ≤ n
  | [], _, _, _, _, _ => Nat.zero_le _
  | a :: as, s, s', n, hn, h => by
    rw [play] at h
    split at h
    · split at h
      · rename_i s1 hs
        obtain ⟨n', hlt, hn'⟩ := hstep s a s1 n hn hs
        have := play_length_le hstep hn' h
        rw [List.length_cons]
        omega
      · cases h
    · cases h

/-- A state given by what can be computed of it. -/
theorem exists_reach (step : σ → α → Outcome σ) (G : σ → α → Prop) [∀ s a, Decidable (G s a)] (s : σ)
    (as : List α) {β : Type} (f : σ → β) (b : β) (h : (play step G s as).map f = some b) :
    ∃ s', Reach step G s s' ∧ f s' = b := by
  obtain ⟨s', hplay, hf⟩ := Option.map_eq_some_iff.mp h
  exact ⟨s', reach_play hplay, hf⟩

end Machine

/-- A sum over all places when one of them changes. -/
theorem sum_update_add {ι α M : Type} [Fintype ι] [DecidableEq ι] [AddCommMonoid M] (w : α → M)
    (f : ι → α) (i : ι) (a : α) : ∑ j, w (Function.update f i a j) + w (f i) = ∑ j, w (f j) + w a := by
  have hrest : ∑ j ∈ Finset.univ.erase i, w (Function.update f i a j) = ∑ j ∈ Finset.univ.erase i,
    w (f j) :=
    Finset.sum_congr rfl fun j hj => by rw [Function.update_of_ne (Finset.ne_of_mem_erase hj)]
  rw [← Finset.add_sum_erase _ _ (Finset.mem_univ i), ← Finset.add_sum_erase (a := i) _
    (fun j => w (f j)) (Finset.mem_univ i),
    Function.update_self, hrest]
  abel

theorem sum_update {ι α : Type} [Fintype ι] [DecidableEq ι] (w : α → ℤ) (f : ι → α) (i : ι) (a : α) :
    ∑ j, w (Function.update f i a j) = ∑ j, w (f j) - w (f i) + w a := by
  rw [sub_add_eq_add_sub, ← sum_update_add w f i a, add_sub_cancel_right]
