/-
# Ordered writes to a store

A store maps addresses to values, a run of writes is the list of its (address,
value) pairs in the order they are issued, and `apply` is what the store holds
after them. A machine that stops in the middle has done a prefix of the list.
-/
import Mathlib.Tactic

namespace Writes

variable {α β : Type*} [DecidableEq α]

/-- The store after the writes `ws`, in order. -/
def apply (d : α → β) (ws : List (α × β)) : α → β :=
  ws.foldl (fun d w => Function.update d w.1 w.2) d

@[simp] theorem apply_nil (d : α → β) : apply d [] = d := rfl

@[simp] theorem apply_cons (d : α → β) (w : α × β) (ws : List (α × β)) :
    apply d (w :: ws) = apply (Function.update d w.1 w.2) ws := rfl

@[simp] theorem apply_append (d : α → β) (us ws : List (α × β)) :
    apply d (us ++ ws) = apply (apply d us) ws := by
  simp [apply]

/-- An address no write goes to keeps its value. -/
theorem apply_of_forall_ne : ∀ (ws : List (α × β)) (d : α → β) (x : α),
    (∀ w ∈ ws, w.1 ≠ x) → apply d ws x = d x
  | [], _, _, _ => rfl
  | w :: ws, d, x, h => by
    have hw : x ≠ w.1 := (h w List.mem_cons_self).symm
    rw [apply_cons, apply_of_forall_ne ws _ x fun v hv => h v (List.mem_cons_of_mem _ hv),
      Function.update_of_ne hw]

/-- An address that is written, and always with the same value, ends with it. -/
theorem apply_of_const : ∀ (ws : List (α × β)) (d : α → β) (x : α) (v : β),
    (∃ w ∈ ws, w.1 = x) → (∀ w ∈ ws, w.1 = x → w.2 = v) → apply d ws x = v
  | [], _, _, _, ⟨w, hw, _⟩, _ => by simp at hw
  | w :: ws, d, x, v, hex, hval => by
    have htl : ∀ u ∈ ws, u.1 = x → u.2 = v := fun u hu => hval u (List.mem_cons_of_mem _ hu)
    rw [apply_cons]
    by_cases hlater : ∃ u ∈ ws, u.1 = x
    · exact apply_of_const ws _ x v hlater htl
    · -- the head is the last write to `x`
      obtain ⟨u, hu, hux⟩ := hex
      rcases List.mem_cons.mp hu with rfl | hu
      · rw [apply_of_forall_ne ws _ x fun y hy hyx => hlater ⟨y, hy, hyx⟩, ← hux,
          Function.update_self]
        exact hval u List.mem_cons_self hux
      · exact absurd ⟨u, hu, hux⟩ hlater

end Writes
