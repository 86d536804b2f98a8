/-
# Ring buffers with wrapping counters

A buffer of `N` places, with a counter `r` of what has been taken and a counter `w` of what has been
put. The counters have 32 bits and wrap around; a place is a counter modulo `N`. If `N` divides `2 ^
32`, nothing is lost when they do: the content is what stands from `r` up to `w`.
-/
import Mathlib.Tactic

namespace Ring

variable {α : Type} {N : ℕ} [NeZero N] {data : Fin N → α} {r w : UInt32}

def slot (N : ℕ) [NeZero N] (i : UInt32) : Fin N := Fin.ofNat N i.toNat

/-- What has been put and not taken, oldest first. -/
def content (data : Fin N → α) (r w : UInt32) : List α :=
  (List.range (w - r).toNat).map fun i => data (slot N (r + UInt32.ofNat i))

theorem length_content (data : Fin N → α) (r w : UInt32) : (content data r w).length = (w - r).toNat := by
  rw [content, List.length_map, List.length_range]

theorem content_self (data : Fin N → α) (r : UInt32) : content data r r = [] := by
  rw [content, UInt32.sub_self]
  rfl

open UInt32 (toNat_sub toNat_add)

theorem slot_val (hN : N ∣ 2 ^ 32) (r : UInt32) (i : ℕ) :
    (slot N (r + UInt32.ofNat i)).val = (r.toNat + i) % N := by
  rw [slot, Fin.val_ofNat, toNat_add, UInt32.toNat_ofNat', Nat.mod_mod_of_dvd _ hN]
  rw [Nat.add_mod, Nat.mod_mod_of_dvd _ hN, ← Nat.add_mod]

theorem toNat_sub_add_one (h : (w - r).toNat + 1 < 2 ^ 32) : (w + 1 - r).toNat = (w - r).toNat + 1 := by
  have hw := w.toNat_lt
  have hr := r.toNat_lt
  rw [toNat_sub] at h ⊢
  rw [toNat_sub, toNat_add, show (1 : UInt32).toNat = 1 from rfl]
  omega

theorem toNat_sub_take (h : r ≠ w) : (w - r).toNat = (w - (r + 1)).toNat + 1 := by
  have hw := w.toNat_lt
  have hr := r.toNat_lt
  have hne : r.toNat ≠ w.toNat := fun he => h (UInt32.toNat_inj.mp he)
  rw [toNat_sub, toNat_sub, toNat_add, show (1 : UInt32).toNat = 1 from rfl]
  omega

/-- What stands up to `w` and from there on. -/
theorem content_append (data : Fin N → α) {e : UInt32} (h : (w - r).toNat ≤ (e - r).toNat) :
    content data r e = content data r w ++ content data w e := by
  have hsub : (e - r).toNat = (w - r).toNat + (e - w).toNat := by
    have hw := w.toNat_lt
    have hr := r.toNat_lt
    have he := e.toNat_lt
    rw [toNat_sub, toNat_sub] at h
    rw [toNat_sub, toNat_sub, toNat_sub]
    omega
  have hw : r + UInt32.ofNat (w - r).toNat = w := by rw [UInt32.ofNat_toNat, UInt32.add_comm,
    UInt32.sub_add_cancel]
  rw [content, hsub, List.range_add, List.map_append, List.map_map]
  refine congrArg₂ _ rfl (List.map_congr_left fun i _ => ?_)
  show data (slot N (r + UInt32.ofNat ((w - r).toNat + i))) = data (slot N (w + UInt32.ofNat i))
  rw [UInt32.ofNat_add, ← UInt32.add_assoc, hw]

/-- **Putting appends**, if there is room. -/
theorem content_put (hN : N ∣ 2 ^ 32) (hlt : N < 2 ^ 32) (h : (w - r).toNat < N) (b : α) :
    content (Function.update data (slot N w) b) r (w + 1) = content data r w ++ [b] := by
  have hw : w = r + UInt32.ofNat (w - r).toNat := by
    rw [UInt32.ofNat_toNat, UInt32.add_comm, UInt32.sub_add_cancel]
  rw [content, toNat_sub_add_one (by omega), List.range_succ, List.map_append, List.map_singleton]
  refine congrArg₂ _ (List.map_congr_left fun i hi => Function.update_of_ne (fun heq => ?_) ..) ?_
  · have hi := List.mem_range.mp hi
    have hval := congrArg Fin.val heq
    rw [hw, slot_val hN, slot_val hN] at hval
    have hmod : i % N = (w - r).toNat % N := Nat.ModEq.add_left_cancel' r.toNat hval
    rw [Nat.mod_eq_of_lt (by omega), Nat.mod_eq_of_lt h] at hmod
    omega
  · rw [← hw, Function.update_self]

/-- **Taking removes the oldest.** -/
theorem content_take (data : Fin N → α) (h : r ≠ w) :
    content data r w = data (slot N r) :: content data (r + 1) w := by
  rw [content, content, toNat_sub_take h, List.range_succ_eq_map, List.map_cons, List.map_map]
  refine congrArg₂ _ ?_ (List.map_congr_left fun i _ => ?_)
  · rw [show UInt32.ofNat 0 = 0 from rfl, UInt32.add_zero]
  · show data (slot N (r + UInt32.ofNat (i + 1))) = data (slot N (r + 1 + UInt32.ofNat i))
    rw [UInt32.ofNat_add, UInt32.add_assoc, UInt32.add_comm (UInt32.ofNat i)]
    rfl

end Ring
