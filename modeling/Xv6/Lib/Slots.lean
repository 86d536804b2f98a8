/-
# A map in slots

A table of `n` slots, each empty or with a key and a value, is a finite map if no key is in two
slots: `lookup` goes through the slots in order and returns the value of the first with the key, and
the slot. A new key goes into any empty slot or behind the last one, and a key goes when its slot is
cleared.
-/
import Mathlib.Tactic

namespace Slots

variable {κ ν : Type} [DecidableEq κ]

/-- The first slot with the key. -/
def find (t : ℕ → Option (κ × ν)) (n : ℕ) (a : κ) : Option ℕ :=
  (List.range n).find? fun j => decide ((t j).map Prod.fst = some a)

/-- The value of the key, and its slot. -/
def lookup (t : ℕ → Option (κ × ν)) (n : ℕ) (a : κ) : Option (ν × ℕ) :=
  (find t n a).bind fun j => (t j).map fun e => (e.2, j)

/-- No key is in two slots. -/
def Distinct (t : ℕ → Option (κ × ν)) (n : ℕ) : Prop :=
  ∀ i j a v w, i < n → j < n → t i = some (a, v) → t j = some (a, w) → i = j

/-- The slot for a new key: the first empty one, or the one behind the last. -/
def firstFree (t : ℕ → Option (κ × ν)) (n : ℕ) : ℕ := ((List.range n).find? fun j => (t j).isNone).getD n

/-- From `n` slots `t` to `n'` slots `t'`: slot `j`, which is empty or new, has the key `a` now. -/
structure Put (t : ℕ → Option (κ × ν)) (n : ℕ) (t' : ℕ → Option (κ × ν)) (n' : ℕ) (j : ℕ) (a : κ)
    (v : ν) : Prop where
  le : n ≤ n'
  lt : j < n'
  free : j < n → t j = none
  here : t' j = some (a, v)
  other : ∀ i, i < n' → i ≠ j → i < n ∧ t' i = t i

/-- From `t` to `t'`: slot `j` is empty now. -/
structure Clear (t : ℕ → Option (κ × ν)) (n : ℕ) (t' : ℕ → Option (κ × ν)) (j : ℕ) : Prop where
  here : t' j = none
  other : ∀ i, i < n → i ≠ j → t' i = t i

variable {t t' : ℕ → Option (κ × ν)} {n n' i j : ℕ} {a b : κ} {v : ν}

omit [DecidableEq κ] in
theorem key_eq_some {x : Option (κ × ν)} : x.map Prod.fst = some a ↔ ∃ v, x = some (a, v) := by
  cases x with
  | none => simp
  | some e =>
    obtain ⟨b, w⟩ := e
    simp

omit [DecidableEq κ] in
theorem distinct_of_keys (h : ∀ i < n, ∀ j < n, (t i).isSome → (t i).map Prod.fst =
    (t j).map Prod.fst → i = j) : Distinct t n := by
  intro i j a v w hi hj hti htj
  exact h i hi j hj (by rw [hti]; rfl) (by rw [hti, htj]; rfl)

theorem of_find (h : find t n a = some i) : i < n ∧ ∃ v, t i = some (a, v) := by
  unfold find at h
  refine ⟨List.mem_range.mp (List.mem_of_find?_eq_some h), key_eq_some.mp ?_⟩
  have := List.find?_some h
  simpa using this

theorem lookup_eq_none : lookup t n a = none ↔ ∀ j v, j < n → t j ≠ some (a, v) := by
  constructor
  · intro h j v hj ht
    have hfind : find t n a ≠ none := fun hnone => by
      have := List.find?_eq_none.mp hnone j (List.mem_range.mpr hj)
      simp [ht] at this
    obtain ⟨i, hi⟩ := Option.ne_none_iff_exists'.mp hfind
    obtain ⟨-, w, hw⟩ := of_find hi
    rw [lookup, hi, Option.bind_some, hw] at h
    cases h
  · intro h
    have hnone : find t n a = none := by
      refine List.find?_eq_none.mpr fun j hj hkey => ?_
      obtain ⟨w, hw⟩ := key_eq_some.mp (of_decide_eq_true hkey)
      exact h j w (List.mem_range.mp hj) hw
    rw [lookup, hnone]
    rfl

/-- **What a lookup finds.** -/
theorem lookup_eq_some (h : Distinct t n) : lookup t n a = some (v, j) ↔ j < n ∧ t j = some (a, v) := by
  have hsound : ∀ v j, lookup t n a = some (v, j) → j < n ∧ t j = some (a, v) := fun v j hl => by
    rw [lookup] at hl
    obtain ⟨i, hi, hi'⟩ := Option.bind_eq_some_iff.mp hl
    obtain ⟨e, he, heq⟩ := Option.map_eq_some_iff.mp hi'
    obtain ⟨rfl, rfl⟩ := Prod.mk.inj heq
    obtain ⟨hlt, w, hw⟩ := of_find hi
    refine ⟨hlt, ?_⟩
    rw [hw] at he ⊢
    rw [← Option.some.inj he]
  refine ⟨hsound v j, fun ⟨hj, ht⟩ => ?_⟩
  rcases hl : lookup t n a with _ | ⟨w, i⟩
  · exact absurd ht (lookup_eq_none.mp hl j v hj)
  · obtain ⟨hi, hw⟩ := hsound w i hl
    obtain rfl := h i j a w v hi hj hw ht
    rw [ht] at hw
    rw [(Prod.mk.inj (Option.some.inj hw)).2]

/-- Two tables with the same keys and values have the same lookups. -/
theorem lookup_ext (h : Distinct t n) (h' : Distinct t' n')
    (heq : ∀ j v, (j < n' ∧ t' j = some (a, v)) ↔ (j < n ∧ t j = some (a, v))) :
    lookup t' n' a = lookup t n a := by
  ext ⟨v, j⟩
  rw [lookup_eq_some h', lookup_eq_some h, heq]

omit [DecidableEq κ] in
theorem firstFree_spec (t : ℕ → Option (κ × ν)) (n : ℕ) : (∀ i, i < firstFree t n → t i ≠ none) ∧
    (firstFree t n < n ∧ t (firstFree t n) = none ∨ firstFree t n = n) := by
  unfold firstFree
  rcases hf : (List.range n).find? (fun j => (t j).isNone) with _ | j
  · refine ⟨fun i hi h => ?_, .inr rfl⟩
    have := List.find?_eq_none.mp hf i (List.mem_range.mpr hi)
    simp [h] at this
  · have hj := List.mem_range.mp (List.mem_of_find?_eq_some hf)
    refine ⟨fun i hi h => ?_, .inl ⟨hj, by simpa using List.find?_some hf⟩⟩
    obtain ⟨-, m, hm, hget, hall⟩ := List.find?_eq_some_iff_getElem.mp hf
    rw [List.getElem_range] at hget
    have := hall i (by rw [hget]; exact hi)
    simp [h] at this

namespace Put

/-- The key is new: no slot has it twice. -/
theorem distinct (h : Put t n t' n' j a v) (hd : Distinct t n) (hnew : lookup t n a = none) :
    Distinct t' n' := by
  intro i k b x y hi hk hti htk
  by_cases hij : i = j
  · by_cases hkj : k = j
    · rw [hij, hkj]
    · obtain ⟨hkn, heq⟩ := h.other k hk hkj
      rw [hij, h.here] at hti
      rw [← (Prod.mk.inj (Option.some.inj hti)).1, heq] at htk
      exact absurd htk (lookup_eq_none.mp hnew k y hkn)
  · obtain ⟨hin, heq⟩ := h.other i hi hij
    by_cases hkj : k = j
    · rw [hkj, h.here] at htk
      rw [← (Prod.mk.inj (Option.some.inj htk)).1, heq] at hti
      exact absurd hti (lookup_eq_none.mp hnew i x hin)
    · obtain ⟨hkn, heq'⟩ := h.other k hk hkj
      exact hd i k b x y hin hkn (heq ▸ hti) (heq' ▸ htk)

/-- **A new key.** -/
theorem lookup (h : Put t n t' n' j a v) (hd : Distinct t n) (hnew : lookup t n a = none) (b : κ) :
    Slots.lookup t' n' b = if b = a then some (v, j) else Slots.lookup t n b := by
  have hd' := h.distinct hd hnew
  split_ifs with hb
  · rw [hb, lookup_eq_some hd']
    exact ⟨h.lt, h.here⟩
  · refine lookup_ext hd hd' fun i w => ?_
    by_cases hij : i = j
    · rw [hij, h.here]
      refine iff_of_false (fun hx => hb (Prod.mk.inj (Option.some.inj hx.2)).1.symm) fun hx => ?_
      rw [h.free hx.1] at hx
      cases hx.2
    · constructor
      · rintro ⟨hi, ht⟩
        obtain ⟨hin, heq⟩ := h.other i hi hij
        exact ⟨hin, heq ▸ ht⟩
      · rintro ⟨hi, ht⟩
        have hi' := lt_of_lt_of_le hi h.le
        exact ⟨hi', (h.other i hi' hij).2 ▸ ht⟩

end Put

namespace Clear

omit [DecidableEq κ] in
theorem distinct (h : Clear t n t' j) (hd : Distinct t n) : Distinct t' n := by
  intro i k b x y hi hk hti htk
  have hne : ∀ i w, t' i = some (b, w) → i ≠ j := fun i w ht hij => by
    rw [hij, h.here] at ht
    cases ht
  rw [h.other i hi (hne i x hti)] at hti
  rw [h.other k hk (hne k y htk)] at htk
  exact hd i k b x y hi hk hti htk

/-- **The key of the slot is gone.** -/
theorem lookup (h : Clear t n t' j) (hd : Distinct t n) (hj : j < n) (ht : t j = some (a, v)) (b : κ) :
    Slots.lookup t' n b = if b = a then none else Slots.lookup t n b := by
  have hd' := h.distinct hd
  split_ifs with hb
  · rw [hb, lookup_eq_none]
    intro i w hi hti
    have hij : i ≠ j := fun hij => by
      rw [hij, h.here] at hti
      cases hti
    rw [h.other i hi hij] at hti
    exact hij (hd i j a w v hi hj hti ht)
  · refine lookup_ext hd hd' fun i w => ?_
    by_cases hij : i = j
    · rw [hij, h.here, ht]
      exact iff_of_false (fun hx => by cases hx.2) fun hx =>
        hb (Prod.mk.inj (Option.some.inj hx.2)).1.symm
    · refine and_congr_right fun hi => ?_
      rw [h.other i hi hij]

end Clear

end Slots
