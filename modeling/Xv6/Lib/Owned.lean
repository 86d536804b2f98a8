/-
# Blocks and the places that point at them

A store of numbered blocks with a mark on each, and a set of sites, each of
which holds the number of a block or 0. The blocks from `lo` to `hi` are given out; those
below `lo` are always marked. `Owned` says that every marked block of them is in
exactly one hand: it is what one site points at, or it is in flight (`F`), between its
allocation and its first reference or between its last reference and its release.

Allocating, attaching, detaching and releasing keep it.
-/
import Mathlib.Tactic

/-- Every marked block from `lo` to `hi` is pointed at by exactly one site or is in
`F`. -/
structure Owned {S : Type} (lo hi : ℕ) (A : S → ℕ) (mark : ℕ → Bool) (F : Set ℕ) : Prop where
  pos : 0 < lo
  low : ∀ b, b < lo → b < hi → mark b = true
  range : ∀ x, A x ≠ 0 → lo ≤ A x ∧ A x < hi
  inj : ∀ x y, A x ≠ 0 → A x = A y → x = y
  marked : ∀ b, lo ≤ b → b < hi → (mark b = true ↔ (∃ x, A x = b) ∨ b ∈ F)
  flight : ∀ b ∈ F, (lo ≤ b ∧ b < hi) ∧ ∀ x, A x ≠ b

namespace Owned

variable {S : Type} {lo hi b : ℕ} {A A' : S → ℕ} {mark mark' : ℕ → Bool} {F : Set ℕ} {x : S}

section

variable (h : Owned lo hi A mark F)
include h

theorem congr (hA : ∀ x, A' x = A x)
    (hm : ∀ b, b < hi → mark' b = mark b) : Owned lo hi A' mark' F := by
  obtain rfl : A' = A := funext hA
  exact ⟨h.pos, fun b hlo hhi => (hm b hhi).trans (h.low b hlo hhi), h.range, h.inj,
    fun b hlo hhi => by rw [hm b hhi]; exact h.marked b hlo hhi, h.flight⟩

theorem marked_of_mem (hb : b ∈ F) : mark b = true := by
  obtain ⟨⟨hlo, hhi⟩, -⟩ := h.flight b hb
  exact (h.marked b hlo hhi).mpr (.inr hb)

/-- An unmarked block is in nobody's hands. -/
theorem unmarked (hb : b < hi) (hm : mark b = false) : lo ≤ b ∧ (∀ x, A x ≠ b) ∧ b ∉ F := by
  have hlo : lo ≤ b := by
    by_contra hlt
    rw [h.low b (by omega) hb] at hm
    cases hm
  have hno := mt (h.marked b hlo hb).mpr (by simp [hm])
  rw [not_or, not_exists] at hno
  exact ⟨hlo, hno⟩

/-- A block is marked and taken in flight. -/
theorem alloc (hb : b < hi) (hm : mark b = false)
    (hm' : ∀ c, c < hi → mark' c = if c = b then true else mark c) :
    Owned lo hi A mark' (insert b F) := by
  obtain ⟨hge, hsite, hF⟩ := h.unmarked hb hm
  refine ⟨h.pos, fun c hlo hhi => ?_, h.range, h.inj, fun c hlo hhi => ?_, fun c hc => ?_⟩
  · rw [hm' c hhi, h.low c hlo hhi, ite_self]
  · rw [hm' c hhi]
    by_cases hcb : c = b
    · simp [hcb]
    · rw [if_neg hcb, h.marked c hlo hhi, Set.mem_insert_iff, or_iff_right hcb]
  · rcases Set.mem_insert_iff.mp hc with rfl | hc
    · exact ⟨⟨hge, hb⟩, hsite⟩
    · exact h.flight c hc

/-- A block in flight is pointed at. -/
theorem attach (hb : b ∈ F) (hx : A x = 0) (hx' : A' x = b)
    (hne : ∀ y, y ≠ x → A' y = A y) : Owned lo hi A' mark (F \ {b}) := by
  obtain ⟨hrange, hsite⟩ := h.flight b hb
  refine ⟨h.pos, h.low, fun y hy => ?_, fun y z hy hyz => ?_, fun c hlo hhi => ?_,
    fun c hc => ⟨(h.flight c hc.1).1, fun y hy => ?_⟩⟩
  · by_cases hyx : y = x
    · rw [hyx, hx']
      exact hrange
    · rw [hne y hyx] at hy ⊢
      exact h.range y hy
  · by_cases hyx : y = x
    · by_cases hzx : z = x
      · rw [hyx, hzx]
      · rw [hyx, hx', hne z hzx] at hyz
        exact absurd hyz.symm (hsite z)
    · rw [hne y hyx] at hy hyz
      by_cases hzx : z = x
      · rw [hzx, hx'] at hyz
        exact absurd hyz (hsite y)
      · rw [hne z hzx] at hyz
        exact h.inj y z hy hyz
  · have := h.pos
    rw [h.marked c hlo hhi]
    constructor
    · rintro (⟨y, hy⟩ | hc)
      · exact .inl ⟨y, by rw [hne y fun hyx => by rw [hyx, hx] at hy; omega, hy]⟩
      · by_cases hcb : c = b
        · exact .inl ⟨x, hx'.trans hcb.symm⟩
        · exact .inr ⟨hc, hcb⟩
    · rintro (⟨y, hy⟩ | hc)
      · by_cases hyx : y = x
        · rw [hyx, hx'] at hy
          exact .inr (hy ▸ hb)
        · exact .inl ⟨y, by rw [← hne y hyx, hy]⟩
      · exact .inr hc.1
  · by_cases hyx : y = x
    · rw [hyx, hx'] at hy
      exact hc.2 hy.symm
    · exact (h.flight c hc.1).2 y (by rw [← hne y hyx, hy])

/-- What the sites in `X` point at is taken in flight. -/
theorem detach {X : S → Prop} (hX : ∀ y, X y → A' y = 0) (hne : ∀ y, ¬X y → A' y = A y) :
    Owned lo hi A' mark (F ∪ { b | b ≠ 0 ∧ ∃ y, X y ∧ A y = b }) := by
  have hsub : ∀ y, A' y ≠ 0 → ¬X y ∧ A' y = A y := fun y hy =>
    have hXy : ¬X y := fun hXy => hy (hX y hXy)
    ⟨hXy, hne y hXy⟩
  refine ⟨h.pos, h.low, fun y hy => ?_, fun y z hy hyz => ?_, fun c hlo hhi => ?_, fun c hc => ?_⟩
  · have hy' := (hsub y hy).2
    rw [hy'] at hy ⊢
    exact h.range y hy
  · have hy' := (hsub y hy).2
    have hz' := (hsub z (hyz ▸ hy)).2
    exact h.inj y z (hy' ▸ hy) (hy'.symm.trans (hyz.trans hz'))
  · have := h.pos
    rw [h.marked c hlo hhi]
    constructor
    · rintro (⟨y, hy⟩ | hc)
      · by_cases hXy : X y
        · exact .inr (.inr ⟨by omega, y, hXy, hy⟩)
        · exact .inl ⟨y, by rw [hne y hXy, hy]⟩
      · exact .inr (.inl hc)
    · rintro (⟨y, hy⟩ | hc | ⟨-, y, -, hy⟩)
      · exact .inl ⟨y, by rw [← (hsub y (by omega)).2, hy]⟩
      · exact .inr hc
      · exact .inl ⟨y, hy⟩
  · rcases hc with hc | ⟨h0, y, hXy, rfl⟩
    · refine ⟨(h.flight c hc).1, fun y hy => ?_⟩
      have h0 : c ≠ 0 := by
        have := h.pos
        have := (h.flight c hc).1
        omega
      exact (h.flight c hc).2 y (by rw [← (hsub y (by omega)).2, hy])
    · refine ⟨h.range y h0, fun z hz => ?_⟩
      obtain ⟨hXz, hAz⟩ := hsub z (by omega)
      rw [hAz] at hz
      exact hXz (h.inj y z h0 hz.symm ▸ hXy)

/-- A block in flight is unmarked. -/
theorem release (hb : b ∈ F) (hm' : ∀ c, c < hi → mark' c = if c = b then false else mark c) :
    Owned lo hi A mark' (F \ {b}) := by
  obtain ⟨⟨hge, hlt⟩, hsite⟩ := h.flight b hb
  refine ⟨h.pos, fun c hlo hhi => ?_, h.range, h.inj, fun c hlo hhi => ?_, fun c hc => h.flight c hc.1⟩
  · rw [hm' c hhi, if_neg (by omega), h.low c hlo hhi]
  · rw [hm' c hhi]
    by_cases hcb : c = b
    · subst hcb
      simp [hsite]
    · rw [if_neg hcb, h.marked c hlo hhi, Set.mem_sdiff, Set.mem_singleton_iff, and_iff_left hcb]

end

end Owned
