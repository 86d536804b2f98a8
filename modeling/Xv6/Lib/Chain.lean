/-
# Chains of blocks

A block is an address and a size, in units of `u` bytes. Blocks are kept in a list by a pointer at
the address of each, with the size beside it: `Path ptr size a L z` says that the pointers go from
`a` through the blocks `L`, in order, to `z`, and that their sizes are those of `L`.

`Apart u lo L` says that the blocks are in increasing order above `lo`, with a gap before each of
them, and `cover u L x` counts the blocks that the byte `x` is in. To cut a block in two or to put
two adjacent ones together does not change the count.
-/
import Mathlib.Tactic

namespace Chain

open List (mem_cons_self mem_cons_of_mem not_mem_nil)

/-- The pointers go from `a` through `L` to `z`. -/
def Path (ptr size : ℕ → ℕ) : ℕ → List (ℕ × ℕ) → ℕ → Prop
  | a, [], z => ptr a = z
  | a, b :: L, z => ptr a = b.1 ∧ size b.1 = b.2 ∧ Path ptr size b.1 L z

/-- The last node of a path that begins at `a`. -/
def last : ℕ → List (ℕ × ℕ) → ℕ
  | a, [] => a
  | _, b :: L => last b.1 L

/-- Blocks that are not empty, in increasing order, with a gap before each. -/
def Apart (u : ℕ) : ℕ → List (ℕ × ℕ) → Prop
  | _, [] => True
  | lo, b :: L => lo < b.1 ∧ 0 < b.2 ∧ Apart u (b.1 + u * b.2) L

/-- The end of the last block, or `lo`. -/
def bound (u : ℕ) : ℕ → List (ℕ × ℕ) → ℕ
  | lo, [] => lo
  | _, b :: L => bound u (b.1 + u * b.2) L

/-- The byte `x` is in the block. -/
def inside (u x : ℕ) (b : ℕ × ℕ) : Bool := b.1 ≤ x ∧ x < b.1 + u * b.2

/-- The number of blocks that the byte `x` is in. -/
def cover (u : ℕ) (L : List (ℕ × ℕ)) (x : ℕ) : ℕ := L.countP (inside u x)

section

variable {ptr size ptr' size' : ℕ → ℕ} {u a z lo x : ℕ} {b : ℕ × ℕ} {L R : List (ℕ × ℕ)} {y : ℕ}

/-! ### Paths -/

theorem path_append : Path ptr size a (L ++ b :: R) z ↔ Path ptr size a L b.1 ∧ size b.1 = b.2 ∧
    Path ptr size b.1 R z := by
  induction L generalizing a with
  | nil => exact Iff.rfl
  | cons c L ih =>
    rw [List.cons_append, Path, ih, Path]
    tauto

theorem last_append : last a (L ++ b :: R) = last b.1 R := by
  induction L generalizing a with
  | nil => rfl
  | cons c L ih => exact ih

theorem Path.ptr_last (h : Path ptr size a L z) : ptr (last a L) = z := by
  induction L generalizing a with
  | nil => exact h
  | cons c L ih => exact ih h.2.2

theorem last_mem : last a L ∈ a :: L.map Prod.fst := by
  induction L generalizing a with
  | nil => exact mem_cons_self
  | cons c L ih => exact mem_cons_of_mem _ ih

/-- A path looks at its own nodes only, and may begin at any node that points to its first one. -/
theorem Path.congr {a' : ℕ} (h : Path ptr size a L z) (ha : ptr' a' = ptr a)
    (hp : ∀ y ∈ L.map Prod.fst, ptr' y = ptr y) (hs : ∀ y ∈ L.map Prod.fst, size' y = size y) :
    Path ptr' size' a' L z := by
  induction L generalizing a a' with
  | nil => exact ha.trans h
  | cons c L ih =>
    obtain ⟨h1, h2, h3⟩ := h
    refine ⟨ha.trans h1, (hs c.1 mem_cons_self).trans h2, ih h3 (hp c.1 mem_cons_self)
      (fun y hy => ?_) fun y hy => ?_⟩
    · exact hp y (mem_cons_of_mem _ hy)
    · exact hs y (mem_cons_of_mem _ hy)

/-- The last pointer is set. -/
theorem Path.setLast (h : Path ptr size a L z) (hn : (a :: L.map Prod.fst).Nodup) (z' : ℕ) :
    Path (Function.update ptr (last a L) z') size a L z' := by
  induction L generalizing a with
  | nil => exact Function.update_self ..
  | cons c L ih =>
    obtain ⟨h1, h2, h3⟩ := h
    obtain ⟨ha, hn⟩ := List.nodup_cons.mp hn
    have hne : a ≠ last c.1 L := fun heq => ha (heq ▸ last_mem)
    refine ⟨?_, h2, ih h3 hn⟩
    rw [last, Function.update_of_ne hne]
    exact h1

/-! ### Order -/

theorem apart_append : Apart u lo (L ++ R) ↔ Apart u lo L ∧ Apart u (bound u lo L) R := by
  induction L generalizing lo with
  | nil => exact ⟨fun h => ⟨trivial, h⟩, fun h => h.2⟩
  | cons c L ih =>
    rw [List.cons_append, Apart, ih, Apart, bound]
    tauto

theorem bound_append : bound u lo (L ++ R) = bound u (bound u lo L) R := by
  induction L generalizing lo with
  | nil => rfl
  | cons c L ih => exact ih

theorem Apart.le_bound (h : Apart u lo L) : lo ≤ bound u lo L := by
  induction L generalizing lo with
  | nil => exact le_refl _
  | cons c L ih =>
    have := ih h.2.2
    have := h.1
    rw [bound]
    omega

/-- A block of the list is above `lo`, and ends not after the last one. -/
theorem Apart.mem (h : Apart u lo L) (hb : b ∈ L) :
    lo < b.1 ∧ 0 < b.2 ∧ b.1 + u * b.2 ≤ bound u lo L := by
  obtain ⟨L1, L2, rfl⟩ := List.append_of_mem hb
  obtain ⟨h1, h2⟩ := apart_append.mp h
  have hle := h1.le_bound
  have hlt := h2.1
  have := h2.2.2.le_bound
  rw [bound_append, bound]
  exact ⟨by omega, h2.2.1, this⟩

theorem Apart.lt_of_mem (h : Apart u lo L) (hy : y ∈ L.map Prod.fst) : lo < y := by
  obtain ⟨b, hb, rfl⟩ := List.mem_map.mp hy
  exact (h.mem hb).1

/-- Where the blocks end below `x`, all nodes are below it. -/
theorem Apart.node_lt (hu : 0 < u) (h : Apart u lo L) (hlo : lo < x) (hx : bound u lo L ≤ x)
    (hy : y ∈ lo :: L.map Prod.fst) : y < x := by
  rcases List.mem_cons.mp hy with rfl | hy
  · exact hlo
  · obtain ⟨b, hb, rfl⟩ := List.mem_map.mp hy
    obtain ⟨-, hpos, hle⟩ := h.mem hb
    have := Nat.mul_pos hu hpos
    omega

theorem Apart.mono (h : Apart u lo L) {lo' : ℕ} (hle : lo' ≤ lo) : Apart u lo' L := by
  cases L with
  | nil => trivial
  | cons c L => exact ⟨lt_of_le_of_lt hle h.1, h.2⟩

theorem Apart.nodup (h : Apart u lo L) : (lo :: L.map Prod.fst).Nodup := by
  induction L generalizing lo with
  | nil => exact List.nodup_singleton _
  | cons c L ih =>
    have hc := h.2.2.mono (Nat.le_add_right c.1 (u * c.2))
    refine List.nodup_cons.mpr ⟨fun hmem => ?_, ih hc⟩
    obtain ⟨b, hb, heq⟩ := List.mem_map.mp hmem
    have := (h.mem hb).1
    omega

/-- The blocks before and after `y`, where no block begins at `y`. -/
theorem Apart.split (h : Apart u lo L) (hy : ∀ b ∈ L, b.1 ≠ y) :
    ∃ L1 L2, L = L1 ++ L2 ∧ (∀ b ∈ L1, b.1 < y) ∧ ∀ b ∈ L2, y < b.1 := by
  induction L generalizing lo with
  | nil => exact ⟨[], [], rfl, fun b hb => absurd hb not_mem_nil, fun b hb =>
      absurd hb not_mem_nil⟩
  | cons c L ih =>
    rcases Nat.lt_or_ge c.1 y with hlt | hge
    · obtain ⟨L1, L2, rfl, h1, h2⟩ := ih h.2.2 fun b hb => hy b (mem_cons_of_mem _ hb)
      refine ⟨c :: L1, L2, rfl, fun b hb => ?_, h2⟩
      rcases List.mem_cons.mp hb with rfl | hb
      · exact hlt
      · exact h1 b hb
    · have hc : y < c.1 := lt_of_le_of_ne hge (hy c mem_cons_self).symm
      refine ⟨[], c :: L, rfl, fun b hb => absurd hb not_mem_nil, fun b hb => ?_⟩
      rcases List.mem_cons.mp hb with rfl | hb
      · exact hc
      · have := (h.2.2.mem hb).1
        omega

/-- Where the blocks end below `y`, so does the last one. -/
theorem Apart.bound_le (hlo : lo ≤ y) (hy : ∀ b ∈ L, b.1 + u * b.2 ≤ y) : bound u lo L ≤ y := by
  induction L generalizing lo with
  | nil => exact hlo
  | cons c L ih => exact ih (hy c mem_cons_self) fun b hb => hy b (mem_cons_of_mem _ hb)

/-- The list ends where its last block does; the node before the list has no size. -/
theorem Path.bound_eq (h : Path ptr size a L z) (ha : size a = 0) :
    bound u a L = last a L + u * size (last a L) := by
  have hcons : ∀ (L : List (ℕ × ℕ)) (b : ℕ × ℕ), size b.1 = b.2 → Path ptr size b.1 L z →
      bound u (b.1 + u * b.2) L = last b.1 L + u * size (last b.1 L) := by
    intro L
    induction L with
    | nil =>
      intro b hb _
      rw [bound, last, hb]
    | cons c L ih => exact fun b _ h => ih c h.2.1 h.2.2
  cases L with
  | nil => rw [bound, last, ha, Nat.mul_zero, Nat.add_zero]
  | cons c L => exact hcons L c h.2.1 h.2.2

/-! ### Bytes of blocks -/

theorem inside_iff : inside u x b = true ↔ b.1 ≤ x ∧ x < b.1 + u * b.2 := by
  unfold inside
  rw [decide_eq_true_iff]

theorem cover_nil : cover u [] x = 0 := rfl

theorem cover_cons : cover u (b :: L) x = cover u L x + if b.1 ≤ x ∧ x < b.1 + u * b.2 then 1 else 0 := by
  unfold cover
  rw [List.countP_cons]
  simp only [inside_iff]

theorem cover_append : cover u (L ++ R) x = cover u L x + cover u R x := List.countP_append

theorem cover_pos : 0 < cover u L x ↔ ∃ b ∈ L, b.1 ≤ x ∧ x < b.1 + u * b.2 := by
  unfold cover
  rw [List.countP_pos_iff]
  simp only [inside_iff]

theorem cover_head : cover u (b :: L) x = cover u [b] x + cover u L x := by
  rw [← List.singleton_append, cover_append]

theorem Apart.cover_node (hu : 0 < u) (h : Apart u lo L) (hy : y ∈ L.map Prod.fst) :
    0 < cover u L y := by
  obtain ⟨b, hb, rfl⟩ := List.mem_map.mp hy
  have := Nat.mul_pos hu (h.mem hb).2.1
  exact cover_pos.mpr ⟨b, hb, le_refl _, by omega⟩

/-- Two adjacent blocks make one. -/
theorem cover_join (a n m : ℕ) :
    cover u (L ++ (a, n + m) :: R) x = cover u (L ++ (a, n) :: (a + u * n, m) :: R) x := by
  rw [cover_append, cover_append, cover_cons, cover_cons, cover_cons]
  dsimp only
  rw [Nat.mul_add]
  split_ifs <;> omega

/-- A byte is in one block at most, so two blocks do not meet. -/
theorem disjoint_of_cover {c : ℕ × ℕ} (hu : 0 < u) (h : ∀ x, cover u L x + cover u R x ≤ 1)
    (hb : b ∈ L) (hc : c ∈ R) (hbn : 0 < b.2) (hcn : 0 < c.2) :
    b.1 + u * b.2 ≤ c.1 ∨ c.1 + u * c.2 ≤ b.1 := by
  by_contra hno
  rw [not_or, Nat.not_le, Nat.not_le] at hno
  have hb' := Nat.mul_pos hu hbn
  have hc' := Nat.mul_pos hu hcn
  have h1 : 0 < cover u L (max b.1 c.1) := cover_pos.mpr ⟨b, hb, le_max_left _ _, by omega⟩
  have h2 : 0 < cover u R (max b.1 c.1) := cover_pos.mpr ⟨c, hc, le_max_right _ _, by omega⟩
  have := h (max b.1 c.1)
  omega

theorem pairwise_of_cover (hu : 0 < u) (h : ∀ x, cover u L x ≤ 1) (hpos : ∀ b ∈ L, 0 < b.2) :
    L.Pairwise fun b c => b.1 + u * b.2 ≤ c.1 ∨ c.1 + u * c.2 ≤ b.1 := by
  induction L with
  | nil => exact List.Pairwise.nil
  | cons b L ih =>
    refine List.pairwise_cons.mpr ⟨fun c hc => ?_, ih (fun x => ?_) fun c hc =>
      hpos c (mem_cons_of_mem _ hc)⟩
    · exact disjoint_of_cover hu (fun x => cover_head (L := L) ▸ h x) mem_cons_self hc
        (hpos b mem_cons_self)
        (hpos c (mem_cons_of_mem _ hc))
    · have := h x
      rw [cover_head] at this
      omega

end

end Chain
