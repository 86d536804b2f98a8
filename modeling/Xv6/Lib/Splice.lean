/-
# Lists with a part replaced

`l.splice off src` is what a write of `src` at position `off` makes of a list: the elements from
`off` on are those of `src`, and the list is longer if it has to be. Two writes one after the other,
the second where the first ends, are one write.
-/
import Mathlib.Tactic

namespace List

variable {α : Type} {l src src' : List α} {off : ℕ}

/-- `l` with the elements from `off` on replaced by those of `src`. -/
def splice (l : List α) (off : ℕ) (src : List α) :
    List α := l.take off ++ src ++ l.drop (off + src.length)

theorem length_splice (h : off ≤ l.length) :
    (l.splice off src).length = max l.length (off + src.length) := by
  unfold splice
  rw [length_append, length_append, length_take, length_drop]
  omega

theorem getElem?_splice (h : off ≤ l.length) (x : ℕ) :
    (l.splice off src)[x]? = if off ≤ x ∧ x < off + src.length then src[x - off]? else l[x]? := by
  have htake : (l.take off).length = off := by
    rw [length_take]
    omega
  unfold splice
  rw [append_assoc, getElem?_append, htake]
  split
  · rename_i hx
    rw [if_neg (by omega), getElem?_take_of_lt hx]
  · rw [getElem?_append]
    split
    · rename_i hx
      rw [if_pos (by omega)]
    · rw [if_neg (by omega), getElem?_drop]
      congr 1
      omega

theorem splice_nil (l : List α) (off : ℕ) : l.splice off [] = l := by
  unfold splice
  rw [append_nil, length_nil, Nat.add_zero, take_append_drop]

/-- A list is a splice if it is one element by element. -/
theorem eq_splice {l' : List α} (h : off ≤ l.length) (hlen : l'.length = max l.length (off + src.length))
    (hget : ∀ x, x < l'.length →
      l'[x]? = if off ≤ x ∧ x < off + src.length then src[x - off]? else l[x]?) :
    l' = l.splice off src := by
  refine ext_getElem? fun x => ?_
  rw [getElem?_splice h]
  by_cases hx : x < l'.length
  · exact hget x hx
  · rw [getElem?_eq_none (by omega), if_neg (by omega), getElem?_eq_none (by omega)]

theorem splice_append (h : off ≤ l.length) :
    (l.splice off src).splice (off + src.length) src' = l.splice off (src ++ src') := by
  have hlen : (l.splice off src).length = max l.length (off + src.length) := length_splice h
  refine eq_splice h ?_ fun x _ => ?_
  · rw [length_splice (by omega), hlen, length_append]
    omega
  · rw [getElem?_splice (by omega), getElem?_splice h, length_append, getElem?_append]
    by_cases h1 : off + src.length ≤ x ∧ x < off + src.length + src'.length
    · rw [if_pos h1, if_pos (by omega), if_neg (by omega), Nat.sub_sub]
    · rw [if_neg h1]
      by_cases h2 : off ≤ x ∧ x < off + src.length
      · rw [if_pos h2, if_pos (by omega), if_pos (by omega)]
      · rw [if_neg h2, if_neg (by omega)]

end List
