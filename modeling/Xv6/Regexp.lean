/-
# Regular expressions of grep

The matcher of grep.c. `matchhere` and `matchstar` call each other, `matchhere` with less of the
expression and `matchstar` with less of the text, so they return on every input.

An expression is a list of items, read from left to right (`items`): a character with a `*` after
it, or a character. A `$` that is the last character is no item; it asks for the end of the text. A
`^` that is the first one is taken off by `match`. `lang` is the language of a list of items, in
terms of the operations on languages.
-/
import Mathlib.Computability.Language
import Xv6.Cstring

namespace Xv6.Regexp

/-- The characters `*`, `$`, `.` and `^`. -/
def STAR : UInt8 := 42
def DOLLAR : UInt8 := 36
def DOT : UInt8 := 46
def CARET : UInt8 := 94

theorem ne_nil_of_byte0 {s : Str} (h : byte0 s ≠ 0) : s ≠ [] := fun hs => h (by rw [hs]; rfl)

theorem length_tail_lt {s : Str} (h : byte0 s ≠ 0) : s.tail.length < s.length := by
  have := List.length_pos_iff.mpr (ne_nil_of_byte0 h)
  rw [List.length_tail]
  omega

mutual

/-- Search for re at beginning of text. -/
def matchhere (re text : Str) : Bool :=
  if byte0 re = 0 then true
  else if byte0 re.tail = STAR then matchstar (byte0 re) re.tail.tail text
  else if byte0 re = DOLLAR ∧ byte0 re.tail = 0 then byte0 text = 0
  else if byte0 text ≠ 0 ∧ (byte0 re = DOT ∨ byte0 re = byte0 text) then matchhere re.tail text.tail
  else false
termination_by (re.length, 0, text.length)
decreasing_by
  · have hlt : re.tail.length < re.length := length_tail_lt ‹_›
    rw [Prod.lex_def]
    left
    simp only [List.length_tail] at hlt ⊢
    omega
  · rw [Prod.lex_def]
    exact .inl (length_tail_lt ‹_›)

/-- Search for c*re at beginning of text. -/
def matchstar (c : UInt8) (re text : Str) : Bool :=
  if matchhere re text then true
  else if byte0 text ≠ 0 ∧ (byte0 text = c ∨ c = DOT) then matchstar c re text.tail
  else false
termination_by (re.length, 1, text.length)
decreasing_by
  · rw [Prod.lex_def, Prod.lex_def]
    exact .inr ⟨rfl, .inl Nat.zero_lt_one⟩
  · have hc : byte0 text ≠ 0 ∧ (byte0 text = c ∨ c = DOT) := ‹_›
    rw [Prod.lex_def, Prod.lex_def]
    exact .inr ⟨rfl, .inr ⟨rfl, length_tail_lt hc.1⟩⟩

end

/-- The loop of `match`. -/
def matchFrom (re : Str) : Str → Bool
  | [] => matchhere re []
  | c :: text =>
    if matchhere re (c :: text) then true
    else if c ≠ 0 then matchFrom re text
    else false

/-- `match` -/
def matchText (re text : Str) : Bool :=
  if byte0 re = CARET then matchhere re.tail text else matchFrom re text

/-! ### The language -/

/-- A character of the expression, or one with a `*` after it. -/
inductive Item where
  | one (c : UInt8)
  | star (c : UInt8)
  deriving DecidableEq

/-- The items of an expression without `^`, and whether a `$` comes after them. -/
def items : Str → List Item × Bool
  | [] => ([], false)
  | [c] => if c = DOLLAR then ([], true) else ([.one c], false)
  | c :: d :: re =>
    if d = STAR then ((.star c) :: (items re).1, (items re).2)
    else ((.one c) :: (items (d :: re)).1, (items (d :: re)).2)

/-- The texts of one character that `c` stands for. -/
def single (c : UInt8) : Language UInt8 := { w | ∃ x, w = [x] ∧ (c = DOT ∨ c = x) }

open Computability in
/-- The language of an item. -/
def Item.lang : Item → Language UInt8
  | .one c => single c
  | .star c => (single c)∗

/-- The language of a list of items. -/
def lang : List Item → Language UInt8
  | [] => 1
  | i :: is => i.lang * lang is

/-- An expression: whether it begins with `^`, its items, and whether it ends with `$`. -/
structure Pattern where
  caret : Bool
  items : List Item
  dollar : Bool

def pattern (re : Str) : Pattern :=
  if byte0 re = CARET then ⟨true, (items re.tail).1, (items re.tail).2⟩ else ⟨false, (items re).1,
    (items re).2⟩

/-- Some part of `text` is in the language, at the start or at the end if the expression asks for
it. -/
def Pattern.Matches (P : Pattern) (text : Str) : Prop :=
  ∃ pre w post, text = pre ++ w ++ post ∧ w ∈ lang P.items ∧ (P.caret = true → pre = []) ∧
    (P.dollar = true → post = [])

/-- `text` begins with a text of the language of `re`, and ends there if `re` ends with a `$`. -/
def Begins (re text : Str) : Prop :=
  ∃ w post, text = w ++ post ∧ w ∈ lang (items re).1 ∧ ((items re).2 = true → post = [])

section

variable {c x : UInt8} {re text w : Str} {i : Item} {is : List Item}

/-! ### Items -/

theorem mem_lang_one : w ∈ lang (.one c :: is) ↔ ∃ x v, w = x :: v ∧ (c = DOT ∨ c = x) ∧ v ∈ lang is := by
  rw [lang, Language.mem_mul]
  constructor
  · rintro ⟨_, ⟨x, rfl, hx⟩, v, hv, rfl⟩
    exact ⟨x, v, rfl, hx, hv⟩
  · rintro ⟨x, v, rfl, hx, hv⟩
    exact ⟨[x], ⟨x, rfl, hx⟩, v, hv, rfl⟩

open Computability in
/-- A text of `c*` is empty, or a character and a text of `c*`. -/
theorem mem_star : w ∈ (single c)∗ ↔ w = [] ∨ ∃ x v, w = x :: v ∧ (c = DOT ∨ c = x) ∧
    v ∈ (single c)∗ := by
  have h : w ∈ (single c)∗ ↔
    w ∈ 1 + single c * (single c)∗ := by rw [Language.one_add_self_mul_kstar_eq_kstar]
  rw [h, Language.mem_add, Language.mem_one, Language.mem_mul]
  refine or_congr_right ?_
  constructor
  · rintro ⟨_, ⟨x, rfl, hx⟩, v, hv, rfl⟩
    exact ⟨x, v, rfl, hx, hv⟩
  · rintro ⟨x, v, rfl, hx, hv⟩
    exact ⟨[x], ⟨x, rfl, hx⟩, v, hv, rfl⟩

/-- A text of `c*` and the rest is one of the rest, or it has a character of `c` before it. -/
theorem mem_lang_star : w ∈ lang (.star c :: is) ↔
    w ∈ lang is ∨ ∃ x v, w = x :: v ∧ (c = DOT ∨ c = x) ∧ v ∈ lang (.star c :: is) := by
  simp only [lang, Item.lang, Language.mem_mul]
  constructor
  · rintro ⟨a, ha, b, hb, rfl⟩
    rcases mem_star.mp ha with rfl | ⟨x, v, rfl, hx, hv⟩
    · exact .inl hb
    · exact .inr ⟨x, v ++ b, rfl, hx, v, hv, b, hb, rfl⟩
  · rintro (hw | ⟨x, _, rfl, hx, v, hv, b, hb, rfl⟩)
    · exact ⟨[], mem_star.mpr (.inl rfl), w, hw, rfl⟩
    · exact ⟨x :: v, mem_star.mpr (.inr ⟨x, v, rfl, hx, hv⟩), b, hb, rfl⟩

/-! ### The beginning of a text -/

theorem begins_nil (text : Str) : Begins [] text := ⟨[], text, rfl, rfl, fun h => by cases h⟩

theorem begins_dollar : Begins [DOLLAR] text ↔ text = [] := by
  constructor
  · rintro ⟨w, post, rfl, hw, hpost⟩
    have hw : w ∈ (1 : Language UInt8) := hw
    rw [Language.mem_one] at hw
    rw [hw, hpost rfl]
    rfl
  · rintro rfl
    exact ⟨[], [], rfl, rfl, fun _ => rfl⟩

/-- A character that is an item. -/
theorem begins_one (hstar : byte0 re ≠ STAR) (hdollar : ¬(c = DOLLAR ∧ re = [])) :
    Begins (c :: re) text ↔ ∃ x t, text = x :: t ∧ (c = DOT ∨ c = x) ∧ Begins re t := by
  have hitems : items (c :: re) = (.one c :: (items re).1, (items re).2) := by
    cases re with
    | nil => simp [items, show c ≠ DOLLAR from fun h => hdollar ⟨h, rfl⟩]
    | cons d re =>
      have hd : d ≠ STAR := hstar
      simp [items, hd]
  unfold Begins
  simp only [hitems, mem_lang_one]
  constructor
  · rintro ⟨_, post, rfl, ⟨x, v, rfl, hx, hv⟩, hpost⟩
    exact ⟨x, v ++ post, rfl, hx, v, post, rfl, hv, hpost⟩
  · rintro ⟨x, _, rfl, hx, v, post, rfl, hv, hpost⟩
    exact ⟨x :: v, post, rfl, ⟨x, v, rfl, hx, hv⟩, hpost⟩

theorem begins_star : Begins (c :: STAR :: re) text ↔
    Begins re text ∨ ∃ x t, text = x :: t ∧ (c = DOT ∨ c = x) ∧ Begins (c :: STAR :: re) t := by
  have hitems : items (c :: STAR :: re) = (.star c :: (items re).1, (items re).2) := by simp [items]
  unfold Begins
  simp only [hitems]
  constructor
  · rintro ⟨w, post, rfl, hw, hpost⟩
    rcases mem_lang_star.mp hw with hw | ⟨x, v, rfl, hx, hv⟩
    · exact .inl ⟨w, post, rfl, hw, hpost⟩
    · exact .inr ⟨x, v ++ post, rfl, hx, v, post, rfl, hv, hpost⟩
  · rintro (⟨w, post, rfl, hw, hpost⟩ | ⟨x, _, rfl, hx, v, post, rfl, hv, hpost⟩)
    · exact ⟨w, post, rfl, mem_lang_star.mpr (.inl hw), hpost⟩
    · exact ⟨x :: v, post, rfl, mem_lang_star.mpr (.inr ⟨x, v, rfl, hx, hv⟩), hpost⟩

/-! ### The matcher -/

theorem byte0_eq_zero (h : 0 ∉ text) : byte0 text = 0 ↔ text = [] := by
  cases text with
  | nil => exact iff_of_true rfl rfl
  | cons x t =>
    refine iff_of_false (fun h0 => h ?_) (by simp)
    rw [show x = 0 from h0]
    exact List.mem_cons_self

theorem notMem_tail (h : 0 ∉ text) : 0 ∉ text.tail := fun hmem => h (List.mem_of_mem_tail hmem)

/-- `matchstar`, given what `matchhere` does after it. The loop is over the text. -/
theorem matchstar_iff (hre : ∀ t, 0 ∉ t → (matchhere re t = true ↔ Begins re t)) (ht : 0 ∉ text) :
    matchstar c re text = true ↔ Begins (c :: STAR :: re) text := by
  induction text with
  | nil =>
    unfold matchstar
    rw [begins_star, ← hre [] ht]
    simp [byte0]
  | cons x t ih =>
    have hx : x ≠ 0 := fun h0 => ht (by rw [h0]; exact List.mem_cons_self)
    unfold matchstar
    rw [begins_star, ← hre (x :: t) ht]
    by_cases hhere : matchhere re (x :: t) = true
    · simp [hhere]
    · rw [if_neg hhere, or_iff_right hhere]
      by_cases hc : x = c ∨ c = DOT
      · rw [if_pos ⟨hx, hc⟩, List.tail_cons, ih (notMem_tail ht)]
        constructor
        · intro hb
          exact ⟨x, t, rfl, hc.symm.imp id Eq.symm, hb⟩
        · rintro ⟨y, u, heq, -, hb⟩
          cases heq
          exact hb
      · rw [if_neg fun h => hc h.2]
        refine iff_of_false (by simp) ?_
        rintro ⟨y, u, heq, hy, -⟩
        cases heq
        exact hc (hy.symm.imp Eq.symm id)

theorem matchhere_one (hc : c ≠ 0) (hstar : byte0 re ≠ STAR)
    (hdollar : ¬(c = DOLLAR ∧ byte0 re = 0)) (ht : 0 ∉ text)
    (hre : ∀ t, 0 ∉ t → (matchhere re t = true ↔ Begins re t)) : matchhere (c :: re) text = true ↔
    ∃ x t, text = x :: t ∧ (c = DOT ∨ c = x) ∧ Begins re t := by
  have h0 : byte0 (c :: re) ≠ 0 := hc
  have h1 : byte0 (c :: re).tail ≠ STAR := hstar
  have h2 : ¬(byte0 (c :: re) = DOLLAR ∧ byte0 (c :: re).tail = 0) := hdollar
  rw [matchhere, if_neg h0, if_neg h1, if_neg h2]
  cases text with
  | nil => simp [byte0]
  | cons x t =>
    have hx : x ≠ 0 := fun h0 => ht (by rw [h0]; exact List.mem_cons_self)
    show (if x ≠ 0 ∧ (c = DOT ∨ c = x) then matchhere re t else false) = true ↔ _
    by_cases hcx : c = DOT ∨ c = x
    · rw [if_pos ⟨hx, hcx⟩, hre t (notMem_tail ht)]
      constructor
      · exact fun hb => ⟨x, t, rfl, hcx, hb⟩
      · rintro ⟨y, u, heq, -, hb⟩
        cases heq
        exact hb
    · rw [if_neg fun h => hcx h.2]
      refine iff_of_false (by simp) ?_
      rintro ⟨y, u, heq, hy, -⟩
      cases heq
      exact hcx hy

theorem matchhere_iff : ∀ (re text : Str), 0 ∉ re → 0 ∉ text → (matchhere re text = true ↔ Begins re text)
  | [], text, _, _ => by
    unfold matchhere
    exact iff_of_true rfl (begins_nil text)
  | [c], text, hre, ht => by
    have hc : c ≠ 0 := fun h0 => hre (by rw [h0]; exact List.mem_cons_self)
    by_cases hd : c = DOLLAR
    · rw [hd, begins_dollar, ← byte0_eq_zero ht]
      have h0 : byte0 [DOLLAR] ≠ 0 := by decide
      have h1 : byte0 [DOLLAR].tail ≠ STAR := by decide
      rw [matchhere, if_neg h0, if_neg h1, if_pos ⟨rfl, rfl⟩, decide_eq_true_iff]
    · rw [matchhere_one hc (by decide) (fun h => hd h.1) ht fun t ht => matchhere_iff [] t (by simp) ht,
        begins_one (by decide) fun h => hd h.1]
  | c :: d :: re, text, hre, ht => by
    have hc : c ≠ 0 := fun h0 => hre (by rw [h0]; exact List.mem_cons_self)
    have hd : d ≠ 0 := fun h0 => hre (by rw [h0]; exact List.mem_cons_of_mem _ List.mem_cons_self)
    by_cases hs : d = STAR
    · rw [hs, ← matchstar_iff (fun t ht => matchhere_iff re t (notMem_tail (notMem_tail hre)) ht)
        ht, matchhere]
      simp [byte0, hc]
    · have hs' : byte0 (d :: re) ≠ STAR := hs
      have hd' : ¬(c = DOLLAR ∧ byte0 (d :: re) = 0) := fun h => hd h.2
      rw [matchhere_one hc hs' hd' ht fun t ht => matchhere_iff (d :: re) t (notMem_tail hre) ht,
        begins_one hs' fun h => by cases h.2]

theorem matchFrom_iff (hre : 0 ∉ re) : ∀ text : Str, 0 ∉ text →
    (matchFrom re text = true ↔ ∃ pre rest, text = pre ++ rest ∧ Begins re rest)
  | [], ht => by
    rw [matchFrom, matchhere_iff re [] hre ht]
    constructor
    · exact fun hb => ⟨[], [], rfl, hb⟩
    · rintro ⟨pre, rest, heq, hb⟩
      rw [(List.append_eq_nil_iff.mp heq.symm).2] at hb
      exact hb
  | x :: t, ht => by
    have hx : x ≠ 0 := fun h0 => ht (by rw [h0]; exact List.mem_cons_self)
    have ih := matchFrom_iff hre t (notMem_tail ht)
    rw [matchFrom]
    by_cases hhere : matchhere re (x :: t) = true
    · rw [if_pos hhere]
      exact iff_of_true rfl ⟨[], x :: t, rfl, (matchhere_iff re _ hre ht).mp hhere⟩
    · rw [if_neg hhere, if_pos hx, ih]
      constructor
      · rintro ⟨pre, rest, rfl, hb⟩
        exact ⟨x :: pre, rest, rfl, hb⟩
      · rintro ⟨pre, rest, heq, hb⟩
        cases pre with
        | nil =>
          rw [List.nil_append] at heq
          rw [← heq] at hb
          exact absurd ((matchhere_iff re _ hre ht).mpr hb) hhere
        | cons y pre =>
          rw [List.cons_append, List.cons.injEq] at heq
          exact ⟨pre, rest, heq.2, hb⟩

end

/-- **`match` decides the language of the expression**, in a part of the text where the expression
allows it. -/
theorem matchText_iff (re text : Str) (hre : 0 ∉ re) (ht : 0 ∉ text) :
    matchText re text = true ↔ (pattern re).Matches text := by
  unfold matchText pattern Pattern.Matches
  by_cases hcaret : byte0 re = CARET
  · rw [if_pos hcaret, if_pos hcaret, matchhere_iff _ _ (notMem_tail hre) ht]
    constructor
    · rintro ⟨w, post, rfl, hw, hpost⟩
      exact ⟨[], w, post, rfl, hw, fun _ => rfl, hpost⟩
    · rintro ⟨pre, w, post, rfl, hw, hpre, hpost⟩
      rw [hpre rfl]
      exact ⟨w, post, rfl, hw, hpost⟩
  · rw [if_neg hcaret, if_neg hcaret, matchFrom_iff hre text ht]
    constructor
    · rintro ⟨pre, _, rfl, w, post, rfl, hw, hpost⟩
      exact ⟨pre, w, post, (List.append_assoc ..).symm, hw, fun h => (by cases h), hpost⟩
    · rintro ⟨pre, w, post, rfl, hw, -, hpost⟩
      exact ⟨pre, w ++ post, List.append_assoc .., w, post, rfl, hw, hpost⟩

/-- `a*$` in `ba`. -/
theorem matchText_iff_star : (0 ∉ ([97, 42, 36] : Str) ∧ 0 ∉ ([98, 97] : Str)) ∧
    (matchText [97, 42, 36] [98, 97] = true ↔ (pattern [97, 42, 36]).Matches [98, 97]) :=
  ⟨by decide, matchText_iff [97, 42, 36] [98, 97] (by decide) (by decide)⟩

end Xv6.Regexp
