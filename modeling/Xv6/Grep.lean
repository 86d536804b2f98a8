/-
# grep

grep.c reads its input in pieces, as large as the kernel makes them and as there is room for in a
buffer of 1024 bytes. It goes through the lines that are complete, writes those that match, and
moves what comes after the last newline to the start of the buffer, for the next piece to be put
after it.

If a piece has no newline, `p == buf` and grep sets `m` to 0: what it has of the line is lost
(`grep_drops_line`). It then sees the end of the line only (`heard`). What grep writes is right
exactly if this makes no difference to the lines that match, and so if there is a newline in every
piece (`grep_lines`).
-/
import Mathlib.Data.List.DropRight
import Xv6.Regexp

namespace Xv6.Grep

open Regexp
open List (append_assoc append_nil cons_append flatMap_cons length_append length_cons mem_append
  mem_append_left mem_append_right mem_cons_self mem_cons_of_mem forall_mem_cons Forall₂)

/-- `\n` -/
def NL : UInt8 := 10

/-- `strchr`: where `c` is in `s`. -/
def strchr : Str → UInt8 → Option ℕ
  | [], _ => none
  | x :: s, c => if x = 0 then none else if x = c then some 0 else (strchr s c).map (· + 1)

/-- The inner loop of `grep`, from `p` on: what it writes, and what is left at the last `p`. -/
def scan (pattern : Str) : ℕ → Str → Str × Str
  | 0, p => ([], p)
  | fuel + 1, p =>
    match strchr p NL with
    | none => ([], p)
    | some q =>
      let r := scan pattern fuel (p.drop (q + 1))
      -- `*q = 0` ends the text of `match`, and `\n` is put back for `write`
      ((if matchText pattern (p.take q) then p.take (q + 1) else []) ++ r.1, r.2)

/-- What is in the buffer for the next read: `if(p == buf) m = 0;` and `memmove`. -/
def carry (buf rest : Str) : Str := if rest.length = buf.length then [] else rest

/-- A round of the outer loop. -/
structure Round where
  /-- What `read` returned. -/
  read : Str
  written : Str
  deriving DecidableEq

/-- The outer loop of `grep`, with `buf` the `m` bytes in the buffer. The kernel returns `size i`
bytes for read `i`, or as many as there is room for or are left of the input. -/
def grepFrom (pattern : Str) (size : ℕ → ℕ) : ℕ → ℕ → Str → Str → List Round
  | 0, _, _, _ => []
  | fuel + 1, i, buf, input =>
    let n := min (size i) (min (1024 - buf.length - 1) input.length)
    if n = 0 then []
    else
      let all := buf ++ input.take n
      let r := scan pattern all.length all
      ⟨input.take n, r.1⟩ :: grepFrom pattern size fuel (i + 1) (carry all r.2) (input.drop n)

/-- `grep`; a read is a byte at least, so the loop ends with the input. -/
def grep (pattern : Str) (size : ℕ → ℕ) (input : Str) : List Round :=
  grepFrom pattern size (input.length + 1) 0 [] input

/-- The lines, each with its newline. -/
def unlines (ls : List Str) : Str := ls.flatMap (· ++ [NL])

/-- A piece without a newline takes the line that is begun with it. -/
def hear (text piece : Str) : Str := if NL ∈ piece then text ++ piece else text.rdropWhile (· ≠ NL)

/-- What is left of the text of the pieces. -/
def heard (pieces : List Str) : Str := pieces.foldl hear []

/-- The lines that match. -/
def matching (pattern : Str) (ls : List Str) : List Str := ls.filter fun l => matchText pattern l

/-- A line that fits in the buffer. -/
structure Line (l : Str) : Prop where
  nonul : 0 ∉ l
  nonl : NL ∉ l
  short : l.length < 1023

section

variable {pattern l l' part a b buf input : Str} {ls ls1 : List Str}

theorem Line.of_suffix (h : Line l) (hs : l' <:+ l) : Line l' :=
  ⟨fun hm => h.nonul (hs.subset hm), fun hm => h.nonl (hs.subset hm), hs.length_le.trans_lt h.short⟩

theorem unlines_cons : unlines (l :: ls) = l ++ NL :: unlines ls := by
  unfold unlines
  rw [flatMap_cons, append_assoc]
  rfl

theorem unlines_append (ls1 ls2 : List Str) : unlines (ls1 ++ ls2) = unlines ls1 ++ unlines ls2 :=
  List.flatMap_append ..

theorem length_le_unlines : ∀ ls : List Str, ls.length ≤ (unlines ls).length
  | [] => Nat.zero_le _
  | l :: ls => by
    have := length_le_unlines ls
    rw [unlines_cons, length_cons, length_append, length_cons]
    omega

/-! ### One pass over the buffer -/

theorem strchr_line (hnul : 0 ∉ l) (hnl : NL ∉ l) (rest : Str) :
    strchr (l ++ NL :: rest) NL = some l.length := by
  induction l with
  | nil => rfl
  | cons x l ih =>
    rw [List.mem_cons, not_or] at hnul hnl
    rw [cons_append, strchr, if_neg (Ne.symm hnul.1), if_neg (Ne.symm hnl.1), ih hnul.2 hnl.2]
    rfl

theorem strchr_none (hnl : NL ∉ part) : strchr part NL = none := by
  induction part with
  | nil => rfl
  | cons x l ih =>
    rw [List.mem_cons, not_or] at hnl
    rw [strchr, ih hnl.2, if_neg (Ne.symm hnl.1)]
    split
    · rfl
    · rfl

/-- The loop goes through the lines that are complete. -/
theorem scan_unlines (hpart : NL ∉ part) (ls : List Str) (hls : ∀ l ∈ ls, Line l) (fuel : ℕ)
    (hfuel : ls.length ≤ fuel) : scan pattern fuel (unlines ls ++ part) =
    (unlines (matching pattern ls), part) := by
  induction ls generalizing fuel with
  | nil =>
    rw [show unlines [] ++ part = part from rfl]
    cases fuel with
    | zero => rfl
    | succ fuel =>
      rw [scan, strchr_none hpart]
      rfl
  | cons l ls ih =>
    obtain ⟨fuel, rfl⟩ : ∃ k, fuel = k + 1 := ⟨fuel - 1, by rw [length_cons] at hfuel; omega⟩
    have hl := hls l mem_cons_self
    have hdrop : (l ++ NL :: (unlines ls ++ part)).drop (l.length + 1) = unlines ls ++ part := by
      rw [← List.drop_drop, List.drop_left, List.drop_one, List.tail_cons]
    have htake : (l ++ NL :: (unlines ls ++ part)).take (l.length + 1) = l ++ [NL] := by
      rw [List.take_append, List.take_of_length_le (by omega), Nat.add_sub_cancel_left]
      rfl
    rw [unlines_cons, append_assoc, cons_append, scan, strchr_line hl.nonul hl.nonl]
    simp only [hdrop, htake, List.take_left, ih (fun l hl => hls l (mem_cons_of_mem _ hl)) fuel (by
      rw [length_cons] at hfuel; omega), matching, List.filter_cons]
    by_cases hm : matchText pattern l = true
    · rw [if_pos hm, if_pos hm, unlines_cons, append_assoc]
      rfl
    · rw [if_neg hm, if_neg hm]
      rfl

theorem line_of_suffixes {seen : List Str} (h : Forall₂ (· <:+ ·) seen ls)
    (hls : ∀ l ∈ ls, Line l) : ∀ l ∈ seen, Line l := by
  induction h with
  | nil => exact hls
  | cons hs _ ih =>
    rw [forall_mem_cons] at hls ⊢
    exact ⟨hls.1.of_suffix hs, ih hls.2⟩

/-- A text has its lines. -/
theorem unlines_inj : ∀ {ls ls' : List Str}, (∀ l ∈ ls, Line l) → (∀ l ∈ ls', Line l) → unlines ls =
    unlines ls' → ls = ls'
  | [], [], _, _, _ => rfl
  | [], l :: ls, _, _, h => by simp [unlines] at h
  | l :: ls, [], _, _, h => by simp [unlines] at h
  | l :: ls, l' :: ls', hls, hls', h => by
    rw [forall_mem_cons] at hls hls'
    rw [unlines_cons, unlines_cons] at h
    have hlen := strchr_line hls.1.nonul hls.1.nonl (unlines ls)
    rw [h, strchr_line hls'.1.nonul hls'.1.nonl] at hlen
    obtain ⟨rfl, hrest⟩ := List.append_inj h (Option.some.inj hlen).symm
    rw [unlines_inj hls.2 hls'.2 (List.cons.inj hrest).2]

/-! ### Pieces -/

theorem rdropWhile_part (hpart : NL ∉ part) (ls : List Str) :
    (unlines ls ++ part).rdropWhile (· ≠ NL) = unlines ls := by
  have hlines : (unlines ls).rdropWhile (· ≠ NL) = unlines ls := by
    rcases List.eq_nil_or_concat ls with rfl | ⟨ls, l, rfl⟩
    · rfl
    · rw [List.concat_eq_append, unlines_append, show unlines [l] = l ++
        [NL] by simp [unlines], ← append_assoc]
      exact List.rdropWhile_concat_neg (· ≠ NL) _ NL (by decide)
  induction part using List.reverseRecOn with
  | nil => rw [append_nil, hlines]
  | append_singleton part c ih =>
    rw [mem_append, not_or] at hpart
    rw [← append_assoc, List.rdropWhile_concat_pos _ _ _
      (by simpa using Ne.symm (by simpa using hpart.2)), ih hpart.1]

/-- Pieces that all have a newline are heard in full. -/
theorem foldl_hear : ∀ (pieces : List Str) (text : Str), (∀ c ∈ pieces, NL ∈ c) →
    pieces.foldl hear text = text ++ pieces.flatten
  | [], text, _ => (append_nil text).symm
  | c :: pieces, text, h => by
    rw [forall_mem_cons] at h
    rw [List.foldl_cons, hear, if_pos h.1, foldl_hear pieces _ h.2, List.flatten_cons, append_assoc]

/-- The first part of a text ends in the first line, or after it. -/
theorem append_eq_line {rest : Str} (h : a ++ b = l ++ NL :: rest) :
    (∃ c, l = a ++ c ∧ b = c ++ NL :: rest) ∨ ∃ c, a = l ++ NL :: c ∧ c ++ b = rest := by
  rcases List.append_eq_append_iff.mp h with ⟨c, hl, hb⟩ | ⟨_ | ⟨x, c⟩, ha, hc⟩
  · exact .inl ⟨c, hl, hb⟩
  · exact .inl ⟨[], by rw [ha, append_nil, append_nil], hc.symm⟩
  · obtain ⟨rfl, hrest⟩ := List.cons.inj hc
    exact .inr ⟨c, ha, hrest.symm⟩

/-- A text that begins in the middle of the first line, with a newline. -/
theorem lines_of_lost {lost : Str} (hlost : NL ∉ lost) (ha : NL ∈ a) (hls : ∀ l ∈ ls, Line l)
    (h : lost ++ a = unlines ls ++ part) (hpart : NL ∉ part) :
    ∃ l ls', a = unlines (l :: ls') ++ part ∧ Forall₂ (· <:+ ·) (l :: ls') ls := by
  cases ls with
  | nil =>
    rw [show unlines [] ++ part = part from rfl] at h
    exact absurd (h ▸ mem_append_right lost ha) hpart
  | cons l ls =>
    rw [unlines_cons, append_assoc, cons_append] at h
    rcases append_eq_line h with ⟨c, rfl, rfl⟩ | ⟨c, rfl, -⟩
    · refine ⟨c, ls, ?_, .cons (List.suffix_append _ _) (List.forall₂_same.mpr fun _ _ => ?_)⟩
      · rw [unlines_cons, append_assoc, cons_append]
      · exact List.suffix_rfl
    · exact absurd (mem_append_right _ mem_cons_self) hlost

/-- The first part of a text of lines is some of the lines and the beginning of the next. -/
theorem split_unlines (ls : List Str) (hls : ∀ l ∈ ls, Line l) (h : a ++ b = unlines ls) :
    ∃ ls1 ls2 part, ls = ls1 ++ ls2 ∧ a = unlines ls1 ++ part ∧ part ++ b = unlines ls2 ∧ NL ∉ part := by
  induction ls generalizing a with
  | nil =>
    obtain ⟨rfl, rfl⟩ := List.append_eq_nil_iff.mp h
    exact ⟨[], [], [], rfl, rfl, rfl, by simp⟩
  | cons l ls ih =>
    rw [unlines_cons] at h
    rcases append_eq_line h with ⟨c, rfl, rfl⟩ | ⟨c, rfl, hc⟩
    · -- the piece ends before the newline
      refine ⟨[], (a ++ c) :: ls, a, rfl, rfl, ?_, fun hmem => ?_⟩
      · rw [unlines_cons, append_assoc]
      · exact (hls _ mem_cons_self).nonl (mem_append_left _ hmem)
    · obtain ⟨ls1, ls2, part, rfl, rfl, hpart, hnl⟩ :=
        ih (fun l hl => hls l (mem_cons_of_mem _ hl)) hc
      refine ⟨l :: ls1, ls2, part, rfl, ?_, hpart, hnl⟩
      rw [unlines_cons, append_assoc, cons_append]

/-- What is in the buffer is the beginning of a line, so there is room for more. -/
theorem length_lt_of_unlines (hls : ∀ l ∈ ls, Line l) (h : a ++ b = unlines ls) (ha : NL ∉ a)
    (hb : b ≠ []) : a.length < 1023 := by
  cases ls with
  | nil => exact absurd (List.append_eq_nil_iff.mp h).2 hb
  | cons l ls =>
    rw [unlines_cons] at h
    rcases append_eq_line h with ⟨c, rfl, -⟩ | ⟨c, rfl, -⟩
    · have := (hls _ mem_cons_self).short
      rw [length_append] at this
      omega
    · exact absurd (mem_append_right _ mem_cons_self) ha

/-- The loop, when the buffer has what is left of the beginning of the next line, and before it the
text has been `heard`. -/
theorem grepFrom_lines {size : ℕ → ℕ} (hsize : ∀ i, 0 < size i) (fuel i : ℕ) (lost buf input : Str)
    (ls before : List Str) (hls : ∀ l ∈ ls, Line l) (h : lost ++ buf ++ input = unlines ls)
    (hbuf : NL ∉ lost ++ buf) (hfuel : input.length < fuel) :
    (grepFrom pattern size fuel i buf input).flatMap Round.read = input ∧ ∃ seen,
    Forall₂ (· <:+ ·) seen ls ∧
      ((grepFrom pattern size fuel i buf input).map Round.read).foldl hear (unlines before ++ buf) =
      unlines (before ++ seen) ∧ (grepFrom pattern size fuel i buf input).flatMap Round.written =
      unlines (matching pattern seen) := by
  induction fuel generalizing i lost buf input ls before with
  | zero => omega
  | succ fuel ih =>
    rw [mem_append, not_or] at hbuf
    obtain ⟨hlost, hbuf⟩ := hbuf
    unfold grepFrom
    by_cases hin : input = []
    · -- nothing is left, and no line is begun
      subst hin
      cases ls with
      | nil =>
        obtain ⟨rfl, rfl⟩ : lost = [] ∧ buf = [] := by simpa [unlines] using h
        rw [if_pos (by simp)]
        exact ⟨rfl, [], .nil, by simp, rfl⟩
      | cons l ls =>
        rw [unlines_cons, append_nil] at h
        have hmem : NL ∈ lost ++ buf := h ▸ mem_append_right _ mem_cons_self
        exact absurd hmem (by simp [hlost, hbuf])
    · have hroom := length_lt_of_unlines hls h (by simp [hlost, hbuf]) hin
      have hpos : 0 < input.length := List.length_pos_iff.mpr hin
      have hsz := hsize i
      rw [length_append] at hroom
      generalize hn : min (size i) (min (1024 - buf.length - 1) input.length) = n
      rw [if_neg (by omega)]
      dsimp only
      have hshort : (input.drop n).length < fuel := by rw [List.length_drop]; omega
      rw [flatMap_cons, flatMap_cons, List.map_cons, List.foldl_cons]
      by_cases hread : NL ∈ input.take n
      · -- a line is complete, and `p` is not `buf`
        obtain ⟨ls1, ls2, part, rfl, hall, hpart, hnone⟩ :=
          split_unlines (a := lost ++ (buf ++ input.take n)) (b := input.drop n)
          ls hls (by rw [← h]; simp)
        obtain ⟨l, ls1', hall', hsuf⟩ := lines_of_lost hlost (mem_append_right buf hread)
          (fun l hl => hls l (mem_append_left _ hl)) hall hnone
        have hls1 := line_of_suffixes hsuf fun l hl => hls l (mem_append_left _ hl)
        have hlen : (l :: ls1').length ≤ (unlines (l :: ls1') ++ part).length := by
          rw [length_append]
          exact Nat.le_add_right_of_le (length_le_unlines _)
        have hcarry : carry (buf ++ input.take n) part = part := by
          refine if_neg fun heq => ?_
          rw [hall', unlines_cons, length_append, length_append, length_cons] at heq
          omega
        rw [hall', scan_unlines hnone _ hls1 _ hlen, ← hall', hcarry]
        obtain ⟨hr, seen, hseen, hheard, hw⟩ := ih (i + 1) [] part (input.drop n) ls2
          (before ++ l :: ls1')
          (fun l hl => hls l (mem_append_right _ hl)) hpart hnone hshort
        refine ⟨by rw [hr, List.take_append_drop], l :: ls1' ++ seen, List.rel_append hsuf hseen, ?_, ?_⟩
        · rw [hear, if_pos hread, append_assoc, hall', ← append_assoc, ← unlines_append,
            hheard, append_assoc]
        · rw [hw, matching, matching, matching, List.filter_append, unlines_append]
      · -- what there is of the line is thrown away
        have hall : NL ∉ buf ++ input.take n := by simp [hbuf, hread]
        have hscan : scan pattern (buf ++ input.take n).length (buf ++ input.take n) =
          ([], buf ++ input.take n) :=
          scan_unlines hall [] (by simp) _ (Nat.zero_le _)
        rw [hscan, carry, if_pos rfl]
        obtain ⟨hr, seen, hseen, hheard, hw⟩ := ih (i + 1) (lost ++ (buf ++ input.take n)) []
          (input.drop n) ls before hls
          (by rw [← h]; simp) (by simp [hlost, hbuf, hread]) hshort
        refine ⟨by rw [hr, List.take_append_drop], seen, hseen, ?_, by rw [hw]; rfl⟩
        rw [append_nil] at hheard
        rw [hear, if_neg hread, rdropWhile_part hbuf, hheard]

end

/-- **grep writes the lines that match**, as it sees them: of a line that a piece without a newline
is part of, it sees the end. That is right if it makes no difference to the lines that match, and it
makes none if every read brings a newline. All of the input is read. -/
theorem grep_lines (pattern : Str) (size : ℕ → ℕ) (ls : List Str) (hls : ∀ l ∈ ls, Line l)
    (hsize : ∀ i, 0 < size i) : (grep pattern size (unlines ls)).flatMap Round.read = unlines ls ∧
    (∃ seen, unlines seen = heard ((grep pattern size (unlines ls)).map Round.read) ∧
      Forall₂ (· <:+ ·) seen ls ∧ ((grep pattern size (unlines ls)).flatMap Round.written =
        unlines (matching pattern ls) ↔ matching pattern seen = matching pattern ls)) ∧
    ((∀ r ∈ grep pattern size (unlines ls), NL ∈ r.read) →
      (grep pattern size (unlines ls)).flatMap Round.written = unlines (matching pattern ls)) := by
  obtain ⟨hr, seen, hseen, hheard, hw⟩ := @grepFrom_lines pattern _ hsize ((unlines ls).length + 1) 0
    [] [] (unlines ls) ls [] hls rfl (by simp) (Nat.lt_succ_self _)
  have hok := line_of_suffixes hseen hls
  refine ⟨hr, ⟨seen, hheard.symm, hseen, ?_⟩, fun hnl => ?_⟩
  · rw [grep, hw]
    exact ⟨unlines_inj (fun l hl => hok l (List.mem_of_mem_filter hl)) fun l hl =>
      hls l (List.mem_of_mem_filter hl),
      congrArg unlines⟩
  · have hall := foldl_hear ((grep pattern size (unlines ls)).map Round.read) [] (by simpa using hnl)
    rw [← List.flatMap_def, show (grep pattern size (unlines ls)).flatMap Round.read =
      unlines ls from hr] at hall
    obtain rfl : seen = ls := unlines_inj hok hls (hheard.symm.trans hall)
    exact hw

theorem line_ab : ∀ l ∈ [([97, 98] : Str)], Line l := by
  intro l hl
  rw [List.mem_singleton.mp hl]
  exact ⟨by decide, by decide, by decide⟩

theorem match_a : matchText [97] [97, 98] = true ∧ matchText [97] [98] = false ∧
    matchText [97] [] = false := by
  simp [matchText, matchFrom, matchhere, byte0, CARET, DOLLAR, STAR, DOT]

/-- `a` in the lines `b` and `ab`; the second is in both reads. -/
theorem grep_lines_carried : (grep [97] (fun _ => 3) (unlines [[98], [97, 98]])).map Round.read =
    [[98, NL, 97], [98, NL]] ∧ (grep [97] (fun _ => 3) (unlines [[98], [97, 98]])).flatMap
    Round.written = unlines [[97, 98]] := by
  have hreads : (grep [97] (fun _ => 3) (unlines [[98], [97, 98]])).map Round.read =
    [[98, NL, 97], [98, NL]] := by
    simp [grep, grepFrom, unlines, NL, scan, strchr, carry]
  have hls : ∀ l ∈ [([98] : Str), [97, 98]], Line l := by
    rw [forall_mem_cons]
    exact ⟨⟨by decide, by decide, by decide⟩, line_ab⟩
  have hnl : ∀ r ∈ grep [97] (fun _ => 3) (unlines [[98], [97, 98]]), NL ∈ r.read := fun r hr => by
    have hmem := List.mem_map_of_mem (f := Round.read) hr
    rw [hreads] at hmem
    revert hmem
    generalize r.read = c
    revert c
    decide
  have hmatch : matching [97] [[98], [97, 98]] = [[97, 98]] := by simp [matching, match_a]
  refine ⟨hreads, ?_⟩
  rw [(grep_lines [97] (fun _ => 3) [[98], [97, 98]] hls fun _ => by norm_num).2.2 hnl, hmatch]

/-- The second line, a byte at a time: it is lost. -/
theorem grep_drops_line : (∀ l ∈ [([97, 98] : Str)], Line l) ∧ matchText [97] [97, 98] = true ∧
    (grep [97] (fun _ => 1) (unlines [[97, 98]])).map Round.read = [[97], [98], [NL]] ∧
    (grep [97] (fun _ => 1) (unlines [[97, 98]])).flatMap Round.written = [] := by
  have hrun : grep [97] (fun _ => 1) (unlines [[97, 98]]) = [⟨[97], []⟩, ⟨[98], []⟩, ⟨[NL], []⟩] := by
    simp [grep, grepFrom, unlines, NL, scan, strchr, carry, match_a]
  rw [hrun]
  exact ⟨line_ab, match_a.1, rfl, rfl⟩

end Xv6.Grep
