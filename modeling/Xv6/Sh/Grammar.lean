/-
# The shell's grammar

What a command line is: its tokens are the words, maximal runs of bytes that are neither whitespace
nor a symbol, and the symbols; and the tokens derive from

line  := pipe '&'* [';' line] pipe  := cmd ['|' pipe] cmd   := '(' line ')' redir*  |  redir* (word
redir*)*    with fewer than MAXARGS words redir := ('<' | '>' | '>>') word

A derivation has a tree, the command. The second half of the file says what gettoken and peek do in
terms of the tokens that are left (`At`).
-/
import Xv6.Sh.Parser

namespace Xv6.Sh

open Prog

inductive Token where
  | lt | gt | gtgt | bar | amp | semi | lpar | rpar
  | word (w : Str)
deriving DecidableEq

/-- The symbols of one byte that begin no other symbol. -/
def single (c : UInt8) : Option Token :=
  if c = ch '<' then some .lt
  else if c = ch '|' then some .bar
  else if c = ch '&' then some .amp
  else if c = ch ';' then some .semi
  else if c = ch '(' then some .lpar
  else if c = ch ')' then some .rpar
  else none

def tokenise : Str → List Token
  | [] => []
  | c :: cs =>
    if c ∈ whitespace then tokenise cs
    else if c = ch '>' then
      if cs.head? = some (ch '>') then .gtgt :: tokenise cs.tail else .gt :: tokenise cs
    else match single c with
      | some t => t :: tokenise cs
      | none => .word (c :: cs.takeWhile isWordChar) :: tokenise (cs.dropWhile isWordChar)
termination_by l => l.length
decreasing_by
  all_goals simp only [List.length_cons, List.length_tail]
  all_goals first | omega | exact Nat.lt_succ_of_le (List.dropWhile_sublist _).length_le

inductive Tree where
  | exec (argv : List Str)
  | redir (cmd : Tree) (file : Str) (mode fd : ℕ)
  | pipe (left right : Tree)
  | list (left right : Tree)
  | back (cmd : Tree)
deriving DecidableEq

inductive RedirOp where
  | lt | gt | gtgt
deriving DecidableEq

def RedirOp.token : RedirOp → Token
  | .lt => .lt
  | .gt => .gt
  | .gtgt => .gtgt

/-- How the file is opened. -/
def RedirOp.mode : RedirOp → ℕ
  | .lt => O_RDONLY
  | .gt | .gtgt => O_WRONLY ||| O_CREATE

/-- What it is opened as. -/
def RedirOp.fd : RedirOp → ℕ
  | .lt => 0
  | .gt | .gtgt => 1

structure Redir where
  op : RedirOp
  file : Str

def redirTokens (rs : List Redir) : List Token := rs.flatMap fun r => [r.op.token, .word r.file]

/-- One wrapper for each redirection, the first inside. -/
def Tree.redirect (t : Tree) (rs : List Redir) : Tree :=
  rs.foldl (fun t r => .redir t r.file r.op.mode r.op.fd) t

/-- Words, each with the redirections after it. -/
abbrev Items := List (Str × List Redir)

def itemTokens (items : Items) : List Token := items.flatMap fun i => .word i.1 :: redirTokens i.2

inductive NonTerminal where
  | line | pipe | cmd

/-- The derivations of the grammar, with their trees. -/
inductive Derives : NonTerminal → List Token → Tree → Prop where
  | line {p : List Token} {t : Tree} (n : ℕ) : Derives .pipe p t →
      Derives .line (p ++ List.replicate n .amp) (Tree.back^[n] t)
  | lineSemi {p l : List Token} {t t' : Tree} (n : ℕ) : Derives .pipe p t → Derives .line l t' →
      Derives .line (p ++ (List.replicate n .amp ++ .semi :: l)) (.list (Tree.back^[n] t) t')
  | pipe {c : List Token} {t : Tree} : Derives .cmd c t → Derives .pipe c t
  | pipeBar {c p : List Token} {t t' : Tree} : Derives .cmd c t → Derives .pipe p t' →
      Derives .pipe (c ++ .bar :: p) (.pipe t t')
  | block {l : List Token} {t : Tree} (rs : List Redir) : Derives .line l t →
      Derives .cmd (.lpar :: (l ++ .rpar :: redirTokens rs)) (t.redirect rs)
  | exec (rs : List Redir) (items : Items) : items.length < MAXARGS →
      Derives .cmd (redirTokens rs ++ itemTokens items)
        ((Tree.exec (items.map Prod.fst)).redirect (rs ++ items.flatMap Prod.snd))

/-! ### Tokens -/

theorem tokenise_nil : tokenise [] = [] := by rw [tokenise]

theorem tokenise_space {c : UInt8} {cs : Str} (h : c ∈ whitespace) :
    tokenise (c :: cs) = tokenise cs := by
  rw [tokenise, if_pos h]

/-- There are no more tokens than bytes. -/
theorem length_tokenise_le (l : Str) : (tokenise l).length ≤ l.length := by
  fun_induction tokenise l with
  | case1 => exact le_rfl
  | case2 c cs h ih => exact ih.trans (Nat.le_succ _)
  | case3 cs _ _ ih =>
    rw [List.length_tail] at ih
    simp only [List.length_cons]
    omega
  | case4 cs _ _ ih => exact Nat.succ_le_succ ih
  | case5 c cs _ _ t _ ih => exact Nat.succ_le_succ ih
  | case6 c cs _ _ _ ih =>
    have := (List.dropWhile_sublist isWordChar (l := cs)).length_le
    simp only [List.length_cons]
    omega

theorem tokenise_dropWhile (l : Str) : tokenise (l.dropWhile (· ∈ whitespace)) = tokenise l := by
  induction l with
  | nil => rfl
  | cons c cs ih =>
    by_cases hc : c ∈ whitespace
    · rw [List.dropWhile_cons_of_pos (by simpa using hc), ih, tokenise_space hc]
    · rw [List.dropWhile_cons_of_neg (by simpa using hc)]

/-- What `gettoken` returns for a token. -/
def code : Token → UInt8
  | .lt => ch '<'
  | .gt => ch '>'
  | .gtgt => ch '+'
  | .bar => ch '|'
  | .amp => ch '&'
  | .semi => ch ';'
  | .lpar => ch '('
  | .rpar => ch ')'
  | .word _ => ch 'a'

/-- What `peek` sees of a token, for a word a byte that is not a symbol. -/
def lead : Token → UInt8
  | .gtgt => ch '>'
  | t => code t

/-- The next token begins with one of `toks`. -/
def heads (toks : List UInt8) : List Token → Bool
  | [] => false
  | t :: _ => lead t ∈ toks

/-- The word `w` is at `q` in the line, up to `eq`. -/
structure Placed (text : Str) (q eq : ℕ) (w : Str) : Prop where
  run : (text.drop q).takeWhile isWordChar = w
  len : eq = q + w.length

/-- The cursor is at the tokens `T`. -/
structure At (text : Str) (ps : ℕ) (T : List Token) : Prop where
  le : ps ≤ text.length
  toks : tokenise (text.drop ps) = T

section

variable {text rest : Str} {s ps : ℕ} {T : List Token} {t : Token} {c : UInt8} {cs : Str}

theorem byte_drop (h : text.drop s = c :: cs) : byte (text ++ 0 :: rest) s = c := by
  have hs : s < text.length := by
    by_contra hge
    rw [List.drop_eq_nil_of_le (by omega)] at h
    cases h
  have hget : text[s]? = some c := by rw [← List.head?_drop, h, List.head?_cons]
  rw [byte, List.getD_eq_getElem?_getD, List.getElem?_append_left hs, hget]
  rfl

theorem byte_end : byte (text ++ 0 :: rest) text.length = 0 := by
  rw [byte, List.getD_eq_getElem?_getD, List.getElem?_append_right le_rfl]
  simp

/-- A loop over bytes goes as far as the line does. -/
theorem advance_eq (p : UInt8 → Bool) (n s : ℕ) (h : s + n = text.length) :
    advance (text ++ 0 :: rest) p n s = s + ((text.drop s).takeWhile p).length := by
  induction n generalizing s with
  | zero => rw [advance, List.drop_eq_nil_of_le (by omega), List.takeWhile_nil, List.length_nil,
      Nat.add_zero]
  | succ n ih =>
    obtain ⟨c, cs, hcs⟩ : ∃ c cs, text.drop s = c :: cs := by
      cases hd : text.drop s with
      | nil =>
        rw [List.drop_eq_nil_iff] at hd
        omega
      | cons c cs => exact ⟨c, cs, rfl⟩
    have htail : text.drop (s + 1) = cs := by rw [← List.tail_drop, hcs, List.tail_cons]
    rw [advance, byte_drop hcs, hcs]
    by_cases hc : p c = true
    · rw [if_pos hc, ih (s + 1) (by omega), htail, List.takeWhile_cons_of_pos hc, List.length_cons]
      omega
    · rw [if_neg hc, List.takeWhile_cons_of_neg hc, List.length_nil, Nat.add_zero]

theorem drop_advance (p : UInt8 → Bool) (s : ℕ) :
    text.drop (s + ((text.drop s).takeWhile p).length) = (text.drop s).dropWhile p := by
  rw [← List.drop_drop]
  conv_lhs => rw [← List.takeWhile_append_dropWhile (p := p) (l := text.drop s)]
  exact List.drop_left' (by rw [List.takeWhile_append_dropWhile])

/-- After the whitespace the line is at its end, or at a byte of a token. -/
theorem At.skip (h : At text ps T) (rest : Str) : At text (skip (text ++ 0 :: rest) text.length ps) T ∧
    ∀ c cs, text.drop (Sh.skip (text ++ 0 :: rest) text.length ps) = c :: cs → c ∉ whitespace := by
  have heq : Sh.skip (text ++ 0 :: rest) text.length ps = ps +
    ((text.drop ps).takeWhile (· ∈ whitespace)).length :=
    advance_eq _ _ _ (Nat.add_sub_of_le h.le)
  have hle := (List.takeWhile_sublist (· ∈ whitespace) (l := text.drop ps)).length_le
  rw [List.length_drop] at hle
  have hps := h.le
  rw [heq]
  refine ⟨⟨by omega, ?_⟩, fun c cs hcs => ?_⟩
  · rw [drop_advance, tokenise_dropWhile, h.toks]
  · rw [drop_advance] at hcs
    have hhead := List.head?_dropWhile_not (· ∈ whitespace) (text.drop ps)
    rw [hcs] at hhead
    simpa using hhead

/-- The kinds of byte that a token begins with. -/
inductive Kind (c : UInt8) : Prop where
  | gt : c = ch '>' → Kind c
  | single (t : Token) : single c = some t → code t = c → lead t = c → c ∈ symbols → c ≠ ch '>' → c ≠ 0 →
      c = ch '|' ∨ c = ch '(' ∨ c = ch ')' ∨ c = ch ';' ∨ c = ch '&' ∨ c = ch '<' → Kind c
  | word : Sh.single c = none → c ∉ symbols → isWordChar c = true → c ≠ ch '>' →
      ¬(c = ch '|' ∨ c = ch '(' ∨ c = ch ')' ∨ c = ch ';' ∨ c = ch '&' ∨ c = ch '<') → Kind c

theorem kind (h : c ∉ whitespace) : Kind c := by
  by_cases hs : c ∈ symbols
  · have : c = ch '<' ∨ c = ch '|' ∨ c = ch '>' ∨ c = ch '&' ∨ c = ch ';' ∨ c = ch '(' ∨ c = ch ')' := by
      simpa [symbols] using hs
    rcases this with rfl | rfl | rfl | rfl | rfl | rfl | rfl
    · exact .single .lt rfl rfl rfl hs (by decide) (by decide) (by decide)
    · exact .single .bar rfl rfl rfl hs (by decide) (by decide) (by decide)
    · exact .gt rfl
    · exact .single .amp rfl rfl rfl hs (by decide) (by decide) (by decide)
    · exact .single .semi rfl rfl rfl hs (by decide) (by decide) (by decide)
    · exact .single .lpar rfl rfl rfl hs (by decide) (by decide) (by decide)
    · exact .single .rpar rfl rfl rfl hs (by decide) (by decide) (by decide)
  · have hne :
      ¬(c = ch '<' ∨ c = ch '|' ∨ c = ch '>' ∨ c = ch '&' ∨ c = ch ';' ∨
        c = ch '(' ∨ c = ch ')') := by
      simpa [symbols] using hs
    push Not at hne
    obtain ⟨h1, h2, h3, h4, h5, h6, h7⟩ := hne
    refine .word ?_ hs (by simp [isWordChar, h, hs]) h3 (by simp [*])
    simp [single, *]

theorem tokenise_gt (hcs : cs.head? ≠ some (ch '>')) : tokenise (ch '>' :: cs) = .gt :: tokenise cs := by
  rw [tokenise, if_neg (by decide), if_pos rfl, if_neg hcs]

theorem tokenise_gtgt : tokenise (ch '>' :: ch '>' :: cs) = .gtgt :: tokenise cs := by
  rw [tokenise, if_neg (by decide), if_pos rfl, if_pos (by rfl), List.tail_cons]

theorem tokenise_single (h : c ∉ whitespace) (hgt : c ≠ ch '>') (ht : single c = some t) :
    tokenise (c :: cs) = t :: tokenise cs := by
  rw [tokenise, if_neg h, if_neg hgt, ht]

theorem tokenise_word (h : c ∉ whitespace) (hgt : c ≠ ch '>') (ht : single c = none) :
    tokenise (c :: cs) = .word (c :: cs.takeWhile isWordChar) :: tokenise (cs.dropWhile isWordChar) := by
  rw [tokenise, if_neg h, if_neg hgt, ht]

/-- The byte of a token that `peek` looks at. -/
theorem tokenise_cons (h : c ∉ whitespace) (cs : Str) : ∃ t T, tokenise (c :: cs) = t :: T ∧
    ∀ toks : List UInt8, (∀ a ∈ toks, a ∈ symbols) → (c ∈ toks ↔ lead t ∈ toks) := by
  cases kind h with
  | gt hc =>
    subst hc
    by_cases hcs : cs.head? = some (ch '>')
    · obtain ⟨ds, rfl⟩ := List.head?_eq_some_iff.mp hcs
      exact ⟨.gtgt, _, tokenise_gtgt, fun _ _ => Iff.rfl⟩
    · exact ⟨.gt, _, tokenise_gt hcs, fun _ _ => Iff.rfl⟩
  | single t ht _ hlead _ hgt =>
    exact ⟨t, _, tokenise_single h hgt ht, fun _ _ => by rw [hlead]⟩
  | word ht hsym _ hgt =>
    refine ⟨_, _, tokenise_word h hgt ht, fun toks htoks =>
      iff_of_false (fun hm => hsym (htoks c hm)) fun hm => ?_⟩
    exact absurd (htoks _ hm) (show ch 'a' ∉ symbols by decide)

/-- With no token left, the whitespace goes to the end of the line. -/
theorem At.skip_nil (h : At text ps []) (rest : Str) : Sh.skip (text ++ 0 :: rest) text.length ps =
    text.length := by
  obtain ⟨hat, hws⟩ := h.skip rest
  cases hq : text.drop (Sh.skip (text ++ 0 :: rest) text.length ps) with
  | nil => exact le_antisymm hat.le (List.drop_eq_nil_iff.mp hq)
  | cons c cs =>
    obtain ⟨t, T', hT, -⟩ := tokenise_cons (hws c cs hq) cs
    have := hat.toks
    rw [hq, hT] at this
    cases this

theorem sat_gettoken_nil (h : At text ps []) :
    Sat (gettoken (text ++ 0 :: rest) text.length) ps (fun r ps' => r.1 = 0 ∧ At text ps' [])
    fun _ => False := by
  have hend : At text text.length [] := ⟨le_rfl, by rw [List.drop_length, tokenise_nil]⟩
  have hscan : scan (text ++ 0 :: rest) text.length text.length = (0, text.length) := by
    unfold scan
    simp only [byte_end, if_true]
  refine .get_bind ?_
  simp only [h.skip_nil rest, hscan]
  exact .modify_bind (.pure ⟨rfl, (hend.skip rest).1⟩)

section

variable (h0 : (0 : UInt8) ∉ text)

include h0

theorem ne_zero_of_drop (h : text.drop s = c :: cs) : c ≠ 0 := by
  rintro rfl
  exact h0 (List.mem_of_mem_drop (h ▸ List.mem_cons_self))

/-- `peek` says what the next token begins with. -/
theorem sat_peek {toks : List UInt8} (htoks : toks.all (· ∈ symbols) = true) (h : At text ps T) :
    Sat (peek (text ++ 0 :: rest) text.length toks) ps (fun r ps' => r = heads toks T ∧
      At text ps' T) fun _ => False := by
  obtain ⟨hat, hws⟩ := h.skip rest
  have hsym : ∀ a ∈ toks, a ∈ symbols := by simpa using htoks
  refine .get_bind (.modify_bind (.pure ⟨?_, hat⟩))
  rw [← hat.toks]
  generalize Sh.skip (text ++ 0 :: rest) text.length ps = q at hat hws
  cases hq : text.drop q with
  | nil =>
    have : q = text.length := le_antisymm hat.le (List.drop_eq_nil_iff.mp hq)
    rw [this, byte_end, tokenise_nil]
    rfl
  | cons c cs =>
    obtain ⟨t, T', hT, hlead⟩ := tokenise_cons (hws c cs hq) cs
    rw [byte_drop hq, hT]
    simp only [heads, hlead toks hsym, ne_zero_of_drop h0 hq, ne_eq, not_false_eq_true, true_and]

/-- The token at `s` is the first of those from there. -/
theorem scan_eq (rest : Str) (h : text.drop s = c :: cs) (hws : c ∉ whitespace) :
    ∃ t, tokenise (text.drop s) = t :: tokenise (text.drop (scan (text ++ 0 :: rest) text.length s).2) ∧
      (scan (text ++ 0 :: rest) text.length s).1 = code t ∧
      (scan (text ++ 0 :: rest) text.length s).2 ≤ text.length ∧
      ∀ w, t = .word w → Placed text s (scan (text ++ 0 :: rest) text.length s).2 w := by
  have htail : text.drop (s + 1) = cs := by rw [← List.tail_drop, h, List.tail_cons]
  have hlen : s < text.length := by
    by_contra hge
    rw [List.drop_eq_nil_of_le (by omega)] at h
    cases h
  have hc0 := ne_zero_of_drop h0 h
  unfold scan
  simp only [byte_drop h, hc0, if_false]
  cases kind hws with
  | gt hc =>
    subst hc
    rw [if_neg (by decide), if_pos rfl]
    cases hcs : cs with
    | nil =>
      have hs : s + 1 = text.length := by
        rw [hcs, List.drop_eq_nil_iff] at htail
        omega
      rw [hs, byte_end, if_neg (by decide), h, hcs]
      exact ⟨.gt, by rw [tokenise_gt (by simp), List.drop_length], rfl, by omega, by simp⟩
    | cons d ds =>
      rw [byte_drop (htail.trans hcs), h, hcs]
      by_cases hd : d = ch '>'
      · subst hd
        have htail' : text.drop (s + 2) = ds := by rw [← List.tail_drop, htail, hcs, List.tail_cons]
        have : s + 1 < text.length := by
          by_contra hge
          rw [List.drop_eq_nil_of_le (by omega)] at htail
          rw [← htail] at hcs
          cases hcs
        rw [if_pos rfl]
        exact ⟨.gtgt, by rw [tokenise_gtgt, htail'], rfl, by show s + 2 ≤ _; omega, by simp⟩
      · rw [if_neg hd]
        exact ⟨.gt, by rw [tokenise_gt (by simpa using hd), htail,
          hcs], rfl, by show s + 1 ≤ _; omega, by simp⟩
  | single t ht hcode _ hsym hgt _ hor =>
    rw [if_pos hor, h]
    refine ⟨t,
      by rw [tokenise_single hws hgt ht,
        htail], hcode.symm, by show s + 1 ≤ _; omega, fun w hw => ?_⟩
    rw [← hcode, hw] at hsym
    exact absurd hsym (show ch 'a' ∉ symbols by decide)
  | word ht _ hword hgt hor =>
    have hadv : advance (text ++ 0 :: rest) isWordChar (text.length - s) s =
      s + ((text.drop s).takeWhile isWordChar).length := advance_eq _ _ _ (by omega)
    have hle := (List.takeWhile_sublist isWordChar (l := text.drop s)).length_le
    rw [List.length_drop] at hle
    rw [if_neg hor, if_neg hgt, hadv]
    refine ⟨.word ((text.drop s).takeWhile isWordChar), ?_, rfl, by show s + _ ≤ _; omega, fun w hw => ?_⟩
    · rw [drop_advance, h, tokenise_word hws hgt ht, List.takeWhile_cons_of_pos hword,
        List.dropWhile_cons_of_pos hword]
    · cases hw
      exact ⟨rfl, rfl⟩

theorem sat_gettoken_cons (h : At text ps (t :: T)) : Sat (gettoken (text ++ 0 :: rest) text.length) ps
    (fun r ps' => r.1 = code t ∧ At text ps' T ∧ ∀ w, t = .word w → Placed text r.2.1 r.2.2 w)
    fun _ => False := by
  obtain ⟨hat, hws⟩ := h.skip rest
  refine .get_bind ?_
  generalize Sh.skip (text ++ 0 :: rest) text.length ps = q at hat hws
  cases hq : text.drop q with
  | nil =>
    have := hat.toks
    rw [hq, tokenise_nil] at this
    cases this
  | cons c cs =>
    obtain ⟨t', hT, hret, hle, hplaced⟩ := scan_eq h0 rest hq (hws c cs hq)
    rw [hat.toks, List.cons.injEq] at hT
    obtain ⟨rfl, rfl⟩ := hT
    exact .modify_bind (.pure ⟨hret, (At.skip ⟨hle, rfl⟩ rest).1, hplaced⟩)

/-- What `gettoken` returns, whatever is left. -/
theorem sat_gettoken (h : At text ps T) : Sat (gettoken (text ++ 0 :: rest) text.length) ps (fun r ps' =>
    (T = [] ∧ r.1 = 0 ∧ At text ps' []) ∨
      ∃ t T', T = t :: T' ∧ r.1 = code t ∧ At text ps' T' ∧ ∀ w, t = .word w →
      Placed text r.2.1 r.2.2 w) fun _ => False := by
  cases T with
  | nil => exact (sat_gettoken_nil h).post fun _ _ hq => .inl ⟨rfl, hq⟩
  | cons t T' => exact (sat_gettoken_cons h0 h).post fun _ _ hq => .inr ⟨t, T', rfl, hq⟩

end

end

/-! ### Which token it is -/

section

variable {t : Token} {T : List Token} {a : Token}

theorem code_ne_zero (t : Token) : code t ≠ 0 := by
  cases t with
  | word w => exact show ch 'a' ≠ 0 by decide
  | _ => decide

theorem code_eq_word : code t = ch 'a' ↔ ∃ w, t = .word w := by
  cases t with
  | word w => exact iff_of_true rfl ⟨w, rfl⟩
  | _ => exact iff_of_false (by decide) (by simp)

theorem lead_eq_iff (ha : a ∈ [Token.bar, .amp, .semi, .lpar, .rpar]) :
    lead t = lead a ↔ t = a := by
  cases t with
  | word w =>
    refine iff_of_false (show ch 'a' ≠ lead a from ?_) fun heq => ?_
    · revert a
      decide
    · simp [← heq] at ha
  | _ =>
    revert a
    decide

/-- `peek` looked for one symbol. -/
theorem heads_single (ha : a ∈ [Token.bar, .amp, .semi, .lpar, .rpar]) :
    heads [lead a] T = true ↔ ∃ T', T = a :: T' := by
  cases T with
  | nil => simp [heads]
  | cons t T' => simp [heads, lead_eq_iff ha]

/-- `peek` looked for a redirection. -/
theorem heads_redir : heads [ch '<', ch '>'] T = true ↔ ∃ (op : RedirOp) (T' : List Token),
    T = op.token :: T' := by
  cases T with
  | nil => simp [heads]
  | cons t T' =>
    have hop : (∃ (op : RedirOp) (T'' : List Token), t :: T' = op.token :: T'') ↔ t = .lt ∨
      t = .gt ∨ t = .gtgt := by
      constructor
      · rintro ⟨op, T'', heq⟩
        cases op <;> cases heq <;> simp [RedirOp.token]
      · rintro (rfl | rfl | rfl)
        · exact ⟨.lt, T', rfl⟩
        · exact ⟨.gt, T', rfl⟩
        · exact ⟨.gtgt, T', rfl⟩
    rw [hop]
    cases t with
    | word w => exact iff_of_false (show ¬decide (ch 'a' ∈ [ch '<', ch '>']) = true by decide) (by simp)
    | _ => rw [heads]; decide

end

end Xv6.Sh
