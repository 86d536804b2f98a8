/-
# The parse functions and the grammar

A parse function either returns a command for tokens at the front of those it was given, or panics
(`sound`). It does return the command of a derivation, if what follows the tokens of the derivation
cannot continue it (`complete`). The tokens that can continue it are known by the first, as `follow`
says.
-/
import Xv6.Sh.Grammar

namespace Xv6.Sh

open Prog
open List (length_map length_cons length_append append_assoc cons_append)

/-! ### Commands and trees -/

/-- The arguments of an EXEC are the words, and there is a null pointer after them. -/
def Args (text : Str) (e : Execcmd) (ws : List Str) : Prop :=
  ws.length < MAXARGS ∧ ∃ ps : List (ℕ × ℕ), List.Forall₂ (fun p w => Placed text p.1 p.2 w) ps ws ∧
    e.argv.toList = ps.map (fun p => some p.1) ++ List.replicate (MAXARGS - ps.length) none ∧
    e.eargv.toList = ps.map (fun p => some p.2) ++ List.replicate (MAXARGS - ps.length) none

/-- The command is the tree, with the words of the tree in the line. -/
inductive Shows (text : Str) : Cmd → Tree → Prop where
  | exec {e : Execcmd} {ws : List Str} : Args text e ws → Shows text (.exec e) (.exec ws)
  | redir {c : Cmd} {t : Tree} {q eq : ℕ} {w : Str} (mode fd : ℕ) : Shows text c t → Placed text q eq w →
      Shows text (.redir c q eq mode fd) (.redir t w mode fd)
  | pipe {c c' : Cmd} {t t' : Tree} : Shows text c t → Shows text c' t' →
      Shows text (.pipe c c') (.pipe t t')
  | list {c c' : Cmd} {t t' : Tree} : Shows text c t → Shows text c' t' →
      Shows text (.list c c') (.list t t')
  | back {c : Cmd} {t : Tree} : Shows text c t → Shows text (.back c) (.back t)

theorem Tree.redirect_append (t : Tree) (rs rs' : List Redir) :
    t.redirect (rs ++ rs') = (t.redirect rs).redirect rs' :=
  List.foldl_append

section

variable {text rest : Str} {c ret : Cmd} {t : Tree} {e : Execcmd} {ws : List Str} {w : Str}
  {q eq : ℕ} {i : Fin MAXARGS} {α : Type}

theorem args_nil :
    Args text { argv := Vector.replicate MAXARGS none, eargv := Vector.replicate MAXARGS none }
    [] :=
  ⟨by decide, [], .nil, rfl, rfl⟩

theorem shows_execcmd : Shows text execcmd (.exec []) := .exec args_nil

/-- A slot of an array of arguments is set. -/
theorem set_slots (ps : List (Option α)) (x : Option α) (n : ℕ) (hn : 0 < n) :
    (ps ++ List.replicate n none).set ps.length x = ps ++ [x] ++ List.replicate (n - 1) none := by
  obtain ⟨n, rfl⟩ := Nat.exists_eq_add_one.mpr hn
  simp [List.replicate_succ]

theorem set_slots_none (ps : List (Option α)) (n : ℕ) :
    (ps ++ List.replicate n none).set ps.length none = ps ++ List.replicate n none := by
  cases n with
  | zero => simp [List.set_eq_of_length_le]
  | succ n => simp [List.replicate_succ]

theorem Args.add (h : Args text e ws) (hi : i.val = ws.length) (hlt : ws.length + 1 < MAXARGS)
    (hw : Placed text q eq w) :
    Args text { argv := e.argv.set i (some q) i.isLt, eargv := e.eargv.set i (some eq) i.isLt }
    (ws ++ [w]) := by
  obtain ⟨-, ps, hps, hargv, heargv⟩ := h
  have hlen := hps.length_eq
  refine ⟨by simpa using hlt, ps ++ [(q, eq)], List.rel_append hps (.cons hw .nil), ?_, ?_⟩
  · rw [Vector.toList_set, hargv, hi, ← hlen, ← length_map (fun p : ℕ × ℕ => some p.1),
      set_slots _ _ _ (by simp; omega)]
    simp [Nat.sub_sub]
  · rw [Vector.toList_set, heargv, hi, ← hlen, ← length_map (fun p : ℕ × ℕ => some p.2),
      set_slots _ _ _ (by simp; omega)]
    simp [Nat.sub_sub]

theorem Args.close (h : Args text e ws) (hi : i.val = ws.length) :
    Args text { argv := e.argv.set i none i.isLt, eargv := e.eargv.set i none i.isLt } ws := by
  obtain ⟨hlt, ps, hps, hargv, heargv⟩ := h
  have hlen := hps.length_eq
  refine ⟨hlt, ps, hps, ?_, ?_⟩
  · rw [Vector.toList_set, hargv, hi, ← hlen, ← length_map (fun p : ℕ × ℕ => some p.1),
      set_slots_none]
  · rw [Vector.toList_set, heargv, hi, ← hlen, ← length_map (fun p : ℕ × ℕ => some p.2),
      set_slots_none]

/-- `setArg` sets the arguments inside the redirections. -/
theorem Shows.setArg {q eq : Option ℕ} {ws' : List Str}
    (hset : ∀ e, Args text e ws →
      Args text { argv := e.argv.set i q i.isLt, eargv := e.eargv.set i eq i.isLt } ws')
    (rs : List Redir) (h : Shows text ret ((Tree.exec ws).redirect rs)) :
    Shows text (setArg i q eq ret) ((Tree.exec ws').redirect rs) := by
  induction rs using List.reverseRecOn generalizing ret with
  | nil =>
    cases h with
    | exec h => exact .exec (hset _ h)
  | append_singleton rs r ih =>
    rw [Tree.redirect_append] at h ⊢
    cases h with
    | redir _ _ h hw => exact .redir _ _ (ih h) hw

/-! ### What the parse functions return -/

variable {ps : ℕ} {T T' : List Token}

/-- The parse functions, by what they parse. -/
def parse (buf : Str) (es : ℕ) : NonTerminal → ℕ → ParseM Cmd
  | .line => parseline buf es
  | .pipe => parsepipe buf es
  | .cmd => parseexec buf es

/-- Fuel for `n` tokens. -/
def enough : NonTerminal → ℕ → ℕ
  | .line, n => 4 * n + 4
  | .pipe, n => 4 * n + 3
  | .cmd, n => 4 * n + 2

/-- The command is that of a derivation from the first of the tokens, and the cursor is at the rest.
-/
def Yields (text : Str) (X : NonTerminal) (T : List Token) (c : Cmd) (ps : ℕ) : Prop :=
  ∃ T₁ T' t, T = T₁ ++ T' ∧ At text ps T' ∧ Derives X T₁ t ∧ Shows text c t

/-- The switch of `parseredirs`. -/
theorem redir_switch {buf : Str} {es : ℕ} (op : RedirOp) (f : ℕ) {tok : UInt8}
    (htok : tok = code op.token) : (if tok = ch '<' then parseredirs buf es f (.redir c q eq O_RDONLY 0)
      else if tok = ch '>' then parseredirs buf es f (.redir c q eq (O_WRONLY ||| O_CREATE) 1)
      else if tok = ch '+' then parseredirs buf es f (.redir c q eq (O_WRONLY ||| O_CREATE) 1)
      else parseredirs buf es f c) = parseredirs buf es f (.redir c q eq op.mode op.fd) := by
  subst htok
  cases op <;> rfl

section

variable (h0 : (0 : UInt8) ∉ text) {toks : List UInt8} {X : NonTerminal}

include h0

theorem sound_redirs (f : ℕ) (c : Cmd) (t : Tree) (ps : ℕ) (T : List Token) (h : At text ps T)
    (hc : Shows text c t) (hf : T.length < f) :
    Sat (parseredirs (text ++ 0 :: rest) text.length f c) ps (fun c' ps' =>
      ∃ rs T', T = redirTokens rs ++ T' ∧ At text ps' T' ∧ Shows text c' (t.redirect rs)) fun e =>
      ∃ m, e = .panic m := by
  induction f generalizing c t ps T with
  | zero => omega
  | succ f ih =>
    unfold parseredirs
    refine (sat_peek h0 (by decide) h).sure.bind ?_
    rintro more ps1 ⟨hmore, h1⟩
    refine .ite (fun hb => ?_) fun hb => .pure ⟨[], T, rfl, h1, hc⟩
    obtain ⟨op, T1, rfl⟩ := heads_redir.mp (hmore.symm.trans hb)
    refine (sat_gettoken_cons h0 h1).sure.bind ?_
    rintro ⟨tok, _, _⟩ ps2 ⟨htok, h2, -⟩
    refine (sat_gettoken h0 h2).sure.bind ?_
    rintro ⟨ret, q, eq⟩ ps3 hret
    refine .ite (fun _ => .stop ⟨_, rfl⟩) fun hword => ?_
    rw [not_not] at hword
    rcases hret with ⟨-, hret, -⟩ | ⟨t2, T2, rfl, hret, h3, hplaced⟩
    · exact absurd (hword.symm.trans hret) (by decide)
    · obtain ⟨w, rfl⟩ := code_eq_word.mp (hret.symm.trans hword)
      simp only [length_cons] at hf
      simp only [redir_switch op f htok]
      refine (ih _ _ ps3 T2 h3 (.redir op.mode op.fd hc (hplaced w rfl)) (by omega)).post ?_
      rintro c' ps' ⟨rs, T', rfl, h', hc'⟩
      exact ⟨⟨op, w⟩ :: rs, T', rfl, h', hc'⟩

theorem sound_backs (f : ℕ) (c : Cmd) (t : Tree) (ps : ℕ) (T : List Token) (h : At text ps T)
    (hc : Shows text c t) (hf : T.length < f) :
    Sat (parsebacks (text ++ 0 :: rest) text.length f c) ps (fun c' ps' =>
      ∃ n T', T = List.replicate n .amp ++ T' ∧ At text ps' T' ∧
      Shows text c' (Tree.back^[n] t)) fun e => ∃ m, e = .panic m := by
  induction f generalizing c t ps T with
  | zero => omega
  | succ f ih =>
    unfold parsebacks
    refine (sat_peek h0 (by decide) h).sure.bind ?_
    rintro more ps1 ⟨hmore, h1⟩
    refine .ite (fun hb => ?_) fun hb => .pure ⟨0, T, rfl, h1, hc⟩
    obtain ⟨T1, rfl⟩ := (heads_single (a := .amp) (by decide)).mp (hmore.symm.trans hb)
    refine (sat_gettoken_cons h0 h1).sure.bind ?_
    rintro _ ps2 ⟨-, h2, -⟩
    simp only [length_cons] at hf
    refine (ih _ _ ps2 T1 h2 (.back hc) (by omega)).post ?_
    rintro c' ps' ⟨n, T', rfl, h', hc'⟩
    exact ⟨n + 1, T', rfl, h', hc'⟩

theorem sound_args (f : ℕ) (argc : Fin MAXARGS) (ret : Cmd) (ws : List Str) (rs : List Redir)
    (ps : ℕ) (T : List Token) (h : At text ps T)
    (hret : Shows text ret ((Tree.exec ws).redirect rs)) (hargc : argc.val = ws.length)
    (hf : T.length < f) :
    Sat (parseargs (text ++ 0 :: rest) text.length f argc ret) ps (fun c' ps' =>
      ∃ (items : Items) (T' : List Token), T = itemTokens items ++ T' ∧ At text ps' T' ∧
        ws.length + items.length < MAXARGS ∧
        Shows text c' ((Tree.exec (ws ++ items.map Prod.fst)).redirect (rs ++ items.flatMap Prod.snd)))
      fun e => ∃ m, e = .panic m := by
  induction f generalizing argc ret ws rs ps T with
  | zero => omega
  | succ f ih =>
    have hlast : Shows text (setArg argc none none ret) ((Tree.exec ws).redirect rs) :=
      Shows.setArg (fun e he => he.close hargc) rs hret
    have hdone : ∀ ps', At text ps' T → ∃ (items : Items) (T' : List Token), T = itemTokens items ++
      T' ∧ At text ps' T' ∧
        ws.length + items.length < MAXARGS ∧ Shows text (setArg argc none none ret)
          ((Tree.exec (ws ++ items.map Prod.fst)).redirect (rs ++ items.flatMap Prod.snd)) :=
            fun ps' h' =>
      ⟨[], T, rfl, h',
        by rw [List.length_nil, Nat.add_zero, ← hargc]; exact argc.isLt, by simpa using hlast⟩
    unfold parseargs
    refine (sat_peek h0 (by decide) h).sure.bind ?_
    rintro last ps1 ⟨-, h1⟩
    refine .ite (fun _ => .pure (hdone ps1 h1)) fun _ => ?_
    refine (sat_gettoken h0 h1).sure.bind ?_
    rintro ⟨tok, q, eq⟩ ps2 htok
    rcases htok with ⟨rfl, htok, h2⟩ | ⟨t, T1, rfl, htok, h2, hplaced⟩
    · exact .ite (fun _ => .pure (hdone ps2 h2)) fun hz => absurd htok hz
    · refine .ite (fun hz => absurd (htok.symm.trans hz) (code_ne_zero t)) fun _ => ?_
      refine .ite (fun _ => .stop ⟨_, rfl⟩) fun hword => ?_
      rw [not_not] at hword
      obtain ⟨w, rfl⟩ := code_eq_word.mp (htok.symm.trans hword)
      split_ifs with hlt
      · have hlen : ws.length + 1 < MAXARGS := hargc ▸ hlt
        have hadd := Shows.setArg (fun e he => he.add hargc hlen (hplaced w rfl)) rs hret
        simp only [length_cons] at hf
        refine (sound_redirs h0 f _ _ ps2 T1 h2 hadd (by omega)).bind ?_
        rintro ret1 ps3 ⟨rs1, T2, rfl, h3, hret1⟩
        rw [← Tree.redirect_append] at hret1
        rw [length_append] at hf
        refine (ih ⟨argc + 1, hlt⟩ ret1 (ws ++ [w]) (rs ++ rs1) ps3 T2 h3 hret1 (by simp [hargc])
          (by omega)).post ?_
        rintro c' ps' ⟨items, T', rfl, h', hmax, hc'⟩
        refine ⟨(w, rs1) :: items, T', by simp [itemTokens], h', ?_, by simpa using hc'⟩
        rw [length_append] at hmax
        simp only [length_cons, List.length_nil] at hmax ⊢
        omega
      · exact .stop ⟨_, rfl⟩

/-- What a parse function returns is the command of a derivation. If it stops, it is a panic of the
shell. -/
theorem sound (f : ℕ) (X : NonTerminal) (ps : ℕ) (T : List Token) (h : At text ps T)
    (hf : enough X T.length ≤ f) :
    Sat (parse (text ++ 0 :: rest) text.length X f) ps (Yields text X T) fun e => ∃ m,
    e = .panic m := by
  induction f using Nat.strong_induction_on generalizing X ps T with
  | _ f ih =>
  cases X with
  | line =>
    simp only [enough] at hf
    obtain _ | f := f
    · omega
    simp only [parse]
    unfold parseline
    refine (ih f (by omega) .pipe ps T h (by simp only [enough]; omega)).bind ?_
    rintro c ps1 ⟨p, T1, t, rfl, h1, hd, hs⟩
    rw [length_append] at hf
    refine (sound_backs h0 f c t ps1 T1 h1 hs (by omega)).bind ?_
    rintro c2 ps2 ⟨n, T2, rfl, h2, hs2⟩
    refine (sat_peek h0 (by decide) h2).sure.bind ?_
    rintro more ps3 ⟨hmore, h3⟩
    refine .ite (fun hb => ?_) fun _ => .pure ⟨_, T2, _, by rw [append_assoc], h3, .line n hd, hs2⟩
    obtain ⟨T3, rfl⟩ := (heads_single (a := .semi) (by decide)).mp (hmore.symm.trans hb)
    refine (sat_gettoken_cons h0 h3).sure.bind ?_
    rintro _ ps4 ⟨-, h4, -⟩
    rw [length_append, length_cons] at hf
    refine (ih f (by omega) .line ps4 T3 h4 (by simp only [enough]; omega)).bind ?_
    rintro c5 ps5 ⟨l, T', t', rfl, h5, hd', hs'⟩
    exact .pure ⟨_, T', _, by simp, h5, .lineSemi n hd hd', .list hs2 hs'⟩
  | pipe =>
    simp only [enough] at hf
    obtain _ | f := f
    · omega
    simp only [parse]
    unfold parsepipe
    refine (ih f (by omega) .cmd ps T h (by simp only [enough]; omega)).bind ?_
    rintro c ps1 ⟨p, T1, t, rfl, h1, hd, hs⟩
    refine (sat_peek h0 (by decide) h1).sure.bind ?_
    rintro more ps2 ⟨hmore, h2⟩
    refine .ite (fun hb => ?_) fun _ => .pure ⟨_, T1, _, rfl, h2, .pipe hd, hs⟩
    obtain ⟨T2, rfl⟩ := (heads_single (a := .bar) (by decide)).mp (hmore.symm.trans hb)
    refine (sat_gettoken_cons h0 h2).sure.bind ?_
    rintro _ ps3 ⟨-, h3, -⟩
    rw [length_append, length_cons] at hf
    refine (ih f (by omega) .pipe ps3 T2 h3 (by simp only [enough]; omega)).bind ?_
    rintro c4 ps4 ⟨l, T', t', rfl, h4, hd', hs'⟩
    exact .pure ⟨_, T', _, by simp, h4, .pipeBar hd hd', .pipe hs hs'⟩
  | cmd =>
    simp only [enough] at hf
    obtain ⟨f, rfl⟩ : ∃ f', f = f' + 2 := Nat.exists_eq_add_of_le' (by omega)
    simp only [parse]
    unfold parseexec
    refine (sat_peek h0 (by decide) h).sure.bind ?_
    rintro block ps1 ⟨hblock, h1⟩
    refine .ite (fun hb => ?_) fun _ => ?_
    · obtain ⟨T1, rfl⟩ := (heads_single (a := .lpar) (by decide)).mp (hblock.symm.trans hb)
      unfold parseblock
      refine (sat_peek h0 (by decide) h1).sure.bind ?_
      rintro opens ps2 ⟨-, h2⟩
      refine .ite (fun _ => .stop ⟨_, rfl⟩) fun _ => ?_
      refine (sat_gettoken_cons h0 h2).sure.bind ?_
      rintro _ ps3 ⟨-, h3, -⟩
      rw [length_cons] at hf
      refine (ih f (by omega) .line ps3 T1 h3 (by simp only [enough]; omega)).bind ?_
      rintro c ps4 ⟨l, T2, t, rfl, h4, hd, hs⟩
      refine (sat_peek h0 (by decide) h4).sure.bind ?_
      rintro closes ps5 ⟨hcloses, h5⟩
      refine .ite (fun _ => .stop ⟨_, rfl⟩) fun hb' => ?_
      obtain ⟨T3, rfl⟩ := (heads_single (a := .rpar) (by decide)).mp
        (hcloses.symm.trans (by simpa using hb'))
      refine (sat_gettoken_cons h0 h5).sure.bind ?_
      rintro _ ps6 ⟨-, h6, -⟩
      rw [length_append, length_cons] at hf
      refine (sound_redirs h0 f c t ps6 T3 h6 hs (by omega)).post ?_
      rintro c' ps' ⟨rs, T', rfl, h', hs'⟩
      exact ⟨_, T', _, by simp, h', .block rs hd, hs'⟩
    · refine (sound_redirs h0 (f + 1) _ _ ps1 T h1 shows_execcmd (by omega)).bind ?_
      rintro ret ps2 ⟨rs, T1, rfl, h2, hs⟩
      rw [length_append] at hf
      refine (sound_args h0 (f + 1) 0 ret [] rs ps2 T1 h2 hs rfl (by omega)).post ?_
      rintro c' ps' ⟨items, T', rfl, h', hmax, hs'⟩
      exact ⟨_, T', _,
        by rw [append_assoc], h', .exec rs items (by simpa using hmax), by simpa using hs'⟩

/-! ### What the parse functions accept -/

omit h0 in
theorem heads_word (h : ch 'a' ∉ toks) : heads toks (.word w :: T) = false :=
  decide_eq_false h

theorem complete_redirs (rs : List Redir) (f : ℕ) (c : Cmd) (t : Tree) (ps : ℕ)
    (h : At text ps (redirTokens rs ++ T')) (hT' : heads [ch '<', ch '>'] T' = false)
    (hc : Shows text c t) (hf : (redirTokens rs ++ T').length < f) :
    Sat (parseredirs (text ++ 0 :: rest) text.length f c) ps
      (fun c' ps' => At text ps' T' ∧ Shows text c' (t.redirect rs)) fun _ => False := by
  induction rs generalizing f c t ps with
  | nil =>
    obtain _ | f := f
    · omega
    unfold parseredirs
    refine (sat_peek h0 (by decide) h).bind ?_
    rintro more ps1 ⟨hmore, h1⟩
    rw [if_neg (by rw [hmore]; simpa [redirTokens] using hT')]
    exact .pure ⟨h1, hc⟩
  | cons r rs ih =>
    obtain _ | f := f
    · omega
    have hcons : redirTokens (r :: rs) ++ T' = r.op.token :: .word r.file :: (redirTokens rs ++ T') := rfl
    rw [hcons] at h hf
    simp only [length_cons] at hf
    unfold parseredirs
    refine (sat_peek h0 (by decide) h).bind ?_
    rintro more ps1 ⟨hmore, h1⟩
    rw [if_pos (hmore.trans (heads_redir.mpr ⟨r.op, _, rfl⟩))]
    refine (sat_gettoken_cons h0 h1).bind ?_
    rintro ⟨tok, _, _⟩ ps2 ⟨htok, h2, -⟩
    refine (sat_gettoken_cons h0 h2).bind ?_
    rintro ⟨ret, q, eq⟩ ps3 ⟨hret, h3, hplaced⟩
    refine .ite (fun hne => absurd hret hne) fun _ => ?_
    simp only [redir_switch r.op f htok]
    exact ih f _ _ ps3 h3 (.redir r.op.mode r.op.fd hc (hplaced r.file rfl)) (by omega)

theorem complete_backs (n f : ℕ) (c : Cmd) (t : Tree) (ps : ℕ)
    (h : At text ps (List.replicate n .amp ++ T')) (hT' : heads [ch '&'] T' = false)
    (hc : Shows text c t) (hf : n < f) : Sat (parsebacks (text ++ 0 :: rest) text.length f c) ps
      (fun c' ps' => At text ps' T' ∧ Shows text c' (Tree.back^[n] t)) fun _ => False := by
  obtain _ | f := f
  · omega
  induction n generalizing f c t ps with
  | zero =>
    unfold parsebacks
    refine (sat_peek h0 (by decide) h).bind ?_
    rintro more ps1 ⟨hmore, h1⟩
    rw [if_neg (by rw [hmore]; simpa using hT')]
    exact .pure ⟨h1, hc⟩
  | succ n ih =>
    rw [List.replicate_succ, cons_append] at h
    obtain _ | f := f
    · omega
    unfold parsebacks
    refine (sat_peek h0 (by decide) h).bind ?_
    rintro more ps1 ⟨hmore, h1⟩
    rw [if_pos (by rw [hmore]; rfl)]
    refine (sat_gettoken_cons h0 h1).bind ?_
    rintro _ ps2 ⟨-, h2, -⟩
    exact ih _ _ ps2 h2 (.back hc) f (by omega)

/-- The tokens that can follow what a nonterminal derives. -/
def follow : NonTerminal → List Token
  | .line => [.rpar]
  | .pipe => [.rpar, .amp, .semi]
  | .cmd => [.rpar, .amp, .semi, .bar]

def Follow (X : NonTerminal) (T : List Token) : Prop := ∀ t ∈ T.head?, t ∈ follow X

omit h0 in
theorem Follow.heads (h : Follow X T)
    (hX : ∀ t ∈ follow X, lead t ∉ toks) : heads toks T = false := by
  cases T with
  | nil => rfl
  | cons t T => simpa [Sh.heads] using hX t (h t (by simp))

omit h0 in
/-- After the words of a command there is no redirection. -/
theorem Follow.heads_items (h : Follow .cmd T') (items : Items) : Sh.heads [ch '<', ch '>']
    (itemTokens items ++ T') = false := by
  cases items with
  | nil => exact h.heads (by decide)
  | cons i items => exact heads_word (by decide)

theorem complete_args (items : Items) (f : ℕ) (argc : Fin MAXARGS) (ret : Cmd) (ws : List Str)
    (rs : List Redir) (ps : ℕ) (h : At text ps (itemTokens items ++ T')) (hT' : Follow .cmd T')
    (hret : Shows text ret ((Tree.exec ws).redirect rs)) (hargc : argc.val = ws.length)
    (hmax : ws.length + items.length < MAXARGS) (hf : (itemTokens items ++ T').length < f) :
    Sat (parseargs (text ++ 0 :: rest) text.length f argc ret) ps (fun c' ps' => At text ps' T' ∧
      Shows text c' ((Tree.exec (ws ++ items.map Prod.fst)).redirect
        (rs ++ items.flatMap Prod.snd))) fun _ => False := by
  induction items generalizing f argc ret ws rs ps with
  | nil =>
    obtain _ | f := f
    · omega
    have hlast : Shows text (setArg argc none none ret) ((Tree.exec ws).redirect rs) :=
      Shows.setArg (fun e he => he.close hargc) rs hret
    have hnil : itemTokens [] ++ T' = T' := rfl
    rw [hnil] at h
    unfold parseargs
    refine (sat_peek h0 (by decide) h).bind ?_
    rintro last ps1 ⟨hpeek, h1⟩
    refine .ite (fun _ => .pure ⟨h1, by simpa using hlast⟩) fun hb => ?_
    cases T' with
    | nil =>
      refine (sat_gettoken_nil h1).bind ?_
      rintro ⟨tok, q, eq⟩ ps2 ⟨htok, h2⟩
      exact .ite (fun _ => .pure ⟨h2, by simpa using hlast⟩) fun hz => absurd htok hz
    | cons t T' =>
      -- a token that can follow a command ends the loop
      have hends : ∀ t ∈ follow .cmd, lead t ∈ [ch '|', ch ')', ch '&', ch ';'] := by decide
      exact absurd (hpeek.trans (decide_eq_true (hends t (hT' t (by simp))))) hb
  | cons i items ih =>
    obtain _ | f := f
    · omega
    have hcons :
      itemTokens (i :: items) ++ T' =
        .word i.1 :: (redirTokens i.2 ++ (itemTokens items ++ T')) := by
      simp [itemTokens]
    rw [hcons] at h hf
    simp only [length_cons] at hf hmax
    unfold parseargs
    refine (sat_peek h0 (by decide) h).bind ?_
    rintro last ps1 ⟨hpeek, h1⟩
    rw [if_neg (by rw [hpeek, heads_word (by decide)]; simp)]
    refine (sat_gettoken_cons h0 h1).bind ?_
    rintro ⟨tok, q, eq⟩ ps2 ⟨htok, h2, hplaced⟩
    refine .ite (fun hz => absurd (htok.symm.trans hz) (code_ne_zero _)) fun _ => ?_
    refine .ite (fun hne => absurd htok hne) fun _ => ?_
    have hlen : ws.length + 1 < MAXARGS := by omega
    have hlt : argc.val + 1 < MAXARGS := by rwa [hargc]
    rw [dif_pos hlt]
    have hadd := Shows.setArg (fun e he => he.add hargc hlen (hplaced i.1 rfl)) rs hret
    refine (complete_redirs h0 i.2 f _ _ ps2 h2 (hT'.heads_items items) hadd (by omega)).bind ?_
    rintro ret1 ps3 ⟨h3, hret1⟩
    rw [← Tree.redirect_append] at hret1
    rw [length_append] at hf
    refine (ih f ⟨argc + 1, hlt⟩ ret1 (ws ++ [i.1]) (rs ++ i.2) ps3 h3 hret1 (by simp [hargc])
      (by simp; omega) (by omega)).post ?_
    rintro c' ps' ⟨h', hs'⟩
    exact ⟨h', by simpa using hs'⟩

omit h0 in
theorem Follow.mono {Y : NonTerminal} (h : Follow X T) (hXY : ∀ t ∈ follow X, t ∈ follow Y) :
    Follow Y T :=
  fun t ht => hXY t (h t ht)

omit h0 in
theorem Follow.amps {n : ℕ} (h : Follow .pipe T) : Follow .pipe (List.replicate n .amp ++ T) := by
  cases n with
  | zero => exact h
  | succ n =>
    intro t ht
    cases ht
    decide

/-- A parse function returns the command of a derivation, if a token comes next that can follow it,
or none. -/
theorem complete {T : List Token} {t : Tree} (hd : Derives X T t) (f ps : ℕ) (T' : List Token)
    (h : At text ps (T ++ T')) (hT' : Follow X T') (hf : enough X (T ++ T').length ≤ f) :
    Sat (parse (text ++ 0 :: rest) text.length X f) ps (fun c ps' => At text ps' T' ∧
      Shows text c t) fun _ => False := by
  induction hd generalizing f ps T' with
  | @line p t n _ ih =>
    simp only [enough, length_append, List.length_replicate] at hf
    obtain _ | f := f
    · omega
    rw [append_assoc] at h
    simp only [parse]
    unfold parseline
    refine (ih f ps _ h (hT'.mono (by decide)).amps (by simp [enough]; omega)).bind ?_
    rintro c ps1 ⟨h1, hs⟩
    refine (complete_backs h0 n f c t ps1 h1 (hT'.heads (by decide)) hs (by omega)).bind ?_
    rintro c2 ps2 ⟨h2, hs2⟩
    refine (sat_peek h0 (by decide) h2).bind ?_
    rintro more ps3 ⟨hmore, h3⟩
    rw [if_neg (by rw [hmore, hT'.heads (by decide)]; simp)]
    exact .pure ⟨h3, hs2⟩
  | @lineSemi p l t t' n _ _ ih ih' =>
    simp only [enough, length_append, List.length_replicate, length_cons] at hf
    obtain _ | f := f
    · omega
    rw [append_assoc, append_assoc, cons_append] at h
    have hsemi : Follow .pipe (.semi :: (l ++ T')) := fun t ht => by
      cases ht
      decide
    simp only [parse]
    unfold parseline
    refine (ih f ps _ h hsemi.amps (by simp [enough]; omega)).bind ?_
    rintro c ps1 ⟨h1, hs⟩
    refine (complete_backs h0 n f c t ps1 h1 rfl hs (by omega)).bind ?_
    rintro c2 ps2 ⟨h2, hs2⟩
    refine (sat_peek h0 (by decide) h2).bind ?_
    rintro more ps3 ⟨hmore, h3⟩
    rw [if_pos (by rw [hmore]; rfl)]
    refine (sat_gettoken_cons h0 h3).bind ?_
    rintro _ ps4 ⟨-, h4, -⟩
    refine (ih' f ps4 T' h4 hT' (by simp [enough]; omega)).bind ?_
    rintro c5 ps5 ⟨h5, hs'⟩
    exact .pure ⟨h5, .list hs2 hs'⟩
  | @pipe c t _ ih =>
    simp only [enough] at hf
    obtain _ | f := f
    · omega
    simp only [parse]
    unfold parsepipe
    refine (ih f ps T' h (hT'.mono (by decide)) (by simp only [enough]; omega)).bind ?_
    rintro c ps1 ⟨h1, hs⟩
    refine (sat_peek h0 (by decide) h1).bind ?_
    rintro more ps2 ⟨hmore, h2⟩
    rw [if_neg (by rw [hmore, hT'.heads (by decide)]; simp)]
    exact .pure ⟨h2, hs⟩
  | @pipeBar c p t t' _ _ ih ih' =>
    simp only [enough, length_append, length_cons] at hf
    obtain _ | f := f
    · omega
    rw [append_assoc, cons_append] at h
    have hbar : Follow .cmd (.bar :: (p ++ T')) := fun t ht => by
      cases ht
      decide
    simp only [parse]
    unfold parsepipe
    refine (ih f ps _ h hbar (by simp [enough]; omega)).bind ?_
    rintro c ps1 ⟨h1, hs⟩
    refine (sat_peek h0 (by decide) h1).bind ?_
    rintro more ps2 ⟨hmore, h2⟩
    rw [if_pos (by rw [hmore]; rfl)]
    refine (sat_gettoken_cons h0 h2).bind ?_
    rintro _ ps3 ⟨-, h3, -⟩
    refine (ih' f ps3 T' h3 hT' (by simp [enough]; omega)).bind ?_
    rintro c4 ps4 ⟨h4, hs'⟩
    exact .pure ⟨h4, .pipe hs hs'⟩
  | @block l t rs _ ih =>
    simp only [enough, length_append, length_cons] at hf
    obtain ⟨f, rfl⟩ : ∃ f', f = f' + 2 := Nat.exists_eq_add_of_le' (by omega)
    rw [cons_append, append_assoc, cons_append] at h
    have hpar : Follow .line (.rpar :: (redirTokens rs ++ T')) := fun t ht => by
      cases ht
      decide
    simp only [parse]
    unfold parseexec
    refine (sat_peek h0 (by decide) h).bind ?_
    rintro block ps1 ⟨hblock, h1⟩
    rw [if_pos (by rw [hblock]; rfl)]
    unfold parseblock
    refine (sat_peek h0 (by decide) h1).bind ?_
    rintro opens ps2 ⟨hopens, h2⟩
    obtain rfl : opens = true := hopens
    rw [if_neg (by decide)]
    refine (sat_gettoken_cons h0 h2).bind ?_
    rintro _ ps3 ⟨-, h3, -⟩
    refine (ih f ps3 _ h3 hpar (by simp [enough]; omega)).bind ?_
    rintro c ps4 ⟨h4, hs⟩
    refine (sat_peek h0 (by decide) h4).bind ?_
    rintro closes ps5 ⟨hcloses, h5⟩
    obtain rfl : closes = true := hcloses
    rw [if_neg (by decide)]
    refine (sat_gettoken_cons h0 h5).bind ?_
    rintro _ ps6 ⟨-, h6, -⟩
    exact complete_redirs h0 rs f c t ps6 h6 (hT'.heads (by decide)) hs (by simp; omega)
  | exec rs items hmax =>
    simp only [enough, length_append] at hf
    obtain _ | f := f
    · omega
    have hblock : heads [ch '('] (redirTokens rs ++ itemTokens items ++ T') = false := by
      rcases rs with - | ⟨⟨op, w⟩, rs⟩
      · cases items with
        | nil => exact hT'.heads (by decide)
        | cons i items => exact heads_word (by decide)
      · cases op <;> rfl
    simp only [parse]
    unfold parseexec
    refine (sat_peek h0 (by decide) h).bind ?_
    rintro block ps1 ⟨hpeek, h1⟩
    rw [if_neg (by rw [hpeek, hblock]; simp)]
    rw [append_assoc] at h1
    refine (complete_redirs h0 rs f _ _ ps1 h1 (hT'.heads_items items) shows_execcmd
      (by simp; omega)).bind ?_
    rintro ret ps2 ⟨h2, hs⟩
    refine (complete_args h0 items f 0 ret [] rs ps2 h2 hT' hs rfl (by simpa using hmax)
      (by simp; omega)).post ?_
    rintro c' ps' ⟨h', hs'⟩
    exact ⟨h', by simpa using hs'⟩

end

end

end Xv6.Sh
