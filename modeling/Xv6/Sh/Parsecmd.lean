/-
# The parser accepts its grammar

parsecmd returns a command if and only if the line derives, and it is the command of the derivation
(`parsecmd_grammar`). The command holds positions in the buffer. A word in the line ends at
whitespace, at a symbol or at the end of the line, so the NULs that nulterminate puts at the ends of
words are in no word: every word can be read as a C string from its position on, whatever its
neighbours are.
-/
import Xv6.Sh.Correct

namespace Xv6.Sh

open Prog

def cString (buf : Str) (p : ℕ) : Str := (buf.drop p).takeWhile (· ≠ 0)

/-- The strings of an array of pointers, up to the null pointer. -/
def readArgs (buf : Str) : List (Option ℕ) → Option (List Str)
  | [] => none
  | none :: _ => some []
  | some p :: argv => (readArgs buf argv).map (cString buf p :: ·)

/-- The command as runcmd finds it in the buffer. -/
def read (buf : Str) : Cmd → Option Tree
  | .exec e => (readArgs buf e.argv.toList).map .exec
  | .redir cmd file _ mode fd => (read buf cmd).map fun t => .redir t (cString buf file) mode fd
  | .pipe left right => (read buf left).bind fun t => (read buf right).map fun t' => .pipe t t'
  | .list left right => (read buf left).bind fun t => (read buf right).map fun t' => .list t t'
  | .back cmd => (read buf cmd).map .back

section

variable {text rest b b' : Str} {q eq i j : ℕ} {w : Str} {c : Cmd} {t : Tree}

/-! ### Bytes -/

theorem byte_add (b : Str) (q i : ℕ) : byte b (q + i) = byte (b.drop q) i := by
  simp [byte, List.getD_eq_getElem?_getD, List.getElem?_drop]

theorem byte_append_left (h : i < w.length) (b : Str) : byte (w ++ b) i = byte w i := by
  simp [byte, List.getD_eq_getElem?_getD, List.getElem?_append_left h]

theorem byte_set (b : Str) (i j : ℕ) : byte (b.set i 0) j = if j = i then 0 else byte b j := by
  by_cases h : j = i
  · subst h
    rw [if_pos rfl, byte, List.getD_eq_getElem?_getD, List.getElem?_set_self']
    cases b[j]? <;> rfl
  · rw [if_neg h, byte, List.getD_eq_getElem?_getD, List.getElem?_set_ne (Ne.symm h),
      ← List.getD_eq_getElem?_getD, byte]

theorem cString_eq (w b : Str) (h0 : (0 : UInt8) ∉ w) (hb : ∀ i, i < w.length → byte b i = byte w i)
    (hend : byte b w.length = 0) : b.takeWhile (· ≠ 0) = w := by
  induction w generalizing b with
  | nil =>
    cases b with
    | nil => rfl
    | cons c b => exact List.takeWhile_cons_of_neg (by simpa [byte] using hend)
  | cons c w ih =>
    have hc := hb 0 (by simp)
    have hc0 : c ≠ 0 := fun heq => h0 (heq ▸ List.mem_cons_self)
    cases b with
    | nil => exact absurd hc.symm hc0
    | cons d b =>
      obtain rfl : d = c := hc
      rw [List.takeWhile_cons_of_pos (by simpa using hc0),
        ih b (fun h => h0 (List.mem_cons_of_mem _ h)) (fun i hi => hb (i + 1) (by simpa using hi)) hend]

/-! ### Words in the buffer -/

/-- The bytes of words are those of the line. -/
def Keeps (text rest b : Str) : Prop :=
  ∀ i, i < text.length → isWordChar (byte (text ++ 0 :: rest) i) = true →
    byte b i = byte (text ++ 0 :: rest) i

theorem Placed.drop (h : Placed text q eq w) : text.drop eq = (text.drop q).dropWhile isWordChar := by
  rw [h.len, ← h.run]
  exact drop_advance isWordChar q

theorem Placed.append (h : Placed text q eq w) : text.drop q = w ++ text.drop eq := by
  rw [h.drop, ← h.run, List.takeWhile_append_dropWhile]

/-- A word ends where there is no byte of a word. -/
theorem Placed.ends (h : Placed text q eq w) (heq : eq < text.length) :
    isWordChar (byte (text ++ 0 :: rest) eq) = false := by
  obtain ⟨c, cs, hcs⟩ : ∃ c cs, text.drop eq = c :: cs := by
    cases hd : text.drop eq with
    | nil =>
      rw [List.drop_eq_nil_iff] at hd
      omega
    | cons c cs => exact ⟨c, cs, rfl⟩
  have hhead := List.head?_dropWhile_not isWordChar (text.drop q)
  rw [← h.drop, hcs] at hhead
  rw [byte_drop hcs]
  exact hhead

theorem Keeps.set (hk : Keeps text rest b) (h : Placed text q eq w) :
    Keeps text rest (b.set eq 0) := fun i hi hword => by
  rw [byte_set]
  by_cases hie : i = eq
  · rw [hie, h.ends (hie ▸ hi)] at hword
    cases hword
  · rw [if_neg hie]
    exact hk i hi hword

theorem Keeps.cString (hk : Keeps text rest b) (h0 : (0 : UInt8) ∉ text) (h : Placed text q eq w)
    (hend : byte b eq = 0) : cString b q = w := by
  have happ := h.append
  have hmem : ∀ a ∈ w, a ∈ text := fun a ha => List.mem_of_mem_drop (happ ▸ List.mem_append_left _ ha)
  refine cString_eq w _ (fun hw => h0 (hmem 0 hw)) (fun i hi => ?_) (by rw [← byte_add, ← h.len, hend])
  have hlen : q + i < text.length := by
    have := congrArg List.length happ
    rw [List.length_drop, List.length_append] at this
    omega
  have hbyte : byte (text ++ 0 :: rest) (q + i) = byte w i := by
    rw [byte_append_left hlen, byte_add, happ, byte_append_left hi]
  have hall : ∀ a ∈ w, isWordChar a = true := List.all_eq_true.mp (h.run ▸ List.all_takeWhile)
  have hword : isWordChar (byte w i) = true := by
    have hget : byte w i = w.get ⟨i, hi⟩ := by simp [byte, List.getD_eq_getElem?_getD, hi]
    rw [hget]
    exact hall _ (List.get_mem ..)
  rw [← byte_add, hk _ hlen (hbyte ▸ hword), hbyte]

/-! ### nulterminate -/

/-- The ends of words are NULs. -/
def Ends (b : Str) : Cmd → Prop
  | .exec e => ∀ i, some i ∈ e.eargv.toList → byte b i = 0
  | .redir cmd _ efile _ _ => Ends b cmd ∧ byte b efile = 0
  | .pipe left right => Ends b left ∧ Ends b right
  | .list left right => Ends b left ∧ Ends b right
  | .back cmd => Ends b cmd

theorem Ends.mono (h : Ends b c) (hb : ∀ i, byte b i = 0 → byte b' i = 0) : Ends b' c := by
  induction c with
  | exec e => exact fun i hi => hb i (h i hi)
  | redir cmd _ _ _ _ ih => exact ⟨ih h.1, hb _ h.2⟩
  | pipe left right ihl ihr => exact ⟨ihl h.1, ihr h.2⟩
  | list left right ihl ihr => exact ⟨ihl h.1, ihr h.2⟩
  | back cmd ih => exact ih h

/-- A step of nulterminate: words are left alone, and so are NULs. -/
def Cuts (text rest b b' : Str) : Prop := Keeps text rest b' ∧ ∀ i, byte b i = 0 → byte b' i = 0

theorem Cuts.trans {b'' : Str} (h : Cuts text rest b b') (h' : Cuts text rest b' b'') :
    Cuts text rest b b'' :=
  ⟨h'.1, fun i hi => h'.2 i (h.2 i hi)⟩

theorem Keeps.cuts (hk : Keeps text rest b) (h : Placed text q eq w) : Cuts text rest b (b.set eq 0) := by
  refine ⟨hk.set h, fun i hi => ?_⟩
  rw [byte_set]
  split
  · rfl
  · exact hi

theorem sat_nulArgs (ps : List (ℕ × ℕ)) (ws : List Str) (n : ℕ) (b : Str)
    (hps : List.Forall₂ (fun p w => Placed text p.1 p.2 w) ps ws) (hk : Keeps text rest b) :
    Sat (nulArgs (ps.map (fun p => some p.1) ++ List.replicate (n + 1) none)
        (ps.map (fun p => some p.2) ++ List.replicate (n + 1) none)) b
      (fun _ b' => Cuts text rest b b' ∧ ∀ p ∈ ps, byte b' p.2 = 0) fun _ => False := by
  induction hps generalizing b with
  | nil => exact .pure ⟨⟨hk, fun _ h => h⟩, by simp⟩
  | @cons p w ps ws hp _ ih =>
    have hcut := hk.cuts hp
    refine .modify_bind ((ih _ hcut.1).post ?_)
    rintro _ b' ⟨hcut', hends⟩
    refine ⟨hcut.trans hcut', fun p' hp' => ?_⟩
    rcases List.mem_cons.mp hp' with rfl | hp'
    · exact hcut'.2 _ (by rw [byte_set, if_pos rfl])
    · exact hends p' hp'

theorem sat_nulterminate (h : Shows text c t) (b : Str) (hk : Keeps text rest b) :
    Sat (nulterminate c) b (fun _ b' => Cuts text rest b b' ∧ Ends b' c) fun _ => False := by
  induction h generalizing b with
  | @exec e ws he =>
    obtain ⟨hlt, ps, hps, hargv, heargv⟩ := he
    obtain ⟨n, hn⟩ : ∃ n, MAXARGS - ps.length = n + 1 :=
      Nat.exists_eq_add_one.mpr (by rw [hps.length_eq]; omega)
    rw [hn] at hargv heargv
    unfold nulterminate
    rw [hargv, heargv]
    refine (sat_nulArgs ps ws n b hps hk).post ?_
    rintro _ b' ⟨hcut, hends⟩
    refine ⟨hcut, fun i hi => ?_⟩
    rw [heargv] at hi
    obtain ⟨p, hp, rfl⟩ : ∃ p ∈ ps, p.2 = i := by simpa using hi
    exact hends p hp
  | redir mode fd _ hw ih =>
    refine (ih b hk).bind ?_
    rintro _ b1 ⟨hcut, hends⟩
    have hcut' := hcut.1.cuts hw
    exact .modify ⟨hcut.trans hcut', hends.mono hcut'.2, by rw [byte_set, if_pos rfl]⟩
  | pipe _ _ ih ih' =>
    refine (ih b hk).bind ?_
    rintro _ b1 ⟨hcut, hends⟩
    refine (ih' b1 hcut.1).post ?_
    rintro _ b2 ⟨hcut', hends'⟩
    exact ⟨hcut.trans hcut', hends.mono hcut'.2, hends'⟩
  | list _ _ ih ih' =>
    refine (ih b hk).bind ?_
    rintro _ b1 ⟨hcut, hends⟩
    refine (ih' b1 hcut.1).post ?_
    rintro _ b2 ⟨hcut', hends'⟩
    exact ⟨hcut.trans hcut', hends.mono hcut'.2, hends'⟩
  | back _ ih => exact ih b hk

theorem readArgs_eq (h0 : (0 : UInt8) ∉ text) (hk : Keeps text rest b) (ps : List (ℕ × ℕ))
    (ws : List Str) (n : ℕ) (hps : List.Forall₂ (fun p w => Placed text p.1 p.2 w) ps ws)
    (hends : ∀ p ∈ ps, byte b p.2 = 0) :
    readArgs b (ps.map (fun p => some p.1) ++ List.replicate (n + 1) none) = some ws := by
  induction hps with
  | nil => rfl
  | @cons p w ps ws hp _ ih =>
    have hrest := ih fun p' hp' => hends p' (List.mem_cons_of_mem _ hp')
    simp only [List.map_cons, List.cons_append, readArgs, hrest, Option.map_some,
      hk.cString h0 hp (hends p List.mem_cons_self)]

/-- With NULs at their ends, the words of the tree are the C strings that the command points at. -/
theorem read_of_shows (h0 : (0 : UInt8) ∉ text) (h : Shows text c t) (hk : Keeps text rest b)
    (hends : Ends b c) : read b c = some t := by
  induction h with
  | @exec e ws he =>
    obtain ⟨hlt, ps, hps, hargv, heargv⟩ := he
    obtain ⟨n, hn⟩ : ∃ n, MAXARGS - ps.length = n + 1 :=
      Nat.exists_eq_add_one.mpr (by rw [hps.length_eq]; omega)
    have hnul : ∀ p ∈ ps, byte b p.2 = 0 := fun p hp => hends p.2 (by
      rw [heargv]
      exact List.mem_append_left _ (List.mem_map.mpr ⟨p, hp, rfl⟩))
    rw [hn] at hargv
    rw [read, hargv, readArgs_eq h0 hk ps ws n hps hnul]
    rfl
  | redir mode fd _ hw ih => rw [read, ih hends.1, hk.cString h0 hw hends.2]; rfl
  | pipe _ _ ih ih' => rw [read, ih hends.1, ih' hends.2]; rfl
  | list _ _ ih ih' => rw [read, ih hends.1, ih' hends.2]; rfl
  | back _ ih => rw [read, ih hends]; rfl

/-! ### parsecmd -/

theorem strlen_eq (h0 : (0 : UInt8) ∉ text) : strlen (text ++ 0 :: rest) = text.length := by
  have h : ∀ a ∈ text, decide (a ≠ 0) = true := fun a ha => decide_eq_true fun heq => h0 (heq ▸ ha)
  rw [strlen, List.takeWhile_append_of_pos h, List.takeWhile_cons_of_neg (by simp), List.append_nil]

theorem at_start : At text 0 (tokenise text) := ⟨Nat.zero_le _, by rw [List.drop_zero]⟩

theorem enough_fuel {fuel : ℕ} (hf : 4 * text.length + 4 ≤ fuel) :
    enough .line (tokenise text).length ≤ fuel := by
  have := length_tokenise_le text
  simp only [enough]
  omega

/-- From a command that shows a tree, nulterminate makes one that reads as the tree. -/
theorem sat_finish (h0 : (0 : UInt8) ∉ text) (h : Shows text c t) :
    Sat (do nulterminate c; pure c) (text ++ 0 :: rest) (fun c' b => read b c' = some t) fun _ =>
    False := by
  have hk : Keeps text rest (text ++ 0 :: rest) := fun _ _ _ => rfl
  refine (sat_nulterminate h _ hk).bind ?_
  rintro _ b ⟨hcut, hends⟩
  exact .pure (read_of_shows h0 h hcut.1 hends)

section

variable (h0 : (0 : UInt8) ∉ text) {fuel : ℕ} (hf : 4 * text.length + 4 ≤ fuel)

include h0 hf

/-- The command that is returned reads as the tree of a derivation. -/
theorem sat_parsecmd : Sat (parsecmd fuel) (text ++ 0 :: rest)
    (fun c b => ∃ t, Derives .line (tokenise text) t ∧ read b c = some t) fun e => ∃ m, e = .panic m := by
  have htop : Sat (parsetop (text ++ 0 :: rest) text.length fuel) 0 (fun c ps => ∃ T1 T' t,
    tokenise text = T1 ++ T' ∧
      At text ps T' ∧ Derives .line T1 t ∧ Shows text c t) fun e => ∃ m, e = .panic m := by
    refine (sound h0 fuel .line 0 _ at_start (enough_fuel hf)).bind ?_
    rintro c ps ⟨T1, T', t, hT, h, hd, hs⟩
    refine (sat_peek h0 (by simp) h).sure.bind ?_
    rintro _ ps' ⟨-, h'⟩
    exact .pure ⟨T1, T', t, hT, h', hd, hs⟩
  refine .get_bind ?_
  simp only [strlen_eq h0]
  rcases hrun : parsetop (text ++ 0 :: rest) text.length fuel 0 with e | ⟨c, ps⟩
  · exact .stop (htop.of_stop hrun)
  · obtain ⟨T1, T', t, hT, h', hd, hs⟩ := htop.of_ok hrun
    refine .ite (fun _ => .stop ⟨_, rfl⟩) fun hps => ?_
    rw [not_not] at hps
    have hnil : T' = [] := by rw [← h'.toks, hps, List.drop_length, tokenise_nil]
    rw [hnil, List.append_nil] at hT
    refine Sat.sure ((sat_finish h0 hs).post ?_)
    rintro c' b hr
    exact ⟨t, hT ▸ hd, hr⟩

/-- The tree of a derivation is returned. -/
theorem sat_parsecmd_of_derives (hd : Derives .line (tokenise text) t) :
    Sat (parsecmd fuel) (text ++ 0 :: rest) (fun c b => read b c = some t) fun _ => False := by
  have htop : Sat (parsetop (text ++ 0 :: rest) text.length fuel) 0
      (fun c ps => ps = text.length ∧ Shows text c t) fun _ => False := by
    have hstart : At text 0 (tokenise text ++ []) := by
      rw [List.append_nil]
      exact at_start
    refine (complete h0 hd fuel 0 [] hstart (fun _ ht => by cases ht) ?_).bind ?_
    · rw [List.append_nil]
      exact enough_fuel hf
    · rintro c ps ⟨h, hs⟩
      have hpeek : Sat (peek (text ++ 0 :: rest) text.length []) ps (fun _ ps' => ps' = text.length)
        fun _ => False :=
        .get_bind (.modify_bind (.pure (h.skip_nil rest)))
      exact hpeek.bind fun _ _ hps => .pure ⟨hps, hs⟩
  refine .get_bind ?_
  simp only [strlen_eq h0]
  rcases hrun : parsetop (text ++ 0 :: rest) text.length fuel 0 with e | ⟨c, ps⟩
  · exact (htop.of_stop hrun).elim
  · obtain ⟨hps, hs⟩ := htop.of_ok hrun
    exact .ite (fun hne => absurd hps hne) fun _ => sat_finish h0 hs

end

/-- **The shell's parser accepts its grammar**, for a command line without NULs and with enough
fuel. If it stops, it is with a panic; if it returns a command, every string of it can be read, with
a null pointer after the arguments; and it returns one that reads as `t` if and only if the line
derives with the tree `t`. -/
theorem parsecmd_grammar (text rest : Str) (h0 : (0 : UInt8) ∉ text) (fuel : ℕ)
    (hf : 4 * text.length + 4 ≤ fuel) :
    (∀ e, parsecmd fuel (text ++ 0 :: rest) = .error e → ∃ m, e = .panic m) ∧
    (∀ c b, parsecmd fuel (text ++ 0 :: rest) = .ok (c, b) → ∃ t, read b c = some t) ∧ ∀ t,
    (∃ c b, parsecmd fuel (text ++ 0 :: rest) = .ok (c, b) ∧ read b c = some t) ↔
    Derives .line (tokenise text) t := by
  have hsat : Sat (parsecmd fuel) (text ++ 0 :: rest) _ _ := sat_parsecmd h0 hf
  refine ⟨fun e he => hsat.of_stop he, fun c b hok => ?_, fun t => ⟨?_, fun hd => ?_⟩⟩
  · obtain ⟨t, -, hr⟩ := hsat.of_ok hok
    exact ⟨t, hr⟩
  · rintro ⟨c, b, hok, hr⟩
    obtain ⟨t', hd, hr'⟩ := hsat.of_ok hok
    rw [hr, Option.some.injEq] at hr'
    exact hr' ▸ hd
  · have hret : Sat (parsecmd fuel) (text ++ 0 :: rest) _ _ := sat_parsecmd_of_derives h0 hf hd
    rcases hrun : parsecmd fuel (text ++ 0 :: rest) with e | ⟨c, b⟩
    · exact (hret.of_stop hrun).elim
    · exact ⟨c, b, rfl, hret.of_ok hrun⟩

/-- `(a;b)>>f&` -/
def nested : Str := ['(', 'a', ';', 'b', ')', '>', '>', 'f', '&'].map ch

theorem parsecmd_grammar_nested :
    (∀ e, parsecmd 40 (nested ++ [0]) = .error e → ∃ m, e = .panic m) ∧
    (∀ c b, parsecmd 40 (nested ++ [0]) = .ok (c, b) → ∃ t, read b c = some t) ∧
    ∀ t, (∃ c b, parsecmd 40 (nested ++ [0]) = .ok (c, b) ∧ read b c = some t) ↔
    Derives .line (tokenise nested) t :=
  parsecmd_grammar nested [] (by decide) 40 (by decide)

example : (parsecmd 40 (nested ++ [0])).toOption.bind (fun r => read r.2 r.1) =
    some (.back (.redir (.list (.exec [[ch 'a']]) (.exec [[ch 'b']]))
      [ch 'f'] 0x201 1)) := by decide +kernel

end

end Xv6.Sh
