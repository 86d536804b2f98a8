/-
# The line discipline of the console

What readers get of what is typed. `consoleintr` and `consoleread` are those of `Xv6.Console`; here
any number of processes, none of them killed, are in `consoleread`, and each of them takes
`cons.lock` when it likes, also when it sleeps and there is nothing to read.

The three indices of `input` wrap around, but never pass each other (`Ordered`): typing puts
characters after those that are to be read, and changes none of these (`Kept`). So the characters
that `input.w` has passed, in the order in which it did, are those that the readers have taken and
those that are left.
-/
import Xv6.Console

namespace Xv6.LineDiscipline

open Console
open Function (update update_self update_of_ne)
open List (append_assoc not_mem_nil append_nil)

open Ring (content)

/-- What is committed and not yet read. -/
def pending (s : Input) : List UInt8 := content s.buf s.r s.w

/-- What is typed and not yet committed. -/
def edited (s : Input) : List UInt8 := content s.buf s.w s.e

/-- The characters that `input.w` has passed from `s` to `s'`. -/
def commits (s s' : Input) : List UInt8 := content s'.buf s.w s'.w

/-- `r`, `w` and `e` are in this order, and not more than the buffer apart. -/
structure Ordered (s : Input) : Prop where
  write : s.w - s.r ≤ s.e - s.r
  edit : s.e - s.r ≤ 128

/-- What there was to read is left as it was. -/
structure Kept (s s' : Input) : Prop where
  r : s'.r = s.r
  w : (s.w - s.r).toNat ≤ (s'.w - s.r).toNat
  same : content s'.buf s.r s.w = pending s

section

variable {s s' s'' : Input} {c : UInt8} {cs : List UInt8}

theorem Ordered.toNat_write (h : Ordered s) : (s.w - s.r).toNat ≤ (s.e - s.r).toNat :=
  UInt32.le_iff_toNat_le.mp h.write

theorem Ordered.toNat_edit (h : Ordered s) : (s.e - s.r).toNat ≤ 128 := UInt32.le_iff_toNat_le.mp h.edit

theorem ordered_iff : Ordered s ↔ (s.w - s.r).toNat ≤ (s.e - s.r).toNat ∧ (s.e - s.r).toNat ≤ 128 :=
  ⟨fun h => ⟨h.toNat_write, h.toNat_edit⟩, fun h =>
    ⟨UInt32.le_iff_toNat_le.mpr h.1, UInt32.le_iff_toNat_le.mpr h.2⟩⟩

/-! ### Typing -/

theorem Kept.refl (s : Input) : Kept s s := ⟨rfl, le_refl _, rfl⟩

theorem Kept.trans (h1 : Kept s s') (h2 : Kept s' s'') : Kept s s'' := by
  have hw2 : (s'.w - s.r).toNat ≤ (s''.w - s.r).toNat := h1.r ▸ h2.w
  refine ⟨h2.r.trans h1.r, h1.w.trans hw2, ?_⟩
  have hsame := h2.same
  unfold pending at hsame
  rw [h1.r, Ring.content_append s''.buf h1.w, Ring.content_append s'.buf h1.w] at hsame
  have hlen : (content s''.buf s.r s.w).length = (content s'.buf s.r s.w).length := by
    rw [Ring.length_content, Ring.length_content]
  exact (List.append_inj hsame hlen).1.trans h1.same

/-- What there is to read grows by what is committed. -/
theorem Kept.pending_eq (h : Kept s s') : pending s' = pending s ++ commits s s' := by
  unfold pending commits
  rw [h.r, Ring.content_append s'.buf h.w, h.same]
  rfl

/-- `input.e` goes back, not behind `input.w`. -/
theorem Ordered.back (h : Ordered s) (hne : s.e ≠ s.w) : Ordered { s with e := s.e - 1 } ∧
    (s.e - 1 - s.w).toNat < (s.e - s.w).toNat := by
  have hw := h.toNat_write
  have he := h.toNat_edit
  have hne' : s.e.toNat ≠ s.w.toNat := fun heq => hne (UInt32.toNat_inj.mp heq)
  have h1 := s.e.toNat_lt
  have h2 := s.w.toNat_lt
  have h3 := s.r.toNat_lt
  have hone : (1 : UInt32).toNat = 1 := rfl
  rw [ordered_iff]
  dsimp only
  simp only [UInt32.toNat_sub, hone] at hw he ⊢
  omega

theorem killLine_spec (k : ℕ) (s : Input) (h : Ordered s) : Ordered (Input.killLine k s) ∧
    (Input.killLine k s).buf = s.buf ∧ (Input.killLine k s).r = s.r ∧ (Input.killLine k s).w = s.w ∧
      ((Input.killLine k s).e - s.w).toNat ≤ (s.e - s.w).toNat := by
  induction k generalizing s with
  | zero => exact ⟨h, rfl, rfl, rfl, le_refl _⟩
  | succ k ih =>
    unfold Input.killLine
    split_ifs with hne
    · obtain ⟨hback, hlt⟩ := h.back hne.1
      obtain ⟨hord, hb, hr, hw, he⟩ := ih _ hback
      exact ⟨hord, hb, hr, hw, he.trans hlt.le⟩
    · exact ⟨h, rfl, rfl, rfl, le_refl _⟩

/-- The characters that take something back. -/
def erases (c : UInt8) : Bool := c = 0x15 ∨ c = 0x08 ∨ c = 0x7f

/-- **Erase and kill-line change nothing but `input.e`**, which does not go behind `input.w`. -/
theorem key_of_erases (h : Ordered s) (hc : erases c = true) :
    Ordered (s.key c).1 ∧ (s.key c).1.buf = s.buf ∧ (s.key c).1.r = s.r ∧ (s.key c).1.w = s.w ∧
    ((s.key c).1.e - s.w).toNat ≤ (s.e - s.w).toNat := by
  have hkeep : Ordered s ∧ s.buf = s.buf ∧ s.r = s.r ∧ s.w = s.w ∧ (s.e - s.w).toNat ≤
    (s.e - s.w).toNat :=
    ⟨h, rfl, rfl, rfl, le_refl _⟩
  unfold Input.key
  split
  · exact hkeep
  · split
    · exact killLine_spec _ s h
    · split
      · dsimp only
        split_ifs with hne
        · obtain ⟨hback, hlt⟩ := h.back hne
          exact ⟨hback, rfl, rfl, rfl, hlt.le⟩
        · exact hkeep
      · rename_i h1 h2
        unfold erases at hc
        simp only [decide_eq_true_eq] at hc
        tauto

/-- A character is put after all others. -/
theorem kept_store (h : Ordered s) (hroom : s.e - s.r < 128) (c : UInt8) :
    Ordered (s.store c).1 ∧ Kept s (s.store c).1 := by
  have hlt : (s.e - s.r).toNat < 128 := UInt32.lt_iff_toNat_lt.mp hroom
  have hw := h.toNat_write
  have hput : content (update s.buf (slot s.e) c) s.r (s.e + 1) = content s.buf s.r s.e ++
    [c] :=
    Ring.content_put (by decide) (by decide) hlt c
  have he : (s.e + 1 - s.r).toNat = (s.e - s.r).toNat + 1 := Ring.toNat_sub_add_one (by omega)
  have hsame : content (update s.buf (slot s.e) c) s.r s.w = content s.buf s.r s.w := by
    rw [Ring.content_append _ (show (s.w - s.r).toNat ≤ (s.e + 1 - s.r).toNat by omega),
      Ring.content_append s.buf hw,
      append_assoc] at hput
    exact (List.append_inj hput (by rw [Ring.length_content, Ring.length_content])).1
  unfold Input.store
  dsimp only
  split
  · refine ⟨ordered_iff.mpr ⟨le_refl _, ?_⟩, rfl, ?_, hsame⟩
    · dsimp only
      omega
    · dsimp only
      omega
  · refine ⟨ordered_iff.mpr ⟨?_, ?_⟩, rfl, le_refl _, hsame⟩
    · dsimp only
      omega
    · dsimp only
      omega

theorem kept_key (h : Ordered s) (c : UInt8) : Ordered (s.key c).1 ∧ Kept s (s.key c).1 := by
  by_cases hc : erases c = true
  · obtain ⟨hord, hb, hr, hw, -⟩ := key_of_erases h hc
    exact ⟨hord, hr, by rw [hw], by rw [hb]; rfl⟩
  · unfold erases at hc
    simp only [decide_eq_true_eq, not_or] at hc
    unfold Input.key
    rw [if_neg hc.1, if_neg (show ¬(c = 0x08 ∨ c = 0x7f) from not_or.mpr hc.2)]
    split
    · exact ⟨h, Kept.refl s⟩
    · split
      · rename_i hroom
        exact kept_store h hroom.2 _
      · exact ⟨h, Kept.refl s⟩

theorem kept_consoleintr (h : Ordered s) (cs : List UInt8) : Ordered (s.consoleintr cs).1 ∧
    Kept s (s.consoleintr cs).1 := by
  -- the loop, from any round on
  have hloop : ∀ (cs : List UInt8) (s : Input) (b : Bool), Ordered s →
      Ordered (cs.foldl (fun x c => ((x.1.key c).1, x.2 || (x.1.key c).2)) (s, b)).1 ∧
        Kept s (cs.foldl (fun x c => ((x.1.key c).1, x.2 || (x.1.key c).2)) (s, b)).1 := by
    intro cs
    induction cs with
    | nil => exact fun s b h => ⟨h, Kept.refl s⟩
    | cons c cs ih =>
      intro s b h
      obtain ⟨hord, hkept⟩ := kept_key h c
      obtain ⟨hord', hkept'⟩ := ih (s.key c).1 (b || (s.key c).2) hord
      exact ⟨hord', hkept.trans hkept'⟩
  exact hloop cs s false h

/-! ### Reading -/

/-- Why `consoleread` lets go of the lock. -/
inductive Stop where
  | full
  | line
  /-- `C('D')` is taken. -/
  | eof
  /-- `C('D')` is left for the next call. -/
  | left
  /-- There is nothing to read. -/
  | empty
  deriving DecidableEq

structure Drawn where
  bytes : List UInt8
  n : ℕ
  stop : Stop
  /-- What is left to read. -/
  rest : List UInt8

/-- What the loop of `consoleread` makes of the characters to read. -/
def draw (target : ℕ) : ℕ → List UInt8 → Drawn
  | 0, q => ⟨[], 0, .full, q⟩
  | n + 1, [] => ⟨[], n + 1, .empty, []⟩
  | n + 1, c :: q =>
    if c = 0x04 then if n + 1 < target then ⟨[], n + 1, .left, c :: q⟩ else ⟨[], n + 1, .eof, q⟩
    else if c = 0x0a then ⟨[c], n, .line, q⟩
    else { draw target n q with bytes := c :: (draw target n q).bytes }

/-- The characters that `input.r` has passed from `s` to `s'`. -/
def passes (s s' : Input) : List UInt8 := content s.buf s.r s'.r

/-- What a round of the loop does to `input`. -/
structure Passed (s s' : Input) : Prop where
  buf : s'.buf = s.buf
  w : s'.w = s.w
  r : (s'.r - s.r).toNat ≤ (s.w - s.r).toNat
  ordered : Ordered s'

theorem Passed.pending_eq (h : Passed s s') : pending s = passes s s' ++ pending s' := by
  unfold pending passes
  rw [h.buf, h.w]
  exact Ring.content_append s.buf h.r

theorem Passed.next (h : Ordered s) (hne : s.r ≠ s.w) : Passed s { s with r := s.r + 1 } := by
  have hw := h.toNat_write
  have he := h.toNat_edit
  have h1 := s.e.toNat_lt
  have h2 := s.w.toNat_lt
  have h3 := s.r.toNat_lt
  have hne' : s.r.toNat ≠ s.w.toNat := fun heq => hne (UInt32.toNat_inj.mp heq)
  have hone : (1 : UInt32).toNat = 1 := rfl
  refine ⟨rfl, rfl, ?_, ordered_iff.mpr ?_⟩
  · simp only [UInt32.toNat_sub, UInt32.toNat_add, hone]
    omega
  · simp only [UInt32.toNat_sub, UInt32.toNat_add, hone] at hw he ⊢
    omega

theorem Passed.trans_next (hne : s.r ≠ s.w) (h : Passed { s with r := s.r + 1 } s') : Passed s s' := by
  have hr := h.r
  have h1 := s'.r.toNat_lt
  have h2 := s.w.toNat_lt
  have h3 := s.r.toNat_lt
  have hne' : s.r.toNat ≠ s.w.toNat := fun heq => hne (UInt32.toNat_inj.mp heq)
  have hone : (1 : UInt32).toNat = 1 := rfl
  refine ⟨h.buf, h.w, ?_, h.ordered⟩
  dsimp only at hr
  simp only [UInt32.toNat_sub, UInt32.toNat_add, hone] at hr ⊢
  omega

/-- The loop has come to `a`, with `input` in `d`. -/
structure Refines (s : Input) (d : Input.Drained) (a : Drawn) : Prop where
  bytes : d.bytes = a.bytes
  n : d.n = a.n
  ended : d.ended = decide (a.stop ≠ .empty)
  rest : pending d.input = a.rest
  passed : Passed s d.input

/-- **The loop on the buffer is the loop on the list.** -/
theorem drain_refines (target n : ℕ) (s : Input) (h : Ordered s) : Refines s (s.drain target n)
    (draw target n (pending s)) := by
  have stay : Passed s s := ⟨rfl, rfl, by rw [UInt32.sub_self]; exact Nat.zero_le _, h⟩
  induction n generalizing s with
  | zero => exact ⟨rfl, rfl, rfl, rfl, stay⟩
  | succ n ih =>
    unfold Input.drain
    by_cases hrw : s.r = s.w
    · have hnil : pending s = [] := by
        unfold pending
        rw [hrw, Ring.content_self]
      rw [if_pos hrw, hnil]
      exact ⟨rfl, rfl, rfl, hnil, stay⟩
    · have hcons : pending s = s.buf (slot s.r) :: pending { s with r := s.r + 1 } :=
        Ring.content_take s.buf hrw
      have hnext := Passed.next h hrw
      rw [if_neg hrw, hcons]
      unfold draw
      dsimp only
      split
      · split
        · -- the character is given back
          have hsame : ({ s with r := s.r + 1 - 1 } : Input) = s := by
            rw [UInt32.add_sub_cancel]
          rw [hsame]
          exact ⟨rfl, rfl, rfl, hcons, stay⟩
        · exact ⟨rfl, rfl, rfl, rfl, hnext⟩
      · split
        · exact ⟨rfl, rfl, rfl, rfl, hnext⟩
        · have hrec :=
            ih _ hnext.ordered
              ⟨rfl, rfl, by rw [UInt32.sub_self]; exact Nat.zero_le _, hnext.ordered⟩
          exact ⟨congrArg _ hrec.bytes, hrec.n, hrec.ended, hrec.rest, hrec.passed.trans_next hrw⟩

/-- What a call gets with the lock held once. -/
structure Share (target n : ℕ) (q : List UInt8) (a : Drawn) : Prop where
  /-- The characters are handed over in order; one `C('D')` may be taken and not handed over. -/
  split : q = a.bytes ++ (if a.stop = .eof then [0x04] else []) ++ a.rest
  length : a.bytes.length + a.n = n
  plain : 0x04 ∉ a.bytes
  line : 0x0a ∉ a.bytes.dropLast
  open_ : a.stop ≠ .line → 0x0a ∉ a.bytes
  closed : a.stop = .line → a.bytes.getLast? = some 0x0a
  full : a.stop = .full → a.n = 0
  eof : a.stop = .eof → a.bytes = [] ∧ target ≤ a.n
  left : a.stop = .left → a.n < target ∧ a.rest.head? = some 0x04

/-- One more character before it, which ends nothing. -/
theorem Share.cons {target n : ℕ} {q : List UInt8} {a : Drawn} (h : Share target n q a)
    (hn : n < target) (h4 : c ≠ 0x04) (h10 : c ≠ 0x0a) : Share target (n + 1) (c :: q)
    { a with bytes := c :: a.bytes } := by
  have hlen := h.length
  refine ⟨congrArg (c :: ·) h.split, ?_, ?_, ?_, ?_, ?_, h.full, ?_, h.left⟩
  · show (c :: a.bytes).length + a.n = n + 1
    rw [List.length_cons]
    omega
  · exact fun hmem => (List.mem_cons.mp hmem).elim (fun heq => h4 heq.symm) h.plain
  · show 0x0a ∉ (c :: a.bytes).dropLast
    cases hb : a.bytes with
    | nil => exact not_mem_nil
    | cons b bs =>
      rw [List.dropLast_cons_cons, ← hb]
      exact fun hmem => (List.mem_cons.mp hmem).elim (fun heq => h10 heq.symm) h.line
  · exact fun hs hmem => (List.mem_cons.mp hmem).elim (fun heq => h10 heq.symm) (h.open_ hs)
  · intro hs
    show (c :: a.bytes).getLast? = some 0x0a
    rw [List.getLast?_cons, h.closed hs]
    rfl
  · -- by now there is less room than at the start
    intro hs
    have := (h.eof hs).2
    omega

theorem share_draw (target n : ℕ) (q : List UInt8) (hn : n ≤ target) :
    Share target n q (draw target n q) := by
  induction n generalizing q with
  | zero =>
    refine ⟨rfl, rfl, not_mem_nil, not_mem_nil, fun _ => not_mem_nil, ?_, fun _ =>
      rfl, ?_, ?_⟩
    all_goals
      intro h
      cases h
  | succ n ih =>
    cases q with
    | nil =>
      refine ⟨rfl, Nat.zero_add _, not_mem_nil, not_mem_nil, fun _ => not_mem_nil,
        ?_, ?_, ?_, ?_⟩
      all_goals
        intro h
        cases h
    | cons c q =>
      unfold draw
      split
      · rename_i hc
        split_ifs with hlt
        · refine ⟨rfl, Nat.zero_add _, not_mem_nil, not_mem_nil, fun _ =>
            not_mem_nil, ?_, ?_, ?_, ?_⟩
          · intro h
            cases h
          · intro h
            cases h
          · intro h
            cases h
          · exact fun _ => ⟨hlt, congrArg some hc⟩
        · refine ⟨congrArg (· :: q) hc, Nat.zero_add _, not_mem_nil, not_mem_nil, fun _ =>
            not_mem_nil, ?_, ?_, ?_, ?_⟩
          · intro h
            cases h
          · intro h
            cases h
          · exact fun _ => ⟨rfl, Nat.not_lt.mp hlt⟩
          · intro h
            cases h
      · rename_i h4
        split_ifs with h10
        · refine ⟨rfl, Nat.add_comm 1 n, ?_, not_mem_nil, fun h => absurd rfl h, ?_, ?_, ?_, ?_⟩
          · rw [List.mem_singleton]
            exact fun heq => h4 heq.symm
          · exact fun _ => congrArg some h10
          all_goals
            intro h
            cases h
        · exact (ih q (by omega)).cons hn h4 h10

end

/-! ### Calls -/

/-- A call of `consoleread` that has not returned. -/
structure Call where
  id : ℕ
  target : ℕ
  n : ℕ

/-- What a call did when it had the lock: the characters that `input.r` passed, and what it copied
to `dst`. -/
structure Take where
  id : ℕ
  chars : List UInt8
  bytes : List UInt8

/-- A call returned `ret`, and left `rest` to read. -/
structure Return where
  id : ℕ
  target : ℕ
  ret : ℕ
  rest : List UInt8

/-- The console and the calls; and what has happened so far. -/
structure State (P : Type) where
  input : Input
  calls : P → Option Call
  /-- The number of calls. -/
  count : ℕ
  /-- The characters that `input.w` has passed. -/
  committed : List UInt8
  takes : List Take
  returns : List Return

inductive Act (P : Type) where
  | call (p : P) (n : ℕ)
  /-- `cons.lock` is acquired, and held until the call returns or sleeps. -/
  | read (p : P)
  | consoleintr (cs : List UInt8)

/-- All that a call has copied to `dst`. -/
def delivered (takes : List Take) (id : ℕ) : List UInt8 := (takes.filter (·.id = id)).flatMap (·.bytes)

section

variable {P : Type} [DecidableEq P] {takes : List Take} {t : Take} {id : ℕ} {c : Call}
  {d : Input.Drained}

def init : State P := ⟨⟨fun _ => 0, 0, 0, 0⟩, fun _ => none, 0, [], [], []⟩

def State.read (s : State P) (p : P) (c : Call) : State P :=
  let d := s.input.drain c.target c.n
  let s' :=
    { s with input := d.input, takes := s.takes ++ [Take.mk c.id (passes s.input d.input) d.bytes] }
  if d.ended then
    { s' with
      calls := update s.calls p none
      returns := s.returns ++ [Return.mk c.id c.target (c.target - d.n) (pending d.input)] }
  else { s' with calls := update s.calls p (some { c with n := d.n }) }

def step (s : State P) : Act P → Outcome (State P)
  | .call p n =>
    match s.calls p with
    | none =>
      .next { s with calls := update s.calls p (some ⟨s.count, n, n⟩), count := s.count + 1 }
    | some _ => .blocked
  | .read p =>
    match s.calls p with
    | none => .blocked
    | some c => .next (s.read p c)
  | .consoleintr cs =>
    .next { s with
      input := (s.input.consoleintr cs).1
      committed := s.committed ++ commits s.input (s.input.consoleintr cs).1 }

/-- A call in progress. -/
structure Open (s : State P) (c : Call) : Prop where
  id : c.id < s.count
  length : (delivered s.takes c.id).length + c.n = c.target
  line : 0x0a ∉ delivered s.takes c.id
  unreturned : ∀ r ∈ s.returns, r.id ≠ c.id

/-- A call that has returned: its result is the number of the bytes it delivered, which are not more
than it asked for and not more than a line; and it returned because it had all it asked for, or a
line, or had taken `C('D')` and nothing else, or had something and found `C('D')` next. -/
structure Closed (s : State P) (r : Return) : Prop where
  id : r.id < s.count
  ret : r.ret = (delivered s.takes r.id).length
  le : r.ret ≤ r.target
  line : 0x0a ∉ (delivered s.takes r.id).dropLast
  why : r.ret = r.target ∨ (delivered s.takes r.id).getLast? = some 0x0a ∨
    ((∃ t ∈ s.takes, t.id = r.id ∧ t.chars = [0x04]) ∧ r.ret = 0) ∨ (0 < r.ret ∧ r.rest.head? = some 0x04)

/-- The characters taken are those delivered, or one `C('D')` by a call that returns 0. -/
def Fair (s : State P) (t : Take) : Prop :=
  t.chars = t.bytes ∧ 0x04 ∉ t.bytes ∨ t.chars = [0x04] ∧ t.bytes = [] ∧ ∃ r ∈ s.returns,
    r.id = t.id ∧ r.ret = 0

structure Inv (s : State P) : Prop where
  ordered : Ordered s.input
  stream : s.takes.flatMap (·.chars) ++ pending s.input = s.committed
  ids : ∀ t ∈ s.takes, t.id < s.count
  fair : ∀ t ∈ s.takes, Fair s t
  open_ : ∀ p c, s.calls p = some c → Open s c
  inj : ∀ p q c d, s.calls p = some c → s.calls q = some d → c.id = d.id → p = q
  closed : ∀ r ∈ s.returns, Closed s r
  once : (s.returns.map (·.id)).Nodup

variable {s s' : State P} {p : P} {a : Act P}

omit [DecidableEq P] in
theorem inv_init : Inv (init : State P) := by
  refine ⟨ordered_iff.mpr ⟨le_refl _, by simp [init]⟩, Ring.content_self _ _, ?_, ?_, ?_, ?_, ?_,
    List.nodup_nil⟩
  · exact fun t ht => absurd ht not_mem_nil
  · exact fun t ht => absurd ht not_mem_nil
  · intro p c h
    cases h
  · intro p q c d h
    cases h
  · exact fun r hr => absurd hr not_mem_nil

omit [DecidableEq P] in
theorem inv_consoleintr (h : Inv s) (cs : List UInt8) : Inv { s with
    input := (s.input.consoleintr cs).1
    committed := s.committed ++ commits s.input (s.input.consoleintr cs).1 } := by
  obtain ⟨hord, hkept⟩ := kept_consoleintr h.ordered cs
  refine ⟨hord, ?_, h.ids, h.fair, fun p c hc => ?_, h.inj, fun r hr => ?_, h.once⟩
  · dsimp only
    rw [hkept.pending_eq, ← append_assoc, h.stream]
  · obtain ⟨h1, h2, h3, h4⟩ := h.open_ p c hc
    exact ⟨h1, h2, h3, h4⟩
  · obtain ⟨h1, h2, h3, h4, h5⟩ := h.closed r hr
    exact ⟨h1, h2, h3, h4, h5⟩

omit [DecidableEq P] in
theorem delivered_of_new (h : Inv s) : delivered s.takes s.count = [] := by
  unfold delivered
  rw [List.filter_eq_nil_iff.mpr fun t ht => ?_]
  · rfl
  · have := h.ids t ht
    simp only [decide_eq_true_eq]
    omega

theorem inv_call (h : Inv s) (p : P) (n : ℕ) :
    Inv { s with calls := update s.calls p (some ⟨s.count, n, n⟩), count := s.count + 1 } := by
  have hnew := delivered_of_new h
  have hcases : ∀ q c, update s.calls p (some ⟨s.count, n, n⟩) q = some c →
      c = ⟨s.count, n, n⟩ ∧ q = p ∨ s.calls q = some c ∧ q ≠ p := by
    intro q c hc
    by_cases hq : q = p
    · rw [hq, update_self] at hc
      exact .inl ⟨(Option.some.inj hc).symm, hq⟩
    · rw [update_of_ne hq] at hc
      exact .inr ⟨hc, hq⟩
  refine ⟨h.ordered, h.stream, fun t ht => ?_, h.fair, fun q c hc => ?_, fun q q' c d hc hd hid =>
    ?_, fun r hr => ?_, h.once⟩
  · exact Nat.lt_succ_of_lt (h.ids t ht)
  · rcases hcases q c hc with ⟨rfl, -⟩ | ⟨hc', -⟩
    · refine ⟨Nat.lt_succ_self _, ?_, ?_, fun r hr => ?_⟩
      · dsimp only
        rw [hnew, List.length_nil, Nat.zero_add]
      · dsimp only
        rw [hnew]
        exact not_mem_nil
      · exact (Nat.ne_of_lt (h.closed r hr).id)
    · obtain ⟨h1, h2, h3, h4⟩ := h.open_ q c hc'
      exact ⟨Nat.lt_succ_of_lt h1, h2, h3, h4⟩
  · rcases hcases q c hc with ⟨rfl, hq⟩ | ⟨hc', -⟩
    · rcases hcases q' d hd with ⟨-, hq'⟩ | ⟨hd', -⟩
      · rw [hq, hq']
      · exact absurd hid.symm (Nat.ne_of_lt (h.open_ q' d hd').id)
    · rcases hcases q' d hd with ⟨rfl, -⟩ | ⟨hd', -⟩
      · exact absurd hid (Nat.ne_of_lt (h.open_ q c hc').id)
      · exact h.inj q q' c d hc' hd' hid
  · obtain ⟨h1, h2, h3, h4, h5⟩ := h.closed r hr
    exact ⟨Nat.lt_succ_of_lt h1, h2, h3, h4, h5⟩

/-! ### A call with the lock -/

theorem delivered_append (takes : List Take) (t : Take) (id : ℕ) :
    delivered (takes ++ [t]) id = delivered takes id ++ if t.id = id then t.bytes else [] := by
  unfold delivered
  rw [List.filter_append, List.flatMap_append]
  by_cases ht : t.id = id
  · rw [if_pos ht, List.filter_cons_of_pos (by simpa using ht)]
    simp
  · rw [if_neg ht, List.filter_cons_of_neg (by simpa using ht)]
    rfl

theorem delivered_other (hne : t.id ≠ id) : delivered (takes ++ [t]) id = delivered takes id := by
  rw [delivered_append, if_neg hne, append_nil]

theorem delivered_own (heq : t.id = id) :
    delivered (takes ++ [t]) id = delivered takes id ++ t.bytes := by
  rw [delivered_append, if_pos heq]

omit [DecidableEq P] in
theorem Fair.later (h : Fair s t) (hret : ∀ r ∈ s.returns, r ∈ s'.returns) : Fair s' t := by
  rcases h with h | ⟨hc, hb, r, hr, hid⟩
  · exact .inl h
  · exact .inr ⟨hc, hb, r, hret r hr, hid⟩

omit [DecidableEq P] in
theorem Closed.later {r : Return} (h : Closed s r) (hne : t.id ≠ r.id)
    (ht : s'.takes = s.takes ++ [t]) (hn : s'.count = s.count) : Closed s' r := by
  have hd : delivered s'.takes r.id = delivered s.takes r.id := by rw [ht, delivered_other hne]
  refine ⟨hn ▸ h.id, hd ▸ h.ret, h.le, hd ▸ h.line, ?_⟩
  rcases h.why with hfull | hline | ⟨⟨t', ht', h'⟩, h0⟩ | hleft
  · exact .inl hfull
  · exact .inr (.inl (hd ▸ hline))
  · exact .inr (.inr (.inl ⟨⟨t', ht ▸ List.mem_append_left _ ht', h'⟩, h0⟩))
  · exact .inr (.inr (.inr hleft))

omit [DecidableEq P] in
theorem Open.later (h : Open s c) (hne : t.id ≠ c.id)
    (ht : s'.takes = s.takes ++ [t]) (hn : s'.count = s.count)
    (hret : ∀ r ∈ s'.returns, r ∈ s.returns ∨ r.id = t.id) : Open s' c := by
  have hd : delivered s'.takes c.id = delivered s.takes c.id := by rw [ht, delivered_other hne]
  refine ⟨hn ▸ h.id, hd ▸ h.length, hd ▸ h.line, fun r hr => ?_⟩
  rcases hret r hr with hr | hr
  · exact h.unreturned r hr
  · rw [hr]
    exact hne

/-- What a call has when it lets go of the lock. -/
structure Served (s : State P) (c : Call) (d : Input.Drained) (a : Drawn) : Prop where
  refines : Refines s.input d a
  share : Share c.target c.n (pending s.input) a
  chars : passes s.input d.input = a.bytes ++ if a.stop = .eof then [0x04] else []

omit [DecidableEq P] in
theorem served (h : Inv s) (hp : s.calls p = some c) :
    Served s c (s.input.drain c.target c.n) (draw c.target c.n (pending s.input)) := by
  have hn : c.n ≤ c.target := by
    have := (h.open_ p c hp).length
    omega
  have href := drain_refines c.target c.n s.input h.ordered
  have hshare := share_draw c.target c.n (pending s.input) hn
  refine ⟨href, hshare, ?_⟩
  have hsplit := hshare.split
  rw [← href.rest] at hsplit
  exact List.append_cancel_right (href.passed.pending_eq.symm.trans hsplit)

theorem update_cases {calls : P → Option Call} {x : Option Call} {q : P}
    (hc : update calls p x q = some c) : q = p ∧ x = some c ∨ q ≠ p ∧ calls q = some c := by
  by_cases hq : q = p
  · rw [hq, update_self] at hc
    exact .inl ⟨hq, hc⟩
  · rw [update_of_ne hq] at hc
    exact .inr ⟨hq, hc⟩

/-- The call finds nothing to read, and sleeps. -/
theorem inv_sleep {a : Drawn} (h : Inv s) (hp : s.calls p = some c)
    (hs : Served s c d a) (hstop : a.stop = .empty) : Inv { s with
      input := d.input
      takes := s.takes ++ [Take.mk c.id (passes s.input d.input) d.bytes]
      calls := update s.calls p (some { c with n := d.n }) } := by
  have hopen := h.open_ p c hp
  have hchars : passes s.input d.input = d.bytes := by
    rw [hs.chars, hs.refines.bytes, hstop]
    exact append_nil _
  have hlen := hs.share.length
  rw [← hs.refines.bytes, ← hs.refines.n] at hlen
  refine ⟨hs.refines.passed.ordered, ?_, fun t ht => ?_, fun t ht => ?_, fun q e he => ?_,
    fun q q' e e' he he' hid => ?_,
    fun r hr => ?_, h.once⟩
  · dsimp only
    rw [List.flatMap_append, List.flatMap_singleton, append_assoc,
      ← hs.refines.passed.pending_eq, h.stream]
  · rcases List.mem_append.mp ht with ht | ht
    · exact h.ids t ht
    · rw [List.mem_singleton.mp ht]
      exact hopen.id
  · rcases List.mem_append.mp ht with ht | ht
    · exact (h.fair t ht).later fun r hr => hr
    · rw [List.mem_singleton.mp ht]
      exact .inl ⟨hchars, hs.refines.bytes ▸ hs.share.plain⟩
  · rcases update_cases he with ⟨-, he⟩ | ⟨hq, he⟩
    · cases he
      refine ⟨hopen.id, ?_, ?_, hopen.unreturned⟩
      · dsimp only
        rw [delivered_own rfl, List.length_append]
        have := hopen.length
        dsimp only
        omega
      · dsimp only
        rw [delivered_own rfl, List.mem_append, not_or]
        refine ⟨hopen.line, ?_⟩
        dsimp only
        rw [hs.refines.bytes]
        exact hs.share.open_ (by rw [hstop]; decide)
    · have hne : c.id ≠ e.id := fun hid => hq (h.inj q p e c he hp hid.symm)
      exact (h.open_ q e he).later hne rfl rfl fun r hr => .inl hr
  · have hown : ∀ {q e}, update s.calls p (some { c with n := d.n }) q = some e →
        ∃ e0, s.calls q = some e0 ∧ e0.id = e.id := fun {q e} hupd => by
      rcases update_cases hupd with ⟨hq, hx⟩ | ⟨-, hx⟩
      · cases hx
        exact ⟨c, hq ▸ hp, rfl⟩
      · exact ⟨e, hx, rfl⟩
    obtain ⟨e0, he0, hi⟩ := hown he
    obtain ⟨e1, he1, hi'⟩ := hown he'
    exact h.inj q q' e0 e1 he0 he1 (by rw [hi, hi', hid])
  · have hne : c.id ≠ r.id := (hopen.unreturned r hr).symm
    exact (h.closed r hr).later hne rfl rfl

omit [DecidableEq P] in
theorem ret_of_eof {a : Drawn} (hs : Served s c d a)
    (heof : a.stop = .eof) : c.target - d.n = 0 := by
  have := (hs.share.eof heof).2
  rw [hs.refines.n]
  omega

omit [DecidableEq P] in
theorem closed_return {a : Drawn} (h : Inv s)
    (hp : s.calls p = some c) (hs : Served s c d a) (hstop : a.stop ≠ .empty)
    (ht : s'.takes = s.takes ++ [Take.mk c.id (passes s.input d.input) d.bytes])
    (hn : s'.count = s.count) : Closed s' ⟨c.id, c.target, c.target - d.n, pending d.input⟩ := by
  have hopen := h.open_ p c hp
  have hopenlen := hopen.length
  have hlen := hs.share.length
  have hd : delivered s'.takes c.id = delivered s.takes c.id ++ a.bytes := by
    rw [ht, delivered_own rfl]
    dsimp only
    rw [hs.refines.bytes]
  have hdlen : (delivered s'.takes c.id).length = (delivered s.takes c.id).length + a.bytes.length := by
    rw [hd, List.length_append]
  rw [hs.refines.n]
  refine ⟨hn ▸ hopen.id, ?_, Nat.sub_le _ _, ?_, ?_⟩
  · dsimp only
    omega
  · dsimp only
    rw [hd]
    by_cases hnil : a.bytes = []
    · rw [hnil, append_nil]
      exact fun hmem => hopen.line (List.mem_of_mem_dropLast hmem)
    · rw [List.dropLast_append_of_ne_nil hnil, List.mem_append, not_or]
      exact ⟨hopen.line, hs.share.line⟩
  · dsimp only
    cases hcase : a.stop with
    | full =>
      have := hs.share.full hcase
      exact .inl (by omega)
    | line =>
      refine .inr (.inl ?_)
      rw [hd, List.getLast?_append, hs.share.closed hcase]
      rfl
    | eof =>
      obtain ⟨hnil, hle⟩ := hs.share.eof hcase
      refine .inr
        (.inr (.inl ⟨⟨_, ht ▸ List.mem_append_right _ (List.mem_singleton_self _), rfl, ?_⟩,
          by omega⟩))
      dsimp only
      rw [hs.chars, hnil, hcase]
      rfl
    | left =>
      obtain ⟨hlt, hhead⟩ := hs.share.left hcase
      exact .inr (.inr (.inr ⟨by omega, hs.refines.rest ▸ hhead⟩))
    | empty => exact absurd hcase hstop

theorem inv_return {a : Drawn} (h : Inv s) (hp : s.calls p = some c)
    (hs : Served s c d a) (hstop : a.stop ≠ .empty) : Inv { s with
      input := d.input
      takes := s.takes ++ [Take.mk c.id (passes s.input d.input) d.bytes]
      calls := update s.calls p none
      returns := s.returns ++ [Return.mk c.id c.target (c.target - d.n) (pending d.input)] } := by
  have hopen := h.open_ p c hp
  refine ⟨hs.refines.passed.ordered, ?_, fun t ht => ?_, fun t ht => ?_, fun q e he => ?_,
    fun q q' e e' he he' hid => ?_,
    fun r hr => ?_, ?_⟩
  · dsimp only
    rw [List.flatMap_append, List.flatMap_singleton, append_assoc,
      ← hs.refines.passed.pending_eq, h.stream]
  · rcases List.mem_append.mp ht with ht | ht
    · exact h.ids t ht
    · rw [List.mem_singleton.mp ht]
      exact hopen.id
  · rcases List.mem_append.mp ht with ht | ht
    · exact (h.fair t ht).later fun r hr => List.mem_append_left _ hr
    · rw [List.mem_singleton.mp ht]
      by_cases heof : a.stop = .eof
      · have hnil := (hs.share.eof heof).1
        refine .inr ⟨?_, hs.refines.bytes.trans hnil, _,
          List.mem_append_right _ (List.mem_singleton_self _), rfl, ?_⟩
        · dsimp only
          rw [hs.chars, hnil, heof]
          rfl
        · exact ret_of_eof hs heof
      · refine .inl ⟨?_, hs.refines.bytes ▸ hs.share.plain⟩
        dsimp only
        rw [hs.chars, if_neg heof, append_nil, hs.refines.bytes]
  · rcases update_cases he with ⟨-, hx⟩ | ⟨hq, he⟩
    · cases hx
    · have hne : c.id ≠ e.id := fun hid => hq (h.inj q p e c he hp hid.symm)
      refine (h.open_ q e he).later hne rfl rfl fun r hr => ?_
      rcases List.mem_append.mp hr with hr | hr
      · exact .inl hr
      · exact .inr (by rw [List.mem_singleton.mp hr])
  · rcases update_cases he with ⟨-, hx⟩ | ⟨-, he⟩
    · cases hx
    · rcases update_cases he' with ⟨-, hx⟩ | ⟨-, he'⟩
      · cases hx
      · exact h.inj q q' e e' he he' hid
  · rcases List.mem_append.mp hr with hr | hr
    · exact (h.closed r hr).later (hopen.unreturned r hr).symm rfl rfl
    · rw [List.mem_singleton.mp hr]
      exact closed_return h hp hs hstop rfl rfl
  · dsimp only
    rw [List.map_append, List.map_singleton, List.nodup_append]
    refine ⟨h.once, List.nodup_singleton _, fun i hi j hj hij => ?_⟩
    obtain ⟨r, hr, hri⟩ := List.mem_map.mp hi
    rw [List.mem_singleton] at hj
    exact hopen.unreturned r hr (by rw [hri, hij, hj])

theorem inv_step (h : Inv s) (hs : step s a = .next s') : Inv s' := by
  cases a with
  | call p n =>
    unfold step at hs
    dsimp only at hs
    split at hs
    · cases hs
      exact inv_call h p n
    · cases hs
  | read p =>
    unfold step at hs
    dsimp only at hs
    split at hs
    · cases hs
    · rename_i c hp
      cases hs
      have hserved := served h hp
      have hended := hserved.refines.ended
      unfold State.read
      dsimp only
      split_ifs with hend
      · rw [hend] at hended
        exact inv_return h hp hserved (by simpa using hended.symm)
      · rw [Bool.not_eq_true] at hend
        rw [hend] at hended
        exact inv_sleep h hp hserved (by simpa using hended.symm)
  | consoleintr cs =>
    cases hs
    exact inv_consoleintr h cs

/-- **The line discipline**, for any order of typed characters and calls: the indices keep their
order, however often they wrap; what has been taken and what is left is what was committed, in
order; a take delivers what it takes, or takes one `C('D')` and delivers nothing, by a call that
returns 0; a call returns once, at most a line and at most what it asked for, and leaves a `C('D')`
after other bytes for the next; and erase and kill-line leave what is committed. -/
theorem line_discipline (h : Machine.Reach step (fun _ _ => True) (init : State P) s) :
    s.input.w - s.input.r ≤ s.input.e - s.input.r ∧ s.input.e - s.input.r ≤ 128 ∧
    s.takes.flatMap (·.chars) ++ pending s.input = s.committed ∧ (∀ t ∈ s.takes, Fair s t) ∧
    (∀ r ∈ s.returns, Closed s r) ∧ (s.returns.map (·.id)).Nodup ∧
    ∀ c, erases c = true → (s.input.key c).1.r = s.input.r ∧ (s.input.key c).1.w = s.input.w ∧
      (s.input.key c).1.buf = s.input.buf ∧ edited (s.input.key c).1 <+: edited s.input := by
  have hinv : Inv s := h.inv inv_init fun _ _ _ hinv _ hs => inv_step hinv hs
  refine ⟨hinv.ordered.write, hinv.ordered.edit, hinv.stream, hinv.fair, hinv.closed, hinv.once,
    fun c hc => ?_⟩
  obtain ⟨-, hbuf, hr, hw, he⟩ := key_of_erases hinv.ordered hc
  refine ⟨hr, hw, hbuf, ?_⟩
  unfold edited
  rw [hbuf, hw, Ring.content_append s.input.buf he]
  exact List.prefix_append _ _

end

/-- Two calls; the second one gets the `C('D')` that the first one has left. -/
theorem line_discipline_eof : ∃ s : State (Fin 1),
    (s.committed, s.returns.map fun r => (r.id, r.ret)) = ([0x61, 0x04], [(0, 1), (1, 0)]) ∧
    s.takes.flatMap (·.chars) ++ pending s.input = s.committed ∧ (∀ t ∈ s.takes, Fair s t) ∧
    ∀ r ∈ s.returns, Closed s r := by
  obtain ⟨s, hs, hf⟩ := Machine.exists_reach step (fun _ _ => True) init
    [.call (0 : Fin 1) 5, .consoleintr [0x62, 0x08, 0x61, 0x04], .read 0, .call 0 5, .read 0]
    (fun s => (s.committed, s.returns.map fun r => (r.id, r.ret))) ([0x61, 0x04], [(0, 1), (1, 0)])
      (by decide +kernel)
  obtain ⟨-, -, hstream, hfair, hclosed, -, -⟩ := line_discipline hs
  exact ⟨s, hf, hstream, hfair, hclosed⟩

end Xv6.LineDiscipline
