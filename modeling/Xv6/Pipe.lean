/-
# Pipes

pipe.c with any number of readers and writers. A process that calls `pipewrite` or `piperead`
acquires `p->lock` and goes on until it returns or sleeps; this is one action. A writer that has
found the pipe full stores the rest of its bytes when it has been woken, after whatever others have
stored meanwhile.

Beside the pipe the state records the bytes stored, each with the number of its `pipewrite` call,
the bytes returned by reads, and what the calls of `pipewrite` have returned. That the pipe is freed
when both ends are closed is not modelled: nobody is in pipe.c then.

Whatever the order of the calls, what is read and what is in the buffer is what was stored
(`stream_of_reach`).
-/
import Xv6.Lib.Machine
import Xv6.Lib.Ring

namespace Xv6.Pipes

abbrev PIPESIZE : ℕ := 512

/-- `struct pipe` -/
structure Pipe where
  data : Fin PIPESIZE → UInt8
  nread : UInt32
  nwrite : UInt32
  readopen : Bool
  writeopen : Bool

namespace Pipe

def Full (s : Pipe) : Prop := s.nwrite = s.nread + 512

instance (s : Pipe) : Decidable s.Full := inferInstanceAs (Decidable (_ = _))

/-- `p->data[p->nwrite++ % PIPESIZE] = b` -/
def put (s : Pipe) (b : UInt8) : Pipe :=
  { s with data := Function.update s.data (Ring.slot PIPESIZE s.nwrite) b, nwrite := s.nwrite + 1 }

/-- The loop of `pipewrite` until the pipe is full: the bytes stored and those left. -/
def fill : List UInt8 → Pipe → List UInt8 × List UInt8 × Pipe
  | [], s => ([], [], s)
  | b :: bs, s =>
    if s.Full then ([], b :: bs, s)
    else
      let x := fill bs (s.put b)
      (b :: x.1, x.2)

/-- The copying loop of `piperead`. -/
def copy : ℕ → Pipe → List UInt8 × Pipe
  | 0, s => ([], s)
  | n + 1, s =>
    if s.nread = s.nwrite then ([], s)
    else
      let x := copy n { s with nread := s.nread + 1 }
      (s.data (Ring.slot PIPESIZE s.nread) :: x.1, x.2)

def content (s : Pipe) : List UInt8 := Ring.content s.data s.nread s.nwrite

/-- The buffer is not overrun. -/
def Bounded (s : Pipe) : Prop := (s.nwrite - s.nread).toNat ≤ PIPESIZE

variable {s : Pipe}

theorem Bounded.lt_of_not_full (h : s.Bounded) (hf : ¬s.Full) :
    (s.nwrite - s.nread).toNat < PIPESIZE := by
  refine lt_of_le_of_ne h fun heq => hf ?_
  have hsub : s.nwrite - s.nread = 512 := UInt32.toNat_inj.mp heq
  rw [Full, ← hsub, UInt32.add_comm, UInt32.sub_add_cancel]

theorem Bounded.put (h : s.Bounded) (hf : ¬s.Full) (b : UInt8) : (s.put b).Bounded := by
  have hlt := h.lt_of_not_full hf
  have hsize : PIPESIZE < 2 ^ 32 := by decide
  exact (Ring.toNat_sub_add_one (r := s.nread) (by omega)).le.trans hlt

theorem content_put (h : s.Bounded) (hf : ¬s.Full) (b : UInt8) : (s.put b).content = s.content ++ [b] :=
  Ring.content_put (by decide) (by decide) (h.lt_of_not_full hf) b

/-- What the loop of `pipewrite` does. -/
theorem fill_spec : ∀ (bs : List UInt8) (s : Pipe), s.Bounded →
    bs = (fill bs s).1 ++ (fill bs s).2.1 ∧ (fill bs s).2.2.content = s.content ++ (fill bs s).1 ∧
      (fill bs s).2.2.Bounded
  | [], s, h => ⟨rfl, (List.append_nil _).symm, h⟩
  | b :: bs, s, h => by
    rw [fill]
    split_ifs with hf
    · exact ⟨rfl, (List.append_nil _).symm, h⟩
    · obtain ⟨hbs, hcont, hbound⟩ := fill_spec bs (s.put b) (h.put hf b)
      refine ⟨congrArg (b :: ·) hbs, hcont.trans ?_, hbound⟩
      rw [content_put h hf, List.append_assoc]
      rfl

/-- What the loop of `piperead` does. -/
theorem copy_spec : ∀ (n : ℕ) (s : Pipe), s.Bounded →
    s.content = (copy n s).1 ++ (copy n s).2.content ∧ (copy n s).2.Bounded
  | 0, s, h => ⟨rfl, h⟩
  | n + 1, s, h => by
    rw [copy]
    split_ifs with hne
    · exact ⟨rfl, h⟩
    · have hlen := Ring.toNat_sub_take hne
      obtain ⟨hcont, hbound⟩ := copy_spec n { s with nread := s.nread + 1 }
        (by rw [Bounded] at h ⊢; simp only; omega)
      refine ⟨?_, hbound⟩
      rw [List.cons_append, ← hcont]
      exact Ring.content_take s.data hne

end Pipe

/-- Where a process is in pipe.c. -/
inductive Pc where
  | idle
  /-- In call `c` of `pipewrite`, with the bytes `sent` stored and `left` to store; `p->lock` is to
  be acquired. -/
  | writing (c : ℕ) (sent left : List UInt8)
  /-- SLEEPING on `&p->nwrite`. -/
  | waitWrite (c : ℕ) (sent left : List UInt8)
  /-- In `piperead`; `p->lock` is to be acquired. -/
  | reading (n : ℕ)
  /-- SLEEPING on `&p->nread`. -/
  | waitRead (n : ℕ)
  deriving DecidableEq

/-- `wakeup(&p->nread)` -/
def Pc.wakeRead : Pc → Pc
  | .waitRead n => .reading n
  | x => x

/-- `wakeup(&p->nwrite)` -/
def Pc.wakeWrite : Pc → Pc
  | .waitWrite c sent left => .writing c sent left
  | x => x

structure State (P : Type) where
  pipe : Pipe
  pc : P → Pc
  killed : P → Bool
  /-- How many calls of `pipewrite` there have been. -/
  calls : ℕ
  /-- The bytes stored, with their calls. -/
  stored : List (ℕ × UInt8)
  /-- The bytes returned by reads. -/
  returned : List UInt8
  /-- What calls of `pipewrite` were given, and what they have returned. -/
  done : List (ℕ × List UInt8 × ℤ)

inductive Act (P : Type) where
  /-- Call `pipewrite`. -/
  | pipewrite (p : P) (addr : List UInt8)
  /-- Call `piperead`. -/
  | piperead (p : P) (n : ℕ)
  /-- Acquire `p->lock` and go on. -/
  | run (p : P)
  | pipeclose (writable : Bool)
  | kill (p : P)

section

variable {P : Type} [DecidableEq P]

namespace State

def at_ (s : State P) (p : P) (x : Pc) : State P := { s with pc := Function.update s.pc p x }

def wakeRead (s : State P) : State P := { s with pc := fun q => (s.pc q).wakeRead }

def wakeWrite (s : State P) : State P := { s with pc := fun q => (s.pc q).wakeWrite }

/-- The bytes that a call has stored. -/
def bytesOf (s : State P) (c : ℕ) : List UInt8 := (s.stored.filter fun x => x.1 = c).map Prod.snd

/-- `pipewrite` with the lock held. -/
def write (s : State P) (p : P) (c : ℕ) (sent left : List UInt8) : State P :=
  let x := s.pipe.fill left
  let s' := { s with pipe := x.2.2, stored := s.stored ++ x.1.map (c, ·) }
  if x.2.1 = [] then
    { (s'.at_ p .idle).wakeRead with done := s.done ++ [(c, sent ++ left, ((sent ++ left).length : ℤ))] }
  else if s.pipe.readopen = false ∨ s.killed p then
    { s'.at_ p .idle with done := s.done ++ [(c, sent ++ left, -1)] }
  else s'.wakeRead.at_ p (.waitWrite c (sent ++ x.1) x.2.1)

/-- `piperead` with the lock held. -/
def read (s : State P) (p : P) (n : ℕ) : State P :=
  if s.pipe.nread = s.pipe.nwrite ∧ s.pipe.writeopen then
    if s.killed p then s.at_ p .idle else s.at_ p (.waitRead n)
  else
    let x := s.pipe.copy n
    { (s.at_ p .idle).wakeWrite with pipe := x.2, returned := s.returned ++ x.1 }

/-- `pipeclose` -/
def close (s : State P) (writable : Bool) : State P :=
  if writable then { s.wakeRead with pipe := { s.pipe with writeopen := false } }
  else { s.wakeWrite with pipe := { s.pipe with readopen := false } }

end State

/-- `pipealloc`; the bytes of the buffer are what was there before. -/
def init (data : Fin PIPESIZE → UInt8) : State P :=
  ⟨⟨data, 0, 0, true, true⟩, fun _ => .idle, fun _ => false, 0, [], [], []⟩

def step (s : State P) : Act P → Outcome (State P)
  | .pipewrite p addr =>
    if s.pc p = .idle then .next { s.at_ p
      (.writing s.calls [] addr) with calls := s.calls + 1 } else .blocked
  | .piperead p n => if s.pc p = .idle then .next (s.at_ p (.reading n)) else .blocked
  | .run p =>
    match s.pc p with
    | .writing c sent left => .next (s.write p c sent left)
    | .reading n => .next (s.read p n)
    | _ => .blocked
  | .pipeclose writable => .next (s.close writable)
  | .kill p =>
    .next { s.at_ p (s.pc p).wakeRead.wakeWrite with killed := Function.update s.killed p true }

/-! ### Every run -/

/-- The bytes that a call of `pipewrite` has stored so far. -/
def Pc.sent : Pc → Option (ℕ × List UInt8)
  | .writing c sent _ | .waitWrite c sent _ => some (c, sent)
  | _ => none

theorem Pc.wakeRead_sent (x : Pc) : x.wakeRead.sent = x.sent := by cases x <;> rfl

theorem Pc.wakeWrite_sent (x : Pc) : x.wakeWrite.sent = x.sent := by cases x <;> rfl

/-- The pipe is a stream of bytes. -/
structure Stream (s : State P) : Prop where
  /-- What was read, and then what is in the buffer, is what was stored, in order. -/
  fifo : s.returned ++ s.pipe.content = s.stored.map Prod.snd
  /-- There are never more than `PIPESIZE` bytes in it, and never fewer than none. -/
  bounded : s.pipe.Bounded
  /-- A call of `pipewrite` that does not fail returns the number of its bytes and has stored them
  all, in order. -/
  whole : ∀ c addr r, (c, addr, r) ∈ s.done → r ≠ -1 → r = addr.length ∧ s.bytesOf c = addr

/-- What the calls in progress have stored. -/
structure Sent (s : State P) : Prop where
  mine : ∀ p c sent, (s.pc p).sent = some (c, sent) → s.bytesOf c = sent ∧ c < s.calls
  alone : ∀ p q c sent sent', (s.pc p).sent = some (c, sent) → (s.pc q).sent = some (c, sent') → p = q
  old : ∀ x ∈ s.stored, x.1 < s.calls
  closed : ∀ x ∈ s.done, x.1 < s.calls ∧ ∀ p sent, (s.pc p).sent ≠ some (x.1, sent)

variable {s s' : State P} {a : Act P} {p : P}

theorem at_pc (x : Pc) (q : P) :
    (s.at_ p x).pc q = if q = p then x else s.pc q := Function.update_apply ..

omit [DecidableEq P] in
theorem bytesOf_append {c : ℕ} {bs : List UInt8} (h : s'.stored = s.stored ++ bs.map (c, ·)) (c' : ℕ) :
    s'.bytesOf c' = if c' = c then s.bytesOf c ++ bs else s.bytesOf c' := by
  rw [State.bytesOf, h, List.filter_append, List.map_append]
  split_ifs with hc
  · subst hc
    simp [State.bytesOf, List.filter_map, Function.comp_def]
  · have hnil : (bs.map (c, ·)).filter (fun x => decide (x.1 = c')) = [] := by
      simp [List.filter_map, Function.comp_def, Ne.symm hc]
    rw [hnil, List.map_nil, List.append_nil]
    rfl

namespace Sent

omit [DecidableEq P] in
theorem init (data : Fin PIPESIZE → UInt8) : Sent (init data : State P) := by
  constructor <;> simp [Pipes.init, Pc.sent]

omit [DecidableEq P] in
/-- Calls in progress may end, and no more. -/
theorem congr (h : Sent s) (hs : s'.stored = s.stored) (hd : s'.done = s.done) (hc : s'.calls = s.calls)
    (hp : ∀ q x, (s'.pc q).sent = some x → (s.pc q).sent = some x) : Sent s' := by
  refine ⟨fun p c sent hx => ?_, fun p q c sent sent' hx hy => ?_,
    by rw [hs, hc]; exact h.old, fun x hx => ?_⟩
  · rw [State.bytesOf, hs, hc]
    exact h.mine p c sent (hp p _ hx)
  · exact h.alone p q c sent sent' (hp p _ hx) (hp q _ hy)
  · rw [hd] at hx
    rw [hc]
    exact ⟨(h.closed x hx).1, fun p sent hq => (h.closed x hx).2 p sent (hp p _ hq)⟩

theorem move (h : Sent s) {x : Pc} (hx : ∀ y, x.sent = some y → (s.pc p).sent = some y) :
    Sent (s.at_ p x) := by
  refine h.congr rfl rfl rfl fun q y hq => ?_
  rw [at_pc] at hq
  split_ifs at hq with hqp
  · rw [hqp]
    exact hx y hq
  · exact hq

omit [DecidableEq P] in
theorem bytesOf_new (h : Sent s) : s.bytesOf s.calls = [] := by
  rw [State.bytesOf, List.filter_eq_nil_iff.mpr, List.map_nil]
  intro x hx
  have := h.old x hx
  simp only [decide_eq_true_eq]
  omega

theorem begin (h : Sent s) (addr : List UInt8) :
    Sent { s.at_ p (.writing s.calls [] addr) with calls := s.calls + 1 } := by
  have hlt : ∀ q c sent, (s.pc q).sent = some (c, sent) → c < s.calls := fun q c sent hq =>
    (h.mine q c sent hq).2
  refine ⟨fun q c sent hq => ?_, fun q q' c sent sent' hq hq' => ?_, fun x hx =>
    Nat.lt_succ_of_lt (h.old x hx),
    fun x hx => ⟨Nat.lt_succ_of_lt (h.closed x hx).1, fun q sent hq => ?_⟩⟩
  · simp only [at_pc] at hq
    split at hq
    · cases hq
      exact ⟨h.bytesOf_new, Nat.lt_succ_self _⟩
    · exact ⟨(h.mine q c sent hq).1, Nat.lt_succ_of_lt (h.mine q c sent hq).2⟩
  · simp only [at_pc] at hq hq'
    split at hq <;> split at hq'
    · simp_all
    · cases hq
      exact absurd (hlt q' _ _ hq') (lt_irrefl _)
    · cases hq'
      exact absurd (hlt q _ _ hq) (lt_irrefl _)
    · exact h.alone q q' c sent sent' hq hq'
  · simp only [at_pc] at hq
    split at hq
    · have hcalls := congrArg Prod.fst (Option.some.inj hq)
      exact absurd (h.closed x hx).1 (by simp only at hcalls; omega)
    · exact (h.closed x hx).2 q sent hq

/-- A call stores bytes, and goes on or ends. -/
theorem store {c : ℕ} {sent bs : List UInt8} (h : Sent s) (hp : (s.pc p).sent = some (c, sent))
    (hs : s'.stored = s.stored ++ bs.map (c, ·)) (hc : s'.calls = s.calls)
    (hq : ∀ q, q ≠ p → (s'.pc q).sent = (s.pc q).sent)
    (hx : (s'.pc p).sent = none ∨ (s'.pc p).sent = some (c, sent ++ bs))
    (hd : ∀ x ∈ s'.done, x ∈ s.done ∨ x.1 = c ∧ (s'.pc p).sent = none) : Sent s' := by
  obtain ⟨hmine, hlt⟩ := h.mine p c sent hp
  -- the other calls have other numbers
  have hother : ∀ q, q ≠ p → ∀ c' sent', (s'.pc q).sent = some (c', sent') →
      (s.pc q).sent = some (c', sent') ∧ c' ≠ c := fun q hne c' sent' hq' => by
    rw [hq q hne] at hq'
    refine ⟨hq', ?_⟩
    rintro rfl
    exact hne (h.alone q p _ _ _ hq' hp)
  have hself : ∀ c' sent', (s'.pc p).sent = some (c', sent') → c' = c ∧ sent' = sent ++ bs :=
    fun c' sent' hp' => by
    rcases hx with hx | hx <;> rw [hx] at hp' <;> cases hp'
    exact ⟨rfl, rfl⟩
  refine ⟨fun q c' sent' hq' => ?_, fun q q' c' sent1 sent2 h1 h2 => ?_, fun x hx' => ?_,
    fun x hx' => ⟨?_, fun q sent' hq' => ?_⟩⟩
  · rw [bytesOf_append hs, hc]
    by_cases hne : q = p
    · rw [hne] at hq'
      obtain ⟨rfl, rfl⟩ := hself _ _ hq'
      rw [if_pos rfl, hmine]
      exact ⟨rfl, hlt⟩
    · obtain ⟨hq', hcc⟩ := hother q hne _ _ hq'
      rw [if_neg hcc]
      exact h.mine q c' sent' hq'
  · by_cases hqp : q = p <;> by_cases hqp' : q' = p
    · rw [hqp, hqp']
    · rw [hqp] at h1
      exact absurd (hself _ _ h1).1 (hother q' hqp' _ _ h2).2
    · rw [hqp'] at h2
      exact absurd (hself _ _ h2).1 (hother q hqp _ _ h1).2
    · exact h.alone q q' c' sent1 sent2 (hother q hqp _ _ h1).1 (hother q' hqp' _ _ h2).1
  · rw [hs, List.mem_append] at hx'
    rw [hc]
    rcases hx' with hx' | hx'
    · exact h.old x hx'
    · obtain ⟨b, -, rfl⟩ := List.mem_map.mp hx'
      exact hlt
  · rw [hc]
    rcases hd x hx' with hx' | ⟨hxc, -⟩
    · exact (h.closed x hx').1
    · rw [hxc]
      exact hlt
  · by_cases hqp : q = p
    · rw [hqp] at hq'
      rcases hd x hx' with hx' | ⟨-, hnone⟩
      · exact (h.closed x hx').2 p sent (by rw [hp, (hself _ _ hq').1])
      · rw [hnone] at hq'
        cases hq'
    · obtain ⟨hq', hcc⟩ := hother q hqp _ _ hq'
      rcases hd x hx' with hx' | ⟨hxc, -⟩
      · exact (h.closed x hx').2 q sent' hq'
      · exact hcc hxc

end Sent

namespace Stream

omit [DecidableEq P] in
theorem init (data : Fin PIPESIZE → UInt8) : Stream (init data : State P) := by
  refine ⟨?_, show ((0 : UInt32) - 0).toNat ≤ PIPESIZE by decide, fun _ _ _ h => by cases h⟩
  rw [Pipes.init, Pipe.content, Ring.content_self]
  rfl

omit [DecidableEq P] in
theorem congr (h : Stream s) (hpipe : s'.pipe = s.pipe) (hr : s'.returned = s.returned)
    (hs : s'.stored = s.stored) (hd : s'.done = s.done) : Stream s' := by
  refine ⟨by rw [hpipe, hr, hs]; exact h.fifo, by rw [hpipe]; exact h.bounded, fun c addr r hx hr => ?_⟩
  rw [hd] at hx
  rw [State.bytesOf, hs]
  exact h.whole c addr r hx hr

omit [DecidableEq P] in
/-- A call stores what `fill` says. -/
theorem store {c : ℕ} {sent left : List UInt8} (h : Stream s) (hsent : Sent s)
    (hp : (s.pc p).sent = some (c, sent)) (hpipe : s'.pipe = (s.pipe.fill left).2.2)
    (hr : s'.returned = s.returned) (hs : s'.stored = s.stored ++ (s.pipe.fill left).1.map (c, ·))
    (hd : ∀ x ∈ s'.done, x ∈ s.done ∨ x.2.2 = -1 ∨
      x = (c, sent ++ left, ((sent ++ left).length : ℤ)) ∧ (s.pipe.fill left).2.1 = []) : Stream s' := by
  obtain ⟨hleft, hcont, hbound⟩ := s.pipe.fill_spec left h.bounded
  refine ⟨?_, by rw [hpipe]; exact hbound, fun c' addr r hx hne => ?_⟩
  · rw [hpipe, hr, hs, hcont, ← List.append_assoc, h.fifo, List.map_append, List.map_map]
    exact congrArg _ (List.map_id _).symm
  · rw [bytesOf_append hs]
    rcases hd _ hx with hx | hx | ⟨hx, hall⟩
    · rw [if_neg fun hc => (hsent.closed _ hx).2 p sent (by rw [hp, hc])]
      exact h.whole c' addr r hx hne
    · exact absurd hx hne
    · rw [hall, List.append_nil] at hleft
      cases hx
      rw [if_pos rfl, (hsent.mine p c sent hp).1, ← hleft]
      exact ⟨rfl, rfl⟩

end Stream

theorem write_ok {c : ℕ} {sent left : List UInt8} (h : Stream s) (hsent : Sent s)
    (hp : s.pc p = .writing c sent left) : Stream (s.write p c sent left) ∧
    Sent (s.write p c sent left) := by
  have hp' : (s.pc p).sent = some (c, sent) := by rw [hp]; rfl
  rw [State.write]
  split
  · rename_i hall
    refine ⟨h.store hsent hp' rfl rfl rfl fun x hx => ?_, hsent.store hp' rfl rfl (fun q hq => ?_)
      (.inl ?_) fun x hx => ?_⟩
    · exact (List.mem_append.mp hx).imp_right fun hx => .inr ⟨List.mem_singleton.mp hx, hall⟩
    · simp only [State.wakeRead, Pc.wakeRead_sent, at_pc, if_neg hq]
    · simp [State.wakeRead, at_pc, Pc.wakeRead, Pc.sent]
    · refine (List.mem_append.mp hx).imp_right fun hx => ⟨by rw [List.mem_singleton.mp hx], ?_⟩
      simp [State.wakeRead, at_pc, Pc.wakeRead, Pc.sent]
  · split
    · refine ⟨h.store hsent hp' rfl rfl rfl fun x hx => ?_, hsent.store hp' rfl rfl (fun q hq => ?_)
        (.inl ?_) fun x hx => ?_⟩
      · exact (List.mem_append.mp hx).imp_right fun hx => .inl (by rw [List.mem_singleton.mp hx])
      · simp only [at_pc, if_neg hq]
      · simp [at_pc, Pc.sent]
      · refine (List.mem_append.mp hx).imp_right fun hx => ⟨by rw [List.mem_singleton.mp hx], ?_⟩
        simp [at_pc, Pc.sent]
    · refine ⟨h.store hsent hp' rfl rfl rfl fun x hx => .inl hx,
        hsent.store hp' rfl rfl (fun q hq => ?_) (.inr ?_) fun x hx => .inl hx⟩
      · simp only [at_pc, if_neg hq, State.wakeRead, Pc.wakeRead_sent]
      · simp [at_pc, Pc.sent]

theorem read_ok (h : Stream s) (hsent : Sent s) (n : ℕ) : Stream (s.read p n) ∧ Sent (s.read p n) := by
  rw [State.read]
  split
  · split
    · exact ⟨h.congr rfl rfl rfl rfl, hsent.move fun _ hx => by cases hx⟩
    · exact ⟨h.congr rfl rfl rfl rfl, hsent.move fun _ hx => by cases hx⟩
  · obtain ⟨hcont, hbound⟩ := s.pipe.copy_spec n h.bounded
    refine ⟨⟨?_, hbound, h.whole⟩, (hsent.move (p := p) (x := .idle) fun _ hx => by cases hx).congr
      rfl rfl rfl fun q x hq => ?_⟩
    · rw [List.append_assoc, ← hcont]
      exact h.fifo
    · rwa [State.wakeWrite, Pc.wakeWrite_sent] at hq

omit [DecidableEq P] in
theorem close_ok (h : Stream s) (hsent : Sent s) (writable : Bool) :
    Stream (s.close writable) ∧ Sent (s.close writable) := by
  rw [State.close]
  split
  · exact ⟨⟨h.fifo, h.bounded, h.whole⟩, hsent.congr rfl rfl rfl fun q x hq =>
      by rwa [State.wakeRead, Pc.wakeRead_sent] at hq⟩
  · exact ⟨⟨h.fifo, h.bounded, h.whole⟩, hsent.congr rfl rfl rfl fun q x hq =>
      by rwa [State.wakeWrite, Pc.wakeWrite_sent] at hq⟩

theorem ok_next (h : Stream s ∧ Sent s) (hstep : step s a = .next s') : Stream s' ∧ Sent s' := by
  obtain ⟨h, hsent⟩ := h
  cases a <;> simp only [step] at hstep
  case pipewrite p addr =>
    split at hstep <;> cases hstep
    exact ⟨h.congr rfl rfl rfl rfl, hsent.begin addr⟩
  case piperead p n =>
    split at hstep <;> cases hstep
    exact ⟨h.congr rfl rfl rfl rfl, hsent.move fun _ hx => by cases hx⟩
  case run p =>
    split at hstep <;> cases hstep
    · exact write_ok h hsent ‹_›
    · exact read_ok h hsent _
  case pipeclose writable =>
    cases hstep
    exact close_ok h hsent writable
  case kill p =>
    cases hstep
    refine ⟨h.congr rfl rfl rfl rfl, (hsent.move (p := p) fun x hx => ?_).congr rfl rfl rfl
      fun _ _ hq => hq⟩
    rwa [Pc.wakeWrite_sent, Pc.wakeRead_sent] at hx

/-- **A pipe is a stream of bytes**, for any readers and writers in any order, and however often the
counters wrap around. -/
theorem stream_of_reach {data : Fin PIPESIZE → UInt8}
    (h : Machine.Reach step (fun _ _ => True) (init data) s) : Stream s :=
  (h.inv (I := fun s => Stream s ∧ Sent s) ⟨.init data, .init data⟩ fun _ _ _ hi _ hs => ok_next hi hs).1

/-- A writer stores five bytes, a reader takes three of them, and a second writer stores two more.
-/
theorem stream_two_writers : ∃ s : State (Fin 3), Machine.Reach step (fun _ _ => True)
    (init fun _ => 0) s ∧ s.returned = [1, 2, 3] ∧ s.pipe.content = [4, 5, 6, 7] ∧ s.done.length =
    2 ∧ Stream s := by
  obtain ⟨s, hs, hf⟩ := Machine.exists_reach step (fun _ _ => True) (init fun _ => 0)
    [.piperead 2 3, .run 2, .pipewrite 0 [1, 2, 3, 4, 5], .pipewrite 1 [6, 7], .run 0, .run 2, .run 1]
    (fun s : State (Fin 3) => (s.returned, s.pipe.content, s.done.length))
    ([1, 2, 3], [4, 5, 6, 7], 2) (by decide +kernel)
  simp only [Prod.mk.injEq] at hf
  exact ⟨s, hs, hf.1, hf.2.1, hf.2.2, stream_of_reach hs⟩

end

end Xv6.Pipes
