/-
# The redo log: a commit is atomic under crashes

The disk side of log.c: `commit` copies the pinned blocks to the log, writes
the header, installs the blocks at home and clears the header;
`recoverFromLog` reads the header back and installs what it lists. A crash
leaves a prefix of the single-block writes on the disk, and the next boot
starts with an empty buffer cache.

The buffer cache enters through `bread`: a clean buffer has the disk's
contents, so only the dirty ones (pinned by `log_write` until their `bwrite`)
are kept in the state.

`crash_atomic`: however far `commit` got, and however often the recoveries
after it were cut short, a complete recovery leaves every home block old or
every home block new; new exactly when the first `writeHead` was on the disk.
-/
import Xv6.Lib.Mem
import Xv6.Lib.Writes

namespace Xv6
namespace RedoLog

open Function (update update_of_ne)

/-- A block's bytes, by offset. -/
abbrev Block := Mem

/-- The disk: the contents of each block. -/
abbrev Disk := ℕ → Block

/-- Contents of the header block, on disk and in memory. -/
structure LogHeader where
  n : Int32
  block : ℕ → UInt32

/-- The log and what it reads and writes: the disk, the dirty buffers, the
in-memory header, and the disk writes issued so far. -/
structure State where
  disk : Disk
  dirty : ℕ → Option Block
  lh : LogHeader
  writes : List (ℕ × Block)

/-- How many rounds a loop `for (i = 0; i < n; i++)` makes. -/
def rounds (n : Int32) : ℕ := n.toInt.toNat

/-- The contents `bread` returns. -/
def bread (s : State) (blockno : ℕ) : Block := (s.dirty blockno).getD (s.disk blockno)

/-- The buffer goes to the disk and is clean afterwards. -/
def bwrite (s : State) (blockno : ℕ) (data : Block) : State :=
  { s with
    disk := update s.disk blockno data
    dirty := update s.dirty blockno none
    writes := s.writes ++ [(blockno, data)] }

/-- One round of `install_trans` and of `write_log`: read the source block, copy
it over the destination's buffer, write that to disk. -/
def copyBlock (src dst : ℕ → ℕ) (s : State) (tail : ℕ) : State :=
  bwrite s (dst tail) (bread s (src tail))

/-- The home of log block `tail + 1`. -/
def home (s : State) (tail : ℕ) : ℕ := (s.lh.block tail).toNat

/-- Copy committed blocks from log to their home location. -/
def installTrans (start : ℕ) (s : State) : State :=
  (List.range (rounds s.lh.n)).foldl (copyBlock (fun tail => start + tail + 1) (home s)) s

/-- `struct logheader` at the start of a block: word 0 is `n`, word `i + 1` is
`block[i]`. -/
def headN (b : Block) : Int32 := (b.word32 0).toInt32

def headBlock (b : Block) (i : ℕ) : UInt32 := b.word32 (4 + 4 * i)

/-- Read the log header from disk into the in-memory log header. -/
def readHead (start : ℕ) (s : State) : State :=
  let buf := bread s start
  { s with lh :=
    { n := headN buf
      block := fun i => if i < rounds (headN buf) then headBlock buf i else s.lh.block i } }

/-- The header block `writeHead` writes: `n` and the first `n` block numbers
are stored, the rest of the buffer stays. -/
def putHead (lh : LogHeader) (buf : Block) : Block :=
  (List.range (rounds lh.n)).foldl (fun b i => b.setWord32 (4 + 4 * i) (lh.block i))
    (buf.setWord32 0 lh.n.toUInt32)

/-- Write in-memory log header to disk. -/
def writeHead (start : ℕ) (s : State) : State :=
  bwrite s start (putHead s.lh (bread s start))

def clearHead (s : State) : State := { s with lh := { s.lh with n := 0 } }

def recoverFromLog (start : ℕ) (s : State) : State :=
  writeHead start (clearHead (installTrans start (readHead start s)))

/-- Copy modified blocks from cache to log. -/
def writeLog (start : ℕ) (s : State) : State :=
  (List.range (rounds s.lh.n)).foldl (copyBlock (home s) (fun tail => start + tail + 1)) s

def commit (start : ℕ) (s : State) : State :=
  if 0 < s.lh.n.toInt then
    writeHead start (clearHead (installTrans start (writeHead start (writeLog start s))))
  else s

/-! ### The header codec -/

theorem rounds_zero : rounds 0 = 0 := rfl

theorem word32_putLoop_low (f : ℕ → UInt32) (b : Block) {a : ℕ} (ha : a + 4 ≤ 4) : ∀ k : ℕ,
    ((List.range k).foldl (fun b i => b.setWord32 (4 + 4 * i) (f i)) b).word32 a = b.word32 a
  | 0 => rfl
  | k + 1 => by
    rw [List.range_succ, List.foldl_append, List.foldl_cons, List.foldl_nil,
      Mem.word32_setWord32_ne _ _ (by omega), word32_putLoop_low f b ha k]

variable {i size start : ℕ} {s s' : State} {w : ℕ × Block} {ws : List (ℕ × Block)}

theorem word32_putLoop (f : ℕ → UInt32) (b : Block) : ∀ k : ℕ, i < k →
    ((List.range k).foldl (fun b i => b.setWord32 (4 + 4 * i) (f i)) b).word32 (4 + 4 * i) = f i
  | 0, h => by omega
  | k + 1, h => by
    rw [List.range_succ, List.foldl_append, List.foldl_cons, List.foldl_nil]
    rcases Nat.lt_succ_iff_lt_or_eq.mp h with h | rfl
    · rw [Mem.word32_setWord32_ne _ _ (by omega), word32_putLoop f b k h]
    · rw [Mem.word32_setWord32]

@[simp] theorem headN_putHead (lh : LogHeader) (buf : Block) : headN (putHead lh buf) = lh.n := by
  rw [headN, putHead, word32_putLoop_low _ _ (by omega), Mem.word32_setWord32]
  simp

theorem headBlock_putHead (lh : LogHeader) (buf : Block) (h : i < rounds lh.n) :
    headBlock (putHead lh buf) i = lh.block i := word32_putLoop _ _ _ h

/-! ### The loops -/

/-- The writes of a copy loop that starts in `s`. -/
def copies (src dst : ℕ → ℕ) (s : State) (k : ℕ) : List (ℕ × Block) :=
  (List.range k).map fun i => (dst i, bread s (src i))

theorem copies_succ (src dst : ℕ → ℕ) (s : State) (k : ℕ) :
    copies src dst s (k + 1) = copies src dst s k ++ [(dst k, bread s (src k))] := by
  simp [copies, List.range_succ]

theorem mem_copies {src dst : ℕ → ℕ} {k : ℕ} :
    w ∈ copies src dst s k ↔ ∃ i < k, w = (dst i, bread s (src i)) := by
  simp [copies, eq_comm]

/-- What a copy loop leaves: the header in memory is untouched, the writes are
`copies`, and the buffers written are clean. -/
structure Copied (s s' : State) (ws : List (ℕ × Block)) : Prop where
  lh : s'.lh = s.lh
  writes : s'.writes = s.writes ++ ws
  disk : s'.disk = Writes.apply s.disk ws
  clean : ∀ w ∈ ws, s'.dirty w.1 = none
  kept : ∀ b, (∀ w ∈ ws, w.1 ≠ b) → s'.dirty b = s.dirty b

/-- A block the loop does not write reads as before. -/
theorem Copied.bread_kept (h : Copied s s' ws) {b : ℕ}
    (hb : ∀ w ∈ ws, w.1 ≠ b) : bread s' b = bread s b := by
  rw [bread, bread, h.kept b hb, h.disk, Writes.apply_of_forall_ne ws _ b hb]

/-- A block the loop writes reads from the disk. -/
theorem Copied.bread_clean (h : Copied s s' ws) (hw : w ∈ ws) : bread s' w.1 = s'.disk w.1 := by
  rw [bread, h.clean w hw, Option.getD_none]

theorem copied_nil (s : State) : Copied s s [] :=
  ⟨rfl, by simp, rfl, by simp, fun _ _ => rfl⟩

theorem Copied.bwrite (h : Copied s s' ws) (b : ℕ)
    (v : Block) : Copied s (bwrite s' b v) (ws ++ [(b, v)]) := by
  refine ⟨h.lh, ?_, ?_, fun w hw => ?_, fun x hx => ?_⟩
  · simp [RedoLog.bwrite, h.writes]
  · simp [RedoLog.bwrite, h.disk]
  · simp only [RedoLog.bwrite, Function.update_apply]
    split
    · rfl
    · rcases List.mem_append.mp hw with hw | hw
      · exact h.clean w hw
      · simp_all
  · have hne : b ≠ x := hx (b, v) (by simp)
    rw [RedoLog.bwrite]
    simp only [update_of_ne hne.symm]
    exact h.kept x fun w hw => hx w (List.mem_append_left _ hw)

/-- A copy loop whose sources are not among its destinations. -/
theorem copy_loop (src dst : ℕ → ℕ) (s : State) {n : ℕ} (hne : ∀ i < n, ∀ j < n, dst i ≠ src j) :
    ∀ k ≤ n, Copied s ((List.range k).foldl (copyBlock src dst) s) (copies src dst s k)
  | 0, _ => copied_nil s
  | k + 1, hk => by
    have ih := copy_loop src dst s hne k (by omega)
    rw [List.range_succ, List.foldl_append, List.foldl_cons, List.foldl_nil, copies_succ, copyBlock]
    rw [ih.bread_kept (b := src k)]
    · exact ih.bwrite _ _
    · intro w hw
      obtain ⟨i, hi, rfl⟩ := mem_copies.mp hw
      exact hne i (by omega) k (by omega)

theorem copied_clearHead (h : Copied s s' ws) :
    (clearHead s').writes = s.writes ++ ws ∧ (clearHead s').disk = Writes.apply s.disk ws :=
  ⟨h.writes, h.disk⟩

/-! ### A transaction and its writes -/

/-- A transaction ready to commit: the on-disk header is empty, the log area
`[start, start + size)` has room, and the homes are outside it. The new
contents are what the cache holds, `bread s (home s i)`. -/
structure Pending (start size : ℕ) (s : State) : Prop where
  idle : headN (s.disk start) = 0
  fits : rounds s.lh.n < size
  outside : ∀ i < rounds s.lh.n, home s i < start ∨ start + size ≤ home s i

theorem Pending.ne_log (h : Pending start size s) {j : ℕ}
    (hi : i < rounds s.lh.n) (hj : j < rounds s.lh.n) : home s i ≠ start + j + 1 := by
  have h1 := h.outside i hi
  have h2 := h.fits
  omega

theorem Pending.ne_start (h : Pending start size s)
    (hi : i < rounds s.lh.n) : home s i ≠ start := by
  have h1 := h.outside i hi
  have h2 := h.fits
  omega

/-- The log blocks of the transaction, as `writeLog` writes them. -/
def logWrites (start : ℕ) (s : State) : List (ℕ × Block) :=
  (List.range (rounds s.lh.n)).map fun i => (start + i + 1, bread s (home s i))

/-- The home blocks of the transaction, as `installTrans` writes them. -/
def homeWrites (s : State) : List (ℕ × Block) :=
  (List.range (rounds s.lh.n)).map fun i => (home s i, bread s (home s i))

theorem mem_logWrites :
    w ∈ logWrites start s ↔ ∃ i < rounds s.lh.n, w = (start + i + 1, bread s (home s i)) := by
  simp [logWrites, eq_comm]

theorem mem_homeWrites :
    w ∈ homeWrites s ↔ ∃ i < rounds s.lh.n, w = (home s i, bread s (home s i)) := by
  simp [homeWrites, eq_comm]

/-- After all log blocks are written, log block `i` has the contents of its
home's buffer. -/
theorem apply_logWrites (d : Disk) (hi : i < rounds s.lh.n) :
    Writes.apply d (logWrites start s) (start + i + 1) = bread s (home s i) := by
  apply Writes.apply_of_const
  · exact ⟨_, mem_logWrites.mpr ⟨i, hi, rfl⟩, rfl⟩
  · intro w hw hwi
    obtain ⟨j, -, rfl⟩ := mem_logWrites.mp hw
    have : j = i := by simp only at hwi; omega
    rw [this]

/-- The header block of the committed transaction. -/
structure IsHead (s : State) (b : Block) : Prop where
  n : headN b = s.lh.n
  block : ∀ i < rounds s.lh.n, headBlock b i = s.lh.block i

theorem isHead_putHead (s : State) (buf : Block) : IsHead s (putHead s.lh buf) :=
  ⟨headN_putHead _ _, fun _ hi => headBlock_putHead _ _ hi⟩

/-- **The writes of a commit**: the log blocks, the header, the homes, the
empty header. -/
theorem commit_writes (h : Pending start size s)
    (hn : 0 < s.lh.n.toInt) : ∃ hd hd0, IsHead s hd ∧ headN hd0 = 0 ∧
    (commit start s).writes =
      s.writes ++ (logWrites start s ++ (start, hd) :: (homeWrites s ++ [(start, hd0)])) := by
  have hlog : Copied s (writeLog start s) (logWrites start s) :=
    copy_loop (home s) (fun tail => start + tail + 1) s
      (fun i hi j hj => (h.ne_log hj hi).symm) _ le_rfl
  set s1 := writeLog start s with hs1
  set hd := putHead s1.lh (bread s1 start) with hhd
  have hhead : Copied s (writeHead start s1) (logWrites start s ++ [(start, hd)]) := hlog.bwrite _ _
  set s2 := writeHead start s1 with hs2
  have hlh : s2.lh = s.lh := hhead.lh
  -- `installTrans` reads back the log blocks that `writeLog` wrote
  have hread : ∀ i < rounds s.lh.n, bread s2 (start + i + 1) = bread s (home s i) := by
    intro i hi
    have hmem : (start + i + 1, bread s (home s i)) ∈ logWrites start s ++ [(start, hd)] :=
      List.mem_append_left _ (mem_logWrites.mpr ⟨i, hi, rfl⟩)
    rw [hhead.bread_clean hmem, hhead.disk, Writes.apply_append, Writes.apply_cons,
      Writes.apply_nil, update_of_ne (by simp only; omega), apply_logWrites _ hi]
  have hhome : home s2 = home s := by
    funext i
    rw [home, home, hlh]
  have hinst : Copied s2 (installTrans start s2) (homeWrites s) := by
    have := copy_loop (fun tail => start + tail + 1) (home s2) s2 (n := rounds s2.lh.n)
      (fun i hi j hj => by rw [hlh] at hi hj; rw [hhome]; exact h.ne_log hi hj) _ le_rfl
    have hcop : copies (fun tail => start + tail + 1) (home s2) s2 (rounds s2.lh.n) = homeWrites s := by
      rw [copies, homeWrites, hlh, hhome]
      refine List.map_congr_left fun i hi => ?_
      rw [hread i (List.mem_range.mp hi)]
    rw [hcop] at this
    exact this
  set s3 := installTrans start s2 with hs3
  refine ⟨hd, putHead (clearHead s3).lh (bread (clearHead s3) start), ?_, by simp [clearHead], ?_⟩
  · rw [hhd, hlog.lh]; exact isHead_putHead s _
  · rw [commit, if_pos hn, ← hs1, ← hs2, ← hs3, writeHead, bwrite]
    simp only [clearHead, hinst.writes, hhead.writes]
    simp

/-- A machine that has just booted: no buffer, an empty in-memory header. -/
def boot (d : Disk) : State := ⟨d, fun _ => none, ⟨0, fun _ => 0⟩, []⟩

/-- The disk writes of a commit, from its first on. -/
def commitWrites (start : ℕ) (s : State) : List (ℕ × Block) :=
  (commit start { s with writes := [] }).writes

/-- The disk writes of a recovery of the disk `d`. -/
def recoverWrites (start : ℕ) (d : Disk) : List (ℕ × Block) :=
  (recoverFromLog start (boot d)).writes

/-- **The writes of a recovery**: the blocks the header lists, from the log
to their homes, and the empty header. -/
theorem recover_writes (start : ℕ) (d : Disk)
    (hout : ∀ i < rounds (headN (d start)), ∀ j < rounds (headN (d start)),
      (headBlock (d start) i).toNat ≠ start + j + 1) : ∃ hd0, headN hd0 = 0 ∧
    recoverWrites start d = (List.range (rounds (headN (d start)))).map
      (fun i => ((headBlock (d start) i).toNat, d (start + i + 1))) ++ [(start, hd0)] ∧
    (recoverFromLog start (boot d)).disk = Writes.apply d (recoverWrites start d) := by
  set s1 := readHead start (boot d) with hs1
  have hn : s1.lh.n = headN (d start) := rfl
  have hhome : ∀ i < rounds (headN (d start)), home s1 i = (headBlock (d start) i).toNat := by
    intro i hi
    have hb : s1.lh.block i =
        if i < rounds (headN (d start)) then headBlock (d start) i else 0 := rfl
    rw [home, hb, if_pos hi]
  have hinst := copy_loop (fun tail => start + tail + 1) (home s1) s1 (n := rounds s1.lh.n)
    (fun i hi j hj => by rw [hhome i hi]; exact hout i hi j hj) _ le_rfl
  have hcop : copies (fun tail => start + tail + 1) (home s1) s1 (rounds s1.lh.n) =
      (List.range (rounds (headN (d start)))).map
        (fun i => ((headBlock (d start) i).toNat, d (start + i + 1))) :=
    List.map_congr_left fun i hi => by rw [hhome i (List.mem_range.mp hi)]; rfl
  rw [hcop] at hinst
  change Copied s1 (installTrans start s1) _ at hinst
  set s2 := installTrans start s1 with hs2
  set hd0 := putHead (clearHead s2).lh (bread (clearHead s2) start) with hhd0
  obtain ⟨hw, hd⟩ := copied_clearHead hinst
  have hwrites : recoverWrites start d = (List.range (rounds (headN (d start)))).map
      (fun i => ((headBlock (d start) i).toNat, d (start + i + 1))) ++ [(start, hd0)] := by
    rw [recoverWrites, recoverFromLog, ← hs1, ← hs2, writeHead, bwrite, ← hhd0]
    simp only [hw]
    rfl
  refine ⟨hd0, by simp [hhd0, clearHead], hwrites, ?_⟩
  rw [hwrites, recoverFromLog, ← hs1, ← hs2, writeHead, bwrite, ← hhd0, Writes.apply_append]
  simp only [hd]
  rfl

/-! ### The phases of the disk

Until its header is on the disk the transaction is not there: the header is
empty and the blocks outside the log are the old ones (`Settled s.disk`).
While the header lists it (`During`), the log holds the new contents and the
homes may be anything. Once the header is empty again, the homes are installed
(`Settled (installed s)`). A recovery, cut short or not, leads from a phase to
the same or a later one, and a complete one ends `During`. -/

section Phases

variable (start size : ℕ) (s : State)

/-- Block `b` is outside the log area. -/
def Outside (b : ℕ) : Prop := b < start ∨ start + size ≤ b

/-- The disk with every home block new. -/
def installed : Disk := Writes.apply s.disk (homeWrites s)

/-- An empty header, and outside the log the blocks of `t`. -/
structure Settled (t d : Disk) : Prop where
  head : headN (d start) = 0
  eq : ∀ b, Outside start size b → d b = t b

/-- The header lists the transaction and the log holds it. -/
structure During (d : Disk) : Prop where
  head : IsHead s (d start)
  log : ∀ i < rounds s.lh.n, d (start + i + 1) = bread s (home s i)
  other : ∀ b, Outside start size b → (∀ i < rounds s.lh.n, home s i ≠ b) → d b = s.disk b

variable {start size s} {d t : Disk} {hd0 : Block}

theorem apply_homeWrites_home (d : Disk) {i : ℕ} (hi : i < rounds s.lh.n) :
    Writes.apply d (homeWrites s) (home s i) = bread s (home s i) := by
  apply Writes.apply_of_const
  · exact ⟨_, mem_homeWrites.mpr ⟨i, hi, rfl⟩, rfl⟩
  · intro w hw hwi
    obtain ⟨j, -, rfl⟩ := mem_homeWrites.mp hw
    simp only at hwi
    rw [hwi]

theorem apply_homeWrites_other (d : Disk) {b : ℕ} (hb : ∀ i < rounds s.lh.n, home s i ≠ b) :
    Writes.apply d (homeWrites s) b = d b := by
  apply Writes.apply_of_forall_ne
  intro w hw
  obtain ⟨j, hj, rfl⟩ := mem_homeWrites.mp hw
  exact hb j hj

/-- Writing an empty header leaves the blocks outside the log. -/
theorem Settled.writeHead (hsz : 0 < size) (hd : ∀ b, Outside start size b → d b = t b)
    (h0 : headN hd0 = 0) : Settled start size t (update d start hd0) := by
  refine ⟨by simpa using h0, fun b hb => ?_⟩
  have hne : b ≠ start := by rcases hb with hb | hb <;> omega
  rw [update_of_ne hne]
  exact hd b hb

section

variable (h : Pending start size s) (hd : During start size s d)
include h hd

/-- Some of the home writes leave `During` as it is. -/
theorem During.install (ws : List (ℕ × Block)) (hws : ∀ w ∈ ws, w ∈ homeWrites s) :
    During start size s (Writes.apply d ws) := by
  have hkeep : ∀ b, (∀ i < rounds s.lh.n, home s i ≠ b) → Writes.apply d ws b = d b := by
    intro b hb
    apply Writes.apply_of_forall_ne
    intro w hw
    obtain ⟨i, hi, rfl⟩ := mem_homeWrites.mp (hws w hw)
    exact hb i hi
  refine ⟨?_, fun i hi => ?_, fun b hb hf => ?_⟩
  · rw [hkeep start fun i hi => h.ne_start hi]
    exact hd.head
  · rw [hkeep _ fun j hj => h.ne_log hj hi]
    exact hd.log i hi
  · rw [hkeep b hf]
    exact hd.other b hb hf

/-- All of the home writes and an empty header end `During`. -/
theorem During.finish (h0 : headN hd0 = 0) : Settled start size (installed s)
      (update (Writes.apply d (homeWrites s)) start hd0) := by
  refine Settled.writeHead (by have := h.fits; omega) (fun b hb => ?_) h0
  by_cases hf : ∃ i < rounds s.lh.n, home s i = b
  · obtain ⟨i, hi, rfl⟩ := hf
    rw [installed, apply_homeWrites_home _ hi, apply_homeWrites_home _ hi]
  · have hf' : ∀ i < rounds s.lh.n, home s i ≠ b := fun i hi he => hf ⟨i, hi, he⟩
    rw [installed, apply_homeWrites_other _ hf', apply_homeWrites_other _ hf']
    exact hd.other b hb hf'

/-- Some of the home writes, then perhaps the empty header: the rest of a
commit after its header, and a recovery of a committed transaction. -/
theorem During.take (h0 : headN hd0 = 0) (k : ℕ) :
    During start size s (Writes.apply d ((homeWrites s ++ [(start, hd0)]).take k)) ∨
      Settled start size (installed s)
        (Writes.apply d ((homeWrites s ++ [(start, hd0)]).take k)) := by
  rcases Nat.lt_or_ge (homeWrites s).length k with hk | hk
  · right
    rw [List.take_of_length_le (by simp only [List.length_append, List.length_singleton]; omega),
      Writes.apply_append]
    exact hd.finish h h0
  · left
    rw [List.take_append_of_le_length hk]
    exact hd.install h _ fun w hw => List.mem_of_mem_take hw

end

/-! ### A recovery -/

/-- A recovery of a disk with an empty header writes only an empty header. -/
theorem recoverWrites_of_empty (hd : headN (d start) = 0) : ∃ hd0, headN hd0 = 0 ∧
    recoverWrites start d = [(start, hd0)] ∧
    (recoverFromLog start (boot d)).disk = update d start hd0 := by
  obtain ⟨hd0, h0, hw, hdisk⟩ := recover_writes start d
    (by rw [hd, rounds_zero]; intro i hi; omega)
  rw [hd, rounds_zero] at hw
  refine ⟨hd0, h0, by simpa using hw, ?_⟩
  rw [hdisk, hw]
  simp

/-- A recovery of a disk that holds the committed transaction installs it. -/
theorem recoverWrites_of_during (h : Pending start size s) (hd : During start size s d) :
    ∃ hd0, headN hd0 = 0 ∧ recoverWrites start d = homeWrites s ++ [(start, hd0)] ∧
      (recoverFromLog start (boot d)).disk = Writes.apply d (recoverWrites start d) := by
  have hblk : ∀ i < rounds s.lh.n, (headBlock (d start) i).toNat = home s i := by
    intro i hi
    rw [hd.head.block i hi, home]
  obtain ⟨hd0, h0, hw, hdisk⟩ := recover_writes start d
    (by rw [hd.head.n]; intro i hi j hj; rw [hblk i hi]; exact h.ne_log hi hj)
  refine ⟨hd0, h0, ?_, hdisk⟩
  rw [hw, hd.head.n, homeWrites]
  congr 1
  refine List.map_congr_left fun i hi => ?_
  have hi' := List.mem_range.mp hi
  rw [hblk i hi', hd.log i hi']

/-- The disk a crash leaves after `k` writes of a recovery. -/
def crash (start : ℕ) (d : Disk) (k : ℕ) : Disk := Writes.apply d ((recoverWrites start d).take k)

theorem Settled.crash (hsz : 0 < size) (hd : Settled start size t d) (k : ℕ) :
    Settled start size t (crash start d k) := by
  obtain ⟨hd0, h0, hw, -⟩ := recoverWrites_of_empty hd.head
  rw [RedoLog.crash, hw]
  cases k with
  | zero => exact hd
  | succ k =>
    rw [List.take_succ_cons, List.take_nil]
    exact Settled.writeHead hsz hd.eq h0

theorem During.crash (h : Pending start size s) (hd : During start size s d) (k : ℕ) :
    During start size s (crash start d k) ∨
      Settled start size (installed s) (crash start d k) := by
  obtain ⟨hd0, h0, hw, -⟩ := recoverWrites_of_during h hd
  rw [RedoLog.crash, hw]
  exact hd.take h h0 k

theorem Settled.crashes (hsz : 0 < size) : ∀ (ks : List ℕ) {d : Disk}, Settled start size t d →
    Settled start size t (ks.foldl (RedoLog.crash start) d)
  | [], _, hd => hd
  | k :: ks, _, hd => Settled.crashes hsz ks (hd.crash hsz k)

theorem During.crashes (h : Pending start size s) : ∀ (ks : List ℕ) {d : Disk},
    During start size s d → During start size s (ks.foldl (RedoLog.crash start) d) ∨
      Settled start size (installed s) (ks.foldl (RedoLog.crash start) d)
  | [], _, hd => Or.inl hd
  | k :: ks, _, hd => by
    rcases hd.crash h k with hd | hd
    · exact During.crashes h ks hd
    · exact Or.inr (hd.crashes (by have := h.fits; omega) ks)

theorem Settled.recover (hsz : 0 < size) (hd : Settled start size t d) :
    Settled start size t (recoverFromLog start (boot d)).disk := by
  obtain ⟨hd0, h0, -, hdisk⟩ := recoverWrites_of_empty hd.head
  rw [hdisk]
  exact Settled.writeHead hsz hd.eq h0

theorem During.recover (h : Pending start size s) (hd : During start size s d) :
    Settled start size (installed s) (recoverFromLog start (boot d)).disk := by
  obtain ⟨hd0, h0, hw, hdisk⟩ := recoverWrites_of_during h hd
  rw [hdisk, hw, Writes.apply_append]
  exact hd.finish h h0

/-- The disk after the last of any number of crashes is recovered. -/
def recovered (start : ℕ) (d : Disk) (ks : List ℕ) : Disk :=
  (recoverFromLog start (boot (ks.foldl (crash start) d))).disk

theorem Settled.recovered (hsz : 0 < size) (hd : Settled start size t d) (ks : List ℕ) :
    Settled start size t (recovered start d ks) := (hd.crashes hsz ks).recover hsz

theorem During.recovered (h : Pending start size s) (hd : During start size s d) (ks : List ℕ) :
    Settled start size (installed s) (recovered start d ks) := by
  rcases hd.crashes h ks with hd | hd
  · exact hd.recover h
  · exact hd.recover (by have := h.fits; omega)

/-! ### A commit -/

/-- While only log blocks are written, the disk is settled at the old blocks. -/
theorem settled_of_log (h : Pending start size s) (ws : List (ℕ × Block))
    (hws : ∀ w ∈ ws, w ∈ logWrites start s) :
    Settled start size s.disk (Writes.apply s.disk ws) := by
  have hkeep : ∀ b, (∀ i < rounds s.lh.n, start + i + 1 ≠ b) → Writes.apply s.disk ws b = s.disk b := by
    intro b hb
    apply Writes.apply_of_forall_ne
    intro w hw
    obtain ⟨i, hi, rfl⟩ := mem_logWrites.mp (hws w hw)
    exact hb i hi
  refine ⟨?_, fun b hb => hkeep b fun i hi => ?_⟩
  · rw [hkeep start fun i _ => by omega]
    exact h.idle
  · have := h.fits
    rcases hb with hb | hb <;> omega

/-- The header write commits the transaction. -/
theorem during_of_head (h : Pending start size s) {hd : Block} (hhd : IsHead s hd) :
    During start size s
      (update (Writes.apply s.disk (logWrites start s)) start hd) := by
  have hlog := settled_of_log h (logWrites start s) fun _ hw => hw
  refine ⟨by simpa using hhd, fun i hi => ?_, fun b hb hf => ?_⟩
  · rw [update_of_ne (by omega), apply_logWrites _ hi]
  · have hne : b ≠ start := by have := h.fits; rcases hb with hb | hb <;> omega
    rw [update_of_ne hne]
    exact hlog.eq b hb

/-- A header write is among the writes `ws`. -/
def HeadWritten (start : ℕ) (ws : List (ℕ × Block)) : Prop := ∃ w ∈ ws, w.1 = start

theorem not_headWritten_log {ws : List (ℕ × Block)} (hws : ∀ w ∈ ws, w ∈ logWrites start s) :
    ¬ HeadWritten start ws := by
  rintro ⟨w, hw, hws0⟩
  obtain ⟨i, -, rfl⟩ := mem_logWrites.mp (hws w hw)
  simp only at hws0
  omega

/-- **A commit is atomic.** Cut `commit` after any `k` of its writes, cut the
recoveries that follow after any numbers `ks` of theirs, and let one run to
its end: outside the log the disk is the new one if the first header write had
reached it and the old one if not, and the header is empty. -/
theorem commit_settled (h : Pending start size s) (k : ℕ) (ks : List ℕ) :
    (HeadWritten start ((commitWrites start s).take k) →
      Settled start size (installed s)
        (recovered start (Writes.apply s.disk ((commitWrites start s).take k)) ks)) ∧
    (¬ HeadWritten start ((commitWrites start s).take k) →
      Settled start size s.disk
        (recovered start (Writes.apply s.disk ((commitWrites start s).take k)) ks)) := by
  have hsz : 0 < size := by have := h.fits; omega
  by_cases hn : 0 < s.lh.n.toInt
  · obtain ⟨hd, hd0, hhd, h0, hw⟩ :=
      commit_writes (s := { s with writes := [] }) ⟨h.idle, h.fits, h.outside⟩ hn
    have hw' : commitWrites start s =
        logWrites start s ++ (start, hd) :: (homeWrites s ++ [(start, hd0)]) := hw
    rcases Nat.lt_or_ge (logWrites start s).length k with hk | hk
    · -- the header is among the `k` writes
      obtain ⟨j, rfl⟩ : ∃ j, k = (logWrites start s).length + (j + 1) :=
        ⟨k - (logWrites start s).length - 1, by omega⟩
      have htake : (commitWrites start s).take ((logWrites start s).length + (j + 1)) =
          logWrites start s ++ (start, hd) :: (homeWrites s ++ [(start, hd0)]).take j := by
        rw [hw', List.take_length_add_append, List.take_succ_cons]
      rw [htake, Writes.apply_append, Writes.apply_cons]
      have hhead : IsHead s hd := ⟨hhd.n, hhd.block⟩
      have hdur := during_of_head h hhead
      refine ⟨fun _ => ?_, fun hno => absurd ⟨(start, hd), by simp, rfl⟩ hno⟩
      rcases hdur.take h h0 j with hd' | hd'
      · exact hd'.recovered h ks
      · exact hd'.recovered hsz ks
    · -- only log blocks so far
      have htake : (commitWrites start s).take k = (logWrites start s).take k := by
        rw [hw', List.take_append_of_le_length hk]
      have hlog : ∀ w ∈ (logWrites start s).take k, w ∈ logWrites start s :=
        fun w hw => List.mem_of_mem_take hw
      rw [htake]
      exact ⟨fun hex => absurd hex (not_headWritten_log hlog),
        fun _ => (settled_of_log h _ hlog).recovered hsz ks⟩
  · -- an empty transaction writes nothing
    have hw : commitWrites start s = [] := by
      rw [commitWrites, commit, if_neg hn]
    rw [hw, List.take_nil]
    refine ⟨fun ⟨w, hw, _⟩ => by simp at hw, fun _ => ?_⟩
    exact (settled_of_log h [] (by simp)).recovered hsz ks

/-- **Crash atomicity of the redo log.** Every home block ends old or every
home block ends new, new exactly when the first header write had reached the
disk; the header ends empty, and no other block outside the log changes. -/
theorem crash_atomic (h : Pending start size s) (k : ℕ) (ks : List ℕ) :
    let d := recovered start (Writes.apply s.disk ((commitWrites start s).take k)) ks
    headN (d start) = 0 ∧
    (HeadWritten start ((commitWrites start s).take k) →
      ∀ i < rounds s.lh.n, d (home s i) = bread s (home s i)) ∧
    (¬ HeadWritten start ((commitWrites start s).take k) →
      ∀ i < rounds s.lh.n, d (home s i) = s.disk (home s i)) ∧
    ∀ b, Outside start size b → (∀ i < rounds s.lh.n, home s i ≠ b) → d b = s.disk b := by
  intro d
  obtain ⟨hnew, hold⟩ := commit_settled h k ks
  by_cases hc : HeadWritten start ((commitWrites start s).take k)
  · have hd : Settled start size (installed s) d := hnew hc
    refine ⟨hd.head, fun _ i hi => ?_, fun hno => absurd hc hno, fun b hb hf => ?_⟩
    · rw [hd.eq _ (h.outside i hi), installed, apply_homeWrites_home _ hi]
    · rw [hd.eq b hb, installed, apply_homeWrites_other _ hf]
  · have hd : Settled start size s.disk d := hold hc
    exact ⟨hd.head, fun hyes => absurd hyes hc, fun _ i hi => hd.eq _ (h.outside i hi),
      fun b hb _ => hd.eq b hb⟩

end Phases

/-- A transaction of one block, number 100, on an empty disk. -/
def oneBlock : State where
  disk := fun _ _ => 0
  dirty := fun b => if b = 100 then some fun _ => 7 else none
  lh := ⟨1, fun _ => 100⟩
  writes := []

/-- The power goes after the header of `oneBlock` is written, and again after
the first write of the recovery. -/
theorem crash_atomic_oneBlock : Pending 2 30 oneBlock ∧
    recovered 2 (Writes.apply oneBlock.disk ((commitWrites 2 oneBlock).take 2)) [1] 100 =
      fun _ => 7 := by
  have hp : Pending 2 30 oneBlock := by
    refine ⟨by decide, by decide, fun i hi => Or.inr ?_⟩
    show 2 + 30 ≤ (100 : UInt32).toNat
    decide
  refine ⟨hp, ((crash_atomic hp 2 [1]).2.1 ?_ 0 (by decide)).trans ?_⟩
  · obtain ⟨hd, hd0, -, -, hw⟩ := commit_writes (s := { oneBlock with writes := [] }) hp (by decide)
    refine ⟨(2, hd), ?_, rfl⟩
    rw [commitWrites, hw]
    exact List.mem_cons_of_mem _ List.mem_cons_self
  · rfl

end RedoLog
end Xv6
