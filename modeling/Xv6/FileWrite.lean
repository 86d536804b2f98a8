/-
# A write to a file is one write

filewrite cuts what it has to write into pieces of 1536 bytes and writes each in a transaction of
its own, at the offset that the piece before has left. For the file nothing of this is visible: the
contents are the old ones with all bytes replaced from the old offset on, and the offset has gone
past them (`Spliced`). When the file would become too large the pieces that fit have been written. A
write with room for its blocks, on an idle log, does return.
-/
import Xv6.FileContents

namespace Xv6

open Prog
open Function (update update_self)

/-- In entry `k` of the cache, which nobody has locked, is the regular file `i`. -/
structure Opened (sb : Superblock) (s : Fs) (k : Slot) (i : ℕ) : Prop where
  lt : i < sb.ninodes
  inum : (s.icache k).inum = i
  ref : 1 ≤ (s.icache k).ref
  lock : (s.icache k).lock = false
  copy : (s.icache k).valid = true → (s.icache k).d = inoOf sb s.disk i
  regular : (inoOf sb s.disk i).type = T_FILE

/-- `E` allows what may stop a write that allocates `A` blocks: anything if the log is busy or too
small, and otherwise only that there are too few free blocks. -/
structure Affords (sb : Superblock) (E : Stop → Prop) (A : ℕ) (s : Fs) : Prop where
  busy : ¬(18 ≤ sb.nlog ∧ s.outstanding = 0 ∧ s.lh = []) → ∀ e, e ≠ .panic "short filewrite" → E e
  free : (freeBlocks sb s.disk).card < A → E (.panic "balloc: out of blocks")

/-- A transaction has written `src` at `off`. -/
structure Chunk (sb : Superblock) (s : Fs) (k : Slot) (i off : ℕ) (src : Str) (s' : Fs) : Prop where
  size : (inoOf sb s'.disk i).size.toNat = max (inoOf sb s.disk i).size.toNat (off + src.length)
  bytes : contents sb s'.disk i = (contents sb s.disk i).splice off src
  other : ∀ j, j < sb.ninodes → j ≠ i → inoOf sb s'.disk j = inoOf sb s.disk j ∧
    ((inoOf sb s.disk j).type ≠ 0 → contents sb s'.disk j = contents sb s.disk j)
  opened : Opened sb s' k i
  sited : Sited sb s'.disk i

/-- File `f`, which is inode `i`, has been written: `src` is in its contents from the old offset on,
the offset is past it, and nothing else has changed. -/
structure Spliced (sb : Superblock) (K : Kernel) (f : Fin NFILE) (k : Slot) (i : ℕ) (src : Str)
    (K' : Kernel) : Prop where
  same : K' = { K with fs := K'.fs, file := K'.file }
  file : K'.file = update K.file f { K.file f with off := (K.file f).off + src.length }
  chunk : Chunk sb K.fs k i (K.file f).off src K'.fs

/-- The state of the file system in the transaction, with inode `k` locked. -/
def Fs.entered (sb : Superblock) (s : Fs) (k : Slot) : Fs :=
  ({ s with outstanding := s.outstanding + 1, trace := s.trace ++ [.beginOp] } : Fs).setInode k
    { s.icache k with lock := true, valid := true, d := inoOf sb s.disk (s.icache k).inum }

/-- The state after the end of the transaction. -/
def Fs.left (s : Fs) (k : Slot) : Fs :=
  let lh := if s.outstanding - 1 = 0 then [] else s.lh
  { s.setInode k { s.icache k with lock := false } with
    outstanding := s.outstanding - 1, lh := lh, trace := s.trace ++ [.endOp] }

/-- The state of the kernel after a transaction that has written `n` bytes. -/
def Kernel.advanced (K : Kernel) (f : Fin NFILE) (n : ℕ) (s : Fs) : Kernel :=
  let x := { K.file f with off := ((K.file f).off + n) % 2 ^ 32 }
  { K with fs := s, file := update K.file f x }

section

variable {sb : Superblock} {s s' s1 s2 : Fs} {K K1 K' : Kernel} {i off A n : ℕ} {k : Slot}
  {src src' : Str} {E : Stop → Prop} {f : Fin NFILE}

theorem Kernel.advanced_off : ((K.advanced f n s).file f).off = ((K.file f).off + n) % 2 ^ 32 := by
  unfold Kernel.advanced
  simp only [update_self]

/-! ### One transaction -/

theorem Opened.loaded (h : Opened sb s k i) : Loaded sb (s.entered sb k) k i := by
  have hreg : (inoOf sb (s.entered sb k).disk i).type = T_FILE := h.regular
  refine ⟨h.lt, ?_, ?_, ?_, ?_⟩
  · rw [Fs.entered, Fs.setInode_self]
    exact h.inum
  · rw [Fs.entered, Fs.setInode_self, h.inum]
    rfl
  · rw [hreg]
    decide
  · rw [hreg]
    decide

/-- A transaction of `filewrite` is a `writei` with the inode locked. -/
theorem sat_writeInOp {Q : Option ℕ → Fs → Prop} (h : Opened sb s k i)
    (hb : LOGSIZE < s.lh.length + (s.outstanding + 1) * MAXOPBLOCKS → E .sleep)
    (hw : Sat (writei sb k src off) (s.entered sb k)
      (fun r s1 => Q r (s1.left k) ∧ (s1.icache k).lock = true ∧ (s1.icache k).ref =
        (s.icache k).ref) E) :
    Sat (writeInOp sb k src off) s Q E := by
  refine (sat_beginOp hb).bind ?_
  rintro _ _ rfl
  have hreg : (inoOf sb s.disk (s.icache k).inum).type ≠ 0 := by
    rw [h.inum, h.regular]
    decide
  refine .bind
    (sat_ilock (s := { s with outstanding := s.outstanding + 1, trace := s.trace ++ [.beginOp] })
      h.ref h.lock
    (fun hv => by rw [h.inum]; exact h.copy hv) fun _ => hreg) ?_
  rintro _ _ rfl
  refine hw.bind fun r s1 ⟨hQ, hlock, href⟩ => ?_
  refine (sat_iunlock (by rw [href]; exact h.ref) hlock).bind ?_
  rintro _ _ rfl
  exact .modify_bind (.pure hQ)

/-- How many blocks a write has left free. -/
theorem card_writei (h : Loaded sb s k i) (hs : Sited sb s.disk i) (src : Str) (off : ℕ) :
    Sat (writei sb k src off) s (fun _ s' => (freeBlocks sb s.disk).card ≤
      (freeBlocks sb s'.disk).card + newBlocks (inoOf sb s.disk i).size.toNat off src.length)
      fun _ => True := by
  obtain ⟨c, hc⟩ : ∃ c, c = (freeBlocks sb s.disk).card - newBlocks (inoOf sb s.disk i).size.toNat
    off src.length := ⟨_, rfl⟩
  -- the write runs out of blocks only if there were too few at its start
  have hroom : Room sb (fun e => e = .panic "balloc: out of blocks" →
        (freeBlocks sb s.disk).card < c + newBlocks (inoOf sb s.disk i).size.toNat off src.length)
      s.outstanding (0 + logBlocks (inoOf sb s.disk i).size.toNat off src.length)
      (c + newBlocks (inoOf sb s.disk i).size.toNat off src.length) s :=
    ⟨rfl, fun _ h => by simp at h, fun _ h => by simp at h, fun h _ => h⟩
  refine (sat_writei h hs src off hroom).mono (fun _ s' ⟨_, hr⟩ => ?_) fun _ _ => trivial
  by_contra hlt
  have := hr.free (by omega) rfl
  omega

namespace Chunk

theorem refl (h : Opened sb s k i) (hs : Sited sb s.disk i)
    (hoff : off ≤ (inoOf sb s.disk i).size.toNat) : Chunk sb s k i off [] s :=
  ⟨(max_eq_left hoff).symm, (List.splice_nil ..).symm, fun _ _ _ => ⟨rfl, fun _ => rfl⟩, h, hs⟩

theorem rejected (h : Opened sb s k i) (hs : Sited sb s.disk i)
    (hoff : off ≤ (inoOf sb s.disk i).size.toNat) : Chunk sb s k i off [] ((s.entered sb k).left k) := by
  have hk : ((s.entered sb k).left k).icache k =
      { s.icache k with lock := false, valid := true, d := inoOf sb s.disk (s.icache k).inum } := by
    rw [Fs.left]
    exact (Fs.setInode_self ..).trans (by rw [Fs.entered, Fs.setInode_self])
  refine ⟨?_, ?_, fun j _ _ => ⟨rfl, fun _ => rfl⟩, ⟨h.lt, ?_, ?_, ?_, fun _ => ?_, h.regular⟩, hs⟩
  · rw [List.length_nil, Nat.add_zero, max_eq_left hoff]
    rfl
  · rw [List.splice_nil]
    rfl
  · rw [hk]
    exact h.inum
  · rw [hk]
    exact h.ref
  · rw [hk]
  · rw [hk, h.inum]
    rfl

theorem written (h : Opened sb s k i) (hoff : off ≤ (inoOf sb s.disk i).size.toNat)
    (hw : Written sb (s.entered sb k) k i off src.length (fun j => src.getD j 0) s1) :
    Chunk sb s k i off src (s1.left k) := by
  have hr := hw.rewritten h.loaded hoff
  have hk1 : s1.icache k = { s.icache k with lock := true, valid := true, d := inoOf sb s1.disk i } := by
    rw [hw.stored.cache, update_self, Fs.entered, Fs.setInode_self]
  have hk :
    (s1.left k).icache k =
      { s.icache k with lock := false, valid := true, d := inoOf sb s1.disk i } := by
    rw [Fs.left]
    exact (Fs.setInode_self ..).trans (by rw [hk1])
  refine ⟨hr.size, hr.bytes, hr.other, ⟨h.lt, ?_, ?_, ?_, fun _ => ?_, ?_⟩, hr.sited⟩
  · rw [hk]
    exact h.inum
  · rw [hk]
    exact h.ref
  · rw [hk]
  · rw [hk]
    rfl
  · change (inoOf sb s1.disk i).type = T_FILE
    rw [hw.fields]
    exact h.regular

/-- Two pieces one after the other are one. -/
theorem trans (h : Chunk sb s k i off src s1) (h' : Chunk sb s1 k i (off + src.length) src' s2)
    (hoff : off ≤ (inoOf sb s.disk i).size.toNat) : Chunk sb s k i off (src ++ src') s2 := by
  refine ⟨?_, ?_, fun j hj hji => ?_, h'.opened, h'.sited⟩
  · rw [h'.size, h.size, List.length_append]
    omega
  · rw [h'.bytes, h.bytes, List.splice_append (by rw [length_contents]; exact hoff)]
  · obtain ⟨h1, h2⟩ := h.other j hj hji
    obtain ⟨h3, h4⟩ := h'.other j hj hji
    exact ⟨h3.trans h1, fun ht => (h4 (by rw [h1]; exact ht)).trans (h2 ht)⟩

end Chunk

theorem newBlocks_add (size off n m : ℕ) :
    newBlocks size off (n + m) = newBlocks size off n + newBlocks (max size (off + n)) (off + n) m := by
  unfold newBlocks
  have h1 := blocksFor_mono (le_max_left size (off + n))
  have h2 := blocksFor_mono (le_max_left (max size (off + n)) (off + n + m))
  rw [show max (max size (off + n)) (off + n + m) = max size (off + (n + m)) by omega] at h2 ⊢
  omega

/-- At most four blocks for the 1536 bytes of a piece. -/
theorem newBlocks_le {size : ℕ} (hoff : off ≤ size) (hn : n ≤ 1536) : newBlocks size off n ≤ 4 := by
  unfold newBlocks blocksFor
  split <;> split <;> omega

theorem rounds_le (hn : n ≤ 1536) : rounds off n ≤ 4 := by
  unfold rounds
  split <;> omega

/-- What a transaction of `filewrite` leaves: it has written all of its piece, or nothing as the
file would be too large. -/
def ChunkDone (sb : Superblock) (s : Fs) (k : Slot) (i off : ℕ) (src : Str) (s' : Fs) : Option ℕ → Prop
  | none => MAXFILE * BSIZE < off + src.length ∧ Chunk sb s k i off [] s'
  | some n => n = src.length ∧ off + src.length ≤ MAXFILE * BSIZE ∧ Chunk sb s k i off src s'

theorem left_idle (hout : s1.outstanding = 1) : (s1.left k).outstanding = 0 ∧ (s1.left k).lh = [] := by
  rw [Fs.left, hout]
  exact ⟨rfl, rfl⟩

/-- **One transaction.** -/
theorem sat_chunk (h : Opened sb s k i) (hs : Sited sb s.disk i)
    (hoff : off ≤ (inoOf sb s.disk i).size.toNat) (hn : src.length ≤ 1536)
    (ha : Affords sb E
      (if MAXFILE * BSIZE < off + src.length then 0
        else A + newBlocks (inoOf sb s.disk i).size.toNat off src.length) s) :
    Sat (writeInOp sb k src off) s (fun r s' => ChunkDone sb s k i off src s' r ∧
      (r ≠ none → Affords sb E A s')) E := by
  have hb : LOGSIZE < s.lh.length + (s.outstanding + 1) * MAXOPBLOCKS → E .sleep := fun hfull =>
    ha.busy (fun ⟨_, hout, hlh⟩ => by rw [hout, hlh] at hfull; simp at hfull) _ (by simp)
  have hsize := (inoOf sb s.disk i).size.toNat_lt
  have hmaxfile := maxfile_bytes
  by_cases hbig : MAXFILE * BSIZE < off + src.length
  · refine sat_writeInOp h hb ((writei_rejects h.loaded (.inr (.inr hbig))).post ?_)
    rintro _ _ ⟨rfl, rfl⟩
    exact ⟨⟨⟨hbig, Chunk.rejected h hs hoff⟩, fun h => absurd rfl h⟩,
      by rw [Fs.entered, Fs.setInode_self],
      by rw [Fs.entered, Fs.setInode_self]⟩
  · rw [if_neg hbig] at ha
    have hloaded := h.loaded
    have hsited : Sited sb (s.entered sb k).disk i := hs
    have hnew := newBlocks_le hoff hn
    have hrounds : rounds off src.length ≤ 4 := rounds_le hn
    -- with an idle log there is room for a piece
    have hroom :
      Room sb E (s.outstanding + 1) (0 + logBlocks (inoOf sb s.disk i).size.toNat off src.length)
        (0 + newBlocks (inoOf sb s.disk i).size.toNat off src.length) (s.entered sb k) := by
      refine ⟨rfl, fun hno => ha.busy (fun ⟨h18, _, hlh⟩ => hno ?_) _ (by simp), fun hlt =>
        ha.busy (fun ⟨_, hout, _⟩ => ?_) _ (by simp),
        fun hlt => ha.free ?_⟩
      · unfold Fs.demand logBlocks
        rw [show (s.entered sb k).lh = [] from hlh, List.length_nil, show LOGSIZE = 30 from rfl]
        split_ifs <;> omega
      · omega
      · rw [show (s.entered sb k).disk = s.disk from rfl] at hlt
        omega
    have hcard := card_writei hloaded hsited src off
    refine sat_writeInOp h hb (((sat_writei hloaded hsited src off hroom).and hcard).post ?_)
    rintro r s1 ⟨⟨hdone, hr⟩, hfree⟩
    cases r with
    | none =>
      obtain ⟨-, hno⟩ := hdone
      rw [show (s.entered sb k).disk = s.disk from rfl, Nat.mod_eq_of_lt (by omega)] at hno
      omega
    | some n =>
      obtain ⟨rfl, -, hle, hw⟩ := hdone
      have hk1 :
        s1.icache k = { s.icache k with lock := true, valid := true, d := inoOf sb s1.disk i } := by
        rw [hw.stored.cache, update_self, Fs.entered, Fs.setInode_self]
      refine ⟨⟨⟨rfl, hle, Chunk.written h hoff hw⟩, fun _ =>
        ⟨fun hbusy => ha.busy fun ⟨h18, hout, _⟩ => hbusy ?_,
        fun hlt => ha.free ?_⟩⟩, by rw [hk1], by rw [hk1]⟩
      · exact ⟨h18, left_idle (k := k) (by rw [hr.out, hout]; rfl)⟩
      · rw [show (s.entered sb k).disk = s.disk from rfl] at hfree
        rw [show (s1.left k).disk = s1.disk from rfl] at hlt
        omega

/-! ### The loop -/

namespace Spliced

/-- A part of the loop that leaves the files alone has written nothing. -/
theorem nil (h : Chunk sb K.fs k i (K.file f).off [] s) : Spliced sb K f k i [] { K with fs := s } :=
  ⟨rfl, (Function.update_eq_self f K.file).symm, h⟩

/-- A transaction has written a piece, and the offset is set. -/
theorem piece (h : Chunk sb K.fs k i (K.file f).off src s)
    (hle : (K.file f).off + src.length ≤ MAXFILE * BSIZE) :
    Spliced sb K f k i src (K.advanced f src.length s) := by
  refine ⟨rfl, ?_, h⟩
  rw [Kernel.advanced, Nat.mod_eq_of_lt (by rw [maxfile_bytes] at hle; omega)]

theorem trans (h : Spliced sb K f k i src K1) (h' : Spliced sb K1 f k i src' K')
    (hoff : (K.file f).off ≤ (inoOf sb K.fs.disk i).size.toNat) :
    Spliced sb K f k i (src ++ src') K' := by
  have hfile :
    K1.file f =
      { K.file f with off := (K.file f).off + src.length } := by rw [h.file, update_self]
  refine ⟨?_, ?_, h.chunk.trans (by have := h'.chunk; rwa [hfile] at this) hoff⟩
  · rw [h'.same, h.same]
  · rw [h'.file, hfile, h.file, Function.update_idem, List.length_append, Nat.add_assoc]

end Spliced

/-- How far `filewrite` gets: all of it, or as many pieces of 1536 bytes as fit into the file. -/
def Progress (sb : Superblock) (K : Kernel) (f : Fin NFILE) (k : Slot) (i : ℕ) (src : Str)
    (K' : Kernel) : Bool → Prop
  | true => Spliced sb K f k i src K'
  | false => MAXFILE * BSIZE < (K.file f).off + src.length ∧
      ∃ m, 1536 * m < src.length ∧ Spliced sb K f k i (src.take (1536 * m)) K'

/-- **All transactions.** -/
theorem sat_filewriteFrom (fuel : ℕ) (src : Str) (hfuel : src.length ≤ fuel)
    (h : Opened sb K.fs k i) (hs : Sited sb K.fs.disk i)
    (hoff : (K.file f).off ≤ (inoOf sb K.fs.disk i).size.toNat)
    (ha : Affords sb E (newBlocks (inoOf sb K.fs.disk i).size.toNat (K.file f).off
      (min src.length (MAXFILE * BSIZE - (K.file f).off))) K.fs) :
    Sat (filewriteFrom sb f k fuel src) K (fun all K' => Progress sb K f k i src K' all) E := by
  -- when nothing is left
  have hnil : src.length = 0 → Progress sb K f k i src K true := fun h0 => by
    rw [List.length_eq_zero_iff.mp h0]
    exact Spliced.nil (Chunk.refl h hs hoff)
  induction fuel generalizing src K with
  | zero => exact .pure (hnil (by omega))
  | succ fuel ih =>
    refine .ite (fun h0 => .pure (hnil h0)) fun h0 => .get_bind ?_
    obtain ⟨n, hn⟩ : ∃ n, n = min src.length 1536 := ⟨_, rfl⟩
    have hlen : (src.take n).length = n := by
      rw [List.length_take]
      omega
    have hrest : (src.drop n).length = src.length - n := List.length_drop
    rw [← hn]
    refine onFs_bind
      (sat_chunk h hs hoff
        (A := newBlocks (max (inoOf sb K.fs.disk i).size.toNat ((K.file f).off + n))
      ((K.file f).off + n) (min (src.drop n).length (MAXFILE * BSIZE - ((K.file f).off + n))))
        (by omega) ⟨ha.busy, fun hlt => ?_⟩) ?_
    · rw [hlen] at hlt
      split at hlt
      · omega
      · rw [Nat.add_comm, ← newBlocks_add] at hlt
        rw [show n + min (src.drop n).length (MAXFILE * BSIZE - ((K.file f).off + n)) =
          min src.length (MAXFILE * BSIZE - (K.file f).off) by
          omega] at hlt
        exact ha.free hlt
    · rintro r s1 ⟨hdone, ha1⟩
      cases r with
      | none =>
        obtain ⟨hbig, hc⟩ := hdone
        exact .pure ⟨by omega, 0, by omega, Spliced.nil hc⟩
      | some m =>
        obtain ⟨rfl, hle, hc⟩ := hdone
        rw [hlen] at hle ⊢
        refine .modify_bind (.ite (fun hne => absurd rfl hne) fun _ => ?_)
        have hsp := Spliced.piece hc (by omega)
        rw [hlen] at hsp
        have hfile : ((K.advanced f n s1).file f).off = (K.file f).off + n := by
          rw [hsp.file, update_self, hlen]
        have hsize := hc.size
        rw [hlen] at hsize
        have hoff1 : ((K.advanced f n s1).file f).off ≤ (inoOf sb s1.disk i).size.toNat := by
          rw [hfile, hsize]
          exact le_max_right ..
        refine (ih (K := K.advanced f n s1) (src.drop n) (by omega) hc.opened hc.sited hoff1 ?_
          ?_).post ?_
        · change Affords sb E (newBlocks (inoOf sb s1.disk i).size.toNat _ _) s1
          rw [hfile, hsize]
          exact ha1 (by simp)
        · intro h0
          rw [List.length_eq_zero_iff.mp h0]
          exact Spliced.nil (Chunk.refl hc.opened hc.sited hoff1)
        · intro all K' hp
          cases all with
          | true =>
            have := hsp.trans hp hoff
            rwa [List.take_append_drop] at this
          | false =>
            obtain ⟨hbig, m, hm, hrest⟩ := hp
            rw [hfile] at hbig
            have h1536 : n = 1536 := by omega
            refine ⟨by omega, m + 1, by omega, ?_⟩
            have := hsp.trans hrest hoff
            rwa [h1536, ← List.take_add, show 1536 + 1536 * m = 1536 * (m + 1) by omega] at this

/-- **`filewrite` is one write.** A write that returns `n` has replaced `n` bytes from the offset
on, and one that returns -1 some pieces of 1536 bytes, as all bytes would make the file too large.
There is no short write, and with free blocks and an idle log the write returns. -/
theorem filewrite_splices (htype : (K.file f).type = .inode) (hwr : (K.file f).writable = true)
    (hip : (K.file f).ip = some k) (h : Opened sb K.fs k i) (hs : Sited sb K.fs.disk i)
    (hoff : (K.file f).off ≤ (inoOf sb K.fs.disk i).size.toNat) (src : Str) (pipewrite : ℤ) :
    (∀ r K', filewrite sb f src pipewrite K = .ok (r, K') →
      (r = src.length ∧ Spliced sb K f k i src K') ∨
      (r = -1 ∧ MAXFILE * BSIZE < (K.file f).off + src.length ∧
        ∃ m, 1536 * m < src.length ∧ Spliced sb K f k i (src.take (1536 * m)) K')) ∧
    filewrite sb f src pipewrite K ≠ .error (.panic "short filewrite") ∧
    (18 ≤ sb.nlog → K.fs.outstanding = 0 → K.fs.lh = [] →
      newBlocks (inoOf sb K.fs.disk i).size.toNat (K.file f).off
      (min src.length (MAXFILE * BSIZE - (K.file f).off)) ≤
        (freeBlocks sb K.fs.disk).card →
      ∃ r K', filewrite sb f src pipewrite K = .ok (r, K')) := by
  have hsat :
    ∀ {E : Stop → Prop}, Affords sb E (newBlocks (inoOf sb K.fs.disk i).size.toNat (K.file f).off
      (min src.length (MAXFILE * BSIZE - (K.file f).off))) K.fs → Sat (filewrite sb f src pipewrite)
        K (fun r K' =>
        (r = src.length ∧ Spliced sb K f k i src K') ∨
          (r = -1 ∧ MAXFILE * BSIZE < (K.file f).off + src.length ∧
          ∃ m, 1536 * m < src.length ∧ Spliced sb K f k i (src.take (1536 * m)) K')) E := by
    intro E ha
    refine .get_bind ?_
    simp only [hwr, htype, hip]
    refine .ite (fun h => by simp at h) fun _ => ?_
    refine (sat_filewriteFrom src.length src le_rfl h hs hoff ha).bind fun all K' hp => .pure ?_
    cases all with
    | true => exact .inl ⟨rfl, hp⟩
    | false => exact .inr ⟨rfl, hp⟩
  have hany := hsat (E := fun e => e ≠ .panic "short filewrite") ⟨fun _ e he => he, fun _ => by simp⟩
  refine ⟨fun r K' hrun => hany.of_ok hrun, fun hrun => hany.of_stop hrun rfl,
    fun h18 hout hlh hfree => ?_⟩
  obtain ⟨r, K', hrun, -⟩ :=
    (hsat (E := fun _ => False) ⟨fun hno => absurd ⟨h18, hout, hlh⟩ hno, by omega⟩).exists_run
  exact ⟨r, K', hrun⟩

end

/-- The long file is open for writing, and the offset is one byte before its end. -/
def longKernel : Kernel :=
  { boot longDisk [] with
    fs := { longFs with outstanding := 0 }
    file := fun _ =>
      { File.zero with type := .inode, ref := 1, writable := true, ip := some 0, off := 15871 } }

set_option maxRecDepth 100000 in
theorem filewrite_splices_longKernel : ∃ K', filewrite longSb 0 [1, 2, 3] 0 longKernel = .ok (3, K') ∧
    Spliced longSb longKernel 0 0 2 [1, 2, 3] K' := by
  have hsize : (inoOf longSb longKernel.fs.disk 2).size.toNat = 15872 := longDisk_file.2
  have hopen : Opened longSb longKernel.fs 0 2 :=
    ⟨by decide, rfl, by decide, rfl, fun _ => rfl, longDisk_file.1⟩
  have hfree : 1 ≤ (freeBlocks longSb longKernel.fs.disk).card := by decide +kernel
  obtain ⟨hret, -, hruns⟩ := filewrite_splices (f := 0) rfl rfl rfl hopen sited_longFs
    (by rw [hsize]; decide) [1, 2, 3] 0
  obtain ⟨r, K', hrun⟩ := hruns (by decide) rfl rfl (by rw [hsize]; exact hfree)
  rcases hret r K' hrun with ⟨rfl, hsp⟩ | ⟨-, hbig, -⟩
  · exact ⟨K', hrun, hsp⟩
  · exact absurd hbig (by decide)

end Xv6
