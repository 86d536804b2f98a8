/-
# Sound file systems

`DiskOk` is what a disk has to be: every used data block belongs to one address of one
inode, the contents of files and directories have exactly the blocks they need, and
directories name inodes of the disk. `Ok` is what a file system in operation has to be: a
sound disk, a cache of true copies, and enough references for the pointers that are
held.

`Ok c H N s` is stated against the start `c` of a call, as `Disc` is: it also says what may
have become of the inodes that were there then. `H` is the pointers held, with what
is known of each, and `N` what is known of inodes.
-/
import Xv6.Fs.Contents

namespace Xv6

open Prog
open Multiset (map_cons mem_cons_self mem_cons_of_mem mem_map)

structure DiskOk (sb : Superblock) (D : Disk) : Prop where
  own : Owned sb.nmeta sb.size (sites sb D (inoOf sb D)) (usedAt sb D) ∅
  shape : ∀ i, i < sb.ninodes → (inoOf sb D i).type ≠ 0 → (inoOf sb D i).type ≠ T_DEV →
    Shaped D (inoOf sb D i) (inoOf sb D i).size.toNat
  dirs : ∀ i, i < sb.ninodes → (inoOf sb D i).type = T_DIR → DirOk sb D (inoOf sb D i)

/-- How often the inode has been freed. -/
def Fs.frees (s : Fs) (i : ℕ) : ℕ := s.trace.count (.free i)

/-- The start of a call: the disk and how often each inode had been freed, with the
inodes whose mode the call may set and the directories it may write. -/
structure Ctx where
  disk : Disk
  frees : ℕ → ℕ
  mode : Set ℕ
  content : Set ℕ

/-- A pointer to an inode, and its number and type if it has been locked. -/
abbrev Handle := Slot × Option (ℕ × Int16)

/-- How many of the pointers are to the entry. -/
def held (H : Multiset Handle) (k : Slot) : ℕ := (H.map Prod.fst).count k

/-- Something known of an inode. -/
inductive Fact where
  /-- It is not one that was there at the start. -/
  | dead (i : ℕ)
  /-- If it is, and a directory, it may be written. -/
  | may (i : ℕ)

section

variable (sb : Superblock) (c : Ctx)

/-- The inode was there at the start of the call and has not been freed. -/
def Live (s : Fs) (i : ℕ) : Prop := (inoOf sb c.disk i).type ≠ 0 ∧ s.frees i ≤ c.frees i

/-- What may have become of an inode that was there at the start: its type and owner are
the same, its mode if it may not be set, and the contents of a directory that may
not be written. -/
structure Since (D : Disk) (i : ℕ) : Prop where
  type : (inoOf sb D i).type = (inoOf sb c.disk i).type
  owner : (inoOf sb D i).id = (inoOf sb c.disk i).id
  mode : (inoOf sb D i).mode = (inoOf sb c.disk i).mode ∨ i ∈ c.mode
  content : (inoOf sb c.disk i).type = T_DIR → i ∈ c.content ∨
    ((inoOf sb D i).size = (inoOf sb c.disk i).size ∧
      ∀ x, x < (inoOf sb c.disk i).size.toNat →
        byteOf D (inoOf sb D i) x = byteOf c.disk (inoOf sb c.disk i) x)

/-- An entry of the cache in use: a true copy, if it is valid. -/
structure SlotOk (D : Disk) (ip : Inode) : Prop where
  dev : ip.dev = ROOTDEV
  inum : ip.inum < sb.ninodes
  copy : ip.valid → ip.d = inoOf sb D ip.inum ∧ ip.d.type ≠ 0

/-- What a handle says is true. -/
def Handle.Holds (s : Fs) (h : Handle) : Prop :=
  ∀ i ty, h.2 = some (i, ty) →
    (s.icache h.1).inum = i ∧ (s.icache h.1).valid = true ∧ (s.icache h.1).d.type = ty

def Fact.Holds (s : Fs) : Fact → Prop
  | .dead i => ¬Live sb c s i
  | .may i => Live sb c s i → i ∈ c.content

/-- The file system is sound, and stands to the start of the call as it may. -/
structure Ok (H : Multiset Handle) (N : List Fact) (s : Fs) : Prop where
  disk : DiskOk sb s.disk
  slot : ∀ k, 0 < (s.icache k).ref → SlotOk sb s.disk (s.icache k)
  uniq : ∀ j k, 0 < (s.icache j).ref → 0 < (s.icache k).ref →
    (s.icache j).inum = (s.icache k).inum → j = k
  refs : ∀ k, (held H k : ℤ) ≤ (s.icache k).ref
  locks : ∀ k, (s.icache k).lock = true → 0 < (s.icache k).ref ∧ (s.icache k).valid = true
  known : ∀ h ∈ H, Handle.Holds s h
  frees : ∀ i, c.frees i ≤ s.frees i
  since : ∀ i, i < sb.ninodes → Live sb c s i → Since sb c s.disk i
  facts : ∀ f ∈ N, Fact.Holds sb c s f

end

/-- The one panic that a sound file system rules out. -/
def Fine (e : Stop) : Prop := e ≠ .panic "freeing free block"

section

variable {sb : Superblock} {c : Ctx} {H H' : Multiset Handle} {N N' : List Fact} {s s' : Fs} {i : ℕ}
  {j k : Slot} {ty : Int16} {q : Option (ℕ × Int16)} {α : Type} {d : Dinode} {T : ℕ → Dinode}

/-! ### First facts -/

theorem held_cons_self : held ((k, q) ::ₘ H) k = held H k + 1 := by
  rw [held, map_cons, Multiset.count_cons_self, held]

theorem held_cons_ne (h : j ≠ k) : held ((k, q) ::ₘ H) j = held H j := by
  rw [held, map_cons, Multiset.count_cons_of_ne h, held]

theorem held_pos (h : (k, q) ∈ H) : 0 < held H k :=
  Multiset.count_pos.mpr (Multiset.mem_map_of_mem Prod.fst h)

theorem held_le (h : H' ≤ H) (k : Slot) : held H' k ≤ held H k :=
  Multiset.count_le_of_le k (Multiset.map_le_map h)

/-- Facts about inodes stay true: inodes are only ever freed. -/
theorem Fact.Holds.mono {f : Fact} (h : f.Holds sb c s) (hf : ∀ i, s.frees i ≤ s'.frees i) :
    f.Holds sb c s' := by
  cases f with
  | dead i => exact fun hl => h ⟨hl.1, (hf i).trans hl.2⟩
  | may i => exact fun hl => h ⟨hl.1, (hf i).trans hl.2⟩

namespace Ok

theorem ref_pos (h : Ok sb c H N s) (hk : (k, q) ∈ H) : 0 < (s.icache k).ref := by
  have h1 := held_pos hk
  have h2 := h.refs k
  omega

/-- Fewer pointers held, and less known. -/
theorem mono (h : Ok sb c H N s) (hH : H' ≤ H) (hN : ∀ f ∈ N', f ∈ N) : Ok sb c H' N' s where
  disk := h.disk
  slot := h.slot
  uniq := h.uniq
  refs := fun k => by
    have := held_le hH k
    have := h.refs k
    omega
  locks := h.locks
  known := fun x hx => h.known x (Multiset.mem_of_le hH hx)
  frees := h.frees
  since := h.since
  facts := fun f hf => h.facts f (hN f hf)

theorem tail (h : Ok sb c ((k, q) ::ₘ H) N s) : Ok sb c H N s :=
  h.mono (Multiset.le_cons_self H _) fun _ hf => hf

/-- A pointer to an inode that is locked and known, as the lock left it. -/
theorem at_known (h : Ok sb c H N s) (hk : (k, some (i, ty)) ∈ H) :
    (s.icache k).inum = i ∧ (s.icache k).valid = true ∧ i < sb.ninodes ∧
      (s.icache k).d = inoOf sb s.disk i ∧ (inoOf sb s.disk i).type = ty ∧ ty ≠ 0 := by
  obtain ⟨h1, h2, h3⟩ := h.known _ hk i ty rfl
  obtain ⟨-, hlt, hcopy⟩ := h.slot k (h.ref_pos hk)
  obtain ⟨hd, h0⟩ := hcopy h2
  rw [h1] at hlt hd
  exact ⟨h1, h2, hlt, hd, hd ▸ h3, h3 ▸ h0⟩

/-- Only locks, the log and the console have changed. -/
theorem of_same (h : Ok sb c H N s) (hd : s'.disk = s.disk) (hf : ∀ i, s'.frees i = s.frees i)
    (hs : ∀ k, s'.icache k = { s.icache k with lock := (s'.icache k).lock })
    (hl : ∀ k, (s'.icache k).lock = true → 0 < (s.icache k).ref ∧ (s.icache k).valid = true) :
    Ok sb c H N s' := by
  have hlive : ∀ i, Live sb c s' i → Live sb c s i := fun i hl => ⟨hl.1, hf i ▸ hl.2⟩
  refine ⟨hd ▸ h.disk, fun k hk => ?_, fun j k hj hk heq => ?_, fun k => ?_, fun k hk => ?_,
    fun x hx i ty he => ?_, fun i => (h.frees i).trans (hf i).ge, fun i hi hl =>
      hd ▸ h.since i hi (hlive i hl), fun f hf' => (h.facts f hf').mono fun i => (hf i).ge⟩
  · rw [hs k] at hk ⊢
    rw [hd]
    exact ⟨(h.slot k hk).dev, (h.slot k hk).inum, (h.slot k hk).copy⟩
  · rw [hs j] at hj heq
    rw [hs k] at hk heq
    exact h.uniq j k hj hk heq
  · rw [hs k]
    exact h.refs k
  · have := hl k hk
    rwa [hs k]
  · rw [hs x.1]
    exact h.known x hx i ty he

/-- Only the log and the console have changed. -/
theorem of_cache (h : Ok sb c H N s) (hd : s'.disk = s.disk) (hf : ∀ i, s'.frees i = s.frees i)
    (hs : s'.icache = s.icache) : Ok sb c H N s' :=
  h.of_same hd hf (fun k => by rw [hs]) fun k hk => h.locks k (hs ▸ hk)

theorem setSlot (h : Ok sb c H N s) {ip : Inode} (hslot : 0 < ip.ref → SlotOk sb s.disk ip)
    (huniq : 0 < ip.ref → ∀ j, j ≠ k → 0 < (s.icache j).ref → (s.icache j).inum ≠ ip.inum)
    (hlock : ip.lock = true → 0 < ip.ref ∧ ip.valid = true)
    (hk : (held H' k : ℤ) ≤ ip.ref) (hother : ∀ j, j ≠ k → held H' j ≤ held H j)
    (hsub : ∀ x ∈ H', x.1 ≠ k → x ∈ H) (hknown : ∀ q ty, (k, some (q, ty)) ∈ H' →
      ip.inum = q ∧ ip.valid = true ∧ ip.d.type = ty) : Ok sb c H' N (s.setInode k ip) := by
  refine ⟨h.disk, Fs.forall_setInode (P := fun _ ip => 0 < ip.ref → SlotOk sb s.disk ip) hslot
    fun j _ => h.slot j, fun j l hj hl heq => ?_, fun j => ?_,
    Fs.forall_setInode (P := fun _ ip => ip.lock = true → 0 < ip.ref ∧ ip.valid = true) hlock
    fun j _ => h.locks j, fun x hx i ty he => ?_, h.frees, h.since, h.facts⟩
  · by_cases hjk : j = k
    · by_cases hlk : l = k
      · rw [hjk, hlk]
      · rw [hjk, Fs.setInode_self] at hj heq
        rw [Fs.setInode_ne hlk] at hl heq
        exact absurd heq.symm (huniq hj l hlk hl)
    · rw [Fs.setInode_ne hjk] at hj heq
      by_cases hlk : l = k
      · rw [hlk, Fs.setInode_self] at hl heq
        exact absurd heq (huniq hl j hjk hj)
      · rw [Fs.setInode_ne hlk] at hl heq
        exact h.uniq j l hj hl heq
  · by_cases hjk : j = k
    · rw [hjk, Fs.setInode_self]
      exact hk
    · rw [Fs.setInode_ne hjk]
      have := hother j hjk
      have := h.refs j
      omega
  · obtain ⟨j, q⟩ := x
    by_cases hjk : j = k
    · simp only at he
      subst hjk he
      simp only [Fs.setInode_self]
      exact hknown i ty hx
    · simp only [Fs.setInode_ne hjk]
      exact h.known _ (hsub _ hx hjk) i ty he

end Ok

/-! ### Locks and transactions -/

theorem ok_beginOp (h : Ok sb c H N s) : Sat beginOp s (fun _ => Ok sb c H N) Fine := by
  refine .get_bind (.ite (fun _ => .stop (by simp [Fine])) fun _ => .modify ?_)
  exact h.of_cache rfl (fun i => by simp [Fs.frees]) rfl

theorem ok_endOp (h : Ok sb c H N s) : Sat endOp s (fun _ => Ok sb c H N) Fine :=
  .modify (h.of_cache rfl (fun i => by simp [Fs.frees]) rfl)

/-- The lock of an entry is released, or taken with the entry valid. -/
theorem ok_setLock (h : Ok sb c H N s) (b : Bool)
    (hb : b = true → 0 < (s.icache k).ref ∧ (s.icache k).valid = true) :
    Ok sb c H N (s.setInode k { s.icache k with lock := b }) := by
  refine h.of_same rfl (fun _ => rfl)
    (Fs.forall_setInode (P := fun j ip => ip = { s.icache j with lock := ip.lock }) rfl fun _ _ => rfl)
    (Fs.forall_setInode (P := fun j ip => ip.lock = true → 0 < (s.icache j).ref ∧
      (s.icache j).valid = true)
      hb fun j _ => h.locks j)

theorem ok_releasesleep (h : Ok sb c H N s) : Sat (releasesleep k) s (fun _ => Ok sb c H N) Fine :=
  .modify (ok_setLock h false fun hb => by cases hb)

theorem ok_iunlock (h : Ok sb c H N s) : Sat (iunlock k) s (fun _ => Ok sb c H N) Fine :=
  .get_bind (.ite (fun _ => .stop (by simp [Fine])) fun _ => ok_releasesleep h)

/-! ### References -/

/-- What `acquiresleep` does if it returns. -/
theorem run_acquiresleep : Sat (acquiresleep k) s (fun _ s' => (s.icache k).lock = false ∧
    s' = s.setInode k { s.icache k with lock := true }) Fine :=
  .get_bind (.ite (fun _ => .stop (by simp [Fine])) fun hl => .modify ⟨by simpa using hl, rfl⟩)

/-- One more reference to an entry in use. -/
theorem ok_ref (h : Ok sb c H N s) (hk : 0 < (s.icache k).ref) (hq : Handle.Holds s (k, q)) :
    Ok sb c ((k, q) ::ₘ H) N (s.setInode k { s.icache k with ref := (s.icache k).ref + 1 }) := by
  refine h.setSlot (fun _ => ?_) (fun _ j hj hjr heq => hj (h.uniq j k hjr hk heq))
    (fun hl => ⟨?_, (h.locks k hl).2⟩) ?_ (fun j hj => (held_cons_ne hj).le) (fun x hx hxk => ?_)
      fun i ty hx => ?_
  · exact ⟨(h.slot k hk).dev, (h.slot k hk).inum, (h.slot k hk).copy⟩
  · exact hk.trans (by simp)
  · have := h.refs k
    rw [held_cons_self]
    push_cast
    omega
  · rcases Multiset.mem_cons.mp hx with rfl | hx
    · exact absurd rfl hxk
    · exact hx
  · rcases Multiset.mem_cons.mp hx with heq | hx
    · exact hq i ty (Prod.mk.inj heq).2.symm
    · exact h.known _ hx i ty rfl

theorem ok_idup (h : Ok sb c H N s) (hk : (k, q) ∈ H) :
    Sat (idup k) s (fun j s' => j = k ∧ Ok sb c ((k, q) ::ₘ H) N s') Fine :=
  (sat_incRef fun _ => by simp [Fine]).bind fun _ _ heq =>
    .pure ⟨rfl, heq ▸ ok_ref h (h.ref_pos hk) (h.known _ hk)⟩

theorem ok_iget (h : Ok sb c H N s) {inum : ℕ} (hi : inum < sb.ninodes) :
    Sat (iget ROOTDEV inum) s (fun k s' => Ok sb c ((k, none) ::ₘ H) N s' ∧ (s'.icache k).inum = inum)
      Fine := by
  refine (sat_iget (fun _ => by simp [Fine]) fun _ _ _ _ => by simp [Fine]).post fun k s' hgot => ?_
  obtain ⟨hpos, -, hinum, rfl⟩ | ⟨h0, hnone, rfl⟩ := hgot
  · exact ⟨ok_ref h hpos (fun _ _ he => by cases he), by simp [hinum]⟩
  · have hheld : held H k = 0 := by
      have := h.refs k
      omega
    have hfree : ∀ q, (k, q) ∉ H := fun q hq => by
      have := held_pos hq
      omega
    refine ⟨h.setSlot (fun _ => ⟨rfl, hi, fun hv => by cases hv⟩) (fun _ j _ hjr heq => ?_)
      (fun hl => ?_) ?_
      (fun j hj => (held_cons_ne hj).le) (fun x hx hxk => ?_) fun i ty hx => ?_, by simp⟩
    · exact hnone j hjr ⟨(h.slot j hjr).dev, heq⟩
    · have := (h.locks k hl).1
      omega
    · rw [held_cons_self, hheld]
      exact le_refl _
    · rcases Multiset.mem_cons.mp hx with rfl | hx
      · exact absurd rfl hxk
      · exact hx
    · rcases Multiset.mem_cons.mp hx with heq | hx
      · cases (Prod.mk.inj heq).2
      · exact absurd hx (hfree _)

/-- `iget` returns an entry of the inode, and leaves the disk as it is. -/
theorem inum_iget (dev inum : ℕ) :
    Sat (iget dev inum) s (fun k s' => (s'.icache k).inum = inum ∧ s'.disk = s.disk) Any :=
  iget_got.post fun k s' hgot => by
    obtain ⟨-, -, hinum, rfl⟩ | ⟨-, -, rfl⟩ := hgot
    · exact ⟨by rw [Fs.setInode_self, hinum], rfl⟩
    · exact ⟨by rw [Fs.setInode_self], rfl⟩

/-- Give a reference back, of an entry that is not locked. -/
theorem ok_unref (h : Ok sb c ((k, q) ::ₘ H) N s) (hl : (s.icache k).lock = false) :
    Sat (modInode k fun ip => { ip with ref := ip.ref - 1 }) s (fun _ => Ok sb c H N) Fine := by
  have hpos := h.ref_pos (mem_cons_self (k, q) H)
  refine .modify (h.setSlot (fun _ => ?_) (fun _ j hj hjr heq => hj (h.uniq j k hjr hpos heq))
    (fun hl' => by rw [hl] at hl'; cases hl') ?_ (fun j hj => (held_cons_ne hj).ge)
    (fun x hx _ => mem_cons_of_mem hx) fun i ty hx => ?_)
  · exact ⟨(h.slot k hpos).dev, (h.slot k hpos).inum, (h.slot k hpos).copy⟩
  · have := h.refs k
    rw [held_cons_self] at this
    push_cast at this
    simp only
    omega
  · exact h.known _ (mem_cons_of_mem hx) i ty rfl

/-- What is known of a pointer, changed. -/
theorem Ok.know (h : Ok sb c ((k, q) ::ₘ H) N s) {q' : Option (ℕ × Int16)} (hq : Handle.Holds s (k, q')) :
    Ok sb c ((k, q') ::ₘ H) N s where
  disk := h.disk
  slot := h.slot
  uniq := h.uniq
  refs := fun j => by
    have := h.refs j
    by_cases hj : j = k
    · subst hj
      rwa [held_cons_self] at this ⊢
    · rwa [held_cons_ne hj] at this ⊢
  locks := h.locks
  known := fun x hx => by
    rcases Multiset.mem_cons.mp hx with rfl | hx
    · exact hq
    · exact h.known x (mem_cons_of_mem hx)
  frees := h.frees
  since := h.since
  facts := h.facts

theorem Ok.forget (h : Ok sb c ((k, q) ::ₘ H) N s) : Ok sb c ((k, none) ::ₘ H) N s :=
  h.know fun _ _ he => by cases he

/-- An entry that is in use and valid counts as held and known: what is sound then is sound. -/
theorem Ok.pin (h : Ok sb c H N s) (hk : 0 < (s.icache k).ref) (hv : (s.icache k).valid = true) :
    ∃ H', Ok sb c H' N s ∧ (k, some ((s.icache k).inum, (s.icache k).d.type)) ∈ H' ∧
      (∀ j i ty, (j, some (i, ty)) ∈ H → (j, some (i, ty)) ∈ H') ∧
      ∀ N' s', Ok sb c H' N' s' → Ok sb c H N' s' := by
  have hq : Handle.Holds s (k, some ((s.icache k).inum, (s.icache k).d.type)) := fun _ _ he => by
    cases he
    exact ⟨rfl, hv, rfl⟩
  by_cases hmem : ∃ q, (k, q) ∈ H
  · obtain ⟨q, hmem⟩ := hmem
    obtain ⟨H', rfl⟩ := Multiset.exists_cons_of_mem hmem
    -- what was known of the pointer is what is known now
    have hsame : ∀ i ty, q = some (i, ty) → i = (s.icache k).inum ∧ ty = (s.icache k).d.type :=
      fun i ty he => by
      obtain ⟨h1, -, h3⟩ := h.known _ hmem i ty he
      exact ⟨h1.symm, h3.symm⟩
    refine ⟨_, h.know hq, mem_cons_self _ _, fun j i ty hx => ?_, fun N' s' h' =>
      h'.know fun i ty he => ?_⟩
    · rcases Multiset.mem_cons.mp hx with heq | hx
      · obtain ⟨rfl, rfl⟩ := Prod.mk.inj heq
        obtain ⟨rfl, rfl⟩ := hsame i ty rfl
        exact mem_cons_self _ _
      · exact mem_cons_of_mem hx
    · obtain ⟨rfl, rfl⟩ := hsame i ty he
      exact h'.known _ (mem_cons_self _ _) _ _ rfl
  · have h0 : held H k = 0 := by
      rw [held, Multiset.count_eq_zero, mem_map]
      rintro ⟨⟨j, q⟩, hx, rfl⟩
      exact hmem ⟨q, hx⟩
    refine ⟨(k, some ((s.icache k).inum, (s.icache k).d.type)) ::ₘ H,
      ⟨h.disk, h.slot, h.uniq, fun j => ?_, h.locks,
      fun x hx => ?_, h.frees, h.since, h.facts⟩, mem_cons_self _ _, fun _ _ _ hx =>
      mem_cons_of_mem hx, fun _ _ h' => h'.tail⟩
    · by_cases hj : j = k
      · subst hj
        rw [held_cons_self, h0]
        exact_mod_cast hk
      · rw [held_cons_ne hj]
        exact h.refs j
    · rcases Multiset.mem_cons.mp hx with rfl | hx
      · exact hq
      · exact h.known x hx

/-- What `ilock` leaves: the disk and the pointers as they were, and the entry in use and
valid. -/
theorem ok_ilock_valid (h : Ok sb c H N s) :
    Sat (ilock sb k) s (fun _ s' => Ok sb c H N s' ∧ 0 < (s'.icache k).ref ∧ (s'.icache k).valid = true ∧
      (∀ j, (s'.icache j).inum = (s.icache j).inum) ∧ s'.disk = s.disk) Fine := by
  refine .get_bind (.ite (fun _ => .stop (by simp [Fine])) fun href => ?_)
  have hpos : 0 < (s.icache k).ref := by omega
  have hslot := h.slot k hpos
  have hnum : ∀ {ip : Inode}, ip.inum = (s.icache k).inum → ∀ j, ((s.setInode k ip).icache j).inum =
    (s.icache j).inum :=
    fun hip => Fs.forall_setInode (P := fun j ip => ip.inum = (s.icache j).inum) hip fun _ _ => rfl
  refine run_acquiresleep.bind fun _ s1 h1 => ?_
  obtain ⟨-, rfl⟩ := h1
  refine .ite
    (fun hv => .pure ⟨ok_setLock h true fun _ => ⟨hpos, hv⟩, by simpa using hpos, by simpa using hv,
    hnum rfl, rfl⟩) fun hv => ?_
  refine .get_bind (.modify_bind (.ite (fun _ => .stop (by simp [Fine])) fun ht => .pure ?_))
  rw [Fs.setInode_self, Fs.setInode_setInode]
  refine ⟨h.setSlot (fun _ => ⟨hslot.dev, hslot.inum, fun _ => ⟨rfl, ht⟩⟩)
    (fun _ j hj hjr heq => hj (h.uniq j k hjr hpos heq)) (fun _ => ⟨hpos, rfl⟩) (h.refs k)
      (fun _ _ => le_rfl)
    (fun _ hx _ => hx) fun i ty hx => ?_, by simpa using hpos, by simp, hnum rfl, rfl⟩
  obtain ⟨-, hv', -⟩ := h.known _ hx i ty rfl
  exact absurd hv' hv

/-- `ilock` of a pointer that is held: its number and type are known then. -/
theorem ok_ilock (h : Ok sb c ((k, q) ::ₘ H) N s) :
    Sat (ilock sb k) s (fun _ s' => ∃ i ty, Ok sb c ((k, some (i, ty)) ::ₘ H) N s' ∧
      i = (s.icache k).inum ∧ s'.disk = s.disk) Fine :=
  (ok_ilock_valid h).post fun _ s' ⟨h1, _, hv, hi, hd⟩ =>
    have hq : Handle.Holds s' (k, some ((s.icache k).inum, (s'.icache k).d.type)) := fun _ _ he => by
      cases he
      exact ⟨hi k, hv, rfl⟩
    ⟨_, _, h1.know hq, rfl, hd⟩

/-! ### Changing one inode -/

/-- From `D` to `D'` only inode `i` has changed, with the blocks it points at. -/
structure Frame (sb : Superblock) (i : ℕ) (D D' : Disk) : Prop where
  ino : ∀ j, j < sb.ninodes → j ≠ i → inoOf sb D' j = inoOf sb D j
  untouched : ∀ j, j < sb.ninodes → j ≠ i → (inoOf sb D j).type ≠ 0 → Untouched D D' (inoOf sb D j)

variable {D D' : Disk} {l : ℕ}

theorem DiskOk.step (h : DiskOk sb D) (hf : Frame sb i D D')
    (hown : Owned sb.nmeta sb.size (sites sb D' (inoOf sb D')) (usedAt sb D') ∅)
    (hshape : (inoOf sb D' i).type ≠ 0 → (inoOf sb D' i).type ≠ T_DEV →
      Shaped D' (inoOf sb D' i) (inoOf sb D' i).size.toNat)
    (hdir : (inoOf sb D' i).type = T_DIR → DirOk sb D' (inoOf sb D' i)) : DiskOk sb D' := by
  refine ⟨hown, fun j hj ht hdev => ?_, fun j hj ht => ?_⟩
  · by_cases hji : j = i
    · subst hji
      exact hshape ht hdev
    · rw [hf.ino j hj hji] at ht hdev ⊢
      exact (hf.untouched j hj hji ht).shaped (h.shape j hj ht hdev)
  · by_cases hji : j = i
    · subst hji
      exact hdir ht
    · rw [hf.ino j hj hji] at ht ⊢
      exact (hf.untouched j hj hji (by rw [ht]; decide)).dirOk (h.dirs j hj ht)

theorem Since.frame (h : Since sb c D l) (hf : Frame sb i D D') (hj : l < sb.ninodes) (hji : l ≠ i)
    (ht : (inoOf sb c.disk l).type ≠ 0) : Since sb c D' l := by
  have hu := hf.untouched l hj hji (h.type ▸ ht)
  have hino := hf.ino l hj hji
  refine ⟨hino ▸ h.type, hino ▸ h.owner, hino ▸ h.mode, fun hdir => ?_⟩
  refine (h.content hdir).imp id fun hc => ⟨hino ▸ hc.1, fun x hx => ?_⟩
  rw [hino, hu.byteOf]
  exact hc.2 x hx

/-- **One inode changes.** Of the cache only entries for it do. -/
theorem Ok.step (h : Ok sb c H N s) (hf : Frame sb i s.disk s'.disk) (hdisk : DiskOk sb s'.disk)
    (hfrees : ∀ j, s.frees j ≤ s'.frees j)
    (hcache : ∀ k, (s.icache k).inum ≠ i → s'.icache k = s.icache k)
    (hsame : ∀ k, (s'.icache k).dev = (s.icache k).dev ∧ (s'.icache k).inum = (s.icache k).inum ∧
      (s'.icache k).ref = (s.icache k).ref)
    (hslot : ∀ k, 0 < (s.icache k).ref → (s.icache k).inum = i → (s'.icache k).valid →
      (s'.icache k).d = inoOf sb s'.disk i ∧ (s'.icache k).d.type ≠ 0)
    (hlock : ∀ k, (s.icache k).inum = i → (s'.icache k).lock = true →
      0 < (s.icache k).ref ∧ (s'.icache k).valid = true)
    (hknown : ∀ k ty, (k, some (i, ty)) ∈ H →
      (s'.icache k).valid = true ∧ (s'.icache k).d.type = ty)
    (hsince : i < sb.ninodes → Live sb c s' i → Since sb c s'.disk i) : Ok sb c H N s' := by
  have hlive : ∀ j, Live sb c s' j → Live sb c s j := fun j hl => ⟨hl.1, (hfrees j).trans hl.2⟩
  refine ⟨hdisk, fun k hk => ?_, fun j k hj hk heq => ?_, fun k => ?_, fun k hk => ?_,
    fun x hx j ty he => ?_,
    fun j => (h.frees j).trans (hfrees j), fun j hj hl => ?_, fun f hf' => (h.facts f hf').mono hfrees⟩
  · obtain ⟨h1, h2, h3⟩ := hsame k
    rw [h3] at hk
    obtain ⟨hdev, hlt, hcopy⟩ := h.slot k hk
    by_cases hki : (s.icache k).inum = i
    · exact ⟨h1.trans hdev, h2 ▸ hlt, fun hv => by rw [h2, hki]; exact hslot k hk hki hv⟩
    · rw [hcache k hki]
      exact ⟨hdev, hlt, fun hv => by rw [hf.ino _ hlt hki]; exact hcopy hv⟩
  · rw [(hsame j).2.1, (hsame k).2.1] at heq
    exact h.uniq j k ((hsame j).2.2 ▸ hj) ((hsame k).2.2 ▸ hk) heq
  · rw [(hsame k).2.2]
    exact h.refs k
  · rw [(hsame k).2.2]
    by_cases hki : (s.icache k).inum = i
    · exact hlock k hki hk
    · rw [hcache k hki] at hk ⊢
      exact h.locks k hk
  · obtain ⟨k, q⟩ := x
    simp only at he
    subst he
    obtain ⟨h1, h2, h3⟩ := h.known _ hx j ty rfl
    simp only at h1 h2 h3 ⊢
    refine ⟨(hsame k).2.1.trans h1, ?_⟩
    by_cases hji : j = i
    · subst hji
      exact hknown k ty hx
    · rw [hcache k (h1 ▸ hji)]
      exact ⟨h2, h3⟩
  · by_cases hji : j = i
    · subst hji
      exact hsince hj hl
    · exact (h.since j hj (hlive j hl)).frame hf hj hji hl.1

/-- The state after inode `i`, which is in entry `k`, has become `d`. -/
structure Stored (sb : Superblock) (s s' : Fs) (k : Slot) (i : ℕ) (d : Dinode) : Prop where
  cache : s'.icache = Function.update s.icache k { s.icache k with d := d }
  self : inoOf sb s'.disk i = d
  frees : ∀ j, s'.frees j = s.frees j
  frame : Frame sb i s.disk s'.disk
  own : Owned sb.nmeta sb.size (sites sb s'.disk (inoOf sb s'.disk)) (usedAt sb s'.disk) ∅

theorem Ok.store (h : Ok sb c H N s) (hk : (k, some (i, ty)) ∈ H)
    (hs : Stored sb s s' k i d) (ht : d.type = ty)
    (hshape : ty ≠ T_DEV → Shaped s'.disk d d.size.toNat) (hdir : ty = T_DIR → DirOk sb s'.disk d)
    (hsince : Live sb c s i → Since sb c s.disk i → Since sb c s'.disk i) : Ok sb c H N s' := by
  obtain ⟨hinum, hv, hi, -, -, hty⟩ := h.at_known hk
  have huniq : ∀ j, 0 < (s.icache j).ref → (s.icache j).inum = i → j = k := fun j hj hji =>
    h.uniq j k hj (h.ref_pos hk) (hji.trans hinum.symm)
  have hself : s'.icache k = { s.icache k with d := d } := by rw [hs.cache, Function.update_self]
  have hother : ∀ j, j ≠ k → s'.icache j = s.icache j := fun j hj => by
    rw [hs.cache, Function.update_of_ne hj]
  refine h.step hs.frame (h.disk.step hs.frame hs.own ?_ ?_) (fun j => (hs.frees j).ge)
    (fun j hj => hother j fun hjk => hj (hjk ▸ hinum)) (fun j => ?_) (fun j hj hji _ => ?_)
    (fun j hji hl => ?_) (fun j ty' hj => ?_) fun hi hl => ?_
  · rw [hs.self, ht]
    exact fun _ => hshape
  · rw [hs.self, ht]
    exact hdir
  · by_cases hjk : j = k
    · rw [hjk, hself]
      exact ⟨rfl, rfl, rfl⟩
    · rw [hother j hjk]
      exact ⟨rfl, rfl, rfl⟩
  · rw [huniq j hj hji, hself, hs.self]
    exact ⟨rfl, ht ▸ hty⟩
  · by_cases hjk : j = k
    · rw [hjk, hself] at hl ⊢
      exact h.locks k hl
    · rw [hother j hjk] at hl ⊢
      exact h.locks j hl
  · obtain ⟨h1, h2, h3⟩ := h.known _ hj i ty' rfl
    obtain rfl := huniq j (h.ref_pos hj) h1
    rw [hself]
    exact ⟨h2, ht.trans ((h.known _ hk i ty rfl).2.2.symm.trans h3)⟩
  · have hl' : Live sb c s i := ⟨hl.1, hs.frees i ▸ hl.2⟩
    exact hsince hl' (h.since i hi hl')

/-! ### Writing inodes to disk -/

/-- What a write of a block does. -/
structure Wrote (s s' : Fs) (D : Disk) : Prop where
  disk : s'.disk = D
  icache : s'.icache = s.icache
  frees : ∀ i, s'.frees i = s.frees i

theorem wrote_logWrite (b : ℕ) (data : Block) :
    Sat (logWrite sb b data) s (fun _ s' => Wrote s s' (Function.update s.disk b data)) Fine :=
  .get_bind (.ite (fun _ => .stop (by simp [Fine])) fun _ =>
    .ite (fun _ => .stop (by simp [Fine])) fun _ =>
      .modify ⟨rfl, rfl, fun i => by simp [Fs.frees]⟩)

theorem wrote_iupdate : Sat (iupdate sb k) s
    (fun _ s' => Wrote s s' (setDinode sb s.disk (s.icache k).inum (s.icache k).d.copyId)) Fine :=
  .get_bind (.get_bind (wrote_logWrite _ _))

theorem inoOf_setDinode (d : Dinode) (j : ℕ) :
    inoOf sb (setDinode sb D i d) j = if j = i then d.copyId else inoOf sb D j := by
  rw [inoOf]
  by_cases hj : j = i
  · rw [if_pos hj, hj, dinodeAt_setDinode_self]
  · rw [if_neg hj, dinodeAt_setDinode_ne d hj, inoOf]

/-- A write below the data blocks changes what no inode points at. -/
theorem untouched_meta {mark : ℕ → Bool} {F : Set ℕ} {j : ℕ}
    (h : Owned sb.nmeta sb.size (sites sb D T) mark F) (hj : j < sb.ninodes) (ht : (T j).type ≠ 0)
    (hD : ∀ b, sb.nmeta ≤ b → D' b = D b) : Untouched D D' (T j) :=
  untouched (b := 0) h hj ht (fun b hb _ => hD b hb) fun _ hn => hn

theorem frame_setDinode (h : DiskOk sb D) (hi : i < sb.ninodes) (d : Dinode) :
    Frame sb i D (setDinode sb D i d) :=
  ⟨fun j _ hji => by rw [inoOf_setDinode, if_neg hji], fun j hj hji ht =>
    untouched_meta h.own hj ht fun b hb => setDinode_data hi hb d⟩

/-- Sites are the same if every inode in use points at the same blocks. -/
theorem sites_congr {T' : ℕ → Dinode} (h0 : ∀ j, j < sb.ninodes → ((T' j).type = 0 ↔ (T j).type = 0))
    (hp : ∀ j, j < sb.ninodes → (T j).type ≠ 0 → ∀ n, ptr D' (T' j) n = ptr D (T j) n) (x : ℕ × ℕ) :
    sites sb D' T' x = sites sb D T x := by
  rw [sites, sites]
  by_cases hx : x.1 < sb.ninodes ∧ (T x.1).type ≠ 0
  · rw [if_pos hx, if_pos ⟨hx.1, mt (h0 _ hx.1).mp hx.2⟩, hp _ hx.1 hx.2]
  · rw [if_neg hx, if_neg fun h => hx ⟨h.1, mt (h0 _ h.1).mpr h.2⟩]

/-- `d` has been stored as inode `i`, which points at what it did. -/
theorem stored_setDinode (h : Ok sb c H N s) (hk : (k, some (i, ty)) ∈ H)
    (ht : d.type = ty) (ha : d.addrs = (inoOf sb s.disk i).addrs) (hid : d.copyId = d)
    (hcache : s'.icache = Function.update s.icache k { s.icache k with d := d })
    (hdisk : s'.disk = setDinode sb s.disk i d) (hfrees : ∀ j, s'.frees j = s.frees j) :
    Stored sb s s' k i d := by
  obtain ⟨-, -, hi, -, hty, hty0⟩ := h.at_known hk
  have hframe := frame_setDinode h.disk hi d
  have hino : ∀ j, inoOf sb (setDinode sb s.disk i d) j = if j = i then d else inoOf sb s.disk j :=
    fun j => by rw [inoOf_setDinode, hid]
  have hdata : ∀ b, sb.nmeta ≤ b → setDinode sb s.disk i d b = s.disk b := fun b hb =>
    setDinode_data hi hb d
  refine ⟨hcache, by rw [hdisk, hino, if_pos rfl], hfrees, hdisk ▸ hframe, ?_⟩
  rw [hdisk]
  refine h.disk.own.congr (fun x => sites_congr (fun j _ => ?_) (fun j hj htj n => ?_) x)
    fun b hb => usedAt_setDinode hi hb d
  · rw [hino]
    by_cases hji : j = i
    · rw [if_pos hji, hji, ht, hty]
    · rw [if_neg hji]
  · have hsame := (untouched_meta h.disk.own hj htj hdata).ptr n
    rw [hino]
    by_cases hji : j = i
    · subst hji
      rw [if_pos rfl, ← hsame]
      exact ptr_congr ha (fun _ => rfl) n
    · rw [if_neg hji, hsame]

/-- An inode with the same contents, but other fields. -/
theorem Ok.restore (h : Ok sb c H N s) (hk : (k, some (i, ty)) ∈ H)
    (hs : Stored sb s s' k i d) (ht : d.type = ty) (ha : d.addrs = (inoOf sb s.disk i).addrs)
    (hsize : d.size = (inoOf sb s.disk i).size)
    (hmay : Live sb c s i → d.id = (inoOf sb s.disk i).id ∧
      (d.mode = (inoOf sb s.disk i).mode ∨ i ∈ c.mode))
    (hdata : ∀ b, sb.nmeta ≤ b → s'.disk b = s.disk b) : Ok sb c H N s' := by
  obtain ⟨-, -, hi, -, hty, hty0⟩ := h.at_known hk
  have hu : Untouched s.disk s'.disk (inoOf sb s.disk i) :=
    untouched_meta h.disk.own hi (hty ▸ hty0) hdata
  have hptr : ∀ n, ptr s'.disk d n = ptr s'.disk (inoOf sb s.disk i) n :=
    ptr_congr ha fun _ => rfl
  have hbyte : ∀ x, byteOf s'.disk d x = byteOf s.disk (inoOf sb s.disk i) x := fun x => by
    rw [← hu.byteOf, byteOf, byteOf, hptr]
  refine h.store hk hs ht (fun hdev => ?_) (fun hdir => ?_) fun hl hsince => ?_
  · have := hu.shaped (h.disk.shape i hi (hty ▸ hty0) (hty ▸ hdev))
    rw [hsize]
    exact ⟨fun n hn => by rw [hptr]; exact this.block n hn, by rw [hptr]; exact this.indirect⟩
  · intro off h1 h2
    rw [entryAt, hbyte, hbyte]
    exact h.disk.dirs i hi (hty.trans hdir) off h1 (hsize ▸ h2)
  · obtain ⟨hid, hmode⟩ := hmay hl
    refine ⟨?_, ?_, ?_, fun hdir => ?_⟩
    · rw [hs.self, ht, ← hty, hsince.type]
    · rw [hs.self, hid, hsince.owner]
    · rw [hs.self]
      exact hmode.elim (fun hm => hm ▸ hsince.mode) .inr
    · refine (hsince.content hdir).imp id fun hc => ⟨?_, fun x hx => ?_⟩
      · rw [hs.self, hsize, hc.1]
      · rw [hs.self, hbyte, hc.2 x hx]

theorem copyId_inoOf (D : Disk) (i : ℕ) : (inoOf sb D i).copyId = inoOf sb D i := Dinode.copyId_copyId _

theorem copyId_eq_iff : d.copyId = d ↔ Ident.ofStr d.id.toList = d.id := by
  cases d
  simp [Dinode.copyId]

section

variable (h : Ok sb c H N s) (hk : (k, some (i, ty)) ∈ H)
include h hk

/-- `iupdate` of an inode that has not been changed. -/
theorem ok_iupdate : Sat (iupdate sb k) s (fun _ => Ok sb c H N) Fine := by
  obtain ⟨hinum, -, hi, hd, hty, -⟩ := h.at_known hk
  refine wrote_iupdate.post fun _ s' hw => ?_
  have hdisk := hw.disk
  rw [hinum, hd, copyId_inoOf] at hdisk
  refine h.restore hk (stored_setDinode h hk hty rfl (copyId_inoOf _ _) ?_ hdisk hw.frees) hty rfl rfl
    (fun _ => ⟨rfl, .inl rfl⟩) fun b hb => by rw [hdisk, setDinode_data hi hb]
  rw [hw.icache, ← hd, Function.update_eq_self]

/-- A field is set, and the inode written to disk. -/
theorem ok_update {f : Dinode → Dinode}
    (hf : ∀ d, (f d).type = d.type ∧ (f d).size = d.size ∧ (f d).addrs = d.addrs)
    (hid : ∀ d, d.copyId = d → (f d).copyId = f d)
    (hmay : Live sb c s i → (∀ d, (f d).id = d.id) ∧ ((∀ d, (f d).mode = d.mode) ∨ i ∈ c.mode)) :
    Sat (do modD k f; iupdate sb k) s (fun _ => Ok sb c H N) Fine := by
  obtain ⟨hinum, -, hi, hd, hty, -⟩ := h.at_known hk
  obtain ⟨ht, hsz, ha⟩ := hf (inoOf sb s.disk i)
  have hcopy : (f (inoOf sb s.disk i)).copyId = f (inoOf sb s.disk i) := hid _ (copyId_inoOf s.disk i)
  refine .modify_bind (wrote_iupdate.post fun _ s' hw => ?_)
  have hdisk := hw.disk
  simp only [Fs.setInode_self, Fs.setInode_disk, hinum, hd, hcopy] at hdisk
  refine h.restore hk (stored_setDinode h hk (ht.trans hty) ha hcopy ?_ hdisk hw.frees)
    (ht.trans hty) ha hsz (fun hl => ?_) fun b hb => by rw [hdisk, setDinode_data hi hb]
  · rw [hw.icache, ← hd]
    rfl
  · obtain ⟨h1, h2⟩ := hmay hl
    exact ⟨h1 _, h2.imp (fun h2 => h2 _) fun h2 => h2⟩

theorem ok_addNlink (n : Int16) : Sat (addNlink sb k n) s (fun _ => Ok sb c H N) Fine :=
  ok_update h hk (fun _ => ⟨rfl, rfl, rfl⟩) (fun d hd => by rw [copyId_eq_iff] at hd ⊢; exact hd)
    fun _ => ⟨fun _ => rfl, .inl fun _ => rfl⟩

end

theorem copyId_of_id {user : Str} (h : d.id = Ident.ofStr user) : d.copyId = d := by
  rw [copyId_eq_iff, h]
  apply Ident.ofStr_congr
  rw [Ident.toList_ofStr, cname_strncpy]

theorem ok_initInode (h : Ok sb c H N s) (hk : (k, some (i, ty)) ∈ H) (hdead : Fact.dead i ∈ N)
    (major minor : Int16) (user : Str) :
    Sat (do modD k (initInode major minor user); iupdate sb k) s (fun _ => Ok sb c H N) Fine :=
  ok_update h hk (fun _ => ⟨rfl, rfl, rfl⟩) (fun _ _ => copyId_of_id rfl)
    fun hl => absurd hl (h.facts _ hdead)

/-! ### Allocating inodes -/

theorem ptr_of_addrs_zero (ha : ∀ n, d.addrs n = 0) (n : ℕ) : ptr D d n = 0 := by
  unfold ptr
  simp only [ha]
  split <;> simp

theorem diskOk_newDinode (h : DiskOk sb D) (hi : i < sb.ninodes) (h0 : (inoOf sb D i).type = 0) :
    DiskOk sb (setDinode sb D i (newDinode ty)) := by
  have hino : ∀ j, inoOf sb (setDinode sb D i (newDinode ty)) j =
      if j = i then newDinode ty else inoOf sb D j := fun j => by
    rw [inoOf_setDinode, copyId_of_id (d := newDinode ty) rfl]
  have hptr : ∀ (D' : Disk) n, ptr D' (newDinode ty) n = 0 := fun D' => ptr_of_addrs_zero fun _ => rfl
  have hframe := frame_setDinode h hi (newDinode ty)
  refine h.step hframe (h.own.congr (fun x => ?_) fun b hb => usedAt_setDinode hi hb _) ?_ ?_
  · rw [sites, sites, hino]
    by_cases hx : x.1 = i
    · rw [if_pos hx, hptr, ite_self, hx, if_neg fun h => h.2 h0]
    · rw [if_neg hx]
      by_cases hc : x.1 < sb.ninodes ∧ (inoOf sb D x.1).type ≠ 0
      · rw [if_pos hc, if_pos hc, (hframe.untouched _ hc.1 hx hc.2).ptr]
      · rw [if_neg hc, if_neg hc]
  · rw [hino, if_pos rfl]
    have hsize : (newDinode ty).size.toNat = 0 := rfl
    exact fun _ _ => ⟨fun n _ => by simp [hptr, hsize], by simp [hptr, hsize]⟩
  · rw [hino, if_pos rfl]
    intro _ off _ h2
    simp [newDinode, Dinode.zero] at h2

/-- A new inode on disk: no entry of the cache is a copy of what was there. -/
theorem Ok.newDinode (h : Ok sb c H N s) (hi : i < sb.ninodes) (h0 : (inoOf sb s.disk i).type = 0)
    (hw : Wrote s s' (setDinode sb s.disk i (newDinode ty))) : Ok sb c H (.dead i :: N) s' := by
  have hdead : ¬Live sb c s i := fun hl => hl.1 ((h.since i hi hl).type.symm.trans h0)
  have hdead' : ¬Live sb c s' i := fun hl => hdead ⟨hl.1, hw.frees i ▸ hl.2⟩
  have hnone : ∀ k, 0 < (s.icache k).ref → (s.icache k).inum = i → (s.icache k).valid = false := by
    intro k hk hki
    by_contra hv
    obtain ⟨hd, ht⟩ := (h.slot k hk).copy (by simpa using hv)
    rw [hd, hki] at ht
    exact ht h0
  have hstep : Ok sb c H N s' := by
    refine h.step (hw.disk ▸ frame_setDinode h.disk hi _) (hw.disk ▸ diskOk_newDinode h.disk hi h0)
      (fun j => (hw.frees j).ge) (fun k _ => by rw [hw.icache]) (fun k =>
        by rw [hw.icache]; exact ⟨rfl, rfl, rfl⟩)
      (fun k hk hki hv => ?_)
        (fun k _ hl => by rw [hw.icache] at hl ⊢; exact h.locks k hl) (fun k ty hk => ?_)
      fun _ hl => absurd hl hdead'
    · rw [hw.icache, hnone k hk hki] at hv
      cases hv
    · obtain ⟨h1, h2, -⟩ := h.known _ hk i ty rfl
      rw [hnone k (h.ref_pos hk) h1] at h2
      cases h2
  exact { hstep with
    facts := fun f hf => by
      rcases List.mem_cons.mp hf with rfl | hf
      · exact hdead'
      · exact hstep.facts f hf }

end

end Xv6
