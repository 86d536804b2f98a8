/-
# The inode cache is write-through

Between two calls an inode in the cache is the inode on disk, in every field: each place that
changes a field calls `iupdate` before it gives up the lock. What `iupdate` writes is what `ilock`
reads, if the entry is evicted in between. Both are about the inode as `strncpy` copies its owner.

Calls that write the account file into a directory are the exception (`cache_stale`): the
directory's entries can then lead to blocks that are no file's.
-/
import Xv6.Permissions

namespace Xv6

open Prog

section

variable (sb : Superblock)

/-- The inodes in use that nobody has locked are as they are on disk. -/
def WrittenThrough (s : Fs) : Prop :=
  ∀ k, 0 < (s.icache k).ref → (s.icache k).valid = true → (s.icache k).lock = false →
    (s.icache k).d = (dinodeAt sb s.disk (s.icache k).inum).copyId

/-- The disk is the same, the inode is not in the cache, and there is room for it. -/
structure Evicted (s s' : Fs) (dev inum : ℕ) : Prop where
  disk : s'.disk = s.disk
  gone : ∀ j, 0 < (s'.icache j).ref → ¬((s'.icache j).dev = dev ∧ (s'.icache j).inum = inum)
  room : ∃ j, (s'.icache j).ref = 0
  unlocked : ∀ j, (s'.icache j).ref = 0 → (s'.icache j).lock = false

/-- `ip = iget(dev, inum); ilock(ip);` -/
def igetLock (dev inum : ℕ) : FsM Slot := do
  let k ← iget dev inum
  ilock sb k
  pure k

end

section

variable {sb : Superblock} {s s₁ s₂ : Fs} {k : Slot} {dev inum : ℕ} {E : Stop → Prop}

theorem dinodeAt_iupdate (h : iupdate sb k s = .ok ((), s₁)) :
    dinodeAt sb s₁.disk (s.icache k).inum = (s.icache k).d.copyId := by
  have hsat : Sat (iupdate sb k) s
      (fun _ s' => s'.disk = setDinode sb s.disk (s.icache k).inum (s.icache k).d.copyId) fun _ =>
        True := by
    refine .get_bind (.get_bind (.get_bind ?_))
    exact .ite (fun _ => .stop trivial) fun _ => .ite (fun _ => .stop trivial) fun _ => .modify rfl
  rw [hsat.of_ok h, dinodeAt_setDinode_self]

/-- An inode that is not in the cache gets an entry that was not in use. -/
theorem sat_iget_evicted (h : Evicted s₁ s₂ dev inum) : Sat (iget dev inum) s₂
    (fun j s' => s'.disk = s₁.disk ∧ (s'.icache j).inum = inum ∧ (s'.icache j).ref = 1 ∧
      (s'.icache j).valid = false ∧ (s'.icache j).lock = false) E := by
  refine (sat_iget (fun hfull => ?_) fun j hmax hdev hinum => ?_).post fun j s' hgot => ?_
  · obtain ⟨j, hj⟩ := h.room
    exact absurd hj (hfull j)
  · exact absurd ⟨hdev, hinum⟩ (h.gone j (hmax ▸ by decide))
  · obtain ⟨hpos, hdev, hinum, -⟩ | ⟨h0, -, rfl⟩ := hgot
    · exact absurd ⟨hdev, hinum⟩ (h.gone j hpos)
    · simp [h.disk, h.unlocked j h0]

/-- **What `iupdate` writes is what `ilock` reads.** -/
theorem igetLock_of_iupdate (hu : iupdate sb k s = .ok ((), s₁))
    (he : Evicted s₁ s₂ dev (s.icache k).inum) (ht : (s.icache k).d.type ≠ 0) :
    Sat (igetLock sb dev (s.icache k).inum) s₂ (fun j s3 => (s3.icache j).d = (s.icache k).d.copyId)
    E := by
  refine (sat_iget_evicted he).bind fun j s' hj => ?_
  obtain ⟨hdisk, hinum, href, hv, hl⟩ := hj
  have hd : inoOf sb s'.disk (s'.icache j).inum = (s.icache k).d.copyId := by
    rw [hdisk, hinum, inoOf, dinodeAt_iupdate hu, Dinode.copyId_copyId]
  refine (sat_ilock (by omega) hl (fun h => by simp [hv] at h) fun _ => by rw [hd]; exact ht).bind ?_
  rintro _ _ rfl
  refine .pure ?_
  rw [Fs.setInode_self, hd]

/-! ### Runs -/

variable {K : Kernel} {disk : Disk} {tty : List (Option Str)} {log : List Turn}

theorem Intact.writtenThrough (h : Intact sb K) : WrittenThrough sb K.fs := fun _ href hv _ =>
  h.copies (.inr ⟨_, href, hv, rfl, rfl⟩)

/-- **The inode cache is write-through.** -/
theorem writtenThrough_of_reach (hi : Image sb disk) (hr : Reach sb (boot disk tty) log K)
    (hs : ∀ t ∈ log, Sane sb t.move.p t.before t.move.call) :
    WrittenThrough sb K.fs ∧
      ∀ s s₁ s₂ k dev, iupdate sb k s = .ok ((), s₁) → Evicted s₁ s₂ dev (s.icache k).inum →
        (s.icache k).d.type ≠ 0 → (s.icache k).d.copyId = (s.icache k).d →
          ∃ j s₃, igetLock sb dev (s.icache k).inum s₂ = .ok (j, s₃) ∧ (s₃.icache j).d =
          (s.icache k).d := by
  refine ⟨(intact_reach (intact_boot hi.diskOk tty) hr hs).1.writtenThrough,
    fun s s₁ s₂ k dev hu he ht hc => ?_⟩
  have hsat := igetLock_of_iupdate (E := fun _ => False) hu he ht
  rw [hc] at hsat
  cases hrun : igetLock sb dev (s.icache k).inum s₂ with
  | ok r => exact ⟨r.1, r.2, rfl, hsat.of_ok hrun⟩
  | error e => exact (hsat.of_stop hrun).elim

end

theorem writtenThrough_mkdir : ∃ log K, Reach smallSb (boot (bareDisk 61) []) log K ∧
    log.map Turn.move = [⟨0, .mkdir (some [100])⟩] ∧ WrittenThrough smallSb K.fs := by
  obtain ⟨log, K, hr, hms, hmove⟩ := reach_mkdir
  refine ⟨log, K, hr, hms, (writtenThrough_of_reach fsck_bareDisk.image hr fun t ht => ?_).1⟩
  rw [hmove t ht]
  trivial

/-- The root directory's entry keeps what the disk has no longer. -/
theorem cache_stale : Image wideSb forgedDisk ∧
    ∃ log K, Reach wideSb (boot forgedDisk []) log K ∧ ¬WrittenThrough wideSb K.fs := by
  obtain ⟨log, K, hr, -, t, ht, hbad⟩ := run_forgedCalls
  obtain ⟨log', hr'⟩ := hr.after ht
  refine ⟨fsck_forgedDisk.image, log', _, hr', fun h => hbad.mode ?_⟩
  rw [h 0 hbad.ref hbad.valid hbad.lock, hbad.inum, inoOf]

end Xv6
