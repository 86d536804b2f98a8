/-
# Writing the account table to its file

`addUser` and `deleteUser` change the table under `utable.lock`, release the
lock, and then copy the whole table to the file under the inode's lock, with
`utable.lock` free. So a table can change while it is copied, and two calls can
reach the file in the other order than they changed the table. The file still
ends right (`persistent`): a call that changes the table copies all of it
afterwards, so a byte of the file that is not the table's is one that some call
has still to copy.
-/
import Xv6.Account

namespace Xv6
namespace Persist

open Function (update update_idem update_self update_of_ne)

/-- The file `useraccount`: its size and its bytes. -/
structure AFile where
  size : ℕ
  data : ℕ → UInt8

def AFile.contents (f : AFile) : Str := (List.range f.size).map f.data

/-- Where a process is in `addUser` or `deleteUser`. -/
inductive Pc where
  /-- Not in a call. -/
  | idle
  /-- It changed the table; `ilock(utable.ip)` comes next. -/
  | changed
  /-- In `writei`, with the inode locked and `k` bytes copied. -/
  | copying (k : ℕ)
  /-- After `iunlock(utable.ip)`. -/
  | written
  deriving DecidableEq

/-- The table, its file and the calls in progress; `succeeded` is set once a
call has returned 0. -/
structure State (π : Type) where
  table : UTable
  file : AFile
  pc : π → Pc
  succeeded : Bool

section

variable {π : Type} [DecidableEq π]

/-- What a process does before it next yields the lock it runs under. A call
that leaves the table as it is returns -1 at once. -/
inductive Step (s : State π) : State π → Prop where
  | addUser (i : π) (username password : Str) (t : UTable) (hi : s.pc i = .idle)
      (ht : s.table.insert username password = some t) :
      Step s { s with table := t, pc := update s.pc i .changed }
  | deleteUser (i : π) (username : Str) (t : UTable) (hi : s.pc i = .idle)
      (ht : s.table.remove username = some t) :
      Step s { s with table := t, pc := update s.pc i .changed }
  | fail (i : π) (hi : s.pc i = .idle) : Step s s
  | ilock (i : π) (hi : s.pc i = .changed) (hfree : ∀ j k, s.pc j ≠ .copying k) :
      Step s { s with pc := update s.pc i (.copying 0) }
  | copy (i : π) (k : ℕ) (hi : s.pc i = .copying k) (hk : k < userBytes) :
      Step s { s with
        file := { s.file with data := update s.file.data k (s.table.byteAt k) }
        pc := update s.pc i (.copying (k + 1)) }
  | iunlock (i : π) (hi : s.pc i = .copying userBytes) :
      Step s { s with
        file := { s.file with size := max s.file.size userBytes }
        pc := update s.pc i .written }
  | ret (i : π) (hi : s.pc i = .written) :
      Step s { s with pc := update s.pc i .idle, succeeded := true }

inductive Run (s : State π) : State π → Prop where
  | refl : Run s s
  | step {a b : State π} (hr : Run s a) (hs : Step a b) : Run s b

/-- After `usysinit`, with no call in progress. -/
def start (t : UTable) (f : AFile) : State π := ⟨t, f, fun _ => .idle, false⟩

/-! ### What is still to be copied -/

/-- The call at this point will copy byte `j` of the table. -/
def Owes (j : ℕ) : Pc → Prop
  | .changed => True
  | .copying k => k ≤ j
  | _ => False

/-- The call at this point will set the size of the file. -/
def OwesSize : Pc → Prop
  | .changed | .copying _ => True
  | _ => False

/-- Each byte of the table is in the file or will be copied to it. -/
structure Synced (s : State π) : Prop where
  bytes : ∀ j < userBytes, s.file.data j = s.table.byteAt j ∨ ∃ i, Owes j (s.pc i)
  size : userBytes ≤ s.file.size ∨ ∃ i, OwesSize (s.pc i)

/-- Nothing has happened yet, or the file is in step with the table. -/
def Tracked (s : State π) : Prop :=
  ((∀ i, s.pc i = .idle) ∧ s.succeeded = false) ∨ Synced s

/-- A process moves on and none of the others does: a debt of another process
stands. -/
theorem exists_update {P : Pc → Prop} {pc : π → Pc} {i : π} {c : Pc} (h : ∃ j, P (pc j))
    (hi : P (pc i) → P c) : ∃ j, P (update pc i c j) := by
  obtain ⟨j, hj⟩ := h
  by_cases hji : j = i
  · subst hji
    exact ⟨j, by rw [update_self]; exact hi hj⟩
  · exact ⟨j, by rw [update_of_ne hji]; exact hj⟩

/-- Whoever changes the table owes the file everything. -/
theorem synced_changed (s : State π) (t : UTable) (i : π) :
    Synced { s with table := t, pc := update s.pc i .changed } :=
  ⟨fun _ _ => .inr ⟨i, by simp [Owes]⟩, .inr ⟨i, by simp [OwesSize]⟩⟩

theorem synced_step {a b : State π} (h : Tracked a) (hs : Step a b) : Tracked b := by
  -- Outside `addUser` and `deleteUser` a process that moves is in a call, so
  -- the file is already tracked.
  have hsync : ∀ {i : π}, a.pc i ≠ .idle → Synced a := fun {i} hi =>
    h.resolve_left fun hidle => hi (hidle.1 i)
  cases hs with
  | addUser i u p t hi ht => exact .inr (synced_changed a t i)
  | deleteUser i u t hi ht => exact .inr (synced_changed a t i)
  | fail i hi => exact h
  | ilock i hi hfree =>
    have hsy := hsync (i := i) (by rw [hi]; simp)
    refine .inr ⟨fun j hj => (hsy.bytes j hj).imp_right fun ho => ?_, hsy.size.imp_right fun ho => ?_⟩
    · exact exists_update ho fun _ => Nat.zero_le j
    · exact exists_update ho fun _ => trivial
  | copy i k hi hk =>
    have hsy := hsync (i := i) (by rw [hi]; simp)
    refine .inr ⟨fun j hj => ?_, hsy.size.imp_right fun ho => ?_⟩
    · -- Byte `k` is right now; a debt of byte `j ≠ k` stands.
      by_cases hjk : j = k
      · subst hjk
        exact .inl (update_self ..)
      · refine (hsy.bytes j hj).imp (fun he => (update_of_ne hjk _ _).trans he)
          fun ho => exists_update ho fun hle => ?_
        rw [hi] at hle
        exact Nat.lt_of_le_of_ne hle (Ne.symm hjk)
    · exact exists_update ho fun _ => trivial
  | iunlock i hi =>
    have hsy := hsync (i := i) (by rw [hi]; simp)
    refine .inr ⟨fun j hj => (hsy.bytes j hj).imp_right fun ho => exists_update ho fun hle => ?_,
      .inl (le_max_right _ _)⟩
    rw [hi] at hle
    exact absurd hj (Nat.not_lt.mpr hle)
  | ret i hi =>
    have hsy := hsync (i := i) (by rw [hi]; simp)
    refine .inr ⟨fun j hj => (hsy.bytes j hj).imp_right fun ho => exists_update ho fun hle => ?_,
      hsy.size.imp_right fun ho => exists_update ho fun hle => ?_⟩
    all_goals rw [hi] at hle; exact hle.elim

theorem tracked_run {t : UTable} {f : AFile} {s : State π} (h : Run (start t f) s) : Tracked s := by
  induction h with
  | refl => exact .inl ⟨fun _ => rfl, rfl⟩
  | step _ hs ih => exact synced_step ih hs

theorem size_step {a b : State π} (hs : Step a b) :
    b.file.size = a.file.size ∨ b.file.size = max a.file.size userBytes := by
  cases hs
  case iunlock => exact .inr rfl
  all_goals exact .inl rfl

/-- A file no longer than the table stays so. -/
theorem size_run {t : UTable} {f : AFile} {s : State π} (h : Run (start t f) s)
    (hf : f.size ≤ userBytes) : s.file.size ≤ userBytes := by
  induction h with
  | refl => exact hf
  | step _ hs ih =>
    rcases size_step hs with he | he
    · exact he ▸ ih
    · exact he ▸ max_le ih le_rfl

theorem contents_eq {f : AFile} {t : UTable} (hsz : userBytes ≤ f.size)
    (hb : ∀ j < userBytes, f.data j = t.byteAt j) :
    f.contents = t.bytes ++ f.contents.drop userBytes := by
  have htake : f.contents.take userBytes = t.bytes := by
    rw [AFile.contents, ← List.map_take, List.take_range, min_eq_left hsz, UTable.bytes]
    exact List.map_congr_left fun j hj => hb j (List.mem_range.mp hj)
  rw [← htake, List.take_append_drop]

/-- **Account persistence.** In any interleaving, when no call is in progress
and one has succeeded, the file starts with the bytes of the table, and is
just them if it was no longer to begin with; so a boot that loads it gets that
table back with slot 0 set to root/0000 and every account offline. -/
theorem persistent {t : UTable} {f : AFile} {s : State π} (h : Run (start t f) s)
    (hidle : ∀ i, s.pc i = .idle) (hsucc : s.succeeded = true) :
    s.file.contents.take userBytes = s.table.bytes ∧
      (f.size ≤ userBytes → s.file.contents = s.table.bytes) ∧
      UTable.load s.file.contents = { s.table with online := fun _ => false }.setRoot := by
  have hsy : Synced s := (tracked_run h).resolve_left fun hn => by rw [hsucc] at hn; cases hn.2
  have hb : ∀ j < userBytes, s.file.data j = s.table.byteAt j := fun j hj =>
    (hsy.bytes j hj).resolve_right fun ⟨i, ho⟩ => by rw [hidle i] at ho; exact ho
  have hsz : userBytes ≤ s.file.size :=
    hsy.size.resolve_right fun ⟨i, ho⟩ => by rw [hidle i] at ho; exact ho
  have hc := contents_eq hsz hb
  have hlen := UTable.bytes_length s.table
  refine ⟨?_, fun hf => ?_, ?_⟩
  · rw [hc, List.take_append_of_le_length hlen.ge, List.take_of_length_le hlen.le]
  · have hs : s.file.size = userBytes := le_antisymm (size_run h hf) hsz
    have hd : s.file.contents.drop userBytes = [] := by
      rw [List.drop_eq_nil_iff, AFile.contents, List.length_map, List.length_range, hs]
    rw [hd, List.append_nil] at hc
    exact hc
  · rw [hc, UTable.load_bytes]

/-! ### A call that has changed the table can finish -/

theorem Run.trans {a b c : State π} (hab : Run a b) (hbc : Run b c) : Run a c := by
  induction hbc with
  | refl => exact hab
  | step _ hs ih => exact .step ih hs

theorem copy_run {i : π} {s : State π} : ∀ n k, k + n = userBytes → s.pc i = .copying k →
    ∃ s', Run s s' ∧ s'.pc = update s.pc i (.copying userBytes)
  | 0, k, hk, hi => by
    refine ⟨s, .refl, ?_⟩
    rw [← hk, Nat.add_zero, ← hi, Function.update_eq_self]
  | n + 1, k, hk, hi => by
    have hs := Step.copy i k hi (by omega)
    obtain ⟨s', hr, hp⟩ := copy_run n (k + 1) (by omega)
      (update_self i (.copying (k + 1)) s.pc) (s := { s with
        file := { s.file with data := update s.file.data k (s.table.byteAt k) }
        pc := update s.pc i (.copying (k + 1)) })
    refine ⟨s', Run.trans (.step .refl hs) hr, ?_⟩
    rw [hp, update_idem]

/-- If nobody holds the inode's lock, a call that has changed the table can run
to its end. -/
theorem finish {i : π} {s : State π} (hi : s.pc i = .changed) (hfree : ∀ j k, s.pc j ≠ .copying k) :
    ∃ s', Run s s' ∧ s'.pc = update s.pc i .idle ∧ s'.succeeded = true := by
  obtain ⟨s', hr, hp⟩ := copy_run userBytes 0 (Nat.zero_add _)
    (update_self i (.copying 0) s.pc) (s := { s with pc := update s.pc i (.copying 0) })
  rw [update_idem] at hp
  have h1 := Step.iunlock (s := s') i (by rw [hp, update_self])
  have h2 := Step.ret (s := { s' with
    file := { s'.file with size := max s'.file.size userBytes }
    pc := update s'.pc i .written }) i (update_self ..)
  refine ⟨_, .step (.step (Run.trans (.step .refl (.ilock i hi hfree)) hr) h1) h2, ?_, rfl⟩
  simp only [hp, update_idem]

end

/-- One process adds alice to the table of a first boot and the call returns. -/
theorem persistent_alice : ∃ s : State Unit,
    Run (start UTable.initial ⟨userBytes, UTable.initial.byteAt⟩) s ∧ (∀ i, s.pc i = .idle) ∧
      s.succeeded = true ∧ s.file.contents = s.table.bytes := by
  have hins : ∃ t, UTable.initial.insert Accounts.alice Accounts.alice = some t := by
    rw [← Option.isSome_iff_exists]
    decide
  obtain ⟨t, ht⟩ := hins
  have hadd := Step.addUser (s := start UTable.initial ⟨userBytes, UTable.initial.byteAt⟩) ()
    Accounts.alice Accounts.alice t rfl ht
  obtain ⟨s, hr, hp, hs⟩ := finish (i := ()) (s := ⟨t, ⟨userBytes, UTable.initial.byteAt⟩,
    update (fun _ => .idle) () .changed, false⟩) (by simp) (by simp)
  have hrun := Run.trans (.step .refl hadd) hr
  have hidle : ∀ i, s.pc i = .idle := fun i => by cases i; rw [hp, update_self]
  exact ⟨s, hrun, hidle, hs, (persistent hrun hidle hs).2.1 le_rfl⟩

end Persist
end Xv6
