/-
# skipelem in memory

skipelem of fs.c with its pointers: three loops over the path, and `memmove` to the buffer `name` of
the caller, which keeps what it had after the NUL, or has no NUL if the element has `DIRSIZ` bytes
or more. A loop that does not end runs out of fuel.

It does to memory what `skipelem` of `Xv6.Fs.Dir` does to lists (`skipelem_refines`), so it takes
the elements of the path one by one, and only the last one leaves an empty path.
-/
import Mathlib.Data.List.TakeWhile
import Xv6.Lib.Mem
import Xv6.Fs.Walk

namespace Xv6.Skipelem

open List (length_drop getD_eq_getElem?_getD length_cons)

def DIRSIZ : ℕ := 14

/-- `while(cond(*path)) path++;` -/
def advance (m : Mem) (cond : UInt8 → Bool) : ℕ → ℕ → Option ℕ
  | 0, _ => none
  | fuel + 1, path => if cond (m path) then advance m cond fuel (path + 1) else some path

/-- The element of `len` bytes at `s` is copied to `name`. -/
def copyName (m : Mem) (name s len : ℕ) : Mem :=
  if DIRSIZ ≤ len then m.splice name DIRSIZ fun j => m (s + j)
  else (m.splice name len fun j => m (s + j)).splice (name + len) 1 fun _ => 0

/-- Copy the next path element from path into name: the path after it, or `none` for 0, and memory.
-/
def skipelem (fuel : ℕ) (m : Mem) (path name : ℕ) : Option (Option ℕ × Mem) := do
  let path ← advance m (· = 47) fuel path
  if m path = 0 then pure (none, m)
  else do
    let s := path
    let path ← advance m (fun c => c ≠ 47 ∧ c ≠ 0) fuel path
    let m := copyName m name s (path - s)
    let path ← advance m (· = 47) fuel path
    pure (some path, m)

/-- `while((path = skipelem(path, name)) != 0)`: memory and the path after each call. -/
def elements (fuel : ℕ) (name : ℕ) : ℕ → Mem → ℕ → Option (List (Mem × ℕ))
  | 0, _, _ => none
  | rounds + 1, m, path => do
    let r ← skipelem fuel m path name
    match r with
    | (none, _) => pure []
    | (some path, m) => do
      let rest ← elements fuel name rounds m path
      pure ((m, path) :: rest)

/-- The string `s` and its NUL are at `p`. -/
def StringAt (m : Mem) (p : ℕ) (s : Str) : Prop := ∀ j, j ≤ s.length → m (p + j) = s.getD j 0

/-- The buffer is not where the `len` bytes at `path` and their NUL are. -/
def Outside (name path len : ℕ) : Prop := ∀ j, j ≤ len → path + j < name ∨ name + DIRSIZ ≤ path + j

/-- The buffer has the name, with a NUL if there is room for it. -/
structure Buffered (m : Mem) (name : ℕ) (nm : Str) : Prop where
  bytes : ∀ j, j < nm.length → m (name + j) = nm.getD j 0
  size : nm.length ≤ DIRSIZ
  nul : nm.length < DIRSIZ → m (name + nm.length) = 0

section

variable {m m' : Mem} {p path name fuel len k x : ℕ} {s nm rest : Str} {cond : UInt8 → Bool}

/-! ### Strings in memory -/

theorem StringAt.byte0 (h : StringAt m p s) : m p = byte0 s := by
  have := h 0 (Nat.zero_le _)
  rw [Nat.add_zero] at this
  rw [this]
  cases s with
  | nil | cons => rfl

theorem StringAt.drop (h : StringAt m p s) (hk : k ≤ s.length) : StringAt m (p + k) (s.drop k) :=
    fun j hj => by
  rw [length_drop] at hj
  have := h (k + j) (by omega)
  rw [Nat.add_assoc, this, getD_eq_getElem?_getD, getD_eq_getElem?_getD, List.getElem?_drop]

theorem StringAt.same (h : StringAt m p s) (hm : ∀ j, j ≤ s.length → m' (p + j) = m (p + j)) :
    StringAt m' p s :=
  fun j hj => (hm j hj).trans (h j hj)

theorem drop_length_takeWhile (cond : UInt8 → Bool) (s : Str) :
    s.drop (s.takeWhile cond).length = s.dropWhile cond := by
  have h : (s.takeWhile cond ++ s.dropWhile cond).drop (s.takeWhile cond).length =
    s.dropWhile cond := List.drop_left
  rwa [List.takeWhile_append_dropWhile] at h

theorem length_takeWhile_le (cond : UInt8 → Bool) (s : Str) : (s.takeWhile cond).length ≤ s.length :=
  (List.takeWhile_prefix _).length_le

/-- A loop over the string stops at the NUL at the latest. -/
theorem advance_eq (hc : cond 0 = false) (h : StringAt m p s) (hfuel : s.length < fuel) :
    advance m cond fuel p = some (p + (s.takeWhile cond).length) := by
  induction s generalizing p fuel with
  | nil =>
    obtain ⟨fuel, rfl⟩ : ∃ k, fuel = k + 1 := ⟨fuel - 1, by omega⟩
    have h0 : m p = 0 := h.byte0
    rw [advance, h0, if_neg (by simp [hc])]
    rfl
  | cons c s ih =>
    obtain ⟨fuel, rfl⟩ : ∃ k, fuel = k + 1 := ⟨fuel - 1, by omega⟩
    have h0 : m p = c := h.byte0
    rw [length_cons] at hfuel
    rw [advance, h0]
    by_cases hcc : cond c = true
    · rw [if_pos hcc, ih (h.drop (k := 1) (by simp)) (by omega), List.takeWhile_cons_of_pos hcc,
        length_cons, Nat.add_assoc,
        Nat.add_comm 1]
    · rw [if_neg hcc, List.takeWhile_cons_of_neg hcc]
      rfl

/-! ### The buffer -/

theorem copyName_outside (hx : x < name ∨ name + DIRSIZ ≤ x) (s : ℕ) : copyName m name s len x = m x := by
  unfold copyName
  split
  · rcases hx with h | h
    · exact Mem.splice_of_lt h
    · exact Mem.splice_of_ge h
  · rcases hx with h | h
    · rw [Mem.splice_of_lt (by omega), Mem.splice_of_lt h]
    · rw [Mem.splice_of_ge (by omega), Mem.splice_of_ge (by omega)]

theorem copyName_buffered {w : Str} (hw : ∀ j, j < w.length → m (p + j) = w.getD j 0) :
    Buffered (copyName m name p w.length) name (w.take DIRSIZ) := by
  have hlen : (w.take DIRSIZ).length = min DIRSIZ w.length := List.length_take
  have htake : ∀ j, j < DIRSIZ → (w.take DIRSIZ).getD j 0 = w.getD j 0 := fun j hj => by
    rw [getD_eq_getElem?_getD, getD_eq_getElem?_getD, List.getElem?_take_of_lt hj]
  unfold copyName
  split_ifs with hle
  · refine ⟨fun j hj => ?_, by omega, fun hlt => by omega⟩
    rw [hlen] at hj
    rw [Mem.splice_add _ _ _ _ _ (by omega), htake j (by omega), hw j (by omega)]
  · refine ⟨fun j hj => ?_, by omega, fun _ => ?_⟩
    · rw [hlen] at hj
      rw [Mem.splice_of_lt (by omega), Mem.splice_add _ _ _ _ _ (by omega), htake j (by omega),
        hw j (by omega)]
    · rw [hlen, Nat.min_eq_right (by omega)]
      exact Mem.splice_add _ _ 1 0 _ Nat.zero_lt_one

/-- Only the buffer is written to, whatever is at `path`. -/
theorem skipelem_outside {r : Option ℕ × Mem} (h : skipelem fuel m path name = some r)
    (hx : x < name ∨ name + DIRSIZ ≤ x) : r.2 x = m x := by
  unfold skipelem at h
  simp only [Option.bind_eq_bind, Option.bind_eq_some_iff] at h
  obtain ⟨p1, -, h⟩ := h
  split at h
  · obtain rfl : (none, m) = r := Option.some.inj h
    rfl
  · simp only [Option.bind_eq_some_iff] at h
    obtain ⟨p2, -, p3, -, h⟩ := h
    obtain rfl : (some p3, copyName m name p1 (p2 - p1)) = r := Option.some.inj h
    exact copyName_outside hx p1

/-! ### One call, and all of them -/

/-- What a call comes to: nothing if there is no element; else the element is in the buffer, the
path after it is the rest of the string, and memory is otherwise as it was. -/
def Skipped (m : Mem) (path name : ℕ) (s : Str) (r : Option ℕ × Mem) : Prop :=
  match Xv6.skipelem s with
  | none => r = (none, m)
  | some (nm, rest) => ∃ k, k ≤ s.length ∧ rest = s.drop k ∧ r.1 = some (path + k) ∧
      Buffered r.2 name nm ∧
      ∀ x, x < name ∨ name + DIRSIZ ≤ x → r.2 x = m x

theorem skipelem_refines (h : StringAt m path s) (hout : Outside name path s.length)
    (hfuel : s.length < fuel) : ∃ r, skipelem fuel m path name = some r ∧ Skipped m path name s r := by
  obtain ⟨s1, hs1⟩ : ∃ s1, s1 = s.dropWhile (· = 47) := ⟨_, rfl⟩
  obtain ⟨k1, hk1⟩ : ∃ k1, k1 = (s.takeWhile (· = 47)).length := ⟨_, rfl⟩
  have hdrop1 : s.drop k1 = s1 := by rw [hk1, hs1, drop_length_takeWhile]
  have hle1 : k1 ≤ s.length := hk1 ▸ length_takeWhile_le _ s
  have hlen1 : s1.length = s.length - k1 := by rw [← hdrop1, length_drop]
  have h1 : StringAt m (path + k1) s1 := hdrop1 ▸ h.drop hle1
  unfold skipelem Skipped Xv6.skipelem
  rw [advance_eq (by decide) h hfuel, ← hk1]
  simp only [Option.bind_eq_bind, Option.bind_some, ← hs1]
  rw [h1.byte0]
  by_cases h0 : byte0 s1 = 0
  · rw [if_pos h0, if_pos h0]
    exact ⟨_, rfl, rfl⟩
  · rw [if_neg h0, if_neg h0]
    -- the element is `w`
    obtain ⟨w, hw⟩ : ∃ w, w = s1.takeWhile fun c => decide (c ≠ 47 ∧ c ≠ 0) := ⟨_, rfl⟩
    obtain ⟨s2, hs2⟩ : ∃ s2, s2 = s1.dropWhile fun c => decide (c ≠ 47 ∧ c ≠ 0) := ⟨_, rfl⟩
    have hdrop2 : s1.drop w.length = s2 := by rw [hw, hs2, drop_length_takeWhile]
    have hle2 : w.length ≤ s1.length := hw ▸ length_takeWhile_le _ s1
    have hlen2 : s2.length = s1.length - w.length := by rw [← hdrop2, length_drop]
    have happ : s1 = w ++ s2 := by rw [hw, hs2, List.takeWhile_append_dropWhile]
    have hbytes : ∀ j, j < w.length → m (path + k1 + j) = w.getD j 0 := fun j hj => by
      rw [h1 j (by omega), happ, getD_eq_getElem?_getD, getD_eq_getElem?_getD,
        List.getElem?_append_left hj]
    have hout' : ∀ x, x < name ∨ name + DIRSIZ ≤ x → copyName m name (path + k1) w.length x = m x :=
      fun x hx =>
      copyName_outside hx _
    have h2 : StringAt (copyName m name (path + k1) w.length) (path + k1 + w.length) s2 := by
      refine (hdrop2 ▸ h1.drop hle2).same fun j hj => hout' _ ?_
      have := hout (k1 + w.length + j) (by omega)
      rwa [show path + (k1 + w.length + j) = path + k1 + w.length + j by omega] at this
    obtain ⟨k3, hk3⟩ : ∃ k3, k3 = (s2.takeWhile (· = 47)).length := ⟨_, rfl⟩
    have hle3 : k3 ≤ s2.length := hk3 ▸ length_takeWhile_le _ s2
    rw [advance_eq (by decide) h1 (by omega), ← hw]
    simp only [Option.bind_some, Nat.add_sub_cancel_left]
    rw [advance_eq (by decide) h2 (by omega), ← hk3]
    refine ⟨_, rfl, k1 + w.length + k3, by omega, ?_, ?_, ?_, fun x hx => hout' x hx⟩
    · rw [← hs2, ← drop_length_takeWhile, ← hk3, ← hdrop2, ← hdrop1, List.drop_drop, List.drop_drop,
        Nat.add_assoc]
    · simp only [Nat.add_assoc]
    · exact copyName_buffered hbytes

/-- The calls have gone through the elements `ns`: the buffer has each of them in turn, the path
that is left is empty after the last of them only, and memory is the same outside the buffer. -/
structure Tokens (m : Mem) (name : ℕ) (ns : List Str) (es : List (Mem × ℕ)) : Prop where
  length : es.length = ns.length
  buffered : ∀ i (h : i < es.length), Buffered (es.get ⟨i, h⟩).1 name (ns.getD i [])
  last : ∀ i (h : i < es.length), (es.get ⟨i, h⟩).1 (es.get ⟨i, h⟩).2 = 0 ↔ i + 1 = es.length
  outside : ∀ e ∈ es, ∀ x, x < name ∨ name + DIRSIZ ≤ x → e.1 x = m x

theorem elements_tokens (rounds : ℕ) (m : Mem) (path : ℕ) (s : Str) (h : StringAt m path s)
    (hout : Outside name path s.length) (hfuel : s.length < fuel) (hrounds : s.length < rounds) :
    ∃ es, elements fuel name rounds m path = some es ∧ Tokens m name (components s) es := by
  induction rounds generalizing m path s with
  | zero => omega
  | succ rounds ih =>
    obtain ⟨r, hr, hskip⟩ := skipelem_refines h hout hfuel
    unfold elements
    rw [hr]
    unfold Skipped at hskip
    rcases components_skipelem s with ⟨hnone, hnil⟩ | ⟨nm, rest, hsome, hcons, hshort, hend⟩
    · rw [hnone] at hskip
      rw [show r = (none, m) from hskip, hnil]
      exact ⟨[], rfl, rfl, fun i hi => absurd hi (Nat.not_lt_zero i), fun i hi =>
        absurd hi (Nat.not_lt_zero i), by simp⟩
    · rw [hsome] at hskip
      obtain ⟨k, hk, rfl, hpath, hbuf, hsame⟩ := hskip
      obtain ⟨r1, m'⟩ := r
      obtain rfl : r1 = some (path + k) := hpath
      have hlen : (s.drop k).length = s.length - k := length_drop
      have hout' : Outside name (path + k) (s.drop k).length := fun j hj => by
        have := hout (k + j) (by omega)
        rwa [← Nat.add_assoc] at this
      have h' : StringAt m' (path + k) (s.drop k) := (h.drop hk).same fun j hj => hsame _ (hout' j hj)
      obtain ⟨es, hes, ht⟩ := ih m' (path + k) (s.drop k) h' hout' (by omega) (by omega)
      refine ⟨(m', path + k) :: es, by simp only [Option.bind_eq_bind, Option.bind_some, hes]; rfl, ?_⟩
      rw [hcons]
      refine ⟨by rw [length_cons, length_cons,
        ht.length], fun i hi => ?_, fun i hi => ?_, fun e he x hx => ?_⟩
      · cases i with
        | zero => exact hbuf
        | succ i => exact ht.buffered i (by simpa using hi)
      · cases i with
        | zero =>
          show m' (path + k) = 0 ↔ _
          rw [h'.byte0, hend, ← List.length_eq_zero_iff, ← ht.length, length_cons]
          omega
        | succ i =>
          exact (ht.last i (by simpa using hi)).trans Nat.add_right_cancel_iff.symm
      · rcases List.mem_cons.mp he with rfl | he
        · exact hsame x hx
        · rw [ht.outside e he x hx]
          exact hsame x hx

theorem components_eq (hs : 0 ∉ s) :
    components s = ((s.splitOn 47).filter (· ≠ [])).map (·.take DIRSIZ) := by
  unfold components
  have hall : s.takeWhile (fun c => decide (c ≠ 0)) = s :=
    List.takeWhile_eq_self_iff.mpr fun c hc => by
      have : c ≠ 0 := fun h0 => hs (h0 ▸ hc)
      simpa using this
  rw [hall]
  rfl

end

/-- **skipelem goes through the parts of the path that are between slashes**, with fuel enough for
the length of the path. -/
theorem elements_components (m : Mem) (path name : ℕ) (s : Str) (hs : 0 ∉ s) (h : StringAt m path s)
    (hout : Outside name path s.length) (fuel rounds : ℕ) (hfuel : s.length < fuel)
    (hrounds : s.length < rounds) : ∃ es, elements fuel name rounds m path = some es ∧
      Tokens m name (((s.splitOn 47).filter (· ≠ [])).map (·.take DIRSIZ)) es ∧
      ∀ m path fuel r, skipelem fuel m path name = some r → ∀ x, x < name ∨ name + DIRSIZ ≤ x →
      r.2 x = m x := by
  rw [← components_eq hs]
  obtain ⟨es, hes, ht⟩ := elements_tokens rounds m path s h hout hfuel hrounds
  exact ⟨es, hes, ht, fun _ _ _ _ hr _ hx => skipelem_outside hr hx⟩

/-- `/a//b/` at address 100, with the buffer at 0. -/
def slashes : Mem := fun x => ([47, 97, 47, 47, 98, 47] : Str).getD (x - 100) 0

theorem elements_components_slashes : StringAt slashes 100 [47, 97, 47, 47, 98, 47] ∧ Outside 0 100 6 ∧
    ∃ es, elements 7 0 7 slashes 100 = some es ∧
      Tokens slashes 0 (((([47, 97, 47, 47, 98, 47] : Str).splitOn 47).filter (· ≠ [])).map
        (·.take DIRSIZ)) es := by
  have h : StringAt slashes 100 [47, 97, 47, 47, 98, 47] := fun j _ => by
    unfold slashes
    rw [Nat.add_sub_cancel_left]
  have hout : Outside 0 100 6 := fun j _ => .inr (by unfold DIRSIZ; omega)
  obtain ⟨es, hes, ht, -⟩ := elements_components slashes 100 0 _ (by decide) h hout 7 7 (by decide)
    (by decide)
  exact ⟨h, hout, es, hes, ht⟩

end Xv6.Skipelem
