/-
# Which process the MLFQ scheduler chooses

The scan of the process table in the MLFQ build of `scheduler`, over a table of any contents. A
process that is `RUNNABLE` and not at the last level can be chosen. The three rules by which
`p_select` is replaced come to one comparison, of the level first, then of whether the quantum has
started, then of the priority (`rank`); so the scan is the first least element of the list of those
that can be chosen (`scan_eq_argmin`), whatever the order in which it meets them.
-/
import Mathlib.Data.List.MinMax
import Mathlib.Data.Prod.Lex
import Mathlib.Order.WithBot
import Xv6.Mlfq

namespace Xv6.Mlfq

/-- What the scan reads of a `struct proc`. -/
structure Entry where
  state : ProcTable.ProcState
  tq : Int32
  qlvl : Int32
  priority : Int32

section

variable {N : ℕ} (K : Int32) (t : Fin N → Entry) {a b : ℕ}

/-- A round of the loop: `p_select` after `p`. -/
def visit (pSelect : Option (Fin N)) (p : Fin N) : Option (Fin N) :=
  if (t p).state ≠ .runnable ∨ (t p).qlvl = K then pSelect
  else
    match pSelect with
    | none => some p
    | some c =>
      if (t c).qlvl > (t p).qlvl then some p
      else if (t c).qlvl = (t p).qlvl then
        if (t c).tq = 0 ∧ (t c).priority < (t p).priority then some p
        else if (t c).tq = 0 ∧ (t p).tq ≠ 0 then some p
        else some c
      else some c

/-- The loop over the table. -/
def scan : Option (Fin N) := (List.finRange N).foldl (visit K t) none

/-- The process can be chosen. -/
def Entry.Eligible (e : Entry) : Prop := e.state = .runnable ∧ e.qlvl ≠ K

instance (e : Entry) : Decidable (e.Eligible K) := inferInstanceAs (Decidable (_ ∧ _))

/-- Lower levels come first; of a level, what has started, then high priorities. -/
def Entry.rank (e : Entry) : ℤ ×ₗ WithBot ℤᵒᵈ :=
  toLex (e.qlvl.toInt, if e.tq = 0 then WithBot.some (OrderDual.toDual e.priority.toInt) else ⊥)

/-- What the chosen process is. -/
structure Chosen (p : Fin N) : Prop where
  eligible : (t p).Eligible K
  least : ∀ q, (t q).Eligible K → (t p).qlvl ≤ (t q).qlvl
  started : (∃ q, (t q).Eligible K ∧ (t q).qlvl = (t p).qlvl ∧ (t q).tq ≠ 0) →
    (t p).tq ≠ 0 ∧ ∀ q, (t q).Eligible K → (t q).qlvl = (t p).qlvl → (t q).tq ≠ 0 → p ≤ q
  waiting : (∀ q, (t q).Eligible K → (t q).qlvl = (t p).qlvl → (t q).tq = 0) →
    ∀ q, (t q).Eligible K → (t q).qlvl = (t p).qlvl →
      (t q).priority ≤ (t p).priority ∧ ((t q).priority = (t p).priority → p ≤ q)

variable {K t} {p q c : Fin N} {e f : Entry}

/-! ### The scan as a least element -/

theorem rank_lt_iff : e.rank < f.rank ↔
    e.qlvl < f.qlvl ∨ e.qlvl = f.qlvl ∧ f.tq = 0 ∧ (f.priority < e.priority ∨ e.tq ≠ 0) := by
  unfold Entry.rank
  rw [Prod.Lex.toLex_lt_toLex, Int32.toInt_inj, ← Int32.lt_iff_toInt_lt]
  refine or_congr_right (and_congr_right fun _ => ?_)
  by_cases hf : f.tq = 0
  · by_cases he : e.tq = 0
    · simp [he, hf, Int32.lt_iff_toInt_lt]
    · simp [he, hf]
  · simp [hf]

theorem visit_of_not_eligible (hp : ¬(t p).Eligible K) (c : Option (Fin N)) : visit K t c p = c := by
  unfold visit
  rw [if_pos]
  rw [Entry.Eligible, not_and_or, not_not] at hp
  exact hp

theorem visit_none (hp : (t p).Eligible K) : visit K t none p = some p := by
  unfold visit
  rw [if_neg (not_or.mpr ⟨not_not.mpr hp.1, hp.2⟩)]

/-- `p_select` is replaced by what comes before it. -/
theorem visit_some (hp : (t p).Eligible K) (c : Fin N) :
    visit K t (some c) p = if (t p).rank < (t c).rank then some p else some c := by
  unfold visit
  rw [if_neg (not_or.mpr ⟨not_not.mpr hp.1, hp.2⟩)]
  dsimp only
  by_cases hlt : (t p).qlvl < (t c).qlvl
  · rw [if_pos hlt, if_pos (rank_lt_iff.mpr (.inl hlt))]
  · rw [if_neg hlt]
    by_cases heq : (t c).qlvl = (t p).qlvl
    · rw [if_pos heq]
      by_cases hprio : (t c).tq = 0 ∧ (t c).priority < (t p).priority
      · rw [if_pos hprio, if_pos (rank_lt_iff.mpr (.inr ⟨heq.symm, hprio.1, .inl hprio.2⟩))]
      · rw [if_neg hprio]
        refine if_congr (Iff.trans ?_ rank_lt_iff.symm) rfl rfl
        rw [or_iff_right hlt, and_iff_right heq.symm]
        exact and_congr_right fun h0 => (or_iff_right fun h => hprio ⟨h0, h⟩).symm
    · rw [if_neg heq, if_neg]
      rw [rank_lt_iff, not_or]
      exact ⟨hlt, fun h => heq h.1.symm⟩

/-- The slots that can be chosen, in table order. -/
def eligible (K : Int32) (t : Fin N → Entry) : List (Fin N) := (List.finRange N).filter fun p =>
    (t p).Eligible K

theorem mem_eligible : p ∈ eligible K t ↔ (t p).Eligible K := by
  simp [eligible]

theorem scan_eq_argmin : scan K t = (eligible K t).argmin fun p => (t p).rank := by
  unfold scan eligible
  rw [List.argmin, List.foldl_filter]
  congr 1
  funext c p
  by_cases hp : (t p).Eligible K
  · rw [if_pos (by simpa using hp)]
    cases c with
    | none => exact visit_none hp
    | some c => exact visit_some hp c
  · rw [if_neg (by simpa using hp), visit_of_not_eligible hp]

/-- What is met first comes first in the table. -/
theorem le_of_idxOf (hp : (t p).Eligible K) (hq : (t q).Eligible K)
    (h : (eligible K t).idxOf p ≤ (eligible K t).idxOf q) : p ≤ q := by
  have hsorted : (eligible K t).Pairwise (· < ·) := List.Pairwise.filter _ (List.pairwise_lt_finRange N)
  have hpl := List.idxOf_lt_length_of_mem (mem_eligible.mpr hp)
  have hql := List.idxOf_lt_length_of_mem (mem_eligible.mpr hq)
  rcases h.eq_or_lt with heq | hlt
  · exact (List.idxOf_inj (mem_eligible.mpr hp)).mp heq |>.le
  · have := List.pairwise_iff_getElem.mp hsorted _ _ hpl hql hlt
    rw [List.getElem_idxOf, List.getElem_idxOf] at this
    exact this.le

/-- **What the scan chooses.** -/
theorem scan_chosen (K : Int32) (t : Fin N → Entry) :
    ((∃ p, scan K t = some p) ↔ ∃ q, (t q).state = .runnable ∧ (t q).qlvl ≠ K) ∧
      ∀ p, scan K t = some p → Chosen K t p := by
  rw [scan_eq_argmin]
  constructor
  · rw [← Option.ne_none_iff_exists', ne_eq, List.argmin_eq_none, List.eq_nil_iff_forall_not_mem]
    push Not
    exact exists_congr fun q => mem_eligible
  · intro p hp
    have helig : (t p).Eligible K := mem_eligible.mp (List.argmin_mem hp)
    have hmin : ∀ q, (t q).Eligible K → ¬(t q).rank < (t p).rank := fun q hq =>
      not_lt.mpr (List.le_of_mem_argmin (f := fun p => (t p).rank) (mem_eligible.mpr hq) hp)
    have hfirst : ∀ q, (t q).Eligible K → ¬(t p).rank < (t q).rank → p ≤ q := fun q hq hle =>
      le_of_idxOf helig hq (List.index_of_argmin hp (mem_eligible.mpr hq) (not_lt.mp hle))
    refine ⟨helig, fun q hq => ?_, fun ⟨q, hq, hlevel, htq⟩ => ?_, fun hnone q hq hlevel => ?_⟩
    · exact Int32.not_lt.mp fun hlt => hmin q hq (rank_lt_iff.mpr (.inl hlt))
    · constructor
      · intro h0
        exact hmin q hq (rank_lt_iff.mpr (.inr ⟨hlevel, h0, .inr htq⟩))
      · intro r hr hlevel htq
        apply hfirst r hr
        rw [rank_lt_iff, not_or]
        exact ⟨fun hlt => Int32.lt_irrefl (hlevel ▸ hlt), fun h => htq h.2.1⟩
    · have h0 : (t p).tq = 0 := hnone p helig rfl
      constructor
      · exact Int32.not_lt.mp fun hlt => hmin q hq (rank_lt_iff.mpr (.inr ⟨hlevel, h0, .inl hlt⟩))
      · intro hprio
        apply hfirst q hq
        rw [rank_lt_iff, not_or]
        refine ⟨fun hlt => Int32.lt_irrefl (hlevel ▸ hlt), fun h => ?_⟩
        rcases h.2.2 with hlt | hne
        · exact Int32.lt_irrefl (hprio ▸ hlt)
        · exact hne h0

/-! ### The scheduler of the machine -/

/-- What the scan finds in the table of the machine. -/
def State.entry (s : State N) (p : Fin N) : Entry where
  state := (s.table.proc p).state
  tq := Int32.ofNat (s.quantum p).tq
  qlvl := Int32.ofNat (s.quantum p).qlvl
  priority := (s.quantum p).priority

theorem ofNat_lt_iff (ha : a < 2 ^ 31) (hb : b < 2 ^ 31) : Int32.ofNat a < Int32.ofNat b ↔
    a < b := by
  rw [Int32.lt_iff_toInt_lt, Int32.toInt_ofNat_of_lt ha, Int32.toInt_ofNat_of_lt hb, Int.ofNat_lt]

theorem ofNat_eq_iff (ha : a < 2 ^ 31) (hb : b < 2 ^ 31) : Int32.ofNat a = Int32.ofNat b ↔
    a = b := by
  rw [← Int32.toInt_inj, Int32.toInt_ofNat_of_lt ha, Int32.toInt_ofNat_of_lt hb, Int.ofNat_inj]

theorem select_eq_scan {K : ℕ} {s : State N} (hK : K < 2 ^ 31) (h : Inv K s) :
    select K s = scan (Int32.ofNat K) s.entry := by
  have hlevel : ∀ p, (s.quantum p).qlvl < 2 ^ 31 := fun p => (h.level p).trans_lt hK
  have htq : ∀ p, Int32.ofNat (s.quantum p).tq = 0 ↔ (s.quantum p).tq = 0 := fun p => by
    have := h.small p
    exact ofNat_eq_iff (b := 0) (by omega) (by decide)
  unfold select scan
  congr 1
  funext c p
  unfold better visit State.entry
  rcases c with _ | c <;> simp only [ofNat_eq_iff (hlevel _) hK, ofNat_eq_iff (hlevel _) (hlevel _),
    gt_iff_lt,
    ofNat_lt_iff (hlevel _) (hlevel _), htq, ne_eq]

/-- **The scheduler of the machine is the scan of the table**, in every state: no C `int` overflows
in a comparison. -/
theorem select_of_reach [NeZero N] {K : ℕ} {s : State N} (hK : 1 ≤ K) (hlt : K < 2 ^ 31)
    (h : Machine.Reach (step K) (fun _ _ => True) init s) : select K s = scan (Int32.ofNat K) s.entry :=
  select_eq_scan hlt (h.inv (I := Inv K) inv_init fun _ _ _ h _ hs => inv_next h hK hs)

end

theorem select_of_reach_twoTicks : ∃ s : State 64, (s.quantum 0).qlvl = 1 ∧ select 5 s =
    scan (Int32.ofNat 5) s.entry := by
  obtain ⟨s, hs, hf⟩ := Machine.exists_reach (step 5) (fun _ _ => True) (init : State 64) twoTicks
    (fun s => (s.quantum 0).qlvl) 1 (by decide +kernel)
  exact ⟨s, hf, select_of_reach (by decide) (by decide) hs⟩

end Xv6.Mlfq
