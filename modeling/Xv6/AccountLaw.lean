/-
# The accounts as a set

A slot of the table is an account if its name is not empty; `accounts` is what the slots are
together. `addUser` is to insert an account, `deleteUser` to take one away and `accountcheck` to
look. But names are looked for in the names and free slots in the flags, and a free slot has a name
too, the empty one.

`addUser` inserts where the flags say what the names say: the first slot with `online == 0` has no
name, and if there is none, every slot has one (`FreeOk`). That is so from the first boot on
(`freeOk_run`), until a boot reloads the file, which puts every account offline, or `accountcheck`
is called with the empty name, which puts a free slot online. `accountcheck` and `deleteUser` find a
free slot under the empty name, and nothing else that is not an account (`check_law`).
-/
import Xv6.Lib.Machine
import Xv6.Transactions

namespace Xv6

open Function (update update_eq_self update_self update_of_ne)

namespace UTable

/-- The account in a slot, if it is one: name and password. -/
def account (e : Ident × Ident) : Multiset (Str × Str) :=
  if e.1.name = [] then 0 else {(e.1.name, e.2.name)}

def accounts (t : UTable) : Multiset (Str × Str) := ∑ i, account (t.user i)

/-- `addUser` would take a slot without an account, and if there is no slot for it, all have one. -/
def FreeOk (t : UTable) : Prop :=
  match t.free with
  | some i => t.nameOf i = []
  | none => ∀ i, t.nameOf i ≠ []

variable {t t' : UTable} {u p : Str} {i : Fin NUM_USER} {e : Ident × Ident}

theorem account_of_name (h : e.1.name ≠ []) : account e = {(e.1.name, e.2.name)} := if_neg h

theorem account_of_no_name (h : e.1.name = []) : account e = 0 := if_pos h

theorem card_account : Multiset.card (account e) = if e.1.name = [] then 0 else 1 := by
  unfold account
  split <;> rfl

theorem accounts_update (h : t'.user = update t.user i e) :
    t'.accounts + account (t.user i) = t.accounts + account e := by
  unfold accounts
  rw [h]
  exact sum_update_add account t.user i e

theorem mem_accounts {x : Str × Str} :
    x ∈ t.accounts ↔ ∃ i, t.nameOf i ≠ [] ∧ x = (t.nameOf i, (t.user i).2.name) := by
  unfold accounts nameOf
  rw [Multiset.mem_sum]
  constructor
  · rintro ⟨i, -, hi⟩
    unfold account at hi
    split_ifs at hi with hne
    · cases hi
    · exact ⟨i, hne, Multiset.mem_singleton.mp hi⟩
  · rintro ⟨i, hne, rfl⟩
    refine ⟨i, Finset.mem_univ i, ?_⟩
    rw [account_of_name hne]
    exact Multiset.mem_singleton_self _

/-- There is room for an account exactly if a slot has none. -/
theorem card_accounts_lt : Multiset.card t.accounts < NUM_USER ↔ ∃ i, t.nameOf i = [] := by
  unfold accounts nameOf
  rw [Multiset.card_sum]
  have hall : ∑ _i : Fin NUM_USER, 1 = NUM_USER := by simp
  constructor
  · intro hlt
    by_contra hnone
    push Not at hnone
    refine absurd hlt (not_lt.mpr (hall.symm.le.trans (Finset.sum_le_sum fun i _ => ?_)))
    rw [card_account, if_neg (hnone i)]
  · rintro ⟨i, hi⟩
    refine (Finset.sum_lt_sum (fun j _ => ?_) ⟨i, Finset.mem_univ i, ?_⟩).trans_eq hall
    · rw [card_account]
      split <;> decide
    · rw [card_account, if_pos hi]
      exact Nat.one_pos

theorem lookup_eq_none : t.lookup u = none ↔ ∀ i, t.nameOf i ≠ cname 16 u := by
  constructor
  · exact nameOf_ne_of_lookup
  · intro h
    cases hl : t.lookup u with
    | none => rfl
    | some i => exact absurd (nameOf_of_lookup hl) (h i)

theorem insert_isSome : (t.insert u p).isSome = true ↔ t.lookup u = none ∧ t.free.isSome = true := by
  unfold insert
  cases hl : t.lookup u with
  | none | some => simp

/-! ### Flags and names -/

theorem FreeOk.free_isSome (h : t.FreeOk) : t.free.isSome = true ↔ ∃ i, t.nameOf i = [] := by
  unfold FreeOk at h
  cases hf : t.free with
  | none =>
    rw [hf] at h
    simpa using h
  | some i =>
    rw [hf] at h
    simpa using ⟨i, h⟩

/-- **`addUser` inserts an account if there is none with the name and there is room.** -/
theorem insert_law (hfree : t.FreeOk) (hu : cname 16 u ≠ []) :
    ((t.insert u p).isSome = true ↔ (∀ x ∈ t.accounts, x.1 ≠ cname 16 u) ∧
      Multiset.card t.accounts < NUM_USER) ∧ ∀ t', t.insert u p = some t' → t'.accounts =
      (cname 16 u, cname 16 p) ::ₘ t.accounts := by
  constructor
  · rw [insert_isSome, hfree.free_isSome, card_accounts_lt, lookup_eq_none]
    refine and_congr_left fun _ => ⟨fun h x hx => ?_, fun h i hi => ?_⟩
    · obtain ⟨i, -, rfl⟩ := mem_accounts.mp hx
      exact h i
    · exact h _ (mem_accounts.mpr ⟨i, by rw [hi]; exact hu, rfl⟩) hi
  · intro t' ht
    obtain ⟨-, i, hi, huser⟩ := insert_some ht
    have hname : (t.user i).1.name = [] := by
      rw [FreeOk, hi] at hfree
      exact hfree
    have hsum := accounts_update huser
    rw [account_of_no_name hname, add_zero, account_of_name (by rwa [Ident.name_ofStr]), Ident.name_ofStr,
      Ident.name_ofStr] at hsum
    rw [hsum, add_comm, Multiset.singleton_add]

/-- The slots in use are those with a name. -/
def Agree (t : UTable) : Prop := ∀ i, t.online i = true ↔ t.nameOf i ≠ []

theorem Agree.freeOk (h : t.Agree) : t.FreeOk := by
  unfold FreeOk
  split
  · rename_i i hi
    by_contra hne
    have := first_some hi
    rw [(h i).mpr hne] at this
    cases this
  · rename_i hnone
    intro i
    have := first_none hnone i
    exact (h i).mp (by simpa using this)

theorem Agree.update (h : t.Agree) {v : Bool} (huser : t'.user = update t.user i e)
    (honline : t'.online = update t.online i v) (hv : v = true ↔ e.1.name ≠ []) : t'.Agree := by
  intro j
  rw [nameOf, huser, honline]
  by_cases hj : j = i
  · subst hj
    rwa [update_self, update_self]
  · rw [update_of_ne hj, update_of_ne hj]
    exact h j

theorem Agree.insert (h : t.Agree) (ht : t.insert u p = some t') : t'.Agree := by
  rw [UTable.insert] at ht
  split at ht
  · cases ht
  · rename_i hl
    obtain ⟨i, hi, rfl⟩ := Option.map_eq_some_iff.mp ht
    refine h.update rfl rfl (iff_of_true rfl ?_)
    rw [Ident.name_ofStr]
    intro hu
    -- the empty name is that of the slot
    have hfree := h.freeOk
    rw [FreeOk, hi] at hfree
    exact nameOf_ne_of_lookup (by simpa using hl) i (hfree.trans hu.symm)

theorem Agree.remove (h : t.Agree) (ht : t.remove u = some t') : t'.Agree := by
  rw [UTable.remove] at ht
  split at ht
  · cases ht
  · obtain ⟨i, hi, rfl⟩ := Option.map_eq_some_iff.mp ht
    exact h.update rfl rfl (iff_of_false (by decide) (by decide))

theorem accountcheck_some (ht : t.accountcheck u p = some t') : ∃ i, t.nameOf i = cname 16 u ∧
    (t.user i).2.name = cname 16 p ∧ t'.user = t.user ∧ t'.online = update t.online i true := by
  obtain ⟨i, hi, rfl⟩ := Option.map_eq_some_iff.mp ht
  have hmatch := first_some hi
  rw [Bool.and_eq_true, sameId_iff, sameId_iff] at hmatch
  exact ⟨i, hmatch.1, hmatch.2, rfl, rfl⟩

theorem Agree.accountcheck (h : t.Agree) (hu : cname 16 u ≠ [])
    (ht : t.accountcheck u p = some t') : t'.Agree := by
  obtain ⟨i, hi, -, huser, honline⟩ := accountcheck_some ht
  refine h.update (e := t.user i) ?_ honline (iff_of_true rfl ?_)
  · rw [huser, update_eq_self]
  · show t.nameOf i ≠ []
    rwa [hi]

/-! ### Names -/

/-- No two slots hold the same name, but for the name root. -/
def OneEach (t : UTable) : Prop :=
  ∀ i j, i ≠ j → t.nameOf i ≠ [] → t.nameOf i ≠ root → t.nameOf i ≠ t.nameOf j

theorem OneEach.update (h : t.OneEach) (huser : t'.user = update t.user i e)
    (hn : e.1.name = [] ∨ e.1.name = root ∨ ∀ j, j ≠ i → t.nameOf j ≠ e.1.name) : t'.OneEach := by
  have hi : t'.nameOf i = e.1.name := by rw [nameOf, huser, update_self]
  have hne : ∀ j, j ≠ i → t'.nameOf j = t.nameOf j := fun j hj => by
    rw [nameOf, huser, update_of_ne hj, nameOf]
  intro a b hab hempty hroot heq
  by_cases ha : a = i
  · subst ha
    rw [hi] at hempty hroot heq
    rw [hne b (Ne.symm hab)] at heq
    rcases hn with hn | hn | hn
    · exact hempty hn
    · exact hroot hn
    · exact hn b (Ne.symm hab) heq.symm
  · rw [hne a ha] at hempty hroot heq
    by_cases hb : b = i
    · subst hb
      rw [hi] at heq
      rcases hn with hn | hn | hn
      · exact hempty (heq.trans hn)
      · exact hroot (heq.trans hn)
      · exact hn a ha heq
    · rw [hne b hb] at heq
      exact h a b hab hempty hroot heq

theorem OneEach.congr (h : t.OneEach) (huser : t'.user = t.user) : t'.OneEach := by
  intro i j hij
  rw [nameOf, nameOf, huser]
  exact h i j hij

theorem OneEach.insert (h : t.OneEach) (ht : t.insert u p = some t') : t'.OneEach := by
  obtain ⟨hl, i, -, huser⟩ := insert_some ht
  refine h.update huser (.inr (.inr fun j _ => ?_))
  rw [Ident.name_ofStr]
  exact nameOf_ne_of_lookup hl j

theorem OneEach.remove (h : t.OneEach) (ht : t.remove u = some t') : t'.OneEach := by
  obtain ⟨-, i, -, huser⟩ := remove_some ht
  exact h.update huser (.inl (by decide))

/-- A boot loads a table with this property from the file that holds one. -/
theorem OneEach.load (h : t.OneEach) (rest : Str) : (load (t.bytes ++ rest)).OneEach := by
  rw [load_bytes]
  refine OneEach.update (t := { t with online := fun _ => false }) h rfl (.inr (.inl ?_))
  rw [Ident.name_ofStr]
  rfl

end UTable

namespace Accounts

open UTable

variable {a : Accounts}

def ret (a : Accounts) : AccountOp → ℤ
  | .boot => 0
  | .addUser username password => if (a.table.insert username password).isSome then 0 else -1
  | .deleteUser username => if (a.table.remove username).isSome then 0 else -1
  | .accountcheck id pw => if (a.table.accountcheck id pw).isSome then 0 else -1

section

variable {u p : Str} {t : UTable}

theorem zero_iff {b : Bool} : (if b = true then (0 : ℤ) else -1) = 0 ↔ b = true := by
  cases b <;> decide

theorem ret_addUser : ret a (.addUser u p) = 0 ↔ (a.table.insert u p).isSome = true := zero_iff

theorem ret_deleteUser : ret a (.deleteUser u) = 0 ↔ (a.table.remove u).isSome = true := zero_iff

theorem ret_accountcheck : ret a (.accountcheck u p) = 0 ↔ (a.table.accountcheck u p).isSome =
    true := zero_iff

theorem addUser_some (h : a.table.insert u p = some t) : (step a (.addUser u p)).table = t := by
  rw [step, h]
  rfl

theorem addUser_none (h : ¬(a.table.insert u p).isSome = true) : step a (.addUser u p) = a := by
  rw [step, Option.not_isSome_iff_eq_none.mp h]

theorem deleteUser_some (h : a.table.remove u = some t) : (step a (.deleteUser u)).table = t := by
  rw [step, h]
  rfl

theorem deleteUser_none (h : ¬(a.table.remove u).isSome = true) : step a (.deleteUser u) = a := by
  rw [step, Option.not_isSome_iff_eq_none.mp h]

theorem accountcheck_of_some (h : a.table.accountcheck u p = some t) :
    (step a (.accountcheck u p)).table = t := by
  rw [step, h]

theorem accountcheck_of_none (h : a.table.accountcheck u p = none) : step a (.accountcheck u p) = a := by
  rw [step, h]

end

/-- Neither a boot that reloads the file, nor a check of the empty name. -/
def Steady : AccountOp → Prop
  | .boot => False
  | .accountcheck id _ => cname 16 id ≠ []
  | _ => True

theorem agree_step (h : a.table.Agree) {op : AccountOp} (hop : Steady op) : (step a op).table.Agree := by
  cases op with
  | boot => exact hop.elim
  | addUser u p =>
    rw [step]
    split
    · exact h
    · rename_i t ht
      exact h.insert ht
  | deleteUser u =>
    rw [step]
    split
    · exact h
    · rename_i t ht
      exact h.remove ht
  | accountcheck u p =>
    rw [step]
    split
    · exact h
    · rename_i t ht
      exact h.accountcheck hop ht

theorem freeOk_run {ops : List AccountOp} (hops : ∀ op ∈ ops, Steady op) : (run ops).table.FreeOk := by
  have hfold : ∀ (ops : List AccountOp) (a : Accounts), a.table.Agree → (∀ op ∈ ops, Steady op) →
      (ops.foldl step a).table.Agree := by
    intro ops
    induction ops with
    | nil => exact fun a h _ => h
    | cons op ops ih =>
      intro a h hops
      exact ih _ (agree_step h (hops op List.mem_cons_self)) fun op' hop' =>
        hops op' (List.mem_cons_of_mem _ hop')
  have hbooted : booted.table.Agree := by
    show UTable.initial.Agree
    unfold UTable.Agree
    decide
  exact (hfold ops booted hbooted hops).freeOk

/-- **`addUser` is insert-if-absent** in every state in which the flags do not mislead it; and they
do not, in a run of steady calls. -/
theorem addUser_law (ops : List AccountOp) :
    ((run ops).table.FreeOk → ∀ u p, cname 16 u ≠ [] →
      (ret (run ops) (.addUser u p) = 0 ↔
        (∀ x ∈ (run ops).table.accounts, x.1 ≠ cname 16 u) ∧
        Multiset.card (run ops).table.accounts < NUM_USER) ∧
      (ret (run ops) (.addUser u p) = 0 → (step (run ops) (.addUser u p)).table.accounts =
        (cname 16 u, cname 16 p) ::ₘ (run ops).table.accounts) ∧
      (ret (run ops) (.addUser u p) ≠ 0 →
        (step (run ops) (.addUser u p)).table.accounts = (run ops).table.accounts)) ∧
    ((∀ op ∈ ops, Steady op) → (run ops).table.FreeOk) := by
  refine ⟨fun hfree u p hu => ?_, freeOk_run⟩
  obtain ⟨hiff, hinsert⟩ := insert_law (p := p) hfree hu
  refine ⟨ret_addUser.trans hiff, fun hret => ?_, fun hret =>
    by rw [addUser_none (mt ret_addUser.mpr hret)]⟩
  obtain ⟨t, ht⟩ := Option.isSome_iff_exists.mp (ret_addUser.mp hret)
  rw [addUser_some ht, hinsert t ht]

/-- Alice is added, and then there are two accounts. -/
theorem addUser_law_alice : ret (run []) (.addUser alice alice) = 0 ∧
    (step (run []) (.addUser alice alice)).table.accounts =
    (alice, alice) ::ₘ (run []).table.accounts := by
  have hfree : (run []).table.FreeOk := (addUser_law []).2 (by simp)
  have hret : ret (run []) (.addUser alice alice) = 0 := by decide
  exact ⟨hret, ((addUser_law []).1 hfree alice alice (by decide)).2.1 hret⟩

/-- After a boot that reloads the file, root and alice are one account together: she has taken the
slot. -/
theorem addUser_drops_root : ret (run [.boot]) (.addUser alice alice) = 0 ∧
    (step (run [.boot]) (.addUser alice alice)).table.accounts ≠
    (alice, alice) ::ₘ (run [.boot]).table.accounts := by
  refine ⟨by decide, fun h => ?_⟩
  have hroot : (root, rootPw) ∈ (alice, alice) ::ₘ (run [.boot]).table.accounts :=
    Multiset.mem_cons_of_mem (mem_accounts.mpr ⟨0, by decide, by decide⟩)
  rw [← h, mem_accounts] at hroot
  revert hroot
  decide

/-! ### Checks and deletions -/

/-- No table of the run has two accounts of one name, but for root's, nor has the table that the
file would load. -/
structure Single (a : Accounts) : Prop where
  table : a.table.OneEach
  file : ∃ f, a.file = some f ∧ (UTable.load f).OneEach

theorem Single.store (h : a.Single) {t : UTable} (ht : t.OneEach) : (a.store t).Single := by
  obtain ⟨f, hf, -⟩ := h.file
  refine ⟨ht, _, ?_, ht.load (f.drop userBytes)⟩
  rw [Accounts.store, hf]
  rfl

theorem single_step (h : a.Single) (op : AccountOp) : (step a op).Single := by
  cases op with
  | boot =>
    obtain ⟨f, hf, hload⟩ := h.file
    rw [step, hf]
    exact ⟨hload, f, rfl, hload⟩
  | addUser u p =>
    rw [step]
    split
    · exact h
    · rename_i t ht
      exact h.store (h.table.insert ht)
  | deleteUser u =>
    rw [step]
    split
    · exact h
    · rename_i t ht
      exact h.store (h.table.remove ht)
  | accountcheck u p =>
    rw [step]
    split
    · exact h
    · rename_i t ht
      exact ⟨h.table.congr (accountcheck_user ht), h.file⟩

theorem oneEach_initial : UTable.initial.OneEach := fun i j hij hempty _ =>
    distinct_initial i j hij hempty

theorem oneEach_run (ops : List AccountOp) : (run ops).table.OneEach := by
  have hfold : ∀ (ops : List AccountOp) (a : Accounts), a.Single → (ops.foldl step a).Single := by
    intro ops
    induction ops with
    | nil => exact fun a h => h
    | cons op ops ih => exact fun a h => ih _ (single_step h op)
  have hbooted : booted.Single := by
    refine ⟨oneEach_initial, _, rfl, ?_⟩
    have := oneEach_initial.load []
    rwa [List.append_nil] at this
  exact (hfold ops booted hbooted).table

end Accounts

namespace UTable

variable {t t' : UTable} {u p : Str}

theorem accountcheck_isSome (hu : cname 16 u ≠ []) :
    (t.accountcheck u p).isSome = true ↔ (cname 16 u, cname 16 p) ∈ t.accounts := by
  rw [mem_accounts]
  constructor
  · intro h
    obtain ⟨t', ht⟩ := Option.isSome_iff_exists.mp h
    obtain ⟨i, hi, hp, -⟩ := accountcheck_some ht
    exact ⟨i, by rwa [hi], by rw [hi, hp]⟩
  · rintro ⟨i, -, heq⟩
    obtain ⟨hi, hp⟩ := Prod.mk.inj heq
    unfold accountcheck first
    rw [Option.isSome_map, List.find?_isSome]
    refine ⟨i, List.mem_finRange i, ?_⟩
    rw [Bool.and_eq_true, sameId_iff, sameId_iff]
    exact ⟨hi.symm, hp.symm⟩

theorem remove_isSome (hu : cname 16 u ≠ []) :
    (t.remove u).isSome = true ↔ cname 16 u ≠ root ∧ ∃ x ∈ t.accounts, x.1 = cname 16 u := by
  have hroot : strncmp u root 16 = 0 ↔ cname 16 u = root := strncmp_eq_zero 16 u root
  have hfound : (t.lookup u).isSome = true ↔ ∃ x ∈ t.accounts, x.1 = cname 16 u := by
    rw [← not_iff_not, Option.not_isSome_iff_eq_none, lookup_eq_none]
    push Not
    constructor
    · rintro h x hx
      obtain ⟨i, -, rfl⟩ := mem_accounts.mp hx
      exact h i
    · intro h i hi
      exact h _ (mem_accounts.mpr ⟨i, by rwa [hi], rfl⟩) hi
  unfold remove
  rw [← hfound]
  split
  · rename_i heq
    simp [hroot.mp heq]
  · rename_i hne
    rw [Option.isSome_map]
    exact ⟨fun h => ⟨fun heq => hne (hroot.mpr heq), h⟩, And.right⟩

/-- **A deletion takes away the account with the name, and nothing else.** -/
theorem remove_accounts (hone : t.OneEach) (hu : cname 16 u ≠ []) (ht : t.remove u = some t') :
    ∃ pw, t.accounts = (cname 16 u, pw) ::ₘ t'.accounts ∧ ∀ x ∈ t'.accounts, x.1 ≠ cname 16 u := by
  obtain ⟨hroot, i, hl, huser⟩ := remove_some ht
  have hi : (t.user i).1.name = cname 16 u := nameOf_of_lookup hl
  have hsum := accounts_update huser
  rw [account_of_name (by rwa [hi]), account_of_no_name (by decide), add_zero, hi, add_comm,
    Multiset.singleton_add] at hsum
  refine ⟨_, hsum.symm, fun x hx heq => ?_⟩
  obtain ⟨j, hne, rfl⟩ := mem_accounts.mp hx
  have hji : j ≠ i := by
    rintro rfl
    rw [nameOf, huser, update_self] at hne
    exact hne (by decide)
  have hj : t.nameOf j = cname 16 u := by
    rw [nameOf, huser, update_of_ne hji] at heq
    exact heq
  exact hone i j (Ne.symm hji) (by rw [nameOf, hi]; exact hu) (by rw [nameOf, hi]; exact hroot)
    (hi.trans hj.symm)

end UTable

namespace Accounts

open UTable

/-- **Checks and deletions are about accounts**, in every state that is reached, for every name but
the empty one. -/
theorem check_law (ops : List AccountOp) (id : Str) (hid : cname 16 id ≠ []) :
    (∀ pw, (ret (run ops) (.accountcheck id pw) = 0 ↔ (cname 16 id, cname 16 pw) ∈
      (run ops).table.accounts) ∧ (step (run ops) (.accountcheck id pw)).table.accounts =
      (run ops).table.accounts ∧
      ((∀ i, (run ops).table.nameOf i = cname 16 id → (run ops).table.online i = true) →
        (step (run ops) (.accountcheck id pw)).table.online = (run ops).table.online)) ∧
    (ret (run ops) (.deleteUser id) = 0 ↔
      cname 16 id ≠ root ∧ ∃ x ∈ (run ops).table.accounts, x.1 = cname 16 id) ∧
    (ret (run ops) (.deleteUser id) = 0 → ∃ pw, (run ops).table.accounts =
      (cname 16 id, pw) ::ₘ (step (run ops) (.deleteUser id)).table.accounts ∧
        ∀ x ∈ (step (run ops) (.deleteUser id)).table.accounts, x.1 ≠ cname 16 id) ∧
    (ret (run ops) (.deleteUser id) ≠ 0 →
      (step (run ops) (.deleteUser id)).table.accounts = (run ops).table.accounts) := by
  refine ⟨fun pw => ⟨ret_accountcheck.trans (accountcheck_isSome hid), ?_⟩,
    ret_deleteUser.trans (remove_isSome hid),
    fun hret => ?_, fun hret => ?_⟩
  · cases ht : (run ops).table.accountcheck id pw with
    | none =>
      rw [accountcheck_of_none ht]
      exact ⟨rfl, fun _ => rfl⟩
    | some t =>
      obtain ⟨i, hi, -, huser, honline⟩ := accountcheck_some ht
      rw [accountcheck_of_some ht]
      refine ⟨by rw [UTable.accounts, huser, UTable.accounts], fun h => ?_⟩
      rw [honline, ← h i hi, update_eq_self]
  · obtain ⟨t, ht⟩ := Option.isSome_iff_exists.mp (ret_deleteUser.mp hret)
    rw [deleteUser_some ht]
    exact remove_accounts (oneEach_run ops) hid ht
  · rw [deleteUser_none (mt ret_deleteUser.mpr hret)]

/-- Alice is added, checked and deleted. -/
theorem check_law_alice : ret (run [.addUser alice alice]) (.accountcheck alice alice) = 0 ∧
    (alice, alice) ∈ (run [.addUser alice alice]).table.accounts ∧
    ret (run [.addUser alice alice]) (.deleteUser alice) = 0 := by
  have hname : cname 16 alice = alice := by decide
  have hret : ret (run [.addUser alice alice]) (.accountcheck alice alice) = 0 := by decide
  obtain ⟨hcheck, hdelete, -⟩ := check_law [.addUser alice alice] alice (by decide)
  have hmem := (hcheck alice).1.mp hret
  rw [hname] at hmem
  exact ⟨hret, hmem, hdelete.mpr ⟨by decide, _, hmem, hname.symm⟩⟩

/-- The empty name passes for an account: `accountcheck` takes a slot away from `addUser`, and
`deleteUser` deletes nothing. -/
theorem empty_name : ret (run []) (.accountcheck [] []) = 0 ∧ (∀ x ∈ (run []).table.accounts, x.1 ≠ []) ∧
    (step (run []) (.accountcheck [] [])).table.online ≠ (run []).table.online ∧
    ret (run []) (.deleteUser []) = 0 ∧
    (step (run []) (.deleteUser [])).table.accounts = (run []).table.accounts := by
  refine ⟨by decide, fun x hx => ?_, by decide, by decide, ?_⟩
  · obtain ⟨i, hne, rfl⟩ := mem_accounts.mp hx
    exact hne
  · have huser : (step (run []) (.deleteUser [])).table.user = (run []).table.user := by decide
    rw [UTable.accounts, huser, UTable.accounts]

end Accounts

/-! ### The calls of the kernel -/

section

open Prog

variable {sb : Superblock} {K : Kernel} {p : Fin NPROC}

theorem sat_ended (r : ℤ) (s : Fs) : Sat (ended r) s (fun r' _ => r' = r) Any :=
  Sat.any.bind fun _ _ _ => .pure rfl

theorem sat_addUserFs (who : Caller) (ip : Slot) (table username : Str) (s : Fs) :
    Sat (addUserFs sb who ip table username) s (fun r _ => r = 0) Any := by
  refine .bind (Q := fun r _ => r ≠ none) ?_ fun r s1 hr => ?_
  · refine Sat.any.bind fun _ _ _ => Sat.any.bind fun _ _ _ => Sat.any.bind fun _ s1 _ =>
      sat_nameiRoot sb who ?_
    exact Sat.any.bind fun _ _ _ => Sat.any.bind fun _ _ _ => .pure (Option.some_ne_none _)
  · rcases r with _ | ⟨dp, _ | found⟩
    · exact absurd rfl hr
    · exact Sat.any.bind fun _ s2 _ => sat_ended 0 s2
    · exact sat_ended 0 s1

open Accounts (alice ret)

/-- When `addUser` of a root process returns, it has done what the table says. -/
theorem addUser_returns (username password : Str) (f : Option Str) :
    Sat (addUser sb p username password) K (fun r K' => isRoot (K.proc p).id = true →
      r = ret ⟨K.utable, f⟩ (.addUser username password) ∧
        K'.utable = (Accounts.step ⟨K.utable, f⟩ (.addUser username password)).table) Any := by
  rw [addUser]
  refine .get_bind (.ite (fun hr => .pure fun h => ?_) fun _ => ?_)
  · rw [h] at hr
    cases hr
  · cases ht : K.utable.insert username password with
    | none =>
      refine .pure fun _ => ?_
      rw [ret, Accounts.step, ht]
      exact ⟨rfl, rfl⟩
    | some t =>
      have hret : ret ⟨K.utable, f⟩ (.addUser username password) = 0 := by
        rw [ret, ht]
        rfl
      have hstep : (Accounts.step ⟨K.utable, f⟩ (.addUser username password)).table = t :=
        Accounts.addUser_some ht
      rw [hret, hstep]
      refine .modify_bind (caller_bind trivial fun cwd _ => onFs_bind .any fun _ s _ => ?_)
      cases K.utableIp with
      | none => exact .stop trivial
      | some ip => exact .zoom ((sat_addUserFs _ ip t.bytes username s).post fun r _ hr _ => ⟨hr, rfl⟩)

/-- So has `deleteUser`, if the account file is not a device. -/
theorem deleteUser_returns (username : Str) (f : Option Str)
    (hfile : ∀ ip, K.utableIp = some ip → (K.fs.loaded sb ip).type ≠ T_DEV) :
    Sat (deleteUser sb p username) K (fun r K' => isRoot (K.proc p).id = true →
      (r = -1 ↔ ret ⟨K.utable, f⟩ (.deleteUser username) = -1) ∧
        K'.utable = (Accounts.step ⟨K.utable, f⟩ (.deleteUser username)).table) Any := by
  rw [deleteUser]
  refine .get_bind (.ite (fun hr => .pure fun h => ?_) fun _ => ?_)
  · rw [h] at hr
    cases hr
  · cases ht : K.utable.remove username with
    | none =>
      refine .pure fun _ => ?_
      rw [ret, Accounts.step, ht]
      exact ⟨iff_of_true rfl rfl, rfl⟩
    | some t =>
      have hret : ret ⟨K.utable, f⟩ (.deleteUser username) = 0 := by
        rw [ret, ht]
        rfl
      have hstep : (Accounts.step ⟨K.utable, f⟩ (.deleteUser username)).table = t :=
        Accounts.deleteUser_some ht
      rw [hret, hstep]
      refine .modify_bind (.bind (Q := fun _ K' => K'.utable = t ∧ K'.fs.loaded sb = K.fs.loaded sb)
        (.zoom (loaded_beginOp.post fun _ _ h => ⟨rfl, h⟩)) fun _ K2 h2 => ?_)
      cases hip : K.utableIp with
      | none => exact .stop trivial
      | some ip =>
        refine .zoom ((deleteUserFs_fails t).post fun r _ hr _ => ⟨?_, h2.1⟩)
        rw [hr, h2.2]
        exact iff_of_false (fun h => hfile ip hip h.1) (by decide)

set_option maxRecDepth 100000 in
/-- Root deletes the account that it has added. -/
theorem deleteUser_returns_alice : ∃ log K r K', Reach smallSb (boot (bareDisk 61) []) log K ∧
    log.map Turn.move =
      [⟨0, .usysinit⟩, ⟨0, .addUser (some alice) (some alice)⟩] ∧
    (K.utable.remove alice).isSome ∧ deleteUser smallSb 0 alice K = .ok (r, K') ∧
    r ≠ -1 ∧ K'.utable = (Accounts.step ⟨K.utable, none⟩ (.deleteUser alice)).table := by
  have hrun : (play smallSb (boot (bareDisk 61) []) [⟨0, .usysinit⟩,
      ⟨0, .addUser (some alice) (some alice)⟩]).map
        (fun x => (x.2.utable.remove alice).isSome &&
        (isRoot (x.2.proc 0).id && (x.2.utableIp.all (fun ip => (x.2.fs.loaded smallSb ip).type ≠
          T_DEV) &&
          (deleteUser smallSb 0 alice x.2).toOption.any fun y => y.1 ≠ -1))) = some true := by
    decide +kernel
  obtain ⟨log, K, hr, hms, hobs⟩ := exists_reach hrun
  simp only [Bool.and_eq_true] at hobs
  obtain ⟨hrem, hroot, hfile, hret⟩ := hobs
  rcases hdel : deleteUser smallSb 0 alice K with e | ⟨r, K'⟩
  · rw [hdel] at hret
    cases hret
  · rw [hdel] at hret
    refine ⟨log, K, r, K', hr, hms, hrem, hdel, of_decide_eq_true hret,
      ((deleteUser_returns _ none fun ip hip => ?_).of_ok hdel hroot).2⟩
    simpa [hip] using hfile

end

end Xv6
