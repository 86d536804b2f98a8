/-
# Circular doubly linked lists

Nodes with two pointers each, `next` and `prev`, and a node of its own, the head, written `none`.
`Listed l L` says that the pointers go from the head through the nodes of `L`, in order, and back to
it, and that `prev` goes the same way backwards.

Taking a node out (`unlink`) and putting one in after the head (`link`) are assignments to single
pointers; what they make of a list does not depend on where in it the node is. `walk` is the loop
that looks for a node along one of the pointers.
-/
import Mathlib.Data.List.Chain
import Mathlib.Tactic

structure Links (α : Type) where
  next : Option α → Option α
  prev : Option α → Option α

namespace Links

open Function (update update_self update_of_ne)
open List (mem_cons_of_mem mem_cons_self cons_append dropLast_concat map_append map_cons
  append_assoc)

variable {α : Type} {fuel : ℕ}

/-- The two pointers between `u` and the node `v` after it. -/
def Edge (l : Links α) (u v : Option α) : Prop := l.next u = v ∧ l.prev v = u

/-- Once around. -/
def nodes (L : List α) : List (Option α) := none :: (L.map some ++ [none])

structure Listed (l : Links α) (L : List α) : Prop where
  nodup : L.Nodup
  chain : (nodes L).IsChain l.Edge

/-- `for(b = f(head); b != head; b = f(b)) if(test(b)) break;`, or `none` if it has not ended after
`fuel` rounds. -/
def walk (f : Option α → Option α) (test : α → Bool) : ℕ → Option α → Option (Option α)
  | 0, _ => none
  | _ + 1, none => some none
  | fuel + 1, some b => if test b then some (some b) else walk f test fuel (f (some b))

section

variable [DecidableEq α]

def setNext (l : Links α) (u v : Option α) : Links α := { l with next := update l.next u v }

def setPrev (l : Links α) (u v : Option α) : Links α := { l with prev := update l.prev u v }

/-- `b->next->prev = b->prev; b->prev->next = b->next;` -/
def unlink (l : Links α) (b : α) : Links α :=
  let l := l.setPrev (l.next (some b)) (l.prev (some b))
  l.setNext (l.prev (some b)) (l.next (some b))

/-- `b->next = head.next; b->prev = &head; head.next->prev = b; head.next = b;` -/
def link (l : Links α) (b : α) : Links α :=
  let l := l.setNext (some b) (l.next none)
  let l := l.setPrev (some b) none
  let l := l.setPrev (l.next none) (some b)
  l.setNext none (some b)

end

variable {l l' : Links α} {L : List α} {M : List (Option α)} {u v : Option α} {x : α}

/-! ### Nodes of a list -/

theorem nodup_sources (h : L.Nodup) : (none :: L.map some).Nodup :=
  List.nodup_cons.mpr ⟨by simp, h.map (Option.some_injective α)⟩

theorem nodup_targets (h : L.Nodup) : (L.map some ++ [none]).Nodup :=
  List.nodup_append.mpr ⟨h.map (Option.some_injective α), List.nodup_singleton _, by simp⟩

theorem chain_congr (h : M.IsChain l.Edge) (hn : ∀ u ∈ M.dropLast, l'.next u = l.next u)
    (hp : ∀ v ∈ M.tail, l'.prev v = l.prev v) : M.IsChain l'.Edge := by
  induction M with
  | nil => exact List.IsChain.nil
  | cons u M ih =>
    cases M with
    | nil => exact List.IsChain.singleton u
    | cons v M =>
      obtain ⟨huv, htail⟩ := List.isChain_cons_cons.mp h
      rw [List.dropLast_cons_cons] at hn
      refine List.isChain_cons_cons.mpr
        ⟨⟨?_, ?_⟩, ih htail (fun w hw => hn w (mem_cons_of_mem _ hw)) fun w hw => hp w ?_⟩
      · rw [hn u mem_cons_self, huv.1]
      · rw [hp v mem_cons_self, huv.2]
      · exact mem_cons_of_mem _ hw

theorem edge_of_source (h : M.IsChain l.Edge) (hu : u ∈ M.dropLast) : ∃ v, l.Edge u v := by
  induction M with
  | nil => cases hu
  | cons w M ih =>
    cases M with
    | nil => cases hu
    | cons v M =>
      obtain ⟨hwv, htail⟩ := List.isChain_cons_cons.mp h
      rcases List.mem_cons.mp hu with rfl | hu
      · exact ⟨v, hwv⟩
      · exact ih htail hu

theorem edge_of_target (h : M.IsChain l.Edge) (hv : v ∈ M.tail) : ∃ u, l.Edge u v := by
  induction M with
  | nil => cases hv
  | cons w M ih =>
    cases M with
    | nil => cases hv
    | cons v' M =>
      obtain ⟨hwv, htail⟩ := List.isChain_cons_cons.mp h
      rcases List.mem_cons.mp hv with rfl | hv
      · exact ⟨w, hwv⟩
      · exact ih htail hv

theorem dropLast_nodes : (nodes L).dropLast = none :: L.map some := by
  unfold nodes
  rw [← cons_append, dropLast_concat]

/-- The list with nothing in it: the head points at itself. -/
theorem listed_nil (hn : l.next none = none) (hp : l.prev none = none) : Listed l [] :=
  ⟨List.nodup_nil, List.isChain_cons_cons.mpr ⟨⟨hn, hp⟩, List.IsChain.singleton _⟩⟩

/-- In a list of all nodes the two pointers are inverse to each other. -/
theorem Listed.inverse (h : Listed l L) (hall : ∀ x, x ∈ L) (u : Option α) :
    l.prev (l.next u) = u ∧ l.next (l.prev u) = u := by
  have hsource : u ∈ (nodes L).dropLast := by
    rw [dropLast_nodes]
    cases u with
    | none => exact mem_cons_self
    | some x => exact mem_cons_of_mem _ (List.mem_map_of_mem (hall x))
  have htarget : u ∈ (nodes L).tail := by
    cases u with
    | none => exact List.mem_append_right _ (List.mem_singleton_self _)
    | some x => exact List.mem_append_left _ (List.mem_map_of_mem (hall x))
  obtain ⟨v, hnext, hprev⟩ := edge_of_source h.chain hsource
  obtain ⟨w, hnext', hprev'⟩ := edge_of_target h.chain htarget
  exact ⟨by rw [hnext, hprev], by rw [hprev', hnext']⟩

/-! ### Loops -/

theorem walk_next_of_chain (test : α → Bool) (h : (u :: (L.map some ++ [none])).IsChain l.Edge)
    (hfuel : L.length < fuel) : walk l.next test fuel (l.next u) = some (L.find? test) := by
  induction L generalizing u fuel with
  | nil =>
    obtain ⟨fuel, rfl⟩ : ∃ k, fuel = k + 1 := ⟨fuel - 1, by omega⟩
    rw [(List.isChain_cons_cons.mp h).1.1]
    rfl
  | cons x L ih =>
    rw [List.length_cons] at hfuel
    obtain ⟨fuel, rfl⟩ : ∃ k, fuel = k + 1 := ⟨fuel - 1, by omega⟩
    obtain ⟨hedge, htail⟩ := List.isChain_cons_cons.mp h
    rw [hedge.1, walk]
    by_cases hx : test x = true
    · rw [if_pos hx, List.find?_cons_of_pos hx]
    · rw [if_neg hx, List.find?_cons_of_neg hx]
      exact ih htail (by omega)

theorem Listed.walk_next (h : Listed l L) (test : α → Bool) (hfuel : L.length < fuel) :
    walk l.next test fuel (l.next none) = some (L.find? test) :=
  walk_next_of_chain test h.chain hfuel

/-- The other way around. -/
theorem Listed.swap (h : Listed l L) : Listed ⟨l.prev, l.next⟩ L.reverse := by
  have hrev : nodes L.reverse = (nodes L).reverse := by simp [nodes]
  refine ⟨List.nodup_reverse.mpr h.nodup, ?_⟩
  rw [hrev, List.isChain_reverse]
  exact h.chain.imp fun u v huv => ⟨huv.2, huv.1⟩

theorem Listed.walk_prev (h : Listed l L) (test : α → Bool) (hfuel : L.length < fuel) :
    walk l.prev test fuel (l.prev none) = some (L.reverse.find? test) :=
  h.swap.walk_next test (by rwa [List.length_reverse])

/-! ### Assignments -/

section

variable [DecidableEq α]

theorem next_setNext : (l.setNext u v).next = update l.next u v := rfl

theorem prev_setNext : (l.setNext u v).prev = l.prev := rfl

theorem next_setPrev : (l.setPrev u v).next = l.next := rfl

theorem prev_setPrev : (l.setPrev u v).prev = update l.prev u v := rfl

/-- A node between `p` and `n` is taken out, where `p` and `n` are at no other place. -/
theorem chain_unlink {A C : List (Option α)} {p n : Option α}
    (h : (A ++ p :: some x :: n :: C).IsChain l.Edge) (hA : ∀ u ∈ A, u ≠ p)
    (hA' : ∀ v ∈ (A ++ [p]).tail, v ≠ n) (hC : ∀ u ∈ (n :: C).dropLast, u ≠ p)
    (hC' : ∀ v ∈ C, v ≠ n) (hn : n ≠ some x) : (A ++ p :: n :: C).IsChain (l.unlink x).Edge := by
  obtain ⟨hleft, hpx, hrest⟩ := List.isChain_append_cons_cons.mp h
  obtain ⟨hxn, hright⟩ := List.isChain_cons_cons.mp hrest
  have hnext : (l.unlink x).next = update l.next p n := by
    unfold unlink
    dsimp only
    rw [next_setNext, next_setPrev, prev_setPrev, hxn.1, hpx.2, update_of_ne hn.symm, hpx.2]
  have hprev : (l.unlink x).prev = update l.prev n p := by
    unfold unlink
    dsimp only
    rw [prev_setNext, prev_setPrev, hxn.1, hpx.2]
  refine List.isChain_append_cons_cons.mpr ⟨chain_congr hleft ?_ ?_, ⟨?_, ?_⟩, chain_congr hright ?_ ?_⟩
  · intro u hu
    rw [dropLast_concat] at hu
    rw [hnext, update_of_ne (hA u hu)]
  · intro v hv
    rw [hprev, update_of_ne (hA' v hv)]
  · rw [hnext, update_self]
  · rw [hprev, update_self]
  · intro u hu
    rw [hnext, update_of_ne (hC u hu)]
  · intro v hv
    rw [hprev, update_of_ne (hC' v hv)]

theorem Listed.unlink {L1 L2 : List α} (h : Listed l (L1 ++ x :: L2)) :
    Listed (l.unlink x) (L1 ++ L2) := by
  -- the nodes around `x`; either may be the head
  obtain ⟨A, p, hAp⟩ : ∃ A p, none :: L1.map some = A ++ [p] :=
    ⟨_, _, (List.dropLast_append_getLast (List.cons_ne_nil _ _)).symm⟩
  obtain ⟨n, C, hnC⟩ : ∃ n C, L2.map some ++ [none] = n :: C := List.exists_cons_of_ne_nil (by simp)
  have hnodes : nodes (L1 ++ x :: L2) = A ++ p :: some x :: n :: C := by
    unfold nodes
    rw [map_append, map_cons, append_assoc, cons_append, hnC,
      ← cons_append, hAp, append_assoc]
    rfl
  have hnodes' : nodes (L1 ++ L2) = A ++ p :: n :: C := by
    unfold nodes
    rw [map_append, append_assoc, hnC, ← cons_append, hAp, append_assoc]
    rfl
  have hs : (A ++ [p] ++ some x :: L2.map some).Nodup := by
    have := nodup_sources h.nodup
    rwa [map_append, map_cons, ← cons_append, hAp] at this
  have ht : (L1.map some ++ some x :: n :: C).Nodup := by
    have := nodup_targets h.nodup
    rwa [map_append, map_cons, append_assoc, cons_append, hnC] at this
  have htail : (A ++ [p]).tail = L1.map some := by rw [← hAp, List.tail_cons]
  have hlast : (n :: C).dropLast = L2.map some := by rw [← hnC, dropLast_concat]
  obtain ⟨hs1, hs2, hs12⟩ := List.nodup_append.mp hs
  obtain ⟨-, ht2, ht12⟩ := List.nodup_append.mp ht
  obtain ⟨hx, ht2⟩ := List.nodup_cons.mp ht2
  refine ⟨h.nodup.sublist (List.Sublist.append_left (List.sublist_cons_self x L2) L1), ?_⟩
  rw [hnodes']
  refine chain_unlink (hnodes ▸ h.chain) (fun u hu => ?_) (fun v hv => ?_) (fun u hu => ?_)
    (fun v hv => ?_) fun hnx => ?_
  · exact (List.nodup_append.mp hs1).2.2 u hu p (List.mem_singleton_self p)
  · exact ht12 v (htail ▸ hv) n (mem_cons_of_mem _ mem_cons_self)
  · rw [hlast] at hu
    exact (hs12 p (List.mem_append_right _ (List.mem_singleton_self p)) u
      (mem_cons_of_mem _ hu)).symm
  · exact fun hvn => (List.nodup_cons.mp ht2).1 (hvn ▸ hv)
  · exact hx (hnx ▸ mem_cons_self)

theorem Listed.link (h : Listed l L) (hx : x ∉ L) : Listed (l.link x) (x :: L) := by
  obtain ⟨n, C, hnC⟩ : ∃ n C, L.map some ++ [none] = n :: C := List.exists_cons_of_ne_nil (by simp)
  have hchain : (none :: n :: C).IsChain l.Edge := by
    have := h.chain
    unfold nodes at this
    rwa [hnC] at this
  obtain ⟨hedge, hrest⟩ := List.isChain_cons_cons.mp hchain
  have hmem : some x ∉ n :: C := by
    rw [← hnC]
    simpa using hx
  have hlast : (n :: C).dropLast = L.map some := by rw [← hnC, dropLast_concat]
  have hnext : (l.link x).next = update (update l.next (some x) n) none (some x) := by
    unfold Links.link
    dsimp only
    rw [next_setNext, next_setPrev, next_setPrev, next_setNext, hedge.1]
  have hprev : (l.link x).prev = update (update l.prev (some x) none) n (some x) := by
    unfold Links.link
    dsimp only
    rw [prev_setNext, prev_setPrev, prev_setPrev, prev_setNext, next_setPrev, next_setNext,
      update_of_ne (by simp), hedge.1]
  refine ⟨List.nodup_cons.mpr ⟨hx, h.nodup⟩, ?_⟩
  unfold nodes
  rw [map_cons, cons_append, hnC]
  refine List.isChain_cons_cons.mpr
    ⟨⟨?_, ?_⟩, List.isChain_cons_cons.mpr ⟨⟨?_, ?_⟩, chain_congr hrest ?_ ?_⟩⟩
  · rw [hnext, update_self]
  · have hxn : some x ≠ n := fun hxn => hmem (hxn ▸ mem_cons_self)
    rw [hprev, update_of_ne hxn, update_self]
  · rw [hnext, update_of_ne (by simp), update_self]
  · rw [hprev, update_self]
  · intro u hu
    rw [hlast] at hu
    obtain ⟨y, hy, rfl⟩ := List.mem_map.mp hu
    have hyx : some y ≠ some x := fun hyx => hx (Option.some.inj hyx ▸ hy)
    rw [hnext, update_of_ne (by simp), update_of_ne hyx]
  · intro v hv
    have hnodup : (n :: C).Nodup := hnC ▸ nodup_targets h.nodup
    have hvn : v ≠ n := fun hvn => (List.nodup_cons.mp hnodup).1 (hvn ▸ hv)
    have hvx : v ≠ some x := fun hvx => hmem (hvx ▸ mem_cons_of_mem _ hv)
    rw [hprev, update_of_ne hvn, update_of_ne hvx]

/-- A node moves to the front. -/
theorem Listed.move (h : Listed l L) (hx : x ∈ L) : Listed ((l.unlink x).link x) (x :: L.erase x) := by
  obtain ⟨L1, L2, hL⟩ := List.append_of_mem hx
  have hnodup : (L1 ++ x :: L2).Nodup := hL ▸ h.nodup
  have hx1 : x ∉ L1 := fun hx => (List.nodup_append.mp hnodup).2.2 x hx x mem_cons_self rfl
  have herase : L.erase x = L1 ++ L2 := by rw [hL, List.erase_append_right _ hx1, List.erase_cons_head]
  have hout : x ∉ L1 ++ L2 := herase ▸ h.nodup.not_mem_erase
  rw [herase]
  exact (hL ▸ h).unlink.link hout

end

end Links
