import Mathlib.Data.List.Nodup

/-!
# Depth-first order

A list of nodes of a graph is the *depth-first order* from a root when it starts with the root,
every other entry is the first unlisted successor of the latest node before it that has one, and
no node has an unlisted successor at the end. There is at most one such list
(`DepthFirst.unique`). A traversal with a stack, which skips what it has visited when it pops it,
computes that list (`Growing`).
-/

namespace Dnet.Lib

open List

variable {α : Type} {succ : α → List α}

section

variable [DecidableEq α] {root : α}

/-- The first unlisted successor of the latest node that has one. -/
def nextUnlisted (succ : α → List α) (l : List α) : Option α :=
  l.reverse.findSome? fun u => (succ u).find? (· ∉ l)

structure DepthFirst (succ : α → List α) (root : α) (l : List α) : Prop where
  head : l.head? = some root
  step : ∀ t, 0 < t → t < l.length → nextUnlisted succ (l.take t) = l[t]?
  complete : nextUnlisted succ l = none

/-- After `t` entries a second order has the same next entry, or has ended too. -/
theorem DepthFirst.next_eq {l : List α} (h : DepthFirst succ root l) {t : Nat}
    (ht : 0 < t) : nextUnlisted succ (l.take t) = l[t]? := by
  rcases Nat.lt_or_ge t l.length with hlt | hge
  · exact h.step t ht hlt
  · rw [take_of_length_le hge, h.complete, getElem?_eq_none hge]

theorem DepthFirst.unique {l l' : List α} (h : DepthFirst succ root l)
    (h' : DepthFirst succ root l') : l = l' := by
  have htake (t : Nat) : l.take t = l'.take t := by
    induction t with
    | zero => rfl
    | succ t ih =>
      have hget : l[t]? = l'[t]? := by
        cases t with
        | zero => rw [← head?_eq_getElem?, ← head?_eq_getElem?, h.head, h'.head]
        | succ t => rw [← h.next_eq t.succ_pos, ← h'.next_eq t.succ_pos, ih]
      rw [take_add_one, take_add_one, ih, hget]
  have hlong := htake (l.length + l'.length)
  rwa [take_of_length_le (Nat.le_add_right _ _), take_of_length_le (Nat.le_add_left _ _)] at hlong

/-- What a listed node leads to is listed. -/
theorem DepthFirst.closed {l : List α} (h : DepthFirst succ root l) {u x : α} (hu : u ∈ l)
    (hx : x ∈ succ u) : x ∈ l := by
  have hnone := findSome?_eq_none_iff.mp h.complete u (mem_reverse.mpr hu)
  have := find?_eq_none.mp hnone x hx
  simpa using this

end

/-! ## Stacks -/

/-- The stack holds, for the nodes in order, the rest of the successors of each; those before
the rest are listed in `l`. -/
inductive Pending (succ : α → List α) (l : List α) : List α → List α → Prop where
  | nil : Pending succ l [] []
  | cons {u : α} {us before rest s : List α} : succ u = before ++ rest → (∀ x ∈ before, x ∈ l) →
      Pending succ l us s → Pending succ l (u :: us) (rest ++ s)

namespace Pending

variable {l us s : List α} {x : α}

theorem mono {l' : List α} (h : Pending succ l us s) (hl : l ⊆ l') : Pending succ l' us s := by
  induction h with
  | nil => exact .nil
  | cons hsucc hbefore _ ih => exact .cons hsucc (fun y hy => hl (hbefore y hy)) ih

theorem next_eq [DecidableEq α] (h : Pending succ l us s) :
    us.findSome? (fun u => (succ u).find? (· ∉ l)) = s.find? (· ∉ l) := by
  induction h with
  | nil => rfl
  | @cons u us before rest s hsucc hbefore _ ih =>
    have hskip : before.find? (· ∉ l) = none :=
      find?_eq_none.mpr fun y hy => by simpa using hbefore y hy
    rw [findSome?_cons, hsucc, find?_append, find?_append, hskip, Option.none_or, ih]
    cases rest.find? (· ∉ l) <;> rfl

theorem pop (h : Pending succ l us (x :: s)) (hx : x ∈ l) : Pending succ l us s := by
  generalize hs : x :: s = s0 at h
  induction h generalizing s with
  | nil => cases hs
  | @cons u us before rest s1 hsucc hbefore hrest ih =>
    cases rest with
    | nil =>
      rw [nil_append] at hs
      have htail := ih hs
      rw [← nil_append s]
      exact .cons hsucc hbefore htail
    | cons y rest =>
      obtain ⟨rfl, rfl⟩ := cons.inj hs
      have hsplit : succ u = (before ++ [x]) ++ rest := by
        rw [hsucc, append_assoc, singleton_append]
      refine .cons hsplit (fun z hz => ?_) hrest
      · rcases mem_append.mp hz with hz | hz
        · exact hbefore z hz
        · exact mem_singleton.mp hz ▸ hx

end Pending

/-! ## A traversal -/

section

variable [DecidableEq α]

/-- A traversal that has listed `l` and has the stack `s`. -/
structure Growing (succ : α → List α) (root : α) (l s : List α) : Prop where
  head : l.head? = some root
  step : ∀ t, 0 < t → t < l.length → nextUnlisted succ (l.take t) = l[t]?
  pending : Pending succ l l.reverse s
  nodup : l.Nodup

namespace Growing

variable {root x : α} {l s : List α}

theorem first (succ : α → List α) (root : α) : Growing succ root [root] (succ root) where
  head := rfl
  step t h0 ht := absurd ht (Nat.not_lt.mpr h0)
  pending := by
    rw [← append_nil (succ root)]
    exact .cons (nil_append _).symm (fun _ hx => absurd hx not_mem_nil) .nil
  nodup := nodup_singleton root

theorem visit (h : Growing succ root l (x :: s)) (hx : x ∉ l) :
    Growing succ root (l ++ [x]) (succ x ++ s) where
  head := by
    rw [head?_append, h.head]
    rfl
  step t h0 ht := by
    rw [length_append, length_singleton, Nat.lt_succ_iff] at ht
    rcases Nat.lt_or_eq_of_le ht with hlt | rfl
    · rw [take_append_of_le_length (Nat.le_of_lt hlt), getElem?_append_left hlt]
      exact h.step t h0 hlt
    · have hnext : nextUnlisted succ l = some x := by
        rw [nextUnlisted, h.pending.next_eq, find?_cons_of_pos (by simpa using hx)]
      rw [take_left, hnext, getElem?_concat_length]
  pending := by
    rw [reverse_append, reverse_singleton, singleton_append]
    have hlist : l ⊆ l ++ [x] := subset_append_left l [x]
    exact .cons (nil_append _).symm (fun _ hx => absurd hx not_mem_nil)
      ((h.pending.mono hlist).pop (mem_append_right l mem_cons_self))
  nodup := nodup_append.mpr ⟨h.nodup, nodup_singleton x, fun y hy z hz =>
    mem_singleton.mp hz ▸ fun he => hx (he ▸ hy)⟩

theorem done (h : Growing succ root l []) : DepthFirst succ root l where
  head := h.head
  step := h.step
  complete := by
    rw [nextUnlisted, h.pending.next_eq]
    rfl

end Growing

end

end Dnet.Lib
