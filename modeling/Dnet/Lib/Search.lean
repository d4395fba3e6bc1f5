import Mathlib.Data.Finset.Card

/-!
# Breadth-first search

A point is marked when it enters the queue, so no point enters twice. Each round takes one
point from the queue: as many rounds as the search has points to find are enough, and it
then has marked what is reached from the start (`search_iff`). Points that were marked
before it began stop it.
-/

namespace Dnet.Lib

open List

section

variable {α : Type} {succ succ' : α → List α} {m m' : α → Bool} {rs : List α} {x y : α}

/-- Reached from `rs` past points that `m` does not mark. -/
inductive Reach (succ : α → List α) (m : α → Bool) (rs : List α) : α → Prop where
  | root {x : α} : x ∈ rs → m x = false → Reach succ m rs x
  | step {x y : α} : Reach succ m rs x → y ∈ succ x → m y = false → Reach succ m rs y

theorem Reach.unmarked (h : Reach succ m rs x) : m x = false := by
  cases h <;> assumption

theorem Reach.carry {U : α → Prop} (hrs : ∀ x ∈ rs, U x)
    (hU : ∀ x, U x → succ' x = succ x ∧ m' x = m x ∧ ∀ y ∈ succ x, U y) (h : Reach succ m rs x) :
    U x ∧ Reach succ' m' rs x := by
  induction h with
  | root hx hm => exact ⟨hrs _ hx, .root hx ((hU _ (hrs _ hx)).2.1.trans hm)⟩
  | step _ hy hm ih =>
    obtain ⟨hs, -, hclosed⟩ := hU _ ih.1
    have hUy := hclosed _ hy
    exact ⟨hUy, .step ih.2 (hs ▸ hy) ((hU _ hUy).2.1.trans hm)⟩

/-- The points of `U` that are left to find. -/
def unmarked (U : Finset α) (m : α → Bool) : Nat := (U.filter (m · = false)).card

/-- What visiting the points of `l` does. -/
structure Visits (U : Finset α) (m : α → Bool) (q l : List α) (st : (α → Bool) × List α) :
    Prop where
  marks : ∀ x, st.1 x = true ↔ m x = true ∨ x ∈ l
  queue : ∀ x, x ∈ st.2 ↔ x ∈ q ∨ x ∈ l ∧ m x = false
  count : st.2.length + unmarked U st.1 ≤ q.length + unmarked U m

variable {U : Finset α} {q l : List α} {st : (α → Bool) × List α}

/-- Visiting `l` moves its points from the start of the search into the queue. -/
theorem Visits.reach_iff (h : Visits U m q l st) :
    st.1 y = true ∨ Reach succ st.1 (st.2.flatMap succ) y ↔
      m y = true ∨ Reach succ m (l ++ q.flatMap succ) y := by
  have hfalse {z : α} (hz : st.1 z = false) : m z = false := by
    cases hm : m z with
    | false => rfl
    | true => exact absurd ((h.marks z).mpr (.inl hm)) (by simp [hz])
  constructor
  · rintro (hy | hy)
    · rcases (h.marks y).mp hy with hy | hy
      · exact .inl hy
      · cases hm : m y with
        | true => exact .inl rfl
        | false => exact .inr (.root (mem_append_left _ hy) hm)
    · refine .inr ?_
      induction hy with
      | root hz hm =>
        obtain ⟨u, hu, hz⟩ := mem_flatMap.mp hz
        rcases (h.queue u).mp hu with hu | ⟨hu, hmu⟩
        · exact .root (mem_append_right _ (mem_flatMap.mpr ⟨u, hu, hz⟩)) (hfalse hm)
        · exact .step (.root (mem_append_left _ hu) hmu) hz (hfalse hm)
      | step _ hz hm ih => exact .step ih hz (hfalse hm)
  · rintro (hy | hy)
    · exact .inl ((h.marks y).mpr (.inl hy))
    · induction hy with
      | @root z hz _ =>
        cases hs : st.1 z with
        | true => exact .inl rfl
        | false =>
          rcases mem_append.mp hz with hz | hz
          · exact absurd ((h.marks z).mpr (.inr hz)) (by simp [hs])
          · obtain ⟨u, hu, hz⟩ := mem_flatMap.mp hz
            exact .inr (.root (mem_flatMap.mpr ⟨u, (h.queue u).mpr (.inl hu), hz⟩) hs)
      | @step u z hu hz _ ih =>
        cases hs : st.1 z with
        | true => exact .inl rfl
        | false =>
          rcases ih with hmu | ih
          -- `u` is marked by this visit, so it is in the queue
          · have hul : u ∈ l := ((h.marks u).mp hmu).resolve_left (by simp [hu.unmarked])
            exact .inr (.root (mem_flatMap.mpr ⟨u, (h.queue u).mpr (.inr ⟨hul, hu.unmarked⟩), hz⟩) hs)
          · exact .inr (.step ih hz hs)

variable [DecidableEq α]

/-- Mark a point and queue it, unless it is marked. -/
def visit (st : (α → Bool) × List α) (x : α) : (α → Bool) × List α :=
  if st.1 x then st else (fun y => decide (y = x) || st.1 y, st.2 ++ [x])

def search (succ : α → List α) : Nat → (α → Bool) × List α → α → Bool
  | 0, st => st.1
  | _ + 1, (m, []) => m
  | fuel + 1, (m, x :: queue) => search succ fuel ((succ x).foldl visit (m, queue))

theorem unmarked_lt (hU : x ∈ U) (hx : m x = false) :
    unmarked U (fun y => decide (y = x) || m y) < unmarked U m := by
  refine Finset.card_lt_card (Finset.ssubset_iff_of_subset ?_ |>.mpr ⟨x, ?_, ?_⟩)
  · intro y hy
    simp only [Finset.mem_filter, Bool.or_eq_false_iff] at hy ⊢
    exact ⟨hy.1, hy.2.2⟩
  · exact Finset.mem_filter.mpr ⟨hU, hx⟩
  · simp

theorem visits (hl : ∀ x ∈ l, x ∈ U) : Visits U m q l (l.foldl visit (m, q)) := by
  induction l generalizing m q with
  | nil => exact ⟨by simp, by simp, le_rfl⟩
  | cons x l ih =>
    obtain ⟨hx, hl⟩ := forall_mem_cons.mp hl
    rw [foldl_cons]
    cases hm : m x with
    | true =>
      rw [visit, if_pos hm]
      obtain ⟨hmarks, hqueue, hcount⟩ := ih (m := m) (q := q) hl
      refine ⟨fun y => ?_, fun y => ?_, hcount⟩
      · rw [hmarks, mem_cons]
        by_cases hy : y = x <;> simp [hy, hm]
      · rw [hqueue, mem_cons]
        by_cases hy : y = x <;> simp [hy, hm]
    | false =>
      have hnew : visit (m, q) x = (fun y => decide (y = x) || m y, q ++ [x]) := if_neg (by simp [hm])
      obtain ⟨hmarks, hqueue, hcount⟩ :=
        ih (m := fun y => decide (y = x) || m y) (q := q ++ [x]) hl
      rw [hnew]
      refine ⟨fun y => ?_, fun y => ?_, ?_⟩
      · rw [hmarks, mem_cons]
        by_cases hy : y = x <;> simp [hy]
      · rw [hqueue, mem_cons]
        by_cases hy : y = x <;> simp [hy, hm]
      · have hlt := unmarked_lt hx hm
        rw [length_append, length_singleton] at hcount
        omega

theorem search_iff {fuel : Nat} (hU : ∀ x ∈ U, ∀ y ∈ succ x, y ∈ U) (hq : ∀ x ∈ q, x ∈ U)
    (hfuel : q.length + unmarked U m ≤ fuel) :
    search succ fuel (m, q) y = true ↔ m y = true ∨ Reach succ m (q.flatMap succ) y := by
  have hnil {m : α → Bool} : ¬Reach succ m [] y := by
    intro h
    induction h with
    | root hx => exact absurd hx not_mem_nil
    | step _ _ _ ih => exact ih
  induction fuel generalizing m q with
  | zero =>
    obtain rfl : q = [] := eq_nil_of_length_eq_zero (by omega)
    exact (or_iff_left hnil).symm
  | succ fuel ih =>
    cases q with
    | nil => exact (or_iff_left hnil).symm
    | cons x q =>
      obtain ⟨hx, hq⟩ := forall_mem_cons.mp hq
      have hv := visits (m := m) (q := q) (hU x hx)
      have hcount := hv.count
      rw [length_cons] at hfuel
      refine (ih (fun z hz => ?_) (by omega)).trans hv.reach_iff
      rcases (hv.queue z).mp hz with hz | hz
      · exact hq z hz
      · exact hU x hx z hz.1

theorem search_roots_iff {fuel : Nat} (hU : ∀ x ∈ U, ∀ y ∈ succ x, y ∈ U) (hrs : ∀ x ∈ rs, x ∈ U)
    (hfuel : U.card ≤ fuel) :
    search succ fuel (rs.foldl visit (m, [])) y = true ↔ m y = true ∨ Reach succ m rs y := by
  have hv := visits (m := m) (q := []) hrs
  have hcount : unmarked U m ≤ fuel := (Finset.card_filter_le _ _).trans hfuel
  refine (search_iff hU (fun z hz => ?_) (hv.count.trans (by simpa using hcount))).trans ?_
  · exact hrs z ((hv.queue z).mp hz |>.resolve_left not_mem_nil).1
  · exact hv.reach_iff.trans (by rw [flatMap_nil, append_nil])

end

end Dnet.Lib
