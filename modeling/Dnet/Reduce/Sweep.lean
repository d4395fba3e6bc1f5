import Dnet.Lib.Search
import Dnet.Reduce.Effect

/-!
# Erasure canonicalization

C1 searches the net from its named roots, with the marks of the search in the slots, and
retires the live slots that it did not find (`c1MarkSweep_eq`). On a net without stale
marks or dangling ports it keeps exactly what the roots reach (`c1MarkSweep_exact`).
-/

namespace Dnet

open Lib List

namespace Net

/-! ## The search -/

/-- `n` with the marks `m`. -/
def marked (n : Net) (m : Nat → Bool) : Net :=
  { n with arena := { n.arena with slots := fun i => { n.arena.slots i with c1Mark := m i } } }

def marks (n : Net) (i : Nat) : Bool := (n.arena.slots i).c1Mark

/-- The slots next to slot `i`. -/
def next (n : Net) (i : Nat) : List Nat :=
  [(n.arena.slots i).principal.slotIdx, (n.arena.slots i).aux0.slotIdx,
    (n.arena.slots i).aux1.slotIdx].filter (· ≠ 0)

def roots (n : Net) : List Nat := (n.freeSlots.map (·.2.slotIdx)).filter (· ≠ 0)

/-- The marks that the sweep finds. -/
def found (n : Net) : Nat → Bool :=
  search n.next n.arena.slotCount (n.roots.foldl visit (n.marks, []))

section

variable {n : Net} {m : Nat → Bool} {i : Nat} {is q : List Nat}

theorem modifySlot_marked (b : Bool) : (n.marked m).modifySlot i (fun s => { s with c1Mark := b }) =
    n.marked (fun j => if j = i then b else m j) := by
  unfold modifySlot marked Arena.setSlot
  congr 2
  funext j
  by_cases h : j = i <;> simp [h]

theorem c1Mark_marked : c1Mark (n.marked m, q) i =
    if i ≠ 0 then (n.marked (visit (m, q) i).1, (visit (m, q) i).2) else (n.marked m, q) := by
  unfold c1Mark visit
  by_cases hi : i = 0
  · simp [hi]
  · cases hm : m i with
    | true => simp [hi, hm, marked]
    | false =>
      rw [if_pos ⟨hi, hm⟩, if_pos hi, if_neg (by simp [hm]), modifySlot_marked]
      simp only [Prod.mk.injEq, and_true]
      congr 1
      funext j
      by_cases hj : j = i <;> simp [hj]

theorem c1Marks_marked : is.foldl c1Mark (n.marked m, q) =
    (n.marked ((is.filter (· ≠ 0)).foldl visit (m, q)).1,
      ((is.filter (· ≠ 0)).foldl visit (m, q)).2) := by
  induction is generalizing m q with
  | nil => rfl
  | cons i is ih =>
    rw [foldl_cons, c1Mark_marked]
    by_cases hi : i = 0
    · simpa [hi] using ih
    · simpa [hi] using ih

theorem c1Bfs_marked {fuel : Nat} :
    c1Bfs fuel (n.marked m, q) = n.marked (search n.next fuel (m, q)) := by
  induction fuel generalizing m q with
  | zero => rfl
  | succ fuel ih =>
    cases q with
    | nil => rfl
    | cons i q =>
      rw [c1Bfs, c1Marks_marked, ih]
      rfl

theorem c1MarkSweep_eq (n : Net) : n.c1MarkSweep =
    { n.arena.liveList.foldl c1SweepSlot (n.marked n.found) with pendingC1 := false } := by
  unfold c1MarkSweep
  rw [show n = n.marked n.marks from rfl, c1Marks_marked]
  dsimp only
  rw [c1Bfs_marked]
  rfl

/-! ## The sweep -/

theorem retire_marked : (n.marked m).retire i = (n.retire i).marked m := by
  unfold retire Arena.retireSlot Arena.unlist marked
  dsimp only
  split <;> rfl

/-- Sweeping distinct slots retires the unmarked ones and clears the marks of the others. -/
theorem c1SweepSlots_marked (hnd : is.Nodup) : is.foldl c1SweepSlot (n.marked m) =
    ((is.filter (!m ·)).foldl retire n).marked (fun j => m j && decide (j ∉ is)) := by
  induction is generalizing n m with
  | nil => simp
  | cons i is ih =>
    obtain ⟨hi, hnd⟩ := nodup_cons.mp hnd
    rw [foldl_cons, c1SweepSlot]
    cases hm : m i with
    | true =>
      rw [if_pos (show ((n.marked m).arena.slots i).c1Mark = true from hm), modifySlot_marked,
        ih hnd, filter_cons_of_neg (by simp [hm])]
      congr 2
      · refine filter_congr fun j hj => ?_
        rw [if_neg fun e : j = i => hi (e ▸ hj)]
      · funext j
        by_cases hj : j = i <;> simp [hj]
    | false =>
      rw [if_neg (by simp [marked, hm]), retire_marked, ih hnd, filter_cons_of_pos (by simp [hm])]
      congr 1
      funext j
      by_cases hj : j = i <;> simp [hj, hm]

theorem freeList_retireAll : (is.foldl retire n).arena.freeList = is.reverse ++ n.arena.freeList := by
  induction is generalizing n with
  | nil => rfl
  | cons i is ih =>
    rw [foldl_cons, ih, reverse_cons, append_assoc]
    rfl

/-- The net after C1. -/
structure Swept (n n' : Net) : Prop where
  wf : n'.arena.WF
  isLive : ∀ i, n'.arena.isLive i = (n.arena.isLive i && n.found i)
  slots : ∀ i, n'.arena.slots i =
    { n.arena.slots i with c1Mark := n.found i && !n.arena.isLive i }
  freeList : n'.arena.freeList = (n.arena.liveList.filter (!n.found ·)).reverse ++ n.arena.freeList
  frontier1 : n'.frontier1 = n.frontier1
  freeSlots : n'.freeSlots = n.freeSlots
  pendingC1 : n'.pendingC1 = false

theorem swept_c1MarkSweep (hwf : n.arena.WF) : Swept n n.c1MarkSweep := by
  rw [c1MarkSweep_eq, c1SweepSlots_marked hwf.liveList_nodup]
  obtain ⟨hwf', hlive⟩ := retireAll_wf hwf (hwf.liveList_nodup.filter (!n.found ·))
    fun i hi => hwf.mem_liveList.mp (mem_filter.mp hi).1
  obtain ⟨a, ha⟩ := retireAll_frame (n.arena.liveList.filter (!n.found ·)) n
  refine ⟨hwf'.grow 0, fun i => (hlive i).trans ?_, fun i => ?_, freeList_retireAll, ?_, ?_, rfl⟩
  · cases hl : n.arena.isLive i <;> simp [hwf.mem_liveList, hl]
  · simp [marked, hwf.mem_liveList]
  · simp [marked, ha]
  · simp [marked, ha]

theorem Swept.portAt {n' : Net} (h : Swept n n') (c : Nat × PortKind) : n'.portAt c = n.portAt c := by
  rw [Net.portAt, Net.portAt, h.slots]
  cases c.2 <;> rfl

/-- With one round for each slot the search finds what the roots reach. -/
theorem found_iff {U : Finset Nat} (hU : ∀ i ∈ U, ∀ j ∈ n.next i, j ∈ U)
    (hrs : ∀ i ∈ n.roots, i ∈ U) (hb : ∀ i ∈ U, i < n.arena.slotCount) :
    n.found i = true ↔ n.marks i = true ∨ Reach n.next n.marks n.roots i := by
  have hcard := Finset.card_le_card fun i hi => Finset.mem_range.mpr (hb i hi)
  rw [Finset.card_range] at hcard
  exact search_roots_iff hU hrs hcard

theorem mem_next {j : Nat} : j ∈ n.next i ↔ j ≠ 0 ∧ ∃ k, (n.portAt (i, k)).slotIdx = j := by
  unfold next
  simp only [mem_filter, mem_cons, not_mem_nil, or_false, decide_eq_true_eq, and_comm]
  refine and_congr_right fun _ => ⟨?_, ?_⟩
  · rintro (h | h | h)
    · exact ⟨.principal, h.symm⟩
    · exact ⟨.aux0, h.symm⟩
    · exact ⟨.aux1, h.symm⟩
  · rintro ⟨k | k | k, rfl⟩ <;> simp [portAt, Slot.port]

/-! ## What is kept -/

/-- The ports of live slots and the roots lead to live slots, eraser and unused ports apart,
and no live slot has a mark left. -/
structure Tidy (n : Net) : Prop where
  wf : n.arena.WF
  unmarked : ∀ i, n.arena.isLive i = true → n.marks i = false
  port : ∀ i k, n.arena.isLive i = true → n.portAt (i, k) = .era ∨ n.portAt (i, k) = .null ∨
    (n.portAt (i, k)).isReal = true ∧ n.arena.isLive (n.portAt (i, k)).slotIdx = true
  root : ∀ e ∈ n.freeSlots, e.2.isReal = true ∧ n.arena.isLive e.2.slotIdx = true

namespace Tidy

section

variable (h : Tidy n)
include h

theorem live (hi : n.Reached (n.freeSlots.map (·.2)) i) : n.arena.isLive i = true := by
  induction hi with
  | root hp _ =>
    obtain ⟨e, he, rfl⟩ := mem_map.mp hp
    exact (h.root e he).2
  | @step i k _ hreal ih =>
    rcases h.port i k ih with hp | hp | hp
    · simp [hp] at hreal
    · simp [hp] at hreal
    · exact hp.2

theorem next (hi : n.arena.isLive i = true) {j : Nat} (hj : j ∈ n.next i) :
    n.arena.isLive j = true ∧ ∃ k, (n.portAt (i, k)).isReal = true ∧ (n.portAt (i, k)).slotIdx = j := by
  obtain ⟨hj, k, rfl⟩ := mem_next.mp hj
  rcases h.port i k hi with hp | hp | hp
  · exact absurd (by rw [hp]; rfl) hj
  · exact absurd (by rw [hp]; rfl) hj
  · exact ⟨hp.2, k, hp.1, rfl⟩

theorem mem_roots {j : Nat} :
    j ∈ n.roots ↔ ∃ p ∈ n.freeSlots.map (·.2), p.isReal = true ∧ p.slotIdx = j := by
  simp only [roots, mem_filter, mem_map, decide_eq_true_eq]
  constructor
  · rintro ⟨⟨e, he, rfl⟩, -⟩
    exact ⟨e.2, ⟨e, he, rfl⟩, (h.root e he).1, rfl⟩
  · rintro ⟨p, ⟨e, he, rfl⟩, -, rfl⟩
    exact ⟨⟨e, he, rfl⟩, (h.wf.live_bound _ (h.root e he).2).1.ne'⟩

theorem reach_iff : Reach n.next n.marks n.roots i ↔ n.Reached (n.freeSlots.map (·.2)) i := by
  constructor
  · intro hi
    induction hi with
    | root hi _ =>
      obtain ⟨p, hp, hreal, rfl⟩ := h.mem_roots.mp hi
      exact .root hp hreal
    | step _ hj _ ih =>
      obtain ⟨-, k, hreal, rfl⟩ := h.next (h.live ih) hj
      exact .step ih hreal
  · intro hi
    have hmark := h.unmarked _ (h.live hi)
    induction hi with
    | root hp hreal => exact .root (h.mem_roots.mpr ⟨_, hp, hreal, rfl⟩) hmark
    | @step i k hi hreal ih =>
      have hpos := (h.wf.live_bound _ (h.live (.step hi hreal))).1.ne'
      exact .step (ih (h.unmarked _ (h.live hi))) (mem_next.mpr ⟨hpos, k, rfl⟩) hmark

theorem found_iff : n.found i = true ↔ n.marks i = true ∨ n.Reached (n.freeSlots.map (·.2)) i := by
  have hmem {j : Nat} : j ∈ n.arena.liveList.toFinset ↔ n.arena.isLive j = true := by
    rw [mem_toFinset, h.wf.mem_liveList]
  rw [← h.reach_iff]
  refine Net.found_iff (U := n.arena.liveList.toFinset) ?_ ?_ ?_
  · exact fun i hi j hj => hmem.mpr (h.next (hmem.mp hi) hj).1
  · intro i hi
    obtain ⟨p, hp, hreal, rfl⟩ := h.mem_roots.mp hi
    exact hmem.mpr (h.live (.root hp hreal))
  · exact fun i hi => (h.wf.live_bound i (hmem.mp hi)).2

/-- Where C1 finds every live slot there is nothing to sweep. -/
theorem c1MarkSweep_all
    (hall : ∀ i, n.arena.isLive i = true → n.Reached (n.freeSlots.map (·.2)) i) :
    n.c1MarkSweep = { n with pendingC1 := false } := by
  have hfound : ∀ i ∈ n.arena.liveList, n.found i = true := fun i hi =>
    h.found_iff.mpr (.inr (hall i (h.wf.mem_liveList.mp hi)))
  have hmarks : (fun i => n.found i && decide (i ∉ n.arena.liveList)) = n.marks := by
    funext i
    rw [Bool.eq_iff_iff, Bool.and_eq_true, decide_eq_true_eq, h.found_iff, h.wf.mem_liveList]
    refine ⟨fun hi => hi.1.resolve_right fun hr => hi.2 (h.live hr), fun hi => ⟨.inl hi, fun hl => ?_⟩⟩
    rw [h.unmarked i hl] at hi
    cases hi
  rw [c1MarkSweep_eq, c1SweepSlots_marked h.wf.liveList_nodup, hmarks,
    filter_eq_nil_iff.mpr fun i hi => by simp [hfound i hi]]
  rfl

theorem isLive_iff : n.c1MarkSweep.arena.isLive i = true ↔
    n.arena.isLive i = true ∧ n.Reached (n.freeSlots.map (·.2)) i := by
  rw [(swept_c1MarkSweep h.wf).isLive, Bool.and_eq_true]
  refine and_congr_right fun hi => ?_
  simp [h.found_iff, h.unmarked i hi]

theorem slots_eq (hi : n.c1MarkSweep.arena.isLive i = true) :
    n.c1MarkSweep.arena.slots i = n.arena.slots i := by
  have hl := (h.isLive_iff.mp hi).1
  rw [(swept_c1MarkSweep h.wf).slots, hl, Bool.not_true, Bool.and_false, ← h.unmarked i hl]
  rfl

/-- C1 leaves a tidy net, with nothing that the roots do not reach. -/
theorem sweep : Tidy n.c1MarkSweep ∧ ∀ i, n.c1MarkSweep.arena.isLive i = true →
    n.c1MarkSweep.Reached (n.c1MarkSweep.freeSlots.map (·.2)) i := by
  have hs := swept_c1MarkSweep h.wf
  refine ⟨⟨hs.wf, fun i hi => ?_, fun i k hi => ?_, fun e he => ?_⟩, fun i hi => ?_⟩
  · rw [marks, h.slots_eq hi]
    exact h.unmarked i (h.isLive_iff.mp hi).1
  · obtain ⟨hl, hr⟩ := h.isLive_iff.mp hi
    rw [hs.portAt]
    refine (h.port i k hl).imp_right (Or.imp_right fun hp => ⟨hp.1, ?_⟩)
    exact h.isLive_iff.mpr ⟨hp.2, .step hr hp.1⟩
  · rw [hs.freeSlots] at he
    obtain ⟨hreal, hl⟩ := h.root e he
    exact ⟨hreal, h.isLive_iff.mpr ⟨hl, .root (mem_map_of_mem he) hreal⟩⟩
  · have hr := (h.isLive_iff.mp hi).2
    rw [hs.freeSlots]
    exact (hr.carry (U := fun _ => True) (fun _ _ => trivial) fun j k _ => ⟨hs.portAt _, trivial⟩).2

end

end Tidy

/-- C1 on a tidy net. -/
theorem c1MarkSweep_exact (h : Tidy n) : (∀ i, n.c1MarkSweep.arena.isLive i = true ↔
        n.arena.isLive i = true ∧ n.Reached (n.freeSlots.map (·.2)) i) ∧
      (∀ i, i ∈ n.c1MarkSweep.arena.freeList ↔ i ∈ n.arena.freeList ∨
        n.arena.isLive i = true ∧ ¬n.Reached (n.freeSlots.map (·.2)) i) ∧
      (∀ i, n.c1MarkSweep.arena.isLive i = true →
        n.c1MarkSweep.arena.slots i = n.arena.slots i ∧
          (n.c1MarkSweep.arena.slots i).c1Mark = false) ∧
      n.c1MarkSweep.pendingC1 = false ∧ n.c1MarkSweep.c1MarkSweep = n.c1MarkSweep := by
  have hs := swept_c1MarkSweep h.wf
  obtain ⟨htidy, hall⟩ := h.sweep
  refine ⟨fun i => h.isLive_iff, fun i => ?_, fun i hi => ⟨h.slots_eq hi, htidy.unmarked i hi⟩,
    hs.pendingC1, ?_⟩
  · rw [hs.freeList, mem_append, mem_reverse, mem_filter, h.wf.mem_liveList, or_comm]
    refine or_congr_right (and_congr_right fun hi => ?_)
    rw [Bool.not_eq_true', ← Bool.not_eq_true, h.found_iff, h.unmarked i hi]
    simp
  · rw [htidy.c1MarkSweep_all hall, ← hs.pendingC1]

end

/-- A root wired to slot 2, and slot 3 that nothing reaches. -/
def litter : Net :=
  let a := { Arena.new 8 with slotCount := 4 }
  let n := { Net.new 8 with arena := ((a.pushLive 1).pushLive 2).pushLive 3, pendingC1 := true }
  (n.linkNoPair (.new 1 .principal false) (.new 2 .principal false)).addRoot "main"
    (.new 1 .principal false)

theorem tidy_litter : Tidy litter := by
  have hnew : { Arena.new 8 with slotCount := 4 }.WF := (Arena.WF.new 8).grow 3
  have h1 := hnew.pushLive (i := 1) rfl (by decide) not_mem_nil
  have h3 := (h1.pushLive (i := 2) rfl (by decide) not_mem_nil).pushLive (i := 3) rfl (by decide)
    not_mem_nil
  have hwf : litter.arena.WF := wf_writePort _ _ (wf_writePort _ _ h3)
  have hlive (i : Nat) (hi : litter.arena.isLive i = true) : i ∈ [1, 2, 3] := hwf.mem_liveList.mpr hi
  simp only [mem_cons, not_mem_nil, or_false] at hlive
  refine ⟨hwf, fun i hi => ?_, fun i k hi => ?_, fun e he => ?_⟩
  · rcases hlive i hi with rfl | rfl | rfl <;> rfl
  · rcases hlive i hi with rfl | rfl | rfl <;> cases k <;> decide
  · obtain rfl := mem_singleton.mp he
    decide

theorem c1MarkSweep_litter : Tidy litter ∧ litter.c1MarkSweep.arena.liveList = [1, 2] ∧
    litter.c1MarkSweep.c1MarkSweep = litter.c1MarkSweep :=
  ⟨tidy_litter, by decide, (c1MarkSweep_exact tidy_litter).2.2.2.2⟩

end Net

end Dnet
