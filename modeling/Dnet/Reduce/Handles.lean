import Dnet.Reduce.Normalize

/-!
# Handles and slots over whole runs

A port carries one bit of the generation of its slot. A slot that is handed out again an even
number of times has that bit back, and a handle from before is taken for live
(`handle_detected_iff`, `reused_twice_is_live`).

The arena is sound as long as every index that is retired is live (`Run.sound_iff_live`): retiring an
index twice puts it on the free stack twice, and it is then handed out twice.
-/

namespace Dnet

open List

/-! ## Stale handles -/

namespace Arena

/-- What happened to the slots of an arena. -/
inductive Event where
  | handed (i : Nat)
  | committed (i : Nat)
  | retired (i : Nat)
  deriving DecidableEq

/-- From `a` the operations of a net lead to `b`; the latest event comes first. Wiring writes
slots and leaves their generation, and so does the commit of a reserved slot. -/
inductive History (a : Arena) : List Event → Arena → Prop where
  | refl : History a [] a
  | alloc {es : List Event} {b c : Arena} {i : Nat} (h : History a es b)
      (hb : b.allocSlot = .ok (i, c)) : History a (.handed i :: es) c
  | retire {es : List Event} {b : Arena} {i : Nat} (h : History a es b) (hi : i < b.slotCount) :
      History a (.retired i :: es) (b.retireSlot i)
  | reserve {es : List Event} {b c : Arena} {n base : Nat} (h : History a es b)
      (hb : b.reserve n = .ok (base, c)) : History a es c
  | commit {es : List Event} {b : Arena} {i : Nat} {s : Slot} (h : History a es b)
      (hs : s.generation = (b.slots i).generation) :
      History a (.committed i :: es) (b.commitSlot i s)
  | release {es : List Event} {b : Arena} {base used max : Nat} (h : History a es b)
      (hm : base + max ≤ b.slotCount) : History a es (b.releaseReserved base used max)
  | write {es : List Event} {b : Arena} {i : Nat} {s : Slot} (h : History a es b)
      (hs : s.generation = (b.slots i).generation) : History a es (b.setSlot i s)

/-- The two ways to get a new agent: off the free stack, or in a reserved slot. -/
inductive HandsOut (a : Arena) (i : Nat) : Arena → Prop where
  | alloc {b : Arena} (h : a.allocSlot = .ok (i, b)) : HandsOut a i b
  | commit {s : Slot} (hi : i < a.slotCount) (hs : s.generation = (a.slots i).generation) :
      HandsOut a i (a.commitSlot i s)

def InRange (a : Arena) : Prop := ∀ j ∈ a.freeList, j < a.slotCount

section

variable {a b : Arena} {es : List Event} {i : Nat}

/-- An allocation turns the parity of the slot it hands out, if that slot was there before. -/
theorem allocSlot_genLow (h : a.allocSlot = .ok (i, b)) (ha : a.InRange) :
    b.InRange ∧ i < b.slotCount ∧ a.slotCount ≤ b.slotCount ∧
      ∀ j < a.slotCount, (b.slots j).genLow = ((a.slots j).genLow ^^ decide (j = i)) := by
  unfold allocSlot at h
  split at h
  · next rest hf =>
    cases h
    rw [InRange, hf] at ha
    obtain ⟨hi, hrest⟩ := forall_mem_cons.mp ha
    refine ⟨hrest, hi, le_refl _, fun j hj => ?_⟩
    by_cases hji : j = i
    · simp only [hji, Slot.genLow, slots_pushLive, slots_setSlot, if_true, decide_true,
        Bool.xor_true, ← decide_not, decide_eq_decide]
      omega
    · simp [hji]
  · next hf =>
    split at h
    · cases h
    · cases h
      refine ⟨fun j hj => ?_, Nat.lt_succ_self _, Nat.le_succ _, fun j hj => ?_⟩
      · exact Nat.lt_succ_of_lt (ha j hj)
      · simp [Nat.ne_of_lt hj]

theorem setSlot_genLow {s : Slot} (hs : s.generation = (a.slots i).generation) (j : Nat) :
    ((a.setSlot i s).slots j).genLow = (a.slots j).genLow := by
  rw [slots_setSlot]
  split
  · next hji => rw [hji, Slot.genLow, Slot.genLow, hs]
  · rfl

theorem reserve_genLow {n base : Nat} (h : a.reserve n = .ok (base, b)) (ha : a.InRange) :
    b.InRange ∧ a.slotCount ≤ b.slotCount ∧
      ∀ j < a.slotCount, (b.slots j).genLow = (a.slots j).genLow := by
  unfold reserve at h
  split at h
  · cases h
  · cases h
    refine ⟨fun j hj => Nat.lt_add_right n (ha j hj), Nat.le_add_right _ _, fun j hj => ?_⟩
    have hlow : ¬(a.slotCount ≤ j ∧ j < a.slotCount + n) := fun hr => Nat.not_le.mpr hj hr.1
    simp only [hlow, if_false]

theorem InRange.releaseReserved {base used max : Nat} (ha : a.InRange)
    (hm : base + max ≤ a.slotCount) : (a.releaseReserved base used max).InRange := by
  intro j hj
  rcases mem_append.mp hj with hj | hj
  · obtain ⟨m, hm', rfl⟩ := mem_map.mp (mem_reverse.mp hj)
    have hlt := mem_range.mp hm'
    change base + used + m < a.slotCount
    omega
  · exact ha j hj

/-- The parity of a slot counts how often the slot was handed out again. -/
theorem History.genLow (h : History a es b) (ha : a.InRange) :
    b.InRange ∧ a.slotCount ≤ b.slotCount ∧ ∀ j < a.slotCount,
      (b.slots j).genLow = ((a.slots j).genLow ^^ decide (es.count (.handed j) % 2 = 1)) := by
  induction h with
  | refl => simp [ha]
  | @alloc es b c i _ hb ih =>
    obtain ⟨hr, hle, hgen⟩ := ih
    obtain ⟨hr', -, hle', hgen'⟩ := allocSlot_genLow hb hr
    refine ⟨hr', hle.trans hle', fun j hj => ?_⟩
    rw [hgen' j (hj.trans_le hle), hgen j hj, Bool.xor_assoc]
    congr 1
    by_cases hji : j = i
    · simp only [hji, count_cons_self, decide_true, Bool.xor_true, ← decide_not, decide_eq_decide]
      omega
    · have hne : Event.handed i ≠ .handed j := fun he => hji (Event.handed.inj he).symm
      simp [hji, count_cons_of_ne hne]
  | @retire es b i _ hi ih =>
    obtain ⟨hr, hle, hgen⟩ := ih
    refine ⟨forall_mem_cons.mpr ?_, by simpa using hle, fun j hj => ?_⟩
    · rw [slotCount_retireSlot]
      exact ⟨hi, hr⟩
    · have hne : Event.retired i ≠ .handed j := nofun
      rw [slots_retireSlot, hgen j hj, count_cons_of_ne hne]
  | reserve _ hb ih =>
    obtain ⟨hr, hle, hgen⟩ := ih
    obtain ⟨hr', hle', hgen'⟩ := reserve_genLow hb hr
    exact ⟨hr', hle.trans hle', fun j hj => (hgen' j (hj.trans_le hle)).trans (hgen j hj)⟩
  | @commit es b i s _ hs ih =>
    obtain ⟨hr, hle, hgen⟩ := ih
    refine ⟨hr, hle, fun j hj => ?_⟩
    have hne : Event.committed i ≠ .handed j := nofun
    rw [count_cons_of_ne hne, ← hgen j hj]
    exact setSlot_genLow hs j
  | release _ hm ih =>
    obtain ⟨hr, hle, hgen⟩ := ih
    exact ⟨hr.releaseReserved hm, hle, hgen⟩
  | @write es b i s _ hs ih =>
    obtain ⟨hr, hle, hgen⟩ := ih
    exact ⟨hr, hle, fun j hj => (setSlot_genLow hs j).trans (hgen j hj)⟩

theorem HandsOut.inRange (h : a.HandsOut i b) (ha : a.InRange) : b.InRange ∧ i < b.slotCount := by
  cases h with
  | alloc h =>
    obtain ⟨hr, hi, -⟩ := allocSlot_genLow h ha
    exact ⟨hr, hi⟩
  | commit hi => exact ⟨ha, hi⟩

/-- A handle is live exactly if its slot is, and was handed out again an even number of times. -/
theorem History.portLive {cap : Nat} {es₀ : List Event} {n : Net}
    (h₀ : History (.new cap) es₀ a) (ha : a.HandsOut i b) (h : History b es n.arena)
    (k : PortKind) : n.portLive (.new i k (b.slots i).genLow) = true ↔
      n.arena.isLive i = true ∧ es.count (.handed i) % 2 ≠ 1 := by
  obtain ⟨hr, -⟩ := h₀.genLow fun j hj => absurd hj not_mem_nil
  obtain ⟨hr, hi⟩ := ha.inRange hr
  have hgen := (h.genLow hr).2.2 i hi
  simp only [Net.portLive, PortId.new, Net.slot, hgen, Bool.false_or, Bool.and_eq_true,
    beq_iff_eq, ← decide_eq_false_iff_not]
  cases (b.slots i).genLow <;> simp

/-- A handle from before its slot was retired is detected exactly if the slot is dead or was
handed out again an odd number of times. -/
theorem handle_detected_iff {cap : Nat} {es₀ : List Event} {n : Net}
    (h₀ : History (.new cap) es₀ a) (ha : a.HandsOut i b) (h : History b es n.arena)
    (k : PortKind) : (n.portLive (.new i k (b.slots i).genLow) = true → .retired i ∉ es) ↔
      (.retired i ∈ es → n.arena.isLive i = true → es.count (.handed i) % 2 = 1) := by
  rw [h₀.portLive ha h k]
  tauto

/-- The arena after an allocation. -/
def handOut (a : Arena) : Arena :=
  match a.allocSlot with
  | .ok (_, b) => b
  | .error _ => a

/-- The arena after slot `1` was retired and handed out again. -/
def reuse (a : Arena) : Arena := (a.retireSlot 1).handOut

theorem reused_once_is_stale : ∃ es, History (new 8).handOut es (new 8).handOut.reuse ∧
    .retired 1 ∈ es ∧ ({ Net.new 8 with arena := (new 8).handOut.reuse }.portLive
      (.new 1 .principal ((new 8).handOut.slots 1).genLow) = true → .retired 1 ∉ es) := by
  have h : History (new 8).handOut [.handed 1, .retired 1] (new 8).handOut.reuse :=
    .alloc (.retire .refl (by decide)) rfl
  exact ⟨_, h, by decide, (handle_detected_iff (a := new 8) .refl (.alloc rfl)
    (n := { Net.new 8 with arena := (new 8).handOut.reuse }) h _).mpr fun _ _ => by decide⟩

/-- Handed out twice more, the slot is taken for the one of the first handle. -/
theorem reused_twice_is_live : ∃ es, History (new 8).handOut es (new 8).handOut.reuse.reuse ∧
    .retired 1 ∈ es ∧ { Net.new 8 with arena := (new 8).handOut.reuse.reuse }.portLive
      (.new 1 .principal ((new 8).handOut.slots 1).genLow) = true :=
  ⟨_, .alloc (.retire (.alloc (.retire .refl (by decide)) rfl) (by decide)) rfl, by decide, rfl⟩

end

/-! ## Runs of the arena -/

/-- The indices of reserved blocks that are not committed. A block is its base, the number of
its indices that are committed, and its size. -/
def reserved (blocks : List (Nat × Nat × Nat)) : List Nat :=
  blocks.flatMap fun (base, used, max) => range' (base + used) (max - used)

/-- What the operations of an arena lead to while every index that is retired is live. -/
inductive Run (cap : Nat) : Arena → List (Nat × Nat × Nat) → Prop where
  | new : Run cap (.new cap) []
  | alloc {a b : Arena} {bs : List (Nat × Nat × Nat)} {i : Nat} (h : Run cap a bs)
      (ha : a.allocSlot = .ok (i, b)) : Run cap b bs
  | retire {a : Arena} {bs : List (Nat × Nat × Nat)} {i : Nat} (h : Run cap a bs)
      (hi : a.isLive i = true) : Run cap (a.retireSlot i) bs
  | reserve {a b : Arena} {bs : List (Nat × Nat × Nat)} {n base : Nat} (h : Run cap a bs)
      (ha : a.reserve n = .ok (base, b)) : Run cap b ((base, 0, n) :: bs)
  | commit {a : Arena} {l1 l2 : List (Nat × Nat × Nat)} {base u m : Nat}
      (h : Run cap a (l1 ++ (base, u, m) :: l2)) (hu : u < m) (s : Slot) :
      Run cap (a.commitSlot (base + u) s) (l1 ++ (base, u + 1, m) :: l2)
  | release {a : Arena} {l1 l2 : List (Nat × Nat × Nat)} {base u m : Nat}
      (h : Run cap a (l1 ++ (base, u, m) :: l2)) :
      Run cap (a.releaseReserved base u m) (l1 ++ l2)

/-- No slot is handed out twice. -/
structure Sound (a : Arena) : Prop where
  live_nodup : a.liveList.Nodup
  livePos_iff : ∀ i p, a.livePos i = some p ↔ a.liveList[p]? = some i
  free_nodup : a.freeList.Nodup
  free_dead : ∀ i ∈ a.freeList, i ∉ a.liveList
  alloc : ∀ i b, a.allocSlot = .ok (i, b) → i ∉ a.liveList ∧ i ≠ 0

/-- Every index of the arena is live, free or one of `r`, and only one of these. -/
structure Parted (a : Arena) (r : List Nat) : Prop where
  livePos_iff : ∀ i p, a.livePos i = some p ↔ a.liveList[p]? = some i
  live_bound : ∀ i, a.isLive i = true → 0 < i ∧ i < a.slotCount
  slotCount_pos : 0 < a.slotCount
  nodup : (a.freeList ++ r).Nodup
  idle : ∀ i ∈ a.freeList ++ r, (0 < i ∧ i < a.slotCount) ∧ a.isLive i = false
  cover : ∀ i, 0 < i → i < a.slotCount → a.isLive i = true ∨ i ∈ a.freeList ++ r

section

variable {a : Arena} {f r r' : List Nat} {i : Nat}

theorem WF.sound (h : a.WF) : a.Sound := by
  have hdead {i : Nat} (hi : a.isLive i = false) : i ∉ a.liveList := by
    rw [h.mem_liveList, hi]
    exact Bool.false_ne_true
  refine ⟨h.liveList_nodup, h.livePos_iff, h.free_nodup, fun i hi => hdead (h.free_dead i hi),
    fun i b hb => ?_⟩
  obtain ⟨-, hi, hpos⟩ := h.allocSlot hb
  exact ⟨hdead hi, Nat.ne_of_gt hpos⟩

namespace Parted

theorem wf (h : Parted a r) : a.WF :=
  ⟨h.livePos_iff, h.live_bound, (nodup_append.mp h.nodup).1,
    fun i hi => (h.idle i (mem_append_left _ hi)).1,
    fun i hi => (h.idle i (mem_append_left _ hi)).2, h.slotCount_pos⟩

theorem move (h : Parted a r) (hp : (a.freeList ++ r).Perm (f ++ r')) :
    Parted { a with freeList := f } r' :=
  ⟨h.livePos_iff, h.live_bound, h.slotCount_pos, hp.nodup_iff.mp h.nodup,
    fun i hi => h.idle i (hp.mem_iff.mpr hi),
    fun i h0 h1 => (h.cover i h0 h1).imp_right hp.mem_iff.mp⟩

theorem push (h : Parted a (i :: r)) (s : Slot) : Parted ((a.setSlot i s).pushLive i) r := by
  have hidle := h.idle
  have hnd := h.nodup
  rw [perm_middle.nodup_iff, nodup_cons] at hnd
  simp only [perm_middle.mem_iff, forall_mem_cons] at hidle
  have hwf := h.wf.setSlot (i := i) (s := s) |>.pushLive hidle.1.2 hidle.1.1
    fun hf => hnd.1 (mem_append_left _ hf)
  refine ⟨hwf.livePos_iff, hwf.live_bound, hwf.slotCount_pos, hnd.2, fun j hj => ?_,
    fun j h0 h1 => ?_⟩
  · have hji : j ≠ i := fun e => hnd.1 (e ▸ hj)
    exact ⟨(hidle.2 j hj).1, by simp [(hidle.2 j hj).2, hji]⟩
  · rcases h.cover j h0 h1 with hl | hmem
    · exact .inl (by simp [hl])
    · rcases mem_cons.mp (perm_middle.mem_iff.mp hmem) with rfl | hmem
      · exact .inl (by simp)
      · exact .inr hmem

theorem grow {slots : Nat → Slot} (h : Parted a r) (n : Nat) :
    Parted { a with slots := slots, slotCount := a.slotCount + n } (range' a.slotCount n ++ r) := by
  have hpos := h.slotCount_pos
  have hperm : (a.freeList ++ (range' a.slotCount n ++ r)).Perm
      (range' a.slotCount n ++ (a.freeList ++ r)) := perm_append_comm_assoc _ _ _
  refine ⟨h.livePos_iff, fun j hj => (h.live_bound j hj).imp_right (Nat.lt_add_right n),
    Nat.lt_add_right n hpos, hperm.nodup_iff.mpr (nodup_append.mpr ⟨nodup_range', h.nodup,
    fun x hx y hy hxy => ?_⟩), fun j hj => ?_, fun j h0 h1 => ?_⟩
  · have hlow := (mem_range'_1.mp hx).1
    have hhigh := (h.idle y hy).1.2
    omega
  · rcases mem_append.mp (hperm.mem_iff.mp hj) with hj | hj
    · obtain ⟨hlow, hhigh⟩ := mem_range'_1.mp hj
      refine ⟨⟨by omega, hhigh⟩, Bool.eq_false_of_not_eq_true fun hl => ?_⟩
      have hlt := (h.live_bound j hl).2
      omega
    · exact (h.idle j hj).imp_left (.imp_right (Nat.lt_add_right n))
  · rw [hperm.mem_iff]
    by_cases hj : j < a.slotCount
    · exact (h.cover j h0 hj).imp_right (mem_append_right _)
    · exact .inr (mem_append_left _ (mem_range'_1.mpr ⟨by omega, h1⟩))

theorem retire (h : Parted a r) (hi : a.isLive i = true) : Parted (a.retireSlot i) r := by
  have hlive := h.wf.isLive_retireSlot hi
  have hwf := h.wf.retireSlot hi
  have hni : i ∉ a.freeList ++ r := fun hmem =>
    Bool.false_ne_true ((h.idle i hmem).2.symm.trans hi)
  refine ⟨hwf.livePos_iff, hwf.live_bound, hwf.slotCount_pos, nodup_cons.mpr ⟨hni, h.nodup⟩,
    forall_mem_cons.mpr ⟨?_, fun j hj => ?_⟩, fun j h0 h1 => ?_⟩
  · simpa [hlive] using h.live_bound i hi
  · simpa [hlive, (h.idle j hj).2] using (h.idle j hj).1
  · by_cases hji : j = i
    · exact .inr (hji ▸ mem_cons_self)
    · rw [slotCount_retireSlot] at h1
      exact (h.cover j h0 h1).imp (fun hl => by simp [hlive, hl, hji]) (mem_cons_of_mem _)

end Parted

theorem reserved_perm (l1 l2 : List (Nat × Nat × Nat)) (x : Nat × Nat × Nat) :
    (reserved (l1 ++ x :: l2)).Perm
      (range' (x.1 + x.2.1) (x.2.2 - x.2.1) ++ reserved (l1 ++ l2)) := by
  simp only [reserved, flatMap_append, flatMap_cons]
  exact perm_append_comm_assoc _ _ _

theorem Run.parted {cap : Nat} {bs : List (Nat × Nat × Nat)} (h : Run cap a bs) :
    Parted a (reserved bs) := by
  induction h with
  | new =>
    have hwf := WF.new cap
    refine ⟨hwf.livePos_iff, hwf.live_bound, hwf.slotCount_pos, nodup_nil, nofun, fun i h0 h1 => ?_⟩
    change i < 1 at h1
    omega
  | alloc _ ha ih =>
    obtain ⟨a0, s, rfl, ⟨hf, ha0⟩ | ⟨-, rfl, rfl⟩⟩ := allocSlot_cases ha
    · rw [ha0]
      exact (ih.move (hf ▸ perm_middle.symm)).push s
    · exact (ih.grow 1).push s
  | retire _ hi ih => exact ih.retire hi
  | reserve _ ha ih =>
    unfold Arena.reserve at ha
    split at ha
    · cases ha
    · cases ha
      exact ih.grow _
  | @commit a l1 l2 base u m _ hu s ih =>
    have hrange : range' (base + u) (m - u) =
        (base + u) :: range' (base + (u + 1)) (m - (u + 1)) := by
      rw [show m - u = m - (u + 1) + 1 by omega, range'_succ]
      rfl
    have hperm := reserved_perm l1 l2 (base, u, m)
    rw [hrange] at hperm
    exact (ih.move ((hperm.trans
      ((reserved_perm l1 l2 (base, u + 1, m)).symm.cons _)).append_left _)).push s
  | @release a l1 l2 base u m _ ih =>
    refine ih.move ?_
    rw [← range'_eq_map_range, append_assoc]
    refine ((reserved_perm l1 l2 (base, u, m)).append_left _).trans ?_
    exact (perm_append_comm_assoc _ _ _).trans ((reverse_perm _).symm.append_right _)

/-- While only live indices are retired the arena is sound. The next index that is retired,
of those that were handed out, keeps it so exactly if it is live. -/
theorem Run.sound_iff_live {cap : Nat} {bs : List (Nat × Nat × Nat)} (h : Run cap a bs) : a.Sound ∧
    ∀ i, 0 < i → i < a.slotCount → i ∉ reserved bs →
      ((a.retireSlot i).Sound ↔ a.isLive i = true) := by
  have hp := h.parted
  refine ⟨hp.wf.sound, fun i h0 h1 hr => ⟨fun hs => ?_, fun hl => (hp.wf.retireSlot hl).sound⟩⟩
  refine (hp.cover i h0 h1).resolve_right fun hmem => ?_
  exact (nodup_cons.mp hs.free_nodup).1 ((mem_append.mp hmem).resolve_right hr)

/-- Two slots are handed out and the first is retired; of two reserved slots one is committed and
the other released. -/
def busy : Arena :=
  match ((new 8).handOut.handOut.retireSlot 1).reserve 2 with
  | .ok (base, b) => (b.commitSlot base .empty).releaseReserved base 1 2
  | .error _ => new 8

theorem busy_sound : Run 8 busy [] ∧ busy.Sound ∧ (busy.retireSlot 3).Sound ∧
    ¬(busy.retireSlot 1).Sound := by
  have hretired : Run 8 ((new 8).handOut.handOut.retireSlot 1) [] :=
    .retire (.alloc (.alloc .new rfl) rfl) rfl
  have hreserved : Run 8 _ ([] ++ (3, 0, 2) :: []) := .reserve hretired rfl
  have hcommitted : Run 8 _ ([] ++ (3, 1, 2) :: []) := .commit hreserved (by decide) .empty
  have h : Run 8 busy [] := .release hcommitted
  obtain ⟨hsound, hiff⟩ := h.sound_iff_live
  refine ⟨h, hsound, (hiff 3 (by decide) (by decide) not_mem_nil).mpr rfl, fun hs => ?_⟩
  exact Bool.false_ne_true ((hiff 1 (by decide) (by decide) not_mem_nil).mp hs)

/-- An index that is retired twice is free twice. -/
theorem retired_twice_not_sound : (new 8).allocSlot = .ok (1, (new 8).handOut) ∧
    ¬(((new 8).handOut.retireSlot 1).retireSlot 1).Sound :=
  ⟨rfl, fun h => absurd h.free_nodup (by decide)⟩

end

end Arena

end Dnet
