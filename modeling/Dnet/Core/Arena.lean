import Dnet.Core.Port
import Mathlib.Data.List.Nodup

/-!
# Slots and the arena

`Slot` (slot.rs) and `Arena` (arena.rs): agents live in numbered slots, retired
slots are stacked and reused, and each reuse bumps the generation of the slot.

The tag byte of the source is split: its low nibble is `AgentKind`, its high nibble
the four flags. The nibbles no code writes (`0001`–`0011`, `011x`, `111x`) have no
counterpart. `Arena.WF` is kept by `allocSlot` and by retiring a live slot; retiring a slot
twice breaks it, as it does in the source.
-/

namespace Dnet

open List Option

/-! ## Slots -/

/-- The low nibble of the tag. `rep out unknown`: `out` is tag bit 0 (fan-out),
`unknown` is tag bit 1 (not known to be unpaired). -/
inductive AgentKind where
  | free
  | fanApp
  | fanAbs
  | rep (out unknown : Bool)
  | primVal
  | primFun
  deriving DecidableEq, Repr

namespace AgentKind

def repInUnpaired : AgentKind := .rep false false

def repInUnknown : AgentKind := .rep false true

def repOutUnknown : AgentKind := .rep true true

/-- Tag bit 0. -/
def bit0 : AgentKind → Bool
  | .free | .fanApp | .primVal => false
  | .fanAbs | .primFun => true
  | .rep out _ => out

/-- Tag bit 1. -/
def bit1 : AgentKind → Bool
  | .rep _ unknown => unknown
  | _ => false

end AgentKind

structure Slot where
  kind : AgentKind
  aux0Erased : Bool
  aux1Erased : Bool
  erasingAbs : Bool
  c1Mark : Bool
  generation : Nat
  principal : PortId
  aux0 : PortId
  aux1 : PortId
  data : Nat
  delta0 : Int
  delta1 : Int
  deriving DecidableEq, Repr

namespace Slot

def empty : Slot :=
  { kind := .free, aux0Erased := false, aux1Erased := false, erasingAbs := false
    c1Mark := false, generation := 0, principal := .null, aux0 := .null, aux1 := .null
    data := 0, delta0 := 0, delta1 := 0 }

section

variable (s : Slot)

def isFree : Bool := s.kind = .free

def isFan : Bool :=
  match s.kind with
  | .fanApp | .fanAbs => true
  | _ => false

def isRep : Bool :=
  match s.kind with
  | .rep _ _ => true
  | _ => false

def isPrim : Bool :=
  match s.kind with
  | .primVal | .primFun => true
  | _ => false

def repIsUnpaired : Bool := !s.kind.bit1

/-- Only tag bit 0 is read, as in the source: a fan-out replicator passes too. -/
def fanIsAbs : Bool := s.kind.bit0

def fanIsApp : Bool := !s.kind.bit0

/-- The parity of the generation, as ports carry it. -/
def genLow : Bool := s.generation % 2 = 1

/-- The port stored at position `k`. -/
def port : PortKind → PortId
  | .principal => s.principal
  | .aux0 => s.aux0
  | .aux1 => s.aux1

/-- The level and the two deltas of a replicator. -/
def label : Nat × Int × Int := (s.data, s.delta0, s.delta1)

end

end Slot

/-! ## The arena -/

/-- `slots` is total; only indices below `slotCount` have been handed out. The
head of `freeList` is the top of the free stack. -/
structure Arena where
  slots : Nat → Slot
  slotCount : Nat
  freeList : List Nat
  liveList : List Nat
  livePos : Nat → Option Nat
  cap : Nat

namespace Arena

def maxSlots : Nat := 2 ^ 28

def new (capacity : Nat) : Arena :=
  { slots := fun _ => .empty, slotCount := 1, freeList := [], liveList := []
    livePos := fun _ => none, cap := min capacity maxSlots }

section

variable (a : Arena)

def setSlot (i : Nat) (s : Slot) : Arena :=
  { a with slots := fun j => if j = i then s else a.slots j }

def pushLive (i : Nat) : Arena :=
  { a with
    liveList := a.liveList ++ [i]
    livePos := fun j => if j = i then some a.liveList.length else a.livePos j }

/-- Take the top of the free stack, with its generation bumped, or a fresh slot. -/
def allocSlot : Except DnxError (Nat × Arena) :=
  match a.freeList with
  | i :: rest =>
    let s := { Slot.empty with generation := ((a.slots i).generation + 1) % 2 ^ 32 }
    .ok (i, ({ a with freeList := rest }.setSlot i s).pushLive i)
  | [] =>
    if a.slotCount ≥ a.cap then .error .arenaCapacityExceeded
    else
      .ok (a.slotCount,
        ({ a with slotCount := a.slotCount + 1 }.setSlot a.slotCount .empty).pushLive a.slotCount)

/-- `Vec::swap_remove`: the last element takes the place of the removed one. -/
def swapRemove (l : List Nat) (pos : Nat) : List Nat :=
  (l.set pos (l.getLastD 0)).dropLast

/-- Take `i` off the live list, if it is there. -/
def unlist (i : Nat) : Arena :=
  match a.livePos i with
  | none => a
  | some pos =>
    let live := swapRemove a.liveList pos
    let livePos := fun j => if j = i then none else a.livePos j
    { a with
      liveList := live
      livePos :=
        match live[pos]? with
        | none => livePos
        | some moved => fun j => if j = moved then some pos else livePos j }

/-- The slot keeps its contents until it is reused. -/
def retireSlot (i : Nat) : Arena :=
  { a.unlist i with freeList := i :: a.freeList }

def isLive (i : Nat) : Bool := (a.livePos i).isSome

/-- Reserve `n` slots at the end; they are not live yet. -/
def reserve (n : Nat) : Except DnxError (Nat × Arena) :=
  if a.slotCount + n > a.cap then .error .arenaCapacityExceeded
  else
    .ok (a.slotCount,
      { a with
        slots := fun j => if a.slotCount ≤ j ∧ j < a.slotCount + n then .empty else a.slots j
        slotCount := a.slotCount + n })

def commitSlot (i : Nat) (s : Slot) : Arena := (a.setSlot i s).pushLive i

/-- Give the reserved slots `base + used .. base + max` to the free stack. -/
def releaseReserved (base used max : Nat) : Arena :=
  { a with freeList := ((List.range (max - used)).map (base + used + ·)).reverse ++ a.freeList }

/-! ## Slot contents and liveness after each operation -/

@[simp] theorem slots_setSlot (i j : Nat) (s : Slot) :
    (a.setSlot i s).slots j = if j = i then s else a.slots j := rfl

@[simp] theorem isLive_setSlot (i j : Nat) (s : Slot) : (a.setSlot i s).isLive j = a.isLive j := rfl

@[simp] theorem slots_pushLive (i : Nat) : (a.pushLive i).slots = a.slots := rfl

@[simp] theorem isLive_pushLive (i j : Nat) :
    (a.pushLive i).isLive j = (decide (j = i) || a.isLive j) := by
  by_cases h : j = i <;> simp [isLive, pushLive, h]

@[simp] theorem slots_unlist (i : Nat) : (a.unlist i).slots = a.slots := by
  unfold unlist
  split <;> rfl

@[simp] theorem slotCount_unlist (i : Nat) : (a.unlist i).slotCount = a.slotCount := by
  unfold unlist
  split <;> rfl

@[simp] theorem slots_retireSlot (i : Nat) : (a.retireSlot i).slots = a.slots :=
  slots_unlist a i

@[simp] theorem slotCount_retireSlot (i : Nat) : (a.retireSlot i).slotCount = a.slotCount :=
  slotCount_unlist a i

end

section

variable {a : Arena} {i : Nat} {a' : Arena}

/-- What an allocation does: `i` becomes live with an empty slot, the other slots
and the other live indices stay. -/
theorem allocSlot_ok (h : a.allocSlot = .ok (i, a')) :
    (∃ g, a'.slots = fun j => if j = i then { Slot.empty with generation := g } else a.slots j) ∧
      (∀ j, a'.isLive j = (decide (j = i) || a.isLive j)) := by
  unfold allocSlot at h
  split at h
  · next rest hf =>
    cases h
    exact ⟨⟨_, rfl⟩, fun j => by simp [isLive_pushLive]; rfl⟩
  · next hf =>
    split at h
    · cases h
    · cases h
      exact ⟨⟨_, rfl⟩, fun j => by simp [isLive_pushLive]; rfl⟩

/-! ## Well-formed arenas -/

/-- The live list and its index agree, free slots are distinct and dead, and no
index is the sentinel `0` or beyond the end. -/
structure WF (a : Arena) : Prop where
  livePos_iff : ∀ i p, a.livePos i = some p ↔ a.liveList[p]? = some i
  live_bound : ∀ i, a.isLive i = true → 0 < i ∧ i < a.slotCount
  free_nodup : a.freeList.Nodup
  free_bound : ∀ i ∈ a.freeList, 0 < i ∧ i < a.slotCount
  free_dead : ∀ i ∈ a.freeList, a.isLive i = false
  slotCount_pos : 0 < a.slotCount

theorem WF.mem_liveList (h : a.WF) : i ∈ a.liveList ↔ a.isLive i = true := by
  rw [isLive, isSome_iff_exists, mem_iff_getElem?]
  exact exists_congr fun p => (h.livePos_iff i p).symm

theorem WF.liveList_nodup (h : a.WF) : a.liveList.Nodup := by
  refine nodup_iff_getElem?_ne_getElem?.mpr fun p q hpq hq he => ?_
  have hsome : a.liveList[q]? = some (a.liveList.get ⟨q, hq⟩) := List.getElem?_eq_getElem hq
  have hp := (h.livePos_iff _ p).mpr (he.trans hsome)
  rw [(h.livePos_iff _ q).mpr hsome] at hp
  exact absurd (some.inj hp) (Nat.ne_of_gt hpq)

theorem WF.new (capacity : Nat) : (Arena.new capacity).WF where
  livePos_iff := by simp [Arena.new]
  live_bound := by simp [Arena.new, isLive]
  free_nodup := by simp [Arena.new]
  free_bound := by simp [Arena.new]
  free_dead := by simp [Arena.new]
  slotCount_pos := by simp [Arena.new]

/-- The positions in a list, when an element is put at its end. -/
theorem index_concat {idx : Nat → Option Nat} {l : List Nat}
    (h : ∀ i t, idx i = some t ↔ l[t]? = some i) {j : Nat} (hj : j ∉ l) (i t : Nat) :
    (if i = j then some l.length else idx i) = some t ↔ (l ++ [j])[t]? = some i := by
  have hne : ∀ t, l[t]? ≠ some j := fun t ht => hj (mem_of_getElem? ht)
  rw [List.getElem?_append, List.getElem?_singleton]
  split
  · next hij =>
    subst hij
    grind
  · grind

theorem WF.pushLive (h : a.WF) (hi : a.isLive i = false) (hb : 0 < i ∧ i < a.slotCount)
    (hf : i ∉ a.freeList) : (a.pushLive i).WF := by
  have hnew : i ∉ a.liveList := fun hmem => by simp [h.mem_liveList.mp hmem] at hi
  refine ⟨index_concat h.livePos_iff hnew, fun j hj => ?_, h.free_nodup, h.free_bound,
    fun j hj => ?_, h.slotCount_pos⟩
  · simp only [isLive_pushLive, Bool.or_eq_true, decide_eq_true_eq] at hj
    rcases hj with rfl | hj
    · exact hb
    · exact h.live_bound j hj
  · have hji : j ≠ i := fun e => hf (e ▸ hj)
    simp only [isLive_pushLive, hji, decide_false, Bool.false_or]
    exact h.free_dead j hj

theorem allocSlot_cases (h : a.allocSlot = .ok (i, a')) : ∃ a0 s, a' = (a0.setSlot i s).pushLive i ∧
      ((a.freeList = i :: a0.freeList ∧ a0 = { a with freeList := a0.freeList }) ∨
        (a.freeList = [] ∧ i = a.slotCount ∧ a0 = { a with slotCount := a.slotCount + 1 })) := by
  unfold Arena.allocSlot at h
  split at h
  · next hf =>
    cases h
    exact ⟨_, _, rfl, .inl ⟨hf, rfl⟩⟩
  · next hf =>
    split at h
    · cases h
    · cases h
      exact ⟨_, _, rfl, .inr ⟨hf, rfl, rfl⟩⟩

theorem WF.dead_slotCount (h : a.WF) : a.isLive a.slotCount = false := by
  cases hl : a.isLive a.slotCount with
  | false => rfl
  | true => exact absurd (h.live_bound _ hl).2 (lt_irrefl _)

/-- Writing slot contents does not touch the bookkeeping. -/
theorem WF.setSlot {s : Slot} (h : a.WF) : (a.setSlot i s).WF :=
  ⟨h.livePos_iff, h.live_bound, h.free_nodup, h.free_bound, h.free_dead, h.slotCount_pos⟩

theorem WF.grow {slots : Nat → Slot} (h : a.WF) (n : Nat) :
    { a with slots := slots, slotCount := a.slotCount + n }.WF :=
  ⟨h.livePos_iff, fun j hj => (h.live_bound j hj).imp_right (Nat.lt_add_right n), h.free_nodup,
    fun j hj => (h.free_bound j hj).imp_right (Nat.lt_add_right n), h.free_dead,
    Nat.lt_add_right n h.slotCount_pos⟩

theorem WF.allocSlot (h : a.WF) (ha : a.allocSlot = .ok (i, a')) :
    a'.WF ∧ a.isLive i = false ∧ 0 < i := by
  obtain ⟨a0, s, rfl, ⟨hf, ha0⟩ | ⟨hf, rfl, rfl⟩⟩ := allocSlot_cases ha
  · have hnd := h.free_nodup
    have hbound := h.free_bound
    have hdead := h.free_dead
    rw [hf, nodup_cons] at hnd
    rw [hf, forall_mem_cons] at hbound hdead
    have h0 : a0.WF := by
      rw [ha0]
      exact ⟨h.livePos_iff, h.live_bound, hnd.2, hbound.2, hdead.2, h.slotCount_pos⟩
    refine ⟨h0.setSlot.pushLive ?_ ?_ hnd.1, hdead.1, hbound.1.1⟩
    · rw [isLive_setSlot, ha0]
      exact hdead.1
    · rw [ha0]
      exact hbound.1
  · have hfree : a.slotCount ∉ a.freeList := hf ▸ not_mem_nil
    exact ⟨(h.grow 1).setSlot.pushLive h.dead_slotCount ⟨h.slotCount_pos, Nat.lt_succ_self _⟩ hfree,
      h.dead_slotCount, h.slotCount_pos⟩

/-- `swapRemove` on a list: below the new length, position `pos` holds the old last
element and every other position what it held. -/
theorem getElem?_swapRemove {l : List Nat} {pos q : Nat} (hpos : pos < l.length) :
    (swapRemove l pos)[q]? =
      if q < l.length - 1 then (if q = pos then l[l.length - 1]? else l[q]?) else none := by
  unfold swapRemove
  rw [List.getElem?_dropLast, length_set, List.getElem?_set]
  split
  · next hq =>
    by_cases hqp : pos = q
    · subst hqp
      simp only [if_true]
      rw [getLastD_eq_getLast?, List.getLast?_eq_getElem?]
      have hlast : l.length - 1 < l.length := by omega
      simp [List.getElem?_eq_getElem hlast]
    · simp [hqp, Ne.symm hqp]
  · rfl

theorem WF.livePos_iff_unlist (h : a.WF) (hi : a.isLive i = true) :
    (∀ j p, (a.unlist i).livePos j = some p ↔ (a.unlist i).liveList[p]? = some j) ∧
      ∀ j, (a.unlist i).isLive j = (a.isLive j && decide (j ≠ i)) := by
  obtain ⟨pos, hpos⟩ := isSome_iff_exists.mp hi
  have hbound : ∀ {j p}, a.livePos j = some p → p < a.liveList.length := fun {j p} hj =>
    (List.getElem?_eq_some_iff.mp ((h.livePos_iff j p).mp hj)).1
  have hlt := hbound hpos
  obtain ⟨m, hm⟩ : ∃ m, a.liveList[a.liveList.length - 1]? = some m :=
    ⟨_, List.getElem?_eq_getElem (by omega)⟩
  have hlast := (h.livePos_iff m _).mpr hm
  have hinj : ∀ {j j' p}, a.livePos j = some p → a.livePos j' = some p → j = j' :=
    fun {j j' p} hj hj' => some.inj
      (((h.livePos_iff j p).mp hj).symm.trans ((h.livePos_iff j' p).mp hj'))
  -- what stands where after the removal
  have hmem : ∀ j p, (swapRemove a.liveList pos)[p]? = some j ↔
      p < a.liveList.length - 1 ∧ if p = pos then j = m else a.livePos j = some p := by
    intro j p
    rw [getElem?_swapRemove hlt, hm, h.livePos_iff]
    by_cases hp : p < a.liveList.length - 1 <;> by_cases hpp : p = pos <;> simp [hp, hpp, eq_comm]
  have hmoved : (swapRemove a.liveList pos)[pos]? =
      if pos < a.liveList.length - 1 then some m else none := by
    rw [getElem?_swapRemove hlt, if_pos rfl, hm]
  unfold unlist
  simp only [hpos, hmoved, hmem, isLive]
  -- the last one moves to the position of `i`, or it is `i`
  by_cases hmid : pos < a.liveList.length - 1
  · rw [if_pos hmid]
    exact ⟨by grind, by grind⟩
  · rw [if_neg hmid]
    exact ⟨by grind, by grind⟩

theorem WF.isLive_retireSlot (h : a.WF) (hi : a.isLive i = true) (j : Nat) :
    (a.retireSlot i).isLive j = (a.isLive j && decide (j ≠ i)) :=
  (h.livePos_iff_unlist hi).2 j

theorem WF.retireSlot (h : a.WF) (hi : a.isLive i = true) : (a.retireSlot i).WF where
  livePos_iff := (h.livePos_iff_unlist hi).1
  live_bound j hj := by
    rw [h.isLive_retireSlot hi, Bool.and_eq_true] at hj
    rw [slotCount_retireSlot]
    exact h.live_bound j hj.1
  free_nodup := by
    refine nodup_cons.mpr ⟨fun hmem => ?_, h.free_nodup⟩
    rw [h.free_dead i hmem] at hi
    cases hi
  free_bound := by
    rw [slotCount_retireSlot]
    exact forall_mem_cons.mpr ⟨h.live_bound _ hi, h.free_bound⟩
  free_dead j hj := by
    rw [h.isLive_retireSlot hi]
    rcases mem_cons.mp hj with rfl | hj
    · simp
    · rw [h.free_dead j hj, Bool.false_and]
  slotCount_pos := by
    rw [slotCount_retireSlot]
    exact h.slotCount_pos

end

end Arena

end Dnet
