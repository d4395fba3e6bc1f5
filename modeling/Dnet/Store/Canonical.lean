import Dnet.Lib.DepthFirst
import Dnet.Store.BlobCodec
import Dnet.Store.Forge
import Mathlib.Data.Finset.Card

/-!
# Canonical blobs

A blob that `from_blob` accepts is what `to_blob` makes of the net exactly if its records are
their own depth-first listing: no record is an eraser, and reading the graph of the wires from
the first record on, in depth-first order, gives the records back (`toBlob_fromBlob`).
`from_blob` does not ask for that.
-/

namespace Dnet

open Lib List

/-- The slot of a port that is no sentinel. -/
def PortId.agent (p : PortId) : Option Nat := if p.isReal then some p.slotIdx else none

/-! ## Graphs of agents -/

/-- Agents in numbered slots and what their ports lead to. -/
structure Wiring where
  shape : Nat → Shape
  port : Nat × PortKind → PortId

namespace Wiring

/-- The agents behind the ports of an agent, in the order of the ports; a free variable and a
primitive are leaves. -/
def successors (w : Wiring) (i : Nat) : List Nat :=
  match w.shape i with
  | .free _ | .prim => []
  | .abs | .app | .rep _ _ _ =>
    [PortKind.principal, .aux0, .aux1].filterMap fun k => (w.port (i, k)).agent

/-- The record of the agent in slot `i`, when the agents are listed in `l`. -/
def describe (w : Wiring) (l : List Nat) (i : Nat) : Record :=
  let edge (k : PortKind) : Edge :=
    (w.port (i, k)).agent.map fun j => (l.idxOf j, (w.port (i, k)).portKind)
  match w.shape i with
  | .free varId => .freeVar varId
  | .abs => .fanAbs (edge .aux0) (edge .aux1)
  | .app => .fanApp (edge .principal) (edge .aux1)
  | .rep level delta0 delta1 => .repIn level delta0 delta1 (edge .aux0) (edge .aux1)
  | .prim => .eraser

end Wiring

namespace Net

/-! ## The traversal is depth first -/

def wiring (n : Net) : Dnet.Wiring := ⟨fun i => (n.arena.slots i).shape, n.portAt⟩

/-- The traversal stays in the slots below `c`, and slot 0 is a leaf. -/
structure Bounded (n : Net) (c : Nat) : Prop where
  port : ∀ x, (n.portAt x).slotIdx < c
  zero : (n.arena.slots 0).kind = .free

section

variable {n : Net} {c : Nat} {root : PortId} {st : DfsState}

theorem Bounded.peer (h : n.Bounded c) {i : Nat} (k : PortKind) (g : Bool)
    (hi : (n.arena.slots i).kind ≠ .free) : n.peer (.new i k g) = n.portAt (i, k) := by
  have hpos : 0 < i := Nat.pos_of_ne_zero fun h0 => hi (h0 ▸ h.zero)
  rw [peer_of_isReal (PortId.isReal_of_pos hpos)]
  rfl

theorem Bounded.children (h : n.Bounded c) (p : PortId) :
    (n.dfsChildren p).filterMap PortId.agent = n.wiring.successors p.slotIdx ∧
      (n.dfsChildren p).length ≤ 3 ∧ ∀ q ∈ n.dfsChildren p, q.slotIdx < c := by
  rw [dfsChildren_eq, Wiring.successors, show n.wiring.shape p.slotIdx = (n.slot p).shape from rfl]
  by_cases hfree : (n.slot p).kind = .free
  · rw [Slot.shape, hfree]
    exact ⟨rfl, Nat.zero_le _, by simp⟩
  · have hpeer (k : PortKind) := h.peer k p.genLow hfree
    have hports : ∀ q ∈ [PortKind.principal, .aux0, .aux1].map fun k => n.portAt (p.slotIdx, k),
        q.slotIdx < c := by
      intro q hq
      obtain ⟨k, -, rfl⟩ := mem_map.mp hq
      exact h.port _
    simp only [hpeer]
    cases (n.slot p).shape with
    | free _ | prim => exact ⟨rfl, Nat.zero_le _, by simp⟩
    | abs | app | rep _ _ _ => exact ⟨filterMap_map .., le_rfl, hports⟩

/-- The state of a traversal that has visited its root. -/
structure Traversing (n : Net) (c : Nat) (root : PortId) (st : DfsState) : Prop where
  grow : Growing n.wiring.successors root.slotIdx (st.order.map PortId.slotIdx)
    (st.stack.filterMap PortId.agent)
  idx : ∀ i t, st.canonicalIdx i = some t ↔ (st.order.map PortId.slotIdx)[t]? = some i
  real : ∀ p ∈ st.order, p.isReal = true
  below : ∀ p, p ∈ st.order ∨ p ∈ st.stack → p.slotIdx < c

theorem Traversing.length_le (h : Traversing n c root st) : st.order.length ≤ c := by
  have hsub : (st.order.map PortId.slotIdx).toFinset ⊆ Finset.range c := by
    intro i hi
    obtain ⟨p, hp, rfl⟩ := mem_map.mp (mem_toFinset.mp hi)
    exact Finset.mem_range.mpr (h.below p (.inl hp))
  have hcard := Finset.card_le_card hsub
  rwa [toFinset_card_of_nodup h.grow.nodup, Finset.card_range, length_map] at hcard

theorem Traversing.visit {p : PortId} {stack : List PortId} (hb : n.Bounded c)
    (h : Traversing n c root st) (hs : st.stack = p :: stack) :
    Traversing n c root (n.dfsVisit p { st with stack := stack }) ∧
      (n.dfsVisit p { st with stack := stack }).stack.length +
          4 * (c - (n.dfsVisit p { st with stack := stack }).order.length) <
        st.stack.length + 4 * (c - st.order.length) := by
  have hgrow := h.grow
  have hbelow : ∀ q, q ∈ st.order ∨ q ∈ stack → q.slotIdx < c := fun q hq =>
    h.below q (hq.imp_right fun hq => hs ▸ mem_cons_of_mem p hq)
  rw [hs] at hgrow
  unfold dfsVisit
  by_cases hreal : p.isReal = true
  · rw [filterMap_cons_some (show p.agent = some p.slotIdx from if_pos hreal)] at hgrow
    rw [p.sentinel_eq, hreal]
    simp only [Bool.not_true, Bool.false_eq_true, if_false]
    split
    · next hseen =>
      obtain ⟨t, ht⟩ := Option.isSome_iff_exists.mp hseen
      have hpop := hgrow.pending.pop (mem_of_getElem? ((h.idx _ t).mp ht))
      refine ⟨⟨{ hgrow with pending := hpop }, h.idx, h.real, hbelow⟩, ?_⟩
      rw [hs]
      exact Nat.add_lt_add_right (Nat.lt_succ_self _) _
    · next hnew =>
      have hnot : p.slotIdx ∉ st.order.map PortId.slotIdx := fun hmem => by
        obtain ⟨t, ht⟩ := mem_iff_getElem?.mp hmem
        exact hnew (by rw [(h.idx _ t).mpr ht]; rfl)
      obtain ⟨hchildren, hthree, hless⟩ := hb.children p
      have hnext : Traversing n c root
          { canonicalIdx := Function.update st.canonicalIdx p.slotIdx (some st.order.length)
            order := st.order ++ [p]
            stack := n.dfsChildren p ++ stack } := by
        refine ⟨?_, fun i t => ?_, fun q hq => ?_, fun q hq => ?_⟩
        · rw [map_append, filterMap_append, hchildren]
          exact hgrow.visit hnot
        · have hidx := Arena.index_concat h.idx hnot i t
          rw [length_map, ← Function.update_apply st.canonicalIdx] at hidx
          rw [map_append]
          exact hidx
        · rcases mem_append.mp hq with hq | hq
          · exact h.real q hq
          · exact mem_singleton.mp hq ▸ hreal
        · rcases hq with hq | hq
          · rcases mem_append.mp hq with hq | hq
            · exact hbelow q (.inl hq)
            · exact mem_singleton.mp hq ▸ h.below p (.inr (hs ▸ mem_cons_self))
          · rcases mem_append.mp hq with hq | hq
            · exact hless q hq
            · exact hbelow q (.inr hq)
      have hroom := hnext.length_le
      refine ⟨hnext, ?_⟩
      rw [hs]
      simp only [length_append, length_cons, length_nil] at hroom ⊢
      omega
  · rw [filterMap_cons_none (show p.agent = none from if_neg hreal)] at hgrow
    rw [p.sentinel_eq, Bool.eq_false_iff.mpr hreal]
    refine ⟨⟨hgrow, h.idx, h.real, hbelow⟩, ?_⟩
    rw [hs]
    exact Nat.add_lt_add_right (Nat.lt_succ_self _) _

theorem traversing_first (hb : n.Bounded c) (hroot : root.isReal = true) (hc : root.slotIdx < c) :
    Traversing n c root (n.dfsVisit root ⟨fun _ => none, [], []⟩) := by
  obtain ⟨hchildren, -, hless⟩ := hb.children root
  unfold dfsVisit
  rw [root.sentinel_eq, hroot]
  simp only [Bool.not_true, Bool.false_eq_true, if_false, Option.isSome_none, nil_append, append_nil,
    length_nil]
  refine ⟨?_, fun i t => ?_, fun q hq => ?_, fun q hq => ?_⟩
  · rw [hchildren]
    exact .first _ _
  · have hnone : ∀ i t, (fun _ => none : Nat → Option Nat) i = some t ↔
        ([] : List Nat)[t]? = some i := by simp
    simp only [Function.update_apply]
    exact Arena.index_concat hnone not_mem_nil i t
  · exact mem_singleton.mp hq ▸ hroot
  · rcases hq with hq | hq
    · exact mem_singleton.mp hq ▸ hc
    · exact hless q hq

theorem Traversing.run (hb : n.Bounded c) (bound : Nat) (h : Traversing n c root st)
    (hbound : st.stack.length + 4 * (c - st.order.length) ≤ bound) :
    ∃ st', (∀ more, loop n.dfsRound (bound + more + 1) st = some (.ok st')) ∧ st'.stack = [] ∧
      Traversing n c root st' := by
  induction bound generalizing st with
  | zero =>
    have hstack : st.stack = [] := eq_nil_of_length_eq_zero (by omega)
    exact ⟨st, fun more => loop_of_stops (r := .ok st)
      (show n.dfsRound st = _ by rw [dfsRound, hstack]) _, hstack, h⟩
  | succ bound ih =>
    cases hs : st.stack with
    | nil =>
      exact ⟨st, fun more => loop_of_stops (r := .ok st)
        (show n.dfsRound st = _ by rw [dfsRound, hs]) _, hs, h⟩
    | cons p stack =>
      obtain ⟨hnext, hlt⟩ := h.visit hb hs
      obtain ⟨st', hrun, hstop, hst'⟩ := ih hnext (by omega)
      refine ⟨st', fun more => ?_, hstop, hst'⟩
      rw [loop_of_next (show n.dfsRound st = _ by rw [dfsRound, hs]), Nat.add_right_comm]
      exact hrun more

/-- The traversal ends within `4 * c + 1` rounds, and has listed the agents that the root reaches
depth first. -/
theorem dfsAssign_depthFirst (hb : n.Bounded c) (hroot : root.isReal = true)
    (hc : root.slotIdx < c) : ∃ st, (∀ fuel, 4 * c < fuel → n.dfsAssign root fuel = some (.ok st)) ∧
      DepthFirst n.wiring.successors root.slotIdx (st.order.map PortId.slotIdx) ∧
      Traversing n c root st := by
  have hfirst := traversing_first hb hroot hc
  have hsize : (n.dfsVisit root ⟨fun _ => none, [], []⟩).stack.length +
      4 * (c - (n.dfsVisit root ⟨fun _ => none, [], []⟩).order.length) ≤ 4 * c - 1 := by
    have hthree := (hb.children root).2.1
    unfold dfsVisit
    rw [root.sentinel_eq, hroot]
    simp only [Bool.not_true, Bool.false_eq_true, if_false, Option.isSome_none, nil_append,
      append_nil, length_singleton]
    omega
  obtain ⟨st, hrun, hstop, hst⟩ := hfirst.run hb _ hsize
  have hstart : n.dfsRound ⟨fun _ => none, [], [root]⟩ =
      .ok (.next (n.dfsVisit root ⟨fun _ => none, [], []⟩)) := rfl
  have hgrow := hst.grow
  rw [hstop] at hgrow
  refine ⟨st, fun fuel hfuel => ?_, hgrow.done, hst⟩
  obtain ⟨more, rfl⟩ := Nat.exists_eq_add_of_lt hfuel
  rw [dfsAssign, loop_of_next hstart]
  have hrounds : 4 * c + more = 4 * c - 1 + more + 1 := by omega
  rw [hrounds]
  exact hrun more

end

/-! ## What the traversal emits -/

section

variable {n : Net} {c : Nat} {root : PortId} {st : DfsState}

theorem Traversing.emitEdge (h : Traversing n c root st)
    (hl : DepthFirst n.wiring.successors root.slotIdx (st.order.map PortId.slotIdx)) (hb : n.Bounded c)
    {p : PortId} (hp : p ∈ st.order) (k : PortKind) (hshape : ∀ varId, (n.slot p).shape ≠ .free varId)
    (hprim : (n.slot p).shape ≠ .prim) :
    n.emitEdge st.canonicalIdx (.new p.slotIdx k p.genLow) = .ok ((n.portAt (p.slotIdx, k)).agent.map
      fun j => ((st.order.map PortId.slotIdx).idxOf j, (n.portAt (p.slotIdx, k)).portKind)) := by
  have hfree : (n.slot p).kind ≠ .free := fun hk => hshape _ (by rw [Slot.shape, hk])
  unfold Net.emitEdge
  rw [hb.peer k p.genLow hfree]
  dsimp only
  rw [PortId.sentinel_eq]
  by_cases hreal : (n.portAt (p.slotIdx, k)).isReal = true
  · have hsucc : (n.portAt (p.slotIdx, k)).slotIdx ∈ n.wiring.successors p.slotIdx := by
      have hmem : (n.portAt (p.slotIdx, k)).slotIdx ∈
          [PortKind.principal, .aux0, .aux1].filterMap fun k => (n.portAt (p.slotIdx, k)).agent :=
        mem_filterMap.mpr ⟨k, by cases k <;> simp, if_pos hreal⟩
      unfold Wiring.successors
      rw [show n.wiring.shape p.slotIdx = (n.slot p).shape from rfl]
      cases hs : (n.slot p).shape with
      | free varId => exact absurd hs (hshape varId)
      | prim => exact absurd hs hprim
      | abs => exact hmem
      | app => exact hmem
      | rep _ _ _ => exact hmem
    have hlisted := hl.closed (mem_map_of_mem hp) hsucc
    rw [hreal, PortId.agent, if_pos hreal]
    simp only [Bool.not_true, Bool.false_eq_true, if_false, (h.idx _ _).mpr (getElem?_idxOf hlisted),
      Option.map_some]
  · rw [PortId.agent, if_neg hreal, Bool.eq_false_iff.mpr hreal]
    rfl

theorem Traversing.emitRecord (h : Traversing n c root st)
    (hl : DepthFirst n.wiring.successors root.slotIdx (st.order.map PortId.slotIdx)) (hb : n.Bounded c)
    {p : PortId} (hp : p ∈ st.order) (hprim : (n.slot p).shape ≠ .prim) :
    n.emitRecord st.canonicalIdx p =
      .ok (n.wiring.describe (st.order.map PortId.slotIdx) p.slotIdx) := by
  have hedge (k : PortKind) := h.emitEdge hl hb hp k
  rw [emitRecord_eq _ _ _ (PortId.isReal_iff.mp (h.real p hp)).1, Wiring.describe,
    show n.wiring.shape p.slotIdx = (n.slot p).shape from rfl]
  cases hs : (n.slot p).shape with
  | free _ => rfl
  | prim => exact absurd hs hprim
  | abs | app | rep _ _ _ => simp only [hedge _ (by simp [hs]) hprim]; rfl

/-- The records of a net without primitives. -/
theorem canonicalRecords_depthFirst (hb : n.Bounded c) (hroot : root.isReal = true)
    (hc : root.slotIdx < c) (hprim : ∀ i, (n.arena.slots i).shape ≠ .prim) :
    ∃ l, (∀ fuel, 4 * c < fuel → n.canonicalRecords root fuel =
        some (.ok (l.map (n.wiring.describe l)))) ∧
      DepthFirst n.wiring.successors root.slotIdx l ∧ l.length ≤ c := by
  obtain ⟨st, hrun, hl, hst⟩ := dfsAssign_depthFirst hb hroot hc
  refine ⟨st.order.map PortId.slotIdx, fun fuel hfuel => ?_, hl, ?_⟩
  · have hmap : st.order.mapM (n.emitRecord st.canonicalIdx) =
        .ok (st.order.map fun p => n.wiring.describe (st.order.map PortId.slotIdx) p.slotIdx) :=
      mapM_eq_ok.mpr (forall₂_map_right_iff.mpr (forall₂_same.mpr fun p hp =>
        hst.emitRecord hl hb hp (hprim _)))
    unfold canonicalRecords
    rw [hrun fuel hfuel, map_map]
    show some (st.order.mapM (n.emitRecord st.canonicalIdx)) = _
    rw [hmap]
    rfl
  · rw [length_map]
    exact hst.length_le

end

end Net

/-! ## The wires of a blob -/

section

variable {records : List Record} {ws : List (PortId × PortId)} {slots : List PortId} {c : Nat}

theorem slotIdx_recordPorts : ∀ {i : Nat} {records : List Record} {p : PortId},
    0 < i → p ∈ recordPorts i records → p.slotIdx < i + (records.filter Record.isAgent).length
  | _, [], _, _, h => absurd h not_mem_nil
  | i, rec :: records, p, hi, h => by
    unfold recordPorts at h
    split at h
    · next hagent =>
      rw [filter_cons_of_pos hagent, length_cons]
      rcases mem_cons.mp h with rfl | h
      · exact Nat.lt_add_of_pos_right (Nat.succ_pos _)
      · have := slotIdx_recordPorts (Nat.succ_pos i) h
        omega
    · next hagent =>
      rw [filter_cons_of_neg hagent]
      rcases mem_cons.mp h with rfl | h
      · exact Nat.add_pos_left hi _
      · exact slotIdx_recordPorts hi h

theorem slotIdx_edgeWires {base : PortId} (hpos : 0 < c)
    (hslots : ∀ p ∈ slots, p.slotIdx < c) (hbase : base.slotIdx < c) :
    ∀ {edges : List (PortKind × Edge)} {ws : List (PortId × PortId)},
      edgeWires slots base edges = .ok ws → ∀ w ∈ ws, w.1.slotIdx < c ∧ w.2.slotIdx < c
  | [], _, h => by
    cases h
    exact fun w hw => absurd hw not_mem_nil
  | (kind, edge) :: edges, _, h => by
    obtain ⟨dst, hdst, h₁⟩ := bind_eq_ok.mp h
    obtain ⟨ws, hws, h2⟩ := bind_eq_ok.mp h₁
    cases h2
    have hend : dst.slotIdx < c := by
      cases edge with
      | none =>
        cases hdst
        exact hpos
      | some e =>
        obtain ⟨idx, k⟩ := e
        simp only [resolve] at hdst
        split at hdst
        · cases hdst
        · next p hp =>
          cases hdst
          exact hslots p (mem_of_getElem? hp)
    exact forall_mem_cons.mpr ⟨⟨hbase, hend⟩, slotIdx_edgeWires hpos hslots hbase hws⟩

theorem slotIdx_wiresOf (hpos : 0 < c) (hslots : ∀ p ∈ slots, p.slotIdx < c) :
    ∀ {rest : List (PortId × Record)} {ws : List (PortId × PortId)},
      (∀ e ∈ rest, e.1.slotIdx < c) → wiresOf slots rest = .ok ws →
        ∀ w ∈ ws, w.1.slotIdx < c ∧ w.2.slotIdx < c
  | [], _, _, h => by
    cases h
    exact fun w hw => absurd hw not_mem_nil
  | (base, rec) :: rest, _, hrest, h => by
    obtain ⟨ws1, hws1, h₁⟩ := bind_eq_ok.mp h
    obtain ⟨ws2, hws2, h2⟩ := bind_eq_ok.mp h₁
    cases h2
    obtain ⟨hbase, hrest⟩ := forall_mem_cons.mp hrest
    intro w hw
    rcases mem_append.mp hw with hw | hw
    · exact slotIdx_edgeWires hpos hslots hbase hws1 w hw
    · exact slotIdx_wiresOf hpos hslots hrest hws2 w hw

theorem slotIdx_lastEnd {x : Nat × PortKind} : ∀ {ws : List (PortId × PortId)} {q : PortId},
    (∀ w ∈ ws, w.1.slotIdx < c ∧ w.2.slotIdx < c) → lastEnd x ws = some q → q.slotIdx < c
  | [], _, _, h => nomatch h
  | (a, b) :: ws, q, hws, h => by
    obtain ⟨⟨ha, hb⟩, hws⟩ := forall_mem_cons.mp hws
    unfold lastEnd at h
    cases hlast : lastEnd x ws with
    | some q' =>
      rw [hlast] at h
      cases h
      exact slotIdx_lastEnd hws hlast
    | none =>
      rw [hlast, Option.none_or] at h
      split at h
      · cases h
        exact ha
      · split at h
        · cases h
          exact hb
        · cases h

/-- Every wire of a blob leads to one of its agents, or to slot 0. -/
theorem Net.Rebuilt.bounded {n : Net} (h : n.Rebuilt records ws)
    (hws : recordWires records = .ok ws) :
    n.Bounded ((records.filter Record.isAgent).length + 1) where
  port x := by
    have hports : ∀ p ∈ recordPorts 1 records,
        p.slotIdx < (records.filter Record.isAgent).length + 1 := fun p hp => by
      have := slotIdx_recordPorts Nat.one_pos hp
      omega
    have hends := slotIdx_wiresOf (Nat.succ_pos _) hports
      (fun e he => hports _ (of_mem_zip he).1) hws
    rw [h.portAt]
    cases hlast : lastEnd x ws with
    | none => exact Nat.succ_pos _
    | some q => exact slotIdx_lastEnd hends hlast
  zero := congrArg Body.kind (h.body 0)

theorem allocCheck_room {debug : Bool} : ∀ {room : Nat} {records : List Record},
    allocCheck debug room records = .ok () → (records.filter Record.isAgent).length ≤ room
  | _, [], _ => Nat.zero_le _
  | room, rec :: records, h => by
    unfold allocCheck at h
    split at h
    · next hagent =>
      rw [filter_cons_of_pos hagent, length_cons]
      split at h
      · cases h
      · cases room with
        | zero => cases h
        | succ room => exact Nat.succ_le_succ (allocCheck_room h)
    · next hagent =>
      rw [filter_cons_of_neg hagent]
      exact allocCheck_room h

end

/-! ## Canonical records -/

/-- The graph of records that are all agents; of several wires on a port the last one counts. -/
def recordWiring (records : List Record) (ws : List (PortId × PortId)) : Wiring :=
  ⟨fun i => (agentSlot records i).shape, fun x => (lastEnd x ws).getD .null⟩

/-- No record is an eraser, and the depth-first listing of the graph is the records. -/
def Canonical (records : List Record) : Prop :=
  (∀ rec ∈ records, rec.isAgent = true) ∧ ∃ ws l, recordWires records = .ok ws ∧
      DepthFirst (recordWiring records ws).successors 1 l ∧
      records = l.map ((recordWiring records ws).describe l)

section

variable {records : List Record} {ws : List (PortId × PortId)} {n : Net}

theorem Net.Rebuilt.shape (h : n.Rebuilt records ws) (i : Nat) :
    (n.arena.slots i).shape = (agentSlot (records.filter Record.isAgent) i).shape := by
  have hbody := h.body i
  have hkind : (n.arena.slots i).kind = _ := congrArg Body.kind hbody
  have hlabel : (n.arena.slots i).label = _ := congrArg Body.label hbody
  obtain ⟨hdata, hdeltas⟩ := Prod.mk.inj hlabel
  obtain ⟨h0, h1⟩ := Prod.mk.inj hdeltas
  unfold Slot.shape
  rw [hkind, hdata, h0, h1]

theorem Net.Rebuilt.wiring_eq (h : n.Rebuilt records ws)
    (hagents : ∀ rec ∈ records, rec.isAgent = true) : n.wiring = recordWiring records ws := by
  have hfilter : records.filter Record.isAgent = records := filter_eq_self.mpr hagents
  have hshape : (fun i => (n.arena.slots i).shape) = fun i => (agentSlot records i).shape := by
    funext i
    rw [h.shape, hfilter]
  unfold Net.wiring recordWiring
  rw [hshape, show n.portAt = _ from funext h.portAt]

/-- The label fits into its fields; there are no primitives in blobs. -/
def Shape.Fits : Shape → Prop
  | .free varId => varId ≤ freeVarIdMax
  | .abs | .app => True
  | .rep level d0 d1 =>
    level < 2 ^ 16 ∧ (-32768 ≤ d0 ∧ d0 < 32768) ∧ (-32768 ≤ d1 ∧ d1 < 32768)
  | .prim => False

theorem shape_agentSlot (hfits : ∀ rec ∈ records, rec.Fits) (i : Nat) :
    (agentSlot (records.filter Record.isAgent) i).shape.Fits := by
  have hempty : Slot.empty.shape.Fits := Nat.zero_le _
  unfold agentSlot
  split
  · exact hempty
  · cases hrec : (records.filter Record.isAgent)[i - 1]? with
    | none => exact hempty
    | some rec =>
      have hfit := hfits rec (mem_of_mem_filter (mem_of_getElem? hrec))
      cases rec with
      | eraser => exact hempty
      | freeVar varId =>
        show varId % 0x4000 % 0x4000 ≤ 0x3FFF
        omega
      | fanAbs _ _ => trivial
      | fanApp _ _ => trivial
      | repIn level d0 d1 _ _ => exact ⟨hfit.1, hfit.2.1, hfit.2.2.1⟩

/-- What the traversal of a rebuilt net lists can be encoded, and has no eraser. -/
theorem Net.Rebuilt.describe_fits (h : n.Rebuilt records ws) (hfits : ∀ rec ∈ records, rec.Fits)
    {l : List Nat} (hl : l.length < 2 ^ 32) (i : Nat) :
    (n.wiring.describe l i).Fits ∧ (n.wiring.describe l i).isAgent = true := by
  have hedge (k : PortKind) : Edge.Fits ((n.wiring.port (i, k)).agent.map fun j =>
      (l.idxOf j, (n.wiring.port (i, k)).portKind)) := by
    cases (n.wiring.port (i, k)).agent with
    | none => trivial
    | some j => exact Nat.lt_of_le_of_lt (idxOf_le_length) hl
  have hshape := shape_agentSlot hfits i
  rw [← h.shape i] at hshape
  unfold Wiring.describe
  rw [show n.wiring.shape i = (n.arena.slots i).shape from rfl]
  cases hs : (n.arena.slots i).shape with
  | free varId =>
    rw [hs] at hshape
    exact ⟨hshape, rfl⟩
  | abs | app => exact ⟨⟨hedge _, hedge _⟩, rfl⟩
  | rep level d0 d1 =>
    rw [hs] at hshape
    exact ⟨⟨hshape.1, hshape.2.1, hshape.2.2, hedge _, hedge _⟩, rfl⟩
  | prim =>
    rw [hs] at hshape
    exact hshape.elim

end

/-! ## Blobs and their nets -/

section

variable {debug : Bool} {bytes : List UInt8} {n : Net} {root : PortId}

theorem fromBlob_ok (h : fromBlob debug bytes = .ok (n, root)) :
    ∃ records ws, decode bytes = .ok records ∧ recordWires records = .ok ws ∧
      (records.filter Record.isAgent).length < 2 ^ 28 ∧
      root = (recordPorts 1 records).headD .null ∧ n.Rebuilt records ws := by
  obtain ⟨records, hdec, hrebuild⟩ := bind_eq_ok.mp h
  cases hd : decode bytes with
  | error e =>
    rw [hd] at hdec
    cases hdec
  | ok rs =>
    rw [hd] at hdec
    cases hdec
    have hspec := rebuild_spec debug (decode_ne_nil hd)
    cases haccept : acceptRecords debug records with
    | error e =>
      rw [haccept, hrebuild] at hspec
      cases hspec
    | ok ws =>
      rw [haccept, hrebuild] at hspec
      obtain ⟨n', heq, -, hreb⟩ := hspec
      obtain ⟨rfl, rfl⟩ := Prod.mk.inj (Except.ok.inj heq)
      obtain ⟨u, halloc, hrest⟩ := bind_eq_ok.mp haccept
      obtain ⟨ws', hws', hrest⟩ := bind_eq_ok.mp hrest
      cases hw : recordWires records with
      | error e =>
        rw [hw] at hws'
        cases hws'
      | ok ws'' =>
        rw [hw] at hws'
        cases hws'
        have hroom := allocCheck_room
          (show allocCheck debug (blobRoom records) records = .ok () from halloc)
        have hsame : ws' = ws := by
          split at hrest
          · cases hrest
            rfl
          · cases hrest
        subst hsame
        refine ⟨records, ws', rfl, hw, ?_, rfl, hreb⟩
        unfold blobRoom at hroom
        omega

theorem length_le_blobBytes (records : List Record) :
    records.length + 5 ≤ (blobBytes records).length := by
  have hall : records.length ≤ (records.flatMap Record.bytes).length :=
    length_le_flatMap fun rec _ => by cases rec <;> simp [Record.bytes, leBytes]
  simp only [blobBytes, length_append, length_leBytes]
  omega

/-- What is listed for the net of a blob; it can be encoded, unless the root is an eraser and it
is empty. -/
theorem canonicalRecords_fromBlob (h : fromBlob debug bytes = .ok (n, root)) :
    ∃ records emitted, decode bytes = .ok records ∧
      (∀ fuel, 4 * bytes.length ≤ fuel → n.canonicalRecords root fuel = some (.ok emitted)) ∧
      (emitted ≠ [] → Encodable emitted) ∧ (emitted = records ↔ Canonical records) := by
  obtain ⟨records, ws, hdec, hws, hcount, rfl, hreb⟩ := fromBlob_ok h
  obtain ⟨⟨hfits, hne, hlen⟩, hbytes⟩ := decode_eq_ok.mp hdec
  have hfuel := length_le_blobBytes records
  rw [← hbytes] at hfuel
  obtain ⟨rec, rest, rfl⟩ := exists_cons_of_ne_nil hne
  cases hagent : rec.isAgent with
  | false =>
    -- the root is the eraser: nothing is listed, and the first record is not canonical
    have hroot : (recordPorts 1 (rec :: rest)).headD .null = .era := by
      rw [recordPorts, if_neg (by simp [hagent])]
      rfl
    rw [hroot]
    refine ⟨_, [], hdec, fun fuel hle => ?_, fun hnil => absurd rfl hnil, ?_⟩
    · obtain ⟨more, rfl⟩ := Nat.exists_eq_add_of_le (show 2 ≤ fuel by omega)
      rw [Nat.add_comm]
      rfl
    · refine iff_of_false (by simp) fun hc => ?_
      rw [hc.1 rec mem_cons_self] at hagent
      cases hagent
  | true =>
    have hroot : (recordPorts 1 (rec :: rest)).headD .null = .new 1 .principal false := by
      rw [recordPorts, if_pos hagent]
      rfl
    rw [hroot]
    obtain ⟨l, hrun, hl, hle⟩ := Net.canonicalRecords_depthFirst (hreb.bounded hws)
      (PortId.isReal_of_pos (k := .principal) (g := false) Nat.one_pos)
      (by
        rw [filter_cons_of_pos hagent, length_cons]
        exact Nat.succ_lt_succ (Nat.succ_pos _)) (fun i hi => by
        have := shape_agentSlot hfits i
        rw [← hreb.shape i, hi] at this
        exact this)
    have hdescribe := hreb.describe_fits hfits (l := l) (by omega)
    have hagents := length_filter_le Record.isAgent (rec :: rest)
    refine ⟨_, l.map (n.wiring.describe l), hdec, fun fuel hle => hrun fuel (by omega), fun _ => ?_,
      ?_⟩
    · refine ⟨fun r hr => ?_, ?_, ?_⟩
      · obtain ⟨i, -, rfl⟩ := mem_map.mp hr
        exact (hdescribe i).1
      · intro hnil
        rw [map_eq_nil_iff.mp hnil] at hl
        cases hl.head
      · rw [length_map]
        omega
    · constructor
      · intro hrecords
        have hagents : ∀ r ∈ rec :: rest, r.isAgent = true := by
          rw [← hrecords]
          intro r hr
          obtain ⟨i, -, rfl⟩ := mem_map.mp hr
          exact (hdescribe i).2
        have hwiring := hreb.wiring_eq hagents
        rw [hwiring] at hl hrecords
        exact ⟨hagents, ws, l, hws, hl, hrecords.symm⟩
      · rintro ⟨hagents, ws', l', hws', hl', hrecords⟩
        rw [hws] at hws'
        cases hws'
        rw [← hreb.wiring_eq hagents] at hl' hrecords
        rw [hrecords, hl'.unique hl]

/-- `to_blob` succeeds on the net of a blob, and gives the blob back exactly if its records are
canonical. -/
theorem toBlob_fromBlob (h : fromBlob debug bytes = .ok (n, root)) :
    ∃ records b, decode bytes = .ok records ∧
      (∀ fuel, 4 * bytes.length ≤ fuel → n.toBlob root fuel = some (.ok b)) ∧
      (b = bytes ↔ Canonical records) := by
  obtain ⟨records, emitted, hdec, hrun, hencodable, hiff⟩ := canonicalRecords_fromBlob h
  refine ⟨records, blobBytes emitted, hdec, fun fuel hfuel => ?_, ?_⟩
  · unfold Net.toBlob Net.serialize
    rw [hrun fuel hfuel]
    rfl
  · rw [← hiff]
    constructor
    · intro hb
      by_cases hnil : emitted = []
      · rw [← hb, hnil] at hdec
        cases hdec
      · have hagain := decode_eq_ok.mpr ⟨hencodable hnil, hb.symm⟩
        rw [hdec] at hagain
        exact (Except.ok.inj hagain).symm
    · rintro rfl
      exact (decode_eq_ok.mp hdec).2.symm

end

end Dnet
