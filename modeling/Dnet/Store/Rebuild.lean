import Dnet.Store.Blob

/-!
# The net of a list of records

What `from_blob` makes of decoded records, said on the records: which agent sits in which
slot (`agentSlot`), whether they all get one (`allocCheck`), which wires the edges give
(`recordWires`) and when the net is certified. A port that several edges name keeps the
last one (`lastEnd`).
-/

namespace Dnet

open Lib List

/-! ## Agents -/

def Record.isAgent : Record → Bool
  | .eraser => false
  | .freeVar _ | .fanAbs _ _ | .fanApp _ _ | .repIn _ _ _ _ _ => true

/-- The slot of a record before its ports are wired. -/
def Record.slot : Record → Slot
  | .eraser => .empty
  | .freeVar varId => { Slot.empty with kind := .free, data := varId % 0x4000 }
  | .fanAbs _ _ => { Slot.empty with kind := .fanAbs }
  | .fanApp _ _ => { Slot.empty with kind := .fanApp }
  | .repIn level delta0 delta1 _ _ =>
    { Slot.empty with kind := .repInUnpaired, data := level, delta0 := delta0, delta1 := delta1 }

/-- The agents get the slots from 1 on, in order. -/
def agentSlot (agents : List Record) (i : Nat) : Slot :=
  if i = 0 then .empty else ((agents[i - 1]?).map Record.slot).getD .empty

/-- The port of each record, when the next free slot is `i`. -/
def recordPorts : Nat → List Record → List PortId
  | _, [] => []
  | i, rec :: records =>
    if rec.isAgent then .new i .principal false :: recordPorts (i + 1) records
    else .era :: recordPorts i records

/-- The assertion on the level of a replicator holds. -/
def Record.levelFits : Record → Bool
  | .repIn level _ _ _ _ => level ≤ 385
  | .eraser | .freeVar _ | .fanAbs _ _ | .fanApp _ _ => true

/-- Whether the records get their agents, in an arena with `room` free slots: the first
record that fails the assertion or finds the arena full decides. -/
def allocCheck (debug : Bool) : Nat → List Record → Except Abort Unit
  | _, [] => .ok ()
  | room, rec :: records =>
    if rec.isAgent then
      if debug && !rec.levelFits then .error .assertion
      else match room with
        | 0 => .error (.err .arenaCapacityExceeded)
        | room + 1 => allocCheck debug room records
    else allocCheck debug room records

namespace Net

/-- A net of unwired agents. -/
structure Unwired (cap : Nat) (agents : List Record) (n : Net) : Prop where
  cap_eq : n.arena.cap = cap
  slots : ∀ i, n.arena.slots i = agentSlot agents i
  count : n.arena.slotCount = agents.length + 1
  free : n.arena.freeList = []
  live : ∀ i, n.arena.isLive i = decide (0 < i ∧ i ≤ agents.length)
  frontier1 : n.frontier1 = .empty
  frontier2 : n.frontier2 = .empty
  pending : n.pendingC1 = false

theorem Unwired.new (capacity : Nat) :
    Unwired (min capacity Arena.maxSlots) [] (Net.new capacity) where
  cap_eq := rfl
  slots := fun i => by
    unfold agentSlot
    split <;> rfl
  count := rfl
  free := rfl
  live := fun i => by
    rw [show ((Net.new capacity).arena.isLive i) = false from rfl]
    symm
    rw [decide_eq_false_iff_not]
    rintro ⟨h0, h1⟩
    exact absurd h1 (Nat.not_le.mpr h0)
  frontier1 := rfl
  frontier2 := rfl
  pending := rfl

section

variable {agents : List Record} {rec : Record} {cap : Nat} {n : Net} {debug : Bool}

theorem agentSlot_append (i : Nat) : agentSlot (agents ++ [rec]) i =
      if i = agents.length + 1 then rec.slot else agentSlot agents i := by
  unfold agentSlot
  by_cases h0 : i = 0
  · subst h0
    rfl
  · obtain ⟨j, rfl⟩ := Nat.exists_eq_succ_of_ne_zero h0
    simp only [Nat.succ_ne_zero, if_false, Nat.succ_sub_one]
    by_cases hj : j = agents.length
    · subst hj
      simp
    · rw [if_neg (fun h => hj (Nat.succ.inj h))]
      rcases Nat.lt_or_gt_of_ne hj with hlt | hgt
      · rw [List.getElem?_append_left hlt]
      · rw [List.getElem?_eq_none (by simpa using Nat.succ_le_of_lt hgt),
          List.getElem?_eq_none (Nat.le_of_lt hgt)]

theorem Unwired.push {i : Nat} {a : Arena} (h : Unwired cap agents n)
    (ha : n.arena.allocSlot = .ok (i, a)) {f : Slot → Slot} (hf : f .empty = rec.slot) :
    i = agents.length + 1 ∧
      Unwired cap (agents ++ [rec]) ({ n with arena := a }.modifySlot i f) := by
  unfold Arena.allocSlot at ha
  rw [h.free] at ha
  dsimp only at ha
  split at ha
  · cases ha
  · cases ha
    refine ⟨h.count, h.cap_eq, fun j => ?_, ?_, rfl, fun j => ?_, h.frontier1, h.frontier2,
      h.pending⟩
    · rw [slots_modifySlot, agentSlot_append, ← h.count]
      split
      · simpa [Arena.setSlot] using hf
      · next hj =>
        simp only [Arena.slots_pushLive, Arena.setSlot, hj, if_false]
        exact h.slots j
    · rw [length_append, length_singleton, ← h.count]
      rfl
    · rw [isLive_modifySlot, Arena.isLive_pushLive, Arena.isLive_setSlot]
      show (decide (j = n.arena.slotCount) || n.arena.isLive j) = _
      rw [h.live, h.count, length_append, length_singleton, ← Bool.decide_or]
      exact decide_eq_decide.mpr (by omega)

theorem Unwired.full (h : Unwired cap agents n) (hc : cap ≤ agents.length + 1) :
    n.arena.allocSlot = .error .arenaCapacityExceeded := by
  unfold Arena.allocSlot
  rw [h.free]
  dsimp only
  rw [if_pos]
  rw [h.count, h.cap_eq]
  exact hc

theorem Unwired.room (h : Unwired cap agents n) (hc : agents.length + 1 < cap) :
    ∃ i a, n.arena.allocSlot = .ok (i, a) := by
  unfold Arena.allocSlot
  rw [h.free]
  dsimp only
  rw [if_neg]
  · exact ⟨_, _, rfl⟩
  · rw [h.count, h.cap_eq]
    exact Nat.not_le.mpr hc

theorem genLow_agentSlot (agents : List Record) (i : Nat) : (agentSlot agents i).genLow = false := by
  unfold agentSlot
  split
  · rfl
  · cases agents[i - 1]? with
    | none => rfl
    | some rec => cases rec <;> rfl

/-- The allocations of the kinds of agents are one: they differ in what they write. -/
theorem allocRecord_eq (debug : Bool) (n : Net) (hr : rec.isAgent = true) :
    ∃ f : Slot → Slot, f .empty = rec.slot ∧ Dnet.allocRecord debug n rec =
      if debug && !rec.levelFits then .error .assertion
      else match n.arena.allocSlot with
        | .error e => .error (.err e)
        | .ok (i, a) =>
          let n' := { n with arena := a }.modifySlot i f
          .ok (.new i .principal (n'.arena.slots i).genLow, n') := by
  cases rec with
  | eraser => cases hr
  | freeVar varId =>
    refine ⟨fun s => { s with kind := .free, data := varId % 0x4000 }, rfl, ?_⟩
    simp only [Dnet.allocRecord, allocFree, Record.levelFits, Bool.not_true, Bool.and_false,
      Bool.false_eq_true, if_false]
    cases n.arena.allocSlot <;> rfl
  | fanAbs body var =>
    refine ⟨fun s => { s with kind := .fanAbs, data := 0, delta0 := 0, delta1 := 0 }, rfl, ?_⟩
    simp only [Dnet.allocRecord, allocAbs, allocAgent, Record.levelFits, Bool.not_true,
      Bool.and_false, Bool.false_eq_true, if_false]
    cases n.arena.allocSlot <;> rfl
  | fanApp func arg =>
    refine ⟨fun s => { s with kind := .fanApp, data := 0, delta0 := 0, delta1 := 0 }, rfl, ?_⟩
    simp only [Dnet.allocRecord, allocApp, allocAgent, Record.levelFits, Bool.not_true,
      Bool.and_false, Bool.false_eq_true, if_false]
    cases n.arena.allocSlot <;> rfl
  | repIn level delta0 delta1 left right =>
    refine ⟨fun s => { s with
      kind := .repInUnpaired, data := level, delta0 := delta0, delta1 := delta1 }, rfl, ?_⟩
    have hlev : (!Record.levelFits (.repIn level delta0 delta1 left right)) = decide (level > 385) := by
      rw [Record.levelFits, ← decide_not]
      exact decide_eq_decide.mpr Nat.not_le
    rw [hlev]
    simp only [Dnet.allocRecord, allocRepIn, allocAgent]
    split
    · rfl
    · cases n.arena.allocSlot <;> rfl

/-- An agent that passes the assertion gets the next slot, if there is one. -/
theorem Unwired.allocRecord (h : Unwired cap agents n) (hr : rec.isAgent = true)
    (hlev : (debug && !rec.levelFits) = false) (hroom : agents.length + 1 < cap) :
    ∃ n', Dnet.allocRecord debug n rec = .ok (.new (agents.length + 1) .principal false, n') ∧
      Unwired cap (agents ++ [rec]) n' := by
  obtain ⟨f, hf, heq⟩ := allocRecord_eq debug n hr
  obtain ⟨i, a, ha⟩ := h.room hroom
  obtain ⟨rfl, hn'⟩ := h.push ha hf
  refine ⟨_, ?_, hn'⟩
  rw [heq, hlev, ha]
  simp only [Bool.false_eq_true, if_false]
  rw [hn'.slots, genLow_agentSlot]

theorem allocRecords_cons {n1 : Net} {p : PortId} (h : Dnet.allocRecord debug n rec = .ok (p, n1))
    (records : List Record) : Dnet.allocRecords debug (rec :: records) n =
      (Dnet.allocRecords debug records n1).map fun (ps, n') => (p :: ps, n') := by
  rw [Dnet.allocRecords, h]
  show (Dnet.allocRecords debug records n1 >>= fun r => pure (p :: r.1, r.2)) = _
  cases Dnet.allocRecords debug records n1 <;> rfl

theorem allocRecords_error {e : Abort} (h : Dnet.allocRecord debug n rec = .error e)
    (records : List Record) : Dnet.allocRecords debug (rec :: records) n = .error e := by
  rw [Dnet.allocRecords, h]
  rfl

/-- The records get the slots in order, or fail as `allocCheck` says. -/
theorem Unwired.allocRecords (debug : Bool) :
    ∀ (records : List Record) {agents : List Record} {n : Net} {room : Nat},
      Unwired cap agents n → agents.length + 1 + room = cap →
        match allocCheck debug room records with
        | .error e => Dnet.allocRecords debug records n = .error e
        | .ok () => ∃ n', Dnet.allocRecords debug records n =
            .ok (recordPorts (agents.length + 1) records, n') ∧
              Unwired cap (agents ++ records.filter Record.isAgent) n'
  | [], agents, n, room, h, _ => by
    rw [filter_nil, append_nil]
    exact ⟨n, rfl, h⟩
  | rec :: records, agents, n, room, h, hroom => by
    unfold allocCheck recordPorts
    cases hr : rec.isAgent with
    | false =>
      have heq : Dnet.allocRecord debug n rec = .ok (.era, n) := by
        cases rec with
        | eraser => rfl
        | _ => cases hr
      have ih := Unwired.allocRecords debug records h hroom
      rw [allocRecords_cons heq, filter_cons_of_neg (by rw [hr]; exact Bool.false_ne_true)]
      simp only [Bool.false_eq_true, if_false]
      split at ih
      · rw [ih]
        rfl
      · obtain ⟨n', hn', hu⟩ := ih
        exact ⟨n', by rw [hn']; rfl, hu⟩
    | true =>
      simp only [if_true]
      obtain ⟨f, hf, heq⟩ := allocRecord_eq debug n hr
      cases hlev : debug && !rec.levelFits with
      | true =>
        rw [hlev] at heq
        exact allocRecords_error heq records
      | false =>
        cases room with
        | zero =>
          rw [hlev, h.full (Nat.le_of_eq hroom.symm)] at heq
          exact allocRecords_error heq records
        | succ room =>
          obtain ⟨n1, heq, hn1⟩ := h.allocRecord hr hlev (by omega)
          have hlen : (agents ++ [rec]).length = agents.length + 1 := by simp
          have hsum : (agents ++ [rec]).length + 1 + room = cap := by
            rw [hlen]
            omega
          have ih := Unwired.allocRecords debug records hn1 hsum
          rw [allocRecords_cons heq, filter_cons_of_pos hr]
          simp only [Bool.false_eq_true, if_false]
          split at ih
          · rw [ih]
            rfl
          · obtain ⟨n', hn', hu⟩ := ih
            refine ⟨n', by rw [hn', hlen]; rfl, ?_⟩
            rwa [append_assoc, singleton_append] at hu

end

end Net

/-! ## Wires -/

/-- The wires of the edges of one record. -/
def edgeWires (slots : List PortId) (base : PortId) : List (PortKind × Edge) →
    Except DnxError (List (PortId × PortId))
  | [] => .ok []
  | (kind, edge) :: edges => do
    let dst ← resolve slots edge
    let ws ← edgeWires slots base edges
    return (.new base.slotIdx kind base.genLow, dst) :: ws

/-- The wires of all edges, in the order in which they are connected. -/
def wiresOf (slots : List PortId) : List (PortId × Record) →
    Except DnxError (List (PortId × PortId))
  | [] => .ok []
  | (base, rec) :: rest => do
    let ws ← edgeWires slots base rec.edges
    let ws' ← wiresOf slots rest
    return ws ++ ws'

def recordWires (records : List Record) : Except DnxError (List (PortId × PortId)) :=
  wiresOf (recordPorts 1 records) ((recordPorts 1 records).zip records)

/-- The other end of the last wire that names the port `c`. -/
def lastEnd (c : Nat × PortKind) : List (PortId × PortId) → Option PortId
  | [] => none
  | (a, b) :: ws =>
    (lastEnd c ws).or (if b.isReal = true ∧ c = b.cell then some a
      else if a.isReal = true ∧ c = a.cell then some b else none)

namespace Net

def joinAll (n : Net) (ws : List (PortId × PortId)) : Net :=
  ws.foldl (fun n w => n.connect w.1 w.2 .root) n

theorem wireRecord_eq (slots : List PortId) (base : PortId) :
    ∀ (edges : List (PortKind × Edge)) (n : Net),
      wireRecord slots base edges n = (edgeWires slots base edges).map n.joinAll
  | [], _ => rfl
  | (kind, edge) :: edges, n => by
    unfold wireRecord edgeWires
    cases resolve slots edge with
    | error e => rfl
    | ok dst =>
      show wireRecord slots base edges (n.connect _ dst .root) = _
      rw [wireRecord_eq slots base edges]
      cases edgeWires slots base edges <;> rfl

theorem wireRecords_eq (slots : List PortId) : ∀ (rest : List (PortId × Record)) (n : Net),
    wireRecords slots rest n = (wiresOf slots rest).map n.joinAll
  | [], _ => rfl
  | (base, rec) :: rest, n => by
    unfold wireRecords wiresOf
    rw [wireRecord_eq]
    cases edgeWires slots base rec.edges with
    | error e => rfl
    | ok ws =>
      show wireRecords slots rest (n.joinAll ws) = _
      rw [wireRecords_eq slots rest]
      cases wiresOf slots rest with
      | error e => rfl
      | ok ws' =>
        show Except.ok _ = Except.ok _
        rw [joinAll, joinAll, joinAll, foldl_append]

theorem portAt_joinAll (c : Nat × PortKind) : ∀ (ws : List (PortId × PortId)) (n : Net),
    (n.joinAll ws).portAt c = (lastEnd c ws).getD (n.portAt c)
  | [], _ => rfl
  | (a, b) :: ws, n => by
    show ((n.connect a b .root).joinAll ws).portAt c = _
    rw [portAt_joinAll c ws, portAt_connect, lastEnd]
    cases lastEnd c ws with
    | some q => rfl
    | none =>
      rw [Option.none_or]
      show (if _ then a else _) = _
      split
      · rfl
      · split <;> rfl

/-! ## The queues -/

/-- `connect` queues the wire, when the agents are those of `slots`. -/
def detects (slots : Nat → Slot) (a b : PortId) : Bool :=
  let isRep (p : PortId) := !p.isEraser && !p.isNull && (slots p.slotIdx).isRep
  let isApp (p : PortId) :=
    !p.isEraser && !p.isNull && (slots p.slotIdx).isFan && (slots p.slotIdx).fanIsApp
  match a.portKind, b.portKind with
  | .principal, .principal => !a.isNull && !b.isNull
  | .principal, .aux0 => isRep a && isApp b
  | .aux0, .principal => isApp a && isRep b
  | _, _ => false

/-- Nothing is queued. -/
def idle (n : Net) : Bool := n.frontier1.isEmpty && n.frontier2.isEmpty

theorem detects_congr {s s' : Nat → Slot} (h : ∀ i, (s i).kind = (s' i).kind) (a b : PortId) :
    detects s a b = detects s' a b := by
  unfold detects Slot.isRep Slot.isFan Slot.fanIsApp
  simp only [h]

theorem isAppFanPort_eq (n : Net) (p : PortId) :
    n.isAppFanPort p = (!p.isEraser && !p.isNull && (n.slot p).isFan && (n.slot p).fanIsApp) := by
  unfold isAppFanPort
  cases p.isEraser <;> cases p.isNull <;> simp

theorem idle_detectPair (n : Net) (a b : PortId) (lo : LOPath) :
    (n.detectPair a b lo).idle = (n.idle && !detects n.arena.slots a b) := by
  unfold detectPair detects idle
  simp only [isAppFanPort_eq, isRepPort, slot]
  cases ha : a.portKind <;> cases hb : b.portKind
  · simp only [ActivePair.new, PrincipalPortId.new, ha, hb, dite_true]
    split
    · next h =>
      show ((n.frontier1.insert lo _).isEmpty && _) = _
      simp [h]
    · next h => simp [h]
  all_goals dsimp only
  all_goals first
    | (split
       · next h => simp [h]
       · next h => simp [h])
    | simp

theorem idle_linkNoPair (n : Net) (a b : PortId) : (n.linkNoPair a b).idle = n.idle := by
  unfold linkNoPair writePort
  split <;> split <;> rfl

theorem idle_connect (n : Net) (a b : PortId) (lo : LOPath) :
    (n.connect a b lo).idle = (n.idle && !detects n.arena.slots a b) := by
  unfold connect
  rw [idle_detectPair, idle_linkNoPair,
    detects_congr fun i => congrArg Body.kind (bodyAt_linkNoPair n a b i)]

theorem idle_joinAll : ∀ (ws : List (PortId × PortId)) (n : Net),
    (n.joinAll ws).idle = (n.idle && ws.all fun w => !detects n.arena.slots w.1 w.2)
  | [], n => by simp [joinAll]
  | (a, b) :: ws, n => by
    show ((n.connect a b .root).joinAll ws).idle = _
    rw [idle_joinAll ws, idle_connect, all_cons, Bool.and_assoc]
    congr 3
    funext w
    rw [detects_congr fun i => congrArg Body.kind (bodyAt_connect n a b .root i)]

end Net

end Dnet
