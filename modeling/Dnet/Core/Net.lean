import Dnet.Core.Arena
import Dnet.Lib.Loop
import Dnet.Lib.OrdMap

/-!
# Nets

`Net` (net.rs): the arena, the two work queues, the named roots and the pending-C1
flag, with the wiring operations every rule is made of.

The wires are read through cells: `portAt` is the port stored at a position of a
slot, and the lemmas below say what each operation stores where.
-/

namespace Dnet

open Lib

/-- Two principal ports that face each other, with their leftmost-outermost path. -/
structure ActivePair where
  p0 : PrincipalPortId
  p1 : PrincipalPortId
  lo : LOPath
  deriving DecidableEq, Repr

/-- `None` unless both ports are principal. -/
def ActivePair.new (p0 p1 : PortId) (lo : LOPath) : Option ActivePair := do
  let q0 ← PrincipalPortId.new p0
  let q1 ← PrincipalPortId.new p1
  return ⟨q0, q1, lo⟩

structure C4Candidate where
  repPrincipal : PortId
  appAux0 : PortId
  lo : LOPath
  deriving DecidableEq, Repr

structure AgentPorts where
  principal : PortId
  aux0 : PortId
  aux1 : PortId
  deriving DecidableEq, Repr

/-- `freeSlots` is the map of named roots. Of `net_flags` only the pending-C1 bit is
read outside tests; the class bits are the class parameter of the reducer. -/
structure Net where
  arena : Arena
  frontier1 : OrdMap LOPath ActivePair
  frontier2 : OrdMap LOPath C4Candidate
  freeSlots : List (String × PortId)
  pendingC1 : Bool

/-! ## Port fields of a slot -/

namespace Slot

/-- Store `val` at position `k`. An eraser on an auxiliary port of a replicator
also sets the erased flag of that port. -/
def writePort (s : Slot) (k : PortKind) (val : PortId) : Slot :=
  match k with
  | .principal => { s with principal := val }
  | .aux0 => { s with aux0 := val, aux0Erased := s.aux0Erased || (val.isEraser && s.isRep) }
  | .aux1 => { s with aux1 := val, aux1Erased := s.aux1Erased || (val.isEraser && s.isRep) }

/-- Store the eraser at position `k`, with the flags that go with it. -/
def setEraser (s : Slot) (k : PortKind) : Slot :=
  match k with
  | .principal => { s with principal := .era }
  | .aux0 => { s with aux0 := .era, aux0Erased := s.aux0Erased || s.isRep }
  | .aux1 =>
    { s with
      aux1 := .era
      aux1Erased := s.aux1Erased || s.isRep
      erasingAbs := s.erasingAbs || s.fanIsAbs }

theorem port_writePort (s : Slot) (k k' : PortKind) (v : PortId) :
    (s.writePort k v).port k' = if k' = k then v else s.port k' := by
  cases k <;> cases k' <;> rfl

theorem port_setEraser (s : Slot) (k k' : PortKind) :
    (s.setEraser k).port k' = if k' = k then .era else s.port k' := by
  cases k <;> cases k' <;> rfl

end Slot

/-- The position of a port: its slot and which of the three ports it is. -/
def PortId.cell (p : PortId) : Nat × PortKind := (p.slotIdx, p.portKind)

namespace Net

def new (capacity : Nat) : Net :=
  { arena := .new capacity, frontier1 := .empty, frontier2 := .empty, freeSlots := []
    pendingC1 := false }

section

variable (n : Net)

/-- The slot of a port. -/
def slot (p : PortId) : Slot := n.arena.slots p.slotIdx

/-- What is stored at a position. -/
def portAt (c : Nat × PortKind) : PortId := (n.arena.slots c.1).port c.2

/-- Follow a port to the port it is connected to. -/
def peer (p : PortId) : PortId :=
  if p.isEraser || p.isNull then p else (n.slot p).port p.portKind

def slotIsLive (p : PortId) : Bool :=
  !p.isEraser && !p.isNull && n.arena.isLive p.slotIdx

def modifySlot (i : Nat) (f : Slot → Slot) : Net :=
  { n with arena := n.arena.setSlot i (f (n.arena.slots i)) }

def writePort (port val : PortId) : Net :=
  if port.isEraser || port.isNull then n
  else n.modifySlot port.slotIdx (·.writePort port.portKind val)

def isRepPort (p : PortId) : Bool :=
  !p.isEraser && !p.isNull && (n.slot p).isRep

def isAppFanPort (p : PortId) : Bool :=
  if p.isEraser || p.isNull then false
  else (n.slot p).isFan && (n.slot p).fanIsApp

/-- Queue the wire between `a` and `b` if it is an active pair or a C4 candidate. -/
def detectPair (a b : PortId) (lo : LOPath) : Net :=
  match a.portKind, b.portKind with
  | .principal, .principal =>
    if !a.isNull && !b.isNull then
      match ActivePair.new a b lo with
      | some ap => { n with frontier1 := n.frontier1.insert lo ap }
      | none => n
    else n
  | .principal, .aux0 =>
    if n.isRepPort a && n.isAppFanPort b then
      { n with frontier2 := n.frontier2.insert lo ⟨a, b, lo⟩ }
    else n
  | .aux0, .principal =>
    if n.isAppFanPort a && n.isRepPort b then
      { n with frontier2 := n.frontier2.insert lo ⟨b, a, lo⟩ }
    else n
  | _, _ => n

/-- Connect two ports without looking for an active pair. -/
def linkNoPair (a b : PortId) : Net := (n.writePort a b).writePort b a

def connect (a b : PortId) (lo : LOPath) : Net :=
  (n.linkNoPair a b).detectPair a b lo

def setEraserOnPort (port : PortId) : Net :=
  if port.isEraser || port.isNull then n
  else
    { n.modifySlot port.slotIdx (·.setEraser port.portKind) with
      pendingC1 := n.pendingC1 || decide (port.portKind ≠ .principal) }

/-- The three ports of slot `i`, with the parity of its generation. -/
def ports (i : Nat) : AgentPorts :=
  let g := (n.arena.slots i).genLow
  ⟨.new i .principal g, .new i .aux0 g, .new i .aux1 g⟩

def allocAgent (kind : AgentKind) (data : Nat) (delta0 delta1 : Int) :
    Except DnxError (AgentPorts × Net) := do
  let (i, arena) ← n.arena.allocSlot
  let n := { n with arena := arena }.modifySlot i
    (fun s => { s with kind := kind, data := data, delta0 := delta0, delta1 := delta1 })
  return (n.ports i, n)

def allocAbs : Except DnxError (AgentPorts × Net) := n.allocAgent .fanAbs 0 0 0

def allocApp : Except DnxError (AgentPorts × Net) := n.allocAgent .fanApp 0 0 0

/-- `debug` says whether `debug_assert!` is compiled in. -/
def allocRepIn (debug : Bool) (level : Nat) (delta0 delta1 : Int) :
    Except Abort (AgentPorts × Net) :=
  if debug && level > 385 then .error .assertion
  else liftM (n.allocAgent .repInUnpaired level delta0 delta1)

def allocFree (varId : Nat) : Except DnxError (PortId × Net) := do
  let (i, arena) ← n.arena.allocSlot
  let n := { n with arena := arena }.modifySlot i
    (fun s => { s with kind := .free, data := varId % 0x4000 })
  return (.new i .principal (n.arena.slots i).genLow, n)

def retire (i : Nat) : Net := { n with arena := n.arena.retireSlot i }

/-- `HashMap::insert` on the named roots. -/
def addRoot (name : String) (port : PortId) : Net :=
  { n with freeSlots := (name, port) :: n.freeSlots.filter (fun e => e.1 != name) }

/-- The gate of the `Canonical` state. -/
def certifyCanonical : Except DnxError Unit :=
  if n.frontier1.isEmpty && n.frontier2.isEmpty && !n.pendingC1 then .ok ()
  else .error .readbackIncomplete

end

/-! ## What the wiring operations store -/

section

variable {p a b : PortId} {n : Net}

theorem not_isReal (h : p.isReal = false) : (p.isEraser || p.isNull) = true := by
  unfold PortId.isReal at h
  rwa [Bool.not_eq_false'] at h

theorem of_isReal (h : p.isReal = true) : (p.isEraser || p.isNull) = false := by
  simpa [PortId.isReal] using h

theorem peer_of_isReal (h : p.isReal = true) : n.peer p = n.portAt p.cell := by
  simp [peer, of_isReal h, portAt, PortId.cell, slot]

theorem slots_modifySlot (n : Net) (i j : Nat) (f : Slot → Slot) :
    (n.modifySlot i f).arena.slots j = if j = i then f (n.arena.slots i) else n.arena.slots j := rfl

@[simp] theorem isLive_modifySlot (n : Net) (i j : Nat) (f : Slot → Slot) :
    (n.modifySlot i f).arena.isLive j = n.arena.isLive j := rfl

theorem writePort_of_isReal {v : PortId} (h : p.isReal = true) :
    n.writePort p v = n.modifySlot p.slotIdx (·.writePort p.portKind v) := by
  simp [writePort, of_isReal h]

theorem writePort_of_not_isReal {v : PortId} (h : p.isReal = false) : n.writePort p v = n := by
  simp [writePort, not_isReal h]

section

variable (n : Net)

theorem portAt_writePort (p v : PortId) (c : Nat × PortKind) :
    (n.writePort p v).portAt c = if p.isReal = true ∧ c = p.cell then v else n.portAt c := by
  cases hr : p.isReal with
  | false => simp [writePort_of_not_isReal hr]
  | true =>
    rw [writePort_of_isReal hr]
    obtain ⟨j, k⟩ := c
    simp only [portAt, slots_modifySlot, PortId.cell, Prod.mk.injEq]
    by_cases hj : j = p.slotIdx
    · simp [hj, Slot.port_writePort]
    · simp [hj]

section

variable (a b : PortId)

theorem portAt_linkNoPair (c : Nat × PortKind) :
    (n.linkNoPair a b).portAt c =
      if b.isReal = true ∧ c = b.cell then a
      else if a.isReal = true ∧ c = a.cell then b else n.portAt c := by
  simp [linkNoPair, portAt_writePort]

section

variable (lo : LOPath)

theorem detectPair_eq :
    ∃ f1 f2, n.detectPair a b lo = { n with frontier1 := f1, frontier2 := f2 } := by
  unfold detectPair
  split
  · split
    · split <;> exact ⟨_, _, rfl⟩
    · exact ⟨_, _, rfl⟩
  · split <;> exact ⟨_, _, rfl⟩
  · split <;> exact ⟨_, _, rfl⟩
  · exact ⟨_, _, rfl⟩

@[simp] theorem arena_detectPair : (n.detectPair a b lo).arena = n.arena := by
  obtain ⟨f1, f2, h⟩ := detectPair_eq n a b lo
  rw [h]

@[simp] theorem freeSlots_detectPair : (n.detectPair a b lo).freeSlots = n.freeSlots := by
  obtain ⟨f1, f2, h⟩ := detectPair_eq n a b lo
  rw [h]

@[simp] theorem pendingC1_detectPair : (n.detectPair a b lo).pendingC1 = n.pendingC1 := by
  obtain ⟨f1, f2, h⟩ := detectPair_eq n a b lo
  rw [h]

@[simp] theorem pendingC1_connect : (n.connect a b lo).pendingC1 = n.pendingC1 := by
  rw [connect, pendingC1_detectPair]
  unfold linkNoPair writePort
  split <;> split <;> rfl

theorem arena_connect : (n.connect a b lo).arena = (n.linkNoPair a b).arena :=
  arena_detectPair _ _ _ _

theorem portAt_connect (c : Nat × PortKind) :
    (n.connect a b lo).portAt c =
      if b.isReal = true ∧ c = b.cell then a
      else if a.isReal = true ∧ c = a.cell then b else n.portAt c := by
  rw [← portAt_linkNoPair]
  simp only [portAt, arena_connect]

end

end

theorem portAt_setEraserOnPort (p : PortId) (c : Nat × PortKind) :
    (n.setEraserOnPort p).portAt c =
      if p.isReal = true ∧ c = p.cell then .era else n.portAt c := by
  unfold setEraserOnPort
  cases hr : p.isReal with
  | false => simp [not_isReal hr]
  | true =>
    obtain ⟨j, k⟩ := c
    simp only [of_isReal hr, Bool.false_eq_true, if_false, portAt, slots_modifySlot, PortId.cell,
      Prod.mk.injEq]
    by_cases hj : j = p.slotIdx
    · simp [hj, Slot.port_setEraser]
    · simp [hj]

@[simp] theorem portAt_retire (i : Nat) (c : Nat × PortKind) :
    (n.retire i).portAt c = n.portAt c := by
  simp [portAt, retire]

/-! ## What the wiring operations leave alone -/

/-- Everything of a slot but its three ports and its flags. -/
structure Body where
  kind : AgentKind
  generation : Nat
  label : Nat × Int × Int
  deriving DecidableEq, Repr

/-- The kind, generation and label of slot `i`. -/
def bodyAt (i : Nat) : Body :=
  let s := n.arena.slots i
  ⟨s.kind, s.generation, s.label⟩

@[simp] theorem bodyAt_writePort (p v : PortId) (i : Nat) :
    (n.writePort p v).bodyAt i = n.bodyAt i := by
  cases hr : p.isReal with
  | false => rw [writePort_of_not_isReal hr]
  | true =>
    simp only [bodyAt, writePort_of_isReal hr, slots_modifySlot]
    split
    · next hi =>
      rw [hi]
      cases p.portKind <;> rfl
    · rfl

section

variable (a b : PortId)

@[simp] theorem bodyAt_linkNoPair (i : Nat) : (n.linkNoPair a b).bodyAt i = n.bodyAt i := by
  simp [linkNoPair]

@[simp] theorem bodyAt_connect (lo : LOPath) (i : Nat) :
    (n.connect a b lo).bodyAt i = n.bodyAt i := by
  rw [← bodyAt_linkNoPair n a b]
  simp only [bodyAt, arena_connect]

@[simp] theorem bodyAt_setEraserOnPort (p : PortId) (i : Nat) :
    (n.setEraserOnPort p).bodyAt i = n.bodyAt i := by
  unfold setEraserOnPort
  split
  · rfl
  · simp only [bodyAt, slots_modifySlot]
    split
    · next hi =>
      rw [hi]
      cases p.portKind <;> rfl
    · rfl

@[simp] theorem bodyAt_retire (i j : Nat) : (n.retire i).bodyAt j = n.bodyAt j := by
  simp [bodyAt, retire]

@[simp] theorem isLive_writePort (p v : PortId) (i : Nat) :
    (n.writePort p v).arena.isLive i = n.arena.isLive i := by
  unfold writePort
  split <;> simp

theorem frontier1_linkNoPair : (n.linkNoPair a b).frontier1 = n.frontier1 := by
  unfold linkNoPair writePort modifySlot
  split <;> split <;> rfl

theorem frontier2_linkNoPair : (n.linkNoPair a b).frontier2 = n.frontier2 := by
  unfold linkNoPair writePort modifySlot
  split <;> split <;> rfl

@[simp] theorem isLive_linkNoPair (i : Nat) :
    (n.linkNoPair a b).arena.isLive i = n.arena.isLive i := by
  simp [linkNoPair]

@[simp] theorem isLive_connect (lo : LOPath) (i : Nat) :
    (n.connect a b lo).arena.isLive i = n.arena.isLive i := by
  simp [connect]

@[simp] theorem isLive_setEraserOnPort (p : PortId) (i : Nat) :
    (n.setEraserOnPort p).arena.isLive i = n.arena.isLive i := by
  unfold setEraserOnPort
  split <;> simp

/-! ## The queues -/

/-- The pair `connect` queues: both ends principal and not null. -/
def IsPair : Prop :=
  a.portKind = .principal ∧ b.portKind = .principal ∧ a ≠ .null ∧ b ≠ .null

end

instance (a b : PortId) : Decidable (IsPair a b) :=
  inferInstanceAs (Decidable (_ ∧ _ ∧ _ ∧ _))

theorem frontier1_connect_of_pair (lo : LOPath) (h : IsPair a b) :
    (n.connect a b lo).frontier1 = n.frontier1.insert lo ⟨⟨a, h.1⟩, ⟨b, h.2.1⟩, lo⟩ := by
  obtain ⟨ha, hb, hna, hnb⟩ := h
  have hpair : ActivePair.new a b lo = some ⟨⟨a, ha⟩, ⟨b, hb⟩, lo⟩ := by
    simp only [ActivePair.new, PrincipalPortId.new, ha, hb, dite_true]
    rfl
  simp [connect, detectPair, ha, hb, hpair, PortId.isNull, hna, hnb, frontier1_linkNoPair]

theorem frontier1_connect_of_not_pair (lo : LOPath) (h : ¬IsPair a b) :
    (n.connect a b lo).frontier1 = n.frontier1 := by
  rw [← frontier1_linkNoPair n a b]
  unfold connect detectPair
  split
  · next ha hb =>
    rw [if_neg]
    simp only [Bool.and_eq_true, Bool.not_eq_true', PortId.isNull, decide_eq_false_iff_not]
    exact fun hn => h ⟨ha, hb, hn.1, hn.2⟩
  · split <;> rfl
  · split <;> rfl
  · rfl

end

/-- An entry of the first queue after a `connect`: the pair it queued, or an old
entry under another key. -/
theorem mem_frontier1_connect {lo : LOPath} {e : LOPath × ActivePair} :
    e ∈ (n.connect a b lo).frontier1 ↔ (∃ h : IsPair a b, e = (lo, ⟨⟨a, h.1⟩, ⟨b, h.2.1⟩, lo⟩)) ∨
        (e ∈ n.frontier1 ∧ (IsPair a b → e.1 ≠ lo)) := by
  by_cases h : IsPair a b
  · rw [frontier1_connect_of_pair n lo h, OrdMap.mem_insert]
    simp [h]
  · rw [frontier1_connect_of_not_pair n lo h]
    simp [h]

/-! ## Allocation -/

/-- What allocating slot `i` for an agent does. -/
structure Alloc (n : Net) (kind : AgentKind) (label : Nat × Int × Int) (i : Nat) (n' : Net) :
    Prop where
  slot_new : ∃ g, n'.arena.slots i =
    { Slot.empty with
      kind := kind, generation := g, data := label.1, delta0 := label.2.1, delta1 := label.2.2 }
  slot_old : ∀ j, j ≠ i → n'.arena.slots j = n.arena.slots j
  isLive : ∀ j, n'.arena.isLive j = (decide (j = i) || n.arena.isLive j)
  frontier1 : n'.frontier1 = n.frontier1
  frontier2 : n'.frontier2 = n.frontier2
  freeSlots : n'.freeSlots = n.freeSlots
  pendingC1 : n'.pendingC1 = n.pendingC1
  wf : n.arena.WF → n'.arena.WF ∧ n.arena.isLive i = false ∧ 0 < i

theorem allocAgent_ok {n' : Net} {kind : AgentKind} {data : Nat} {d0 d1 : Int} {ps : AgentPorts}
    (h : n.allocAgent kind data d0 d1 = .ok (ps, n')) :
    ∃ i, Alloc n kind (data, d0, d1) i n' ∧ ps = n'.ports i := by
  obtain ⟨⟨i, arena⟩, ha, h⟩ := bind_eq_ok.mp h
  cases h
  obtain ⟨⟨g, hslots⟩, hlive⟩ := Arena.allocSlot_ok ha
  refine ⟨i, ⟨⟨g, ?_⟩, fun j hj => ?_, hlive, rfl, rfl, rfl, rfl, fun hwf => ?_⟩, rfl⟩
  · simp [slots_modifySlot, hslots]
  · simp [slots_modifySlot, hslots, hj]
  · exact ⟨(hwf.allocSlot ha).1.setSlot, (hwf.allocSlot ha).2⟩

/-- A free slot is an agent: the fields that are not set are zero in a new slot. -/
theorem allocAgent_of_allocFree {n' : Net} {varId : Nat} (h : n.allocFree varId = .ok (p, n')) :
    ∃ ps, n.allocAgent .free (varId % 0x4000) 0 0 = .ok (ps, n') ∧ p = ps.principal := by
  obtain ⟨⟨i, arena⟩, ha, h⟩ := bind_eq_ok.mp h
  cases h
  obtain ⟨⟨g, hslots⟩, -⟩ := Arena.allocSlot_ok ha
  refine ⟨_, bind_eq_ok.mpr ⟨(i, arena), ha, congrArg Except.ok (Prod.ext rfl ?_)⟩, ?_⟩
  · simp [modifySlot, hslots, Slot.empty]
  · simp [ports, slots_modifySlot, Slot.genLow]

theorem allocFree_ok {n' : Net} {varId : Nat} (h : n.allocFree varId = .ok (p, n')) :
    ∃ i, Alloc n .free (varId % 0x4000, 0, 0) i n' ∧ p = (n'.ports i).principal := by
  obtain ⟨ps, ha, rfl⟩ := allocAgent_of_allocFree h
  obtain ⟨i, hi, rfl⟩ := allocAgent_ok ha
  exact ⟨i, hi, rfl⟩

/-! ## Reachability -/

/-- The slots reached from the ports `rs` along the wires. -/
inductive Reached (n : Net) (rs : List PortId) : Nat → Prop where
  | root {p : PortId} : p ∈ rs → p.isReal = true → Reached n rs p.slotIdx
  | step {i : Nat} {k : PortKind} : Reached n rs i → (n.portAt (i, k)).isReal = true →
      Reached n rs (n.portAt (i, k)).slotIdx

theorem Reached.carry {n n' : Net} {rs : List PortId} {i : Nat} {U : Nat → Prop}
    (hrs : ∀ p ∈ rs, U p.slotIdx)
    (hU : ∀ i k, U i → n'.portAt (i, k) = n.portAt (i, k) ∧ U (n.portAt (i, k)).slotIdx)
    (h : n.Reached rs i) : U i ∧ n'.Reached rs i := by
  induction h with
  | root hp hreal => exact ⟨hrs _ hp, .root hp hreal⟩
  | @step i k _ hreal ih =>
    obtain ⟨he, hk⟩ := hU i k ih.1
    rw [← he] at hreal hk ⊢
    exact ⟨hk, .step ih.2 hreal⟩

end

end Net

end Dnet
