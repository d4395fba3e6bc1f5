import Dnet.Lib.Codec
import Dnet.Store.Blob

/-!
# Serialising a net

`serialize` (canonical_hash.rs): a depth-first traversal from the root numbers the agents in the
order of the first visit, and every agent becomes a record whose edges name the agents by their
numbers. Two nets that look the same from their roots are serialised to the same bytes,
wherever their agents are stored (`serialize_eq_of_iso`).
-/

namespace Dnet

open Lib List

theorem PortId.sentinel_eq (p : PortId) : (p.isEraser || p.isNull) = !p.isReal := by
  simp [PortId.isReal]

/-! ## The traversal -/

/-- The numbers given so far, the ports by which the agents were first reached, and the ports
that are still to be visited, the next one first. -/
structure DfsState where
  canonicalIdx : Nat → Option Nat
  order : List PortId
  stack : List PortId

namespace Net

/-- What is pushed when an agent is visited; a free variable is a leaf. -/
def dfsChildren (n : Net) (port : PortId) : List PortId :=
  let s := n.slot port
  let peer (k : PortKind) := n.peer (.new port.slotIdx k port.genLow)
  if s.isFree then []
  else if s.isFan || s.isRep then [peer .principal, peer .aux0, peer .aux1]
  else []

/-- The port that was popped: number its agent, unless it is a sentinel or has a number. -/
def dfsVisit (n : Net) (port : PortId) (st : DfsState) : DfsState :=
  if port.isEraser || port.isNull then st
  else if (st.canonicalIdx port.slotIdx).isSome then st
  else
    { canonicalIdx := Function.update st.canonicalIdx port.slotIdx (some st.order.length)
      order := st.order ++ [port]
      stack := n.dfsChildren port ++ st.stack }

/-- One turn of the loop of `dfs_assign`. -/
def dfsRound (n : Net) (st : DfsState) : Except DnxError (Round DfsState DfsState) :=
  match st.stack with
  | [] => .ok (.done st)
  | port :: stack => .ok (.next (n.dfsVisit port { st with stack := stack }))

def dfsAssign (n : Net) (root : PortId) (fuel : Nat) : Option (Except DnxError DfsState) :=
  loop n.dfsRound fuel ⟨fun _ => none, [], [root]⟩

/-! ## Records -/

/-- An edge to an agent that the traversal missed is an error, never the eraser. -/
def emitEdge (n : Net) (canonicalIdx : Nat → Option Nat) (port : PortId) : Except DnxError Edge :=
  let peer := n.peer port
  if peer.isEraser || peer.isNull then .ok none
  else
    match canonicalIdx peer.slotIdx with
    | none => .error .readbackIncomplete
    | some idx => .ok (some (idx, peer.portKind))

def emitRecord (n : Net) (canonicalIdx : Nat → Option Nat) (port : PortId) :
    Except DnxError Record :=
  if port.isEraser then .ok .eraser
  else
    let s := n.slot port
    let edge (k : PortKind) := n.emitEdge canonicalIdx (.new port.slotIdx k port.genLow)
    if s.isFree then .ok (.freeVar (s.data % 0x4000))
    else if s.isFan && s.fanIsAbs then do return .fanAbs (← edge .aux0) (← edge .aux1)
    else if s.isFan then do return .fanApp (← edge .principal) (← edge .aux1)
    else if s.isRep then do return .repIn s.data s.delta0 s.delta1 (← edge .aux0) (← edge .aux1)
    else .error (.primError "canonical_hash: PrimVal/PrimFun not yet supported (Phase C)")

end Net

/-! ## Bytes -/

def selOf : PortKind → Nat
  | .principal => 0
  | .aux0 => 1
  | .aux1 => 2

def Edge.bytes : Edge → List UInt8
  | none => leBytes 4 eraserIdx ++ leBytes 1 eraserSel
  | some (idx, kind) => leBytes 4 idx ++ leBytes 1 (selOf kind)

/-- `i16::to_le_bytes`. -/
def i16Bytes (d : Int) : List UInt8 := leBytes 2 (BitVec.ofInt 16 d).toNat

def Record.bytes : Record → List UInt8
  | .eraser => leBytes 1 kindEraser
  | .freeVar varId => leBytes 1 kindFreeVar ++ leBytes 4 varId
  | .fanAbs body var => leBytes 1 kindFanAbs ++ Edge.bytes body ++ Edge.bytes var
  | .fanApp func arg => leBytes 1 kindFanApp ++ Edge.bytes func ++ Edge.bytes arg
  | .repIn level delta0 delta1 left right =>
    leBytes 1 kindRepIn ++ leBytes 2 level ++ i16Bytes delta0 ++ i16Bytes delta1 ++
      Edge.bytes left ++ Edge.bytes right

/-- Version, count and records. -/
def blobBytes (records : List Record) : List UInt8 :=
  leBytes 1 canonHashV1Tag ++ leBytes 4 records.length ++ records.flatMap Record.bytes

namespace Net

/-- The records of the agents that the root reaches, in the order of the traversal. -/
def canonicalRecords (n : Net) (root : PortId) (fuel : Nat) :
    Option (Except DnxError (List Record)) := do
  return (← n.dfsAssign root fuel) >>= fun st => st.order.mapM (n.emitRecord st.canonicalIdx)

def serialize (n : Net) (root : PortId) (fuel : Nat) : Option (Except DnxError (List UInt8)) := do
  return (← n.canonicalRecords root fuel).map blobBytes

def toBlob (n : Net) (root : PortId) (fuel : Nat) : Option (Except DnxError (List UInt8)) :=
  n.serialize root fuel

end Net

/-! ## What the bytes tell of a slot -/

/-- What the bytes tell of an agent, its edges apart. -/
inductive Shape where
  | free (varId : Nat)
  | abs
  | app
  | rep (level : Nat) (delta0 delta1 : Int)
  | prim
  deriving DecidableEq, Repr

def Slot.shape (s : Slot) : Shape :=
  match s.kind with
  | .free => .free (s.data % 0x4000)
  | .fanAbs => .abs
  | .fanApp => .app
  | .rep _ _ => .rep s.data s.delta0 s.delta1
  | .primVal | .primFun => .prim

namespace Net

section

variable (n : Net) (port : PortId)

theorem dfsChildren_eq : n.dfsChildren port = match (n.slot port).shape with
    | .free _ | .prim => []
    | .abs | .app | .rep _ _ _ => [.principal, .aux0, .aux1].map fun k =>
        n.peer (.new port.slotIdx k port.genLow) := by
  unfold dfsChildren Slot.shape Slot.isFree Slot.isFan Slot.isRep
  dsimp only
  cases (n.slot port).kind <;> rfl

theorem emitRecord_eq (canonicalIdx : Nat → Option Nat) (h : port.isEraser = false) :
    n.emitRecord canonicalIdx port =
      let edge (k : PortKind) := n.emitEdge canonicalIdx (.new port.slotIdx k port.genLow)
      match (n.slot port).shape with
      | .free varId => .ok (.freeVar varId)
      | .abs => do return .fanAbs (← edge .aux0) (← edge .aux1)
      | .app => do return .fanApp (← edge .principal) (← edge .aux1)
      | .rep level delta0 delta1 => do
        return .repIn level delta0 delta1 (← edge .aux0) (← edge .aux1)
      | .prim => .error (.primError "canonical_hash: PrimVal/PrimFun not yet supported (Phase C)") := by
  unfold emitRecord Slot.shape Slot.isFree Slot.isFan Slot.isRep Slot.fanIsAbs
  rw [h]
  dsimp only
  cases (n.slot port).kind <;> rfl

end

/-! ## Nets that look the same from their roots -/

/-- The slots that a port leads to. -/
inductive LeadsTo (n : Net) (root : PortId) : Nat → Prop where
  | root : root.isReal = true → LeadsTo n root root.slotIdx
  | step {i : Nat} {k : PortKind} {g : Bool} : LeadsTo n root i →
      (n.peer (.new i k g)).isReal = true → LeadsTo n root (n.peer (.new i k g)).slotIdx

/-- The port `q` is the image of the port `p`, or both are sentinels. -/
def SamePort (φ : Nat → Nat) (p q : PortId) : Prop :=
  (p.isReal = false ∧ q.isReal = false) ∨
    (p.isReal = true ∧ q.isReal = true ∧ q.slotIdx = φ p.slotIdx ∧ q.portKind = p.portKind)

/-- `φ` is one-to-one between the slots that `r` and `r'` lead to: it keeps what the bytes tell
of an agent and the wires with their port kinds, and takes one root to the other. That every
slot `r'` leads to is an image follows from the last two. -/
structure GraphIso (φ : Nat → Nat) (n : Net) (r : PortId) (n' : Net) (r' : PortId) : Prop where
  inj : ∀ i j, n.LeadsTo r i → n.LeadsTo r j → φ i = φ j → i = j
  shape : ∀ i, n.LeadsTo r i → (n'.arena.slots (φ i)).shape = (n.arena.slots i).shape
  wires : ∀ i k g g', n.LeadsTo r i → SamePort φ (n.peer (.new i k g)) (n'.peer (.new (φ i) k g'))
  root : SamePort φ r r'

section

variable {φ : Nat → Nat} {n n' : Net} {r r' : PortId}

/-- The two traversals after the same number of turns. -/
structure Lockstep (φ : Nat → Nat) (n : Net) (r : PortId) (st st' : DfsState) : Prop where
  idx : ∀ i, n.LeadsTo r i → st'.canonicalIdx (φ i) = st.canonicalIdx i
  order : List.Forall₂ (fun p q => p.isReal = true ∧ SamePort φ p q ∧ n.LeadsTo r p.slotIdx)
    st.order st'.order
  stack : List.Forall₂ (fun p q => SamePort φ p q ∧ (p.isReal = true → n.LeadsTo r p.slotIdx))
    st.stack st'.stack

variable {p q : PortId} {st st' : DfsState}

theorem GraphIso.children (h : GraphIso φ n r n' r') (hp : n.LeadsTo r p.slotIdx)
    (hq : q.slotIdx = φ p.slotIdx) :
    List.Forall₂ (fun p q => SamePort φ p q ∧ (p.isReal = true → n.LeadsTo r p.slotIdx))
      (n.dfsChildren p) (n'.dfsChildren q) := by
  have hpeer (k : PortKind) : SamePort φ (n.peer (.new p.slotIdx k p.genLow))
        (n'.peer (.new q.slotIdx k q.genLow)) ∧
      ((n.peer (.new p.slotIdx k p.genLow)).isReal = true →
        n.LeadsTo r (n.peer (.new p.slotIdx k p.genLow)).slotIdx) := by
    rw [hq]
    exact ⟨h.wires _ k _ _ hp, .step hp⟩
  have hshape : (n'.slot q).shape = (n.slot p).shape := by
    rw [slot, slot, hq]
    exact h.shape _ hp
  rw [dfsChildren_eq, dfsChildren_eq, hshape]
  split
  all_goals first
    | exact .nil
    | exact .cons (hpeer _) (.cons (hpeer _) (.cons (hpeer _) .nil))

theorem Lockstep.visit (h : GraphIso φ n r n' r') (hst : Lockstep φ n r st st')
    (hpq : SamePort φ p q) (hp : p.isReal = true → n.LeadsTo r p.slotIdx) :
    Lockstep φ n r (n.dfsVisit p st) (n'.dfsVisit q st') := by
  unfold dfsVisit
  rcases hpq with ⟨hreal, hreal'⟩ | ⟨hreal, hreal', hslot, hkind⟩
  · rw [p.sentinel_eq, q.sentinel_eq, hreal, hreal']
    exact hst
  · have hlead := hp hreal
    rw [p.sentinel_eq, q.sentinel_eq, hreal, hreal', hslot, hst.idx _ hlead]
    simp only [Bool.not_true, Bool.false_eq_true, if_false]
    split
    · exact hst
    · refine ⟨fun i hi => ?_, ?_, ?_⟩
      · simp only [Function.update_apply]
        by_cases hip : i = p.slotIdx
        · rw [if_pos hip, if_pos (congrArg φ hip), hst.order.length_eq]
        · rw [if_neg hip, if_neg fun he => hip (h.inj _ _ hi hlead he)]
          exact hst.idx i hi
      · exact rel_append hst.order (.cons ⟨hreal, .inr ⟨hreal, hreal', hslot, hkind⟩, hlead⟩ .nil)
      · exact rel_append (h.children hlead hslot) hst.stack

theorem Lockstep.run (h : GraphIso φ n r n' r') : ∀ (fuel : Nat) {st st' : DfsState},
    Lockstep φ n r st st' → (loop n.dfsRound fuel st = none ∧ loop n'.dfsRound fuel st' = none) ∨
        ∃ t t', loop n.dfsRound fuel st = some (.ok t) ∧ loop n'.dfsRound fuel st' = some (.ok t') ∧
          Lockstep φ n r t t'
  | 0, _, _, _ => .inl ⟨rfl, rfl⟩
  | fuel + 1, st, st', hst => by
    have hstack := hst.stack
    cases hs : st.stack with
    | nil =>
      rw [hs, forall₂_nil_left_iff] at hstack
      refine .inr ⟨st, st', ?_, ?_, hst⟩
      · rw [loop, dfsRound, hs]
      · rw [loop, dfsRound, hstack]
    | cons p stack =>
      rw [hs, forall₂_cons_left_iff] at hstack
      obtain ⟨q, stack', ⟨hpq, hp⟩, hrest, hs'⟩ := hstack
      have hpopped : Lockstep φ n r { st with stack := stack } { st' with stack := stack' } :=
        ⟨hst.idx, hst.order, hrest⟩
      rw [loop_of_next (by rw [dfsRound, hs]), loop_of_next (by rw [dfsRound, hs'])]
      exact Lockstep.run h fuel (hpopped.visit h hpq hp)

theorem GraphIso.emitEdge (h : GraphIso φ n r n' r') (hst : Lockstep φ n r st st') {i : Nat}
    (hi : n.LeadsTo r i) (k : PortKind) (g g' : Bool) :
    n'.emitEdge st'.canonicalIdx (.new (φ i) k g') = n.emitEdge st.canonicalIdx (.new i k g) := by
  unfold Net.emitEdge
  rcases h.wires i k g g' hi with ⟨hreal, hreal'⟩ | ⟨hreal, hreal', hslot, hkind⟩
  · simp only [PortId.sentinel_eq, hreal, hreal', Bool.not_false, if_true]
  · simp only [PortId.sentinel_eq, hreal, hreal', hslot, hkind, hst.idx _ (.step hi hreal)]

theorem GraphIso.emitRecord (h : GraphIso φ n r n' r') (hst : Lockstep φ n r st st')
    (hreal : p.isReal = true) (hpq : SamePort φ p q) (hp : n.LeadsTo r p.slotIdx) :
    n'.emitRecord st'.canonicalIdx q = n.emitRecord st.canonicalIdx p := by
  rcases hpq with ⟨hnot, -⟩ | ⟨-, hreal', hslot, -⟩
  · rw [hreal] at hnot
    cases hnot
  · have hshape : (n'.slot q).shape = (n.slot p).shape := by
      rw [slot, slot, hslot]
      exact h.shape _ hp
    rw [emitRecord_eq _ _ _ (PortId.isReal_iff.mp hreal').1,
      emitRecord_eq _ _ _ (PortId.isReal_iff.mp hreal).1, hshape, hslot]
    simp only [h.emitEdge hst hp _ p.genLow q.genLow]

theorem GraphIso.records (h : GraphIso φ n r n' r') (fuel : Nat) :
    n'.canonicalRecords r' fuel = n.canonicalRecords r fuel := by
  have hstart : Lockstep φ n r ⟨fun _ => none, [], [r]⟩ ⟨fun _ => none, [], [r']⟩ :=
    ⟨fun _ _ => rfl, .nil, .cons ⟨h.root, .root⟩ .nil⟩
  unfold canonicalRecords dfsAssign
  rcases hstart.run h fuel with ⟨hrun, hrun'⟩ | ⟨st, st', hrun, hrun', hst⟩
  · rw [hrun, hrun']
    rfl
  · rw [hrun, hrun']
    show some (st'.order.mapM (n'.emitRecord st'.canonicalIdx)) =
      some (st.order.mapM (n.emitRecord st.canonicalIdx))
    have horder := hst.order
    generalize st.order = l at horder
    generalize st'.order = l' at horder
    congr 1
    induction horder with
    | nil => rfl
    | cons hpq _ ih =>
      rw [mapM_cons, mapM_cons, ih, h.emitRecord hst hpq.1 hpq.2.1 hpq.2.2]

/-- Serialisation depends only on what the root sees, for nets that the reducer returns and for
all others, and however long the traversal may run. -/
theorem serialize_eq_of_iso (h : GraphIso φ n r n' r') (fuel : Nat) :
    n'.serialize r' fuel = n.serialize r fuel := by
  unfold serialize
  rw [h.records fuel]

end

/-- The slots that a port leads to are among those of a set that no wire leaves. -/
theorem LeadsTo.mem {n : Net} {r : PortId} {slots : List Nat} {i : Nat} (h : n.LeadsTo r i)
    (hr : r.slotIdx ∈ slots) (hwires : ∀ j ∈ slots, ∀ k g, (n.peer (.new j k g)).isReal = true →
      (n.peer (.new j k g)).slotIdx ∈ slots) : i ∈ slots := by
  induction h with
  | root => exact hr
  | step _ hreal ih => exact hwires _ ih _ _ hreal

/-- `λx. x x`: the abstraction in slot `i`, the application in slot `j`, and the replicator of `x`
in slot `k`. The ports carry the generation bit `g`. -/
def dupAt (i j k : Nat) (g : Bool) : Net :=
  let agents := (((Net.new 8).modifySlot i fun s => { s with kind := .fanAbs }).modifySlot j
    fun s => { s with kind := .fanApp }).modifySlot k
      fun s => { s with kind := .repInUnknown, delta0 := 0, delta1 := 1 }
  (((agents.connect (.new i .aux0 g) (.new j .aux0 g) .root).connect (.new i .aux1 g)
    (.new k .principal g) .root).connect (.new j .principal g) (.new k .aux0 g) .root).connect
      (.new j .aux1 g) (.new k .aux1 g) .root

/-- From the slots of `dupAt 1 2 3` to those of `dupAt 6 2 4`. -/
def moveDup : Nat → Nat
  | 1 => 6
  | 2 => 2
  | _ => 4

theorem leadsTo_dupAt {i : Nat} (h : (dupAt 1 2 3 false).LeadsTo (.new 1 .principal false) i) :
    i = 1 ∨ i = 2 ∨ i = 3 := by
  have hmem : i ∈ [1, 2, 3] := h.mem (by decide) fun j hj k g hreal => by
    simp only [mem_cons, not_mem_nil, or_false] at hj
    rcases hj with rfl | rfl | rfl <;> cases k <;> cases g <;> revert hreal <;> decide
  simpa using hmem

theorem graphIso_dupAt : GraphIso moveDup (dupAt 1 2 3 false) (.new 1 .principal false)
    (dupAt 6 2 4 true) (.new 6 .principal true) where
  inj i j hi hj h := by
    rcases leadsTo_dupAt hi with rfl | rfl | rfl <;>
      rcases leadsTo_dupAt hj with rfl | rfl | rfl <;> first | rfl | cases h
  shape i hi := by rcases leadsTo_dupAt hi with rfl | rfl | rfl <;> rfl
  wires i k g g' hi := by
    rcases leadsTo_dupAt hi with rfl | rfl | rfl <;> cases k <;> cases g <;> cases g' <;>
      first | exact .inl ⟨rfl, rfl⟩ | exact .inr ⟨rfl, rfl, rfl, rfl⟩
  root := .inr ⟨rfl, rfl, rfl, rfl⟩

/-- The two nets have one serialisation, with the edges of the replicator. -/
theorem serialize_dupAt :
    (dupAt 6 2 4 true).serialize (.new 6 .principal true) 12 =
      (dupAt 1 2 3 false).serialize (.new 1 .principal false) 12 ∧
    (dupAt 1 2 3 false).serialize (.new 1 .principal false) 12 =
      some (.ok (blobBytes [.fanAbs (some (1, .aux0)) (some (2, .principal)),
        .fanApp (some (2, .aux0)) (some (2, .aux1)),
        .repIn 0 0 1 (some (1, .principal)) (some (1, .aux1))])) :=
  ⟨serialize_eq_of_iso graphIso_dupAt 12, by decide +kernel⟩

end Net

end Dnet
