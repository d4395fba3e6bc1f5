import Dnet.Core.Net

/-!
# The canonicalisation rules

`c1_mark_sweep`, `c2_rep_merge`, `c3_rep_decay` and `c4_aux_fan_replication`
(reduce/canon.rs), and their dispatch by net class (the four `CRules` impls of
reduce/mod.rs).
-/

namespace Dnet

/-! ## C2: unpaired replicator merge -/

/-- A merge C2 has found: the neighbour to merge into, what stands behind the merged
replicator, and the neighbour's new slot. -/
structure C2Merge where
  repB : PortId
  ext : PortId
  bShifted : Slot

/-- `i16::checked_add`. -/
def checkedAddI16 (a b : Int) : Except DnxError Int :=
  if -32768 ≤ a + b ∧ a + b ≤ 32767 then .ok (a + b) else .error .deltaOverflow

/-- One round of the scan over the two auxiliary ports: the port on which to merge,
its delta, and whether the other port is erased. -/
def c2GateAt (a : Slot) (fetch : PortId → Slot) (repB : PortId) (delta : Int)
    (otherErased : Bool) : Except DnxError (Option C2Merge) :=
  if !otherErased then .ok none
  else if repB.isEraser || repB.isNull || repB.portKind ≠ .principal then .ok none
  else
    let b := fetch repB
    if !b.isRep then .ok none
    else
      let diff := (b.data : Int) - a.data
      if diff < 0 ∨ diff > delta then .ok none
      else do
        let d0 ← checkedAddI16 b.delta0 diff
        let d1 ← checkedAddI16 b.delta1 diff
        return some ⟨repB, a.principal, { b with delta0 := d0, delta1 := d1, data := a.data }⟩

def c2GateAndShift (a : Slot) (fetch : PortId → Slot) : Except DnxError (Option C2Merge) :=
  if !a.repIsUnpaired then .ok none
  else do
    match ← c2GateAt a fetch a.aux0 a.delta0 a.aux1Erased with
    | some m => return some m
    | none => c2GateAt a fetch a.aux1 a.delta1 a.aux0Erased

namespace Net

def c2RepMerge (n : Net) (repA : PortId) (lo : LOPath) : Except DnxError Net := do
  let a := n.slot repA
  match ← c2GateAndShift a n.slot with
  | none => return n
  | some m =>
    let n := n.modifySlot m.repB.slotIdx (fun _ => m.bShifted)
    let n := n.retire repA.slotIdx
    return n.connect m.repB m.ext lo

/-! ## C3: unpaired replicator decay -/

/-- Both ports erased: the eraser moves up, for an unpaired replicator only. One port
erased and the other at delta zero: the replicator is a wire. -/
def c3RepDecay (n : Net) (repP : PortId) (lo : LOPath) : Net :=
  let rep := n.slot repP
  let ext := rep.principal
  match rep.aux0Erased, rep.aux1Erased with
  | true, true =>
    if rep.repIsUnpaired then
      ((n.setEraserOnPort ext).retire repP.slotIdx).connect .era ext lo
    else n
  | true, false =>
    if rep.delta1 = 0 then (n.retire repP.slotIdx).connect ext rep.aux1 lo else n
  | false, true =>
    if rep.delta0 = 0 then (n.retire repP.slotIdx).connect ext rep.aux0 lo else n
  | false, false => n

/-! ## C4: auxiliary fan replication -/

def c4AuxFanReplication (n : Net) (cand : C4Candidate) : Except DnxError Net := do
  let appAux0 := cand.appAux0
  let repP := cand.repPrincipal
  let lo := cand.lo
  let app := n.slot appAux0
  let rep := n.slot repP
  if app.aux0.isEraser then
    let up := app.principal
    let arg := app.aux1
    let n := n.setEraserOnPort up
    let n := n.setEraserOnPort arg
    let n := n.retire appAux0.slotIdx
    let n := n.retire repP.slotIdx
    let n := n.connect .era up (← lo.extendLeft)
    return n.connect .era arg (← lo.extendRight)
  else
    let extUp := app.principal
    let extArg := app.aux1
    let extC := rep.aux0
    let extD := rep.aux1
    let (newRep, n) ← n.allocAgent .repInUnknown rep.data rep.delta0 rep.delta1
    let (newArg, n) ← n.allocAgent .repInUnknown rep.data rep.delta0 rep.delta1
    let (app0, n) ← n.allocAgent .fanApp 0 0 0
    let (app1, n) ← n.allocAgent .fanApp 0 0 0
    let n := n.retire appAux0.slotIdx
    let n := n.retire repP.slotIdx
    let n := n.connect newRep.aux0 app0.principal lo
    let n := n.connect newRep.aux1 app1.principal lo
    let n := n.connect app0.aux1 newArg.aux0 lo
    let n := n.connect app1.aux1 newArg.aux1 lo
    let n := n.connect app0.aux0 extC (← (← lo.extendLeft).extendLeft)
    let n := n.connect app1.aux0 extD (← (← lo.extendLeft).extendRight)
    let n := n.connect newRep.principal extUp (← (← lo.extendRight).extendLeft)
    return n.connect newArg.principal extArg (← (← lo.extendRight).extendRight)

/-! ## C1: mark and sweep -/

/-- Mark slot `i` and queue it, unless it is the sentinel or already marked. -/
def c1Mark (st : Net × List Nat) (i : Nat) : Net × List Nat :=
  if i ≠ 0 ∧ (st.1.arena.slots i).c1Mark = false then
    (st.1.modifySlot i (fun s => { s with c1Mark := true }), st.2 ++ [i])
  else st

/-- Breadth-first marking. A slot enters the queue when it is marked, so `slotCount`
rounds empty it. -/
def c1Bfs : Nat → Net × List Nat → Net
  | 0, st => st.1
  | _ + 1, (n, []) => n
  | fuel + 1, (n, i :: queue) =>
    let s := n.arena.slots i
    c1Bfs fuel ([s.principal.slotIdx, s.aux0.slotIdx, s.aux1.slotIdx].foldl c1Mark (n, queue))

/-- Clear the mark of a reachable slot, retire an unreachable one. -/
def c1SweepSlot (n : Net) (i : Nat) : Net :=
  if (n.arena.slots i).c1Mark then n.modifySlot i (fun s => { s with c1Mark := false })
  else n.retire i

def c1MarkSweep (n : Net) : Net :=
  let st := (n.freeSlots.map (·.2.slotIdx)).foldl c1Mark (n, [])
  let n := c1Bfs n.arena.slotCount st
  let n := n.arena.liveList.foldl c1SweepSlot n
  { n with pendingC1 := false }

/-! ## Dispatch by class -/

/-- `CRules::c1`. -/
def c1 (C : NetClass) (n : Net) : Net :=
  if C.hasEra then n.c1MarkSweep else n

/-- `CRules::c2`. -/
def c2 (C : NetClass) (n : Net) (rep : PortId) (lo : LOPath) : Except DnxError Net :=
  if C.hasRep then n.c2RepMerge rep lo else .ok n

/-- `CRules::c3`. -/
def c3 (C : NetClass) (n : Net) (rep : PortId) (lo : LOPath) : Except DnxError Net :=
  match C with
  | .ΔK => .ok (n.c3RepDecay rep lo)
  | .ΔL | .ΔA | .ΔI => .ok n

/-- `CRules::c4`. -/
def c4 (C : NetClass) (n : Net) (cand : C4Candidate) : Except DnxError Net :=
  if C.hasRep then n.c4AuxFanReplication cand else .ok n

end Net

end Dnet
