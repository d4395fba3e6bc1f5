import Dnet.Core.Net

/-!
# The interaction rules

`r2_era_fan` … `r7_rep_rep` (reduce/rules.rs). Each rule reads the auxiliary peers of
its pair, allocates the copies it needs, retires the pair and connects the peers.
A path that cannot be extended or an arena that is full ends the rule with an error.
-/

namespace Dnet

namespace Net

/-- The common body of R2 and R3: erase the agent at `p`, both auxiliary peers get
the eraser. -/
def eraAgent (n : Net) (p : PortId) (lo : LOPath) : Except DnxError Net := do
  let s := n.slot p
  let ext0 := s.aux0
  let ext1 := s.aux1
  let n := n.setEraserOnPort ext0
  let n := n.setEraserOnPort ext1
  let n := n.retire p.slotIdx
  let lo0 ← lo.extendLeft
  let n := n.connect .era ext0 lo0
  let lo1 ← lo.extendRight
  return n.connect .era ext1 lo1

def r2EraFan (n : Net) (fanP : PortId) (lo : LOPath) : Except DnxError Net :=
  n.eraAgent fanP lo

def r3EraRep (n : Net) (repP : PortId) (lo : LOPath) : Except DnxError Net :=
  n.eraAgent repP lo

/-- R4, the β-rule. When the abstraction is the identity (its body and variable ports
are both its own), the result and the argument are linked and nothing is queued. -/
def r4FanFan (n : Net) (p0 p1 : PortId) (lo : LOPath) : Except DnxError Net := do
  let (absP, appP) := if (n.slot p0).fanIsAbs then (p0, p1) else (p1, p0)
  let abs := n.slot absP
  let app := n.slot appP
  let bodyPeer := abs.aux0
  let varPeer := abs.aux1
  let resPeer := app.aux0
  let argPeer := app.aux1
  let n := n.retire absP.slotIdx
  let n := n.retire appP.slotIdx
  if bodyPeer.slotIdx = absP.slotIdx ∧ varPeer.slotIdx = absP.slotIdx then
    return n.linkNoPair resPeer argPeer
  else
    let lo0 ← lo.extendLeft
    let n := n.connect bodyPeer resPeer lo0
    let lo1 ← lo.extendRight
    return n.connect varPeer argPeer lo1

/-- R5: a fan meets a replicator and both are copied. A fan whose auxiliary ports are
both its own is copied without replicators. -/
def r5FanRep (n : Net) (fanP repP : PortId) (lo : LOPath) : Except DnxError Net := do
  let fan := n.slot fanP
  let rep := n.slot repP
  let isAbs := fan.fanIsAbs
  let fanTag := if isAbs then AgentKind.fanAbs else .fanApp
  let extA := fan.aux0
  let extB := fan.aux1
  let extC := rep.aux0
  let extD := rep.aux1
  let (f0, n) ← n.allocAgent fanTag 0 0 0
  let (f1, n) ← n.allocAgent fanTag 0 0 0
  let lo00 ← (← lo.extendLeft).extendLeft
  let lo01 ← (← lo.extendLeft).extendRight
  if extA.slotIdx = fanP.slotIdx ∧ extB.slotIdx = fanP.slotIdx then
    let n := n.retire fanP.slotIdx
    let n := n.retire repP.slotIdx
    let lo0 ← lo.extendLeft
    let n := n.connect f0.aux0 f0.aux1 lo0
    let lo1 ← lo.extendRight
    let n := n.connect f1.aux0 f1.aux1 lo1
    let n := n.connect f0.principal extC lo00
    return n.connect f1.principal extD lo01
  else
    let (raTag, rbTag) :=
      if isAbs then (AgentKind.repInUnknown, AgentKind.repOutUnknown)
      else (AgentKind.repOutUnknown, AgentKind.repInUnknown)
    let (ra, n) ← n.allocAgent raTag rep.data rep.delta0 rep.delta1
    let (rb, n) ← n.allocAgent rbTag rep.data rep.delta0 rep.delta1
    let n := n.retire fanP.slotIdx
    let n := n.retire repP.slotIdx
    let lo10 ← (← lo.extendRight).extendLeft
    let lo11 ← (← lo.extendRight).extendRight
    let (raLo, rbLo) := if isAbs then (lo10, lo11) else (lo11, lo10)
    let n := n.connect f0.aux0 ra.aux0 lo
    let n := n.connect f0.aux1 rb.aux0 lo
    let n := n.connect f1.aux0 ra.aux1 lo
    let n := n.connect f1.aux1 rb.aux1 lo
    let n := n.connect f0.principal extC lo00
    let n := n.connect f1.principal extD lo01
    let n := n.connect ra.principal extA raLo
    return n.connect rb.principal extB rbLo

/-- R6: two replicators with the same label annihilate. -/
def r6RepRep (n : Net) (p0 p1 : PortId) (lo : LOPath) : Except DnxError Net := do
  let a := n.slot p0
  let b := n.slot p1
  let a0 := a.aux0
  let a1 := a.aux1
  let b0 := b.aux0
  let b1 := b.aux1
  let n := n.retire p0.slotIdx
  let n := n.retire p1.slotIdx
  let lo0 ← lo.extendLeft
  let n := n.connect a0 b0 lo0
  let lo1 ← lo.extendRight
  return n.connect a1 b1 lo1

/-- Lexicographic `>` on level and deltas. -/
def labelGt (a b : Nat × Int × Int) : Bool :=
  a.1 > b.1 || (a.1 = b.1 && (a.2.1 > b.2.1 || (a.2.1 = b.2.1 && a.2.2 > b.2.2)))

def addLevel (level : Nat) (delta : Int) : Except DnxError Nat :=
  let v := (level : Int) + delta
  if 0 ≤ v ∧ v < 16384 then .ok v.toNat else .error .deltaOverflow

/-- R7: two replicators with different labels commute. The one with the greater label
is copied at the levels shifted by the other's deltas. -/
def r7RepRep (n : Net) (p0 p1 : PortId) (lo : LOPath) : Except DnxError Net := do
  let s0 := n.slot p0
  let s1 := n.slot p1
  let (hiP, hi, loP, low) :=
    if labelGt s0.label s1.label then (p0, s0, p1, s1) else (p1, s1, p0, s0)
  let (hc0, n) ← n.allocAgent hi.kind (← addLevel hi.data low.delta0) hi.delta0 hi.delta1
  let (hc1, n) ← n.allocAgent hi.kind (← addLevel hi.data low.delta1) hi.delta0 hi.delta1
  let (lc0, n) ← n.allocAgent low.kind low.data low.delta0 low.delta1
  let (lc1, n) ← n.allocAgent low.kind low.data low.delta0 low.delta1
  let hiA0 := hi.aux0
  let hiA1 := hi.aux1
  let loA0 := low.aux0
  let loA1 := low.aux1
  let n := n.retire hiP.slotIdx
  let n := n.retire loP.slotIdx
  let n := n.connect hc0.aux0 lc0.aux0 lo
  let n := n.connect hc0.aux1 lc1.aux0 lo
  let n := n.connect hc1.aux0 lc0.aux1 lo
  let n := n.connect hc1.aux1 lc1.aux1 lo
  let n := n.connect hc0.principal loA0 (← (← lo.extendLeft).extendLeft)
  let n := n.connect hc1.principal loA1 (← (← lo.extendLeft).extendRight)
  let n := n.connect lc0.principal hiA0 (← (← lo.extendRight).extendLeft)
  return n.connect lc1.principal hiA1 (← (← lo.extendRight).extendRight)

end Net

end Dnet
