import Dnet.Reduce.Normalize

/-!
# Rules as rewrites

Every rule of the reducer has one shape: erase some ports, allocate some agents, retire
some slots, and connect some ends. `Rewrite` is that shape as data, and each rule is shown to be
the run of the rewrite it reads off the net before it starts (`r4FanFan_ok`, …). What a rewrite
preserves is then proved once, for `Rewrite.run`.
-/

namespace Dnet

open Lib LOPath

/-! ## Rewrites -/

/-- An end of a new wire: an old port, or a port of the `k`-th new agent. -/
inductive End where
  | ext (p : PortId)
  | new (k : Nat) (kind : PortKind)
  deriving DecidableEq

/-- A wire to make; without a path no pair is looked for. -/
structure Link where
  a : End
  b : End
  lo : Option LOPath
  deriving DecidableEq

structure Rewrite where
  erased : List PortId := []
  relabel : Option (Nat × Nat × Int × Int) := none
  news : List (AgentKind × Nat × Int × Int) := []
  retired : List Nat
  links : List Link

def AgentPorts.port (ps : AgentPorts) : PortKind → PortId
  | .principal => ps.principal
  | .aux0 => ps.aux0
  | .aux1 => ps.aux1

def AgentPorts.nulls : AgentPorts := ⟨.null, .null, .null⟩

/-- The port of an end, given the ports of the new agents. -/
def End.port (ps : List AgentPorts) : End → PortId
  | .ext p => p
  | .new k kind => (ps.getD k .nulls).port kind

namespace Net

/-- Allocate the agents in order. -/
def allocAll (n : Net) : List (AgentKind × Nat × Int × Int) →
    Except DnxError (List AgentPorts × Net)
  | [] => .ok ([], n)
  | (kind, data, d0, d1) :: rest => do
    let (p, n) ← n.allocAgent kind data d0 d1
    let (ps, n) ← n.allocAll rest
    return (p :: ps, n)

def link (n : Net) (ps : List AgentPorts) (l : Link) : Net :=
  match l.lo with
  | none => n.linkNoPair (l.a.port ps) (l.b.port ps)
  | some lo => n.connect (l.a.port ps) (l.b.port ps) lo

def relabelSlot (n : Net) : Option (Nat × Nat × Int × Int) → Net
  | none => n
  | some (i, data, d0, d1) =>
    n.modifySlot i (fun s => { s with delta0 := d0, delta1 := d1, data := data })

end Net

def Rewrite.run (rw : Rewrite) (n : Net) : Except DnxError Net := do
  let n := rw.erased.foldl Net.setEraserOnPort n
  let n := n.relabelSlot rw.relabel
  let (ps, n) ← n.allocAll rw.news
  let n := rw.retired.foldl Net.retire n
  return rw.links.foldl (fun n l => n.link ps l) n

/-! ## The rewrite of each rule -/

namespace Net

section

variable (n : Net)

def eraRewrite (p : PortId) (lo : LOPath) : Except DnxError Rewrite := do
  let s := n.slot p
  let lo0 ← lo.extendLeft
  let lo1 ← lo.extendRight
  return {
    erased := [s.aux0, s.aux1]
    retired := [p.slotIdx]
    links := [⟨.ext .era, .ext s.aux0, some lo0⟩, ⟨.ext .era, .ext s.aux1, some lo1⟩] }

section

variable (p0 p1 : PortId)

/-- The abstraction and the application of a pair of fans, as R4 tells them apart. -/
def absApp : PortId × PortId :=
  if (n.slot p0).fanIsAbs then (p0, p1) else (p1, p0)

def r4Rewrite (lo : LOPath) : Except DnxError Rewrite :=
  let absP := (n.absApp p0 p1).1
  let appP := (n.absApp p0 p1).2
  let abs := n.slot absP
  let app := n.slot appP
  let retired := [absP.slotIdx, appP.slotIdx]
  if abs.aux0.slotIdx = absP.slotIdx ∧ abs.aux1.slotIdx = absP.slotIdx then
    .ok { retired := retired, links := [⟨.ext app.aux0, .ext app.aux1, none⟩] }
  else do
    let lo0 ← lo.extendLeft
    let lo1 ← lo.extendRight
    return {
      retired := retired
      links := [⟨.ext abs.aux0, .ext app.aux0, some lo0⟩, ⟨.ext abs.aux1, .ext app.aux1, some lo1⟩] }

def r5Rewrite (fanP repP : PortId) (lo : LOPath) : Except DnxError Rewrite := do
  let fan := n.slot fanP
  let rep := n.slot repP
  let isAbs := fan.fanIsAbs
  let fanTag := if isAbs then AgentKind.fanAbs else .fanApp
  let retired := [fanP.slotIdx, repP.slotIdx]
  let lo0 ← lo.extendLeft
  let lo1 ← lo.extendRight
  let lo00 ← lo0.extendLeft
  let lo01 ← lo0.extendRight
  if fan.aux0.slotIdx = fanP.slotIdx ∧ fan.aux1.slotIdx = fanP.slotIdx then
    return {
      news := [(fanTag, 0, 0, 0), (fanTag, 0, 0, 0)]
      retired := retired
      links := [⟨.new 0 .aux0, .new 0 .aux1, some lo0⟩, ⟨.new 1 .aux0, .new 1 .aux1, some lo1⟩,
        ⟨.new 0 .principal, .ext rep.aux0, some lo00⟩,
        ⟨.new 1 .principal, .ext rep.aux1, some lo01⟩] }
  else
    let lo10 ← lo1.extendLeft
    let lo11 ← lo1.extendRight
    let inTag := AgentKind.repInUnknown
    let outTag := AgentKind.repOutUnknown
    return {
      news := [(fanTag, 0, 0, 0), (fanTag, 0, 0, 0),
        (if isAbs then inTag else outTag, rep.label), (if isAbs then outTag else inTag, rep.label)]
      retired := retired
      links := [⟨.new 0 .aux0, .new 2 .aux0, some lo⟩, ⟨.new 0 .aux1, .new 3 .aux0, some lo⟩,
        ⟨.new 1 .aux0, .new 2 .aux1, some lo⟩, ⟨.new 1 .aux1, .new 3 .aux1, some lo⟩,
        ⟨.new 0 .principal, .ext rep.aux0, some lo00⟩,
        ⟨.new 1 .principal, .ext rep.aux1, some lo01⟩,
        ⟨.new 2 .principal, .ext fan.aux0, some (if isAbs then lo10 else lo11)⟩,
        ⟨.new 3 .principal, .ext fan.aux1, some (if isAbs then lo11 else lo10)⟩] }

def r6Rewrite (lo : LOPath) : Except DnxError Rewrite := do
  let a := n.slot p0
  let b := n.slot p1
  let lo0 ← lo.extendLeft
  let lo1 ← lo.extendRight
  return {
    retired := [p0.slotIdx, p1.slotIdx]
    links := [⟨.ext a.aux0, .ext b.aux0, some lo0⟩, ⟨.ext a.aux1, .ext b.aux1, some lo1⟩] }

/-- The replicator with the greater label and the other one, as R7 tells them apart. -/
def hiLo : PortId × PortId :=
  if labelGt (n.slot p0).label (n.slot p1).label then (p0, p1) else (p1, p0)

def r7Rewrite (lo : LOPath) : Except DnxError Rewrite := do
  let hiP := (n.hiLo p0 p1).1
  let loP := (n.hiLo p0 p1).2
  let hi := n.slot hiP
  let low := n.slot loP
  let lv0 ← addLevel hi.data low.delta0
  let lv1 ← addLevel hi.data low.delta1
  let lo0 ← lo.extendLeft
  let lo1 ← lo.extendRight
  let lo00 ← lo0.extendLeft
  let lo01 ← lo0.extendRight
  let lo10 ← lo1.extendLeft
  let lo11 ← lo1.extendRight
  return {
    news := [(hi.kind, lv0, hi.delta0, hi.delta1), (hi.kind, lv1, hi.delta0, hi.delta1),
      (low.kind, low.label), (low.kind, low.label)]
    retired := [hiP.slotIdx, loP.slotIdx]
    links := [⟨.new 0 .aux0, .new 2 .aux0, some lo⟩, ⟨.new 0 .aux1, .new 3 .aux0, some lo⟩,
      ⟨.new 1 .aux0, .new 2 .aux1, some lo⟩, ⟨.new 1 .aux1, .new 3 .aux1, some lo⟩,
      ⟨.new 0 .principal, .ext low.aux0, some lo00⟩, ⟨.new 1 .principal, .ext low.aux1, some lo01⟩,
      ⟨.new 2 .principal, .ext hi.aux0, some lo10⟩, ⟨.new 3 .principal, .ext hi.aux1, some lo11⟩] }

end

/-- The replicator at `repA` goes, its neighbour takes its place under the new label. -/
def mergeRewrite (repA : PortId) (lo : LOPath) (m : C2Merge) : Rewrite :=
  { relabel := some (m.repB.slotIdx, m.bShifted.label)
    retired := [repA.slotIdx]
    links := [⟨.ext m.repB, .ext m.ext, some lo⟩] }

/-- `none` when C2 finds nothing to merge. -/
def c2Rewrite (repA : PortId) (lo : LOPath) : Except DnxError (Option Rewrite) := do
  let m ← c2GateAndShift (n.slot repA) n.slot
  return m.map (mergeRewrite repA lo)

/-- `none` when C3 does nothing. -/
def c3Rewrite (repP : PortId) (lo : LOPath) : Option Rewrite :=
  let rep := n.slot repP
  let ext := rep.principal
  match rep.aux0Erased, rep.aux1Erased with
  | true, true =>
    if rep.repIsUnpaired then
      some { erased := [ext], retired := [repP.slotIdx], links := [⟨.ext .era, .ext ext, some lo⟩] }
    else none
  | true, false =>
    if rep.delta1 = 0 then
      some { retired := [repP.slotIdx], links := [⟨.ext ext, .ext rep.aux1, some lo⟩] }
    else none
  | false, true =>
    if rep.delta0 = 0 then
      some { retired := [repP.slotIdx], links := [⟨.ext ext, .ext rep.aux0, some lo⟩] }
    else none
  | false, false => none

def c4Rewrite (cand : C4Candidate) : Except DnxError Rewrite := do
  let lo := cand.lo
  let app := n.slot cand.appAux0
  let rep := n.slot cand.repPrincipal
  let retired := [cand.appAux0.slotIdx, cand.repPrincipal.slotIdx]
  let lo0 ← lo.extendLeft
  let lo1 ← lo.extendRight
  if app.aux0.isEraser then
    return {
      erased := [app.principal, app.aux1]
      retired := retired
      links := [⟨.ext .era, .ext app.principal, some lo0⟩, ⟨.ext .era, .ext app.aux1, some lo1⟩] }
  else
    let lo00 ← lo0.extendLeft
    let lo01 ← lo0.extendRight
    let lo10 ← lo1.extendLeft
    let lo11 ← lo1.extendRight
    return {
      news := [(.repInUnknown, rep.label), (.repInUnknown, rep.label), (.fanApp, 0, 0, 0),
        (.fanApp, 0, 0, 0)]
      retired := retired
      links := [⟨.new 0 .aux0, .new 2 .principal, some lo⟩, ⟨.new 0 .aux1, .new 3 .principal, some lo⟩,
        ⟨.new 2 .aux1, .new 1 .aux0, some lo⟩, ⟨.new 3 .aux1, .new 1 .aux1, some lo⟩,
        ⟨.new 2 .aux0, .ext rep.aux0, some lo00⟩, ⟨.new 3 .aux0, .ext rep.aux1, some lo01⟩,
        ⟨.new 0 .principal, .ext app.principal, some lo10⟩,
        ⟨.new 1 .principal, .ext app.aux1, some lo11⟩] }

end

end Net

/-! ## The forms of the rewrites -/

/-- Fans and replicators, the agents of the interaction rules. -/
def AgentKind.structural : AgentKind → Bool
  | .fanApp | .fanAbs | .rep _ _ => true
  | .free | .primVal | .primFun => false

theorem Slot.structural_of_isRep {s : Slot} (h : s.isRep = true) : s.kind.structural = true := by
  unfold Slot.isRep at h
  split at h
  · next hk => rw [hk]; rfl
  · cases h

namespace Rewrite

/-- Neighbours of the pair are linked to each other. -/
def joins (erased : List PortId) (retired : List Nat) (a b a' b' : PortId) (lo0 lo1 : LOPath) :
    Rewrite :=
  { erased := erased
    retired := retired
    links := [⟨.ext a, .ext b, some lo0⟩, ⟨.ext a', .ext b', some lo1⟩] }

/-- Four new agents in a square, with a neighbour at each principal port. -/
def crosses (news : List (AgentKind × Nat × Int × Int)) (retired : List Nat) (lo : LOPath)
    (q0 q1 q2 q3 : PortId) (k0 k1 k2 k3 : LOPath) : Rewrite :=
  { news := news
    retired := retired
    links := [⟨.new 0 .aux0, .new 2 .aux0, some lo⟩, ⟨.new 0 .aux1, .new 3 .aux0, some lo⟩,
      ⟨.new 1 .aux0, .new 2 .aux1, some lo⟩, ⟨.new 1 .aux1, .new 3 .aux1, some lo⟩,
      ⟨.new 0 .principal, .ext q0, some k0⟩, ⟨.new 1 .principal, .ext q1, some k1⟩,
      ⟨.new 2 .principal, .ext q2, some k2⟩, ⟨.new 3 .principal, .ext q3, some k3⟩] }

/-- Two identities, with a neighbour at each principal port. -/
def splits (fan : AgentKind) (retired : List Nat) (q0 q1 : PortId) (lo0 lo1 k0 k1 : LOPath) :
    Rewrite :=
  { news := [(fan, 0, 0, 0), (fan, 0, 0, 0)]
    retired := retired
    links := [⟨.new 0 .aux0, .new 0 .aux1, some lo0⟩, ⟨.new 1 .aux0, .new 1 .aux1, some lo1⟩,
      ⟨.new 0 .principal, .ext q0, some k0⟩, ⟨.new 1 .principal, .ext q1, some k1⟩] }

end Rewrite

section

variable {lo lo0 lo1 lo00 lo01 lo10 lo11 : LOPath}

theorem children_ne (h0 : lo.extendLeft = .ok lo0) (h1 : lo.extendRight = .ok lo1) : lo0 ≠ lo1 := by
  refine fun he => absurd (congrArg bits he) ?_
  rw [extendBit_ok h0, extendBit_ok h1]
  simp

theorem grandchildren_nodup (h0 : lo.extendLeft = .ok lo0) (h1 : lo.extendRight = .ok lo1)
    (h00 : lo0.extendLeft = .ok lo00) (h01 : lo0.extendRight = .ok lo01)
    (h10 : lo1.extendLeft = .ok lo10) (h11 : lo1.extendRight = .ok lo11) :
    [lo00, lo01, lo10, lo11].Nodup := by
  refine List.Nodup.of_map bits ?_
  simp only [List.map_cons, List.map_nil, extendBit_ok h00, extendBit_ok h01,
    extendBit_ok h10, extendBit_ok h11, extendBit_ok h0, extendBit_ok h1]
  simp

end

namespace Net

section

variable {n : Net} {p p0 p1 : PortId} {lo : LOPath} {rw : Rewrite}

theorem eraRewrite_eq_ok (h : n.eraRewrite p lo = .ok rw) : ∃ lo0 lo1, lo0 ≠ lo1 ∧
    rw = .joins [(n.slot p).aux0, (n.slot p).aux1] [p.slotIdx] .era (n.slot p).aux0 .era
      (n.slot p).aux1 lo0 lo1 := by
  obtain ⟨lo0, h0, h⟩ := bind_eq_ok.mp h
  obtain ⟨lo1, h1, h⟩ := bind_eq_ok.mp h
  exact ⟨lo0, lo1, children_ne h0 h1, (Except.ok.inj h).symm⟩

/-- The identity is linked through, any other abstraction is joined to the application. -/
theorem r4Rewrite_eq_ok (h : n.r4Rewrite p0 p1 lo = .ok rw) : ∃ a b, n.absApp p0 p1 = (a, b) ∧
    (((n.slot a).aux0.slotIdx = a.slotIdx ∧ (n.slot a).aux1.slotIdx = a.slotIdx ∧
      rw = { retired := [a.slotIdx, b.slotIdx]
             links := [⟨.ext (n.slot b).aux0, .ext (n.slot b).aux1, none⟩] }) ∨
    ∃ lo0 lo1, lo0 ≠ lo1 ∧ rw = .joins [] [a.slotIdx, b.slotIdx] (n.slot a).aux0 (n.slot b).aux0
      (n.slot a).aux1 (n.slot b).aux1 lo0 lo1) := by
  refine ⟨_, _, rfl, ?_⟩
  unfold r4Rewrite at h
  dsimp only at h
  split at h
  · next hloop => exact .inl ⟨hloop.1, hloop.2, (Except.ok.inj h).symm⟩
  · obtain ⟨lo0, h0, h⟩ := bind_eq_ok.mp h
    obtain ⟨lo1, h1, h⟩ := bind_eq_ok.mp h
    exact .inr ⟨lo0, lo1, children_ne h0 h1, (Except.ok.inj h).symm⟩

theorem r5Rewrite_eq_ok {fanP repP : PortId} (h : n.r5Rewrite fanP repP lo = .ok rw) :
    ((n.slot fanP).aux0.slotIdx = fanP.slotIdx ∧ (n.slot fanP).aux1.slotIdx = fanP.slotIdx ∧
      ∃ lo0 lo1 k0 k1, k0 ≠ k1 ∧
        rw = .splits (if (n.slot fanP).fanIsAbs then .fanAbs else .fanApp)
          [fanP.slotIdx, repP.slotIdx] (n.slot repP).aux0 (n.slot repP).aux1 lo0 lo1 k0 k1) ∨
    ∃ fan rep rep' k0 k1 k2 k3, fan.structural = true ∧ rep.structural = true ∧
      rep'.structural = true ∧ [k0, k1, k2, k3].Nodup ∧
      rw = .crosses [(fan, 0, 0, 0), (fan, 0, 0, 0), (rep, (n.slot repP).label),
        (rep', (n.slot repP).label)] [fanP.slotIdx, repP.slotIdx] lo (n.slot repP).aux0
        (n.slot repP).aux1 (n.slot fanP).aux0 (n.slot fanP).aux1 k0 k1 k2 k3 := by
  obtain ⟨lo0, h0, h⟩ := bind_eq_ok.mp h
  obtain ⟨lo1, h1, h⟩ := bind_eq_ok.mp h
  obtain ⟨lo00, h00, h⟩ := bind_eq_ok.mp h
  obtain ⟨lo01, h01, h⟩ := bind_eq_ok.mp h
  dsimp only at h
  split at h
  · next hloop =>
    exact .inl ⟨hloop.1, hloop.2, lo0, lo1, lo00, lo01, children_ne h00 h01, (Except.ok.inj h).symm⟩
  · obtain ⟨lo10, h10, h⟩ := bind_eq_ok.mp h
    obtain ⟨lo11, h11, h⟩ := bind_eq_ok.mp h
    have hnd := grandchildren_nodup h0 h1 h00 h01 h10 h11
    right
    cases habs : (n.slot fanP).fanIsAbs <;> rw [habs] at h
    · have hswap := (List.Perm.cons lo00 (List.Perm.cons lo01 (List.Perm.swap lo11 lo10 []))).nodup_iff
      exact ⟨_, _, _, _, _, _, _, rfl, rfl, rfl, hswap.mp hnd, (Except.ok.inj h).symm⟩
    · exact ⟨_, _, _, _, _, _, _, rfl, rfl, rfl, hnd, (Except.ok.inj h).symm⟩

theorem r6Rewrite_eq_ok (h : n.r6Rewrite p0 p1 lo = .ok rw) : ∃ lo0 lo1, lo0 ≠ lo1 ∧
    rw = .joins [] [p0.slotIdx, p1.slotIdx] (n.slot p0).aux0 (n.slot p1).aux0 (n.slot p0).aux1
      (n.slot p1).aux1 lo0 lo1 := by
  obtain ⟨lo0, h0, h⟩ := bind_eq_ok.mp h
  obtain ⟨lo1, h1, h⟩ := bind_eq_ok.mp h
  exact ⟨lo0, lo1, children_ne h0 h1, (Except.ok.inj h).symm⟩

theorem r7Rewrite_eq_ok (h : n.r7Rewrite p0 p1 lo = .ok rw) :
    ∃ a b lv0 lv1 k0 k1 k2 k3, n.hiLo p0 p1 = (a, b) ∧
      addLevel (n.slot a).data (n.slot b).delta0 = .ok lv0 ∧
      addLevel (n.slot a).data (n.slot b).delta1 = .ok lv1 ∧ [k0, k1, k2, k3].Nodup ∧
      rw = .crosses [((n.slot a).kind, lv0, (n.slot a).delta0, (n.slot a).delta1),
        ((n.slot a).kind, lv1, (n.slot a).delta0, (n.slot a).delta1),
        ((n.slot b).kind, (n.slot b).label), ((n.slot b).kind, (n.slot b).label)]
        [a.slotIdx, b.slotIdx] lo (n.slot b).aux0 (n.slot b).aux1 (n.slot a).aux0 (n.slot a).aux1
        k0 k1 k2 k3 := by
  obtain ⟨lv0, hv0, h⟩ := bind_eq_ok.mp h
  obtain ⟨lv1, hv1, h⟩ := bind_eq_ok.mp h
  obtain ⟨lo0, h0, h⟩ := bind_eq_ok.mp h
  obtain ⟨lo1, h1, h⟩ := bind_eq_ok.mp h
  obtain ⟨lo00, h00, h⟩ := bind_eq_ok.mp h
  obtain ⟨lo01, h01, h⟩ := bind_eq_ok.mp h
  obtain ⟨lo10, h10, h⟩ := bind_eq_ok.mp h
  obtain ⟨lo11, h11, h⟩ := bind_eq_ok.mp h
  exact ⟨_, _, lv0, lv1, _, _, _, _, rfl, hv0, hv1, grandchildren_nodup h0 h1 h00 h01 h10 h11,
    (Except.ok.inj h).symm⟩

end

/-! ## Each rule is the run of its rewrite -/

section

variable {n n' : Net} {lo : LOPath} {p0 p1 : PortId} {fetch : PortId → Slot}

theorem eraAgent_ok {p : PortId} (h : n.eraAgent p lo = .ok n') :
    ∃ rw, n.eraRewrite p lo = .ok rw ∧ rw.run n = .ok n' := by
  obtain ⟨lo0, h0, h⟩ := bind_eq_ok.mp h
  obtain ⟨lo1, h1, h⟩ := bind_eq_ok.mp h
  cases h
  refine ⟨?_, ?_, ?_⟩
  rotate_left
  · simp only [eraRewrite, h0, h1]
    rfl
  · rfl

theorem r4FanFan_ok (h : n.r4FanFan p0 p1 lo = .ok n') :
    ∃ rw, n.r4Rewrite p0 p1 lo = .ok rw ∧ rw.run n = .ok n' := by
  unfold r4FanFan at h
  cases habs : (n.slot p0).fanIsAbs <;>
    simp only [habs, Bool.false_eq_true, if_true, if_false] at h <;>
  · split at h
    · next hloop =>
      cases h
      refine ⟨?_, ?_, ?_⟩
      rotate_left
      · simp only [r4Rewrite, absApp, habs]
        exact if_pos hloop
      · rfl
    · next hloop =>
      obtain ⟨lo0, h0, h⟩ := bind_eq_ok.mp h
      obtain ⟨lo1, h1, h⟩ := bind_eq_ok.mp h
      cases h
      refine ⟨?_, ?_, ?_⟩
      rotate_left
      · simp only [r4Rewrite, absApp, habs, h0, h1]
        exact if_neg hloop
      · rfl

theorem allocAll_cons {n1 n2 : Net} {kind : AgentKind} {data : Nat} {d0 d1 : Int}
    {rest : List (AgentKind × Nat × Int × Int)} {p : AgentPorts} {ps : List AgentPorts}
    (h1 : n.allocAgent kind data d0 d1 = .ok (p, n1)) (h2 : n1.allocAll rest = .ok (ps, n2)) :
    n.allocAll ((kind, data, d0, d1) :: rest) = .ok (p :: ps, n2) := by
  simp only [allocAll, h1, bind, Except.bind, h2]
  rfl

theorem allocAll_rec {P : Net → Prop} : ∀ {news : List (AgentKind × Nat × Int × Int)} {n : Net}
    {ps : List AgentPorts}, P n → (∀ s ∈ news, ∀ n p n', P n →
      n.allocAgent s.1 s.2.1 s.2.2.1 s.2.2.2 = .ok (p, n') → P n') →
    n.allocAll news = .ok (ps, n') → P n'
  | [], _, _, hp, _, h => by
    cases h
    exact hp
  | s :: rest, n, ps, hp, hstep, h => by
    obtain ⟨⟨p, n1⟩, h1, h⟩ := bind_eq_ok.mp h
    obtain ⟨⟨ps', n2⟩, h2, h⟩ := bind_eq_ok.mp h
    cases h
    obtain ⟨hs, hrest⟩ := List.forall_mem_cons.mp hstep
    exact allocAll_rec (hs _ _ _ hp h1) hrest h2

/-- The run of a rewrite without erasures and relabelling, from its allocations. -/
theorem run_of_allocAll {n1 : Net} {rw : Rewrite} {ps : List AgentPorts} (he : rw.erased = [])
    (hr : rw.relabel = none) (h : n.allocAll rw.news = .ok (ps, n1)) :
    rw.run n = .ok (rw.links.foldl (fun n l => n.link ps l) (rw.retired.foldl Net.retire n1)) := by
  simp only [Rewrite.run, he, hr, List.foldl_nil, relabelSlot, h, bind, Except.bind]
  rfl

/-- The source computes a path anew for each of the two below it. -/
theorem paths_eq_ok {x : Except DnxError LOPath} {g : LOPath → LOPath → Except DnxError Net}
    (h : (do
      let a0 ← (← x).extendLeft
      let a1 ← (← x).extendRight
      g a0 a1) = .ok n') :
    ∃ a a0 a1, x = .ok a ∧ a.extendLeft = .ok a0 ∧ a.extendRight = .ok a1 ∧ g a0 a1 = .ok n' := by
  obtain ⟨a, ha, h⟩ := bind_eq_ok.mp h
  obtain ⟨a0, h0, h⟩ := bind_eq_ok.mp h
  replace h := of_bind_ok ha h
  obtain ⟨a1, h1, h⟩ := bind_eq_ok.mp h
  exact ⟨a, a0, a1, ha, h0, h1, h⟩

theorem r5FanRep_ok {fanP repP : PortId} (h : n.r5FanRep fanP repP lo = .ok n') :
    ∃ rw, n.r5Rewrite fanP repP lo = .ok rw ∧ rw.run n = .ok n' := by
  obtain ⟨⟨f0, n1⟩, hf0, h⟩ := bind_eq_ok.mp h
  obtain ⟨⟨f1, n2⟩, hf1, h⟩ := bind_eq_ok.mp h
  obtain ⟨lo0, lo00, lo01, h0, h00, h01, h⟩ := paths_eq_ok h
  dsimp only at h
  split at h
  · next hloop =>
    replace h := of_bind_ok h0 h
    obtain ⟨lo1, h1, h⟩ := bind_eq_ok.mp h
    cases h
    refine ⟨?_, ?_, ?_⟩
    rotate_left
    · simp only [r5Rewrite, h0, h1, bind, Except.bind, h00, h01, if_pos hloop]
      rfl
    · rw [run_of_allocAll rfl rfl (allocAll_cons hf0 (allocAll_cons hf1 rfl))]
      rfl
  · next hloop =>
    -- the tags and paths of the replicator copies go with the kind of the fan
    cases habs : (n.slot fanP).fanIsAbs <;> rw [habs] at h <;>
    · obtain ⟨⟨ra, n3⟩, hra, h⟩ := bind_eq_ok.mp h
      obtain ⟨⟨rb, n4⟩, hrb, h⟩ := bind_eq_ok.mp h
      obtain ⟨lo1, lo10, lo11, h1, h10, h11, h⟩ := paths_eq_ok h
      cases h
      refine ⟨?_, ?_, ?_⟩
      rotate_left
      · simp only [r5Rewrite, h0, h1, bind, Except.bind, h00, h01, h10, h11, if_neg hloop, habs]
        rfl
      · rw [habs] at hf0 hf1
        rw [run_of_allocAll rfl rfl (allocAll_cons hf0 (allocAll_cons hf1
          (allocAll_cons hra (allocAll_cons hrb rfl))))]
        rfl

theorem r6RepRep_ok (h : n.r6RepRep p0 p1 lo = .ok n') :
    ∃ rw, n.r6Rewrite p0 p1 lo = .ok rw ∧ rw.run n = .ok n' := by
  obtain ⟨lo0, h0, h⟩ := bind_eq_ok.mp h
  obtain ⟨lo1, h1, h⟩ := bind_eq_ok.mp h
  cases h
  refine ⟨?_, ?_, ?_⟩
  rotate_left
  · simp only [r6Rewrite, h0, h1]
    rfl
  · rfl

theorem r7RepRep_ok (h : n.r7RepRep p0 p1 lo = .ok n') :
    ∃ rw, n.r7Rewrite p0 p1 lo = .ok rw ∧ rw.run n = .ok n' := by
  unfold r7RepRep at h
  cases hgt : labelGt (n.slot p0).label (n.slot p1).label <;>
    simp only [hgt, Bool.false_eq_true, if_true, if_false] at h <;>
  · obtain ⟨lv0, hv0, h⟩ := bind_eq_ok.mp h
    obtain ⟨⟨hc0, n1⟩, hhc0, h⟩ := bind_eq_ok.mp h
    obtain ⟨lv1, hv1, h⟩ := bind_eq_ok.mp h
    obtain ⟨⟨hc1, n2⟩, hhc1, h⟩ := bind_eq_ok.mp h
    obtain ⟨⟨lc0, n3⟩, hlc0, h⟩ := bind_eq_ok.mp h
    obtain ⟨⟨lc1, n4⟩, hlc1, h⟩ := bind_eq_ok.mp h
    obtain ⟨lo0, lo00, lo01, h0, h00, h01, h⟩ := paths_eq_ok h
    obtain ⟨lo1, lo10, lo11, h1, h10, h11, h⟩ := paths_eq_ok h
    cases h
    refine ⟨?_, ?_, ?_⟩
    rotate_left
    · simp only [r7Rewrite, hiLo, hgt, Bool.false_eq_true, if_true, if_false, bind, Except.bind,
        hv0, hv1, h0, h1, h00, h01, h10, h11]
      rfl
    · rw [run_of_allocAll rfl rfl (allocAll_cons hhc0 (allocAll_cons hhc1
        (allocAll_cons hlc0 (allocAll_cons hlc1 rfl))))]
      rfl

theorem checkedAddI16_ok {a b c : Int} (h : checkedAddI16 a b = .ok c) : c = a + b := by
  unfold checkedAddI16 at h
  split at h
  · cases h
    rfl
  · cases h

/-- The slot C2 writes is the neighbour's own, with its label moved to the level of `a`. -/
theorem c2GateAt_some {a : Slot} {p : PortId} {delta : Int} {e : Bool} {m : C2Merge}
    (h : c2GateAt a fetch p delta e = .ok (some m)) :
    let diff := ((fetch p).data : Int) - a.data
    e = true ∧ diff ≤ delta ∧ m = ⟨p, a.principal, { fetch p with
      delta0 := (fetch p).delta0 + diff, delta1 := (fetch p).delta1 + diff, data := a.data }⟩ := by
  unfold c2GateAt at h
  split at h
  · cases h
  · next he =>
    split at h
    · cases h
    · dsimp only at h
      split at h
      · cases h
      · split at h
        · cases h
        · next hdiff =>
          obtain ⟨d0, h0, h⟩ := bind_eq_ok.mp h
          obtain ⟨d1, h1, h⟩ := bind_eq_ok.mp h
          cases h
          refine ⟨by simpa using he, by omega, ?_⟩
          rw [checkedAddI16_ok h0, checkedAddI16_ok h1]

/-- A merge comes from one of the two ports. -/
theorem c2GateAndShift_some {a : Slot} {m : C2Merge} (h : c2GateAndShift a fetch = .ok (some m)) :
    c2GateAt a fetch a.aux0 a.delta0 a.aux1Erased = .ok (some m) ∨
      c2GateAt a fetch a.aux1 a.delta1 a.aux0Erased = .ok (some m) := by
  unfold c2GateAndShift at h
  split at h
  · cases h
  · obtain ⟨r, hr, h⟩ := bind_eq_ok.mp h
    cases r with
    | some m' =>
      cases h
      exact .inl hr
    | none => exact .inr h

theorem c2RepMerge_ok {repA : PortId} (h : n.c2RepMerge repA lo = .ok n') :
    (n.c2Rewrite repA lo = .ok none ∧ n' = n) ∨
      ∃ rw, n.c2Rewrite repA lo = .ok (some rw) ∧ rw.run n = .ok n' := by
  obtain ⟨m, hm, h⟩ := bind_eq_ok.mp h
  have hplan : n.c2Rewrite repA lo = .ok (m.map (mergeRewrite repA lo)) := by
    simp only [c2Rewrite, hm, bind, Except.bind]
    rfl
  cases m with
  | none =>
    cases h
    exact .inl ⟨hplan, rfl⟩
  | some m =>
    cases h
    refine .inr ⟨_, hplan, ?_⟩
    rcases c2GateAndShift_some hm with hm | hm <;>
    · obtain ⟨-, -, rfl⟩ := c2GateAt_some hm
      rfl

theorem c3RepDecay_eq (n : Net) (repP : PortId) (lo : LOPath) :
    (n.c3Rewrite repP lo = none ∧ n.c3RepDecay repP lo = n) ∨
      ∃ rw, n.c3Rewrite repP lo = some rw ∧ rw.run n = .ok (n.c3RepDecay repP lo) := by
  cases h0 : (n.slot repP).aux0Erased <;> cases h1 : (n.slot repP).aux1Erased <;>
    simp only [c3Rewrite, c3RepDecay, h0, h1]
  · simp
  all_goals
    split
    · exact .inr ⟨_, rfl, rfl⟩
    · exact .inl ⟨rfl, rfl⟩

theorem c4AuxFanReplication_ok {cand : C4Candidate} (h : n.c4AuxFanReplication cand = .ok n') :
    ∃ rw, n.c4Rewrite cand = .ok rw ∧ rw.run n = .ok n' := by
  unfold c4AuxFanReplication at h
  dsimp only at h
  split at h
  · next hera =>
    obtain ⟨lo0, h0, h⟩ := bind_eq_ok.mp h
    obtain ⟨lo1, h1, h⟩ := bind_eq_ok.mp h
    cases h
    refine ⟨?_, ?_, ?_⟩
    rotate_left
    · simp only [c4Rewrite, h0, h1, bind, Except.bind, if_pos hera]
      rfl
    · rfl
  · next hera =>
    obtain ⟨⟨newRep, n1⟩, hr, h⟩ := bind_eq_ok.mp h
    obtain ⟨⟨newArg, n2⟩, ha, h⟩ := bind_eq_ok.mp h
    obtain ⟨⟨app0, n3⟩, ha0, h⟩ := bind_eq_ok.mp h
    obtain ⟨⟨app1, n4⟩, ha1, h⟩ := bind_eq_ok.mp h
    obtain ⟨lo0, lo00, lo01, h0, h00, h01, h⟩ := paths_eq_ok h
    obtain ⟨lo1, lo10, lo11, h1, h10, h11, h⟩ := paths_eq_ok h
    cases h
    refine ⟨?_, ?_, ?_⟩
    rotate_left
    · simp only [c4Rewrite, h0, h1, bind, Except.bind, h00, h01, h10, h11, if_neg hera]
      rfl
    · rw [run_of_allocAll rfl rfl (allocAll_cons hr (allocAll_cons ha
        (allocAll_cons ha0 (allocAll_cons ha1 rfl))))]
      rfl

end

end Net

end Dnet
