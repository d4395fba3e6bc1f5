import Dnet.Front.Wiring
import Mathlib.Data.List.Pairwise

/-!
# The queues after elaboration

The queues of a net are maps keyed by paths, so a connection replaces an earlier one that was
made under the same path. `Rep`, `Era` and `Fix` elaborate their parts under the path of the
node itself, and the queues hold every redex exactly if the paths of the redexes of the term
differ (`elabImpl_registers_iff`). The paths can be read off the term (`Ast.pairKeys`, `Ast.candKeys`).
-/

namespace Dnet

open Lib List Net Ast

variable {V F : Type}

/-! ## The paths of the redexes of a term -/

/-- What hangs at the top of a term: the principal port of an agent, the result of an
application, or a port that is neither. -/
inductive HeadPort where
  | value
  | result
  | other
  deriving DecidableEq, Repr

def Ast.headPort : Ast V F → HeadPort
  | .name _ => .other
  | .abs _ _ | .val _ | .fn _ => .value
  | .app _ _ => .result
  | .rep _ _ _ body => body.headPort
  | .era _ body => body.headPort
  | .fix _ | .perform _ _ | .handle _ _ => .other

def LOPath.left (p : LOPath) : LOPath := ⟨p.bits ++ [false]⟩

def LOPath.right (p : LOPath) : LOPath := ⟨p.bits ++ [true]⟩

/-- The paths of the wires between two principal ports, in the order in which they are made. -/
def Ast.pairKeys : Ast V F → LOPath → List LOPath
  | .abs _ body, lo => body.pairKeys lo.left
  | .app f x, lo =>
    f.pairKeys lo.left ++ x.pairKeys lo.right ++ if f.headPort = .value then [lo.left] else []
  | .rep e _ _ body, lo =>
    e.pairKeys lo ++ (if e.headPort = .value then [lo] else []) ++ body.pairKeys lo
  | .era e body, lo =>
    e.pairKeys lo ++ (if e.headPort = .value then [lo] else []) ++ body.pairKeys lo
  | .fix inner, lo =>
    inner.pairKeys lo.left ++ if inner.headPort = .value then [lo.left] else []
  | .name _, _ | .val _, _ | .fn _, _ | .perform _ _, _ | .handle _ _, _ => []

/-- The paths of the wires from the principal port of a replicator to the result of an
application. -/
def Ast.candKeys : Ast V F → LOPath → List LOPath
  | .abs _ body, lo => body.candKeys lo.left
  | .app f x, lo => f.candKeys lo.left ++ x.candKeys lo.right
  | .rep e _ _ body, lo =>
    e.candKeys lo ++ (if e.headPort = .result then [lo] else []) ++ body.candKeys lo
  | .era e body, lo => e.candKeys lo ++ body.candKeys lo
  | .fix inner, lo => inner.candKeys lo.left ++ [lo.right]
  | .name _, _ | .val _, _ | .fn _, _ | .perform _ _, _ | .handle _ _, _ => []

theorem extendLeft_eq {p q : LOPath} (h : p.extendLeft = .ok q) : q = p.left := by
  obtain ⟨bits⟩ := q
  exact congrArg LOPath.mk (LOPath.extendBit_ok h)

theorem extendRight_eq {p q : LOPath} (h : p.extendRight = .ok q) : q = p.right := by
  obtain ⟨bits⟩ := q
  exact congrArg LOPath.mk (LOPath.extendBit_ok h)

/-! ## The ends of a connection -/

/-- The port `p` is of the kind that the head of a term says. -/
def Net.Shaped (n : Net) (p : PortId) : HeadPort → Prop
  | .value => p.portKind = .principal
  | .result => p.portKind = .aux0 ∧ n.isAppFanPort p = true
  | .other => p.portKind ≠ .principal ∧ ¬(p.portKind = .aux0 ∧ n.isAppFanPort p = true)

def Conn.pairKey (w : Conn) : Option LOPath := w.pair.map Prod.fst

def Net.candKey (n : Net) (w : Conn) : Option LOPath := (n.candidate w).map Prod.fst

section

variable {n : Net} {a b : PortId} (lo : LOPath) {h : HeadPort}

theorem pairKey_of_principal (hkind : a.portKind = .principal) (ha : a ≠ .null) (hb : b ≠ .null)
    (hs : n.Shaped b h) : (Conn.mk a b lo).pairKey.toList = if h = .value then [lo] else [] := by
  cases h with
  | value => simp [Conn.pairKey, Conn.pair, Net.IsPair, hkind, ha, hb, show b.portKind = _ from hs]
  | result | other => simp [Conn.pairKey, Conn.pair, Net.IsPair, hs.1]

theorem pairKey_of_aux (hkind : a.portKind ≠ .principal) : (Conn.mk a b lo).pairKey = none := by
  simp [Conn.pairKey, Conn.pair, Net.IsPair, hkind]

theorem candKey_of_rep (hkind : a.portKind = .principal) (ha : n.isRepPort a = true)
    (hs : n.Shaped b h) : (n.candKey ⟨a, b, lo⟩).toList = if h = .result then [lo] else [] := by
  cases h with
  | value => simp [candKey, candidate, hkind, show b.portKind = _ from hs]
  | result => simp [candKey, candidate, hkind, ha, hs.1, hs.2]
  | other =>
    obtain ⟨hb, happ⟩ := hs
    cases hk : b.portKind with
    | principal => exact absurd hk hb
    | aux0 =>
      have hfan : n.isAppFanPort b = false := by simpa [hk] using happ
      simp [candKey, candidate, hkind, hk, hfan]
    | aux1 => simp [candKey, candidate, hkind, hk]

theorem candKey_of_not_rep (hkind : a.portKind = .principal) (ha : n.isRepPort a = false) :
    n.candKey ⟨a, b, lo⟩ = none := by
  cases hk : b.portKind <;> simp [candKey, candidate, hkind, ha, hk]

theorem candKey_of_aux0 (hkind : a.portKind = .aux0) (ha : n.isAppFanPort a = false) :
    n.candKey ⟨a, b, lo⟩ = none := by
  cases hk : b.portKind <;> simp [candKey, candidate, hkind, ha, hk]

theorem candKey_of_aux1 (hkind : a.portKind = .aux1) : n.candKey ⟨a, b, lo⟩ = none := by
  simp [candKey, candidate, hkind]

end

/-! ## The connections of a run -/

def AgentKind.isReplicator : AgentKind → Bool
  | .rep _ _ => true
  | _ => false

/-- A new agent, seen from the later net `m`. -/
structure Fresh (kind : AgentKind) (m : Net) (ps : AgentPorts) : Prop where
  kinds : ps.principal.portKind = .principal ∧ ps.aux0.portKind = .aux0 ∧ ps.aux1.portKind = .aux1
  real : ps.principal ≠ .null ∧ ps.aux0 ≠ .null ∧ ps.aux1 ≠ .null
  rep : m.isRepPort ps.principal = kind.isReplicator
  app : m.isAppFanPort ps.aux0 = decide (kind = .fanApp)

theorem allocAgent_fresh {n n' m : Net} {kind : AgentKind} {data : Nat} {d0 d1 : Int} {ps : AgentPorts}
    (h : n.allocAgent kind data d0 d1 = .ok (ps, n')) (hwf : n.arena.WF) (hm : n'.Grows m) :
    Fresh kind m ps := by
  obtain ⟨i, ha, rfl⟩ := allocAgent_ok h
  have hreal : ∀ k, (n'.portId (i, k)).isReal = true := fun k =>
    isReal_portId (ha.wf hwf).1 ha.isLive_new
  have hnull : ∀ k, n'.portId (i, k) ≠ .null := fun k => (PortId.isReal_iff.mp (hreal k)).2
  have hkind : (m.arena.slots i).kind = kind :=
    (congrArg Net.Body.kind (hm.body i ha.isLive_new)).trans ha.new.1
  have hslot : ∀ k, m.isRepPort (n'.portId (i, k)) = kind.isReplicator ∧
      m.isAppFanPort (n'.portId (i, k)) = decide (kind = .fanApp) := by
    intro k
    have hno := of_isReal (hreal k)
    simp only [Bool.or_eq_false_iff] at hno
    simp only [isRepPort, isAppFanPort, hno.1, hno.2, slot, Slot.isRep, Slot.isFan,
      Slot.fanIsApp, show (n'.portId (i, k)).slotIdx = i from rfl, hkind]
    cases kind <;> simp [AgentKind.bit0, AgentKind.isReplicator]
  exact ⟨⟨rfl, rfl, rfl⟩, ⟨hnull _, hnull _, hnull _⟩, (hslot _).1, (hslot _).2⟩

/-- The ports of the environment are neither principal ports nor results of applications. -/
def ElabState.VarPorts (m : Net) (st : ElabState) : Prop :=
  ∀ y q, st.env y = some q → q.1 ≠ .null ∧ m.Shaped q.1 .other

/-- What a run says about the port it returns and the paths of its connections; `m` is the net
at a later time. -/
structure Keyed (m : Net) (t : Ast V F) (lo : LOPath) (st' : ElabState) (p : PortId)
    (log : List Event) : Prop where
  vars : st'.VarPorts m
  real : p ≠ .null
  top : m.Shaped p t.headPort
  pairs : (connsOf log).filterMap Conn.pairKey = t.pairKeys lo
  cands : (connsOf log).filterMap m.candKey = t.candKeys lo

section

variable {m : Net} {st : ElabState}

theorem ElabState.VarPorts.bind (h : st.VarPorts m) {n : Net} {x : Name} {q : PortId × Nat}
    (hq : q.1 ≠ .null) (hs : m.Shaped q.1 .other) :
    VarPorts m { st with net := n, env := bindName st.env x q } := by
  intro y r hr
  rcases bindName_eq_some.mp hr with ⟨-, rfl⟩ | ⟨-, hr⟩
  · exact ⟨hq, hs⟩
  · exact h y r hr

theorem ElabState.VarPorts.unbind (h : st.VarPorts m) (x : Name) :
    VarPorts m { st with env := unbindName st.env x } := fun y q hq =>
  h y q (unbindName_eq_some.mp hq).2

theorem shaped_aux1 {p : PortId} (h : p.portKind = .aux1) : m.Shaped p .other :=
  ⟨by simp [h], by simp [h]⟩

theorem keys_wire (k : Conn → Option LOPath) (a b : PortId) (lo : LOPath) (log : List Event) :
    (connsOf (.wire a b lo :: log)).filterMap k =
      (k ⟨a, b, lo⟩).toList ++ (connsOf log).filterMap k := by
  cases hk : k ⟨a, b, lo⟩ <;> simp [connsOf, hk]

theorem keys_append (k : Conn → Option LOPath) (log log' : List Event) :
    (connsOf (log ++ log')).filterMap k =
      (connsOf log).filterMap k ++ (connsOf log').filterMap k := by
  rw [connsOf_append, filterMap_append]

theorem Emits.keyed {usage : Name → Option Nat} {t : Ast V F} {level : Nat} {lo : LOPath}
    {st' : ElabState} {r : PortId × Nat} {log : List Event}
    (h : Emits usage t level lo st r st' log) (heff : t.EffectFree) (hwf : st.net.arena.WF)
    (hm : st'.net.Grows m) (hvars : st.VarPorts m) : Keyed m t lo st' r.1 log := by
  have hnil : connsOf [] = [] := rfl
  have hrep : ∀ a b i l log, connsOf (.rep a b i l :: log) = connsOf log := fun _ _ _ _ _ => rfl
  induction h with
  | @name n level lo st r hn =>
    obtain ⟨hnull, hshape⟩ := hvars n r hn
    exact ⟨hvars.unbind n, hnull, hshape, rfl, rfl⟩
  | @abs x body level l lo loBody st st' ps net bodyP log halloc hlo hrun ih =>
    have hm' : st'.net.Grows m := (grows_connect ..).trans hm
    obtain ⟨hwf', -⟩ := allocAgent_grows halloc hwf
    have hf := allocAgent_fresh halloc hwf ((hrun.grows hwf').2.trans hm')
    have hb := ih heff hwf' hm' (hvars.bind hf.real.2.2 (shaped_aux1 hf.kinds.2.2))
    cases extendLeft_eq hlo
    refine ⟨hb.vars.unbind x, hf.real.1, hf.kinds.1, ?_, ?_⟩
    · simp [keys_append, keys_wire, hnil, hb.pairs, pairKey_of_aux, hf.kinds.2.1, pairKeys]
    · simp [keys_append, keys_wire, hnil, hb.cands, candKey_of_aux0 _ hf.kinds.2.1 hf.app, candKeys]
  | @app f x level l l' lo loFn loArg st st1 st2 ps net fP aP log log' halloc hloF hf hloA hx ihf ihx =>
    have hm2 : st2.net.Grows m := (grows_connect ..).trans ((grows_connect ..).trans hm)
    obtain ⟨hwf', -⟩ := allocAgent_grows halloc hwf
    obtain ⟨hwf1, hg⟩ := hf.grows hwf'
    have hm1 := (hx.grows hwf1).2.trans hm2
    have hnew := allocAgent_fresh halloc hwf (hg.trans hm1)
    have hF := ihf heff.1 hwf' hm1 hvars
    have hX := ihx heff.2 hwf1 hm2 hF.vars
    have hkey := pairKey_of_principal lo.left hnew.kinds.1 hnew.real.1 hF.real hF.top
    cases extendLeft_eq hloF
    cases extendRight_eq hloA
    refine ⟨hX.vars, hnew.real.2.1, ⟨hnew.kinds.2.1, by simpa using hnew.app⟩, ?_, ?_⟩
    · simp [keys_append, keys_wire, hnil, hF.pairs, hX.pairs, hkey, pairKey_of_aux,
        hnew.kinds.2.2, pairKeys]
    · simp [keys_append, keys_wire, hnil, hF.cands, hX.cands, candKeys,
        candKey_of_not_rep _ hnew.kinds.1 hnew.rep, candKey_of_aux1 _ hnew.kinds.2.2]
  | @rep e body a b level repLevel lo st st1 st2 ps net eP d0 d1 r log log' he _ _ halloc hb ihe ihb =>
    obtain ⟨hwf1, -⟩ := he.grows hwf
    obtain ⟨hwf', hg⟩ := allocAgent_grows halloc hwf1
    have hwf2 := wf_connect ps.principal eP lo hwf'
    have hm' : net.Grows m := (grows_connect ..).trans ((hb.grows hwf2).2.trans hm)
    have hE := ihe heff.1 hwf (hg.trans hm') hvars
    have hnew := allocAgent_fresh halloc hwf1 hm'
    have haux0 : m.Shaped ps.aux0 .other := by
      refine ⟨by simp [hnew.kinds.2.1], fun happ => ?_⟩
      rw [hnew.app] at happ
      simp [AgentKind.repInUnpaired] at happ
    have hB := ihb heff.2 hwf2 hm
      ((hE.vars.bind (n := net) hnew.real.2.1 haux0).bind hnew.real.2.2 (shaped_aux1 hnew.kinds.2.2))
    refine ⟨hB.vars, hB.real, hB.top, ?_, ?_⟩
    · simp [keys_append, keys_wire, hrep, hE.pairs, hB.pairs, pairKeys,
        pairKey_of_principal lo hnew.kinds.1 hnew.real.1 hE.real hE.top]
    · simp [keys_append, keys_wire, hrep, hE.cands, hB.cands, candKeys,
        candKey_of_rep lo hnew.kinds.1 hnew.rep hE.top]
  | @era e body level l lo st st1 st2 eP r log log' he hb ihe ihb =>
    have hwf1 := wf_connect .era eP lo (he.grows hwf).1
    have hE := ihe heff.1 hwf ((grows_connect ..).trans ((hb.grows hwf1).2.trans hm)) hvars
    have hB := ihb heff.2 hwf1 hm hE.vars
    refine ⟨hB.vars, hB.real, hB.top, ?_, ?_⟩
    · simp [keys_append, keys_wire, hE.pairs, hB.pairs, pairKeys,
        pairKey_of_principal (a := .era) lo rfl (by decide) hE.real hE.top]
    · simp [keys_append, keys_wire, hE.cands, hB.cands, candKeys,
        candKey_of_not_rep (n := m) (a := .era) lo rfl (by simp [isRepPort])]
  | @fix inner level l lo loFn loR st st1 app rep net net' innerP log hloF hi happ hrep hloR ih =>
    obtain ⟨hwf1, -⟩ := hi.grows hwf
    obtain ⟨hwf', hg⟩ := allocAgent_grows happ hwf1
    have hwf2 := wf_connect app.principal innerP loFn hwf'
    have hm2 : net'.Grows m := (grows_connect ..).trans ((grows_connect ..).trans hm)
    have hm1 : net.Grows m := (grows_connect ..).trans ((allocAgent_grows hrep hwf2).2.trans hm2)
    have hI := ih heff hwf (hg.trans hm1) hvars
    have hnew := allocAgent_fresh happ hwf1 hm1
    have hnew' := allocAgent_fresh hrep hwf2 hm2
    have htop : m.Shaped app.aux0 .result := ⟨hnew.kinds.2.1, by simpa using hnew.app⟩
    have hkey := pairKey_of_principal lo.left hnew.kinds.1 hnew.real.1 hI.real hI.top
    have hkey' := pairKey_of_principal lo.right hnew'.kinds.1 hnew'.real.1 hnew.real.2.1 htop
    cases extendLeft_eq hloF
    cases extendRight_eq hloR
    refine ⟨hI.vars, hnew'.real.2.2, shaped_aux1 hnew'.kinds.2.2, ?_, ?_⟩
    · simp [keys_append, keys_wire, hnil, hI.pairs, hkey, hkey', pairKey_of_aux, hnew.kinds.2.2,
        pairKeys]
    · simp [keys_append, keys_wire, hnil, hI.cands, candKeys,
        candKey_of_not_rep _ hnew.kinds.1 hnew.rep, candKey_of_aux1 _ hnew.kinds.2.2,
        candKey_of_rep lo.right hnew'.kinds.1 hnew'.rep htop]
  | handle _ _ => exact heff.elim
  | val halloc | fn halloc =>
    obtain ⟨i, ha, rfl⟩ := allocFree_ok halloc
    have hreal := isReal_portId (c := (i, .principal)) (ha.wf hwf).1 ha.isLive_new
    exact ⟨hvars, (PortId.isReal_iff.mp hreal).2, rfl, rfl, rfl⟩

end

/-! ## The queues and the wires -/

/-- The entry is about the wire between `a` and `b`. -/
def ActivePair.Joins (e : ActivePair) (a b : PortId) : Prop :=
  e.p0.1 = a ∧ e.p1.1 = b ∨ e.p0.1 = b ∧ e.p1.1 = a

namespace Net

/-- A wire between two principal ports, or from the eraser to a principal port. -/
structure PairWire (n : Net) (a b : PortId) : Prop where
  left : a = .era ∨ n.IsPort a
  right : n.IsPort b
  kinds : a.portKind = .principal ∧ b.portKind = .principal
  joined : n.Holds a b ∧ n.Holds b a

/-- A wire from the principal port of a replicator to the result of an application. -/
structure CandidateWire (n : Net) (r p : PortId) : Prop where
  rep : n.IsPort r ∧ r.portKind = .principal ∧ n.isRepPort r = true
  app : n.IsPort p ∧ p.portKind = .aux0 ∧ n.isAppFanPort p = true
  joined : n.Holds r p ∧ n.Holds p r

/-- The queues have one entry for each of these wires and no others. -/
structure Registers (n : Net) : Prop where
  pairs : ∀ i : PortId × PortId, n.PairWire i.1 i.2 → ∃! e, e ∈ n.frontier1 ∧ e.2.Joins i.1 i.2
  pairsOnly : ∀ e ∈ n.frontier1, ∃ i : PortId × PortId, n.PairWire i.1 i.2 ∧ e.2.Joins i.1 i.2
  candidates : ∀ i : PortId × PortId, n.CandidateWire i.1 i.2 →
    ∃! e, e ∈ n.frontier2 ∧ (e.2.repPrincipal, e.2.appAux0) = i
  candidatesOnly : ∀ e ∈ n.frontier2, n.CandidateWire e.2.repPrincipal e.2.appAux0

section

variable {n : Net} {W : List Conn} {w w' : Conn} {a b : PortId} {e : LOPath × C4Candidate}

theorem Wires.right_cell (h : n.Wires W) (hw : w ∈ W) : w.b.cell ∈ w.cells :=
  cells_conn.mpr (.inr ⟨(h.port w hw).2.isReal h.wf, rfl⟩)

theorem Wires.pairwise (h : n.Wires W) : W.Pairwise fun w w' => List.Disjoint w.cells w'.cells :=
  (nodup_flatMap.mp h.apart).2

theorem Wires.eq_of_cell (h : n.Wires W) (hw : w ∈ W) (hw' : w' ∈ W) {c : Nat × PortKind}
    (hc : c ∈ w.cells) (hc' : c ∈ w'.cells) : w = w' := by
  by_contra hne
  have : Std.Symm fun w w' : Conn => List.Disjoint w.cells w'.cells :=
    ⟨fun _ _ hd _ hc hc' => hd hc' hc⟩
  exact h.pairwise.forall hw hw' hne hc hc'

theorem Wires.conn_of_holds (h : n.Wires W) (hb : n.IsPort b) (hba : n.Holds b a)
    (ha : a ≠ .null) : ∃ w ∈ W, (w.a = a ∧ w.b = b) ∨ (w.a = b ∧ w.b = a) := by
  have hreal := hb.isReal h.wf
  have hmem : b.cell ∈ cellsOf W := by
    by_contra hno
    exact ha ((hba hreal).symm.trans (h.loose b.cell hb.live hno))
  obtain ⟨w, hw, p, hp, hr, hcell⟩ := mem_cellsOf.mp hmem
  have hpb : p = b := by
    rw [(h.isPort hw hp hr).eq, hcell, ← hb.eq]
  subst hpb
  obtain ⟨hab, hba'⟩ := h.holds w hw
  refine ⟨w, hw, ?_⟩
  rcases hp with rfl | rfl
  · exact .inr ⟨rfl, (hab hr).symm.trans (hba hr)⟩
  · exact .inl ⟨(hba' hr).symm.trans (hba hr), rfl⟩

/-! The entries of `frontier1`. -/

theorem pair_eq_some {e : LOPath × ActivePair} :
    w.pair = some e ↔ IsPair w.a w.b ∧ e.1 = w.lo ∧ e.2.p0.1 = w.a ∧ e.2.p1.1 = w.b ∧
      e.2.lo = w.lo := by
  unfold Conn.pair
  split
  · next hp =>
    constructor
    · rintro ⟨rfl⟩
      exact ⟨hp, rfl, rfl, rfl, rfl⟩
    · obtain ⟨k, ⟨p0, h0⟩, ⟨p1, h1⟩, lo⟩ := e
      rintro ⟨-, rfl, rfl, rfl, rfl⟩
      rfl
  · next hp => simp [hp]

theorem Wires.nodup_filterMap {β : Type} (h : n.Wires W) {f : Conn → Option β}
    {p : β → Nat × PortKind} (hpos : ∀ w ∈ W, ∀ e, f w = some e → p e ∈ w.cells) :
    (W.filterMap f).Nodup := by
  refine pairwise_filterMap.mpr (h.pairwise.imp_of_mem ?_)
  rintro w w' hw hw' hd e he e' he' rfl
  exact hd (hpos w hw e he) (hpos w' hw' e he')

theorem Wires.pairWire (h : n.Wires W) (hw : w ∈ W) (hp : IsPair w.a w.b) : n.PairWire w.a w.b where
  left := (h.port w hw).1
  right := (h.port w hw).2
  kinds := ⟨hp.1, hp.2.1⟩
  joined := h.holds w hw

theorem PairWire.ne_null (h : n.PairWire a b) (hwf : n.arena.WF) : a ≠ .null ∧ b ≠ .null := by
  have hport : ∀ {p}, n.IsPort p → p ≠ .null := fun hp => (PortId.isReal_iff.mp (hp.isReal hwf)).2
  refine ⟨?_, hport h.right⟩
  rcases h.left with ha | ha
  · rw [ha]
    decide
  · exact hport ha

/-- A wire between principal ports is one connection, and its entry is the only one about it. -/
theorem Wires.pair_entry (h : n.Wires W) (hab : n.PairWire a b) :
    ∃! e, e ∈ W.filterMap Conn.pair ∧ e.2.Joins a b := by
  obtain ⟨ha, hb⟩ := hab.ne_null h.wf
  obtain ⟨w, hw, hends⟩ := h.conn_of_holds hab.right hab.joined.2 ha
  have hpair : IsPair w.a w.b := by
    rcases hends with ⟨rfl, rfl⟩ | ⟨rfl, rfl⟩
    · exact ⟨hab.kinds.1, hab.kinds.2, ha, hb⟩
    · exact ⟨hab.kinds.2, hab.kinds.1, hb, ha⟩
  have hcell : b.cell ∈ w.cells := by
    have hreal := hab.right.isReal h.wf
    rcases hends with ⟨-, rfl⟩ | ⟨rfl, -⟩
    · exact cells_conn.mpr (.inr ⟨hreal, rfl⟩)
    · exact cells_conn.mpr (.inl ⟨hreal, rfl⟩)
  refine ⟨(w.lo, ⟨⟨w.a, hpair.1⟩, ⟨w.b, hpair.2.1⟩, w.lo⟩), ⟨?_, hends⟩, ?_⟩
  · exact mem_filterMap.mpr ⟨w, hw, pair_eq_some.mpr ⟨hpair, rfl, rfl, rfl, rfl⟩⟩
  · rintro e ⟨he, hjoins⟩
    obtain ⟨w', hw', he'⟩ := mem_filterMap.mp he
    obtain ⟨-, -, hea, heb, -⟩ := pair_eq_some.mp he'
    have hcell' : b.cell ∈ w'.cells := by
      have hreal := hab.right.isReal h.wf
      rcases hjoins with ⟨-, hb'⟩ | ⟨hb', -⟩
      · exact cells_conn.mpr (.inr (by rw [← heb, hb']; exact ⟨hreal, rfl⟩))
      · exact cells_conn.mpr (.inl (by rw [← hea, hb']; exact ⟨hreal, rfl⟩))
    cases h.eq_of_cell hw hw' hcell hcell'
    exact Option.some.inj (he'.symm.trans (pair_eq_some.mpr ⟨hpair, rfl, rfl, rfl, rfl⟩))

theorem Wires.pairs_iff (h : n.Wires W) :
    (∀ i : PortId × PortId, n.PairWire i.1 i.2 → ∃! e, e ∈ n.frontier1 ∧ e.2.Joins i.1 i.2) ↔
      (W.filterMap Conn.pairKey).Nodup := by
  have hkeys : W.filterMap Conn.pairKey = (W.filterMap Conn.pair).map Prod.fst :=
    map_filterMap.symm
  rw [hkeys, h.frontier1]
  apply OrdMap.existsUnique_insertAll_iff
  case hl =>
    refine h.nodup_filterMap (p := fun e => e.2.p1.1.cell) fun w hw e he => ?_
    rw [(pair_eq_some.mp he).2.2.2.1]
    exact h.right_cell hw
  case hone => exact fun i hi => h.pair_entry hi
  case hall =>
    intro e he
    obtain ⟨w, hw, he⟩ := mem_filterMap.mp he
    obtain ⟨hpair, -, hea, heb, -⟩ := pair_eq_some.mp he
    exact ⟨(w.a, w.b), h.pairWire hw hpair, .inl ⟨hea, heb⟩⟩

/-! The entries of `frontier2`. -/

theorem candidate_eq_some :
    n.candidate w = some e ↔ e = (w.lo, ⟨e.2.repPrincipal, e.2.appAux0, w.lo⟩) ∧
      (e.2.repPrincipal.portKind = .principal ∧ n.isRepPort e.2.repPrincipal = true) ∧
      (e.2.appAux0.portKind = .aux0 ∧ n.isAppFanPort e.2.appAux0 = true) ∧
      (w.a = e.2.repPrincipal ∧ w.b = e.2.appAux0 ∨ w.a = e.2.appAux0 ∧ w.b = e.2.repPrincipal) := by
  obtain ⟨k, r, p, lo⟩ := e
  obtain ⟨a, b, lo'⟩ := w
  constructor
  · intro h
    unfold candidate at h
    split at h
    · next ha hb =>
      obtain ⟨hc, he⟩ := Option.ite_none_right_eq_some.mp h
      cases he
      rw [Bool.and_eq_true] at hc
      exact ⟨rfl, ⟨ha, hc.1⟩, ⟨hb, hc.2⟩, .inl ⟨rfl, rfl⟩⟩
    · next ha hb =>
      obtain ⟨hc, he⟩ := Option.ite_none_right_eq_some.mp h
      cases he
      rw [Bool.and_eq_true] at hc
      exact ⟨rfl, ⟨hb, hc.2⟩, ⟨ha, hc.1⟩, .inr ⟨rfl, rfl⟩⟩
    · cases h
  · rintro ⟨he, ⟨hr, hrep⟩, ⟨hp, happ⟩, hends⟩
    cases he
    rcases hends with ⟨rfl, rfl⟩ | ⟨rfl, rfl⟩ <;> dsimp only at hr hrep hp happ <;>
      simp [candidate, hr, hp, hrep, happ]

theorem not_era_of_isAppFanPort {p : PortId} (h : n.isAppFanPort p = true) : p ≠ .era := by
  rintro rfl
  simp [isAppFanPort] at h

theorem not_era_of_isRepPort {p : PortId} (h : n.isRepPort p = true) : p ≠ .era := by
  rintro rfl
  simp [isRepPort] at h

theorem Wires.candidateWire (h : n.Wires W) (hw : w ∈ W)
    (he : n.candidate w = some e) : n.CandidateWire e.2.repPrincipal e.2.appAux0 := by
  obtain ⟨-, ⟨hr, hrep⟩, ⟨hp, happ⟩, hends⟩ := candidate_eq_some.mp he
  obtain ⟨hab, hba⟩ := h.holds w hw
  obtain ⟨hleft, hright⟩ := h.port w hw
  rcases hends with ⟨ha, hb⟩ | ⟨ha, hb⟩ <;> rw [ha] at hleft hab hba <;> rw [hb] at hright hab hba
  · have hleft := hleft.resolve_left (not_era_of_isRepPort hrep)
    exact ⟨⟨hleft, hr, hrep⟩, ⟨hright, hp, happ⟩, hab, hba⟩
  · have hleft := hleft.resolve_left (not_era_of_isAppFanPort happ)
    exact ⟨⟨hright, hr, hrep⟩, ⟨hleft, hp, happ⟩, hba, hab⟩

theorem Wires.candidate_cell (h : n.Wires W) (hw : w ∈ W)
    (he : n.candidate w = some e) : e.2.appAux0.cell ∈ w.cells := by
  have hreal := (h.candidateWire hw he).app.1.isReal h.wf
  obtain ⟨-, -, -, ⟨-, hb⟩ | ⟨ha, -⟩⟩ := candidate_eq_some.mp he
  · exact cells_conn.mpr (.inr (by rw [hb]; exact ⟨hreal, rfl⟩))
  · exact cells_conn.mpr (.inl (by rw [ha]; exact ⟨hreal, rfl⟩))

theorem Wires.candidate_entry (h : n.Wires W) (hab : n.CandidateWire a b) :
    ∃! e, e ∈ W.filterMap n.candidate ∧ (e.2.repPrincipal, e.2.appAux0) = (a, b) := by
  obtain ⟨⟨ha, hrk, hrep⟩, ⟨hb, hpk, happ⟩, hjoined⟩ := hab
  obtain ⟨w, hw, hends⟩ := h.conn_of_holds hb hjoined.2 (PortId.isReal_iff.mp (ha.isReal h.wf)).2
  have hentry : n.candidate w = some (w.lo, ⟨a, b, w.lo⟩) :=
    candidate_eq_some.mpr ⟨rfl, ⟨hrk, hrep⟩, ⟨hpk, happ⟩, hends⟩
  refine ⟨(w.lo, ⟨a, b, w.lo⟩), ⟨mem_filterMap.mpr ⟨w, hw, hentry⟩, rfl⟩, ?_⟩
  rintro e ⟨he, heq⟩
  obtain ⟨w', hw', he'⟩ := mem_filterMap.mp he
  have hcell' := h.candidate_cell hw' he'
  rw [(Prod.mk.inj heq).2] at hcell'
  cases h.eq_of_cell hw hw' (h.candidate_cell hw hentry) hcell'
  exact Option.some.inj (he'.symm.trans hentry)

theorem Wires.candidates_iff (h : n.Wires W) : (∀ i : PortId × PortId, n.CandidateWire i.1 i.2 →
      ∃! e, e ∈ n.frontier2 ∧ (e.2.repPrincipal, e.2.appAux0) = i) ↔
      (W.filterMap n.candKey).Nodup := by
  have hkeys : W.filterMap n.candKey = (W.filterMap n.candidate).map Prod.fst :=
    map_filterMap.symm
  rw [hkeys, h.frontier2]
  apply OrdMap.existsUnique_insertAll_iff
  case hl =>
    exact h.nodup_filterMap (p := fun e => e.2.appAux0.cell) fun w hw e he =>
      h.candidate_cell hw he
  case hone => exact fun i hi => h.candidate_entry hi
  case hall =>
    intro e he
    obtain ⟨w, hw, he⟩ := mem_filterMap.mp he
    exact ⟨(e.2.repPrincipal, e.2.appAux0), h.candidateWire hw he, rfl⟩

/-- Entries are only made for connections, so the queues are exact if no key repeats. -/
theorem Wires.registers_iff (h : n.Wires W) : n.Registers ↔
    (W.filterMap Conn.pairKey).Nodup ∧ (W.filterMap n.candKey).Nodup := by
  rw [← h.pairs_iff, ← h.candidates_iff]
  refine ⟨fun hr => ⟨hr.pairs, hr.candidates⟩, fun ⟨hp, hc⟩ => ⟨hp, ?_, hc, ?_⟩⟩
  · intro e he
    rw [h.frontier1] at he
    obtain ⟨w, hw, he⟩ := mem_filterMap.mp
      ((OrdMap.mem_of_mem_insertAll he).resolve_left OrdMap.not_mem_empty)
    obtain ⟨hpair, -, hea, heb, -⟩ := pair_eq_some.mp he
    exact ⟨(w.a, w.b), h.pairWire hw hpair, .inl ⟨hea, heb⟩⟩
  · intro e he
    rw [h.frontier2] at he
    obtain ⟨w, hw, he⟩ := mem_filterMap.mp
      ((OrdMap.mem_of_mem_insertAll he).resolve_left OrdMap.not_mem_empty)
    exact h.candidateWire hw he

end

end Net

/-! ## Elaboration of closed terms -/

theorem Ast.EffectFree.rename : ∀ {t : Ast V F}, t.EffectFree →
    ∀ (env : Name → Option Name) (ctr : Nat), (t.rename env ctr).1.EffectFree
  | .name _, _, _, _ | .val _, _, _, _ | .fn _, _, _, _ => trivial
  | .abs _ body, h, _, _ | .fix body, h, _, _ => Ast.EffectFree.rename (t := body) h _ _
  | .app f x, h, _, _ | .rep f _ _ x, h, _, _ | .era f x, h, _, _ =>
    ⟨Ast.EffectFree.rename (t := f) h.1 _ _, Ast.EffectFree.rename (t := x) h.2 _ _⟩

/-! Renaming does not move a redex. -/

theorem Ast.headPort_rename : ∀ (t : Ast V F) (env : Name → Option Name) (ctr : Nat),
    (t.rename env ctr).1.headPort = t.headPort
  | .name _, _, _ | .val _, _, _ | .fn _, _, _ | .abs _ _, _, _ | .app _ _, _, _ | .fix _, _, _
  | .perform _ _, _, _ | .handle _ _, _, _ => rfl
  | .rep _ _ _ body, _, _ | .era _ body, _, _ => body.headPort_rename _ _

theorem Ast.pairKeys_rename : ∀ (t : Ast V F) (env : Name → Option Name) (ctr : Nat) (lo : LOPath),
    (t.rename env ctr).1.pairKeys lo = t.pairKeys lo
  | .name _, _, _, _ | .val _, _, _, _ | .fn _, _, _, _ | .perform _ _, _, _, _
  | .handle _ _, _, _, _ => rfl
  | .abs _ body, _, _, _ => body.pairKeys_rename _ _ _
  | .app f x, _, _, _ | .rep f _ _ x, _, _, _ | .era f x, _, _, _ => by
    simp only [rename, pairKeys, f.pairKeys_rename, x.pairKeys_rename, f.headPort_rename]
  | .fix inner, _, _, _ => by
    simp only [rename, pairKeys, inner.pairKeys_rename, inner.headPort_rename]

theorem Ast.candKeys_rename : ∀ (t : Ast V F) (env : Name → Option Name) (ctr : Nat) (lo : LOPath),
    (t.rename env ctr).1.candKeys lo = t.candKeys lo
  | .name _, _, _, _ | .val _, _, _, _ | .fn _, _, _, _ | .perform _ _, _, _, _
  | .handle _ _, _, _, _ => rfl
  | .abs _ body, _, _, _ => body.candKeys_rename _ _ _
  | .app f x, _, _, _ | .era f x, _, _, _ => by
    simp only [rename, candKeys, f.candKeys_rename, x.candKeys_rename]
  | .rep e _ _ body, _, _, _ => by
    simp only [rename, candKeys, e.candKeys_rename, body.candKeys_rename, e.headPort_rename]
  | .fix inner, _, _, _ => by
    simp only [rename, candKeys, inner.candKeys_rename]

theorem Emits.registers {usage : Name → Option Nat} {t : Ast V F} {capacity : Nat}
    {st : ElabState} {r : PortId × Nat} {log : List Event}
    (h : Emits usage t 0 .root (.init capacity) r st log) (heff : t.EffectFree) :
    st.net.Registers ↔ (t.pairKeys .root).Nodup ∧ (t.candKeys .root).Nodup := by
  have hwires := ((h.keeps heff [] []).holding (holding_init capacity)).wires
  have hkeyed := h.keyed heff (Arena.WF.new capacity) (.refl _) nofun
  rw [hwires.registers_iff, nil_append, hkeyed.pairs, hkeyed.cands]

/-- The queues hold every redex of a closed term exactly if no two of its redexes have the same
path. -/
theorem elabImpl_registers_iff {t : Ast V F} (_hclosed : t.Closed) (heff : t.EffectFree) {ctr : Nat}
    {r : Pass1Result} (_hpass : pass1 (t.alphaRename ctr) = .ok r) {debug : Bool}
    {capacity : Nat} {p : PortId × Nat} {st : ElabState}
    (hrun : (t.alphaRename ctr).elabImpl debug r.usageLevels 0 .root (.init capacity) =
      .ok (p, st)) :
    st.net.Registers ↔ (t.pairKeys .root).Nodup ∧ (t.candKeys .root).Nodup := by
  obtain ⟨log, hlog⟩ := (elabImpl_emits _).run hrun
  rw [hlog.registers (heff.rename _ ctr), alphaRename, pairKeys_rename, candKeys_rename]

/-- `Rep((λx. x) (λy. y), a, b, a b)`: a redex in `frontier1` and one in `frontier2`. -/
def sharedRedex : Ast Empty Empty :=
  .rep (.app (.abs "x" (.name "x")) (.abs "y" (.name "y"))) "a" "b" (.app (.name "a") (.name "b"))

theorem sharedRedex_registers : ∃ r p st, pass1 (sharedRedex.alphaRename 0) = .ok r ∧
    (sharedRedex.alphaRename 0).elabImpl false r.usageLevels 0 .root (.init 16) = .ok (p, st) ∧
    st.net.Registers := by
  obtain ⟨r, p, st, hpass, hrun⟩ := exists_elab (t := sharedRedex) (c := 16) (by decide +kernel)
  have hclosed : sharedRedex.Closed := by simp [sharedRedex, Ast.Closed, freeNames]
  have heff : sharedRedex.EffectFree := by simp [sharedRedex, Ast.EffectFree]
  exact ⟨r, p, st, hpass, hrun, (elabImpl_registers_iff hclosed heff hpass hrun).mpr (by decide)⟩

/-- `Era(λx. x, Era(λy. y, λz. z))`: both wires to the eraser are queued under the path of the
root. -/
def twoErasures : Ast Empty Empty :=
  .era (.abs "x" (.name "x")) (.era (.abs "y" (.name "y")) (.abs "z" (.name "z")))

theorem twoErasures_unregistered : twoErasures.Closed ∧ twoErasures.EffectFree ∧
    ∃ r p st, pass1 (twoErasures.alphaRename 0) = .ok r ∧
      (twoErasures.alphaRename 0).elabImpl false r.usageLevels 0 .root (.init 16) = .ok (p, st) ∧
      ¬st.net.Registers := by
  obtain ⟨r, p, st, hpass, hrun⟩ := exists_elab (t := twoErasures) (c := 16) (by decide +kernel)
  have hclosed : twoErasures.Closed := by simp [twoErasures, Ast.Closed, freeNames]
  have heff : twoErasures.EffectFree := by simp [twoErasures, Ast.EffectFree]
  refine ⟨hclosed, heff, r, p, st, hpass, hrun, fun hreg => ?_⟩
  obtain ⟨log, hlog⟩ := (elabImpl_emits _).run hrun
  have hkeys := ((hlog.registers (heff.rename _ 0)).mp hreg).1
  rw [alphaRename, pairKeys_rename] at hkeys
  exact absurd hkeys (by decide)

end Dnet
