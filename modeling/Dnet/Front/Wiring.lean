import Dnet.Front.Emission
import Dnet.Front.Linearity
import Dnet.Reduce.Linear

/-!
# The wires of an elaborated net

Elaboration only allocates agents and connects ports that hang loose, so the net is given by
the list of the connections that were made (`Net.Wires`): every port of an agent is an end of
one connection, or it still hangs.
-/

namespace Dnet

open Lib List Ast Net

section

variable {n n' : Net} {kind : AgentKind} {label : Nat × Int × Int} {i s : Nat}

section

variable (h : Net.Alloc n kind label i n')
include h

theorem Net.Alloc.old (hs : s ≠ i) :
    n'.bodyAt s = n.bodyAt s ∧ ∀ k, n'.portAt (s, k) = n.portAt (s, k) := by
  simp only [bodyAt, portAt, h.slot_old s hs, implies_true, and_self]

theorem Net.Alloc.new : (n'.arena.slots i).kind = kind ∧ ∀ k, n'.portAt (i, k) = .null := by
  obtain ⟨g, hg⟩ := h.slot_new
  refine ⟨by rw [hg], fun k => ?_⟩
  cases k <;> simp only [portAt, hg] <;> rfl

theorem Net.Alloc.isLive_iff : n'.arena.isLive s = true ↔ s = i ∨ n.arena.isLive s = true := by
  rw [h.isLive, Bool.or_eq_true, decide_eq_true_iff]

theorem Net.Alloc.isLive_new : n'.arena.isLive i = true := h.isLive_iff.mpr (.inl rfl)

theorem Net.Alloc.ne_of_live (hwf : n.arena.WF) (hs : n.arena.isLive s = true) : s ≠ i := by
  rintro rfl
  exact ne_true_of_eq_false (h.wf hwf).2.1 hs

end

end

/-- A connection that was made, in the order of the call of `connect`. -/
structure Conn where
  a : PortId
  b : PortId
  lo : LOPath

/-- The positions that a connection occupies; the eraser has none. -/
def Conn.cells (w : Conn) : List (Nat × PortKind) := ([w.a, w.b].filter PortId.isReal).map PortId.cell

def cellsOf (W : List Conn) : List (Nat × PortKind) := W.flatMap Conn.cells

/-- The connections of a run. -/
def connsOf (log : List Event) : List Conn :=
  log.filterMap fun
    | .wire a b lo => some ⟨a, b, lo⟩
    | .use _ _ | .rep _ _ _ _ => none

/-- The active pair that a connection queues. -/
def Conn.pair (w : Conn) : Option (LOPath × ActivePair) :=
  if h : Net.IsPair w.a w.b then some (w.lo, ⟨⟨w.a, h.1⟩, ⟨w.b, h.2.1⟩, w.lo⟩) else none

namespace Net

/-- The C4 candidate that a connection queues. -/
def candidate (n : Net) (w : Conn) : Option (LOPath × C4Candidate) :=
  match w.a.portKind, w.b.portKind with
  | .principal, .aux0 =>
    if n.isRepPort w.a && n.isAppFanPort w.b then some (w.lo, ⟨w.a, w.b, w.lo⟩) else none
  | .aux0, .principal =>
    if n.isAppFanPort w.a && n.isRepPort w.b then some (w.lo, ⟨w.b, w.a, w.lo⟩) else none
  | _, _ => none

/-- Agents are only added. -/
structure Grows (n n' : Net) : Prop where
  live : ∀ i, n.arena.isLive i = true → n'.arena.isLive i = true
  body : ∀ i, n.arena.isLive i = true → n'.bodyAt i = n.bodyAt i

theorem Grows.refl (n : Net) : n.Grows n := ⟨fun _ h => h, fun _ _ => rfl⟩

section

variable {n n' : Net} {p : PortId} {w : Conn} {W : List Conn} {c : Nat × PortKind}

theorem Grows.trans {n'' : Net} (h : n.Grows n') (h' : n'.Grows n'') : n.Grows n'' :=
  ⟨fun i hi => h'.live i (h.live i hi), fun i hi => (h'.body i (h.live i hi)).trans (h.body i hi)⟩

theorem grows_connect (n : Net) (a b : PortId) (lo : LOPath) : n.Grows (n.connect a b lo) :=
  ⟨fun i hi => by rwa [isLive_connect], fun i _ => bodyAt_connect n a b lo i⟩

theorem Alloc.grows {kind : AgentKind} {label : Nat × Int × Int} {i : Nat}
    (ha : n.Alloc kind label i n') (hwf : n.arena.WF) : n.Grows n' :=
  ⟨fun j hj => by rw [ha.isLive, hj, Bool.or_true], fun j hj => by
    rw [bodyAt, bodyAt, ha.slot_old j (ha.ne_of_live hwf hj)]⟩

/-- A port of a live agent. -/
structure IsPort (n : Net) (p : PortId) : Prop where
  live : n.arena.isLive p.slotIdx = true
  eq : p = n.portId p.cell

theorem IsPort.isReal (h : n.IsPort p) (hwf : n.arena.WF) : p.isReal = true := by
  rw [h.eq]
  exact isReal_portId hwf h.live

theorem IsPort.mono (h : n.IsPort p) (hg : n.Grows n') : n'.IsPort p :=
  ⟨hg.live _ h.live, h.eq.trans (portId_congr (hg.body _ h.live)).symm⟩

/-- The connections `W` are the wires of the net. -/
structure Wires (n : Net) (W : List Conn) : Prop where
  wf : n.arena.WF
  port : ∀ w ∈ W, (w.a = .era ∨ n.IsPort w.a) ∧ n.IsPort w.b
  apart : (cellsOf W).Nodup
  holds : ∀ w ∈ W, n.Holds w.a w.b ∧ n.Holds w.b w.a
  loose : ∀ c : Nat × PortKind, n.arena.isLive c.1 = true → c ∉ cellsOf W → n.portAt c = .null
  frontier1 : n.frontier1 = OrdMap.empty.insertAll (W.filterMap Conn.pair)
  frontier2 : n.frontier2 = OrdMap.empty.insertAll (W.filterMap n.candidate)

/-- A port without a wire. -/
structure Hangs (n : Net) (W : List Conn) (p : PortId) : Prop where
  port : n.IsPort p
  loose : p.cell ∉ cellsOf W

/-! The kinds of the ends decide whether a connection is a candidate. -/

theorem isRepPort_congr (h : (n'.bodyAt p.slotIdx).kind = (n.bodyAt p.slotIdx).kind) :
    n'.isRepPort p = n.isRepPort p := by
  have hkind : (n'.slot p).kind = (n.slot p).kind := h
  simp only [isRepPort, Slot.isRep, hkind]

theorem isAppFanPort_congr (h : (n'.bodyAt p.slotIdx).kind = (n.bodyAt p.slotIdx).kind) :
    n'.isAppFanPort p = n.isAppFanPort p := by
  have hkind : (n'.slot p).kind = (n.slot p).kind := h
  simp only [isAppFanPort, Slot.isFan, Slot.fanIsApp, hkind]

theorem candidate_congr
    (hrep : ∀ p, p = w.a ∨ p = w.b →
      n'.isRepPort p = n.isRepPort p ∧ n'.isAppFanPort p = n.isAppFanPort p) :
    n'.candidate w = n.candidate w := by
  simp only [candidate, (hrep w.a (.inl rfl)).1, (hrep w.a (.inl rfl)).2, (hrep w.b (.inr rfl)).1,
    (hrep w.b (.inr rfl)).2]

theorem mem_cellsOf :
    c ∈ cellsOf W ↔ ∃ w ∈ W, ∃ p, (p = w.a ∨ p = w.b) ∧ p.isReal = true ∧ p.cell = c := by
  simp only [cellsOf, Conn.cells, mem_flatMap, mem_map, mem_filter, mem_cons,
    not_mem_nil, or_false, and_assoc]

theorem cellsOf_append (W W' : List Conn) : cellsOf (W ++ W') = cellsOf W ++ cellsOf W' :=
  flatMap_append

theorem Wires.isPort (h : n.Wires W) (hw : w ∈ W) (hp : p = w.a ∨ p = w.b) (hr : p.isReal = true) :
    n.IsPort p := by
  rcases hp with rfl | rfl
  · exact (h.port w hw).1.resolve_left fun he => by simp [he] at hr
  · exact (h.port w hw).2

theorem Wires.live_of_mem (h : n.Wires W) (hc : c ∈ cellsOf W) : n.arena.isLive c.1 = true := by
  obtain ⟨w, hw, p, hp, hr, rfl⟩ := mem_cellsOf.mp hc
  exact (h.isPort hw hp hr).live

theorem Wires.candidate_eq (h : n.Wires W) (hg : n.Grows n') (hw : w ∈ W) :
    n'.candidate w = n.candidate w := by
  refine candidate_congr fun p hp => ?_
  by_cases hr : p.isReal = true
  · have hbody := congrArg Body.kind (hg.body _ (h.isPort hw hp hr).live)
    exact ⟨isRepPort_congr hbody, isAppFanPort_congr hbody⟩
  · have hno : p.isEraser = true ∨ p.isNull = true := by
      simpa using not_isReal (Bool.eq_false_iff.mpr hr)
    rcases hno with he | he <;> simp [isRepPort, isAppFanPort, he]

theorem Wires.filterMap_candidate (h : n.Wires W) (hg : n.Grows n') :
    W.filterMap n'.candidate = W.filterMap n.candidate :=
  filterMap_congr fun _ hw => h.candidate_eq hg hw

end

section Alloc

variable {n n' : Net} {kind : AgentKind} {label : Nat × Int × Int} {i : Nat} {W : List Conn}

theorem Wires.alloc (h : n.Wires W) (ha : n.Alloc kind label i n') : n'.Wires W where
  wf := (ha.wf h.wf).1
  port w hw := ⟨(h.port w hw).1.imp_right fun hp => hp.mono (ha.grows h.wf),
    (h.port w hw).2.mono (ha.grows h.wf)⟩
  apart := h.apart
  holds w hw := by
    have hold : ∀ p q, (p = w.a ∨ p = w.b) → n.Holds p q → n'.Holds p q := by
      intro p q hp hpq hr
      have hne := ha.ne_of_live h.wf (h.isPort hw hp hr).live
      exact ((ha.old hne).2 _).trans (hpq hr)
    exact ⟨hold _ _ (.inl rfl) (h.holds w hw).1, hold _ _ (.inr rfl) (h.holds w hw).2⟩
  loose c hc hW := by
    rcases ha.isLive_iff.mp hc with hi | hl
    · obtain ⟨j, k⟩ := c
      cases hi
      exact ha.new.2 k
    · exact ((ha.old (ha.ne_of_live h.wf hl)).2 c.2).trans (h.loose c hl hW)
  frontier1 := ha.frontier1.trans h.frontier1
  frontier2 := by
    rw [ha.frontier2, h.frontier2, h.filterMap_candidate (ha.grows h.wf)]

theorem Hangs.alloc {p : PortId} (hp : n.Hangs W p) (hwf : n.arena.WF)
    (ha : n.Alloc kind label i n') : n'.Hangs W p :=
  ⟨hp.port.mono (ha.grows hwf), hp.loose⟩

end Alloc

section Connect

variable {n : Net} {W : List Conn} {a b : PortId} {lo : LOPath}

theorem cells_conn {w : Conn} {c : Nat × PortKind} :
    c ∈ w.cells ↔ (w.a.isReal = true ∧ w.a.cell = c) ∨ (w.b.isReal = true ∧ w.b.cell = c) := by
  simp [Conn.cells, or_and_right, exists_or]

theorem wf_connect (a b : PortId) (lo : LOPath) (h : n.arena.WF) : (n.connect a b lo).arena.WF := by
  rw [arena_connect]
  exact wf_writePort _ _ (wf_writePort _ _ h)

theorem frontier1_connect (n : Net) (a b : PortId) (lo : LOPath) :
    (n.connect a b lo).frontier1 = n.frontier1.insertAll ([⟨a, b, lo⟩].filterMap Conn.pair) := by
  by_cases hp : IsPair a b
  · rw [frontier1_connect_of_pair n lo hp]
    simp [Conn.pair, hp, OrdMap.insertAll]
  · rw [frontier1_connect_of_not_pair n lo hp]
    simp [Conn.pair, hp, OrdMap.insertAll]

theorem frontier2_detectPair (n : Net) (a b : PortId) (lo : LOPath) :
    (n.detectPair a b lo).frontier2 = n.frontier2.insertAll (n.candidate ⟨a, b, lo⟩).toList := by
  cases ha : a.portKind <;> cases hb : b.portKind <;> simp only [detectPair, candidate, ha, hb]
  case principal.principal =>
    split
    · split <;> rfl
    · rfl
  case principal.aux0 => split <;> rfl
  case aux0.principal => split <;> rfl
  all_goals rfl

theorem frontier2_connect (n : Net) (a b : PortId) (lo : LOPath) : (n.connect a b lo).frontier2 =
      n.frontier2.insertAll ([⟨a, b, lo⟩].filterMap (n.connect a b lo).candidate) := by
  have hcand : (n.connect a b lo).candidate ⟨a, b, lo⟩ = (n.linkNoPair a b).candidate ⟨a, b, lo⟩ := by
    refine candidate_congr fun p _ => ?_
    have hbody : ((n.connect a b lo).bodyAt p.slotIdx).kind =
        ((n.linkNoPair a b).bodyAt p.slotIdx).kind := by rw [bodyAt_connect, bodyAt_linkNoPair]
    exact ⟨isRepPort_congr hbody, isAppFanPort_congr hbody⟩
  rw [connect, frontier2_detectPair, frontier2_linkNoPair, ← connect, ← hcand]
  cases hc : (n.connect a b lo).candidate ⟨a, b, lo⟩ <;> simp [hc]

/-- Two ends for a connection: ports that hang, or the eraser at the left end. -/
structure Linkable (n : Net) (W : List Conn) (a b : PortId) : Prop where
  left : a = .era ∨ n.Hangs W a
  right : n.Hangs W b
  ne : a.isReal = true → a.cell ≠ b.cell

theorem Wires.connect (h : n.Wires W) (he : n.Linkable W a b) :
    (n.connect a b lo).Wires (W ++ [⟨a, b, lo⟩]) := by
  have hgrows := grows_connect n a b lo
  have hloose : ∀ p, p = a ∨ p = b → p.isReal = true → n.Hangs W p := by
    rintro p (rfl | rfl) hr
    · exact he.left.resolve_left fun hera => by simp [hera] at hr
    · exact he.right
  have hold : ∀ c ∈ cellsOf W, (n.connect a b lo).portAt c = n.portAt c := by
    intro c hc
    rw [portAt_connect, if_neg, if_neg]
    · rintro ⟨hr, rfl⟩
      exact (hloose a (.inl rfl) hr).loose hc
    · rintro ⟨hr, rfl⟩
      exact (hloose b (.inr rfl) hr).loose hc
  have hcells : cellsOf (W ++ [⟨a, b, lo⟩]) = cellsOf W ++ (Conn.mk a b lo).cells := by
    rw [cellsOf_append, cellsOf, cellsOf, flatMap_singleton]
  constructor
  case wf => exact wf_connect a b lo h.wf
  case port =>
    intro w hw
    rcases mem_append.mp hw with hw | hw
    · exact ⟨(h.port w hw).1.imp_right fun hp => hp.mono hgrows, (h.port w hw).2.mono hgrows⟩
    · rw [mem_singleton.mp hw]
      exact ⟨he.left.imp_right fun hp => hp.port.mono hgrows, he.right.port.mono hgrows⟩
  case apart =>
    rw [hcells]
    refine nodup_append.mpr ⟨h.apart, ?_, ?_⟩
    · unfold Conn.cells
      by_cases ha : a.isReal = true <;> by_cases hb : b.isReal = true <;> simp [ha, hb]
      exact he.ne ha
    · rintro c hc d hd rfl
      rcases cells_conn.mp hd with ⟨hr, hd⟩ | ⟨hr, hd⟩
      · exact (hloose a (.inl rfl) hr).loose (hd ▸ hc)
      · exact (hloose b (.inr rfl) hr).loose (hd ▸ hc)
  case holds =>
    intro w hw
    rcases mem_append.mp hw with hw | hw
    · have hmem : ∀ p, (p = w.a ∨ p = w.b) → p.isReal = true → p.cell ∈ cellsOf W :=
        fun p hp hr => mem_cellsOf.mpr ⟨w, hw, p, hp, hr, rfl⟩
      exact ⟨fun hr => (hold _ (hmem _ (.inl rfl) hr)).trans ((h.holds w hw).1 hr),
        fun hr => (hold _ (hmem _ (.inr rfl) hr)).trans ((h.holds w hw).2 hr)⟩
    · rw [mem_singleton.mp hw]
      constructor
      · intro hr
        rw [portAt_connect, if_neg fun hc => he.ne hr hc.2, if_pos ⟨hr, rfl⟩]
      · intro hr
        rw [portAt_connect, if_pos ⟨hr, rfl⟩]
  case loose =>
    intro c hl hc
    rw [isLive_connect] at hl
    rw [hcells, mem_append, not_or] at hc
    have hends := mt cells_conn.mpr hc.2
    rw [not_or] at hends
    rw [portAt_connect, if_neg fun hb => hends.2 ⟨hb.1, hb.2.symm⟩,
      if_neg fun ha => hends.1 ⟨ha.1, ha.2.symm⟩]
    exact h.loose c hl hc.1
  case frontier1 =>
    rw [frontier1_connect, h.frontier1, filterMap_append, OrdMap.insertAll_append]
  case frontier2 =>
    rw [frontier2_connect, h.frontier2, filterMap_append, OrdMap.insertAll_append,
      h.filterMap_candidate hgrows]

theorem Hangs.connect {p : PortId} (hp : n.Hangs W p) (ha : a.isReal = true → p.cell ≠ a.cell)
    (hb : p.cell ≠ b.cell) : (n.connect a b lo).Hangs (W ++ [⟨a, b, lo⟩]) p := by
  refine ⟨hp.port.mono (grows_connect n a b lo), ?_⟩
  rw [cellsOf_append, mem_append, cellsOf, cellsOf, flatMap_singleton, cells_conn, not_or, not_or]
  exact ⟨hp.loose, fun h => ha h.1 h.2.symm, fun h => hb h.2.symm⟩

end Connect

end Net

/-! ## What hangs during elaboration -/

/-- The loose ends of the elaboration: the ports of the environment and the ports `P` that are
in the hands of the elaborator, all of them different. -/
structure ElabState.Holding (st : ElabState) (W : List Conn) (P : List PortId) : Prop where
  wires : st.net.Wires W
  env : ∀ y q, st.env y = some q → st.net.Hangs W q.1
  inj : ∀ y y' q q', st.env y = some q → st.env y' = some q' → q.1.cell = q'.1.cell → y = y'
  hangs : ∀ q ∈ P, st.net.Hangs W q
  apart : ∀ y q, st.env y = some q → ∀ q' ∈ P, q.1.cell ≠ q'.cell
  nodup : (P.map PortId.cell).Nodup

/-- There are no other loose ends. -/
def ElabState.Complete (st : ElabState) (W : List Conn) (P : List PortId) : Prop :=
  ∀ c : Nat × PortKind, st.net.arena.isLive c.1 = true →
    c ∈ cellsOf W ∨ (∃ y q, st.env y = some q ∧ q.1.cell = c) ∨ c ∈ P.map PortId.cell

namespace ElabState

variable {st : ElabState} {W : List Conn} {P Q : List PortId} {r : PortId × Nat} {q : PortId × Nat}

theorem Holding.of_subset (h : st.Holding W P) (hQ : ∀ q ∈ Q, q ∈ P)
    (hnodup : (Q.map PortId.cell).Nodup) : st.Holding W Q :=
  ⟨h.wires, h.env, h.inj, fun q hq => h.hangs q (hQ q hq),
    fun y q hq q' hq' => h.apart y q hq q' (hQ q' hq'), hnodup⟩

theorem Holding.perm (h : st.Holding W P) (hPQ : P.Perm Q) : st.Holding W Q :=
  h.of_subset (fun _ => hPQ.mem_iff.mpr) ((hPQ.map _).nodup_iff.mp h.nodup)

theorem Holding.sublist (h : st.Holding W P) (hPQ : Q.Sublist P) : st.Holding W Q :=
  h.of_subset (fun _ hq => hPQ.subset hq) ((hPQ.map _).nodup h.nodup)

theorem Complete.perm (h : st.Complete W P) (hPQ : P.Perm Q) : st.Complete W Q := fun c hc =>
  (h c hc).imp_right (Or.imp_right (hPQ.map PortId.cell).mem_iff.mp)

/-! A name is taken out of the environment. -/

theorem Holding.take {n : Name} (h : st.Holding W P) (hn : st.env n = some r) :
    Holding { st with env := unbindName st.env n } W (r.1 :: P) where
  wires := h.wires
  env y q hq := h.env y q (unbindName_eq_some.mp hq).2
  inj y y' q q' hq hq' := h.inj y y' q q' (unbindName_eq_some.mp hq).2 (unbindName_eq_some.mp hq').2
  hangs := forall_mem_cons.mpr ⟨h.env n r hn, h.hangs⟩
  apart y q hq q' hq' := by
    obtain ⟨hne, hq⟩ := unbindName_eq_some.mp hq
    rcases mem_cons.mp hq' with rfl | hq'
    · exact fun hc => hne (h.inj y n q r hq hn hc)
    · exact h.apart y q hq q' hq'
  nodup := by
    refine nodup_cons.mpr ⟨fun hm => ?_, h.nodup⟩
    obtain ⟨q', hq', hc⟩ := mem_map.mp hm
    exact h.apart n r hn q' hq' hc.symm

theorem Complete.take {n : Name} (h : st.Complete W P) (hn : st.env n = some r) :
    Complete { st with env := unbindName st.env n } W (r.1 :: P) := by
  intro c hc
  rcases h c hc with hW | ⟨y, q, hq, hqc⟩ | hP
  · exact .inl hW
  · by_cases hy : y = n
    · subst hy
      cases hn.symm.trans hq
      exact .inr (.inr (hqc ▸ mem_cons_self))
    · exact .inr (.inl ⟨y, q, unbindName_eq_some.mpr ⟨hy, hq⟩, hqc⟩)
  · exact .inr (.inr (mem_cons_of_mem _ hP))

/-! A port is bound to a name. -/

theorem Holding.bind {x : Name} (h : st.Holding W (q.1 :: P)) :
    Holding { st with env := bindName st.env x q } W P where
  wires := h.wires
  env y r hr := by
    rcases bindName_eq_some.mp hr with ⟨-, rfl⟩ | ⟨-, hr⟩
    · exact h.hangs r.1 mem_cons_self
    · exact h.env y r hr
  inj y y' r r' hr hr' hc := by
    have hself := fun y r (hr : st.env y = some r) => h.apart y r hr q.1 mem_cons_self
    rcases bindName_eq_some.mp hr with ⟨rfl, rfl⟩ | ⟨-, hold⟩ <;>
      rcases bindName_eq_some.mp hr' with ⟨rfl, rfl⟩ | ⟨-, hold'⟩
    · rfl
    · exact absurd hc.symm (hself y' r' hold')
    · exact absurd hc (hself y r hold)
    · exact h.inj y y' r r' hold hold' hc
  hangs r hr := h.hangs r (mem_cons_of_mem _ hr)
  apart y r hr r' hr' := by
    rcases bindName_eq_some.mp hr with ⟨-, rfl⟩ | ⟨-, hr⟩
    · exact fun hc => (nodup_cons.mp h.nodup).1 (hc ▸ mem_map_of_mem hr')
    · exact h.apart y r hr r' (mem_cons_of_mem _ hr')
  nodup := (nodup_cons.mp h.nodup).2

theorem Complete.bind {x : Name} (h : st.Complete W (q.1 :: P))
    (hx : st.env x = none) : Complete { st with env := bindName st.env x q } W P := by
  intro c hc
  rcases h c hc with hW | ⟨y, r, hr, hrc⟩ | hP
  · exact .inl hW
  · have hne : y ≠ x := by
      rintro rfl
      cases hx.symm.trans hr
    exact .inr (.inl ⟨y, r, bindName_eq_some.mpr (.inr ⟨hne, hr⟩), hrc⟩)
  · rcases mem_cons.mp hP with rfl | hP
    · exact .inr (.inl ⟨x, q, bindName_eq_some.mpr (.inl ⟨rfl, rfl⟩), rfl⟩)
    · exact .inr (.inr hP)

/-! An agent is allocated. -/

section

variable {n' : Net} {kind : AgentKind} {label : Nat × Int × Int} {i : Nat}
  (ha : st.net.Alloc kind label i n')
include ha

theorem Holding.alloc (h : st.Holding W P) : Holding { st with net := n' } W
    (n'.portId (i, .principal) :: n'.portId (i, .aux0) :: n'.portId (i, .aux1) :: P) := by
  have hold : ∀ q, st.net.Hangs W q → ∀ k, q.cell ≠ (i, k) := fun q hq k hc =>
    ha.ne_of_live h.wires.wf hq.port.live (congrArg Prod.fst hc)
  have hmem : ∀ k q, q ∈ P → q.cell ≠ (i, k) := fun k q hq => hold q (h.hangs q hq) k
  refine ⟨h.wires.alloc ha, fun y q hq => (h.env y q hq).alloc h.wires.wf ha, h.inj, ?_, ?_, ?_⟩
  · have hnew : ∀ k, n'.Hangs W (n'.portId (i, k)) := fun k => ⟨⟨ha.isLive_new, rfl⟩, fun hm =>
      ha.ne_of_live h.wires.wf (h.wires.live_of_mem hm) rfl⟩
    simp only [forall_mem_cons]
    exact ⟨hnew _, hnew _, hnew _, fun q hq => (h.hangs q hq).alloc h.wires.wf ha⟩
  · intro y q hq
    have hne := hold _ (h.env y q hq)
    simp only [forall_mem_cons]
    exact ⟨hne _, hne _, hne _, h.apart y q hq⟩
  · simp only [map_cons, cell_portId, nodup_cons, mem_cons, mem_map,
      Prod.mk.injEq, reduceCtorEq, and_false, false_or, not_exists, not_and]
    exact ⟨hmem _, hmem _, hmem _, h.nodup⟩

theorem Complete.alloc (h : st.Complete W P) : Complete { st with net := n' } W
    (n'.portId (i, .principal) :: n'.portId (i, .aux0) :: n'.portId (i, .aux1) :: P) := by
  rintro ⟨j, k⟩ hc
  rcases ha.isLive_iff.mp hc with hi | hl
  · cases hi
    cases k <;> simp
  · refine (h _ hl).imp_right (Or.imp_right fun hP => ?_)
    simp only [map_cons, mem_cons]
    exact .inr (.inr (.inr hP))

end

/-! Two ports are connected. -/

variable {a b : PortId}

theorem Holding.link {lo : LOPath} (h : st.Holding W P) (he : st.net.Linkable W a b)
    (hQ : ∀ q ∈ Q, q ∈ P) (hnodup : (Q.map PortId.cell).Nodup)
    (hPa : ∀ q ∈ Q, (a.isReal = true → q.cell ≠ a.cell) ∧ q.cell ≠ b.cell)
    (hea : ∀ y q, st.env y = some q → (a.isReal = true → q.1.cell ≠ a.cell) ∧ q.1.cell ≠ b.cell) :
    Holding { st with net := st.net.connect a b lo } (W ++ [⟨a, b, lo⟩]) Q where
  wires := h.wires.connect he
  env y q hq := (h.env y q hq).connect (hea y q hq).1 (hea y q hq).2
  inj := h.inj
  hangs q hq := (h.hangs q (hQ q hq)).connect (hPa q hq).1 (hPa q hq).2
  apart y q hq q' hq' := h.apart y q hq q' (hQ q' hq')
  nodup := hnodup

theorem Holding.connect (h : st.Holding W (a :: b :: P)) (lo : LOPath) :
    Holding { st with net := st.net.connect a b lo } (W ++ [⟨a, b, lo⟩]) P := by
  have hnodup := h.nodup
  simp only [map_cons, nodup_cons, mem_cons, mem_map, not_or, not_exists, not_and] at hnodup
  obtain ⟨⟨hab, haP⟩, hbP, hP⟩ := hnodup
  refine h.link ⟨.inr (h.hangs a (by simp)), h.hangs b (by simp), fun _ => hab⟩
    (fun q hq => by simp [hq]) hP (fun q hq => ⟨fun _ => haP q hq, hbP q hq⟩)
    fun y q hq => ⟨fun _ => ?_, ?_⟩
  · exact h.apart y q hq a (by simp)
  · exact h.apart y q hq b (by simp)

theorem Holding.erase {b : PortId} (h : st.Holding W (b :: P)) (lo : LOPath) :
    Holding { st with net := st.net.connect .era b lo } (W ++ [⟨.era, b, lo⟩]) P := by
  have hnodup := h.nodup
  simp only [map_cons, nodup_cons, mem_map, not_exists, not_and] at hnodup
  refine h.link ⟨.inl rfl, h.hangs b (by simp), fun hr => by simp at hr⟩ (fun q hq => by simp [hq])
    hnodup.2 (fun q hq => ⟨fun hr => by simp at hr, hnodup.1 q hq⟩) fun y q hq =>
      ⟨fun hr => by simp at hr, h.apart y q hq b (by simp)⟩

theorem Complete.link {lo : LOPath} (h : st.Complete W P) (hQ : ∀ c ∈ P.map PortId.cell,
      c ∈ (Conn.mk a b lo).cells ∨ c ∈ Q.map PortId.cell) :
    Complete { st with net := st.net.connect a b lo } (W ++ [⟨a, b, lo⟩]) Q := by
  intro c hc
  rw [isLive_connect] at hc
  rw [cellsOf_append, mem_append, cellsOf, cellsOf, flatMap_singleton]
  rcases h c hc with hW | henv | hP
  · exact .inl (.inl hW)
  · exact .inr (.inl henv)
  · exact (hQ c hP).imp .inr .inr

theorem Complete.connect (h : st.Complete W (a :: b :: P))
    (ha : a.isReal = true) (hb : b.isReal = true) (lo : LOPath) :
    Complete { st with net := st.net.connect a b lo } (W ++ [⟨a, b, lo⟩]) P := by
  refine h.link fun c hc => ?_
  rw [cells_conn]
  simp only [map_cons, mem_cons] at hc
  rcases hc with rfl | rfl | hP
  · exact .inl (.inl ⟨ha, rfl⟩)
  · exact .inl (.inr ⟨hb, rfl⟩)
  · exact .inr hP

theorem Complete.erase {b : PortId} (h : st.Complete W (b :: P)) (hb : b.isReal = true) (lo : LOPath) :
    Complete { st with net := st.net.connect .era b lo } (W ++ [⟨.era, b, lo⟩]) P := by
  refine h.link fun c hc => ?_
  rcases mem_cons.mp hc with rfl | hP
  · exact .inl (cells_conn.mpr (.inr ⟨hb, rfl⟩))
  · exact .inr hP

end ElabState

/-! ## The environment after a run -/

section

variable {V F : Type} {names : List Name} {x : Name}

/-- Only `Name`, `Abs`, `App`, `Rep`, `Era` and `Fix`. -/
def Ast.Core : Ast V F → Prop
  | .name _ => True
  | .abs _ body => body.Core
  | .app f x => f.Core ∧ x.Core
  | .rep e _ _ body => e.Core ∧ body.Core
  | .era e body => e.Core ∧ body.Core
  | .fix inner => inner.Core
  | .val _ | .fn _ | .perform _ _ | .handle _ _ => False

theorem Ast.Core.effectFree : ∀ {t : Ast V F}, t.Core → t.EffectFree
  | .name _, _ => trivial
  | .abs _ body, h | .fix body, h => Ast.Core.effectFree (t := body) h
  | .app f x, h
  | .rep f _ _ x, h
  | .era f x, h => ⟨Ast.Core.effectFree (t := f) h.1, Ast.Core.effectFree (t := x) h.2⟩

/-- A term that is elaborated in an environment: its binders are new and different, its free
names are bound and used once. -/
structure Ast.Fits (t : Ast V F) (env : Env) : Prop where
  usedOnce : t.UsedOnce
  free : t.freeNames.Nodup
  bound : ∀ y ∈ t.freeNames, (env y).isSome
  binders : t.binders.Nodup
  fresh : ∀ x ∈ t.binders, env x = none

/-- The environment after the names were used. -/
def Env.without (env : Env) (names : List Name) : Env := fun y => if y ∈ names then none else env y

theorem of_without_eq_some {env : Env} {q : PortId × Nat}
    (h : env.without names x = some q) : env x = some q := by
  unfold Env.without at h
  split at h
  · cases h
  · exact h

theorem without_eq_none {env : Env} (h : env x = none) : env.without names x = none := by
  unfold Env.without
  split
  · rfl
  · exact h

theorem without_of_not_mem {env : Env} (h : x ∉ names) : env.without names x = env x := if_neg h

theorem nodup_of_filter (hx : names.count x = 1)
    (h : (names.filter (· != x)).Nodup) : names.Nodup := by
  rw [nodup_iff_count_le_one] at h ⊢
  intro y
  by_cases hy : y = x
  · rw [hy, hx]
  · have := h y
    rwa [count_filter (by simpa using hy)] at this

namespace Ast.Fits

variable {t e f body : Ast V F} {x a b : Name} {env : Env} {ns bs : List Name}

theorem abs (h : (Ast.abs x body).Fits env) (q : PortId × Nat) : body.Fits (bindName env x q) where
  usedOnce := h.usedOnce.2
  free := nodup_of_filter h.usedOnce.1 h.free
  bound y hy := by
    by_cases hyx : y = x
    · simp [bindName, hyx]
    · simpa [bindName, hyx] using h.bound y (mem_filter.mpr ⟨hy, by simpa using hyx⟩)
  binders := (nodup_cons.mp h.binders).2
  fresh y hy := by
    have hne : y ≠ x := fun he => (nodup_cons.mp h.binders).1 (he ▸ hy)
    simpa [bindName, hne] using h.fresh y (mem_cons_of_mem x hy)

theorem left (hused : t.UsedOnce) (hfree : (t.freeNames ++ ns).Nodup)
    (hbound : ∀ y ∈ t.freeNames ++ ns, (env y).isSome) (hbinders : (t.binders ++ bs).Nodup)
    (hfresh : ∀ y ∈ t.binders ++ bs, env y = none) : t.Fits env where
  usedOnce := hused
  free := (nodup_append.mp hfree).1
  bound y hy := hbound y (mem_append_left _ hy)
  binders := (nodup_append.mp hbinders).1
  fresh y hy := hfresh y (mem_append_left _ hy)

theorem right (hused : t.UsedOnce) (hfree : (ns ++ t.freeNames).Nodup)
    (hbound : ∀ y ∈ ns ++ t.freeNames, (env y).isSome) (hbinders : (bs ++ t.binders).Nodup)
    (hfresh : ∀ y ∈ bs ++ t.binders, env y = none) : t.Fits (env.without ns) where
  usedOnce := hused
  free := (nodup_append.mp hfree).2.1
  bound y hy := by
    rw [without_of_not_mem fun hm => (nodup_append.mp hfree).2.2 y hm y hy rfl]
    exact hbound y (mem_append_right _ hy)
  binders := (nodup_append.mp hbinders).2.1
  fresh y hy := without_eq_none (hfresh y (mem_append_right _ hy))

theorem app_left (h : (Ast.app f t).Fits env) : f.Fits env :=
  left h.usedOnce.1 h.free h.bound h.binders h.fresh

theorem app_right (h : (Ast.app f t).Fits env) : t.Fits (env.without f.freeNames) :=
  right h.usedOnce.2 h.free h.bound h.binders h.fresh

theorem era_left (h : (Ast.era e t).Fits env) : e.Fits env :=
  left h.usedOnce.1 h.free h.bound h.binders h.fresh

theorem era_right (h : (Ast.era e t).Fits env) : t.Fits (env.without e.freeNames) :=
  right h.usedOnce.2 h.free h.bound h.binders h.fresh

theorem rep_left (h : (Ast.rep e a b body).Fits env) : e.Fits env :=
  left h.usedOnce.1 h.free h.bound h.binders h.fresh

theorem rep_right (h : (Ast.rep e a b body).Fits env) (q q' : PortId × Nat) :
    body.Fits (bindName (bindName (env.without e.freeNames) a q) b q') := by
  obtain ⟨hab, ha, hb⟩ := h.usedOnce.2.1
  obtain ⟨-, hfree, hdisj⟩ := nodup_append.mp h.free
  obtain ⟨-, hbinders, -⟩ := nodup_append.mp h.binders
  simp only [nodup_cons, mem_cons, not_or] at hbinders
  constructor
  case usedOnce => exact h.usedOnce.2.2
  case free =>
    refine nodup_of_filter hb (nodup_of_filter (x := a) ?_ (by rwa [filter_filter]))
    rwa [count_filter (by simpa using hab)]
  case bound =>
    intro y hy
    by_cases hyb : y = b
    · simp [bindName, hyb]
    · by_cases hya : y = a
      · simp [bindName, hya, hab]
      · have hmem : y ∈ body.freeNames.filter fun y => y != a && y != b :=
          mem_filter.mpr ⟨hy, by simp [hya, hyb]⟩
        simp only [bindName, hya, hyb, if_false]
        rw [without_of_not_mem fun hm => hdisj y hm y hmem rfl]
        exact h.bound y (mem_append_right _ hmem)
  case binders => exact hbinders.2.2
  case fresh =>
    intro y hy
    have hyb : y ≠ b := fun he => hbinders.2.1 (he ▸ hy)
    have hya : y ≠ a := fun he => hbinders.1.2 (he ▸ hy)
    simp only [bindName, hya, hyb, if_false]
    exact without_eq_none (h.fresh y (mem_append_right _ (by simp [hy])))

theorem fix {inner : Ast V F} (h : (fix inner).Fits env) : inner.Fits env :=
  ⟨h.usedOnce, h.free, h.bound, h.binders, h.fresh⟩

end Ast.Fits

theorem without_append (env : Env) (ns ms : List Name) :
    (env.without ns).without ms = env.without (ns ++ ms) := by
  funext y
  simp only [Env.without, mem_append]
  split <;> split <;> simp_all

variable {usage : Name → Option Nat} {st st' : ElabState} {r : PortId × Nat} {log : List Event}
  {W : List Conn} {kind : AgentKind} {P : List PortId}

variable {t : Ast V F} {level : Nat} {lo : LOPath} {n : Net} {e : DnxError}

theorem Emits.env
    (h : Emits usage t level lo st r st' log) (hfree : t.EffectFree) (hfits : t.Fits st.env) :
    st'.env = st.env.without t.freeNames := by
  induction h with
  | @name n level lo st r hn =>
    funext y
    simp [unbindName, Env.without, freeNames]
  | @abs x body level l lo loBody st st' ps net bodyP log _ _ _ ih =>
    have henv := ih hfree (hfits.abs _)
    funext y
    have hx : st.env x = none := hfits.fresh x mem_cons_self
    simp only [unbindName, henv, Env.without, freeNames, mem_filter, bindName]
    by_cases hy : y = x
    · simp [hy, hx]
    · simp [hy]
  | @app f x _ _ _ _ _ _ st st1 st2 _ _ _ _ _ _ _ _ _ _ _ ihf ihx =>
    have henv := ihf hfree.1 hfits.app_left
    have henv' := ihx hfree.2 (henv ▸ hfits.app_right)
    rw [henv', henv, without_append, freeNames]
  | @rep e body a b level repLevel lo st st1 st2 ps net eP d0 d1 r log log' _ _ _ _ _ ihe ihb =>
    have henv := ihe hfree.1 hfits.rep_left
    have henv' := ihb hfree.2 (henv ▸ hfits.rep_right _ _)
    obtain ⟨hab, ha, hb⟩ := hfits.usedOnce.2.1
    have hma : a ∈ body.freeNames := count_pos_iff.mp (by omega)
    have hmb : b ∈ body.freeNames := count_pos_iff.mp (by omega)
    have hna : st.env a = none := hfits.fresh a (by simp [Ast.binders])
    have hnb : st.env b = none := hfits.fresh b (by simp [Ast.binders])
    funext y
    simp only [henv', henv, Env.without, freeNames, mem_append, mem_filter, bindName]
    by_cases hyb : y = b
    · simp [hyb, hmb, hnb]
    · by_cases hya : y = a
      · simp [hya, hma, hna]
      · by_cases he : y ∈ e.freeNames <;> by_cases hb : y ∈ body.freeNames <;> simp [hya, hyb, he, hb]
  | @era e body _ _ _ st st1 st2 _ _ _ _ _ _ ihe ihb =>
    have henv := ihe hfree.1 hfits.era_left
    have henv' := ihb hfree.2 (henv ▸ hfits.era_right)
    rw [henv', henv, without_append, freeNames]
  | @fix inner _ _ _ _ _ st st1 _ _ _ _ _ _ _ _ _ _ _ ih => exact ih hfree hfits.fix
  | handle _ _ => exact hfree.elim
  | val _ | fn _ =>
    funext y
    simp [Env.without, freeNames]

/-! ## A run keeps hold of every loose end -/

theorem allocAgent_grows {n' : Net} {data : Nat} {d0 d1 : Int}
    {ps : AgentPorts} (h : n.allocAgent kind data d0 d1 = .ok (ps, n')) (hwf : n.arena.WF) :
    n'.arena.WF ∧ n.Grows n' := by
  obtain ⟨i, ha, -⟩ := allocAgent_ok h
  exact ⟨(ha.wf hwf).1, ha.grows hwf⟩

theorem Emits.grows (h : Emits usage t level lo st r st' log) (hwf : st.net.arena.WF) :
    st'.net.arena.WF ∧ st.net.Grows st'.net := by
  have hkept : Kept (fun n => n.arena.WF ∧ st.net.Grows n) fun _ _ => True :=
    { agent := fun hn _ _ halloc =>
        have hnew := allocAgent_grows halloc hn.1
        ⟨⟨hnew.1, hn.2.trans hnew.2⟩, by simp⟩
      connect := fun lo hn _ _ =>
        ⟨⟨wf_connect _ _ lo hn.1, hn.2.trans (grows_connect ..)⟩, by simp⟩ }
  have hall : KeptAll (fun n => n.arena.WF ∧ st.net.Grows n) fun _ _ => True :=
    { era := fun _ => trivial
      free := fun hn halloc => by
        obtain ⟨i, ha, -⟩ := allocFree_ok halloc
        exact ⟨⟨(ha.wf hn.1).1, hn.2.trans (ha.grows hn.1)⟩, by simp⟩ }
  exact (h.kept hkept (.inr hall) ⟨hwf, .refl _⟩ fun _ _ _ => trivial).1

theorem connsOf_append (l l' : List Event) : connsOf (l ++ l') = connsOf l ++ connsOf l' :=
  filterMap_append

theorem ElabState.Holding.unbind {st : ElabState} (h : st.Holding W P) (x : Name) :
    Holding { st with env := unbindName st.env x } W P := by
  cases hx : st.env x with
  | none =>
    have hsame : unbindName st.env x = st.env := funext fun y => by
      by_cases hy : y = x <;> simp [unbindName, hy, hx]
    rwa [hsame]
  | some r => exact (h.take hx).sublist (sublist_cons_self _ _)

theorem ElabState.Complete.unbind {st : ElabState} (h : st.Complete W P) (hx : st.env x = none) :
    Complete { st with env := unbindName st.env x } W P := by
  intro c hc
  refine (h c hc).imp_right (Or.imp_left ?_)
  rintro ⟨y, q, hq, hqc⟩
  have hne : y ≠ x := by
    rintro rfl
    cases hx.symm.trans hq
  exact ⟨y, q, unbindName_eq_some.mpr ⟨hne, hq⟩, hqc⟩

/-- A part of the elaboration takes the loose ends `P` to `P'`. -/
structure Keeps (core : Prop) (st st' : ElabState) (W W' : List Conn) (P P' : List PortId) : Prop where
  holding : st.Holding W P → st'.Holding W' P'
  complete : core → st.Holding W P → st.Complete W P → st'.Complete W' P'

namespace Keeps

variable {core : Prop} {st st1 st2 : ElabState} {W W1 W2 : List Conn} {P Q P1 P2 : List PortId}

theorem trans (h : Keeps core st st1 W W1 P P1) (h' : Keeps core st1 st2 W1 W2 P1 P2) :
    Keeps core st st2 W W2 P P2 :=
  ⟨fun hold => h'.holding (h.holding hold), fun hcore hold hc =>
    h'.complete hcore (h.holding hold) (h.complete hcore hold hc)⟩

theorem mono (core' : Prop) (h : Keeps core st st1 W W1 P P1) (hcore : core' → core) :
    Keeps core' st st1 W W1 P P1 :=
  ⟨h.holding, fun hc => h.complete (hcore hc)⟩

/-- The loose ends may be taken in any order. -/
theorem next (h : Keeps core st st1 W W1 P P1) (hPQ : ∀ q, P1.count q = Q.count q)
    (h' : Keeps core st1 st2 W1 W2 Q P2) : Keeps core st st2 W W2 P P2 :=
  have hperm : P1.Perm Q := perm_iff_count.mpr hPQ
  h.trans ⟨fun hold => h'.holding (hold.perm hperm), fun hcore hold hc =>
    h'.complete hcore (hold.perm hperm) (hc.perm hperm)⟩

theorem bind {x : Name} (core : Prop) (q : PortId × Nat) (hx : core → st.env x = none) :
    Keeps core st { st with env := bindName st.env x q } W W (q.1 :: P) P :=
  ⟨fun h => h.bind, fun hcore _ h => h.bind (hx hcore)⟩

theorem alloc {kind : AgentKind} {data : Nat} {d0 d1 : Int} {ps : AgentPorts} {net : Net}
    (core : Prop) (ha : st.net.allocAgent kind data d0 d1 = .ok (ps, net)) :
    Keeps core st { st with net := net } W W P (ps.principal :: ps.aux0 :: ps.aux1 :: P) := by
  obtain ⟨i, hi, rfl⟩ := allocAgent_ok ha
  exact ⟨fun h => h.alloc hi, fun _ _ h => h.alloc hi⟩

/-- A free slot; nothing will be wired to its two other ports. -/
theorem allocFree {p : PortId} {net : Net} {varId : Nat} (ha : st.net.allocFree varId = .ok (p, net)) :
    Keeps False st { st with net := net } W W P (p :: P) := by
  obtain ⟨i, hi, rfl⟩ := allocFree_ok ha
  refine ⟨fun h => (h.alloc hi).sublist ?_, False.elim⟩
  exact List.Sublist.cons_cons _ (.cons _ (.cons _ (List.Sublist.refl P)))

theorem connect (core : Prop) (a b : PortId) (lo : LOPath) :
    Keeps core st { st with net := st.net.connect a b lo } W (W ++ [⟨a, b, lo⟩]) (a :: b :: P) P :=
  ⟨fun h => h.connect lo, fun _ hold h => h.connect ((hold.hangs a (by simp)).port.isReal hold.wires.wf)
    ((hold.hangs b (by simp)).port.isReal hold.wires.wf) lo⟩

theorem erase (core : Prop) (b : PortId) (lo : LOPath) :
    Keeps core st { st with net := st.net.connect .era b lo } W (W ++ [⟨.era, b, lo⟩]) (b :: P) P :=
  ⟨fun h => h.erase lo, fun _ hold h =>
    h.erase ((hold.hangs b (by simp)).port.isReal hold.wires.wf) lo⟩

end Keeps

theorem Emits.keeps (h : Emits usage t level lo st r st' log) (hfree : t.EffectFree) (W : List Conn)
    (P : List PortId) :
    Keeps (t.Core ∧ t.Fits st.env) st st' W (W ++ connsOf log) P (r.1 :: P) := by
  induction h generalizing W P with
  | @name n level lo st r hn =>
    rw [show connsOf [Event.use n level] = [] from rfl, append_nil]
    exact ⟨fun h => h.take hn, fun _ _ h => h.take hn⟩
  | @abs x body level l lo loBody st st' ps net bodyP log halloc hlo hrun ih =>
    have hend : (Ast.abs x body).Core ∧ (Ast.abs x body).Fits st.env → st'.env x = none := by
      rintro ⟨-, hfits⟩
      rw [hrun.env hfree (hfits.abs _), Env.without, if_pos]
      exact count_pos_iff.mp (by rw [hfits.usedOnce.1]; exact Nat.one_pos)
    rw [connsOf_append, ← append_assoc]
    exact ((((Keeps.alloc _ halloc).next (fun q => by simp only [count_cons]; omega)
      (.bind _ (ps.aux1, level + 1) fun hc => hc.2.fresh x mem_cons_self)).trans
      ((ih hfree W (ps.principal :: ps.aux0 :: P)).mono _ fun hc => ⟨hc.1, hc.2.abs _⟩)).next
      (fun q => by simp only [count_cons]; omega) (.connect _ ps.aux0 bodyP loBody)).trans
      ⟨fun h => h.unbind x, fun hcore _ h => h.unbind (hend hcore)⟩
  | @app f x level l l' lo loFn loArg st st1 st2 ps net fP aP log log' halloc _ hf _ hx ihf ihx =>
    have hrunF := (ihf hfree.1 W (ps.principal :: ps.aux0 :: ps.aux1 :: P)).mono
      ((Ast.app f x).Core ∧ (Ast.app f x).Fits st.env) fun hc => ⟨hc.1.1, hc.2.app_left⟩
    have hrunX := (ihx hfree.2 (W ++ connsOf log)
      (fP :: ps.principal :: ps.aux0 :: ps.aux1 :: P)).mono
      ((Ast.app f x).Core ∧ (Ast.app f x).Fits st.env) fun hc =>
        ⟨hc.1.2, hf.env hfree.1 hc.2.app_left ▸ hc.2.app_right⟩
    simpa [connsOf] using ((((Keeps.alloc _ halloc).trans hrunF).trans hrunX).next
      (fun q => by simp only [count_cons]; omega)
      (.connect (P := aP :: ps.aux0 :: ps.aux1 :: P) _ ps.principal fP loFn)).next
      (fun q => by simp only [count_cons]; omega) (.connect _ ps.aux1 aP loArg)
  | @rep e body a b level repLevel lo st st1 st2 ps net eP d0 d1 r log log' he _ _ halloc hb ihe ihb =>
    let core := (Ast.rep e a b body).Core ∧ (Ast.rep e a b body).Fits st.env
    have henv : core → st1.env = st.env.without e.freeNames := fun hc =>
      he.env hfree.1 hc.2.rep_left
    have hna : core → st1.env a = none := fun hc => by
      rw [henv hc]
      exact without_eq_none (hc.2.fresh a (by simp [Ast.binders]))
    have hnb : core → bindName st1.env a (ps.aux0, (usage a).getD level) b = none := fun hc => by
      rw [henv hc, bindName, if_neg hc.2.usedOnce.2.1.1.symm]
      exact without_eq_none (hc.2.fresh b (by simp [Ast.binders]))
    have hrunE := (ihe hfree.1 W P).mono core fun hc => ⟨hc.1.1, hc.2.rep_left⟩
    have hrunB := (ihb hfree.2 (W ++ connsOf log ++ [⟨ps.principal, eP, lo⟩]) P).mono core fun hc =>
      ⟨hc.1.2, henv hc ▸ hc.2.rep_right _ _⟩
    simpa [connsOf] using ((((hrunE.trans (.alloc _ halloc)).next
      (fun q => by simp only [count_cons]; omega) (.connect _ ps.principal eP lo)).trans
        (.bind _ (ps.aux0, (usage a).getD level) hna)).trans
      (.bind _ (ps.aux1, (usage b).getD level) hnb)).trans hrunB
  | @era e body level l lo st st1 st2 eP r log log' he hb ihe ihb =>
    have hrunE := (ihe hfree.1 W P).mono
      ((Ast.era e body).Core ∧ (Ast.era e body).Fits st.env) fun hc => ⟨hc.1.1, hc.2.era_left⟩
    have hrunB := (ihb hfree.2 (W ++ connsOf log ++ [⟨.era, eP, lo⟩]) P).mono
      ((Ast.era e body).Core ∧ (Ast.era e body).Fits st.env) fun hc =>
        ⟨hc.1.2, he.env hfree.1 hc.2.era_left ▸ hc.2.era_right⟩
    simpa [connsOf] using (hrunE.trans (.erase _ eP lo)).trans hrunB
  | @fix inner level l lo loFn loR st st1 app rep net net' innerP log _ hi happ hrep _ ih =>
    simpa [connsOf] using ((((((ih hfree W P).mono _ fun hc => ⟨hc.1, hc.2.fix⟩).trans
      (.alloc _ happ)).next (fun q => by simp only [count_cons]; omega)
      (.connect (P := app.aux0 :: app.aux1 :: P) _ app.principal innerP loFn)).trans
      (.alloc _ hrep)).next (fun q => by simp only [count_cons]; omega)
      (.connect _ rep.principal app.aux0 loR)).trans (.connect _ app.aux1 rep.aux0 lo)
  | handle _ _ => exact hfree.elim
  | val halloc | fn halloc =>
    rw [show connsOf [] = [] from rfl, append_nil]
    exact (Keeps.allocFree halloc).mono _ And.left

/-! ## Errors -/

/-- The errors that stand for a resource of the elaborator. -/
def ResourceError (e : DnxError) : Prop :=
  e = .arenaCapacityExceeded ∨ e = .lOPathDepthExceeded ∨ e = .deltaOverflow

theorem allocAgent_error {data : Nat} {d0 d1 : Int}
    (h : n.allocAgent kind data d0 d1 = .error e) : ResourceError e := by
  rcases bind_eq_error.mp h with h | ⟨⟨i, arena⟩, -, h⟩
  · unfold Arena.allocSlot at h
    split at h
    · cases h
    · split at h
      · cases h
        exact .inl rfl
      · cases h
  · cases h

theorem extendBit_error {b : Bool} (h : lo.extendBit b = .error e) : ResourceError e := by
  unfold LOPath.extendBit at h
  split at h
  · cases h
  · cases h
    exact .inr (.inl rfl)

theorem toI16_error {d : Int} (h : toI16 d = .error e) : ResourceError e := by
  unfold toI16 at h
  split at h
  · cases h
  · cases h
    exact .inr (.inr rfl)

/-- How the elaboration of a checked term can stop: a resource runs out, or a debug build panics. -/
def Expected (debug : Bool) : Abort → Prop
  | .err e => ResourceError e
  | .assertion => debug = true

section

variable {debug : Bool}

theorem expected_of_lift {α : Type} {x : Except DnxError α}
    (h : ∀ e, x = .error e → ResourceError e) :
    ∀ e, (liftM x : Except Abort α) = .error e → Expected debug e
  | .err e, hx => h e (lift_eq_err.mp hx)
  | .assertion, hx => absurd hx lift_ne_assertion

theorem allocRepIn_error {l : Nat} {d0 d1 : Int} :
    ∀ e, n.allocRepIn debug l d0 d1 = .error e → Expected debug e := by
  intro e h
  unfold Net.allocRepIn at h
  split at h
  · next hdebug =>
    cases h
    exact (Bool.and_eq_true_iff.mp hdebug).1
  · exact expected_of_lift (fun _ => allocAgent_error) e h

theorem elabImpl_error : ∀ {t : Ast V F} {level : Nat} {lo : LOPath} {st : ElabState}, t.Core →
    t.Fits st.env → ∀ e, t.elabImpl debug usage level lo st = .error e → Expected debug e
  | .name n, level, lo, st, _, hfits => by
    intro e h
    obtain ⟨r, hr⟩ := Option.isSome_iff_exists.mp (hfits.bound n (mem_singleton_self n))
    unfold elabImpl elabName at h
    rw [hr] at h
    cases h
  | .abs x body, _, _, _, hcore, hfits =>
    of_bind_error (expected_of_lift fun _ => allocAgent_error) fun _ _ =>
    of_bind_error (expected_of_lift fun _ => extendBit_error) fun _ _ =>
    of_bind_error (elabImpl_error (t := body) hcore (hfits.abs _)) fun _ _ _ => nofun
  | .app f x, _, _, st, hcore, hfits =>
    of_bind_error (expected_of_lift fun _ => allocAgent_error) fun ⟨_, net⟩ _ =>
    of_bind_error (expected_of_lift fun _ => extendBit_error) fun _ _ =>
    have hfits' : f.Fits ({ st with net := net } : ElabState).env := hfits.app_left
    of_bind_error (elabImpl_error (t := f) hcore.1 hfits') fun ⟨⟨_, _⟩, _⟩ hf =>
    of_bind_error (expected_of_lift fun _ => extendBit_error) fun _ _ => by
      obtain ⟨log, hlog⟩ := (elabImpl_emits f).run hf
      have henv := hlog.env hcore.1.effectFree hfits.app_left
      refine of_bind_error (elabImpl_error (t := x) hcore.2 (henv ▸ hfits.app_right)) fun _ _ _ h => ?_
      cases h
  | .rep e a b body, _, _, _, hcore, hfits =>
    of_bind_error (elabImpl_error (t := e) hcore.1 hfits.rep_left) fun ⟨⟨_, _⟩, _⟩ he =>
    of_bind_error (expected_of_lift fun _ => toI16_error) fun _ _ =>
    of_bind_error (expected_of_lift fun _ => toI16_error) fun _ _ =>
    of_bind_error allocRepIn_error fun _ _ => by
      obtain ⟨log, hlog⟩ := (elabImpl_emits e).run he
      have henv := hlog.env hcore.1.effectFree hfits.rep_left
      exact elabImpl_error (t := body) hcore.2 (henv ▸ hfits.rep_right _ _)
  | .era e body, _, _, _, hcore, hfits =>
    of_bind_error (elabImpl_error (t := e) hcore.1 hfits.era_left) fun ⟨⟨_, _⟩, _⟩ he => by
      obtain ⟨log, hlog⟩ := (elabImpl_emits e).run he
      have henv := hlog.env hcore.1.effectFree hfits.era_left
      exact elabImpl_error (t := body) hcore.2 (henv ▸ hfits.era_right)
  | .fix inner, _, _, _, hcore, hfits =>
    of_bind_error (expected_of_lift fun _ => extendBit_error) fun _ _ =>
    of_bind_error (elabImpl_error (t := inner) hcore hfits.fix) fun ⟨⟨_, _⟩, _⟩ _ =>
    of_bind_error (expected_of_lift fun _ => allocAgent_error) fun _ _ =>
    of_bind_error allocRepIn_error fun _ _ =>
    of_bind_error (expected_of_lift fun _ => extendBit_error) fun _ _ _ => nofun

end

/-! ## Closed terms -/

/-- The state in which the elaboration of a term starts. -/
def ElabState.init (capacity : Nat) : ElabState := ⟨.new capacity, fun _ => none, 0⟩

theorem exists_elab {c : Nat}
    (h : returns (fun r : Pass1Result => returns (fun _ => true)
      (some ((t.alphaRename 0).elabImpl false r.usageLevels 0 .root (.init c))))
        (some (pass1 (t.alphaRename 0))) = true) : ∃ r p st, pass1 (t.alphaRename 0) = .ok r ∧
      (t.alphaRename 0).elabImpl false r.usageLevels 0 .root (.init c) = .ok (p, st) := by
  obtain ⟨r, hpass, h⟩ := exists_ok_of_returns h
  obtain ⟨⟨p, st⟩, hrun, -⟩ := exists_ok_of_returns h
  exact ⟨r, p, st, hpass, hrun⟩

theorem holding_init (capacity : Nat) : (ElabState.init capacity).Holding [] [] where
  wires :=
    { wf := Arena.WF.new capacity
      port := nofun
      apart := nodup_nil
      holds := nofun
      loose := fun c hc _ => by cases hc
      frontier1 := rfl
      frontier2 := rfl }
  env := nofun
  inj := nofun
  hangs := nofun
  apart := nofun
  nodup := nodup_nil

theorem Ast.Closed.fits (h : t.Closed) {ctr : Nat} {r : Pass1Result}
    (hpass : pass1 (t.alphaRename ctr) = .ok r) : (t.alphaRename ctr).Fits fun _ => none := by
  have hfree : (t.alphaRename ctr).freeNames = [] := by
    rw [alphaRename, (t.rename_spec (h.apart ctr)).freeNames, h, map_nil]
  constructor
  case usedOnce => exact pass1_ok_iff.mp ⟨r, hpass⟩
  case free => exact hfree ▸ nodup_nil
  case bound => simp [hfree]
  case binders => exact (t.rename_binders _ ctr).nodup
  case fresh => exact fun _ _ => rfl

theorem Ast.Core.rename : ∀ {t : Ast V F}, t.Core → ∀ (env : Name → Option Name) (ctr : Nat),
    (t.rename env ctr).1.Core
  | .name _, _, _, _ => trivial
  | .abs _ body, h, _, _ | .fix body, h, _, _ => Ast.Core.rename (t := body) h _ _
  | .app f x, h, _, _
  | .rep f _ _ x, h, _, _
  | .era f x, h, _, _ => ⟨Ast.Core.rename (t := f) h.1 _ _, Ast.Core.rename (t := x) h.2 _ _⟩

/-- Every port but `p` is wired to the eraser or to a port that points back. -/
structure Net.FullyWired (n : Net) (p : PortId) : Prop where
  port : n.IsPort p
  loose : n.portAt p.cell = .null
  wired : ∀ c : Nat × PortKind, n.arena.isLive c.1 = true → c ≠ p.cell →
    n.portAt c = .era ∨ n.IsPort (n.portAt c) ∧ n.portAt (n.portAt c).cell = n.portId c

theorem Net.Wires.wired (h : n.Wires W) {c : Nat × PortKind} (hc : c ∈ cellsOf W) :
    n.portAt c = .era ∨ n.IsPort (n.portAt c) ∧ n.portAt (n.portAt c).cell = n.portId c := by
  obtain ⟨w, hw, p, hp, hr, rfl⟩ := mem_cellsOf.mp hc
  have hport := h.isPort hw hp hr
  obtain ⟨hab, hba⟩ := h.holds w hw
  obtain ⟨hleft, hright⟩ := h.port w hw
  rcases hp with rfl | rfl
  · rw [hab hr]
    exact .inr ⟨hright, (hba (hright.isReal h.wf)).trans hport.eq⟩
  · rw [hba hr]
    exact hleft.imp_right fun ha => ⟨ha, (hab (ha.isReal h.wf)).trans hport.eq⟩

/-- The elaboration of `t` from an empty state runs out of a resource, or it returns a net in which
only the result hangs, with an empty environment. -/
def Ast.ElaboratesFully (debug : Bool) (t : Ast V F) (usage : Name → Option Nat) (capacity : Nat) :
    Prop :=
  (∃ e, ResourceError e ∧ t.elabImpl debug usage 0 .root (.init capacity) = .error (.err e)) ∨
    ∃ p l st, t.elabImpl debug usage 0 .root (.init capacity) = .ok ((p, l), st) ∧
      st.env = (fun _ => none) ∧ st.net.FullyWired p

/-- A closed term that pass 1 accepts after renaming elaborates fully, if no assertion fails. -/
theorem elabImpl_fullyWired {t : Ast V F} (hclosed : t.Closed) (hcore : t.Core) {ctr : Nat}
    {r : Pass1Result} (hpass : pass1 (t.alphaRename ctr) = .ok r) {debug : Bool} {capacity : Nat}
    (hassert : (t.alphaRename ctr).elabImpl debug r.usageLevels 0 .root (.init capacity) ≠
      .error .assertion) : (t.alphaRename ctr).ElaboratesFully debug r.usageLevels capacity := by
  have hcore' : (t.alphaRename ctr).Core := hcore.rename _ ctr
  have hfits := hclosed.fits hpass
  cases hrun : (t.alphaRename ctr).elabImpl debug r.usageLevels 0 .root (.init capacity) with
  | error e =>
    cases e with
    | err e => exact .inl ⟨e, elabImpl_error hcore' hfits _ hrun, hrun⟩
    | assertion => exact absurd hrun hassert
  | ok res =>
    obtain ⟨⟨p, l⟩, st⟩ := res
    obtain ⟨log, hlog⟩ := (elabImpl_emits _).run hrun
    have hkeeps := hlog.keeps hcore'.effectFree [] []
    have hold := hkeeps.holding (holding_init capacity)
    have hcomplete := hkeeps.complete ⟨hcore', hfits⟩ (holding_init capacity)
      fun c hc => by cases hc
    have henv : st.env = fun _ => none := by
      rw [hlog.env hcore'.effectFree hfits]
      exact funext fun y => without_eq_none rfl
    have htop := hold.hangs p mem_cons_self
    refine .inr ⟨p, l, st, hrun, henv, htop.port, hold.wires.loose _ htop.port.live htop.loose, ?_⟩
    intro c hc hne
    rcases hcomplete c hc with hW | ⟨y, q, hq, -⟩ | hP
    · exact hold.wires.wired hW
    · rw [henv] at hq
      cases hq
    · exact absurd (by simpa using hP) hne

end

end Dnet
