import Dnet.Front.Wiring
import Dnet.Reduce.Relevant

/-!
# The net of a linear term

Elaborating a term of `Name`, `Abs` and `App` draws a labelled tree (`Sketched`): a slot for
each abstraction and application, which label the tree, and a connection for each wire of the
tree. The connections are the wires of the net (`Net.Wires`), so the net is a drawing of the
tree (`elaborate_draws`), also when its result is wired to a root.
-/

namespace Dnet

open Lib Lib.Tree List Net

/-! ## Linear terms -/

/-- Terms of `Name`, `Abs` and `App` whose binders are used once. -/
inductive Ast.Linear {V F : Type} : Ast V F → Prop where
  | name (x : Name) : Linear (.name x)
  | abs {x : Name} {body : Ast V F} : body.freeNames.count x = 1 → Linear body →
      Linear (.abs x body)
  | app {f x : Ast V F} : Linear f → Linear x → Linear (.app f x)

variable {V F : Type}

theorem Ast.Pure.linear_of_usedOnce {t : Ast V F} (ht : t.Pure) (h : t.UsedOnce) : t.Linear := by
  induction ht with
  | name x => exact .name x
  | abs x _ ih => exact .abs h.1 (ih h.2)
  | app _ _ ihf ihx => exact .app (ihf h.1) (ihx h.2)

theorem Ast.Linear.effectFree {t : Ast V F} (ht : t.Linear) : t.EffectFree := by
  induction ht with
  | name x => trivial
  | abs _ _ ih => exact ih
  | app _ _ ihf ihx => exact ⟨ihf, ihx⟩

theorem Ast.Pure.linear {t : Ast V F} (ht : t.Pure) {r : Pass1Result}
    (h : pass1 t = .ok r) : t.Linear := by
  obtain ⟨st, hst, -⟩ := bind_eq_ok.mp h
  exact ht.linear_of_usedOnce (t.collect_ok hst 0).1

/-! ## What is drawn -/

/-- Names stand for the variables of live abstractions. -/
def ElabState.VarsOpen (st : ElabState) : Prop :=
  ∀ y q, st.env y = some q → q.1.portKind = .aux1 ∧ st.net.arena.isLive q.1.slotIdx = true ∧
    (st.net.arena.slots q.1.slotIdx).kind = .fanAbs

/-- The agents of the tree are live fans of the net. -/
def Net.Hosts (n : Net) (u : Lib.Tree Nat) : Prop :=
  ∀ p ∈ u.pins, n.arena.isLive (pinCell p).1 = true ∧ (n.arena.slots (pinCell p).1).kind = pinKind p

/-- The positions that the connections join. -/
def joints (W : List Conn) : List ((Nat × PortKind) × (Nat × PortKind)) :=
  W.map fun w => (w.a.cell, w.b.cell)

/-- The positions that the wires of a tree join. -/
def pinJoints (ws : List (Pin Nat × Pin Nat)) : List ((Nat × PortKind) × (Nat × PortKind)) :=
  ws.map fun w => (pinCell w.1, pinCell w.2)

/-- The tree `u` was drawn for the term `e` by the connections of `log`, with its top at `p`. -/
structure Sketched {V F : Type} (e : Ast V F) (st : ElabState) (p : PortId) (st' : ElabState)
    (log : List Event) (u : Lib.Tree Nat) : Prop where
  top : p.cell = pinCell u.top
  joins : (joints (connsOf log)).Perm (pinJoints u.wires)
  hosts : st'.net.Hosts u
  live : ∀ s, st'.net.arena.isLive s = true →
    st.net.arena.isLive s = true ∨ .lamOut s ∈ u.pins ∨ .appOut s ∈ u.pins
  env : ∀ y q, st'.env y = some q → st.env y = some q
  free : ∀ k, .lamVar k ∈ u.pins →
    .lamOut k ∈ u.pins ∨ ∃ y q, st.env y = some q ∧ q.1.slotIdx = k
  used : ∀ y ∈ e.freeNames, ∃ q, st.env y = some q ∧ .lamVar q.1.slotIdx ∈ u.pins
  denotes : ∀ (ρ : Name → Option Term) (Γ : List Nat),
    (∀ y q, st.env y = some q → ρ y = some (.var (Γ.idxOf q.1.slotIdx))) →
      e.denote ρ = some (u.toTerm Γ)
  uses : u.Uses

section

variable {V F : Type} {n n' : Net} {u v : Lib.Tree Nat} {st st' : ElabState}
  {usage : Name → Option Nat}

theorem Net.Hosts.mono (h : n.Hosts u) (hg : n.Grows n') : n'.Hosts u := fun p hp =>
  ⟨hg.live _ (h p hp).1, (congrArg Body.kind (hg.body _ (h p hp).1)).trans (h p hp).2⟩

theorem ElabState.VarsOpen.mono (h : st.VarsOpen) (st' : ElabState) (hg : st.net.Grows st'.net)
    (henv : ∀ y q, st'.env y = some q → st.env y = some q) : st'.VarsOpen := fun y q hq => by
  obtain ⟨hport, hlive, hkind⟩ := h y q (henv y q hq)
  exact ⟨hport, hg.live _ hlive, (congrArg Body.kind (hg.body _ hlive)).trans hkind⟩

theorem ElabState.VarsOpen.bind {x : Name} {p : PortId} {l : Nat} (h : st.VarsOpen)
    (hport : p.portKind = .aux1) (hlive : st.net.arena.isLive p.slotIdx = true)
    (hkind : (st.net.arena.slots p.slotIdx).kind = .fanAbs) :
    ElabState.VarsOpen { st with env := bindName st.env x (p, l) } := fun y q hq => by
  rcases bindName_eq_some.mp hq with ⟨-, rfl⟩ | ⟨-, hq⟩
  · exact ⟨hport, hlive, hkind⟩
  · exact h y q hq

namespace Sketched

theorem name {x : Name} {r : PortId × Nat} {level : Nat} (hvars : st.VarsOpen)
    (hn : st.env x = some r) : Sketched (.name x : Ast V F) st r.1
      { st with env := unbindName st.env x } [.use x level] (.var r.1.slotIdx) := by
  obtain ⟨hport, hlive, hkind⟩ := hvars x r hn
  refine ⟨Prod.ext rfl hport, .nil, ?_, fun s => .inl,
    fun y q hq => (unbindName_eq_some.mp hq).2, fun k hk => ?_, fun y hy => ?_,
    fun ρ Γ hρ => hρ x r hn, trivial⟩
  · exact forall_mem_singleton.mpr ⟨hlive, hkind⟩
  · cases mem_singleton.mp hk
    exact .inr ⟨x, r, hn, rfl⟩
  · cases mem_singleton.mp hy
    exact ⟨r, hn, mem_singleton_self _⟩

/-- The abstraction is drawn around its body, whose only use of the variable ends at it. -/
theorem abs {x : Name} {body : Ast V F} {i level : Nat} {loBody : LOPath} {net : Net}
    {bodyP : PortId} {log : List Event} (hwf : st.net.arena.WF) (hvars : st.VarsOpen)
    (ha : Alloc st.net .fanAbs (0, 0, 0) i net) (hx : body.freeNames.count x = 1)
    (hgrow' : net.Grows st'.net)
    (hu : Sketched body { st with net := net, env := bindName st.env x ((net.ports i).aux1, level) }
      bodyP st' log u) :
    Sketched (.abs x body) st (net.ports i).principal
      { st' with
        env := unbindName st'.env x, net := st'.net.connect (net.ports i).aux0 bodyP loBody }
      (log ++ [.wire (net.ports i).aux0 bodyP loBody]) (.lam i u) := by
  have hnew : ∀ y q, st.env y = some q → q.1.slotIdx ≠ i := fun y q hq =>
    ha.ne_of_live hwf (hvars y q hq).2.1
  have hconn := st'.net.grows_connect (net.ports i).aux0 bodyP loBody
  have hi := ha.isLive_new
  refine ⟨rfl, ?_, ?_, fun s hs => ?_, fun y q hq => ?_, fun k hk => ?_, fun y hy => ?_,
    fun ρ Γ hρ => ?_, ?_, hu.uses⟩
  · rw [connsOf_append, joints, map_append]
    refine (perm_append_singleton _ _).trans ?_
    have htop : bodyP.cell = pinCell u.top := hu.top
    show ((i, .aux0), bodyP.cell) :: joints (connsOf log) ~ _
    rw [htop]
    exact hu.joins.cons _
  · have hhost : st'.net.arena.isLive i = true ∧ (st'.net.arena.slots i).kind = .fanAbs :=
      ⟨hgrow'.live i hi, (congrArg Body.kind (hgrow'.body i hi)).trans ha.new.1⟩
    exact Hosts.mono (u := .lam i u) (forall_mem_cons.mpr ⟨hhost, forall_mem_cons.mpr ⟨hhost,
      hu.hosts⟩⟩) hconn
  · rw [isLive_connect] at hs
    rcases hu.live s hs with hs | hs | hs
    · rcases ha.isLive_iff.mp hs with rfl | hs
      · exact .inr (.inl mem_cons_self)
      · exact .inl hs
    · exact .inr (.inl (by simp [pins, hs]))
    · exact .inr (.inr (by simp [pins, hs]))
  · obtain ⟨hy, hq⟩ := unbindName_eq_some.mp hq
    exact ((bindName_eq_some.mp (hu.env y q hq)).resolve_left fun hc => hy hc.1).2
  · simp only [pins, mem_cons, reduceCtorEq, false_or] at hk
    rcases hu.free k hk with hk | ⟨y, q, hq, rfl⟩
    · exact .inl (by simp [pins, hk])
    · rcases bindName_eq_some.mp hq with ⟨-, rfl⟩ | ⟨-, hq⟩
      · exact .inl mem_cons_self
      · exact .inr ⟨y, q, hq, rfl⟩
  · obtain ⟨hy, hne⟩ := mem_filter.mp hy
    obtain ⟨q, hq, hm⟩ := hu.used y hy
    refine ⟨q, ?_, by simp [pins, hm]⟩
    exact ((bindName_eq_some.mp hq).resolve_left fun hc => by simp [hc.1] at hne).2
  · rw [Ast.denote, hu.denotes _ (i :: Γ) fun y q hq => ?_]
    · rfl
    · rcases bindName_eq_some.mp hq with ⟨rfl, rfl⟩ | ⟨hy, hq⟩
      · exact bindName_eq_some.mpr (.inl ⟨rfl, by simp [Net.ports, PortId.new]⟩)
      · refine bindName_eq_some.mpr (.inr ⟨hy, ?_⟩)
        rw [hρ y q hq, idxOf_cons_ne _ (hnew y q hq).symm]
        rfl
  · obtain ⟨q, hq, hvar⟩ := hu.used x (count_pos_iff.mp (hx ▸ Nat.one_pos))
    rcases bindName_eq_some.mp hq with ⟨-, rfl⟩ | ⟨hne, -⟩
    · exact hvar
    · exact absurd rfl hne

theorem app {f x : Ast V F} {j : Nat} {loFn loArg : LOPath} {st1 st2 : ElabState} {net : Net}
    {fP aP : PortId} {log log' : List Event} (ha : Alloc st.net .fanApp (0, 0, 0) j net)
    (hgrow1 : net.Grows st1.net) (hgrow2 : st1.net.Grows st2.net)
    (hu : Sketched f { st with net := net } fP st1 log u) (hv : Sketched x st1 aP st2 log' v) :
    Sketched (.app f x) st (net.ports j).aux0
      { st2 with net :=
          (st2.net.connect (net.ports j).principal fP loFn).connect (net.ports j).aux1 aP loArg }
      (log ++ log' ++ [.wire (net.ports j).principal fP loFn, .wire (net.ports j).aux1 aP loArg])
      (.app j u v) := by
  have hconn := (st2.net.grows_connect (net.ports j).principal fP loFn).trans
    (grows_connect _ (net.ports j).aux1 aP loArg)
  have hgrow' := hgrow1.trans hgrow2
  refine ⟨rfl, ?_, ?_, fun s hs => ?_, fun y q hq => hu.env y q (hv.env y q hq),
    fun k hk => ?_, fun y hy => ?_, fun ρ Γ hρ => ?_, hu.uses, hv.uses⟩
  · rw [connsOf_append, connsOf_append, joints, map_append, map_append]
    refine perm_append_comm.trans ?_
    have hf : fP.cell = pinCell u.top := hu.top
    have ha : aP.cell = pinCell v.top := hv.top
    show ((j, .principal), fP.cell) :: ((j, .aux1), aP.cell) ::
      (joints (connsOf log) ++ joints (connsOf log')) ~ _
    rw [hf, ha, pinJoints, wires, map_cons, map_cons, map_append]
    exact ((hu.joins.append hv.joins).cons _).cons _
  · have hj := ha.isLive_new
    have hhost : st2.net.arena.isLive j = true ∧ (st2.net.arena.slots j).kind = .fanApp :=
      ⟨hgrow'.live j hj, (congrArg Body.kind (hgrow'.body j hj)).trans ha.new.1⟩
    refine Hosts.mono (u := .app j u v) ?_ hconn
    simp only [Hosts, pins, forall_mem_cons, forall_mem_append]
    exact ⟨hhost, hhost, hhost, hu.hosts.mono hgrow2, hv.hosts⟩
  · rw [isLive_connect, isLive_connect] at hs
    rcases hv.live s hs with hs | hs | hs
    · rcases hu.live s hs with hs | hs | hs
      · rcases ha.isLive_iff.mp hs with rfl | hs
        · exact .inr (.inr mem_cons_self)
        · exact .inl hs
      · exact .inr (.inl (by simp [pins, hs]))
      · exact .inr (.inr (by simp [pins, hs]))
    · exact .inr (.inl (by simp [pins, hs]))
    · exact .inr (.inr (by simp [pins, hs]))
  · simp only [pins, mem_cons, reduceCtorEq, false_or, mem_append] at hk ⊢
    rcases hk with hk | hk
    · exact (hu.free k hk).imp_left .inl
    · refine (hv.free k hk).imp .inr ?_
      rintro ⟨y, q, hq, he⟩
      exact ⟨y, q, hu.env y q hq, he⟩
  · rcases mem_append.mp hy with hy | hy
    · obtain ⟨q, hq, hm⟩ := hu.used y hy
      exact ⟨q, hq, by simp [pins, hm]⟩
    · obtain ⟨q, hq, hm⟩ := hv.used y hy
      exact ⟨q, hu.env y q hq, by simp [pins, hm]⟩
  · rw [Ast.denote, hu.denotes ρ Γ hρ, hv.denotes ρ Γ fun y q hq => hρ y q (hu.env y q hq)]
    rfl

end Sketched

theorem Emits.sketched {t : Ast V F} {level : Nat} {lo : LOPath}
    {r : PortId × Nat} {log : List Event} (h : Emits usage t level lo st r st' log)
    (ht : t.Linear) (hwf : st.net.arena.WF) (hvars : st.VarsOpen) :
    ∃ u, Sketched t st r.1 st' log u := by
  induction h with
  | name hn => exact ⟨_, .name hvars hn⟩
  | @abs x body level l lo loBody st st' ps net bodyP log halloc _ hrun ih =>
    cases ht with | abs hx hbody =>
    obtain ⟨i, ha, rfl⟩ := allocAgent_ok halloc
    have hvars' := hvars.mono { st with net := net } (ha.grows hwf) fun _ _ => id
    obtain ⟨u, hu⟩ := ih hbody (ha.wf hwf).1 (hvars'.bind rfl ha.isLive_new ha.new.1)
    exact ⟨_, hu.abs hwf hvars ha hx (hrun.grows (ha.wf hwf).1).2⟩
  | @app f x level l l' lo loFn loArg st st1 st2 ps net fP aP log log' halloc _ hrun _ hrun' ihf ihx =>
    cases ht with | app hf hx =>
    obtain ⟨j, ha, rfl⟩ := allocAgent_ok halloc
    have hvars' := hvars.mono { st with net := net } (ha.grows hwf) fun _ _ => id
    obtain ⟨hwf1, hgrow1⟩ := hrun.grows (ha.wf hwf).1
    obtain ⟨u, hu⟩ := ihf hf (ha.wf hwf).1 hvars'
    obtain ⟨v, hv⟩ := ihx hx hwf1 (hvars'.mono _ hgrow1 hu.env)
    exact ⟨_, hu.app ha hgrow1 (hrun'.grows hwf1).2 hv⟩
  | rep | era | fix | handle | val | fn => cases ht

/-! ## The whole net -/

theorem ends_wires_subset {p : Pin Nat} (hp : p ∈ ends u.wires) : p ∈ u.pins := by
  have hmem : p ∈ .lamBody 0 :: u.pins ∧ p ∈ .lamBody 1 :: u.pins := by
    constructor <;> refine (ends_wiresAt _ u).mem_iff.mp ?_ <;>
      exact mem_cons_of_mem _ (mem_cons_of_mem _ hp)
  rcases mem_cons.mp hmem.1 with rfl | h
  · exact (mem_cons.mp hmem.2).resolve_left nofun
  · exact h

variable {W : List Conn} {d : Diagram Nat}

theorem Net.Wires.isPort_of_joint {c : Conn} (h : n.Wires W) (hhosts : n.Hosts u) (hc : c ∈ W)
    (hmem : (c.a.cell, c.b.cell) ∈ pinJoints u.wires) : n.IsPort c.a ∧ n.IsPort c.b := by
  refine ⟨(h.port c hc).1.resolve_left fun hera => ?_, (h.port c hc).2⟩
  obtain ⟨w, hw, he⟩ := mem_map.mp hmem
  have hlive := (hhosts w.1 (ends_wires_subset (mem_ends.mpr ⟨w, hw, .inl rfl⟩))).1
  rw [show pinCell w.1 = c.a.cell from congrArg Prod.fst he, hera] at hlive
  exact absurd (h.wf.live_bound _ hlive).1 (Nat.lt_irrefl 0)

theorem Net.Wires.pins_nodup (h : n.Wires W) (hhosts : n.Hosts u)
    (hjoins : (joints W).Perm (pinJoints u.wires)) (htop : pinCell u.top ∉ cellsOf W) :
    u.pins.Nodup := by
  have hcells : cellsOf W = (joints W).flatMap fun c => [c.1, c.2] := by
    rw [joints, flatMap_map]
    refine flatMap_congr fun c hc => ?_
    obtain ⟨ha, hb⟩ := h.isPort_of_joint hhosts hc (hjoins.mem_iff.mp (mem_map_of_mem hc))
    simp [Conn.cells, ha.isReal h.wf, hb.isReal h.wf]
  have hperm : (cellsOf W).Perm ((ends u.wires).map pinCell) := by
    rw [hcells, ends, map_flatMap]
    refine (hjoins.flatMap_right _).trans (.of_eq ?_)
    rw [pinJoints, flatMap_map]
    rfl
  have hnodup : ((u.top :: ends u.wires).map pinCell).Nodup :=
    (hperm.cons _).nodup_iff.mp (nodup_cons.mpr ⟨htop, h.apart⟩)
  exact ((ends_wiresAt .root u).cons_inv).nodup_iff.mp hnodup.of_map

theorem Net.Wires.draws {r : PortId} (h : n.Wires W) (hhosts : n.Hosts d.tree)
    (hjoins : ∀ c ∈ pinJoints d.tree.wires, c ∈ joints W) (hlive : ∀ s, n.arena.isLive s = true →
      .lamOut s ∈ d.tree.pins ∨ .appOut s ∈ d.tree.pins ∨ (r.isReal = true ∧ s = r.slotIdx))
    (htop : n.Joined r (.root, d.tree.top)) (hroot : r = .null ∨ n.RootSlot r) : n.Draws r d := by
  refine ⟨h.wf, fun i hi => hhosts _ hi, fun j hj => hhosts _ hj, hlive,
    forall_mem_cons.mpr ⟨htop, fun w hw => ?_⟩, hroot⟩
  obtain ⟨c, hc, he⟩ := mem_map.mp (hjoins _ (mem_map_of_mem hw))
  obtain ⟨ha, hb⟩ := h.isPort_of_joint hhosts hc (he ▸ mem_map_of_mem hw)
  rw [Net.Joined, place_of_mem (ends_wires_subset (mem_ends.mpr ⟨w, hw, .inl rfl⟩)),
    place_of_mem (ends_wires_subset (mem_ends.mpr ⟨w, hw, .inr rfl⟩)),
    ← show c.a.cell = pinCell w.1 from congrArg Prod.fst he, ← ha.eq,
    ← show c.b.cell = pinCell w.2 from congrArg Prod.snd he, ← hb.eq]
  exact h.holds c hc

theorem Net.Draws.addRoot {r p : PortId} (h : n.Draws r d) (name : String) :
    (n.addRoot name p).Draws r d :=
  ⟨h.wf, h.abs, h.app, h.live, h.wires, h.root.imp_right fun hr => ⟨hr.live, hr.kind, hr.port, hr.bare⟩⟩

/-- The net of a linear term is a drawing of the term, with its result loose or at a root. -/
theorem elaborate_draws {t : Ast V F} (ht : t.Linear) {debug : Bool} {capacity : Nat}
    {p : PortId} (h : elaborate debug capacity t usage = .ok (p, n)) :
    ∃ d : Diagram Nat, t.denote (fun _ => none) = some (d.tree.toTerm []) ∧ n.Draws .null d ∧
      ∀ {name n'}, wireRoot name p n = .ok n' → ∃ r, n'.Draws r d := by
  obtain ⟨⟨⟨p', l⟩, st⟩, hel, h⟩ := bind_eq_ok.mp h
  cases h
  obtain ⟨log, hlog⟩ := (elabImpl_emits t).run hel
  have hold := (hlog.keeps ht.effectFree [] []).holding (holding_init capacity)
  obtain ⟨u, hu⟩ := hlog.sketched ht (Arena.WF.new capacity) nofun
  have htop := hold.hangs p mem_cons_self
  have hcell : p.cell = pinCell u.top := hu.top
  have hnodup := hold.wires.pins_nodup hu.hosts hu.joins (hcell ▸ htop.loose)
  have hclosed : u.Closed := fun k hk => (hu.free k hk).resolve_right fun ⟨_, _, hq, _⟩ => nomatch hq
  have hlive : ∀ s, st.net.arena.isLive s = true → .lamOut s ∈ u.pins ∨ .appOut s ∈ u.pins :=
    fun s hs => (hu.live s hs).resolve_left nofun
  have hjoins : ∀ c ∈ pinJoints u.wires, c ∈ joints (connsOf log) := fun c => hu.joins.mem_iff.mpr
  have hnull : st.net.Draws .null ⟨u, hnodup, hu.uses, hclosed⟩ := by
    refine hold.wires.draws hu.hosts hjoins (fun s hs => (hlive s hs).imp_right .inl)
      ⟨nofun, fun _ => ?_⟩ (.inl rfl)
    rw [place_of_mem (top_mem_pins u)]
    exact hold.wires.loose _ (hu.hosts _ (top_mem_pins u)).1 (hcell ▸ htop.loose)
  refine ⟨⟨u, hnodup, hu.uses, hclosed⟩, hu.denotes _ _ nofun, hnull, fun {name n'} hroot => ?_⟩
  unfold wireRoot at hroot
  split at hroot
  · cases hroot
    exact ⟨.null, hnull.addRoot name⟩
  · obtain ⟨⟨slot, n1⟩, halloc, hroot⟩ := bind_eq_ok.mp hroot
    obtain ⟨i, ha, rfl⟩ := allocFree_ok halloc
    cases hroot
    have hperm : [n1.portId (i, .principal), n1.portId (i, .aux0), n1.portId (i, .aux1), p].Perm
        [p, n1.portId (i, .principal), n1.portId (i, .aux0), n1.portId (i, .aux1)] :=
      perm_append_singleton p [_, _, _]
    have hold' := ((hold.alloc ha).perm hperm).connect .root
    have hgrows := (ha.grows hold.wires.wf).trans (n1.grows_connect p (n1.portId (i, .principal)) .root)
    have hbody := n1.bodyAt_connect p (n1.portId (i, .principal)) .root
    have hlive' : (n1.connect p (n1.portId (i, .principal)) .root).arena.isLive i = true := by
      rw [isLive_connect, ha.isLive_new]
    refine ⟨n1.portId (i, .principal), Draws.addRoot (hold'.wires.draws (hu.hosts.mono hgrows)
      (fun c hc => ?_) (fun s hs => ?_) ?_ (.inr ⟨hlive', ?_, ?_, fun k hk => ?_⟩)) name⟩
    · rw [joints, map_append]
      exact mem_append_left _ (hjoins c hc)
    · rw [isLive_connect] at hs
      rcases ha.isLive_iff.mp hs with rfl | hs
      · exact .inr (.inr ⟨isReal_portId (ha.wf hold.wires.wf).1 ha.isLive_new, rfl⟩)
      · exact (hlive s hs).imp_right .inl
    · rw [Net.Joined, place_of_mem (top_mem_pins u), ← hcell, ← (htop.port.mono hgrows).eq]
      exact (hold'.wires.holds _ (mem_append_right _ mem_cons_self)).symm
    · exact (congrArg Body.kind (hbody i)).trans ha.new.1
    · exact (portId_congr (hbody i)).symm
    · cases k with
      | principal => exact absurd rfl hk
      | aux0 => exact hold'.wires.loose _ hlive' (hold'.hangs _ mem_cons_self).loose
      | aux1 => exact hold'.wires.loose _ hlive' (hold'.hangs _ (mem_cons_of_mem _ mem_cons_self)).loose

end

end Dnet
