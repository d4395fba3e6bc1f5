import Dnet.Reduce.Certify

/-!
# Symmetric wires

In a net where every wire can be followed back (`WireSym`), a rule reads the peers of the
auxiliary ports of its pair, retires the pair and connects the peers. A peer that is a port of
the pair itself is retired with it, and what gets connected to it points at a retired slot: the
wires stay symmetric exactly if each link has both ends among the retired slots or none
(`Spliced.wireSym_run_iff`).
-/

namespace Dnet

open Lib List End Link PortId

/-! ## The ends of links -/

/-- The ends of the links, in order. -/
def Link.endsOf (ls : List Link) : List End := ls.flatMap fun l => [l.a, l.b]

def End.ext? : End → Option PortId
  | .ext p => some p
  | .new _ _ => none

def End.new? : End → Option (Nat × PortKind)
  | .ext _ => none
  | .new k kind => some (k, kind)

/-- The old ports among the ends, nulls and erasers left out. -/
def End.oldPorts (es : List End) : List PortId := (es.filterMap ext?).filter isReal

/-- The ports of new agents among the ends. -/
def End.newPorts (es : List End) : List (Nat × PortKind) := es.filterMap End.new?

/-- An end that is not the eraser or null. -/
def End.IsReal : End → Prop
  | .ext p => p.isReal = true
  | .new _ _ => True

/-- An end that is retired. -/
def End.Gone (retired : List Nat) : End → Prop
  | .ext p => p.slotIdx ∈ retired
  | .new _ _ => False

/-- Both ends of the link are retired, or none is. -/
def Link.Together (retired : List Nat) (l : Link) : Prop :=
  l.a.IsReal → l.b.IsReal → (l.a.Gone retired ↔ l.b.Gone retired)

/-- The positions that the links write, in order. -/
def End.cells (ps : List AgentPorts) : List End → List (Nat × PortKind)
  | [] => []
  | e :: es => if (e.port ps).isReal then (e.port ps).cell :: cells ps es else cells ps es

namespace Net

section

variable {ps : List AgentPorts} {c : Nat × PortKind} {n : Net}

theorem cells_eq : ∀ es : List End, cells ps es = ((es.map (·.port ps)).filter isReal).map cell
  | [] => rfl
  | e :: es => by
    rw [cells, cells_eq es, map_cons, filter_cons]
    split <;> rfl

theorem mem_cells {es : List End} :
    c ∈ cells ps es ↔ ∃ e ∈ es, (e.port ps).isReal = true ∧ (e.port ps).cell = c := by
  simp [cells_eq, and_assoc]

theorem mem_oldPorts {p : PortId} {es : List End} :
    p ∈ oldPorts es ↔ .ext p ∈ es ∧ p.isReal = true := by
  have hext : ∀ e : End, e.ext? = some p ↔ e = .ext p := fun e => by cases e <;> simp [ext?]
  simp [oldPorts, hext]

theorem mem_newPorts {x : Nat × PortKind} {es : List End} :
    x ∈ newPorts es ↔ .new x.1 x.2 ∈ es := by
  have hnew : ∀ e : End, e.new? = some x ↔ e = .new x.1 x.2 := fun e => by
    cases e <;> simp [new?, Prod.ext_iff]
  simp [newPorts, hnew]

/-- The ports of the ends, the old ones first. -/
theorem ports_perm (ps : List AgentPorts) : ∀ es : List End, (es.map (·.port ps)).Perm
    (es.filterMap ext? ++ (newPorts es).map fun x => (End.new x.1 x.2).port ps)
  | [] => .nil
  | .ext p :: es => (ports_perm ps es).cons p
  | .new _ _ :: es => ((ports_perm ps es).cons _).trans perm_middle.symm

/-! ## The ports after a list of links -/

theorem portAt_link (n : Net) (ps : List AgentPorts) (l : Link) (c : Nat × PortKind) :
    (n.link ps l).portAt c =
      if (l.b.port ps).isReal = true ∧ c = (l.b.port ps).cell then l.a.port ps
      else if (l.a.port ps).isReal = true ∧ c = (l.a.port ps).cell then l.b.port ps
      else n.portAt c := by
  unfold link
  split
  · exact portAt_linkNoPair n _ _ c
  · exact portAt_connect n _ _ _ c

theorem portAt_links_of_not_mem : ∀ {ls : List Link} {n : Net}, c ∉ cells ps (endsOf ls) →
      (ls.foldl (fun n l => n.link ps l) n).portAt c = n.portAt c
  | [], _, _ => rfl
  | l :: ls, n, h => by
    have hnot {e : End} (he : e ∈ endsOf (l :: ls)) :
        ¬((e.port ps).isReal = true ∧ c = (e.port ps).cell) :=
      fun hc => h (mem_cells.mpr ⟨e, he, hc.1, hc.2.symm⟩)
    have hrest : c ∉ cells ps (endsOf ls) := fun hc => by
      obtain ⟨e, he, h1, h2⟩ := mem_cells.mp hc
      exact hnot (mem_append_right _ he) ⟨h1, h2.symm⟩
    rw [foldl_cons, portAt_links_of_not_mem hrest, portAt_link, if_neg (hnot (by simp [endsOf])),
      if_neg (hnot (by simp [endsOf]))]

theorem portAt_links_of_mem {l : Link} :
    ∀ {ls : List Link} {n : Net}, (cells ps (endsOf ls)).Nodup → l ∈ ls →
      ((l.a.port ps).isReal = true →
        (ls.foldl (fun n l => n.link ps l) n).portAt (l.a.port ps).cell = l.b.port ps) ∧
      ((l.b.port ps).isReal = true →
        (ls.foldl (fun n l => n.link ps l) n).portAt (l.b.port ps).cell = l.a.port ps)
  | l0 :: ls, n, hnd, hl => by
    have hcells : cells ps (endsOf (l0 :: ls)) =
        cells ps [l0.a, l0.b] ++ cells ps (endsOf ls) := by
      rw [endsOf, flatMap_cons, cells_eq, cells_eq, cells_eq, map_append, filter_append, map_append]
      rfl
    rw [hcells, nodup_append] at hnd
    obtain ⟨hnd0, hnd1, hdisj⟩ := hnd
    rcases mem_cons.mp hl with rfl | hl
    · have hrest {e : End} (he : e = l.a ∨ e = l.b) (hr : (e.port ps).isReal = true) :
          (e.port ps).cell ∉ cells ps (endsOf ls) := fun hc =>
        hdisj _ (mem_cells.mpr ⟨e, by rcases he with rfl | rfl <;> simp, hr, rfl⟩) _ hc rfl
      constructor
      · intro ha
        rw [foldl_cons, portAt_links_of_not_mem (hrest (.inl rfl) ha), portAt_link, if_neg,
          if_pos ⟨ha, rfl⟩]
        rintro ⟨hb, he⟩
        simp [cells, ha, hb, he] at hnd0
      · intro hb
        rw [foldl_cons, portAt_links_of_not_mem (hrest (.inr rfl) hb), portAt_link,
          if_pos ⟨hb, rfl⟩]
    · exact portAt_links_of_mem (n := n.link ps l0) hnd1 hl

/-! ## Symmetric nets -/

/-- The port at a position, with the parity of its slot. -/
def portId (n : Net) (c : Nat × PortKind) : PortId := .new c.1 c.2 (n.arena.slots c.1).genLow

@[simp] theorem cell_portId (n : Net) (c : Nat × PortKind) : (n.portId c).cell = c := rfl

theorem isReal_portId (hwf : n.arena.WF) (hl : n.arena.isLive c.1 = true) :
    (n.portId c).isReal = true :=
  isReal_of_pos (hwf.live_bound _ hl).1

/-- Every port that a live agent holds is a port of a live agent and holds it. -/
def WireSym (n : Net) : Prop :=
  ∀ c, n.arena.isLive c.1 = true → (n.portAt c).isReal = true →
    n.arena.isLive (n.portAt c).slotIdx = true ∧ n.portAt (n.portAt c).cell = n.portId c

theorem WireSym.portAt_eq (h : WireSym n) (hwf : n.arena.WF) (hl : n.arena.isLive c.1 = true)
    (hr : (n.portAt c).isReal = true) : n.portAt c = n.portId (n.portAt c).cell := by
  obtain ⟨hlive, hback⟩ := h c hl hr
  have h' := (h (n.portAt c).cell hlive (hback ▸ isReal_portId hwf hl)).2
  rwa [hback, cell_portId] at h'

theorem WireSym.cell_inj (h : WireSym n) {d : Nat × PortKind} (hc : n.arena.isLive c.1 = true)
    (hd : n.arena.isLive d.1 = true) (hrc : (n.portAt c).isReal = true)
    (hrd : (n.portAt d).isReal = true) (he : (n.portAt c).cell = (n.portAt d).cell) : c = d := by
  have h1 := (h c hc hrc).2
  rw [he, (h d hd hrd).2] at h1
  exact (congrArg cell h1).symm

/-! ## Rewrites that splice -/

/-- The old ends of the rewrite are the ports that the positions `cs` of retired agents
hold, each once, and its new ends are distinct ports of its new agents. -/
structure Splices (n : Net) (cs : List (Nat × PortKind)) (rw : Rewrite) : Prop where
  nodup : cs.Nodup
  retired : ∀ c ∈ cs, c.1 ∈ rw.retired
  old : oldPorts (endsOf rw.links) = (cs.map n.portAt).filter isReal
  new_nodup : (newPorts (endsOf rw.links)).Nodup
  new_lt : ∀ x ∈ newPorts (endsOf rw.links), x.1 < rw.news.length
  erased : ∀ p ∈ rw.erased, p.isReal = true → p ∈ oldPorts (endsOf rw.links)

theorem portAt_setErasers_of_not_mem : ∀ {ps : List PortId} {n : Net},
    (∀ p ∈ ps, p.isReal = true → p.cell ≠ c) → (ps.foldl setEraserOnPort n).portAt c = n.portAt c
  | [], _, _ => rfl
  | p :: ps, n, h => by
    rw [foldl_cons, portAt_setErasers_of_not_mem fun q hq => h q (mem_cons_of_mem _ hq),
      portAt_setEraserOnPort, if_neg]
    rintro ⟨hr, rfl⟩
    exact h p mem_cons_self hr rfl

end

section

variable {rw : Rewrite} {n n₁ n₂ n' : Net} {is : List Nat} {ps : List AgentPorts}
  {cs : List (Nat × PortKind)} {c : Nat × PortKind}

theorem portId_run (hran : rw.Ran n is ps n₁ n₂ n') (hc : c.1 ∉ is) : n'.portId c = n.portId c :=
  congrArg (PortId.new c.1 c.2) (congrArg (fun g => decide (g % 2 = 1)) (hran.body_old hc).2)

theorem new_end (hran : rw.Ran n is ps n₁ n₂ n') {k : Nat} (kind : PortKind)
    (hk : k < rw.news.length) :
    ∃ i ∈ is, is[k]? = some i ∧ (End.new k kind).port ps = n'.portId (i, kind) := by
  have hlen : is.length = rw.news.length := hran.alloc.slot_new.length_eq
  have hget : is[k]? = some (is.get ⟨k, hlen ▸ hk⟩) := List.getElem?_eq_getElem _
  refine ⟨_, get_mem _ _, hget, ?_⟩
  generalize is.get ⟨k, hlen ▸ hk⟩ = i at hget
  have hgen : (n'.arena.slots i).genLow = (n₂.arena.slots i).genLow := by
    have hbody : n'.bodyAt i = n₂.bodyAt i := by
      rw [hran.link, bodyAt_links, bodyAt_retireAll]
    exact congrArg (fun b : Body => decide (b.generation % 2 = 1)) hbody
  rw [End.port, hran.alloc.ports, getD_eq_getElem?_getD, List.getElem?_map, hget, portId, hgen]
  cases kind <;> rfl

/-- Every port that a staying agent has at a retired one is an end of the rewrite. -/
def Covers (n : Net) (rw : Rewrite) : Prop :=
  ∀ c, n.arena.isLive c.1 = true → c.1 ∉ rw.retired → (n.portAt c).isReal = true →
    (n.portAt c).slotIdx ∈ rw.retired → ∃ p ∈ oldPorts (endsOf rw.links), p.cell = c

theorem portAt_fresh (hran : rw.Ran n is ps n₁ n₂ n') (hc : c.1 ∈ is)
    (hend : c ∉ cells ps (endsOf rw.links)) : (n'.portAt c).isReal = false := by
  rw [hran.link, portAt_links_of_not_mem hend, portAt, slots_retireAll]
  obtain ⟨spec, -, g, hslot⟩ := hran.alloc.slot_of_mem hc
  rw [hslot]
  cases c.2 <;> rfl

/-- The two ends of a link, in one order or the other. -/
def Linked (rw : Rewrite) (x y : End) : Prop :=
  ∃ l ∈ rw.links, (x = l.a ∧ y = l.b) ∨ (x = l.b ∧ y = l.a)

theorem Linked.symm {x y : End} : Linked rw x y → Linked rw y x
  | ⟨l, hl, h⟩ => ⟨l, hl, h.symm.imp And.symm And.symm⟩

theorem Linked.mem {x y : End} : Linked rw x y → x ∈ endsOf rw.links
  | ⟨l, hl, h⟩ => mem_flatMap.mpr ⟨l, hl, by rcases h with ⟨rfl, -⟩ | ⟨rfl, -⟩ <;> simp⟩

theorem exists_linked {x : End} (hx : x ∈ endsOf rw.links) : ∃ y, Linked rw x y := by
  obtain ⟨l, hl, hx⟩ := mem_flatMap.mp hx
  rcases mem_pair.mp hx with rfl | rfl
  · exact ⟨l.b, l, hl, .inl ⟨rfl, rfl⟩⟩
  · exact ⟨l.a, l, hl, .inr ⟨rfl, rfl⟩⟩

theorem together_iff {retired : List Nat} : (∀ l ∈ rw.links, l.Together retired) ↔
    ∀ x y, Linked rw x y → x.IsReal → y.IsReal → x.Gone retired → y.Gone retired := by
  constructor
  · rintro h x y ⟨l, hl, ⟨rfl, rfl⟩ | ⟨rfl, rfl⟩⟩ hx hy
    · exact (h l hl hx hy).mp
    · exact (h l hl hy hx).mpr
  · exact fun h l hl ha hb => ⟨h _ _ ⟨l, hl, .inl ⟨rfl, rfl⟩⟩ ha hb,
      h _ _ ⟨l, hl, .inr ⟨rfl, rfl⟩⟩ hb ha⟩

theorem isReal_of_port {e : End} (h : (e.port ps).isReal = true) : e.IsReal := by
  cases e with
  | ext p => exact h
  | new k kind => trivial

/-- The run of a rewrite that splices, from a net with symmetric wires. -/
structure Spliced (n : Net) (cs : List (Nat × PortKind)) (rw : Rewrite) (is : List Nat)
    (ps : List AgentPorts) (n₁ n₂ n' : Net) : Prop extends Splices n cs rw where
  wf : n.arena.WF
  sym : WireSym n
  ret : rw.RetiresLive n
  ran : rw.Ran n is ps n₁ n₂ n'

namespace Spliced

variable (hs : Spliced n cs rw is ps n₁ n₂ n')

include hs

theorem old_end {p : PortId} (he : .ext p ∈ endsOf rw.links) (hreal : p.isReal = true) :
    n.arena.isLive p.slotIdx = true ∧ p = n.portId p.cell ∧
      ∃ c ∈ cs, n.portAt c = p ∧ n.portAt p.cell = n.portId c := by
  have hp := mem_oldPorts.mpr ⟨he, hreal⟩
  rw [hs.old, mem_filter, mem_map] at hp
  obtain ⟨⟨c, hc, rfl⟩, -⟩ := hp
  have hl := hs.ret.2 _ (hs.retired c hc)
  obtain ⟨hlive, hback⟩ := hs.sym c hl hreal
  exact ⟨hlive, hs.sym.portAt_eq hs.wf hl hreal, c, hc, rfl, hback⟩

theorem new_end {k : Nat} {kind : PortKind} (h : .new k kind ∈ endsOf rw.links) :
    ∃ i ∈ is, is[k]? = some i ∧ (End.new k kind).port ps = n'.portId (i, kind) :=
  Net.new_end hs.ran kind (hs.new_lt (k, kind) (mem_newPorts.mpr h))

theorem slot_of_new {k : Nat} {kind : PortKind} (h : .new k kind ∈ endsOf rw.links)
    (hc : ((End.new k kind).port ps).cell = c) : c.1 ∈ is := by
  obtain ⟨i, hi, -, hport⟩ := hs.new_end h
  rwa [← hc, hport]

theorem cells_nodup : (cells ps (endsOf rw.links)).Nodup := by
  have hold : ((oldPorts (endsOf rw.links)).map cell).Nodup := by
    rw [hs.old]
    have hmap : ((cs.map n.portAt).filter isReal).map cell =
        (cs.filter fun c => (n.portAt c).isReal).map fun c => (n.portAt c).cell := by
      rw [filter_map, map_map]
      rfl
    rw [hmap]
    refine (hs.nodup.filter _).map_on fun c hc d hd he => ?_
    obtain ⟨hc, hrc⟩ := mem_filter.mp hc
    obtain ⟨hd, hrd⟩ := mem_filter.mp hd
    exact hs.sym.cell_inj (hs.ret.2 _ (hs.retired c hc)) (hs.ret.2 _ (hs.retired d hd)) hrc hrd he
  have hperm := ((ports_perm ps (endsOf rw.links)).filter isReal).map cell
  rw [filter_append, map_append] at hperm
  rw [cells_eq, hperm.nodup_iff, nodup_append]
  refine ⟨hold, (filter_sublist.map cell).nodup ?_, ?_⟩
  · rw [map_map]
    refine hs.new_nodup.map_on fun x hx y hy he => ?_
    obtain ⟨i, -, hget, hport⟩ := hs.new_end (mem_newPorts.mp hx)
    obtain ⟨j, -, hget', hport'⟩ := hs.new_end (mem_newPorts.mp hy)
    rw [Function.comp_apply, Function.comp_apply, hport, hport'] at he
    obtain ⟨rfl, hkind⟩ := Prod.mk.inj he
    have hidx := (List.getElem?_inj (List.getElem?_eq_some_iff.mp hget).1 hs.ran.alloc.nodup).mp
      (hget.trans hget'.symm)
    exact Prod.ext hidx hkind
  · -- an old port is live and a new one is not
    rintro _ ha _ hb rfl
    obtain ⟨p, hp, hpc⟩ := mem_map.mp ha
    obtain ⟨hp, hreal⟩ := mem_oldPorts.mp hp
    obtain ⟨q, hq, hqc⟩ := mem_map.mp hb
    obtain ⟨x, hx, rfl⟩ := mem_map.mp (mem_filter.mp hq).1
    exact hs.ran.not_fresh_of_live (hs.old_end hp hreal).1
      (hs.slot_of_new (mem_newPorts.mp hx) (hqc.trans hpc.symm))

/-- An end after the rewrite: a port of a live agent, unless it is gone. -/
theorem end_run {e : End} (he : e ∈ endsOf rw.links) (hr : e.IsReal) :
    (e.port ps).isReal = true ∧ (¬e.Gone rw.retired → n'.arena.isLive (e.port ps).slotIdx = true ∧
        e.port ps = n'.portId (e.port ps).cell) ∧
      (e.Gone rw.retired → n'.arena.isLive (e.port ps).slotIdx = false) := by
  cases e with
  | ext p =>
    obtain ⟨hlive, hport, -⟩ := hs.old_end he hr
    refine ⟨hr, fun hg => ⟨?_, ?_⟩, fun hg => ?_⟩
    · have hg' : p.slotIdx ∉ rw.retired := hg
      show n'.arena.isLive p.slotIdx = true
      rw [hs.ran.isLive hs.ret, hlive]
      simpa using hg'
    · rw [portId_run hs.ran (hs.ran.not_fresh_of_live hlive)]
      exact hport
    · rw [hs.ran.isLive hs.ret, decide_eq_false (show ¬((ext p).port ps).slotIdx ∉ rw.retired from
        fun h => h hg), Bool.and_false]
  | new k kind =>
    obtain ⟨i, hi, -, hport⟩ := hs.new_end he
    have hnot : i ∉ rw.retired := fun h => by
      have hdead := (hs.ran.fresh hi).1
      rw [hs.ret.2 i h] at hdead
      cases hdead
    have hlive : n'.arena.isLive i = true := by
      rw [hs.ran.isLive hs.ret]
      simp [hi, hnot]
    rw [hport]
    exact ⟨isReal_portId (hs.ran.wf hs.ret) hlive, fun _ => ⟨hlive, rfl⟩, fun h => h.elim⟩

theorem portAt_run (hc : c.1 ∉ is) (hend : c ∉ cells ps (endsOf rw.links)) :
    n'.portAt c = n.portAt c := by
  rw [hs.ran.link, portAt_links_of_not_mem hend]
  have h2 : (rw.retired.foldl retire n₂).portAt c = n₁.portAt c := by
    rw [portAt, slots_retireAll, hs.ran.alloc.slot_old _ hc]
    rfl
  rw [h2, hs.ran.erase, portAt_relabelSlot, portAt_setErasers_of_not_mem]
  rintro p hp hr rfl
  exact hend (mem_cells.mpr ⟨.ext p, (mem_oldPorts.mp (hs.erased p hp hr)).1, hr, rfl⟩)

/-- A position that is an end holds the other end of its link. -/
theorem portAt_linked {x y : End} (h : Linked rw x y) (hx : (x.port ps).isReal = true) :
    n'.portAt (x.port ps).cell = y.port ps := by
  obtain ⟨l, hl, h⟩ := h
  have hports := portAt_links_of_mem (n := rw.retired.foldl retire n₂) hs.cells_nodup hl
  rw [← hs.ran.link] at hports
  rcases h with ⟨rfl, rfl⟩ | ⟨rfl, rfl⟩
  · exact hports.1 hx
  · exact hports.2 hx

/-- Links with both ends retired or none, and no port left over: the wires are symmetric. -/
theorem wireSym (htog : ∀ l ∈ rw.links, l.Together rw.retired) (hcov : Covers n rw) :
    WireSym n' := by
  intro c hl hr
  by_cases hc : c ∈ cells ps (endsOf rw.links)
  · obtain ⟨x, hx, hxr, rfl⟩ := mem_cells.mp hc
    obtain ⟨y, hxy⟩ := exists_linked hx
    rw [hs.portAt_linked hxy hxr] at hr ⊢
    have hxe := hs.end_run hx (isReal_of_port hxr)
    have hye := hs.end_run hxy.symm.mem (isReal_of_port hr)
    -- the end at a live position is not gone, so its partner is not
    have hxg : ¬x.Gone rw.retired := fun hg => by
      rw [show n'.arena.isLive (x.port ps).cell.1 = _ from hxe.2.2 hg] at hl
      cases hl
    have hyg : ¬y.Gone rw.retired := fun hg =>
      hxg (together_iff.mp htog y x hxy.symm (isReal_of_port hr) (isReal_of_port hxr) hg)
    refine ⟨(hye.2.1 hyg).1, ?_⟩
    rw [hs.portAt_linked hxy.symm hr]
    exact (hxe.2.1 hxg).2
  · by_cases hi : c.1 ∈ is
    · rw [portAt_fresh hs.ran hi hc] at hr
      cases hr
    · have hat := hs.portAt_run hi hc
      rw [hat] at hr ⊢
      rw [hs.ran.isLive hs.ret, Bool.and_eq_true, decide_eq_true_iff] at hl
      have hlive : n.arena.isLive c.1 = true := by simpa [hi] using hl.1
      obtain ⟨hql, hqb⟩ := hs.sym c hlive hr
      have hnot : (n.portAt c).slotIdx ∉ rw.retired := fun hmem => by
        obtain ⟨p, hp, rfl⟩ := hcov c hlive hl.2 hr hmem
        exact hc (mem_cells.mpr ⟨.ext p, (mem_oldPorts.mp hp).1, (mem_oldPorts.mp hp).2, rfl⟩)
      have hqi : (n.portAt c).slotIdx ∉ is := hs.ran.not_fresh_of_live hql
      refine ⟨by rw [hs.ran.isLive hs.ret, hql]; simpa using hnot, ?_⟩
      rw [hs.portAt_run (c := (n.portAt c).cell) hqi, hqb, portId_run hs.ran hi]
      -- the far end is held by `c`, hence by no retired position
      intro hmem
      obtain ⟨e, he, her, hec⟩ := mem_cells.mp hmem
      cases e with
      | ext p =>
        obtain ⟨-, -, d, hd, -, hdb⟩ := hs.old_end he her
        rw [show p.cell = (n.portAt c).cell from hec, hqb] at hdb
        have hcd : c = d := congrArg cell hdb
        exact hl.2 (hcd ▸ hs.retired d hd)
      | new k kind => exact hqi (hs.slot_of_new he hec)

/-- The converse: a link with one end retired, or a port left over, points at a retired
slot. -/
theorem together (h : WireSym n') : (∀ l ∈ rw.links, l.Together rw.retired) ∧ Covers n rw := by
  refine ⟨together_iff.mpr fun x y hxy hx hy hxg => ?_, ?_⟩
  · have hxe := hs.end_run hxy.mem hx
    have hye := hs.end_run hxy.symm.mem hy
    by_contra hyg
    have hat := hs.portAt_linked hxy.symm hye.1
    have := (h _ (hye.2.1 hyg).1 (hat ▸ hxe.1)).1
    rw [hat, hxe.2.2 hxg] at this
    cases this
  · intro c hlive hnot hr hmem
    by_contra hno
    have hi : c.1 ∉ is := hs.ran.not_fresh_of_live hlive
    have hend : c ∉ cells ps (endsOf rw.links) := fun hc => by
      obtain ⟨e, he, her, hec⟩ := mem_cells.mp hc
      cases e with
      | ext p => exact hno ⟨p, mem_oldPorts.mpr ⟨he, her⟩, hec⟩
      | new k kind => exact hi (hs.slot_of_new he hec)
    have hat := hs.portAt_run hi hend
    have hlive' : n'.arena.isLive c.1 = true := by
      rw [hs.ran.isLive hs.ret, hlive]
      simpa using hnot
    have := (h c hlive' (hat ▸ hr)).1
    rw [hat, hs.ran.isLive hs.ret] at this
    simp [hmem] at this

theorem wireSym_run_iff : WireSym n' ↔ (∀ l ∈ rw.links, l.Together rw.retired) ∧ Covers n rw :=
  ⟨hs.together, fun h => hs.wireSym h.1 h.2⟩

end Spliced

end

/-! ## The rules splice -/

/-- The ends of the pair hold each other; an eraser holds nothing. -/
def Meets (n : Net) (pair : ActivePair) : Prop :=
  (pair.p0.1.isEraser = true ∨ n.portAt pair.p0.1.cell = pair.p1.1) ∧
    (pair.p1.1.isEraser = true ∨ n.portAt pair.p1.1.cell = pair.p0.1)

section

variable {n : Net} {rw : Rewrite} {lo : LOPath}

/-- The rewrite splices, and each auxiliary port of a retired agent is one of the spliced
positions or is wired to a retired agent. -/
def Handles (n : Net) (rw : Rewrite) : Prop :=
  ∃ cs, Splices n cs rw ∧ ∀ i ∈ rw.retired, ∀ k, k ≠ .principal →
    (i, k) ∈ cs ∨ (n.portAt (i, k)).slotIdx ∈ rw.retired

/-- A rewrite that erases nothing and has the given ends. -/
theorem Splices.of_ends {cs news : List (Nat × PortKind)}
    (hnd : cs.Nodup) (hret : ∀ c ∈ cs, c.1 ∈ rw.retired) (he : rw.erased = [])
    (hold : oldPorts (endsOf rw.links) = (cs.map n.portAt).filter isReal)
    (hnew : newPorts (endsOf rw.links) = news) (hnnd : news.Nodup)
    (hlt : ∀ x ∈ news, x.1 < rw.news.length) : Splices n cs rw := by
  subst hnew
  refine ⟨hnd, hret, hold, hnnd, hlt, fun p hp => ?_⟩
  rw [he] at hp
  exact absurd hp not_mem_nil

theorem eraRewrite_handles {p : PortId} (h : n.eraRewrite p lo = .ok rw) : Handles n rw := by
  obtain ⟨lo0, lo1, -, rfl⟩ := eraRewrite_eq_ok h
  refine ⟨[(p.slotIdx, .aux0), (p.slotIdx, .aux1)], ⟨by simp, by simp [Rewrite.joins], rfl,
    nodup_nil, fun x hx => absurd hx not_mem_nil,
    fun q hq hr => mem_oldPorts.mpr ⟨?_, hr⟩⟩, ?_⟩
  · simp only [Rewrite.joins, mem_cons, not_mem_nil, or_false] at hq
    rcases hq with rfl | rfl <;> simp [Rewrite.joins, endsOf]
  · intro i hi k hk
    rw [mem_singleton.mp hi]
    cases k <;> simp at hk ⊢

section

variable {a b : PortId} {c : List (Nat × PortKind)}

/-- Every auxiliary port of the two agents is spliced. -/
theorem handles_of_all (hs : Splices n c rw) (hret : rw.retired = [a.slotIdx, b.slotIdx])
    (hcs : ∀ k, k ≠ .principal → (a.slotIdx, k) ∈ c ∧ (b.slotIdx, k) ∈ c) : Handles n rw := by
  refine ⟨c, hs, fun i hi k hk => .inl ?_⟩
  rw [hret] at hi
  rcases mem_pair.mp hi with rfl | rfl
  · exact (hcs k hk).1
  · exact (hcs k hk).2

/-- The first agent is wired to itself, and the ports of the other one are spliced. -/
theorem handles_of_loop (hs : Splices n c rw)
    (hret : rw.retired = [a.slotIdx, b.slotIdx]) (h0 : (n.slot a).aux0.slotIdx = a.slotIdx)
    (h1 : (n.slot a).aux1.slotIdx = a.slotIdx)
    (hcs : ∀ k, k ≠ .principal → (b.slotIdx, k) ∈ c) : Handles n rw := by
  refine ⟨c, hs, fun i hi k hk => ?_⟩
  rw [hret] at hi ⊢
  rcases mem_pair.mp hi with rfl | rfl
  · refine .inr ?_
    cases k with
    | principal => exact absurd rfl hk
    | aux0 => exact mem_cons.mpr (.inl h0)
    | aux1 => exact mem_cons.mpr (.inl h1)
  · exact .inl (hcs k hk)

theorem joins_handles {lo0 lo1 : LOPath} (hne : a.slotIdx ≠ b.slotIdx) :
    Handles n (.joins [] [a.slotIdx, b.slotIdx] (n.slot a).aux0 (n.slot b).aux0 (n.slot a).aux1
      (n.slot b).aux1 lo0 lo1) :=
  handles_of_all (c := [(a.slotIdx, .aux0), (b.slotIdx, .aux0), (a.slotIdx, .aux1),
    (b.slotIdx, .aux1)]) (.of_ends (by simp [hne, hne.symm]) (by simp [Rewrite.joins]) rfl rfl rfl
    nodup_nil fun x hx => absurd hx not_mem_nil) rfl
    fun k hk => by cases k <;> simp at hk ⊢

/-- The ports of four new agents, as R5 and R7 link them. -/
def crossPorts : List (Nat × PortKind) :=
  [(0, .aux0), (2, .aux0), (0, .aux1), (3, .aux0), (1, .aux0), (2, .aux1), (1, .aux1), (3, .aux1),
    (0, .principal), (1, .principal), (2, .principal), (3, .principal)]

/-- The ports of the two copies of a fan whose auxiliary ports are its own. -/
def loopPorts : List (Nat × PortKind) :=
  [(0, .aux0), (0, .aux1), (1, .aux0), (1, .aux1), (0, .principal), (1, .principal)]

theorem crosses_handles {news : List (AgentKind × Nat × Int × Int)} {k0 k1 k2 k3 : LOPath}
    (hnews : news.length = 4) (hne : a.slotIdx ≠ b.slotIdx) :
    Handles n (.crosses news [a.slotIdx, b.slotIdx] lo (n.slot b).aux0 (n.slot b).aux1
      (n.slot a).aux0 (n.slot a).aux1 k0 k1 k2 k3) := by
  have hlt : ∀ x ∈ crossPorts, x.1 < 4 := by decide
  refine handles_of_all (c := [(b.slotIdx, .aux0), (b.slotIdx, .aux1), (a.slotIdx, .aux0),
    (a.slotIdx, .aux1)]) (.of_ends (by simp [hne.symm]) (by simp [Rewrite.crosses]) rfl rfl rfl
    (show crossPorts.Nodup by decide) (hnews ▸ hlt)) rfl fun k hk => ?_
  cases k <;> simp at hk ⊢

theorem r4Rewrite_handles {p0 p1 : PortId} (hne : p0.slotIdx ≠ p1.slotIdx)
    (h : n.r4Rewrite p0 p1 lo = .ok rw) : Handles n rw := by
  obtain ⟨a, b, hab, hform⟩ := r4Rewrite_eq_ok h
  have hne' : a.slotIdx ≠ b.slotIdx := by
    unfold absApp at hab
    split at hab <;> cases hab
    · exact hne
    · exact hne.symm
  rcases hform with ⟨h0, h1, rfl⟩ | ⟨lo0, lo1, -, rfl⟩
  · refine handles_of_loop (c := [(b.slotIdx, .aux0), (b.slotIdx, .aux1)]) (.of_ends (by simp)
      (by simp) rfl rfl rfl nodup_nil fun x hx => absurd hx not_mem_nil) rfl h0 h1
      fun k hk => ?_
    cases k <;> simp at hk ⊢
  · exact joins_handles hne'

theorem r5Rewrite_handles {fanP repP : PortId} (hne : fanP.slotIdx ≠ repP.slotIdx)
    (h : n.r5Rewrite fanP repP lo = .ok rw) : Handles n rw := by
  rcases r5Rewrite_eq_ok h with ⟨h0, h1, lo0, lo1, k0, k1, -, rfl⟩ |
    ⟨fan, rep, rep', k0, k1, k2, k3, -, -, -, -, rfl⟩
  · refine handles_of_loop (c := [(repP.slotIdx, .aux0), (repP.slotIdx, .aux1)]) (.of_ends
      (by simp) (by simp [Rewrite.splits]) rfl rfl rfl (show loopPorts.Nodup by decide)
      (show ∀ x ∈ loopPorts, x.1 < 2 by decide)) rfl h0 h1 fun k hk => ?_
    cases k <;> simp at hk ⊢
  · exact crosses_handles rfl hne

theorem r7Rewrite_handles {p0 p1 : PortId} (hne : p0.slotIdx ≠ p1.slotIdx)
    (h : n.r7Rewrite p0 p1 lo = .ok rw) : Handles n rw := by
  obtain ⟨a, b, lv0, lv1, k0, k1, k2, k3, hab, -, -, -, rfl⟩ := r7Rewrite_eq_ok h
  refine crosses_handles rfl ?_
  unfold hiLo at hab
  split at hab <;> cases hab
  · exact hne
  · exact hne.symm

end

end

variable {n : Net} {pair : ActivePair}

/-- Every rule handles all auxiliary ports of its pair. -/
theorem ruleRewrite_handles {rw : Rewrite}
    (hne : pair.p0.1.isEraser = false → pair.p1.1.isEraser = false →
      pair.p0.1.slotIdx ≠ pair.p1.1.slotIdx) (h : n.ruleRewrite pair = .ok rw) : Handles n rw := by
  unfold ruleRewrite at h
  dsimp only at h
  cases h0 : pair.p0.1.isEraser <;> cases h1 : pair.p1.1.isEraser <;>
    simp only [h0, h1, Bool.and_true, Bool.and_false, Bool.false_eq_true, if_true, if_false] at h
  · have hne := hne h0 h1
    split at h
    · exact r4Rewrite_handles hne h
    · split at h
      · exact r5Rewrite_handles hne h
      · split at h
        · exact r5Rewrite_handles hne.symm h
        · split at h
          · split at h
            · obtain ⟨lo0, lo1, -, rfl⟩ := r6Rewrite_eq_ok h
              exact joins_handles hne
            · exact r7Rewrite_handles hne h
          · cases h
  · exact eraRewrite_handles h
  · exact eraRewrite_handles h
  · cases h
    exact ⟨[], .of_ends nodup_nil (fun c hc => absurd hc not_mem_nil) rfl rfl rfl
      nodup_nil (fun x hx => absurd hx not_mem_nil), fun i hi => absurd hi not_mem_nil⟩

/-- A rule leaves no port of a staying agent at its pair: the principal ports of the pair
hold each other, and the auxiliary ones are handled. -/
theorem covers_of_meets {rw : Rewrite} (hwf : n.arena.WF) (hsym : WireSym n) (hmeet : Meets n pair)
    (hshape : RuleShape (pairSlots pair) rw) (hh : Handles n rw) : Covers n rw := by
  obtain ⟨cs, hs, hcs⟩ := hh
  intro c hcl hcn hr hmem
  obtain ⟨hl, hback⟩ := hsym c hcl hr
  have hreal := isReal_portId hwf hcl
  have hkey : n.portAt ((n.portAt c).slotIdx, (n.portAt c).portKind) = n.portId c := hback
  by_cases hk : (n.portAt c).portKind = .principal
  · -- the principal port of the pair's agent holds the other end
    exfalso
    have hp := hshape.perm.mem_iff.mp hmem
    simp only [pairSlots, mem_map, mem_filter, mem_cons, not_mem_nil, or_false,
      Bool.not_eq_true'] at hp
    obtain ⟨p, ⟨hp, he⟩, hps⟩ := hp
    have hhold {q : PortId} (hq : n.portAt p.cell = q) (hkind : p.portKind = .principal)
        (hqs : q.isEraser = false → q.slotIdx ∈ rw.retired) : False := by
      rw [hk, ← hps, ← hkind, show (p.slotIdx, p.portKind) = p.cell from rfl, hq] at hkey
      refine hcn ?_
      have : q.slotIdx = c.1 := congrArg slotIdx hkey
      exact this ▸ hqs (hkey ▸ (isReal_iff.mp hreal).1)
    have hin {q : PortId} (hq : q = pair.p0.1 ∨ q = pair.p1.1) (hqe : q.isEraser = false) :
        q.slotIdx ∈ rw.retired := by
      refine hshape.perm.mem_iff.mpr (mem_map.mpr ⟨q, mem_filter.mpr ⟨?_, by simp [hqe]⟩, rfl⟩)
      rcases hq with rfl | rfl
      · exact mem_cons_self
      · exact mem_cons_of_mem _ mem_cons_self
    rcases hp with rfl | rfl
    · rcases hmeet.1 with h | h
      · rw [h] at he; cases he
      · exact hhold h pair.p0.2 (hin (.inr rfl))
    · rcases hmeet.2 with h | h
      · rw [h] at he; cases he
      · exact hhold h pair.p1.2 (hin (.inl rfl))
  · rcases hcs _ hmem _ hk with hc | hin
    · refine ⟨n.portId c, mem_oldPorts.mpr ⟨?_, hreal⟩, rfl⟩
      have : n.portId c ∈ oldPorts (endsOf rw.links) := by
        rw [hs.old, mem_filter]
        exact ⟨mem_map.mpr ⟨_, hc, hkey⟩, hreal⟩
      exact (mem_oldPorts.mp this).1
    · rw [hkey] at hin
      exact absurd hin hcn

/-- No link of the pair's rule has one end in the pair and one outside. -/
def AliasFree (n : Net) (pair : ActivePair) : Prop :=
  ∀ rw, n.ruleRewrite pair = .ok rw → ∀ l ∈ rw.links, l.Together rw.retired

/-- Firing the rule of a pair whose agents hold each other keeps the wires symmetric exactly
if the pair is free of aliases. -/
theorem dispatchPhase1_wireSym_iff {C : NetClass} {n n' : Net} {pair : ActivePair}
    {stats stats' : ReduceStats} (hwf : n.arena.WF) (hsym : WireSym n)
    (hlive : n.isStalePair pair = false)
    (hne : pair.p0.1.isEraser = false → pair.p1.1.isEraser = false →
      pair.p0.1.slotIdx ≠ pair.p1.1.slotIdx) (hmeet : Meets n pair) (hidle : ChecksIdle C n pair)
    (h : n.dispatchPhase1 C pair stats = .ok (n', stats')) : WireSym n' ↔ AliasFree n pair := by
  obtain ⟨rw, hrw, hrun⟩ := (dispatch_fires hwf hlive hne h).outcome.rule_of_idle hlive hidle
  have hshape := ruleRewrite_shape hrw
  have hret := retiresLive_of_shape hlive hne hshape
  have hh := ruleRewrite_handles hne hrw
  have hcov := covers_of_meets hwf hsym hmeet hshape hh
  obtain ⟨is, ps, n₁, n₂, hran⟩ := Rewrite.run_ok hwf hrun
  obtain ⟨cs, hs, -⟩ := hh
  rw [Spliced.wireSym_run_iff ⟨hs, hwf, hsym, hret, hran⟩]
  constructor
  · rintro ⟨ht, -⟩ rw' hrw'
    rw [hrw] at hrw'
    cases hrw'
    exact ht
  · exact fun ha => ⟨ha rw hrw, hcov⟩

/-! ## A pair with and one without an alias -/

instance (e : End) : Decidable e.IsReal :=
  match e with
  | .ext p => inferInstanceAs (Decidable (p.isReal = true))
  | .new _ _ => inferInstanceAs (Decidable True)

instance (retired : List Nat) (e : End) : Decidable (e.Gone retired) :=
  match e with
  | .ext p => inferInstanceAs (Decidable (p.slotIdx ∈ retired))
  | .new _ _ => inferInstanceAs (Decidable False)

instance (retired : List Nat) (l : Link) : Decidable (l.Together retired) :=
  inferInstanceAs (Decidable (_ → _ → (_ ↔ _)))

instance (n : Net) (pair : ActivePair) : Decidable (n.AliasFree pair) :=
  match h : n.ruleRewrite pair with
  | .ok rw => decidable_of_iff (∀ l ∈ rw.links, l.Together rw.retired)
      ⟨fun ht rw' hrw' => by rw [h] at hrw'; cases hrw'; exact ht, fun ha => ha rw h⟩
  | .error e => .isTrue fun rw hrw => by rw [h] at hrw; cases hrw

/-- The symmetry of the listed agents. -/
def wireSymCheck (n : Net) : Bool :=
  n.arena.liveList.all fun i => [PortKind.principal, .aux0, .aux1].all fun k =>
    !(n.portAt (i, k)).isReal || (n.arena.isLive (n.portAt (i, k)).slotIdx &&
      decide (n.portAt (n.portAt (i, k)).cell = n.portId (i, k)))

theorem wireSym_of_check (hwf : n.arena.WF) (h : wireSymCheck n = true) : WireSym n := by
  rintro ⟨i, k⟩ hl hr
  have hi := all_eq_true.mp h i (hwf.mem_liveList.mpr hl)
  have hk := all_eq_true.mp hi k (by cases k <;> simp)
  simpa [hr] using hk

section

open PortKind BuildOp

/-- The pair of the slots `i` and `j` at the root path. -/
def rootPair (i j : Nat) : ActivePair :=
  ⟨⟨firstPort i principal, rfl⟩, ⟨firstPort j principal, rfl⟩, .root⟩

theorem twoBetas_wireSym :
    ∃ r, twoBetas.dispatchPhase1 .ΔL (rootPair 2 3) {} = .ok r ∧ WireSym r.1 := by
  have hb : Built twoBetas := built_build (.new 16) (by decide +kernel)
  obtain ⟨r, hr, -⟩ := exists_of_returns (show returns (fun _ => true)
    (some (twoBetas.dispatchPhase1 .ΔL (rootPair 2 3) {})) = true by decide +kernel)
  have hfan : ∀ p, p = (rootPair 2 3).p0.1 ∨ p = (rootPair 2 3).p1.1 →
      (twoBetas.slot p).isFan = true := by
    rintro p (rfl | rfl) <;> decide +kernel
  refine ⟨r, Option.some.inj hr, (dispatchPhase1_wireSym_iff hb.queued.wf
    (wireSym_of_check hb.queued.wf (by decide +kernel)) (by decide +kernel)
    (fun _ _ => by decide) ?_ (fun p hp _ hf => ?_) (Option.some.inj hr)).mpr (by decide +kernel)⟩
  · exact ⟨.inr (by decide +kernel), .inr (by decide +kernel)⟩
  · rw [hfan p hp] at hf
    cases hf

/-- `fix (self: y: self)` after its first β-step: the replicator of the fixpoint meets
`y: self`, whose body is the replicator's own auxiliary port. -/
def fixSelf : Net :=
  build [alloc .fanAbs 0 0 0, alloc .repInUnpaired 0 0 0, .allocFree 0,
    wireUp 1 aux0 2 aux0, .connect .era (firstPort 1 aux1) .root, wireUp 2 aux1 3 principal,
    wireUp 2 principal 1 principal] (.new 16)

/-- R5 on the pair of `fixSelf` wires a new agent to a retired slot. -/
theorem fixSelf_not_wireSym :
    Built fixSelf ∧ WireSym fixSelf ∧ fixSelf.isStalePair (rootPair 2 1) = false ∧
      Meets fixSelf (rootPair 2 1) ∧
      ∃ r, fixSelf.dispatchPhase1 .ΔK (rootPair 2 1) {} = .ok r ∧ ¬WireSym r.1 := by
  have hb : Built fixSelf := built_build (.new 16) (by decide +kernel)
  refine ⟨hb, wireSym_of_check hb.queued.wf (by decide +kernel), by decide +kernel,
    ⟨.inr (by decide +kernel), .inr (by decide +kernel)⟩, ?_⟩
  obtain ⟨r, hr, hbad⟩ := exists_of_returns (show returns
    (fun r : Net × ReduceStats => r.1.arena.isLive 6 && (r.1.portAt (6, principal)).isReal &&
      !r.1.arena.isLive (r.1.portAt (6, principal)).slotIdx)
    (some (fixSelf.dispatchPhase1 .ΔK (rootPair 2 1) {})) = true by decide +kernel)
  refine ⟨r, Option.some.inj hr, fun hs => ?_⟩
  simp only [Bool.and_eq_true, Bool.not_eq_true'] at hbad
  have := (hs (6, principal) hbad.1.1 hbad.1.2).1
  rw [hbad.2] at this
  cases this

end

end Net

end Dnet
