import Dnet.Lib.LinearTree
import Dnet.Reduce.Symmetry

/-!
# Nets of linear terms

A net of fans is a drawing of a closed linear term (`Draws`): every abstraction and every
application is a live fan, labelled by its slot, and the wires of the diagram are the wires
of the net. A root that is wired holds the term at a free slot; an elaborated term without a
root has nothing at its top. The pairs of fans that face each other are the redexes
(`Draws.redex`, `Draws.fanPair`), and R4 contracts them (`Draws.r4`).
-/

namespace Dnet

open Lib Lib.Tree List

namespace Net

/-! ## Pins as ports -/

/-- The position of a pin; the place outside has none. -/
def pinCell : Pin Nat → Nat × PortKind
  | .root => (0, .principal)
  | .lamOut i => (i, .principal)
  | .lamBody i => (i, .aux0)
  | .lamVar i => (i, .aux1)
  | .appFn j => (j, .principal)
  | .appOut j => (j, .aux0)
  | .appArg j => (j, .aux1)

/-- The port of a pin, for a root port `r`. -/
def place (n : Net) (r : PortId) : Pin Nat → PortId
  | .root => r
  | p => n.portId (pinCell p)

/-- The port `p` holds `q`, if it can hold anything. -/
def Holds (n : Net) (p q : PortId) : Prop := p.isReal = true → n.portAt p.cell = q

/-- The wire joins its ends. -/
def Joined (n : Net) (r : PortId) (w : Pin Nat × Pin Nat) : Prop :=
  n.Holds (n.place r w.1) (n.place r w.2) ∧ n.Holds (n.place r w.2) (n.place r w.1)

/-- `r` is the principal port of a live free slot, which holds nothing else. -/
structure RootSlot (n : Net) (r : PortId) : Prop where
  live : n.arena.isLive r.slotIdx = true
  kind : (n.arena.slots r.slotIdx).kind = .free
  port : r = n.portId (r.slotIdx, .principal)
  bare : ∀ k, k ≠ .principal → n.portAt (r.slotIdx, k) = .null

/-- `n` is a drawing of the diagram `d` with its top at the port `r`. -/
structure Draws (n : Net) (r : PortId) (d : Diagram Nat) : Prop where
  wf : n.arena.WF
  abs : ∀ i, .lamOut i ∈ d.tree.pins → n.arena.isLive i = true ∧ (n.arena.slots i).kind = .fanAbs
  app : ∀ j, .appOut j ∈ d.tree.pins → n.arena.isLive j = true ∧ (n.arena.slots j).kind = .fanApp
  live : ∀ s, n.arena.isLive s = true →
    .lamOut s ∈ d.tree.pins ∨ .appOut s ∈ d.tree.pins ∨ (r.isReal = true ∧ s = r.slotIdx)
  wires : ∀ w ∈ d.tree.wiresAt .root, n.Joined r w
  root : r = .null ∨ n.RootSlot r

/-- Two live fans whose principal ports are wired to each other. -/
structure FanPair (n : Net) (p0 p1 : PortId) : Prop where
  principal : p0.portKind = .principal ∧ p1.portKind = .principal
  live : n.slotIsLive p0 = true ∧ n.slotIsLive p1 = true
  fan : (n.slot p0).isFan = true ∧ (n.slot p1).isFan = true
  peer : n.peer p0 = p1 ∧ n.peer p1 = p0

/-- One firing of R4 on some pair of fans. -/
def R4Fires (n n' : Net) : Prop :=
  ∃ p0 p1 lo, n.FanPair p0 p1 ∧ n.r4FanFan p0 p1 lo = .ok n'

/-! ## The ports of a drawing -/

/-- The kind of agent that a pin belongs to. -/
def pinKind : Pin Nat → AgentKind
  | .root => .free
  | .lamOut _ | .lamBody _ | .lamVar _ => .fanAbs
  | .appFn _ | .appOut _ | .appArg _ => .fanApp

section

variable {n n' : Net} {r p0 p1 : PortId} {d : Diagram Nat} {p q : Pin Nat} {i j : Nat}
  {t : Lib.Tree Nat}

theorem place_of_mem (hp : p ∈ t.pins) : n.place r p = n.portId (pinCell p) := by
  cases p with
  | root => exact absurd hp (root_not_mem_pins _)
  | _ => rfl

theorem Draws.slot_of_mem (h : Draws n r d) (hp : p ∈ d.tree.pins) :
    n.arena.isLive (pinCell p).1 = true ∧ (n.arena.slots (pinCell p).1).kind = pinKind p := by
  cases p with
  | root => exact absurd hp (root_not_mem_pins _)
  | lamOut i => exact h.abs i hp
  | lamBody i => exact h.abs i (((mem_pins _).2 _).1.mp hp)
  | lamVar i => exact h.abs i (d.closed i hp)
  | appFn j => exact h.app j (((mem_pins _).2 _).2.1.mp hp)
  | appOut j => exact h.app j hp
  | appArg j => exact h.app j (((mem_pins _).2 _).2.2.mp hp)

theorem Draws.isReal (h : Draws n r d) (hp : p ∈ d.tree.pins) : (n.place r p).isReal = true := by
  rw [place_of_mem hp]
  exact isReal_portId h.wf (h.slot_of_mem hp).1

theorem Draws.kind (h : Draws n r d) (hp : p ∈ .root :: d.tree.pins)
    (hr : (n.place r p).isReal = true) :
    (n.arena.slots (n.place r p).slotIdx).kind = pinKind p := by
  rcases mem_cons.mp hp with rfl | hp
  · rcases h.root with hnull | hroot
    · rw [place, hnull] at hr
      cases hr
    · exact hroot.kind
  · rw [place_of_mem hp]
    exact (h.slot_of_mem hp).2

theorem Draws.place_inj (h : Draws n r d) (hp : p ∈ .root :: d.tree.pins)
    (hq : q ∈ .root :: d.tree.pins) (hpr : (n.place r p).isReal = true)
    (hqr : (n.place r q).isReal = true) (he : (n.place r p).cell = (n.place r q).cell) : p = q := by
  have hslot : (n.place r p).slotIdx = (n.place r q).slotIdx := congrArg Prod.fst he
  have hport : (n.place r p).portKind = (n.place r q).portKind := congrArg Prod.snd he
  have hkind : pinKind p = pinKind q := by rw [← h.kind hp hpr, ← h.kind hq hqr, hslot]
  clear h hp hq hpr hqr he
  cases p <;> cases q <;> simp_all [pinKind, place, portId, pinCell, PortId.new]

theorem mem_wires_of_ne_root (h : (p, q) ∈ t.wiresAt .root) (hp : p ≠ .root) :
    (p, q) ∈ t.wires := (mem_cons.mp h).resolve_left fun he => hp (congrArg Prod.fst he)

theorem mem_pins_of_wire (h : (p, q) ∈ t.wiresAt .root) : p ∈ .root :: t.pins ∧ q ∈ t.pins := by
  have hends := ends_wiresAt .root t
  refine ⟨hends.mem_iff.mp (mem_ends.mpr ⟨_, h, .inl rfl⟩), ?_⟩
  have hq := hends.mem_iff.mp (mem_ends.mpr ⟨_, h, .inr rfl⟩)
  refine (mem_cons.mp hq).resolve_left ?_
  rintro rfl
  exact (isTop_of_mem_wiresAt id h).2

theorem Draws.holds_to (h : Draws n r d) (hw : (p, q) ∈ d.tree.wiresAt .root) :
    n.portAt (pinCell q) = n.place r p := by
  have hq := (mem_pins_of_wire hw).2
  have := (h.wires _ hw).2 (h.isReal hq)
  rwa [place_of_mem hq] at this

theorem Draws.holds_from (h : Draws n r d) (hw : (p, q) ∈ d.tree.wiresAt .root) (hp : p ≠ .root) :
    n.portAt (pinCell p) = n.place r q := by
  have hp := (mem_cons.mp (mem_pins_of_wire hw).1).resolve_left hp
  have := (h.wires _ hw).1 (h.isReal hp)
  rwa [place_of_mem hp] at this

theorem slotIsLive_iff {p : PortId} : n.slotIsLive p = true ↔
    p.isReal = true ∧ n.arena.isLive p.slotIdx = true := by
  simp [slotIsLive, PortId.isReal]

theorem Draws.not_fan_root (h : Draws n r d) : (n.slot r).isFan = false ∨ n.slotIsLive r = false := by
  rcases h.root with rfl | hroot
  · exact .inr rfl
  · exact .inl (by simp [Slot.isFan, slot, hroot.kind])

theorem Draws.fan_mem (h : Draws n r d) {p : PortId} (hl : n.slotIsLive p = true)
    (hf : (n.slot p).isFan = true) :
    .lamOut p.slotIdx ∈ d.tree.pins ∨ .appOut p.slotIdx ∈ d.tree.pins := by
  rcases h.live _ (slotIsLive_iff.mp hl).2 with hm | hm | ⟨hr, he⟩
  · exact .inl hm
  · exact .inr hm
  · rcases h.root with rfl | hroot
    · cases hr
    · simp [Slot.isFan, slot, he, hroot.kind] at hf

theorem Draws.redex (h : Draws n r d) (hpair : n.FanPair p0 p1) :
    ∃ i j, (.appFn j, .lamOut i) ∈ d.tree.wires ∧
      ((p0 = n.portId (i, .principal) ∧ p1 = n.portId (j, .principal)) ∨
        (p0 = n.portId (j, .principal) ∧ p1 = n.portId (i, .principal))) := by
  obtain ⟨⟨hp0, hp1⟩, ⟨hl0, hl1⟩, ⟨hf0, hf1⟩, h01, h10⟩ := hpair
  have hcell : p0.cell = (p0.slotIdx, .principal) := by rw [PortId.cell, hp0]
  rw [peer_of_isReal (slotIsLive_iff.mp hl0).1, hcell] at h01
  rw [peer_of_isReal (slotIsLive_iff.mp hl1).1] at h10
  rcases h.fan_mem hl0 hf0 with hm | hm
  · obtain ⟨c, hw⟩ := exists_wire_to (p := .root) id hm trivial
    have hc : p1 = n.place r c := h01.symm.trans (h.holds_to hw)
    have hctop := (isTop_of_mem_wiresAt id hw).1
    subst hc
    cases c with
    | root =>
      rcases h.not_fan_root with hno | hno
      · cases hno.symm.trans hf1
      · cases hno.symm.trans hl1
    | appFn j =>
      refine ⟨p0.slotIdx, j, mem_wires_of_ne_root hw (by simp), .inl ⟨?_, rfl⟩⟩
      exact h10.symm.trans (h.holds_from hw (by simp))
    | lamBody k | appArg k => cases hp1
    | lamOut k | lamVar k | appOut k => exact absurd trivial hctop
  · obtain ⟨e, hw⟩ := exists_wire_from (p := .root) (q := .appFn p0.slotIdx) id
      (mem_cons_of_mem _ (((mem_pins _).2 _).2.1.mpr hm)) id
    have he : p1 = n.place r e := h01.symm.trans (h.holds_from hw (by simp))
    have hetop := (isTop_of_mem_wiresAt id hw).2
    subst he
    cases e with
    | lamOut i =>
      refine ⟨i, p0.slotIdx, mem_wires_of_ne_root hw (by simp), .inr ⟨?_, rfl⟩⟩
      exact h10.symm.trans (h.holds_to hw)
    | lamVar k | appOut k => cases hp1
    | root | lamBody k | appFn k | appArg k => exact hetop.elim

theorem Draws.fanPair (h : Draws n r d) (hw : (.appFn j, .lamOut i) ∈ d.tree.wires) :
    n.FanPair (n.portId (i, .principal)) (n.portId (j, .principal)) := by
  have hw' : (.appFn j, .lamOut i) ∈ d.tree.wiresAt .root := mem_cons_of_mem _ hw
  obtain ⟨hj, hi⟩ := mem_pins_of_wire hw'
  have hj := (mem_cons.mp hj).resolve_left nofun
  obtain ⟨hil, hik⟩ := h.slot_of_mem hi
  obtain ⟨hjl, hjk⟩ := h.slot_of_mem hj
  have hri := isReal_portId (c := (i, .principal)) h.wf hil
  have hrj := isReal_portId (c := (j, .principal)) h.wf hjl
  refine ⟨⟨rfl, rfl⟩, ⟨slotIsLive_iff.mpr ⟨hri, hil⟩, slotIsLive_iff.mpr ⟨hrj, hjl⟩⟩, ⟨?_, ?_⟩, ?_, ?_⟩
  · simp only [Slot.isFan, slot]
    rw [show (n.arena.slots (n.portId (i, .principal)).slotIdx).kind = .fanAbs from hik]
  · simp only [Slot.isFan, slot]
    rw [show (n.arena.slots (n.portId (j, .principal)).slotIdx).kind = .fanApp from hjk]
  · rw [peer_of_isReal hri]
    exact h.holds_to hw'
  · rw [peer_of_isReal hrj]
    exact h.holds_from hw' nofun

end

/-! ## R4 -/

section Links

variable {P : Pin Nat → PortId} {links : List Link} {L R : List (Pin Nat × Pin Nat)}

/-- The links carry out the wires `L`, with pins read by `P`. -/
def Wiring (P : Pin Nat → PortId) : List Link → List (Pin Nat × Pin Nat) → Prop :=
  List.Forall₂ fun l w => l.a = .ext (P w.1) ∧ l.b = .ext (P w.2)

theorem cells_wiring (h : Wiring P links L) : End.cells [] (Link.endsOf links) =
    ((ends L).filter fun p => (P p).isReal).map fun p => (P p).cell := by
  induction h with
  | nil => rfl
  | @cons l w ls ws hl _ ih =>
    obtain ⟨a, b, lo⟩ := l
    obtain ⟨rfl, rfl⟩ := hl
    show End.cells [] (.ext (P w.1) :: .ext (P w.2) :: Link.endsOf ls) = _
    rw [show ends (w :: ws) = w.1 :: w.2 :: ends ws from rfl, filter_cons, filter_cons,
      End.cells, End.cells, ih]
    by_cases h1 : (P w.1).isReal <;> by_cases h2 : (P w.2).isReal <;> simp [End.port, h1, h2]

theorem Wiring.exists_link {w : Pin Nat × Pin Nat} (h : Wiring P links L) (hw : w ∈ L) :
    ∃ l ∈ links, l.a = .ext (P w.1) ∧ l.b = .ext (P w.2) := by
  induction h with
  | nil => cases hw
  | cons hl _ ih =>
    rcases mem_cons.mp hw with rfl | hw
    · exact ⟨_, mem_cons_self, hl⟩
    · obtain ⟨l, hmem, hl⟩ := ih hw
      exact ⟨l, mem_cons_of_mem _ hmem, hl⟩

/-- Links between distinct pins join them, and leave the wires of the other pins. -/
theorem holds_links {m : Net} (hl : Wiring P links L) (hnd : (ends (L ++ R)).Nodup)
    (hinj : ∀ p ∈ ends (L ++ R), ∀ q ∈ ends (L ++ R), (P p).isReal = true → (P q).isReal = true →
      (P p).cell = (P q).cell → p = q)
    (hR : ∀ w ∈ R, m.Holds (P w.1) (P w.2) ∧ m.Holds (P w.2) (P w.1)) :
    ∀ w ∈ L ++ R, (links.foldl (fun n l => n.link [] l) m).Holds (P w.1) (P w.2) ∧
      (links.foldl (fun n l => n.link [] l) m).Holds (P w.2) (P w.1) := by
  have hcells := cells_wiring hl
  have happ : ends (L ++ R) = ends L ++ ends R := flatMap_append
  rw [happ] at hnd hinj
  obtain ⟨hndL, -, hdisj⟩ := nodup_append.mp hnd
  intro w hw
  rcases mem_append.mp hw with hw | hw
  · have hcnd : (End.cells [] (Link.endsOf links)).Nodup := by
      rw [hcells]
      refine List.Nodup.map_on (fun p hp q hq he => ?_) (hndL.filter _)
      obtain ⟨hp, hpr⟩ := mem_filter.mp hp
      obtain ⟨hq, hqr⟩ := mem_filter.mp hq
      exact hinj p (mem_append_left _ hp) q (mem_append_left _ hq) hpr hqr he
    obtain ⟨l, hlm, ha, hb⟩ := hl.exists_link hw
    have := portAt_links_of_mem (n := m) hcnd hlm
    rw [ha, hb] at this
    exact this
  · have hout : ∀ p ∈ ends R, (P p).isReal = true →
        (links.foldl (fun n l => n.link [] l) m).portAt (P p).cell = m.portAt (P p).cell := by
      intro p hp hpr
      refine portAt_links_of_not_mem fun hmem => ?_
      rw [hcells] at hmem
      obtain ⟨q, hq, he⟩ := mem_map.mp hmem
      obtain ⟨hq, hqr⟩ := mem_filter.mp hq
      cases hinj q (mem_append_left _ hq) p (mem_append_right _ hp) hqr hpr he
      exact hdisj p hq p hp rfl
    have hends : w.1 ∈ ends R ∧ w.2 ∈ ends R :=
      ⟨mem_ends.mpr ⟨w, hw, .inl rfl⟩, mem_ends.mpr ⟨w, hw, .inr rfl⟩⟩
    obtain ⟨h1, h2⟩ := hR w hw
    exact ⟨fun hr => (hout _ hends.1 hr).trans (h1 hr), fun hr => (hout _ hends.2 hr).trans (h2 hr)⟩

end Links

section

variable {n n' : Net} {r p0 p1 : PortId} {d : Diagram Nat} {i j : Nat} {lo : LOPath}

theorem portId_congr {c : Nat × PortKind} (h : n'.bodyAt c.1 = n.bodyAt c.1) :
    n'.portId c = n.portId c :=
  congrArg (fun b : Body => PortId.new c.1 c.2 (b.generation % 2 = 1)) h

theorem place_congr (h : ∀ s, n'.bodyAt s = n.bodyAt s) (r : PortId) : n'.place r = n.place r := by
  funext p
  cases p <;> first | rfl | exact portId_congr (h _)

section

variable {t' : Lib.Tree Nat} {links : List Link} {L R : List (Pin Nat × Pin Nat)}

/-- The net after a contraction. -/
def spliced (n : Net) (i j : Nat) (links : List Link) : Net :=
  links.foldl (fun n l => n.link [] l) ([i, j].foldl retire n)

theorem portAt_retirePair (n : Net) (i j : Nat) (c : Nat × PortKind) :
    ([i, j].foldl retire n).portAt c = n.portAt c := by simp

theorem bodyAt_spliced (n : Net) (i j : Nat) (links : List Link) (s : Nat) :
    (n.spliced i j links).bodyAt s = n.bodyAt s := by rw [spliced, bodyAt_links, bodyAt_retireAll]

theorem kind_spliced (n : Net) (i j : Nat) (links : List Link) (s : Nat) :
    ((n.spliced i j links).arena.slots s).kind = (n.arena.slots s).kind :=
  congrArg Body.kind (bodyAt_spliced n i j links s)

theorem Draws.live_spliced (h : Draws n r d) (hf : Fire j i d.tree t') (links : List Link) :
    (n.spliced i j links).arena.WF ∧ ∀ s, (n.spliced i j links).arena.isLive s = true ↔
      n.arena.isLive s = true ∧ s ≠ i ∧ s ≠ j := by
  obtain ⟨hjm, him⟩ := hf.mem_pins
  obtain ⟨hil, hik⟩ := h.abs i him
  obtain ⟨hjl, hjk⟩ := h.app j hjm
  have hnodup : [i, j].Nodup := by
    refine nodup_cons.mpr ⟨fun hij => ?_, nodup_singleton j⟩
    rw [mem_singleton.mp hij] at hik
    cases hik.symm.trans hjk
  obtain ⟨hwf, hlive⟩ := retireAll_wf h.wf hnodup (by simp [hil, hjl])
  refine ⟨wf_links _ _ hwf, fun s => ?_⟩
  rw [spliced, isLive_links, hlive]
  simp

theorem Draws.pin_apart (h : Draws n r d) (hf : Fire j i d.tree t') {p : Pin Nat} (hp : p ∈ t'.pins) :
    p ∈ d.tree.pins ∧ (pinCell p).1 ≠ i ∧ (pinCell p).1 ≠ j := by
  have hperm := hf.pins_perm d.nodup d.uses
  have hmem := hperm.mem_iff.mpr (mem_append_right _ hp)
  have hout : p ∉ redexPins j i := fun hr =>
    (nodup_append.mp (hperm.nodup_iff.mp d.nodup)).2.2 p hr p hp rfl
  obtain ⟨hjm, him⟩ := hf.mem_pins
  have hkind := (h.slot_of_mem hmem).2
  refine ⟨hmem, fun hpi => hout ?_, fun hpj => hout ?_⟩
  · rw [hpi, (h.abs i him).2] at hkind
    cases p <;> cases hkind <;> cases hpi <;> simp [redexPins, pinCell]
  · rw [hpj, (h.app j hjm).2] at hkind
    cases p <;> cases hkind <;> cases hpj <;> simp [redexPins, pinCell]

theorem Draws.root_spliced (h : Draws n r d) (hf : Fire j i d.tree t')
    (hl : Wiring (n.place r) links L) (hs : Splice j i d.tree t' L R) (hroot : n.RootSlot r) :
    (n.spliced i j links).RootSlot r := by
  have hlive := (h.live_spliced hf links).2
  obtain ⟨hjm, him⟩ := hf.mem_pins
  refine ⟨(hlive _).mpr ⟨hroot.live, ?_, ?_⟩, (kind_spliced ..).trans hroot.kind, ?_, fun k hk => ?_⟩
  · rintro rfl
    cases hroot.kind.symm.trans (h.abs _ him).2
  · rintro rfl
    cases hroot.kind.symm.trans (h.app _ hjm).2
  · exact hroot.port.trans (portId_congr (bodyAt_spliced ..)).symm
  · rw [spliced, portAt_links_of_not_mem, portAt_retirePair, hroot.bare k hk]
    rw [cells_wiring hl]
    intro hmem
    obtain ⟨p, hp, he⟩ := mem_map.mp hmem
    obtain ⟨hp, hpr⟩ := mem_filter.mp hp
    have hends : p ∈ ends (L ++ R) := by
      rw [Lib.Tree.ends, flatMap_append]
      exact mem_append_left _ hp
    rcases mem_cons.mp (hs.ends.mem_iff.mp hends) with rfl | hp'
    · rw [place, hroot.port] at he
      exact hk (congrArg Prod.snd he).symm
    · have hpm := (h.pin_apart hf hp').1
      have hpk := h.kind (mem_cons_of_mem _ hpm) hpr
      rw [show (n.place r p).slotIdx = r.slotIdx from congrArg Prod.fst he, hroot.kind] at hpk
      cases p with
      | root => exact absurd hpm (root_not_mem_pins _)
      | _ => cases hpk

/-- Retiring the two agents of a redex and joining what was around them draws the
contracted diagram. -/
theorem Draws.contract (h : Draws n r d) (hf : Fire j i d.tree t')
    (hl : Wiring (n.place r) links L) (hs : Splice j i d.tree t' L R) :
    Draws (n.spliced i j links) r (d.fire hf) := by
  obtain ⟨hwf, hlive⟩ := h.live_spliced hf links
  have hsub : ∀ p ∈ ends (L ++ R), p ∈ .root :: d.tree.pins := fun p hp =>
    mem_cons.mpr ((mem_cons.mp (hs.ends.mem_iff.mp hp)).imp_right fun hp =>
      (h.pin_apart hf hp).1)
  have hnd : (ends (L ++ R)).Nodup := hs.ends.nodup_iff.mpr
    (nodup_cons.mpr ⟨root_not_mem_pins t', (d.fire hf).nodup⟩)
  have hholds := holds_links (m := [i, j].foldl retire n) hl hnd
    (fun p hp q hq => h.place_inj (hsub p hp) (hsub q hq)) fun w hw => by
      obtain ⟨h1, h2⟩ := h.wires w (hs.stays w hw)
      exact ⟨fun hr => (portAt_retirePair ..).trans (h1 hr),
        fun hr => (portAt_retirePair ..).trans (h2 hr)⟩
  have hhosts : ∀ p ∈ t'.pins, (n.spliced i j links).arena.isLive (pinCell p).1 = true ∧
      ((n.spliced i j links).arena.slots (pinCell p).1).kind = pinKind p := fun p hp => by
    obtain ⟨hpm, hpi, hpj⟩ := h.pin_apart hf hp
    obtain ⟨hpl, hpk⟩ := h.slot_of_mem hpm
    exact ⟨(hlive _).mpr ⟨hpl, hpi, hpj⟩, (kind_spliced ..).trans hpk⟩
  have hperm := hf.pins_perm d.nodup d.uses
  refine ⟨hwf, fun k hk => hhosts _ hk, fun k hk => hhosts _ hk, fun s hs => ?_, fun w hw => ?_, ?_⟩
  · obtain ⟨hsl, hsi, hsj⟩ := (hlive s).mp hs
    rcases h.live s hsl with hm | hm | hr
    · have hm' : .lamOut s ∈ t'.pins := by simpa [redexPins, hsi] using hperm.mem_iff.mp hm
      exact .inl hm'
    · have hm' : .appOut s ∈ t'.pins := by simpa [redexPins, hsj] using hperm.mem_iff.mp hm
      exact .inr (.inl hm')
    · exact .inr (.inr hr)
  · unfold Joined
    rw [place_congr (bodyAt_spliced n i j links)]
    rcases hs.complete w hw with hw | hw
    · exact hholds w hw
    · exact (hholds _ hw).symm
  · exact h.root.imp_right (h.root_spliced hf hl hs)

end

/-- The ports that R4 reads, by the pins they belong to. -/
theorem Draws.absApp (h : Draws n r d) (him : .lamOut i ∈ d.tree.pins)
    (hjm : .appOut j ∈ d.tree.pins)
    (hp : (p0 = n.portId (i, .principal) ∧ p1 = n.portId (j, .principal)) ∨
      (p0 = n.portId (j, .principal) ∧ p1 = n.portId (i, .principal))) :
    n.absApp p0 p1 = (n.portId (i, .principal), n.portId (j, .principal)) := by
  unfold Net.absApp
  rcases hp with ⟨rfl, rfl⟩ | ⟨rfl, rfl⟩
  · have : (n.slot (n.portId (i, .principal))).fanIsAbs = true := by
      unfold Slot.fanIsAbs
      rw [show (n.slot (n.portId (i, .principal))).kind = .fanAbs from (h.abs i him).2]
      rfl
    rw [this]
    rfl
  · have : (n.slot (n.portId (j, .principal))).fanIsAbs = false := by
      unfold Slot.fanIsAbs
      rw [show (n.slot (n.portId (j, .principal))).kind = .fanApp from (h.app j hjm).2]
      rfl
    rw [this]
    rfl

theorem Draws.body_apart (h : Draws n r d) (him : .lamOut i ∈ d.tree.pins) {b : Pin Nat}
    (hb : (.lamBody i, b) ∈ d.tree.wiresAt .root) (hne : b ≠ .lamVar i) (hout : b ≠ .lamOut i) :
    (n.place r b).slotIdx ≠ i := by
  intro he
  have hbm := (mem_pins_of_wire hb).2
  have hbtop := (isTop_of_mem_wiresAt id hb).2
  have hkind := h.kind (mem_cons_of_mem _ hbm) (h.isReal hbm)
  rw [he, (h.abs i him).2] at hkind
  cases b with
  | lamOut k =>
    cases he
    exact hout rfl
  | lamVar k =>
    cases he
    exact hne rfl
  | appOut k => cases hkind
  | _ => exact hbtop

theorem Draws.r4_spliced (h : Draws n r d) (hw : (.appFn j, .lamOut i) ∈ d.tree.wires)
    (hp : (p0 = n.portId (i, .principal) ∧ p1 = n.portId (j, .principal)) ∨
      (p0 = n.portId (j, .principal) ∧ p1 = n.portId (i, .principal)))
    (hr4 : n.r4FanFan p0 p1 lo = .ok n') :
    ∃ t' links L R, Fire j i d.tree t' ∧ n' = n.spliced i j links ∧
      Wiring (n.place r) links L ∧ Splice j i d.tree t' L R := by
  obtain ⟨t', hf⟩ := mem_wires_iff_fire.mp hw
  obtain ⟨hjm, him⟩ := hf.mem_pins
  obtain ⟨rw, hrw, hrun⟩ := r4FanFan_ok hr4
  unfold r4Rewrite at hrw
  rw [h.absApp him hjm hp] at hrw
  dsimp only at hrw
  rcases hf.splice d.nodup d.uses with ⟨c, a, R, mbody, mres, marg, hs⟩ |
    ⟨c, b, q, a, R, hne, hout, mbody, mvar, mres, marg, hs⟩
  · -- the body is the variable
    have hbody : (n.slot (n.portId (i, .principal))).aux0 = _ := h.holds_from mbody nofun
    have hvar : (n.slot (n.portId (i, .principal))).aux1 = _ := h.holds_to mbody
    have hres : (n.slot (n.portId (j, .principal))).aux0 = _ := h.holds_to mres
    have harg : (n.slot (n.portId (j, .principal))).aux1 = _ := h.holds_from marg nofun
    rw [hbody, hvar, hres, harg, if_pos ⟨rfl, rfl⟩] at hrw
    cases hrw
    cases hrun
    exact ⟨t', _, [(c, a)], R, hf, rfl, .cons ⟨rfl, rfl⟩ .nil, hs⟩
  · have hbody : (n.slot (n.portId (i, .principal))).aux0 = _ := h.holds_from mbody nofun
    have hvar : (n.slot (n.portId (i, .principal))).aux1 = _ := h.holds_to mvar
    have hres : (n.slot (n.portId (j, .principal))).aux0 = _ := h.holds_to mres
    have harg : (n.slot (n.portId (j, .principal))).aux1 = _ := h.holds_from marg nofun
    have hbi : (n.place r b).slotIdx ≠ i := h.body_apart him mbody hne hout
    rw [hbody, hvar, hres, harg, if_neg fun hc => hbi hc.1] at hrw
    obtain ⟨lo0, -, hrw⟩ := bind_eq_ok.mp hrw
    obtain ⟨lo1, -, hrw⟩ := bind_eq_ok.mp hrw
    cases hrw
    cases hrun
    exact ⟨t', _, [(b, c), (q, a)], R, hf, rfl, .cons ⟨rfl, rfl⟩ (.cons ⟨rfl, rfl⟩ .nil), hs⟩

/-- R4 on a redex contracts it. -/
theorem Draws.r4 (h : Draws n r d) (hw : (.appFn j, .lamOut i) ∈ d.tree.wires)
    (hp : (p0 = n.portId (i, .principal) ∧ p1 = n.portId (j, .principal)) ∨
      (p0 = n.portId (j, .principal) ∧ p1 = n.portId (i, .principal)))
    (hr4 : n.r4FanFan p0 p1 lo = .ok n') :
    ∃ t', ∃ hf : Fire j i d.tree t', Draws n' r (d.fire hf) := by
  obtain ⟨t', links, L, R, hf, rfl, hl, hs⟩ := h.r4_spliced hw hp hr4
  exact ⟨t', hf, h.contract hf hl hs⟩

theorem freeSlots_linkNoPair (n : Net) (a b : PortId) : (n.linkNoPair a b).freeSlots = n.freeSlots := by
  unfold linkNoPair writePort modifySlot
  split <;> split <;> rfl

theorem freeSlots_connect (n : Net) (a b : PortId) (lo : LOPath) :
    (n.connect a b lo).freeSlots = n.freeSlots := by
  rw [connect, freeSlots_detectPair, freeSlots_linkNoPair]

theorem r4FanFan_frame (h : n.r4FanFan p0 p1 lo = .ok n') :
    (∀ s, n'.bodyAt s = n.bodyAt s) ∧ n'.freeSlots = n.freeSlots := by
  unfold r4FanFan at h
  split at h
  dsimp only at h
  split at h
  · cases h
    exact ⟨fun s => by simp, freeSlots_linkNoPair _ _ _⟩
  · obtain ⟨lo0, -, h⟩ := bind_eq_ok.mp h
    obtain ⟨lo1, -, h⟩ := bind_eq_ok.mp h
    cases h
    exact ⟨fun s => by simp, (freeSlots_connect _ _ _ _).trans (freeSlots_connect _ _ _ _)⟩

theorem r4FanFan_root (n : Net) (p0 p1 : PortId) : ∃ n', n.r4FanFan p0 p1 .root = .ok n' := by
  unfold r4FanFan
  split
  dsimp only
  split <;> exact ⟨_, rfl⟩

/-- Firing R4 on some pair of fans is a contraction of the diagram. -/
theorem draws_simulates (r : PortId) : Simulates R4Fires Diagram.Step fun n d => Draws n r d where
  step := by
    rintro n n' d h ⟨p0, p1, lo, hpair, hr4⟩
    obtain ⟨i, j, hw, hp⟩ := h.redex hpair
    obtain ⟨t', hf, h'⟩ := h.r4 hw hp hr4
    exact ⟨d.fire hf, ⟨j, i, hf⟩, h'⟩
  progress := by
    rintro n d d' h ⟨j, i, hf⟩
    obtain ⟨n', hn'⟩ := r4FanFan_root n (n.portId (i, .principal)) (n.portId (j, .principal))
    exact ⟨n', _, _, .root, h.fanPair (mem_wires_iff_fire.mpr ⟨_, hf⟩), hn'⟩

end

end Net

end Dnet
