import Dnet.Reduce.Symmetry

/-!
# Nets of fans and replicators without erasers

The nets of terms without `Era`. In the class ΔI every check is idle on them: C3 is not
part of the class, and C2 acts on erased ports only (`Plain.c2`). So each round of phase 1
fires R4, R5, R6 or R7 (`Plain.dispatchPhase1`) and each round of phase 2 fires C4
(`Plain.drainPhase2`), and they fail only when a resource runs out (`OnlyResource`). The
certificate fails exactly when C4 queued a pair (`Plain.normalize`).
-/

namespace Dnet

open Lib List

/-- The arena is full, a path is too long, or a level is out of range. -/
def DnxError.Resource (e : DnxError) : Prop :=
  e = .arenaCapacityExceeded ∨ e = .lOPathDepthExceeded ∨ e = .deltaOverflow

namespace Net

/-- Slot 0 belongs to no agent and is never handed out: it stands for the null port. -/
structure Sentinel (a : Arena) : Prop where
  count : 0 < a.slotCount
  free : ∀ i ∈ a.freeList, 0 < i
  agents : ∀ i, (i ∈ a.liveList ∨ a.isLive i = true) → 0 < i

/-- Every agent is a fan or a replicator and no port holds the eraser. -/
structure Plain (n : Net) : Prop where
  ports : ∀ c, (n.portAt c).isEraser = false
  flags : ∀ i, (n.arena.slots i).aux0Erased = false ∧ (n.arena.slots i).aux1Erased = false
  agents : ∀ i, n.Agent i → (n.arena.slots i).kind.structural = true
  pending : n.pendingC1 = false
  queue : ∀ e ∈ n.frontier1, e.2.p0.1.isEraser = false ∧ e.2.p1.1.isEraser = false
  apart : CandidatesApart n
  sentinel : Sentinel n.arena

theorem Plain.new (capacity : Nat) : Plain (Net.new capacity) where
  ports := fun c => by
    obtain ⟨i, k⟩ := c
    cases k <;> rfl
  flags := fun _ => ⟨rfl, rfl⟩
  agents := fun i h => by
    rcases h with h | h
    · cases h
    · cases h
  pending := rfl
  queue := fun e he => absurd he OrdMap.not_mem_empty
  apart := fun e he => absurd he OrdMap.not_mem_empty
  sentinel := ⟨Nat.one_pos, fun _ h => absurd h not_mem_nil, fun i h => by
    rcases h with h | h
    · cases h
    · cases h⟩

/-! ## The operations keep it -/

section

variable {n n' : Net} {i : Nat} {rw : Rewrite} {p0 p1 : PortId} {lo : LOPath} {retired : List Nat}
  {kind : AgentKind} {ps : AgentPorts}

theorem agents_of_kindStep (h : ∀ i, n.Agent i → (n.arena.slots i).kind.structural = true)
    (hk : KindStep n n') : ∀ i, n'.Agent i → (n'.arena.slots i).kind.structural = true := by
  intro i hi
  rcases hk.kinds i with ⟨hkind, ha⟩ | hs
  · rw [hkind]
    exact h i (ha hi)
  · exact hs

theorem Sentinel.retireSlot {a : Arena} (h : Sentinel a) (hi : 0 < i) :
    Sentinel (a.retireSlot i) where
  count := by
    unfold Arena.retireSlot Arena.unlist
    split <;> exact h.count
  free := forall_mem_cons.mpr ⟨hi, h.free⟩
  agents := fun j hj => h.agents j (agent_of_retire (n := { Net.new 0 with arena := a }) hj)

theorem Sentinel.allocSlot {a a' : Arena} (h : Sentinel a) (ha : a.allocSlot = .ok (i, a')) :
    Sentinel a' ∧ 0 < i := by
  have hi : 0 < i ∧ 0 < a'.slotCount ∧ ∀ j ∈ a'.freeList, j ∈ a.freeList := by
    unfold Arena.allocSlot at ha
    split at ha
    · next k rest hf =>
      cases ha
      exact ⟨h.free _ (hf ▸ mem_cons_self), h.count, fun j hj => hf ▸ mem_cons_of_mem _ hj⟩
    · split at ha
      · cases ha
      · cases ha
        exact ⟨h.count, Nat.succ_pos _, fun j hj => hj⟩
  refine ⟨⟨hi.2.1, fun j hj => h.free j (hi.2.2 j hj), fun j hj => ?_⟩, hi.1⟩
  rcases agent_of_allocSlot (n := { Net.new 0 with arena := a }) ha hj with rfl | hj
  · exact hi.1
  · exact h.agents j hj

theorem Sentinel.allocAgent {data : Nat} {d0 d1 : Int}
    (h : Sentinel n.arena) (hok : n.allocAgent kind data d0 d1 = .ok (ps, n')) :
    Sentinel n'.arena ∧ ∀ k, (ps.port k).isReal = true ∧ (ps.port k).portKind = k := by
  obtain ⟨⟨i, a⟩, ha, hok⟩ := bind_eq_ok.mp hok
  cases hok
  obtain ⟨hs, hi⟩ := h.allocSlot ha
  refine ⟨⟨hs.count, hs.free, hs.agents⟩, fun k => ?_⟩
  cases k <;> exact ⟨PortId.isReal_of_pos hi, rfl⟩

theorem Plain.writePort {p v : PortId} (h : Plain n) (hv : v.isEraser = false) :
    Plain (n.writePort p v) := by
  cases hr : p.isReal with
  | false => rwa [writePort_of_not_isReal hr]
  | true =>
    have hports (c : Nat × PortKind) : ((n.writePort p v).portAt c).isEraser = false := by
      rw [portAt_writePort]
      split
      · exact hv
      · exact h.ports c
    have hagents := agents_of_kindStep h.agents (kindStep_writePort n p v)
    rw [writePort_of_isReal hr] at hports hagents ⊢
    refine ⟨hports, fun i => ?_, hagents, h.pending, h.queue, h.apart,
      ⟨h.sentinel.count, h.sentinel.free, h.sentinel.agents⟩⟩
    rw [slots_modifySlot]
    split
    · next hi =>
      rw [← hi]
      cases p.portKind <;> simp [Slot.writePort, hv, h.flags i]
    · exact h.flags i

theorem Plain.linkNoPair {a b : PortId} (h : Plain n) (ha : a.isEraser = false)
    (hb : b.isEraser = false) : Plain (n.linkNoPair a b) := (h.writePort hb).writePort ha

theorem Plain.connect {a b : PortId} (lo : LOPath) (h : Plain n) (ha : a.isEraser = false)
    (hb : b.isEraser = false) : Plain (n.connect a b lo) := by
  have hl := h.linkNoPair ha hb
  have harena : (n.connect a b lo).arena = (n.linkNoPair a b).arena := arena_connect n a b lo
  refine ⟨fun c => ?_, fun i => ?_, agents_of_kindStep h.agents (kindStep_connect n a b lo), ?_,
    fun e he => ?_, candidatesApart_detectPair a b lo hl.apart, harena ▸ hl.sentinel⟩
  · rw [portAt, harena]
    exact hl.ports c
  · rw [harena]
    exact hl.flags i
  · exact (pendingC1_detectPair _ _ _ _).trans hl.pending
  · rcases mem_frontier1_connect.mp he with ⟨_, rfl⟩ | ⟨he, -⟩
    · exact ⟨ha, hb⟩
    · exact h.queue e he

theorem Plain.retire (hi : 0 < i) (h : Plain n) : Plain (n.retire i) where
  ports := fun c => by rw [portAt_retire]; exact h.ports c
  flags := fun j => by
    rw [show (n.retire i).arena.slots = n.arena.slots from Arena.slots_retireSlot _ _]
    exact h.flags j
  agents := agents_of_kindStep h.agents (kindStep_retire n i)
  pending := h.pending
  queue := h.queue
  apart := h.apart
  sentinel := h.sentinel.retireSlot hi

theorem Plain.allocAgent {data : Nat} {d0 d1 : Int}
    (h : Plain n) (hk : kind.structural = true) (ha : n.allocAgent kind data d0 d1 = .ok (ps, n')) :
    Plain n' := by
  have hs := h.sentinel.allocAgent ha
  obtain ⟨i, hi, -⟩ := allocAgent_ok ha
  obtain ⟨g, hnew⟩ := hi.slot_new
  refine ⟨fun c => ?_, fun j => ?_, agents_of_kindStep h.agents (kindStep_alloc hk ha),
    hi.pendingC1.trans h.pending, fun e he => h.queue e (hi.frontier1 ▸ he),
    candidatesApart_of_frontier2 hi.frontier2 h.apart, hs.1⟩
  · by_cases hc : c.1 = i
    · rw [portAt, hc, hnew]
      cases c.2 <;> rfl
    · rw [portAt, hi.slot_old _ hc]
      exact h.ports c
  · by_cases hj : j = i
    · rw [hj, hnew]
      exact ⟨rfl, rfl⟩
    · rw [hi.slot_old j hj]
      exact h.flags j

theorem Plain.allocAll : ∀ {news : List (AgentKind × Nat × Int × Int)} {n : Net}
    {ps : List AgentPorts}, Plain n → (∀ s ∈ news, s.1.structural = true) →
      n.allocAll news = .ok (ps, n') →
        Plain n' ∧ ∀ e : End, (∀ p, e = .ext p → p.isEraser = false) → (e.port ps).isEraser = false
  | [], _, _, hp, _, h => by
    cases h
    refine ⟨hp, fun e he => ?_⟩
    cases e with
    | ext p => exact he p rfl
    | new k kind => cases kind <;> rfl
  | (kind, data, d0, d1) :: rest, n, ps, hp, hk, h => by
    obtain ⟨⟨p, n1⟩, h1, h⟩ := bind_eq_ok.mp h
    obtain ⟨⟨ps', n2⟩, h2, h⟩ := bind_eq_ok.mp h
    cases h
    obtain ⟨hp', hends⟩ := Plain.allocAll (hp.allocAgent (hk _ mem_cons_self) h1)
      (fun s hs => hk s (mem_cons_of_mem _ hs)) h2
    refine ⟨hp', fun e he => ?_⟩
    cases e with
    | ext p => exact he p rfl
    | new k kind =>
      cases k with
      | zero =>
        obtain ⟨i, -, rfl⟩ := allocAgent_ok h1
        cases kind <;> rfl
      | succ k => exact hends (.new k kind) (fun p hp => nomatch hp)

theorem Plain.links {ps : List AgentPorts} : ∀ {ls : List Dnet.Link} {n : Net}, Plain n →
    (∀ e ∈ Link.endsOf ls, (e.port ps).isEraser = false) →
      Plain (ls.foldl (fun n l => n.link ps l) n)
  | [], _, h, _ => h
  | l :: ls, n, h, he => by
    have ha := he l.a mem_cons_self
    have hb := he l.b (mem_cons_of_mem _ mem_cons_self)
    have hl : Plain (n.link ps l) := by
      unfold link
      split
      · exact h.linkNoPair ha hb
      · exact h.connect _ ha hb
    exact @Plain.links ps ls (n.link ps l) hl
      (fun e hm => he e (mem_cons_of_mem _ (mem_cons_of_mem _ hm)))

/-- A rewrite that erases and relabels nothing, makes fans and replicators only and links
no eraser. -/
structure PlainRewrite (rw : Rewrite) : Prop where
  erased : rw.erased = []
  relabel : rw.relabel = none
  news : ∀ s ∈ rw.news, s.1.structural = true
  ends : ∀ p, .ext p ∈ Link.endsOf rw.links → p.isEraser = false

section

variable (h : Plain n)
include h

theorem Plain.run (hrw : PlainRewrite rw) (hpos : ∀ i ∈ rw.retired, 0 < i)
    (hrun : rw.run n = .ok n') : Plain n' := by
  obtain ⟨⟨ps, n2⟩, ha, hrun⟩ := bind_eq_ok.mp hrun
  rw [hrw.erased, hrw.relabel] at ha
  cases hrun
  obtain ⟨hp, hends⟩ := Plain.allocAll h hrw.news ha
  have hret : ∀ (is : List Nat) {m : Net}, (∀ i ∈ is, 0 < i) → Plain m →
      Plain (is.foldl Net.retire m) := by
    intro is
    induction is with
    | nil => exact fun _ hm => hm
    | cons i is ih =>
      exact fun his hm => ih (fun j hj => his j (mem_cons_of_mem _ hj))
        (hm.retire (his i mem_cons_self))
  exact (hret rw.retired hpos hp).links fun e he => hends e fun p hp => hrw.ends p (hp ▸ he)

/-! ## The rules on plain nets -/

theorem Plain.aux0 (p : PortId) : (n.slot p).aux0.isEraser = false :=
  h.ports (p.slotIdx, .aux0)

/-- The old ends of the links of the rules are ports of the retired agents. -/
theorem Plain.ext_ends {ls : List Dnet.Link} {c : List (Nat × PortKind)}
    (hc : (Link.endsOf ls).filterMap End.ext? = c.map n.portAt) (p : PortId)
    (hp : .ext p ∈ Link.endsOf ls) : p.isEraser = false := by
  have hp : p ∈ c.map n.portAt := hc ▸ mem_filterMap.mpr ⟨_, hp, rfl⟩
  obtain ⟨d, -, rfl⟩ := mem_map.mp hp
  exact h.ports d

theorem joins_plain {a b : PortId} {lo0 lo1 : LOPath} : PlainRewrite (.joins [] retired
    (n.slot a).aux0 (n.slot b).aux0 (n.slot a).aux1 (n.slot b).aux1 lo0 lo1) :=
  ⟨rfl, rfl, fun _ hs => absurd hs not_mem_nil, h.ext_ends (c := [(a.slotIdx, .aux0),
    (b.slotIdx, .aux0), (a.slotIdx, .aux1), (b.slotIdx, .aux1)]) rfl⟩

theorem crosses_plain {news : List (AgentKind × Nat × Int × Int)} {a b : PortId}
    {k0 k1 k2 k3 : LOPath} (hnews : ∀ s ∈ news, s.1.structural = true) :
    PlainRewrite (.crosses news retired lo (n.slot b).aux0 (n.slot b).aux1 (n.slot a).aux0
      (n.slot a).aux1 k0 k1 k2 k3) :=
  ⟨rfl, rfl, hnews, h.ext_ends (c := [(b.slotIdx, .aux0), (b.slotIdx, .aux1), (a.slotIdx, .aux0),
    (a.slotIdx, .aux1)]) rfl⟩

theorem r4Rewrite_plain (hrw : n.r4Rewrite p0 p1 lo = .ok rw) : PlainRewrite rw := by
  obtain ⟨a, b, -, ⟨-, -, rfl⟩ | ⟨lo0, lo1, -, rfl⟩⟩ := r4Rewrite_eq_ok hrw
  · exact ⟨rfl, rfl, fun s hs => absurd hs not_mem_nil,
      h.ext_ends (c := [(b.slotIdx, .aux0), (b.slotIdx, .aux1)]) rfl⟩
  · exact joins_plain h

theorem r5Rewrite_plain {fanP repP : PortId} (hrw : n.r5Rewrite fanP repP lo = .ok rw) :
    PlainRewrite rw := by
  have hnews := r5Rewrite_news hrw
  rcases r5Rewrite_eq_ok hrw with ⟨-, -, lo0, lo1, k0, k1, -, rfl⟩ |
    ⟨fan, rep, rep', k0, k1, k2, k3, -, -, -, -, rfl⟩
  · exact ⟨rfl, rfl, hnews, h.ext_ends (c := [(repP.slotIdx, .aux0), (repP.slotIdx, .aux1)]) rfl⟩
  · exact crosses_plain h hnews

theorem r6Rewrite_plain (hrw : n.r6Rewrite p0 p1 lo = .ok rw) : PlainRewrite rw := by
  obtain ⟨lo0, lo1, -, rfl⟩ := r6Rewrite_eq_ok hrw
  exact joins_plain h

theorem r7Rewrite_plain (h0 : (n.slot p0).kind.structural = true)
    (h1 : (n.slot p1).kind.structural = true) (hrw : n.r7Rewrite p0 p1 lo = .ok rw) :
    PlainRewrite rw := by
  have hnews := r7Rewrite_news h0 h1 hrw
  obtain ⟨a, b, lv0, lv1, k0, k1, k2, k3, -, -, -, -, rfl⟩ := r7Rewrite_eq_ok hrw
  exact crosses_plain h hnews

theorem c4Rewrite_plain {cand : C4Candidate} (hrw : n.c4Rewrite cand = .ok rw) :
    PlainRewrite rw := by
  obtain ⟨lo0, _, hrw⟩ := bind_eq_ok.mp hrw
  obtain ⟨lo1, _, hrw⟩ := bind_eq_ok.mp hrw
  rw [h.aux0 cand.appAux0] at hrw
  obtain ⟨lo00, _, hrw⟩ := bind_eq_ok.mp hrw
  obtain ⟨lo01, _, hrw⟩ := bind_eq_ok.mp hrw
  obtain ⟨lo10, _, hrw⟩ := bind_eq_ok.mp hrw
  obtain ⟨lo11, _, hrw⟩ := bind_eq_ok.mp hrw
  cases hrw
  refine ⟨rfl, rfl, fun s hs => ?_, h.ext_ends (c := [(cand.repPrincipal.slotIdx, .aux0),
    (cand.repPrincipal.slotIdx, .aux1), (cand.appAux0.slotIdx, .principal),
    (cand.appAux0.slotIdx, .aux1)]) rfl⟩
  simp only [mem_cons, not_mem_nil, or_false] at hs
  rcases hs with rfl | rfl | rfl | rfl <;> rfl

end

end

end Net

/-- A computation that fails only when a resource runs out. -/
def OnlyResource {α : Type} (x : Except DnxError α) : Prop := ∀ e, x = .error e → e.Resource

namespace OnlyResource

variable {α β : Type}

theorem ok (a : α) : OnlyResource (.ok a) := fun _ h => nomatch h

theorem bind {x : Except DnxError α} {f : α → Except DnxError β} (hx : OnlyResource x)
    (hf : ∀ a, OnlyResource (f a)) : OnlyResource (x >>= f) := of_bind_error hx fun a _ => hf a

theorem extend {p : LOPath} {b : Bool} {f : LOPath → Except DnxError β}
    (hf : ∀ a, OnlyResource (f a)) : OnlyResource (p.extendBit b >>= f) := by
  refine .bind (fun e h => ?_) hf
  unfold LOPath.extendBit at h
  split at h
  · cases h
  · cases h
    exact .inr (.inl rfl)

theorem addLevel (level : Nat) (delta : Int) : OnlyResource (Net.addLevel level delta) := by
  intro e h
  unfold Net.addLevel at h
  dsimp only at h
  split at h
  · cases h
  · cases h
    exact .inr (.inr rfl)

theorem alloc {n : Net} {kind : AgentKind} {data : Nat} {d0 d1 : Int}
    {f : AgentPorts × Net → Except DnxError β} (hf : ∀ a, OnlyResource (f a)) :
    OnlyResource (n.allocAgent kind data d0 d1 >>= f) := by
  refine .bind (.bind (fun e h => ?_) fun _ => .ok _) hf
  unfold Arena.allocSlot at h
  split at h
  · cases h
  · split at h
    · cases h
      exact .inl rfl
    · cases h

theorem r4FanFan (n : Net) (p0 p1 : PortId) (lo : LOPath) : OnlyResource (n.r4FanFan p0 p1 lo) := by
  unfold Net.r4FanFan
  generalize (if (n.slot p0).fanIsAbs then (p0, p1) else (p1, p0)) = ends
  dsimp only
  split
  · exact .ok _
  · exact .extend fun _ => .extend fun _ => .ok _

theorem r5FanRep (n : Net) (fanP repP : PortId) (lo : LOPath) :
    OnlyResource (n.r5FanRep fanP repP lo) := by
  unfold Net.r5FanRep
  refine .alloc fun _ => .alloc fun _ => .extend fun _ => .extend fun _ => .extend fun _ =>
    .extend fun _ => ?_
  split
  · exact .extend fun _ => .extend fun _ => .ok _
  · exact .alloc fun _ => .alloc fun _ => .extend fun _ => .extend fun _ => .extend fun _ =>
      .extend fun _ => .ok _

theorem r7RepRep (n : Net) (p0 p1 : PortId) (lo : LOPath) : OnlyResource (n.r7RepRep p0 p1 lo) := by
  unfold Net.r7RepRep
  exact .bind (addLevel _ _) fun _ => .alloc fun _ =>
    .bind (addLevel _ _) fun _ => .alloc fun _ =>
    .alloc fun _ => .alloc fun _ => .extend fun _ => .extend fun _ => .extend fun _ =>
    .extend fun _ => .extend fun _ => .extend fun _ => .extend fun _ => .extend fun _ => .ok _

theorem c4AuxFanReplication (n : Net) (cand : C4Candidate) :
    OnlyResource (n.c4AuxFanReplication cand) := by
  unfold Net.c4AuxFanReplication
  dsimp only
  split
  · exact .extend fun _ => .extend fun _ => .ok _
  · exact .alloc fun _ => .alloc fun _ => .alloc fun _ => .alloc fun _ => .extend fun _ =>
      .extend fun _ => .extend fun _ => .extend fun _ => .extend fun _ => .extend fun _ =>
      .extend fun _ => .extend fun _ => .ok _

end OnlyResource

namespace Net

/-! ## Rounds on plain nets -/

section

variable {n n' m : Net} {p : PortId} {st : Net × ReduceStats} {cand : C4Candidate}

theorem Plain.c2 (h : Plain n) (C : NetClass) (p : PortId) (lo : LOPath) : n.c2 C p lo = .ok n := by
  have hgate (q : PortId) (d : Int) {b : Bool} (hb : b = false) :
      c2GateAt (n.slot p) n.slot q d b = .ok none := by
    rw [hb]
    rfl
  unfold Net.c2 c2RepMerge
  split
  · have hnone : c2GateAndShift (n.slot p) n.slot = .ok none := by
      unfold c2GateAndShift
      split
      · rfl
      · have h1 : (n.slot p).aux1Erased = false := (h.flags p.slotIdx).2
        have h0 : (n.slot p).aux0Erased = false := (h.flags p.slotIdx).1
        rw [hgate _ _ h1, hgate _ _ h0]
        rfl
    dsimp only
    rw [hnone]
    rfl
  · rfl

theorem Plain.preFanRep (h : Plain n) (lo : LOPath) (hl : n.portLive p = true) :
    n.preFanRep .ΔI p lo = .ok (n, true) := by
  have h2 := h.c2 .ΔI p lo
  simp only [Net.preFanRep, NetClass.hasEra, NetClass.hasRep, Bool.false_eq_true, if_false, if_true,
    Bool.false_and, Bool.true_and, h2, bind, Except.bind, hl, Bool.not_true]
  rfl

theorem Plain.preRepRep (h : Plain n) {p0 p1 : PortId} (lo : LOPath) (hl0 : n.portLive p0 = true)
    (hl1 : n.portLive p1 = true) : n.preRepRep .ΔI p0 p1 lo = .ok (n, true) := by
  have h0 := h.c2 .ΔI p0 lo
  have h1 := h.c2 .ΔI p1 lo
  simp only [Net.preRepRep, NetClass.hasEra, NetClass.hasRep, Bool.false_eq_true, if_false, if_true,
    Bool.false_and, Bool.true_and, h0, h1, bind, Except.bind, hl0, hl1, Bool.not_true, Bool.or_self]
  rfl

theorem Slot.isFan_or_isRep {s : Slot} (h : s.kind.structural = true) :
    s.isFan = true ∨ s.isRep = true ∧ s.isFan = false := by
  unfold Slot.isFan Slot.isRep
  cases hk : s.kind <;> simp_all [AgentKind.structural]

/-- The rule of two agents of a plain net. -/
def plainRule (n : Net) (p0 p1 : PortId) (lo : LOPath) : Except DnxError Net :=
  if (n.slot p0).isFan then
    if (n.slot p1).isFan then n.r4FanFan p0 p1 lo else n.r5FanRep p0 p1 lo
  else if (n.slot p1).isFan then n.r5FanRep p1 p0 lo
  else if (n.slot p0).label = (n.slot p1).label then n.r6RepRep p0 p1 lo
  else n.r7RepRep p0 p1 lo

theorem Plain.structural (h : Plain n) (he : p.isEraser = false) (hl : n.portLive p = true) :
    (n.slot p).kind.structural = true :=
  h.agents p.slotIdx (.inr ((portLive_iff he).mp hl).1)

/-- In ΔI every live pair of a plain net fires its rule. -/
theorem Plain.dispatchPhase1 (h : Plain n) {pair : ActivePair} (stats : ReduceStats)
    (h0 : pair.p0.1.isEraser = false) (h1 : pair.p1.1.isEraser = false)
    (hlive : n.isStalePair pair = false) : ∃ stats', n.dispatchPhase1 .ΔI pair stats =
      n.plainRule pair.p0.1 pair.p1.1 pair.lo >>= fun m => .ok (m, stats') := by
  obtain ⟨hl0, hl1⟩ := portLive_of_not_stale hlive
  rcases Slot.isFan_or_isRep (h.structural h0 hl0) with hf0 | ⟨hr0, hf0⟩ <;>
    rcases Slot.isFan_or_isRep (h.structural h1 hl1) with hf1 | ⟨hr1, hf1⟩
  · refine ⟨{ stats with r4Count := stats.r4Count + 1 }, ?_⟩
    simp only [Net.dispatchPhase1, plainRule, h0, h1, hf0, hf1, Bool.and_self, Bool.or_self,
      Bool.false_eq_true, if_false, if_true]
    cases n.r4FanFan pair.p0.1 pair.p1.1 pair.lo <;> rfl
  · refine ⟨stats, ?_⟩
    simp only [Net.dispatchPhase1, plainRule, h0, h1, hf0, hf1, hr1, Bool.and_self, Bool.or_self,
      Bool.and_false, Bool.false_eq_true, if_false, if_true, dispatchFanRep,
      h.preFanRep pair.lo hl1, bind, Except.bind]
    cases n.r5FanRep pair.p0.1 pair.p1.1 pair.lo <;> rfl
  · refine ⟨stats, ?_⟩
    simp only [Net.dispatchPhase1, plainRule, h0, h1, hf0, hf1, hr0, Bool.and_self, Bool.or_self,
      Bool.false_and, Bool.and_true, Bool.false_eq_true, if_false, if_true, dispatchFanRep,
      h.preFanRep pair.lo hl0, bind, Except.bind]
    cases n.r5FanRep pair.p1.1 pair.p0.1 pair.lo <;> rfl
  · refine ⟨stats, ?_⟩
    simp only [Net.dispatchPhase1, plainRule, h0, h1, hf0, hf1, hr0, hr1, Bool.and_self,
      Bool.or_self, Bool.false_and, Bool.and_false, Bool.false_eq_true, if_false, if_true,
      dispatchRepRep, h.preRepRep pair.lo hl0 hl1, bind, Except.bind, Bool.not_true]
    by_cases hl : (n.slot pair.p0.1).label = (n.slot pair.p1.1).label
    · simp only [hl, if_true]
      cases n.r6RepRep pair.p0.1 pair.p1.1 pair.lo <;> rfl
    · simp only [hl, if_false]
      cases n.r7RepRep pair.p0.1 pair.p1.1 pair.lo <;> rfl

theorem OnlyResource.plainRule (n : Net) (p0 p1 : PortId) (lo : LOPath) :
    OnlyResource (n.plainRule p0 p1 lo) := by
  unfold Net.plainRule
  split
  · split
    · exact .r4FanFan _ _ _ _
    · exact .r5FanRep _ _ _ _
  · split
    · exact .r5FanRep _ _ _ _
    · split
      · exact .extend fun _ => .extend fun _ => .ok _
      · exact .r7RepRep _ _ _ _

theorem Plain.slotIdx_pos (h : Plain n) (he : p.isEraser = false) (hl : n.portLive p = true) :
    0 < p.slotIdx :=
  h.sentinel.agents p.slotIdx (.inr ((portLive_iff he).mp hl).1)

theorem RuleShape.pos {q : PortId} {rw : Rewrite} (h : RuleShape [p.slotIdx, q.slotIdx] rw)
    (hp : 0 < p.slotIdx) (hq : 0 < q.slotIdx) : ∀ i ∈ rw.retired, 0 < i := by
  intro i hi
  rcases mem_pair.mp (h.perm.mem_iff.mp hi) with rfl | rfl
  · exact hp
  · exact hq

theorem Plain.plainRule (h : Plain n) {p0 p1 : PortId} {lo : LOPath} (he0 : p0.isEraser = false)
    (he1 : p1.isEraser = false) (hl0 : n.portLive p0 = true) (hl1 : n.portLive p1 = true)
    (hr : n.plainRule p0 p1 lo = .ok n') : Plain n' := by
  have hp0 := h.slotIdx_pos he0 hl0
  have hp1 := h.slotIdx_pos he1 hl1
  unfold Net.plainRule at hr
  split at hr
  · split at hr
    · obtain ⟨rw, hrw, hrun⟩ := r4FanFan_ok hr
      exact h.run (r4Rewrite_plain h hrw) ((r4Rewrite_shape hrw).pos hp0 hp1) hrun
    · obtain ⟨rw, hrw, hrun⟩ := r5FanRep_ok hr
      exact h.run (r5Rewrite_plain h hrw) ((r5Rewrite_shape hrw).pos hp0 hp1) hrun
  · split at hr
    · obtain ⟨rw, hrw, hrun⟩ := r5FanRep_ok hr
      exact h.run (r5Rewrite_plain h hrw) ((r5Rewrite_shape hrw).pos hp1 hp0) hrun
    · split at hr
      · obtain ⟨rw, hrw, hrun⟩ := r6RepRep_ok hr
        exact h.run (r6Rewrite_plain h hrw) ((r6Rewrite_shape hrw).pos hp0 hp1) hrun
      · obtain ⟨rw, hrw, hrun⟩ := r7RepRep_ok hr
        exact h.run (r7Rewrite_plain h (h.structural he0 hl0) (h.structural he1 hl1) hrw)
          ((r7Rewrite_shape hrw).pos hp0 hp1) hrun

/-- One round of phase 1 from a plain net: it fails for a resource, or the net stays plain. -/
theorem Plain.phase1Round (h : Plain st.1) : OnlyResource (Net.phase1Round .ΔI st) ∧
      ∀ st', Net.phase1Round .ΔI st = .ok (.next st') → Plain st'.1 := by
  unfold Net.phase1Round
  split
  · exact ⟨.ok _, fun _ h => nomatch h⟩
  · next k pair rest hpop =>
    have hmem {e : LOPath × ActivePair} : e ∈ st.1.frontier1 ↔ e = (k, pair) ∨ e ∈ rest :=
      OrdMap.mem_of_popFirst hpop
    have hrest : Plain { st.1 with frontier1 := rest } :=
      ⟨h.ports, h.flags, h.agents, h.pending, fun e he => h.queue e (hmem.mpr (.inr he)),
        h.apart, h.sentinel⟩
    obtain ⟨h0, h1⟩ := h.queue _ (hmem.mpr (.inl rfl))
    dsimp only
    split
    · refine ⟨.ok _, fun st' h => ?_⟩
      cases h
      exact hrest
    · next hstale =>
      have hlive := Bool.eq_false_iff.mpr hstale
      obtain ⟨hl0, hl1⟩ := portLive_of_not_stale hlive
      obtain ⟨stats', hd⟩ := hrest.dispatchPhase1 { st.2 with interactions := st.2.interactions + 1 }
        h0 h1 hlive
      rw [hd]
      constructor
      · exact .bind (.bind (OnlyResource.plainRule _ _ _ _) fun _ => .ok _) fun _ => .ok _
      · intro st' hst
        obtain ⟨r, hr, hst⟩ := bind_eq_ok.mp hst
        obtain ⟨m, hm, hr⟩ := bind_eq_ok.mp hr
        cases hr
        cases hst
        exact hrest.plainRule h0 h1 hl0 hl1 hm

/-! ## Phase 2 on plain nets -/

theorem Sentinel.allocAll : ∀ {news : List (AgentKind × Nat × Int × Int)} {n : Net}
    {ps : List AgentPorts}, Sentinel n.arena → n.allocAll news = .ok (ps, n') →
      ∀ k < news.length, ∀ kind,
        ((End.new k kind).port ps).isReal = true ∧ ((End.new k kind).port ps).portKind = kind
  | [], _, _, _, _, _, hk, _ => absurd hk (Nat.not_lt_zero _)
  | (kind, data, d0, d1) :: rest, n, ps, hs, h, k, hk, kind' => by
    obtain ⟨⟨p, n1⟩, h1, h⟩ := bind_eq_ok.mp h
    obtain ⟨⟨ps', n2⟩, h2, h⟩ := bind_eq_ok.mp h
    cases h
    obtain ⟨hs', hreal⟩ := hs.allocAgent h1
    cases k with
    | zero => exact hreal kind'
    | succ k => exact Sentinel.allocAll hs' h2 k (Nat.lt_of_succ_lt_succ hk) kind'

/-- The function or the argument of the candidate's application hangs on a principal port:
the copies of the replicator that C4 attaches there make active pairs. -/
def Exposed (n : Net) (cand : C4Candidate) : Prop :=
  ∃ p, (p = (n.slot cand.appAux0).principal ∨ p = (n.slot cand.appAux0).aux1) ∧
    p.portKind = .principal ∧ p ≠ .null

/-- A queue with an entry keeps one through any links: a link replaces an entry by another. -/
theorem frontier1_links_isEmpty {ps : List AgentPorts} : ∀ (ls : List Dnet.Link) (n : Net),
    (ls.foldl (fun n l => n.link ps l) n).frontier1.isEmpty = true ↔
      n.frontier1.isEmpty = true ∧ ∀ l ∈ ls, ∀ k, ¬l.Queues ps k
  | [], n => by simp
  | l :: ls, n => by
    rw [foldl_cons, frontier1_links_isEmpty ls, forall_mem_cons, ← and_assoc]
    refine and_congr_left' ?_
    simp only [OrdMap.isEmpty_iff_forall, mem_frontier1_link]
    constructor
    · intro h
      have hq : ∀ k, ¬l.Queues ps k := fun k hk => h _ (.inl ⟨k, hk, rfl⟩)
      exact ⟨fun e he => h e (.inr ⟨he, fun k hk => absurd hk (hq k)⟩), hq⟩
    · rintro ⟨he, hq⟩ e (⟨k, hk, -⟩ | ⟨hm, -⟩)
      · exact hq k hk
      · exact he e hm

/-- Of the links of C4 only those of the two new replicators' principal ports can be queued. -/
theorem c4Rewrite_queues {rw : Rewrite} {ps : List AgentPorts} {n1 n2 : Net}
    (h : Plain n) (hs : Sentinel n1.arena) (hrw : n.c4Rewrite cand = .ok rw)
    (ha : n1.allocAll rw.news = .ok (ps, n2)) :
    (∀ l ∈ rw.links, ∀ k, ¬l.Queues ps k) ↔ ¬n.Exposed cand := by
  obtain ⟨lo0, _, hrw⟩ := bind_eq_ok.mp hrw
  obtain ⟨lo1, _, hrw⟩ := bind_eq_ok.mp hrw
  rw [h.aux0 cand.appAux0] at hrw
  obtain ⟨lo00, _, hrw⟩ := bind_eq_ok.mp hrw
  obtain ⟨lo01, _, hrw⟩ := bind_eq_ok.mp hrw
  obtain ⟨lo10, _, hrw⟩ := bind_eq_ok.mp hrw
  obtain ⟨lo11, _, hrw⟩ := bind_eq_ok.mp hrw
  cases hrw
  have hnew (k : Nat) (hk : k < 4) (kind : PortKind) := hs.allocAll ha k hk kind
  have haux {k : Nat} {kind : PortKind} {b : End} {lo k' : LOPath} (hk : k < 4)
      (hkind : kind ≠ .principal) : ¬Link.Queues ps ⟨.new k kind, b, some lo⟩ k' :=
    fun hq => hkind ((hnew k hk kind).2.symm.trans hq.2.1)
  have hup {k : Nat} (hk : k < 4) (p : PortId) (lo : LOPath) :
      (∀ k', ¬Link.Queues ps ⟨.new k .principal, .ext p, some lo⟩ k') ↔
        ¬(p.portKind = .principal ∧ p ≠ .null) := by
    obtain ⟨hreal, hpk⟩ := hnew k hk .principal
    constructor
    · exact fun h hp => h lo ⟨rfl, hpk, hp.1, (PortId.isReal_iff.mp hreal).2, hp.2⟩
    · exact fun h k' hq => h ⟨hq.2.2.1, hq.2.2.2.2⟩
  simp only [forall_mem_cons, not_mem_nil, false_implies, implies_true, and_true]
  rw [hup (by decide), hup (by decide)]
  constructor
  · rintro ⟨-, -, -, -, -, -, h1, h2⟩ ⟨p, rfl | rfl, hp⟩
    · exact h1 hp
    · exact h2 hp
  · intro hno
    refine ⟨?_, ?_, ?_, ?_, ?_, ?_, fun hp => hno ⟨_, .inl rfl, hp⟩, fun hp => hno ⟨_, .inr rfl, hp⟩⟩
    all_goals exact fun k => haux (by decide) (by decide)

/-- C4 queues a pair exactly when the candidate is exposed. -/
theorem Plain.c4 (h : Plain n)
    (he : cand.repPrincipal.isEraser = false ∧ cand.appAux0.isEraser = false)
    (hl : n.isStaleC4 cand = false) (hc : n.c4AuxFanReplication cand = .ok n') :
    Plain n' ∧ (n'.frontier1.isEmpty = true ↔ n.frontier1.isEmpty = true ∧ ¬n.Exposed cand) := by
  obtain ⟨rw, hrw, hrun⟩ := c4AuxFanReplication_ok hc
  have hrw' := c4Rewrite_plain h hrw
  obtain ⟨hlr, hla⟩ := portLive_of_not_staleC4 hl
  constructor
  · refine h.run hrw' ?_ hrun
    rw [(c4Rewrite_shape hrw).1]
    intro i hi
    rcases mem_pair.mp hi with rfl | rfl
    · exact h.slotIdx_pos he.2 hla
    · exact h.slotIdx_pos he.1 hlr
  · obtain ⟨⟨ps, n2⟩, ha, hrun⟩ := bind_eq_ok.mp hrun
    rw [hrw'.erased, hrw'.relabel] at ha
    cases hrun
    obtain ⟨a, hret⟩ := retireAll_frame rw.retired n2
    have hf : (rw.retired.foldl Net.retire n2).frontier1 = n.frontier1 := by
      rw [hret]
      change n2.frontier1 = n.frontier1
      refine allocAll_rec (P := fun m => m.frontier1 = n.frontier1) ?_ (fun s _ m p m' hm h => ?_) ha
      · rfl
      · obtain ⟨i, hi, -⟩ := allocAgent_ok h
        exact hi.frontier1.trans hm
    rw [frontier1_links_isEmpty, hf]
    exact and_congr_right' (c4Rewrite_queues h h.sentinel hrw ha)

/-- The next candidate of phase 2 is replicated and exposed. -/
def ReplicatesExposed (n : Net) : Prop :=
  ∃ e rest, n.frontier2.popFirst = some (e, rest) ∧ n.isStaleC4 e.2 = false ∧ n.Exposed e.2

theorem replicatesExposed_iff {e : LOPath × C4Candidate} {rest : OrdMap LOPath C4Candidate}
    (h : n.frontier2.popFirst = some (e, rest)) :
    n.ReplicatesExposed ↔ n.isStaleC4 e.2 = false ∧ n.Exposed e.2 := by
  constructor
  · rintro ⟨_, _, hpop, hx⟩
    cases h.symm.trans hpop
    exact hx
  · exact fun hx => ⟨e, rest, h, hx⟩

/-- One candidate of phase 2 from a plain net: it fails for a resource, or the net stays
plain, and a pair is queued exactly when an exposed candidate was replicated. -/
theorem Plain.drainPhase2 (h : Plain n) :
    OnlyResource (n.drainPhase2 .ΔI) ∧ ∀ n' more, n.drainPhase2 .ΔI = .ok (n', more) →
        Plain n' ∧ (more = false → n' = n ∧ n.frontier2.isEmpty = true) ∧
          (n'.frontier1.isEmpty = true ↔ n.frontier1.isEmpty = true ∧ ¬n.ReplicatesExposed) := by
  unfold Net.drainPhase2
  simp only [NetClass.hasRep, NetClass.hasEra, Bool.not_true, Bool.false_eq_true, if_false,
    Bool.false_and]
  cases hpop : n.frontier2.popFirst with
  | none =>
    refine ⟨.ok _, fun n' more hr => ?_⟩
    cases hr
    have hno : ¬n.ReplicatesExposed := fun ⟨_, _, he, _⟩ => nomatch hpop.symm.trans he
    exact ⟨h, fun _ => ⟨rfl, OrdMap.isEmpty_iff.mpr hpop⟩, (and_iff_left hno).symm⟩
  | some e =>
    obtain ⟨⟨k, cand⟩, rest⟩ := e
    have hmem {e : LOPath × C4Candidate} : e ∈ n.frontier2 ↔ e = (k, cand) ∨ e ∈ rest :=
      OrdMap.mem_of_popFirst hpop
    have hrest : Plain { n with frontier2 := rest } :=
      ⟨h.ports, h.flags, h.agents, h.pending, h.queue, fun e he => h.apart e (hmem.mpr (.inr he)),
        h.sentinel⟩
    dsimp only
    split
    · next hstale =>
      refine ⟨.ok _, fun n' more hr => ?_⟩
      cases hr
      have hno : ¬n.ReplicatesExposed := fun hx =>
        absurd (((replicatesExposed_iff hpop).mp hx).1.symm.trans hstale) Bool.false_ne_true
      exact ⟨hrest, fun hm => absurd hm.symm Bool.false_ne_true, (and_iff_left hno).symm⟩
    · next hstale =>
      have hlive : n.isStaleC4 cand = false := Bool.eq_false_iff.mpr hstale
      rw [(replicatesExposed_iff hpop).trans (and_iff_right hlive)]
      simp only [hrest.c2, bind, Except.bind, hstale, if_false, Bool.false_eq_true]
      cases hc : Net.c4 .ΔI { n with frontier2 := rest } cand with
      | error err =>
        refine ⟨fun e he => ?_, fun n' more hr => nomatch hr⟩
        cases he
        exact OnlyResource.c4AuxFanReplication _ _ err hc
      | ok m =>
        refine ⟨.ok _, fun n' more hr => ?_⟩
        cases hr
        obtain ⟨he0, he1, -⟩ := h.apart _ (hmem.mpr (.inl rfl))
        obtain ⟨hp, hiff⟩ := hrest.c4 ⟨he0, he1⟩ hlive hc
        exact ⟨hp, fun hm => absurd hm.symm Bool.false_ne_true, hiff⟩

/-! ## Whole runs -/

/-- Phase 1 leaves a net from which phase 2 comes to its end and replicates an exposed
candidate on the way. -/
def ExposesInPhase2 (n : Net) : Prop :=
  ∃ st m n2, Runs (Net.phase1Round .ΔI) (n, {}) st ∧ Net.phase1Round .ΔI st = .ok (.done st) ∧
    Runs (Net.phase2Round .ΔI) st.1 m ∧ m.ReplicatesExposed ∧
      Runs (Net.phase2Round .ΔI) m n2 ∧ n2.drainPhase2 .ΔI = .ok (n2, false)

theorem Plain.phase1 (h : Plain n) (hr : Runs (Net.phase1Round .ΔI) (n, {}) st) : Plain st.1 :=
  hr.invariant (P := fun st => Plain st.1) h fun _ _ hp hs => hp.phase1Round.2 _ hs

theorem Plain.phase2 (h : Plain n) (hr : Runs (Net.phase2Round .ΔI) n m) : Plain m :=
  hr.invariant h fun _ _ hp hs => (hp.drainPhase2.2 _ _ (phase2Round_next hs)).1

theorem Plain.isEmpty_of_phase2 (h : Plain n) (hr : Runs (Net.phase2Round .ΔI) n m)
    (hm : m.frontier1.isEmpty = true) : n.frontier1.isEmpty = true := by
  induction hr with
  | refl => exact hm
  | tail hruns hstep ih =>
    have hb := (h.phase2 hruns).drainPhase2.2 _ _ (phase2Round_next hstep)
    exact ih (hb.2.2.mp hm).1

/-- A pair that phase 2 leaves queued was queued by the replication of an exposed candidate. -/
theorem Plain.exposed_of_phase2 (h : Plain n) (hr : Runs (Net.phase2Round .ΔI) n m)
    (hn : n.frontier1.isEmpty = true) (hm : m.frontier1.isEmpty ≠ true) :
    ∃ x, Runs (Net.phase2Round .ΔI) n x ∧ x.ReplicatesExposed ∧ Runs (Net.phase2Round .ΔI) x m := by
  induction hr with
  | refl => exact absurd hn hm
  | @tail b c hruns hstep ih =>
    have hb := (h.phase2 hruns).drainPhase2.2 _ _ (phase2Round_next hstep)
    by_cases he : b.frontier1.isEmpty = true
    · refine ⟨b, hruns, ?_, .single hstep⟩
      by_contra hx
      exact hm (hb.2.2.mpr ⟨he, hx⟩)
    · obtain ⟨x, hx, hxe, hxb⟩ := ih he
      exact ⟨x, hx, hxe, hxb.tail hstep⟩

/-- The certificate of a net that phase 2 leaves looks at the queue of phase 1 only. -/
theorem Plain.finish (h : Plain n) (hd : n.drainPhase2 .ΔI = .ok (n, false)) :
    n.finish .ΔI = if n.frontier1.isEmpty then .ok n else .error .readbackIncomplete := by
  have he := ((h.drainPhase2.2 _ _ hd).2.1 rfl).2
  unfold Net.finish certifyCanonical
  simp only [h.pending, he, Bool.false_eq_true, if_false, Bool.and_true, Bool.not_false]
  cases n.frontier1.isEmpty <;> rfl

/-- From a plain net, ΔI fails for a resource only, unless phase 2 replicates an exposed
candidate and comes to its end. -/
theorem Plain.normalize (h : Plain n) {r : Except DnxError (Net × ReduceStats)} {fuel : Nat}
    (hr : n.normalize .ΔI fuel = some r) : OnlyResource r ↔ ¬n.ExposesInPhase2 := by
  have hend {a : Except DnxError (Net × ReduceStats)} {st1 st : Net × ReduceStats}
      (h1 : Runs (Net.phase1Round .ΔI) (n, {}) st1) (hs1 : Stops (Net.phase1Round .ΔI) st1 a)
      (h2 : Runs (Net.phase1Round .ΔI) (n, {}) st)
      (hs2 : Net.phase1Round .ΔI st = .ok (.done st)) : a = .ok st := h1.stops_unique hs1 h2 hs2
  have hend2 {a : Except DnxError Net} {m1 m2 m : Net} (h1 : Runs (Net.phase2Round .ΔI) m m1)
      (hs1 : Stops (Net.phase2Round .ΔI) m1 a) (h2 : Runs (Net.phase2Round .ΔI) m m2)
      (hs2 : m2.drainPhase2 .ΔI = .ok (m2, false)) : a = .ok m2 :=
    h1.stops_unique hs1 h2 (phase2Round_eq hs2)
  cases normalize_ends hr with
  | @phase1 st e hruns hstop =>
    refine iff_of_true (fun e' he => ?_) ?_
    · cases he
      exact (h.phase1 hruns).phase1Round.1 e hstop
    · rintro ⟨st', _, _, hruns', hstop', -⟩
      cases hend hruns (a := .error e) hstop hruns' hstop'
  | @phase2 st m e hruns hstop hruns2 hstop2 =>
    have hp := (h.phase1 hruns).phase2 hruns2
    refine iff_of_true (fun e' he => ?_) ?_
    · cases he
      exact hp.drainPhase2.1 e hstop2
    · rintro ⟨st', x, n2, hruns', hstop', hx, -, hn2, hd⟩
      cases hend hruns (a := .ok st) hstop hruns' hstop'
      cases hend2 hruns2 (a := .error e) (phase2Round_eq hstop2) (hx.trans hn2) hd
  | @finish st m m' hruns hstop hruns2 hstop2 =>
    have hp₁ := h.phase1 hruns
    have hp := hp₁.phase2 hruns2
    obtain ⟨rfl, -⟩ := (hp.drainPhase2.2 _ _ hstop2).2.1 rfl
    rw [hp.finish hstop2]
    have hempty : st.1.frontier1.isEmpty = true :=
      OrdMap.isEmpty_iff.mpr (phase1Round_done hstop).2
    by_cases hm : m'.frontier1.isEmpty = true
    · rw [if_pos hm]
      refine iff_of_true (fun e he => nomatch he) ?_
      rintro ⟨st', x, n2, hruns', hstop', hx, hxe, hn2, hd⟩
      cases hend hruns (a := .ok st) hstop hruns' hstop'
      cases hend2 hruns2 (a := .ok m') (phase2Round_eq hstop2) (hx.trans hn2) hd
      -- the last net has no candidate, so it is not the exposing one
      rcases hn2.cases_head with rfl | ⟨y, hstep, hy⟩
      · obtain ⟨_, _, hpop, -⟩ := hxe
        rw [OrdMap.isEmpty_iff.mp ((hp.drainPhase2.2 _ _ hstop2).2.1 rfl).2] at hpop
        cases hpop
      · have hpx := hp₁.phase2 hx
        have hdx := hpx.drainPhase2.2 _ _ (phase2Round_next hstep)
        exact (hdx.2.2.mp (hdx.1.isEmpty_of_phase2 hy hm)).2 hxe
    · rw [if_neg hm]
      refine iff_of_false (fun he => ?_) (not_not.mpr ?_)
      · rcases he _ rfl with he | he | he <;> cases he
      · obtain ⟨x, hx, hxe, hxm⟩ := hp₁.exposed_of_phase2 hruns2 hempty hm
        exact ⟨st, x, m', hruns, hstop, hx, hxe, hxm, hstop2⟩

end

end Net

end Dnet
