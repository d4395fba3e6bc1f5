import Dnet.Reduce.Rewrite

/-!
# What a rewrite does to the arena

The liveness and the bookkeeping of the arena after a rewrite, and the inversion of
`dispatchPhase1`: which rewrites a fired pair stands for (`Fires`, `dispatch_fires`). A rewrite
that retires distinct live slots keeps the arena well formed; its slots are live exactly if they
are fresh, or old and not retired (`Ran.wf`, `Ran.isLive`).
-/

namespace Dnet

open Lib List Net

namespace Net

/-! ## Several allocations -/

/-- What allocating the agents `news` does: they get the slots `is`. -/
structure AllocAll (n : Net) (news : List (AgentKind × Nat × Int × Int)) (is : List Nat)
    (ps : List AgentPorts) (n' : Net) : Prop where
  ports : ps = is.map n'.ports
  slot_new : List.Forall₂ (fun i spec => ∃ g, n'.arena.slots i =
    { Slot.empty with
      kind := spec.1, generation := g, data := spec.2.1, delta0 := spec.2.2.1
      delta1 := spec.2.2.2 }) is news
  slot_old : ∀ j, j ∉ is → n'.arena.slots j = n.arena.slots j
  isLive : ∀ j, n'.arena.isLive j = (decide (j ∈ is) || n.arena.isLive j)
  frontier1 : n'.frontier1 = n.frontier1
  frontier2 : n'.frontier2 = n.frontier2
  freeSlots : n'.freeSlots = n.freeSlots
  pendingC1 : n'.pendingC1 = n.pendingC1
  wf : n'.arena.WF
  nodup : is.Nodup
  fresh : ∀ i ∈ is, n.arena.isLive i = false ∧ 0 < i

theorem allocAll_ok {n' : Net} : ∀ {news : List (AgentKind × Nat × Int × Int)} {n : Net}
    {ps : List AgentPorts}, n.arena.WF → n.allocAll news = .ok (ps, n') →
      ∃ is, AllocAll n news is ps n'
  | [], n, ps, hwf, h => by
    cases h
    exact ⟨[], rfl, .nil, fun _ _ => rfl, fun _ => by simp, rfl, rfl, rfl, rfl, hwf,
      nodup_nil, fun _ hi => absurd hi not_mem_nil⟩
  | (kind, data, d0, d1) :: rest, n, ps, hwf, h => by
    obtain ⟨⟨p, n1⟩, h1, h⟩ := bind_eq_ok.mp h
    obtain ⟨⟨ps', n2⟩, h2, h⟩ := bind_eq_ok.mp h
    cases h
    obtain ⟨i, ha, rfl⟩ := allocAgent_ok h1
    obtain ⟨hwf1, hdead, hpos⟩ := ha.wf hwf
    obtain ⟨is, hs⟩ := allocAll_ok hwf1 h2
    -- the later slots are dead after the first allocation, so they are not its slot
    have hi : i ∉ is := fun hmem => by
      have := (hs.fresh i hmem).1
      rw [ha.isLive] at this
      simp at this
    have hslot : n'.arena.slots i = n1.arena.slots i := hs.slot_old i hi
    refine ⟨i :: is, ?_, .cons ?_ hs.slot_new, fun j hj => ?_, fun j => ?_,
      hs.frontier1.trans ha.frontier1, hs.frontier2.trans ha.frontier2,
      hs.freeSlots.trans ha.freeSlots, hs.pendingC1.trans ha.pendingC1, hs.wf,
      nodup_cons.mpr ⟨hi, hs.nodup⟩, fun j hj => ?_⟩
    · rw [map_cons, ← hs.ports, ports, ports, hslot]
    · obtain ⟨g, hg⟩ := ha.slot_new
      exact ⟨g, hslot.trans hg⟩
    · rw [mem_cons, not_or] at hj
      rw [hs.slot_old j hj.2, ha.slot_old j hj.1]
    · rw [hs.isLive, ha.isLive]
      by_cases hji : j = i
      · simp [hji]
      · simp [hji]
    · rcases mem_cons.mp hj with rfl | hj
      · exact ⟨hdead, hpos⟩
      · have := (hs.fresh j hj).1
        rw [ha.isLive, Bool.or_eq_false_iff] at this
        exact ⟨this.2, (hs.fresh j hj).2⟩

/-! ## Several retirements -/

@[simp] theorem slots_retireAll (is : List Nat) (n : Net) :
    (is.foldl retire n).arena.slots = n.arena.slots :=
  foldl_frame (fun n => n.arena.slots) (fun _ _ => Arena.slots_retireSlot _ _) is n

theorem retireAll_frame (is : List Nat) (n : Net) :
    ∃ a, is.foldl retire n = { n with arena := a } :=
  ⟨_, foldl_frame (f := retire) (fun m => { m with arena := (is.foldl retire n).arena })
    (fun _ _ => rfl) is n⟩

/-- Retiring distinct live slots keeps the arena well formed and kills exactly them. -/
theorem retireAll_wf : ∀ {is : List Nat} {n : Net}, n.arena.WF → is.Nodup →
    (∀ i ∈ is, n.arena.isLive i = true) → (is.foldl retire n).arena.WF ∧
        ∀ j, (is.foldl retire n).arena.isLive j = (n.arena.isLive j && decide (j ∉ is))
  | [], n, hwf, _, _ => ⟨hwf, fun j => by simp⟩
  | i :: is, n, hwf, hnd, hlive => by
    obtain ⟨hi, hnd'⟩ := nodup_cons.mp hnd
    have hli := hlive i mem_cons_self
    have hstep := fun j => hwf.isLive_retireSlot hli j
    have hrest : ∀ j ∈ is, (n.retire i).arena.isLive j = true := by
      intro j hj
      have hji : j ≠ i := fun e => hi (e ▸ hj)
      rw [show (n.retire i).arena = n.arena.retireSlot i from rfl, hstep,
        hlive j (mem_cons_of_mem _ hj)]
      simp [hji]
    obtain ⟨hwf', hl⟩ := retireAll_wf (hwf.retireSlot hli : (n.retire i).arena.WF) hnd' hrest
    refine ⟨hwf', fun j => ?_⟩
    rw [foldl_cons, hl, show (n.retire i).arena = n.arena.retireSlot i from rfl, hstep]
    by_cases hji : j = i <;> simp [hji]

/-! ## Erasures, relabelling and links -/

@[simp] theorem isLive_setErasers (ps : List PortId) (i : Nat) (n : Net) :
    (ps.foldl setEraserOnPort n).arena.isLive i = n.arena.isLive i :=
  foldl_frame (fun n => n.arena.isLive i) (fun _ _ => isLive_setEraserOnPort ..) ps n

@[simp] theorem isLive_relabelSlot (n : Net) (r : Option (Nat × Nat × Int × Int)) (i : Nat) :
    (n.relabelSlot r).arena.isLive i = n.arena.isLive i := by
  cases r <;> rfl

theorem wf_setEraserOnPort {n : Net} (p : PortId) (h : n.arena.WF) :
    (n.setEraserOnPort p).arena.WF := by
  unfold setEraserOnPort
  split
  · exact h
  · exact h.setSlot

theorem wf_relabelSlot {n : Net} (r : Option (Nat × Nat × Int × Int)) (h : n.arena.WF) :
    (n.relabelSlot r).arena.WF := by
  cases r with
  | none => exact h
  | some r => exact h.setSlot

theorem wf_writePort {n : Net} (p v : PortId) (h : n.arena.WF) : (n.writePort p v).arena.WF := by
  unfold writePort
  split
  · exact h
  · exact h.setSlot

theorem wf_link {n : Net} (ps : List AgentPorts) (l : Link) (h : n.arena.WF) :
    (n.link ps l).arena.WF := by
  have hl : (n.linkNoPair (l.a.port ps) (l.b.port ps)).arena.WF :=
    wf_writePort _ _ (wf_writePort _ _ h)
  unfold link
  split
  · exact hl
  · rw [arena_connect]
    exact hl

theorem wf_links (ps : List AgentPorts) (ls : List Link) {n : Net} (h : n.arena.WF) :
    (ls.foldl (fun n l => n.link ps l) n).arena.WF :=
  List.foldlRecOn ls _ (motive := fun n : Net => n.arena.WF) h fun _ h l _ => wf_link ps l h

@[simp] theorem isLive_link (n : Net) (ps : List AgentPorts) (l : Link) (i : Nat) :
    (n.link ps l).arena.isLive i = n.arena.isLive i := by
  unfold link
  split <;> simp

@[simp] theorem isLive_links (ps : List AgentPorts) (ls : List Link) (i : Nat) (n : Net) :
    (ls.foldl (fun n l => n.link ps l) n).arena.isLive i = n.arena.isLive i :=
  foldl_frame (fun n => n.arena.isLive i) (fun _ _ => isLive_link ..) ls n

@[simp] theorem bodyAt_setErasers (ps : List PortId) (i : Nat) (n : Net) :
    (ps.foldl setEraserOnPort n).bodyAt i = n.bodyAt i :=
  foldl_frame (fun n => n.bodyAt i) (fun _ _ => bodyAt_setEraserOnPort ..) ps n

@[simp] theorem bodyAt_retireAll (is : List Nat) (i : Nat) (n : Net) :
    (is.foldl retire n).bodyAt i = n.bodyAt i := by
  simp [bodyAt]

@[simp] theorem bodyAt_links (ps : List AgentPorts) (ls : List Link) (i : Nat) (n : Net) :
    (ls.foldl (fun n l => n.link ps l) n).bodyAt i = n.bodyAt i := by
  refine foldl_frame (fun n => n.bodyAt i) (fun n l => ?_) ls n
  unfold link
  split <;> simp

theorem bodyAt_relabelSlot (n : Net) (r : Option (Nat × Nat × Int × Int)) (i : Nat) :
    ((n.relabelSlot r).bodyAt i).kind = (n.bodyAt i).kind ∧
      ((n.relabelSlot r).bodyAt i).generation = (n.bodyAt i).generation := by
  cases r with
  | none => exact ⟨rfl, rfl⟩
  | some r =>
    obtain ⟨j, data, d0, d1⟩ := r
    simp only [relabelSlot, bodyAt, slots_modifySlot]
    by_cases hi : i = j <;> simp [hi]

theorem portLive_iff {n : Net} {p : PortId} (hp : p.isEraser = false) :
    n.portLive p = true ↔ n.arena.isLive p.slotIdx = true ∧ p.genLow = (n.slot p).genLow := by
  simp [portLive, hp]

theorem portLive_of_dead {n : Net} {p : PortId} (hp : p.isEraser = false)
    (h : n.arena.isLive p.slotIdx = false) : n.portLive p = false := by
  simp [portLive, hp, h]

end Net

/-! ## Runs -/

/-- The run of a rewrite from a well-formed arena: `n1` is the net after the erasures,
`n2` after the allocations into the slots `is`. -/
structure Rewrite.Ran (rw : Rewrite) (n : Net) (is : List Nat) (ps : List AgentPorts) (n1 n2 n' : Net) :
    Prop where
  erase : n1 = (rw.erased.foldl setEraserOnPort n).relabelSlot rw.relabel
  alloc : n1.AllocAll rw.news is ps n2
  link : n' = rw.links.foldl (fun n l => n.link ps l) (rw.retired.foldl retire n2)

theorem Rewrite.run_ok {rw : Rewrite} {n n' : Net} (hwf : n.arena.WF) (h : rw.run n = .ok n') :
    ∃ is ps n1 n2, rw.Ran n is ps n1 n2 n' := by
  obtain ⟨⟨ps, n2⟩, ha, h⟩ := bind_eq_ok.mp h
  cases h
  have hwf' := List.foldlRecOn rw.erased _ (motive := fun n : Net => n.arena.WF) hwf
    fun _ h p _ => wf_setEraserOnPort p h
  obtain ⟨is, hs⟩ := allocAll_ok (wf_relabelSlot _ hwf') ha
  exact ⟨is, ps, _, n2, rfl, hs, rfl⟩

/-- The slots a rewrite retires are distinct and live. -/
def Rewrite.RetiresLive (rw : Rewrite) (n : Net) : Prop :=
  rw.retired.Nodup ∧ ∀ i ∈ rw.retired, n.arena.isLive i = true

namespace Rewrite.Ran

variable {rw : Rewrite} {n n1 n2 n' : Net} {is : List Nat} {ps : List AgentPorts} {j : Nat}
  (h : rw.Ran n is ps n1 n2 n')

include h

theorem isLive_alloc (j : Nat) : n2.arena.isLive j = (decide (j ∈ is) || n.arena.isLive j) := by
  rw [h.alloc.isLive, h.erase]
  simp

theorem fresh {i : Nat} (hi : i ∈ is) : n.arena.isLive i = false ∧ 0 < i := by
  have := h.alloc.fresh i hi
  rw [h.erase] at this
  simpa using this

theorem body_old (hj : j ∉ is) : (n'.bodyAt j).kind = (n.bodyAt j).kind ∧
    (n'.bodyAt j).generation = (n.bodyAt j).generation := by
  have h2 : n'.bodyAt j = n1.bodyAt j := by
    rw [h.link, bodyAt_links, bodyAt_retireAll]
    simp only [bodyAt, h.alloc.slot_old j hj]
  have hr := bodyAt_relabelSlot (rw.erased.foldl setEraserOnPort n) rw.relabel j
  rw [← h.erase, ← h2, bodyAt_setErasers] at hr
  exact hr

theorem not_fresh_of_live (hj : n.arena.isLive j = true) : j ∉ is := fun hmem => by
  rw [(h.fresh hmem).1] at hj
  cases hj

variable (hr : rw.RetiresLive n)

include hr

theorem retired_live {i : Nat} (hi : i ∈ rw.retired) : n2.arena.isLive i = true := by
  rw [h.isLive_alloc, hr.2 i hi, Bool.or_true]

theorem wf : n'.arena.WF := by
  rw [h.link]
  exact wf_links _ _ (retireAll_wf h.alloc.wf hr.1 (fun _ hi => h.retired_live hr hi)).1

theorem isLive (j : Nat) :
    n'.arena.isLive j = ((decide (j ∈ is) || n.arena.isLive j) && decide (j ∉ rw.retired)) := by
  rw [h.link, isLive_links,
    (retireAll_wf h.alloc.wf hr.1 (fun _ hi => h.retired_live hr hi)).2, h.isLive_alloc]

theorem isLive_of_no_news (hn : rw.news = []) (hj : n'.arena.isLive j = true) :
    n.arena.isLive j = true ∧ j ∉ rw.retired := by
  have his : is = [] := by
    have := h.alloc.slot_new
    rw [hn] at this
    exact forall₂_nil_right_iff.mp this
  rw [h.isLive hr, his] at hj
  simpa using hj

theorem portLive_of_not_retired {p : PortId} (hl : n.portLive p = true)
    (hp : p.slotIdx ∉ rw.retired) : n'.portLive p = true := by
  cases he : p.isEraser with
  | true => simp [portLive, he]
  | false =>
    obtain ⟨hlive, hg⟩ := (portLive_iff he).mp hl
    have hgen : (n'.slot p).genLow = (n.slot p).genLow :=
      congrArg (fun g => decide (g % 2 = 1)) (h.body_old (h.not_fresh_of_live hlive)).2
    refine (portLive_iff he).mpr ⟨?_, hg.trans hgen.symm⟩
    rw [h.isLive hr]
    simp [hlive, hp]

end Rewrite.Ran

/-! ## C2 and C3 before a rule -/

namespace Net

section

variable {n n' : Net} {p : PortId} {lo : LOPath} {rw : Rewrite} {C : NetClass}

theorem c3Rewrite_shape (h : n.c3Rewrite p lo = some rw) :
    rw.retired = [p.slotIdx] ∧ rw.news = [] := by
  unfold c3Rewrite at h
  dsimp only at h
  split at h
  · split at h <;> cases h
    exact ⟨rfl, rfl⟩
  · split at h <;> cases h
    exact ⟨rfl, rfl⟩
  · split at h <;> cases h
    exact ⟨rfl, rfl⟩
  · cases h

theorem c2Rewrite_shape (h : n.c2Rewrite p lo = .ok (some rw)) :
    rw.retired = [p.slotIdx] ∧ rw.news = [] := by
  obtain ⟨m, -, h⟩ := bind_eq_ok.mp h
  cases m with
  | none => cases h
  | some m =>
    cases h
    exact ⟨rfl, rfl⟩

theorem dead_of_run {i : Nat} (hwf : n.arena.WF) (hl : n.arena.isLive i = true)
    (hr : rw.retired = [i]) (h : rw.run n = .ok n') : n'.arena.isLive i = false := by
  obtain ⟨is, ps, n1, n2, hran⟩ := Rewrite.run_ok hwf h
  have hret : rw.RetiresLive n := by
    rw [Rewrite.RetiresLive, hr]
    simpa using hl
  rw [hran.isLive hret, hr]
  simp

/-- The rewrite C3 stands for, if it acts on the replicator at `p`. -/
def c3Plan (C : NetClass) (lo : LOPath) (n : Net) (p : PortId) : Option Rewrite :=
  if C = .ΔK then n.c3Rewrite p lo else none

/-- The rewrite C2 stands for, if it acts. -/
def c2Plan (C : NetClass) (lo : LOPath) (n : Net) (p : PortId) : Option Rewrite :=
  if C.hasRep then (n.c2Rewrite p lo).toOption.join else none

/-- A check before a rule: it does nothing, or the rewrite it plans ran. -/
inductive CStep (plan : Option Rewrite) (n n' : Net) : Prop where
  | idle (hp : plan = none) (hn : n' = n)
  | act {rw : Rewrite} (hp : plan = some rw) (hrun : rw.run n = .ok n')

theorem c3_cstep (h : n.c3 C p lo = .ok n') : CStep (c3Plan C lo n p) n n' := by
  cases C with
  | ΔK =>
    cases h
    rcases c3RepDecay_eq n p lo with ⟨hn, he⟩ | ⟨rw, hrw, hrun⟩
    · exact .idle hn he
    · exact .act hrw hrun
  | ΔL | ΔA | ΔI =>
    cases h
    exact .idle rfl rfl

theorem c2_cstep (h : n.c2 C p lo = .ok n') : CStep (c2Plan C lo n p) n n' := by
  unfold c2 at h
  unfold c2Plan
  split at h
  · next hc =>
    rw [if_pos hc]
    rcases c2RepMerge_ok h with ⟨hn, he⟩ | ⟨rw, hrw, hrun⟩
    · exact .idle (by rw [hn]; rfl) he
    · exact .act (by rw [hrw]; rfl) hrun
  · next hc =>
    cases h
    exact .idle (if_neg hc) rfl

/-- A plan for `p` that retires the slot of `p` and allocates nothing. -/
def Drops (plan : Net → PortId → Option Rewrite) : Prop :=
  ∀ n p rw, plan n p = some rw → rw.retired = [p.slotIdx] ∧ rw.news = []

theorem c3Plan_drops (C : NetClass) (lo : LOPath) : Drops (c3Plan C lo) := by
  intro n p rw h
  unfold c3Plan at h
  split at h
  · exact c3Rewrite_shape h
  · cases h

theorem c2Plan_drops (C : NetClass) (lo : LOPath) : Drops (c2Plan C lo) := by
  intro n p rw h
  unfold c2Plan at h
  split at h
  · cases hc : n.c2Rewrite p lo with
    | error e =>
      rw [hc] at h
      cases h
    | ok o =>
      rw [hc] at h
      cases o with
      | none => cases h
      | some rw' =>
        cases h
        exact c2Rewrite_shape hc
  · cases h

/-- A check that a class may leave out, since it plans nothing there. -/
structure Check (on : Bool) (check : Net → PortId → Except DnxError Net)
    (plan : Net → PortId → Option Rewrite) : Prop where
  step : ∀ {n p n'}, check n p = .ok n' → CStep (plan n p) n n'
  off : ¬on → ∀ n p, plan n p = none
  drops : Drops plan

theorem c3_check (C : NetClass) (lo : LOPath) :
    Check C.hasEra (fun n p => n.c3 C p lo) (c3Plan C lo) :=
  ⟨c3_cstep, fun hc _ _ => if_neg fun h => hc (by rw [h]; rfl), c3Plan_drops C lo⟩

theorem c2_check (C : NetClass) (lo : LOPath) :
    Check C.hasRep (fun n p => n.c2 C p lo) (c2Plan C lo) :=
  ⟨c2_cstep, fun hc _ _ => if_neg hc, c2Plan_drops C lo⟩

end

section

variable {plan : Net → PortId → Option Rewrite} {n n' : Net} {p : PortId} {on : Bool}
  {check : Net → PortId → Except DnxError Net}

theorem Check.step_if (h : Check on check plan)
    (hr : (if on then check n p else .ok n) = .ok n') : CStep (plan n p) n n' := by
  split at hr
  · exact h.step hr
  · next hc =>
    cases hr
    exact .idle (h.off hc n p) rfl

theorem Check.twice_if {p0 p1 : PortId} (h : Check on check plan)
    (hr : (if on then (do check (← check n p0) p1) else .ok n) = .ok n') :
    ∃ n1, CStep (plan n p0) n n1 ∧ CStep (plan n1 p1) n1 n' := by
  split at hr
  · obtain ⟨n1, h0, h1⟩ := bind_eq_ok.mp hr
    exact ⟨n1, h.step h0, h.step h1⟩
  · next hc =>
    cases hr
    exact ⟨n, .idle (h.off hc n p0) rfl, .idle (h.off hc n p1) rfl⟩

theorem Check.on_of_some {rw : Rewrite} (h : Check on check plan) (hp : plan n p = some rw) :
    on = true := by
  by_contra hc
  rw [h.off hc] at hp
  cases hp

theorem CStep.wf (hd : Drops plan) (h : CStep (plan n p) n n') (hwf : n.arena.WF)
    (hlive : n.arena.isLive p.slotIdx = true) : n'.arena.WF := by
  cases h with
  | idle _ hn => exact hn ▸ hwf
  | act hp hrun =>
    obtain ⟨is, ps, n1, n2, hran⟩ := Rewrite.run_ok hwf hrun
    exact hran.wf (by simpa [Rewrite.RetiresLive, (hd _ _ _ hp).1] using hlive)

/-- After the step, every other live port is live, and no slot is that was not. -/
theorem CStep.live (hd : Drops plan) (h : CStep (plan n p) n n') (hwf : n.arena.WF)
    (hlive : n.arena.isLive p.slotIdx = true) :
    (∀ q : PortId, n.portLive q = true → q.slotIdx ≠ p.slotIdx → n'.portLive q = true) ∧
      ∀ j, n'.arena.isLive j = true → n.arena.isLive j = true := by
  cases h with
  | idle _ hn =>
    subst hn
    exact ⟨fun _ h _ => h, fun _ h => h⟩
  | @act rw hp hrun =>
    obtain ⟨hret, hnews⟩ := hd _ _ _ hp
    obtain ⟨is, ps, n1, n2, hran⟩ := Rewrite.run_ok hwf hrun
    have hr : rw.RetiresLive n := by simpa [Rewrite.RetiresLive, hret] using hlive
    refine ⟨fun q hq hne => hran.portLive_of_not_retired hr hq ?_,
      fun j hj => (hran.isLive_of_no_news hr hnews hj).1⟩
    rw [hret]
    simpa using hne

/-- Either the step did nothing, or it killed its port. -/
theorem CStep.idle_or_dead (hd : Drops plan) (h : CStep (plan n p) n n') (hwf : n.arena.WF)
    (hlive : n.arena.isLive p.slotIdx = true) : (plan n p = none ∧ n' = n) ∨
      (∃ rw, plan n p = some rw ∧ rw.run n = .ok n') ∧ n'.arena.isLive p.slotIdx = false := by
  cases h with
  | idle hp hn => exact .inl ⟨hp, hn⟩
  | @act rw hp hrun => exact .inr ⟨⟨rw, hp, hrun⟩, dead_of_run hwf hlive (hd _ _ _ hp).1 hrun⟩

/-- Two steps in a row, on different ports: both did nothing, or one of the ports is dead. -/
theorem CStep.twice {p0 p1 : PortId} {n1 : Net} (hd : Drops plan) (h0 : CStep (plan n p0) n n1)
    (h1 : CStep (plan n1 p1) n1 n') (hwf : n.arena.WF) (hp1 : p1.isEraser = false)
    (hl0 : n.arena.isLive p0.slotIdx = true) (hl1 : n.portLive p1 = true)
    (hne : p0.slotIdx ≠ p1.slotIdx) : (n' = n ∧ plan n p0 = none ∧ plan n p1 = none) ∨
      (n'.arena.isLive p0.slotIdx = false ∨ n'.arena.isLive p1.slotIdx = false) := by
  have hwf1 := h0.wf hd hwf hl0
  have hl1' := ((portLive_iff hp1).mp ((h0.live hd hwf hl0).1 p1 hl1 hne.symm)).1
  rcases h0.idle_or_dead hd hwf hl0 with ⟨hn0, rfl⟩ | ⟨-, hdead⟩
  · rcases h1.idle_or_dead hd hwf hl1' with ⟨hn1, rfl⟩ | ⟨-, hdead⟩
    · exact .inl ⟨rfl, hn0, hn1⟩
    · exact .inr (.inr hdead)
  · refine .inr (.inl ?_)
    cases hl : n'.arena.isLive p0.slotIdx with
    | false => rfl
    | true =>
      rw [(h1.live hd hwf1 hl1').2 _ hl] at hdead
      cases hdead

end

/-- C3 and C2 both leave the replicator at `p` alone. -/
def Settled (C : NetClass) (lo : LOPath) (n : Net) (p : PortId) : Prop :=
  c3Plan C lo n p = none ∧ c2Plan C lo n p = none

section

variable {C : NetClass} {n n' : Net} {lo : LOPath} {p0 p1 : PortId} {P : Net → ActivePair → Prop}

/-- What the checks before R5 do to the replicator at `p`. -/
theorem preFanRep_cases {p : PortId} {alive : Bool} (hwf : n.arena.WF) (hp : p.isEraser = false)
    (hl : n.portLive p = true) (h : n.preFanRep C p lo = .ok (n', alive)) :
    (alive = true ∧ n' = n ∧ Settled C lo n p) ∨
      (alive = false ∧ ∃ rw, c3Plan C lo n p = some rw ∧ rw.run n = .ok n') ∨
      (alive = false ∧ c3Plan C lo n p = none ∧
        ∃ rw, c2Plan C lo n p = some rw ∧ rw.run n = .ok n') := by
  have hlive := ((portLive_iff hp).mp hl).1
  obtain ⟨n1, h1, h2⟩ := bind_eq_ok.mp h
  rcases ((c3_check C lo).step_if h1).idle_or_dead (c3Plan_drops C lo) hwf hlive with
    ⟨hc3, rfl⟩ | ⟨⟨rw, hrw, hrun⟩, hdead⟩
  · simp only [hl, Bool.not_true, Bool.and_false, Bool.false_eq_true, if_false] at h2
    obtain ⟨n2, h3, h4⟩ := bind_eq_ok.mp h2
    rcases ((c2_check C lo).step_if h3).idle_or_dead (c2Plan_drops C lo) hwf hlive with
      ⟨hc2, rfl⟩ | ⟨⟨rw, hrw, hrun⟩, hdead⟩
    · simp only [hl, Bool.not_true, Bool.and_false, Bool.false_eq_true, if_false] at h4
      cases h4
      exact .inl ⟨rfl, rfl, hc3, hc2⟩
    · rw [portLive_of_dead hp hdead, (c2_check C lo).on_of_some hrw] at h4
      cases h4
      exact .inr (.inr ⟨rfl, hc3, rw, hrw, hrun⟩)
  · rw [portLive_of_dead hp hdead, (c3_check C lo).on_of_some hrw] at h2
    cases h2
    exact .inr (.inl ⟨rfl, rw, hrw, hrun⟩)

/-- Two checks in a row that leave at least one of the two ports dead. -/
def Twice (plan : Net → PortId → Option Rewrite) (n : Net) (p0 p1 : PortId) (n' : Net) : Prop :=
  ∃ n1, CStep (plan n p0) n n1 ∧ CStep (plan n1 p1) n1 n' ∧
    (n'.arena.isLive p0.slotIdx = false ∨ n'.arena.isLive p1.slotIdx = false)

/-- What the checks before R6 and R7 do: nothing, or C3 kills at least one of the two
replicators, or C2 does. -/
theorem preRepRep_cases {alive : Bool} (hwf : n.arena.WF) (hp0 : p0.isEraser = false)
    (hp1 : p1.isEraser = false) (hl0 : n.portLive p0 = true) (hl1 : n.portLive p1 = true)
    (hne : p0.slotIdx ≠ p1.slotIdx) (h : n.preRepRep C p0 p1 lo = .ok (n', alive)) :
    (alive = true ∧ n' = n ∧ Settled C lo n p0 ∧ Settled C lo n p1) ∨
      (alive = false ∧ Twice (c3Plan C lo) n p0 p1 n') ∨
      (alive = false ∧ c3Plan C lo n p0 = none ∧ c3Plan C lo n p1 = none ∧
        Twice (c2Plan C lo) n p0 p1 n') := by
  have hlive0 := ((portLive_iff hp0).mp hl0).1
  have hlive1 := ((portLive_iff hp1).mp hl1).1
  -- a check that left a port dead was not skipped, and it ends the dispatch
  have hdies : ∀ {m : Net}, (m.arena.isLive p0.slotIdx = false ∨ m.arena.isLive p1.slotIdx = false) →
      (!m.portLive p0 || !m.portLive p1) = true := by
    rintro m (hd | hd)
    · rw [portLive_of_dead hp0 hd]; rfl
    · rw [portLive_of_dead hp1 hd, Bool.not_false, Bool.or_true]
  have hlives : (!n.portLive p0 || !n.portLive p1) = false := by rw [hl0, hl1]; rfl
  have hskip : ∀ {m : Net} {b : Bool},
      (m.arena.isLive p0.slotIdx = false ∨ m.arena.isLive p1.slotIdx = false) →
      (b = false → m = n) → b = true := by
    intro m b hd hb
    cases b with
    | true => rfl
    | false =>
      rw [hb rfl, hlive0, hlive1] at hd
      simp at hd
  obtain ⟨n2, h1, h2⟩ := bind_eq_ok.mp h
  obtain ⟨n1, hc0, hc1⟩ := (c3_check C lo).twice_if h1
  rcases hc0.twice (c3Plan_drops C lo) hc1 hwf hp1 hlive0 hl1 hne with ⟨rfl, hn0, hn1⟩ | hdead
  · rw [hlives] at h2
    simp only [Bool.and_false, Bool.false_eq_true, if_false] at h2
    obtain ⟨n3, h3, h4⟩ := bind_eq_ok.mp h2
    obtain ⟨n4, hc0', hc1'⟩ := (c2_check C lo).twice_if h3
    rcases hc0'.twice (c2Plan_drops C lo) hc1' hwf hp1 hlive0 hl1 hne with
      ⟨rfl, hm0, hm1⟩ | hdead
    · rw [hlives] at h4
      simp only [Bool.and_false, Bool.false_eq_true, if_false] at h4
      cases h4
      exact .inl ⟨rfl, rfl, ⟨hn0, hm0⟩, hn1, hm1⟩
    · have hrep : C.hasRep = true := hskip hdead fun hb => by
        rw [hb] at h3
        exact (Except.ok.inj h3).symm
      rw [hdies hdead, hrep] at h4
      cases h4
      exact .inr (.inr ⟨rfl, hn0, hn1, n4, hc0', hc1', hdead⟩)
  · have hera : C.hasEra = true := hskip hdead fun hb => by
      rw [hb] at h1
      exact (Except.ok.inj h1).symm
    rw [hdies hdead, hera] at h2
    cases h2
    exact .inr (.inl ⟨rfl, n1, hc0, hc1, hdead⟩)

/-! ## What a fired pair does -/

/-- `p` is the agent of a pair whose other end is the eraser. -/
def EraFaces (p0 p1 p : PortId) : Prop :=
  p.isEraser = false ∧
    ((p0.isEraser = true ∧ p = p1) ∨ (p0.isEraser = false ∧ p1.isEraser = true ∧ p = p0))

theorem EraFaces.live {p : PortId} (he : EraFaces p0 p1 p) (hl0 : n.portLive p0 = true)
    (hl1 : n.portLive p1 = true) : n.portLive p = true := by
  rcases he.2 with ⟨-, rfl⟩ | ⟨-, -, rfl⟩
  · exact hl1
  · exact hl0

/-- The pair is a fan and a replicator, in either order. -/
def FanRep (n : Net) (p0 p1 fanP repP : PortId) : Prop :=
  ((fanP = p0 ∧ repP = p1) ∨ (fanP = p1 ∧ repP = p0)) ∧ (n.slot fanP).isFan = true ∧
    (n.slot repP).isRep = true

/-- The branch of `dispatchPhase1` that a pair takes. -/
inductive Dispatched (C : NetClass) (n : Net) (p0 p1 : PortId) (lo : LOPath) (n' : Net) : Prop where
  | void (h0 : p0.isEraser = true) (h1 : p1.isEraser = true) (hn : n' = n)
  | eraFan {p : PortId} (he : EraFaces p0 p1 p) (hf : (n.slot p).isFan = true)
      (h : n.eraAgent p lo = .ok n')
  | eraRep {p : PortId} (he : EraFaces p0 p1 p) (hf : (n.slot p).isFan = false)
      (h : n.dispatchEraRep C p lo = .ok n')
  | fanFan (h0 : p0.isEraser = false) (h1 : p1.isEraser = false) (hf0 : (n.slot p0).isFan = true)
      (hf1 : (n.slot p1).isFan = true) (h : n.r4FanFan p0 p1 lo = .ok n')
  | fanRep {fanP repP : PortId} (h0 : p0.isEraser = false) (h1 : p1.isEraser = false)
      (hfr : FanRep n p0 p1 fanP repP) (h : n.dispatchFanRep C fanP repP lo = .ok n')
  | repRep (h0 : p0.isEraser = false) (h1 : p1.isEraser = false) (hr0 : (n.slot p0).isRep = true)
      (hr1 : (n.slot p1).isRep = true) (h : n.dispatchRepRep C p0 p1 lo = .ok n')

theorem dispatched {pair : ActivePair} {stats stats' : ReduceStats}
    (h : n.dispatchPhase1 C pair stats = .ok (n', stats')) :
    Dispatched C n pair.p0.1 pair.p1.1 pair.lo n' := by
  have hfst {x : Except DnxError Net} {s : ReduceStats}
      (h : (do return (← x, s)) = Except.ok (n', stats')) : x = .ok n' := by
    obtain ⟨n1, hx, h⟩ := bind_eq_ok.mp h
    cases h
    exact hx
  have hera {p : PortId} (he : EraFaces pair.p0.1 pair.p1.1 p) {s s' : ReduceStats}
      (h : (if (n.slot p).isFan then do return (← n.eraAgent p pair.lo, s)
        else do return (← n.dispatchEraRep C p pair.lo, s')) = Except.ok (n', stats')) :
      Dispatched C n pair.p0.1 pair.p1.1 pair.lo n' := by
    split at h
    · next hf => exact .eraFan he hf (hfst h)
    · next hf => exact .eraRep he (by simpa using hf) (hfst h)
  unfold dispatchPhase1 at h
  dsimp only at h
  cases h0 : pair.p0.1.isEraser <;> cases h1 : pair.p1.1.isEraser <;>
    simp only [h0, h1, Bool.and_true, Bool.and_false, Bool.or_true, Bool.or_false,
      Bool.false_eq_true, if_true, if_false, Bool.and_eq_true] at h
  · -- two agents
    split at h
    · next hff => exact .fanFan h0 h1 hff.1 hff.2 (hfst h)
    · split at h
      · next hfr => exact .fanRep h0 h1 ⟨.inl ⟨rfl, rfl⟩, hfr⟩ (hfst h)
      · split at h
        · next hrf => exact .fanRep h0 h1 ⟨.inr ⟨rfl, rfl⟩, hrf.symm⟩ (hfst h)
        · split at h
          · next hrr => exact .repRep h0 h1 hrr.1 hrr.2 (hfst h)
          · cases h
  · exact hera ⟨h0, .inr ⟨h0, h1, rfl⟩⟩ h
  · exact hera ⟨h1, .inl ⟨h0, rfl⟩⟩ h
  · cases h
    exact .void h0 h1 rfl

/-- The rewrites a fired pair stands for. -/
inductive Fires (C : NetClass) (n : Net) (p0 p1 : PortId) (lo : LOPath) (n' : Net) : Prop where
  /-- R1. -/
  | void (h0 : p0.isEraser = true) (h1 : p1.isEraser = true) (hn : n' = n)
  /-- R2, R3. -/
  | erase {p : PortId} {rw : Rewrite} (he : EraFaces p0 p1 p)
      (hc : (n.slot p).isFan = false → c3Plan C lo n p = none)
      (hrw : n.eraRewrite p lo = .ok rw) (hrun : rw.run n = .ok n')
  /-- C3 instead of R3. -/
  | decayEra {p : PortId} {rw : Rewrite} (he : EraFaces p0 p1 p) (hf : (n.slot p).isFan = false)
      (hrw : c3Plan C lo n p = some rw) (hrun : rw.run n = .ok n')
  /-- R4. -/
  | beta {rw : Rewrite} (h0 : p0.isEraser = false) (h1 : p1.isEraser = false)
      (hf0 : (n.slot p0).isFan = true) (hf1 : (n.slot p1).isFan = true)
      (hrw : n.r4Rewrite p0 p1 lo = .ok rw) (hrun : rw.run n = .ok n')
  /-- R5. -/
  | commute {fanP repP : PortId} {rw : Rewrite} (h0 : p0.isEraser = false)
      (h1 : p1.isEraser = false) (hfr : FanRep n p0 p1 fanP repP) (hs : Settled C lo n repP)
      (hrw : n.r5Rewrite fanP repP lo = .ok rw) (hrun : rw.run n = .ok n')
  /-- C3 instead of R5. -/
  | decay {fanP repP : PortId} {rw : Rewrite} (h0 : p0.isEraser = false)
      (h1 : p1.isEraser = false) (hfr : FanRep n p0 p1 fanP repP)
      (hrw : c3Plan C lo n repP = some rw) (hrun : rw.run n = .ok n')
  /-- C2 instead of R5. -/
  | merge {fanP repP : PortId} {rw : Rewrite} (h0 : p0.isEraser = false)
      (h1 : p1.isEraser = false) (hfr : FanRep n p0 p1 fanP repP)
      (hc : c3Plan C lo n repP = none) (hrw : c2Plan C lo n repP = some rw)
      (hrun : rw.run n = .ok n')
  /-- C3 instead of R6 or R7. -/
  | decays (h0 : p0.isEraser = false) (h1 : p1.isEraser = false)
      (hr0 : (n.slot p0).isRep = true) (hr1 : (n.slot p1).isRep = true)
      (ht : Twice (c3Plan C lo) n p0 p1 n')
  /-- C2 instead of R6 or R7. -/
  | merges (h0 : p0.isEraser = false) (h1 : p1.isEraser = false)
      (hr0 : (n.slot p0).isRep = true) (hr1 : (n.slot p1).isRep = true)
      (hc0 : c3Plan C lo n p0 = none) (hc1 : c3Plan C lo n p1 = none)
      (ht : Twice (c2Plan C lo) n p0 p1 n')
  /-- R6. -/
  | annihilate {rw : Rewrite} (h0 : p0.isEraser = false) (h1 : p1.isEraser = false)
      (hr0 : (n.slot p0).isRep = true) (hr1 : (n.slot p1).isRep = true)
      (hs0 : Settled C lo n p0) (hs1 : Settled C lo n p1)
      (hl : (n.slot p0).label = (n.slot p1).label)
      (hrw : n.r6Rewrite p0 p1 lo = .ok rw) (hrun : rw.run n = .ok n')
  /-- R7. -/
  | cross {rw : Rewrite} (h0 : p0.isEraser = false) (h1 : p1.isEraser = false)
      (hr0 : (n.slot p0).isRep = true) (hr1 : (n.slot p1).isRep = true)
      (hs0 : Settled C lo n p0) (hs1 : Settled C lo n p1)
      (hl : (n.slot p0).label ≠ (n.slot p1).label)
      (hrw : n.r7Rewrite p0 p1 lo = .ok rw) (hrun : rw.run n = .ok n')

theorem dispatchEraRep_fires {p : PortId} (hwf : n.arena.WF) (hl : n.portLive p = true)
    (he : EraFaces p0 p1 p) (hf : (n.slot p).isFan = false) (h : n.dispatchEraRep C p lo = .ok n') :
    Fires C n p0 p1 lo n' := by
  have hlive := ((portLive_iff he.1).mp hl).1
  unfold dispatchEraRep at h
  split at h
  · next hera =>
    obtain ⟨n1, h1, h2⟩ := bind_eq_ok.mp h
    rcases (c3_cstep h1).idle_or_dead (c3Plan_drops C lo) hwf hlive with
      ⟨hc3, rfl⟩ | ⟨⟨rw, hrw, hrun⟩, hdead⟩
    · simp only [hl, Bool.not_true, Bool.false_eq_true, if_false] at h2
      obtain ⟨rw, hrw, hrun⟩ := eraAgent_ok h2
      exact .erase he (fun _ => hc3) hrw hrun
    · rw [portLive_of_dead he.1 hdead] at h2
      cases h2
      exact .decayEra he hf hrw hrun
  · next hera =>
    obtain ⟨rw, hrw, hrun⟩ := eraAgent_ok h
    exact .erase he (fun _ => if_neg fun h' => hera (by rw [h']; rfl)) hrw hrun

theorem dispatchFanRep_fires {fanP repP : PortId} (hwf : n.arena.WF) (h0 : p0.isEraser = false)
    (h1 : p1.isEraser = false) (hl : n.portLive repP = true) (hfr : FanRep n p0 p1 fanP repP)
    (h : n.dispatchFanRep C fanP repP lo = .ok n') : Fires C n p0 p1 lo n' := by
  have hrep : repP.isEraser = false := by
    rcases hfr.1 with ⟨-, rfl⟩ | ⟨-, rfl⟩
    · exact h1
    · exact h0
  obtain ⟨⟨n1, alive⟩, hpre, h2⟩ := bind_eq_ok.mp h
  rcases preFanRep_cases hwf hrep hl hpre with
    ⟨rfl, rfl, hs⟩ | ⟨rfl, rw, hrw, hrun⟩ | ⟨rfl, hc, rw, hrw, hrun⟩
  · obtain ⟨rw, hrw, hrun⟩ := r5FanRep_ok h2
    exact .commute h0 h1 hfr hs hrw hrun
  · cases h2
    exact .decay h0 h1 hfr hrw hrun
  · cases h2
    exact .merge h0 h1 hfr hc hrw hrun

theorem dispatchRepRep_fires (hwf : n.arena.WF) (h0 : p0.isEraser = false)
    (h1 : p1.isEraser = false) (hl0 : n.portLive p0 = true) (hl1 : n.portLive p1 = true)
    (hne : p0.slotIdx ≠ p1.slotIdx) (hr0 : (n.slot p0).isRep = true)
    (hr1 : (n.slot p1).isRep = true) (h : n.dispatchRepRep C p0 p1 lo = .ok n') :
    Fires C n p0 p1 lo n' := by
  obtain ⟨⟨n1, alive⟩, hpre, h2⟩ := bind_eq_ok.mp h
  rcases preRepRep_cases hwf h0 h1 hl0 hl1 hne hpre with
    ⟨rfl, rfl, hs0, hs1⟩ | ⟨rfl, ht⟩ | ⟨rfl, hc0, hc1, ht⟩
  · simp only [Bool.not_true, Bool.false_eq_true, if_false] at h2
    split at h2
    · next hl =>
      obtain ⟨rw, hrw, hrun⟩ := r6RepRep_ok h2
      exact .annihilate h0 h1 hr0 hr1 hs0 hs1 hl hrw hrun
    · next hl =>
      obtain ⟨rw, hrw, hrun⟩ := r7RepRep_ok h2
      exact .cross h0 h1 hr0 hr1 hs0 hs1 hl hrw hrun
  · cases h2
    exact .decays h0 h1 hr0 hr1 ht
  · cases h2
    exact .merges h0 h1 hr0 hr1 hc0 hc1 ht

/-- The inversion of `dispatchPhase1` on a pair that is not stale and whose ends, if both
are agents, have different slots. -/
theorem dispatch_fires {pair : ActivePair} {stats stats' : ReduceStats} (hwf : n.arena.WF)
    (hlive : n.isStalePair pair = false)
    (hne : pair.p0.1.isEraser = false → pair.p1.1.isEraser = false →
      pair.p0.1.slotIdx ≠ pair.p1.1.slotIdx)
    (h : n.dispatchPhase1 C pair stats = .ok (n', stats')) :
    Fires C n pair.p0.1 pair.p1.1 pair.lo n' := by
  obtain ⟨hl0, hl1⟩ := portLive_of_not_stale hlive
  rcases dispatched h with ⟨h0, h1, hn⟩ | ⟨he, hf, h⟩ | ⟨he, hf, h⟩ | ⟨h0, h1, hf0, hf1, h⟩ |
    ⟨h0, h1, hfr, h⟩ | ⟨h0, h1, hr0, hr1, h⟩
  · exact .void h0 h1 hn
  · obtain ⟨rw, hrw, hrun⟩ := eraAgent_ok h
    exact .erase he (fun hf' => absurd hf (by simp [hf'])) hrw hrun
  · exact dispatchEraRep_fires hwf (he.live hl0 hl1) he hf h
  · obtain ⟨rw, hrw, hrun⟩ := r4FanFan_ok h
    exact .beta h0 h1 hf0 hf1 hrw hrun
  · refine dispatchFanRep_fires hwf h0 h1 ?_ hfr h
    rcases hfr.1 with ⟨-, rfl⟩ | ⟨-, rfl⟩
    · exact hl1
    · exact hl0
  · exact dispatchRepRep_fires hwf h0 h1 hl0 hl1 (hne h0 h1) hr0 hr1 h

/-! ## The pairs of a run -/

/-- `P` holds of every pair that phase 1 pops on its way from `st`, in the net without it. -/
def Pops (C : NetClass) (P : Net → ActivePair → Prop) (st : Net × ReduceStats) : Prop :=
  ∀ st', Runs (phase1Round C) st st' → ∀ k pair rest,
    st'.1.frontier1.popFirst = some ((k, pair), rest) → P { st'.1 with frontier1 := rest } pair

theorem Pops.next {st st' : Net × ReduceStats} (h : Pops C P st)
    (hr : phase1Round C st = .ok (.next st')) : Pops C P st' :=
  fun st'' hruns => h st'' (.head hr hruns)

/-- Run phase 1 and check every pair it pops; `false` when the fuel does not suffice. -/
def popsUpTo (C : NetClass) (check : Net → ActivePair → Bool) : Nat → Net × ReduceStats → Bool
  | 0, _ => false
  | fuel + 1, st =>
    (match st.1.frontier1.popFirst with
      | none => true
      | some ((_, pair), rest) => check { st.1 with frontier1 := rest } pair) &&
    match phase1Round C st with
    | .ok (.next st') => popsUpTo C check fuel st'
    | .ok (.done _) | .error _ => true

theorem pops_of_upTo {check : Net → ActivePair → Bool}
    (hcheck : ∀ n pair, check n pair = true → P n pair) :
    ∀ {fuel : Nat} {st : Net × ReduceStats}, popsUpTo C check fuel st = true → Pops C P st
  | 0, _, h => nomatch h
  | fuel + 1, st, h => by
    rw [popsUpTo, Bool.and_eq_true] at h
    intro st' hruns
    rcases Relation.ReflTransGen.cases_head hruns with rfl | ⟨st1, hst1, hruns⟩
    · intro k pair rest hpop
      have h1 := h.1
      rw [hpop] at h1
      exact hcheck _ _ h1
    · have h2 := h.2
      rw [hst1] at h2
      exact pops_of_upTo hcheck h2 st' hruns

end

end Net

end Dnet
