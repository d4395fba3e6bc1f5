import Dnet.Reduce.Effect
import Mathlib.Data.Set.Finite.Basic

/-!
# The agents a reduction can make

Reduction allocates fans and replicators only, finitely many in a step, and never changes the
kind of an agent (`KindStep`). So a net without primitive agents stays without them, and a net
of fans and replicators stays one. No assumption on the bookkeeping of the arena is needed.
-/

namespace Dnet

open Lib List

namespace Net

/-- Slot `i` is on the live list or in its index. -/
def Agent (n : Net) (i : Nat) : Prop := i ∈ n.arena.liveList ∨ n.arena.isLive i = true

/-- The agents of every net that the code can build. -/
def AgentsFinite (n : Net) : Prop := {i | n.Agent i}.Finite

theorem AgentsFinite.of_agents {n n' : Net} (h : n.AgentsFinite)
    (hsub : ∀ i, n'.Agent i → n.Agent i) :
    n'.AgentsFinite := Set.Finite.subset h hsub

/-- From `n` to `n'`, every slot keeps its kind and becomes no agent, or it is a fan or a
replicator. -/
structure KindStep (n n' : Net) : Prop where
  kinds : ∀ i, ((n'.arena.slots i).kind = (n.arena.slots i).kind ∧ (n'.Agent i → n.Agent i)) ∨
    (n'.arena.slots i).kind.structural = true
  finite : n.AgentsFinite → n'.AgentsFinite

theorem KindStep.of_agents {n n' : Net}
    (h : ∀ i, (n'.arena.slots i).kind = (n.arena.slots i).kind ∧ (n'.Agent i → n.Agent i)) :
    KindStep n n' := ⟨fun i => .inl (h i), fun hfin => hfin.of_agents fun i => (h i).2⟩

theorem KindStep.refl (n : Net) : KindStep n n := .of_agents fun _ => ⟨rfl, fun h => h⟩

theorem KindStep.trans {n1 n2 n3 : Net} (h1 : KindStep n1 n2) (h2 : KindStep n2 n3) :
    KindStep n1 n3 := by
  refine ⟨fun i => ?_, fun hfin => h2.finite (h1.finite hfin)⟩
  rcases h2.kinds i with ⟨hk2, ha2⟩ | hs2
  · rcases h1.kinds i with ⟨hk1, ha1⟩ | hs1
    · exact .inl ⟨hk2.trans hk1, fun h => ha1 (ha2 h)⟩
    · exact .inr (by rw [hk2, hs1])
  · exact .inr hs2

section

variable {n n' : Net} {i : Nat} {p p0 p1 : PortId} {lo : LOPath} {C : NetClass} {b : Bool}
  {rw : Rewrite} {fanP repP : PortId}

theorem kindStep_of_same (hk : ∀ i, (n'.bodyAt i).kind = (n.bodyAt i).kind)
    (hl : n'.arena.liveList = n.arena.liveList) (hp : n'.arena.livePos = n.arena.livePos) :
    KindStep n n' := by
  refine .of_agents fun i => ⟨hk i, ?_⟩
  unfold Agent Arena.isLive
  rw [hl, hp]
  exact fun h => h

theorem kindStep_writePort (n : Net) (p v : PortId) : KindStep n (n.writePort p v) := by
  refine kindStep_of_same (fun i => by rw [bodyAt_writePort]) ?_ ?_ <;>
  · unfold writePort
    split <;> rfl

theorem kindStep_linkNoPair (n : Net) (a b : PortId) : KindStep n (n.linkNoPair a b) :=
  (kindStep_writePort n a b).trans (kindStep_writePort _ b a)

theorem kindStep_connect (n : Net) (a b : PortId) (lo : LOPath) : KindStep n (n.connect a b lo) := by
  refine (kindStep_linkNoPair n a b).trans (kindStep_of_same (fun i => ?_) ?_ ?_)
  · rw [bodyAt_connect, bodyAt_linkNoPair]
  · rw [arena_connect]
  · rw [arena_connect]

theorem kindStep_setEraserOnPort (n : Net) (p : PortId) : KindStep n (n.setEraserOnPort p) := by
  refine kindStep_of_same (fun i => by rw [bodyAt_setEraserOnPort]) ?_ ?_ <;>
  · unfold setEraserOnPort
    split <;> rfl

theorem kindStep_relabelSlot (n : Net) (r : Option (Nat × Nat × Int × Int)) :
    KindStep n (n.relabelSlot r) := by
  refine kindStep_of_same (fun i => (bodyAt_relabelSlot n r i).1) ?_ ?_ <;> cases r <;> rfl

theorem mem_swapRemove {l : List Nat} {pos x : Nat} (h : x ∈ Arena.swapRemove l pos) : x ∈ l := by
  have h' := dropLast_subset _ h
  rcases mem_or_eq_of_mem_set h' with h' | h'
  · exact h'
  · cases l with
    | nil => simp [Arena.swapRemove] at h
    | cons y ys =>
      rw [h', getLastD_cons]
      exact getLastD_mem_cons

/-- A retirement makes no new agent: the slot that moves on the live list was on it. -/
theorem agent_of_retire {j : Nat} : (n.retire i).Agent j → n.Agent j := by
  unfold Agent retire Arena.retireSlot Arena.isLive Arena.unlist
  dsimp only
  cases hp : n.arena.livePos i with
  | none => exact fun h => h
  | some pos =>
    dsimp only
    rintro (h | h)
    · exact .inl (mem_swapRemove h)
    · cases hm : (Arena.swapRemove n.arena.liveList pos)[pos]? with
      | none =>
        rw [hm] at h
        dsimp only at h
        split at h
        · cases h
        · exact .inr h
      | some moved =>
        rw [hm] at h
        dsimp only at h
        split at h
        · next hj =>
          subst hj
          exact .inl (mem_swapRemove (mem_of_getElem? hm))
        · split at h
          · cases h
          · exact .inr h

theorem kindStep_retire (n : Net) (i : Nat) : KindStep n (n.retire i) :=
  .of_agents fun _ => ⟨by simp [retire], agent_of_retire⟩

/-- An allocation makes one new agent, on a slot of the free list or past the last one. -/
theorem agent_of_allocSlot {a : Arena} {j : Nat} (h : n.arena.allocSlot = .ok (i, a))
    (hj : j ∈ a.liveList ∨ a.isLive j = true) : j = i ∨ n.Agent j := by
  have hlist : a.liveList = n.arena.liveList ++ [i] := by
    unfold Arena.allocSlot at h
    split at h
    · cases h; rfl
    · split at h
      · cases h
      · cases h; rfl
  rcases hj with hj | hj
  · rw [hlist, mem_append] at hj
    rcases hj with hj | hj
    · exact .inr (.inl hj)
    · exact .inl (mem_singleton.mp hj)
  · rw [(Arena.allocSlot_ok h).2, Bool.or_eq_true, decide_eq_true_iff] at hj
    exact hj.imp_right .inr

theorem AgentsFinite.allocAgent {kind : AgentKind} {data : Nat} {d0 d1 : Int} {ps : AgentPorts}
    (hfin : n.AgentsFinite) (h : n.allocAgent kind data d0 d1 = .ok (ps, n')) : n'.AgentsFinite := by
  obtain ⟨⟨i, a⟩, ha, h⟩ := bind_eq_ok.mp h
  cases h
  exact (hfin.insert i).subset fun j hj => agent_of_allocSlot ha hj

theorem kindStep_alloc {kind : AgentKind} {data : Nat} {d0 d1 : Int} {ps : AgentPorts}
    (hk : kind.structural = true) (h : n.allocAgent kind data d0 d1 = .ok (ps, n')) :
    KindStep n n' := by
  refine ⟨fun j => ?_, fun hfin => hfin.allocAgent h⟩
  obtain ⟨⟨i, a⟩, ha, h⟩ := bind_eq_ok.mp h
  cases h
  by_cases hj : j = i
  · subst hj
    exact .inr (by simpa [slots_modifySlot] using hk)
  · obtain ⟨g, hg⟩ := (Arena.allocSlot_ok ha).1
    refine .inl ⟨by simp [slots_modifySlot, hj, hg], fun h => ?_⟩
    exact (agent_of_allocSlot ha h).resolve_left hj

theorem kindStep_foldl {α : Type} {f : Net → α → Net} (hf : ∀ n a, KindStep n (f n a)) :
    ∀ (as : List α) (n : Net), KindStep n (as.foldl f n)
  | [], n => .refl n
  | a :: as, n => (hf n a).trans (kindStep_foldl hf as (f n a))

theorem kindStep_link (n : Net) (ps : List AgentPorts) (l : Link) : KindStep n (n.link ps l) := by
  unfold link
  split
  · exact kindStep_linkNoPair _ _ _
  · exact kindStep_connect _ _ _ _

theorem kindStep_run (hk : ∀ s ∈ rw.news, s.1.structural = true)
    (h : rw.run n = .ok n') : KindStep n n' := by
  obtain ⟨⟨ps, n2⟩, ha, h⟩ := bind_eq_ok.mp h
  cases h
  exact ((((kindStep_foldl kindStep_setEraserOnPort _ n).trans (kindStep_relabelSlot _ _)).trans
    (allocAll_rec (.refl _) (fun s hs _ _ _ h h' => h.trans (kindStep_alloc (hk s hs) h')) ha)).trans
    (kindStep_foldl kindStep_retire _ _)).trans
    (kindStep_foldl (fun n l => kindStep_link n ps l) _ _)

theorem KindStep.structural (h : KindStep n n') (hs : (n.arena.slots i).kind.structural = true) :
    (n'.arena.slots i).kind.structural = true := by
  rcases h.kinds i with ⟨hk, _⟩ | hs'
  · rw [hk, hs]
  · exact hs'

theorem r5Rewrite_news (h : n.r5Rewrite fanP repP lo = .ok rw) :
    ∀ s ∈ rw.news, s.1.structural = true := by
  rcases r5Rewrite_eq_ok h with ⟨-, -, lo0, lo1, k0, k1, -, rfl⟩ |
    ⟨fan, rep, rep', k0, k1, k2, k3, hfan, hrep, hrep', -, rfl⟩
  · have hfan : (if (n.slot fanP).fanIsAbs then AgentKind.fanAbs else .fanApp).structural = true := by
      split <;> rfl
    simp [Rewrite.splits, hfan]
  · simp [Rewrite.crosses, hfan, hrep, hrep']

theorem r7Rewrite_news (h0 : (n.slot p0).kind.structural = true)
    (h1 : (n.slot p1).kind.structural = true) (h : n.r7Rewrite p0 p1 lo = .ok rw) :
    ∀ s ∈ rw.news, s.1.structural = true := by
  obtain ⟨a, b, lv0, lv1, k0, k1, k2, k3, hab, -, -, -, rfl⟩ := r7Rewrite_eq_ok h
  have hkinds : (n.slot a).kind.structural = true ∧ (n.slot b).kind.structural = true := by
    unfold hiLo at hab
    split at hab <;> cases hab
    · exact ⟨h0, h1⟩
    · exact ⟨h1, h0⟩
  simp [Rewrite.crosses, hkinds]

theorem kindStep_eraAgent (h : n.eraAgent p lo = .ok n') : KindStep n n' := by
  obtain ⟨rw, hplan, hrun⟩ := eraAgent_ok h
  obtain ⟨lo0, lo1, -, rfl⟩ := eraRewrite_eq_ok hplan
  exact kindStep_run (fun s hs => absurd hs not_mem_nil) hrun

theorem kindStep_r4FanFan (h : n.r4FanFan p0 p1 lo = .ok n') : KindStep n n' := by
  obtain ⟨rw, hplan, hrun⟩ := r4FanFan_ok h
  obtain ⟨a, b, -, ⟨-, -, rfl⟩ | ⟨lo0, lo1, -, rfl⟩⟩ := r4Rewrite_eq_ok hplan <;>
    exact kindStep_run (fun s hs => absurd hs not_mem_nil) hrun

theorem kindStep_r5FanRep (h : n.r5FanRep fanP repP lo = .ok n') : KindStep n n' := by
  obtain ⟨rw, hplan, hrun⟩ := r5FanRep_ok h
  exact kindStep_run (r5Rewrite_news hplan) hrun

theorem kindStep_r6RepRep (h : n.r6RepRep p0 p1 lo = .ok n') : KindStep n n' := by
  obtain ⟨rw, hplan, hrun⟩ := r6RepRep_ok h
  obtain ⟨lo0, lo1, -, rfl⟩ := r6Rewrite_eq_ok hplan
  exact kindStep_run (fun s hs => absurd hs not_mem_nil) hrun

theorem kindStep_r7RepRep (h0 : (n.slot p0).kind.structural = true)
    (h1 : (n.slot p1).kind.structural = true) (h : n.r7RepRep p0 p1 lo = .ok n') :
    KindStep n n' := by
  obtain ⟨rw, hplan, hrun⟩ := r7RepRep_ok h
  exact kindStep_run (r7Rewrite_news h0 h1 hplan) hrun

theorem kindStep_cstep {plan : Net → PortId → Option Rewrite} (hd : Drops plan)
    (h : CStep (plan n p) n n') : KindStep n n' := by
  cases h with
  | idle _ hn => exact hn ▸ .refl n
  | act hp hrun =>
    refine kindStep_run (fun s hs => ?_) hrun
    rw [(hd n p _ hp).2] at hs
    cases hs

/-! ## Dispatch -/

theorem kindStep_dispatchEraRep (h : n.dispatchEraRep C p lo = .ok n') : KindStep n n' := by
  unfold dispatchEraRep at h
  split at h
  · obtain ⟨n1, h3, h⟩ := bind_eq_ok.mp h
    have s1 := kindStep_cstep (c3Plan_drops C lo) (c3_cstep h3)
    split at h
    · cases h
      exact s1
    · exact s1.trans (kindStep_eraAgent h)
  · exact kindStep_eraAgent h

theorem kindStep_preFanRep (h : n.preFanRep C p lo = .ok (n', b)) : KindStep n n' := by
  obtain ⟨n1, h3, h⟩ := bind_eq_ok.mp h
  have s1 := kindStep_cstep (c3Plan_drops C lo) ((c3_check C lo).step_if h3)
  split at h
  · cases h
    exact s1
  · obtain ⟨n2, h2, h⟩ := bind_eq_ok.mp h
    have s2 := kindStep_cstep (c2Plan_drops C lo) ((c2_check C lo).step_if h2)
    split at h <;>
    · cases h
      exact s1.trans s2

theorem kindStep_preRepRep (h : n.preRepRep C p0 p1 lo = .ok (n', b)) : KindStep n n' := by
  obtain ⟨n1, h3, h⟩ := bind_eq_ok.mp h
  obtain ⟨m, hm, hm'⟩ := (c3_check C lo).twice_if h3
  have s1 := (kindStep_cstep (c3Plan_drops C lo) hm).trans (kindStep_cstep (c3Plan_drops C lo) hm')
  split at h
  · cases h
    exact s1
  · obtain ⟨n2, h2, h⟩ := bind_eq_ok.mp h
    obtain ⟨m, hm, hm'⟩ := (c2_check C lo).twice_if h2
    have s2 := (kindStep_cstep (c2Plan_drops C lo) hm).trans (kindStep_cstep (c2Plan_drops C lo) hm')
    split at h <;>
    · cases h
      exact s1.trans s2

/-- Whatever pair is fired, only fans and replicators are made. -/
theorem kindStep_dispatchPhase1 {pair : ActivePair} {st st' : ReduceStats}
    (h : n.dispatchPhase1 C pair st = .ok (n', st')) : KindStep n n' := by
  rcases dispatched h with ⟨-, -, rfl⟩ | ⟨-, -, h⟩ | ⟨-, -, h⟩ | ⟨-, -, -, -, h⟩ | ⟨-, -, -, h⟩ |
    ⟨-, -, hr0, hr1, h⟩
  · exact .refl _
  · exact kindStep_eraAgent h
  · exact kindStep_dispatchEraRep h
  · exact kindStep_r4FanFan h
  · obtain ⟨⟨n2, b⟩, hp, h⟩ := bind_eq_ok.mp h
    dsimp only at h
    split at h
    · exact (kindStep_preFanRep hp).trans (kindStep_r5FanRep h)
    · cases h
      exact kindStep_preFanRep hp
  · obtain ⟨⟨n2, b⟩, hp, h⟩ := bind_eq_ok.mp h
    have s2 := kindStep_preRepRep hp
    dsimp only at h
    split at h
    · cases h
      exact s2
    · split at h
      · exact s2.trans (kindStep_r6RepRep h)
      · exact s2.trans (kindStep_r7RepRep (s2.structural (Slot.structural_of_isRep hr0))
          (s2.structural (Slot.structural_of_isRep hr1)) h)

/-! ## Nets without primitive agents -/

/-- No agent of the net is a primitive value or function. -/
def NoPrim (n : Net) : Prop := ∀ i, i = 0 ∨ n.Agent i → (n.arena.slots i).isPrim = false

theorem not_isPrim_of_structural {s : Slot} (h : s.kind.structural = true) : s.isPrim = false := by
  unfold Slot.isPrim
  split
  · next hk => rw [hk] at h; cases h
  · next hk => rw [hk] at h; cases h
  · rfl

theorem NoPrim.of_kindStep (hn : NoPrim n) (h : KindStep n n') : NoPrim n' := by
  intro i hi
  rcases h.kinds i with ⟨hk, ha⟩ | hs
  · have hprim := hn i (hi.imp_right ha)
    unfold Slot.isPrim at hprim ⊢
    rwa [hk]
  · exact not_isPrim_of_structural hs

end

end Net

end Dnet
