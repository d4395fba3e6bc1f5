import Dnet.Reduce.Kinds
import Dnet.Reduce.Prim

/-!
# Reduction with primitives on a net without them

`normalize_with_prims` (reduce/mod.rs) looks at both slots of a pair before it knows
whether an end is the virtual eraser. The eraser's slot is the sentinel slot 0, which
is free, and a pair with a free end is taken for a delivered result. So an eraser that
meets a fan or a replicator stays where it is, and the two reducers agree on exactly the other
pairs (`stepWithPrims_iff`).
-/

namespace Dnet

open Lib Option

namespace Net

variable {P : Type}

/-- Both ends are the eraser, or both are agents and none is a free slot. -/
def StructuralPair (n : Net) (pair : ActivePair) : Prop :=
  (pair.p0.1 = .era ∧ pair.p1.1 = .era) ∨ (pair.p0.1.isEraser = false ∧ pair.p1.1.isEraser = false ∧
      (n.slot pair.p0.1).isFree = false ∧ (n.slot pair.p1.1).isFree = false)

instance (n : Net) (pair : ActivePair) : Decidable (n.StructuralPair pair) :=
  inferInstanceAs (Decidable (_ ∨ _))

/-! ## One step -/

theorem tagIs_of_not_isPrim {s : Slot} (h : s.isPrim = false) :
    s.tagIs .primFun = false ∧ s.tagIs .primVal = false := by
  unfold Slot.isPrim at h
  split at h
  · cases h
  · cases h
  · next h1 h2 =>
    exact ⟨by simp [Slot.tagIs, show s.kind ≠ .primFun from h2],
      by simp [Slot.tagIs, show s.kind ≠ .primVal from h1]⟩

section

variable {C : NetClass} {apply : PrimApply P} {cfg : NormalizeConfig} {n n' : Net}
  {pair : ActivePair} {p : PortId} {stats : ReduceStats} {ps : PrimState P}

/-- Where neither slot is primitive, every test of the chain fails but the first. -/
theorem stepWithPrims_of_not_isPrim (h0 : (n.slot pair.p0.1).isPrim = false)
    (h1 : (n.slot pair.p1.1).isPrim = false) (fuel : Nat) (ps : PrimState P) (stats : ReduceStats) :
    n.stepWithPrims C apply cfg (fuel + 1) ps pair stats =
      if (n.slot pair.p0.1).isFree || (n.slot pair.p1.1).isFree then
        ofExcept (.ok (n, ps, stats))
      else ofExcept ((n.dispatchPhase1 C pair stats).map fun r => (r.1, ps, r.2)) := by
  obtain ⟨hf0, hv0⟩ := tagIs_of_not_isPrim h0
  obtain ⟨hf1, hv1⟩ := tagIs_of_not_isPrim h1
  have happ : n.appPrim pair = none := by simp [appPrim, hf0, hf1]
  have hbool : n.appBool ps pair = none := by simp [appBool, hv0, hv1]
  have hval : n.repPrim pair .primVal = none := by simp [repPrim, hv0, hv1]
  have hfun : n.repPrim pair .primFun = none := by simp [repPrim, hf0, hf1]
  rw [stepWithPrims]
  simp only [hf0, hv0, happ, hbool, hval, hfun, Bool.false_and, Bool.or_self,
    Bool.false_eq_true, if_false]
  split
  · rfl
  · cases n.dispatchPhase1 C pair stats <;> rfl

theorem NoPrim.not_isPrim (hn : NoPrim n) (hl : n.portLive p = true)
    (he : p.isEraser = true → p = .era) : (n.slot p).isPrim = false := by
  cases hp : p.isEraser with
  | true =>
    rw [he hp]
    exact hn 0 (.inl rfl)
  | false => exact hn p.slotIdx (.inr (.inr ((portLive_iff hp).mp hl).1))

theorem StructuralPair.eq_era (hs : n.StructuralPair pair) :
    (pair.p0.1.isEraser = true → pair.p0.1 = .era) ∧
      (pair.p1.1.isEraser = true → pair.p1.1 = .era) := by
  rcases hs with ⟨h0, h1⟩ | ⟨h0, h1, -⟩
  · exact ⟨fun _ => h0, fun _ => h1⟩
  · exact ⟨fun h => absurd h (by simp [h0]), fun h => absurd h (by simp [h1])⟩

theorem stepWithPrims_of_structural (hn : NoPrim n) (hl : n.isStalePair pair = false)
    (hs : n.StructuralPair pair) (fuel : Nat) (ps : PrimState P) (stats : ReduceStats) :
    n.stepWithPrims C apply cfg (fuel + 1) ps pair stats =
      ofExcept ((n.dispatchPhase1 C pair stats).map fun r => (r.1, ps, r.2)) := by
  obtain ⟨hl0, hl1⟩ := portLive_of_not_stale hl
  rw [stepWithPrims_of_not_isPrim (hn.not_isPrim hl0 hs.eq_era.1) (hn.not_isPrim hl1 hs.eq_era.2)]
  split
  · next hfree =>
    rcases hs with ⟨h0, h1⟩ | ⟨-, -, h0, h1⟩
    · -- two erasers: R1 does nothing either
      simp only [dispatchPhase1, h0, h1]
      rfl
    · rw [h0, h1] at hfree
      cases hfree
  · rfl

/-! ## The pairs on which a step differs -/

theorem freeList_linkNoPair (n : Net) (a b : PortId) :
    (n.linkNoPair a b).arena.freeList = n.arena.freeList := by
  unfold linkNoPair writePort modifySlot
  split <;> split <;> rfl

theorem freeList_link (n : Net) (ps : List AgentPorts) (l : Link) :
    (n.link ps l).arena.freeList = n.arena.freeList := by
  unfold link
  split
  · exact freeList_linkNoPair _ _ _
  · rw [arena_connect]
    exact freeList_linkNoPair _ _ _

theorem freeList_setEraserOnPort (n : Net) (p : PortId) :
    (n.setEraserOnPort p).arena.freeList = n.arena.freeList := by
  unfold setEraserOnPort
  split <;> rfl

theorem freeList_run {rw : Rewrite} {i : Nat} (hnew : rw.news = []) (hret : rw.retired = [i])
    (h : rw.run n = .ok n') : n'.arena.freeList = i :: n.arena.freeList := by
  obtain ⟨⟨ps, n1⟩, ha, h⟩ := bind_eq_ok.mp h
  rw [hnew] at ha
  cases ha
  cases h
  have hrel (m : Net) : (m.relabelSlot rw.relabel).arena.freeList = m.arena.freeList := by
    cases rw.relabel <;> rfl
  rw [foldl_frame (fun n : Net => n.arena.freeList) (fun n l => freeList_link n [] l), hret]
  show i :: _ = _
  rw [hrel, foldl_frame (fun n : Net => n.arena.freeList) freeList_setEraserOnPort]

theorem freeList_eraAgent {lo : LOPath} (h : n.eraAgent p lo = .ok n') :
    n'.arena.freeList = p.slotIdx :: n.arena.freeList := by
  obtain ⟨rw, hplan, hrun⟩ := eraAgent_ok h
  obtain ⟨lo0, _, hplan⟩ := bind_eq_ok.mp hplan
  obtain ⟨lo1, _, hplan⟩ := bind_eq_ok.mp hplan
  cases hplan
  exact freeList_run rfl rfl hrun

/-- The eraser always consumes what it meets: C3 or R3 frees a slot. -/
theorem freeList_dispatchEraRep {lo : LOPath} (hl : n.portLive p = true)
    (h : n.dispatchEraRep C p lo = .ok n') :
    n.arena.freeList.length < n'.arena.freeList.length := by
  unfold dispatchEraRep at h
  split at h
  · obtain ⟨n1, h3, h'⟩ := bind_eq_ok.mp h
    rcases c3_cstep h3 with ⟨-, rfl⟩ | ⟨hp, hrun⟩
    · rw [hl] at h'
      rw [freeList_eraAgent h']
      exact Nat.lt_succ_self _
    · obtain ⟨hret, hnew⟩ := c3Plan_drops C lo _ _ _ hp
      have hlt : n.arena.freeList.length < n1.arena.freeList.length := by
        rw [freeList_run hnew hret hrun]
        exact Nat.lt_succ_self _
      split at h'
      · cases h'
        exact hlt
      · rw [freeList_eraAgent h']
        exact hlt.trans (Nat.lt_succ_self _)
  · rw [freeList_eraAgent h]
    exact Nat.lt_succ_self _

/-- One end is the eraser: the structural dispatch fails or changes the net. -/
theorem dispatchPhase1_era_ne (hl : n.isStalePair pair = false)
    (he : pair.p0.1.isEraser ≠ pair.p1.1.isEraser) :
    n.dispatchPhase1 C pair stats ≠ .ok (n, stats) := by
  obtain ⟨hl0, hl1⟩ := portLive_of_not_stale hl
  intro h
  rcases dispatched h with ⟨h0, h1, -⟩ | ⟨-, -, h⟩ | ⟨hp, -, h⟩ | ⟨h0, h1, -⟩ | ⟨h0, h1, -⟩ |
    ⟨h0, h1, -⟩
  · exact he (h0.trans h1.symm)
  · exact absurd (congrArg List.length (freeList_eraAgent h)) (by simp)
  · exact Nat.lt_irrefl _ (freeList_dispatchEraRep (hp.live hl0 hl1) h)
  all_goals exact he (h0.trans h1.symm)

/-- One end is a free slot: the structural dispatch fails. -/
theorem dispatchPhase1_free (h0 : pair.p0.1.isEraser = false) (h1 : pair.p1.1.isEraser = false)
    (hf : (n.slot pair.p0.1).isFree = true ∨ (n.slot pair.p1.1).isFree = true) :
    n.dispatchPhase1 C pair stats = .error .readbackIncomplete := by
  have hno {s : Slot} (hs : s.isFree = true) : s.isFan = false ∧ s.isRep = false := by
    rw [Slot.isFree, decide_eq_true_iff] at hs
    simp [Slot.isFan, Slot.isRep, hs]
  rcases hf with hf | hf
  · simp [dispatchPhase1, h0, h1, hno hf]
  · simp [dispatchPhase1, h0, h1, hno hf]

/-- On a net without primitive agents a step with primitives is the structural dispatch
exactly on the structural pairs. -/
theorem stepWithPrims_iff (hn : NoPrim n) (hzero : (n.arena.slots 0).isFree = true)
    (hl : n.isStalePair pair = false) (he0 : pair.p0.1.isEraser = true → pair.p0.1 = .era)
    (he1 : pair.p1.1.isEraser = true → pair.p1.1 = .era) (fuel : Nat) (ps : PrimState P)
    (stats : ReduceStats) : n.stepWithPrims C apply cfg (fuel + 1) ps pair stats =
        ofExcept ((n.dispatchPhase1 C pair stats).map fun r => (r.1, ps, r.2)) ↔
      n.StructuralPair pair := by
  refine ⟨fun h => ?_, fun hs => stepWithPrims_of_structural hn hl hs fuel ps stats⟩
  obtain ⟨hl0, hl1⟩ := portLive_of_not_stale hl
  rw [stepWithPrims_of_not_isPrim (hn.not_isPrim hl0 he0) (hn.not_isPrim hl1 he1)] at h
  cases hfree : (n.slot pair.p0.1).isFree || (n.slot pair.p1.1).isFree with
  | false =>
    have hzero' {p : PortId} (he : p.isEraser = true → p = .era)
        (hf : (n.slot p).isFree = false) : p.isEraser = false := by
      cases hp : p.isEraser with
      | false => rfl
      | true =>
        rw [he hp] at hf
        exact hzero.symm.trans hf
    rw [Bool.or_eq_false_iff] at hfree
    exact .inr ⟨hzero' he0 hfree.1, hzero' he1 hfree.2, hfree.1, hfree.2⟩
  | true =>
    rw [hfree, if_pos rfl] at h
    have hsame : n.dispatchPhase1 C pair stats = .ok (n, stats) := by
      have h' := some.inj h
      cases hd : n.dispatchPhase1 C pair stats with
      | error e =>
        rw [hd] at h'
        cases h'
      | ok r =>
        rw [hd] at h'
        have hr := Except.ok.inj h'
        simp only [Prod.mk.injEq, true_and] at hr
        rw [hr.1, hr.2]
    cases h0 : pair.p0.1.isEraser <;> cases h1 : pair.p1.1.isEraser
    · rw [dispatchPhase1_free h0 h1 (Bool.or_eq_true_iff.mp hfree)] at hsame
      cases hsame
    · exact absurd hsame (dispatchPhase1_era_ne hl (by simp [h0, h1]))
    · exact absurd hsame (dispatchPhase1_era_ne hl (by simp [h0, h1]))
    · exact .inl ⟨he0 h0, he1 h1⟩

/-! ## Whole runs -/

/-- Every live pair that the phase-1 loop pops on its way from `st` is structural. -/
def FiresStructural (C : NetClass) (st : Net × ReduceStats) : Prop :=
  Pops C (fun n pair => n.isStalePair pair = false → n.StructuralPair pair) st

/-- One round of the loop with primitives, when its pair is structural. -/
theorem primLoop_succ (hn : NoPrim n) (hs : FiresStructural C (n, stats)) (fuel : Nat)
    (ps : PrimState P) : n.primLoop C apply cfg (fuel + 2) ps stats =
      match phase1Round C (n, stats) with
      | .error e => ofExcept (.error e)
      | .ok (.done r) => ofExcept (.ok (r.1, ps, r.2))
      | .ok (.next r) => r.1.primLoop C apply cfg (fuel + 1) ps r.2 := by
  rw [primLoop]
  unfold phase1Round
  cases hpop : n.frontier1.popFirst with
  | none => rfl
  | some e =>
    obtain ⟨⟨k, pair⟩, rest⟩ := e
    dsimp only
    cases hl : { n with frontier1 := rest }.isStalePair pair with
    | true => rfl
    | false =>
      simp only [Bool.false_eq_true, if_false]
      rw [stepWithPrims_of_structural (n := { n with frontier1 := rest }) hn hl
        (hs _ .refl k pair rest hpop hl)]
      cases { n with frontier1 := rest }.dispatchPhase1 C pair
        { stats with interactions := stats.interactions + 1 } <;> rfl

/-- A round of the structural loop makes no primitive agent. -/
theorem NoPrim.phase1Round {r : Net × ReduceStats} (hn : NoPrim n)
    (h : Net.phase1Round C (n, stats) = .ok (.next r)) : NoPrim r.1 := by
  unfold Net.phase1Round at h
  dsimp only at h
  split at h
  · cases h
  · next k pair rest hpop =>
    have hn' : NoPrim { n with frontier1 := rest } := hn
    split at h
    · cases h
      exact hn'
    · obtain ⟨st, hd, h⟩ := bind_eq_ok.mp h
      cases h
      exact hn'.of_kindStep (kindStep_dispatchPhase1 hd)

theorem primLoop_of_loop {r : Except DnxError (Net × ReduceStats)} :
    ∀ {fuel : Nat} {n : Net} {stats : ReduceStats}, NoPrim n → FiresStructural C (n, stats) →
      loop (phase1Round C) fuel (n, stats) = some r →
        n.primLoop C apply cfg (fuel + 1) ps stats = ofExcept (r.map fun x => (x.1, ps, x.2))
  | 0, _, _, _, _, h => nomatch h
  | fuel + 1, n, stats, hn, hs, h => by
    rw [primLoop_succ hn hs]
    rw [loop] at h
    split at h
    · next e he =>
      cases h
      rw [he]
      rfl
    · next b hb =>
      cases h
      rw [hb]
      rfl
    · next st hst =>
      rw [hst]
      exact primLoop_of_loop (hn.phase1Round hst) (hs.next hst) h

theorem loop_of_primLoop {r : Except DnxError (Net × PrimState P × ReduceStats)} :
    ∀ {fuel : Nat} {n : Net} {stats : ReduceStats}, NoPrim n → FiresStructural C (n, stats) →
      n.primLoop C apply cfg (fuel + 1) ps stats = ofExcept r →
        ∃ r', loop (phase1Round C) (fuel + 1) (n, stats) = some r' ∧
          r = r'.map fun x => (x.1, ps, x.2)
  | 0, n, stats, hn, hs, h => by
    -- with no fuel left for a step, the queue was empty
    rw [primLoop] at h
    rw [loop]
    unfold phase1Round
    cases hpop : n.frontier1.popFirst with
    | none =>
      rw [hpop] at h
      exact ⟨.ok (n, stats), rfl, (some.inj h).symm⟩
    | some e =>
      obtain ⟨⟨k, pair⟩, rest⟩ := e
      rw [hpop] at h
      dsimp only at h
      split at h
      · cases h
      · cases h
  | fuel + 1, n, stats, hn, hs, h => by
    rw [primLoop_succ hn hs] at h
    rw [loop]
    split at h
    · next e he =>
      rw [he]
      exact ⟨_, rfl, (some.inj h).symm⟩
    · next b hb =>
      rw [hb]
      exact ⟨_, rfl, (some.inj h).symm⟩
    · next st hst =>
      rw [hst]
      exact loop_of_primLoop (hn.phase1Round hst) (hs.next hst) h

/-- `normalize` and `normalizeWithPrims` end with the same result, whatever it is. -/
def PrimsAgree (C : NetClass) (apply : PrimApply P) (n : Net) (ps : PrimState P) : Prop :=
  ∀ r, (∃ fuel, n.normalize C fuel = some r) ↔
    ∃ fuel, n.normalizeWithPrims C apply fuel ps = ofExcept (r.map fun x => (x.1, x.2, ps))

theorem primsAgree_of_firesStructural (apply : PrimApply P) (ps : PrimState P) (hn : NoPrim n)
    (hs : FiresStructural C (n, {})) : PrimsAgree C apply n ps := by
  intro r
  constructor
  · rintro ⟨fuel, h⟩
    obtain ⟨r1, h1, h⟩ := bind_eq_some_iff.mp h
    have hprim : n.primLoop C apply {} (fuel + 1) ps {} = _ := primLoop_of_loop hn hs h1
    refine ⟨fuel + 1, ?_⟩
    rw [normalizeWithPrims, hprim]
    cases r1 with
    | error e =>
      cases h
      rfl
    | ok st =>
      obtain ⟨r2, h2, h⟩ := bind_eq_some_iff.mp h
      obtain ⟨r3, h3, h2⟩ := bind_eq_some_iff.mp h2
      have hfin : st.1.finalizeCanonical C (fuel + 1) = some r2 := by
        rw [finalizeCanonical, loop_mono 1 h3]
        exact h2
      cases h
      show (ExceptT.mk (st.1.finalizeCanonical C (fuel + 1)) >>= _ : Fueled _) = _
      rw [hfin]
      cases r2 <;> rfl
  · rintro ⟨fuel, h⟩
    cases fuel with
    | zero => cases h
    | succ fuel =>
      obtain ⟨r1, h1, h⟩ := bind_eq_some_iff.mp h
      obtain ⟨r', hloop, rfl⟩ := loop_of_primLoop hn hs h1
      refine ⟨fuel + 1, ?_⟩
      rw [normalize, hloop]
      cases r' with
      | error e =>
        have h' := some.inj h
        cases r with
        | error e' =>
          cases h'
          rfl
        | ok x => cases h'
      | ok st =>
        obtain ⟨r2, h2, h⟩ := bind_eq_some_iff.mp h
        show (st.1.finalizeCanonical C (fuel + 1) >>= _) = _
        rw [show st.1.finalizeCanonical C (fuel + 1) = some r2 from h2]
        cases r2 with
        | error e =>
          have h' := some.inj h
          cases r with
          | error e' =>
            cases h'
            rfl
          | ok x => cases h'
        | ok m =>
          have h' := some.inj h
          cases r with
          | error e' => cases h'
          | ok x =>
            have hx := Except.ok.inj h'
            simp only [Prod.mk.injEq, and_true] at hx
            show some (Except.ok (m, st.2)) = some (Except.ok x)
            rw [hx.1, hx.2]

/-- The pair is stale or structural. -/
def structuralCheck (n : Net) (pair : ActivePair) : Bool :=
  n.isStalePair pair || decide (n.StructuralPair pair)

theorem firesStructural_of_check {fuel : Nat} {st : Net × ReduceStats}
    (h : popsUpTo C structuralCheck fuel st = true) : FiresStructural C st := by
  refine pops_of_upTo (fun n pair hc hl => ?_) h
  simpa [structuralCheck, hl] using hc

/-- Reduction with primitives agrees with structural reduction on nets without primitive
agents as long as every live pair that is popped is structural; a single step agrees on
no other pair. -/
theorem normalizeWithPrims_agrees (C : NetClass) (apply : PrimApply P) (ps : PrimState P) :
    (∀ (n : Net) (pair : ActivePair) (cfg : NormalizeConfig) (fuel : Nat) (stats : ReduceStats),
      NoPrim n → (n.arena.slots 0).isFree = true → n.isStalePair pair = false →
      (pair.p0.1.isEraser = true → pair.p0.1 = .era) →
      (pair.p1.1.isEraser = true → pair.p1.1 = .era) →
      (n.stepWithPrims C apply cfg (fuel + 1) ps pair stats =
          ofExcept ((n.dispatchPhase1 C pair stats).map fun r => (r.1, ps, r.2)) ↔
        n.StructuralPair pair)) ∧
    ∀ n : Net, NoPrim n → FiresStructural C (n, {}) → PrimsAgree C apply n ps :=
  ⟨fun _ _ _ fuel stats hn h0 hl he0 he1 => stepWithPrims_iff hn h0 hl he0 he1 fuel ps stats,
    fun _ hn hs => primsAgree_of_firesStructural apply ps hn hs⟩

/-- `(λx.x)` applied to the result of that application. -/
def appliedIdentity : Net :=
  match (Net.new 4).allocAbs with
  | .ok (a, n) =>
    match n.allocApp with
    | .ok (b, n) =>
      ((n.connect a.aux0 a.aux1 .root).connect b.aux0 b.aux1 .root).connect a.principal b.principal
        .root
    | .error _ => Net.new 4
  | .error _ => Net.new 4

theorem noPrim_of_agents {l : List Nat} (hl : n.arena.liveList = l)
    (hp : ∀ i, n.arena.isLive i = true → i ∈ l) (h : ∀ i ∈ 0 :: l, (n.arena.slots i).isPrim = false)
    : NoPrim n := by
  rintro i (rfl | hi | hi)
  · exact h 0 List.mem_cons_self
  · exact h i (List.mem_cons_of_mem _ (hl ▸ hi))
  · exact h i (List.mem_cons_of_mem _ (hp i hi))

theorem noPrim_appliedIdentity : NoPrim appliedIdentity := by
  refine noPrim_of_agents (l := [1, 2]) (by decide +kernel) (fun i hi => ?_) (by decide +kernel)
  have hpos : appliedIdentity.arena.livePos i =
      if i = 2 then some 1 else if i = 1 then some 0 else none := rfl
  rw [Arena.isLive, hpos] at hi
  split at hi
  · simp_all
  · split at hi
    · simp_all
    · cases hi

/-- The primitives of a program that has none. -/
def noPrims : PrimApply Empty := fun p => nomatch p

theorem appliedIdentity_agrees : (appliedIdentity.stepWithPrims .ΔL noPrims {} 1 ⟨[], []⟩
        ⟨⟨.new 1 .principal false, rfl⟩, ⟨.new 2 .principal false, rfl⟩, .root⟩ {} =
      ofExcept ((appliedIdentity.dispatchPhase1 .ΔL
        ⟨⟨.new 1 .principal false, rfl⟩, ⟨.new 2 .principal false, rfl⟩, .root⟩ {}).map
          fun r => (r.1, ⟨[], []⟩, r.2))) ∧ PrimsAgree .ΔL noPrims appliedIdentity ⟨[], []⟩ :=
  ⟨((normalizeWithPrims_agrees .ΔL noPrims ⟨[], []⟩).1 appliedIdentity _ {} 0 {}
      noPrim_appliedIdentity rfl (by decide +kernel) (fun h => absurd h (by decide))
      (fun h => absurd h (by decide))).2
      (by decide +kernel),
    (normalizeWithPrims_agrees .ΔL noPrims ⟨[], []⟩).2 appliedIdentity noPrim_appliedIdentity
      (firesStructural_of_check (show popsUpTo .ΔL structuralCheck 3 _ = true by decide +kernel))⟩

/-- `λx.x` with the eraser on its principal port. -/
def erasedIdentity : Net :=
  match (Net.new 4).allocAbs with
  | .ok (a, n) => (n.connect a.aux0 a.aux1 .root).connect .era a.principal .root
  | .error _ => Net.new 4

/-- No free slot is wired by its principal port to another principal port. -/
def FreeApart (n : Net) : Prop :=
  ∀ i, n.arena.isLive i = true → (n.arena.slots i).isFree = true →
    (n.portAt (i, .principal)).portKind = .principal → n.portAt (i, .principal) = .null

/-- `normalize` erases the identity, `normalizeWithPrims` leaves it. -/
theorem erasedIdentity_disagrees : NoPrim erasedIdentity ∧ FreeApart erasedIdentity ∧
      (erasedIdentity.normalize .ΔK 9).map (·.map fun r => (r.1.arena.liveList, r.2)) =
        some (.ok ([], ⟨1, 0⟩)) ∧
      ((erasedIdentity.normalizeWithPrims .ΔK noPrims 9 ⟨[], []⟩).run).map
          (·.map fun r => (r.1.arena.liveList, r.2.1)) = some (.ok ([1], ⟨1, 0⟩)) := by
  have hlive {i : Nat} (hi : erasedIdentity.arena.isLive i = true) : i = 1 := by
    have hpos : erasedIdentity.arena.livePos i = if i = 1 then some 0 else none := rfl
    rw [Arena.isLive, hpos] at hi
    split at hi
    · assumption
    · cases hi
  refine ⟨noPrim_of_agents (l := [1]) (by decide +kernel)
    (fun i hi => List.mem_singleton.mpr (hlive hi)) (by decide +kernel), fun i hi hf => ?_,
    by decide +kernel, by decide +kernel⟩
  have hk : (erasedIdentity.arena.slots 1).isFree = false := by decide +kernel
  rw [hlive hi, hk] at hf
  cases hf

end

end Net

end Dnet
