import Dnet.Reduce.Outcome
import Dnet.Reduce.Prim
import Mathlib.Data.Set.Card

/-!
# Fuel

`force_whnf_with_prims` stops after `max_steps` pairs (reduce/whnf.rs). This should bound all the
work of a call (`forceFirings`). But a strict argument is forced by a new call that counts from
zero, and the candidates of phase 2 are not counted (`nested_firings`). A round that does neither
is charged (`Charged`), and a call of which every round is charged returns within the limit
(`fuel_bounds_work`): a round takes a pair that is counted, or lowers a potential of phase 2.
-/

namespace Dnet

open Lib

namespace Net

variable {P : Type}

/-! ## Counting the firings -/

/-- Does phase 2 replicate a fan for its first candidate? -/
def replicates (C : NetClass) (n : Net) : Bool :=
  C.hasRep && match n.frontier2.popFirst with
    | none => false
    | some ((_, cand), rest) =>
      let n := { n with frontier2 := rest }
      !n.isStaleC4 cand && match if C.hasEra then n.c3 C cand.repPrincipal cand.lo else .ok n with
        | .error _ => false
        | .ok n =>
          !(C.hasEra && n.isStaleC4 cand) && match n.c2 C cand.repPrincipal cand.lo with
            | .error _ => false
            | .ok n => !n.isStaleC4 cand

mutual

/-- The rules that `forceWhnfWithPrims` fires before it returns or fails, those of nested calls
included. -/
def forceFirings (C : NetClass) (apply : PrimApply P) (cfg : NormalizeConfig) :
    Nat → Nat → Net → PrimState P → PortId → Nat
  | 0, _, _, _, _ => 0
  | fuel + 1, steps, n, ps, port =>
    match n.classifyHead (n.headAt port) with
    | some _ => 0
    | none =>
      match n.takeSpineRedex port with
      | (none, n) =>
        (n.replicates C).toNat + match n.drainPhase2 C with
          | .ok (n, true) => forceFirings C apply cfg fuel steps n ps port
          | _ => 0
      | (some pair, n) =>
        let steps := steps + 1
        if cfg.maxSteps.any (steps > ·) then 0
        else if cfg.maxAgents.any (n.arena.slotCount > ·) then 0
        else
          stepFirings C apply cfg fuel n ps pair +
            match (n.stepWithPrims C apply cfg fuel ps pair {}).run with
            | some (.ok (n, ps, _)) => forceFirings C apply cfg fuel steps n ps port
            | _ => 0

/-- A pair is one firing, unless it has a free end. An application of a primitive is one if the
application is still there when its argument has been forced. -/
def stepFirings (C : NetClass) (apply : PrimApply P) (cfg : NormalizeConfig) :
    Nat → Net → PrimState P → ActivePair → Nat
  | 0, _, _, _ => 0
  | fuel + 1, n, ps, pair =>
    let s0 := n.slot pair.p0.1
    let s1 := n.slot pair.p1.1
    if s0.isFree || s1.isFree then 0
    else if s0.tagIs .primFun && s1.tagIs .primVal || s0.tagIs .primVal && s1.tagIs .primFun then 1
    else
      match n.appPrim pair with
      | some (pApp, _) =>
        let arg := (n.slot pApp).aux1
        let ready := n.slotIsLive arg &&
          ((n.slot arg).tagIs .primVal || ((n.slot arg).isFan && (n.slot arg).fanIsAbs))
        if ready then 1
        else
          let argWire := PortId.new pApp.slotIdx .aux1 pApp.genLow
          forceFirings C apply cfg fuel 0 n ps argWire +
            match (n.forceWhnfWithPrims C apply cfg fuel 0 ps argWire).run with
            | some (.ok (_, n, _)) =>
              (n.portLive pApp && (n.slot pApp).isFan && !(n.slot pApp).fanIsAbs).toNat
            | _ => 0
      | none => 1

end

/-! ## Work that is not counted -/

/-- One primitive, the identity. -/
def identityPrim : PrimApply Unit := fun _ args => .ok (args.headD .null)

/-- A net, the state of its primitives and the port that is forced. -/
structure Demand where
  net : Net
  prims : PrimState Unit
  port : PortId

/-- The primitive applied to `(λx.x) 5`. -/
def strictArgument : Except DnxError Demand := do
  let (f, n, ps) ← (Net.new 16).allocPrimFun ⟨[], []⟩ (.mk "f" 1 [] (.inl ()))
  let (five, n, ps) ← n.allocPrimVal ps (.int 5)
  let (outer, n) ← n.allocApp
  let (inner, n) ← n.allocApp
  let (abs, n) ← n.allocAbs
  let (root, n) ← n.allocFree 0
  let n := n.connect abs.aux0 abs.aux1 .root
  let n := n.connect inner.principal abs.principal .root
  let n := n.connect inner.aux1 five .root
  let n := n.connect outer.principal f .root
  let n := n.connect outer.aux1 inner.aux0 .root
  return ⟨n.connect outer.aux0 root .root, ps, root⟩

/-- With fuel for one pair, a beta step and the application of the primitive are done. -/
theorem nested_firings : ∃ d ∈ strictArgument.toOption,
    ((d.net.forceWhnfWithPrims .ΔK identityPrim ⟨some 1, none⟩ 6 0 d.prims d.port).run.any
      (·.isOk)) = true ∧
    forceFirings .ΔK identityPrim ⟨some 1, none⟩ 6 0 d.net d.prims d.port = 2 := by
  decide +kernel

/-! ## Rounds of a call -/

/-- Forcing `port` takes no pair and replicates no fan: a value or a free port is at its head, or
there is no pair on its spine, also after the decays and merges of phase 2. -/
inductive Idle (C : NetClass) (port : PortId) : Net → Prop
  | head {n : Net} (hhead : (n.classifyHead (n.headAt port)).isSome = true) : Idle C port n
  | drain {n n1 : Net} (hpair : n.takeSpineRedex port = (none, n1))
      (hrep : n1.replicates C = false)
      (hnext : ∀ n', n1.drainPhase2 C = .ok (n', true) → Idle C port n') : Idle C port n

/-- Where the loop of a call stands: the pairs it has counted, the net and the primitives. -/
structure WhnfCall (P : Type) where
  steps : Nat
  net : Net
  prims : PrimState P

/-- May the call take one more pair? -/
def WhnfCall.within (cfg : NormalizeConfig) (s : WhnfCall P) : Bool :=
  !cfg.maxSteps.any (s.steps + 1 > ·) && !cfg.maxAgents.any (s.net.arena.slotCount > ·)

section

variable (C : NetClass) (apply : PrimApply P) (cfg : NormalizeConfig) (port : PortId)

/-- One round of the loop, if it goes on after it. The fuel is for nested calls. -/
def round (fuel : Nat) (s : WhnfCall P) : Option (WhnfCall P) :=
  match s.net.classifyHead (s.net.headAt port) with
  | some _ => none
  | none =>
    match s.net.takeSpineRedex port with
    | (none, n) =>
      match n.drainPhase2 C with
      | .ok (n, true) => some { s with net := n }
      | _ => none
    | (some pair, n) =>
      if !s.within cfg then none
      else
        match (n.stepWithPrims C apply cfg fuel s.prims pair {}).run with
        | some (.ok (n, ps, _)) => some ⟨s.steps + 1, n, ps⟩
        | _ => none

def RoundTo (s s' : WhnfCall P) : Prop := ∃ fuel, round C apply cfg port fuel s = some s'

/-- The next round does no work that is not counted: the strict argument of a primitive is not
reduced by a nested call, and phase 2 replicates no fan. -/
def Charged (s : WhnfCall P) : Prop :=
  s.net.classifyHead (s.net.headAt port) = none →
    match s.net.takeSpineRedex port with
    | (none, n) => n.replicates C = false
    | (some pair, n) => s.within cfg = true → ∀ pApp pPf, n.appPrim pair = some (pApp, pPf) →
      Idle C (.new pApp.slotIdx .aux1 pApp.genLow) n

end

/-! ## Phase 2 without replication ends -/

section

variable {n n' : Net} {C : NetClass}

/-- The live slots, with those listed twice counted twice. -/
noncomputable def size (n : Net) : Nat :=
  {i | n.arena.isLive i = true}.ncard + n.arena.liveList.length

/-- From `n` to `n'` no agent is made and at most `k` candidates are queued, and a port that died
is paid for. -/
structure Shrinks (k : Nat) (n n' : Net) : Prop where
  size_le : n'.size ≤ n.size
  queue_le : n'.frontier2.entries.length ≤ n.frontier2.entries.length + k
  size_lt : ∀ p, n.portLive p = true → n'.portLive p = false → n'.size < n.size

theorem Shrinks.trans {j k : Nat} {n'' : Net} (h : Shrinks j n n') (h' : Shrinks k n' n'') :
    Shrinks (j + k) n n'' := by
  refine ⟨h'.size_le.trans h.size_le, ?_, fun p hp hp'' => ?_⟩
  · have hq := h.queue_le
    have hq' := h'.queue_le
    omega
  · cases hp' : n'.portLive p with
    | true => exact (h'.size_lt p hp' hp'').trans_le h.size_le
    | false => exact h'.size_le.trans_lt (h.size_lt p hp hp')

theorem shrinks_of_same {k : Nat} (hlist : n'.arena.liveList = n.arena.liveList)
    (hpos : n'.arena.livePos = n.arena.livePos)
    (hgen : ∀ i, (n'.bodyAt i).generation = (n.bodyAt i).generation)
    (hqueue : n'.frontier2.entries.length ≤ n.frontier2.entries.length + k) :
    Shrinks k n n' := by
  have hsize : n'.size = n.size := by
    unfold size Arena.isLive
    rw [hlist, hpos]
  refine ⟨hsize.le, hqueue, fun p hp hp' => ?_⟩
  have hsame : n'.portLive p = n.portLive p := by
    have hg : (n'.slot p).generation = (n.slot p).generation := hgen p.slotIdx
    unfold portLive Arena.isLive Slot.genLow
    rw [hpos, hg]
  rw [hsame, hp] at hp'
  cases hp'

theorem length_insertList_le {κ ν : Type} [LinearOrder κ] (k : κ) (v : ν) :
    ∀ es : List (κ × ν), (OrdMap.insertList k v es).length ≤ es.length + 1
  | [] => le_rfl
  | e :: es => by
    have ih := length_insertList_le k v es
    unfold OrdMap.insertList
    split
    · exact le_rfl
    · split <;> simp only [List.length_cons] at * <;> omega

theorem shrinks_connect (n : Net) (a b : PortId) (lo : LOPath) :
    Shrinks 1 n (n.connect a b lo) := by
  have hlink : (n.linkNoPair a b).arena.liveList = n.arena.liveList ∧
      (n.linkNoPair a b).arena.livePos = n.arena.livePos ∧
      (n.linkNoPair a b).frontier2 = n.frontier2 := by
    unfold linkNoPair writePort
    split <;> split <;> exact ⟨rfl, rfl, rfl⟩
  obtain ⟨hlist, hpos, hqueue⟩ := hlink
  refine shrinks_of_same (by rw [arena_connect, hlist]) (by rw [arena_connect, hpos])
    (fun i => by rw [bodyAt_connect]) ?_
  rw [← hqueue, connect]
  generalize n.linkNoPair a b = m
  unfold detectPair
  split
  · split
    · split <;> exact Nat.le_succ _
    · exact Nat.le_succ _
  · split
    · exact length_insertList_le _ _ _
    · exact Nat.le_succ _
  · split
    · exact length_insertList_le _ _ _
    · exact Nat.le_succ _
  · exact Nat.le_succ _

theorem length_swapRemove (l : List Nat) (pos : Nat) :
    (Arena.swapRemove l pos).length = l.length - 1 := by
  rw [Arena.swapRemove, List.length_dropLast, List.length_set]

/-- A live slot that is retired leaves the index of the live list. If another one takes its place
there, the list gets shorter. -/
theorem size_retire_lt (hfin : n.AgentsFinite) {i : Nat} (hi : n.arena.isLive i = true) :
    (n.retire i).size < n.size := by
  have hlive : {j | n.arena.isLive j = true}.Finite := hfin.subset fun j hj => .inr hj
  obtain ⟨pos, hpos⟩ := Option.isSome_iff_exists.mp hi
  have hrest : ({j | n.arena.isLive j = true} \ {i}).ncard + 1 =
      {j | n.arena.isLive j = true}.ncard :=
    Set.ncard_sdiff_singleton_add_one (a := i) hi hlive
  unfold size
  show {j | (n.arena.unlist i).isLive j = true}.ncard + (n.arena.unlist i).liveList.length < _
  cases hm : (Arena.swapRemove n.arena.liveList pos)[pos]? with
  | none =>
    have hlist : (n.arena.unlist i).liveList.length ≤ n.arena.liveList.length := by
      simp [Arena.unlist, hpos, length_swapRemove]
    have hsub : {j | (n.arena.unlist i).isLive j = true} ⊆
        {j | n.arena.isLive j = true} \ {i} := fun j hj => by
      simp only [Set.mem_ofPred_eq, Arena.isLive, Arena.unlist, hpos, hm] at hj
      split at hj
      · cases hj
      · next hne => exact ⟨hj, hne⟩
    have hle := Set.ncard_le_ncard hsub (hlive.subset Set.sdiff_subset)
    omega
  | some moved =>
    have hlist : (n.arena.unlist i).liveList.length + 1 ≤ n.arena.liveList.length := by
      obtain ⟨hlt, -⟩ := List.getElem?_eq_some_iff.mp hm
      rw [length_swapRemove] at hlt
      simp only [Arena.unlist, hpos, length_swapRemove]
      omega
    have hsub : {j | (n.arena.unlist i).isLive j = true} ⊆
        insert moved ({j | n.arena.isLive j = true} \ {i}) := fun j hj => by
      simp only [Set.mem_ofPred_eq, Arena.isLive, Arena.unlist, hpos, hm] at hj
      split at hj
      · next heq => exact .inl heq
      · split at hj
        · cases hj
        · next hne => exact .inr ⟨hj, hne⟩
    have hle := Set.ncard_le_ncard hsub ((hlive.subset Set.sdiff_subset).insert moved)
    have hins := Set.ncard_insert_le moved ({j | n.arena.isLive j = true} \ {i})
    omega

theorem shrinks_retire (hfin : n.AgentsFinite) (i : Nat) : Shrinks 0 n (n.retire i) := by
  cases hi : n.arena.isLive i with
  | true =>
    exact ⟨(size_retire_lt hfin hi).le, le_rfl, fun _ _ _ => size_retire_lt hfin hi⟩
  | false =>
    have hnone : n.arena.unlist i = n.arena := by
      simp [Arena.unlist, Option.not_isSome_iff_eq_none.mp (Bool.eq_false_iff.mp hi)]
    refine shrinks_of_same ?_ ?_ (fun j => by rw [bodyAt_retire]) le_rfl <;>
    · unfold retire Arena.retireSlot
      rw [hnone]

theorem shrinks_setEraserOnPort (n : Net) (p : PortId) : Shrinks 0 n (n.setEraserOnPort p) := by
  refine shrinks_of_same ?_ ?_ (fun i => by rw [bodyAt_setEraserOnPort]) ?_ <;>
  · unfold setEraserOnPort
    split <;> rfl

theorem shrinks_erase : ∀ (ps : List PortId) (n : Net), Shrinks 0 n (ps.foldl setEraserOnPort n)
  | [], _ => shrinks_of_same rfl rfl (fun _ => rfl) le_rfl
  | p :: ps, n => (shrinks_setEraserOnPort n p).trans (j := 0) (shrinks_erase ps _)

theorem shrinks_relabelSlot (n : Net) (r : Option (Nat × Nat × Int × Int)) :
    Shrinks 0 n (n.relabelSlot r) := by
  refine shrinks_of_same ?_ ?_ (fun i => (bodyAt_relabelSlot n r i).2) ?_ <;>
    cases r <;> rfl

/-- C2 and C3 retire one replicator and make one wire. -/
theorem shrinks_cstep {lo : LOPath} {p : PortId} {plan : Net → PortId → Option Rewrite}
    (hfin : n.AgentsFinite) (hc : Checks lo plan) (h : CStep (plan n p) n n') :
    Shrinks 1 n n' := by
  cases h with
  | idle _ hn =>
    subst hn
    exact shrinks_of_same rfl rfl (fun _ => rfl) (Nat.le_succ _)
  | @act rw hp hrun =>
    have hshape := hc n p rw hp
    obtain ⟨⟨ps, n2⟩, ha, h⟩ := bind_eq_ok.mp hrun
    obtain ⟨a, b, hlinks, -⟩ := hshape.links
    rw [hshape.news] at ha
    cases ha
    rw [hshape.retired, hlinks] at h
    cases h
    have hfin' := ((kindStep_foldl kindStep_setEraserOnPort rw.erased n).trans
      (kindStep_relabelSlot _ rw.relabel)).finite hfin
    exact (((shrinks_erase rw.erased n).trans (shrinks_relabelSlot _ rw.relabel)).trans
      (shrinks_retire hfin' _)).trans (shrinks_connect _ a b lo)

/-- What bounds the rounds of phase 2. -/
noncomputable def potential (n : Net) : Nat := 2 * n.size + n.frontier2.entries.length

theorem isStaleC4_iff {cand : C4Candidate} : n.isStaleC4 cand = true ↔
    n.portLive cand.repPrincipal = false ∨ n.portLive cand.appAux0 = false := by
  simp [isStaleC4]

theorem Shrinks.size_lt_of_stale {k : Nat} {cand : C4Candidate} (h : Shrinks k n n')
    (hlive : n.isStaleC4 cand = false) (hstale : n'.isStaleC4 cand = true) : n'.size < n.size := by
  have hports : n.portLive cand.repPrincipal = true ∧ n.portLive cand.appAux0 = true := by
    simpa [isStaleC4] using hlive
  rcases isStaleC4_iff.mp hstale with hdead | hdead
  · exact h.size_lt _ hports.1 hdead
  · exact h.size_lt _ hports.2 hdead

/-- A candidate that phase 2 takes and does not replicate is stale, or one of its two agents goes
and at most two candidates come. -/
theorem potential_drainPhase2 (hfin : n.AgentsFinite) (hrep : n.replicates C = false)
    (hdrain : n.drainPhase2 C = .ok (n', true)) : n'.potential < n.potential := by
  unfold drainPhase2 at hdrain
  unfold replicates at hrep
  cases hC : C.hasRep with
  | false =>
    rw [hC] at hdrain
    cases hdrain
  | true =>
    rw [hC] at hdrain hrep
    simp only [Bool.not_true, Bool.false_eq_true, if_false, Bool.true_and] at hdrain hrep
    cases hpop : n.frontier2.popFirst with
    | none =>
      rw [hpop] at hdrain
      cases hdrain
    | some e =>
      obtain ⟨⟨key, cand⟩, rest⟩ := e
      rw [hpop] at hdrain hrep
      dsimp only at hdrain hrep
      have hlen : n.frontier2.entries.length = rest.entries.length + 1 := by
        rw [OrdMap.entries_of_popFirst hpop, List.length_cons]
      generalize hm : ({ n with frontier2 := rest } : Net) = m at hdrain hrep
      have hmsize : m.size = n.size := by rw [← hm]; rfl
      have hmqueue : m.frontier2 = rest := by rw [← hm]
      have hmfin : m.AgentsFinite := by rw [← hm]; exact hfin
      have hdrop {k : Nat} {m' : Net} (hs : Shrinks k m m') (hk : k ≤ 2)
          (hlt : m'.size < m.size) : m'.potential < n.potential := by
        have hq := hs.queue_le
        rw [hmqueue] at hq
        unfold potential
        omega
      cases hstale : m.isStaleC4 cand with
      | true =>
        rw [hstale] at hdrain
        cases hdrain
        unfold potential
        rw [hmsize, hmqueue]
        omega
      | false =>
        rw [hstale] at hdrain hrep
        simp only [Bool.false_eq_true, if_false] at hdrain
        obtain ⟨m1, h3, hdrain⟩ := bind_eq_ok.mp hdrain
        have hstep3 := (c3_check C cand.lo).step_if h3
        have hs1 : Shrinks 1 m m1 := shrinks_cstep hmfin (c3Plan_checks C cand.lo) hstep3
        have hfin1 : m1.AgentsFinite :=
          (kindStep_cstep (c3Plan_drops C cand.lo) hstep3).finite hmfin
        simp only [h3] at hrep
        split at hdrain
        · next hgone =>
          cases hdrain
          exact hdrop hs1 one_le_two (hs1.size_lt_of_stale hstale (by simp_all))
        · next hleft =>
          obtain ⟨m2, h2, hdrain⟩ := bind_eq_ok.mp hdrain
          have hs2 : Shrinks 2 m m2 :=
            hs1.trans (shrinks_cstep hfin1 (c2Plan_checks C cand.lo) (c2_cstep h2))
          split at hdrain
          · next hgone =>
            cases hdrain
            exact hdrop hs2 le_rfl (hs2.size_lt_of_stale hstale hgone)
          · next hlive => simp_all

/-! ## Steps keep the agents finite -/

theorem AgentsFinite.run {rw : Rewrite} (h : n.AgentsFinite) (hrun : rw.run n = .ok n') :
    n'.AgentsFinite := by
  obtain ⟨⟨ps, n2⟩, ha, hrun⟩ := bind_eq_ok.mp hrun
  cases hrun
  refine ((kindStep_foldl kindStep_retire _ _).trans
    (kindStep_foldl (fun n l => kindStep_link n ps l) _ _)).finite ?_
  refine allocAll_rec (P := AgentsFinite) ?_ (fun s _ _ _ _ h h' => h.allocAgent h') ha
  exact ((kindStep_foldl kindStep_setEraserOnPort _ n).trans (kindStep_relabelSlot _ _)).finite h

theorem AgentsFinite.drainPhase2 {more : Bool} (h : n.AgentsFinite)
    (hdrain : n.drainPhase2 C = .ok (n', more)) : n'.AgentsFinite := by
  unfold Net.drainPhase2 at hdrain
  split at hdrain
  · cases hdrain
    exact h
  · split at hdrain
    · cases hdrain
      exact h
    · next cand rest _ =>
      have hrest : ({ n with frontier2 := rest } : Net).AgentsFinite := h
      dsimp only at hdrain
      split at hdrain
      · cases hdrain
        exact hrest
      · obtain ⟨n1, h3, hdrain⟩ := bind_eq_ok.mp hdrain
        have h1 := (kindStep_cstep (c3Plan_drops C cand.lo)
          ((c3_check C cand.lo).step_if h3)).finite hrest
        split at hdrain
        · cases hdrain
          exact h1
        · obtain ⟨n2, h2, hdrain⟩ := bind_eq_ok.mp hdrain
          have h2' := (kindStep_cstep (c2Plan_drops C cand.lo) (c2_cstep h2)).finite h1
          split at hdrain
          · cases hdrain
            exact h2'
          · obtain ⟨n3, h4, hdrain⟩ := bind_eq_ok.mp hdrain
            cases hdrain
            unfold c4 at h4
            split at h4
            · obtain ⟨rw, -, hrun⟩ := c4AuxFanReplication_ok h4
              exact h2'.run hrun
            · cases h4
              exact h2'

section

variable {p : PortId} {lo : LOPath} {ps ps' : PrimState P} {v : PrimValue P}

theorem AgentsFinite.retire (h : n.AgentsFinite) (i : Nat) : (n.retire i).AgentsFinite :=
  (kindStep_retire n i).finite h

theorem AgentsFinite.connect (h : n.AgentsFinite) (a b : PortId) (lo : LOPath) :
    (n.connect a b lo).AgentsFinite := (kindStep_connect n a b lo).finite h

theorem AgentsFinite.allocPrimVal (h : n.AgentsFinite)
    (halloc : n.allocPrimVal ps v = .ok (p, n', ps')) : n'.AgentsFinite := by
  obtain ⟨⟨id, ps1⟩, -, halloc⟩ := bind_eq_ok.mp halloc
  obtain ⟨⟨ports, n1⟩, hn1, halloc⟩ := bind_eq_ok.mp halloc
  cases halloc
  exact h.allocAgent hn1

theorem AgentsFinite.allocPrimFun {e : PrimFunEntry P} (h : n.AgentsFinite)
    (halloc : n.allocPrimFun ps e = .ok (p, n', ps')) : n'.AgentsFinite := by
  obtain ⟨⟨id, ps1⟩, -, halloc⟩ := bind_eq_ok.mp halloc
  obtain ⟨⟨ports, n1⟩, hn1, halloc⟩ := bind_eq_ok.mp halloc
  cases halloc
  exact h.allocAgent hn1

theorem AgentsFinite.emitChurchBool {b : Bool} (h : n.AgentsFinite)
    (hemit : n.emitChurchBool b = .ok (p, n')) : n'.AgentsFinite := by
  obtain ⟨⟨outer, n1⟩, hn1, hemit⟩ := bind_eq_ok.mp hemit
  obtain ⟨⟨inner, n2⟩, hn2, hemit⟩ := bind_eq_ok.mp hemit
  have h₂ : n2.AgentsFinite := (h.allocAgent hn1).allocAgent hn2
  cases b <;> cases hemit <;> exact ((h₂.connect _ _ _).connect _ _ _).connect _ _ _

theorem AgentsFinite.repClone {pRep pPrim : PortId}
    {mk : Net → PrimState P → Except DnxError (PortId × Net × PrimState P)}
    (hmk : ∀ {m m' : Net} {qs qs' q}, m.AgentsFinite → mk m qs = .ok (q, m', qs') →
      m'.AgentsFinite)
    (h : n.AgentsFinite) (hclone : n.repClone ps pRep pPrim lo mk = .ok (n', ps')) :
    n'.AgentsFinite := by
  obtain ⟨⟨v0, n1, ps1⟩, hn1, hclone⟩ := bind_eq_ok.mp hclone
  obtain ⟨⟨v1, n2, ps2⟩, hn2, hclone⟩ := bind_eq_ok.mp hclone
  obtain ⟨lo0, -, hclone⟩ := bind_eq_ok.mp hclone
  obtain ⟨lo1, -, hclone⟩ := bind_eq_ok.mp hclone
  cases hclone
  exact ((hmk (hmk ((h.retire _).retire _) hn1) hn2).connect _ _ _).connect _ _ _

theorem AgentsFinite.primApplyInner {apply : PrimApply P} {pFun pArg cont : PortId}
    (h : n.AgentsFinite) (happly : n.primApplyInner apply ps pFun pArg cont lo = .ok (n', ps')) :
    n'.AgentsFinite := by
  obtain ⟨entry, -, happly⟩ := bind_eq_ok.mp happly
  dsimp only at happly
  split at happly
  · cases happly
  · obtain ⟨argVal, -, happly⟩ := bind_eq_ok.mp happly
    split at happly
    · obtain ⟨⟨q, n1, ps1⟩, hn1, happly⟩ := bind_eq_ok.mp happly
      cases happly
      exact (((h.retire _).retire _).allocPrimFun hn1).connect _ _ _
    · split at happly
      · obtain ⟨result, -, happly⟩ := bind_eq_ok.mp happly
        obtain ⟨⟨q, n1, ps1⟩, hn1, happly⟩ := bind_eq_ok.mp happly
        cases happly
        exact (((h.retire _).retire _).allocPrimVal hn1).connect _ _ _
      · cases happly

theorem AgentsFinite.applyForced {apply : PrimApply P} {pApp pPf : PortId} (h : n.AgentsFinite)
    (happly : n.applyForced apply ps pApp pPf lo = .ok (n', ps')) : n'.AgentsFinite := by
  unfold Net.applyForced at happly
  dsimp only at happly
  split at happly
  · cases happly
    exact h
  · split at happly
    · exact (h.retire _).primApplyInner happly
    · obtain ⟨⟨tmp, n1, ps1⟩, hn1, happly⟩ := bind_eq_ok.mp happly
      exact (((h.retire _).allocPrimVal hn1).connect _ _ _).primApplyInner happly

end

/-! ## Computations that enough fuel completes -/

section

variable {α β : Type} {Q : α → Prop} {R : β → Prop}

/-- From some fuel on the computation has one outcome, and whatever it returns meets `Q`. -/
def Settles (Q : α → Prop) (x : Nat → Fueled α) : Prop :=
  (∃ r least, ∀ fuel, least ≤ fuel → (x fuel).run = some r) ∧
    ∀ fuel a, (x fuel).run = some (.ok a) → Q a

theorem Settles.succ {x : Nat → Fueled α} (hzero : (x 0).run = none)
    (h : Settles Q fun fuel => x (fuel + 1)) : Settles Q x := by
  obtain ⟨⟨r, least, hrun⟩, hQ⟩ := h
  refine ⟨⟨r, least + 1, fun fuel hfuel => ?_⟩, fun fuel a ha => ?_⟩
  · obtain ⟨fuel, rfl⟩ : ∃ f, fuel = f + 1 := ⟨fuel - 1, by omega⟩
    exact hrun fuel (by omega)
  · cases fuel with
    | zero =>
      rw [hzero] at ha
      cases ha
    | succ fuel => exact hQ fuel a ha

theorem Settles.ofExcept {x : Except DnxError α} (h : ∀ a, x = .ok a → Q a) :
    Settles Q fun _ => Net.ofExcept x :=
  ⟨⟨x, 0, fun _ _ => rfl⟩, fun _ a ha => h a (Option.some.inj ha)⟩

theorem Settles.pure {a : α} (h : Q a) : Settles Q fun _ => (Pure.pure a : Fueled α) :=
  .ofExcept (x := .ok a) fun _ heq => Except.ok.inj heq ▸ h

theorem Settles.throw (e : DnxError) : Settles Q fun _ => (MonadExcept.throw e : Fueled α) :=
  .ofExcept (x := .error e) nofun

theorem Settles.bind {x : Nat → Fueled α} {f : α → Nat → Fueled β} (hx : Settles Q x)
    (hf : ∀ a, Q a → Settles R (f a)) : Settles R fun fuel => x fuel >>= (f · fuel) := by
  obtain ⟨⟨r, least, hrun⟩, hQ⟩ := hx
  refine ⟨?_, fun fuel b hb => ?_⟩
  · cases r with
    | error e =>
      refine ⟨.error e, least, fun fuel hfuel => ?_⟩
      rw [ExceptT.run_bind, hrun fuel hfuel]
      rfl
    | ok a =>
      obtain ⟨r', least', hrun'⟩ := (hf a (hQ least a (hrun least le_rfl))).1
      refine ⟨r', max least least', fun fuel hfuel => ?_⟩
      rw [ExceptT.run_bind, hrun fuel ((le_max_left _ _).trans hfuel)]
      exact hrun' fuel ((le_max_right _ _).trans hfuel)
  · rw [ExceptT.run_bind] at hb
    cases hx : (x fuel).run with
    | none =>
      rw [hx] at hb
      cases hb
    | some r =>
      rw [hx] at hb
      cases r with
      | error e => cases hb
      | ok a => exact (hf a (hQ fuel a hx)).2 fuel b hb

end

/-! ## Charged rounds -/

variable {apply : PrimApply P} {cfg : NormalizeConfig} {port : PortId}

/-- Only the queue of pairs is touched. -/
theorem takeSpineRedex_eq (n : Net) (port : PortId) :
    ∃ queue, (n.takeSpineRedex port).2 = { n with frontier1 := queue } := by
  unfold takeSpineRedex
  split
  · exact ⟨_, rfl⟩
  · dsimp only
    split
    · exact ⟨_, rfl⟩
    · split
      · split <;> exact ⟨_, rfl⟩
      · exact ⟨_, rfl⟩

theorem takeSpineRedex_frame {o : Option ActivePair} {n1 : Net}
    (h : n.takeSpineRedex port = (o, n1)) :
    n1.arena = n.arena ∧ n1.potential = n.potential ∧ (n.AgentsFinite → n1.AgentsFinite) := by
  obtain ⟨queue, heq⟩ := takeSpineRedex_eq n port
  rw [h] at heq
  cases heq
  exact ⟨rfl, rfl, id⟩

/-- The call ends, with finitely many agents and after at most `k` firings. -/
def EndsWithin (C : NetClass) (apply : PrimApply P) (cfg : NormalizeConfig) (port : PortId)
    (k steps : Nat) (n : Net) (ps : PrimState P) : Prop :=
  Settles (fun r => r.2.1.AgentsFinite)
      (fun fuel => n.forceWhnfWithPrims C apply cfg fuel steps ps port) ∧
    ∀ fuel, forceFirings C apply cfg fuel steps n ps port ≤ k

variable {k steps : Nat} {ps : PrimState P}

theorem EndsWithin.of_succ (hset : Settles (fun r => r.2.1.AgentsFinite)
      fun fuel => n.forceWhnfWithPrims C apply cfg (fuel + 1) steps ps port)
    (hle : ∀ fuel, forceFirings C apply cfg (fuel + 1) steps n ps port ≤ k) :
    EndsWithin C apply cfg port k steps n ps := by
  refine ⟨.succ rfl hset, fun fuel => ?_⟩
  cases fuel with
  | zero => exact Nat.zero_le k
  | succ fuel => exact hle fuel

theorem EndsWithin.of_head (hfin : n.AgentsFinite)
    (hhead : (n.classifyHead (n.headAt port)).isSome = true) :
    EndsWithin C apply cfg port k steps n ps := by
  obtain ⟨vh, hvh⟩ := Option.isSome_iff_exists.mp hhead
  refine .of_succ ?_ fun fuel => ?_
  · simp only [Net.forceWhnfWithPrims, hvh]
    exact .pure hfin
  · rw [forceFirings, hvh]
    exact Nat.zero_le k

theorem EndsWithin.of_drain {n1 : Net} (hfin : n.AgentsFinite)
    (htake : n.takeSpineRedex port = (none, n1)) (hrep : n1.replicates C = false)
    (hnext : ∀ n2, n1.drainPhase2 C = .ok (n2, true) → EndsWithin C apply cfg port k steps n2 ps) :
    EndsWithin C apply cfg port k steps n ps := by
  cases hhead : n.classifyHead (n.headAt port) with
  | some vh => exact .of_head hfin (by rw [hhead]; rfl)
  | none =>
    have hfin1 := (takeSpineRedex_frame htake).2.2 hfin
    refine .of_succ ?_ fun fuel => ?_
    · simp only [Net.forceWhnfWithPrims, hhead, htake]
      refine .bind (Q := fun r => n1.drainPhase2 C = .ok r) (.ofExcept fun r hr => hr) ?_
      rintro ⟨n2, more⟩ hdrain
      cases more with
      | true => exact (hnext n2 hdrain).1
      | false => exact .pure (hfin1.drainPhase2 hdrain)
    · rw [forceFirings, hhead, htake]
      simp only [hrep, Bool.toNat_false, Nat.zero_add]
      split
      · next n2 hdrain => exact (hnext n2 hdrain).2 fuel
      · exact Nat.zero_le k

/-- A nested call that takes no pair ends, and does no work. -/
theorem Idle.ends (h : Idle C port n) (hfin : n.AgentsFinite) :
    EndsWithin C apply cfg port 0 steps n ps := by
  induction h with
  | head hhead => exact .of_head hfin hhead
  | @drain n n1 hpair hrep hnext ih =>
    have hfin1 := (takeSpineRedex_frame hpair).2.2 hfin
    exact .of_drain hfin hpair hrep fun n2 hdrain => ih n2 hdrain (hfin1.drainPhase2 hdrain)

section

variable {pair : ActivePair}

/-- The application of a primitive to an argument that no nested call reduces is one firing. -/
theorem stepFirings_le_one (hfin : n.AgentsFinite) (hidle : ∀ pApp pPf,
    n.appPrim pair = some (pApp, pPf) → Idle C (.new pApp.slotIdx .aux1 pApp.genLow) n)
    (fuel : Nat) : stepFirings C apply cfg fuel n ps pair ≤ 1 := by
  cases fuel with
  | zero => exact Nat.zero_le 1
  | succ fuel =>
    rw [stepFirings]
    dsimp only
    split
    · exact Nat.zero_le 1
    · split
      · exact le_rfl
      · split
        · next pApp pPf happ =>
          split
          · exact le_rfl
          · rw [Nat.le_zero.mp (((hidle pApp pPf happ).ends hfin).2 fuel), Nat.zero_add]
            split
            · exact Bool.toNat_le _
            · exact Nat.zero_le 1
        · exact le_rfl

theorem stepWithPrims_settles (hfin : n.AgentsFinite) (hidle : ∀ pApp pPf,
    n.appPrim pair = some (pApp, pPf) → Idle C (.new pApp.slotIdx .aux1 pApp.genLow) n)
    (stats : ReduceStats) : Settles (fun r => r.1.AgentsFinite)
      (fun fuel => n.stepWithPrims C apply cfg fuel ps pair stats) := by
  refine .succ rfl ?_
  simp only [stepWithPrims]
  split
  · exact .pure hfin
  · split
    · refine .bind (Q := fun r => r.1.AgentsFinite) (.ofExcept fun r hr => ?_) fun r hr => .pure hr
      exact hfin.primApplyInner hr
    · split
      · next pApp pPf happ =>
        have happlied {m : Net} {qs : PrimState P} (hm : m.AgentsFinite) :
            Settles (fun r => r.1.AgentsFinite)
              fun _ => ofExcept (m.applyForced apply qs pApp pPf pair.lo) :=
          .ofExcept fun r hr => hm.applyForced hr
        split
        · exact .bind (happlied hfin) fun r hr => .pure hr
        · exact .bind ((hidle pApp pPf happ).ends hfin).1 fun r hr =>
            .bind (happlied hr) fun r' hr' => .pure hr'
      · split
        · exact .bind (Q := fun r => r.2.AgentsFinite)
            (.ofExcept fun r hr => (hfin.retire _).emitChurchBool hr)
            fun r hr => .pure (hr.connect _ _ _)
        · split
          · refine .bind (Q := fun _ => True) (.ofExcept fun _ _ => trivial) fun v _ => ?_
            refine .bind (Q := fun r => r.1.AgentsFinite) (.ofExcept fun r hr => ?_)
              fun r hr => .pure hr
            exact AgentsFinite.repClone (fun h halloc => h.allocPrimVal halloc) hfin hr
          · split
            · refine .bind (Q := fun _ => True) (.ofExcept fun _ _ => trivial) fun e _ => ?_
              refine .bind (Q := fun r => r.1.AgentsFinite) (.ofExcept fun r hr => ?_)
                fun r hr => .pure hr
              exact AgentsFinite.repClone (fun h halloc => h.allocPrimFun halloc) hfin hr
            · exact .bind (Q := fun r => r.1.AgentsFinite)
                (.ofExcept fun r hr => (kindStep_dispatchPhase1 hr).finite hfin)
                fun r hr => .pure hr

/-- A round that takes a pair is one firing of what is left, or the limit is reached. -/
theorem EndsWithin.of_pair {n1 : Net} (hhead : n.classifyHead (n.headAt port) = none)
    (htake : n.takeSpineRedex port = (some pair, n1))
    (hstep : ¬cfg.maxSteps.any (steps + 1 > ·) = true →
      ¬cfg.maxAgents.any (n1.arena.slotCount > ·) = true →
      0 < k ∧ (∀ fuel, stepFirings C apply cfg fuel n1 ps pair ≤ 1) ∧ Settles
        (fun r => EndsWithin C apply cfg port (k - 1) (steps + 1) r.1 r.2.1)
        fun fuel => n1.stepWithPrims C apply cfg fuel ps pair {}) :
    EndsWithin C apply cfg port k steps n ps := by
  refine .of_succ ?_ fun fuel => ?_
  · simp only [Net.forceWhnfWithPrims, hhead, htake]
    split
    · exact .throw _
    · next hlimit =>
      split
      · exact .throw _
      · next hagents => exact .bind (hstep hlimit hagents).2.2 fun r hr => hr.1
  · rw [forceFirings, hhead, htake]
    dsimp only
    split
    · exact Nat.zero_le k
    · next hlimit =>
      split
      · exact Nat.zero_le k
      · next hagents =>
        obtain ⟨hpos, hone, -, hrest⟩ := hstep hlimit hagents
        have hfired := hone fuel
        split
        · next n2 ps2 stats hrun =>
          have hle := (hrest fuel _ hrun).2 fuel
          dsimp only at hle
          omega
        · omega

end

variable {max : Nat}

/-- From a state on from which every round is charged, the call ends, and the pairs that are left
to the limit bound its firings. Each round takes one of them or lowers the potential of phase 2. -/
theorem ends_of_charged (hmax : cfg.maxSteps = some max) (s : WhnfCall P) (hfin : s.net.AgentsFinite)
    (hcharged : ∀ s', Relation.ReflTransGen (RoundTo C apply cfg port) s s' → Charged C cfg port s') :
    EndsWithin C apply cfg port (max - s.steps) s.steps s.net s.prims := by
  have hlater {s' : WhnfCall P} (hround : RoundTo C apply cfg port s s') (t : WhnfCall P)
      (ht : Relation.ReflTransGen (RoundTo C apply cfg port) s' t) : Charged C cfg port t :=
    hcharged t (.head hround ht)
  cases hhead : s.net.classifyHead (s.net.headAt port) with
  | some vh => exact .of_head hfin (by rw [hhead]; rfl)
  | none =>
    have hnow := hcharged s .refl hhead
    cases htake : s.net.takeSpineRedex port with
    | mk o n1 =>
      obtain ⟨harena, hpot, hfin1⟩ := takeSpineRedex_frame htake
      replace hfin1 := hfin1 hfin
      rw [htake] at hnow
      cases o with
      | none =>
        refine .of_drain hfin htake hnow fun n2 hdrain => ?_
        have hround : RoundTo C apply cfg port s { s with net := n2 } :=
          ⟨0, by simp only [round, hhead, htake, hdrain]⟩
        have hless : n2.potential < s.net.potential := hpot ▸ potential_drainPhase2 hfin1 hnow hdrain
        exact ends_of_charged hmax { s with net := n2 } (hfin1.drainPhase2 hdrain) (hlater hround)
      | some pair =>
        refine .of_pair hhead htake fun hlimit hagents => ?_
        have hlt : s.steps + 1 ≤ max := by simpa [hmax] using hlimit
        have hwithin : s.within cfg = true := by
          rw [harena] at hagents
          simp only [WhnfCall.within, hlimit, hagents, Bool.not_false, Bool.and_true]
        obtain ⟨hset, hfin2⟩ := stepWithPrims_settles hfin1 (hnow hwithin) {}
        refine ⟨by omega, stepFirings_le_one hfin1 (hnow hwithin), hset, fun fuel r hrun => ?_⟩
        have hround : RoundTo C apply cfg port s ⟨s.steps + 1, r.1, r.2.1⟩ :=
          ⟨fuel, by simp only [round, hhead, htake, hwithin, hrun, Bool.not_true,
            Bool.false_eq_true, if_false]⟩
        rw [Nat.sub_sub]
        exact ends_of_charged hmax ⟨s.steps + 1, r.1, r.2.1⟩ (hfin2 fuel r hrun) (hlater hround)
termination_by (max - s.steps, s.net.potential)

variable (C apply cfg n ps port)

/-- If every round of a call is charged, it returns after at most `max` firings. -/
theorem fuel_bounds_work (hmax : cfg.maxSteps = some max) (hfin : n.AgentsFinite)
    (hcharged : ∀ s, Relation.ReflTransGen (RoundTo C apply cfg port) ⟨0, n, ps⟩ s →
      Charged C cfg port s) :
    (∃ r least, ∀ fuel, least ≤ fuel →
      (n.forceWhnfWithPrims C apply cfg fuel 0 ps port).run = some r) ∧
      ∀ fuel, forceFirings C apply cfg fuel 0 n ps port ≤ max := by
  obtain ⟨⟨hruns, -⟩, hle⟩ := ends_of_charged hmax ⟨0, n, ps⟩ hfin hcharged
  exact ⟨hruns, hle⟩

end

/-! ## More fuel changes no result -/

section

variable {α β : Type} {C : NetClass} {apply : PrimApply P} {cfg : NormalizeConfig} {port : PortId}

/-- What `x` returns, `y` returns. -/
def Below (x y : Fueled α) : Prop := ∀ r, x.run = some r → y.run = some r

theorem Below.refl (x : Fueled α) : Below x x := fun _ h => h

theorem Below.bind {x y : Fueled α} {f g : α → Fueled β} (hx : Below x y)
    (hf : ∀ a, Below (f a) (g a)) : Below (x >>= f) (y >>= g) := by
  intro r hr
  rw [ExceptT.run_bind] at hr ⊢
  cases hrun : x.run with
  | none =>
    rw [hrun] at hr
    cases hr
  | some o =>
    rw [hrun] at hr
    rw [hx o hrun]
    cases o with
    | error e => exact hr
    | ok a => exact hf a r hr

theorem below_succ (fuel : Nat) :
    (∀ (steps : Nat) (n : Net) (ps : PrimState P) (port : PortId),
      Below (n.forceWhnfWithPrims C apply cfg fuel steps ps port)
        (n.forceWhnfWithPrims C apply cfg (fuel + 1) steps ps port)) ∧
    ∀ (n : Net) (ps : PrimState P) (pair : ActivePair) (stats : ReduceStats),
      Below (n.stepWithPrims C apply cfg fuel ps pair stats)
        (n.stepWithPrims C apply cfg (fuel + 1) ps pair stats) := by
  induction fuel with
  | zero => refine ⟨fun _ _ _ _ _ h => ?_, fun _ _ _ _ _ h => ?_⟩ <;> cases h
  | succ fuel ih =>
    obtain ⟨ihForce, ihStep⟩ := ih
    refine ⟨fun steps n ps port => ?_, fun n ps pair stats => ?_⟩
    · rw [forceWhnfWithPrims, forceWhnfWithPrims]
      dsimp only
      split
      · exact .refl _
      · split
        · refine .bind (.refl _) fun r => ?_
          split
          · exact ihForce steps _ ps port
          · exact .refl _
        · split
          · exact .refl _
          · split
            · exact .refl _
            · exact .bind (ihStep _ ps _ {}) fun r => ihForce (steps + 1) r.1 r.2.1 port
    · rw [stepWithPrims, stepWithPrims]
      dsimp only
      split
      · exact .refl _
      · split
        · exact .refl _
        · split
          · split
            · exact .refl _
            · exact .bind (ihForce 0 n ps _) fun r => .refl _
          · exact .refl _

theorem round_succ {fuel : Nat} {s s' : WhnfCall P} (h : round C apply cfg port fuel s = some s') :
    round C apply cfg port (fuel + 1) s = some s' := by
  unfold round at h ⊢
  split
  · next hhead =>
    rw [hhead] at h
    cases h
  · next hhead =>
    rw [hhead] at h
    dsimp only at h
    split
    · next htake =>
      rw [htake] at h
      exact h
    · next htake =>
      rw [htake] at h
      dsimp only at h
      split
      · next hover =>
        rw [if_pos hover] at h
        cases h
      · next hover =>
        rw [if_neg hover] at h
        split at h
        · next n2 ps2 stats hrun =>
          rw [(below_succ fuel).2 _ _ _ _ _ hrun]
          exact h
        · cases h

theorem RoundTo.unique {s s' s'' : WhnfCall P} (h : RoundTo C apply cfg port s s')
    (h' : RoundTo C apply cfg port s s'') : s' = s'' := by
  obtain ⟨fuel, h⟩ := h
  obtain ⟨fuel', h'⟩ := h'
  have hmono {f : Nat} {t : WhnfCall P} (hf : round C apply cfg port f s = some t) (g : Nat) :
      round C apply cfg port (f + g) s = some t := by
    induction g with
    | zero => exact hf
    | succ g ih => exact round_succ ih
  have heq := hmono h fuel'
  rw [Nat.add_comm, hmono h' fuel] at heq
  exact (Option.some.inj heq).symm

/-- A round that finds the argument of every primitive ready. -/
def readyRound (C : NetClass) (port : PortId) (s : WhnfCall P) : Bool :=
  match s.net.takeSpineRedex port with
  | (none, n) => !n.replicates C
  | (some pair, n) =>
    (n.appPrim pair).all fun app =>
      (n.classifyHead (n.headAt (.new app.1.slotIdx .aux1 app.1.genLow))).isSome

theorem Charged.of_ready {s : WhnfCall P} (h : readyRound C port s = true) :
    Charged C cfg port s := by
  intro _
  unfold readyRound at h
  split at h
  · simpa using h
  · intro _ pApp pPf happ
    rw [happ] at h
    exact .head h

/-- All the rounds of a call that reaches its head in at most `k` rounds, each of them ready. -/
def readyRounds (C : NetClass) (apply : PrimApply P) (cfg : NormalizeConfig) (port : PortId) :
    Nat → WhnfCall P → Bool
  | 0, s => (s.net.classifyHead (s.net.headAt port)).isSome
  | k + 1, s => readyRound C port s && (round C apply cfg port 1 s).any (readyRounds C apply cfg port k)

theorem charged_of_readyRounds : ∀ {k : Nat} {s s' : WhnfCall P},
    readyRounds C apply cfg port k s = true →
    Relation.ReflTransGen (RoundTo C apply cfg port) s s' → Charged C cfg port s'
  | 0, s, s', hready, hreach => by
    obtain ⟨vh, hhead⟩ := Option.isSome_iff_exists.mp hready
    obtain rfl | ⟨t, ⟨fuel, hround⟩, -⟩ := hreach.cases_head
    · intro hnone
      rw [hhead] at hnone
      cases hnone
    · simp only [round, hhead] at hround
      cases hround
  | k + 1, s, s', hready, hreach => by
    obtain ⟨hnow, hnext⟩ := Bool.and_eq_true_iff.mp hready
    obtain ⟨t, hround, hready⟩ : ∃ t, round C apply cfg port 1 s = some t ∧
        readyRounds C apply cfg port k t = true := by simpa [Option.any_eq_true] using hnext
    obtain rfl | ⟨t', hround', hrest⟩ := hreach.cases_head
    · exact .of_ready hnow
    · obtain rfl := RoundTo.unique ⟨1, hround⟩ hround'
      exact charged_of_readyRounds hready hrest

end

/-- `(λx.x) (f 5)` for the primitive `f`. -/
def readyArgument : Except DnxError Demand := do
  let (f, n, ps) ← (Net.new 16).allocPrimFun ⟨[], []⟩ (.mk "f" 1 [] (.inl ()))
  let (five, n, ps) ← n.allocPrimVal ps (.int 5)
  let (outer, n) ← n.allocApp
  let (inner, n) ← n.allocApp
  let (abs, n) ← n.allocAbs
  let (root, n) ← n.allocFree 0
  let n := n.connect abs.aux0 abs.aux1 .root
  let n := n.connect outer.principal abs.principal .root
  let n := n.connect outer.aux1 inner.aux0 .root
  let n := n.connect inner.principal f .root
  let n := n.connect inner.aux1 five .root
  return ⟨n.connect outer.aux0 root .root, ps, root⟩

theorem readyArgument_finite {d : Demand} (h : readyArgument = .ok d) : d.net.AgentsFinite := by
  obtain ⟨⟨f, n1, ps1⟩, hn1, h⟩ := bind_eq_ok.mp h
  obtain ⟨⟨five, n2, ps2⟩, hn2, h⟩ := bind_eq_ok.mp h
  obtain ⟨⟨outer, n3⟩, hn3, h⟩ := bind_eq_ok.mp h
  obtain ⟨⟨inner, n4⟩, hn4, h⟩ := bind_eq_ok.mp h
  obtain ⟨⟨abs, n5⟩, hn5, h⟩ := bind_eq_ok.mp h
  obtain ⟨⟨root, n6⟩, hn6, h⟩ := bind_eq_ok.mp h
  cases h
  have hnew : (Net.new 16).AgentsFinite :=
    Set.finite_empty.subset fun i hi => by rcases hi with hi | hi <;> cases hi
  obtain ⟨ps, hn6, -⟩ := allocAgent_of_allocFree hn6
  have hnet : n6.AgentsFinite :=
    (((((hnew.allocPrimFun hn1).allocPrimVal hn2).allocAgent hn3).allocAgent hn4).allocAgent
      hn5).allocAgent hn6
  exact (((((hnet.connect _ _ _).connect _ _ _).connect _ _ _).connect _ _ _).connect
    _ _ _).connect _ _ _

theorem readyArgument_bounded : ∃ d ∈ readyArgument.toOption,
    (∃ r least, ∀ fuel, least ≤ fuel →
      (d.net.forceWhnfWithPrims .ΔK identityPrim ⟨some 2, none⟩ fuel 0 d.prims d.port).run =
        some r) ∧
      ∀ fuel, forceFirings .ΔK identityPrim ⟨some 2, none⟩ fuel 0 d.net d.prims d.port ≤ 2 := by
  have hready : ∃ d ∈ readyArgument.toOption,
      readyRounds .ΔK identityPrim ⟨some 2, none⟩ d.port 2 ⟨0, d.net, d.prims⟩ = true := by
    decide +kernel
  obtain ⟨d, hd, hready⟩ := hready
  have hbuilt : readyArgument = .ok d := by
    cases hr : readyArgument with
    | error e =>
      rw [hr] at hd
      cases hd
    | ok d' =>
      rw [hr] at hd
      cases hd
      rfl
  exact ⟨d, hd, fuel_bounds_work d.net .ΔK identityPrim _ d.port d.prims rfl
    (readyArgument_finite hbuilt) fun s hs => charged_of_readyRounds hready hs⟩

end Net

end Dnet
