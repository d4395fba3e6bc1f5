import Dnet.Reduce.Registered
import Dnet.Reduce.Sweep

/-!
# The certificate

What phase 2 and C1 do to the wires, and when `normalize` ends without a redex.

Phase 2 fires no pair and its rewrites link nothing silently, so a redex it makes shows
in the queue and the certificate refuses the net (`Shows`). C1 makes no wires at all.
-/

namespace Dnet

open Lib List

namespace Net

/-! ## Phase 2 -/

/-- A net with a redex has a queue that is not empty. -/
structure Shows (n : Net) : Prop where
  wf : n.arena.WF
  apart : CandidatesApart n
  shows : ∀ i j, Wire n i j → ∃ e, e ∈ n.frontier1

section

variable {n n' : Net} {cand : C4Candidate} {C : NetClass} {label : Nat × Int × Int}
  {kind : AgentKind}

theorem exists_mem_link (ps : List AgentPorts) (l : Link)
    (h : (∃ e, e ∈ n.frontier1) ∨ ∃ k, l.Queues ps k) : ∃ e, e ∈ (n.link ps l).frontier1 := by
  by_cases hq : ∃ k, l.Queues ps k
  · obtain ⟨k, hq⟩ := hq
    exact ⟨_, mem_frontier1_link.mpr (.inl ⟨k, hq, rfl⟩)⟩
  · rcases h with ⟨e, he⟩ | h
    · exact ⟨e, mem_frontier1_link.mpr (.inr ⟨he, fun k hk => absurd ⟨k, hk⟩ hq⟩)⟩
    · exact absurd h hq

theorem exists_mem_links (ps : List AgentPorts) : ∀ (ls : List Link) {n : Net},
    (∃ e, e ∈ n.frontier1) ∨ (∃ l ∈ ls, ∃ k, l.Queues ps k) →
      ∃ e, e ∈ (ls.foldl (fun n l => n.link ps l) n).frontier1
  | [], _, h => h.elim id fun ⟨_, hl, _⟩ => absurd hl not_mem_nil
  | l :: ls, n, h => by
    refine exists_mem_links ps ls (n := n.link ps l) ?_
    rcases h with he | ⟨l', hl', hq⟩
    · exact .inl (exists_mem_link ps l (.inl he))
    · rcases mem_cons.mp hl' with rfl | hl'
      · exact .inl (exists_mem_link ps l' (.inr hq))
      · exact .inr ⟨l', hl', hq⟩

/-- A rewrite without silent links keeps a redex in sight. -/
theorem Shows.run {rw : Rewrite} (hs : Shows n) (hret : rw.RetiresLive n)
    (hlo : ∀ l ∈ rw.links, l.lo ≠ none) (hrun : rw.run n = .ok n') : Shows n' := by
  obtain ⟨is, ps, n1, n2, hran⟩ := Rewrite.run_ok hs.wf hrun
  refine ⟨hran.wf hret, candidatesApart_run hran hs.apart, fun i j hw => ?_⟩
  rw [hran.link]
  refine exists_mem_links ps rw.links ?_
  rw [frontier1_before_links hran]
  rcases wire_run hran hret hw with ⟨hold, -, -⟩ | ⟨l, hl, hjoin⟩
  · exact .inl (hs.shows i j hold)
  · obtain ⟨k, hk⟩ := Option.ne_none_iff_exists'.mp (hlo l hl)
    exact .inr ⟨l, hl, k, hk, hjoin.isPair⟩

theorem Shows.cstep {lo : LOPath} {plan : Net → PortId → Option Rewrite} {p : PortId} (hs : Shows n)
    (hc : Checks lo plan) (hl : n.arena.isLive p.slotIdx = true) (h : CStep (plan n p) n n') :
    Shows n' := by
  cases h with
  | idle _ hn => exact hn ▸ hs
  | act hp hrun =>
    have hshape := hc _ _ _ hp
    refine hs.run (retiresLive_of_check hshape hl) (fun l hl => ?_) hrun
    obtain ⟨a, b, hlinks, -⟩ := hshape.links
    rw [hlinks, mem_singleton] at hl
    rw [hl]
    exact Option.some_ne_none lo

/-- C4 retires its two agents and links nothing silently. -/
theorem c4Rewrite_shape {rw : Rewrite} (h : n.c4Rewrite cand = .ok rw) :
    rw.retired = [cand.appAux0.slotIdx, cand.repPrincipal.slotIdx] ∧
      ∀ l ∈ rw.links, l.lo ≠ none := by
  obtain ⟨lo0, _, h⟩ := bind_eq_ok.mp h
  obtain ⟨lo1, _, h⟩ := bind_eq_ok.mp h
  split at h
  · cases h
    exact ⟨rfl, by simp⟩
  · obtain ⟨lo00, _, h⟩ := bind_eq_ok.mp h
    obtain ⟨lo01, _, h⟩ := bind_eq_ok.mp h
    obtain ⟨lo10, _, h⟩ := bind_eq_ok.mp h
    obtain ⟨lo11, _, h⟩ := bind_eq_ok.mp h
    cases h
    exact ⟨rfl, by simp⟩

theorem portLive_of_not_staleC4 (h : n.isStaleC4 cand = false) :
    n.portLive cand.repPrincipal = true ∧ n.portLive cand.appAux0 = true := by
  simpa [isStaleC4] using h

theorem Shows.c4 (hs : Shows n)
    (he : cand.repPrincipal.isEraser = false ∧ cand.appAux0.isEraser = false ∧
      cand.repPrincipal.slotIdx ≠ cand.appAux0.slotIdx)
    (hl : n.isStaleC4 cand = false) (h : n.c4 C cand = .ok n') : Shows n' := by
  obtain ⟨hrep, happ⟩ := portLive_of_not_staleC4 hl
  unfold Net.c4 at h
  split at h
  · obtain ⟨rw, hrw, hrun⟩ := c4AuxFanReplication_ok h
    obtain ⟨hret, hlo⟩ := c4Rewrite_shape hrw
    refine hs.run ?_ hlo hrun
    rw [Rewrite.RetiresLive, hret]
    refine ⟨by simpa using he.2.2.symm, fun i hi => ?_⟩
    simp only [mem_cons, not_mem_nil, or_false] at hi
    rcases hi with rfl | rfl
    · exact ((portLive_iff he.2.1).mp happ).1
    · exact ((portLive_iff he.1).mp hrep).1
  · cases h
    exact hs

theorem Shows.drainPhase2 {more : Bool} (hs : Shows n) (h : n.drainPhase2 C = .ok (n', more)) :
    Shows n' := by
  unfold Net.drainPhase2 at h
  split at h
  · cases h
    exact hs
  · split at h
    · cases h
      exact hs
    · next k cand rest hpop =>
      have hmem (e : LOPath × C4Candidate) : e ∈ n.frontier2 ↔ e = (k, cand) ∨ e ∈ rest :=
        OrdMap.mem_of_popFirst hpop
      have he := hs.apart _ ((hmem _).mpr (.inl rfl))
      have hs1 : Shows { n with frontier2 := rest } :=
        ⟨hs.wf, fun e he => hs.apart e ((hmem e).mpr (.inr he)), fun i j hw =>
          hs.shows i j (hw.carry (fun _ h => h) (fun _ => rfl) (fun _ _ h => h))⟩
      dsimp only at h
      split at h
      · cases h
        exact hs1
      · next hl =>
        have hlive {m : Net} (hm : ¬m.isStaleC4 cand = true) :
            m.arena.isLive cand.repPrincipal.slotIdx = true :=
          ((portLive_iff he.1).mp (portLive_of_not_staleC4 (Bool.eq_false_iff.mpr hm)).1).1
        obtain ⟨m, h3, h⟩ := bind_eq_ok.mp h
        have hs2 : Shows m :=
          hs1.cstep (c3Plan_checks C cand.lo) (hlive hl) ((c3_check C cand.lo).step_if h3)
        split at h
        · cases h
          exact hs2
        · next hl' =>
          -- without erasers C3 was left out and nothing has changed
          have hl2 : ¬m.isStaleC4 cand = true := by
            cases hera : C.hasEra with
            | true =>
              rw [hera] at hl'
              exact hl'
            | false =>
              rw [hera] at h3
              cases h3
              exact hl
          obtain ⟨m', h2, h⟩ := bind_eq_ok.mp h
          have hs3 : Shows m' := hs2.cstep (c2Plan_checks C cand.lo) (hlive hl2) (c2_cstep h2)
          split at h
          · cases h
            exact hs3
          · next hl3 =>
            obtain ⟨m'', h4, h⟩ := bind_eq_ok.mp h
            cases h
            exact hs3.c4 he (Bool.eq_false_iff.mpr hl3) h4

/-! ## C1 -/

/-- `n'` has the queue of `n`, and its agents and ports, except that some agents are gone. -/
structure Sweeps (n n' : Net) : Prop where
  live : ∀ i, n'.arena.isLive i = true → n.arena.isLive i = true
  kind : ∀ i, (n'.bodyAt i).kind = (n.bodyAt i).kind
  port : ∀ c, n'.portAt c = n.portAt c
  frontier1 : n'.frontier1 = n.frontier1

theorem Sweeps.refl (n : Net) : Sweeps n n := ⟨fun _ h => h, fun _ => rfl, fun _ => rfl, rfl⟩

theorem Sweeps.wire (h : Sweeps n n') {i j : Nat} (hw : Wire n' i j) : Wire n i j :=
  hw.carry h.live h.kind fun k l hf => by
    unfold Faces at hf ⊢
    rwa [h.port] at hf

theorem sweeps_c1 (C : NetClass) (hwf : n.arena.WF) : Sweeps n (n.c1 C) := by
  unfold Net.c1
  split
  · have hs := swept_c1MarkSweep hwf
    refine ⟨fun i hi => ?_, fun i => ?_, hs.portAt, hs.frontier1⟩
    · rw [hs.isLive, Bool.and_eq_true] at hi
      exact hi.1
    · simp [bodyAt, hs.slots]
  · exact .refl n

/-! ## Runs of `normalize` -/

theorem certifyCanonical_ok {u : Unit} (h : n.certifyCanonical = .ok u) :
    n.frontier1.isEmpty = true ∧ n.frontier2.isEmpty = true ∧ n.pendingC1 = false := by
  unfold certifyCanonical at h
  split at h
  · next hc =>
    simp only [Bool.and_eq_true, Bool.not_eq_true'] at hc
    exact ⟨hc.1.1, hc.1.2, hc.2⟩
  · cases h

theorem no_wire_of_finish (hs : Shows n) (h : finish C n = .ok n') (i j : Nat) : ¬Wire n' i j := by
  intro hw
  obtain ⟨⟨⟩, hcert, h⟩ := bind_eq_ok.mp h
  cases h
  have hsweep : Sweeps n (if n.pendingC1 then n.c1 C else n) := by
    split
    · exact sweeps_c1 C hs.wf
    · exact .refl n
  obtain ⟨e, he⟩ := hs.shows i j (hsweep.wire hw)
  rw [← hsweep.frontier1] at he
  exact OrdMap.popFirst_eq_none (OrdMap.isEmpty_iff.mp (certifyCanonical_ok hcert).1) e he

/-- The condition along a run: every pair that phase 1 pops is safe. -/
def RunSafe (C : NetClass) (n : Net) : Prop := Pops C (StepSafe C) (n, {})

theorem queued_of_runs (hq : Queued n) (hsafe : RunSafe C n) {st : Net × ReduceStats}
    (h : Runs (phase1Round C) (n, {}) st) : Queued st.1 := by
  induction h with
  | refl => exact hq
  | tail hruns hstep ih => exact queued_round ih (hsafe _ hruns) hstep

theorem no_wire_of_normalize {fuel : Nat} {stats : ReduceStats} (hq : Queued n)
    (hsafe : RunSafe C n) (h : n.normalize C fuel = some (.ok (n', stats))) (i j : Nat) :
    ¬Wire n' i j := by
  generalize hr : (.ok (n', stats) : Except DnxError (Net × ReduceStats)) = r at h
  cases normalize_ends h with
  | phase1 => cases hr
  | phase2 => cases hr
  | @finish st m m' hruns _ hruns2 hstop2 =>
    have hqueued := queued_of_runs hq hsafe hruns
    have hshows : Shows st.1 := ⟨hqueued.wf, hqueued.apart, fun i j hw =>
      (hqueued.registered i j hw).imp fun _ he => he.1⟩
    have hs := hruns2.invariant hshows fun _ _ hm h => Shows.drainPhase2 hm (phase2Round_next h)
    cases hf : finish C m' with
    | error e =>
      rw [hf] at hr
      cases hr
    | ok n'' =>
      rw [hf] at hr
      cases hr
      exact no_wire_of_finish (hs.drainPhase2 hstop2) hf i j

/-! ## Built nets -/

/-- The operations a net is built with: `alloc_*`, `connect`, `add_root`. -/
inductive BuildOp where
  | alloc (kind : AgentKind) (data : Nat) (delta0 delta1 : Int)
  | allocFree (varId : Nat)
  | connect (a b : PortId) (lo : LOPath)
  | addRoot (name : String) (port : PortId)

def BuildOp.run (n : Net) : BuildOp → Except DnxError Net
  | .alloc kind data delta0 delta1 => return (← n.allocAgent kind data delta0 delta1).2
  | .allocFree varId => return (← n.allocFree varId).2
  | .connect a b lo => return n.connect a b lo
  | .addRoot name port => return n.addRoot name port

/-- An active pair is connected at a path of its own. -/
def BuildOp.OwnPath (n : Net) : BuildOp → Prop
  | .connect a b lo => IsPair a b → ∀ e ∈ n.frontier1.entries, e.1 ≠ lo
  | .alloc _ _ _ _ | .allocFree _ | .addRoot _ _ => True

instance (n : Net) : DecidablePred (BuildOp.OwnPath n)
  | .connect a b lo => inferInstanceAs (Decidable (IsPair a b → ∀ e ∈ n.frontier1.entries, e.1 ≠ lo))
  | .alloc _ _ _ _ | .allocFree _ | .addRoot _ _ => inferInstanceAs (Decidable True)

/-- Nets built with every active pair at a path of its own. -/
inductive Built : Net → Prop where
  | new (capacity : Nat) : Built (.new capacity)
  | step {n n' : Net} {op : BuildOp} (hb : Built n) (hown : op.OwnPath n) (h : op.run n = .ok n') :
      Built n'

theorem wire_alloc {k : Nat}
    (ha : Alloc n kind label k n') {i j : Nat} (h : Wire n' i j) : Wire n i j := by
  refine wire_of_faces (fun l m hf => ?_) h
  by_cases hl : l = k
  · obtain ⟨g, hs⟩ := ha.slot_new
    rw [Faces, portAt, hl, hs] at hf
    cases hf.1
  · exact ⟨ha.slot_old l hl, by simp [ha.isLive, hl]⟩

theorem Queued.alloc {k : Nat} (hq : Queued n) (ha : Alloc n kind label k n') : Queued n' where
  wf := (ha.wf hq.wf).1
  keyed := by
    unfold Keyed
    rw [ha.frontier1]
    exact hq.keyed
  apart := candidatesApart_of_frontier2 ha.frontier2 hq.apart
  registered := fun i j hw => by
    rw [ha.frontier1]
    exact hq.registered i j (wire_alloc ha hw)

theorem Queued.connect {a b : PortId} {lo : LOPath} (hq : Queued n)
    (hown : IsPair a b → ∀ e ∈ n.frontier1, e.1 ≠ lo) : Queued (n.connect a b lo) where
  wf := wf_link [] ⟨.ext a, .ext b, some lo⟩ hq.wf
  keyed := keyed_link [] ⟨.ext a, .ext b, some lo⟩ hq.keyed
  apart := candidatesApart_links [] [⟨.ext a, .ext b, some lo⟩] hq.apart
  registered := fun i j hw => by
    have hw : (n.link [] ⟨.ext a, .ext b, some lo⟩).Wire i j := hw
    rcases wire_link hw with hold | hjoin
    · obtain ⟨e, he, hn⟩ := hq.registered i j hold
      exact ⟨e, mem_frontier1_connect.mpr (.inr ⟨he, fun hp => hown hp e he⟩), hn⟩
    · exact ⟨_, mem_frontier1_connect.mpr (.inl ⟨hjoin.isPair, rfl⟩), hjoin.names _ _⟩

theorem Built.queued (h : Built n) : Queued n := by
  induction h with
  | new capacity =>
    refine ⟨.new capacity, fun e he => ?_, fun e he => ?_, fun i j hw => ?_⟩
    · exact absurd he OrdMap.not_mem_empty
    · exact absurd he OrdMap.not_mem_empty
    · cases hw.live_left
  | @step n n' op _ hown h hq =>
    cases op with
    | alloc kind data delta0 delta1 =>
      obtain ⟨⟨ps, m⟩, ha, h⟩ := bind_eq_ok.mp h
      cases h
      obtain ⟨i, hi, -⟩ := allocAgent_ok ha
      exact hq.alloc hi
    | allocFree varId =>
      obtain ⟨⟨p, m⟩, ha, h⟩ := bind_eq_ok.mp h
      cases h
      obtain ⟨i, hi, -⟩ := allocFree_ok ha
      exact hq.alloc hi
    | connect a b lo =>
      cases h
      exact hq.connect hown
    | addRoot name port =>
      cases h
      exact ⟨hq.wf, hq.keyed, hq.apart, fun i j hw =>
        hq.registered i j (hw.carry (fun _ h => h) (fun _ => rfl) (fun _ _ h => h))⟩

/-- From a built net, in a run all of whose popped pairs are safe, every wire between two
principal ports of live fans or replicators is queued in every state of phase 1, and none
is left when `normalize` returns. -/
theorem normalize_certifies {C : NetClass} {n : Net} (hb : Built n) (hsafe : RunSafe C n) :
    (∀ st, Runs (phase1Round C) (n, {}) st → Registered st.1) ∧
      ∀ fuel n' stats, n.normalize C fuel = some (.ok (n', stats)) → ∀ i j, ¬Wire n' i j :=
  ⟨fun _ hruns => (queued_of_runs hb.queued hsafe hruns).registered,
    fun _ _ _ h => no_wire_of_normalize hb.queued hsafe h⟩

/-! ## A safe run, and one that loses a redex -/

/-- Run the operations, and check on the way that pairs are connected at their own paths. -/
def ownPaths : List BuildOp → Net → Bool
  | [], _ => true
  | op :: ops, n =>
    decide (op.OwnPath n) &&
      match op.run n with
      | .ok n' => ownPaths ops n'
      | .error _ => false

/-- The net that the operations build. -/
def build : List BuildOp → Net → Net
  | [], n => n
  | op :: ops, n =>
    match op.run n with
    | .ok n' => build ops n'
    | .error _ => n

theorem built_build : ∀ {ops : List BuildOp} {n : Net}, Built n → ownPaths ops n = true →
    Built (build ops n)
  | [], _, hb, _ => hb
  | op :: ops, n, hb, h => by
    rw [ownPaths, Bool.and_eq_true, decide_eq_true_iff] at h
    rw [build]
    cases hrun : op.run n with
    | error e =>
      rw [hrun] at h
      cases h.2
    | ok n' =>
      rw [hrun] at h
      exact built_build (.step hb h.1 hrun) h.2

/-- Two fans, no other pair queued, and no silent link. -/
def loneBeta (n : Net) (pair : ActivePair) : Bool :=
  !n.isStalePair pair && pair.p0.1.slotIdx != pair.p1.1.slotIdx && (n.slot pair.p0.1).isFan &&
    n.frontier1.isEmpty &&
    match n.ruleRewrite pair with
    | .ok rw => rw.links.all (·.lo.isSome)
    | .error _ => true

theorem stepSafe_of_loneBeta (C : NetClass) {pair : ActivePair} (h : loneBeta n pair = true) :
    StepSafe C n pair := by
  simp only [loneBeta, Bool.and_eq_true, Bool.not_eq_true', bne_iff_ne] at h
  obtain ⟨⟨⟨⟨hlive, hne⟩, hf⟩, hempty⟩, hlinks⟩ := h
  refine ⟨fun hs => ?_, fun _ _ _ => hne, fun _ hr _ => ?_, fun _ _ rw hrw a b hl => ?_,
    fun _ _ _ _ _ _ _ _ e he => ?_⟩
  · rw [hlive] at hs
    cases hs
  · rw [not_isFan_of_isRep hr] at hf
    cases hf
  · rw [hrw] at hlinks
    exact absurd (all_eq_true.mp hlinks _ hl) (by simp)
  · exact absurd he (OrdMap.popFirst_eq_none (OrdMap.isEmpty_iff.mp hempty) e)

end

section

open PortKind BuildOp

/-- The port of a slot that was allocated once. -/
def firstPort (i : Nat) (k : PortKind) : PortId := .new i k false

/-- A connection at the root path. -/
def wireUp (i : Nat) (k : PortKind) (j : Nat) (l : PortKind) : BuildOp :=
  .connect (firstPort i k) (firstPort j l) .root

/-- `λq. (λx. x q) (λz. λw. z w)`. -/
def twoBetas : Net :=
  build [alloc .fanAbs 0 0 0, alloc .fanApp 0 0 0, alloc .fanAbs 0 0 0, alloc .fanApp 0 0 0,
    alloc .fanAbs 0 0 0, alloc .fanAbs 0 0 0, alloc .fanApp 0 0 0,
    wireUp 2 aux0 1 aux0, wireUp 2 aux1 5 principal, wireUp 3 aux0 4 aux0, wireUp 3 aux1 4 principal,
    wireUp 4 aux1 1 aux1, wireUp 5 aux0 6 principal, wireUp 5 aux1 7 principal,
    wireUp 6 aux0 7 aux0, wireUp 6 aux1 7 aux1, wireUp 2 principal 3 principal] (.new 16)

theorem twoBetas_certified : (∀ st, Runs (phase1Round .ΔL) (twoBetas, {}) st → Registered st.1) ∧
      ∀ fuel n' stats, twoBetas.normalize .ΔL fuel = some (.ok (n', stats)) → ∀ i j, ¬Wire n' i j :=
  normalize_certifies (built_build (.new 16) (by decide +kernel))
    (pops_of_upTo (fun _ _ => stepSafe_of_loneBeta .ΔL)
      (show popsUpTo .ΔL loneBeta 4 _ = true by decide +kernel))

instance (n : Net) (i j : Nat) : Decidable (n.Faces i j) :=
  inferInstanceAs (Decidable (_ ∧ _))

instance (n : Net) (i j : Nat) : Decidable (n.Wire i j) :=
  decidable_of_iff (i ≠ j ∧ n.arena.isLive i = true ∧ n.arena.isLive j = true ∧
      (n.arena.slots i).kind.structural = true ∧ (n.arena.slots j).kind.structural = true ∧
      n.Faces i j ∧ n.Faces j i)
    ⟨fun ⟨h1, h2, h3, h4, h5, h6, h7⟩ => ⟨h1, h2, h3, h4, h5, h6, h7⟩,
      fun h => ⟨h.1, h.2, h.3, h.4, h.5, h.6, h.7⟩⟩

/-- `((λx.x) (λy.y)) (λz.z)` under a binder: slot 3 is the outer application. -/
def silentRedex : Net :=
  build [alloc .fanAbs 0 0 0, alloc .fanApp 0 0 0, alloc .fanApp 0 0 0, alloc .fanAbs 0 0 0,
    alloc .fanAbs 0 0 0, alloc .fanAbs 0 0 0,
    wireUp 1 aux0 1 aux1, wireUp 4 aux0 4 aux1, wireUp 5 aux0 5 aux1,
    wireUp 2 aux0 3 principal, wireUp 2 aux1 4 principal, wireUp 3 aux1 5 principal,
    wireUp 3 aux0 6 aux0, wireUp 2 principal 1 principal] (.new 16)

/-- `normalize` certifies a net in which an application still faces an abstraction. -/
theorem silentRedex_left :
    Built silentRedex ∧ ∃ r, silentRedex.normalize .ΔL 4 = some (.ok r) ∧ Wire r.1 3 4 := by
  refine ⟨built_build (.new 16) (by decide +kernel), ?_⟩
  obtain ⟨r, hr, hw⟩ := exists_of_returns
    (show returns (fun r : Net × ReduceStats => decide (Wire r.1 3 4))
      (silentRedex.normalize .ΔL 4) = true by decide +kernel)
  exact ⟨r, hr, of_decide_eq_true hw⟩

end

end Net

end Dnet
