import Dnet.Reduce.Canon
import Dnet.Reduce.Rules

/-!
# Normalisation

`normalize` (reduce/mod.rs): phase 1 pops active pairs in path order and fires them,
phase 2 drains the C4 candidates, C1 runs if it is pending, and the result is
certified. The loops take fuel; `none` means that the fuel did not suffice, and a
statement that `normalize` returns is a statement that some fuel does.
-/

namespace Dnet

open Lib

structure ReduceStats where
  interactions : Nat := 0
  r4Count : Nat := 0
  deriving DecidableEq, Repr

namespace Net

/-! ## Staleness -/

/-- The port's agent is live and of the port's generation; the eraser always is. -/
def portLive (n : Net) (p : PortId) : Bool :=
  p.isEraser || (n.arena.isLive p.slotIdx && p.genLow == (n.slot p).genLow)

def isStalePair (n : Net) (pair : ActivePair) : Bool :=
  !n.portLive pair.p0.1 || !n.portLive pair.p1.1

theorem portLive_of_not_stale {n : Net} {pair : ActivePair} (h : n.isStalePair pair = false) :
    n.portLive pair.p0.1 = true ∧ n.portLive pair.p1.1 = true := by
  simpa [isStalePair] using h

def isStaleC4 (n : Net) (cand : C4Candidate) : Bool :=
  !n.portLive cand.repPrincipal || !n.portLive cand.appAux0

/-! ## Dispatch -/

section

variable (C : NetClass)

/-- Era ⊗ Rep: C3 first, R3 if the replicator is still there. -/
def dispatchEraRep (n : Net) (repP : PortId) (lo : LOPath) : Except DnxError Net := do
  if C.hasEra then
    let n ← n.c3 C repP lo
    if !n.portLive repP then return n
    n.r3EraRep repP lo
  else n.r3EraRep repP lo

/-- What runs before R5 on the replicator of the pair: C3 if the class has erasers,
C2 if it has replicators. `false` means that the replicator is gone. -/
def preFanRep (n : Net) (repP : PortId) (lo : LOPath) : Except DnxError (Net × Bool) := do
  let n ← (if C.hasEra then n.c3 C repP lo else .ok n)
  if C.hasEra && !n.portLive repP then return (n, false)
  let n ← (if C.hasRep then n.c2 C repP lo else .ok n)
  if C.hasRep && !n.portLive repP then return (n, false)
  return (n, true)

/-- Fan ⊗ Rep. -/
def dispatchFanRep (n : Net) (fanP repP : PortId) (lo : LOPath) : Except DnxError Net := do
  let (n, alive) ← n.preFanRep C repP lo
  if alive then n.r5FanRep fanP repP lo else return n

/-- What runs before R6 and R7: C3 on both replicators, then C2 on both. -/
def preRepRep (n : Net) (p0 p1 : PortId) (lo : LOPath) : Except DnxError (Net × Bool) := do
  let n ← (if C.hasEra then (do (← n.c3 C p0 lo).c3 C p1 lo) else .ok n)
  if C.hasEra && (!n.portLive p0 || !n.portLive p1) then return (n, false)
  let n ← (if C.hasRep then (do (← n.c2 C p0 lo).c2 C p1 lo) else .ok n)
  if C.hasRep && (!n.portLive p0 || !n.portLive p1) then return (n, false)
  return (n, true)

/-- Rep ⊗ Rep: R6 on equal labels, R7 on different ones. -/
def dispatchRepRep (n : Net) (p0 p1 : PortId) (lo : LOPath) : Except DnxError Net := do
  let (n, alive) ← n.preRepRep C p0 p1 lo
  if !alive then return n
  else if (n.slot p0).label = (n.slot p1).label then n.r6RepRep p0 p1 lo
  else n.r7RepRep p0 p1 lo

def dispatchPhase1 (n : Net) (pair : ActivePair) (stats : ReduceStats) :
    Except DnxError (Net × ReduceStats) := do
  let p0 := pair.p0.1
  let p1 := pair.p1.1
  let lo := pair.lo
  if p0.isEraser && p1.isEraser then
    -- R1: both erasers are virtual
    return (n, stats)
  else if p0.isEraser || p1.isEraser then
    let liveP := if p0.isEraser then p1 else p0
    if (n.slot liveP).isFan then return (← n.r2EraFan liveP lo, stats)
    else return (← n.dispatchEraRep C liveP lo, stats)
  else
    let s0 := n.slot p0
    let s1 := n.slot p1
    if s0.isFan && s1.isFan then
      return (← n.r4FanFan p0 p1 lo, { stats with r4Count := stats.r4Count + 1 })
    else if s0.isFan && s1.isRep then return (← n.dispatchFanRep C p0 p1 lo, stats)
    else if s0.isRep && s1.isFan then return (← n.dispatchFanRep C p1 p0 lo, stats)
    else if s0.isRep && s1.isRep then return (← n.dispatchRepRep C p0 p1 lo, stats)
    else .error .readbackIncomplete

/-! ## The loops -/

/-- One round of the phase-1 loop. -/
def phase1Round (st : Net × ReduceStats) :
    Except DnxError (Round (Net × ReduceStats) (Net × ReduceStats)) :=
  match st.1.frontier1.popFirst with
  | none => .ok (.done st)
  | some ((_, pair), rest) =>
    let n := { st.1 with frontier1 := rest }
    if n.isStalePair pair then .ok (.next (n, st.2))
    else do
      let st' ← n.dispatchPhase1 C pair { st.2 with interactions := st.2.interactions + 1 }
      return .next st'

/-- One candidate of phase 2: C3 decay, C2 merge, C4 replication. `true` when there
was a candidate. -/
def drainPhase2 (n : Net) : Except DnxError (Net × Bool) := do
  if !C.hasRep then return (n, false)
  else
    match n.frontier2.popFirst with
    | none => return (n, false)
    | some ((_, cand), rest) =>
      let n := { n with frontier2 := rest }
      if n.isStaleC4 cand then return (n, true)
      else
        let n ← (if C.hasEra then n.c3 C cand.repPrincipal cand.lo else .ok n)
        if C.hasEra && n.isStaleC4 cand then return (n, true)
        else
          let n ← n.c2 C cand.repPrincipal cand.lo
          if n.isStaleC4 cand then return (n, true)
          else return (← n.c4 C cand, true)

/-- One round of `while drain_phase2(..)? {}`. -/
def phase2Round (n : Net) : Except DnxError (Round Net Net) := do
  let (n, more) ← n.drainPhase2 C
  return if more then .next n else .done n

/-- After both loops: C1 if it is pending, then the certificate. -/
def finish (n : Net) : Except DnxError Net := do
  let n := if n.pendingC1 then n.c1 C else n
  n.certifyCanonical
  return n

/-- Phase 2, C1 and the certificate. -/
def finalizeCanonical (fuel : Nat) (n : Net) : Option (Except DnxError Net) := do
  return (← loop (phase2Round C) fuel n) >>= finish C

def normalize (fuel : Nat) (n : Net) : Option (Except DnxError (Net × ReduceStats)) := do
  match ← loop (phase1Round C) fuel (n, {}) with
  | .error e => return .error e
  | .ok (n, stats) => return (← n.finalizeCanonical C fuel).map (·, stats)

end

/-! ## Where the loops stop -/

variable {C : NetClass} {n : Net}

theorem phase1Round_done {st st' : Net × ReduceStats}
    (h : phase1Round C st = .ok (.done st')) : st' = st ∧ st.1.frontier1.popFirst = none := by
  unfold phase1Round at h
  split at h
  · next hnone =>
    cases h
    exact ⟨rfl, hnone⟩
  · dsimp only at h
    split at h
    · cases h
    · obtain ⟨_, _, h⟩ := bind_eq_ok.mp h
      cases h

theorem phase2Round_next {n n' : Net} (h : phase2Round C n = .ok (.next n')) :
    n.drainPhase2 C = .ok (n', true) := by
  obtain ⟨⟨m, more⟩, hd, h⟩ := bind_eq_ok.mp h
  cases more with
  | true =>
    cases h
    exact hd
  | false => cases h

theorem phase2Round_done {n n' : Net} (h : phase2Round C n = .ok (.done n')) :
    n.drainPhase2 C = .ok (n', false) := by
  obtain ⟨⟨m, more⟩, hd, h⟩ := bind_eq_ok.mp h
  cases more with
  | true => cases h
  | false =>
    cases h
    exact hd

theorem phase2Round_error {e : DnxError}
    (h : phase2Round C n = .error e) : n.drainPhase2 C = .error e := by
  rcases bind_eq_error.mp h with h | ⟨_, _, h⟩
  · exact h
  · cases h

theorem phase2Round_eq {r : Except DnxError (Net × Bool)} (h : n.drainPhase2 C = r) :
    phase2Round C n = r.map fun (n, more) => if more then .next n else .done n := by
  unfold phase2Round
  rw [h]
  cases r <;> rfl

/-- How a call of `normalize` ends: in an error of one of the loops, or with what `finish`
makes of the net they leave. -/
inductive Ends (C : NetClass) (n : Net) : Except DnxError (Net × ReduceStats) → Prop where
  | phase1 {st : Net × ReduceStats} {e : DnxError} (runs : Runs (phase1Round C) (n, {}) st)
      (stop : phase1Round C st = .error e) : Ends C n (.error e)
  | phase2 {st : Net × ReduceStats} {m : Net} {e : DnxError}
      (runs : Runs (phase1Round C) (n, {}) st) (stop : phase1Round C st = .ok (.done st))
      (runs2 : Runs (phase2Round C) st.1 m) (stop2 : m.drainPhase2 C = .error e) :
      Ends C n (.error e)
  | finish {st : Net × ReduceStats} {m m' : Net} (runs : Runs (phase1Round C) (n, {}) st)
      (stop : phase1Round C st = .ok (.done st)) (runs2 : Runs (phase2Round C) st.1 m)
      (stop2 : m.drainPhase2 C = .ok (m', false)) : Ends C n ((m'.finish C).map (·, st.2))

theorem normalize_ends {fuel : Nat}
    {r : Except DnxError (Net × ReduceStats)} (h : n.normalize C fuel = some r) : Ends C n r := by
  obtain ⟨r1, h1, h⟩ := Option.bind_eq_some_iff.mp h
  obtain ⟨st', hruns, hstop⟩ := runs_of_loop h1
  cases r1 with
  | error e =>
    cases h
    exact .phase1 hruns hstop
  | ok st =>
    obtain ⟨rfl, -⟩ := phase1Round_done hstop
    obtain ⟨_, h2, h⟩ := Option.bind_eq_some_iff.mp h
    obtain ⟨r2, h3, h2⟩ := Option.bind_eq_some_iff.mp h2
    obtain ⟨m, hruns2, hstop2⟩ := runs_of_loop h3
    cases h2
    cases r2 with
    | error e =>
      cases h
      exact .phase2 hruns hstop hruns2 (phase2Round_error hstop2)
    | ok m' =>
      cases h
      exact .finish hruns hstop hruns2 (phase2Round_done hstop2)

end Net

end Dnet
