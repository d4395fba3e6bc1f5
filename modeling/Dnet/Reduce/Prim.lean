import Dnet.Reduce.Normalize

/-!
# Primitives

The primitive agents (prim.rs), the reduction step that knows them (`step_with_prims`
and `normalize_with_prims`, reduce/mod.rs) and the demand-driven forcing it calls on a
strict argument (`force_whnf_with_prims`, reduce/whnf.rs).

The pure primitives of the source are function pointers. Here they are elements of a
type `P` with an interpretation `apply`; `f64` values are their bits.
-/

namespace Dnet

open Lib

/-! ## Values and function entries -/

mutual

inductive PrimValue (P : Type) where
  | int (i : Int)
  | float (bits : UInt64)
  | str (s : String)
  | path (s : String)
  | bool (b : Bool)
  | null
  | list (vs : List (PrimValue P))
  | attrSet (entries : List (String × PrimValue P))
  | closure (entry : PrimFunEntry P)
  | lambda

/-- A primitive function with the arguments it has got so far. -/
inductive PrimFunEntry (P : Type) where
  | mk (name : String) (arityRemaining : Nat) (captured : List (PrimValue P)) (impl : P ⊕ String)

end

namespace PrimFunEntry

variable {P : Type}

def name : PrimFunEntry P → String
  | mk n _ _ _ => n

def arityRemaining : PrimFunEntry P → Nat
  | mk _ a _ _ => a

def captured : PrimFunEntry P → List (PrimValue P)
  | mk _ _ c _ => c

/-- A pure primitive, or the label of an effect. -/
def impl : PrimFunEntry P → P ⊕ String
  | mk _ _ _ i => i

end PrimFunEntry

structure PrimState (P : Type) where
  vals : List (PrimValue P)
  funs : List (PrimFunEntry P)

/-- What the pure primitives compute. -/
abbrev PrimApply (P : Type) := P → List (PrimValue P) → Except DnxError (PrimValue P)

namespace PrimState

variable {P : Type}

def allocVal (ps : PrimState P) (v : PrimValue P) : Except DnxError (Nat × PrimState P) :=
  if ps.vals.length ≥ 65535 then .error .arenaCapacityExceeded
  else .ok (ps.vals.length, { ps with vals := ps.vals ++ [v] })

def allocFun (ps : PrimState P) (e : PrimFunEntry P) : Except DnxError (Nat × PrimState P) :=
  if ps.funs.length ≥ 65535 then .error .arenaCapacityExceeded
  else .ok (ps.funs.length, { ps with funs := ps.funs ++ [e] })

end PrimState

/-- The whole tag byte is `kind`: no flag is set. -/
def Slot.tagIs (s : Slot) (kind : AgentKind) : Bool :=
  s.kind = kind && !s.aux0Erased && !s.aux1Erased && !s.erasingAbs && !s.c1Mark

namespace Net

variable {P : Type}

def allocPrimVal (n : Net) (ps : PrimState P) (v : PrimValue P) :
    Except DnxError (PortId × Net × PrimState P) := do
  let (id, ps) ← ps.allocVal v
  let (ports, n) ← n.allocAgent .primVal id 0 0
  return (ports.principal, n, ps)

def allocPrimFun (n : Net) (ps : PrimState P) (e : PrimFunEntry P) :
    Except DnxError (PortId × Net × PrimState P) := do
  let (id, ps) ← ps.allocFun e
  let (ports, n) ← n.allocAgent .primFun id 0 0
  return (ports.principal, n, ps)

/-- `λt.λe.t` or `λt.λe.e`, with the unused variable erased. -/
def emitChurchBool (n : Net) (b : Bool) : Except DnxError (PortId × Net) := do
  let lo := LOPath.root
  let (outer, n) ← n.allocAbs
  let (inner, n) ← n.allocAbs
  let n := n.connect outer.aux0 inner.principal lo
  if b then
    let n := n.connect inner.aux0 outer.aux1 lo
    return (outer.principal, n.connect inner.aux1 .era lo)
  else
    let n := n.connect inner.aux0 inner.aux1 lo
    return (outer.principal, n.connect outer.aux1 .era lo)

/-- Give the argument at `pArg` to the function at `pFun`; the result goes to `cont`. -/
def primApplyInner (apply : PrimApply P) (n : Net) (ps : PrimState P) (pFun pArg cont : PortId)
    (lo : LOPath) : Except DnxError (Net × PrimState P) := do
  let funView := n.slot pFun
  let entry ← (ps.funs[funView.data]?).elim (.error .readbackIncomplete) .ok
  let argView := n.slot pArg
  if !argView.isPrim || argView.tagIs .primFun then .error .readbackIncomplete
  else
    let argVal ← (ps.vals[argView.data]?).elim (.error .readbackIncomplete) .ok
    let n := n.retire pFun.slotIdx
    let n := n.retire pArg.slotIdx
    let captured := entry.captured ++ [argVal]
    if entry.arityRemaining > 1 then
      let (p, n, ps) ← n.allocPrimFun ps
        (.mk entry.name (entry.arityRemaining - 1) captured entry.impl)
      return (n.connect p cont lo, ps)
    else
      match entry.impl with
      | .inl f =>
        let result ← apply f captured
        let (p, n, ps) ← n.allocPrimVal ps result
        return (n.connect p cont lo, ps)
      | .inr _ => .error .readbackIncomplete

/-- The continuation of PrimFun ⊗ PrimVal is the principal field of the function. -/
def primApply (apply : PrimApply P) (n : Net) (ps : PrimState P) (pFun pArg : PortId)
    (lo : LOPath) : Except DnxError (Net × PrimState P) :=
  n.primApplyInner apply ps pFun pArg (n.slot pFun).principal lo

def primBool (ps : PrimState P) (data : Nat) : Option Bool :=
  match ps.vals[data]? with
  | some (.bool b) => some b
  | _ => none

/-! ## Forcing a head -/

inductive ValueHead where
  | abs
  | prim
  | stuck (p : PortId)

structure NormalizeConfig where
  maxSteps : Option Nat := none
  maxAgents : Option Nat := none

inductive Polarity where
  | child
  | parent
  deriving DecidableEq

end Net

/-- `None` outside fans and replicators. -/
def Slot.polarity (s : Slot) (kind : PortKind) : Option Net.Polarity :=
  if !s.isFan && !s.isRep then none
  else
    let flipped := s.kind.bit0
    match kind with
    | .principal => some (if flipped then .parent else .child)
    | .aux0 => some (if flipped then .child else .parent)
    | .aux1 =>
      if s.isFan then some (if flipped then .parent else .child)
      else some (if flipped then .child else .parent)

namespace Net

variable {P : Type}

/-- The port at the other end of the wire of `port`. -/
def headAt (n : Net) (port : PortId) : PortId :=
  if port.isEraser || port.isNull then port else (n.slot port).port port.portKind

def classifyHead (n : Net) (head : PortId) : Option ValueHead :=
  if head.isEraser || head.isNull then some (.stuck head)
  else
    let s := n.slot head
    if s.isFan && s.fanIsAbs then some .abs
    else if s.isPrim then some .prim
    else if s.isFree then some (.stuck head)
    else none

/-- Walk down the principal ports from `cur` to the first two principals that face each
other. The source gives up after a million steps. -/
def spineWalk (n : Net) : Nat → PortId → LOPath → Option (PortId × PortId × LOPath)
  | 0, _, _ => none
  | guard + 1, cur, lo =>
    let q := n.peer cur
    if q.isNull || q.isEraser then none
    else if q.portKind = .principal then
      if (n.slot q).isFree then none
      else if (n.slot cur).isFree then none
      else some (cur, q, lo)
    else
      match if q.portKind = .aux0 then lo.extendLeft else lo.extendRight with
      | .error _ => none
      | .ok lo => n.spineWalk guard (.new q.slotIdx .principal q.genLow) lo

/-- Does the entry hold the pair `{a, b}`? -/
def pairIs (ap : ActivePair) (a b : PortId) : Bool :=
  (ap.p0.1 = a && ap.p1.1 = b) || (ap.p0.1 = b && ap.p1.1 = a)

/-- Remove the entry of a key. -/
def dropKey (m : OrdMap LOPath ActivePair) (k : LOPath) : OrdMap LOPath ActivePair :=
  ⟨m.entries.filter (fun e => e.1 ≠ k), m.sorted.filter _⟩

/-- The outermost active pair on the demand spine of `port`, taken out of the queue if it
is there. -/
def takeSpineRedex (n : Net) (port : PortId) : Option ActivePair × Net :=
  match n.spineWalk 1000000 port .root with
  | none => (none, n)
  | some (pa, pb, lo) =>
    let polA := (n.slot pa).polarity pa.portKind
    let polB := (n.slot pb).polarity pb.portKind
    if polA.isSome && polA = polB then (none, n)
    else
      match n.frontier1.entries.find? (fun e => pairIs e.2 pa pb) with
      | some (key, pair) =>
        let n := { n with frontier1 := dropKey n.frontier1 key }
        if n.isStalePair pair then (ActivePair.new pa pb lo, n) else (some pair, n)
      | none => (ActivePair.new pa pb lo, n)

/-! ## Steps that know primitives -/

/-- Computations that can fail or run out of fuel. -/
abbrev Fueled := ExceptT DnxError Option

def outOfFuel {α : Type} : Fueled α := ExceptT.mk none

def ofExcept {α : Type} (x : Except DnxError α) : Fueled α := ExceptT.mk (some x)

/-- App ⊗ PrimFun, when it is such a pair: the application and the function. -/
def appPrim (n : Net) (pair : ActivePair) : Option (PortId × PortId) :=
  let s0 := n.slot pair.p0.1
  let s1 := n.slot pair.p1.1
  if s0.isFan && !s0.fanIsAbs && s1.tagIs .primFun then some (pair.p0.1, pair.p1.1)
  else if s1.isFan && !s1.fanIsAbs && s0.tagIs .primFun then some (pair.p1.1, pair.p0.1)
  else none

/-- App ⊗ boolean, when it is such a pair: the application, the value and the boolean. -/
def appBool (n : Net) (ps : PrimState P) (pair : ActivePair) : Option (PortId × PortId × Bool) :=
  let s0 := n.slot pair.p0.1
  let s1 := n.slot pair.p1.1
  if s0.isFan && !s0.fanIsAbs && s1.tagIs .primVal then
    (primBool ps s1.data).map fun b => (pair.p0.1, pair.p1.1, b)
  else if s1.isFan && !s1.fanIsAbs && s0.tagIs .primVal then
    (primBool ps s0.data).map fun b => (pair.p1.1, pair.p0.1, b)
  else none

/-- A replicator against an agent of kind `kind`, when it is such a pair. -/
def repPrim (n : Net) (pair : ActivePair) (kind : AgentKind) : Option (PortId × PortId) :=
  let s0 := n.slot pair.p0.1
  let s1 := n.slot pair.p1.1
  if s0.isRep && s1.tagIs kind || s0.tagIs kind && s1.isRep then
    if s0.isRep then some (pair.p0.1, pair.p1.1) else some (pair.p1.1, pair.p0.1)
  else none

/-- Give each auxiliary peer of the replicator its copy; `mk` allocates one. -/
def repClone {α : Type} (n : Net) (a : α) (pRep pPrim : PortId) (lo : LOPath)
    (mk : Net → α → Except DnxError (PortId × Net × α)) : Except DnxError (Net × α) := do
  let rep := n.slot pRep
  let n := n.retire pRep.slotIdx
  let n := n.retire pPrim.slotIdx
  let (v0, n, a) ← mk n a
  let (v1, n, a) ← mk n a
  let n := n.connect v0 rep.aux0 (← lo.extendLeft)
  return (n.connect v1 rep.aux1 (← lo.extendRight), a)

/-- After the argument of App ⊗ PrimFun has been forced. The forcing may have consumed
the application, or reused its slot for another agent. -/
def applyForced (apply : PrimApply P) (n : Net) (ps : PrimState P) (pApp pPf : PortId)
    (lo : LOPath) : Except DnxError (Net × PrimState P) := do
  let app := n.slot pApp
  if !(n.portLive pApp && app.isFan && !app.fanIsAbs) then return (n, ps)
  else
    let arg := app.aux1
    let cont := app.aux0
    let n := n.retire pApp.slotIdx
    if (n.slot arg).tagIs .primVal then n.primApplyInner apply ps pPf arg cont lo
    else
      let (tmp, n, ps) ← n.allocPrimVal ps .lambda
      let n := n.connect arg .era lo
      n.primApplyInner apply ps pPf tmp cont lo

mutual

/-- Reduce the demand spine of `port` until its head is a value or stuck. -/
def forceWhnfWithPrims (C : NetClass) (apply : PrimApply P) (cfg : NormalizeConfig) :
    Nat → Nat → Net → PrimState P → PortId → Fueled (ValueHead × Net × PrimState P)
  | 0, _, _, _, _ => outOfFuel
  | fuel + 1, steps, n, ps, port =>
    let head := n.headAt port
    match n.classifyHead head with
    | some vh => return (vh, n, ps)
    | none =>
      match n.takeSpineRedex port with
      | (none, n) => do
        let (n, more) ← ofExcept (n.drainPhase2 C)
        if more then forceWhnfWithPrims C apply cfg fuel steps n ps port
        else return (.stuck head, n, ps)
      | (some pair, n) => do
        let steps := steps + 1
        if cfg.maxSteps.any (steps > ·) then throw (.stepLimitExceeded steps)
        else if cfg.maxAgents.any (n.arena.slotCount > ·) then throw .arenaCapacityExceeded
        else
          let (n, ps, _) ← stepWithPrims C apply cfg fuel n ps pair {}
          forceWhnfWithPrims C apply cfg fuel steps n ps port

/-- Reduce one active pair. A pair with a free end is a delivered result and stays. -/
def stepWithPrims (C : NetClass) (apply : PrimApply P) (cfg : NormalizeConfig) :
    Nat → Net → PrimState P → ActivePair → ReduceStats → Fueled (Net × PrimState P × ReduceStats)
  | 0, _, _, _, _ => outOfFuel
  | fuel + 1, n, ps, pair, stats =>
    let p0 := pair.p0.1
    let p1 := pair.p1.1
    let s0 := n.slot p0
    let s1 := n.slot p1
    if s0.isFree || s1.isFree then return (n, ps, stats)
    else if s0.tagIs .primFun && s1.tagIs .primVal || s0.tagIs .primVal && s1.tagIs .primFun then do
      let (pFun, pArg) := if s0.tagIs .primFun then (p0, p1) else (p1, p0)
      let (n, ps) ← ofExcept (n.primApply apply ps pFun pArg pair.lo)
      return (n, ps, stats)
    else
      match n.appPrim pair with
      | some (pApp, pPf) => do
        let arg := (n.slot pApp).aux1
        let ready := n.slotIsLive arg &&
          ((n.slot arg).tagIs .primVal || ((n.slot arg).isFan && (n.slot arg).fanIsAbs))
        if ready then
          let (n, ps) ← ofExcept (n.applyForced apply ps pApp pPf pair.lo)
          return (n, ps, stats)
        else
          -- the argument is forced through the application's own port
          let argWire := PortId.new pApp.slotIdx .aux1 pApp.genLow
          let (_, n, ps) ← forceWhnfWithPrims C apply cfg fuel 0 n ps argWire
          let (n, ps) ← ofExcept (n.applyForced apply ps pApp pPf pair.lo)
          return (n, ps, stats)
      | none =>
        match n.appBool ps pair with
        | some (pApp, pBool, b) => do
          let n := n.retire pBool.slotIdx
          let (cp, n) ← ofExcept (n.emitChurchBool b)
          return (n.connect pApp cp pair.lo, ps, stats)
        | none =>
          match n.repPrim pair .primVal with
          | some (pRep, pPv) => do
            let v ← ofExcept ((ps.vals[(n.slot pPv).data]?).elim (.error .readbackIncomplete) .ok)
            let (n, ps) ← ofExcept (n.repClone ps pRep pPv pair.lo (·.allocPrimVal · v))
            return (n, ps, stats)
          | none =>
            match n.repPrim pair .primFun with
            | some (pRep, pPf) => do
              let e ← ofExcept ((ps.funs[(n.slot pPf).data]?).elim (.error .readbackIncomplete) .ok)
              let (n, ps) ← ofExcept (n.repClone ps pRep pPf pair.lo (·.allocPrimFun · e))
              return (n, ps, stats)
            | none => do
              let (n, stats) ← ofExcept (n.dispatchPhase1 C pair stats)
              return (n, ps, stats)

end

/-- The phase-1 loop with primitives. -/
def primLoop (C : NetClass) (apply : PrimApply P) (cfg : NormalizeConfig) :
    Nat → Net → PrimState P → ReduceStats → Fueled (Net × PrimState P × ReduceStats)
  | 0, _, _, _ => outOfFuel
  | fuel + 1, n, ps, stats =>
    match n.frontier1.popFirst with
    | none => return (n, ps, stats)
    | some ((_, pair), rest) => do
      let n := { n with frontier1 := rest }
      if n.isStalePair pair then primLoop C apply cfg fuel n ps stats
      else
        let stats := { stats with interactions := stats.interactions + 1 }
        let (n, ps, stats) ← stepWithPrims C apply cfg fuel n ps pair stats
        primLoop C apply cfg fuel n ps stats

/-- `normalize_with_prims`; the primitive state is updated in place in the source. -/
def normalizeWithPrims (C : NetClass) (apply : PrimApply P) (fuel : Nat) (n : Net)
    (ps : PrimState P) : Fueled (Net × ReduceStats × PrimState P) := do
  let (n, ps, stats) ← n.primLoop C apply {} fuel ps {}
  let n ← ExceptT.mk (n.finalizeCanonical C fuel)
  return (n, stats, ps)

/-- The loop of `normalize_demand`; `steps` counts the pairs so far. -/
def demandLoop (C : NetClass) (apply : PrimApply P) (cfg : NormalizeConfig) :
    Nat → Nat → Net → PrimState P → ReduceStats → Fueled (Net × PrimState P × ReduceStats)
  | 0, _, _, _, _ => outOfFuel
  | fuel + 1, steps, n, ps, stats =>
    match n.frontier1.popFirst with
    | none => return (n, ps, stats)
    | some ((_, pair), rest) => do
      let n := { n with frontier1 := rest }
      if n.isStalePair pair then demandLoop C apply cfg fuel steps n ps stats
      else
        let steps := steps + 1
        if cfg.maxSteps.any (steps > ·) then throw (.stepLimitExceeded steps)
        else
          let stats := { stats with interactions := stats.interactions + 1 }
          let (n, ps, stats) ← stepWithPrims C apply cfg fuel n ps pair stats
          demandLoop C apply cfg fuel steps n ps stats

/-- `normalize_demand`: the head of the root first, then what is left. -/
def normalizeDemand (C : NetClass) (apply : PrimApply P) (cfg : NormalizeConfig) (fuel : Nat)
    (n : Net) (ps : PrimState P) (root : PortId) : Fueled (Net × ReduceStats × PrimState P) := do
  let (_, n, ps) ← n.forceWhnfWithPrims C apply cfg fuel 0 ps root
  let (n, ps, stats) ← n.demandLoop C apply cfg fuel 0 ps {}
  let n ← ExceptT.mk (n.finalizeCanonical C fuel)
  return (n, stats, ps)

end Net

end Dnet
