import Dnet.Front.Wiring
import Dnet.Reduce.Prim

/-!
# Elaboration with primitives

`elaborate_with_prims` (dnx-elab/pass2.rs): literals and primitive functions become agents, and
their values and entries go to the primitive state.
-/

namespace Dnet

open Net

variable {V F P : Type}

/-- How literals and primitive functions are understood. A primitive without arguments is applied
at once. -/
structure PrimCtx (V F P : Type) where
  toFun : F → Option (PrimFunEntry P)
  toVal : V → Option (PrimValue P)
  apply : PrimApply P

/-- The state of `elab_impl` with a primitive context. -/
structure PrimElabState (P : Type) extends ElabState where
  prims : PrimState P

abbrev PrimElab (P : Type) :=
  Nat → LOPath → PrimElabState P → Except Abort ((PortId × Nat) × PrimElabState P)

namespace PrimCtx

variable (ctx : PrimCtx V F P)

/-- A literal. -/
def elabVal (v : V) : PrimElab P := fun level _ st => do
  let value ← (ctx.toVal v).elim (.error (.err .readbackIncomplete)) .ok
  let (p, net, prims) ← st.net.allocPrimVal st.prims value
  return ((p, level), { st with net := net, prims := prims })

/-- A primitive function, or its value if it takes no argument. -/
def elabFn (f : F) : PrimElab P := fun level _ st => do
  let entry ← (ctx.toFun f).elim (.error (.err .readbackIncomplete)) .ok
  match entry.arityRemaining, entry.impl with
  | 0, .inl g =>
    let value ← ctx.apply g entry.captured
    let (p, net, prims) ← st.net.allocPrimVal st.prims value
    return ((p, level), { st with net := net, prims := prims })
  | _, _ =>
    let (p, net, prims) ← st.net.allocPrimFun st.prims entry
    return ((p, level), { st with net := net, prims := prims })

end PrimCtx

/-! ## The clauses -/

/-- A clause that leaves the primitive state alone. -/
def PrimElab.ofElab (e : Elab) : PrimElab P := fun level lo st => do
  let (r, st') ← e level lo st.toElabState
  return (r, { st' with prims := st.prims })

namespace PrimElab

def abs (x : Name) (body : PrimElab P) : PrimElab P := fun level lo st => do
  let (abs, net) ← st.net.allocAbs
  let st := { st with net := net, env := bindName st.env x (abs.aux1, level + 1) }
  let loBody ← lo.extendLeft
  let ((bodyP, _), st) ← body level loBody st
  return ((abs.principal, level),
    { st with env := unbindName st.env x, net := st.net.connect abs.aux0 bodyP loBody })

def app (f x : PrimElab P) : PrimElab P := fun level lo st => do
  let (app, net) ← st.net.allocApp
  let loFn ← lo.extendLeft
  let ((fP, _), st) ← f level loFn { st with net := net }
  let loArg ← lo.extendRight
  let ((aP, _), st) ← x (level + 1) loArg st
  return ((app.aux0, level),
    { st with net := (st.net.connect app.principal fP loFn).connect app.aux1 aP loArg })

def rep (debug : Bool) (usage : Name → Option Nat) (e : PrimElab P) (a b : Name)
    (body : PrimElab P) : PrimElab P := fun level lo st => do
  let la := (usage a).getD level
  let lb := (usage b).getD level
  let ((eP, repLevel), st) ← e level lo st
  let d0 ← toI16 ((la : Int) - repLevel)
  let d1 ← toI16 ((lb : Int) - repLevel)
  let (rep, net) ← st.net.allocRepIn debug (repLevel % 2 ^ 16) d0 d1
  let net := net.connect rep.principal eP lo
  let env := bindName (bindName st.env a (rep.aux0, la)) b (rep.aux1, lb)
  body level lo { st with net := net, env := env }

def era (e body : PrimElab P) : PrimElab P := fun level lo st => do
  let ((eP, _), st) ← e level lo st
  body level lo { st with net := st.net.connect .era eP lo }

def fix (debug : Bool) (inner : PrimElab P) : PrimElab P := fun level lo st => do
  let loFn ← lo.extendLeft
  let ((innerP, _), st) ← inner level loFn st
  let (app, net) ← st.net.allocApp
  let net := net.connect app.principal innerP loFn
  let (rep, net) ← net.allocRepIn debug (level % 2 ^ 16) 0 0
  let loR ← lo.extendRight
  let net := net.connect rep.principal app.aux0 loR
  let net := net.connect app.aux1 rep.aux0 lo
  return ((rep.aux1, level), { st with net := net })

end PrimElab

/-! ## The recursion -/

def Ast.elabPrims (ctx : PrimCtx V F P) (debug : Bool) (usage : Name → Option Nat) :
    Ast V F → PrimElab P
  | .name n => .ofElab (elabName n)
  | .abs x body => .abs x (body.elabPrims ctx debug usage)
  | .app f x => .app (f.elabPrims ctx debug usage) (x.elabPrims ctx debug usage)
  | .rep e a b body =>
    .rep debug usage (e.elabPrims ctx debug usage) a b (body.elabPrims ctx debug usage)
  | .era e body => .era (e.elabPrims ctx debug usage) (body.elabPrims ctx debug usage)
  | .fix inner => .fix debug (inner.elabPrims ctx debug usage)
  | .perform _ _ => fun _ _ _ => .error (.err .readbackIncomplete)
  | .handle comp (.cons _ argName kName body .nil) => fun level lo st =>
    let r := "_r" ++ toString st.freshCtr
    let lbl := "_lbl" ++ toString (st.freshCtr + 1)
    PrimElab.app (.app (comp.elabPrims ctx debug usage) (.abs r (.ofElab (elabName r))))
      (.abs lbl (.abs argName (.abs kName
        (.era (.ofElab (elabName lbl)) (body.elabPrims ctx debug usage)))))
      level lo { st with freshCtr := st.freshCtr + 2 }
  | .handle _ _ => fun _ _ _ => .error (.err .readbackIncomplete)
  | .val v => ctx.elabVal v
  | .fn f => ctx.elabFn f

end Dnet
