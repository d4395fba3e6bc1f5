import Dnet.Core.Net
import Dnet.Front.Ast

/-!
# Elaboration

`elab_impl` without a primitive context (dnx-elab/pass2.rs): a term becomes a net.
The environment maps a name to the port that stands for its next use and the level of
its binder.

Each clause is a combinator on elaborators, so that `Handle`, which the source
desugars into other constructors before it elaborates them, is the same combination. A debug
build can stop at the assertion of `alloc_rep_in`.
-/

namespace Dnet

abbrev Env := Name → Option (PortId × Nat)

/-- The net under construction, the environment and the counter behind the fresh names
of handlers. -/
structure ElabState where
  net : Net
  env : Env
  freshCtr : Nat

/-- An elaborator: the level, the path and the state give the port of the result, its
level and the new state. -/
abbrev Elab := Nat → LOPath → ElabState → Except Abort ((PortId × Nat) × ElabState)

/-! ## The clauses -/

def elabName (n : Name) : Elab := fun _ _ st =>
  match st.env n with
  | none => .error (.err .readbackIncomplete)
  | some r => .ok (r, { st with env := unbindName st.env n })

def elabAbs (x : Name) (body : Elab) : Elab := fun level lo st => do
  let (abs, net) ← st.net.allocAbs
  let st := { st with net := net, env := bindName st.env x (abs.aux1, level + 1) }
  let loBody ← lo.extendLeft
  let ((bodyP, _), st) ← body level loBody st
  return ((abs.principal, level),
    { st with env := unbindName st.env x, net := st.net.connect abs.aux0 bodyP loBody })

def elabApp (f x : Elab) : Elab := fun level lo st => do
  let (app, net) ← st.net.allocApp
  let loFn ← lo.extendLeft
  let ((fP, _), st) ← f level loFn { st with net := net }
  let loArg ← lo.extendRight
  let ((aP, _), st) ← x (level + 1) loArg st
  return ((app.aux0, level),
    { st with net := (st.net.connect app.principal fP loFn).connect app.aux1 aP loArg })

/-- `i16::try_from`. -/
def toI16 (d : Int) : Except DnxError Int :=
  if -32768 ≤ d ∧ d ≤ 32767 then .ok d else .error .deltaOverflow

def elabRep (debug : Bool) (usage : Name → Option Nat) (e : Elab) (a b : Name) (body : Elab) :
    Elab :=
  fun level lo st => do
    let la := (usage a).getD level
    let lb := (usage b).getD level
    let ((eP, repLevel), st) ← e level lo st
    let d0 ← toI16 ((la : Int) - repLevel)
    let d1 ← toI16 ((lb : Int) - repLevel)
    let (rep, net) ← st.net.allocRepIn debug (repLevel % 2 ^ 16) d0 d1
    let net := net.connect rep.principal eP lo
    let env := bindName (bindName st.env a (rep.aux0, la)) b (rep.aux1, lb)
    body level lo { st with net := net, env := env }

def elabEra (e body : Elab) : Elab := fun level lo st => do
  let ((eP, _), st) ← e level lo st
  body level lo { st with net := st.net.connect .era eP lo }

/-- The fixpoint as a cycle: the result of the application is shared between the outside
and its own argument. -/
def elabFix (debug : Bool) (inner : Elab) : Elab := fun level lo st => do
  let loFn ← lo.extendLeft
  let ((innerP, _), st) ← inner level loFn st
  let (app, net) ← st.net.allocApp
  let net := net.connect app.principal innerP loFn
  let (rep, net) ← net.allocRepIn debug (level % 2 ^ 16) 0 0
  let loR ← lo.extendRight
  let net := net.connect rep.principal app.aux0 loR
  let net := net.connect app.aux1 rep.aux0 lo
  return ((rep.aux1, level), { st with net := net })

/-- A primitive without a primitive context is a free slot. -/
def elabFree : Elab := fun level _ st => do
  let (p, net) ← st.net.allocFree 0
  return ((p, level), { st with net := net })

/-- Draw two fresh names, for a handler. -/
def elabFresh2 (k : Name → Name → Elab) : Elab := fun level lo st =>
  let r := "_r" ++ toString st.freshCtr
  let lbl := "_lbl" ++ toString (st.freshCtr + 1)
  k r lbl level lo { st with freshCtr := st.freshCtr + 2 }

/-! ## The recursion -/

def Ast.elabImpl {V F : Type} (debug : Bool) (usage : Name → Option Nat) : Ast V F → Elab
  | .name n => elabName n
  | .abs x body => elabAbs x (body.elabImpl debug usage)
  | .app f x => elabApp (f.elabImpl debug usage) (x.elabImpl debug usage)
  | .rep e a b body => elabRep debug usage (e.elabImpl debug usage) a b (body.elabImpl debug usage)
  | .era e body => elabEra (e.elabImpl debug usage) (body.elabImpl debug usage)
  | .fix inner => elabFix debug (inner.elabImpl debug usage)
  | .perform _ _ => fun _ _ _ => .error (.err .readbackIncomplete)
  | .handle comp (.cons _ argName kName body .nil) =>
    -- comp (r: r) (lbl: x: k: Era(lbl, body))
    elabFresh2 fun r lbl =>
      elabApp (elabApp (comp.elabImpl debug usage) (elabAbs r (elabName r)))
        (elabAbs lbl (elabAbs argName (elabAbs kName
          (elabEra (elabName lbl) (body.elabImpl debug usage)))))
  | .handle _ _ => fun _ _ _ => .error (.err .readbackIncomplete)
  | .val _ | .fn _ => elabFree

/-- Elaborate at the root of an empty net. -/
def elaborate {V F : Type} (debug : Bool) (capacity : Nat) (t : Ast V F)
    (usage : Name → Option Nat) : Except Abort (PortId × Net) := do
  let ((p, _), st) ← t.elabImpl debug usage 0 .root ⟨.new capacity, fun _ => none, 0⟩
  return (p, st.net)

/-- Wire the result to the root `name`: a principal port is stored directly, an
auxiliary one is wired to a free slot (refnorm.rs `dnx_nf`, erase.rs `phi_k`). -/
def wireRoot (name : String) (p : PortId) (n : Net) : Except DnxError Net :=
  if p.portKind = .principal then .ok (n.addRoot name p)
  else do
    let (slot, n) ← n.allocFree 0
    let n := n.connect p slot .root
    return n.addRoot name slot

end Dnet
