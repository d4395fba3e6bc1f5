import Dnet.Front.Ast
import Dnet.Lib.Partial
import Dnet.Reduce.Normalize

/-!
# Readback

`psi_native` (dnx-read/lib.rs): from the root of a net along the wires to a λ-term without
sharing (`psi_s`), and from there to a term in which every variable is used once
(`lambda_to_dnx`).

`psi_s` keeps the ports that stand for occurrences of the variables in scope. They are found when
the abstraction is entered, by following the replicators behind its variable. The recursion is on
the net, which may have cycles, so both traversals take fuel.
-/

namespace Dnet

open Lib

/-- The term without sharing; variables are numbered by the global counter `VAR_CTR`. -/
inductive LambdaIR where
  | var (v : Nat)
  | abs (v : Nat) (body : LambdaIR)
  | app (f x : LambdaIR)
  deriving DecidableEq, Repr

def varName (v : Nat) : Name := "v" ++ toString v

/-- `occ_env`: the variable of an occurrence port. -/
abbrev OccEnv := PortId → Option Nat

namespace Net

variable (n : Net)

/-! ## Occurrences -/

/-- Write `v` at every occurrence behind `q`: the ports at the end of the replicators that hang
at `q`, or `q` itself if there is none. `none` removes the occurrences. -/
def markOcc (v : Option Nat) : Nat → PortId → OccEnv → Option OccEnv
  | 0, _, _ => none
  | fuel + 1, q, env =>
    let peer := n.peer q
    if peer.isEraser || peer.isNull then some env
    else if (n.slot peer).isRep && peer.portKind = .principal then do
      let env ← markOcc v fuel (.new peer.slotIdx .aux0 peer.genLow) env
      markOcc v fuel (.new peer.slotIdx .aux1 peer.genLow) env
    else some (Function.update env q v)

def collectRepBranch (v : Nat) : Nat → PortId → OccEnv → Option OccEnv := n.markOcc (some v)

/-- The same body as `collect_rep_branch`, at the variable port of an abstraction. -/
def collectOccForVar (v : Nat) : Nat → PortId → OccEnv → Option OccEnv := n.collectRepBranch v

def removeRepBranch : Nat → PortId → OccEnv → Option OccEnv := n.markOcc none

def removeOccForVar : Nat → PortId → OccEnv → Option OccEnv := n.removeRepBranch

/-! ## The term behind a port -/

/-- The state is `occ_env` and the counter. -/
def psiS : Nat → PortId → OccEnv → Nat → Call DnxError (LambdaIR × OccEnv × Nat)
  | 0, _, _, _ => .pending
  | fuel + 1, port, env, ctr =>
    if port.isEraser || port.isNull then .ok (.var ctr, env, ctr + 1)
    else
      match env port with
      | some v => .ok (.var v, env, ctr)
      | none =>
        let s := n.slot port
        if s.isFree then .ok (.var ctr, env, ctr + 1)
        else if port.portKind = .principal && (s.isFan && s.fanIsAbs) then do
          let varPort := PortId.new port.slotIdx .aux1 port.genLow
          let env ← Call.ofOption (n.collectOccForVar ctr fuel varPort env)
          let bodyPeer := n.peer (.new port.slotIdx .aux0 port.genLow)
          let (body, env, ctr') ← psiS fuel bodyPeer env (ctr + 1)
          let env ← Call.ofOption (n.removeOccForVar fuel varPort env)
          return (.abs ctr body, env, ctr')
        else if port.portKind = .aux0 && (s.isFan && !s.fanIsAbs) then do
          let funcPeer := n.peer (.new port.slotIdx .principal port.genLow)
          let argPeer := n.peer (.new port.slotIdx .aux1 port.genLow)
          let (func, env, ctr) ← psiS fuel funcPeer env ctr
          let (arg, env, ctr) ← psiS fuel argPeer env ctr
          return (.app func arg, env, ctr)
        else .error .readbackIncomplete

end Net

/-! ## Linearisation -/

def LambdaIR.countFree (v : Nat) : LambdaIR → Nat
  | .var w => if w = v then 1 else 0
  | .abs _ body => body.countFree v
  | .app f x => f.countFree v + x.countFree v

/-- A chain of `Rep` nodes that splits `orig` into `n0`, `n1` and the others. -/
def chainReps {V F : Type} (orig n0 n1 : Name) : List Name → Ast V F → Ast V F
  | [], body => .rep (.name orig) n0 n1 body
  | next0 :: more, body =>
    let x' := orig ++ "'"
    .rep (.name orig) n0 x' (chainReps x' n1 next0 more body)

/-- `supply`: the names that are left for the occurrences of a variable. -/
abbrev Supply := Nat → Option (List Name)

def copyNames (x : Name) (k : Nat) : List Name := (List.range k).map fun i => x ++ "__" ++ toString i

def lambdaToDnx {V F : Type} : LambdaIR → Supply → Ast V F × Supply
  | .var v, supply =>
    match supply v with
    | some (name :: q) => (.name name, Function.update supply v (some q))
    | _ => (.name (varName v), supply)
  | .app f x, supply =>
    let (f, supply) := lambdaToDnx f supply
    let (x, supply) := lambdaToDnx x supply
    (.app f x, supply)
  | .abs v body, supply =>
    let x := varName v
    match body.countFree v with
    | 0 =>
      let (body, supply) := lambdaToDnx body supply
      (.abs x (.era (.name x) body), supply)
    | 1 =>
      let (body, supply) := lambdaToDnx body (Function.update supply v (some [x]))
      (.abs x body, Function.update supply v none)
    | k + 2 =>
      let names := copyNames x (k + 2)
      let (body, supply) := lambdaToDnx body (Function.update supply v (some names))
      let supply := Function.update supply v none
      match names with
      | n0 :: n1 :: rest => (.abs x (chainReps x n0 n1 rest body), supply)
      | _ => (.abs x body, supply)

/-! ## The result -/

inductive ReadbackResult (V F : Type) where
  | lambda (a : Ast V F)
  | partialTerm (name : Name)

/-- `roots().values().next()`: the map has one root in every caller of this model. -/
def Net.firstRoot (n : Net) : PortId := (n.freeSlots.head?.map Prod.snd).getD .null

/-- `none` if the fuel does not suffice. -/
def psiNative {V F : Type} (fuel : Nat) (n : Net) (ctr : Nat) : Option (ReadbackResult V F) :=
  let rootSlot := n.firstRoot
  if rootSlot.isNull || rootSlot.isEraser then some (.partialTerm "_null")
  else
    let rootPort :=
      if n.slotIsLive rootSlot && (n.slot rootSlot).isFree then n.peer rootSlot else rootSlot
    if rootPort.isNull || rootPort.isEraser then some (.partialTerm "_null")
    else
      match n.psiS fuel rootPort (fun _ => none) ctr with
      | none => none
      | some (.error _) => some (.partialTerm "_unexpected")
      | some (.ok (ir, _, _)) => some (.lambda (lambdaToDnx ir fun _ => none).1)

end Dnet
