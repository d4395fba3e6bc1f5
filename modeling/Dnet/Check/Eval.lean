import Dnet.Front.Nix
import Dnet.Front.PrimElab
import Dnet.Read.Psi

/-!
# Evaluation of Nix expressions

`eval_canonical` (dnx-lang/runtime.rs): parse and translate, inline the prelude, rename, check the
linearity, elaborate with primitives, normalise on demand and read the root back.

A set is a value of the primitives. What stands at the head of an argument of a primitive and is
an abstraction goes into the set as the one value `lambda`, whatever it is: the functions, and the
lists, which are functions too.
-/

namespace Dnet

open Lib

/-! ## Results -/

/-- `Debug` of strings and `Display` of floats in the standard library. -/
structure Formats where
  debug : String → String
  float : UInt64 → String

variable (fmt : Formats)

/-- `Display`. -/
def LinError.message : LinError → String
  | .unused x => "variable `" ++ x ++ "` unused"
  | .multiUse x n => "variable `" ++ x ++ "` used " ++ toString n ++ " times"
  | .mutualRecursion xs =>
    "mutual recursion without `fix`: [" ++ ", ".intercalate (xs.map fmt.debug) ++ "]"
  | .tooManyFreeVars => "too many free variables (>16383)"

/-- `Display`. -/
def DnxError.message : DnxError → String
  | .linError e => "linearity: " ++ e.message fmt
  | .lOPathDepthExceeded => "LO path depth exceeded (>384)"
  | .stepLimitExceeded n => "step limit exceeded: " ++ toString n
  | .arenaCapacityExceeded => "arena capacity exceeded"
  | .deltaOverflow => "replicator delta overflow"
  | .stalePair => "stale active pair"
  | .abaViolation => "ABA generation violation"
  | .primError m => "primitive error: " ++ m
  | .readbackIncomplete => "readback incomplete: net not canonical"

inductive NixEvalError where
  | parse (e : NixError)
  | elaborate (e : DnxError)
  | elaborate2 (e : LinError)
  | readback (s : String)
  deriving DecidableEq

/-- `Display`. -/
def NixEvalError.message : NixEvalError → String
  | .parse e => e.message
  | .elaborate e => e.message fmt
  | .elaborate2 e => e.message fmt
  | .readback s => "readback error: " ++ s

inductive NixEvalResult (P : Type) where
  | int (i : Int)
  | float (bits : UInt64)
  | str (s : String)
  | bool (b : Bool)
  | null
  | list (vs : List (PrimValue P))
  | attrSet (entries : List (String × PrimValue P))
  | lambda (a : NixTerm)
  | error (e : NixEvalError)

/-! ## Readback -/

variable {P : Type}

/-- What a primitive value at the root is read as. -/
def readPrim : Option (PrimValue P) → NixEvalResult P
  | some (.int i) => .int i
  | some (.float bits) => .float bits
  | some (.str s) => .str s
  | some (.bool b) => .bool b
  | some .null => .null
  | some (.list vs) => .list vs
  | some (.attrSet entries) => .attrSet entries
  | some (.path p) => .str p
  | some (.closure _) | some .lambda | none => .error (.readback "unreadable prim")

/-- `readback_result`; `none` if the fuel does not suffice for `psi_native`. -/
def readbackResult (fuel : Nat) (n : Net) (ps : PrimState P) (ctr : Nat) :
    Option (NixEvalResult P) :=
  match n.freeSlots.lookup "r" with
  | none => some (.error (.readback "no root"))
  | some rootSlot =>
    if rootSlot.isNull || rootSlot.isEraser then some (.error (.readback "null root"))
    else
      let rootPort :=
        if n.slotIsLive rootSlot && (n.slot rootSlot).isFree then n.peer rootSlot else rootSlot
      if rootPort.isNull || rootPort.isEraser then some (.error (.readback "null result"))
      else
        let s := n.slot rootPort
        if s.tagIs .primVal then some (readPrim ps.vals[s.data]?)
        else if s.tagIs .primFun then some (.error (.readback "unsaturated prim fun"))
        else (psiNative fuel n ctr).map fun r => match r with
          | .lambda a => .lambda a
          | .partialTerm _ => .error (.readback "open term")

/-! ## The pipeline -/

/-- The counters of the process behind the fresh names: of the translation, of `alpha_rename`, of the
handlers and of the readback. Every evaluation of the process advances them. -/
structure Counters where
  parser : Nat := 0
  alpha : Nat := 0
  handler : Nat := 0
  readback : Nat := 0
  deriving DecidableEq

/-- What evaluation needs: the outside of the parser and the primitives. `debug` says whether
`debug_assert!` is compiled in. -/
structure NixRuntime (P : Type) where
  host : NixHost
  prims : PrimCtx NixPrimVal NixPrimFun P
  debug : Bool

namespace NixRuntime

variable (rt : NixRuntime P)

/-- The definitions of the prelude, translated one after the other. -/
def defs : List (Name × Nix) → Nat →
    Query FileQuery FileQuery.Answer (Call NixError (DefMap NixPrimVal NixPrimFun))
  | [], _ => .done (.ok [])
  | (x, e) :: rest, ctr =>
    (translateDepth rt.host (maxImportDepth + 1) e ⟨.new rt.host, ctr⟩).bind fun r =>
      match r with
      | some (.ok (t, st)) => (defs rest st.freshCtr).bind fun r => .done (do return (x, t) :: (← r))
      | some (.error e) => .done (.error e)
      | none => .done .pending

/-- The term of a source, with the prelude inlined. -/
def term (src : String) (ctr : Nat) :
    Query FileQuery FileQuery.Answer (Call NixError (DefMap NixPrimVal NixPrimFun × NixTerm)) :=
  (nixToExpr rt.host src ctr).bind fun r =>
    match r with
    | some (.ok (t, st)) => (rt.defs preludeDefs st.freshCtr).bind fun r => .done (do return (← r, t))
    | some (.error e) => .done (.error e)
    | none => .done .pending

def capacity : Nat := 2 ^ 16

def config : Net.NormalizeConfig where
  maxSteps := some 50000000
  maxAgents := some (2 ^ 16 - 16)

/-- An error of a part as an error of the evaluation. -/
def lift {ε α : Type} (f : ε → NixEvalError) : Call ε α → Call NixEvalError α
  | some (.ok a) => .ok a
  | some (.error e) => .error (f e)
  | none => .pending

/-- A build that panics does not return. -/
def liftAbort {α : Type} : Except Abort α → Call NixEvalError α
  | .ok a => .ok a
  | .error (.err e) => .error (.elaborate e)
  | .error .assertion => .pending

/-- From the term on: the net with its root, and the primitive state. -/
def buildNet (ctrs : Counters) (fuel : Nat) (defs : DefMap NixPrimVal NixPrimFun) (t : NixTerm) :
    Call NixEvalError (Net × PrimState P × PortId) := do
  let t ← lift .elaborate2 (pass0 fuel defs t)
  let t := t.alphaRename ctrs.alpha
  let r1 ← lift .elaborate2 (some (pass1 t))
  let ((p, _), st) ← liftAbort (t.elabPrims rt.prims rt.debug r1.usageLevels 0 .root
    ⟨⟨.new capacity, fun _ => none, ctrs.handler⟩, ⟨[], []⟩⟩)
  let n ← lift .elaborate (some (wireRoot "r" p st.net))
  return (n, st.prims, (n.freeSlots.lookup "r").getD .null)

/-- From the term on. -/
def evalTerm (ctrs : Counters) (fuel : Nat) (defs : DefMap NixPrimVal NixPrimFun) (t : NixTerm) :
    Call NixEvalError (NixEvalResult P × Nat) := do
  let (n, ps, root) ← rt.buildNet ctrs fuel defs t
  let (n, stats, ps) ← lift .elaborate
    (n.normalizeDemand .ΔK rt.prims.apply config fuel ps root).run
  let r ← Call.ofOption (readbackResult fuel n ps ctrs.readback)
  return (r, stats.interactions)

def evalCanonical (ctrs : Counters) (fuel : Nat) (files : Files) (src : String) :
    Call NixEvalError (NixEvalResult P × Nat) := do
  let (defs, t) ← lift .parse ((rt.term src ctrs.parser).run files)
  rt.evalTerm ctrs fuel defs t

/-- Evaluation depends on the answers that the translation asks for. -/
theorem evalCanonical_congr {ctrs : Counters} {files files' : Files} {src : String}
    (h : ∀ q ∈ (rt.term src ctrs.parser).asked files, files q = files' q) (fuel : Nat) :
    rt.evalCanonical ctrs fuel files src = rt.evalCanonical ctrs fuel files' src := by
  rw [evalCanonical, evalCanonical, (Query.run_congr h).1]

end NixRuntime

end Dnet
