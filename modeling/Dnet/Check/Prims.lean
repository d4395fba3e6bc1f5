import Dnet.Check.Eval

/-!
# Sets and equality

The primitives of dnx-prim/prim.rs that build and take apart attribute sets, and the comparison
`==` of values. The other primitives are a parameter: a table of their arities and what they
compute.
-/

namespace Dnet

variable {B P : Type}

/-! ## Comparison -/

mutual

/-- `value_eq`: `none` if a function is compared. `toFloat` is `as f64` of an integer, as bits. -/
def valueEq (toFloat : Int → UInt64) : PrimValue P → PrimValue P → Option Bool
  | .int x, .int y => some (x == y)
  | .float x, .float y => some (x == y)
  | .int x, .float y => some (toFloat x == y)
  | .float y, .int x => some (toFloat x == y)
  | .str x, .str y => some (x == y)
  | .path x, .path y => some (x == y)
  | .bool x, .bool y => some (x == y)
  | .null, .null => some true
  | .list x, .list y => if x.length ≠ y.length then some false else valuesEq toFloat x y
  | .attrSet x, .attrSet y =>
    if x.length ≠ y.length then some false else entriesEq toFloat x y
  | .lambda, _ | _, .lambda => none
  | .closure _, _ | _, .closure _ => none
  | _, _ => some false

def valuesEq (toFloat : Int → UInt64) : List (PrimValue P) → List (PrimValue P) → Option Bool
  | x :: xs, y :: ys => do
    if ← valueEq toFloat x y then valuesEq toFloat xs ys else return false
  | _, _ => some true

def entriesEq (toFloat : Int → UInt64) :
    List (String × PrimValue P) → List (String × PrimValue P) → Option Bool
  | (kx, x) :: xs, (ky, y) :: ys => do
    if kx ≠ ky then return false
    if ← valueEq toFloat x y then entriesEq toFloat xs ys else return false
  | _, _ => some true

end

/-! ## Sets -/

/-- `Vec::sort_by` on the keys. -/
def sortEntries (entries : List (String × PrimValue P)) : List (String × PrimValue P) :=
  entries.mergeSort fun a b => a.1 ≤ b.1

/-- Replace the value of a key, if the set has it. -/
def replaceEntry (key : String) (v : PrimValue P) :
    List (String × PrimValue P) → Option (List (String × PrimValue P))
  | [] => none
  | e :: rest => if e.1 = key then some ((e.1, v) :: rest) else (replaceEntry key v rest).map (e :: ·)

/-- The primitives of this module, and the others. -/
inductive NixPrim (B : Type) where
  | emptyAttrSet
  | insert
  | select
  | selectOr
  | hasAttr
  | update
  | eq
  | ne
  | other (b : B)
  deriving DecidableEq

namespace NixPrim

def emptyAttrSetApply : List (PrimValue P) → Except DnxError (PrimValue P)
  | [] => .ok (.attrSet [])
  | _ => .error (.primError "empty_attr_set: arity")

def insertApply : List (PrimValue P) → Except DnxError (PrimValue P)
  | [.attrSet set, .str key, v] => .ok (.attrSet ((replaceEntry key v set).getD
      (sortEntries (set ++ [(key, v)]))))
  | [.attrSet _, _, _] => .error (.primError "insert: key must be string")
  | [_, _, _] => .error (.primError "insert: first arg must be attrset")
  | _ => .error (.primError "insert: arity")

def selectApply : List (PrimValue P) → Except DnxError (PrimValue P)
  | [.attrSet set, .str key] =>
    (set.lookup key).elim (.error (.primError ("attribute '" ++ key ++ "' missing"))) .ok
  | [.attrSet _, _] => .error (.primError "select: key must be string")
  | [_, _] => .error (.primError "select: first arg must be attrset")
  | _ => .error (.primError "select: arity")

def selectOrApply : List (PrimValue P) → Except DnxError (PrimValue P)
  | [.attrSet set, .str key, default] => .ok ((set.lookup key).getD default)
  | [.attrSet _, _, _] => .error (.primError "select_or: key must be string")
  | [_, _, _] => .error (.primError "select_or: first arg must be attrset")
  | _ => .error (.primError "select_or: arity")

def hasAttrApply : List (PrimValue P) → Except DnxError (PrimValue P)
  | [.attrSet set, .str key] => .ok (.bool (set.lookup key).isSome)
  | [.attrSet _, _] => .error (.primError "has_attr: key must be string")
  | [_, _] => .error (.primError "has_attr: first arg must be attrset")
  | _ => .error (.primError "has_attr: arity")

def updateApply : List (PrimValue P) → Except DnxError (PrimValue P)
  | [.attrSet a, .attrSet b] => .ok (.attrSet (sortEntries (b.foldl (fun set e =>
      (replaceEntry e.1 e.2 set).getD (set ++ [e])) a)))
  | [.attrSet _, _] => .error (.primError "update: second arg must be attrset")
  | [_, _] => .error (.primError "update: first arg must be attrset")
  | _ => .error (.primError "update: arity")

def eqApply (toFloat : Int → UInt64) : List (PrimValue P) → Except DnxError (PrimValue P)
  | [a, b] => (valueEq toFloat a b).elim
      (.error (.primError "==: cannot compare functions for equality")) (.ok ∘ .bool)
  | _ => .error (.primError "==: expected two arguments")

def neApply (toFloat : Int → UInt64) (args : List (PrimValue P)) : Except DnxError (PrimValue P) :=
  do match ← eqApply toFloat args with
    | .bool b => return .bool !b
    | v => return v

end NixPrim

/-- The primitives that are not modelled, by their keys in the table. -/
structure PrimTable (B : Type) where
  entries : List (String × Nat × B)
  apply : B → List (PrimValue (NixPrim B)) → Except DnxError (PrimValue (NixPrim B))
  toFloat : Int → UInt64

namespace PrimTable

variable (table : PrimTable B)

/-- `nix_prim_table`: the arity of a primitive and what it computes. -/
def lookup (key : String) : Option (Nat × NixPrim B) :=
  match key with
  | "empty_attr_set" => some (0, .emptyAttrSet)
  | "insert" => some (3, .insert)
  | "select" => some (2, .select)
  | "select_or" => some (3, .selectOr)
  | "has_attr" => some (2, .hasAttr)
  | "update" => some (2, .update)
  | "eq" => some (2, .eq)
  | "ne" => some (2, .ne)
  | key => (table.entries.lookup key).map fun e => (e.1, .other e.2)

def applyPrim : PrimApply (NixPrim B)
  | .emptyAttrSet => NixPrim.emptyAttrSetApply
  | .insert => NixPrim.insertApply
  | .select => NixPrim.selectApply
  | .selectOr => NixPrim.selectOrApply
  | .hasAttr => NixPrim.hasAttrApply
  | .update => NixPrim.updateApply
  | .eq => NixPrim.eqApply table.toFloat
  | .ne => NixPrim.neApply table.toFloat
  | .other b => table.apply b

/-- `nixprimfun_to_entry` and `nixprimval_to_value`. -/
def ctx : PrimCtx NixPrimVal NixPrimFun (NixPrim B) where
  toFun f := do
    let key ← nixPrimFunName f
    let (arity, prim) ← table.lookup key
    return .mk key arity [] (.inl prim)
  toVal v := some (match v with
    | .int n => .int n.toInt
    | .float bits => .float bits
    | .str s => .str s
    | .bool b => .bool b
    | .path p => .path p
    | .null => .null)
  apply := table.applyPrim

end PrimTable

end Dnet
