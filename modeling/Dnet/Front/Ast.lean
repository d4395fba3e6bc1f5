import Dnet.Core.Port

/-!
# Terms, α-renaming and the linearity check

`Ast` (dnx-ast), `alpha_rename` (dnx-elab/alpha.rs) and `pass1` (dnx-elab/pass1.rs).

The global counters of the source are explicit arguments. The maps keyed by names are
functions to `Option`.
-/

namespace Dnet

abbrev Name := String

mutual

/-- The core language, over primitive values `V` and primitive functions `F`. -/
inductive Ast (V F : Type) where
  | name (x : Name)
  | abs (x : Name) (body : Ast V F)
  | app (f x : Ast V F)
  | rep (e : Ast V F) (a b : Name) (body : Ast V F)
  | era (e body : Ast V F)
  | fix (inner : Ast V F)
  | val (v : V)
  | fn (f : F)
  | perform (label : Name) (e : Ast V F)
  | handle (comp : Ast V F) (branches : HandlerBranches V F)

/-- The branches `label x k → body` of a handler. -/
inductive HandlerBranches (V F : Type) where
  | nil
  | cons (label argName kName : Name) (body : Ast V F) (rest : HandlerBranches V F)

end

namespace Ast

variable {V F : Type}

/-! ## Fragments -/

/-- Terms of `Name`, `Abs` and `App`. -/
inductive Pure : Ast V F → Prop where
  | name (x : Name) : Pure (.name x)
  | abs (x : Name) {body : Ast V F} : Pure body → Pure (.abs x body)
  | app {f x : Ast V F} : Pure f → Pure x → Pure (.app f x)

/-- Terms of `Name`, `Abs`, `App` and `Rep`. -/
inductive Relevant : Ast V F → Prop where
  | name (x : Name) : Relevant (.name x)
  | abs (x : Name) {body : Ast V F} : Relevant body → Relevant (.abs x body)
  | app {f x : Ast V F} : Relevant f → Relevant x → Relevant (.app f x)
  | rep {e : Ast V F} (a b : Name) {body : Ast V F} :
      Relevant e → Relevant body → Relevant (.rep e a b body)

/-- No `Perform` and no `Handle`. -/
def EffectFree : Ast V F → Prop
  | .name _ | .val _ | .fn _ => True
  | .abs _ body => body.EffectFree
  | .app f x => f.EffectFree ∧ x.EffectFree
  | .rep e _ _ body => e.EffectFree ∧ body.EffectFree
  | .era e body => e.EffectFree ∧ body.EffectFree
  | .fix inner => inner.EffectFree
  | .perform _ _ | .handle _ _ => False

end Ast

mutual

/-- The binders of a term, from left to right. -/
def Ast.binders {V F : Type} : Ast V F → List Name
  | .name _ | .val _ | .fn _ => []
  | .abs x body => x :: body.binders
  | .app f x => f.binders ++ x.binders
  | .rep e a b body => e.binders ++ a :: b :: body.binders
  | .era e body => e.binders ++ body.binders
  | .fix inner => inner.binders
  | .perform _ e => e.binders
  | .handle comp branches => comp.binders ++ branches.binders

def HandlerBranches.binders {V F : Type} : HandlerBranches V F → List Name
  | .nil => []
  | .cons _ a k body rest => a :: k :: body.binders ++ rest.binders

end

mutual

/-- The names that occur free. -/
def Ast.freeNames {V F : Type} : Ast V F → List Name
  | .name x => [x]
  | .val _ | .fn _ => []
  | .abs x body => body.freeNames.filter (· != x)
  | .app f x => f.freeNames ++ x.freeNames
  | .rep e a b body => e.freeNames ++ body.freeNames.filter (fun y => y != a && y != b)
  | .era e body => e.freeNames ++ body.freeNames
  | .fix inner => inner.freeNames
  | .perform _ e => e.freeNames
  | .handle comp branches => comp.freeNames ++ branches.freeNames

def HandlerBranches.freeNames {V F : Type} : HandlerBranches V F → List Name
  | .nil => []
  | .cons _ a k body rest =>
    body.freeNames.filter (fun y => y != a && y != k) ++ rest.freeNames

end

/-- No name occurs free. -/
def Ast.Closed {V F : Type} (t : Ast V F) : Prop := t.freeNames = []

/-! ## α-renaming -/

/-- `fresh`: the counter is global in the source. -/
def alphaFresh (base : Name) (ctr : Nat) : Name := base ++ "~" ++ toString ctr

/-- `HashMap::insert` on a map from names. -/
def bindName {α : Type} (env : Name → Option α) (x : Name) (v : α) : Name → Option α :=
  fun y => if y = x then some v else env y

/-- `HashMap::remove`. -/
def unbindName {α : Type} (env : Name → Option α) (x : Name) : Name → Option α :=
  fun y => if y = x then none else env y

mutual

/-- Rename every binder to a fresh name; returns the next counter. -/
def Ast.rename {V F : Type} (env : Name → Option Name) (ctr : Nat) : Ast V F → Ast V F × Nat
  | .name n => (.name ((env n).getD n), ctr)
  | .abs x body =>
    let x2 := alphaFresh x ctr
    let (body, ctr) := body.rename (bindName env x x2) (ctr + 1)
    (.abs x2 body, ctr)
  | .app f a =>
    let (f, ctr) := f.rename env ctr
    let (a, ctr) := a.rename env ctr
    (.app f a, ctr)
  | .rep e a b body =>
    let (e2, ctr) := e.rename env ctr
    let a2 := alphaFresh a ctr
    let b2 := alphaFresh b (ctr + 1)
    let (body, ctr) := body.rename (bindName (bindName env a a2) b b2) (ctr + 2)
    (.rep e2 a2 b2 body, ctr)
  | .era e body =>
    let (e, ctr) := e.rename env ctr
    let (body, ctr) := body.rename env ctr
    (.era e body, ctr)
  | .fix inner =>
    let (inner, ctr) := inner.rename env ctr
    (.fix inner, ctr)
  | .perform label e =>
    let (e, ctr) := e.rename env ctr
    (.perform label e, ctr)
  | .handle comp branches =>
    let (comp, ctr) := comp.rename env ctr
    let (branches, ctr) := branches.rename env ctr
    (.handle comp branches, ctr)
  | .val v => (.val v, ctr)
  | .fn f => (.fn f, ctr)

def HandlerBranches.rename {V F : Type} (env : Name → Option Name) (ctr : Nat) :
    HandlerBranches V F → HandlerBranches V F × Nat
  | .nil => (.nil, ctr)
  | .cons label a k body rest =>
    let a2 := alphaFresh a ctr
    let k2 := alphaFresh k (ctr + 1)
    let (body, ctr) := body.rename (bindName (bindName env a a2) k k2) (ctr + 2)
    let (rest, ctr) := rest.rename env ctr
    (.cons label a2 k2 body rest, ctr)

end

/-- `ctr` is the value of the global counter. -/
def Ast.alphaRename {V F : Type} (t : Ast V F) (ctr : Nat) : Ast V F :=
  (t.rename (fun _ => none) ctr).1

/-! ## Pass 1 -/

structure Pass1Result where
  eraUsed : Bool
  repUsed : Bool
  usageLevels : Name → Option Nat

/-- The state of the scan: `frames` has one count for each open binder, innermost
first. The source's second map `active` is written and never read. -/
structure Pass1State where
  frames : List (Name × Nat)
  result : Pass1Result

namespace Pass1State

def push (st : Pass1State) (x : Name) : Pass1State :=
  { st with frames := (x, 0) :: st.frames }

/-- Close the innermost frame and return its count of `x`. -/
def pop (st : Pass1State) (x : Name) : Nat × Pass1State :=
  match st.frames with
  | [] => (0, st)
  | (y, c) :: rest => (if y = x then c else 0, { st with frames := rest })

/-- Count a use in the innermost frame of that name. -/
def incrementIn (x : Name) : List (Name × Nat) → List (Name × Nat)
  | [] => []
  | (y, c) :: rest => if y = x then (y, c + 1) :: rest else (y, c) :: incrementIn x rest

def increment (st : Pass1State) (x : Name) : Pass1State :=
  { st with frames := incrementIn x st.frames }

end Pass1State

/-- A binder must be used exactly once. -/
def checkUsedOnce (x : Name) (n : Nat) : Except LinError Unit :=
  if n = 0 then .error (.unused x) else if n > 1 then .error (.multiUse x n) else .ok ()

mutual

def Ast.collect {V F : Type} (level : Nat) (st : Pass1State) :
    Ast V F → Except LinError Pass1State
  | .name n =>
    let st := st.increment n
    .ok { st with result.usageLevels := bindName st.result.usageLevels n level }
  | .abs x body => do
    let st ← body.collect level (st.push x)
    let (n, st) := st.pop x
    checkUsedOnce x n
    return st
  | .app f x => do
    let st ← f.collect level st
    x.collect (level + 1) st
  | .rep e a b body => do
    let st := { st with result.repUsed := true }
    let st ← e.collect level st
    let st ← body.collect level ((st.push a).push b)
    let (nb, st) := st.pop b
    let (na, st) := st.pop a
    checkUsedOnce a na
    checkUsedOnce b nb
    return st
  | .era e body => do
    let st := { st with result.eraUsed := true }
    let st ← e.collect level st
    body.collect level st
  | .fix inner => inner.collect level st
  | .perform _ e => e.collect level st
  | .handle comp branches => do
    let st ← comp.collect level st
    branches.collect level st
  | .val _ | .fn _ => .ok st

def HandlerBranches.collect {V F : Type} (level : Nat) (st : Pass1State) :
    HandlerBranches V F → Except LinError Pass1State
  | .nil => .ok st
  | .cons _ a k body rest => do
    let st ← body.collect level ((st.push a).push k)
    let (nk, st) := st.pop k
    let (na, st) := st.pop a
    checkUsedOnce a na
    checkUsedOnce k nk
    rest.collect level st

end

def pass1 {V F : Type} (t : Ast V F) : Except LinError Pass1Result := do
  let st ← t.collect 0 ⟨[], ⟨false, false, fun _ => none⟩⟩
  return st.result

end Dnet
