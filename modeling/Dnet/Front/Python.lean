import Dnet.Front.Prelude

/-!
# Lowering of Python modules

`lower_module` (dnx-pyparse/lower.rs) from the statements of a module to a core term. An
assignment is a `let`, and every binder is made linear when its body is there. List literals
become applications of the names `nil`, `cons` and `concat` of the prelude, so a program that
binds one of these changes what the list literals in its scope denote (`lowerModule_lexical_iff`).
-/

namespace Dnet

open Lib Prelude

inductive BinOp where
  | add | sub | mul | div | eq | ne | lt | le | gt | ge | in | and | or
  deriving DecidableEq, Repr

mutual

inductive PyExpr where
  | int (n : Int64)
  | float (bits : UInt64)
  | str (s : String)
  | fstr (parts : FStrParts)
  | bool (b : Bool)
  | none
  | name (n : Name)
  | lambda (param : Name) (body : PyExpr)
  | call (f : PyExpr) (args : PyExprs)
  | deriv (kwargs : PyKwargs)
  | binOp (op : BinOp) (l r : PyExpr)
  | neg (e : PyExpr)
  | not (e : PyExpr)
  | ifExp (cond then' els : PyExpr)
  | list (items : PyExprs)
  | dict (pairs : PyPairs)
  | index (e key : PyExpr)
  | attr (e : PyExpr) (name : Name)

inductive PyExprs where
  | nil
  | cons (e : PyExpr) (rest : PyExprs)

inductive FStrParts where
  | nil
  | lit (s : String) (rest : FStrParts)
  | hole (e : PyExpr) (rest : FStrParts)

inductive PyKwargs where
  | nil
  | cons (key : Name) (e : PyExpr) (rest : PyKwargs)

inductive PyPairs where
  | nil
  | cons (key e : PyExpr) (rest : PyPairs)

end

inductive PyStmt where
  | assign (n : Name) (e : PyExpr)
  | defn (n param : Name) (body : PyExpr)
  | expr (e : PyExpr)

inductive PyError where
  | parse (message : String)
  | unsupported (message : String)
  deriving DecidableEq, Repr

/-! ## Expressions -/

namespace Python

def trueVal : NixTerm := .val (.bool true)

def falseVal : NixTerm := .val (.bool false)

/-- The count of this front end does not look into `Fix`, which it does not make. -/
def countUsesIn (name : Name) : NixTerm → Nat
  | .name n => if n = name then 1 else 0
  | .abs x body => if x = name then 0 else countUsesIn name body
  | .app f x => countUsesIn name f + countUsesIn name x
  | .rep e a b body =>
    countUsesIn name e + if a = name ∨ b = name then 0 else countUsesIn name body
  | .era e body => countUsesIn name e + countUsesIn name body
  | _ => 0

/-- `wrap_uses` with the uses in the body. -/
def wrap (name : Name) (body : NixTerm) : Option NixTerm :=
  wrapUses Ast.indexedRename name (countUsesIn name body) body

def lowerName (n : Name) (bound : Bound) : NixTerm :=
  if bound n then .name n else .fn (.builtin n)

def arithPrim : BinOp → NixPrimFun
  | .add => .add
  | .sub => .sub
  | .mul => .mul
  | .div => .div
  | .eq => .eq
  | .ne => .ne
  | .lt => .lt
  | .le => .le
  | .gt => .gt
  | .ge => .ge
  | .and | .or | .in => .add

end Python

def PyExpr.isList : PyExpr → Bool
  | .list _ => true
  | _ => false

/-- The operator on operands that are lowered; `lists` if both are list literals. -/
def BinOp.lower (op : BinOp) (lists : Bool) (lhs rhs : NixTerm) : NixTerm :=
  match op with
  | .and => app2 lhs rhs Python.falseVal
  | .or => app2 lhs Python.trueVal rhs
  | .in => app2 (.fn .hasAttr) rhs lhs
  | .add => if lists then app2 (.name "concat") lhs rhs else app2 (.fn .add) lhs rhs
  | op => app2 (.fn (Python.arithPrim op)) lhs rhs

/-- The keys of a dictionary are checked before its values are lowered. -/
def PyPairs.checkKeys : PyPairs → Except PyError Unit
  | .nil => .ok ()
  | .cons (.str _) _ rest => rest.checkKeys
  | .cons _ _ _ => .error (.unsupported "dict key must be a string literal")

def insertAttr (set : NixTerm) (key : Name) (v : NixTerm) : NixTerm :=
  .app (app2 (.fn .insert) set (.val (.str key))) v

mutual

/-- `none` stands for the panic of an index that is out of range (see `Linearise`). -/
def PyExpr.lower : PyExpr → Bound → Call PyError NixTerm
  | .int n, _ => .ok (.val (.int n))
  | .float bits, _ => .ok (.val (.float bits))
  | .str s, _ => .ok (.val (.str s))
  | .fstr parts, bound => do
    let acc ← parts.lower Option.none bound
    return acc.getD (.val (.str ""))
  | .bool b, _ => .ok (.val (.bool b))
  | .none, _ => .ok (.val .null)
  | .name n, bound => .ok (Python.lowerName n bound)
  | .lambda param body, bound => do
    let body ← body.lower (bound.insert param)
    return .abs param (← Call.ofOption (Python.wrap param body))
  | .neg e, bound => do return .app (.fn .neg) (← e.lower bound)
  | .not e, bound => do return app2 (← e.lower bound) Python.falseVal Python.trueVal
  | .binOp op l r, bound => do
    let lhs ← l.lower bound
    let rhs ← r.lower bound
    return op.lower (l.isList && r.isList) lhs rhs
  | .ifExp cond then' els, bound => do
    let c ← cond.lower bound
    let t ← then'.lower bound
    let e ← els.lower bound
    return app2 c t e
  | .call f args, bound => do
    let acc ← f.lower bound
    args.lowerCall acc bound
  | .deriv kwargs, bound => do
    let set ← kwargs.lowerAttrset (.fn .emptyAttrSet) bound
    return .app (.fn (.builtin "derivationStrict")) set
  | .list items, bound => items.lowerList bound
  | .dict pairs, bound => do
    let _ ← (some pairs.checkKeys : Call PyError Unit)
    pairs.lowerAttrset (.fn .emptyAttrSet) bound
  | .index e key, bound => do
    let set ← e.lower bound
    let k ← key.lower bound
    return app2 (.fn .select) set k
  | .attr e name, bound => do
    let set ← e.lower bound
    return app2 (.fn .select) set (.val (.str name))

/-- The arguments of a call, applied to `acc`. -/
def PyExprs.lowerCall : PyExprs → NixTerm → Bound → Call PyError NixTerm
  | .nil, acc, _ => .ok acc
  | .cons e rest, acc, bound => do
    let e ← e.lower bound
    rest.lowerCall (.app acc e) bound

/-- From the last item to the first. -/
def PyExprs.lowerList : PyExprs → Bound → Call PyError NixTerm
  | .nil, _ => .ok (.name "nil")
  | .cons e rest, bound => do
    let acc ← rest.lowerList bound
    let h ← e.lower bound
    return app2 (.name "cons") h acc

def FStrParts.lower : FStrParts → Option NixTerm → Bound → Call PyError (Option NixTerm)
  | .nil, acc, _ => .ok acc
  | .lit s rest, acc, bound => rest.lower (some (addPart acc (.val (.str s)))) bound
  | .hole e rest, acc, bound => do
    let e ← e.lower bound
    rest.lower (some (addPart acc (.app (.fn .toString2) e))) bound
where
  addPart (acc : Option NixTerm) (e : NixTerm) : NixTerm :=
    match acc with
    | some prev => app2 (.fn .add) prev e
    | Option.none => e

def PyKwargs.lowerAttrset : PyKwargs → NixTerm → Bound → Call PyError NixTerm
  | .nil, set, _ => .ok set
  | .cons key e rest, set, bound => do
    let v ← e.lower bound
    rest.lowerAttrset (insertAttr set key v) bound

/-- The keys were checked. -/
def PyPairs.lowerAttrset : PyPairs → NixTerm → Bound → Call PyError NixTerm
  | .nil, set, _ => .ok set
  | .cons (.str key) e rest, set, bound => do
    let v ← e.lower bound
    rest.lowerAttrset (insertAttr set key v) bound
  | .cons _ _ _, _, _ => .error (.unsupported "dict key must be a string literal")

end

/-! ## Modules -/

/-- A statement before the last one: its name, and the value as an expression. -/
def PyStmt.binding : PyStmt → Except PyError (Name × PyExpr)
  | .assign n e => .ok (n, e)
  | .defn n param body => .ok (n, .lambda param body)
  | .expr _ => .error (.unsupported "expression statement before module end is discarded")

def lowerBindings (bound : Bound) : List (Name × PyExpr) → Call PyError (List (Name × NixTerm))
  | [] => .ok []
  | (n, v) :: rest => do
    let v ← v.lower bound
    return (n, v) :: (← lowerBindings bound rest)

/-- `let`s around the body, the last one innermost. -/
def foldLets : List (Name × NixTerm) → NixTerm → Option NixTerm
  | [], body => some body
  | (n, v) :: rest, body => do
    let body ← foldLets rest body
    return .app (.abs n (← Python.wrap n body)) v

def lowerModule (stmts : List PyStmt) (bound : Bound) : Call PyError NixTerm :=
  match stmts.getLast? with
  | none => .error (.parse "empty module")
  | some (.expr e) => do
    let names ← (some (stmts.dropLast.mapM PyStmt.binding) : Call PyError _)
    let bound := names.foldl (fun bound b => bound.insert b.1) bound
    let lowered ← lowerBindings bound names
    let body ← e.lower bound
    Call.ofOption (foldLets lowered body)
  | some _ => .error (.unsupported "module must end in an expression")

/-! ## The nested lets of a module -/

namespace Python

def mapp2 (f a b : Meaning) : Meaning := .app (.app f a) b

def minsert (set : Meaning) (key : Name) (v : Meaning) : Meaning :=
  .app (mapp2 (.fn .insert) set (.val (.str key))) v

def maddPart (acc : Option Meaning) (e : Meaning) : Meaning :=
  match acc with
  | some prev => mapp2 (.fn .add) prev e
  | none => e

end Python

def BinOp.meaning (op : BinOp) (lists : Bool) (lhs rhs : Meaning) : Meaning :=
  match op with
  | .and => Python.mapp2 lhs rhs (.val (.bool false))
  | .or => Python.mapp2 lhs (.val (.bool true)) rhs
  | .in => Python.mapp2 (.fn .hasAttr) rhs lhs
  | .add => if lists then Python.mapp2 (Prelude.meaning "concat") lhs rhs
    else Python.mapp2 (.fn .add) lhs rhs
  | op => Python.mapp2 (.fn (Python.arithPrim op)) lhs rhs

mutual

/-- The expression in the scope of the binders `Γ`: a name denotes the innermost binder of that
name, and a list literal is built with the prelude. -/
def PyExpr.meaning (Γ : List Name) : PyExpr → Meaning
  | .int n => .val (.int n)
  | .float bits => .val (.float bits)
  | .str s => .val (.str s)
  | .fstr parts => (parts.meaning Γ none).getD (.val (.str ""))
  | .bool b => .val (.bool b)
  | .none => .val .null
  | .name n => if n ∈ Γ then .bound (Γ.idxOf n) else .fn (.builtin n)
  | .lambda param body => .abs (body.meaning (param :: Γ))
  | .neg e => .app (.fn .neg) (e.meaning Γ)
  | .not e => Python.mapp2 (e.meaning Γ) (.val (.bool false)) (.val (.bool true))
  | .binOp op l r => op.meaning (l.isList && r.isList) (l.meaning Γ) (r.meaning Γ)
  | .ifExp cond then' els => Python.mapp2 (cond.meaning Γ) (then'.meaning Γ) (els.meaning Γ)
  | .call f args => args.meaningCall Γ (f.meaning Γ)
  | .deriv kwargs => .app (.fn (.builtin "derivationStrict")) (kwargs.meaning Γ (.fn .emptyAttrSet))
  | .list items => items.meaningList Γ
  | .dict pairs => pairs.meaning Γ (.fn .emptyAttrSet)
  | .index e key => Python.mapp2 (.fn .select) (e.meaning Γ) (key.meaning Γ)
  | .attr e name => Python.mapp2 (.fn .select) (e.meaning Γ) (.val (.str name))

def PyExprs.meaningCall (Γ : List Name) : PyExprs → Meaning → Meaning
  | .nil, acc => acc
  | .cons e rest, acc => rest.meaningCall Γ (.app acc (e.meaning Γ))

def PyExprs.meaningList (Γ : List Name) : PyExprs → Meaning
  | .nil => Prelude.meaning "nil"
  | .cons e rest => Python.mapp2 (Prelude.meaning "cons") (e.meaning Γ) (rest.meaningList Γ)

def FStrParts.meaning (Γ : List Name) : FStrParts → Option Meaning → Option Meaning
  | .nil, acc => acc
  | .lit s rest, acc => rest.meaning Γ (some (Python.maddPart acc (.val (.str s))))
  | .hole e rest, acc =>
    rest.meaning Γ (some (Python.maddPart acc (.app (.fn .toString2) (e.meaning Γ))))

def PyKwargs.meaning (Γ : List Name) : PyKwargs → Meaning → Meaning
  | .nil, set => set
  | .cons key e rest, set => rest.meaning Γ (Python.minsert set key (e.meaning Γ))

def PyPairs.meaning (Γ : List Name) : PyPairs → Meaning → Meaning
  | .nil, set => set
  | .cons (.str key) e rest, set => rest.meaning Γ (Python.minsert set key (e.meaning Γ))
  | .cons _ _ rest, set => rest.meaning Γ set

end

/-- A module as nested `let`s. -/
def moduleMeaning (Γ : List Name) : List PyStmt → Meaning
  | [] => .val .null
  | [.expr e] => e.meaning Γ
  | .expr _ :: rest => moduleMeaning Γ rest
  | .assign n e :: rest => .app (.abs (moduleMeaning (n :: Γ) rest)) (e.meaning Γ)
  | .defn n param body :: rest =>
    .app (.abs (moduleMeaning (n :: Γ) rest)) ((PyExpr.lambda param body).meaning Γ)

/-- After lowering and `pass0` with the prelude the module is its nested `let`s. -/
def Lexical (stmts : List PyStmt) : Prop :=
  ∃ t r r', lowerModule stmts (fun _ => false) = .ok t ∧
    (∃ k, ∀ fuel, k ≤ fuel → pass0 fuel defs t = .ok r) ∧ r.erasure id = some r' ∧
    r'.nameless [] = moduleMeaning [] stmts

/-! ## Conditions on a module -/

mutual

/-- The names that an expression refers to and does not bind. -/
def PyExpr.vars : PyExpr → List Name
  | .int _ | .float _ | .str _ | .bool _ | .none => []
  | .fstr parts => parts.vars
  | .name n => [n]
  | .lambda param body => body.vars.filter (· ≠ param)
  | .neg e | .not e | .attr e _ => e.vars
  | .binOp _ l r | .index l r => l.vars ++ r.vars
  | .ifExp cond then' els => cond.vars ++ then'.vars ++ els.vars
  | .call f args => f.vars ++ args.vars
  | .deriv kwargs => kwargs.vars
  | .list items => items.vars
  | .dict pairs => pairs.vars

def PyExprs.vars : PyExprs → List Name
  | .nil => []
  | .cons e rest => e.vars ++ rest.vars

def FStrParts.vars : FStrParts → List Name
  | .nil => []
  | .lit _ rest => rest.vars
  | .hole e rest => e.vars ++ rest.vars

def PyKwargs.vars : PyKwargs → List Name
  | .nil => []
  | .cons _ e rest => e.vars ++ rest.vars

def PyPairs.vars : PyPairs → List Name
  | .nil => []
  | .cons _ e rest => e.vars ++ rest.vars

end

/-- A binder in the scope of `Γ`: `x` is none of the copies that linearising makes, and a name of
the prelude is not bound again in its own scope. -/
def TidyBinder (Γ : List Name) (x : Name) : Prop := Clean x ∧ (Prelude.Defined x → x ∉ Γ)

mutual

/-- The binders are tidy, and the keys of dictionaries are string literals. -/
def PyExpr.Tidy (Γ : List Name) : PyExpr → Prop
  | .int _ | .float _ | .str _ | .bool _ | .none | .name _ => True
  | .fstr parts => parts.Tidy Γ
  | .lambda param body => TidyBinder Γ param ∧ body.Tidy (param :: Γ)
  | .neg e | .not e | .attr e _ => e.Tidy Γ
  | .binOp _ l r | .index l r => l.Tidy Γ ∧ r.Tidy Γ
  | .ifExp cond then' els => cond.Tidy Γ ∧ then'.Tidy Γ ∧ els.Tidy Γ
  | .call f args => f.Tidy Γ ∧ args.Tidy Γ
  | .deriv kwargs => kwargs.Tidy Γ
  | .list items => items.Tidy Γ
  | .dict pairs => pairs.Tidy Γ

def PyExprs.Tidy (Γ : List Name) : PyExprs → Prop
  | .nil => True
  | .cons e rest => e.Tidy Γ ∧ rest.Tidy Γ

def FStrParts.Tidy (Γ : List Name) : FStrParts → Prop
  | .nil => True
  | .lit _ rest => rest.Tidy Γ
  | .hole e rest => e.Tidy Γ ∧ rest.Tidy Γ

def PyKwargs.Tidy (Γ : List Name) : PyKwargs → Prop
  | .nil => True
  | .cons _ e rest => e.Tidy Γ ∧ rest.Tidy Γ

def PyPairs.Tidy (Γ : List Name) : PyPairs → Prop
  | .nil => True
  | .cons (.str _) e rest => e.Tidy Γ ∧ rest.Tidy Γ
  | .cons _ _ _ => False

end

mutual

/-- No list literal stands in the scope of a binder with the name of a constructor it is
written with. -/
def PyExpr.LiteralsFree (Γ : List Name) : PyExpr → Prop
  | .int _ | .float _ | .str _ | .bool _ | .none | .name _ => True
  | .fstr parts => parts.LiteralsFree Γ
  | .lambda param body => body.LiteralsFree (param :: Γ)
  | .neg e | .not e | .attr e _ => e.LiteralsFree Γ
  | .binOp op l r => l.LiteralsFree Γ ∧ r.LiteralsFree Γ ∧
    (op = .add ∧ l.isList ∧ r.isList → "concat" ∉ Γ ∧ "cons" ∉ Γ)
  | .index l r => l.LiteralsFree Γ ∧ r.LiteralsFree Γ
  | .ifExp cond then' els => cond.LiteralsFree Γ ∧ then'.LiteralsFree Γ ∧ els.LiteralsFree Γ
  | .call f args => f.LiteralsFree Γ ∧ args.LiteralsFree Γ
  | .deriv kwargs => kwargs.LiteralsFree Γ
  | .list items => items.LiteralsFree Γ ∧ "nil" ∉ Γ ∧ (items ≠ .nil → "cons" ∉ Γ)
  | .dict pairs => pairs.LiteralsFree Γ

def PyExprs.LiteralsFree (Γ : List Name) : PyExprs → Prop
  | .nil => True
  | .cons e rest => e.LiteralsFree Γ ∧ rest.LiteralsFree Γ

def FStrParts.LiteralsFree (Γ : List Name) : FStrParts → Prop
  | .nil => True
  | .lit _ rest => rest.LiteralsFree Γ
  | .hole e rest => e.LiteralsFree Γ ∧ rest.LiteralsFree Γ

def PyKwargs.LiteralsFree (Γ : List Name) : PyKwargs → Prop
  | .nil => True
  | .cons _ e rest => e.LiteralsFree Γ ∧ rest.LiteralsFree Γ

def PyPairs.LiteralsFree (Γ : List Name) : PyPairs → Prop
  | .nil => True
  | .cons _ e rest => e.LiteralsFree Γ ∧ rest.LiteralsFree Γ

end

def PyStmt.assigned : PyStmt → Option Name
  | .assign n _ | .defn n _ _ => some n
  | .expr _ => none

/-- Of the names that the module assigns, a statement before the last one refers only to those
of `Γ`, which are assigned before it. -/
def ModuleOrdered (assigned Γ : List Name) : List PyStmt → Prop
  | [] | [.expr _] => True
  | .expr e :: rest => (∀ x ∈ e.vars, x ∈ assigned → x ∈ Γ) ∧ ModuleOrdered assigned Γ rest
  | .assign n e :: rest =>
    (∀ x ∈ e.vars, x ∈ assigned → x ∈ Γ) ∧ ModuleOrdered assigned (n :: Γ) rest
  | .defn n param body :: rest =>
    (∀ x ∈ (PyExpr.lambda param body).vars, x ∈ assigned → x ∈ Γ) ∧
      ModuleOrdered assigned (n :: Γ) rest

/-- Assignments and definitions, then one expression. -/
def ModuleTidy (Γ : List Name) : List PyStmt → Prop
  | [.expr e] => e.Tidy Γ
  | [] | .expr _ :: _ => False
  | .assign n e :: rest => e.Tidy Γ ∧ TidyBinder Γ n ∧ ModuleTidy (n :: Γ) rest
  | .defn n param body :: rest =>
    (PyExpr.lambda param body).Tidy Γ ∧ TidyBinder Γ n ∧ ModuleTidy (n :: Γ) rest

def ModuleLiteralsFree (Γ : List Name) : List PyStmt → Prop
  | [] => True
  | .expr e :: rest => e.LiteralsFree Γ ∧ ModuleLiteralsFree Γ rest
  | .assign n e :: rest => e.LiteralsFree Γ ∧ ModuleLiteralsFree (n :: Γ) rest
  | .defn n param body :: rest =>
    (PyExpr.lambda param body).LiteralsFree Γ ∧ ModuleLiteralsFree (n :: Γ) rest

/-! ## Linear forms -/

theorem Python.countUsesIn_eq (x : Name) : ∀ {t : NixTerm}, t.FixFree →
    Python.countUsesIn x t = t.countUsesIn x
  | .name _, _ | .val _, _ | .fn _, _ | .perform _ _, _ | .handle _ _, _ => rfl
  | .abs y body, h => by
    rw [Python.countUsesIn, Ast.countUsesIn, Python.countUsesIn_eq x (t := body) h]
  | .app f t, h | .era f t, h | .rep f _ _ t, h => by
    rw [Python.countUsesIn, Ast.countUsesIn, Python.countUsesIn_eq x h.1,
      Python.countUsesIn_eq x h.2]

/-- `w` is the linear form of `s`, which is read as `m` just if `free`. -/
structure LoweredFrom (Γ : List Name) (s w : NixTerm) (m : Meaning) (free : Prop) : Prop where
  lin : s.linearise = some w
  plain : s.Plain
  fixFree : s.FixFree
  scopedIn : s.ScopedIn Prelude.Defined Prelude.Literal Γ
  reading : readWith literal s Γ = m ↔ free

def Lowered (Γ : List Name) (w : NixTerm) (m : Meaning) (free : Prop) : Prop :=
  ∃ s, LoweredFrom Γ s w m free

section

variable {Γ : List Name} {w w' w1 w2 : NixTerm} {m m' m1 m2 : Meaning} {free free' free1 free2 : Prop}

theorem Lowered.congr (h : Lowered Γ w m free) (hiff : free ↔ free') : Lowered Γ w m free' :=
  propext hiff ▸ h

theorem Lowered.val (v : NixPrimVal) : Lowered Γ (.val v) (.val v) True :=
  ⟨.val v, rfl, trivial, trivial, trivial, iff_of_true rfl trivial⟩

theorem Lowered.fn (f : NixPrimFun) : Lowered Γ (.fn f) (.fn f) True :=
  ⟨.fn f, rfl, trivial, trivial, trivial, iff_of_true rfl trivial⟩

theorem Lowered.name {n : Name} (hn : n ∈ Γ) (hclean : Clean n) :
    Lowered Γ (.name n) (.bound (Γ.idxOf n)) True :=
  ⟨.name n, rfl, hclean, trivial, .inl hn,
    iff_of_true (by rw [readWith, if_pos hn]) trivial⟩

theorem Lowered.app (h : Lowered Γ w m free) (h' : Lowered Γ w' m' free') :
    Lowered Γ (.app w w') (.app m m') (free ∧ free') := by
  obtain ⟨s, h⟩ := h
  obtain ⟨s', h'⟩ := h'
  refine ⟨.app s s', by simp [Ast.linearise, h.lin, h'.lin], ⟨h.plain, h'.plain⟩,
    ⟨h.fixFree, h'.fixFree⟩, ⟨h.scopedIn, h'.scopedIn⟩, ?_⟩
  rw [readWith, Nameless.app.injEq, h.reading, h'.reading]

theorem Lowered.app2 (h : Lowered Γ w m free) (h1 : Lowered Γ w1 m1 free1)
    (h2 : Lowered Γ w2 m2 free2) :
    Lowered Γ (app2 w w1 w2) (Python.mapp2 m m1 m2) ((free ∧ free1) ∧ free2) :=
  (h.app h1).app h2

theorem Lowered.insertAttr (h : Lowered Γ w m free) (key : Name) (h' : Lowered Γ w' m' free') :
    Lowered Γ (insertAttr w key w') (Python.minsert m key m') (free ∧ free') :=
  (((Lowered.fn _).app2 h (.val _)).app h').congr (by simp)

theorem Lowered.abs {x : Name} (hx : TidyBinder Γ x) (h : Lowered (x :: Γ) w m free) :
    ∃ w', Python.wrap x w = some w' ∧ Lowered Γ (.abs x w') (.abs m) free := by
  obtain ⟨s, h⟩ := h
  have hplain : (Ast.abs x s).Plain := ⟨hx.1, h.plain⟩
  obtain ⟨w', hw', -⟩ := Ast.linearise_spec hplain
  obtain ⟨v, hv, hl⟩ := Ast.linearise_spec h.plain
  cases hv.symm.trans h.lin
  have hbody : (wrapUses Ast.indexedRename x (w.countUsesIn x) w).bind (some ∘ Ast.abs x) =
      some w' := by
    rw [← hw', Ast.linearise, h.lin]
    rfl
  obtain ⟨u, hu, hw⟩ := Option.bind_eq_some_iff.mp hbody
  cases hw
  refine ⟨u, ?_, .abs x s, hw', hplain, h.fixFree, ⟨hx.2, h.scopedIn⟩, ?_⟩
  · rw [Python.wrap, Python.countUsesIn_eq x (hl.fixFree h.fixFree), hu]
  · rw [readWith, Nameless.abs.injEq, h.reading]

end

section

variable {Γ : List Name} {bound : Bound} {macc : Option Meaning} {acc : Option NixTerm}
  {l r : List Name}

/-- A name of a list literal denotes the prelude's definition unless it is captured. -/
theorem Lowered.literal {n : Name} (hn : Prelude.Literal n) :
    Lowered Γ (.name n) (Prelude.meaning n) (n ∉ Γ ∧ (n = "concat" → "cons" ∉ Γ)) := by
  have hclean : Clean n := by rcases hn with rfl | rfl | rfl <;> decide
  refine ⟨.name n, rfl, hclean, trivial, .inr hn, ?_⟩
  rw [readWith]
  split
  · next hmem =>
    -- A definition is an abstraction, and so differs from a variable.
    refine iff_of_false (fun h => ?_) fun h => h.1 hmem
    rcases hn with rfl | rfl | rfl <;> cases h
  · next hmem => rw [literal_eq_iff hn, and_iff_right hmem]

theorem BinOp.lowered {l r : NixTerm} {ml mr : Meaning} {freel freer : Prop} (op : BinOp)
    (lists : Bool) (hl : Lowered Γ l ml freel) (hr : Lowered Γ r mr freer) :
    Lowered Γ (op.lower lists l r) (op.meaning lists ml mr)
      (freel ∧ freer ∧ (op = .add ∧ lists = true → "concat" ∉ Γ ∧ "cons" ∉ Γ)) := by
  cases op with
  | and => exact (hl.app2 hr (.val _)).congr (by simp)
  | or => exact (hl.app2 (.val _) hr).congr (by simp)
  | «in» => exact ((Lowered.fn _).app2 hr hl).congr (by simp [and_comm])
  | add =>
    cases lists with
    | false => exact ((Lowered.fn _).app2 hl hr).congr (by simp)
    | true => exact ((Lowered.literal (.inr (.inr rfl))).app2 hl hr).congr (by simp; tauto)
  | sub | mul | div | eq | ne | lt | le | gt | ge =>
    exact ((Lowered.fn _).app2 hl hr).congr (by simp)

/-- The set of the lowering agrees with the scope on the names of an expression. -/
def Knows (bound : Bound) (Γ vars : List Name) : Prop := ∀ n ∈ vars, bound n = true ↔ n ∈ Γ

theorem Knows.left (h : Knows bound Γ (l ++ r)) :
    Knows bound Γ l := fun n hn => h n (List.mem_append_left r hn)

theorem Knows.right (h : Knows bound Γ (l ++ r)) :
    Knows bound Γ r := fun n hn => h n (List.mem_append_right l hn)

theorem Knows.insert {vars : List Name} {x : Name} (h : Knows bound Γ (vars.filter (· ≠ x))) :
    Knows (bound.insert x) (x :: Γ) vars :=
  fun n hn => by
    by_cases hx : n = x
    · simp [hx, Bound.insert]
    · simpa [hx, Bound.insert] using h n (List.mem_filter.mpr ⟨hn, by simpa using hx⟩)

theorem PyPairs.Tidy.checkKeys : ∀ {p : PyPairs}, p.Tidy Γ → p.checkKeys = .ok ()
  | .nil, _ => rfl
  | .cons (.str _) _ rest, h => PyPairs.Tidy.checkKeys (p := rest) h.2

/-- The parts of an f-string so far. -/
def LoweredParts (Γ : List Name) : Option NixTerm → Option Meaning → Prop → Prop
  | some w, some m, free => Lowered Γ w m free
  | none, none, free => free
  | _, _, _ => False

theorem LoweredParts.addPart {w : NixTerm}
    {m : Meaning} {free free' : Prop} (h : LoweredParts Γ acc macc free) (hw : Lowered Γ w m free')
    : LoweredParts Γ (some (FStrParts.lower.addPart acc w)) (some (Python.maddPart macc m))
      (free ∧ free') := by
  match acc, macc, h with
  | some _, some _, h => exact ((Lowered.fn .add).app2 h hw).congr (by simp)
  | none, none, h => exact hw.congr (by simp [show free from h])

theorem LoweredParts.getD {free : Prop} (h : LoweredParts Γ acc macc free) :
    Lowered Γ (acc.getD (.val (.str ""))) (macc.getD (.val (.str ""))) free := by
  match acc, macc, h with
  | some _, some _, h => exact h
  | none, none, h => exact (Lowered.val _).congr (iff_of_true trivial h)

/-! ## Lowering of expressions -/

theorem Lowered.lowerName {n : Name} (hΓ : ∀ x ∈ Γ, Clean x) (hb : bound n = true ↔ n ∈ Γ) :
    Lowered Γ (Python.lowerName n bound) ((PyExpr.name n).meaning Γ) True := by
  rw [Python.lowerName, PyExpr.meaning]
  by_cases hn : n ∈ Γ
  · rw [if_pos hn, if_pos (hb.mpr hn)]
    exact .name hn (hΓ n hn)
  · rw [if_neg hn, if_neg (mt hb.mp hn)]
    exact .fn _

end

mutual

/-- An expression is lowered, and read as its meaning just if no list literal is captured. -/
theorem PyExpr.lowered {bound : Bound} {Γ : List Name} (hΓ : ∀ x ∈ Γ, Clean x) :
    ∀ {e : PyExpr}, e.Tidy Γ → Knows bound Γ e.vars →
      (e.lower bound).Returns fun w => Lowered Γ w (e.meaning Γ) (e.LiteralsFree Γ)
  | .int _, _, _ | .float _, _, _ | .str _, _, _ | .bool _, _, _ | .none, _, _ => .ok (.val _)
  | .name n, _, hb => .ok (.lowerName hΓ (hb n (List.mem_singleton_self n)))
  | .fstr parts, ht, hb =>
    (FStrParts.lowered hΓ (p := parts) ht hb
      (show LoweredParts Γ none none True from trivial)).bind fun _ hl =>
        .ok (hl.getD.congr (and_iff_right trivial))
  | .lambda param body, ht, hb => by
    have hΓ' : ∀ x ∈ param :: Γ, Clean x := List.forall_mem_cons.mpr ⟨ht.1.1, hΓ⟩
    refine (PyExpr.lowered hΓ' ht.2 hb.insert).bind fun w hl => ?_
    obtain ⟨w', hw', hl'⟩ := hl.abs ht.1
    rw [hw']
    exact .ok hl'
  | .neg e, ht, hb =>
    (PyExpr.lowered hΓ (e := e) ht hb).bind fun _ hl =>
      .ok (((Lowered.fn _).app hl).congr (and_iff_right trivial))
  | .not e, ht, hb =>
    (PyExpr.lowered hΓ (e := e) ht hb).bind fun _ hl =>
      .ok ((hl.app2 (.val _) (.val _)).congr (by simp [PyExpr.LiteralsFree]))
  | .attr e _, ht, hb =>
    (PyExpr.lowered hΓ (e := e) ht hb).bind fun _ hl =>
      .ok (((Lowered.fn _).app2 hl (.val _)).congr (by simp [PyExpr.LiteralsFree]))
  | .binOp op _ _, ht, hb =>
    (PyExpr.lowered hΓ ht.1 hb.left).bind fun _ hl =>
      (PyExpr.lowered hΓ ht.2 hb.right).bind fun _ hr =>
        .ok ((op.lowered _ hl hr).congr (by simp [PyExpr.LiteralsFree]))
  | .index _ _, ht, hb =>
    (PyExpr.lowered hΓ ht.1 hb.left).bind fun _ hl =>
      (PyExpr.lowered hΓ ht.2 hb.right).bind fun _ hr =>
        .ok (((Lowered.fn _).app2 hl hr).congr (by simp [PyExpr.LiteralsFree]))
  | .ifExp _ _ _, ht, hb =>
    (PyExpr.lowered hΓ ht.1 hb.left.left).bind fun _ hc =>
      (PyExpr.lowered hΓ ht.2.1 hb.left.right).bind fun _ ht' =>
        (PyExpr.lowered hΓ ht.2.2 hb.right).bind fun _ he => .ok ((hc.app2 ht' he).congr and_assoc)
  | .call _ _, ht, hb =>
    (PyExpr.lowered hΓ ht.1 hb.left).bind fun _ hl => PyExprs.loweredCall hΓ ht.2 hb.right hl
  | .deriv kwargs, ht, hb =>
    (PyKwargs.lowered hΓ (p := kwargs) ht hb (.fn .emptyAttrSet)).bind fun _ hl =>
      .ok (((Lowered.fn _).app hl).congr (by simp [PyExpr.LiteralsFree]))
  | .list items, ht, hb => PyExprs.loweredList hΓ (p := items) ht hb
  | .dict pairs, ht, hb => by
    obtain ⟨w, hw, hl⟩ := PyPairs.lowered hΓ (p := pairs) ht hb (.fn .emptyAttrSet)
    have hkeys := PyPairs.Tidy.checkKeys (p := pairs) ht
    exact ⟨w, Call.bind_eq_ok.mpr ⟨(), congrArg some hkeys, hw⟩, hl.congr (and_iff_right trivial)⟩

theorem PyExprs.loweredCall {bound : Bound} {Γ : List Name} (hΓ : ∀ x ∈ Γ, Clean x) :
    ∀ {p : PyExprs} {acc : NixTerm} {macc : Meaning} {free : Prop}, p.Tidy Γ →
      Knows bound Γ p.vars → Lowered Γ acc macc free → (p.lowerCall acc bound).Returns fun w =>
        Lowered Γ w (p.meaningCall Γ macc) (free ∧ p.LiteralsFree Γ)
  | .nil, _, _, _, _, _, hacc => .ok (hacc.congr (and_iff_left trivial).symm)
  | .cons _ _, _, _, _, ht, hb, hacc =>
    (PyExpr.lowered hΓ ht.1 hb.left).bind fun _ hl => by
      obtain ⟨w, hw, hl'⟩ := PyExprs.loweredCall hΓ ht.2 hb.right (hacc.app hl)
      exact ⟨w, hw, hl'.congr and_assoc⟩

theorem PyExprs.loweredList {bound : Bound} {Γ : List Name} (hΓ : ∀ x ∈ Γ, Clean x) :
    ∀ {p : PyExprs}, p.Tidy Γ → Knows bound Γ p.vars → (p.lowerList bound).Returns fun w =>
      Lowered Γ w (p.meaningList Γ) (p.LiteralsFree Γ ∧ "nil" ∉ Γ ∧ (p ≠ .nil → "cons" ∉ Γ))
  | .nil, _, _ => .ok ((Lowered.literal (.inl rfl)).congr (by simp [PyExprs.LiteralsFree]))
  | .cons _ _, ht, hb => by
    refine (PyExprs.loweredList hΓ ht.2 hb.right).bind fun _ hacc =>
      (PyExpr.lowered hΓ ht.1 hb.left).bind fun _ hl =>
        .ok (((Lowered.literal (.inr (.inl rfl))).app2 hl hacc).congr ?_)
    simp only [PyExprs.LiteralsFree, ne_eq, reduceCtorEq, not_false_eq_true, true_imp_iff]
    have hne : "cons" ≠ "concat" := by decide
    tauto

theorem FStrParts.lowered {bound : Bound} {Γ : List Name} (hΓ : ∀ x ∈ Γ, Clean x) :
    ∀ {p : FStrParts} {acc : Option NixTerm} {macc : Option Meaning} {free : Prop}, p.Tidy Γ →
      Knows bound Γ p.vars → LoweredParts Γ acc macc free → (p.lower acc bound).Returns fun w =>
        LoweredParts Γ w (p.meaning Γ macc) (free ∧ p.LiteralsFree Γ)
  | .nil, _, _, _, _, _, hacc => .ok (by rwa [FStrParts.LiteralsFree, and_true])
  | .lit s rest, _, _, _, ht, hb, hacc => by
    obtain ⟨w, hw, hl⟩ := FStrParts.lowered hΓ (p := rest) ht hb (hacc.addPart (.val (.str s)))
    exact ⟨w, hw, by rwa [and_true] at hl⟩
  | .hole _ _, _, _, _, ht, hb, hacc =>
    (PyExpr.lowered hΓ ht.1 hb.left).bind fun _ hl => by
      obtain ⟨w, hw, hl'⟩ := FStrParts.lowered hΓ ht.2 hb.right
        (hacc.addPart ((Lowered.fn .toString2).app hl))
      exact ⟨w, hw, by rwa [true_and, and_assoc] at hl'⟩

theorem PyKwargs.lowered {bound : Bound} {Γ : List Name} (hΓ : ∀ x ∈ Γ, Clean x) :
    ∀ {p : PyKwargs} {set : NixTerm} {mset : Meaning} {free : Prop}, p.Tidy Γ →
      Knows bound Γ p.vars → Lowered Γ set mset free → (p.lowerAttrset set bound).Returns fun w =>
        Lowered Γ w (p.meaning Γ mset) (free ∧ p.LiteralsFree Γ)
  | .nil, _, _, _, _, _, hset => .ok (hset.congr (and_iff_left trivial).symm)
  | .cons key _ _, _, _, _, ht, hb, hset =>
    (PyExpr.lowered hΓ ht.1 hb.left).bind fun _ hl => by
      obtain ⟨w, hw, hl'⟩ := PyKwargs.lowered hΓ ht.2 hb.right (hset.insertAttr key hl)
      exact ⟨w, hw, hl'.congr and_assoc⟩

theorem PyPairs.lowered {bound : Bound} {Γ : List Name} (hΓ : ∀ x ∈ Γ, Clean x) :
    ∀ {p : PyPairs} {set : NixTerm} {mset : Meaning} {free : Prop}, p.Tidy Γ →
      Knows bound Γ p.vars → Lowered Γ set mset free → (p.lowerAttrset set bound).Returns fun w =>
        Lowered Γ w (p.meaning Γ mset) (free ∧ p.LiteralsFree Γ)
  | .nil, _, _, _, _, _, hset => .ok (hset.congr (and_iff_left trivial).symm)
  | .cons (.str key) _ _, _, _, _, ht, hb, hset =>
    (PyExpr.lowered hΓ ht.1 hb.left).bind fun _ hl => by
      obtain ⟨w, hw, hl'⟩ := PyPairs.lowered hΓ ht.2 hb.right (hset.insertAttr key hl)
      exact ⟨w, hw, hl'.congr and_assoc⟩

end

/-! ## Lowering of modules -/

/-- The statements `stmts` of a module are lowered with `bound` in the scope of `Γ`. -/
structure ModuleLowered (bound : Bound) (Γ : List Name) (stmts : List PyStmt)
    (names : List (Name × PyExpr)) (e : PyExpr) (lowered : List (Name × NixTerm)) (body t : NixTerm) :
    Prop where
  last : stmts.getLast? = some (.expr e)
  bindings : stmts.dropLast.mapM PyStmt.binding = .ok names
  assigned : names.map (·.1) = stmts.filterMap PyStmt.assigned
  values : lowerBindings bound names = .ok lowered
  value : e.lower bound = .ok body
  lets : foldLets lowered body = some t
  reads : Lowered Γ t (moduleMeaning Γ stmts) (ModuleLiteralsFree Γ stmts)

/-- What a statement that binds `n` to the value of `v` is. -/
structure PyStmt.Binds (s : PyStmt) (n : Name) (v : PyExpr) : Prop where
  binding : s.binding = .ok (n, v)
  assigned : s.assigned = some n
  meaning : ∀ Γ stmts, moduleMeaning Γ (s :: stmts) =
    .app (.abs (moduleMeaning (n :: Γ) stmts)) (v.meaning Γ)
  literalsFree : ∀ Γ stmts, ModuleLiteralsFree Γ (s :: stmts) ↔
    v.LiteralsFree Γ ∧ ModuleLiteralsFree (n :: Γ) stmts

section

variable {bound : Bound} {assigned Γ : List Name} {s : PyStmt} {stmts : List PyStmt} {n : Name}
  {v : PyExpr}

theorem ModuleLowered.binding (hs : s.Binds n v) (hn : TidyBinder Γ n)
    (hv : (v.lower bound).Returns fun w => Lowered Γ w (v.meaning Γ) (v.LiteralsFree Γ))
    (h : ∃ names e lowered body t, ModuleLowered bound (n :: Γ) stmts names e lowered body t) :
    ∃ names e lowered body t, ModuleLowered bound Γ (s :: stmts) names e lowered body t := by
  obtain ⟨w, hw, hv⟩ := hv
  obtain ⟨names, e, lowered, body, t, h⟩ := h
  obtain ⟨t', ht', hl⟩ := h.reads.abs hn
  obtain ⟨s', rest, rfl⟩ := List.exists_cons_of_ne_nil (l := stmts)
    (fun hnil => by simpa [hnil] using h.last)
  refine ⟨(n, v) :: names, e, (n, w) :: lowered, body, .app (.abs n t') w, ?_, ?_, ?_, ?_, h.value,
    ?_, ?_⟩
  · rw [List.getLast?_cons_cons, h.last]
  · rw [List.dropLast_cons_cons, List.mapM_cons, hs.binding, h.bindings]
    rfl
  · rw [List.map_cons, List.filterMap_cons_some hs.assigned, h.assigned]
  · exact Call.bind_eq_ok.mpr ⟨w, hw, Call.bind_eq_ok.mpr ⟨lowered, h.values, rfl⟩⟩
  · exact Option.bind_eq_some_iff.mpr ⟨t, h.lets, Option.bind_eq_some_iff.mpr ⟨t', ht', rfl⟩⟩
  · rw [hs.meaning, hs.literalsFree]
    exact (hl.app hv).congr and_comm

/-- The names in scope and those that are still to be assigned. -/
def Assigns (assigned Γ : List Name) (stmts : List PyStmt) : Prop :=
  ∀ x, x ∈ assigned ↔ x ∈ Γ ∨ x ∈ stmts.filterMap PyStmt.assigned

theorem Assigns.next (hs : s.Binds n v) (h : Assigns assigned Γ (s :: stmts)) :
    Assigns assigned (n :: Γ) stmts := fun x => by
  rw [h x, List.filterMap_cons_some hs.assigned, List.mem_cons, List.mem_cons, or_left_comm,
    or_assoc]

theorem Assigns.lowered (hbound : ∀ x, bound x = true ↔ x ∈ assigned) (hΓ : ∀ x ∈ Γ, Clean x)
    (h : Assigns assigned Γ stmts) (ht : v.Tidy Γ) (hv : ∀ x ∈ v.vars, x ∈ assigned → x ∈ Γ) :
    (v.lower bound).Returns fun w => Lowered Γ w (v.meaning Γ) (v.LiteralsFree Γ) :=
  PyExpr.lowered hΓ ht fun x hx => (hbound x).trans ⟨hv x hx, fun hmem => (h x).mpr (.inl hmem)⟩

end

theorem moduleLowered {bound : Bound} {assigned : List Name}
    (hbound : ∀ x, bound x = true ↔ x ∈ assigned) : ∀ {stmts : List PyStmt} {Γ : List Name},
      (∀ x ∈ Γ, Clean x) → Assigns assigned Γ stmts → ModuleTidy Γ stmts →
      ModuleOrdered assigned Γ stmts →
      ∃ names e lowered body t, ModuleLowered bound Γ stmts names e lowered body t
  | [.expr e], Γ, hΓ, hall, ht, _ => by
    have hvars : ∀ x ∈ e.vars, x ∈ assigned → x ∈ Γ := fun x _ hx => ((hall x).mp hx).resolve_right nofun
    obtain ⟨w, hw, hl⟩ := hall.lowered hbound hΓ ht hvars
    exact ⟨[], e, [], w, w, rfl, rfl, rfl, rfl, hw, rfl, hl.congr (and_iff_left trivial).symm⟩
  | .assign n v :: _, _, hΓ, hall, ht, ho =>
    have hs : (PyStmt.assign n v).Binds n v :=
      ⟨rfl, rfl, fun _ _ => by rw [moduleMeaning], fun _ _ => Iff.rfl⟩
    ModuleLowered.binding hs ht.2.1 (hall.lowered hbound hΓ ht.1 ho.1) (moduleLowered hbound
      (List.forall_mem_cons.mpr ⟨ht.2.1.1, hΓ⟩) (hall.next hs) ht.2.2 ho.2)
  | .defn n param f :: _, _, hΓ, hall, ht, ho =>
    have hs : (PyStmt.defn n param f).Binds n (.lambda param f) :=
      ⟨rfl, rfl, fun _ _ => by rw [moduleMeaning], fun _ _ => Iff.rfl⟩
    ModuleLowered.binding hs ht.2.1 (hall.lowered hbound hΓ ht.1 ho.1) (moduleLowered hbound
      (List.forall_mem_cons.mpr ⟨ht.2.1.1, hΓ⟩) (hall.next hs) ht.2.2 ho.2)

theorem foldl_insert (n : Name) : ∀ (names : List (Name × PyExpr)) (bound : Bound),
    names.foldl (fun bound b => bound.insert b.1) bound n = true ↔
      bound n = true ∨ n ∈ names.map (·.1)
  | [], bound => by simp
  | (x, v) :: names, bound => by
    rw [List.foldl_cons, foldl_insert n names]
    by_cases hx : n = x <;> simp [Bound.insert, hx]

/-- The lowering of a module is the linear form of its nested `let`s. -/
theorem lowerModule_lowered {stmts : List PyStmt} (ht : ModuleTidy [] stmts)
    (ho : ModuleOrdered (stmts.filterMap PyStmt.assigned) [] stmts) :
    ∃ t, lowerModule stmts (fun _ => false) = .ok t ∧
      Lowered [] t (moduleMeaning [] stmts) (ModuleLiteralsFree [] stmts) := by
  have hall : Assigns (stmts.filterMap PyStmt.assigned) [] stmts := fun x => by simp
  have hclean : ∀ x ∈ ([] : List Name), Clean x := fun _ hx => absurd hx List.not_mem_nil
  -- The names do not depend on the set that the values are lowered with.
  obtain ⟨names, _, _, _, _, hnames⟩ := moduleLowered
    (fun x => decide_eq_true_iff (p := x ∈ stmts.filterMap PyStmt.assigned)) hclean hall ht ho
  have hbound : ∀ x, names.foldl (fun (bound : Bound) b => bound.insert b.1) (fun _ => false) x =
      true ↔ x ∈ stmts.filterMap PyStmt.assigned := fun x => by
    rw [foldl_insert, hnames.assigned]
    simp
  obtain ⟨names', e, lowered, body, t, h⟩ := moduleLowered hbound hclean hall ht ho
  cases h.bindings.symm.trans hnames.bindings
  refine ⟨t, ?_, h.reads⟩
  rw [lowerModule, h.last]
  refine Call.bind_eq_ok.mpr ⟨names, congrArg some h.bindings, ?_⟩
  refine Call.bind_eq_ok.mpr ⟨lowered, h.values, ?_⟩
  refine Call.bind_eq_ok.mpr ⟨body, h.value, ?_⟩
  rw [h.lets]
  rfl

/-- After `pass0` a linear form is read as its meaning just if no list literal is captured. -/
theorem Lowered.pass0_iff {t : NixTerm} {m : Meaning} {free : Prop} (h : Lowered [] t m free) :
    (∃ r r', (∃ k, ∀ fuel, k ≤ fuel → pass0 fuel defs t = .ok r) ∧
      r.erasure id = some r' ∧ r'.nameless [] = m) ↔ free := by
  obtain ⟨s, h⟩ := h
  obtain ⟨w, hw, hl⟩ := Ast.linearise_spec h.plain
  cases hw.symm.trans h.lin
  have hs : t.erasure id = some s := by rw [hl.erasure, erasure_self (σ := id) h.plain fun _ _ => rfl]
  obtain ⟨r, r', ⟨k, hk⟩, hr, hread⟩ :=
    pass0_reads (hl.scopedIn (fun _ => Prelude.Defined.clean) h.scopedIn) hs
  rw [← h.reading, ← hread]
  constructor
  · rintro ⟨q, q', ⟨k', hk'⟩, hq, hqread⟩
    have hrun := (hk (max k k') (le_max_left k k')).symm.trans (hk' _ (le_max_right k k'))
    cases hrun
    cases hr.symm.trans hq
    exact hqread
  · exact fun he => ⟨r, r', ⟨k, hk⟩, hr, he⟩

/-- A module keeps its lexical meaning just if no list literal is captured. -/
theorem lowerModule_lexical_iff {stmts : List PyStmt} (ht : ModuleTidy [] stmts)
    (ho : ModuleOrdered (stmts.filterMap PyStmt.assigned) [] stmts) :
    Lexical stmts ↔ ModuleLiteralsFree [] stmts := by
  obtain ⟨t, hrun, hl⟩ := lowerModule_lowered ht ho
  rw [← hl.pass0_iff]
  constructor
  · rintro ⟨t', r, r', ht', h⟩
    cases hrun.symm.trans ht'
    exact ⟨r, r', h⟩
  · rintro ⟨r, r', h⟩
    exact ⟨t, r, r', hrun, h⟩

/-- `xs = [1]; def f(x): x + x; f(xs)` -/
def doubled : List PyStmt :=
  [.assign "xs" (.list (.cons (.int 1) .nil)), .defn "f" "x" (.binOp .add (.name "x") (.name "x")),
    .expr (.call (.name "f") (.cons (.name "xs") .nil))]

theorem doubled_lexical : Lexical doubled := by
  have hclean : Clean "xs" ∧ Clean "f" ∧ Clean "x" := by decide +kernel
  have htidy : ModuleTidy [] doubled := by
    simp [doubled, ModuleTidy, PyExpr.Tidy, PyExprs.Tidy, TidyBinder, hclean]
  have hordered : ModuleOrdered (doubled.filterMap PyStmt.assigned) [] doubled := by
    simp [doubled, ModuleOrdered, PyExpr.vars, PyExprs.vars, PyStmt.assigned]
  exact (lowerModule_lexical_iff htidy hordered).mpr (by
    simp [doubled, ModuleLiteralsFree, PyExpr.LiteralsFree, PyExprs.LiteralsFree, PyExpr.isList])

/-- `cons = 1; [2]` -/
def capturedCons : List PyStmt := [.assign "cons" (.int 1), .expr (.list (.cons (.int 2) .nil))]

/-- The literal is built with the number that the module assigns to `cons`. -/
theorem capturedCons_not_lexical :
    ModuleOrdered (capturedCons.filterMap PyStmt.assigned) [] capturedCons ∧
      capturedCons.getLast? = some (.expr (.list (.cons (.int 2) .nil))) ∧
      ¬Lexical capturedCons := by
  have hclean : Clean "cons" := by decide +kernel
  have htidy : ModuleTidy [] capturedCons := by
    simp [capturedCons, ModuleTidy, PyExpr.Tidy, PyExprs.Tidy, TidyBinder, hclean]
  have hordered : ModuleOrdered (capturedCons.filterMap PyStmt.assigned) [] capturedCons := by
    simp [capturedCons, ModuleOrdered, PyExpr.vars]
  refine ⟨hordered, rfl, ?_⟩
  obtain ⟨t, hrun, hl⟩ := lowerModule_lowered htidy hordered
  rintro ⟨t', r, r', ht', h⟩
  cases hrun.symm.trans ht'
  have hfree := hl.pass0_iff.mp ⟨r, r', h⟩
  simp [capturedCons, ModuleLiteralsFree, PyExpr.LiteralsFree] at hfree

end Dnet
