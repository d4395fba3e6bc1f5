import Dnet.Kernel.Tm

/-!
# Reduction, conversion and type inference

The mutually recursive functions of driver.rs, conv.rs, recursor.rs and infer.rs. None of
them has a bound on its recursion, so each body is written over the calls it makes
(`Calls`), and `run n` ties the knot for calls nested at most `n` deep. A result stays when
`n` grows (Agree.lean).
-/

namespace Dnet.Kernel

open Lib (Call)

/-- The recursive calls of the kernel. -/
structure Calls where
  whnf : Ctx → Tm → Option Tm
  nf : Ctx → Tm → Option Tm
  infer : Ctx → Tm → Call TypeError Tm

section Bodies

variable (B : Build) (env : GlobalEnv) (K : Calls)

/-! ## Weak-head reduction -/

/-- The index arguments of a recursive field, read off its inferred type. -/
def fieldIndices (ctx : Ctx) (i : IndId) (np nidx : Nat) (field : Tm) : Option (Option (List Tm)) :=
  if nidx = 0 then some (some []) else
    match K.infer ctx field with
    | none => none
    | some (.error _) => some none
    | some (.ok ty) => do
      let ty ← K.whnf ctx ty
      if ty.head = .ind i ∧ np ≤ ty.args.length then some (some (ty.args.drop np))
      else some none

/-- One induction hypothesis for each recursive field, applied to `res` in turn. -/
def addHyps (ctx : Ctx) (i : IndId) (np nidx : Nat) (elimPrefix fields : List Tm) :
    Telescope → Nat → Tm → Option (Option Tm)
  | [], _, res => some (some res)
  | argTy :: rest, pos, res =>
    if headIsInd argTy i then
      match fields[pos]? with
      | none => some none
      | some field => do
        match ← fieldIndices K ctx i np nidx field with
        | none => some none
        | some idxs =>
          let ih := .app (apply (apply (.elim i) elimPrefix) idxs) field
          addHyps ctx i np nidx elimPrefix fields rest (pos + 1) (.app res ih)
    else addHyps ctx i np nidx elimPrefix fields rest (pos + 1) res

/-- `Elim I P motive minors X (Ctor I k P fields)` becomes `minor_k fields hyps`. -/
def tryIota (ctx : Ctx) (i : IndId) (args : List Tm) : Option (Option Tm) :=
  match env.inds i with
  | none => some none
  | some ind =>
    let np := ind.params.length
    let nidx := ind.indices.length
    let nctors := ind.ctors.length
    let expected := np + 1 + nctors + nidx + 1
    if args.length < expected then some none
    else do
      let scrut ← K.whnf ctx (args.getD (expected - 1) (.sort 0))
      match scrut.head with
      | .ctor j k =>
        if j = i then
          match ind.ctors[k]? with
          | none => some none
          | some c => do
            let fields := scrut.args.drop np
            let res := apply (args.getD (np + 1 + k) (.sort 0)) fields
            match ← addHyps K ctx i np nidx (args.take (np + 1 + nctors)) fields c.args 0 res with
            | none => some none
            | some res => some (some (apply res (args.drop expected)))
        else some none
      | _ => some none

def whnfTm (ctx : Ctx) (t : Tm) : Option Tm :=
  match t.head, t.args with
  | .lam _ body, a :: args => K.whnf ctx (apply (subst body 0 a) args)
  | .const c, args =>
    match env.constBody c with
    | some b => K.whnf ctx (apply b args)
    | none => some t
  | .elim i, args => do
    match ← tryIota env K ctx i args with
    | some r => K.whnf ctx r
    | none => some t
  | _, _ => some t

/-! ## Normal forms and conversion -/

/-- `λx. f x` becomes `f` when `x` does not occur in `f`. -/
def etaContract (dom body : Tm) : Tm :=
  match body with
  | .app f (.var 0) => if occursVar f 0 then .lam dom body else shift f (-1) 0
  | _ => .lam dom body

def nfTm (ctx : Ctx) (t : Tm) : Option Tm := do
  match ← K.whnf ctx t with
  | .lam d b => do
    let dom ← K.nf ctx d
    let body ← K.nf (d :: ctx) b
    some (etaContract dom body)
  | .pi d b => do
    let dom ← K.nf ctx d
    let cod ← K.nf (d :: ctx) b
    some (.pi dom cod)
  | .app f x => do
    let f ← K.nf ctx f
    let x ← K.nf ctx x
    some (.app f x)
  | other => some other

def isOpen : Tm → Nat → Bool
  | .var i, depth => depth ≤ i
  | .lam a b, depth | .pi a b, depth => isOpen a depth || isOpen b (depth + 1)
  | .app a b, depth => isOpen a depth || isOpen b depth
  | _, _ => false

def needsTypedConv : Tm → Bool
  | .sort _ | .pi _ _ | .const _ | .ind _ | .ctor _ _ | .elim _ => true
  | .lam a b | .app a b => needsTypedConv a || needsTypedConv b
  | .var _ => false

def conv (ctx : Ctx) (t u : Tm) : Call DnxError Bool :=
  if isOpen t 0 || isOpen u 0 || needsTypedConv t || needsTypedConv u then
    Call.ofOption do
      let a ← K.nf ctx t
      let b ← K.nf ctx u
      some (a = b)
  else some (B.netConv t u)

/-- A term without type structure has a free variable: its leftmost leaf, through the
domains of its abstractions, stands under no binder. So `conv` never compares nets. -/
theorem typedConv_always (t : Tm) : (isOpen t 0 || needsTypedConv t) = true := by
  induction t with
  | var i => rfl
  | lam a b iha _ | app a b iha _ =>
    rcases Bool.or_eq_true_iff.mp iha with h | h <;> simp [isOpen, needsTypedConv, h]
  | _ => simp [needsTypedConv]

theorem conv_eq (ctx : Ctx) (t u : Tm) : conv B K ctx t u = Call.ofOption (do
      let a ← K.nf ctx t
      let b ← K.nf ctx u
      some (decide (a = b))) := by
  refine if_pos ?_
  have := typedConv_always t
  simp only [Bool.or_eq_true] at this ⊢
  tauto

/-! ## The type of a recursor -/

/-- `I P X` under `depth` binders above the parameters. -/
def indApp (i : IndId) (p nidx depth : Nat) : Tm :=
  apply (.ind i) ((List.range p).map (fun a => .var (nidx + depth + (p - 1 - a))) ++
    (List.range nidx).map (fun t => .var (nidx - 1 - t)))

/-- The index arguments of a recursive field type `I P idxs`. -/
def indIndices (fieldTy : Tm) (i : IndId) (p : Nat) : List Tm :=
  if fieldTy.head = .ind i ∧ p ≤ fieldTy.args.length then fieldTy.args.drop p else []

/-- The positions of the recursive fields. -/
def recFields (fields : Telescope) (i : IndId) : List Nat :=
  (List.range fields.length).filter fun q => headIsInd (fields.getD q (.sort 0)) i

/-- The type of the `j`-th induction hypothesis of constructor `k`, for the field `q`. -/
def hypType (i : IndId) (p : Nat) (fields : Telescope) (k j q : Nat) : Tm :=
  let m := fields.length
  let idxs := (indIndices (fields.getD q (.sort 0)) i p).map fun t =>
    shift (shift t ((j + m - q : Nat) : Int) 0) ((k + 1 : Nat) : Int) (j + m)
  .app (apply (.var (m + j + k)) idxs) (.var (j + (m - 1 - q)))

def minorType (ind : Inductive) (k : Nat) : Tm :=
  let i := ind.id
  let p := ind.params.length
  let c := ind.ctors.getD k ⟨0, [], []⟩
  let m := c.args.length
  let recs := recFields c.args i
  let r := recs.length
  let paramVars := (List.range p).map fun a => .var (m + r + k + 1 + (p - 1 - a))
  let fieldVars := (List.range m).map fun q => .var (r + (m - 1 - q))
  let retArgs := c.retIndices.map fun ri =>
    shift (shift ri (r : Int) 0) ((k + 1 : Nat) : Int) (r + m)
  let body := .app (apply (.var (m + r + k)) retArgs)
    (apply (apply (.ctor i k) paramVars) fieldVars)
  let hyps := recs.zipIdx.map fun (q, j) => hypType i p c.args k j q
  let fields := c.args.zipIdx.map fun (ty, q) => shift ty ((k + 1 : Nat) : Int) q
  telescope fields (telescope hyps body)

/-- `Π P. Π motive. Π minors. Π X. Π x : I P X. motive X x`. -/
def recursorType (ind : Inductive) (lm : Level) : Tm :=
  let i := ind.id
  let p := ind.params.length
  let c := ind.ctors.length
  let nidx := ind.indices.length
  let result := apply (.var (1 + nidx + c))
    ((List.range nidx).map (fun t => .var (nidx - t)) ++ [.var 0])
  let indices := ind.indices.zipIdx.map fun (ty, t) => shift ty ((1 + c : Nat) : Int) t
  let minors := (List.range c).map (minorType ind)
  let motiveTy := telescope ind.indices (.pi (indApp i p nidx 0) (.sort lm))
  telescope ind.params (.pi motiveTy (telescope minors
    (telescope indices (.pi (indApp i p nidx (1 + c)) result))))

/-! ## Inference -/

def varType (ctx : Ctx) (i : Nat) : Call TypeError Tm :=
  match ctx[i]? with
  | some ty => .ok (shift ty ((i + 1 : Nat) : Int) 0)
  | none => .error .unboundVar

def asPi (ctx : Ctx) (t : Tm) : Call TypeError (Tm × Tm) := do
  match ← Call.ofOption (K.whnf ctx t) with
  | .pi a b => .ok (a, b)
  | _ => .error .notAPi

def sortOf (ctx : Ctx) (t : Tm) : Call TypeError Level := do
  let ty ← K.infer ctx t
  match ← Call.ofOption (K.whnf ctx ty) with
  | .sort l => .ok l
  | _ => .error .notASort

def check (ctx : Ctx) (t ty : Tm) : Call TypeError Unit := do
  let got ← K.infer ctx t
  match conv B K ctx got ty with
  | none => .pending
  | some (.ok true) => .ok ()
  | some (.ok false) | some (.error _) => .error .mismatch

/-- Take `n` products off a type; the context stays the one outside of them. -/
def peelPis (ctx : Ctx) : Nat → Tm → Call TypeError Tm
  | 0, ty => .ok ty
  | n + 1, ty => do
    let (_, cod) ← asPi K ctx ty
    peelPis ctx n cod

/-- Apply a function type to arguments, each checked at its domain. -/
def applyArgs (ctx : Ctx) : List Tm → Tm → Call TypeError Tm
  | [], ty => .ok ty
  | a :: args, ty => do
    let (dom, cod) ← asPi K ctx ty
    check B K ctx a dom
    applyArgs ctx args (subst cod 0 a)

def inferElim (ctx : Ctx) (i : IndId) (args : List Tm) : Call TypeError Tm :=
  match env.inds i with
  | none => .error .unknownInd
  | some ind =>
    match args[ind.params.length]? with
    | none => .error (.unsupported "recursor needs its params + motive (monomorphic levels)")
    | some motive => do
      let mty ← K.infer ctx motive
      let mty ← peelPis K ctx (ind.indices.length + 1) mty
      match ← Call.ofOption (K.whnf ctx mty) with
      | .sort lm => applyArgs B K ctx args (recursorType ind lm)
      | _ => .error (.unsupported "motive must land in a sort")

/-- The declared type of an inductive: `Π params. Π indices. Sort`. -/
def indType (ind : Inductive) : Tm :=
  telescope ind.params (telescope ind.indices (.sort ind.sort))

/-- The return type of a constructor of `i`, under its parameters and fields. -/
def ctorRet (i : IndId) (ind : Inductive) (c : CtorDecl) : Tm :=
  let np := ind.params.length
  apply (.ind i)
    ((List.range np).map (fun a => .var (c.args.length + (np - 1 - a))) ++ c.retIndices)

def ctorType (i : IndId) (ind : Inductive) (c : CtorDecl) : Tm :=
  telescope ind.params (telescope c.args (ctorRet i ind c))

/-- The typing rules, one for each kind of node. -/
def inferNode (ctx : Ctx) : Tm → Call TypeError Tm
  | .var i => varType ctx i
  | .sort l =>
    match B.succ l with
    | some l' => .ok (.sort l')
    | none => .pending
  | .pi a b => do
    let i ← sortOf K ctx a
    let j ← sortOf K (a :: ctx) b
    .ok (.sort (max i j))
  | .lam a b => do
    let _ ← sortOf K ctx a
    let bt ← K.infer (a :: ctx) b
    .ok (.pi a bt)
  | .app f x => do
    let ft ← K.infer ctx f
    let (dom, cod) ← asPi K ctx ft
    check B K ctx x dom
    .ok (subst cod 0 x)
  | .const c =>
    match env.consts c with
    | some (ty, _) => .ok ty
    | none => .error .unknownConst
  | .ind i =>
    match env.inds i with
    | some ind => .ok (indType ind)
    | none => .error .unknownInd
  | .ctor i k =>
    match env.inds i with
    | some ind =>
      match ind.ctors.find? (fun c => c.ctorIx = k) with
      | some c => .ok (ctorType i ind c)
      | none => .error (.unsupported "ctor index")
    | none => .error .unknownInd
  | .elim _ => .error (.unsupported "Elim must be applied (spine head)")

/-- An applied recursor is typed as a whole spine. -/
def infer (ctx : Ctx) (t : Tm) : Call TypeError Tm :=
  match t.head with
  | .elim i => inferElim B env K ctx i t.args
  | _ => inferNode B env K ctx t

end Bodies

/-- The calls of the kernel, nested at most `n` deep. -/
def run (B : Build) (env : GlobalEnv) : Nat → Calls
  | 0 => ⟨fun _ _ => none, fun _ _ => none, fun _ _ => .pending⟩
  | n + 1 =>
    ⟨whnfTm env (run B env n), nfTm (run B env n), infer B env (run B env n)⟩

end Dnet.Kernel
