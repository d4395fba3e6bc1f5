import Dnet.Kernel.Infer

/-!
# Lowering `fix` and `match` to recursors

The surface terms (surface.rs) and their translation to kernel terms (lower.rs). A `match`
becomes an applied recursor. A structural `fix` becomes the recursor of its match under the same
parameters, and a call of it on a recursive field becomes that field's induction hypothesis.

The translation of an arm is a value here and not a call, so that `lower` recurses along
the tree; an arm that no constructor asks for is not looked at, as in the source.
-/

namespace Dnet.Kernel

open List

mutual

inductive SrcTm where
  | var (v : Nat)
  | app (f x : SrcTm)
  | lam (dom : Tm) (body : SrcTm)
  /-- A kernel term that is kept as it is. -/
  | core (t : Tm)
  /-- `body` stands under a binder for the function itself. -/
  | fix (recArg : Nat) (ty : Tm) (body : SrcTm)
  | matchOn (scrut : SrcTm) (ind : IndId) (motive : Tm) (arms : List SrcArm)

inductive SrcArm where
  | mk (ctorIx : Nat) (binders : List Tm) (rhs : SrcTm)

end

namespace SrcArm

def ctorIx : SrcArm → Nat
  | mk k _ _ => k

def binders : SrcArm → List Tm
  | mk _ bs _ => bs

def rhs : SrcArm → SrcTm
  | mk _ _ r => r

end SrcArm

inductive LowerError where
  | unknownInd
  | paramsOrIndices
  | armCount
  | armArity
  | nonStructural
  | varyingArg
  | bareSelf
  | badRecArg
  | notDirectMatch
  deriving DecidableEq, Repr

/-- `λ tele. body`. -/
def lams (tele : Telescope) (body : Tm) : Tm := tele.foldr .lam body

theorem lams_append (tele tele' : Telescope) (body : Tm) :
    lams (tele ++ tele') body = lams tele (lams tele' body) := foldr_append

def checkSimple (ind : Inductive) : Except LowerError Unit :=
  if ind.params = [] ∧ ind.indices = [] then .ok () else .error .paramsOrIndices

/-! ## Minor premises -/

/-- The minor premise of the constructor `k`, for an arm with `arity` binders. The body is
given the recursive fields; an induction hypothesis is bound with the type of its field. -/
def lowerMinor (ind : Inductive) (k arity : Nat) (body : List Nat → Except LowerError Tm) :
    Except LowerError Tm :=
  let fields := (ind.ctors.getD k ⟨0, [], []⟩).args
  if arity = fields.length then do
    let recs := recFields fields ind.id
    let body ← body recs
    .ok (lams fields (lams (recs.map fun p => fields.getD p (.sort 0)) body))
  else .error .armArity

/-- An arm as the match uses it: its constructor, and its minor premise. -/
abbrev ArmMinor := Nat × (Inductive → Except LowerError Tm)

/-- The arm of one constructor. -/
def lowerArm (ind : Inductive) (arms : List ArmMinor) (k : Nat) : Except LowerError Tm :=
  match arms.find? (fun arm => arm.1 = k) with
  | some arm => arm.2 ind
  | none => .error .armCount

/-- `Elim I motive minors scrut`, the minors in the order of the constructors. -/
def lowerMatch (env : GlobalEnv) (i : IndId) (motive : Tm) (arms : List ArmMinor)
    (scrut : Except LowerError Tm) : Except LowerError Tm :=
  match env.inds i with
  | none => .error .unknownInd
  | some ind => do
    checkSimple ind
    if arms.length = ind.ctors.length then
      let minors ← (List.range ind.ctors.length).mapM (lowerArm ind arms)
      let scrut ← scrut
      .ok (.app (apply (.elim i) (motive :: minors)) scrut)
    else .error .armCount

/-! ## The arms of a structural fix -/

/-- What an arm knows of the fix around it. Indices are those at the root of the arm. -/
structure FixScope where
  /-- The function itself, in the source. -/
  selfSrc : Nat
  recArg : Nat
  /-- The parameters of the fix, in the source. -/
  outerSrc : List Nat
  /-- A recursive field in the source, and its induction hypothesis in the minor premise. -/
  fieldToIh : List (Nat × Nat)
  /-- The number of induction hypotheses. -/
  r : Nat

/-- For a fix with `n` parameters and a constructor with `m` fields. -/
def armFixScope (recArg n : Nat) (recs : List Nat) (m : Nat) : FixScope where
  selfSrc := m + n
  recArg := recArg
  outerSrc := (List.range n).map fun t => m + (n - 1 - t)
  fieldToIh := recs.zipIdx.map fun (p, j) => (m - 1 - p, recs.length - 1 - j)
  r := recs.length

/-- A variable of the arm moves over the induction hypotheses, and down where it points
over the dropped function. -/
def relocateVar (s : FixScope) (v depth : Nat) : Except LowerError Nat :=
  if v < depth then .ok v
  else if v - depth = s.selfSrc then .error .bareSelf
  else if v - depth < s.selfSrc then .ok (v + s.r)
  else .ok (v + s.r - 1)

/-- A kernel term of the arm may not mention the function. -/
def rejectBareSelf (s : FixScope) (t : Tm) (depth : Nat) : Except LowerError Unit :=
  if occursVar t (depth + s.selfSrc) then .error .bareSelf else .ok ()

/-- The same move for a whole kernel term. -/
def relocate (s : FixScope) (t : Tm) (depth : Nat) : Tm :=
  shift (shift t (-1) (depth + s.selfSrc + 1)) (s.r : Int) depth

def SrcTm.head : SrcTm → SrcTm
  | .app f _ => f.head
  | t => t

def SrcTm.args : SrcTm → List SrcTm
  | .app f x => f.args ++ [x]
  | _ => []

/-- The variable `v` of the arm's root, seen under `depth` binders. -/
def SrcTm.isVar (t : SrcTm) (v depth : Nat) : Bool :=
  match t with
  | .var w => depth ≤ w && w - depth = v
  | _ => false

/-- Every argument but the decreasing one is the parameter of the fix at its place. -/
def uniformArgs (s : FixScope) (args : List SrcTm) (depth : Nat) : Bool :=
  (args.zip s.outerSrc).zipIdx.all fun ((a, outer), pos) =>
    pos = s.recArg || a.isVar outer depth

/-- A call of the function on a recursive field is the induction hypothesis of the field. -/
def selfCallToIh (s : FixScope) (args : List SrcTm) (depth : Nat) : Except LowerError Tm :=
  if args.length = s.outerSrc.length then
    match args[s.recArg]? with
    | none => .error .badRecArg
    | some (.var v) =>
      if depth ≤ v then
        match s.fieldToIh.lookup (v - depth) with
        | none => .error .nonStructural
        | some ih => if uniformArgs s args depth then .ok (.var (ih + depth)) else .error .varyingArg
      else .error .nonStructural
    | some _ => .error .nonStructural
  else .error .nonStructural

/-- The right-hand side of an arm, under `depth` binders of its own. -/
def lowerRhs (s : FixScope) : SrcTm → Nat → Except LowerError Tm
  | .var v, depth => do
    let v ← relocateVar s v depth
    .ok (.var v)
  | .core t, depth => do
    rejectBareSelf s t depth
    .ok (relocate s t depth)
  | .lam dom body, depth => do
    rejectBareSelf s dom depth
    let body ← lowerRhs s body (depth + 1)
    .ok (.lam (relocate s dom depth) body)
  | .app f x, depth =>
    -- The source takes the whole spine apart. Its head is also the head of `f`, so that
    -- the test for a call of the function fails again inside of `f`.
    if f.head.isVar s.selfSrc depth then selfCallToIh s (f.args ++ [x]) depth
    else do
      let f ← lowerRhs s f depth
      let x ← lowerRhs s x depth
      .ok (.app f x)
  | .fix _ _ _, _ | .matchOn _ _ _ _, _ => .error .notDirectMatch

/-! ## The translation -/

/-- The parameters of a fix, and what stands under them. -/
def peelLams : SrcTm → Telescope × SrcTm
  | .lam dom body => ((dom :: (peelLams body).1), (peelLams body).2)
  | t => ([], t)

/-- The minor premise of an arm inside a fix with `n` parameters. -/
def fixArm (recArg n : Nat) (arm : SrcArm) : ArmMinor :=
  (arm.ctorIx, fun ind => lowerMinor ind arm.ctorIx arm.binders.length fun recs =>
    lowerRhs (armFixScope recArg n recs arm.binders.length) arm.rhs 0)

def lowerFix (env : GlobalEnv) (recArg : Nat) (body : SrcTm) : Except LowerError Tm :=
  let (doms, cur) := peelLams body
  let n := doms.length
  if recArg < n then
    match cur with
    | .matchOn (.var v) i motive arms =>
      if v = n - 1 - recArg then do
        let elim ← lowerMatch env i motive (arms.map (fixArm recArg n)) (.ok (.var v))
        .ok (lams doms elim)
      else .error .notDirectMatch
    | _ => .error .notDirectMatch
  else .error .badRecArg

mutual

def lower (env : GlobalEnv) : SrcTm → Except LowerError Tm
  | .var v => .ok (.var v)
  | .core t => .ok t
  | .app f x => do
    let f ← lower env f
    let x ← lower env x
    .ok (.app f x)
  | .lam dom body => do
    let body ← lower env body
    .ok (.lam dom body)
  | .matchOn scrut i motive arms => lowerMatch env i motive (plainArms env arms) (lower env scrut)
  | .fix recArg _ body => lowerFix env recArg body

/-- The minor premises of a match outside of a fix: the hypotheses are bound and unused. -/
def plainArms (env : GlobalEnv) : List SrcArm → List ArmMinor
  | [] => []
  | .mk k binders rhs :: arms =>
    let body := lower env rhs
    (k, fun ind => lowerMinor ind k binders.length fun recs => do
      let t ← body
      .ok (shift t (recs.length : Int) 0)) :: plainArms env arms

end

/-! ## What a translation looks like when it succeeds -/

theorem forall₂_iff_getElem? {α β : Type} {R : α → β → Prop} {as : List α} {bs : List β} :
    List.Forall₂ R as bs ↔ as.length = bs.length ∧
      ∀ (k : Nat) (a : α) (b : β), as[k]? = some a → bs[k]? = some b → R a b := by
  rw [forall₂_iff_get]
  refine and_congr_right fun _ => ⟨fun h k a b ha hb => ?_, fun h k ha hb =>
    h k _ _ (List.getElem?_eq_getElem ha) (List.getElem?_eq_getElem hb)⟩
  obtain ⟨hk, rfl⟩ := List.getElem?_eq_some_iff.mp ha
  obtain ⟨hk', rfl⟩ := List.getElem?_eq_some_iff.mp hb
  exact h k hk hk'

theorem forall₂_range {α : Type} {R : Nat → α → Prop} {n : Nat} {xs : List α}
    (h : List.Forall₂ R (List.range n) xs) : xs.length = n ∧ ∀ k x, xs[k]? = some x → R k x := by
  obtain ⟨hlen, hget⟩ := forall₂_iff_getElem?.mp h
  rw [length_range] at hlen
  refine ⟨hlen.symm, fun k x hx => hget k k x (getElem?_range ?_) hx⟩
  exact hlen ▸ (List.getElem?_eq_some_iff.mp hx).1

theorem exists_forall₂ {α β : Type} {R : α → β → Prop} {as : List α} (h : ∀ a ∈ as, ∃ b, R a b) :
    ∃ bs, List.Forall₂ R as bs := by
  induction as with
  | nil => exact ⟨[], .nil⟩
  | cons a as ih =>
    obtain ⟨⟨b, hb⟩, has⟩ := forall_mem_cons.mp h
    obtain ⟨bs, hbs⟩ := ih has
    exact ⟨b :: bs, .cons hb hbs⟩

variable {ind : Inductive} {env : GlobalEnv}

theorem checkSimple_eq_ok {u : Unit} :
    checkSimple ind = .ok u ↔ ind.params = [] ∧ ind.indices = [] := by
  unfold checkSimple
  split
  · next h => exact ⟨fun _ => h, fun _ => rfl⟩
  · next h => exact ⟨nofun, fun h' => absurd h' h⟩

theorem lowerMinor_eq_ok {k arity : Nat}
    {body : List Nat → Except LowerError Tm} {t : Tm} {c : CtorDecl} (hc : ind.ctors[k]? = some c) :
    lowerMinor ind k arity body = .ok t ↔ arity = c.args.length ∧
      ∃ b, body (recFields c.args ind.id) = .ok b ∧
        t = lams c.args (lams ((recFields c.args ind.id).map fun p => c.args.getD p (.sort 0)) b) := by
  have hget : ind.ctors.getD k ⟨0, [], []⟩ = c := by
    rw [getD_eq_getElem?_getD, hc]
    rfl
  unfold lowerMinor
  rw [hget]
  dsimp only
  split
  · next h =>
    rw [Lib.bind_eq_ok]
    constructor
    · rintro ⟨b, hb, ht⟩
      exact ⟨h, b, hb, (Except.ok.inj ht).symm⟩
    · rintro ⟨-, b, hb, rfl⟩
      exact ⟨b, hb, rfl⟩
  · next h => exact ⟨nofun, fun h' => absurd h'.1 h⟩

theorem lowerMatch_eq_ok {i : IndId} {motive t : Tm} {arms : List ArmMinor}
    {scrut : Except LowerError Tm} (hd : env.inds i = some ind) :
    lowerMatch env i motive arms scrut = .ok t ↔ (ind.params = [] ∧ ind.indices = []) ∧
      arms.length = ind.ctors.length ∧ ∃ minors s,
        List.Forall₂ (fun k minor => lowerArm ind arms k = .ok minor)
          (List.range ind.ctors.length) minors ∧
        scrut = .ok s ∧ t = .app (apply (.elim i) (motive :: minors)) s := by
  unfold lowerMatch
  rw [hd]
  dsimp only
  rw [Lib.bind_eq_ok]
  simp only [checkSimple_eq_ok]
  constructor
  · rintro ⟨_, hsimple, h⟩
    split at h
    · next hlen =>
      obtain ⟨minors, hm, h⟩ := Lib.bind_eq_ok.mp h
      obtain ⟨s, hs, h⟩ := Lib.bind_eq_ok.mp h
      exact ⟨hsimple, hlen, minors, s, Lib.mapM_eq_ok.mp hm, hs, (Except.ok.inj h).symm⟩
    · cases h
  · rintro ⟨hsimple, hlen, minors, s, hm, hs, rfl⟩
    refine ⟨(), hsimple, ?_⟩
    rw [if_pos hlen]
    exact Lib.bind_eq_ok.mpr ⟨minors, Lib.mapM_eq_ok.mpr hm, Lib.bind_eq_ok.mpr ⟨s, hs, rfl⟩⟩

theorem lowerFix_eq_ok {recArg : Nat} {body : SrcTm} {t : Tm}
    (h : lowerFix env recArg body = .ok t) : ∃ doms i motive arms elim,
      peelLams body = (doms, .matchOn (.var (doms.length - 1 - recArg)) i motive arms) ∧
      recArg < doms.length ∧
      lowerMatch env i motive (arms.map (fixArm recArg doms.length))
        (.ok (.var (doms.length - 1 - recArg))) = .ok elim ∧
      t = lams doms elim := by
  unfold lowerFix at h
  generalize peelLams body = p at h ⊢
  obtain ⟨doms, cur⟩ := p
  dsimp only at h
  split at h
  · next hlt =>
    split at h
    · next v i motive arms =>
      split at h
      · next hv =>
        subst hv
        obtain ⟨elim, hel, h⟩ := Lib.bind_eq_ok.mp h
        exact ⟨doms, i, motive, arms, elim, rfl, hlt, hel, (Except.ok.inj h).symm⟩
      · cases h
    · cases h
  · cases h

end Dnet.Kernel
