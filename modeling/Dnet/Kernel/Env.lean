import Dnet.Kernel.Infer

/-!
# Admission of declarations

Strict positivity (positivity.rs) and the two admission functions of the global
environment (env.rs). `add_inductive` inserts the declaration before it checks the fields
and takes it out again when a check fails, so an admission returns the environment it leaves
behind together with its answer. `Built B P env`: successful admissions of declarations with `P`
make `env` out of the empty environment.
-/

namespace Dnet.Kernel

open Function

open Lib (Call)

inductive AdmitError where
  | cycle (c : ConstId)
  | duplicate
  | badDecl (what : String)
  deriving DecidableEq, Repr

section Positivity

variable (B : Build) (env : GlobalEnv)

/-- Does the inductive `i` occur in `t`? Each node is reduced first. -/
def occurs : Nat → IndId → Tm → Option Bool
  | 0, _, _ => none
  | n + 1, i, t => do
    match ← (run B env n).whnf [] t with
    | .ind j => some (j = i)
    | .pi a b | .lam a b | .app a b => do
      if ← occurs n i a then some true else occurs n i b
    | _ => some false

def validIndApp (n : Nat) (i : IndId) : Tm → Option Bool
  | .app f x => do if ← occurs B env n i x then some false else validIndApp n i f
  | t => some (t = .ind i)

def strictlyPositive : Nat → IndId → Tm → Option Bool
  | 0, _, _ => none
  | n + 1, i, t => do
    match ← (run B env n).whnf [] t with
    | .pi a b => do
      if ← occurs B env n i a then some false else strictlyPositive n i b
    | w => do
      if ← occurs B env n i w then validIndApp B env n i w else some true

/-- Every type of the list is strictly positive in `i`. -/
def allPositive (n : Nat) (i : IndId) : Telescope → Option Bool
  | [] => some true
  | ty :: rest => do
    if ← strictlyPositive B env n i ty then allPositive n i rest else some false

end Positivity

/-! ## Constants -/

def refsUnknownConst (env : GlobalEnv) (this : ConstId) : Tm → Bool
  | .const c => c = this || (env.consts c).isNone
  | .pi a b | .lam a b | .app a b =>
    refsUnknownConst env this a || refsUnknownConst env this b
  | _ => false

def addConst (env : GlobalEnv) (id : ConstId) (ty body : Tm) : Except AdmitError Unit × GlobalEnv :=
  if (env.consts id).isSome then (.error .duplicate, env)
  else if refsUnknownConst env id body then (.error (.cycle id), env)
  else (.ok (), { env with consts := update env.consts id (some (ty, body)) })

/-! ## Inductives -/

section Inductives

variable (B : Build) {ind : Inductive}

/-- The sorts of the fields of one constructor, each in the context of those before. -/
def checkFields (env : GlobalEnv) (n : Nat) (sort : Level) :
    Ctx → Telescope → Call AdmitError Unit
  | _, [] => .ok ()
  | ctx, field :: rest =>
    match sortOf (run B env n) ctx field with
    | none => .pending
    | some (.error _) => .error (.badDecl "ill-typed field")
    | some (.ok level) =>
      if level ≤ sort then checkFields env n sort (field :: ctx) rest
      else .error (.badDecl "field universe too big")

/-- A check of each constructor in turn. -/
def checkCtors (f : CtorDecl → Call AdmitError Unit) : List CtorDecl → Call AdmitError Unit
  | [] => .ok ()
  | c :: cs => do
    f c
    checkCtors f cs

def checkFieldUniverses (env : GlobalEnv) (n : Nat) (ind : Inductive) : Call AdmitError Unit :=
  checkCtors (fun c => checkFields B env n ind.sort ind.params.reverse c.args) ind.ctors

def checkRetIndices (env : GlobalEnv) (n : Nat) (ind : Inductive) : Call AdmitError Unit :=
  checkCtors (fun c =>
    if c.retIndices.length = ind.indices.length then
      match sortOf (run B env n) (c.args.reverse ++ ind.params.reverse) (ctorRet ind.id ind c) with
      | none => .pending
      | some (.error _) => .error (.badDecl "ill-typed ret_index")
      | some (.ok _) => .ok ()
    else .error (.badDecl "ret_indices arity mismatch")) ind.ctors

def GlobalEnv.insertInd (env : GlobalEnv) (ind : Inductive) : GlobalEnv :=
  { env with inds := update env.inds ind.id (some ind) }

def GlobalEnv.removeInd (env : GlobalEnv) (id : IndId) : GlobalEnv :=
  { env with inds := update env.inds id none }

def arityTable (ind : Inductive) : ArityTable :=
  { ind := ind.id
    nparams := ind.params.length
    nindices := ind.indices.length
    ctors := ind.ctors.map fun c =>
      ⟨c.ctorIx, c.args.length, (c.args.filter (headIsInd · ind.id)).length⟩ }

def GlobalEnv.insertRecursor (env : GlobalEnv) (ind : Inductive) : GlobalEnv :=
  { env with recursors := update env.recursors ind.id (some (arityTable ind)) }

def addInductive (n : Nat) (env : GlobalEnv) (ind : Inductive) :
    Option (Except AdmitError Unit × GlobalEnv) :=
  if (env.inds ind.id).isSome then some (.error .duplicate, env)
  else do
    if ← allPositive B env n ind.id (ind.ctors.flatMap CtorDecl.args) then
      let env1 := env.insertInd ind
      match (do checkFieldUniverses B env1 n ind; checkRetIndices B env1 n ind) with
      | none => none
      | some (.error e) => some (.error e, env1.removeInd ind.id)
      | some (.ok ()) => some (.ok (), env1.insertRecursor ind)
    else some (.error (.badDecl "non-positive"), env)

theorem removeInd_insertInd {env : GlobalEnv} (h : env.inds ind.id = none) :
    (env.insertInd ind).removeInd ind.id = env := by
  have hupd : update (update env.inds ind.id (some ind)) ind.id none
      = env.inds := by
    rw [update_idem, ← h, update_eq_self]
  simp only [GlobalEnv.insertInd, GlobalEnv.removeInd, hupd]

/-- What an admission that returns has done. -/
theorem addInductive_cases {n : Nat} {env env' : GlobalEnv}
    {r : Except AdmitError Unit} (h : addInductive B n env ind = some (r, env')) :
    (∃ e, r = .error e ∧ env' = env) ∨ (r = .ok () ∧ env.inds ind.id = none ∧
      allPositive B env n ind.id (ind.ctors.flatMap CtorDecl.args) = some true ∧
      checkFieldUniverses B (env.insertInd ind) n ind = .ok () ∧
      checkRetIndices B (env.insertInd ind) n ind = .ok () ∧
      env' = (env.insertInd ind).insertRecursor ind) := by
  unfold addInductive at h
  split at h
  · cases h
    exact .inl ⟨_, rfl, rfl⟩
  · next hnew =>
    have hnone : env.inds ind.id = none := by simpa using hnew
    obtain ⟨pos, hpos, h⟩ := Option.bind_eq_some_iff.mp h
    cases pos with
    | false =>
      cases h
      exact .inl ⟨_, rfl, rfl⟩
    | true =>
      simp only [if_true] at h
      split at h
      · cases h
      · cases h
        exact .inl ⟨_, rfl, removeInd_insertInd hnone⟩
      · next hchecks =>
        cases h
        obtain ⟨_, hfields, hret⟩ := Call.bind_eq_ok.mp hchecks
        exact .inr ⟨rfl, hnone, hpos, hfields, hret, rfl⟩

end Inductives

/-! ## Histories -/

/-- A call of one of the two admission functions. -/
inductive Admission where
  | const (id : ConstId) (ty body : Tm)
  | ind (d : Inductive)

/-- The admission succeeds and leaves `env'`. -/
inductive Admits (B : Build) (env env' : GlobalEnv) : Admission → Prop where
  | const {id : ConstId} {ty body : Tm} :
    addConst env id ty body = (.ok (), env') → Admits B env env' (.const id ty body)
  | ind {n : Nat} {d : Inductive} :
    addInductive B n env d = some (.ok (), env') → Admits B env env' (.ind d)

/-- The environments that admissions with the property `P` make out of the empty one. -/
inductive Built (B : Build) (P : GlobalEnv → Admission → Prop) : GlobalEnv → Prop where
  | empty : Built B P .empty
  | add {env env' : GlobalEnv} {a : Admission} :
    Built B P env → P env a → Admits B env env' a → Built B P env'

/-- Any declaration may be offered. -/
def anyAdmission (_ : GlobalEnv) (_ : Admission) : Prop := True

/-- Only inductives are offered. -/
def onlyInductives (_ : GlobalEnv) : Admission → Prop
  | .const _ _ _ => False
  | .ind _ => True

variable {P : GlobalEnv → Admission → Prop} {env : GlobalEnv}

/-- Every inductive is stored under its own id, and has passed the checks of its admission. -/
theorem Built.admitted {B : Build}
    (h : Built B P env) {i : IndId} {d : Inductive} (hd : env.inds i = some d) :
    d.id = i ∧ ∃ env0 n, allPositive B env0 n d.id (d.ctors.flatMap CtorDecl.args) = some true ∧
      checkFieldUniverses B (env0.insertInd d) n d = .ok () ∧
      checkRetIndices B (env0.insertInd d) n d = .ok () := by
  induction h with
  | empty => cases hd
  | @add env env' a _ _ hadm ih =>
    cases hadm with
    | @const id ty body hadd =>
      unfold addConst at hadd
      split at hadd
      · cases hadd
      · split at hadd
        · cases hadd
        · cases hadd
          exact ih hd
    | @ind n d' hadd =>
      rcases addInductive_cases B hadd with ⟨e, he, -⟩ | ⟨-, -, hpos, hfields, hret, rfl⟩
      · cases he
      · by_cases hi : i = d'.id
        · subst hi
          have hself : update env.inds d'.id (some d') d'.id = some d := hd
          rw [update_self] at hself
          cases hself
          exact ⟨rfl, env, n, hpos, hfields, hret⟩
        · exact ih ((update_of_ne hi _ _).symm.trans hd)

theorem Built.keyed {B : Build}
    (h : Built B P env) {i : IndId} {d : Inductive} (hd : env.inds i = some d) : d.id = i :=
  (h.admitted hd).1

end Dnet.Kernel
