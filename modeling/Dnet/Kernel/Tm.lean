import Dnet.Core.Port
import Dnet.Lib.Partial

/-!
# Terms and declarations of the proof kernel

`Tm` (tm.rs) with its shift and substitution, application spines (driver.rs), and the
declarations the global environment stores (inductive.rs, env.rs).

Variable indices are naturals: the source keeps them in a `u32` and only ever moves an
index within the scope of the term. A context lists its binder types innermost first
(the source pushes at the end of a vector). Universe levels are `u32` values, see `succ`.
-/

namespace Dnet.Kernel

abbrev Level := Nat
abbrev ConstId := Nat
abbrev IndId := Nat

inductive Tm where
  | var (i : Nat)
  | sort (l : Level)
  | pi (dom cod : Tm)
  | lam (dom body : Tm)
  | app (f x : Tm)
  | const (c : ConstId)
  | ind (i : IndId)
  | ctor (i : IndId) (k : Nat)
  | elim (i : IndId)
  deriving DecidableEq, Repr

abbrev Telescope := List Tm

/-- The type of the variable `i` stands at position `i`. -/
abbrev Ctx := List Tm

/-! ## Shift and substitution -/

/-- Add `d` to every variable at or above `cutoff`. -/
def shift : Tm → Int → Nat → Tm
  | .var i, d, cutoff => .var (if cutoff ≤ i then (i + d).toNat else i)
  | .pi a b, d, cutoff => .pi (shift a d cutoff) (shift b d (cutoff + 1))
  | .lam a b, d, cutoff => .lam (shift a d cutoff) (shift b d (cutoff + 1))
  | .app f x, d, cutoff => .app (shift f d cutoff) (shift x d cutoff)
  | .sort l, _, _ => .sort l
  | .const c, _, _ => .const c
  | .ind i, _, _ => .ind i
  | .ctor i k, _, _ => .ctor i k
  | .elim i, _, _ => .elim i

/-- Substitute `arg` for the variable `j`. -/
def subst : Tm → Nat → Tm → Tm
  | .var i, j, arg => if i = j then shift arg j 0 else .var (if j < i then i - 1 else i)
  | .pi a b, j, arg => .pi (subst a j arg) (subst b (j + 1) arg)
  | .lam a b, j, arg => .lam (subst a j arg) (subst b (j + 1) arg)
  | .app f x, j, arg => .app (subst f j arg) (subst x j arg)
  | .sort l, _, _ => .sort l
  | .const c, _, _ => .const c
  | .ind i, _, _ => .ind i
  | .ctor i k, _, _ => .ctor i k
  | .elim i, _, _ => .elim i

/-- Does the variable `k` occur? -/
def occursVar : Tm → Nat → Bool
  | .var i, k => i = k
  | .pi a b, k | .lam a b, k => occursVar a k || occursVar b (k + 1)
  | .app a b, k => occursVar a k || occursVar b k
  | _, _ => false

/-! ## Spines -/

/-- The head of an application spine. -/
def Tm.head : Tm → Tm
  | .app f _ => f.head
  | t => t

/-- The arguments of an application spine, from left to right. -/
def Tm.args : Tm → List Tm
  | .app f x => f.args ++ [x]
  | _ => []

def apply (head : Tm) (args : List Tm) : Tm := args.foldl .app head

@[simp] theorem apply_nil (h : Tm) : apply h [] = h := rfl

@[simp] theorem apply_cons (h a : Tm) (args : List Tm) :
    apply h (a :: args) = apply (.app h a) args := rfl

theorem apply_append (h : Tm) (as bs : List Tm) :
    apply h (as ++ bs) = apply (apply h as) bs := List.foldl_append

theorem apply_concat (h a : Tm) (args : List Tm) :
    apply h (args ++ [a]) = .app (apply h args) a := apply_append h args [a]

theorem apply_head_args (t : Tm) : apply t.head t.args = t := by
  induction t with
  | app f x ihf _ => rw [Tm.head, Tm.args, apply_concat, ihf]
  | _ => rfl

@[simp] theorem head_apply (h : Tm) (args : List Tm) : (apply h args).head = h.head := by
  induction args generalizing h with
  | nil => rfl
  | cons a args ih => exact (ih (.app h a))

@[simp] theorem args_apply (h : Tm) (args : List Tm) : (apply h args).args = h.args ++ args := by
  induction args generalizing h with
  | nil => exact (List.append_nil _).symm
  | cons a args ih => rw [apply_cons, ih, Tm.args, List.append_assoc, List.singleton_append]

theorem head_head (t : Tm) : t.head.head = t.head := by
  induction t with
  | app f x ihf _ => exact ihf
  | _ => rfl

theorem head_ne_app (t f x : Tm) : t.head ≠ .app f x := by
  induction t with
  | app g y ihg _ => exact ihg
  | _ => exact nofun

theorem args_head (t : Tm) : t.head.args = [] := by
  induction t with
  | app f x ihf _ => exact ihf
  | _ => rfl

/-- The head after the codomains of products and the functions of applications. -/
def headIsInd : Tm → IndId → Bool
  | .ind j, i => j = i
  | .app f _, i => headIsInd f i
  | .pi _ b, i => headIsInd b i
  | _, _ => false

/-- `Π tele. body`. -/
def telescope (tele : Telescope) (body : Tm) : Tm := tele.foldr .pi body

/-! ## Declarations -/

structure CtorDecl where
  ctorIx : Nat
  args : Telescope
  retIndices : List Tm
  deriving DecidableEq, Repr

structure Inductive where
  id : IndId
  params : Telescope
  indices : Telescope
  sort : Level
  ctors : List CtorDecl
  deriving DecidableEq, Repr

structure CtorArity where
  ctorIx : Nat
  nfields : Nat
  nrec : Nat
  deriving DecidableEq, Repr

structure ArityTable where
  ind : IndId
  nparams : Nat
  nindices : Nat
  ctors : List CtorArity
  deriving DecidableEq, Repr

structure GlobalEnv where
  /-- The type and the body of a constant. -/
  consts : ConstId → Option (Tm × Tm)
  inds : IndId → Option Inductive
  recursors : IndId → Option ArityTable

namespace GlobalEnv

def empty : GlobalEnv := ⟨fun _ => none, fun _ => none, fun _ => none⟩

def constBody (env : GlobalEnv) (c : ConstId) : Option Tm := (env.consts c).map Prod.snd

end GlobalEnv

inductive TypeError where
  | unboundVar
  | unknownConst
  | unknownInd
  | notASort
  | notAPi
  | mismatch
  | unsupported (what : String)
  deriving DecidableEq, Repr

/-! ## What the kernel is built with -/

/-- The build profile, and the comparison of two closed λ-terms by their nets (the second
half of `conv`). No term reaches that comparison (`typedConv_always`), so nothing is
assumed about it. -/
structure Build where
  debug : Bool
  netConv : Tm → Tm → Except DnxError Bool

/-- `l + 1` on `u32`: a debug build stops on overflow, a release build wraps. -/
def Build.succ (B : Build) (l : Level) : Option Level :=
  if l + 1 < 2 ^ 32 then some (l + 1) else if B.debug then none else some 0

end Dnet.Kernel
