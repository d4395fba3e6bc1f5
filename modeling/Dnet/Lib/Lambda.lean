import Mathlib.Logic.Relation

/-!
# The λ-calculus with de Bruijn indices

Terms, β-steps and normal forms, and an evaluator that reduces the leftmost outermost
redex, so that a concrete term can be shown to have a normal form by running it.
-/

namespace Dnet.Lib

inductive Term where
  | var (i : Nat)
  | lam (body : Term)
  | app (f x : Term)
  deriving DecidableEq, Repr

namespace Term

/-- Make room for one more variable at index `c`. -/
def lift (c : Nat) : Term → Term
  | .var i => .var (if i < c then i else i + 1)
  | .lam body => .lam (body.lift (c + 1))
  | .app f x => .app (f.lift c) (x.lift c)

/-- Replace the variable `k` by `s` and close the gap it leaves. -/
def subst : Term → Nat → Term → Term
  | .var i, k, s => if i < k then .var i else if i = k then s else .var (i - 1)
  | .lam body, k, s => .lam (body.subst (k + 1) (s.lift 0))
  | .app f x, k, s => .app (f.subst k s) (x.subst k s)

/-- One β-step, at any position. -/
inductive Beta : Term → Term → Prop where
  | beta (body x : Term) : Beta (.app (.lam body) x) (body.subst 0 x)
  | lam {body body' : Term} : Beta body body' → Beta (.lam body) (.lam body')
  | appL {f f' : Term} (x : Term) : Beta f f' → Beta (.app f x) (.app f' x)
  | appR (f : Term) {x x' : Term} : Beta x x' → Beta (.app f x) (.app f x')

/-- A sequence of β-steps. -/
def BetaStar : Term → Term → Prop := Relation.ReflTransGen Beta

/-- No redex. -/
def isNormal : Term → Bool
  | .var _ => true
  | .lam body => body.isNormal
  | .app (.lam _) _ => false
  | .app f x => f.isNormal && x.isNormal

/-- `u` is the β-normal form of `t`. -/
def NormalFormOf (t u : Term) : Prop := BetaStar t u ∧ u.isNormal = true

/-! ## Evaluation -/

/-- Reduce the leftmost outermost redex. -/
def step : Term → Option Term
  | .var _ => none
  | .lam body => body.step.map .lam
  | .app (.lam body) x => some (body.subst 0 x)
  | .app f x =>
    match f.step with
    | some f' => some (.app f' x)
    | none => x.step.map (.app f)

theorem beta_of_step {t u : Term} (h : t.step = some u) : Beta t u := by
  induction t generalizing u with
  | var i => cases h
  | lam body ih =>
    obtain ⟨b, hb, rfl⟩ := Option.map_eq_some_iff.mp h
    exact .lam (ih hb)
  | app f x ihf ihx =>
    have hrest (h : (match f.step with
        | some f' => some (.app f' x)
        | none => x.step.map (.app f)) = some u) : Beta (.app f x) u := by
      split at h
      · next f' hf =>
        cases h
        exact .appL x (ihf hf)
      · obtain ⟨x', hx, rfl⟩ := Option.map_eq_some_iff.mp h
        exact .appR f (ihx hx)
    cases f with
    | lam body =>
      cases h
      exact .beta body x
    | var i => exact hrest h
    | app g y => exact hrest h

/-- Reduce until no redex is left, at most `fuel` times. -/
def reduce : Nat → Term → Option Term
  | 0, _ => none
  | fuel + 1, t =>
    match t.step with
    | none => if t.isNormal then some t else none
    | some u => reduce fuel u

theorem normalFormOf_of_reduce {u : Term} : ∀ {fuel : Nat} {t : Term},
    reduce fuel t = some u → NormalFormOf t u
  | 0, _, h => nomatch h
  | fuel + 1, t, h => by
    unfold reduce at h
    split at h
    · split at h
      · next hn =>
        cases h
        exact ⟨.refl, hn⟩
      · cases h
    · next t' ht =>
      obtain ⟨hsteps, hn⟩ := normalFormOf_of_reduce h
      exact ⟨.head (beta_of_step ht) hsteps, hn⟩

end Term

end Dnet.Lib
