import Dnet.Front.Emission
import Dnet.Lib.Lambda
import Dnet.Reduce.Plain

/-!
# Terms without erasers in the class ΔI

The net of a term of `Name`, `Abs`, `App` and `Rep` is plain (`elaborate_plain`), so ΔI
fails on it for a resource only, unless phase 2 replicates an application that hangs on a
principal port (`normalize_relevant`). That happens: `normalize` runs phase 1 once, before
phase 2, and the pairs that C4 makes stay in the queue (`sharedApplication_fails`).
-/

namespace Dnet

open Lib

/-! ## The meaning of a term -/

/-- The λ-term of a term, with every `Rep` unfolded. -/
def Ast.denote {V F : Type} (ρ : Name → Option Term) : Ast V F → Option Term
  | .name x => ρ x
  | .abs x body =>
    (body.denote (bindName (fun y => (ρ y).map (Term.lift 0)) x (.var 0))).map .lam
  | .app f x => do return .app (← f.denote ρ) (← x.denote ρ)
  | .rep e a b body => do
    let s ← e.denote ρ
    body.denote (bindName (bindName ρ a s) b s)
  | .era _ _ | .fix _ | .val _ | .fn _ | .perform _ _ | .handle _ _ => none

/-- The closed term `t` has a β-normal form. -/
def Ast.HasNormalForm {V F : Type} (t : Ast V F) : Prop :=
  ∃ s u, t.denote (fun _ => none) = some s ∧ s.NormalFormOf u

/-! ## α-renaming -/

theorem Ast.Relevant.rename {V F : Type} {t : Ast V F} (h : t.Relevant) :
    ∀ (env : Name → Option Name) (ctr : Nat), (t.rename env ctr).1.Relevant := by
  induction h with
  | name x => exact fun env ctr => .name _
  | abs x _ ih => exact fun env ctr => .abs _ (ih _ _)
  | app _ _ ihf ihx => exact fun env ctr => .app (ihf _ _) (ihx _ _)
  | rep a b _ _ ihe ihb => exact fun env ctr => .rep _ _ (ihe _ _) (ihb _ _)

/-! ## Elaboration makes a plain net -/

theorem kept_plain : Kept Net.Plain fun _ p => p.isEraser = false where
  agent h hkind _ ha := by
    have hplain := h.allocAgent (by rcases hkind with rfl | rfl | rfl <;> rfl) ha
    obtain ⟨i, -, rfl⟩ := Net.allocAgent_ok ha
    exact ⟨hplain, fun _ => id, rfl, rfl, rfl⟩
  connect lo h ha hb := ⟨h.connect lo ha hb, fun _ => id⟩

theorem elaborate_plain {V F : Type} {debug : Bool} {capacity : Nat} {t : Ast V F}
    {usage : Name → Option Nat} {p : PortId} {n : Net} (ht : t.Relevant)
    (h : elaborate debug capacity t usage = .ok (p, n)) : n.Plain := by
  obtain ⟨⟨⟨p', l⟩, st⟩, he, h⟩ := bind_eq_ok.mp h
  cases h
  obtain ⟨log, hlog⟩ := (elabImpl_emits t).run he
  exact (hlog.kept kept_plain (.inl ht) (.new capacity) nofun).1

/-- In ΔI the net of a term without erasers fails for a resource only, exactly if phase 2
does not replicate an exposed candidate on its way to its end. -/
theorem normalize_relevant {V F : Type} {t : Ast V F} (ht : t.Relevant) {debug : Bool}
    {ctr capacity fuel : Nat} {usage : Name → Option Nat} {p : PortId} {n : Net}
    {r : Except DnxError (Net × ReduceStats)}
    (he : elaborate debug capacity (t.alphaRename ctr) usage = .ok (p, n))
    (hr : n.normalize .ΔI fuel = some r) : (∀ e, r = .error e → e.Resource) ↔ ¬n.ExposesInPhase2 :=
  (elaborate_plain (ht.rename _ _) he).normalize hr

/-- `(λx. Rep x a b. a b) (λy. y)`. -/
def sharedIdentity : Ast Empty Empty :=
  .app (.abs "x" (.rep (.name "x") "a" "b" (.app (.name "a") (.name "b")))) (.abs "y" (.name "y"))

theorem sharedIdentity_reduces :
    ∃ p n r, elaborate false 256 (sharedIdentity.alphaRename 0) (fun _ => some 0) = .ok (p, n) ∧
      n.normalize .ΔI 100 = some (.ok r) ∧ ¬n.ExposesInPhase2 := by
  have hrun : returns (fun a : PortId × Net => returns (fun _ => true) (a.2.normalize .ΔI 100))
      (some (elaborate false 256 (sharedIdentity.alphaRename 0) (fun _ => some 0))) = true := by
    decide +kernel
  obtain ⟨⟨p, n⟩, he, hn⟩ := exists_of_returns hrun
  obtain ⟨r, hr, -⟩ := exists_of_returns hn
  have he := Option.some.inj he
  have ht : sharedIdentity.Relevant :=
    .app (.abs _ (.rep _ _ (.name _) (.app (.name _) (.name _)))) (.abs _ (.name _))
  exact ⟨p, n, r, he, hr, (normalize_relevant ht he hr).mp fun _ h => nomatch h⟩

/-- `λf. (λx. Rep x a b. a b) (f (λz. z))`. -/
def sharedApplication : Ast Empty Empty :=
  .abs "f" (.app (.abs "x" (.rep (.name "x") "a" "b" (.app (.name "a") (.name "b"))))
    (.app (.name "f") (.abs "z" (.name "z"))))

/-- The application `f (λz. z)` is replicated in phase 2. The new replicator of its argument
faces the principal port of `λz. z`, and nothing fires that pair. -/
theorem sharedApplication_fails :
    sharedApplication.Closed ∧ sharedApplication.Relevant ∧ sharedApplication.HasNormalForm ∧
      ∃ r1 p n, pass1 (sharedApplication.alphaRename 0) = .ok r1 ∧
        elaborate false 256 (sharedApplication.alphaRename 0) r1.usageLevels = .ok (p, n) ∧
          n.normalize .ΔI 100 = some (.error .readbackIncomplete) := by
  refine ⟨?_, ?_, ?_, ?_⟩
  · show sharedApplication.freeNames = []
    decide
  · exact .abs _ (.app (.abs _ (.rep _ _ (.name _) (.app (.name _) (.name _))))
      (.app (.name _) (.abs _ (.name _))))
  · have hu : Term.reduce 3 (.lam (.app (.lam (.app (.var 0) (.var 0)))
        (.app (.var 0) (.lam (.var 0))))) = some (.lam (.app (.app (.var 0) (.lam (.var 0)))
          (.app (.var 0) (.lam (.var 0))))) := by decide
    exact ⟨_, _, rfl, Term.normalFormOf_of_reduce hu⟩
  · have hrun : returns (fun r1 : Pass1Result => returns (fun a : PortId × Net =>
        fails .readbackIncomplete (a.2.normalize .ΔI 100))
          (some (elaborate false 256 (sharedApplication.alphaRename 0) r1.usageLevels)))
          (some (pass1 (sharedApplication.alphaRename 0))) = true := by
      decide +kernel
    obtain ⟨r1, h1, hrun⟩ := exists_of_returns hrun
    obtain ⟨⟨p, n⟩, he, hn⟩ := exists_of_returns hrun
    exact ⟨r1, p, n, Option.some.inj h1, Option.some.inj he, eq_of_fails hn⟩

end Dnet
