import Mathlib.Logic.Basic
import Mathlib.Order.Defs.Unbundled
import Mathlib.Tactic.Basic

/-!
# Commands

A command changes a state and may fail; the state is there after a failure too. A transitive
relation between the states before and after every command of a sequence holds for the
sequence, however it ends (`Relates.bind`).
-/

namespace Dnet.Lib

def Command (σ ε α : Type) := σ → Except ε α × σ

namespace Command

variable {σ ε α β : Type}

/-- Go on with the value, or pass the error on. -/
def andThen (x : Command σ ε α) (f : α → Command σ ε β) : Command σ ε β := fun s =>
  match x s with
  | (.ok a, s') => f a s'
  | (.error e, s') => (.error e, s')

instance : Monad (Command σ ε) where
  pure a s := (.ok a, s)
  bind := andThen

/-- Fail, and leave the state alone. -/
def fail (e : ε) : Command σ ε α := fun s => (.error e, s)

/-- Look at the state. -/
def ask (f : σ → Except ε α) : Command σ ε α := fun s => (f s, s)

section

variable {s s' : σ} {a : α} {x : Command σ ε α} {f : α → Command σ ε β} {e : ε}

theorem pure_eq_ok {b : α} : (pure a : Command σ ε α) s = (.ok b, s') ↔ a = b ∧ s = s' := by
  show ((.ok a, s) : Except ε α × σ) = _ ↔ _
  rw [Prod.mk.injEq, Except.ok.injEq]

theorem bind_run (x : Command σ ε α) (f : α → Command σ ε β) (s : σ) : (x >>= f) s = match x s with
      | (.ok a, s') => f a s'
      | (.error e, s') => (.error e, s') := rfl

theorem bind_of_ok {s1 : σ} (h : x s = (.ok a, s1)) : (x >>= f) s = f a s1 := by
  rw [bind_run, h]

theorem bind_of_error {s1 : σ} (h : x s = (.error e, s1)) : (x >>= f) s = (.error e, s1) := by
  rw [bind_run, h]

theorem bind_eq_ok {b : β} :
    (x >>= f) s = (.ok b, s') ↔ ∃ a s1, x s = (.ok a, s1) ∧ f a s1 = (.ok b, s') := by
  rw [bind_run]
  rcases x s with ⟨e | a, s1⟩
  · simp
  · constructor
    · intro h
      exact ⟨a, s1, rfl, h⟩
    · rintro ⟨_, _, ⟨⟩, h⟩
      exact h

theorem bind_eq_error : (x >>= f) s = (.error e, s') ↔
      x s = (.error e, s') ∨ ∃ a s1, x s = (.ok a, s1) ∧ f a s1 = (.error e, s') := by
  rw [bind_run]
  rcases x s with ⟨e | a, s1⟩
  · simp
  · constructor
    · intro h
      exact .inr ⟨a, s1, rfl, h⟩
    · rintro (⟨⟨⟩⟩ | ⟨_, _, ⟨⟩, h⟩)
      exact h

variable {f : σ → Except ε α} {g : α → Command σ ε β}

theorem ask_eq_ok : ask f s = (.ok a, s') ↔ f s = .ok a ∧ s = s' := by
  show (f s, s) = (.ok a, s') ↔ _
  rw [Prod.mk.injEq]

theorem ask_bind_ok (h : f s = .ok a) : (ask f >>= g) s = g a s :=
  bind_of_ok (ask_eq_ok.mpr ⟨h, rfl⟩)

theorem ask_bind_error (h : f s = .error e) : (ask f >>= g) s = (.error e, s) :=
  bind_of_error (congrArg (·, s) h)

/-- Whatever the outcome, `R` relates the states before and after. -/
def Relates (R : σ → σ → Prop) (x : Command σ ε α) : Prop := ∀ s, R s (x s).2

end

namespace Relates

variable {R : σ → σ → Prop} [IsPreorder σ R]

theorem pure (a : α) : Relates R (pure a : Command σ ε α) := fun s => refl_of R s

theorem ask (f : σ → Except ε α) : Relates R (ask f) := fun s => refl_of R s

theorem bind {x : Command σ ε α} {f : α → Command σ ε β} (hx : Relates R x)
    (hf : ∀ a, Relates R (f a)) : Relates R (x >>= f) := by
  intro s
  have hs := hx s
  rw [bind_run]
  rcases h : x s with ⟨e | a, s1⟩
  · rw [h] at hs
    exact hs
  · rw [h] at hs
    exact trans_of R hs (hf a s1)

end Relates

end Command

end Dnet.Lib
