import Dnet.Lib.Loop
import Mathlib.Order.Filter.AtTopBot.Basic

/-!
# Calls that may not return

A function of the source that recurses without a bound is modelled with fuel: `none`
says that the call has not returned. A call that can also fail is a `Call`.

`Option.Sim R x y` compares two such calls: whenever `x` returns, `y` returns a related
value. It goes through `bind`, so a statement of this form about a whole function follows
from the same statement about the calls it makes.
-/

namespace Dnet.Lib

variable {ε α β γ δ : Type}

/-- A call that returns a value, returns an error, or does not return. -/
def Call (ε α : Type) : Type := Option (Except ε α)

namespace Call

def ok (a : α) : Call ε α := some (.ok a)

def error (e : ε) : Call ε α := some (.error e)

/-- The call has not returned. -/
def pending : Call ε α := (none : Option _)

instance : Monad (Call ε) where
  pure := ok
  bind x f := match x with
    | none => none
    | some (.error e) => some (.error e)
    | some (.ok a) => f a

/-- A call that cannot fail. -/
def ofOption (x : Option α) : Call ε α := x.map .ok

variable {f : α → Call ε β} {a : α}

variable {x : Call ε α} {Q : α → Prop}

theorem bind_eq_some {r : Except ε β} : (x >>= f) = some r ↔
      (∃ e, x = error e ∧ r = .error e) ∨ ∃ a, x = ok a ∧ f a = some r := by
  constructor
  · intro h
    match x, h with
    | some (.error e), h =>
      cases h
      exact .inl ⟨e, rfl, rfl⟩
    | some (.ok a), h => exact .inr ⟨a, rfl, h⟩
  · rintro (⟨e, rfl, rfl⟩ | ⟨a, rfl, h⟩)
    · rfl
    · exact h

theorem bind_eq_ok {b : β} : (x >>= f) = ok b ↔ ∃ a, x = ok a ∧ f a = ok b := by
  refine bind_eq_some.trans ⟨?_, fun h => .inr h⟩
  rintro (⟨e, -, h⟩ | h)
  · cases h
  · exact h

/-- The call returns a value with the property `Q`. -/
def Returns (Q : α → Prop) (x : Call ε α) : Prop := ∃ a, x = ok a ∧ Q a

theorem Returns.ok (h : Q a) : Returns (ε := ε) Q (ok a) := ⟨a, rfl, h⟩

theorem Returns.bind {P : β → Prop} (hx : x.Returns Q)
    (hf : ∀ a, Q a → (f a).Returns P) : Returns P (x >>= f) := by
  obtain ⟨a, ha, hQ⟩ := hx
  obtain ⟨b, hb, hP⟩ := hf a hQ
  exact ⟨b, bind_eq_ok.mpr ⟨a, ha, hb⟩, hP⟩

/-- The call returns an error, or a value with the property `Q`. -/
def Ends (Q : α → Prop) (x : Call ε α) : Prop := (∃ e, x = error e) ∨ x.Returns Q

theorem ends_some (x : Except ε α) : Ends (fun a => x = .ok a) (some x) := by
  cases x with
  | error e => exact .inl ⟨e, rfl⟩
  | ok a => exact .inr ⟨a, rfl, rfl⟩

theorem Ends.bind {P : β → Prop} (hx : x.Ends Q)
    (hf : ∀ a, Q a → (f a).Ends P) : Ends P (x >>= f) := by
  rcases hx with ⟨e, rfl⟩ | ⟨a, rfl, ha⟩
  · exact .inl ⟨e, rfl⟩
  · exact hf a ha

theorem ok_inj {a b : α} (h : (ok a : Call ε α) = ok b) : a = b := by
  cases h
  rfl

@[simp] theorem ok_eq_ok {a b : α} : (ok a : Call ε α) = ok b ↔ a = b := ⟨ok_inj, fun h => h ▸ rfl⟩

@[simp] theorem error_ne_ok {e : ε} : (error e : Call ε α) ≠ ok a := nofun

@[simp] theorem pending_ne_ok : (pending : Call ε α) ≠ ok a := nofun

theorem ofOption_eq_ok {x : Option α} : (ofOption x : Call ε α) = ok a ↔ x = some a := by
  constructor
  · intro h
    match x, h with
    | some b, h => exact congrArg some (ok_inj h)
  · rintro rfl
    rfl

end Call

theorem enough {P : Nat → Prop} (hP : ∀ {n m}, P n → n ≤ m → P m) (h : ∃ n, P n) :
    ∀ᶠ n in Filter.atTop, P n := by
  obtain ⟨n, hn⟩ := h
  exact Filter.eventually_atTop.mpr ⟨n, fun _ hm => hP hn hm⟩

/-- Whenever `x` returns, `y` returns a related value. -/
def Sim (R : α → β → Prop) (x : Option α) (y : Option β) : Prop :=
  ∀ a, x = some a → ∃ b, y = some b ∧ R a b

/-- The same value, and it has the property `P`. -/
def Keeps (P : α → Prop) (a b : α) : Prop := a = b ∧ P a

/-- Whenever `x` returns a value, `y` returns a related value; an error is the same. -/
def Call.Sim (R : α → β → Prop) (x : Call ε α) (y : Call ε β) : Prop :=
  (∀ a, x = Call.ok a → ∃ b, y = Call.ok b ∧ R a b) ∧ ∀ e, x = Call.error e → y = Call.error e

variable {R : α → β → Prop}

theorem Sim.some {a : α} {b : β} (h : R a b) : Sim R (some a) (some b) := by
  rintro _ ⟨⟩
  exact ⟨b, rfl, h⟩

theorem Sim.none {y : Option β} : Sim R none y := nofun

theorem Sim.bind {S : γ → δ → Prop} {x : Option α} {y : Option β}
    {f : α → Option γ} {g : β → Option δ} (hx : Sim R x y)
    (hf : ∀ a b, R a b → Sim S (f a) (g b)) : Sim S (x >>= f) (y >>= g) := by
  intro c hc
  obtain ⟨a, ha, hfa⟩ := Option.bind_eq_some_iff.mp hc
  obtain ⟨b, hb, hR⟩ := hx a ha
  obtain ⟨d, hd, hS⟩ := hf a b hR c hfa
  exact ⟨d, Option.bind_eq_some_iff.mpr ⟨b, hb, hd⟩, hS⟩

namespace Call.Sim

variable {R : α → β → Prop}

theorem ok {a : α} {b : β} (h : R a b) : Call.Sim R (Call.ok a : Call ε α) (Call.ok b) :=
  ⟨fun _ ha => ⟨b, rfl, Call.ok_inj ha ▸ h⟩, nofun⟩

theorem error {e : ε} : Call.Sim R (Call.error e) (Call.error e) :=
  ⟨nofun, fun e' h => by cases h; rfl⟩

theorem pending {y : Call ε β} : Call.Sim R (Call.pending : Call ε α) y :=
  ⟨nofun, nofun⟩

theorem bind {S : γ → δ → Prop} {x : Call ε α} {y : Call ε β}
    {f : α → Call ε γ} {g : β → Call ε δ} (hx : Call.Sim R x y)
    (hf : ∀ a b, R a b → Call.Sim S (f a) (g b)) : Call.Sim S (x >>= f) (y >>= g) := by
  constructor
  · intro c hc
    obtain ⟨a, ha, hfa⟩ := Call.bind_eq_ok.mp hc
    obtain ⟨b, hb, hR⟩ := hx.1 a ha
    obtain ⟨d, hd, hS⟩ := (hf a b hR).1 c hfa
    exact ⟨d, Call.bind_eq_ok.mpr ⟨b, hb, hd⟩, hS⟩
  · intro e he
    rcases Call.bind_eq_some.mp he with ⟨e', hx', h'⟩ | ⟨a, ha, hfa⟩
    · cases h'
      exact Call.bind_eq_some.mpr (.inl ⟨e, hx.2 e hx', rfl⟩)
    · obtain ⟨b, hb, hR⟩ := hx.1 a ha
      exact Call.bind_eq_some.mpr (.inr ⟨b, hb, (hf a b hR).2 e hfa⟩)

theorem ofOption {x : Option α} {y : Option β} (h : Lib.Sim R x y) :
    Call.Sim R (Call.ofOption x : Call ε α) (Call.ofOption y) := by
  refine ⟨fun a ha => ?_, ?_⟩
  · obtain ⟨b, hb, hR⟩ := h a (Call.ofOption_eq_ok.mp ha)
    exact ⟨b, Call.ofOption_eq_ok.mpr hb, hR⟩
  · intro e he
    cases x with
    | none => cases he
    | some a => cases he

end Call.Sim

end Dnet.Lib
