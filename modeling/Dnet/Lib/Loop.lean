import Mathlib.Algebra.Group.Int.Defs
import Mathlib.Algebra.Group.Nat.Defs
import Mathlib.Data.List.Forall2
import Mathlib.Logic.Relation

/-!
# Loops that may fail

A `while` loop whose body can return an error, run with fuel. A run of the loop is
a chain of `next` rounds (`Runs`) with one last round that stops it (`Stops`). `loop` returns a
result when such a run exists, and only then (`loop_of_runs`, `runs_of_loop`).
-/

namespace Dnet.Lib

variable {ε α β σ : Type} {f : α → Except ε β} {x : Except ε α} {P : α → Bool}

theorem bind_eq_ok {b : β} : (x >>= f) = .ok b ↔ ∃ a, x = .ok a ∧ f a = .ok b := by
  cases x with
  | error e | ok _ => simp [bind, Except.bind]

theorem of_bind_ok {a : α} {r : Except ε β} (hx : x = .ok a) (h : (x >>= f) = r) : f a = r := by
  rw [hx] at h
  exact h

theorem bind_eq_error {e : ε} :
    (x >>= f) = .error e ↔ x = .error e ∨ ∃ a, x = .ok a ∧ f a = .error e := by
  cases x with
  | error e' | ok _ => simp [bind, Except.bind]

theorem of_bind_error {P : ε → Prop} (hx : ∀ e, x = .error e → P e)
    (hf : ∀ a, x = .ok a → ∀ e, f a = .error e → P e) : ∀ e, (x >>= f) = .error e → P e :=
  fun e h => (bind_eq_error.mp h).elim (hx e) fun ⟨a, ha, h⟩ => hf a ha e h

theorem mapError_eq_ok {ε' : Type} {f : ε → ε'} {a : α} : x.mapError f = .ok a ↔ x = .ok a := by
  cases x with
  | error e => simp [Except.mapError]
  | ok b => simp [Except.mapError]

theorem foldl_frame {f : β → α → β} (g : β → σ) (hf : ∀ b a, g (f b a) = g b) (l : List α) (b : β) :
    g (l.foldl f b) = g b :=
  List.foldlRecOn l f (motive := fun b' => g b' = g b) rfl fun _ h a _ => (hf _ a).trans h

theorem mapM_eq_ok {as : List α} {bs : List β} :
    as.mapM f = .ok bs ↔ List.Forall₂ (fun a b => f a = .ok b) as bs := by
  induction as generalizing bs with
  | nil =>
    rw [List.forall₂_nil_left_iff]
    exact ⟨fun h => (Except.ok.inj h).symm, fun h => h ▸ rfl⟩
  | cons a as ih =>
    rw [List.mapM_cons, bind_eq_ok, List.forall₂_cons_left_iff]
    refine exists_congr fun b => ?_
    simp only [bind_eq_ok, ih]
    constructor
    · rintro ⟨hb, bs', hbs, h⟩
      exact ⟨bs', hb, hbs, (Except.ok.inj h).symm⟩
    · rintro ⟨bs', hb, hbs, rfl⟩
      exact ⟨hb, bs', hbs, rfl⟩

/-- The computation returned a value with the property `P`. -/
def returns (P : α → Bool) : Option (Except ε α) → Bool
  | some (.ok a) => P a
  | some (.error _) | none => false

theorem exists_of_returns {x : Option (Except ε α)} (h : returns P x = true) :
    ∃ a, x = some (.ok a) ∧ P a = true := by
  unfold returns at h
  split at h
  · next a => exact ⟨a, rfl, h⟩
  · cases h
  · cases h

/-- The computation failed with `e`. -/
def fails [DecidableEq ε] (e : ε) : Option (Except ε α) → Bool
  | some (.error e') => e' = e
  | some (.ok _) | none => false

theorem eq_of_fails [DecidableEq ε] {e : ε} {x : Option (Except ε α)} (h : fails e x = true) :
    x = some (.error e) := by
  unfold fails at h
  split at h
  · rw [of_decide_eq_true h]
  · cases h
  · cases h

theorem exists_ok_of_returns (h : returns P (some x) = true) : ∃ a, x = .ok a ∧ P a = true := by
  obtain ⟨a, ha, h⟩ := exists_of_returns h
  exact ⟨a, Option.some.inj ha, h⟩

/-- What one round of a loop decides: go on from a new state, or stop. -/
inductive Round (σ β : Type) where
  | next (s : σ)
  | done (b : β)

/-- Run the loop for at most `fuel` rounds; `none` when the fuel is spent. -/
def loop (body : σ → Except ε (Round σ β)) : Nat → σ → Option (Except ε β)
  | 0, _ => none
  | fuel + 1, s =>
    match body s with
    | .error e => some (.error e)
    | .ok (.done b) => some (.ok b)
    | .ok (.next s') => loop body fuel s'

/-- `s'` is reached from `s` by rounds that go on. -/
def Runs (body : σ → Except ε (Round σ β)) : σ → σ → Prop :=
  Relation.ReflTransGen fun s s' => body s = .ok (.next s')

/-- The round at `s` is the last one and returns `r`. -/
def Stops (body : σ → Except ε (Round σ β)) (s : σ) (r : Except ε β) : Prop :=
  match r with
  | .error e => body s = .error e
  | .ok b => body s = .ok (.done b)

variable {body : σ → Except ε (Round σ β)}

section

variable {s s' : σ} {r : Except ε β} {r' : Except ε β}

theorem loop_of_stops (h : Stops body s r) (fuel : Nat) : loop body (fuel + 1) s = some r := by
  unfold loop
  cases r with
  | error e => rw [show body s = .error e from h]
  | ok b => rw [show body s = .ok (.done b) from h]

theorem loop_of_next (h : body s = .ok (.next s')) (fuel : Nat) :
    loop body (fuel + 1) s = loop body fuel s' := by
  rw [loop, h]

/-- A loop that returns got, by rounds that go on, to a round that stops it. -/
theorem runs_of_loop : ∀ {fuel : Nat} {s : σ},
    loop body fuel s = some r → ∃ s', Runs body s s' ∧ Stops body s' r
  | 0, _, h => nomatch h
  | fuel + 1, s, h => by
    unfold loop at h
    split at h
    · next e he =>
      cases h
      exact ⟨s, .refl, he⟩
    · next b hb =>
      cases h
      exact ⟨s, .refl, hb⟩
    · next s1 hs1 =>
      obtain ⟨s', hr, hs⟩ := runs_of_loop h
      exact ⟨s', .head hs1 hr, hs⟩

/-- With enough fuel a loop returns what its run ends with, however much more it gets. -/
theorem loop_of_runs (hr : Runs body s s') (hs : Stops body s' r) :
    ∃ fuel, ∀ more, loop body (fuel + more) s = some r := by
  induction hr using Relation.ReflTransGen.head_induction_on with
  | refl =>
    refine ⟨1, fun more => ?_⟩
    rw [Nat.add_comm]
    exact loop_of_stops hs more
  | head hstep _ ih =>
    obtain ⟨fuel, hf⟩ := ih
    refine ⟨fuel + 1, fun more => ?_⟩
    rw [Nat.add_right_comm, loop_of_next hstep]
    exact hf more

theorem loop_mono (more : Nat) : ∀ {fuel : Nat} {s : σ},
    loop body fuel s = some r → loop body (fuel + more) s = some r
  | 0, _, h => nomatch h
  | fuel + 1, s, h => by
    rw [Nat.add_right_comm]
    unfold loop at h ⊢
    split at h
    · exact h
    · exact h
    · exact loop_mono more h

theorem loop_unique {f f' : Nat} (h : loop body f s = some r)
    (h' : loop body f' s = some r') : r = r' := by
  have h1 := loop_mono f' h
  have h2 := loop_mono f h'
  rw [Nat.add_comm] at h2
  exact Option.some.inj (h1.symm.trans h2)

theorem Runs.stops_unique {a b : σ} (ha : Runs body s a) (hsa : Stops body a r)
    (hb : Runs body s b) (hsb : Stops body b r') : r = r' := by
  obtain ⟨f, hf⟩ := loop_of_runs ha hsa
  obtain ⟨g, hg⟩ := loop_of_runs hb hsb
  exact loop_unique (hf 0) (hg 0)

/-- What holds at the start and is kept by every round that goes on holds wherever
the loop gets. -/
theorem Runs.invariant {P : σ → Prop} (h : Runs body s s') (h0 : P s)
    (hstep : ∀ s s', P s → body s = .ok (.next s') → P s') : P s' := by
  induction h with
  | refl => exact h0
  | tail _ hbc ih => exact hstep _ _ ih hbc

end

end Dnet.Lib
