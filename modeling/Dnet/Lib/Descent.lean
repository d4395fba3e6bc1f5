import Mathlib.Logic.Relation

/-!
# Random descent

A terminating relation whose different steps from one state join again after one step each.
All maximal chains from one state then have the same length and the same end
(`Chain.unique`). The same holds, up to the simulation, for a relation that is simulated by
such a one (`Simulates.chains`).
-/

namespace Dnet.Lib

variable {α β : Type}

/-- `n` steps from `a` to `b`. -/
inductive Chain (r : α → α → Prop) : Nat → α → α → Prop where
  | nil (a : α) : Chain r 0 a a
  | cons {n : Nat} {a b c : α} : r a b → Chain r n b c → Chain r (n + 1) a c

/-- No step leaves `a`. -/
def Final (r : α → α → Prop) (a : α) : Prop := ∀ b, ¬ r a b

/-- Different steps from one state join after one step each. -/
def Diamond (r : α → α → Prop) : Prop :=
  ∀ a b c, r a b → r a c → b = c ∨ ∃ d, r b d ∧ r c d

section

variable {r : α → α → Prop} {size : α → Nat}

section

variable (hsize : ∀ a b, r a b → size b < size a)
include hsize

theorem Chain.length_le {n : Nat} {a b : α} (h : Chain r n a b) : n ≤ size a := by
  induction h with
  | nil => exact Nat.zero_le _
  | cons hab _ ih => exact Nat.lt_of_le_of_lt ih (hsize _ _ hab)

theorem exists_final (a : α) : ∃ n b, Chain r n a b ∧ Final r b := by
  induction hs : size a using Nat.strongRecOn generalizing a with
  | _ s ih =>
    by_cases hfin : Final r a
    · exact ⟨0, a, .nil a, hfin⟩
    · obtain ⟨b, hab⟩ := Classical.not_forall_not.mp hfin
      obtain ⟨n, c, hchain, hc⟩ := ih (size b) (hs ▸ hsize a b hab) b rfl
      exact ⟨n + 1, c, .cons hab hchain, hc⟩

theorem Chain.unique (hr : Diamond r) {n m : Nat}
    {a b c : α} (hb : Chain r n a b) (hc : Chain r m a c) (hbf : Final r b) (hcf : Final r c) :
    n = m ∧ b = c := by
  induction n generalizing a b m c with
  | zero =>
    cases hb
    cases hc with
    | nil => exact ⟨rfl, rfl⟩
    | cons hac _ => exact absurd hac (hbf _)
  | succ n ih =>
    cases hb with
    | @cons _ _ b1 _ hab hb =>
      cases hc with
      | nil => exact absurd hab (hcf _)
      | @cons m _ c1 _ hac hc =>
        rcases hr a b1 c1 hab hac with rfl | ⟨d, hbd, hcd⟩
        · obtain ⟨rfl, rfl⟩ := ih hb hc hbf hcf
          exact ⟨rfl, rfl⟩
        · -- a maximal chain from the join compares both sides
          obtain ⟨k, e, hde, hef⟩ := exists_final hsize d
          obtain ⟨rfl, rfl⟩ := ih hb (.cons hbd hde) hbf hef
          obtain ⟨rfl, rfl⟩ := ih (.cons hcd hde) hc hef hcf
          exact ⟨rfl, rfl⟩

end

end

/-- Steps of `s` are steps of `r` on the related states, and `s` stops only where `r` does. -/
structure Simulates (s : β → β → Prop) (r : α → α → Prop) (R : β → α → Prop) : Prop where
  step {x y : β} {a : α} : R x a → s x y → ∃ b, r a b ∧ R y b
  progress {x : β} {a b : α} : R x a → r a b → ∃ y, s x y

section

variable {s : β → β → Prop} {r : α → α → Prop} {R : β → α → Prop} {a : α} {size : α → Nat}

theorem Simulates.chain (h : Simulates s r R) {n : Nat} {x y : β} (hx : R x a)
    (hxy : Chain s n x y) : ∃ b, Chain r n a b ∧ R y b := by
  induction hxy generalizing a with
  | nil x => exact ⟨a, .nil a, hx⟩
  | cons hstep _ ih =>
    obtain ⟨b, hab, hb⟩ := h.step hx hstep
    obtain ⟨c, hbc, hc⟩ := ih hb
    exact ⟨c, .cons hab hbc, hc⟩

theorem Simulates.final (h : Simulates s r R) {x : β} (hx : R x a) (hf : Final s x) :
    Final r a := fun _ hab =>
  have ⟨y, hxy⟩ := h.progress hx hab
  hf y hxy

/-- If `r` descends, every state has a maximal chain of `s`. -/
theorem Simulates.exists_final (h : Simulates s r R)
    (hsize : ∀ a b, r a b → size b < size a) {x : β} (hx : R x a) :
    ∃ n y, Chain s n x y ∧ Final s y := by
  induction hs : size a using Nat.strongRecOn generalizing x a with
  | _ k ih =>
    by_cases hfin : Final s x
    · exact ⟨0, x, .nil x, hfin⟩
    · obtain ⟨y, hxy⟩ := Classical.not_forall_not.mp hfin
      obtain ⟨b, hab, hy⟩ := h.step hx hxy
      obtain ⟨n, z, hchain, hz⟩ := ih (size b) (hs ▸ hsize a b hab) hy rfl
      exact ⟨n + 1, z, .cons hxy hchain, hz⟩

/-- Maximal chains of the simulated relation are equally long, and their ends are related
to one state. -/
theorem Simulates.chains (h : Simulates s r R)
    (hsize : ∀ a b, r a b → size b < size a) (hr : Diamond r) {n m : Nat} {x y z : β}
    (hx : R x a) (hy : Chain s n x y) (hz : Chain s m x z) (hyf : Final s y) (hzf : Final s z) :
    n = m ∧ ∃ b, R y b ∧ R z b := by
  obtain ⟨b, hab, hb⟩ := h.chain hx hy
  obtain ⟨c, hac, hc⟩ := h.chain hx hz
  obtain ⟨rfl, rfl⟩ := hab.unique hsize hr hac (h.final hb hyf) (h.final hc hzf)
  exact ⟨rfl, b, hb, hc⟩

end

end Dnet.Lib
