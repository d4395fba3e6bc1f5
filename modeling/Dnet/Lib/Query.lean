import Mathlib.Data.List.Basic

/-!
# Computations that ask

A computation that asks questions and goes on with the answers. What it does under an oracle
depends on the answers to the questions that it asks there, and on no others (`run_congr`).
-/

namespace Dnet.Lib

/-- A value, or a question `q` and how to go on with an answer. -/
inductive Query (ι : Type) (answer : ι → Type) (α : Type) where
  | done (a : α)
  | ask (q : ι) (next : answer q → Query ι answer α)

namespace Query

variable {ι : Type} {answer : ι → Type} {α β : Type}

def bind (f : α → Query ι answer β) : Query ι answer α → Query ι answer β
  | done a => f a
  | ask q next => ask q fun r => bind f (next r)

/-- The value under an oracle. -/
def run (oracle : ∀ q, answer q) : Query ι answer α → α
  | done a => a
  | ask q next => run oracle (next (oracle q))

/-- The questions asked under an oracle, in their order. -/
def asked (oracle : ∀ q, answer q) : Query ι answer α → List ι
  | done _ => []
  | ask q next => q :: asked oracle (next (oracle q))

theorem run_congr {o o' : ∀ q, answer q} : ∀ {c : Query ι answer α},
    (∀ q ∈ asked o c, o q = o' q) → run o c = run o' c ∧ asked o c = asked o' c
  | done _, _ => ⟨rfl, rfl⟩
  | ask q next, h => by
    have hq : o q = o' q := h q List.mem_cons_self
    obtain ⟨hrun, hasked⟩ := run_congr (c := next (o q)) fun r hr =>
      h r (List.mem_cons_of_mem q hr)
    rw [run, run, asked, asked, ← hq, ← hrun, ← hasked]
    exact ⟨rfl, rfl⟩

end Query

end Dnet.Lib
