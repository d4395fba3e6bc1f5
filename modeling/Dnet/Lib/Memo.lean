import Mathlib.Data.List.Nodup

/-!
# Memo tables

A table from keys to values, with one entry per key, beside the list of the arguments that have
been worked out. `Records` says that the two agree entry by entry, and that no two of the
arguments have the same key: a hit is the value of an argument with that key (`Records.hit`), and
working out an argument after a miss keeps the agreement (`Records.miss`).
-/

namespace Dnet.Lib

open List

variable {α κ ν : Type}

section

variable [BEq κ] [LawfulBEq κ] {k : κ}

/-- Put `v` at `k`, replacing what stood there. -/
def memoInsert (table : List (κ × ν)) (k : κ) (v : ν) : List (κ × ν) :=
  (k, v) :: table.filter fun e => e.1 != k

theorem not_key_of_lookup {table : List (κ × ν)} (h : table.lookup k = none) :
    ∀ e ∈ table, e.1 ≠ k :=
  fun e he => (bne_iff_ne.mp (lookup_eq_none_iff.mp h e he)).symm

theorem memoInsert_of_lookup {table : List (κ × ν)} {v : ν} (h : table.lookup k = none) :
    memoInsert table k v = (k, v) :: table := by
  unfold memoInsert
  rw [filter_eq_self.mpr fun e he => bne_iff_ne.mpr (not_key_of_lookup h e he)]

end

theorem exists_of_forall₂ {R : α → κ → Prop} {l : List α} {m : List κ} (h : List.Forall₂ R l m) {b : κ}
    (hb : b ∈ m) : ∃ a ∈ l, R a b := by
  induction h with
  | nil => cases hb
  | cons hhead _ ih =>
    rcases mem_cons.mp hb with rfl | hb
    · exact ⟨_, mem_cons_self, hhead⟩
    · obtain ⟨a, ha, hR⟩ := ih hb
      exact ⟨a, mem_cons_of_mem _ ha, hR⟩

/-- The entries of `table` are those of the arguments `done`, one for each; `good x v` says
that `v` is a value of `x`. -/
structure Records (key : α → κ) (good : α → ν → Prop) (done : List α) (table : List (κ × ν)) :
    Prop where
  entries : List.Forall₂ (fun x e => e.1 = key x ∧ good x e.2) done table
  once : (done.map key).Nodup

namespace Records

variable {key : α → κ} {good : α → ν → Prop} {done : List α} {table : List (κ × ν)}

section

variable [BEq κ] [LawfulBEq κ]

theorem hit (h : Records key good done table) {k : κ} {v : ν} (hlookup : table.lookup k = some v) :
    ∃ x ∈ done, k = key x ∧ good x v := by
  obtain ⟨l1, l2, rfl, -⟩ := lookup_eq_some_iff.mp hlookup
  exact exists_of_forall₂ h.entries (mem_append_right _ mem_cons_self)

theorem miss (h : Records key good done table) {x : α} {v : ν}
    (hlookup : table.lookup (key x) = none) (hgood : good x v) :
    Records key good (x :: done) (memoInsert table (key x) v) := by
  rw [memoInsert_of_lookup hlookup]
  refine ⟨.cons ⟨rfl, hgood⟩ h.entries, nodup_cons.mpr ⟨fun hmem => ?_, h.once⟩⟩
  obtain ⟨y, hy, hkey⟩ := mem_map.mp hmem
  obtain ⟨e, he, hkey', -⟩ := exists_of_forall₂ h.entries.flip hy
  exact not_key_of_lookup hlookup e he (hkey'.trans hkey)

end

end Records

end Dnet.Lib
