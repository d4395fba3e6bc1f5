import Dnet.Front.Inline
import Mathlib.Data.Finset.Lattice.Fold

/-!
# Cycles of definitions

The cycle check of `pass0` counts every occurrence of a name, also the bound ones, while
`resolve` inlines free names only. So the check rejects a definition such as `f = λf. f`, and
its answer is the exact one just if the definitions have no cycle at all or one of free
references (`pass0_cycle_iff`).
-/

namespace Dnet

open Lib List
open Relation (TransGen)

variable {V F : Type} {defs : DefMap V F}

/-- The definition of `n` refers to the definition of `m` outside of the scopes that bind `m`. -/
def FreeRef (defs : DefMap V F) (n m : Name) : Prop :=
  ∃ body, defs.lookup n = some body ∧ m ∈ body.freeNames ∧ (defs.lookup m).isSome

/-- A definition reaches itself through free references. -/
def FreeCycle (defs : DefMap V F) : Prop := ∃ n, TransGen (FreeRef defs) n n

/-- `pass0` reports the cycles of free references, and returns a term otherwise. -/
def CycleExact (defs : DefMap V F) (e : Ast V F) : Prop :=
  (FreeCycle defs → ∃ k, ∀ fuel, k ≤ fuel →
      ∃ names, pass0 fuel defs e = .error (.mutualRecursion names)) ∧
    (¬FreeCycle defs → ∃ k, ∀ fuel, k ≤ fuel → ∃ r, pass0 fuel defs e = .ok r)

/-! ## Free references are references -/

mutual

theorem Ast.mem_defRefs {m : Name} (hm : (defs.lookup m).isSome) :
    ∀ {t : Ast V F}, m ∈ t.freeNames → m ∈ t.defRefs defs
  | .name _, h => by
    cases mem_singleton.mp h
    simp [Ast.defRefs, hm]
  | .abs _ body, h => Ast.mem_defRefs hm (t := body) (mem_of_mem_filter h)
  | .app _ _, h | .era _ _, h =>
    mem_append.mpr ((mem_append.mp h).imp (Ast.mem_defRefs hm) (Ast.mem_defRefs hm))
  | .rep _ _ _ _, h => mem_append.mpr ((mem_append.mp h).imp (Ast.mem_defRefs hm) fun h =>
      Ast.mem_defRefs hm (mem_of_mem_filter h))
  | .fix e, h | .perform _ e, h => Ast.mem_defRefs hm (t := e) h
  | .handle _ _, h =>
    mem_append.mpr ((mem_append.mp h).imp (Ast.mem_defRefs hm) (HandlerBranches.mem_defRefs hm))

theorem HandlerBranches.mem_defRefs {m : Name} (hm : (defs.lookup m).isSome) :
    ∀ {bs : HandlerBranches V F}, m ∈ bs.freeNames → m ∈ bs.defRefs defs
  | .cons _ _ _ _ _, h => mem_append.mpr ((mem_append.mp h).imp
      (fun h => Ast.mem_defRefs hm (mem_of_mem_filter h)) (HandlerBranches.mem_defRefs hm))

end

theorem FreeCycle.not_acyclic (h : FreeCycle defs) : ¬Acyclic defs := by
  obtain ⟨n, hn⟩ := h
  rintro ⟨rank, hrank⟩
  have hlt : ∀ a b, FreeRef defs a b → rank b < rank a := by
    rintro a b ⟨body, hbody, hb, hdef⟩
    exact hrank a b (by rw [refsOf, hbody]; exact Ast.mem_defRefs hdef hb)
  have hall : ∀ m, TransGen (FreeRef defs) n m → rank m < rank n := fun m h => by
    induction h with
    | single h => exact hlt _ _ h
    | tail _ h ih => exact (hlt _ _ h).trans ih
  exact Nat.lt_irrefl _ (hall n hn)

/-! ## Resolution returns -/

mutual

variable {call : Ast V F → Bound → Call LinError (Ast V F × Bound)}

theorem Ast.resolveWith_returns : ∀ {t : Ast V F}, (∀ m ∈ t.defRefs defs, ∀ body,
    defs.lookup m = some body → ∀ b, (call body b).Returns fun _ => True) →
      ∀ b, (t.resolveWith defs call b).Returns fun _ => True
  | .name n, h, b => by
    unfold Ast.resolveWith
    split
    · exact .ok trivial
    · split
      · next body hbody => exact h n (by simp [Ast.defRefs, hbody]) body hbody b
      · exact .ok trivial
  | .val _, _, _ | .fn _, _, _ => .ok trivial
  | .abs _ body, h, _ | .fix body, h, _ | .perform _ body, h, _ =>
    (Ast.resolveWith_returns (t := body) h _).bind fun _ _ => .ok trivial
  | .app _ _, h, _ | .era _ _, h, _ | .rep _ _ _ _, h, _ =>
    (Ast.resolveWith_returns (fun m hm => h m (mem_append_left _ hm)) _).bind fun _ _ =>
      (Ast.resolveWith_returns (fun m hm => h m (mem_append_right _ hm)) _).bind fun _ _ => .ok trivial
  | .handle _ _, h, _ =>
    (Ast.resolveWith_returns (fun m hm => h m (mem_append_left _ hm)) _).bind fun _ _ =>
      (HandlerBranches.resolveWith_returns (fun m hm => h m (mem_append_right _ hm)) _).bind
        fun _ _ => .ok trivial

theorem HandlerBranches.resolveWith_returns : ∀ {bs : HandlerBranches V F},
    (∀ m ∈ bs.defRefs defs, ∀ body, defs.lookup m = some body →
      ∀ b, (call body b).Returns fun _ => True) →
        ∀ b, (bs.resolveWith defs call b).Returns fun _ => True
  | .nil, _, _ => .ok trivial
  | .cons _ _ _ _ _, h, _ =>
    (Ast.resolveWith_returns (fun m hm => h m (mem_append_left _ hm)) _).bind fun _ _ =>
      (HandlerBranches.resolveWith_returns (fun m hm => h m (mem_append_right _ hm)) _).bind
        fun _ _ => .ok trivial

end

theorem resolve_returns {rank : Name → Nat} (hrank : ∀ n, ∀ m ∈ refsOf defs n, rank m < rank n) :
    ∀ {fuel : Nat} {t : Ast V F}, (∀ m ∈ t.defRefs defs, rank m < fuel) →
      ∀ b, (Pass0.resolve defs fuel t b).Returns fun _ => True
  | 0, _, h, b => Ast.resolveWith_returns (fun m hm => absurd (h m hm) (Nat.not_lt_zero _)) b
  | fuel + 1, _, h, b => by
    refine Ast.resolveWith_returns
      (fun m hm body hbody b => resolve_returns hrank (fun m' hm' => ?_) b) b
    have hlt := hrank m m' (by rw [refsOf, hbody]; exact hm')
    exact Nat.lt_of_lt_of_le hlt (Nat.le_of_lt_succ (h m hm))

theorem Acyclic.pass0 (h : Acyclic defs) (e : Ast V F) :
    ∃ k, ∀ fuel, k ≤ fuel → ∃ r, pass0 fuel defs e = .ok r := by
  obtain ⟨k, hk⟩ := h.topoCheck
  obtain ⟨rank, hrank⟩ := h
  let j := (e.defRefs defs).toFinset.sup rank + 1
  have hj : ∀ m ∈ e.defRefs defs, rank m < j := fun m hm =>
    Nat.lt_succ_of_le (Finset.le_sup (mem_toFinset.mpr hm))
  refine ⟨max k j, fun fuel hfuel => ?_⟩
  obtain ⟨visited, hv⟩ := hk fuel (le_trans (Nat.le_max_left _ _) hfuel)
  obtain ⟨⟨r, b⟩, hr, -⟩ := resolve_returns hrank
    (fun m hm => Nat.lt_of_lt_of_le (hj m hm) (le_trans (Nat.le_max_right _ _) hfuel)) fun _ => false
  exact ⟨r, Call.bind_eq_ok.mpr ⟨visited, hv, Call.bind_eq_ok.mpr ⟨_, hr, rfl⟩⟩⟩

/-! ## The answer of the check -/

/-- The answer is exact just if the definitions have no cycle, also not through bound names, or
a cycle of free references. -/
theorem pass0_cycle_iff (defs : DefMap V F) (e : Ast V F) :
    CycleExact defs e ↔ Acyclic defs ∨ FreeCycle defs := by
  constructor
  · rintro ⟨-, hok⟩
    refine or_iff_not_imp_right.mpr fun hno => ?_
    obtain ⟨k, hk⟩ := hok hno
    obtain ⟨r, hr⟩ := hk k le_rfl
    obtain ⟨visited, hv, -⟩ := Call.bind_eq_ok.mp hr
    exact topoCheck_acyclic hv
  · rintro (h | h)
    · exact ⟨fun hc => absurd h hc.not_acyclic, fun _ => h.pass0 e⟩
    · refine ⟨fun _ => ⟨defs.length + 1, fun fuel hfuel => ?_⟩, absurd h⟩
      obtain ⟨-, names, hn⟩ := (topoCheck_settles hfuel).resolve_left fun ⟨_, hv⟩ =>
        h.not_acyclic (topoCheck_acyclic hv)
      exact ⟨names, Call.bind_eq_some.mpr (.inl ⟨_, hn, rfl⟩)⟩

/-- One definition, `f = λf. f`. -/
def boundSelf : DefMap Empty Empty := [("f", .abs "f" (.name "f"))]

/-- The check takes the bound `f` for a reference to the definition. -/
theorem boundSelf_rejected : ¬FreeCycle boundSelf ∧
    (∀ fuel, pass0 (fuel + 2) boundSelf (.name "f") = .error (.mutualRecursion ["f"])) ∧
    ¬CycleExact boundSelf (.name "f") := by
  have hno : ¬FreeCycle boundSelf := by
    rintro ⟨n, hn⟩
    obtain ⟨m, ⟨body, hbody, hm, -⟩, -⟩ := TransGen.head'_iff.mp hn
    simp only [boundSelf, lookup_cons, lookup_nil] at hbody
    split at hbody
    · cases hbody
      cases hm
    · cases hbody
  have herr : ∀ fuel, pass0 (fuel + 2) boundSelf (.name "f") = .error (.mutualRecursion ["f"]) :=
    fun _ => rfl
  refine ⟨hno, herr, fun h => ?_⟩
  obtain ⟨k, hk⟩ := h.2 hno
  obtain ⟨r, hr⟩ := hk (k + 2) (Nat.le_add_right k 2)
  cases (herr k).symm.trans hr

end Dnet
