import Dnet.Front.Inline
import Dnet.Front.Linearity

/-!
# α-renaming

`alpha_rename` gives every binder a name of its own and keeps the term up to the names of its
binders, as long as no free name looks like one that it makes (`alphaRename_correct`). The counter
is a number here, so it does not wrap.
-/

namespace Dnet

open List

variable {V F : Type} {Γ Γ' names : List Name} {env : Name → Option Name} {ctr : Nat} {t : Ast V F}

theorem ofName_cons_congr {x x' y y' : Name} (hiff : y' = x' ↔ y = x)
    (h : y ≠ x → (Nameless.ofName Γ' y' : Nameless V F) = .ofName Γ y) :
    (Nameless.ofName (x' :: Γ') y' : Nameless V F) = .ofName (x :: Γ) y := by
  by_cases hy : y = x
  · simp [Nameless.ofName, hy, hiff.mpr hy]
  · have hne : y' ≠ x' := mt hiff.mp hy
    have hold := h hy
    unfold Nameless.ofName at hold ⊢
    simp only [mem_cons, hy, hne, false_or, idxOf_cons_ne _ (Ne.symm hy),
      idxOf_cons_ne _ (Ne.symm hne)]
    split at hold <;> split at hold <;> simp_all

/-- In the scope `Γ'` of the new names, the names stand for what they were in `Γ`. -/
def ReadsAs (V F : Type) (env : Name → Option Name) (Γ Γ' names : List Name) : Prop :=
  ∀ y ∈ names, (Nameless.ofName Γ' (renamed env y) : Nameless V F) = .ofName Γ y

theorem ReadsAs.bind {x : Name} (ha : Apart env ctr (names.filter (· != x)))
    (h : ReadsAs V F env Γ Γ' (names.filter (· != x))) :
    ReadsAs V F (bindName env x (alphaFresh x ctr)) (x :: Γ) (alphaFresh x ctr :: Γ') names := by
  intro y hy
  refine ofName_cons_congr (ha.renamed_eq_iff hy) fun hne => ?_
  rw [renamed_bindName_ne hne]
  exact h y (mem_filter.mpr ⟨hy, by simpa using hne⟩)

theorem ReadsAs.bind_pair {a b : Name} (ha : Apart env ctr (names.filter fun y => y != a && y != b))
    (h : ReadsAs V F env Γ Γ' (names.filter fun y => y != a && y != b)) :
    ReadsAs V F (bindName (bindName env a (alphaFresh a ctr)) b (alphaFresh b (ctr + 1)))
      (b :: a :: Γ) (alphaFresh b (ctr + 1) :: alphaFresh a ctr :: Γ') names := by
  rw [← filter_filter] at ha h
  exact (h.bind ha).bind ha.bind

mutual

theorem Ast.rename_nameless : ∀ (t : Ast V F) {env : Name → Option Name} {ctr : Nat}
    {Γ Γ' : List Name}, Apart env ctr t.freeNames → ReadsAs V F env Γ Γ' t.freeNames →
      (t.rename env ctr).1.nameless Γ' = t.nameless Γ
  | .name x, _, _, _, _, _, h => h x mem_cons_self
  | .val _, _, _, _, _, _, _ | .fn _, _, _, _, _, _, _ => rfl
  | .abs _ body, _, _, _, _, ha, h => congrArg _ (body.rename_nameless ha.bind (h.bind ha))
  | .app f x, env, ctr, _, _, ha, h | .era f x, env, ctr, _, _, ha, h
  | .handle f x, env, ctr, _, _, ha, h => by
    obtain ⟨hf, hx⟩ := forall_mem_append.mp h
    simp only [Ast.rename, Ast.nameless, f.rename_nameless ha.left hf,
      x.rename_nameless (ha.right (f.rename_binders env ctr).le) hx]
  | .rep e a b body, env, ctr, _, _, ha, h => by
    obtain ⟨he, hbody⟩ := forall_mem_append.mp h
    have hscope := ha.right (e.rename_binders env ctr).le
    exact congrArg₂ Nameless.rep (e.rename_nameless ha.left he)
      (body.rename_nameless hscope.bind_pair (ReadsAs.bind_pair hscope hbody))
  | .fix inner, _, _, _, _, ha, h | .perform _ inner, _, _, _, _, ha, h =>
    congrArg _ (inner.rename_nameless ha h)

theorem HandlerBranches.rename_nameless : ∀ (bs : HandlerBranches V F) {env : Name → Option Name}
    {ctr : Nat} {Γ Γ' : List Name}, Apart env ctr bs.freeNames → ReadsAs V F env Γ Γ' bs.freeNames →
      (bs.rename env ctr).1.nameless Γ' = bs.nameless Γ
  | .nil, _, _, _, _, _, _ => rfl
  | .cons _ a k body rest, env, ctr, _, _, ha, h => by
    obtain ⟨hbody, hrest⟩ := forall_mem_append.mp h
    exact congrArg₂ (NamelessBranches.cons _)
      (body.rename_nameless ha.left.bind_pair (ReadsAs.bind_pair ha.left hbody))
      (rest.rename_nameless (ha.right (body.le_rename_pair env ctr a k)) hrest)

end

theorem apart_of_no_tilde (h : ∀ x ∈ names, '~' ∉ x.toList) : Apart (fun _ => none) ctr names where
  old x hx b c hxc := by
    refine absurd ?_ (h x hx)
    change x = _ at hxc
    simp [hxc, alphaFresh]
  inj _ _ _ _ he := he

/-- Renaming makes all binders differ from each other and from the free names, and keeps the term
up to the names of its binders. -/
theorem alphaRename_correct (h : ∀ x ∈ t.freeNames, '~' ∉ x.toList) (ctr : Nat) :
    (t.alphaRename ctr).binders.Nodup ∧
      (∀ x ∈ (t.alphaRename ctr).binders, x ∉ (t.alphaRename ctr).freeNames) ∧
      (t.alphaRename ctr).nameless [] = t.nameless [] ∧
      (t.alphaRename ctr).freeNames = t.freeNames := by
  have ha : Apart (fun _ => none) ctr t.freeNames := apart_of_no_tilde h
  have hfresh := t.rename_binders (fun _ => none) ctr
  have hfree : (t.alphaRename ctr).freeNames = t.freeNames :=
    (t.rename_spec ha).freeNames.trans (map_id _)
  refine ⟨hfresh.nodup, fun x hx hmem => ?_, t.rename_nameless ha fun _ _ => rfl, hfree⟩
  obtain ⟨b, c, rfl, hle, -⟩ := hfresh.made x hx
  exact absurd (ha.old _ (hfree ▸ hmem) b c rfl) (Nat.not_lt.mpr hle)

/-- In `λx. (λx. x) x y` the inner binder is told from the outer one. -/
theorem alphaRename_shadowed :
    let t : Ast Empty Empty := .abs "x" (.app (.app (.abs "x" (.name "x")) (.name "x")) (.name "y"))
    (t.alphaRename 7).binders.Nodup ∧ t.freeNames = ["y"] :=
  ⟨(alphaRename_correct (by decide) 7).1, by decide⟩

end Dnet
