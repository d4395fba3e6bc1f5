import Dnet.Kernel.HeadSim
import Dnet.Kernel.Shift

/-!
# Normal forms do not depend on β-steps

`Par` contracts any set of β-redexes of a term at once. In an environment without indexed
families the kernel never infers a type during reduction, and then a normal form is kept by
every parallel step (`Nfs.par`). The head strategy of the kernel is simulated step by step
(`Par.headSim`): the contracted term runs through the same head steps, or through fewer.
-/

namespace Dnet.Kernel

open Option (bind_eq_some_iff)

/-- Contract some of the β-redexes of a term, all at once. -/
inductive Par : Tm → Tm → Prop where
  | refl (t : Tm) : Par t t
  | pi {a a' b b' : Tm} : Par a a' → Par b b' → Par (.pi a b) (.pi a' b')
  | lam {a a' b b' : Tm} : Par a a' → Par b b' → Par (.lam a b) (.lam a' b')
  | app {f f' x x' : Tm} : Par f f' → Par x x' → Par (.app f x) (.app f' x')
  | beta {d b b' a a' : Tm} : Par b b' → Par a a' → Par (.app (.lam d b) a) (subst b' 0 a')

abbrev Pars : List Tm → List Tm → Prop := List.Forall₂ Par

theorem Pars.refl (ts : List Tm) : Pars ts ts := by
  induction ts with
  | nil => exact .nil
  | cons t ts ih => exact .cons (.refl t) ih

/-! ## Substitution -/

section

variable {t u : Tm} {σ τ : Nat → Tm}

theorem Par.ren (h : Par t u) (ρ : Nat → Nat) : Par (t.ren ρ) (u.ren ρ) := by
  induction h generalizing ρ with
  | refl t => exact .refl _
  | pi _ _ iha ihb => exact .pi (iha ρ) (ihb _)
  | lam _ _ iha ihb => exact .lam (iha ρ) (ihb _)
  | app _ _ ihf ihx => exact .app (ihf ρ) (ihx ρ)
  | beta _ _ ihb iha =>
    rw [ren_subst_zero]
    exact .beta (ihb _) (iha ρ)

theorem par_up (h : ∀ i, Par (σ i) (τ i)) (i : Nat) : Par (up σ i) (up τ i) := by
  cases i with
  | zero => exact .refl _
  | succ i => exact (h i).ren _

theorem par_inst_of_par (h : ∀ i, Par (σ i) (τ i)) (t : Tm) : Par (t.inst σ) (t.inst τ) := by
  induction t generalizing σ τ with
  | var i => exact h i
  | pi a b iha ihb => exact .pi (iha h) (ihb (par_up h))
  | lam a b iha ihb => exact .lam (iha h) (ihb (par_up h))
  | app f x ihf ihx => exact .app (ihf h) (ihx h)
  | _ => exact .refl _

theorem Par.inst (h : Par t u) (hσ : ∀ i, Par (σ i) (τ i)) : Par (t.inst σ) (u.inst τ) := by
  induction h generalizing σ τ with
  | refl t => exact par_inst_of_par hσ t
  | pi _ _ iha ihb => exact .pi (iha hσ) (ihb (par_up hσ))
  | lam _ _ iha ihb => exact .lam (iha hσ) (ihb (par_up hσ))
  | app _ _ ihf ihx => exact .app (ihf hσ) (ihx hσ)
  | beta _ _ ihb iha =>
    rw [inst_subst_zero]
    exact .beta (ihb (par_up hσ)) (iha hσ)

theorem Par.subst_zero {b b' a a' : Tm} (hb : Par b b') (ha : Par a a') :
    Par (subst b 0 a) (subst b' 0 a') := by
  rw [subst_zero_eq_inst, subst_zero_eq_inst]
  refine hb.inst fun i => ?_
  cases i with
  | zero => exact ha
  | succ i => exact .refl _

/-! ## Spines -/

theorem Par.apply {h h' : Tm} {as bs : List Tm} (hh : Par h h') (hs : Pars as bs) :
    Par (apply h as) (apply h' bs) := by
  induction hs generalizing h h' with
  | nil => exact hh
  | cons ha _ ih => exact ih (.app hh ha)

/-- What a parallel step does along a spine: it steps in the head and the arguments, or it
contracts the redex at the head as well. -/
theorem Par.spine (h : Par t u) :
    (∃ hd as, u = Kernel.apply hd as ∧ Par t.head hd ∧ Pars t.args as) ∨
    (∃ d b a rest b' a' rest', t.head = .lam d b ∧ t.args = a :: rest ∧ Par b b' ∧ Par a a' ∧
      Pars rest rest' ∧ u = Kernel.apply (subst b' 0 a') rest') := by
  induction h with
  | refl t => exact .inl ⟨t.head, t.args, (apply_head_args t).symm, .refl _, .refl _⟩
  | pi ha hb => exact .inl ⟨_, [], rfl, .pi ha hb, .nil⟩
  | lam ha hb => exact .inl ⟨_, [], rfl, .lam ha hb, .nil⟩
  | @app f f' x x' _ hx ihf _ =>
    rcases ihf with ⟨hd, as, rfl, hhd, has⟩ | ⟨d, b, a, rest, b', a', rest', hhd, has, hb, ha, hr, rfl⟩
    · exact .inl ⟨hd, as ++ [x'], (apply_concat _ _ _).symm, hhd,
        List.rel_append has (.cons hx .nil)⟩
    · refine .inr ⟨d, b, a, rest ++ [x], b', a', rest' ++ [x'], hhd, ?_, hb, ha,
        List.rel_append hr (.cons hx .nil), (apply_concat _ _ _).symm⟩
      rw [Tm.args, has, List.cons_append]
  | beta hb ha => exact .inr ⟨_, _, _, [], _, _, [], rfl, rfl, hb, ha, .nil, rfl⟩

theorem Par.headRel {hd : Tm} (h : Par t.head hd) :
    HeadRel Par t.head hd ∧ hd.head = hd ∧ hd.args = [] := by
  have hne := head_ne_app t
  have hself : t.head.head = t.head ∧ t.head.args = [] := ⟨head_head t, args_head t⟩
  generalize t.head = g at h hne hself
  cases h with
  | refl =>
    refine ⟨?_, hself⟩
    cases hd with
    | var i => exact .var i i
    | sort l => exact .sort l
    | pi a b => exact .pi a b a b
    | lam d b => exact .lam fun a a' ha => (Par.refl b).subst_zero ha
    | app f x => exact absurd rfl (hne f x)
    | const c => exact .const c
    | ind i => exact .ind i
    | ctor i k => exact .ctor i k
    | elim i => exact .elim i
  | pi _ _ => exact ⟨.pi _ _ _ _, rfl, rfl⟩
  | lam _ hb => exact ⟨.lam fun a a' ha => hb.subst_zero ha, rfl, rfl⟩
  | app _ _ | beta _ _ => exact absurd rfl (hne _ _)

theorem Par.headSim (env : GlobalEnv) : HeadSim env Par where
  app := .app
  sort l := .refl _
  elim i := .refl _
  body _ := .refl _
  spine := by
    intro t u h
    rcases h.spine with ⟨hd, as, rfl, hhd, has⟩ |
      ⟨d, b, a, rest, b', a', rest', hhd, hargs, hb, ha, hrest, rfl⟩
    · obtain ⟨hrel, hself, hnil⟩ := hhd.headRel
      rw [head_apply, args_apply, hself, hnil]
      exact .inl ⟨hrel, has⟩
    · exact .inr ⟨d, b, a, rest, hhd, hargs, (hb.subst_zero ha).apply hrest⟩

/-- Any number of parallel steps. -/
abbrev Reduces : Tm → Tm → Prop := Relation.ReflTransGen Par

theorem Reduces.app {f f' x x' : Tm} (hf : Reduces f f') (hx : Reduces x x') :
    Reduces (.app f x) (.app f' x') :=
  (hf.lift (fun f => Tm.app f x) fun _ _ h => .app h (.refl x)).trans
    (hx.lift (fun x => Tm.app f' x) fun _ _ h => .app (.refl f') h)

theorem Reduces.lam {d b b' : Tm} (hb : Reduces b b') : Reduces (.lam d b) (.lam d b') :=
  hb.lift (fun b => Tm.lam d b) fun _ _ h => .lam (.refl d) h

theorem Reduces.ren (h : Reduces t u) (ρ : Nat → Nat) : Reduces (t.ren ρ) (u.ren ρ) :=
  h.lift (Tm.ren ρ) fun _ _ h => h.ren ρ

end

/-! ## Normal forms -/

section

variable {B : Build} {env : GlobalEnv}

theorem Par.nf (henv : NonIndexed env) (n : Nat) {ctx ctx' : Ctx} {t u v : Tm} (h : Par t u)
    (hv : (run B env n).nf ctx t = some v) : (run B env n).nf ctx' u = some v := by
  induction n generalizing ctx ctx' t u v with
  | zero => cases hv
  | succ n ih =>
    obtain ⟨w, hw, hv⟩ := bind_eq_some_iff.mp hv
    obtain ⟨w', hw', hpar, hnb⟩ := (Par.headSim env).whnf henv n ctx ctx' t u h w hw
    refine bind_eq_some_iff.mpr ⟨w', hw', ?_⟩
    -- The head redex of `w` is gone, so the step goes into the parts of `w`.
    cases hpar with
    | refl =>
      cases w with
      | lam d b | pi d b | app d b =>
        obtain ⟨x, hx, hv⟩ := bind_eq_some_iff.mp hv
        obtain ⟨y, hy, hv⟩ := bind_eq_some_iff.mp hv
        exact bind_eq_some_iff.mpr ⟨x, ih (.refl _) hx,
          bind_eq_some_iff.mpr ⟨y, ih (.refl _) hy, hv⟩⟩
      | _ => exact hv
    | pi ha hb | lam ha hb | app ha hb =>
      obtain ⟨x, hx, hv⟩ := bind_eq_some_iff.mp hv
      obtain ⟨y, hy, hv⟩ := bind_eq_some_iff.mp hv
      exact bind_eq_some_iff.mpr ⟨x, ih ha hx, bind_eq_some_iff.mpr ⟨y, ih hb hy, hv⟩⟩
    | beta _ _ => exact absurd ⟨⟨_, _, rfl⟩, by simp [Tm.args]⟩ hnb

/-- β-steps anywhere in a term keep its normal form. -/
theorem Nfs.par (henv : NonIndexed env) {ctx ctx' : Ctx} {t u v : Tm}
    (h : Reduces t u) (hv : Nfs B env ctx t v) : Nfs B env ctx' u v := by
  obtain ⟨n, hn⟩ := hv
  induction h with
  | refl => exact ⟨n, Par.nf henv n (.refl t) hn⟩
  | tail _ hstep ih =>
    obtain ⟨m, hm⟩ := ih
    exact ⟨m, Par.nf henv m hstep hm⟩

end

end Dnet.Kernel
