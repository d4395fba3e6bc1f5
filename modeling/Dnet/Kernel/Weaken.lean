import Dnet.Kernel.Consistency
import Dnet.Kernel.HeadSim
import Dnet.Kernel.Scope
import Dnet.Kernel.Shift

/-!
# Weakening

A renaming of variables that respects the contexts (`CtxRen`) keeps types (`weakens`). Putting
binders under the innermost end of a context is the case used later (`ctxRen_weaken`).

The stored terms have to be closed (`ClosedEnv`). Families with indices are left out:
`infer_elim` looks for the sort of a motive under its index binders in the context outside
of them.
-/

namespace Dnet.Kernel

open Bool (or_eq_false_iff)
open Option (bind_eq_some_iff map_eq_some_iff)
open List
open Lib (Sim Call)

/-! ## Closed terms -/

variable {n : Nat} {t : Tm} {tele : Telescope}

theorem Tm.Closed.inst (h : t.Closed n) {σ : Nat → Tm}
    (hσ : ∀ i, i < n → σ i = .var i) : t.inst σ = t := by
  refine (inst_congr (τ := .var) fun i hi => hσ i ?_).trans (inst_var t)
  by_contra hlt
  exact Bool.false_ne_true ((h.not_occursVar (Nat.le_of_not_lt hlt)).symm.trans hi)

theorem Tm.Closed.ren (h : t.Closed n) {ρ : Nat → Nat}
    (hρ : ∀ i, i < n → ρ i = i) : t.ren ρ = t := by
  rw [ren_eq_inst]
  exact h.inst fun i hi => by rw [hρ i hi]

theorem Tm.Closed.shift (h : t.Closed n) (d c : Nat) {m : Nat} (hm : n + d ≤ m) :
    (shift t (d : Int) c).Closed m := by
  unfold Tm.Closed at h ⊢
  induction t generalizing n c m with
  | var i =>
    have hi : ¬ n ≤ i := of_decide_eq_false h
    rw [shift_var]
    refine decide_eq_false ?_
    split_ifs <;> omega
  | pi a b iha ihb | lam a b iha ihb =>
    obtain ⟨ha, hb⟩ := or_eq_false_iff.mp h
    exact or_eq_false_iff.mpr ⟨iha ha c hm, ihb hb (c + 1) (by omega)⟩
  | app f x ihf ihx =>
    obtain ⟨hf, hx⟩ := or_eq_false_iff.mp h
    exact or_eq_false_iff.mpr ⟨ihf hf c hm, ihx hx c hm⟩
  | _ => rfl

theorem scopeRule_closed : ScopeRule fun n t => t.Closed n where
  var h := decide_eq_false (Nat.not_le.mpr h)
  sort _ _ := rfl
  pi ha hb := or_eq_false_iff.mpr ⟨ha, hb⟩
  app := or_eq_false_iff
  shift d c h hm := h.shift d c hm

theorem closedTele_iff :
    ClosedTele n tele ↔ ∀ (q : Nat) (ty : Tm), tele[q]? = some ty → ty.Closed (n + q) := by
  refine ⟨fun h q ty hq => h.get hq, fun h => ?_⟩
  induction tele generalizing n with
  | nil => trivial
  | cons ty rest ih =>
    refine ⟨h 0 ty rfl, ih fun q ty' hq => ?_⟩
    rw [Nat.add_assoc, Nat.add_comm 1]
    exact h (q + 1) ty' hq

/-! ## Closed declarations -/

/-- The types of a declaration mention its own binders only. -/
structure Inductive.Closed (d : Inductive) : Prop where
  params : ClosedTele 0 d.params
  indices : ClosedTele d.params.length d.indices
  args : ∀ c ∈ d.ctors, ClosedTele d.params.length c.args
  retIndices : ∀ c ∈ d.ctors, ∀ t ∈ c.retIndices, t.Closed (d.params.length + c.args.length)

structure ClosedEnv (env : GlobalEnv) : Prop where
  const : ∀ c ty b, env.consts c = some (ty, b) → ty.Closed 0 ∧ b.Closed 0
  ind : ∀ i d, env.inds i = some d → d.Closed

theorem Inductive.Closed.scoped {d : Inductive} (h : d.Closed) :
    ScopedDecl (fun n t => t.Closed n) d where
  ind _ := rfl
  ctor _ _ := rfl
  params _ _ hq := h.params.get hq
  indices _ _ hq := h.indices.get hq
  args c hc _ _ hq := (h.args c hc).get hq
  retIndices := h.retIndices

/-! ## Reduction -/

theorem ren_headSim {env : GlobalEnv} (henv : ClosedEnv env) (ρ : Nat → Nat) :
    HeadSim env fun t u => u = t.ren ρ where
  app := by
    rintro f _ x _ rfl rfl
    rfl
  sort _ := rfl
  elim _ := rfl
  body := by
    intro c b hb
    obtain ⟨⟨ty, _⟩, hc, rfl⟩ := map_eq_some_iff.mp hb
    exact ((henv.const c ty _ hc).2.ren nofun).symm
  spine := by
    rintro t _ rfl
    refine .inl ⟨?_, ?_⟩
    · have hne := head_ne_app t
      rw [head_ren]
      generalize t.head = h at hne
      cases h with
      | var i => exact .var i (ρ i)
      | sort l => exact .sort l
      | pi a b => exact .pi _ _ _ _
      | lam d b =>
        refine .lam ?_
        rintro a _ rfl
        exact (ren_subst_zero b a ρ).symm
      | app f x => exact absurd rfl (hne f x)
      | const c => exact .const c
      | ind i => exact .ind i
      | ctor i k => exact .ctor i k
      | elim i => exact .elim i
    · rw [args_ren, forall₂_map_right_iff]
      exact forall₂_same.mpr fun _ _ => rfl

theorem etaContract_ren (dom body : Tm) (ρ : Nat → Nat) :
    etaContract (dom.ren ρ) (body.ren (upRen ρ)) = (etaContract dom body).ren ρ := by
  have hocc : ∀ f : Tm, occursVar (f.ren (upRen ρ)) 0 = occursVar f 0 := by
    intro f
    rw [Bool.eq_iff_iff]
    constructor
    · intro h
      obtain ⟨i, hi, he⟩ := occursVar_ren h
      cases i with
      | zero => exact hi
      | succ i => cases he
    · exact fun h => occursVar_ren_of h
  have hplain : ∀ body : Tm, (∀ f, body ≠ .app f (.var 0)) → etaContract dom body = .lam dom body ∧
      etaContract (dom.ren ρ) (body.ren (upRen ρ)) = .lam (dom.ren ρ) (body.ren (upRen ρ)) := by
    intro body hne
    cases body with
    | app f x =>
      cases x with
      | var i =>
        cases i with
        | zero => exact absurd rfl (hne f)
        | succ i => exact ⟨rfl, rfl⟩
      | _ => exact ⟨rfl, rfl⟩
    | _ => exact ⟨rfl, rfl⟩
  by_cases hform : ∃ f, body = .app f (.var 0)
  · obtain ⟨f, rfl⟩ := hform
    show (if occursVar (f.ren (upRen ρ)) 0 then _ else _) =
      (if occursVar f 0 then _ else _ : Tm).ren ρ
    rw [hocc]
    split
    · rfl
    · next hno =>
      have hno : occursVar f 0 = false := by simpa using hno
      rw [shift_pred_eq_ren _ _ ((hocc f).trans hno), shift_pred_eq_ren _ _ hno, ren_ren, ren_ren]
      refine ren_congr fun i hi => ?_
      cases i with
      | zero => exact absurd hi (by rw [hno]; exact Bool.false_ne_true)
      | succ i => rfl
  · obtain ⟨h1, h2⟩ := hplain body fun f hf => hform ⟨f, hf⟩
    rw [h1, h2]
    rfl

section Judgments

variable {B : Build} {env : GlobalEnv} {ctx ctx' : Ctx} {t u v w T : Tm}

theorem Whnfs.ren (hclosed : ClosedEnv env) (hidx : NonIndexed env) (h : Whnfs B env ctx t w)
    (ctx' : Ctx) (ρ : Nat → Nat) : Whnfs B env ctx' (t.ren ρ) (w.ren ρ) := by
  obtain ⟨n, hn⟩ := h
  obtain ⟨_, hw, rfl, -⟩ := (ren_headSim hclosed ρ).whnf hidx n ctx ctx' t _ rfl w hn
  exact ⟨n, hw⟩

theorem Nfs.ren (hclosed : ClosedEnv env) (hidx : NonIndexed env) (h : Nfs B env ctx t v)
    (ctx' : Ctx) (ρ : Nat → Nat) : Nfs B env ctx' (t.ren ρ) (v.ren ρ) := by
  obtain ⟨n, hn⟩ := h
  induction n generalizing ctx ctx' t v ρ with
  | zero => cases hn
  | succ n ih =>
    obtain ⟨w, hw, hn⟩ := bind_eq_some_iff.mp hn
    refine nfs_iff.mpr ⟨w.ren ρ, Whnfs.ren hclosed hidx ⟨n, hw⟩ ctx' ρ, ?_⟩
    cases w with
    | lam d b =>
      obtain ⟨x, hx, hn⟩ := bind_eq_some_iff.mp hn
      obtain ⟨y, hy, hn⟩ := bind_eq_some_iff.mp hn
      cases hn
      exact ⟨_, _, ih ctx' ρ hx, ih _ (upRen ρ) hy, (etaContract_ren x y ρ).symm⟩
    | pi d b =>
      obtain ⟨x, hx, hn⟩ := bind_eq_some_iff.mp hn
      obtain ⟨y, hy, hn⟩ := bind_eq_some_iff.mp hn
      cases hn
      exact ⟨_, _, ih ctx' ρ hx, ih _ (upRen ρ) hy, rfl⟩
    | app f x =>
      obtain ⟨y, hy, hn⟩ := bind_eq_some_iff.mp hn
      obtain ⟨z, hz, hn⟩ := bind_eq_some_iff.mp hn
      cases hn
      exact ⟨_, _, ih ctx' ρ hy, ih ctx' ρ hz, rfl⟩
    | _ =>
      cases hn
      rfl

theorem Converts.ren (hclosed : ClosedEnv env) (hidx : NonIndexed env)
    (h : Converts B env ctx t u) (ctx' : Ctx) (ρ : Nat → Nat) :
    Converts B env ctx' (t.ren ρ) (u.ren ρ) := by
  obtain ⟨v, ht, hu⟩ := converts_iff.mp h
  exact converts_iff.mpr ⟨v.ren ρ, ht.ren hclosed hidx ctx' ρ, hu.ren hclosed hidx ctx' ρ⟩

/-! ## Types -/

/-- `ρ` sends every variable of `ctx` to one of `ctx'` with the renamed type. -/
def CtxRen (ρ : Nat → Nat) (ctx ctx' : Ctx) : Prop :=
  ∀ i a, ctx[i]? = some a → ∃ a', ctx'[ρ i]? = some a' ∧
    a'.ren (· + (ρ i + 1)) = (a.ren (· + (i + 1))).ren ρ

theorem CtxRen.up {ρ : Nat → Nat} (h : CtxRen ρ ctx ctx') (a : Tm) :
    CtxRen (upRen ρ) (a :: ctx) (a.ren ρ :: ctx') := by
  intro i b hb
  cases i with
  | zero =>
    cases hb
    refine ⟨_, rfl, ?_⟩
    rw [ren_ren, ren_ren]
    rfl
  | succ i =>
    obtain ⟨b', hb', he⟩ := h i b hb
    refine ⟨b', hb', ?_⟩
    have hsucc := congrArg (Tm.ren (· + 1)) he
    simp only [ren_ren] at hsucc ⊢
    exact hsucc

theorem ctxRen_weaken (new ctx : Ctx) : CtxRen (· + new.length) ctx (new ++ ctx) := by
  intro i a ha
  refine ⟨a, ?_, ?_⟩
  · rw [List.getElem?_append_right (Nat.le_add_left _ _), Nat.add_sub_cancel, ha]
  · rw [ren_ren]
    refine ren_congr fun j _ => ?_
    simp only [Function.comp_apply]
    omega

theorem sizeOf_lt_of_mem_args {a : Tm} (h : a ∈ t.args) : sizeOf a < sizeOf t := by
  induction t with
  | app f x ihf _ =>
    rw [Tm.args, mem_append, mem_singleton] at h
    rcases h with h | rfl
    · have := ihf h
      simp only [Tm.app.sizeOf_spec]
      omega
    · simp only [Tm.app.sizeOf_spec]
      omega
  | _ => cases h

/-- The statement of weakening for one term. -/
def Weakens (B : Build) (env : GlobalEnv) (t : Tm) : Prop :=
  ∀ (ρ : Nat → Nat) (ctx ctx' : Ctx) (T : Tm), CtxRen ρ ctx ctx' →
    Infers B env ctx t T → Infers B env ctx' (t.ren ρ) (T.ren ρ)

section

variable (hclosed : ClosedEnv env) (hidx : NonIndexed env) {ρ : Nat → Nat} (hρ : CtxRen ρ ctx ctx')

include hclosed hidx hρ

theorem Weakens.hasSort {l : Level} (ht : Weakens B env t) (h : HasSort B env ctx t l) :
    HasSort B env ctx' (t.ren ρ) l := by
  obtain ⟨ty, hty, hl⟩ := hasSort_iff.mp h
  exact hasSort_iff.mpr ⟨ty.ren ρ, ht ρ ctx ctx' ty hρ hty, hl.ren hclosed hidx ctx' ρ⟩

theorem Weakens.checks {ty : Tm} (ht : Weakens B env t) (h : Checks B env ctx t ty) :
    Checks B env ctx' (t.ren ρ) (ty.ren ρ) := by
  obtain ⟨got, hgot, hconv⟩ := checks_iff.mp h
  exact checks_iff.mpr ⟨got.ren ρ, ht ρ ctx ctx' got hρ hgot, hconv.ren hclosed hidx ctx' ρ⟩

theorem applies_ren {args : List Tm} {ty : Tm} (ha : ∀ a ∈ args, Weakens B env a)
    (h : Applies B env ctx args ty T) :
    Applies B env ctx' (args.map (Tm.ren ρ)) (ty.ren ρ) (T.ren ρ) := by
  induction args generalizing ty with
  | nil =>
    rw [applies_nil] at h
    exact applies_nil.mpr (congrArg _ h)
  | cons a args ih =>
    obtain ⟨ha, hargs⟩ := forall_mem_cons.mp ha
    obtain ⟨dom, cod, hpi, hcheck, h⟩ := applies_cons.mp h
    refine applies_cons.mpr ⟨dom.ren ρ, cod.ren (upRen ρ), hpi.ren hclosed hidx ctx' ρ,
      ha.checks hclosed hidx hρ hcheck, ?_⟩
    rw [← ren_subst_zero]
    exact ih hargs h

theorem infers_elim_ren {i : IndId} {args : List Tm} (ha : ∀ a ∈ args, Weakens B env a)
    (h : Infers B env ctx (apply (.elim i) args) T) :
    Infers B env ctx' ((apply (.elim i) args).ren ρ) (T.ren ρ) := by
  obtain ⟨n, d, lm, hd, -⟩ := infers_elim (head_apply _ _) h
  obtain ⟨motive, mty, a, cod, lm, hm, hmty, hpi, hsort, happ⟩ :=
    (infers_elim_simple hd (hidx i d hd)).mp h
  have hmotive := ha motive (mem_of_getElem? hm) ρ ctx ctx' mty hρ hmty
  have happ' := applies_ren hclosed hidx hρ ha happ
  rw [((hclosed.ind i d hd).scoped.recursorType scopeRule_closed lm).ren nofun] at happ'
  rw [ren_apply]
  refine (infers_elim_simple hd (hidx i d hd)).mpr ⟨motive.ren ρ, mty.ren ρ, a.ren ρ,
    cod.ren (upRen ρ), lm, ?_, hmotive, hpi.ren hclosed hidx ctx' ρ,
    hsort.ren hclosed hidx ctx' (upRen ρ), happ'⟩
  rw [List.getElem?_map, hm]
  rfl

end

/-- Weakening: a renaming that respects the contexts keeps types. -/
theorem weakens (hclosed : ClosedEnv env) (hidx : NonIndexed env) (t : Tm) : Weakens B env t := by
  induction hs : sizeOf t using Nat.strong_induction_on generalizing t with
  | _ s ih =>
    subst hs
    intro ρ ctx ctx' T hρ h
    by_cases hhead : ∃ i, t.head = .elim i
    · obtain ⟨i, hi⟩ := hhead
      rw [← apply_head_args t, hi] at h ⊢
      exact infers_elim_ren hclosed hidx hρ
        (fun a ha => ih (sizeOf a) (sizeOf_lt_of_mem_args ha) a rfl) h
    · have hne : ∀ i, t.head ≠ .elim i := fun i hi => hhead ⟨i, hi⟩
      cases t with
      | var i =>
        obtain ⟨a, ha, rfl⟩ := infers_var.mp h
        obtain ⟨a', ha', he⟩ := hρ i a ha
        refine infers_var.mpr ⟨a', ha', ?_⟩
        rw [shift_zero_eq_ren, shift_zero_eq_ren, he]
      | sort l =>
        obtain ⟨l', hl, rfl⟩ := infers_sort.mp h
        exact infers_sort.mpr ⟨l', hl, rfl⟩
      | pi a b =>
        obtain ⟨i, j, ha, hb, rfl⟩ := infers_pi.mp h
        have iha : Weakens B env a := ih _ (by simp only [Tm.pi.sizeOf_spec]; omega) a rfl
        have ihb : Weakens B env b := ih _ (by simp only [Tm.pi.sizeOf_spec]; omega) b rfl
        exact infers_pi.mpr ⟨i, j, iha.hasSort hclosed hidx hρ ha,
          ihb.hasSort hclosed hidx (hρ.up a) hb, rfl⟩
      | lam a b =>
        obtain ⟨i, bt, ha, hb, rfl⟩ := infers_lam.mp h
        have iha : Weakens B env a := ih _ (by simp only [Tm.lam.sizeOf_spec]; omega) a rfl
        have ihb : Weakens B env b := ih _ (by simp only [Tm.lam.sizeOf_spec]; omega) b rfl
        exact infers_lam.mpr ⟨i, bt.ren (upRen ρ), iha.hasSort hclosed hidx hρ ha,
          ihb _ _ _ _ (hρ.up a) hb, rfl⟩
      | app f x =>
        have hf : ∀ i, f.head ≠ .elim i := hne
        obtain ⟨ft, dom, cod, hft, hpi, hx, rfl⟩ := (infers_app hf).mp h
        have ihf : Weakens B env f := ih _ (by simp only [Tm.app.sizeOf_spec]; omega) f rfl
        have ihx : Weakens B env x := ih _ (by simp only [Tm.app.sizeOf_spec]; omega) x rfl
        have hf' : ∀ i, (f.ren ρ).head ≠ .elim i := by
          intro i hi
          rw [head_ren] at hi
          have hself := hf i
          generalize f.head = g at hi hself
          cases g with
          | elim j => exact hself hi
          | _ => cases hi
        exact (infers_app hf').mpr ⟨ft.ren ρ, dom.ren ρ, cod.ren (upRen ρ),
          ihf ρ ctx ctx' ft hρ hft, hpi.ren hclosed hidx ctx' ρ,
          ihx.checks hclosed hidx hρ hx, ren_subst_zero cod x ρ⟩
      | const c =>
        obtain ⟨body, hc⟩ := infers_const.mp h
        refine infers_const.mpr ⟨body, ?_⟩
        rw [(hclosed.const c T body hc).1.ren nofun]
        exact hc
      | ind i =>
        obtain ⟨d, hd, rfl⟩ := infers_ind.mp h
        exact infers_ind.mpr ⟨d, hd, ((hclosed.ind i d hd).scoped.indType scopeRule_closed).ren nofun⟩
      | ctor i k =>
        obtain ⟨d, c, hd, hc, rfl⟩ := infers_ctor.mp h
        exact infers_ctor.mpr ⟨d, c, hd, hc,
          ((hclosed.ind i d hd).scoped.ctorType scopeRule_closed (fun _ => rfl)
            (mem_of_find?_eq_some hc)).ren nofun⟩
      | elim i => exact absurd rfl (hne i)

end Judgments

end Dnet.Kernel
