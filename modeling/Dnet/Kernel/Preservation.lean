import Dnet.Kernel.MatchTyping

/-!
# Types along weak-head reduction

A recursor passes an induction hypothesis of the wrong type for a field of type `A → I`, so head
steps do not keep types in general (`absurdProof_not_preserved`). They do for simply typed terms
(`whnf_preserves`): families without parameters and indices, whose recursive fields have the type
of the family itself, and recursors at a constant motive. The types that the kernel infers differ
from simple types (`HasTy`) only by motives that are still applied (`Denotes`).
-/

namespace Dnet.Kernel

open List

/-! ## Simple types -/

/-- Products of declared families, without dependence. -/
inductive SimpleTy (env : GlobalEnv) : Tm → Prop where
  | ind {i : IndId} {d : Inductive} : env.inds i = some d → SimpleTy env (.ind i)
  | pi {A S : Tm} : SimpleTy env A → SimpleTy env S → SimpleTy env (.pi A S)

/-- A family without parameters and indices, with simple field types; a field whose type
ends in the family is the family. -/
structure SimpleInd (env : GlobalEnv) (i : IndId) (d : Inductive) : Prop where
  params : d.params = []
  indices : d.indices = []
  numbered : d.Numbered
  fields : ∀ c ∈ d.ctors, ∀ ty ∈ c.args, SimpleTy env ty
  direct : ∀ c ∈ d.ctors, ∀ ty ∈ c.args, headIsInd ty i = true → ty = .ind i

def SimpleEnv (env : GlobalEnv) : Prop := ∀ i d, env.inds i = some d → SimpleInd env i d

/-- Terms with simple domains, and recursors at a constant motive only. -/
inductive Plain (env : GlobalEnv) : Tm → Prop where
  | var (i : Nat) : Plain env (.var i)
  | lam {A b : Tm} : SimpleTy env A → Plain env b → Plain env (.lam A b)
  | app {f x : Tm} : Plain env f → Plain env x → Plain env (.app f x)
  | ctor (i : IndId) (k : Nat) : Plain env (.ctor i k)
  | elim {i : IndId} {A : Tm} : SimpleTy env (.ind i) → SimpleTy env A →
      Plain env (.app (.elim i) (.lam (.ind i) A))

section Simple

variable {B : Build} {env : GlobalEnv} {ctx : Ctx} {A S : Tm}

section

variable (h : SimpleTy env A)
include h

theorem SimpleTy.closed (n : Nat) : A.Closed n := by
  induction h generalizing n with
  | ind _ => rfl
  | pi _ _ ihA ihS => exact Bool.or_eq_false_iff.mpr ⟨ihA n, ihS (n + 1)⟩

theorem SimpleTy.inst (σ : Nat → Tm) : A.inst σ = A := (h.closed 0).inst nofun

theorem SimpleTy.ren (ρ : Nat → Nat) : A.ren ρ = A := (h.closed 0).ren nofun

theorem SimpleTy.subst_zero (a : Tm) : subst A 0 a = A := by
  rw [subst_zero_eq_inst]
  exact h.inst _

theorem SimpleTy.shift_zero (n : Nat) : shift A (n : Int) 0 = A := by
  rw [shift_zero_eq_ren]
  exact h.ren _

theorem SimpleTy.args : A.args = [] := by
  cases h <;> rfl

theorem SimpleTy.indIndices (i : IndId) : indIndices A i 0 = [] := by
  unfold Kernel.indIndices
  rw [h.args]
  split <;> rfl

theorem SimpleTy.inert : A.Inert := by
  cases h <;> trivial

theorem SimpleTy.nfs : Nfs B env ctx A A := by
  induction h generalizing ctx with
  | ind _ => exact nfs_ind.mpr rfl
  | pi _ _ ihA ihS => exact nfs_pi.mpr ⟨_, _, ihA, ihS, rfl⟩

end

theorem SimpleTy.infers_sort (henv : SimpleEnv env) (h : SimpleTy env A) :
    ∃ l, Infers B env ctx A (.sort l) := by
  induction h generalizing ctx with
  | @ind i d hd =>
    have hs := henv i d hd
    refine ⟨d.sort, infers_ind.mpr ⟨d, hd, ?_⟩⟩
    rw [indType, hs.params, hs.indices]
    rfl
  | pi _ _ ihA ihS =>
    obtain ⟨l, hl⟩ := @ihA ctx
    obtain ⟨m, hm⟩ := ihS
    have hin : ∀ l, (Tm.sort l).Inert := fun _ => trivial
    exact ⟨max l m, infers_pi.mpr ⟨l, m, hasSort_iff.mpr ⟨_, hl, (hin l).whnfs⟩,
      hasSort_iff.mpr ⟨_, hm, (hin m).whnfs⟩, rfl⟩⟩

theorem SimpleTy.hasSort (henv : SimpleEnv env) (h : SimpleTy env A) :
    ∃ l, HasSort B env ctx A l := by
  obtain ⟨l, hl⟩ : ∃ l, Infers B env ctx A (.sort l) := h.infers_sort henv
  have hin : (Tm.sort l).Inert := trivial
  exact ⟨l, hasSort_iff.mpr ⟨_, hl, hin.whnfs⟩⟩

theorem simpleTy_telescope {tele : Telescope} (htele : ∀ ty ∈ tele, SimpleTy env ty)
    (hS : SimpleTy env S) : SimpleTy env (telescope tele S) := by
  induction tele with
  | nil => exact hS
  | cons ty rest ih =>
    have ⟨hty, hrest⟩ := forall_mem_cons.mp htele
    exact .pi hty (ih hrest)

end Simple

/-! ## The types that the kernel infers -/

/-- The type `T` is the simple type `S`, in which some parts are still a constant motive
applied to a term. -/
inductive Denotes (env : GlobalEnv) : Tm → Tm → Prop where
  | ind (i : IndId) : Denotes env (.ind i) (.ind i)
  | pi {a b A S : Tm} : Denotes env a A → Denotes env b S → Denotes env (.pi a b) (.pi A S)
  | motive {d A x : Tm} : SimpleTy env A → Denotes env (.app (.lam d A) x) A

section Types

variable {B : Build} {env : GlobalEnv} {ctx : Ctx} {T T' A S S' : Tm}

theorem SimpleTy.denotes (h : SimpleTy env A) : Denotes env A A := by
  induction h with
  | ind _ => exact .ind _
  | pi _ _ ihA ihS => exact .pi ihA ihS

theorem Denotes.inst (h : Denotes env T S) (σ : Nat → Tm) : Denotes env (T.inst σ) S := by
  induction h generalizing σ with
  | ind i => exact .ind i
  | pi _ _ iha ihb => exact .pi (iha σ) (ihb _)
  | motive hA =>
    rw [Tm.inst, Tm.inst, hA.inst]
    exact .motive hA

theorem Denotes.subst_zero (h : Denotes env T S) (a : Tm) : Denotes env (subst T 0 a) S := by
  rw [subst_zero_eq_inst]
  exact h.inst _

theorem denotes_telescope {tele tele' : Telescope} (htele : List.Forall₂ (Denotes env) tele tele')
    (h : Denotes env T S) : Denotes env (telescope tele T) (telescope tele' S) := by
  induction htele with
  | nil => exact h
  | cons hty _ ih => exact .pi hty ih

theorem whnfs_motive (hA : SimpleTy env A) (d x : Tm) : Whnfs B env ctx (.app (.lam d A) x) A := by
  have hstep : Whnfs B env ctx (apply (subst A 0 x) []) A := by
    rw [apply_nil, hA.subst_zero]
    exact hA.inert.whnfs
  exact whnfs_beta.mpr hstep

theorem Denotes.nfs (h : Denotes env T S) : Nfs B env ctx T S := by
  induction h generalizing ctx with
  | ind i => exact nfs_ind.mpr rfl
  | pi _ _ iha ihb => exact nfs_pi.mpr ⟨_, _, iha, ihb, rfl⟩
  | @motive d A x hA =>
    have hnf : Nfs B env ctx A A := hA.nfs
    obtain ⟨w, hw, hv⟩ := nfs_iff.mp hnf
    cases (whnfs_inert hA.inert).mp hw
    exact nfs_iff.mpr ⟨A, whnfs_motive hA d x, hv⟩

theorem Denotes.whnfs_pi (h : Denotes env T (.pi A S)) :
    ∃ dom cod, Whnfs B env ctx T (.pi dom cod) ∧ Denotes env dom A ∧ Denotes env cod S := by
  cases h with
  | @pi a b _ _ ha hb =>
    have hin : (Tm.pi a b).Inert := trivial
    exact ⟨a, b, hin.whnfs, ha, hb⟩
  | motive hAS =>
    refine ⟨A, S, whnfs_motive hAS _ _, ?_⟩
    cases hAS with
    | pi hA hS => exact ⟨hA.denotes, hS.denotes⟩

theorem Denotes.converts (h : Denotes env T S) (h' : Denotes env T' S) : Converts B env ctx T T' :=
  converts_iff.mpr ⟨S, h.nfs, h'.nfs⟩

theorem Denotes.unique (h : Denotes env T S) (h' : Denotes env T' S')
    (hconv : Converts B env ctx T T') : S = S' := by
  obtain ⟨v, hv, hv'⟩ := converts_iff.mp hconv
  exact (h.nfs.unique hv).trans (hv'.unique h'.nfs)

end Types

/-! ## Simply typed terms -/

/-- The type of the minor premise of a constructor, at the constant motive `A`. -/
def minorTy (i : IndId) (A : Tm) (c : CtorDecl) : Tm :=
  telescope c.args (telescope ((recFields c.args i).map fun _ => A) A)

/-- The type of the recursor of `d` at the constant motive `A`. -/
def recTy (i : IndId) (d : Inductive) (A : Tm) : Tm :=
  telescope (d.ctors.map (minorTy i A)) (.pi (.ind i) A)

inductive HasTy (env : GlobalEnv) : Ctx → Tm → Tm → Prop where
  | var {Γ : Ctx} {i : Nat} {A : Tm} : Γ[i]? = some A → HasTy env Γ (.var i) A
  | lam {Γ : Ctx} {A b S : Tm} : SimpleTy env A → HasTy env (A :: Γ) b S →
      HasTy env Γ (.lam A b) (.pi A S)
  | app {Γ : Ctx} {f x A S : Tm} : HasTy env Γ f (.pi A S) → HasTy env Γ x A →
      HasTy env Γ (.app f x) S
  | ctor {Γ : Ctx} {i : IndId} {k : Nat} {d : Inductive} {c : CtorDecl} :
      env.inds i = some d → d.ctors[k]? = some c →
      HasTy env Γ (.ctor i k) (telescope c.args (.ind i))
  | elim {Γ : Ctx} {i : IndId} {d : Inductive} {A : Tm} : env.inds i = some d → SimpleTy env A →
      HasTy env Γ (.app (.elim i) (.lam (.ind i) A)) (recTy i d A)

/-- Arguments for a function of type `F`, with the result type `S`. -/
inductive ArgsTy (env : GlobalEnv) (Γ : Ctx) : List Tm → Tm → Tm → Prop where
  | nil {S : Tm} : ArgsTy env Γ [] S S
  | cons {a A F S : Tm} {args : List Tm} : HasTy env Γ a A → ArgsTy env Γ args F S →
      ArgsTy env Γ (a :: args) (.pi A F) S

section Typing

variable {env : GlobalEnv} {Γ Δ : Ctx} {t a b A F S : Tm} {args : List Tm} {tele : Telescope}

theorem HasTy.plain (h : HasTy env Γ t S) : Plain env t := by
  induction h with
  | var _ => exact .var _
  | lam hA _ ih => exact .lam hA ih
  | app _ _ ihf ihx => exact .app ihf ihx
  | ctor _ _ => exact .ctor _ _
  | elim hd hA => exact .elim (.ind hd) hA

theorem HasTy.ren {ρ : Nat → Nat} (h : HasTy env Γ t S)
    (hρ : ∀ (i : Nat) (A : Tm), Γ[i]? = some A → Δ[ρ i]? = some A) : HasTy env Δ (t.ren ρ) S := by
  induction h generalizing Δ ρ with
  | var hi => exact .var (hρ _ _ hi)
  | lam hA _ ih =>
    rw [Tm.ren, hA.ren]
    refine .lam hA (ih fun i A' hi => ?_)
    cases i with
    | zero => exact hi
    | succ i => exact hρ i A' hi
  | app _ _ ihf ihx => exact .app (ihf hρ) (ihx hρ)
  | ctor hd hc => exact .ctor hd hc
  | elim hd hA =>
    rw [Tm.ren, Tm.ren, Tm.ren, Tm.ren, hA.ren]
    exact .elim hd hA

theorem HasTy.inst {σ : Nat → Tm} (h : HasTy env Γ t S)
    (hσ : ∀ (i : Nat) (A : Tm), Γ[i]? = some A → HasTy env Δ (σ i) A) :
    HasTy env Δ (t.inst σ) S := by
  induction h generalizing Δ σ with
  | var hi => exact hσ _ _ hi
  | lam hA _ ih =>
    rw [Tm.inst, hA.inst]
    refine .lam hA (ih fun i A' hi => ?_)
    cases i with
    | zero => exact .var hi
    | succ i => exact (hσ i A' hi).ren fun _ _ hj => hj
  | app _ _ ihf ihx => exact .app (ihf hσ) (ihx hσ)
  | ctor hd hc => exact .ctor hd hc
  | elim hd hA =>
    rw [Tm.inst, Tm.inst, Tm.inst, Tm.inst, hA.inst]
    exact .elim hd hA

theorem HasTy.subst_zero (hb : HasTy env (A :: Γ) b S) (ha : HasTy env Γ a A) :
    HasTy env Γ (subst b 0 a) S := by
  rw [subst_zero_eq_inst]
  refine hb.inst fun i A' hi => ?_
  cases i with
  | zero =>
    cases hi
    exact ha
  | succ i => exact .var hi

theorem HasTy.apply (hh : HasTy env Γ t F) (hargs : ArgsTy env Γ args F S) :
    HasTy env Γ (apply t args) S := by
  induction hargs generalizing t with
  | nil => exact hh
  | cons ha _ ih => exact ih (.app hh ha)

/-- A typed spine, whose head is not the recursor itself: that one is typed with its motive. -/
theorem HasTy.of_apply (hne : ∀ i, t ≠ .elim i) (h : HasTy env Γ (Kernel.apply t args) S) :
    ∃ F, HasTy env Γ t F ∧ ArgsTy env Γ args F S := by
  induction args generalizing t with
  | nil => exact ⟨S, h, .nil⟩
  | cons a args ih =>
    obtain ⟨F, hF, hargs⟩ := ih (fun _ he => by cases he) h
    cases hF with
    | app hf hx => exact ⟨_, hf, .cons hx hargs⟩
    | @elim _ i d A _ _ => exact absurd rfl (hne i)

theorem argsTy_append {as bs : List Tm} (has : ArgsTy env Γ as F A) (hbs : ArgsTy env Γ bs A S) :
    ArgsTy env Γ (as ++ bs) F S := by
  induction has with
  | nil => exact hbs
  | cons ha _ ih => exact .cons ha (ih hbs)

theorem argsTy_telescope (h : List.Forall₂ (HasTy env Γ) args tele) :
    ArgsTy env Γ args (telescope tele S) S := by
  induction h with
  | nil => exact .nil
  | cons ha _ ih => exact .cons ha ih

/-- Arguments against a telescope fill a first part of it, or all of it. -/
theorem ArgsTy.split (h : ArgsTy env Γ args (telescope tele F) S) :
    (args.length < tele.length ∧ ∃ rest, rest ≠ [] ∧ S = telescope rest F) ∨
      ∃ as bs, args = as ++ bs ∧ List.Forall₂ (HasTy env Γ) as tele ∧ ArgsTy env Γ bs F S := by
  induction tele generalizing args with
  | nil => exact .inr ⟨[], args, rfl, .nil, h⟩
  | cons ty tele ih =>
    cases h with
    | nil => exact .inl ⟨Nat.zero_lt_succ _, ty :: tele, cons_ne_nil _ _, rfl⟩
    | cons ha hrest =>
      rcases ih hrest with ⟨hlen, hpart⟩ | ⟨as, bs, rfl, has, hbs⟩
      · exact .inl ⟨Nat.succ_lt_succ hlen, hpart⟩
      · exact .inr ⟨_ :: as, bs, rfl, .cons ha has, hbs⟩

end Typing

/-! ## The typing relation is the kernel's -/

section Kernel

variable {B : Build} {env : GlobalEnv} {ctx : Ctx} {t f x T U A S : Tm} {i : IndId} {d : Inductive}
  {as bs : List Tm} {Q : GlobalEnv → Admission → Prop}

theorem applies_append : Applies B env ctx (as ++ bs) U T ↔
    ∃ F, Applies B env ctx as U F ∧ Applies B env ctx bs F T := by
  induction as generalizing U with
  | nil =>
    simp only [nil_append, applies_nil]
    exact ⟨fun h => ⟨U, rfl, h⟩, by rintro ⟨_, rfl, h⟩; exact h⟩
  | cons a as ih =>
    simp only [cons_append, applies_cons, ih]
    constructor
    · rintro ⟨dom, cod, hpi, ha, F, has, hbs⟩
      exact ⟨F, ⟨dom, cod, hpi, ha, has⟩, hbs⟩
    · rintro ⟨F, ⟨dom, cod, hpi, ha, has⟩, hbs⟩
      exact ⟨dom, cod, hpi, ha, F, has, hbs⟩

theorem Plain.head_elim (h : Plain env t) (hh : t.head = .elim i) :
    t.args ≠ [] ∧ SimpleTy env (.ind i) := by
  induction h with
  | app _ _ ihf _ => exact ⟨by simp [Tm.args], (ihf hh).2⟩
  | elim hi _ =>
    cases hh
    exact ⟨by simp [Tm.args], hi⟩
  | _ => cases hh

/-- The rule of application holds along the spine of a recursor with a motive, too. -/
theorem infers_app_plain (henv : SimpleEnv env) (hf : Plain env f) : Infers B env ctx (.app f x) T ↔
      ∃ ft dom cod, Infers B env ctx f ft ∧ Whnfs B env ctx ft (.pi dom cod) ∧
        Checks B env ctx x dom ∧ T = subst cod 0 x := by
  by_cases hh : ∃ i, f.head = .elim i
  · obtain ⟨i, hh⟩ := hh
    obtain ⟨hne, hi⟩ := hf.head_elim hh
    cases hi with
    | @ind _ d hd =>
      have hs := henv i d hd
      have hspine : f = apply (.elim i) f.args := by rw [← hh, apply_head_args]
      generalize f.args = args at hne hspine
      subst hspine
      have hmotive : (args ++ [x])[d.params.length]? = args[d.params.length]? := by
        rw [hs.params]
        exact List.getElem?_append_left (length_pos_of_ne_nil hne)
      rw [← apply_concat]
      simp only [infers_elim_simple hd hs.indices, hmotive, applies_append, applies_cons,
        applies_nil]
      constructor
      · rintro ⟨m, mty, a, cod, lm, hm, hmty, hpi, hlm, F, hF, dom', cod', hpi', hx, rfl⟩
        exact ⟨F, dom', cod', ⟨m, mty, a, cod, lm, hm, hmty, hpi, hlm, hF⟩, hpi', hx, rfl⟩
      · rintro ⟨F, dom', cod', ⟨m, mty, a, cod, lm, hm, hmty, hpi, hlm, hF⟩, hpi', hx, rfl⟩
        exact ⟨m, mty, a, cod, lm, hm, hmty, hpi, hlm, F, hF, dom', cod', hpi', hx, rfl⟩
  · exact infers_app fun i hi => hh ⟨i, hi⟩

/-- The minor premise of the recursor at a constant motive. -/
theorem denotes_minor {k : Nat} {c : CtorDecl} {σ : Nat → Tm} (hs : SimpleInd env i d)
    (hid : d.id = i) (hret : c.retIndices = []) (hc : d.ctors[k]? = some c) (hA : SimpleTy env A)
    (hσ : σ k = .lam (.ind i) A) : Denotes env ((minorType d k).inst σ) (minorTy i A c) := by
  have hmem := mem_of_getElem? hc
  have hfields := hs.fields c hmem
  have hmotive : ∀ n : Nat, shift (.lam (.ind i) A) (n : Int) 0 = .lam (.ind i) A := fun n => by
    rw [shift_zero_eq_ren, Tm.ren, Tm.ren, hA.ren]
  have hidxs : ∀ q ∈ recFields c.args d.id, indIndices (c.args.getD q (.sort 0)) d.id 0 = [] := by
    intro q hq
    have hlt := mem_range.mp (mem_of_mem_filter hq)
    rw [getD_eq_getElem?_getD, List.getElem?_eq_getElem hlt]
    exact (hfields _ (getElem_mem hlt)).indIndices _
  have hclosed : ClosedTele 0 c.args := closedTele_iff.mpr fun q ty hq =>
    (hfields ty (mem_of_getElem? hq)).closed _
  rw [minorType_inst hc hs.params hclosed hret hidxs hσ, hid]
  refine denotes_telescope (forall₂_same.mpr fun ty hty => (hfields ty hty).denotes)
    (denotes_telescope ?_ ?_)
  · refine forall₂_iff_getElem?.mpr ⟨by simp [hypTele], fun j a b ha hb => ?_⟩
    simp only [hypTele, List.getElem?_map, List.getElem?_zipIdx, Option.map_eq_some_iff] at ha hb
    obtain ⟨_, ⟨q, _, rfl⟩, rfl⟩ := ha
    obtain ⟨_, _, rfl⟩ := hb
    rw [hypFor, hmotive]
    exact .motive hA
  · rw [armType, hmotive]
    exact .motive hA

theorem telescope_append (tele tele' : Telescope) (b : Tm) :
    telescope (tele ++ tele') b = telescope tele (telescope tele' b) := foldr_append

theorem denotes_recursor (hB : Built B Q env)
    (henv : SimpleEnv env) (hd : env.inds i = some d) (hA : SimpleTy env A) :
    Denotes env (subst (telescope ((List.range d.ctors.length).map (minorType d) ++ [.ind i])
      (.app (.var (1 + d.ctors.length)) (.var 0))) 0 (.lam (.ind i) A)) (recTy i d A) := by
  have hs := henv i d hd
  have hmotive : ∀ n, upN n (consSub (.lam (.ind i) A) .var) n = .lam (.ind i) A := fun n => by
    have hn := upN_add n (consSub (.lam (.ind i) A) .var) 0
    rw [Nat.zero_add] at hn
    rw [hn]
    show Tm.lam (.ind i) (A.ren _) = _
    rw [hA.ren]
  have hrec : recTy i d A = telescope (d.ctors.map (minorTy i A) ++ [.ind i]) A := by
    rw [telescope_append]
    rfl
  rw [subst_zero_eq_inst, ← upN_zero (consSub _ _), inst_telescope, hrec]
  refine denotes_telescope (forall₂_iff_getElem?.mpr ⟨by simp, fun k a b ha hb => ?_⟩) ?_
  · rcases Nat.lt_trichotomy k d.ctors.length with hlt | rfl | hgt
    · have hc : d.ctors[k]? = some d.ctors[k] := List.getElem?_eq_getElem hlt
      have hret := hB.retIndices_nil hd hs.indices (getElem_mem hlt)
      rw [List.getElem?_append_left (by simpa using hlt), List.getElem?_map, hc] at hb
      cases hb
      rw [List.getElem?_map, List.getElem?_zipIdx, List.getElem?_append_left (by simpa using hlt),
        List.getElem?_map, List.getElem?_range hlt] at ha
      cases ha
      exact denotes_minor hs (hB.keyed hd) hret hc hA (by rw [Nat.zero_add]; exact hmotive k)
    · rw [List.getElem?_append_right (by simp)] at hb
      rw [List.getElem?_map, List.getElem?_zipIdx, List.getElem?_append_right (by simp)] at ha
      simp only [length_map, length_range, Nat.sub_self, List.getElem?_cons_zero,
        Option.map_some, Option.some.injEq] at ha hb
      subst ha hb
      exact .ind i
    · rw [List.getElem?_eq_none (by simp; omega)] at hb
      cases hb
  · have hlen : 1 + d.ctors.length =
        0 + ((List.range d.ctors.length).map (minorType d) ++ [Tm.ind i]).length := by
      simp
      omega
    rw [hlen, Tm.inst, Tm.inst, hmotive]
    exact .motive hA

theorem infers_elim_motive (hB : Built B Q env)
    (henv : SimpleEnv env) (hd : env.inds i = some d) (hA : SimpleTy env A) :
    ∃ T, Infers B env ctx (.app (.elim i) (.lam (.ind i) A)) T ∧ Denotes env T (recTy i d A) := by
  have hs := henv i d hd
  have hid : d.id = i := hB.keyed hd
  obtain ⟨l, hl⟩ : ∃ l, Infers B env (.ind i :: ctx) A (.sort l) := hA.infers_sort henv
  obtain ⟨s, hsort⟩ : ∃ s, HasSort B env ctx (.ind i) s := (SimpleTy.ind hd).hasSort henv
  have hlam : Infers B env ctx (.lam (.ind i) A) (.pi (.ind i) (.sort l)) :=
    infers_lam.mpr ⟨s, _, hsort, hl, rfl⟩
  have hpi : (Tm.pi (.ind i) (.sort l)).Inert := trivial
  have hin : (Tm.sort l).Inert := trivial
  have hcheck : Checks B env ctx (.lam (.ind i) A) (.pi (.ind i) (.sort l)) := by
    refine checks_iff.mpr ⟨_, hlam, converts_iff.mpr ⟨.pi (.ind i) (.sort l), ?_, ?_⟩⟩ <;>
      exact nfs_pi.mpr ⟨_, _, nfs_ind.mpr rfl, nfs_sort.mpr rfl, rfl⟩
  let rest : Tm := telescope ((List.range d.ctors.length).map (minorType d) ++ [.ind i])
    (.app (.var (1 + d.ctors.length)) (.var 0))
  have hrec : (Tm.pi (.pi (.ind i) (.sort l)) rest).Inert := trivial
  have happ : Applies B env ctx [.lam (.ind i) A] (recursorType d l)
      (subst rest 0 (.lam (.ind i) A)) := by
    rw [recursorType_simple hs.params hs.indices, hid]
    exact applies_cons.mpr ⟨_, _, hrec.whnfs, hcheck, applies_nil.mpr rfl⟩
  have hmotive : [Tm.lam (.ind i) A][d.params.length]? = some (.lam (.ind i) A) := by
    rw [hs.params]
    rfl
  exact ⟨_, (infers_elim_simple hd hs.indices).mpr
    ⟨_, _, _, _, l, hmotive, hlam, hpi.whnfs, hin.whnfs, happ⟩, denotes_recursor hB henv hd hA⟩

theorem HasTy.infers (hB : Built B Q env)
    (henv : SimpleEnv env) (hctx : ∀ A ∈ ctx, SimpleTy env A) (h : HasTy env ctx t S) :
    ∃ T, Infers B env ctx t T ∧ Denotes env T S := by
  induction h with
  | @var Γ i A hi =>
    have hA := hctx A (mem_of_getElem? hi)
    exact ⟨A, infers_var.mpr ⟨A, hi, (hA.shift_zero _).symm⟩, hA.denotes⟩
  | lam hA _ ih =>
    obtain ⟨l, hl⟩ : ∃ l, HasSort B env _ _ l := hA.hasSort henv
    obtain ⟨T, hT, hden⟩ := ih (forall_mem_cons.mpr ⟨hA, hctx⟩)
    exact ⟨_, infers_lam.mpr ⟨l, T, hl, hT, rfl⟩, .pi hA.denotes hden⟩
  | app hf _ ihf ihx =>
    obtain ⟨F, hF, hdenF⟩ := ihf hctx
    obtain ⟨X, hX, hdenX⟩ := ihx hctx
    obtain ⟨dom, cod, hpi, hdom, hcod⟩ := hdenF.whnfs_pi
    have hcheck := checks_iff.mpr ⟨X, hX, hdenX.converts hdom⟩
    exact ⟨_, (infers_app_plain henv hf.plain).mpr ⟨F, dom, cod, hF, hpi, hcheck, rfl⟩,
      hcod.subst_zero _⟩
  | @ctor Γ i k d c hd hc =>
    have hs := henv i d hd
    have hmem := mem_of_getElem? hc
    have hfind := find_ctor hs.numbered hmem
    rw [hs.numbered k c hc] at hfind
    have hty : ctorType i d c = telescope c.args (.ind i) := by
      rw [ctorType, ctorRet, hs.params, hB.retIndices_nil hd hs.indices hmem]
      rfl
    exact ⟨_, infers_ctor.mpr ⟨d, c, hd, hfind, hty.symm⟩,
      (simpleTy_telescope (hs.fields c hmem) (.ind hd)).denotes⟩
  | elim hd hA => exact infers_elim_motive hB henv hd hA

end Kernel

/-! ## Head steps -/

section Steps

variable {B : Build} {env : GlobalEnv} {ctx : Ctx} {t v A S : Tm} {i : IndId} {d : Inductive}
  {args : List Tm}

/-- What a step of the recursor of a family without parameters and indices does. -/
theorem tryIota_eq_some {K : Calls} {r : Tm} (hd : env.inds i = some d) (hp : d.params = [])
    (hx : d.indices = []) (h : tryIota env K ctx i args = some (some r)) :
    ∃ motive minors s rest scrut k c minor, args = (motive :: minors) ++ s :: rest ∧
      minors.length = d.ctors.length ∧ K.whnf ctx s = some scrut ∧ scrut.head = .ctor i k ∧
      d.ctors[k]? = some c ∧ minors[k]? = some minor ∧
      (scrut.args.length = c.args.length → r = apply minor
        (scrut.args ++ inductionHyps i (motive :: minors) c.args scrut.args ++ rest)) := by
  have hn : 0 + 1 + d.ctors.length + 0 + 1 = d.ctors.length + 2 := by omega
  have hm : 0 + 1 + d.ctors.length = d.ctors.length + 1 := by omega
  unfold tryIota at h
  rw [hd] at h
  dsimp only at h
  rw [hp, hx, length_nil, hn, hm] at h
  split at h
  · cases h
  · next hlen =>
    obtain ⟨pre, s, rest, hargs, hpre⟩ :
        ∃ pre s rest, args = pre ++ s :: rest ∧ pre.length = d.ctors.length + 1 := by
      have hlt : d.ctors.length + 1 < args.length := by omega
      refine ⟨args.take (d.ctors.length + 1), args[d.ctors.length + 1],
        args.drop (d.ctors.length + 2), ?_, length_take_of_le (by omega)⟩
      rw [getElem_cons_drop, take_append_drop]
    obtain ⟨motive, minors, rfl⟩ := exists_cons_of_length_eq_add_one hpre
    have hminors : minors.length = d.ctors.length := Nat.succ.inj hpre
    subst hargs
    have hs : ((motive :: minors) ++ s :: rest).getD (d.ctors.length + 2 - 1) (.sort 0) = s := by
      have hpos : d.ctors.length + 2 - 1 = (motive :: minors).length := by omega
      rw [getD_eq_getElem?_getD, hpos, List.getElem?_append_right (Nat.le_refl _), Nat.sub_self]
      rfl
    have htake : ((motive :: minors) ++ s :: rest).take (d.ctors.length + 1) = motive :: minors :=
      take_left' hpre
    have hdrop : ((motive :: minors) ++ s :: rest).drop (d.ctors.length + 2) = rest := by
      simp [← hminors]
    rw [hs, htake, hdrop] at h
    obtain ⟨scrut, hscrut, h⟩ := Option.bind_eq_some_iff.mp h
    generalize hhead : scrut.head = hd at h
    cases hd with
    | ctor j k =>
      dsimp only at h
      split at h
      · next hj =>
        subst hj
        cases hc : d.ctors[k]? with
        | none => rw [hc] at h; cases h
        | some c =>
          have hk : k < minors.length := hminors ▸ (List.getElem?_eq_some_iff.mp hc).1
          have hminor : ((motive :: minors) ++ s :: rest).getD (0 + 1 + k) (.sort 0) = minors[k] := by
            have hpos : 0 + 1 + k = k + 1 := by omega
            rw [hpos, getD_eq_getElem?_getD, cons_append, List.getElem?_cons_succ,
              List.getElem?_append_left hk, List.getElem?_eq_getElem hk]
            rfl
          refine ⟨motive, minors, s, rest, scrut, k, c, minors[k], rfl, hminors, hscrut, hhead, hc,
            List.getElem?_eq_getElem hk, fun hfields => ?_⟩
          rw [hc] at h
          dsimp only at h
          rw [hminor, drop_zero, addHyps_simple c.args 0 _ (by omega)] at h
          simp only [Option.bind_eq_bind, Option.bind_some, Nat.add_zero, Option.some.injEq] at h
          rw [← h, apply_append, apply_append]
          rfl
      · cases h
    | _ => cases h

/-- A term of the type of a family that starts with a constructor has all its fields. -/
theorem HasTy.fields {k : Nat} {c : CtorDecl} (hd : env.inds i = some d)
    (hc : d.ctors[k]? = some c) (hhead : t.head = .ctor i k) (h : HasTy env ctx t (.ind i)) :
    List.Forall₂ (HasTy env ctx) t.args c.args := by
  rw [← apply_head_args t, hhead] at h
  obtain ⟨F, hF, hargs⟩ := h.of_apply fun _ he => by cases he
  cases hF with
  | ctor hd' hc' =>
    cases hd.symm.trans hd'
    cases hc.symm.trans hc'
    rcases hargs.split with ⟨-, rest, hne, he⟩ | ⟨as, bs, he, has, hbs⟩
    · obtain ⟨ty, rest, rfl⟩ := exists_cons_of_ne_nil hne
      cases he
    · cases hbs with
      | nil =>
        rw [append_nil] at he
        rwa [he]

/-- The hypotheses that the recursor passes have the type of the motive. -/
theorem hasTy_inductionHyps {pre fields : List Tm} {c : CtorDecl} (hs : SimpleInd env i d)
    (hmem : c ∈ d.ctors) (hpre : HasTy env ctx (apply (.elim i) pre) (.pi (.ind i) A))
    (hfields : List.Forall₂ (HasTy env ctx) fields c.args) :
    List.Forall₂ (HasTy env ctx) (inductionHyps i pre c.args fields)
      ((recFields c.args i).map fun _ => A) := by
  unfold inductionHyps
  rw [forall₂_map_left_iff, forall₂_map_right_iff]
  refine forall₂_same.mpr fun q hq => .app hpre ?_
  obtain ⟨hrange, hrec⟩ := mem_filter.mp hq
  have hlt := mem_range.mp hrange
  have hlt' : q < fields.length := hfields.length_eq ▸ hlt
  rw [getD_eq_getElem?_getD, List.getElem?_eq_getElem hlt] at hrec
  have hty := hs.direct c hmem _ (getElem_mem hlt) hrec
  rw [getD_eq_getElem?_getD, List.getElem?_eq_getElem hlt', ← hty]
  exact (forall₂_iff_getElem?.mp hfields).2 q _ _ (List.getElem?_eq_getElem hlt')
    (List.getElem?_eq_getElem hlt)

theorem HasTy.iota {K : Calls} {r : Tm} (henv : SimpleEnv env)
    (hK : ∀ t v S, HasTy env ctx t S → K.whnf ctx t = some v → HasTy env ctx v S)
    (hhead : t.head = .elim i) (h : HasTy env ctx t S)
    (hr : tryIota env K ctx i t.args = some (some r)) : HasTy env ctx r S := by
  rw [← apply_head_args t, hhead] at h
  generalize t.args = args at h hr
  cases args with
  | nil => cases h
  | cons motive args =>
    obtain ⟨F, hF, hargs⟩ := HasTy.of_apply (t := .app (.elim i) motive) (fun _ he => by cases he) h
    cases hF with
    | app hf _ => cases hf
    | @elim _ _ d A hd hA =>
      have hs := henv i d hd
      obtain ⟨_, minors, s, rest, scrut, k, c, minor, he, hn, hscrut, hctor, hc, hk, hres⟩ :=
        tryIota_eq_some hd hs.params hs.indices hr
      obtain ⟨rfl, rfl⟩ : Tm.lam (.ind i) A = _ ∧ args = minors ++ s :: rest := List.cons.inj he
      rcases hargs.split with ⟨hshort, -⟩ | ⟨as, bs, he, has, hbs⟩
      · rw [length_append, length_cons, length_map] at hshort
        omega
      have hlen : minors.length = as.length := by rw [has.length_eq, length_map, hn]
      obtain ⟨rfl, rfl⟩ := append_inj he hlen
      cases hbs with
      | cons hscrutTy hrest =>
        have hmem := mem_of_getElem? hc
        have hfields := (hK _ _ _ hscrutTy hscrut).fields hd hc hctor
        have hpre : HasTy env ctx (Kernel.apply (.elim i) (.lam (.ind i) A :: minors))
            (.pi (.ind i) A) :=
          HasTy.apply (t := .app (.elim i) (.lam (.ind i) A)) (.elim hd hA) (argsTy_telescope has)
        have hminor : HasTy env ctx minor (minorTy i A c) :=
          (forall₂_iff_getElem?.mp has).2 k minor _ hk (by rw [List.getElem?_map, hc]; rfl)
        rw [hres hfields.length_eq]
        exact hminor.apply (argsTy_append (argsTy_append (argsTy_telescope hfields)
          (argsTy_telescope (hasTy_inductionHyps hs hmem hpre hfields))) hrest)

/-- Weak-head reduction keeps simple types. -/
theorem HasTy.whnf (henv : SimpleEnv env) (n : Nat) (h : HasTy env ctx t S)
    (hv : (run B env n).whnf ctx t = some v) : HasTy env ctx v S := by
  induction n generalizing t v S with
  | zero => cases hv
  | succ n ih =>
    have hspine := apply_head_args t
    rcases whnfTm_cases hv with ⟨A, b, a, rest, hh, ha, hv⟩ | ⟨c, b, hh, -, -⟩ |
      ⟨i, r, hh, hr, hv⟩ | ⟨rfl, -⟩
    · rw [← hspine, hh, ha] at h
      obtain ⟨F, hF, hargs⟩ := h.of_apply fun _ he => by cases he
      cases hF with
      | lam _ hb =>
        cases hargs with
        | cons ha hrest => exact ih ((hb.subst_zero ha).apply hrest) hv
    · rw [← hspine, hh] at h
      obtain ⟨F, hF, -⟩ := h.of_apply fun _ he => by cases he
      cases hF
    · exact ih (h.iota henv (fun _ _ _ ht => ih ht) hh hr) hv
    · exact h

end Steps

/-- The proof of `Empty` has a type, and its weak-head normal form has none: the hypothesis
that the recursor passes is the recursor at a function. -/
theorem absurdProof_not_preserved : ∃ env t t', ∀ B : Build, Built B onlyInductives env ∧
    (∃ T, Infers B env [] t T) ∧ Whnfs B env [] t t' ∧ ∀ T, ¬ Infers B env [] t' T := by
  refine ⟨branchEnv, absurdProof, takeHyp noChildren, fun B => ?_⟩
  have herr : (run B branchEnv 12).infer [] (takeHyp noChildren) = .error .mismatch := rfl
  exact ⟨branchEnv_built B, ⟨_, absurdProof_infers B⟩, ⟨12, rfl⟩, fun T => not_infers_of_error herr⟩

end Dnet.Kernel
