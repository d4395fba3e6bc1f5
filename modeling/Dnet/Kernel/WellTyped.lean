import Dnet.Kernel.Scope

/-!
# Constants and their stored types

`add_const` tests which constants the body mentions and stores the type unread, so a
constant can have a type that its body does not have (`sortConst_illTyped`). If every constant is
offered with a body that checks at its type, and the declarations name admitted symbols only, then
in every environment reached all constants check (`built_checks`), by `run_agree`.
-/

namespace Dnet.Kernel

open Option (isSome_iff_exists)
open Function
open Lib (Call)

/-! ## Growing environments -/

section Growth

variable {B : Build} {env env' : GlobalEnv}

theorem Tm.Over.mono {S S' : Symbols} (hc : ∀ c, S.consts c → S'.consts c)
    (hi : ∀ i, S.inds i → S'.inds i) {t : Tm} (h : t.Over S) : t.Over S' := by
  induction t with
  | var i => trivial
  | sort l => trivial
  | pi a b iha ihb | lam a b iha ihb | app a b iha ihb => exact ⟨iha h.1, ihb h.2⟩
  | const c => exact hc c h
  | ind i | ctor i k | elim i => exact hi i h

theorem Inductive.Over.mono {S S' : Symbols} (hc : ∀ c, S.consts c → S'.consts c)
    (hi : ∀ i, S.inds i → S'.inds i) {d : Inductive} (h : d.Over S) : d.Over S' where
  id := hi _ h.id
  params t ht := (h.params t ht).mono hc hi
  indices t ht := (h.indices t ht).mono hc hi
  args c hmem t ht := (h.args c hmem t ht).mono hc hi
  retIndices c hmem t ht := (h.retIndices c hmem t ht).mono hc hi

/-- Every declaration names declared symbols only. -/
structure Scoped (env : GlobalEnv) : Prop where
  const_over : ∀ c ty body, env.consts c = some (ty, body) →
    ty.Over env.symbols ∧ body.Over env.symbols
  ind_over : ∀ i d, env.inds i = some d → d.Over env.symbols

/-- `env'` keeps the declarations of `env`. -/
structure Extends (env env' : GlobalEnv) : Prop where
  consts : ∀ c p, env.consts c = some p → env'.consts c = some p
  inds : ∀ i d, env.inds i = some d → env'.inds i = some d

theorem Extends.symbols_consts (h : Extends env env') (c : ConstId)
    (hc : env.symbols.consts c) : env'.symbols.consts c := by
  obtain ⟨p, hp⟩ := isSome_iff_exists.mp hc
  exact isSome_iff_exists.mpr ⟨p, h.consts c p hp⟩

theorem Extends.symbols_inds (h : Extends env env') (i : IndId)
    (hi : env.symbols.inds i) : env'.symbols.inds i := by
  obtain ⟨d, hd⟩ := isSome_iff_exists.mp hi
  exact isSome_iff_exists.mpr ⟨d, h.inds i d hd⟩

theorem Extends.agreeOn (h : Extends env env') (hs : Scoped env) :
    AgreeOn env.symbols env env' where
  consts c hc := by
    obtain ⟨p, hp⟩ := isSome_iff_exists.mp hc
    rw [hp, h.consts c p hp]
  inds i hi := by
    obtain ⟨d, hd⟩ := isSome_iff_exists.mp hi
    rw [hd, h.inds i d hd]
  const_over c ty body _ hc := hs.const_over c ty body hc
  ind_over i d _ hd := hs.ind_over i d hd

/-- A check of declared symbols survives the growth of the environment. -/
theorem Checks.extend (h : Extends env env') (hs : Scoped env) {t ty : Tm}
    (hty : ty.Over env.symbols) (hc : Checks B env [] t ty) : Checks B env' [] t ty := by
  obtain ⟨n, hn⟩ := hc
  obtain ⟨_, hn', -, -⟩ := ((run_agree (B := B) (h.agreeOn hs) (Nat.le_refl n)).check
    overAll_nil (Checks.over ⟨n, hn⟩) hty).1 () hn
  exact ⟨n, hn'⟩

theorem addConst_ok {id : ConstId} {ty body : Tm} (h : addConst env id ty body = (.ok (), env')) :
    env.consts id = none ∧
      env' = { env with consts := Function.update env.consts id (some (ty, body)) } := by
  unfold addConst at h
  split at h
  · cases h
  · next hnew =>
    split at h
    · cases h
    · cases h
      exact ⟨by simpa using hnew, rfl⟩

end Growth

/-! ## Histories of sound admissions -/

/-- The check that `add_const` does not make, and no undeclared symbol in the types that no
admission reads. -/
def soundAdmission (B : Build) (env : GlobalEnv) : Admission → Prop
  | .const _ ty body => Checks B env [] body ty ∧ ty.Over env.symbols
  | .ind d => OverAll (env.insertInd d).symbols d.params ∧
      OverAll (env.insertInd d).symbols d.indices

/-- What holds in every environment built by sound admissions. -/
structure Sound (B : Build) (env : GlobalEnv) : Prop where
  declared : Scoped env
  checks : ∀ c ty body, env.consts c = some (ty, body) → Checks B env [] body ty

section Sound

variable {B : Build} {env env' : GlobalEnv}

theorem Sound.addConst (h : Sound B env) {id : ConstId} {ty body : Tm}
    (hP : soundAdmission B env (.const id ty body))
    (hadd : addConst env id ty body = (.ok (), env')) : Sound B env' := by
  obtain ⟨hnew, rfl⟩ := addConst_ok hadd
  obtain ⟨hcheck, hty⟩ := hP
  have hext : Extends env
      { env with consts := Function.update env.consts id (some (ty, body)) } := by
    refine ⟨fun c p hp => ?_, fun _ _ hd => hd⟩
    have hne : c ≠ id := by
      rintro rfl
      rw [hnew] at hp
      cases hp
    exact (update_of_ne hne _ _).trans hp
  -- the new constant, and those that were there
  have hcases : ∀ c ty' body', Function.update env.consts id (some (ty, body)) c
      = some (ty', body') → (ty' = ty ∧ body' = body) ∨ env.consts c = some (ty', body') := by
    intro c ty' body' hc
    by_cases hne : c = id
    · subst hne
      rw [update_self] at hc
      cases hc
      exact .inl ⟨rfl, rfl⟩
    · rw [update_of_ne hne] at hc
      exact .inr hc
  refine ⟨⟨fun c ty' body' hc => ?_, fun i d hd => ?_⟩, fun c ty' body' hc => ?_⟩
  · rcases hcases c ty' body' hc with ⟨rfl, rfl⟩ | hold
    · exact ⟨hty.mono hext.symbols_consts hext.symbols_inds,
        hcheck.over.mono hext.symbols_consts hext.symbols_inds⟩
    · obtain ⟨h1, h2⟩ := h.declared.const_over c ty' body' hold
      exact ⟨h1.mono hext.symbols_consts hext.symbols_inds,
        h2.mono hext.symbols_consts hext.symbols_inds⟩
  · exact (h.declared.ind_over i d hd).mono hext.symbols_consts hext.symbols_inds
  · rcases hcases c ty' body' hc with ⟨rfl, rfl⟩ | hold
    · exact hcheck.extend hext h.declared hty
    · exact (h.checks c ty' body' hold).extend hext h.declared
        (h.declared.const_over c ty' body' hold).1

theorem Sound.addInductive (h : Sound B env) {n : Nat} {d : Inductive}
    (hP : soundAdmission B env (.ind d))
    (hadd : addInductive B n env d = some (.ok (), env')) : Sound B env' := by
  rcases addInductive_cases B hadd with ⟨e, he, -⟩ | ⟨-, hnew, -, hfields, hret, rfl⟩
  · cases he
  · obtain ⟨hparams, hindices⟩ := hP
    have hid : (env.insertInd d).inds d.id = some d := update_self ..
    have hext : Extends env ((env.insertInd d).insertRecursor d) := by
      refine ⟨fun _ _ hp => hp, fun i d' hd' => ?_⟩
      have hne : i ≠ d.id := by
        rintro rfl
        rw [hnew] at hd'
        cases hd'
      exact (update_of_ne hne _ _).trans hd'
    have hd : d.Over ((env.insertInd d).insertRecursor d).symbols :=
      { id := isSome_iff_exists.mpr ⟨d, hid⟩
        params := hparams
        indices := hindices
        args := fun c hc => (checkFields_ok (checkCtors_ok hfields c hc)).over
        retIndices := fun c hc => by
          obtain ⟨-, l, hl⟩ := checkRetIndices_ok hret c hc
          exact (List.forall_mem_append.mp (over_apply.mp hl.over).2).2 }
    refine ⟨⟨fun c ty body hc => ?_, fun i d' hd' => ?_⟩, fun c ty body hc => ?_⟩
    · obtain ⟨h1, h2⟩ := h.declared.const_over c ty body hc
      exact ⟨h1.mono hext.symbols_consts hext.symbols_inds,
        h2.mono hext.symbols_consts hext.symbols_inds⟩
    · by_cases hne : i = d.id
      · subst hne
        cases hid.symm.trans hd'
        exact hd
      · have hold : env.inds i = some d' := (update_of_ne hne _ _).symm.trans hd'
        exact (h.declared.ind_over i d' hold).mono hext.symbols_consts hext.symbols_inds
    · exact (h.checks c ty body hc).extend hext h.declared (h.declared.const_over c ty body hc).1

theorem Built.sound (h : Built B (soundAdmission B) env) : Sound B env := by
  induction h with
  | empty => exact ⟨⟨nofun, nofun⟩, nofun⟩
  | add _ hP hadm ih =>
    cases hadm with
    | const hadd => exact ih.addConst hP hadd
    | ind hadd => exact ih.addInductive hP hadd

end Sound

/-- In every environment built by sound admissions, every constant checks at its type. -/
theorem built_checks (B : Build) (env : GlobalEnv) (h : Built B (soundAdmission B) env)
    (c : ConstId) (ty body : Tm) (hc : env.consts c = some (ty, body)) : Checks B env [] body ty :=
  h.sound.checks c ty body hc

/-- `Tagged Unit unit`. -/
def taggedUnit : Tm := apply (.ind 1) [.ind 0, .ctor 0 0]

/-- The constant `0 := leaf Unit`. -/
def leafEnv : GlobalEnv :=
  { taggedEnv with
    consts := update taggedEnv.consts 0 (some (taggedUnit, .app (.ctor 1 0) (.ind 0))) }

/-- The constants `0 := leaf Unit` and `1 := node Unit unit 0`. -/
def nodeEnv : GlobalEnv :=
  { leafEnv with
    consts := update leafEnv.consts 1
      (some (taggedUnit, apply (.ctor 1 1) [.ind 0, .ctor 0 0, .const 0])) }

/-- Two families and two constants, the second with the first in its body. -/
theorem node_checks : Built releaseBuild (soundAdmission releaseBuild) nodeEnv ∧
    Checks releaseBuild nodeEnv [] (apply (.ctor 1 1) [.ind 0, .ctor 0 0, .const 0]) taggedUnit := by
  have hunit : Built releaseBuild (soundAdmission releaseBuild) unitEnv :=
    .add (a := .ind unitDecl) .empty ⟨nofun, nofun⟩ (.ind (n := 9) rfl)
  have htagged : Built releaseBuild (soundAdmission releaseBuild) taggedEnv :=
    .add (a := .ind taggedDecl) hunit
      ⟨List.forall_mem_singleton.mpr trivial, List.forall_mem_singleton.mpr rfl⟩ (.ind (n := 9) rfl)
  have hleaf : Built releaseBuild (soundAdmission releaseBuild) leafEnv :=
    .add (a := .const 0 taggedUnit (.app (.ctor 1 0) (.ind 0))) htagged
      ⟨⟨9, rfl⟩, ⟨rfl, rfl⟩, rfl⟩ (.const rfl)
  have hnode : Built releaseBuild (soundAdmission releaseBuild) nodeEnv :=
    .add (a := .const 1 taggedUnit (apply (.ctor 1 1) [.ind 0, .ctor 0 0, .const 0])) hleaf
      ⟨⟨9, rfl⟩, ⟨rfl, rfl⟩, rfl⟩ (.const rfl)
  exact ⟨hnode, built_checks releaseBuild nodeEnv hnode 1 _ _ rfl⟩

/-- The constant `0 : ty := Sort 0`. -/
def sortConstEnv (ty : Tm) : GlobalEnv :=
  { GlobalEnv.empty with consts := update GlobalEnv.empty.consts 0 (some (ty, .sort 0)) }

/-- `add_const` admits `0 : Sort 0 := Sort 0`, whose body has the type `Sort 1`. -/
theorem sortConst_illTyped : ∃ env, ∀ B : Build, Built B anyAdmission env ∧
      ∃ c ty body, env.consts c = some (ty, body) ∧ ¬ Checks B env [] body ty := by
  refine ⟨sortConstEnv (.sort 0), fun B =>
    ⟨.add (a := .const 0 (.sort 0) (.sort 0)) .empty trivial (.const rfl),
    0, .sort 0, .sort 0, rfl, fun h => ?_⟩⟩
  obtain ⟨got, hgot, hconv⟩ := checks_iff.mp h
  obtain ⟨l, hl, rfl⟩ := infers_sort.mp hgot
  obtain ⟨v, hv, hv'⟩ := converts_iff.mp hconv
  cases hl
  rw [nfs_sort] at hv hv'
  cases hv.symm.trans hv'

end Dnet.Kernel
