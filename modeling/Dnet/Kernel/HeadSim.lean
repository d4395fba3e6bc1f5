import Dnet.Kernel.Judge

/-!
# Simulating the head strategy

A relation of terms that the head steps of `whnf_tm` respect (`HeadSim`) is kept by whole
runs of it (`HeadSim.whnf`). Where one side still has to contract a β-redex, the other may have
done so. Without indexed families there is no type inference in reduction, so the contexts of the
two runs do not matter.
-/

namespace Dnet.Kernel

open Lib (Sim)

/-- No declared family has indices. -/
def NonIndexed (env : GlobalEnv) : Prop := ∀ i d, env.inds i = some d → d.indices = []

/-- The same kind of head; functions give related results on related arguments. -/
inductive HeadRel (R : Tm → Tm → Prop) : Tm → Tm → Prop where
  | var (i j : Nat) : HeadRel R (.var i) (.var j)
  | pi (a b a' b' : Tm) : HeadRel R (.pi a b) (.pi a' b')
  | lam {d d' b b' : Tm} : (∀ a a', R a a' → R (subst b 0 a) (subst b' 0 a')) →
      HeadRel R (.lam d b) (.lam d' b')
  | sort (l : Level) : HeadRel R (.sort l) (.sort l)
  | const (c : ConstId) : HeadRel R (.const c) (.const c)
  | ind (i : IndId) : HeadRel R (.ind i) (.ind i)
  | ctor (i : IndId) (k : Nat) : HeadRel R (.ctor i k) (.ctor i k)
  | elim (i : IndId) : HeadRel R (.elim i) (.elim i)

/-- What a relation of terms needs for the head strategy to respect it. -/
structure HeadSim (env : GlobalEnv) (R : Tm → Tm → Prop) : Prop where
  app {f f' x x' : Tm} : R f f' → R x x' → R (.app f x) (.app f' x')
  sort (l : Level) : R (.sort l) (.sort l)
  elim (i : IndId) : R (.elim i) (.elim i)
  body {c : ConstId} {b : Tm} : env.constBody c = some b → R b b
  spine {t u : Tm} : R t u → (HeadRel R t.head u.head ∧ List.Forall₂ R t.args u.args) ∨
    ∃ d b a rest, t.head = .lam d b ∧ t.args = a :: rest ∧ R (apply (subst b 0 a) rest) u

section

variable {B : Build} {env : GlobalEnv} {R : Tm → Tm → Prop} {K K' : Calls} {ctx ctx' : Ctx}
  {as bs : List Tm}

theorem HeadSim.apply (hR : HeadSim env R) {h h' : Tm} (hh : R h h')
    (hs : List.Forall₂ R as bs) : R (apply h as) (apply h' bs) := by
  induction hs generalizing h h' with
  | nil => exact hh
  | cons ha _ ih => exact ih (hR.app hh ha)

theorem HeadSim.getD (hR : HeadSim env R) (h : List.Forall₂ R as bs) (k : Nat) :
    R (as.getD k (.sort 0)) (bs.getD k (.sort 0)) := by
  induction h generalizing k with
  | nil => exact hR.sort 0
  | cons ha _ ih =>
    cases k with
    | zero => exact ha
    | succ k => exact ih k

theorem forall₂_getElem? (h : List.Forall₂ R as bs) (k : Nat) : Option.Rel R as[k]? bs[k]? := by
  induction h generalizing k with
  | nil => exact .none
  | cons ha _ ih =>
    cases k with
    | zero => exact .some ha
    | succ k => exact ih k

theorem HeadSim.addHyps (hR : HeadSim env R) {i : IndId} {np : Nat}
    {pre pre' fields fields' : List Tm} (hp : List.Forall₂ R pre pre')
    (hf : List.Forall₂ R fields fields') (argTys : Telescope) (pos : Nat) {res res' : Tm}
    (hres : R res res') : Sim (Option.Rel R) (addHyps K ctx i np 0 pre fields argTys pos res)
      (addHyps K' ctx' i np 0 pre' fields' argTys pos res') := by
  induction argTys generalizing pos res res' with
  | nil => exact Sim.some (.some hres)
  | cons argTy rest ih =>
    unfold Kernel.addHyps
    split
    · have hfield := forall₂_getElem? hf pos
      generalize fields[pos]? = o at hfield
      generalize fields'[pos]? = o' at hfield
      cases hfield with
      | none => exact Sim.some .none
      | some hfield =>
        have hprefix := hR.apply (hR.apply (hR.elim i) hp) (.nil : List.Forall₂ R [] [])
        exact ih (pos + 1) (hR.app hres (hR.app hprefix hfield))
    · exact ih (pos + 1) hres

/-- What the simulation asks of the recursive calls. -/
def WhnfSim (R : Tm → Tm → Prop) (K K' : Calls) : Prop :=
  ∀ ctx ctx' t u, R t u → Sim (fun w w' => R w w' ∧ ¬ w.BetaHead) (K.whnf ctx t) (K'.whnf ctx' u)

theorem HeadSim.tryIota (hR : HeadSim env R) (henv : NonIndexed env) (hK : WhnfSim R K K')
    (ctx ctx' : Ctx) {i : IndId} {args args' : List Tm} (ha : List.Forall₂ R args args') :
    Sim (Option.Rel R) (tryIota env K ctx i args) (tryIota env K' ctx' i args') := by
  unfold Kernel.tryIota
  cases hd : env.inds i with
  | none => exact Sim.some .none
  | some d =>
    dsimp only
    rw [henv i d hd, ha.length_eq]
    split
    · exact Sim.some .none
    · refine (hK ctx ctx' _ _ (hR.getD ha _)).bind ?_
      rintro w w' ⟨hw, hnb⟩
      rcases hR.spine hw with ⟨hhead, hargs⟩ | ⟨_, _, a, rest, hh, has, _⟩
      · generalize w.head = h at hhead
        generalize w'.head = h' at hhead
        cases hhead with
        | ctor j k =>
          dsimp only
          split
          · cases d.ctors[k]? with
            | none => exact Sim.some .none
            | some c =>
              have hfields := List.forall₂_drop d.params.length hargs
              refine (hR.addHyps (List.forall₂_take _ ha) hfields c.args 0
                (hR.apply (hR.getD ha _) hfields)).bind ?_
              rintro _ _ (⟨hr⟩ | _)
              · exact Sim.some (.some (hR.apply hr (List.forall₂_drop _ ha)))
              · exact Sim.some .none
          · exact Sim.some .none
        | _ => exact Sim.some .none
      · exact absurd ⟨⟨_, _, hh⟩, by rw [has]; exact List.cons_ne_nil _ _⟩ hnb

/-- A run of the head strategy is followed by the related term, within the same depth. -/
theorem HeadSim.whnf (hR : HeadSim env R) (henv : NonIndexed env) (n : Nat) :
    WhnfSim R (run B env n) (run B env n) := by
  induction n with
  | zero => exact fun _ _ _ _ _ => Sim.none
  | succ n ih =>
    intro ctx ctx' t u htu w hw
    rcases hR.spine htu with ⟨hhead, hargs⟩ | ⟨d, b, a, rest, hh, ha, hahead⟩
    · rcases whnfTm_cases hw with ⟨d, b, a, rest, hh, ha, hw⟩ | ⟨c, b, hh, hb, hw⟩ |
        ⟨i, r, hh, hr, hw⟩ | ⟨rfl, hs⟩
      · rw [hh] at hhead
        rw [ha] at hargs
        generalize hu : u.head = h' at hhead
        generalize hua : u.args = as' at hargs
        cases hhead with
        | lam hbody =>
          cases hargs with
          | cons ha' hrest =>
            obtain ⟨w', hw', hrel⟩ := ih ctx ctx' _ _ (hR.apply (hbody _ _ ha') hrest) w hw
            exact ⟨w', (whnfTm_beta hu hua).trans hw', hrel⟩
      · rw [hh] at hhead
        generalize hu : u.head = h' at hhead
        cases hhead with
        | const =>
          obtain ⟨w', hw', hrel⟩ := ih ctx ctx' _ _ (hR.apply (hR.body hb) hargs) w hw
          exact ⟨w', (whnfTm_delta hu hb).trans hw', hrel⟩
      · rw [hh] at hhead
        generalize hu : u.head = h' at hhead
        cases hhead with
        | elim =>
          obtain ⟨_, hr', hrr⟩ := hR.tryIota henv ih ctx ctx' hargs (some r) hr
          cases hrr with
          | some hrr =>
            obtain ⟨w', hw', hrel⟩ := ih ctx ctx' _ _ hrr w hw
            exact ⟨w', (whnfTm_iota hu hr').trans hw', hrel⟩
      · refine ⟨u, whnfTm_stuck ?_, htu, hs.beta⟩
        refine ⟨?_, fun c hc => ?_, fun i hi => ?_⟩
        · rintro ⟨⟨d', b', hu⟩, hne⟩
          rw [hu] at hhead
          generalize ht : w.head = h at hhead
          cases hhead with
          | lam _ =>
            refine hs.beta ⟨⟨_, _, ht⟩, fun hnil => hne ?_⟩
            rw [hnil] at hargs
            exact List.forall₂_nil_left_iff.mp hargs
        · rw [hc] at hhead
          generalize ht : w.head = h at hhead
          cases hhead with
          | const => exact hs.delta c ht
        · rw [hi] at hhead
          generalize ht : w.head = h at hhead
          cases hhead with
          | elim =>
            obtain ⟨_, hr', hrr⟩ := hR.tryIota henv ih ctx ctx' hargs none (hs.iota i ht)
            cases hrr with
            | none => exact hr'
    · obtain ⟨w', hw', hrel⟩ := ih ctx ctx' _ _ hahead w ((whnfTm_beta hh ha).symm.trans hw)
      exact ⟨w', whnf_mono hw' (Nat.le_succ n), hrel⟩

end

end Dnet.Kernel
