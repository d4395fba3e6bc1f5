import Dnet.Kernel.Admission

/-!
# What a typed term mentions

Type inference visits every part of a term, so a property that the rules of the kernel pass
on holds of every typed term (`TypedRule.of_infer`). Two such properties: a typed term names
declared symbols only (`over_of_infer`), and variables of its context only
(`closed_of_infer`). The field types of an admitted declaration are therefore closed over
the parameters and the fields before them (`Built.closed_fields`).
-/

namespace Dnet.Kernel

open Lib (Call)

/-- The symbols that an environment declares. -/
def GlobalEnv.symbols (env : GlobalEnv) : Symbols :=
  ⟨fun c => (env.consts c).isSome, fun i => (env.inds i).isSome⟩

/-- A property that every node of a typed term gets from its parts. -/
structure TypedRule (env : GlobalEnv) (P : Ctx → Tm → Prop) : Prop where
  var : ∀ {ctx i}, i < ctx.length → P ctx (.var i)
  sort : ∀ {ctx l}, P ctx (.sort l)
  pi : ∀ {ctx a b}, P ctx a → P (a :: ctx) b → P ctx (.pi a b)
  lam : ∀ {ctx a b}, P ctx a → P (a :: ctx) b → P ctx (.lam a b)
  app : ∀ {ctx f x}, P ctx f → P ctx x → P ctx (.app f x)
  const : ∀ {ctx c}, (env.consts c).isSome → P ctx (.const c)
  ind : ∀ {ctx i}, (env.inds i).isSome → P ctx (.ind i)
  ctor : ∀ {ctx i k}, (env.inds i).isSome → P ctx (.ctor i k)
  elim : ∀ {ctx i}, (env.inds i).isSome → P ctx (.elim i)

section Typed

variable {B : Build} {env : GlobalEnv} {ctx : Ctx} {t : Tm} {P : Ctx → Tm → Prop}

section

variable {K : Calls} {args : List Tm} {ty T : Tm} {n : Nat} {tele : Telescope}

theorem applyArgs_ok {ty' : Tm} (h : applyArgs B K ctx args ty = .ok ty') :
    ∀ a ∈ args, ∃ T, K.infer ctx a = .ok T := by
  induction args generalizing ty with
  | nil => exact nofun
  | cons a args ih =>
    obtain ⟨⟨dom, cod⟩, -, h⟩ := Call.bind_eq_ok.mp h
    obtain ⟨_, hcheck, h⟩ := Call.bind_eq_ok.mp h
    obtain ⟨T, hT, -⟩ := check_eq_ok.mp hcheck
    exact List.forall_mem_cons.mpr ⟨⟨T, hT⟩, ih h⟩

theorem inferElim_ok {i : IndId} (h : inferElim B env K ctx i args = .ok ty) :
    (env.inds i).isSome ∧ ∀ a ∈ args, ∃ T, K.infer ctx a = .ok T := by
  unfold inferElim at h
  split at h
  · cases h
  · next d hd =>
    refine ⟨by rw [hd]; rfl, ?_⟩
    split at h
    · cases h
    · obtain ⟨_, -, h⟩ := Call.bind_eq_ok.mp h
      obtain ⟨_, -, h⟩ := Call.bind_eq_ok.mp h
      obtain ⟨w, -, h⟩ := Call.bind_eq_ok.mp h
      cases w with
      | sort lm => exact applyArgs_ok h
      | _ => cases h

theorem sortOf_ok {l : Level} (h : sortOf K ctx t = .ok l) : ∃ T, K.infer ctx t = .ok T := by
  obtain ⟨T, hT, -⟩ := Call.bind_eq_ok.mp h
  exact ⟨T, hT⟩

theorem TypedRule.apply (hP : TypedRule env P) {h : Tm} (hh : P ctx h) (ha : ∀ a ∈ args, P ctx a) :
    P ctx (apply h args) := by
  induction args generalizing h with
  | nil => exact hh
  | cons a args ih =>
    obtain ⟨ha, hargs⟩ := List.forall_mem_cons.mp ha
    exact ih (hP.app hh ha) hargs

theorem TypedRule.of_inferNode (hP : TypedRule env P)
    (ih : ∀ ctx t T, K.infer ctx t = .ok T → P ctx t) (h : inferNode B env K ctx t = .ok T) :
    P ctx t := by
  cases t with
  | var i =>
    simp only [inferNode, varType] at h
    split at h
    · next hi => exact hP.var (List.getElem?_eq_some_iff.mp hi).1
    · cases h
  | sort l => exact hP.sort
  | pi a b =>
    obtain ⟨_, ha, h⟩ := Call.bind_eq_ok.mp h
    obtain ⟨_, hb, -⟩ := Call.bind_eq_ok.mp h
    obtain ⟨A, hA⟩ := sortOf_ok ha
    obtain ⟨C, hC⟩ := sortOf_ok hb
    exact hP.pi (ih _ _ _ hA) (ih _ _ _ hC)
  | lam a b =>
    obtain ⟨_, ha, h⟩ := Call.bind_eq_ok.mp h
    obtain ⟨_, hb, -⟩ := Call.bind_eq_ok.mp h
    obtain ⟨A, hA⟩ := sortOf_ok ha
    exact hP.lam (ih _ _ _ hA) (ih _ _ _ hb)
  | app f x =>
    obtain ⟨_, hf, h⟩ := Call.bind_eq_ok.mp h
    obtain ⟨⟨dom, cod⟩, -, h⟩ := Call.bind_eq_ok.mp h
    obtain ⟨_, hx, -⟩ := Call.bind_eq_ok.mp h
    obtain ⟨X, hX, -⟩ := check_eq_ok.mp hx
    exact hP.app (ih _ _ _ hf) (ih _ _ _ hX)
  | const c =>
    simp only [inferNode] at h
    split at h
    · next hc => exact hP.const (by rw [hc]; rfl)
    · cases h
  | ind i =>
    simp only [inferNode] at h
    split at h
    · next hd => exact hP.ind (by rw [hd]; rfl)
    · cases h
  | ctor i k =>
    simp only [inferNode] at h
    split at h
    · next hd => exact hP.ctor (by rw [hd]; rfl)
    · cases h
  | elim i => cases h

theorem TypedRule.of_infer (hP : TypedRule env P) (h : (run B env n).infer ctx t = .ok T) :
    P ctx t := by
  induction n generalizing ctx t T with
  | zero => cases h
  | succ n ih =>
    have h : infer B env (run B env n) ctx t = .ok T := h
    unfold infer at h
    split at h
    · next i hhead =>
      obtain ⟨hi, hargs⟩ := inferElim_ok h
      rw [← apply_head_args t, hhead]
      refine hP.apply (hP.elim hi) fun a ha => ?_
      obtain ⟨A, hA⟩ := hargs a ha
      exact ih hA
    · exact hP.of_inferNode (fun _ _ _ h => ih h) h

/-! ## Declared symbols -/

theorem typedRule_over : TypedRule env fun _ t => t.Over env.symbols where
  var _ := trivial
  sort := trivial
  pi ha hb := ⟨ha, hb⟩
  lam ha hb := ⟨ha, hb⟩
  app hf hx := ⟨hf, hx⟩
  const h := h
  ind h := h
  ctor h := h
  elim h := h

theorem over_of_infer (h : (run B env n).infer ctx t = .ok T) :
    t.Over env.symbols := typedRule_over.of_infer h

theorem HasSort.over {l : Level} (h : HasSort B env ctx t l) : t.Over env.symbols := by
  obtain ⟨T, ⟨n, hn⟩, -⟩ := hasSort_iff.mp h
  exact over_of_infer hn

theorem Checks.over (h : Checks B env ctx t ty) : t.Over env.symbols := by
  obtain ⟨T, ⟨n, hn⟩, -⟩ := checks_iff.mp h
  exact over_of_infer hn

theorem TelescopeOk.over (h : TelescopeOk B env ctx tele) : OverAll env.symbols tele := by
  induction tele generalizing ctx with
  | nil => exact overAll_nil
  | cons ty rest ih =>
    obtain ⟨⟨l, hl⟩, hrest⟩ := h
    exact overAll_cons.mpr ⟨hl.over, ih hrest⟩

/-! ## Variables of the context -/

/-- No variable at or above `n`. -/
def Tm.Closed (n : Nat) (t : Tm) : Prop := isOpen t n = false

theorem typedRule_closed : TypedRule env fun ctx t => t.Closed ctx.length where
  var h := decide_eq_false (Nat.not_le.mpr h)
  sort := rfl
  pi ha hb := Bool.or_eq_false_iff.mpr ⟨ha, hb⟩
  lam ha hb := Bool.or_eq_false_iff.mpr ⟨ha, hb⟩
  app hf hx := Bool.or_eq_false_iff.mpr ⟨hf, hx⟩
  const _ := rfl
  ind _ := rfl
  ctor _ := rfl
  elim _ := rfl

/-- Every type of a telescope mentions the `n` variables outside and those before it. -/
def ClosedTele : Nat → Telescope → Prop
  | _, [] => True
  | n, ty :: rest => ty.Closed n ∧ ClosedTele (n + 1) rest

theorem TelescopeOk.closed (h : TelescopeOk B env ctx tele) : ClosedTele ctx.length tele := by
  induction tele generalizing ctx with
  | nil => trivial
  | cons ty rest ih =>
    obtain ⟨⟨l, hl⟩, hrest⟩ := h
    obtain ⟨T, ⟨n, hn⟩, -⟩ := hasSort_iff.mp hl
    exact ⟨typedRule_closed.of_infer hn, ih hrest⟩

theorem Tm.Closed.not_occursVar {t : Tm} {j : Nat} (h : t.Closed n) (hj : n ≤ j) :
    occursVar t j = false := by
  unfold Tm.Closed at h
  induction t generalizing n j with
  | var i =>
    have hi : ¬ n ≤ i := of_decide_eq_false h
    exact decide_eq_false (by omega)
  | pi a b iha ihb | lam a b iha ihb =>
    obtain ⟨ha, hb⟩ := Bool.or_eq_false_iff.mp h
    exact Bool.or_eq_false_iff.mpr ⟨iha ha hj, ihb hb (by omega)⟩
  | app f x ihf ihx =>
    obtain ⟨hf, hx⟩ := Bool.or_eq_false_iff.mp h
    exact Bool.or_eq_false_iff.mpr ⟨ihf hf hj, ihx hx hj⟩
  | _ => rfl

theorem ClosedTele.get (h : ClosedTele n tele) {q : Nat} (hq : tele[q]? = some ty) :
    ty.Closed (n + q) := by
  induction tele generalizing n q with
  | nil => cases hq
  | cons d tele ih =>
    cases q with
    | zero =>
      cases hq
      exact h.1
    | succ q =>
      have hrest := ih h.2 hq
      rwa [Nat.add_assoc, Nat.add_comm 1] at hrest

end

end Typed

theorem Built.closed_fields {B : Build} {Q : GlobalEnv → Admission → Prop} {env : GlobalEnv}
    (h : Built B Q env) {i : IndId} {d : Inductive} (hd : env.inds i = some d) :
    ∀ c ∈ d.ctors, ClosedTele d.params.length c.args := by
  obtain ⟨-, _, _, -, hfields, -⟩ := h.admitted hd
  intro c hc
  have hok := (checkFields_ok (checkCtors_ok hfields c hc)).closed
  rwa [List.length_reverse] at hok

end Dnet.Kernel
