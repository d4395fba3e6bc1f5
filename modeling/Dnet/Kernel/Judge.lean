import Dnet.Kernel.Agree

/-!
# The judgments of the kernel

What a call of the kernel returns, whatever the depth of nested calls it takes, and the
rules these judgments follow. Each rule is read off one body of Infer.lean; later proofs
use the rules and never unfold the bodies again.
-/

namespace Dnet.Kernel

open Option (bind_eq_some_iff)
open Lib (Call enough)

section Judgments

variable (B : Build) (env : GlobalEnv) (ctx : Ctx)

def Whnfs (t v : Tm) : Prop := ∃ n, (run B env n).whnf ctx t = some v

def Nfs (t v : Tm) : Prop := ∃ n, (run B env n).nf ctx t = some v

def Infers (t ty : Tm) : Prop := ∃ n, (run B env n).infer ctx t = .ok ty

def HasSort (t : Tm) (l : Level) : Prop := ∃ n, sortOf (run B env n) ctx t = .ok l

def Converts (t u : Tm) : Prop := ∃ n, conv B (run B env n) ctx t u = .ok true

def Checks (t ty : Tm) : Prop := ∃ n, check B (run B env n) ctx t ty = .ok ()

/-- A function of type `ty` applied to the arguments has type `T`. -/
def Applies (args : List Tm) (ty T : Tm) : Prop :=
  ∃ n, applyArgs B (run B env n) ctx args ty = .ok T

end Judgments

section Rules

variable {B : Build} {env : GlobalEnv} {ctx : Ctx} {t u v w ty : Tm} {l : Level}

theorem Whnfs.unique (h : Whnfs B env ctx t v) (h' : Whnfs B env ctx t w) : v = w := by
  obtain ⟨n, hv, hw⟩ := ((enough whnf_mono h).and (enough whnf_mono h')).exists
  exact Option.some.inj (hv.symm.trans hw)

theorem Nfs.unique (h : Nfs B env ctx t v) (h' : Nfs B env ctx t w) : v = w := by
  obtain ⟨n, hv, hw⟩ := ((enough nf_mono h).and (enough nf_mono h')).exists
  exact Option.some.inj (hv.symm.trans hw)

theorem Infers.unique (h : Infers B env ctx t v) (h' : Infers B env ctx t w) : v = w := by
  obtain ⟨n, hv, hw⟩ := ((enough infer_mono h).and (enough infer_mono h')).exists
  exact Call.ok_inj (hv.symm.trans hw)

theorem not_infers_of_error {n : Nat} {e : TypeError} (h : (run B env n).infer ctx t = .error e) :
    ¬ Infers B env ctx t ty := by
  intro h'
  obtain ⟨m, he, hok⟩ :=
    ((enough infer_mono ⟨n, h⟩).and (enough infer_mono h')).exists
  exact Call.error_ne_ok (he.symm.trans hok)

theorem hasSort_iff :
    HasSort B env ctx t l ↔ ∃ ty, Infers B env ctx t ty ∧ Whnfs B env ctx ty (.sort l) := by
  constructor
  · rintro ⟨n, h⟩
    obtain ⟨ty, hty, h⟩ := Call.bind_eq_ok.mp h
    obtain ⟨w, hw, h⟩ := Call.bind_eq_ok.mp h
    refine ⟨ty, ⟨n, hty⟩, n, ?_⟩
    cases w with
    | sort l' => cases h; exact Call.ofOption_eq_ok.mp hw
    | _ => cases h
  · rintro ⟨ty, hty, hl⟩
    obtain ⟨n, hn, hm⟩ :=
      ((enough infer_mono hty).and (enough whnf_mono hl)).exists
    exact ⟨n, Call.bind_eq_ok.mpr ⟨ty, hn, Call.bind_eq_ok.mpr
      ⟨.sort l, Call.ofOption_eq_ok.mpr hm, rfl⟩⟩⟩

theorem converts_iff : Converts B env ctx t u ↔ ∃ v, Nfs B env ctx t v ∧ Nfs B env ctx u v := by
  constructor
  · rintro ⟨n, h⟩
    rw [conv_eq] at h
    have h := Call.ofOption_eq_ok.mp h
    obtain ⟨a, ha, h⟩ := bind_eq_some_iff.mp h
    obtain ⟨b, hb, h⟩ := bind_eq_some_iff.mp h
    have hab : a = b := of_decide_eq_true (Option.some.inj h)
    exact ⟨a, ⟨n, ha⟩, n, hab ▸ hb⟩
  · rintro ⟨v, ht, hu⟩
    obtain ⟨n, hn, hm⟩ :=
      ((enough nf_mono ht).and (enough nf_mono hu)).exists
    refine ⟨n, ?_⟩
    rw [conv_eq]
    exact Call.ofOption_eq_ok.mpr (bind_eq_some_iff.mpr ⟨v, hn,
      bind_eq_some_iff.mpr ⟨v, hm, congrArg some (decide_eq_true rfl)⟩⟩)

section

variable {K : Calls} {d a b : Tm} {args : List Tm} {i : IndId}

theorem check_eq_ok : check B K ctx t ty = .ok () ↔
      ∃ got, K.infer ctx t = .ok got ∧ conv B K ctx got ty = .ok true := by
  refine Call.bind_eq_ok.trans (exists_congr fun got => and_congr_right fun _ => ?_)
  match conv B K ctx got ty with
  | none | some (.error _) | some (.ok false) => exact ⟨nofun, nofun⟩
  | some (.ok true) => exact ⟨fun _ => rfl, fun _ => rfl⟩

theorem checks_iff :
    Checks B env ctx t ty ↔ ∃ got, Infers B env ctx t got ∧ Converts B env ctx got ty := by
  constructor
  · rintro ⟨n, h⟩
    obtain ⟨got, hgot, hconv⟩ := check_eq_ok.mp h
    exact ⟨got, ⟨n, hgot⟩, n, hconv⟩
  · rintro ⟨got, hgot, n, hn⟩
    have hconv : ∀ᶠ m in Filter.atTop, conv B (run B env m) ctx got ty = .ok true := by
      refine Filter.eventually_atTop.mpr ⟨n, fun m hm => ?_⟩
      obtain ⟨_, h', rfl, -⟩ := ((run_mono hm).conv (B := B) (overAll_everySymbol ctx)
        (over_everySymbol got) (over_everySymbol ty)).1 true hn
      exact h'
    obtain ⟨n, hn, hm⟩ := ((enough infer_mono hgot).and hconv).exists
    exact ⟨n, check_eq_ok.mpr ⟨got, hn, hm⟩⟩

/-! ## Weak-head and full reduction -/

/-- No head rule applies: the head is not a function, a constant or a recursor. -/
def Tm.Inert (t : Tm) : Prop :=
  match t.head with
  | .lam _ _ => t.args = []
  | .const _ | .elim _ => False
  | _ => True

theorem whnfTm_inert (h : t.Inert) : whnfTm env K ctx t = some t := by
  unfold Tm.Inert at h
  unfold whnfTm
  generalize t.head = hd at h
  cases hd with
  | lam a b => rw [h]
  | const c => exact h.elim
  | elim i => exact h.elim
  | _ => rfl

theorem Tm.Inert.whnfs (h : t.Inert) : Whnfs B env ctx t t := ⟨1, whnfTm_inert h⟩

theorem whnfs_inert (h : t.Inert) : Whnfs B env ctx t v ↔ v = t :=
  ⟨fun hv => hv.unique h.whnfs, by rintro rfl; exact h.whnfs⟩

theorem whnfs_beta {body : Tm} : Whnfs B env ctx (apply (.app (.lam d body) a) args) v ↔
      Whnfs B env ctx (apply (subst body 0 a) args) v := by
  have hstep : ∀ K : Calls, whnfTm env K ctx (apply (.app (.lam d body) a) args)
      = K.whnf ctx (apply (subst body 0 a) args) := by
    intro K
    unfold whnfTm
    rw [head_apply, args_apply]
    rfl
  constructor
  · rintro ⟨n, h⟩
    cases n with
    | zero => cases h
    | succ n => exact ⟨n, (hstep _).symm.trans h⟩
  · rintro ⟨n, h⟩
    exact ⟨n + 1, (hstep _).trans h⟩

/-- The head is a function with an argument. -/
def Tm.BetaHead (t : Tm) : Prop := (∃ d b, t.head = .lam d b) ∧ t.args ≠ []

/-- No head rule applies under the calls `K`: the term is its own weak-head normal form. -/
structure Tm.Stuck (env : GlobalEnv) (K : Calls) (ctx : Ctx) (t : Tm) : Prop where
  beta : ¬ t.BetaHead
  delta : ∀ c, t.head = .const c → env.constBody c = none
  iota : ∀ i, t.head = .elim i → tryIota env K ctx i t.args = some none

theorem whnfTm_beta {rest : List Tm} (hh : t.head = .lam d b) (ha : t.args = a :: rest) :
    whnfTm env K ctx t = K.whnf ctx (apply (subst b 0 a) rest) := by
  unfold whnfTm
  rw [hh, ha]

theorem whnfTm_delta {c : ConstId} (hh : t.head = .const c) (hb : env.constBody c = some b) :
    whnfTm env K ctx t = K.whnf ctx (apply b t.args) := by
  unfold whnfTm
  rw [hh]
  dsimp only
  rw [hb]

theorem whnfTm_iota {r : Tm} (hh : t.head = .elim i)
    (hr : tryIota env K ctx i t.args = some (some r)) : whnfTm env K ctx t = K.whnf ctx r := by
  unfold whnfTm
  rw [hh]
  dsimp only
  rw [hr]
  rfl

theorem whnfTm_stuck (h : t.Stuck env K ctx) : whnfTm env K ctx t = some t := by
  obtain ⟨hbeta, hdelta, hiota⟩ := h
  unfold whnfTm
  cases hh : t.head with
  | lam d b =>
    cases ha : t.args with
    | nil => rfl
    | cons a rest => exact absurd ⟨⟨d, b, hh⟩, by rw [ha]; exact List.cons_ne_nil _ _⟩ hbeta
  | const c =>
    dsimp only
    rw [hdelta c hh]
  | elim i =>
    dsimp only
    rw [hiota i hh]
    rfl
  | _ => rfl

/-- What one turn of the head loop can do. -/
theorem whnfTm_cases (h : whnfTm env K ctx t = some v) :
    (∃ d b a rest, t.head = .lam d b ∧ t.args = a :: rest ∧
      K.whnf ctx (apply (subst b 0 a) rest) = some v) ∨
    (∃ c b, t.head = .const c ∧ env.constBody c = some b ∧ K.whnf ctx (apply b t.args) = some v) ∨
    (∃ i r, t.head = .elim i ∧ tryIota env K ctx i t.args = some (some r) ∧ K.whnf ctx r = some v) ∨
    (v = t ∧ t.Stuck env K ctx) := by
  by_cases hbeta : t.BetaHead
  · obtain ⟨⟨d, b, hh⟩, hne⟩ := hbeta
    obtain ⟨a, rest, ha⟩ := List.exists_cons_of_ne_nil hne
    exact .inl ⟨d, b, a, rest, hh, ha, (whnfTm_beta hh ha).symm.trans h⟩
  have hstuck : t.Stuck env K ctx → v = t := fun hs =>
    Option.some.inj (h.symm.trans (whnfTm_stuck hs))
  cases hh : t.head with
  | const c =>
    cases hb : env.constBody c with
    | some b => exact .inr (.inl ⟨c, b, rfl, hb, (whnfTm_delta hh hb).symm.trans h⟩)
    | none =>
      have hs : t.Stuck env K ctx := by
        refine ⟨hbeta, fun c' hc' => ?_, fun i hi => ?_⟩
        · cases hh.symm.trans hc'
          exact hb
        · cases hh.symm.trans hi
      exact .inr (.inr (.inr ⟨hstuck hs, hs⟩))
  | elim i =>
    cases hr : tryIota env K ctx i t.args with
    | none =>
      unfold whnfTm at h
      rw [hh] at h
      dsimp only at h
      rw [hr] at h
      cases h
    | some o =>
      cases o with
      | some r => exact .inr (.inr (.inl ⟨i, r, rfl, hr, (whnfTm_iota hh hr).symm.trans h⟩))
      | none =>
        have hs : t.Stuck env K ctx := by
          refine ⟨hbeta, fun c hc => ?_, fun i' hi' => ?_⟩
          · cases hh.symm.trans hc
          · cases hh.symm.trans hi'
            exact hr
        exact .inr (.inr (.inr ⟨hstuck hs, hs⟩))
  | _ =>
    have hs : t.Stuck env K ctx := by
      refine ⟨hbeta, fun c hc => ?_, fun i hi => ?_⟩
      · cases hh.symm.trans hc
      · cases hh.symm.trans hi
    exact .inr (.inr (.inr ⟨hstuck hs, hs⟩))

/-- The weak-head normal form `w` has the normal form `v`: its parts are normalised. -/
def NfOf (B : Build) (env : GlobalEnv) (ctx : Ctx) (v : Tm) : Tm → Prop
  | .lam d b => ∃ dom body, Nfs B env ctx d dom ∧ Nfs B env (d :: ctx) b body ∧
      v = etaContract dom body
  | .pi d b => ∃ dom cod, Nfs B env ctx d dom ∧ Nfs B env (d :: ctx) b cod ∧ v = .pi dom cod
  | .app f x => ∃ f' x', Nfs B env ctx f f' ∧ Nfs B env ctx x x' ∧ v = .app f' x'
  | w => v = w

theorem nfs_iff : Nfs B env ctx t v ↔ ∃ w, Whnfs B env ctx t w ∧ NfOf B env ctx v w := by
  constructor
  · rintro ⟨n, h⟩
    cases n with
    | zero => cases h
    | succ n =>
      obtain ⟨w, hw, h⟩ := bind_eq_some_iff.mp h
      refine ⟨w, ⟨n, hw⟩, ?_⟩
      cases w with
      | lam d b | pi d b | app d b =>
        obtain ⟨x, hx, h⟩ := bind_eq_some_iff.mp h
        obtain ⟨y, hy, h⟩ := bind_eq_some_iff.mp h
        exact ⟨x, y, ⟨n, hx⟩, ⟨n, hy⟩, (Option.some.inj h).symm⟩
      | _ => exact (Option.some.inj h).symm
  · rintro ⟨w, hw, h⟩
    have hw := enough whnf_mono hw
    cases w with
    | lam d b | pi d b | app d b =>
      obtain ⟨x, y, hx, hy, rfl⟩ := h
      obtain ⟨n, hw, hx, hy⟩ :=
        (hw.and ((enough nf_mono hx).and (enough nf_mono hy))).exists
      exact ⟨n + 1, bind_eq_some_iff.mpr ⟨_, hw, bind_eq_some_iff.mpr
        ⟨x, hx, bind_eq_some_iff.mpr ⟨y, hy, rfl⟩⟩⟩⟩
    | _ =>
      subst h
      obtain ⟨n, hw⟩ := hw.exists
      exact ⟨n + 1, bind_eq_some_iff.mpr ⟨_, hw, rfl⟩⟩

theorem nfs_inert (hin : t.Inert) : Nfs B env ctx t v ↔ NfOf B env ctx v t := by
  rw [nfs_iff]
  constructor
  · rintro ⟨w, hw, h⟩
    rw [whnfs_inert hin] at hw
    subst hw
    exact h
  · intro h
    exact ⟨t, hin.whnfs, h⟩

theorem nfs_sort : Nfs B env ctx (.sort l) v ↔ v = .sort l := nfs_inert trivial

theorem nfs_ind : Nfs B env ctx (.ind i) v ↔ v = .ind i := nfs_inert trivial

theorem nfs_pi : Nfs B env ctx (.pi d b) v ↔
    ∃ dom cod, Nfs B env ctx d dom ∧ Nfs B env (d :: ctx) b cod ∧ v = .pi dom cod :=
  nfs_inert trivial

theorem nfs_ctor {k : Nat} : Nfs B env ctx (.ctor i k) v ↔ v = .ctor i k := nfs_inert trivial

theorem nfs_app {f x : Tm} (hin : (Tm.app f x).Inert) : Nfs B env ctx (.app f x) v ↔
    ∃ f' x', Nfs B env ctx f f' ∧ Nfs B env ctx x x' ∧ v = .app f' x' := nfs_inert hin

/-! ## Typing rules -/

/-- A term that is not an applied recursor is typed by its node. -/
theorem infer_node (h : ∀ i, t.head ≠ .elim i) : infer B env K ctx t = inferNode B env K ctx t := by
  unfold infer
  generalize t.head = hd at h
  cases hd with
  | elim i => exact absurd rfl (h i)
  | _ => rfl

theorem infers_node (h : ∀ i, t.head ≠ .elim i) :
    Infers B env ctx t ty ↔ ∃ n, inferNode B env (run B env n) ctx t = .ok ty := by
  constructor
  · rintro ⟨n, hn⟩
    cases n with
    | zero => cases hn
    | succ n => exact ⟨n, (infer_node h).symm.trans hn⟩
  · rintro ⟨n, hn⟩
    exact ⟨n + 1, (infer_node h).trans hn⟩

theorem infers_lookup {α : Type} {o : Option α} {f : α → Tm} (ht : ∀ i, t.head ≠ .elim i)
    (h : ∀ K, inferNode B env K ctx t = .ok ty ↔ ∃ a, o = some a ∧ ty = f a) :
    Infers B env ctx t ty ↔ ∃ a, o = some a ∧ ty = f a := by
  rw [infers_node ht]
  exact ⟨fun ⟨_, hn⟩ => (h _).mp hn, fun ha => ⟨0, (h _).mpr ha⟩⟩

theorem infers_var {i : Nat} : Infers B env ctx (.var i) ty ↔
      ∃ a, ctx[i]? = some a ∧ ty = shift a ((i + 1 : Nat) : Int) 0 := by
  refine infers_lookup (fun _ => by simp [Tm.head]) fun K => ?_
  cases h : ctx[i]? <;> simp [inferNode, varType, h, @eq_comm Tm]

theorem infers_sort : Infers B env ctx (.sort l) ty ↔ ∃ l', B.succ l = some l' ∧ ty = .sort l' := by
  refine infers_lookup (fun _ => by simp [Tm.head]) fun K => ?_
  cases h : B.succ l <;> simp [inferNode, h, @eq_comm Tm]

theorem infers_pi : Infers B env ctx (.pi a b) ty ↔
    ∃ i j, HasSort B env ctx a i ∧ HasSort B env (a :: ctx) b j ∧ ty = .sort (max i j) := by
  rw [infers_node (fun _ => by simp [Tm.head])]
  constructor
  · rintro ⟨n, h⟩
    obtain ⟨i, hi, h⟩ := Call.bind_eq_ok.mp h
    obtain ⟨j, hj, h⟩ := Call.bind_eq_ok.mp h
    exact ⟨i, j, ⟨n, hi⟩, ⟨n, hj⟩, (Call.ok_inj h).symm⟩
  · rintro ⟨i, j, hi, hj, rfl⟩
    obtain ⟨n, hi, hj⟩ := ((enough sortOf_mono hi).and (enough sortOf_mono hj)).exists
    exact ⟨n, Call.bind_eq_ok.mpr ⟨i, hi, Call.bind_eq_ok.mpr ⟨j, hj, rfl⟩⟩⟩

theorem infers_lam : Infers B env ctx (.lam a b) ty ↔
    ∃ i bt, HasSort B env ctx a i ∧ Infers B env (a :: ctx) b bt ∧ ty = .pi a bt := by
  rw [infers_node (fun _ => by simp [Tm.head])]
  constructor
  · rintro ⟨n, h⟩
    obtain ⟨i, hi, h⟩ := Call.bind_eq_ok.mp h
    obtain ⟨bt, hbt, h⟩ := Call.bind_eq_ok.mp h
    exact ⟨i, bt, ⟨n, hi⟩, ⟨n, hbt⟩, (Call.ok_inj h).symm⟩
  · rintro ⟨i, bt, hi, hbt, rfl⟩
    obtain ⟨n, hi, hbt⟩ := ((enough sortOf_mono hi).and (enough infer_mono hbt)).exists
    exact ⟨n, Call.bind_eq_ok.mpr ⟨i, hi, Call.bind_eq_ok.mpr ⟨bt, hbt, rfl⟩⟩⟩

theorem asPi_eq_ok : asPi K ctx t = .ok (a, b) ↔ K.whnf ctx t = some (.pi a b) := by
  constructor
  · intro h
    obtain ⟨w, hw, h⟩ := Call.bind_eq_ok.mp h
    cases w with
    | pi _ _ => cases h; exact Call.ofOption_eq_ok.mp hw
    | _ => cases h
  · intro h
    exact Call.bind_eq_ok.mpr ⟨.pi a b, Call.ofOption_eq_ok.mpr h, rfl⟩

theorem infers_app {f x : Tm} (h : ∀ i, f.head ≠ .elim i) : Infers B env ctx (.app f x) ty ↔
    ∃ ft dom cod, Infers B env ctx f ft ∧ Whnfs B env ctx ft (.pi dom cod) ∧
      Checks B env ctx x dom ∧ ty = subst cod 0 x := by
  have hhead : ∀ i, (Tm.app f x).head ≠ .elim i := h
  rw [infers_node hhead]
  constructor
  · rintro ⟨n, h⟩
    obtain ⟨ft, hft, h⟩ := Call.bind_eq_ok.mp h
    obtain ⟨⟨dom, cod⟩, hp, h⟩ := Call.bind_eq_ok.mp h
    obtain ⟨_, hx, h⟩ := Call.bind_eq_ok.mp h
    exact ⟨ft, dom, cod, ⟨n, hft⟩, ⟨n, asPi_eq_ok.mp hp⟩, ⟨n, hx⟩, (Call.ok_inj h).symm⟩
  · rintro ⟨ft, dom, cod, hf, hp, hx, rfl⟩
    obtain ⟨n, hf, hp, hx⟩ :=
      ((enough infer_mono hf).and ((enough whnf_mono hp).and (enough check_mono hx))).exists
    exact ⟨n, Call.bind_eq_ok.mpr ⟨ft, hf, Call.bind_eq_ok.mpr ⟨(dom, cod), asPi_eq_ok.mpr hp,
      Call.bind_eq_ok.mpr ⟨(), hx, rfl⟩⟩⟩⟩

theorem applies_nil : Applies B env ctx [] ty u ↔ u = ty :=
  ⟨fun ⟨_, h⟩ => (Call.ok_inj h).symm, fun h => ⟨0, h ▸ rfl⟩⟩

theorem applies_cons : Applies B env ctx (a :: args) ty u ↔
    ∃ dom cod, Whnfs B env ctx ty (.pi dom cod) ∧ Checks B env ctx a dom ∧
      Applies B env ctx args (subst cod 0 a) u := by
  constructor
  · rintro ⟨n, h⟩
    obtain ⟨⟨dom, cod⟩, hp, h⟩ := Call.bind_eq_ok.mp h
    obtain ⟨_, ha, h⟩ := Call.bind_eq_ok.mp h
    exact ⟨dom, cod, ⟨n, asPi_eq_ok.mp hp⟩, ⟨n, ha⟩, n, h⟩
  · rintro ⟨dom, cod, hp, ha, hu⟩
    obtain ⟨n, hp, ha, hu⟩ :=
      ((enough whnf_mono hp).and ((enough check_mono ha).and (enough applyArgs_mono hu))).exists
    exact ⟨n, Call.bind_eq_ok.mpr ⟨(dom, cod), asPi_eq_ok.mpr hp, Call.bind_eq_ok.mpr ⟨(), ha, hu⟩⟩⟩

/-- An applied recursor of a family without indices. -/
theorem infers_elim_simple {d : Inductive} (hd : env.inds i = some d) (hx : d.indices = []) :
    Infers B env ctx (apply (.elim i) args) ty ↔ ∃ motive mty a cod lm,
      args[d.params.length]? = some motive ∧ Infers B env ctx motive mty ∧
      Whnfs B env ctx mty (.pi a cod) ∧ Whnfs B env ctx cod (.sort lm) ∧
      Applies B env ctx args (recursorType d lm) ty := by
  have hinfer : ∀ n, (run B env (n + 1)).infer ctx (apply (.elim i) args)
      = inferElim B env (run B env n) ctx i args := by
    intro n
    show infer B env (run B env n) ctx _ = _
    unfold infer
    rw [head_apply, args_apply]
    rfl
  constructor
  · rintro ⟨n, h⟩
    cases n with
    | zero => cases h
    | succ n =>
      rw [hinfer, inferElim, hd] at h
      dsimp only at h
      rw [hx] at h
      cases hm : args[d.params.length]? with
      | none =>
        rw [hm] at h
        cases h
      | some motive =>
        rw [hm] at h
        obtain ⟨mty, hmty, h⟩ := Call.bind_eq_ok.mp h
        obtain ⟨cod, hpeel, h⟩ := Call.bind_eq_ok.mp h
        obtain ⟨⟨a, cod'⟩, hpi, hcod⟩ := Call.bind_eq_ok.mp hpeel
        cases Call.ok_inj hcod
        obtain ⟨w, hw, h⟩ := Call.bind_eq_ok.mp h
        cases w with
        | sort lm =>
          exact ⟨motive, mty, a, cod, lm, rfl, ⟨n, hmty⟩, ⟨n, asPi_eq_ok.mp hpi⟩,
            ⟨n, Call.ofOption_eq_ok.mp hw⟩, n, h⟩
        | _ => cases h
  · rintro ⟨motive, mty, a, cod, lm, hm, hmty, hpi, hl, happ⟩
    obtain ⟨n, ⟨hmty, hpi⟩, hl, happ⟩ := (((enough infer_mono hmty).and (enough whnf_mono hpi)).and
      ((enough whnf_mono hl).and (enough applyArgs_mono happ))).exists
    refine ⟨n + 1, ?_⟩
    rw [hinfer, inferElim, hd]
    dsimp only
    rw [hx, hm]
    refine Call.bind_eq_ok.mpr ⟨mty, hmty, Call.bind_eq_ok.mpr ⟨cod,
      Call.bind_eq_ok.mpr ⟨(a, cod), asPi_eq_ok.mpr hpi, rfl⟩, ?_⟩⟩
    exact Call.bind_eq_ok.mpr ⟨.sort lm, Call.ofOption_eq_ok.mpr hl, happ⟩

theorem infers_const {c : ConstId} :
    Infers B env ctx (.const c) ty ↔ ∃ body, env.consts c = some (ty, body) := by
  rw [infers_node (fun _ => by simp [Tm.head])]
  simp only [inferNode]
  cases env.consts c with
  | none => constructor <;> rintro ⟨_, h⟩ <;> cases h
  | some p =>
    constructor
    · rintro ⟨_, h⟩
      exact ⟨p.2, congrArg (fun x => some (x, p.2)) (Call.ok_inj h)⟩
    · rintro ⟨body, h⟩
      cases h
      exact ⟨0, rfl⟩

theorem infers_ind : Infers B env ctx (.ind i) ty ↔ ∃ d, env.inds i = some d ∧ ty = indType d := by
  refine infers_lookup (fun _ => by simp [Tm.head]) fun K => ?_
  cases h : env.inds i <;> simp [inferNode, h, @eq_comm Tm]

theorem infers_ctor {k : Nat} : Infers B env ctx (.ctor i k) ty ↔
    ∃ d c, env.inds i = some d ∧ d.ctors.find? (fun c => c.ctorIx = k) = some c ∧
      ty = ctorType i d c := by
  rw [infers_node (fun _ => by simp [Tm.head])]
  simp only [inferNode]
  cases env.inds i with
  | none =>
    constructor
    · rintro ⟨_, h⟩
      cases h
    · rintro ⟨_, _, h, -⟩
      cases h
  | some d =>
    dsimp only
    constructor
    · rintro ⟨_, h⟩
      cases hc : d.ctors.find? (fun c => c.ctorIx = k) with
      | none => rw [hc] at h; cases h
      | some c => rw [hc] at h; exact ⟨d, c, rfl, hc, (Call.ok_inj h).symm⟩
    · rintro ⟨_, c, h, hc, rfl⟩
      cases h
      exact ⟨0, by rw [hc]⟩

/-- A term that is only ever typed by a sort has that sort. -/
theorem hasSort_of_infers {P : Level → Prop}
    (h : ∀ ty, Infers B env ctx t ty ↔ ∃ s, P s ∧ ty = .sort s) : HasSort B env ctx t l ↔ P l := by
  have hin (s : Level) : (Tm.sort s).Inert := trivial
  rw [hasSort_iff]
  constructor
  · rintro ⟨ty, hty, hl⟩
    obtain ⟨s, hs, rfl⟩ := (h ty).mp hty
    rw [whnfs_inert (hin s)] at hl
    cases hl
    exact hs
  · exact fun hl => ⟨_, (h _).mpr ⟨l, hl, rfl⟩, (hin l).whnfs⟩

theorem hasSort_pi : HasSort B env ctx (.pi a b) l ↔
    ∃ i j, HasSort B env ctx a i ∧ HasSort B env (a :: ctx) b j ∧ l = max i j :=
  hasSort_of_infers (P := fun l => ∃ i j, HasSort B env ctx a i ∧ HasSort B env (a :: ctx) b j ∧
    l = max i j) fun _ => infers_pi.trans ⟨fun ⟨i, j, hi, hj, h⟩ => ⟨_, ⟨i, j, hi, hj, rfl⟩, h⟩,
      fun ⟨_, ⟨i, j, hi, hj, hs⟩, h⟩ => ⟨i, j, hi, hj, hs ▸ h⟩⟩

theorem hasSort_sort {s : Level} : HasSort B env ctx (.sort s) l ↔ B.succ s = some l :=
  hasSort_of_infers fun _ => infers_sort

end

/-! ## Conversion and the comparison of nets -/

section

variable {d : Bool} {K : Calls} (net net' : Tm → Tm → Except DnxError Bool)

theorem check_net : check ⟨d, net⟩ K = check ⟨d, net'⟩ K := by
  funext ctx t ty
  simp only [check, conv_eq]

theorem applyArgs_net (ctx : Ctx) (args : List Tm) (ty : Tm) :
    applyArgs ⟨d, net⟩ K ctx args ty = applyArgs ⟨d, net'⟩ K ctx args ty := by
  induction args generalizing ty with
  | nil => rfl
  | cons a args ih => simp only [applyArgs, check_net net net', ih]

/-- No answer of the kernel depends on the comparison of nets. -/
theorem run_net (n : Nat) : run ⟨d, net⟩ env n = run ⟨d, net'⟩ env n := by
  induction n with
  | zero => rfl
  | succ n ih =>
    have hinfer : infer ⟨d, net⟩ env (run ⟨d, net'⟩ env n) =
        infer ⟨d, net'⟩ env (run ⟨d, net'⟩ env n) := by
      funext ctx t
      unfold infer inferElim
      simp only [applyArgs_net net net']
      split
      · rfl
      · cases t <;> simp only [inferNode, check_net net net', Build.succ]
    simp only [run, ih, hinfer]

end

/-- Conversion is equality of normal forms. It reports no error and never compares nets,
since every term is open or has type structure. -/
theorem conv_nf (net : Tm → Tm → Except DnxError Bool) : (Nfs B env ctx t v → Nfs B env ctx u w →
      ∃ n, conv B (run B env n) ctx t u = .ok (decide (v = w))) ∧
    (∀ n r, conv B (run B env n) ctx t u = some r →
      ∃ v w, Nfs B env ctx t v ∧ Nfs B env ctx u w ∧ r = .ok (decide (v = w))) ∧
    (∀ n, conv ⟨B.debug, net⟩ (run ⟨B.debug, net⟩ env n) ctx t u = conv B (run B env n) ctx t u) ∧
    (isOpen t 0 || needsTypedConv t) = true := by
  refine ⟨fun hv hw => ?_, fun n r h => ?_, fun n => ?_, typedConv_always t⟩
  · obtain ⟨n, hv, hw⟩ := ((enough nf_mono hv).and (enough nf_mono hw)).exists
    refine ⟨n, ?_⟩
    rw [conv_eq, hv, hw]
    rfl
  · rw [conv_eq] at h
    obtain ⟨b, hb, rfl⟩ := Option.map_eq_some_iff.mp h
    obtain ⟨v, hv, hb⟩ := bind_eq_some_iff.mp hb
    obtain ⟨w, hw, hb⟩ := bind_eq_some_iff.mp hb
    cases hb
    exact ⟨v, w, ⟨n, hv⟩, ⟨n, hw⟩, rfl⟩
  · rw [conv_eq, conv_eq, run_net net B.netConv]

/-- A redex and its contractum. -/
theorem conv_nf_beta :
    ∃ n, conv ⟨false, fun _ _ => .ok false⟩ (run ⟨false, fun _ _ => .ok false⟩ .empty n) []
      (.app (.lam (.sort 4) (.var 0)) (.sort 3)) (.sort 3) = .ok true :=
  (conv_nf (v := .sort 3) (w := .sort 3) fun _ _ => .ok true).1 ⟨3, rfl⟩ ⟨2, rfl⟩

/-! ## Universes -/

/-- Terms built from `Sort` and `Pi`, and the levels they mention. -/
inductive SortPi : Tm → List Nat → Prop where
  | sort {l : Nat} (h : l < 2 ^ 32) : SortPi (.sort l) [l]
  | pi {a b : Tm} {ls ms : List Nat} (ha : SortPi a ls) (hb : SortPi b ms) :
      SortPi (.pi a b) (ls ++ ms)

theorem Infers.hasSort (h : Infers B env ctx t (.sort l)) : HasSort B env ctx t l := by
  have hin : (Tm.sort l).Inert := trivial
  exact hasSort_iff.mpr ⟨_, h, hin.whnfs⟩

/-- Away from the end of the range the sort of a term is above its levels. -/
theorem SortPi.lt_of_hasSort {ls : List Nat} (ht : SortPi t ls)
    (hs : B.debug = true ∨ 2 ^ 32 - 1 ∉ ls) (h : HasSort B env ctx t l) : ∀ i ∈ ls, i < l := by
  induction ht generalizing ctx l with
  | @sort s hl =>
    have hsucc := hasSort_sort.mp h
    unfold Build.succ at hsucc
    split_ifs at hsucc with hlt hd
    · cases hsucc
      simp
    · have hmem := hs.resolve_left hd
      rw [List.mem_singleton] at hmem
      have hlast : ¬(s + 1 : Nat) < 2 ^ 32 := hlt
      omega
  | pi _ _ iha ihb =>
    obtain ⟨i, j, hi, hj, rfl⟩ := hasSort_pi.mp h
    rw [List.mem_append, not_or] at hs
    intro k hk
    rcases List.mem_append.mp hk with hk | hk
    · exact lt_max_of_lt_left (iha (hs.imp_right And.left) hi k hk)
    · exact lt_max_of_lt_right (ihb (hs.imp_right And.right) hj k hk)

/-- A release build gives every such term a sort, in the range. -/
theorem SortPi.infers {ls : List Nat} (ht : SortPi t ls) (hB : B.debug = false) (ctx : Ctx) :
    ∃ m : Nat, m < 2 ^ 32 ∧ Infers B env ctx t (.sort m) := by
  induction ht generalizing ctx with
  | @sort l hl =>
    by_cases hlt : l + 1 < 2 ^ 32
    · exact ⟨l + 1, hlt, infers_sort.mpr ⟨_, if_pos hlt, rfl⟩⟩
    · exact ⟨0, by decide, infers_sort.mpr ⟨0, by rw [Build.succ, if_neg hlt, hB]; rfl, rfl⟩⟩
  | @pi a _ _ _ _ _ iha ihb =>
    obtain ⟨i, hi, ha⟩ := iha ctx
    obtain ⟨j, hj, hb⟩ := ihb (a :: ctx)
    exact ⟨max i j, max_lt hi hj, infers_pi.mpr ⟨i, j, ha.hasSort, hb.hasSort, rfl⟩⟩

/-- Universes are stratified except where the last level wraps around. -/
theorem sort_above_levels_iff {ls : List Nat} (ht : SortPi t ls) :
    (∀ m : Nat, Infers B env [] t (.sort m) → ∀ l ∈ ls, l < m) ↔
      (B.debug = true ∨ 2 ^ 32 - 1 ∉ ls) := by
  refine ⟨fun h => ?_, fun hs m hm => ht.lt_of_hasSort hs hm.hasSort⟩
  by_contra hno
  obtain ⟨hB, hmem⟩ := not_or.mp hno
  obtain ⟨m, hm, ht⟩ := ht.infers (Bool.eq_false_of_not_eq_true hB) []
  have hlt := h m ht _ (not_not.mp hmem)
  omega

theorem pi_above_levels : SortPi (.pi (.sort 0) (.sort 5)) [0, 5] ∧
    ∀ m : Nat, Infers ⟨false, fun _ _ => .ok false⟩ .empty [] (.pi (.sort 0) (.sort 5)) (.sort m) →
      ∀ l ∈ [0, 5], l < m := by
  have ht : SortPi (.pi (.sort 0) (.sort 5)) [0, 5] := .pi (.sort (by decide)) (.sort (by decide))
  exact ⟨ht, (sort_above_levels_iff ht).mpr (.inr (by decide))⟩

/-- In a release build the last universe has the first one as its type. -/
theorem last_sort_not_above : ¬∀ m : Nat,
    Infers ⟨false, fun _ _ => .ok false⟩ .empty [] (.sort (2 ^ 32 - 1)) (.sort m) →
      ∀ l ∈ [2 ^ 32 - 1], l < m := by
  intro h
  exact Nat.not_lt_zero _ (h 0 (infers_sort.mpr ⟨0, rfl, rfl⟩) _ List.mem_cons_self)

end Rules

end Dnet.Kernel
