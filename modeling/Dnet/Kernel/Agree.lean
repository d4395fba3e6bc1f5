import Dnet.Kernel.Env

/-!
# The kernel reads an environment at the symbols of its input only

Two environments that agree on a set of symbols, closed under the declarations they stand
for, answer alike on terms over these symbols, and more nested calls never change an
answer (`run_agree`). With every symbol this is monotonicity in the depth of calls (`run_mono`);
with the symbols of one environment it says that admissions keep every answer (Extend.lean).
-/

namespace Dnet.Kernel

open List
open Lib (Call Sim Keeps)

/-! ## The types of a declaration -/

/-- A property of terms under a number of binders that a node gets from its parts, and that
renumbering for more binders keeps. -/
structure ScopeRule (P : Nat → Tm → Prop) : Prop where
  var : ∀ {n i}, i < n → P n (.var i)
  sort : ∀ n l, P n (.sort l)
  pi : ∀ {n a b}, P n a → P (n + 1) b → P n (.pi a b)
  app : ∀ {n f x}, P n (.app f x) ↔ P n f ∧ P n x
  shift : ∀ {n m t} (d c : Nat), P n t → n + d ≤ m → P m (shift t (d : Int) c)

def ScopedTele (P : Nat → Tm → Prop) (n : Nat) (tele : Telescope) : Prop :=
  ∀ (q : Nat) (ty : Tm), tele[q]? = some ty → P (n + q) ty

structure ScopedDecl (P : Nat → Tm → Prop) (d : Inductive) : Prop where
  ind : ∀ n, P n (.ind d.id)
  ctor : ∀ n k, P n (.ctor d.id k)
  params : ScopedTele P 0 d.params
  indices : ScopedTele P d.params.length d.indices
  args : ∀ c ∈ d.ctors, ScopedTele P d.params.length c.args
  retIndices : ∀ c ∈ d.ctors, ∀ t ∈ c.retIndices, P (d.params.length + c.args.length) t

section Scope

variable {P : Nat → Tm → Prop} {n : Nat} {tele : Telescope} {d : Inductive} {i : IndId}

section

variable (hP : ScopeRule P)
include hP

theorem ScopeRule.apply {h : Tm} {args : List Tm} :
    P n (apply h args) ↔ P n h ∧ ∀ a ∈ args, P n a := by
  induction args generalizing h with
  | nil => simp
  | cons a args ih => rw [apply_cons, ih, hP.app, forall_mem_cons, and_assoc]

theorem ScopeRule.telescope {b : Tm} (ht : ScopedTele P n tele)
    (hb : P (n + tele.length) b) : P n (telescope tele b) := by
  induction tele generalizing n with
  | nil => exact hb
  | cons ty rest ih =>
    refine hP.pi (ht 0 ty rfl) (ih (fun q ty' hq => ?_) ?_)
    · rw [Nat.add_right_comm]
      exact ht (q + 1) ty' hq
    · rw [Nat.add_right_comm]
      exact hb

theorem ScopedTele.shift (h : ScopedTele P n tele) {m : Nat} (k : Nat)
    (hm : n + k ≤ m) :
    ScopedTele P m (tele.zipIdx.map fun (ty, q) => Kernel.shift ty (k : Int) q) := by
  intro q ty hq
  rw [List.getElem?_map, List.getElem?_zipIdx] at hq
  obtain ⟨⟨a, b⟩, hab, rfl⟩ := Option.map_eq_some_iff.mp hq
  obtain ⟨ty', hty, he⟩ := Option.map_eq_some_iff.mp hab
  cases he
  exact hP.shift k _ (h q _ hty) (by omega)

theorem ScopeRule.vars {k : Nat} {f : Nat → Nat} (h : ∀ a < k, f a < n) :
    ∀ t ∈ (range k).map fun a => Tm.var (f a), P n t := by
  intro t ht
  obtain ⟨a, ha, rfl⟩ := mem_map.mp ht
  exact hP.var (h a (mem_range.mp ha))

theorem ScopeRule.indApp (hi : ∀ n, P n (.ind i)) (p nidx depth : Nat)
    (hn : p + depth + nidx ≤ n) : P n (indApp i p nidx depth) :=
  hP.apply.mpr ⟨hi _, forall_mem_append.mpr
    ⟨hP.vars fun a _ => by omega, hP.vars fun a _ => by omega⟩⟩

theorem ScopeRule.hypType {p : Nat} {fields : Telescope} (h : ScopedTele P p fields)
    (k j : Nat) {q : Nat} (hq : q < fields.length) (hn : p + 1 + k + fields.length + j ≤ n) :
    P n (hypType i p fields k j q) := by
  refine hP.app.mpr ⟨hP.apply.mpr ⟨hP.var (by omega), fun t ht => ?_⟩, hP.var (by omega)⟩
  obtain ⟨x, hx, rfl⟩ := mem_map.mp ht
  have hfield : fields[q]? = some (fields.getD q (.sort 0)) := by
    rw [getD_eq_getElem?_getD, List.getElem?_eq_getElem hq]
    rfl
  have hty := h q _ hfield
  rw [← apply_head_args (fields.getD q (.sort 0)), hP.apply] at hty
  have hxc : P (p + q) x := by
    unfold indIndices at hx
    split at hx
    · exact hty.2 x (mem_of_mem_drop hx)
    · cases hx
  exact hP.shift _ _ (hP.shift _ _ hxc le_rfl) (by omega)

end

section

variable (h : ScopedDecl P d)
include h

theorem ScopedDecl.getD (k : Nat) :
    ScopedTele P d.params.length (d.ctors.getD k ⟨0, [], []⟩).args ∧
      ∀ t ∈ (d.ctors.getD k ⟨0, [], []⟩).retIndices,
        P (d.params.length + (d.ctors.getD k ⟨0, [], []⟩).args.length) t := by
  rw [getD_eq_getElem?_getD]
  cases hk : d.ctors[k]? with
  | none => exact ⟨nofun, nofun⟩
  | some c =>
    have hc := mem_of_getElem? hk
    exact ⟨h.args c hc, h.retIndices c hc⟩

theorem ScopedDecl.minorType (hP : ScopeRule P) (k : Nat)
    (hn : d.params.length + 1 + k ≤ n) : P n (minorType d k) := by
  unfold Kernel.minorType
  extract_lets i p c m recs r paramVars fieldVars retArgs body hyps fields
  obtain ⟨hargs, hret⟩ : ScopedTele P p c.args ∧ ∀ t ∈ c.retIndices, P (p + m) t := h.getD k
  have hm : fields.length = m := by simp [fields, m]
  have hr : hyps.length = r := by simp [hyps, r]
  refine hP.telescope (hargs.shift hP (k + 1) (by omega)) (hP.telescope (fun j ty hj => ?_)
    (hP.app.mpr ⟨hP.apply.mpr ⟨hP.var (by omega), fun t ht => ?_⟩,
      hP.apply.mpr ⟨hP.apply.mpr ⟨h.ctor _ k, hP.vars fun a _ => by omega⟩,
        hP.vars fun q _ => by omega⟩⟩))
  · simp only [hyps, List.getElem?_map, List.getElem?_zipIdx] at hj
    obtain ⟨⟨a, b⟩, hab, rfl⟩ := Option.map_eq_some_iff.mp hj
    obtain ⟨q, hq, he⟩ := Option.map_eq_some_iff.mp hab
    cases he
    have hlt : a < c.args.length := mem_range.mp (mem_of_mem_filter (mem_of_getElem? hq))
    exact hP.hypType hargs k (0 + j) hlt (by omega)
  · obtain ⟨ri, hri, rfl⟩ := mem_map.mp ht
    exact hP.shift _ _ (hP.shift _ _ (hret ri hri) le_rfl) (by omega)

theorem ScopedDecl.recursorType (hP : ScopeRule P) (lm : Level) : P 0 (recursorType d lm) := by
  unfold Kernel.recursorType
  extract_lets i p c nidx result indices minors motiveTy
  have hc : minors.length = c := by simp [minors]
  have hn : indices.length = nidx := by simp [indices, nidx]
  refine hP.telescope h.params (hP.pi (hP.telescope ?_
      (hP.pi (hP.indApp h.ind p nidx 0 (by omega)) (hP.sort _ lm)))
    (hP.telescope (fun k ty hk => ?_) (hP.telescope (h.indices.shift hP (1 + c) (by omega))
      (hP.pi (hP.indApp h.ind p nidx (1 + c) (by omega)) (hP.apply.mpr ⟨hP.var (by omega),
        forall_mem_append.mpr ⟨hP.vars fun a _ => by omega,
          forall_mem_singleton.mpr (hP.var (by omega))⟩⟩)))))
  · rw [Nat.zero_add]
    exact h.indices
  · rw [List.getElem?_map] at hk
    obtain ⟨k', hk', rfl⟩ := Option.map_eq_some_iff.mp hk
    obtain ⟨hlt, hget⟩ := List.getElem?_eq_some_iff.mp hk'
    have hkk : k = k' := (getElem_range hlt).symm.trans hget
    exact h.minorType hP k' (by omega)

theorem ScopedDecl.indType (hP : ScopeRule P) : P 0 (indType d) := by
  refine hP.telescope h.params (hP.telescope ?_ (hP.sort _ _))
  rw [Nat.zero_add]
  exact h.indices

theorem ScopedDecl.ctorType (hP : ScopeRule P) {c : CtorDecl}
    (hi : ∀ n, P n (.ind i)) (hc : c ∈ d.ctors) : P 0 (ctorType i d c) := by
  refine hP.telescope h.params (hP.telescope ?_ (hP.apply.mpr ⟨hi _, ?_⟩))
  · rw [Nat.zero_add]
    exact h.args c hc
  · rw [Nat.zero_add]
    exact forall_mem_append.mpr ⟨hP.vars fun a _ => by omega, h.retIndices c hc⟩

end

end Scope

/-! ## The symbols of a term -/

/-- A set of constants and a set of inductives. -/
structure Symbols where
  consts : ConstId → Prop
  inds : IndId → Prop

/-- The symbols of a term belong to `S`. -/
def Tm.Over (S : Symbols) : Tm → Prop
  | .var _ | .sort _ => True
  | .pi a b | .lam a b | .app a b => a.Over S ∧ b.Over S
  | .const c => S.consts c
  | .ind i | .ctor i _ | .elim i => S.inds i

/-- The symbols of a list of terms belong to `S`. -/
def OverAll (S : Symbols) (ts : List Tm) : Prop := ∀ t ∈ ts, t.Over S

structure Inductive.Over (S : Symbols) (d : Inductive) : Prop where
  id : S.inds d.id
  params : OverAll S d.params
  indices : OverAll S d.indices
  args : ∀ c ∈ d.ctors, OverAll S c.args
  retIndices : ∀ c ∈ d.ctors, OverAll S c.retIndices

section Over

variable {S : Symbols}

theorem overAll_nil : OverAll S [] := nofun

section

variable {t : Tm} {ts : List Tm} {i : IndId} {p : Nat} {d : Inductive} {tele : Telescope}

theorem overAll_cons : OverAll S (t :: ts) ↔ t.Over S ∧ OverAll S ts := forall_mem_cons

theorem OverAll.drop (h : OverAll S ts) (n : Nat) : OverAll S (ts.drop n) :=
  fun t ht => h t (mem_of_mem_drop ht)

theorem OverAll.getD (h : OverAll S ts) (n : Nat) : (ts.getD n (.sort 0)).Over S := by
  rw [getD_eq_getElem?_getD]
  cases hn : ts[n]? with
  | none => trivial
  | some t => exact h t (mem_of_getElem? hn)

@[simp] theorem over_shift {d : Int} {c : Nat} : (shift t d c).Over S ↔ t.Over S := by
  induction t generalizing c with
  | pi a b iha ihb | lam a b iha ihb | app a b iha ihb => exact and_congr iha ihb
  | _ => exact Iff.rfl

theorem over_subst {b a : Tm} {j : Nat} (hb : b.Over S) (ha : a.Over S) : (subst b j a).Over S := by
  induction b generalizing j with
  | var i =>
    unfold subst
    split
    · exact over_shift.mpr ha
    · trivial
  | pi x y ihx ihy | lam x y ihx ihy | app x y ihx ihy => exact ⟨ihx hb.1, ihy hb.2⟩
  | _ => exact hb

theorem over_apply {h : Tm} {args : List Tm} :
    (apply h args).Over S ↔ h.Over S ∧ OverAll S args := by
  induction args generalizing h with
  | nil => simp [overAll_nil]
  | cons a args ih => rw [apply_cons, ih, overAll_cons, ← and_assoc]; rfl

theorem over_spine : t.Over S ↔ t.head.Over S ∧ OverAll S t.args := by
  conv_lhs => rw [← apply_head_args t]
  exact over_apply

theorem scopeRule_over (S : Symbols) : ScopeRule fun _ t => t.Over S where
  var _ := trivial
  sort _ _ := trivial
  pi ha hb := ⟨ha, hb⟩
  app := Iff.rfl
  shift _ _ h _ := over_shift.mpr h

theorem Inductive.Over.scoped (h : d.Over S) : ScopedDecl (fun _ t => t.Over S) d where
  ind _ := h.id
  ctor _ _ := h.id
  params _ ty hq := h.params ty (mem_of_getElem? hq)
  indices _ ty hq := h.indices ty (mem_of_getElem? hq)
  args c hc _ ty hq := h.args c hc ty (mem_of_getElem? hq)
  retIndices := h.retIndices

end

end Over

/-! ## Agreement -/

/-- The two environments give the symbols of `S` the same declarations, over `S` again. -/
structure AgreeOn (S : Symbols) (env env' : GlobalEnv) : Prop where
  consts : ∀ c, S.consts c → env'.consts c = env.consts c
  inds : ∀ i, S.inds i → env'.inds i = env.inds i
  const_over : ∀ c ty body, S.consts c → env.consts c = some (ty, body) → ty.Over S ∧ body.Over S
  ind_over : ∀ i d, S.inds i → env.inds i = some d → d.Over S

/-- Every call of `K` over `S` that returns, returns the same from `K'`. -/
structure CallsAgree (S : Symbols) (K K' : Calls) : Prop where
  whnf : ∀ {ctx t}, OverAll S ctx → t.Over S →
    Sim (Keeps (Tm.Over S)) (K.whnf ctx t) (K'.whnf ctx t)
  nf : ∀ {ctx t}, OverAll S ctx → t.Over S → Sim (Keeps (Tm.Over S)) (K.nf ctx t) (K'.nf ctx t)
  infer : ∀ {ctx t}, OverAll S ctx → t.Over S →
    Call.Sim (Keeps (Tm.Over S)) (K.infer ctx t) (K'.infer ctx t)

section Agree

variable {B : Build} {S : Symbols} {env env' : GlobalEnv} {K K' : Calls} {ctx : Ctx} {t : Tm}
  {i : IndId}

theorem AgreeOn.constBody (h : AgreeOn S env env') {c : ConstId} (hc : S.consts c) :
    env'.constBody c = env.constBody c := by
  rw [GlobalEnv.constBody, h.consts c hc]
  rfl

theorem CallsAgree.fieldIndices (hK : CallsAgree S K K') {np nidx : Nat} {field : Tm}
    (hctx : OverAll S ctx) (hf : field.Over S) :
    Sim (Keeps fun r => ∀ ts, r = some ts → OverAll S ts)
      (fieldIndices K ctx i np nidx field) (fieldIndices K' ctx i np nidx field) := by
  unfold Kernel.fieldIndices
  split
  · exact Sim.some ⟨rfl, fun ts h => by cases h; exact overAll_nil⟩
  · have hinf := hK.infer hctx hf
    match hk : K.infer ctx field with
    | none => exact Sim.none
    | some (.error e) =>
      rw [hinf.2 e hk]
      exact Sim.some ⟨rfl, nofun⟩
    | some (.ok ty) =>
      obtain ⟨_, hk', rfl, hty⟩ := hinf.1 ty hk
      rw [hk']
      refine (hK.whnf hctx hty).bind ?_
      rintro w _ ⟨rfl, hw⟩
      split
      · refine Sim.some ⟨rfl, fun ts h => ?_⟩
        cases h
        exact (over_spine.mp hw).2.drop np
      · exact Sim.some ⟨rfl, nofun⟩

theorem CallsAgree.addHyps (hK : CallsAgree S K K') {np nidx : Nat}
    {elimPrefix fields : List Tm} (hctx : OverAll S ctx) (hi : S.inds i)
    (hp : OverAll S elimPrefix) (hf : OverAll S fields) (argTys : Telescope) (pos : Nat) {res : Tm}
    (hres : res.Over S) : Sim (Keeps fun r => ∀ t, r = some t → t.Over S)
      (addHyps K ctx i np nidx elimPrefix fields argTys pos res)
      (addHyps K' ctx i np nidx elimPrefix fields argTys pos res) := by
  induction argTys generalizing pos res with
  | nil => exact Sim.some ⟨rfl, fun t h => by cases h; exact hres⟩
  | cons argTy rest ih =>
    unfold Kernel.addHyps
    split
    · cases hfield : fields[pos]? with
      | none => exact Sim.some ⟨rfl, nofun⟩
      | some field =>
        have hfo := hf field (mem_of_getElem? hfield)
        refine (hK.fieldIndices hctx hfo).bind ?_
        rintro r _ ⟨rfl, hr⟩
        cases r with
        | none => exact Sim.some ⟨rfl, nofun⟩
        | some idxs =>
          exact ih (pos + 1) ⟨hres, over_apply.mpr ⟨over_apply.mpr ⟨hi, hp⟩, hr idxs rfl⟩, hfo⟩
    · exact ih (pos + 1) hres

theorem CallsAgree.tryIota (hK : CallsAgree S K K') (hE : AgreeOn S env env')
    {args : List Tm} (hctx : OverAll S ctx) (hi : S.inds i) (ha : OverAll S args) :
    Sim (Keeps fun r => ∀ t, r = some t → t.Over S)
      (tryIota env K ctx i args) (tryIota env' K' ctx i args) := by
  unfold Kernel.tryIota
  rw [hE.inds i hi]
  cases hd : env.inds i with
  | none => exact Sim.some ⟨rfl, nofun⟩
  | some d =>
    dsimp only
    split
    · exact Sim.some ⟨rfl, nofun⟩
    · refine (hK.whnf hctx (ha.getD _)).bind ?_
      rintro scrut _ ⟨rfl, hs⟩
      have hsargs := (over_spine.mp hs).2
      generalize scrut.head = h
      cases h with
      | ctor j k =>
        dsimp only
        split
        · cases hc : d.ctors[k]? with
          | none => exact Sim.some ⟨rfl, nofun⟩
          | some c =>
            refine (hK.addHyps hctx hi (fun t ht => ha t (mem_of_mem_take ht)) (hsargs.drop _) c.args 0
              (over_apply.mpr ⟨ha.getD _, hsargs.drop _⟩)).bind ?_
            rintro r _ ⟨rfl, hr⟩
            cases r with
            | none => exact Sim.some ⟨rfl, nofun⟩
            | some res =>
              refine Sim.some ⟨rfl, fun t h => ?_⟩
              cases h
              exact over_apply.mpr ⟨hr res rfl, ha.drop _⟩
        · exact Sim.some ⟨rfl, nofun⟩
      | _ => exact Sim.some ⟨rfl, nofun⟩

theorem CallsAgree.whnfTm (hK : CallsAgree S K K') (hE : AgreeOn S env env')
    (hctx : OverAll S ctx) (ht : t.Over S) :
    Sim (Keeps (Tm.Over S)) (whnfTm env K ctx t) (whnfTm env' K' ctx t) := by
  obtain ⟨hh, ha⟩ := over_spine.mp ht
  unfold Kernel.whnfTm
  generalize t.head = h at hh
  generalize t.args = args at ha
  cases h with
  | lam d body =>
    cases args with
    | nil => exact Sim.some ⟨rfl, ht⟩
    | cons a args =>
      obtain ⟨ha, hargs⟩ := overAll_cons.mp ha
      exact hK.whnf hctx (over_apply.mpr ⟨over_subst hh.2 ha, hargs⟩)
  | const c =>
    dsimp only
    rw [hE.constBody hh]
    cases hb : env.constBody c with
    | none => exact Sim.some ⟨rfl, ht⟩
    | some b =>
      obtain ⟨⟨ty, _⟩, hc, rfl⟩ := Option.map_eq_some_iff.mp hb
      exact hK.whnf hctx (over_apply.mpr ⟨(hE.const_over c ty _ hh hc).2, ha⟩)
  | elim i =>
    refine (hK.tryIota hE hctx hh ha).bind ?_
    rintro r _ ⟨rfl, hr⟩
    cases r with
    | none => exact Sim.some ⟨rfl, ht⟩
    | some t' => exact hK.whnf hctx (hr t' rfl)
  | _ => exact Sim.some ⟨rfl, ht⟩

theorem over_etaContract {dom body : Tm} (hd : dom.Over S) (hb : body.Over S) :
    (etaContract dom body).Over S := by
  unfold etaContract
  split
  · split
    · exact ⟨hd, hb⟩
    · exact over_shift.mpr hb.1
  · exact ⟨hd, hb⟩

section

variable (hK : CallsAgree S K K')
include hK

section

variable (hctx : OverAll S ctx)
include hctx

theorem CallsAgree.nfTm
    (ht : t.Over S) : Sim (Keeps (Tm.Over S)) (nfTm K ctx t) (nfTm K' ctx t) := by
  refine (hK.whnf hctx ht).bind ?_
  rintro w _ ⟨rfl, hw⟩
  cases w with
  | lam d b =>
    refine (hK.nf hctx hw.1).bind ?_
    rintro dom _ ⟨rfl, hdom⟩
    refine (hK.nf (overAll_cons.mpr ⟨hw.1, hctx⟩) hw.2).bind ?_
    rintro body _ ⟨rfl, hbody⟩
    exact Sim.some ⟨rfl, over_etaContract hdom hbody⟩
  | pi d b =>
    refine (hK.nf hctx hw.1).bind ?_
    rintro dom _ ⟨rfl, hdom⟩
    refine (hK.nf (overAll_cons.mpr ⟨hw.1, hctx⟩) hw.2).bind ?_
    rintro cod _ ⟨rfl, hcod⟩
    exact Sim.some ⟨rfl, hdom, hcod⟩
  | app f x =>
    refine (hK.nf hctx hw.1).bind ?_
    rintro f' _ ⟨rfl, hf⟩
    refine (hK.nf hctx hw.2).bind ?_
    rintro x' _ ⟨rfl, hx⟩
    exact Sim.some ⟨rfl, hf, hx⟩
  | _ => exact Sim.some ⟨rfl, hw⟩

theorem CallsAgree.conv {t u : Tm}
    (ht : t.Over S) (hu : u.Over S) :
    Call.Sim (Keeps fun _ => True) (conv B K ctx t u) (conv B K' ctx t u) := by
  rw [conv_eq, conv_eq]
  refine Call.Sim.ofOption ((hK.nf hctx ht).bind ?_)
  rintro a _ ⟨rfl, -⟩
  refine (hK.nf hctx hu).bind ?_
  rintro b _ ⟨rfl, -⟩
  exact Sim.some ⟨rfl, trivial⟩

theorem CallsAgree.asPi (ht : t.Over S) :
    Call.Sim (Keeps fun p : Tm × Tm => p.1.Over S ∧ p.2.Over S) (asPi K ctx t) (asPi K' ctx t) := by
  refine (Call.Sim.ofOption (hK.whnf hctx ht)).bind ?_
  rintro w _ ⟨rfl, hw⟩
  cases w with
  | pi a b => exact Call.Sim.ok ⟨rfl, hw⟩
  | _ => exact Call.Sim.error

theorem CallsAgree.sortOf (ht : t.Over S) :
    Call.Sim (Keeps fun _ => True) (sortOf K ctx t) (sortOf K' ctx t) := by
  refine (hK.infer hctx ht).bind ?_
  rintro ty _ ⟨rfl, hty⟩
  refine (Call.Sim.ofOption (hK.whnf hctx hty)).bind ?_
  rintro w _ ⟨rfl, hw⟩
  cases w with
  | sort l => exact Call.Sim.ok ⟨rfl, trivial⟩
  | _ => exact Call.Sim.error

theorem CallsAgree.check {t ty : Tm}
    (ht : t.Over S) (hty : ty.Over S) :
    Call.Sim (Keeps fun _ => True) (check B K ctx t ty) (check B K' ctx t ty) := by
  refine (hK.infer hctx ht).bind ?_
  rintro got _ ⟨rfl, hgot⟩
  have hconv := hK.conv (B := B) hctx hgot hty
  match hc : Kernel.conv B K ctx got ty with
  | none => exact Call.Sim.pending
  | some (.error e) =>
    rw [hconv.2 e hc]
    exact Call.Sim.error
  | some (.ok b) =>
    obtain ⟨_, hc', rfl, -⟩ := hconv.1 b hc
    rw [hc']
    cases b with
    | true => exact Call.Sim.ok ⟨rfl, trivial⟩
    | false => exact Call.Sim.error

end

theorem CallsAgree.peelPis (n : Nat) {ty : Tm} (hctx : OverAll S ctx)
    (hty : ty.Over S) :
    Call.Sim (Keeps (Tm.Over S)) (peelPis K ctx n ty) (peelPis K' ctx n ty) := by
  induction n generalizing ty with
  | zero => exact Call.Sim.ok ⟨rfl, hty⟩
  | succ n ih =>
    refine (hK.asPi hctx hty).bind ?_
    rintro ⟨_, cod⟩ _ ⟨rfl, hp⟩
    exact ih hp.2

theorem CallsAgree.applyArgs (args : List Tm) {ty : Tm}
    (hctx : OverAll S ctx) (ha : OverAll S args) (hty : ty.Over S) :
    Call.Sim (Keeps (Tm.Over S)) (applyArgs B K ctx args ty) (applyArgs B K' ctx args ty) := by
  induction args generalizing ty with
  | nil => exact Call.Sim.ok ⟨rfl, hty⟩
  | cons a args ih =>
    obtain ⟨ha, hargs⟩ := overAll_cons.mp ha
    refine (hK.asPi hctx hty).bind ?_
    rintro ⟨dom, cod⟩ _ ⟨rfl, hp⟩
    refine (hK.check hctx ha hp.1).bind ?_
    rintro _ _ -
    exact ih hargs (over_subst hp.2 ha)

theorem CallsAgree.inferElim (hE : AgreeOn S env env')
    {args : List Tm} (hctx : OverAll S ctx) (hi : S.inds i) (ha : OverAll S args) :
    Call.Sim (Keeps (Tm.Over S)) (inferElim B env K ctx i args)
      (inferElim B env' K' ctx i args) := by
  unfold Kernel.inferElim
  rw [hE.inds i hi]
  cases hd : env.inds i with
  | none => exact Call.Sim.error
  | some d =>
    dsimp only
    cases hm : args[d.params.length]? with
    | none => exact Call.Sim.error
    | some motive =>
      refine (hK.infer hctx (ha motive (mem_of_getElem? hm))).bind ?_
      rintro mty _ ⟨rfl, hmty⟩
      refine (hK.peelPis _ hctx hmty).bind ?_
      rintro mty' _ ⟨rfl, hmty'⟩
      refine (Call.Sim.ofOption (hK.whnf hctx hmty')).bind ?_
      rintro w _ ⟨rfl, hw⟩
      cases w with
      | sort lm =>
        exact hK.applyArgs args hctx ha
          ((hE.ind_over i d hi hd).scoped.recursorType (scopeRule_over S) lm)
      | _ => exact Call.Sim.error

theorem CallsAgree.inferNode (hE : AgreeOn S env env')
    (hctx : OverAll S ctx) (ht : t.Over S) :
    Call.Sim (Keeps (Tm.Over S)) (inferNode B env K ctx t) (inferNode B env' K' ctx t) := by
  cases t with
  | var i =>
    simp only [Kernel.inferNode, varType]
    cases hi : ctx[i]? with
    | none => exact Call.Sim.error
    | some ty => exact Call.Sim.ok ⟨rfl, over_shift.mpr (hctx ty (mem_of_getElem? hi))⟩
  | sort l =>
    simp only [Kernel.inferNode]
    cases B.succ l with
    | none => exact Call.Sim.pending
    | some l' => exact Call.Sim.ok ⟨rfl, trivial⟩
  | pi a b =>
    refine (hK.sortOf hctx ht.1).bind ?_
    rintro i _ ⟨rfl, -⟩
    refine (hK.sortOf (overAll_cons.mpr ⟨ht.1, hctx⟩) ht.2).bind ?_
    rintro j _ ⟨rfl, -⟩
    exact Call.Sim.ok ⟨rfl, trivial⟩
  | lam a b =>
    refine (hK.sortOf hctx ht.1).bind ?_
    rintro i _ ⟨rfl, -⟩
    refine (hK.infer (overAll_cons.mpr ⟨ht.1, hctx⟩) ht.2).bind ?_
    rintro bt _ ⟨rfl, hbt⟩
    exact Call.Sim.ok ⟨rfl, ht.1, hbt⟩
  | app f x =>
    refine (hK.infer hctx ht.1).bind ?_
    rintro ft _ ⟨rfl, hft⟩
    refine (hK.asPi hctx hft).bind ?_
    rintro ⟨dom, cod⟩ _ ⟨rfl, hp⟩
    refine (hK.check hctx ht.2 hp.1).bind ?_
    rintro _ _ -
    exact Call.Sim.ok ⟨rfl, over_subst hp.2 ht.2⟩
  | const c =>
    simp only [Kernel.inferNode]
    rw [hE.consts c ht]
    cases hc : env.consts c with
    | none => exact Call.Sim.error
    | some p => exact Call.Sim.ok ⟨rfl, (hE.const_over c p.1 p.2 ht hc).1⟩
  | ind i =>
    simp only [Kernel.inferNode]
    rw [hE.inds i ht]
    cases hd : env.inds i with
    | none => exact Call.Sim.error
    | some d => exact Call.Sim.ok ⟨rfl, (hE.ind_over i d ht hd).scoped.indType (scopeRule_over S)⟩
  | ctor i k =>
    simp only [Kernel.inferNode]
    rw [hE.inds i ht]
    cases hd : env.inds i with
    | none => exact Call.Sim.error
    | some d =>
      dsimp only
      cases hc : d.ctors.find? (fun c => c.ctorIx = k) with
      | none => exact Call.Sim.error
      | some c =>
        exact Call.Sim.ok ⟨rfl, (hE.ind_over i d ht hd).scoped.ctorType (scopeRule_over S)
          (fun _ => ht) (mem_of_find?_eq_some hc)⟩
  | elim i => exact Call.Sim.error

theorem CallsAgree.infer_body (hE : AgreeOn S env env')
    (hctx : OverAll S ctx) (ht : t.Over S) :
    Call.Sim (Keeps (Tm.Over S)) (Kernel.infer B env K ctx t) (Kernel.infer B env' K' ctx t) := by
  obtain ⟨hh, ha⟩ := over_spine.mp ht
  have hnode := hK.inferNode (B := B) hE hctx ht
  unfold Kernel.infer
  generalize t.head = h at hh
  cases h with
  | elim i => exact hK.inferElim hE hctx hh ha
  | _ => exact hnode

end

/-- The kernel's answers over `S` do not depend on the rest of the environment, and more
nested calls keep them. -/
theorem run_agree (hE : AgreeOn S env env') {n m : Nat} (hnm : n ≤ m) :
    CallsAgree S (run B env n) (run B env' m) := by
  induction n generalizing m with
  | zero => exact ⟨fun _ _ => Sim.none, fun _ _ => Sim.none, fun _ _ => Call.Sim.pending⟩
  | succ n ih =>
    obtain ⟨m, rfl⟩ := Nat.exists_eq_add_one_of_ne_zero (by omega : m ≠ 0)
    have hK := ih (m := m) (by omega)
    exact ⟨hK.whnfTm hE, hK.nfTm, hK.infer_body hE⟩

end Agree

/-! ## More nested calls -/

/-- Every symbol. -/
def everySymbol : Symbols := ⟨fun _ => True, fun _ => True⟩

theorem over_everySymbol (t : Tm) : t.Over everySymbol := by
  induction t with
  | pi a b iha ihb | lam a b iha ihb | app a b iha ihb => exact ⟨iha, ihb⟩
  | _ => trivial

theorem overAll_everySymbol (ts : List Tm) : OverAll everySymbol ts :=
  fun t _ => over_everySymbol t

theorem agreeOn_everySymbol (env : GlobalEnv) : AgreeOn everySymbol env env where
  consts _ _ := rfl
  inds _ _ := rfl
  const_over _ ty body _ _ := ⟨over_everySymbol ty, over_everySymbol body⟩
  ind_over _ d _ _ :=
    { id := trivial
      params := overAll_everySymbol d.params
      indices := overAll_everySymbol d.indices
      args := fun c _ => overAll_everySymbol c.args
      retIndices := fun c _ => overAll_everySymbol c.retIndices }

section Mono

variable {B : Build} {env : GlobalEnv} {n m : Nat} {ctx : Ctx} {t u : Tm}

theorem run_mono (hnm : n ≤ m) : CallsAgree everySymbol (run B env n) (run B env m) :=
  run_agree (agreeOn_everySymbol env) hnm

theorem whnf_mono {v : Tm} (h : (run B env n).whnf ctx t = some v) (hnm : n ≤ m) :
    (run B env m).whnf ctx t = some v := by
  obtain ⟨_, h', rfl, -⟩ :=
    (run_mono hnm).whnf (overAll_everySymbol ctx) (over_everySymbol t) v h
  exact h'

theorem nf_mono {v : Tm} (h : (run B env n).nf ctx t = some v) (hnm : n ≤ m) :
    (run B env m).nf ctx t = some v := by
  obtain ⟨_, h', rfl, -⟩ :=
    (run_mono hnm).nf (overAll_everySymbol ctx) (over_everySymbol t) v h
  exact h'

theorem infer_mono {r : Except TypeError Tm} (h : (run B env n).infer ctx t = some r)
    (hnm : n ≤ m) : (run B env m).infer ctx t = some r := by
  have hsim := (@run_mono B env n m hnm).infer (overAll_everySymbol ctx) (over_everySymbol t)
  cases r with
  | error e => exact hsim.2 e h
  | ok T =>
    obtain ⟨_, h', rfl, -⟩ := hsim.1 T h
    exact h'

theorem sortOf_mono {l : Level} (h : sortOf (run B env n) ctx t = .ok l) (hnm : n ≤ m) :
    sortOf (run B env m) ctx t = .ok l := by
  obtain ⟨_, h', rfl, -⟩ :=
    ((run_mono hnm).sortOf (overAll_everySymbol ctx) (over_everySymbol t)).1 l h
  exact h'

theorem check_mono (h : check B (run B env n) ctx t u = .ok ()) (hnm : n ≤ m) :
    check B (run B env m) ctx t u = .ok () := by
  obtain ⟨_, h', -, -⟩ := ((run_mono hnm).check (overAll_everySymbol ctx)
    (over_everySymbol t) (over_everySymbol u)).1 () h
  exact h'

theorem applyArgs_mono {args : List Tm} {ty T : Tm}
    (h : applyArgs B (run B env n) ctx args ty = .ok T) (hnm : n ≤ m) :
    applyArgs B (run B env m) ctx args ty = .ok T := by
  obtain ⟨_, h', rfl, -⟩ := ((run_mono hnm).applyArgs (B := B) args (overAll_everySymbol ctx)
    (overAll_everySymbol args) (over_everySymbol ty)).1 T h
  exact h'

end Mono

end Dnet.Kernel
