import Dnet.Kernel.Extract
import Dnet.Kernel.Lower
import Dnet.Kernel.Parallel
import Dnet.Kernel.Scope

/-!
# The unfolding equation of a lowered fix

On a constructor, a fix should mean the right-hand side of its arm. For the lowered fix this
is an equation of normal forms, in which every call of the function is an induction hypothesis.

A call on a field reduces to the recursor on that field under the parameters of the call; the
hypothesis is the recursor under those of the outer call. The two agree when the decreasing
parameter is matched on and mentioned nowhere else (`lowered_fix_unfolds`). An arm that mentions
it sees the outermost argument at every level: the sum up to two is four (`sum_not_unfolded`).
-/

namespace Dnet.Kernel

open List Lib

/-! ## Relocation is a renaming -/

/-- Where `relocate` sends a variable. -/
def relocRen (s : FixScope) (depth i : Nat) : Nat :=
  if i < depth then i else if i ≤ depth + s.selfSrc then i + s.r else i - 1 + s.r

theorem upRen_relocRen (s : FixScope) (depth : Nat) :
    upRen (relocRen s depth) = relocRen s (depth + 1) := by
  funext i
  cases i with
  | zero => simp [upRen, relocRen]
  | succ i =>
    simp only [upRen, relocRen]
    split_ifs <;> omega

theorem relocate_eq_ren (s : FixScope) (t : Tm) (depth : Nat) :
    relocate s t depth = t.ren (relocRen s depth) := by
  have hcut : depth + 1 + s.selfSrc + 1 = depth + s.selfSrc + 1 + 1 := by omega
  induction t generalizing depth with
  | var i =>
    simp only [relocate, shift, Tm.ren, relocRen]
    congr 1
    split_ifs <;> omega
  | pi a b iha ihb | lam a b iha ihb =>
    have hb := ihb (depth + 1) (by omega)
    simp only [relocate, hcut] at iha hb
    simp only [relocate, shift, Tm.ren, iha depth hcut, upRen_relocRen, hb]
  | app f x ihf ihx =>
    simp only [relocate] at ihf ihx
    simp only [relocate, shift, Tm.ren, ihf depth hcut, ihx depth hcut]
  | _ => rfl

/-! ## Calls of the function -/

section

variable {depth : Nat} {s : FixScope} {env : GlobalEnv} {r : Tm} {σ τ : Nat → Tm}
  {args : List SrcTm}

theorem SrcTm.isVar_iff {t : SrcTm} {v : Nat} : t.isVar v depth = true ↔ t = .var (v + depth) := by
  cases t with
  | var w =>
    simp only [SrcTm.isVar, Bool.and_eq_true, decide_eq_true_eq, SrcTm.var.injEq]
    omega
  | _ => exact ⟨nofun, nofun⟩

theorem uniformArgs_get {pos outer : Nat} {a : SrcTm}
    (h : uniformArgs s args depth = true) (ha : args[pos]? = some a)
    (ho : s.outerSrc[pos]? = some outer) (hne : pos ≠ s.recArg) : a = .var (outer + depth) := by
  have hmem : ((a, outer), pos) ∈ (args.zip s.outerSrc).zipIdx := by
    rw [mem_zipIdx_iff_getElem?, List.getElem?_zip_eq_some]
    exact ⟨ha, ho⟩
  have hpos := all_eq_true.mp h _ hmem
  simp only [Bool.or_eq_true, decide_eq_true_eq] at hpos
  exact SrcTm.isVar_iff.mp (hpos.resolve_left hne)

/-- A translated call: all arguments are variables of the arm's root, the parameters of the
fix except for one recursive field. -/
theorem selfCallToIh_eq_ok {t : Tm} (h : selfCallToIh s args depth = .ok t) :
    ∃ v ih, s.fieldToIh.lookup v = some ih ∧
      args = (s.outerSrc.set s.recArg v).map (fun o => .var (o + depth)) ∧
      t = .var (ih + depth) := by
  unfold selfCallToIh at h
  split at h
  · next hlen =>
    split at h
    · cases h
    · next v hdec =>
      split at h
      · next hle =>
        split at h
        · cases h
        · next ih hih =>
          split at h
          · next huni =>
            refine ⟨v - depth, ih, hih, ext_getElem? fun pos => ?_, (Except.ok.inj h).symm⟩
            rw [List.getElem?_map, List.getElem?_set]
            by_cases hpos : s.recArg = pos
            · subst hpos
              have hlt := (List.getElem?_eq_some_iff.mp hdec).1
              rw [if_pos rfl, if_pos (hlen ▸ hlt), hdec, Option.map_some, Nat.sub_add_cancel hle]
            · rw [if_neg hpos]
              cases ha : args[pos]? with
              | none =>
                rw [List.getElem?_eq_none (hlen ▸ List.getElem?_eq_none_iff.mp ha)]
                rfl
              | some a =>
                have hlt : pos < s.outerSrc.length := hlen ▸ (List.getElem?_eq_some_iff.mp ha).1
                have ho := List.getElem?_eq_getElem hlt
                rw [ho, uniformArgs_get huni ha ho (Ne.symm hpos)]
                rfl
          · cases h
      · cases h
    · cases h
  · cases h

theorem lower_vars (env : GlobalEnv) (src : SrcTm) {h : Nat} {vs : List Nat}
    (hhead : src.head = .var h) (hargs : src.args = vs.map .var) :
    lower env src = .ok (apply (.var h) (vs.map .var)) := by
  match src with
  | .var _ =>
    cases hhead
    cases vs with
    | nil => rw [lower]; rfl
    | cons _ _ => cases hargs
  | .app f x =>
    rcases vs.eq_nil_or_concat' with rfl | ⟨us, w, rfl⟩
    · exact absurd hargs (by simp [SrcTm.args])
    · rw [map_append] at hargs
      obtain ⟨hf, hx⟩ := append_inj' hargs rfl
      cases hx
      rw [lower, lower_vars env f hhead hf, lower, map_append]
      exact congrArg Except.ok (apply_concat _ _ _).symm
  | .core _ | .lam _ _ | .matchOn _ _ _ _ | .fix _ _ _ => cases hhead

/-! ## An arm and its translation -/

/-- An arm under `depth` binders of its own, with its translation inside the fix and the term
that it is outside. It is made of variables, kernel terms, functions and applications. -/
inductive ArmTerm (s : FixScope) : Nat → SrcTm → Tm → Tm → Prop where
  | var {depth v : Nat} : v ≠ depth + s.selfSrc →
      ArmTerm s depth (.var v) (.var (relocRen s depth v)) (.var v)
  | core {depth : Nat} {t : Tm} : occursVar t (depth + s.selfSrc) ≠ true →
      ArmTerm s depth (.core t) (relocate s t depth) t
  | lam {depth : Nat} {dom body r : Tm} {src : SrcTm} : occursVar dom (depth + s.selfSrc) ≠ true →
      ArmTerm s (depth + 1) src body r →
        ArmTerm s depth (.lam dom src) (.lam (relocate s dom depth) body) (.lam dom r)
  /-- A call of the function. -/
  | call {depth v ih : Nat} {f x : SrcTm} : s.fieldToIh.lookup v = some ih →
      ArmTerm s depth (.app f x) (.var (ih + depth))
        (apply (.var (s.selfSrc + depth)) ((s.outerSrc.set s.recArg v).map fun o => .var (o + depth)))
  | app {depth : Nat} {f x : SrcTm} {g y f' x' : Tm} : ArmTerm s depth f g f' →
      ArmTerm s depth x y x' → ArmTerm s depth (.app f x) (.app g y) (.app f' x')

theorem rejectBareSelf_eq_ok {t : Tm} {u : Unit} (h : rejectBareSelf s t depth = .ok u) :
    occursVar t (depth + s.selfSrc) ≠ true := by
  unfold rejectBareSelf at h
  split at h
  · cases h
  · assumption

/-- An arm that has a translation has a meaning outside of the fix as well. -/
theorem armTerm_of_lowerRhs (env : GlobalEnv) (src : SrcTm) {depth : Nat} {body : Tm}
    (h : lowerRhs s src depth = .ok body) : ∃ r, lower env src = .ok r ∧ ArmTerm s depth src body r := by
  match src with
  | .var v =>
    rw [lowerRhs] at h
    obtain ⟨w, hw, h⟩ := bind_eq_ok.mp h
    cases h
    have hrel : v ≠ depth + s.selfSrc ∧ w = relocRen s depth v := by
      unfold relocateVar at hw
      unfold Kernel.relocRen
      split_ifs at hw ⊢ <;> cases hw <;> omega
    obtain ⟨hne, rfl⟩ := hrel
    exact ⟨.var v, by rw [lower], .var hne⟩
  | .core t =>
    rw [lowerRhs] at h
    obtain ⟨_, hself, h⟩ := bind_eq_ok.mp h
    cases h
    exact ⟨t, by rw [lower], .core (rejectBareSelf_eq_ok hself)⟩
  | .lam dom src =>
    rw [lowerRhs] at h
    obtain ⟨_, hself, h⟩ := bind_eq_ok.mp h
    obtain ⟨b, hb, h⟩ := bind_eq_ok.mp h
    cases h
    obtain ⟨r, hr, ha⟩ := armTerm_of_lowerRhs env src hb
    exact ⟨.lam dom r, by rw [lower, hr]; rfl, .lam (rejectBareSelf_eq_ok hself) ha⟩
  | .app f x =>
    rw [lowerRhs] at h
    split at h
    · next hself =>
      obtain ⟨v, ih, hih, hargs, rfl⟩ := selfCallToIh_eq_ok h
      refine ⟨_, ?_, .call hih⟩
      rw [lower_vars env (.app f x) (SrcTm.isVar_iff.mp hself) (hargs.trans map_map.symm), map_map]
      rfl
    · obtain ⟨g, hg, h⟩ := bind_eq_ok.mp h
      obtain ⟨y, hy, h⟩ := bind_eq_ok.mp h
      cases h
      obtain ⟨f', hf, haf⟩ := armTerm_of_lowerRhs env f hg
      obtain ⟨x', hx, hax⟩ := armTerm_of_lowerRhs env x hy
      exact ⟨.app f' x', by rw [lower, hf, hx]; rfl, .app haf hax⟩
  | .fix _ _ _ | .matchOn _ _ _ _ =>
    rw [lowerRhs] at h
    cases h

/-- A substitution for the source of an arm, and one for its translation. They agree on the
variables that move, and what a call of the function means reduces to its hypothesis. -/
structure FixScope.Matches (s : FixScope) (σ τ : Nat → Tm) : Prop where
  low : ∀ v, v < s.selfSrc → τ (v + s.r) = σ v
  high : ∀ v, s.selfSrc < v → τ (v - 1 + s.r) = σ v
  call : ∀ v ih, s.fieldToIh.lookup v = some ih →
    Reduces (apply (σ s.selfSrc) ((s.outerSrc.set s.recArg v).map σ)) (τ ih)

theorem FixScope.Matches.relocRen (h : s.Matches σ τ) {i : Nat} (hi : i ≠ depth + s.selfSrc) :
    upN depth τ (relocRen s depth i) = upN depth σ i := by
  unfold Kernel.relocRen
  split_ifs with hlt hle
  · rw [upN, upN, if_pos hlt, if_pos hlt]
  · obtain ⟨v, rfl⟩ := Nat.exists_eq_add_of_le' (Nat.le_of_not_lt hlt)
    rw [upN_add, Nat.add_right_comm, upN_add, h.low v (by omega)]
  · obtain ⟨v, rfl⟩ := Nat.exists_eq_add_of_le' (Nat.le_of_not_lt hlt)
    have hv : v + depth - 1 + s.r = v - 1 + s.r + depth := by omega
    rw [upN_add, hv, upN_add, h.high v (by omega)]

theorem FixScope.Matches.relocate (h : s.Matches σ τ) {t : Tm}
    (hocc : occursVar t (depth + s.selfSrc) ≠ true) :
    (relocate s t depth).inst (upN depth τ) = t.inst (upN depth σ) := by
  rw [relocate_eq_ren, inst_ren]
  refine inst_congr fun i hi => h.relocRen ?_
  rintro rfl
  exact hocc hi

/-- The source of an arm reduces to its translation. -/
theorem ArmTerm.reduces (hm : s.Matches σ τ) {src : SrcTm} {body : Tm}
    (h : ArmTerm s depth src body r) : Reduces (r.inst (upN depth σ)) (body.inst (upN depth τ)) := by
  induction h with
  | var hne =>
    simp only [Tm.inst, hm.relocRen hne]
    exact .refl
  | core hself => rw [hm.relocate hself]
  | lam hself _ ih =>
    simp only [Tm.inst, hm.relocate hself, up_upN]
    exact ih.lam
  | @call depth v ih _ _ hih =>
    have hcall := (hm.call v ih hih).ren (· + depth)
    rw [inst_apply]
    simp only [Tm.inst, upN_add, map_map]
    rw [ren_apply, map_map] at hcall
    convert hcall using 3
    funext o
    exact upN_add depth σ o
  | app _ _ ihf ihx => exact ihf.app ihx

/-- A parameter of the fix that the translation mentions is mentioned by the source. -/
theorem ArmTerm.occursVar {v : Nat} (hv : v < s.selfSrc)
    (hih : ∀ f ih, s.fieldToIh.lookup f = some ih → ih < s.r) {src : SrcTm} {body : Tm}
    (h : ArmTerm s depth src body r) (hocc : occursVar body (v + s.r + depth) = true) :
    occursVar r (v + depth) = true := by
  have hreloc {depth i : Nat} (hi : relocRen s depth i = v + s.r + depth) : i = v + depth := by
    unfold relocRen at hi
    split_ifs at hi <;> omega
  have hcore {depth : Nat} {t : Tm}
      (ht : Kernel.occursVar (relocate s t depth) (v + s.r + depth) = true) :
      Kernel.occursVar t (v + depth) = true := by
    rw [relocate_eq_ren] at ht
    obtain ⟨i, hi, he⟩ := occursVar_ren ht
    exact hreloc he ▸ hi
  induction h with
  | var _ => exact decide_eq_true (hreloc (of_decide_eq_true hocc))
  | core _ => exact hcore hocc
  | lam _ _ ih => exact Bool.or_eq_true_iff.mpr ((Bool.or_eq_true_iff.mp hocc).imp hcore ih)
  | @call depth w ih _ _ hlook =>
    have hlt := hih w ih hlook
    have he : ih + depth = v + s.r + depth := of_decide_eq_true hocc
    omega
  | app _ _ ihf ihx =>
    exact Bool.or_eq_true_iff.mpr ((Bool.or_eq_true_iff.mp hocc).imp ihf ihx)

/-! ## Head steps of the recursor -/

theorem recFields_cons (ty : Tm) (rest : Telescope) (i : IndId) : recFields (ty :: rest) i =
      (if headIsInd ty i then [0] else []) ++ (recFields rest i).map (· + 1) := by
  unfold recFields
  rw [length_cons, range_succ_eq_map, filter_cons, filter_map]
  split_ifs <;> simp_all [Function.comp_def]

theorem addHyps_simple {K : Calls} {ctx : Ctx} {i : IndId} {np : Nat} {pre fields : List Tm}
    (argTys : Telescope) (pos : Nat) (res : Tm) (hlen : fields.length = pos + argTys.length) :
    addHyps K ctx i np 0 pre fields argTys pos res =
      some (some (apply res ((recFields argTys i).map fun q =>
        .app (apply (.elim i) pre) (fields.getD (q + pos) (.sort 0))))) := by
  induction argTys generalizing pos res with
  | nil => rfl
  | cons ty rest ih =>
    rw [length_cons] at hlen
    have hrest : ∀ q, q + 1 + pos = q + (pos + 1) := fun q => by omega
    unfold addHyps
    rw [recFields_cons]
    by_cases hty : headIsInd ty i
    · have hfield : fields[pos]? = some (fields.getD pos (.sort 0)) := by
        rw [getD_eq_getElem?_getD, List.getElem?_eq_getElem (by omega)]
        rfl
      simp only [hty, if_true, hfield]
      refine (ih (pos + 1) _ (by omega)).trans ?_
      simp [Function.comp_def, hrest]
    · simp only [hty]
      refine (ih (pos + 1) _ (by omega)).trans ?_
      simp [Function.comp_def, hrest]

/-- The hypotheses that the recursor passes for a constructor with these fields. -/
def inductionHyps (i : IndId) (pre : List Tm) (argTys : Telescope) (fields : List Tm) : List Tm :=
  (recFields argTys i).map fun q => .app (apply (.elim i) pre) (fields.getD q (.sort 0))

end

section Iota

variable {B : Build} {env : GlobalEnv} {ctx : Ctx} {i : IndId} {ind : Inductive} {c : CtorDecl}
  {k : Nat} {motive minor v : Tm} {minors fields : List Tm}

theorem tryIota_simple {K : Calls}
    (hK : K.whnf ctx (apply (.ctor i k) fields) = some (apply (.ctor i k) fields))
    (hd : env.inds i = some ind) (hsimple : ind.params = [] ∧ ind.indices = [])
    (hc : ind.ctors[k]? = some c) (hlen : minors.length = ind.ctors.length)
    (hk : minors[k]? = some minor) (hf : fields.length = c.args.length) :
    tryIota env K ctx i ((motive :: minors) ++ [apply (.ctor i k) fields]) =
      some (some (apply minor (fields ++ inductionHyps i (motive :: minors) c.args fields))) := by
  have hscrut : ((motive :: minors) ++ [apply (.ctor i k) fields]).getD
      (0 + 1 + ind.ctors.length + 0 + 1 - 1) (.sort 0) = apply (.ctor i k) fields := by
    have hpos : 0 + 1 + ind.ctors.length + 0 + 1 - 1 = (motive :: minors).length := by
      rw [length_cons]
      omega
    rw [hpos, getD_eq_getElem?_getD, List.getElem?_concat_length]
    rfl
  have hminor : ((motive :: minors) ++ [apply (.ctor i k) fields]).getD (0 + 1 + k) (.sort 0)
      = minor := by
    have hlt := (List.getElem?_eq_some_iff.mp hk).1
    have hpos : 0 + 1 + k = k + 1 := by omega
    rw [hpos, getD_eq_getElem?_getD, cons_append, List.getElem?_cons_succ,
      List.getElem?_append_left hlt, hk]
    rfl
  have htake : ((motive :: minors) ++ [apply (.ctor i k) fields]).take (0 + 1 + ind.ctors.length)
      = motive :: minors := by
    rw [take_append_of_le_length (by rw [length_cons]; omega),
      take_of_length_le (by rw [length_cons]; omega)]
  have hdrop : ((motive :: minors) ++ [apply (.ctor i k) fields]).drop
      (0 + 1 + ind.ctors.length + 0 + 1) = [] := by
    refine drop_eq_nil_of_le ?_
    rw [length_append, length_cons, length_singleton]
    omega
  unfold tryIota
  rw [hd]
  dsimp only
  rw [hsimple.1, hsimple.2, length_nil, hscrut, hK, htake, hdrop]
  rw [if_neg (by rw [length_append, length_cons, length_singleton]; omega)]
  simp only [Option.bind_eq_bind, Option.bind_some, head_apply, args_apply, Tm.head, if_true, hc,
    Tm.args, nil_append, drop_zero, hminor]
  rw [addHyps_simple c.args 0 _ (by omega)]
  simp only [Option.bind_some, apply_nil, apply_append]
  rfl

/-- The normal form of a recursor on a constructor is that of the minor premise. -/
theorem nfs_iota (hd : env.inds i = some ind) (hsimple : ind.params = [] ∧ ind.indices = [])
    (hc : ind.ctors[k]? = some c) (hlen : minors.length = ind.ctors.length)
    (hk : minors[k]? = some minor) (hf : fields.length = c.args.length)
    (h : Nfs B env ctx (.app (apply (.elim i) (motive :: minors)) (apply (.ctor i k) fields)) v) :
    Nfs B env ctx (apply minor (fields ++ inductionHyps i (motive :: minors) c.args fields)) v := by
  obtain ⟨w, ⟨n, hn⟩, hw⟩ := nfs_iff.mp h
  refine nfs_iff.mpr ⟨w, ⟨n + 1, ?_⟩, hw⟩
  have hctor : (apply (.ctor i k) fields).Inert := by
    unfold Tm.Inert
    rw [head_apply]
    trivial
  have hself : (run B env (n + 1)).whnf ctx (apply (.ctor i k) fields)
      = some (apply (.ctor i k) fields) := whnfTm_inert hctor
  have hiota := tryIota_simple (motive := motive) hself hd hsimple hc hlen hk hf
  rw [← whnf_mono hn (Nat.le_add_right n 2)]
  refine (whnfTm_iota (by rw [Tm.head, head_apply]; rfl) ?_).symm
  rw [Tm.args, args_apply]
  exact hiota

end Iota

/-! ## The parameters of the fix -/

/-- The arguments of a fix, for its parameters. -/
def argSub (args : List Tm) : Nat → Tm := listSub args.reverse .var

section

variable {args : List Tm} {tele : Telescope} {i : IndId} {recArg n : Nat} {t : Tm}
  {arms : List SrcArm} {env : GlobalEnv}

theorem argSub_param {t : Nat} {a : Tm} (h : args[t]? = some a) :
    argSub args (args.length - 1 - t) = a := by
  have hlt := (List.getElem?_eq_some_iff.mp h).1
  have hidx : args.length - 1 - (args.length - 1 - t) = t := by omega
  rw [argSub, listSub_eq, List.getElem?_reverse (by omega), hidx, h]
  rfl

theorem argSub_set {t : Nat} (ht : t < args.length) (a : Tm) {v : Nat}
    (hv : v ≠ args.length - 1 - t) : argSub (args.set t a) v = argSub args v := by
  rw [argSub, argSub, listSub_eq, listSub_eq]
  simp only [length_reverse, length_set]
  by_cases hlt : v < args.length
  · rw [List.getElem?_reverse (by rwa [length_set]), List.getElem?_reverse hlt,
      length_set, List.getElem?_set_ne (by omega)]
  · rw [List.getElem?_eq_none (by simpa using hlt), List.getElem?_eq_none (by simpa using hlt)]

theorem reduces_lams (b : Tm) (σ : Nat → Tm) (hlen : args.length = tele.length) :
    Reduces (apply ((lams tele b).inst σ) args) (b.inst (listSub args.reverse σ)) := by
  induction tele generalizing args σ with
  | nil =>
    rw [length_nil, length_eq_zero_iff] at hlen
    subst hlen
    exact .refl
  | cons d tele ih =>
    cases args with
    | nil => cases hlen
    | cons a args =>
      have hsub : subst ((lams tele b).inst (up σ)) 0 a = (lams tele b).inst (consSub a σ) := by
        rw [subst_zero_eq_inst, inst_up_consSub]
      have hbeta : Par (.app ((lams (d :: tele) b).inst σ) a)
          ((lams tele b).inst (consSub a σ)) := by
        rw [← hsub]
        exact .beta (.refl _) (.refl _)
      refine .head (hbeta.apply (.refl args)) ?_
      rw [reverse_cons, listSub_append]
      exact ih (consSub a σ) (Nat.succ.inj hlen)

theorem occursVar_lams {b : Tm} {j : Nat} (h : occursVar (lams tele b) j = true) :
    (∃ q ty, tele[q]? = some ty ∧ occursVar ty (j + q) = true) ∨
      occursVar b (j + tele.length) = true := by
  induction tele generalizing j with
  | nil => exact .inr h
  | cons d tele ih =>
    rcases Bool.or_eq_true_iff.mp h with h | h
    · exact .inl ⟨0, d, rfl, h⟩
    · rcases ih h with ⟨q, ty, hq, hocc⟩ | hocc
      · exact .inl ⟨q + 1, ty, hq, by rwa [Nat.add_assoc, Nat.add_comm 1] at hocc⟩
      · exact .inr (by rwa [Nat.add_assoc, Nat.add_comm 1] at hocc)

/-! ## The lowered fix -/

theorem mem_recFields {fields : Telescope} {p : Nat} (h : p ∈ recFields fields i) :
    p < fields.length := mem_range.mp (mem_of_mem_filter h)

theorem armFixScope_lookup {m v ih : Nat} {recs : List Nat}
    (h : (armFixScope recArg n recs m).fieldToIh.lookup v = some ih) :
    ∃ j p, recs[j]? = some p ∧ v = m - 1 - p ∧ ih = recs.length - 1 - j := by
  obtain ⟨l1, l2, hl, -⟩ := lookup_eq_some_iff.mp h
  have hmem : (v, ih) ∈ recs.zipIdx.map fun x => (m - 1 - x.1, recs.length - 1 - x.2) := by
    have := mem_append_right l1 (mem_cons_self (a := (v, ih)) (l := l2))
    rwa [← hl] at this
  obtain ⟨⟨p, j⟩, hpj, he⟩ := mem_map.mp hmem
  cases he
  exact ⟨j, p, mem_zipIdx_iff_getElem?.mp hpj, rfl, rfl⟩

theorem fixArm_eq_ok {ind : Inductive} {k : Nat} {minor : Tm} {c : CtorDecl}
    (hc : ind.ctors[k]? = some c) (h : lowerArm ind (arms.map (fixArm recArg n)) k = .ok minor) :
    ∃ arm b, arms.find? (fun a => a.ctorIx = k) = some arm ∧ arm.binders.length = c.args.length ∧
      lowerRhs (armFixScope recArg n (recFields c.args ind.id) c.args.length) arm.rhs 0 = .ok b ∧
      minor = lams c.args
        (lams ((recFields c.args ind.id).map fun p => c.args.getD p (.sort 0)) b) := by
  unfold lowerArm at h
  rw [List.find?_map] at h
  have hfind : arms.find? ((fun arm : ArmMinor => decide (arm.1 = k)) ∘ fixArm recArg n)
      = arms.find? (fun a => a.ctorIx = k) := rfl
  rw [hfind] at h
  cases ha : arms.find? (fun a => a.ctorIx = k) with
  | none =>
    rw [ha] at h
    cases h
  | some arm =>
    rw [ha] at h
    have hk : arm.ctorIx = k := by simpa using List.find?_some ha
    have h : lowerMinor ind arm.ctorIx arm.binders.length (fun recs =>
      lowerRhs (armFixScope recArg n recs arm.binders.length) arm.rhs 0) = .ok minor := h
    rw [hk, lowerMinor_eq_ok hc] at h
    obtain ⟨hlen, b, hb, rfl⟩ := h
    rw [hlen] at hb
    exact ⟨arm, b, rfl, hlen, hb, rfl⟩

/-- The decreasing parameter is matched on, and mentioned nowhere else. -/
structure MatchedOnly (env : GlobalEnv) (recArg n : Nat) (motive : Tm) (arms : List SrcArm) :
    Prop where
  motive : occursVar motive (n - 1 - recArg) = false
  arms : ∀ arm ∈ arms, ∀ r, lower env arm.rhs = .ok r →
    occursVar r (arm.binders.length + (n - 1 - recArg)) = false

theorem MatchedOnly.minor {motive b : Tm}
    (h : MatchedOnly env recArg n motive arms) (hn : recArg < n) {arm : SrcArm} (harm : arm ∈ arms)
    (htele : ClosedTele 0 tele) (hlen : arm.binders.length = tele.length)
    (hb : lowerRhs (armFixScope recArg n (recFields tele i) tele.length) arm.rhs 0 = .ok b) :
    occursVar (lams tele (lams ((recFields tele i).map fun p => tele.getD p (.sort 0)) b))
      (n - 1 - recArg) = false := by
  rw [← Bool.not_eq_true]
  intro hocc
  rcases occursVar_lams hocc with ⟨q, ty, hq, hocc⟩ | hocc
  · have hno := (htele.get hq).not_occursVar (j := n - 1 - recArg + q) (by omega)
    exact Bool.false_ne_true (hno.symm.trans hocc)
  rcases occursVar_lams hocc with ⟨q, ty, hq, hocc⟩ | hocc
  · obtain ⟨p, hp, rfl⟩ := mem_map.mp (mem_of_getElem? hq)
    have hlt := mem_recFields hp
    have hty : tele[p]? = some (tele.getD p (.sort 0)) := by
      rw [getD_eq_getElem?_getD, List.getElem?_eq_getElem hlt]
      rfl
    have hno := (htele.get hty).not_occursVar (j := n - 1 - recArg + tele.length + q) (by omega)
    exact Bool.false_ne_true (hno.symm.trans hocc)
  · obtain ⟨r, hr, hterm⟩ := armTerm_of_lowerRhs env arm.rhs hb
    have hno := h.arms arm harm r hr
    have hih : ∀ f ih, (armFixScope recArg n (recFields tele i) tele.length).fieldToIh.lookup f
        = some ih → ih < (recFields tele i).length := by
      intro f ih hlook
      obtain ⟨j, p, hj, -, rfl⟩ := armFixScope_lookup hlook
      have hj' := (List.getElem?_eq_some_iff.mp hj).1
      omega
    have hv : arm.binders.length + (n - 1 - recArg) < tele.length + n := by omega
    have hidx : n - 1 - recArg + tele.length + (recFields tele i).length
        = arm.binders.length + (n - 1 - recArg) + (recFields tele i).length + 0 := by omega
    rw [length_map, hidx] at hocc
    have hsrc := hterm.occursVar hv hih hocc
    exact Bool.false_ne_true (hno.symm.trans hsrc)

theorem inst_misses (hrec : recArg < args.length) (a : Tm)
    (h : occursVar t (args.length - 1 - recArg) = false) :
    t.inst (argSub (args.set recArg a)) = t.inst (argSub args) := by
  refine inst_congr fun v hv => argSub_set hrec a ?_
  rintro rfl
  exact Bool.false_ne_true (h.symm.trans hv)

/-- A call of the lowered fix reduces to its recursor on the decreasing argument. What the
recursor passes on does not depend on that argument, if only the match mentions it. -/
theorem fix_call_reduces {doms : Telescope} {pre : List Tm} (hrec : recArg < args.length)
    (hlen : args.length = doms.length)
    (hpre : ∀ t ∈ pre, occursVar t (args.length - 1 - recArg) = false) (a : Tm) :
    Reduces (apply (lams doms (.app (apply (.elim i) pre) (.var (doms.length - 1 - recArg))))
        (args.set recArg a))
      (.app (apply (.elim i) (pre.map (Tm.inst (argSub args)))) a) := by
  have hset : (args.set recArg a).length = doms.length := by rw [length_set, hlen]
  have hred := reduces_lams (.app (apply (.elim i) pre) (.var (doms.length - 1 - recArg))) .var hset
  rw [inst_var, ← argSub] at hred
  have hmap : pre.map (Tm.inst (argSub (args.set recArg a))) = pre.map (Tm.inst (argSub args)) :=
    map_congr_left fun t ht => inst_misses hrec a (hpre t ht)
  have hdec : argSub (args.set recArg a) (doms.length - 1 - recArg) = a := by
    rw [← hset]
    exact argSub_param (List.getElem?_set_self hrec)
  simp only [Tm.inst, inst_apply, hmap, hdec] at hred
  exact hred

theorem listSub_reverse {ts : List Tm} {q : Nat} (h : ts[q]? = some t) (σ : Nat → Tm) :
    listSub ts.reverse σ (ts.length - 1 - q) = t := by
  have hlt := (List.getElem?_eq_some_iff.mp h).1
  have hidx : ts.length - 1 - (ts.length - 1 - q) = q := by omega
  refine listSub_get ?_ σ
  rw [List.getElem?_reverse (by omega), hidx, h]

/-- The two substitutions of the unfolding equation match. -/
theorem armFixScope_matches {fields pre : List Tm} (hf : fields.length = tele.length)
    (hcall : ∀ a, Reduces (apply t (args.set recArg a)) (.app (apply (.elim i) pre) a)) :
    (armFixScope recArg args.length (recFields tele i) tele.length).Matches
      (listSub (fields.reverse ++ args.reverse ++ [t]) .var)
      (listSub (fields ++ inductionHyps i pre tele fields).reverse (argSub args)) := by
  have hr : (inductionHyps i pre tele fields).reverse.length = (recFields tele i).length := by
    rw [length_reverse, inductionHyps, length_map]
  have hlen : (fields.reverse ++ args.reverse).length = tele.length + args.length := by
    rw [length_append, length_reverse, length_reverse, hf]
  have hτ : ∀ v, listSub (fields ++ inductionHyps i pre tele fields).reverse (argSub args)
      (v + (recFields tele i).length) = listSub (fields.reverse ++ args.reverse) .var v := by
    intro v
    rw [reverse_append, listSub_append, ← hr, listSub_add, listSub_append, argSub]
  have hσ : ∀ v, listSub (fields.reverse ++ args.reverse ++ [t]) .var v =
      listSub (fields.reverse ++ args.reverse) (consSub t .var) v := fun v => by
    rw [listSub_append]
    rfl
  refine ⟨fun v hv => ?_, fun v hv => ?_, fun v ih hih => ?_⟩
  · have hv : v < (fields.reverse ++ args.reverse).length := hlen ▸ hv
    have hget := List.getElem?_eq_getElem hv
    exact (hτ v).trans ((listSub_get hget _).trans ((hσ v).trans (listSub_get hget _)).symm)
  · have hv : tele.length + args.length < v := hv
    obtain ⟨g, rfl⟩ := Nat.exists_eq_add_of_lt hv
    have hpred : tele.length + args.length + g + 1 - 1
        = g + (fields.reverse ++ args.reverse).length := by omega
    have hsucc : tele.length + args.length + g + 1
        = g + 1 + (fields.reverse ++ args.reverse).length := by omega
    refine (hτ _).trans ?_
    rw [hσ, hpred, hsucc, listSub_add, listSub_add]
    rfl
  · obtain ⟨j, p, hj, rfl, rfl⟩ := armFixScope_lookup hih
    have hp := mem_recFields (mem_of_getElem? hj)
    have hfield : fields[p]? = some (fields.getD p (.sort 0)) := by
      rw [getD_eq_getElem?_getD, List.getElem?_eq_getElem (by omega)]
      rfl
    have hself : listSub (fields.reverse ++ args.reverse ++ [t]) .var (tele.length + args.length)
        = t := by
      rw [hσ, ← hlen]
      exact (congrArg _ (Nat.zero_add _).symm).trans (listSub_add _ _ 0)
    have hdec : listSub (fields.reverse ++ args.reverse ++ [t]) .var (tele.length - 1 - p)
        = fields.getD p (.sort 0) := by
      rw [hσ, listSub_append, ← hf]
      exact listSub_reverse hfield _
    have hparams : ((List.range args.length).map fun q => tele.length + (args.length - 1 - q)).map
        (listSub (fields.reverse ++ args.reverse ++ [t]) .var) = args := by
      refine ext_getElem (by simp) fun q _ hq => ?_
      have hidx : tele.length + (args.length - 1 - q)
          = args.length - 1 - q + fields.reverse.length := by
        rw [length_reverse]
        omega
      rw [getElem_map, getElem_map, getElem_range, hσ, listSub_append, hidx, listSub_add]
      exact listSub_reverse (List.getElem?_eq_getElem hq) _
    have hhyp : listSub (fields ++ inductionHyps i pre tele fields).reverse (argSub args)
        ((recFields tele i).length - 1 - j)
        = .app (apply (.elim i) pre) (fields.getD p (.sort 0)) := by
      have hget : (inductionHyps i pre tele fields)[j]?
          = some (.app (apply (.elim i) pre) (fields.getD p (.sort 0))) := by
        rw [inductionHyps, List.getElem?_map, hj]
        rfl
      rw [length_reverse] at hr
      rw [reverse_append, listSub_append, ← hr]
      exact listSub_reverse hget _
    have hgoal := hcall (fields.getD p (.sort 0))
    rw [← hhyp] at hgoal
    simp only [armFixScope, map_set, hself, hdec, hparams]
    exact hgoal

/-- The unfolding equation, for a fix whose decreasing parameter is matched on and mentioned
nowhere else: on a constructor, the lowered fix has the normal form of the source of its arm,
with the lowered fix for the function, the arguments for the parameters and the fields for
the binders. -/
theorem lowered_fix_unfolds {B : Build} {env : GlobalEnv} {ctx : Ctx} {recArg k : Nat}
    {ty motive t rhs v w : Tm} {body scrut : SrcTm} {doms : Telescope} {i : IndId}
    {arms : List SrcArm} {arm : SrcArm} {ind : Inductive} {c : CtorDecl} {args fields : List Tm}
    (hB : Built B anyAdmission env) (henv : NonIndexed env)
    (ht : lower env (.fix recArg ty body) = .ok t)
    (hbody : peelLams body = (doms, .matchOn scrut i motive arms))
    (honly : MatchedOnly env recArg doms.length motive arms)
    (hd : env.inds i = some ind) (hc : ind.ctors[k]? = some c)
    (harm : arms.find? (fun a => a.ctorIx = k) = some arm) (hrhs : lower env arm.rhs = .ok rhs)
    (hargs : args.length = doms.length) (hdec : args[recArg]? = some (apply (.ctor i k) fields))
    (hf : fields.length = c.args.length) (hv : Nfs B env ctx (apply t args) v)
    (hw : Nfs B env ctx (rhs.inst (listSub (fields.reverse ++ args.reverse ++ [t]) .var)) w) :
    v = w := by
  rw [lower] at ht
  obtain ⟨doms', i', motive', arms', elim, hpeel, hrec, helim, rfl⟩ := lowerFix_eq_ok ht
  cases hpeel.symm.trans hbody
  obtain ⟨hsimple, -, minors, s, hminors, hs, rfl⟩ := (lowerMatch_eq_ok hd).mp helim
  cases hs
  cases hB.keyed hd
  obtain ⟨hlen, hget⟩ := forall₂_range hminors
  have hclosed : ∀ c ∈ ind.ctors, ClosedTele 0 c.args := fun c hc => by
    simpa [hsimple.1] using hB.closed_fields hd c hc
  rw [← hargs] at hrec honly
  have hpre : ∀ m ∈ motive :: minors, occursVar m (args.length - 1 - recArg) = false := by
    refine forall_mem_cons.mpr ⟨honly.motive, fun m hm => ?_⟩
    obtain ⟨q, hq⟩ := List.getElem?_of_mem hm
    have hlt : q < ind.ctors.length := hlen ▸ (List.getElem?_eq_some_iff.mp hq).1
    obtain ⟨arm', b, hfind, hbinders, hb, rfl⟩ :=
      fixArm_eq_ok (List.getElem?_eq_getElem hlt) (hget q m hq)
    rw [← hargs] at hb
    exact honly.minor hrec (mem_of_find?_eq_some hfind) (hclosed _ (getElem_mem hlt)) hbinders hb
  have hcall := fun a => fix_call_reduces (i := ind.id) hrec hargs hpre a
  -- The left side takes β-steps for the parameters, the ι-step, and β-steps for the arm.
  have hself : args.set recArg (apply (.ctor ind.id k) fields) = args := by
    obtain ⟨hlt, hget⟩ := List.getElem?_eq_some_iff.mp hdec
    rw [← hget, set_getElem_self]
  have hk : k < minors.length := hlen ▸ (List.getElem?_eq_some_iff.mp hc).1
  obtain ⟨arm', b, hfind, hbinders, hb, hminor⟩ :=
    fixArm_eq_ok hc (hget k _ (List.getElem?_eq_getElem hk))
  cases hfind.symm.trans harm
  have hiota : Nfs B env ctx (.app (apply (.elim ind.id)
      (motive.inst (argSub args) :: minors.map (Tm.inst (argSub args))))
      (apply (.ctor ind.id k) fields)) v := by
    refine hv.par henv ?_
    nth_rewrite 1 [← hself]
    exact hcall (apply (.ctor ind.id k) fields)
  have hminors' : (minors.map (Tm.inst (argSub args)))[k]? = some (minors[k].inst (argSub args)) := by
    rw [List.getElem?_map, List.getElem?_eq_getElem hk]
    rfl
  have harm' := nfs_iota hd hsimple hc (by rw [length_map, hlen]) hminors' hf hiota
  rw [hminor, ← lams_append] at harm'
  have hbinds : (fields ++ inductionHyps ind.id (motive.inst (argSub args) ::
      minors.map (Tm.inst (argSub args))) c.args fields).length
      = (c.args ++ (recFields c.args ind.id).map fun p => c.args.getD p (.sort 0)).length := by
    simp only [length_append, inductionHyps, length_map, hf]
  have hleft : Nfs B env ctx _ v := harm'.par henv (reduces_lams b (argSub args) hbinds)
  -- The right side contracts each call of the function down to its hypothesis.
  obtain ⟨r, hr, hterm⟩ := armTerm_of_lowerRhs env arm.rhs (hargs ▸ hb)
  cases hr.symm.trans hrhs
  have hsource := hterm.reduces (armFixScope_matches hf hcall)
  rw [upN_zero, upN_zero] at hsource
  have hright : Nfs B env ctx _ w := hw.par henv hsource
  exact hleft.unique hright

/-! ## A fix that mentions its decreasing parameter -/

def numeral : Nat → Tm
  | 0 => .ctor 0 0
  | n + 1 => .app (.ctor 0 1) (numeral n)

/-- `λ x y. x + y`, by recursion on `x`. -/
def addTm : Tm :=
  lams [.ind 0, .ind 0] (apply (.elim 0) [.lam (.ind 0) (.ind 0), .var 0,
    lams [.ind 0, .ind 0] (.app (.ctor 0 1) (.var 0)), .var 1])

/-- `fix f n. match n with zero => zero | succ m => rhs`. -/
def natFix (rhs : SrcTm) : SrcTm :=
  .fix 0 (.pi (.ind 0) (.ind 0)) (.lam (.ind 0) (.matchOn (.var 0) 0 (.lam (.ind 0) (.ind 0))
    [.mk 0 [] (.core (.ctor 0 0)), .mk 1 [.ind 0] rhs]))

/-- `n + f m`, where `succ m` is `n`. -/
def sumRhs : SrcTm := .app (.app (.core addTm) (.var 1)) (.app (.var 2) (.var 0))

/-- `λ n. Elim (λ _. Nat) zero (λ m ih. n + ih) n`. -/
def sumTm : Tm :=
  .lam (.ind 0) (apply (.elim 0) [.lam (.ind 0) (.ind 0), .ctor 0 0,
    lams [.ind 0, .ind 0] (apply addTm [.var 2, .var 0]), .var 0])

/-- On two the lowered sum is `2 + (2 + 0)`; its source is `2 + (1 + 0)`. The lowered fix is
well typed. -/
theorem sum_not_unfolded : lower natEnv (natFix sumRhs) = .ok sumTm ∧ ∀ B : Build,
      Infers B natEnv [] sumTm (.pi (.ind 0) (.app (.lam (.ind 0) (.ind 0)) (.var 0))) ∧
      Nfs B natEnv [] (.app sumTm (numeral 2)) (numeral 4) ∧
      ∃ rhs, lower natEnv sumRhs = .ok rhs ∧
        Nfs B natEnv [] (rhs.inst (listSub ([numeral 1] ++ [numeral 2] ++ [sumTm]) .var))
          (numeral 3) ∧ numeral 4 ≠ numeral 3 := by
  exact ⟨rfl, fun B => ⟨⟨20, rfl⟩, ⟨20, rfl⟩, _, rfl, ⟨20, rfl⟩, by decide⟩⟩

theorem natEnv_nonIndexed : NonIndexed natEnv := by
  intro i d hd
  obtain ⟨-, rfl⟩ := natEnv_inds hd
  rfl

/-- `succ (succ (f m))`. -/
def doubleRhs : SrcTm :=
  .app (.core (.ctor 0 1)) (.app (.core (.ctor 0 1)) (.app (.var 2) (.var 0)))

theorem double_matchedOnly : MatchedOnly natEnv 0 1 (.lam (.ind 0) (.ind 0))
    [.mk 0 [] (.core (.ctor 0 0)), .mk 1 [.ind 0] doubleRhs] := by
  refine ⟨rfl, ?_⟩
  simp only [mem_cons, not_mem_nil, or_false]
  rintro arm (rfl | rfl) r hr
  · cases hr
    rfl
  · cases hr
    rfl

/-- `λ n. Elim (λ _. Nat) zero (λ m ih. succ (succ ih)) n`. -/
def doubleTm : Tm :=
  .lam (.ind 0) (apply (.elim 0) [.lam (.ind 0) (.ind 0), .ctor 0 0,
    lams [.ind 0, .ind 0] (.app (.ctor 0 1) (.app (.ctor 0 1) (.var 0))), .var 0])

/-- The double of two. -/
theorem double_unfolds : ∃ rhs v w,
    lower natEnv (natFix doubleRhs) = .ok doubleTm ∧ lower natEnv doubleRhs = .ok rhs ∧
    Nfs releaseBuild natEnv [] (apply doubleTm [numeral 2]) v ∧ Nfs releaseBuild natEnv []
      (rhs.inst (listSub ([numeral 1] ++ [numeral 2] ++ [doubleTm]) .var)) w ∧ v = w := by
  have hlower : lower natEnv (natFix doubleRhs) = .ok doubleTm := rfl
  have hsucc : natDecl.ctors[1]? = some ⟨1, [.ind 0], []⟩ := rfl
  have harm : [SrcArm.mk 0 [] (.core (.ctor 0 0)), .mk 1 [.ind 0] doubleRhs].find?
      (fun a => a.ctorIx = 1) = some (.mk 1 [.ind 0] doubleRhs) := rfl
  have hargs : [numeral 2].length = [Tm.ind 0].length := rfl
  have hdec : [numeral 2][0]? = some (apply (.ctor 0 1) [numeral 1]) := rfl
  have hfields : [numeral 1].length = [Tm.ind 0].length := rfl
  have hv : Nfs releaseBuild natEnv [] (apply doubleTm [numeral 2]) (numeral 4) := ⟨20, rfl⟩
  refine ⟨_, numeral 4, numeral 4, hlower, rfl, hv, ⟨20, rfl⟩, ?_⟩
  exact lowered_fix_unfolds (natEnv_built releaseBuild) natEnv_nonIndexed hlower rfl
    double_matchedOnly rfl hsucc harm rfl hargs hdec hfields hv ⟨20, rfl⟩

end

end Dnet.Kernel
