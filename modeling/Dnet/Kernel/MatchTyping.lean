import Dnet.Kernel.Unfold
import Dnet.Kernel.Weaken

/-!
# The type of a lowered match

The recursor asks for a minor premise under one binder for each field and one for each
induction hypothesis (`minorType_inst`). The lowering emits the same binders, but gives a
hypothesis the type of its field, and not the motive at that field. So a lowered match has the
type `motive s` exactly when its arms fit all the same (`lowered_match_typed_iff`): without indexed
families, when these types happen to agree. For a test for zero they do not (`isZero_illTyped`).
-/

namespace Dnet.Kernel

open List

section Telescopes

variable {B : Build} {env : GlobalEnv} {ctx ctx' : Ctx} {t u v T b b' : Tm} {tele tele' : Telescope}
  {tele : Telescope}

/-- Without indexed families, reduction does not look at the context. -/
theorem Nfs.inCtx (hidx : NonIndexed env) (h : Nfs B env ctx t v) (ctx' : Ctx) :
    Nfs B env ctx' t v := h.par hidx .refl

theorem Converts.inCtx (hidx : NonIndexed env) (h : Converts B env ctx t u) (ctx' : Ctx) :
    Converts B env ctx' t u := by
  obtain ⟨v, ht, hu⟩ := converts_iff.mp h
  exact converts_iff.mpr ⟨v, ht.inCtx hidx ctx', hu.inCtx hidx ctx'⟩

theorem infers_lams : Infers B env ctx (lams tele b) T ↔ TelescopeOk B env ctx tele ∧
      ∃ bt, Infers B env (tele.reverse ++ ctx) b bt ∧ T = telescope tele bt := by
  induction tele generalizing ctx T with
  | nil => exact ⟨fun h => ⟨trivial, T, h, rfl⟩, by rintro ⟨-, bt, h, rfl⟩; exact h⟩
  | cons ty rest ih =>
    have hctx : (ty :: rest).reverse ++ ctx = rest.reverse ++ ty :: ctx := by simp
    rw [hctx]
    constructor
    · intro h
      obtain ⟨l, bt, hty, hbt, rfl⟩ := infers_lam.mp h
      obtain ⟨hrest, bt', hbt', rfl⟩ := ih.mp hbt
      exact ⟨⟨⟨l, hty⟩, hrest⟩, bt', hbt', rfl⟩
    · rintro ⟨⟨⟨l, hty⟩, hrest⟩, bt, hbt, rfl⟩
      exact infers_lam.mpr ⟨l, telescope rest bt, hty, ih.mpr ⟨hrest, bt, hbt, rfl⟩, rfl⟩

theorem telescopeOk_append : TelescopeOk B env ctx (tele ++ tele') ↔
    TelescopeOk B env ctx tele ∧ TelescopeOk B env (tele.reverse ++ ctx) tele' := by
  induction tele generalizing ctx with
  | nil => simp [TelescopeOk]
  | cons ty rest ih =>
    have hctx : (ty :: rest).reverse ++ ctx = rest.reverse ++ ty :: ctx := by simp
    rw [hctx, cons_append, TelescopeOk, TelescopeOk, ih, and_assoc]

theorem converts_pi (hidx : NonIndexed env) {a a' : Tm} : Converts B env ctx (.pi a b) (.pi a' b') ↔
      Converts B env ctx a a' ∧ Converts B env ctx b b' := by
  simp only [converts_iff, nfs_pi]
  constructor
  · rintro ⟨_, ⟨x, y, hx, hy, rfl⟩, x', y', hx', hy', he⟩
    obtain ⟨rfl, rfl⟩ := Tm.pi.inj he
    exact ⟨⟨x, hx, hx'⟩, y, hy.inCtx hidx ctx, hy'.inCtx hidx ctx⟩
  · rintro ⟨⟨x, hx, hx'⟩, y, hy, hy'⟩
    exact ⟨.pi x y, ⟨x, y, hx, hy.inCtx hidx _, rfl⟩, x, y, hx', hy'.inCtx hidx _, rfl⟩

theorem converts_telescope (hidx : NonIndexed env) (hlen : tele.length = tele'.length) :
    Converts B env ctx (telescope tele b) (telescope tele' b') ↔
      List.Forall₂ (Converts B env ctx) tele tele' ∧ Converts B env ctx b b' := by
  induction tele generalizing tele' with
  | nil =>
    cases tele' with
    | nil => simp [telescope]
    | cons _ _ => cases hlen
  | cons ty rest ih =>
    cases tele' with
    | nil => cases hlen
    | cons ty' rest' =>
      rw [forall₂_cons, and_assoc, ← ih (Nat.succ.inj hlen)]
      exact converts_pi hidx

/-- The types of a telescope have normal forms, each in the context of those before it. -/
def TelescopeNormal (B : Build) (env : GlobalEnv) (ctx : Ctx) (tele : Telescope) : Prop :=
  ∀ (q : Nat) (ty : Tm), tele[q]? = some ty → ∃ v, Nfs B env ((tele.take q).reverse ++ ctx) ty v

theorem telescopeNormal_cons {ty : Tm} : TelescopeNormal B env ctx (ty :: tele) ↔
    (∃ v, Nfs B env ctx ty v) ∧ TelescopeNormal B env (ty :: ctx) tele := by
  have hctx : ∀ q, ((ty :: tele).take (q + 1)).reverse ++ ctx =
      (tele.take q).reverse ++ ty :: ctx := by simp
  constructor
  · refine fun h => ⟨h 0 ty rfl, fun q ty' hq => ?_⟩
    rw [← hctx]
    exact h (q + 1) ty' hq
  · rintro ⟨hty, htele⟩ q ty' hq
    cases q with
    | zero =>
      cases hq
      exact hty
    | succ q =>
      rw [hctx]
      exact htele q ty' hq

/-- Under the same binders the context is the same, so this needs nothing of the environment. -/
theorem converts_telescope_same : Converts B env ctx (telescope tele b) (telescope tele b') ↔
    TelescopeNormal B env ctx tele ∧ Converts B env (tele.reverse ++ ctx) b b' := by
  induction tele generalizing ctx with
  | nil => exact ⟨fun h => ⟨nofun, h⟩, And.right⟩
  | cons ty rest ih =>
    have hctx : (ty :: rest).reverse ++ ctx = rest.reverse ++ ty :: ctx := by simp
    rw [hctx, telescopeNormal_cons, and_assoc, ← ih]
    simp only [converts_iff, telescope, foldr_cons, nfs_pi]
    constructor
    · rintro ⟨_, ⟨x, y, hx, hy, rfl⟩, x', y', -, hy', he⟩
      obtain ⟨-, rfl⟩ := Tm.pi.inj he
      exact ⟨⟨x, hx⟩, y, hy, hy'⟩
    · rintro ⟨⟨x, hx⟩, y, hy, hy'⟩
      exact ⟨.pi x y, ⟨x, y, hx, hy, rfl⟩, x, y, hx, hy', rfl⟩

theorem checks_lams_telescope (htele : TelescopeOk B env ctx tele) :
    Checks B env ctx (lams tele t) (telescope tele T) ↔
      TelescopeNormal B env ctx tele ∧ Checks B env (tele.reverse ++ ctx) t T := by
  simp only [checks_iff]
  constructor
  · rintro ⟨got, hgot, hconv⟩
    obtain ⟨-, bt, hbt, rfl⟩ := infers_lams.mp hgot
    obtain ⟨hnormal, hconv⟩ := converts_telescope_same.mp hconv
    exact ⟨hnormal, bt, hbt, hconv⟩
  · rintro ⟨hnormal, bt, hbt, hconv⟩
    exact ⟨_, infers_lams.mpr ⟨htele, bt, hbt, rfl⟩, converts_telescope_same.mpr ⟨hnormal, hconv⟩⟩

/-- Arguments against a telescope, each checked after those before it are put in. -/
theorem applies_telescope {args : List Tm} (σ : Nat → Tm) (hlen : args.length = tele.length) :
    Applies B env ctx args ((telescope tele b).inst σ) T ↔
      (∀ (k : Nat) (a ty : Tm), args[k]? = some a → tele[k]? = some ty →
        Checks B env ctx a (ty.inst (listSub (args.take k).reverse σ))) ∧
      T = b.inst (listSub args.reverse σ) := by
  induction tele generalizing args σ with
  | nil =>
    rw [length_nil, length_eq_zero_iff] at hlen
    subst hlen
    rw [applies_nil]
    exact ⟨fun h => ⟨nofun, h⟩, fun h => h.2⟩
  | cons ty rest ih =>
    cases args with
    | nil => cases hlen
    | cons a args =>
      have hin : (Tm.pi (ty.inst σ) ((telescope rest b).inst (up σ))).Inert := trivial
      have hsub : subst ((telescope rest b).inst (up σ)) 0 a
          = (telescope rest b).inst (consSub a σ) := by
        rw [subst_zero_eq_inst, inst_up_consSub]
      have hstep : Applies B env ctx (a :: args) ((telescope (ty :: rest) b).inst σ) T ↔
          Checks B env ctx a (ty.inst σ) ∧
            Applies B env ctx args ((telescope rest b).inst (consSub a σ)) T := by
        rw [applies_cons, ← hsub]
        constructor
        · rintro ⟨dom, cod, hpi, ha, h⟩
          cases (whnfs_inert hin).mp hpi
          exact ⟨ha, h⟩
        · rintro ⟨ha, h⟩
          exact ⟨_, _, hin.whnfs, ha, h⟩
      have hlast : ∀ l : List Tm, listSub (a :: l).reverse σ = listSub l.reverse (consSub a σ) :=
        fun l => by
          rw [reverse_cons, listSub_append]
          rfl
      rw [hstep, ih (consSub a σ) (Nat.succ.inj hlen), ← and_assoc, hlast]
      refine and_congr_left fun _ => ⟨?_, fun h => ⟨h 0 a ty rfl rfl, fun k x ty' hx hty => ?_⟩⟩
      · rintro ⟨ha, hrest⟩ k x ty' hx hty
        cases k with
        | zero =>
          cases hx
          cases hty
          exact ha
        | succ k =>
          rw [take_succ_cons, hlast]
          exact hrest k x ty' hx hty
      · have := h (k + 1) x ty' hx hty
        rwa [take_succ_cons, hlast] at this

end Telescopes

/-! ## The minor premise that the recursor asks for -/

/-- The motive at the field `q`, under `m` fields and `j` hypotheses. -/
def hypFor (motive : Tm) (m j q : Nat) : Tm :=
  .app (shift motive ((m + j : Nat) : Int) 0) (.var (j + (m - 1 - q)))

/-- The hypotheses of a constructor with these fields. -/
def hypTele (motive : Tm) (i : IndId) (fields : Telescope) : Telescope :=
  (recFields fields i).zipIdx.map fun (q, j) => hypFor motive fields.length j q

/-- The motive at the constructor `k` of `m` fields, under the fields and `r` hypotheses. -/
def armType (motive : Tm) (i : IndId) (k m r : Nat) : Tm :=
  .app (shift motive ((m + r : Nat) : Int) 0)
    (apply (.ctor i k) ((range m).map fun q => .var (r + (m - 1 - q))))

theorem armType_ren (motive : Tm) (i : IndId) (k m r : Nat) :
    (armType motive i k m 0).ren (· + r) = armType motive i k m r := by
  have hvars : (fun q => Tm.var (0 + (m - 1 - q) + r)) = fun q => Tm.var (r + (m - 1 - q)) := by
    funext q
    congr 1
    omega
  simp only [armType, Tm.ren, ren_apply, shift_zero_eq_ren, ren_ren, map_map,
    Function.comp_def, hvars]
  congr 1
  refine ren_congr fun i _ => ?_
  omega

section Minor

variable {ind : Inductive} {c : CtorDecl} {k : Nat} {motive : Tm} {σ : Nat → Tm}

theorem minorType_inst (hc : ind.ctors[k]? = some c) (hp : ind.params = [])
    (hclosed : ClosedTele 0 c.args) (hret : c.retIndices = [])
    (hidxs : ∀ q ∈ recFields c.args ind.id, indIndices (c.args.getD q (.sort 0)) ind.id 0 = [])
    (hσ : σ k = motive) :
    (minorType ind k).inst σ = telescope c.args (telescope (hypTele motive ind.id c.args)
      (armType motive ind.id k c.args.length (recFields c.args ind.id).length)) := by
  have hget : ind.ctors.getD k ⟨0, [], []⟩ = c := by
    rw [getD_eq_getElem?_getD, hc]
    rfl
  have hfields : ((c.args.zipIdx.map fun x => shift x.1 ((k + 1 : Nat) : Int) x.2).zipIdx 0).map
      (fun x => x.1.inst (upN x.2 σ)) = c.args := by
    refine ext_getElem? fun q => ?_
    simp only [List.getElem?_map, List.getElem?_zipIdx, Option.map_map]
    cases hq : c.args[q]? with
    | none => rfl
    | some ty =>
      have hty := hclosed.get hq
      have hshift : shift ty ((k + 1 : Nat) : Int) q = ty := by
        rw [shift_eq_ren]
        exact hty.ren fun i hi => if_neg (by omega)
      have hinst : ty.inst (upN q σ) = ty := hty.inst fun i hi => if_pos (by omega)
      simp only [Option.map_some, Function.comp_apply, Nat.zero_add, hshift, hinst]
  unfold minorType
  rw [hget, hp]
  dsimp only
  rw [← upN_zero σ, inst_telescope, inst_telescope]
  have hmotive : ∀ n, upN n σ (k + n) = shift motive (n : Int) 0 := fun n => by
    rw [upN_add, hσ, shift_zero_eq_ren]
  have hhyps : (((recFields c.args ind.id).zipIdx.map fun x =>
      hypType ind.id 0 c.args k x.2 x.1).zipIdx c.args.length).map
        (fun x => x.1.inst (upN x.2 σ)) = hypTele motive ind.id c.args := by
    refine ext_getElem? fun j => ?_
    simp only [hypTele, List.getElem?_map, List.getElem?_zipIdx, Option.map_map]
    cases hj : (recFields c.args ind.id)[j]? with
    | none => rfl
    | some q =>
      have hmem := mem_of_getElem? hj
      have hlt : q < c.args.length := mem_range.mp (mem_of_mem_filter hmem)
      have hvar : upN (c.args.length + j) σ (j + (c.args.length - 1 - q))
          = .var (j + (c.args.length - 1 - q)) := if_pos (by omega)
      have hidx : c.args.length + j + k = k + (c.args.length + j) := by omega
      simp only [Option.map_some, Function.comp_apply, Nat.zero_add, hypType, hidxs q hmem,
        map_nil, apply_nil, Tm.inst, hvar, hidx, hmotive, hypFor]
  rw [hfields]
  simp only [length_map, length_zipIdx, Nat.zero_add, length_nil, hhyps, hret,
    map_nil, range_zero, apply_nil, Tm.inst, inst_apply, armType]
  have hidx : c.args.length + (recFields c.args ind.id).length + k
      = k + (c.args.length + (recFields c.args ind.id).length) := by omega
  rw [hidx, hmotive, map_map]
  have hvars : ∀ q ∈ range c.args.length,
      (Tm.inst (upN (c.args.length + (recFields c.args ind.id).length) σ) ∘ fun q =>
        Tm.var ((recFields c.args ind.id).length + (c.args.length - 1 - q))) q
      = .var ((recFields c.args ind.id).length + (c.args.length - 1 - q)) := by
    intro q hq
    have := mem_range.mp hq
    exact if_pos (by omega)
  rw [map_congr_left hvars]

end Minor

/-! ## The recursor of a family without parameters and indices -/

theorem recursorType_simple {ind : Inductive} (hp : ind.params = []) (hx : ind.indices = [])
    (lm : Level) : recursorType ind lm = telescope (.pi (.ind ind.id) (.sort lm) ::
      ((range ind.ctors.length).map (minorType ind) ++ [.ind ind.id]))
      (.app (.var (1 + ind.ctors.length)) (.var 0)) := by
  unfold recursorType
  rw [hp, hx]
  simp [telescope, indApp, apply]

section Recursor

variable {B : Build} {env : GlobalEnv} {ctx : Ctx} {i : IndId} {ind : Inductive} {l : Level}
  {motive s T : Tm} {minors : List Tm}

/-- The motive is a function from `i` to the sort `l`. -/
def HasMotiveType (B : Build) (env : GlobalEnv) (ctx : Ctx) (i : IndId) (l : Level)
    (motive : Tm) : Prop :=
  ∃ mty a cod, Infers B env ctx motive mty ∧ Whnfs B env ctx mty (.pi a cod) ∧
    Converts B env ctx a (.ind i) ∧ Whnfs B env (a :: ctx) cod (.sort l)

theorem ren_id (t : Tm) : t.ren id = t := (ren_eq_inst t id).trans (inst_var t)

theorem Whnfs.inCtx (hclosed : ClosedEnv env) (hidx : NonIndexed env) {t w : Tm}
    (h : Whnfs B env ctx t w) (ctx' : Ctx) : Whnfs B env ctx' t w := by
  have hren := h.ren hclosed hidx ctx' id
  rwa [ren_id, ren_id] at hren

theorem HasMotiveType.checks (h : HasMotiveType B env ctx i l motive) :
    Checks B env ctx motive (.pi (.ind i) (.sort l)) := by
  obtain ⟨mty, a, cod, hmty, hpi, ha, hcod⟩ := h
  refine checks_iff.mpr ⟨mty, hmty, converts_iff.mpr ⟨.pi (.ind i) (.sort l), ?_, ?_⟩⟩
  · obtain ⟨v, hav, hiv⟩ := converts_iff.mp ha
    cases nfs_ind.mp hiv
    exact nfs_iff.mpr ⟨_, hpi, .ind i, .sort l, hav, nfs_iff.mpr ⟨.sort l, hcod, rfl⟩, rfl⟩
  · exact nfs_pi.mpr ⟨.ind i, .sort l, nfs_ind.mpr rfl, nfs_sort.mpr rfl, rfl⟩

/-- `infer_elim` finds the sort of the motive: it looks for it in the context of the motive, and not
under the binder of the scrutinee. -/
def SortFound (B : Build) (env : GlobalEnv) (ctx : Ctx) (l : Level) (motive : Tm) : Prop :=
  ∃ mty a cod, Infers B env ctx motive mty ∧ Whnfs B env ctx mty (.pi a cod) ∧
    Whnfs B env ctx cod (.sort l)

theorem HasMotiveType.sortFound (h : HasMotiveType B env ctx i l motive) (hclosed : ClosedEnv env)
    (hidx : NonIndexed env) : SortFound B env ctx l motive := by
  obtain ⟨mty, a, cod, hmty, hpi, -, hcod⟩ := h
  exact ⟨mty, a, cod, hmty, hpi, hcod.inCtx hclosed hidx ctx⟩

theorem checks_motive_unique {l' : Level} (h : Checks B env ctx motive (.pi (.ind i) (.sort l)))
    (h' : Checks B env ctx motive (.pi (.ind i) (.sort l'))) : l = l' := by
  obtain ⟨mty, hmty, hconv⟩ := checks_iff.mp h
  obtain ⟨mty', hmty', hconv'⟩ := checks_iff.mp h'
  cases hmty.unique hmty'
  obtain ⟨v, hv, hpi⟩ := converts_iff.mp hconv
  obtain ⟨v', hv', hpi'⟩ := converts_iff.mp hconv'
  cases hv.unique hv'
  obtain ⟨_, _, -, hcod, rfl⟩ := nfs_pi.mp hpi
  obtain ⟨_, _, -, hcod', he⟩ := nfs_pi.mp hpi'
  rw [nfs_sort] at hcod hcod'
  subst hcod hcod'
  injection he with _ hsort
  injection hsort

theorem recursorTele_minor {m : Tm} {k : Nat} (hk : k < ind.ctors.length) :
    (m :: ((range ind.ctors.length).map (minorType ind) ++ [.ind ind.id]))[k + 1]? =
      some (minorType ind k) := by
  rw [List.getElem?_cons_succ, List.getElem?_append_left (by simpa using hk), List.getElem?_map,
    List.getElem?_range hk]
  rfl

theorem recursorTele_scrut (ind : Inductive) :
    ((range ind.ctors.length).map (minorType ind) ++ [.ind ind.id])[ind.ctors.length]? =
      some (.ind ind.id) := by
  have hrange : ((range ind.ctors.length).map (minorType ind)).length = ind.ctors.length := by
    simp
  rw [List.getElem?_append_right (by omega), hrange, Nat.sub_self]
  rfl

/-- The type that the recursor returns is the motive at the scrutinee. -/
theorem recursor_result (hlen : minors.length = ind.ctors.length) :
    (Tm.app (.var (1 + ind.ctors.length)) (.var 0)).inst
      (listSub (motive :: (minors ++ [s])).reverse .var) = .app motive s := by
  have hmotive : (motive :: (minors ++ [s])).reverse[1 + ind.ctors.length]? = some motive := by
    have hidx : (motive :: (minors ++ [s])).length - 1 - (1 + ind.ctors.length) = 0 := by
      rw [length_cons, length_append, length_singleton, hlen]
      omega
    rw [List.getElem?_reverse (by simp; omega), hidx]
    rfl
  have hscrut : (motive :: (minors ++ [s])).reverse[0]? = some s := by simp
  simp only [Tm.inst, listSub_get hmotive, listSub_get hscrut]

/-- The arguments of the recursor are checked one after the other, each at its type with the ones
before it put in. -/
theorem applies_recursor_iff (hid : ind.id = i) (hp : ind.params = []) (hx : ind.indices = [])
    (hs : Checks B env ctx s (.ind i)) (hlen : minors.length = ind.ctors.length) (lm : Level) :
    Applies B env ctx (motive :: (minors ++ [s])) (recursorType ind lm) T ↔
      Checks B env ctx motive (.pi (.ind i) (.sort lm)) ∧
      (∀ k minor, minors[k]? = some minor → Checks B env ctx minor
        ((minorType ind k).inst (listSub (motive :: minors.take k).reverse .var))) ∧
      T = .app motive s := by
  rw [recursorType_simple hp hx, ← inst_var (telescope _ _),
    applies_telescope .var (by simp [hlen]), ← and_assoc]
  refine and_congr ⟨fun h => ⟨?_, fun k minor hk => ?_⟩, ?_⟩ (by rw [recursor_result hlen])
  · have hmotive := h 0 motive _ rfl rfl
    rwa [← hid]
  · have hlt := (List.getElem?_eq_some_iff.mp hk).1
    have hminor := h (k + 1) minor (minorType ind k)
      (by rw [List.getElem?_cons_succ, List.getElem?_append_left hlt, hk])
      (recursorTele_minor (by omega))
    rwa [take_succ_cons, take_append_of_le_length (by omega)] at hminor
  · rintro ⟨hmotive, hminors⟩ k a ty ha hty
    cases k with
    | zero =>
      cases ha
      cases hty
      rwa [hid]
    | succ k =>
      rw [List.getElem?_cons_succ] at ha
      -- a minor premise, the scrutinee, or nothing
      rcases Nat.lt_trichotomy k minors.length with hlt | rfl | hgt
      · cases (recursorTele_minor (by omega)).symm.trans hty
        rw [List.getElem?_append_left hlt] at ha
        rw [take_succ_cons, take_append_of_le_length (by omega)]
        exact hminors k a ha
      · rw [List.getElem?_concat_length] at ha
        cases ha
        rw [List.getElem?_cons_succ, hlen, recursorTele_scrut] at hty
        cases hty
        rwa [hid]
      · rw [List.getElem?_eq_none (by simp; omega)] at ha
        cases ha

/-- A full application of the recursor is typed when its sort is found and the minor premises
check. -/
theorem infers_recursor_iff (hd : env.inds i = some ind) (hid : ind.id = i)
    (hp : ind.params = []) (hx : ind.indices = [])
    (hm : HasMotiveType B env ctx i l motive) (hs : Checks B env ctx s (.ind i))
    (hlen : minors.length = ind.ctors.length) :
    Infers B env ctx (.app (apply (.elim i) (motive :: minors)) s) T ↔
      SortFound B env ctx l motive ∧
      (∀ k minor, minors[k]? = some minor → Checks B env ctx minor
        ((minorType ind k).inst (listSub (motive :: minors.take k).reverse .var))) ∧
      T = .app motive s := by
  rw [← apply_concat, cons_append, infers_elim_simple hd hx]
  constructor
  · rintro ⟨_, mty, a, cod, lm, hmotive, hmty, hpi, hcod, h⟩
    rw [hp] at hmotive
    cases hmotive
    obtain ⟨hchecks, hminors⟩ := (applies_recursor_iff hid hp hx hs hlen lm).mp h
    cases checks_motive_unique hm.checks hchecks
    exact ⟨⟨mty, a, cod, hmty, hpi, hcod⟩, hminors⟩
  · rintro ⟨⟨mty, a, cod, hmty, hpi, hcod⟩, hminors, rfl⟩
    refine ⟨motive, mty, a, cod, l, by rw [hp]; rfl, hmty, hpi, hcod, ?_⟩
    exact (applies_recursor_iff hid hp hx hs hlen l).mpr ⟨hm.checks, hminors, rfl⟩

end Recursor

/-! ## The minor premise that the lowering emits -/

/-- The types that the lowering gives to the hypotheses: those of the recursive fields. -/
def hypBinders (i : IndId) (fields : Telescope) : Telescope :=
  (recFields fields i).map fun q => fields.getD q (.sort 0)

/-- The emitted minor premise fits the recursor: the field types have normal forms and, if there
are recursive fields, the arm under the binders of their hypotheses has the type that the recursor
asks for. -/
structure MinorFits (B : Build) (env : GlobalEnv) (ctx : Ctx) (i : IndId) (motive : Tm) (k : Nat)
    (fields : Telescope) (r : Tm) : Prop where
  normal : TelescopeNormal B env ctx fields
  hyps : recFields fields i ≠ [] → Checks B env (fields.reverse ++ ctx)
    (lams (hypBinders i fields) (shift r ((recFields fields i).length : Int) 0))
    (telescope (hypTele motive i fields)
      (armType motive i k fields.length (recFields fields i).length))

/-- The emitted binders of the hypotheses fit the recursor: they are types where they stand, and
each of them converts with the motive at its field. -/
structure HypsFit (B : Build) (env : GlobalEnv) (ctx : Ctx) (i : IndId) (motive : Tm)
    (fields : Telescope) : Prop where
  sorts : TelescopeOk B env (fields.reverse ++ ctx) (hypBinders i fields)
  converts : ∀ j q, (recFields fields i)[j]? = some q →
    Converts B env (((hypBinders i fields).take j).reverse ++ (fields.reverse ++ ctx))
      (fields.getD q (.sort 0)) (hypFor motive fields.length j q)

section Emitted

variable {B : Build} {env : GlobalEnv} {ctx : Ctx} {i : IndId} {motive r : Tm}
  {fields : Telescope} {k : Nat}

/-- A minor premise checks exactly when it fits. -/
theorem checks_minor_iff (htele : TelescopeOk B env ctx fields)
    (hr : Checks B env (fields.reverse ++ ctx) r (armType motive i k fields.length 0)) :
    Checks B env ctx
      (lams fields (lams (hypBinders i fields) (shift r ((recFields fields i).length : Int) 0)))
      (telescope fields (telescope (hypTele motive i fields)
        (armType motive i k fields.length (recFields fields i).length))) ↔
      MinorFits B env ctx i motive k fields r := by
  rw [checks_lams_telescope htele]
  refine ⟨fun h => ⟨h.1, fun _ => h.2⟩, fun h => ⟨h.normal, ?_⟩⟩
  by_cases hrec : recFields fields i = []
  · have hbinders : hypBinders i fields = [] := by rw [hypBinders, hrec, map_nil]
    have hhyps : hypTele motive i fields = [] := by rw [hypTele, hrec]; rfl
    rw [hbinders, hhyps, hrec, length_nil, Int.natCast_zero, shift_zero]
    exact hr
  · exact h.hyps hrec

theorem forall₂_binders_iff (hidx : NonIndexed env) {ctx' : Ctx} :
    List.Forall₂ (Converts B env ctx') (hypBinders i fields) (hypTele motive i fields) ↔
      ∀ j q, (recFields fields i)[j]? = some q →
        Converts B env (((hypBinders i fields).take j).reverse ++ ctx')
          (fields.getD q (.sort 0)) (hypFor motive fields.length j q) := by
  have hbinder : ∀ {j q}, (recFields fields i)[j]? = some q →
      (hypBinders i fields)[j]? = some (fields.getD q (.sort 0)) ∧
      (hypTele motive i fields)[j]? = some (hypFor motive fields.length j q) := by
    intro j q hq
    simp [hypBinders, hypTele, hq]
  rw [forall₂_iff_getElem?]
  constructor
  · rintro ⟨-, h⟩ j q hq
    obtain ⟨hb, ht⟩ := hbinder hq
    exact (h j _ _ hb ht).inCtx hidx _
  · intro hhyps
    refine ⟨by simp [hypBinders, hypTele], fun j a b ha hb => ?_⟩
    cases hj : (recFields fields i)[j]? with
    | none => simp [hypBinders, hj] at ha
    | some q =>
      obtain ⟨hb', ht'⟩ := hbinder hj
      cases hb'.symm.trans ha
      cases ht'.symm.trans hb
      exact (hhyps j q hj).inCtx hidx ctx'

/-- Without indexed families the binders decide: the arm itself is weakened by the hypotheses. -/
theorem minorFits_iff (hclosed : ClosedEnv env) (hidx : NonIndexed env)
    (hr : Checks B env (fields.reverse ++ ctx) r (armType motive i k fields.length 0)) :
    MinorFits B env ctx i motive k fields r ↔
      TelescopeNormal B env ctx fields ∧ HypsFit B env ctx i motive fields := by
  have hlen : (hypBinders i fields).length = (hypTele motive i fields).length := by
    simp [hypBinders, hypTele]
  have hn : (hypBinders i fields).reverse.length = (recFields fields i).length := by
    simp [hypBinders]
  constructor
  · refine fun h => ⟨h.normal, ?_⟩
    by_cases hrec : recFields fields i = []
    · have hbinders : hypBinders i fields = [] := by rw [hypBinders, hrec, map_nil]
      exact ⟨hbinders ▸ trivial, fun j q hq => by rw [hrec] at hq; cases hq⟩
    · obtain ⟨got, hgot, hconv⟩ := checks_iff.mp (h.hyps hrec)
      obtain ⟨hok, bt, -, rfl⟩ := infers_lams.mp hgot
      exact ⟨hok, (forall₂_binders_iff hidx).mp ((converts_telescope hidx hlen).mp hconv).1⟩
  · refine fun ⟨hnormal, h⟩ => ⟨hnormal, fun _ => ?_⟩
    obtain ⟨bt, hbt, hconv⟩ := checks_iff.mp hr
    have hweak := weakens hclosed hidx r _ _ _ bt
      (ctxRen_weaken (hypBinders i fields).reverse (fields.reverse ++ ctx)) hbt
    rw [hn, ← shift_zero_eq_ren] at hweak
    have hbody := hconv.ren hclosed hidx (fields.reverse ++ ctx) (· + (recFields fields i).length)
    rw [armType_ren] at hbody
    exact checks_iff.mpr ⟨_, infers_lams.mpr ⟨h.sorts, _, hweak, rfl⟩,
      (converts_telescope hidx hlen).mpr ⟨(forall₂_binders_iff hidx).mpr h.converts, hbody⟩⟩

end Emitted

/-! ## The lowered match -/

/-- The arm of a match outside of a fix, as the match uses it. -/
def plainArm (env : GlobalEnv) (arm : SrcArm) : ArmMinor :=
  (arm.ctorIx, fun ind => lowerMinor ind arm.ctorIx arm.binders.length fun recs => do
    let t ← lower env arm.rhs
    .ok (shift t (recs.length : Int) 0))

theorem plainArms_eq (env : GlobalEnv) (arms : List SrcArm) :
    plainArms env arms = arms.map (plainArm env) := by
  induction arms with
  | nil => rw [plainArms, map_nil]
  | cons arm arms ih =>
    obtain ⟨k, binders, rhs⟩ := arm
    rw [plainArms, map_cons, ih]
    rfl

section Match

variable {B : Build} {env : GlobalEnv} {ctx : Ctx} {i : IndId} {ind : Inductive} {l : Level}
  {motive s : Tm} {scrut : SrcTm} {arms : List SrcArm}

/-- A well-typed match: a family without parameters and indices, with constructors numbered
by position; a motive from it to a sort; a scrutinee; and for each constructor an arm that
checks, under the fields, at the motive of that constructor. -/
structure MatchTyped (B : Build) (env : GlobalEnv) (ctx : Ctx) (i : IndId) (ind : Inductive)
    (l : Level) (motive : Tm) (scrut : SrcTm) (s : Tm) (arms : List SrcArm) : Prop where
  declared : env.inds i = some ind
  simple : ind.params = [] ∧ ind.indices = []
  numbered : ind.Numbered
  motiveTy : HasMotiveType B env ctx i l motive
  scrutTy : lower env scrut = .ok s ∧ Checks B env ctx s (.ind i)
  armCount : arms.length = ind.ctors.length
  armTy : ∀ k c, ind.ctors[k]? = some c → ∃ arm r,
    arms.find? (fun a => a.ctorIx = k) = some arm ∧ arm.binders.length = c.args.length ∧
    lower env arm.rhs = .ok r ∧ TelescopeOk B env ctx c.args ∧
    Checks B env (c.args.reverse ++ ctx) r (armType motive i k c.args.length 0)

/-- The arm of the constructor at position `k` is translated to `r`. -/
def ArmLowers (env : GlobalEnv) (arms : List SrcArm) (k : Nat) (r : Tm) : Prop :=
  ∃ arm, arms.find? (fun a => a.ctorIx = k) = some arm ∧ Kernel.lower env arm.rhs = .ok r

theorem ArmLowers.unique {k : Nat} {r r' : Tm} (h : ArmLowers env arms k r)
    (h' : ArmLowers env arms k r') : r = r' := by
  obtain ⟨arm, harm, hr⟩ := h
  obtain ⟨arm', harm', hr'⟩ := h'
  cases harm.symm.trans harm'
  exact Except.ok.inj (hr.symm.trans hr')

/-- The translation of a well-typed match, with the arms it is made from. -/
theorem MatchTyped.lower (h : MatchTyped B env ctx i ind l motive scrut s arms) (hid : ind.id = i) :
    ∃ minors, Kernel.lower env (.matchOn scrut i motive arms)
        = .ok (.app (apply (.elim i) (motive :: minors)) s) ∧
      minors.length = ind.ctors.length ∧
      ∀ k minor, minors[k]? = some minor → ∃ c r, ind.ctors[k]? = some c ∧
        ArmLowers env arms k r ∧ TelescopeOk B env ctx c.args ∧
        Checks B env (c.args.reverse ++ ctx) r (armType motive i k c.args.length 0) ∧
        minor = lams c.args
          (lams (hypBinders i c.args) (shift r ((recFields c.args i).length : Int) 0)) := by
  subst hid
  have harm : ∀ k ∈ range ind.ctors.length, ∃ minor,
      lowerArm ind (plainArms env arms) k = .ok minor ∧ ∃ c r, ind.ctors[k]? = some c ∧
        ArmLowers env arms k r ∧ TelescopeOk B env ctx c.args ∧
        Checks B env (c.args.reverse ++ ctx) r (armType motive ind.id k c.args.length 0) ∧
        minor = lams c.args (lams (hypBinders ind.id c.args)
          (shift r ((recFields c.args ind.id).length : Int) 0)) := by
    intro k hk
    have hc := List.getElem?_eq_getElem (mem_range.mp hk)
    obtain ⟨arm, r, hfind, hbinders, hr, htele, hcheck⟩ := h.armTy k _ hc
    refine ⟨_, ?_, _, r, hc, ⟨arm, hfind, hr⟩, htele, hcheck, rfl⟩
    have hctor : arm.ctorIx = k := by simpa using find?_some hfind
    have hfind' : (arms.map (plainArm env)).find? (fun a => a.1 = k) = some (plainArm env arm) := by
      rw [find?_map]
      exact congrArg (Option.map (plainArm env)) hfind
    rw [plainArms_eq, lowerArm, hfind']
    dsimp only [plainArm]
    rw [hctor, lowerMinor_eq_ok hc]
    exact ⟨hbinders, _, by rw [hr]; rfl, rfl⟩
  obtain ⟨minors, hminors⟩ := exists_forall₂ harm
  obtain ⟨hlen, hget⟩ := forall₂_range hminors
  refine ⟨minors, ?_, hlen, fun k minor hk => (hget k minor hk).2⟩
  rw [Kernel.lower, lowerMatch_eq_ok h.declared]
  refine ⟨h.simple, by rw [plainArms_eq, length_map, h.armCount], minors, s, ?_, h.scrutTy.1, rfl⟩
  exact hminors.imp fun _ _ hm => hm.1

theorem ind_spine_nil {ty T : Tm} (hd : env.inds i = some ind)
    (hsimple : ind.params = [] ∧ ind.indices = []) (hhead : ty.head = .ind i)
    (h : Infers B env ctx ty T) : ty.args = [] := by
  induction ty generalizing T with
  | app f x ihf _ =>
    have hf : f.head = .ind i := hhead
    obtain ⟨ft, dom, cod, hft, hpi, -, -⟩ := (infers_app (by rw [hf]; exact nofun)).mp h
    have hfind : f = .ind i := by
      rw [← apply_head_args f, hf, ihf hf hft]
      rfl
    subst hfind
    obtain ⟨d, hd', rfl⟩ := infers_ind.mp hft
    cases hd.symm.trans hd'
    have hin : (indType ind).Inert := by
      rw [indType, hsimple.1, hsimple.2]
      trivial
    have := (whnfs_inert hin).mp hpi
    rw [indType, hsimple.1, hsimple.2] at this
    cases this
  | _ => rfl

theorem TelescopeOk.get {tele : Telescope} (h : TelescopeOk B env ctx tele) {q : Nat} {ty : Tm}
    (hq : tele[q]? = some ty) : ∃ l, HasSort B env ((tele.take q).reverse ++ ctx) ty l := by
  induction tele generalizing ctx q with
  | nil => cases hq
  | cons d rest ih =>
    cases q with
    | zero =>
      cases hq
      exact h.1
    | succ q =>
      obtain ⟨l, hl⟩ := ih h.2 hq
      refine ⟨l, ?_⟩
      rwa [take_succ_cons, reverse_cons, append_assoc, singleton_append]

theorem indIndices_nil {fields : Telescope} (hd : env.inds i = some ind)
    (hsimple : ind.params = [] ∧ ind.indices = []) (h : TelescopeOk B env ctx fields) {q : Nat}
    (hq : q < fields.length) : indIndices (fields.getD q (.sort 0)) i 0 = [] := by
  have hfield : fields[q]? = some (fields.getD q (.sort 0)) := by
    rw [getD_eq_getElem?_getD, List.getElem?_eq_getElem hq]
    rfl
  obtain ⟨l, hl⟩ := h.get hfield
  obtain ⟨T, hT, -⟩ := hasSort_iff.mp hl
  unfold indIndices
  split
  · next hhead => rw [ind_spine_nil hd hsimple hhead.1 hT, drop_nil]
  · rfl

theorem Built.retIndices_nil {Q : GlobalEnv → Admission → Prop} (hB : Built B Q env)
    (hd : env.inds i = some ind) (hx : ind.indices = []) {c : CtorDecl} (hc : c ∈ ind.ctors) :
    c.retIndices = [] := by
  obtain ⟨-, _, _, -, -, hret⟩ := hB.admitted hd
  have hlen := (checkRetIndices_ok hret c hc).1
  rw [hx, length_nil, length_eq_zero_iff] at hlen
  exact hlen

/-- An emitted minor premise checks where the recursor asks for it exactly if it fits. -/
theorem MatchTyped.minor_iff {Q : GlobalEnv → Admission → Prop} (hB : Built B Q env)
    (h : MatchTyped B env ctx i ind l motive scrut s arms) {k : Nat} {c : CtorDecl} {r : Tm}
    {minors : List Tm} (hk : k ≤ minors.length) (hc : ind.ctors[k]? = some c)
    (htele : TelescopeOk B env ctx c.args)
    (hcheck : Checks B env (c.args.reverse ++ ctx) r (armType motive i k c.args.length 0)) :
    Checks B env ctx
        (lams c.args (lams (hypBinders i c.args) (shift r ((recFields c.args i).length : Int) 0)))
        ((minorType ind k).inst (listSub (motive :: minors.take k).reverse .var)) ↔
      MinorFits B env ctx i motive k c.args r := by
  have hid := hB.keyed h.declared
  have hmem := mem_of_getElem? hc
  have hfields : ClosedTele 0 c.args := by
    simpa [h.simple.1] using hB.closed_fields h.declared c hmem
  have hidxs : ∀ q ∈ recFields c.args ind.id,
      indIndices (c.args.getD q (.sort 0)) ind.id 0 = [] := by
    intro q hq
    rw [hid]
    exact indIndices_nil h.declared h.simple htele (mem_range.mp (mem_of_mem_filter hq))
  have hmotive : listSub (motive :: minors.take k).reverse .var k = motive := by
    refine listSub_get ?_ _
    rw [reverse_cons, List.getElem?_append_right (by simp), length_reverse,
      length_take_of_le hk, Nat.sub_self]
    rfl
  rw [minorType_inst hc h.simple.1 hfields
    (hB.retIndices_nil h.declared h.simple.2 hmem) hidxs hmotive, hid]
  exact checks_minor_iff htele hcheck

/-- Lowering keeps the type of a match exactly when the sort of the motive is found, the emitted
minor premises fit and the type itself has a normal form. In a closed environment without indexed
families the sort is found, and what has to fit is the binders of the hypotheses. -/
theorem lowered_match_typed_iff {Q : GlobalEnv → Admission → Prop} (hB : Built B Q env)
    (h : MatchTyped B env ctx i ind l motive scrut s arms) :
    ((∃ t T, lower env (.matchOn scrut i motive arms) = .ok t ∧ Infers B env ctx t T ∧
        Converts B env ctx T (.app motive s)) ↔
      SortFound B env ctx l motive ∧
        (∀ k c r, ind.ctors[k]? = some c → ArmLowers env arms k r →
          MinorFits B env ctx i motive k c.args r) ∧
        ∃ v, Nfs B env ctx (.app motive s) v) ∧
    (ClosedEnv env → NonIndexed env → SortFound B env ctx l motive ∧
      ∀ k c r, ind.ctors[k]? = some c → ArmLowers env arms k r →
        (MinorFits B env ctx i motive k c.args r ↔
          TelescopeNormal B env ctx c.args ∧ HypsFit B env ctx i motive c.args)) := by
  have hid := hB.keyed h.declared
  obtain ⟨minors, hlower, hlen, hminors⟩ := h.lower hid
  have hrec := fun T => infers_recursor_iff (T := T) h.declared hid h.simple.1
    h.simple.2 h.motiveTy h.scrutTy.2 hlen
  -- the minor premise at `k` is that of the constructor and of the arm there
  have hminor : ∀ k c r, ind.ctors[k]? = some c → ArmLowers env arms k r →
      ∃ minor, minors[k]? = some minor ∧ TelescopeOk B env ctx c.args ∧
        Checks B env (c.args.reverse ++ ctx) r (armType motive i k c.args.length 0) ∧
        minor = lams c.args
          (lams (hypBinders i c.args) (shift r ((recFields c.args i).length : Int) 0)) := by
    intro k c r hc hr
    have hlt : k < minors.length := hlen ▸ (List.getElem?_eq_some_iff.mp hc).1
    have hget := List.getElem?_eq_getElem hlt
    obtain ⟨c', r', hc', hr', hrest⟩ := hminors k _ hget
    cases hc.symm.trans hc'
    cases hr.unique hr'
    exact ⟨_, hget, hrest⟩
  have hfit : ∀ k minor, minors[k]? = some minor → ∃ c r, ind.ctors[k]? = some c ∧
      ArmLowers env arms k r ∧ (Checks B env ctx minor
        ((minorType ind k).inst (listSub (motive :: minors.take k).reverse .var)) ↔
        MinorFits B env ctx i motive k c.args r) := by
    intro k minor hk
    obtain ⟨c, r, hc, hr, htele, hcheck, rfl⟩ := hminors k minor hk
    have hle := (List.getElem?_eq_some_iff.mp hk).1.le
    exact ⟨c, r, hc, hr, h.minor_iff hB hle hc htele hcheck⟩
  refine ⟨⟨?_, ?_⟩, fun hclosed hidx => ⟨h.motiveTy.sortFound hclosed hidx, ?_⟩⟩
  · rintro ⟨t, T, ht, hT, hconv⟩
    cases hlower.symm.trans ht
    obtain ⟨hsort, hchecks, rfl⟩ := (hrec T).mp hT
    refine ⟨hsort, fun k c r hc hr => ?_, ?_⟩
    · obtain ⟨minor, hget, -⟩ := hminor k c r hc hr
      obtain ⟨c', r', hc', hr', hiff⟩ := hfit k _ hget
      cases hc.symm.trans hc'
      cases hr.unique hr'
      exact hiff.mp (hchecks k _ hget)
    · obtain ⟨v, hv, -⟩ := converts_iff.mp hconv
      exact ⟨v, hv⟩
  · rintro ⟨hsort, hall, v, hv⟩
    refine ⟨_, .app motive s, hlower, (hrec _).mpr ⟨hsort, fun k minor hk => ?_, rfl⟩,
      converts_iff.mpr ⟨v, hv, hv⟩⟩
    obtain ⟨c, r, hc, hr, hiff⟩ := hfit k minor hk
    exact hiff.mpr (hall k c r hc hr)
  · intro k c r hc hr
    obtain ⟨-, -, -, hcheck, -⟩ := hminor k c r hc hr
    exact minorFits_iff hclosed hidx hcheck

end Match

/-! ## A motive that is not the family itself -/

/-- `match zero return motive with zero => z | succ m => r`. -/
def natMatch (motive : Tm) (z r : Tm) : SrcTm :=
  .matchOn (.core (.ctor 0 0)) 0 motive [.mk 0 [] (.core z), .mk 1 [.ind 0] (.core r)]

theorem natMatch_typed {B : Build} {env : GlobalEnv} {l : Level} {motive z r : Tm}
    (hd : env.inds 0 = some natDecl) (hm : HasMotiveType B env [] 0 l motive)
    (hz : Checks B env [] z (armType motive 0 0 0 0))
    (hr : Checks B env [.ind 0] r (armType motive 0 1 1 0)) :
    MatchTyped B env [] 0 natDecl l motive (.core (.ctor 0 0)) (.ctor 0 0)
      [.mk 0 [] (.core z), .mk 1 [.ind 0] (.core r)] where
  declared := hd
  simple := ⟨rfl, rfl⟩
  numbered := by
    intro k c hc
    match k with
    | 0 => cases hc; rfl
    | 1 => cases hc; rfl
    | k + 2 => cases hc
  motiveTy := hm
  scrutTy := by
    refine ⟨by rw [lower], checks_iff.mpr ⟨.ind 0, ?_, ?_⟩⟩
    · exact infers_ctor.mpr ⟨natDecl, ⟨0, [], []⟩, hd, rfl, rfl⟩
    · exact converts_iff.mpr ⟨.ind 0, nfs_ind.mpr rfl, nfs_ind.mpr rfl⟩
  armCount := rfl
  armTy := by
    intro k c hc
    match k with
    | 0 =>
      cases hc
      exact ⟨_, z, rfl, rfl, by rw [SrcArm.rhs, lower], trivial, hz⟩
    | 1 =>
      cases hc
      refine ⟨_, r, rfl, rfl, by rw [SrcArm.rhs, lower], ⟨⟨0, ?_⟩, trivial⟩, hr⟩
      have hin : (Tm.sort 0).Inert := trivial
      exact hasSort_iff.mpr ⟨_, infers_ind.mpr ⟨natDecl, hd, rfl⟩, hin.whnfs⟩
    | k + 2 => cases hc

/-- The test for zero is a well-typed match, and its translation has no type: the hypothesis
of `succ m` is bound as a number, and the recursor asks for a boolean. -/
theorem isZero_illTyped : ∃ t,
    lower boolEnv (natMatch (.lam (.ind 0) (.ind 1)) (.ctor 1 1) (.ctor 1 0)) = .ok t ∧
    ∀ B : Build, Built B anyAdmission boolEnv ∧
      MatchTyped B boolEnv [] 0 natDecl 0 (.lam (.ind 0) (.ind 1)) (.core (.ctor 0 0)) (.ctor 0 0)
        [.mk 0 [] (.core (.ctor 1 1)), .mk 1 [.ind 0] (.core (.ctor 1 0))] ∧
      ∀ T, ¬ Infers B boolEnv [] t T := by
  refine ⟨_, rfl, fun B =>
    ⟨boolEnv_built B, natMatch_typed rfl ?_ ⟨9, rfl⟩ ⟨9, rfl⟩, fun T => ?_⟩⟩
  · exact ⟨_, _, _, ⟨9, rfl⟩, ⟨9, rfl⟩, ⟨9, rfl⟩, ⟨9, rfl⟩⟩
  · have herr : (run B boolEnv 12).infer [] (apply (.elim 0) [.lam (.ind 0) (.ind 1), .ctor 1 1,
        lams [.ind 0, .ind 0] (.ctor 1 0), .ctor 0 0]) = .error .mismatch := rfl
    exact not_infers_of_error herr

/-- `cons : Π n. Vec n → Vec (succ n)`. -/
def vecDecl : Inductive :=
  ⟨1, [], [.ind 0], 0, [⟨0, [], [.ctor 0 0]⟩,
    ⟨1, [.ind 0, .app (.ind 1) (.var 0)], [.app (.ctor 0 1) (.var 1)]⟩]⟩

def vecEnv : GlobalEnv := (natEnv.insertInd vecDecl).insertRecursor vecDecl

/-- The predecessor has a motive that is the family itself, and keeps its type; an indexed family
that it does not use makes no difference. -/
theorem pred_typed :
    ∃ t T, lower vecEnv (natMatch (.lam (.ind 0) (.ind 0)) (.ctor 0 0) (.var 0)) = .ok t ∧
      Infers releaseBuild vecEnv [] t T ∧
      Converts releaseBuild vecEnv [] T (.app (.lam (.ind 0) (.ind 0)) (.ctor 0 0)) := by
  have hbuilt : Built releaseBuild anyAdmission vecEnv :=
    .add (a := .ind vecDecl) (natEnv_built releaseBuild) trivial (.ind (n := 12) rfl)
  refine (lowered_match_typed_iff hbuilt
    (natMatch_typed rfl ⟨_, _, _, ⟨9, rfl⟩, ⟨9, rfl⟩, ⟨9, rfl⟩, ⟨9, rfl⟩⟩
      ⟨9, rfl⟩ ⟨9, rfl⟩)).1.mpr ⟨⟨_, _, _, ⟨9, rfl⟩, ⟨9, rfl⟩, ⟨9, rfl⟩⟩, ?_, _, ⟨9, rfl⟩⟩
  rintro k c r hc ⟨arm, harm, hr⟩
  match k with
  | 0 =>
    cases hc
    exact ⟨nofun, fun hrec => absurd rfl hrec⟩
  | 1 =>
    cases hc
    cases harm
    cases hr
    exact ⟨telescopeNormal_cons.mpr ⟨⟨_, 9, rfl⟩, nofun⟩, fun _ => ⟨9, rfl⟩⟩
  | k + 2 => cases hc

end Dnet.Kernel
