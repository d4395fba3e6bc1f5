import Dnet.Kernel.Judge

/-!
# What the admission of an inductive checks, and what it does not

`add_inductive` checks the fields and the return indices of every constructor, but neither the
parameter and index telescopes (`unboundParam_admitted`) nor the constructor numbers. An admitted
declaration is well formed exactly when its telescopes are and its constructors are numbered by
position (`addInductive_wellFormed_iff`).
-/

namespace Dnet.Kernel

open Lib (Call)

section Telescopes

variable (B : Build) (env : GlobalEnv)

/-- Every type of the telescope has a sort in the context of those before it. -/
def TelescopeOk : Ctx → Telescope → Prop
  | _, [] => True
  | ctx, ty :: rest => (∃ l, HasSort B env ctx ty l) ∧ TelescopeOk (ty :: ctx) rest

variable {B env}

theorem hasSort_telescope {ctx : Ctx} {tele : Telescope} {b : Tm} :
    (∃ l, HasSort B env ctx (telescope tele b) l) ↔
      TelescopeOk B env ctx tele ∧ ∃ l, HasSort B env (tele.reverse ++ ctx) b l := by
  induction tele generalizing ctx with
  | nil => simp [telescope, TelescopeOk]
  | cons ty rest ih =>
    have hctx : (ty :: rest).reverse ++ ctx = rest.reverse ++ ty :: ctx := by simp
    rw [hctx, TelescopeOk, and_assoc, ← ih]
    constructor
    · rintro ⟨l, h⟩
      obtain ⟨i, j, hi, hj, -⟩ := hasSort_pi.mp h
      exact ⟨⟨i, hi⟩, j, hj⟩
    · rintro ⟨⟨i, hi⟩, j, hj⟩
      exact ⟨max i j, hasSort_pi.mpr ⟨i, j, hi, hj, rfl⟩⟩

end Telescopes

section Gate

variable {B : Build} {env env' : GlobalEnv} {d : Inductive} {n : Nat}

/-- The kernel never reads the arity tables. -/
theorem run_insertRecursor (n : Nat) : run B (env.insertRecursor d) n = run B env n := by
  induction n with
  | zero => rfl
  | succ n ih =>
    rw [run, ih]
    rfl

theorem checkFields_ok {sort : Level} {ctx : Ctx} {fields : Telescope}
    (h : checkFields B env n sort ctx fields = .ok ()) : TelescopeOk B env ctx fields := by
  induction fields generalizing ctx with
  | nil => trivial
  | cons field rest ih =>
    unfold checkFields at h
    split at h
    · cases h
    · cases h
    · next level hlevel =>
      split at h
      · exact ⟨⟨level, n, hlevel⟩, ih h⟩
      · cases h

theorem checkCtors_ok {f : CtorDecl → Call AdmitError Unit} {cs : List CtorDecl}
    (h : checkCtors f cs = .ok ()) : ∀ c ∈ cs, f c = .ok () := by
  induction cs with
  | nil => exact nofun
  | cons c cs ih =>
    obtain ⟨_, hc, hcs⟩ := Call.bind_eq_ok.mp h
    exact List.forall_mem_cons.mpr ⟨hc, ih hcs⟩

theorem checkRetIndices_ok (h : checkRetIndices B env n d = .ok ()) :
    ∀ c ∈ d.ctors, c.retIndices.length = d.indices.length ∧
      ∃ l, HasSort B env (c.args.reverse ++ d.params.reverse) (ctorRet d.id d c) l := by
  intro c hc
  have hf := checkCtors_ok h c hc
  split at hf
  · next hlen =>
    refine ⟨hlen, ?_⟩
    split at hf
    · cases hf
    · cases hf
    · next l hl => exact ⟨l, n, hl⟩
  · cases hf

/-- The number of every constructor is its position. -/
def Inductive.Numbered (d : Inductive) : Prop :=
  ∀ (k : Nat) (c : CtorDecl), d.ctors[k]? = some c → c.ctorIx = k

/-- The types of a declaration are well formed in `env`, and its constructors are numbered
by position. -/
structure WellFormed (B : Build) (env : GlobalEnv) (d : Inductive) : Prop where
  ind : ∃ ty l, Infers B env [] (.ind d.id) ty ∧ HasSort B env [] ty l
  ctors : ∀ c ∈ d.ctors, ∃ ty l, Infers B env [] (.ctor d.id c.ctorIx) ty ∧ HasSort B env [] ty l
  numbered : d.Numbered

/-- The checks that the admission does not make: the parameter and index telescopes are
well formed where the fields are checked, the sort is not the last level of a debug build,
and the constructors are numbered by position. -/
structure Guarded (B : Build) (env : GlobalEnv) (d : Inductive) : Prop where
  params : TelescopeOk B (env.insertInd d) [] d.params
  indices : TelescopeOk B (env.insertInd d) d.params.reverse d.indices
  sort : ∃ l, B.succ d.sort = some l
  numbered : d.Numbered

theorem hasSort_indType {ctx : Ctx} : (∃ l, HasSort B env ctx (indType d) l) ↔
      TelescopeOk B env ctx d.params ∧ TelescopeOk B env (d.params.reverse ++ ctx) d.indices ∧
        ∃ l, B.succ d.sort = some l := by
  unfold indType
  rw [hasSort_telescope, hasSort_telescope]
  simp only [hasSort_sort]

theorem find_ctor (hnum : d.Numbered) {c : CtorDecl}
    (hc : c ∈ d.ctors) : d.ctors.find? (fun c' => c'.ctorIx = c.ctorIx) = some c := by
  obtain ⟨k, hk⟩ := List.getElem?_of_mem hc
  obtain ⟨c', hc'⟩ : ∃ c', d.ctors.find? (fun c' => c'.ctorIx = c.ctorIx) = some c' :=
    Option.isSome_iff_exists.mp (List.find?_isSome.mpr ⟨c, hc, by simp⟩)
  obtain ⟨k', hk'⟩ := List.getElem?_of_mem (List.mem_of_find?_eq_some hc')
  have hix : c'.ctorIx = c.ctorIx := by simpa using List.find?_some hc'
  have hkk : k' = k := by rw [← hnum k' c' hk', ← hnum k c hk, hix]
  rw [hc', ← hk', hkk, hk]

theorem wellFormed_iff_guarded (hfields : checkFieldUniverses B (env.insertInd d) n d = .ok ())
    (hret : checkRetIndices B (env.insertInd d) n d = .ok ()) :
    WellFormed B (env.insertInd d) d ↔ Guarded B env d := by
  have hid : (env.insertInd d).inds d.id = some d := Function.update_self ..
  constructor
  · intro h
    obtain ⟨ty, l, hty, hl⟩ := h.ind
    obtain ⟨_, hd, rfl⟩ := infers_ind.mp hty
    cases hid.symm.trans hd
    obtain ⟨hp, hi, hs⟩ := hasSort_indType.mp ⟨l, hl⟩
    exact ⟨hp, by simpa using hi, hs, h.numbered⟩
  · intro h
    refine ⟨?_, fun c hc => ?_, h.numbered⟩
    · obtain ⟨l, hl⟩ := hasSort_indType.mpr ⟨h.params, by simpa using h.indices, h.sort⟩
      exact ⟨indType d, l, infers_ind.mpr ⟨d, hid, rfl⟩, hl⟩
    · have hargs := checkFields_ok (checkCtors_ok hfields c hc)
      obtain ⟨-, hr⟩ := checkRetIndices_ok hret c hc
      have hsort : ∃ l, HasSort B (env.insertInd d) [] (ctorType d.id d c) l := by
        refine hasSort_telescope.mpr ⟨h.params, hasSort_telescope.mpr ⟨?_, ?_⟩⟩
        · simpa using hargs
        · simpa using hr
      obtain ⟨l, hl⟩ := hsort
      exact ⟨ctorType d.id d c, l, infers_ctor.mpr ⟨d, c, hid, find_ctor h.numbered hc, rfl⟩, hl⟩

theorem wellFormed_insertRecursor : WellFormed B (env.insertRecursor d) d ↔ WellFormed B env d := by
  have hinfer : ∀ t ty, Infers B (env.insertRecursor d) [] t ty ↔ Infers B env [] t ty := by
    intro t ty
    simp only [Infers, run_insertRecursor]
  have hsort : ∀ t l, HasSort B (env.insertRecursor d) [] t l ↔ HasSort B env [] t l := by
    intro t l
    simp only [HasSort, run_insertRecursor]
  constructor
  · rintro ⟨h1, h2, h3⟩
    exact ⟨by simpa only [hinfer, hsort] using h1, by simpa only [hinfer, hsort] using h2, h3⟩
  · rintro ⟨h1, h2, h3⟩
    exact ⟨by simpa only [hinfer, hsort] using h1, by simpa only [hinfer, hsort] using h2, h3⟩

end Gate

/-- A refusal changes nothing. An admission gives a well-formed declaration exactly when
the checks it leaves out would have passed. -/
theorem addInductive_wellFormed_iff (B : Build) (n : Nat) (env env' : GlobalEnv) (d : Inductive)
    (r : Except AdmitError Unit) (h : addInductive B n env d = some (r, env')) :
    (∀ e, r = .error e → env' = env) ∧ (r = .ok () → (WellFormed B env' d ↔ Guarded B env d)) := by
  rcases addInductive_cases B h with ⟨e, rfl, rfl⟩ | ⟨rfl, -, -, hfields, hret, rfl⟩
  · exact ⟨fun _ _ => rfl, nofun⟩
  · exact ⟨nofun, fun _ => wellFormed_insertRecursor.trans (wellFormed_iff_guarded hfields hret)⟩

/-- A release build with an arbitrary comparison of nets. -/
def releaseBuild : Build := ⟨false, fun _ _ => .ok false⟩

/-- `inductive Unit : Sort 0 := unit`. -/
def unitDecl : Inductive := ⟨0, [], [], 0, [⟨0, [], []⟩]⟩

/-- `leaf : Π A. Tagged A unit` and `node : Π A. A → Tagged A unit → Tagged A unit`. -/
def taggedDecl : Inductive :=
  ⟨1, [.sort 0], [.ind 0], 0, [⟨0, [], [.ctor 0 0]⟩,
    ⟨1, [.var 0, apply (.ind 1) [.var 1, .ctor 0 0]], [.ctor 0 0]⟩]⟩

def unitEnv : GlobalEnv := (GlobalEnv.empty.insertInd unitDecl).insertRecursor unitDecl

def taggedEnv : GlobalEnv := (unitEnv.insertInd taggedDecl).insertRecursor taggedDecl

/-- A recursive family with a parameter and an index meets the condition, and is well formed after
its admission. -/
theorem tagged_wellFormed : addInductive releaseBuild 9 .empty unitDecl = some (.ok (), unitEnv) ∧
    addInductive releaseBuild 9 unitEnv taggedDecl = some (.ok (), taggedEnv) ∧
    Guarded releaseBuild unitEnv taggedDecl ∧ WellFormed releaseBuild taggedEnv taggedDecl := by
  have hadd : addInductive releaseBuild 9 unitEnv taggedDecl = some (.ok (), taggedEnv) := rfl
  have hg : Guarded releaseBuild unitEnv taggedDecl := by
    refine ⟨⟨⟨1, 3, rfl⟩, trivial⟩, ⟨⟨0, 3, rfl⟩, trivial⟩, ⟨1, rfl⟩, fun k c hk => ?_⟩
    match k, hk with
    | 0, hk | 1, hk => cases hk; rfl
  exact ⟨rfl, hadd, hg,
    ((addInductive_wellFormed_iff releaseBuild 9 unitEnv _ taggedDecl _ hadd).2 rfl).mpr hg⟩

/-- A parameter whose type is an unbound variable. -/
def unboundParam : Inductive := ⟨0, [.var 5], [], 0, []⟩

/-- The declaration is admitted, and the type of the new inductive has no sort. -/
theorem unboundParam_admitted :
    ∃ n env', ∀ B : Build, addInductive B n .empty unboundParam = some (.ok (), env') ∧
      ¬ WellFormed B env' unboundParam := by
  refine ⟨0, (GlobalEnv.empty.insertInd unboundParam).insertRecursor unboundParam,
    fun B => ⟨rfl, fun h => ?_⟩⟩
  obtain ⟨ty, l, hty, hl⟩ := h.ind
  obtain ⟨d, hd, rfl⟩ := infers_ind.mp hty
  cases hd
  obtain ⟨⟨⟨l', hl'⟩, -⟩, -⟩ := hasSort_indType.mp ⟨l, hl⟩
  obtain ⟨ty', hty', -⟩ := hasSort_iff.mp hl'
  obtain ⟨a, ha, -⟩ := infers_var.mp hty'
  cases ha

end Dnet.Kernel
