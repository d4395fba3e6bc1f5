import Dnet.Kernel.Admission

/-!
# Closed proofs of an empty type

`head_is_ind` counts a field of function type `A → I` as a recursive field of `I`, and the
recursor gives it an induction hypothesis `motive f` although `f` is not an element of `I`. Out
of `node : (Empty → Branch) → Branch` the recursor makes a closed proof of `Empty`
(`absurdProof_checks`). No such proof is in head-normal form: closed head-normal elements are
constructors (`settled_canonical`).
-/

namespace Dnet.Kernel

open Lib (Call)

/-! ## Head-normal forms -/

/-- The number of arguments of a recursor: parameters, motive, minors, indices, scrutinee. -/
def elimArity (d : Inductive) : Nat :=
  d.params.length + 1 + d.ctors.length + d.indices.length + 1

/-- Nothing to do at the head: no β-redex, and a recursor lacks its scrutinee or waits for
one that is not a constructor of its type. -/
inductive Settled (env : GlobalEnv) : Tm → Prop where
  | inert {t : Tm} : t.Inert → Settled env t
  | under {t : Tm} {i : IndId} {d : Inductive} :
    t.head = .elim i → env.inds i = some d → t.args.length < elimArity d → Settled env t
  | stuck {t s : Tm} {i : IndId} {d : Inductive} :
    t.head = .elim i → env.inds i = some d → t.args[elimArity d - 1]? = some s →
    (∀ k, s.head ≠ .ctor i k) → Settled env s → Settled env t

/-! ## Telescopes under substitution -/

theorem subst_apply (h : Tm) (args : List Tm) (j : Nat) (a : Tm) :
    subst (apply h args) j a = apply (subst h j a) (args.map (subst · j a)) := by
  induction args generalizing h with
  | nil => rfl
  | cons x args ih => exact ih (.app h x)

/-- Substitution in the types of a telescope, from the variable `j` on. -/
def substTele : Telescope → Nat → Tm → Telescope
  | [], _, _ => []
  | ty :: rest, j, a => subst ty j a :: substTele rest (j + 1) a

theorem subst_telescope (tele : Telescope) (b : Tm) (j : Nat) (a : Tm) :
    subst (telescope tele b) j a
      = telescope (substTele tele j a) (subst b (j + tele.length) a) := by
  induction tele generalizing j with
  | nil => rfl
  | cons ty rest ih =>
    have hlen : j + (ty :: rest).length = j + 1 + rest.length := by
      rw [List.length_cons]
      omega
    rw [hlen]
    exact congrArg (Tm.pi (subst ty j a)) (ih (j + 1))

@[simp] theorem length_substTele (tele : Telescope) (j : Nat) (a : Tm) :
    (substTele tele j a).length = tele.length := by
  induction tele generalizing j with
  | nil => rfl
  | cons ty rest ih => exact congrArg (· + 1) (ih (j + 1))

variable {t : Tm} {tele : Telescope}

theorem head_subst_of_ind {i : IndId} (h : t.head = .ind i) (j : Nat) (a : Tm) :
    (subst t j a).head = .ind i := by
  rw [← apply_head_args t, subst_apply, head_apply, h]
  rfl

theorem substTele_head {p : Nat} {i : IndId}
    (h : ∃ ty : Tm, tele[p]? = some ty ∧ ty.head = .ind i) (j : Nat) (a : Tm) :
    ∃ ty : Tm, (substTele tele j a)[p]? = some ty ∧ ty.head = .ind i := by
  induction tele generalizing p j with
  | nil =>
    obtain ⟨ty, hty, -⟩ := h
    cases hty
  | cons ty rest ih =>
    cases p with
    | zero =>
      obtain ⟨ty', hty, hhead⟩ := h
      cases hty
      exact ⟨_, rfl, head_subst_of_ind hhead j a⟩
    | succ p => exact ih (p := p) h (j + 1)

/-- The type ends, after products, in a sort or in an inductive with the property `P`. -/
inductive EndsIn (P : IndId → Prop) : Tm → Prop where
  | sort (l : Level) : EndsIn P (.sort l)
  | ind {t : Tm} {i : IndId} : t.head = .ind i → P i → EndsIn P t
  | pi {a b : Tm} : EndsIn P b → EndsIn P (.pi a b)

variable {P : IndId → Prop}

theorem EndsIn.telescope {b : Tm} (h : EndsIn P b) : EndsIn P (telescope tele b) := by
  induction tele with
  | nil => exact h
  | cons ty rest ih => exact .pi ih

theorem EndsIn.subst (h : EndsIn P t) (j : Nat) (a : Tm) : EndsIn P (subst t j a) := by
  induction h generalizing j with
  | sort l => exact .sort l
  | ind hhead hP => exact .ind (head_subst_of_ind hhead j a) hP
  | pi _ ih => exact .pi (ih (j + 1))

theorem inert_of_head_ind {i : IndId} (h : t.head = .ind i) : t.Inert := by
  unfold Tm.Inert
  rw [h]
  trivial

theorem EndsIn.inert (h : EndsIn P t) : t.Inert := by
  cases h with
  | sort l => trivial
  | ind hhead _ => exact inert_of_head_ind hhead
  | pi _ => trivial

/-! ## Canonical forms -/

section Canonical

variable {B : Build} {env : GlobalEnv} {t T : Tm} {ctx : Ctx} {i : IndId}

theorem Tm.Inert.fn {f x : Tm} (h : (Tm.app f x).Inert) : f.Inert := by
  unfold Tm.Inert at h ⊢
  rw [Tm.head] at h
  cases hf : f.head with
  | lam a b =>
    rw [hf] at h
    exact absurd h (by simp [Tm.args])
  | const c | elim i => rw [hf] at h; exact h.elim
  | _ => trivial

theorem Tm.Inert.head_ne_elim (h : t.Inert) (i : IndId) : t.head ≠ .elim i := by
  intro hi
  unfold Tm.Inert at h
  rw [hi] at h
  exact h

/-- `t` is a constructor of the admitted inductive `i`. -/
def IsCtorOf (env : GlobalEnv) (t : Tm) (i : IndId) : Prop :=
  ∃ k d c, t.head = .ctor i k ∧ env.inds i = some d ∧ d.ctors.find? (fun c => c.ctorIx = k) = some c

/-- The type of a closed inert term that is not a function: it is read off the head. -/
theorem infers_inert (hin : t.Inert) (hlam : ∀ a b, t ≠ .lam a b)
    (h : Infers B env [] t T) : EndsIn (IsCtorOf env t) T := by
  induction t generalizing T with
  | var i =>
    obtain ⟨a, ha, -⟩ := infers_var.mp h
    cases ha
  | sort l =>
    obtain ⟨l', -, rfl⟩ := infers_sort.mp h
    exact .sort l'
  | pi a b =>
    obtain ⟨i, j, -, -, rfl⟩ := infers_pi.mp h
    exact .sort _
  | lam a b => exact absurd rfl (hlam a b)
  | app f x ihf _ =>
    obtain ⟨ft, dom, cod, hft, hpi, -, rfl⟩ := (infers_app hin.fn.head_ne_elim).mp h
    have hflam : ∀ a b, f ≠ .lam a b := by
      rintro a b rfl
      exact absurd hin (by simp [Tm.Inert, Tm.head, Tm.args])
    have hends : EndsIn (IsCtorOf env (.app f x)) ft := ihf hin.fn hflam hft
    rw [whnfs_inert hends.inert] at hpi
    subst hpi
    cases hends with
    | ind hhead _ => cases hhead
    | pi hcod => exact hcod.subst 0 x
  | const c => exact hin.elim
  | ind i =>
    obtain ⟨d, -, rfl⟩ := infers_ind.mp h
    exact ((EndsIn.sort _).telescope).telescope
  | ctor i k =>
    obtain ⟨d, c, hd, hc, rfl⟩ := infers_ctor.mp h
    have hret : EndsIn (IsCtorOf env (.ctor i k)) (ctorRet i d c) :=
      .ind (head_apply _ _) ⟨k, d, c, rfl, hd, hc⟩
    exact hret.telescope.telescope
  | elim i => exact hin.elim

/-- Arguments checked against a telescope: too few leave a product, and the argument at a
position whose type is an inductive checks at that inductive. -/
theorem applyArgs_telescope {n : Nat} {args : List Tm} {tele : Telescope} {b : Tm}
    (h : applyArgs B (run B env n) ctx args (telescope tele b) = .ok T) :
    (args.length < tele.length → ∃ a c, T = .pi a c) ∧
    ∀ (p : Nat) (i : IndId) (s : Tm), (∃ ty : Tm, tele[p]? = some ty ∧ ty.head = .ind i) →
      args[p]? = some s →
      ∃ D, D.head = .ind i ∧ Checks B env ctx s D := by
  induction args generalizing tele b with
  | nil =>
    cases h
    refine ⟨fun hlen => ?_, nofun⟩
    cases tele with
    | nil => cases hlen
    | cons ty rest => exact ⟨_, _, rfl⟩
  | cons a args ih =>
    obtain ⟨⟨dom, cod⟩, hpi, h⟩ := Call.bind_eq_ok.mp h
    obtain ⟨_, hcheck, h⟩ := Call.bind_eq_ok.mp h
    cases tele with
    | nil => exact ⟨nofun, fun p i s ⟨_, hty, _⟩ => nomatch hty⟩
    | cons ty rest =>
      have hin : (telescope (ty :: rest) b).Inert := trivial
      have hwhnf : Whnfs B env ctx (telescope (ty :: rest) b) (.pi dom cod) :=
        ⟨n, asPi_eq_ok.mp hpi⟩
      rw [whnfs_inert hin] at hwhnf
      obtain ⟨rfl, rfl⟩ := Tm.pi.inj hwhnf
      rw [show rest.foldr Tm.pi b = telescope rest b from rfl, subst_telescope] at h
      obtain ⟨hlen, hpos⟩ := ih h
      refine ⟨fun hl => hlen (by simpa using hl), fun p i s hty hs => ?_⟩
      cases p with
      | zero =>
        obtain ⟨ty', hty', hhead⟩ := hty
        cases hty'
        cases hs
        exact ⟨dom, hhead, n, hcheck⟩
      | succ p => exact hpos p i s (@substTele_head rest p i hty 0 a) hs

/-- The recursor of `d` as one telescope; the scrutinee stands last. -/
theorem recursorType_telescope (d : Inductive) (lm : Level) :
    ∃ tele b, recursorType d lm = telescope tele b ∧ tele.length = elimArity d ∧
      ∃ ty : Tm, tele[elimArity d - 1]? = some ty ∧ ty.head = .ind d.id := by
  unfold recursorType
  extract_lets i p c nidx result indices minors motiveTy
  refine ⟨(d.params ++ motiveTy :: (minors ++ indices)) ++ [indApp i p nidx (1 + c)], result,
    ?_, ?_, indApp i p nidx (1 + c), ?_, head_apply _ _⟩
  · simp [telescope]
  · simp [minors, indices, elimArity, c]
    omega
  · have hlen : elimArity d - 1 = (d.params ++ motiveTy :: (minors ++ indices)).length := by
      simp [minors, indices, elimArity, c]
      omega
    rw [hlen, List.getElem?_concat_length]

theorem infers_elim (hhead : t.head = .elim i) (h : Infers B env ctx t T) :
    ∃ n d lm, env.inds i = some d ∧
      applyArgs B (run B env n) ctx t.args (recursorType d lm) = .ok T := by
  obtain ⟨n, h⟩ := h
  cases n with
  | zero => cases h
  | succ n =>
    have h : infer B env (run B env n) ctx t = .ok T := h
    unfold infer at h
    rw [hhead] at h
    dsimp only at h
    unfold inferElim at h
    split at h
    · cases h
    · next d hd =>
      split at h
      · cases h
      · obtain ⟨_, -, h⟩ := Call.bind_eq_ok.mp h
        obtain ⟨_, -, h⟩ := Call.bind_eq_ok.mp h
        obtain ⟨w, -, h⟩ := Call.bind_eq_ok.mp h
        cases w with
        | sort lm => exact ⟨n, d, lm, hd, h⟩
        | _ => cases h

/-- Normal forms keep the head of an applied inductive. -/
theorem nfs_head_ind {v : Tm} (hhead : t.head = .ind i)
    (h : Nfs B env ctx t v) : v.head = .ind i := by
  induction t generalizing v with
  | app f x ihf _ =>
    obtain ⟨w, hw, h⟩ := nfs_iff.mp h
    rw [whnfs_inert (inert_of_head_ind hhead)] at hw
    subst hw
    obtain ⟨f', x', hf, -, rfl⟩ := h
    exact (ihf hhead hf : f'.head = .ind i)
  | ind j =>
    rw [nfs_ind] at h
    rw [h]
    exact hhead
  | _ => cases hhead

/-- A type that ends in a sort or an inductive is convertible to an applied inductive only
if it is one. -/
theorem EndsIn.of_converts {P : IndId → Prop} {D : Tm} (h : EndsIn P T)
    (hD : D.head = .ind i) (hconv : Converts B env ctx T D) : T.head = .ind i ∧ P i := by
  obtain ⟨v, hT, hv⟩ := converts_iff.mp hconv
  have hvhead := nfs_head_ind hD hv
  cases h with
  | sort l =>
    rw [nfs_sort] at hT
    subst hT
    cases hvhead
  | ind hhead hP =>
    have := nfs_head_ind hhead hT
    rw [this] at hvhead
    cases hvhead
    exact ⟨hhead, hP⟩
  | pi _ =>
    obtain ⟨a, b, -, -, rfl⟩ := nfs_pi.mp hT
    cases hvhead

theorem pi_not_converts {a b D : Tm} (hD : D.head = .ind i) : ¬ Converts B env ctx (.pi a b) D := by
  intro hconv
  obtain ⟨v, hT, hv⟩ := converts_iff.mp hconv
  obtain ⟨_, _, -, -, rfl⟩ := nfs_pi.mp hT
  cases nfs_head_ind hD hv

/-- A closed head-normal term whose type is an applied inductive is one of its constructors. -/
theorem Settled.canonical (hkey : ∀ i d, env.inds i = some d → d.id = i)
    (ht : Settled env t) (h : Infers B env [] t T) {D : Tm} (hD : D.head = .ind i)
    (hconv : Converts B env [] T D) : IsCtorOf env t i := by
  induction ht generalizing T D i with
  | @inert t hin =>
    by_cases hlam : ∃ a b, t = .lam a b
    · obtain ⟨a, b, rfl⟩ := hlam
      obtain ⟨_, bt, -, -, rfl⟩ := infers_lam.mp h
      exact absurd hconv (pi_not_converts hD)
    · have hlam : ∀ a b, t ≠ .lam a b := fun a b he => hlam ⟨a, b, he⟩
      exact ((infers_inert hin hlam h).of_converts hD hconv).2
  | @under t j d hhead hd hlen =>
    obtain ⟨n, d', lm, hd', happ⟩ := infers_elim hhead h
    cases hd.symm.trans hd'
    obtain ⟨tele, b, htele, htlen, -⟩ := recursorType_telescope d lm
    rw [htele] at happ
    obtain ⟨a, c, rfl⟩ := (applyArgs_telescope happ).1 (by rw [htlen]; exact hlen)
    exact absurd hconv (pi_not_converts hD)
  | @stuck t s j d hhead hd hs hctor _ ih =>
    obtain ⟨n, d', lm, hd', happ⟩ := infers_elim hhead h
    cases hd.symm.trans hd'
    obtain ⟨tele, b, htele, -, hscrut⟩ := recursorType_telescope d lm
    rw [htele] at happ
    rw [hkey j d hd] at hscrut
    obtain ⟨D', hD', hcheck⟩ := (applyArgs_telescope happ).2 _ j s hscrut hs
    obtain ⟨S, hS, hSconv⟩ := checks_iff.mp hcheck
    obtain ⟨k, _, _, hk, -, -⟩ := ih hS hD' hSconv
    exact absurd hk (hctor k)

end Canonical

/-- Canonicity: in every environment that the admissions build, a closed head-normal term whose type
converts to an inductive applied to arguments is one of the constructors of this inductive. -/
theorem settled_canonical {B : Build} {Q : GlobalEnv → Admission → Prop} {env : GlobalEnv}
    (hb : Built B Q env) {t T D : Tm} {i : IndId} (ht : Settled env t) (hT : Infers B env [] t T)
    (hD : D.head = .ind i) (hconv : Converts B env [] T D) : IsCtorOf env t i :=
  ht.canonical (fun _ _ => hb.keyed) hT hD hconv

/-! ## A closed proof of the empty type -/

def emptyDecl : Inductive := ⟨0, [], [], 0, []⟩

/-- `node : (Empty → Branch) → Branch`. -/
def branchDecl : Inductive := ⟨1, [], [], 0, [⟨0, [.pi (.ind 0) (.ind 1)], []⟩]⟩

def emptyEnv : GlobalEnv := (GlobalEnv.empty.insertInd emptyDecl).insertRecursor emptyDecl

def branchEnv : GlobalEnv := (emptyEnv.insertInd branchDecl).insertRecursor branchDecl

theorem branchEnv_built (B : Build) : Built B onlyInductives branchEnv := by
  have hempty : addInductive B 5 .empty emptyDecl = some (.ok (), emptyEnv) := rfl
  have hbranch : addInductive B 9 emptyEnv branchDecl = some (.ok (), branchEnv) := rfl
  exact .add (a := .ind branchDecl) (.add (a := .ind emptyDecl) .empty trivial (.ind hempty))
    trivial (.ind hbranch)

/-- `λe : Empty. Elim Empty (λ_. Branch) e`, the children of a leaf. -/
def noChildren : Tm := .lam (.ind 0) (apply (.elim 0) [.lam (.ind 0) (.ind 1), .var 0])

/-- `Elim Branch (λ_. Empty) (λf. λih : Empty. ih) s`. -/
def takeHyp (s : Tm) : Tm :=
  apply (.elim 1) [.lam (.ind 1) (.ind 0), .lam (.pi (.ind 0) (.ind 1)) (.lam (.ind 0) (.var 0)), s]

def absurdProof : Tm := takeHyp (.app (.ctor 1 0) noChildren)

theorem absurdProof_infers (B : Build) : Infers B branchEnv [] absurdProof
    (.app (.lam (.ind 1) (.ind 0)) (.app (.ctor 1 0) noChildren)) :=
  ⟨12, rfl⟩

/-- The recursor of `Branch` proves `Empty`. -/
theorem absurdProof_checks :
    ∃ env i d t T, ∀ B : Build, Built B onlyInductives env ∧ env.inds i = some d ∧
      d.ctors = [] ∧ d.params = [] ∧ d.indices = [] ∧
      Infers B env [] t T ∧ Converts B env [] T (.ind i) :=
  ⟨branchEnv, 0, emptyDecl, absurdProof, _, fun B => ⟨branchEnv_built B, rfl, rfl, rfl, rfl,
    absurdProof_infers B, 12, rfl⟩⟩

/-- The leaf is head-normal, and a constructor of `Branch`. -/
theorem leaf_canonical : Infers releaseBuild branchEnv [] (.app (.ctor 1 0) noChildren) (.ind 1) ∧
    IsCtorOf branchEnv (.app (.ctor 1 0) noChildren) 1 := by
  have hleaf : Infers releaseBuild branchEnv [] (.app (.ctor 1 0) noChildren) (.ind 1) := ⟨9, rfl⟩
  have hself : Converts releaseBuild branchEnv [] (.ind 1) (.ind 1) := ⟨9, rfl⟩
  exact ⟨hleaf, settled_canonical (branchEnv_built releaseBuild) (.inert trivial) hleaf rfl hself⟩

end Dnet.Kernel
