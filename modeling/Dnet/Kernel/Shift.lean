import Dnet.Kernel.Infer

/-!
# How shift and substitution compose

The de Bruijn calculus of `shift` and `subst`, for shifts by a natural number. Both are
instances of a renaming (`Tm.ren`) or a simultaneous substitution (`Tm.inst`), and these
compose (`inst_inst`): a law of shifts and substitutions is an equation of functions on
indices.
-/

namespace Dnet.Kernel

open Tm

open Bool (or_eq_true_iff)

theorem shift_var (i n c : Nat) : shift (.var i) (n : Int) c = .var (if c ≤ i then i + n else i) := by
  have : ((i : Int) + n).toNat = i + n := by omega
  simp only [shift, this]

theorem shift_zero (t : Tm) (c : Nat) : shift t 0 c = t := by
  induction t generalizing c with
  | var i =>
    have := shift_var i 0 c
    simpa using this
  | pi a b iha ihb | lam a b iha ihb | app a b iha ihb => simp only [shift, iha, ihb]
  | _ => rfl

/-! ## Renamings and simultaneous substitutions -/

/-- The renaming under one binder. -/
def upRen (ρ : Nat → Nat) : Nat → Nat
  | 0 => 0
  | i + 1 => ρ i + 1

def Tm.ren (ρ : Nat → Nat) : Tm → Tm
  | .var i => .var (ρ i)
  | .pi a b => .pi (a.ren ρ) (b.ren (upRen ρ))
  | .lam a b => .lam (a.ren ρ) (b.ren (upRen ρ))
  | .app f x => .app (f.ren ρ) (x.ren ρ)
  | .sort l => .sort l
  | .const c => .const c
  | .ind i => .ind i
  | .ctor i k => .ctor i k
  | .elim i => .elim i

/-- The substitution under one binder. -/
def up (σ : Nat → Tm) : Nat → Tm
  | 0 => .var 0
  | i + 1 => (σ i).ren (· + 1)

/-- Replace every variable `i` by `σ i`. -/
def Tm.inst (σ : Nat → Tm) : Tm → Tm
  | .var i => σ i
  | .pi a b => .pi (a.inst σ) (b.inst (up σ))
  | .lam a b => .lam (a.inst σ) (b.inst (up σ))
  | .app f x => .app (f.inst σ) (x.inst σ)
  | .sort l => .sort l
  | .const c => .const c
  | .ind i => .ind i
  | .ctor i k => .ctor i k
  | .elim i => .elim i

/-- The substitution that sends `0` to `a` and `i + 1` to `σ i`. -/
def consSub (a : Tm) (σ : Nat → Tm) : Nat → Tm
  | 0 => a
  | i + 1 => σ i

theorem upRen_comp (ρ ρ' : Nat → Nat) : upRen (ρ' ∘ ρ) = upRen ρ' ∘ upRen ρ := by
  funext i
  cases i <;> rfl

theorem up_comp_upRen (σ : Nat → Tm) (ρ : Nat → Nat) : up (σ ∘ ρ) = up σ ∘ upRen ρ := by
  funext i
  cases i <;> rfl

theorem ren_ren (t : Tm) (ρ ρ' : Nat → Nat) : (t.ren ρ).ren ρ' = t.ren (ρ' ∘ ρ) := by
  induction t generalizing ρ ρ' with
  | pi a b iha ihb | lam a b iha ihb => simp only [ren, iha, ihb, upRen_comp]
  | app f x ihf ihx => simp only [ren, ihf, ihx]
  | _ => rfl

theorem inst_ren (t : Tm) (ρ : Nat → Nat) (σ : Nat → Tm) : (t.ren ρ).inst σ = t.inst (σ ∘ ρ) := by
  induction t generalizing ρ σ with
  | pi a b iha ihb | lam a b iha ihb => simp only [ren, inst, iha, ihb, up_comp_upRen]
  | app f x ihf ihx => simp only [ren, inst, ihf, ihx]
  | _ => rfl

theorem up_ren (σ : Nat → Tm) (ρ : Nat → Nat) :
    up (fun i => (σ i).ren ρ) = fun i => (up σ i).ren (upRen ρ) := by
  funext i
  cases i with
  | zero => rfl
  | succ i =>
    simp only [up, ren_ren]
    rfl

theorem ren_inst (t : Tm) (σ : Nat → Tm) (ρ : Nat → Nat) :
    (t.inst σ).ren ρ = t.inst (fun i => (σ i).ren ρ) := by
  induction t generalizing ρ σ with
  | pi a b iha ihb | lam a b iha ihb => simp only [ren, inst, iha, ihb, up_ren]
  | app f x ihf ihx => simp only [ren, inst, ihf, ihx]
  | _ => rfl

theorem up_inst (σ τ : Nat → Tm) : up (fun i => (σ i).inst τ) = fun i => (up σ i).inst (up τ) := by
  funext i
  cases i with
  | zero => rfl
  | succ i =>
    simp only [up, ren_inst, inst_ren]
    rfl

theorem inst_inst (t : Tm) (σ τ : Nat → Tm) :
    (t.inst σ).inst τ = t.inst (fun i => (σ i).inst τ) := by
  induction t generalizing σ τ with
  | pi a b iha ihb | lam a b iha ihb => simp only [inst, iha, ihb, up_inst]
  | app f x ihf ihx => simp only [inst, ihf, ihx]
  | _ => rfl

theorem up_var (ρ : Nat → Nat) : up (fun i => .var (ρ i)) = fun i => .var (upRen ρ i) := by
  funext i
  cases i <;> rfl

theorem ren_eq_inst (t : Tm) (ρ : Nat → Nat) : t.ren ρ = t.inst (fun i => .var (ρ i)) := by
  induction t generalizing ρ with
  | pi a b iha ihb | lam a b iha ihb => simp only [ren, inst, iha, ihb, up_var]
  | app f x ihf ihx => simp only [ren, inst, ihf, ihx]
  | _ => rfl

@[simp] theorem inst_var (t : Tm) : t.inst .var = t := by
  have hup : up .var = .var := by
    funext i
    cases i <;> rfl
  induction t with
  | pi a b iha ihb | lam a b iha ihb => simp only [inst, hup, iha, ihb]
  | app f x ihf ihx => simp only [inst, ihf, ihx]
  | _ => rfl

theorem inst_apply (h : Tm) (args : List Tm) (σ : Nat → Tm) :
    (apply h args).inst σ = apply (h.inst σ) (args.map (inst σ)) := by
  induction args generalizing h with
  | nil => rfl
  | cons a args ih => exact ih (.app h a)

theorem ren_apply (h : Tm) (args : List Tm) (ρ : Nat → Nat) :
    (apply h args).ren ρ = apply (h.ren ρ) (args.map (ren ρ)) := by
  induction args generalizing h with
  | nil => rfl
  | cons a args ih => exact ih (.app h a)

/-- The terms of a list for the first variables, `σ` for the others. -/
def listSub (ts : List Tm) (σ : Nat → Tm) : Nat → Tm := ts.foldr consSub σ

theorem listSub_append (ts us : List Tm) (σ : Nat → Tm) :
    listSub (ts ++ us) σ = listSub ts (listSub us σ) := List.foldr_append

theorem listSub_eq (ts : List Tm) (σ : Nat → Tm) (i : Nat) :
    listSub ts σ i = (ts[i]?).getD (σ (i - ts.length)) := by
  induction ts generalizing i with
  | nil => rfl
  | cons t ts ih =>
    cases i with
    | zero => rfl
    | succ i =>
      rw [List.getElem?_cons_succ, List.length_cons, Nat.add_sub_add_right]
      exact ih i

theorem listSub_add (ts : List Tm) (σ : Nat → Tm) (i : Nat) :
    listSub ts σ (i + ts.length) = σ i := by
  rw [listSub_eq, List.getElem?_eq_none (Nat.le_add_left _ _), Nat.add_sub_cancel]
  rfl

variable {t : Tm} {ρ : Nat → Nat}

theorem listSub_get {ts : List Tm} {i : Nat} (h : ts[i]? = some t) (σ : Nat → Tm) :
    listSub ts σ i = t := by
  rw [listSub_eq, h]
  rfl

/-- The substitution under `n` binders. -/
def upN (n : Nat) (σ : Nat → Tm) (i : Nat) : Tm :=
  if i < n then .var i else (σ (i - n)).ren (· + n)

theorem upN_add (n : Nat) (σ : Nat → Tm) (i : Nat) : upN n σ (i + n) = (σ i).ren (· + n) := by
  rw [upN, if_neg (by omega), Nat.add_sub_cancel]

theorem up_upN (n : Nat) (σ : Nat → Tm) : up (upN n σ) = upN (n + 1) σ := by
  funext i
  cases i with
  | zero => rfl
  | succ i =>
    simp only [up, upN, Nat.add_lt_add_iff_right, Nat.add_sub_add_right]
    split
    · rfl
    · rw [ren_ren]
      rfl

theorem upN_zero (σ : Nat → Tm) : upN 0 σ = σ := by
  have hid : ∀ t : Tm, t.ren (· + 0) = t := fun t => (ren_eq_inst t _).trans (inst_var t)
  funext i
  exact hid (σ i)

theorem inst_congr {σ τ : Nat → Tm}
    (h : ∀ i, occursVar t i = true → σ i = τ i) : t.inst σ = t.inst τ := by
  have hup : ∀ {b : Tm} {σ τ : Nat → Tm}, (∀ i, occursVar b (i + 1) = true → σ i = τ i) →
      ∀ i, occursVar b i = true → up σ i = up τ i := by
    intro b σ τ h i hi
    cases i with
    | zero => rfl
    | succ i => exact congrArg (ren _) (h i hi)
  induction t generalizing σ τ with
  | var i => exact h i (decide_eq_true rfl)
  | pi a b iha ihb | lam a b iha ihb =>
    have ha := iha fun i hi => h i (or_eq_true_iff.mpr (.inl hi))
    have hb := ihb (hup fun i hi => h i (or_eq_true_iff.mpr (.inr hi)))
    simp only [inst, ha, hb]
  | app f x ihf ihx =>
    have hf := ihf fun i hi => h i (or_eq_true_iff.mpr (.inl hi))
    have hx := ihx fun i hi => h i (or_eq_true_iff.mpr (.inr hi))
    simp only [inst, hf, hx]
  | _ => rfl

theorem occursVar_ren {j : Nat} (h : occursVar (t.ren ρ) j = true) :
    ∃ i, occursVar t i = true ∧ ρ i = j := by
  have hup : ∀ {b : Tm} {ρ : Nat → Nat} {j : Nat}, (∃ i, occursVar b i = true ∧ upRen ρ i = j + 1) →
      ∃ i, occursVar b (i + 1) = true ∧ ρ i = j := by
    rintro b ρ j ⟨i, hi, he⟩
    cases i with
    | zero => cases he
    | succ i => exact ⟨i, hi, Nat.succ.inj he⟩
  induction t generalizing ρ j with
  | var i => exact ⟨i, decide_eq_true rfl, of_decide_eq_true h⟩
  | pi a b iha ihb | lam a b iha ihb =>
    rcases or_eq_true_iff.mp h with h | h
    · obtain ⟨i, hi, he⟩ := iha h
      exact ⟨i, or_eq_true_iff.mpr (.inl hi), he⟩
    · obtain ⟨i, hi, he⟩ := hup (ihb h)
      exact ⟨i, or_eq_true_iff.mpr (.inr hi), he⟩
  | app f x ihf ihx =>
    rcases or_eq_true_iff.mp h with h | h
    · obtain ⟨i, hi, he⟩ := ihf h
      exact ⟨i, or_eq_true_iff.mpr (.inl hi), he⟩
    · obtain ⟨i, hi, he⟩ := ihx h
      exact ⟨i, or_eq_true_iff.mpr (.inr hi), he⟩
  | _ => cases h

theorem occursVar_ren_of {i : Nat} (h : occursVar t i = true) :
    occursVar (t.ren ρ) (ρ i) = true := by
  induction t generalizing ρ i with
  | var j => exact decide_eq_true (congrArg ρ (of_decide_eq_true h))
  | pi a b iha ihb | lam a b iha ihb =>
    exact or_eq_true_iff.mpr ((or_eq_true_iff.mp h).imp iha fun hb => ihb hb)
  | app f x ihf ihx =>
    exact or_eq_true_iff.mpr ((or_eq_true_iff.mp h).imp ihf ihx)
  | _ => cases h

theorem ren_congr {ρ ρ' : Nat → Nat} (h : ∀ i, occursVar t i = true → ρ i = ρ' i) :
    t.ren ρ = t.ren ρ' := by
  rw [ren_eq_inst, ren_eq_inst]
  exact inst_congr fun i hi => congrArg var (h i hi)

/-! ## The two operations of the source -/

theorem upRen_shift (n c : Nat) :
    upRen (fun i => if c ≤ i then i + n else i) = fun i => if c + 1 ≤ i then i + n else i := by
  funext i
  cases i with
  | zero => rfl
  | succ i => simp only [upRen, Nat.add_le_add_iff_right]; split <;> omega

theorem shift_eq_ren (t : Tm) (n c : Nat) :
    shift t (n : Int) c = t.ren (fun i => if c ≤ i then i + n else i) := by
  induction t generalizing c with
  | var i => exact shift_var i n c
  | pi a b iha ihb | lam a b iha ihb => simp only [shift, ren, iha, ihb, upRen_shift]
  | app f x ihf ihx => simp only [shift, ren, ihf, ihx]
  | _ => rfl

theorem shift_zero_eq_ren (t : Tm) (n : Nat) : shift t (n : Int) 0 = t.ren (· + n) :=
  shift_eq_ren t n 0

theorem shift_pred_eq_ren (t : Tm) (c : Nat) (h : occursVar t c = false) :
    shift t (-1) c = t.ren (fun i => if c ≤ i then i - 1 else i) := by
  have hup : ∀ {b : Tm} {c : Nat}, occursVar b (c + 1) = false →
      b.ren (fun i => if c + 1 ≤ i then i - 1 else i)
        = b.ren (upRen fun i => if c ≤ i then i - 1 else i) := by
    intro b c hb
    refine ren_congr fun i hi => ?_
    cases i with
    | zero => rfl
    | succ i =>
      have hne : i ≠ c := by
        rintro rfl
        exact Bool.false_ne_true (hb.symm.trans hi)
      simp only [upRen]
      split_ifs <;> omega
  induction t generalizing c with
  | var i =>
    have hpred : ((i : Int) + -1).toNat = i - 1 := by omega
    simp only [shift, ren, hpred]
  | pi a b iha ihb | lam a b iha ihb =>
    obtain ⟨ha, hb⟩ := Bool.or_eq_false_iff.mp h
    simp only [shift, ren, iha c ha, ihb (c + 1) hb, hup hb]
  | app f x ihf ihx =>
    obtain ⟨hf, hx⟩ := Bool.or_eq_false_iff.mp h
    simp only [shift, ren, ihf c hf, ihx c hx]
  | _ => rfl

/-- What `subst` does with the variables. -/
def substAt (j : Nat) (a : Tm) (i : Nat) : Tm :=
  if i = j then shift a (j : Int) 0 else .var (if j < i then i - 1 else i)

theorem substAt_zero (a : Tm) : substAt 0 a = consSub a .var := by
  funext i
  cases i with
  | zero => exact shift_zero a 0
  | succ i => rfl

/-- Substitution under `i` binders. -/
theorem substAt_add (k i : Nat) (v : Tm) (j : Nat) :
    substAt (i + k) v (j + i) = (substAt k v j).ren (· + i) := by
  unfold substAt
  by_cases hj : j = k
  · rw [if_pos hj, if_pos (by omega), shift_zero_eq_ren, shift_zero_eq_ren, ren_ren, Nat.add_comm]
    congr 1
    funext n
    exact (Nat.add_assoc n k i).symm
  · rw [if_neg hj, if_neg (by omega), ren]
    congr 1
    split_ifs <;> omega

theorem up_substAt (j : Nat) (a : Tm) : up (substAt j a) = substAt (j + 1) a := by
  funext i
  cases i with
  | zero => rfl
  | succ i => exact (Nat.add_comm 1 j ▸ substAt_add j 1 a i).symm

theorem subst_eq_inst (t : Tm) (j : Nat) (a : Tm) : subst t j a = t.inst (substAt j a) := by
  induction t generalizing j with
  | pi x y ihx ihy | lam x y ihx ihy => simp only [subst, inst, ihx, ihy, up_substAt]
  | app f x ihf ihx => simp only [subst, inst, ihf, ihx]
  | _ => rfl

/-- The variable a substitution looks for, made by a shift. -/
theorem subst_shift_cancel (t : Tm) (n c : Nat) (a : Tm) :
    subst (shift t ((n + 1 : Nat) : Int) c) (c + n) a = shift t (n : Int) c := by
  rw [subst_eq_inst, shift_eq_ren, shift_eq_ren, inst_ren, ren_eq_inst]
  congr 1
  funext i
  rw [Function.comp_apply, substAt]
  by_cases h : c ≤ i
  · rw [if_pos h, if_pos h, if_neg (by omega), if_pos (by omega)]
    rfl
  · rw [if_neg h, if_neg h, if_neg (by omega), if_neg (by omega)]

/-- Substitutions commute. Indices are natural numbers: none leaves its range. -/
theorem subst_commutes (t u v : Tm) (i k : Nat) :
    subst (subst t i u) (i + k) v = subst (subst t (i + k + 1) v) i (subst u k v) := by
  simp only [subst_eq_inst, inst_inst]
  congr 1
  funext j
  by_cases hi : j = i
  · -- `u` is put under `i` binders
    have hleft : substAt i u j = u.ren (· + i) := (if_pos hi).trans (shift_zero_eq_ren u i)
    have hright : substAt (i + k + 1) v j = .var j := by
      rw [substAt, if_neg (by omega), if_neg (by omega)]
    rw [hleft, hright, inst_ren, inst, substAt, if_pos hi, shift_zero_eq_ren, ren_inst]
    congr 1
    funext n
    exact substAt_add k i v n
  · by_cases hk : j = i + k + 1
    · -- `v` is put under `i + k` binders, past the variable that `u` replaces
      have hleft : substAt i u j = .var (i + k) := by
        rw [substAt, if_neg hi, if_pos (by omega), hk, Nat.add_sub_cancel]
      rw [hleft, inst, substAt, substAt, if_pos rfl, if_pos hk, shift_zero_eq_ren, shift_zero_eq_ren,
        inst_ren, ren_eq_inst]
      congr 1
      funext n
      rw [Function.comp_apply, substAt, if_neg (by omega), if_pos (by omega)]
      congr 1
    · simp only [substAt, if_neg hi, if_neg hk, inst]
      split_ifs <;> first | omega | rfl

theorem subst_zero_eq_inst (t a : Tm) : subst t 0 a = t.inst (consSub a .var) := by
  rw [subst_eq_inst, substAt_zero]

theorem inst_up_consSub (b : Tm) (σ : Nat → Tm) (a : Tm) :
    (b.inst (up σ)).inst (consSub a .var) = b.inst (consSub a σ) := by
  rw [inst_inst]
  congr 1
  funext i
  cases i with
  | zero => rfl
  | succ i => exact (inst_ren _ _ _).trans (inst_var _)

theorem inst_subst_zero (b a : Tm) (σ : Nat → Tm) :
    (subst b 0 a).inst σ = subst (b.inst (up σ)) 0 (a.inst σ) := by
  rw [subst_zero_eq_inst, subst_zero_eq_inst, inst_up_consSub, inst_inst]
  congr 1
  funext i
  cases i <;> rfl

theorem ren_subst_zero (b a : Tm) (ρ : Nat → Nat) :
    (subst b 0 a).ren ρ = subst (b.ren (upRen ρ)) 0 (a.ren ρ) := by
  rw [ren_eq_inst, inst_subst_zero, up_var, ← ren_eq_inst, ← ren_eq_inst]

theorem head_ren (t : Tm) (ρ : Nat → Nat) : (t.ren ρ).head = t.head.ren ρ := by
  induction t with
  | app f x ihf _ => exact ihf
  | _ => rfl

theorem args_ren (t : Tm) (ρ : Nat → Nat) : (t.ren ρ).args = t.args.map (ren ρ) := by
  induction t with
  | app f x ihf _ => rw [ren, args, args, ihf, List.map_append, List.map_singleton]
  | _ => rfl

theorem inst_telescope (tele : Telescope) (b : Tm) (n : Nat) (σ : Nat → Tm) :
    (telescope tele b).inst (upN n σ) =
      telescope ((tele.zipIdx n).map fun (ty, q) => ty.inst (upN q σ))
        (b.inst (upN (n + tele.length) σ)) := by
  induction tele generalizing n with
  | nil => rfl
  | cons ty rest ih =>
    have hlen : n + (ty :: rest).length = n + 1 + rest.length := by
      rw [List.length_cons]
      omega
    have hrest := ih (n + 1)
    rw [← up_upN] at hrest
    rw [hlen]
    exact congrArg (pi (ty.inst (upN n σ))) hrest

end Dnet.Kernel
