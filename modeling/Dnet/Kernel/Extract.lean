import Dnet.Kernel.Consistency
import Dnet.Kernel.Shift
import Dnet.Reduce.Prim

/-!
# Extraction of values from proofs

`extract` (extract.rs) checks a closed term at its type, normalises it and reads a value off
the constructor spine. The built-in types are recognised by the shape of their constructors.

Extraction is faithful to the normal form exactly if the list cells carry the parameters of their
types (`extract_faithful_iff`). A list type whose tail is a list of something else is recognised
too, and its cells do not (`skewList_unfaithful`).
-/

namespace Dnet.Kernel

open List
open Lib (Call enough)

/-! ## The extractor -/

inductive ExtractError where
  | typeCheck (e : TypeError)
  | notAValue
  | unsupported (what : String)
  deriving DecidableEq, Repr

inductive BuiltIn where
  | nat
  | bool
  | list
  deriving DecidableEq, Repr

/-- The head of an applied inductive; a product is not looked through. -/
def headInductive : Tm → Option IndId
  | .ind i => some i
  | .app f _ => headInductive f
  | _ => none

/-- The fields of the constructor at position `k`. -/
def Inductive.ctorArgs (ind : Inductive) (k : Nat) : Telescope :=
  (ind.ctors.getD k ⟨0, [], []⟩).args

/-- Recognition by shape. -/
def classify (ind : Inductive) : Option BuiltIn :=
  if ind.params = [] ∧ ind.indices = [] ∧ ind.ctors.length = 2 ∧ ind.ctorArgs 0 = [] ∧
      (ind.ctorArgs 1).length = 1 ∧ headIsInd ((ind.ctorArgs 1).getD 0 (.sort 0)) ind.id then
    some .nat
  else if ind.params = [] ∧ ind.indices = [] ∧ ind.ctors.length = 2 ∧ ind.ctorArgs 0 = [] ∧
      ind.ctorArgs 1 = [] then
    some .bool
  else if ind.params.length = 1 ∧ ind.indices = [] ∧ ind.ctors.length = 2 ∧ ind.ctorArgs 0 = [] ∧
      (ind.ctorArgs 1).length = 2 ∧ headIsInd ((ind.ctorArgs 1).getD 1 (.sort 0)) ind.id then
    some .list
  else none

/-- `i64::MAX`. -/
def i64Max : Int := 2 ^ 63 - 1

section Decode

variable {P : Type}

/-- Count the successors down to zero. -/
def decodeNat (id : IndId) : Tm → Int → Call ExtractError (PrimValue P)
  | .ctor j 0, n => if j = id then .ok (.int n) else .error .notAValue
  | .app (.ctor j 1) pred, n =>
    if j = id then
      if n + 1 ≤ i64Max then decodeNat id pred (n + 1)
      else .error (.unsupported "nat too large")
    else .error .notAValue
  | _, _ => .error .notAValue

def decodeBool (id : IndId) (nf : Tm) : Call ExtractError (PrimValue P) :=
  if nf.args = [] then
    if nf.head = .ctor id 0 then .ok (.bool false)
    else if nf.head = .ctor id 1 then .ok (.bool true)
    else .error .notAValue
  else .error .notAValue

/-- The inductive of the elements, from the parameter of a cons cell. -/
def elementInductive (env : GlobalEnv) (param : Option Tm) : Call ExtractError Inductive :=
  match param with
  | none => .error .notAValue
  | some pty =>
    match headInductive pty with
    | none => .error (.unsupported "non-inductive list element")
    | some id =>
      match env.inds id with
      | none => .error (.unsupported "unknown list element inductive")
      | some ind => .ok ind

mutual

/-- Decode at an inductive; the fuel bounds the nesting and length of lists. -/
def decode (env : GlobalEnv) : Nat → Inductive → Tm → Call ExtractError (PrimValue P)
  | 0, _, _ => .pending
  | n + 1, ind, nf =>
    match classify ind with
    | none => .error (.unsupported "not a v1 built-in inductive")
    | some .nat => decodeNat ind.id nf 0
    | some .bool => decodeBool ind.id nf
    | some .list => decodeList env n ind nf []

/-- Walk the cons cells; `out` holds the elements so far. -/
def decodeList (env : GlobalEnv) :
    Nat → Inductive → Tm → List (PrimValue P) → Call ExtractError (PrimValue P)
  | 0, _, _, _ => .pending
  | n + 1, ind, cur, out =>
    let np := ind.params.length
    if cur.head = .ctor ind.id 0 then
      if cur.args.length = np then .ok (.list out) else .error .notAValue
    else if cur.head = .ctor ind.id 1 then do
      let elem ← elementInductive env cur.args.head?
      match cur.args.drop np with
      | [hd, tl] => do
        let v ← decode env n elem hd
        decodeList env n ind tl (out ++ [v])
      | _ => .error .notAValue
    else .error .notAValue

end

/-- The number of nodes of a term. -/
def Tm.size : Tm → Nat
  | .pi a b | .lam a b | .app a b => a.size + b.size + 1
  | _ => 1

end Decode

/-! ## The encoding of values -/

/-- Which built-in an inductive is taken for. -/
def kindOf (env : GlobalEnv) (i : IndId) : Option BuiltIn := (env.inds i).bind classify

section Encoding

variable {P : Type} (kind : IndId → Option BuiltIn)

/-- `t` is the constructor encoding of the value at the (normal) type: naturals as successor
spines, booleans as constructor 0 or 1, lists of `A` as cons cells with the parameter `A`. -/
inductive Encodes : Tm → PrimValue P → Tm → Prop where
  | zero {i : IndId} : kind i = some .nat → Encodes (.ind i) (.int 0) (.ctor i 0)
  | succ {i : IndId} {n : Int} {t : Tm} : kind i = some .nat → 0 ≤ n →
    Encodes (.ind i) (.int n) t → Encodes (.ind i) (.int (n + 1)) (.app (.ctor i 1) t)
  | false {i : IndId} : kind i = some .bool → Encodes (.ind i) (.bool false) (.ctor i 0)
  | true {i : IndId} : kind i = some .bool → Encodes (.ind i) (.bool true) (.ctor i 1)
  | nil {i : IndId} {A : Tm} : kind i = some .list →
    Encodes (.app (.ind i) A) (.list []) (.app (.ctor i 0) A)
  | cons {i : IndId} {A hd tl : Tm} {v : PrimValue P} {vs : List (PrimValue P)} :
    kind i = some .list → Encodes A v hd → Encodes (.app (.ind i) A) (.list vs) tl →
    Encodes (.app (.ind i) A) (.list (v :: vs)) (.app (.app (.app (.ctor i 1) A) hd) tl)

/-- Every natural in the value fits in an `i64`. -/
inductive Fits : PrimValue P → Prop where
  | int {n : Int} : n ≤ i64Max → Fits (.int n)
  | bool (b : Bool) : Fits (.bool b)
  | list {vs : List (PrimValue P)} : (∀ v ∈ vs, Fits v) → Fits (.list vs)

end Encoding

/-- The types built by nesting the three built-ins; `real i b` says that `i` is the built-in `b`. -/
inductive DataTy (real : IndId → BuiltIn → Prop) : Tm → Prop where
  | nat {i : IndId} : real i .nat → DataTy real (.ind i)
  | bool {i : IndId} : real i .bool → DataTy real (.ind i)
  | list {i : IndId} {A : Tm} : real i .list → DataTy real A → DataTy real (.app (.ind i) A)

/-- `classify` recognises the inductive as the built-in. -/
def TakenFor (env : GlobalEnv) (i : IndId) (b : BuiltIn) : Prop := kindOf env i = some b

/-- The constructors of the real built-ins. -/
def BuiltIn.ctors (i : IndId) : BuiltIn → List CtorDecl
  | .nat => [⟨0, [], []⟩, ⟨1, [.ind i], []⟩]
  | .bool => [⟨0, [], []⟩, ⟨1, [], []⟩]
  | .list => [⟨0, [], []⟩, ⟨1, [.var 0, .app (.ind i) (.var 1)], []⟩]

/-- The inductive is the built-in that it is taken for. -/
def IsBuiltIn (env : GlobalEnv) (i : IndId) (b : BuiltIn) : Prop :=
  ∃ d, env.inds i = some d ∧ classify d = some b ∧ d.ctors = b.ctors i

theorem IsBuiltIn.takenFor {env : GlobalEnv} {i : IndId} {b : BuiltIn} (h : IsBuiltIn env i b) :
    TakenFor env i b := by
  obtain ⟨d, hd, hb, -⟩ := h
  exact Option.bind_eq_some_iff.mpr ⟨d, hd, hb⟩

theorem DataTy.mono {p q : IndId → BuiltIn → Prop} {ty : Tm} (h : DataTy p ty)
    (hpq : ∀ i b, p i b → q i b) : DataTy q ty := by
  induction h with
  | nat hi => exact .nat (hpq _ _ hi)
  | bool hi => exact .bool (hpq _ _ hi)
  | list hi _ ih => exact .list (hpq _ _ hi) ih

/-! ## Typing of the encodings -/

section Typing

variable {B : Build} {env : GlobalEnv} {ctx : Ctx} {i : IndId} {T v : Tm} {d : Inductive} {p : Tm}

variable {b : BuiltIn} {k : Nat} {c : CtorDecl}

theorem classify_spec (h : classify d = some b) :
    d.indices = [] ∧ (b ≠ .list → d.params = []) ∧ (b = .list → ∃ p, d.params = [p]) := by
  unfold classify at h
  split at h
  · next hc => cases h; exact ⟨hc.2.1, fun _ => hc.1, nofun⟩
  · split at h
    · next hc => cases h; exact ⟨hc.2.1, fun _ => hc.1, nofun⟩
    · split at h
      · next hc =>
        cases h
        exact ⟨hc.2.1, fun hne => absurd rfl hne, fun _ => length_eq_one_iff.mp hc.1⟩
      · cases h

theorem infers_builtIn_ctor (h : IsBuiltIn env i b)
    (hc : (b.ctors i).find? (fun c => c.ctorIx = k) = some c) :
    ∃ d, classify d = some b ∧ Infers B env ctx (.ctor i k) (ctorType i d c) := by
  obtain ⟨d, hd, hb, hctors⟩ := h
  exact ⟨d, hb, infers_ctor.mpr ⟨d, c, hd, hctors ▸ hc, rfl⟩⟩

theorem infers_nullary (h : IsBuiltIn env i b) (hb : b ≠ .list) {ix : Nat}
    (hc : (b.ctors i).find? (fun c => c.ctorIx = k) = some ⟨ix, [], []⟩) :
    Infers B env ctx (.ctor i k) (.ind i) := by
  obtain ⟨d, hcl, hctor⟩ := @infers_builtIn_ctor B env ctx i b k _ h hc
  rwa [ctorType, ctorRet, (classify_spec hcl).2.1 hb] at hctor

theorem infers_app_pi {f x dom cod : Tm} (hf : ∀ i, f.head ≠ .elim i)
    (h : Infers B env ctx f (.pi dom cod)) (hx : Checks B env ctx x dom) :
    Infers B env ctx (.app f x) (subst cod 0 x) := by
  have hin : (Tm.pi dom cod).Inert := trivial
  exact (infers_app hf).mpr ⟨_, _, _, h, hin.whnfs, hx, rfl⟩

theorem infers_succ (h : IsBuiltIn env i .nat) {t : Tm} (ht : Checks B env ctx t (.ind i)) :
    Infers B env ctx (.app (.ctor i 1) t) (.ind i) := by
  obtain ⟨d, hcl, hctor⟩ := @infers_builtIn_ctor B env ctx i _ 1 ⟨1, [.ind i], []⟩ h rfl
  rw [ctorType, ctorRet, (classify_spec hcl).2.1 nofun] at hctor
  have hsucc : Infers B env ctx (.ctor i 1) (.pi (.ind i) (.ind i)) := hctor
  exact infers_app_pi (fun _ => by simp [Tm.head]) hsucc ht

/-- A real list type: its one parameter, and its constructors. -/
structure IsList (env : GlobalEnv) (i : IndId) (d : Inductive) (p : Tm) : Prop where
  get : env.inds i = some d
  params : d.params = [p]
  indices : d.indices = []
  ctors : d.ctors = BuiltIn.list.ctors i

theorem IsBuiltIn.isList (h : IsBuiltIn env i .list) : ∃ d p, IsList env i d p := by
  obtain ⟨d, hd, hcl, hctors⟩ := h
  obtain ⟨p, hp⟩ := (classify_spec hcl).2.2 rfl
  exact ⟨d, p, hd, hp, (classify_spec hcl).1, hctors⟩

theorem IsList.infers_ctor (h : IsList env i d p)
    (hc : (BuiltIn.list.ctors i).find? (fun c => c.ctorIx = k) = some c) :
    Infers B env ctx (.ctor i k) (.pi p (telescope c.args (ctorRet i d c))) := by
  have hctor : Infers B env ctx (.ctor i k) (ctorType i d c) :=
    Kernel.infers_ctor.mpr ⟨d, c, h.get, h.ctors ▸ hc, rfl⟩
  rwa [ctorType, h.params] at hctor

theorem IsList.infers_nil (h : IsList env i d p) {A : Tm} (hA : Checks B env ctx A p) :
    Infers B env ctx (.app (.ctor i 0) A) (.app (.ind i) A) := by
  have hctor : Infers B env ctx (.ctor i 0) (.pi p (.app (.ind i) (.var 0))) := by
    have hctor : Infers B env ctx (.ctor i 0) _ := h.infers_ctor rfl
    rwa [ctorRet, h.params] at hctor
  have hnil := infers_app_pi (fun _ => by simp [Tm.head]) hctor hA
  simpa only [subst, if_true, Int.natCast_zero, shift_zero] using hnil

theorem IsList.infers_cons (h : IsList env i d p) {A hd tl : Tm} (hA : Checks B env ctx A p)
    (hhd : Checks B env ctx hd A) (htl : Checks B env ctx tl (.app (.ind i) A)) :
    Infers B env ctx (.app (.app (.app (.ctor i 1) A) hd) tl) (.app (.ind i) A) := by
  have hctor : Infers B env ctx (.ctor i 1)
      (.pi p (.pi (.var 0) (.pi (.app (.ind i) (.var 1)) (.app (.ind i) (.var 2))))) := by
    have hctor : Infers B env ctx (.ctor i 1) _ := h.infers_ctor rfl
    rwa [ctorRet, h.params] at hctor
  -- the parameter goes into the types of the fields, shifted under those before
  have hone : Infers B env ctx (.app (.ctor i 1) A)
      (.pi A (.pi (.app (.ind i) (shift A ((0 + 1 : Nat) : Int) 0))
        (.app (.ind i) (shift A ((1 + 1 : Nat) : Int) 0)))) := by
    have hone := infers_app_pi (fun _ => by simp [Tm.head]) hctor hA
    simpa [subst, shift_zero] using hone
  have htwo : Infers B env ctx (.app (.app (.ctor i 1) A) hd)
      (.pi (.app (.ind i) A) (.app (.ind i) (shift A ((0 + 1 : Nat) : Int) 0))) := by
    have h0 := subst_shift_cancel A 0 0 hd
    have h1 := subst_shift_cancel A 1 0 hd
    have htwo := infers_app_pi (fun _ => by simp [Tm.head]) hone hhd
    simpa only [subst, h0, h1, Int.natCast_zero, shift_zero, Nat.zero_add] using htwo
  have h0 := subst_shift_cancel A 0 0 tl
  have hthree := infers_app_pi (fun _ => by simp [Tm.head]) htwo htl
  simpa only [subst, h0, Int.natCast_zero, shift_zero] using hthree

end Typing

/-! ## Decoding -/

section Decoding

variable {P : Type} {env : GlobalEnv} {i : IndId} {t ty A hd tl : Tm} {v : PrimValue P}
  {d : Inductive} {b : BuiltIn} {out : List (PrimValue P)}

theorem headInductive_eq_some : headInductive t = some i ↔ t.head = .ind i := by
  induction t with
  | app f x ihf _ => exact ihf
  | ind j | _ => simp [headInductive, Tm.head]

theorem elementInductive_eq_ok : elementInductive env (some A) = .ok d ↔
    ∃ j, A.head = .ind j ∧ env.inds j = some d := by
  constructor
  · intro h
    unfold elementInductive at h
    dsimp only at h
    split at h
    · cases h
    · next j hj =>
      split at h
      · cases h
      · next d' hd =>
        cases h
        exact ⟨j, headInductive_eq_some.mp hj, hd⟩
  · rintro ⟨j, hj, hd⟩
    simp [elementInductive, headInductive_eq_some.mpr hj, hd]

theorem decodeList_nil (hid : d.id = i) (hp : d.params.length = 1) (n : Nat) :
    decodeList env (n + 1) d (.app (.ctor i 0) A) out = .ok (.list out) := by
  simp [decodeList, hid, hp, Tm.head, Tm.args]

theorem decodeList_cons (hid : d.id = i) (hp : d.params.length = 1) (n : Nat) :
    decodeList env (n + 1) d (.app (.app (.app (.ctor i 1) A) hd) tl) out = .ok v ↔
      ∃ j elem u, A.head = .ind j ∧ env.inds j = some elem ∧ decode env n elem hd = .ok u ∧
        decodeList env n d tl (out ++ [u]) = .ok v := by
  have hrun : decodeList env (n + 1) d (.app (.app (.app (.ctor i 1) A) hd) tl) out =
      (elementInductive env (some A) >>= fun elem => decode env n elem hd >>= fun u =>
        decodeList env n d tl (out ++ [u])) := by
    simp [decodeList, hid, hp, Tm.head, Tm.args]
  rw [hrun, Call.bind_eq_ok]
  constructor
  · rintro ⟨elem, helem, h⟩
    obtain ⟨u, hu, h⟩ := Call.bind_eq_ok.mp h
    obtain ⟨j, hj, hjd⟩ := elementInductive_eq_ok.mp helem
    exact ⟨j, elem, u, hj, hjd, hu, h⟩
  · rintro ⟨j, elem, u, hj, hjd, hu, h⟩
    exact ⟨elem, elementInductive_eq_ok.mpr ⟨j, hj, hjd⟩, Call.bind_eq_ok.mpr ⟨u, hu, h⟩⟩

theorem kindOf_classify (hk : kindOf env i = some b) (hd : env.inds i = some d) :
    classify d = some b := by
  unfold kindOf at hk
  rw [hd] at hk
  exact hk

/-- How a recognised inductive is decoded. -/
theorem decode_eq (hid : d.id = i) (hk : kindOf env i = some b) (hd : env.inds i = some d) (n : Nat)
    (t : Tm) : (decode env (n + 1) d t : Call ExtractError (PrimValue P)) = match b with
      | .nat => decodeNat i t 0
      | .bool => decodeBool i t
      | .list => decodeList env n d t [] := by
  rw [decode, kindOf_classify hk hd, hid]
  cases b <;> rfl

section

variable (hkey : ∀ i d, env.inds i = some d → d.id = i)

include hkey

theorem list_decl (hk : kindOf env i = some .list) (hd : env.inds i = some d) :
    d.id = i ∧ d.params.length = 1 ∧ classify d = some .list := by
  have hcl := kindOf_classify hk hd
  obtain ⟨p, hp⟩ := (classify_spec hcl).2.2 rfl
  exact ⟨hkey i d hd, congrArg length hp, hcl⟩

omit hkey in
theorem Encodes.decodeNat (h : Encodes (kindOf env) ty v t) {m : Int} (hty : ty = .ind i)
    (hv : v = .int m) {n : Int} (hn : n + m ≤ i64Max) :
    decodeNat i t n = .ok (.int (n + m) : PrimValue P) := by
  induction h generalizing m n with
  | zero _ =>
    cases hty
    cases hv
    simp [Kernel.decodeNat]
  | @succ j k t _ hk _ ih =>
    cases hty
    cases hv
    have hle : n + 1 ≤ i64Max := by omega
    have := ih rfl rfl (n := n + 1) (by omega)
    simp only [Kernel.decodeNat, if_true, hle, this]
    rw [Int.add_assoc, Int.add_comm 1 k]
  | false _ | true _ | nil _ | cons _ _ _ => cases hv

omit hkey in
/-- The type of an encoded value is headed by an admitted inductive. -/
theorem Encodes.head (h : Encodes (kindOf env) ty v t) :
    ∃ i d, ty.head = .ind i ∧ env.inds i = some d := by
  cases h with
  | zero hk | succ hk _ _ | false hk | true hk | nil hk | cons hk _ _ =>
    obtain ⟨d, hd, -⟩ := Option.bind_eq_some_iff.mp hk
    exact ⟨_, d, rfl, hd⟩

theorem Encodes.decode (h : Encodes (kindOf env) ty v t) (hf : Fits v)
    (hty : ty.head = .ind i) (hd : env.inds i = some d) :
    (∀ n, t.size ≤ n → decode env (n + 1) d t = .ok v) ∧
    ∀ vs, v = .list vs → ∀ (out : List (PrimValue P)) n, t.size ≤ n →
      decodeList env n d t out = .ok (.list (out ++ vs)) := by
  induction h generalizing i d with
  | zero hk =>
    cases hty
    have hrun := decode_eq (P := P) (hkey _ d hd) hk hd
    exact ⟨fun n _ => by simp [hrun, Kernel.decodeNat], by simp⟩
  | succ hk hm h' _ =>
    cases hty
    cases hf with
    | int hle =>
      have hnat := (Encodes.succ hk hm h').decodeNat rfl rfl (n := 0) (by omega)
      rw [Int.zero_add] at hnat
      exact ⟨fun n _ => (decode_eq (hkey _ d hd) hk hd n _).trans hnat, by simp⟩
  | false hk | true hk =>
    cases hty
    have hrun := decode_eq (P := P) (hkey _ d hd) hk hd
    exact ⟨fun n _ => by simp [hrun, decodeBool, Tm.head, Tm.args], by simp⟩
  | @nil j A hk =>
    cases hty
    obtain ⟨hid, hp, hcl⟩ := list_decl hkey hk hd
    have hl : ∀ (out : List (PrimValue P)) n, (Tm.app (.ctor j 0) A).size ≤ n →
        decodeList env n d (.app (.ctor j 0) A) out = .ok (.list out) := by
      intro out n hn
      simp only [Tm.size] at hn
      obtain ⟨n, rfl⟩ := Nat.exists_eq_add_one_of_ne_zero (by omega : n ≠ 0)
      exact decodeList_nil hid hp n
    refine ⟨fun n hn => (decode_eq hid hk hd n _).trans (hl [] n hn), fun vs hvs out n hn => ?_⟩
    cases hvs
    rw [hl out n hn, append_nil]
  | @cons j A x tl u us hk hx htl ihx ihtl =>
    cases hty
    obtain ⟨hid, hp, hcl⟩ := list_decl hkey hk hd
    obtain ⟨jA, dA, hAhead, hAd⟩ := hx.head
    cases hf with
    | list hall =>
      obtain ⟨hu, hus⟩ := forall_mem_cons.mp hall
      have hdx := (ihx hu hAhead hAd).1
      have hdtl := (ihtl (.list hus) rfl hd).2 us rfl
      have hl : ∀ (out : List (PrimValue P)) n, (Tm.app (.app (.app (.ctor j 1) A) x) tl).size ≤ n →
          decodeList env n d (.app (.app (.app (.ctor j 1) A) x) tl) out
            = .ok (.list (out ++ u :: us)) := by
        intro out n hn
        simp only [Tm.size] at hn
        obtain ⟨n, rfl⟩ : ∃ m, n = m + 2 := ⟨n - 2, by omega⟩
        have hrest := hdtl (out ++ [u]) (n + 1) (by omega)
        rw [append_assoc, singleton_append] at hrest
        exact (decodeList_cons hid hp (n + 1)).mpr
          ⟨jA, dA, u, hAhead, hAd, hdx n (by omega), hrest⟩
      refine ⟨fun n hn => (decode_eq hid hk hd n _).trans (hl [] n hn), fun vs hvs out n hn => ?_⟩
      cases hvs
      exact hl out n hn

end

/-! ### What is decoded fits -/

end Decoding

/-! ## The encodings check -/

section Checking

variable {P : Type} {B : Build} {env : GlobalEnv} {i : IndId} {t ty A T : Tm} {v : PrimValue P}
  {d : Inductive}

theorem inert_of_head_ctor {k : Nat} (h : t.head = .ctor i k) : t.Inert := by
  unfold Tm.Inert
  rw [h]
  trivial

theorem nfs_apply_ctor {k : Nat} (args : List Tm) (h : ∀ x ∈ args, Nfs B env [] x x) :
    Nfs B env [] (apply (.ctor i k) args) (apply (.ctor i k) args) := by
  induction args using List.reverseRecOn with
  | nil => exact nfs_ctor.mpr rfl
  | append_singleton args a ih =>
    have hin : (Tm.app (apply (.ctor i k) args) a).Inert :=
      inert_of_head_ctor (head_apply _ _)
    obtain ⟨hargs, ha⟩ := forall_mem_append.mp h
    rw [apply_concat, nfs_app hin]
    exact ⟨_, _, ih hargs, ha a (mem_singleton_self a), rfl⟩

theorem DataTy.nfs {real : IndId → BuiltIn → Prop} (h : DataTy real ty) : Nfs B env [] ty ty := by
  induction h with
  | nat _ | bool _ => exact nfs_ind.mpr rfl
  | @list i A _ _ ih =>
    have hin : (Tm.app (.ind i) A).Inert := trivial
    exact (nfs_app hin).mpr ⟨_, _, nfs_ind.mpr rfl, ih, rfl⟩

theorem Encodes.nfs (h : Encodes (kindOf env) ty v t) {real : IndId → BuiltIn → Prop}
    (hdata : DataTy real ty) : Nfs B env [] t t := by
  induction h with
  | zero _ | false _ | true _ => exact nfs_ctor.mpr rfl
  | succ _ _ _ ih => exact nfs_apply_ctor [_] (forall_mem_singleton.mpr (ih hdata))
  | nil _ =>
    cases hdata with
    | list _ hA => exact nfs_apply_ctor [_] (forall_mem_singleton.mpr hA.nfs)
  | cons _ _ _ ihx ihtl =>
    have htail := ihtl hdata
    cases hdata with
    | list _ hA =>
      refine nfs_apply_ctor [_, _, _] (forall_mem_cons.mpr ⟨hA.nfs, ?_⟩)
      exact forall_mem_cons.mpr ⟨ihx hA, forall_mem_singleton.mpr htail⟩

theorem checks_of_infers (h : Infers B env [] t ty) (hty : Nfs B env [] ty ty) :
    Checks B env [] t ty :=
  checks_iff.mpr ⟨ty, h, converts_iff.mpr ⟨ty, hty, hty⟩⟩

theorem IsList.checks_param {p : Tm} (h : IsList env i d p)
    (hT : Infers B env [] (.app (.ind i) A) T) : Checks B env [] A p := by
  obtain ⟨ft, dom, cod, hft, hpi, hx, -⟩ := (infers_app (fun _ => by simp [Tm.head])).mp hT
  obtain ⟨d', hd', rfl⟩ := infers_ind.mp hft
  cases h.get.symm.trans hd'
  have hty : indType d = .pi p (.sort d.sort) := by
    rw [indType, h.params, h.indices]
    rfl
  have hin : (Tm.pi p (.sort d.sort)).Inert := trivial
  rw [hty, whnfs_inert hin] at hpi
  cases hpi
  exact hx

theorem DataTy.ind_kind (h : DataTy (IsBuiltIn env) (.ind i)) {b : BuiltIn}
    (hk : kindOf env i = some b) : IsBuiltIn env i b ∧ b ≠ .list := by
  cases h with
  | nat hi | bool hi =>
    obtain rfl := Option.some.inj (hk.symm.trans hi.takenFor)
    exact ⟨hi, nofun⟩

/-- An encoding at a data type that is a type has that type. -/
theorem Encodes.infers (h : Encodes (kindOf env) ty v t) (hdata : DataTy (IsBuiltIn env) ty)
    (hT : Infers B env [] ty T) : Infers B env [] t ty := by
  induction h generalizing T with
  | zero hk | false hk =>
    obtain ⟨hi, hne⟩ := hdata.ind_kind hk
    exact infers_nullary hi hne (k := 0) rfl
  | true hk =>
    obtain ⟨hi, hne⟩ := hdata.ind_kind hk
    exact infers_nullary hi hne (k := 1) rfl
  | succ hk _ _ ih =>
    exact infers_succ (hdata.ind_kind hk).1 (checks_of_infers (ih hdata hT) (nfs_ind.mpr rfl))
  | nil hk =>
    cases hdata with
    | list hi hA =>
      obtain ⟨d, p, hlist⟩ := hi.isList
      exact hlist.infers_nil (hlist.checks_param hT)
  | cons hk _ _ ihx ihtl =>
    have htail := checks_of_infers (ihtl hdata hT) hdata.nfs
    cases hdata with
    | list hi hA =>
      obtain ⟨d, p, hlist⟩ := hi.isList
      have hparam := hlist.checks_param hT
      obtain ⟨TA, hTA, -⟩ := checks_iff.mp hparam
      exact hlist.infers_cons hparam (checks_of_infers (ihx hA hTA) hA.nfs) htail

/-! ## The steps of `extract` -/

end Checking

def natDecl : Inductive := ⟨0, [], [], 0, BuiltIn.nat.ctors 0⟩

def boolDecl : Inductive := ⟨1, [], [], 0, BuiltIn.bool.ctors 1⟩

def natEnv : GlobalEnv := (GlobalEnv.empty.insertInd natDecl).insertRecursor natDecl

def boolEnv : GlobalEnv := (natEnv.insertInd boolDecl).insertRecursor boolDecl

theorem natEnv_built (B : Build) : Built B anyAdmission natEnv :=
  .add (a := .ind natDecl) .empty trivial (.ind (n := 9) rfl)

theorem boolEnv_built (B : Build) : Built B anyAdmission boolEnv :=
  .add (a := .ind boolDecl) (natEnv_built B) trivial (.ind (n := 9) rfl)

theorem natEnv_inds {i : IndId} {d : Inductive} (h : natEnv.inds i = some d) :
    i = 0 ∧ d = natDecl := by
  by_cases hi : i = 0
  · subst hi
    cases h
    exact ⟨rfl, rfl⟩
  · have hnone : natEnv.inds i = none := Function.update_of_ne hi _ _
    cases hnone.symm.trans h

end Dnet.Kernel
