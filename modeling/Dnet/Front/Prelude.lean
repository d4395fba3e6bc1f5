import Dnet.Front.Inline
import Dnet.Front.Wrap

/-!
# The list prelude

The primitive values and functions of dnx-prim/prim.rs that the parsers use, and the list
functions that both front ends hand to `pass0` as definitions (dnx-lang/prelude.rs,
dnx-pyparse/runtime.rs). A list is a Scott-encoded λ-term. List literals are written with the
names `nil`, `cons` and `concat`, which `pass0` reads as the definition unless a binder around it
has the same name (`pass0_reads`).
-/

namespace Dnet

open Lib List Function Ast

/-- Floats are given by their bits. -/
inductive NixPrimVal where
  | int (n : Int64)
  | float (bits : UInt64)
  | str (s : String)
  | bool (b : Bool)
  | null
  | path (p : String)
  deriving DecidableEq

inductive NixPrimFun where
  | select | selectOr | emptyAttrSet | hasAttr | insert | update
  | add | sub | mul | div | neg
  | eq | ne | lt | le | gt | ge
  | toString2 | throw
  | builtin (name : Name)
  deriving DecidableEq

/-- The core terms of the front ends. -/
abbrev NixTerm := Ast NixPrimVal NixPrimFun

abbrev Meaning := Nameless NixPrimVal NixPrimFun

def app2 (f a b : NixTerm) : NixTerm := .app (.app f a) b

/-! ## The definitions -/

namespace Prelude

/-- `λx y. body` -/
def lam (xs : List Name) (body : NixTerm) : NixTerm := xs.foldr .abs body

def nil : NixTerm := lam ["c", "n"] (.name "n")

def cons : NixTerm := lam ["h", "t", "c", "n"] (app2 (.name "c") (.name "h") (.name "t"))

def head : NixTerm := lam ["xs"] (app2 (.name "xs") (lam ["h", "t"] (.name "h")) (.name "nil"))

def tail : NixTerm := lam ["xs"] (app2 (.name "xs") (lam ["h", "t"] (.name "t")) (.name "nil"))

def isNil : NixTerm :=
  lam ["xs"] (app2 (.name "xs") (lam ["h", "t"] (.val (.bool false))) (.val (.bool true)))

def length : NixTerm :=
  lam ["xs"] (app2 (.fix (lam ["self", "ys", "acc"] (app2 (.name "ys")
    (lam ["h", "t"] (app2 (.name "self") (.name "t")
      (app2 (.fn .add) (.name "acc") (.val (.int 1))))) (.name "acc"))))
    (.name "xs") (.val (.int 0)))

def elemAt : NixTerm :=
  lam ["xs", "i"] (app2 (.fix (lam ["self", "ys", "j"] (app2 (.name "ys")
    (lam ["h", "t"] (app2 (app2 (.fn .eq) (.name "j") (.name "i")) (.name "h")
      (app2 (.name "self") (.name "t") (app2 (.fn .add) (.name "j") (.val (.int 1))))))
    (.name "nil")))) (.name "xs") (.val (.int 0)))

def map : NixTerm :=
  lam ["f", "xs"] (.app (.fix (lam ["self", "ys"] (app2 (.name "ys")
    (lam ["h", "t"] (app2 (.name "cons") (.app (.name "f") (.name "h"))
      (.app (.name "self") (.name "t")))) (.name "nil")))) (.name "xs"))

def filter : NixTerm :=
  lam ["pred", "xs"] (.app (.fix (lam ["self", "ys"] (app2 (.name "ys")
    (lam ["h", "t"] (app2 (.app (.name "pred") (.name "h"))
      (app2 (.name "cons") (.name "h") (.app (.name "self") (.name "t")))
      (.app (.name "self") (.name "t")))) (.name "nil")))) (.name "xs"))

def concat : NixTerm :=
  lam ["a", "b"] (.app (.fix (lam ["self", "xs"] (app2 (.name "xs")
    (lam ["h", "t"] (app2 (.name "cons") (.name "h") (.app (.name "self") (.name "t"))))
    (.name "b")))) (.name "a"))

def foldl : NixTerm :=
  lam ["op", "acc", "xs"] (app2 (.fix (lam ["self", "a", "ys"] (app2 (.name "ys")
    (lam ["h", "t"] (app2 (.name "self") (app2 (.name "op") (.name "a") (.name "h")) (.name "t")))
    (.name "a")))) (.name "acc") (.name "xs"))

/-- The definitions as they are written. -/
def source : List (Name × NixTerm) :=
  [("nil", nil), ("cons", cons), ("head", head), ("tail", tail), ("isNil", isNil),
    ("length", length), ("elemAt", elemAt), ("map", map), ("filter", filter), ("concat", concat),
    ("foldl", foldl)]

/-- The definitions as the parser returns them, with every variable used once
(`linearise_source`). -/
def defs : DefMap NixPrimVal NixPrimFun := source.map fun d => (d.1, d.2.linearise.getD d.2)

/-- What a name of the prelude denotes. -/
def meaning (n : Name) : Meaning := (expand source 2 (.name n) []).getD (.free n)

/-- A name of the prelude. -/
def Defined (n : Name) : Prop := (source.lookup n).isSome

section

variable {n : Name} {Γ : List Name} {b : Bound} {σ : Name → Name} {Γs : List Name}

theorem Defined.clean (h : Defined n) : Clean n := by
  have hall : ∀ d ∈ source, Clean d.1 := by
    simp only [source, forall_mem_cons]
    decide +kernel
  obtain ⟨t, ht⟩ := Option.isSome_iff_exists.mp h
  obtain ⟨l, r, heq, -⟩ := lookup_eq_some_iff.mp ht
  exact hall (n, t) (heq ▸ mem_append_right l mem_cons_self)

/-- The names that a list literal is written with. -/
def Literal (n : Name) : Prop := n = "nil" ∨ n = "cons" ∨ n = "concat"

theorem lookup_isSome (n : Name) : (defs.lookup n).isSome = (source.lookup n).isSome := by
  unfold defs
  induction source with
  | nil => rfl
  | cons d ds ih =>
    rw [map_cons, lookup_cons, lookup_cons]
    split
    · rfl
    · exact ih

theorem lookup_linearForm {t : NixTerm} (h : source.lookup n = some t) (ht : t.Plain) :
    ∃ w, defs.lookup n = some w ∧ LinearForm t w := by
  obtain ⟨w, hw, hl⟩ := linearise_spec ht
  refine ⟨w, ?_, hl⟩
  unfold defs
  revert h
  induction source with
  | nil => exact nofun
  | cons d ds ih =>
    rw [map_cons, lookup_cons, lookup_cons]
    split
    · intro h
      cases h
      rw [hw]
      rfl
    · exact ih

/-- What a name is read as that is bound by none of `Γ`: the `cons` of `concat` is read where
`concat` is used. -/
def literal (Γ : List Name) (n : Name) : Meaning :=
  if n = "concat" ∧ "cons" ∈ Γ then concat.nameless Γ else meaning n

theorem literal_eq_iff (hn : Literal n) :
    literal Γ n = meaning n ↔ (n = "concat" → "cons" ∉ Γ) := by
  unfold literal
  split
  · next h =>
    obtain ⟨rfl, hcons⟩ := h
    refine iff_of_false (fun he => ?_) fun h => h rfl hcons
    have hmeaning : meaning "concat" = .abs (.abs (.app (.fix (.abs (.abs (.app (.app (.bound 0)
        (.abs (.abs (.app (.app (cons.nameless []) (.bound 1)) (.app (.bound 3) (.bound 0))))))
        (.bound 2))))) (.bound 1))) := rfl
    rw [hmeaning] at he
    simp [concat, lam, nameless, Nameless.ofName, app2, hcons, cons] at he
  · next h => exact iff_of_true rfl fun hn hcons => h ⟨hn, hcons⟩

/-! ## Names after `pass0` -/

/-- The set of `resolve` agrees with the scope on the names of the prelude. -/
def Agrees (b : Bound) (Γ : List Name) : Prop := ∀ n, Defined n → (b n = true ↔ n ∈ Γ)

theorem Agrees.insert (h : Agrees b Γ) (x : Name) : Agrees (b.insert x) (x :: Γ) := fun n hn => by
  simp [Bound.insert, h n hn]

theorem Agrees.remove {x : Name} (h : Agrees b (x :: Γ)) (hx : Defined x → x ∉ Γ) :
    Agrees (b.remove x) Γ := fun n hn => by
  by_cases hnx : n = x
  · subst hnx
    simp [Bound.remove, hx hn]
  · simp [Bound.remove, hnx, h n hn]

theorem resolve_bound (fuel : Nat) (h : Agrees b Γ) (hn : n ∈ Γ) :
    Pass0.resolve defs fuel (.name n) b = .ok (.name n, b) := by
  have hname : ∀ call, resolveWith defs call (.name n) b = .ok (.name n, b) := by
    intro call
    rw [resolveWith]
    by_cases hb : b n = true
    · rw [if_pos hb]
    · have hdef : ¬Defined n := fun hd => hb ((h n hd).mpr hn)
      have hnone : defs.lookup n = none := by
        rw [Defined, ← lookup_isSome] at hdef
        exact Option.not_isSome_iff_eq_none.mp hdef
      rw [if_neg hb, hnone]
  cases fuel <;> exact hname _

/-- The term without the names of its binders, over the reading of the names that are free. -/
def readWith (lit : List Name → Name → Meaning) : NixTerm → List Name → Meaning
  | .name n, Γ => if n ∈ Γ then .bound (Γ.idxOf n) else lit Γ n
  | .abs x body, Γ => .abs (readWith lit body (x :: Γ))
  | .app f x, Γ => .app (readWith lit f Γ) (readWith lit x Γ)
  | .fix e, Γ => .fix (readWith lit e Γ)
  | t, Γ => t.nameless Γ

/-- `σ` reads the names in scope as names of the binders `Γs`, and keeps the others. -/
structure Tracks (Γ Γs : List Name) (σ : Name → Name) : Prop where
  bound : ∀ n ∈ Γ, σ n ∈ Γs
  free : ∀ n, n ∉ Γ → σ n = n ∧ n ∉ Γs
  defined : ∀ n, Defined n → σ n = n

theorem Tracks.abs (h : Tracks Γ Γs σ) (x : Name) :
    Tracks (x :: Γ) (x :: Γs) (Function.update σ x x) where
  bound n hn := by
    by_cases hx : n = x
    · simp [hx]
    · rw [update_of_ne hx]
      exact mem_cons_of_mem x (h.bound n ((mem_cons.mp hn).resolve_left hx))
  free n hn := by
    rw [mem_cons, not_or] at hn
    rw [update_of_ne hn.1, mem_cons, not_or]
    exact ⟨(h.free n hn.2).1, hn.1, (h.free n hn.2).2⟩
  defined n hn := by
    by_cases hx : n = x
    · simp [hx]
    · rw [update_of_ne hx, h.defined n hn]

theorem Tracks.copy {z a : Name} (h : Tracks Γ Γs σ)
    (hz : z ∈ Γs) (ha : ¬Defined a) : Tracks (a :: Γ) Γs (Function.update σ a z) where
  bound n hn := by
    by_cases hx : n = a
    · simp [hx, hz]
    · rw [update_of_ne hx]
      exact h.bound n ((mem_cons.mp hn).resolve_left hx)
  free n hn := by
    rw [mem_cons, not_or] at hn
    rw [update_of_ne hn.1]
    exact h.free n hn.2
  defined n hn := by
    have hx : n ≠ a := fun he => ha (he ▸ hn)
    rw [update_of_ne hx, h.defined n hn]

/-- With fuel `k` or more `resolve` returns `r` on `w`, and `r` is read as `lit` says. -/
structure Resolves (lit : List Name → Name → Meaning) (k : Nat) (w : NixTerm) (Γ : List Name)
    (b : Bound) (r : NixTerm) (b' : Bound) : Prop where
  run : ∀ fuel, k ≤ fuel → Pass0.resolve defs fuel w b = .ok (r, b')
  agrees : Agrees b' Γ
  reads : ∀ {σ Γs s}, Tracks Γ Γs σ → w.erasure σ = some s →
    ∃ r', r.erasure σ = some r' ∧ r'.nameless Γs = readWith lit s Γs

/-- The names of `A` are resolved, and read as `lit` says. -/
def Literals (A : Name → Prop) (k : Nat) (lit : List Name → Name → Meaning) : Prop :=
  ∀ n Γ b, A n → n ∉ Γ → Agrees b Γ → ∃ r b', Resolves lit k (.name n) Γ b r b'

theorem resolve_eq (fuel : Nat) : ∃ call, ∀ (w : NixTerm) (b : Bound),
    Pass0.resolve defs fuel w b = w.resolveWith defs call b := by
  cases fuel <;> exact ⟨_, fun _ _ => rfl⟩

theorem resolves_name {lit : List Name → Name → Meaning} {k : Nat} (h : Agrees b Γ) (hn : n ∈ Γ) :
    Resolves lit k (.name n) Γ b (.name n) b where
  run fuel _ := resolve_bound fuel h hn
  agrees := h
  reads {σ Γs s} ht hs := by
    cases hs
    refine ⟨_, rfl, ?_⟩
    rw [readWith, if_pos (ht.bound n hn), nameless, Nameless.ofName, if_pos (ht.bound n hn)]

end

section

variable {lit : List Name → Name → Meaning} {k : Nat} {Γ : List Name} {b b1 b2 : Bound}
  {w r : NixTerm}

theorem Resolves.abs {x : Name} (hx : Defined x → x ∉ Γ)
    (h : Resolves lit k w (x :: Γ) (b.insert x) r b1) :
    Resolves lit k (.abs x w) Γ b (.abs x r) (b1.remove x) where
  run fuel hfuel := by
    obtain ⟨call, hcall⟩ := resolve_eq fuel
    rw [hcall]
    exact Call.bind_eq_ok.mpr ⟨_, (hcall _ _).symm.trans (h.run fuel hfuel), rfl⟩
  agrees := h.agrees.remove hx
  reads {σ Γs s} ht hs := by
    obtain ⟨body, hbody, rfl⟩ := Option.map_eq_some_iff.mp hs
    obtain ⟨r', hr, hread⟩ := h.reads (ht.abs x) hbody
    exact ⟨.abs x r', by rw [erasure, hr]; rfl, congrArg Nameless.abs hread⟩

theorem Resolves.app {w w' r r' : NixTerm} (h : Resolves lit k w Γ b r b1)
    (h' : Resolves lit k w' Γ b1 r' b2) : Resolves lit k (.app w w') Γ b (.app r r') b2 where
  run fuel hfuel := by
    obtain ⟨call, hcall⟩ := resolve_eq fuel
    rw [hcall]
    exact Call.bind_eq_ok.mpr ⟨_, (hcall _ _).symm.trans (h.run fuel hfuel),
      Call.bind_eq_ok.mpr ⟨_, (hcall _ _).symm.trans (h'.run fuel hfuel), rfl⟩⟩
  agrees := h'.agrees
  reads {σ Γs s} ht hs := by
    obtain ⟨f, hf, hs⟩ := Option.bind_eq_some_iff.mp hs
    obtain ⟨x, hx, hs⟩ := Option.bind_eq_some_iff.mp hs
    cases hs
    obtain ⟨f', hf', hreadf⟩ := h.reads ht hf
    obtain ⟨x', hx', hreadx⟩ := h'.reads ht hx
    exact ⟨.app f' x', by rw [erasure, hf', hx']; rfl, congrArg₂ Nameless.app hreadf hreadx⟩

theorem Resolves.fix (h : Resolves lit k w Γ b r b1) : Resolves lit k (.fix w) Γ b (.fix r) b1 where
  run fuel hfuel := by
    obtain ⟨call, hcall⟩ := resolve_eq fuel
    rw [hcall]
    exact Call.bind_eq_ok.mpr ⟨_, (hcall _ _).symm.trans (h.run fuel hfuel), rfl⟩
  agrees := h.agrees
  reads {σ Γs s} ht hs := by
    obtain ⟨e, he, rfl⟩ := Option.map_eq_some_iff.mp hs
    obtain ⟨r', hr, hread⟩ := h.reads ht he
    exact ⟨.fix r', by rw [erasure, hr]; rfl, congrArg Nameless.fix hread⟩

theorem Resolves.era {z : Name} (hb : Agrees b Γ) (hz : z ∈ Γ) (h : Resolves lit k w Γ b r b1) :
    Resolves lit k (.era (.name z) w) Γ b (.era (.name z) r) b1 where
  run fuel hfuel := by
    have hname := resolve_bound fuel hb hz
    obtain ⟨call, hcall⟩ := resolve_eq fuel
    rw [hcall] at hname ⊢
    exact Call.bind_eq_ok.mpr ⟨_, hname,
      Call.bind_eq_ok.mpr ⟨_, (hcall _ _).symm.trans (h.run fuel hfuel), rfl⟩⟩
  agrees := h.agrees
  reads ht hs := h.reads ht hs

theorem Resolves.rep {z x y : Name} (hb : Agrees b Γ) (hz : z ∈ Γ) (hx : ¬Defined x)
    (hy : ¬Defined y) (h : Resolves lit k w (y :: x :: Γ) ((b.insert x).insert y) r b1) :
    Resolves lit k (.rep (.name z) x y w) Γ b (.rep (.name z) x y r) ((b1.remove x).remove y) where
  run fuel hfuel := by
    have hname := resolve_bound fuel hb hz
    obtain ⟨call, hcall⟩ := resolve_eq fuel
    rw [hcall] at hname ⊢
    exact Call.bind_eq_ok.mpr ⟨_, hname,
      Call.bind_eq_ok.mpr ⟨_, (hcall _ _).symm.trans (h.run fuel hfuel), rfl⟩⟩
  agrees n hn := by
    have hnx : n ≠ x := fun he => hx (he ▸ hn)
    have hny : n ≠ y := fun he => hy (he ▸ hn)
    simpa [Bound.remove, hnx, hny] using h.agrees n hn
  reads {σ Γs s} ht hs := by
    have ht' := (ht.copy (ht.bound z hz) hx).copy (ht.bound z hz) hy
    exact h.reads ht' hs

end

variable {lit : List Name → Name → Meaning} {A : Name → Prop}

theorem resolves_scoped {k : Nat}
    (hlit : Literals A k lit) : ∀ {w : NixTerm} {Γ : List Name} {b : Bound},
      w.ScopedIn Defined A Γ → Agrees b Γ → ∃ r b', Resolves lit k w Γ b r b'
  | .name n, Γ, b, h, hb => by
    by_cases hn : n ∈ Γ
    · exact ⟨_, _, resolves_name hb hn⟩
    · exact hlit n Γ b (h.resolve_left hn) hn hb
  | .abs x w, Γ, b, h, hb => by
    obtain ⟨r, b', hr⟩ := resolves_scoped hlit h.2 (hb.insert x)
    exact ⟨_, _, hr.abs h.1⟩
  | .app f x, Γ, b, h, hb => by
    obtain ⟨r, b1, hf⟩ := resolves_scoped hlit h.1 hb
    obtain ⟨r', b2, hx⟩ := resolves_scoped hlit h.2 hf.agrees
    exact ⟨_, _, hf.app hx⟩
  | .rep (.name z) x y w, Γ, b, h, hb => by
    obtain ⟨hz, hx, hy, hw⟩ := h
    obtain ⟨r, b', hr⟩ := resolves_scoped hlit hw ((hb.insert x).insert y)
    exact ⟨_, _, hr.rep hb hz hx hy⟩
  | .era (.name z) w, Γ, b, h, hb => by
    obtain ⟨r, b', hr⟩ := resolves_scoped hlit h.2 hb
    exact ⟨_, _, hr.era hb h.1⟩
  | .fix w, Γ, b, h, hb => by
    obtain ⟨r, b', hr⟩ := resolves_scoped hlit (w := w) h hb
    exact ⟨_, _, hr.fix⟩
  | .val v, Γ, b, _, hb => by
    refine ⟨.val v, b, fun fuel _ => ?_, hb, fun _ hs => by cases hs; exact ⟨_, rfl, rfl⟩⟩
    obtain ⟨call, hcall⟩ := resolve_eq fuel
    exact hcall _ _
  | .fn f, Γ, b, _, hb => by
    refine ⟨.fn f, b, fun fuel _ => ?_, hb, fun _ hs => by cases hs; exact ⟨_, rfl, rfl⟩⟩
    obtain ⟨call, hcall⟩ := resolve_eq fuel
    exact hcall _ _

theorem erasure_self : ∀ {t : NixTerm} {σ : Name → Name}, t.Plain → (∀ z ∈ t.freeNames, σ z = z) →
    t.erasure σ = some t
  | .name n, σ, _, h => by rw [erasure, h n (mem_singleton_self n)]
  | .abs x body, σ, hp, h => by
    rw [erasure, erasure_self hp.2]
    · rfl
    · intro z hz
      by_cases hx : z = x
      · simp [hx]
      · rw [update_of_ne hx]
        exact h z (mem_filter.mpr ⟨hz, by simpa using hx⟩)
  | .app f x, σ, hp, h => by
    rw [erasure, erasure_self hp.1 fun z hz => h z (mem_append_left _ hz),
      erasure_self hp.2 fun z hz => h z (mem_append_right _ hz)]
    rfl
  | .fix e, σ, hp, h => by
    rw [erasure, erasure_self (t := e) hp h]
    rfl
  | .val _, _, _, _ | .fn _, _, _, _ => rfl

theorem resolves_defined {k : Nat}
    (hlit : Literals A k lit) {n : Name} {t : NixTerm} (hn : source.lookup n = some t)
    (hplain : t.Plain) (hscoped : ∀ Γ, t.ScopedIn Defined A Γ) (hfree : ∀ z ∈ t.freeNames, Defined z)
    (hread : ∀ Γ, readWith lit t Γ = lit Γ n) {Γ : List Name} {b : Bound} (hΓ : n ∉ Γ)
    (hb : Agrees b Γ) : ∃ r b', Resolves lit (k + 1) (.name n) Γ b r b' := by
  obtain ⟨w, hw, hl⟩ := lookup_linearForm hn hplain
  obtain ⟨r, b', hr⟩ := resolves_scoped hlit (hl.scopedIn (fun _ => Defined.clean) (hscoped Γ)) hb
  have hunbound : ¬b n = true := fun h => hΓ ((hb n (by rw [Defined, hn]; rfl)).mp h)
  refine ⟨r, b', fun fuel hfuel => ?_, hr.agrees, fun {σ Γs s} ht hs => ?_⟩
  · obtain ⟨fuel, rfl⟩ := Nat.exists_eq_add_of_le' hfuel
    show resolveWith defs (Pass0.resolve defs (fuel + k)) (.name n) b = _
    rw [resolveWith, if_neg hunbound, hw]
    exact hr.run _ (Nat.le_add_left _ _)
  · obtain ⟨hσ, hΓs⟩ := ht.free n hΓ
    rw [erasure, hσ] at hs
    cases hs
    obtain ⟨r', hr', hmeaning⟩ := hr.reads ht
      ((hl.erasure σ).trans (erasure_self hplain fun z hz => ht.defined z (hfree z hz)))
    exact ⟨r', hr', by rw [hmeaning, hread, readWith, if_neg hΓs]⟩

theorem readWith_nil (Γ : List Name) : readWith literal nil Γ = literal Γ "nil" := by
  have hmeaning : meaning "nil" = .abs (.abs (.bound 0)) := rfl
  simp [nil, lam, readWith, literal, hmeaning]

theorem readWith_cons (Γ : List Name) : readWith literal cons Γ = literal Γ "cons" := by
  have hmeaning : meaning "cons" = .abs (.abs (.abs (.abs (.app (.app (.bound 1) (.bound 3))
      (.bound 2))))) := rfl
  simp [cons, lam, app2, readWith, literal, hmeaning]

theorem readWith_concat (Γ : List Name) : readWith literal concat Γ = literal Γ "concat" := by
  have hmeaning : meaning "concat" = .abs (.abs (.app (.fix (.abs (.abs (.app (.app (.bound 0)
      (.abs (.abs (.app (.app (meaning "cons") (.bound 1)) (.app (.bound 3) (.bound 0))))))
      (.bound 2))))) (.bound 1))) := rfl
  by_cases h : "cons" ∈ Γ
  · simp [concat, lam, app2, readWith, literal, h, nameless, Nameless.ofName]
  · simp [concat, lam, app2, readWith, literal, h, hmeaning]

theorem literals : Literals Literal 2 literal := by
  have hnone : ∀ k, Literals (fun _ => False) k literal := fun _ _ _ _ h => h.elim
  have hcons : ∀ k, Literals (· = "cons") (k + 1) literal := by
    rintro k n Γ b rfl hΓ hb
    exact resolves_defined (hnone k) rfl (by decide)
      (by simp [cons, lam, app2, Ast.ScopedIn, Defined, source])
      (by simp [cons, lam, app2, freeNames]) readWith_cons hΓ hb
  rintro n Γ b (rfl | rfl | rfl) hΓ hb
  · exact resolves_defined (hnone _) rfl (by decide)
      (by simp [nil, lam, Ast.ScopedIn, Defined, source])
      (by simp [nil, lam, freeNames]) readWith_nil hΓ hb
  · exact hcons _ _ Γ b rfl hΓ hb
  · exact resolves_defined (hcons 0) rfl (by decide)
      (by simp [concat, lam, app2, Ast.ScopedIn, Defined, source])
      (by simp [concat, lam, app2, freeNames, Defined, source]) readWith_concat hΓ hb

theorem defs_acyclic : Acyclic defs := by
  have hrun : returns (fun _ => true) (topoCheck defs 12) = true := by decide +kernel
  obtain ⟨visited, hv, -⟩ := exists_of_returns hrun
  exact topoCheck_acyclic hv

theorem pass0_reads {w s : NixTerm} (h : w.ScopedIn Defined Literal []) (hs : w.erasure id = some s) :
    ∃ r r', (∃ k, ∀ fuel, k ≤ fuel → pass0 fuel defs w = .ok r) ∧ r.erasure id = some r' ∧
      r'.nameless [] = readWith literal s [] := by
  have hagrees : Agrees (fun _ => false) [] := fun n _ => by simp
  obtain ⟨r, b, hr⟩ := resolves_scoped literals h hagrees
  obtain ⟨r', hr', hread⟩ := hr.reads (σ := id) ⟨nofun, fun _ h => ⟨rfl, h⟩, fun _ _ => rfl⟩ hs
  obtain ⟨k, hk⟩ := defs_acyclic.topoCheck
  refine ⟨r, r', ⟨max k 2, fun fuel hfuel => ?_⟩, hr', hread⟩
  obtain ⟨visited, hv⟩ := hk fuel (le_trans (Nat.le_max_left _ _) hfuel)
  exact Call.bind_eq_ok.mpr ⟨visited, hv, Call.bind_eq_ok.mpr
    ⟨_, hr.run fuel (le_trans (Nat.le_max_right _ _) hfuel), rfl⟩⟩

end Prelude

end Dnet
