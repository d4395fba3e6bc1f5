import Dnet.Front.Linearise
import Dnet.Kernel.Tm

/-!
# Erasure of kernel terms

`to_ast` (dnx-proof/erase.rs) translates a kernel term to the core language, with names for
the levels of its binders, and makes it linear binder by binder, the innermost binder first.

The copy of `indexed_rename` in that file does not look below a `Rep`, while `count_uses_in`
does. So the uses of a repeated variable are all renamed only if none of them stands below
another repeated binder (`Tm.Separate`).
-/

namespace Dnet.Kernel

open Lib List

/-! ## The translation -/

/-- The terms of `dnx-proof` have no primitives. -/
abbrev KernelAst := Ast Empty Empty

def bindName (level : Nat) : Name := "v" ++ toString level

inductive Symbol where
  | const (c : ConstId)
  | ind (i : IndId)
  | ctor (i : IndId) (k : Nat)
  | elim (i : IndId)

def Symbol.encode : Symbol → Name
  | .const c => "§c:" ++ toString c
  | .ind i => "§i:" ++ toString i
  | .ctor i k => "§k:" ++ toString i ++ "." ++ toString k
  | .elim i => "§e:" ++ toString i

def countUsesIn (name : Name) : KernelAst → Nat
  | .name n => if n = name then 1 else 0
  | .abs x body => if x = name then 0 else countUsesIn name body
  | .app f x => countUsesIn name f + countUsesIn name x
  | .era e body => countUsesIn name e + countUsesIn name body
  | .rep e a b body =>
    countUsesIn name e + if a = name ∨ b = name then 0 else countUsesIn name body
  | _ => 0

/-- Renames the uses of `name` to `names[idx]`, `names[idx + 1]`, …; stops at a `Rep`. -/
def indexedRename (name : Name) (names : List Name) : KernelAst → Nat → Option (KernelAst × Nat)
  | .name n, idx =>
    if n = name then names[idx]?.map fun r => (.name r, idx + 1) else some (.name n, idx)
  | .abs x body, idx =>
    if x = name then some (.abs x body, idx)
    else do
      let (body, idx) ← indexedRename name names body idx
      return (.abs x body, idx)
  | .app f x, idx => do
    let (f, idx) ← indexedRename name names f idx
    let (x, idx) ← indexedRename name names x idx
    return (.app f x, idx)
  | .era e body, idx => do
    let (e, idx) ← indexedRename name names e idx
    let (body, idx) ← indexedRename name names body idx
    return (.era e body, idx)
  | other, idx => some (other, idx)

/-- `depth` is the number of binders around the term. -/
def toAst : Tm → Nat → Option KernelAst
  | .var i, depth =>
    some (.name (if i < depth then bindName (depth - 1 - i) else "§fv" ++ toString (i - depth)))
  | .lam _ b, depth => do
    let name := bindName depth
    let body ← toAst b (depth + 1)
    let body ← wrapUses indexedRename name (countUsesIn name body) body
    return .abs name body
  | .app f x, depth => do return .app (← toAst f depth) (← toAst x depth)
  | .const c, _ => some (.name (Symbol.const c).encode)
  | .ind i, _ => some (.name (Symbol.ind i).encode)
  | .ctor i k, _ => some (.name (Symbol.ctor i k).encode)
  | .elim i, _ => some (.name (Symbol.elim i).encode)
  | .sort _, _ | .pi _ _, _ => some (.name "§ty")

/-! ## What the two traversals see -/

/-- The uses that `indexedRename` reaches. -/
def reachedUses (name : Name) : KernelAst → Nat
  | .name n => if n = name then 1 else 0
  | .abs x body => if x = name then 0 else reachedUses name body
  | .app f x => reachedUses name f + reachedUses name x
  | .era e body => reachedUses name e + reachedUses name body
  | _ => 0

section

variable {names : List Name} {d : Nat} {a : KernelAst} {b : Tm} {z : Name}

theorem indexedRename_spec {name : Name} : ∀ (t : KernelAst) {i : Nat},
    (∀ c ∈ names, c ∉ t.binders) → i + reachedUses name t ≤ names.length →
      ∃ t' l, IndexedRename (indexedRename name names) (Renamed name) names i
        (reachedUses name t) t t' l
  | .name n, i, _, h => by
    by_cases hn : n = name
    · subst hn
      simp only [reachedUses, if_true] at h ⊢
      have hi : names[i]? = some names[i] := List.getElem?_eq_getElem h
      exact ⟨_, [names[i]], by simp [indexedRename, hi], .name _, prefix_drop_singleton hi, rfl⟩
    · exact ⟨_, _, .skip (.refl _) (by simp [indexedRename, hn]) (by simp [reachedUses, hn])⟩
  | .abs x body, i, hnew, h => by
    by_cases hx : x = name
    · exact ⟨_, _, .skip (.refl _) (by simp [indexedRename, hx]) (by simp [reachedUses, hx])⟩
    · rw [reachedUses, if_neg hx] at h ⊢
      obtain ⟨t', l, hrun, hren, htaken, hlen⟩ :=
        indexedRename_spec body (fun c hc hm => hnew c hc (mem_cons_of_mem x hm)) h
      have hl : x ∉ l := fun hm => hnew x (mem_of_mem_drop (htaken.subset hm)) mem_cons_self
      exact ⟨_, l, by simp [indexedRename, hx, hrun], .abs hx hl hren, htaken, hlen⟩
  | .app f x, i, hnew, h => by
    obtain ⟨f', x', l, m, hf, hx, htaken, hlen⟩ := IndexedRename.both h
      (indexedRename_spec f fun c hc hm => hnew c hc (mem_append_left _ hm))
      (indexedRename_spec x fun c hc hm => hnew c hc (mem_append_right _ hm))
    exact ⟨_, l ++ m, by simp [indexedRename, hf.run, hx.run, Nat.add_assoc],
      .app hf.renamed hx.renamed, htaken, hlen⟩
  | .era e body, i, hnew, h => by
    obtain ⟨e', b', l, m, he, hb, htaken, hlen⟩ := IndexedRename.both h
      (indexedRename_spec e fun c hc hm => hnew c hc (mem_append_left _ hm))
      (indexedRename_spec body fun c hc hm => hnew c hc (mem_append_right _ hm))
    exact ⟨_, l ++ m, by simp [indexedRename, he.run, hb.run, Nat.add_assoc],
      .era he.renamed hb.renamed, htaken, hlen⟩
  | .rep _ _ _ _, _, _, _ | .fix _, _, _, _ | .perform _ _, _, _, _ | .handle _ _, _, _, _ =>
    ⟨_, _, .skip (.refl _) rfl rfl⟩

theorem countUsesIn_eq (name : Name) : ∀ {t : KernelAst}, t.EffectFree → t.FixFree →
    countUsesIn name t = t.freeNames.count name
  | .name x, _, _ => by simp [countUsesIn, Ast.freeNames, count_cons]
  | .abs x body, h, h' => by
    rw [countUsesIn, Ast.freeNames, count_filter_ne, countUsesIn_eq name (t := body) h h']
    simp [eq_comm]
  | .app f x, h, h' | .era f x, h, h' => by
    rw [countUsesIn, Ast.freeNames, count_append, countUsesIn_eq name h.1 h'.1,
      countUsesIn_eq name h.2 h'.2]
  | .rep e a b body, h, h' => by
    rw [countUsesIn, Ast.freeNames, count_append, count_filter_pair, countUsesIn_eq name h.1 h'.1,
      countUsesIn_eq name h.2 h'.2]
    simp [eq_comm]

/-! ## Terms -/

/-- Terms of variables below `n`, `Lam` and `App`; the domains do not matter. -/
inductive Tm.Lambda : Nat → Tm → Prop where
  | var {n i : Nat} (h : i < n) : Lambda n (.var i)
  | lam {n : Nat} (dom : Tm) {b : Tm} : Lambda (n + 1) b → Lambda n (.lam dom b)
  | app {n : Nat} {f x : Tm} : Lambda n f → Lambda n x → Lambda n (.app f x)

/-- The term with names for the levels of its binders. -/
def Tm.named : Tm → Nat → KernelAst
  | .var i, depth => .name (bindName (depth - 1 - i))
  | .lam _ b, depth => .abs (bindName depth) (b.named (depth + 1))
  | .app f x, depth => .app (f.named depth) (x.named depth)
  | _, _ => .name "§ty"

/-- The number of uses of the variable `i`. -/
def Tm.uses (i : Nat) : Tm → Nat
  | .var j => if j = i then 1 else 0
  | .lam _ b => b.uses (i + 1)
  | .app f x => f.uses i + x.uses i
  | _ => 0

/-- The uses of the variable `i` that do not stand below a binder with several uses. -/
def Tm.clearUses (i : Nat) : Tm → Nat
  | .var j => if j = i then 1 else 0
  | .lam _ b => if 2 ≤ b.uses 0 then 0 else b.clearUses (i + 1)
  | .app f x => f.clearUses i + x.clearUses i
  | _ => 0

/-- No use of a variable with several uses stands below another binder with several uses
in its scope. -/
def Tm.Separate : Tm → Prop
  | .lam _ b => (2 ≤ b.uses 0 → b.clearUses 0 = b.uses 0) ∧ b.Separate
  | .app f x => f.Separate ∧ x.Separate
  | _ => True

theorem Tm.clearUses_le_uses : ∀ (t : Tm) (i : Nat), t.clearUses i ≤ t.uses i
  | .var _, _ => Nat.le_refl _
  | .lam _ b, i => by
    have := b.clearUses_le_uses (i + 1)
    rw [clearUses, uses]
    split <;> omega
  | .app f x, i => Nat.add_le_add (f.clearUses_le_uses i) (x.clearUses_le_uses i)
  | .sort _, _ | .pi _ _, _ | .const _, _ | .ind _, _ | .ctor _ _, _ | .elim _, _ => Nat.le_refl _

/-! ## The names of a binder -/

/-- The names that the translation makes for the binder at a level. -/
inductive Made (level : Nat) : Name → Prop where
  | bind : Made level (bindName level)
  | copy (i : Nat) : Made level (copyName (bindName level) i)
  | rest (i : Nat) : Made level (restName (copyName (bindName level) i))

theorem bindName_inj {e e' : Nat} (h : bindName e = bindName e') : e = e' :=
  toString_injective ((String.append_right_inj _).mp h)

theorem bindName_ne_copyName (e e' i : Nat) : bindName e ≠ copyName (bindName e') i := by
  intro h
  have hv : Stem "v" := ⟨[], 'v', rfl, rfl⟩
  have hlen := congrArg String.length (hv.toString_inj (stem_underscores.append _) h).1
  rw [bindName, String.length_append, String.length_append] at hlen
  have : "__".length = 2 := rfl
  omega

theorem head_restName (x : Name) : (restName x).toList.head? = some '_' := by simp [restName]

theorem bindName_ne_restName (e : Nat) (x : Name) : bindName e ≠ restName x := by
  intro h
  have := congrArg (fun s => s.toList.head?) h
  simp [head_restName, bindName] at this

theorem copyName_ne_restName (e i : Nat) (x : Name) : copyName (bindName e) i ≠ restName x := by
  intro h
  have := congrArg (fun s => s.toList.head?) h
  simp [head_restName, copyName, bindName] at this

/-- A name tells the level of its binder. -/
theorem Made.level_inj {e e' : Nat} (h : Made e z) (h' : Made e' z) : e = e' := by
  cases h with
  | bind =>
    generalize hz : bindName e = z at h'
    cases h' with
    | bind => exact bindName_inj hz
    | copy i => exact (bindName_ne_copyName e e' i hz).elim
    | rest i => exact (bindName_ne_restName e _ hz).elim
  | copy j =>
    generalize hz : copyName (bindName e) j = z at h'
    cases h' with
    | bind => exact (bindName_ne_copyName e' e j hz.symm).elim
    | copy i => exact bindName_inj (copyName_inj hz).1
    | rest i => exact (copyName_ne_restName e j _ hz).elim
  | rest j =>
    generalize hz : restName (copyName (bindName e) j) = z at h'
    cases h' with
    | bind => exact (bindName_ne_restName e' _ hz.symm).elim
    | copy i => exact (copyName_ne_restName e' i _ hz.symm).elim
    | rest i => exact bindName_inj (copyName_inj (restName_inj hz)).1

theorem made_of_copyOf {d : Nat} (h : CopyOf (bindName d) z) : Made d z := by
  obtain ⟨i, rfl | rfl⟩ := h
  · exact .copy i
  · exact .rest i

/-! ## The translation of a term -/

/-- The translation `a` of the term `t` below `d` binders. -/
structure Erased (t : Tm) (d : Nat) (a : KernelAst) : Prop where
  plain : a.EffectFree ∧ a.FixFree
  free : ∀ z ∈ a.freeNames, ∃ e < d, z = bindName e
  uses : ∀ e < d, a.freeNames.count (bindName e) = t.uses (d - 1 - e)
  reached : ∀ e < d, reachedUses (bindName e) a = t.clearUses (d - 1 - e)
  binders : ∀ z ∈ a.binders, ∃ e, d ≤ e ∧ Made e z
  usedOnce : a.UsedOnce ↔ t.Separate
  erasure : ∀ σ : Name → Name, (∀ e < d, σ (bindName e) = bindName e) →
    a.erasure σ = some (t.named d)

theorem erased_var {i : Nat} (h : i < d) : Erased (.var i) d (.name (bindName (d - 1 - i))) where
  plain := ⟨trivial, trivial⟩
  free z hz := ⟨d - 1 - i, by omega, by simpa [Ast.freeNames] using hz⟩
  uses e he := by
    have : bindName (d - 1 - i) = bindName e ↔ i = d - 1 - e :=
      ⟨fun hb => by have := bindName_inj hb; omega, fun hi => by rw [hi]; congr 1; omega⟩
    simp [Ast.freeNames, Tm.uses, count_cons, this]
  reached e he := by
    have : bindName (d - 1 - i) = bindName e ↔ i = d - 1 - e :=
      ⟨fun hb => by have := bindName_inj hb; omega, fun hi => by rw [hi]; congr 1; omega⟩
    simp [reachedUses, Tm.clearUses, this]
  binders := nofun
  usedOnce := Iff.rfl
  erasure σ hσ := by rw [Ast.erasure, hσ _ (by omega), Tm.named]

theorem Erased.app {f x : Tm} {b : KernelAst} (hf : Erased f d a) (hx : Erased x d b) :
    Erased (.app f x) d (.app a b) where
  plain := ⟨⟨hf.plain.1, hx.plain.1⟩, hf.plain.2, hx.plain.2⟩
  free z hz := (mem_append.mp hz).elim (hf.free z) (hx.free z)
  uses e he := by rw [Ast.freeNames, count_append, hf.uses e he, hx.uses e he, Tm.uses]
  reached e he := by rw [reachedUses, hf.reached e he, hx.reached e he, Tm.clearUses]
  binders z hz := (mem_append.mp hz).elim (hf.binders z) (hx.binders z)
  usedOnce := and_congr hf.usedOnce hx.usedOnce
  erasure σ hσ := by
    rw [Ast.erasure, hf.erasure σ hσ, hx.erasure σ hσ]
    rfl

/-- The body `w` of the binder at level `d`, made from its translation `a`. -/
structure Wrapped (b : Tm) (d : Nat) (a w : KernelAst) : Prop where
  plain : w.EffectFree ∧ w.FixFree
  count : ∀ z, z ≠ bindName d → w.freeNames.count z = a.freeNames.count z
  reached : ∀ e < d, reachedUses (bindName e) w =
    if 2 ≤ b.uses 0 then 0 else reachedUses (bindName e) a
  binders : ∀ z ∈ w.binders, z ∈ a.binders ∨ Made d z
  usedOnce : w.freeNames.count (bindName d) = 1 ∧ w.UsedOnce ↔
    (2 ≤ b.uses 0 → b.clearUses 0 = b.uses 0) ∧ b.Separate
  erasure : ∀ σ : Name → Name, (∀ e < d + 1, σ (bindName e) = bindName e) →
    w.erasure σ = some (b.named (d + 1))

theorem Erased.wrapped_era (h : Erased b (d + 1) a) (hu : a.freeNames.count (bindName d) = 0)
    (hb : b.uses 0 = 0) : Wrapped b d a (.era (.name (bindName d)) a) where
  plain := ⟨⟨trivial, h.plain.1⟩, trivial, h.plain.2⟩
  count z hz := by simp [Ast.freeNames, Ne.symm hz]
  reached e he := by
    have hne : bindName d ≠ bindName e := fun hb => by have := bindName_inj hb; omega
    simp [reachedUses, hb, hne]
  binders z hz := .inl hz
  usedOnce := by simp [Ast.freeNames, Ast.UsedOnce, hu, hb, h.usedOnce]
  erasure σ hσ := h.erasure σ hσ

theorem Erased.wrapped_once (h : Erased b (d + 1) a) (hu : a.freeNames.count (bindName d) = 1)
    (hb : b.uses 0 = 1) : Wrapped b d a a where
  plain := h.plain
  count z _ := rfl
  reached e he := by simp [hb]
  binders z hz := .inl hz
  usedOnce := by simp [hu, hb, h.usedOnce]
  erasure := h.erasure

theorem Wrapped.erased {dom : Tm} {w : KernelAst} (h : Erased b (d + 1) a) (hw : Wrapped b d a w) :
    Erased (.lam dom b) d (.abs (bindName d) w) where
  plain := hw.plain
  free z hz := by
    obtain ⟨hz, hne⟩ := mem_filter.mp hz
    have hne : z ≠ bindName d := by simpa using hne
    have hmem : z ∈ a.freeNames :=
      count_pos_iff.mp (hw.count z hne ▸ count_pos_iff.mpr hz)
    obtain ⟨e, he, rfl⟩ := h.free z hmem
    exact ⟨e, Nat.lt_of_le_of_ne (Nat.le_of_lt_succ he) fun hd => hne (by rw [hd]), rfl⟩
  uses e he := by
    have hne : bindName e ≠ bindName d := fun hb => by have := bindName_inj hb; omega
    rw [Ast.freeNames, count_filter_ne, if_neg hne, hw.count _ hne, h.uses e (by omega), Tm.uses]
    congr 1
    omega
  reached e he := by
    have hne : bindName d ≠ bindName e := fun hb => by have := bindName_inj hb; omega
    rw [reachedUses, if_neg hne, hw.reached e he, Tm.clearUses, h.reached e (by omega)]
    congr 2
    omega
  binders z hz := by
    rcases mem_cons.mp hz with rfl | hz
    · exact ⟨d, Nat.le_refl d, .bind⟩
    · rcases hw.binders z hz with hz | hz
      · obtain ⟨e, he, hm⟩ := h.binders z hz
        exact ⟨e, by omega, hm⟩
      · exact ⟨d, Nat.le_refl d, hz⟩
  usedOnce := hw.usedOnce
  erasure σ hσ := by
    rw [Ast.erasure, hw.erasure, Tm.named]
    · rfl
    · intro e he
      by_cases hd : e = d
      · rw [hd, Function.update_self]
      · rw [Function.update_of_ne fun hb => hd (bindName_inj hb), hσ e (by omega)]

theorem nestReps_reached {e body t : KernelAst} (h : nestReps e names body = some t) (z : Name) :
    reachedUses z t = 0 := by
  match names, h with
  | [a, b], h => cases h; rfl
  | a :: b :: c :: more, h =>
    obtain ⟨inner, -, h⟩ := Option.bind_eq_some_iff.mp h
    cases h
    rfl

theorem Erased.fresh (h : Erased b (d + 1) a) (hz : CopyOf (bindName d) z) :
    z ∉ a.freeNames ∧ z ∉ a.binders := by
  have hmade := made_of_copyOf hz
  constructor
  · intro hm
    obtain ⟨e, -, rfl⟩ := h.free z hm
    exact hz.ne (by rw [Made.bind.level_inj hmade])
  · intro hm
    obtain ⟨e, he, hz'⟩ := h.binders z hm
    have := hmade.level_inj hz'
    omega

/-- The copies of the variable at level `d`, of which the first ones are used. -/
theorem Erased.wrapped_chain (h : Erased b (d + 1) a) (hb : 2 ≤ b.uses 0) :
    ∃ w, buildRepChain indexedRename (bindName d) (b.uses 0) a = some w ∧ Wrapped b d a w := by
  have huses : a.freeNames.count (bindName d) = b.uses 0 := by
    rw [h.uses d (Nat.lt_succ_self d), Nat.add_sub_cancel, Nat.sub_self]
  have hreached : reachedUses (bindName d) a = b.clearUses 0 := by
    rw [h.reached d (Nat.lt_succ_self d), Nat.add_sub_cancel, Nat.sub_self]
  have hle : 0 + reachedUses (bindName d) a ≤ (copies (bindName d) (b.uses 0)).length := by
    rw [hreached]
    simpa using b.clearUses_le_uses 0
  obtain ⟨a', l, hren⟩ :=
    indexedRename_spec a (fun z hz => (h.fresh (copyOf_of_mem hz).1).2) hle
  have hlen : l.length = b.clearUses 0 := hren.length.trans hreached
  obtain ⟨w, hw⟩ := hren.renamed.copied (n := b.uses 0) hren.taken hb
    fun z hz => (h.fresh (.of_mem_chainNames hz)).1
  have hnames : ∀ c ∈ copies (bindName d) (b.uses 0), CopyOf (bindName d) c ∧ _ :=
    fun c => copyOf_of_mem
  refine ⟨w, ?_, ?_⟩
  · rw [buildRepChain, if_neg (by omega)]
    simp [hren.run, hw.run]
  constructor
  case plain =>
    refine nestReps_rule (P := fun w => w.EffectFree ∧ w.FixFree) (fun _ _ _ _ _ _ h => ?_) hnames
      ⟨hren.renamed.effectFree h.plain.1, hren.renamed.fixFree h.plain.2⟩ hw.run
    exact ⟨⟨trivial, h.1⟩, trivial, h.2⟩
  case count => exact hw.count
  case reached => exact fun e _ => by rw [if_pos hb, nestReps_reached hw.run]
  case binders =>
    refine nestReps_rule (P := fun w => ∀ z ∈ w.binders, z ∈ a.binders ∨ Made d z)
      (fun _ c c' _ hc hc' ih z hz => ?_) hnames (fun z hz => .inl (hren.renamed.binders ▸ hz)) hw.run
    simp only [Ast.binders, nil_append, mem_cons] at hz
    rcases hz with rfl | rfl | hz
    · exact .inr (made_of_copyOf hc)
    · exact .inr (made_of_copyOf hc')
    · exact ih z hz
  case usedOnce =>
    have hown := hw.own
    rw [huses, hlen] at hown
    rw [hw.usedOnce, hlen, h.usedOnce]
    constructor
    · exact fun hs => ⟨fun _ => hs.2.1, hs.2.2⟩
    · rintro ⟨hclear, hsep⟩
      exact ⟨by have := hclear hb; omega, hclear hb, hsep⟩
  case erasure => exact fun σ hσ => (hw.erasure σ).trans (h.erasure σ hσ)

end

theorem toAst_erased {t : Tm} {d : Nat} (h : t.Lambda d) :
    ∃ a, toAst t d = some a ∧ Erased t d a := by
  induction h with
  | var h => exact ⟨_, by rw [toAst, if_pos h], erased_var h⟩
  | @lam n dom b _ ih =>
    obtain ⟨a, ha, he⟩ := ih
    have huses : countUsesIn (bindName n) a = b.uses 0 := by
      rw [countUsesIn_eq _ he.plain.1 he.plain.2, he.uses n (Nat.lt_succ_self n),
        Nat.add_sub_cancel, Nat.sub_self]
    have hcount := (countUsesIn_eq (bindName n) he.plain.1 he.plain.2).symm.trans huses
    have hwrap : ∃ w, wrapUses indexedRename (bindName n) (b.uses 0) a = some w ∧
        Wrapped b n a w := by
      match hu : b.uses 0 with
      | 0 => exact ⟨_, rfl, he.wrapped_era (hcount.trans hu) hu⟩
      | 1 => exact ⟨_, rfl, he.wrapped_once (hcount.trans hu) hu⟩
      | k + 2 =>
        obtain ⟨w, hw, hwrapped⟩ := he.wrapped_chain (by omega)
        rw [hu] at hw
        exact ⟨w, hw, hwrapped⟩
    obtain ⟨w, hw, hwrapped⟩ := hwrap
    exact ⟨_, by simp [toAst, ha, huses, hw], hwrapped.erased he⟩
  | app _ _ ihf ihx =>
    obtain ⟨a, ha, hf⟩ := ihf
    obtain ⟨b, hb, hx⟩ := ihx
    exact ⟨_, by simp [toAst, ha, hb], hf.app hx⟩

theorem Erased.accepted_iff {t : Tm} {a : KernelAst} (h : Erased t 0 a) (ctr : Nat) :
    (∃ r, pass1 (a.alphaRename ctr) = .ok r) ↔ t.Separate := by
  have hclosed : a.Closed := eq_nil_iff_forall_not_mem.mpr fun z hz => by
    obtain ⟨e, he, -⟩ := h.free z hz
    exact absurd he (Nat.not_lt_zero e)
  rw [pass1_alphaRename_iff hclosed ctr, h.usedOnce]

/-- `to_ast` keeps the term, and pass 1 accepts it exactly if no use of a repeated variable
stands below another repeated binder. -/
theorem toAst_faithful_iff {t : Tm} (h : t.Lambda 0) (ctr : Nat) :
    (∃ a, toAst t 0 = some a ∧ (∃ r, pass1 (a.alphaRename ctr) = .ok r) ∧
      a.erasure id = some (t.named 0)) ↔ t.Separate := by
  obtain ⟨a, ha, he⟩ := toAst_erased h
  rw [← he.accepted_iff ctr]
  constructor
  · rintro ⟨a', ha', hok, -⟩
    cases ha.symm.trans ha'
    exact hok
  · exact fun hok => ⟨a, ha, hok, he.erasure id fun _ _ => rfl⟩

/-- `λx. x (λy. x y)`, with two uses of `x`, one of them below a binder that is used once. -/
def sharedAcross : Tm :=
  .lam (.sort 0) (.app (.var 0) (.lam (.sort 0) (.app (.var 1) (.var 0))))

theorem sharedAcross_faithful : ∃ a, toAst sharedAcross 0 = some a ∧
    (∃ r, pass1 (a.alphaRename 0) = .ok r) ∧ a.erasure id = some (sharedAcross.named 0) := by
  have hlambda : sharedAcross.Lambda 0 :=
    .lam _ (.app (.var (by omega)) (.lam _ (.app (.var (by omega)) (.var (by omega)))))
  exact (toAst_faithful_iff hlambda 0).mpr
    (by simp [sharedAcross, Tm.Separate, Tm.uses, Tm.clearUses])

/-- `λx. λy. (y y) (x x)`: both uses of `x` stand below the replicator of `y`. -/
def sharedBelowShared : Tm :=
  .lam (.sort 0) (.lam (.sort 0) (.app (.app (.var 0) (.var 0)) (.app (.var 1) (.var 1))))

theorem sharedBelowShared_rejected : sharedBelowShared.Lambda 0 ∧
    ¬∃ a, toAst sharedBelowShared 0 = some a ∧ (∃ r, pass1 (a.alphaRename 0) = .ok r) ∧
      a.erasure id = some (sharedBelowShared.named 0) := by
  have hlambda : sharedBelowShared.Lambda 0 := .lam _ (.lam _ (.app
    (.app (.var (by omega)) (.var (by omega))) (.app (.var (by omega)) (.var (by omega)))))
  obtain ⟨a, ha, he⟩ := toAst_erased hlambda
  refine ⟨hlambda, ?_⟩
  rintro ⟨a', ha', hok, -⟩
  cases ha.symm.trans ha'
  have hsep := (he.accepted_iff 0).mp hok
  simp [sharedBelowShared, Tm.Separate, Tm.uses, Tm.clearUses] at hsep

end Dnet.Kernel
