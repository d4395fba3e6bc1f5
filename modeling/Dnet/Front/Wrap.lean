import Dnet.Front.Linearise

/-!
# Linear terms from terms with repeated variables

`indexed_rename` and `count_uses_in` of dnx-lang/parser/helpers.rs and dnx-pyparse/lower.rs. Both
front ends call `wrap_uses` at every binder of a term, from the inside out (`Ast.linearise`):
every variable is then used once, and without the `Rep` and `Era` nodes the term is the one it
was. The names of the copies are made from the name that is copied, so this is right for terms
whose names contain no `__` (`Ast.linearise_spec`).
-/

namespace Dnet

open Lib List Ast

variable {V F : Type}

/-! ## The two traversals -/

namespace Ast

def indexedRename (name : Name) (names : List Name) : Ast V F → Nat → Option (Ast V F × Nat)
  | .name n, i => if n = name then do return (.name (← names[i]?), i + 1) else some (.name n, i)
  | .abs x body, i =>
    if x = name then some (.abs x body, i)
    else do
      let (body, i) ← body.indexedRename name names i
      return (.abs x body, i)
  | .app f x, i => do
    let (f, i) ← f.indexedRename name names i
    let (x, i) ← x.indexedRename name names i
    return (.app f x, i)
  | .rep e a b body, i => do
    let (e, i) ← e.indexedRename name names i
    if a = name ∨ b = name then return (.rep e a b body, i)
    let (body, i) ← body.indexedRename name names i
    return (.rep e a b body, i)
  | .era e body, i => do
    let (e, i) ← e.indexedRename name names i
    let (body, i) ← body.indexedRename name names i
    return (.era e body, i)
  | .fix e, i => do
    let (e, i) ← e.indexedRename name names i
    return (.fix e, i)
  | other, i => some (other, i)

def countUsesIn (name : Name) : Ast V F → Nat
  | .name n => if n = name then 1 else 0
  | .abs x body => if x = name then 0 else body.countUsesIn name
  | .app f x => f.countUsesIn name + x.countUsesIn name
  | .rep e a b body => e.countUsesIn name + if a = name ∨ b = name then 0 else body.countUsesIn name
  | .era e body => e.countUsesIn name + body.countUsesIn name
  | .fix e => e.countUsesIn name
  | .val _ | .fn _ | .perform _ _ | .handle _ _ => 0

theorem countUsesIn_eq (x : Name) : ∀ {t : Ast V F}, t.EffectFree →
    t.countUsesIn x = t.freeNames.count x
  | .name n, _ => by simp [countUsesIn, freeNames, count_cons, beq_iff_eq]
  | .abs y body, h => by
    rw [countUsesIn, freeNames, count_filter_ne, countUsesIn_eq x (t := body) h]
    simp only [eq_comm]
  | .app f t, h | .era f t, h => by
    rw [countUsesIn, freeNames, count_append, countUsesIn_eq x h.1, countUsesIn_eq x h.2]
  | .rep e a b body, h => by
    rw [countUsesIn, freeNames, count_append, count_filter_pair, countUsesIn_eq x h.1,
      countUsesIn_eq x h.2]
    simp only [eq_comm]
  | .fix t, h => countUsesIn_eq x (t := t) h
  | .val _, _ | .fn _, _ => rfl

/-- With the names for the uses of `x` from left to right, no name stands below a binder of it. -/
def Takes (x : Name) : List Name → Ast V F → Prop
  | l, .abs y body => y ≠ x → y ∉ l ∧ body.Takes x l
  | l, .app f t => f.Takes x (l.take (f.freeNames.count x)) ∧ t.Takes x (l.drop (f.freeNames.count x))
  | l, .rep e a b body => e.Takes x (l.take (e.freeNames.count x)) ∧ (a ≠ x ∧ b ≠ x →
      let m := l.drop (e.freeNames.count x)
      a ∉ m ∧ b ∉ m ∧ body.Takes x m)
  | l, .era e t => e.Takes x (l.take (e.freeNames.count x)) ∧ t.Takes x (l.drop (e.freeNames.count x))
  | l, .fix t => t.Takes x l
  | _, _ => True

theorem takes_of_around (x : Name) : ∀ {t : Ast V F} {l : List Name}, (∀ a ∈ l, a ∉ t.around x) →
    t.Takes x l
  | .abs y body, l, h => fun hy => by
    rw [around, if_neg hy] at h
    exact ⟨fun hm => h y hm mem_cons_self,
      takes_of_around x fun a ha hm => h a ha (mem_cons_of_mem y hm)⟩
  | .app f t, l, h | .era f t, l, h =>
    ⟨takes_of_around x fun a ha hm => h a (mem_of_mem_take ha) (mem_append_left _ hm),
      takes_of_around x fun a ha hm => h a (mem_of_mem_drop ha) (mem_append_right _ hm)⟩
  | .rep e a b body, l, h => by
    refine ⟨takes_of_around x fun c hc hm => h c (mem_of_mem_take hc) (mem_append_left _ hm),
      fun hab => ?_⟩
    rw [around, if_neg (not_or.mpr hab)] at h
    have hbody : ∀ c ∈ l.drop (e.freeNames.count x), c ∉ a :: b :: body.around x :=
      fun c hc hm => h c (mem_of_mem_drop hc) (mem_append_right _ hm)
    exact ⟨fun hm => hbody a hm (by simp), fun hm => hbody b hm (by simp),
      takes_of_around x fun c hc hm => hbody c hc (by simp [hm])⟩
  | .fix t, l, h => takes_of_around x (t := t) h
  | .name _, _, _ | .val _, _, _ | .fn _, _, _ | .perform _ _, _, _ | .handle _ _, _, _ => trivial

/-- `t'` is `t` with the names for the uses of `x`. Each binder is used once only if it has caught
none of them. -/
structure Taken (x : Name) (l : List Name) (t t' : Ast V F) : Prop where
  renamed : t.Takes x l → Renamed x l t t'
  takes : t.UsedOnce → t'.UsedOnce → t.Takes x l

section

variable {x : Name} {l m : List Name} {f f' t t' : Ast V F}

theorem Taken.abs {y : Name} (hy : y ≠ x) (h : Taken x l t t') :
    Taken x l (.abs y t) (.abs y t') where
  renamed ht := .abs hy (ht hy).1 (h.renamed (ht hy).2)
  takes hu hu' _ :=
    have ht := h.takes hu.2 hu'.2
    ⟨(h.renamed ht).not_mem_of_count hy hu.1 hu'.1, ht⟩

theorem Taken.app (hl : l.length = f.freeNames.count x) (hf : Taken x l f f')
    (ht : Taken x m t t') :
    Taken x (l ++ m) (.app f t) (.app f' t') ∧ Taken x (l ++ m) (.era f t) (.era f' t') := by
  have happ : (Ast.app f t).Takes x (l ++ m) ↔ f.Takes x l ∧ t.Takes x m := by
    rw [Takes, take_left' hl, drop_left' hl]
  exact ⟨⟨fun h => .app (hf.renamed (happ.mp h).1) (ht.renamed (happ.mp h).2),
      fun hu hu' => happ.mpr ⟨hf.takes hu.1 hu'.1, ht.takes hu.2 hu'.2⟩⟩,
    ⟨fun h => .era (hf.renamed (happ.mp h).1) (ht.renamed (happ.mp h).2),
      fun hu hu' => happ.mpr ⟨hf.takes hu.1 hu'.1, ht.takes hu.2 hu'.2⟩⟩⟩

theorem Taken.rep {a b : Name} (hab : a ≠ x ∧ b ≠ x) (hl : l.length = f.freeNames.count x)
    (hf : Taken x l f f') (ht : Taken x m t t') :
    Taken x (l ++ m) (.rep f a b t) (.rep f' a b t') := by
  have hrep : (Ast.rep f a b t).Takes x (l ++ m) ↔ f.Takes x l ∧ (a ≠ x ∧ b ≠ x →
      a ∉ m ∧ b ∉ m ∧ t.Takes x m) := by
    rw [Takes, take_left' hl, drop_left' hl]
  refine ⟨fun h => ?_, fun hu hu' => hrep.mpr ⟨hf.takes hu.1 hu'.1, fun _ => ?_⟩⟩
  · obtain ⟨he, hbody⟩ := hrep.mp h
    obtain ⟨ha, hb, hbody⟩ := hbody hab
    exact .rep ⟨hab.1, ha⟩ ⟨hab.2, hb⟩ (hf.renamed he) (ht.renamed hbody)
  · have hbody := ht.takes hu.2.2 hu'.2.2
    exact ⟨(ht.renamed hbody).not_mem_of_count hab.1 hu.2.1.2.1 hu'.2.1.2.1,
      (ht.renamed hbody).not_mem_of_count hab.2 hu.2.1.2.2 hu'.2.1.2.2, hbody⟩

end

theorem indexedRename_spec {x : Name} {names : List Name} : ∀ {t : Ast V F} {i : Nat},
    t.EffectFree → i + t.freeNames.count x ≤ names.length →
      ∃ t' l, IndexedRename (indexedRename x names) (Taken x) names i (t.freeNames.count x) t t' l
  | .name n, i, _, h => by
    by_cases hn : n = x
    · subst hn
      have hi : i + 1 ≤ names.length := by simpa [freeNames] using h
      have hget : names[i]? = some names[i] := List.getElem?_eq_getElem hi
      exact ⟨_, [names[i]], by simp [indexedRename, hget], ⟨fun _ => .name _, fun _ _ => trivial⟩,
        prefix_drop_singleton hget, by simp [freeNames]⟩
    · exact ⟨_, _, .skip ⟨fun _ => .refl _, fun _ _ => trivial⟩ (by simp [indexedRename, hn])
        (by simp [freeNames, hn])⟩
  | .abs y body, i, heff, h => by
    rw [freeNames, count_filter_ne] at h ⊢
    by_cases hy : y = x
    · exact ⟨_, _, .skip ⟨fun _ => .refl _, fun _ _ hne => absurd hy hne⟩
        (by simp [indexedRename, hy]) (by simp [hy])⟩
    · rw [if_neg (Ne.symm hy)] at h ⊢
      obtain ⟨t', l, hrun, hren, htaken, hlen⟩ := indexedRename_spec (t := body) heff h
      exact ⟨_, l, by simp [indexedRename, hy, hrun], .abs hy hren, htaken, hlen⟩
  | .app f t, i, heff, h => by
    rw [freeNames, count_append] at h ⊢
    obtain ⟨f', t', l, m, hf, ht, htaken, hlen⟩ :=
      IndexedRename.both h (indexedRename_spec heff.1) (indexedRename_spec heff.2)
    exact ⟨_, l ++ m, by simp [indexedRename, hf.run, ht.run, Nat.add_assoc],
      (hf.renamed.app hf.length ht.renamed).1, htaken, hlen⟩
  | .era f t, i, heff, h => by
    rw [freeNames, count_append] at h ⊢
    obtain ⟨f', t', l, m, hf, ht, htaken, hlen⟩ :=
      IndexedRename.both h (indexedRename_spec heff.1) (indexedRename_spec heff.2)
    exact ⟨_, l ++ m, by simp [indexedRename, hf.run, ht.run, Nat.add_assoc],
      (hf.renamed.app hf.length ht.renamed).2, htaken, hlen⟩
  | .rep e a b body, i, heff, h => by
    rw [freeNames, count_append, count_filter_pair] at h ⊢
    by_cases hab : a = x ∨ b = x
    · rw [if_pos (hab.imp Eq.symm Eq.symm)] at h ⊢
      obtain ⟨e', l, hrun, hren, htaken, hlen⟩ := indexedRename_spec heff.1 h
      have htake : l.take (e.freeNames.count x) = l := take_of_length_le hlen.le
      refine ⟨.rep e' a b body, l, by simp [indexedRename, hrun, hab],
        ⟨fun h => ?_, fun hu hu' => ?_⟩, htaken, hlen⟩
      · exact .shadowed a b body (hren.renamed (htake ▸ h.1))
      · exact ⟨htake.symm ▸ hren.takes hu.1 hu'.1, fun hne => absurd hab (not_or.mpr hne)⟩
    · rw [if_neg fun h => hab (h.imp Eq.symm Eq.symm)] at h ⊢
      obtain ⟨e', t', l, m, he, ht, htaken, hlen⟩ :=
        IndexedRename.both h (indexedRename_spec heff.1) (indexedRename_spec heff.2)
      rw [not_or] at hab
      exact ⟨_, l ++ m, by simp [indexedRename, he.run, ht.run, Nat.add_assoc, hab],
        .rep hab he.length he.renamed ht.renamed, htaken, hlen⟩
  | .fix t, i, heff, h => by
    obtain ⟨t', l, hrun, hren, htaken, hlen⟩ := indexedRename_spec (t := t) heff h
    exact ⟨_, l, by simp [indexedRename, hrun], ⟨fun h => .fix (hren.renamed h), hren.takes⟩, htaken,
      hlen⟩
  | .val _, _, _, _ | .fn _, _, _, _ =>
    ⟨_, _, .skip ⟨fun _ => .refl _, fun _ _ => trivial⟩ rfl rfl⟩

end Ast

variable {x : Name}

theorem Renamed.around {l : List Name} {t t' : Ast V F} (h : Renamed x l t t') (y : Name) :
    t'.around y = t.around y := by
  induction h with
  | refl t => rfl
  | name a => rfl
  | abs _ _ _ ih | shadowed _ _ _ _ ih => rw [Ast.around, Ast.around, ih]
  | app _ _ ihf iht | era _ _ ihf iht | rep _ _ _ _ ihf iht => rw [Ast.around, Ast.around, ihf, iht]
  | fix _ ih => exact ih

/-! ## Scopes -/

/-- In the scope of the binders `Γ`: every name is bound or one of `A`, a name of `D` is never
bound again in its own scope, and only names that are bound are copied and dropped. -/
def Ast.ScopedIn (D A : Name → Prop) (Γ : List Name) : Ast V F → Prop
  | .name n => n ∈ Γ ∨ A n
  | .abs x body => (D x → x ∉ Γ) ∧ body.ScopedIn D A (x :: Γ)
  | .app f x => f.ScopedIn D A Γ ∧ x.ScopedIn D A Γ
  | .rep (.name z) a b body => z ∈ Γ ∧ ¬D a ∧ ¬D b ∧ body.ScopedIn D A (b :: a :: Γ)
  | .era (.name z) body => z ∈ Γ ∧ body.ScopedIn D A Γ
  | .fix e => e.ScopedIn D A Γ
  | .val _ | .fn _ => True
  | _ => False

section

variable {D A : Name → Prop}

/-- More names in scope, but none of `D`. -/
structure Widens (D : Name → Prop) (Γ Γ' : List Name) : Prop where
  subset : Γ ⊆ Γ'
  kept : ∀ z ∈ Γ', D z → z ∈ Γ

theorem Widens.trans {Γ Γ' Γ'' : List Name} (h : Widens D Γ Γ') (h' : Widens D Γ' Γ'') :
    Widens D Γ Γ'' :=
  ⟨List.Subset.trans h.subset h'.subset, fun z hz hd => h.kept z (h'.kept z hz hd) hd⟩

theorem Widens.cons {Γ Γ' : List Name} (h : Widens D Γ Γ') (x : Name) : Widens D (x :: Γ) (x :: Γ') where
  subset := cons_subset_cons x h.subset
  kept z hz hd := by
    rcases mem_cons.mp hz with rfl | hz
    · exact mem_cons_self
    · exact mem_cons_of_mem x (h.kept z hz hd)

theorem Widens.new {x : Name} (hx : ¬D x) (Γ : List Name) : Widens D Γ (x :: Γ) where
  subset := subset_cons_self x Γ
  kept z hz hd := by
    rcases mem_cons.mp hz with rfl | hz
    · exact absurd hd hx
    · exact hz

theorem Ast.ScopedIn.widen : ∀ {t : Ast V F} {Γ Γ' : List Name}, t.ScopedIn D A Γ → Widens D Γ Γ' →
    t.ScopedIn D A Γ'
  | .name _, _, _, h, hw => h.imp_left fun h => hw.subset h
  | .abs x body, _, _, h, hw =>
    ⟨fun hd hx => h.1 hd (hw.kept x hx hd), Ast.ScopedIn.widen (t := body) h.2 (hw.cons x)⟩
  | .app f x, _, _, h, hw => ⟨Ast.ScopedIn.widen (t := f) h.1 hw, Ast.ScopedIn.widen (t := x) h.2 hw⟩
  | .rep (.name _) a b body, _, _, h, hw =>
    ⟨hw.subset h.1, h.2.1, h.2.2.1, Ast.ScopedIn.widen (t := body) h.2.2.2 ((hw.cons a).cons b)⟩
  | .era (.name _) body, _, _, h, hw => ⟨hw.subset h.1, Ast.ScopedIn.widen (t := body) h.2 hw⟩
  | .fix e, _, _, h, hw => Ast.ScopedIn.widen (t := e) h hw
  | .val _, _, _, _, _ | .fn _, _, _, _, _ => trivial

theorem Renamed.of_name {x z : Name} {l : List Name} {t : Ast V F} (h : Renamed x l (.name z) t) :
    ∃ z', t = .name z' ∧ (z' = z ∨ z' ∈ l) := by
  cases h with
  | refl => exact ⟨z, rfl, .inl rfl⟩
  | name a => exact ⟨a, rfl, .inr mem_cons_self⟩

theorem Renamed.scopedIn {x : Name} {l : List Name} {t t' : Ast V F} (h : Renamed x l t t')
    {Γ : List Name} (hl : ∀ a ∈ l, a ∈ Γ) (ht : t.ScopedIn D A Γ) : t'.ScopedIn D A Γ := by
  induction h generalizing Γ with
  | refl t => exact ht
  | name a => exact .inl (hl a mem_cons_self)
  | abs _ _ _ ih => exact ⟨ht.1, ih (fun a ha => mem_cons_of_mem _ (hl a ha)) ht.2⟩
  | app _ _ ihf iht =>
    exact ⟨ihf (fun a ha => hl a (mem_append_left _ ha)) ht.1,
      iht (fun a ha => hl a (mem_append_right _ ha)) ht.2⟩
  | @era l m e e' t t' he _ _ iht =>
    match e, ht with
    | .name z, ht =>
      obtain ⟨z', rfl, hz'⟩ := he.of_name
      exact ⟨hz'.elim (fun h => h ▸ ht.1) fun h => hl z' (mem_append_left _ h),
        iht (fun a ha => hl a (mem_append_right _ ha)) ht.2⟩
  | @rep a b l m e e' t t' _ _ he _ _ iht =>
    match e, ht with
    | .name z, ht =>
      obtain ⟨z', rfl, hz'⟩ := he.of_name
      exact ⟨hz'.elim (fun h => h ▸ ht.1) fun h => hl z' (mem_append_left _ h), ht.2.1, ht.2.2.1,
        iht (fun c hc => mem_cons_of_mem _ (mem_cons_of_mem _
          (hl c (mem_append_right _ hc)))) ht.2.2.2⟩
  | @shadowed a b l e e' t he _ =>
    match e, ht with
    | .name z, ht =>
      obtain ⟨z', rfl, hz'⟩ := he.of_name
      exact ⟨hz'.elim (fun h => h ▸ ht.1) (hl z'), ht.2⟩
  | fix _ ih => exact ih hl ht

theorem nestReps_scopedIn : ∀ {names : List Name} {x : Name} {body w : Ast V F} {Γ : List Name},
    nestReps (.name x) names body = some w → x ∈ Γ → (∀ a ∈ names, ¬D a ∧ ¬D (restName a)) →
    (∀ Γ', Widens D Γ Γ' → (∀ a ∈ names, a ∈ Γ') → body.ScopedIn D A Γ') → w.ScopedIn D A Γ
  | [a, b], x, body, _, Γ, hw, hx, hD, hbody => by
    cases hw
    have ha := (hD a (by simp)).1
    have hb := (hD b (by simp)).1
    exact ⟨hx, ha, hb, hbody _ ((Widens.new ha Γ).trans (Widens.new hb _)) (by simp)⟩
  | a :: b :: c :: more, x, body, _, Γ, hw, hx, hD, hbody => by
    obtain ⟨inner, hin, hw⟩ := Option.bind_eq_some_iff.mp hw
    cases hw
    have ha := (hD a (by simp)).1
    have hb := (hD b (by simp)).2
    have hwiden := (Widens.new ha Γ).trans (Widens.new hb _)
    refine ⟨hx, ha, hb, nestReps_scopedIn hin mem_cons_self
      (fun d hd => hD d (mem_cons_of_mem a hd)) fun Γ' hΓ' hnames => ?_⟩
    exact hbody Γ' (hwiden.trans hΓ') (forall_mem_cons.mpr ⟨hΓ'.subset (by simp), hnames⟩)

end

/-! ## One binder -/

/-- `w` is the body `t` of a binder `x` after `wrap_uses`. -/
structure Wraps (x : Name) (t w : Ast V F) : Prop where
  effectFree : w.EffectFree
  fixFree : t.FixFree → w.FixFree
  count : ∀ z, w.freeNames.count z = if z = x then 1 else t.freeNames.count z
  usedOnce : w.UsedOnce ↔ t.UsedOnce
  erasure : ∀ σ, w.erasure σ = t.erasure σ
  around : ∀ y, ∀ z ∈ w.around y, z ∈ t.around y ∨ CopyOf x z
  scopedIn : ∀ {D A : Name → Prop} {Γ : List Name}, (∀ z, CopyOf x z → ¬D z) → x ∈ Γ →
    t.ScopedIn D A Γ → w.ScopedIn D A Γ

theorem Wraps.era {t : Ast V F} (heff : t.EffectFree) (hx : t.freeNames.count x = 0) :
    Wraps x t (.era (.name x) t) where
  effectFree := ⟨trivial, heff⟩
  fixFree h := ⟨trivial, h⟩
  count z := by
    rw [freeNames, count_append]
    by_cases hz : z = x
    · subst hz
      simp [freeNames, hx]
    · simp [freeNames, hz, Ne.symm hz]
  usedOnce := by simp [Ast.UsedOnce]
  erasure _ := rfl
  around y z hz := .inl (by simpa [Ast.around] using hz)
  scopedIn _ hx h := ⟨hx, h⟩

theorem Wraps.once {t : Ast V F} (heff : t.EffectFree) (hx : t.freeNames.count x = 1) :
    Wraps x t t where
  effectFree := heff
  fixFree h := h
  count z := by
    split
    · next h => rw [h, hx]
    · rfl
  usedOnce := Iff.rfl
  erasure _ := rfl
  around _ _ hz := .inl hz
  scopedIn _ _ h := h

section

variable {x : Name} {t t' : Ast V F} {n : Nat}

theorem Wraps.chain {w : Ast V F} (heff : t.EffectFree) (hx : t.freeNames.count x = n)
    (hren : Renamed x (copies x n) t t') (hw : Copied x n (copies x n) t t' w) : Wraps x t w := by
  have hlen : (copies x n).length = n := by simp
  have hnames : ∀ a ∈ copies x n, CopyOf x a ∧ CopyOf x (restName a) := fun a => copyOf_of_mem
  constructor
  case effectFree =>
    exact nestReps_rule (fun _ _ _ _ _ _ h => ⟨trivial, h⟩) hnames (hren.effectFree heff) hw.run
  case fixFree =>
    exact fun h =>
      nestReps_rule (fun _ _ _ _ _ _ h => ⟨trivial, h⟩) hnames (hren.fixFree h) hw.run
  case count =>
    intro z
    split
    · next hz =>
      have := hw.own
      subst hz
      omega
    · next hz => exact hw.count z hz
  case usedOnce =>
    rw [hw.usedOnce]
    exact and_iff_right hlen
  case erasure => exact hw.erasure
  case around =>
    intro y
    refine nestReps_rule (P := fun w => ∀ z ∈ w.around y, z ∈ t.around y ∨ CopyOf x z)
      (fun _ a b w ha hb ih z hz => ?_) hnames (fun z hz => .inl (hren.around y ▸ hz)) hw.run
    simp only [Ast.around, nil_append] at hz
    split at hz
    · cases hz
    · simp only [mem_cons] at hz
      rcases hz with rfl | rfl | hz
      · exact .inr ha
      · exact .inr hb
      · exact ih z hz
  case scopedIn =>
    intro D A Γ hD hx hscoped
    refine nestReps_scopedIn hw.run hx (fun a ha => ⟨hD a (hnames a ha).1, hD _ (hnames a ha).2⟩) ?_
    exact fun Γ' hΓ' hnames => hren.scopedIn hnames (hscoped.widen hΓ')

end

theorem wrapUses_chain {t : Ast V F} {k : Nat} (heff : t.EffectFree)
    (hx : t.freeNames.count x = k + 2) :
    ∃ t', wrapUses indexedRename x (k + 2) t = nestReps (.name x) (copies x (k + 2)) t' ∧
      Taken x (copies x (k + 2)) t t' := by
  have hle : 0 + t.freeNames.count x ≤ (copies x (k + 2)).length := by simp [hx]
  obtain ⟨t', l, hren⟩ := indexedRename_spec heff hle
  have htaken : l <+: copies x (k + 2) := hren.taken
  obtain rfl : l = copies x (k + 2) := htaken.eq_of_length (by rw [hren.length, hx]; simp)
  exact ⟨t', by simp [wrapUses, buildRepChain, hren.run], hren.renamed⟩

/-- The names that `wrap_uses` makes for `n` uses of `x` clash with none of the body. -/
structure FreshCopies (x : Name) (n : Nat) (t : Ast V F) : Prop where
  free : ∀ z ∈ chainNames x n, z ∉ t.freeNames
  takes : t.Takes x (copies x n)

theorem wrapUses_of_fresh {t : Ast V F} (heff : t.EffectFree)
    (hfresh : 2 ≤ t.freeNames.count x → FreshCopies x (t.freeNames.count x) t) :
    ∃ w, wrapUses indexedRename x (t.countUsesIn x) t = some w ∧ Wraps x t w := by
  rw [countUsesIn_eq x heff]
  match hx : t.freeNames.count x with
  | 0 => exact ⟨_, rfl, .era heff hx⟩
  | 1 => exact ⟨_, rfl, .once heff hx⟩
  | k + 2 =>
    rw [hx] at hfresh
    have hfresh := hfresh (by omega)
    obtain ⟨t', hwrap, htaken⟩ := wrapUses_chain heff hx
    have hren := htaken.renamed hfresh.takes
    obtain ⟨w, hw⟩ := hren.copied prefix_rfl (by omega) hfresh.free
    exact ⟨w, hwrap.trans hw.run, .chain heff hx hren hw⟩

theorem wrapUses_spec {t : Ast V F} (heff : t.EffectFree)
    (hfree : ∀ z, CopyOf x z → z ∉ t.freeNames) (haround : ∀ z, CopyOf x z → z ∉ t.around x) :
    ∃ w, wrapUses indexedRename x (t.countUsesIn x) t = some w ∧ Wraps x t w :=
  wrapUses_of_fresh heff fun _ => ⟨fun z hz => hfree z (.of_mem_chainNames hz),
    t.takes_of_around x fun a ha => haround a (copyOf_of_mem ha).1⟩

theorem freshCopies_of_usedOnce {t t' w : Ast V F} {n : Nat} (hn : 2 ≤ n) (ht : t.UsedOnce)
    (htaken : Taken x (copies x n) t t') (hw : nestReps (.name x) (copies x n) t' = some w)
    (hused : w.UsedOnce) : FreshCopies x n t := by
  obtain ⟨w', hw', hchain⟩ := nestReps_chain (copies x n) x t' (by simpa using hn)
  obtain rfl : w = w' := Option.some.inj (hw.symm.trans hw')
  have hnames := chainNames_copies x n
  have hrest := hchain.fresh hnames hused
  obtain ⟨hcopies, hused'⟩ := (hchain.usedOnce hnames hrest).mp hused
  have htakes := htaken.takes ht hused'
  have hren := htaken.renamed htakes
  refine ⟨fun z hz hm => ?_, htakes⟩
  have hne : z ≠ x := (CopyOf.of_mem_chainNames hz).ne
  rcases mem_append.mp hz with hz | hz
  · have hc := hren.count z
    rw [if_neg hne, hcopies z hz] at hc
    have := count_pos_iff.mpr hm
    have := count_pos_iff.mpr hz
    omega
  · rw [← count_pos_iff, ← hren.count_of_not_mem ⟨hne, hnames.rest z hz⟩, count_pos_iff] at hm
    exact hrest z hz hm

/-- `wrap_uses` makes `x` linear over the body `t`: no name is missing, the binders of the result
are used once, and without the copies it is `λx. t`. -/
def Linearised (x : Name) (t : Ast V F) : Prop :=
  ∃ w, wrapUses indexedRename x (t.countUsesIn x) t = some w ∧ (Ast.abs x w).UsedOnce ∧
    ∀ σ, (Ast.abs x w).erasure σ = (Ast.abs x t).erasure σ

theorem wrapUses_linearised_iff {t : Ast V F} (x : Name) (heff : t.EffectFree) (ht : t.UsedOnce) :
    Linearised x t ↔ (2 ≤ t.freeNames.count x → FreshCopies x (t.freeNames.count x) t) := by
  constructor
  · rintro ⟨w, hw, hused, -⟩ hn
    obtain ⟨k, hk⟩ := Nat.exists_eq_add_of_le' hn
    rw [countUsesIn_eq x heff, hk] at hw
    obtain ⟨t', hwrap, htaken⟩ := wrapUses_chain heff hk
    exact hk ▸ freshCopies_of_usedOnce (by omega) ht htaken (hwrap.symm.trans hw) hused.2
  · intro hfresh
    obtain ⟨w, hw, hwraps⟩ := wrapUses_of_fresh heff hfresh
    refine ⟨w, hw, ⟨by rw [hwraps.count, if_pos rfl], hwraps.usedOnce.mpr ht⟩, fun σ => ?_⟩
    rw [Ast.erasure, Ast.erasure, hwraps.erasure]

/-- `x x y`. -/
def twoUses (y : Name) : Ast Empty Empty := .app (.app (.name "x") (.name "x")) (.name y)

theorem wrapUses_linearised_apart : Linearised "x" (twoUses "y") :=
  (wrapUses_linearised_iff (t := twoUses "y") "x" ⟨⟨trivial, trivial⟩, trivial⟩
    ⟨⟨trivial, trivial⟩, trivial⟩).mpr fun _ => ⟨by decide, ⟨trivial, trivial⟩, trivial⟩

/-- The first copy of `x` has the name of the third variable. -/
theorem wrapUses_copy_clash : (twoUses "x__0").EffectFree ∧ (twoUses "x__0").UsedOnce ∧
    ¬Linearised "x" (twoUses "x__0") := by
  refine ⟨⟨⟨trivial, trivial⟩, trivial⟩, ⟨⟨trivial, trivial⟩, trivial⟩, ?_⟩
  rintro ⟨w, hw, hused, -⟩
  have hrun : wrapUses indexedRename "x" ((twoUses "x__0").countUsesIn "x") (twoUses "x__0") =
      some (.rep (.name "x") "x__0" "x__1" (.app (.app (.name "x__0") (.name "x__1"))
        (.name "x__0"))) := rfl
  obtain rfl := Option.some.inj (hrun.symm.trans hw)
  exact absurd hused.2.2.1.2.1 (by decide)

/-! ## Every binder -/

/-- A name without `__`, so not the name of a copy. -/
def Clean (z : Name) : Prop := ¬['_', '_'] <:+: z.toList

instance (z : Name) : Decidable (Clean z) := inferInstanceAs (Decidable (¬_))

theorem CopyOf.not_clean {x z : Name} (h : CopyOf x z) : ¬Clean z := by
  obtain ⟨i, rfl | rfl⟩ := h
  · exact fun h => h ⟨x.toList, (toString i).toList, by simp [copyName]⟩
  · exact fun h => h ⟨[], ['r', 'r', '_'] ++ (copyName x i).toList, by simp [restName]⟩

theorem CopyOf.inj {x y z : Name} (h : CopyOf x z) (h' : CopyOf y z) (hx : Clean x) (hy : Clean y) :
    x = y := by
  have hrest : ∀ (u : Name) (i : Nat), restName (copyName u i) = copyName (restName u) i := fun u i => by
    simp [restName, copyName, String.append_assoc]
  have hclean : ∀ u, ¬Clean (restName u) := fun u h =>
    h ⟨[], ['r', 'r', '_'] ++ u.toList, by simp [restName]⟩
  obtain ⟨i, rfl | rfl⟩ := h <;> obtain ⟨j, hj | hj⟩ := h'
  · exact (copyName_inj hj).1
  · rw [hrest] at hj
    exact absurd ((copyName_inj hj).1 ▸ hx) (hclean y)
  · rw [hrest] at hj
    exact absurd ((copyName_inj hj).1.symm ▸ hy) (hclean x)
  · exact (copyName_inj (restName_inj hj)).1

/-- `wrap_uses` at every binder, from the inside out. -/
def Ast.linearise : Ast V F → Option (Ast V F)
  | .abs x body => do
    let body ← body.linearise
    let body ← wrapUses indexedRename x (body.countUsesIn x) body
    return .abs x body
  | .app f x => do return .app (← f.linearise) (← x.linearise)
  | .fix e => do return .fix (← e.linearise)
  | other => some other

/-- No `Rep` and no `Era`, and no name that could be the name of a copy. -/
def Ast.Plain : Ast V F → Prop
  | .name x => Clean x
  | .abs x body => Clean x ∧ body.Plain
  | .app f x => f.Plain ∧ x.Plain
  | .fix e => e.Plain
  | .val _ | .fn _ => True
  | .rep _ _ _ _ | .era _ _ | .perform _ _ | .handle _ _ => False

instance Ast.decidablePlain : ∀ t : Ast V F, Decidable t.Plain
  | .name x => inferInstanceAs (Decidable (Clean x))
  | .abs x body =>
    have := body.decidablePlain
    inferInstanceAs (Decidable (Clean x ∧ body.Plain))
  | .app f x =>
    have := f.decidablePlain
    have := x.decidablePlain
    inferInstanceAs (Decidable (f.Plain ∧ x.Plain))
  | .fix e => e.decidablePlain
  | .val _ | .fn _ => .isTrue trivial
  | .rep _ _ _ _ | .era _ _ | .perform _ _ | .handle _ _ => .isFalse id

theorem Ast.Plain.clean : ∀ {t : Ast V F}, t.Plain → ∀ z ∈ t.freeNames, Clean z
  | .name _, h, _, hz => mem_singleton.mp hz ▸ h
  | .abs _ body, h, z, hz => Ast.Plain.clean (t := body) h.2 z (mem_of_mem_filter hz)
  | .app f x, h, z, hz => (mem_append.mp hz).elim (Ast.Plain.clean (t := f) h.1 z)
      (Ast.Plain.clean (t := x) h.2 z)
  | .fix e, h, z, hz => Ast.Plain.clean (t := e) h z hz

/-- `w` is the linear form of `t`. -/
structure LinearForm (t w : Ast V F) : Prop where
  effectFree : w.EffectFree
  fixFree : t.FixFree → w.FixFree
  count : ∀ z, w.freeNames.count z = t.freeNames.count z
  usedOnce : w.UsedOnce
  erasure : ∀ σ, w.erasure σ = t.erasure σ
  around : ∀ x, Clean x → ∀ z ∈ w.around x, ¬CopyOf x z
  scopedIn : ∀ {D A : Name → Prop} {Γ : List Name}, (∀ z, D z → Clean z) → t.ScopedIn D A Γ →
    w.ScopedIn D A Γ

theorem Ast.linearise_spec : ∀ {t : Ast V F}, t.Plain → ∃ w, t.linearise = some w ∧ LinearForm t w
  | .name _, _ | .val _, _ | .fn _, _ =>
    ⟨_, rfl, trivial, fun h => h, fun _ => rfl, trivial, fun _ => rfl, nofun, fun _ h => h⟩
  | .fix e, h => by
    obtain ⟨w, hw, hl⟩ := linearise_spec (t := e) h
    exact ⟨.fix w, by simp [linearise, hw], hl.effectFree, fun h => h.elim, hl.count, hl.usedOnce,
      fun σ => by rw [erasure, erasure, hl.erasure], hl.around, hl.scopedIn⟩
  | .app f x, h => by
    obtain ⟨f', hf, hlf⟩ := linearise_spec h.1
    obtain ⟨x', hx, hlx⟩ := linearise_spec h.2
    refine ⟨.app f' x', by simp [linearise, hf, hx], ⟨hlf.effectFree, hlx.effectFree⟩,
      fun h => ⟨hlf.fixFree h.1, hlx.fixFree h.2⟩, ?_,
      ⟨hlf.usedOnce, hlx.usedOnce⟩, ?_, ?_, fun hD h => ⟨hlf.scopedIn hD h.1, hlx.scopedIn hD h.2⟩⟩
    · intro z
      rw [freeNames, freeNames, count_append, count_append, hlf.count, hlx.count]
    · intro σ
      rw [erasure, erasure, hlf.erasure, hlx.erasure]
    · intro y hy z hz
      exact (mem_append.mp hz).elim (hlf.around y hy z) (hlx.around y hy z)
  | .abs x body, h => by
    obtain ⟨b, hb, hl⟩ := linearise_spec h.2
    have hfree : ∀ z, CopyOf x z → z ∉ b.freeNames := fun z hz hm => by
      have hpos := count_pos_iff.mpr hm
      rw [hl.count] at hpos
      exact hz.not_clean (h.2.clean z (count_pos_iff.mp hpos))
    obtain ⟨w, hw, hwraps⟩ := wrapUses_spec hl.effectFree hfree
      fun z hz hm => hl.around x h.1 z hm hz
    refine ⟨.abs x w, by simp [linearise, hb, hw], hwraps.effectFree,
      fun h => hwraps.fixFree (hl.fixFree h), ?_, ?_, ?_, ?_, ?_⟩
    · intro z
      rw [freeNames, freeNames, count_filter_ne, count_filter_ne, hwraps.count, hl.count]
      split <;> simp_all
    · exact ⟨by rw [hwraps.count, if_pos rfl], hwraps.usedOnce.mpr hl.usedOnce⟩
    · intro σ
      rw [erasure, erasure, hwraps.erasure, hl.erasure]
    · intro y hy z hz
      rw [Ast.around] at hz
      split at hz
      · cases hz
      · next hne =>
        rcases mem_cons.mp hz with rfl | hz
        · exact fun hc => hc.not_clean h.1
        · rcases hwraps.around y z hz with hz | hz
          · exact hl.around y hy z hz
          · exact fun hc => hne (hz.inj hc h.1 hy)
    · intro D A Γ hD hs
      exact ⟨hs.1, hwraps.scopedIn (fun z hz hd => hz.not_clean (hD z hd)) mem_cons_self
        (hl.scopedIn hD hs.2)⟩

end Dnet
