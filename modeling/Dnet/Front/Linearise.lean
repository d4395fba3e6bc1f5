import Dnet.Front.Linearity
import Mathlib.Data.List.Nodup

/-!
# Replicators for repeated variables

The front ends make a term linear binder by binder: `wrap_uses` puts an eraser below a binder
that is not used, and a chain of replicators below one that is used several times
(dnx-lang/parser/helpers.rs, dnx-pyparse/lower.rs, dnx-proof/erase.rs).

The source indexes a vector of names while it renames; `none` stands for the panic of an
index that is out of range.
-/

namespace Dnet

open Lib List Function

variable {V F : Type}

/-! ## The chain -/

/-- The name of the copy `i` of `x`. -/
def copyName (x : Name) (i : Nat) : Name := x ++ "__" ++ toString i

/-- The name that stands for the copies from `x` on. -/
def restName (x : Name) : Name := "__rr_" ++ x

/-- `none` for fewer than two names. -/
def nestReps (expr : Ast V F) : List Name → Ast V F → Option (Ast V F)
  | [a, b], body => some (.rep expr a b body)
  | a :: b :: c :: more, body => do
    let inner ← nestReps (.name (restName b)) (b :: c :: more) body
    return .rep expr a (restName b) inner
  | _, _ => none

/-- `build_rep_chain`, over the traversal that renames the uses of a name from left to
right. -/
def buildRepChain (indexedRename : Name → List Name → Ast V F → Nat → Option (Ast V F × Nat))
    (name : Name) (uses : Nat) (body : Ast V F) : Option (Ast V F) :=
  if uses ≤ 1 then some body
  else do
    let split := (List.range uses).map (copyName name)
    let (body, _) ← indexedRename name split body 0
    nestReps (.name name) split body

def wrapUses (indexedRename : Name → List Name → Ast V F → Nat → Option (Ast V F × Nat))
    (name : Name) (uses : Nat) (body : Ast V F) : Option (Ast V F) :=
  match uses with
  | 0 => some (.era (.name name) body)
  | 1 => some body
  | n + 2 => buildRepChain indexedRename name (n + 2) body

/-! ## Names of the chain -/

theorem stem_underscores : Stem "__" := ⟨['_'], '_', rfl, rfl⟩

variable {x z : Name} {i n : Nat} {names l : List Name}

theorem copyName_inj {y : Name} {j : Nat} (h : copyName x i = copyName y j) : x = y ∧ i = j := by
  obtain ⟨hx, hi⟩ := (stem_underscores.append x).toString_inj (stem_underscores.append y) h
  exact ⟨(String.append_left_inj _).mp hx, hi⟩

theorem restName_inj {y : Name} (h : restName x = restName y) : x = y :=
  (String.append_right_inj _).mp h

theorem restName_ne_self (x : Name) : restName x ≠ x := fun h => by
  have := congrArg String.length h
  simp [restName] at this

theorem restName_copyName_ne (x : Name) (i j : Nat) : restName (copyName x i) ≠ copyName x j := by
  intro h
  have hstem : restName (copyName x i) = (restName x ++ "__") ++ toString i := by
    simp [restName, copyName, String.append_assoc]
  rw [hstem] at h
  exact restName_ne_self x (copyName_inj (x := restName x) h).1

theorem copyName_ne (x : Name) (i : Nat) : copyName x i ≠ x := fun h => by
  have := congrArg String.length h
  simp [copyName, String.append_assoc] at this

/-! ## The names below a chain -/

/-- `t` copies `x` to the names over the body, and the rest of the copies has the names `rests`. -/
inductive Chain (body : Ast V F) : Name → List Name → List Name → Ast V F → Prop where
  | pair {x a b : Name} : Chain body x [a, b] [] (.rep (.name x) a b body)
  | cons {x a r : Name} {names rests : List Name} {t : Ast V F} :
      Chain body r names rests t → Chain body x (a :: names) (r :: rests) (.rep (.name x) a r t)

structure ChainNames (names rests : List Name) : Prop where
  nodup : names.Nodup
  rest : ∀ r ∈ rests, r ∉ names

theorem ChainNames.tail {a r : Name} {rests : List Name}
    (h : ChainNames (a :: names) (r :: rests)) : ChainNames names rests :=
  ⟨(nodup_cons.mp h.nodup).2, fun b hb hm =>
    h.rest b (mem_cons_of_mem r hb) (mem_cons_of_mem a hm)⟩

theorem nodup_copies (x : Name) (n : Nat) : ((List.range n).map (copyName x)).Nodup :=
  List.Nodup.map (fun _ _ he => (copyName_inj he).2) nodup_range

/-- The names that `nest_reps` makes for the rest of a chain. -/
def restNames (names : List Name) : List Name := names.tail.dropLast.map restName

theorem exists_of_mem_restNames {r : Name} (h : r ∈ restNames names) :
    ∃ a ∈ names, r = restName a := by
  obtain ⟨a, ha, rfl⟩ := mem_map.mp h
  exact ⟨a, mem_of_mem_tail (dropLast_subset _ ha), rfl⟩

theorem chainNames_copies (x : Name) (n : Nat) :
    ChainNames ((List.range n).map (copyName x)) (restNames ((List.range n).map (copyName x))) where
  nodup := nodup_copies x n
  rest r hr hm := by
    obtain ⟨_, ha, rfl⟩ := exists_of_mem_restNames hr
    obtain ⟨i, -, rfl⟩ := mem_map.mp ha
    obtain ⟨j, -, he⟩ := mem_map.mp hm
    exact restName_copyName_ne x i j he.symm

theorem count_filter_pair (a b z : Name) (names : List Name) :
    (names.filter fun y => y != a && y != b).count z =
      if z = a ∨ z = b then 0 else names.count z := by
  split
  · next h =>
    refine count_eq_zero_of_not_mem fun hm => ?_
    have := (mem_filter.mp hm).2
    rcases h with rfl | rfl <;> simp at this
  · next h =>
    rw [not_or] at h
    exact count_filter (by simp [h.1, h.2])

theorem nestReps_chain : ∀ (names : List Name) (x : Name) (body : Ast V F), 2 ≤ names.length →
    ∃ t, nestReps (.name x) names body = some t ∧ Chain body x names (restNames names) t
  | [_, _], _, _, _ => ⟨_, rfl, .pair⟩
  | a :: b :: c :: more, x, body, _ => by
    obtain ⟨t, ht, hc⟩ := nestReps_chain (b :: c :: more) (restName b) body (by simp)
    exact ⟨_, by simp [nestReps, ht], .cons hc⟩

section

variable {body t : Ast V F} {x : Name} {names rests : List Name}

theorem Chain.count (h : Chain body x names rests t) (hn : ChainNames names rests)
    (hfree : ∀ r ∈ rests, r ∉ body.freeNames) (z : Name) :
    t.freeNames.count z = [x].count z + if z ∈ names then 0 else body.freeNames.count z := by
  induction h with
  | pair =>
    rw [Ast.freeNames, count_append, count_filter_pair]
    simp [Ast.freeNames]
  | @cons x a r names rests t h ih =>
    obtain ⟨hr, hrest⟩ := forall_mem_cons.mp hfree
    have hnot := hn.rest r mem_cons_self
    rw [mem_cons, not_or] at hnot
    rw [Ast.freeNames, count_append, count_filter_pair, ih hn.tail hrest]
    by_cases hz : z = r
    · simp [Ast.freeNames, hz, hnot, count_eq_zero_of_not_mem hr]
    · by_cases hza : z = a <;> simp [Ast.freeNames, hz, hza, Ne.symm hz]

theorem Chain.usedOnce (h : Chain body x names rests t) (hn : ChainNames names rests)
    (hfree : ∀ r ∈ rests, r ∉ body.freeNames) :
    t.UsedOnce ↔ (∀ a ∈ names, body.freeNames.count a = 1) ∧ body.UsedOnce := by
  induction h with
  | @pair x a b =>
    have hab : a ≠ b := fun he => (nodup_cons.mp hn.nodup).1 (by simp [he])
    simp [Ast.UsedOnce, PairUsedOnce, hab, and_assoc]
  | @cons x a r names rests t h ih =>
    obtain ⟨hr, hrest⟩ := forall_mem_cons.mp hfree
    have hnot := hn.rest r mem_cons_self
    rw [mem_cons, not_or] at hnot
    have hone : t.freeNames.count r = 1 := by
      rw [h.count hn.tail hrest, if_neg hnot.2, count_eq_zero_of_not_mem hr, count_singleton_self]
    have hcopy : t.freeNames.count a = body.freeNames.count a := by
      rw [h.count hn.tail hrest, if_neg (nodup_cons.mp hn.nodup).1]
      simp [hnot.1]
    simp only [Ast.UsedOnce, PairUsedOnce, hone, hcopy, ih hn.tail hrest, forall_mem_cons]
    exact ⟨fun h => ⟨⟨h.2.1.2.1, h.2.2.1⟩, h.2.2.2⟩,
      fun h => ⟨trivial, ⟨Ne.symm hnot.1, h.1.1, trivial⟩, h.1.2, h.2⟩⟩

theorem Chain.fresh (h : Chain body x names rests t) (hn : ChainNames names rests)
    (ht : t.UsedOnce) : ∀ r ∈ rests, r ∉ body.freeNames := by
  induction h with
  | pair => exact nofun
  | @cons x a r names rests t h ih =>
    have hrest := ih hn.tail ht.2.2
    have hnot := hn.rest r mem_cons_self
    rw [mem_cons, not_or] at hnot
    have hone := ht.2.1.2.2
    rw [h.count hn.tail hrest, if_neg hnot.2, count_singleton_self] at hone
    exact forall_mem_cons.mpr ⟨count_eq_zero.mp (by omega), hrest⟩

end

theorem nestReps_rule {Q : Name → Prop} {P : Ast V F → Prop}
    (hrep : ∀ (x a b : Name) (t : Ast V F), Q a → Q b → P t → P (.rep (.name x) a b t)) :
    ∀ {names : List Name} {x : Name} {body w : Ast V F}, (∀ a ∈ names, Q a ∧ Q (restName a)) →
      P body → nestReps (.name x) names body = some w → P w
  | [a, b], x, body, _, hQ, hb, hw => by
    cases hw
    exact hrep x a b body (hQ a (by simp)).1 (hQ b (by simp)).1 hb
  | a :: b :: c :: more, x, body, _, hQ, hb, hw => by
    obtain ⟨inner, hin, hw⟩ := Option.bind_eq_some_iff.mp hw
    cases hw
    exact hrep x a (restName b) inner (hQ a (by simp)).1 (hQ b (by simp)).2
      (nestReps_rule hrep (fun d hd => hQ d (mem_cons_of_mem a hd)) hb hin)

/-! ## Removing the chains -/

def Ast.asName : Ast V F → Option Name
  | .name x => some x
  | _ => none

/-- The term without its `Rep` and `Era` nodes: a copy of a name is that name. `none` if a
term that is no name is copied. -/
def Ast.erasure (σ : Name → Name) : Ast V F → Option (Ast V F)
  | .name x => some (.name (σ x))
  | .abs x body => (body.erasure (update σ x x)).map (.abs x)
  | .app f x => do return .app (← f.erasure σ) (← x.erasure σ)
  | .rep e a b body =>
    (e.asName.map σ).bind fun y => body.erasure (update (update σ a y) b y)
  | .era _ body => body.erasure σ
  | .fix inner => (inner.erasure σ).map .fix
  | .val v => some (.val v)
  | .fn f => some (.fn f)
  | .perform _ _ | .handle _ _ => none

/-- What is read depends on the free names only. -/
theorem Ast.erasure_congr : ∀ {t : Ast V F} {σ τ : Name → Name},
    (∀ z ∈ t.freeNames, σ z = τ z) → t.erasure σ = t.erasure τ
  | .name x, σ, τ, h => by rw [Ast.erasure, Ast.erasure, h x (mem_singleton_self x)]
  | .abs x body, σ, τ, h => by
    rw [Ast.erasure, Ast.erasure, Ast.erasure_congr (t := body)]
    intro z hz
    by_cases hx : z = x
    · simp [hx]
    · simp [hx, h z (mem_filter.mpr ⟨hz, by simpa using hx⟩)]
  | .app f t, σ, τ, h => by
    rw [Ast.erasure, Ast.erasure, Ast.erasure_congr fun z hz => h z (mem_append_left _ hz),
      Ast.erasure_congr fun z hz => h z (mem_append_right _ hz)]
  | .era e body, σ, τ, h => Ast.erasure_congr (t := body) fun z hz => h z (mem_append_right _ hz)
  | .rep e a b body, σ, τ, h => by
    have he : e.asName.map σ = e.asName.map τ := by
      cases e with
      | name x => exact congrArg some (h x mem_cons_self)
      | _ => rfl
    rw [Ast.erasure, Ast.erasure, he]
    refine congrArg _ (funext fun y => Ast.erasure_congr (t := body) fun z hz => ?_)
    by_cases hb : z = b
    · simp [hb]
    by_cases ha : z = a
    · simp [ha, update]
    · simp [ha, hb, h z (mem_append_right _ (mem_filter.mpr ⟨hz, by simp [ha, hb]⟩))]
  | .fix t, σ, τ, h => by rw [Ast.erasure, Ast.erasure, Ast.erasure_congr (t := t) h]
  | .val _, _, _, _ | .fn _, _, _, _ | .perform _ _, _, _, _ | .handle _ _, _, _, _ => rfl

/-- The copies are read as the name that is copied. -/
theorem Chain.erasure {body t : Ast V F} {rests : List Name}
    (h : Chain body x names rests t) (hn : ChainNames names rests) (σ : Name → Name) :
    ∃ σ', t.erasure σ = body.erasure σ' ∧ (∀ a ∈ names, σ' a = σ x) ∧
      ∀ z, z ∉ names → z ∉ rests → σ' z = σ z := by
  induction h generalizing σ with
  | @pair x a b =>
    refine ⟨_, rfl, fun z hz => ?_, fun z hz _ => ?_⟩
    · rcases mem_pair.mp hz with rfl | rfl
      · by_cases hb : z = b <;> simp [update, hb]
      · simp
    · rw [mem_pair, not_or] at hz
      simp [hz.1, hz.2]
  | @cons x a r names rests t _ ih =>
    obtain ⟨σ', hσ', hcopy, hother⟩ := ih hn.tail (update (update σ a (σ x)) r (σ x))
    refine ⟨σ', hσ', fun z hz => ?_, fun z hz hr => ?_⟩
    · rcases mem_cons.mp hz with rfl | hz
      · rw [hother z (nodup_cons.mp hn.nodup).1 fun hm =>
          hn.rest z (mem_cons_of_mem r hm) mem_cons_self]
        by_cases hzr : z = r <;> simp [update, hzr]
      · rw [hcopy z hz, update_self]
    · rw [mem_cons, not_or] at hz hr
      rw [hother z hz.2 hr.2, update_of_ne hr.1, update_of_ne hz.1]

/-! ## Renaming the uses of a name -/

/-- No `Fix` outside of effects. -/
def Ast.FixFree : Ast V F → Prop
  | .abs _ body => body.FixFree
  | .app f x => f.FixFree ∧ x.FixFree
  | .rep e _ _ body => e.FixFree ∧ body.FixFree
  | .era e body => e.FixFree ∧ body.FixFree
  | .fix _ => False
  | _ => True

/-- `t'` has the names of the list for some of the uses of `x` in `t`, from left to right; no
binder catches one of the names. -/
inductive Renamed (x : Name) : List Name → Ast V F → Ast V F → Prop where
  | refl (t : Ast V F) : Renamed x [] t t
  | name (a : Name) : Renamed x [a] (.name x) (.name a)
  | abs {y : Name} {l : List Name} {t t' : Ast V F} (hy : y ≠ x) (hl : y ∉ l) :
      Renamed x l t t' → Renamed x l (.abs y t) (.abs y t')
  | app {l m : List Name} {f f' t t' : Ast V F} :
      Renamed x l f f' → Renamed x m t t' → Renamed x (l ++ m) (.app f t) (.app f' t')
  | era {l m : List Name} {e e' t t' : Ast V F} :
      Renamed x l e e' → Renamed x m t t' → Renamed x (l ++ m) (.era e t) (.era e' t')
  | rep {a b : Name} {l m : List Name} {e e' t t' : Ast V F} (ha : a ≠ x ∧ a ∉ m)
      (hb : b ≠ x ∧ b ∉ m) :
      Renamed x l e e' → Renamed x m t t' → Renamed x (l ++ m) (.rep e a b t) (.rep e' a b t')
  | shadowed (a b : Name) {l : List Name} {e e' : Ast V F} (t : Ast V F) :
      Renamed x l e e' → Renamed x l (.rep e a b t) (.rep e' a b t)
  | fix {l : List Name} {t t' : Ast V F} : Renamed x l t t' → Renamed x l (.fix t) (.fix t')

theorem count_filter_ne (x z : Name) (names : List Name) :
    (names.filter (· != x)).count z = if z = x then 0 else names.count z := by
  split
  · next h => exact count_eq_zero_of_not_mem fun hm => by simp [h] at hm
  · next h => exact count_filter (by simp [h])

/-- The binders above the uses of `x`. -/
def Ast.around (x : Name) : Ast V F → List Name
  | .abs y body => if y = x then [] else y :: body.around x
  | .app f t => f.around x ++ t.around x
  | .rep e a b body => e.around x ++ if a = x ∨ b = x then [] else a :: b :: body.around x
  | .era e body => e.around x ++ body.around x
  | .fix t => t.around x
  | _ => []

namespace Renamed

variable {x : Name} {l : List Name} {t t' : Ast V F} {σ : Name → Name}

section

variable (h : Renamed x l t t')
include h

theorem count (z : Name) :
    t'.freeNames.count z + (if z = x then l.length else 0) = t.freeNames.count z + l.count z := by
  induction h with
  | refl t => simp
  | name a => by_cases hz : z = x <;> simp [Ast.freeNames, hz, Ne.symm, count_cons, Nat.add_comm]
  | @abs y l t t' hy hl _ ih =>
    rw [Ast.freeNames, Ast.freeNames, count_filter_ne, count_filter_ne]
    by_cases hz : z = y
    · simp [hz, hy, count_eq_zero_of_not_mem hl]
    · simpa [hz] using ih
  | app _ _ ihf iht | era _ _ ihf iht =>
    simp only [Ast.freeNames, count_append, length_append]
    by_cases hx : z = x <;> simp only [hx, if_true, if_false] at ihf iht ⊢ <;> omega
  | @rep a b l m e e' t t' ha hb _ _ ihe iht =>
    simp only [Ast.freeNames, count_append, length_append, count_filter_pair]
    by_cases hz : z = a ∨ z = b
    · have hm : z ≠ x ∧ z ∉ m := by rcases hz with rfl | rfl <;> assumption
      simp only [if_pos hz, if_neg hm.1, count_eq_zero_of_not_mem hm.2] at ihe ⊢
      omega
    · simp only [if_neg hz]
      by_cases hx : z = x <;> simp only [hx, if_true, if_false] at ihe iht ⊢ <;> omega
  | shadowed a b t _ ihe =>
    simp only [Ast.freeNames, count_append]
    omega
  | fix _ ih => exact ih

theorem count_of_not_mem {z : Name} (hz : z ≠ x ∧ z ∉ l) :
    t'.freeNames.count z = t.freeNames.count z := by
  have hc := h.count z
  rwa [if_neg hz.1, count_eq_zero_of_not_mem hz.2] at hc

theorem not_mem_of_count {z : Name} (hz : z ≠ x)
    (ht : t.freeNames.count z = 1) (ht' : t'.freeNames.count z = 1) : z ∉ l := by
  have hc := h.count z
  rw [if_neg hz, ht, ht'] at hc
  exact count_eq_zero.mp (by omega)

theorem usedOnce : t'.UsedOnce ↔ t.UsedOnce := by
  induction h with
  | refl t => exact Iff.rfl
  | name a => exact Iff.rfl
  | @abs y l t t' hy hl ht ih => exact and_congr (by rw [ht.count_of_not_mem ⟨hy, hl⟩]) ih
  | app _ _ ihf iht | era _ _ ihf iht => exact and_congr ihf iht
  | @rep a b l m e e' t t' ha hb _ ht ihe iht =>
    refine and_congr ihe (and_congr ?_ iht)
    rw [PairUsedOnce, PairUsedOnce, ht.count_of_not_mem ha, ht.count_of_not_mem hb]
  | shadowed a b t _ ihe => exact and_congr_left' ihe
  | fix _ ih => exact ih

theorem binders : t'.binders = t.binders := by
  induction h with
  | refl t => rfl
  | name a => rfl
  | abs _ _ _ ih | shadowed _ _ _ _ ih => rw [Ast.binders, Ast.binders, ih]
  | app _ _ ihf iht | era _ _ ihf iht | rep _ _ _ _ ihf iht => rw [Ast.binders, Ast.binders, ihf, iht]
  | fix _ ih => exact ih

theorem effectFree (ht : t.EffectFree) : t'.EffectFree := by
  induction h with
  | refl t => exact ht
  | name a => trivial
  | abs _ _ _ ih | fix _ ih => exact ih ht
  | app _ _ ihf iht | era _ _ ihf iht | rep _ _ _ _ ihf iht => exact ⟨ihf ht.1, iht ht.2⟩
  | shadowed _ _ _ _ ih => exact ⟨ih ht.1, ht.2⟩

theorem fixFree (ht : t.FixFree) : t'.FixFree := by
  induction h with
  | refl t => exact ht
  | name a => trivial
  | abs _ _ _ ih => exact ih ht
  | app _ _ ihf iht | era _ _ ihf iht | rep _ _ _ _ ihf iht => exact ⟨ihf ht.1, iht ht.2⟩
  | shadowed _ _ _ _ ih => exact ⟨ih ht.1, ht.2⟩
  | fix _ _ => exact ht.elim

theorem asName (hσ : ∀ a ∈ l, σ a = σ x) : t'.asName.map σ = t.asName.map σ := by
  cases h with
  | name a => simp [Ast.asName, hσ]
  | _ => rfl

theorem erasure (hσ : ∀ a ∈ l, σ a = σ x) : t'.erasure σ = t.erasure σ := by
  induction h generalizing σ with
  | refl t => rfl
  | name a => simp [Ast.erasure, hσ]
  | @abs y l t t' hy hl _ ih =>
    rw [Ast.erasure, Ast.erasure, ih]
    intro a ha
    rw [update_of_ne (ne_of_mem_of_not_mem ha hl), update_of_ne hy.symm, hσ a ha]
  | app _ _ ihf iht =>
    obtain ⟨hf, ht⟩ := forall_mem_append.mp hσ
    rw [Ast.erasure, Ast.erasure, ihf hf, iht ht]
  | era _ _ _ iht => rw [Ast.erasure, Ast.erasure, iht (forall_mem_append.mp hσ).2]
  | @rep a b l m e e' t t' ha hb he _ _ iht =>
    obtain ⟨hl, hm⟩ := forall_mem_append.mp hσ
    rw [Ast.erasure, Ast.erasure, he.asName hl]
    refine congrArg _ (funext fun y => iht fun c hc => ?_)
    rw [update_of_ne (ne_of_mem_of_not_mem hc hb.2), update_of_ne (ne_of_mem_of_not_mem hc ha.2),
      update_of_ne hb.1.symm, update_of_ne ha.1.symm, hm c hc]
  | shadowed a b t he _ => rw [Ast.erasure, Ast.erasure, he.asName hσ]
  | fix _ ih => rw [Ast.erasure, Ast.erasure, ih hσ]

end

end Renamed

theorem prefix_drop_append {m : List Name} (hl : l <+: names.drop i)
    (hm : m <+: names.drop (i + l.length)) : l ++ m <+: names.drop i := by
  obtain ⟨r, hr⟩ := hl
  have hdrop : names.drop (i + l.length) = r := by
    rw [← drop_drop, ← hr, drop_left]
  rw [hdrop] at hm
  rw [← hr]
  exact (prefix_append_right_inj l).mpr hm

theorem prefix_drop_singleton {a : Name} (h : names[i]? = some a) : [a] <+: names.drop i := by
  obtain ⟨hi, rfl⟩ := List.getElem?_eq_some_iff.mp h
  rw [drop_eq_getElem_cons hi]
  exact ⟨_, rfl⟩

/-- The uses that the traversal `ren` reaches get the names from `i` on. -/
structure IndexedRename (ren : Ast V F → Nat → Option (Ast V F × Nat))
    (renames : List Name → Ast V F → Ast V F → Prop) (names : List Name) (i uses : Nat)
    (t t' : Ast V F) (l : List Name) : Prop where
  run : ren t i = some (t', i + l.length)
  renamed : renames l t t'
  taken : l <+: names.drop i
  length : l.length = uses

section

variable {ren : Ast V F → Nat → Option (Ast V F × Nat)}
  {renames : List Name → Ast V F → Ast V F → Prop} {names : List Name} {i c d : Nat} {f t : Ast V F}

theorem IndexedRename.skip (ht : renames [] t t) (hrun : ren t i = some (t, i)) (hc : c = 0) :
    IndexedRename ren renames names i c t t [] :=
  ⟨hrun, ht, nil_prefix, hc.symm⟩

theorem IndexedRename.both (h : i + (c + d) ≤ names.length)
    (hf : ∀ {i}, i + c ≤ names.length → ∃ f' l, IndexedRename ren renames names i c f f' l)
    (ht : ∀ {i}, i + d ≤ names.length → ∃ t' l, IndexedRename ren renames names i d t t' l) :
    ∃ f' t' l m, IndexedRename ren renames names i c f f' l ∧
      IndexedRename ren renames names (i + l.length) d t t' m ∧ l ++ m <+: names.drop i ∧
      (l ++ m).length = c + d := by
  obtain ⟨f', l, hf⟩ := hf (i := i) (by omega)
  obtain ⟨t', m, ht⟩ := ht (i := i + l.length) (by rw [hf.length]; omega)
  exact ⟨f', t', l, m, hf, ht, prefix_drop_append hf.taken ht.taken,
    by rw [length_append, hf.length, ht.length]⟩

end

/-! ## The copies of a name -/

abbrev copies (x : Name) (n : Nat) : List Name := (List.range n).map (copyName x)

/-- A name of the chain below `x`. -/
def CopyOf (x z : Name) : Prop := ∃ i, z = copyName x i ∨ z = restName (copyName x i)

theorem CopyOf.ne (h : CopyOf x z) : z ≠ x := by
  obtain ⟨i, rfl | rfl⟩ := h
  · exact copyName_ne x i
  · intro h
    have := congrArg String.length h
    simp only [restName, copyName, String.length_append] at this
    rw [show "__rr_".length = 5 from rfl] at this
    omega

/-- The names of a chain of `n` copies. -/
abbrev chainNames (x : Name) (n : Nat) : List Name := copies x n ++ restNames (copies x n)

theorem copyOf_of_mem (h : z ∈ copies x n) : CopyOf x z ∧ CopyOf x (restName z) := by
  obtain ⟨i, -, rfl⟩ := mem_map.mp h
  exact ⟨⟨i, .inl rfl⟩, i, .inr rfl⟩

theorem CopyOf.of_mem_chainNames (h : z ∈ chainNames x n) : CopyOf x z := by
  rcases mem_append.mp h with h | h
  · exact (copyOf_of_mem h).1
  · obtain ⟨a, ha, rfl⟩ := exists_of_mem_restNames h
    exact (copyOf_of_mem ha).2

theorem count_copies (hn : names.Nodup) (hl : l <+: names) :
    (∀ a ∈ names, l.count a = 1) ↔ l.length = names.length := by
  constructor
  · intro h
    obtain ⟨r, rfl⟩ := hl
    cases r with
    | nil => simp
    | cons c r =>
      have hc : c ∈ l := count_pos_iff.mp (by rw [h c (by simp)]; exact Nat.one_pos)
      exact ((nodup_append.mp hn).2.2 c hc c mem_cons_self rfl).elim
  · intro h a ha
    rw [hl.eq_of_length h]
    exact count_eq_one_of_mem hn ha

/-- `w` is a chain of `n` copies of `x` over `t'`, in which the copies `l` stand for uses of `x`
in `t`. -/
structure Copied (x : Name) (n : Nat) (l : List Name) (t t' w : Ast V F) : Prop where
  run : nestReps (.name x) (copies x n) t' = some w
  count : ∀ z, z ≠ x → w.freeNames.count z = t.freeNames.count z
  own : w.freeNames.count x + l.length = t.freeNames.count x + 1
  usedOnce : w.UsedOnce ↔ l.length = n ∧ t.UsedOnce
  erasure : ∀ σ, w.erasure σ = t.erasure σ

/-- The first copies stand for uses of `x`, and the names of the copies are new. -/
theorem Renamed.copied {t t' : Ast V F}
    (hren : Renamed x l t t') (hl : l <+: copies x n) (hn : 2 ≤ n)
    (hfree : ∀ z ∈ chainNames x n, z ∉ t.freeNames) : ∃ w, Copied x n l t t' w := by
  have hlen : (copies x n).length = n := by simp
  have hself : x ∉ copies x n := fun hm => (copyOf_of_mem hm).1.ne rfl
  have hzero : ∀ z ∈ chainNames x n, t.freeNames.count z = 0 := fun z hz =>
    count_eq_zero_of_not_mem (hfree z hz)
  obtain ⟨w, hw, hc⟩ := nestReps_chain (copies x n) x t' (by omega)
  have hchain := chainNames_copies x n
  have hfree' : ∀ r ∈ restNames (copies x n), r ∉ t'.freeNames := by
    intro r hr
    have hmem : r ∈ chainNames x n := mem_append_right _ hr
    rw [← count_eq_zero, hren.count_of_not_mem ⟨(CopyOf.of_mem_chainNames hmem).ne,
      fun h => hchain.rest r hr (hl.subset h)⟩, hzero r hmem]
  refine ⟨w, hw, fun z hz => ?_, ?_, ?_, fun σ => ?_⟩
  · have hname : [x].count z = 0 := by simp [Ne.symm hz]
    rw [hc.count hchain hfree', hname, Nat.zero_add]
    split
    · next hm => exact (hzero z (mem_append_left _ hm)).symm
    · next hm => exact hren.count_of_not_mem ⟨hz, fun h => hm (hl.subset h)⟩
  · have hx := hren.count x
    rw [if_pos rfl, count_eq_zero_of_not_mem fun h => hself (hl.subset h)] at hx
    rw [hc.count hchain hfree', if_neg hself, count_singleton_self]
    omega
  · have hcopies : (∀ c ∈ copies x n, t'.freeNames.count c = 1) ↔ l.length = n := by
      have hused := count_copies hchain.nodup hl
      rw [hlen] at hused
      rw [← hused]
      refine forall₂_congr fun c hc => ?_
      have hz := hren.count c
      rw [if_neg (copyOf_of_mem hc).1.ne, hzero c (mem_append_left _ hc)] at hz
      omega
    rw [hc.usedOnce hchain hfree', hcopies, hren.usedOnce]
  · obtain ⟨σ', hσ', hcopy, hother⟩ := hc.erasure hchain σ
    have hx : σ' x = σ x := hother x hself fun hr =>
      (CopyOf.of_mem_chainNames (mem_append_right _ hr)).ne rfl
    rw [hσ', hren.erasure fun a ha => (hcopy a (hl.subset ha)).trans hx.symm]
    exact Ast.erasure_congr fun z hz => hother z (fun hm => hfree z (mem_append_left _ hm) hz)
      fun hr => hfree z (mem_append_right _ hr) hz

end Dnet
