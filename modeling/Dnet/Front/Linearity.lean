import Dnet.Front.Ast
import Dnet.Lib.Loop
import Dnet.Lib.Names

/-!
# What pass 1 accepts

`pass1` accepts a term exactly if every binder is used once (`pass1_ok_iff`). After
`alpha_rename` all binders of a term differ (`Ast.rename_binders`), and a closed term stays what
it was up to the names of its binders (`Ast.rename_spec`).
-/

namespace Dnet

open Lib List

/-! ## Terms whose binders are used once -/

/-- Two binders of one scope, each used once. -/
def PairUsedOnce (a b : Name) (names : List Name) : Prop :=
  a ≠ b ∧ names.count a = 1 ∧ names.count b = 1

mutual

/-- Every binder is used once in its scope. -/
def Ast.UsedOnce {V F : Type} : Ast V F → Prop
  | .name _ | .val _ | .fn _ => True
  | .abs x body => body.freeNames.count x = 1 ∧ body.UsedOnce
  | .app f x => f.UsedOnce ∧ x.UsedOnce
  | .rep e a b body => e.UsedOnce ∧ PairUsedOnce a b body.freeNames ∧ body.UsedOnce
  | .era e body => e.UsedOnce ∧ body.UsedOnce
  | .fix inner => inner.UsedOnce
  | .perform _ e => e.UsedOnce
  | .handle comp branches => comp.UsedOnce ∧ branches.UsedOnce

def HandlerBranches.UsedOnce {V F : Type} : HandlerBranches V F → Prop
  | .nil => True
  | .cons _ a k body rest => PairUsedOnce a k body.freeNames ∧ body.UsedOnce ∧ rest.UsedOnce

end

/-! ## The scan -/

mutual

/-- The uses of names in the order in which both passes reach them: the name, the level of pass 1
and the number of handler branches around the use. -/
def Ast.occurrences {V F : Type} : Ast V F → Nat → Nat → List (Name × Nat × Nat)
  | .name n, level, depth => [(n, level, depth)]
  | .val _, _, _ | .fn _, _, _ => []
  | .abs _ body, level, depth => body.occurrences level depth
  | .app f x, level, depth => f.occurrences level depth ++ x.occurrences (level + 1) depth
  | .rep e _ _ body, level, depth => e.occurrences level depth ++ body.occurrences level depth
  | .era e body, level, depth => e.occurrences level depth ++ body.occurrences level depth
  | .fix inner, level, depth => inner.occurrences level depth
  | .perform _ e, level, depth => e.occurrences level depth
  | .handle comp branches, level, depth =>
    comp.occurrences level depth ++ branches.occurrences level (depth + 1)

def HandlerBranches.occurrences {V F : Type} :
    HandlerBranches V F → Nat → Nat → List (Name × Nat × Nat)
  | .nil, _, _ => []
  | .cons _ _ _ body rest, level, depth =>
    body.occurrences level depth ++ rest.occurrences level depth

end

/-- The levels of pass 1 after these uses. -/
def levelsAfter (levels : Name → Option Nat) (occ : List (Name × Nat × Nat)) : Name → Option Nat :=
  occ.foldl (fun levels o => bindName levels o.1 o.2.1) levels

/-- Count a use of each of the names. -/
def countUses (names : List Name) (frames : List (Name × Nat)) : List (Name × Nat) :=
  names.foldl (fun fs y => Pass1State.incrementIn y fs) frames

/-- The uses of the innermost binder do not reach the outer frames. -/
theorem countUses_cons (names : List Name) (x : Name) (c : Nat) (frames : List (Name × Nat)) :
    countUses names ((x, c) :: frames) =
      (x, c + names.count x) :: countUses (names.filter (· != x)) frames := by
  induction names generalizing c frames with
  | nil => rfl
  | cons y names ih =>
    by_cases hy : y = x
    · subst hy
      have hinc : Pass1State.incrementIn y ((y, c) :: frames) = (y, c + 1) :: frames := if_pos rfl
      rw [countUses, foldl_cons, hinc, ← countUses, ih]
      simp only [count_cons_self, filter_cons, bne_self_eq_false, Bool.false_eq_true,
        if_false, cons.injEq, Prod.mk.injEq, true_and, and_true]
      omega
    · have hinc : Pass1State.incrementIn y ((x, c) :: frames) =
          (x, c) :: Pass1State.incrementIn y frames := if_neg (Ne.symm hy)
      rw [countUses, foldl_cons, hinc, ← countUses, ih]
      simp [hy, countUses]

variable {x : Name}

theorem checkUsedOnce_iff {c : Nat} : checkUsedOnce x c = .ok () ↔ c = 1 := by
  unfold checkUsedOnce
  split
  · next h => simp [h]
  · split
    · simp only [reduceCtorEq, false_iff]
      omega
    · simp only [true_iff]
      omega

variable {names : List Name} {a b : Name} {st : Pass1State}

theorem pop_countUses (frames : List (Name × Nat))
    (h : st.frames = countUses names ((x, 0) :: frames)) :
    st.pop x = (names.count x, { st with frames := countUses (names.filter (· != x)) frames }) := by
  unfold Pass1State.pop
  rw [h, countUses_cons, Nat.zero_add]
  simp

theorem pop_pair_countUses
    (frames : List (Name × Nat)) (h : st.frames = countUses names ((b, 0) :: (a, 0) :: frames)) :
    let n := names.filter (· != b)
    st.pop b = (names.count b, { st with frames := countUses n ((a, 0) :: frames) }) ∧
      Pass1State.pop { st with frames := countUses n ((a, 0) :: frames) } a = (n.count a,
        { st with frames := countUses (names.filter fun y => y != a && y != b) frames }) := by
  refine ⟨pop_countUses _ h, (pop_countUses frames rfl).trans ?_⟩
  rw [filter_filter]

theorem pairUsedOnce_iff :
    PairUsedOnce a b names ↔ (names.filter (· != b)).count a = 1 ∧ names.count b = 1 := by
  unfold PairUsedOnce
  by_cases hab : a = b
  · subst hab
    simp [count_eq_zero_of_not_mem]
  · have : (names.filter (· != b)).count a = names.count a :=
      count_filter (by simp [hab])
    simp [hab, this]

variable {V F : Type} {names names' : List Name} {ns ms : List Name} {ctr ctr' : Nat} {t : Ast V F}

/-- The uses that a part of the scan counts, and the levels that it records. -/
structure Scans (names : List Name) (occ : List (Name × Nat × Nat)) (st st' : Pass1State) : Prop where
  frames : st'.frames = countUses names st.frames
  levels : st'.result.usageLevels = levelsAfter st.result.usageLevels occ

theorem Scans.trans {occ occ' : List (Name × Nat × Nat)} {st st1 st' : Pass1State}
    (h : Scans ns occ st st1) (h' : Scans ms occ' st1 st') :
    Scans (ns ++ ms) (occ ++ occ') st st' where
  frames := by rw [h'.frames, h.frames]; exact foldl_append.symm
  levels := by rw [h'.levels, h.levels]; exact foldl_append.symm

mutual

theorem Ast.collect_ok : ∀ (t : Ast V F) {level : Nat} {st st' : Pass1State},
    t.collect level st = .ok st' → ∀ depth,
      t.UsedOnce ∧ Scans t.freeNames (t.occurrences level depth) st st'
  | .name x, _, _, _, h, _ => by
    cases h
    exact ⟨trivial, rfl, rfl⟩
  | .val _, _, _, _, h, _ | .fn _, _, _, _, h, _ => by
    cases h
    exact ⟨trivial, rfl, rfl⟩
  | .abs x body, _, st, _, h, depth => by
    obtain ⟨st1, hbody, h⟩ := bind_eq_ok.mp h
    obtain ⟨hused, hscan⟩ := body.collect_ok hbody depth
    rw [pop_countUses st.frames hscan.frames] at h
    obtain ⟨⟨⟩, hcheck, h⟩ := bind_eq_ok.mp h
    cases h
    exact ⟨⟨checkUsedOnce_iff.mp hcheck, hused⟩, rfl, hscan.levels⟩
  | .app f x, _, _, _, h, depth | .handle f x, _, _, _, h, depth => by
    obtain ⟨st1, hf, h⟩ := bind_eq_ok.mp h
    obtain ⟨husedf, hscan⟩ := f.collect_ok hf depth
    obtain ⟨husedx, hscan'⟩ := x.collect_ok h _
    exact ⟨⟨husedf, husedx⟩, hscan.trans hscan'⟩
  | .rep e a b body, _, st, _, h, depth => by
    obtain ⟨st1, he, h⟩ := bind_eq_ok.mp h
    obtain ⟨husede, hscan⟩ := e.collect_ok he depth
    obtain ⟨st2, hbody, h⟩ := bind_eq_ok.mp h
    obtain ⟨husedb, hscan'⟩ := body.collect_ok hbody depth
    obtain ⟨hpb, hpa⟩ := pop_pair_countUses st1.frames hscan'.frames
    rw [hpb] at h
    dsimp only at h
    rw [hpa] at h
    obtain ⟨⟨⟩, hca, h⟩ := bind_eq_ok.mp h
    obtain ⟨⟨⟩, hcb, h⟩ := bind_eq_ok.mp h
    cases h
    exact ⟨⟨husede, pairUsedOnce_iff.mpr ⟨checkUsedOnce_iff.mp hca, checkUsedOnce_iff.mp hcb⟩,
      husedb⟩, .trans ⟨hscan.frames, hscan.levels⟩ ⟨rfl, hscan'.levels⟩⟩
  | .era e body, _, _, _, h, depth => by
    obtain ⟨st1, he, h⟩ := bind_eq_ok.mp h
    obtain ⟨husede, hscan⟩ := e.collect_ok he depth
    obtain ⟨husedb, hscan'⟩ := body.collect_ok h depth
    exact ⟨⟨husede, husedb⟩, .trans ⟨hscan.frames, hscan.levels⟩ hscan'⟩
  | .fix inner, _, _, _, h, depth | .perform _ inner, _, _, _, h, depth => inner.collect_ok h depth

theorem HandlerBranches.collect_ok : ∀ (bs : HandlerBranches V F) {level : Nat}
    {st st' : Pass1State}, bs.collect level st = .ok st' → ∀ depth,
      bs.UsedOnce ∧ Scans bs.freeNames (bs.occurrences level depth) st st'
  | .nil, _, _, _, h, _ => by
    cases h
    exact ⟨trivial, rfl, rfl⟩
  | .cons _ a k body rest, _, st, _, h, depth => by
    obtain ⟨st1, hbody, h⟩ := bind_eq_ok.mp h
    obtain ⟨husedb, hscan⟩ := body.collect_ok hbody depth
    obtain ⟨hpk, hpa⟩ := pop_pair_countUses st.frames hscan.frames
    rw [hpk] at h
    dsimp only at h
    rw [hpa] at h
    obtain ⟨⟨⟩, hca, h⟩ := bind_eq_ok.mp h
    obtain ⟨⟨⟩, hck, h⟩ := bind_eq_ok.mp h
    obtain ⟨husedr, hscan'⟩ := rest.collect_ok h depth
    refine ⟨⟨pairUsedOnce_iff.mpr ⟨checkUsedOnce_iff.mp hca, checkUsedOnce_iff.mp hck⟩, husedb,
      husedr⟩, Scans.trans ?_ hscan'⟩
    exact ⟨rfl, hscan.levels⟩

end

mutual

theorem Ast.exists_collect : ∀ (t : Ast V F), t.UsedOnce → ∀ (level : Nat) (st : Pass1State),
    ∃ st', t.collect level st = .ok st'
  | .name x, _, _, _ => ⟨_, rfl⟩
  | .val _, _, _, _ | .fn _, _, _, _ => ⟨_, rfl⟩
  | .abs x body, h, level, st => by
    obtain ⟨st1, hbody⟩ := body.exists_collect h.2 level (st.push x)
    have hpop := pop_countUses st.frames (body.collect_ok hbody 0).2.frames
    have hcheck : checkUsedOnce x (body.freeNames.count x) = .ok () := checkUsedOnce_iff.mpr h.1
    rw [Ast.collect, hbody]
    simp only [bind, Except.bind, hpop, hcheck]
    exact ⟨_, rfl⟩
  | .app f x, h, level, st => by
    obtain ⟨st1, hf⟩ := f.exists_collect h.1 level st
    obtain ⟨st2, hx⟩ := x.exists_collect h.2 (level + 1) st1
    exact ⟨st2, bind_eq_ok.mpr ⟨st1, hf, hx⟩⟩
  | .rep e a b body, h, level, st => by
    obtain ⟨st1, he⟩ := e.exists_collect h.1 level { st with result.repUsed := true }
    obtain ⟨st2, hbody⟩ := body.exists_collect h.2.2 level ((st1.push a).push b)
    obtain ⟨hpb, hpa⟩ := pop_pair_countUses st1.frames (body.collect_ok hbody 0).2.frames
    obtain ⟨hca, hcb⟩ := pairUsedOnce_iff.mp h.2.1
    rw [Ast.collect, he]
    simp only [bind, Except.bind, hbody, hpb, hpa, checkUsedOnce_iff.mpr hca,
      checkUsedOnce_iff.mpr hcb]
    exact ⟨_, rfl⟩
  | .era e body, h, level, st => by
    obtain ⟨st1, he⟩ := e.exists_collect h.1 level { st with result.eraUsed := true }
    obtain ⟨st2, hbody⟩ := body.exists_collect h.2 level st1
    exact ⟨st2, bind_eq_ok.mpr ⟨st1, he, hbody⟩⟩
  | .fix inner, h, level, st => inner.exists_collect h level st
  | .perform _ e, h, level, st => e.exists_collect h level st
  | .handle comp branches, h, level, st => by
    obtain ⟨st1, hc⟩ := comp.exists_collect h.1 level st
    obtain ⟨st2, hb⟩ := branches.exists_collect h.2 level st1
    exact ⟨st2, bind_eq_ok.mpr ⟨st1, hc, hb⟩⟩

theorem HandlerBranches.exists_collect : ∀ (bs : HandlerBranches V F), bs.UsedOnce →
    ∀ (level : Nat) (st : Pass1State), ∃ st', bs.collect level st = .ok st'
  | .nil, _, _, _ => ⟨_, rfl⟩
  | .cons _ a k body rest, h, level, st => by
    obtain ⟨st1, hbody⟩ := body.exists_collect h.2.1 level ((st.push a).push k)
    obtain ⟨hpk, hpa⟩ := pop_pair_countUses st.frames (body.collect_ok hbody 0).2.frames
    obtain ⟨hca, hck⟩ := pairUsedOnce_iff.mp h.1
    obtain ⟨st2, hrest⟩ := rest.exists_collect h.2.2 level
      { st1 with frames := countUses (body.freeNames.filter fun y => y != a && y != k) st.frames }
    rw [HandlerBranches.collect, hbody]
    simp only [bind, Except.bind, hpk, hpa, checkUsedOnce_iff.mpr hca, checkUsedOnce_iff.mpr hck]
    exact ⟨st2, hrest⟩

end

theorem pass1_ok_iff : (∃ r, pass1 t = .ok r) ↔ t.UsedOnce := by
  constructor
  · rintro ⟨r, h⟩
    obtain ⟨st, hst, -⟩ := bind_eq_ok.mp h
    exact (t.collect_ok hst 0).1
  · intro h
    obtain ⟨st, hst⟩ := t.exists_collect h 0 ⟨[], ⟨false, false, fun _ => none⟩⟩
    exact ⟨st.result, bind_eq_ok.mpr ⟨st, hst, rfl⟩⟩

/-! ## Fresh names -/

theorem alphaFresh_inj {c c' : Nat} (h : alphaFresh a c = alphaFresh b c') : c = c' := by
  have hstem : Stem "~" := ⟨[], '~', rfl, rfl⟩
  exact ((hstem.append a).toString_inj (hstem.append b) h).2

/-- The name was not made with a counter from `ctr` on. -/
def Old (ctr : Nat) (z : Name) : Prop := ∀ b c, z = alphaFresh b c → c < ctr

theorem Old.mono {z : Name} (h : Old ctr z) (hle : ctr ≤ ctr') : Old ctr' z :=
  fun b c hz => Nat.lt_of_lt_of_le (h b c hz) hle

/-- The name that an environment of `rename` gives to `y`. -/
def renamed (env : Name → Option Name) (y : Name) : Name := (env y).getD y

/-- The environment tells the names apart, and makes none of the names to come. -/
structure Apart (env : Name → Option Name) (ctr : Nat) (names : List Name) : Prop where
  old : ∀ y ∈ names, Old ctr (renamed env y)
  inj : ∀ y ∈ names, ∀ y' ∈ names, renamed env y = renamed env y' → y = y'

variable {env : Name → Option Name} {ctr : Nat}

theorem Apart.mono (h : Apart env ctr names) (hle : ctr ≤ ctr') (hsub : ∀ y ∈ names', y ∈ names) :
    Apart env ctr' names' :=
  ⟨fun y hy => (h.old y (hsub y hy)).mono hle, fun y hy y' hy' => h.inj y (hsub y hy) y' (hsub y' hy')⟩

theorem Apart.left (h : Apart env ctr (ns ++ ms)) : Apart env ctr ns :=
  h.mono (Nat.le_refl _) fun _ => mem_append_left _

theorem Apart.right (h : Apart env ctr (ns ++ ms)) (hle : ctr ≤ ctr') : Apart env ctr' ms :=
  h.mono hle fun _ => mem_append_right _

section

variable {env : Name → Option Name} {ctr : Nat} {names : List Name} {x : Name}

theorem renamed_bindName_self : renamed (bindName env x (alphaFresh x ctr)) x = alphaFresh x ctr := by
  simp [renamed, bindName]

theorem renamed_bindName_ne {y : Name} (h : y ≠ x) (z : Name) :
    renamed (bindName env x z) y = renamed env y := by simp [renamed, bindName, h]

theorem Apart.renamed_eq_iff (h : Apart env ctr (names.filter (· != x))) {y : Name} (hy : y ∈ names) :
    renamed (bindName env x (alphaFresh x ctr)) y = alphaFresh x ctr ↔ y = x := by
  constructor
  · intro he
    refine Decidable.byContradiction fun hne => ?_
    rw [renamed_bindName_ne hne] at he
    exact Nat.lt_irrefl _ (h.old y (mem_filter.mpr ⟨hy, by simpa using hne⟩) x ctr he)
  · rintro rfl
    exact renamed_bindName_self

theorem Apart.bind (h : Apart env ctr (names.filter (· != x))) :
    Apart (bindName env x (alphaFresh x ctr)) (ctr + 1) names where
  old y hy := by
    by_cases hyx : y = x
    · subst hyx
      rw [renamed_bindName_self]
      exact fun _ _ h => Nat.lt_succ_of_le (alphaFresh_inj h).ge
    · rw [renamed_bindName_ne hyx]
      exact (h.old y (mem_filter.mpr ⟨hy, by simpa using hyx⟩)).mono (Nat.le_succ ctr)
  inj y hy y' hy' he := by
    by_cases hyx : y = x
    · subst hyx
      rw [renamed_bindName_self] at he
      exact ((h.renamed_eq_iff hy').mp he.symm).symm
    · by_cases hyx' : y' = x
      · subst hyx'
        rw [renamed_bindName_self] at he
        exact (h.renamed_eq_iff hy).mp he
      · rw [renamed_bindName_ne hyx, renamed_bindName_ne hyx'] at he
        exact h.inj y (mem_filter.mpr ⟨hy, by simpa using hyx⟩) y'
          (mem_filter.mpr ⟨hy', by simpa using hyx'⟩) he

theorem Apart.bind_pair {b : Name} (h : Apart env ctr (names.filter fun y => y != x && y != b)) :
    Apart (bindName (bindName env x (alphaFresh x ctr)) b (alphaFresh b (ctr + 1))) (ctr + 2)
      names := by
  rw [← filter_filter] at h
  exact h.bind.bind

theorem Apart.filter_map (h : Apart env ctr (names.filter (· != x))) :
    (names.map (renamed (bindName env x (alphaFresh x ctr)))).filter (· != alphaFresh x ctr) =
      (names.filter (· != x)).map (renamed env) := by
  rw [List.filter_map]
  have hfilter : names.filter ((· != alphaFresh x ctr) ∘ renamed (bindName env x (alphaFresh x ctr)))
      = names.filter (· != x) := by
    refine filter_congr fun y hy => ?_
    rw [Bool.eq_iff_iff]
    simpa using not_congr (h.renamed_eq_iff hy)
  rw [hfilter]
  refine map_congr_left fun y hy => renamed_bindName_ne ?_ _
  simpa using (mem_filter.mp hy).2

theorem Apart.count_map (h : Apart env ctr (names.filter (· != x))) :
    (names.map (renamed (bindName env x (alphaFresh x ctr)))).count (alphaFresh x ctr) =
      names.count x := by
  rw [count_eq_countP, countP_map, count_eq_countP]
  refine countP_congr fun y hy => ?_
  simpa using h.renamed_eq_iff hy

end

/-! ## The binders of a renamed term -/

/-- Different names, made with the counters from `lo` up to `hi`. -/
structure FreshIn (lo hi : Nat) (names : List Name) : Prop where
  le : lo ≤ hi
  nodup : names.Nodup
  made : ∀ z ∈ names, ∃ b c, z = alphaFresh b c ∧ lo ≤ c ∧ c < hi

theorem FreshIn.nil (ctr : Nat) : FreshIn ctr ctr [] := ⟨Nat.le_refl _, nodup_nil, nofun⟩

theorem FreshIn.append {lo mid hi : Nat} (h : FreshIn lo mid ns) (h' : FreshIn mid hi ms) :
    FreshIn lo hi (ns ++ ms) where
  le := Nat.le_trans h.le h'.le
  nodup := by
    refine nodup_append.mpr ⟨h.nodup, h'.nodup, fun z hz w hw he => ?_⟩
    obtain ⟨b, c, rfl, -, hc⟩ := h.made z hz
    obtain ⟨b', c', rfl, hc', -⟩ := h'.made w hw
    have := alphaFresh_inj he
    omega
  made z hz := by
    rcases mem_append.mp hz with hz | hz
    · obtain ⟨b, c, rfl, hl, hc⟩ := h.made z hz
      exact ⟨b, c, rfl, hl, Nat.lt_of_lt_of_le hc h'.le⟩
    · obtain ⟨b, c, rfl, hl, hc⟩ := h'.made z hz
      exact ⟨b, c, rfl, Nat.le_trans h.le hl, hc⟩

theorem freshIn_alphaFresh (x : Name) (ctr : Nat) : FreshIn ctr (ctr + 1) [alphaFresh x ctr] :=
  ⟨Nat.le_succ ctr, nodup_cons.mpr ⟨not_mem_nil, nodup_nil⟩, fun _ hz =>
    ⟨x, ctr, mem_singleton.mp hz, Nat.le_refl _, Nat.lt_succ_self _⟩⟩

theorem FreshIn.cons {hi : Nat} (h : FreshIn (ctr + 1) hi names) (x : Name) :
    FreshIn ctr hi (alphaFresh x ctr :: names) :=
  (freshIn_alphaFresh x ctr).append h

mutual

theorem Ast.rename_binders : ∀ (t : Ast V F) (env : Name → Option Name) (ctr : Nat),
    FreshIn ctr (t.rename env ctr).2 (t.rename env ctr).1.binders
  | .name _, _, ctr | .val _, _, ctr | .fn _, _, ctr => .nil ctr
  | .abs x body, _, ctr => (body.rename_binders _ (ctr + 1)).cons x
  | .app f x, env, ctr
  | .era f x, env, ctr
  | .handle f x, env, ctr => (f.rename_binders env ctr).append (x.rename_binders env _)
  | .rep e a b body, env, ctr => (e.rename_binders env ctr).append
      (((body.rename_binders _ _).cons b).cons a)
  | .fix inner, env, ctr => inner.rename_binders env ctr
  | .perform _ e, env, ctr => e.rename_binders env ctr

theorem HandlerBranches.rename_binders : ∀ (bs : HandlerBranches V F) (env : Name → Option Name)
    (ctr : Nat), FreshIn ctr (bs.rename env ctr).2 (bs.rename env ctr).1.binders
  | .nil, _, ctr => .nil ctr
  | .cons _ a k body rest, env, ctr =>
    (((body.rename_binders _ (ctr + 2)).cons k).cons a).append (rest.rename_binders env _)

end

theorem Ast.le_rename_pair (body : Ast V F) (env : Name → Option Name) (ctr : Nat) (a k : Name) :
    ctr ≤ (body.rename (bindName (bindName env a (alphaFresh a ctr)) k (alphaFresh k (ctr + 1)))
      (ctr + 2)).2 :=
  Nat.le_trans (Nat.le_add_right ctr 2) (body.rename_binders _ _).le

/-! ## Renaming -/

/-- What `rename` keeps of a term. -/
structure Renames (env : Name → Option Name) (names names' : List Name) (used used' : Prop) :
    Prop where
  freeNames : names' = names.map (renamed env)
  usedOnce : used' ↔ used

variable {used used' : Prop}

theorem Renames.bind (ha : Apart env ctr (names.filter (· != x)))
    (h : Renames (bindName env x (alphaFresh x ctr)) names names' used used') :
    names'.filter (· != alphaFresh x ctr) = (names.filter (· != x)).map (renamed env) ∧
      names'.count (alphaFresh x ctr) = names.count x := by
  rw [h.freeNames]
  exact ⟨ha.filter_map, ha.count_map⟩

theorem Renames.bind_pair (ha : Apart env ctr (names.filter fun y => y != a && y != b))
    (h : Renames (bindName (bindName env a (alphaFresh a ctr)) b (alphaFresh b (ctr + 1))) names
      names' used used') :
    names'.filter (fun y => y != alphaFresh a ctr && y != alphaFresh b (ctr + 1)) =
        (names.filter fun y => y != a && y != b).map (renamed env) ∧
      (PairUsedOnce (alphaFresh a ctr) (alphaFresh b (ctr + 1)) names' ↔ PairUsedOnce a b names) := by
  rw [← filter_filter] at ha
  have hb := h.bind ha.bind
  rw [← filter_filter, hb.1, ha.filter_map, filter_filter, pairUsedOnce_iff,
    pairUsedOnce_iff, hb.1, hb.2, ha.count_map]
  exact ⟨rfl, Iff.rfl⟩

theorem Renames.append {ns ms ns' ms' : List Name} {p q p' q' : Prop}
    (h : Renames env ns ns' p p') (h' : Renames env ms ms' q q') :
    Renames env (ns ++ ms) (ns' ++ ms') (p ∧ q) (p' ∧ q') :=
  ⟨by rw [h.freeNames, h'.freeNames, map_append], and_congr h.usedOnce h'.usedOnce⟩

mutual

theorem Ast.rename_spec : ∀ (t : Ast V F) {env : Name → Option Name} {ctr : Nat},
    Apart env ctr t.freeNames → Renames env t.freeNames (t.rename env ctr).1.freeNames t.UsedOnce
      (t.rename env ctr).1.UsedOnce
  | .name _, _, _, _ => ⟨rfl, Iff.rfl⟩
  | .val _, _, _, _ | .fn _, _, _, _ => ⟨rfl, Iff.rfl⟩
  | .abs x body, _, _, h => by
    have hbody := body.rename_spec h.bind
    obtain ⟨hfree, hcount⟩ := hbody.bind h
    exact ⟨hfree, and_congr (by rw [hcount]) hbody.usedOnce⟩
  | .app f x, env, ctr, h =>
    (f.rename_spec h.left).append (x.rename_spec (h.right (f.rename_binders env ctr).le))
  | .era e body, env, ctr, h =>
    (e.rename_spec h.left).append (body.rename_spec (h.right (e.rename_binders env ctr).le))
  | .rep e a b body, env, ctr, h => by
    have he := e.rename_spec h.left
    have hscope : Apart env (e.rename env ctr).2 (body.freeNames.filter fun y => y != a && y != b) :=
      h.right (e.rename_binders env ctr).le
    have hbody := body.rename_spec hscope.bind_pair
    obtain ⟨hfree, hpair⟩ := hbody.bind_pair hscope
    exact he.append ⟨hfree, and_congr hpair hbody.usedOnce⟩
  | .fix inner, _, _, h => inner.rename_spec h
  | .perform _ e, _, _, h => e.rename_spec h
  | .handle comp branches, env, ctr, h =>
    (comp.rename_spec h.left).append (branches.rename_spec (h.right (comp.rename_binders env ctr).le))

theorem HandlerBranches.rename_spec : ∀ (bs : HandlerBranches V F) {env : Name → Option Name}
    {ctr : Nat}, Apart env ctr bs.freeNames → Renames env bs.freeNames
      (bs.rename env ctr).1.freeNames bs.UsedOnce (bs.rename env ctr).1.UsedOnce
  | .nil, _, _, _ => ⟨rfl, Iff.rfl⟩
  | .cons _ a k body rest, env, ctr, h => by
    have hbody := body.rename_spec h.left.bind_pair
    obtain ⟨hfree, hpair⟩ := hbody.bind_pair h.left
    have hrest := rest.rename_spec (h.right (body.le_rename_pair env ctr a k))
    have hboth := (Renames.mk hfree hbody.usedOnce).append hrest
    exact ⟨hboth.freeNames, and_congr hpair hboth.usedOnce⟩

end

theorem Ast.Closed.apart (h : t.Closed) (ctr : Nat) : Apart (fun _ => none) ctr t.freeNames := by
  rw [h]
  exact ⟨nofun, nofun⟩

theorem pass1_alphaRename_iff (h : t.Closed) (ctr : Nat) :
    (∃ r, pass1 (t.alphaRename ctr) = .ok r) ↔ t.UsedOnce :=
  pass1_ok_iff.trans (t.rename_spec (h.apart ctr)).usedOnce

end Dnet
