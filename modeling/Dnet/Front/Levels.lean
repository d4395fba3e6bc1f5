import Dnet.Front.Wiring

/-!
# The labels of replicators

Pass 1 records the level at which a name is used, and pass 2 takes the deltas of a replicator
from that record. The passes count the same applications, but the branch of a handler becomes an
argument only in pass 2, where its body is one level deeper than pass 1 saw it. So the labels are
right exactly if no name of a `Rep` is used inside a branch (`labels_agree_iff`).
-/

namespace Dnet

open Lib List Ast

variable {V F : Type}

/-! ## The uses of names in a term -/

mutual

/-- The names of the `Rep` nodes. -/
def Ast.repNames : Ast V F → List (Name × Name)
  | .name _ | .val _ | .fn _ => []
  | .abs _ body => body.repNames
  | .app f x => f.repNames ++ x.repNames
  | .rep e a b body => e.repNames ++ (a, b) :: body.repNames
  | .era e body => e.repNames ++ body.repNames
  | .fix inner => inner.repNames
  | .perform _ e => e.repNames
  | .handle comp branches => comp.repNames ++ branches.repNames

def HandlerBranches.repNames : HandlerBranches V F → List (Name × Name)
  | .nil => []
  | .cons _ _ _ body rest => body.repNames ++ rest.repNames

end

/-- No name of a `Rep` is used inside the branch of a handler. -/
def Ast.RepsOutside (t : Ast V F) : Prop :=
  ∀ o ∈ t.occurrences 0 0, ∀ ab ∈ t.repNames, o.1 = ab.1 ∨ o.1 = ab.2 → o.2.2 = 0

/-- The name is used somewhere. -/
def Uses (occ : List (Name × Nat × Nat)) (x : Name) : Prop := ∃ o ∈ occ, o.1 = x

theorem uses_append {occ occ' : List (Name × Nat × Nat)} {x : Name} :
    Uses (occ ++ occ') x ↔ Uses occ x ∨ Uses occ' x := by
  simp only [Uses, mem_append, or_and_right, exists_or]

mutual

theorem Ast.uses_of_free : ∀ (t : Ast V F) (level depth : Nat) {x : Name}, x ∈ t.freeNames →
    Uses (t.occurrences level depth) x
  | .name n, level, depth, _, h => ⟨_, mem_cons_self, (mem_singleton.mp h).symm⟩
  | .val _, _, _, _, h | .fn _, _, _, _, h => by cases h
  | .abs _ body, level, depth, _, h => body.uses_of_free level depth (mem_filter.mp h).1
  | .app f e, _, _, _, h | .era f e, _, _, _, h | .handle f e, _, _, _, h =>
    uses_append.mpr <| (mem_append.mp h).imp (f.uses_of_free _ _) (e.uses_of_free _ _)
  | .rep e a b body, level, depth, _, h => uses_append.mpr <| (mem_append.mp h).imp
      (e.uses_of_free level depth) fun h => body.uses_of_free level depth (mem_filter.mp h).1
  | .fix inner, level, depth, x, h
  | .perform _ inner, level, depth, _, h => inner.uses_of_free level depth h

theorem HandlerBranches.uses_of_free : ∀ (bs : HandlerBranches V F) (level depth : Nat) {x : Name},
    x ∈ bs.freeNames → Uses (bs.occurrences level depth) x
  | .cons _ _ _ body rest, level, depth, _, h => uses_append.mpr <| (mem_append.mp h).imp
      (fun h => body.uses_of_free level depth (mem_filter.mp h).1)
      (rest.uses_of_free level depth)

end

/-- A binder that is used. -/
def UsedBinder (occ : List (Name × Nat × Nat)) (binders : List Name) (x : Name) : Prop :=
  Uses occ x ∧ x ∈ binders

section

variable {occ occ' : List (Name × Nat × Nat)} {bs bs' : List Name} {x y : Name}

theorem UsedBinder.left (h : UsedBinder occ bs x) : UsedBinder (occ ++ occ') (bs ++ bs') x :=
  ⟨uses_append.mpr (.inl h.1), mem_append_left _ h.2⟩

theorem UsedBinder.right (h : UsedBinder occ bs x) : UsedBinder (occ' ++ occ) (bs' ++ bs) x :=
  ⟨uses_append.mpr (.inr h.1), mem_append_right _ h.2⟩

theorem UsedBinder.cons (h : UsedBinder occ bs x) : UsedBinder occ (y :: bs) x :=
  ⟨h.1, mem_cons_of_mem y h.2⟩

end

mutual

/-- Pass 1 accepts a `Rep` only if both names are used. -/
theorem Ast.UsedOnce.reps : ∀ {t : Ast V F}, t.UsedOnce → ∀ (level depth : Nat)
    {ab : Name × Name}, ab ∈ t.repNames → UsedBinder (t.occurrences level depth) t.binders ab.1 ∧
      UsedBinder (t.occurrences level depth) t.binders ab.2
  | .abs _ body, h, level, depth, ab, hab => (h.2.reps level depth hab).imp .cons .cons
  | .app f e, h, _, _, ab, hab | .era f e, h, _, _, ab, hab | .handle f e, h, _, _, ab, hab => by
    rcases mem_append.mp hab with hab | hab
    · exact (h.1.reps _ _ hab).imp .left .left
    · exact (h.2.reps _ _ hab).imp .right .right
  | .rep e a b body, h, level, depth, ab, hab => by
    rcases mem_append.mp hab with hab | hab
    · exact (h.1.reps level depth hab).imp .left .left
    · rcases mem_cons.mp hab with rfl | hab
      · have ha : a ∈ body.freeNames := count_pos_iff.mp (by rw [h.2.1.2.1]; decide)
        have hb : b ∈ body.freeNames := count_pos_iff.mp (by rw [h.2.1.2.2]; decide)
        exact ⟨.right ⟨body.uses_of_free level depth ha, .head _⟩,
          .right ⟨body.uses_of_free level depth hb, .tail _ (.head _)⟩⟩
      · exact (h.2.2.reps level depth hab).imp (.right ·.cons.cons) (.right ·.cons.cons)
  | .fix inner, h, level, depth, ab, hab
  | .perform _ inner, h, level, depth, ab, hab => Ast.UsedOnce.reps (t := inner) h level depth hab

theorem HandlerBranches.UsedOnce.reps : ∀ {bs : HandlerBranches V F}, bs.UsedOnce →
    ∀ (level depth : Nat) {ab : Name × Name}, ab ∈ bs.repNames →
      UsedBinder (bs.occurrences level depth) bs.binders ab.1 ∧
        UsedBinder (bs.occurrences level depth) bs.binders ab.2
  | .cons _ _ _ body rest, h, level, depth, ab, hab => by
    rcases mem_append.mp hab with hab | hab
    · exact (h.2.1.reps level depth hab).imp (·.left.cons.cons) (·.left.cons.cons)
    · exact (h.2.2.reps level depth hab).imp (·.right.cons.cons) (·.right.cons.cons)

end

/-! ## Pass 1 -/

theorem levelsAfter_of_not_uses {x : Name} : ∀ (occ : List (Name × Nat × Nat))
    (levels : Name → Option Nat), ¬Uses occ x → levelsAfter levels occ x = levels x
  | [], _, _ => rfl
  | o :: occ, levels, h => by
    have ho : x ≠ o.1 := fun he => h ⟨o, mem_cons_self, he.symm⟩
    rw [levelsAfter, foldl_cons, ← levelsAfter, levelsAfter_of_not_uses occ _
      fun ⟨o', ho', he⟩ => h ⟨o', mem_cons_of_mem _ ho', he⟩]
    simp [bindName, ho]

theorem exists_levelsAfter {x : Name} : ∀ (occ : List (Name × Nat × Nat))
    (levels : Name → Option Nat), Uses occ x →
      ∃ level depth, (x, level, depth) ∈ occ ∧ levelsAfter levels occ x = some level
  | o :: occ, levels, h => by
    by_cases hx : Uses occ x
    · obtain ⟨level, depth, hmem, heq⟩ := exists_levelsAfter occ (bindName levels o.1 o.2.1) hx
      exact ⟨level, depth, mem_cons_of_mem _ hmem, heq⟩
    · obtain ⟨o', ho', rfl⟩ := h
      rcases mem_cons.mp ho' with rfl | ho'
      · refine ⟨o'.2.1, o'.2.2, mem_cons_self, ?_⟩
        rw [levelsAfter, foldl_cons, ← levelsAfter, levelsAfter_of_not_uses _ _ hx]
        simp [bindName]
      · exact absurd ⟨o', ho', rfl⟩ hx

theorem pass1_levels {t : Ast V F} {r : Pass1Result} (h : pass1 t = .ok r) :
    r.usageLevels = levelsAfter (fun _ => none) (t.occurrences 0 0) := by
  obtain ⟨st, hst, h⟩ := bind_eq_ok.mp h
  cases h
  exact (t.collect_ok hst 0).2.levels

/-! ## Pass 2 -/

/-- The names that a run reaches, with the level of the elaborator. -/
def usesOf (log : List Event) : List (Name × Nat) :=
  log.filterMap fun
    | .use n level => some (n, level)
    | .wire _ _ _ | .rep _ _ _ _ => none

theorem usesOf_append (log log' : List Event) : usesOf (log ++ log') = usesOf log ++ usesOf log' :=
  filterMap_append

/-- The name was made by renaming; those that a handler adds have no mint marker. -/
def minted (n : Name) : Bool := n.toList.contains '~'

theorem not_minted {s : String} (hs : '~' ∉ s.toList) (c : Nat) : minted (s ++ toString c) = false := by
  have hdigits : '~' ∉ (toString c).toList := fun h => absurd (isDigit_of_mem_toString h) (by decide)
  rw [minted, String.toList_append, contains_eq_mem]
  simp only [mem_append, hs, hdigits, or_self, decide_false]

/-- The uses of names that the term had before handlers were expanded. -/
def mintedUses (uses : List (Name × Nat)) : List (Name × Nat) := uses.filter fun u => minted u.1

theorem mintedUses_append (us us' : List (Name × Nat)) :
    mintedUses (us ++ us') = mintedUses us ++ mintedUses us' := filter_append ..

/-- The level at which pass 2 reaches a use. -/
def reached (occ : List (Name × Nat × Nat)) : List (Name × Nat) :=
  occ.map fun o => (o.1, o.2.1 + o.2.2)

theorem reached_append (occ occ' : List (Name × Nat × Nat)) :
    reached (occ ++ occ') = reached occ ++ reached occ' := map_append

mutual

theorem Ast.reached_occurrences : ∀ (t : Ast V F) {l d l' d' : Nat}, l + d = l' + d' →
    reached (t.occurrences l d) = reached (t.occurrences l' d')
  | .name n, _, _, _, _, h => by simp [occurrences, reached, h]
  | .val _, _, _, _, _, _ | .fn _, _, _, _, _, _ => rfl
  | .abs _ body, _, _, _, _, h | .fix body, _, _, _, _, h => body.reached_occurrences h
  | .app f x, l, d, l', d', h => by
    have hx := x.reached_occurrences (show l + 1 + d = l' + 1 + d' by omega)
    simp only [occurrences, reached_append]
    rw [f.reached_occurrences h, hx]
  | .rep e _ _ body, _, _, _, _, h | .era e body, _, _, _, _, h => by
    simp only [occurrences, reached_append]
    rw [e.reached_occurrences h, body.reached_occurrences h]
  | .perform _ e, _, _, _, _, h => e.reached_occurrences h
  | .handle comp branches, l, d, l', d', h => by
    have hbranches := branches.reached_occurrences (show l + (d + 1) = l' + (d' + 1) by omega)
    simp only [occurrences, reached_append]
    rw [comp.reached_occurrences h, hbranches]

theorem HandlerBranches.reached_occurrences : ∀ (bs : HandlerBranches V F) {l d l' d' : Nat},
    l + d = l' + d' → reached (bs.occurrences l d) = reached (bs.occurrences l' d')
  | .nil, _, _, _, _, _ => rfl
  | .cons _ _ _ body rest, _, _, _, _, h => by
    simp only [HandlerBranches.occurrences, reached_append]
    rw [body.reached_occurrences h, rest.reached_occurrences h]

end

section

variable {usage : Name → Option Nat} {t : Ast V F} {level : Nat} {lo : LOPath} {st st' : ElabState}
  {r : PortId × Nat} {log : List Event} {x : Name}

theorem mintedUses_of_not_minted {n : Name} (h : minted n = false) (l depth : Nat) :
    mintedUses (reached [(n, l, depth)]) = [] := by simp [mintedUses, reached, h]

theorem mintedUses_handle (r lbl : Nat) (comp : Ast V F) (label arg k : Name) (body : Ast V F)
    (l depth : Nat) :
    mintedUses (reached ((desugarHandle ("_r" ++ toString r) ("_lbl" ++ toString lbl) comp arg k
      body).occurrences l depth)) =
      mintedUses (reached ((handle comp (.cons label arg k body .nil)).occurrences l depth)) := by
  have hr : minted ("_r" ++ toString r) = false := not_minted (by decide) r
  have hlbl : minted ("_lbl" ++ toString lbl) = false := not_minted (by decide) lbl
  have hbody := body.reached_occurrences (show l + 1 + depth = l + (depth + 1) by omega)
  simp only [desugarHandle, occurrences, HandlerBranches.occurrences, reached_append,
    mintedUses_append, append_nil]
  rw [hbody, mintedUses_of_not_minted hr, mintedUses_of_not_minted hlbl, append_nil, nil_append]

/-- Pass 2 reaches the uses of the term in order. -/
theorem Emits.uses (h : Emits usage t level lo st r st' log) : ∀ l depth, level = l + depth →
    mintedUses (usesOf log) = mintedUses (reached (t.occurrences l depth)) := by
  induction h with
  | name hn =>
    rintro l depth rfl
    rfl
  | abs _ _ _ ih | fix _ _ _ _ _ ih =>
    intro l depth hl
    rw [usesOf_append, mintedUses_append, ih l depth hl]
    exact append_nil _
  | app _ _ _ _ _ ihf ihx =>
    intro l depth hl
    rw [usesOf_append, usesOf_append, mintedUses_append, mintedUses_append, ihf l depth hl,
      ihx (l + 1) depth (by omega), occurrences, reached_append, mintedUses_append]
    exact append_nil _
  | rep _ _ _ _ _ ihe ihb | era _ _ ihe ihb =>
    intro l depth hl
    rw [usesOf_append, mintedUses_append, ihe l depth hl, occurrences, reached_append,
      mintedUses_append, ← ihb l depth hl]
    rfl
  | @handle comp body label arg k level lo st st' r log _ ih =>
    intro l depth hl
    rw [ih l depth hl, mintedUses_handle _ _ comp label]
  | val _ | fn _ => exact fun _ _ _ => rfl

/-! Each use takes the name out of the environment. -/

/-- Whether a name is in the environment. -/
def Env.has (env : Env) (x : Name) : Nat := if (env x).isSome then 1 else 0

theorem has_bindName_le (env : Env) (x y : Name) (q : PortId × Nat) :
    Env.has (bindName env y q) x ≤ Env.has env x + [y].count x := by
  unfold Env.has bindName
  by_cases h : x = y
  · simp [h]
  · simp [h, Ne.symm h]

theorem has_unbindName_le (env : Env) (x y : Name) :
    Env.has (unbindName env y) x ≤ Env.has env x := by
  unfold Env.has unbindName
  by_cases h : x = y <;> simp [h]

/-- How often the name is reached. -/
def usesCount (log : List Event) (x : Name) : Nat := ((usesOf log).map Prod.fst).count x

theorem usesCount_append (log log' : List Event) (x : Name) :
    usesCount (log ++ log') x = usesCount log x + usesCount log' x := by
  simp [usesCount, usesOf_append]

theorem usesCount_wire (a b : PortId) (lo : LOPath) (log : List Event) (x : Name) :
    usesCount (.wire a b lo :: log) x = usesCount log x := rfl

theorem usesCount_rep (a b : Name) (i l : Nat) (log : List Event) (x : Name) :
    usesCount (.rep a b i l :: log) x = usesCount log x := rfl

theorem usesCount_nil (x : Name) : usesCount [] x = 0 := rfl

/-- A name is reached at most once for each of its binders. -/
theorem Emits.usesCount_le (h : Emits usage t level lo st r st' log) (hx : minted x = true) :
    usesCount log x + st'.env.has x ≤ st.env.has x + t.binders.count x := by
  induction h with
  | @name n level lo st r hn =>
    by_cases h : x = n
    · subst h
      simp [usesCount, usesOf, Env.has, unbindName, hn]
    · have hcount : usesCount [.use n level] x = 0 := by simp [usesCount, usesOf, Ne.symm h]
      have hle := has_unbindName_le st.env x n
      dsimp only
      omega
  | @abs y body level l lo loBody st st' ps net bodyP log _ _ _ ih =>
    have hbind := has_bindName_le st.env x y (ps.aux1, level + 1)
    have hunbind := has_unbindName_le st'.env x y
    simp only [usesCount_append, usesCount_wire, usesCount_nil, binders,
      count_cons (a := x) (b := y), count_nil] at hbind ih ⊢
    omega
  | app _ _ _ _ _ ihf ihx =>
    simp only [usesCount_append, usesCount_wire, usesCount_nil, binders, count_append]
      at ihf ihx ⊢
    omega
  | @rep e body a b level repLevel lo st st1 st2 ps net eP d0 d1 r log log' _ _ _ _ _ ihe ihb =>
    have hbind := has_bindName_le st1.env x a (ps.aux0, (usage a).getD level)
    have hbind' := has_bindName_le (bindName st1.env a (ps.aux0, (usage a).getD level)) x b
      (ps.aux1, (usage b).getD level)
    simp only [usesCount_append, usesCount_wire, usesCount_rep, binders, count_append,
      count_cons (a := x), count_nil] at hbind hbind' ihe ihb ⊢
    omega
  | era _ _ ihe ihb =>
    simp only [usesCount_append, usesCount_wire, binders, count_append] at ihe ihb ⊢
    omega
  | fix _ _ _ _ _ ih =>
    simp only [usesCount_append, usesCount_wire, usesCount_nil, binders] at ih ⊢
    omega
  | @handle comp body label arg k level lo st st' r log _ ih =>
    have hne : ∀ s : String, '~' ∉ s.toList → ∀ c : Nat, (s ++ toString c == x) = false := by
      intro s hs c
      refine beq_eq_false_iff_ne.mpr ?_
      rintro rfl
      exact Bool.false_ne_true ((not_minted hs c).symm.trans hx)
    simp only [desugarHandle, binders, HandlerBranches.binders, count_append,
      count_cons (a := x), count_nil, hne "_r" (by decide), hne "_lbl" (by decide),
      Bool.false_eq_true, if_false] at ih ⊢
    omega
  | val _ | fn _ => simp [usesCount_nil]

/-! ## The labels -/

theorem toI16_ok {d d' : Int} (h : toI16 d = .ok d') : d' = d := by
  unfold toI16 at h
  split at h
  · cases h
    rfl
  · cases h

/-- The replicators of a part of a run, one for each pair of names, seen from the later net `m`. -/
structure Labelled (usage : Name → Option Nat) (names : List (Name × Name)) (m : Net)
    (log : List Event) : Prop where
  label : ∀ a b i l, Event.rep a b i l ∈ log → (a, b) ∈ names ∧ ∃ d : Nat, (m.bodyAt i).label =
    (l % 2 ^ 16, ((usage a).getD d : Int) - l, ((usage b).getD d : Int) - l)
  all : ∀ ab ∈ names, ∃ i l, Event.rep ab.1 ab.2 i l ∈ log

section

variable {names names' : List (Name × Name)} {n n' m : Net} {log' : List Event}

theorem Labelled.append (h : Labelled usage names m log) (h' : Labelled usage names' m log') :
    Labelled usage (names ++ names') m (log ++ log') where
  label a b i l hmem := by
    rcases mem_append.mp hmem with hmem | hmem
    · exact (h.label a b i l hmem).imp_left (mem_append_left _)
    · exact (h'.label a b i l hmem).imp_left (mem_append_right _)
  all ab hab := by
    rcases mem_append.mp hab with hab | hab
    · obtain ⟨i, l, h⟩ := h.all ab hab
      exact ⟨i, l, mem_append_left _ h⟩
    · obtain ⟨i, l, h⟩ := h'.all ab hab
      exact ⟨i, l, mem_append_right _ h⟩

theorem Labelled.silent (hlog : ∀ a b i l, Event.rep a b i l ∉ log) : Labelled usage [] m log :=
  ⟨fun a b i l h => absurd h (hlog a b i l), nofun⟩

theorem Labelled.allocRep {a b : Name} {repLevel : Nat} {d0 d1 : Int} {ps : AgentPorts}
    (h0 : toI16 (((usage a).getD level : Int) - repLevel) = .ok d0)
    (h1 : toI16 (((usage b).getD level : Int) - repLevel) = .ok d1)
    (h : n.allocAgent .repInUnpaired (repLevel % 2 ^ 16) d0 d1 = .ok (ps, n')) (hm : n'.Grows m) :
    Labelled usage [(a, b)] m [.rep a b ps.principal.slotIdx repLevel] := by
  obtain ⟨i, ha, rfl⟩ := Net.allocAgent_ok h
  cases toI16_ok h0
  cases toI16_ok h1
  constructor
  · intro a' b' i' l' hmem
    cases mem_singleton.mp hmem
    obtain ⟨g, hslot⟩ := ha.slot_new
    exact ⟨mem_cons_self, level, (congrArg Net.Body.label (hm.body i ha.isLive_new)).trans
      (congrArg Slot.label hslot)⟩
  · intro ab hab
    cases mem_singleton.mp hab
    exact ⟨_, _, mem_cons_self⟩

theorem Emits.labelled (h : Emits usage t level lo st r st' log) (hwf : st.net.arena.WF)
    (hm : st'.net.Grows m) : Labelled usage t.repNames m log := by
  induction h with
  | name hn => exact .silent (by simp)
  | abs halloc _ _ ih =>
    obtain ⟨hwf', -⟩ := allocAgent_grows halloc hwf
    simpa [repNames] using (ih hwf' ((Net.grows_connect ..).trans hm)).append (.silent (by simp))
  | app halloc _ hf _ hx ihf ihx =>
    obtain ⟨hwf', -⟩ := allocAgent_grows halloc hwf
    obtain ⟨hwf1, -⟩ := hf.grows hwf'
    have hm2 := (Net.grows_connect ..).trans ((Net.grows_connect ..).trans hm)
    simpa [repNames] using ((ihf hwf' ((hx.grows hwf1).2.trans hm2)).append
      (ihx hwf1 hm2)).append (.silent (by simp))
  | @rep e body a b level repLevel lo st st1 st2 ps net eP d0 d1 r log log' he h0 h1 halloc hb ihe ihb =>
    obtain ⟨hwf1, -⟩ := he.grows hwf
    obtain ⟨hwf', hg⟩ := allocAgent_grows halloc hwf1
    have hwf2 := Net.wf_connect ps.principal eP lo hwf'
    have hm' : net.Grows m := (Net.grows_connect ..).trans ((hb.grows hwf2).2.trans hm)
    simpa [repNames] using (((ihe hwf (hg.trans hm')).append (.allocRep h0 h1 halloc hm')).append
      (.silent (by simp : ∀ a b i l, Event.rep a b i l ∉ [.wire ps.principal eP lo]))).append
      (ihb hwf2 hm)
  | @era e body level l lo st st1 st2 eP r log log' he hb ihe ihb =>
    have hwf1 := Net.wf_connect .era eP lo (he.grows hwf).1
    have hm1 := (Net.grows_connect ..).trans ((hb.grows hwf1).2.trans hm)
    simpa [repNames] using ((ihe hwf hm1).append
      (.silent (by simp : ∀ a b i l, Event.rep a b i l ∉ [.wire .era eP lo]))).append (ihb hwf1 hm)
  | fix _ hi happ hrep _ ih =>
    obtain ⟨hwf', hg⟩ := allocAgent_grows happ (hi.grows hwf).1
    have hg' := (allocAgent_grows hrep (Net.wf_connect _ _ _ hwf')).2
    have hm' := (Net.grows_connect ..).trans ((Net.grows_connect ..).trans hm)
    have hm1 := hg.trans ((Net.grows_connect ..).trans (hg'.trans hm'))
    simpa [repNames] using (ih hwf hm1).append (.silent (by simp))
  | handle _ ih =>
    simpa [repNames, HandlerBranches.repNames, desugarHandle] using ih hwf hm
  | val _ | fn _ => exact .silent (by simp)

end

/-! The level grows with the path, whose depth is bounded, so no label is cut off. -/

theorem extendBit_depth {p q : LOPath} {b : Bool} (h : p.extendBit b = .ok q) :
    q.depth = p.depth + 1 ∧ q.depth ≤ 512 := by
  have hbits := LOPath.extendBit_ok h
  unfold LOPath.extendBit at h
  split at h
  · next hlt =>
    have hlt : p.depth < 512 := hlt
    have hdepth : q.depth = p.depth + 1 := by simp [LOPath.depth, hbits]
    exact ⟨hdepth, by omega⟩
  · cases h

section

variable (B : Nat → Prop)

/-- Names are bound at levels in `B`. -/
def Env.Within (env : Env) : Prop := ∀ y q, env y = some q → B q.2

/-- Names are reached at levels up to 512, and terms with levels in `B` are replicated. -/
def Event.Within : Event → Prop
  | .use _ level => level ≤ 512
  | .rep _ _ _ level => B level
  | .wire _ _ _ => True

/-- The levels of the names of `Rep` nodes are in `B`. -/
def Ast.RepsWithin (usage : Name → Option Nat) (t : Ast V F) : Prop :=
  ∀ ab ∈ t.repNames, ∀ level ≤ 512, B ((usage ab.1).getD level) ∧ B ((usage ab.2).getD level)

variable {B} {env : Env}

theorem Env.Within.bind (h : env.Within B) (x : Name) {q : PortId × Nat} (hq : B q.2) :
    Env.Within B (bindName env x q) := by
  intro y q' hy
  rcases bindName_eq_some.mp hy with ⟨-, rfl⟩ | ⟨-, hy⟩
  · exact hq
  · exact h y q' hy

theorem Env.Within.unbind (h : env.Within B) (x : Name) : Env.Within B (unbindName env x) :=
  fun y q hy => h y q (unbindName_eq_some.mp hy).2

theorem Emits.within (h : Emits usage t level lo st r st' log) (hB : ∀ l ≤ 513, B l)
    (hfit : t.RepsWithin B usage) (hlevel : level ≤ lo.depth) (hlo : lo.depth ≤ 512)
    (henv : st.env.Within B) : B r.2 ∧ st'.env.Within B ∧ ∀ e ∈ log, e.Within B := by
  induction h with
  | @name n level lo st r hn =>
    exact ⟨henv n r hn, henv.unbind n, forall_mem_singleton.mpr (Nat.le_trans hlevel hlo)⟩
  | @abs x body level l lo loBody st st' ps net bodyP log _ hext _ ih =>
    obtain ⟨hd, hle⟩ := extendBit_depth hext
    obtain ⟨-, henv', hlog⟩ := ih hfit (by omega) hle (henv.bind x (hB _ (by omega)))
    exact ⟨hB _ (by omega), henv'.unbind x,
      forall_mem_append.mpr ⟨hlog, by simp [Event.Within]⟩⟩
  | app _ hext _ hext' _ ihf ihx =>
    obtain ⟨hd, hle⟩ := extendBit_depth hext
    obtain ⟨hd', hle'⟩ := extendBit_depth hext'
    obtain ⟨hfit, hfit'⟩ := forall_mem_append.mp hfit
    obtain ⟨-, henv, hlog⟩ := ihf hfit (by omega) hle henv
    obtain ⟨-, henv, hlog'⟩ := ihx hfit' (by omega) hle' henv
    exact ⟨hB _ (by omega), henv, forall_mem_append.mpr ⟨forall_mem_append.mpr ⟨hlog, hlog'⟩,
      by simp [Event.Within]⟩⟩
  | @rep e body a b level repLevel lo st st1 st2 ps net eP d0 d1 r log log' _ _ _ _ _ ihe ihb =>
    obtain ⟨hfit, hfit'⟩ := forall_mem_append.mp hfit
    obtain ⟨hab, hfit'⟩ := forall_mem_cons.mp hfit'
    obtain ⟨hrep, henv, hlog⟩ := ihe hfit hlevel hlo henv
    obtain ⟨ha, hb⟩ := hab level (Nat.le_trans hlevel hlo)
    obtain ⟨hr, henv, hlog'⟩ := ihb hfit' hlevel hlo ((henv.bind a ha).bind b hb)
    exact ⟨hr, henv, forall_mem_append.mpr ⟨hlog, forall_mem_cons.mpr ⟨hrep,
      forall_mem_cons.mpr ⟨trivial, hlog'⟩⟩⟩⟩
  | era _ _ ihe ihb =>
    obtain ⟨hfit, hfit'⟩ := forall_mem_append.mp hfit
    obtain ⟨-, henv, hlog⟩ := ihe hfit hlevel hlo henv
    obtain ⟨hr, henv, hlog'⟩ := ihb hfit' hlevel hlo henv
    exact ⟨hr, henv, forall_mem_append.mpr ⟨hlog, forall_mem_cons.mpr ⟨trivial, hlog'⟩⟩⟩
  | fix hext _ _ _ _ ih =>
    obtain ⟨hd, hle⟩ := extendBit_depth hext
    obtain ⟨-, henv, hlog⟩ := ih hfit (by omega) hle henv
    exact ⟨hB _ (by omega), henv, forall_mem_append.mpr ⟨hlog, by simp [Event.Within]⟩⟩
  | handle _ ih =>
    refine ih (fun ab h => hfit ab ?_) hlevel hlo henv
    simpa [repNames, HandlerBranches.repNames, desugarHandle] using h
  | val _ | fn _ => exact ⟨hB _ (by omega), henv, nofun⟩

end

/-! ## Agreement of the passes -/

/-- The levels at which a run reaches the name. -/
def levelsOf (log : List Event) (x : Name) : List Nat :=
  ((usesOf log).filter fun u => u.1 == x).map Prod.snd

/-- The label of the replicator in slot `i`: the level `l` that was returned for the replicated
term, and the levels at which the names are reached, once each, relative to it. -/
def LabelAgrees (n : Net) (log : List Event) (a b : Name) (i l : Nat) : Prop :=
  ∃ la lb : Nat, levelsOf log a = [la] ∧ levelsOf log b = [lb] ∧
    (n.bodyAt i).label = (l, (la : Int) - l, (lb : Int) - l)

/-- The one use of a name, as both passes see it. -/
structure UsedAt (usage : Name → Option Nat) (t : Ast V F) (log : List Event) (x : Name)
    (l depth : Nat) : Prop where
  pass1 : usage x = some l
  pass2 : levelsOf log x = [l + depth]
  level : l + depth ≤ 512
  mem : (x, l, depth) ∈ t.occurrences 0 0
  only : ∀ o ∈ t.occurrences 0 0, o.1 = x → o = (x, l, depth)

theorem length_filter_eq_count {α : Type} (f : α → Name) (x : Name) (l : List α) :
    (l.filter fun a => f a == x).length = (l.map f).count x := by
  rw [← countP_eq_length_filter, List.count, countP_map]
  rfl

theorem eq_of_mem_of_length_le_one {α : Type} {l : List α} (hl : l.length ≤ 1) {a b : α}
    (ha : a ∈ l) (hb : b ∈ l) : a = b := by
  match l, hl with
  | [c], _ => rw [mem_singleton.mp ha, mem_singleton.mp hb]

theorem filter_mintedUses (hx : minted x = true) (us : List (Name × Nat)) :
    (mintedUses us).filter (fun u => u.1 == x) = us.filter fun u => u.1 == x := by
  rw [mintedUses, filter_filter]
  refine filter_congr fun u _ => ?_
  by_cases h : u.1 = x <;> simp [h, hx]

theorem Emits.usedAt {p1 : Pass1Result} (hpass : pass1 t = .ok p1)
    (h : Emits p1.usageLevels t 0 .root st r st' log) (henv : st.env = fun _ => none)
    (hx : minted x = true) (hbinders : t.binders.count x ≤ 1) (huses : Uses (t.occurrences 0 0) x) :
    ∃ l depth, UsedAt p1.usageLevels t log x l depth := by
  obtain ⟨l, depth, hmem, hl⟩ := exists_levelsAfter _ (fun _ => none) huses
  -- the uses of `x` in the run are those in the term, and there is at most one
  have hfilter : (usesOf log).filter (fun u => u.1 == x) =
      (reached (t.occurrences 0 0)).filter fun u => u.1 == x := by
    rw [← filter_mintedUses hx, h.uses 0 0 rfl, filter_mintedUses hx]
  have hcount : ((usesOf log).map Prod.fst).count x ≤ 1 := by
    have hle := h.usesCount_le hx
    have hnone : st.env.has x = 0 := by simp [Env.has, henv]
    have heq : usesCount log x = ((usesOf log).map Prod.fst).count x := rfl
    omega
  have hcount' : ((t.occurrences 0 0).map Prod.fst).count x ≤ 1 := by
    have hmap : (reached (t.occurrences 0 0)).map Prod.fst = (t.occurrences 0 0).map Prod.fst := by
      rw [reached, map_map]
      rfl
    rw [← hmap, ← length_filter_eq_count, ← hfilter, length_filter_eq_count]
    exact hcount
  have hreached : (x, l + depth) ∈ (usesOf log).filter fun u => u.1 == x := by
    rw [hfilter]
    exact mem_filter.mpr ⟨mem_map.mpr ⟨_, hmem, rfl⟩, beq_self_eq_true x⟩
  refine ⟨l, depth, by rw [pass1_levels hpass, hl], ?_, ?_, hmem, ?_⟩
  · have hlen : ((usesOf log).filter fun u => u.1 == x).length ≤ 1 :=
      (length_filter_eq_count _ x _).trans_le hcount
    match hlist : (usesOf log).filter fun u => u.1 == x with
    | [] => rw [hlist] at hreached; cases hreached
    | [u] =>
      rw [hlist] at hreached
      rw [levelsOf, hlist, ← mem_singleton.mp hreached]
      rfl
    | _ :: _ :: _ => rw [hlist] at hlen; simp at hlen
  · obtain ⟨e, he, heq⟩ := mem_filterMap.mp (mem_filter.mp hreached).1
    have hwithin := (h.within (B := fun _ => True) (fun _ _ => trivial)
      (fun _ _ _ _ => ⟨trivial, trivial⟩) (Nat.zero_le _) (Nat.zero_le _) fun _ _ _ => trivial).2.2
    cases e with
    | use n level =>
      cases heq
      exact hwithin _ he
    | _ => cases heq
  · intro o ho hox
    exact eq_of_mem_of_length_le_one ((length_filter_eq_count Prod.fst x _).trans_le hcount')
      (mem_filter.mpr ⟨ho, by simp [hox]⟩) (mem_filter.mpr ⟨hmem, by simp⟩)

end

variable {st st' : ElabState} {r : PortId × Nat} {p1 : Pass1Result} {log : List Event}

theorem Emits.usedAt_rep {t : Ast V F} {ctr : Nat} (hpass : pass1 (t.alphaRename ctr) = .ok p1)
    (h : Emits p1.usageLevels (t.alphaRename ctr) 0 .root st r st' log)
    (henv : st.env = fun _ => none) {ab : Name × Name} (hab : ab ∈ (t.alphaRename ctr).repNames)
    {x : Name} (hx : x = ab.1 ∨ x = ab.2) :
    ∃ l depth, UsedAt p1.usageLevels (t.alphaRename ctr) log x l depth := by
  have hbinders := t.rename_binders (fun _ => none) ctr
  obtain ⟨huses, hmem⟩ : UsedBinder ((t.alphaRename ctr).occurrences 0 0)
      (t.alphaRename ctr).binders x := by
    obtain ⟨ha, hb⟩ := (pass1_ok_iff.mp ⟨p1, hpass⟩).reps 0 0 hab
    rcases hx with rfl | rfl
    · exact ha
    · exact hb
  have hminted : minted x = true := by
    obtain ⟨b, c, rfl, -, -⟩ := hbinders.made x hmem
    simp [minted, alphaFresh, String.toList_append]
  exact h.usedAt hpass henv hminted (nodup_iff_count_le_one.mp hbinders.nodup x) huses

theorem Emits.labels {t : Ast V F} {ctr : Nat} (hpass : pass1 (t.alphaRename ctr) = .ok p1)
    (h : Emits p1.usageLevels (t.alphaRename ctr) 0 .root st r st' log)
    (henv : st.env = fun _ => none) (hwf : st.net.arena.WF) :
    (∀ a b i l, Event.rep a b i l ∈ log → LabelAgrees st'.net log a b i l) ↔
      (t.alphaRename ctr).RepsOutside := by
  have hused := fun {ab} (hab : ab ∈ _) {x} (hx : x = ab.1 ∨ x = ab.2) => h.usedAt_rep hpass henv hab hx
  have hfit : (t.alphaRename ctr).RepsWithin (· < 2 ^ 16) p1.usageLevels := by
    intro ab hab level _
    obtain ⟨la, da, ha⟩ := hused hab (.inl rfl)
    obtain ⟨lb, db, hb⟩ := hused hab (.inr rfl)
    have hla := ha.level
    have hlb := hb.level
    rw [ha.pass1, hb.pass1]
    exact ⟨by simp only [Option.getD_some]; omega, by simp only [Option.getD_some]; omega⟩
  have hlevels := (h.within (fun _ => by omega) hfit (Nat.zero_le _) (Nat.zero_le _)
    (by rw [henv]; exact nofun)).2.2
  have hlab := h.labelled hwf (.refl _)
  -- the label that the run writes has the levels of pass 1
  have hwritten : ∀ a b i l, Event.rep a b i l ∈ log → ∃ la da lb db,
      UsedAt p1.usageLevels (t.alphaRename ctr) log a la da ∧
      UsedAt p1.usageLevels (t.alphaRename ctr) log b lb db ∧
      (st'.net.bodyAt i).label = (l, (la : Int) - l, (lb : Int) - l) := by
    intro a b i l hrep
    obtain ⟨hab, d, hlabel⟩ := hlab.label a b i l hrep
    obtain ⟨la, da, ha⟩ := hused hab (.inl rfl)
    obtain ⟨lb, db, hb⟩ := hused hab (.inr rfl)
    refine ⟨la, da, lb, db, ha, hb, ?_⟩
    rw [hlabel, ha.pass1, hb.pass1, Nat.mod_eq_of_lt (hlevels _ hrep)]
    rfl
  constructor
  · intro hagree o ho ab hab hx
    obtain ⟨i, l, hrep⟩ := hlab.all ab hab
    obtain ⟨la, da, lb, db, ha, hb, hlabel⟩ := hwritten ab.1 ab.2 i l hrep
    obtain ⟨la', lb', hla, hlb, hlabel'⟩ := hagree ab.1 ab.2 i l hrep
    rw [ha.pass2] at hla
    rw [hb.pass2] at hlb
    cases hla
    cases hlb
    have hdeltas := hlabel.symm.trans hlabel'
    simp only [Prod.mk.injEq, true_and] at hdeltas
    rcases hx with hx | hx
    · rw [ha.only o ho hx]
      dsimp only
      omega
    · rw [hb.only o ho hx]
      dsimp only
      omega
  · intro hout a b i l hrep
    have hab := (hlab.label a b i l hrep).1
    obtain ⟨la, da, lb, db, ha, hb, hlabel⟩ := hwritten a b i l hrep
    obtain rfl : da = 0 := hout _ ha.mem (a, b) hab (.inl rfl)
    obtain rfl : db = 0 := hout _ hb.mem (a, b) hab (.inr rfl)
    exact ⟨la, lb, ha.pass2, hb.pass2, hlabel⟩

/-- The replicators of a run have the levels at which pass 2 reaches their names exactly if no
such name is used inside the branch of a handler. -/
theorem labels_agree_iff {t : Ast V F} {ctr : Nat} {p1 : Pass1Result}
    (hpass : pass1 (t.alphaRename ctr) = .ok p1) {st st' : ElabState} {r : PortId × Nat}
    (henv : st.env = fun _ => none) (hwf : st.net.arena.WF) {debug : Bool}
    (hrun : (t.alphaRename ctr).elabImpl debug p1.usageLevels 0 .root st = .ok (r, st')) :
    ∃ log, Emits p1.usageLevels (t.alphaRename ctr) 0 .root st r st' log ∧
      ((∀ a b i l, Event.rep a b i l ∈ log → LabelAgrees st'.net log a b i l) ↔
        (t.alphaRename ctr).RepsOutside) := by
  obtain ⟨log, hlog⟩ := (elabImpl_emits _).run hrun
  exact ⟨log, hlog, hlog.labels hpass henv hwf⟩

/-- `handle (z: Rep(z, a, b, a b)) with l x k: k x`. -/
def sharedOutside : Ast Empty Empty :=
  .handle (.abs "z" (.rep (.name "z") "a" "b" (.app (.name "a") (.name "b"))))
    (.cons "l" "x" "k" (.app (.name "k") (.name "x")) .nil)

theorem sharedOutside_agrees : ∃ p1 r st' log, pass1 (sharedOutside.alphaRename 0) = .ok p1 ∧
    Emits p1.usageLevels (sharedOutside.alphaRename 0) 0 .root (.init 16) r st' log ∧
    ∀ a b i l, Event.rep a b i l ∈ log → LabelAgrees st'.net log a b i l := by
  obtain ⟨p1, r, st', hpass, hrun⟩ := exists_elab (t := sharedOutside) (c := 16) (by decide +kernel)
  obtain ⟨log, hlog, hiff⟩ := labels_agree_iff hpass rfl (Arena.WF.new 16) hrun
  exact ⟨p1, r, st', log, hpass, hlog, hiff.mpr (by unfold Ast.RepsOutside; decide +kernel)⟩

/-- `handle (z: z) with l x k: Rep(x, a, b, k a b)`: pass 1 sees `a` and `b` at level 1, pass 2
reaches them at level 2. -/
def sharedInside : Ast Empty Empty :=
  .handle (.abs "z" (.name "z")) (.cons "l" "x" "k"
    (.rep (.name "x") "a" "b" (.app (.app (.name "k") (.name "a")) (.name "b"))) .nil)

theorem sharedInside_disagrees : ∃ p1 r st' log, pass1 (sharedInside.alphaRename 0) = .ok p1 ∧
    (sharedInside.alphaRename 0).elabImpl false p1.usageLevels 0 .root (.init 16) = .ok (r, st') ∧
    Emits p1.usageLevels (sharedInside.alphaRename 0) 0 .root (.init 16) r st' log ∧
    ¬∀ a b i l, Event.rep a b i l ∈ log → LabelAgrees st'.net log a b i l := by
  obtain ⟨p1, r, st', hpass, hrun⟩ := exists_elab (t := sharedInside) (c := 16) (by decide +kernel)
  obtain ⟨log, hlog⟩ := (elabImpl_emits _).run hrun
  refine ⟨p1, r, st', log, hpass, hrun, hlog, fun hagree => ?_⟩
  have hout := (hlog.labels hpass rfl (Arena.WF.new 16)).mp hagree
  exact absurd hout (by unfold Ast.RepsOutside; decide +kernel)

end Dnet
