import Dnet.Read.Reads

/-!
# The names of the readback

`lambda_to_dnx` gives every occurrence of a variable a name of its own and copies the variable
with a chain of `Rep` nodes. The names of different variables differ, so every name is used once
and without the chains the term is the one that was read (`lambdaToDnx_reelaborates`).
-/

namespace Dnet

open Lib List Function

variable {V F : Type} {σ σ1 : Name → Name} {y : Name} {v : Nat} {s s1 : Supply}

/-- A name that an occurrence of the variable can get. -/
def IsNameOf (v : Nat) (y : Name) : Prop :=
  y = varName v ∨ ∃ i : Nat, y = varName v ++ "__" ++ toString i

theorem not_mem_varName {c : Char} (hc : c ≠ 'v') (hdigit : c.isDigit = false) (v : Nat) :
    c ∉ (varName v).toList := by
  rw [varName, String.toList_append, mem_append]
  rintro (h | h)
  · exact hc (mem_singleton.mp h)
  · exact absurd (isDigit_of_mem_toString h) (by simp [hdigit])

theorem IsNameOf.unique {v w : Nat} (hv : IsNameOf v y) (hw : IsNameOf w y) : v = w := by
  have hstem : Stem "__" := ⟨['_'], '_', rfl, rfl⟩
  have hmixed : ∀ v w i : Nat, varName v ≠ varName w ++ "__" ++ toString i := by
    intro v w i h
    refine not_mem_varName (c := '_') (by decide) (by decide) v ?_
    rw [h]
    simp [String.toList_append]
  rcases hv with rfl | ⟨i, rfl⟩ <;> rcases hw with hw | ⟨j, hw⟩
  · exact varName_inj hw
  · exact absurd hw (hmixed v w j)
  · exact absurd hw.symm (hmixed w v i)
  · have heq := ((hstem.append (varName v)).toString_inj (hstem.append (varName w)) hw).1
    exact varName_inj ((String.append_left_inj _).mp heq)

/-- No name of an occurrence has the mark of the rest of a chain. -/
theorem IsNameOf.no_quote (h : IsNameOf v y) : '\'' ∉ y.toList := by
  have hv := not_mem_varName (c := '\'') (by decide) (by decide) v
  rcases h with rfl | ⟨i, rfl⟩
  · exact hv
  · have hi : '\'' ∉ (toString i).toList := fun h => absurd (isDigit_of_mem_toString h) (by decide)
    rw [String.toList_append, String.toList_append, mem_append, mem_append]
    rintro ((h | h) | h)
    · exact hv h
    · exact absurd h (by decide)
    · exact hi h

theorem isNameOf_copyNames {v k : Nat} (h : y ∈ copyNames (varName v) k) : IsNameOf v y := by
  obtain ⟨i, -, rfl⟩ := mem_map.mp h
  exact .inr ⟨i, rfl⟩

/-! ## Chains -/

theorem chainReps_chain : ∀ (rest : List Name) (orig n0 n1 : Name) (body : Ast V F), ∃ rests,
    (∀ r ∈ rests, '\'' ∈ r.toList) ∧
      Chain body orig (n0 :: n1 :: rest) rests (chainReps orig n0 n1 rest body)
  | [], _, _, _, _ => ⟨[], nofun, .pair⟩
  | next0 :: more, orig, n0, n1, body => by
    obtain ⟨rests, hrests, hc⟩ := chainReps_chain more (orig ++ "'") n1 next0 body
    exact ⟨_, forall_mem_cons.mpr ⟨by simp, hrests⟩, .cons hc⟩

/-! ## The supply -/

def namesOf (s : Supply) (v : Nat) : List Name := (s v).getD []

/-- The names in the supply are names of their variable and are read as the variable. -/
structure Supplied (s : Supply) (σ : Name → Name) (Δ : List Nat) : Prop where
  names : ∀ v ∈ Δ, ∀ y ∈ namesOf s v, IsNameOf v y ∧ σ y = varName v
  other : ∀ v, v ∉ Δ → namesOf s v = []

theorem namesOf_update_self (s : Supply) (v : Nat) (q : Option (List Name)) :
    namesOf (update s v q) v = q.getD [] := by rw [namesOf, update_self]

theorem namesOf_update_of_ne (s : Supply) {v w : Nat} (h : w ≠ v) (q : Option (List Name)) :
    namesOf (update s v q) w = namesOf s w := by
  rw [namesOf, update_of_ne h, namesOf]

/-- What `lambda_to_dnx` does with a supply. -/
structure Linearises (ir : LambdaIR) (s : Supply) (σ : Name → Name) (Δ : List Nat)
    (r : Ast V F × Supply) : Prop where
  erasure : r.1.erasure σ = some ir.named
  used : ∀ v ∈ Δ, namesOf r.2 v = (namesOf s v).drop (ir.countFree v)
  other : ∀ v, v ∉ Δ → namesOf r.2 v = []
  usedOnce : r.1.UsedOnce
  free : ∀ y ∈ r.1.freeNames, ∃ v ∈ Δ, IsNameOf v y
  count : ∀ v ∈ Δ, ∀ y, IsNameOf v y →
    r.1.freeNames.count y = ((namesOf s v).take (ir.countFree v)).count y

/-- `a` binds the variable `v` and its names over the body. -/
structure Binds (v : Nat) (names : List Name) (body a : Ast V F) : Prop where
  count : ∀ z, a.freeNames.count z =
    if z = varName v ∨ z ∈ names then 0 else body.freeNames.count z
  usedOnce : (∀ n ∈ names, body.freeNames.count n = 1) →
    (varName v ∉ names → body.freeNames.count (varName v) = 0) → body.UsedOnce → a.UsedOnce

theorem binds_era (v : Nat) (body : Ast V F) :
    Binds v [] body (.abs (varName v) (.era (.name (varName v)) body)) where
  count z := by
    rw [Ast.freeNames, count_filter_ne]
    by_cases hz : z = varName v <;> simp [Ast.freeNames, hz, eq_comm]
  usedOnce _ h hbody := ⟨by simp [Ast.freeNames, h not_mem_nil], trivial, hbody⟩

theorem binds_once (v : Nat) (body : Ast V F) :
    Binds v [varName v] body (.abs (varName v) body) where
  count z := by
    rw [Ast.freeNames, count_filter_ne]
    simp
  usedOnce h _ hbody := ⟨h _ mem_cons_self, hbody⟩

theorem Chain.binds {names rests : List Name} {body t : Ast V F}
    (h : Chain body (varName v) names rests t) (hn : ChainNames names rests)
    (hfree : ∀ r ∈ rests, r ∉ body.freeNames) : Binds v names body (.abs (varName v) t) where
  count z := by
    rw [Ast.freeNames, count_filter_ne, h.count hn hfree]
    by_cases hz : z = varName v <;> simp [hz, eq_comm]
  usedOnce hnames hself hbody := by
    refine ⟨?_, (h.usedOnce hn hfree).mpr ⟨hnames, hbody⟩⟩
    rw [h.count hn hfree, count_singleton_self]
    split
    · rfl
    · next hm => rw [hself hm]

theorem Supplied.body {Δ : List Nat}
    (h : Supplied s σ Δ) (hv : v ∉ Δ) (hs : ∀ w, w ≠ v → namesOf s1 w = namesOf s w)
    (hnames : ∀ y ∈ namesOf s1 v, IsNameOf v y ∧ σ1 y = varName v)
    (hσ : ∀ y, ¬IsNameOf v y → '\'' ∉ y.toList → σ1 y = σ y) : Supplied s1 σ1 (v :: Δ) where
  names w hw y hy := by
    rcases mem_cons.mp hw with rfl | hw
    · exact hnames y hy
    · have hne : w ≠ v := fun he => hv (he ▸ hw)
      rw [hs w hne] at hy
      obtain ⟨hname, hread⟩ := h.names w hw y hy
      exact ⟨hname, (hσ y (fun h' => hne (hname.unique h')) hname.no_quote).trans hread⟩
  other w hw := by
    rw [mem_cons, not_or] at hw
    rw [hs w hw.1, h.other w hw.2]

/-- After the body the names of its variable are gone. -/
theorem Linearises.abs {body : LambdaIR} {Δ : List Nat}
    {r : Ast V F × Supply} (h : Linearises body s1 σ1 (v :: Δ) r) (hv : v ∉ Δ)
    (hs : ∀ w, w ≠ v → namesOf s1 w = namesOf s w) {names : List Name} (hnm : namesOf s1 v = names)
    (hlen : body.countFree v = names.length) (hnodup : names.Nodup)
    (hname : ∀ y ∈ names, IsNameOf v y) {a : Ast V F} (hbinds : Binds v names r.1 a)
    (ha : a.erasure σ = (r.1.erasure σ1).map (.abs (varName v))) {s2 : Supply}
    (hs2 : ∀ w, w ≠ v → namesOf s2 w = namesOf r.2 w) (hv2 : namesOf s2 v = []) :
    Linearises (.abs v body) s σ Δ (a, s2) := by
  have hne : ∀ w ∈ Δ, w ≠ v := fun w hw he => hv (he ▸ hw)
  have hown : ∀ y, IsNameOf v y → r.1.freeNames.count y = names.count y := fun y hy => by
    rw [h.count v mem_cons_self y hy, hnm, hlen, take_length]
  constructor
  case erasure =>
    rw [ha, h.erasure]
    rfl
  case used =>
    intro w hw
    rw [hs2 w (hne w hw), h.used w (mem_cons_of_mem _ hw), hs w (hne w hw)]
    rfl
  case other =>
    intro w hw
    by_cases hwv : w = v
    · rw [hwv, hv2]
    · rw [hs2 w hwv, h.other w (by simp [hwv, hw])]
  case usedOnce =>
    refine hbinds.usedOnce (fun n hn => ?_) (fun hself => ?_) h.usedOnce
    · rw [hown n (hname n hn), count_eq_one_of_mem hnodup hn]
    · rw [hown _ (.inl rfl), count_eq_zero_of_not_mem hself]
  case free =>
    intro y hy
    have hpos := count_pos_iff.mpr hy
    rw [hbinds.count] at hpos
    split at hpos
    · cases hpos
    · next hnot =>
      obtain ⟨w, hw, hyw⟩ := h.free y (count_pos_iff.mp hpos)
      rcases mem_cons.mp hw with rfl | hw
      · rw [hown y hyw] at hpos
        exact absurd (.inr (count_pos_iff.mp hpos)) hnot
      · exact ⟨w, hw, hyw⟩
  case count =>
    intro w hw y hy
    have hnot : ¬IsNameOf v y := fun hyv => hne w hw (hy.unique hyv)
    rw [hbinds.count, if_neg, h.count w (mem_cons_of_mem _ hw) y hy, hs w (hne w hw)]
    · rfl
    · rintro (rfl | hm)
      · exact hnot (.inl rfl)
      · exact hnot (hname y hm)

theorem Linearises.var {Δ : List Nat} {y : Name} {q : List Name} (h : Supplied s σ Δ) (hv : v ∈ Δ)
    (hs : s v = some (y :: q)) :
    Linearises (.var v) s σ Δ ((.name y, update s v (some q)) : Ast V F × Supply) := by
  have hy : namesOf s v = y :: q := by simp [namesOf, hs]
  obtain ⟨hname, hread⟩ := h.names v hv y (by simp [hy])
  refine ⟨?_, fun w hw => ?_, fun w hw => ?_, trivial, ?_, fun w hw z hz => ?_⟩
  · rw [Ast.erasure, hread]
    rfl
  · by_cases hne : w = v
    · rw [hne, namesOf_update_self, hy]
      simp [LambdaIR.countFree]
    · rw [namesOf_update_of_ne s hne]
      simp [LambdaIR.countFree, Ne.symm hne]
  · have hne : w ≠ v := fun he => hw (he ▸ hv)
    rw [namesOf_update_of_ne s hne, h.other w hw]
  · exact forall_mem_singleton.mpr ⟨v, hv, hname⟩
  · by_cases hne : w = v
    · simp [hne, hy, LambdaIR.countFree, Ast.freeNames]
    · have hyz : y ≠ z := fun he => hne (hz.unique (he ▸ hname))
      simp [LambdaIR.countFree, Ast.freeNames, Ne.symm hne, hyz]

/-- The argument takes its names from what the function leaves. -/
theorem Linearises.app {f x : LambdaIR} {Δ : List Nat} {r r' : Ast V F × Supply}
    (hf : Linearises f s σ Δ r) (hx : Linearises x r.2 σ Δ r') :
    Linearises (.app f x) s σ Δ (.app r.1 r'.1, r'.2) := by
  refine ⟨?_, fun v hv => ?_, hx.other, ⟨hf.usedOnce, hx.usedOnce⟩, ?_, fun v hv y hy => ?_⟩
  · show (do return Ast.app (← Ast.erasure σ _) (← Ast.erasure σ _)) = _
    rw [hf.erasure, hx.erasure]
    rfl
  · show namesOf r'.2 v = _
    rw [hx.used v hv, hf.used v hv, drop_drop]
    rfl
  · exact forall_mem_append.mpr ⟨hf.free, hx.free⟩
  · show (r.1.freeNames ++ r'.1.freeNames).count y = _
    rw [count_append, hf.count v hv y hy, hx.count v hv y hy, hf.used v hv, ← count_append,
      ← take_add]
    rfl

theorem Supplied.rest {f : LambdaIR} {Δ : List Nat} {r : Ast V F × Supply} (h : Supplied s σ Δ)
    (hf : Linearises f s σ Δ r) : Supplied r.2 σ Δ := by
  refine ⟨fun v hv y hy => h.names v hv y ?_, hf.other⟩
  rw [hf.used v hv] at hy
  exact mem_of_mem_drop hy

section Abs

variable {body : LambdaIR} {Δ : List Nat}

/-- `lambda_to_dnx` linearises the term with every supply that has a name for each use. -/
def LinearisesAll (V F : Type) (ir : LambdaIR) (Δ : List Nat) : Prop :=
  ∀ {s : Supply} {σ : Name → Name}, Supplied s σ Δ →
    (∀ v ∈ Δ, ir.countFree v ≤ (namesOf s v).length) →
      Linearises ir s σ Δ (lambdaToDnx ir s : Ast V F × Supply)

/-- The body with `names` as the names of its variable. -/
theorem LinearisesAll.withNames (hbody : LinearisesAll V F body (v :: Δ)) (h : Supplied s σ Δ)
    (hv : v ∉ Δ) (hlen : ∀ w ∈ Δ, body.countFree w ≤ (namesOf s w).length) {names : List Name}
    (hs : ∀ w, w ≠ v → namesOf s1 w = namesOf s w) (hnm : namesOf s1 v = names)
    (hnames : ∀ y ∈ names, IsNameOf v y ∧ σ1 y = varName v)
    (hσ : ∀ y, ¬IsNameOf v y → '\'' ∉ y.toList → σ1 y = σ y)
    (hk : body.countFree v = names.length) :
    Linearises body s1 σ1 (v :: Δ) (lambdaToDnx body s1 : Ast V F × Supply) := by
  refine hbody (h.body hv hs (hnm ▸ hnames) hσ) fun w hw => ?_
  rcases mem_cons.mp hw with rfl | hw
  · rw [hk, hnm]
  · rw [hs w fun he => hv (he ▸ hw)]
    exact hlen w hw

theorem update_varName (σ : Name → Name) {y : Name} (hy : ¬IsNameOf v y) :
    update σ (varName v) (varName v) y = σ y := by
  have hne : y ≠ varName v := fun he => hy (he ▸ .inl rfl)
  exact update_of_ne hne _ _

/-- A variable that is not used is erased. -/
theorem LinearisesAll.unused (hbody : LinearisesAll V F body (v :: Δ)) (h : Supplied s σ Δ)
    (hv : v ∉ Δ) (hlen : ∀ w ∈ Δ, body.countFree w ≤ (namesOf s w).length)
    (hk : body.countFree v = 0) :
    Linearises (.abs v body) s σ Δ (lambdaToDnx (.abs v body) s : Ast V F × Supply) := by
  have hnil : namesOf s v = [] := h.other v hv
  have hr := hbody.withNames h hv hlen (fun _ _ => rfl) hnil (forall_mem_nil _)
    (fun y hy _ => update_varName σ hy) hk
  rw [lambdaToDnx, hk]
  exact hr.abs hv (fun _ _ => rfl) hnil hk nodup_nil (forall_mem_nil _) (binds_era v _) rfl
    (fun _ _ => rfl) (by rw [hr.used v mem_cons_self, hnil, drop_nil])

/-- A variable that is used once keeps its name. -/
theorem LinearisesAll.single (hbody : LinearisesAll V F body (v :: Δ)) (h : Supplied s σ Δ)
    (hv : v ∉ Δ) (hlen : ∀ w ∈ Δ, body.countFree w ≤ (namesOf s w).length)
    (hk : body.countFree v = 1) :
    Linearises (.abs v body) s σ Δ (lambdaToDnx (.abs v body) s : Ast V F × Supply) := by
  have hself : IsNameOf v (varName v) := .inl rfl
  have hs : ∀ w, w ≠ v → namesOf (update s v (some [varName v])) w = namesOf s w :=
    fun w hw => namesOf_update_of_ne s hw _
  have hr := hbody.withNames h hv hlen hs (namesOf_update_self ..)
    (forall_mem_singleton.mpr ⟨hself, update_self (varName v) (varName v) σ⟩)
    (fun y hy _ => update_varName σ hy) hk
  rw [lambdaToDnx, hk]
  exact hr.abs hv hs (namesOf_update_self ..) hk (nodup_singleton _)
    (forall_mem_singleton.mpr hself) (binds_once v _) rfl
    (fun w hw => namesOf_update_of_ne _ hw _) (namesOf_update_self ..)

/-- A variable with more uses is copied by a chain of replicators. -/
theorem LinearisesAll.copied (hbody : LinearisesAll V F body (v :: Δ)) (h : Supplied s σ Δ)
    (hv : v ∉ Δ) (hlen : ∀ w ∈ Δ, body.countFree w ≤ (namesOf s w).length) {k : Nat}
    (hk : body.countFree v = k + 2) :
    Linearises (.abs v body) s σ Δ (lambdaToDnx (.abs v body) s : Ast V F × Supply) := by
  have hcopies : ∀ y ∈ copyNames (varName v) (k + 2), IsNameOf v y := fun y hy =>
    isNameOf_copyNames hy
  have hlength : (copyNames (varName v) (k + 2)).length = k + 2 := by simp [copyNames]
  obtain ⟨n0, n1, rest, hnm⟩ : ∃ n0 n1 rest, copyNames (varName v) (k + 2) = n0 :: n1 :: rest := by
    obtain ⟨n0, names, hnm⟩ := exists_of_length_succ _ hlength
    rw [hnm] at hlength ⊢
    obtain ⟨n1, rest, rfl⟩ := exists_of_length_succ _ (Nat.succ.inj hlength)
    exact ⟨n0, n1, rest, rfl⟩
  have hnodup : (n0 :: n1 :: rest).Nodup := hnm ▸ nodup_copies (varName v) (k + 2)
  rw [hnm] at hcopies hlength
  obtain ⟨rests, hrests, hc⟩ := chainReps_chain rest (varName v) n0 n1
    (lambdaToDnx body (update s v (some (n0 :: n1 :: rest))) : Ast V F × Supply).1
  have hchain : ChainNames (n0 :: n1 :: rest) rests :=
    ⟨hnodup, fun r hr hm => (hcopies r hm).no_quote (hrests r hr)⟩
  obtain ⟨σ1, herase, hcopy, hother⟩ := hc.erasure hchain (update σ (varName v) (varName v))
  rw [update_self] at hcopy
  have hs : ∀ w, w ≠ v → namesOf (update s v (some (n0 :: n1 :: rest))) w = namesOf s w :=
    fun w hw => namesOf_update_of_ne s hw _
  have hr := hbody.withNames h hv hlen hs (namesOf_update_self ..)
    (fun y hy => ⟨hcopies y hy, hcopy y hy⟩)
    (fun y hy hq => (hother y (fun hmem => hy (hcopies y hmem)) fun hr => hq (hrests y hr)).trans
      (update_varName σ hy)) (hk.trans hlength.symm)
  have hfree : ∀ r ∈ rests, r ∉ Ast.freeNames _ := fun r hmem hm => by
    obtain ⟨w, -, hw⟩ := hr.free r hm
    exact hw.no_quote (hrests r hmem)
  rw [lambdaToDnx, hk]
  simp only [hnm]
  exact hr.abs hv hs (namesOf_update_self ..) (hk.trans hlength.symm) hnodup hcopies
    (hc.binds hchain hfree) (congrArg _ herase) (fun w hw => namesOf_update_of_ne _ hw _)
    (namesOf_update_self ..)

end Abs

theorem lambdaToDnx_erasure : ∀ (ir : LambdaIR) {s : Supply} {σ : Name → Name} {Δ : List Nat},
    ir.ScopedIn Δ → Supplied s σ Δ → (∀ v ∈ Δ, ir.countFree v ≤ (namesOf s v).length) →
      Linearises ir s σ Δ (lambdaToDnx ir s : Ast V F × Supply)
  | .var v, s, σ, Δ, hv, h, hlen => by
    have hone : 1 ≤ (namesOf s v).length := by simpa [LambdaIR.countFree] using hlen v hv
    rcases hs : s v with _ | _ | ⟨y, q⟩
    · simp [namesOf, hs] at hone
    · simp [namesOf, hs] at hone
    · have hrun : lambdaToDnx (.var v) s = ((.name y, update s v (some q)) :
          Ast V F × Supply) := by simp only [lambdaToDnx, hs]
      rw [hrun]
      exact .var h hv hs
  | .app f x, s, σ, Δ, hscope, h, hlen => by
    have hf := lambdaToDnx_erasure f hscope.1 h fun v hv =>
      Nat.le_trans (Nat.le_add_right _ _) (hlen v hv)
    refine hf.app (lambdaToDnx_erasure x hscope.2 (h.rest hf) fun v hv => ?_)
    have hle : f.countFree v + x.countFree v ≤ _ := hlen v hv
    rw [hf.used v hv, length_drop]
    omega
  | .abs v body, s, σ, Δ, ⟨hv, hscope⟩, h, hlen => by
    have hbody : LinearisesAll V F body (v :: Δ) := lambdaToDnx_erasure body hscope
    rcases hk : body.countFree v with _ | _ | k
    · exact hbody.unused h hv hlen hk
    · exact hbody.single h hv hlen hk
    · exact hbody.copied h hv hlen hk

/-! ## Closed terms -/

namespace LambdaIR

def binders : LambdaIR → List Nat
  | .var _ => []
  | .abs v body => v :: body.binders
  | .app f x => f.binders ++ x.binders

/-- Every variable is one of the list or bound. -/
def ClosedIn : List Nat → LambdaIR → Prop
  | Δ, .var v => v ∈ Δ
  | Δ, .abs v body => body.ClosedIn (v :: Δ)
  | Δ, .app f x => f.ClosedIn Δ ∧ x.ClosedIn Δ

theorem ClosedIn.scopedIn : ∀ (ir : LambdaIR) {Δ : List Nat}, ir.ClosedIn Δ →
    (ir.binders ++ Δ).Nodup → ir.ScopedIn Δ
  | .var _, _, h, _ => h
  | .abs v body, Δ, h, hn =>
    ⟨fun hv => (nodup_cons.mp hn).1 (mem_append_right _ hv),
      ClosedIn.scopedIn body h (perm_middle.nodup_iff.mpr hn)⟩
  | .app f x, Δ, h, hn => by
    rw [binders, append_assoc] at hn
    exact ⟨ClosedIn.scopedIn f h.1 (hn.sublist ((sublist_append_right _ _).append_left _)),
      ClosedIn.scopedIn x h.2 (nodup_append.mp hn).2.1⟩

end LambdaIR

/-- A closed term with different binders is read back as a term that pass 1 accepts, and that is
the term itself without its `Rep` and `Era` nodes. -/
theorem lambdaToDnx_reelaborates {ir : LambdaIR} (hclosed : ir.ClosedIn [])
    (hbinders : ir.binders.Nodup) :
    (∃ r, pass1 (lambdaToDnx ir fun _ => none : Ast V F × Supply).1 = .ok r) ∧
      (lambdaToDnx ir fun _ => none : Ast V F × Supply).1.UsedOnce ∧
      (lambdaToDnx ir fun _ => none : Ast V F × Supply).1.erasure id = some ir.named := by
  have hsupply : Supplied (fun _ => none) id [] := ⟨nofun, fun _ _ => rfl⟩
  have hlin := lambdaToDnx_erasure (V := V) (F := F) ir
    (LambdaIR.ClosedIn.scopedIn ir hclosed (by rwa [append_nil])) hsupply nofun
  exact ⟨pass1_ok_iff.mpr hlin.usedOnce, hlin.usedOnce, hlin.erasure⟩

/-- `λ0. 0 0 (λ1. 0)`, with three uses of a variable and none of the other. -/
theorem lambdaToDnx_three_uses :
    (lambdaToDnx (.abs 0 (.app (.app (.var 0) (.var 0)) (.abs 1 (.var 0)))) fun _ => none :
      Ast Empty Empty × Supply).1.UsedOnce :=
  (lambdaToDnx_reelaborates (by simp [LambdaIR.ClosedIn]) (by decide)).2.1

end Dnet
