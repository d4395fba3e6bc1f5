import Dnet.Front.Inline
import Dnet.Front.Linearise
import Dnet.Front.Wiring
import Dnet.Read.Psi

/-!
# What `psi_s` reads

`Reads` says that a net has a linear term at a port: the agents of its abstractions and
applications, and for every `Rep` on a name the replicator behind the port of the name. Following
the replicators behind a name finds the ports of its uses (`Reads.markOcc`), and `psi_s` reads the
term without its `Rep` and `Era` nodes (`Reads.psiS`).
-/

namespace Dnet

open Lib List Function

variable {V F : Type}

namespace Net

/-- Two ports of live agents joined by a wire. -/
structure Link (m : Net) (p q : PortId) : Prop where
  left : m.IsPort p
  right : m.IsPort q
  joined : m.Holds p q ∧ m.Holds q p

/-- A live agent. -/
structure HasKind (m : Net) (i : Nat) (kind : AgentKind) : Prop where
  live : m.arena.isLive i = true
  kind : (m.arena.slots i).kind = kind

/-- An auxiliary port of a replicator. -/
structure CopyPort (m : Net) (q : PortId) : Prop where
  port : m.IsPort q
  rep : (m.slot q).isRep = true
  aux : q.portKind ≠ .principal

/-- The port is wired to one that is no principal port of a replicator. -/
structure PlainEnd (m : Net) (q : PortId) : Prop where
  port : m.IsPort q
  far : m.IsPort (m.portAt q.cell)
  plain : ((m.slot (m.portAt q.cell)).isRep && (m.portAt q.cell).portKind = .principal) = false

section

variable {m : Net} {q : PortId} {i : Nat}

theorem IsPort.peer (h : m.IsPort q) (hwf : m.arena.WF) : m.peer q = m.portAt q.cell :=
  peer_of_isReal (h.isReal hwf)

theorem IsPort.not_absent (h : m.IsPort q) (hwf : m.arena.WF) :
    (q.isEraser || q.isNull) = false := by
  simpa [PortId.isReal] using h.isReal hwf

theorem Link.peer_left {p : PortId} (h : m.Link p q) (hwf : m.arena.WF) : m.peer p = q :=
  (h.left.peer hwf).trans (h.joined.1 (h.left.isReal hwf))

theorem Link.plainEnd {k : PortKind} (h : m.Link (m.portId (i, k)) q)
    (hwf : m.arena.WF) (hrep : (m.arena.slots i).isRep = false) : m.PlainEnd q := by
  have hfar : m.portAt q.cell = m.portId (i, k) := h.joined.2 (h.right.isReal hwf)
  have hslot : (m.slot (m.portId (i, k))).isRep = false := hrep
  refine ⟨h.right, hfar ▸ h.left, ?_⟩
  rw [hfar, hslot, Bool.false_and]

theorem HasKind.abs_not_rep (h : m.HasKind i .fanAbs) : (m.arena.slots i).isRep = false := by
  simp [Slot.isRep, h.kind]

theorem HasKind.app_not_rep (h : m.HasKind i .fanApp) : (m.arena.slots i).isRep = false := by
  simp [Slot.isRep, h.kind]

/-! One round of the search for occurrences. -/

variable {v : Option Nat} {env : OccEnv}

theorem markOcc_plain (h : m.PlainEnd q) (hwf : m.arena.WF) (fuel : Nat) :
    m.markOcc v (fuel + 1) q env = some (update env q v) := by
  have hno := h.far.not_absent hwf
  rw [markOcc, h.port.peer hwf]
  simp only [hno, h.plain, Bool.false_eq_true, if_false]

theorem markOcc_rep (h : m.Link (m.portId (i, .principal)) q) (hwf : m.arena.WF)
    (hkind : m.HasKind i .repInUnpaired) (fuel : Nat) :
    m.markOcc v (fuel + 1) q env = (m.markOcc v fuel (m.portId (i, .aux0)) env).bind
      fun env => m.markOcc v fuel (m.portId (i, .aux1)) env := by
  have hno := h.left.not_absent hwf
  have hrep : (m.slot (m.portId (i, .principal))).isRep = true := by
    show (m.arena.slots i).isRep = true
    simp [Slot.isRep, hkind.kind, AgentKind.repInUnpaired]
  rw [markOcc, (h.right.peer hwf).trans (h.joined.2 (h.right.isReal hwf))]
  simp only [hno, hrep, Bool.false_eq_true, if_false]
  rfl

end

end Net

/-- The uses of `a` and `b` are uses of `z`. -/
def mergeUses (z a b : Name) (L : List (Name × PortId)) : List (Name × PortId) :=
  L.map fun o => if o.1 = a ∨ o.1 = b then (z, o.2) else o

variable {L : List (Name × PortId)}

theorem mem_mergeUses {z a b y : Name} {q : PortId} : (y, q) ∈ mergeUses z a b L ↔
      (y = z ∧ ((a, q) ∈ L ∨ (b, q) ∈ L)) ∨ (¬(y = a ∨ y = b) ∧ (y, q) ∈ L) := by
  constructor
  · intro hy
    obtain ⟨⟨y', q'⟩, hmem, heq⟩ := mem_map.mp hy
    by_cases ho : y' = a ∨ y' = b
    · rw [if_pos ho] at heq
      cases heq
      exact .inl ⟨rfl, by rcases ho with rfl | rfl <;> simp [hmem]⟩
    · rw [if_neg ho] at heq
      cases heq
      exact .inr ⟨ho, hmem⟩
  · rintro (⟨rfl, hq | hq⟩ | ⟨ho, hq⟩)
    · exact mem_map.mpr ⟨(a, q), hq, by simp⟩
    · exact mem_map.mpr ⟨(b, q), hq, by simp⟩
    · exact mem_map.mpr ⟨(y, q), hq, by simp [ho]⟩

theorem map_snd_mergeUses (z a b : Name) (L : List (Name × PortId)) :
    (mergeUses z a b L).map Prod.snd = L.map Prod.snd := by
  rw [mergeUses, map_map]
  refine map_congr_left fun o _ => ?_
  by_cases ho : o.1 = a ∨ o.1 = b <;> simp [ho]

/-- The net has the term at a port; `ρ` gives the ports of the free names. The first list has the
uses of free names, a copy listed under the name it is a copy of, and the second list has the ports
of all uses. -/
inductive Reads (m : Net) : (Name → PortId) → Ast V F → PortId → List (Name × PortId) →
    List PortId → Prop where
  | name (ρ : Name → PortId) (n : Name) : Reads m ρ (.name n) (ρ n) [(n, ρ n)] [ρ n]
  | abs {ρ : Name → PortId} {x : Name} {body : Ast V F} {i : Nat} {q : PortId}
      {L : List (Name × PortId)} {U : List PortId} :
      m.HasKind i .fanAbs → m.Link (m.portId (i, .aux0)) q →
      Reads m (update ρ x (m.portId (i, .aux1))) body q L U →
      Reads m ρ (.abs x body) (m.portId (i, .principal)) (L.filter fun o => o.1 != x) U
  | app {ρ : Name → PortId} {f x : Ast V F} {i : Nat} {q q' : PortId}
      {L L' : List (Name × PortId)} {U U' : List PortId} :
      m.HasKind i .fanApp → m.Link (m.portId (i, .principal)) q → m.Link (m.portId (i, .aux1)) q' →
      Reads m ρ f q L U → Reads m ρ x q' L' U' →
      Reads m ρ (.app f x) (m.portId (i, .aux0)) (L ++ L') (U ++ U')
  | rep {ρ : Name → PortId} {z a b : Name} {body : Ast V F} {i : Nat} {p : PortId}
      {L : List (Name × PortId)} {U : List PortId} :
      m.HasKind i .repInUnpaired → m.Link (m.portId (i, .principal)) (ρ z) →
      Reads m (update (update ρ a (m.portId (i, .aux0))) b
        (m.portId (i, .aux1))) body p L U →
      Reads m ρ (.rep (.name z) a b body) p (mergeUses z a b L) U
  | era {ρ : Name → PortId} {z : Name} {body : Ast V F} {p : PortId} {L : List (Name × PortId)}
      {U : List PortId} :
      m.IsPort (ρ z) → m.portAt (ρ z).cell = .era → Reads m ρ body p L U →
      Reads m ρ (.era (.name z) body) p L U

namespace Reads

variable {m : Net} {ρ : Name → PortId} {t : Ast V F} {p : PortId} {L : List (Name × PortId)}
  {U : List PortId}

theorem sublist (h : Reads m ρ t p L U) : (L.map Prod.snd).Sublist U := by
  induction h with
  | name ρ n => exact .refl _
  | abs _ _ _ ih => exact (filter_sublist.map _).trans ih
  | app _ _ _ _ _ ihf ihx => simpa using ihf.append ihx
  | rep _ _ _ ih => rwa [map_snd_mergeUses]
  | era _ _ _ ih => exact ih

section

variable {q : PortId} {x : Name} {L : List (Name × PortId)}

theorem mem_freeNames (h : Reads m ρ t p L U) {y : Name} (hy : (y, q) ∈ L) : y ∈ t.freeNames := by
  induction h generalizing y with
  | name ρ n =>
    cases mem_singleton.mp hy
    exact mem_singleton_self _
  | abs _ _ _ ih =>
    obtain ⟨hmem, hne⟩ := mem_filter.mp hy
    exact mem_filter.mpr ⟨ih hmem, hne⟩
  | app _ _ _ _ _ ihf ihx => exact mem_append.mpr ((mem_append.mp hy).imp ihf ihx)
  | rep _ _ _ ih =>
    rcases mem_mergeUses.mp hy with ⟨rfl, -⟩ | ⟨ho, hmem⟩
    · exact mem_append_left _ (mem_singleton_self _)
    · exact mem_append_right _ (mem_filter.mpr ⟨ih hmem, by simpa [not_or] using ho⟩)
  | era _ _ _ ih => exact mem_append_right _ (ih hy)

theorem port_of_mem (h : Reads m ρ t p L U) {y : Name} (hy : (y, q) ∈ L) :
    q = ρ y ∨ m.CopyPort q := by
  induction h generalizing y with
  | name ρ n =>
    cases mem_singleton.mp hy
    exact .inl rfl
  | @abs ρ x body i q' L U _ _ _ ih =>
    obtain ⟨hmem, hne⟩ := mem_filter.mp hy
    have hne : y ≠ x := by simpa using hne
    exact (ih hmem).imp_left fun hq => hq.trans (update_of_ne hne _ _)
  | app _ _ _ _ _ ihf ihx => exact (mem_append.mp hy).elim ihf ihx
  | @rep ρ z a b body i p L U hkind _ _ ih =>
    have hcopy : ∀ k, k ≠ .principal → m.CopyPort (m.portId (i, k)) := fun k hk =>
      ⟨⟨hkind.live, rfl⟩, by
        show (m.arena.slots i).isRep = true
        simp [Slot.isRep, hkind.kind, AgentKind.repInUnpaired], hk⟩
    rcases mem_mergeUses.mp hy with ⟨-, hmem | hmem⟩ | ⟨ho, hmem⟩
    · refine .inr ((ih hmem).elim (fun hq => ?_) id)
      by_cases hab : a = b
      · rw [hq, hab, update_self]
        exact hcopy .aux1 (by decide)
      · rw [hq, update_of_ne hab, update_self]
        exact hcopy .aux0 (by decide)
    · refine .inr ((ih hmem).elim (fun hq => ?_) id)
      rw [hq, update_self]
      exact hcopy .aux1 (by decide)
    · rw [not_or] at ho
      exact (ih hmem).imp_left fun hq => by
        rw [hq, update_of_ne ho.2, update_of_ne ho.1]
  | era _ _ _ ih => exact ih hy

/-- `v` at the uses of `x`. -/
def mark (x : Name) (L : List (Name × PortId)) (v : Option Nat) (env : OccEnv) : OccEnv :=
  fun q => if (x, q) ∈ L then v else env q

theorem mark_of_not_mem (h : (x, q) ∉ L) (v : Option Nat) (env : OccEnv) :
    mark x L v env q = env q := if_neg h

theorem mark_congr {L' : List (Name × PortId)} (h : ∀ q, (x, q) ∈ L ↔ (x, q) ∈ L') (v : Option Nat)
    (env : OccEnv) : mark x L v env = mark x L' v env :=
  funext fun q => by simp only [mark, h q]

/-- The search from the port of a name finds the uses of the name. -/
theorem markOcc (h : Reads m ρ t p L U) (hwf : m.arena.WF) (hused : t.UsedOnce) (hp : m.PlainEnd p)
    (hx : t.freeNames.count x = 1) (v : Option Nat) :
    ∃ k, ∀ fuel, k ≤ fuel → ∀ env, m.markOcc v fuel (ρ x) env = some (mark x L v env) := by
  induction h generalizing x with
  | name ρ n =>
    obtain rfl : x = n := by
      by_contra hne
      simp [Ast.freeNames, Ne.symm hne] at hx
    refine ⟨1, fun fuel hfuel env => ?_⟩
    obtain ⟨fuel, rfl⟩ := Nat.exists_eq_add_of_le' hfuel
    rw [Net.markOcc_plain hp hwf]
    congr 1
    funext q
    by_cases hq : q = ρ x <;> simp [mark, update, hq]
  | @abs ρ y body i q L U hkind hlink _ ih =>
    rw [Ast.freeNames, count_filter_ne] at hx
    have hxy : x ≠ y := fun he => by simp [he] at hx
    rw [if_neg hxy] at hx
    have hmem : ∀ q, (x, q) ∈ (L.filter fun o => o.1 != y) ↔ (x, q) ∈ L := fun q => by simp [hxy]
    simp only [mark_congr hmem, ← update_of_ne hxy (m.portId (i, .aux1)) ρ]
    exact ih hused.2 (hlink.plainEnd hwf hkind.abs_not_rep) hx
  | @app ρ f e i q q' L L' U U' hkind hfn harg hf he ihf ihx =>
    rw [Ast.freeNames, count_append] at hx
    rcases Nat.eq_zero_or_pos (f.freeNames.count x) with hzero | hpos
    · have hnot : ∀ q, (x, q) ∉ L := fun q hq =>
        count_eq_zero.mp hzero (hf.mem_freeNames hq)
      have hmem : ∀ q, (x, q) ∈ L ++ L' ↔ (x, q) ∈ L' := fun q => by simp [hnot]
      simp only [mark_congr hmem]
      exact ihx hused.2 (harg.plainEnd hwf hkind.app_not_rep) (by omega)
    · have hnot : ∀ q, (x, q) ∉ L' := fun q hq =>
        count_eq_zero.mp (by omega) (he.mem_freeNames hq)
      have hmem : ∀ q, (x, q) ∈ L ++ L' ↔ (x, q) ∈ L := fun q => by simp [hnot]
      simp only [mark_congr hmem]
      exact ihf hused.1 (hfn.plainEnd hwf hkind.app_not_rep) (by omega)
  | @rep ρ z a b body i p L U hkind hlink hbody ih =>
    obtain ⟨-, ⟨hab, ha, hb⟩, hbodyUsed⟩ := hused
    rw [Ast.freeNames, count_append, count_filter_pair] at hx
    by_cases hxz : x = z
    · -- the copies of `z` are the uses of `a` and `b`, and `z` has no other uses
      subst hxz
      have hself : (Ast.name x : Ast V F).freeNames.count x = 1 := count_singleton_self
      have hmem : ∀ q, (x, q) ∈ mergeUses x a b L ↔ (a, q) ∈ L ∨ (b, q) ∈ L := by
        intro q
        rw [mem_mergeUses, and_iff_right rfl, or_iff_left]
        rintro ⟨ho, hq⟩
        have hpos := count_pos_iff.mpr (hbody.mem_freeNames hq)
        rw [if_neg ho] at hx
        omega
      obtain ⟨ka, hka⟩ := ih hbodyUsed hp ha
      obtain ⟨kb, hkb⟩ := ih hbodyUsed hp hb
      rw [update_of_ne hab, update_self] at hka
      rw [update_self] at hkb
      refine ⟨max ka kb + 1, fun fuel hfuel env => ?_⟩
      obtain ⟨fuel, rfl⟩ := Nat.exists_eq_add_of_le' (Nat.le_trans (Nat.le_add_left 1 _) hfuel)
      rw [Net.markOcc_rep hlink hwf hkind, hka fuel (by omega), Option.bind_some,
        hkb fuel (by omega)]
      congr 1
      funext q
      by_cases hqa : (a, q) ∈ L <;> by_cases hqb : (b, q) ∈ L <;> simp [mark, hmem, hqa, hqb]
    · have hz : (Ast.name z : Ast V F).freeNames.count x = 0 :=
        count_eq_zero.mpr fun h => hxz (mem_singleton.mp h)
      have hne : ¬(x = a ∨ x = b) := fun h => by simp [h, hz] at hx
      have hmem : ∀ q, (x, q) ∈ mergeUses z a b L ↔ (x, q) ∈ L := fun q => by
        simp [mem_mergeUses, hxz, hne]
      have hbody := ih hbodyUsed hp (x := x) (by rw [if_neg hne] at hx; omega)
      rw [not_or] at hne
      rw [update_of_ne hne.2, update_of_ne hne.1] at hbody
      simpa only [mark_congr hmem]
  | @era ρ z body p L U hport hera hbody ih =>
    rw [Ast.freeNames, count_append] at hx
    by_cases hxz : x = z
    · subst hxz
      have hnot : ∀ q, (x, q) ∉ L := fun q hq => by
        have hpos := count_pos_iff.mpr (hbody.mem_freeNames hq)
        simp [Ast.freeNames] at hx
        omega
      refine ⟨1, fun fuel hfuel env => ?_⟩
      obtain ⟨fuel, rfl⟩ := Nat.exists_eq_add_of_le' hfuel
      rw [funext fun q => mark_of_not_mem (hnot q) v env]
      simp [Net.markOcc, hport.peer hwf, hera]
    · have hz : (Ast.name z : Ast V F).freeNames.count x = 0 :=
        count_eq_zero.mpr fun h => hxz (mem_singleton.mp h)
      exact ih hused.2 hp (by omega)

end

end Reads

/-! ## One call of `psi_s` -/

namespace Net

/-- The ports that `occ_env` can have: variables of abstractions and copies. -/
def VarPort (m : Net) (q : PortId) : Prop :=
  (m.IsPort q ∧ (m.slot q).kind = .fanAbs ∧ q.portKind = .aux1) ∨ m.CopyPort q

variable {m : Net} {env : OccEnv} {i : Nat}

theorem VarPort.port {q : PortId} (h : m.VarPort q) : m.IsPort q := h.elim And.left CopyPort.port

theorem not_varPort_principal (i : Nat) : ¬m.VarPort (m.portId (i, .principal)) := by
  rintro (⟨-, -, h⟩ | h)
  · cases h
  · exact h.aux rfl

theorem not_varPort_app (h : m.HasKind i .fanApp) (k : PortKind) :
    ¬m.VarPort (m.portId (i, k)) := by
  rintro (⟨-, hkind, -⟩ | hcopy)
  · exact absurd (h.kind.symm.trans hkind) nofun
  · exact absurd (h.app_not_rep.symm.trans hcopy.rep) nofun

theorem psiS_abs (hwf : m.arena.WF) (hkind : m.HasKind i .fanAbs)
    (henv : env (m.portId (i, .principal)) = none) (fuel ctr : Nat) :
    m.psiS (fuel + 1) (m.portId (i, .principal)) env ctr = (do
      let env ← Call.ofOption (m.markOcc (some ctr) fuel (m.portId (i, .aux1)) env)
      let (body, env, ctr') ← m.psiS fuel (m.peer (m.portId (i, .aux0))) env (ctr + 1)
      let env ← Call.ofOption (m.markOcc none fuel (m.portId (i, .aux1)) env)
      return (.abs ctr body, env, ctr')) := by
  have hno := IsPort.not_absent (m := m) (q := m.portId (i, .principal)) ⟨hkind.live, rfl⟩ hwf
  have hslot : m.slot (m.portId (i, .principal)) = m.arena.slots i := rfl
  have hkind' := hkind.kind
  rw [psiS]
  simp only [hno, henv, Bool.false_eq_true, if_false, hslot, Slot.isFree, Slot.isFan, Slot.fanIsAbs,
    hkind']
  rfl

theorem psiS_app (hwf : m.arena.WF) (hkind : m.HasKind i .fanApp)
    (henv : env (m.portId (i, .aux0)) = none) (fuel ctr : Nat) :
    m.psiS (fuel + 1) (m.portId (i, .aux0)) env ctr = (do
      let (func, env, ctr) ← m.psiS fuel (m.peer (m.portId (i, .principal))) env ctr
      let (arg, env, ctr) ← m.psiS fuel (m.peer (m.portId (i, .aux1))) env ctr
      return (.app func arg, env, ctr)) := by
  have hno := IsPort.not_absent (m := m) (q := m.portId (i, .aux0)) ⟨hkind.live, rfl⟩ hwf
  have hslot : m.slot (m.portId (i, .aux0)) = m.arena.slots i := rfl
  have hkind' := hkind.kind
  rw [psiS]
  simp only [hno, henv, Bool.false_eq_true, if_false, hslot, Slot.isFree, Slot.isFan, Slot.fanIsAbs,
    hkind']
  rfl

end Net

/-! ## The term that is read -/

def LambdaIR.named : LambdaIR → Ast V F
  | .var v => .name (varName v)
  | .abs v body => .abs (varName v) body.named
  | .app f x => .app f.named x.named

/-- The free variables are in the list, and no variable is bound below itself. -/
def LambdaIR.ScopedIn : List Nat → LambdaIR → Prop
  | Δ, .var v => v ∈ Δ
  | Δ, .abs v body => v ∉ Δ ∧ body.ScopedIn (v :: Δ)
  | Δ, .app f x => f.ScopedIn Δ ∧ x.ScopedIn Δ

theorem varName_inj {v w : Nat} (h : varName v = varName w) : v = w :=
  (Stem.toString_inj ⟨[], 'v', rfl, rfl⟩ ⟨[], 'v', rfl, rfl⟩ h).2

theorem idxOf_map_varName (v : Nat) : ∀ Δ : List Nat, (Δ.map varName).idxOf (varName v) = Δ.idxOf v
  | [] => rfl
  | w :: Δ => by
    rw [map_cons]
    by_cases h : w = v
    · rw [h, idxOf_cons_self, idxOf_cons_self]
    · rw [idxOf_cons_ne _ (fun he => h (varName_inj he)), idxOf_cons_ne _ h, idxOf_map_varName v Δ]

/-- `z` is bound at the same place of the named scope `Γ` as its variable is of `Δ`. -/
structure InScope (ids : Name → Nat) (Γ : List Name) (Δ : List Nat) (z : Name) : Prop where
  mem : z ∈ Γ
  mem' : ids z ∈ Δ
  idx : Δ.idxOf (ids z) = Γ.idxOf z

variable {ids : Name → Nat} {Γ : List Name} {Δ : List Nat}

theorem InScope.nameless {z : Name}
    (h : InScope ids Γ Δ z) : (Ast.name (varName (ids z)) : Ast V F).nameless (Δ.map varName) =
      (Ast.name z).nameless Γ := by
  have hmem : varName (ids z) ∈ Δ.map varName := mem_map_of_mem h.mem'
  simp only [Ast.nameless, Nameless.ofName, if_pos h.mem, if_pos hmem, idxOf_map_varName, h.idx]

theorem InScope.cons {z x : Name} {v : Nat} (h : InScope ids Γ Δ z) (hx : x ∉ Γ) (hv : v ∉ Δ) :
    InScope (update ids x v) (x :: Γ) (v :: Δ) z := by
  have hzx : z ≠ x := fun he => hx (he ▸ h.mem)
  have hids : update ids x v z = ids z := update_of_ne hzx v ids
  have hvz : v ≠ ids z := fun he => hv (he ▸ h.mem')
  refine ⟨mem_cons_of_mem _ h.mem, hids ▸ mem_cons_of_mem _ h.mem', ?_⟩
  rw [hids, idxOf_cons_ne _ hvz, idxOf_cons_ne _ (Ne.symm hzx), h.idx]

theorem InScope.new (ids : Name → Nat) (Γ : List Name) (Δ : List Nat) (x : Name) (v : Nat) :
    InScope (update ids x v) (x :: Γ) (v :: Δ) x := by
  refine ⟨mem_cons_self, by simp, ?_⟩
  rw [update_self, idxOf_cons_self, idxOf_cons_self]

/-- `psi_s` reads a term that is `r` without names. It changes the environment only at `U`. -/
def PsiReads (m : Net) (p : PortId) (env : OccEnv) (ctr : Nat) (U : List PortId) (Δ : List Nat)
    (r : Nameless V F) : Prop :=
  ∃ ir env' ctr', (∃ k, ∀ fuel, k ≤ fuel → m.psiS fuel p env ctr = .ok (ir, env', ctr')) ∧
    ctr ≤ ctr' ∧ (∀ q, q ∉ U → env' q = env q) ∧ (∀ q v, env' q = some v → m.VarPort q) ∧
    ir.ScopedIn Δ ∧ (ir.named : Ast V F).nameless (Δ.map varName) = r

/-- The environment gives each of the uses `L` the variable of its name, in scopes that agree. -/
structure PsiScope (m : Net) (ids : Name → Nat) (σ : Name → Name) (Γ : List Name) (Δ : List Nat)
    (L : List (Name × PortId)) (ctr : Nat) (env : OccEnv) : Prop where
  below : ∀ d ∈ Δ, d < ctr
  uses : ∀ y q, (y, q) ∈ L → env q = some (ids (σ y)) ∧ InScope ids Γ Δ (σ y)
  vars : ∀ q v, env q = some v → m.VarPort q

section

variable {m : Net} {σ : Name → Name} {L L' : List (Name × PortId)} {U U' : List PortId}
  {ctr i : Nat} {env : OccEnv} {x : Name} {q q' : PortId}

namespace PsiScope

theorem name (h : PsiScope m ids σ Γ Δ L ctr env) (hwf : m.arena.WF) (hx : (x, q) ∈ L) :
    PsiReads m q env ctr U Δ ((Ast.name (σ x) : Ast V F).nameless Γ) := by
  obtain ⟨hq, hscope⟩ := h.uses x q hx
  refine ⟨.var (ids (σ x)), env, ctr, ⟨1, fun fuel hfuel => ?_⟩, Nat.le_refl _, fun _ _ => rfl,
    h.vars, hscope.mem', hscope.nameless⟩
  obtain ⟨fuel, rfl⟩ := Nat.exists_eq_add_of_le' hfuel
  simp only [Net.psiS, (h.vars _ _ hq).port.not_absent hwf, hq, Bool.false_eq_true, if_false]

/-- Below an abstraction the next variable stands for the uses of its name. -/
theorem abs (h : PsiScope m ids σ Γ Δ (L.filter fun o => o.1 != x) ctr env) (hx : x ∉ Γ)
    (hvar : ∀ q, (x, q) ∈ L → m.VarPort q)
    (hport : ∀ {y q}, (y, q) ∈ L → (x, q) ∈ L → y = x) :
    PsiScope m (update ids x ctr) (update σ x x) (x :: Γ) (ctr :: Δ) L (ctr + 1)
      (Reads.mark x L (some ctr) env) where
  below := forall_mem_cons.mpr ⟨Nat.lt_succ_self _, fun d hd => Nat.lt_succ_of_lt (h.below d hd)⟩
  uses := by
    intro y q hy
    by_cases hyx : y = x
    · subst hyx
      rw [Reads.mark, if_pos hy, update_self, update_self]
      exact ⟨rfl, .new ids Γ Δ y ctr⟩
    · obtain ⟨hq, hscope⟩ := h.uses y q (mem_filter.mpr ⟨hy, by simpa using hyx⟩)
      have hσy : σ y ≠ x := fun he => hx (he ▸ hscope.mem)
      have hctr : ctr ∉ Δ := fun hd => Nat.lt_irrefl _ (h.below ctr hd)
      rw [Reads.mark_of_not_mem fun hq => hyx (hport hy hq), update_of_ne hyx, update_of_ne hσy]
      exact ⟨hq, hscope.cons hx hctr⟩
  vars := by
    intro q v hq
    by_cases hxq : (x, q) ∈ L
    · exact hvar q hxq
    · exact h.vars q v (Reads.mark_of_not_mem hxq _ env ▸ hq)

/-- The argument is read after the function, which leaves the uses of the argument alone. -/
theorem arg (h : PsiScope m ids σ Γ Δ (L ++ L') ctr env) {env' : OccEnv} {ctr' : Nat}
    (hle : ctr ≤ ctr') (hframe : ∀ q, q ∉ U → env' q = env q)
    (hvars : ∀ q v, env' q = some v → m.VarPort q) (hdisj : ∀ y q, (y, q) ∈ L' → q ∉ U) :
    PsiScope m ids σ Γ Δ L' ctr' env' where
  below d hd := Nat.lt_of_lt_of_le (h.below d hd) hle
  uses y q hy := by
    rw [hframe q (hdisj y q hy)]
    exact h.uses y q (mem_append_right _ hy)
  vars := hvars

/-- The two copies of a variable are read as that variable. -/
theorem rep {z a b : Name} (h : PsiScope m ids σ Γ Δ (mergeUses z a b L) ctr env) :
    PsiScope m ids (update (update σ a (σ z)) b (σ z)) Γ Δ L ctr env where
  below := h.below
  uses := by
    intro y q hy
    by_cases hb : y = b
    · subst hb
      rw [update_self]
      exact h.uses z q (mem_mergeUses.mpr (.inl ⟨rfl, .inr hy⟩))
    by_cases ha : y = a
    · subst ha
      rw [update_of_ne hb, update_self]
      exact h.uses z q (mem_mergeUses.mpr (.inl ⟨rfl, .inl hy⟩))
    · rw [update_of_ne hb, update_of_ne ha]
      exact h.uses y q (mem_mergeUses.mpr (.inr ⟨not_or.mpr ⟨ha, hb⟩, hy⟩))
  vars := h.vars

end PsiScope

namespace PsiReads

/-- The uses of the variable are marked before the body is read and unmarked after it. -/
theorem abs {r : Nameless V F} (hwf : m.arena.WF) (hkind : m.HasKind i .fanAbs)
    (hlink : m.Link (m.portId (i, .aux0)) q)
    (h : PsiReads m q (Reads.mark x L (some ctr) env) (ctr + 1) U (ctr :: Δ) r)
    (hmark : ∀ v, ∃ k, ∀ fuel, k ≤ fuel → ∀ env,
      m.markOcc v fuel (m.portId (i, .aux1)) env = some (Reads.mark x L v env))
    (hctr : ctr ∉ Δ) (hL : ∀ q, (x, q) ∈ L → q ∈ U) (hvar : ∀ q, (x, q) ∈ L → m.VarPort q)
    (hvars : ∀ q v, env q = some v → m.VarPort q) :
    PsiReads m (m.portId (i, .principal)) env ctr U Δ (.abs r) := by
  obtain ⟨ir, env', ctr', ⟨k, hrun⟩, hle, hframe, hvars', hscoped, hread⟩ := h
  obtain ⟨kc, hcollect⟩ := hmark (some ctr)
  obtain ⟨kr, hremove⟩ := hmark none
  refine ⟨.abs ctr ir, Reads.mark x L none env', ctr',
    ⟨max k (max kc kr) + 1, fun fuel hfuel => ?_⟩, by omega, fun q hq => ?_, fun q v hq => ?_,
    ⟨hctr, hscoped⟩, congrArg _ hread⟩
  · obtain ⟨fuel, rfl⟩ := Nat.exists_eq_add_of_le' (Nat.le_trans (Nat.le_add_left 1 _) hfuel)
    have hnone : env (m.portId (i, .principal)) = none :=
      Option.eq_none_iff_forall_ne_some.mpr fun v hv => Net.not_varPort_principal i (hvars _ v hv)
    rw [Net.psiS_abs hwf hkind hnone, hcollect fuel (by omega), hlink.peer_left hwf]
    refine Call.bind_eq_ok.mpr ⟨_, rfl, Call.bind_eq_ok.mpr ⟨_, hrun fuel (by omega), ?_⟩⟩
    dsimp only
    rw [hremove fuel (by omega)]
    rfl
  · have hxq : (x, q) ∉ L := fun hx => hq (hL q hx)
    rw [Reads.mark_of_not_mem hxq, hframe q hq, Reads.mark_of_not_mem hxq]
  · by_cases hx : (x, q) ∈ L
    · exact hvar q hx
    · exact hvars' q v (Reads.mark_of_not_mem hx _ env' ▸ hq)

theorem app {r r' : Nameless V F} (hwf : m.arena.WF) (hkind : m.HasKind i .fanApp)
    (hfn : m.Link (m.portId (i, .principal)) q) (harg : m.Link (m.portId (i, .aux1)) q')
    (hvars : ∀ q v, env q = some v → m.VarPort q) (hf : PsiReads m q env ctr U Δ r)
    (hx : ∀ env' ctr', ctr ≤ ctr' → (∀ q, q ∉ U → env' q = env q) →
      (∀ q v, env' q = some v → m.VarPort q) → PsiReads m q' env' ctr' U' Δ r') :
    PsiReads m (m.portId (i, .aux0)) env ctr (U ++ U') Δ (.app r r') := by
  obtain ⟨irf, env1, ctr1, ⟨kf, hrunf⟩, hlef, hframef, hvars1, hscopedf, hreadf⟩ := hf
  obtain ⟨irx, env2, ctr2, ⟨kx, hrunx⟩, hlex, hframex, hvars2, hscopedx, hreadx⟩ :=
    hx env1 ctr1 hlef hframef hvars1
  refine ⟨.app irf irx, env2, ctr2, ⟨max kf kx + 1, fun fuel hfuel => ?_⟩, by omega,
    fun q hq => ?_, hvars2, ⟨hscopedf, hscopedx⟩, ?_⟩
  · obtain ⟨fuel, rfl⟩ := Nat.exists_eq_add_of_le' (Nat.le_trans (Nat.le_add_left 1 _) hfuel)
    have hnone : env (m.portId (i, .aux0)) = none :=
      Option.eq_none_iff_forall_ne_some.mpr fun v hv => Net.not_varPort_app hkind _ (hvars _ v hv)
    rw [Net.psiS_app hwf hkind hnone, hfn.peer_left hwf, harg.peer_left hwf]
    refine Call.bind_eq_ok.mpr ⟨_, hrunf fuel (by omega), ?_⟩
    exact Call.bind_eq_ok.mpr ⟨_, hrunx fuel (by omega), rfl⟩
  · rw [mem_append, not_or] at hq
    rw [hframex q hq.2, hframef q hq.1]
  · rw [LambdaIR.named, Ast.nameless, hreadf, hreadx]

end PsiReads

end

theorem Reads.psiS {m : Net} {ρ : Name → PortId} {t t' : Ast V F} {p : PortId}
    {U : List PortId} (h : Reads m ρ t p L U) (hwf : m.arena.WF)
    (hused : t.UsedOnce) (hU : U.Nodup) (hbind : t.binders.Nodup) {σ : Name → Name}
    (hσ : t.erasure σ = some t') (hΓ : ∀ z ∈ Γ, z ∉ t.binders) {ctr : Nat} {env : OccEnv}
    (hscope : PsiScope m ids σ Γ Δ L ctr env) : PsiReads m p env ctr U Δ (t'.nameless Γ) := by
  induction h generalizing t' σ ids Γ Δ ctr env with
  | name ρ n =>
    cases hσ
    exact hscope.name hwf mem_cons_self
  | @abs ρ x body i q L U hkind hlink hbody ih =>
    obtain ⟨body', hbody', rfl⟩ := Option.map_eq_some_iff.mp hσ
    obtain ⟨hxbody, hbind⟩ := nodup_cons.mp hbind
    have hmark := fun v => hbody.markOcc hwf hused.2 (hlink.plainEnd hwf hkind.abs_not_rep) hused.1 v
    simp only [update_self] at hmark
    -- a port is the use of one name
    have hport : ∀ {y q}, (y, q) ∈ L → (x, q) ∈ L → y = x := fun {y q} hy hx =>
      congrArg Prod.fst (inj_on_of_nodup_map (hbody.sublist.nodup hU) hy hx rfl)
    have hvar : ∀ q, (x, q) ∈ L → m.VarPort q := fun q hq => by
      rcases hbody.port_of_mem hq with rfl | hcopy
      · rw [update_self]
        exact .inl ⟨⟨hkind.live, rfl⟩, hkind.kind, rfl⟩
      · exact .inr hcopy
    have hΓ' : ∀ z ∈ x :: Γ, z ∉ body.binders :=
      forall_mem_cons.mpr ⟨hxbody, fun z hz h => hΓ z hz (mem_cons_of_mem _ h)⟩
    have hscope' := hscope.abs (fun hx => hΓ x hx mem_cons_self) hvar hport
    exact (ih hused.2 hU hbind hbody' hΓ' hscope').abs hwf hkind hlink hmark
      (fun h => Nat.lt_irrefl _ (hscope.below ctr h))
      (fun q hq => hbody.sublist.subset (mem_map_of_mem hq)) hvar hscope.vars
  | @app ρ f x i q q' L L' U U' hkind hfn harg hf hx ihf ihx =>
    obtain ⟨f', hf', hσ⟩ := Option.bind_eq_some_iff.mp hσ
    obtain ⟨x', hx', hσ⟩ := Option.bind_eq_some_iff.mp hσ
    cases hσ
    obtain ⟨hUf, hUx, hdisj⟩ := nodup_append.mp hU
    obtain ⟨hbf, hbx, -⟩ := nodup_append.mp hbind
    have hfn' := ihf hused.1 hUf hbf hf' (fun z hz h => hΓ z hz (mem_append_left _ h))
      ⟨hscope.below, fun y q hy => hscope.uses y q (mem_append_left _ hy), hscope.vars⟩
    refine hfn'.app hwf hkind hfn harg hscope.vars fun env' ctr' hle hframe hvars => ?_
    refine ihx hused.2 hUx hbx hx' (fun z hz h => hΓ z hz (mem_append_right _ h))
      (hscope.arg hle hframe hvars fun y q hy hq => ?_)
    exact hdisj q hq q (hx.sublist.subset (mem_map_of_mem hy)) rfl
  | @rep ρ z a b body i p L U hkind hlink hbody ih =>
    obtain ⟨y, hy, hσ⟩ := Option.bind_eq_some_iff.mp hσ
    cases hy
    have hbody' : ∀ x ∈ body.binders, x ∈ (Ast.rep (.name z) a b body).binders := fun x hx =>
      mem_append_right _ (mem_cons_of_mem _ (mem_cons_of_mem _ hx))
    have hbind' : body.binders.Nodup :=
      ((nodup_append.mp hbind).2.1.sublist (sublist_cons_self _ _)).sublist (sublist_cons_self _ _)
    exact ih hused.2.2 hU hbind' hσ (fun x hx h => hΓ x hx (hbody' x h)) hscope.rep
  | @era ρ z body p L U hport hera hbody ih =>
    exact ih hused.2 hU (nodup_append.mp hbind).2.1 hσ
      (fun x hx h => hΓ x hx (mem_append_right _ h)) hscope

end Dnet
