import Dnet.Front.Levels
import Dnet.Front.Redexes
import Dnet.Read.Supply

/-!
# Readback of elaborated normal forms

A closed normal form in which variables are copied by `Rep` and dropped by `Era` elaborates to a
net without redexes, and readback gives the term back up to the names of bound variables
(`readback_normal`). Elaboration leaves every port where `psi_s` looks for it
(`Emits.reads`).
-/

namespace Dnet

open Lib List Function Net

variable {V F : Type}

/-- A λ-term in which only variables are copied and dropped. -/
def Ast.Linearised : Ast V F → Prop
  | .name _ => True
  | .abs _ body => body.Linearised
  | .app f x => f.Linearised ∧ x.Linearised
  | .rep (.name _) _ _ body => body.Linearised
  | .era (.name _) body => body.Linearised
  | _ => False

theorem Ast.Linearised.effectFree : ∀ {t : Ast V F}, t.Linearised → t.EffectFree
  | .name _, _ => trivial
  | .abs _ body, h => Ast.Linearised.effectFree (t := body) h
  | .app f x, h => ⟨Ast.Linearised.effectFree (t := f) h.1, Ast.Linearised.effectFree (t := x) h.2⟩
  | .rep (.name _) _ _ body, h
  | .era (.name _) body, h => ⟨trivial, Ast.Linearised.effectFree (t := body) h⟩

/-! ## The net of a run -/

section

variable {n m : Net} {W : List Conn} {lo : LOPath} {t : Ast V F} {st : ElabState}
  {ρ : Name → PortId} {U : List PortId} {usage : Name → Option Nat} {L : List (Name × PortId)}
  {r : PortId × Nat} {log : List Event} {st' : ElabState}

theorem Net.allocAgent_later {n' : Net} {kind : AgentKind} {data : Nat} {d0 d1 : Int}
    {ps : AgentPorts} (h : n.allocAgent kind data d0 d1 = .ok (ps, n')) (hm : n'.Grows m) :
    ∃ i, m.HasKind i kind ∧
      ps = ⟨m.portId (i, .principal), m.portId (i, .aux0), m.portId (i, .aux1)⟩ := by
  obtain ⟨i, ha, rfl⟩ := allocAgent_ok h
  have hbody := hm.body i ha.isLive_new
  have hport : ∀ k, n'.portId (i, k) = m.portId (i, k) := fun k => (portId_congr hbody).symm
  refine ⟨i, ⟨hm.live i ha.isLive_new, (congrArg Body.kind hbody).trans ha.new.1⟩, ?_⟩
  rw [← hport, ← hport, ← hport]
  rfl

theorem Net.Wires.link (h : m.Wires W) {a b : PortId} (hw : ⟨a, b, lo⟩ ∈ W) (ha : a ≠ .era) :
    m.Link a b :=
  ⟨(h.port _ hw).1.resolve_left ha, (h.port _ hw).2, h.holds _ hw⟩

theorem Net.portId_ne_era (m : Net) (c : Nat × PortKind) : m.portId c ≠ .era := fun h => by
  cases congrArg PortId.isEraser h

/-- The ports of the free names of a term are those of the environment. -/
def Agree (ρ : Name → PortId) (t : Ast V F) (env : Name → Option (PortId × Nat)) : Prop :=
  ∀ y ∈ t.freeNames, ∀ q, env y = some q → ρ y = q.1

theorem Agree.abs {x : Name} {env : Name → Option (PortId × Nat)} {p : PortId × Nat}
    (h : Agree ρ (.abs x t) env) : Agree (Function.update ρ x p.1) t (bindName env x p) := by
  intro y hy q hq
  rcases bindName_eq_some.mp hq with ⟨rfl, rfl⟩ | ⟨hne, hq⟩
  · rw [update_self]
  · rw [update_of_ne hne]
    exact h y (mem_filter.mpr ⟨hy, by simpa using hne⟩) q hq

theorem Agree.rep {z a b : Name} {env : Name → Option (PortId × Nat)} {p p' : PortId × Nat}
    (h : Agree ρ (.rep (.name z) a b t) env) :
    Agree (Function.update (Function.update ρ a p.1) b p'.1) t
      (bindName (bindName (unbindName env z) a p) b p') := by
  intro y hy q hq
  rcases bindName_eq_some.mp hq with ⟨rfl, rfl⟩ | ⟨hyb, hq⟩
  · rw [update_self]
  rcases bindName_eq_some.mp hq with ⟨rfl, rfl⟩ | ⟨hya, hq⟩
  · rw [update_of_ne hyb, update_self]
  rw [update_of_ne hyb, update_of_ne hya]
  refine h y (mem_append_right _ ?_) q (unbindName_eq_some.mp hq).2
  simpa [Ast.freeNames] using ⟨hy, hya, hyb⟩

/-- The net has the term at `p`, and each of its uses is the far end of a wire, or `p` itself. -/
def ReadsWithin (m : Net) (ρ : Name → PortId) (t : Ast V F) (p : PortId) (C : List Conn) : Prop :=
  ∃ L U, Reads m ρ t p L U ∧ ∀ q, U.count q ≤ (C.map Conn.b).count q + [p].count q

namespace ReadsWithin

variable {C C' : List Conn} {x : Name} {body f : Ast V F} {i : Nat} {q q' : PortId}

theorem name (ρ : Name → PortId) (x : Name) : ReadsWithin m ρ (.name x : Ast V F) (ρ x) C :=
  ⟨_, _, .name ρ x, fun _ => Nat.le_add_left _ _⟩

theorem abs (hkind : m.HasKind i .fanAbs) (hlink : m.Link (m.portId (i, .aux0)) q)
    (h : ReadsWithin m (Function.update ρ x (m.portId (i, .aux1))) body q C) :
    ReadsWithin m ρ (.abs x body) (m.portId (i, .principal))
      (C ++ [⟨m.portId (i, .aux0), q, lo⟩]) := by
  obtain ⟨L, U, hread, hcount⟩ := h
  refine ⟨_, U, .abs hkind hlink hread, fun p => ?_⟩
  have := hcount p
  simp only [map_append, map_cons, map_nil, count_append] at this ⊢
  omega

theorem app {lo' : LOPath} (hkind : m.HasKind i .fanApp)
    (hfn : m.Link (m.portId (i, .principal)) q) (harg : m.Link (m.portId (i, .aux1)) q')
    (hf : ReadsWithin m ρ f q C) (hx : ReadsWithin m ρ t q' C') :
    ReadsWithin m ρ (.app f t) (m.portId (i, .aux0))
      (C ++ C' ++ [⟨m.portId (i, .principal), q, lo⟩, ⟨m.portId (i, .aux1), q', lo'⟩]) := by
  obtain ⟨L, U, hread, hcount⟩ := hf
  obtain ⟨L', U', hread', hcount'⟩ := hx
  refine ⟨_, _, .app hkind hfn harg hread hread', fun p => ?_⟩
  have h := hcount p
  have h' := hcount' p
  simp only [map_append, map_cons, map_nil, count_append, count_cons, count_nil] at h h' ⊢
  omega

theorem rep {z a b : Name} (hkind : m.HasKind i .repInUnpaired)
    (hlink : m.Link (m.portId (i, .principal)) (ρ z))
    (h : ReadsWithin m (Function.update (Function.update ρ a (m.portId (i, .aux0))) b
      (m.portId (i, .aux1))) body q C) :
    ReadsWithin m ρ (.rep (.name z) a b body) q (⟨m.portId (i, .principal), ρ z, lo⟩ :: C) := by
  obtain ⟨L, U, hread, hcount⟩ := h
  refine ⟨_, U, .rep hkind hlink hread, fun p => (hcount p).trans ?_⟩
  simp only [map_cons, count_cons]
  omega

theorem era {z : Name} (hport : m.IsPort (ρ z)) (hera : m.portAt (ρ z).cell = .era)
    (h : ReadsWithin m ρ body q C) :
    ReadsWithin m ρ (.era (.name z) body) q (⟨.era, ρ z, lo⟩ :: C) := by
  obtain ⟨L, U, hread, hcount⟩ := h
  refine ⟨L, U, .era hport hera hread, fun p => (hcount p).trans ?_⟩
  simp only [map_cons, count_cons]
  omega

end ReadsWithin

theorem Emits.reads {level : Nat} (h : Emits usage t level lo st r st' log) (hlin : t.Linearised)
    (hfits : t.Fits st.env) (hwf : st.net.arena.WF) (hW : m.Wires W)
    (hsub : ∀ w ∈ connsOf log, w ∈ W) (hm : st'.net.Grows m) (hρ : Agree ρ t st.env) :
    ReadsWithin m ρ t r.1 (connsOf log) := by
  induction h generalizing ρ with
  | @name n level lo st r hn =>
    rw [← hρ n (mem_singleton_self n) r hn]
    exact .name ρ n
  | @abs x body level l lo loBody st st' ps net bodyP log halloc hext hrun ih =>
    obtain ⟨hwf', -⟩ := allocAgent_grows halloc hwf
    have hgrows := (grows_connect st'.net ps.aux0 bodyP loBody).trans hm
    obtain ⟨i, hkind, rfl⟩ := allocAgent_later halloc ((hrun.grows hwf').2.trans hgrows)
    have hconns : connsOf (log ++ [.wire (m.portId (i, .aux0)) bodyP loBody]) =
        connsOf log ++ [⟨m.portId (i, .aux0), bodyP, loBody⟩] := connsOf_append ..
    rw [hconns] at hsub ⊢
    have hlink := hW.link (hsub _ (mem_append_right _ mem_cons_self)) (m.portId_ne_era _)
    exact .abs hkind hlink (ih hlin (hfits.abs _) hwf' (fun w hw => hsub w (mem_append_left _ hw))
      hgrows hρ.abs)
  | @app f x level l l' lo loFn loArg st st1 st2 ps net fP aP log log' halloc _ hf _ hx ihf ihx =>
    have henv := hf.env hlin.1.effectFree hfits.app_left
    obtain ⟨hwf', -⟩ := allocAgent_grows halloc hwf
    obtain ⟨hwf1, hgrowsF⟩ := hf.grows hwf'
    have hgrows := ((grows_connect st2.net ps.principal fP loFn).trans
      (grows_connect _ ps.aux1 aP loArg)).trans hm
    have hgrows1 := (hx.grows hwf1).2.trans hgrows
    obtain ⟨i, hkind, rfl⟩ := allocAgent_later halloc (hgrowsF.trans hgrows1)
    have hconns : connsOf (log ++ log' ++ [.wire (m.portId (i, .principal)) fP loFn,
        .wire (m.portId (i, .aux1)) aP loArg]) = connsOf log ++ connsOf log' ++
          [⟨m.portId (i, .principal), fP, loFn⟩, ⟨m.portId (i, .aux1), aP, loArg⟩] := by
      simp [connsOf]
    rw [hconns] at hsub ⊢
    have hfn := hW.link (hsub _ (mem_append_right _ mem_cons_self)) (m.portId_ne_era _)
    have harg := hW.link (hsub _ (mem_append_right _
      (mem_cons_of_mem _ mem_cons_self))) (m.portId_ne_era _)
    refine .app hkind hfn harg (ihf hlin.1 hfits.app_left hwf' (fun w hw => ?_) hgrows1
      fun y hy => hρ y (mem_append_left _ hy)) (ihx hlin.2 (henv ▸ hfits.app_right) hwf1
      (fun w hw => ?_) hgrows fun y hy q hq => ?_)
    · exact hsub w (mem_append_left _ (mem_append_left _ hw))
    · exact hsub w (mem_append_left _ (mem_append_right _ hw))
    · exact hρ y (mem_append_right _ hy) q (of_without_eq_some (henv ▸ hq))
  | @rep e body a b level repLevel lo st st1 st2 ps net eP d0 d1 r log log' he _ _ halloc hb _ ihb =>
    cases e with
    | name z =>
      have henv := he.env trivial hfits.rep_left
      cases he with
      | name hz =>
        have hwf1 := wf_connect ps.principal eP lo (allocAgent_grows halloc hwf).1
        have hgrows := (hb.grows hwf1).2.trans hm
        obtain ⟨i, hkind, rfl⟩ := allocAgent_later halloc
          ((grows_connect net ps.principal eP lo).trans hgrows)
        obtain rfl : ρ z = eP := hρ z (mem_append_left _ (mem_singleton_self z)) _ hz
        have hlink := hW.link (hsub ⟨m.portId (i, .principal), ρ z, lo⟩ mem_cons_self)
          (m.portId_ne_era _)
        exact .rep hkind hlink (ihb hlin (henv ▸ hfits.rep_right _ _) hwf1
          (fun w hw => hsub w (mem_cons_of_mem _ hw)) hm hρ.rep)
    | _ => exact hlin.elim
  | @era e body level l lo st st1 st2 eP r log log' he hb _ ihb =>
    cases e with
    | name z =>
      have henv := he.env trivial hfits.era_left
      cases he with
      | name hz =>
        obtain rfl : ρ z = eP := hρ z (mem_append_left _ (mem_singleton_self z)) _ hz
        have hw := hsub ⟨.era, ρ z, lo⟩ mem_cons_self
        have hport := (hW.port _ hw).2
        have hera : m.portAt (ρ z).cell = .era := (hW.holds _ hw).2 (hport.isReal hW.wf)
        exact .era hport hera (ihb hlin (henv ▸ hfits.era_right) (wf_connect _ _ _ hwf)
          (fun w hw => hsub w (mem_cons_of_mem _ hw)) hm
          fun y hy q hq => hρ y (mem_append_right _ hy) q (unbindName_eq_some.mp hq).2)
    | _ => exact hlin.elim
  | fix _ _ _ _ _ _ => exact hlin.elim
  | handle _ _ => exact hlin.elim
  | val _ | fn _ => exact hlin.elim

/-! ## Normal forms -/

def Ast.IsAbs : Ast V F → Prop
  | .abs _ _ => True
  | _ => False

/-- A λ-term without a redex. -/
def Ast.Normal : Ast V F → Prop
  | .name _ => True
  | .abs _ body => body.Normal
  | .app f x => ¬f.IsAbs ∧ f.Normal ∧ x.Normal
  | _ => False

theorem Ast.erasure_app {σ : Name → Name} {f x t' : Ast V F} (h : (Ast.app f x).erasure σ = some t') :
    ∃ f' x', f.erasure σ = some f' ∧ x.erasure σ = some x' ∧ t' = .app f' x' := by
  obtain ⟨f', hf, h⟩ := Option.bind_eq_some_iff.mp h
  obtain ⟨x', hx, h⟩ := Option.bind_eq_some_iff.mp h
  cases h
  exact ⟨f', x', hf, hx, rfl⟩

theorem Ast.Linearised.isAbs_of_headPort : ∀ {t t' : Ast V F} {σ : Name → Name}, t.Linearised →
    t.erasure σ = some t' → t.headPort = .value → t'.IsAbs
  | .abs x body, t', σ, _, h, _ => by
    obtain ⟨body', _, rfl⟩ := Option.map_eq_some_iff.mp h
    trivial
  | .rep (.name _) _ _ body, t', σ, hlin, h, hhead | .era (.name _) body, _, _, hlin, h, hhead =>
    Ast.Linearised.isAbs_of_headPort (t := body) hlin h hhead

/-- A normal form has no redex, and no copy of a result. -/
theorem Ast.Linearised.keys : ∀ {t t' : Ast V F} {σ : Name → Name} (lo : LOPath), t.Linearised →
    t.erasure σ = some t' → t'.Normal → t.pairKeys lo = [] ∧ t.candKeys lo = []
  | .name _, _, _, _, _, _, _ => ⟨rfl, rfl⟩
  | .abs x body, t', σ, lo, hlin, h, hn => by
    obtain ⟨body', hbody, rfl⟩ := Option.map_eq_some_iff.mp h
    exact Ast.Linearised.keys (t := body) lo.left hlin hbody hn
  | .app f x, t', σ, lo, hlin, h, hn => by
    obtain ⟨f', x', hf, hx, rfl⟩ := Ast.erasure_app h
    have ihf := Ast.Linearised.keys lo.left hlin.1 hf hn.2.1
    have ihx := Ast.Linearised.keys lo.right hlin.2 hx hn.2.2
    have hhead : f.headPort ≠ .value := fun hv => hn.1 (hlin.1.isAbs_of_headPort hf hv)
    simp [Ast.pairKeys, Ast.candKeys, ihf, ihx, hhead]
  | .rep (.name z) a b body, t', σ, lo, hlin, h, hn
  | .era (.name _) body, _, _, lo, hlin, h, hn => by
    have ih := Ast.Linearised.keys (t := body) lo hlin h hn
    simp [Ast.pairKeys, Ast.candKeys, ih, Ast.headPort]

/-- A closed normal form is an abstraction: a variable at its head, or one that is copied or
dropped at the top, would be free. -/
theorem Ast.Linearised.closed_normal : ∀ {t t' : Ast V F} {σ : Name → Name}, t.Linearised →
    t.Closed → t.erasure σ = some t' → t'.Normal → ∃ x body, t = .abs x body
  | .name _, _, _, _, hclosed, _, _ => nomatch hclosed
  | .abs x body, _, _, _, _, _, _ => ⟨x, body, rfl⟩
  | .app f x, t', σ, hlin, hclosed, h, hn => by
    obtain ⟨f', x', hf, hx, rfl⟩ := Ast.erasure_app h
    obtain ⟨y, body, rfl⟩ := Ast.Linearised.closed_normal hlin.1
      (append_eq_nil_iff.mp hclosed).1 hf hn.2.1
    exact (hn.1 (hlin.1.isAbs_of_headPort hf rfl)).elim
  | .rep (.name _) _ _ _, _, _, _, hclosed, _, _ => nomatch hclosed
  | .era (.name _) _, _, _, _, hclosed, _, _ => nomatch hclosed

/-! ## Nothing to reduce -/

theorem Net.normalize_idle (h1 : n.frontier1 = OrdMap.empty) (h2 : n.frontier2 = OrdMap.empty)
    (hc : n.pendingC1 = false) (C : NetClass) (fuel : Nat) :
    n.normalize C (fuel + 1) = some (.ok (n, {})) := by
  have hstop : Stops (phase1Round C) (n, {}) (.ok (n, {})) := by
    simp only [Stops, phase1Round, h1]
    rfl
  have hdrain : n.drainPhase2 C = .ok (n, false) := by
    simp only [drainPhase2, h2]
    cases C <;> rfl
  have hstop2 : Stops (phase2Round C) n (.ok n) := phase2Round_eq hdrain
  have hfinish : n.finish C = .ok n := by
    simp only [finish, hc, Bool.false_eq_true, if_false, certifyCanonical, h1, h2]
    rfl
  simp only [normalize, finalizeCanonical, loop_of_stops hstop]
  show (do return ((← (do return (← loop (phase2Round C) (fuel + 1) n) >>= finish C)).map _)) = _
  rw [loop_of_stops hstop2]
  show some ((n.finish C).map _) = _
  rw [hfinish]
  rfl

theorem Emits.pendingC1 {level : Nat} (h : Emits usage t level lo st r st' log) :
    st'.net.pendingC1 = st.net.pendingC1 := by
  have hkept : Kept (fun n => n.pendingC1 = st.net.pendingC1) fun _ _ => True := by
    refine ⟨fun hn _ _ ha => ?_, fun lo hn _ _ => ⟨?_, fun _ => id⟩⟩
    · obtain ⟨i, hi, -⟩ := allocAgent_ok ha
      exact ⟨hi.pendingC1.trans hn, fun _ => id, trivial, trivial, trivial⟩
    · rw [pendingC1_connect, hn]
  have hall : KeptAll (fun n => n.pendingC1 = st.net.pendingC1) fun _ _ => True := by
    refine ⟨fun _ => trivial, fun hn ha => ?_⟩
    obtain ⟨i, hi, -⟩ := allocFree_ok ha
    exact ⟨hi.pendingC1.trans hn, fun _ => id, trivial⟩
  exact (h.kept hkept (.inr hall) rfl fun _ _ _ => trivial).1

/-! ## The rooted net -/

theorem Net.Wires.addRoot (h : n.Wires W) (name : String) (p : PortId) :
    (n.addRoot name p).Wires W := by
  have hport : ∀ {q}, n.IsPort q → (n.addRoot name p).IsPort q := fun hq => ⟨hq.live, hq.eq⟩
  constructor
  case wf => exact h.wf
  case port => exact fun w hw => ⟨(h.port w hw).1.imp_right hport, hport (h.port w hw).2⟩
  case apart => exact h.apart
  case holds => exact h.holds
  case loose => exact h.loose
  case frontier1 => exact h.frontier1
  case frontier2 => exact h.frontier2

theorem ElabState.Holding.uses_nodup {p : PortId} (h : st.Holding W [p])
    (hU : ∀ q, U.count q ≤ (W.map Conn.b).count q + [p].count q) : U.Nodup := by
  have hb : (W.map Conn.b).Nodup := by
    refine pairwise_map.mpr (h.wires.pairwise.imp_of_mem fun {w w'} hw hw' hd he => ?_)
    exact hd (h.wires.right_cell hw) (he ▸ h.wires.right_cell hw')
  have hp : p ∉ W.map Conn.b := by
    intro hp
    obtain ⟨w, hw, rfl⟩ := mem_map.mp hp
    exact (h.hangs _ mem_cons_self).loose (mem_flatMap.mpr ⟨w, hw, h.wires.right_cell hw⟩)
  refine nodup_iff_count_le_one.mpr fun q => (hU q).trans ?_
  have hnodup : (p :: W.map Conn.b).Nodup := nodup_cons.mpr ⟨hp, hb⟩
  have hone := nodup_iff_count_le_one.mp hnodup q
  simp only [count_cons, count_nil] at hone ⊢
  omega

theorem Reads.root_abs {x : Name} {body : Ast V F} {p : PortId}
    (h : Reads m ρ (.abs x body) p L U) :
    ∃ i, m.HasKind i .fanAbs ∧ p = m.portId (i, .principal) := by
  cases h with
  | abs hkind _ _ => exact ⟨_, hkind, rfl⟩

/-- Readback of a closed term that `Reads` finds in the net. -/
theorem Reads.psiNative {t' : Ast V F} (h : Reads m ρ t m.firstRoot L U)
    (hwf : m.arena.WF) (hclosed : t.Closed) (hused : t.UsedOnce) (hU : U.Nodup)
    (hbind : t.binders.Nodup) (herase : t.erasure id = some t') (hreal : m.firstRoot.isReal = true)
    (hslot : (m.slot m.firstRoot).isFree = false) (ctr : Nat) :
    ∃ a a' : Ast V F, (∃ k, ∀ fuel, k ≤ fuel → Dnet.psiNative fuel m ctr = some (.lambda a)) ∧
      a.erasure id = some a' ∧ a'.nameless [] = t'.nameless [] := by
  have hnone : ∀ {y q}, (y, q) ∉ L := fun hy => by
    have := h.mem_freeNames hy
    rw [hclosed] at this
    cases this
  -- the term has no free names, so any identifiers do
  obtain ⟨ids⟩ : Nonempty (Name → Nat) := ⟨fun _ => 0⟩
  have hscope : PsiScope m ids id [] [] L ctr fun _ => none :=
    ⟨fun _ hd => absurd hd not_mem_nil, fun y q hy => (hnone hy).elim, nofun⟩
  have hread : PsiReads m m.firstRoot (fun _ => none) ctr U [] (t'.nameless []) :=
    h.psiS hwf hused hU hbind herase (fun _ hz => absurd hz not_mem_nil) hscope
  obtain ⟨ir, env, ctr', ⟨k, hrun⟩, -, -, -, hscope, hnameless⟩ := hread
  have hsupply : Supplied (fun _ => none) id [] := ⟨nofun, fun _ _ => rfl⟩
  have hlin := lambdaToDnx_erasure (V := V) (F := F) ir hscope hsupply nofun
  refine ⟨_, _, ⟨k, fun fuel hfuel => ?_⟩, hlin.erasure, hnameless⟩
  have hport : (m.firstRoot.isNull || m.firstRoot.isEraser) = false := by
    simpa [PortId.isReal, and_comm] using hreal
  simp only [Dnet.psiNative, hport, hslot, hrun fuel hfuel, Bool.and_false, Bool.false_eq_true,
    if_false]
  rfl

/-- `normalize` finds nothing to do on the net of a closed normal form, and readback of the net
gives the normal form up to the names of its binders. -/
theorem readback_normal {t t' : Ast V F} (hlin : t.Linearised) (hclosed : t.Closed)
    (hbind : t.binders.Nodup) (herase : t.erasure id = some t') (hnormal : t'.Normal)
    {r : Pass1Result} (hpass : pass1 t = .ok r) {debug : Bool} {capacity : Nat} {p : PortId}
    {n₀ n : Net} (hrun₀ : elaborate debug capacity t r.usageLevels = .ok (p, n₀))
    (hroot : wireRoot "phi_k" p n₀ = .ok n) :
    ∃ n' stats, (∃ k, ∀ fuel, k ≤ fuel → n.normalize .ΔK fuel = some (.ok (n', stats))) ∧
      stats.interactions = 0 ∧ ∀ ctr, ∃ a a' : Ast V F,
        (∃ k, ∀ fuel, k ≤ fuel → psiNative fuel n' ctr = some (.lambda a)) ∧
        a.erasure id = some a' ∧ a'.nameless [] = t'.nameless [] := by
  obtain ⟨⟨⟨p', l⟩, st⟩, hrun, h⟩ := bind_eq_ok.mp hrun₀
  cases h
  obtain ⟨log, hlog⟩ := (elabImpl_emits _).run hrun
  have hfits : t.Fits fun _ => none :=
    ⟨pass1_ok_iff.mp ⟨r, hpass⟩, hclosed ▸ nodup_nil, by simp [show t.freeNames = [] from hclosed],
      hbind, fun _ _ => rfl⟩
  have hhold := (hlog.keeps hlin.effectFree [] []).holding (holding_init capacity)
  have hkeyed := hlog.keyed hlin.effectFree (Arena.WF.new capacity) (.refl _) nofun
  obtain ⟨hpairs, hcands⟩ := hlin.keys .root herase hnormal
  obtain ⟨x, body, rfl⟩ := hlin.closed_normal hclosed herase hnormal
  have hprincipal : p.portKind = .principal := hkeyed.top
  rw [wireRoot, if_pos hprincipal] at hroot
  cases hroot
  have hwires := hhold.wires
  rw [nil_append] at hhold hwires
  have h1 : st.net.frontier1 = OrdMap.empty := by
    have hnil : (connsOf log).filterMap Conn.pair = [] := by
      rw [← map_eq_nil_iff (f := Prod.fst), map_filterMap]
      exact hkeyed.pairs.trans hpairs
    rw [hwires.frontier1, hnil]
    rfl
  have h2 : st.net.frontier2 = OrdMap.empty := by
    have hnil : (connsOf log).filterMap st.net.candidate = [] := by
      rw [← map_eq_nil_iff (f := Prod.fst), map_filterMap]
      exact hkeyed.cands.trans hcands
    rw [hwires.frontier2, hnil]
    rfl
  refine ⟨st.net.addRoot "phi_k" p, {}, ⟨1, fun fuel hfuel => ?_⟩, rfl, fun ctr => ?_⟩
  · obtain ⟨fuel, rfl⟩ := Nat.exists_eq_add_of_le' hfuel
    exact normalize_idle (n := st.net.addRoot "phi_k" p) h1 h2 hlog.pendingC1 .ΔK fuel
  · obtain ⟨L, U, hreads, hcount⟩ := hlog.reads hlin hfits (Arena.WF.new capacity)
      (hwires.addRoot "phi_k" p) (fun w hw => hw) ⟨fun _ h => h, fun _ _ => rfl⟩
      (ρ := fun _ => p) (by simp [Agree])
    obtain ⟨i, hkind, hp⟩ := hreads.root_abs
    have hp : p = st.net.portId (i, .principal) := hp
    refine Reads.psiNative hreads hwires.wf hclosed hfits.usedOnce (hhold.uses_nodup hcount) hbind
      herase ?_ ?_ ctr
    · show p.isReal = true
      rw [hp]
      exact isReal_portId hwires.wf hkind.live
    · have hslot : (st.net.slot p).kind = .fanAbs := by
        rw [hp]
        exact hkind.kind
      show (st.net.slot p).isFree = false
      simp [Slot.isFree, hslot]

/-- `λx. λy. Era(y, Rep(x, a, b, a b))`. -/
def copiedAndDropped : Ast Empty Empty :=
  .abs "x" (.abs "y" (.era (.name "y") (.rep (.name "x") "a" "b" (.app (.name "a") (.name "b")))))

theorem copiedAndDropped_readback : ∃ r p n₀ n t', pass1 copiedAndDropped = .ok r ∧
    elaborate false 16 copiedAndDropped r.usageLevels = .ok (p, n₀) ∧ wireRoot "phi_k" p n₀ = .ok n ∧
    copiedAndDropped.erasure id = some t' ∧
    ∃ n' stats, (∃ k, ∀ fuel, k ≤ fuel → n.normalize .ΔK fuel = some (.ok (n', stats))) ∧
      stats.interactions = 0 ∧ ∀ ctr, ∃ a a' : Ast Empty Empty,
        (∃ k, ∀ fuel, k ≤ fuel → psiNative fuel n' ctr = some (.lambda a)) ∧
        a.erasure id = some a' ∧ a'.nameless [] = t'.nameless [] := by
  have hrun : returns (fun r : Pass1Result => returns
      (fun q : PortId × Net => returns (fun _ => true) (some (wireRoot "phi_k" q.1 q.2)))
      (some (elaborate false 16 copiedAndDropped r.usageLevels)))
        (some (pass1 copiedAndDropped)) = true := by
    decide +kernel
  obtain ⟨r, hpass, hrun⟩ := exists_ok_of_returns hrun
  obtain ⟨⟨p, n₀⟩, hrun₀, hrun⟩ := exists_ok_of_returns hrun
  obtain ⟨n, hroot, -⟩ := exists_ok_of_returns hrun
  have hlin : copiedAndDropped.Linearised := by simp [copiedAndDropped, Ast.Linearised]
  have hclosed : copiedAndDropped.Closed := by simp [copiedAndDropped, Ast.Closed, Ast.freeNames]
  have hbind : copiedAndDropped.binders.Nodup := by decide
  have hnormal : (Ast.abs "x" (.abs "y" (.app (.name "x") (.name "x"))) : Ast Empty Empty).Normal := by
    simp [Ast.Normal, Ast.IsAbs]
  have herase : copiedAndDropped.erasure id =
      some (.abs "x" (.abs "y" (.app (.name "x") (.name "x")))) := by
    simp [copiedAndDropped, Ast.erasure, Ast.asName, Function.update]
  exact ⟨r, p, n₀, n, _, hpass, hrun₀, hroot, herase,
    readback_normal hlin hclosed hbind herase hnormal hpass hrun₀ hroot⟩

end

end Dnet
