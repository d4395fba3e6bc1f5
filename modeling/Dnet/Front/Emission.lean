import Dnet.Front.Elab

/-!
# Runs of the elaborator

A run of `elab_impl` with the events of the run in order: the names it reaches, the replicators
it emits for `Rep` nodes and the wires it connects (`Emits`). Facts about elaboration are
inductions over runs; every call that returns is one (`elabImpl_emits`).
-/

namespace Dnet

open Lib

variable {V F : Type}

inductive Event where
  /-- A name is reached, at this level. -/
  | use (n : Name) (level : Nat)
  /-- A replicator for the names `a` and `b`; `level` was returned for the replicated term. -/
  | rep (a b : Name) (slot level : Nat)
  | wire (a b : PortId) (lo : LOPath)

/-- The term that `Handle` with one branch stands for: `comp (r: r) (lbl: x: k: Era(lbl, body))`. -/
def desugarHandle (r lbl : Name) (comp : Ast V F) (argName kName : Name) (body : Ast V F) :
    Ast V F :=
  .app (.app comp (.abs r (.name r))) (.abs lbl (.abs argName (.abs kName (.era (.name lbl) body))))

/-- The run of the elaborator on a term returns `r` and the last state, with the events of the
list. -/
inductive Emits (usage : Name → Option Nat) : Ast V F → Nat → LOPath → ElabState →
    PortId × Nat → ElabState → List Event → Prop where
  | name {n : Name} {level : Nat} {lo : LOPath} {st : ElabState} {r : PortId × Nat} :
      st.env n = some r →
      Emits usage (.name n) level lo st r { st with env := unbindName st.env n } [.use n level]
  | abs {x : Name} {body : Ast V F} {level l : Nat} {lo loBody : LOPath} {st st' : ElabState}
      {ps : AgentPorts} {net : Net} {bodyP : PortId} {log : List Event} :
      st.net.allocAbs = .ok (ps, net) → lo.extendLeft = .ok loBody →
      Emits usage body level loBody
        { st with net := net, env := bindName st.env x (ps.aux1, level + 1) } (bodyP, l) st' log →
      Emits usage (.abs x body) level lo st (ps.principal, level)
        { st' with env := unbindName st'.env x, net := st'.net.connect ps.aux0 bodyP loBody }
        (log ++ [.wire ps.aux0 bodyP loBody])
  | app {f x : Ast V F} {level l l' : Nat} {lo loFn loArg : LOPath} {st st1 st2 : ElabState}
      {ps : AgentPorts} {net : Net} {fP aP : PortId} {log log' : List Event} :
      st.net.allocApp = .ok (ps, net) → lo.extendLeft = .ok loFn →
      Emits usage f level loFn { st with net := net } (fP, l) st1 log →
      lo.extendRight = .ok loArg → Emits usage x (level + 1) loArg st1 (aP, l') st2 log' →
      Emits usage (.app f x) level lo st (ps.aux0, level)
        { st2 with net := (st2.net.connect ps.principal fP loFn).connect ps.aux1 aP loArg }
        (log ++ log' ++ [.wire ps.principal fP loFn, .wire ps.aux1 aP loArg])
  | rep {e body : Ast V F} {a b : Name} {level repLevel : Nat} {lo : LOPath}
      {st st1 st2 : ElabState} {ps : AgentPorts} {net : Net} {eP : PortId} {d0 d1 : Int}
      {r : PortId × Nat} {log log' : List Event} :
      Emits usage e level lo st (eP, repLevel) st1 log →
      toI16 (((usage a).getD level : Int) - repLevel) = .ok d0 →
      toI16 (((usage b).getD level : Int) - repLevel) = .ok d1 →
      st1.net.allocAgent .repInUnpaired (repLevel % 2 ^ 16) d0 d1 = .ok (ps, net) →
      Emits usage body level lo
        { st1 with
          net := net.connect ps.principal eP lo
          env := bindName (bindName st1.env a (ps.aux0, (usage a).getD level)) b
            (ps.aux1, (usage b).getD level) } r st2 log' →
      Emits usage (.rep e a b body) level lo st r st2
        (log ++ .rep a b ps.principal.slotIdx repLevel :: .wire ps.principal eP lo :: log')
  | era {e body : Ast V F} {level l : Nat} {lo : LOPath} {st st1 st2 : ElabState} {eP : PortId}
      {r : PortId × Nat} {log log' : List Event} :
      Emits usage e level lo st (eP, l) st1 log →
      Emits usage body level lo { st1 with net := st1.net.connect .era eP lo } r st2 log' →
      Emits usage (.era e body) level lo st r st2 (log ++ .wire .era eP lo :: log')
  | fix {inner : Ast V F} {level l : Nat} {lo loFn loR : LOPath} {st st1 : ElabState}
      {app rep : AgentPorts} {net net' : Net} {innerP : PortId} {log : List Event} :
      lo.extendLeft = .ok loFn → Emits usage inner level loFn st (innerP, l) st1 log →
      st1.net.allocApp = .ok (app, net) →
      (net.connect app.principal innerP loFn).allocAgent .repInUnpaired (level % 2 ^ 16) 0 0 =
        .ok (rep, net') →
      lo.extendRight = .ok loR →
      Emits usage (.fix inner) level lo st (rep.aux1, level)
        { st1 with
          net := (net'.connect rep.principal app.aux0 loR).connect app.aux1 rep.aux0 lo }
        (log ++ [.wire app.principal innerP loFn, .wire rep.principal app.aux0 loR,
          .wire app.aux1 rep.aux0 lo])
  | handle {comp body : Ast V F} {label argName kName : Name} {level : Nat} {lo : LOPath}
      {st st' : ElabState} {r : PortId × Nat} {log : List Event} :
      Emits usage (desugarHandle ("_r" ++ toString st.freshCtr)
        ("_lbl" ++ toString (st.freshCtr + 1)) comp argName kName body) level lo
        { st with freshCtr := st.freshCtr + 2 } r st' log →
      Emits usage (.handle comp (.cons label argName kName body .nil)) level lo st r st' log
  | val {v : V} {level : Nat} {lo : LOPath} {st : ElabState} {p : PortId} {net : Net} :
      st.net.allocFree 0 = .ok (p, net) →
      Emits usage (.val v) level lo st (p, level) { st with net := net } []
  | fn {f : F} {level : Nat} {lo : LOPath} {st : ElabState} {p : PortId} {net : Net} :
      st.net.allocFree 0 = .ok (p, net) →
      Emits usage (.fn f) level lo st (p, level) { st with net := net } []

/-! ## Every call that returns is a run -/

theorem allocRepIn_ok {debug : Bool} {n : Net} {level : Nat} {d0 d1 : Int} {r : AgentPorts × Net}
    (h : n.allocRepIn debug level d0 d1 = .ok r) :
    n.allocAgent .repInUnpaired level d0 d1 = .ok r := by
  unfold Net.allocRepIn at h
  split at h
  · cases h
  · exact lift_eq_ok.mp h

/-- Calls on `t` that return are runs, in every build. -/
structure Traced (usage : Name → Option Nat) (t : Ast V F) : Prop where
  run : ∀ {debug level lo st r st'}, t.elabImpl debug usage level lo st = .ok (r, st') →
    ∃ log, Emits usage t level lo st r st' log

section

variable {usage : Name → Option Nat} {e body : Ast V F}

theorem traced_name (n : Name) : Traced usage (.name n : Ast V F) := by
  refine ⟨fun {debug level lo st r st'} h => ?_⟩
  unfold Ast.elabImpl elabName at h
  split at h
  · cases h
  · next hr =>
    cases h
    exact ⟨_, .name hr⟩

theorem Traced.abs {body : Ast V F} (hbody : Traced usage body) (x : Name) :
    Traced usage (.abs x body) := by
  refine ⟨fun {debug level lo st r st'} h => ?_⟩
  obtain ⟨⟨ps, net⟩, halloc, h⟩ := bind_eq_ok.mp h
  obtain ⟨loBody, hlo, h⟩ := bind_eq_ok.mp h
  obtain ⟨⟨⟨bodyP, l⟩, st1⟩, hb, h⟩ := bind_eq_ok.mp h
  cases h
  obtain ⟨log, hlog⟩ := hbody.run hb
  exact ⟨_, .abs (lift_eq_ok.mp halloc) (lift_eq_ok.mp hlo) hlog⟩

theorem Traced.app {f x : Ast V F} (hf : Traced usage f) (hx : Traced usage x) :
    Traced usage (.app f x) := by
  refine ⟨fun {debug level lo st r st'} h => ?_⟩
  obtain ⟨⟨ps, net⟩, halloc, h⟩ := bind_eq_ok.mp h
  obtain ⟨loFn, hloF, h⟩ := bind_eq_ok.mp h
  obtain ⟨⟨⟨fP, l⟩, st1⟩, hrf, h⟩ := bind_eq_ok.mp h
  obtain ⟨loArg, hloA, h⟩ := bind_eq_ok.mp h
  obtain ⟨⟨⟨aP, l'⟩, st2⟩, hrx, h⟩ := bind_eq_ok.mp h
  cases h
  obtain ⟨log, hlog⟩ := hf.run hrf
  obtain ⟨log', hlog'⟩ := hx.run hrx
  exact ⟨_, .app (lift_eq_ok.mp halloc) (lift_eq_ok.mp hloF) hlog (lift_eq_ok.mp hloA) hlog'⟩

theorem Traced.rep (he : Traced usage e) (hbody : Traced usage body)
    (a b : Name) : Traced usage (.rep e a b body) := by
  refine ⟨fun {debug level lo st r st'} h => ?_⟩
  obtain ⟨⟨⟨eP, repLevel⟩, st1⟩, hre, h⟩ := bind_eq_ok.mp h
  obtain ⟨d0, hd0, h⟩ := bind_eq_ok.mp h
  obtain ⟨d1, hd1, h⟩ := bind_eq_ok.mp h
  obtain ⟨⟨ps, net⟩, halloc, h⟩ := bind_eq_ok.mp h
  obtain ⟨log, hlog⟩ := he.run hre
  obtain ⟨log', hlog'⟩ := hbody.run h
  exact ⟨_, .rep hlog (lift_eq_ok.mp hd0) (lift_eq_ok.mp hd1) (allocRepIn_ok halloc) hlog'⟩

theorem Traced.era (he : Traced usage e) (hbody : Traced usage body) :
    Traced usage (.era e body) := by
  refine ⟨fun {debug level lo st r st'} h => ?_⟩
  obtain ⟨⟨⟨eP, l⟩, st1⟩, hre, h⟩ := bind_eq_ok.mp h
  obtain ⟨log, hlog⟩ := he.run hre
  obtain ⟨log', hlog'⟩ := hbody.run h
  exact ⟨_, .era hlog hlog'⟩

theorem Traced.fix {inner : Ast V F} (hinner : Traced usage inner) : Traced usage (.fix inner) := by
  refine ⟨fun {debug level lo st r st'} h => ?_⟩
  obtain ⟨loFn, hloF, h⟩ := bind_eq_ok.mp h
  obtain ⟨⟨⟨innerP, l⟩, st1⟩, hri, h⟩ := bind_eq_ok.mp h
  obtain ⟨⟨app, net⟩, happ, h⟩ := bind_eq_ok.mp h
  obtain ⟨⟨rep, net'⟩, hrep, h⟩ := bind_eq_ok.mp h
  obtain ⟨loR, hloR, h⟩ := bind_eq_ok.mp h
  cases h
  obtain ⟨log, hlog⟩ := hinner.run hri
  exact ⟨_, .fix (lift_eq_ok.mp hloF) hlog (lift_eq_ok.mp happ) (allocRepIn_ok hrep)
    (lift_eq_ok.mp hloR)⟩

theorem traced_free (t : Ast V F) (ht : ∀ debug, t.elabImpl debug usage = elabFree)
    (hrun : ∀ {level lo st p net}, st.net.allocFree 0 = .ok (p, net) →
      Emits usage t level lo st (p, level) { st with net := net } []) : Traced usage t := by
  refine ⟨fun {debug level lo st r st'} h => ?_⟩
  rw [ht] at h
  obtain ⟨⟨p, net⟩, halloc, h⟩ := bind_eq_ok.mp h
  cases h
  exact ⟨_, hrun (lift_eq_ok.mp halloc)⟩

theorem Traced.handle {comp body : Ast V F} (hcomp : Traced usage comp)
    (hbody : Traced usage body) (label argName kName : Name) :
    Traced usage (.handle comp (.cons label argName kName body .nil)) := by
  refine ⟨fun {debug level lo st r st'} h => ?_⟩
  have htraced : Traced usage (desugarHandle ("_r" ++ toString st.freshCtr)
      ("_lbl" ++ toString (st.freshCtr + 1)) comp argName kName body) :=
    (hcomp.app ((traced_name _).abs _)).app (((((traced_name _).era hbody).abs _).abs _).abs _)
  obtain ⟨log, hlog⟩ := htraced.run h
  exact ⟨log, .handle hlog⟩

theorem elabImpl_emits : ∀ (t : Ast V F), Traced usage t
  | .name n => traced_name n
  | .abs x body => (elabImpl_emits body).abs x
  | .app f x => (elabImpl_emits f).app (elabImpl_emits x)
  | .rep e a b body => (elabImpl_emits e).rep (elabImpl_emits body) a b
  | .era e body => (elabImpl_emits e).era (elabImpl_emits body)
  | .fix inner => (elabImpl_emits inner).fix
  | .perform _ _ => ⟨fun h => by cases h⟩
  | .handle comp (.cons label argName kName body .nil) =>
    (elabImpl_emits comp).handle (elabImpl_emits body) label argName kName
  | .handle _ .nil => ⟨fun h => by cases h⟩
  | .handle _ (.cons _ _ _ _ (.cons _ _ _ _ _)) => ⟨fun h => by cases h⟩
  | .val v => traced_free (.val v) (fun _ => rfl) fun halloc => .val halloc
  | .fn f => traced_free (.fn f) (fun _ => rfl) fun halloc => .fn halloc

end

/-! ## Invariants of runs -/

theorem bindName_eq_some {α : Type} {env : Name → Option α} {x y : Name} {v q : α} :
    bindName env x v y = some q ↔ (y = x ∧ q = v) ∨ (y ≠ x ∧ env y = some q) := by
  unfold bindName
  split
  · next hy => simp [hy, eq_comm]
  · next hy => simp [hy]

theorem unbindName_eq_some {α : Type} {env : Name → Option α} {x y : Name} {q : α} :
    unbindName env x y = some q ↔ y ≠ x ∧ env y = some q := by
  unfold unbindName
  split
  · next hy => simp [hy]
  · next hy => simp [hy]

/-- `P` of the net and `Q` of the ports in hand, kept by fans, replicators and wires. -/
structure Kept (P : Net → Prop) (Q : Net → PortId → Prop) : Prop where
  agent : ∀ {n n' : Net} {kind : AgentKind} {data : Nat} {d0 d1 : Int} {ps : AgentPorts}, P n →
    kind = .fanAbs ∨ kind = .fanApp ∨ kind = .repInUnpaired →
    data < 65536 ∧ (-32768 ≤ d0 ∧ d0 < 32768) ∧ (-32768 ≤ d1 ∧ d1 < 32768) →
    n.allocAgent kind data d0 d1 = .ok (ps, n') →
    P n' ∧ (∀ q, Q n q → Q n' q) ∧ Q n' ps.principal ∧ Q n' ps.aux0 ∧ Q n' ps.aux1
  connect : ∀ {n : Net} {a b : PortId} (lo : LOPath), P n → Q n a → Q n b →
    P (n.connect a b lo) ∧ ∀ q, Q n q → Q (n.connect a b lo) q

/-- They are kept by erasers and free slots as well. -/
structure KeptAll (P : Net → Prop) (Q : Net → PortId → Prop) : Prop where
  era : ∀ {n : Net}, P n → Q n .era
  free : ∀ {n n' : Net} {p : PortId}, P n → n.allocFree 0 = .ok (p, n') →
    P n' ∧ (∀ q, Q n q → Q n' q) ∧ Q n' p

theorem toI16_fits {d d' : Int} (h : toI16 d = .ok d') : -32768 ≤ d' ∧ d' < 32768 := by
  unfold toI16 at h
  split at h
  · cases h
    omega
  · cases h

theorem Emits.kept {P : Net → Prop} {Q : Net → PortId → Prop} {usage : Name → Option Nat}
    {t : Ast V F} {level : Nat} {lo : LOPath} {st st' : ElabState} {r : PortId × Nat}
    {log : List Event} (h : Emits usage t level lo st r st' log) (hk : Kept P Q)
    (hall : t.Relevant ∨ KeptAll P Q) (hP : P st.net)
    (henv : ∀ y q, st.env y = some q → Q st.net q.1) : P st'.net ∧ (∀ q, Q st.net q → Q st'.net q) ∧
      (∀ y q, st'.env y = some q → Q st'.net q.1) ∧ Q st'.net r.1 := by
  induction h with
  | name hn =>
    exact ⟨hP, fun _ => id, fun y q hq => henv y q (unbindName_eq_some.mp hq).2, henv _ _ hn⟩
  | abs halloc _ _ ih =>
    obtain ⟨hP, hup, hp, h0, h1⟩ := hk.agent hP (.inl rfl) (by decide) halloc
    obtain ⟨hP, hup', henv', hb⟩ := ih (hall.imp_left fun | .abs _ h => h) hP fun y q hq => by
      rcases bindName_eq_some.mp hq with ⟨-, rfl⟩ | ⟨-, hq⟩
      · exact h1
      · exact hup _ (henv y q hq)
    obtain ⟨hP, hup''⟩ := hk.connect _ hP (hup' _ h0) hb
    exact ⟨hP, fun q hq => hup'' _ (hup' _ (hup _ hq)),
      fun y q hq => hup'' _ (henv' y q (unbindName_eq_some.mp hq).2), hup'' _ (hup' _ hp)⟩
  | app halloc _ _ _ _ ihf ihx =>
    obtain ⟨hP, hup, hp, h0, h1⟩ := hk.agent hP (.inr (.inl rfl)) (by decide) halloc
    obtain ⟨hP, hupf, henv, hf⟩ := ihf (hall.imp_left fun | .app h _ => h) hP fun y q hq =>
      hup _ (henv y q hq)
    obtain ⟨hP, hupx, henv, hx⟩ := ihx (hall.imp_left fun | .app _ h => h) hP henv
    obtain ⟨hP, hupc⟩ := hk.connect _ hP (hupx _ (hupf _ hp)) (hupx _ hf)
    obtain ⟨hP, hupd⟩ := hk.connect _ hP (hupc _ (hupx _ (hupf _ h1))) (hupc _ hx)
    have hall : ∀ q, Q _ q → Q _ q := fun q hq => hupd _ (hupc _ (hupx _ (hupf q hq)))
    exact ⟨hP, fun q hq => hall _ (hup _ hq), fun y q hq => hupd _ (hupc _ (henv y q hq)), hall _ h0⟩
  | rep _ hd0 hd1 halloc _ ihe ihb =>
    obtain ⟨hP, hupe, henv, he⟩ := ihe (hall.imp_left fun | .rep _ _ h _ => h) hP henv
    obtain ⟨hP, hup, hp, h0, h1⟩ := hk.agent hP (.inr (.inr rfl))
      ⟨Nat.mod_lt _ (by decide), toI16_fits hd0, toI16_fits hd1⟩ halloc
    obtain ⟨hP, hupc⟩ := hk.connect _ hP hp (hup _ he)
    obtain ⟨hP, hupb, henv, hb⟩ := ihb (hall.imp_left fun | .rep _ _ _ h => h) hP fun y q hq => by
      rcases bindName_eq_some.mp hq with ⟨-, rfl⟩ | ⟨-, hq⟩
      · exact hupc _ h1
      · rcases bindName_eq_some.mp hq with ⟨-, rfl⟩ | ⟨-, hq⟩
        · exact hupc _ h0
        · exact hupc _ (hup _ (henv y q hq))
    exact ⟨hP, fun q hq => hupb _ (hupc _ (hup _ (hupe _ hq))), henv, hb⟩
  | era _ _ ihe ihb =>
    have hrest := hall.resolve_left nofun
    obtain ⟨hP, hupe, henv, he⟩ := ihe (.inr hrest) hP henv
    obtain ⟨hP, hupc⟩ := hk.connect _ hP (hrest.era hP) he
    obtain ⟨hP, hupb, henv, hb⟩ := ihb (.inr hrest) hP fun y q hq => hupc _ (henv y q hq)
    exact ⟨hP, fun q hq => hupb _ (hupc _ (hupe _ hq)), henv, hb⟩
  | fix _ _ happ hrep _ ih =>
    obtain ⟨hP, hupi, henv, hi⟩ := ih (.inr (hall.resolve_left nofun)) hP henv
    obtain ⟨hP, hup, hp, h0, h1⟩ := hk.agent hP (.inr (.inl rfl)) (by decide) happ
    obtain ⟨hP, hupc⟩ := hk.connect _ hP hp (hup _ hi)
    obtain ⟨hP, hupr, hp', h0', h1'⟩ := hk.agent hP (.inr (.inr rfl))
      ⟨Nat.mod_lt _ (by decide), by decide⟩ hrep
    obtain ⟨hP, hupd⟩ := hk.connect _ hP hp' (hupr _ (hupc _ h0))
    obtain ⟨hP, hupe⟩ := hk.connect _ hP (hupd _ (hupr _ (hupc _ h1))) (hupd _ h0')
    have hlast : ∀ q, Q _ q → Q _ q := fun q hq => hupe _ (hupd _ (hupr _ (hupc _ (hup q hq))))
    exact ⟨hP, fun q hq => hlast _ (hupi _ hq), fun y q hq => hlast _ (henv y q hq),
      hupe _ (hupd _ h1')⟩
  | handle _ ih => exact ih (.inr (hall.resolve_left nofun)) hP henv
  | val halloc | fn halloc =>
    obtain ⟨hP, hup, hp⟩ := (hall.resolve_left nofun).free hP halloc
    exact ⟨hP, hup, fun y q hq => hup _ (henv y q hq), hp⟩

end Dnet
