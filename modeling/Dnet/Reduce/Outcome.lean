import Dnet.Reduce.Wire

/-!
# The rewrites of one dispatch

`ruleRewrite` is the rewrite of the interaction rule of a pair, read off the net before
it fires. A dispatch runs that rewrite, or one of the checks C2 and C3 takes its place
(`Outcome`, `dispatch_outcome`).
-/

namespace Dnet

open Lib List

/-! ## Where a link can be queued -/

/-- An end that is, or will be, a principal port. -/
def End.CanQueue : End → Prop
  | .ext p => p.portKind = .principal ∧ p ≠ .null
  | .new _ kind => kind = .principal

/-- The link makes an active pair with the key `k`. -/
def Link.CanQueue (l : Link) (k : LOPath) : Prop := l.lo = some k ∧ l.a.CanQueue ∧ l.b.CanQueue

def End.isNewAux : End → Bool
  | .ext _ => false
  | .new _ kind => kind ≠ .principal

/-- The key of a link that no end keeps from being queued. -/
def Link.key (l : Link) : Option LOPath := if l.a.isNewAux || l.b.isNewAux then none else l.lo

theorem Link.CanQueue.key {l : Link} {k : LOPath} (h : l.CanQueue k) : l.key = some k := by
  have hend {e : End} (he : e.CanQueue) : e.isNewAux = false := by
    cases e with
    | ext p => rfl
    | new j kind => simpa [End.isNewAux] using (show kind = .principal from he)
  rw [Link.key, hend h.2.1, hend h.2.2]
  exact h.1

namespace Net

section

variable {n n' : Net} {news : List (AgentKind × Nat × Int × Int)} {is : List Nat}
  {ps : List AgentPorts}

theorem port_of_allocAll (ha : n.AllocAll news is ps n') (k : Nat) (kind : PortKind) :
    (End.new k kind).port ps = .null ∨ ((End.new k kind).port ps).portKind = kind := by
  rw [ha.ports, End.port]
  cases hk : (is.map n'.ports)[k]? with
  | none =>
    rw [getD_eq_getElem?_getD, hk]
    cases kind <;> exact .inl rfl
  | some p =>
    obtain ⟨i, -, rfl⟩ := mem_map.mp (mem_of_getElem? hk)
    rw [getD_eq_getElem?_getD, hk]
    cases kind <;> exact .inr rfl

theorem canQueue_of_queues (ha : n.AllocAll news is ps n') {l : Link} {k : LOPath}
    (h : l.Queues ps k) : l.CanQueue k := by
  have hend {e : End} (hp : (e.port ps).portKind = .principal) (hn : e.port ps ≠ .null) :
      e.CanQueue := by
    cases e with
    | ext p => exact ⟨hp, hn⟩
    | new j kind =>
      rcases port_of_allocAll ha j kind with h' | h'
      · exact absurd h' hn
      · exact h'.symm.trans hp
  obtain ⟨hlo, h1, h2, h3, h4⟩ := h
  exact ⟨hlo, hend h1 h3, hend h2 h4⟩

theorem keysApart_of_nodup (ha : n.AllocAll news is ps n') {ls : List Link}
    (h : (ls.filterMap Link.key).Nodup) : KeysApart ps ls := by
  refine (pairwise_filterMap.mp h).imp ?_
  intro l l' hne k hq hq'
  exact hne k (canQueue_of_queues ha hq).key k (canQueue_of_queues ha hq').key rfl

/-! ## The rewrite of a pair's rule -/

/-- R1 to R7 on the pair, as a rewrite. -/
def ruleRewrite (n : Net) (pair : ActivePair) : Except DnxError Rewrite :=
  let p0 := pair.p0.1
  let p1 := pair.p1.1
  if p0.isEraser && p1.isEraser then .ok { retired := [], links := [] }
  else if p0.isEraser then n.eraRewrite p1 pair.lo
  else if p1.isEraser then n.eraRewrite p0 pair.lo
  else if (n.slot p0).isFan && (n.slot p1).isFan then n.r4Rewrite p0 p1 pair.lo
  else if (n.slot p0).isFan && (n.slot p1).isRep then n.r5Rewrite p0 p1 pair.lo
  else if (n.slot p0).isRep && (n.slot p1).isFan then n.r5Rewrite p1 p0 pair.lo
  else if (n.slot p0).isRep && (n.slot p1).isRep then
    if (n.slot p0).label = (n.slot p1).label then n.r6Rewrite p0 p1 pair.lo
    else n.r7Rewrite p0 p1 pair.lo
  else .error .readbackIncomplete

/-- The slots of the agents of a pair. -/
def pairSlots (pair : ActivePair) : List Nat :=
  ([pair.p0.1, pair.p1.1].filter (!·.isEraser)).map PortId.slotIdx

/-- What a rule retires and queues: the agents of its pair, distinct keys, and no silent
link together with new agents. -/
structure RuleShape (slots : List Nat) (rw : Rewrite) : Prop where
  perm : rw.retired.Perm slots
  keys : (rw.links.filterMap Link.key).Nodup
  silent : ∀ l ∈ rw.links, l.lo = none → rw.news = [] ∧ ∃ a b, l = ⟨.ext a, .ext b, none⟩

end

section

variable {n : Net} {rw : Rewrite} {p0 p1 : PortId} {lo : LOPath} {slots retired : List Nat}

theorem joins_shape {erased : List PortId} {a b a' b' : PortId} {lo0 lo1 : LOPath}
    (hp : retired.Perm slots) (hne : lo0 ≠ lo1) :
    RuleShape slots (.joins erased retired a b a' b' lo0 lo1) := by
  refine ⟨hp, ?_, fun l hl hn => ?_⟩
  · simpa [Rewrite.joins, Link.key, End.isNewAux] using hne
  · simp only [Rewrite.joins, mem_cons, not_mem_nil, or_false] at hl
    rcases hl with rfl | rfl <;> cases hn

theorem crosses_shape {news : List (AgentKind × Nat × Int × Int)} {q0 q1 q2 q3 : PortId}
    {k0 k1 k2 k3 : LOPath} (hp : retired.Perm slots) (hnd : [k0, k1, k2, k3].Nodup) :
    RuleShape slots (.crosses news retired lo q0 q1 q2 q3 k0 k1 k2 k3) := by
  refine ⟨hp, ?_, fun l hl hn => absurd hn ?_⟩
  · simpa [Rewrite.crosses, Link.key, End.isNewAux] using hnd
  · revert l
    simp [Rewrite.crosses]

theorem eraRewrite_shape {p : PortId} (h : n.eraRewrite p lo = .ok rw) :
    RuleShape [p.slotIdx] rw := by
  obtain ⟨lo0, lo1, hne, rfl⟩ := eraRewrite_eq_ok h
  exact joins_shape (.refl _) hne

theorem r4Rewrite_shape (h : n.r4Rewrite p0 p1 lo = .ok rw) :
    RuleShape [p0.slotIdx, p1.slotIdx] rw := by
  obtain ⟨a, b, hab, hform⟩ := r4Rewrite_eq_ok h
  have hperm : [a.slotIdx, b.slotIdx].Perm [p0.slotIdx, p1.slotIdx] := by
    unfold absApp at hab
    split at hab <;> cases hab
    · exact .refl _
    · exact .swap _ _ _
  rcases hform with ⟨-, -, rfl⟩ | ⟨lo0, lo1, hne, rfl⟩
  · exact ⟨hperm, nodup_nil, fun l hl _ => ⟨rfl, _, _, mem_singleton.mp hl⟩⟩
  · exact joins_shape hperm hne

theorem r6Rewrite_shape (h : n.r6Rewrite p0 p1 lo = .ok rw) :
    RuleShape [p0.slotIdx, p1.slotIdx] rw := by
  obtain ⟨lo0, lo1, hne, rfl⟩ := r6Rewrite_eq_ok h
  exact joins_shape (.refl _) hne

theorem r5Rewrite_shape {fanP repP : PortId} (h : n.r5Rewrite fanP repP lo = .ok rw) :
    RuleShape [fanP.slotIdx, repP.slotIdx] rw := by
  rcases r5Rewrite_eq_ok h with ⟨-, -, lo0, lo1, k0, k1, hne, rfl⟩ |
    ⟨fan, rep, rep', k0, k1, k2, k3, -, -, -, hnd, rfl⟩
  · refine ⟨.refl _, ?_, fun l hl hn => absurd hn ?_⟩
    · simpa [Rewrite.splits, Link.key, End.isNewAux] using hne
    · revert l
      simp [Rewrite.splits]
  · exact crosses_shape (.refl _) hnd

theorem r7Rewrite_shape (h : n.r7Rewrite p0 p1 lo = .ok rw) :
    RuleShape [p0.slotIdx, p1.slotIdx] rw := by
  obtain ⟨a, b, lv0, lv1, k0, k1, k2, k3, hab, -, -, hnd, rfl⟩ := r7Rewrite_eq_ok h
  refine crosses_shape ?_ hnd
  unfold hiLo at hab
  split at hab <;> cases hab
  · exact .refl _
  · exact .swap _ _ _

end

variable {pair : ActivePair}

/-- The rule of a pair retires exactly the agents of the pair. -/
theorem ruleRewrite_shape {n : Net} {rw : Rewrite}
    (h : n.ruleRewrite pair = .ok rw) : RuleShape (pairSlots pair) rw := by
  unfold ruleRewrite at h
  dsimp only at h
  unfold pairSlots
  cases h0 : pair.p0.1.isEraser <;> cases h1 : pair.p1.1.isEraser <;>
    simp only [h0, h1, Bool.and_true, Bool.and_false, Bool.false_eq_true, if_true, if_false,
      filter_cons, filter_nil, Bool.not_true, Bool.not_false, map_cons,
      map_nil] at h ⊢
  · split at h
    · exact r4Rewrite_shape h
    · split at h
      · exact r5Rewrite_shape h
      · split at h
        · have hs := r5Rewrite_shape h
          exact { hs with perm := hs.perm.trans (.swap _ _ _) }
        · split at h
          · split at h
            · exact r6Rewrite_shape h
            · exact r7Rewrite_shape h
          · cases h
  · exact eraRewrite_shape h
  · exact eraRewrite_shape h
  · cases h
    exact ⟨.refl _, nodup_nil, fun l hl => absurd hl not_mem_nil⟩

/-! ## The checks -/

/-- A check on the replicator at `p`: it retires that replicator, allocates nothing and
makes one link at the path `lo`, one end of which is the port that the replicator faces. -/
structure CheckShape (lo : LOPath) (n : Net) (p : PortId) (rw : Rewrite) : Prop where
  retired : rw.retired = [p.slotIdx]
  news : rw.news = []
  links : ∃ a b, rw.links = [⟨.ext a, .ext b, some lo⟩] ∧
    (a = (n.slot p).principal ∨ b = (n.slot p).principal)

/-- The plan of a check. -/
def Checks (lo : LOPath) (plan : Net → PortId → Option Rewrite) : Prop :=
  ∀ n p rw, plan n p = some rw → CheckShape lo n p rw

variable {plan : Net → PortId → Option Rewrite} {C : NetClass}

theorem c3Plan_checks (C : NetClass) (lo : LOPath) : Checks lo (c3Plan C lo) := by
  intro n p rw h
  obtain ⟨hret, hnews⟩ := c3Plan_drops C lo n p rw h
  refine ⟨hret, hnews, ?_⟩
  unfold c3Plan at h
  split at h
  · unfold c3Rewrite at h
    dsimp only at h
    split at h
    · split at h <;> cases h
      exact ⟨_, _, rfl, .inr rfl⟩
    · split at h <;> cases h
      exact ⟨_, _, rfl, .inl rfl⟩
    · split at h <;> cases h
      exact ⟨_, _, rfl, .inl rfl⟩
    · cases h
  · cases h

theorem c2Plan_checks (C : NetClass) (lo : LOPath) : Checks lo (c2Plan C lo) := by
  intro n p rw h
  obtain ⟨hret, hnews⟩ := c2Plan_drops C lo n p rw h
  refine ⟨hret, hnews, ?_⟩
  unfold c2Plan at h
  split at h
  · unfold c2Rewrite at h
    cases hg : c2GateAndShift (n.slot p) n.slot with
    | error e =>
      rw [hg] at h
      cases h
    | ok o =>
      rw [hg] at h
      cases o with
      | none => cases h
      | some m =>
        cases h
        refine ⟨_, _, rfl, .inr ?_⟩
        rcases c2GateAndShift_some hg with hg | hg <;>
        · obtain ⟨-, -, rfl⟩ := c2GateAt_some hg
          rfl
  · cases h

/-! ## Outcomes -/

/-- Neither C3 nor, where both ends are agents, C2 acts on an end that is not a fan. -/
def ChecksIdle (C : NetClass) (n : Net) (pair : ActivePair) : Prop :=
  ∀ p, p = pair.p0.1 ∨ p = pair.p1.1 → p.isEraser = false → (n.slot p).isFan = false →
    c3Plan C pair.lo n p = none ∧
      (pair.p0.1.isEraser = false → pair.p1.1.isEraser = false → c2Plan C pair.lo n p = none)

/-- What firing a pair does: the rule of the pair, or a check on one of its replicators,
or one on each of two replicators. -/
inductive Outcome (C : NetClass) (n : Net) (pair : ActivePair) (n' : Net) : Prop where
  | rule {rw : Rewrite} (hidle : ChecksIdle C n pair) (hrw : n.ruleRewrite pair = .ok rw)
      (hrun : rw.run n = .ok n')
  | check {plan : Net → PortId → Option Rewrite} {p : PortId} {rw : Rewrite}
      (hplan : plan = c3Plan C pair.lo ∨
        plan = c2Plan C pair.lo ∧ pair.p0.1.isEraser = false ∧ pair.p1.1.isEraser = false)
      (hp : p = pair.p0.1 ∨ p = pair.p1.1) (he : p.isEraser = false)
      (hf : (n.slot p).isFan = false) (hrw : plan n p = some rw) (hrun : rw.run n = .ok n')
  | twice {plan : Net → PortId → Option Rewrite}
      (hplan : plan = c3Plan C pair.lo ∨ plan = c2Plan C pair.lo)
      (h0 : pair.p0.1.isEraser = false) (h1 : pair.p1.1.isEraser = false)
      (hr0 : (n.slot pair.p0.1).isRep = true) (hr1 : (n.slot pair.p1.1).isRep = true)
      (ht : Twice plan n pair.p0.1 pair.p1.1 n')

theorem checks_of_plan {lo : LOPath}
    (h : plan = c3Plan C lo ∨ plan = c2Plan C lo) : Checks lo plan := by
  rcases h with rfl | rfl
  · exact c3Plan_checks C lo
  · exact c2Plan_checks C lo

theorem not_isFan_of_isRep {s : Slot} (h : s.isRep = true) : s.isFan = false := by
  unfold Slot.isRep at h
  split at h
  · next hk => simp [Slot.isFan, hk]
  · cases h

theorem run_void (n : Net) : Rewrite.run { retired := [], links := [] } n = .ok n := rfl

/-- The inversion of a dispatch as a choice between its rule and the checks. -/
theorem Fires.outcome {n n' : Net}
    (h : Fires C n pair.p0.1 pair.p1.1 pair.lo n') : Outcome C n pair n' := by
  cases h with
  | void h0 h1 hn =>
    refine @Outcome.rule C n pair n' { retired := [], links := [] } (fun p hp he => ?_) ?_
      (hn ▸ run_void n)
    · rcases hp with rfl | rfl
      · rw [h0] at he; cases he
      · rw [h1] at he; cases he
    · simp [ruleRewrite, h0, h1]
  | @erase p rw he hc hrw hrun =>
    obtain ⟨hp, ⟨h0, rfl⟩ | ⟨h0, h1, rfl⟩⟩ := he
    · refine .rule (fun q hq hqe hqf => ?_) (by simpa [ruleRewrite, h0, hp] using hrw) hrun
      rcases hq with rfl | rfl
      · rw [h0] at hqe; cases hqe
      · exact ⟨hc hqf, fun h => by rw [h0] at h; cases h⟩
    · refine .rule (fun q hq hqe hqf => ?_) (by simpa [ruleRewrite, h0, h1] using hrw) hrun
      rcases hq with rfl | rfl
      · exact ⟨hc hqf, fun _ h => by rw [h1] at h; cases h⟩
      · rw [h1] at hqe; cases hqe
  | decayEra he hf hrw hrun =>
    obtain ⟨hp, ⟨h0, rfl⟩ | ⟨h0, h1, rfl⟩⟩ := he
    · exact .check (.inl rfl) (.inr rfl) hp hf hrw hrun
    · exact .check (.inl rfl) (.inl rfl) hp hf hrw hrun
  | beta h0 h1 hf0 hf1 hrw hrun =>
    refine .rule (fun q hq hqe hqf => ?_) (by simpa [ruleRewrite, h0, h1, hf0, hf1] using hrw) hrun
    rcases hq with rfl | rfl
    · rw [hf0] at hqf; cases hqf
    · rw [hf1] at hqf; cases hqf
  | commute h0 h1 hfr hs hrw hrun =>
    obtain ⟨⟨rfl, rfl⟩ | ⟨rfl, rfl⟩, hf, hr⟩ := hfr
    · refine .rule (fun q hq hqe hqf => ?_)
        (by simpa [ruleRewrite, h0, h1, hf, hr, not_isFan_of_isRep hr] using hrw) hrun
      rcases hq with rfl | rfl
      · rw [hf] at hqf; cases hqf
      · exact ⟨hs.1, fun _ _ => hs.2⟩
    · refine .rule (fun q hq hqe hqf => ?_)
        (by simpa [ruleRewrite, h0, h1, hf, hr, not_isFan_of_isRep hr] using hrw) hrun
      rcases hq with rfl | rfl
      · exact ⟨hs.1, fun _ _ => hs.2⟩
      · rw [hf] at hqf; cases hqf
  | decay h0 h1 hfr hrw hrun =>
    obtain ⟨⟨rfl, rfl⟩ | ⟨rfl, rfl⟩, hf, hr⟩ := hfr
    · exact .check (.inl rfl) (.inr rfl) h1 (not_isFan_of_isRep hr) hrw hrun
    · exact .check (.inl rfl) (.inl rfl) h0 (not_isFan_of_isRep hr) hrw hrun
  | merge h0 h1 hfr hc hrw hrun =>
    obtain ⟨⟨rfl, rfl⟩ | ⟨rfl, rfl⟩, hf, hr⟩ := hfr
    · exact .check (.inr ⟨rfl, h0, h1⟩) (.inr rfl) h1 (not_isFan_of_isRep hr) hrw hrun
    · exact .check (.inr ⟨rfl, h0, h1⟩) (.inl rfl) h0 (not_isFan_of_isRep hr) hrw hrun
  | decays h0 h1 hr0 hr1 ht => exact .twice (.inl rfl) h0 h1 hr0 hr1 ht
  | merges h0 h1 hr0 hr1 hc0 hc1 ht => exact .twice (.inr rfl) h0 h1 hr0 hr1 ht
  | annihilate h0 h1 hr0 hr1 hs0 hs1 hl hrw hrun | cross h0 h1 hr0 hr1 hs0 hs1 hl hrw hrun =>
    refine .rule (fun q hq hqe hqf => ?_) (by
      simpa [ruleRewrite, h0, h1, hr0, hr1, not_isFan_of_isRep hr0, not_isFan_of_isRep hr1, hl]
        using hrw) hrun
    rcases hq with rfl | rfl
    · exact ⟨hs0.1, fun _ _ => hs0.2⟩
    · exact ⟨hs1.1, fun _ _ => hs1.2⟩

/-- When no check acts, the rule of the pair is what fires. -/
theorem Outcome.rule_of_idle {n n' : Net}
    (h : Outcome C n pair n') (hlive : n.isStalePair pair = false) (hidle : ChecksIdle C n pair) :
    ∃ rw, n.ruleRewrite pair = .ok rw ∧ rw.run n = .ok n' := by
  cases h with
  | rule _ hrw hrun => exact ⟨_, hrw, hrun⟩
  | check hplan hp he hf hrw hrun =>
    obtain ⟨h3, h2⟩ := hidle _ hp he hf
    rcases hplan with rfl | ⟨rfl, h0, h1⟩
    · rw [h3] at hrw
      cases hrw
    · rw [h2 h0 h1] at hrw
      cases hrw
  | @twice plan hplan h0 h1 hr0 hr1 ht =>
    have hnone {p : PortId} (hp : p = pair.p0.1 ∨ p = pair.p1.1) (he : p.isEraser = false)
        (hr : (n.slot p).isRep = true) {rw : Rewrite} : plan n p ≠ some rw := by
      obtain ⟨h3, h2⟩ := hidle p hp he (not_isFan_of_isRep hr)
      rcases hplan with rfl | rfl
      · exact fun h => by rw [h3] at h; cases h
      · exact fun h => by rw [h2 h0 h1] at h; cases h
    obtain ⟨m, hs0, hs1, hdead⟩ := ht
    cases hs0 with
    | act hp hrun => exact absurd hp (hnone (.inl rfl) h0 hr0)
    | idle _ hm =>
      subst hm
      cases hs1 with
      | act hp hrun => exact absurd hp (hnone (.inr rfl) h1 hr1)
      | idle _ hn =>
        subst hn
        obtain ⟨hl0, hl1⟩ := portLive_of_not_stale hlive
        rw [((portLive_iff h0).mp hl0).1, ((portLive_iff h1).mp hl1).1] at hdead
        simp at hdead

end Net

end Dnet
