import Dnet.Reduce.Outcome

/-!
# Every redex is queued

The reducer stops when its queue is empty. Then there is no redex left only if every wire between
two principal ports has an entry (`Registered`). R4 on an identity links two ports without
queueing them, and an entry is lost when another pair is queued under its key. A round that does
neither (`StepSafe`) keeps every redex queued (`registered_round`).
-/

namespace Dnet

open Lib List

namespace Net

/-! ## Registered nets -/

/-- The entry is about the slots `i` and `j`. -/
def Names (pair : ActivePair) (i j : Nat) : Prop :=
  pair.p0.1.isEraser = false ∧ pair.p1.1.isEraser = false ∧
    ((pair.p0.1.slotIdx = i ∧ pair.p1.1.slotIdx = j) ∨
      (pair.p0.1.slotIdx = j ∧ pair.p1.1.slotIdx = i))

/-- Every wire between principal ports of live fans and replicators is queued. -/
def Registered (n : Net) : Prop := ∀ i j, Wire n i j → ∃ e ∈ n.frontier1, Names e.2 i j

/-- The condition on a pair that was just popped, in the net `n` without it. -/
structure StepSafe (C : NetClass) (n : Net) (pair : ActivePair) : Prop where
  /-- A pair that is skipped as stale is no wire. -/
  stale : n.isStalePair pair = true → ∀ i j, Wire n i j → ¬Names pair i j
  /-- Two agents that meet are different ones. -/
  distinct : n.isStalePair pair = false → pair.p0.1.isEraser = false →
    pair.p1.1.isEraser = false → pair.p0.1.slotIdx ≠ pair.p1.1.slotIdx
  /-- Two replicators that meet hold each other. -/
  facing : n.isStalePair pair = false → (n.slot pair.p0.1).isRep = true →
    (n.slot pair.p1.1).isRep = true →
      n.Faces pair.p0.1.slotIdx pair.p1.1.slotIdx ∧ n.Faces pair.p1.1.slotIdx pair.p0.1.slotIdx
  /-- A link that is not queued makes no wire. -/
  silent : n.isStalePair pair = false → ChecksIdle C n pair →
    ∀ rw, n.ruleRewrite pair = .ok rw → ∀ a b, ⟨.ext a, .ext b, none⟩ ∈ rw.links →
      ∀ i j, Joins a b i j → i ≠ j → i ∉ rw.retired → j ∉ rw.retired →
        n.arena.isLive i = true → n.arena.isLive j = true →
          ¬((n.arena.slots i).kind.structural = true ∧ (n.arena.slots j).kind.structural = true)
  /-- A key under which a pair is queued does not hold a wire. -/
  keys : n.isStalePair pair = false → ChecksIdle C n pair →
    ∀ rw, n.ruleRewrite pair = .ok rw → ∀ l ∈ rw.links, ∀ k, l.CanQueue k →
      ∀ e ∈ n.frontier1, e.1 = k → ∀ i j, Wire n i j → ¬Names e.2 i j

variable {lo : LOPath} {i j : Nat}

theorem Joins.names {a b : PortId} (h : Joins a b i j)
    (ha : a.portKind = .principal) (hb : b.portKind = .principal) :
    Names ⟨⟨a, ha⟩, ⟨b, hb⟩, lo⟩ i j := by
  obtain ⟨hra, hrb, h⟩ := h
  refine ⟨(PortId.isReal_iff.mp hra).1, (PortId.isReal_iff.mp hrb).1, ?_⟩
  rcases h with ⟨hi, hj⟩ | ⟨hi, hj⟩
  · exact .inl ⟨congrArg Prod.fst hi, congrArg Prod.fst hj⟩
  · exact .inr ⟨congrArg Prod.fst hi, congrArg Prod.fst hj⟩

variable {pair : ActivePair} {p : PortId}

theorem Names.mem (h : Names pair i j)
    (hp : p = pair.p0.1 ∨ p = pair.p1.1) : i = p.slotIdx ∨ j = p.slotIdx := by
  obtain ⟨-, -, ⟨h0, h1⟩ | ⟨h0, h1⟩⟩ := h
  · rcases hp with rfl | rfl
    · exact .inl h0.symm
    · exact .inr h1.symm
  · rcases hp with rfl | rfl
    · exact .inr h0.symm
    · exact .inl h1.symm

/-! ## One rewrite -/

section

variable {rw : Rewrite} {n n1 n2 n' : Net} {is : List Nat} {ps : List AgentPorts}

theorem queued_of_joins (hran : rw.Ran n is ps n1 n2 n') (ha : KeysApart ps rw.links) {l : Link}
    (hl : l ∈ rw.links) {k : LOPath} (hk : l.lo = some k) {i j : Nat}
    (hj : Joins (l.a.port ps) (l.b.port ps) i j) : ∃ e ∈ n'.frontier1, Names e.2 i j :=
  ⟨_, mem_run_of_queues hran ha hl ⟨hk, hj.isPair⟩, hj.names _ _⟩

/-- A rule whose wires are entered under keys that hold no other wire. -/
theorem registered_of_rule {C : NetClass} {pair : ActivePair}
    (hran : rw.Ran n is ps n1 n2 n') (hret : rw.RetiresLive n)
    (hlive : n.isStalePair pair = false) (hsafe : StepSafe C n pair)
    (hidle : ChecksIdle C n pair) (hrw : n.ruleRewrite pair = .ok rw)
    (hreg : ∀ i j, Wire n i j → Names pair i j ∨ ∃ e ∈ n.frontier1, Names e.2 i j) :
    Registered n' := by
  have hshape := ruleRewrite_shape hrw
  have hapart := keysApart_of_nodup hran.alloc hshape.keys
  intro i j hw
  rcases wire_run hran hret hw with ⟨hold, hi, hj⟩ | ⟨l, hl, hjoin⟩
  · rcases hreg i j hold with hn | ⟨e, he, hn⟩
    · -- the popped pair is retired
      have hmem : pair.p0.1.slotIdx ∈ rw.retired := by
        refine hshape.perm.mem_iff.mpr ?_
        simp [pairSlots, hn.1]
      rcases hn.mem (.inl rfl) with h | h
      · exact absurd (h ▸ hmem) hi
      · exact absurd (h ▸ hmem) hj
    · refine ⟨e, mem_run_of_mem hran he fun l hl k hq hek => ?_, hn⟩
      exact hsafe.keys hlive hidle rw hrw l hl k (canQueue_of_queues hran.alloc hq) e he hek i j hold
        hn
  · cases hlo : l.lo with
    | some k => exact queued_of_joins hran hapart hl hlo hjoin
    | none =>
      obtain ⟨hnews, a, b, rfl⟩ := hshape.silent l hl hlo
      have hlive' {k : Nat} (hk : n'.arena.isLive k = true) :
          n.arena.isLive k = true ∧ k ∉ rw.retired := hran.isLive_of_no_news hret hnews hk
      have hkind {k : Nat} (hk : n'.arena.isLive k = true) :
          (n'.arena.slots k).kind = (n.arena.slots k).kind :=
        (hran.body_old (hran.not_fresh_of_live (hlive' hk).1)).1
      refine absurd ⟨?_, ?_⟩ (hsafe.silent hlive hidle rw hrw a b hl i j hjoin hw.ne
        (hlive' hw.live_left).2 (hlive' hw.live_right).2 (hlive' hw.live_left).1
        (hlive' hw.live_right).1)
      · exact hkind hw.live_left ▸ hw.agent_left
      · exact hkind hw.live_right ▸ hw.agent_right

/-- The wires after a check: the one its link makes, and old ones under other keys. -/
theorem wires_of_check {lo : LOPath} {p : PortId} (hran : rw.Ran n is ps n1 n2 n')
    (hret : rw.RetiresLive n) (hshape : CheckShape lo n p rw)
    (hoff : ∀ i j, Wire n i j → i = p.slotIdx ∨ j = p.slotIdx ∨
      ∃ e ∈ n.frontier1, e.1 ≠ lo ∧ Names e.2 i j) {i j : Nat} (hw : Wire n' i j) :
    (∃ e ∈ n'.frontier1, e.1 ≠ lo ∧ Names e.2 i j) ∨ (∃ e ∈ n'.frontier1, Names e.2 i j) ∧
        ∃ a b, (a = (n.slot p).principal ∨ b = (n.slot p).principal) ∧ Joins a b i j := by
  obtain ⟨a, b, hlinks, hext⟩ := hshape.links
  rcases wire_run hran hret hw with ⟨hold, hi, hj⟩ | ⟨l, hl, hjoin⟩
  · rw [hshape.retired, mem_singleton] at hi hj
    rcases hoff i j hold with h | h | ⟨e, he, hne, hn⟩
    · exact absurd h hi
    · exact absurd h hj
    · refine .inl ⟨e, mem_run_of_mem hran he fun l hl k hq => ?_, hne, hn⟩
      rw [hlinks, mem_singleton] at hl
      rw [hl] at hq
      exact Option.some.inj hq.1 ▸ hne
  · have hapart : KeysApart ps rw.links := by
      rw [hlinks]
      exact pairwise_singleton _ _
    have hlo : l.lo = some lo := by
      rw [hlinks, mem_singleton] at hl
      rw [hl]
    refine .inr ⟨queued_of_joins hran hapart hl hlo hjoin, a, b, hext, ?_⟩
    rw [hlinks, mem_singleton] at hl
    rw [hl] at hjoin
    exact hjoin

end

/-! ## One round of phase 1 -/

/-- The ends of a C4 candidate are agents with different slots. -/
def CandidatesApart (n : Net) : Prop :=
  ∀ e ∈ n.frontier2, e.2.repPrincipal.isEraser = false ∧ e.2.appAux0.isEraser = false ∧
    e.2.repPrincipal.slotIdx ≠ e.2.appAux0.slotIdx

/-- What holds between the rounds of phase 1. -/
structure Queued (n : Net) : Prop where
  wf : n.arena.WF
  keyed : Keyed n
  apart : CandidatesApart n
  registered : Registered n

variable {n : Net}

theorem candidatesApart_detectPair (a b : PortId) (lo : LOPath)
    (h : CandidatesApart n) : CandidatesApart (n.detectPair a b lo) := by
  have hne {r f : PortId} (hr : n.isRepPort r = true) (hf : n.isAppFanPort f = true) :
      r.isEraser = false ∧ f.isEraser = false ∧ r.slotIdx ≠ f.slotIdx := by
    simp only [isRepPort, Bool.and_eq_true, Bool.not_eq_true'] at hr
    unfold isAppFanPort at hf
    split at hf
    · cases hf
    · next hreal =>
      have hf' : (n.slot f).isFan = true := (Bool.and_eq_true _ _ ▸ hf).1
      refine ⟨hr.1.1, (Bool.or_eq_false_iff.mp (Bool.eq_false_iff.mpr hreal)).1, fun he => ?_⟩
      have hr' := not_isFan_of_isRep hr.2
      rw [slot, he] at hr'
      rw [slot, hr'] at hf'
      cases hf'
  unfold detectPair
  split
  · split
    · split <;> exact h
    · exact h
  · split
    · next hc =>
      rw [Bool.and_eq_true] at hc
      intro e he
      rcases OrdMap.mem_insert.mp he with rfl | ⟨he, -⟩
      · exact hne hc.1 hc.2
      · exact h e he
    · exact h
  · split
    · next hc =>
      rw [Bool.and_eq_true] at hc
      intro e he
      rcases OrdMap.mem_insert.mp he with rfl | ⟨he, -⟩
      · exact hne hc.2 hc.1
      · exact h e he
    · exact h
  · exact h

theorem candidatesApart_of_frontier2 {n n' : Net} (he : n'.frontier2 = n.frontier2)
    (h : CandidatesApart n) : CandidatesApart n' := by
  unfold CandidatesApart
  rw [he]
  exact h

theorem candidatesApart_links (ps : List AgentPorts) (ls : List Link)
    (h : CandidatesApart n) : CandidatesApart (ls.foldl (fun n l => n.link ps l) n) := by
  refine List.foldlRecOn ls _ h fun n h l _ => ?_
  have hl := candidatesApart_of_frontier2 (frontier2_linkNoPair n (l.a.port ps) (l.b.port ps)) h
  unfold link
  split
  · exact hl
  · exact candidatesApart_detectPair _ _ _ hl

theorem frontier2_setErasers (ps : List PortId) (n : Net) :
    (ps.foldl setEraserOnPort n).frontier2 = n.frontier2 := by
  refine foldl_frame frontier2 (fun n p => ?_) ps n
  unfold setEraserOnPort
  split <;> rfl

variable {rw : Rewrite}

theorem candidatesApart_run {n n1 n2 n' : Net} {is : List Nat}
    {ps : List AgentPorts} (hran : rw.Ran n is ps n1 n2 n') (h : CandidatesApart n) :
    CandidatesApart n' := by
  rw [hran.link]
  refine candidatesApart_links ps rw.links (candidatesApart_of_frontier2 ?_ h)
  obtain ⟨a, ha⟩ := retireAll_frame rw.retired n2
  have hrel (m : Net) : (m.relabelSlot rw.relabel).frontier2 = m.frontier2 := by
    cases rw.relabel <;> rfl
  rw [ha]
  show n2.frontier2 = _
  rw [hran.alloc.frontier2, hran.erase, hrel, frontier2_setErasers]

theorem retiresLive_of_shape (hlive : n.isStalePair pair = false)
    (hne : pair.p0.1.isEraser = false → pair.p1.1.isEraser = false →
      pair.p0.1.slotIdx ≠ pair.p1.1.slotIdx)
    (h : RuleShape (pairSlots pair) rw) : rw.RetiresLive n := by
  obtain ⟨hl0, hl1⟩ := portLive_of_not_stale hlive
  constructor
  · refine h.perm.nodup_iff.mpr ?_
    unfold pairSlots
    cases h0 : pair.p0.1.isEraser <;> cases h1 : pair.p1.1.isEraser <;>
      simp [h0, h1]
    exact hne h0 h1
  · intro i hi
    have hmem := h.perm.mem_iff.mp hi
    simp only [pairSlots, mem_map, mem_filter, mem_cons, not_mem_nil, or_false] at hmem
    obtain ⟨p, ⟨hp, he⟩, rfl⟩ := hmem
    have he' : p.isEraser = false := by simpa using he
    rcases hp with rfl | rfl
    · exact ((portLive_iff he').mp hl0).1
    · exact ((portLive_iff he').mp hl1).1

theorem retiresLive_of_check
    (h : CheckShape lo n p rw) (hl : n.arena.isLive p.slotIdx = true) : rw.RetiresLive n := by
  rw [Rewrite.RetiresLive, h.retired]
  simpa using hl

/-- A check keeps every wire queued, if the only wires without an entry under another key
are those of its replicator. -/
theorem queued_of_check {n n' : Net} (hwf : n.arena.WF) (hk : Keyed n) (ha : CandidatesApart n)
    (hl : n.arena.isLive p.slotIdx = true) (hshape : CheckShape lo n p rw)
    (hoff : ∀ i j, Wire n i j → i = p.slotIdx ∨ j = p.slotIdx ∨
      ∃ e ∈ n.frontier1, e.1 ≠ lo ∧ Names e.2 i j) (hrun : rw.run n = .ok n') : Queued n' := by
  obtain ⟨is, ps, n1, n2, hran⟩ := Rewrite.run_ok hwf hrun
  have hret := retiresLive_of_check hshape hl
  refine ⟨hran.wf hret, keyed_run hran hk, candidatesApart_run hran ha, fun i j hw => ?_⟩
  rcases wires_of_check hran hret hshape hoff hw with ⟨e, he, -, hn⟩ | ⟨he, -⟩
  · exact ⟨e, he, hn⟩
  · exact he

/-- The net after a pair was popped: its wires are about the pair or queued elsewhere. -/
theorem off_of_popFirst {m : Net} (hq : Queued m) {k : LOPath}
    {rest : OrdMap LOPath ActivePair} (hpop : m.frontier1.popFirst = some ((k, pair), rest))
    (hw : Wire { m with frontier1 := rest } i j) :
    Names pair i j ∨ ∃ e ∈ rest, e.1 ≠ pair.lo ∧ Names e.2 i j := by
  have hw' : Wire m i j := hw.carry (fun _ h => h) (fun _ => rfl) (fun _ _ h => h)
  obtain ⟨e, he, hn⟩ := hq.registered i j hw'
  have hkey : pair.lo = k := hq.keyed _ ((OrdMap.mem_of_popFirst hpop).mpr (.inl rfl))
  rcases (OrdMap.mem_of_popFirst hpop).mp he with rfl | he
  · exact .inl hn
  · refine .inr ⟨e, he, fun hek => ?_, hn⟩
    obtain ⟨k', pair'⟩ := e
    have : k' = k := hek.trans hkey
    exact OrdMap.not_key_of_popFirst hpop (this ▸ he)

section

variable {C : NetClass} {n n' : Net} {pair : ActivePair}

/-- The hypotheses on the net that the popped pair is fired in. -/
structure Popped (n : Net) (pair : ActivePair) : Prop where
  wf : n.arena.WF
  keyed : Keyed n
  apart : CandidatesApart n
  off : ∀ i j, Wire n i j → Names pair i j ∨ ∃ e ∈ n.frontier1, e.1 ≠ pair.lo ∧ Names e.2 i j

theorem Popped.of_popFirst {m : Net} (hq : Queued m) {k : LOPath} {rest : OrdMap LOPath ActivePair}
    (hpop : m.frontier1.popFirst = some ((k, pair), rest)) :
    Popped { m with frontier1 := rest } pair where
  wf := hq.wf
  keyed := fun e he => hq.keyed e ((OrdMap.mem_of_popFirst hpop).mpr (.inr he))
  apart := hq.apart
  off := fun _ _ hw => off_of_popFirst hq hpop hw

theorem Popped.off_check (h : Popped n pair) {p : PortId} (hp : p = pair.p0.1 ∨ p = pair.p1.1)
    (i j : Nat) (hw : Wire n i j) : i = p.slotIdx ∨ j = p.slotIdx ∨
      ∃ e ∈ n.frontier1, e.1 ≠ pair.lo ∧ Names e.2 i j := by
  rcases h.off i j hw with hn | he
  · rcases hn.mem hp with hi | hj
    · exact .inl hi
    · exact .inr (.inl hj)
  · exact .inr (.inr he)

/-- Two checks in a row. The first one hands its wire to the second replicator, which
the second check retires. -/
theorem queued_of_twice {plan : Net → PortId → Option Rewrite} (h : Popped n pair)
    (hc : Checks pair.lo plan) (h0 : pair.p0.1.isEraser = false) (h1 : pair.p1.1.isEraser = false)
    (hl0 : n.portLive pair.p0.1 = true) (hl1 : n.portLive pair.p1.1 = true)
    (hne : pair.p0.1.slotIdx ≠ pair.p1.1.slotIdx)
    (hface : n.Faces pair.p0.1.slotIdx pair.p1.1.slotIdx)
    (ht : Twice plan n pair.p0.1 pair.p1.1 n') : Queued n' := by
  obtain ⟨m, hs0, hs1, hdead⟩ := ht
  have hlive0 := ((portLive_iff h0).mp hl0).1
  have hlive1 := ((portLive_iff h1).mp hl1).1
  cases hs0 with
  | idle _ hm =>
    subst hm
    cases hs1 with
    | idle _ hn' =>
      rw [hn', hlive0, hlive1] at hdead
      simp at hdead
    | act hp hrun =>
      exact queued_of_check h.wf h.keyed h.apart hlive1 (hc _ _ _ hp) (h.off_check (.inr rfl)) hrun
  | @act rw hp hrun =>
    have hshape := hc _ _ _ hp
    have hq := queued_of_check h.wf h.keyed h.apart hlive0 hshape (h.off_check (.inl rfl)) hrun
    cases hs1 with
    | idle _ hn' => exact hn' ▸ hq
    | act hp' hrun' =>
      have hlive1' : m.arena.isLive pair.p1.1.slotIdx = true :=
        ((portLive_iff h1).mp ((CStep.act hp hrun).live (fun n p rw hp => ⟨(hc n p rw hp).retired,
          (hc n p rw hp).news⟩) h.wf hlive0 |>.1 _ hl1
          hne.symm)).1
      obtain ⟨is, ps, n1, n2, hran⟩ := Rewrite.run_ok h.wf hrun
      have hret := retiresLive_of_check hshape hlive0
      refine queued_of_check hq.wf hq.keyed hq.apart hlive1' (hc _ _ _ hp') (fun i j hw => ?_) hrun'
      rcases wires_of_check hran hret hshape (h.off_check (.inl rfl)) hw with
        he | ⟨-, a, b, hext, hjoin⟩
      · exact .inr (.inr he)
      · -- the new wire ends at the replicator that the first one faced
        have hcell : (n.slot pair.p0.1).principal.cell = (pair.p1.1.slotIdx, .principal) := hface.2
        obtain ⟨-, -, hj⟩ := hjoin
        rcases hext with rfl | rfl
        · rcases hj with ⟨ha, -⟩ | ⟨ha, -⟩
          · exact .inl (congrArg Prod.fst (ha.symm.trans hcell))
          · exact .inr (.inl (congrArg Prod.fst (ha.symm.trans hcell)))
        · rcases hj with ⟨-, hb⟩ | ⟨-, hb⟩
          · exact .inr (.inl (congrArg Prod.fst (hb.symm.trans hcell)))
          · exact .inl (congrArg Prod.fst (hb.symm.trans hcell))

theorem queued_of_outcome (h : Popped n pair) (hsafe : StepSafe C n pair)
    (hlive : n.isStalePair pair = false) (ho : Outcome C n pair n') : Queued n' := by
  obtain ⟨hl0, hl1⟩ := portLive_of_not_stale hlive
  cases ho with
  | @rule rw hidle hrw hrun =>
    obtain ⟨is, ps, n1, n2, hran⟩ := Rewrite.run_ok h.wf hrun
    have hret := retiresLive_of_shape hlive (hsafe.distinct hlive) (ruleRewrite_shape hrw)
    refine ⟨hran.wf hret, keyed_run hran h.keyed, candidatesApart_run hran h.apart, ?_⟩
    refine registered_of_rule hran hret hlive hsafe hidle hrw (fun i j hw => ?_)
    rcases h.off i j hw with hn | ⟨e, he, -, hn⟩
    · exact .inl hn
    · exact .inr ⟨e, he, hn⟩
  | @check plan p rw hplan hp he _ hrw hrun =>
    have hlp : n.arena.isLive p.slotIdx = true := by
      rcases hp with rfl | rfl
      · exact ((portLive_iff he).mp hl0).1
      · exact ((portLive_iff he).mp hl1).1
    exact queued_of_check h.wf h.keyed h.apart hlp
      (checks_of_plan (hplan.imp_right And.left) _ _ _ hrw) (h.off_check hp) hrun
  | twice hplan h0 h1 hr0 hr1 ht =>
    exact queued_of_twice h (checks_of_plan hplan) h0 h1 hl0 hl1 (hsafe.distinct hlive h0 h1)
      (hsafe.facing hlive hr0 hr1).1 ht

end

/-- One round of phase 1 on a safe pair keeps every wire queued. -/
theorem queued_round {C : NetClass} {st st' : Net × ReduceStats} (hq : Queued st.1)
    (hsafe : ∀ k pair rest, st.1.frontier1.popFirst = some ((k, pair), rest) →
      StepSafe C { st.1 with frontier1 := rest } pair)
    (h : phase1Round C st = .ok (.next st')) : Queued st'.1 := by
  unfold phase1Round at h
  split at h
  · cases h
  · next k pair rest hpop =>
    have hpopped := Popped.of_popFirst hq hpop
    have hs := hsafe k pair rest hpop
    dsimp only at h
    split at h
    · next hstale =>
      cases h
      refine ⟨hpopped.wf, hpopped.keyed, hpopped.apart, fun i j hw => ?_⟩
      rcases hpopped.off i j hw with hn | ⟨e, he, -, hn⟩
      · exact absurd hn (hs.stale hstale i j hw)
      · exact ⟨e, he, hn⟩
    · next hstale =>
      have hlive := Bool.eq_false_iff.mpr hstale
      obtain ⟨st'', hd, h⟩ := bind_eq_ok.mp h
      cases h
      exact queued_of_outcome hpopped hs hlive
        (dispatch_fires hpopped.wf hlive (hs.distinct hlive) hd).outcome

end Net

end Dnet
