import Dnet.Reduce.Rewrite

/-!
# Merged replicators and commutation

C2 merges an unpaired replicator `A` that has one auxiliary port erased into the replicator `B`
behind the other one. A replicator that commutes (R7) through `A` and then through `B` gets `A`'s
delta and then `B`'s; through the merged one it gets `B`'s delta shifted by the difference of the
levels. The gate lets any difference up to `A`'s delta pass, and the levels agree only when the
two are equal (`merge_commutes_iff`, `merge_loses_levels`).
-/

namespace Dnet

open Lib

/-- The delta of an auxiliary port. -/
def Slot.delta (s : Slot) : PortKind → Int
  | .principal => 0
  | .aux0 => s.delta0
  | .aux1 => s.delta1

def Slot.auxErased (s : Slot) : PortKind → Bool
  | .principal => false
  | .aux0 => s.aux0Erased
  | .aux1 => s.aux1Erased

/-- The level of the copy that R7 wires to an auxiliary port of the lower replicator. -/
def Rewrite.copyLevel (rw : Rewrite) : PortKind → Option Nat
  | .principal => none
  | .aux0 => rw.news[0]?.map (·.2.1)
  | .aux1 => rw.news[1]?.map (·.2.1)

/-! ## What C2 finds -/

/-- C2 merges the replicator `A` at `pA` into the one behind its port `i`. -/
structure Merges (n : Net) (pA : PortId) (i : PortKind) (m : C2Merge) : Prop where
  gate : c2GateAndShift (n.slot pA) n.slot = .ok (some m)
  aux : i ≠ .principal
  kept : (n.slot pA).auxErased i = false

theorem Merges.spec {n : Net} {pA : PortId} {i : PortKind} {m : C2Merge} (h : Merges n pA i m) :
    ((n.slot m.repB).data : Int) - (n.slot pA).data ≤ (n.slot pA).delta i ∧
      m.bShifted.data = (n.slot pA).data ∧ ∀ j, j ≠ .principal → m.bShifted.delta j =
        (n.slot m.repB).delta j + (((n.slot m.repB).data : Int) - (n.slot pA).data) := by
  obtain ⟨hgate, haux, hkept⟩ := h
  -- the scan stops at the port whose other side is erased, and that is `i`
  rcases Net.c2GateAndShift_some hgate with hgate | hgate <;>
  · obtain ⟨he, hdiff, rfl⟩ := Net.c2GateAt_some hgate
    cases i <;> simp [Slot.auxErased, he] at haux hkept
    refine ⟨hdiff, rfl, fun j hj => ?_⟩
    cases j <;> first | rfl | exact absurd rfl hj

/-! ## What R7 copies -/

theorem addLevel_ok {level l : Nat} {d : Int} (h : Net.addLevel level d = .ok l) :
    (l : Int) = level + d := by
  unfold Net.addLevel at h
  dsimp only at h
  split at h
  · next hv =>
    cases h
    exact Int.toNat_of_nonneg hv.1
  · cases h

/-- The replicator of the greater level is copied, at its level plus the other one's deltas. -/
theorem r7Rewrite_copyLevel {n : Net} {p0 p1 : PortId} {lo : LOPath} {rw : Rewrite}
    (h : n.r7Rewrite p0 p1 lo = .ok rw) (hlt : (n.slot p1).data < (n.slot p0).data) {j : PortKind}
    (hj : j ≠ .principal) :
    ∃ l : Nat, rw.copyLevel j = some l ∧ (l : Int) = (n.slot p0).data + (n.slot p1).delta j := by
  have hhi : n.hiLo p0 p1 = (p0, p1) := if_pos (by simp [Net.labelGt, Slot.label, hlt])
  obtain ⟨a, b, lv0, lv1, _, _, _, _, hab, h0, h1, -, rfl⟩ := Net.r7Rewrite_eq_ok h
  cases hhi.symm.trans hab
  cases j with
  | principal => exact absurd rfl hj
  | aux0 => exact ⟨lv0, rfl, addLevel_ok h0⟩
  | aux1 => exact ⟨lv1, rfl, addLevel_ok h1⟩

/-! ## One commutation against two -/

section

variable {n n' : Net} {pA pK : PortId} {i : PortKind} {m : C2Merge} {lo : LOPath}

/-- After the merge `B` has the shifted label, and every other slot has its own. -/
theorem label_c2RepMerge (h : Merges n pA i m) (hrun : n.c2RepMerge pA lo = .ok n') (p : PortId) :
    (n'.slot p).label =
      if p.slotIdx = m.repB.slotIdx then m.bShifted.label else (n.slot p).label := by
  obtain ⟨m', hgate, hrun⟩ := bind_eq_ok.mp hrun
  rw [h.gate] at hgate
  cases hgate
  cases hrun
  have hbody (q r : PortId) (k : Net) :
      (((k.retire pA.slotIdx).connect q r lo).slot p).label = (k.slot p).label := by
    show (((k.retire pA.slotIdx).connect q r lo).bodyAt p.slotIdx).label = (k.bodyAt p.slotIdx).label
    rw [Net.bodyAt_connect, Net.bodyAt_retire]
  rw [hbody, Net.slot, Net.slots_modifySlot]
  split <;> rfl

theorem delta_of_label {s t : Slot} (h : s.label = t.label) (j : PortKind) :
    s.data = t.data ∧ s.delta j = t.delta j := by
  obtain ⟨hdata, hdeltas⟩ := Prod.mk.inj h
  obtain ⟨h0, h1⟩ := Prod.mk.inj hdeltas
  refine ⟨hdata, ?_⟩
  cases j with
  | principal => rfl
  | aux0 => exact h0
  | aux1 => exact h1

/-- `K`, of a level above `A`'s, commutes through `A`, and its copy at port `i`, which is now at
`q`, through `B`. That gives port `j` of `B` the level that commuting once through the merged
replicator gives it exactly when the levels of `A` and `B` differ by the delta of port `i`. -/
theorem merge_commutes_iff {n₁ : Net} {q : PortId} {rw₁ rw₂ rw₃ : Rewrite} {lo₁ lo₂ lo₃ : LOPath}
    {j : PortKind} (hm : Merges n pA i m) (hk : (n.slot pA).data < (n.slot pK).data)
    (h₁ : n.r7Rewrite pK pA lo₁ = .ok rw₁) (hq : rw₁.copyLevel i = some (n₁.slot q).data)
    (hb : (n₁.slot m.repB).label = (n.slot m.repB).label)
    (h₂ : n₁.r7Rewrite q m.repB lo₂ = .ok rw₂) (hmerge : n.c2RepMerge pA lo = .ok n')
    (hapart : pK.slotIdx ≠ m.repB.slotIdx) (h₃ : n'.r7Rewrite pK m.repB lo₃ = .ok rw₃)
    (hj : j ≠ .principal) : rw₂.copyLevel j = rw₃.copyLevel j ↔
      ((n.slot m.repB).data : Int) - (n.slot pA).data = (n.slot pA).delta i := by
  obtain ⟨hgate, hlevel, hdelta⟩ := hm.spec
  have hK : (n'.slot pK).label = (n.slot pK).label := by
    rw [label_c2RepMerge hm hmerge, if_neg hapart]
  have hB : (n'.slot m.repB).label = m.bShifted.label := by
    rw [label_c2RepMerge hm hmerge, if_pos rfl]
  obtain ⟨l₁, hl₁, hl₁'⟩ := r7Rewrite_copyLevel h₁ hk hm.aux
  rw [hq] at hl₁
  cases hl₁
  obtain ⟨hbdata, hbdelta⟩ := delta_of_label hb j
  -- the copy is above `B`, since the gate bounds the difference of the levels by the delta
  obtain ⟨l₂, hl₂, hl₂'⟩ := r7Rewrite_copyLevel h₂ (by omega) hj
  obtain ⟨hKdata, -⟩ := delta_of_label hK j
  obtain ⟨hBdata, hBdelta⟩ := delta_of_label hB j
  obtain ⟨l₃, hl₃, hl₃'⟩ := r7Rewrite_copyLevel h₃ (by omega) hj
  rw [hl₂, hl₃, Option.some_inj]
  rw [hbdelta] at hl₂'
  rw [hKdata, hBdelta, hdelta j hj] at hl₃'
  omega

end

/-! ## A replicator in front of two -/

/-- A replicator of level 2 before `A`, of level 1 and with the given delta, before `B`, of
level 4. -/
def twoBehind (delta : Int) : Except Abort (PortId × PortId × Net) := do
  let (k, n) ← (Net.new 16).allocRepIn true 2 0 0
  let (a, n) ← n.allocRepIn true 1 delta 0
  let (b, n) ← n.allocRepIn true 4 0 0
  let n := n.connect a.aux0 b.principal .root
  let n := n.setEraserOnPort a.aux1
  return (k.principal, a.principal, n.connect k.principal a.principal .root)

/-- Commuting through `A` and `B` gives port `aux0` of `B` the level `twice`, commuting through
the merged replicator the level `once`. -/
structure Ways (n : Net) (pK pA : PortId) (m : C2Merge) (rw₁ rw₂ rw₃ : Rewrite) (n₁ n' : Net)
    (twice once : Nat) : Prop where
  gate : c2GateAndShift (n.slot pA) n.slot = .ok (some m)
  first : n.r7Rewrite pK pA .root = .ok rw₁
  ran : rw₁.run n = .ok n₁
  second : n₁.r7Rewrite (n₁.peer m.repB) m.repB .root = .ok rw₂
  merged : n.c2RepMerge pA .root = .ok n'
  third : n'.r7Rewrite pK m.repB .root = .ok rw₃
  above : (n.slot pA).data < (n.slot pK).data
  kept : (n.slot pA).auxErased .aux0 = false
  copy : rw₁.copyLevel .aux0 = some (n₁.slot (n₁.peer m.repB)).data
  same : (n₁.slot m.repB).label = (n.slot m.repB).label
  apart : pK.slotIdx ≠ m.repB.slotIdx
  levels : rw₂.copyLevel .aux0 = some twice ∧ rw₃.copyLevel .aux0 = some once

/-- Compute both ways. -/
def waysCheck (delta : Int) (twice once : Nat) : Bool :=
  returns (fun (pK, pA, n) => returns (fun m =>
    m.elim false fun m => returns (fun rw₁ => returns (fun n₁ => returns (fun rw₂ =>
      returns (fun n' => returns (fun rw₃ =>
        decide ((n.slot pA).data < (n.slot pK).data) && !(n.slot pA).auxErased .aux0 &&
          rw₁.copyLevel .aux0 == some (n₁.slot (n₁.peer m.repB)).data &&
          (n₁.slot m.repB).label == (n.slot m.repB).label && pK.slotIdx != m.repB.slotIdx &&
          (rw₂.copyLevel .aux0 == some twice && rw₃.copyLevel .aux0 == some once))
        (some (n'.r7Rewrite pK m.repB .root)))
        (some (n.c2RepMerge pA .root)))
        (some (n₁.r7Rewrite (n₁.peer m.repB) m.repB .root)))
        (some (rw₁.run n)))
      (some (n.r7Rewrite pK pA .root)))
    (some (c2GateAndShift (n.slot pA) n.slot)))
    (some (twoBehind delta))

theorem ways_of_check {delta : Int} {twice once : Nat} (h : waysCheck delta twice once = true) :
    ∃ n pK pA m rw₁ rw₂ rw₃ n₁ n', Ways n pK pA m rw₁ rw₂ rw₃ n₁ n' twice once := by
  obtain ⟨⟨pK, pA, n⟩, -, h⟩ := exists_of_returns h
  obtain ⟨m, hm, h⟩ := exists_of_returns h
  cases m with
  | none => cases h
  | some m =>
    obtain ⟨rw₁, h₁, h⟩ := exists_of_returns h
    obtain ⟨n₁, hn1, h⟩ := exists_of_returns h
    obtain ⟨rw₂, h₂, h⟩ := exists_of_returns h
    obtain ⟨n', hn', h⟩ := exists_of_returns h
    obtain ⟨rw₃, h₃, h⟩ := exists_of_returns h
    simp only [Bool.and_eq_true, decide_eq_true_eq, beq_iff_eq, bne_iff_ne, Bool.not_eq_true'] at h
    obtain ⟨⟨⟨⟨⟨habove, hkept⟩, hcopy⟩, hsame⟩, hapart⟩, hlevels⟩ := h
    exact ⟨n, pK, pA, m, rw₁, rw₂, rw₃, n₁, n', Option.some.inj hm, Option.some.inj h₁,
      Option.some.inj hn1, Option.some.inj h₂, Option.some.inj hn', Option.some.inj h₃, habove,
      hkept, hcopy, hsame, hapart, hlevels⟩

/-- The delta is the difference of the levels: both ways give level 5. -/
theorem merge_commutes_at_three : ∃ n pK pA m rw₁ rw₂ rw₃ n₁ n',
    Ways n pK pA m rw₁ rw₂ rw₃ n₁ n' 5 5 ∧
      ((n.slot m.repB).data : Int) - (n.slot pA).data = (n.slot pA).delta .aux0 := by
  obtain ⟨n, pK, pA, m, rw₁, rw₂, rw₃, n₁, n', h⟩ :=
    ways_of_check (show waysCheck 3 5 5 = true by decide +kernel)
  exact ⟨n, pK, pA, m, rw₁, rw₂, rw₃, n₁, n', h, (merge_commutes_iff ⟨h.gate, by decide, h.kept⟩
    h.above h.first h.copy h.same h.second h.merged h.apart h.third (by decide)).mp
      (h.levels.1.trans h.levels.2.symm)⟩

/-- A delta of 5, that the gate accepts: level 7 through `A` and `B`, and level 5 through the
merged replicator. -/
theorem merge_loses_levels : ∃ n pK pA m rw₁ rw₂ rw₃ n₁ n',
    Ways n pK pA m rw₁ rw₂ rw₃ n₁ n' 7 5 ∧ rw₂.copyLevel .aux0 ≠ rw₃.copyLevel .aux0 := by
  obtain ⟨n, pK, pA, m, rw₁, rw₂, rw₃, n₁, n', h⟩ :=
    ways_of_check (show waysCheck 5 7 5 = true by decide +kernel)
  refine ⟨n, pK, pA, m, rw₁, rw₂, rw₃, n₁, n', h, ?_⟩
  rw [h.levels.1, h.levels.2]
  decide

end Dnet
