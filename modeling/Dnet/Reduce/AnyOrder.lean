import Dnet.Front.LinearElab

/-!
# The order of β-interactions

Whatever pairs of fans fire, in whatever order, the net of a linear term stops after the
same number of firings, and the nets that are left are isomorphic (`r4_any_order`). The
diamond of linear diagrams carries the argument; the nets simulate the diagrams.
-/

namespace Dnet

open Lib Lib.Tree

namespace Net

/-- The port `q` is the image of the port `p` when slots are renamed by `φ`; the sentinels
are their own images. -/
def ImagePort (φ : Nat → Nat) (p q : PortId) : Prop :=
  (p.isReal = false ∧ q = p) ∨ (p.isReal = true ∧ q.isReal = true ∧ q.cell = (φ p.slotIdx, p.portKind))

/-- The live slots of `n` and `n'` correspond by `φ`: kinds, labels, ports and named roots. -/
structure Iso (φ : Nat → Nat) (n n' : Net) : Prop where
  live : ∀ s, n.arena.isLive s = true → n'.arena.isLive (φ s) = true
  inj : ∀ s s', n.arena.isLive s = true → n.arena.isLive s' = true → φ s = φ s' → s = s'
  surj : ∀ s', n'.arena.isLive s' = true → ∃ s, n.arena.isLive s = true ∧ φ s = s'
  kind : ∀ s, n.arena.isLive s = true → (n'.arena.slots (φ s)).kind = (n.arena.slots s).kind
  label : ∀ s, n.arena.isLive s = true → (n'.arena.slots (φ s)).label = (n.arena.slots s).label
  ports : ∀ s k, n.arena.isLive s = true → ImagePort φ (n.portAt (s, k)) (n'.portAt (φ s, k))
  roots : List.Forall₂ (fun e e' => e'.1 = e.1 ∧ ImagePort φ e.2 e'.2) n.freeSlots n'.freeSlots

section

variable {n n' m : Net} {r : PortId} {d : Diagram Nat}

theorem ImagePort.refl (p : PortId) : ImagePort id p p := by
  cases hr : p.isReal with
  | false => exact .inl ⟨hr, rfl⟩
  | true => exact .inr ⟨hr, hr, rfl⟩

theorem chain_frame {k : Nat} (h : Lib.Chain R4Fires k n m) :
    (∀ s, m.bodyAt s = n.bodyAt s) ∧ m.freeSlots = n.freeSlots := by
  induction h with
  | nil => exact ⟨fun _ => rfl, rfl⟩
  | cons hstep _ ih =>
    obtain ⟨p0, p1, lo, -, hr4⟩ := hstep
    obtain ⟨hbody, hroots⟩ := r4FanFan_frame hr4
    exact ⟨fun s => (ih.1 s).trans (hbody s), ih.2.trans hroots⟩

theorem Draws.live_iff (h : n.Draws r d) {s : Nat} : n.arena.isLive s = true ↔
    .lamOut s ∈ d.tree.pins ∨ .appOut s ∈ d.tree.pins ∨ (r.isReal = true ∧ s = r.slotIdx) := by
  refine ⟨h.live s, ?_⟩
  rintro (hs | hs | ⟨hr, rfl⟩)
  · exact (h.abs s hs).1
  · exact (h.app s hs).1
  · rcases h.root with rfl | hroot
    · cases hr
    · exact hroot.live

/-- Each pin holds what its wire says. -/
theorem Draws.portAt_pin {p : Pin Nat} (h : n.Draws r d) (h' : n'.Draws r d)
    (hbody : ∀ s, n'.bodyAt s = n.bodyAt s) (hp : p ∈ d.tree.pins) :
    n'.portAt (pinCell p) = n.portAt (pinCell p) := by
  have hplace := place_congr hbody r
  by_cases htop : p.IsTop
  · obtain ⟨c, hw⟩ := exists_wire_to (p := .root) id hp htop
    rw [h.holds_to hw, h'.holds_to hw, hplace]
  · obtain ⟨b, hw⟩ := exists_wire_from (p := .root) id (List.mem_cons_of_mem _ hp) htop
    have hne : p ≠ .root := fun he => root_not_mem_pins _ (he ▸ hp)
    rw [h.holds_from hw hne, h'.holds_from hw hne, hplace]

theorem Draws.portAt_eq (h : n.Draws r d) (h' : n'.Draws r d)
    (hbody : ∀ s, n'.bodyAt s = n.bodyAt s) {s : Nat} (hs : n.arena.isLive s = true)
    (k : PortKind) : n'.portAt (s, k) = n.portAt (s, k) := by
  rcases h.live s hs with hs | hs | ⟨hr, rfl⟩
  · cases k with
    | principal => exact h.portAt_pin h' hbody hs
    | aux0 => exact h.portAt_pin h' hbody (((mem_pins _).2 _).1.mpr hs)
    | aux1 => exact h.portAt_pin h' hbody (lamVar_mem_pins d.uses hs)
  · cases k with
    | principal => exact h.portAt_pin h' hbody (((mem_pins _).2 _).2.1.mpr hs)
    | aux0 => exact h.portAt_pin h' hbody hs
    | aux1 => exact h.portAt_pin h' hbody (((mem_pins _).2 _).2.2.mpr hs)
  · rcases h.root with rfl | hroot
    · cases hr
    rcases h'.root with rfl | hroot'
    · cases hr
    by_cases hk : k = .principal
    · subst hk
      have hcell : r.cell = (r.slotIdx, .principal) := congrArg PortId.cell hroot.port
      have hw : (.root, d.tree.top) ∈ d.tree.wiresAt .root := List.mem_cons_self
      have h1 := (h.wires _ hw).1 hr
      have h2 := (h'.wires _ hw).1 hr
      rw [place_congr hbody r] at h2
      rw [← hcell]
      exact h2.trans h1.symm
    · rw [hroot.bare k hk, hroot'.bare k hk]

theorem Draws.iso (h : n.Draws r d) (h' : n'.Draws r d) (hbody : ∀ s, n'.bodyAt s = n.bodyAt s)
    (hroots : n'.freeSlots = n.freeSlots) : Iso id n n' where
  live s hs := h'.live_iff.mpr (h.live_iff.mp hs)
  inj _ _ _ _ he := he
  surj s hs := ⟨s, h.live_iff.mpr (h'.live_iff.mp hs), rfl⟩
  kind s _ := congrArg Body.kind (hbody s)
  label s _ := congrArg Body.label (hbody s)
  ports s k hs := by
    rw [show n'.portAt (id s, k) = n.portAt (s, k) from h.portAt_eq h' hbody hs k]
    exact .refl _
  roots := by
    rw [hroots]
    exact List.forall₂_same.mpr fun e _ => ⟨rfl, .refl _⟩

end

end Net

/-- For every closed linear term, the sequences of R4 firings on its net are bounded, some
sequence cannot go on, and two such have the same length and end in isomorphic nets. The net may have
its result wired to a root. -/
theorem r4_any_order {V F : Type} {t : Ast V F} (ht : t.Pure) {usage : Pass1Result}
    (hlin : pass1 t = .ok usage) {debug : Bool} {capacity : Nat} {p : PortId} {n₀ n : Net}
    (hel : elaborate debug capacity t usage.usageLevels = .ok (p, n₀))
    (hroot : n = n₀ ∨ ∃ name, wireRoot name p n₀ = .ok n) :
    (∃ bound, ∀ k n', Lib.Chain Net.R4Fires k n n' → k ≤ bound) ∧
      (∃ k n', Lib.Chain Net.R4Fires k n n' ∧ Final Net.R4Fires n') ∧
      ∀ {k m : Nat} {n₁ n₂ : Net}, Lib.Chain Net.R4Fires k n n₁ → Lib.Chain Net.R4Fires m n n₂ →
        Final Net.R4Fires n₁ → Final Net.R4Fires n₂ → k = m ∧ ∃ φ, Net.Iso φ n₁ n₂ := by
  obtain ⟨d, -, hnull, hrooted⟩ := elaborate_draws (ht.linear hlin) hel
  obtain ⟨r, hdraws⟩ : ∃ r, n.Draws r d := by
    rcases hroot with rfl | ⟨name, hroot⟩
    · exact ⟨.null, hnull⟩
    · exact hrooted hroot
  have hsim := Net.draws_simulates r
  refine ⟨⟨d.size, fun k n' hk => ?_⟩, ?_, fun h₁ h₂ hf₁ hf₂ => ?_⟩
  · obtain ⟨d', hchain, -⟩ := hsim.chain hdraws hk
    exact hchain.length_le fun _ _ hstep => hstep.size_lt
  · exact hsim.exists_final (fun _ _ hstep => hstep.size_lt) hdraws
  · obtain ⟨rfl, d', hd₁, hd₂⟩ := hsim.chains (fun _ _ hstep => hstep.size_lt) Diagram.diamond
      hdraws h₁ h₂ hf₁ hf₂
    obtain ⟨hbody₁, hroots₁⟩ := Net.chain_frame h₁
    obtain ⟨hbody₂, hroots₂⟩ := Net.chain_frame h₂
    exact ⟨rfl, id, hd₁.iso hd₂ (fun s => (hbody₂ s).trans (hbody₁ s).symm)
      (hroots₂.trans hroots₁.symm)⟩

/-- `(f: f) ((g: g) (z: z))`: after either redex has fired the other is left. -/
def nestedIdentities : Ast Unit Unit :=
  .app (.abs "f" (.name "f")) (.app (.abs "g" (.name "g")) (.abs "z" (.name "z")))

theorem nestedIdentities_any_order : ∃ usage p n₀ n, pass1 nestedIdentities = .ok usage ∧
    elaborate false 16 nestedIdentities usage.usageLevels = .ok (p, n₀) ∧ wireRoot "r" p n₀ = .ok n ∧
    (∃ k n₁, Lib.Chain Net.R4Fires k n n₁ ∧ Final Net.R4Fires n₁) ∧
    ∀ {k m : Nat} {n₁ n₂ : Net}, Lib.Chain Net.R4Fires k n n₁ → Lib.Chain Net.R4Fires m n n₂ →
      Final Net.R4Fires n₁ → Final Net.R4Fires n₂ → k = m ∧ ∃ φ, Net.Iso φ n₁ n₂ := by
  have hpure : nestedIdentities.Pure :=
    .app (.abs _ (.name _)) (.app (.abs _ (.name _)) (.abs _ (.name _)))
  have hrun : returns (fun r1 : Pass1Result => returns (fun a : PortId × Net =>
      returns (fun _ => true) (some (wireRoot "r" a.1 a.2)))
        (some (elaborate false 16 nestedIdentities r1.usageLevels)))
          (some (pass1 nestedIdentities)) = true := by
    decide +kernel
  obtain ⟨usage, hlin, hrun⟩ := exists_ok_of_returns hrun
  obtain ⟨⟨p, n₀⟩, hel, hrun⟩ := exists_ok_of_returns hrun
  obtain ⟨n, hroot, -⟩ := exists_ok_of_returns hrun
  exact ⟨usage, p, n₀, n, hlin, hel, hroot, (r4_any_order hpure hlin hel (.inr ⟨"r", hroot⟩)).2⟩

end Dnet
