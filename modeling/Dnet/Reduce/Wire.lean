import Dnet.Reduce.Kinds

/-!
# Wires between principal ports, and the queue

A redex of a net is a wire between the principal ports of two live fans or replicators
(`Wire`). The reducer never looks for one: it relies on the queue. This module says
which wires a rewrite makes (`wire_run`) and which entries it queues (`mem_run_of_mem`,
`mem_run_of_queues`, `keyed_run`).
-/

namespace Dnet

open Lib List

namespace Net

/-- The principal port of slot `i` holds the principal port of slot `j`. -/
def Faces (n : Net) (i j : Nat) : Prop :=
  (n.portAt (i, .principal)).isReal = true ∧ (n.portAt (i, .principal)).cell = (j, .principal)

/-- The principal ports of two live fans or replicators hold each other. -/
structure Wire (n : Net) (i j : Nat) : Prop where
  ne : i ≠ j
  live_left : n.arena.isLive i = true
  live_right : n.arena.isLive j = true
  agent_left : (n.arena.slots i).kind.structural = true
  agent_right : (n.arena.slots j).kind.structural = true
  there : n.Faces i j
  back : n.Faces j i

/-- Connecting `a` and `b` makes the principal ports of `i` and `j` hold each other. -/
def Joins (a b : PortId) (i j : Nat) : Prop :=
  a.isReal = true ∧ b.isReal = true ∧ ((a.cell = (i, .principal) ∧ b.cell = (j, .principal)) ∨
      (a.cell = (j, .principal) ∧ b.cell = (i, .principal)))

section

variable {i j : Nat} {n n' : Net} {is : List Nat} {ps : List AgentPorts}
  {news : List (AgentKind × Nat × Int × Int)}

theorem Joins.isPair {a b : PortId} (h : Joins a b i j) : IsPair a b := by
  obtain ⟨ha, hb, h⟩ := h
  have hna := (PortId.isReal_iff.mp ha).2
  have hnb := (PortId.isReal_iff.mp hb).2
  rcases h with ⟨hi, hj⟩ | ⟨hi, hj⟩
  · exact ⟨congrArg Prod.snd hi, congrArg Prod.snd hj, hna, hnb⟩
  · exact ⟨congrArg Prod.snd hi, congrArg Prod.snd hj, hna, hnb⟩

/-- A wire of `n'` is one of `n` if liveness, kinds and principal ports carry back. -/
theorem Wire.carry (h : Wire n' i j) (hl : ∀ k, n'.arena.isLive k = true → n.arena.isLive k = true)
    (hk : ∀ k, (n'.bodyAt k).kind = (n.bodyAt k).kind) (hf : ∀ k l, n'.Faces k l → n.Faces k l) :
    Wire n i j where
  ne := h.ne
  live_left := hl i h.live_left
  live_right := hl j h.live_right
  agent_left := by
    rw [← show (n'.arena.slots i).kind = (n.arena.slots i).kind from hk i]
    exact h.agent_left
  agent_right := by
    rw [← show (n'.arena.slots j).kind = (n.arena.slots j).kind from hk j]
    exact h.agent_right
  there := hf i j h.there
  back := hf j i h.back

/-! ## Wires after each operation -/

theorem faces_setEraserOnPort {p : PortId} (h : (n.setEraserOnPort p).Faces i j) : n.Faces i j := by
  unfold Faces at h ⊢
  rw [portAt_setEraserOnPort] at h
  split at h
  · cases h.1
  · exact h

theorem wire_setErasers : ∀ {ps : List PortId} {n : Net},
    Wire (ps.foldl setEraserOnPort n) i j → Wire n i j
  | [], _, h => h
  | p :: ps, n, h => by
    have hw : Wire (n.setEraserOnPort p) i j := wire_setErasers (n := n.setEraserOnPort p) h
    exact hw.carry (fun k hk => by rwa [isLive_setEraserOnPort] at hk)
      (fun k => by rw [bodyAt_setEraserOnPort]) (fun _ _ => faces_setEraserOnPort)

theorem portAt_relabelSlot (n : Net) (r : Option (Nat × Nat × Int × Int)) (c : Nat × PortKind) :
    (n.relabelSlot r).portAt c = n.portAt c := by
  cases r with
  | none => rfl
  | some r =>
    obtain ⟨k, data, d0, d1⟩ := r
    simp only [relabelSlot, portAt, slots_modifySlot]
    split
    · next h =>
      rw [h]
      cases c.2 <;> rfl
    · rfl

theorem wire_relabelSlot {r : Option (Nat × Nat × Int × Int)} (h : Wire (n.relabelSlot r) i j) :
    Wire n i j := by
  refine h.carry (fun k hk => by rwa [isLive_relabelSlot] at hk)
    (fun k => (bodyAt_relabelSlot n r k).1) (fun k l hf => ?_)
  unfold Faces at hf ⊢
  rwa [portAt_relabelSlot] at hf

theorem AllocAll.slot_of_mem
    (ha : n.AllocAll news is ps n') {k : Nat} (hk : k ∈ is) : ∃ spec ∈ news, ∃ g, n'.arena.slots k =
      { Slot.empty with
        kind := spec.1, generation := g, data := spec.2.1, delta0 := spec.2.2.1
        delta1 := spec.2.2.2 } := by
  have h := ha.slot_new
  clear ha
  induction h with
  | nil => cases hk
  | @cons i spec is news hs _ ih =>
    rcases mem_cons.mp hk with rfl | hk
    · exact ⟨spec, mem_cons_self, hs⟩
    · obtain ⟨spec', hmem, hs'⟩ := ih hk
      exact ⟨spec', mem_cons_of_mem _ hmem, hs'⟩

/-- A wire joins two slots with a port that faces another agent: it was there before if those
slots were. -/
theorem wire_of_faces (hold : ∀ k l, n'.Faces k l → n'.arena.slots k = n.arena.slots k ∧
    n'.arena.isLive k = n.arena.isLive k) (h : Wire n' i j) : Wire n i j := by
  obtain ⟨hsi, hli⟩ := hold i j h.there
  obtain ⟨hsj, hlj⟩ := hold j i h.back
  refine ⟨h.ne, hli ▸ h.live_left, hlj ▸ h.live_right, hsi ▸ h.agent_left, hsj ▸ h.agent_right,
    ?_, ?_⟩
  · simpa only [Faces, portAt, hsi] using h.there
  · simpa only [Faces, portAt, hsj] using h.back

theorem wire_allocAll (ha : n.AllocAll news is ps n') (h : Wire n' i j) : Wire n i j := by
  refine wire_of_faces (fun k l hf => ?_) h
  by_cases hk : k ∈ is
  · obtain ⟨spec, -, g, hs⟩ := ha.slot_of_mem hk
    rw [Faces, portAt, hs] at hf
    cases hf.1
  · exact ⟨ha.slot_old k hk, by simp [ha.isLive, hk]⟩

/-- Linking two ports makes one new wire at most, between those two. -/
theorem wire_linkNoPair {a b : PortId} (h : Wire (n.linkNoPair a b) i j) :
    Wire n i j ∨ Joins a b i j := by
  -- a principal port that the link wrote shows both of its ends
  have hnew {k l : Nat} (hf : (n.linkNoPair a b).Faces k l) : n.Faces k l ∨ Joins a b k l := by
    unfold Faces at hf ⊢
    rw [portAt_linkNoPair] at hf
    split at hf
    · next hb => exact .inr ⟨hf.1, hb.1, .inr ⟨hf.2, hb.2.symm⟩⟩
    · split at hf
      · next ha => exact .inr ⟨ha.1, hf.1, .inl ⟨ha.2.symm, hf.2⟩⟩
      · exact .inl hf
  rcases hnew h.there with hf | hj
  · rcases hnew h.back with hb | hj
    · refine .inl ⟨h.ne, ?_, ?_, ?_, ?_, hf, hb⟩
      · simpa using h.live_left
      · simpa using h.live_right
      · have := h.agent_left
        rwa [show ((n.linkNoPair a b).arena.slots i).kind = (n.arena.slots i).kind from
          congrArg Body.kind (bodyAt_linkNoPair n a b i)] at this
      · have := h.agent_right
        rwa [show ((n.linkNoPair a b).arena.slots j).kind = (n.arena.slots j).kind from
          congrArg Body.kind (bodyAt_linkNoPair n a b j)] at this
    · exact .inr ⟨hj.1, hj.2.1, hj.2.2.symm⟩
  · exact .inr hj

theorem wire_link {l : Link} (h : Wire (n.link ps l) i j) :
    Wire n i j ∨ Joins (l.a.port ps) (l.b.port ps) i j := by
  unfold link at h
  split at h
  · exact wire_linkNoPair h
  · refine wire_linkNoPair (h.carry (fun k hk => ?_) (fun k => ?_) (fun k l hf => ?_))
    · simpa using hk
    · rw [bodyAt_connect, bodyAt_linkNoPair]
    · unfold Faces at hf ⊢
      rwa [portAt_connect, ← portAt_linkNoPair] at hf

theorem wire_links : ∀ {ls : List Link} {n : Net}, Wire (ls.foldl (fun n l => n.link ps l) n) i j →
      Wire n i j ∨ ∃ l ∈ ls, Joins (l.a.port ps) (l.b.port ps) i j
  | [], _, h => .inl h
  | l :: ls, n, h => by
    rcases wire_links (n := n.link ps l) h with hw | ⟨l', hl', hj⟩
    · rcases wire_link hw with hw | hj
      · exact .inl hw
      · exact .inr ⟨l, mem_cons_self, hj⟩
    · exact .inr ⟨l', mem_cons_of_mem _ hl', hj⟩

/-- The wires after a rewrite: old ones between slots it did not retire, and those its
links make. -/
theorem wire_run {rw : Rewrite} {n1 n2 : Net} (hran : rw.Ran n is ps n1 n2 n')
    (hr : rw.RetiresLive n) (h : Wire n' i j) : (Wire n i j ∧ i ∉ rw.retired ∧ j ∉ rw.retired) ∨
      ∃ l ∈ rw.links, Joins (l.a.port ps) (l.b.port ps) i j := by
  have hi := h.live_left
  have hj := h.live_right
  rw [hran.isLive hr, Bool.and_eq_true, decide_eq_true_iff] at hi hj
  rw [hran.link] at h
  rcases wire_links h with hw | hl
  · refine .inl ⟨?_, hi.2, hj.2⟩
    have hw2 : Wire n2 i j := by
      refine hw.carry (fun k hk => ?_) (fun k => by rw [bodyAt_retireAll]) (fun k l hf => ?_)
      · rw [(retireAll_wf hran.alloc.wf hr.1 (fun _ hi => hran.retired_live hr hi)).2] at hk
        exact (Bool.and_eq_true _ _ ▸ hk).1
      · simpa only [Faces, portAt, slots_retireAll] using hf
    have hw1 := wire_allocAll hran.alloc hw2
    rw [hran.erase] at hw1
    exact wire_setErasers (wire_relabelSlot hw1)
  · exact .inr hl

end

end Net

/-! ## The queue after each operation -/

/-- The link is queued under the key `k`. -/
def Link.Queues (ps : List AgentPorts) (l : Link) (k : LOPath) : Prop :=
  l.lo = some k ∧ Net.IsPair (l.a.port ps) (l.b.port ps)

namespace Net

/-- Every entry carries its own key. -/
def Keyed (n : Net) : Prop := ∀ e ∈ n.frontier1, e.2.lo = e.1

variable {ps : List AgentPorts} {e : LOPath × ActivePair}

theorem mem_frontier1_link {n : Net} {l : Link} : e ∈ (n.link ps l).frontier1 ↔
      (∃ k, ∃ h : l.Queues ps k, e = (k, ⟨⟨_, h.2.1⟩, ⟨_, h.2.2.1⟩, k⟩)) ∨
        (e ∈ n.frontier1 ∧ ∀ k, l.Queues ps k → e.1 ≠ k) := by
  obtain ⟨a, b, lo⟩ := l
  cases lo with
  | none =>
    have hno (k : LOPath) : ¬Link.Queues ps ⟨a, b, none⟩ k := fun h => nomatch h.1
    rw [show (n.link ps ⟨a, b, none⟩).frontier1 = n.frontier1 from frontier1_linkNoPair n _ _]
    exact ⟨fun he => .inr ⟨he, fun k h => absurd h (hno k)⟩,
      fun h => h.elim (fun ⟨k, hq, _⟩ => absurd hq (hno k)) (·.1)⟩
  | some k =>
    simp only [link, mem_frontier1_connect, Link.Queues, Option.some.injEq]
    constructor
    · rintro (⟨h, rfl⟩ | ⟨he, hk⟩)
      · exact .inl ⟨k, ⟨rfl, h⟩, rfl⟩
      · refine .inr ⟨he, ?_⟩
        rintro _ ⟨rfl, h⟩
        exact hk h
    · rintro (⟨_, ⟨rfl, h⟩, rfl⟩ | ⟨he, hk⟩)
      · exact .inl ⟨h, rfl⟩
      · exact .inr ⟨he, fun h => hk k ⟨rfl, h⟩⟩

theorem mem_links_of_mem :
    ∀ (ls : List Link) {n : Net}, e ∈ n.frontier1 → (∀ l ∈ ls, ∀ k, l.Queues ps k → e.1 ≠ k) →
        e ∈ (ls.foldl (fun n l => n.link ps l) n).frontier1
  | [], _, he, _ => he
  | l :: ls, n, he, hk =>
    mem_links_of_mem ls (n := n.link ps l) (mem_frontier1_link.mpr (.inr ⟨he, hk _ mem_cons_self⟩))
      (fun l' hl' => hk l' (mem_cons_of_mem _ hl'))

/-- No two of the links are queued under one key. -/
def KeysApart (ps : List AgentPorts) (ls : List Link) : Prop :=
  ls.Pairwise fun l l' => ∀ k, l.Queues ps k → ¬l'.Queues ps k

theorem mem_links_of_queues {l : Link} {k : LOPath} (h : l.Queues ps k) :
    ∀ (ls : List Link) {n : Net}, KeysApart ps ls → l ∈ ls →
      (k, ⟨⟨_, h.2.1⟩, ⟨_, h.2.2.1⟩, k⟩) ∈ (ls.foldl (fun n l => n.link ps l) n).frontier1
  | l0 :: ls, n, hk, hl => by
    obtain ⟨h0, hrest⟩ := pairwise_cons.mp hk
    rcases mem_cons.mp hl with rfl | hl
    · refine mem_links_of_mem ls (n := n.link ps l) (mem_frontier1_link.mpr (.inl ⟨k, h, rfl⟩)) ?_
      rintro l' hl' k' hq rfl
      exact h0 l' hl' k h hq
    · exact mem_links_of_queues h ls (n := n.link ps l0) hrest hl

theorem keyed_link {n : Net} (ps : List AgentPorts) (l : Link) (h : Keyed n) :
    Keyed (n.link ps l) := by
  intro e he
  rcases mem_frontier1_link.mp he with ⟨k, hq, rfl⟩ | ⟨he, -⟩
  · rfl
  · exact h e he

theorem frontier1_setErasers (ps : List PortId) (n : Net) :
    (ps.foldl setEraserOnPort n).frontier1 = n.frontier1 := by
  refine foldl_frame frontier1 (fun n p => ?_) ps n
  unfold setEraserOnPort
  split <;> rfl

section

variable {rw : Rewrite} {n n1 n2 n' : Net} {is : List Nat} {ps : List AgentPorts}

section

variable (hran : rw.Ran n is ps n1 n2 n')
include hran

/-- Up to its links a rewrite leaves the queue alone. -/
theorem frontier1_before_links : (rw.retired.foldl retire n2).frontier1 = n.frontier1 := by
  obtain ⟨a, ha⟩ := retireAll_frame rw.retired n2
  have hrel (m : Net) : (m.relabelSlot rw.relabel).frontier1 = m.frontier1 := by
    cases rw.relabel <;> rfl
  rw [ha]
  show n2.frontier1 = _
  rw [hran.alloc.frontier1, hran.erase, hrel, frontier1_setErasers]

theorem mem_run_of_mem {e : LOPath × ActivePair}
    (he : e ∈ n.frontier1) (hk : ∀ l ∈ rw.links, ∀ k, l.Queues ps k → e.1 ≠ k) :
    e ∈ n'.frontier1 := by
  rw [hran.link]
  rw [← frontier1_before_links hran] at he
  exact mem_links_of_mem _ he hk

theorem mem_run_of_queues (ha : KeysApart ps rw.links) {l : Link}
    {k : LOPath} (hl : l ∈ rw.links) (h : l.Queues ps k) :
    (k, ⟨⟨_, h.2.1⟩, ⟨_, h.2.2.1⟩, k⟩) ∈ n'.frontier1 := by
  rw [hran.link]
  exact mem_links_of_queues h _ ha hl

theorem keyed_run (h : Keyed n) : Keyed n' := by
  rw [hran.link]
  refine List.foldlRecOn rw.links _ ?_ fun _ h l _ => keyed_link ps l h
  unfold Keyed
  rw [frontier1_before_links hran]
  exact h

end

end

end Net

end Dnet
