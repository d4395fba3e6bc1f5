import Dnet.Reduce.Symmetry
import Dnet.Store.Rebuild

/-!
# What an untrusted blob can forge

`from_blob` on an arbitrary byte string. The net it returns is always certified, but its
wires are symmetric only if the edges agree on the ports they name: `connect` overwrites,
so of several edges on one port the last one wins and the other ends keep pointing at it.
An edge to an auxiliary port of an eraser record is wired to slot 0. A replicator of level
over 385 fails the assertion of `alloc_rep_in`.
-/

namespace Dnet

open Lib

/-- The slots that the arena of a blob has for agents. -/
def blobRoom (records : List Record) : Nat := min records.length (2 ^ 28 - 1)

/-- The wires of records that `from_blob` accepts: all agents fit, every edge names a record
and no wire is an active pair or a candidate of C4. -/
def acceptRecords (debug : Bool) (records : List Record) : Except Abort (List (PortId × PortId)) := do
  allocCheck debug (blobRoom records) records
  let ws ← (recordWires records).mapError .err
  if ws.all fun w => !Net.detects (agentSlot (records.filter Record.isAgent)) w.1 w.2 then return ws
  else throw (.err .readbackIncomplete)

/-- The wires agree on the ports of the slots `1, …, k`: the last wire that names one of them
ends in the eraser or the null port, or in a port of another such slot whose last wire
leads back. -/
def WiresAgree (k : Nat) (ws : List (PortId × PortId)) : Prop :=
  ∀ i kind q, 0 < i → i ≤ k → lastEnd (i, kind) ws = some q → q.isReal = true →
    (0 < q.slotIdx ∧ q.slotIdx ≤ k) ∧ lastEnd q.cell ws = some (.new i kind false)

namespace Net

/-- The net that `from_blob` makes of records with the wires `ws`. -/
structure Rebuilt (records : List Record) (ws : List (PortId × PortId)) (n : Net) : Prop where
  body : ∀ i, n.bodyAt i = (fun s : Slot => ⟨s.kind, s.generation, s.label⟩)
    (agentSlot (records.filter Record.isAgent) i)
  live : ∀ i, n.arena.isLive i = decide (0 < i ∧ i ≤ (records.filter Record.isAgent).length)
  portAt : ∀ c, n.portAt c = (lastEnd c ws).getD .null
  idle : n.idle = true
  pending : n.pendingC1 = false

theorem portAt_agentSlot (agents : List Record) (c : Nat × PortKind) :
    (agentSlot agents c.1).port c.2 = .null := by
  obtain ⟨i, kind⟩ := c
  unfold agentSlot
  split
  · cases kind <;> rfl
  · cases agents[i - 1]? with
    | none => cases kind <;> rfl
    | some rec => cases rec <;> cases kind <;> rfl

theorem bodyAt_joinAll (i : Nat) : ∀ (ws : List (PortId × PortId)) (n : Net),
    (n.joinAll ws).bodyAt i = n.bodyAt i
  | [], _ => rfl
  | (a, b) :: ws, n => by
    show ((n.connect a b .root).joinAll ws).bodyAt i = _
    rw [bodyAt_joinAll i ws, bodyAt_connect]

theorem isLive_joinAll (i : Nat) : ∀ (ws : List (PortId × PortId)) (n : Net),
    (n.joinAll ws).arena.isLive i = n.arena.isLive i
  | [], _ => rfl
  | (a, b) :: ws, n => by
    show ((n.connect a b .root).joinAll ws).arena.isLive i = _
    rw [isLive_joinAll i ws, isLive_connect]

theorem pendingC1_joinAll : ∀ (ws : List (PortId × PortId)) (n : Net),
    (n.joinAll ws).pendingC1 = n.pendingC1
  | [], _ => rfl
  | (a, b) :: ws, n => by
    show ((n.connect a b .root).joinAll ws).pendingC1 = _
    rw [pendingC1_joinAll ws, pendingC1_connect]

theorem Unwired.joinAll {cap : Nat} {records : List Record} {ws : List (PortId × PortId)} {n : Net}
    (h : Unwired cap (records.filter Record.isAgent) n) : (n.joinAll ws).certifyCanonical =
        (if ws.all fun w => !detects (agentSlot (records.filter Record.isAgent)) w.1 w.2
          then .ok () else .error .readbackIncomplete) ∧
      ((ws.all fun w => !detects (agentSlot (records.filter Record.isAgent)) w.1 w.2) = true →
        Rebuilt records ws (n.joinAll ws)) := by
  have hidle : (n.joinAll ws).idle =
      ws.all fun w => !detects (agentSlot (records.filter Record.isAgent)) w.1 w.2 := by
    have hn : n.idle = true := by
      unfold idle
      rw [h.frontier1, h.frontier2]
      rfl
    rw [idle_joinAll, hn, Bool.true_and, funext h.slots]
  have hpend : (n.joinAll ws).pendingC1 = false := by rw [pendingC1_joinAll, h.pending]
  refine ⟨?_, fun hall => ⟨fun i => ?_, fun i => ?_, fun c => ?_, ?_, hpend⟩⟩
  · unfold certifyCanonical
    rw [hpend, show ((n.joinAll ws).frontier1.isEmpty && (n.joinAll ws).frontier2.isEmpty) =
      _ from hidle, Bool.not_false, Bool.and_true]
  · rw [bodyAt_joinAll, bodyAt, h.slots]
  · rw [isLive_joinAll, h.live]
  · rw [portAt_joinAll, portAt, h.slots, portAt_agentSlot]
  · rw [hidle, hall]

end Net

variable {records : List Record} {ws : List (PortId × PortId)} {bytes : List UInt8}

theorem decode_ne_nil (h : decode bytes = .ok records) : records ≠ [] := by
  obtain ⟨⟨tag, rest⟩, -, h⟩ := bind_eq_ok.mp h
  dsimp only at h
  split at h
  · cases h
  · obtain ⟨⟨count, rest⟩, -, h⟩ := bind_eq_ok.mp h
    obtain ⟨⟨recs, rest⟩, -, h⟩ := bind_eq_ok.mp h
    dsimp only at h
    split at h
    · cases h
    · split at h
      · cases h
      · next hne =>
        cases h
        simpa using hne

/-- What `from_blob` makes of records, said on the records. -/
theorem rebuild_spec (debug : Bool) (hne : records ≠ []) : match acceptRecords debug records with
    | .error e => rebuild debug records = .error e
    | .ok ws => ∃ n, rebuild debug records = .ok (n, (recordPorts 1 records).headD .null) ∧
        n.certifyCanonical = .ok () ∧ Net.Rebuilt records ws n := by
  have hcap : min (max (min (records.length + 1) (2 ^ 32 - 1)) 2) Arena.maxSlots =
      1 + blobRoom records := by
    have := List.length_pos_iff.mpr hne
    unfold blobRoom Arena.maxSlots
    omega
  have hu := Net.Unwired.new (max (min (records.length + 1) (2 ^ 32 - 1)) 2)
  rw [hcap] at hu
  have hroom : ([] : List Record).length + 1 + blobRoom records = 1 + blobRoom records := by simp
  have halloc := hu.allocRecords debug records hroom
  unfold acceptRecords rebuild
  cases hc : allocCheck debug (blobRoom records) records with
  | error e =>
    rw [hc] at halloc
    show (allocRecords debug records _ >>= _) = _
    rw [halloc]
    rfl
  | ok u =>
    rw [hc] at halloc
    obtain ⟨n, hn, hun⟩ := halloc
    rw [List.nil_append] at hun
    have hwire : wireRecords (recordPorts 1 records) ((recordPorts 1 records).zip records) n =
        (recordWires records).map n.joinAll := Net.wireRecords_eq _ _ n
    simp only [hn, List.length_nil, Nat.zero_add, hwire, bind, Except.bind]
    cases hw : recordWires records with
    | error e => rfl
    | ok ws =>
      obtain ⟨hcert, hreb⟩ := @Net.Unwired.joinAll _ records ws n hun
      simp only [Except.map, Except.mapError, hcert]
      cases hall : ws.all fun w =>
          !Net.detects (agentSlot (records.filter Record.isAgent)) w.1 w.2 with
      | false => rfl
      | true =>
        rw [hall] at hcert
        exact ⟨n.joinAll ws, rfl, hcert, hreb hall⟩

/-! ## Soundness -/

/-- No assertion fails, and a net that is returned is certified and has symmetric wires. -/
def SoundOn (bytes : List UInt8) : Prop :=
  match fromBlob true bytes with
  | .error .assertion => False
  | .error (.err _) => True
  | .ok (n, _) => n.certifyCanonical = .ok () ∧ n.WireSym

theorem Net.Rebuilt.portId {n : Net}
    (h : n.Rebuilt records ws) (c : Nat × PortKind) : n.portId c = .new c.1 c.2 false := by
  have hgen : (n.arena.slots c.1).genLow = false := by
    have hbody : (n.arena.slots c.1).generation = _ := congrArg Body.generation (h.body c.1)
    rw [Slot.genLow, hbody]
    exact genLow_agentSlot _ _
  rw [Net.portId, hgen]

/-- The wires of a rebuilt net are symmetric exactly if the wires of its records agree. -/
theorem Net.Rebuilt.wireSym_iff {n : Net} (h : n.Rebuilt records ws) :
    n.WireSym ↔ WiresAgree (records.filter Record.isAgent).length ws := by
  have hlive {i : Nat} : n.arena.isLive i = true ↔
      0 < i ∧ i ≤ (records.filter Record.isAgent).length := by
    rw [h.live, decide_eq_true_iff]
  constructor
  · intro hs i kind q h0 hk hq hr
    have hp : n.portAt (i, kind) = q := by rw [h.portAt, hq]; rfl
    obtain ⟨hl, hback⟩ := hs (i, kind) (hlive.mpr ⟨h0, hk⟩) (hp ▸ hr)
    rw [hp] at hl hback
    rw [h.portAt, h.portId] at hback
    refine ⟨hlive.mp hl, ?_⟩
    cases hlast : lastEnd q.cell ws with
    | none =>
      rw [hlast] at hback
      exact absurd (congrArg PortId.slotIdx hback) (Nat.ne_of_lt h0)
    | some q' =>
      rw [hlast] at hback
      exact congrArg some hback
  · rintro hs ⟨i, kind⟩ hl hr
    obtain ⟨h0, hk⟩ := hlive.mp hl
    rw [h.portAt] at hr
    cases hlast : lastEnd (i, kind) ws with
    | none =>
      rw [hlast] at hr
      cases hr
    | some q =>
      rw [hlast] at hr
      obtain ⟨hpos, hback⟩ := hs i kind q h0 hk hlast hr
      have hp : n.portAt (i, kind) = q := by rw [h.portAt, hlast]; rfl
      rw [hp, h.portAt, hback, h.portId]
      exact ⟨hlive.mpr hpos, rfl⟩

theorem acceptRecords_assertion {debug : Bool} : acceptRecords debug records = .error .assertion ↔
      allocCheck debug (blobRoom records) records = .error .assertion := by
  unfold acceptRecords
  cases allocCheck debug (blobRoom records) records with
  | error e => exact ⟨fun h => by cases h; rfl, fun h => by cases h; rfl⟩
  | ok u =>
    refine iff_of_false (fun h => ?_) (fun h => nomatch h)
    cases hw : recordWires records with
    | error e =>
      rw [hw] at h
      cases h
    | ok ws =>
      rw [hw] at h
      change (if _ then _ else _) = _ at h
      split at h
      · cases h
      · cases h

/-- A byte string does no harm exactly if, when it decodes, no replicator that is reached
while the arena has room has a level over 385, and the wires of accepted records agree. -/
theorem fromBlob_sound_iff (bytes : List UInt8) :
    SoundOn bytes ↔ ∀ records, decode bytes = .ok records →
      allocCheck true (blobRoom records) records ≠ .error .assertion ∧
        ∀ ws, acceptRecords true records = .ok ws →
          WiresAgree (records.filter Record.isAgent).length ws := by
  unfold SoundOn fromBlob deserialize
  cases hd : decode bytes with
  | error e => exact iff_of_true trivial fun _ h => nomatch h
  | ok records =>
    show (match rebuild true records with
      | .error .assertion => False
      | .error (.err _) => True
      | .ok (n, _) => n.certifyCanonical = .ok () ∧ n.WireSym) ↔ _
    have hspec := rebuild_spec true (decode_ne_nil hd)
    have hrec (P : List Record → Prop) :
        (∀ r, (.ok records : Except DnxError (List Record)) = .ok r → P r) ↔ P records :=
      ⟨fun h => h _ rfl, fun h r hr => by cases hr; exact h⟩
    rw [hrec, Ne, ← acceptRecords_assertion]
    cases ha : acceptRecords true records with
    | error e =>
      rw [ha] at hspec
      rw [hspec]
      cases e with
      | assertion => exact iff_of_false not_false fun h => h.1 rfl
      | err e => exact iff_of_true trivial ⟨(fun h => nomatch h), fun _ h => nomatch h⟩
    | ok ws =>
      rw [ha] at hspec
      obtain ⟨n, hn, hcert, hreb⟩ := hspec
      rw [hn]
      refine Iff.trans (and_iff_right hcert) (hreb.wireSym_iff.trans ?_)
      exact ⟨fun h => ⟨(fun h' => nomatch h'), fun _ hw => by cases hw; exact h⟩, fun h => h.2 ws rfl⟩

/-- A replicator of level 386. -/
def levelBlob : List UInt8 :=
  [1, 1, 0, 0, 0, 3, 130, 1, 0, 0, 0, 0, 255, 255, 255, 255, 255, 255, 255, 255, 255, 255]

/-- An abstraction whose body is the first auxiliary port of an eraser record. -/
def sentinelBlob : List UInt8 :=
  [1, 2, 0, 0, 0, 1, 1, 0, 0, 0, 1, 255, 255, 255, 255, 255, 255]

/-- An abstraction whose body and variable are the same port of a free variable. -/
def sharedPortBlob : List UInt8 :=
  [1, 2, 0, 0, 0, 1, 1, 0, 0, 0, 0, 1, 0, 0, 0, 0, 4, 0, 0, 0, 0]

/-- The wire at `c` does not lead back to `c`. -/
def Net.brokenAt (n : Net) (c : Nat × PortKind) : Bool :=
  n.arena.isLive c.1 && (n.portAt c).isReal &&
    !(n.arena.isLive (n.portAt c).slotIdx && decide (n.portAt (n.portAt c).cell = n.portId c))

theorem not_soundOn_of_brokenAt {c : Nat × PortKind}
    (h : returns (fun r : Net × PortId => r.1.brokenAt c) (some (fromBlob true bytes)) = true) :
    ¬SoundOn bytes := by
  obtain ⟨⟨n, r⟩, hn, hbroken⟩ := exists_of_returns h
  unfold SoundOn
  rw [Option.some.inj hn]
  rintro ⟨-, hsym⟩
  simp only [Net.brokenAt, Bool.and_eq_true] at hbroken
  obtain ⟨hlive, hback⟩ := hsym c hbroken.1.1 hbroken.1.2
  rw [hlive, decide_eq_true hback] at hbroken
  exact absurd hbroken.2 Bool.false_ne_true

theorem forgedBlobs_unsound :
    ¬SoundOn levelBlob ∧ ¬SoundOn sentinelBlob ∧ ¬SoundOn sharedPortBlob := by
  refine ⟨?_, ?_, ?_⟩
  · have h : fails .assertion (some (fromBlob true levelBlob)) = true := by decide +kernel
    rw [SoundOn, Option.some.inj (eq_of_fails h)]
    exact not_false
  · have h : returns (fun r : Net × PortId => r.1.brokenAt (1, .aux0))
        (some (fromBlob true sentinelBlob)) = true := by decide +kernel
    exact not_soundOn_of_brokenAt h
  · have h : returns (fun r : Net × PortId => r.1.brokenAt (1, .aux0))
        (some (fromBlob true sharedPortBlob)) = true := by decide +kernel
    exact not_soundOn_of_brokenAt h

end Dnet
