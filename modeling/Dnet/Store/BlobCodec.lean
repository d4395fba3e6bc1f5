import Dnet.Store.Serialize

/-!
# The bytes of a blob

The reader of `from_blob` is exact for the bytes that `serialize` writes: it accepts what starts
with a record in which every field fits, and returns that record. So a list of records has one
encoding (`decode_eq_ok`).
-/

namespace Dnet

open Lib List

section

variable {s s' : List UInt8} {rec : Record}

theorem readI16_eq_ok {d : Int} :
    readI16 s = .ok (d, s') ↔ (-32768 ≤ d ∧ d < 32768) ∧ s = i16Bytes d ++ s' := by
  unfold readI16 readU16
  rw [reader_bind_eq_ok]
  constructor
  · rintro ⟨m, s1, hm, h⟩
    obtain ⟨hlt, rfl⟩ := readLe_eq_ok.mp hm
    cases h
    have hmod : m % 2 ^ 16 = m := Nat.mod_eq_of_lt hlt
    refine ⟨⟨(BitVec.ofNat 16 m).le_toInt, (BitVec.ofNat 16 m).toInt_lt⟩, ?_⟩
    rw [i16Bytes, BitVec.ofInt_toInt, BitVec.toNat_ofNat, hmod]
  · rintro ⟨⟨hlo, hhi⟩, rfl⟩
    refine ⟨_, _, readLe_eq_ok.mpr ⟨(BitVec.ofInt 16 d).isLt, rfl⟩, ?_⟩
    have hback : (BitVec.ofInt 16 d).toInt = d := BitVec.toInt_ofInt_eq_self (by decide) hlo hhi
    rw [BitVec.ofNat_toNat, BitVec.setWidth_eq, hback]
    rfl

/-! ## Edges -/

/-- The number of the record fits into its field. -/
def Edge.Fits : Edge → Prop
  | none => True
  | some (idx, _) => idx < 2 ^ 32

theorem portKindOf_eq_ok {sel : Nat} {k : PortKind} : portKindOf sel = .ok k ↔ sel = selOf k := by
  constructor
  · intro h
    unfold portKindOf at h
    split at h <;> cases h <;> rfl
  · rintro rfl
    cases k <;> rfl

theorem readEdge_eq_ok {e : Edge} : readEdge s = .ok (e, s') ↔ e.Fits ∧ s = Edge.bytes e ++ s' := by
  unfold readEdge
  rw [reader_bind_eq_ok]
  constructor
  · rintro ⟨idx, s1, hidx, h1⟩
    obtain ⟨sel, s2, hsel, h2⟩ := reader_bind_eq_ok.mp h1
    obtain ⟨hidxlt, rfl⟩ := readLe_eq_ok.mp hidx
    obtain ⟨-, rfl⟩ := readLe_eq_ok.mp hsel
    split at h2
    · next hera =>
      obtain ⟨rfl, rfl⟩ := hera
      cases h2
      exact ⟨trivial, (append_assoc ..).symm⟩
    · obtain ⟨k, s3, hk, h3⟩ := reader_bind_eq_ok.mp h2
      cases hp : portKindOf sel with
      | error e =>
        rw [hp] at hk
        cases hk
      | ok k' =>
        rw [hp] at hk
        cases hk
        cases h3
        rw [portKindOf_eq_ok.mp hp]
        exact ⟨hidxlt, (append_assoc ..).symm⟩
  · rintro ⟨hfits, rfl⟩
    cases e with
    | none =>
      rw [Edge.bytes, append_assoc]
      exact ⟨_, _, readLe_eq_ok.mpr ⟨by decide, rfl⟩, reader_bind_eq_ok.mpr
        ⟨_, _, readLe_eq_ok.mpr ⟨by decide, rfl⟩, rfl⟩⟩
    | some e =>
      obtain ⟨idx, k⟩ := e
      have hsel : selOf k < eraserSel := by cases k <;> decide
      rw [Edge.bytes, append_assoc]
      refine ⟨_, _, readLe_eq_ok.mpr ⟨hfits, rfl⟩, reader_bind_eq_ok.mpr
        ⟨_, _, readLe_eq_ok.mpr ⟨hsel.trans (by decide), rfl⟩, ?_⟩⟩
      rw [if_neg fun h => absurd h.2 (Nat.ne_of_lt hsel)]
      refine reader_bind_eq_ok.mpr ⟨k, s', ?_, rfl⟩
      rw [portKindOf_eq_ok.mpr rfl]
      rfl

/-! ## Records -/

/-- Every field of the record fits. -/
def Record.Fits : Record → Prop
  | .eraser => True
  | .freeVar varId => varId ≤ freeVarIdMax
  | .fanAbs body var => body.Fits ∧ var.Fits
  | .fanApp func arg => func.Fits ∧ arg.Fits
  | .repIn level delta0 delta1 left right =>
    level < 2 ^ 16 ∧ (-32768 ≤ delta0 ∧ delta0 < 32768) ∧ (-32768 ≤ delta1 ∧ delta1 < 32768) ∧
      left.Fits ∧ right.Fits

theorem readEdges_eq_ok {f : Edge → Edge → Record} :
    ((do return f (← readEdge) (← readEdge)) : Reader DnxError Record) s = .ok (rec, s') ↔
      ∃ a b, rec = f a b ∧ (a.Fits ∧ b.Fits) ∧ s = Edge.bytes a ++ (Edge.bytes b ++ s') := by
  rw [reader_bind_eq_ok]
  constructor
  · rintro ⟨a, s1, ha, h1⟩
    obtain ⟨b, s2, hb, h2⟩ := reader_bind_eq_ok.mp h1
    cases h2
    obtain ⟨hafits, rfl⟩ := readEdge_eq_ok.mp ha
    obtain ⟨hbfits, rfl⟩ := readEdge_eq_ok.mp hb
    exact ⟨a, b, rfl, ⟨hafits, hbfits⟩, rfl⟩
  · rintro ⟨a, b, rfl, ⟨ha, hb⟩, rfl⟩
    exact ⟨a, _, readEdge_eq_ok.mpr ⟨ha, rfl⟩, reader_bind_eq_ok.mpr
      ⟨b, _, readEdge_eq_ok.mpr ⟨hb, rfl⟩, rfl⟩⟩

theorem readRep_eq_ok :
    ((do return .repIn (← readU16) (← readI16) (← readI16) (← readEdge) (← readEdge)) :
        Reader DnxError Record) s = .ok (rec, s') ↔
      ∃ level d0 d1 a b, rec = .repIn level d0 d1 a b ∧ rec.Fits ∧
        s = leBytes 2 level ++ (i16Bytes d0 ++ (i16Bytes d1 ++
          (Edge.bytes a ++ (Edge.bytes b ++ s')))) := by
  rw [reader_bind_eq_ok]
  constructor
  · rintro ⟨level, s1, hlevel, h1⟩
    obtain ⟨d0, s2, hd0, h2⟩ := reader_bind_eq_ok.mp h1
    obtain ⟨d1, s3, hd1, h3⟩ := reader_bind_eq_ok.mp h2
    obtain ⟨a, b, rfl, hfits, rfl⟩ := readEdges_eq_ok.mp h3
    obtain ⟨hlevelFits, rfl⟩ := readLe_eq_ok.mp hlevel
    obtain ⟨hd0Fits, rfl⟩ := readI16_eq_ok.mp hd0
    obtain ⟨hd1Fits, rfl⟩ := readI16_eq_ok.mp hd1
    exact ⟨level, d0, d1, a, b, rfl, ⟨hlevelFits, hd0Fits, hd1Fits, hfits⟩, rfl⟩
  · rintro ⟨level, d0, d1, a, b, rfl, ⟨hlevel, hd0, hd1, hfits⟩, rfl⟩
    exact ⟨level, _, readLe_eq_ok.mpr ⟨hlevel, rfl⟩, reader_bind_eq_ok.mpr
      ⟨d0, _, readI16_eq_ok.mpr ⟨hd0, rfl⟩, reader_bind_eq_ok.mpr
        ⟨d1, _, readI16_eq_ok.mpr ⟨hd1, rfl⟩, readEdges_eq_ok.mpr ⟨a, b, rfl, hfits, rfl⟩⟩⟩⟩

theorem readVar_eq_ok : ((do
        let varId ← readU32
        if varId > freeVarIdMax then throw .readbackIncomplete
        else return .freeVar varId) : Reader DnxError Record) s = .ok (rec, s') ↔
      ∃ varId, rec = .freeVar varId ∧ varId ≤ freeVarIdMax ∧ s = leBytes 4 varId ++ s' := by
  rw [reader_bind_eq_ok]
  constructor
  · rintro ⟨varId, s1, hvar, h1⟩
    split at h1
    · cases h1
    · next hle =>
      cases h1
      exact ⟨varId, rfl, Nat.not_lt.mp hle, (readLe_eq_ok.mp hvar).2⟩
  · rintro ⟨varId, rfl, hle, rfl⟩
    refine ⟨varId, s', readLe_eq_ok.mpr ⟨Nat.lt_of_le_of_lt hle (by decide), rfl⟩, ?_⟩
    rw [if_neg (Nat.not_lt.mpr hle)]
    rfl

theorem readRecord_eq_ok : readRecord s = .ok (rec, s') ↔ rec.Fits ∧ s = rec.bytes ++ s' := by
  unfold readRecord
  rw [reader_bind_eq_ok]
  constructor
  · rintro ⟨kind, s1, hkind, h1⟩
    obtain ⟨-, rfl⟩ := readLe_eq_ok.mp hkind
    split at h1
    · next hk =>
      cases h1
      rw [hk]
      exact ⟨trivial, rfl⟩
    · split at h1
      · next hk =>
        obtain ⟨varId, rfl, hle, rfl⟩ := readVar_eq_ok.mp h1
        rw [hk]
        exact ⟨hle, (append_assoc ..).symm⟩
      · split at h1
        · next hk =>
          obtain ⟨a, b, rfl, hfits, rfl⟩ := readEdges_eq_ok.mp h1
          rw [hk]
          exact ⟨hfits, by simp only [Record.bytes, append_assoc]⟩
        · split at h1
          · next hk =>
            obtain ⟨a, b, rfl, hfits, rfl⟩ := readEdges_eq_ok.mp h1
            rw [hk]
            exact ⟨hfits, by simp only [Record.bytes, append_assoc]⟩
          · split at h1
            · next hk =>
              obtain ⟨level, d0, d1, a, b, rfl, hfits, rfl⟩ := readRep_eq_ok.mp h1
              rw [hk]
              exact ⟨hfits, by simp only [Record.bytes, append_assoc]⟩
            · cases h1
  · rintro ⟨hfits, rfl⟩
    cases rec with
    | eraser => exact ⟨kindEraser, _, readLe_eq_ok.mpr ⟨by decide, rfl⟩, rfl⟩
    | freeVar varId =>
      rw [Record.bytes, append_assoc]
      exact ⟨kindFreeVar, _, readLe_eq_ok.mpr ⟨by decide, rfl⟩,
        readVar_eq_ok.mpr ⟨varId, rfl, hfits, rfl⟩⟩
    | fanAbs body var =>
      rw [Record.bytes, append_assoc, append_assoc]
      exact ⟨kindFanAbs, _, readLe_eq_ok.mpr ⟨by decide, rfl⟩,
        readEdges_eq_ok.mpr ⟨body, var, rfl, hfits, rfl⟩⟩
    | fanApp func arg =>
      rw [Record.bytes, append_assoc, append_assoc]
      exact ⟨kindFanApp, _, readLe_eq_ok.mpr ⟨by decide, rfl⟩,
        readEdges_eq_ok.mpr ⟨func, arg, rfl, hfits, rfl⟩⟩
    | repIn level d0 d1 left right =>
      simp only [Record.bytes, append_assoc]
      exact ⟨kindRepIn, _, readLe_eq_ok.mpr ⟨by decide, rfl⟩,
        readRep_eq_ok.mpr ⟨level, d0, d1, left, right, rfl, hfits, rfl⟩⟩

/-- What a list of records must be to be encoded: every record fits, and so does the count. -/
structure Encodable (records : List Record) : Prop where
  fits : ∀ rec ∈ records, rec.Fits
  nonempty : records ≠ []
  count : records.length < 2 ^ 32

theorem readRecords_eq_ok : ∀ {k : Nat} {s s' : List UInt8} {records : List Record},
    readMany readRecord k s = .ok (records, s') ↔
      records.length = k ∧ (∀ rec ∈ records, rec.Fits) ∧ s = records.flatMap Record.bytes ++ s'
  | 0, s, s', records => by
    constructor
    · intro h
      cases h
      exact ⟨rfl, by simp, rfl⟩
    · rintro ⟨hl, -, rfl⟩
      rw [length_eq_zero_iff.mp hl]
      rfl
  | k + 1, s, s', records => by
    rw [readMany, reader_bind_eq_ok]
    constructor
    · rintro ⟨rec, s1, hrec, h1⟩
      obtain ⟨rest, s2, hrest, h2⟩ := reader_bind_eq_ok.mp h1
      cases h2
      obtain ⟨hfits, rfl⟩ := readRecord_eq_ok.mp hrec
      obtain ⟨hlen, hall, rfl⟩ := readRecords_eq_ok.mp hrest
      refine ⟨congrArg (· + 1) hlen, forall_mem_cons.mpr ⟨hfits, hall⟩, ?_⟩
      rw [flatMap_cons, append_assoc]
    · rintro ⟨hlen, hall, rfl⟩
      obtain ⟨rec, rest, rfl⟩ := exists_cons_of_length_eq_add_one hlen
      obtain ⟨hfits, hall⟩ := forall_mem_cons.mp hall
      rw [flatMap_cons, append_assoc]
      exact ⟨rec, _, readRecord_eq_ok.mpr ⟨hfits, rfl⟩, reader_bind_eq_ok.mpr
        ⟨rest, s', readRecords_eq_ok.mpr ⟨Nat.succ.inj hlen, hall, rfl⟩, rfl⟩⟩

theorem decode_eq_ok {bytes : List UInt8} {records : List Record} :
    decode bytes = .ok records ↔ Encodable records ∧ bytes = blobBytes records := by
  constructor
  · intro h
    obtain ⟨⟨tag, s1⟩, htag, h1⟩ := bind_eq_ok.mp h
    dsimp only at h1
    split at h1
    · cases h1
    · next htageq =>
      obtain ⟨⟨k, s2⟩, hk, h2⟩ := bind_eq_ok.mp h1
      obtain ⟨⟨rs, s3⟩, hrs, h3⟩ := bind_eq_ok.mp h2
      dsimp only at h3
      split at h3
      · cases h3
      · next hrest =>
        split at h3
        · cases h3
        · next hne =>
          cases h3
          obtain ⟨-, rfl⟩ := readLe_eq_ok.mp htag
          obtain ⟨hklt, rfl⟩ := readLe_eq_ok.mp hk
          obtain ⟨rfl, hfits, rfl⟩ := readRecords_eq_ok.mp hrs
          refine ⟨⟨hfits, by simpa using hne, hklt⟩, ?_⟩
          rw [not_not.mp htageq, not_not.mp hrest, append_nil, blobBytes, append_assoc]
  · rintro ⟨⟨hfits, hne, hcount⟩, rfl⟩
    rw [blobBytes, append_assoc]
    refine bind_eq_ok.mpr ⟨_, readLe_eq_ok.mpr ⟨by decide, rfl⟩, ?_⟩
    dsimp only
    rw [if_neg (not_not.mpr rfl)]
    refine bind_eq_ok.mpr ⟨_, readLe_eq_ok.mpr ⟨hcount, rfl⟩, bind_eq_ok.mpr
      ⟨_, readRecords_eq_ok.mpr ⟨rfl, hfits, (append_nil _).symm⟩, ?_⟩⟩
    dsimp only
    rw [if_neg (not_not.mpr rfl), if_neg (by simpa using hne)]
    rfl

end

end Dnet
