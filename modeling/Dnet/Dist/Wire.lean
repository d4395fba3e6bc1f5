import Dnet.Dist.Disk

/-!
# The wire

The messages with which two nodes exchange blobs (dnx-dist/wire.rs), each in a frame: its length
in four bytes, a tag and what the tag announces. A frame ends where its length says, so a stream
of messages is read back as it was written, and a stream that is cut off gives the messages
before the cut and then an error (`readMsgs_writeMsgs`).
-/

namespace Dnet

namespace Wire

open Lib List

/-- 256 MiB. -/
def maxFrame : Nat := 256 * 2 ^ 20

def tagWant : Nat := 0x10
def tagHave : Nat := 0x11
def tagBlobs : Nat := 0x90
def tagHeld : Nat := 0x91
def tagFailed : Nat := 0x9F

inductive Msg where
  | want (keys : List Blake3Hash)
  | blobs (pairs : List (Blake3Hash × List UInt8))
  | have' (keys : List Blake3Hash)
  | held (bits : List Bool)
  | failed (kind : UInt8) (why : String)
  deriving DecidableEq

def ioErr (message : String) : CacheError := .io (.invalidData message)

/-! ## Writing -/

def asU32 (n : Nat) : Except CacheError Nat :=
  if n < 2 ^ 32 then .ok n else .error (ioErr "length exceeds u32")

def encodeHashes (keys : List Blake3Hash) : Except CacheError (List UInt8) := do
  return leBytes 4 (← asU32 keys.length) ++ keys.flatMap Subtype.val

/-- A key with its blob. -/
def encodePair (pair : Blake3Hash × List UInt8) : Except CacheError (List UInt8) := do
  return pair.1.1 ++ leBytes 4 (← asU32 pair.2.length) ++ pair.2

def encodeBody : Msg → Except CacheError (List UInt8)
  | .want keys => do return leBytes 1 tagWant ++ (← encodeHashes keys)
  | .have' keys => do return leBytes 1 tagHave ++ (← encodeHashes keys)
  | .blobs pairs => do
    let count ← asU32 pairs.length
    return leBytes 1 tagBlobs ++ leBytes 4 count ++ (← pairs.mapM encodePair).flatten
  | .held bits => do
    return leBytes 1 tagHeld ++ leBytes 4 (← asU32 bits.length) ++
      bits.map fun b => if b then 1 else 0
  | .failed kind why => do
    return leBytes 1 tagFailed ++ [kind] ++ leBytes 4 (← asU32 (utf8 why).length) ++ utf8 why

/-- The bytes that `write_msg` sends. -/
def writeMsg (m : Msg) : Except CacheError (List UInt8) := do
  let body ← encodeBody m
  let len ← asU32 body.length
  if len > maxFrame then throw (ioErr "frame exceeds MAX_FRAME")
  return leBytes 4 len ++ body

/-! ## Reading -/

def truncated : CacheError := ioErr "frame body truncated"

def readU8 : Reader CacheError UInt8 := do
  return UInt8.ofNat (← readLe truncated 1)

def readHash : Reader CacheError Blake3Hash := readArray truncated 32

def readBit : Reader CacheError Bool := do
  return decide ((← readU8) ≠ 0)

def decodeHashes : Reader CacheError (List Blake3Hash) := do
  readMany readHash (← readLe truncated 4)

def readPair : Reader CacheError (Blake3Hash × List UInt8) := do
  return (← readHash, ← readBlob truncated 4)

def readPairs : Reader CacheError (List (Blake3Hash × List UInt8)) := do
  readMany readPair (← readLe truncated 4)

def readBits : Reader CacheError (List Bool) := do
  readMany readBit (← readLe truncated 4)

/-- The message in a body, and the bytes behind it. -/
def decodeBody : Reader CacheError Msg := do
  let tag ← readLe truncated 1
  if tag = tagWant then return .want (← decodeHashes)
  else if tag = tagHave then return .have' (← decodeHashes)
  else if tag = tagBlobs then return .blobs (← readPairs)
  else if tag = tagHeld then return .held (← readBits)
  else if tag = tagFailed then
    let kind ← readU8
    match String.fromUTF8? (← readBlob truncated 4).toByteArray with
    | some why => return .failed kind why
    | none => throw (ioErr "Failed message is not utf-8")
  else throw (ioErr "unknown wire tag")

/-- `read_msg` on a stream of bytes. -/
def readMsg : Reader CacheError Msg := do
  let len ← readLe (.io .unexpectedEof) 4
  if len > maxFrame then throw (ioErr "incoming frame exceeds MAX_FRAME")
  let body ← readBytes (.io .unexpectedEof) len
  match decodeBody body with
  | .error e => throw e
  | .ok (m, []) => return m
  | .ok (_, _ :: _) => throw (ioErr "frame body has trailing bytes")

/-! ## Bodies -/

/-- Every count and every length fits into its four bytes. -/
def Msg.Counted : Msg → Prop
  | .want keys | .have' keys => keys.length < 2 ^ 32
  | .blobs pairs => pairs.length < 2 ^ 32 ∧ ∀ pair ∈ pairs, pair.2.length < 2 ^ 32
  | .held bits => bits.length < 2 ^ 32
  | .failed _ why => (utf8 why).length < 2 ^ 32

def pairBytes (pair : Blake3Hash × List UInt8) : List UInt8 :=
  pair.1.1 ++ (leBytes 4 pair.2.length ++ pair.2)

/-- The body of a message whose counts fit. -/
def Msg.bytes : Msg → List UInt8
  | .want keys => leBytes 1 tagWant ++ (leBytes 4 keys.length ++ keys.flatMap Subtype.val)
  | .have' keys => leBytes 1 tagHave ++ (leBytes 4 keys.length ++ keys.flatMap Subtype.val)
  | .blobs pairs => leBytes 1 tagBlobs ++ (leBytes 4 pairs.length ++ pairs.flatMap pairBytes)
  | .held bits =>
    leBytes 1 tagHeld ++ (leBytes 4 bits.length ++ bits.flatMap fun b => [if b then 1 else 0])
  | .failed kind why =>
    leBytes 1 tagFailed ++ ([kind] ++ (leBytes 4 (utf8 why).length ++ utf8 why))

theorem asU32_of_lt {n : Nat} (h : n < 2 ^ 32) : asU32 n = .ok n := if_pos h

theorem mapM_encodePair {pairs : List (Blake3Hash × List UInt8)}
    (h : ∀ pair ∈ pairs, pair.2.length < 2 ^ 32) :
    pairs.mapM encodePair = .ok (pairs.map pairBytes) := by
  refine mapM_eq_ok.mpr (forall₂_map_right_iff.mpr (forall₂_same.mpr fun pair hpair => ?_))
  rw [encodePair, asU32_of_lt (h pair hpair), pairBytes, ← append_assoc]
  rfl

theorem encodeBody_counted : ∀ {m : Msg}, m.Counted → encodeBody m = .ok m.bytes
  | .want keys, h | .have' _, h => by
    rw [encodeBody, encodeHashes, asU32_of_lt h]
    rfl
  | .blobs pairs, ⟨hcount, hpairs⟩ => by
    simp only [encodeBody, asU32_of_lt hcount, mapM_encodePair hpairs, Msg.bytes,
      flatMap_def, ← append_assoc]
    rfl
  | .held bits, h => by
    simp only [encodeBody, asU32_of_lt h, Msg.bytes, ← append_assoc, ← map_eq_flatMap]
    rfl
  | .failed kind why, h => by
    simp only [encodeBody, asU32_of_lt h, Msg.bytes, ← append_assoc]
    rfl

theorem Msg.counted_of_length {m : Msg} (h : m.bytes.length ≤ maxFrame) : m.Counted := by
  have hframe : maxFrame < 2 ^ 32 := by decide
  have hkeys (keys : List Blake3Hash) : keys.length ≤ (keys.flatMap Subtype.val).length :=
    length_le_flatMap fun k _ hnil => by
      have hlen := k.2
      rw [hnil] at hlen
      cases hlen
  cases m with
  | want keys | have' keys =>
    have := hkeys keys
    simp only [bytes, length_append, Counted] at h ⊢
    omega
  | blobs pairs =>
    have hcount : pairs.length ≤ (pairs.flatMap pairBytes).length :=
      length_le_flatMap fun pair _ => by simp [pairBytes, leBytes]
    simp only [bytes, length_append, Counted] at h ⊢
    refine ⟨by omega, fun pair hpair => ?_⟩
    have hone : (pairBytes pair).length ≤ (pairs.flatMap pairBytes).length := by
      rw [flatMap_def]
      exact (sublist_flatten_of_mem (mem_map_of_mem hpair)).length_le
    simp only [pairBytes, length_append] at hone
    omega
  | held bits =>
    have : bits.length ≤ (bits.flatMap fun b => [if b then (1 : UInt8) else 0]).length :=
      length_le_flatMap fun b _ => cons_ne_nil _ _
    simp only [bytes, length_append, Counted] at h ⊢
    omega
  | failed kind why =>
    simp only [bytes, length_append, Counted] at h ⊢
    omega

/-! ## Reading a body back -/

theorem restores_readHash : Restores readHash Subtype.val fun _ => True :=
  fun _ _ _ => readArray_eq_ok.mpr rfl

theorem restores_readPair : Restores readPair pairBytes fun pair => pair.2.length < 2 ^ 32 := by
  intro pair s h
  rw [pairBytes, append_assoc]
  exact reader_bind_eq_ok.mpr ⟨pair.1, _, restores_readHash pair.1 _ trivial,
    reader_bind_eq_ok.mpr ⟨pair.2, s, readBlob_eq_ok.mpr ⟨h, rfl⟩, rfl⟩⟩

theorem restores_readU8 : Restores readU8 (fun b => [b]) fun _ => True := by
  intro b s _
  have hle : leBytes 1 b.toNat = [b] := by simp [leBytes]
  refine reader_bind_eq_ok.mpr ⟨b.toNat, s, readLe_eq_ok.mpr ⟨b.toNat_lt, by rw [hle]⟩, ?_⟩
  rw [UInt8.ofNat_toNat]
  rfl

theorem restores_readBit : Restores readBit (fun b => [if b then 1 else 0]) fun _ => True := by
  intro b s _
  refine reader_bind_eq_ok.mpr ⟨_, s, restores_readU8 _ s trivial, ?_⟩
  cases b <;> rfl

theorem restores_decodeBody : Restores decodeBody Msg.bytes Msg.Counted := by
  intro m s h
  have htag {tag : Nat} (ht : tag < 256) (rest : List UInt8) :
      readLe truncated 1 (leBytes 1 tag ++ rest) = .ok (tag, rest) := readLe_eq_ok.mpr ⟨ht, rfl⟩
  unfold decodeBody
  cases m with
  | want keys =>
    rw [Msg.bytes, append_assoc]
    refine reader_bind_eq_ok.mpr ⟨_, _, htag (by decide) _, ?_⟩
    rw [if_pos rfl]
    exact reader_bind_eq_ok.mpr ⟨keys, s,
      restores_readHash.counted truncated 4 keys s ⟨h, fun _ _ => trivial⟩, rfl⟩
  | have' keys =>
    rw [Msg.bytes, append_assoc]
    refine reader_bind_eq_ok.mpr ⟨_, _, htag (by decide) _, ?_⟩
    rw [if_neg (by decide), if_pos rfl]
    exact reader_bind_eq_ok.mpr ⟨keys, s,
      restores_readHash.counted truncated 4 keys s ⟨h, fun _ _ => trivial⟩, rfl⟩
  | blobs pairs =>
    rw [Msg.bytes, append_assoc]
    refine reader_bind_eq_ok.mpr ⟨_, _, htag (by decide) _, ?_⟩
    rw [if_neg (by decide), if_neg (by decide), if_pos rfl]
    exact reader_bind_eq_ok.mpr ⟨pairs, s, restores_readPair.counted truncated 4 pairs s h, rfl⟩
  | held bits =>
    rw [Msg.bytes, append_assoc]
    refine reader_bind_eq_ok.mpr ⟨_, _, htag (by decide) _, ?_⟩
    rw [if_neg (by decide), if_neg (by decide), if_neg (by decide), if_pos rfl]
    exact reader_bind_eq_ok.mpr ⟨bits, s,
      restores_readBit.counted truncated 4 bits s ⟨h, fun _ _ => trivial⟩, rfl⟩
  | failed kind why =>
    rw [Msg.bytes, append_assoc, append_assoc]
    refine reader_bind_eq_ok.mpr ⟨_, _, htag (by decide) _, ?_⟩
    rw [if_neg (by decide), if_neg (by decide), if_neg (by decide), if_neg (by decide), if_pos rfl]
    refine reader_bind_eq_ok.mpr ⟨kind, _, restores_readU8 kind _ trivial,
      reader_bind_eq_ok.mpr ⟨utf8 why, s, readBlob_eq_ok.mpr ⟨h, rfl⟩, ?_⟩⟩
    rw [fromUTF8?_eq_some.mpr rfl]
    rfl

/-! ## Frames -/

/-- The message fits into a frame. -/
def Msg.Within (m : Msg) : Prop := m.bytes.length ≤ maxFrame

instance (m : Msg) : Decidable m.Within := inferInstanceAs (Decidable (_ ≤ _))

def Msg.frame (m : Msg) : List UInt8 := leBytes 4 m.bytes.length ++ m.bytes

section

variable {m : Msg}

theorem writeMsg_eq (h : m.Within) : writeMsg m = .ok m.frame := by
  have hlen : m.bytes.length < 2 ^ 32 := Nat.lt_of_le_of_lt h (by decide)
  rw [writeMsg, encodeBody_counted (Msg.counted_of_length h)]
  show (asU32 m.bytes.length >>= _) = _
  rw [asU32_of_lt hlen]
  show (if m.bytes.length > maxFrame then _ else _) = _
  rw [if_neg (Nat.not_lt.mpr h)]
  rfl

theorem readMsg_frame (h : m.Within) (s : List UInt8) : readMsg (m.frame ++ s) = .ok (m, s) := by
  have hlen : m.bytes.length < 256 ^ 4 := Nat.lt_of_le_of_lt h (by decide)
  have hbody := restores_decodeBody m [] (Msg.counted_of_length h)
  rw [append_nil] at hbody
  rw [Msg.frame, append_assoc]
  refine reader_bind_eq_ok.mpr ⟨_, _, readLe_eq_ok.mpr ⟨hlen, rfl⟩, ?_⟩
  rw [if_neg (Nat.not_lt.mpr h)]
  refine reader_bind_eq_ok.mpr ⟨m.bytes, s, readBytes_eq_ok.mpr ⟨rfl, rfl⟩, ?_⟩
  rw [hbody]
  rfl

theorem readMsg_cut (h : m.Within) {s : List UInt8} (hs : s <+: m.frame) (hne : s ≠ m.frame) :
    readMsg s = .error (.io .unexpectedEof) := by
  have hlen : m.bytes.length < 256 ^ 4 := Nat.lt_of_le_of_lt h (by decide)
  have hshort : s.length < 4 + m.bytes.length := by
    have hlt := Nat.lt_of_le_of_ne hs.length_le fun heq => hne (hs.eq_of_length heq)
    rwa [Msg.frame, length_append, length_leBytes] at hlt
  rcases Nat.lt_or_ge s.length 4 with hfour | hfour
  · exact reader_bind_eq_error.mpr (.inl (reader_bind_eq_error.mpr (.inl (readBytes_short hfour))))
  · obtain ⟨body, rfl⟩ : leBytes 4 m.bytes.length <+: s :=
      prefix_of_prefix_length_le (prefix_append ..) hs (by rwa [length_leBytes])
    refine reader_bind_eq_error.mpr (.inr ⟨_, body, readLe_eq_ok.mpr ⟨hlen, rfl⟩, ?_⟩)
    rw [length_append, length_leBytes] at hshort
    rw [if_neg (Nat.not_lt.mpr h)]
    exact reader_bind_eq_error.mpr (.inl (readBytes_short (by omega)))

end

/-! ## Streams -/

/-- One message after another. -/
def writeMsgs (msgs : List Msg) : Except CacheError (List UInt8) := do
  return (← msgs.mapM writeMsg).flatten

/-- Read up to `n` messages, until the first error. -/
def readMsgs : Nat → List UInt8 → List Msg × Option CacheError
  | 0, _ => ([], none)
  | n + 1, s =>
    match readMsg s with
    | .error e => ([], some e)
    | .ok (m, s) => (m :: (readMsgs n s).1, (readMsgs n s).2)

variable {msgs : List Msg}

theorem writeMsgs_eq (h : ∀ m ∈ msgs, m.Within) :
    writeMsgs msgs = .ok (msgs.flatMap Msg.frame) := by
  have hmap : msgs.mapM writeMsg = .ok (msgs.map Msg.frame) :=
    mapM_eq_ok.mpr (forall₂_map_right_iff.mpr (forall₂_same.mpr fun m hm =>
      writeMsg_eq (h m hm)))
  rw [writeMsgs, hmap, flatMap_def]
  rfl

theorem readMsgs_cut (h : ∀ m ∈ msgs, m.Within) {s : List UInt8}
    (hs : s <+: msgs.flatMap Msg.frame) (n : Nat) :
    (readMsgs n s).1 <+: msgs ∧ (msgs.length < n → (readMsgs n s).2 = some (.io .unexpectedEof)) ∧
      (msgs.length < n → s = msgs.flatMap Msg.frame → (readMsgs n s).1 = msgs) := by
  induction msgs generalizing s n with
  | nil =>
    obtain rfl := prefix_nil.mp hs
    cases n with
    | zero => exact ⟨prefix_rfl, fun h => absurd h (Nat.not_lt_zero _), fun _ _ => rfl⟩
    | succ n => exact ⟨prefix_rfl, fun _ => rfl, fun _ _ => rfl⟩
  | cons m msgs ih =>
    obtain ⟨hm, hmsgs⟩ := forall_mem_cons.mp h
    cases n with
    | zero =>
      exact ⟨⟨_, rfl⟩, fun h => absurd h (Nat.not_lt_zero _),
        fun h => absurd h (Nat.not_lt_zero _)⟩
    | succ n =>
      rw [flatMap_cons] at hs
      by_cases hcut : m.frame.length ≤ s.length
      · obtain ⟨rest, rfl⟩ := prefix_of_prefix_length_le (prefix_append ..) hs hcut
        obtain ⟨hmsgs, hend, hwhole⟩ := ih hmsgs ((prefix_append_right_inj _).mp hs) n
        rw [readMsgs, readMsg_frame hm, flatMap_cons, length_cons]
        exact ⟨(prefix_cons_inj m).mpr hmsgs, fun hn => hend (Nat.lt_of_succ_lt_succ hn),
          fun hn heq => congrArg (m :: ·)
            (hwhole (Nat.lt_of_succ_lt_succ hn) (append_cancel_left heq))⟩
      · have hlt := Nat.lt_of_not_le hcut
        have hshort : s <+: m.frame :=
          prefix_of_prefix_length_le hs (prefix_append ..) (Nat.le_of_lt hlt)
        have hne : s ≠ m.frame := fun heq => by
          rw [heq] at hlt
          exact absurd hlt (Nat.lt_irrefl _)
        rw [readMsgs, readMsg_cut hm hshort hne]
        refine ⟨⟨_, rfl⟩, fun _ => rfl, fun _ heq => ?_⟩
        rw [heq, flatMap_cons, length_append] at hlt
        omega

/-- Messages that fit into frames survive the wire: all of them are read, in order, and then
the stream ends; from a part of the stream, the first ones are read and then it ends. -/
theorem readMsgs_writeMsgs {msgs : List Msg} (h : ∀ m ∈ msgs, m.Within) :
    ∃ stream, writeMsgs msgs = .ok stream ∧
      (∀ n, msgs.length < n → readMsgs n stream = (msgs, some (.io .unexpectedEof))) ∧
      ∀ s, s <+: stream → s ≠ stream → ∀ n, (readMsgs n s).1 <+: msgs ∧
        (msgs.length < n → (readMsgs n s).2 = some (.io .unexpectedEof)) := by
  refine ⟨msgs.flatMap Msg.frame, writeMsgs_eq h, fun n hn => ?_, fun s hs _ n => ?_⟩
  · obtain ⟨-, hend, hwhole⟩ := readMsgs_cut h prefix_rfl n
    exact Prod.ext (hwhole hn rfl) (hend hn)
  · obtain ⟨hmsgs, hend, -⟩ := readMsgs_cut h hs n
    exact ⟨hmsgs, hend⟩

theorem readMsgs_held_failed : (∀ m ∈ [Msg.held [true, false], .failed 2 "no"], m.Within) ∧
      ∃ stream, writeMsgs [.held [true, false], .failed 2 "no"] = .ok stream ∧ readMsgs 3 stream =
          ([.held [true, false], .failed 2 "no"], some (.io .unexpectedEof)) := by
  have hwithin : ∀ m ∈ [Msg.held [true, false], .failed 2 "no"], m.Within := by decide +kernel
  obtain ⟨stream, hwrite, hread, -⟩ := readMsgs_writeMsgs hwithin
  exact ⟨hwithin, stream, hwrite, hread 3 (by decide)⟩

end Wire

end Dnet
