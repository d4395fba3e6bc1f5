import Dnet.Build.Daemon

/-!
# Frames of the daemon

The body of a frame between a client and the daemon (dnx-daemon/proto.rs) is a tag and what it
announces. A request has one body; a response is read back from its body, a store path from its
printed form (`proto_bijective`).
-/

namespace Dnet

namespace Proto

open Lib List

/-- A response with the texts and numbers that are sent. -/
inductive Response where
  | built (path : StorePath)
  | storePresent (p : Bool)
  | cacheHit (blob : List UInt8)
  | cacheMiss
  | pong (version queueDepth built : UInt32)
  | failed (kind : DaemonErrorKind) (detail : String)
  deriving DecidableEq

def tagBuild : Nat := 0x01
def tagStoreQuery : Nat := 0x03
def tagCacheLookup : Nat := 0x04
def tagPing : Nat := 0x05
def tagShutdown : Nat := 0x06
def tagBuilt : Nat := 0x81
def tagStorePresent : Nat := 0x82
def tagCacheHit : Nat := 0x83
def tagCacheMiss : Nat := 0x84
def tagPong : Nat := 0x85
def tagFailed : Nat := 0x86

/-- `*kind as u8`. -/
def asU8 : DaemonErrorKind → Nat
  | .io => 0
  | .frameTooLarge => 1
  | .badTag => 2
  | .build => 3
  | .notFound => 4
  | .protocol => 5
  | .hashMismatch => 6

def fromU8 : Nat → Option DaemonErrorKind
  | 0 => some .io
  | 1 => some .frameTooLarge
  | 2 => some .badTag
  | 3 => some .build
  | 4 => some .notFound
  | 5 => some .protocol
  | 6 => some .hashMismatch
  | _ => none

/-! ## Writing -/

/-- The length is cut to four bytes. -/
def putBytes (b : List UInt8) : List UInt8 := leBytes 4 b.length ++ b

def encodeRequest : Request → List UInt8
  | .build drv => leBytes 1 tagBuild ++ putBytes drv
  | .storeQuery h => leBytes 1 tagStoreQuery ++ h.1
  | .cacheLookup h => leBytes 1 tagCacheLookup ++ h.1
  | .ping => leBytes 1 tagPing
  | .shutdown => leBytes 1 tagShutdown

def encodeResponse : Response → List UInt8
  | .built path => leBytes 1 tagBuilt ++ putBytes (utf8 path.display)
  | .storePresent p => leBytes 1 tagStorePresent ++ leBytes 1 p.toNat
  | .cacheHit blob => leBytes 1 tagCacheHit ++ putBytes blob
  | .cacheMiss => leBytes 1 tagCacheMiss
  | .pong version queueDepth built =>
    leBytes 1 tagPong ++ (leBytes 4 version.toNat ++ (leBytes 4 queueDepth.toNat ++
      leBytes 4 built.toNat))
  | .failed kind detail => leBytes 1 tagFailed ++ (leBytes 1 (asU8 kind) ++ putBytes (utf8 detail))

/-! ## Reading -/

def short : DaemonError := .protocol "frame body too short"

def readU32 : Reader DaemonError UInt32 := do
  return UInt32.ofNat (← readLe short 4)

/-- A body is read to its end. -/
def finish {α : Type} (r : Reader DaemonError α) (body : List UInt8) : Except DaemonError α :=
  match r body with
  | .ok (a, []) => .ok a
  | .ok (_, _ :: _) => .error (.protocol "trailing bytes in frame")
  | .error e => .error e

def readRequest : Reader DaemonError Request := do
  let tag ← readLe short 1
  if tag = tagBuild then return .build (← readBlob short 4)
  else if tag = tagStoreQuery then return .storeQuery (← readArray short 32)
  else if tag = tagCacheLookup then return .cacheLookup (← readArray short 32)
  else if tag = tagPing then return .ping
  else if tag = tagShutdown then return .shutdown
  else throw .badTag

def decodeRequest : List UInt8 → Except DaemonError Request := finish readRequest

section

-- how `{:?}` prints a string, and how bytes that are not UTF-8 are read as text
variable (debug : String → String) (lossy : List UInt8 → String)

def printed : Message → String
  | .text s => s
  | .quoting before value after => before ++ debug value ++ after

def readBuilt (text : List UInt8) : Except DaemonError StorePath :=
  match String.fromUTF8? text.toByteArray with
  | none => .error (.protocol "store path is not utf-8")
  | some s => (StorePath.parse s).mapError fun e => .protocol (printed debug e.message)

def readResponse : Reader DaemonError Response := do
  let tag ← readLe short 1
  if tag = tagBuilt then return .built (← readBuilt debug (← readBlob short 4))
  else if tag = tagStorePresent then return .storePresent (decide ((← readLe short 1) ≠ 0))
  else if tag = tagCacheHit then return .cacheHit (← readBlob short 4)
  else if tag = tagCacheMiss then return .cacheMiss
  else if tag = tagPong then return .pong (← readU32) (← readU32) (← readU32)
  else if tag = tagFailed then
    match fromU8 (← readLe short 1) with
    | none => throw .badTag
    | some kind =>
      let detail ← readBlob short 4
      return .failed kind ((String.fromUTF8? detail.toByteArray).getD (lossy detail))
  else throw .badTag

def decodeResponse : List UInt8 → Except DaemonError Response := finish (readResponse debug lossy)

end

/-! ## The payloads -/

/-- The bytes whose length a request carries. -/
def payload : Request → List UInt8
  | .build drv => drv
  | _ => []

def Response.payload : Response → List UInt8
  | .built path => utf8 path.display
  | .cacheHit blob => blob
  | .failed _ detail => utf8 detail
  | _ => []

theorem finish_eq_ok {α : Type} {r : Reader DaemonError α} {body : List UInt8} {a : α} :
    finish r body = .ok a ↔ r body = .ok (a, []) := by
  unfold finish
  split <;> simp_all

theorem readTag {tag : Nat} (ht : tag < 256) (rest : List UInt8) :
    readLe short 1 (leBytes 1 tag ++ rest) = .ok (tag, rest) := readLe_eq_ok.mpr ⟨ht, rfl⟩

theorem readRequest_eq_ok {s s' : List UInt8} {r : Request} :
    readRequest s = .ok (r, s') ↔ (payload r).length < 2 ^ 32 ∧ s = encodeRequest r ++ s' := by
  constructor
  · intro h
    obtain ⟨tag, s1, ht, h⟩ := reader_bind_eq_ok.mp h
    rw [(readLe_eq_ok.mp ht).2]
    split_ifs at h with hb hq hc hp hs
    · obtain ⟨drv, _, hdrv, h⟩ := reader_bind_eq_ok.mp h
      cases h
      obtain ⟨hlt, rfl⟩ := readBlob_eq_ok.mp hdrv
      exact ⟨hlt, by simp [encodeRequest, putBytes, hb]⟩
    · obtain ⟨k, _, hk, h⟩ := reader_bind_eq_ok.mp h
      cases h
      exact ⟨Nat.two_pow_pos 32, by simp [encodeRequest, hq, readArray_eq_ok.mp hk]⟩
    · obtain ⟨k, _, hk, h⟩ := reader_bind_eq_ok.mp h
      cases h
      exact ⟨Nat.two_pow_pos 32, by simp [encodeRequest, hc, readArray_eq_ok.mp hk]⟩
    · cases h
      exact ⟨by decide, by rw [encodeRequest, hp]⟩
    · cases h
      exact ⟨by decide, by rw [encodeRequest, hs]⟩
    · cases h
  · rintro ⟨hlt, rfl⟩
    unfold readRequest
    cases r with
    | build drv =>
      rw [encodeRequest, append_assoc]
      exact reader_bind_eq_ok.mpr ⟨_, _, readTag (by decide) _,
        reader_bind_eq_ok.mpr ⟨drv, s', readBlob_eq_ok.mpr ⟨hlt, rfl⟩, rfl⟩⟩
    | storeQuery k | cacheLookup k =>
      rw [encodeRequest, append_assoc]
      exact reader_bind_eq_ok.mpr ⟨_, _, readTag (by decide) _,
        reader_bind_eq_ok.mpr ⟨k, s', readArray_eq_ok.mpr rfl, rfl⟩⟩
    | ping | shutdown => exact reader_bind_eq_ok.mpr ⟨_, _, readTag (by decide) _, rfl⟩

theorem readU32_leBytes (n : UInt32) (s : List UInt8) :
    readU32 (leBytes 4 n.toNat ++ s) = .ok (n, s) :=
  reader_bind_eq_ok.mpr ⟨_, s, readLe_eq_ok.mpr ⟨n.toNat_lt, rfl⟩, by rw [UInt32.ofNat_toNat]; rfl⟩

theorem readBuilt_display (debug : String → String) (path : StorePath) :
    readBuilt debug (utf8 path.display) = .ok path := by
  unfold readBuilt
  rw [fromUTF8?_eq_some.mpr rfl]
  exact congrArg (Except.mapError _) path.parse_display

theorem readResponse_encode (debug : String → String) (lossy : List UInt8 → String) {r : Response}
    (hlt : r.payload.length < 2 ^ 32) (s : List UInt8) :
    readResponse debug lossy (encodeResponse r ++ s) = .ok (r, s) := by
  unfold readResponse
  cases r with
  | built path =>
    rw [encodeResponse, append_assoc]
    refine reader_bind_eq_ok.mpr ⟨_, _, readTag (by decide) _, reader_bind_eq_ok.mpr
      ⟨utf8 path.display, s, readBlob_eq_ok.mpr ⟨hlt, rfl⟩, ?_⟩⟩
    rw [readBuilt_display]
    rfl
  | storePresent p =>
    rw [encodeResponse, append_assoc]
    refine reader_bind_eq_ok.mpr ⟨_, _, readTag (by decide) _, reader_bind_eq_ok.mpr
      ⟨_, s, readTag (by cases p <;> decide) s, ?_⟩⟩
    cases p <;> rfl
  | cacheHit blob =>
    rw [encodeResponse, append_assoc]
    exact reader_bind_eq_ok.mpr ⟨_, _, readTag (by decide) _, reader_bind_eq_ok.mpr
      ⟨blob, s, readBlob_eq_ok.mpr ⟨hlt, rfl⟩, rfl⟩⟩
  | cacheMiss => exact reader_bind_eq_ok.mpr ⟨_, _, readTag (by decide) _, rfl⟩
  | pong version queueDepth built =>
    simp only [encodeResponse, append_assoc]
    exact reader_bind_eq_ok.mpr ⟨_, _, readTag (by decide) _,
      reader_bind_eq_ok.mpr ⟨_, _, readU32_leBytes version _,
        reader_bind_eq_ok.mpr ⟨_, _, readU32_leBytes queueDepth _,
          reader_bind_eq_ok.mpr ⟨_, _, readU32_leBytes built s, rfl⟩⟩⟩⟩
  | failed kind detail =>
    have hkind : fromU8 (asU8 kind) = some kind := by cases kind <;> rfl
    simp only [encodeResponse, append_assoc]
    refine reader_bind_eq_ok.mpr ⟨_, _, readTag (by decide) _, reader_bind_eq_ok.mpr
      ⟨_, _, readTag (by cases kind <;> decide) _, ?_⟩⟩
    rw [hkind]
    refine reader_bind_eq_ok.mpr ⟨utf8 detail, s, readBlob_eq_ok.mpr ⟨hlt, rfl⟩, ?_⟩
    rw [fromUTF8?_eq_some.mpr rfl]
    rfl

/-- Requests and responses with payloads below 4 GiB are read back, and a body that is read as
a request is the body of that request. -/
theorem proto_bijective (debug : String → String) (lossy : List UInt8 → String) :
    (∀ r : Request, (payload r).length < 2 ^ 32 → decodeRequest (encodeRequest r) = .ok r) ∧
    (∀ r : Response, r.payload.length < 2 ^ 32 →
      decodeResponse debug lossy (encodeResponse r) = .ok r) ∧
    ∀ body r, decodeRequest body = .ok r → encodeRequest r = body := by
  refine ⟨fun r hr => ?_, fun r hr => ?_, fun body r h => ?_⟩
  · exact finish_eq_ok.mpr (readRequest_eq_ok.mpr ⟨hr, (append_nil _).symm⟩)
  · have := readResponse_encode debug lossy hr []
    rw [append_nil] at this
    exact finish_eq_ok.mpr this
  · have := (readRequest_eq_ok.mp (finish_eq_ok.mp h)).2
    rw [append_nil] at this
    exact this.symm

theorem hello_single : isSingleComponent "hello" = true := by decide +kernel

def helloPath : StorePath := ⟨⟨replicate 32 7, rfl⟩, "hello", hello_single⟩

theorem proto_bijective_build :
    decodeRequest (encodeRequest (.build [1, 2, 3])) = .ok (.build [1, 2, 3]) ∧
    decodeResponse id (fun _ => "") (encodeResponse (.built helloPath)) = .ok (.built helloPath) ∧
    ∀ body, decodeRequest body = .ok (.build [1, 2, 3]) →
      encodeRequest (.build [1, 2, 3]) = body := by
  obtain ⟨hrequest, hresponse, hbody⟩ := proto_bijective id fun _ => ""
  have hpath : (Response.built helloPath).payload.length < 2 ^ 32 := by decide +kernel
  exact ⟨hrequest _ (by decide), hresponse _ hpath, fun body => hbody body _⟩

end Proto

end Dnet
